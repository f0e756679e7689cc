import Companion.Kindled.Handshake
import Companion.Kindled.Json

/-!
# The checks of an inbound envelope

The functions of `brain/kindled_link/protocol.py` that an inbound envelope goes through, on any JSON
values. Each check passes, rejects the envelope, or raises: an exception that the function does not
catch leaves `poll_and_ingest`.

Keys, signatures and ciphertexts are those of a library, and so are a few conversions of texts; they
are the fields of `Library`. The depth at which Python gives up on nested values is left out.
-/

namespace Companion.Kindled

open Companion.Memory Companion.Kindled.Handshake

/-- A string: its code points, of which some may be surrogates. -/
abbrev Points := List ℕ

abbrev Value := Json Points

def pts (s : String) : Points := s.toList.map Char.toNat

/-- `envelope.get(key)` -/
def Value.field (e : Value) (key : String) : Option Value := e.get? (pts key)

/-- `bool(value)` -/
def Value.truthy : Value → Bool
  | .null => false
  | .bool b => b
  | .int n => n ≠ 0
  | .float (.finite x) => x ≠ 0
  | .float _ => true
  | .str s => !s.isEmpty
  | .arr items => !items.isEmpty
  | .obj items => !items.isEmpty

/-- `hash(value)` does not raise. -/
def Value.hashable : Value → Bool
  | .arr _ => false
  | .obj _ => false
  | _ => true

/-- A number and a Boolean compare by their values. -/
def Value.number? : Value → Option FloatValue
  | .bool b => some (.finite (if b then 1 else 0))
  | .int n => some (.finite n)
  | .float x => some x
  | _ => none

/-- `a == b`, where `a` and `b` have hashes; a NaN is equal to nothing. -/
def Value.equals : Value → Value → Bool
  | .null, .null => true
  | .str s, .str t => s = t
  | a, b =>
    match a.number?, b.number? with
    | some (.finite x), some (.finite y) => x = y
    | some (.infinite m), some (.infinite n) => m = n
    | _, _ => false

/-- `str.encode("utf-8")` does not raise. -/
def encodable (s : Points) : Bool := s.all fun c => !(0xD800 ≤ c && c ≤ 0xDFFF)

mutual

/-- `canonical_json` does not raise. -/
def canonical : Value → Bool
  | .str s => encodable s
  | .arr items => canonicalItems items
  | .obj items => canonicalFields items
  | _ => true

def canonicalItems : List Value → Bool
  | [] => true
  | v :: vs => canonical v && canonicalItems vs

def canonicalFields : List (Points × Value) → Bool
  | [] => true
  | (k, v) :: es => encodable k && canonical v && canonicalFields es

end

def hexDigit (c : ℕ) : Option ℕ :=
  if 48 ≤ c && c ≤ 57 then some (c - 48)
  else if 97 ≤ c && c ≤ 102 then some (c - 87)
  else if 65 ≤ c && c ≤ 70 then some (c - 55)
  else none

/-- `bytes.fromhex`, which skips ASCII whitespace between bytes; none where it raises `ValueError`.
-/
def fromHex : Points → Option (List ℕ)
  | [] => some []
  | [c] => if [9, 10, 11, 12, 13, 32].contains c then some [] else none
  | c :: d :: cs =>
    if [9, 10, 11, 12, 13, 32].contains c then fromHex (d :: cs)
    else do
      let high ← hexDigit c
      let low ← hexDigit d
      let bytes ← fromHex cs
      some ((16 * high + low) :: bytes)

/-- What the checks use of libraries, over session keys `κ` and ephemeral keys `ε`. -/
structure Library (κ ε : Type) where
  /-- The key id of this side. -/
  keyId : Points
  /-- `identity.verify`, with the public key in hex. -/
  verify : Points → List ℕ → Value → Bool
  /-- `decrypt_payload`, or none where it raises. -/
  decrypt : κ → Role → ℤ → Value → Option Value
  /-- `fingerprint` -/
  fingerprint : List ℕ → Points
  /-- The ephemeral key that is drawn to answer a peer's session. -/
  draw : Points → Points → ε
  /-- `derive_session_key` of this side's ephemeral key, the other one, the peer, the session and
  the salt, or none where the other ephemeral key is not one. -/
  deriveSessionKey : ε → List ℕ → Points → Points → List ℕ → Option κ
  /-- `strptime` with the format of the envelopes, or none where it raises `ValueError`. -/
  strptime : Points → Option Instant
  /-- `int` of a string, or none where it raises `ValueError`. -/
  intOfText : Points → Option ℤ
  /-- The text that a float becomes in a column of texts. -/
  textOfFloat : FloatValue → Points
  /-- The HTTP client encodes the value. -/
  sends : Value → Bool
  /-- The relay takes an acknowledgement. -/
  acks : List Points → Bool

/-- Why a check does not pass. -/
inductive Stop
  | rejects
  | raises
  deriving DecidableEq

variable {κ ε : Type}

def require (b : Bool) : Except Stop Unit := if b then .ok () else .error .rejects

/-- `envelope.get("protocol") != SUPPORTED_PROTOCOL` -/
def checkProtocol (e : Value) : Except Stop Unit :=
  require ((e.field "protocol").any (·.equals (.str (pts "kindled-link/1"))))

/-- The envelope without its signature. -/
def sigInput : Value → Value
  | .obj items => .obj (items.filter fun e => e.1 ≠ pts "signature")
  | v => v

/-- `verify_envelope_signature`, with the public key of the sender where there is one. -/
def checkSignature (L : Library κ ε) (pub : Option Points) (e : Value) : Except Stop Unit :=
  match e.field "signature" with
  | some (.str hex) =>
    match fromHex hex with
    | none => .error .rejects
    | some signature =>
      if !canonical (sigInput e) then .error .raises
      else require (pub.any fun pub => L.verify pub signature (sigInput e))
  | _ => .error .rejects

/-- `datetime.max` -/
def maxInstant : Instant := 253402300799999999

/-- `_expired`: the sum with the skew is outside of its `try`. -/
def checkExpiry (L : Library κ ε) (e : Value) (now : Instant) : Except Stop Unit :=
  match e.field "expires_at" with
  | some (.str text) =>
    match L.strptime text with
    | none => .error .rejects
    | some expires =>
      if maxInstant < expires + skew then .error .raises else require (!expired expires now)
  | _ => .error .rejects

/-- The `session_open` object. -/
def sessionOpenBody (e : Value) : Except Stop Value :=
  match e.field "session_open" with
  | some (.obj items) => .ok (.obj items)
  | _ => .error .rejects

/-- `parse_session_open`: the `session_open` object. -/
def parseSessionOpen (L : Library κ ε) (pub : Points) (e : Value) (now : Instant) :
    Except Stop Value := do
  checkProtocol e
  checkSignature L (some pub) e
  checkExpiry L e now
  sessionOpenBody e

/-- The new public key and key id, where the one is the fingerprint of the other. -/
def keyRotationBody (L : Library κ ε) (e : Value) : Except Stop (Points × Points) :=
  match (e.field "key_rotation").bind (·.field "new_identity_pub"),
      (e.field "key_rotation").bind (·.field "new_key_id") with
  | some (.str newPub), some (.str newKeyId) =>
    if (fromHex newPub).map L.fingerprint = some newKeyId then .ok (newPub, newKeyId)
    else .error .rejects
  | _, _ => .error .rejects

/-- `parse_key_rotation_notice`: the new public key and key id. -/
def parseKeyRotationNotice (L : Library κ ε) (pub : Points) (e : Value) (now : Instant) :
    Except Stop (Points × Points) := do
  checkProtocol e
  checkSignature L (some pub) e
  checkExpiry L e now
  keyRotationBody L e

/-- `int(envelope["sequence"])`, of which `OverflowError` is not caught. -/
def readSequence (L : Library κ ε) (e : Value) : Except Stop ℤ :=
  match e.field "sequence" with
  | some (.bool b) => .ok (if b then 1 else 0)
  | some (.int n) => .ok n
  | some (.float (.finite x)) => .ok (if 0 ≤ x then x.floor else x.ceil)
  | some (.float (.infinite _)) => .error .raises
  | some (.str text) => (L.intOfText text).elim (.error .rejects) .ok
  | _ => .error .rejects

/-- `verify_and_open`: the sequence and the payload. -/
def verifyAndOpen (L : Library κ ε) (pub : Option Points) (key : κ) (peerRole : Role)
    (highWater : ℤ) (e : Value) (now : Instant) : Except Stop (ℤ × Value) := do
  checkProtocol e
  checkSignature L pub e
  require ((e.field "recipient_key_id").any (·.equals (.str L.keyId)))
  let sequence ← readSequence L e
  require (highWater < sequence)
  checkExpiry L e now
  (L.decrypt key peerRole sequence e).elim (.error .rejects) fun payload => .ok (sequence, payload)

end Companion.Kindled
