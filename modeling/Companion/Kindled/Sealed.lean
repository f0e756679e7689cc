import Companion.Kindled.Encoding
import Companion.Kindled.Stamps
import Mathlib

/-!
# Sealed envelopes

`build_envelope` and `verify_and_open` of `brain/kindled_link/protocol.py`, with the reason for
which an envelope is rejected. The canonical text is used three times, each time without other
fields: for the payload, for what is authenticated with the ciphertext, and for what is signed.

An envelope opens as it was built (`opens_built`). Where a signature verifies just in case the
sender made it, nothing else opens, but for a signature that is the same bytes in another spelling
of its hex (`opens_respelled`).
-/

namespace Companion.Kindled.Sealed

open Companion.Memory Companion.Kindled.Handshake Companion.Kindled.Encoding
  Companion.Kindled.Stamps

/-- A `KindledIdentity`, with what its private key makes. -/
structure Identity where
  keyId : Points
  /-- The public key in hex. -/
  pub : Points
  sign : ByteArray → List ℕ
  sign_lt : ∀ m, ∀ b ∈ sign m, b < 256

/-- Ed25519 and ChaCha20-Poly1305, over session keys. -/
structure Crypto (κ : Type) where
  verify : Points → List ℕ → ByteArray → Bool
  encrypt : κ → List ℕ → ByteArray → ByteArray → List ℕ
  decrypt : κ → List ℕ → List ℕ → ByteArray → Option ByteArray
  encrypt_lt : ∀ key nonce plain aad, ∀ b ∈ encrypt key nonce plain aad, b < 256
  decrypt_encrypt : ∀ key nonce plain aad,
    decrypt key nonce (encrypt key nonce plain aad) aad = some plain

/-- The arguments of `build_envelope` but for the sender and the session key. -/
structure Message where
  payload : List (Points × Value)
  recipientKeyId : Points
  relayMailbox : Points
  sessionId : Points
  sequence : ℤ
  role : Role
  now : Instant
  ttl : Instant

/-! ## Building -/

/-- A digit in hex, in lower case. -/
def hexPoint (n : ℕ) : ℕ := if n < 10 then 48 + n else 87 + n

/-- `bytes.hex` -/
def hexText (bytes : List ℕ) : Points := bytes.flatMap fun b => [hexPoint (b / 16), hexPoint (b % 16)]

/-- `ROLE_INITIATOR` and `ROLE_RESPONDER` -/
def roleByte : Role → ℕ
  | .initiator => 0
  | .responder => 1

/-- `aead_nonce`: the role and the sequence in eleven bytes. -/
def aeadNonce (role : Role) (sequence : ℤ) : Option (List ℕ) :=
  if 0 ≤ sequence ∧ sequence < 2^88 then
    some (roleByte role :: (List.range 11).map fun k => sequence.toNat / 256^(10 - k) % 256)
  else none

/-- The fields that the ciphertext is authenticated with. -/
def aad : Value → Value
  | .obj items => .obj (items.filter fun e => ¬ (e.1 = pts "ciphertext" ∨ e.1 = pts "signature"))
  | v => v

/-- The first fields of an envelope. -/
def header (sender : Identity) (msg : Message) : List (Points × Value) :=
  [(pts "protocol", .str (pts "kindled-link/1")), (pts "relay_mailbox", .str msg.relayMailbox),
    (pts "sender_key_id", .str sender.keyId), (pts "recipient_key_id", .str msg.recipientKeyId),
    (pts "session_id", .str msg.sessionId), (pts "sequence", .int msg.sequence),
    (pts "created_at", .str (iso msg.now)), (pts "expires_at", .str (iso (msg.now + msg.ttl)))]

variable {κ ε : Type} (T : FloatTexts) (depth : ℕ) (C : Crypto κ)

/-- `encrypt_payload`, or none where it raises. -/
def encryptPayload (key : κ) (role : Role) (sequence : ℤ) (payload aad : Value) : Option Points := do
  let aadBytes ← canonicalJson T depth aad
  let nonce ← aeadNonce role sequence
  let plain ← canonicalJson T depth payload
  some (hexText (C.encrypt key nonce plain aadBytes))

/-- The envelope before it is signed. -/
def outer (sender : Identity) (key : κ) (msg : Message) : Option (List (Points × Value)) :=
  if minInstant ≤ msg.now + msg.ttl ∧ msg.now + msg.ttl ≤ maxInstant then
    (encryptPayload T depth C key msg.role msg.sequence (.obj msg.payload)
      (aad (.obj (header sender msg)))).map fun ciphertext =>
        header sender msg ++ [(pts "ciphertext", .str ciphertext)]
  else none

/-- An envelope with a signature. -/
def withSignature (items : List (Points × Value)) (hex : Points) : Value :=
  .obj (items ++ [(pts "signature", .str hex)])

/-- `build_envelope`, or none where it raises. -/
def buildEnvelope (sender : Identity) (key : κ) (msg : Message) : Option Value := do
  let items ← outer T depth C sender key msg
  let m ← canonicalJson T depth (sigInput (.obj items))
  some (withSignature items (hexText (sender.sign m)))

/-! ## Opening -/

/-- `decrypt_payload`, or none where it raises. -/
def decryptPayload (key : κ) (role : Role) (sequence : ℤ) (e : Value) : Option Value := do
  let aadBytes ← canonicalJson T depth (aad e)
  let .str hex ← e.field "ciphertext" | none
  let nonce ← aeadNonce role sequence
  let ciphertext ← fromHex hex
  let plain ← C.decrypt key nonce ciphertext aadBytes
  let text ← decodeUtf8 plain
  jsonLoads T depth text

/-- What `protocol.py` uses, with the functions of this module for its own. -/
def library (L : Library κ ε) : Library κ ε :=
  { L with
    verify := fun pub signature v => (canonicalJson T depth v).any (C.verify pub signature)
    decrypt := decryptPayload T depth C
    strptime := strptime }

inductive RejectReason
  | protocolMismatch
  | badSignature
  | wrongRecipient
  | aeadFailure
  | replay
  | expired
  deriving DecidableEq

/-- How a call ends without a payload. -/
inductive Failure
  | rejected (reason : RejectReason)
  | raised
  deriving DecidableEq

/-- A check with the reason for which it rejects. -/
def because {α : Type} (reason : RejectReason) : Except Stop α → Except Failure α
  | .ok a => .ok a
  | .error .rejects => .error (.rejected reason)
  | .error .raises => .error .raised

/-- `verify_and_open`: the sequence and the payload. -/
def verifyAndOpen (L : Library κ ε) (pub : Option Points) (key : κ) (senderRole : Role)
    (highWater : ℤ) (e : Value) (now : Instant) : Except Failure (ℤ × Value) := do
  because .protocolMismatch (checkProtocol e)
  because .badSignature (checkSignature L pub e)
  because .wrongRecipient
    (require ((e.field "recipient_key_id").any (·.equals (.str L.keyId))))
  let sequence ← because .aeadFailure (readSequence L e)
  because .replay (require (highWater < sequence))
  because .expired (checkExpiry L e now)
  because .aeadFailure ((L.decrypt key senderRole sequence e).elim (.error .rejects) fun payload =>
    .ok (sequence, payload))

/-- Whether a check rejects or raises. -/
def Failure.stop : Failure → Stop
  | .rejected _ => .rejects
  | .raised => .raises

theorem mapError_because {α : Type} (reason : RejectReason) (x : Except Stop α) :
    (because reason x).mapError Failure.stop = x := by
  rcases x with stop | a
  · cases stop <;> rfl
  · rfl

theorem because_ok {α : Type} (reason : RejectReason) (a : α) : because reason (.ok a) = .ok a := rfl

theorem ok_bind {α β E : Type} (a : α) (f : α → Except E β) : (Except.ok a >>= f) = f a := rfl

theorem mapError_bind {α β E E' : Type} (f : E → E') (x : Except E α) (g : α → Except E β) :
    (x >>= g).mapError f = x.mapError f >>= fun a => (g a).mapError f := by
  cases x <;> rfl

/-- Without the reasons it is the check of an inbound message. -/
theorem mapError_verifyAndOpen (L : Library κ ε) (pub : Option Points) (key : κ) (senderRole : Role)
    (highWater : ℤ) (e : Value) (now : Instant) :
    (verifyAndOpen L pub key senderRole highWater e now).mapError Failure.stop =
      Kindled.verifyAndOpen L pub key senderRole highWater e now := by
  simp only [verifyAndOpen, Kindled.verifyAndOpen, mapError_bind, mapError_because]

/-! ## Hex -/

theorem hexDigit_hexPoint {n : ℕ} (h : n < 16) : hexDigit (hexPoint n) = some n := by
  have hall : ∀ n < 16, hexDigit (hexPoint n) = some n := by decide
  exact hall n h

theorem fromHex_hexText {bytes : List ℕ} (h : ∀ b ∈ bytes, b < 256) :
    fromHex (hexText bytes) = some bytes := by
  have hblank : ∀ n < 16, [9, 10, 11, 12, 13, 32].contains (hexPoint n) = false := by decide
  induction bytes with
  | nil => rfl
  | cons b bytes ih =>
    obtain ⟨hb, hbytes⟩ := List.forall_mem_cons.mp h
    have htext : hexText (b :: bytes) =
        hexPoint (b / 16) :: hexPoint (b % 16) :: hexText bytes := rfl
    have hsum : 16 * (b / 16) + b % 16 = b := Nat.div_add_mod b 16
    rw [htext, fromHex, hblank _ (by omega), hexDigit_hexPoint (by omega),
      hexDigit_hexPoint (by omega), ih hbytes]
    simp [hsum]

/-! ## Fields -/

theorem get?_of_mem {items : List (Points × Value)} (hkeys : (items.map Prod.fst).Nodup)
    {key : Points} {v : Value} (h : (key, v) ∈ items) : (Json.obj items).get? key = some v :=
  Dict.get?_eq_some (d := ⟨items, hkeys⟩).mpr h

/-- The keys of an envelope without a signature. -/
def outerKeys : List Points :=
  [pts "protocol", pts "relay_mailbox", pts "sender_key_id", pts "recipient_key_id",
    pts "session_id", pts "sequence", pts "created_at", pts "expires_at", pts "ciphertext"]

theorem nodup_outerKeys : (outerKeys ++ [pts "signature"]).Nodup := by decide +kernel

section Built

variable {T : FloatTexts} {depth : ℕ} {C : Crypto κ} {sender : Identity} {key : κ} {msg : Message}
  {items : List (Points × Value)}

/-- What `outer` has made. -/
theorem outer_eq_some (h : outer T depth C sender key msg = some items) :
    (minInstant ≤ msg.now + msg.ttl ∧ msg.now + msg.ttl ≤ maxInstant) ∧
      ∃ aadBytes nonce plain, canonicalJson T depth (aad (.obj (header sender msg))) = some aadBytes ∧
        aeadNonce msg.role msg.sequence = some nonce ∧
        canonicalJson T depth (.obj msg.payload) = some plain ∧
        items = header sender msg ++
          [(pts "ciphertext", .str (hexText (C.encrypt key nonce plain aadBytes)))] := by
  unfold outer at h
  split_ifs at h with htime
  obtain ⟨ciphertext, hciphertext, rfl⟩ := Option.map_eq_some_iff.mp h
  obtain ⟨aadBytes, haad, h⟩ := Option.bind_eq_some_iff.mp hciphertext
  obtain ⟨nonce, hnonce, h⟩ := Option.bind_eq_some_iff.mp h
  obtain ⟨plain, hplain, h⟩ := Option.bind_eq_some_iff.mp h
  obtain rfl := Option.some.inj h
  exact ⟨htime, aadBytes, nonce, plain, haad, hnonce, hplain, rfl⟩

theorem map_fst_outer (h : outer T depth C sender key msg = some items) :
    items.map Prod.fst = outerKeys := by
  obtain ⟨-, _, _, _, -, -, -, rfl⟩ := outer_eq_some h
  rfl

theorem nodup_withSignature (h : outer T depth C sender key msg = some items) (hex : Points) :
    ((items ++ [(pts "signature", Json.str hex)]).map Prod.fst).Nodup := by
  rw [List.map_append, map_fst_outer h]
  exact nodup_outerKeys

/-- A field that is there before the signature. -/
theorem get?_withSignature (h : outer T depth C sender key msg = some items) (hex : Points)
    {k : Points} {v : Value} (hv : (k, v) ∈ items) : (withSignature items hex).get? k = some v :=
  get?_of_mem (nodup_withSignature h hex) (List.mem_append_left _ hv)

theorem get?_signature (h : outer T depth C sender key msg = some items) (hex : Points) :
    (withSignature items hex).get? (pts "signature") = some (.str hex) :=
  get?_of_mem (nodup_withSignature h hex) (List.mem_append_right _ (List.mem_singleton_self _))

/-- What is signed is all that is there before the signature. -/
theorem sigInput_withSignature (h : outer T depth C sender key msg = some items) (hex : Points) :
    sigInput (withSignature items hex) = .obj items ∧ sigInput (.obj items) = .obj items := by
  have hkeys := nodup_withSignature h hex
  have hself : (items.filter fun e => e.1 ≠ pts "signature") = items := by
    refine List.filter_eq_self.mpr fun e he => decide_eq_true fun heq => ?_
    rw [List.map_append, List.nodup_append] at hkeys
    exact hkeys.2.2 e.1 (List.mem_map_of_mem he) _ (List.mem_singleton_self _) heq
  refine ⟨?_, by rw [sigInput, hself]⟩
  rw [withSignature, sigInput, List.filter_append, hself]
  simp

/-- What is authenticated are the first fields, in the envelope as when it was built. -/
theorem aad_withSignature (hex : Points) (ciphertext : Points) :
    aad (withSignature (header sender msg ++ [(pts "ciphertext", .str ciphertext)]) hex) =
      aad (.obj (header sender msg)) := by
  rw [withSignature, aad, aad, List.filter_append, List.filter_append]
  simp

/-! ## Opening what was built -/

variable {L : Library κ ε} {hex : Points}

theorem checkProtocol_withSignature (h : outer T depth C sender key msg = some items) :
    checkProtocol (withSignature items hex) = .ok () := by
  have hmem : (pts "protocol", Json.str (pts "kindled-link/1")) ∈ items := by
    obtain ⟨-, _, _, _, -, -, -, rfl⟩ := outer_eq_some h
    simp [header]
  rw [checkProtocol, Value.field, get?_withSignature h hex hmem]
  simp [require, Value.equals]

/-- A signature of the sender over the fields before it verifies, in any spelling of its hex. -/
theorem checkSignature_withSignature (h : outer T depth C sender key msg = some items)
    {m : ByteArray} (hm : canonicalJson T depth (.obj items) = some m) {signature : List ℕ}
    (hhex : fromHex hex = some signature) (hverify : C.verify sender.pub signature m = true) :
    checkSignature (library T depth C L) (some sender.pub) (withSignature items hex) = .ok () := by
  have hinput := (sigInput_withSignature h hex).1
  have hcanonical : canonical (.obj items) = true := (canonicalJson_eq hm).1
  rw [checkSignature, Value.field, get?_signature h hex]
  simp [hhex, hinput, hcanonical, library, hm, hverify, require]

theorem checkRecipient_withSignature (h : outer T depth C sender key msg = some items)
    (hkey : L.keyId = msg.recipientKeyId) :
    require (((withSignature items hex).field "recipient_key_id").any (·.equals (.str L.keyId))) =
      .ok () := by
  have hmem : (pts "recipient_key_id", Json.str msg.recipientKeyId) ∈ items := by
    obtain ⟨-, _, _, _, -, -, -, rfl⟩ := outer_eq_some h
    simp [header]
  rw [Value.field, get?_withSignature h hex hmem]
  simp [require, Value.equals, hkey]

theorem readSequence_withSignature (h : outer T depth C sender key msg = some items) :
    readSequence L (withSignature items hex) = .ok msg.sequence := by
  have hmem : (pts "sequence", Json.int msg.sequence) ∈ items := by
    obtain ⟨-, _, _, _, -, -, -, rfl⟩ := outer_eq_some h
    simp [header]
  rw [readSequence, Value.field, get?_withSignature h hex hmem]

/-- The envelope expires after the second of its time, and the skew. -/
theorem checkExpiry_withSignature (h : outer T depth C sender key msg = some items) (now : Instant) :
    checkExpiry (library T depth C L) (withSignature items hex) now =
      if maxInstant < toSecond (msg.now + msg.ttl) + skew then .error .raises
      else require (!expired (toSecond (msg.now + msg.ttl)) now) := by
  obtain ⟨htime, _, _, _, -, -, -, hitems⟩ := outer_eq_some h
  have hmem : (pts "expires_at", Json.str (iso (msg.now + msg.ttl))) ∈ items := by
    rw [hitems]
    simp [header]
  have hstamp : (library T depth C L).strptime (iso (msg.now + msg.ttl)) =
      some (toSecond (msg.now + msg.ttl)) := strptime_iso htime.1 htime.2
  rw [checkExpiry, Value.field, get?_withSignature h hex hmem]
  simp only [hstamp]

/-- The payload is decrypted, with the keys in order. -/
theorem decryptPayload_withSignature (h : outer T depth C sender key msg = some items)
    (hpayload : (Json.obj msg.payload).Distinct) :
    decryptPayload T depth C key msg.role msg.sequence (withSignature items hex) =
      some (sorted (.obj msg.payload)) := by
  obtain ⟨-, aadBytes, nonce, plain, haad, hnonce, hplain, hitems⟩ := outer_eq_some h
  have hbytes : ∀ b ∈ C.encrypt key nonce plain aadBytes, b < 256 := C.encrypt_lt _ _ _ _
  have hmem : (pts "ciphertext", Json.str (hexText (C.encrypt key nonce plain aadBytes))) ∈ items := by
    rw [hitems]
    simp
  -- The ciphertext and the signature are not in what is authenticated.
  have haad' : aad (withSignature items hex) = aad (.obj (header sender msg)) := by
    rw [hitems]
    exact aad_withSignature hex _
  obtain ⟨text, htext, rfl⟩ := canonicalText_of_canonicalJson hplain
  rw [decryptPayload, haad', haad, Value.field, get?_withSignature h hex hmem]
  simp only [Option.bind_eq_bind, Option.bind_some, hnonce, fromHex_hexText hbytes,
    C.decrypt_encrypt, decodeUtf8_toUTF8, jsonLoads_canonicalText hpayload htext]

/-- What comes of an envelope that was built, with its signature in any spelling. -/
theorem verifyAndOpen_withSignature (h : outer T depth C sender key msg = some items)
    (hpayload : (Json.obj msg.payload).Distinct) {m : ByteArray}
    (hm : canonicalJson T depth (.obj items) = some m) {signature : List ℕ}
    (hhex : fromHex hex = some signature) (hverify : C.verify sender.pub signature m = true)
    (hkey : L.keyId = msg.recipientKeyId) (highWater : ℤ) (now : Instant) :
    verifyAndOpen (library T depth C L) (some sender.pub) key msg.role highWater
        (withSignature items hex) now =
      if msg.sequence ≤ highWater then .error (.rejected .replay)
      else if maxInstant < toSecond (msg.now + msg.ttl) + skew then .error .raised
      else if toSecond (msg.now + msg.ttl) + skew < now then .error (.rejected .expired)
      else .ok (msg.sequence, sorted (.obj msg.payload)) := by
  have hkey' : (library T depth C L).keyId = msg.recipientKeyId := hkey
  have hdecrypt : (library T depth C L).decrypt key msg.role msg.sequence (withSignature items hex) =
      some (sorted (.obj msg.payload)) := decryptPayload_withSignature h hpayload
  rw [verifyAndOpen, checkProtocol_withSignature h, checkSignature_withSignature h hm hhex hverify,
    checkRecipient_withSignature h hkey', readSequence_withSignature h, checkExpiry_withSignature h]
  simp only [because_ok, ok_bind, hdecrypt, Option.elim_some]
  -- The checks after the sequence depend on the receiver.
  by_cases hreplay : msg.sequence ≤ highWater
  · have hrequire : require (decide (highWater < msg.sequence)) = .error .rejects := by
      simp [require, hreplay]
    rw [if_pos hreplay]
    simp only [hrequire]
    rfl
  · have hrequire : require (decide (highWater < msg.sequence)) = .ok () := by
      simp [require, not_le.mp hreplay]
    rw [if_neg hreplay]
    simp only [hrequire]
    split_ifs with hmax hexpired
    · rfl
    · have hexpired' : require (!expired (toSecond (msg.now + msg.ttl)) now) = .error .rejects := by
        simp [require, expired, hexpired]
      rw [hexpired']
      rfl
    · have hexpired' : require (!expired (toSecond (msg.now + msg.ttl)) now) = .ok () := by
        simp [require, expired, not_lt.mp hexpired]
      rw [hexpired']
      rfl

/-! ## Other envelopes -/

/-- The bytes of a signature. -/
def signatureBytes (e : Value) : Option (List ℕ) :=
  match e.field "signature" with
  | some (.str hex) => fromHex hex
  | _ => none

/-- Two envelopes have another field, or signatures of other bytes. -/
def Differs (e e' : Value) : Prop :=
  (∃ k, k ≠ pts "signature" ∧ e'.get? k ≠ e.get? k) ∨ signatureBytes e' ≠ signatureBytes e

/-- A signature verifies just in case the sender has signed these bytes, and it is the one made. -/
def Ideal (C : Crypto κ) (sender : Identity) (signed : ByteArray → Prop) : Prop :=
  ∀ m signature, C.verify sender.pub signature m = true ↔ signed m ∧ signature = sender.sign m

theorem get?_sigInput {items : List (Points × Value)} (hkeys : (items.map Prod.fst).Nodup) {k : Points}
    (hk : k ≠ pts "signature") : (sigInput (.obj items)).get? k = (Json.obj items).get? k := by
  have hpop := Dict.get?_pop (⟨items, hkeys⟩ : Dict Points Value) (pts "signature") k
  rw [if_neg hk] at hpop
  exact hpop

/-- The fields of an envelope are strings and numbers. -/
theorem plain_of_get? (h : outer T depth C sender key msg = some items) {k : Points} {v : Value}
    (hv : (Json.obj items).get? k = some v) : (∃ s, v = .str s) ∨ ∃ n, v = .int n := by
  have hkeys : (items.map Prod.fst).Nodup := by
    rw [map_fst_outer h]
    exact (List.nodup_append.mp nodup_outerKeys).1
  have hmem : (k, v) ∈ items := Dict.get?_eq_some (d := ⟨items, hkeys⟩).mp hv
  obtain ⟨-, _, _, _, -, -, -, rfl⟩ := outer_eq_some h
  simp only [header, List.cons_append, List.nil_append, List.mem_cons, Prod.mk.injEq,
    List.not_mem_nil, or_false] at hmem
  rcases hmem with ⟨-, rfl⟩ | ⟨-, rfl⟩ | ⟨-, rfl⟩ | ⟨-, rfl⟩ | ⟨-, rfl⟩ | ⟨-, rfl⟩ | ⟨-, rfl⟩ |
    ⟨-, rfl⟩ | ⟨-, rfl⟩
  case inr.inr.inr.inr.inr.inl => exact .inr ⟨_, rfl⟩
  all_goals exact .inl ⟨_, rfl⟩

/-- A string or a number is no other value with its keys in order. -/
theorem eq_of_sorted_eq {v w : Value} (hw : (∃ s, w = .str s) ∨ ∃ n, w = .int n)
    (h : sorted v = w) : v = w := by
  cases v with
  | arr items => rcases hw with ⟨_, rfl⟩ | ⟨_, rfl⟩ <;> cases h
  | obj items => rcases hw with ⟨_, rfl⟩ | ⟨_, rfl⟩ <;> cases h
  | _ => exact h

/-- An envelope of which the same bytes are signed has the same fields but for the signature. -/
theorem get?_eq_of_sigInput (h : outer T depth C sender key msg = some items)
    {items' : List (Points × Value)} (hdistinct : (Json.obj items').Distinct) {m : ByteArray}
    (hm : canonicalJson T depth (.obj items) = some m)
    (hm' : canonicalJson T depth (sigInput (.obj items')) = some m) {k : Points}
    (hk : k ≠ pts "signature") : (Json.obj items').get? k = (withSignature items hex).get? k := by
  have hkeys : (items.map Prod.fst).Nodup := by
    rw [map_fst_outer h]
    exact (List.nodup_append.mp nodup_outerKeys).1
  have hdistinct₀ : (Json.obj items).Distinct := by
    refine .obj hkeys fun item hitem => ?_
    rcases plain_of_get? h (get?_of_mem hkeys hitem) with ⟨s, hs⟩ | ⟨n, hn⟩
    · rw [hs]
      exact .str s
    · rw [hn]
      exact .int n
  have hself : (withSignature items hex).get? k = (Json.obj items).get? k := by
    rw [← (sigInput_withSignature h hex).1]
    exact (get?_sigInput (nodup_withSignature h hex) hk).symm
  cases hdistinct with
  | obj hkeys' hvalues =>
    -- The two texts are those of the same fields in order.
    have hkeys'' := hkeys'.sublist ((List.filter_sublist (p := fun e => e.1 ≠ pts "signature")).map
      Prod.fst)
    have hsorted := congrArg (Json.get? · k) (sorted_eq_of_canonicalJson
      (.obj hkeys'' fun item hitem => hvalues item (List.mem_of_mem_filter hitem)) hdistinct₀ hm' hm)
    simp only [get?_sorted hkeys'', get?_sorted hkeys] at hsorted
    have hinput := get?_sigInput hkeys' hk
    rw [sigInput] at hinput
    rw [hinput] at hsorted
    rw [hself]
    cases hget : (Json.obj items).get? k with
    | none =>
      rw [hget] at hsorted
      exact Option.map_eq_none_iff.mp hsorted
    | some v =>
      have hplain := plain_of_get? h hget
      have hv : sorted v = v := by rcases hplain with ⟨_, rfl⟩ | ⟨_, rfl⟩ <;> rfl
      rw [hget, Option.map_some, hv] at hsorted
      obtain ⟨v', hv', heq⟩ := Option.map_eq_some_iff.mp hsorted
      rw [hv', eq_of_sorted_eq hplain heq]

/-- Where the sender has signed nothing else, an envelope that differs is rejected, by whomever it
is opened, unless its text cannot be encoded. -/
theorem rejected_of_differs (h : outer T depth C sender key msg = some items)
    {m : ByteArray} (hhex : fromHex hex = some (sender.sign m))
    (hm : canonicalJson T depth (.obj items) = some m) {signed : ByteArray → Prop}
    (hideal : Ideal C sender signed) {items' : List (Points × Value)}
    (hdistinct : (Json.obj items').Distinct) (hdiffers : Differs (withSignature items hex) (.obj items'))
    {m' : ByteArray} (hm' : canonicalJson T depth (sigInput (.obj items')) = some m')
    (hsigned : signed m' → m' = m) (key' : κ) (role : Role) (highWater : ℤ) (now : Instant) :
    ∃ reason, verifyAndOpen (library T depth C L) (some sender.pub) key' role highWater (.obj items')
      now = .error (.rejected reason) := by
  have hprotocol : checkProtocol (.obj items') = .ok () ∨
      checkProtocol (.obj items') = .error .rejects := by
    unfold checkProtocol require
    split_ifs
    · exact .inl rfl
    · exact .inr rfl
  have hsignature : checkSignature (library T depth C L) (some sender.pub) (.obj items') =
      .error .rejects := by
    have hcanonical : canonical (sigInput (.obj items')) = true := (canonicalJson_eq hm').1
    have hbytes : signatureBytes (withSignature items hex) = some (sender.sign m) := by
      rw [signatureBytes, Value.field, get?_signature h hex]
      exact hhex
    -- What verifies is the signature that was made, over the text that was signed, and then nothing
    -- differs.
    have hfalse : ∀ hex', Value.field (.obj items') "signature" = some (.str hex') →
        ∀ signature, fromHex hex' = some signature → C.verify sender.pub signature m' = false := by
      intro hex' hfield signature hhex'
      refine Bool.eq_false_iff.mpr fun hverify => ?_
      obtain ⟨hmade, rfl⟩ := (hideal m' signature).mp hverify
      obtain rfl := hsigned hmade
      rcases hdiffers with ⟨k, hk, hne⟩ | hne
      · exact hne (get?_eq_of_sigInput h hdistinct hm hm' hk)
      · rw [hbytes, signatureBytes, hfield] at hne
        exact hne hhex'
    rw [checkSignature]
    split
    · rename_i hex' hfield
      split
      · rfl
      · rename_i signature hhex'
        have hverify := hfalse hex' hfield signature hhex'
        simp [hcanonical, library, hm', hverify, require]
    · rfl
  rcases hprotocol with hok | hno
  · refine ⟨.badSignature, ?_⟩
    rw [verifyAndOpen, hok, hsignature]
    rfl
  · refine ⟨.protocolMismatch, ?_⟩
    rw [verifyAndOpen, hno]
    rfl

/-! ## All envelopes -/

theorem exists_aeadNonce (role : Role) {sequence : ℤ} (h : 0 ≤ sequence ∧ sequence < 2^88) :
    ∃ nonce, aeadNonce role sequence = some nonce := ⟨_, if_pos h⟩

theorem lt_of_mem_hexText {bytes : List ℕ} (h : ∀ b ∈ bytes, b < 256) {c : ℕ}
    (hc : c ∈ hexText bytes) : c < 0x80 := by
  obtain ⟨b, hb, hc⟩ := List.mem_flatMap.mp hc
  have hlt := h b hb
  have hpoint : ∀ n < 16, hexPoint n < 0x80 := by decide
  simp only [List.mem_cons, List.not_mem_nil, or_false] at hc
  rcases hc with rfl | rfl
  · exact hpoint _ (by omega)
  · exact hpoint _ (by omega)

/-- The message can be sent: its strings are texts, its payload has a canonical text, its sequence
is one of a nonce, and it expires at a time. -/
structure Sendable (T : FloatTexts) (depth : ℕ) (sender : Identity) (msg : Message) : Prop where
  strings : ∀ s ∈ [msg.relayMailbox, sender.keyId, msg.recipientKeyId, msg.sessionId],
    ∃ t, chars s = some t
  payload : ∃ t, canonicalText T depth (.obj msg.payload) = some t
  sequence : 0 ≤ msg.sequence ∧ msg.sequence < 2^88
  expires : minInstant ≤ msg.now + msg.ttl ∧ msg.now + msg.ttl ≤ maxInstant

/-- A message that can be sent is built. -/
theorem exists_buildEnvelope (h : Sendable T (depth + 1) sender msg) :
    ∃ items m, outer T (depth + 1) C sender key msg = some items ∧
      canonicalJson T (depth + 1) (.obj items) = some m ∧
      buildEnvelope T (depth + 1) C sender key msg =
        some (withSignature items (hexText (sender.sign m))) := by
  -- All fields are strings that are texts, and a number.
  have hheader : ∀ item ∈ header sender msg, (∃ k, chars item.1 = some k) ∧
      ∃ t, canonicalText T depth item.2 = some t := by
    have hstamp : ∀ t, ∃ u, canonicalText T depth (.str (iso t)) = some u := fun t =>
      exists_canonicalText_str (exists_chars_of_lt fun c hc => lt_of_mem_iso hc)
    simp only [header, List.forall_mem_cons, chars_pts]
    refine ⟨⟨⟨_, rfl⟩, exists_canonicalText_str ⟨_, chars_pts _⟩⟩,
      ⟨⟨_, rfl⟩, exists_canonicalText_str (h.strings _ (by simp))⟩,
      ⟨⟨_, rfl⟩, exists_canonicalText_str (h.strings _ (by simp))⟩,
      ⟨⟨_, rfl⟩, exists_canonicalText_str (h.strings _ (by simp))⟩,
      ⟨⟨_, rfl⟩, exists_canonicalText_str (h.strings _ (by simp))⟩,
      ⟨⟨_, rfl⟩, exists_canonicalText_int h.sequence⟩, ⟨⟨_, rfl⟩, hstamp _⟩, ⟨⟨_, rfl⟩, hstamp _⟩,
      fun _ hmem => absurd hmem List.not_mem_nil⟩
  have hfiltered : ∀ item ∈ (header sender msg).filter fun e =>
      ¬ (e.1 = pts "ciphertext" ∨ e.1 = pts "signature"), (∃ k, chars item.1 = some k) ∧
        ∃ t, canonicalText T depth item.2 = some t :=
    fun item hitem => hheader item (List.mem_of_mem_filter hitem)
  obtain ⟨aadText, haad⟩ := exists_canonicalText_obj hfiltered
  obtain ⟨plain, hplain⟩ := h.payload
  obtain ⟨nonce, hnonce⟩ := exists_aeadNonce msg.role h.sequence
  obtain ⟨ciphertext, hciphertext⟩ : ∃ ciphertext, C.encrypt key nonce (String.ofList plain).toUTF8
    (String.ofList aadText).toUTF8 = ciphertext := ⟨_, rfl⟩
  have houter : outer T (depth + 1) C sender key msg =
      some (header sender msg ++ [(pts "ciphertext", .str (hexText ciphertext))]) := by
    rw [outer, if_pos h.expires, encryptPayload, aad, canonicalJson, canonicalJson, haad, hplain,
      hnonce, ← hciphertext]
    rfl
  -- The ciphertext is hex, whatever it is.
  have hlt : ∀ b ∈ ciphertext, b < 256 := hciphertext ▸ C.encrypt_lt _ _ _ _
  have hitems : ∀ item ∈ header sender msg ++ [(pts "ciphertext", Json.str (hexText ciphertext))],
      (∃ k, chars item.1 = some k) ∧ ∃ t, canonicalText T depth item.2 = some t := by
    intro item hitem
    rcases List.mem_append.mp hitem with hmem | hmem
    · exact hheader item hmem
    · rw [List.mem_singleton.mp hmem]
      exact ⟨⟨_, chars_pts _⟩, exists_canonicalText_str
        (exists_chars_of_lt fun c hc => lt_of_mem_hexText hlt hc)⟩
  obtain ⟨text, htext⟩ := exists_canonicalText_obj hitems
  have hm : canonicalJson T (depth + 1) (.obj (header sender msg ++
      [(pts "ciphertext", .str (hexText ciphertext))])) = some (String.ofList text).toUTF8 := by
    rw [canonicalJson, htext]
    rfl
  refine ⟨_, _, houter, hm, ?_⟩
  rw [buildEnvelope, houter]
  simp only [Option.bind_eq_bind, Option.bind_some, (sigInput_withSignature houter []).2, hm]

/-- **An envelope opens as it was built**, and is refused when it was seen or has expired. Where a
signature verifies just in case the sender made it, no envelope with another field opens that the
sender has not signed too, unless its text cannot be encoded. -/
theorem opens_built (h : Sendable T (depth + 1) sender msg)
    (hpayload : (Json.obj msg.payload).Distinct) (hkey : L.keyId = msg.recipientKeyId) :
    ∃ e, buildEnvelope T (depth + 1) C sender key msg = some e ∧
      ∀ signed : ByteArray → Prop, Ideal C sender signed →
        (∀ m, canonicalJson T (depth + 1) (sigInput e) = some m → signed m) →
      let L' := library T (depth + 1) C L
      let expires := toSecond (msg.now + msg.ttl)
      (∀ highWater now, highWater < msg.sequence → now ≤ expires + skew →
          expires + skew ≤ maxInstant →
            verifyAndOpen L' (some sender.pub) key msg.role highWater e now =
              .ok (msg.sequence, sorted (.obj msg.payload))) ∧
        (∀ highWater now, msg.sequence ≤ highWater →
          verifyAndOpen L' (some sender.pub) key msg.role highWater e now =
            .error (.rejected .replay)) ∧
        (∀ highWater now, highWater < msg.sequence → expires + skew < now →
          expires + skew ≤ maxInstant →
            verifyAndOpen L' (some sender.pub) key msg.role highWater e now =
              .error (.rejected .expired)) ∧
        ∀ items' m', (Json.obj items').Distinct → Differs e (.obj items') →
          canonicalJson T (depth + 1) (sigInput (.obj items')) = some m' →
          (signed m' → canonicalJson T (depth + 1) (sigInput e) = some m') →
            ∀ key' role highWater now, ∃ reason,
              verifyAndOpen L' (some sender.pub) key' role highWater (.obj items') now =
                .error (.rejected reason) := by
  obtain ⟨items, m, houter, hm, hbuild⟩ := exists_buildEnvelope (C := C) h
  refine ⟨_, hbuild, fun signed hideal hsigned => ?_⟩
  intro L' expires
  rw [(sigInput_withSignature houter _).1] at hsigned ⊢
  have hhex : fromHex (hexText (sender.sign m)) = some (sender.sign m) :=
    fromHex_hexText (sender.sign_lt m)
  have hverify : C.verify sender.pub (sender.sign m) m = true :=
    (hideal m _).mpr ⟨hsigned m hm, rfl⟩
  have hopen := verifyAndOpen_withSignature houter hpayload hm hhex hverify hkey
  refine ⟨fun highWater now hnew htime hmax => ?_, fun highWater now hseen => ?_,
    fun highWater now hnew htime hmax => ?_, fun items' m' hdistinct hdiffers hm' hother => ?_⟩
  · rw [hopen, if_neg (not_le.mpr hnew), if_neg (not_lt.mpr hmax), if_neg (not_lt.mpr htime)]
  · rw [hopen, if_pos hseen]
  · rw [hopen, if_neg (not_le.mpr hnew), if_neg (not_lt.mpr hmax), if_pos htime]
  · refine rejected_of_differs houter hhex hm hideal hdistinct hdiffers hm' fun hmade => ?_
    exact Option.some.inj ((hother hmade).symm.trans hm)

end Built

/-! ## A message -/

/-- Floats of which none has a text. -/
def noFloats : FloatTexts := ⟨fun _ => none, fun _ => .nan, nofun, nofun⟩

def sampleSender : Identity where
  keyId := pts "a"
  pub := pts "a1"
  sign _ := [0xAB]
  sign_lt _ := by decide

/-- The sender has signed this one. -/
def sampleCrypto (m : ByteArray) : Crypto Unit where
  verify _ signature bytes := decide (bytes = m ∧ signature = [0xAB])
  encrypt _ _ plain _ := plain.data.toList.map UInt8.toNat
  decrypt _ _ bytes _ := some ⟨(bytes.map UInt8.ofNat).toArray⟩
  encrypt_lt _ _ plain _ b hb := by
    obtain ⟨u, -, rfl⟩ := List.mem_map.mp hb
    exact u.toNat_lt
  decrypt_encrypt _ _ plain _ := by
    simp [List.map_map, Function.comp_def]

def sampleLibrary : Library Unit Unit where
  keyId := pts "b"
  verify _ _ _ := false
  decrypt _ _ _ _ := none
  fingerprint _ := []
  draw _ _ := ()
  deriveSessionKey _ _ _ _ _ := none
  strptime _ := none
  intOfText _ := none
  textOfFloat _ := []
  sends _ := true
  acks _ := true

/-- A text and a number, for an hour. -/
def sampleMessage : Message where
  payload := [(pts "text", .str (pts "hi")), (pts "at", .int 1)]
  recipientKeyId := pts "b"
  relayMailbox := pts "box"
  sessionId := pts "s"
  sequence := 1
  role := .initiator
  now := 0
  ttl := 3600000000

theorem sendable_sample : Sendable noFloats 1 sampleSender sampleMessage where
  strings s hs := by
    simp only [sampleMessage, sampleSender, List.mem_cons, List.not_mem_nil, or_false] at hs
    rcases hs with rfl | rfl | rfl | rfl <;> exact ⟨_, chars_pts _⟩
  payload := by
    refine exists_canonicalText_obj fun item hitem => ?_
    simp only [sampleMessage, List.mem_cons, List.not_mem_nil, or_false] at hitem
    rcases hitem with rfl | rfl
    · exact ⟨⟨_, chars_pts _⟩, exists_canonicalText_str ⟨_, chars_pts _⟩⟩
    · exact ⟨⟨_, chars_pts _⟩, exists_canonicalText_int (by decide)⟩
  sequence := by decide
  expires := by decide

theorem ideal_sample (m : ByteArray) : Ideal (sampleCrypto m) sampleSender (· = m) :=
  fun _ _ => decide_eq_true_iff

theorem distinct_sample : (Json.obj sampleMessage.payload).Distinct := by
  refine .obj (by decide) fun item hitem => ?_
  simp only [sampleMessage, List.mem_cons, List.not_mem_nil, or_false] at hitem
  rcases hitem with rfl | rfl
  · exact .str _
  · exact .int _

/-- The message is built, with the bytes that are signed. -/
theorem exists_sample : ∃ m items, outer noFloats 1 (sampleCrypto m) sampleSender () sampleMessage =
      some items ∧ canonicalJson noFloats 1 (.obj items) = some m ∧
    buildEnvelope noFloats 1 (sampleCrypto m) sampleSender () sampleMessage =
      some (withSignature items (pts "ab")) := by
  -- What is encrypted does not depend on the bytes whose signature verifies.
  have hbuilt : ∃ items m,
      outer noFloats 1 (sampleCrypto ByteArray.empty) sampleSender () sampleMessage = some items ∧
        canonicalJson noFloats 1 (.obj items) = some m ∧
        buildEnvelope noFloats 1 (sampleCrypto ByteArray.empty) sampleSender () sampleMessage =
          some (withSignature items (hexText (sampleSender.sign m))) :=
    exists_buildEnvelope sendable_sample
  obtain ⟨items, m, houter, hm, hbuild⟩ := hbuilt
  exact ⟨m, items, houter, hm, hbuild⟩

/-- It opens at first, and is a replay then. -/
theorem opens_built_sample : ∃ m e,
    buildEnvelope noFloats 1 (sampleCrypto m) sampleSender () sampleMessage = some e ∧
      verifyAndOpen (library noFloats 1 (sampleCrypto m) sampleLibrary) (some sampleSender.pub) ()
        .initiator 0 e 3900000000 = .ok (1, sorted (.obj sampleMessage.payload)) ∧
      verifyAndOpen (library noFloats 1 (sampleCrypto m) sampleLibrary) (some sampleSender.pub) ()
        .initiator 1 e 0 = .error (.rejected .replay) ∧
      verifyAndOpen (library noFloats 1 (sampleCrypto m) sampleLibrary) (some sampleSender.pub) ()
        .initiator 0 e 3900000001 = .error (.rejected .expired) := by
  obtain ⟨m, items, houter, hm, hbuild⟩ := exists_sample
  have hinput : canonicalJson noFloats 1 (sigInput (withSignature items (pts "ab"))) = some m := by
    rw [(sigInput_withSignature houter (pts "ab")).1, hm]
  obtain ⟨e, hbuilt, hall⟩ := opens_built (C := sampleCrypto m) (L := sampleLibrary) sendable_sample
    distinct_sample rfl
  obtain rfl := Option.some.inj (hbuilt.symm.trans hbuild)
  obtain ⟨hopens, hreplay, hexpired, -⟩ := hall (· = m) (ideal_sample m) fun m' hm' =>
    Option.some.inj (hm'.symm.trans hinput)
  exact ⟨m, _, hbuild, hopens 0 3900000000 (by decide) (by decide) (by decide),
    hreplay 1 0 (by decide), hexpired 0 3900000001 (by decide) (by decide) (by decide)⟩

/-- The envelope with its signature in capitals is another one, and opens too. -/
theorem opens_respelled : ∃ m items,
    buildEnvelope noFloats 1 (sampleCrypto m) sampleSender () sampleMessage =
        some (withSignature items (pts "ab")) ∧
      canonicalJson noFloats 1 (.obj items) = some m ∧ Ideal (sampleCrypto m) sampleSender (· = m) ∧
      (withSignature items (pts "AB")).get? (pts "signature") ≠
        (withSignature items (pts "ab")).get? (pts "signature") ∧
      verifyAndOpen (library noFloats 1 (sampleCrypto m) sampleLibrary) (some sampleSender.pub) ()
        .initiator 0 (withSignature items (pts "AB")) 0 =
          .ok (1, sorted (.obj sampleMessage.payload)) := by
  obtain ⟨m, items, houter, hm, hbuild⟩ := exists_sample
  have hhex : fromHex (pts "AB") = some [0xAB] := by decide
  have hverify : (sampleCrypto m).verify sampleSender.pub [0xAB] m = true :=
    (ideal_sample m m [0xAB]).mpr ⟨rfl, rfl⟩
  have hopen := verifyAndOpen_withSignature (L := sampleLibrary) houter distinct_sample hm hhex
    hverify rfl 0 0
  refine ⟨m, items, hbuild, hm, ideal_sample m, ?_, ?_⟩
  · rw [get?_signature houter, get?_signature houter]
    simp [pts]
  · refine hopen.trans ?_
    rw [if_neg (by decide), if_neg (by decide), if_neg (by decide)]
    rfl

end Companion.Kindled.Sealed
