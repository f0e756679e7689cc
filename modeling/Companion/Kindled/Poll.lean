import Companion.Dict
import Companion.Kindled.Consent
import Companion.Kindled.Envelope

/-!
# A poll of the mailbox

`poll_and_ingest` of `transport.py` over what the relay returns, which may be any JSON values, and
the tables of `store.py`. What is ingested of one envelope is the list of the transactions that it
commits, and whether an exception leaves it after them (`Outcome`); a poll is a fold over the groups
and their items.

A key id starts with `kid_`, so that a sender that is no string is no peer. A session id may be any
value that SQLite takes, and is compared as a text.
-/

namespace Companion.Kindled.Poll

open Companion.Memory Companion.Kindled.Handshake

/-- What SQLite takes as a parameter. -/
def bindable : Value → Bool
  | .null => true
  | .bool _ => true
  | .int n => -2 ^ 63 ≤ n && n < 2 ^ 63
  | .float _ => true
  | .str s => encodable s
  | .arr _ => false
  | .obj _ => false

/-- What becomes NULL. -/
def isNull : Value → Bool
  | .null => true
  | .float .nan => true
  | _ => false

section Tables

variable (κ ε : Type)

/-- A row of `peers`. -/
structure PeerRow where
  identityPub : Points
  previousIdentityPub : Option Points
  consent : Consent.State
  relayMailbox : Option Points

/-- A row of `pending_handshakes`. -/
structure Pending where
  eph : ε
  bootstrapNonce : List ℕ

/-- A row of `session_keys`. -/
structure KeyRow where
  key : κ
  myRole : Role
  peerRole : Role

/-- The tables that a poll reads and writes. -/
structure Store where
  peers : Dict Points PeerRow
  pending : Dict (Points × Points) (Pending ε)
  keys : Dict (Points × Points) (KeyRow κ)
  /-- Whether a session is open. -/
  sessions : Dict (Points × Points) Bool
  transcript : Dict (Points × Points × ℤ) Value
  highWater : Dict (Points × Points) ℤ

/-- A transaction. -/
inductive Write
  | upsertPeer (peer : Points) (relayMailbox : Option Points)
  | saveSessionKey (peer session : Points) (row : KeyRow κ)
  | createSession (peer session : Points)
  | clearPendingHandshake (peer session : Points)
  | appendTranscript (peer session : Points) (seq : ℤ) (text : Value)
  | setSeqHighWater (peer session : Points) (seq : ℤ)
  | updatePeerIdentity (peer newPub newKeyId : Points)

end Tables

variable {κ ε : Type}

/-- One peer id for another. -/
def rename (old new p : Points) : Points := if p = old then new else p

/-- `update_peer_identity`, or none where a primary key is there already. -/
def updatePeerIdentity (s : Store κ ε) (peer newPub newKeyId : Points) : Option (Store κ ε) := do
  let peers ← s.peers.rekey? (rename peer newKeyId)
  let pending ← s.pending.rekey? (Prod.map (rename peer newKeyId) id)
  let keys ← s.keys.rekey? (Prod.map (rename peer newKeyId) id)
  let sessions ← s.sessions.rekey? (Prod.map (rename peer newKeyId) id)
  let transcript ← s.transcript.rekey? (Prod.map (rename peer newKeyId) id)
  let highWater ← s.highWater.rekey? (Prod.map (rename peer newKeyId) id)
  some
    { peers := match s.peers.get? peer with
        | some row => peers.set newKeyId
            { row with identityPub := newPub, previousIdentityPub := some row.identityPub }
        | none => peers
      pending := pending
      keys := keys
      sessions := sessions
      transcript := transcript
      highWater := highWater }

def Write.apply (s : Store κ ε) : Write κ → Store κ ε
  | upsertPeer peer relayMailbox =>
    match s.peers.get? peer with
    | none => s
    | some row =>
      let learned := { row with relayMailbox := relayMailbox.orElse fun _ => row.relayMailbox }
      { s with peers := s.peers.set peer learned }
  | saveSessionKey peer session row =>
    if (s.keys.get? (peer, session)).isSome then s
    else { s with keys := s.keys.set (peer, session) row }
  | createSession peer session =>
    if (s.sessions.get? (peer, session)).isSome then s
    else { s with sessions := s.sessions.set (peer, session) true }
  | clearPendingHandshake peer session => { s with pending := s.pending.pop (peer, session) }
  | appendTranscript peer session seq text =>
    { s with transcript := s.transcript.set (peer, session, seq) text }
  | setSeqHighWater peer session seq =>
    { s with highWater := s.highWater.set (peer, session) seq }
  | updatePeerIdentity peer newPub newKeyId =>
    (Poll.updatePeerIdentity s peer newPub newKeyId).getD s

/-- The store after some transactions. -/
def Store.commit (s : Store κ ε) (writes : List (Write κ)) : Store κ ε :=
  writes.foldl Write.apply s

/-- The answer to a `session_open`. -/
structure Reply where
  peer : Points
  session : Points
  relayMailbox : Value
  bootstrapNonce : List ℕ

/-- What is ingested of an envelope: the transactions that it commits, and whether it raises after
them. -/
structure Outcome (κ : Type) where
  writes : List (Write κ)
  raised : Bool
  reply : Option Reply

def drop : Outcome κ := ⟨[], false, none⟩

def raise (writes : List (Write κ)) : Outcome κ := ⟨writes, true, none⟩

/-- What comes of a check that does not pass. -/
def stop : Stop → Outcome κ
  | .rejects => drop
  | .raises => raise []

/-- An item of the mailbox that has an envelope and an id. -/
structure Item where
  id : Points
  envelope : Value

/-- The guard of the grouping. -/
def item? (v : Value) : Option Item :=
  match v.field "envelope", v.field "id" with
  | some (.obj fields), some (.str id) => some ⟨id, .obj fields⟩
  | _, _ => none

/-- `envelope.get("sender_key_id", "")` -/
def Item.sender (it : Item) : Value := (it.envelope.field "sender_key_id").getD (.str [])

/-- The peer id that a sender may be. -/
def peerId : Value → Option Points
  | .str s => some s
  | _ => none

/-- A value as a text of SQLite. -/
def sqlText (L : Library κ ε) : Value → Option Points
  | .bool b => some (pts (if b then "1" else "0"))
  | .int n => some (pts (toString n))
  | .float .nan => none
  | .float x => some (L.textOfFloat x)
  | .str s => some s
  | _ => none

/-- The row of a table under a peer and a session. -/
def row? {α : Type} (table : Dict (Points × Points) α) (peer session : Option Points) : Option α := do
  let peer ← peer
  let session ← session
  table.get? (peer, session)

/-- The session key of a responder with the session id and the salt, or none where the handshake has
no ephemeral key, no salt or no session id. -/
def respondedKey (L : Library κ ε) (peer : Points) (body session : Value) :
    Option (κ × Points × List ℕ) :=
  match body.field "ephemeral_pub", body.field "bootstrap_nonce", session with
  | some (.str eph), some (.str nonce), .str session => do
    let eph ← fromHex eph
    let nonce ← fromHex nonce
    let key ← L.deriveSessionKey (L.draw peer session) eph peer session nonce
    some (key, session, nonce)
  | _, _, _ => none

/-- The session key of an initiator with the session id, or none where the handshake has no
ephemeral key or no session id. -/
def initiatedKey (L : Library κ ε) (pending : Pending ε) (peer : Points) (body session : Value) :
    Option (κ × Points) :=
  match body.field "ephemeral_pub", session with
  | some (.str eph), .str session => do
    let eph ← fromHex eph
    let key ← L.deriveSessionKey pending.eph eph peer session pending.bootstrapNonce
    some (key, session)
  | _, _ => none

/-- `envelope.get("sender_key_id")` -/
def senderKeyId (e : Value) : Value := (e.field "sender_key_id").getD .null

/-- `envelope.get("session_id")` -/
def sessionId (e : Value) : Value := (e.field "session_id").getD .null

/-- `envelope.get("session_id", "")` -/
def sessionIdOrEmpty (e : Value) : Value := (e.field "session_id").getD (.str [])

/-- `envelope.get("sender_mailbox")` -/
def senderMailbox (e : Value) : Value := (e.field "sender_mailbox").getD .null

/-- `store.get_peer(peer_id) if peer_id else None` -/
def getPeer (s : Store κ ε) (id : Value) : Except Stop (Points × PeerRow) :=
  if !id.truthy then .error .rejects
  else if !bindable id then .error .raises
  else
    match (peerId id).bind fun peer => (s.peers.get? peer).map (peer, ·) with
    | some found => .ok found
    | none => .error .rejects

/-- What the two legs do first: a known peer, `parse_session_open`, and the clobber guard. -/
def readHandshake (L : Library κ ε) (s : Store κ ε) (e : Value) (now : Instant) :
    Except Stop (Points × PeerRow × Value) := do
  let (peer, row) ← getPeer s (senderKeyId e)
  let body ← parseSessionOpen L row.identityPub e now
  if (row? s.keys (some peer) (sqlText L (sessionId e))).isSome then
    .error .rejects
  else .ok (peer, row, body)

/-- `reply_mailbox`: what the envelope says, or the row. -/
def replyMailbox (row : PeerRow) (mailbox : Value) : Value :=
  if mailbox.truthy then mailbox else (row.relayMailbox.map .str).getD .null

/-- `on_session_open` -/
def onSessionOpen (L : Library κ ε) (s : Store κ ε) (e : Value) (now : Instant) : Outcome κ :=
  match readHandshake L s e now with
  | .error why => stop why
  | .ok (peer, row, body) =>
    let mailbox := senderMailbox e
    if mailbox.truthy && !bindable mailbox then raise []
    else
      let upsert := if mailbox.truthy then [.upsertPeer peer (sqlText L mailbox)] else []
      match respondedKey L peer body (sessionId e) with
      | none => raise upsert
      | some (key, session, nonce) =>
        let writes := upsert ++ [.saveSessionKey peer session ⟨key, .responder, .initiator⟩,
          .createSession peer session]
        if L.sends (replyMailbox row mailbox) then
          ⟨writes, false, some ⟨peer, session, replyMailbox row mailbox, nonce⟩⟩
        else raise writes

/-- `complete_session` -/
def completeSession (L : Library κ ε) (s : Store κ ε) (e : Value) (now : Instant) : Outcome κ :=
  match readHandshake L s e now with
  | .error why => stop why
  | .ok (peer, _, body) =>
    match row? s.pending (some peer) (sqlText L (sessionId e)) with
    | none => drop
    | some pending =>
      match initiatedKey L pending peer body (sessionId e) with
      | none => raise []
      | some (key, session) =>
        ⟨[.saveSessionKey peer session ⟨key, .initiator, .responder⟩,
            .createSession peer session, .clearPendingHandshake peer session], false, none⟩

/-- The branch for a `session_open`. -/
def ingestSessionOpen (L : Library κ ε) (s : Store κ ε) (sender : Value) (e : Value)
    (now : Instant) : Outcome κ :=
  if !bindable (sessionIdOrEmpty e) then raise []
  else if (row? s.pending (peerId sender) (sqlText L (sessionIdOrEmpty e))).isNone then onSessionOpen L s e now
  else completeSession L s e now

/-- A notice that is verified and neither known nor a rollback: the peer, the new public key and key
id. -/
def readNotice (L : Library κ ε) (s : Store κ ε) (sender : Value) (e : Value) (now : Instant) :
    Except Stop (Points × Points × Points) :=
  match (peerId sender).bind fun peer => (s.peers.get? peer).map (peer, ·) with
  | none => .error .rejects
  | some (peer, row) => do
    let (newPub, newKeyId) ← parseKeyRotationNotice L row.identityPub e now
    if newPub = row.identityPub then .error .rejects
    else if newPub = row.previousIdentityPub.getD [] then .error .rejects
    else .ok (peer, newPub, newKeyId)

/-- `_handle_key_rotation_notice` -/
def handleKeyRotationNotice (L : Library κ ε) (s : Store κ ε) (sender : Value) (e : Value)
    (now : Instant) : Outcome κ :=
  match readNotice L s sender e now with
  | .error why => stop why
  | .ok (peer, newPub, newKeyId) =>
    if (Poll.updatePeerIdentity s peer newPub newKeyId).isNone then raise []
    else ⟨[.updatePeerIdentity peer newPub newKeyId], false, none⟩

/-- A message that is verified and opened under the key of its session. -/
def readMessage (L : Library κ ε) (s : Store κ ε) (sender : Value) (e : Value) (now : Instant) :
    Except Stop (Points × Points × ℤ × Value) :=
  if !bindable (sessionIdOrEmpty e) then .error .raises
  else
    match peerId sender, sqlText L (sessionIdOrEmpty e) with
    | some peer, some session =>
      match s.keys.get? (peer, session) with
      | none => .error .rejects
      | some sk => do
        let (seq, payload) ← verifyAndOpen L ((s.peers.get? peer).map PeerRow.identityPub) sk.key
          sk.peerRole ((s.highWater.get? (peer, session)).getD 0) e now
        .ok (peer, session, seq, payload)
    | _, _ => .error .rejects

/-- The branch for a message. -/
def ingestMessage (L : Library κ ε) (s : Store κ ε) (sender : Value) (e : Value) (now : Instant) :
    Outcome κ :=
  match readMessage L s sender e now with
  | .error why => stop why
  | .ok (peer, session, seq, payload) =>
    let text := (payload.field "text").getD (.str [])
    if !payload.isObject || !bindable text || isNull text || !bindable (.int seq) ||
        (s.transcript.get? (peer, session, seq)).isSome then raise []
    else
      ⟨[.appendTranscript peer session seq text, .setSeqHighWater peer session seq], false, none⟩

def isSessionOpen (e : Value) : Bool := (e.field "session_open").isSome

def isKeyRotationNotice (e : Value) : Bool :=
  (e.field "message_type").any (·.equals (.str (pts "key_rotation_notice")))

/-- An item of a group. -/
def ingest (L : Library κ ε) (s : Store κ ε) (sender : Value) (it : Item) (now : Instant) :
    Outcome κ :=
  if isSessionOpen it.envelope then ingestSessionOpen L s sender it.envelope now
  else if isKeyRotationNotice it.envelope then
    handleKeyRotationNotice L s sender it.envelope now
  else ingestMessage L s sender it.envelope now

/-- An item goes to the group of its sender. -/
def addTo (sender : Value) (it : Item) : List (Value × List Item) → List (Value × List Item)
  | [] => [(sender, [it])]
  | g :: gs => if g.1.equals sender then (g.1, g.2 ++ [it]) :: gs else g :: addTo sender it gs

/-- The items by their sender, or none where a sender has no hash. -/
def groups (items : List Item) : Option (List (Value × List Item)) :=
  if items.all fun it => it.sender.hashable then
    some (items.foldl (fun gs it => addTo it.sender it gs) [])
  else none

/-- `KINDLED_LINK_INBOUND_FLOOD_CAP` -/
def inboundFloodCap : ℕ := 20

/-- What is processed of a group: the items within the flood cap, those with a `session_open` first.
-/
def taken (items : List Item) : List Item :=
  let clamped := items.take inboundFloodCap
  clamped.filter (fun it => isSessionOpen it.envelope) ++
    clamped.filter fun it => !isSessionOpen it.envelope

/-- `_INBOUND_BLOCKED_CONSENT` -/
def inboundBlockedConsent : List Consent.State := [.blocked, .revoked, .paused]

/-- The consent gate. -/
def blocked (s : Store κ ε) (sender : Value) : Bool :=
  ((peerId sender).bind s.peers.get?).any fun row => inboundBlockedConsent.contains row.consent

/-- A poll under way: the store, the transactions so far, whether an exception has left it, what is
to be acked, and the replies that were pushed. -/
structure Run (κ ε : Type) where
  store : Store κ ε
  writes : List (Write κ)
  raised : Bool
  acked : List Points
  pushed : List Reply

def Run.item (L : Library κ ε) (now : Instant) (sender : Value) (r : Run κ ε) (it : Item) :
    Run κ ε :=
  if r.raised then r
  else
    let out := ingest L r.store sender it now
    { store := r.store.commit out.writes
      writes := r.writes ++ out.writes
      raised := out.raised
      acked := if out.raised then r.acked else r.acked ++ [it.id]
      pushed := r.pushed ++ out.reply.toList }

def Run.group (L : Library κ ε) (now : Instant) (r : Run κ ε) (g : Value × List Item) : Run κ ε :=
  if r.raised then r
  else if !bindable g.1 then { r with raised := true }
  else if blocked r.store g.1 then { r with acked := r.acked ++ g.2.map Item.id }
  else (taken g.2).foldl (Run.item L now g.1) r

/-- `poll_and_ingest` over what the relay has returned. -/
def pollAndIngest (L : Library κ ε) (s : Store κ ε) (fetched : List Value) (now : Instant) :
    Run κ ε :=
  match groups (fetched.filterMap item?) with
  | none => ⟨s, [], true, [], []⟩
  | some gs =>
    let r := gs.foldl (Run.group L now) ⟨s, [], false, [], []⟩
    if !r.raised && !r.acked.isEmpty && !L.acks r.acked then { r with raised := true } else r

end Companion.Kindled.Poll
