import Companion.Kindled.Handshake
import Companion.Runs
import Mathlib.Logic.Function.Basic

/-!
# Parties over an untrusted relay

Any number of honest parties, each with its own store, that open sessions, ingest in either role
what the relay hands to them, rotate their identities and send messages. The relay has every
envelope that was ever sent, and hands any of them to anyone, any number of times.

A step that stops after `n` of its transactions has done those and nothing else; where `n` exceeds
their number it has come to its end, and its envelope is with the relay. A party may still act with
an identity that it has rotated away, which a tick under way does.
-/

namespace Companion.Kindled.Handshake

open Companion.Memory Companion.Runs

/-- `aead_nonce`: the role byte and eleven bytes of the sequence, as one number, or none where it
raises. -/
def aeadNonce (role : Role) (sequence : ℕ) : Option ℕ :=
  if sequence < 2 ^ 88 then
    some (match role with
      | .initiator => sequence
      | .responder => 2 ^ 88 + sequence)
  else none

/-- The parties and the relay. -/
structure World where
  /-- How often a party has rotated its identity. -/
  generation : ℕ → ℕ
  store : ℕ → Store
  /-- The `session_open` envelopes that the relay has seen. -/
  sent : List SessionOpen
  notices : List Notice
  /-- The party of each draw of random values. -/
  draws : List ℕ
  /-- The keys and nonces under which messages were encrypted. -/
  encrypted : List (SessionKey × ℕ)

/-- The steps of a party `i`, with the identity of generation `g`. -/
inductive Step
  | openSession (i g : ℕ) (peer : KeyId) (n : ℕ) (now : Instant)
  | onSessionOpen (i g : ℕ) (e : SessionOpen) (n : ℕ) (now : Instant)
  | completeSession (i g : ℕ) (e : SessionOpen) (n : ℕ) (now : Instant)
  | deliverNotice (i : ℕ) (notice : Notice) (n : ℕ) (now : Instant)
  | rotate (i : ℕ) (now : Instant)
  /-- `send_message` -/
  | sendMessage (i : ℕ) (peer : KeyId) (session : ℕ) (n : ℕ)

/-- A party has made a draw and then commits some of the transactions. -/
def World.act (w : World) (i : ℕ) (writes : List Write) (n : ℕ) (reply : Option SessionOpen) : World :=
  { w with
    store := Function.update w.store i ((w.store i).commit (writes.take n))
    sent := if writes.length < n then reply.toList ++ w.sent else w.sent
    draws := w.draws ++ [i] }

def step (w : World) : Step → Option World
  | .openSession i g peer n now =>
    -- A tick opens a session only with a peer that it has found in the store.
    if g ≤ w.generation i ∧ ((w.store i).peers.get? peer).isSome then
      let d := w.draws.length
      match openSession (w.store i) ⟨i, g⟩ peer d d d now with
      | none => some w
      | some (writes, e) => some (w.act i writes n (some e))
    else none
  | .onSessionOpen i g e n now =>
    if g ≤ w.generation i ∧ e ∈ w.sent then
      let reply := onSessionOpen (w.store i) ⟨i, g⟩ e w.draws.length now
      some (w.act i reply.1 n reply.2)
    else none
  | .completeSession i g e n now =>
    if g ≤ w.generation i ∧ e ∈ w.sent then
      some (w.act i (completeSession (w.store i) ⟨i, g⟩ e now) n none)
    else none
  | .deliverNotice i notice n now =>
    if notice ∈ w.notices then
      let writes := ingestNotice (w.store i) notice now
      some { w with store := Function.update w.store i ((w.store i).commit (writes.take n)) }
    else none
  | .rotate i now =>
    let old : KeyId := ⟨i, w.generation i⟩
    let new : KeyId := ⟨i, w.generation i + 1⟩
    let notices := (w.store i).peers.entries.map fun e => ⟨old, e.1, new, now + envelopeTtl⟩
    some { w with
      generation := Function.update w.generation i (w.generation i + 1)
      notices := notices ++ w.notices }
  | .sendMessage i peer session n =>
    match (w.store i).keys.get? (peer, session) with
    | none => some w
    | some row =>
      let sequence := (w.store i).nextSequence peer session
      let writes := [Write.nextSequence peer session]
      some { w with
        store := Function.update w.store i ((w.store i).commit (writes.take n))
        encrypted :=
          if writes.length < n then
            ((aeadNonce row.myRole sequence).map (row.key, ·)).toList ++ w.encrypted
          else w.encrypted }

/-- Parties that know each other by their first keys, and nothing more. -/
structure Paired (w : World) : Prop where
  generation : ∀ i, w.generation i = 0
  peers : ∀ i p, ((w.store i).peers.get? p).isSome → p.generation = 0 ∧ p.party ≠ i
  pending : ∀ i, (w.store i).pending = ∅
  keys : ∀ i, (w.store i).keys = ∅
  sessions : ∀ i, (w.store i).sessions = ∅
  outboundSeq : ∀ i, (w.store i).outboundSeq = ∅
  sent : w.sent = []
  notices : w.notices = []
  draws : w.draws = []
  encrypted : w.encrypted = []

/-- The parties, which may ingest any envelope in either role. -/
def machine : Machine World Step where
  init := Paired
  step := step

/-- Two peers by their first keys. -/
def acquainted (a b : ℕ) : Dict KeyId Peer :=
  ((∅ : Dict KeyId Peer).set ⟨a, 0⟩ ⟨none⟩).set ⟨b, 0⟩ ⟨none⟩

/-- Three parties, each paired with the others. -/
def circle : World where
  generation _ := 0
  store i :=
    { peers := match i with
        | 0 => acquainted 1 2
        | 1 => acquainted 0 2
        | _ => acquainted 0 1
      pending := ∅
      keys := ∅
      sessions := ∅
      outboundSeq := ∅ }
  sent := []
  notices := []
  draws := []
  encrypted := []

theorem eq_of_acquainted {a b : ℕ} {p : KeyId} (h : ((acquainted a b).get? p).isSome) :
    p = ⟨a, 0⟩ ∨ p = ⟨b, 0⟩ := by
  unfold acquainted at h
  rw [Dict.get?_set, Dict.get?_set] at h
  split_ifs at h with hb ha
  · exact .inr hb
  · exact .inl ha
  · cases h

theorem paired_circle : Paired circle where
  generation _ := rfl
  peers i p hp := by
    match i with
    | 0 => rcases eq_of_acquainted hp with rfl | rfl <;> simp
    | 1 => rcases eq_of_acquainted hp with rfl | rfl <;> simp
    | i + 2 => rcases eq_of_acquainted hp with rfl | rfl <;> simp
  pending _ := rfl
  keys _ := rfl
  sessions _ := rfl
  outboundSeq _ := rfl
  sent := rfl
  notices := rfl
  draws := rfl
  encrypted := rfl

/-- A draw is the draw of its party. -/
theorem getElem?_draw (draws : List ℕ) (i : ℕ) : (draws ++ [i])[draws.length]? = some i := by
  rw [List.getElem?_append_right le_rfl, Nat.sub_self]
  rfl

/-- A draw keeps its place. -/
theorem getElem?_append_of_some {draws : List ℕ} {j d k : ℕ} (h : draws[d]? = some k) :
    (draws ++ [j])[d]? = some k := by
  rw [List.getElem?_append_left (List.getElem?_eq_some_iff.mp h).1]
  exact h

end Companion.Kindled.Handshake
