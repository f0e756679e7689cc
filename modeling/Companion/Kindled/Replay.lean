import Companion.Kindled.Settled
import Companion.Runs

/-!
# A poll that is stopped

Each write of a poll commits on its own, and the mailbox is acked at the end, so that a poll that is
stopped is followed by another over the same mailbox. From a store in which no write is missing the
second poll ends as the first would have, just in case the first was not stopped within a message or
a handshake (`recovers_iff`): an item that was ingested is rejected when it comes again, since its
sequence is not above the high-water mark or its session has a key, or since its sender is gone.
-/

namespace Companion.Kindled.Poll

open Companion.Memory Companion.Kindled.Handshake Companion.Tasks Companion.Runs

variable {κ ε : Type} {L : Library κ ε} {s s' : Store κ ε} {now : Instant} {it : Item}

/-! ## A poll as a run -/

/-- The items that a poll takes, in order. -/
def turns (gs : List (Value × List Item)) : List Item := gs.flatMap fun g => taken g.2

/-- Each item is in the group of its peer, and each peer has one group. -/
structure Grouped (gs : List (Value × List Item)) : Prop where
  senders : ∀ g ∈ gs, g.2 ≠ [] ∧ ∀ it ∈ g.2, peerId g.1 = peerId it.sender
  distinct : gs.Pairwise fun g g' => ∀ p, g.1 = .str p → g'.1 ≠ .str p

theorem equals_str {v : Value} {p : Points} : v.equals (.str p) = true ↔ v = .str p := by
  cases v <;> simp [Value.equals, Value.number?]

theorem peerId_of_equals {v w : Value} (h : v.equals w = true) : peerId v = peerId w := by
  cases v <;> cases w <;> simp_all [Value.equals, Value.number?, peerId]

/-- The groups are the old ones, and that of the sender. -/
theorem mem_addTo {v : Value} {gs : List (Value × List Item)} {g : Value × List Item}
    (h : g ∈ addTo v it gs) : g.1 = v ∨ ∃ g₀ ∈ gs, g₀.1 = g.1 := by
  induction gs with
  | nil => exact .inl (congrArg Prod.fst (List.mem_singleton.mp h))
  | cons g₀ gs ih =>
    unfold addTo at h
    split_ifs at h with heq
    · rcases List.mem_cons.mp h with rfl | hmem
      · exact .inr ⟨g₀, List.mem_cons_self, rfl⟩
      · exact .inr ⟨g, List.mem_cons_of_mem _ hmem, rfl⟩
    · rcases List.mem_cons.mp h with rfl | hmem
      · exact .inr ⟨g, List.mem_cons_self, rfl⟩
      · refine (ih hmem).imp_right ?_
        rintro ⟨g₁, hg₁, hfst⟩
        exact ⟨g₁, List.mem_cons_of_mem _ hg₁, hfst⟩

theorem Grouped.addTo {gs : List (Value × List Item)} (h : Grouped gs) (it : Item) :
    Grouped (addTo it.sender it gs) := by
  induction gs with
  | nil =>
    refine ⟨?_, List.pairwise_singleton _ _⟩
    simp [Poll.addTo]
  | cons g gs ih =>
    obtain ⟨hhead, htail⟩ := List.pairwise_cons.mp h.distinct
    have hrest : Grouped gs := ⟨fun g' hg' => h.senders g' (List.mem_cons_of_mem _ hg'), htail⟩
    obtain ⟨hne, hsenders⟩ := h.senders g List.mem_cons_self
    unfold Poll.addTo
    split_ifs with heq
    · refine ⟨fun g' hg' => ?_, List.pairwise_cons.mpr ⟨hhead, htail⟩⟩
      rcases List.mem_cons.mp hg' with rfl | hmem
      · refine ⟨by simp, fun u hu => ?_⟩
        rcases List.mem_append.mp hu with hu | hu
        · exact hsenders u hu
        · obtain rfl := List.mem_singleton.mp hu
          exact peerId_of_equals heq
      · exact h.senders g' (List.mem_cons_of_mem _ hmem)
    · obtain ⟨hsenders', hdistinct⟩ := ih hrest
      refine ⟨fun g' hg' => ?_, List.pairwise_cons.mpr ⟨fun g' hg' p hp => ?_, hdistinct⟩⟩
      · rcases List.mem_cons.mp hg' with rfl | hmem
        · exact ⟨hne, hsenders⟩
        · exact hsenders' g' hmem
      · rcases mem_addTo hg' with hnew | ⟨g₀, hg₀, hold⟩
        · rintro hp'
          rw [hp, ← hp', hnew] at heq
          refine heq ?_
          rw [← hnew, hp']
          exact equals_str.mpr rfl
        · rw [← hold]
          exact hhead g₀ hg₀ p hp

theorem Grouped.of_groups {items : List Item} {gs : List (Value × List Item)}
    (h : groups items = some gs) : Grouped gs := by
  unfold groups at h
  split_ifs at h
  obtain rfl := Option.some.inj h
  have hfold : ∀ (items : List Item) (gs : List (Value × List Item)), Grouped gs →
      Grouped (items.foldl (fun gs it => Poll.addTo it.sender it gs) gs) := by
    intro items
    induction items with
    | nil => exact fun _ hgs => hgs
    | cons it items ih => exact fun gs hgs => ih _ (hgs.addTo it)
  exact hfold items [] ⟨nofun, List.Pairwise.nil⟩

theorem mem_taken {items : List Item} (h : it ∈ taken items) : it ∈ items := by
  unfold taken at h
  rcases List.mem_append.mp h with hmem | hmem
  · exact List.mem_of_mem_take (List.mem_filter.mp hmem).1
  · exact List.mem_of_mem_take (List.mem_filter.mp hmem).1

/-- The handshakes of a sender come before its other items. -/
theorem Grouped.ordered {gs : List (Value × List Item)} (h : Grouped gs) :
    (turns gs).Pairwise Ordered := by
  unfold turns
  refine List.pairwise_flatMap.mpr ⟨fun g hg => ?_, ?_⟩
  · unfold taken
    refine List.pairwise_append.mpr ⟨?_, ?_, ?_⟩
    · refine List.pairwise_of_forall_mem_list fun u hu t _ p _ _ _ => ?_
      exact (List.mem_filter.mp hu).2
    · refine List.pairwise_of_forall_mem_list fun u _ t ht p _ _ hopen => ?_
      have hclosed := (List.mem_filter.mp ht).2
      rw [hopen] at hclosed
      cases hclosed
    · intro u hu t ht p _ _ _
      exact (List.mem_filter.mp hu).2
  · refine h.distinct.imp_of_mem fun {g g'} hg hg' hne u hu t ht p hp hp' _ => ?_
    have hu' := (h.senders g hg).2 u (mem_taken hu)
    have ht' := (h.senders g' hg').2 t (mem_taken ht)
    rw [hp] at hu'
    rw [hp'] at ht'
    exact absurd (peerId_eq_some.mp ht') (hne p (peerId_eq_some.mp hu'))

/-- Of a sender only its peer id matters. -/
theorem ingest_congr {v w : Value} (h : peerId v = peerId w) : ingest L s v it now = ingest L s w it now := by
  unfold ingest ingestSessionOpen handleKeyRotationNotice readNotice ingestMessage readMessage
  rw [h]

theorem blocked_congr {v w : Value} (h : peerId v = peerId w) : blocked s v = blocked s w := by
  unfold blocked
  rw [h]


/-- A peer that is renamed to itself keeps its consent. -/
theorem not_blocked_renamed {peer newPub : Points} (h : updatePeerIdentity s peer newPub peer = some s')
    (hopen : blocked s (.str peer) = false) : blocked s' (.str peer) = false := by
  obtain ⟨⟨peers, hpeers, heq⟩, -⟩ := updatePeerIdentity_some h
  have hid : ∀ q, rename peer peer q = q := by
    intro q
    unfold rename
    split_ifs with hq
    · exact hq.symm
    · rfl
  cases hrow : s.peers.get? peer with
  | none =>
    rw [hrow] at heq
    have hnone : peers.get? peer = none := by
      refine Option.not_isSome_iff_eq_none.mp fun hsome => ?_
      obtain ⟨q, hq, hsome'⟩ := (Dict.isSome_rekey hpeers).mp hsome
      rw [hid] at hq
      rw [hq, hrow] at hsome'
      cases hsome'
    simp [blocked, peerId, heq, hnone]
  | some row =>
    rw [hrow] at heq
    have hconsent : inboundBlockedConsent.contains row.consent = false := by
      simpa [blocked, peerId, hrow] using hopen
    simpa [blocked, peerId, heq, Dict.get?_set] using hconsent

/-- An item does not close the gate on its own sender. -/
theorem Effect.not_blocked {ws : List (Write κ)} {raised : Bool} (h : Effect L now s it ws raised)
    (hopen : blocked s it.sender = false) : blocked (s.commit ws) it.sender = false := by
  by_cases hpeer : ∃ p, it.sender = .str p
  · obtain ⟨p, hp⟩ := hpeer
    rw [hp] at hopen ⊢
    by_cases hfresh : ∀ peer newPub newKeyId,
        Write.updatePeerIdentity peer newPub newKeyId ∈ ws → newKeyId ≠ p
    · rcases (h.onward hfresh).1 with hkept | ⟨-, hgone⟩
      · rw [hkept.blocked, hopen]
      · exact hgone.not_blocked
    · -- A peer that is renamed to itself keeps its consent.
      push Not at hfresh
      obtain ⟨peer, newPub, newKeyId, hmem, rfl⟩ := hfresh
      rcases h.plain_or_followed with hplain | ⟨peer', newPub', newKeyId', s', rfl, -, hsender, hs'⟩
      · exact (hplain _ hmem).elim
      · obtain ⟨rfl, rfl, rfl⟩ : peer = peer' ∧ newPub = newPub' ∧ newKeyId = newKeyId' := by
          simpa using hmem
        obtain rfl := Json.str.inj (hsender.symm.trans hp)
        rw [commit_updatePeerIdentity hs']
        exact not_blocked_renamed hs' hopen
  · exact Poll.not_blocked fun p hp => hpeer ⟨p, hp⟩

theorem Named.turn (h : Named s) {ws : List (Write κ)} (hwork : (worker L now).work s it = some ws) :
    Named (s.commit ws) := by
  obtain ⟨-, rfl⟩ | ⟨-, heffect⟩ := work_cases h hwork
  · exact h
  · exact heffect.named h

/-- The items of a group whose gate is open, as a run. -/
theorem foldl_item_run (L : Library κ ε) (now : Instant) {sender : Value} {items : List Item}
    (hsenders : ∀ it ∈ items, peerId sender = peerId it.sender) {r : Run κ ε} (hr : r.raised = false)
    (hnamed : Named r.store) (hopen : blocked r.store sender = false) :
    ((items.foldl (Run.item L now sender) r).raised = false → ∃ ws,
        (worker L now).Run r.store items ws (items.foldl (Run.item L now sender) r).store ∧
        (items.foldl (Run.item L now sender) r).writes = r.writes ++ ws) ∧
      ∀ ws s', (worker L now).Run r.store items ws s' →
        (items.foldl (Run.item L now sender) r).raised = false := by
  induction items generalizing r with
  | nil => exact ⟨fun _ => ⟨[], .nil _, (List.append_nil _).symm⟩, fun _ _ _ => hr⟩
  | cons it items ih =>
    -- The group is of one sender, so that the item's own sender reads the same rows.
    have hpeer := hsenders it List.mem_cons_self
    have hturn : turn L now r.store it = ingest L r.store sender it now := by
      rw [turn, ← blocked_congr hpeer, hopen, ingest_congr hpeer]
      rfl
    have hstep := Run.item_eq L now hr sender it
    rw [List.foldl_cons]
    cases hraised : (ingest L r.store sender it now).raised with
    | true =>
      have hnext : (Run.item L now sender r it).raised = true := by rw [hstep, hraised]
      rw [foldl_item_raised hnext, hnext]
      refine ⟨by rintro ⟨⟩, fun ws s' hrun => ?_⟩
      cases hrun with
      | cons hwork _ =>
        change (if (turn L now r.store it).raised then none else _) = _ at hwork
        rw [hturn, hraised] at hwork
        cases hwork
    | false =>
      have hwork : (worker L now).work r.store it =
          some (ingest L r.store sender it now).writes := by
        show (if (turn L now r.store it).raised then none else some (turn L now r.store it).writes) = _
        rw [hturn, hraised]
        rfl
      have heffect := ingest_effect L now hnamed it
      rw [← ingest_congr hpeer] at heffect
      -- A turn blocks nobody, so that the rest of the group goes on.
      have hopen' : blocked (r.store.commit (ingest L r.store sender it now).writes) sender = false := by
        rw [blocked_congr hpeer] at hopen ⊢
        exact heffect.not_blocked hopen
      obtain ⟨hfirst, hsecond⟩ := ih (r := Run.item L now sender r it)
        (fun u hu => hsenders u (List.mem_cons_of_mem _ hu)) (by rw [hstep]; exact hraised)
        (by rw [hstep]; exact heffect.named hnamed) (by rw [hstep]; exact hopen')
      refine ⟨fun h => ?_, fun ws s' hrun => ?_⟩
      · obtain ⟨ws, hrun, hwrites⟩ := hfirst h
        refine ⟨(ingest L r.store sender it now).writes ++ ws, .cons hwork ?_, ?_⟩
        · rw [hstep] at hrun ⊢
          exact hrun
        · rw [hwrites, hstep, List.append_assoc]
      · cases hrun with
        | @cons _ _ _ _ vs xs hwork' hrest =>
          obtain rfl := Option.some.inj (hwork.symm.trans hwork')
          refine hsecond xs s' ?_
          rw [hstep]
          exact hrest

/-- The groups, as a run. -/
theorem foldl_group_run (L : Library κ ε) (now : Instant) {gs : List (Value × List Item)} (hgs : Grouped gs)
    (hbindable : ∀ g ∈ gs, bindable g.1 = true) {r : Run κ ε} (hr : r.raised = false)
    (hnamed : Named r.store) :
    ((gs.foldl (Run.group L now) r).raised = false → ∃ ws,
        (worker L now).Run r.store (turns gs) ws (gs.foldl (Run.group L now) r).store ∧
        (gs.foldl (Run.group L now) r).writes = r.writes ++ ws) ∧
      ∀ ws s', (worker L now).Run r.store (turns gs) ws s' →
        (gs.foldl (Run.group L now) r).raised = false := by
  induction gs generalizing r with
  | nil => exact ⟨fun _ => ⟨[], .nil _, (List.append_nil _).symm⟩, fun _ _ _ => hr⟩
  | cons g gs ih =>
    have hsenders := (hgs.senders g List.mem_cons_self).2
    have hrest : Grouped gs := ⟨fun g' hg' => hgs.senders g' (List.mem_cons_of_mem _ hg'),
      (List.pairwise_cons.mp hgs.distinct).2⟩
    replace ih {r : Run κ ε} := ih hrest (fun g' hg' => hbindable g' (List.mem_cons_of_mem _ hg')) (r := r)
    have hturns : turns (g :: gs) = taken g.2 ++ turns gs := List.flatMap_cons
    rw [List.foldl_cons, hturns]
    cases hgate : blocked r.store g.1 with
    | true =>
      have hstep : Run.group L now r g = { r with acked := r.acked ++ g.2.map Item.id } := by
        rw [Run.group, if_neg (by simp [hr]), if_neg (by simp [hbindable g List.mem_cons_self]),
          if_pos hgate]
      -- The items of a blocked sender are no work either when they are taken one by one.
      have hidle : (worker L now).Run r.store (taken g.2) [] r.store :=
        Worker.Run.idle fun u hu => work_of_over
          (.inl ((blocked_congr (hsenders u (mem_taken hu))).symm.trans hgate))
      obtain ⟨hfirst, hsecond⟩ := ih (r := Run.group L now r g) (by rw [hstep]; exact hr)
        (by rw [hstep]; exact hnamed)
      rw [hstep] at hfirst hsecond ⊢
      refine ⟨fun h => ?_, fun ws s' hrun => ?_⟩
      · obtain ⟨ws, hrun, hwrites⟩ := hfirst h
        exact ⟨ws, hidle.append hrun, hwrites⟩
      · obtain ⟨m, vs, xs, htaken, hleft, rfl⟩ := hrun.split
        obtain ⟨-, rfl⟩ := htaken.functional hidle
        exact hsecond xs s' hleft
    | false =>
      have hstep : Run.group L now r g = (taken g.2).foldl (Run.item L now g.1) r := by
        rw [Run.group, if_neg (by simp [hr]), if_neg (by simp [hbindable g List.mem_cons_self]),
          if_neg (by simp [hgate])]
      have hmem : ∀ u ∈ taken g.2, peerId g.1 = peerId u.sender := fun u hu => hsenders u (mem_taken hu)
      obtain ⟨hitems, hitems'⟩ := foldl_item_run L now hmem hr hnamed hgate
      rw [← hstep] at hitems hitems'
      refine ⟨fun h => ?_, fun ws s' hrun => ?_⟩
      · -- A run that has raised stays so, whatever groups follow.
        have hraised : (Run.group L now r g).raised = false := by
          refine Bool.eq_false_iff.mpr fun hraised => ?_
          rw [foldl_group_raised hraised, hraised] at h
          cases h
        obtain ⟨vs, hrun, hwrites⟩ := hitems hraised
        obtain ⟨xs, hrun', hwrites'⟩ := (ih hraised
          (hrun.preserves (fun _ _ _ hs hwork => hs.turn hwork) hnamed)).1 h
        exact ⟨vs ++ xs, hrun.append hrun', by rw [hwrites', hwrites, List.append_assoc]⟩
      · obtain ⟨m, vs, xs, htaken, hleft, rfl⟩ := hrun.split
        have hraised := hitems' vs m htaken
        obtain ⟨vs', hrun', -⟩ := hitems hraised
        obtain ⟨-, rfl⟩ := htaken.functional hrun'
        exact (ih hraised (hrun'.preserves (fun _ _ _ hs hwork => hs.turn hwork) hnamed)).2 xs s' hleft

/-- A group whose sender cannot be looked up raises. -/
theorem SoundGroups.bindable {gs : List (Value × List Item)} (h : SoundGroups L now s gs) :
    ∀ g ∈ gs, bindable g.1 = true := by
  induction gs generalizing s with
  | nil => exact nofun
  | cons g gs ih =>
    obtain ⟨hbindable, -, hrest⟩ := h
    intro g' hg'
    rcases List.mem_cons.mp hg' with rfl | hmem
    · exact hbindable
    · exact ih hrest g' hmem

/-- The groups, and then the acknowledgement. -/
theorem pollAndIngest_eq (L : Library κ ε) (s : Store κ ε) (now : Instant)
    {fetched : List Value} {gs : List (Value × List Item)}
    (hgs : groups (fetched.filterMap item?) = some gs) :
    let r := gs.foldl (Run.group L now) ⟨s, [], false, [], []⟩
    (pollAndIngest L s fetched now).store = r.store ∧
      (pollAndIngest L s fetched now).writes = r.writes ∧
      (pollAndIngest L s fetched now).acked = r.acked ∧
      ((pollAndIngest L s fetched now).raised = false ↔
        r.raised = false ∧ (r.acked = [] ∨ L.acks r.acked = true)) := by
  intro r
  have hpoll : pollAndIngest L s fetched now =
      if !r.raised && !r.acked.isEmpty && !L.acks r.acked then { r with raised := true } else r := by
    unfold pollAndIngest
    rw [hgs]
  rw [hpoll]
  split_ifs with hacks
  · refine ⟨rfl, rfl, rfl, iff_of_false nofun fun h => ?_⟩
    rcases h.2 with hnil | hok
    · simp [hnil] at hacks
    · simp [hok] at hacks
  · refine ⟨rfl, rfl, rfl, ⟨fun h => ⟨h, ?_⟩, And.left⟩⟩
    simp only [h, Bool.not_false, Bool.true_and, Bool.and_eq_true, not_and] at hacks
    cases hacked : r.acked with
    | nil => exact .inl rfl
    | cons id ids => simpa [hacked] using hacks

/-- A poll that returns is a run of its turns. -/
theorem run_of_poll {fetched : List Value} (hnamed : Named s)
    (h : (pollAndIngest L s fetched now).raised = false) :
    ∃ gs, groups (fetched.filterMap item?) = some gs ∧ (∀ g ∈ gs, bindable g.1 = true) ∧
      (worker L now).Run s (turns gs) (pollAndIngest L s fetched now).writes
        (pollAndIngest L s fetched now).store ∧
      (pollAndIngest L s fetched now).acked = (finished L now s gs).map Item.id ∧
      ((pollAndIngest L s fetched now).acked = [] ∨
        L.acks (pollAndIngest L s fetched now).acked = true) := by
  cases hgs : groups (fetched.filterMap item?) with
  | none =>
    rw [pollAndIngest, hgs] at h
    cases h
  | some gs =>
    obtain ⟨hstore, hwrites, hacked, hraised⟩ := pollAndIngest_eq L s now hgs
    obtain ⟨hfold, hacks⟩ := hraised.mp h
    obtain ⟨hsound, hfinished⟩ := foldl_group L now gs (r := ⟨s, [], false, [], []⟩) rfl
    have hbindable := (hsound.mp hfold).bindable
    obtain ⟨ws, hrun, hwrites'⟩ := (foldl_group_run L now (.of_groups hgs) hbindable
      (r := ⟨s, [], false, [], []⟩) rfl hnamed).1 hfold
    obtain rfl : ws = (pollAndIngest L s fetched now).writes := (hwrites.trans hwrites').symm
    rw [← hacked] at hacks hfinished
    rw [hstore]
    exact ⟨gs, rfl, hbindable, hrun, hfinished hfold, hacks⟩

/-- A run of the turns is a poll, which returns if the relay takes the acknowledgement. -/
theorem poll_of_run {fetched : List Value} (hnamed : Named s) {gs : List (Value × List Item)}
    (hgs : groups (fetched.filterMap item?) = some gs) (hbindable : ∀ g ∈ gs, bindable g.1 = true)
    {ws : List (Write κ)} (hrun : (worker L now).Run s (turns gs) ws s')
    (hacks : (finished L now s gs).map Item.id = [] ∨
      L.acks ((finished L now s gs).map Item.id) = true) :
    (pollAndIngest L s fetched now).raised = false ∧ (pollAndIngest L s fetched now).store = s' ∧
      (pollAndIngest L s fetched now).writes = ws ∧
      (pollAndIngest L s fetched now).acked = (finished L now s gs).map Item.id := by
  obtain ⟨hstore, hwrites, hacked, hraised⟩ := pollAndIngest_eq L s now hgs
  obtain ⟨hfirst, hsecond⟩ := foldl_group_run L now (.of_groups hgs) hbindable
    (r := ⟨s, [], false, [], []⟩) rfl hnamed
  have hfold := hsecond ws s' hrun
  obtain ⟨vs, hrun', hwrites'⟩ := hfirst hfold
  obtain ⟨rfl, rfl⟩ := hrun.functional hrun'
  have hfinished := (foldl_group L now gs (r := ⟨s, [], false, [], []⟩) rfl).2 hfold
  refine ⟨hraised.mpr ⟨hfold, ?_⟩, hstore, hwrites.trans hwrites', hacked.trans hfinished⟩
  rw [hfinished]
  exact hacks

theorem taken_ne_nil {items : List Item} (h : items ≠ []) : taken items ≠ [] := by
  obtain ⟨u, us, rfl⟩ := List.exists_cons_of_ne_nil h
  have hmem : u ∈ (u :: us).take inboundFloodCap := List.mem_cons_self
  refine List.ne_nil_of_mem (a := u) ?_
  unfold taken
  cases hopen : isSessionOpen u.envelope with
  | true => exact List.mem_append_left _ (List.mem_filter.mpr ⟨hmem, hopen⟩)
  | false => exact List.mem_append_right _ (List.mem_filter.mpr ⟨hmem, by simp [hopen]⟩)

/-- The store after a group, as a run. -/
theorem afterGroup_of_run {g : Value × List Item} (hsenders : ∀ it ∈ g.2, peerId g.1 = peerId it.sender)
    (hnamed : Named s) {ws : List (Write κ)} (hrun : (worker L now).Run s (taken g.2) ws s') :
    afterGroup L now s g = s' := by
  have hmem : ∀ u ∈ taken g.2, peerId g.1 = peerId u.sender := fun u hu => hsenders u (mem_taken hu)
  unfold afterGroup
  cases hgate : blocked s g.1 with
  | true =>
    exact (hrun.functional (Worker.Run.idle fun u hu => work_of_over
      (.inl ((blocked_congr (hmem u hu)).symm.trans hgate)))).2.symm
  | false =>
    obtain ⟨hfirst, hsecond⟩ := foldl_item_run L now hmem
      (r := ⟨s, [], false, [], []⟩) rfl hnamed hgate
    have hraised := hsecond ws s' hrun
    obtain ⟨vs, hrun', -⟩ := hfirst hraised
    have hstore := ((foldl_item L now g.1 (taken g.2)
      (r := ⟨s, [], false, [], []⟩) rfl).2 hraised).1
    exact hstore.symm.trans (hrun.functional hrun').2.symm

/-- Two runs of the turns that find the same gates finish the same items. -/
theorem finished_congr {gs : List (Value × List Item)} (hgs : Grouped gs) {c d : Store κ ε}
    {ws vs : List (Write κ)} (hs : Named s) (hc : Named c)
    (hrun : (worker L now).Run s (turns gs) ws s') (hrun' : (worker L now).Run c (turns gs) vs d)
    (hgates : ∀ pre t post us us' x y, turns gs = pre ++ t :: post →
      (worker L now).Run s pre us x → (worker L now).Run c pre us' y →
      blocked x t.sender = blocked y t.sender) :
    finished L now s gs = finished L now c gs := by
  induction gs generalizing s c ws vs with
  | nil => rfl
  | cons g gs ih =>
    obtain ⟨hne, hsenders⟩ := hgs.senders g List.mem_cons_self
    have hrest : Grouped gs := ⟨fun g' hg' => hgs.senders g' (List.mem_cons_of_mem _ hg'),
      (List.pairwise_cons.mp hgs.distinct).2⟩
    have hturns : turns (g :: gs) = taken g.2 ++ turns gs := List.flatMap_cons
    rw [hturns] at hrun hrun'
    obtain ⟨m, us, xs, htaken, hleft, -⟩ := hrun.split
    obtain ⟨m', us', xs', htaken', hleft', -⟩ := hrun'.split
    have hgate : blocked s g.1 = blocked c g.1 := by
      obtain ⟨t, post, ht⟩ := List.exists_cons_of_ne_nil (taken_ne_nil hne)
      have hpeer := hsenders t (mem_taken (ht ▸ List.mem_cons_self))
      rw [blocked_congr hpeer, blocked_congr hpeer]
      refine hgates [] t (post ++ turns gs) [] [] s c ?_ (.nil s) (.nil c)
      rw [hturns, ht]
      rfl
    unfold finished
    rw [hgate, afterGroup_of_run hsenders hs htaken, afterGroup_of_run hsenders hc htaken',
      ih hrest (htaken.preserves (fun _ _ _ h hwork => h.turn hwork) hs)
        (htaken'.preserves (fun _ _ _ h hwork => h.turn hwork) hc) hleft hleft' ?_]
    intro pre t post vs vs' x y heq hx hy
    refine hgates (taken g.2 ++ pre) t post _ _ x y ?_ (htaken.append hx) (htaken'.append hy)
    rw [hturns, heq, List.append_assoc]

/-- Writes that rename no peer and accept no message leave the transcript. -/
theorem transcript_commit {ws : List (Write κ)} (hplain : ∀ w ∈ ws, w.Plain)
    (hnone : appends ws = []) : (s.commit ws).transcript = s.transcript := by
  induction ws generalizing s with
  | nil => rfl
  | cons w ws ih =>
    obtain ⟨hw, hws⟩ := List.append_eq_nil_iff.mp ((appends_append [w] ws).symm.trans hnone)
    refine (ih (fun v hv => hplain v (List.mem_cons_of_mem _ hv)) hws).trans ?_
    have hplain := hplain w List.mem_cons_self
    cases w with
    | upsertPeer peer mailbox => rw [apply_upsertPeer]
    | saveSessionKey peer session key => rw [apply_saveSessionKey]
    | createSession peer session => rw [apply_createSession]
    | clearPendingHandshake peer session => rfl
    | appendTranscript peer session seq text => cases hw
    | setSeqHighWater peer session seq => rfl
    | updatePeerIdentity _ _ _ => exact hplain.elim

/-- Each message that is accepted is one more row of the transcript. -/
theorem Effect.length_transcript {ws : List (Write κ)} {raised : Bool}
    (h : Effect L now s it ws raised) :
    (s.commit ws).transcript.entries.length = s.transcript.entries.length + (appends ws).length := by
  have hkept (hnone : appends ws = []) (hplain : ∀ w ∈ ws, w.Plain) :
      (s.commit ws).transcript.entries.length =
        s.transcript.entries.length + (appends ws).length := by
    rw [transcript_commit hplain hnone, hnone]
    rfl
  cases h with
  | nothing _ => rfl
  | learned _ => exact hkept rfl (by simp [Write.Plain])
  | answered mailbox _ _ _ _ _ _ _ =>
    refine hkept ?_ (plain_answered _ _ _ mailbox)
    simp [appends, List.filterMap_map]
  | completed _ _ _ _ _ => exact hkept rfl (by simp [Write.Plain])
  | @followed peer newPub newKeyId _ _ _ _ hsome =>
    obtain ⟨s', hs'⟩ := Option.isSome_iff_exists.mp hsome
    obtain ⟨-, -, -, -, htranscript, -⟩ := updatePeerIdentity_some hs'
    rw [commit_updatePeerIdentity hs']
    exact Dict.length_rekey htranscript
  | accepted _ _ _ hfresh => exact Dict.length_set hfresh _

theorem length_transcript_of_run {ts : List Item} {ws : List (Write κ)} (hnamed : Named s)
    (h : (worker L now).Run s ts ws s') :
    s'.transcript.entries.length = s.transcript.entries.length + (appends ws).length := by
  induction h with
  | nil s => rfl
  | @cons s s' t ts ws vs hwork _ ih =>
    rw [ih (hnamed.turn hwork), appends_append, List.length_append, ← Nat.add_assoc]
    refine congrArg (· + (appends vs).length) ?_
    obtain ⟨-, rfl⟩ | ⟨-, heffect⟩ := work_cases hnamed hwork
    · rfl
    · exact heffect.length_transcript

/-! ## The stores that are reached -/

/-- What happens to the tables of a store. -/
inductive Step (ε : Type)
  /-- A row of a peer is written: a pairing, a change of consent, a mailbox. -/
  | upsertPeer (peer : Points) (row : PeerRow)
  /-- `open_session`, with a session id that is drawn -/
  | openSession (peer session : Points) (pending : Pending ε)
  /-- `end_session` -/
  | endSession (peer session : Points)
  /-- A poll that stops after some of its writes, if not before. -/
  | poll (fetched : List Value) (now : Instant) (stop : ℕ)

def step (L : Library κ ε) (s : Store κ ε) : Step ε → Option (Store κ ε)
  | .upsertPeer peer row => some { s with peers := s.peers.set peer row }
  | .openSession peer session pending =>
    if session ≠ [] ∧ (s.peers.get? peer).isSome ∧ (s.keys.get? (peer, session)).isNone then
      some { s with pending := s.pending.set (peer, session) pending }
    else none
  | .endSession peer session =>
    if (s.sessions.get? (peer, session)).isSome then
      some { s with sessions := s.sessions.set (peer, session) false }
    else none
  | .poll fetched now stop => some (s.commit ((pollAndIngest L s fetched now).writes.take stop))

/-- A store starts with no rows. -/
def machine (L : Library κ ε) : Machine (Store κ ε) (Step ε) where
  init s := s = ⟨∅, ∅, ∅, ∅, ∅, ∅⟩
  step := step L

/-- A poll does not stop before a write that ends what another has begun. -/
def Clean (L : Library κ ε) (s : Store κ ε) (fetched : List Value) (now : Instant) (stop : ℕ) : Prop :=
  (pollAndIngest L s fetched now).writes[stop]?.any Write.ends = false

/-- Polls stop cleanly. -/
def Careful (L : Library κ ε) (s : Store κ ε) : Step ε → Prop
  | .poll fetched now stop => Clean L s fetched now stop
  | _ => True

/-- What a poll has committed, in whatever order it goes through its items. -/
structure Logged (s : Store κ ε) (r : Run κ ε) : Prop where
  store : r.store = s.commit r.writes
  clean : ∀ k, r.writes[k]?.any Write.ends = false → Settled (s.commit (r.writes.take k))

theorem Logged.settled {r : Run κ ε} (h : Logged s r) : Settled r.store := by
  rw [h.store, ← List.take_length (l := r.writes)]
  exact h.clean _ (by simp)

theorem Logged.item {r : Run κ ε} (h : Logged s r) {sender : Value} (hsender : peerId sender = peerId it.sender) :
    Logged s (Run.item L now sender r it) := by
  by_cases hr : r.raised = true
  · rw [Run.item, if_pos hr]
    exact h
  · rw [Run.item_eq L now (by simpa using hr), ingest_congr hsender]
    have heffect := ingest_effect L now h.settled.named it
    refine ⟨?_, fun k hk => ?_⟩
    · rw [commit_append, ← h.store]
    · by_cases hle : k < r.writes.length
      · rw [List.getElem?_append_left hle] at hk
        rw [List.take_append_of_le_length (Nat.le_of_lt hle)]
        exact h.clean k hk
      · have hge : r.writes.length ≤ k := Nat.le_of_not_lt hle
        rw [List.getElem?_append_right hge] at hk
        rw [List.take_append, List.take_of_length_le hge, commit_append, ← h.store]
        exact h.settled.effect heffect hk

theorem Logged.group {r : Run κ ε} (h : Logged s r) {g : Value × List Item}
    (hsenders : ∀ it ∈ g.2, peerId g.1 = peerId it.sender) : Logged s (Run.group L now r g) := by
  have hitems (items : List Item) (hmem : ∀ it ∈ items, peerId g.1 = peerId it.sender) {r : Run κ ε}
      (h : Logged s r) : Logged s (items.foldl (Run.item L now g.1) r) := by
    induction items generalizing r with
    | nil => exact h
    | cons it items ih =>
      exact ih (fun u hu => hmem u (List.mem_cons_of_mem _ hu)) (h.item (hmem it List.mem_cons_self))
  unfold Run.group
  split_ifs
  · exact h
  · exact ⟨h.store, h.clean⟩
  · exact ⟨h.store, h.clean⟩
  · exact hitems _ (fun it hit => hsenders it (mem_taken hit)) h

/-- A poll that stops cleanly leaves no write missing. -/
theorem Settled.poll (h : Settled s) {fetched : List Value} {stop : ℕ}
    (hclean : Clean L s fetched now stop) :
    Settled (s.commit ((pollAndIngest L s fetched now).writes.take stop)) := by
  cases hgs : groups (fetched.filterMap item?) with
  | none =>
    have hwrites : (pollAndIngest L s fetched now).writes = [] := by
      rw [pollAndIngest, hgs]
    rw [hwrites, List.take_nil]
    exact h
  | some gs =>
    have hfold : ∀ (gs : List (Value × List Item)), (∀ g ∈ gs, ∀ it ∈ g.2, peerId g.1 = peerId it.sender) →
        ∀ r : Run κ ε, Logged s r → Logged s (gs.foldl (Run.group L now) r) := by
      intro gs
      induction gs with
      | nil => exact fun _ _ hr => hr
      | cons g gs ih =>
        exact fun hmem r hr => ih (fun g' hg' => hmem g' (List.mem_cons_of_mem _ hg')) _
          (hr.group (hmem g List.mem_cons_self))
    have hlogged := hfold gs (fun g hg => ((Grouped.of_groups hgs).senders g hg).2)
      ⟨s, [], false, [], []⟩ ⟨rfl, fun k _ => by rw [List.take_nil]; exact h⟩
    obtain ⟨-, hwrites, -⟩ := pollAndIngest_eq L s now hgs
    unfold Clean at hclean
    rw [hwrites] at hclean ⊢
    exact hlogged.clean stop hclean

theorem settled_of_reach (hs : (machine L).Reach (Careful L) s) : Settled s := by
  refine hs.invariant (I := Settled) ?_ ?_
  · rintro s rfl
    exact ⟨nofun, nofun, fun _ _ => Iff.rfl, nofun, fun _ => rfl, nofun, nofun⟩
  · intro s a s' h hcareful hstep
    cases a with
    | upsertPeer peer row =>
      obtain rfl := Option.some.inj hstep
      have hpeers : ∀ p, (s.peers.get? p).isSome → ((s.peers.set peer row).get? p).isSome := by
        intro p hp
        rw [Dict.get?_set]
        split_ifs
        · rfl
        · exact hp
      exact ⟨fun p sid hkey => hpeers p (h.known p sid hkey),
        fun p sid hrow => hpeers p (h.awaited p sid hrow), h.sessions, h.pending, h.named,
        h.transcript, h.highWater⟩
    -- The session is new, and its peer is known.
    | openSession peer session pending =>
      change (if _ then _ else _) = _ at hstep
      split_ifs at hstep with hopen
      obtain rfl := Option.some.inj hstep
      obtain ⟨hne, hpeer, hkey⟩ := hopen
      refine ⟨h.known, fun p sid hrow => ?_, h.sessions, fun p sid hrow => ?_, fun p => ?_,
        h.transcript, h.highWater⟩
      · simp only [Dict.get?_set] at hrow
        split_ifs at hrow with hp
        · rw [(Prod.mk.inj hp).1]
          exact hpeer
        · exact h.awaited p sid hrow
      · simp only [Dict.get?_set] at hrow
        split_ifs at hrow with hp
        · rw [hp]
          exact Option.isNone_iff_eq_none.mp hkey
        · exact h.pending p sid hrow
      · simp only [Dict.get?_set]
        rw [if_neg fun hp => hne (Prod.mk.inj hp).2.symm]
        exact h.named p
    -- The session was there before it ended, and it still is.
    | endSession peer session =>
      change (if _ then _ else _) = _ at hstep
      split_ifs at hstep with hsome
      obtain rfl := Option.some.inj hstep
      refine ⟨h.known, h.awaited, fun p sid => ?_, h.pending, h.named, h.transcript, h.highWater⟩
      rw [h.sessions, Dict.get?_set]
      split_ifs with hp
      · rw [hp]
        exact iff_of_true hsome rfl
      · exact Iff.rfl
    | poll fetched now stop =>
      obtain rfl := Option.some.inj hstep
      exact h.poll hcareful

/-! ## Two polls -/

/-- No notice that is followed names the sender of an item that has had its turn, or its own. -/
def Fresh (L : Library κ ε) (now : Instant) (past : List Item) (s : Store κ ε) (it : Item) : Prop :=
  ∀ peer newPub newKeyId, .updatePeerIdentity peer newPub newKeyId ∈ (turn L now s it).writes →
    ∀ u ∈ past ++ [it], u.sender ≠ .str newKeyId

/-- The turns that a poll finishes before it stops are fresh. -/
def AllFresh (L : Library κ ε) (s : Store κ ε) (fetched : List Value) (now : Instant) (stop : ℕ) : Prop :=
  ∀ gs, groups (fetched.filterMap item?) = some gs →
    (worker L now).Heeds (Fresh L now) [] s (turns gs) stop

/-- A poll that is stopped, and then one over the same mailbox, come to what one poll would have:
the second returns, and acks the same items; each message is accepted once, and has one row; and no
write is missing. -/
structure Recovers (L : Library κ ε) (s : Store κ ε) (fetched : List Value) (now now' : Instant)
    (stop : ℕ) : Prop where
  returns : (pollAndIngest L (s.commit ((pollAndIngest L s fetched now).writes.take stop)) fetched
    now').raised = false
  store : (pollAndIngest L (s.commit ((pollAndIngest L s fetched now).writes.take stop)) fetched
    now').store = (pollAndIngest L s fetched now).store
  acked : (pollAndIngest L (s.commit ((pollAndIngest L s fetched now).writes.take stop)) fetched
    now').acked = (pollAndIngest L s fetched now).acked
  accepted : appends ((pollAndIngest L s fetched now).writes.take stop ++
    (pollAndIngest L (s.commit ((pollAndIngest L s fetched now).writes.take stop)) fetched now').writes) =
    appends (pollAndIngest L s fetched now).writes
  rows : (pollAndIngest L (s.commit ((pollAndIngest L s fetched now).writes.take stop)) fetched
    now').store.transcript.entries.length =
      s.transcript.entries.length + (appends (pollAndIngest L s fetched now).writes).length
  settled : Settled (pollAndIngest L (s.commit ((pollAndIngest L s fetched now).writes.take stop)) fetched
    now').store

/-- The clock is read to see whether an envelope has expired. -/
theorem ingest_clock {now' : Instant} (h : checkExpiry L it.envelope now' = checkExpiry L it.envelope now)
    (s : Store κ ε) (sender : Value) : ingest L s sender it now' = ingest L s sender it now := by
  unfold ingest ingestSessionOpen onSessionOpen completeSession readHandshake parseSessionOpen
    handleKeyRotationNotice readNotice parseKeyRotationNotice ingestMessage readMessage verifyAndOpen
  rw [h]

/-- The items of the groups are the ones that are grouped. -/
theorem mem_of_groups {items : List Item} {gs : List (Value × List Item)} (h : groups items = some gs)
    {g : Value × List Item} (hg : g ∈ gs) (hit : it ∈ g.2) : it ∈ items := by
  unfold groups at h
  split_ifs at h
  obtain rfl := Option.some.inj h
  have hadd (v : Value) (u : Item) (gs : List (Value × List Item)) {g : Value × List Item}
      (hg : g ∈ addTo v u gs) (hit : it ∈ g.2) : it = u ∨ ∃ g₀ ∈ gs, it ∈ g₀.2 := by
    induction gs with
    | nil =>
      obtain rfl := List.mem_singleton.mp hg
      exact .inl (List.mem_singleton.mp hit)
    | cons g₀ gs ih =>
      unfold addTo at hg
      split_ifs at hg
      · rcases List.mem_cons.mp hg with rfl | hmem
        · rcases List.mem_append.mp hit with hold | hnew
          · exact .inr ⟨g₀, List.mem_cons_self, hold⟩
          · exact .inl (List.mem_singleton.mp hnew)
        · exact .inr ⟨g, List.mem_cons_of_mem _ hmem, hit⟩
      · rcases List.mem_cons.mp hg with rfl | hmem
        · exact .inr ⟨g, List.mem_cons_self, hit⟩
        · refine (ih hmem).imp_right ?_
          rintro ⟨g₁, hg₁, hit₁⟩
          exact ⟨g₁, List.mem_cons_of_mem _ hg₁, hit₁⟩
  have hfold : ∀ (items : List Item) (gs : List (Value × List Item)),
      (∃ g ∈ items.foldl (fun gs it => addTo it.sender it gs) gs, it ∈ g.2) →
      it ∈ items ∨ ∃ g ∈ gs, it ∈ g.2 := by
    intro items
    induction items with
    | nil => exact fun gs h => .inr h
    | cons u items ih =>
      intro gs h
      rcases ih _ h with hmem | ⟨g, hg, hit⟩
      · exact .inl (List.mem_cons_of_mem _ hmem)
      · rcases hadd _ _ _ hg hit with rfl | hold
        · exact .inl List.mem_cons_self
        · exact .inr hold
  rcases hfold items [] ⟨g, hg, hit⟩ with hmem | ⟨g₀, hg₀, -⟩
  · exact hmem
  · cases hg₀

/-- A poll at another time at which the same envelopes have expired. -/
theorem pollAndIngest_clock {fetched : List Value} {now' : Instant}
    (h : ∀ it ∈ fetched.filterMap item?,
      checkExpiry L it.envelope now' = checkExpiry L it.envelope now) (s : Store κ ε) :
    pollAndIngest L s fetched now' = pollAndIngest L s fetched now := by
  have hgroup (gs : List (Value × List Item)) (hgs : groups (fetched.filterMap item?) = some gs)
      (r : Run κ ε) : gs.foldl (Run.group L now') r = gs.foldl (Run.group L now) r := by
    refine List.foldl_ext _ _ _ fun r g hg => ?_
    have hitems : (taken g.2).foldl (Run.item L now' g.1) r = (taken g.2).foldl (Run.item L now g.1) r := by
      refine List.foldl_ext _ _ _ fun r it hit => ?_
      unfold Run.item
      rw [ingest_clock (h it (mem_of_groups hgs hg (mem_taken hit)))]
    unfold Run.group
    rw [hitems]
  unfold pollAndIngest
  cases hgs : groups (fetched.filterMap item?) with
  | none => rfl
  | some gs => simp only [hgroup gs hgs]

theorem writes_of_work {ws : List (Write κ)} (hwork : (worker L now).work s it = some ws) :
    (turn L now s it).writes = ws := by
  change (if (turn L now s it).raised then none else some (turn L now s it).writes) = some ws at hwork
  split_ifs at hwork
  exact Option.some.inj hwork

/-- Once some turns are over, no write is missing. -/
theorem settled_of_run {ts us : List Item} {ws : List (Write κ)} (h : Settled s)
    (hrun : (worker L now).Run s ts ws s') {k : ℕ} (hk : ws.length ≤ k)
    (hfresh : (worker L now).Heeds (Fresh L now) [] s (ts ++ us) k)
    (hordered : (ts ++ us).Pairwise Ordered) : Settled s' ∧ ∀ u ∈ ts, Over L now s' u := by
  refine Worker.Run.invariant (I := fun past s => Settled s ∧ ∀ u ∈ past, Over L now s u) ?_ us hrun
    ⟨h, fun _ hu => absurd hu List.not_mem_nil⟩ hk (hfresh.and_pairwise hordered)
  rintro past s t ws ⟨hs, hover⟩ ⟨hheed, horder⟩ hwork
  refine ⟨hs.turn hwork, fun u hu => ?_⟩
  have hne : ∀ peer newPub newKeyId, .updatePeerIdentity peer newPub newKeyId ∈ ws →
      u.sender ≠ .str newKeyId := fun peer newPub newKeyId hmem =>
    hheed peer newPub newKeyId (writes_of_work hwork ▸ hmem) u hu
  rcases List.mem_append.mp hu with hpast | hnew
  · exact (hover u hpast).turn hs hwork hne (horder u hpast)
  · obtain rfl := List.mem_singleton.mp hnew
    exact over_turn hs hwork hne

/-- The gate of an item does not change after its turn. -/
theorem blocked_of_run {past ts us : List Item} {t : Item} {ws : List (Write κ)} (h : Settled s)
    (ht : t ∈ past) (hrun : (worker L now).Run s ts ws s') {k : ℕ} (hk : ws.length ≤ k)
    (hfresh : (worker L now).Heeds (Fresh L now) past s (ts ++ us) k) :
    blocked s' t.sender = blocked s t.sender := by
  refine (Worker.Run.invariant (I := fun past x => Settled x ∧ t ∈ past ∧
    blocked x t.sender = blocked s t.sender) ?_ us hrun ⟨h, ht, rfl⟩ hk hfresh).2.2
  rintro past x u vs ⟨hx, hmem, hgate⟩ hheed hwork
  refine ⟨hx.turn hwork, List.mem_append_left _ hmem, (blocked_turn hx.named hwork ?_).trans hgate⟩
  intro peer newPub newKeyId hrename
  exact hheed peer newPub newKeyId (writes_of_work hwork ▸ hrename) t (List.mem_append_left _ hmem)

/-- The gate that an item found does not change in the turns after it. -/
theorem blocked_of_done {pre mid us : List Item} {u : Item} {x : Store κ ε} {ws vs : List (Write κ)}
    (h : Settled s) (hdone : (worker L now).Run s (pre ++ u :: mid) ws s') {k : ℕ} (hk : ws.length ≤ k)
    (hfresh : (worker L now).Heeds (Fresh L now) [] s (pre ++ u :: mid ++ us) k)
    (hx : (worker L now).Run s pre vs x) : blocked s' u.sender = blocked x u.sender := by
  obtain ⟨m, ws₀, ws', hm, hrun, rfl⟩ := hdone.split
  obtain ⟨-, rfl⟩ := hm.functional hx
  have hm' : Settled m := hm.preserves (I := Settled) (fun _ _ _ hs hwork => Settled.turn hs hwork) h
  cases hrun with
  | @cons _ _ _ _ ws₁ ws₂ hwork hrun =>
    rw [List.length_append, List.length_append] at hk
    rw [List.append_assoc] at hfresh
    have hheeds := hm.heeds (by omega) hfresh
    obtain ⟨hheed, hrest⟩ := hheeds ws₁ hwork (by omega)
    have hmem : u ∈ [] ++ pre ++ [u] := List.mem_append_right _ List.mem_cons_self
    refine (blocked_of_run (hm'.turn hwork) hmem hrun (by omega) hrest).trans
      (blocked_turn hm'.named hwork ?_)
    intro peer newPub newKeyId hrename
    exact hheed peer newPub newKeyId (writes_of_work hwork ▸ hrename) u hmem

/-- The second of two runs finds the gates that the first found, where both get to one state by the
turn after those that were done. -/
theorem blocked_of_again {ts us : List Item} {t : Item} {c : Store κ ε} {vs xs : List (Write κ)}
    {w : List (Write κ)} (hdone : (worker L now).Run s ts w s')
    (hidle : (worker L now).Run c ts [] c) (hgate : ∀ sender, blocked c sender = blocked s' sender)
    (hwork : (worker L now).work s' t = some vs) (hagain : (worker L now).work c t = some xs)
    (hsame : c.commit xs = s'.commit vs) {mid post : List Item} {u : Item} {a b : List (Write κ)}
    {x y : Store κ ε} (heq : t :: us = mid ++ u :: post) (hx : (worker L now).Run s (ts ++ mid) a x)
    (hy : (worker L now).Run c (ts ++ mid) b y) : blocked x u.sender = blocked y u.sender := by
  obtain ⟨m, a₁, a₂, hm, hx', -⟩ := hx.split
  obtain ⟨n, b₁, b₂, hn, hy', -⟩ := hy.split
  obtain ⟨-, rfl⟩ := hm.functional hdone
  obtain ⟨-, rfl⟩ := hn.functional hidle
  cases mid with
  | nil =>
    cases hx'
    cases hy'
    exact (hgate u.sender).symm
  | cons t' mid =>
    obtain ⟨rfl, -⟩ := List.cons.inj heq
    cases hx' with
    | cons hwork' hx' =>
      cases hy' with
      | cons hagain' hy' =>
        obtain rfl := Option.some.inj (hwork.symm.trans hwork')
        obtain rfl := Option.some.inj (hagain.symm.trans hagain')
        have hcommit : (worker L now).commit n xs = (worker L now).commit m vs := hsame
        rw [hcommit] at hy'
        rw [(hx'.functional hy').2]

/-- A second run finds the gates that the first found in the turns that were done. -/
theorem blocked_of_idle {done us : List Item} {m c : Store κ ε} {ws : List (Write κ)} (h : Settled s)
    (hdone : (worker L now).Run s done ws m) {k : ℕ} (hk : ws.length ≤ k)
    (hfresh : (worker L now).Heeds (Fresh L now) [] s (done ++ us) k)
    (hidle : ∀ u ∈ done, Over L now c u) (hgate : ∀ sender, blocked c sender = blocked m sender)
    {pre mid : List Item} {u : Item} {a b : List (Write κ)} {x y : Store κ ε}
    (heq : done = pre ++ u :: mid) (hx : (worker L now).Run s pre a x)
    (hy : (worker L now).Run c pre b y) : blocked x u.sender = blocked y u.sender := by
  subst heq
  obtain ⟨-, rfl⟩ := hy.functional
    (Worker.Run.idle fun u hu => work_of_over (hidle u (List.mem_append_left _ hu)))
  rw [hgate]
  exact (blocked_of_done h hdone hk hfresh hx).symm

section Second

variable {fetched : List Value} {now' : Instant} {stop : ℕ} {gs : List (Value × List Item)}
  {c : Store κ ε}

/-- A second run to the same end is a second poll that recovers. -/
theorem recovers_of_run (h : Settled s) (hreturns : (pollAndIngest L s fetched now).raised = false)
    (hclock : ∀ it ∈ fetched.filterMap item?,
      checkExpiry L it.envelope now' = checkExpiry L it.envelope now)
    (hgs : groups (fetched.filterMap item?) = some gs)
    (hc : s.commit ((pollAndIngest L s fetched now).writes.take stop) = c) (hnamed : Named c)
    {xs : List (Write κ)}
    (hagain : (worker L now).Run c (turns gs) xs (pollAndIngest L s fetched now).store)
    (haccepted : appends ((pollAndIngest L s fetched now).writes.take stop ++ xs) =
      appends (pollAndIngest L s fetched now).writes)
    (hgates : ∀ pre t post us us' x y, turns gs = pre ++ t :: post →
      (worker L now).Run s pre us x → (worker L now).Run c pre us' y →
      blocked x t.sender = blocked y t.sender) : Recovers L s fetched now now' stop := by
  obtain ⟨gs', hgs', hbindable, hrun, hacked, hacks⟩ := run_of_poll h.named hreturns
  obtain rfl := Option.some.inj (hgs.symm.trans hgs')
  have hfinished := finished_congr (.of_groups hgs) h.named hnamed hrun hagain hgates
  rw [hacked, hfinished] at hacks
  obtain ⟨hraised, hstore, hxs, hacked'⟩ := poll_of_run hnamed hgs hbindable hagain hacks
  have hend : Settled (pollAndIngest L s fetched now).store :=
    hrun.preserves (I := Settled) (fun _ _ _ hs hwork => Settled.turn hs hwork) h
  rw [← pollAndIngest_clock hclock] at hraised hstore hxs hacked'
  subst hc
  exact
    { returns := hraised
      store := hstore
      acked := by rw [hacked', hacked, hfinished]
      accepted := by rw [hxs, haccepted]
      rows := by rw [hstore, length_transcript_of_run h.named hrun]
      settled := by rwa [hstore] }

/-- A second poll that returns is a second run. -/
theorem Recovers.run (h : Recovers L s fetched now now' stop)
    (hclock : ∀ it ∈ fetched.filterMap item?,
      checkExpiry L it.envelope now' = checkExpiry L it.envelope now)
    (hgs : groups (fetched.filterMap item?) = some gs)
    (hc : s.commit ((pollAndIngest L s fetched now).writes.take stop) = c) (hnamed : Named c) :
    ∃ xs x, (worker L now).Run c (turns gs) xs x ∧ Settled x := by
  obtain ⟨hraised, -, -, -, -, hsettled⟩ := h
  rw [hc, pollAndIngest_clock hclock] at hraised hsettled
  obtain ⟨gs', hgs', -, hagain, -⟩ := run_of_poll hnamed hraised
  obtain rfl := Option.some.inj (hgs.symm.trans hgs')
  exact ⟨_, _, hagain, hsettled⟩

end Second

theorem recovers_iff (L : Library κ ε) {s : Store κ ε} (hs : (machine L).Reach (Careful L) s)
    (fetched : List Value) (now now' : Instant) (stop : ℕ)
    (hreturns : (pollAndIngest L s fetched now).raised = false)
    (hclock : ∀ it ∈ fetched.filterMap item?,
      checkExpiry L it.envelope now' = checkExpiry L it.envelope now)
    (hfresh : AllFresh L s fetched now stop) :
    Recovers L s fetched now now' stop ↔ Clean L s fetched now stop := by
  have h := settled_of_reach hs
  obtain ⟨gs, hgs, -, hrun, -⟩ := run_of_poll h.named hreturns
  -- The poll stops after the turns of `done`, and `j` writes of the turn that comes next.
  obtain ⟨⟨done, left, written, rest, m, htasks, hwrites, hbefore, hafter, hle, hlt⟩⟩ := hrun.cut stop
  obtain ⟨j, rfl⟩ := Nat.exists_eq_add_of_le hle
  have hheeds := htasks ▸ hfresh gs hgs
  have hordered := htasks ▸ (Grouped.of_groups hgs).ordered
  obtain ⟨hm, hover⟩ := settled_of_run h hbefore hle hheeds hordered
  have htake : (pollAndIngest L s fetched now).writes.take (written.length + j) =
      written ++ rest.take j := by
    rw [hwrites, List.take_append, List.take_of_length_le hle, Nat.add_sub_cancel_left]
  have hstopped : s.commit ((pollAndIngest L s fetched now).writes.take (written.length + j)) =
      m.commit (rest.take j) := by
    rw [htake, commit_append]
    exact congrArg (Store.commit · _) hbefore.eq_commit.symm
  have hclean : Clean L s fetched now (written.length + j) ↔ rest[j]?.any Write.ends = false := by
    unfold Clean
    rw [hwrites, List.getElem?_append_right hle, Nat.add_sub_cancel_left]
  rw [hclean]
  cases hafter with
  | nil =>
    -- Every turn is over, and the second poll does nothing.
    rw [List.append_nil] at htasks
    rw [List.take_nil] at hstopped
    have hidle : (worker L now).Run (pollAndIngest L s fetched now).store (turns gs) []
        (pollAndIngest L s fetched now).store :=
      htasks ▸ Worker.Run.idle fun u hu => work_of_over (hover u hu)
    refine iff_of_true (recovers_of_run h hreturns hclock hgs hstopped hm.named hidle ?_ ?_) rfl
    · rw [htake, List.take_nil, hwrites, List.append_nil, List.append_nil]
    · intro pre t post us us' x y heq hx hy
      exact blocked_of_idle h hbefore hle hheeds hover (fun _ => rfl) (htasks.symm.trans heq) hx hy
  | @cons _ _ t us ws vs hwork hafter =>
    have hj : j < ws.length := by
      have hlt := hlt t us ws rfl hwork
      omega
    rw [List.take_append_of_le_length (Nat.le_of_lt hj)] at htake hstopped
    rw [List.getElem?_append_left hj]
    cases hends : ws[j]?.any Write.ends with
    | false =>
      obtain ⟨hkeep, hgate, xs, hagain, hsame, happends⟩ := turn_again hm hwork hj hends
      have hidle : ∀ u ∈ done, Over L now (m.commit (ws.take j)) u := fun u hu => hkeep u (hover u hu)
      have hidleRun : (worker L now).Run (m.commit (ws.take j)) done [] (m.commit (ws.take j)) :=
        Worker.Run.idle fun u hu => work_of_over (hidle u hu)
      have hnamed : Named (m.commit (ws.take j)) := (hm.stopped hwork hends).named
      have hreplay : (worker L now).Run (m.commit (ws.take j)) (turns gs) (xs ++ vs)
          (pollAndIngest L s fetched now).store :=
        htasks ▸ Worker.Run.replay (fun u hu => work_of_over (hidle u hu)) hagain hsame hafter
      refine iff_of_true (recovers_of_run h hreturns hclock hgs hstopped hnamed hreplay ?_ ?_) rfl
      · rw [htake, hwrites, List.append_assoc, ← List.append_assoc _ xs, appends_append,
          appends_append, happends, appends_append, appends_append]
      · intro pre u post a b x y heq hx hy
        rcases List.append_eq_append_iff.mp (htasks.symm.trans heq) with
          ⟨mid, rfl, hrest⟩ | ⟨mid, hdone, hrest⟩
        · exact blocked_of_again hbefore hidleRun hgate hwork hagain hsame hrest hx hy
        · cases mid with
          | nil =>
            rw [List.append_nil] at hdone
            subst hdone
            rw [← List.append_nil done] at hx hy
            have heq' : t :: us = [] ++ u :: post := hrest.symm
            exact blocked_of_again hbefore hidleRun hgate hwork hagain hsame heq' hx hy
          | cons u' mid =>
            obtain ⟨rfl, -⟩ := List.cons.inj hrest
            exact blocked_of_idle h hbefore hle hheeds hidle hgate hdone hx hy
    | true =>
      refine iff_of_false (fun hrecovers => ?_) nofun
      rcases turn_torn hm hwork hends with ⟨hkeep, hnamed, hraises⟩ | htorn
      · -- The message raises when it comes again.
        obtain ⟨xs, x, hrun', -⟩ := hrecovers.run hclock hgs hstopped hnamed
        rw [htasks] at hrun'
        obtain ⟨n, a, b, hdone, hleft, -⟩ := hrun'.split
        obtain ⟨-, rfl⟩ := hdone.functional
          (Worker.Run.idle fun u hu => work_of_over (hkeep u (hover u hu)))
        cases hleft with
        | cons hwork' _ =>
          rw [hraises] at hwork'
          cases hwork'
      · -- The session stays torn.
        obtain ⟨xs, x, hrun', hsettled⟩ := hrecovers.run hclock hgs hstopped htorn.named
        have hstays : Torn x :=
          hrun'.preserves (I := Torn) (fun _ _ _ hs hwork => Torn.turn hs hwork) htorn
        exact hstays.not_settled hsettled

/-- A mailbox without notices is fresh. -/
theorem allFresh_of_no_notice {fetched : List Value} (h : Named s) (stop : ℕ)
    (hnotice : ∀ it ∈ fetched.filterMap item?, isKeyRotationNotice it.envelope = false) :
    AllFresh L s fetched now stop := by
  have hturns : ∀ (ts past : List Item) (s : Store κ ε) (k : ℕ), Named s →
      (∀ it ∈ ts, isKeyRotationNotice it.envelope = false) →
      (worker L now).Heeds (Fresh L now) past s ts k := by
    intro ts
    induction ts with
    | nil => exact fun _ _ _ _ _ => trivial
    | cons t ts ih =>
      intro past s k hs hts ws hwork _
      refine ⟨fun peer newPub newKeyId hmem => ?_,
        ih _ _ _ (hs.turn hwork) fun u hu => hts u (List.mem_cons_of_mem _ hu)⟩
      rw [writes_of_work hwork] at hmem
      obtain ⟨-, rfl⟩ | ⟨-, heffect⟩ := work_cases hs hwork
      · cases hmem
      · rcases heffect.plain_or_followed with hplain | ⟨-, -, -, -, -, hyes, -⟩
        · exact (hplain _ hmem).elim
        · rw [hts t List.mem_cons_self] at hyes
          cases hyes
  intro gs hgs
  refine hturns _ _ _ _ h fun u hu => hnotice u ?_
  obtain ⟨g, hg, hmem⟩ := List.mem_flatMap.mp hu
  exact mem_of_groups hgs hg (mem_taken hmem)

instance (L : Library κ ε) : ∀ s a, Decidable (Careful L s a)
  | s, .poll fetched now stop =>
    inferInstanceAs (Decidable ((pollAndIngest L s fetched now).writes[stop]?.any Write.ends = false))
  | _, .upsertPeer _ _ => .isTrue trivial
  | _, .openSession _ _ _ => .isTrue trivial
  | _, .endSession _ _ => .isTrue trivial

/-- The library of plain texts, with a session key. -/
def keyed : Library ℕ Unit := { plain with deriveSessionKey := fun _ _ _ _ _ => some 0 }

/-- A first leg of the peer. -/
def handshake : Value :=
  signed .null (.str (pts "soon")) [("session_id", .str (pts "s")),
    ("session_open", .obj [(pts "ephemeral_pub", .str (pts "00")), (pts "bootstrap_nonce", .str (pts "00"))])]

/-- A peer is paired. -/
def introduced : List (Step Unit) := [.upsertPeer (pts "kid_peer") ⟨[], none, .paired, none⟩]

/-- A peer is paired, and opens a session. -/
def opened : List (Step Unit) := introduced ++ [.poll [handshake] 0 9]

/-- Two messages of the session. -/
def messages : List Value :=
  [message (.int 1) (.str (pts "soon")) hello, message (.int 2) (.str (pts "soon")) hello]

theorem recovers_iff_messages :
    ∃ s, (machine keyed).Reach (Careful keyed) s ∧ Recovers keyed s messages 0 0 2 := by
  obtain ⟨s, hs, hp⟩ := Machine.exists_reach_of_runWithin
    (M := machine keyed) (D := Careful keyed) (fun _ _ h => h) rfl opened
    (fun s => !(pollAndIngest keyed s messages 0).raised &&
      !(pollAndIngest keyed s messages 0).writes[2]?.any Write.ends) (by decide +kernel)
  simp only [Bool.and_eq_true, Bool.not_eq_true'] at hp
  have hfresh : AllFresh keyed s messages 0 2 :=
    allFresh_of_no_notice (settled_of_reach hs).named 2 (by decide +kernel)
  exact ⟨s, hs, (recovers_iff keyed hs messages 0 0 2 hp.1 (fun _ _ => rfl) hfresh).mpr hp.2⟩

/-- A poll that stops between a message and the high-water mark is followed by one that raises, and
one that stops between a session key and the row of the session leaves the session without a row. -/
theorem not_recovers :
    (∃ s, (machine keyed).Reach (Careful keyed) s ∧ ¬ Recovers keyed s messages 0 0 1) ∧
      ∃ s, (machine keyed).Reach (Careful keyed) s ∧ ¬ Recovers keyed s [handshake] 0 0 1 := by
  constructor
  · obtain ⟨s, hs, hp⟩ := Machine.exists_reach_of_runWithin
      (M := machine keyed) (D := Careful keyed) (fun _ _ h => h) rfl opened
      (fun s => (pollAndIngest keyed (s.commit ((pollAndIngest keyed s messages 0).writes.take 1))
        messages 0).raised) (by decide +kernel)
    refine ⟨s, hs, fun h => ?_⟩
    rw [h.returns] at hp
    cases hp
  · obtain ⟨s, hs, hp⟩ := Machine.exists_reach_of_runWithin
      (M := machine keyed) (D := Careful keyed) (fun _ _ h => h) rfl introduced
      (fun s =>
        let again := pollAndIngest keyed
          (s.commit ((pollAndIngest keyed s [handshake] 0).writes.take 1)) [handshake] 0
        (again.store.keys.get? (pts "kid_peer", pts "s")).isSome &&
          (again.store.sessions.get? (pts "kid_peer", pts "s")).isNone) (by decide +kernel)
    simp only [Bool.and_eq_true] at hp
    refine ⟨s, hs, fun h => ?_⟩
    have hrow := (h.settled.sessions _ _).mp hp.1
    rw [Option.isNone_iff_eq_none.mp hp.2] at hrow
    cases hrow

end Companion.Kindled.Poll
