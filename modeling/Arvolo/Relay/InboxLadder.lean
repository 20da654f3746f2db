import Arvolo.Lib.Machine
import Arvolo.Relay.Inbox

/-!
What a poster is told of an offer goes up a ladder: pending, arrived, taken, gone.

An id is drawn once and put down once, so a row that is gone stays gone; until then a
step can only add a stamp to it. `Touch` says what a step does to a row and by whose
credential, `Ahead` what a run does to it.
-/

namespace Arvolo.Relay

open Lib
open Sync (trim)

/-- How far up the ladder an answer is. -/
def InboxStatus.rung : InboxStatus → Option ℕ
  | .badToken => none
  | .pending => some 0
  | .arrived => some 1
  | .taken => some 2
  | .gone => some 3

/-- Both answers are on the ladder, and the second is no lower. -/
def InboxStatus.Forward (a b : InboxStatus) : Prop := ∃ i ∈ a.rung, ∃ j ∈ b.rung, i ≤ j

namespace Inbox

variable {p : InboxPrims} {cap : ℕ} {s : Inbox} {e : InboxEvent} {k : OfferKey} {id : String}

/-! ### What a step does to an offer -/

inductive Touch (p : InboxPrims) (s : Inbox) (e : InboxEvent) (k : OfferKey) :
    Option InboxRow → Option InboxRow → Prop
  | kept (row : Option InboxRow) : Touch p s e k row row
  | put (old : Option InboxRow) {i now : ℕ} {draw : String} {exp : ℕ} {hash body : InboxBytes}
      (new : InboxRow) (he : e = .turn i now draw)
      (hjob : s.jobs[i]? = some (.put k.1 k.2 exp hash body)) : Touch p s e k old (some new)
  | arrived (row : InboxRow) {i now : ℕ} {draw : String} {items : List (String × InboxBytes)}
      {came : ℕ} {auth : String} (he : e = .turn i now draw)
      (hjob : s.jobs[i]? = some (.mark k.1 items came auth)) :
      Touch p s e k (some row) (some (arrive now row))
  | taken (row : InboxRow) {i now : ℕ} {draw : String} {came : ℕ} {auth : String}
      (he : e = .turn i now draw) (hjob : s.jobs[i]? = some (.take k.1 k.2 came auth)) :
      Touch p s e k (some row) (some (take now row))
  | reaped (row : InboxRow) {now : ℕ} (he : e = .reap now) (hexp : row.expiresAt ≤ asI64 now) :
      Touch p s e k (some row) none
  | retracted (row : InboxRow) {now : ℕ} {token : String} {auth : Option String}
      (he : e = .request (.delete k.1 k.2 (some token) auth) now)
      (hhash : row.posterHash = some (p.blake3 (asBytes (trim token)))) :
      Touch p s e k (some row) none

/-- A handler's first part touches the rows only where a poster takes an offer back. -/
theorem receive_fst (p : InboxPrims) (cap : ℕ) (s : Inbox) (now : ℕ) (r : InboxRequest) :
    (s.receive p cap now r).1 = s ∨ ∃ slot id token auth,
      r = .delete slot id (some token) auth ∧
        s.inboxDeleteByPoster p slot id (trim token) = some (s.receive p cap now r).1 := by
  cases r with
  | post slot ttl posterHash body =>
      left
      simp only [receive]
      split_ifs <;> rfl
  | get slot wait have_ auth =>
      left
      simp only [receive]
      split_ifs <;> rfl
  | status slot id wait since posterToken =>
      left
      cases posterToken <;> rfl
  | delete slot id posterToken auth =>
      simp only [receive]
      cases hdel : posterToken.bind fun t => s.inboxDeleteByPoster p slot id (trim t) with
      | none =>
          left
          split_ifs <;> rfl
      | some s' =>
          right
          obtain ⟨token, rfl, htoken⟩ := Option.bind_eq_some_iff.1 hdel
          exact ⟨slot, id, token, auth, rfl, htoken⟩

theorem touch_request (now : ℕ) (r : InboxRequest) :
    Touch p s (.request r now) k (s.rows.lookup k)
      ((s.step p cap (.request r now)).rows.lookup k) := by
  change Touch p s _ k _ (((s.receive p cap now r).1.addJob _).rows.lookup k)
  rw [addJob_rows]
  rcases receive_fst p cap s now r with hsame | ⟨slot, id, token, auth, rfl, hdel⟩
  · rw [hsame]
    exact .kept _
  · obtain ⟨⟨row, hrow, hhash⟩, hnew⟩ := inboxDeleteByPoster_eq_some p hdel
    rw [hnew, Table.lookup_erase_eq]
    split_ifs with hk
    · subst hk
      rw [hrow]
      exact .retracted row rfl hhash
    · exact .kept _

theorem touch_finish {i now : ℕ} {draw : String} {job : InboxJob} (hjob : s.jobs[i]? = some job) :
    Touch p s (.turn i now draw) k (s.rows.lookup k)
      ((s.finish p now draw job).1.rows.lookup k) := by
  cases job with
  | enrol slot exp came hash body =>
      simp only [finish]
      split_ifs <;> exact .kept _
  | put slot id exp hash body =>
      simp only [finish, lookup_inboxPut]
      split_ifs with hk hempty
      · subst hk
        exact .put _ _ rfl hjob
      · subst hk
        exact .put _ _ rfl hjob
      · exact .kept _
  | poll slot have_ deadline came auth =>
      simp only [finish]
      split_ifs <;> exact .kept _
  | mark slot items came auth =>
      simp only [finish, lookup_inboxMarkArrived]
      cases hrow : s.rows.lookup k with
      | none => exact .kept _
      | some row =>
          rw [Option.map_some]
          split_ifs with hk
          · obtain ⟨rfl, -⟩ := hk
            exact .arrived row rfl hjob
          · exact .kept _
  | take slot id came auth =>
      simp only [finish, lookup_inboxMarkTaken]
      cases hrow : s.rows.lookup k with
      | none => exact .kept _
      | some row =>
          rw [Option.map_some]
          split_ifs with hk
          · subst hk
            exact .taken row rfl hjob
          · exact .kept _
  | status slot id token since deadline =>
      simp only [finish]
      split
      · exact .kept _
      · exact .kept _
      · split_ifs <;> exact .kept _

theorem touch_step : Touch p s e k (s.rows.lookup k) ((s.step p cap e).rows.lookup k) := by
  cases e with
  | request r now => exact touch_request now r
  | turn i now draw =>
      cases hjob : s.jobs[i]? with
      | none =>
          simp only [step, hjob]
          exact .kept _
      | some job =>
          simp only [step, hjob, setJob_rows]
          exact touch_finish hjob
  | reap now =>
      change Touch p s _ k _ ((s.inboxReap now).rows.lookup k)
      rw [lookup_inboxReap]
      cases hrow : s.rows.lookup k with
      | none => exact .kept _
      | some row =>
          by_cases hexp : row.expiresAt ≤ asI64 now
          · rw [Option.filter, if_neg (by simpa using hexp)]
            exact .reaped row rfl hexp
          · rw [Option.filter, if_pos (by simpa using hexp)]
            exact .kept _
  | restart secret => exact .kept _

/-! ### Ids -/

/-- The id a job is about to put down. -/
def putId : InboxJob → Option String
  | .put _ id .. => some id
  | _ => none

def pendingIds (s : Inbox) : List String := s.jobs.filterMap putId

/-- The id a handler is about to put down. -/
def nextId (n : Next) : Option String := n.getRight?.bind putId

/-- The ids that are drawn and not yet put down are of no row and of one job each. -/
structure Sound (s : Inbox) : Prop where
  nodup : s.pendingIds.Nodup
  drawn : ∀ id ∈ s.pendingIds, id ∈ s.drawn
  free : ∀ id ∈ s.pendingIds, ∀ slot, s.rows.lookup (slot, id) = none
  rows : ∀ k row, s.rows.lookup k = some row → k.2 ∈ s.drawn

/-- The id has been put down. -/
def Posted (s : Inbox) (id : String) : Prop := id ∈ s.drawn ∧ id ∉ s.pendingIds

theorem filterMap_getRight? (n : Next) : n.getRight?.toList.filterMap putId = (nextId n).toList := by
  cases n with
  | inl a => rfl
  | inr job => cases hid : putId job <;> simp [nextId, hid]

theorem pendingIds_addJob (n : Next) :
    (s.addJob n).pendingIds = s.pendingIds ++ (nextId n).toList := by
  rw [pendingIds, addJob_jobs, List.filterMap_append, filterMap_getRight?]
  rfl

theorem pendingIds_setJob {i : ℕ} {job : InboxJob} (h : s.jobs[i]? = some job) :
    ∃ rest, s.pendingIds.Perm ((putId job).toList ++ rest) ∧
      ∀ (t : Inbox) (n : Next), t.jobs = s.jobs →
        (t.setJob i n).pendingIds.Perm ((nextId n).toList ++ rest) := by
  obtain ⟨front, back, hjobs, hset⟩ := setJob_jobs h
  refine ⟨front.filterMap putId ++ back.filterMap putId, ?_, fun t n ht => ?_⟩
  · rw [pendingIds, hjobs, List.filterMap_append]
    have hjob : (job :: back).filterMap putId = (putId job).toList ++ back.filterMap putId := by
      cases hid : putId job <;> simp [hid]
    rw [hjob]
    exact (List.perm_append_comm_assoc _ _ _)
  · rw [pendingIds, hset t n ht, List.filterMap_append, List.filterMap_append,
      filterMap_getRight?, List.append_assoc]
    exact List.perm_append_comm_assoc _ _ _

theorem nextId_receive (now : ℕ) (r : InboxRequest) : nextId (s.receive p cap now r).2 = none := by
  cases r with
  | post slot ttl posterHash body =>
      simp only [receive]
      split_ifs <;> rfl
  | get slot wait have_ auth =>
      simp only [receive]
      split_ifs <;> rfl
  | delete slot id posterToken auth =>
      simp only [receive]
      split
      · rfl
      · split_ifs <;> rfl
  | status slot id wait since posterToken => cases posterToken <;> rfl

theorem receive_keeps (now : ℕ) (r : InboxRequest) :
    (s.receive p cap now r).1.jobs = s.jobs ∧ (s.receive p cap now r).1.drawn = s.drawn ∧
      (s.receive p cap now r).1.secret = s.secret := by
  rcases receive_fst p cap s now r with hsame | ⟨slot, id, token, auth, -, hdel⟩
  · rw [hsame]
    exact ⟨rfl, rfl, rfl⟩
  · rw [(inboxDeleteByPoster_eq_some p hdel).2]
    exact ⟨rfl, rfl, rfl⟩

/-- What a job's turn does to the ids: one is drawn, or one is put down, or nothing. -/
inductive Ids (s : Inbox) (job : InboxJob) : Inbox × Next → Prop
  | draw {t : Inbox} {n : Next} {id : String} (hjob : putId job = none) (hn : nextId n = some id)
      (hnew : id ∉ s.drawn) (hdrawn : t.drawn = id :: s.drawn) : Ids s job (t, n)
  | quiet {t : Inbox} {n : Next} (hn : nextId n = none) (hdrawn : t.drawn = s.drawn) :
      Ids s job (t, n)

theorem ids_finish (now : ℕ) (draw : String) (job : InboxJob) :
    Ids s job (s.finish p now draw job) := by
  cases job with
  | enrol slot exp came hash body =>
      simp only [finish]
      split_ifs with hfull hdrawn
      · exact .quiet rfl rfl
      · exact .quiet rfl rfl
      · exact .draw rfl rfl hdrawn rfl
  | put slot id exp hash body => exact .quiet rfl rfl
  | poll slot have_ deadline came auth =>
      simp only [finish]
      split_ifs <;> exact .quiet rfl rfl
  | mark slot items came auth => exact .quiet rfl rfl
  | take slot id came auth => exact .quiet rfl rfl
  | status slot id token since deadline =>
      simp only [finish]
      split
      · exact .quiet rfl rfl
      · exact .quiet rfl rfl
      · split_ifs <;> exact .quiet rfl rfl

theorem finish_keeps (now : ℕ) (draw : String) (job : InboxJob) :
    (s.finish p now draw job).1.jobs = s.jobs ∧ (s.finish p now draw job).1.secret = s.secret := by
  cases job with
  | enrol slot exp came hash body =>
      simp only [finish]
      split_ifs <;> exact ⟨rfl, rfl⟩
  | put slot id exp hash body => exact ⟨rfl, rfl⟩
  | poll slot have_ deadline came auth =>
      simp only [finish]
      split_ifs <;> exact ⟨rfl, rfl⟩
  | mark slot items came auth => exact ⟨rfl, rfl⟩
  | take slot id came auth => exact ⟨rfl, rfl⟩
  | status slot id token since deadline =>
      simp only [finish]
      split
      · exact ⟨rfl, rfl⟩
      · exact ⟨rfl, rfl⟩
      · split_ifs <;> exact ⟨rfl, rfl⟩

/-- A row is there after a step because it was before, or because this turn puts it down. -/
theorem row_step {row : InboxRow} (h : (s.step p cap e).rows.lookup k = some row) :
    (∃ old, s.rows.lookup k = some old) ∨ ∃ i now draw exp hash body,
      e = .turn i now draw ∧ s.jobs[i]? = some (.put k.1 k.2 exp hash body) := by
  have htouch : Touch p s e k (s.rows.lookup k) (some row) := h ▸ touch_step
  cases hold : s.rows.lookup k with
  | some old => exact .inl ⟨old, rfl⟩
  | none =>
      rw [hold] at htouch
      cases htouch with
      | put _ _ he hjob => exact .inr ⟨_, _, _, _, _, _, he, hjob⟩

/-- A row is there after a step if it was there before or its id was about to be put down. -/
theorem row_before {row : InboxRow} (h : (s.step p cap e).rows.lookup k = some row) :
    (∃ old, s.rows.lookup k = some old) ∨ k.2 ∈ s.pendingIds := by
  rcases row_step h with hold | ⟨_, _, _, _, _, _, -, hjob⟩
  · exact .inl hold
  · exact .inr (List.mem_filterMap.2 ⟨_, List.mem_of_getElem? hjob, rfl⟩)

/-- A step draws new ids only, and puts down none but those that wait for it. -/
theorem drawn_step (p : InboxPrims) (cap : ℕ) (s : Inbox) (e : InboxEvent) :
    (s.step p cap e).drawn = s.drawn ∨
      ∃ id ∉ s.drawn, (s.step p cap e).drawn = id :: s.drawn := by
  cases e with
  | request r now =>
      left
      change ((s.receive p cap now r).1.addJob _).drawn = _
      rw [addJob_drawn, (receive_keeps now r).2.1]
  | turn i now draw =>
      simp only [step]
      cases hjob : s.jobs[i]? with
      | none => exact .inl rfl
      | some job =>
          have hids := ids_finish (p := p) (s := s) now draw job
          simp only [setJob_drawn]
          rcases hfin : s.finish p now draw job with ⟨t, n⟩
          rw [hfin] at hids
          cases hids with
          | draw hj hn hnew hdrawn => exact .inr ⟨_, hnew, hdrawn⟩
          | quiet hn hdrawn => exact .inl hdrawn
  | reap now => exact .inl rfl
  | restart secret => exact .inl rfl

/-- The ids that wait after a step waited before, or are new. -/
theorem pendingIds_step :
    (s.pendingIds.Nodup → (∀ id ∈ s.pendingIds, id ∈ s.drawn) →
        (s.step p cap e).pendingIds.Nodup) ∧
      ∀ id ∈ (s.step p cap e).pendingIds,
        id ∈ s.pendingIds ∨ (id ∉ s.drawn ∧ (s.step p cap e).drawn = id :: s.drawn) := by
  cases e with
  | request r now =>
      have hpend : (s.step p cap (.request r now)).pendingIds = s.pendingIds := by
        change ((s.receive p cap now r).1.addJob _).pendingIds = _
        rw [pendingIds_addJob, nextId_receive, pendingIds, (receive_keeps now r).1]
        exact List.append_nil _
      rw [hpend]
      exact ⟨fun hn _ => hn, fun id hid => .inl hid⟩
  | turn i now draw =>
      simp only [step]
      cases hjob : s.jobs[i]? with
      | none => exact ⟨fun hn _ => hn, fun id hid => .inl hid⟩
      | some job =>
          obtain ⟨rest, hbefore, hafter⟩ := pendingIds_setJob hjob
          have hids := ids_finish (p := p) (s := s) now draw job
          have hkeep := (finish_keeps (p := p) (s := s) now draw job).1
          simp only [setJob_drawn]
          rcases hfin : s.finish p now draw job with ⟨t, n⟩
          rw [hfin] at hids hkeep
          have hperm := hafter t n hkeep
          cases hids with
          | @draw _ _ id hj hn hnew hdrawn =>
              rw [hj, Option.toList_none, List.nil_append] at hbefore
              rw [hn, Option.toList_some, List.singleton_append] at hperm
              refine ⟨fun hnodup hall => ?_, fun id' hid' => ?_⟩
              · refine hperm.nodup_iff.2 (List.nodup_cons.2 ⟨fun hmem => ?_, ?_⟩)
                · exact hnew (hall id (hbefore.mem_iff.2 hmem))
                · exact hbefore.nodup_iff.1 hnodup
              · rcases List.mem_cons.1 (hperm.mem_iff.1 hid') with rfl | hrest
                · exact .inr ⟨hnew, hdrawn⟩
                · exact .inl (hbefore.mem_iff.2 hrest)
          | quiet hn hdrawn =>
              rw [hn, Option.toList_none, List.nil_append] at hperm
              refine ⟨fun hnodup _ => ?_, fun id' hid' => ?_⟩
              · exact hperm.nodup_iff.2 (List.nodup_append.1 (hbefore.nodup_iff.1 hnodup)).2.1
              · exact .inl (hbefore.mem_iff.2 (List.mem_append_right _ (hperm.mem_iff.1 hid')))
  | reap now => exact ⟨fun hn _ => hn, fun id hid => .inl hid⟩
  | restart secret => exact ⟨fun _ _ => List.nodup_nil, fun id hid => absurd hid List.not_mem_nil⟩

theorem mem_drawn_step (h : id ∈ s.drawn) : id ∈ (s.step p cap e).drawn := by
  rcases drawn_step p cap s e with hsame | ⟨new, -, hnew⟩
  · exact hsame ▸ h
  · exact hnew ▸ List.mem_cons_of_mem _ h

theorem Posted.step (h : s.Posted id) (p : InboxPrims) (cap : ℕ) (e : InboxEvent) :
    (s.step p cap e).Posted id := by
  refine ⟨mem_drawn_step h.1, fun hmem => ?_⟩
  rcases pendingIds_step.2 id hmem with hold | ⟨hnew, -⟩
  · exact h.2 hold
  · exact hnew h.1

theorem notMem_pendingIds_of_put {i now : ℕ} {draw slot : String} {exp : ℕ}
    {hash body : InboxBytes} (hjob : s.jobs[i]? = some (.put slot id exp hash body))
    (hnodup : s.pendingIds.Nodup) : id ∉ (s.step p cap (.turn i now draw)).pendingIds := by
  obtain ⟨rest, hbefore, hafter⟩ := pendingIds_setJob hjob
  have hnext := hafter (s.inboxPut slot id body exp hash) (.inl (.posted id)) rfl
  have hid : id ∉ rest := (List.nodup_cons.1 (hbefore.nodup_iff.1 hnodup)).1
  simp only [step, hjob]
  exact fun hmem => hid (hnext.mem_iff.1 hmem)

theorem sound_empty (secret : InboxBytes) : (empty secret).Sound where
  nodup := List.nodup_nil
  drawn _ hid := absurd hid List.not_mem_nil
  free _ hid := absurd hid List.not_mem_nil
  rows k row h := by
    rw [empty, AList.lookup_empty] at h
    cases h

theorem Sound.step (h : s.Sound) : (s.step p cap e).Sound where
  nodup := pendingIds_step.1 h.nodup h.drawn
  drawn id hid := by
    rcases pendingIds_step.2 id hid with hold | ⟨-, hnew⟩
    · exact mem_drawn_step (h.drawn id hold)
    · exact hnew ▸ List.mem_cons_self
  free id hid slot := by
    rw [Option.eq_none_iff_forall_ne_some]
    intro row hrow
    have htouch : Touch p s e (slot, id) (s.rows.lookup (slot, id)) (some row) := hrow ▸ touch_step
    cases hold : s.rows.lookup (slot, id) with
    | some old =>
        have hdrawn := h.rows _ _ hold
        rcases pendingIds_step.2 id hid with hpend | ⟨hnew, -⟩
        · rw [h.free id hpend slot] at hold
          cases hold
        · exact hnew hdrawn
    | none =>
        rw [hold] at htouch
        cases htouch with
        | put _ _ he hjob =>
            subst he
            exact notMem_pendingIds_of_put hjob h.nodup hid
  rows k row hrow := by
    rcases row_before hrow with ⟨old, hold⟩ | hpend
    · exact mem_drawn_step (h.rows k old hold)
    · exact mem_drawn_step (h.drawn _ hpend)

theorem Sound.posted (h : s.Sound) {row : InboxRow} (hrow : s.rows.lookup k = some row) :
    s.Posted k.2 := by
  refine ⟨h.rows k row hrow, fun hmem => ?_⟩
  have hnone := h.free k.2 hmem k.1
  rw [hrow] at hnone
  cases hnone

theorem Sound.run (h : s.Sound) (es : List InboxEvent) : (s.run p cap es).Sound :=
  foldl_inv Sound (fun _ _ hs => hs.step) h es

/-- An id is of one slot. -/
def Single (s : Inbox) : Prop := ∀ id slot slot' row row', s.rows.lookup (slot, id) = some row →
  s.rows.lookup (slot', id) = some row' → slot' = slot

theorem Single.step (h : s.Single) (hs : s.Sound) : (s.step p cap e).Single := by
  -- an id about to be put down is of no row yet
  have hnew : ∀ {i : ℕ} {id slot slot' : String} {exp : ℕ} {hash body : InboxBytes}
      {old : InboxRow}, s.jobs[i]? = some (.put slot' id exp hash body) →
      s.rows.lookup (slot, id) = some old → False := by
    intro i id slot slot' exp hash body old hjob hold
    have hpend : id ∈ s.pendingIds := List.mem_filterMap.2 ⟨_, List.mem_of_getElem? hjob, rfl⟩
    rw [hs.free id hpend slot] at hold
    cases hold
  intro id slot slot' row row' hrow hrow'
  rcases row_step hrow with ⟨old, hold⟩ | ⟨i, now, draw, exp, hash, body, rfl, hjob⟩
  · rcases row_step hrow' with ⟨old', hold'⟩ | ⟨i, now, draw, exp, hash, body, rfl, hjob⟩
    · exact h id slot slot' old old' hold hold'
    · exact (hnew hjob hold).elim
  · rcases row_step hrow' with ⟨old', hold'⟩ | ⟨_, _, _, _, _, _, heq, hjob'⟩
    · exact (hnew hjob hold').elim
    · cases heq
      cases hjob.symm.trans hjob'
      rfl

theorem single_run (hs : s.Sound) (h : s.Single) (es : List InboxEvent) :
    (s.run p cap es).Single :=
  (foldl_inv (fun s => Sound s ∧ Single s) (fun _ _ hs => ⟨hs.1.step, hs.2.step hs.1⟩)
    ⟨hs, h⟩ es).2

/-! ### What a run does to an offer -/

/-- A row may go for good; while it is there it keeps its poster and its stamps. -/
inductive Ahead : Option InboxRow → Option InboxRow → Prop
  | gone (row : Option InboxRow) : Ahead row none
  | on {row row' : InboxRow} (hash : row'.posterHash = row.posterHash)
      (fetched : row.fetchedAt.isSome → row'.fetchedAt.isSome)
      (taken : row.takenAt.isSome → row'.takenAt.isSome) : Ahead (some row) (some row')

theorem Ahead.refl (row : Option InboxRow) : Ahead row row := by
  cases row with
  | none => exact .gone none
  | some row => exact .on rfl id id

theorem Ahead.trans {a b c : Option InboxRow} (hab : Ahead a b) (hbc : Ahead b c) : Ahead a c := by
  cases hbc with
  | gone => exact .gone a
  | on hash fetched taken =>
      cases hab with
      | on hash' fetched' taken' =>
          exact .on (hash.trans hash') (fetched ∘ fetched') (taken ∘ taken')

theorem Ahead.arrive (row : InboxRow) (now : ℕ) : Ahead (some row) (some (arrive now row)) := by
  unfold Inbox.arrive
  split_ifs with hnone
  · exact .on rfl (fun _ => rfl) id
  · exact .refl _

theorem Ahead.take (row : InboxRow) (now : ℕ) : Ahead (some row) (some (take now row)) := by
  unfold Inbox.take
  split_ifs with hnone
  · exact .on rfl id (fun _ => rfl)
  · exact .refl _

theorem Posted.ahead_step (h : s.Posted k.2) :
    Ahead (s.rows.lookup k) ((s.step p cap e).rows.lookup k) := by
  have htouch : Touch p s e k (s.rows.lookup k) ((s.step p cap e).rows.lookup k) := touch_step
  generalize s.rows.lookup k = before at htouch ⊢
  generalize (s.step p cap e).rows.lookup k = after at htouch ⊢
  cases htouch with
  | kept => exact .refl _
  | put _ _ he hjob =>
      have hmem : k.2 ∈ s.pendingIds := List.mem_filterMap.2 ⟨_, List.mem_of_getElem? hjob, rfl⟩
      exact absurd hmem h.2
  | arrived row => exact .arrive row _
  | taken row => exact .take row _
  | reaped row => exact .gone _
  | retracted row => exact .gone _

theorem Posted.ahead_run (h : s.Posted k.2) (p : InboxPrims) (cap : ℕ) (es : List InboxEvent) :
    (s.run p cap es).Posted k.2 ∧ Ahead (s.rows.lookup k) ((s.run p cap es).rows.lookup k) := by
  induction es generalizing s with
  | nil => exact ⟨h, .refl _⟩
  | cons e es ih =>
      obtain ⟨hposted, hahead⟩ := ih (h.step p cap e)
      exact ⟨hposted, h.ahead_step.trans hahead⟩

/-- A row that is there holds its id in its slot from then on. -/
theorem lookup_run_of_ne (hs : s.Sound) (h : s.Single) {slot slot' : String} {row : InboxRow}
    (hrow : s.rows.lookup (slot, id) = some row) (hne : slot' ≠ slot) (es : List InboxEvent) :
    (s.run p cap es).rows.lookup (slot', id) = none := by
  have hold : s.rows.lookup (slot', id) = none := by
    rw [Option.eq_none_iff_forall_ne_some]
    exact fun row' hrow' => hne (h id slot slot' row row' hrow hrow')
  have hposted : s.Posted id := hs.posted hrow
  have hahead := (Posted.ahead_run (k := (slot', id)) hposted p cap es).2
  rw [hold] at hahead
  generalize (s.run p cap es).rows.lookup (slot', id) = after at hahead ⊢
  cases hahead
  rfl

/-! ### Credentials -/

/-- The session a job was let in with: its slot, when it came, and its header. -/
def session : InboxJob → Option (String × ℕ × String)
  | .poll slot _ _ came auth => some (slot, came, auth)
  | .mark slot _ came auth => some (slot, came, auth)
  | .take slot _ came auth => some (slot, came, auth)
  | _ => none

/-- The jobs of readers were let in by their session. -/
def Admitted (p : InboxPrims) (s : Inbox) : Prop :=
  ∀ job ∈ s.jobs, ∀ slot came auth, session job = some (slot, came, auth) →
    inboxAuthorized p (some auth) slot s.secret came = true

theorem eq_getD_of_authorized {auth : Option String} {slot : String} {secret : InboxBytes} {now : ℕ}
    (h : inboxAuthorized p auth slot secret now = true) : some (auth.getD "") = auth := by
  cases auth with
  | none => cases h
  | some auth => rfl

theorem session_receive {now : ℕ} {r : InboxRequest} {job : InboxJob}
    (h : (s.receive p cap now r).2 = .inr job) {slot auth : String} {came : ℕ}
    (hjob : session job = some (slot, came, auth)) :
    inboxAuthorized p (some auth) slot s.secret came = true := by
  cases r with
  | post slot ttl posterHash body =>
      simp only [receive] at h
      split_ifs at h
      cases h
      cases hjob
  | get slot wait have_ auth =>
      simp only [receive] at h
      by_cases hauth : inboxAuthorized p auth slot s.secret now = true
      · rw [if_pos hauth] at h
        cases h
        cases hjob
        rw [eq_getD_of_authorized hauth]
        exact hauth
      · rw [if_neg hauth] at h
        cases h
  | delete slot id posterToken auth =>
      simp only [receive] at h
      split at h
      · cases h
      · split_ifs at h with hauth
        cases h
        cases hjob
        rw [eq_getD_of_authorized hauth]
        exact hauth
  | status slot id wait since posterToken =>
      cases posterToken with
      | none => cases h
      | some token =>
          cases h
          cases hjob

/-- A job goes on under the session it has. -/
theorem session_finish {now : ℕ} {draw : String} {job job' : InboxJob}
    (h : (s.finish p now draw job).2 = .inr job') {x : String × ℕ × String}
    (hjob : session job' = some x) : session job = some x := by
  cases job with
  | enrol slot exp came hash body =>
      simp only [finish] at h
      split_ifs at h
      · cases h
        cases hjob
      · cases h
        cases hjob
  | put slot id exp hash body => cases h
  | poll slot have_ deadline came auth =>
      simp only [finish] at h
      split_ifs at h
      · cases h
        exact hjob
      · cases h
        exact hjob
  | mark slot items came auth => cases h
  | take slot id came auth => cases h
  | status slot id token since deadline =>
      simp only [finish] at h
      split at h
      · cases h
      · cases h
      · split_ifs at h
        cases h
        cases hjob

theorem Admitted.step (h : s.Admitted p) : (s.step p cap e).Admitted p := by
  cases e with
  | request r now =>
      intro job hjob slot came auth hsession
      simp only [Inbox.step] at hjob ⊢
      rw [addJob_jobs, (receive_keeps now r).1] at hjob
      rw [addJob_secret, (receive_keeps now r).2.2]
      rcases List.mem_append.1 hjob with hold | hnew
      · exact h job hold slot came auth hsession
      · cases hrecv : (s.receive p cap now r).2 with
        | inl a => simp [hrecv] at hnew
        | inr new =>
            obtain rfl : job = new := by simpa [hrecv] using hnew
            exact session_receive hrecv hsession
  | turn i now draw =>
      intro job hjob slot came auth hsession
      simp only [Inbox.step] at hjob ⊢
      cases hi : s.jobs[i]? with
      | none =>
          simp only [hi] at hjob ⊢
          exact h job hjob slot came auth hsession
      | some cur =>
          simp only [hi, setJob_secret] at hjob ⊢
          obtain ⟨hjobs, hsecret⟩ := finish_keeps (p := p) (s := s) now draw cur
          rw [hsecret]
          obtain ⟨front, back, hsplit, hset⟩ := setJob_jobs hi
          rw [hset _ _ hjobs] at hjob
          rcases List.mem_append.1 hjob with hfront | hback
          · rcases List.mem_append.1 hfront with hold | hnew
            · exact h job (hsplit ▸ List.mem_append_left _ hold) slot came auth hsession
            · cases hfin : (s.finish p now draw cur).2 with
              | inl a => simp [hfin] at hnew
              | inr new =>
                  obtain rfl : job = new := by simpa [hfin] using hnew
                  exact h cur (List.mem_of_getElem? hi) slot came auth
                    (session_finish hfin hsession)
          · exact h job (hsplit ▸ List.mem_append_right _ (List.mem_cons_of_mem _ hback))
              slot came auth hsession
  | reap now => exact h
  | restart secret => exact fun job hjob => absurd hjob List.not_mem_nil

theorem Admitted.run (h : s.Admitted p) (es : List InboxEvent) : (s.run p cap es).Admitted p :=
  foldl_inv (Admitted p) (fun _ _ hs => hs.step) h es

end Inbox

/-- The key that `slot` names has signed a challenge for the slot that lasts beyond `came`. -/
def Owned (p : InboxPrims) (Signed : InboxBytes → InboxBytes → Prop) (slot : String) (came : ℕ) :
    Prop :=
  ∃ key nonce exp, p.slotKey slot = some key ∧ came < exp ∧
    Signed key (sessionSigningInput slot nonce exp)

theorem owned_of_authorized {p : InboxPrims} {Signed : InboxBytes → InboxBytes → Prop}
    (hverify : ∀ key msg sig, p.verify key msg sig = true → Signed key msg) {auth : Option String}
    {slot : String} {secret : InboxBytes} {came : ℕ}
    (h : inboxAuthorized p auth slot secret came = true) : Owned p Signed slot came := by
  unfold inboxAuthorized at h
  split at h
  · cases h
  · next t ht =>
      split_ifs at h with hexp hmac
      cases hkey : p.slotKey slot with
      | none => simp [hkey] at h
      | some key =>
          simp only [hkey] at h
          exact ⟨key, t.nonce, t.exp, hkey, not_le.1 hexp, hverify _ _ _ h⟩

namespace Inbox

/-! ### The ladder -/

variable {p : InboxPrims} {s t : Inbox} {slot id token : String} {row : InboxRow}

theorem forward_of_ahead (hrow : s.rows.lookup (slot, id) = some row)
    (hhash : row.posterHash = some (p.blake3 (asBytes token)))
    (h : Ahead (some row) (t.rows.lookup (slot, id))) :
    (s.inboxStatusByPoster p slot id token).Forward (t.inboxStatusByPoster p slot id token) := by
  have hbefore : s.inboxStatusByPoster p slot id token =
      if row.takenAt.isSome then .taken else if row.fetchedAt.isSome then .arrived else .pending := by
    simp [inboxStatusByPoster, hrow, hhash]
  cases hafter : t.rows.lookup (slot, id) with
  | none =>
      have hgone : t.inboxStatusByPoster p slot id token = .gone := by
        simp [inboxStatusByPoster, hafter]
      rw [hbefore, hgone]
      split_ifs
      · exact ⟨2, rfl, 3, rfl, by decide⟩
      · exact ⟨1, rfl, 3, rfl, by decide⟩
      · exact ⟨0, rfl, 3, rfl, by decide⟩
  | some row' =>
      rw [hafter] at h
      cases h with
      | on hash fetched taken =>
          have hlater : t.inboxStatusByPoster p slot id token =
              if row'.takenAt.isSome then .taken
              else if row'.fetchedAt.isSome then .arrived else .pending := by
            simp [inboxStatusByPoster, hafter, hash.trans hhash]
          rw [hbefore, hlater]
          split_ifs with htaken htaken' hfetched' hfetched htaken' hfetched' htaken' hfetched'
          · exact ⟨2, rfl, 2, rfl, le_rfl⟩
          · exact absurd (taken htaken) htaken'
          · exact absurd (taken htaken) htaken'
          · exact ⟨1, rfl, 2, rfl, by decide⟩
          · exact ⟨1, rfl, 1, rfl, le_rfl⟩
          · exact absurd (fetched hfetched) hfetched'
          · exact ⟨0, rfl, 2, rfl, by decide⟩
          · exact ⟨0, rfl, 1, rfl, by decide⟩
          · exact ⟨0, rfl, 0, rfl, le_rfl⟩

theorem forward_gone (hs : s.rows.lookup (slot, id) = none)
    (h : Ahead none (t.rows.lookup (slot, id))) :
    (s.inboxStatusByPoster p slot id token).Forward (t.inboxStatusByPoster p slot id token) := by
  have ht : t.rows.lookup (slot, id) = none := by
    cases hafter : t.rows.lookup (slot, id) with
    | none => rfl
    | some row =>
        rw [hafter] at h
        cases h
  simp only [inboxStatusByPoster, hs, ht]
  exact ⟨3, rfl, 3, rfl, le_rfl⟩

end Inbox

/-- The state a run of the relay from an empty store is in after its first `n` events. -/
def inboxAt (p : InboxPrims) (cap : ℕ) (secret : InboxBytes) (es : List InboxEvent) (n : ℕ) :
    Inbox :=
  (Inbox.empty secret).run p cap (es.take n)

/-- The ladder of the offers of a run. An offer is there from the moment its row is, at
event `k` here. -/
structure Ladder (p : InboxPrims) (Signed : InboxBytes → InboxBytes → Prop) (cap : ℕ)
    (secret : InboxBytes) (es : List InboxEvent) : Prop where
  forward : ∀ {k n m : ℕ} {slot id token : String} {row : InboxRow}, k ≤ n → n ≤ m →
    (inboxAt p cap secret es k).rows.lookup (slot, id) = some row →
    row.posterHash = some (p.blake3 (asBytes token)) →
    ((inboxAt p cap secret es n).inboxStatusByPoster p slot id token).Forward
      ((inboxAt p cap secret es m).inboxStatusByPoster p slot id token)
  unlisted : ∀ {k n m : ℕ} {slot id : String} {row : InboxRow}, k ≤ n → n ≤ m →
    (inboxAt p cap secret es k).rows.lookup (slot, id) = some row →
    (∀ row', (inboxAt p cap secret es n).rows.lookup (slot, id) = some row' →
      row'.takenAt.isSome) →
    ∀ now value, (id, value) ∉ (inboxAt p cap secret es m).inboxList slot now
  owner : ∀ {n : ℕ} {e : InboxEvent} {slot id : String} {row row' : InboxRow}, es[n]? = some e →
    (inboxAt p cap secret es n).rows.lookup (slot, id) = some row →
    (inboxAt p cap secret es (n + 1)).rows.lookup (slot, id) = some row' →
    row'.fetchedAt ≠ row.fetchedAt ∨ row'.takenAt ≠ row.takenAt →
    ∃ i now draw job came auth, e = .turn i now draw ∧
      (inboxAt p cap secret es n).jobs[i]? = some job ∧
      Inbox.session job = some (slot, came, auth) ∧ Owned p Signed slot came
  retract : ∀ {n : ℕ} {e : InboxEvent} {slot id : String} {row : InboxRow}, es[n]? = some e →
    (inboxAt p cap secret es n).rows.lookup (slot, id) = some row →
    (inboxAt p cap secret es (n + 1)).rows.lookup (slot, id) = none →
    (∃ now, e = .reap now ∧ row.expiresAt ≤ asI64 now) ∨
      ∃ now token auth, e = .request (.delete slot id (some token) auth) now ∧
        row.posterHash = some (p.blake3 (asBytes (trim token))) ∧
        ∀ held, row.posterHash = some (p.blake3 held) → asBytes (trim token) = held

section

variable {p : InboxPrims} {cap : ℕ} {secret : InboxBytes} {es : List InboxEvent} {n m : ℕ}

theorem inboxAt_of_le (h : n ≤ m) : inboxAt p cap secret es m =
    (inboxAt p cap secret es n).run p cap ((es.take m).drop n) := by
  have hsplit : es.take m = es.take n ++ (es.take m).drop n := by
    conv_lhs => rw [← List.take_append_drop n (es.take m), List.take_take, Nat.min_eq_left h]
  calc inboxAt p cap secret es m
      = (Inbox.empty secret).run p cap (es.take n ++ (es.take m).drop n) :=
        congrArg ((Inbox.empty secret).run p cap) hsplit
    _ = (inboxAt p cap secret es n).run p cap ((es.take m).drop n) := List.foldl_append

theorem inboxAt_succ {e : InboxEvent} (h : es[n]? = some e) :
    inboxAt p cap secret es (n + 1) = (inboxAt p cap secret es n).step p cap e := by
  rw [inboxAt, List.take_add_one, h, Inbox.run, List.foldl_append]
  rfl

theorem sound_inboxAt (n : ℕ) : (inboxAt p cap secret es n).Sound :=
  (Inbox.sound_empty secret).run _

theorem admitted_inboxAt (n : ℕ) : (inboxAt p cap secret es n).Admitted p :=
  Inbox.Admitted.run (fun _ hjob => absurd hjob List.not_mem_nil) _

theorem ahead_inboxAt {k : ℕ} {o : OfferKey} {row : InboxRow} (hk : k ≤ n) (hm : n ≤ m)
    (hrow : (inboxAt p cap secret es k).rows.lookup o = some row) :
    Inbox.Ahead (some row) ((inboxAt p cap secret es n).rows.lookup o) ∧
      Inbox.Ahead ((inboxAt p cap secret es n).rows.lookup o)
        ((inboxAt p cap secret es m).rows.lookup o) := by
  have hfirst := ((sound_inboxAt k).posted hrow).ahead_run p cap
    ((es.take n).drop k)
  rw [← inboxAt_of_le hk, hrow] at hfirst
  have hsecond := hfirst.1.ahead_run p cap ((es.take m).drop n)
  rw [← inboxAt_of_le hm] at hsecond
  exact ⟨hfirst.2, hsecond.2⟩

/-- Every offer of every run goes up the ladder. -/
theorem ladder (p : InboxPrims) (hblake3 : Function.Injective p.blake3)
    (Signed : InboxBytes → InboxBytes → Prop)
    (hverify : ∀ key msg sig, p.verify key msg sig = true → Signed key msg) (cap : ℕ)
    (secret : InboxBytes) (es : List InboxEvent) : Ladder p Signed cap secret es where
  forward {k n m slot id token row} hk hm hrow hhash := by
    obtain ⟨hkn, hnm⟩ := ahead_inboxAt hk hm hrow
    cases hn : (inboxAt p cap secret es n).rows.lookup (slot, id) with
    | none =>
        rw [hn] at hnm
        exact Inbox.forward_gone hn hnm
    | some row' =>
        rw [hn] at hkn hnm
        cases hkn with
        | on hash => exact Inbox.forward_of_ahead hn (hash.trans hhash) hnm
  unlisted {k n m slot id row} hk hm hrow htaken now value hmem := by
    obtain ⟨-, hnm⟩ := ahead_inboxAt hk hm hrow
    obtain ⟨row', hrow', -, -, hnot⟩ := Inbox.mem_inboxList.1 hmem
    simp only at hrow'
    rw [hrow'] at hnm
    cases hn : (inboxAt p cap secret es n).rows.lookup (slot, id) with
    | none =>
        rw [hn] at hnm
        cases hnm
    | some row'' =>
        rw [hn] at hnm
        cases hnm with
        | on _ _ taken =>
            have hstamp := taken (htaken row'' hn)
            rw [hnot] at hstamp
            cases hstamp
  owner {n e slot id row row'} he hrow hrow' hdiff := by
    rw [inboxAt_succ he] at hrow'
    have htouch : Inbox.Touch p (inboxAt p cap secret es n) e (slot, id) (some row) (some row') :=
      hrow ▸ hrow' ▸ Inbox.touch_step
    have howned : ∀ {i now : ℕ} {draw : String} {job : InboxJob} {came : ℕ} {auth : String},
        e = .turn i now draw → (inboxAt p cap secret es n).jobs[i]? = some job →
        Inbox.session job = some (slot, came, auth) →
        ∃ i now draw job came auth, e = .turn i now draw ∧
          (inboxAt p cap secret es n).jobs[i]? = some job ∧
          Inbox.session job = some (slot, came, auth) ∧ Owned p Signed slot came := by
      intro i now draw job came auth hturn hjob hsession
      have hauth := admitted_inboxAt n job (List.mem_of_getElem? hjob) slot came auth hsession
      exact ⟨i, now, draw, job, came, auth, hturn, hjob, hsession,
        owned_of_authorized hverify hauth⟩
    cases htouch with
    | kept =>
        rcases hdiff with hdiff | hdiff
        · exact absurd rfl hdiff
        · exact absurd rfl hdiff
    | put _ _ _ hjob =>
        have hpend : id ∈ (inboxAt p cap secret es n).pendingIds :=
          List.mem_filterMap.2 ⟨_, List.mem_of_getElem? hjob, rfl⟩
        have hnone := (sound_inboxAt n).free id hpend slot
        rw [hrow] at hnone
        cases hnone
    | arrived _ hturn hjob => exact howned hturn hjob rfl
    | taken _ hturn hjob => exact howned hturn hjob rfl
  retract {n e slot id row} he hrow hnone := by
    rw [inboxAt_succ he] at hnone
    have htouch : Inbox.Touch p (inboxAt p cap secret es n) e (slot, id) (some row) none :=
      hrow ▸ hnone ▸ Inbox.touch_step
    cases htouch with
    | reaped _ hreap hexp => exact .inl ⟨_, hreap, hexp⟩
    | retracted _ hdel hhash =>
        refine .inr ⟨_, _, _, hdel, hhash, fun held hheld => ?_⟩
        exact hblake3 (Option.some.inj (hhash.symm.trans hheld))

end

/-! ### A run -/

/-- A slot that is the text of its own key. -/
def plainSlot : String := String.ofList (List.replicate slotKeyLen 'a')

/-- The session header `x` of that slot, signed by its owner. -/
def plainSession : SessionToken := ⟨[], 1000, [], 7 :: sessionSigningInput plainSlot [] 1000⟩

def plainPrims : InboxPrims where
  blake3 := id
  keyedHash secret _ := secret
  verify key msg sig := decide (key = asBytes plainSlot ∧ sig = 7 :: msg)
  base32 := some
  fromBytes b := if b = asBytes "x" then some plainSession else none
  upper := id

/-- An offer is posted, listed, taken and reaped. -/
def oneOffer : List InboxEvent :=
  [.request (.post plainSlot none (some "t") [1, 2]) 5, .turn 0 6 "id", .turn 0 6 "",
    .request (.get plainSlot 0 none (some "Bearer x")) 7, .turn 0 7 "", .turn 0 8 "",
    .request (.delete plainSlot "id" none (some "Bearer x")) 9, .turn 0 9 "", .reap 700]

theorem ladder_oneOffer :
    Ladder plainPrims (fun key _ => key = asBytes plainSlot) 100000 [] oneOffer ∧
      ([3, 6, 8, 9].map fun n =>
        (inboxAt plainPrims 100000 [] oneOffer n).inboxStatusByPoster plainPrims plainSlot "id" "t")
        = [.pending, .arrived, .taken, .gone] := by
  refine ⟨ladder plainPrims (fun _ _ h => h) _ (fun key msg sig h => ?_) 100000 [] oneOffer,
    by decide +kernel⟩
  exact (of_decide_eq_true h).1

end Arvolo.Relay
