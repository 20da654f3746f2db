import Arvolo.Recv.Resume

/-!
Piece accounting of the receive loop.

A piece that is not committed is waiting in `remaining` or fetched by the tasks
whose providers `pieceSrcs` lists, and not both; as long as the download is not
cancelled it is one of the two. A committed piece is neither, though a duplicate
that lost the race may still be running. The download is finalised only when
every bit is set.
-/

namespace Arvolo.Recv

open Crypto Lib

/-- The piece and the provider of a task, which never change. -/
def Task.key (t : Task) : ℕ × Provider := (t.piece, t.prov)

namespace Loop

variable {c : Config} {s : Loop} {bits₀ : Bytes}

def keys (s : Loop) : List (ℕ × Provider) := s.tasks.map Task.key

/-- The books of a running loop. `skip` names a piece that was just taken off
its task and has not been put anywhere yet. -/
structure Counted (c : Config) (bits₀ : Bytes) (s : Loop) (skip : Option ℕ := none) : Prop where
  keys_lt : ∀ i p, (i, p) ∈ s.keys → i < c.ticket.total ∧ bitfieldHas bits₀ i = false
  waiting : ∀ i ∈ s.remaining, i < c.ticket.total ∧ i ∉ s.satisfied ∧ s.pieceSrcs i = []
  fetching : ∀ i ∉ s.satisfied, ∀ p, p ∈ s.pieceSrcs i ↔ (i, p) ∈ s.keys
  done : ∀ i ∈ s.satisfied, s.pieceSrcs i = []
  distinct : ∀ (j k i : ℕ) (p : Provider), s.keys[j]? = some (i, p) → s.keys[k]? = some (i, p) →
    i ∉ s.satisfied → j = k
  cover : s.cancel = false → ∀ i < c.ticket.total, i ∉ s.satisfied → some i ≠ skip →
    i ∈ s.remaining ∨ s.pieceSrcs i ≠ []
  tripped : ∀ i ∈ s.tripped, i ∈ s.satisfied
  noticed : ∀ t ∈ s.tasks, t.outcome = some .cancelled → s.cancel = true ∨ t.piece ∈ s.tripped
  width : s.have_.length = bitfieldBytes c.ticket.total
  bit : ∀ i < c.ticket.total, bitfieldHas s.have_ i = true ↔ i ∈ s.satisfied
  clean : (∀ i, bitfieldHas bits₀ i = true → i < c.ticket.total) →
    ∀ i, bitfieldHas s.have_ i = true → i < c.ticket.total
  committed : ∀ i ∈ s.committed, i ∈ s.satisfied
  once : s.committed.Nodup
  fresh : ∀ i ∈ s.committed, bitfieldHas bits₀ i = false
  kept : ∀ i < c.ticket.total, bitfieldHas bits₀ i = true → i ∈ s.satisfied
  origin : ∀ i ∈ s.satisfied, bitfieldHas bits₀ i = true ∨ i ∈ s.committed

theorem counted_start (hbits : bits₀.length = bitfieldBytes c.ticket.total)
    (stages : StageFiles) (out : Bytes) (sidecar : Option Bytes) :
    Counted c bits₀ (start c.ticket bits₀ stages out sidecar) where
  keys_lt i p h := by simp [start, keys] at h
  waiting i hi := by
    simp only [start, List.mem_filter, List.mem_range, Bool.not_eq_true'] at hi
    refine ⟨hi.1, ?_, rfl⟩
    simp [start, hi.2]
  fetching i _ p := by simp [start, keys]
  done _ _ := rfl
  distinct j k i p h := by simp [start, keys] at h
  cover _ i hi hs _ := by
    left
    simp only [start, List.mem_filter, List.mem_range, not_and] at hs ⊢
    exact ⟨hi, by simpa using hs hi⟩
  tripped i hi := by simp [start] at hi
  noticed t ht := by simp [start] at ht
  width := hbits
  bit i hi := by simp [start, hi]
  clean h := h
  committed i hi := by simp [start] at hi
  once := by simp [start]
  fresh i hi := by simp [start] at hi
  kept i hi h := by simp [start, hi, h]
  origin i hi := by
    simp only [start, List.mem_filter] at hi
    exact .inl hi.2

/-- A step of a task by itself leaves the books alone. -/
theorem Counted.of_task {s' : Loop} {skip : Option ℕ} (h : s.Counted c bits₀ skip)
    (hkeys : s'.keys = s.keys) (hrem : s'.remaining = s.remaining) (hsat : s'.satisfied = s.satisfied)
    (hsrc : s'.pieceSrcs = s.pieceSrcs) (hhave : s'.have_ = s.have_)
    (htrip : s'.tripped = s.tripped) (hcancel : s'.cancel = s.cancel)
    (hcom : s'.committed = s.committed)
    (hnot : ∀ t ∈ s'.tasks, t.outcome = some .cancelled → s.cancel = true ∨ t.piece ∈ s.tripped) :
    s'.Counted c bits₀ skip where
  keys_lt := hkeys ▸ h.keys_lt
  waiting := by rw [hrem, hsat, hsrc]; exact h.waiting
  fetching := by rw [hsat, hsrc, hkeys]; exact h.fetching
  done := by rw [hsat, hsrc]; exact h.done
  distinct := by rw [hkeys, hsat]; exact h.distinct
  cover := by rw [hcancel, hsat, hrem, hsrc]; exact h.cover
  tripped := by rw [htrip, hsat]; exact h.tripped
  noticed := by rw [hcancel, htrip]; exact hnot
  width := hhave ▸ h.width
  bit := by rw [hhave, hsat]; exact h.bit
  clean := hhave ▸ h.clean
  committed := by rw [hcom, hsat]; exact h.committed
  once := hcom ▸ h.once
  fresh := hcom ▸ h.fresh
  kept := by rw [hsat]; exact h.kept
  origin := by rw [hsat, hcom]; exact h.origin

theorem keys_setTask {j : ℕ} {t t' : Task} (hj : s.tasks[j]? = some t) (hkey : t'.key = t.key) :
    (s.tasks.set j t').map Task.key = s.tasks.map Task.key := by
  refine List.ext_getElem? fun k => ?_
  by_cases hk : j = k
  · subst hk
    have hlt : j < s.tasks.length := (List.getElem?_eq_some_iff.mp hj).1
    rw [List.map_set, List.getElem?_set_self (by simpa using hlt), List.getElem?_map, hj, hkey]
    rfl
  · simp [List.getElem?_set_ne hk]

/-- A task changed in place, with an outcome it may have. -/
theorem Counted.setTask (h : s.Counted c bits₀) {j : ℕ} {t t' : Task} (hj : s.tasks[j]? = some t)
    (hkey : t'.key = t.key) {stages : StageFiles} {banned : List Provider}
    (hout : t'.outcome = some .cancelled → s.cancel = true ∨ t'.piece ∈ s.tripped) :
    Counted c bits₀ { s with tasks := s.tasks.set j t', stages, banned } := by
  refine h.of_task (keys_setTask hj hkey) rfl rfl rfl rfl rfl rfl rfl ?_
  intro u hu
  rcases List.mem_or_eq_of_mem_set hu with hold | rfl
  · exact h.noticed u hold
  · exact hout

theorem Counted.openStage (h : s.Counted c bits₀) (j : ℕ) : (s.openStage j).Counted c bits₀ := by
  unfold Loop.openStage
  split
  · rename_i t ht
    split_ifs with hready
    · refine h.setTask ht (by rfl) ?_
      intro hc
      simp only [Bool.and_eq_true, Option.isNone_iff_eq_none] at hready
      rw [hready.2] at hc
      cases hc
    · exact h
  · exact h

theorem Counted.receive (h : s.Counted c bits₀) (j : ℕ) (body : Bytes) :
    (s.receive c j body).Counted c bits₀ := by
  unfold Loop.receive
  split
  · rename_i t ht
    split
    · rename_i hout
      split_ifs
      · exact h.setTask ht (by rfl) (fun hc => by rw [hout] at hc; cases hc)
      · exact h.setTask ht (by rfl) (fun hc => by cases hc)
    · exact h
  · exact h

theorem Counted.writeStage (h : s.Counted c bits₀) (j n : ℕ) :
    (s.writeStage j n).Counted c bits₀ := by
  unfold Loop.writeStage
  split
  · rename_i t ht
    split
    · refine h.setTask ht (by rfl) ?_
      intro hc
      simp only at hc
      split_ifs at hc
      cases hc
    · exact h
  · exact h

theorem Counted.fail (h : s.Counted c bits₀) (j : ℕ) (storage : Bool) :
    (s.fail j storage).Counted c bits₀ := by
  unfold Loop.fail
  split
  · rename_i t ht
    split_ifs
    · exact h.setTask ht (by rfl) (fun hc => by cases hc)
    · exact h
  · exact h

theorem Counted.notice (h : s.Counted c bits₀) (j : ℕ) : (s.notice j).Counted c bits₀ := by
  unfold Loop.notice
  split
  · rename_i t ht
    split_ifs with hready
    · refine h.setTask ht (by rfl) fun _ => ?_
      simpa using (Bool.and_eq_true _ _ |>.mp hready).2
    · exact h
  · exact h

theorem Counted.trip (h : s.Counted c bits₀) : Counted c bits₀ { s with cancel := true } where
  keys_lt := h.keys_lt
  waiting := h.waiting
  fetching := h.fetching
  done := h.done
  distinct := h.distinct
  cover hc := by cases hc
  tripped := h.tripped
  noticed _ _ _ := .inl rfl
  width := h.width
  bit := h.bit
  clean := h.clean
  committed := h.committed
  once := h.once
  fresh := h.fresh
  kept := h.kept
  origin := h.origin

/-! ### Assignment -/

theorem mem_addSource {srcs : List Provider} {prov p : Provider} :
    p ∈ addSource srcs prov ↔ p ∈ srcs ∨ p = prov := by
  unfold addSource
  split_ifs with h
  · constructor
    · exact .inl
    · rintro (hp | rfl)
      · exact hp
      · exact h
  · simp

/-- Hand out a piece that is not committed, to a provider that is not fetching
it. Whether it was waiting or in flight, it is not waiting any more. -/
theorem Counted.spawn (h : s.Counted c bits₀) {i : ℕ} {prov : Provider} {remaining : List ℕ}
    (hi : i < c.ticket.total) (hsat : i ∉ s.satisfied) (hnew : prov ∉ s.pieceSrcs i)
    (hrem : ∀ k, k ∈ remaining ↔ k ∈ s.remaining ∧ k ≠ i) :
    Counted c bits₀ ({ s with remaining }.spawn i prov) where
  keys_lt k p hk := by
    simp only [Loop.spawn, keys, List.map_append, List.map_cons, List.map_nil, List.mem_append,
      List.mem_singleton, Task.key, Prod.mk.injEq] at hk
    rcases hk with hk | ⟨rfl, rfl⟩
    · exact h.keys_lt k p hk
    · refine ⟨hi, ?_⟩
      by_contra hbit
      exact hsat (h.kept k hi (by simpa using hbit))
  waiting k hk := by
    obtain ⟨hk, hne⟩ := (hrem k).mp hk
    obtain ⟨hlt, hns, hsrc⟩ := h.waiting k hk
    refine ⟨hlt, hns, ?_⟩
    simpa [Loop.spawn, Function.update_of_ne hne] using hsrc
  fetching k hk p := by
    simp only [Loop.spawn, keys, List.map_append, List.map_cons, List.map_nil, List.mem_append,
      List.mem_singleton, Task.key, Prod.mk.injEq]
    by_cases hki : k = i
    · subst hki
      rw [Function.update_self, mem_addSource, h.fetching k hk p]
      simp [keys]
    · rw [Function.update_of_ne hki, h.fetching k hk p]
      simp [keys, hki]
  done k hk := by
    have hki : k ≠ i := fun he => hsat (he ▸ hk)
    simpa [Loop.spawn, Function.update_of_ne hki] using h.done k hk
  distinct a b k p ha hb hk := by
    -- the new task is the last one, and no other has its key
    have hnot : (i, prov) ∉ s.keys := fun hmem => hnew ((h.fetching i hsat prov).mpr hmem)
    have hsplit : ∀ n, (s.keys ++ [(i, prov)])[n]? = some (k, p) →
        s.keys[n]? = some (k, p) ∨ (n = s.keys.length ∧ (k, p) = (i, prov)) := by
      intro n hn
      rcases Nat.lt_or_ge n s.keys.length with hlt | hge
      · left
        rwa [List.getElem?_append_left hlt] at hn
      · rw [List.getElem?_append_right hge] at hn
        obtain ⟨hlt, heq⟩ := List.getElem?_eq_some_iff.mp hn
        simp only [List.length_singleton] at hlt
        refine .inr ⟨by omega, ?_⟩
        simpa using heq.symm
    have hkeys : ({ s with remaining }.spawn i prov).keys = s.keys ++ [(i, prov)] := by
      simp [Loop.spawn, keys, Task.key]
    rw [hkeys] at ha hb
    rcases hsplit a ha with ha | ⟨ha, hka⟩ <;> rcases hsplit b hb with hb | ⟨hb, hkb⟩
    · exact h.distinct a b k p ha hb hk
    · exact absurd (hkb ▸ List.mem_of_getElem? ha) hnot
    · exact absurd (hka ▸ List.mem_of_getElem? hb) hnot
    · rw [ha, hb]
  cover hc k hk hns hskip := by
    by_cases hki : k = i
    · right
      subst hki
      simp only [Loop.spawn, Function.update_self]
      exact List.ne_nil_of_mem (mem_addSource.mpr (.inr rfl))
    · rcases h.cover hc k hk hns hskip with hw | hf
      · exact .inl ((hrem k).mpr ⟨hw, hki⟩)
      · right
        simpa [Loop.spawn, Function.update_of_ne hki] using hf
  tripped := h.tripped
  noticed t ht := by
    simp only [Loop.spawn, List.mem_append, List.mem_singleton] at ht
    rcases ht with ht | rfl
    · exact h.noticed t ht
    · intro hc
      cases hc
  width := h.width
  bit := h.bit
  clean := h.clean
  committed := h.committed
  once := h.once
  fresh := h.fresh
  kept := h.kept
  origin := h.origin

/-- A fresh choice is a waiting piece. -/
theorem mem_remaining_of_mayFetch {now : ℕ} {src : Sources} {i : ℕ} {prov : Provider}
    (h : s.MayFetch c now src i prov) : i ∈ s.remaining := by
  obtain ⟨e, he, rfl, -⟩ := h
  have hcand := mem_of_mem_preferOffloadable (mem_of_mem_rarestSet he)
  obtain ⟨hmap, -⟩ := List.mem_filter.mp hcand
  obtain ⟨i, hi, rfl⟩ := List.mem_map.mp hmap
  exact List.mem_of_mem_filter hi

theorem Counted.assign (h : s.Counted c bits₀) (now : ℕ) (src : Sources) (i : ℕ)
    (prov : Provider) : (s.assign c now src i prov).Counted c bits₀ := by
  unfold Loop.assign
  split_ifs with hroom hfetch hdup
  · obtain ⟨hi, hsat, hsrc⟩ := h.waiting i (mem_remaining_of_mayFetch hfetch)
    exact h.spawn hi hsat (by simp [hsrc]) (by simp)
  · obtain ⟨-, -, hlive, -, hunused⟩ := hdup
    simp only [live, List.mem_filter, List.mem_range, Bool.not_eq_true',
      List.isEmpty_eq_false_iff] at hlive
    simp only [unused, List.mem_filter, Bool.not_eq_true', List.contains_eq_mem,
      decide_eq_false_iff_not] at hunused
    have hsat : i ∉ s.satisfied := fun hs => hlive.2 (h.done i hs)
    refine h.spawn hlive.1 hsat hunused.2 fun k => ?_
    refine ⟨fun hk => ⟨hk, ?_⟩, And.left⟩
    rintro rfl
    exact hlive.2 (h.waiting k hk).2.2
  · exact h
  · exact h

/-! ### Reports -/

/-- Taking a task off the list leaves its piece to be put somewhere. -/
theorem Counted.unlist (h : s.Counted c bits₀) {j : ℕ} {t : Task} (hj : s.tasks[j]? = some t) :
    (s.unlist j t).Counted c bits₀ (some t.piece) where
  keys_lt i p hk := by
    refine h.keys_lt i p ?_
    simp only [keys, Loop.unlist, List.mem_map] at hk ⊢
    obtain ⟨u, hu, hkey⟩ := hk
    exact ⟨u, List.mem_of_mem_eraseIdx hu, hkey⟩
  waiting i hi := by
    obtain ⟨hlt, hns, hsrc⟩ := h.waiting i hi
    refine ⟨hlt, hns, ?_⟩
    simp only [Loop.unlist]
    by_cases hit : i = t.piece
    · subst hit
      simp [hsrc]
    · rw [Function.update_of_ne hit, hsrc]
  fetching i hi p := by
    have hkeys : (s.unlist j t).keys = s.keys.eraseIdx j := by
      simp [keys, Loop.unlist, List.eraseIdx_map]
    have hkj : s.keys[j]? = some (t.piece, t.prov) := by
      simp [keys, hj, Task.key]
    rw [hkeys, List.mem_eraseIdx_iff_getElem?]
    simp only [Loop.unlist]
    by_cases hit : i = t.piece
    · subst hit
      rw [Function.update_self, List.mem_filter, h.fetching t.piece hi p]
      simp only [ne_eq, decide_not, Bool.not_eq_true', decide_eq_false_iff_not]
      constructor
      · rintro ⟨hmem, hne⟩
        obtain ⟨k, hk⟩ := List.mem_iff_getElem?.mp hmem
        refine ⟨k, ?_, hk⟩
        rintro rfl
        rw [hkj] at hk
        exact hne (Prod.mk.inj (Option.some.inj hk)).2.symm
      · rintro ⟨k, hkj', hk⟩
        refine ⟨List.mem_of_getElem? hk, ?_⟩
        rintro rfl
        exact hkj' (h.distinct k j t.piece t.prov hk hkj hi)
    · rw [Function.update_of_ne hit, h.fetching i hi p, List.mem_iff_getElem?]
      constructor
      · rintro ⟨k, hk⟩
        refine ⟨k, ?_, hk⟩
        rintro rfl
        rw [hkj] at hk
        exact hit (Prod.mk.inj (Option.some.inj hk)).1.symm
      · rintro ⟨k, -, hk⟩
        exact ⟨k, hk⟩
  done i hi := by
    have hsrc := h.done i hi
    simp only [Loop.unlist]
    by_cases hit : i = t.piece
    · subst hit
      simp [hsrc]
    · rw [Function.update_of_ne hit, hsrc]
  distinct a b i p ha hb hi := by
    have hkeys : (s.unlist j t).keys = s.keys.eraseIdx j := by
      simp [keys, Loop.unlist, List.eraseIdx_map]
    rw [hkeys, List.getElem?_eraseIdx] at ha hb
    have hab := h.distinct (if a < j then a else a + 1) (if b < j then b else b + 1) i p
      (by split_ifs at ha ⊢ <;> exact ha) (by split_ifs at hb ⊢ <;> exact hb) hi
    split_ifs at hab <;> omega
  cover hc i hi hns hskip := by
    have hit : i ≠ t.piece := fun he => hskip (by rw [he])
    rcases h.cover hc i hi hns (by simp) with hw | hf
    · exact .inl hw
    · right
      simpa [Loop.unlist, Function.update_of_ne hit] using hf
  tripped := h.tripped
  noticed u hu := h.noticed u (List.mem_of_mem_eraseIdx hu)
  width := h.width
  bit := h.bit
  clean := h.clean
  committed := h.committed
  once := h.once
  fresh := h.fresh
  kept := h.kept
  origin := h.origin

/-- The piece that was taken off has a place after all. -/
theorem Counted.settle {i : ℕ} (h : s.Counted c bits₀ (some i))
    (hi : s.cancel = false → i < c.ticket.total → i ∉ s.satisfied →
      i ∈ s.remaining ∨ s.pieceSrcs i ≠ []) : s.Counted c bits₀ := by
  refine { h with cover := ?_ }
  intro hc k hk hns _
  by_cases hki : k = i
  · subst hki
    exact hi hc hk hns
  · exact h.cover hc k hk hns fun he => hki (Option.some.inj he)

theorem Counted.removeStage {skip : Option ℕ} (h : s.Counted c bits₀ skip) (p : Stage) :
    (s.removeStage p).Counted c bits₀ skip :=
  h.of_task rfl rfl rfl rfl rfl rfl rfl rfl h.noticed

/-- Put the piece back, unless another source is still fetching it. -/
theorem Counted.reassign {t : Task} (h : s.Counted c bits₀ (some t.piece))
    (ht : t.piece < c.ticket.total) (now : ℕ) : (s.reassign t now).Counted c bits₀ := by
  have hbase : Counted c bits₀ (({ s with
      cooldown := Function.update s.cooldown t.prov (some (now + providerCooldownSecs))
      }).removeStage t.stage) (some t.piece) :=
    h.of_task rfl rfl rfl rfl rfl rfl rfl rfl h.noticed
  unfold Loop.reassign
  simp only
  split_ifs with hback hmem
  · exact Counted.settle (hbase.of_task rfl rfl rfl rfl rfl rfl rfl rfl h.noticed)
      fun _ _ _ => .inl hmem
  · refine Counted.settle (i := t.piece) ?_ fun _ _ _ => .inl List.mem_cons_self
    refine { hbase with waiting := ?_, cover := ?_ }
    · intro k hk
      rcases List.mem_cons.mp hk with rfl | hk
      · exact ⟨ht, hback.1, hback.2⟩
      · exact h.waiting k hk
    · intro hc k hk hns hskip
      rcases h.cover hc k hk hns hskip with hw | hf
      · exact .inl (List.mem_cons_of_mem _ hw)
      · exact .inr hf
  · refine hbase.settle fun _ _ hns => ?_
    right
    intro hsrc
    exact hback ⟨hns, hsrc⟩

/-- The books after a commit. -/
theorem Counted.mark {i : ℕ} {u : Loop} (h : s.Counted c bits₀ (some i)) (hi : i < c.ticket.total)
    (hns : i ∉ s.satisfied) (hsat : u.satisfied = i :: s.satisfied) (htasks : u.tasks = s.tasks)
    (hrem : u.remaining = s.remaining) (hsrc : u.pieceSrcs = s.pieceSrcs)
    (hhave : u.have_ = s.have_) (hcancel : u.cancel = s.cancel) (hcom : u.committed = s.committed)
    (htrip : u.tripped = s.tripped ∨ u.tripped = i :: s.tripped)
    (saved : Saved) : (u.mark i saved).Counted c bits₀ where
  keys_lt k p hk := by
    simp only [keys, Loop.mark, htasks] at hk
    exact h.keys_lt k p hk
  waiting k hk := by
    simp only [Loop.mark, hrem, List.mem_filter, decide_eq_true_eq] at hk
    obtain ⟨hlt, hks, hksrc⟩ := h.waiting k hk.1
    refine ⟨hlt, ?_, ?_⟩
    · simp only [Loop.mark, hsat, List.mem_cons, not_or]
      exact ⟨hk.2, hks⟩
    · simp only [Loop.mark, hsrc, Function.update_of_ne hk.2, hksrc]
  fetching k hk p := by
    simp only [Loop.mark, hsat, List.mem_cons, not_or] at hk
    simp only [Loop.mark, keys, htasks, hsrc, Function.update_of_ne hk.1]
    exact h.fetching k hk.2 p
  done k hk := by
    simp only [Loop.mark, hsat, List.mem_cons] at hk
    by_cases hki : k = i
    · subst hki
      simp [Loop.mark]
    · simp only [Loop.mark, hsrc, Function.update_of_ne hki]
      exact h.done k (hk.resolve_left hki)
  distinct a b k p ha hb hk := by
    simp only [Loop.mark, keys, htasks] at ha hb
    simp only [Loop.mark, hsat, List.mem_cons, not_or] at hk
    exact h.distinct a b k p ha hb hk.2
  cover hc k hk hks _ := by
    simp only [Loop.mark, hsat, List.mem_cons, not_or] at hks
    simp only [Loop.mark, hcancel] at hc
    rcases h.cover hc k hk hks.2 (fun he => hks.1 (Option.some.inj he)) with hw | hf
    · left
      simpa [Loop.mark, hrem, hks.1] using hw
    · right
      simpa [Loop.mark, hsrc, Function.update_of_ne hks.1] using hf
  tripped k hk := by
    simp only [Loop.mark] at hk ⊢
    rw [hsat]
    rcases htrip with he | he <;> rw [he] at hk
    · exact List.mem_cons_of_mem _ (h.tripped k hk)
    · rcases List.mem_cons.mp hk with rfl | hk
      · exact List.mem_cons_self
      · exact List.mem_cons_of_mem _ (h.tripped k hk)
  noticed t ht hout := by
    simp only [Loop.mark, htasks] at ht
    simp only [Loop.mark, hcancel]
    rcases h.noticed t ht hout with hc | ht'
    · exact .inl hc
    · right
      rcases htrip with he | he <;> rw [he]
      · exact ht'
      · exact List.mem_cons_of_mem _ ht'
  width := by
    simp only [Loop.mark, length_bitfieldSet, hhave]
    exact h.width
  bit k hk := by
    have hbyte : i / 8 < s.have_.length := h.width ▸ byte_lt_of_lt hi
    simp only [Loop.mark, hhave, hsat, List.mem_cons, bitfieldHas_set hbyte, Bool.or_eq_true,
      decide_eq_true_eq, h.bit k hk]
    tauto
  clean hclean k hk := by
    have hbyte : i / 8 < s.have_.length := h.width ▸ byte_lt_of_lt hi
    simp only [Loop.mark, hhave, bitfieldHas_set hbyte, Bool.or_eq_true, decide_eq_true_eq] at hk
    rcases hk with hk | rfl
    · exact h.clean hclean k hk
    · exact hi
  committed k hk := by
    simp only [Loop.mark, hcom, List.mem_append, List.mem_singleton] at hk
    simp only [Loop.mark, hsat, List.mem_cons]
    rcases hk with hk | rfl
    · exact .inr (h.committed k hk)
    · exact .inl rfl
  once := by
    simp only [Loop.mark, hcom, List.nodup_append, List.nodup_singleton, List.mem_singleton]
    refine ⟨h.once, trivial, ?_⟩
    rintro a ha b rfl rfl
    exact hns (h.committed a ha)
  fresh k hk := by
    simp only [Loop.mark, hcom, List.mem_append, List.mem_singleton] at hk
    rcases hk with hk | rfl
    · exact h.fresh k hk
    · by_contra hbit
      exact hns (h.kept k hi (by simpa using hbit))
  kept k hk hbit := by
    simp only [Loop.mark, hsat, List.mem_cons]
    exact .inr (h.kept k hk hbit)
  origin k hk := by
    simp only [Loop.mark, hsat, List.mem_cons] at hk
    simp only [Loop.mark, hcom, List.mem_append, List.mem_singleton]
    rcases hk with rfl | hk
    · exact .inr (.inr rfl)
    · exact (h.origin k hk).imp_right .inl

/-! ### Every step -/

/-- The books, closed or not. -/
structure Books (c : Config) (bits₀ : Bytes) (s : Loop) : Prop where
  running : s.exit = none → s.Counted c bits₀
  once : s.committed.Nodup
  fresh : ∀ i ∈ s.committed, bitfieldHas bits₀ i = false
  complete : s.exit = some .completed →
    s.cancel = false ∨ (∀ i, bitfieldHas bits₀ i = true → i < c.ticket.total) →
    ∀ i < c.ticket.total, bitfieldHas s.have_ i = true

theorem Counted.books (h : s.Counted c bits₀) (hexit : s.exit ≠ some .completed) :
    s.Books c bits₀ where
  running _ := h
  once := h.once
  fresh := h.fresh
  complete he := absurd he hexit

theorem Counted.books_quiet {s' : Loop} (h : s'.Counted c bits₀) (hquiet : s.Quiet s')
    (hrun : s.exit = none) : s'.Books c bits₀ :=
  h.books (by simp [hquiet.exit, hrun])

/-- Any way out but the normal one closes the books as they are. -/
theorem Counted.books_exit {s' : Loop} {skip : Option ℕ} {e : Exit} (h : s.Counted c bits₀ skip)
    (hcom : s'.committed = s.committed) (hexit : s'.exit = some e) (he : e ≠ .completed) :
    s'.Books c bits₀ where
  running hnone := by
    rw [hexit] at hnone
    cases hnone
  once := hcom ▸ h.once
  fresh := hcom ▸ h.fresh
  complete hc := absurd (Option.some.inj (hexit ▸ hc)) he

theorem Counted.commit {t : Task} (h : s.Counted c bits₀ (some t.piece))
    (hrun : s.exit = none) (hi : t.piece < c.ticket.total) (hns : t.piece ∉ s.satisfied)
    (fault : Option Fault) (saved : Saved) : (s.commit c t fault saved).Books c bits₀ := by
  unfold Loop.commit
  simp only
  split
  · exact h.books_exit (by rfl) (by rfl) (by decide)
  · split
    · exact h.books_exit (by rfl) (by rfl) (by decide)
    · cases fault with
      | some f => exact h.books_exit (by rfl) (by rfl) (by split_ifs <;> decide)
      | none =>
          refine Counted.books (Counted.mark h hi hns (by rfl) (by rfl) (by rfl) (by rfl) (by rfl)
            (by rfl) (by rfl) ?_ saved) ?_
          · simp only [Loop.removeStage, Loop.removeStages]
            split_ifs
            · exact .inr rfl
            · exact .inl rfl
          · simp [Loop.mark, Loop.removeStages, Loop.removeStage, hrun]

theorem Counted.report (h : s.Counted c bits₀) (hrun : s.exit = none) (j now : ℕ)
    (fault : Option Fault) (saved : Saved) : (s.report c j now fault saved).Books c bits₀ := by
  have hopen : s.exit ≠ some .completed := by simp [hrun]
  unfold Loop.report
  split
  · rename_i t ht
    have hmem : t ∈ s.tasks := List.mem_of_getElem? ht
    have hlt : t.piece < c.ticket.total :=
      (h.keys_lt t.piece t.prov (List.mem_map.mpr ⟨t, hmem, rfl⟩)).1
    have hoff := h.unlist ht
    split
    · exact h.books hopen
    · -- a cancelled task of a running download lost the race
      rename_i hout
      refine Counted.books ((hoff.removeStage t.stage).settle fun hc _ hns => ?_) hopen
      rcases h.noticed t hmem hout with hcancel | htrip
      · rw [show s.cancel = false from hc] at hcancel
        cases hcancel
      · exact absurd (h.tripped _ htrip) hns
    · split_ifs with hsat
      · refine Counted.books ((hoff.removeStage t.stage).settle fun _ _ hns => ?_) hopen
        exact absurd hsat hns
      · exact hoff.commit hrun hlt hsat fault saved
    · split_ifs
      · exact hoff.books_exit (by rfl) (by rfl) (by decide)
      · exact (hoff.reassign hlt now).books_quiet (quiet_reassign t now) hrun
  · exact h.books hopen

/-- Out of the loop nothing is waiting and nothing is being fetched. -/
theorem Counted.leave (h : s.Counted c bits₀) (hrun : s.exit = none) (removed : Bool) :
    (s.leave c removed).Books c bits₀ := by
  unfold Loop.leave
  split
  swap
  · exact h.books (by simp [hrun])
  rename_i hempty
  split
  · exact h.books_exit (by rfl) (by rfl) (by decide)
  · rename_i hshort
    refine ⟨fun hnone => absurd hnone (by simp), h.once, h.fresh, ?_⟩
    intro _ hclean i hi
    obtain ⟨-, hrem, hlive⟩ := hempty
    by_cases hc : s.cancel = false
    · -- a running download has lost no piece
      by_contra hbit
      have hns : i ∉ s.satisfied := fun hs => hbit ((h.bit i hi).mpr hs)
      rcases h.cover hc i hi hns (by simp) with hw | hf
      · rw [hrem] at hw
        cases hw
      · have hmem : i ∈ s.live c := by simp [live, hi, hf]
        rw [hlive] at hmem
        cases hmem
    · -- a cancelled one has, and only the count says whether it is complete
      have hcount : c.ticket.total ≤ bitfieldCount s.have_ := by
        simp only [Bool.and_eq_true, decide_eq_true_eq, not_and, not_lt] at hshort
        exact hshort (by simpa using hc)
      exact bitfieldHas_of_count (h.clean (hclean.resolve_left hc)) hcount hi

theorem Books.step (h : s.Books c bits₀) (e : Event) : (s.step c e).Books c bits₀ := by
  unfold Loop.step
  split
  · exact h
  · rename_i hexit
    have hrun : s.exit = none := by simpa using hexit
    have hc := h.running hrun
    have hopen : s.exit ≠ some .completed := by simp [hrun]
    cases e with
    | assign now src i prov =>
        exact (hc.assign now src i prov).books_quiet (quiet_assign now src i prov) hrun
    | openStage j => exact (hc.openStage j).books_quiet (quiet_openStage j) hrun
    | receive j body => exact (hc.receive j body).books_quiet (quiet_receive j body) hrun
    | writeStage j n => exact (hc.writeStage j n).books_quiet (quiet_writeStage j n) hrun
    | fail j storage => exact (hc.fail j storage).books_quiet (quiet_fail j storage) hrun
    | notice j => exact (hc.notice j).books_quiet (quiet_notice j) hrun
    | report j now fault saved => exact hc.report hrun j now fault saved
    | trip => exact hc.trip.books hopen
    | stop =>
        show Books c bits₀ (if s.cancel then { s with exit := some .cancelled } else s)
        split
        · exact hc.books_exit (by rfl) (by rfl) (by decide)
        · exact h
    | leave removed => exact hc.leave hrun removed
    | die => exact hc.books_exit (by rfl) (by rfl) (by decide)

/-! ### Every run -/

/-- A run of `recv_chunked` from a resume. -/
def run (c : Config) (settings : Settings) (stages : StageFiles) (out : Bytes)
    (sidecar : Option Bytes) (saved : Saved) (room : Bool) (es : List Event) : Loop :=
  es.foldl (step c) (resume c settings stages out sidecar saved room)

theorem books_resume (c : Config) (settings : Settings) (stages : StageFiles) (out : Bytes)
    (sidecar : Option Bytes) (saved : Saved) (room : Bool) :
    (resume c settings stages out sidecar saved room).Books c
      (resume c settings stages out sidecar saved room).have_ := by
  obtain ⟨bits, sidecar', exit, heq, hlen, -, -, -, hexit⟩ :=
    resume_eq c settings stages out sidecar saved room
  rw [heq]
  have hstart := counted_start hlen stages out sidecar'
  rcases hexit with rfl | rfl
  · exact hstart.books (by simp [start])
  · exact hstart.books_exit (by rfl) (by rfl) (by decide)

theorem books_run (c : Config) (settings : Settings) (stages : StageFiles) (out : Bytes)
    (sidecar : Option Bytes) (saved : Saved) (room : Bool) (es : List Event) :
    (run c settings stages out sidecar saved room es).Books c
      (resume c settings stages out sidecar saved room).have_ :=
  foldl_inv _ (fun _ e h => h.step e) (books_resume c settings stages out sidecar saved room) es

def Waiting (s : Loop) (i : ℕ) : Prop := i ∈ s.remaining

/-- An unfinished task is fetching the piece. -/
def Fetched (s : Loop) (i : ℕ) : Prop := ∃ t ∈ s.tasks, t.piece = i

def Committed (s : Loop) (i : ℕ) : Prop := bitfieldHas s.have_ i = true

instance (s : Loop) (i : ℕ) : Decidable (s.Waiting i) := inferInstanceAs (Decidable (_ ∈ _))

instance (s : Loop) (i : ℕ) : Decidable (s.Fetched i) :=
  inferInstanceAs (Decidable (∃ t ∈ s.tasks, t.piece = i))

instance (s : Loop) (i : ℕ) : Decidable (s.Committed i) :=
  inferInstanceAs (Decidable (_ = _))

/-- Where a piece is while the loop runs. -/
structure Placed (s : Loop) (i : ℕ) : Prop where
  /-- Until the download is cancelled it is somewhere. -/
  somewhere : s.cancel = false → s.Waiting i ∨ s.Fetched i ∨ s.Committed i
  waiting : s.Waiting i → ¬ s.Fetched i ∧ ¬ s.Committed i
  /-- Only a duplicate that lost the race fetches a committed piece. -/
  late : s.Fetched i → s.Committed i → i ∈ s.committed

theorem Counted.placed (h : s.Counted c bits₀) {i : ℕ} (hi : i < c.ticket.total) : s.Placed i := by
  have hfetched : i ∉ s.satisfied → (s.Fetched i ↔ s.pieceSrcs i ≠ []) := by
    intro hns
    constructor
    · rintro ⟨t, ht, rfl⟩
      exact List.ne_nil_of_mem ((h.fetching _ hns t.prov).mpr (List.mem_map.mpr ⟨t, ht, rfl⟩))
    · intro hsrc
      obtain ⟨p, hp⟩ := List.exists_mem_of_ne_nil _ hsrc
      obtain ⟨t, ht, hkey⟩ := List.mem_map.mp ((h.fetching i hns p).mp hp)
      exact ⟨t, ht, congrArg Prod.fst hkey⟩
  refine ⟨fun hc => ?_, fun hw => ?_, ?_⟩
  · by_cases hs : i ∈ s.satisfied
    · exact .inr (.inr ((h.bit i hi).mpr hs))
    · rcases h.cover hc i hi hs (by simp) with hw | hf
      · exact .inl hw
      · exact .inr (.inl ((hfetched hs).mpr hf))
  · obtain ⟨-, hns, hsrc⟩ := h.waiting i hw
    refine ⟨fun hf => (hfetched hns).mp hf hsrc, fun hcom => hns ((h.bit i hi).mp hcom)⟩
  · rintro ⟨t, ht, rfl⟩ hcom
    have hfresh := (h.keys_lt t.piece t.prov (List.mem_map.mpr ⟨t, ht, rfl⟩)).2
    rcases h.origin _ ((h.bit _ hi).mp hcom) with hold | hnew
    · rw [hfresh] at hold
      cases hold
    · exact hnew

/-- The accounts of a state: where each piece is while the loop runs, what was
committed, and what a completed download holds. -/
structure Accounted (c : Config) (settings : Settings) (bits₀ : Bytes) (s : Loop) : Prop where
  placed : s.exit = none → ∀ i < c.ticket.total, s.Placed i
  once : s.committed.Nodup
  /-- A piece that was restored is not fetched again. -/
  fresh : ∀ i ∈ s.committed, bitfieldHas bits₀ i = false
  complete : s.exit = some .completed → s.cancel = false ∨ settings.trust = false →
    ∀ i < c.ticket.total, s.Committed i

/-- A download that completes has every piece, unless it was cancelled and had
taken its sidecar on trust. -/
theorem run_complete (c : Config) (settings : Settings) (stages : StageFiles) (out : Bytes)
    (sidecar : Option Bytes) (saved : Saved) (room : Bool) (es : List Event)
    (hexit : (run c settings stages out sidecar saved room es).exit = some .completed)
    (hsafe : (run c settings stages out sidecar saved room es).cancel = false ∨
      settings.trust = false) :
    ∀ i < c.ticket.total, (run c settings stages out sidecar saved room es).Committed i := by
  have hbooks := books_run c settings stages out sidecar saved room es
  refine hbooks.complete hexit (hsafe.imp_right fun htrust => ?_)
  obtain ⟨bits, sidecar', exit, heq, -, -, hclean, -⟩ :=
    resume_eq c settings stages out sidecar saved room
  rw [heq]
  exact fun i hi => (hclean htrust i hi).1

/-- Piece accounting: no run of the loop loses a piece, commits one twice or
completes without all of them. -/
theorem run_accounted (c : Config) (settings : Settings) (stages : StageFiles) (out : Bytes)
    (sidecar : Option Bytes) (saved : Saved) (room : Bool) (es : List Event) :
    (run c settings stages out sidecar saved room es).Accounted c settings
      (resume c settings stages out sidecar saved room).have_ := by
  have hbooks := books_run c settings stages out sidecar saved room es
  refine ⟨fun hrun i hi => (hbooks.running hrun).placed hi, hbooks.once, hbooks.fresh, ?_⟩
  exact run_complete c settings stages out sidecar saved room es

/-- One piece, held by two sources. -/
def racedConfig : Config where
  aead := .plain
  hash := id
  ticket := {
    chunks := [[7, 8] ++ List.replicate tag 255], key := [], chunkSize := 4, totalSize := 2 }
  concurrency := 4
  origin := some "origin"

def racedSources : Sources := { sender := some "origin", relay := some ("relay", [0]) }

/-- The origin and the relay race for the piece, and the origin wins. -/
def racedRun : List Event :=
  [.assign 0 racedSources 0 "origin", .assign 0 racedSources 0 "relay", .openStage 0,
    .receive 0 ([7, 8] ++ List.replicate tag 255), .writeStage 0 64, .report 0 0 none .whole]

/-- The download is cancelled while its only piece is being fetched. -/
def droppedRun : List Event :=
  [.assign 0 racedSources 0 "origin", .trip, .notice 0, .report 0 0 none .whole]

/-- A committed piece may still be fetched, and after a cancel a piece may be in
no place at all. -/
theorem not_one_place :
    (racedConfig.ticket.total = 1 ∧
      (run racedConfig {} .empty [] none .whole true racedRun).exit = none ∧
      (run racedConfig {} .empty [] none .whole true racedRun).Fetched 0 ∧
      (run racedConfig {} .empty [] none .whole true racedRun).Committed 0) ∧
    ((run racedConfig {} .empty [] none .whole true droppedRun).exit = none ∧
      ¬ (run racedConfig {} .empty [] none .whole true droppedRun).Waiting 0 ∧
      ¬ (run racedConfig {} .empty [] none .whole true droppedRun).Fetched 0 ∧
      ¬ (run racedConfig {} .empty [] none .whole true droppedRun).Committed 0) := by
  decide +kernel

end Loop

end Arvolo.Recv
