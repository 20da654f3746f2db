import Arvolo.Manager.Restart

/-!
What a fresh manager reads before the first restore.

The records under an old prefix are rewritten, the codes come off the disk, and what belongs
to no transfer is swept. None of it touches what is in memory.
-/

namespace Arvolo.Manager.Restart

open Lib

/-- The kinds of record that a transfer comes back from, in the order of the loops. -/
def mains : List Kind := [.deposited, .sendto, .link, .pendingShare, .download, .send]

/-- The records of a kind as a start reads them, those under an old prefix among them. -/
def listed (d : Disk) : (k : Kind) → List (Σ _ : ℕ, Content k)
  | .sendto => (start d).loadSendtos.1
  | .deposited => (start d).loadDepositeds.1
  | k => d.rows k

variable {w : World}

/-! ### The sweeps and the records under old prefixes -/

/-- Only files of the kinds `ks` are changed, and nothing in memory. -/
structure Sweeps (ks : List Kind) (w w' : World) : Prop where
  fails : w'.fails = none
  next : w'.next = w.next
  restored : w'.restored = w.restored
  codes : w'.codes = w.codes
  stages : w'.disk.stages = w.disk.stages
  frame : ∀ k ∉ ks, w'.disk.files k = w.disk.files k

theorem Sweeps.refl {ks : List Kind} (h : w.fails = none) : Sweeps ks w w :=
  ⟨h, rfl, rfl, rfl, rfl, fun _ _ => rfl⟩

theorem Sweeps.trans {ks : List Kind} {w' w'' : World} (h : Sweeps ks w w')
    (h' : Sweeps ks w' w'') : Sweeps ks w w'' where
  fails := h'.fails
  next := h'.next.trans h.next
  restored := h'.restored.trans h.restored
  codes := h'.codes.trans h.codes
  stages := h'.stages.trans h.stages
  frame k hk := (h'.frame k hk).trans (h.frame k hk)

theorem sweeps_unlink {ks : List Kind} (h : w.fails = none) {k : Kind} (hk : k ∈ ks) (id : ℕ) :
    Sweeps ks w (w.unlink k id) :=
  ⟨h, rfl, rfl, rfl, by rw [World.disk_unlink h]; rfl, fun k' hk' => by
    rw [World.disk_unlink h, Disk.files_unlink_of_ne (ne_of_mem_of_not_mem hk hk').symm]⟩

theorem sweeps_put {ks : List Kind} (h : w.fails = none) {k : Kind} (hk : k ∈ ks) (id : ℕ)
    (c : Content k) : Sweeps ks w (w.put k id c) :=
  ⟨h, rfl, rfl, rfl, by rw [World.disk_put h]; rfl, fun k' hk' => by
    rw [World.disk_put h, Disk.files_put_of_ne (ne_of_mem_of_not_mem hk hk').symm]⟩

/-- The files of one kind unlinked, id by id. -/
theorem sweeps_unlinkAll (h : w.fails = none) (k : Kind) (ids : List ℕ) :
    Sweeps [k] w (ids.foldl (fun w id => w.unlink k id) w) ∧
      ∀ j, ((ids.foldl (fun w id => w.unlink k id) w).disk.files k).lookup j =
        if j ∈ ids then none else (w.disk.files k).lookup j := by
  induction ids generalizing w with
  | nil => exact ⟨.refl h, fun j => by simp⟩
  | cons id ids ih =>
      obtain ⟨hsweeps, hlookup⟩ := ih (w := w.unlink k id) h
      refine ⟨(sweeps_unlink h (List.mem_singleton_self k) id).trans hsweeps, fun j => ?_⟩
      rw [List.foldl_cons, hlookup, World.disk_unlink h, Disk.files_unlink_self,
        Table.lookup_erase_eq]
      by_cases hj : j = id <;> simp [hj]

theorem eq_empty_of_lookup {α : Type} {t : Table ℕ α} (h : ∀ j, t.lookup j = none) : t = ∅ := by
  refine AList.ext (List.eq_nil_iff_forall_not_mem.2 fun r hr => ?_)
  have hsome := AList.mem_lookup_iff.2 hr
  rw [h r.1] at hsome
  cases hsome

theorem sweeps_unlinkRows (h : w.fails = none) (k : Kind) :
    Sweeps [k] w ((w.disk.rows k).foldl (fun w r => w.unlink k r.1) w) ∧
      ((w.disk.rows k).foldl (fun w r => w.unlink k r.1) w).disk.files k = ∅ := by
  rw [← List.foldl_map (f := fun r : Σ _ : ℕ, Content k => r.1)
    (g := fun (w : World) id => w.unlink k id)]
  obtain ⟨hsweeps, hlookup⟩ := sweeps_unlinkAll h k ((w.disk.rows k).map (·.1))
  refine ⟨hsweeps, eq_empty_of_lookup fun j => ?_⟩
  rw [hlookup]
  split_ifs with hj
  · rfl
  · by_contra hsome
    obtain ⟨c, hc⟩ := Option.ne_none_iff_exists'.mp hsome
    exact hj (List.mem_map_of_mem (f := (·.1)) (Disk.mem_rows.2 hc))

theorem sweepUploads_spec (h : w.fails = none) :
    Sweeps [.upload] w w.sweepUploads ∧ w.sweepUploads.disk.files .upload = ∅ :=
  sweeps_unlinkRows h .upload

theorem takeCodes_spec (h : w.fails = none) :
    Sweeps [.code] { w with codes := w.disk.files .code } w.takeCodes ∧
      w.takeCodes.disk.files .code = ∅ := by
  obtain ⟨hsweeps, hempty⟩ := sweeps_unlinkRows h .code
  exact ⟨⟨hsweeps.fails, hsweeps.next, hsweeps.restored, rfl, hsweeps.stages, hsweeps.frame⟩,
    hempty⟩

theorem sweepPreps_spec (h : w.fails = none) (sendtos : List (Σ _ : ℕ, SendToRecord)) :
    Sweeps [.prep] w (w.sweepPreps sendtos) ∧
      ∀ j, ((w.sweepPreps sendtos).disk.files .prep).lookup j =
        if j ∈ sendtos.map (·.1) then (w.disk.files .prep).lookup j else none := by
  have hfold : w.sweepPreps sendtos =
      (((w.disk.rows .prep).filter (·.1 ∉ sendtos.map (·.1))).map (·.1)).foldl
        (fun w id => w.unlink .prep id) w := by
    rw [List.foldl_map, List.foldl_filter]
    unfold World.sweepPreps
    refine congrArg (fun f => List.foldl f w (w.disk.rows .prep)) ?_
    ext1 w
    ext1 r
    by_cases hr : r.1 ∈ sendtos.map (·.1) <;> simp [hr]
  obtain ⟨hsweeps, hlookup⟩ := sweeps_unlinkAll h .prep
    (((w.disk.rows .prep).filter (·.1 ∉ sendtos.map (·.1))).map (·.1))
  rw [← hfold] at hsweeps hlookup
  refine ⟨hsweeps, fun j => ?_⟩
  rw [hlookup]
  by_cases hj : j ∈ sendtos.map (·.1)
  · rw [if_pos hj, if_neg]
    intro hmem
    obtain ⟨r, hr, rfl⟩ := List.mem_map.mp hmem
    exact of_decide_eq_true (List.mem_filter.mp hr).2 hj
  · rw [if_neg hj]
    split_ifs with hmem
    · rfl
    · by_contra hsome
      obtain ⟨p, hp⟩ := Option.ne_none_iff_exists'.mp hsome
      exact hmem (List.mem_map.2 ⟨⟨j, p⟩,
        List.mem_filter.2 ⟨Disk.mem_rows.2 hp, by simpa using hj⟩, rfl⟩)

section

variable {old new : Kind} (convert : Content old → Content new)

/-- The list of the records that are known says what is filed under the new prefix. -/
structure Known (new : Kind) (out : List (Σ _ : ℕ, Content new)) (w : World) : Prop where
  nodup : (out.map (·.1)).Nodup
  lookup : ∀ id c, (⟨id, c⟩ : Σ _ : ℕ, Content new) ∈ out ↔
    (w.disk.files new).lookup id = some c

theorem known_rows (k : Kind) (w : World) : Known k (w.disk.rows k) w :=
  ⟨(w.disk.files k).nodupKeys, fun _ _ => Disk.mem_rows⟩

theorem Known.of_files {out : List (Σ _ : ℕ, Content new)} {w' : World} (h : Known new out w)
    (hfiles : w'.disk.files new = w.disk.files new) : Known new out w' :=
  ⟨h.nodup, fun id c => by rw [hfiles, h.lookup]⟩

/-- The step of `World.migrate`. -/
def World.migrateOne (old new : Kind) (convert : Content old → Content new)
    (s : List (Σ _ : ℕ, Content new) × World) (r : Σ _ : ℕ, Content old) :
    List (Σ _ : ℕ, Content new) × World :=
  let s' :=
    if s.1.any (·.1 = r.1) then s
    else (s.1 ++ [⟨r.1, convert r.2⟩], s.2.put new r.1 (convert r.2))
  (s'.1, s'.2.unlink old r.1)

theorem migrateOne_spec (hne : old ≠ new) {out : List (Σ _ : ℕ, Content new)}
    (h : w.fails = none) (hknown : Known new out w) (r : Σ _ : ℕ, Content old) :
    Sweeps [old, new] w (World.migrateOne old new convert (out, w) r).2 ∧
      (World.migrateOne old new convert (out, w) r).2.disk.files old =
        (w.disk.files old).erase r.1 ∧
      Known new (World.migrateOne old new convert (out, w) r).1
        (World.migrateOne old new convert (out, w) r).2 := by
  have hold : old ∈ [old, new] := by simp
  have hnew : new ∈ [old, new] := by simp
  unfold World.migrateOne
  split_ifs with hany
  · refine ⟨sweeps_unlink h hold r.1, ?_, hknown.of_files ?_⟩
    · rw [World.disk_unlink h, Disk.files_unlink_self]
    · rw [World.disk_unlink h, Disk.files_unlink_of_ne hne.symm]
  · have hput : (w.put new r.1 (convert r.2)).fails = none := h
    have hfresh : r.1 ∉ out.map (·.1) := by simpa using hany
    refine ⟨(sweeps_put h hnew _ _).trans (sweeps_unlink hput hold _), ?_, ?_, fun id c => ?_⟩
    · rw [World.disk_unlink hput, Disk.files_unlink_self, World.disk_put h,
        Disk.files_put_of_ne hne]
    · rw [List.map_append]
      exact List.nodup_append_comm.mp (List.nodup_cons.mpr ⟨hfresh, hknown.nodup⟩)
    · rw [World.disk_unlink hput, Disk.files_unlink_of_ne hne.symm, World.disk_put h,
        Disk.files_put_self, Table.lookup_insert_eq, List.mem_append, List.mem_singleton]
      split_ifs with hid
      · subst hid
        constructor
        · rintro (hmem | heq)
          · exact absurd (List.mem_map_of_mem (f := (·.1)) hmem) hfresh
          · cases heq
            rfl
        · intro heq
          cases heq
          exact .inr rfl
      · rw [← hknown.lookup]
        refine or_iff_left fun heq => hid ?_
        exact congrArg Sigma.fst heq

theorem migrate_spec (hne : old ≠ new) (h : w.fails = none) :
    Sweeps [old, new] w (w.migrate old new convert).2 ∧
      (w.migrate old new convert).2.disk.files old = ∅ ∧
      Known new (w.migrate old new convert).1 (w.migrate old new convert).2 := by
  have hrun : ∀ (rows : List (Σ _ : ℕ, Content old)) (out : List (Σ _ : ℕ, Content new))
      (w : World), w.fails = none → Known new out w →
      Sweeps [old, new] w (rows.foldl (World.migrateOne old new convert) (out, w)).2 ∧
        (∀ j, ((rows.foldl (World.migrateOne old new convert) (out, w)).2.disk.files old).lookup j =
          if j ∈ rows.map (·.1) then none else (w.disk.files old).lookup j) ∧
        Known new (rows.foldl (World.migrateOne old new convert) (out, w)).1
          (rows.foldl (World.migrateOne old new convert) (out, w)).2 := by
    intro rows
    induction rows with
    | nil => exact fun out w h hknown => ⟨.refl h, by simp, hknown⟩
    | cons r rows ih =>
        intro out w h hknown
        obtain ⟨hsweeps, herase, hknown'⟩ := migrateOne_spec convert hne h hknown r
        obtain ⟨hsweeps', hlookup, hknown''⟩ := ih _ _ hsweeps.fails hknown'
        refine ⟨hsweeps.trans hsweeps', fun j => ?_, hknown''⟩
        rw [List.foldl_cons]
        rw [hlookup, herase, Table.lookup_erase_eq]
        by_cases hj : j = r.1
        · simp [hj]
        · simp only [List.map_cons, List.mem_cons, hj, false_or, if_false]
  obtain ⟨hsweeps, hlookup, hknown⟩ := hrun (w.disk.rows old) _ w h (known_rows new w)
  refine ⟨hsweeps, eq_empty_of_lookup fun j => (hlookup j).trans ?_, hknown⟩
  split_ifs with hj
  · rfl
  · by_contra hsome
    obtain ⟨c, hc⟩ := Option.ne_none_iff_exists'.mp hsome
    exact hj (List.mem_map_of_mem (f := (·.1)) (Disk.mem_rows.2 hc))

/-- What is read depends on the files of the two kinds alone. -/
theorem migrate_fst_congr {w' : World} (hold : w'.disk.files old = w.disk.files old)
    (hnew : w'.disk.files new = w.disk.files new) :
    (w'.migrate old new convert).1 = (w.migrate old new convert).1 := by
  have hrun : ∀ (rows : List (Σ _ : ℕ, Content old)) (out : List (Σ _ : ℕ, Content new))
      (w w' : World), (rows.foldl (World.migrateOne old new convert) (out, w')).1 =
        (rows.foldl (World.migrateOne old new convert) (out, w)).1 := by
    intro rows
    induction rows with
    | nil => exact fun _ _ _ => rfl
    | cons r rows ih =>
        intro out w w'
        rw [List.foldl_cons, List.foldl_cons]
        unfold World.migrateOne
        split_ifs
        all_goals exact ih _ _ _
  have hrows := hrun (w.disk.rows old) (w.disk.rows new) w w'
  unfold World.migrate
  rw [Disk.rows, Disk.rows, hold, hnew]
  exact hrows

end

/-! ### What is there before the first loop -/

/-- Everything is read, what had an old prefix rewritten, and the codes are off the disk. -/
def loaded (d : Disk) : World := (start d).loadSendtos.2.loadDepositeds.2.takeCodes

/-- What a fresh manager has before the first loop. -/
structure Loaded (d : Disk) (w : World) : Prop where
  fails : w.fails = none
  next : w.next = 1
  restored : w.restored = []
  codes : w.codes = d.files .code
  stages : w.disk.stages = d.stages
  known : ∀ k ∈ mains, Known k (listed d k) w
  gone : ∀ k ∈ [Kind.legacySendto, .legacyDeposited, .code], w.disk.files k = ∅
  frame : ∀ k ∉ [Kind.legacySendto, .sendto, .legacyDeposited, .deposited, .code],
    w.disk.files k = d.files k

theorem loadDepositeds_fst (d : Disk) :
    (start d).loadSendtos.2.loadDepositeds.1 = listed d .deposited := by
  have hs := (migrate_spec (w := start d) LegacySendTo.toRecord
    (show Kind.legacySendto ≠ .sendto by decide) rfl).1
  exact migrate_fst_congr _ (hs.frame .legacyDeposited (by decide))
    (hs.frame .deposited (by decide))

theorem loaded_spec (d : Disk) : Loaded d (loaded d) := by
  obtain ⟨hs, hsold, hsknown⟩ := migrate_spec (w := start d)
    LegacySendTo.toRecord (show Kind.legacySendto ≠ .sendto by decide) rfl
  obtain ⟨hd, hdold, hdknown⟩ := migrate_spec (w := (start d).loadSendtos.2)
    LegacyDeposited.toRecord (show Kind.legacyDeposited ≠ .deposited by decide) hs.fails
  obtain ⟨hc, hcempty⟩ := takeCodes_spec (w := (start d).loadSendtos.2.loadDepositeds.2) hd.fails
  refine ⟨hc.fails, (hc.next.trans hd.next).trans hs.next,
    (hc.restored.trans hd.restored).trans hs.restored, hc.codes.trans ?_,
    (hc.stages.trans hd.stages).trans hs.stages, fun k hk => ?_, fun k hk => ?_, fun k hk => ?_⟩
  · exact (hd.frame .code (by decide)).trans (hs.frame .code (by decide))
  · have hsame : ∀ {k : Kind}, k ∉ [Kind.legacySendto, .sendto] →
        k ∉ [Kind.legacyDeposited, .deposited] → k ∉ [Kind.code] →
        Known k (d.rows k) (loaded d) := fun h₁ h₂ h₃ =>
      (known_rows _ (start d)).of_files
        (((hc.frame _ h₃).trans (hd.frame _ h₂)).trans (hs.frame _ h₁))
    simp only [mains, List.mem_cons, List.not_mem_nil, or_false] at hk
    rcases hk with rfl | rfl | rfl | rfl | rfl | rfl
    · rw [← loadDepositeds_fst]
      exact hdknown.of_files (hc.frame _ (by decide))
    · exact hsknown.of_files ((hc.frame _ (by decide)).trans (hd.frame _ (by decide)))
    all_goals exact hsame (by decide) (by decide) (by decide)
  · simp only [List.mem_cons, List.not_mem_nil, or_false] at hk
    rcases hk with rfl | rfl | rfl
    · exact ((hc.frame _ (by decide)).trans (hd.frame _ (by decide))).trans hsold
    · exact (hc.frame _ (by decide)).trans hdold
    · exact hcempty
  · simp only [List.mem_cons, List.not_mem_nil, or_false, not_or] at hk
    obtain ⟨h₁, h₂, h₃, h₄, h₅⟩ := hk
    exact ((hc.frame k (by simpa using h₅)).trans (hd.frame k (by simp [h₃, h₄]))).trans
      (hs.frame k (by simp [h₁, h₂]))

theorem listed_eq_rows {d : Disk} (hs : d.files .legacySendto = ∅)
    (hd : d.files .legacyDeposited = ∅) (k : Kind) : listed d k = d.rows k := by
  have hs' : (start d).disk.rows .legacySendto = [] := congrArg AList.entries hs
  have hd' : (start d).disk.rows .legacyDeposited = [] := congrArg AList.entries hd
  cases k with
  | sendto => rw [listed, World.loadSendtos, World.migrate, hs']; rfl
  | deposited => rw [listed, World.loadDepositeds, World.migrate, hd']; rfl
  | _ => rfl

end Arvolo.Manager.Restart
