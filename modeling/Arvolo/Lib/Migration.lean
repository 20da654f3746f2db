import Arvolo.Lib.Table

/-!
Records in files, one a file, and their move from one generation of file names to the next.

A record of the old generation is read, written under its new name, and unlinked; one whose id is
there already is only unlinked. A pass over the directory may be cut short after any of these.
What the directory holds is what both generations hold, as long as they agree where both hold
something under one id.
-/

namespace Lib

abbrev Dir := Table String (List UInt8)

/-- `<prefix>*.pc` -/
def isRecord (pre name : String) : Bool :=
  pre.toList.isPrefixOf name.toList && ".pc".toList.isSuffixOf name.toList

def recordPaths (dir : Dir) (pre : String) : List String := dir.keys.filter (isRecord pre)

def recordPath (pre : String) (id : ℕ) : String := pre ++ toString id ++ ".pc"

theorem mem_recordPaths {dir : Dir} {pre path : String} :
    path ∈ recordPaths dir pre ↔ dir.lookup path ≠ none ∧ isRecord pre path = true := by
  rw [recordPaths, List.mem_filter, ← AList.mem_keys, ← AList.lookup_isSome,
    Option.isSome_iff_ne_none]

theorem isRecord_recordPath (pre : String) (id : ℕ) : isRecord pre (recordPath pre id) = true := by
  rw [isRecord, Bool.and_eq_true, List.isPrefixOf_iff_prefix, List.isSuffixOf_iff_suffix]
  simp only [recordPath, String.toList_append]
  exact ⟨⟨_, (List.append_assoc ..).symm⟩, List.suffix_append _ _⟩

theorem recordPath_inj {pre : String} {i j : ℕ} (h : recordPath pre i = recordPath pre j) :
    i = j := by
  rw [recordPath, recordPath, String.append_left_inj, String.append_right_inj] at h
  exact Nat.repr_inj.1 h

/-- Two generations of the files of records `R`. -/
structure Generations (R : Type) where
  oldPrefix : String
  newPrefix : String
  id : R → ℕ
  readOld : List UInt8 → Option R
  readNew : List UInt8 → Option R
  write : R → List UInt8

namespace Generations

variable {R : Type} (g : Generations R)

def oldPath (i : ℕ) : String := recordPath g.oldPrefix i

def newPath (i : ℕ) : String := recordPath g.newPrefix i

/-- The records under the new names, with the directory they are in. -/
def start (dir : Dir) : List R × Dir :=
  ((recordPaths dir g.newPrefix).filterMap fun path => (dir.lookup path).bind g.readNew, dir)

/-- Unless there is one of that id, the record is written and added. -/
def rewritten (st : List R × Dir) (r : R) : List R × Dir :=
  if st.1.any fun r' => g.id r' = g.id r then st
  else (st.1 ++ [r], st.2.insert (g.newPath (g.id r)) (g.write r))

def rewriteAt (st : List R × Dir) (path : String) : List R × Dir :=
  match (st.2.lookup path).bind g.readOld with
  | none => st
  | some r => g.rewritten st r

/-- A file that is not read stays. -/
def migrate (st : List R × Dir) (path : String) : List R × Dir :=
  match (st.2.lookup path).bind g.readOld with
  | none => st
  | some r => ((g.rewritten st r).1, (g.rewritten st r).2.erase path)

def load (dir : Dir) : List R × Dir :=
  (recordPaths dir g.oldPrefix).foldl g.migrate (g.start dir)

/-- A pass over the directory, or the beginning of one, with the next file rewritten or not. -/
inductive Pass
  | whole
  | cut (n : ℕ) (rewrote : Bool)
  deriving DecidableEq

def pass (dir : Dir) : Pass → Dir
  | .whole => (g.load dir).2
  | .cut n rewrote =>
      let paths := recordPaths dir g.oldPrefix
      let st := (paths.take n).foldl g.migrate (g.start dir)
      if rewrote then ((paths[n]?.map (g.rewriteAt st)).getD st).2 else st.2

/-- The names tell the generations apart, and what is rewritten is read back. -/
structure Lawful (g : Generations R) : Prop where
  new_not_old : ∀ i, isRecord g.oldPrefix (g.newPath i) = false
  old_not_new : ∀ i, isRecord g.newPrefix (g.oldPath i) = false
  readNew_write : ∀ b r, g.readOld b = some r → g.readNew (g.write r) = some r

/-! ### What a directory holds -/

def newAt (dir : Dir) (i : ℕ) : Option R := (dir.lookup (g.newPath i)).bind g.readNew

def oldAt (dir : Dir) (i : ℕ) : Option R := (dir.lookup (g.oldPath i)).bind g.readOld

def Holds (dir : Dir) (r : R) : Prop :=
  g.newAt dir (g.id r) = some r ∨ g.oldAt dir (g.id r) = some r

/-- Every file is read, and is named after the id of its record. -/
structure Shelved (dir : Dir) : Prop where
  new : ∀ path b, dir.lookup path = some b → isRecord g.newPrefix path = true →
    ∃ r, g.readNew b = some r ∧ path = g.newPath (g.id r)
  old : ∀ path b, dir.lookup path = some b → isRecord g.oldPrefix path = true →
    ∃ r, g.readOld b = some r ∧ path = g.oldPath (g.id r)

/-- Two records of one id are one record. -/
def Agree (dir : Dir) : Prop :=
  ∀ i r r', g.newAt dir i = some r → g.oldAt dir i = some r' → r = r'

variable {g} {dir dir' : Dir}

theorem Shelved.id_of_newAt (h : g.Shelved dir) {i : ℕ} {r : R} (hr : g.newAt dir i = some r) :
    g.id r = i := by
  obtain ⟨b, hb, hread⟩ := Option.bind_eq_some_iff.1 hr
  obtain ⟨r', hr', hpath⟩ := h.new _ b hb (isRecord_recordPath _ i)
  obtain rfl := Option.some.inj (hread.symm.trans hr')
  exact (recordPath_inj hpath).symm

theorem Shelved.id_of_oldAt (h : g.Shelved dir) {i : ℕ} {r : R} (hr : g.oldAt dir i = some r) :
    g.id r = i := by
  obtain ⟨b, hb, hread⟩ := Option.bind_eq_some_iff.1 hr
  obtain ⟨r', hr', hpath⟩ := h.old _ b hb (isRecord_recordPath _ i)
  obtain rfl := Option.some.inj (hread.symm.trans hr')
  exact (recordPath_inj hpath).symm

/-! ### What a step does to it -/

theorem Lawful.newPath_ne_oldPath (hg : g.Lawful) (i j : ℕ) : g.newPath i ≠ g.oldPath j := by
  intro h
  have hnot := hg.new_not_old i
  rw [h, oldPath, isRecord_recordPath] at hnot
  exact Bool.noConfusion hnot

theorem oldPath_inj {i j : ℕ} (h : g.oldPath i = g.oldPath j) : i = j := recordPath_inj h

theorem newPath_inj {i j : ℕ} (h : g.newPath i = g.newPath j) : i = j := recordPath_inj h

theorem Lawful.newAt_erase (hg : g.Lawful) (i j : ℕ) :
    g.newAt (dir.erase (g.oldPath i)) j = g.newAt dir j := by
  rw [newAt, Table.lookup_erase_eq, if_neg (hg.newPath_ne_oldPath j i), newAt]

theorem oldAt_erase (i j : ℕ) :
    g.oldAt (dir.erase (g.oldPath i)) j = if j = i then none else g.oldAt dir j := by
  rw [oldAt, Table.lookup_erase_eq]
  by_cases hj : j = i
  · rw [if_pos hj, if_pos (congrArg g.oldPath hj)]
    rfl
  · rw [if_neg hj, if_neg fun h => hj (oldPath_inj h)]
    rfl

theorem newAt_insert (i j : ℕ) (b : List UInt8) :
    g.newAt (dir.insert (g.newPath i) b) j = if j = i then g.readNew b else g.newAt dir j := by
  rw [newAt, Table.lookup_insert_eq]
  by_cases hj : j = i
  · rw [if_pos hj, if_pos (congrArg g.newPath hj)]
    rfl
  · rw [if_neg hj, if_neg fun h => hj (newPath_inj h)]
    rfl

theorem Lawful.oldAt_insert (hg : g.Lawful) (i j : ℕ) (b : List UInt8) :
    g.oldAt (dir.insert (g.newPath i) b) j = g.oldAt dir j := by
  rw [oldAt, Table.lookup_insert_eq, if_neg (hg.newPath_ne_oldPath i j).symm, oldAt]

theorem Shelved.erase (h : g.Shelved dir) (path : String) : g.Shelved (dir.erase path) where
  new path' b hb := by
    rw [Table.lookup_erase_eq] at hb
    split_ifs at hb
    exact h.new path' b hb
  old path' b hb := by
    rw [Table.lookup_erase_eq] at hb
    split_ifs at hb
    exact h.old path' b hb

theorem Shelved.insert (h : g.Shelved dir) (hg : g.Lawful) {r : R}
    (hr : g.readNew (g.write r) = some r) :
    g.Shelved (dir.insert (g.newPath (g.id r)) (g.write r)) where
  new path b hb hpath := by
    rw [Table.lookup_insert_eq] at hb
    split_ifs at hb with heq
    · obtain rfl := Option.some.inj hb
      exact ⟨r, hr, heq⟩
    · exact h.new path b hb hpath
  old path b hb hpath := by
    rw [Table.lookup_insert_eq] at hb
    split_ifs at hb with heq
    · rw [heq, hg.new_not_old] at hpath
      exact Bool.noConfusion hpath
    · exact h.old path b hb hpath

/-! ### A pass on its way -/

/-- What is true while the old files are gone through, with `paths` of them still to come. -/
structure Running (g : Generations R) (paths : List String) (st : List R × Dir) : Prop where
  shelved : g.Shelved st.2
  out : ∀ r, r ∈ st.1 ↔ g.newAt st.2 (g.id r) = some r
  nodup : (st.1.map g.id).Nodup
  left : ∀ path, isRecord g.oldPrefix path = true → st.2.lookup path ≠ none → path ∈ paths

theorem Shelved.running (h : g.Shelved dir) :
    g.Running (recordPaths dir g.oldPrefix) (g.start dir) where
  shelved := h
  out r := by
    rw [start, List.mem_filterMap]
    constructor
    · rintro ⟨path, hpath, hr⟩
      obtain ⟨b, hb, hread⟩ := Option.bind_eq_some_iff.1 hr
      obtain ⟨r', hr', rfl⟩ := h.new path b hb (mem_recordPaths.1 hpath).2
      obtain rfl := Option.some.inj (hread.symm.trans hr')
      exact hr
    · intro hr
      obtain ⟨b, hb, -⟩ := Option.bind_eq_some_iff.1 hr
      exact ⟨g.newPath (g.id r), mem_recordPaths.2 ⟨by simp [hb], isRecord_recordPath _ _⟩, hr⟩
  nodup := by
    rw [start, recordPaths, List.filterMap_filter, List.map_filterMap]
    refine dir.keys_nodup.filterMap fun path path' i hi hi' => ?_
    have hnamed : ∀ path, i ∈ Option.map g.id (if isRecord g.newPrefix path = true then
        (dir.lookup path).bind g.readNew else none) → path = g.newPath i := by
      intro path hi
      obtain ⟨r, hr, rfl⟩ := Option.map_eq_some_iff.1 hi
      split_ifs at hr with hpath
      obtain ⟨b, hb, hread⟩ := Option.bind_eq_some_iff.1 hr
      obtain ⟨r', hr', hname⟩ := h.new path b hb hpath
      obtain rfl := Option.some.inj (hread.symm.trans hr')
      exact hname
    exact (hnamed path hi).trans (hnamed path' hi').symm
  left path hpath hthere := mem_recordPaths.2 ⟨hthere, hpath⟩

section

variable {paths : List String} {st : List R × Dir} {r : R}

theorem Running.any_iff (h : g.Running paths st) (i : ℕ) :
    (st.1.any fun r' => decide (g.id r' = i)) = true ↔ g.newAt st.2 i ≠ none := by
  rw [List.any_eq_true]
  constructor
  · rintro ⟨r', hr', hid⟩
    obtain rfl := of_decide_eq_true hid
    rw [(h.out r').1 hr']
    simp
  · intro hsome
    obtain ⟨r', hr'⟩ := Option.ne_none_iff_exists'.1 hsome
    obtain rfl := h.shelved.id_of_newAt hr'
    exact ⟨r', (h.out r').2 hr', decide_eq_true rfl⟩

/-- The record is there under its new name, unless another was. -/
theorem Running.newAt_rewritten (h : g.Running paths st) (hr : g.readNew (g.write r) = some r)
    (j : ℕ) : g.newAt (g.rewritten st r).2 j =
      (g.newAt st.2 j).or (if j = g.id r then some r else none) := by
  have hany := h.any_iff (g.id r)
  unfold rewritten
  split_ifs with hthere hj hj
  · obtain ⟨r', hr'⟩ := Option.ne_none_iff_exists'.1 (hany.1 hthere)
    rw [hj, hr', Option.some_or]
  · rw [Option.or_none]
  · have hnone : g.newAt st.2 (g.id r) = none := by
      by_contra hsome
      exact hthere (hany.2 hsome)
    rw [newAt_insert, if_pos hj, hj, hnone, hr, Option.none_or]
  · rw [newAt_insert, if_neg hj, Option.or_none]

theorem Lawful.oldAt_rewritten (hg : g.Lawful) (r : R) (j : ℕ) :
    g.oldAt (g.rewritten st r).2 j = g.oldAt st.2 j := by
  unfold rewritten
  split_ifs
  · rfl
  · exact hg.oldAt_insert _ _ _

theorem Running.rewritten (h : g.Running paths st) (hg : g.Lawful)
    (hr : g.readNew (g.write r) = some r) : g.Running paths (g.rewritten st r) := by
  have hany := h.any_iff (g.id r)
  have hnew := h.newAt_rewritten hr
  unfold Generations.rewritten at hnew ⊢
  split_ifs at hnew ⊢ with hthere
  · exact h
  · have hnone : g.newAt st.2 (g.id r) = none := by
      by_contra hsome
      exact hthere (hany.2 hsome)
    refine ⟨h.shelved.insert hg hr, fun r' => ?_, ?_, fun path hpath hsome => ?_⟩
    · rw [hnew, List.mem_append, List.mem_singleton, h.out]
      by_cases hid : g.id r' = g.id r
      · rw [if_pos hid, hid, hnone, Option.none_or, Option.some.injEq]
        simp [eq_comm]
      · rw [if_neg hid, Option.or_none]
        exact or_iff_left fun heq => hid (congrArg g.id heq)
    · rw [List.map_append, List.nodup_append]
      refine ⟨h.nodup, List.nodup_singleton _, fun i hi j hj => ?_⟩
      obtain ⟨r', hr', rfl⟩ := List.mem_map.1 hi
      obtain rfl := List.mem_singleton.1 hj
      intro heq
      rw [← heq, (h.out r').1 hr'] at hnone
      exact absurd hnone (by simp)
    · refine h.left path hpath ?_
      rw [Table.lookup_insert_eq] at hsome
      split_ifs at hsome with heq
      · rw [heq, hg.new_not_old] at hpath
        exact Bool.noConfusion hpath
      · exact hsome

/-- What is done with the file of a record. -/
theorem Running.migrate_eq (h : g.Running paths st) {path : String}
    (hpath : isRecord g.oldPrefix path = true) :
    st.2.lookup path = none ∧ g.migrate st path = st ∨
      ∃ b r, g.readOld b = some r ∧ path = g.oldPath (g.id r) ∧ g.oldAt st.2 (g.id r) = some r ∧
        g.migrate st path =
          ((g.rewritten st r).1, (g.rewritten st r).2.erase (g.oldPath (g.id r))) := by
  unfold Generations.migrate
  cases hb : st.2.lookup path with
  | none => exact .inl ⟨rfl, rfl⟩
  | some b =>
      obtain ⟨r, hread, rfl⟩ := h.shelved.old path b hb hpath
      refine .inr ⟨b, r, hread, rfl, ?_, ?_⟩
      · rw [oldAt, hb, Option.bind_some, hread]
      · rw [Option.bind_some, hread]

theorem Running.migrate (hg : g.Lawful) {path : String} (h : g.Running (path :: paths) st)
    (hpath : isRecord g.oldPrefix path = true) : g.Running paths (g.migrate st path) := by
  rcases h.migrate_eq hpath with ⟨hnone, heq⟩ | ⟨b, r, hread, rfl, hold, heq⟩
  · rw [heq]
    refine ⟨h.shelved, h.out, h.nodup, fun path' hpath' hthere => ?_⟩
    refine (List.mem_cons.1 (h.left path' hpath' hthere)).resolve_left ?_
    rintro rfl
    exact hthere hnone
  · have hrewritten := h.rewritten hg (hg.readNew_write b r hread)
    rw [heq]
    refine ⟨hrewritten.shelved.erase _, fun r' => ?_, hrewritten.nodup,
      fun path' hpath' hthere => ?_⟩
    · rw [hg.newAt_erase]
      exact hrewritten.out r'
    · rw [Table.lookup_erase_eq] at hthere
      split_ifs at hthere with hne
      · exact absurd rfl hthere
      · exact (List.mem_cons.1 (hrewritten.left path' hpath' hthere)).resolve_left hne

/-! ### Passes -/

/-- The directories hold the same, and the later one agrees with itself. -/
def Kept (g : Generations R) (dir dir' : Dir) : Prop :=
  g.Agree dir' ∧ ∀ r, g.Holds dir' r ↔ g.Holds dir r

theorem Kept.trans {dir'' : Dir} (h : g.Kept dir dir') (h' : g.Kept dir' dir'') :
    g.Kept dir dir'' :=
  ⟨h'.1, fun r => (h'.2 r).trans (h.2 r)⟩

theorem Running.kept_rewritten (h : g.Running paths st) (hg : g.Lawful)
    (hr : g.readNew (g.write r) = some r) (hold : g.oldAt st.2 (g.id r) = some r)
    (hagree : g.Agree st.2) : g.Kept st.2 (g.rewritten st r).2 := by
  refine ⟨fun j a b ha hb => ?_, fun r' => ?_⟩
  · rw [h.newAt_rewritten hr] at ha
    rw [hg.oldAt_rewritten] at hb
    cases hj : g.newAt st.2 j with
    | some a' =>
        rw [hj, Option.some_or] at ha
        exact Option.some.inj ha ▸ hagree j a' b hj hb
    | none =>
        rw [hj, Option.none_or] at ha
        split_ifs at ha with hid
        obtain rfl := Option.some.inj ha
        exact Option.some.inj (hold.symm.trans (hid ▸ hb))
  · rw [Holds, h.newAt_rewritten hr, hg.oldAt_rewritten, Holds]
    cases hj : g.newAt st.2 (g.id r') with
    | some a => rw [Option.some_or]
    | none =>
        rw [Option.none_or]
        by_cases hid : g.id r' = g.id r
        · rw [if_pos hid, hid, hold]
          simp
        · rw [if_neg hid]

theorem Running.kept_migrate (h : g.Running paths st) (hg : g.Lawful) {path : String}
    (hpath : isRecord g.oldPrefix path = true) (hagree : g.Agree st.2) :
    g.Kept st.2 (g.migrate st path).2 := by
  rcases h.migrate_eq hpath with ⟨-, heq⟩ | ⟨b, r, hread, rfl, hold, heq⟩
  · rw [heq]
    exact ⟨hagree, fun _ => Iff.rfl⟩
  · have hr := hg.readNew_write b r hread
    have hkept := h.kept_rewritten hg hr hold hagree
    rw [heq]
    refine hkept.trans ⟨fun j a b' ha hb => ?_, fun r' => ?_⟩
    · rw [hg.newAt_erase] at ha
      rw [oldAt_erase] at hb
      split_ifs at hb
      exact hkept.1 j a b' ha hb
    · rw [Holds, hg.newAt_erase, oldAt_erase, Holds]
      by_cases hid : g.id r' = g.id r
      · -- The new file has the record by now.
        have hnew : g.newAt (g.rewritten st r).2 (g.id r) = some r := by
          rw [h.newAt_rewritten hr, if_pos rfl]
          cases ha : g.newAt st.2 (g.id r) with
          | some a => rw [Option.some_or, hagree _ a r ha hold]
          | none => rfl
        rw [if_pos hid, hid, hnew, hg.oldAt_rewritten, hold]
        simp
      · rw [if_neg hid]

/-- What is under a new name stays there. -/
theorem Running.newAt_migrate (h : g.Running paths st) (hg : g.Lawful) {path : String}
    (hpath : isRecord g.oldPrefix path = true) {i : ℕ} (hr : g.newAt st.2 i = some r) :
    g.newAt (g.migrate st path).2 i = some r := by
  rcases h.migrate_eq hpath with ⟨-, heq⟩ | ⟨b, r', hread, rfl, hold, heq⟩
  · rw [heq]
    exact hr
  · rw [heq, hg.newAt_erase, h.newAt_rewritten (hg.readNew_write b r' hread), hr, Option.some_or]

theorem Running.foldl_migrate (hg : g.Lawful) (ps : List String) (h : g.Running (ps ++ paths) st)
    (hps : ∀ path ∈ ps, isRecord g.oldPrefix path = true) :
    g.Running paths (ps.foldl g.migrate st) ∧
      (g.Agree st.2 → g.Kept st.2 (ps.foldl g.migrate st).2) ∧
      ∀ i r, g.newAt st.2 i = some r → g.newAt (ps.foldl g.migrate st).2 i = some r := by
  induction ps generalizing st with
  | nil => exact ⟨h, fun hagree => ⟨hagree, fun _ => Iff.rfl⟩, fun _ _ hr => hr⟩
  | cons path ps ih =>
      have hpath := hps path List.mem_cons_self
      obtain ⟨hrun, hkept, hnew⟩ := ih (h.migrate hg hpath)
        fun path' hpath' => hps path' (List.mem_cons_of_mem _ hpath')
      refine ⟨hrun, fun hagree => ?_, fun i r hr => hnew i r (h.newAt_migrate hg hpath hr)⟩
      have hfirst := h.kept_migrate hg hpath hagree
      exact hfirst.trans (hkept hfirst.1)

theorem isRecord_of_mem {pre : String} {path : String} (h : path ∈ recordPaths dir pre) :
    isRecord pre path = true := (mem_recordPaths.1 h).2

theorem Shelved.running_load (h : g.Shelved dir) (hg : g.Lawful) : g.Running [] (g.load dir) ∧
    (g.Agree dir → g.Kept dir (g.load dir).2) ∧
      ∀ i r, g.newAt dir i = some r → g.newAt (g.load dir).2 i = some r := by
  have hrun : g.Running (recordPaths dir g.oldPrefix ++ []) (g.start dir) := by
    rw [List.append_nil]
    exact h.running
  exact hrun.foldl_migrate hg _ fun _ => isRecord_of_mem

/-- What is loaded, where the generations agree. -/
theorem Shelved.load (h : g.Shelved dir) (hg : g.Lawful) (hagree : g.Agree dir) :
    g.Shelved (g.load dir).2 ∧ g.Kept dir (g.load dir).2 ∧ ((g.load dir).1.map g.id).Nodup ∧
      ∀ r, r ∈ (g.load dir).1 ↔ g.Holds dir r := by
  obtain ⟨hrun, hkept, -⟩ := h.running_load hg
  have hkept := hkept hagree
  refine ⟨hrun.shelved, hkept, hrun.nodup, fun r => ?_⟩
  have hgone : g.oldAt (g.load dir).2 (g.id r) ≠ some r := by
    intro hold
    obtain ⟨b, hb, -⟩ := Option.bind_eq_some_iff.1 hold
    exact List.not_mem_nil
      (hrun.left (g.oldPath (g.id r)) (isRecord_recordPath _ _) (by simp [hb]))
  rw [← hkept.2 r]
  exact (hrun.out r).trans (or_iff_left hgone).symm

theorem Shelved.pass (h : g.Shelved dir) (hg : g.Lawful) (hagree : g.Agree dir) (p : Pass) :
    g.Shelved (g.pass dir p) ∧ g.Kept dir (g.pass dir p) := by
  cases p with
  | whole => exact ⟨(h.load hg hagree).1, (h.load hg hagree).2.1⟩
  | cut n rewrote =>
      set paths := recordPaths dir g.oldPrefix with hpaths
      have hbefore : g.Running (paths.take n ++ paths.drop n) (g.start dir) := by
        rw [List.take_append_drop]
        exact h.running
      obtain ⟨hrun, hkept, -⟩ := hbefore.foldl_migrate hg _
        fun path hpath => isRecord_of_mem (List.mem_of_mem_take hpath)
      have hkept := hkept hagree
      simp only [Generations.pass, ← hpaths]
      cases rewrote with
      | false => exact ⟨hrun.shelved, hkept⟩
      | true =>
          rw [if_pos rfl]
          cases hnext : paths[n]? with
          | none => exact ⟨hrun.shelved, hkept⟩
          | some path =>
              have hpath : isRecord g.oldPrefix path = true :=
                isRecord_of_mem (List.mem_of_getElem? hnext)
              simp only [Option.map_some, Option.getD_some, rewriteAt]
              cases hread : ((paths.take n).foldl g.migrate (g.start dir)).2.lookup path with
              | none => exact ⟨hrun.shelved, hkept⟩
              | some b =>
                  obtain ⟨r, hr, rfl⟩ := hrun.shelved.old path b hread hpath
                  rw [Option.bind_some, hr]
                  have hwrite := hg.readNew_write b r hr
                  have hold := Option.bind_eq_some_iff.2 ⟨b, hread, hr⟩
                  exact ⟨(hrun.rewritten hg hwrite).shelved,
                    hkept.trans (hrun.kept_rewritten hg hwrite hold hkept.1)⟩

/-- If all that is held is loaded, the generations agree. -/
theorem Shelved.agree_of_load (h : g.Shelved dir) (hg : g.Lawful)
    (hall : ∀ r, g.Holds dir r → r ∈ (g.load dir).1) : g.Agree dir := by
  intro i r r' hnew hold
  obtain ⟨hrun, -, hstays⟩ := h.running_load hg
  obtain rfl := h.id_of_newAt hnew
  have hid := h.id_of_oldAt hold
  have hlast := (hrun.out r').1 (hall r' (.inr (hid ▸ hold)))
  rw [hid, hstays _ _ hnew] at hlast
  exact Option.some.inj hlast

end

/-! ### Other files, and two kinds of records in one directory -/

section

variable {S : Type} {g' : Generations S} {path : String}

/-- Of two names of which neither begins the other, at most one begins a third. -/
theorem isRecord_of_isRecord {pre pre' : String} (h : ¬ pre.toList <+: pre'.toList)
    (h' : ¬ pre'.toList <+: pre.toList) (hpath : isRecord pre path = true) :
    isRecord pre' path = false := by
  rw [isRecord, Bool.and_eq_true, List.isPrefixOf_iff_prefix] at hpath
  rw [isRecord, Bool.and_eq_false_iff]
  left
  by_contra hpre
  rw [Bool.not_eq_false, List.isPrefixOf_iff_prefix] at hpre
  rcases Nat.le_total pre.toList.length pre'.toList.length with hle | hle
  · exact h (List.prefix_of_prefix_length_le hpath.1 hpre hle)
  · exact h' (List.prefix_of_prefix_length_le hpre hpath.1 hle)

def Owns (g : Generations R) (path : String) : Prop :=
  isRecord g.oldPrefix path = true ∨ isRecord g.newPrefix path = true

theorem lookup_rewritten (st : List R × Dir) (r : R) (hpath : ¬ g.Owns path) :
    (g.rewritten st r).2.lookup path = st.2.lookup path := by
  unfold rewritten
  split_ifs
  · rfl
  · rw [Table.lookup_insert_eq, if_neg]
    rintro rfl
    exact hpath (.inr (isRecord_recordPath _ _))

theorem lookup_foldl_migrate (ps : List String) (st : List R × Dir)
    (hps : ∀ p ∈ ps, isRecord g.oldPrefix p = true) (hpath : ¬ g.Owns path) :
    (ps.foldl g.migrate st).2.lookup path = st.2.lookup path := by
  induction ps generalizing st with
  | nil => rfl
  | cons p ps ih =>
      rw [List.foldl_cons, ih _ fun p' hp' => hps p' (List.mem_cons_of_mem _ hp')]
      unfold migrate
      split
      · rfl
      · rw [Table.lookup_erase_eq, if_neg, lookup_rewritten _ _ hpath]
        rintro rfl
        exact hpath (.inl (hps path List.mem_cons_self))

/-- A pass leaves the files of others alone. -/
theorem lookup_pass (dir : Dir) (p : Pass) (hpath : ¬ g.Owns path) :
    (g.pass dir p).lookup path = dir.lookup path := by
  cases p with
  | whole => exact lookup_foldl_migrate _ _ (fun _ => isRecord_of_mem) hpath
  | cut n rewrote =>
      have htake := lookup_foldl_migrate ((recordPaths dir g.oldPrefix).take n) (g.start dir)
        (fun p hp => isRecord_of_mem (List.mem_of_mem_take hp)) hpath
      simp only [Generations.pass]
      split_ifs
      · cases (recordPaths dir g.oldPrefix)[n]? with
        | none => exact htake
        | some path' =>
            simp only [Option.map_some, Option.getD_some, rewriteAt]
            split
            · exact htake
            · rw [lookup_rewritten _ _ hpath]
              exact htake
      · exact htake

/-- Only its own files matter. -/
theorem Shelved.congr (h : g.Shelved dir)
    (hsame : ∀ path, g.Owns path → dir'.lookup path = dir.lookup path) : g.Shelved dir' where
  new path b hb hpath := h.new path b ((hsame path (.inr hpath)).symm.trans hb) hpath
  old path b hb hpath := h.old path b ((hsame path (.inl hpath)).symm.trans hb) hpath

theorem Agree.kept (h : g.Agree dir)
    (hsame : ∀ path, g.Owns path → dir'.lookup path = dir.lookup path) : g.Kept dir dir' := by
  have hnew (i : ℕ) : g.newAt dir' i = g.newAt dir i := by
    rw [newAt, hsame (g.newPath i) (.inr (isRecord_recordPath _ i)), newAt]
  have hold (i : ℕ) : g.oldAt dir' i = g.oldAt dir i := by
    rw [oldAt, hsame (g.oldPath i) (.inl (isRecord_recordPath _ i)), oldAt]
  refine ⟨fun i r r' hr hr' => h i r r' ((hnew i).symm.trans hr) ((hold i).symm.trans hr'),
    fun r => ?_⟩
  rw [Holds, hnew, hold, Holds]

/-- A pass over the records of one kind or of the other. -/
def passOf (g : Generations R) (g' : Generations S) (dir : Dir) : Pass ⊕ Pass → Dir
  | .inl p => g.pass dir p
  | .inr p => g'.pass dir p

/-- Whatever passes there were, the records of both kinds are there. -/
theorem Shelved.passes (hg : g.Lawful) (hg' : g'.Lawful)
    (hapart : ∀ path, g.Owns path → ¬ g'.Owns path) (h : g.Shelved dir) (h' : g'.Shelved dir)
    (hagree : g.Agree dir) (hagree' : g'.Agree dir) (ps : List (Pass ⊕ Pass)) :
    (g.Shelved (ps.foldl (passOf g g') dir) ∧ g.Kept dir (ps.foldl (passOf g g') dir)) ∧
      g'.Shelved (ps.foldl (passOf g g') dir) ∧ g'.Kept dir (ps.foldl (passOf g g') dir) := by
  induction ps using List.reverseRecOn with
  | nil => exact ⟨⟨h, hagree, fun _ => Iff.rfl⟩, h', hagree', fun _ => Iff.rfl⟩
  | append_singleton ps p ih =>
      obtain ⟨⟨hs, hk⟩, hs', hk'⟩ := ih
      rw [List.foldl_append]
      cases p with
      | inl p =>
          have hsame : ∀ path, g'.Owns path →
              (g.pass (ps.foldl (passOf g g') dir) p).lookup path =
                (ps.foldl (passOf g g') dir).lookup path :=
            fun path hpath => lookup_pass _ p fun howns => hapart path howns hpath
          obtain ⟨hs₁, hk₁⟩ := hs.pass hg hk.1 p
          exact ⟨⟨hs₁, hk.trans hk₁⟩, hs'.congr hsame, hk'.trans (hk'.1.kept hsame)⟩
      | inr p =>
          have hsame : ∀ path, g.Owns path →
              (g'.pass (ps.foldl (passOf g g') dir) p).lookup path =
                (ps.foldl (passOf g g') dir).lookup path :=
            fun path hpath => lookup_pass _ p fun howns => hapart path hpath howns
          obtain ⟨hs₁, hk₁⟩ := hs'.pass hg' hk'.1 p
          exact ⟨⟨hs.congr hsame, hk.trans (hk.1.kept hsame)⟩, hs₁, hk'.trans hk₁⟩

end

/-! ### What was written -/

section

variable {W : Type} {ws : List W} {path : W → String} {bytes : W → List UInt8} {rec : W → R}

/-- The file is one of this record, in one of the generations. -/
def Written (g : Generations R) (path : String) (b : List UInt8) (r : R) : Prop :=
  (path = g.newPath (g.id r) ∧ g.readNew b = some r) ∨
    (path = g.oldPath (g.id r) ∧ g.readOld b = some r)

theorem Written.owns {p : String} {b : List UInt8} {r : R} (h : g.Written p b r) : g.Owns p := by
  rcases h with ⟨rfl, -⟩ | ⟨rfl, -⟩
  · exact .inr (isRecord_recordPath _ _)
  · exact .inl (isRecord_recordPath _ _)

/-- The files of a kind are those that were written. -/
structure Stored (g : Generations R) (dir : Dir) (ws : List W) (path : W → String)
    (bytes : W → List UInt8) (rec : W → R) : Prop where
  lookup_iff : ∀ p b, g.Owns p → (dir.lookup p = some b ↔ ∃ w ∈ ws, path w = p ∧ bytes w = b)
  written : ∀ w ∈ ws, g.Written (path w) (bytes w) (rec w)

theorem Stored.lookup (h : g.Stored dir ws path bytes rec) {w : W} (hw : w ∈ ws) :
    dir.lookup (path w) = some (bytes w) :=
  (h.lookup_iff _ _ (h.written w hw).owns).2 ⟨w, hw, rfl, rfl⟩

theorem Stored.shelved (h : g.Stored dir ws path bytes rec) (hg : g.Lawful) : g.Shelved dir where
  new p b hb hp := by
    obtain ⟨w, hw, rfl, rfl⟩ := (h.lookup_iff p b (.inr hp)).1 hb
    rcases h.written w hw with ⟨hpath, hread⟩ | ⟨hpath, -⟩
    · exact ⟨rec w, hread, hpath⟩
    · rw [hpath, hg.old_not_new] at hp
      exact Bool.noConfusion hp
  old p b hb hp := by
    obtain ⟨w, hw, rfl, rfl⟩ := (h.lookup_iff p b (.inl hp)).1 hb
    rcases h.written w hw with ⟨hpath, -⟩ | ⟨hpath, hread⟩
    · rw [hpath, hg.new_not_old] at hp
      exact Bool.noConfusion hp
    · exact ⟨rec w, hread, hpath⟩

theorem Stored.holds_iff (h : g.Stored dir ws path bytes rec) (hg : g.Lawful) (r : R) :
    g.Holds dir r ↔ ∃ w ∈ ws, rec w = r := by
  constructor
  · rintro (hnew | hold)
    · obtain ⟨b, hb, hread⟩ := Option.bind_eq_some_iff.1 hnew
      have howns : g.Owns (g.newPath (g.id r)) := .inr (isRecord_recordPath _ _)
      obtain ⟨w, hw, hpath, rfl⟩ := (h.lookup_iff _ b howns).1 hb
      refine ⟨w, hw, ?_⟩
      rcases h.written w hw with ⟨-, hread'⟩ | ⟨hpath', -⟩
      · exact Option.some.inj (hread'.symm.trans hread)
      · exact absurd (hpath.symm.trans hpath') (hg.newPath_ne_oldPath _ _)
    · obtain ⟨b, hb, hread⟩ := Option.bind_eq_some_iff.1 hold
      have howns : g.Owns (g.oldPath (g.id r)) := .inl (isRecord_recordPath _ _)
      obtain ⟨w, hw, hpath, rfl⟩ := (h.lookup_iff _ b howns).1 hb
      refine ⟨w, hw, ?_⟩
      rcases h.written w hw with ⟨hpath', -⟩ | ⟨-, hread'⟩
      · exact absurd (hpath'.symm.trans hpath) (hg.newPath_ne_oldPath _ _)
      · exact Option.some.inj (hread'.symm.trans hread)
  · rintro ⟨w, hw, rfl⟩
    have hlookup := h.lookup hw
    rcases h.written w hw with ⟨hpath, hread⟩ | ⟨hpath, hread⟩
    · exact .inl (Option.bind_eq_some_iff.2 ⟨_, hpath ▸ hlookup, hread⟩)
    · exact .inr (Option.bind_eq_some_iff.2 ⟨_, hpath ▸ hlookup, hread⟩)

/-- The generations agree if what was written under one id was one record. -/
theorem Stored.agree_iff (h : g.Stored dir ws path bytes rec) (hg : g.Lawful) :
    g.Agree dir ↔ ∀ w ∈ ws, ∀ w' ∈ ws, g.id (rec w) = g.id (rec w') → rec w = rec w' := by
  constructor
  · intro hagree w hw w' hw' hid
    have hlookup := h.lookup hw
    have hlookup' := h.lookup hw'
    rcases h.written w hw with ⟨hpath, hread⟩ | ⟨hpath, hread⟩ <;>
      rcases h.written w' hw' with ⟨hpath', hread'⟩ | ⟨hpath', hread'⟩
    · rw [hpath, hid, ← hpath', hlookup'] at hlookup
      rw [Option.some.inj hlookup] at hread'
      exact Option.some.inj (hread.symm.trans hread')
    · exact hagree (g.id (rec w)) _ _ (Option.bind_eq_some_iff.2 ⟨_, hpath ▸ hlookup, hread⟩)
        (Option.bind_eq_some_iff.2 ⟨_, by rw [hid, ← hpath', hlookup'], hread'⟩)
    · exact (hagree (g.id (rec w)) _ _
        (Option.bind_eq_some_iff.2 ⟨_, by rw [hid, ← hpath', hlookup'], hread'⟩)
        (Option.bind_eq_some_iff.2 ⟨_, hpath ▸ hlookup, hread⟩)).symm
    · rw [hpath, hid, ← hpath', hlookup'] at hlookup
      rw [Option.some.inj hlookup] at hread'
      exact Option.some.inj (hread.symm.trans hread')
  · intro hone i r r' hnew hold
    have hshelved := h.shelved hg
    obtain rfl := hshelved.id_of_newAt hnew
    have hid := hshelved.id_of_oldAt hold
    obtain ⟨w, hw, rfl⟩ := (h.holds_iff hg r).1 (.inl hnew)
    obtain ⟨w', hw', rfl⟩ := (h.holds_iff hg r').1 (.inr (hid ▸ hold))
    exact hone w hw w' hw' hid.symm

end

end Generations

end Lib
