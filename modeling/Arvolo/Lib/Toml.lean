import Mathlib

/-!
What a TOML document says, from its lines.

The document is scanned line by line: a line ends a statement or leaves one open. The statements
are assignments and table headers; comments and blank lines say nothing. An assignment to a bare
key before the first header makes an entry of the root that nothing later may touch. Dotted keys
and headers build tables, each below one entry of the root; how they do that is left open.
-/

namespace Lib

namespace Toml

open Std (ExtTreeMap)

inductive Stmt (V : Type)
  /-- Nothing, or a comment. -/
  | blank
  /-- `key.rest = v` -/
  | assign (key : String) (rest : List String) (v : V)
  /-- `[key.rest]`, or `[[key.rest]]` -/
  | header (key : String) (rest : List String) (array : Bool)

/-- How tables are built below an entry of the root. -/
structure Tables (V E : Type) where
  value : E → V
  /-- A dotted key of the root. -/
  dotted : Option E → List String → V → Option E
  header : Option E → List String → Bool → Option E
  /-- An assignment below a header. -/
  under : E → List String → List String → V → Option E

/-- The root as it is read so far, and the header that is in force. -/
structure Root (V E : Type) where
  entries : ExtTreeMap String (V ⊕ E) := ∅
  inside : Option (String × List String) := none

variable {V E : Type} (tables : Tables V E)

/-- What a table is built on: nothing or another table, and never a value. -/
def Root.held (root : Root V E) (key : String) : Option (Option E) :=
  match root.entries[key]? with
  | none => some none
  | some (.inr e) => some (some e)
  | some (.inl _) => none

def Root.put (root : Root V E) (key : String) (entry : V ⊕ E) : Root V E :=
  { root with entries := root.entries.insert key entry }

def step (root : Root V E) : Stmt V → Option (Root V E)
  | .blank => some root
  | .assign key rest v =>
      match root.inside with
      | some (top, path) => do
          let e ← (← root.held top)
          return root.put top (.inr (← tables.under e path (key :: rest) v))
      | none =>
          if rest = [] then
            if key ∈ root.entries then none else some (root.put key (.inl v))
          else do
            return root.put key (.inr (← tables.dotted (← root.held key) rest v))
  | .header key rest array => do
      let e ← tables.header (← root.held key) rest array
      return { root.put key (.inr e) with inside := some (key, rest) }

def run (stmts : List (Stmt V)) : Option (Root V E) := stmts.foldlM (step tables) {}

/-- The top-level table. -/
def Root.table (root : Root V E) : ExtTreeMap String V :=
  root.entries.map fun _ entry => entry.elim id tables.value

def Stmt.isHeader : Stmt V → Bool
  | header _ _ _ => true
  | blank | assign _ _ _ => false

/-! ### From lines to statements -/

/-- What one line makes of the statement that is open: it goes on below, or is complete. -/
structure Scanner (V : Type) where
  Open : Type
  line : Option Open → String → Option (Open ⊕ Stmt V)

def Scanner.scan (sc : Scanner V) : Option sc.Open → List String → Option (List (Stmt V))
  | none, [] => some []
  | some _, [] => none
  | o, l :: rest =>
      match sc.line o l with
      | none => none
      | some (.inl o') => sc.scan (some o') rest
      | some (.inr s) => (s :: ·) <$> sc.scan none rest

section

variable {sc : Scanner V} {a b : List String} {s : List (Stmt V)}

/-- Complete statements are read by themselves. -/
theorem Scanner.scan_append {o : Option sc.Open} (ha : sc.scan o a = some s) :
    sc.scan o (a ++ b) = (s ++ ·) <$> sc.scan none b := by
  induction a generalizing o s with
  | nil =>
      cases o with
      | none =>
          obtain rfl := Option.some.inj ha
          simp
      | some o => cases ha
  | cons l a ih =>
      rw [List.cons_append, Scanner.scan]
      rw [Scanner.scan] at ha
      split at ha
      next => cases ha
      next o' hl => rw [ih ha]
      next st hl =>
        obtain ⟨s', hs', rfl⟩ := Option.map_eq_some_iff.1 ha
        rw [ih hs', Option.map_eq_map, Option.map_eq_map, Option.map_eq_map, Option.map_map]
        rfl

theorem Scanner.scan_singleton {l : String} {st : Stmt V} (h : sc.line none l = some (.inr st)) :
    sc.scan none [l] = some [st] := by
  rw [Scanner.scan, h]
  rfl

/-- A carriage return, where no line has one. -/
theorem Scanner.notMem_of_scan {c : Char}
    (hc : ∀ o l, (sc.line o l).isSome → c ∉ l.toList) {o : Option sc.Open}
    (h : sc.scan o a = some s) : ∀ l ∈ a, c ∉ l.toList := by
  induction a generalizing o s with
  | nil => simp
  | cons l a ih =>
      rw [Scanner.scan] at h
      rw [List.forall_mem_cons]
      split at h
      next => cases h
      next o' hl => exact ⟨hc o l (by rw [hl]; rfl), ih h⟩
      next st hl =>
        obtain ⟨s', hs', -⟩ := Option.map_eq_some_iff.1 h
        exact ⟨hc o l (by rw [hl]; rfl), ih hs'⟩

end

/-! ### A value that is set is not touched again -/

/-- A change of the entry `key` and of nothing else. -/
structure Elsewhere (key : String) (F : Root V E → Root V E) : Prop where
  inside : ∀ root, (F root).inside = root.inside
  getElem? : ∀ root k, k ≠ key → (F root).entries[k]? = root.entries[k]?
  put : ∀ root k entry, k ≠ key → F (root.put k entry) = (F root).put k entry
  enter : ∀ (root : Root V E) i, F { root with inside := i } = { F root with inside := i }

theorem elsewhere_put (key : String) (entry : V ⊕ E) :
    Elsewhere key fun root : Root V E => root.put key entry where
  inside _ := rfl
  getElem? root k hk := by simp [Root.put, ExtTreeMap.getElem?_insert, hk.symm]
  put root k entry' hk := by
    simp only [Root.put, Root.mk.injEq, and_true]
    ext k' : 1
    simp only [ExtTreeMap.getElem?_insert, Std.compare_eq_iff_eq]
    grind
  enter _ _ := rfl

theorem elsewhere_erase (key : String) :
    Elsewhere key fun root : Root V E => { root with entries := root.entries.erase key } where
  inside _ := rfl
  getElem? root k hk := by simp [ExtTreeMap.getElem?_erase, hk.symm]
  put root k entry' hk := by
    simp only [Root.put, Root.mk.injEq, and_true]
    ext k' : 1
    simp only [ExtTreeMap.getElem?_insert, ExtTreeMap.getElem?_erase, Std.compare_eq_iff_eq]
    grind
  enter _ _ := rfl

section

variable {tables} {key : String} {F : Root V E → Root V E} (hF : Elsewhere key F)
  {root root' : Root V E} {w : V}

include hF

theorem Elsewhere.held {k : String} (hk : k ≠ key) : (F root).held k = root.held k := by
  rw [Root.held, Root.held, hF.getElem? root k hk]

/-- What has a value is left alone by every statement that is read, and no statement sees it. -/
theorem step_elsewhere (hw : root.entries[key]? = some (.inl w)) {s : Stmt V}
    (h : step tables root s = some root') :
    root'.entries[key]? = some (.inl w) ∧ step tables (F root) s = some (F root') := by
  have hheld {k : String} {e : Option E} (hk : root.held k = some e) : k ≠ key := by
    rintro rfl
    simp [Root.held, hw] at hk
  have hput {k : String} (entry : V ⊕ E) (hk : k ≠ key) :
      (root.put k entry).entries[key]? = some (.inl w) := by
    simp [Root.put, ExtTreeMap.getElem?_insert, hk, hw]
  cases s with
  | blank =>
      obtain rfl := Option.some.inj h
      exact ⟨hw, rfl⟩
  | assign k rest v =>
      simp only [step, hF.inside] at h ⊢
      split at h
      next top path _ =>
        simp only [Option.bind_eq_bind, Option.bind_eq_some_iff, Option.pure_def,
          Option.some.injEq] at h
        obtain ⟨held, hheld', e, rfl, e', hunder, rfl⟩ := h
        have hk := hheld hheld'
        refine ⟨hput _ hk, ?_⟩
        simp [hF.held hk, hheld', hunder, hF.put _ _ _ hk]
      next =>
        split at h
        next hrest =>
          split at h
          next => cases h
          next hmem =>
            obtain rfl := Option.some.inj h
            have hk : k ≠ key := by
              rintro rfl
              simp [← ExtTreeMap.isSome_getElem?_iff_mem, hw] at hmem
            have hmem' : k ∉ (F root).entries := by
              rwa [← ExtTreeMap.isSome_getElem?_iff_mem, hF.getElem? root k hk,
                ExtTreeMap.isSome_getElem?_iff_mem]
            exact ⟨hput _ hk, by simp [hrest, hmem', hF.put _ _ _ hk]⟩
        next hrest =>
          simp only [Option.bind_eq_bind, Option.bind_eq_some_iff, Option.pure_def,
            Option.some.injEq] at h
          obtain ⟨held, hheld', e, hdotted, rfl⟩ := h
          have hk := hheld hheld'
          exact ⟨hput _ hk, by simp [hrest, hF.held hk, hheld', hdotted, hF.put _ _ _ hk]⟩
  | header k rest array =>
      simp only [step, Option.bind_eq_bind, Option.bind_eq_some_iff, Option.pure_def,
        Option.some.injEq] at h ⊢
      obtain ⟨held, hheld', e, hheader, rfl⟩ := h
      have hk := hheld hheld'
      exact ⟨hput _ hk, held, by rw [hF.held hk, hheld'], e, hheader,
        by rw [hF.enter (root.put k (.inr e)), hF.put _ _ _ hk]⟩

theorem foldlM_elsewhere (stmts : List (Stmt V)) (hw : root.entries[key]? = some (.inl w))
    (h : stmts.foldlM (step tables) root = some root') :
    root'.entries[key]? = some (.inl w) ∧
      stmts.foldlM (step tables) (F root) = some (F root') := by
  induction stmts generalizing root with
  | nil =>
      obtain rfl := Option.some.inj h
      exact ⟨hw, rfl⟩
  | cons s stmts ih =>
      simp only [List.foldlM_cons, Option.bind_eq_bind, Option.bind_eq_some_iff] at h ⊢
      obtain ⟨mid, hs, hrest⟩ := h
      obtain ⟨hw', hs'⟩ := step_elsewhere hF hw hs
      obtain ⟨hw'', hrest'⟩ := ih hw' hrest
      exact ⟨hw'', F mid, hs', hrest'⟩

end

/-! ### An assignment among the statements -/

section

variable {tables} {key : String} {v : V} {pre post : List (Stmt V)} {root mid : Root V E}

theorem inside_of_step {s : Stmt V} (hs : s.isHeader = false) (h : step tables root s = some mid) :
    mid.inside = root.inside := by
  cases s with
  | blank =>
      obtain rfl := Option.some.inj h
      rfl
  | assign k rest v =>
      simp only [step] at h
      split at h
      next =>
        simp only [Option.bind_eq_bind, Option.bind_eq_some_iff, Option.pure_def,
          Option.some.injEq] at h
        obtain ⟨-, -, -, -, -, -, rfl⟩ := h
        rfl
      next =>
        split at h
        next =>
          obtain ⟨-, hmid⟩ := Option.ite_none_left_eq_some.1 h
          obtain rfl := Option.some.inj hmid
          rfl
        next =>
          simp only [Option.bind_eq_bind, Option.bind_eq_some_iff, Option.pure_def,
            Option.some.injEq] at h
          obtain ⟨-, -, -, -, rfl⟩ := h
          rfl
  | header k rest array => cases hs

theorem inside_of_foldlM (hpre : ∀ s ∈ pre, s.isHeader = false)
    (h : pre.foldlM (step tables) root = some mid) : mid.inside = root.inside := by
  induction pre generalizing root with
  | nil =>
      obtain rfl := Option.some.inj h
      rfl
  | cons s pre ih =>
      simp only [List.foldlM_cons, Option.bind_eq_bind, Option.bind_eq_some_iff] at h
      rw [List.forall_mem_cons] at hpre
      obtain ⟨next, hs, hrest⟩ := h
      rw [ih hpre.2 hrest, inside_of_step hpre.1 hs]

/-- An assignment in the root before any header: without it the document says the same but for
the key, and with another one too. -/
theorem run_assign (hpre : ∀ s ∈ pre, s.isHeader = false)
    (h : run tables (pre ++ .assign key [] v :: post) = some root) :
    root.entries[key]? = some (.inl v) ∧
      run tables (pre ++ post) = some { root with entries := root.entries.erase key } ∧
      ∀ w, run tables (pre ++ .assign key [] w :: post) = some (root.put key (.inl w)) := by
  simp only [run, List.foldlM_append, List.foldlM_cons, Option.bind_eq_bind,
    Option.bind_eq_some_iff] at h ⊢
  obtain ⟨mid, hmid, next, hstep, hpost⟩ := h
  have hin : mid.inside = none := inside_of_foldlM hpre hmid
  have hset (w : V) : step tables mid (.assign key [] w) =
      if key ∈ mid.entries then none else some (mid.put key (.inl w)) := by
    simp only [step, hin, if_true]
  rw [hset] at hstep
  split at hstep
  next => cases hstep
  next hkey =>
    obtain rfl := Option.some.inj hstep
    have hset' (w : V) : (mid.put key (.inl w)).entries[key]? = some (.inl w) := by
      simp [Root.put]
    have hput (w : V) : (mid.put key (.inl v)).put key (.inl w) = mid.put key (.inl w) := by
      simp only [Root.put, Root.mk.injEq, and_true]
      ext k : 1
      simp only [ExtTreeMap.getElem?_insert]
      split <;> rfl
    have herase : ({ mid.put key (.inl v) with entries := (mid.put key (.inl v)).entries.erase key } :
        Root V E) = mid := by
      simp only [Root.put]
      congr 1
      ext k : 1
      simp only [ExtTreeMap.getElem?_erase, ExtTreeMap.getElem?_insert, Std.compare_eq_iff_eq]
      split
      next hk => rw [← hk, ExtTreeMap.getElem?_eq_none hkey]
      next => rfl
    obtain ⟨hroot, herased⟩ := foldlM_elsewhere (elsewhere_erase key) post (hset' v) hpost
    refine ⟨hroot, ⟨mid, hmid, by rwa [herase] at herased⟩, fun w =>
      ⟨mid, hmid, mid.put key (.inl w), ?_, ?_⟩⟩
    · rw [hset, if_neg hkey]
    · rw [← hput w]
      exact (foldlM_elsewhere (elsewhere_put key (.inl w)) post (hset' v) hpost).2

end

section

variable (root : Root V E) (key : String)

theorem table_put (v : V) : (root.put key (.inl v)).table tables = (root.table tables).insert key v := by
  ext k : 1
  simp only [Root.table, Root.put, ExtTreeMap.getElem?_map, ExtTreeMap.getElem?_insert]
  split <;> rfl

theorem table_erase :
    ({ root with entries := root.entries.erase key } : Root V E).table tables =
      (root.table tables).erase key := by
  ext k : 1
  simp only [Root.table, ExtTreeMap.getElem?_map, ExtTreeMap.getElem?_erase]
  split <;> rfl

end

end Toml

end Lib
