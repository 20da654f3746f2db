import Arvolo.Lib.Sort
import Arvolo.Lib.Utf8

/-!
Names and paths as `core/src/flow/archive.rs` handles them.

A path is its components, which is what `PathBuf` compares. A name in a directory is
bytes; in an archive it is a text, and bytes that are none are replaced on the way.
-/

namespace Arvolo.Archive

open Lib

/-! ### Names -/

def slash : UInt8 := 0x2F

def dot : UInt8 := 0x2E

def IsName (b : List UInt8) : Prop := b ≠ [] ∧ slash ∉ b ∧ b ≠ [dot] ∧ b ≠ [dot, dot]

instance : DecidablePred IsName := fun _ => inferInstanceAs (Decidable (_ ∧ _ ∧ _ ∧ _))

/-- What a directory lists; `read_dir` leaves `.` and `..` out. -/
structure OsName where
  bytes : List UInt8
  isName : IsName bytes
  deriving DecidableEq

def OsName.rank (n : OsName) : List ℕ := n.bytes.map UInt8.toNat

theorem OsName.rank_injective : Function.Injective OsName.rank := by
  intro a b h
  have hbytes : a.bytes = b.bytes := List.map_injective_iff.2 (fun _ _ => UInt8.toNat_inj.1) h
  cases a
  cases b
  congr

instance : LinearOrder OsName := LinearOrder.lift' OsName.rank OsName.rank_injective

/-- `to_string_lossy`. -/
def OsName.lossy (n : OsName) : String := String.ofList (Lib.lossy n.bytes)

/-- A text that can name something in a directory. -/
def Plain (s : String) : Prop := s ≠ "" ∧ '/' ∉ s.toList ∧ s ≠ "." ∧ s ≠ ".."

instance : DecidablePred Plain := fun _ => inferInstanceAs (Decidable (_ ∧ _ ∧ _ ∧ _))

theorem bytes_eq_of_lossy {n : OsName} {s : String} (h : n.lossy = s) (hs : '\uFFFD' ∉ s.toList) :
    n.bytes = utf8 s.toList := by
  subst h
  rw [OsName.lossy, String.toList_ofList] at hs ⊢
  exact (utf8_decodeLossy le_rfl hs).symm

theorem OsName.plain_lossy (n : OsName) : Plain n.lossy := by
  obtain ⟨hne, hslash, hdot, hdots⟩ := n.isName
  refine ⟨fun h => ?_, fun h => ?_, fun h => ?_, fun h => ?_⟩
  · exact hne (bytes_eq_of_lossy h (by decide))
  · rw [OsName.lossy, String.toList_ofList] at h
    have hmem : slash ∈ String.utf8EncodeChar '/' := by decide
    exact hslash (mem_of_mem_decodeLossy h (by decide) hmem)
  · exact hdot (bytes_eq_of_lossy h (by decide))
  · exact hdots (bytes_eq_of_lossy h (by decide))

/-! ### Paths -/

/-- `std::path::Component`. -/
inductive Component (α : Type)
  | rootDir
  | curDir
  | parentDir
  | normal (name : α)
  deriving DecidableEq

namespace Component

/-- The order of the variants, then that of the names. -/
def rank : Component OsName → List ℕ
  | rootDir => [0]
  | curDir => [1]
  | parentDir => [2]
  | normal n => 3 :: n.rank

theorem rank_injective : Function.Injective rank := by
  intro a b h
  cases a <;> cases b <;> simp only [rank, List.cons.injEq] at h <;>
    first
    | rfl
    | exact congrArg normal (OsName.rank_injective h.2)
    | (exfalso; omega)

instance : LinearOrder (Component OsName) := LinearOrder.lift' rank rank_injective

def name? {α : Type} : Component α → Option α
  | normal n => some n
  | _ => none

end Component

abbrev PathBuf := List (Component OsName)

namespace PathBuf

/-- `Path::join` of a name. -/
def join (p : PathBuf) (n : OsName) : PathBuf := p ++ [.normal n]

def joins (p : PathBuf) (ns : List OsName) : PathBuf := p ++ ns.map .normal

theorem join_joins (p : PathBuf) (n : OsName) (ns : List OsName) :
    (p.join n).joins ns = p.joins (n :: ns) := by
  simp [join, joins]

theorem joins_nil (p : PathBuf) : p.joins [] = p := List.append_nil p

/-- `Path::file_name`. -/
def fileName (p : PathBuf) : Option OsName := p.getLast?.bind Component.name?

/-- The name of an input inside the archive. -/
def base (p : PathBuf) : String :=
  match p.fileName with
  | some n => n.lossy
  | none => "file"

theorem plain_base (p : PathBuf) : Plain p.base := by
  unfold base
  cases p.fileName with
  | none => decide
  | some n => exact n.plain_lossy

end PathBuf

/-! ### Names in an archive -/

/-- `format!("{prefix}/{}", …)`. -/
def child (pre : String) (n : OsName) : String := pre ++ "/" ++ n.lossy

/-- Names with slashes between them. -/
def text : List String → String
  | [] => ""
  | k :: ks => ks.foldl (fun s k => s ++ "/" ++ k) k

theorem text_concat {names : List String} (h : names ≠ []) (k : String) :
    text (names ++ [k]) = text names ++ "/" ++ k := by
  cases names with
  | nil => exact absurd rfl h
  | cons k' ks => exact List.foldl_concat ..

theorem child_text {names : List String} (h : names ≠ []) (n : OsName) :
    child (text names) n = text (names ++ [n.lossy]) := (text_concat h n.lossy).symm

theorem text_lt {names : List String} (h : names ≠ []) (k : String) :
    text names < text (names ++ [k]) := by
  have happend : ∀ (l m : List Char), m ≠ [] → l < l ++ m := by
    intro l m hm
    induction l with
    | nil =>
        cases m with
        | nil => exact absurd rfl hm
        | cons d m => exact List.nil_lt_cons d m
    | cons c l ih => exact List.cons_lt_cons_self.2 ih
  rw [String.lt_iff_toList_lt, text_concat h, String.append_assoc, String.toList_append]
  exact happend _ _ (by simp)

/-- One piece between two separators, behind the first. -/
def piece (cs : List Char) : Option (Component String) :=
  if cs = [] ∨ cs = ['.'] then none
  else if cs = ['.', '.'] then some .parentDir
  else some (.normal (String.ofList cs))

/-- `Path::components`. -/
def components (path : String) : List (Component String) :=
  match path.toList.splitOn '/' with
  | [] => []
  | first :: rest =>
      (if first = [] then (if rest = [] then [] else [.rootDir])
        else if first = ['.'] then [.curDir]
        else (piece first).toList) ++ rest.filterMap piece

/-- The names that an entry's path leads through. -/
def parts (path : String) : List String := (components path).filterMap Component.name?

theorem piece_of_plain {s : String} (h : Plain s) : piece s.toList = some (.normal s) := by
  obtain ⟨hne, -, hdot, hdots⟩ := h
  have hempty : s.toList ≠ [] := fun h => hne (String.toList_inj.1 h)
  have hone : s.toList ≠ ['.'] := fun h => hdot (String.toList_inj.1 h)
  have htwo : s.toList ≠ ['.', '.'] := fun h => hdots (String.toList_inj.1 h)
  rw [piece, if_neg (not_or.2 ⟨hempty, hone⟩), if_neg htwo, String.ofList_toList]

theorem split_text {names : List String} (hne : names ≠ []) (h : ∀ k ∈ names, Plain k) :
    (text names).toList.splitOn '/' = names.map String.toList := by
  induction names using List.reverseRecOn with
  | nil => exact absurd rfl hne
  | append_singleton names k ih =>
      have hk : k.toList.splitOn '/' = [k.toList] :=
        List.splitOn_eq_singleton (h k (by simp)).2.1
      by_cases hnames : names = []
      · subst hnames
        exact hk
      · have hbefore := ih hnames fun k' hk' => h k' (List.mem_append_left _ hk')
        rw [text_concat hnames, String.append_assoc, String.toList_append, String.toList_append]
        show ((text names).toList ++ '/' :: k.toList).splitOn '/' = _
        rw [List.splitOn_append_cons_self, hbefore, hk, List.map_append]
        rfl

theorem components_of_split {path : String} {names : List String} {rest : List (List Char)}
    (hne : names ≠ []) (h : ∀ k ∈ names, Plain k) (hrest : rest.filterMap piece = [])
    (hpath : path.toList.splitOn '/' = names.map String.toList ++ rest) :
    components path = names.map .normal := by
  cases names with
  | nil => exact absurd rfl hne
  | cons k ks =>
      have hk := h k List.mem_cons_self
      have hempty : k.toList ≠ [] := fun h => hk.1 (String.toList_inj.1 h)
      have hone : k.toList ≠ ['.'] := fun h => hk.2.2.1 (String.toList_inj.1 h)
      have hks : (ks.map String.toList).filterMap piece = ks.map .normal := by
        rw [List.filterMap_map, ← List.filterMap_eq_map]
        exact List.filterMap_congr fun k' hk' => piece_of_plain (h k' (List.mem_cons_of_mem k hk'))
      unfold components
      rw [hpath]
      simp only [List.map_cons, List.cons_append]
      rw [if_neg hempty, if_neg hone, piece_of_plain hk, List.filterMap_append, hks, hrest,
        List.append_nil]
      rfl

/-- A file is archived under its names, a directory under its names and a slash. Either
way leads through the names. -/
theorem components_text {names : List String} (hne : names ≠ []) (h : ∀ k ∈ names, Plain k) :
    components (text names) = names.map .normal ∧
      components (text names ++ "/") = names.map .normal := by
  have hfile : ([] : List (List Char)).filterMap piece = [] := rfl
  have hdir : [([] : List Char)].filterMap piece = [] := rfl
  have hsplit := split_text hne h
  refine ⟨components_of_split hne h hfile ?_, components_of_split hne h hdir ?_⟩
  · rw [List.append_nil, hsplit]
  · rw [String.toList_append]
    show ((text names).toList ++ '/' :: []).splitOn '/' = _
    rw [List.splitOn_append_cons_self, hsplit]
    rfl

theorem filterMap_name?_normal {α : Type} (names : List α) :
    (names.map Component.normal).filterMap Component.name? = names := by
  induction names with
  | nil => rfl
  | cons n names ih =>
      have hn : (Component.normal n).name? = some n := rfl
      rw [List.map_cons, List.filterMap_cons_some hn, ih]

theorem parts_text {names : List String} (hne : names ≠ []) (h : ∀ k ∈ names, Plain k) :
    parts (text names) = names ∧ parts (text names ++ "/") = names := by
  obtain ⟨hfile, hdir⟩ := components_text hne h
  rw [parts, parts, hfile, hdir, filterMap_name?_normal]
  exact ⟨rfl, rfl⟩

/-- The names an archive name was made of can be read off it. -/
theorem text_inj {names names' : List String} (hne : names ≠ []) (hne' : names' ≠ [])
    (h : ∀ k ∈ names, Plain k) (h' : ∀ k ∈ names', Plain k)
    (heq : text names = text names') : names = names' := by
  rw [← (parts_text hne h).1, heq, (parts_text hne' h').1]

end Arvolo.Archive
