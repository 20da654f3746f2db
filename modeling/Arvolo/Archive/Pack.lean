import Arvolo.Archive.Names
import Arvolo.Lib.Gather

/-!
Packing files and directories into one archive, `pack_tar` of
`core/src/flow/archive.rs`.

The tar format is a parameter. What is packed is read off a file system that nothing
changes meanwhile.
-/

namespace Arvolo.Archive

open Lib

/-! ### What is packed -/

inductive FileType
  | dir
  | file
  | other
  deriving DecidableEq

structure FileSystem where
  /-- `std::fs::metadata`, which follows links. -/
  metadata : PathBuf → Option FileType
  /-- `std::fs::read_dir`, in the order of the system; an entry it fails on is `none`. -/
  readDir : PathBuf → Option (List (Option OsName))
  /-- `std::fs::File::open`, and what is read there. -/
  contents : PathBuf → Option (List UInt8)
  /-- The longest path the system takes. A link to a directory above itself makes paths
  without end, and this is what ends them. -/
  pathMax : ℕ
  length_le {p : PathBuf} : metadata p ≠ none → p.length ≤ pathMax

namespace FileSystem

variable (fs : FileSystem)

def isDir (p : PathBuf) : Bool := fs.metadata p == some .dir

/-- The names that could be read, sorted. -/
def entries (listing : List (Option OsName)) : List OsName := sort (listing.filterMap id)

end FileSystem

/-! ### The archive -/

/-- `tar::EntryType`, of those told apart. -/
inductive EntryType
  | regular
  | link
  | symlink
  | directory
  | other (typeflag : UInt8)
  deriving DecidableEq

structure Header where
  entryType : EntryType
  size : ℕ
  mode : ℕ
  mtime : ℕ
  uid : ℕ
  gid : ℕ
  deriving DecidableEq

structure Entry where
  header : Header
  path : String
  data : List UInt8
  deriving DecidableEq

def dirEntry (d : String) : Entry where
  header := ⟨.directory, 0, 0o755, 0, 0, 0⟩
  path := d ++ "/"
  data := []

def fileEntry (name : String) (data : List UInt8) : Entry where
  header := ⟨.regular, data.length, 0o644, 0, 0, 0⟩
  path := name
  data := data

/-! ### Collecting -/

inductive PackError
  | readDir (dir : PathBuf)
  | open_ (src : PathBuf)
  deriving DecidableEq

def Component.text : Component OsName → String
  | .rootDir => ""
  | .curDir => "."
  | .parentDir => ".."
  | .normal n => n.lossy

/-- `Path::display`. -/
def PathBuf.display (p : PathBuf) : String :=
  if p = [.rootDir] then "/" else "/".intercalate (p.map Component.text)

def PackError.context : PackError → String
  | readDir dir => "read dir " ++ dir.display
  | open_ src => "open " ++ src.display

/-- The two vectors that the collectors push to. -/
@[ext]
structure Collected where
  files : List (String × PathBuf)
  dirs : List String
  deriving DecidableEq

namespace Collected

def pushFile (c : Collected) (name : String) (path : PathBuf) : Collected :=
  { c with files := c.files ++ [(name, path)] }

def pushDir (c : Collected) (name : String) : Collected := { c with dirs := c.dirs ++ [name] }

instance : Add Collected := ⟨fun a b => ⟨a.files ++ b.files, a.dirs ++ b.dirs⟩⟩

instance : Zero Collected := ⟨⟨[], []⟩⟩

@[simp]
theorem files_add (a b : Collected) : (a + b).files = a.files ++ b.files := rfl

@[simp]
theorem dirs_add (a b : Collected) : (a + b).dirs = a.dirs ++ b.dirs := rfl

@[simp]
theorem files_zero : (0 : Collected).files = [] := rfl

@[simp]
theorem dirs_zero : (0 : Collected).dirs = [] := rfl

instance : AddMonoid Collected where
  add_assoc a b c := by ext1 <;> simp
  zero_add a := by ext1 <;> simp
  add_zero a := by ext1 <;> simp
  nsmul := nsmulRec

theorem pushFile_eq (c : Collected) (name : String) (path : PathBuf) :
    c.pushFile name path = c + ⟨[(name, path)], []⟩ := by
  ext1 <;> simp [pushFile]

theorem pushDir_eq (c : Collected) (name : String) : c.pushDir name = c + ⟨[], [name]⟩ := by
  ext1 <;> simp [pushDir]

theorem files_sum {α : Type} (g : α → Collected) (xs : List α) :
    (xs.map g).sum.files = xs.flatMap fun x => (g x).files := by
  induction xs with
  | nil => rfl
  | cons x xs ih => rw [List.map_cons, List.sum_cons, files_add, ih, List.flatMap_cons]

theorem dirs_sum {α : Type} (g : α → Collected) (xs : List α) :
    (xs.map g).sum.dirs = xs.flatMap fun x => (g x).dirs := by
  induction xs with
  | nil => rfl
  | cons x xs ih => rw [List.map_cons, List.sum_cons, dirs_add, ih, List.flatMap_cons]

end Collected

def collectDir (fs : FileSystem) (dir : PathBuf) (pre : String) (c : Collected) :
    Except PackError Collected :=
  match fs.readDir dir with
  | none => .error (.readDir dir)
  | some listing =>
      (FileSystem.entries listing).foldlM (fun c name =>
        match _hmd : fs.metadata (dir.join name) with
        | none => .ok c
        | some .dir => collectDir fs (dir.join name) (child pre name) c
        | some .file => .ok (c.pushFile (child pre name) (dir.join name))
        | some .other => .ok c) (c.pushDir pre)
termination_by fs.pathMax + 1 - dir.length
decreasing_by
  have hle := fs.length_le (p := dir.join name) (by rw [_hmd]; nofun)
  simp only [PathBuf.join, List.length_append, List.length_singleton] at hle ⊢
  omega

/-- The directory itself adds no name. -/
def collectDirContents (fs : FileSystem) (dir : PathBuf) (c : Collected) :
    Except PackError Collected :=
  match fs.readDir dir with
  | none => .error (.readDir dir)
  | some listing =>
      (FileSystem.entries listing).foldlM (fun c name =>
        match fs.metadata (dir.join name) with
        | none => .ok c
        | some .dir => collectDir fs (dir.join name) name.lossy c
        | some .file => .ok (c.pushFile name.lossy (dir.join name))
        | some .other => .ok c) c

def loneDir (fs : FileSystem) (paths : List PathBuf) : Bool :=
  match paths with
  | [p] => fs.isDir p
  | _ => false

def collectInput (fs : FileSystem) (lone : Bool) (p : PathBuf) (c : Collected) :
    Except PackError Collected :=
  if lone then collectDirContents fs p c
  else if fs.isDir p then collectDir fs p p.base c
  else .ok (c.pushFile p.base p)

def collect (fs : FileSystem) (paths : List PathBuf) : Except PackError Collected :=
  paths.foldlM (fun c p => collectInput fs (loneDir fs paths) p c) 0

/-- `files.sort()`: by name, then by path. -/
def sortFiles (files : List (String × PathBuf)) : List (String × PathBuf) :=
  (sort (files.map toLex)).map ofLex

def appendFile (fs : FileSystem) (x : String × PathBuf) : Except PackError Entry :=
  match fs.contents x.2 with
  | none => .error (.open_ x.2)
  | some data => .ok (fileEntry x.1 data)

/-- What is appended to the archive, in order. -/
def archived (fs : FileSystem) (c : Collected) : Except PackError (List Entry) := do
  let files ← (sortFiles c.files).mapM (appendFile fs)
  return (dedup (sort c.dirs)).map dirEntry ++ files

def packTar {Archive : Type} (encode : List Entry → Archive) (fs : FileSystem)
    (paths : List PathBuf) : Except PackError Archive := do
  let c ← collect fs paths
  let entries ← archived fs c
  return encode entries

/-! ### What is reached -/

namespace FileSystem

variable (fs : FileSystem)

def listed (p : PathBuf) : List OsName := ((fs.readDir p).getD []).filterMap id

/-- The names lead on from a path, each through a directory that lists it. -/
def Reaches : PathBuf → List OsName → Prop
  | _, [] => True
  | p, n :: ns => fs.metadata p = some .dir ∧ n ∈ fs.listed p ∧ Reaches (p.join n) ns

/-- No directory below fails to be listed. -/
def Readable (p : PathBuf) : Prop :=
  ∀ ns, fs.Reaches p ns → fs.metadata (p.joins ns) = some .dir → fs.readDir (p.joins ns) ≠ none

/-- What holds of a path as soon as it holds of all that the path lists as a directory. -/
theorem descend {P : PathBuf → Prop}
    (h : ∀ p, (fs.metadata p = some .dir → ∀ n, P (p.join n)) → P p) (p : PathBuf) : P p := by
  induction hk : fs.pathMax + 1 - p.length using Nat.strong_induction_on generalizing p with
  | h k ih =>
      refine h p fun hdir n => ih _ ?_ (p.join n) rfl
      have hle := fs.length_le (p := p) (by rw [hdir]; nofun)
      rw [PathBuf.join, List.length_append, List.length_singleton]
      omega

/-- Below a directory there is the directory, and what is below the names it lists. -/
theorem exists_reaches_iff {p : PathBuf} (hdir : fs.metadata p = some .dir)
    {Q : List OsName → Prop} : (∃ ns, fs.Reaches p ns ∧ Q ns) ↔
      Q [] ∨ ∃ n ∈ fs.listed p, ∃ ns, fs.Reaches (p.join n) ns ∧ Q (n :: ns) := by
  constructor
  · rintro ⟨ns, hns, hQ⟩
    cases ns with
    | nil => exact Or.inl hQ
    | cons n ns => exact Or.inr ⟨n, hns.2.1, ns, hns.2.2, hQ⟩
  · rintro (hQ | ⟨n, hn, ns, hns, hQ⟩)
    · exact ⟨[], trivial, hQ⟩
    · exact ⟨n :: ns, ⟨hdir, hn, hns⟩, hQ⟩

/-- And below anything else only itself. -/
theorem exists_reaches_iff_of_ne {p : PathBuf} (hdir : fs.metadata p ≠ some .dir)
    {Q : List OsName → Prop} : (∃ ns, fs.Reaches p ns ∧ Q ns) ↔ Q [] := by
  constructor
  · rintro ⟨ns, hns, hQ⟩
    cases ns with
    | nil => exact hQ
    | cons n ns => exact absurd hns.1 hdir
  · exact fun hQ => ⟨[], trivial, hQ⟩

theorem mem_entries {listing : List (Option OsName)} {n : OsName} :
    n ∈ entries listing ↔ n ∈ listing.filterMap id := mem_sort

end FileSystem

/-! ### What the collectors collect -/

section

variable {fs : FileSystem}

/-- What both loops do with an entry. -/
def visit (fs : FileSystem) (path : PathBuf) (name : String) (c : Collected) :
    Except PackError Collected :=
  match fs.metadata path with
  | none => .ok c
  | some .dir => collectDir fs path name c
  | some .file => .ok (c.pushFile name path)
  | some .other => .ok c

theorem collectDir_eq (dir : PathBuf) (pre : String) (c : Collected) : collectDir fs dir pre c =
    match fs.readDir dir with
    | none => .error (.readDir dir)
    | some listing => (FileSystem.entries listing).foldlM
        (fun c n => visit fs (dir.join n) (child pre n) c) (c.pushDir pre) := by
  rw [collectDir]
  cases fs.readDir dir with
  | none => rfl
  | some listing =>
      simp only
      congr 1
      funext c n
      unfold visit
      split <;> rename_i hmd <;> simp only [hmd]

theorem collectDirContents_eq (dir : PathBuf) (c : Collected) : collectDirContents fs dir c =
    match fs.readDir dir with
    | none => .error (.readDir dir)
    | some listing => (FileSystem.entries listing).foldlM
        (fun c n => visit fs (dir.join n) n.lossy c) c := rfl

theorem adds_collectDir {p : PathBuf} (h : ∀ n name, Adds (visit fs (p.join n) name))
    (pre : String) : Adds (collectDir fs p pre) := by
  have heq : collectDir fs p pre = fun c => match fs.readDir p with
      | none => .error (.readDir p)
      | some listing => (FileSystem.entries listing).foldlM
          (fun c n => visit fs (p.join n) (child pre n) c) (c + ⟨[], [pre]⟩) := by
    funext c
    rw [collectDir_eq, Collected.pushDir_eq]
  rw [heq]
  cases fs.readDir p with
  | none => exact adds_error _
  | some listing => exact (adds_foldlM fun n _ => h n (child pre n)).before ⟨[], [pre]⟩

theorem adds_visit (path : PathBuf) (name : String) : Adds (visit fs path name) := by
  induction path using fs.descend generalizing name with
  | h p ih =>
      unfold visit
      cases hmd : fs.metadata p with
      | none => exact adds_keep
      | some t =>
          cases t with
          | dir => exact adds_collectDir (fun n name => ih hmd n name) name
          | file =>
              simp only [Collected.pushFile_eq]
              exact adds_ok _
          | other => exact adds_keep

/-- What is collected at a path under some names: each regular file and each directory
below it, under what leads there. A directory that nothing leads to has no entry. -/
structure Finds (fs : FileSystem) (path : PathBuf) (name : List String) (c : Collected) :
    Prop where
  files : ∀ s q, (s, q) ∈ c.files ↔ ∃ ns, fs.Reaches path ns ∧
    (fs.metadata (path.joins ns) = some .file ∧
      s = text (name ++ ns.map OsName.lossy) ∧ q = path.joins ns)
  dirs : ∀ s, s ∈ c.dirs ↔ ∃ ns, fs.Reaches path ns ∧
    (fs.metadata (path.joins ns) = some .dir ∧ name ++ ns.map OsName.lossy ≠ [] ∧
      s = text (name ++ ns.map OsName.lossy))

theorem listed_eq {p : PathBuf} {listing : List (Option OsName)}
    (h : fs.readDir p = some listing) : fs.listed p = listing.filterMap id := by
  rw [FileSystem.listed, h, Option.getD_some]

/-- Listing a directory finds itself, and what visiting its entries finds. -/
theorem finds_dir {p : PathBuf} {name self : List String} {listing : List (Option OsName)}
    {g : OsName → Collected} (hmd : fs.metadata p = some .dir)
    (hlist : fs.readDir p = some listing) (hself : ∀ s, s ∈ self ↔ name ≠ [] ∧ s = text name)
    (hg : ∀ n ∈ FileSystem.entries listing, Finds fs (p.join n) (name ++ [n.lossy]) (g n)) :
    Finds fs p name (⟨[], self⟩ + ((FileSystem.entries listing).map g).sum) := by
  have hmem : ∀ n, n ∈ FileSystem.entries listing ↔ n ∈ fs.listed p := fun n => by
    rw [FileSystem.mem_entries, listed_eq hlist]
  constructor
  · intro s q
    rw [fs.exists_reaches_iff hmd, Collected.files_add, Collected.files_sum, List.nil_append,
      List.mem_flatMap, PathBuf.joins_nil, hmd]
    simp only [reduceCtorEq, Option.some.injEq, false_and, false_or]
    refine exists_congr fun n => ?_
    rw [hmem n]
    refine and_congr_right fun hn => ?_
    rw [(hg n ((hmem n).2 hn)).files]
    simp only [PathBuf.join_joins, List.append_assoc, List.singleton_append, List.map_cons]
  · intro s
    rw [fs.exists_reaches_iff hmd, Collected.dirs_add, Collected.dirs_sum, List.mem_append,
      List.mem_flatMap, PathBuf.joins_nil, hmd, hself]
    simp only [true_and, List.map_nil, List.append_nil]
    refine or_congr Iff.rfl (exists_congr fun n => ?_)
    rw [hmem n]
    refine and_congr_right fun hn => ?_
    rw [(hg n ((hmem n).2 hn)).dirs]
    simp only [PathBuf.join_joins, List.append_assoc, List.singleton_append, List.map_cons]

theorem visit_dir {p : PathBuf} (hmd : fs.metadata p = some .dir) (name : String)
    (c : Collected) : visit fs p name c = collectDir fs p name c := by
  rw [visit, hmd]

theorem finds_other {p : PathBuf} (hmd : fs.metadata p ≠ some .dir) (name : List String) :
    ∃ c, visit fs p (text name) 0 = .ok c ∧ Finds fs p name c := by
  have hname : text (name ++ ([] : List OsName).map OsName.lossy) = text name := by
    rw [List.map_nil, List.append_nil]
  cases ht : fs.metadata p with
  | none =>
      refine ⟨0, by rw [visit, ht], fun s q => ?_, fun s => ?_⟩
      · rw [fs.exists_reaches_iff_of_ne hmd, PathBuf.joins_nil, ht]
        simp
      · rw [fs.exists_reaches_iff_of_ne hmd, PathBuf.joins_nil, ht]
        simp
  | some t =>
      cases t with
      | dir => exact absurd ht hmd
      | file =>
          refine ⟨⟨[(text name, p)], []⟩, by rw [visit, ht]; rfl, fun s q => ?_, fun s => ?_⟩
          · rw [fs.exists_reaches_iff_of_ne hmd, PathBuf.joins_nil, ht, hname]
            simp
          · rw [fs.exists_reaches_iff_of_ne hmd, PathBuf.joins_nil, ht]
            simp
      | other =>
          refine ⟨0, by rw [visit, ht], fun s q => ?_, fun s => ?_⟩
          · rw [fs.exists_reaches_iff_of_ne hmd, PathBuf.joins_nil, ht]
            simp
          · rw [fs.exists_reaches_iff_of_ne hmd, PathBuf.joins_nil, ht]
            simp

theorem readable_iff {p : PathBuf} (hmd : fs.metadata p = some .dir) :
    fs.Readable p ↔ fs.readDir p ≠ none ∧ ∀ n ∈ fs.listed p, fs.Readable (p.join n) := by
  constructor
  · intro h
    refine ⟨?_, fun n hn ns hns hdir => ?_⟩
    · have hself := h [] trivial
      rw [PathBuf.joins_nil] at hself
      exact hself hmd
    · rw [PathBuf.join_joins] at hdir ⊢
      exact h (n :: ns) ⟨hmd, hn, hns⟩ hdir
  · rintro ⟨hself, hbelow⟩ ns hns hdir
    cases ns with
    | nil =>
        rw [PathBuf.joins_nil]
        exact hself
    | cons n ns =>
        rw [← PathBuf.join_joins] at hdir ⊢
        exact hbelow n hns.2.1 ns hns.2.2 hdir

theorem readable_of_ne {p : PathBuf} (hmd : fs.metadata p ≠ some .dir) : fs.Readable p := by
  intro ns hns hdir
  cases ns with
  | nil => exact absurd hdir (by rw [PathBuf.joins_nil]; exact hmd)
  | cons n ns => exact absurd hns.1 hmd

/-- A walk over what is below a path: it goes through when every directory there can be
listed, and finds all. -/
def Walks (fs : FileSystem) (path : PathBuf) (name : List String)
    (walk : Except PackError Collected) : Prop :=
  (fs.Readable path → ∃ c, walk = .ok c) ∧
    ∀ c, walk = .ok c → fs.Readable path ∧ Finds fs path name c

/-- The loop of both collectors, from a walk below each entry. -/
theorem walks_loop {p : PathBuf} {name self : List String} {pushed : OsName → String}
    (hmd : fs.metadata p = some .dir) (hself : ∀ s, s ∈ self ↔ name ≠ [] ∧ s = text name)
    (hbelow : ∀ n, Walks fs (p.join n) (name ++ [n.lossy])
      (visit fs (p.join n) (pushed n) 0)) :
    Walks fs p name (match fs.readDir p with
      | none => .error (.readDir p)
      | some listing => (FileSystem.entries listing).foldlM
          (fun c n => visit fs (p.join n) (pushed n) c) ⟨[], self⟩) := by
  rw [Walks, readable_iff hmd]
  cases hlist : fs.readDir p with
  | none => exact ⟨fun h => absurd rfl h.1, nofun⟩
  | some listing =>
      have hmem : ∀ n, n ∈ FileSystem.entries listing ↔ n ∈ fs.listed p := fun n => by
        rw [FileSystem.mem_entries, listed_eq hlist]
      constructor
      · rintro ⟨-, hread⟩
        have hex : ∀ n ∈ FileSystem.entries listing,
            ∃ c, visit fs (p.join n) (pushed n) 0 = .ok c :=
          fun n hn => (hbelow n).1 (hread n ((hmem n).1 hn))
        choose! g hg using hex
        exact ⟨_, (foldlM_eq_ok fun n _ => adds_visit _ _).2 ⟨g, hg, rfl⟩⟩
      · intro c hc
        obtain ⟨g, hg, rfl⟩ := (foldlM_eq_ok fun n _ => adds_visit _ _).1 hc
        have hall := fun n hn => (hbelow n).2 (g n) (hg n hn)
        exact ⟨⟨nofun, fun n hn => (hall n ((hmem n).2 hn)).1⟩,
          finds_dir hmd hlist hself fun n hn => (hall n hn).2⟩

theorem walks_visit (path : PathBuf) (name : List String) (hname : name ≠ []) :
    Walks fs path name (visit fs path (text name) 0) := by
  induction path using fs.descend generalizing name with
  | h p ih =>
      by_cases hmd : fs.metadata p = some .dir
      · rw [visit_dir hmd, collectDir_eq, Collected.pushDir_eq, zero_add]
        refine walks_loop hmd (fun s => by simp [hname]) fun n => ?_
        rw [child_text hname]
        exact ih hmd n (name ++ [n.lossy]) (by simp)
      · obtain ⟨c, hc, hfinds⟩ := finds_other hmd name
        refine ⟨fun _ => ⟨c, hc⟩, fun c' hc' => ⟨readable_of_ne hmd, ?_⟩⟩
        obtain rfl := Except.ok.inj (hc.symm.trans hc')
        exact hfinds

theorem adds_collectInput (lone : Bool) (p : PathBuf) : Adds (collectInput fs lone p) := by
  unfold collectInput
  cases lone with
  | true =>
      simp only [if_true, funext (collectDirContents_eq p)]
      cases fs.readDir p with
      | none => exact adds_error _
      | some listing => exact adds_foldlM fun n _ => adds_visit _ _
  | false =>
      simp only [Bool.false_eq_true, if_false]
      split_ifs with hdir
      · exact adds_collectDir (fun n name => adds_visit _ _) p.base
      · simp only [Collected.pushFile_eq]
        exact adds_ok _

theorem collect_eq_ok {paths : List PathBuf} {c : Collected} : collect fs paths = .ok c ↔
    ∃ g : PathBuf → Collected,
      (∀ p ∈ paths, collectInput fs (loneDir fs paths) p 0 = .ok (g p)) ∧
        c = (paths.map g).sum := by
  rw [collect, foldlM_eq_ok fun p _ => adds_collectInput _ p]
  simp only [zero_add]

/-! ### What is packed under which names -/

/-- A lone directory gives no name to what is in it. -/
def inputName (lone : Bool) (p : PathBuf) : List String := if lone then [] else [p.base]

theorem walks_input {lone : Bool} {p : PathBuf} (hlone : lone = true → fs.isDir p = true)
    (hp : fs.metadata p = some .dir ∨ fs.metadata p = some .file) :
    Walks fs p (inputName lone p) (collectInput fs lone p 0) := by
  cases lone with
  | false =>
      have hvisit : collectInput fs false p 0 = visit fs p (text [p.base]) 0 := by
        unfold collectInput visit FileSystem.isDir
        rcases hp with hp | hp <;> rw [hp] <;> rfl
      rw [hvisit]
      exact walks_visit p [p.base] (List.cons_ne_nil _ _)
  | true =>
      have hmd : fs.metadata p = some .dir := by simpa [FileSystem.isDir] using hlone rfl
      show Walks fs p [] (collectDirContents fs p 0)
      rw [collectDirContents_eq]
      exact walks_loop hmd (fun s => by simp) fun n =>
        walks_visit (p.join n) [n.lossy] (List.cons_ne_nil _ _)

/-- Something reached from the inputs, and the names it is packed under. -/
def Packs (fs : FileSystem) (paths : List PathBuf) (names : List String) (q : PathBuf) : Prop :=
  ∃ p ∈ paths, ∃ ns, fs.Reaches p ns ∧
    names = inputName (loneDir fs paths) p ++ ns.map OsName.lossy ∧ q = p.joins ns

/-- The inputs are regular files and directories. -/
def Inputs (fs : FileSystem) (paths : List PathBuf) : Prop :=
  ∀ p ∈ paths, fs.metadata p = some .dir ∨ fs.metadata p = some .file

theorem isDir_of_loneDir {paths : List PathBuf} {p : PathBuf} (hp : p ∈ paths)
    (h : loneDir fs paths = true) : fs.isDir p = true := by
  match paths, h with
  | [p'], h =>
      obtain rfl := List.mem_singleton.1 hp
      exact h

theorem Packs.plain {paths : List PathBuf} {names : List String} {q : PathBuf}
    (h : Packs fs paths names q) : ∀ k ∈ names, Plain k := by
  obtain ⟨p, -, ns, -, rfl, -⟩ := h
  intro k hk
  rcases List.mem_append.1 hk with hk | hk
  · unfold inputName at hk
    split_ifs at hk
    · cases hk
    · obtain rfl := List.mem_singleton.1 hk
      exact p.plain_base
  · obtain ⟨n, -, rfl⟩ := List.mem_map.1 hk
    exact n.plain_lossy

/-- Only a lone directory goes under no name. -/
theorem Packs.ne_nil {paths : List PathBuf} {names : List String} {q : PathBuf}
    (h : Packs fs paths names q) (hq : fs.metadata q = some .file) : names ≠ [] := by
  obtain ⟨p, hp, ns, -, rfl, rfl⟩ := h
  intro hnil
  obtain ⟨hinput, hns⟩ := List.append_eq_nil_iff.1 hnil
  obtain rfl := List.map_eq_nil_iff.1 hns
  have hlone : loneDir fs paths = true := by
    by_contra hlone
    rw [inputName, if_neg hlone] at hinput
    cases hinput
  have hdir := isDir_of_loneDir hp hlone
  rw [PathBuf.joins_nil] at hq
  rw [FileSystem.isDir, hq] at hdir
  cases hdir

/-- What one walk for all inputs collects. -/
structure Collects (fs : FileSystem) (paths : List PathBuf) (c : Collected) : Prop where
  files : ∀ s q, (s, q) ∈ c.files ↔
    ∃ names, Packs fs paths names q ∧ fs.metadata q = some .file ∧ s = text names
  dirs : ∀ s, s ∈ c.dirs ↔ ∃ names q,
    Packs fs paths names q ∧ fs.metadata q = some .dir ∧ names ≠ [] ∧ s = text names

theorem collect_spec {paths : List PathBuf} (hpaths : Inputs fs paths) :
    ((∀ p ∈ paths, fs.Readable p) → ∃ c, collect fs paths = .ok c) ∧
      ∀ c, collect fs paths = .ok c → (∀ p ∈ paths, fs.Readable p) ∧ Collects fs paths c := by
  have hwalks : ∀ p ∈ paths, Walks fs p (inputName (loneDir fs paths) p)
      (collectInput fs (loneDir fs paths) p 0) :=
    fun p hp => walks_input (isDir_of_loneDir hp) (hpaths p hp)
  constructor
  · intro hread
    have hex := fun p hp => (hwalks p hp).1 (hread p hp)
    choose! g hg using hex
    exact ⟨_, collect_eq_ok.2 ⟨g, hg, rfl⟩⟩
  · intro c hc
    obtain ⟨g, hg, rfl⟩ := collect_eq_ok.1 hc
    have hall := fun p hp => (hwalks p hp).2 (g p) (hg p hp)
    refine ⟨fun p hp => (hall p hp).1, fun s q => ?_, fun s => ?_⟩
    · rw [Collected.files_sum, List.mem_flatMap]
      constructor
      · rintro ⟨p, hp, hmem⟩
        obtain ⟨ns, hns, hmd, hs, rfl⟩ := ((hall p hp).2.files s q).1 hmem
        exact ⟨_, ⟨p, hp, ns, hns, rfl, rfl⟩, hmd, hs⟩
      · rintro ⟨_, ⟨p, hp, ns, hns, rfl, rfl⟩, hmd, hs⟩
        exact ⟨p, hp, ((hall p hp).2.files s _).2 ⟨ns, hns, hmd, hs, rfl⟩⟩
    · rw [Collected.dirs_sum, List.mem_flatMap]
      constructor
      · rintro ⟨p, hp, hmem⟩
        obtain ⟨ns, hns, hmd, hne, hs⟩ := ((hall p hp).2.dirs s).1 hmem
        exact ⟨_, _, ⟨p, hp, ns, hns, rfl, rfl⟩, hmd, hne, hs⟩
      · rintro ⟨_, _, ⟨p, hp, ns, hns, rfl, rfl⟩, hmd, hne, hs⟩
        exact ⟨p, hp, ((hall p hp).2.dirs s).2 ⟨ns, hns, hmd, hne, hs⟩⟩

theorem mem_sortFiles {files : List (String × PathBuf)} {x : String × PathBuf} :
    x ∈ sortFiles files ↔ x ∈ files := by
  rw [sortFiles, List.mem_map]
  constructor
  · rintro ⟨y, hy, rfl⟩
    obtain ⟨z, hz, rfl⟩ := List.mem_map.1 (mem_sort.1 hy)
    exact hz
  · exact fun hx => ⟨toLex x, mem_sort.2 (List.mem_map_of_mem hx), rfl⟩

/-- The entry of a file that can be read. -/
def entryOf (fs : FileSystem) (x : String × PathBuf) : Entry :=
  fileEntry x.1 ((fs.contents x.2).getD [])

theorem mapM_appendFile {xs : List (String × PathBuf)} {es : List Entry} :
    xs.mapM (appendFile fs) = .ok es ↔
      (∀ x ∈ xs, fs.contents x.2 ≠ none) ∧ es = xs.map (entryOf fs) := by
  induction xs generalizing es with
  | nil => exact ⟨fun h => ⟨nofun, (Except.ok.inj h).symm⟩, fun h => h.2 ▸ rfl⟩
  | cons x xs ih =>
      rw [List.mapM_cons, List.forall_mem_cons, List.map_cons, appendFile, entryOf]
      cases hx : fs.contents x.2 with
      | none => exact ⟨nofun, fun h => absurd rfl h.1.1⟩
      | some data =>
          cases hxs : xs.mapM (appendFile fs) with
          | error e =>
              refine ⟨nofun, fun h => ?_⟩
              rw [ih.2 ⟨h.1.2, rfl⟩] at hxs
              cases hxs
          | ok es' =>
              obtain ⟨hall, rfl⟩ := ih.1 hxs
              exact ⟨fun h => ⟨⟨nofun, hall⟩, (Except.ok.inj h).symm⟩, fun h => h.2 ▸ rfl⟩

theorem archived_eq_ok {c : Collected} {es : List Entry} : archived fs c = .ok es ↔
    (∀ x ∈ c.files, fs.contents x.2 ≠ none) ∧
      es = (dedup (sort c.dirs)).map dirEntry ++ (sortFiles c.files).map (entryOf fs) := by
  have hmap : ∀ es, (sortFiles c.files).mapM (appendFile fs) = .ok es ↔
      (∀ x ∈ c.files, fs.contents x.2 ≠ none) ∧ es = (sortFiles c.files).map (entryOf fs) := by
    intro es
    rw [mapM_appendFile]
    simp only [mem_sortFiles]
  unfold archived
  cases hfiles : (sortFiles c.files).mapM (appendFile fs) with
  | error e =>
      refine ⟨nofun, fun h => ?_⟩
      rw [(hmap _).2 ⟨h.1, rfl⟩] at hfiles
      cases hfiles
  | ok files =>
      obtain ⟨hread, rfl⟩ := (hmap files).1 hfiles
      exact ⟨fun h => ⟨hread, (Except.ok.inj h).symm⟩, fun h => h.2 ▸ rfl⟩

theorem packTar_eq_ok {Archive : Type} {encode : List Entry → Archive} {paths : List PathBuf}
    {archive : Archive} : packTar encode fs paths = .ok archive ↔
      ∃ c es, collect fs paths = .ok c ∧ archived fs c = .ok es ∧ archive = encode es := by
  unfold packTar
  cases collect fs paths with
  | error e => exact ⟨nofun, fun ⟨_, _, h, _⟩ => nomatch h⟩
  | ok c =>
      show (archived fs c >>= fun es => pure (encode es)) = _ ↔ _
      cases harchived : archived fs c with
      | error e =>
          refine ⟨nofun, fun ⟨c', es, hc, hes, _⟩ => ?_⟩
          obtain rfl := Except.ok.inj hc
          rw [harchived] at hes
          cases hes
      | ok es =>
          constructor
          · exact fun h => ⟨c, es, rfl, harchived, (Except.ok.inj h).symm⟩
          · rintro ⟨c', es', hc, hes, rfl⟩
            obtain rfl := Except.ok.inj hc
            rw [harchived] at hes
            obtain rfl := Except.ok.inj hes
            rfl

/-! ### What the archive does not depend on -/

/-- The same files, listed in another order. -/
structure Relisted (fs fs' : FileSystem) : Prop where
  metadata : fs'.metadata = fs.metadata
  contents : fs'.contents = fs.contents
  readDir : ∀ p, Option.Rel List.Perm (fs.readDir p) (fs'.readDir p)

variable {fs' : FileSystem}

theorem entries_eq_of_perm {listing listing' : List (Option OsName)}
    (h : listing.Perm listing') :
    FileSystem.entries listing = FileSystem.entries listing' :=
  sort_eq_of_perm (h.filterMap id)

theorem collectDir_relisted (h : Relisted fs fs') {p : PathBuf}
    (hbelow : ∀ n name c, visit fs' (p.join n) name c = visit fs (p.join n) name c)
    (pre : String) (c : Collected) : collectDir fs' p pre c = collectDir fs p pre c := by
  rw [collectDir_eq, collectDir_eq]
  have hrel := h.readDir p
  revert hrel
  cases fs.readDir p <;> cases fs'.readDir p <;> intro hrel
  · rfl
  · cases hrel
  · cases hrel
  · cases hrel with
    | some hperm => simp only [hbelow, entries_eq_of_perm hperm]

theorem visit_relisted (h : Relisted fs fs') (path : PathBuf) (name : String) (c : Collected) :
    visit fs' path name c = visit fs path name c := by
  induction path using fs.descend generalizing name c with
  | h p ih =>
      unfold visit
      rw [h.metadata]
      cases hmd : fs.metadata p with
      | none => rfl
      | some t =>
          cases t with
          | dir => exact collectDir_relisted h (fun n => ih hmd n) name c
          | file => rfl
          | other => rfl

theorem collect_relisted (h : Relisted fs fs') (paths : List PathBuf) :
    collect fs' paths = collect fs paths := by
  have hdir : fs'.isDir = fs.isDir := by
    funext p
    rw [FileSystem.isDir, FileSystem.isDir, h.metadata]
  have hlone : loneDir fs' paths = loneDir fs paths := by
    unfold loneDir
    rw [hdir]
  have hinput : ∀ lone p c, collectInput fs' lone p c = collectInput fs lone p c := by
    intro lone p c
    unfold collectInput
    rw [hdir, collectDir_relisted h fun n => visit_relisted h _]
    congr 1
    rw [collectDirContents_eq, collectDirContents_eq]
    have hrel := h.readDir p
    revert hrel
    cases fs.readDir p <;> cases fs'.readDir p <;> intro hrel
    · rfl
    · cases hrel
    · cases hrel
    · cases hrel with
      | some hperm => simp only [visit_relisted h, entries_eq_of_perm hperm]
  rw [collect, collect, hlone]
  simp only [hinput]

theorem loneDir_perm {paths paths' : List PathBuf} (h : paths.Perm paths') :
    loneDir fs paths' = loneDir fs paths := by
  cases paths with
  | nil =>
      obtain rfl := List.nil_perm.1 h
      rfl
  | cons p ps =>
      cases ps with
      | nil =>
          obtain rfl := List.singleton_perm.1 h
          rfl
      | cons p' ps =>
          have hlen := h.length_eq
          match paths', hlen with
          | _ :: _ :: _, _ => rfl

theorem collect_perm {paths paths' : List PathBuf} (h : paths.Perm paths') {c : Collected}
    (hc : collect fs paths = .ok c) : ∃ c', collect fs paths' = .ok c' ∧
      c.files.Perm c'.files ∧ c.dirs.Perm c'.dirs := by
  obtain ⟨g, hg, rfl⟩ := collect_eq_ok.1 hc
  refine ⟨(paths'.map g).sum, collect_eq_ok.2 ⟨g, fun p hp => ?_, rfl⟩, ?_, ?_⟩
  · rw [loneDir_perm h]
    exact hg p (h.mem_iff.2 hp)
  · rw [Collected.files_sum, Collected.files_sum]
    exact h.flatMap_right _
  · rw [Collected.dirs_sum, Collected.dirs_sum]
    exact h.flatMap_right _

theorem archived_perm {c c' : Collected} (hfiles : c.files.Perm c'.files)
    (hdirs : c.dirs.Perm c'.dirs) : archived fs c' = archived fs c := by
  have hsorted : sortFiles c'.files = sortFiles c.files := by
    rw [sortFiles, sortFiles, sort_eq_of_perm (hfiles.map toLex)]
  rw [archived, archived, hsorted, sort_eq_of_perm hdirs]

/-- Packing again, the inputs and the listings in another order, makes the same archive. -/
theorem packTar_reordered {Archive : Type} {encode : List Entry → Archive}
    {paths paths' : List PathBuf} {archive : Archive} (hfs : Relisted fs fs')
    (hpaths : paths.Perm paths') (h : packTar encode fs paths = .ok archive) :
    packTar encode fs' paths' = .ok archive := by
  obtain ⟨c, es, hc, hes, rfl⟩ := packTar_eq_ok.1 h
  obtain ⟨c', hc', hfiles, hdirs⟩ := collect_perm hpaths hc
  have happend : appendFile fs' = appendFile fs := by
    funext x
    rw [appendFile, appendFile, hfs.contents]
  refine packTar_eq_ok.2 ⟨c', es, ?_, ?_, rfl⟩
  · rw [collect_relisted hfs]
    exact hc'
  · rw [archived_perm hfiles hdirs, archived, happend]
    exact hes

end

end Arvolo.Archive
