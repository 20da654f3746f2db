import Arvolo.Archive.Pack

/-!
Unpacking, `unpack_archive_safely` of `core/src/flow/archive.rs`, and what comes of
packing and then unpacking.

Names are told apart as they are written. The archive may come from anyone, so what it
says of paths and links is checked before the extractor sees it.
-/

namespace Arvolo.Archive

open Lib

/-! ### Where to -/

inductive Object
  | dir
  | file (data : List UInt8)
  deriving DecidableEq

/-- What is below the directory unpacked into, itself included. -/
abbrev Tree := List String → Option Object

namespace Tree

def empty : Tree := fun names => if names = [] then some .dir else none

def put (t : Tree) (names : List String) (o : Object) : Tree := Function.update t names (some o)

end Tree

/-- What is used of the tar crate. -/
structure Tar (Archive : Type) where
  encode : List Entry → Archive
  /-- `Archive::entries`; an entry that cannot be read is `none`. -/
  entries : Archive → Option (List (Option Entry))
  /-- `Entry::unpack_in` with `overwrite`, and whether it took the entry. -/
  unpackIn : Tree → Entry → Option (Bool × Tree)

/-- It decodes what it encoded, makes a directory where there is none, and writes a file
where there is no directory. -/
structure Tar.Faithful {Archive : Type} (tar : Tar Archive) : Prop where
  entries_encode : ∀ es, tar.entries (tar.encode es) = some (es.map some)
  unpack_dir : ∀ {t : Tree} {e : Entry} {names : List String},
    e.header.entryType = .directory → components e.path = names.map .normal → names ≠ [] →
    t names.dropLast = some .dir → (t names = none ∨ t names = some .dir) →
    tar.unpackIn t e = some (true, t.put names .dir)
  unpack_file : ∀ {t : Tree} {e : Entry} {names : List String},
    e.header.entryType = .regular → components e.path = names.map .normal → names ≠ [] →
    t names.dropLast = some .dir → t names ≠ some .dir →
    tar.unpackIn t e = some (true, t.put names (.file e.data))

/-! ### Unpacking -/

inductive UnpackError
  | entries
  | entry
  | escapes (path : String)
  | link (path : String)
  | unpack (path : String)
  | refused (path : String)
  deriving DecidableEq

def UnpackError.context : UnpackError → String
  | entries => "read archive entries"
  | entry => "read archive entry"
  | escapes path => "archive entry escapes target dir: " ++ path
  | link path => "archive contains a link entry (" ++ path ++ "), refused"
  | unpack path => "unpack " ++ path
  | refused path => "archive entry refused by extractor: " ++ path

def staysInside (path : String) : Bool :=
  (components path).all fun c =>
    match c with
    | .normal _ | .curDir => true
    | .rootDir | .parentDir => false

section

variable {Archive : Type} (tar : Tar Archive)

def unpackEntry (dir : Tree) : Option Entry → Except UnpackError Tree
  | none => .error .entry
  | some e =>
      if staysInside e.path = false then .error (.escapes e.path)
      else if e.header.entryType = .symlink ∨ e.header.entryType = .link then
        .error (.link e.path)
      else
        match tar.unpackIn dir e with
        | none => .error (.unpack e.path)
        | some (false, _) => .error (.refused e.path)
        | some (true, dir) => .ok dir

def unpackArchiveSafely (archive : Archive) (dir : Tree) : Except UnpackError Tree :=
  match tar.entries archive with
  | none => .error .entries
  | some entries => entries.foldlM (unpackEntry tar) dir

end

section

variable {Archive : Type} {tar : Tar Archive}

/-- No entry is taken whose path leads out, or which is a link. -/
theorem unpackEntry_ok {dir dir' : Tree} {e : Option Entry}
    (h : unpackEntry tar dir e = .ok dir') : ∃ e', e = some e' ∧ staysInside e'.path = true ∧
      e'.header.entryType ≠ .symlink ∧ e'.header.entryType ≠ .link := by
  unfold unpackEntry at h
  split at h
  · cases h
  · rename_i e
    split_ifs at h with hstays hlink
    obtain ⟨hsym, hhard⟩ := not_or.1 hlink
    exact ⟨e, rfl, Bool.not_eq_false _ ▸ hstays, hsym, hhard⟩

theorem staysInside_of_normal {path : String} {names : List String}
    (h : components path = names.map .normal) : staysInside path = true := by
  rw [staysInside, h, List.all_map, List.all_eq_true]
  exact fun _ _ => rfl

theorem unpackEntry_dir (htar : tar.Faithful) {t : Tree} {names : List String}
    (hne : names ≠ []) (hplain : ∀ k ∈ names, Plain k) (hparent : t names.dropLast = some .dir)
    (hself : t names = none ∨ t names = some .dir) :
    unpackEntry tar t (some (dirEntry (text names))) = .ok (t.put names .dir) := by
  have hpath : components (dirEntry (text names)).path = names.map .normal :=
    (components_text hne hplain).2
  have htype : (dirEntry (text names)).header.entryType = .directory := rfl
  simp only [unpackEntry, staysInside_of_normal hpath, htype,
    htar.unpack_dir htype hpath hne hparent hself, reduceCtorEq, or_self, if_false]

theorem unpackEntry_file (htar : tar.Faithful) {t : Tree} {names : List String}
    {data : List UInt8} (hne : names ≠ []) (hplain : ∀ k ∈ names, Plain k)
    (hparent : t names.dropLast = some .dir) (hself : t names ≠ some .dir) :
    unpackEntry tar t (some (fileEntry (text names) data)) = .ok (t.put names (.file data)) := by
  have hpath : components (fileEntry (text names) data).path = names.map .normal :=
    (components_text hne hplain).1
  have htype : (fileEntry (text names) data).header.entryType = .regular := rfl
  simp only [unpackEntry, staysInside_of_normal hpath, htype,
    htar.unpack_file htype hpath hne hparent hself, reduceCtorEq, or_self, if_false]
  rfl

/-! ### Directories first -/

/-- The tree of the directories that have been made. -/
def dirTree (ds : List String) : Tree := fun names =>
  if names = [] ∨ names ∈ ds.map parts then some .dir else none

theorem dirTree_concat (ds : List String) (d : String) :
    (dirTree ds).put (parts d) .dir = dirTree (ds ++ [d]) := by
  funext names
  unfold Tree.put dirTree
  by_cases hd : names = parts d
  · subst hd
    simp
  · rw [Function.update_of_ne hd]
    simp [hd]

/-- A directory's name, with the directory above it among the others. -/
def Nested (ds : List String) (d : String) : Prop := ∃ names, names ≠ [] ∧ (∀ k ∈ names, Plain k) ∧
  d = text names ∧ (names.dropLast = [] ∨ text names.dropLast ∈ ds)

theorem parts_text_dropLast {names : List String} (hplain : ∀ k ∈ names, Plain k)
    (hne : names.dropLast ≠ []) : parts (text names.dropLast) = names.dropLast :=
  (parts_text hne fun k hk => hplain k (List.mem_of_mem_dropLast hk)).1

theorem dirTree_dropLast {ds : List String} {names : List String}
    (hplain : ∀ k ∈ names, Plain k) (h : names.dropLast = [] ∨ text names.dropLast ∈ ds) :
    dirTree ds names.dropLast = some .dir := by
  by_cases hne : names.dropLast = []
  · exact if_pos (Or.inl hne)
  · have hmem := List.mem_map.2 ⟨_, h.resolve_left hne, parts_text_dropLast hplain hne⟩
    exact if_pos (Or.inr hmem)

/-- In order of their names, each directory comes after the one it is in. -/
theorem unpack_dirs (htar : tar.Faithful) {before rest : List String}
    (hsorted : (before ++ rest).Pairwise (· ≤ ·))
    (hnested : ∀ d ∈ before ++ rest, Nested (before ++ rest) d) :
    (rest.map fun d => some (dirEntry d)).foldlM (unpackEntry tar) (dirTree before) =
      .ok (dirTree (before ++ rest)) := by
  induction rest generalizing before with
  | nil => rw [List.append_nil]; rfl
  | cons d rest ih =>
      obtain ⟨names, hne, hplain, rfl, hparent⟩ := hnested d (by simp)
      have hparts : parts (text names) = names := (parts_text hne hplain).1
      have habove : dirTree before names.dropLast = some .dir := by
        refine dirTree_dropLast hplain ?_
        by_cases hdrop : names.dropLast = []
        · exact Or.inl hdrop
        · have hmem := hparent.resolve_left hdrop
          refine Or.inr (mem_of_lt hsorted hmem ?_)
          have hlt := text_lt hdrop (names.getLast hne)
          rwa [List.dropLast_append_getLast] at hlt
      have hself : dirTree before names = none ∨ dirTree before names = some .dir := by
        unfold dirTree
        split_ifs
        · exact Or.inr rfl
        · exact Or.inl rfl
      have hstep := unpackEntry_dir htar hne hplain habove hself
      have hput : (dirTree before).put names .dir = dirTree (before ++ [text names]) := by
        rw [← dirTree_concat, hparts]
      rw [List.append_cons] at hsorted hnested ⊢
      rw [List.map_cons, foldlM_cons_eq_ok]
      exact ⟨_, hstep, hput ▸ ih hsorted hnested⟩

/-! ### Then the files -/

/-- While files are written: the directories stand, and what was written is there. -/
structure Written (ds : List String) (t : Tree) (written : List (List String × List UInt8)) :
    Prop where
  dirs : ∀ names, t names = some .dir ↔ dirTree ds names = some .dir
  files : ∀ x ∈ written, t x.1 = some (.file x.2)

theorem written_put {ds : List String} {t : Tree} {written : List (List String × List UInt8)}
    (h : Written ds t written) {names : List String} {data : List UInt8}
    (hdir : dirTree ds names ≠ some .dir) (hsame : ∀ x ∈ written, x.1 = names → x.2 = data) :
    Written ds (t.put names (.file data)) (written ++ [(names, data)]) := by
  constructor
  · intro names'
    by_cases hn : names' = names
    · subst hn
      rw [Tree.put, Function.update_self]
      exact ⟨nofun, fun h => absurd h hdir⟩
    · rw [Tree.put, Function.update_of_ne hn]
      exact h.dirs names'
  · intro x hx
    by_cases hn : x.1 = names
    · rw [hn, Tree.put, Function.update_self]
      rcases List.mem_append.1 hx with hx | hx
      · rw [hsame x hx hn]
      · rw [List.mem_singleton.1 hx]
    · rw [Tree.put, Function.update_of_ne hn]
      rcases List.mem_append.1 hx with hx | hx
      · exact h.files x hx
      · exact absurd (congrArg Prod.fst (List.mem_singleton.1 hx)) hn

/-- A file that can be written where its names say: in a directory, and not in the place
of one. -/
structure Fits (ds : List String) (x : List String × List UInt8) : Prop where
  ne_nil : x.1 ≠ []
  plain : ∀ k ∈ x.1, Plain k
  parent : x.1.dropLast = [] ∨ text x.1.dropLast ∈ ds
  not_dir : dirTree ds x.1 ≠ some .dir

/-- Files that share their names with no other content are all written. -/
theorem unpack_files (htar : tar.Faithful) {ds : List String}
    {written rest : List (List String × List UInt8)} {t : Tree} (ht : Written ds t written)
    (hfits : ∀ x ∈ rest, Fits ds x)
    (hsame : ∀ x ∈ written ++ rest, ∀ y ∈ written ++ rest, x.1 = y.1 → x.2 = y.2) :
    ∃ t', (rest.map fun x => some (fileEntry (text x.1) x.2)).foldlM (unpackEntry tar) t = .ok t' ∧
      Written ds t' (written ++ rest) := by
  induction rest generalizing written t with
  | nil => exact ⟨t, rfl, by rw [List.append_nil]; exact ht⟩
  | cons x rest ih =>
      have hx := hfits x List.mem_cons_self
      have hstep : unpackEntry tar t (some (fileEntry (text x.1) x.2)) =
          .ok (t.put x.1 (.file x.2)) :=
        unpackEntry_file htar hx.ne_nil hx.plain
          ((ht.dirs _).2 (dirTree_dropLast hx.plain hx.parent)) (mt (ht.dirs _).1 hx.not_dir)
      have hput := written_put ht hx.not_dir fun y hy =>
        hsame y (List.mem_append_left _ hy) x (List.mem_append_right _ List.mem_cons_self)
      rw [List.append_cons] at hsame ⊢
      obtain ⟨t', hloop, ht'⟩ := ih hput (fun y hy => hfits y (List.mem_cons_of_mem x hy)) hsame
      rw [List.map_cons]
      exact ⟨t', foldlM_cons_eq_ok.2 ⟨_, hstep, hloop⟩, ht'⟩

/-! ### Packing, then unpacking -/

/-- What was reached is where its names say. -/
def Restored (fs : FileSystem) (paths : List PathBuf) (t : Tree) : Prop :=
  ∀ names q, Packs fs paths names q →
    (fs.metadata q = some .dir → t names = some .dir) ∧
      (fs.metadata q = some .file →
        ∀ data, fs.contents q = some data → t names = some (.file data))

/-- Unpacking what was packed restores it. -/
def Lossless (tar : Tar Archive) (fs : FileSystem) (paths : List PathBuf) : Prop :=
  ∀ archive, packTar tar.encode fs paths = .ok archive →
    ∃ t, unpackArchiveSafely tar archive Tree.empty = .ok t ∧ Restored fs paths t

/-- The archive does not depend on the order of the inputs, nor on that of the listings. -/
def Reproducible (tar : Tar Archive) (fs : FileSystem) (paths : List PathBuf) : Prop :=
  ∀ fs' paths', Relisted fs fs' → paths.Perm paths' →
    (packTar tar.encode fs' paths').toOption = (packTar tar.encode fs paths).toOption

/-- Every directory can be listed and every file read. -/
structure AllReadable (fs : FileSystem) (paths : List PathBuf) : Prop where
  dirs : ∀ p ∈ paths, fs.Readable p
  files : ∀ {names q}, Packs fs paths names q → fs.metadata q = some .file →
    fs.contents q ≠ none

/-- No file goes under the names of a directory, nor under those of a file with other
contents. -/
structure Apart (fs : FileSystem) (paths : List PathBuf) : Prop where
  files : ∀ {names q q'}, Packs fs paths names q → Packs fs paths names q' →
    fs.metadata q = some .file → fs.metadata q' = some .file → fs.contents q = fs.contents q'
  dirs : ∀ {names q q'}, Packs fs paths names q → Packs fs paths names q' →
    fs.metadata q = some .file → fs.metadata q' ≠ some .dir

variable {fs : FileSystem} {paths : List PathBuf}

theorem reaches_concat {p : PathBuf} {ns : List OsName} {n : OsName}
    (h : fs.Reaches p (ns ++ [n])) :
    fs.Reaches p ns ∧ fs.metadata (p.joins ns) = some .dir := by
  induction ns generalizing p with
  | nil =>
      rw [PathBuf.joins_nil]
      exact ⟨trivial, h.1⟩
  | cons m ns ih =>
      obtain ⟨hns, hdir⟩ := ih h.2.2
      rw [PathBuf.join_joins] at hdir
      exact ⟨⟨h.1, h.2.1, hns⟩, hdir⟩

/-- What is packed under several names is in a directory that is packed under all but the
last. -/
theorem Packs.parent {names : List String} {q : PathBuf} (h : Packs fs paths names q) :
    names.dropLast = [] ∨
      ∃ q', Packs fs paths names.dropLast q' ∧ fs.metadata q' = some .dir := by
  obtain ⟨p, hp, ns, hns, rfl, rfl⟩ := h
  induction ns using List.reverseRecOn with
  | nil =>
      left
      unfold inputName
      split_ifs <;> rfl
  | append_singleton ns n _ =>
      right
      obtain ⟨hbefore, hdir⟩ := reaches_concat hns
      refine ⟨p.joins ns, ⟨p, hp, ns, hbefore, ?_, rfl⟩, hdir⟩
      rw [List.map_append, ← List.append_assoc]
      exact List.dropLast_concat

/-- The directory above what is packed is among the directories collected. -/
theorem Collects.parent {c : Collected} (hc : Collects fs paths c) {names : List String}
    {q : PathBuf} (h : Packs fs paths names q) :
    names.dropLast = [] ∨ text names.dropLast ∈ c.dirs := by
  by_cases hne : names.dropLast = []
  · exact Or.inl hne
  · obtain ⟨q', hq', hdir⟩ := h.parent.resolve_left hne
    exact Or.inr ((hc.dirs _).2 ⟨_, q', hq', hdir, hne, rfl⟩)

theorem Collects.nested {c : Collected} (hc : Collects fs paths c) {d : String}
    (hd : d ∈ c.dirs) : Nested c.dirs d := by
  obtain ⟨names, q, hq, -, hne, rfl⟩ := (hc.dirs d).1 hd
  exact ⟨names, hne, hq.plain, rfl, hc.parent hq⟩

/-- A directory of the tree is one that was reached. -/
theorem Collects.of_dirTree {c : Collected} (hc : Collects fs paths c) {names : List String}
    (hne : names ≠ []) (h : dirTree c.dirs names = some .dir) :
    ∃ q, Packs fs paths names q ∧ fs.metadata q = some .dir := by
  unfold dirTree at h
  split_ifs at h with hmem
  obtain ⟨d, hd, rfl⟩ := List.mem_map.1 (hmem.resolve_left hne)
  obtain ⟨names, q, hq, hdir, hnames, rfl⟩ := (hc.dirs d).1 hd
  rw [(parts_text hnames hq.plain).1]
  exact ⟨q, hq, hdir⟩

theorem dirTree_congr {ds ds' : List String} (h : ∀ d, d ∈ ds ↔ d ∈ ds') :
    dirTree ds = dirTree ds' := by
  funext names
  have hmem : names ∈ ds.map parts ↔ names ∈ ds'.map parts := by
    simp only [List.mem_map, h]
  unfold dirTree
  simp only [hmem]

/-- A file to write: its names, and what it holds. -/
def content (fs : FileSystem) (x : String × PathBuf) : List String × List UInt8 :=
  (parts x.1, (fs.contents x.2).getD [])

/-- What a file was collected from. -/
theorem Collects.file {c : Collected} (hc : Collects fs paths c) {x : String × PathBuf}
    (hx : x ∈ c.files) : ∃ names, Packs fs paths names x.2 ∧ fs.metadata x.2 = some .file ∧
      x.1 = text names ∧ parts x.1 = names := by
  obtain ⟨names, hq, hmd, hs⟩ := (hc.files x.1 x.2).1 hx
  refine ⟨names, hq, hmd, hs, ?_⟩
  rw [hs]
  exact (parts_text (hq.ne_nil hmd) hq.plain).1

theorem Collects.fits {c : Collected} (hc : Collects fs paths c) (hapart : Apart fs paths)
    {x : String × PathBuf} (hx : x ∈ c.files) : Fits c.dirs (content fs x) := by
  obtain ⟨names, hq, hmd, -, rfl⟩ := hc.file hx
  refine ⟨hq.ne_nil hmd, hq.plain, hc.parent hq, fun hdir => ?_⟩
  obtain ⟨q', hq', hmd'⟩ := hc.of_dirTree (hq.ne_nil hmd) hdir
  exact hapart.dirs hq hq' hmd hmd'

theorem Collects.same {c : Collected} (hc : Collects fs paths c) (hapart : Apart fs paths)
    {x y : String × PathBuf} (hx : x ∈ c.files) (hy : y ∈ c.files)
    (h : (content fs x).1 = (content fs y).1) : (content fs x).2 = (content fs y).2 := by
  obtain ⟨names, hq, hmd, -, rfl⟩ := hc.file hx
  obtain ⟨names', hq', hmd', -, rfl⟩ := hc.file hy
  have hnames : parts x.1 = parts y.1 := h
  rw [← hnames] at hq'
  exact congrArg (fun data => data.getD []) (hapart.files hq hq' hmd hmd')

theorem unpack_collected (htar : tar.Faithful) {c : Collected} (hc : Collects fs paths c)
    (hapart : Apart fs paths) :
    ∃ t, (((dedup (sort c.dirs)).map dirEntry ++ (sortFiles c.files).map (entryOf fs)).map
        some).foldlM (unpackEntry tar) Tree.empty = .ok t ∧
      Written c.dirs t ((sortFiles c.files).map (content fs)) := by
  have hmem : ∀ d, d ∈ dedup (sort c.dirs) ↔ d ∈ c.dirs := fun d => by rw [mem_dedup, mem_sort]
  have hempty : Tree.empty = dirTree [] := by
    funext names
    unfold Tree.empty dirTree
    simp
  have hdirs : ((dedup (sort c.dirs)).map fun d => some (dirEntry d)).foldlM (unpackEntry tar)
      Tree.empty = .ok (dirTree c.dirs) := by
    have hsorted : ([] ++ dedup (sort c.dirs)).Pairwise (· ≤ ·) :=
      pairwise_dedup (pairwise_sort c.dirs)
    have hnested : ∀ d ∈ [] ++ dedup (sort c.dirs), Nested ([] ++ dedup (sort c.dirs)) d := by
      intro d hd
      obtain ⟨names, hne, hplain, rfl, hparent⟩ := hc.nested ((hmem d).1 hd)
      exact ⟨names, hne, hplain, rfl, hparent.imp_right (hmem _).2⟩
    rw [hempty, unpack_dirs htar hsorted hnested, List.nil_append, dirTree_congr hmem]
  have hentries : (sortFiles c.files).map (some ∘ entryOf fs) =
      ((sortFiles c.files).map (content fs)).map fun x => some (fileEntry (text x.1) x.2) := by
    rw [List.map_map]
    refine List.map_congr_left fun x hx => ?_
    obtain ⟨names, -, -, hname, hparts⟩ := hc.file (mem_sortFiles.1 hx)
    simp only [entryOf, content, Function.comp_apply, hparts, ← hname]
  have hwritten : Written c.dirs (dirTree c.dirs) [] := ⟨fun _ => Iff.rfl,
    fun _ hx => absurd hx List.not_mem_nil⟩
  have hmap : ∀ x ∈ (sortFiles c.files).map (content fs), ∃ y ∈ c.files, content fs y = x := by
    intro x hx
    obtain ⟨y, hy, rfl⟩ := List.mem_map.1 hx
    exact ⟨y, mem_sortFiles.1 hy, rfl⟩
  obtain ⟨t, hfiles, ht⟩ := unpack_files htar hwritten
    (fun x hx => by
      obtain ⟨y, hy, rfl⟩ := hmap x hx
      exact hc.fits hapart hy)
    (fun x hx x' hx' => by
      obtain ⟨y, hy, rfl⟩ := hmap x hx
      obtain ⟨y', hy', rfl⟩ := hmap x' hx'
      exact hc.same hapart hy hy')
  refine ⟨t, ?_, ht⟩
  rw [List.map_append, List.map_map, List.map_map, List.foldlM_append, hentries]
  exact (congrArg (· >>= _) hdirs).trans hfiles

theorem restored_of_written {c : Collected} (hc : Collects fs paths c) {t : Tree}
    (ht : Written c.dirs t ((sortFiles c.files).map (content fs))) : Restored fs paths t := by
  intro names q hq
  refine ⟨fun hdir => (ht.dirs names).2 ?_, fun hmd data hdata => ?_⟩
  · by_cases hne : names = []
    · exact if_pos (Or.inl hne)
    · have hd : text names ∈ c.dirs := (hc.dirs _).2 ⟨names, q, hq, hdir, hne, rfl⟩
      have hparts : parts (text names) = names := (parts_text hne hq.plain).1
      exact if_pos (Or.inr (List.mem_map.2 ⟨_, hd, hparts⟩))
  · have hx : (text names, q) ∈ c.files := (hc.files _ q).2 ⟨names, hq, hmd, rfl⟩
    have hparts : parts (text names) = names := (parts_text (hq.ne_nil hmd) hq.plain).1
    have hfile := ht.files _ (List.mem_map.2 ⟨_, mem_sortFiles.2 hx, rfl⟩)
    rw [content, hparts, hdata] at hfile
    exact hfile

/-- Packing fails only where something cannot be read. -/
theorem exists_packTar_iff (hpaths : Inputs fs paths) :
    (∃ archive, packTar tar.encode fs paths = .ok archive) ↔ AllReadable fs paths := by
  constructor
  · rintro ⟨archive, h⟩
    obtain ⟨c, es, hc, hes, -⟩ := packTar_eq_ok.1 h
    obtain ⟨hdirs, hcol⟩ := (collect_spec hpaths).2 c hc
    refine ⟨hdirs, fun hq hmd => ?_⟩
    exact (archived_eq_ok.1 hes).1 _ ((hcol.files _ _).2 ⟨_, hq, hmd, rfl⟩)
  · intro h
    obtain ⟨c, hc⟩ := (collect_spec hpaths).1 h.dirs
    have hcol := ((collect_spec hpaths).2 c hc).2
    refine ⟨_, packTar_eq_ok.2 ⟨c, _, hc, archived_eq_ok.2 ⟨fun x hx => ?_, rfl⟩, rfl⟩⟩
    obtain ⟨names, hq, hmd, -⟩ := hcol.file hx
    exact h.files hq hmd

theorem lossless_of_apart (htar : tar.Faithful) (hpaths : Inputs fs paths)
    (h : AllReadable fs paths → Apart fs paths) : Lossless tar fs paths := by
  intro archive hpack
  have hapart := h ((exists_packTar_iff hpaths).1 ⟨archive, hpack⟩)
  obtain ⟨c, es, hc, hes, rfl⟩ := packTar_eq_ok.1 hpack
  obtain ⟨-, hcol⟩ := (collect_spec hpaths).2 c hc
  obtain ⟨-, rfl⟩ := archived_eq_ok.1 hes
  obtain ⟨t, hunpack, ht⟩ := unpack_collected htar hcol hapart
  refine ⟨t, ?_, restored_of_written hcol ht⟩
  rw [unpackArchiveSafely, htar.entries_encode]
  exact hunpack

/-- One tree cannot hold two things under the same names. -/
theorem apart_of_lossless (hpaths : Inputs fs paths) (h : Lossless tar fs paths)
    (hread : AllReadable fs paths) : Apart fs paths := by
  obtain ⟨archive, hpack⟩ := (exists_packTar_iff hpaths).2 hread
  obtain ⟨t, -, ht⟩ := h archive hpack
  have hfile : ∀ {names q}, Packs fs paths names q → fs.metadata q = some .file →
      ∃ data, fs.contents q = some data ∧ t names = some (.file data) := by
    intro names q hq hmd
    obtain ⟨data, hdata⟩ := Option.ne_none_iff_exists'.1 (hread.files hq hmd)
    exact ⟨data, hdata, (ht names q hq).2 hmd data hdata⟩
  constructor
  · intro names q q' hq hq' hmd hmd'
    obtain ⟨data, hdata, hat⟩ := hfile hq hmd
    obtain ⟨data', hdata', hat'⟩ := hfile hq' hmd'
    have hsame : data = data' := by
      rw [hat] at hat'
      exact Object.file.inj (Option.some.inj hat')
    rw [hdata, hdata', hsame]
  · intro names q q' hq hq' hmd hdir
    obtain ⟨data, -, hat⟩ := hfile hq hmd
    have hat' := (ht names q' hq').1 hdir
    rw [hat] at hat'
    cases hat'

theorem reproducible (tar : Tar Archive) (fs : FileSystem) (paths : List PathBuf) :
    Reproducible tar fs paths := by
  intro fs' paths' hfs hpaths
  have hback : Relisted fs' fs := by
    refine ⟨hfs.metadata.symm, hfs.contents.symm, fun p => ?_⟩
    have hrel := hfs.readDir p
    revert hrel
    cases fs.readDir p <;> cases fs'.readDir p <;> intro hrel
    · exact .none
    · cases hrel
    · cases hrel
    · cases hrel with
      | some hperm => exact .some hperm.symm
  cases hpack : packTar tar.encode fs paths with
  | ok archive => rw [packTar_reordered hfs hpaths hpack]
  | error e =>
      cases hpack' : packTar tar.encode fs' paths' with
      | ok archive => rw [packTar_reordered hback hpaths.symm hpack'] at hpack; cases hpack
      | error e' => rfl

/-- The archive is the same every time, and what it holds can be had back when no name
stands for two things. -/
theorem lossless_iff (htar : tar.Faithful) (hpaths : Inputs fs paths) :
    (Lossless tar fs paths ∧ Reproducible tar fs paths) ↔
      (AllReadable fs paths → Apart fs paths) :=
  ⟨fun h => apart_of_lossless hpaths h.1,
    fun h => ⟨lossless_of_apart htar hpaths h, reproducible tar fs paths⟩⟩

end

/-! ### Two inputs of one name -/

/-- An extractor that keeps the entries as they are. -/
def standIn : Tar (List Entry) where
  encode es := es
  entries es := some (es.map some)
  unpackIn t e :=
    let names := parts e.path
    if components e.path = names.map .normal ∧ t names.dropLast = some .dir then
      match e.header.entryType, t names with
      | .directory, some (.file _) => none
      | .directory, _ => some (true, t.put names .dir)
      | .regular, some .dir => none
      | .regular, _ => some (true, t.put names (.file e.data))
      | _, _ => none
    else none

theorem standIn_faithful : standIn.Faithful := by
  have hparts : ∀ {e : Entry} {names : List String}, components e.path = names.map .normal →
      parts e.path = names := by
    intro e names h
    rw [parts, h, filterMap_name?_normal]
  constructor
  · exact fun es => rfl
  · intro t e names htype hpath hne hparent hself
    have hnames := hparts hpath
    simp only [standIn, hnames, hpath, hparent, and_self, if_true, htype]
    rcases hself with hself | hself <;> rw [hself]
  · intro t e names htype hpath hne hparent hself
    have hnames := hparts hpath
    simp only [standIn, hnames, hpath, hparent, and_self, if_true, htype]

def letter (b : UInt8) (h : IsName [b]) : Component OsName := .normal ⟨[b], h⟩

/-- A file `x` below the directory of the name given. -/
def xBelow (dir : Component OsName) : PathBuf := [.rootDir, dir, letter 0x78 (by decide)]

def inA : PathBuf := xBelow (letter 0x61 (by decide))

def inB : PathBuf := xBelow (letter 0x62 (by decide))

/-- Two files `x` in two directories, one with a byte in it. -/
def twoFiles : FileSystem where
  metadata p := if p = inA ∨ p = inB then some .file else none
  readDir _ := none
  contents p := if p = inA then some [] else if p = inB then some [0] else none
  pathMax := 3
  length_le {p} h := by
    split_ifs at h with hp
    · rcases hp with rfl | rfl <;> decide
    · exact absurd rfl h

theorem twoFiles_inputs : Inputs twoFiles [inA, inB] := by
  intro p hp
  rw [List.mem_cons, List.mem_singleton] at hp
  exact Or.inr (if_pos hp)

theorem twoFiles_readable : AllReadable twoFiles [inA, inB] := by
  constructor
  · intro p hp
    have hfile : twoFiles.metadata p = some .file := by
      rw [List.mem_cons, List.mem_singleton] at hp
      exact if_pos hp
    exact readable_of_ne (by rw [hfile]; nofun)
  · intro names q _ hq
    have hin : q = inA ∨ q = inB := by
      by_contra hne
      rw [twoFiles] at hq
      simp only [if_neg hne, reduceCtorEq] at hq
    rcases hin with rfl | rfl <;> decide

theorem twoFiles_packs {p : PathBuf} (hp : p ∈ [inA, inB]) :
    Packs twoFiles [inA, inB] [p.base] p :=
  ⟨p, hp, [], trivial, rfl, (PathBuf.joins_nil p).symm⟩

/-- Of two files of one name in two directories only one comes back. -/
theorem not_lossless_twoFiles :
    ¬ (Lossless standIn twoFiles [inA, inB] ∧ Reproducible standIn twoFiles [inA, inB]) := by
  rintro ⟨hlossless, -⟩
  have hapart := apart_of_lossless twoFiles_inputs hlossless twoFiles_readable
  have hname : inB.base = inA.base := by decide
  have hB := twoFiles_packs (p := inB) (by decide)
  rw [hname] at hB
  have hcontents := hapart.files (twoFiles_packs (by decide)) hB (by decide) (by decide)
  exact absurd hcontents (by decide)

def dirA : PathBuf := [.rootDir, letter 0x61 (by decide)]

/-- A directory with one file in it. -/
def oneDir : FileSystem where
  metadata p := if p = dirA then some .dir else if p = inA then some .file else none
  readDir p := if p = dirA then some [some ⟨[0x78], by decide⟩] else none
  contents p := if p = inA then some [0] else none
  pathMax := 3
  length_le {p} h := by
    split_ifs at h with hdir hfile
    · rw [hdir]; decide
    · rw [hfile]; decide
    · exact absurd rfl h

theorem oneDir_inputs : Inputs oneDir [dirA] := by
  intro p hp
  obtain rfl := List.mem_singleton.1 hp
  exact Or.inl (by decide)

theorem oneDir_file {q : PathBuf} (h : oneDir.metadata q = some .file) : q = inA := by
  rw [oneDir] at h
  by_contra hne
  simp only [if_neg hne] at h
  split_ifs at h
  cases h

theorem oneDir_apart : Apart oneDir [dirA] := by
  constructor
  · intro names q q' _ _ hmd hmd'
    rw [oneDir_file hmd, oneDir_file hmd']
  · rintro names q q' hq ⟨p, hp, ns, -, hnames, rfl⟩ hmd hdir
    obtain rfl := List.mem_singleton.1 hp
    have hjoin : dirA.joins ns = dirA := by
      rw [oneDir] at hdir
      by_contra hne
      simp only [if_neg hne] at hdir
      split_ifs at hdir
      cases hdir
    have hns : ns = [] := by simpa [PathBuf.joins] using hjoin
    subst hns
    exact hq.ne_nil hmd hnames

theorem lossless_oneDir :
    Lossless standIn oneDir [dirA] ∧ Reproducible standIn oneDir [dirA] :=
  (lossless_iff standIn_faithful oneDir_inputs).2 fun _ => oneDir_apart

end Arvolo.Archive
