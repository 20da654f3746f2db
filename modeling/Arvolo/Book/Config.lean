import Arvolo.Lib.Lines
import Arvolo.Lib.Toml
import Arvolo.Sync.Bridge

/-!
The editing of one key of `config.toml`: `set_config_value` of `engine/src/book/config.rs`.

The file is edited line by line, and what comes out is written if it parses. The `toml` crate is
a parameter, down to its scanner of lines.
-/

namespace Arvolo.Book

open Lib Sync
open Std (ExtTreeMap)

/-! ### The toml crate -/

structure TomlCrate where
  Value : Type
  Entry : Type
  scanner : Toml.Scanner Value
  tables : Toml.Tables Value Entry
  /-- `Display` of a value. -/
  display : Value → String
  /-- What the parse error says of a text. -/
  complaint : String → String

/-- A byte order mark is not part of the document. -/
def dropMark : List String → List String
  | [] => []
  | l :: rest =>
      (if l.toList.head? = some '\ufeff' then .ofList l.toList.tail else l) :: rest

namespace TomlCrate

variable (c : TomlCrate)

abbrev Table : Type := ExtTreeMap String c.Value

def meaning (stmts : List (Toml.Stmt c.Value)) : Option c.Table :=
  (Toml.run c.tables stmts).map (·.table c.tables)

/-- A document, as its lines. -/
def read (doc : List String) : Option c.Table := (c.scanner.scan none (dropMark doc)).bind c.meaning

/-- `text.parse::<toml::Table>()` -/
def parse (text : String) : Option c.Table := c.read (lines text)

end TomlCrate

/-! ### The edit -/

def trimStart (s : List Char) : List Char := s.dropWhile isWhitespace

/-- A line that assigns `key`, commented or not. -/
def assignsKey (key l : String) : Bool :=
  let t := trimStart ((trimStart l.toList).dropWhile (· == '#'))
  key.toList.isPrefixOf t && (trimStart (t.drop key.length)).head? == some '='

def opensTable (l : String) : Bool :=
  let t := trimStart l.toList
  t.head? != some '#' && t.head? == some '['

def commented (line : String) : String := .ofList ('#' :: trimStart line.toList)

/-- What becomes of the line that is found. -/
def replacement (newLine : Option String) (line : String) : String :=
  match newLine with
  | some l => l
  | none => if (trimStart line.toList).head? = some '#' then line else commented line

structure LineEdit where
  out : List String := []
  replaced : Bool := false
  sawTable : Bool := false

/-- One line of the loop. -/
def editLine (key : String) (newLine : Option String) (edit : LineEdit) (line : String) : LineEdit :=
  let edit := if opensTable line then { edit with sawTable := true } else edit
  if !edit.replaced && assignsKey key line then
    { edit with out := edit.out ++ [replacement newLine line], replaced := true }
  else { edit with out := edit.out ++ [line] }

/-- The lines of the file after the edit. -/
def editLines (key : String) (newLine : Option String) (existing : List String) :
    Except String (List String) :=
  let edit := existing.foldl (editLine key newLine) {}
  if edit.replaced then .ok edit.out
  else
    match newLine with
    | none => .ok edit.out
    | some l =>
        if edit.sawTable then
          .error ("config.toml has a [table] section, so `" ++ key ++
            "` cannot be appended safely — add it by hand above the first section header")
        else .ok (edit.out ++ [l])

section

variable (c : TomlCrate)

def assignLine (key : String) (v : c.Value) : String := key ++ " = " ++ c.display v

theorem toList_assignLine (key : String) (v : c.Value) :
    (assignLine c key v).toList = key.toList ++ " = ".toList ++ (c.display v).toList := by
  rw [assignLine, String.toList_append, String.toList_append]

def editText (existing key : String) (value : Option c.Value) : Except String String := do
  let out ← editLines key (value.map (assignLine c key)) (lines existing)
  let text := String.intercalate "\n" out ++ "\n"
  if (c.parse text).isSome then return text
  else
    .error ("that edit would make config.toml unparsable (" ++ c.complaint text ++
      ") — it was left untouched. Check for a duplicate `" ++ key ++ "` further down the file.")

/-- What is at the path of `config.toml`. -/
inductive ConfigFile
  | missing
  | text (s : String)
  /-- There, and `read_to_string` fails on it. -/
  | unreadable (content : List UInt8)
deriving DecidableEq

/-- `read_to_string(..).unwrap_or_default()` -/
def ConfigFile.readToString : ConfigFile → String
  | text s => s
  | missing | unreadable _ => ""

@[simp] theorem readToString_text (s : String) : (ConfigFile.text s).readToString = s := rfl

/-- How `fs::write` goes; a write that fails may leave anything. -/
inductive Write
  | done
  | failed (left : ConfigFile)

def setConfigValue (w : Write) (file : ConfigFile) (key : String) (value : Option c.Value) :
    Except String Unit × ConfigFile :=
  match editText c file.readToString key value with
  | .error e => (.error e, file)
  | .ok text =>
      match w with
      | .done => (.ok (), .text text)
      | .failed left => (.error "write config.toml", left)

end

/-! ### What the edit does to the lines -/

section

variable {key : String} {newLine : Option String} {L : List String}

theorem foldl_editLine {edit : LineEdit}
    (h : edit.replaced = true ∨ ∀ l ∈ L, assignsKey key l = false) :
    L.foldl (editLine key newLine) edit =
      { edit with out := edit.out ++ L, sawTable := edit.sawTable || L.any opensTable } := by
  induction L generalizing edit with
  | nil => simp
  | cons l L ih =>
      have hl : (!edit.replaced && assignsKey key l) = false := by
        rcases h with h | h
        · simp [h]
        · simp [h l List.mem_cons_self]
      have hstep : editLine key newLine edit l =
          { edit with out := edit.out ++ [l], sawTable := edit.sawTable || opensTable l } := by
        rw [editLine]
        cases ht : opensTable l <;> simp [hl]
      have hrest : edit.replaced = true ∨ ∀ x ∈ L, assignsKey key x = false :=
        h.imp_right fun h x hx => h x (List.mem_cons_of_mem l hx)
      rw [List.foldl_cons, hstep, ih (by exact hrest)]
      simp [Bool.or_assoc]

/-- The first line that assigns the key is replaced. -/
theorem editLines_found {pre post : List String} {l : String}
    (hpre : ∀ x ∈ pre, assignsKey key x = false) (hl : assignsKey key l = true) :
    editLines key newLine (pre ++ l :: post) = .ok (pre ++ replacement newLine l :: post) := by
  have hstep (table : Bool) : editLine key newLine ⟨pre, false, table⟩ l =
      ⟨pre ++ [replacement newLine l], true, table || opensTable l⟩ := by
    rw [editLine]
    cases ht : opensTable l <;> simp [hl]
  unfold editLines
  rw [List.foldl_append, foldl_editLine (.inr hpre), List.foldl_cons, List.nil_append, hstep,
    foldl_editLine (.inl rfl)]
  simp

theorem editLines_absent (newLine : Option String) (h : ∀ x ∈ L, assignsKey key x = false) :
    editLines key newLine L =
      match newLine with
      | none => .ok L
      | some l =>
          if L.any opensTable then
            .error ("config.toml has a [table] section, so `" ++ key ++
              "` cannot be appended safely — add it by hand above the first section header")
          else .ok (L ++ [l]) := by
  unfold editLines
  rw [foldl_editLine (.inr h)]
  rfl

end

/-! ### What is taken for granted of TOML -/

/-- A bare key of TOML. -/
def BareKey (key : String) : Prop :=
  key ≠ "" ∧ ∀ ch ∈ key.toList, ch.isAlphanum ∨ ch = '-' ∨ ch = '_'

/-- What the TOML grammar and the crate's printer promise. -/
structure TomlCrate.Lawful (c : TomlCrate) : Prop where
  empty : c.scanner.line none "" = some (.inr .blank)
  comment : ∀ l s, (trimStart l.toList).head? = some '#' →
    c.scanner.line none l = some (.inr s) → s = .blank
  /-- A whole statement behind a `#` is a comment. -/
  commented : ∀ l s, c.scanner.line none l = some (.inr s) →
    c.scanner.line none (commented l) = some (.inr .blank)
  /-- A carriage return stands nowhere but before a line feed. -/
  noCr : ∀ o l, (c.scanner.line o l).isSome → '\r' ∉ l.toList
  displayCr : ∀ v, '\r' ∉ (c.display v).toList
  /-- A value that is printed behind a bare key is read back. -/
  display : ∀ key v, BareKey key →
    c.scanner.scan none (pieces (assignLine c key v)) = some [.assign key [] v]

/-! ### An edit that edits its key -/

/-- Nothing but lines that assign the key is gone. -/
def Kept (key : String) (before after : List String) : Prop :=
  ∃ pre cut put post, before = pre ++ cut ++ post ∧ after = pre ++ put ++ post ∧
    ∀ l ∈ cut, assignsKey key l = true

def ConfigFile.Readable : ConfigFile → Prop
  | missing | text _ => True
  | unreadable _ => False

section

variable (c : TomlCrate)

/-- The table with the key set, or cleared. -/
def edited (T : c.Table) (key : String) : Option c.Value → c.Table
  | some v => T.insert key v
  | none => T.erase key

/-- A call that succeeds edits the key in the table and keeps the other lines. A file that was not
read, and one that the call refuses to edit, stays as it was. -/
def EditsExactly (w : Write) (file : ConfigFile) (key : String) (value : Option c.Value) : Prop :=
  match setConfigValue c w file key value with
  | (.error _, file') => file' = file
  | (.ok (), file') =>
      (¬ file.Readable → file' = file) ∧
      (file.Readable → ∀ T, c.parse file.readToString = some T →
        c.parse file'.readToString = some (edited c T key value) ∧
          Kept key (lines file.readToString) (lines file'.readToString))

/-- The first line that assigns the key, and the statement that this line is as a whole: above it
there are whole statements and no header. -/
structure FirstLine (key : String) (doc : List String) (s : Toml.Stmt c.Value) where
  pre : List String
  line : String
  post : List String
  stmts : List (Toml.Stmt c.Value)
  doc_eq : doc = pre ++ line :: post
  first : ∀ x ∈ pre, assignsKey key x = false
  assigns : assignsKey key line = true
  scanned : c.scanner.scan none (dropMark pre) = some stmts
  root : ∀ s ∈ stmts, s.isHeader = false
  whole : c.scanner.line none line = some (.inr s)

theorem FirstLine.line_mem {c : TomlCrate} {key : String} {doc : List String} {s : Toml.Stmt c.Value}
    (F : FirstLine c key doc s) : F.line ∈ doc :=
  (congrArg (F.line ∈ ·) F.doc_eq).mpr (by simp)

theorem FirstLine.find?_eq {c : TomlCrate} {key : String} {doc : List String} {s : Toml.Stmt c.Value}
    (F : FirstLine c key doc s) : doc.find? (assignsKey key) = some F.line := by
  refine (congrArg (List.find? (assignsKey key)) F.doc_eq).trans ?_
  have hpre : F.pre.find? (assignsKey key) = none :=
    List.find?_eq_none.2 fun x hx => by simp [F.first x hx]
  rw [List.find?_append, hpre, Option.none_or, List.find?_cons_of_pos F.assigns]

/-- The edit lands in the root: on a line of its own that assigns the key or is a comment, or at
the end of a file without headers. -/
inductive Rooted (key : String) (doc : List String) : Prop
  | live (w : c.Value) (h : Nonempty (FirstLine c key doc (.assign key [] w)))
  | comment (h : Nonempty (FirstLine c key doc .blank))
  | absent (h : ∀ x ∈ doc, assignsKey key x = false)
      (root : doc.any opensTable = false →
        ∀ stmts, c.scanner.scan none (dropMark doc) = some stmts → ∀ s ∈ stmts, s.isHeader = false)

/-- The first line that assigns the key is no comment. -/
def Live (key : String) (doc : List String) : Prop :=
  ∃ w, Nonempty (FirstLine c key doc (.assign key [] w))

end

/-! ### The byte order mark, carriage returns and line feeds -/

section

variable {key : String} {doc pre post : List String} {l : String}

def Unmarked (l : String) : Prop := l.toList.head? ≠ some '\ufeff'

theorem dropMark_append (hl : Unmarked l) :
    dropMark (pre ++ l :: post) = dropMark pre ++ l :: post := by
  cases pre with
  | nil => exact congrArg (· :: post) (if_neg hl)
  | cons x pre => rfl

theorem notMem_of_dropMark {ch : Char} (hch : ch ≠ '\ufeff')
    (h : ∀ l ∈ dropMark doc, ch ∉ l.toList) : ∀ l ∈ doc, ch ∉ l.toList := by
  cases doc with
  | nil => exact h
  | cons l doc =>
      rw [dropMark, List.forall_mem_cons] at h
      rw [List.forall_mem_cons]
      refine ⟨fun hmem => h.1 ?_, h.2⟩
      split_ifs with hmark
      · rw [String.toList_ofList]
        rw [← List.cons_head?_tail hmark, List.mem_cons] at hmem
        exact hmem.resolve_left hch
      · exact hmem

theorem BareKey.unmarked_of_isPrefix {cs : List Char} (hkey : BareKey key)
    (h : key.toList <+: cs) : cs.head? ≠ some '\ufeff' := by
  obtain ⟨rest, rfl⟩ := h
  obtain ⟨ch, chs, hcs⟩ :=
    List.exists_cons_of_ne_nil fun hnil => hkey.1 (String.toList_eq_nil_iff.1 hnil)
  have hch := hkey.2 ch (by simp [hcs])
  rw [hcs]
  rintro ⟨⟩
  revert hch
  decide

theorem BareKey.unmarked (hkey : BareKey key) (hl : assignsKey key l = true) : Unmarked l := by
  intro hhead
  obtain ⟨cs, hcs⟩ : ∃ cs, l.toList = '\ufeff' :: cs :=
    ⟨_, (List.cons_head?_tail hhead).symm⟩
  have hprefix : key.toList <+: l.toList := by
    rw [assignsKey, Bool.and_eq_true, List.isPrefixOf_iff_prefix] at hl
    have htrim : trimStart ((trimStart l.toList).dropWhile (· == '#')) = l.toList := by
      rw [hcs]
      rfl
    exact htrim ▸ hl.1
  exact hkey.unmarked_of_isPrefix hprefix hhead

end

section

variable {c : TomlCrate} {key : String} {v : c.Value} {T : c.Table}

theorem exists_pieces_assignLine (hkey : BareKey key) :
    ∃ l rest, pieces (assignLine c key v) = l :: rest ∧ Unmarked l := by
  have hne := pieces_ne_nil (assignLine c key v)
  have hmem {ch : Char} (hch : ch ∈ key.toList) : ch ≠ '\n' := by
    rintro rfl
    have h := hkey.2 _ hch
    revert h
    decide
  have hcs := toList_assignLine c key v
  obtain ⟨ch, chs, hkeycs⟩ :=
    List.exists_cons_of_ne_nil fun hnil => hkey.1 (String.toList_eq_nil_iff.1 hnil)
  have hch : ch ≠ '\n' := hmem (by simp [hkeycs])
  have hmark : ch ≠ '\ufeff' := fun heq =>
    hkey.unmarked_of_isPrefix (List.prefix_refl _) (by rw [hkeycs, heq]; rfl)
  rw [pieces, hcs, hkeycs, List.cons_append, List.cons_append, List.splitOn_cons_eq_if_modifyHead,
    if_neg (by simpa using hch)]
  obtain ⟨p, ps, hcut⟩ := List.exists_cons_of_ne_nil
    (List.splitOn_ne_nil '\n' (chs ++ " = ".toList ++ (c.display v).toList))
  rw [hcut]
  exact ⟨_, _, rfl, by simpa [Unmarked] using hmark⟩

theorem TomlCrate.Lawful.notMem_assignLine (hc : c.Lawful) (hkey : BareKey key) :
    '\r' ∉ (assignLine c key v).toList := by
  rw [toList_assignLine]
  simp only [List.mem_append, not_or]
  refine ⟨⟨fun hmem => ?_, by decide⟩, hc.displayCr v⟩
  have h := hkey.2 _ hmem
  revert h
  decide

theorem notMem_commented {ch : Char} {l : String} (hch : ch ≠ '#') (hl : ch ∉ l.toList) :
    ch ∉ (commented l).toList := by
  rw [commented, String.toList_ofList, List.mem_cons, not_or]
  exact ⟨hch, fun hmem => hl ((List.dropWhile_suffix isWhitespace).mem hmem)⟩

theorem TomlCrate.Lawful.notMem_of_read {doc : List String} (hc : c.Lawful)
    (h : c.read doc = some T) : ∀ l ∈ doc, '\r' ∉ l.toList := by
  obtain ⟨stmts, hscan, -⟩ := Option.bind_eq_some_iff.1 h
  exact notMem_of_dropMark (by decide) (Toml.Scanner.notMem_of_scan hc.noCr hscan)

end

/-! ### What the document says then -/

section

variable {c : TomlCrate} {key : String} {v : c.Value} {T : c.Table}
  {P Q : List (Toml.Stmt c.Value)} {pre post : List String}

@[simp] theorem meaning_blank : c.meaning (P ++ .blank :: Q) = c.meaning (P ++ Q) := by
  rw [TomlCrate.meaning, TomlCrate.meaning, Toml.run, Toml.run, List.foldlM_append,
    List.foldlM_append]
  rfl

theorem meaning_assign (hP : ∀ s ∈ P, s.isHeader = false)
    (h : c.meaning (P ++ .assign key [] v :: Q) = some T) :
    T[key]? = some v ∧ c.meaning (P ++ Q) = some (T.erase key) ∧
      ∀ w, c.meaning (P ++ .assign key [] w :: Q) = some (T.insert key w) := by
  obtain ⟨root, hrun, rfl⟩ := Option.map_eq_some_iff.1 h
  obtain ⟨hv, herase, hput⟩ := Toml.run_assign hP hrun
  refine ⟨?_, ?_, fun w => ?_⟩
  · rw [Toml.Root.table, ExtTreeMap.getElem?_map, hv]
    rfl
  · rw [TomlCrate.meaning, herase, Option.map_some, Toml.table_erase]
  · rw [TomlCrate.meaning, hput w, Option.map_some, Toml.table_put]

/-- The lines of one statement between others. -/
theorem read_put {l : String} {rest : List String} {s : Toml.Stmt c.Value}
    (hpre : c.scanner.scan none (dropMark pre) = some P) (hl : Unmarked l)
    (hput : c.scanner.scan none (l :: rest) = some [s]) :
    c.read (pre ++ l :: rest ++ post) =
      (c.scanner.scan none post).bind fun Q => c.meaning (P ++ s :: Q) := by
  rw [TomlCrate.read, List.append_assoc, List.cons_append, dropMark_append hl,
    Toml.Scanner.scan_append hpre, ← List.cons_append, Toml.Scanner.scan_append hput]
  cases c.scanner.scan none post with
  | none => rfl
  | some Q => simp

end

/-! ### The edit as a whole -/

section

variable {c : TomlCrate} {file : ConfigFile} {key : String} {value : Option c.Value} {T : c.Table}
  {out after : List String}

theorem flatMap_pieces {L : List String} (h : ∀ l ∈ L, '\n' ∉ l.toList) : L.flatMap pieces = L := by
  induction L with
  | nil => rfl
  | cons l L ih =>
      rw [List.forall_mem_cons] at h
      rw [List.flatMap_cons, pieces_eq_singleton h.1, ih h.2, List.singleton_append]

theorem editsExactly_of_editLines (value : Option c.Value) (hfile : file.Readable)
    (hT : c.parse file.readToString = some T)
    (hout : editLines key (value.map (assignLine c key)) (lines file.readToString) = .ok out)
    (hafter : lines (String.intercalate "\n" out ++ "\n") = after) :
    EditsExactly c .done file key value ↔
      ∀ T', c.read after = some T' →
        T' = edited c T key value ∧ Kept key (lines file.readToString) after := by
  have hparse : c.parse (String.intercalate "\n" out ++ "\n") = c.read after := by
    rw [TomlCrate.parse, hafter]
  have htext : editText c file.readToString key value =
      if (c.read after).isSome then .ok (String.intercalate "\n" out ++ "\n")
      else .error ("that edit would make config.toml unparsable (" ++
        c.complaint (String.intercalate "\n" out ++ "\n") ++
        ") — it was left untouched. Check for a duplicate `" ++ key ++
        "` further down the file.") := by
    rw [editText, hout, ← hparse]
    rfl
  rw [EditsExactly, setConfigValue, htext]
  cases hread : c.read after with
  | none => simp
  | some T' =>
      simp only [Option.isSome_some, if_true, Option.some.injEq, forall_eq', hfile, not_true_eq_false,
        false_implies, true_implies, true_and, hT, readToString_text, hparse, hread, hafter]

section

variable (hc : c.Lawful) (hkey : BareKey key) (hfile : file.Readable)
  (hT : c.parse file.readToString = some T)

include hc hfile hT

/-- The line that is found is edited. -/
theorem editsExactly_of_found {s s' : Toml.Stmt c.Value} (value : Option c.Value) (l' : String)
    (rest : List String)
    (F : FirstLine c key (lines file.readToString) s) (hkey : BareKey key)
    (hpieces : pieces (replacement (value.map (assignLine c key)) F.line) = l' :: rest)
    (hl' : Unmarked l')
    (hcr : '\r' ∉ (replacement (value.map (assignLine c key)) F.line).toList)
    (hscan : c.scanner.scan none (l' :: rest) = some [s']) :
    ∃ Q, c.meaning (F.stmts ++ s :: Q) = some T ∧
      (EditsExactly c .done file key value ↔
        ∀ T', c.meaning (F.stmts ++ s' :: Q) = some T' → T' = edited c T key value) := by
  have hdoc : c.read (F.pre ++ [F.line] ++ F.post) = some T := by
    rw [List.append_assoc, List.singleton_append, ← F.doc_eq]
    exact hT
  have hlf : ∀ l ∈ F.pre ++ F.line :: F.post, '\n' ∉ l.toList := by
    rw [← F.doc_eq]
    exact fun l => notMem_of_mem_lines
  have hnocr : ∀ l ∈ F.pre ++ F.line :: F.post, '\r' ∉ l.toList := by
    rw [← F.doc_eq]
    exact hc.notMem_of_read hT
  rw [read_put F.scanned (hkey.unmarked F.assigns) (Toml.Scanner.scan_singleton F.whole)] at hdoc
  obtain ⟨Q, hQ, hmeaning⟩ := Option.bind_eq_some_iff.1 hdoc
  refine ⟨Q, hmeaning, ?_⟩
  have hafter : lines (String.intercalate "\n" (F.pre ++
      replacement (value.map (assignLine c key)) F.line :: F.post) ++ "\n") =
      F.pre ++ (l' :: rest) ++ F.post := by
    rw [lines_join (by simp), List.flatMap_append, List.flatMap_cons, hpieces,
      flatMap_pieces fun l hl => hlf l (List.mem_append_left _ hl),
      flatMap_pieces fun l hl => hlf l (List.mem_append_right _ (List.mem_cons_of_mem _ hl)),
      List.append_assoc]
    intro l hl
    rcases List.mem_append.1 hl with hl | hl
    · exact hnocr l (List.mem_append_left _ hl)
    · rcases List.mem_cons.1 hl with rfl | hl
      · exact hcr
      · exact hnocr l (List.mem_append_right _ (List.mem_cons_of_mem _ hl))
  have hout := (congrArg (editLines key (value.map (assignLine c key))) F.doc_eq).trans
    (editLines_found F.first F.assigns)
  rw [editsExactly_of_editLines _ hfile hT hout hafter, read_put F.scanned hl' hscan, hQ,
    Option.bind_some]
  have hkept : Kept key (lines file.readToString) (F.pre ++ (l' :: rest) ++ F.post) :=
    ⟨F.pre, [F.line], l' :: rest, F.post, by rw [List.append_assoc]; exact F.doc_eq, rfl,
      fun l hl => List.mem_singleton.1 hl ▸ F.assigns⟩
  simp only [hkept, and_true]

include hkey

/-- A key that is set: the line becomes `key = v`. -/
theorem editsExactly_set {s : Toml.Stmt c.Value} (F : FirstLine c key (lines file.readToString) s)
    (v : c.Value) :
    ∃ Q, c.meaning (F.stmts ++ s :: Q) = some T ∧
      (EditsExactly c .done file key (some v) ↔
        ∀ T', c.meaning (F.stmts ++ .assign key [] v :: Q) = some T' → T' = T.insert key v) := by
  obtain ⟨l', rest, hpieces, hl'⟩ := exists_pieces_assignLine (c := c) (v := v) hkey
  refine editsExactly_of_found hc hfile hT (some v) l' rest F hkey hpieces hl'
    (hc.notMem_assignLine hkey) ?_
  rw [← hpieces]
  exact hc.display key v hkey

/-- A key that is cleared: the line is a comment. -/
theorem editsExactly_clear {s : Toml.Stmt c.Value} (F : FirstLine c key (lines file.readToString) s) :
    ∃ Q, c.meaning (F.stmts ++ s :: Q) = some T ∧
      (EditsExactly c .done file key none ↔
        ∀ T', c.meaning (F.stmts ++ .blank :: Q) = some T' → T' = T.erase key) := by
  have hlf := notMem_of_mem_lines F.line_mem
  have hcr := hc.notMem_of_read hT F.line F.line_mem
  by_cases hhash : (trimStart F.line.toList).head? = some '#'
  · have hline : replacement (Option.map (assignLine c key) none) F.line = F.line := if_pos hhash
    have hblank := hc.comment F.line s hhash F.whole
    refine editsExactly_of_found hc hfile hT none F.line [] F hkey
      ?_ (hkey.unmarked F.assigns) ?_ ?_
    · rw [hline, pieces_eq_singleton hlf]
    · rwa [hline]
    · exact Toml.Scanner.scan_singleton (hblank ▸ F.whole)
  · have hline : replacement (Option.map (assignLine c key) none) F.line = commented F.line :=
      if_neg hhash
    refine editsExactly_of_found hc hfile hT none (commented F.line) [] F
      hkey ?_ ?_ ?_ ?_
    · rw [hline, pieces_eq_singleton (notMem_commented (by decide) hlf)]
    · rw [Unmarked, commented, String.toList_ofList, List.head?_cons]
      decide
    · rw [hline]
      exact notMem_commented (by decide) hcr
    · exact Toml.Scanner.scan_singleton (hc.commented F.line s F.whole)

end

end

/-! ### When the edit edits its key -/

section

variable {c : TomlCrate} {file : ConfigFile} {key : String} {value : Option c.Value} {T : c.Table}
  {w : Write}

theorem FirstLine.unique {doc : List String} {s s' : Toml.Stmt c.Value} (F : FirstLine c key doc s)
    (F' : FirstLine c key doc s') : s = s' := by
  have hline : F.line = F'.line := Option.some.inj (F.find?_eq.symm.trans F'.find?_eq)
  exact Sum.inr.inj (Option.some.inj (F.whole.symm.trans (hline ▸ F'.whole)))

theorem eq_erase_iff {key : String} : T = T.erase key ↔ key ∉ T := by
  constructor
  · intro h hmem
    rw [h] at hmem
    simp at hmem
  · intro h
    ext k : 1
    rw [ExtTreeMap.getElem?_erase]
    split
    next hk =>
      rw [← Std.compare_eq_iff_eq.1 hk]
      exact ExtTreeMap.getElem?_eq_none h
    next => rfl

theorem insert_erase_self {v : c.Value} (h : T[key]? = some v) : (T.erase key).insert key v = T := by
  ext k : 1
  rw [ExtTreeMap.getElem?_insert, ExtTreeMap.getElem?_erase]
  split
  next hk => rw [← Std.compare_eq_iff_eq.1 hk, h]
  next => rfl

/-- A write that does not happen, with a file that is left as it was. -/
theorem editsExactly_failed : EditsExactly c (.failed file) file key value := by
  rw [EditsExactly, setConfigValue]
  cases editText c file.readToString key value <;> rfl

/-- No line assigns the key. -/
theorem editsExactly_absent (hc : c.Lawful) (hkey : BareKey key) (hfile : file.Readable)
    (hT : c.parse file.readToString = some T)
    (h : ∀ x ∈ lines file.readToString, assignsKey key x = false)
    (hroot : (lines file.readToString).any opensTable = false → ∀ stmts,
      c.scanner.scan none (dropMark (lines file.readToString)) = some stmts →
        ∀ s ∈ stmts, s.isHeader = false) :
    EditsExactly c .done file key value ↔ (value = none → key ∉ T) := by
  have hlf : (lines file.readToString).flatMap pieces = lines file.readToString :=
    flatMap_pieces fun l => notMem_of_mem_lines
  have hcr := hc.notMem_of_read hT
  have hread : c.read (lines file.readToString) = some T := hT
  obtain ⟨P, hP, hmeaning⟩ := Option.bind_eq_some_iff.1 hread
  cases value with
  | none =>
      have hout := editLines_absent (Option.map (assignLine c key) none) h
      have herase : T = T.erase key ↔ key ∉ T := eq_erase_iff
      simp only [true_implies, ← herase]
      by_cases hempty : lines file.readToString = []
      · have hafter : lines (String.intercalate "\n" (lines file.readToString) ++ "\n") = [""] := by
          rw [hempty]
          decide
        have hnothing : c.read [""] = some T := by
          rw [hempty] at hP
          obtain rfl := Option.some.inj hP
          have hscan := Toml.Scanner.scan_singleton hc.empty
          exact (congrArg (Option.bind · c.meaning) hscan).trans
            ((meaning_blank (P := []) (Q := [])).trans hmeaning)
        rw [editsExactly_of_editLines _ hfile hT hout hafter, hnothing, hempty]
        simp only [Option.some.injEq, forall_eq', edited, and_iff_left_iff_imp]
        exact fun _ => ⟨[], [], [""], [], rfl, rfl, by simp⟩
      · have hafter : lines (String.intercalate "\n" (lines file.readToString) ++ "\n") =
            lines file.readToString := by rw [lines_join hempty hcr, hlf]
        rw [editsExactly_of_editLines _ hfile hT hout hafter, hread]
        simp only [Option.some.injEq, forall_eq', edited, and_iff_left_iff_imp]
        exact fun _ => ⟨lines file.readToString, [], [], [], by simp, by simp, by simp⟩
  | some v =>
      simp only [reduceCtorEq, false_implies, iff_true]
      have hout := editLines_absent (Option.map (assignLine c key) (some v)) h
      cases htable : (lines file.readToString).any opensTable with
      | true =>
          simp only [Option.map_some, htable, if_true] at hout
          rw [EditsExactly, setConfigValue, editText, Option.map_some, hout]
          rfl
      | false =>
          simp only [Option.map_some, htable, Bool.false_eq_true, if_false] at hout
          obtain ⟨l', rest, hpieces, hl'⟩ := exists_pieces_assignLine (c := c) (v := v) hkey
          have hafter : lines (String.intercalate "\n"
              (lines file.readToString ++ [assignLine c key v]) ++ "\n") =
              lines file.readToString ++ l' :: rest ++ [] := by
            rw [lines_join (by simp), List.flatMap_append, hlf, List.flatMap_singleton, hpieces,
              List.append_nil]
            intro l hl
            rcases List.mem_append.1 hl with hl | hl
            · exact hcr l hl
            · rw [List.mem_singleton.1 hl]
              exact hc.notMem_assignLine hkey
          have hscan := hpieces ▸ hc.display key v hkey
          have hiff := editsExactly_of_editLines (some v) hfile hT hout hafter
          rw [hiff, read_put hP hl' hscan]
          intro T' hT'
          obtain ⟨hv, hrest, -⟩ := meaning_assign (Q := []) (hroot htable P hP) hT'
          refine ⟨?_, lines file.readToString, [], l' :: rest, [], by simp, rfl, by simp⟩
          rw [List.append_nil, hmeaning] at hrest
          rw [Option.some.inj hrest]
          exact (insert_erase_self hv).symm

/-- From nothing a file is always made. -/
theorem exists_editText_empty (hc : c.Lawful) (hkey : BareKey key) (value : Option c.Value) :
    ∃ text, editText c "" key value = .ok text := by
  suffices h : ∃ out, editLines key (value.map (assignLine c key)) (lines "") = .ok out ∧
      (c.parse (String.intercalate "\n" out ++ "\n")).isSome by
    obtain ⟨out, hout, hparse⟩ := h
    refine ⟨String.intercalate "\n" out ++ "\n", ?_⟩
    rw [editText, hout]
    exact if_pos hparse
  cases value with
  | none =>
      refine ⟨[], rfl, ?_⟩
      have hread : c.parse "\n" = c.meaning [.blank] :=
        congrArg (Option.bind · c.meaning) (Toml.Scanner.scan_singleton hc.empty)
      exact Option.isSome_iff_exists.2 ⟨_, hread⟩
  | some v =>
      refine ⟨[assignLine c key v], rfl, ?_⟩
      obtain ⟨l', rest, hpieces, hl'⟩ := exists_pieces_assignLine (c := c) (v := v) hkey
      have hcr : ∀ s ∈ [assignLine c key v], '\r' ∉ s.toList := fun s hs =>
        List.mem_singleton.1 hs ▸ hc.notMem_assignLine hkey
      have hread : c.read ([] ++ l' :: rest ++ []) = c.meaning [.assign key [] v] :=
        read_put (P := []) rfl hl' (hpieces ▸ hc.display key v hkey)
      rw [TomlCrate.parse, lines_join (by simp) hcr, List.flatMap_singleton, hpieces]
      rw [List.nil_append, List.append_nil] at hread
      rw [hread]
      rfl

/-- An edit that lands in the root goes wrong in two ways: a key that is cleared stays assigned
where the first line that looks like its assignment is not it, and a file that could not be read is
written anew. -/
theorem editsExactly_iff (hc : c.Lawful) (hkey : BareKey key)
    (hT : c.parse file.readToString = some T) (hrooted : Rooted c key (lines file.readToString))
    (hw : ∀ left, w = .failed left → left = file) :
    EditsExactly c w file key value ↔
      (w = .done → file.Readable ∧
        (value = none → Live c key (lines file.readToString) ∨ key ∉ T)) := by
  cases w with
  | failed left =>
      obtain rfl := hw left rfl
      simp [editsExactly_failed]
  | done =>
      simp only [true_implies]
      by_cases hfile : file.Readable
      · simp only [hfile, true_and]
        cases hrooted with
        | absent h hroot =>
            have hlive : ¬ Live c key (lines file.readToString) := by
              rintro ⟨_, ⟨F⟩⟩
              exact absurd F.assigns (by simp [h _ F.line_mem])
            simp only [editsExactly_absent hc hkey hfile hT h hroot, hlive, false_or]
        | live u h =>
            obtain ⟨F⟩ := h
            have hlive : Live c key (lines file.readToString) := ⟨u, ⟨F⟩⟩
            simp only [hlive, true_or, implies_true, iff_true]
            cases value with
            | some v =>
                obtain ⟨Q, hQ, hiff⟩ := editsExactly_set hc hkey hfile hT F v
                rw [hiff, (meaning_assign F.root hQ).2.2 v]
                exact fun T' h => (Option.some.inj h).symm
            | none =>
                obtain ⟨Q, hQ, hiff⟩ := editsExactly_clear hc hkey hfile hT F
                rw [hiff, meaning_blank, (meaning_assign F.root hQ).2.1]
                exact fun T' h => (Option.some.inj h).symm
        | comment h =>
            obtain ⟨F⟩ := h
            have hlive : ¬ Live c key (lines file.readToString) := by
              rintro ⟨_, ⟨F'⟩⟩
              cases F.unique F'
            simp only [hlive, false_or]
            cases value with
            | some v =>
                obtain ⟨Q, hQ, hiff⟩ := editsExactly_set hc hkey hfile hT F v
                rw [hiff]
                simp only [reduceCtorEq, false_implies, iff_true]
                intro T' hT'
                obtain ⟨hv, hrest, -⟩ := meaning_assign F.root hT'
                rw [meaning_blank, hrest] at hQ
                rw [← Option.some.inj hQ]
                exact (insert_erase_self hv).symm
            | none =>
                obtain ⟨Q, hQ, hiff⟩ := editsExactly_clear hc hkey hfile hT F
                rw [hiff, hQ, ← eq_erase_iff]
                simp
      · obtain ⟨content, rfl⟩ : ∃ content, file = .unreadable content := by
          cases file with
          | missing | text _ => exact absurd trivial hfile
          | unreadable content => exact ⟨content, rfl⟩
        obtain ⟨text, htext⟩ := exists_editText_empty hc hkey value
        have hset : setConfigValue c .done (.unreadable content) key value = (.ok (), .text text) := by
          rw [setConfigValue, show (ConfigFile.unreadable content).readToString = "" from rfl, htext]
        simp [EditsExactly, hset, hfile]

end

/-! ### A crate for flags -/

def isBareChar (ch : Char) : Bool := ch.isAlphanum || ch == '-' || ch == '_'

/-- The lines of a file in which every key is a flag. -/
def flagLine (l : String) : Option (Toml.Stmt Bool) :=
  let t := trimStart l.toList
  let key := t.takeWhile isBareChar
  if '\r' ∈ l.toList then none
  else if t.head? = none ∨ t.head? = some '#' then some .blank
  else if key = [] then none
  else if t.dropWhile isBareChar = " = true".toList then some (.assign (.ofList key) [] true)
  else if t.dropWhile isBareChar = " = false".toList then some (.assign (.ofList key) [] false)
  else none

abbrev flags : TomlCrate where
  Value := Bool
  Entry := Empty
  scanner :=
    { Open := Empty
      line _ l := (flagLine l).map .inr }
  tables :=
    { value := Empty.elim
      dotted _ _ _ := none
      header _ _ _ := none
      under _ _ _ _ := none }
  display v := if v then "true" else "false"
  complaint _ := "TOML parse error"

theorem flags_line_eq_some_iff {o : Option flags.scanner.Open} {l : String}
    {s : Toml.Stmt flags.Value} :
    flags.scanner.line o l = some (.inr s) ↔ flagLine l = some s := by
  constructor
  · intro h
    obtain ⟨s', hs', heq⟩ := Option.map_eq_some_iff.1 h
    exact hs'.trans (congrArg some (Sum.inr.inj heq))
  · intro h
    exact congrArg (Option.map Sum.inr) h

theorem BareKey.not_isWhitespace {key : String} (hkey : BareKey key) {ch : Char}
    (h : ch ∈ key.toList) : isWhitespace ch = false := by
  have hch := hkey.2 ch h
  have hrange : (0x30 ≤ ch.toNat ∧ ch.toNat ≤ 0x7a) ∨ ch = '-' := by
    simp only [Char.isAlphanum, Char.isAlpha, Char.isUpper, Char.isLower, Char.isDigit,
      Bool.or_eq_true, Bool.and_eq_true, decide_eq_true_eq, ge_iff_le, UInt32.le_iff_toNat_le] at hch
    rcases hch with hch | rfl | rfl
    · left
      rcases hch with (h | h) | h <;> simp at h <;> omega
    · exact .inr rfl
    · exact .inl (by decide)
  rcases hrange with hrange | rfl
  · simp only [isWhitespace, Bool.or_eq_false_iff, Bool.and_eq_false_iff,
      decide_eq_false_iff_not, beq_eq_false_iff_ne, ne_eq]
    omega
  · decide

theorem BareKey.notMem {key : String} (hkey : BareKey key) {ch : Char}
    (h : ¬ (ch.isAlphanum ∨ ch = '-' ∨ ch = '_')) : ch ∉ key.toList := fun hmem => h (hkey.2 ch hmem)

theorem notMem_assignLine {key : String} (hkey : BareKey key) (v : flags.Value) {ch : Char}
    (h : ch = '\r' ∨ ch = '\n') : ch ∉ (assignLine flags key v).toList := by
  rw [toList_assignLine]
  simp only [List.mem_append, not_or]
  refine ⟨⟨hkey.notMem ?_, ?_⟩, ?_⟩
  · rcases h with rfl | rfl <;> decide
  · rcases h with rfl | rfl <;> decide
  · rcases h with rfl | rfl <;> cases v <;> decide

theorem flagLine_assignLine {key : String} (hkey : BareKey key) (v : flags.Value) :
    flagLine (assignLine flags key v) = some (.assign key [] v) := by
  obtain ⟨ch, chs, hcs⟩ :=
    List.exists_cons_of_ne_nil fun hnil => hkey.1 (String.toList_eq_nil_iff.1 hnil)
  have hbare : ∀ a ∈ key.toList, isBareChar a = true := fun a ha => by
    simpa [isBareChar, or_assoc] using hkey.2 a ha
  have hline : trimStart (assignLine flags key v).toList =
      key.toList ++ (" = ".toList ++ (flags.display v).toList) := by
    rw [toList_assignLine, List.append_assoc, trimStart, hcs, List.cons_append, List.dropWhile_cons_of_neg (by simp [hkey.not_isWhitespace, hcs])]
  have hhead : (trimStart (assignLine flags key v).toList).head? = some ch := by
    rw [hline, hcs]
    rfl
  have hhash : ch ≠ '#' := by
    rintro rfl
    have hnot : '#' ∉ key.toList := hkey.notMem (by decide)
    exact hnot (by simp [hcs])
  have hkeycs : (trimStart (assignLine flags key v).toList).takeWhile isBareChar = key.toList := by
    rw [hline, List.takeWhile_append_of_pos hbare]
    exact List.append_nil _
  have hrest : (trimStart (assignLine flags key v).toList).dropWhile isBareChar =
      " = ".toList ++ (flags.display v).toList := by
    rw [hline, List.dropWhile_append_of_pos hbare]
    rfl
  rw [flagLine, if_neg (notMem_assignLine hkey v (.inl rfl)), if_neg (by simp [hhead, hhash]),
    hkeycs, if_neg (by simp [hcs]), hrest, String.ofList_toList]
  cases v <;> rfl

theorem lawful_flags : flags.Lawful where
  empty := rfl
  comment l s hhash h := by
    rw [flags_line_eq_some_iff, flagLine] at h
    split_ifs at h with hcr hhead
    · exact (Option.some.inj h).symm
    all_goals exact absurd (.inr hhash) hhead
  commented l s h := by
    rw [flags_line_eq_some_iff] at h ⊢
    have hcr : '\r' ∉ l.toList := by
      intro hmem
      rw [flagLine, if_pos hmem] at h
      cases h
    rw [flagLine, if_neg (notMem_commented (by decide) hcr)]
    exact if_pos (.inr (by rw [commented, String.toList_ofList]; rfl))
  noCr o l h hmem := by
    have hnone : flags.scanner.line o l = none := congrArg (Option.map _) (if_pos hmem)
    rw [hnone] at h
    cases h
  displayCr v := by cases v <;> decide
  display key v hkey := by
    rw [pieces_eq_singleton (notMem_assignLine hkey v (.inr rfl))]
    exact Toml.Scanner.scan_singleton (flags_line_eq_some_iff.2 (flagLine_assignLine hkey v))

/-- A default that is written out as a comment, and the line in force below it. -/
theorem lines_seed : lines "#seed = true\nseed = false\n" = ["#seed = true", "seed = false"] := by
  decide +kernel

theorem bareKey_seed : BareKey "seed" := by
  refine ⟨by decide, fun ch hch => .inl ?_⟩
  have hmem : ch ∈ ['s', 'e', 'e', 'd'] := hch
  simp only [List.mem_cons, List.not_mem_nil, or_false] at hmem
  rcases hmem with rfl | rfl | rfl | rfl <;> rfl

theorem parse_seed : flags.parse "#seed = true\nseed = false\n" =
    some ((∅ : flags.Table).insert "seed" false) := by
  have hread : flags.read ["#seed = true", "seed = false"] =
      flags.meaning [.blank, .assign "seed" [] false] := rfl
  have hrun : Toml.run flags.tables [.blank, .assign "seed" [] false] =
      some ((⟨∅, none⟩ : Toml.Root Bool Empty).put "seed" (.inl false)) := rfl
  rw [TomlCrate.parse, lines_seed, hread, TomlCrate.meaning, hrun, Option.map_some, Toml.table_put]
  congr 2

theorem editsExactly_iff_seed :
    EditsExactly flags .done (.text "#seed = true\nseed = false\n") "seed" none ↔
      (Write.done = .done → (ConfigFile.text "#seed = true\nseed = false\n").Readable ∧
        ((none : Option flags.Value) = none →
          Live flags "seed" (lines "#seed = true\nseed = false\n") ∨
            "seed" ∉ ((∅ : flags.Table).insert "seed" false))) :=
  editsExactly_iff lawful_flags bareKey_seed parse_seed
    (.comment ⟨⟨[], "#seed = true", ["seed = false"], [], lines_seed, by simp,
      by decide +kernel, rfl, by simp, rfl⟩⟩) (by simp)

/-- A default that is written out as a comment hides the line that is in force. -/
theorem not_editsExactly_seed :
    ¬ EditsExactly flags .done (.text "#seed = true\nseed = false\n") "seed" none := by
  have hset : setConfigValue flags .done (.text "#seed = true\nseed = false\n") "seed" none =
      (.ok (), .text "#seed = true\nseed = false\n") := by decide +kernel
  rw [EditsExactly, hset]
  rintro ⟨-, h⟩
  obtain ⟨htable, -⟩ := h trivial _ parse_seed
  have hsame := eq_erase_iff.1 (Option.some.inj (parse_seed.symm.trans htable))
  exact hsame (by simp)

end Arvolo.Book
