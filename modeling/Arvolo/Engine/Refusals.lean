import Arvolo.Book.Config
import Arvolo.Engine.Rebinding

/-!
Requests that the daemon answers with an error, and what they leave behind: `daemon.rs` over the
address book and `config.toml`.

A request is a sequence of edits, each of which may be refused. That it leaves everything as it
was is looked at where every file can be written: then an edit of the book is refused before its
first save, or goes through.
-/

namespace Arvolo.Engine

open Lib Sync Book
open Std (ExtTreeMap)

/-! ### Edits with room for their saves -/

section

variable {α β : Type} {k l : ℕ}

/-- With room for more saves. -/
def moreRoom (disk : Disk) (n : ℕ) : Disk := { disk with left := disk.left + n }

/-- No save fails: with more room nothing else happens. -/
def NoneFails (m : BookM α) (disk : Disk) : Prop :=
  ∀ n, m.result (moreRoom disk n) = m.result disk ∧
    m.after (moreRoom disk n) = moreRoom (m.after disk) n

/-- At most so many saves, none of which fails where there is room for them. -/
def Saves (k : ℕ) (m : BookM α) : Prop :=
  ∀ disk : Disk, k ≤ disk.left → disk.left ≤ (m.after disk).left + k ∧ NoneFails m disk

namespace Saves

theorem mono {m : BookM α} (h : Saves k m) (hkl : k ≤ l) : Saves l m := fun disk hdisk =>
  ⟨(h disk (hkl.trans hdisk)).1.trans (by omega), (h disk (hkl.trans hdisk)).2⟩

theorem pure (a : α) : Saves 0 (Pure.pure a : BookM α) := fun _ _ => ⟨le_rfl, fun _ => ⟨rfl, rfl⟩⟩

theorem throw (e : String) : Saves 0 (MonadExcept.throw e : BookM α) :=
  fun _ _ => ⟨le_rfl, fun _ => ⟨rfl, rfl⟩⟩

theorem save (context : String) (f : Ledgers → Ledgers) : Saves 1 (Book.save context f) := by
  intro disk hdisk
  obtain ⟨ledgers, left⟩ := disk
  obtain ⟨left, rfl⟩ : ∃ n, left = n + 1 := ⟨left - 1, (Nat.sub_add_cancel hdisk).symm⟩
  refine ⟨le_rfl, fun n => ?_⟩
  have hmore : moreRoom ⟨ledgers, left + 1⟩ n = ⟨ledgers, left + n + 1⟩ := by
    rw [moreRoom, Nat.add_right_comm]
  rw [hmore]
  exact ⟨rfl, rfl⟩

theorem load {f : Ledgers → BookM α} (h : ∀ L, Saves k (f L)) : Saves k (Book.load f) :=
  fun disk hdisk => h disk.ledgers disk hdisk

theorem bind {m : BookM α} {f : α → BookM β} (hm : Saves k m) (hf : ∀ a, Saves l (f a)) :
    Saves (k + l) (m >>= f) := by
  intro disk hdisk
  obtain ⟨hleft, hnone⟩ := hm disk (by omega)
  simp only [NoneFails, Effect.after_bind, Effect.result_bind]
  cases hres : m.result disk with
  | ok a =>
      obtain ⟨hleft', hnone'⟩ := hf a (m.after disk) (by omega)
      refine ⟨by dsimp only; omega, fun n => ?_⟩
      rw [(hnone n).1, (hnone n).2, hres]
      exact hnone' n
  | error e =>
      refine ⟨by dsimp only; omega, fun n => ?_⟩
      rw [(hnone n).1, (hnone n).2, hres]
      exact ⟨rfl, rfl⟩

end Saves

theorem Saves.tryCatch {m : BookM α} {f : String → α} (hm : Saves k m) :
    Saves k (MonadExcept.tryCatch m fun e => Pure.pure (f e)) := by
  intro disk hdisk
  obtain ⟨hleft, hnone⟩ := hm disk hdisk
  simp only [NoneFails, Effect.after_tryCatch, Effect.result_tryCatch]
  cases hres : m.result disk with
  | ok a =>
      refine ⟨hleft, fun n => ?_⟩
      rw [(hnone n).1, (hnone n).2, hres]
      exact ⟨rfl, rfl⟩
  | error e =>
      refine ⟨hleft, fun n => ?_⟩
      rw [(hnone n).1, (hnone n).2, hres]
      exact ⟨rfl, rfl⟩

/-- With room for its saves it goes through. -/
structure GoesThrough (k : ℕ) (m : BookM α) : Prop where
  saves : Saves k m
  through : ∀ disk : Disk, k ≤ disk.left → ∃ a, m.result disk = .ok a

namespace GoesThrough

theorem mono {m : BookM α} (h : GoesThrough k m) (hkl : k ≤ l) : GoesThrough l m where
  saves := h.saves.mono hkl
  through disk hdisk := h.through disk (hkl.trans hdisk)

theorem pure (a : α) : GoesThrough 0 (Pure.pure a : BookM α) where
  saves := .pure a
  through _ _ := ⟨a, rfl⟩

theorem save (context : String) (f : Ledgers → Ledgers) : GoesThrough 1 (Book.save context f) where
  saves := .save context f
  through disk hdisk := by
    obtain ⟨ledgers, left⟩ := disk
    obtain ⟨left, rfl⟩ : ∃ n, left = n + 1 := ⟨left - 1, (Nat.sub_add_cancel hdisk).symm⟩
    exact ⟨(), rfl⟩

theorem load {f : Ledgers → BookM α} (h : ∀ L, GoesThrough k (f L)) :
    GoesThrough k (Book.load f) where
  saves := .load fun L => (h L).saves
  through disk hdisk := (h disk.ledgers).through disk hdisk

theorem bind {m : BookM α} {f : α → BookM β} (hm : GoesThrough k m)
    (hf : ∀ a, GoesThrough l (f a)) : GoesThrough (k + l) (m >>= f) where
  saves := hm.saves.bind fun a => (hf a).saves
  through disk hdisk := by
    obtain ⟨a, ha⟩ := hm.through disk (by omega)
    have hleft := (hm.saves disk (by omega)).1
    rw [Effect.result_bind, ha]
    exact (hf a).through _ (by omega)

theorem saveIf (c : Bool) {m : BookM Unit} (hm : GoesThrough k m) :
    GoesThrough k (Book.saveIf c m) := by
  cases c with
  | true => exact hm
  | false => exact (GoesThrough.pure ()).mono (Nat.zero_le k)

end GoesThrough

/-- With room for its saves it is refused before the first of them, or goes through. -/
structure Whole (k : ℕ) (m : BookM α) : Prop where
  saves : Saves k m
  whole : ∀ disk : Disk, k ≤ disk.left →
    (∃ a, m.result disk = .ok a) ∨ (∃ e, m.result disk = .error e) ∧ m.after disk = disk

namespace Whole

theorem of_goesThrough {m : BookM α} (h : GoesThrough k m) : Whole k m where
  saves := h.saves
  whole disk hdisk := .inl (h.through disk hdisk)

theorem mono {m : BookM α} (h : Whole k m) (hkl : k ≤ l) : Whole l m where
  saves := h.saves.mono hkl
  whole disk hdisk := h.whole disk (hkl.trans hdisk)

theorem throw (e : String) : Whole 0 (MonadExcept.throw e : BookM α) where
  saves := .throw e
  whole _ _ := .inr ⟨⟨e, rfl⟩, rfl⟩

theorem load {f : Ledgers → BookM α} (h : ∀ L, Whole k (f L)) : Whole k (Book.load f) where
  saves := .load fun L => (h L).saves
  whole disk hdisk := (h disk.ledgers).whole disk hdisk

/-- What comes after an edit goes through. -/
theorem bind {m : BookM α} {f : α → BookM β} (hm : Whole k m) (hf : ∀ a, GoesThrough l (f a)) :
    Whole (k + l) (m >>= f) where
  saves := hm.saves.bind fun a => (hf a).saves
  whole disk hdisk := by
    have hleft := (hm.saves disk (by omega)).1
    rw [Effect.result_bind, Effect.after_bind]
    rcases hm.whole disk (by omega) with ⟨a, ha⟩ | ⟨⟨e, he⟩, hafter⟩
    · rw [ha]
      exact .inl ((hf a).through _ (by omega))
    · rw [he]
      exact .inr ⟨⟨e, rfl⟩, hafter⟩

/-- What comes before an edit is a check. -/
theorem check {m : BookM α} {f : α → BookM β} (hm : Saves 0 m) (hsame : ∀ disk, m.after disk = disk)
    (hf : ∀ a, Whole k (f a)) : Whole k (m >>= f) where
  saves := (hm.bind fun a => (hf a).saves).mono (Nat.zero_add k).le
  whole disk hdisk := by
    rw [Effect.result_bind, Effect.after_bind, hsame]
    cases hres : m.result disk with
    | ok a => exact (hf a).whole disk hdisk
    | error e => exact .inr ⟨⟨e, rfl⟩, rfl⟩

end Whole

end

/-! ### The edits of the book -/

section

variable (t : IdText)

theorem saves_context {α : Type} (what : String) (r : Except String α) :
    Saves 0 (context what r) := by
  cases r with
  | ok a => exact .pure a
  | error e => exact .throw what

theorem saves_resolveRecipientId (who : String) : Saves 0 (resolveRecipientId t who) := by
  refine .load fun L => ?_
  split
  · exact .pure _
  · exact (saves_context _ _).bind fun _ => .pure _

theorem whole_mark {read : Ledgers → Map ℕ} {write : Map ℕ → BookM Unit} (now : ℕ) (who : String)
    (hwrite : ∀ marks, GoesThrough 1 (write marks)) : Whole 1 (mark t read write now who) :=
  .check (saves_resolveRecipientId t who) (after_resolveRecipientId who) fun _ =>
    .of_goesThrough (.load fun _ => (hwrite _).bind fun _ => .pure _)

theorem whole_unmark {read : Ledgers → Map ℕ} {write : Map ℕ → BookM Unit} (who : String)
    (hwrite : ∀ marks, GoesThrough 1 (write marks)) : Whole 1 (unmark t read write who) := by
  refine .check (saves_resolveRecipientId t who) (after_resolveRecipientId who) fun id =>
    .of_goesThrough (.load fun L => ?_)
  split
  · exact (hwrite _).bind fun _ => .pure _
  · exact (GoesThrough.pure _).mono (Nat.zero_le 1)

theorem whole_acceptName (who : String) : Whole 1 (acceptName t who) := by
  refine .check (saves_resolveRecipientId t who) (after_resolveRecipientId who) fun id =>
    .load fun L => ?_
  split
  · exact .of_goesThrough ((GoesThrough.save _ _).bind fun _ => .pure _)
  · exact (Whole.throw _).mono (Nat.zero_le 1)

theorem goesThrough_clearRelay (idB32 : String) : GoesThrough 1 (clearRelay t idB32) := by
  refine .load fun L => ?_
  split
  · exact (GoesThrough.save _ _).bind fun _ => .pure _
  · exact (GoesThrough.pure _).mono (Nat.zero_le 1)

/-- The colon of the scheme stays. -/
theorem canonicalRelay_ne_empty (raw : String) : (canonicalRelay raw).isEmpty = false := by
  have hcolon : ∀ s, ':' ∈ (normalizeRelay s).toList := by
    intro s
    unfold normalizeRelay
    dsimp only
    split_ifs with hscheme
    · exact hscheme.subset (by decide)
    · rw [String.toList_append]
      exact List.mem_append_left _ (by decide)
  have hkept : ':' ∈ (canonicalRelay raw).toList := by
    rw [canonicalRelay, String.toList_ofList, List.mem_reverse]
    have hmem := List.mem_reverse.2 (hcolon (trim raw))
    rw [← List.takeWhile_append_dropWhile (p := fun c => decide (c = '/'))
      (l := (normalizeRelay (trim raw)).toList.reverse)] at hmem
    refine (List.mem_append.1 hmem).resolve_left fun hslash => ?_
    exact absurd (List.mem_takeWhile_imp hslash) (by decide)
  by_contra hempty
  have hnil : canonicalRelay raw = "" := by simpa using hempty
  simp [hnil] at hkept

theorem goesThrough_recordRelay (newId : String) (relay : Option String) :
    GoesThrough 1 (recordRelay t newId relay) := by
  cases relay with
  | none => exact (GoesThrough.pure _).mono (Nat.zero_le 1)
  | some relay =>
      simp only [recordRelay, setRelay]
      rw [if_neg (by simp [canonicalRelay_ne_empty])]
      exact .load fun L => .save _ _

theorem goesThrough_replaceKey (newId : String) (found : Option String) :
    GoesThrough 3 (replaceKey t newId found) := by
  have hdrop : ∀ oldId, GoesThrough 3 (dropOldKey t oldId newId) := fun oldId =>
    (GoesThrough.load fun L => .saveIf _ (.save _ _)).bind fun _ =>
      ((GoesThrough.load fun L => .saveIf _ (.save _ _)).bind fun _ =>
        ((goesThrough_clearRelay t oldId).bind fun _ => .pure _))
  cases found with
  | none => exact (GoesThrough.pure _).mono (Nat.zero_le 3)
  | some oldId =>
      rw [replaceKey]
      split_ifs
      · rw [map_eq_pure_bind]
        exact (hdrop oldId).bind fun _ => .pure _
      · exact (GoesThrough.pure _).mono (Nat.zero_le 3)

theorem whole_contactAdd (name id : String) : Whole 5 (contactAdd t name id) := by
  unfold contactAdd
  refine .check (saves_context _ _) (after_context _ _) fun _ => .of_goesThrough (.load fun L => ?_)
  exact (goesThrough_replaceKey t _ _).bind fun _ => (GoesThrough.save _ _).bind fun _ =>
    (goesThrough_recordRelay t _ _).bind fun _ => .pure _

theorem whole_contactRename (old new : String) : Whole 1 (contactRename old new) := by
  refine .load fun L => ?_
  split
  · exact (Whole.throw _).mono (Nat.zero_le 1)
  · split
    · exact (Whole.throw _).mono (Nat.zero_le 1)
    · exact .of_goesThrough (.save _ _)

theorem goesThrough_contactRemove (name : String) : GoesThrough 3 (contactRemove t name) := by
  refine .load fun L => ?_
  split
  · exact (GoesThrough.pure _).mono (Nat.zero_le 3)
  · refine (GoesThrough.save _ _).bind (l := 2) fun _ => ?_
    split
    · exact (GoesThrough.pure _).mono (Nat.zero_le 2)
    · refine GoesThrough.bind (k := 1) (.load fun L => ?_) fun _ =>
        (goesThrough_clearRelay t _).bind fun _ => .pure _
      split
      · exact (GoesThrough.pure _).mono (Nat.zero_le 1)
      · split <;> exact .save _ _

/-- Removing says whether there was such a contact. -/
theorem result_contactRemove {name : String} {disk : Disk} {found : Bool}
    (h : (contactRemove t name).result disk = .ok found) :
    found = true ↔ name ∈ disk.ledgers.contacts := by
  have hyields : Effect.Yields (contactRemove t name) disk found _ := ⟨h, rfl⟩
  rw [contactRemove, yields_load] at hyields
  cases hcontact : disk.ledgers.contacts[name]? with
  | none =>
      simp only [hcontact] at hyields
      obtain ⟨rfl, -⟩ := Effect.yields_pure_iff.1 hyields
      refine iff_of_false Bool.false_ne_true fun hmem => ?_
      simp [ExtTreeMap.mem_iff_isSome_getElem?, hcontact] at hmem
  | some id =>
      have hmem : name ∈ disk.ledgers.contacts :=
        ExtTreeMap.mem_iff_isSome_getElem?.2 (by simp [hcontact])
      refine iff_of_true ?_ hmem
      simp only [hcontact] at hyields
      obtain ⟨_, _, -, hrest⟩ := Effect.yields_bind_iff.1 hyields
      split at hrest
      · exact (Effect.yields_pure_iff.1 hrest).1.symm
      · obtain ⟨_, _, -, hrest⟩ := Effect.yields_bind_iff.1 hrest
        obtain ⟨_, _, -, hrest⟩ := Effect.yields_bind_iff.1 hrest
        exact (Effect.yields_pure_iff.1 hrest).1.symm

/-- Clearing a mark touches the book only where the one who is meant is marked. -/
theorem after_unmark {read : Ledgers → Map ℕ} {write : Map ℕ → BookM Unit} (who : String)
    (disk : Disk) : (bestEffort (discard (unmark t read write who))).after disk =
      match (resolveRecipientId t who).result disk with
      | .ok id =>
          if (read disk.ledgers).contains id then
            (write ((read disk.ledgers).erase id)).after disk
          else disk
      | .error _ => disk := by
  rw [after_bestEffort, after_discard, unmark, Effect.after_bind, after_resolveRecipientId]
  cases (resolveRecipientId t who).result disk with
  | error e => rfl
  | ok id =>
      dsimp only
      rw [load, Effect.after_get_bind]
      split
      · rw [Effect.after_bind]
        split <;> rfl
      · rfl

theorem result_resolveRecipientId {who : String} (disk disk' : Disk)
    (h : disk.ledgers.contacts = disk'.ledgers.contacts) :
    (resolveRecipientId t who).result disk = (resolveRecipientId t who).result disk' := by
  have hload {α : Type} (f : Ledgers → BookM α) (d : Disk) :
      (load f).result d = (f d.ledgers).result d := rfl
  rw [resolveRecipientId, hload, hload, h]
  cases disk'.ledgers.contacts[trim who]? with
  | some id => rfl
  | none =>
      simp only [Effect.result_bind]
      cases t.decodeId (splitIdAndRelay who).1 <;> rfl

end

/-! ### The settings -/

inductive Setting (α : Type)
  | set (a : α)
  | clear
  deriving DecidableEq

/-- A key that is not named is left alone. -/
structure ConfigPatch where
  relay : Option (Setting String) := none
  downloadDir : Option (Setting String) := none
  displayName : Option (Setting String) := none
  sync : Option (Setting Bool) := none
  autoAccept : Option (Setting String) := none
  seed : Option (Setting Bool) := none
  swarm : Option (Setting String) := none
  concurrency : Option (Setting UInt32) := none

/-- The constructors of `toml::Value` that settings go through. -/
structure TomlValues (c : TomlCrate) where
  string : String → c.Value
  boolean : Bool → c.Value
  integer : ℤ → c.Value

section

variable {c : TomlCrate} (v : TomlValues c)

/-- A blank text clears the key. -/
def Setting.text : Setting String → Option c.Value
  | .set s => if (trim s).isEmpty then none else some (v.string (trim s))
  | .clear => none

def Setting.flag : Setting Bool → Option c.Value
  | .set s => some (v.boolean s)
  | .clear => none

def Setting.number : Setting UInt32 → Option c.Value
  | .set n => some (v.integer n.toNat)
  | .clear => none

/-- The keys that are edited, in that order. The display name comes last, and is kept elsewhere. -/
def ConfigPatch.edits (p : ConfigPatch) : List (String × Option c.Value) :=
  (p.relay.map fun s => ("relay", s.text v)).toList ++
    (p.downloadDir.map fun s => ("download_dir", s.text v)).toList ++
    (p.swarm.map fun s => ("swarm", s.text v)).toList ++
    (p.autoAccept.map fun s => ("auto_accept", s.text v)).toList ++
    (p.sync.map fun s => ("sync", s.flag v)).toList ++
    (p.seed.map fun s => ("seed", s.flag v)).toList ++
    (p.concurrency.map fun s => ("concurrency", s.number v)).toList

variable (c) in
/-- One key after the other, with a file that can be written. -/
def setConfigValues : List (String × Option c.Value) → ConfigFile → Except String Unit × ConfigFile
  | [], file => (.ok (), file)
  | (key, value) :: rest, file =>
      match setConfigValue c .done file key value with
      | (.ok (), file) => setConfigValues rest file
      | (.error e, file) => (.error e, file)

/-- The book and the sync state, and `config.toml`. -/
structure Home where
  device : Device
  config : ConfigFile

def applyConfigPatch (id : DeviceId) (home : Home) (p : ConfigPatch) : Except String Unit × Home :=
  match setConfigValues c (p.edits v) home.config with
  | (.error e, config) => (.error e, { home with config })
  | (.ok (), config) =>
      match p.displayName with
      | none => (.ok (), { home with config })
      | some (.set s) =>
          (.ok (), { home with config, device := home.device.setMyDisplayName id (trim s) })
      | some .clear => (.ok (), { home with config, device := home.device.setMyDisplayName id "" })

inductive EditRequest
  | book (r : Request)
  | setConfig (p : ConfigPatch)

variable {t : IdText} (b : IdBytes t) (id : DeviceId) (markedNow : ℕ)

def respond : Except String Response → Response
  | .ok response => response
  | .error e => .error e

/-- The answer to a request, and what it leaves. So many saves of the book will succeed. -/
def Home.dispatch (home : Home) (left : ℕ) : EditRequest → Response × Home
  | .book r =>
      let m := Engine.dispatch b markedNow r
      let disk : Disk := ⟨home.device.ledgers, left⟩
      let device := { home.device with ledgers := (m.after disk).ledgers }
      (respond (m.result disk), { home with device })
  | .setConfig p =>
      match applyConfigPatch v id home p with
      | (.ok (), home) => (.ok, home)
      | (.error e, home) => (.error e, home)

def Response.IsError : Response → Prop
  | .error _ => True
  | _ => False

/-- A request that is refused, with no write that failed, leaves the ledgers and `config.toml` as
they were. -/
def RefusalLeavesAll (home : Home) (e : EditRequest) : Prop :=
  ∀ left, (∀ r, e = .book r → NoneFails (dispatch b markedNow r) ⟨home.device.ledgers, left⟩) →
    (home.dispatch v b id markedNow left e).1.IsError →
      (home.dispatch v b id markedNow left e).2.device.ledgers = home.device.ledgers ∧
        (home.dispatch v b id markedNow left e).2.config = home.config

/-- What is removed is a contact, or means nobody who is verified or trusted; and a key that is
refused comes after none that changes the file. -/
def RefusedFirst (t : IdText) (home : Home) : EditRequest → Prop
  | .book (.removeContact name) =>
      name ∈ home.device.ledgers.contacts ∨
        ∀ key, (resolveRecipientId t name).result ⟨home.device.ledgers, 0⟩ = .ok key →
          key ∉ home.device.ledgers.verified ∧ key ∉ home.device.ledgers.trusted
  | .book _ => True
  | .setConfig p =>
      ∀ pre e post, p.edits v = pre ++ e :: post → ∀ file,
        setConfigValues c pre home.config = (.ok (), file) →
          (∃ err, editText c file.readToString e.1 e.2 = .error err) → file = home.config

/-! ### When a refusal leaves all -/

/-- A key that is refused, and those before it, which were not. -/
theorem setConfigValues_eq_error_iff {edits : List (String × Option c.Value)}
    {file last : ConfigFile} {err : String} :
    setConfigValues c edits file = (.error err, last) ↔ ∃ pre e post, edits = pre ++ e :: post ∧
      setConfigValues c pre file = (.ok (), last) ∧
        editText c last.readToString e.1 e.2 = .error err := by
  induction edits generalizing file with
  | nil => simp [setConfigValues]
  | cons e edits ih =>
      obtain ⟨key, value⟩ := e
      cases hedit : editText c file.readToString key value with
      | error err' =>
          have hset : setConfigValue c .done file key value = (.error err', file) := by
            rw [setConfigValue, hedit]
          constructor
          · intro h
            simp only [setConfigValues, hset, Prod.mk.injEq, Except.error.injEq] at h
            obtain ⟨rfl, rfl⟩ := h
            exact ⟨[], (key, value), edits, rfl, rfl, hedit⟩
          · rintro ⟨pre, e, post, hedits, hpre, herr⟩
            cases pre with
            | nil =>
                obtain ⟨rfl, rfl⟩ := List.cons.inj hedits
                obtain ⟨-, rfl⟩ := Prod.mk.inj hpre
                simp only [setConfigValues, hset]
                rw [Except.error.inj (hedit.symm.trans herr)]
            | cons e' pre =>
                obtain ⟨rfl, -⟩ := List.cons.inj hedits
                simp [setConfigValues, hset] at hpre
      | ok text =>
          have hset : setConfigValue c .done file key value = (.ok (), .text text) := by
            rw [setConfigValue, hedit]
          simp only [setConfigValues, hset]
          rw [ih]
          constructor
          · rintro ⟨pre, e, post, rfl, hpre, herr⟩
            refine ⟨(key, value) :: pre, e, post, rfl, ?_, herr⟩
            simp only [setConfigValues, hset]
            exact hpre
          · rintro ⟨pre, e, post, hedits, hpre, herr⟩
            cases pre with
            | nil =>
                obtain ⟨rfl, -⟩ := List.cons.inj hedits
                obtain ⟨-, rfl⟩ := Prod.mk.inj hpre
                exact absurd (hedit.symm.trans herr) (by simp)
            | cons e' pre =>
                obtain ⟨rfl, rfl⟩ := List.cons.inj hedits
                simp only [setConfigValues, hset] at hpre
                exact ⟨pre, e, post, rfl, hpre, herr⟩

theorem refusalLeavesAll_setConfig_iff (home : Home) (p : ConfigPatch) :
    RefusalLeavesAll v b id markedNow home (.setConfig p) ↔
      RefusedFirst v t home (.setConfig p) := by
  unfold RefusalLeavesAll RefusedFirst
  constructor
  · rintro h pre e post hedits file hpre ⟨err, herr⟩
    have hset := setConfigValues_eq_error_iff.2 ⟨pre, e, post, hedits, hpre, herr⟩
    have hleaves := h 0 fun r hr => absurd hr (by simp)
    simp only [Home.dispatch, applyConfigPatch, hset] at hleaves
    exact (hleaves trivial).2
  · intro h left _ herror
    simp only [Home.dispatch, applyConfigPatch] at herror ⊢
    rcases hset : setConfigValues c (p.edits v) home.config with ⟨result, config⟩
    rw [hset] at herror
    cases result with
    | error err =>
        obtain ⟨pre, e, post, hedits, hpre, herr⟩ := setConfigValues_eq_error_iff.1 hset
        exact ⟨rfl, h pre e post hedits config hpre ⟨err, herr⟩⟩
    | ok =>
        rcases hname : p.displayName with _ | ⟨_ | _⟩ <;> simp [hname, Response.IsError] at herror

/-- With room for its saves, an error leaves the ledgers as they were. -/
structure Declines (k : ℕ) (m : BookM Response) : Prop where
  saves : Saves k m
  leaves : ∀ disk : Disk, k ≤ disk.left → (respond (m.result disk)).IsError →
    (m.after disk).ledgers = disk.ledgers

namespace Declines

variable {k l : ℕ}

theorem mono {m : BookM Response} (h : Declines k m) (hkl : k ≤ l) : Declines l m where
  saves := h.saves.mono hkl
  leaves disk hdisk := h.leaves disk (hkl.trans hdisk)

theorem pure (r : Response) : Declines 0 (Pure.pure r : BookM Response) where
  saves := .pure r
  leaves _ _ _ := rfl

theorem load {f : Ledgers → BookM Response} (h : ∀ L, Declines k (f L)) :
    Declines k (Book.load f) where
  saves := .load fun L => (h L).saves
  leaves disk hdisk := (h disk.ledgers).leaves disk hdisk

end Declines

theorem saves_answer {α : Type} {k : ℕ} {m : BookM α} (hm : Saves k m) (f : α → Response) :
    Saves k (answer m f) :=
  .tryCatch (hm.bind fun a => .pure (f a))

theorem declines_answer {α : Type} {k : ℕ} {m : BookM α} (hm : Whole k m) {f : α → Response}
    (hf : ∀ a, ¬ (f a).IsError) : Declines k (answer m f) where
  saves := saves_answer hm.saves f
  leaves disk hdisk herror := by
    rw [answer, Effect.result_tryCatch, Effect.result_bind] at herror
    rw [answer, Effect.after_tryCatch, Effect.result_bind, Effect.after_bind]
    rcases hm.whole disk hdisk with ⟨a, ha⟩ | ⟨⟨e, he⟩, hafter⟩
    · rw [ha] at herror
      exact absurd herror (hf a)
    · rw [he]
      exact congrArg Disk.ledgers hafter

/-- Whatever the room was: if none failed, there might as well have been enough. -/
theorem forall_noneFails_iff {m : BookM Response} (hm : Saves 5 m) (L : Ledgers) :
    (∀ left, NoneFails m ⟨L, left⟩ → (respond (m.result ⟨L, left⟩)).IsError →
        (m.after ⟨L, left⟩).ledgers = L) ↔
      ∀ left, 5 ≤ left → (respond (m.result ⟨L, left⟩)).IsError →
        (m.after ⟨L, left⟩).ledgers = L := by
  constructor
  · intro h left hleft
    exact h left (hm ⟨L, left⟩ hleft).2
  · intro h left hnone herror
    obtain ⟨hresult, hafter⟩ := hnone 5
    have hroom := h (left + 5) (Nat.le_add_left 5 left) (hresult ▸ herror)
    exact (congrArg Disk.ledgers hafter).symm.trans hroom

theorem declines_addContact (name text : String) (rebind : Bool) :
    Declines 5 (addContact t name text rebind) := by
  refine .load fun L => ?_
  dsimp only
  split
  · exact (Declines.pure _).mono (Nat.zero_le 5)
  · refine declines_answer (whole_contactAdd t name text) fun change => ?_
    cases change <;> exact id

theorem declines_markTrusted (who : String) (force : Bool) :
    Declines 1 (markTrusted b markedNow who force) := by
  refine .load fun L => ?_
  split
  · exact (Declines.pure _).mono (Nat.zero_le 1)
  · dsimp only
    split
    · exact (Declines.pure _).mono (Nat.zero_le 1)
    · exact declines_answer (whole_mark t _ _ fun _ => .save _ _) fun _ => id

/-! ### Removing a contact -/

theorem erase_eq_self_iff {β : Type} {m : Map β} {key : String} : m.erase key = m ↔ key ∉ m := by
  constructor
  · intro h hmem
    rw [← h] at hmem
    simp at hmem
  · intro h
    refine ExtTreeMap.ext_getElem? fun k => ?_
    rw [ExtTreeMap.getElem?_erase]
    split_ifs with hk
    · rw [compare_eq_iff_eq] at hk
      subst hk
      exact (ExtTreeMap.getElem?_eq_none h).symm
    · rfl

/-- The book without the marks of the one who is meant. -/
def unmarked (t : IdText) (name : String) (L : Ledgers) : Ledgers :=
  match (resolveRecipientId t name).result ⟨L, 0⟩ with
  | .ok key => { L with verified := L.verified.erase key, trusted := L.trusted.erase key }
  | .error _ => L

theorem after_clearing (t : IdText) (read : Ledgers → Map ℕ) (put : Map ℕ → Ledgers → Ledgers)
    (context name : String) (hput : ∀ L, put (read L) L = L) (L : Ledgers) {left : ℕ}
    (hleft : 1 ≤ left) : ∃ left', left ≤ left' + 1 ∧
      (bestEffort (discard (unmark t read (fun marks => save context (put marks)) name))).after
        ⟨L, left⟩ = ⟨match (resolveRecipientId t name).result ⟨L, 0⟩ with
          | .ok key => put ((read L).erase key) L
          | .error _ => L, left'⟩ := by
  obtain ⟨left, rfl⟩ : ∃ n, left = n + 1 := ⟨left - 1, (Nat.sub_add_cancel hleft).symm⟩
  rw [after_unmark, result_resolveRecipientId t ⟨L, left + 1⟩ ⟨L, 0⟩ rfl]
  cases (resolveRecipientId t name).result ⟨L, 0⟩ with
  | error e => exact ⟨left + 1, by omega, rfl⟩
  | ok key =>
      dsimp only
      split_ifs with hmark
      · exact ⟨left, le_rfl, rfl⟩
      · refine ⟨left + 1, by omega, ?_⟩
        rw [erase_eq_self_iff.2 fun hmem => hmark (ExtTreeMap.mem_iff_contains.1 hmem), hput]

theorem saves_clearing {read : Ledgers → Map ℕ} {write : Map ℕ → BookM Unit} {name : String}
    (hwrite : ∀ marks, GoesThrough 1 (write marks)) :
    Saves 1 (bestEffort (discard (unmark t read write name))) := by
  refine .tryCatch (f := fun _ => ()) ?_
  rw [show discard (unmark t read write name) = (fun _ => PUnit.unit) <$> unmark t read write name
    from rfl, map_eq_pure_bind]
  exact (whole_unmark t name hwrite).saves.bind fun _ => .pure _

theorem saves_removeContact (name : String) : Saves 5 (removeContact t name) :=
  (saves_clearing fun _ => .save _ _).bind fun _ => (saves_clearing fun _ => .save _ _).bind
    fun _ => saves_answer (goesThrough_contactRemove t name).saves _

theorem contacts_unmarked (name : String) (L : Ledgers) :
    (unmarked t name L).contacts = L.contacts := by
  unfold unmarked
  split <;> rfl

theorem result_bestEffort (m : BookM Unit) (disk : Disk) : (bestEffort m).result disk = .ok () := by
  rw [bestEffort, Effect.result_tryCatch]
  cases m.result disk <;> rfl

theorem bestEffort_yields (m : BookM Unit) (disk : Disk) :
    Effect.Yields (bestEffort m) disk () ((bestEffort m).after disk) :=
  ⟨result_bestEffort m disk, rfl⟩

/-- Both marks are cleared first. -/
theorem after_clearings (t : IdText) (name : String) (L : Ledgers) {left : ℕ} (hleft : 2 ≤ left) :
    ∃ left', left ≤ left' + 2 ∧ (bestEffort (discard (unmarkTrusted t name))).after
      ((bestEffort (discard (unmarkVerified t name))).after ⟨L, left⟩) =
        ⟨unmarked t name L, left'⟩ := by
  obtain ⟨left₁, hleft₁, hverified⟩ := after_clearing t Ledgers.verified
    (fun verified L => { L with verified }) "write verified" name (fun _ => rfl) L
    (Nat.one_le_of_lt hleft)
  obtain ⟨left₂, hleft₂, htrusted⟩ := after_clearing t Ledgers.trusted
    (fun trusted L => { L with trusted }) "write trusted" name (fun _ => rfl)
    (match (resolveRecipientId t name).result ⟨L, 0⟩ with
      | .ok key => { L with verified := L.verified.erase key }
      | .error _ => L)
    (show 1 ≤ left₁ by omega)
  refine ⟨left₂, by omega, ?_⟩
  have hfirst : (bestEffort (discard (unmarkVerified t name))).after ⟨L, left⟩ = _ := hverified
  rw [hfirst]
  refine Eq.trans htrusted ?_
  rw [unmarked]
  cases hmeant : (resolveRecipientId t name).result ⟨L, 0⟩ with
  | error e =>
      dsimp only
      rw [hmeant]
  | ok key =>
      have hsame : (resolveRecipientId t name).result
          ⟨{ L with verified := L.verified.erase key }, 0⟩ = .ok key :=
        (result_resolveRecipientId t ⟨{ L with verified := L.verified.erase key }, 0⟩ ⟨L, 0⟩
          rfl).trans hmeant
      dsimp only
      rw [hsame]

/-- With room for its saves, a removal fails where there is no such contact, and has then cleared
the marks all the same. -/
theorem removeContact_room (t : IdText) (name : String) (L : Ledgers) {left : ℕ}
    (hleft : 5 ≤ left) :
    ((respond ((removeContact t name).result ⟨L, left⟩)).IsError ↔ name ∉ L.contacts) ∧
      (name ∉ L.contacts →
        ((removeContact t name).after ⟨L, left⟩).ledgers = unmarked t name L) := by
  obtain ⟨left', hleft', hcleared⟩ := after_clearings t name L (show 2 ≤ left by omega)
  have hcontacts : (unmarked t name L).contacts = L.contacts := contacts_unmarked name L
  obtain ⟨found, hfound⟩ :=
    (goesThrough_contactRemove t name).through ⟨unmarked t name L, left'⟩ (by dsimp only; omega)
  have hiff := result_contactRemove t hfound
  rw [hcontacts] at hiff
  have hresult : (removeContact t name).result ⟨L, left⟩ = .ok (if found then .ok else
      .error ("no such contact '" ++ name ++ "'")) := by
    rw [removeContact, Effect.result_bind, result_bestEffort]
    dsimp only
    rw [Effect.result_bind, result_bestEffort, hcleared]
    dsimp only
    rw [answer, Effect.result_tryCatch, Effect.result_bind, hfound]
    cases found <;> rfl
  rw [hresult]
  refine ⟨?_, fun hnot => ?_⟩
  · cases found with
    | true => exact iff_of_false id fun hnot => hnot (hiff.1 rfl)
    | false => exact iff_of_true trivial fun hmem => Bool.false_ne_true (hiff.2 hmem)
  · have hnone : (unmarked t name L).contacts[name]? = none := by
      rw [hcontacts]
      exact ExtTreeMap.getElem?_eq_none hnot
    rw [removeContact, (bestEffort_yields _ _).after_bind, (bestEffort_yields _ _).after_bind,
      hcleared, answer, Effect.after_tryCatch, Effect.result_bind, Effect.after_bind, hfound]
    have hsame : (contactRemove t name).after ⟨unmarked t name L, left'⟩ =
        ⟨unmarked t name L, left'⟩ := by
      rw [contactRemove, load, Effect.after_get_bind]
      dsimp only
      rw [hnone]
      rfl
    rw [hsame]
    rfl

theorem unmarked_eq_self_iff {name : String} {L : Ledgers} :
    unmarked t name L = L ↔ ∀ key, (resolveRecipientId t name).result ⟨L, 0⟩ = .ok key →
      key ∉ L.verified ∧ key ∉ L.trusted := by
  unfold unmarked
  cases (resolveRecipientId t name).result ⟨L, 0⟩ with
  | error e => simp
  | ok key =>
      simp only [Except.ok.injEq, forall_eq']
      constructor
      · intro h
        exact ⟨erase_eq_self_iff.1 (congrArg Ledgers.verified h),
          erase_eq_self_iff.1 (congrArg Ledgers.trusted h)⟩
      · rintro ⟨hverified, htrusted⟩
        rw [erase_eq_self_iff.2 hverified, erase_eq_self_iff.2 htrusted]

theorem refusalLeavesAll_book_iff (home : Home) (r : Request)
    (hr : Saves 5 (dispatch b markedNow r)) :
    RefusalLeavesAll v b id markedNow home (.book r) ↔
      ∀ left, 5 ≤ left →
        (respond ((dispatch b markedNow r).result ⟨home.device.ledgers, left⟩)).IsError →
          ((dispatch b markedNow r).after ⟨home.device.ledgers, left⟩).ledgers =
            home.device.ledgers := by
  rw [← forall_noneFails_iff hr]
  constructor
  · intro h left hnone herror
    exact (h left (fun _ hsame => EditRequest.book.inj hsame ▸ hnone) herror).1
  · intro h left hnone herror
    exact ⟨h left (hnone r rfl) herror, rfl⟩

theorem refusalLeavesAll_removeContact_iff (home : Home) (name : String) :
    RefusalLeavesAll v b id markedNow home (.book (.removeContact name)) ↔
      RefusedFirst v t home (.book (.removeContact name)) := by
  have hsaves : Saves 5 (dispatch b markedNow (.removeContact name)) := saves_removeContact name
  rw [refusalLeavesAll_book_iff v b id markedNow home _ hsaves]
  have hroom {left : ℕ} (hleft : 5 ≤ left) := removeContact_room t name home.device.ledgers hleft
  constructor
  · intro h
    by_cases hmem : name ∈ home.device.ledgers.contacts
    · exact .inl hmem
    · refine .inr (unmarked_eq_self_iff.1 ?_)
      exact ((hroom le_rfl).2 hmem).symm.trans (h 5 le_rfl ((hroom le_rfl).1.2 hmem))
  · rintro hfirst left hleft herror
    have hnot := (hroom hleft).1.1 herror
    exact ((hroom hleft).2 hnot).trans
      (unmarked_eq_self_iff.2 (hfirst.resolve_left hnot))

theorem declines_dispatch {r : Request} (hr : ∀ name, r ≠ .removeContact name) :
    Declines 5 (dispatch b markedNow r) := by
  have hmark {m : BookM String} (hm : Whole 1 m) : Declines 5 (answer m fun _ => .ok) :=
    (declines_answer hm fun _ => id).mono (by omega)
  have hunmark {m : BookM Bool} (hm : Whole 1 m) : Declines 5 (answer m fun _ => .ok) :=
    (declines_answer hm fun _ => id).mono (by omega)
  cases r with
  | addContact name text rebind => exact declines_addContact name text rebind
  | removeContact name => exact absurd rfl (hr name)
  | renameContact old new =>
      exact (declines_answer (whole_contactRename old new) fun _ => id).mono (by omega)
  | markVerified name => exact hmark (whole_mark t _ _ fun _ => .save _ _)
  | markUnverified name => exact hunmark (whole_unmark t _ fun _ => .save _ _)
  | markTrusted who force => exact (declines_markTrusted b markedNow who force).mono (by omega)
  | markUntrusted who => exact hunmark (whole_unmark t _ fun _ => .save _ _)
  | block who => exact hmark (whole_mark t _ _ fun _ => .save _ _)
  | unblock who => exact hunmark (whole_unmark t _ fun _ => .save _ _)
  | acceptName who => exact hmark (whole_acceptName t who)

/-- Every request that is refused leaves everything as it was, but for the removal of one who is no
contact and is marked, and for a key refused after another that was written. -/
theorem refusalLeavesAll_iff (home : Home) (e : EditRequest) :
    RefusalLeavesAll v b id markedNow home e ↔ RefusedFirst v t home e := by
  cases e with
  | setConfig p => exact refusalLeavesAll_setConfig_iff v b id markedNow home p
  | book r =>
      by_cases hr : ∀ name, r ≠ .removeContact name
      · have hdeclines := declines_dispatch b markedNow hr
        rw [refusalLeavesAll_book_iff v b id markedNow home r hdeclines.saves]
        refine iff_of_true (fun left hleft => hdeclines.leaves _ hleft) ?_
        cases r with
        | removeContact name => exact absurd rfl (hr name)
        | _ => trivial
      · push Not at hr
        obtain ⟨name, rfl⟩ := hr
        exact refusalLeavesAll_removeContact_iff v b id markedNow home name

end

/-! ### A key that was verified, and is no contact -/

def flagValues : TomlValues flags where
  string _ := true
  boolean b := b
  integer _ := true

/-- A book in which one key is verified. -/
def verifiedHome : Home where
  device := { ledgers := { verified := (∅ : Map ℕ).insert (idOf 9) 600 } }
  config := .missing

theorem meant_idOf (n : UInt8) (L : Ledgers) (h : L.contacts = ∅) :
    (resolveRecipientId basePointIds (idOf n)).result ⟨L, 0⟩ = .ok (idOf n) := by
  have hkept := keptAs_idOf n
  rw [keptAs, splitIdAndRelay_idOf] at hkept
  rw [result_resolveRecipientId basePointIds _ ⟨{}, 0⟩ h]
  simp only [resolveRecipientId, splitIdAndRelay_idOf, decodeId_idOf, hkept]
  rfl

/-- The mark is gone, and the answer is that there is no such contact. -/
theorem not_refusalLeavesAll : ¬ ∀ (c : TomlCrate) (v : TomlValues c) (t : IdText) (b : IdBytes t)
    (id : DeviceId) (markedNow : ℕ) (home : Home) (e : EditRequest),
    RefusalLeavesAll v b id markedNow home e := by
  intro h
  have hremove := h flags flagValues basePointIds basePointBytes ⟨List.replicate 16 0, rfl⟩ 600
    verifiedHome (.book (.removeContact (idOf 9)))
  rcases (refusalLeavesAll_removeContact_iff flagValues basePointBytes _ 600 verifiedHome
    (idOf 9)).1 hremove with hcontact | hnobody
  · simp [verifiedHome] at hcontact
  · have hnot := (hnobody (idOf 9) (meant_idOf 9 _ rfl)).1
    simp [verifiedHome] at hnot

end Arvolo.Engine
