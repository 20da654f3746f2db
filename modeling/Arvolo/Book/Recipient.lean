import Arvolo.Book.Contacts
import Arvolo.Lib.Base32

/-!
Who is meant by a word: a contact's name or the text of an id, with or without a relay behind
it. The marks, which are made and cleared under such a word: `verified.rs`, `trusted.rs` and
`blocked.rs` of `engine/src/book`.

The edits here and in `Contacts` are followed by rules: what an edit does to the ledgers stays
within any relation that its saves stay within.
-/

namespace Arvolo.Book

open Lib Sync
open Std (ExtTreeMap)

/-! ### Reading the book -/

/-- What `PublicId::to_bytes` and the text of an id are made of. -/
structure IdBytes (t : IdText) where
  edBytes : t.Ed → List UInt8
  xBytes : t.X → List UInt8
  base32 : List UInt8 → String

namespace IdBytes

variable {t : IdText} (b : IdBytes t)

def toBytes (id : t.Ed × t.X) : List UInt8 := b.edBytes id.1 ++ b.xBytes id.2

def encodeId (id : t.Ed × t.X) : String := t.toLowercase (b.base32 (b.toBytes id))

end IdBytes

section

variable (t : IdText)

def relayOf (L : Ledgers) (idB32 : String) : Option String :=
  L.relays[relayKey t idB32]?.filter fun r => !r.isEmpty

def resolveRecipientWithRelay (L : Ledgers) (arg : String) :
    Except String ((t.Ed × t.X) × Option String) :=
  match L.contacts[trim arg]? with
  | some id =>
      match t.decodeId id with
      | .ok key => .ok (key, relayOf t L id)
      | .error _ => .error ("contact '" ++ arg ++ "' has an invalid id")
  | none =>
      let (id, relay) := splitIdAndRelay arg
      match t.decodeId id with
      | .ok key => .ok (key, relay.or (relayOf t L id))
      | .error _ => .error "not a known contact name or a valid public id"

def resolveRecipient (L : Ledgers) (arg : String) : Except String (t.Ed × t.X) :=
  Prod.fst <$> resolveRecipientWithRelay t L arg

/-- The first contact, by name, that stands for an id. -/
def resolveName (L : Ledgers) (idB32 : String) : Option String :=
  (L.contacts.toList.find? fun row => row.2 == idB32).map Prod.fst

/-! ### Marks -/

def saveBlocked (blocked : Map ℕ) : BookM Unit :=
  save "write blocked" fun L => { L with blocked }

/-- Mark an identity in a ledger. -/
def mark (read : Ledgers → Map ℕ) (write : Map ℕ → BookM Unit) (markedNow : ℕ) (who : String) :
    BookM String := do
  let id ← resolveRecipientId t who
  load fun L => do
    write ((read L).insert id markedNow)
    return id

/-- Clear a mark; `false` where there was none. -/
def unmark (read : Ledgers → Map ℕ) (write : Map ℕ → BookM Unit) (who : String) : BookM Bool := do
  let id ← resolveRecipientId t who
  load fun L =>
    if (read L).contains id then do
      write ((read L).erase id)
      return true
    else return false

def markVerified := mark t Ledgers.verified saveVerified

def unmarkVerified := unmark t Ledgers.verified saveVerified

def markTrusted := mark t Ledgers.trusted saveTrusted

def unmarkTrusted := unmark t Ledgers.trusted saveTrusted

def markBlocked := mark t Ledgers.blocked saveBlocked

def unmarkBlocked := unmark t Ledgers.blocked saveBlocked

end

/-! ### Rules -/

/-- A relation between ledgers, as one between disks. -/
def On (Q : Ledgers → Ledgers → Prop) (a b : Disk) : Prop := Q a.ledgers b.ledgers

section

variable {Q : Ledgers → Ledgers → Prop}

instance [Std.Refl Q] : Std.Refl (On Q) := ⟨fun a => refl_of Q a.ledgers⟩

instance [IsTrans Ledgers Q] : IsTrans Disk (On Q) where
  trans a _ c hab hbc := show Q a.ledgers c.ledgers from trans_of Q hab hbc

variable {α β : Type} {t : IdText}

theorem keepsOn_load {R : Disk → Disk → Prop} {f : Ledgers → BookM α}
    (h : ∀ disk, R disk ((f disk.ledgers).after disk)) : Keeps R (load f) :=
  Keeps.get_bind h

theorem on_pure [Std.Refl Q] (a : α) (disk : Disk) : On Q disk ((pure a : BookM α).after disk) :=
  refl_of (On Q) disk

/-- A save does what it does to the ledgers, or nothing. -/
theorem on_save [Std.Refl Q] {disk : Disk} {f : Ledgers → Ledgers}
    (h : Q disk.ledgers (f disk.ledgers)) (context : String) :
    On Q disk ((save context f).after disk) := by
  obtain ⟨ledgers, left⟩ := disk
  cases left with
  | zero => exact refl_of Q ledgers
  | succ left => exact h

theorem on_saveIf [Std.Refl Q] {m : BookM Unit} {disk : Disk} {c : Bool}
    (h : c = true → On Q disk (m.after disk)) : On Q disk ((saveIf c m).after disk) := by
  cases c with
  | true => exact h rfl
  | false => exact refl_of (On Q) disk

theorem on_bind [IsTrans Ledgers Q] {m : BookM α} {f : α → BookM β} {disk : Disk}
    (hm : On Q disk (m.after disk)) (hf : ∀ a, m.result disk = .ok a →
      On Q (m.after disk) ((f a).after (m.after disk))) : On Q disk ((m >>= f).after disk) := by
  rw [Effect.after_bind]
  cases hres : m.result disk with
  | ok a => exact trans_of (On Q) hm (hf a hres)
  | error e => exact hm

theorem on_load_bind [IsTrans Ledgers Q] {f : Ledgers → BookM α} {g : α → BookM β} {disk : Disk}
    (hf : On Q disk ((f disk.ledgers).after disk)) (hg : ∀ a, Keeps (On Q) (g a)) :
    On Q disk ((load f >>= g).after disk) :=
  on_bind (m := load f) hf fun a _ => hg a _

/-- What a check says, if it lets through. -/
theorem result_context {what : String} {r : Except String α} {a : α} {disk : Disk}
    (h : (context what r).result disk = .ok a) : r = .ok a := by
  cases r with
  | ok c => exact congrArg Except.ok (Except.ok.inj h)
  | error e => cases h

@[simp] theorem after_context (what : String) (r : Except String α) (disk : Disk) :
    (context what r).after disk = disk := by
  cases r <;> rfl

/-- An error that is dropped leaves what was done. -/
@[simp] theorem after_bestEffort (m : BookM Unit) (disk : Disk) :
    (bestEffort m).after disk = m.after disk := by
  rw [bestEffort, Effect.after_tryCatch]
  split <;> rfl

@[simp] theorem after_resolveRecipientId (who : String) (disk : Disk) :
    (resolveRecipientId t who).after disk = disk := by
  rw [resolveRecipientId, load, Effect.after_get_bind]
  split
  · rfl
  · rw [Effect.after_bind, after_context]
    split <;> rfl

variable [Std.Refl Q] [IsTrans Ledgers Q]

theorem on_mark {read : Ledgers → Map ℕ} {write : Map ℕ → BookM Unit} {now : ℕ} {who : String}
    {disk : Disk} (h : ∀ id, (resolveRecipientId t who).result disk = .ok id →
      On Q disk ((write ((read disk.ledgers).insert id now)).after disk)) :
    On Q disk ((mark t read write now who).after disk) := by
  refine on_bind (by rw [after_resolveRecipientId]; exact refl_of (On Q) disk) fun id hid => ?_
  rw [after_resolveRecipientId, load, Effect.after_get_bind]
  exact on_bind (h id hid) fun _ _ => on_pure _ _

theorem on_unmark {read : Ledgers → Map ℕ} {write : Map ℕ → BookM Unit} {who : String}
    {disk : Disk} (h : ∀ id, (resolveRecipientId t who).result disk = .ok id →
      On Q disk ((write ((read disk.ledgers).erase id)).after disk)) :
    On Q disk ((unmark t read write who).after disk) := by
  refine on_bind (by rw [after_resolveRecipientId]; exact refl_of (On Q) disk) fun id hid => ?_
  rw [after_resolveRecipientId, load, Effect.after_get_bind]
  split
  · exact on_bind (h id hid) fun _ _ => on_pure _ _
  · exact refl_of (On Q) disk

/-- The row that is approved, written back. -/
theorem on_acceptName {who : String} {disk : Disk}
    (h : ∀ id row approved, (resolveRecipientId t who).result disk = .ok id →
      disk.ledgers.names[id]? = some row → row.pending = some approved → Q disk.ledgers
        { disk.ledgers with names := disk.ledgers.names.insert id ⟨approved, none, row.first⟩ }) :
    On Q disk ((acceptName t who).after disk) := by
  refine on_bind (by rw [after_resolveRecipientId]; exact refl_of (On Q) disk) fun id hid => ?_
  rw [after_resolveRecipientId, load, Effect.after_get_bind]
  split
  next pinned approved first hrow =>
    exact on_bind (on_save (h id _ approved hid hrow rfl) _) fun _ _ => on_pure _ _
  next => exact refl_of (On Q) disk

theorem keepsOn_clearRelay {idB32 : String}
    (h : ∀ L, Q L { L with relays := L.relays.erase (relayKey t idB32) }) :
    Keeps (On Q) (clearRelay t idB32) := by
  refine keepsOn_load fun disk => ?_
  split
  · exact on_bind (on_save (h _) _) fun _ _ => on_pure _ _
  · exact refl_of (On Q) disk

omit [IsTrans Ledgers Q] in
theorem keepsOn_setRelay {idB32 relay : String} (h : ∀ L, Q L { L with
      relays := L.relays.insert (relayKey t idB32) (canonicalRelay relay) }) :
    Keeps (On Q) (setRelay t idB32 relay) := by
  unfold setRelay
  dsimp only
  split
  · exact .throw _
  · exact keepsOn_load fun disk => on_save (h _) _

omit [IsTrans Ledgers Q] in
theorem keepsOn_recordRelay {newId : String} {relay : Option String}
    (h : ∀ r, relay = some r → ∀ L, Q L { L with
      relays := L.relays.insert (relayKey t newId) (canonicalRelay r) }) :
    Keeps (On Q) (recordRelay t newId relay) := by
  cases relay with
  | none => exact .pure _
  | some r =>
      rw [recordRelay]
      exact keepsOn_setRelay (h r rfl)

/-- A key that is replaced loses its marks and its relay. -/
theorem keepsOn_dropOldKey {oldId newId : String}
    (hverified : ∀ L, Q L { L with verified := L.verified.erase oldId })
    (htrusted : ∀ L, Q L { L with trusted := L.trusted.erase oldId })
    (hrelay : ∀ L, Q L { L with relays := L.relays.erase (relayKey t oldId) }) :
    Keeps (On Q) (dropOldKey t oldId newId) := by
  refine .bind (keepsOn_load fun disk => ?_) fun _ => .bind (keepsOn_load fun disk => ?_) fun _ =>
    .bind (keepsOn_clearRelay hrelay) fun _ => .pure _
  · exact on_saveIf fun _ => on_save (hverified _) _
  · exact on_saveIf fun _ => on_save (htrusted _) _

theorem keepsOn_replaceKey {newId : String} {found : Option String}
    (h : ∀ old, found = some old → old ≠ newId → Keeps (On Q) (dropOldKey t old newId)) :
    Keeps (On Q) (replaceKey t newId found) := by
  cases found with
  | none => exact .pure _
  | some old =>
      by_cases hne : old ≠ newId
      · rw [replaceKey, if_pos hne, map_eq_pure_bind]
        exact .bind (h old rfl hne) fun _ => .pure _
      · rw [replaceKey, if_neg hne]
        exact .pure _

/-- Names stay what they are while a key is replaced. -/
theorem contacts_replaceKey (newId : String) (found : Option String) (disk : Disk) :
    ((replaceKey t newId found).after disk).ledgers.contacts = disk.ledgers.contacts := by
  let Q (a b : Ledgers) : Prop := b.contacts = a.contacts
  have hrefl : Std.Refl Q := ⟨fun _ => rfl⟩
  have htrans : IsTrans Ledgers Q := ⟨fun _ _ _ hab hbc => hbc.trans hab⟩
  have hkeeps : Keeps (On Q) (replaceKey t newId found) :=
    keepsOn_replaceKey fun _ _ _ => keepsOn_dropOldKey (fun _ => rfl) (fun _ => rfl) fun _ => rfl
  exact hkeeps disk

/-- The text a key is kept under, from the text it was typed in as. -/
def keptAs (t : IdText) (text : String) : String := t.toLowercase (trim (splitIdAndRelay text).1)

/-- What saving a contact does: to the key its name stood for, to its name, to its relay. -/
theorem on_contactAdd {disk : Disk} {name text : String}
    (hdrop : ∀ old, disk.ledgers.contacts[name]? = some old → old ≠ keptAs t text →
      Keeps (On Q) (dropOldKey t old (keptAs t text)))
    (hname : ∀ key, t.decodeId (splitIdAndRelay text).1 = .ok key →
      ∀ L, L.contacts = disk.ledgers.contacts →
        Q L { L with contacts := disk.ledgers.contacts.insert name (keptAs t text) })
    (hrelay : ∀ key, t.decodeId (splitIdAndRelay text).1 = .ok key →
      ∀ r, (splitIdAndRelay text).2 = some r → ∀ L, Q L { L with
        relays := L.relays.insert (relayKey t (keptAs t text)) (canonicalRelay r) }) :
    On Q disk ((contactAdd t name text).after disk) := by
  unfold contactAdd
  rw [keptAs] at *
  rcases hsplit : splitIdAndRelay text with ⟨id, relay⟩
  simp only [hsplit] at hdrop hname hrelay ⊢
  refine on_bind (by rw [after_context]; exact refl_of (On Q) disk) fun key hkey => ?_
  replace hkey := result_context hkey
  rw [after_context]
  refine on_bind (m := replaceKey t (t.toLowercase (trim id)) disk.ledgers.contacts[name]?)
    (keepsOn_replaceKey hdrop disk) fun keyChange _ => ?_
  exact on_bind (on_save (hname key hkey _ (contacts_replaceKey _ _ disk)) _) fun _ _ =>
    on_bind (keepsOn_recordRelay (hrelay key hkey) _) fun _ _ => on_pure _ _

theorem on_contactRemove {disk : Disk} {name : String}
    (hname : Q disk.ledgers { disk.ledgers with contacts := disk.ledgers.contacts.erase name })
    (hnames : ∀ L names, Q L { L with names }) (hrelays : ∀ L relays, Q L { L with relays }) :
    On Q disk ((contactRemove t name).after disk) := by
  rw [contactRemove, load, Effect.after_get_bind]
  split
  · exact refl_of (On Q) disk
  · refine on_bind (on_save hname _) fun _ _ => ?_
    split
    · exact refl_of (On Q) _
    · refine on_bind ?_ fun _ _ => on_bind (keepsOn_clearRelay (fun L => hrelays L _) _)
        fun _ _ => on_pure _ _
      rw [forgetNameRow, load, Effect.after_get_bind]
      split
      · exact refl_of (On Q) _
      · split <;> exact on_save (hnames _ _) _

omit [IsTrans Ledgers Q] in
theorem on_contactRename {disk : Disk} {old new : String}
    (h : ∀ id, new ∉ disk.ledgers.contacts → disk.ledgers.contacts[old]? = some id →
      Q disk.ledgers { disk.ledgers with
        contacts := (disk.ledgers.contacts.erase old).insert new id }) :
    On Q disk ((contactRename old new).after disk) := by
  rw [contactRename, load, Effect.after_get_bind]
  split
  · exact refl_of (On Q) disk
  next hnew =>
    split
    · exact refl_of (On Q) disk
    next id hold =>
      exact on_save (h id (fun hmem => hnew (ExtTreeMap.mem_iff_contains.1 hmem)) hold) _

end

/-! ### Success -/

section

variable {α : Type} {t : IdText} {disk disk' : Disk}

open Effect

theorem yields_load {f : Ledgers → BookM α} {a : α} :
    Yields (load f) disk a disk' ↔ Yields (f disk.ledgers) disk a disk' := Iff.rfl

theorem ledgers_of_save {context : String} {f : Ledgers → Ledgers} {u : Unit}
    (h : Yields (save context f) disk u disk') : disk'.ledgers = f disk.ledgers := by
  obtain ⟨ledgers, left⟩ := disk
  obtain ⟨hresult, rfl⟩ := h
  cases left with
  | zero => cases hresult
  | succ left => rfl

theorem yields_context {what : String} {r : Except String α} {a : α} :
    Yields (context what r) disk a disk' ↔ r = .ok a ∧ disk = disk' := by
  cases r with
  | ok c => exact yields_pure_iff.trans (by rw [Except.ok.injEq])
  | error e => exact iff_of_false (not_yields_throw what) fun h => nomatch h.1

/-- A relay that was recorded. -/
theorem setRelay_yields {idB32 relay : String} {u : Unit}
    (h : Yields (setRelay t idB32 relay) disk u disk') : disk'.ledgers = { disk.ledgers with
      relays := disk.ledgers.relays.insert (relayKey t idB32) (canonicalRelay relay) } := by
  unfold setRelay at h
  dsimp only at h
  split at h
  · exact absurd h (not_yields_throw _)
  · exact ledgers_of_save (yields_load.1 h)

/-- Who is meant, if somebody is. -/
theorem resolveRecipientId_yields {who id : String}
    (h : Yields (resolveRecipientId t who) disk id disk') : disk = disk' ∧
      (disk.ledgers.contacts[trim who]? = some id ∨ disk.ledgers.contacts[trim who]? = none ∧
        id = keptAs t who ∧ ∃ key, t.decodeId (splitIdAndRelay who).1 = .ok key) := by
  rw [resolveRecipientId, yields_load] at h
  split at h
  next found hfound =>
    obtain ⟨rfl, rfl⟩ := yields_pure_iff.1 h
    exact ⟨rfl, .inl hfound⟩
  next hnone =>
    rcases hsplit : splitIdAndRelay who with ⟨text, relay⟩
    simp only [hsplit, keptAs] at h ⊢
    obtain ⟨key, mid, hkey, hrest⟩ := yields_bind_iff.1 h
    obtain ⟨hdecoded, rfl⟩ := yields_context.1 hkey
    obtain ⟨rfl, rfl⟩ := yields_pure_iff.1 hrest
    exact ⟨rfl, .inr ⟨hnone, rfl, key, hdecoded⟩⟩

/-- A contact that was saved: its name stands for the key, and its relay is the one given. -/
theorem contactAdd_yields {name text : String} {change : Option KeyChange}
    (h : Yields (contactAdd t name text) disk change disk') :
    (∃ key, t.decodeId (splitIdAndRelay text).1 = .ok key) ∧
      disk'.ledgers.contacts = disk.ledgers.contacts.insert name (keptAs t text) ∧
      ∀ key, (∀ old, disk.ledgers.contacts[name]? = some old → old ≠ keptAs t text →
        key ≠ relayKey t old) → disk'.ledgers.relays[key]? =
          if relayKey t (keptAs t text) = key then
            ((splitIdAndRelay text).2.map canonicalRelay).or disk.ledgers.relays[key]?
          else disk.ledgers.relays[key]? := by
  unfold contactAdd at h
  rw [keptAs] at *
  rcases hsplit : splitIdAndRelay text with ⟨id, relay⟩
  simp only [hsplit] at h ⊢
  set newId := t.toLowercase (trim id)
  obtain ⟨key, mid, hkey, hrest⟩ := yields_bind_iff.1 h
  obtain ⟨hdecoded, rfl⟩ := yields_context.1 hkey
  rw [yields_load] at hrest
  obtain ⟨keyChange, mid, hreplace, hrest⟩ := yields_bind_iff.1 hrest
  obtain ⟨_, mid', hsave, hrest⟩ := yields_bind_iff.1 hrest
  obtain ⟨_, last, hrelay, hrest⟩ := yields_bind_iff.1 hrest
  obtain ⟨-, rfl⟩ := yields_pure_iff.1 hrest
  -- Replacing the key leaves the names alone, and the relays of other keys.
  let Q (a b : Ledgers) : Prop := b.contacts = a.contacts ∧ ∀ k,
    (∀ old, disk.ledgers.contacts[name]? = some old → old ≠ newId → k ≠ relayKey t old) →
      b.relays[k]? = a.relays[k]?
  have hrefl : Std.Refl Q := ⟨fun a => ⟨rfl, fun _ _ => rfl⟩⟩
  have htrans : IsTrans Ledgers Q := ⟨fun a b c hab hbc => ⟨hbc.1.trans hab.1,
    fun k hk => (hbc.2 k hk).trans (hab.2 k hk)⟩⟩
  have hmid : Q disk.ledgers mid.ledgers := by
    have hdrop : Keeps (On Q) (replaceKey t newId disk.ledgers.contacts[name]?) := by
      refine keepsOn_replaceKey fun old hold hne => keepsOn_dropOldKey (fun L => ?_) (fun L => ?_)
        fun L => ⟨rfl, fun k hk => ?_⟩
      · exact ⟨rfl, fun _ _ => rfl⟩
      · exact ⟨rfl, fun _ _ => rfl⟩
      · rw [ExtTreeMap.getElem?_erase, if_neg]
        simpa using (hk old hold hne).symm
    have hkept := hdrop disk
    rwa [hreplace.2] at hkept
  have hnames : mid'.ledgers = { mid.ledgers with
      contacts := disk.ledgers.contacts.insert name newId } := ledgers_of_save hsave
  cases relay with
  | none =>
      obtain ⟨-, rfl⟩ := yields_pure_iff.1 hrelay
      rw [hnames]
      refine ⟨⟨key, hdecoded⟩, rfl, fun k hk => ?_⟩
      simpa using hmid.2 k hk
  | some r =>
      have hlast := setRelay_yields (show Yields (setRelay t newId r) mid' _ last from hrelay)
      rw [hlast, hnames]
      refine ⟨⟨key, hdecoded⟩, ?_, fun k hk => ?_⟩
      · rfl
      · simp only [ExtTreeMap.getElem?_insert, hmid.2 k hk]
        split <;> simp_all

end

end Arvolo.Book
