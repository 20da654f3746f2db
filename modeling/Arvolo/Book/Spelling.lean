import Arvolo.Book.Recipient
import Arvolo.Lib.Machine

/-!
One spelling for a key.

The ledgers are keyed by the text of an id. What is typed in is read in upper case and kept in
lower case; what arrives is looked up under the text that `encode_id` gives. The two are the
same text where the id was typed in ASCII.
-/

namespace Arvolo.Book

open Lib Sync
open Std (ExtTreeMap)

/-! ### Text -/

/-- `str::is_ascii` -/
def IsAscii (s : String) : Prop := ∀ c ∈ s.toList, c.toNat < 128

theorem forall_ascii {P : Char → Prop} (h : ∀ n < 128, P (Char.ofNat n)) {c : Char}
    (hc : c.toNat < 128) : P c := by
  have hP := h c.toNat hc
  rwa [Char.ofNat_toNat] at hP

theorem toLower_toUpper {c : Char} (hc : c.toNat < 128) : c.toUpper.toLower = c.toLower :=
  forall_ascii (P := fun c => c.toUpper.toLower = c.toLower) (by decide +kernel) hc

theorem toUpper_toLower {c : Char} (hc : c.toNat < 128) : c.toLower.toUpper = c.toUpper :=
  forall_ascii (P := fun c => c.toLower.toUpper = c.toUpper) (by decide +kernel) hc

theorem toLower_toLower {c : Char} (hc : c.toNat < 128) : c.toLower.toLower = c.toLower :=
  forall_ascii (P := fun c => c.toLower.toLower = c.toLower) (by decide +kernel) hc

theorem trim_of_forall {s : String} (h : ∀ c ∈ s.toList, isWhitespace c = false) : trim s = s := by
  have hnone (l : List Char) (hl : ∀ c ∈ l, isWhitespace c = false) :
      l.dropWhile isWhitespace = l := by
    cases l with
    | nil => rfl
    | cons c l => rw [List.dropWhile_cons_of_neg (by simp [hl c List.mem_cons_self])]
  rw [trim, hnone _ h, hnone _ fun c hc => h c (List.mem_reverse.1 hc), List.reverse_reverse,
    String.ofList_toList]

/-- A text without blanks and without the separator is an id without a relay. -/
theorem splitIdAndRelay_of_forall {s : String}
    (h : ∀ c ∈ s.toList, isWhitespace c = false ∧ c ≠ '@') : splitIdAndRelay s = (s, none) := by
  have htrim : trim s = s := trim_of_forall fun c hc => (h c hc).1
  have honce : splitOnce '@' s = none := if_neg fun hmem => (h '@' hmem).2 rfl
  rw [splitIdAndRelay, htrim, honce]

/-- A canonical relay keeps a colon, of the scheme at the least. -/
theorem canonicalRelay_ne_empty (raw : String) : (canonicalRelay raw).isEmpty = false := by
  have hcolon : ':' ∈ (normalizeRelay (trim raw)).toList := by
    rw [normalizeRelay]
    split
    next hin => exact hin.subset (by decide)
    next => rw [String.toList_append]; exact List.mem_append_left _ (by decide)
  have hkept : ':' ∈ (canonicalRelay raw).toList := by
    rw [canonicalRelay, String.toList_ofList, List.mem_reverse]
    have hsplit : ':' ∈ (normalizeRelay (trim raw)).toList.reverse.takeWhile (· = '/') ++
        (normalizeRelay (trim raw)).toList.reverse.dropWhile (· = '/') := by
      rw [List.takeWhile_append_dropWhile]
      exact List.mem_reverse.2 hcolon
    refine (List.mem_append.1 hsplit).resolve_left fun htaken => ?_
    exact absurd (List.mem_takeWhile_imp htaken) (by decide)
  rw [← Bool.not_eq_true, String.isEmpty_iff]
  intro hempty
  rw [hempty] at hkept
  cases hkept

/-! ### The text of a key -/

section

variable {t : IdText} {b : IdBytes t}

/-- What is known of the case mappings, of base32 and of the bytes of a key. -/
structure IdBytes.Lawful (b : IdBytes t) : Prop where
  base32_read : t.base32 = Base32.decode
  base32_written : b.base32 = Base32.encode
  edBytes : ∀ bytes ed, t.ed bytes = some ed → b.edBytes ed = bytes
  xBytes : ∀ bytes x, t.x bytes = some x → b.xBytes x = bytes
  toUppercase : ∀ s, IsAscii s → t.toUppercase s = .ofList (s.toList.map Char.toUpper)
  toLowercase : ∀ s, IsAscii s → t.toLowercase s = .ofList (s.toList.map Char.toLower)

/-- The text that `encode_id` gives for the key it denotes. -/
def KeyText (b : IdBytes t) (s : String) : Prop :=
  ∃ key, t.decodeId s = .ok key ∧ s = b.encodeId key

/-- A key has one text. -/
theorem KeyText.eq {s s' : String} (h : KeyText b s) (h' : KeyText b s')
    (hsame : t.decodeId s = t.decodeId s') : s = s' := by
  obtain ⟨key, hkey, rfl⟩ := h
  obtain ⟨key', hkey', rfl⟩ := h'
  rw [hkey, hkey', Except.ok.injEq] at hsame
  rw [hsame]

variable (hb : b.Lawful)

include hb

theorem toBytes_of_fromBytes {bytes : List UInt8} {key : t.Ed × t.X}
    (h : t.fromBytes bytes = .ok key) : b.toBytes key = bytes := by
  unfold IdText.fromBytes at h
  split at h
  · cases h
  · split at h
    · cases h
    next ed hed =>
      split at h
      · cases h
      · split at h
        · cases h
        next x hx =>
          cases h
          rw [IdBytes.toBytes, hb.edBytes _ _ hed, hb.xBytes _ _ hx, List.take_append_drop]

omit hb in
theorem isAscii_encode (bytes : List UInt8) : IsAscii (Base32.encode bytes) := by
  intro c hc
  exact Base32.forall_alphabet (P := (·.toNat < 128)) (by decide) _
    (Base32.mem_alphabet_of_encode hc)

theorem encodeId_eq (key : t.Ed × t.X) : b.encodeId key =
    .ofList ((Base32.encode (b.toBytes key)).toList.map Char.toLower) := by
  rw [IdBytes.encodeId, hb.base32_written, hb.toLowercase _ (isAscii_encode _)]

/-- The text of a key is of the alphabet in lower case. -/
theorem mem_encodeId {key : t.Ed × t.X} {c : Char} (hc : c ∈ (b.encodeId key).toList) :
    ∃ a ∈ Base32.alphabet, a.toLower = c := by
  rw [encodeId_eq hb, String.toList_ofList, List.mem_map] at hc
  obtain ⟨a, ha, rfl⟩ := hc
  exact ⟨a, Base32.mem_alphabet_of_encode ha, rfl⟩

theorem isAscii_encodeId (key : t.Ed × t.X) : IsAscii (b.encodeId key) := by
  intro c hc
  obtain ⟨a, ha, rfl⟩ := mem_encodeId hb hc
  exact Base32.forall_alphabet (P := (·.toLower.toNat < 128)) (by decide) a ha

theorem splitIdAndRelay_encodeId (key : t.Ed × t.X) :
    splitIdAndRelay (b.encodeId key) = (b.encodeId key, none) := by
  refine splitIdAndRelay_of_forall fun c hc => ?_
  obtain ⟨a, ha, rfl⟩ := mem_encodeId hb hc
  exact Base32.forall_alphabet (P := fun a => isWhitespace a.toLower = false ∧ a.toLower ≠ '@')
    (by decide) a ha

theorem trim_encodeId (key : t.Ed × t.X) : trim (b.encodeId key) = b.encodeId key := by
  refine trim_of_forall fun c hc => ?_
  obtain ⟨a, ha, rfl⟩ := mem_encodeId hb hc
  exact Base32.forall_alphabet (P := (isWhitespace ·.toLower = false)) (by decide) a ha

theorem toLowercase_encodeId (key : t.Ed × t.X) :
    t.toLowercase (b.encodeId key) = b.encodeId key := by
  rw [hb.toLowercase _ (isAscii_encodeId hb key), encodeId_eq hb, String.toList_ofList,
    List.map_map]
  exact congrArg String.ofList (List.map_congr_left fun c hc => toLower_toLower (isAscii_encode _ c hc))

theorem relayKey_encodeId (key : t.Ed × t.X) : relayKey t (b.encodeId key) = b.encodeId key := by
  rw [relayKey, trim_encodeId hb, toLowercase_encodeId hb]

omit hb in
theorem decodeId_eq_ok_iff {s : String} {key : t.Ed × t.X} : t.decodeId s = .ok key ↔
    ∃ bytes, t.base32 (t.toUppercase (trim s)) = some bytes ∧ t.fromBytes bytes = .ok key := by
  rw [IdText.decodeId]
  cases t.base32 (t.toUppercase (trim s)) with
  | none => simp
  | some bytes => simp

/-- A key is read back from its text. -/
theorem decodeId_encodeId {key : t.Ed × t.X} (h : t.fromBytes (b.toBytes key) = .ok key) :
    t.decodeId (b.encodeId key) = .ok key := by
  have hupper : t.toUppercase (b.encodeId key) = Base32.encode (b.toBytes key) := by
    rw [hb.toUppercase _ (isAscii_encodeId hb key), encodeId_eq hb, String.toList_ofList,
      List.map_map]
    refine (congrArg String.ofList ?_).trans (String.ofList_toList (s := Base32.encode _))
    refine (List.map_congr_left fun c hc => ?_).trans (List.map_id _)
    exact Base32.forall_alphabet (P := fun a => a.toLower.toUpper = a) (by decide) c
      (Base32.mem_alphabet_of_encode hc)
  rw [decodeId_eq_ok_iff, trim_encodeId hb, hupper, hb.base32_read]
  exact ⟨_, Base32.decode_encode _, h⟩

/-- Read in upper case, kept in lower case, an id in ASCII is kept as the text of its key. -/
theorem keyText_of_isAscii {s : String} (hs : IsAscii (trim s)) {key : t.Ed × t.X}
    (h : t.decodeId s = .ok key) :
    t.toLowercase (trim s) = b.encodeId key ∧ t.decodeId (b.encodeId key) = .ok key := by
  obtain ⟨bytes, hbytes, hkey⟩ := decodeId_eq_ok_iff.1 h
  have hlower : t.toLowercase (trim s) = b.encodeId key := by
    rw [hb.base32_read, hb.toUppercase _ hs] at hbytes
    rw [encodeId_eq hb, toBytes_of_fromBytes hb hkey, Base32.encode_decode hbytes,
      hb.toLowercase _ hs, String.toList_ofList, List.map_map]
    exact congrArg String.ofList (List.map_congr_left fun c hc => (toLower_toUpper (hs c hc)).symm)
  have hupper : t.toUppercase (b.encodeId key) = t.toUppercase (trim s) := by
    rw [hb.toUppercase _ (isAscii_encodeId hb key), hb.toUppercase _ hs, ← hlower,
      hb.toLowercase _ hs, String.toList_ofList, List.map_map]
    exact congrArg String.ofList (List.map_congr_left fun c hc => toUpper_toLower (hs c hc))
  refine ⟨hlower, decodeId_eq_ok_iff.2 ⟨bytes, ?_, hkey⟩⟩
  rw [trim_encodeId hb, hupper, hbytes]

end

/-! ### The ledgers -/

section

variable {t : IdText} {b : IdBytes t}

/-- Every row is filed under the text of a key. -/
def Keyed {β : Type} (b : IdBytes t) (m : Map β) : Prop := ∀ id ∈ m, KeyText b id

structure Canonical (b : IdBytes t) (L : Ledgers) : Prop where
  contacts : ∀ name id : String, L.contacts[name]? = some id → KeyText b id
  verified : Keyed b L.verified
  trusted : Keyed b L.trusted
  blocked : Keyed b L.blocked
  names : Keyed b L.names
  relays : Keyed b L.relays

def KeepsCanonical (b : IdBytes t) (L L' : Ledgers) : Prop := Canonical b L → Canonical b L'

instance : Std.Refl (KeepsCanonical b) := ⟨fun _ h => h⟩

instance : IsTrans Ledgers (KeepsCanonical b) := ⟨fun _ _ _ hab hbc h => hbc (hab h)⟩

theorem canonical_empty : Canonical b {} where
  contacts name id h := by simp at h
  verified id h := by simp at h
  trusted id h := by simp at h
  blocked id h := by simp at h
  names id h := by simp at h
  relays id h := by simp at h

theorem Keyed.insert {β : Type} {m : Map β} (h : Keyed b m) {id : String} (hid : KeyText b id)
    (v : β) : Keyed b (m.insert id v) := by
  intro id' hid'
  rw [ExtTreeMap.mem_insert] at hid'
  rcases hid' with heq | hid'
  · rwa [← compare_eq_iff_eq.1 heq]
  · exact h id' hid'

theorem Keyed.erase {β : Type} {m : Map β} (h : Keyed b m) (id : String) : Keyed b (m.erase id) :=
  fun id' hid' => h id' (ExtTreeMap.mem_of_mem_erase hid')

/-- The three ledgers of marks. -/
inductive Marking
  | verified
  | trusted
  | blocked

def Marking.read : Marking → Ledgers → Map ℕ
  | verified => Ledgers.verified
  | trusted => Ledgers.trusted
  | blocked => Ledgers.blocked

def Marking.write : Marking → Map ℕ → Ledgers → Ledgers
  | verified, m, L => { L with verified := m }
  | trusted, m, L => { L with trusted := m }
  | blocked, m, L => { L with blocked := m }

def Marking.save : Marking → Map ℕ → BookM Unit
  | verified => saveVerified
  | trusted => saveTrusted
  | blocked => saveBlocked

def Marking.mark (t : IdText) : Marking → ℕ → String → BookM String
  | verified => markVerified t
  | trusted => markTrusted t
  | blocked => markBlocked t

def Marking.unmark (t : IdText) : Marking → String → BookM Bool
  | verified => unmarkVerified t
  | trusted => unmarkTrusted t
  | blocked => unmarkBlocked t

@[simp] theorem Marking.read_write (k : Marking) (m : Map ℕ) (L : Ledgers) :
    k.read (k.write m L) = m := by
  cases k <;> rfl

@[simp] theorem Marking.contacts_write (k : Marking) (m : Map ℕ) (L : Ledgers) :
    (k.write m L).contacts = L.contacts := by
  cases k <;> rfl

theorem Marking.mark_eq (k : Marking) : k.mark t = Book.mark t k.read k.save := by
  cases k <;> rfl

theorem Marking.unmark_eq (k : Marking) : k.unmark t = Book.unmark t k.read k.save := by
  cases k <;> rfl

theorem Marking.exists_save_eq (k : Marking) (m : Map ℕ) :
    ∃ context, k.save m = Book.save context (k.write m) := by
  cases k <;> exact ⟨_, rfl⟩

theorem Canonical.read {L : Ledgers} (h : Canonical b L) (k : Marking) : Keyed b (k.read L) := by
  cases k with
  | verified => exact h.verified
  | trusted => exact h.trusted
  | blocked => exact h.blocked

theorem Canonical.write {L : Ledgers} (h : Canonical b L) (k : Marking) {m : Map ℕ}
    (hm : Keyed b m) : Canonical b (k.write m L) := by
  cases k with
  | verified => exact { h with verified := hm }
  | trusted => exact { h with trusted := hm }
  | blocked => exact { h with blocked := hm }

/-- What is saved, and by which words. -/
inductive Saving
  | add (name id : String)
  | mark (k : Marking) (markedNow : ℕ) (who : String)
  | unmark (k : Marking) (who : String)
  | accept (who : String)
  | listens (idB32 url : String)

def Saving.run (t : IdText) : Saving → BookM Unit
  | .add name id => discard (contactAdd t name id)
  | .mark k markedNow who => discard (k.mark t markedNow who)
  | .unmark k who => discard (k.unmark t who)
  | .accept who => discard (acceptName t who)
  | .listens idB32 url => setRelay t idB32 url

/-- One edit, of which some saves succeed. -/
def saved (t : IdText) (L : Ledgers) (e : Saving × ℕ) : Ledgers :=
  ((e.1.run t).after ⟨L, e.2⟩).ledgers

/-- A text that is read as an id is in ASCII. -/
def PlainId (t : IdText) (text : String) : Prop :=
  ∀ key, t.decodeId (splitIdAndRelay text).1 = .ok key → IsAscii (trim (splitIdAndRelay text).1)

/-- Names without blanks around them, ids in ASCII, relays whose canonical spelling is one. -/
def Plain (t : IdText) (L : Ledgers) : Saving × ℕ → Prop
  | (.add name id, _) => PlainId t id ∧ ∀ key, t.decodeId (splitIdAndRelay id).1 = .ok key →
      trim name = name ∧ ∀ r, (splitIdAndRelay id).2 = some r → canonicalRelay r = r
  | (.mark _ _ who, _) | (.unmark _ who, _) | (.accept who, _) =>
      L.contacts[trim who]? = none → PlainId t who
  | (.listens idB32 _, _) => IsAscii (trim idB32) ∧ ∃ key, t.decodeId idB32 = .ok key

/-- What was saved is found: under the name, and under the text of the key. -/
def Saving.Found (b : IdBytes t) (L L' : Ledgers) : Saving → Prop
  | .add name id => ∃ key, t.decodeId (splitIdAndRelay id).1 = .ok key ∧
      resolveRecipientWithRelay t L' name =
        .ok (key, (splitIdAndRelay id).2.or (relayOf t L (b.encodeId key))) ∧
      (resolveName L' (b.encodeId key)).isSome = true
  | .mark k _ who => ∃ key, resolveRecipient t L who = .ok key ∧ b.encodeId key ∈ k.read L'
  | .unmark k who => ∃ key, resolveRecipient t L who = .ok key ∧ b.encodeId key ∉ k.read L'
  | .accept who => ∃ key row, resolveRecipient t L who = .ok key ∧
      L.names[b.encodeId key]? = some row ∧ row.pending.isSome = true ∧
      L'.names[b.encodeId key]?.map NameRow.pinned = row.pending
  | .listens idB32 url => ∃ key, t.decodeId idB32 = .ok key ∧
      relayOf t L' (b.encodeId key) = some (canonicalRelay url)

/-- Of an edit that succeeds. -/
def Found (b : IdBytes t) (L : Ledgers) (e : Saving × ℕ) : Prop :=
  (e.1.run t).result ⟨L, e.2⟩ = .ok () → e.1.Found b L (saved t L e)

variable {disk disk' : Disk}

open Effect

theorem yields_discard {α : Type} {m : BookM α} {u : Unit} :
    Yields (discard m) disk u disk' ↔ ∃ a, Yields m disk a disk' := by
  rw [show discard m = (fun _ => PUnit.unit) <$> m from rfl, map_eq_pure_bind, yields_bind_iff]
  constructor
  · rintro ⟨a, mid, hm, hrest⟩
    obtain ⟨-, rfl⟩ := yields_pure_iff.1 hrest
    exact ⟨a, hm⟩
  · rintro ⟨a, hm⟩
    exact ⟨a, disk', hm, yields_pure_iff.2 ⟨rfl, rfl⟩⟩

theorem after_discard {α : Type} (m : BookM α) : (discard m).after disk = m.after disk := by
  rw [show discard m = (fun _ => PUnit.unit) <$> m from rfl, map_eq_pure_bind, after_bind]
  split <;> rfl

/-- A mark that was made. -/
theorem mark_yields {k : Marking} {now : ℕ} {who id : String}
    (h : Yields (k.mark t now who) disk id disk') : ∃ id, Yields (resolveRecipientId t who) disk id
      disk ∧ disk'.ledgers = k.write ((k.read disk.ledgers).insert id now) disk.ledgers := by
  rw [Marking.mark_eq] at h
  obtain ⟨id, mid, hwho, hrest⟩ := yields_bind_iff.1 h
  obtain ⟨rfl, -⟩ := resolveRecipientId_yields hwho
  obtain ⟨_, mid, hsave, hrest⟩ := yields_bind_iff.1 (yields_load.1 hrest)
  obtain ⟨-, rfl⟩ := yields_pure_iff.1 hrest
  obtain ⟨context, heq⟩ := k.exists_save_eq ((k.read disk.ledgers).insert id now)
  rw [heq] at hsave
  exact ⟨id, hwho, ledgers_of_save hsave⟩

theorem unmark_yields {k : Marking} {who : String} {there : Bool}
    (h : Yields (k.unmark t who) disk there disk') : ∃ id, Yields (resolveRecipientId t who) disk
      id disk ∧ id ∉ k.read disk'.ledgers := by
  rw [Marking.unmark_eq] at h
  obtain ⟨id, mid, hwho, hrest⟩ := yields_bind_iff.1 h
  obtain ⟨rfl, -⟩ := resolveRecipientId_yields hwho
  rw [yields_load] at hrest
  refine ⟨id, hwho, ?_⟩
  split at hrest
  next =>
    obtain ⟨_, mid, hsave, hrest⟩ := yields_bind_iff.1 hrest
    obtain ⟨-, rfl⟩ := yields_pure_iff.1 hrest
    obtain ⟨context, heq⟩ := k.exists_save_eq ((k.read disk.ledgers).erase id)
    rw [heq] at hsave
    rw [ledgers_of_save hsave, Marking.read_write]
    exact fun hmem => (ExtTreeMap.mem_erase.1 hmem).1 Std.ReflCmp.compare_self
  next hnone =>
    obtain ⟨-, rfl⟩ := yields_pure_iff.1 hrest
    exact fun hmem => hnone (ExtTreeMap.mem_iff_contains.1 hmem)

/-- A name that was approved. -/
theorem acceptName_yields {who approved : String} (h : Yields (acceptName t who) disk approved disk') :
    ∃ id row, Yields (resolveRecipientId t who) disk id disk ∧ disk.ledgers.names[id]? = some row ∧
      row.pending = some approved ∧ disk'.ledgers.names[id]?.map NameRow.pinned = some approved := by
  obtain ⟨id, mid, hwho, hrest⟩ := yields_bind_iff.1 h
  obtain ⟨rfl, -⟩ := resolveRecipientId_yields hwho
  rw [yields_load] at hrest
  split at hrest
  next pinned pending first hrow =>
    obtain ⟨_, mid, hsave, hrest⟩ := yields_bind_iff.1 hrest
    obtain ⟨rfl, rfl⟩ := yields_pure_iff.1 hrest
    refine ⟨id, _, hwho, hrow, rfl, ?_⟩
    rw [ledgers_of_save hsave]
    simp
  next => exact absurd hrest (not_yields_throw _)

variable (hb : b.Lawful)

include hb

/-- Who is meant is known by the text of the key. -/
theorem resolveRecipientId_of_plain {L : Ledgers} (hL : Canonical b L) {who id : String}
    (hplain : L.contacts[trim who]? = none → PlainId t who) {left : ℕ}
    (h : Yields (resolveRecipientId t who) ⟨L, left⟩ id ⟨L, left⟩) :
    ∃ key, resolveRecipient t L who = .ok key ∧ id = b.encodeId key ∧ KeyText b id := by
  obtain ⟨-, hfound | ⟨hnone, rfl, key, hkey⟩⟩ := resolveRecipientId_yields h
  · obtain ⟨key, hkey, rfl⟩ := hL.contacts _ _ hfound
    refine ⟨key, ?_, rfl, key, hkey, rfl⟩
    replace hfound : L.contacts[trim who]? = some (b.encodeId key) := hfound
    simp [resolveRecipient, resolveRecipientWithRelay, hfound, hkey]
  · obtain ⟨htext, hback⟩ := keyText_of_isAscii hb (hplain hnone key hkey) hkey
    replace hnone : L.contacts[trim who]? = none := hnone
    rw [keptAs, htext]
    refine ⟨key, ?_, rfl, key, hback, rfl⟩
    simp [resolveRecipient, resolveRecipientWithRelay, hnone, hkey]

theorem keyText_encodeId {text : String} (hplain : PlainId t text) {key : t.Ed × t.X} (h : t.decodeId (splitIdAndRelay text).1 = .ok key) :
    keptAs t text = b.encodeId key ∧ KeyText b (b.encodeId key) := by
  obtain ⟨htext, hback⟩ := keyText_of_isAscii hb (hplain key h) h
  exact ⟨htext, key, hback, rfl⟩

theorem canonical_add {disk : Disk} {name text : String} (hplain : PlainId t text) :
    On (KeepsCanonical b) disk ((contactAdd t name text).after disk) := by
  intro hL
  refine on_contactAdd (Q := KeepsCanonical b) (fun old _ _ => keepsOn_dropOldKey ?_ ?_ ?_)
    (fun key hkey => ?_) (fun key hkey r _ => ?_) hL
  · exact fun L h => { h with verified := h.verified.erase old }
  · exact fun L h => { h with trusted := h.trusted.erase old }
  · exact fun L h => { h with relays := h.relays.erase _ }
  · obtain ⟨htext, hid⟩ := keyText_encodeId hb hplain hkey
    refine fun L _ h => { h with contacts := fun name' id hfound => ?_ }
    rw [ExtTreeMap.getElem?_insert, htext] at hfound
    split_ifs at hfound
    · exact Option.some.inj hfound ▸ hid
    · exact hL.contacts name' id hfound
  · obtain ⟨htext, hid⟩ := keyText_encodeId hb hplain hkey
    rw [htext, relayKey_encodeId hb]
    exact fun L h => { h with relays := h.relays.insert hid _ }

/-- One edit leaves the rows under the texts of keys. -/
theorem canonical_step {L : Ledgers} {e : Saving × ℕ} (hplain : Plain t L e) (hL : Canonical b L) :
    Canonical b (saved t L e) := by
  obtain ⟨e, left⟩ := e
  have hwho {who id : String} (h : L.contacts[trim who]? = none → PlainId t who)
      (hid : (resolveRecipientId t who).result ⟨L, left⟩ = .ok id) : KeyText b id := by
    obtain ⟨-, -, -, hkey⟩ := resolveRecipientId_of_plain hb hL h
      ⟨hid, after_resolveRecipientId who ⟨L, left⟩⟩
    exact hkey
  have hmarked (k : Marking) (m : Map ℕ) (hm : Keyed b m) :
      On (KeepsCanonical b) ⟨L, left⟩ ((k.save m).after ⟨L, left⟩) := by
    obtain ⟨context, heq⟩ := k.exists_save_eq m
    rw [heq]
    exact on_save (Q := KeepsCanonical b) (fun h => h.write k hm) context
  cases e with
  | add name id =>
      rw [saved, Saving.run, after_discard]
      exact canonical_add hb hplain.1 hL
  | mark k now who =>
      rw [saved, Saving.run, after_discard, Marking.mark_eq]
      exact on_mark (Q := KeepsCanonical b)
        (fun id hid => hmarked k _ ((hL.read k).insert (hwho hplain hid) now)) hL
  | unmark k who =>
      rw [saved, Saving.run, after_discard, Marking.unmark_eq]
      exact on_unmark (Q := KeepsCanonical b) (fun id _ => hmarked k _ ((hL.read k).erase id)) hL
  | accept who =>
      rw [saved, Saving.run, after_discard]
      refine on_acceptName (Q := KeepsCanonical b) (fun id row approved hid _ _ h => ?_) hL
      exact { h with names := h.names.insert (hwho hplain hid) _ }
  | listens idB32 url =>
      obtain ⟨hascii, key, hkey⟩ := hplain
      obtain ⟨htext, hback⟩ := keyText_of_isAscii hb hascii hkey
      have hkeeps : Keeps (On (KeepsCanonical b)) (setRelay t idB32 url) := by
        refine keepsOn_setRelay fun L' h => ?_
        rw [relayKey, htext]
        exact { h with relays := h.relays.insert ⟨key, hback, rfl⟩ _ }
      exact hkeeps ⟨L, left⟩ hL

theorem found_add {disk disk' : Disk} {name text : String} {change : Option KeyChange}
    (hid : PlainId t text) (hplain : ∀ key, t.decodeId (splitIdAndRelay text).1 = .ok key →
      trim name = name ∧ ∀ r, (splitIdAndRelay text).2 = some r → canonicalRelay r = r)
    (h : Yields (contactAdd t name text) disk change disk') (hL : Canonical b disk.ledgers) :
    (Saving.add name text).Found b disk.ledgers disk'.ledgers := by
  obtain ⟨⟨key, hkey⟩, hcontacts, hrelays⟩ := contactAdd_yields h
  obtain ⟨hname, hrelay⟩ := hplain key hkey
  obtain ⟨htext, hback⟩ := keyText_of_isAscii hb (hid key hkey) hkey
  rw [keptAs, htext] at hcontacts hrelays
  have hfound : disk'.ledgers.contacts[name]? = some (b.encodeId key) := by simp [hcontacts]
  have hhint : relayOf t disk'.ledgers (b.encodeId key) =
      (splitIdAndRelay text).2.or (relayOf t disk.ledgers (b.encodeId key)) := by
    have hrow := hrelays (b.encodeId key) fun old hold hne => by
      -- the row that went with the old key is another one
      obtain ⟨key', -, rfl⟩ := hL.contacts _ _ hold
      rw [relayKey_encodeId hb]
      exact Ne.symm hne
    rw [relayKey_encodeId hb, if_pos rfl] at hrow
    rw [relayOf, relayOf, relayKey_encodeId hb, hrow]
    cases hr : (splitIdAndRelay text).2 with
    | none => simp
    | some r => simp [hrelay r hr, ← hrelay r hr ▸ canonicalRelay_ne_empty r]
  refine ⟨key, hkey, ?_, ?_⟩
  · simp only [resolveRecipientWithRelay, hname, hfound, hback, hhint]
  · rw [resolveName, Option.isSome_map, List.find?_isSome]
    exact ⟨(name, b.encodeId key), ExtTreeMap.mem_toList_iff_getElem?_eq_some.2 hfound, by simp⟩

theorem found_step {L : Ledgers} {e : Saving × ℕ} (hplain : Plain t L e) (hL : Canonical b L) :
    Found b L e := by
  obtain ⟨e, left⟩ := e
  intro hok
  have hyields : Yields (e.run t) ⟨L, left⟩ () ((e.run t).after ⟨L, left⟩) := ⟨hok, rfl⟩
  rw [saved]
  generalize (e.run t).after ⟨L, left⟩ = disk' at hyields
  cases e with
  | add name id =>
      obtain ⟨change, hadd⟩ := yields_discard.1 hyields
      obtain ⟨hid, hrest⟩ := hplain
      have hfound := found_add hb hid hrest hadd hL
      exact hfound
  | mark k now who =>
      obtain ⟨id, hmark⟩ := yields_discard.1 hyields
      obtain ⟨id, hwho, hafter⟩ := mark_yields hmark
      obtain ⟨key, hkey, rfl, -⟩ := resolveRecipientId_of_plain hb hL hplain hwho
      refine ⟨key, hkey, ?_⟩
      rw [hafter, Marking.read_write]
      exact ExtTreeMap.mem_insert_self
  | unmark k who =>
      obtain ⟨there, hunmark⟩ := yields_discard.1 hyields
      obtain ⟨id, hwho, hafter⟩ := unmark_yields hunmark
      obtain ⟨key, hkey, rfl, -⟩ := resolveRecipientId_of_plain hb hL hplain hwho
      exact ⟨key, hkey, hafter⟩
  | accept who =>
      obtain ⟨approved, haccept⟩ := yields_discard.1 hyields
      obtain ⟨id, row, hwho, hrow, hpending, hafter⟩ := acceptName_yields haccept
      obtain ⟨key, hkey, rfl, -⟩ := resolveRecipientId_of_plain hb hL hplain hwho
      exact ⟨key, row, hkey, hrow, by simp [hpending], by rw [hafter, hpending]⟩
  | listens idB32 url =>
      obtain ⟨hascii, key, hkey⟩ := hplain
      obtain ⟨htext, -⟩ := keyText_of_isAscii hb hascii hkey
      have hset : Yields (setRelay t idB32 url) ⟨L, left⟩ () disk' := hyields
      refine ⟨key, hkey, ?_⟩
      rw [setRelay_yields hset, relayOf, relayKey_encodeId hb]
      simp [relayKey, htext, canonicalRelay_ne_empty]

/-- Along a run of such edits every row is filed under the text of its key, and what was saved
is found. -/
theorem found_run (L : Ledgers) (hL : Canonical b L) (es : List (Saving × ℕ))
    (h : Along (saved t) (Plain t) L es) :
    (∀ n, Canonical b ((es.take n).foldl (saved t) L)) ∧ Along (saved t) (Found b) L es := by
  refine ⟨fun n => ?_, ?_⟩
  · exact Along.foldl_inv (Canonical b) (fun L e hL hplain => canonical_step hb hplain hL) hL
      (h.take n)
  · exact h.imp (Canonical b) (fun L e _ hL hplain => canonical_step hb hplain hL)
      (fun L e _ hL hplain => found_step hb hplain hL) hL

end

/-! ### A key, and a name with a blank before it -/

def basePoint : List UInt8 := 0x58 :: List.replicate 31 0x66

/-- As far as ids in ASCII go whose first half is the base point. -/
def basePointIds : IdText where
  Ed := List UInt8
  X := List UInt8
  toUppercase s := .ofList (s.toList.map Char.toUpper)
  toLowercase s := .ofList (s.toList.map Char.toLower)
  base32 := Base32.decode
  ed bytes := if bytes = basePoint then some bytes else none
  torsionFree _ := true
  x := some
  fingerprint _ := ""

def basePointBytes : IdBytes basePointIds where
  edBytes := id
  xBytes := id
  base32 := Base32.encode

theorem lawful_basePointBytes : basePointBytes.Lawful where
  base32_read := rfl
  base32_written := rfl
  edBytes bytes ed h := by
    exact (Option.some.inj (Option.ite_none_right_eq_some.1 h).2).symm
  xBytes bytes x h := (Option.some.inj h).symm
  toUppercase _ _ := rfl
  toLowercase _ _ := rfl

/-- The key whose second half is `n` and zeros. -/
def keyOf (n : UInt8) : basePointIds.Ed × basePointIds.X := (basePoint, n :: List.replicate 31 0)

def idOf (n : UInt8) : String := basePointBytes.encodeId (keyOf n)

theorem decodeId_idOf (n : UInt8) : basePointIds.decodeId (idOf n) = .ok (keyOf n) :=
  decodeId_encodeId lawful_basePointBytes rfl

theorem splitIdAndRelay_idOf (n : UInt8) : splitIdAndRelay (idOf n) = (idOf n, none) :=
  splitIdAndRelay_encodeId lawful_basePointBytes (keyOf n)

theorem keptAs_idOf (n : UInt8) : keptAs basePointIds (idOf n) = idOf n := by
  rw [keptAs, splitIdAndRelay_idOf]
  exact relayKey_encodeId lawful_basePointBytes (keyOf n)

theorem plainId_idOf (n : UInt8) : PlainId basePointIds (idOf n) := by
  intro key _
  rw [splitIdAndRelay_idOf, idOf, trim_encodeId lawful_basePointBytes]
  exact isAscii_encodeId lawful_basePointBytes (keyOf n)

/-- The first contact of a book. -/
theorem contactAdd_idOf (name : String) (n : UInt8) :
    Effect.Yields (contactAdd basePointIds name (idOf n)) ⟨{}, 1⟩ none
      ⟨{ contacts := (∅ : Map String).insert name (idOf n) }, 0⟩ := by
  have hkept := keptAs_idOf n
  rw [keptAs, splitIdAndRelay_idOf] at hkept
  simp only [contactAdd, splitIdAndRelay_idOf, decodeId_idOf, hkept]
  exact ⟨rfl, rfl⟩

theorem saved_idOf (name : String) (n : UInt8) :
    saved basePointIds {} (.add name (idOf n), 1) =
      { contacts := (∅ : Map String).insert name (idOf n) } := by
  rw [saved, Saving.run, after_discard, (contactAdd_idOf name n).2]

theorem result_idOf (name : String) (n : UInt8) :
    ((Saving.add name (idOf n)).run basePointIds).result ⟨{}, 1⟩ = .ok () := by
  rw [Saving.run]
  exact (yields_discard.2 ⟨none, contactAdd_idOf name n⟩).1

/-- With a blank before it, a name is not found. -/
theorem resolves_blank : (resolveRecipientWithRelay basePointIds
    { contacts := (∅ : Map String).insert " giulia" (idOf 9) } " giulia").isOk = false := by
  have hsplit : splitIdAndRelay " giulia" = ("giulia", none) := by decide +kernel
  have hbad : (basePointIds.decodeId "giulia").isOk = false := by decide +kernel
  rw [resolveRecipientWithRelay, show trim " giulia" = "giulia" by decide +kernel,
    ExtTreeMap.getElem?_insert, if_neg (by decide +kernel), ExtTreeMap.getElem?_empty]
  simp only [hsplit]
  cases hread : basePointIds.decodeId "giulia" with
  | ok key =>
      rw [hread] at hbad
      cases hbad
  | error e => rfl

theorem not_found_run : ¬ ∀ (t : IdText) (b : IdBytes t), b.Lawful → ∀ L, Canonical b L →
    ∀ es : List (Saving × ℕ), (∀ n, Canonical b ((es.take n).foldl (saved t) L)) ∧
      Along (saved t) (Found b) L es := by
  intro h
  have hrun := (h basePointIds basePointBytes lawful_basePointBytes {} canonical_empty
    [(.add " giulia" (idOf 9), 1)]).2
  have hfound := hrun.1 (result_idOf " giulia" 9)
  rw [saved_idOf] at hfound
  obtain ⟨key, -, hres, -⟩ := hfound
  have hbad := resolves_blank
  rw [hres] at hbad
  cases hbad

/-- A contact is saved, marked under its id, and moves. -/
def giuliaRun : List (Saving × ℕ) :=
  [(.add "giulia" (idOf 9), 2), (.mark .verified 600 (idOf 9), 1),
    (.listens (idOf 9) "https://relay.test/", 1)]

theorem plain_giuliaRun : Along (saved basePointIds) (Plain basePointIds) {} giuliaRun := by
  have hname : trim "giulia" = "giulia" := by decide +kernel
  refine ⟨⟨plainId_idOf 9, fun key hkey => ⟨hname, fun r hr => ?_⟩⟩,
    fun _ => plainId_idOf 9, ⟨?_, _, decodeId_idOf 9⟩, trivial⟩
  · rw [splitIdAndRelay_idOf] at hr
    cases hr
  · rw [idOf, trim_encodeId lawful_basePointBytes]
    exact isAscii_encodeId lawful_basePointBytes (keyOf 9)

theorem found_run_giulia : (∀ n, Canonical basePointBytes
      ((giuliaRun.take n).foldl (saved basePointIds) {})) ∧
    Along (saved basePointIds) (Found basePointBytes) {} giuliaRun :=
  found_run lawful_basePointBytes {} canonical_empty giuliaRun plain_giuliaRun

end Arvolo.Book
