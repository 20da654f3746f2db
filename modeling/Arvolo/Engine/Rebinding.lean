import Arvolo.Engine.Requests

/-!
Names and marks over a run of requests and pairing sessions.

A name that stands for a key goes on standing for it until a request takes the name away or
binds it anew, and a mark goes only with a request that means its identity. The exception is
a pairing session that was given a name somebody else has.
-/

namespace Arvolo.Engine

open Lib Sync Book
open Std (ExtTreeMap)

inductive Doing
  | request (r : Request)
  /-- A pairing session, hosted or joined, saves the other side. -/
  | pair (theirId : String) (name theirRelay : Option String)

structure Turn where
  doing : Doing
  markedNow : ℕ
  /-- How many saves will succeed. -/
  left : ℕ

section

variable {t : IdText} (b : IdBytes t)

def Turn.run (turn : Turn) : BookM Unit :=
  match turn.doing with
  | .request r => discard (dispatch b turn.markedNow r)
  | .pair theirId name theirRelay =>
      discard (saveTheOtherSide t turn.markedNow theirId name theirRelay)

def turned (L : Ledgers) (turn : Turn) : Ledgers := ((turn.run b).after ⟨L, turn.left⟩).ledgers

/-- The name is bound anew on purpose, or taken away. -/
def Released : Doing → String → Prop
  | .request (.addContact name _ rebind), n => rebind = true ∧ n = name
  | .request (.removeContact name), n => n = name
  | .request (.renameContact old _), n => n = old
  | _, _ => False

/-- A contact's name means the contact, any other word the id it is the text of. -/
def Means (t : IdText) (L : Ledgers) (who id : String) : Prop :=
  L.contacts[trim who]? = some id ∨ L.contacts[trim who]? = none ∧ id = keptAs t who

/-- The request speaks of the identity. -/
def Spoken (t : IdText) (L : Ledgers) : Doing → String → Prop
  | .request (.addContact name _ rebind), id => rebind = true ∧ L.contacts[name]? = some id
  | .request (.removeContact name), id
  | .request (.markUnverified name), id
  | .request (.markUntrusted name), id => Means t L name id
  | _, _ => False

/-- A new key is not given a name that somebody else has. -/
def Fresh (t : IdText) (L : Ledgers) (turn : Turn) : Prop :=
  match turn.doing with
  | .request _ => True
  | .pair theirId name _ => resolveName L (trim theirId) = none →
      ∀ id, L.contacts[chosenName t L (trim theirId) name]? = some id → id = keptAs t (trim theirId)

/-- The names that are not released stand for what they stood for, and the identities that are
not spoken of have the marks they had. -/
structure Kept (released spoken : String → Prop) (L L' : Ledgers) : Prop where
  name : ∀ name id, ¬ released name → L.contacts[name]? = some id → L'.contacts[name]? = some id
  verified : ∀ id, ¬ spoken id → id ∈ L.verified → id ∈ L'.verified
  trusted : ∀ id, ¬ spoken id → id ∈ L.trusted → id ∈ L'.trusted

end

section

variable {t : IdText} {b : IdBytes t} {released spoken : String → Prop}

instance : Std.Refl (Kept released spoken) where
  refl _ := ⟨fun _ _ _ h => h, fun _ _ h => h, fun _ _ h => h⟩

instance : IsTrans Ledgers (Kept released spoken) where
  trans _ _ _ hab hbc := {
    name := fun name id hn h => hbc.name name id hn (hab.name name id hn h)
    verified := fun id hs h => hbc.verified id hs (hab.verified id hs h)
    trusted := fun id hs h => hbc.trusted id hs (hab.trusted id hs h) }

theorem means_of_result {who id : String} {disk : Disk}
    (h : (resolveRecipientId t who).result disk = .ok id) : Means t disk.ledgers who id := by
  obtain ⟨-, hfound | ⟨hnone, rfl, -⟩⟩ := resolveRecipientId_yields (t := t)
    ⟨h, after_resolveRecipientId who disk⟩
  · exact .inl hfound
  · exact .inr ⟨hnone, rfl⟩

@[simp] theorem after_answer {α : Type} (m : BookM α) (f : α → Response) (disk : Disk) :
    (answer m f).after disk = m.after disk := by
  rw [answer, Effect.after_tryCatch, Effect.result_bind, Effect.after_bind]
  split <;> split <;> simp_all

/-- A ledger of marks that has more in it. -/
theorem kept_insert {L : Ledgers} (id : String) (now : ℕ) :
    Kept released spoken L { L with verified := L.verified.insert id now } ∧
      Kept released spoken L { L with trusted := L.trusted.insert id now } := by
  have hmem {m : Map ℕ} {id' : String} (h : id' ∈ m) : id' ∈ m.insert id now :=
    ExtTreeMap.mem_insert.2 (.inr h)
  exact ⟨⟨fun _ _ _ h => h, fun _ _ h => hmem h, fun _ _ h => h⟩,
    ⟨fun _ _ _ h => h, fun _ _ h => h, fun _ _ h => hmem h⟩⟩

theorem kept_erase {L : Ledgers} {id : String} (hid : spoken id) :
    Kept released spoken L { L with verified := L.verified.erase id } ∧
      Kept released spoken L { L with trusted := L.trusted.erase id } := by
  have hmem {m : Map ℕ} {id' : String} (hs : ¬ spoken id') (h : id' ∈ m) : id' ∈ m.erase id := by
    refine ExtTreeMap.mem_erase.2 ⟨fun heq => ?_, h⟩
    obtain rfl := compare_eq_iff_eq.1 heq
    exact hs hid
  exact ⟨⟨fun _ _ _ h => h, fun _ hs h => hmem hs h, fun _ _ h => h⟩,
    ⟨fun _ _ _ h => h, fun _ _ h => h, fun _ hs h => hmem hs h⟩⟩

/-- Other ledgers do not matter. -/
theorem kept_rest (L : Ledgers) : (∀ names, Kept released spoken L { L with names }) ∧
    (∀ relays, Kept released spoken L { L with relays }) ∧
      ∀ blocked, Kept released spoken L { L with blocked } :=
  ⟨fun _ => ⟨fun _ _ _ h => h, fun _ _ h => h, fun _ _ h => h⟩,
    fun _ => ⟨fun _ _ _ h => h, fun _ _ h => h, fun _ _ h => h⟩,
    fun _ => ⟨fun _ _ _ h => h, fun _ _ h => h, fun _ _ h => h⟩⟩

/-- Saving a contact under a name that is free, or that stands for the same id, or is released. -/
theorem kept_contactAdd {disk : Disk} {name text : String}
    (h : ∀ id, disk.ledgers.contacts[name]? = some id → id ≠ keptAs t text →
      released name ∧ spoken id) :
    On (Kept released spoken) disk ((contactAdd t name text).after disk) := by
  refine on_contactAdd (fun old hold hne => ?_) (fun _ _ L hL => ?_) fun _ _ r _ L =>
    (kept_rest L).2.1 _
  · have hspoken := (h old hold hne).2
    exact keepsOn_dropOldKey (fun L => (kept_erase hspoken).1) (fun L => (kept_erase hspoken).2)
      fun L => (kept_rest L).2.1 _
  · refine ⟨fun name' id hn hid => ?_, fun _ _ h => h, fun _ _ h => h⟩
    rw [hL] at hid
    rw [ExtTreeMap.getElem?_insert]
    split
    next heq =>
      obtain rfl := compare_eq_iff_eq.1 heq
      by_contra hne
      exact hn (h id hid fun hsame => hne (by rw [hsame])).1
    next => exact hid

/-- Marks come off under a word. -/
theorem kept_unmark {disk : Disk} {who : String}
    (h : ∀ id, Means t disk.ledgers who id → spoken id) :
    On (Kept released spoken) disk ((unmarkVerified t who).after disk) ∧
      On (Kept released spoken) disk ((unmarkTrusted t who).after disk) :=
  ⟨on_unmark fun id hid => on_save (kept_erase (h id (means_of_result hid))).1 _,
    on_unmark fun id hid => on_save (kept_erase (h id (means_of_result hid))).2 _⟩

theorem kept_mark {disk : Disk} {now : ℕ} {who : String} :
    On (Kept released spoken) disk ((Book.markVerified t now who).after disk) ∧
      On (Kept released spoken) disk ((Book.markTrusted t now who).after disk) :=
  ⟨on_mark fun id _ => on_save (kept_insert id now).1 _,
    on_mark fun id _ => on_save (kept_insert id now).2 _⟩

/-- Unmarking leaves the names alone. -/
theorem contacts_unmark {who : String} {disk : Disk} :
    ((unmarkVerified t who).after disk).ledgers.contacts = disk.ledgers.contacts ∧
      ((unmarkTrusted t who).after disk).ledgers.contacts = disk.ledgers.contacts := by
  let Q (a b : Ledgers) : Prop := b.contacts = a.contacts
  have hrefl : Std.Refl Q := ⟨fun _ => rfl⟩
  have htrans : IsTrans Ledgers Q := ⟨fun _ _ _ hab hbc => hbc.trans hab⟩
  exact ⟨on_unmark (Q := Q) fun _ _ => on_save rfl _, on_unmark (Q := Q) fun _ _ => on_save rfl _⟩

theorem kept_removeContact {disk : Disk} {name : String} (hname : released name)
    (h : ∀ id, Means t disk.ledgers name id → spoken id) :
    On (Kept released spoken) disk ((removeContact t name).after disk) := by
  refine on_bind ?_ fun _ _ => on_bind ?_ fun _ _ => ?_
  · rw [after_bestEffort, after_discard]
    exact (kept_unmark h).1
  · simp only [after_bestEffort, after_discard]
    refine (kept_unmark fun id hid => h id ?_).2
    rwa [Means, contacts_unmark.1] at hid
  · rw [after_answer]
    refine on_contactRemove ?_ (fun L => (kept_rest L).1) fun L => (kept_rest L).2.1
    refine ⟨fun name' id hn hid => ?_, fun _ _ h => h, fun _ _ h => h⟩
    have hne : name ≠ name' := by
      rintro rfl
      exact hn hname
    simpa [ExtTreeMap.getElem?_erase, hne] using hid

theorem kept_saveTheOtherSide {disk : Disk} {now : ℕ} {theirId : String}
    {name theirRelay : Option String} (h : resolveName disk.ledgers (trim theirId) = none →
      ∀ id, disk.ledgers.contacts[chosenName t disk.ledgers (trim theirId) name]? = some id →
        id = keptAs t (trim theirId)) :
    On (Kept released spoken) disk
      ((saveTheOtherSide t now theirId name theirRelay).after disk) := by
  have hmark (disk : Disk) (who : String) :
      On (Kept released spoken) disk ((Book.markVerified t now who).after disk) := kept_mark.1
  have hrelay : Keeps (On (Kept released spoken)) (recordRelay t (trim theirId) theirRelay) :=
    keepsOn_recordRelay fun _ _ L => (kept_rest L).2.1 _
  -- what is read of the book after the relay is recorded is what it said before
  let Q (a b : Ledgers) : Prop := b.contacts = a.contacts
  have hQ : Std.Refl Q := ⟨fun _ => rfl⟩
  have hsame : On Q disk ((recordRelay t (trim theirId) theirRelay).after disk) :=
    keepsOn_recordRelay (Q := Q) (fun _ _ _ => rfl) disk
  rw [saveTheOtherSide]
  dsimp only
  refine on_bind (by rw [after_context]; exact refl_of (On (Kept released spoken)) disk)
    fun key _ => ?_
  rw [after_context]
  refine on_bind (hrelay disk) fun _ _ => ?_
  generalize (recordRelay t (trim theirId) theirRelay).after disk = mid at hsame
  have hcontacts : mid.ledgers.contacts = disk.ledgers.contacts := hsame
  have hadd (hnone : resolveName disk.ledgers (trim theirId) = none) : On (Kept released spoken) mid
      ((contactAdd t (chosenName t mid.ledgers (trim theirId) name) (trim theirId)).after mid) := by
    refine kept_contactAdd fun id hid hne => absurd ?_ hne
    rw [hcontacts, chosenName_congr hcontacts] at hid
    exact h hnone id hid
  rw [load, Effect.after_get_bind]
  split
  · exact on_bind (hmark mid _) fun _ _ => on_pure _ _
  next hnone =>
    rw [resolveName, hcontacts] at hnone
    exact on_bind (hadd hnone) fun _ _ => on_bind (hmark _ _) fun _ _ => on_pure _ _

theorem kept_addContact {disk : Disk} {name id : String} {rebind : Bool}
    (h : rebind = true → released name ∧ ∀ old, disk.ledgers.contacts[name]? = some old →
      spoken old) :
    On (Kept released spoken) disk ((addContact t name id rebind).after disk) := by
  rw [addContact, load, Effect.after_get_bind]
  dsimp only
  split
  · exact refl_of (On (Kept released spoken)) disk
  next hno =>
    rw [after_answer]
    refine kept_contactAdd fun old hold hne => ?_
    have hrebind : rebind = true := by simpa [hold, hne] using hno
    exact ⟨(h hrebind).1, (h hrebind).2 old hold⟩

theorem kept_markTrusted {disk : Disk} {now : ℕ} {who : String} {force : Bool} :
    On (Kept released spoken) disk ((markTrusted b now who force).after disk) := by
  rw [markTrusted, load, Effect.after_get_bind]
  split
  · exact refl_of (On (Kept released spoken)) disk
  · dsimp only
    split
    · exact refl_of (On (Kept released spoken)) disk
    · rw [after_answer]
      exact kept_mark.2

theorem kept_dispatch (disk : Disk) (now : ℕ) (r : Request) :
    On (Kept (Released (.request r)) (Spoken t disk.ledgers (.request r))) disk
      ((dispatch b now r).after disk) := by
  cases r with
  | addContact name id rebind =>
      exact kept_addContact fun hrebind => ⟨⟨hrebind, rfl⟩, fun old hold => ⟨hrebind, hold⟩⟩
  | removeContact name => exact kept_removeContact rfl fun _ hid => hid
  | renameContact old new =>
      rw [dispatch, after_answer]
      refine on_contactRename fun id hnew hold => ⟨fun name' id' hn hid => ?_, fun _ _ h => h,
        fun _ _ h => h⟩
      have hold' : old ≠ name' := fun heq => hn heq.symm
      have hnew' : new ≠ name' := by
        rintro rfl
        exact hnew (ExtTreeMap.mem_iff_isSome_getElem?.2 (by simp [hid]))
      simpa [ExtTreeMap.getElem?_insert, ExtTreeMap.getElem?_erase, hold', hnew'] using hid
  | markVerified name =>
      rw [dispatch, after_answer]
      exact kept_mark.1
  | markUnverified name =>
      rw [dispatch, after_answer]
      exact (kept_unmark fun _ hid => hid).1
  | markTrusted who force => exact kept_markTrusted
  | markUntrusted who =>
      rw [dispatch, after_answer]
      exact (kept_unmark fun _ hid => hid).2
  | block who =>
      rw [dispatch, after_answer]
      exact on_mark fun _ _ => on_save ((kept_rest _).2.2 _) _
  | unblock who =>
      rw [dispatch, after_answer]
      exact on_unmark fun _ _ => on_save ((kept_rest _).2.2 _) _
  | acceptName who =>
      rw [dispatch, after_answer]
      exact on_acceptName fun _ _ _ _ _ _ => (kept_rest _).1 _

/-- One turn keeps the names that are not released and the marks that are not spoken of. -/
theorem kept_turned {L : Ledgers} {turn : Turn} (h : Fresh t L turn) :
    Kept (Released turn.doing) (Spoken t L turn.doing) L (turned b L turn) := by
  obtain ⟨doing, now, left⟩ := turn
  rw [turned, Turn.run]
  cases doing with
  | request r =>
      rw [after_discard]
      exact kept_dispatch ⟨L, left⟩ now r
  | pair theirId name theirRelay =>
      rw [after_discard]
      have hkept : On (Kept (Released (.pair theirId name theirRelay))
          (Spoken t L (.pair theirId name theirRelay))) ⟨L, left⟩
          ((saveTheOtherSide t now theirId name theirRelay).after ⟨L, left⟩) :=
        kept_saveTheOtherSide h
      exact hkept

variable (b) in
/-- Of a name that came to stand for another key, a turn in between took it away or bound it
anew. -/
def NoSilentRekey (L : Ledgers) (turns : List Turn) : Prop :=
  ∀ i j name id id', i ≤ j → ((turns.take i).foldl (turned b) L).contacts[name]? = some id →
    ((turns.take j).foldl (turned b) L).contacts[name]? = some id' → id ≠ id' →
      ∃ m turn, i ≤ m ∧ m < j ∧ turns[m]? = some turn ∧ Released turn.doing name

variable (b) in
/-- A mark goes with a turn that speaks of its identity. -/
def MarksSpokenOf (L : Ledgers) (turns : List Turn) : Prop :=
  ∀ m turn id, turns[m]? = some turn →
    let before := (turns.take m).foldl (turned b) L
    let after := (turns.take (m + 1)).foldl (turned b) L
    (id ∈ before.verified ∧ id ∉ after.verified ∨ id ∈ before.trusted ∧ id ∉ after.trusted) →
      Spoken t before turn.doing id

theorem noSilentRekey_run (L : Ledgers) (turns : List Turn) (h : Along (turned b) (Fresh t) L turns) :
    NoSilentRekey b L turns ∧ MarksSpokenOf b L turns := by
  constructor
  · intro i j name id id' hij hi hj hne
    by_contra! hkept
    have hstill : ((turns.take j).foldl (turned b) L).contacts[name]? = some id := by
      refine foldl_take_inv (I := fun L : Ledgers => L.contacts[name]? = some id) hij hi
        fun m turn him hmj hturn hm => ?_
      exact (kept_turned (h.of_getElem? hturn)).name name id (hkept m turn him hmj hturn) hm
    exact hne (Option.some.inj (hstill.symm.trans hj))
  · intro m turn id hturn before after hlost
    have hkept := kept_turned (b := b) (h.of_getElem? hturn)
    by_contra hnot
    have hafter : after = turned b before turn := foldl_take_succ hturn L
    rw [hafter] at hlost
    rcases hlost with ⟨hin, hout⟩ | ⟨hin, hout⟩
    · exact hout (hkept.verified id hnot hin)
    · exact hout (hkept.trusted id hnot hin)

/-- One turn that binds a name anew without saying so. -/
theorem not_noSilentRekey {L : Ledgers} {turn : Turn} {name id id' : String}
    (hid : L.contacts[name]? = some id) (hid' : (turned b L turn).contacts[name]? = some id')
    (hne : id ≠ id') (hkept : ¬ Released turn.doing name) : ¬ NoSilentRekey b L [turn] := by
  intro h
  obtain ⟨m, turn', -, hlt, hturn, hreleased⟩ := h 0 1 name id id' (by decide) hid hid' hne
  obtain rfl : m = 0 := by omega
  obtain rfl := Option.some.inj hturn
  exact hkept hreleased

end

/-! ### A session that is given a name that is taken -/

section

variable {t : IdText} {name old id : String} {key : t.Ed × t.X}

theorem resolveName_single (hne : old ≠ id) :
    resolveName { contacts := (∅ : Map String).insert name old } id = none := by
  rw [resolveName, Option.map_eq_none_iff, List.find?_eq_none]
  rintro ⟨name', id'⟩ hrow
  rw [ExtTreeMap.mem_toList_iff_getElem?_eq_some, ExtTreeMap.getElem?_insert] at hrow
  split at hrow
  · obtain rfl := Option.some.inj hrow
    simpa using hne
  · simp at hrow

variable (hsplit : splitIdAndRelay id = (id, none)) (hkey : t.decodeId id = .ok key)
  (hkept : t.toLowercase (trim id) = id) (hne : old ≠ id)

include hsplit hkey hkept hne

theorem contactAdd_single : ∃ change, Effect.Yields (contactAdd t name id)
    ⟨{ contacts := (∅ : Map String).insert name old }, 2⟩ change
    ⟨{ contacts := ((∅ : Map String).insert name old).insert name id }, 1⟩ := by
  have hheld : ((∅ : Map String).insert name old)[name]? = some old := by simp
  have hreplace : ∃ change, Effect.Yields
      (replaceKey t id ((∅ : Map String).insert name old)[name]?)
      ⟨{ contacts := (∅ : Map String).insert name old }, 2⟩ change
      ⟨{ contacts := (∅ : Map String).insert name old }, 2⟩ := by
    rw [hheld, replaceKey, if_pos hne]
    exact ⟨_, rfl, rfl⟩
  obtain ⟨change, hreplace⟩ := hreplace
  simp only [contactAdd, hsplit, hkey, hkept]
  refine ⟨change, Effect.yields_bind_iff.2 ⟨key, _, yields_context.2 ⟨rfl, rfl⟩, ?_⟩⟩
  exact yields_load.2 (Effect.yields_bind_iff.2 ⟨change, _, hreplace, rfl, rfl⟩)

/-- The name a session was given comes to stand for the new key, whoever had it. -/
theorem contacts_saveTheOtherSide (now : ℕ) (htrim : trim id = id) (hname : trim name = name)
    (hfull : name.isEmpty = false) : ((saveTheOtherSide t now id (some name) none).after
      ⟨{ contacts := (∅ : Map String).insert name old }, 2⟩).ledgers.contacts[name]? = some id := by
  have hchosen (L : Ledgers) : chosenName t L id (some name) = name := by
    rw [chosenName, Option.map_some, hname, Option.filter_some, hfull]
    rfl
  obtain ⟨change, hadd⟩ := contactAdd_single hsplit hkey hkept hne
  let Q (a b : Ledgers) : Prop := b.contacts = a.contacts
  have hrefl : Std.Refl Q := ⟨fun _ => rfl⟩
  have htrans : IsTrans Ledgers Q := ⟨fun _ _ _ hab hbc => hbc.trans hab⟩
  have hsaved : On Q ⟨{ contacts := ((∅ : Map String).insert name old).insert name id }, 1⟩
      ((saveTheOtherSide t now id (some name) none).after
        ⟨{ contacts := (∅ : Map String).insert name old }, 2⟩) := by
    have hrelay (disk : Disk) : Effect.Yields (recordRelay t id none) disk () disk := ⟨rfl, rfl⟩
    simp only [saveTheOtherSide, htrim, hkey]
    rw [Effect.Yields.after_bind (yields_context.2 ⟨rfl, rfl⟩), (hrelay _).after_bind, load,
      Effect.after_get_bind, resolveName_single hne, hchosen]
    dsimp only
    rw [hadd.after_bind]
    exact on_bind (on_mark fun _ _ => on_save rfl _) fun _ _ => on_pure _ _
  rw [hsaved]
  simp

end

theorem idOf_ne : idOf 9 ≠ idOf 10 := by
  intro h
  have hkeys := congrArg basePointIds.decodeId h
  rw [decodeId_idOf, decodeId_idOf, Except.ok.injEq] at hkeys
  exact absurd (congrArg (fun key => key.2.head?) hkeys) (by decide)

def giulia : Ledgers := { contacts := (∅ : Map String).insert "giulia" (idOf 9) }

def pairAsGiulia : Turn :=
  { doing := .pair (idOf 10) (some "giulia") none, markedNow := 600, left := 2 }

theorem rekeyed : (turned basePointBytes giulia pairAsGiulia).contacts["giulia"]? =
    some (idOf 10) := by
  rw [turned, Turn.run, pairAsGiulia, after_discard]
  exact contacts_saveTheOtherSide (splitIdAndRelay_idOf 10) (decodeId_idOf 10)
    (relayKey_encodeId lawful_basePointBytes _) idOf_ne 600
    (trim_encodeId lawful_basePointBytes _) (by decide +kernel) (by decide +kernel)

theorem not_noSilentRekey_run : ¬ ∀ (t : IdText) (b : IdBytes t) (L : Ledgers) (turns : List Turn),
    NoSilentRekey b L turns ∧ MarksSpokenOf b L turns := by
  intro h
  have hheld : giulia.contacts["giulia"]? = some (idOf 9) := by simp [giulia]
  exact not_noSilentRekey hheld rekeyed idOf_ne (fun hreleased => hreleased)
    (h basePointIds basePointBytes giulia [pairAsGiulia]).1

/-- With a name of its own, the other side takes nobody's. -/
theorem noSilentRekey_run_bob : NoSilentRekey basePointBytes giulia
      [{ pairAsGiulia with doing := .pair (idOf 10) (some "bob") none }] ∧
    MarksSpokenOf basePointBytes giulia
      [{ pairAsGiulia with doing := .pair (idOf 10) (some "bob") none }] := by
  refine noSilentRekey_run giulia _ ⟨fun _ id hid => ?_, trivial⟩
  have hname : trim "bob" = "bob" := by decide +kernel
  have hchosen : chosenName basePointIds giulia (trim (idOf 10)) (some "bob") = "bob" := by
    rw [chosenName, Option.map_some, hname]
    rfl
  rw [hchosen] at hid
  simp [giulia] at hid

end Arvolo.Engine
