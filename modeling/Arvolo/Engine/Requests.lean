import Arvolo.Book.Spelling

/-!
The requests of a front-end that edit the address book, as `daemon.rs` answers them, and the
contact that a pairing session saves (`pairing.rs`).

A request ends with an answer: an edit that fails is answered with its error.
-/

namespace Arvolo.Engine

open Lib Sync Book
open Std (ExtTreeMap)

inductive Response
  | ok
  | keyChanged (oldFingerprint newFingerprint : String)
  | error (text : String)

inductive Request
  | addContact (name id : String) (rebind : Bool)
  | removeContact (name : String)
  | renameContact (old new : String)
  | markVerified (name : String)
  | markUnverified (name : String)
  | markTrusted (who : String) (force : Bool)
  | markUntrusted (who : String)
  | block (who : String)
  | unblock (who : String)
  | acceptName (who : String)

/-- The answer to an edit. -/
def answer {α : Type} (m : BookM α) (f : α → Response) : BookM Response :=
  tryCatch (m >>= fun a => pure (f a)) fun e => pure (.error e)

section

variable {t : IdText} (b : IdBytes t)

/-- Save a contact, refusing a silent re-key. -/
def addContact (t : IdText) (name id : String) (rebind : Bool) : BookM Response :=
  load fun L =>
    let collides := L.contacts[name]?.any fun other => other != keptAs t id
    if collides && !rebind then
      return .error ("'" ++ name ++ "' is already someone else in your contacts — pick another " ++
        "name. Re-pointing it at this key would drop their verified and trusted marks.")
    else
      answer (contactAdd t name id) fun
        | some change => .keyChanged change.oldFingerprint change.newFingerprint
        | none => .ok

/-- The marks go first: they are found under the name. -/
def removeContact (t : IdText) (name : String) : BookM Response := do
  bestEffort (discard (unmarkVerified t name))
  bestEffort (discard (unmarkTrusted t name))
  answer (contactRemove t name) fun
    | true => .ok
    | false => .error ("no such contact '" ++ name ++ "'")

def markTrusted (markedNow : ℕ) (who : String) (force : Bool) : BookM Response :=
  load fun L =>
    match resolveRecipient t L who with
    | .error e => return .error e
    | .ok key =>
        let id := b.encodeId key
        if !L.verified.contains id && !force then
          let fp := (t.fingerprintOf id).getD ""
          return .error ("'" ++ who ++ "' isn't verified — trusting it would auto-download from " ++
            "a key you haven't confirmed out-of-band (MITM risk). Fingerprint: " ++ fp ++
            ". Verify first, or force.")
        else
          answer (Book.markTrusted t markedNow who) fun _ => .ok

def dispatch (markedNow : ℕ) : Request → BookM Response
  | .addContact name id rebind => addContact t name id rebind
  | .removeContact name => removeContact t name
  | .renameContact old new => answer (contactRename old new) fun _ => .ok
  | .markVerified name => answer (Book.markVerified t markedNow name) fun _ => .ok
  | .markUnverified name => answer (unmarkVerified t name) fun _ => .ok
  | .markTrusted who force => markTrusted b markedNow who force
  | .markUntrusted who => answer (unmarkTrusted t who) fun _ => .ok
  | .block who => answer (markBlocked t markedNow who) fun _ => .ok
  | .unblock who => answer (unmarkBlocked t who) fun _ => .ok
  | .acceptName who => answer (Book.acceptName t who) fun _ => .ok

end

/-! ### Pairing -/

section

variable (t : IdText)

/-- Two words of a fingerprint, or the first characters of an id without one. -/
def baseName (id : String) : String :=
  let words := ((t.fingerprintOf id).getD "").toList.splitOnP fun c => !c.isAlphanum
  let base := "-".intercalate (((words.filter fun w => !w.isEmpty).take 2).map String.ofList)
  if base.isEmpty then .ofList (id.toList.take 8) else base

/-- A name that is not taken. Of the numbers tried there is one more than there are contacts. -/
def uniqueNameFromFingerprint (L : Ledgers) (id : String) : String :=
  let base := baseName t id
  if base ∈ L.contacts then
    (((List.range' 2 (L.contacts.size + 1)).map fun n => base ++ "-" ++ toString n).find? fun c =>
      c ∉ L.contacts).getD base
  else base

def chosenName (L : Ledgers) (theirId : String) (name : Option String) : String :=
  match (name.map trim).filter fun n => !n.isEmpty with
  | some n => n
  | none => uniqueNameFromFingerprint t L theirId

/-- Save the id just traded for, and mark it verified. -/
def saveTheOtherSide (markedNow : ℕ) (theirId : String) (name theirRelay : Option String) :
    BookM String := do
  let theirId := trim theirId
  let _ ← context "the other side sent something that isn't a public id" (t.decodeId theirId)
  recordRelay t theirId theirRelay
  load fun L =>
    match resolveName L theirId with
    | some existing => do
        let _ ← markVerified t markedNow theirId
        return "'" ++ existing ++ "' è ora verificato — l'avevi già in rubrica."
    | none => do
        let name := chosenName t L theirId name
        let _ ← contactAdd t name theirId
        let _ ← markVerified t markedNow name
        let fp := (t.fingerprintOf theirId).getD ""
        return "Salvato '" ++ name ++ "' — verificato. Impronta: " ++ fp

variable {t}

/-- The name depends on the contacts only. -/
theorem chosenName_congr {L L' : Ledgers} (h : L.contacts = L'.contacts) (theirId : String)
    (name : Option String) : chosenName t L theirId name = chosenName t L' theirId name := by
  unfold chosenName uniqueNameFromFingerprint
  rw [h]

/-- Of more names than there are contacts one is free. -/
theorem exists_free (contacts : Map String) (base : String) :
    ∃ n ∈ List.range' 2 (contacts.size + 1), base ++ "-" ++ toString n ∉ contacts := by
  by_contra! hall
  let names := (List.range' 2 (contacts.size + 1)).map fun n => base ++ "-" ++ toString n
  have hnodup : names.Nodup := by
    refine List.Nodup.map (fun m n hmn => ?_) (List.nodup_range' 1)
    exact Nat.repr_inj.1 ((String.append_right_inj _).1 hmn)
  have hsub : names ⊆ contacts.keys := by
    intro name hname
    obtain ⟨n, hn, rfl⟩ := List.mem_map.1 hname
    exact ExtTreeMap.mem_keys.2 (hall n hn)
  have hle := (hnodup.subperm hsub).length_le
  rw [List.length_map, List.length_range', ExtTreeMap.length_keys] at hle
  omega

theorem notMem_uniqueNameFromFingerprint (L : Ledgers) (id : String) :
    uniqueNameFromFingerprint t L id ∉ L.contacts := by
  unfold uniqueNameFromFingerprint
  dsimp only
  split
  next htaken =>
    obtain ⟨n, hn, hfree⟩ := exists_free L.contacts (baseName t id)
    cases hfind : ((List.range' 2 (L.contacts.size + 1)).map fun n =>
        baseName t id ++ "-" ++ toString n).find? fun c => c ∉ L.contacts with
    | none =>
        have hnone := List.find?_eq_none.1 hfind _ (List.mem_map_of_mem hn)
        exact absurd (by simpa using hfree) hnone
    | some c => simpa using List.find?_some hfind
  next hfree => exact hfree

end

end Arvolo.Engine
