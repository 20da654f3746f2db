import Arvolo.Lib.Effect
import Arvolo.Sync.Slot

/-!
The edits of the address book: `contacts.rs`, `names.rs` and `relays.rs` of
`engine/src/book`.

An edit reads ledgers and saves ledgers, each file in one piece. A save may fail; the edit
ends there, and what was saved before stays.
-/

namespace Arvolo.Book

open Lib Sync

/-! ### Ids as text -/

/-- What the text form of a public id rests on: Unicode's case mappings, base32 and the two
curves. -/
structure IdText where
  Ed : Type
  X : Type
  toUppercase : String → String
  toLowercase : String → String
  base32 : String → Option (List UInt8)
  ed : List UInt8 → Option Ed
  torsionFree : Ed → Bool
  x : List UInt8 → Option X
  fingerprint : Ed × X → String

namespace IdText

variable (t : IdText)

/-- The length of either half of a public id. -/
def half : ℕ := 32

def fromBytes (bytes : List UInt8) : Except String (t.Ed × t.X) :=
  if bytes.length ≠ 2 * half then
    .error ("invalid public id: expected " ++ toString (2 * half) ++ " bytes, got " ++
      toString bytes.length)
  else
    match t.ed (bytes.take half) with
    | none => .error "invalid public id (signing half)"
    | some ed =>
        if !t.torsionFree ed then
          .error "invalid public id: signing half is outside the prime-order subgroup"
        else
          match t.x (bytes.drop half) with
          | none => .error "invalid public id (KEM half)"
          | some x => .ok (ed, x)

def decodeId (s : String) : Except String (t.Ed × t.X) :=
  match t.base32 (t.toUppercase (trim s)) with
  | none => .error "invalid public id (base32)"
  | some bytes => t.fromBytes bytes

def fingerprintOf (idB32 : String) : Option String :=
  match t.decodeId idB32 with
  | .ok id => some (t.fingerprint id)
  | .error _ => none

end IdText

/-- `str::split_once` -/
def splitOnce (c : Char) (s : String) : Option (String × String) :=
  if c ∈ s.toList then
    some (.ofList (s.toList.takeWhile (· ≠ c)), .ofList (s.toList.dropWhile (· ≠ c)).tail)
  else none

def normalizeRelay (raw : String) : String :=
  let r := trim raw
  if "://".toList <:+: r.toList then r else "https://" ++ r

def canonicalRelay (raw : String) : String :=
  .ofList ((normalizeRelay (trim raw)).toList.reverse.dropWhile (· = '/')).reverse

/-- Split `<id>@<relay>`. A trailing bare `@` gives no relay. -/
def splitIdAndRelay (s : String) : String × Option String :=
  match splitOnce '@' (trim s) with
  | some (id, relay) =>
      if (trim relay).isEmpty then (id, none) else (id, some (canonicalRelay relay))
  | none => (trim s, none)

/-! ### Loading and saving -/

/-- The ledgers, and how many saves will still succeed. -/
structure Disk where
  ledgers : Ledgers
  left : ℕ

abbrev BookM := Effect String Disk

def load {α : Type} (f : Ledgers → BookM α) : BookM α := get >>= fun disk => f disk.ledgers

/-- Replace ledgers; `context` is what the error says if that fails. -/
def save (context : String) (f : Ledgers → Ledgers) : BookM Unit :=
  get >>= fun disk =>
    match disk.left with
    | 0 => throw context
    | left + 1 => set (⟨f disk.ledgers, left⟩ : Disk)

def saveContacts (contacts : Map String) : BookM Unit :=
  save "write contacts" fun L => { L with contacts }

def saveVerified (verified : Map ℕ) : BookM Unit :=
  save "write verified" fun L => { L with verified }

def saveTrusted (trusted : Map ℕ) : BookM Unit :=
  save "write trusted" fun L => { L with trusted }

def saveNames (names : Map NameRow) : BookM Unit :=
  save "write names" fun L => { L with names }

def saveRelays (relays : Map String) : BookM Unit :=
  save "write relays" fun L => { L with relays }

/-- Save, where there is something to save. -/
def saveIf (changed : Bool) (m : BookM Unit) : BookM Unit := if changed then m else pure ()

/-- A save whose error is dropped. -/
def bestEffort (m : BookM Unit) : BookM Unit := tryCatch m fun _ => pure ()

/-- `anyhow`'s `context`: what an error then says. -/
def context {α : Type} (what : String) : Except String α → BookM α
  | .ok a => pure a
  | .error _ => throw what

/-! ### Relays -/

section

variable (t : IdText)

def relayKey (idB32 : String) : String := t.toLowercase (trim idB32)

def setRelay (idB32 relay : String) : BookM Unit :=
  let relay := canonicalRelay relay
  if relay.isEmpty then throw "empty relay"
  else load fun L => saveRelays (L.relays.insert (relayKey t idB32) relay)

def clearRelay (idB32 : String) : BookM Bool :=
  load fun L =>
    if L.relays.contains (relayKey t idB32) then do
      saveRelays (L.relays.erase (relayKey t idB32))
      return true
    else return false

/-! ### Advertised names -/

inductive NameStatus
  | none
  | new (name : String)
  | unchanged (name : String)
  | changed (old new : String)

/-- Record what a sender calls itself. Nothing is pinned here. -/
def observeAdvertisedName (idB32 advertised : String) : BookM NameStatus :=
  let advertised := trim advertised
  if advertised.isEmpty then return .none
  else load fun L => do
    let found := L.names[idB32]?.getD {}
    let firstClaim := found.first.isEmpty
    let row := if firstClaim then { found with first := advertised } else found
    let record (moved : Bool) (row : NameRow) : BookM Unit :=
      saveIf (moved || firstClaim) (bestEffort (saveNames (L.names.insert idB32 row)))
    if row.pinned.isEmpty then
      let moved := row.pending != some advertised
      record moved { row with pending := some advertised }
      return .new advertised
    else if row.pinned == advertised then
      record row.pending.isSome { row with pending := Option.none }
      return .unchanged advertised
    else
      let moved := row.pending != some advertised
      record moved { row with pending := some advertised }
      return .changed row.pinned advertised

/-- A contact's name, or an id in base32. -/
def resolveRecipientId (who : String) : BookM String :=
  load fun L =>
    match L.contacts[trim who]? with
    | some id => return id
    | none => do
        let (id, _) := splitIdAndRelay who
        let _ ← context "not a known contact name or a valid public id" (t.decodeId id)
        return t.toLowercase (trim id)

def acceptName (who : String) : BookM String := do
  let idB32 ← resolveRecipientId t who
  load fun L =>
    match L.names[idB32]? with
    | some { pinned := _, pending := some approved, first } => do
        saveNames (L.names.insert idB32 { pinned := approved, pending := none, first })
        return approved
    | _ => throw ("no pending name to approve for '" ++ who ++ "'")

/-! ### Contacts -/

structure KeyChange where
  oldFingerprint : String
  newFingerprint : String

/-- The marks and the relay of a key that is replaced. -/
def dropOldKey (oldId newId : String) : BookM KeyChange := do
  load fun L => saveIf (L.verified.contains oldId) (saveVerified (L.verified.erase oldId))
  load fun L => saveIf (L.trusted.contains oldId) (saveTrusted (L.trusted.erase oldId))
  let _ ← clearRelay t oldId
  return { oldFingerprint := (t.fingerprintOf oldId).getD ""
           newFingerprint := (t.fingerprintOf newId).getD "" }

/-- What has to go if the name stood for another key. -/
def replaceKey (newId : String) : Option String → BookM (Option KeyChange)
  | some oldId => if oldId ≠ newId then some <$> dropOldKey t oldId newId else pure none
  | none => pure none

def recordRelay (newId : String) : Option String → BookM Unit
  | some relay => setRelay t newId relay
  | none => pure ()

def contactAdd (name id : String) : BookM (Option KeyChange) := do
  let (id, relay) := splitIdAndRelay id
  let _ ← context "invalid public id" (t.decodeId id)
  let newId := t.toLowercase (trim id)
  load fun L => do
    let keyChange ← replaceKey t newId L.contacts[name]?
    saveContacts (L.contacts.insert name newId)
    recordRelay t newId relay
    return keyChange

/-- Drop what a removed contact's name row said, keeping how the key introduced itself. -/
def forgetNameRow (idB32 : String) : BookM Unit :=
  load fun L =>
    match L.names[idB32]? with
    | none => pure ()
    | some row =>
        if row.first.isEmpty then saveNames (L.names.erase idB32)
        else saveNames (L.names.insert idB32 { first := row.first })

def contactRemove (name : String) : BookM Bool :=
  load fun L =>
    match L.contacts[name]? with
    | none => return false
    | some id => do
        let contacts := L.contacts.erase name
        saveContacts contacts
        if contacts.values.contains id then return true
        else
          forgetNameRow id
          let _ ← clearRelay t id
          return true

def contactRename (old new : String) : BookM Unit :=
  load fun L =>
    if L.contacts.contains new then
      throw ("'" ++ new ++ "' is already a contact — pick another name, or remove that one first")
    else
      match L.contacts[old]? with
      | none => throw ("no such contact '" ++ old ++ "'")
      | some id => saveContacts ((L.contacts.erase old).insert new id)

/-- Drop the rows that no contact points at and that carry no first claim. -/
def pruneOrphanNames : BookM ℕ :=
  load fun L => do
    let kept := (Sync.pruneOrphanNames L).names
    let removed := L.names.size - kept.size
    saveIf (removed > 0) (saveNames kept)
    return removed

end

end Arvolo.Book
