import Arvolo.Lib.Machine
import Arvolo.Recv.Names

/-!
Receives into one place at a time, whose names the senders chose.

A receive looks for a name that is free, or that has a sidecar, which it takes for that of its own
partial (`collision_free` of `core/src/flow/recv.rs`); the file is opened later. An accepted offer
does not look: `accept_offer_with_password` (`core/src/manager/mod.rs`) hands the name on as if the
user had chosen it. What a receive does to its file and to those beside it (the sidecar, the ticket
record and the stages) may come in any order and between the steps of others. A file is known by a
number of its own, which it keeps as long as it is there.

Where a directory has the name of an accepted offer, the receive is one into that directory, and
an archive is unpacked under names of its own; neither is one of these.
-/

namespace Arvolo.Recv

open Crypto Lib

/-- A receive as it is asked for. -/
structure Asked where
  /-- What its ticket is for. -/
  ticket : String
  /-- Fetched in one go from a mailbox. -/
  mailbox : Bool
  accepted : Bool
  /-- The name that was derived, and its directory. -/
  path : Path
  deriving DecidableEq

def Path.beside (p : Path) (suffix : String) : Path := { p with name := p.name ++ suffix }

/-- The suffixes of the files that a download keeps beside its output. -/
def SideSuffix (u : String) : Prop :=
  u = sidecarSuffix ∨ u = ticketSuffix ∨ partInfix.toList <+: u.toList

instance (u : String) : Decidable (SideSuffix u) := inferInstanceAs (Decidable (_ ∨ _ ∨ _))

/-- The files of a receive whose output is at `p`. -/
def Asked.Beside (a : Asked) (p x : Path) : Prop :=
  x = p ∨ (a.mailbox = false ∧ ∃ u, SideSuffix u ∧ x = p.beside u)

/-- An unfinished receive. -/
structure Taking where
  asked : Asked
  /-- The files of lower numbers were there before it began, and which were partials of its ticket. -/
  began : ℕ
  mine : ℕ → Bool
  path : Option Path := none
  fd : Option ℕ := none

def Taking.Touches (t : Taking) (x : Path) : Prop := ∃ p, t.path = some p ∧ t.asked.Beside p x

structure Folder where
  files : Path → Option ℕ
  data : ℕ → Bytes
  next : ℕ
  /-- The ticket that a file is a partial of. -/
  partialOf : ℕ → Option String
  taking : ℕ → Option Taking

inductive FolderEvent
  | begin (r : ℕ) (a : Asked)
  | derive (r : ℕ)
  | open_ (r : ℕ)
  | write (r : ℕ) (bytes : Bytes)
  /-- It writes a file beside its output. -/
  | keep (r : ℕ) (suffix : String) (bytes : Bytes)
  | drop (r : ℕ) (suffix : String)
  | finish (r : ℕ)
  /-- It pauses or fails, and may be opened again. -/
  | stop (r : ℕ)
  | discard (r : ℕ)

def FolderEvent.who : FolderEvent → ℕ
  | .begin r _ => r
  | .derive r => r
  | .open_ r => r
  | .write r _ => r
  | .keep r _ _ => r
  | .drop r _ => r
  | .finish r => r
  | .stop r => r
  | .discard r => r

namespace Folder

variable (s : Folder)

/-- The contents, as the search for a name sees them. -/
def world : World := ⟨fun x => (s.files x).map s.data, fun _ => none⟩

def create (x : Path) (bytes : Bytes) (ticket : String) : Folder :=
  { s with
    files := Function.update s.files x (some s.next)
    data := Function.update s.data s.next bytes
    next := s.next + 1
    partialOf := Function.update s.partialOf s.next (some ticket) }

/-- Write a file, which is made if it is not there. -/
def put (x : Path) (bytes : Bytes) (ticket : String) : Folder :=
  match s.files x with
  | some id => { s with data := Function.update s.data id bytes }
  | none => s.create x bytes ticket

def unlink (x : Path) : Folder := { s with files := Function.update s.files x none }

def set (r : ℕ) (t : Option Taking) : Folder := { s with taking := Function.update s.taking r t }

/-- An event of the receive `t`, which is number `r`. -/
def act (t : Taking) : FolderEvent → Folder
  | .begin _ _ => s
  | .derive r =>
      match t.path with
      | some _ => s
      | none =>
          let path :=
            if t.asked.accepted then some t.asked.path else s.world.collisionFree t.asked.path
          s.set r (some { t with path })
  | .open_ r =>
      match t.path, t.fd with
      | some p, none =>
          -- a mailbox fetch truncates, a download does not
          let s := if t.asked.mailbox ∨ s.files p = none then s.put p [] t.asked.ticket else s
          s.set r (some { t with fd := s.files p })
      | _, _ => s
  | .write _ bytes =>
      match t.fd with
      | some id => { s with data := Function.update s.data id bytes }
      | none => s
  | .keep _ suffix bytes =>
      match t.path, t.fd with
      | some p, some _ =>
          if t.asked.mailbox = false ∧ SideSuffix suffix then
            s.put (p.beside suffix) bytes t.asked.ticket
          else s
      | _, _ => s
  | .drop _ suffix =>
      match t.path with
      | some p =>
          if t.asked.mailbox = false ∧ SideSuffix suffix then s.unlink (p.beside suffix) else s
      | none => s
  | .finish r =>
      match t.fd with
      | some id => { s with partialOf := Function.update s.partialOf id none }.set r none
      | none => s
  | .stop r =>
      match t.fd with
      | some _ => s.set r (some { t with fd := none })
      | none => s.set r none
  | .discard r =>
      match t.path with
      | some p => (s.unlink p).set r none
      | none => s.set r none

def step (s : Folder) (e : FolderEvent) : Folder :=
  match s.taking e.who, e with
  | none, .begin r a =>
      s.set r (some { asked := a, began := s.next, mine := fun id => s.partialOf id = some a.ticket })
  | none, _ => s
  | some t, e => s.act t e

/-- A receive leaves every file that was there before it began and is no partial of its ticket. -/
def Spares (s : Folder) (e : FolderEvent) : Prop :=
  ∀ t, s.taking e.who = some t → ∀ x id, s.files x = some id → id < t.began → t.mine id = false →
    (s.step e).files x = some id ∧ (s.step e).data id = s.data id

/-- Unfinished receives for different tickets have no file in common. -/
def Apart : Prop := ∀ r r' t t', s.taking r = some t → s.taking r' = some t' →
  t.asked.ticket ≠ t'.asked.ticket → ∀ x, t.Touches x → ¬ t'.Touches x

/-- Where the search stops at the first look. -/
def Stops (q : Path) : Prop := s.files q = none ∨ (s.files q.sidecar).isSome = true

/-- `q` is the name itself, or, where the name is searched for, the first at which the search
stops. -/
def Meets (a : Asked) (q : Path) : Prop :=
  if a.accepted then q = a.path
  else s.Stops q ∧ (q = a.path ∨ (¬ s.Stops a.path ∧ ∃ k, 1 ≤ k ∧ q = a.path.nth k ∧
    ∀ j, 1 ≤ j → j < k → ¬ s.Stops (a.path.nth j)))

/-- When a receive derives its name, the files there and beside it are a partial of its own ticket,
and no unfinished receive for another has the name. -/
def Clear (s : Folder) : FolderEvent → Prop
  | .derive r => ∀ t, s.taking r = some t → t.path = none → ∀ q, s.Meets t.asked q →
      ∀ x, t.asked.Beside q x →
        (∀ id, s.files x = some id → s.partialOf id = some t.asked.ticket) ∧
        ∀ r' t', s.taking r' = some t' → t'.asked.ticket ≠ t.asked.ticket → ¬ t'.Touches x
  | _ => True

/-! ### What is true throughout -/

structure Inv (s : Folder) : Prop where
  fresh : ∀ x id, s.files x = some id → id < s.next
  began : ∀ r t, s.taking r = some t → t.began ≤ s.next
  mine : ∀ r t id, s.taking r = some t → id < t.began →
    s.partialOf id = some t.asked.ticket → t.mine id = true
  clear : ∀ r t x id, s.taking r = some t → t.Touches x → s.files x = some id →
    t.began ≤ id ∨ t.mine id = true
  fd : ∀ r t id, s.taking r = some t → t.fd = some id → t.began ≤ id ∨ t.mine id = true
  apart : s.Apart

variable {s}

/-- The disk changes and the receives do not: what is new on it is newer than all of them, and
no file becomes a partial. -/
theorem Inv.disk (h : s.Inv) {s' : Folder} (htaking : s'.taking = s.taking)
    (hnext : s.next ≤ s'.next)
    (hfiles : ∀ x id, s'.files x = some id → s.files x = some id ∨ (s.next ≤ id ∧ id < s'.next))
    (hcopy : ∀ id < s.next, ∀ ticket, s'.partialOf id = some ticket →
      s.partialOf id = some ticket) : s'.Inv where
  fresh x id hid := by
    rcases hfiles x id hid with hold | ⟨-, hlt⟩
    · exact (h.fresh x id hold).trans_le hnext
    · exact hlt
  began r t ht := by
    rw [htaking] at ht
    exact (h.began r t ht).trans hnext
  mine r t id ht hid hp := by
    rw [htaking] at ht
    exact h.mine r t id ht hid (hcopy id (hid.trans_le (h.began r t ht)) _ hp)
  clear r t x id ht hx hid := by
    rw [htaking] at ht
    rcases hfiles x id hid with hold | ⟨hnew, -⟩
    · exact h.clear r t x id ht hx hold
    · exact .inl ((h.began r t ht).trans hnew)
  fd r t id ht hid := by
    rw [htaking] at ht
    exact h.fd r t id ht hid
  apart := by
    intro r r' t t' ht ht'
    rw [htaking] at ht ht'
    exact h.apart r r' t t' ht ht'

theorem Inv.create (h : s.Inv) (x : Path) (bytes : Bytes) (ticket : String) :
    (s.create x bytes ticket).Inv := by
  refine h.disk rfl (Nat.le_succ _) (fun y id hid => ?_) fun id hid t ht => ?_
  · by_cases hy : y = x
    · subst hy
      obtain rfl : s.next = id := by simpa [Folder.create] using hid
      exact .inr ⟨le_rfl, Nat.lt_succ_self _⟩
    · exact .inl (by simpa [Folder.create, Function.update_of_ne hy] using hid)
  · simpa [Folder.create, Function.update_of_ne hid.ne] using ht

theorem Inv.write (h : s.Inv) (id : ℕ) (bytes : Bytes) :
    ({ s with data := Function.update s.data id bytes } : Folder).Inv :=
  h.disk rfl le_rfl (fun _ _ hid => .inl hid) fun _ _ _ ht => ht

theorem Inv.put (h : s.Inv) (x : Path) (bytes : Bytes) (ticket : String) :
    (s.put x bytes ticket).Inv := by
  unfold Folder.put
  split
  · exact h.write _ bytes
  · exact h.create x bytes ticket

theorem Inv.unlink (h : s.Inv) (x : Path) : (s.unlink x).Inv := by
  refine h.disk rfl le_rfl (fun y id hid => .inl ?_) fun _ _ _ ht => ht
  by_cases hy : y = x
  · subst hy
    simp [Folder.unlink] at hid
  · simpa [Folder.unlink, Function.update_of_ne hy] using hid

/-- A receive that ends. -/
theorem Inv.set_none (h : s.Inv) (r : ℕ) : (s.set r none).Inv := by
  have hold : ∀ r' t, (s.set r none).taking r' = some t → s.taking r' = some t := by
    intro r' t ht
    by_cases hr : r' = r
    · subst hr
      simp [Folder.set] at ht
    · simpa [Folder.set, Function.update_of_ne hr] using ht
  exact ⟨h.fresh, fun r' t ht => h.began r' t (hold r' t ht),
    fun r' t id ht => h.mine r' t id (hold r' t ht),
    fun r' t x id ht => h.clear r' t x id (hold r' t ht),
    fun r' t id ht => h.fd r' t id (hold r' t ht),
    fun r₁ r₂ t₁ t₂ h₁ h₂ => h.apart r₁ r₂ t₁ t₂ (hold r₁ t₁ h₁) (hold r₂ t₂ h₂)⟩

/-- A receive that is new or goes on. -/
theorem Inv.set_some (h : s.Inv) (r : ℕ) {t : Taking} (hbegan : t.began ≤ s.next)
    (hmine : ∀ id < t.began, s.partialOf id = some t.asked.ticket → t.mine id = true)
    (hclear : ∀ x id, t.Touches x → s.files x = some id → t.began ≤ id ∨ t.mine id = true)
    (hfd : ∀ id, t.fd = some id → t.began ≤ id ∨ t.mine id = true)
    (hapart : ∀ r' t', r' ≠ r → s.taking r' = some t' → t'.asked.ticket ≠ t.asked.ticket →
      ∀ x, t.Touches x → ¬ t'.Touches x) : (s.set r (some t)).Inv := by
  have hcases : ∀ r' t', (s.set r (some t)).taking r' = some t' →
      (r' = r ∧ t' = t) ∨ (r' ≠ r ∧ s.taking r' = some t') := by
    intro r' t' ht
    by_cases hr : r' = r
    · subst hr
      exact .inl ⟨rfl, by simpa [Folder.set, eq_comm] using ht⟩
    · exact .inr ⟨hr, by simpa [Folder.set, Function.update_of_ne hr] using ht⟩
  refine ⟨h.fresh, ?_, ?_, ?_, ?_, ?_⟩
  · intro r' t' ht
    rcases hcases r' t' ht with ⟨-, rfl⟩ | ⟨-, ht⟩
    · exact hbegan
    · exact h.began r' t' ht
  · intro r' t' id ht
    rcases hcases r' t' ht with ⟨-, rfl⟩ | ⟨-, ht⟩
    · exact hmine id
    · exact h.mine r' t' id ht
  · intro r' t' x id ht
    rcases hcases r' t' ht with ⟨-, rfl⟩ | ⟨-, ht⟩
    · exact hclear x id
    · exact h.clear r' t' x id ht
  · intro r' t' id ht
    rcases hcases r' t' ht with ⟨-, rfl⟩ | ⟨-, ht⟩
    · exact hfd id
    · exact h.fd r' t' id ht
  · intro r₁ r₂ t₁ t₂ h₁ h₂ hne x hx hx'
    rcases hcases r₁ t₁ h₁ with ⟨rfl, rfl⟩ | ⟨hr₁, hold₁⟩
    · rcases hcases r₂ t₂ h₂ with ⟨-, rfl⟩ | ⟨hr₂, hold₂⟩
      · exact hne rfl
      · exact hapart r₂ t₂ hr₂ hold₂ hne.symm x hx hx'
    · rcases hcases r₂ t₂ h₂ with ⟨rfl, rfl⟩ | ⟨hr₂, hold₂⟩
      · exact hapart r₁ t₁ hr₁ hold₁ hne x hx' hx
      · exact h.apart r₁ r₂ t₁ t₂ hold₁ hold₂ hne x hx hx'

/-- Opening or closing the file leaves the rest of the receive as it is. -/
theorem Inv.set_fd (h : s.Inv) {r : ℕ} {t : Taking} (ht : s.taking r = some t) {fd : Option ℕ}
    (hfd : ∀ id, fd = some id → t.began ≤ id ∨ t.mine id = true) :
    (s.set r (some { t with fd })).Inv :=
  h.set_some r (h.began r t ht) (fun id => h.mine r t id ht)
    (fun x id hx => h.clear r t x id ht hx) hfd
    fun r' t' _ ht' hne x hx => h.apart r r' t t' ht ht' hne.symm x hx

/-! ### The name that is found -/

theorem takes_world_iff (s : Folder) (q : Path) : s.world.Takes q ↔ s.Stops q := by
  simp [World.Takes, Stops, world]

/-- The search stops at the first name where it can. -/
theorem numbered_first {w : World} {p q : Path} {fuel n : ℕ} (h : w.numbered p fuel n = some q) :
    ∃ k, n ≤ k ∧ q = p.nth k ∧ w.Takes q ∧ ∀ j, n ≤ j → j < k → ¬ w.Takes (p.nth j) := by
  induction fuel generalizing n with
  | zero => cases h
  | succ fuel ih =>
      rw [World.numbered] at h
      by_cases hside : (w.files (p.nth n).sidecar).isSome = true
      · obtain rfl := Option.some.inj ((if_pos hside).symm.trans h)
        exact ⟨n, le_rfl, rfl, .inr hside, fun j hle hlt => by omega⟩
      have hafter := (if_neg hside).symm.trans h
      by_cases hfree : (w.files (p.nth n)).isNone = true
      · obtain rfl := Option.some.inj ((if_pos hfree).symm.trans hafter)
        exact ⟨n, le_rfl, rfl, .inl hfree, fun j hle hlt => by omega⟩
      obtain ⟨k, hle, hq, htakes, hbefore⟩ := ih ((if_neg hfree).symm.trans hafter)
      refine ⟨k, by omega, hq, htakes, fun j hj hlt => ?_⟩
      rcases Nat.eq_or_lt_of_le hj with rfl | hj
      · rintro (hnone | hsome)
        · exact hfree hnone
        · exact hside hsome
      · exact hbefore j hj hlt

/-- What a receive derives is what it meets. -/
theorem meets_of_derive {a : Asked} {q : Path}
    (h : (if a.accepted then some a.path else s.world.collisionFree a.path) = some q) :
    s.Meets a q := by
  unfold Meets
  split_ifs at h ⊢ with hacc
  · exact (Option.some.inj h).symm
  · rw [World.collisionFree] at h
    split_ifs at h with hnow
    · obtain rfl := Option.some.inj h
      rw [Bool.or_eq_true] at hnow
      exact ⟨(takes_world_iff s _).1 hnow, .inl rfl⟩
    · obtain ⟨k, hk, rfl, htakes, hbefore⟩ := numbered_first h
      refine ⟨(takes_world_iff s _).1 htakes, .inr ⟨?_, k, hk, rfl, fun j hj hlt => ?_⟩⟩
      · rw [← takes_world_iff]
        rwa [Bool.or_eq_true] at hnow
      · rw [← takes_world_iff]
        exact hbefore j hj hlt

/-! ### One step -/

section Act

variable {r : ℕ} {t : Taking} (h : s.Inv) (ht : s.taking r = some t)
include h ht

/-- What was there before the receive and is not its own keeps its number, and its content. -/
theorem put_spares {p : Path} {bytes : Bytes} (hp : t.Touches p) {x : Path} {id : ℕ}
    (hid : s.files x = some id) (hold : id < t.began) (hmine : t.mine id = false) :
    (s.put p bytes t.asked.ticket).files x = some id ∧
      (s.put p bytes t.asked.ticket).data id = s.data id := by
  unfold put
  split
  next other hother =>
    have hne : id ≠ other := by
      rintro rfl
      rcases h.clear r t p id ht hp hother with hle | hown
      · omega
      · rw [hmine] at hown
        cases hown
    exact ⟨hid, Function.update_of_ne hne _ _⟩
  next hnone =>
    have hx : x ≠ p := by
      rintro rfl
      rw [hnone] at hid
      cases hid
    have hlt : id < s.next := h.fresh x id hid
    exact ⟨(Function.update_of_ne hx _ _).trans hid, Function.update_of_ne hlt.ne _ _⟩

theorem unlink_spares {p : Path} (hp : t.Touches p) {x : Path} {id : ℕ}
    (hid : s.files x = some id) (hold : id < t.began) (hmine : t.mine id = false) :
    (s.unlink p).files x = some id := by
  have hx : x ≠ p := by
    rintro rfl
    rcases h.clear r t x id ht hp hid with hle | hown
    · omega
    · rw [hmine] at hown
      cases hown
  exact (Function.update_of_ne hx _ _).trans hid

omit h ht in
theorem files_put (p : Path) (bytes : Bytes) (ticket : String) :
    ∃ id, (s.put p bytes ticket).files p = some id := by
  unfold put
  split
  next id hid => exact ⟨id, hid⟩
  next => exact ⟨s.next, Function.update_self _ _ _⟩

omit h ht in
theorem taking_put (p : Path) (bytes : Bytes) (ticket : String) :
    (s.put p bytes ticket).taking = s.taking := by
  unfold put
  split <;> rfl

omit h ht in
theorem touches_path {p : Path} (hp : t.path = some p) : t.Touches p := ⟨p, hp, .inl rfl⟩

omit h ht in
theorem touches_beside {p : Path} (hp : t.path = some p) {suffix : String}
    (hs : t.asked.mailbox = false ∧ SideSuffix suffix) : t.Touches (p.beside suffix) :=
  ⟨p, hp, .inr ⟨hs.1, suffix, hs.2, rfl⟩⟩

end Act

/-- The file that is opened. -/
def opened (s : Folder) (t : Taking) (p : Path) : Folder :=
  if t.asked.mailbox ∨ s.files p = none then s.put p [] t.asked.ticket else s

theorem inv_opened (h : s.Inv) (t : Taking) (p : Path) : (s.opened t p).Inv := by
  unfold opened
  split
  · exact h.put p [] t.asked.ticket
  · exact h

theorem taking_opened (s : Folder) (t : Taking) (p : Path) : (s.opened t p).taking = s.taking := by
  unfold opened
  split
  · exact taking_put p [] t.asked.ticket
  · rfl

/-- Deriving a clear name keeps the receives apart. -/
theorem inv_derive (h : s.Inv) {r : ℕ} {t : Taking} (ht : s.taking r = some t)
    (hpath : t.path = none) (hclear : s.Clear (.derive r)) : (s.act t (.derive r)).Inv := by
  simp only [act, hpath]
  generalize hp : (if t.asked.accepted then some t.asked.path
    else s.world.collisionFree t.asked.path) = path
  have hsides : ∀ x, Taking.Touches { t with path } x → ∃ q, s.Meets t.asked q ∧
      t.asked.Beside q x := by
    rintro x ⟨q, hq, hx⟩
    obtain rfl : path = some q := hq
    exact ⟨q, meets_of_derive hp, hx⟩
  refine h.set_some r (h.began r t ht) (fun id => h.mine r t id ht) (fun x id hx hid => ?_)
    (fun id => h.fd r t id ht) fun r' t' _ ht' hne x hx => ?_
  · obtain ⟨q, hmeets, hbeside⟩ := hsides x hx
    have hown := (hclear t ht hpath q hmeets x hbeside).1 id hid
    rcases Nat.lt_or_ge id t.began with hlt | hge
    · exact .inr (h.mine r t id ht hlt hown)
    · exact .inl hge
  · obtain ⟨q, hmeets, hbeside⟩ := hsides x hx
    exact (hclear t ht hpath q hmeets x hbeside).2 r' t' ht' hne

theorem inv_act (h : s.Inv) {t : Taking} {e : FolderEvent} (ht : s.taking e.who = some t)
    (hclear : s.Clear e) : (s.act t e).Inv := by
  cases e with
  | begin r a => exact h
  | derive r =>
      cases hpath : t.path with
      | some p =>
          simp only [act, hpath]
          exact h
      | none => exact inv_derive h ht hpath hclear
  | open_ r =>
      simp only [act]
      split
      next p hp _ =>
        have hinv : (s.opened t p).Inv := inv_opened h t p
        have ht' : (s.opened t p).taking r = some t := by rwa [taking_opened]
        exact hinv.set_fd ht' fun id hid => hinv.clear r t p id ht' (touches_path hp) hid
      next => exact h
  | write r bytes =>
      simp only [act]
      split
      · exact h.write _ bytes
      · exact h
  | keep r suffix bytes =>
      simp only [act]
      split
      · split
        · exact h.put _ bytes t.asked.ticket
        · exact h
      · exact h
  | drop r suffix =>
      simp only [act]
      split
      · split
        · exact h.unlink _
        · exact h
      · exact h
  | finish r =>
      simp only [act]
      split
      next id _ =>
        have hdone : ({ s with partialOf := Function.update s.partialOf id none } : Folder).Inv := by
          refine h.disk rfl le_rfl (fun _ _ hid => .inl hid) fun i _ ticket hi => ?_
          by_cases heq : i = id
          · simp [heq] at hi
          · simpa [Function.update_of_ne heq] using hi
        exact hdone.set_none r
      next => exact h
  | stop r =>
      simp only [act]
      split
      · exact h.set_fd ht fun id hid => nomatch hid
      · exact h.set_none r
  | discard r =>
      simp only [act]
      split
      next p _ => exact (h.unlink p).set_none r
      next => exact h.set_none r

theorem inv_step (h : s.Inv) (e : FolderEvent) (hclear : s.Clear e) : (s.step e).Inv := by
  unfold step
  split
  next r a hnone =>
    refine h.set_some r le_rfl (fun id _ hp => decide_eq_true hp) ?_ (fun id hid => nomatch hid) ?_
    · rintro x id ⟨p, hp, -⟩
      cases hp
    · rintro r' t' - - - x ⟨p, hp, -⟩
      cases hp
  next => exact h
  next t e ht => exact inv_act h ht hclear

theorem spares_act (h : s.Inv) {t : Taking} {e : FolderEvent} (ht : s.taking e.who = some t)
    {x : Path} {id : ℕ} (hid : s.files x = some id) (hold : id < t.began)
    (hmine : t.mine id = false) :
    (s.act t e).files x = some id ∧ (s.act t e).data id = s.data id := by
  cases e with
  | begin r a => exact ⟨hid, rfl⟩
  | derive r =>
      simp only [act]
      split <;> exact ⟨hid, rfl⟩
  | open_ r =>
      simp only [act]
      split
      next p hp _ =>
        have hput : (s.opened t p).files x = some id ∧ (s.opened t p).data id = s.data id := by
          unfold opened
          split
          · exact put_spares h ht (touches_path hp) hid hold hmine
          · exact ⟨hid, rfl⟩
        exact hput
      next => exact ⟨hid, rfl⟩
  | write r bytes =>
      simp only [act]
      split
      next i hi =>
        have hne : id ≠ i := by
          rintro rfl
          rcases h.fd r t id ht hi with hle | hown
          · omega
          · rw [hmine] at hown
            cases hown
        exact ⟨hid, Function.update_of_ne hne _ _⟩
      next => exact ⟨hid, rfl⟩
  | keep r suffix bytes =>
      simp only [act]
      split
      next p i hp _ =>
        split
        next hs => exact put_spares h ht (touches_beside hp hs) hid hold hmine
        next => exact ⟨hid, rfl⟩
      next => exact ⟨hid, rfl⟩
  | drop r suffix =>
      simp only [act]
      split
      next p hp =>
        split
        next hs => exact ⟨unlink_spares h ht (touches_beside hp hs) hid hold hmine, rfl⟩
        next => exact ⟨hid, rfl⟩
      next => exact ⟨hid, rfl⟩
  | finish r =>
      simp only [act]
      split <;> exact ⟨hid, rfl⟩
  | stop r =>
      simp only [act]
      split <;> exact ⟨hid, rfl⟩
  | discard r =>
      simp only [act]
      split
      next p hp => exact ⟨unlink_spares h ht (touches_path hp) hid hold hmine, rfl⟩
      next => exact ⟨hid, rfl⟩

theorem spares_step (h : s.Inv) (e : FolderEvent) : s.Spares e := by
  intro t ht x id hid hold hmine
  have hstep : s.step e = s.act t e := by
    unfold step
    split
    next hnone =>
      rw [hnone] at ht
      cases ht
    next hnone =>
      rw [hnone] at ht
      cases ht
    next hsome =>
      rw [Option.some.inj (hsome.symm.trans ht)]
  rw [hstep]
  exact spares_act h ht hid hold hmine

/-- A directory before any receive has begun, with whatever is in it. -/
structure Start (s : Folder) : Prop where
  fresh : ∀ x id, s.files x = some id → id < s.next
  idle : ∀ r, s.taking r = none

theorem Start.inv (h : s.Start) : s.Inv := by
  have hnone : ∀ {r t}, s.taking r = some t → False := fun {r t} ht => by
    rw [h.idle r] at ht
    cases ht
  exact ⟨h.fresh, fun r t ht => (hnone ht).elim, fun r t id ht => (hnone ht).elim,
    fun r t x id ht => (hnone ht).elim, fun r t id ht => (hnone ht).elim,
    fun r r' t t' ht => (hnone ht).elim⟩

/-- A directory with one finished file. -/
def oneReport : Folder where
  files := fun x => if x = ⟨"d", "report.pdf"⟩ then some 0 else none
  data := fun _ => [1]
  next := 1
  partialOf := fun _ => none
  taking := fun _ => none

theorem oneReport_start : oneReport.Start where
  fresh x id hid := by
    by_cases hx : x = ⟨"d", "report.pdf"⟩ <;> simp [oneReport, hx] at hid ⊢
    omega
  idle _ := rfl

/-- A receive under another name. -/
def asksOther : FolderEvent := .begin 0 ⟨"t", false, true, ⟨"d", "photo.jpg"⟩⟩

end Folder

end Arvolo.Recv
