import Arvolo.Lib.Machine
import Arvolo.Lib.Pool
import Arvolo.Lib.Table

/-!
The two lists of waiting offers: the transfer manager's pending map
(`core/src/manager`) and the daemon's (`engine/src/start.rs`, `daemon.rs`).

The inbox puts an offer into the first and says so; the intake task hears it and
puts it into the second, unless the sender is blocked or the file is taken
without asking. Front-ends accept and reject. All of them run at the same time,
so each is a list of the single operations it has still to do, and a step is one
operation of one of them. What the address book answers, and whether P2P is on,
may change at any moment and is part of the step that asks.
-/

namespace Arvolo.Engine

open Lib

/-- What the two maps hold of an offer. -/
structure Offer where
  id : String
  sender : String
  name : String
  /-- The content id of a ticket that decodes as a chunk ticket. -/
  content : Option ℕ
  /-- Whether it has to be fetched from the sender: a chunk ticket, by its looks. -/
  live : Bool
  /-- Whether it is a mailbox ticket sealed with a password. -/
  hasPassword : Bool
  deriving DecidableEq

/-- One operation on the maps, or what is left of handling an offer. -/
inductive Act
  /-- A superseded offer leaves the daemon's map, and then the engine's. -/
  | evict (id : String)
  /-- `reject_offer`. -/
  | take (id : String)
  | drop (id : String)
  /-- `OfferGone`. -/
  | gone (id : String)
  | supersede (o : Offer)
  | settle (o : Offer)
  /-- An automatic take failed: is there still something to ask about? -/
  | check (o : Offer)
  | park (o : Offer)
  deriving DecidableEq

/-- The offer an operation is still to put into the daemon's map. -/
def Act.carries : Act → Option Offer
  | .supersede o | .settle o | .check o | .park o => some o
  | .evict _ | .take _ | .drop _ | .gone _ => none

def Act.id : Act → String
  | .evict id | .take id | .drop id | .gone id => id
  | .supersede o | .settle o | .check o | .park o => o.id

/-- What a step that asks is told. -/
structure Answers where
  blocked : Bool := false
  autoAccepts : Bool := false
  p2pEnabled : Bool := true
  deriving DecidableEq

structure Lists where
  /-- The inbox's memory of what it has surfaced. -/
  seen : List String := []
  engine : Table String Offer := ∅
  daemon : Table String Offer := ∅
  /-- In the engine's map, and not yet announced. -/
  arriving : Option Offer := none
  /-- What the intake task has still to hear; `none` is any other event. -/
  queue : List (Option Offer) := []
  /-- What each task has still to do; the first is the intake task. -/
  todos : List (List Act) := [[]]
  /-- Downloads that are running or paused: their content and their peer. -/
  downloads : List (ℕ × Option String) := []
  /-- Ids that left a map since the last `OfferGone` about them. -/
  owed : List String := []

namespace Lists

def channelCapacity : ℕ := 256

/-- Send to the intake task. A subscriber that lags loses the oldest event. -/
def emit (s : Lists) (ev : Option Offer) : Lists :=
  { s with queue := (if s.queue.length < channelCapacity then s.queue else s.queue.tail) ++ [ev] }

/-- Remove from the engine's map. -/
def takeEngine (s : Lists) (id : String) : Lists :=
  { s with
    engine := s.engine.erase id
    owed := if id ∈ s.engine then id :: s.owed else s.owed }

/-- Remove from the daemon's map. -/
def dropDaemon (s : Lists) (id : String) : Lists :=
  { s with
    daemon := s.daemon.erase id
    owed := if id ∈ s.daemon then id :: s.owed else s.owed }

/-- `download_of_same_content`: a download of this content, and from this sender
if it knows whom it is talking to. -/
def downloading (s : Lists) (o : Offer) : Bool :=
  o.content.any fun c => s.downloads.any fun d => d.1 = c && d.2.all (· = o.sender)

/-- `take_offers_for_same_content`: the ids it takes out. -/
def sameContent (s : Lists) (o : Offer) : List String :=
  (s.engine.entries.filter fun e => e.2.content.isSome ∧ e.2.content = o.content).map (·.1)

/-- The inbox surfaces an offer. -/
def arrive (s : Lists) (o : Offer) : Lists :=
  if s.arriving.isSome ∨ o.id ∈ s.seen then s
  else
    let s := { s with seen := o.id :: s.seen }
    if s.downloading o then (s.sameContent o).foldl takeEngine s
    else { s with engine := s.engine.insert o.id o, arriving := some o }

/-- The second half of the callback: the event goes out. -/
def announce (s : Lists) : Lists :=
  match s.arriving with
  | none => s
  | some o => { s with arriving := none }.emit (some o)

def seenLimit : ℕ := 4096

/-- The inbox polls; its memory is bounded. -/
def poll (s : Lists) : Lists := if seenLimit < s.seen.length then { s with seen := [] } else s

/-- `accept_offer_with_password` says no before it touches anything. A live offer
needs P2P, and a protected deposit its password. -/
def refuses (o : Offer) (password p2p : Bool) : Bool :=
  (!password && o.hasPassword) || (!p2p && o.live)

/-- The engine's part of an accept. The download it starts is joined to one of the
same content, if there is one. -/
def acceptOffer (s : Lists) (id : String) (o : Offer) : Lists :=
  let s := s.takeEngine id
  match o.content with
  | some c => if s.downloading o then s else { s with downloads := (c, some o.sender) :: s.downloads }
  | none => s

/-- `superseded_ids`. -/
def supersededIds (s : Lists) (o : Offer) : List String :=
  (s.daemon.entries.filter fun e => e.2.sender = o.sender ∧ e.2.name = o.name).map (·.1)

/-- Do one operation; what it leaves to do comes before the rest. -/
def exec (s : Lists) (told : Answers) : Act → Lists × List Act
  | .evict id => (s.dropDaemon id, [.take id, .gone id])
  | .take id => (s.takeEngine id, [])
  | .drop id => (s.dropDaemon id, [])
  | .gone id => ({ s with owed := s.owed.filter (· ≠ id) }, [])
  | .supersede o => (s, (s.supersededIds o).map .evict ++ [.settle o])
  | .settle o =>
      if told.autoAccepts then
        match s.engine.lookup o.id with
        | some offer =>
            if refuses offer false told.p2pEnabled then (s, [.check o])
            else (s.acceptOffer o.id offer, [.gone o.id])
        | none => (s, [.check o])
      else (s, [.park o])
  | .check o => if o.id ∈ s.engine then (s, [.park o]) else (s, [.gone o.id])
  | .park o => ({ s with daemon := s.daemon.insert o.id o }, [])

/-- One step of task `i`. The intake task, with nothing left to do, hears the next
event. -/
def next (s : Lists) (i : ℕ) (told : Answers) : Lists :=
  match s.todos[i]? with
  | some (a :: rest) =>
      let (s', acts) := s.exec told a
      { s' with todos := s.todos.set i (acts ++ rest) }
  | some [] =>
      match i, s.queue with
      | 0, some o :: queue =>
          let acts := if told.blocked then [Act.take o.id, .gone o.id] else [.supersede o]
          { s with queue, todos := s.todos.set 0 acts }
      | 0, none :: queue => { s with queue }
      | _, _ => s
  | none => s

/-- A front-end accepts. -/
def accept (s : Lists) (id : String) (password p2p : Bool) : Lists :=
  match s.engine.lookup id with
  | some o =>
      if refuses o password p2p then s
      else
        let s' := s.acceptOffer id o
        { s' with todos := s'.todos ++ [[.drop id, .gone id]] }
  | none => s

/-- A front-end rejects. -/
def reject (s : Lists) (id : String) : Lists :=
  let s' := s.dropDaemon id
  { s' with todos := s'.todos ++ [[.take id, .gone id]] }

end Lists

inductive OfferEvent
  | poll
  | arrive (o : Offer)
  | announce
  /-- The engine says something else. -/
  | other
  | next (i : ℕ) (told : Answers)
  | accept (id : String) (password p2p : Bool)
  | reject (id : String)
  /-- A ticket is fetched without an offer. -/
  | startDownload (content : ℕ) (peer : Option String)
  | endDownload (content : ℕ) (peer : Option String)
  deriving DecidableEq

namespace Lists

def step (s : Lists) : OfferEvent → Lists
  | .poll => s.poll
  | .arrive o => s.arrive o
  | .announce => s.announce
  | .other => s.emit none
  | .next i told => s.next i told
  | .accept id password p2p => s.accept id password p2p
  | .reject id => s.reject id
  | .startDownload content peer => { s with downloads := (content, peer) :: s.downloads }
  | .endDownload content peer => { s with downloads := s.downloads.erase (content, peer) }

/-- All there is still to do. -/
def acts (s : Lists) : List Act := s.todos.flatten

/-- The offers on their way to the daemon's map. -/
def coming (s : Lists) : List Offer :=
  s.arriving.toList ++ s.queue.reduceOption ++ s.acts.filterMap Act.carries

/-- The intake task has heard everything, and no request is half done. -/
def CaughtUp (s : Lists) : Prop := s.arriving = none ∧ s.queue = [] ∧ s.acts = []

/-- The two lists agree, and every id that left one was announced. -/
structure Agree (s : Lists) : Prop where
  engine_of_daemon : ∀ id, id ∈ s.daemon → id ∈ s.engine
  daemon_of_engine : ∀ id, id ∈ s.engine → id ∈ s.daemon
  owed : s.owed = []

/-- Somebody still has to do with this id. -/
def Busy (s : Lists) (id : String) : Prop :=
  id ∈ s.engine ∨ id ∈ s.daemon ∨ id ∈ s.coming.map Offer.id ∨ id ∈ s.acts.map Act.id

/-- An offer for content that is coming down finds no copy of it waiting, and one
that is new is not being handled already; a front-end answers only what the
intake task is through with; and the intake task is never so far behind that it
loses an offer. -/
def Calm (s : Lists) : OfferEvent → Prop
  | .arrive o =>
      o.id ∈ s.seen ∨ if s.downloading o then s.sameContent o = [] else ¬ s.Busy o.id
  | .announce | .other => s.queue.length < channelCapacity ∨ s.queue.head? = some none
  | .accept id _ _ | .reject id => id ∉ s.coming.map Offer.id
  | _ => True

instance (s : Lists) (id : String) : Decidable (s.Busy id) := by
  unfold Busy
  infer_instance

instance (s : Lists) : DecidablePred s.Calm := by
  intro e
  cases e <;> unfold Calm <;> infer_instance

end Lists

/-! ### The invariant -/

/-- Every removal is followed by its announcement. -/
def Paired : List Act → Prop
  | [] => True
  | .take id :: t | .drop id :: t => .gone id ∈ t ∧ Paired t
  | _ :: t => Paired t

/-- Where the maps differ, somebody is about to mend it: the ids in the engine's map
and in the daemon's, those that are owed an announcement, what is still to be
done, and the offers on their way. -/
structure Mending (engine daemon : Set String) (owed : List String) (acts : List Act)
    (coming : List Offer) : Prop where
  engine_of_daemon : ∀ id ∈ daemon, id ∈ engine ∨ .drop id ∈ acts
  daemon_of_engine : ∀ id ∈ engine,
    id ∈ daemon ∨ (∃ o ∈ coming, o.id = id) ∨ .take id ∈ acts
  owed : ∀ id ∈ owed, .gone id ∈ acts
  take_daemon : ∀ id, .take id ∈ acts → id ∉ daemon
  drop_engine : ∀ id, .drop id ∈ acts → id ∉ engine
  coming_engine : ∀ o ∈ coming, o.id ∈ engine
  coming_daemon : ∀ o ∈ coming, o.id ∉ daemon
  coming_acts : ∀ o ∈ coming, ∀ a ∈ acts, a.id = o.id → a.carries.isSome
  coming_nodup : coming.Pairwise fun o o' => o.id ≠ o'.id

namespace Mending

variable {engine daemon : Set String} {owed owed' : List String} {acts acts' : List Act}
  {coming coming' : List Offer} {id : String} {o : Offer}

theorem perm (h : Mending engine daemon owed acts coming) (ha : acts.Perm acts')
    (hc : coming.Perm coming') : Mending engine daemon owed acts' coming' where
  engine_of_daemon id hid := by simpa [ha.mem_iff] using h.engine_of_daemon id hid
  daemon_of_engine id hid := by simpa [ha.mem_iff, hc.mem_iff] using h.daemon_of_engine id hid
  owed id hid := ha.mem_iff.mp (h.owed id hid)
  take_daemon id hid := h.take_daemon id (ha.mem_iff.mpr hid)
  drop_engine id hid := h.drop_engine id (ha.mem_iff.mpr hid)
  coming_engine o ho := h.coming_engine o (hc.mem_iff.mpr ho)
  coming_daemon o ho := h.coming_daemon o (hc.mem_iff.mpr ho)
  coming_acts o ho a hact := h.coming_acts o (hc.mem_iff.mpr ho) a (ha.mem_iff.mpr hact)
  coming_nodup := (hc.pairwise_iff fun h => Ne.symm h).mp h.coming_nodup

/-- An id leaves the daemon's map and is still in the engine's. -/
theorem evict (h : Mending engine daemon owed acts coming) (hid : ∀ o ∈ coming, o.id ≠ id)
    (howed : ∀ x ∈ owed', x = id ∨ x ∈ owed) :
    Mending engine (daemon \ {id}) owed' (.take id :: .gone id :: acts) coming := by
  constructor
  · grind [h.engine_of_daemon]
  · grind [h.daemon_of_engine]
  · grind [h.owed]
  · grind [h.take_daemon]
  · grind [h.drop_engine]
  · exact h.coming_engine
  · grind [h.coming_daemon]
  · intro o ho a hact
    simp only [List.mem_cons] at hact
    rcases hact with rfl | rfl | hact
    · exact fun he => absurd he.symm (hid o ho)
    · exact fun he => absurd he.symm (hid o ho)
    · exact h.coming_acts o ho a hact
  · exact h.coming_nodup

/-- An id leaves the engine's map, and the daemon still has it. -/
theorem accept (h : Mending engine daemon owed acts coming) (hid : ∀ o ∈ coming, o.id ≠ id)
    (howed : ∀ x ∈ owed', x = id ∨ x ∈ owed) :
    Mending (engine \ {id}) daemon owed' (.drop id :: .gone id :: acts) coming := by
  constructor
  · grind [h.engine_of_daemon]
  · grind [h.daemon_of_engine]
  · grind [h.owed]
  · grind [h.take_daemon]
  · grind [h.drop_engine]
  · grind [h.coming_engine]
  · exact h.coming_daemon
  · intro o ho a hact
    simp only [List.mem_cons] at hact
    rcases hact with rfl | rfl | hact
    · exact fun he => absurd he.symm (hid o ho)
    · exact fun he => absurd he.symm (hid o ho)
    · exact h.coming_acts o ho a hact
  · exact h.coming_nodup

/-- An operation that is not about an offer on its way is about another id. -/
theorem ne_of_mem (h : Mending engine daemon owed acts coming) {a : Act} (ha : a ∈ acts)
    (hnone : a.carries = none) : ∀ o ∈ coming, o.id ≠ a.id := by
  intro o ho he
  simpa [hnone] using h.coming_acts o ho a ha he.symm

/-- An operation that changed no map and announced nothing is done. -/
theorem tail {a : Act} (h : Mending engine daemon owed (a :: acts) coming)
    (ha : ∀ id, a ≠ .take id ∧ a ≠ .drop id ∧ a ≠ .gone id) :
    Mending engine daemon owed acts coming := by
  constructor
  · grind [h.engine_of_daemon]
  · grind [h.daemon_of_engine]
  · grind [h.owed]
  · grind [h.take_daemon]
  · grind [h.drop_engine]
  · exact h.coming_engine
  · exact h.coming_daemon
  · grind [h.coming_acts]
  · exact h.coming_nodup

theorem take (h : Mending engine daemon owed (.take id :: acts) coming) (hgone : .gone id ∈ acts)
    (howed : ∀ x ∈ owed', x = id ∨ x ∈ owed) :
    Mending (engine \ {id}) daemon owed' acts coming := by
  have hne : ∀ o ∈ coming, o.id ≠ id := h.ne_of_mem List.mem_cons_self rfl
  have hid := h.take_daemon id List.mem_cons_self
  constructor
  · grind [h.engine_of_daemon]
  · grind [h.daemon_of_engine]
  · grind [h.owed]
  · grind [h.take_daemon]
  · grind [h.drop_engine]
  · grind [h.coming_engine]
  · exact h.coming_daemon
  · grind [h.coming_acts]
  · exact h.coming_nodup

theorem drop (h : Mending engine daemon owed (.drop id :: acts) coming) (hgone : .gone id ∈ acts)
    (howed : ∀ x ∈ owed', x = id ∨ x ∈ owed) :
    Mending engine (daemon \ {id}) owed' acts coming := by
  have hid := h.drop_engine id List.mem_cons_self
  constructor
  · grind [h.engine_of_daemon]
  · grind [h.daemon_of_engine]
  · grind [h.owed]
  · grind [h.take_daemon]
  · grind [h.drop_engine]
  · exact h.coming_engine
  · grind [h.coming_daemon]
  · grind [h.coming_acts]
  · exact h.coming_nodup

theorem gone (h : Mending engine daemon owed (.gone id :: acts) coming) :
    Mending engine daemon (owed.filter (· ≠ id)) acts coming := by
  constructor
  · grind [h.engine_of_daemon]
  · grind [h.daemon_of_engine]
  · grind [h.owed]
  · grind [h.take_daemon]
  · grind [h.drop_engine]
  · exact h.coming_engine
  · exact h.coming_daemon
  · grind [h.coming_acts]
  · exact h.coming_nodup

/-- More to do about an offer on its way, or about ids the daemon has. -/
theorem cons {a : Act} (h : Mending engine daemon owed acts coming)
    (ha : a.carries.isSome ∨ ∃ id ∈ daemon, a = .evict id) :
    Mending engine daemon owed (a :: acts) coming := by
  have hplain (id : String) : a ≠ .take id ∧ a ≠ .drop id := by
    rcases ha with ha | ⟨x, -, rfl⟩
    · constructor <;> (rintro rfl; cases ha)
    · exact ⟨nofun, nofun⟩
  constructor
  · grind [h.engine_of_daemon]
  · grind [h.daemon_of_engine]
  · grind [h.owed]
  · grind [h.take_daemon]
  · grind [h.drop_engine]
  · exact h.coming_engine
  · exact h.coming_daemon
  · intro o ho b hb hbo
    rcases List.mem_cons.mp hb with rfl | hb
    · rcases ha with ha | ⟨x, hx, rfl⟩
      · exact ha
      · exact absurd (hbo ▸ hx) (h.coming_daemon o ho)
    · exact h.coming_acts o ho b hb hbo
  · exact h.coming_nodup

theorem append {new : List Act} (h : Mending engine daemon owed acts coming)
    (hnew : ∀ a ∈ new, a.carries.isSome ∨ ∃ id ∈ daemon, a = .evict id) :
    Mending engine daemon owed (new ++ acts) coming := by
  induction new with
  | nil => exact h
  | cons a new ih =>
      refine (ih fun b hb => hnew b (List.mem_cons_of_mem _ hb)).cons ?_
      exact hnew a List.mem_cons_self

/-- A new offer is in the engine's map and on its way. -/
theorem arrive (h : Mending engine daemon owed acts coming) (hdaemon : o.id ∉ daemon)
    (hcoming : ∀ o' ∈ coming, o'.id ≠ o.id) (hacts : ∀ a ∈ acts, a.id ≠ o.id) :
    Mending (insert o.id engine) daemon owed acts (o :: coming) := by
  have hdrop : Act.drop o.id ∉ acts := fun hm => hacts _ hm rfl
  constructor
  · grind [h.engine_of_daemon]
  · grind [h.daemon_of_engine]
  · exact h.owed
  · exact h.take_daemon
  · grind [h.drop_engine]
  · grind [h.coming_engine]
  · grind [h.coming_daemon]
  · grind [h.coming_acts]
  · exact List.pairwise_cons.mpr ⟨fun o' ho' => (hcoming o' ho').symm, h.coming_nodup⟩

/-- An offer on its way gets there. -/
theorem park (h : Mending engine daemon owed acts (o :: coming)) :
    Mending engine (insert o.id daemon) owed acts coming := by
  have hne : ∀ o' ∈ coming, o.id ≠ o'.id := (List.pairwise_cons.mp h.coming_nodup).1
  have htake : Act.take o.id ∉ acts := fun hm =>
    h.ne_of_mem hm rfl o List.mem_cons_self rfl
  constructor
  · grind [h.engine_of_daemon, h.coming_engine]
  · grind [h.daemon_of_engine]
  · exact h.owed
  · grind [h.take_daemon]
  · exact h.drop_engine
  · grind [h.coming_engine]
  · grind [h.coming_daemon]
  · grind [h.coming_acts]
  · exact (List.pairwise_cons.mp h.coming_nodup).2

/-- An offer on its way is turned away. -/
theorem block (h : Mending engine daemon owed acts (o :: coming)) :
    Mending engine daemon owed (.take o.id :: .gone o.id :: acts) coming := by
  have hne : ∀ o' ∈ coming, o.id ≠ o'.id := (List.pairwise_cons.mp h.coming_nodup).1
  constructor
  · grind [h.engine_of_daemon]
  · grind [h.daemon_of_engine]
  · grind [h.owed]
  · grind [h.take_daemon, h.coming_daemon]
  · grind [h.drop_engine]
  · grind [h.coming_engine]
  · grind [h.coming_daemon]
  · intro o' ho' a hact
    simp only [List.mem_cons] at hact
    rcases hact with rfl | rfl | hact
    · exact fun he => absurd he (hne o' ho')
    · exact fun he => absurd he (hne o' ho')
    · exact h.coming_acts o' (List.mem_cons_of_mem _ ho') a hact
  · exact (List.pairwise_cons.mp h.coming_nodup).2

end Mending

namespace Lists

structure Inv (s : Lists) : Prop where
  mending : Mending { id | id ∈ s.engine } { id | id ∈ s.daemon } s.owed s.acts s.coming
  paired : ∀ t ∈ s.todos, Paired t

theorem Inv.agree {s : Lists} (h : s.Inv) (hup : s.CaughtUp) : s.Agree := by
  obtain ⟨harr, hqueue, hacts⟩ := hup
  have hm := h.mending
  rw [coming, harr, hqueue, hacts] at hm
  constructor
  · intro id hid
    simpa using hm.engine_of_daemon id hid
  · intro id hid
    simpa using hm.daemon_of_engine id hid
  · refine List.eq_nil_iff_forall_not_mem.mpr fun id hid => ?_
    simpa using hm.owed id hid

theorem inv_start : ({} : Lists).Inv := by
  constructor
  · constructor <;> simp [acts, coming]
  · simp [Paired]

/-! ### One step -/

section Maps

variable (s : Lists) (id : String)

theorem engine_takeEngine :
    { x | x ∈ (s.takeEngine id).engine } = { x | x ∈ s.engine } \ {id} := by
  ext x
  simp [takeEngine, and_comm]

theorem daemon_dropDaemon :
    { x | x ∈ (s.dropDaemon id).daemon } = { x | x ∈ s.daemon } \ {id} := by
  ext x
  simp [dropDaemon, and_comm]

theorem mem_owed_takeEngine {x : String} (h : x ∈ (s.takeEngine id).owed) : x = id ∨ x ∈ s.owed := by
  simp only [takeEngine] at h
  split_ifs at h
  · exact List.mem_cons.mp h
  · exact .inr h

theorem mem_owed_dropDaemon {x : String} (h : x ∈ (s.dropDaemon id).owed) : x = id ∨ x ∈ s.owed := by
  simp only [dropDaemon] at h
  split_ifs at h
  · exact List.mem_cons.mp h
  · exact .inr h

/-- The engine's part of an accept takes the offer out and notes the download. -/
theorem acceptOffer_eq (o : Offer) :
    ∃ downloads, s.acceptOffer id o = { s.takeEngine id with downloads } := by
  simp only [acceptOffer]
  split
  · split_ifs
    · exact ⟨_, rfl⟩
    · exact ⟨_, rfl⟩
  · exact ⟨_, rfl⟩

end Maps

theorem mem_daemon_of_superseded (s : Lists) {o : Offer} {id : String}
    (h : id ∈ s.supersededIds o) : id ∈ s.daemon := by
  obtain ⟨e, he, rfl⟩ := List.mem_map.mp h
  exact List.mem_map_of_mem (List.mem_of_mem_filter he)

theorem filterMap_map_evict (ids : List String) : (ids.map Act.evict).filterMap Act.carries = [] := by
  simp [List.filterMap_eq_nil_iff, Act.carries]

theorem paired_map_evict (ids : List String) {t : List Act} (h : Paired t) :
    Paired (ids.map Act.evict ++ t) := by
  induction ids with
  | nil => exact h
  | cons id ids ih => exact ih

section Task

variable {s : Lists} {i : ℕ}

/-- What the other tasks have to do. -/
def others (s : Lists) (i : ℕ) : List Act := (s.todos.set i []).flatten

theorem acts_perm {t : List Act} (hi : s.todos[i]? = some t) : s.acts.Perm (t ++ s.others i) :=
  flatten_perm_set hi

theorem acts_set_perm {t : List Act} (hi : s.todos[i]? = some t) (new : List Act) :
    (s.todos.set i new).flatten.Perm (new ++ s.others i) := by
  have hlt := (List.getElem?_eq_some_iff.mp hi).1
  have hnew : (s.todos.set i new)[i]? = some new := by
    rw [List.getElem?_set_self hlt]
  simpa [others, List.set_set] using flatten_perm_set hnew

/-- The offers on their way, sorted by who has them. -/
theorem coming_perm {front acts : List Act} (h : s.acts.Perm (front ++ acts)) :
    s.coming.Perm (front.filterMap Act.carries ++
      (s.arriving.toList ++ s.queue.reduceOption ++ acts.filterMap Act.carries)) := by
  refine ((h.filterMap _).append_left _).trans ?_
  rw [List.filterMap_append, ← List.append_assoc, ← List.append_assoc]
  exact List.perm_append_comm.append_right _

/-- Task `i` has `new` to do instead of `a`; the maps and what is owed are as given. -/
theorem inv_next {a : Act} {rest : List Act} (h : s.Inv) (hi : s.todos[i]? = some (a :: rest))
    (s' : Lists) (new : List Act) (harr : s'.arriving = s.arriving) (hqueue : s'.queue = s.queue)
    (hmend : ∀ (acts : List Act) (coming : List Offer), (∀ x ∈ rest, x ∈ acts) →
      Mending { id | id ∈ s.engine } { id | id ∈ s.daemon } s.owed (a :: acts)
        ([a].filterMap Act.carries ++ coming) →
      Mending { id | id ∈ s'.engine } { id | id ∈ s'.daemon } s'.owed (new ++ acts)
        (new.filterMap Act.carries ++ coming))
    (hpaired : Paired (a :: rest) → Paired (new ++ rest)) :
    Inv { s' with todos := s.todos.set i (new ++ rest) } := by
  have hacts : s.acts.Perm ([a] ++ (rest ++ s.others i)) := acts_perm hi
  have hacts' : (s.todos.set i (new ++ rest)).flatten.Perm (new ++ (rest ++ s.others i)) := by
    simpa using acts_set_perm hi (new ++ rest)
  have hcoming' := coming_perm (s := { s' with todos := s.todos.set i (new ++ rest) }) hacts'
  simp only [harr, hqueue] at hcoming'
  constructor
  · have hm := hmend (rest ++ s.others i) _ (fun x hx => List.mem_append_left _ hx)
      (h.mending.perm hacts (coming_perm hacts))
    refine hm.perm hacts'.symm (hcoming'.symm.trans (List.Perm.of_eq ?_))
    simp [Lists.coming, Lists.acts, harr, hqueue]
  · refine forall_mem_set (hpaired ?_) fun k t hk _ => ?_
    · exact h.paired _ (List.mem_of_getElem? hi)
    · exact h.paired t (List.mem_of_getElem? hk)

/-- One operation of one task. -/
theorem Inv.act {a : Act} {rest : List Act} (h : s.Inv) (hi : s.todos[i]? = some (a :: rest))
    (told : Answers) : Inv { (s.exec told a).1 with
      todos := s.todos.set i ((s.exec told a).2 ++ rest) } := by
  have hpaired := h.paired _ (List.mem_of_getElem? hi)
  cases a with
  | evict id =>
      simp only [exec]
      refine inv_next h hi _ _ rfl rfl (fun acts coming _ hm => ?_) fun hp => ?_
      · rw [daemon_dropDaemon]
        have hne := hm.ne_of_mem List.mem_cons_self rfl
        exact (hm.tail (by simp)).evict hne fun x => s.mem_owed_dropDaemon id
      · exact ⟨List.mem_cons_self, hp⟩
  | take id =>
      simp only [exec]
      refine inv_next h hi _ _ rfl rfl (fun acts coming hrest hm => ?_) fun hp => hp.2
      rw [engine_takeEngine]
      exact hm.take (hrest _ hpaired.1) fun x => s.mem_owed_takeEngine id
  | drop id =>
      simp only [exec]
      refine inv_next h hi _ _ rfl rfl (fun acts coming hrest hm => ?_) fun hp => hp.2
      rw [daemon_dropDaemon]
      exact hm.drop (hrest _ hpaired.1) fun x => s.mem_owed_dropDaemon id
  | gone id =>
      simp only [exec]
      exact inv_next h hi { s with owed := s.owed.filter (· ≠ id) } [] rfl rfl
        (fun acts coming _ hm => hm.gone) fun hp => hp
  | supersede o =>
      simp only [exec]
      refine inv_next h hi _ _ rfl rfl (fun acts coming _ hm => ?_) fun hp => ?_
      · rw [List.filterMap_append, filterMap_map_evict]
        refine (hm.tail (by simp)).append ?_
        intro a ha
        rcases List.mem_append.mp ha with ha | ha
        · obtain ⟨id, hid, rfl⟩ := List.mem_map.mp ha
          exact .inr ⟨id, s.mem_daemon_of_superseded hid, rfl⟩
        · rw [List.mem_singleton.mp ha]
          exact .inl rfl
      · rw [List.append_assoc]
        exact paired_map_evict _ hp
  | settle o =>
      have hkeep {a : Act} (ha : a.carries = some o) (hp : Paired rest → Paired (a :: rest)) :
          Inv { s with todos := s.todos.set i ([a] ++ rest) } := by
        refine inv_next h hi _ _ rfl rfl (fun acts coming _ hm => ?_) fun hp' => hp hp'
        rw [show [a].filterMap Act.carries = [o] by simp [ha]]
        exact (hm.tail (by simp)).cons (.inl (by simp [ha]))
      simp only [exec]
      split_ifs
      · split
        · split_ifs
          · exact hkeep rfl id
          next offer _ _ =>
            obtain ⟨downloads, hacc⟩ := s.acceptOffer_eq o.id offer
            rw [hacc]
            refine inv_next h hi _ _ rfl rfl (fun acts coming _ hm => ?_) fun hp => hp
            rw [engine_takeEngine]
            exact (((hm.tail (by simp)).block).take List.mem_cons_self
              fun x => s.mem_owed_takeEngine o.id)
        · exact hkeep rfl id
      · exact hkeep rfl id
  | check o =>
      have hcoming : o ∈ s.coming := by
        refine List.mem_append_right _ (List.mem_filterMap.mpr ⟨.check o, ?_, rfl⟩)
        exact List.mem_flatten.mpr ⟨_, List.mem_of_getElem? hi, List.mem_cons_self⟩
      have hin : o.id ∈ s.engine := h.mending.coming_engine o hcoming
      simp only [exec, hin, if_true]
      refine inv_next h hi _ _ rfl rfl (fun acts coming _ hm => ?_) fun hp => hp
      exact (hm.tail (by simp)).cons (.inl rfl)
  | park o =>
      simp only [exec]
      refine inv_next h hi { s with daemon := s.daemon.insert o.id o } [] rfl rfl
        (fun acts coming _ hm => ?_) fun hp => hp
      have hset : { x | x ∈ s.daemon.insert o.id o } = insert o.id { x | x ∈ s.daemon } := by
        ext x
        simp
      rw [hset]
      exact (hm.tail (by simp)).park

/-- The intake task hears the next event. -/
theorem Inv.hear (h : s.Inv) (h0 : s.todos[0]? = some []) {o : Offer} {queue : List (Option Offer)}
    (hqueue : s.queue = some o :: queue) (blocked : Bool) :
    Inv { s with
      queue
      todos := s.todos.set 0 (if blocked then [.take o.id, .gone o.id] else [.supersede o]) } := by
  have hold : Mending { id | id ∈ s.engine } { id | id ∈ s.daemon } s.owed (s.others 0)
      (o :: (s.arriving.toList ++ queue.reduceOption ++ (s.others 0).filterMap Act.carries)) := by
    refine h.mending.perm (acts_perm h0) ((coming_perm (acts_perm h0)).trans ?_)
    rw [hqueue, List.reduceOption_cons_of_some]
    simp only [List.filterMap_nil, List.nil_append, List.append_assoc]
    exact List.perm_middle
  have hpaired {t : List Act} (ht : Paired t) : ∀ u ∈ s.todos.set 0 t, Paired u :=
    forall_mem_set ht fun k u hk _ => h.paired u (List.mem_of_getElem? hk)
  cases blocked with
  | true =>
      have hacts := acts_set_perm h0 [.take o.id, .gone o.id]
      constructor
      · exact hold.block.perm hacts.symm (coming_perm
          (s := { s with queue, todos := s.todos.set 0 [.take o.id, .gone o.id] }) hacts).symm
      · exact hpaired ⟨List.mem_cons_self, trivial⟩
  | false =>
      have hacts := acts_set_perm h0 [.supersede o]
      constructor
      · exact (hold.cons (a := .supersede o) (.inl rfl)).perm hacts.symm (coming_perm
          (s := { s with queue, todos := s.todos.set 0 [.supersede o] }) hacts).symm
      · exact hpaired trivial

theorem Inv.next (h : s.Inv) (i : ℕ) (told : Answers) : (s.next i told).Inv := by
  unfold Lists.next
  split
  next a rest hi => exact h.act hi told
  next hi =>
    split
    next hq => exact h.hear hi hq told.blocked
    next queue hq =>
      refine ⟨h.mending.perm (List.Perm.refl _) (List.Perm.of_eq ?_), h.paired⟩
      simp [coming, acts, hq, List.reduceOption_cons_of_none]
    · exact h
  · exact h

end Task

/-! ### Front-ends and the inbox -/

section Steps

variable {s : Lists}

theorem acts_append (s' : Lists) (t : List Act) :
    ({ s' with todos := s'.todos ++ [t] } : Lists).acts.Perm (t ++ s'.acts) := by
  simpa [acts] using List.perm_append_comm

/-- A new task, with nothing on its way. -/
theorem coming_append (s' : Lists) {t : List Act} (ht : t.filterMap Act.carries = []) :
    ({ s' with todos := s'.todos ++ [t] } : Lists).coming = s'.coming := by
  simp [coming, acts, ht]

theorem Inv.accept (h : s.Inv) {id : String} {password p2p : Bool}
    (hcalm : s.Calm (.accept id password p2p)) : (s.accept id password p2p).Inv := by
  have hne : ∀ o ∈ s.coming, o.id ≠ id := fun o ho he => hcalm (List.mem_map.mpr ⟨o, ho, he⟩)
  unfold Lists.accept
  split
  next o _ =>
    split_ifs
    · exact h
    · obtain ⟨downloads, hacc⟩ := s.acceptOffer_eq id o
      simp only [hacc]
      constructor
      · refine Mending.perm ?_ (acts_append _ _).symm (List.Perm.of_eq (coming_append _ rfl).symm)
        change Mending { x | x ∈ (s.takeEngine id).engine } _ _ _ s.coming
        rw [engine_takeEngine]
        exact h.mending.accept hne fun x => s.mem_owed_takeEngine id
      · intro t ht
        rcases List.mem_append.mp ht with ht | ht
        · exact h.paired t ht
        · rw [List.mem_singleton.mp ht]
          exact ⟨List.mem_cons_self, trivial⟩
  · exact h

theorem Inv.reject (h : s.Inv) {id : String} (hcalm : s.Calm (.reject id)) :
    (s.reject id).Inv := by
  have hne : ∀ o ∈ s.coming, o.id ≠ id := fun o ho he => hcalm (List.mem_map.mpr ⟨o, ho, he⟩)
  unfold Lists.reject
  constructor
  · refine Mending.perm ?_ (acts_append _ _).symm (List.Perm.of_eq (coming_append _ rfl).symm)
    change Mending _ { x | x ∈ (s.dropDaemon id).daemon } _ _ s.coming
    rw [daemon_dropDaemon]
    exact h.mending.evict hne fun x => s.mem_owed_dropDaemon id
  · intro t ht
    rcases List.mem_append.mp ht with ht | ht
    · exact h.paired t ht
    · rw [List.mem_singleton.mp ht]
      exact ⟨List.mem_cons_self, trivial⟩

theorem Inv.arrive (h : s.Inv) {o : Offer} (hcalm : s.Calm (.arrive o)) : (s.arrive o).Inv := by
  unfold Lists.arrive
  split_ifs with hskip
  · exact h
  simp only
  split_ifs with hdown
  · -- nothing of the same content was waiting
    have hdown' : s.downloading o = true := hdown
    have hnone : s.sameContent o = [] := by
      rcases hcalm with hseen | hcalm
      · exact absurd (.inr hseen) hskip
      · rwa [if_pos hdown'] at hcalm
    have hnone' : ({ s with seen := o.id :: s.seen } : Lists).sameContent o = [] := hnone
    rw [hnone']
    exact ⟨h.mending, h.paired⟩
  · have hdown' : ¬ s.downloading o = true := hdown
    have hfree : ¬ s.Busy o.id := by
      rcases hcalm with hseen | hcalm
      · exact absurd (.inr hseen) hskip
      · rwa [if_neg hdown'] at hcalm
    simp only [Busy, not_or] at hfree
    obtain ⟨-, hdaemon, hcoming, hacts⟩ := hfree
    have harr : s.arriving = none := by
      cases harr : s.arriving with
      | none => rfl
      | some o' => exact absurd (.inl (by simp [harr])) hskip
    constructor
    · have hset : { x | x ∈ s.engine.insert o.id o } = insert o.id { x | x ∈ s.engine } := by
        ext x
        simp
      have hc : Lists.coming
          { s with
            seen := o.id :: s.seen
            engine := s.engine.insert o.id o
            arriving := some o } = o :: s.coming := by
        simp [coming, acts, harr]
      rw [hc]
      change Mending { x | x ∈ s.engine.insert o.id o } _ _ s.acts _
      rw [hset]
      refine h.mending.arrive hdaemon ?_ ?_
      · exact fun o' ho' he => hcoming (List.mem_map.mpr ⟨o', ho', he⟩)
      · exact fun a ha he => hacts (List.mem_map.mpr ⟨a, ha, he⟩)
    · exact h.paired

/-- No offer is lost on the way to the intake task. -/
theorem reduceOption_emit (ev : Option Offer)
    (hcalm : s.queue.length < channelCapacity ∨ s.queue.head? = some none) :
    (s.emit ev).queue.reduceOption = s.queue.reduceOption ++ ev.toList := by
  have hold : (if s.queue.length < channelCapacity then s.queue else s.queue.tail).reduceOption =
      s.queue.reduceOption := by
    split_ifs with hlen
    · rfl
    · cases hq : s.queue with
      | nil => rfl
      | cons e q =>
          rcases hcalm with hcalm | hcalm
          · exact absurd hcalm hlen
          · obtain rfl : e = none := by simpa [hq] using hcalm
            rw [List.tail_cons, List.reduceOption_cons_of_none]
  have hev : [ev].reduceOption = ev.toList := by
    cases ev with
    | none => rfl
    | some o => rfl
  rw [Lists.emit, List.reduceOption_append, hold, hev]

theorem Inv.announce (h : s.Inv) (hcalm : s.Calm .announce) : s.announce.Inv := by
  unfold Lists.announce
  split
  · exact h
  next o harr =>
    have hq := reduceOption_emit (s := { s with arriving := none }) (some o) hcalm
    refine ⟨h.mending.perm (List.Perm.refl _) ?_, h.paired⟩
    simp only [coming, harr]
    rw [hq]
    refine List.Perm.append_right _ ?_
    exact List.perm_append_comm

theorem Inv.other (h : s.Inv) (hcalm : s.Calm .other) : (s.emit none).Inv := by
  have hq := reduceOption_emit none hcalm
  refine ⟨h.mending.perm (List.Perm.refl _) (List.Perm.of_eq ?_), h.paired⟩
  simp only [coming]
  rw [hq]
  simp [Lists.emit, acts]

theorem Inv.step (h : s.Inv) {e : OfferEvent} (hcalm : s.Calm e) : (s.step e).Inv := by
  cases e with
  | poll =>
      simp only [Lists.step, Lists.poll]
      split_ifs
      · exact ⟨h.mending, h.paired⟩
      · exact h
  | arrive o => exact h.arrive hcalm
  | announce => exact h.announce hcalm
  | other => exact h.other hcalm
  | next i told => exact h.next i told
  | accept id password p2p => exact h.accept hcalm
  | reject id => exact h.reject hcalm
  | startDownload content peer => exact ⟨h.mending, h.paired⟩
  | endDownload content peer => exact ⟨h.mending, h.paired⟩

/-- In every calm run, whenever the intake task has caught up, the two lists agree
and every id that left one has been announced. -/
theorem agree_of_calm (es : List OfferEvent) (hcalm : Along step Calm {} es)
    (hup : (es.foldl step {}).CaughtUp) : (es.foldl step {}).Agree :=
  (hcalm.foldl_inv Inv (fun _ _ h hc => h.step hc) inv_start).agree hup

end Steps

/-! ### Two runs -/

/-- A file somebody offers. -/
def aFile : Offer := ⟨"a", "mallory", "notes", some 1, true, false⟩

/-- The offer arrives and is parked. -/
def parked : List OfferEvent :=
  [.arrive aFile, .announce, .next 0 {}, .next 0 {}, .next 0 {}, .next 0 {}]

/-- The file is fetched by its ticket, and the sender posts it again. -/
def repostedRun : List OfferEvent :=
  parked ++ [.startDownload 1 none, .arrive { aFile with id := "b" }]

/-- The sender posts it again, and the second offer is accepted. -/
def acceptedRun : List OfferEvent :=
  parked ++ [.arrive { aFile with id := "b" }, .announce, .next 0 {}, .next 0 {}, .next 0 {},
    .next 0 {}, .next 0 {}, .next 0 {}, .next 0 {}, .accept "b" false true, .next 1 {}, .next 1 {}]

theorem acceptedRun_agrees : (acceptedRun.foldl step {}).Agree :=
  agree_of_calm acceptedRun (by decide +kernel) (by
    refine ⟨?_, ?_, ?_⟩ <;> decide +kernel)

theorem not_agree : ¬ ∀ es : List OfferEvent,
    (es.foldl step {}).CaughtUp → (es.foldl step {}).Agree := by
  intro h
  have hup : (repostedRun.foldl step {}).CaughtUp := by
    refine ⟨?_, ?_, ?_⟩ <;> decide +kernel
  have hin : "a" ∈ (repostedRun.foldl step {}).daemon := by decide +kernel
  have hout : "a" ∉ (repostedRun.foldl step {}).engine := by decide +kernel
  exact hout ((h repostedRun hup).engine_of_daemon "a" hin)

end Lists

end Arvolo.Engine
