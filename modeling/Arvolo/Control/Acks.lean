import Arvolo.Lib.Machine
import Arvolo.Recv.Bitfield

/-!
The control channel: how a sender learns what a receiver has, `core/src/flow/ctrl.rs`
and `CtrlHandler` of `core/src/chunked.rs`.

The receiver sets a piece's bit and then queues an ack. Its supervisor keeps a
connection to the sender; each time one comes up it replays the whole bitfield,
and then it passes the queue on. An ack taken from the queue when the connection
breaks is lost, and the next replay makes up for it. When the download is over the
queue is closed, and the supervisor drains it, finishes the stream and ends.
-/

namespace Arvolo.Control

open Crypto Lib Recv

/-! ### The sender -/

/-- A receiver, by its endpoint id. -/
abbrev Peer := String

/-- The receiver's messages. -/
inductive CtrlMsg
  | hello
  | ping
  | have_ (idx : ℕ)
  | abort
  deriving DecidableEq

structure Sender where
  total : ℕ
  /-- The receivers with an entry, and what each has acked. -/
  peers : List Peer := []
  delivered : Peer → Finset ℕ := fun _ => ∅
  /-- Each departure, with the pieces the receiver still lacked. -/
  gone : List (Peer × List ℕ) := []
  aborts : List Peer := []
  known : ∀ p, (delivered p).Nonempty → p ∈ peers := by simp

namespace Sender

theorem known_start : ∀ p, ((fun _ => ∅ : Peer → Finset ℕ) p).Nonempty → p ∈ ([] : List Peer) := by
  simp

variable (s : Sender)

/-- `CtrlHandler` reads a message. An ack out of range is dropped. -/
def read (peer : Peer) : CtrlMsg → Sender
  | .have_ idx =>
      if idx < s.total then
        { s with
          peers := if peer ∈ s.peers then s.peers else peer :: s.peers
          delivered := Function.update s.delivered peer (insert idx (s.delivered peer))
          known := fun p hp => by
            by_cases hpeer : p = peer
            · subst hpeer
              split_ifs with hmem
              · exact hmem
              · exact List.mem_cons_self
            · rw [Function.update_of_ne hpeer] at hp
              split_ifs
              · exact s.known p hp
              · exact List.mem_cons_of_mem _ (s.known p hp) }
      else s
  | .abort => { s with aborts := peer :: s.aborts }
  | .hello => s
  | .ping => s

def undelivered (peer : Peer) : List ℕ := (List.range s.total).filter (· ∉ s.delivered peer)

/-- The receiver is gone: report what it lacks. -/
def depart (peer : Peer) : Sender := { s with gone := s.gone ++ [(peer, s.undelivered peer)] }

/-- The receivers that have acked every piece; none of a payload without pieces. -/
def completedPeers : List Peer :=
  if s.total = 0 then [] else s.peers.filter fun p => s.total ≤ (s.delivered p).card

/-- A sender that was restarted remembers nobody. -/
def restart : Sender := { total := s.total }

end Sender

/-! ### The receiver -/

/-- Where the supervisor is. -/
inductive Phase
  | dialing
  | connected
  /-- Acking the bits that were set when the connection came up. -/
  | replaying (todo : List ℕ)
  | serving
  /-- It has ended through `Control::finish`. -/
  | finished
  /-- It was cancelled. -/
  | stopped
  deriving DecidableEq

/-- What is still to be replayed; nothing is promised before the snapshot. -/
def Phase.todo : Phase → Option (List ℕ)
  | .replaying todo => some todo
  | .serving => some []
  | .finished => some []
  | _ => none

/-- The connection the supervisor opened last. -/
structure Link where
  /-- Messages written and not read yet. -/
  wire : List CtrlMsg
  /-- Whether it is still the way to the session that accepted it. -/
  live : Bool
  /-- Whether the sender has seen it end. -/
  ended : Bool := false

structure State where
  peer : Peer
  bits : Bytes
  /-- A piece whose bit is set and whose ack is not queued yet. -/
  unqueued : Option ℕ := none
  queue : List ℕ := []
  /-- Whether the download still holds its end of the queue. -/
  running : Bool := true
  phase : Phase := .dialing
  link : Link := ⟨[], false, false⟩
  /-- Messages of connections that were given up, which may still be read. -/
  stale : List CtrlMsg := []
  sender : Sender

namespace State

variable (s : State)

def write (msg : CtrlMsg) : State := { s with link := { s.link with wire := s.link.wire ++ [msg] } }

/-- Give the connection up and dial again. -/
def redial : State := { s with phase := .dialing, link := { s.link with live := false } }

/-- The indices set in the bitfield. -/
def already : List ℕ := (List.range (8 * s.bits.length)).filter (bitfieldHas s.bits)

inductive Event
  /-- A piece is committed: its bit is set, and then its ack is queued. -/
  | set (i : ℕ)
  | ack
  /-- The download is over. -/
  | close
  | connect
  | snapshot
  /-- The next ack is written to the connection, or fails. -/
  | replay (ok : Bool)
  | serve
  | pass (ok : Bool)
  | finish
  /-- The supervisor sees the connection closed. -/
  | closed
  | ping
  /-- The connection breaks: what was on its way is lost, or still trickles in. -/
  | drop (late : Bool)
  /-- The sender reads the next message, or one of an older connection. -/
  | deliver
  | deliverStale
  /-- The sender has read the stream to its end, or has heard nothing for too long
  and closes the connection. -/
  | depart
  /-- Another receiver's message. -/
  | other (peer : Peer) (msg : CtrlMsg)
  | restart
  | cancel (abort : Bool)

def step (s : State) : Event → State
  | .set i =>
      if s.running ∧ s.unqueued = none ∧ i < s.sender.total then
        { s with bits := bitfieldSet s.bits i, unqueued := some i }
      else s
  | .ack =>
      match s.unqueued with
      | some i => { s with queue := s.queue ++ [i], unqueued := none }
      | none => s
  | .close => if s.unqueued = none then { s with running := false } else s
  | .connect =>
      match s.phase with
      | .dialing => { s with phase := .connected, link := ⟨[.hello], true, false⟩ }
      | _ => s
  | .snapshot =>
      match s.phase with
      | .connected => { s with phase := .replaying s.already }
      | _ => s
  | .replay ok =>
      match s.phase with
      | .replaying (i :: todo) =>
          if ok then { s.write (.have_ i) with phase := .replaying todo } else s.redial
      | _ => s
  | .serve =>
      match s.phase with
      | .replaying [] => { s with phase := .serving }
      | _ => s
  | .pass ok =>
      match s.phase, s.queue with
      | .serving, i :: queue =>
          if ok then { s.write (.have_ i) with queue } else { s.redial with queue }
      | _, _ => s
  | .finish =>
      match s.phase, s.queue, s.running with
      | .serving, [], false => { s with phase := .finished }
      | _, _, _ => s
  | .closed =>
      match s.phase with
      | .serving => if s.link.live then s else s.redial
      | _ => s
  | .ping =>
      match s.phase with
      | .replaying _ => s.write .ping
      | .serving => s.write .ping
      | _ => s
  | .drop late =>
      { s with
        link := { s.link with wire := [], live := false }
        stale := if late then s.stale ++ s.link.wire else s.stale }
  | .deliver =>
      match s.link.wire, s.link.live with
      | msg :: wire, true =>
          { s with link := { s.link with wire }, sender := s.sender.read s.peer msg }
      | _, _ => s
  | .deliverStale =>
      match s.stale with
      | msg :: stale => { s with stale, sender := s.sender.read s.peer msg }
      | [] => s
  | .depart =>
      if s.link.ended ∨ (s.link.live ∧ s.link.wire ≠ []) then s
      else
        { s with
          link := { s.link with ended := true, live := s.link.live && s.phase == .finished }
          sender := s.sender.depart s.peer }
  | .other peer msg => if peer = s.peer then s else { s with sender := s.sender.read peer msg }
  | .restart =>
      { s with
        sender := s.sender.restart
        link := { s.link with wire := [], live := false }
        stale := [] }
  | .cancel abort =>
      match s.phase with
      | .finished => s
      | _ =>
          let s := if abort then s.write .abort else s
          { s with phase := .stopped }

/-- The receiver starts with the bits it restored, the sender with whatever it
remembers of it and of others. -/
def start (peer : Peer) (bits : Bytes) (sender : Sender) : State := { peer, bits, sender }

def run (peer : Peer) (bits : Bytes) (sender : Sender) (es : List Event) : State :=
  es.foldl step (start peer bits sender)

attribute [local simp] step

/-! ### Nothing falls through -/

variable {s}

/-- The sender has recorded the ack, or it is on its way. -/
def Told (s : State) (i : ℕ) : Prop :=
  .have_ i ∈ s.link.wire ∨ i ∈ s.sender.delivered s.peer

/-- The ack is queued, or will be. -/
def Due (s : State) (i : ℕ) : Prop := i ∈ s.queue ∨ s.unqueued = some i

/-- Every set bit is told, due, or still to be replayed on the connection. -/
structure Covered (s : State) : Prop where
  quiet : s.running = false → s.unqueued = none
  spent : s.phase = .finished → s.running = false ∧ s.queue = []
  cover : ∀ todo, s.phase.todo = some todo → s.link.live = true → ∀ i < s.sender.total,
    bitfieldHas s.bits i = true → i ∈ todo ∨ s.Told i ∨ s.Due i

theorem covered_start (peer : Peer) (bits : Bytes) (sender : Sender) :
    (start peer bits sender).Covered where
  quiet h := by cases h
  spent h := by cases h
  cover _ h := by cases h

/-- Reading a message forgets nothing. -/
theorem mem_delivered_read {sender : Sender} {p q : Peer} {msg : CtrlMsg} {i : ℕ}
    (h : i ∈ sender.delivered q) : i ∈ (sender.read p msg).delivered q := by
  cases msg with
  | have_ idx =>
      by_cases hidx : idx < sender.total
      · by_cases hq : q = p
        · subst hq
          simp [Sender.read, hidx, h]
        · simpa [Sender.read, hidx, Function.update_of_ne hq] using h
      · simpa [Sender.read, hidx] using h
  | hello => exact h
  | ping => exact h
  | abort => exact h

theorem delivered_read_have {sender : Sender} {p : Peer} {i : ℕ} (h : i < sender.total) :
    i ∈ (sender.read p (.have_ i)).delivered p := by
  simp [Sender.read, h]

@[simp] theorem total_read (sender : Sender) (p : Peer) (msg : CtrlMsg) :
    (sender.read p msg).total = sender.total := by
  cases msg with
  | have_ idx =>
      simp only [Sender.read]
      split_ifs <;> rfl
  | hello => rfl
  | ping => rfl
  | abort => rfl

/-- A message read from anywhere keeps the cover. -/
theorem Covered.read (h : s.Covered) (p : Peer) (msg : CtrlMsg) {stale : List CtrlMsg} :
    Covered { s with stale, sender := s.sender.read p msg } where
  quiet := h.quiet
  spent := h.spent
  cover todo ht hlive i hi hbit := by
    rw [total_read] at hi
    rcases h.cover todo ht hlive i hi hbit with hmem | hwire | hdue
    · exact .inl hmem
    · exact .inr (.inl (hwire.imp_right mem_delivered_read))
    · exact .inr (.inr hdue)

/-- A message written to the connection keeps the cover. -/
theorem Told.write {i : ℕ} (h : s.Told i) (msg : CtrlMsg) : (s.write msg).Told i :=
  h.imp_left fun hwire => List.mem_append_left _ hwire

theorem told_write (i : ℕ) : (s.write (.have_ i)).Told i :=
  .inl (List.mem_append_right _ List.mem_cons_self)

theorem Covered.write (h : s.Covered) (msg : CtrlMsg) : (s.write msg).Covered where
  quiet := h.quiet
  spent := h.spent
  cover todo ht hlive i hi hbit := by
    rcases h.cover todo ht hlive i hi hbit with hmem | htold | hdue
    · exact .inl hmem
    · exact .inr (.inl (htold.write msg))
    · exact .inr (.inr hdue)

/-- Without a connection nothing is owed. -/
theorem Covered.dead {s' : State} (hquiet : s'.running = false → s'.unqueued = none)
    (hspent : s'.phase = .finished → s'.running = false ∧ s'.queue = [])
    (hdead : s'.phase.todo = none ∨ s'.link.live = false) : s'.Covered where
  quiet := hquiet
  spent := hspent
  cover todo ht hlive := by
    rcases hdead with hphase | hlink
    · rw [hphase] at ht
      cases ht
    · rw [hlink] at hlive
      cases hlive

theorem Covered.set (h : s.Covered) (i : ℕ) : (s.step (.set i)).Covered := by
  simp only [step]
  split_ifs with hset
  · refine ⟨fun hrun => ?_, fun hp => ?_, fun todo ht hlive k hk hbit => ?_⟩
    · rw [show s.running = false from hrun] at hset
      exact absurd hset.1 (by simp)
    · exact absurd hset.1 (by simp [(h.spent hp).1])
    · rcases bitfieldHas_of_set hbit with hold | rfl
      · rcases h.cover todo ht hlive k hk hold with hmem | htold | hq | hu
        · exact .inl hmem
        · exact .inr (.inl htold)
        · exact .inr (.inr (.inl hq))
        · rw [hset.2.1] at hu
          cases hu
      · exact .inr (.inr (.inr rfl))
  · exact h

theorem Covered.ack (h : s.Covered) : (s.step .ack).Covered := by
  simp only [step]
  split
  · rename_i i hi
    refine ⟨fun _ => rfl, fun hp => ?_, fun todo ht hlive k hk hbit => ?_⟩
    · rw [h.quiet (h.spent hp).1] at hi
      cases hi
    · rcases h.cover todo ht hlive k hk hbit with hmem | htold | hq | hu
      · exact .inl hmem
      · exact .inr (.inl htold)
      · exact .inr (.inr (.inl (List.mem_append_left _ hq)))
      · obtain rfl := Option.some.inj (hi.symm.trans hu)
        exact .inr (.inr (.inl (List.mem_append_right _ List.mem_cons_self)))
  · exact h

/-- The replay starts from everything that is set. -/
theorem Covered.snapshot (h : s.Covered) : (s.step .snapshot).Covered := by
  simp only [step]
  split
  · refine ⟨h.quiet, fun hp => (by cases hp), fun todo ht _ i _ hbit => .inl ?_⟩
    obtain rfl := Option.some.inj ht
    exact List.mem_filter.mpr ⟨List.mem_range.mpr (lt_of_bitfieldHas hbit), hbit⟩
  · exact h

theorem covered_redial {s' : State} (hquiet : s'.running = false → s'.unqueued = none)
    (hphase : s'.phase = .dialing) : s'.Covered := by
  refine .dead hquiet (fun hp => ?_) (.inl ?_)
  · rw [hphase] at hp
    cases hp
  · rw [hphase]
    rfl

theorem Covered.replay (h : s.Covered) (ok : Bool) : (s.step (.replay ok)).Covered := by
  simp only [step]
  split
  · rename_i i todo hphase
    split_ifs
    · refine ⟨h.quiet, fun hp => (by cases hp), fun todo' ht hlive k hk hbit => ?_⟩
      obtain rfl := Option.some.inj ht
      rcases h.cover (i :: todo) (by rw [hphase]; rfl) hlive k hk hbit with hmem | htold | hdue
      · rcases List.mem_cons.mp hmem with rfl | hmem
        · exact .inr (.inl (told_write k))
        · exact .inl hmem
      · exact .inr (.inl (htold.write _))
      · exact .inr (.inr hdue)
    · exact covered_redial h.quiet rfl
  · exact h

theorem Covered.pass (h : s.Covered) (ok : Bool) : (s.step (.pass ok)).Covered := by
  simp only [step]
  split
  · rename_i i queue hphase hqueue
    split_ifs
    · refine ⟨h.quiet, fun hp => ?_, fun todo ht hlive k hk hbit => ?_⟩
      · rw [show s.phase = .finished from hp] at hphase
        cases hphase
      · rcases h.cover todo ht hlive k hk hbit with hmem | htold | hq | hu
        · exact .inl hmem
        · exact .inr (.inl (htold.write _))
        · rw [hqueue] at hq
          rcases List.mem_cons.mp hq with rfl | hq
          · exact .inr (.inl (told_write k))
          · exact .inr (.inr (.inl hq))
        · exact .inr (.inr (.inr hu))
    · exact covered_redial h.quiet rfl
  · exact h

theorem Covered.deliver (h : s.Covered) : (s.step .deliver).Covered := by
  simp only [step]
  split
  · rename_i msg wire hwire hlive
    refine ⟨h.quiet, h.spent, fun todo ht hlive' i hi hbit => ?_⟩
    rw [total_read] at hi
    rcases h.cover todo ht hlive i hi hbit with hmem | (hw | hd) | hdue
    · exact .inl hmem
    · right
      left
      rw [hwire] at hw
      rcases List.mem_cons.mp hw with rfl | hw
      · exact .inr (delivered_read_have hi)
      · exact .inl hw
    · exact .inr (.inl (.inr (mem_delivered_read hd)))
    · exact .inr (.inr hdue)
  · exact h

theorem Covered.step (h : s.Covered) (e : Event) : (s.step e).Covered := by
  cases e with
  | set i => exact h.set i
  | ack => exact h.ack
  | close =>
      simp only [State.step]
      split_ifs with hu
      · exact ⟨fun _ => hu, fun hp => ⟨rfl, (h.spent hp).2⟩, h.cover⟩
      · exact h
  | connect =>
      simp only [State.step]
      split
      · exact .dead h.quiet (fun hp => by cases hp) (.inl rfl)
      · exact h
  | snapshot => exact h.snapshot
  | replay ok => exact h.replay ok
  | serve =>
      simp only [State.step]
      split
      · rename_i hphase
        refine ⟨h.quiet, fun hp => (by cases hp), fun todo ht hlive => ?_⟩
        obtain rfl := Option.some.inj ht
        exact h.cover [] (by rw [hphase]; rfl) hlive
      · exact h
  | pass ok => exact h.pass ok
  | finish =>
      simp only [State.step]
      split
      · rename_i hphase hqueue hrun
        refine ⟨h.quiet, fun _ => ⟨hrun, hqueue⟩, fun todo ht hlive => ?_⟩
        obtain rfl := Option.some.inj ht
        exact h.cover [] (by rw [hphase]; rfl) hlive
      · exact h
  | closed =>
      simp only [State.step]
      split
      · split_ifs
        · exact h
        · exact covered_redial h.quiet rfl
      · exact h
  | ping =>
      simp only [State.step]
      split
      · exact h.write .ping
      · exact h.write .ping
      · exact h
  | drop late => exact .dead h.quiet h.spent (.inr rfl)
  | deliver => exact h.deliver
  | deliverStale =>
      simp only [State.step]
      split
      · exact h.read s.peer _
      · exact h
  | depart =>
      simp only [State.step]
      split_ifs
      · exact h
      · refine ⟨h.quiet, h.spent, fun todo ht hlive i hi hbit => ?_⟩
        exact h.cover todo ht (Bool.and_eq_true _ _ |>.mp hlive).1 i hi hbit
  | other peer msg =>
      simp only [State.step]
      split_ifs
      · exact h
      · exact h.read peer msg
  | restart => exact .dead h.quiet h.spent (.inr rfl)
  | cancel abort =>
      simp only [State.step]
      split
      · exact h
      · refine .dead ?_ (fun hp => by cases hp) (.inl rfl)
        cases abort with
        | true => exact h.quiet
        | false => exact h.quiet

theorem covered_run (peer : Peer) (bits : Bytes) (sender : Sender) (es : List Event) :
    (run peer bits sender es).Covered :=
  foldl_inv Covered (fun _ e h => h.step e) (covered_start peer bits sender) es

/-! ### The end of a download -/

theorem mem_completedPeers {sender : Sender} {p : Peer} (hpos : 0 < sender.total)
    (h : ∀ i < sender.total, i ∈ sender.delivered p) : p ∈ sender.completedPeers := by
  have hsub : Finset.range sender.total ⊆ sender.delivered p :=
    fun i hi => h i (Finset.mem_range.mp hi)
  have hcard := Finset.card_le_card hsub
  rw [Finset.card_range] at hcard
  rw [Sender.completedPeers, if_neg hpos.ne']
  exact List.mem_filter.mpr ⟨sender.known p ⟨0, h 0 hpos⟩, by simpa using hcard⟩

theorem undelivered_eq_nil {sender : Sender} {p : Peer}
    (h : ∀ i < sender.total, i ∈ sender.delivered p) : sender.undelivered p = [] := by
  rw [Sender.undelivered, List.filter_eq_nil_iff]
  intro i hi
  simpa using h i (List.mem_range.mp hi)

/-- Once the supervisor has ended through `finish` and the sender has read all of
that connection, the sender has an ack of every piece of the transfer whose bit is
set; a receiver that has them all counts as completed, and departs with an empty
tail. -/
theorem finish_informs (peer : Peer) (bits : Bytes) (sender : Sender) (es : List Event)
    (hphase : (run peer bits sender es).phase = .finished)
    (hlive : (run peer bits sender es).link.live = true)
    (hwire : (run peer bits sender es).link.wire = []) :
    (∀ i < (run peer bits sender es).sender.total,
      bitfieldHas (run peer bits sender es).bits i = true →
        i ∈ (run peer bits sender es).sender.delivered (run peer bits sender es).peer) ∧
    ((∀ i < (run peer bits sender es).sender.total,
        bitfieldHas (run peer bits sender es).bits i = true) →
      (0 < (run peer bits sender es).sender.total →
        (run peer bits sender es).peer ∈ (run peer bits sender es).sender.completedPeers) ∧
      ((run peer bits sender es).sender.depart (run peer bits sender es).peer).gone =
        (run peer bits sender es).sender.gone ++ [((run peer bits sender es).peer, [])]) := by
  have hcov := covered_run peer bits sender es
  obtain ⟨hrun, hqueue⟩ := hcov.spent hphase
  have hall : ∀ i < (run peer bits sender es).sender.total,
      bitfieldHas (run peer bits sender es).bits i = true →
        i ∈ (run peer bits sender es).sender.delivered (run peer bits sender es).peer := by
    intro i hi hbit
    rcases hcov.cover [] (by rw [hphase]; rfl) hlive i hi hbit with hmem | (hw | hd) | (hq | hu)
    · cases hmem
    · rw [hwire] at hw
      cases hw
    · exact hd
    · rw [hqueue] at hq
      cases hq
    · rw [hcov.quiet hrun] at hu
      cases hu
  refine ⟨hall, fun hfull => ⟨fun hpos => ?_, ?_⟩⟩
  · exact mem_completedPeers hpos fun i hi => hall i hi (hfull i hi)
  · rw [Sender.depart, undelivered_eq_nil fun i hi => hall i hi (hfull i hi)]

/-- A restored piece, a commit before the connection and one after; the first
connection breaks with an ack taken from the queue. -/
def brokenRun : List Event :=
  [.set 1, .ack, .connect, .snapshot, .replay true, .replay true, .serve, .deliver, .pass false,
    .drop false, .connect, .snapshot, .set 2, .ack, .replay true, .replay true, .serve, .pass true,
    .close, .finish, .deliver, .deliver, .deliver, .deliver]

theorem brokenRun_informs :
    (run "phone" [1] { total := 3 } brokenRun).peer ∈
      (run "phone" [1] { total := 3 } brokenRun).sender.completedPeers := by
  have hphase : (run "phone" [1] { total := 3 } brokenRun).phase = .finished := by decide +kernel
  have hlive : (run "phone" [1] { total := 3 } brokenRun).link.live = true := by decide +kernel
  have hwire : (run "phone" [1] { total := 3 } brokenRun).link.wire = [] := by decide +kernel
  have hfull : ∀ i < (run "phone" [1] { total := 3 } brokenRun).sender.total,
      bitfieldHas (run "phone" [1] { total := 3 } brokenRun).bits i = true := by decide +kernel
  exact ((finish_informs "phone" [1] { total := 3 } brokenRun hphase hlive hwire).2 hfull).1
    (by decide +kernel)

/-- A payload without pieces: the receiver is done, and not among the completed. -/
def emptyRun : List Event := [.connect, .snapshot, .serve, .close, .finish, .deliver]

theorem not_completed_empty :
    (run "phone" [] { total := 0 } emptyRun).phase = .finished ∧
      (run "phone" [] { total := 0 } emptyRun).link.live = true ∧
      (run "phone" [] { total := 0 } emptyRun).link.wire = [] ∧
      (∀ i < (run "phone" [] { total := 0 } emptyRun).sender.total,
        bitfieldHas (run "phone" [] { total := 0 } emptyRun).bits i = true) ∧
      "phone" ∉ (run "phone" [] { total := 0 } emptyRun).sender.completedPeers := by
  decide +kernel

end State

end Arvolo.Control
