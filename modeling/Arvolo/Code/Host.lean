import Arvolo.Lib.Machine

/-!
The host of a pairing code (`core/src/code.rs`, `CodeHost::run` and `answer`).

The host polls its slot for sessions and answers them one at a time: it reads the
receiver's PAKE message (`r.`), posts its own (`s.`), reads the confirmation (`c.`) and
posts the sealed payload or, for a wrong confirmation, noise (`t.`). Each request is a step
of its own, and the process may die between any two. The key exchange is a parameter; the
payload, its reply and the events for the interface are left out, and so is the wait of
`drain`, which only delays the end of a run.
-/

namespace Arvolo.Code

abbrev Bytes := List UInt8

/-- The counters the caller persists. With a limit they stay below it, so that the `u32`
never wraps. -/
structure HostState where
  sessionsDone : ℕ := 0
  failures : ℕ := 0
  deriving DecidableEq, Repr

structure HostOpts where
  maxSessions : Option ℕ := some 1
  maxFailures : ℕ := 3
  deriving DecidableEq, Repr

/-- The symmetric key exchange and the confirmation derived from its key; `start` takes the
random scalar. -/
structure Pake where
  start : Bytes → Bytes
  finish : Bytes → Bytes → Option Bytes
  confirmMac : Bytes → String → Bytes

/-- One receiver's exchange. `reflected` records whether the message read was one the host
itself had put on the relay; the host cannot see it. -/
structure Session where
  sid : String
  scalar : Bytes
  mr : Bytes
  reflected : Bool
  got : Option Bytes := none
  deriving DecidableEq, Repr

/-- The fate of a post: the relay may take it and its answer get lost. -/
inductive Put
  | landed
  | unanswered
  | failed
  deriving DecidableEq, Repr

namespace Put

def lands : Put → Bool
  | .failed => false
  | _ => true

end Put

/-- Where a run stands: the request it makes next, or the counter it writes next. -/
inductive Stage
  | polling
  | listed
  | reading (sid : String)
  | echoing (x : Session)
  | greeting (x : Session)
  | confirming (x : Session) (key : Bytes)
  | refusing (x : Session)
  | charging (x : Session) (answered : Bool)
  | sealing (x : Session)
  | paired (x : Session)
  deriving DecidableEq, Repr

structure Run where
  state : HostState
  emitted : List Bytes := []
  sids : List String := []
  stage : Stage := .polling
  deriving DecidableEq, Repr

/-- The host's process, if it runs, what its caller has persisted, and the record of what
reached the relay and of what was charged. -/
structure Host where
  saved : HostState := {}
  run : Option Run := none
  posted : List Bytes := []
  refused : List Session := []
  charged : List Session := []
  delivered : List Session := []
  deriving DecidableEq, Repr

/-- What the environment decides. A listing is `none` where the poll fails or the slot is no
longer the host's; a message is `none` where the poll for it gives up. -/
inductive Event
  | start
  | crash
  | cancel
  | poll (listing : Option (List String))
  | next
  | receive (mr : Option Bytes) (scalar : Bytes)
  | put (fate : Put)
  | confirmation (got : Option Bytes)
  | count
  deriving DecidableEq, Repr

namespace HostState

def exhausted (o : HostOpts) (s : HostState) : Bool :=
  s.failures ≥ o.maxFailures || o.maxSessions.any (s.sessionsDone ≥ ·)

theorem exhausted_eq_false {o : HostOpts} {s : HostState} (h : s.exhausted o = false) :
    s.failures < o.maxFailures ∧ ∀ max, o.maxSessions = some max → s.sessionsDone < max := by
  simp only [exhausted, Bool.or_eq_false_iff, decide_eq_false_iff_not, not_le] at h
  refine ⟨h.1, ?_⟩
  rintro max hmax
  simpa [hmax] using h.2

end HostState

namespace Host

def goto (h : Host) (r : Run) (stage : Stage) : Host := { h with run := some { r with stage } }

def finish (h : Host) : Host := { h with run := none }

variable (o : HostOpts) (p : Pake)

/-- The top of the loop: the limits, then the poll. -/
def poll (h : Host) (r : Run) (listing : Option (List String)) : Host :=
  match listing with
  | none => h.finish
  | some sids => if r.state.exhausted o then h.finish else h.goto { r with sids } .listed

/-- The limits are looked at again before each session of a listing. -/
def next (h : Host) (r : Run) : Host :=
  match r.sids with
  | [] => h.goto r .polling
  | sid :: sids =>
      if r.state.exhausted o then h.goto r .polling else h.goto { r with sids } (.reading sid)

/-- The receiver's message: reflection is looked for before the reply is remembered. -/
def receive (h : Host) (r : Run) (sid : String) (mr : Option Bytes) (scalar : Bytes) : Host :=
  match mr with
  | none => h.goto r .listed
  | some mr =>
      let x : Session := { sid, scalar, mr, reflected := mr ∈ h.posted }
      if mr ∈ r.emitted then h.goto r (.echoing x)
      else h.goto { r with emitted := p.start scalar :: r.emitted } (.greeting x)

/-- `s.` is on the relay, or may be. -/
def post (h : Host) (x : Session) (fate : Put) : Host :=
  if fate.lands then { h with posted := p.start x.scalar :: h.posted } else h

/-- So is a sealed `t.`, -/
def deliver (h : Host) (x : Session) (fate : Put) : Host :=
  if fate.lands then { h with delivered := x :: h.delivered } else h

/-- or one of noise. -/
def refuse (h : Host) (x : Session) (fate : Put) : Host :=
  if fate.lands then { h with refused := x :: h.refused } else h

/-- After `s.`: an error of the post, or of the exchange, ends the session. -/
def greet (h : Host) (r : Run) (x : Session) (fate : Put) : Host :=
  match fate, p.finish x.scalar x.mr with
  | .landed, some key => (h.post p x fate).goto r (.confirming x key)
  | _, _ => (h.post p x fate).goto r .listed

/-- A receiver that never confirms is not a wrong code. -/
def confirm (h : Host) (r : Run) (x : Session) (key : Bytes) (got : Option Bytes) : Host :=
  match got with
  | none => h.goto r .listed
  | some got =>
      if got = p.confirmMac key x.sid then h.goto r (.sealing { x with got := some got })
      else h.goto r (.refusing { x with got := some got })

/-- `on_state` after a wrong confirmation. -/
def charge (h : Host) (r : Run) (x : Session) : Host :=
  let state := { r.state with failures := r.state.failures + 1 }
  { h.goto { r with state } .listed with saved := state, charged := x :: h.charged }

/-- `on_state` after a delivery. -/
def credit (h : Host) (r : Run) : Host :=
  let state := { r.state with sessionsDone := r.state.sessionsDone + 1 }
  { h.goto { r with state } .listed with saved := state }

/-- One step of a running host. -/
def turn (h : Host) (r : Run) : Stage → Event → Host
  | _, .crash => h.finish
  | .polling, .cancel => h.finish
  | .listed, .cancel => h.finish
  | .polling, .poll listing => h.poll o r listing
  | .listed, .next => h.next o r
  | .reading sid, .receive mr scalar => h.receive p r sid mr scalar
  | .echoing x, .put fate => (h.post p x fate).goto r .listed
  | .greeting x, .put fate => h.greet p r x fate
  | .confirming x key, .confirmation got => h.confirm p r x key got
  | .refusing x, .put fate => (h.refuse x fate).goto r (.charging x fate.lands)
  | .charging x _, .count => h.charge r x
  | .sealing x, .put fate =>
      (h.deliver x fate).goto r (if fate = .landed then .paired x else .listed)
  | .paired _, .count => h.credit r
  | _, _ => h

/-- An event that is not possible where the host stands changes nothing. -/
def step (h : Host) (e : Event) : Host :=
  match h.run with
  | some r => h.turn o p r r.stage e
  | none =>
      match e with
      | .start => { h with run := some { state := h.saved } }
      | _ => h

variable {o p} {h : Host} {r : Run} {e : Event}

/-- What one event can do to a running host, by where its run stands. -/
inductive Moves (o : HostOpts) (p : Pake) (h : Host) (r : Run) : Event → Host → Prop
  | stay (e : Event) : Moves o p h r e h
  | crash : Moves o p h r .crash h.finish
  | finish (e : Event) (hstage : r.stage = .polling ∨ r.stage = .listed) :
      Moves o p h r e h.finish
  | list (sids : List String) (hstage : r.stage = .polling)
      (hspare : r.state.exhausted o = false) :
      Moves o p h r (.poll (some sids)) (h.goto { r with sids } .listed)
  | again (hstage : r.stage = .listed) : Moves o p h r .next (h.goto r .polling)
  | take (sid : String) (sids : List String) (hstage : r.stage = .listed)
      (hspare : r.state.exhausted o = false) :
      Moves o p h r .next (h.goto { r with sids } (.reading sid))
  | receive (sid : String) (mr : Option Bytes) (scalar : Bytes) (hstage : r.stage = .reading sid) :
      Moves o p h r (.receive mr scalar) (h.receive p r sid mr scalar)
  | echo (x : Session) (fate : Put) (hstage : r.stage = .echoing x) :
      Moves o p h r (.put fate) ((h.post p x fate).goto r .listed)
  | greet (x : Session) (key : Bytes) (hstage : r.stage = .greeting x) :
      Moves o p h r (.put .landed) ((h.post p x .landed).goto r (.confirming x key))
  | drop (x : Session) (fate : Put) (hstage : r.stage = .greeting x) :
      Moves o p h r (.put fate) ((h.post p x fate).goto r .listed)
  | abandon (x : Session) (key : Bytes) (hstage : r.stage = .confirming x key) :
      Moves o p h r (.confirmation none) (h.goto r .listed)
  | right (x : Session) (key got : Bytes) (hstage : r.stage = .confirming x key)
      (hgot : got = p.confirmMac key x.sid) :
      Moves o p h r (.confirmation (some got)) (h.goto r (.sealing { x with got := some got }))
  | wrong (x : Session) (key got : Bytes) (hstage : r.stage = .confirming x key)
      (hgot : got ≠ p.confirmMac key x.sid) :
      Moves o p h r (.confirmation (some got)) (h.goto r (.refusing { x with got := some got }))
  | refuse (x : Session) (fate : Put) (hstage : r.stage = .refusing x) :
      Moves o p h r (.put fate) ((h.refuse x fate).goto r (.charging x fate.lands))
  | charge (x : Session) (answered : Bool) (hstage : r.stage = .charging x answered) :
      Moves o p h r .count (h.charge r x)
  | deliver (x : Session) (hstage : r.stage = .sealing x) :
      Moves o p h r (.put .landed) ((h.deliver x .landed).goto r (.paired x))
  | lose (x : Session) (fate : Put) (hfate : fate ≠ .landed) (hstage : r.stage = .sealing x) :
      Moves o p h r (.put fate) ((h.deliver x fate).goto r .listed)
  | credit (x : Session) (hstage : r.stage = .paired x) : Moves o p h r .count (h.credit r)

theorem moves_turn (h : Host) (r : Run) (e : Event) :
    Moves o p h r e (h.turn o p r r.stage e) := by
  cases hstage : r.stage with
  | polling =>
      cases e with
      | poll listing =>
          cases listing with
          | none => exact .finish _ (.inl hstage)
          | some sids =>
              cases hspare : r.state.exhausted o with
              | true => simpa [turn, poll, hspare] using Moves.finish _ (.inl hstage)
              | false => simpa [turn, poll, hspare] using Moves.list sids hstage hspare
      | crash => exact .crash
      | cancel => exact .finish _ (.inl hstage)
      | _ => exact .stay _
  | listed =>
      cases e with
      | next =>
          cases hsids : r.sids with
          | nil => simpa [turn, next, hsids] using Moves.again hstage
          | cons sid sids =>
              cases hspare : r.state.exhausted o with
              | true => simpa [turn, next, hsids, hspare] using Moves.again hstage
              | false => simpa [turn, next, hsids, hspare] using Moves.take sid sids hstage hspare
      | crash => exact .crash
      | cancel => exact .finish _ (.inr hstage)
      | _ => exact .stay _
  | reading sid =>
      cases e with
      | receive mr scalar => exact .receive sid mr scalar hstage
      | crash => exact .crash
      | _ => exact .stay _
  | echoing x =>
      cases e with
      | put fate => exact .echo x fate hstage
      | crash => exact .crash
      | _ => exact .stay _
  | greeting x =>
      cases e with
      | put fate =>
          cases hkey : p.finish x.scalar x.mr with
          | none => simpa [turn, greet, hkey] using Moves.drop x fate hstage
          | some key =>
              cases fate with
              | landed => simpa [turn, greet, hkey] using Moves.greet x key hstage
              | unanswered => exact .drop x .unanswered hstage
              | failed => exact .drop x .failed hstage
      | crash => exact .crash
      | _ => exact .stay _
  | confirming x key =>
      cases e with
      | confirmation got =>
          cases got with
          | none => exact .abandon x key hstage
          | some got =>
              by_cases hgot : got = p.confirmMac key x.sid
              · simpa [turn, confirm, hgot] using Moves.right x key got hstage hgot
              · simpa [turn, confirm, hgot] using Moves.wrong x key got hstage hgot
      | crash => exact .crash
      | _ => exact .stay _
  | refusing x =>
      cases e with
      | put fate => exact .refuse x fate hstage
      | crash => exact .crash
      | _ => exact .stay _
  | charging x answered =>
      cases e with
      | count => exact .charge x answered hstage
      | crash => exact .crash
      | _ => exact .stay _
  | sealing x =>
      cases e with
      | put fate =>
          cases fate with
          | landed => exact .deliver x hstage
          | unanswered => exact .lose x .unanswered nofun hstage
          | failed => exact .lose x .failed nofun hstage
      | crash => exact .crash
      | _ => exact .stay _
  | paired x =>
      cases e with
      | count => exact .credit x hstage
      | crash => exact .crash
      | _ => exact .stay _

theorem moves_step (h : Host) (e : Event) (hrun : h.run = some r) :
    Moves o p h r e (h.step o p e) := by
  simpa only [step, hrun] using moves_turn h r e

/-- A stopped host only starts. -/
theorem step_of_stopped (h : Host) (e : Event) (hrun : h.run = none) :
    h.step o p e = h ∨ h.step o p e = { h with run := some { state := h.saved } } := by
  cases e <;> simp [step, hrun]

end Host

end Arvolo.Code
