import Arvolo.Code.Host

/-!
The two budgets of a code host over whole runs, with crashes: the wrong confirmations it
answers, and the receivers that get the payload.

Both counters are written after the answer is on the relay. Between the two the process may
die, and a delivery whose own answer is lost is not counted at all. A reflected message is
recognised by the set of messages emitted, which one run keeps in memory and to which the
answer to a reflected message is not added.
-/

namespace Arvolo.Code

variable {o : HostOpts} {p : Pake} {h : Host} {r : Run} {e : Event} {x : Session} {fate : Put}

namespace Host

@[simp] theorem run_goto (st : Stage) : (h.goto r st).run = some { r with stage := st } := rfl
@[simp] theorem saved_goto (st : Stage) : (h.goto r st).saved = h.saved := rfl
@[simp] theorem refused_goto (st : Stage) : (h.goto r st).refused = h.refused := rfl
@[simp] theorem charged_goto (st : Stage) : (h.goto r st).charged = h.charged := rfl
@[simp] theorem delivered_goto (st : Stage) : (h.goto r st).delivered = h.delivered := rfl

@[simp] theorem saved_post : (h.post p x fate).saved = h.saved := by cases fate <;> rfl
@[simp] theorem refused_post : (h.post p x fate).refused = h.refused := by cases fate <;> rfl
@[simp] theorem charged_post : (h.post p x fate).charged = h.charged := by cases fate <;> rfl
@[simp] theorem delivered_post : (h.post p x fate).delivered = h.delivered := by
  cases fate <;> rfl

@[simp] theorem saved_refuse : (h.refuse x fate).saved = h.saved := by cases fate <;> rfl
@[simp] theorem charged_refuse : (h.refuse x fate).charged = h.charged := by cases fate <;> rfl
@[simp] theorem delivered_refuse : (h.refuse x fate).delivered = h.delivered := by
  cases fate <;> rfl

@[simp] theorem saved_deliver : (h.deliver x fate).saved = h.saved := by cases fate <;> rfl
@[simp] theorem charged_deliver : (h.deliver x fate).charged = h.charged := by
  cases fate <;> rfl
@[simp] theorem refused_deliver : (h.deliver x fate).refused = h.refused := by
  cases fate <;> rfl

/-- Reading a receiver's message changes the run alone. -/
theorem receive_eq (sid : String) (mr : Option Bytes) (scalar : Bytes) :
    ∃ emitted st, h.receive p r sid mr scalar = h.goto { r with emitted } st := by
  cases mr with
  | none => exact ⟨r.emitted, .listed, rfl⟩
  | some mr =>
      dsimp only [receive]
      split_ifs
      · exact ⟨r.emitted, _, rfl⟩
      · exact ⟨p.start scalar :: r.emitted, _, rfl⟩

end Host

/-- A session is under way. -/
def Stage.busy : Stage → Bool
  | .polling => false
  | .listed => false
  | _ => true

/-- The counters in memory are those persisted; a session is under way only below both
limits; and what the host charged is what it counted. -/
structure Sound (o : HostOpts) (h : Host) : Prop where
  charged : h.saved.failures = h.charged.length
  state (r : Run) : h.run = some r → r.state = h.saved
  spare (r : Run) : h.run = some r → r.stage.busy = true → r.state.exhausted o = false

theorem Sound.init : Sound o {} := ⟨rfl, nofun, nofun⟩

theorem Sound.stopped (hs : Sound o h) : Sound o h.finish := ⟨hs.charged, nofun, nofun⟩

/-- A run that only changes its place stays sound where it may be there. -/
theorem Sound.moved (hs : Sound o h) (hrun : h.run = some r) {h' : Host} {r' : Run}
    (hcharged : h'.charged = h.charged) (hsaved : h'.saved = h.saved)
    (hrun' : h'.run = some r') (hstate : r'.state = r.state)
    (hspare : r'.stage.busy = true → r.state.exhausted o = false) : Sound o h' where
  charged := by rw [hsaved, hcharged, hs.charged]
  state := by
    rintro r'' hr''
    obtain rfl := Option.some.inj (hrun'.symm.trans hr'')
    rw [hstate, hsaved, hs.state r hrun]
  spare := by
    rintro r'' hr'' hbusy
    obtain rfl := Option.some.inj (hrun'.symm.trans hr'')
    rw [hstate]
    exact hspare hbusy

theorem Sound.turn (hs : Sound o h) (hrun : h.run = some r) {h' : Host}
    (hm : Host.Moves o p h r e h') : Sound o h' := by
  have hspare := hs.spare r hrun
  cases hm with
  | stay => exact hs
  | crash => exact hs.stopped
  | finish => exact hs.stopped
  | list sids hstage hspare' => exact hs.moved hrun rfl rfl rfl rfl fun _ => hspare'
  | again => exact hs.moved hrun rfl rfl rfl rfl nofun
  | take sid sids hstage hspare' => exact hs.moved hrun rfl rfl rfl rfl fun _ => hspare'
  | receive sid mr scalar hstage =>
      obtain ⟨emitted, st, heq⟩ := Host.receive_eq (h := h) (p := p) (r := r) sid mr scalar
      rw [heq]
      exact hs.moved hrun rfl rfl rfl rfl fun _ => hspare (by rw [hstage]; rfl)
  | echo x fate hstage => exact hs.moved hrun (by simp) (by simp) rfl rfl nofun
  | greet x key hstage =>
      exact hs.moved hrun rfl rfl rfl rfl fun _ => hspare (by rw [hstage]; rfl)
  | drop x fate hstage => exact hs.moved hrun (by simp) (by simp) rfl rfl nofun
  | abandon x key hstage => exact hs.moved hrun rfl rfl rfl rfl nofun
  | right x key got hstage hgot =>
      exact hs.moved hrun rfl rfl rfl rfl fun _ => hspare (by rw [hstage]; rfl)
  | wrong x key got hstage hgot =>
      exact hs.moved hrun rfl rfl rfl rfl fun _ => hspare (by rw [hstage]; rfl)
  | refuse x fate hstage =>
      exact hs.moved hrun (by simp) (by simp) rfl rfl fun _ => hspare (by rw [hstage]; rfl)
  | charge x answered hstage =>
      refine ⟨?_, ?_, nofun⟩
      · simp [Host.charge, hs.state r hrun, hs.charged]
      · rintro _ ⟨⟩
        rfl
  | deliver x hstage =>
      exact hs.moved hrun rfl rfl rfl rfl fun _ => hspare (by rw [hstage]; rfl)
  | lose x fate hfate hstage => exact hs.moved hrun (by simp) (by simp) rfl rfl nofun
  | credit x hstage =>
      refine ⟨?_, ?_, nofun⟩
      · simpa [Host.credit, hs.state r hrun] using hs.charged
      · rintro _ ⟨⟩
        rfl

theorem Sound.step (hs : Sound o h) (e : Event) : Sound o (h.step o p e) := by
  cases hrun : h.run with
  | some r => exact hs.turn hrun (h.moves_step e hrun)
  | none =>
      rcases h.step_of_stopped (o := o) (p := p) e hrun with heq | heq
      · rwa [heq]
      · rw [heq]
        refine ⟨hs.charged, ?_, ?_⟩
        · rintro _ ⟨⟩
          rfl
        · rintro _ ⟨⟩ hbusy
          cases hbusy

/-- The host after a run of events, from the moment the code is claimed. -/
def Host.after (o : HostOpts) (p : Pake) (es : List Event) : Host :=
  es.foldl (Host.step o p) {}

/-! ### Wrong confirmations -/

/-- At most `max_failures` wrong confirmations are answered, and what is charged is a
confirmation that came, in a session whose receiver did not send a message of the host's. -/
def Budgeted (o : HostOpts) (h : Host) : Prop :=
  h.refused.length ≤ o.maxFailures ∧
    ∀ x ∈ h.charged, x.reflected = false ∧ x.got.isSome = true

instance : Decidable (Budgeted o h) :=
  inferInstanceAs (Decidable (h.refused.length ≤ o.maxFailures ∧
    ∀ x ∈ h.charged, x.reflected = false ∧ x.got.isSome = true))

/-- The answer to a wrong confirmation is on the relay, and not counted yet. -/
def Stage.uncharged : Stage → ℕ
  | .charging _ true => 1
  | _ => 0

theorem Stage.uncharged_le_one (st : Stage) : st.uncharged ≤ 1 := by
  unfold uncharged
  split
  · exact Nat.le_refl 1
  · exact Nat.zero_le 1

theorem Stage.uncharged_of_idle {st : Stage} (h : st.busy = false) : st.uncharged = 0 := by
  cases st with
  | charging x answered => cases h
  | _ => rfl

def Host.uncharged (h : Host) : ℕ := h.run.elim 0 fun r => r.stage.uncharged

def Stage.isReading : Stage → Bool
  | .reading _ => true
  | _ => false

theorem lawfulBEq_bytes : LawfulBEq Bytes := inferInstance

/-- The process does not die between an answer to a wrong confirmation and its count, and a
message of the host's that comes back is one the run remembers. -/
def Host.Steady (h : Host) : Event → Prop
  | .crash => h.uncharged = 0
  | .receive (some mr) _ =>
      haveI := lawfulBEq_bytes
      mr ∈ h.posted → h.run.all fun r => !r.stage.isReading || mr ∈ r.emitted
  | _ => True

instance (h : Host) : (e : Event) → Decidable (h.Steady e)
  | .crash => inferInstanceAs (Decidable (h.uncharged = 0))
  | .receive (some mr) _ =>
      inferInstanceAs (Decidable (mr ∈ h.posted →
        h.run.all fun r => !r.stage.isReading || mr ∈ r.emitted))
  | .receive none _ | .start | .cancel | .poll _ | .next | .put _ | .confirmation _ | .count =>
      inferInstanceAs (Decidable True)

/-- What is known of the session of a stage on its way to a charge. -/
def Stage.Fair : Stage → Prop
  | .greeting x => x.reflected = false
  | .confirming x _ => x.reflected = false
  | .refusing x => x.reflected = false ∧ x.got.isSome = true
  | .charging x _ => x.reflected = false ∧ x.got.isSome = true
  | _ => True

/-- Every wrong confirmation answered is counted or about to be. -/
structure Guarded (o : HostOpts) (h : Host) : Prop where
  refused : h.refused.length ≤ h.saved.failures + h.uncharged
  failures : h.saved.failures ≤ o.maxFailures
  charged : ∀ x ∈ h.charged, x.reflected = false ∧ x.got.isSome = true
  fair (r : Run) : h.run = some r → r.stage.Fair

theorem Guarded.init : Guarded o {} := ⟨Nat.le_refl 0, Nat.zero_le _, nofun, nofun⟩

theorem Guarded.budgeted (hg : Guarded o h) (hs : Sound o h) : Budgeted o h := by
  refine ⟨hg.refused.trans ?_, hg.charged⟩
  have hfailures := hg.failures
  cases hrun : h.run with
  | none => simpa [Host.uncharged, hrun] using hfailures
  | some r =>
      have hun : h.uncharged = r.stage.uncharged := by simp [Host.uncharged, hrun]
      cases hbusy : r.stage.busy with
      | false => simpa [hun, Stage.uncharged_of_idle hbusy] using hfailures
      | true =>
          -- an answer that is not counted yet belongs to a session, and a session has room
          have hroom := (HostState.exhausted_eq_false (hs.spare r hrun hbusy)).1
          have hone := r.stage.uncharged_le_one
          rw [hs.state r hrun] at hroom
          omega

/-- A step that answers and counts nothing keeps the budget where it ends fair. -/
theorem Guarded.moved (hg : Guarded o h) {h' : Host} (hrefused : h'.refused = h.refused)
    (hcharged : h'.charged = h.charged) (hsaved : h'.saved = h.saved)
    (hun : h.uncharged ≤ h'.uncharged) (hfair : ∀ r', h'.run = some r' → r'.stage.Fair) :
    Guarded o h' where
  refused := by
    rw [hrefused, hsaved]
    exact hg.refused.trans (Nat.add_le_add_left hun _)
  failures := by rw [hsaved]; exact hg.failures
  charged := by rw [hcharged]; exact hg.charged
  fair := hfair

theorem Guarded.turn (hg : Guarded o h) (hs : Sound o h) (hrun : h.run = some r) {h' : Host}
    (hm : Host.Moves o p h r e h') (he : h.Steady e) : Guarded o h' := by
  have hfair : r.stage.Fair := hg.fair r hrun
  have hun : h.uncharged = r.stage.uncharged := by simp [Host.uncharged, hrun]
  -- the stages from which a step goes on hold no answer that is not counted yet
  have hmoved {h' : Host} {r' : Run} (hst : r.stage.uncharged = 0)
      (hrefused : h'.refused = h.refused) (hcharged : h'.charged = h.charged)
      (hsaved : h'.saved = h.saved)
      (hrun' : h'.run = some r') (hfair' : r'.stage.Fair) : Guarded o h' := by
    refine hg.moved hrefused hcharged hsaved (by simp [hun, hst]) fun r'' hr'' => ?_
    obtain rfl := Option.some.inj (hrun'.symm.trans hr'')
    exact hfair'
  cases hm with
  | stay => exact hg
  | crash => exact hg.moved rfl rfl rfl he.le nofun
  | finish e hstage =>
      have hidle : r.stage.busy = false := by rcases hstage with hst | hst <;> rw [hst] <;> rfl
      exact hg.moved rfl rfl rfl (by simp [hun, Stage.uncharged_of_idle hidle]) nofun
  | list sids hstage hspare => exact hmoved (by rw [hstage]; rfl) rfl rfl rfl rfl trivial
  | again hstage => exact hmoved (by rw [hstage]; rfl) rfl rfl rfl rfl trivial
  | take sid sids hstage hspare => exact hmoved (by rw [hstage]; rfl) rfl rfl rfl rfl trivial
  | receive sid mr scalar hstage =>
      have hst : r.stage.uncharged = 0 := by rw [hstage]; rfl
      cases mr with
      | none => exact hmoved hst rfl rfl rfl rfl trivial
      | some mr =>
          dsimp only [Host.receive]
          split_ifs with hmr
          · exact hmoved hst rfl rfl rfl rfl trivial
          · refine hmoved hst rfl rfl rfl rfl (decide_eq_false fun hposted => hmr ?_)
            simpa [hrun, hstage, Stage.isReading] using he hposted
  | echo x fate hstage =>
      exact hmoved (by rw [hstage]; rfl) (by simp) (by simp) (by simp) rfl trivial
  | greet x key hstage =>
      rw [hstage] at hfair
      exact hmoved (by rw [hstage]; rfl) rfl rfl rfl rfl hfair
  | drop x fate hstage =>
      exact hmoved (by rw [hstage]; rfl) (by simp) (by simp) (by simp) rfl trivial
  | abandon x key hstage => exact hmoved (by rw [hstage]; rfl) rfl rfl rfl rfl trivial
  | right x key got hstage hgot => exact hmoved (by rw [hstage]; rfl) rfl rfl rfl rfl trivial
  | wrong x key got hstage hgot =>
      rw [hstage] at hfair
      exact hmoved (by rw [hstage]; rfl) rfl rfl rfl rfl ⟨hfair, rfl⟩
  | refuse x fate hstage =>
      have hzero : h.uncharged = 0 := by rw [hun, hstage]; rfl
      have hrefused : h.refused.length ≤ h.saved.failures := by
        simpa [hzero] using hg.refused
      refine ⟨?_, by simpa using hg.failures, by simpa using hg.charged, ?_⟩
      · cases fate with
        | failed => exact hrefused.trans (Nat.le_add_right ..)
        | landed => exact Nat.succ_le_succ hrefused
        | unanswered => exact Nat.succ_le_succ hrefused
      · rintro _ ⟨⟩
        rwa [hstage] at hfair
  | charge x answered hstage =>
      have hroom : r.state.failures < o.maxFailures :=
        (HostState.exhausted_eq_false (hs.spare r hrun (by rw [hstage]; rfl))).1
      have hone : h.uncharged ≤ 1 := by rw [hun]; exact r.stage.uncharged_le_one
      have hstate := hs.state r hrun
      rw [hstage] at hfair
      refine ⟨?_, hroom, ?_, ?_⟩
      · calc h.refused.length ≤ h.saved.failures + h.uncharged := hg.refused
          _ ≤ r.state.failures + 1 := by rw [hstate]; exact Nat.add_le_add_left hone _
      · exact List.forall_mem_cons.2 ⟨hfair, hg.charged⟩
      · rintro _ ⟨⟩
        trivial
  | deliver x hstage => exact hmoved (by rw [hstage]; rfl) rfl rfl rfl rfl trivial
  | lose x fate hfate hstage =>
      exact hmoved (by rw [hstage]; rfl) (by simp) (by simp) (by simp) rfl trivial
  | credit x hstage =>
      have hzero : h.uncharged = 0 := by rw [hun, hstage]; rfl
      have hrefused := hg.refused
      have hfailures := hg.failures
      rw [hzero] at hrefused
      rw [← hs.state r hrun] at hrefused hfailures
      refine ⟨hrefused, hfailures, hg.charged, ?_⟩
      rintro _ ⟨⟩
      trivial

theorem Guarded.step (hg : Guarded o h) (hs : Sound o h) (he : h.Steady e) :
    Guarded o (h.step o p e) := by
  cases hrun : h.run with
  | some r => exact hg.turn hs hrun (h.moves_step e hrun) he
  | none =>
      have hzero : h.uncharged = 0 := by simp [Host.uncharged, hrun]
      rcases h.step_of_stopped (o := o) (p := p) e hrun with heq | heq
      · rwa [heq]
      · rw [heq]
        refine hg.moved rfl rfl rfl hzero.le ?_
        rintro _ ⟨⟩
        trivial

/-- Where the process never dies between a refusal and its count, and no message of the
host's comes back that the run does not remember, the guess budget holds over the whole life
of the code. -/
theorem budgeted_of_steady (p : Pake) {es : List Event}
    (h : Lib.Along (Host.step o p) Host.Steady {} es) : Budgeted o (Host.after o p es) := by
  have hinv : Sound o (Host.after o p es) ∧ Guarded o (Host.after o p es) :=
    h.foldl_inv (fun h => Sound o h ∧ Guarded o h)
      (fun _ e hinv he => ⟨hinv.1.step e, hinv.2.step hinv.1 he⟩)
      ⟨Sound.init, Guarded.init⟩
  exact hinv.2.budgeted hinv.1

/-- A toy exchange: the messages are the scalars, and the key is both. -/
def Pake.toy : Pake where
  start scalar := scalar
  finish scalar mr := some (scalar ++ mr)
  confirmMac key _ := key

/-- A session up to its confirmation: the receiver sends `mr`, the host draws `scalar`. -/
def Event.session (sid : String) (mr scalar : Bytes) (got : Option Bytes) : List Event :=
  [.poll (some [sid]), .next, .receive (some mr) scalar, .put .landed, .confirmation got]

/-- A guess that is wrong, up to the answer. -/
def Event.guess (sid : String) (scalar : Bytes) : List Event :=
  Event.session sid [0] scalar (some [1]) ++ [Event.put .landed]

/-- Two guesses are counted, the second after a restart; an honest receiver then gets in. -/
def Event.counted : List Event :=
  List.flatten [[.start], Event.guess "a" [7], [.count, .crash, .start], Event.guess "b" [8],
    [.count, .next], Event.session "c" [0] [9] (some [9, 0]), [.put .landed, .count]]

theorem budgeted_counted : Budgeted {} (Host.after {} Pake.toy Event.counted) :=
  budgeted_of_steady Pake.toy (by decide +kernel)

/-- The host dies after each answer, before its count. -/
def Event.uncountedGuesses : List Event :=
  List.flatten [[.start], Event.guess "a" [7], [.crash, .start], Event.guess "b" [8]]

/-- A receiver walks away; its message comes back, is recognised and answered afresh; and
that answer comes back. -/
def Event.reflectedAnswer : List Event :=
  List.flatten [[.start], Event.session "a" [0] [7] none,
    [.next, .poll (some ["b"]), .next, .receive (some [7]) [8], .put .landed, .next],
    Event.session "c" [8] [9] (some [1]), [.put .landed, .count]]

/-- With a limit of one, two wrong confirmations are answered; and a reflected session is
charged without any crash. -/
theorem not_budgeted :
    ¬ Budgeted { maxFailures := 1 }
        (Host.after { maxFailures := 1 } Pake.toy Event.uncountedGuesses) ∧
      ¬ Budgeted {} (Host.after {} Pake.toy Event.reflectedAnswer) := by
  decide +kernel

/-! ### Deliveries -/

/-- The payload is delivered to at most `max_sessions` receivers. -/
def Rationed (o : HostOpts) (h : Host) : Prop :=
  ∀ max ∈ o.maxSessions, (h.delivered.map Session.sid).toFinset.card ≤ max

instance : Decidable (Rationed o h) :=
  inferInstanceAs (Decidable (∀ max ∈ o.maxSessions,
    (h.delivered.map Session.sid).toFinset.card ≤ max))

/-- The payload is on the relay, and the session not counted yet. -/
def Stage.uncredited : Stage → ℕ
  | .paired _ => 1
  | _ => 0

def Host.uncredited (h : Host) : ℕ := h.run.elim 0 fun r => r.stage.uncredited

def Stage.isSealing : Stage → Bool
  | .sealing _ => true
  | _ => false

/-- The process does not die between a delivery and its count, and no answer to a delivery
is lost. -/
def Host.Counting (h : Host) : Event → Prop
  | .crash => h.uncredited = 0
  | .put .unanswered => h.run.all fun r => !r.stage.isSealing
  | _ => True

instance (h : Host) : (e : Event) → Decidable (h.Counting e)
  | .crash => inferInstanceAs (Decidable (h.uncredited = 0))
  | .put .unanswered =>
      inferInstanceAs (Decidable (h.run.all fun r => !r.stage.isSealing))
  | .put .landed | .put .failed | .receive .. | .start | .cancel | .poll _ | .next
  | .confirmation _ | .count => inferInstanceAs (Decidable True)

theorem Stage.uncredited_le_one (st : Stage) : st.uncredited ≤ 1 := by
  unfold uncredited
  split
  · exact Nat.le_refl 1
  · exact Nat.zero_le 1

theorem Stage.uncredited_of_idle {st : Stage} (h : st.busy = false) : st.uncredited = 0 := by
  cases st with
  | paired x => cases h
  | _ => rfl

/-- Every delivery is counted or about to be. -/
structure Credited (o : HostOpts) (h : Host) : Prop where
  delivered : h.delivered.length ≤ h.saved.sessionsDone + h.uncredited
  sessions : ∀ max ∈ o.maxSessions, h.saved.sessionsDone ≤ max

theorem Credited.init : Credited o {} := ⟨Nat.le_refl 0, fun _ _ => Nat.zero_le _⟩

theorem Credited.rationed (hc : Credited o h) (hs : Sound o h) : Rationed o h := by
  rintro max hmax
  have hcard : (h.delivered.map Session.sid).toFinset.card ≤ h.delivered.length := by
    simpa using List.toFinset_card_le (h.delivered.map Session.sid)
  refine hcard.trans (hc.delivered.trans ?_)
  have hsessions := hc.sessions max hmax
  cases hrun : h.run with
  | none => simpa [Host.uncredited, hrun] using hsessions
  | some r =>
      have hun : h.uncredited = r.stage.uncredited := by simp [Host.uncredited, hrun]
      cases hbusy : r.stage.busy with
      | false => simpa [hun, Stage.uncredited_of_idle hbusy] using hsessions
      | true =>
          have hroom := (HostState.exhausted_eq_false (hs.spare r hrun hbusy)).2 max hmax
          have hone := r.stage.uncredited_le_one
          rw [hs.state r hrun] at hroom
          omega

/-- A step that delivers and counts nothing keeps the budget. -/
theorem Credited.moved (hc : Credited o h) {h' : Host} (hdelivered : h'.delivered = h.delivered)
    (hsaved : h'.saved.sessionsDone = h.saved.sessionsDone) (hun : h.uncredited ≤ h'.uncredited) :
    Credited o h' where
  delivered := by
    rw [hdelivered, hsaved]
    exact hc.delivered.trans (Nat.add_le_add_left hun _)
  sessions := by rw [hsaved]; exact hc.sessions

theorem Credited.turn (hc : Credited o h) (hs : Sound o h) (hrun : h.run = some r) {h' : Host}
    (hm : Host.Moves o p h r e h') (he : h.Counting e) : Credited o h' := by
  have hun : h.uncredited = r.stage.uncredited := by simp [Host.uncredited, hrun]
  have hmoved {h' : Host} (hst : r.stage.uncredited = 0) (hdelivered : h'.delivered = h.delivered)
      (hsaved : h'.saved.sessionsDone = h.saved.sessionsDone) : Credited o h' :=
    hc.moved hdelivered hsaved (by simp [hun, hst])
  cases hm with
  | stay => exact hc
  | crash => exact hc.moved rfl rfl he.le
  | finish e hstage =>
      have hidle : r.stage.busy = false := by rcases hstage with hst | hst <;> rw [hst] <;> rfl
      exact hmoved (Stage.uncredited_of_idle hidle) rfl rfl
  | list sids hstage hspare => exact hmoved (by rw [hstage]; rfl) rfl rfl
  | again hstage => exact hmoved (by rw [hstage]; rfl) rfl rfl
  | take sid sids hstage hspare => exact hmoved (by rw [hstage]; rfl) rfl rfl
  | receive sid mr scalar hstage =>
      obtain ⟨emitted, st, heq⟩ := Host.receive_eq (h := h) (p := p) (r := r) sid mr scalar
      rw [heq]
      exact hmoved (by rw [hstage]; rfl) rfl rfl
  | echo x fate hstage => exact hmoved (by rw [hstage]; rfl) (by simp) (by simp)
  | greet x key hstage => exact hmoved (by rw [hstage]; rfl) rfl rfl
  | drop x fate hstage => exact hmoved (by rw [hstage]; rfl) (by simp) (by simp)
  | abandon x key hstage => exact hmoved (by rw [hstage]; rfl) rfl rfl
  | right x key got hstage hgot => exact hmoved (by rw [hstage]; rfl) rfl rfl
  | wrong x key got hstage hgot => exact hmoved (by rw [hstage]; rfl) rfl rfl
  | refuse x fate hstage => exact hmoved (by rw [hstage]; rfl) (by simp) (by simp)
  | charge x answered hstage =>
      refine hmoved (by rw [hstage]; rfl) rfl ?_
      show r.state.sessionsDone = h.saved.sessionsDone
      rw [hs.state r hrun]
  | deliver x hstage =>
      have hzero : h.uncredited = 0 := by rw [hun, hstage]; rfl
      have hdelivered := hc.delivered
      rw [hzero] at hdelivered
      exact ⟨Nat.succ_le_succ hdelivered, hc.sessions⟩
  | lose x fate hfate hstage =>
      cases fate with
      | landed => exact absurd rfl hfate
      | unanswered => simp [Host.Counting, hrun, hstage, Stage.isSealing] at he
      | failed => exact hmoved (by rw [hstage]; rfl) rfl rfl
  | credit x hstage =>
      have hone : h.uncredited ≤ 1 := by rw [hun]; exact r.stage.uncredited_le_one
      have hroom := (HostState.exhausted_eq_false (hs.spare r hrun (by rw [hstage]; rfl))).2
      refine ⟨?_, hroom⟩
      calc h.delivered.length ≤ h.saved.sessionsDone + h.uncredited := hc.delivered
        _ ≤ r.state.sessionsDone + 1 := by
            rw [hs.state r hrun]
            exact Nat.add_le_add_left hone _

theorem Credited.step (hc : Credited o h) (hs : Sound o h) (he : h.Counting e) :
    Credited o (h.step o p e) := by
  cases hrun : h.run with
  | some r => exact hc.turn hs hrun (h.moves_step e hrun) he
  | none =>
      have hzero : h.uncredited = 0 := by simp [Host.uncredited, hrun]
      rcases h.step_of_stopped (o := o) (p := p) e hrun with heq | heq
      · rwa [heq]
      · rw [heq]
        exact hc.moved rfl rfl hzero.le

/-- Where the process never dies between a delivery and its count, and the relay's answer to
a delivery always arrives, the session budget holds over the whole life of the code. -/
theorem rationed_of_counting (p : Pake) {es : List Event}
    (h : Lib.Along (Host.step o p) Host.Counting {} es) : Rationed o (Host.after o p es) := by
  have hinv : Sound o (Host.after o p es) ∧ Credited o (Host.after o p es) :=
    h.foldl_inv (fun h => Sound o h ∧ Credited o h)
      (fun _ e hinv he => ⟨hinv.1.step e, hinv.2.step hinv.1 he⟩)
      ⟨Sound.init, Credited.init⟩
  exact hinv.2.rationed hinv.1

/-- An honest receiver, up to the post of the sealed payload. -/
def Event.honest (sid : String) (scalar : Bytes) (fate : Put) : List Event :=
  Event.session sid [0] scalar (some (scalar ++ [0])) ++ [Event.put fate]

theorem rationed_counted : Rationed {} (Host.after {} Pake.toy Event.counted) :=
  rationed_of_counting Pake.toy (by decide +kernel)

/-- Two honest receivers, with what happens between them. -/
def Event.twoReceivers (fate : Put) (between : List Event) : List Event :=
  List.flatten [[.start], Event.honest "a" [7] fate, between, Event.honest "b" [8] .landed]

/-- With a limit of one, two receivers get the payload: where the answer to the first
delivery is lost, and where the host dies before it has counted the first. -/
theorem not_rationed :
    ¬ Rationed {} (Host.after {} Pake.toy (Event.twoReceivers .unanswered [.next])) ∧
      ¬ Rationed {} (Host.after {} Pake.toy (Event.twoReceivers .landed [.crash, .start])) := by
  decide +kernel

end Arvolo.Code
