import Arvolo.Code.Handover

/-!
A receiver that types the code in right gets what the host shows it for, whatever other
receivers, other senders and those who try codes do meanwhile.

The host works at one session at a time, and only what is read for that session, and what is read
by the receiver, bears on how it ends. All the other steps can be left out.
-/

namespace Arvolo.Code

open Lib

namespace Parties

variable {p : CodePrims} {o : HostOpts} {c : Hosted} {s s' : Parties} {i : ℕ}

/-! ### What bears on one exchange -/

/-- A step of the host or of the receiver. -/
def concerns (i : ℕ) : Act → Bool
  | .host _ => true
  | .hear _ _ => true
  | .greet j _ _ => j = i
  | .collect j _ => j = i
  | .answer j _ _ => j = i
  | _ => false

/-- The host, the receiver, and what the host has heard. -/
def ends (i : ℕ) (s : Parties) : Host × Option Receiver × List Paired :=
  (s.host, s.receivers[i]?, s.paired)

theorem ends_eq_iff :
    s.ends i = s'.ends i ↔
      s.host = s'.host ∧ s.receivers[i]? = s'.receivers[i]? ∧ s.paired = s'.paired := by
  rw [ends, ends, Prod.mk.injEq, Prod.mk.injEq]

theorem receivers_hostStep (s : Parties) (e : Event) :
    (s.hostStep p o c e).receivers = s.receivers ∧ (s.hostStep p o c e).paired = s.paired := by
  simp only [hostStep]
  split
  · exact ⟨rfl, rfl⟩
  · split_ifs <;> exact ⟨rfl, rfl⟩
  · exact ⟨rfl, rfl⟩
  · exact ⟨rfl, rfl⟩

theorem receivers_hear (s : Parties) (reply extras : Option Bytes) :
    (s.hear p o c reply extras).receivers = s.receivers := by
  rw [hear]
  split <;> rfl

/-- The host goes by what it has itself. -/
theorem host_hostStep (h : s.host = s'.host) (e : Event) :
    (s.hostStep p o c e).host = (s'.hostStep p o c e).host := by
  simp only [hostStep, stage, h]
  split
  · rfl
  · split_ifs <;> rfl
  · exact h
  · rfl

theorem ends_hear (h : s.ends i = s'.ends i) (reply extras : Option Bytes) :
    (s.hear p o c reply extras).ends i = (s'.hear p o c reply extras).ends i := by
  obtain ⟨hhost, hreceiver, hpaired⟩ := ends_eq_iff.1 h
  have hstage : s.stage = s'.stage := by rw [stage, stage, hhost]
  rw [ends_eq_iff, receivers_hear, receivers_hear]
  simp only [hear, hstage]
  split
  · exact ⟨by rw [hhost], hreceiver, by rw [hpaired]⟩
  · exact ⟨hhost, hreceiver, hpaired⟩

/-- What is set in one of two lists that agree there is set in both. -/
theorem getElem?_set_of_eq {α : Type} {l l' : List α} (h : l[i]? = l'[i]?) (b : α) :
    (l.set i b)[i]? = (l'.set i b)[i]? := by
  rw [List.getElem?_set_self', List.getElem?_set_self', h]

theorem ends_step_of_concerns {a : Act} (ha : concerns i a = true) (h : s.ends i = s'.ends i) :
    (s.step p o c a).ends i = (s'.step p o c a).ends i := by
  obtain ⟨hhost, hreceiver, hpaired⟩ := ends_eq_iff.1 h
  cases a with
  | host e =>
      obtain ⟨hr, hq⟩ := receivers_hostStep (p := p) (o := o) (c := c) s e
      obtain ⟨hr', hq'⟩ := receivers_hostStep (p := p) (o := o) (c := c) s' e
      rw [ends_eq_iff, step, step, hr, hr', hq, hq']
      exact ⟨host_hostStep hhost e, hreceiver, hpaired⟩
  | hear reply extras => exact ends_hear h reply extras
  | greet j ms fate =>
      obtain rfl : j = i := of_decide_eq_true ha
      simp only [step, ← hreceiver]
      split
      · exact h
      · exact ends_eq_iff.2 ⟨hhost, getElem?_set_of_eq hreceiver _, hpaired⟩
  | collect j ct =>
      obtain rfl : j = i := of_decide_eq_true ha
      simp only [step, ← hreceiver]
      split
      · exact h
      · exact ends_eq_iff.2 ⟨hhost, getElem?_set_of_eq hreceiver _, hpaired⟩
  | answer j fate extrasFate =>
      obtain rfl : j = i := of_decide_eq_true ha
      simp only [step, ← hreceiver]
      split
      · exact h
      · exact ends_eq_iff.2 ⟨hhost, getElem?_set_of_eq hreceiver _, hpaired⟩
  | _ => exact absurd ha Bool.false_ne_true

theorem ends_step_of_not_concerns (hi : i < s.receivers.length) {a : Act}
    (ha : concerns i a = false) : (s.step p o c a).ends i = s.ends i := by
  cases a with
  | host e => exact absurd ha Bool.false_ne_true.symm
  | hear reply extras => exact absurd ha Bool.false_ne_true.symm
  | greet j ms fate =>
      have hji : j ≠ i := of_decide_eq_false ha
      simp only [step]
      split
      · rfl
      · exact ends_eq_iff.2 ⟨rfl, List.getElem?_set_ne hji, rfl⟩
  | collect j ct =>
      have hji : j ≠ i := of_decide_eq_false ha
      simp only [step]
      split
      · rfl
      · exact ends_eq_iff.2 ⟨rfl, List.getElem?_set_ne hji, rfl⟩
  | answer j fate extrasFate =>
      have hji : j ≠ i := of_decide_eq_false ha
      simp only [step]
      split
      · rfl
      · exact ends_eq_iff.2 ⟨rfl, List.getElem?_set_ne hji, rfl⟩
  | join secret sid scalar reply extras fate =>
      exact ends_eq_iff.2 ⟨rfl, List.getElem?_append_left hi, rfl⟩
  | complete j mr fate =>
      simp only [step]
      split <;> rfl
  | collectV1 j ct =>
      simp only [step]
      split <;> rfl
  | _ => rfl

/-- No receiver is forgotten. -/
theorem length_receivers_step (hi : i < s.receivers.length) (a : Act) :
    i < (s.step p o c a).receivers.length := by
  cases a with
  | host e =>
      rw [step, (receivers_hostStep s e).1]
      exact hi
  | hear reply extras =>
      rw [step, receivers_hear]
      exact hi
  | join secret sid scalar reply extras fate =>
      rw [step, List.length_append]
      exact Nat.lt_add_right 1 hi
  | greet j ms fate =>
      rw [step]
      split
      · exact hi
      · simpa [setReceiver] using hi
  | collect j ct =>
      rw [step]
      split
      · exact hi
      · simpa [setReceiver] using hi
  | answer j fate extrasFate =>
      rw [step]
      split
      · exact hi
      · simpa [setReceiver] using hi
  | complete j mr fate =>
      rw [step]
      split <;> exact hi
  | collectV1 j ct =>
      rw [step]
      split <;> exact hi
  | _ => exact hi

/-- What the others do makes no difference to how an exchange ends. -/
theorem ends_foldl (hi : i < s.receivers.length) (as : List Act) :
    (as.foldl (step p o c) s).ends i = ((as.filter (concerns i)).foldl (step p o c) s).ends i :=
  foldl_view (I := fun s : Parties => i < s.receivers.length)
    (fun _ a hi => length_receivers_step hi a) (fun _ _ hi ha => ends_step_of_not_concerns hi ha)
    (fun _ _ _ _ _ ha h => ends_step_of_concerns ha h) hi hi rfl as

/-! ### One exchange -/

/-- Where the host and the receiver stand. -/
structure Stand (i : ℕ) (R : Run) (saved : HostState) (r : Receiver) (heard : List Paired)
    (s : Parties) : Prop where
  run : s.host.run = some R
  saved : s.host.saved = saved
  receiver : s.receivers[i]? = some r
  paired : s.paired = heard

variable {R R' : Run} {saved : HostState} {r : Receiver} {heard : List Paired}
  {scalar mr key ct sid : Bytes} {x : Session}

/-- A step of the host that counts nothing. -/
theorem Stand.host (h : s.Stand i R saved r heard) {e : Event} (he : e ≠ .count)
    (hrun : (s.host.turn o (p.pake c.secret) R R.stage e).run = some R')
    (hsaved : (s.host.turn o (p.pake c.secret) R R.stage e).saved = s.host.saved) :
    (s.step p o c (.host e)).Stand i R' saved r heard := by
  obtain ⟨hreceivers, hpaired⟩ := receivers_hostStep (p := p) (o := o) (c := c) s e
  have hhost : (s.hostStep p o c e).host = s.host.turn o (p.pake c.secret) R R.stage e := by
    have hstep : s.host.step o (p.pake c.secret) e =
        s.host.turn o (p.pake c.secret) R R.stage e := by
      simp only [Host.step, h.run]
    simp only [hostStep, hstep]
    split
    · rfl
    · split_ifs <;> rfl
    · exact absurd rfl he
    · rfl
  constructor
  · rw [step, hhost, hrun]
  · rw [step, hhost, hsaved, h.saved]
  · rw [step, hreceivers, h.receiver]
  · rw [step, hpaired, h.paired]

theorem Stand.receive (h : s.Stand i R saved r heard) {sid : String}
    (hstage : R.stage = .reading sid) (hmr : mr ∉ R.emitted) (scalar : Bytes) :
    ∃ x : Session, x.sid = sid ∧ x.scalar = scalar ∧ x.mr = mr ∧
      (s.step p o c (.host (.receive (some mr) scalar))).Stand i
        { R with emitted := p.start c.secret scalar :: R.emitted, stage := .greeting x }
        saved r heard := by
  refine ⟨⟨sid, scalar, mr, mr ∈ s.host.posted, none⟩, rfl, rfl, rfl, h.host (by simp) ?_ ?_⟩
  all_goals
    rw [hstage]
    simp only [Host.turn, Host.receive, if_neg hmr]
    rfl

theorem Stand.greeted (h : s.Stand i R saved r heard) (hstage : R.stage = .greeting x)
    (hkey : c.key p x = some key) :
    (s.step p o c (.host (.put .landed))).Stand i { R with stage := .confirming x key }
      saved r heard := by
  have hfinish : (p.pake c.secret).finish x.scalar x.mr = some key := hkey
  refine h.host (by simp) ?_ ?_
  all_goals
    rw [hstage]
    simp only [Host.turn, Host.greet, hfinish]
    rfl

theorem Stand.confirmed (h : s.Stand i R saved r heard) (hstage : R.stage = .confirming x key) :
    ∃ y : Session, c.side y = c.side x ∧ y.sid = x.sid ∧
      (s.step p o c (.host (.confirmation (some (p.confirmMac key c.slot x.sid))))).Stand i
        { R with stage := .sealing y } saved r heard := by
  have hmac : p.confirmMac key c.slot x.sid = (p.pake c.secret).confirmMac key x.sid := rfl
  refine ⟨{ x with got := some (p.confirmMac key c.slot x.sid) }, rfl, rfl, h.host (by simp) ?_ ?_⟩
  all_goals
    rw [hstage]
    simp only [Host.turn, Host.confirm, if_pos hmac]
    rfl

theorem Stand.delivered (h : s.Stand i R saved r heard) (hstage : R.stage = .sealing x) :
    (s.step p o c (.host (.put .landed))).Stand i { R with stage := .paired x } saved r heard := by
  refine h.host (by simp) ?_ ?_
  all_goals
    rw [hstage]
    rfl

/-- A step of the receiver. -/
theorem Stand.act (h : s.Stand i R saved r heard) {r' : Receiver} {s' : Parties}
    (hhost : s'.host = s.host) (hpaired : s'.paired = s.paired)
    (hreceivers : s'.receivers = s.receivers.set i r') : s'.Stand i R saved r' heard where
  run := by rw [hhost, h.run]
  saved := by rw [hhost, h.saved]
  paired := by rw [hpaired, h.paired]
  receiver := by rw [hreceivers, List.getElem?_set_self', h.receiver]; rfl

end Parties

namespace Receiver

variable {p : CodePrims} {r : Receiver} {key body ct : Bytes}

/-- It has posted its message and read nothing yet. -/
structure Waiting (r : Receiver) : Prop where
  theirs : r.theirs = none
  payload : r.payload = none
  ended : r.ended = false

theorem greet_of_key (h : r.Waiting) {ms : Bytes} (hkey : (r.side ms).key p.toExchange = some key) :
    (r.greet p ms .landed).1 = { r with theirs := some ms } := by
  have hdone : ¬ (r.ended ∨ r.theirs.isSome) := by simp [h.ended, h.theirs]
  rw [greet, if_neg hdone, hkey]
  simp [h.ended]

theorem collect_of_key (hended : r.ended = false) (hnone : r.payload = none)
    (hkey : r.key p = some key)
    (hopen : p.openWith (p.ticketKey32 key r.slot r.sid) ct = some body) :
    r.collect p ct = { r with payload := some body } := by
  have hdone : ¬ (r.ended ∨ r.payload.isSome) := by simp [hended, hnone]
  simp only [collect, if_neg hdone, hkey, hopen]

theorem answer_of_key (hended : r.ended = false) (hpayload : r.payload = some body)
    (hkey : r.key p = some key)
    (hreply : r.reply.map (p.sealWith (p.replyKey32 key r.slot r.sid)) ≠ some none)
    (fate : Put) :
    (r.answer p .landed fate).1 =
      { r with result := some (body, r.reply.isSome), ended := true } := by
  simp only [answer, hended, hpayload, hkey, if_neg hreply, Option.isSome_map, decide_true,
    Bool.and_true]

end Receiver

/-- The two sides of an exchange have one key, and this is what they post under it. -/
structure Exchanged (p : CodePrims) (c : Hosted) (r : Receiver) (scalar key ct : Bytes)
    (back : Way → Option Bytes) : Prop where
  secret : r.secret = c.secret
  finish : p.finish c.secret scalar (p.start c.secret r.scalar) = some key
  ticket : p.sealWith (p.ticketKey32 key c.slot r.sid) c.payload =
    some (p.ticketKey32 key c.slot r.sid, ct)
  posted : ∀ w, (r.body w).map (p.sealWith (p.backKey32 w key c.slot r.sid)) =
    (back w).map fun ct => some (p.backKey32 w key c.slot r.sid, ct)

namespace Exchanged

variable {p : CodePrims} {c : Hosted} {r : Receiver} {scalar key ct : Bytes}
  {back : Way → Option Bytes}

theorem slot (h : Exchanged p c r scalar key ct back) : r.slot = c.slot :=
  congrArg nameplate h.secret

/-- The receiver has the host's key. -/
theorem side_key (h : Exchanged p c r scalar key ct back) (hp : p.toExchange.Agreeing) :
    (r.side (p.start c.secret scalar)).key p.toExchange = some key := by
  have hkey : p.finish c.secret r.scalar (p.start c.secret scalar) = some key := by
    rw [hp c.secret r.scalar scalar, h.finish]
  rw [Side.key, Receiver.side, h.secret, hkey]

theorem openWith_ticket (h : Exchanged p c r scalar key ct back) (haead : p.aead.Lawful) :
    p.openWith (p.ticketKey32 key r.slot r.sid) ct = some c.payload := by
  rw [h.slot]
  exact haead.decrypt_encrypt (CodePrims.sealWith_eq_some h.ticket).2

/-- What is posted under a key opens under it. -/
theorem openWith_back (h : Exchanged p c r scalar key ct back) (haead : p.aead.Lawful) (w : Way) :
    ((back w).bind (p.openWith (p.backKey32 w key c.slot r.sid))) = r.body w := by
  have hposted := h.posted w
  cases hbody : r.body w with
  | none =>
      rw [hbody, Option.map_none, eq_comm, Option.map_eq_none_iff] at hposted
      rw [hposted, Option.bind_none]
  | some body =>
      rw [hbody, Option.map_some, eq_comm, Option.map_eq_some_iff] at hposted
      obtain ⟨ct, hct, hseal⟩ := hposted
      rw [hct, Option.bind_some]
      exact haead.decrypt_encrypt (CodePrims.sealWith_eq_some hseal.symm).2

theorem reply_ne (h : Exchanged p c r scalar key ct back) :
    r.reply.map (p.sealWith (p.replyKey32 key r.slot r.sid)) ≠ some none := by
  rw [h.slot]
  have hposted : r.reply.map (p.sealWith (p.replyKey32 key c.slot r.sid)) =
    (back .reply).map fun ct => some (p.replyKey32 key c.slot r.sid, ct) := h.posted .reply
  rw [hposted]
  cases back .reply <;> simp

end Exchanged

namespace Parties

/-- The steps of one exchange, where each side reads what the other has posted. -/
def exchange (p : CodePrims) (c : Hosted) (i : ℕ) (r : Receiver) (scalar key ct : Bytes)
    (back : Way → Option Bytes) : List Act :=
  [.host (.receive (some (p.start r.secret r.scalar)) scalar), .host (.put .landed),
    .greet i (p.start c.secret scalar) .landed,
    .host (.confirmation (some (p.confirmMac key r.slot r.sid))), .host (.put .landed),
    .collect i ct, .answer i .landed .landed, .hear (back .reply) (back .extras)]

variable {p : CodePrims} {o : HostOpts} {c : Hosted} {s : Parties} {i : ℕ} {R : Run}
  {saved : HostState} {r : Receiver} {heard : List Paired} {x : Session} {scalar key ct : Bytes}
  {back : Way → Option Bytes}

theorem Stand.greet (h : s.Stand i R saved r heard) (ms : Bytes) :
    (s.step p o c (.greet i ms .landed)).Stand i R saved (r.greet p ms .landed).1 heard := by
  simp only [step, h.receiver]
  exact h.act rfl rfl rfl

theorem Stand.collect (h : s.Stand i R saved r heard) (ct : Bytes) :
    (s.step p o c (.collect i ct)).Stand i R saved (r.collect p ct) heard := by
  simp only [step, h.receiver]
  exact h.act rfl rfl rfl

theorem Stand.answer (h : s.Stand i R saved r heard) (fate : Put) :
    (s.step p o c (.answer i .landed fate)).Stand i R saved (r.answer p .landed fate).1 heard := by
  simp only [step, h.receiver]
  exact h.act rfl rfl rfl

/-- The host looks for what came back, and counts the session. -/
theorem Stand.counted (h : s.Stand i R saved r heard) (hstage : R.stage = .paired x)
    (reply extras : Option Bytes) :
    (s.step p o c (.hear reply extras)).Stand i
      { R with
        state := { R.state with sessionsDone := R.state.sessionsDone + 1 }
        stage := .listed }
      { R.state with sessionsDone := R.state.sessionsDone + 1 } r
      (⟨x, c.hear p p.replyKey32 x reply, c.hear p p.extrasKey32 x extras⟩ :: heard) := by
  have hstand : s.stage = some (.paired x) := by rw [stage, h.run, Option.map_some, hstage]
  have hcredit : s.host.step o (p.pake c.secret) .count = s.host.credit R := by
    simp only [Host.step, h.run, hstage, Host.turn]
  constructor
  · rw [step, hear, hstand, hcredit]
    rfl
  · rw [step, hear, hstand, hcredit]
    rfl
  · rw [step, receivers_hear, h.receiver]
  · rw [step, hear, hstand, ← h.paired]

/-- Whatever is done meanwhile, the receiver returns the payload, and the host hears its reply
and its extras if it asks for them. -/
theorem exchange_foldl (hp : p.toExchange.Agreeing) (haead : p.aead.Lawful)
    (hrun : s.host.run = some R) (hstage : R.stage = .reading r.sid)
    (hr : s.receivers[i]? = some r) (hwait : r.Waiting)
    (hnew : p.start r.secret r.scalar ∉ R.emitted)
    (hex : Exchanged p c r scalar key ct back) {as : List Act}
    (has : as.filter (concerns i) = exchange p c i r scalar key ct back) :
    let s' := as.foldl (step p o c) s
    (∃ r', s'.receivers[i]? = some r' ∧ r'.result = some (c.payload, r.reply.isSome)) ∧
      (∃ x, x.sid = r.sid ∧ s'.paired =
        ⟨x, if c.awaitReply then r.reply else none, if c.awaitReply then r.extras else none⟩ ::
          s.paired) ∧
      s'.host.saved = { R.state with sessionsDone := R.state.sessionsDone + 1 } := by
  intro s'
  have hi : i < s.receivers.length := (List.getElem?_eq_some_iff.1 hr).1
  have hends : s'.ends i = ((exchange p c i r scalar key ct back).foldl (step p o c) s).ends i := by
    rw [← has]
    exact ends_foldl hi as
  have h₀ : s.Stand i R s.host.saved r s.paired := ⟨hrun, rfl, hr, rfl⟩
  obtain ⟨x, hsid, hscalar, hmr, h₁⟩ := h₀.receive (p := p) (o := o) (c := c) hstage hnew
    scalar
  have hkey : c.key p x = some key := by
    rw [Hosted.key, Side.key, Hosted.side, hscalar, hmr, hex.secret, hex.finish]
  have h₂ := h₁.greeted (o := o) rfl hkey
  -- the receiver reads the host's message, and confirms
  have hside := hex.side_key hp
  let r₁ : Receiver := { r with theirs := some (p.start c.secret scalar) }
  have h₃ := h₂.greet (p := p) (o := o) (c := c) (p.start c.secret scalar)
  rw [Receiver.greet_of_key hwait hside] at h₃
  obtain ⟨y, hside', hsid', h₄⟩ := h₃.confirmed (p := p) (o := o) (c := c) rfl
  have h₅ := h₄.delivered (p := p) (o := o) (c := c) rfl
  -- it opens the ticket, and answers
  let r₂ : Receiver := { r₁ with payload := some c.payload }
  have hopened : r₁.collect p ct = r₂ :=
    Receiver.collect_of_key (r := r₁) hwait.ended hwait.payload hside (hex.openWith_ticket haead)
  have hanswered : (r₂.answer p .landed .landed).1 =
      { r₂ with result := some (c.payload, r.reply.isSome), ended := true } :=
    Receiver.answer_of_key (r := r₂) hwait.ended rfl hside hex.reply_ne .landed
  have h₆ := h₅.collect (p := p) (o := o) (c := c) ct
  rw [hopened] at h₆
  have h₇ := h₆.answer (p := p) (o := o) (c := c) .landed
  rw [hanswered] at h₇
  have h₈ := h₇.counted (p := p) (o := o) (c := c) rfl (back .reply) (back .extras)
  rw [hsid, ← hex.slot] at h₈
  obtain ⟨hhost, hreceiver, hpaired⟩ := ends_eq_iff.1 hends
  have hykey : c.key p y = some key := by rw [Hosted.key, hside', ← Hosted.key, hkey]
  have hheard : ∀ w, c.hear p (p.backKey32 w) y (back w) =
      if c.awaitReply then r.body w else none := by
    intro w
    rw [Hosted.hear, hykey, Option.bind_some, hsid', hsid, hex.openWith_back haead w]
  refine ⟨⟨_, hreceiver.trans h₈.receiver, rfl⟩, ⟨y, hsid'.trans hsid, ?_⟩, ?_⟩
  · rw [hpaired]
    refine h₈.paired.trans ?_
    exact congrArg₂ (fun reply extras => (⟨y, reply, extras⟩ : Paired) :: s.paired)
      (hheard .reply) (hheard .extras)
  · rw [hhost]
    exact h₈.saved

/-- Another receiver joins, and somebody tries a code, while the exchange goes on. -/
theorem exchange_foldl_one :
    let r : Receiver :=
      { secret := "7-red-owl", sid := "k3", scalar := [5], reply := some [3], extras := none }
    let s : Parties :=
      { host := { run := some { state := {}, stage := .reading "k3" } }, receivers := [r] }
    let as : List Act :=
      [.host (.receive (some [5]) [6]), .join "7-red-owl" "k4" [8] none none .landed,
        .host (.put .landed), .greet 0 [6] .landed, .guess "7-red-fox" [9], .greet 1 [9] .landed,
        .host (.confirmation
          (some (CodePrims.framed.confirmMac (bytesOf "7-red-owl" ++ [5, 6]) "7" "k3"))),
        .host (.put .landed), .collect 0 ([1, 2] ++ List.replicate 16 0),
        .answer 0 .landed .landed, .hear (some ([3] ++ List.replicate 16 0)) none]
    let s' := as.foldl (step .framed {} ⟨"7-red-owl", [1, 2], true⟩) s
    (∃ r', s'.receivers[0]? = some r' ∧ r'.result = some ([1, 2], true)) ∧
      (∃ x : Session, x.sid = "k3" ∧ s'.paired = [⟨x, some [3], none⟩]) ∧
      s'.host.saved = { sessionsDone := 1, failures := 0 } := by
  intro r s as
  let back (w : Way) : Option Bytes :=
    if w = .reply then some ([3] ++ List.replicate 16 0) else none
  have hex : Exchanged .framed ⟨"7-red-owl", [1, 2], true⟩ r [6] (bytesOf "7-red-owl" ++ [5, 6])
      ([1, 2] ++ List.replicate 16 0) back := by
    refine ⟨rfl, by decide +kernel, by decide +kernel, fun w => ?_⟩
    cases w <;> decide +kernel
  have hslot : r.slot = "7" := by decide +kernel
  have has : as.filter (concerns 0) = exchange .framed ⟨"7-red-owl", [1, 2], true⟩ 0 r [6]
      (bytesOf "7-red-owl" ++ [5, 6]) ([1, 2] ++ List.replicate 16 0) back := by
    rw [exchange, hslot]
    rfl
  have hrun : s.host.run = some { state := {}, stage := .reading r.sid } := rfl
  have hr : s.receivers[0]? = some r := rfl
  have hnew : CodePrims.framed.start r.secret r.scalar ∉ ([] : List Bytes) := by simp
  have hwait : r.Waiting := ⟨rfl, rfl, rfl⟩
  have hdone := exchange_foldl (o := {}) CodePrims.framed_agreeing Crypto.Aead.tagged_lawful hrun
    rfl hr hwait hnew hex has
  exact hdone

end Parties

end Arvolo.Code
