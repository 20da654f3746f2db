import Arvolo.Code.Handover

/-!
What the parties to a pairing code agree on, in every order of their steps.

Every confirmation and every ciphertext an honest party has made is accounted for, with the
exchange whose key it was made under. A receiver that opens a ticket then has the key of a session
the host delivered, for the keys of different sessions, and those of different uses, are different.
Nothing is derived from one key by both the newer and the older exchange, so a receiver that is
led to the older one cannot be given what the host sealed.
-/

namespace Arvolo.Code

open Lib
open Crypto (Aead sealChunk openChunk)

/-! ### What goes on growing -/

namespace Receiver

variable {p : CodePrims} {r r' : Receiver}

/-- What a receiver has read and opened stays. -/
structure Grows (r r' : Receiver) : Prop where
  secret : r'.secret = r.secret
  sid : r'.sid = r.sid
  scalar : r'.scalar = r.scalar
  reply : r'.reply = r.reply
  extras : r'.extras = r.extras
  theirs : ∀ ms, r.theirs = some ms → r'.theirs = some ms
  payload : ∀ body, r.payload = some body → r'.payload = some body

theorem Grows.refl (r : Receiver) : r.Grows r :=
  ⟨rfl, rfl, rfl, rfl, rfl, fun _ h => h, fun _ h => h⟩

theorem Grows.body (h : r.Grows r') (w : Way) : r'.body w = r.body w := by
  cases w with
  | reply => exact h.reply
  | extras => exact h.extras

theorem Grows.slot (h : r.Grows r') : r'.slot = r.slot := congrArg nameplate h.secret

theorem Grows.side (h : r.Grows r') (ms : Bytes) : r'.side ms = r.side ms := by
  rw [Receiver.side, Receiver.side, h.secret, h.scalar]

theorem key_eq_some {key : Bytes} :
    r.key p = some key ↔ ∃ ms, r.theirs = some ms ∧ (r.side ms).key p.toExchange = some key :=
  Option.bind_eq_some_iff

theorem Grows.key (h : r.Grows r') {key : Bytes} (hkey : r.key p = some key) :
    r'.key p = some key := by
  obtain ⟨ms, hms, hkey⟩ := key_eq_some.1 hkey
  rw [← h.side ms] at hkey
  exact key_eq_some.2 ⟨ms, h.theirs ms hms, hkey⟩

theorem greet_grows (p : CodePrims) (r : Receiver) (ms : Bytes) (fate : Put) :
    r.Grows (r.greet p ms fate).1 := by
  rw [greet]
  by_cases hdone : r.ended ∨ r.theirs.isSome
  · rw [if_pos hdone]
    exact Grows.refl r
  · rw [if_neg hdone]
    obtain ⟨-, hnone⟩ := not_or.1 hdone
    rw [Option.not_isSome_iff_eq_none] at hnone
    split
    · exact ⟨rfl, rfl, rfl, rfl, rfl, fun _ h => h, fun _ h => h⟩
    · exact ⟨rfl, rfl, rfl, rfl, rfl, fun _ h => by simp [hnone] at h, fun _ h => h⟩

theorem collect_grows (p : CodePrims) (r : Receiver) (ct : Bytes) : r.Grows (r.collect p ct) := by
  rw [collect]
  split_ifs with hdone
  · exact Grows.refl r
  · obtain ⟨-, hnone⟩ := not_or.1 hdone
    rw [Option.not_isSome_iff_eq_none] at hnone
    split
    · exact Grows.refl r
    · split
      · exact ⟨rfl, rfl, rfl, rfl, rfl, fun _ h => h, fun _ h => h⟩
      · exact ⟨rfl, rfl, rfl, rfl, rfl, fun _ h => h, fun _ h => by simp [hnone] at h⟩

theorem answer_grows (p : CodePrims) (r : Receiver) (fate extrasFate : Put) :
    r.Grows (r.answer p fate extrasFate).1 := by
  unfold answer
  split
  · dsimp only
    split_ifs
    all_goals exact ⟨rfl, rfl, rfl, rfl, rfl, fun _ h => h, fun _ h => h⟩
  · exact Grows.refl r

end Receiver

namespace PairComplete

variable {p : CodePrims} {q q' : PairComplete}

structure Grows (q q' : PairComplete) : Prop where
  secret : q'.secret = q.secret
  scalar : q'.scalar = q.scalar
  payload : q'.payload = q.payload
  theirs : ∀ mr, q.theirs = some mr → q'.theirs = some mr

theorem Grows.refl (q : PairComplete) : q.Grows q := ⟨rfl, rfl, rfl, fun _ h => h⟩

theorem Grows.side (h : q.Grows q') (mr : Bytes) : q'.side mr = q.side mr := by
  rw [PairComplete.side, PairComplete.side, h.secret, h.scalar]

theorem run_grows (p : CodePrims) (q : PairComplete) (mr : Bytes) (fate : Put) :
    q.Grows (q.run p mr fate).1 := by
  rw [run]
  by_cases hdone : q.theirs.isSome
  · rw [if_pos hdone]
    exact Grows.refl q
  · rw [if_neg hdone]
    rw [Option.not_isSome_iff_eq_none] at hdone
    exact ⟨rfl, rfl, rfl, fun _ h => by simp [hdone] at h⟩

end PairComplete

namespace Parties

variable {p : CodePrims} {o : HostOpts} {c : Hosted} {s s' : Parties}

/-- A step takes nothing back. -/
structure Grows (s s' : Parties) : Prop where
  drawn : s.drawn ⊆ s'.drawn
  delivered : s.host.delivered ⊆ s'.host.delivered
  receivers : ∀ r ∈ s.receivers, ∃ r' ∈ s'.receivers, r.Grows r'
  senders : ∀ q ∈ s.senders, ∃ q' ∈ s'.senders, q.Grows q'
  guesses : s.guesses ⊆ s'.guesses
  macs : s.macs ⊆ s'.macs
  seals : s.seals ⊆ s'.seals

/-- Where the receivers and senders are those that were there, and maybe more. -/
theorem Grows.of_subset (hdrawn : s.drawn ⊆ s'.drawn)
    (hdelivered : s.host.delivered ⊆ s'.host.delivered) (hreceivers : s.receivers ⊆ s'.receivers)
    (hsenders : s.senders ⊆ s'.senders) (hguesses : s.guesses ⊆ s'.guesses)
    (hmacs : s.macs ⊆ s'.macs) (hseals : s.seals ⊆ s'.seals) : s.Grows s' where
  drawn := hdrawn
  delivered := hdelivered
  receivers r hr := ⟨r, hreceivers hr, .refl r⟩
  senders q hq := ⟨q, hsenders hq, .refl q⟩
  guesses := hguesses
  macs := hmacs
  seals := hseals

/-- One of a list gives way to what it has grown to. -/
theorem exists_mem_set {α : Type} {R : α → α → Prop} (hrefl : ∀ a, R a a) {l : List α} {i : ℕ}
    {a b : α} (hi : l[i]? = some a) (hab : R a b) : ∀ x ∈ l, ∃ y ∈ l.set i b, R x y := by
  intro x hx
  obtain ⟨j, hj⟩ := List.mem_iff_getElem?.1 hx
  by_cases hji : j = i
  · rw [hji, hi] at hj
    obtain rfl := Option.some.inj hj
    exact ⟨b, (mem_set_iff hi b b).2 (.inl rfl), hab⟩
  · exact ⟨x, (mem_set_iff hi b x).2 (.inr ⟨j, hji, hj⟩), hrefl x⟩

theorem map_set_of_eq {α β : Type} (f : α → β) {l : List α} {i : ℕ} {a b : α}
    (hi : l[i]? = some a) (hf : f b = f a) : (l.set i b).map f = l.map f := by
  rw [List.map_set, hf]
  refine List.ext_getElem? fun j => ?_
  rw [List.getElem?_set]
  split_ifs with hij hlt
  · rw [← hij, List.getElem?_map, hi, Option.map_some]
  · rw [← hij, eq_comm, List.getElem?_eq_none_iff]
    exact not_lt.1 hlt
  · rfl

/-! ### Where what there is comes from -/

section

variable (p c s)

/-- A confirmation is that of a receiver, for its session. -/
def MacOrigin (m : Bytes) : Prop :=
  ∃ r ∈ s.receivers, ∃ key, r.key p = some key ∧ m = p.confirmMac key r.slot r.sid

/-- Whose a ciphertext is. -/
inductive Origin : Bytes × Bytes → Prop
  | ticket {q : Bytes × Bytes} (x : Session) (hx : x ∈ s.host.delivered)
      (h : c.ticketFor p x = some q) : Origin q
  | back {q : Bytes × Bytes} (w : Way) (r : Receiver) (hr : r ∈ s.receivers) (key body : Bytes)
      (hkey : r.key p = some key) (hopened : r.payload.isSome) (hbody : r.body w = some body)
      (h : p.sealWith (p.backKey32 w key r.slot r.sid) body = some q) : Origin q
  | legacy {q : Bytes × Bytes} (z : PairComplete) (hz : z ∈ s.senders) (mr key : Bytes)
      (hmr : z.theirs = some mr) (hkey : (z.side mr).key p.toExchange = some key)
      (h : p.sealWith (p.key32 key) z.payload = some q) : Origin q

/-- The receiver has shown that it has the host's key. -/
structure Confirmed (x : Session) : Prop where
  drawn : x.scalar ∈ s.drawn
  mac : ∃ key, c.key p x = some key ∧
    (p.confirmMac key c.slot x.sid ∈ s.macs ∨ p.Known s.guesses key)

/-- A text that was opened under a key derived from an exchange's. -/
def Found (pakeKey key body : Bytes) : Prop :=
  ∃ ct, p.openWith key ct = some body ∧ ((key, ct) ∈ s.seals ∨ p.Known s.guesses pakeKey)

def Opened (r : Receiver) : Prop :=
  ∀ body, r.payload = some body →
    ∃ key, r.key p = some key ∧ s.Found p key (p.ticketKey32 key r.slot r.sid) body

def OpenedV1 (r : ReceiverV1) : Prop :=
  ∀ body, r.payload = some body →
    ∃ key, r.side.key p.toExchange = some key ∧ s.Found p key (p.key32 key) body

/-- The reply and the extras of a session that was delivered. -/
structure Heard (q : Paired) : Prop where
  delivered : q.session ∈ s.host.delivered
  heard : ∀ w body, q.heard w = some body → ∃ key, c.key p q.session = some key ∧
    s.Found p key (p.backKey32 w key c.slot q.session.sid) body

def StageOk : Stage → Prop
  | .echoing x | .greeting x => x.scalar ∈ s.drawn
  | .confirming x key => x.scalar ∈ s.drawn ∧ c.key p x = some key
  | .sealing x => s.Confirmed p c x
  | .paired x => x ∈ s.host.delivered
  | _ => True

/-- Nobody has sent what another has. -/
structure Apart : Prop where
  host : ∀ m ∈ s.hostMessages p c, m ∉ s.receiverMessages p
  old : ∀ m ∈ s.senderMessages p, m ∉ s.messagesV1 p
  tried : ∀ m ∈ s.tried p, m ∉ s.honest p c

structure Inv : Prop where
  stage : ∀ st, s.stage = some st → s.StageOk p c st
  delivered : ∀ x ∈ s.host.delivered, s.Confirmed p c x
  receivers : ∀ r ∈ s.receivers, s.Opened p r
  receiversV1 : ∀ r ∈ s.receiversV1, s.OpenedV1 p r
  macs : ∀ m ∈ s.macs, s.MacOrigin p m
  seals : ∀ q ∈ s.seals, s.Origin p c q
  paired : ∀ q ∈ s.paired, s.Heard p c q
  apart : s.Apart p c

end

theorem inv_empty : ({} : Parties).Inv p c := by
  constructor
  case apart => constructor <;> simp [hostMessages, senderMessages, tried]
  all_goals simp [stage]

/-! ### It stays so -/

theorem MacOrigin.grows (hg : s.Grows s') {m : Bytes} (h : s.MacOrigin p m) : s'.MacOrigin p m := by
  obtain ⟨r, hr, key, hkey, rfl⟩ := h
  obtain ⟨r', hr', hgrow⟩ := hg.receivers r hr
  exact ⟨r', hr', key, hgrow.key hkey, by rw [hgrow.slot, hgrow.sid]⟩

theorem Origin.grows (hg : s.Grows s') {q : Bytes × Bytes} (h : s.Origin p c q) :
    s'.Origin p c q := by
  have hopen : ∀ {r r' : Receiver}, r.Grows r' → r.payload.isSome → r'.payload.isSome := by
    intro r r' hgrow hopened
    obtain ⟨body, hbody⟩ := Option.isSome_iff_exists.1 hopened
    exact Option.isSome_iff_exists.2 ⟨body, hgrow.payload body hbody⟩
  cases h with
  | ticket x hx h => exact .ticket x (hg.delivered hx) h
  | back w r hr key body hkey hopened hbody h =>
      obtain ⟨r', hr', hgrow⟩ := hg.receivers r hr
      exact .back w r' hr' key body (hgrow.key hkey) (hopen hgrow hopened)
        ((hgrow.body w).trans hbody) (by rwa [hgrow.slot, hgrow.sid])
  | legacy z hz mr key hmr hkey h =>
      obtain ⟨z', hz', hgrow⟩ := hg.senders z hz
      exact .legacy z' hz' mr key (hgrow.theirs mr hmr) (by rwa [hgrow.side mr])
        (by rwa [hgrow.payload])

theorem Confirmed.grows (hg : s.Grows s') {x : Session} (h : s.Confirmed p c x) :
    s'.Confirmed p c x where
  drawn := hg.drawn h.drawn
  mac := by
    obtain ⟨key, hkey, hmac⟩ := h.mac
    exact ⟨key, hkey, hmac.imp (fun hmac => hg.macs hmac) fun hk => hk.mono hg.guesses⟩

theorem Found.grows (hg : s.Grows s') {pakeKey key body : Bytes}
    (h : s.Found p pakeKey key body) : s'.Found p pakeKey key body := by
  obtain ⟨ct, hct, hfrom⟩ := h
  exact ⟨ct, hct, hfrom.imp (fun hseal => hg.seals hseal) fun hk => hk.mono hg.guesses⟩

theorem Opened.grows (hg : s.Grows s') {r : Receiver} (h : s.Opened p r) : s'.Opened p r := by
  intro body hbody
  obtain ⟨key, hkey, hfound⟩ := h body hbody
  exact ⟨key, hkey, hfound.grows hg⟩

theorem OpenedV1.grows (hg : s.Grows s') {r : ReceiverV1} (h : s.OpenedV1 p r) :
    s'.OpenedV1 p r := by
  intro body hbody
  obtain ⟨key, hkey, hfound⟩ := h body hbody
  exact ⟨key, hkey, hfound.grows hg⟩

theorem Heard.grows (hg : s.Grows s') {q : Paired} (h : s.Heard p c q) : s'.Heard p c q where
  delivered := hg.delivered h.delivered
  heard w body hbody := by
    obtain ⟨key, hkey, hfound⟩ := h.heard w body hbody
    exact ⟨key, hkey, hfound.grows hg⟩

theorem StageOk.grows (hg : s.Grows s') {st : Stage} (h : s.StageOk p c st) :
    s'.StageOk p c st := by
  cases st with
  | echoing x => exact hg.drawn h
  | greeting x => exact hg.drawn h
  | confirming x key => exact ⟨hg.drawn h.1, h.2⟩
  | sealing x => exact Confirmed.grows hg h
  | paired x => exact hg.delivered h
  | _ => trivial

/-- What is new has to be accounted for, and nothing else. -/
theorem Inv.grow (h : s.Inv p c) (hg : s.Grows s')
    (hstage : ∀ st, s'.stage = some st → s.stage = some st ∨ s'.StageOk p c st)
    (hdelivered : ∀ x ∈ s'.host.delivered, x ∈ s.host.delivered ∨ s'.Confirmed p c x)
    (hreceivers : ∀ r ∈ s'.receivers, r ∈ s.receivers ∨ s'.Opened p r)
    (hreceiversV1 : ∀ r ∈ s'.receiversV1, r ∈ s.receiversV1 ∨ s'.OpenedV1 p r)
    (hmacs : ∀ m ∈ s'.macs, m ∈ s.macs ∨ s'.MacOrigin p m)
    (hseals : ∀ q ∈ s'.seals, q ∈ s.seals ∨ s'.Origin p c q)
    (hpaired : ∀ q ∈ s'.paired, q ∈ s.paired ∨ s'.Heard p c q)
    (hapart : s'.Apart p c) : s'.Inv p c where
  stage st hst := (hstage st hst).elim (fun hold => (h.stage st hold).grows hg) id
  delivered x hx := (hdelivered x hx).elim (fun hold => (h.delivered x hold).grows hg) id
  receivers r hr := (hreceivers r hr).elim (fun hold => (h.receivers r hold).grows hg) id
  receiversV1 r hr := (hreceiversV1 r hr).elim (fun hold => (h.receiversV1 r hold).grows hg) id
  macs m hm := (hmacs m hm).elim (fun hold => (h.macs m hold).grows hg) id
  seals q hq := (hseals q hq).elim (fun hold => (h.seals q hold).grows hg) id
  paired q hq := (hpaired q hq).elim (fun hold => (h.paired q hold).grows hg) id
  apart := hapart

/-- The same messages and the same guesses. -/
theorem Apart.of_eq (h : s.Apart p c) (hhost : s'.hostMessages p c = s.hostMessages p c)
    (hreceiver : s'.receiverMessages p = s.receiverMessages p)
    (hsender : s'.senderMessages p = s.senderMessages p)
    (hold : s'.messagesV1 p = s.messagesV1 p) (htried : s'.tried p = s.tried p) :
    s'.Apart p c where
  host := by
    rw [hhost, hreceiver]
    exact h.host
  old := by
    rw [hsender, hold]
    exact h.old
  tried := by
    rw [htried, honest, hhost, hreceiver, hsender, hold]
    exact h.tried

end Parties

/-! ### The steps of a receiver -/

namespace Receiver

variable {p : CodePrims} {r r' : Receiver}

theorem greet_macs {ms m : Bytes} {fate : Put} (hm : m ∈ (r.greet p ms fate).2) :
    ∃ key, (r.greet p ms fate).1.key p = some key ∧ m = p.confirmMac key r.slot r.sid := by
  unfold greet at hm ⊢
  by_cases hdone : r.ended ∨ r.theirs.isSome
  · rw [if_pos hdone] at hm
    exact absurd hm List.not_mem_nil
  · rw [if_neg hdone] at hm ⊢
    cases hkey : (r.side ms).key p.toExchange with
    | none =>
        rw [hkey] at hm
        exact absurd hm List.not_mem_nil
    | some key =>
        simp only [hkey] at hm
        refine ⟨key, key_eq_some.2 ⟨ms, rfl, hkey⟩, ?_⟩
        cases fate with
        | failed => exact absurd hm List.not_mem_nil
        | _ => exact List.mem_singleton.1 hm

theorem greet_payload (ms : Bytes) (fate : Put) : (r.greet p ms fate).1.payload = r.payload := by
  rw [greet]
  by_cases hdone : r.ended ∨ r.theirs.isSome
  · rw [if_pos hdone]
  · rw [if_neg hdone]
    cases (r.side ms).key p.toExchange <;> rfl

theorem collect_payload {ct body : Bytes} (h : (r.collect p ct).payload = some body) :
    r.payload = some body ∨ ∃ key, r.key p = some key ∧
      p.openWith (p.ticketKey32 key r.slot r.sid) ct = some body := by
  rw [collect] at h
  by_cases hdone : r.ended ∨ r.payload.isSome
  · rw [if_pos hdone] at h
    exact .inl h
  · rw [if_neg hdone] at h
    cases hkey : r.key p with
    | none =>
        rw [hkey] at h
        exact .inl h
    | some key =>
        simp only [hkey] at h
        cases hopen : p.openWith (p.ticketKey32 key r.slot r.sid) ct with
        | none =>
            rw [hopen] at h
            exact .inl h
        | some payload =>
            rw [hopen] at h
            obtain rfl : payload = body := Option.some.inj h
            exact .inr ⟨key, rfl, hopen⟩

theorem answer_payload (fate extrasFate : Put) :
    (r.answer p fate extrasFate).1.payload = r.payload := by
  unfold answer
  split
  · rename_i hpayload _
    dsimp only
    split_ifs
    all_goals rfl
  · rfl

/-- What it seals are its reply and its extras, after it has opened the payload. -/
theorem answer_seals {fate extrasFate : Put} {q : Bytes × Bytes}
    (hq : q ∈ (r.answer p fate extrasFate).2) :
    ∃ w key body, r.key p = some key ∧ r.payload.isSome ∧ r.body w = some body ∧
      p.sealWith (p.backKey32 w key r.slot r.sid) body = some q := by
  unfold answer at hq
  split at hq
  · rename_i payload key hended hpayload hkey
    have hopened : r.payload.isSome := by rw [hpayload]; rfl
    dsimp only at hq
    split at hq
    · exact absurd hq List.not_mem_nil
    · rcases List.mem_append.1 hq with hq | hq
      · cases fate with
        | failed => exact absurd hq List.not_mem_nil
        | _ =>
            obtain ⟨body, hbody, hseal⟩ := Option.map_eq_some_iff.1
              (Option.join_eq_some_iff.1 (Option.mem_toList.1 hq))
            exact ⟨.reply, key, body, hkey, hopened, hbody, hseal⟩
      · cases extrasFate with
        | failed => exact absurd hq List.not_mem_nil
        | _ =>
            obtain ⟨body, hbody, hseal⟩ := Option.bind_eq_some_iff.1 (Option.mem_toList.1 hq)
            exact ⟨.extras, key, body, hkey, hopened, hbody, hseal⟩
  · exact absurd hq List.not_mem_nil

end Receiver

namespace Parties

variable {p : CodePrims} {o : HostOpts} {c : Hosted} {s s' : Parties}

section

variable {i : ℕ} {r r' : Receiver} (macs : List Bytes) (seals : List (Bytes × Bytes))

theorem grows_setReceiver (hi : s.receivers[i]? = some r) (hgrow : r.Grows r') :
    s.Grows { s.setReceiver i r' with macs := macs ++ s.macs, seals := seals ++ s.seals } where
  drawn := List.Subset.refl _
  delivered := List.Subset.refl _
  receivers := exists_mem_set Receiver.Grows.refl hi hgrow
  senders q hq := ⟨q, hq, .refl q⟩
  guesses := List.Subset.refl _
  macs := List.subset_append_right _ _
  seals := List.subset_append_right _ _

/-- A receiver goes on. -/
theorem Inv.setReceiver (h : s.Inv p c) (hi : s.receivers[i]? = some r) (hgrow : r.Grows r')
    (hopened : s.Opened p r')
    (hmacs : ∀ m ∈ macs, ∃ key, r'.key p = some key ∧ m = p.confirmMac key r'.slot r'.sid)
    (hseals : ∀ q ∈ seals, ∃ w key body, r'.key p = some key ∧ r'.payload.isSome ∧
      r'.body w = some body ∧ p.sealWith (p.backKey32 w key r'.slot r'.sid) body = some q) :
    ({ s.setReceiver i r' with macs := macs ++ s.macs, seals := seals ++ s.seals } :
      Parties).Inv p c := by
  have hg := grows_setReceiver macs seals hi hgrow
  have hr' : r' ∈ s.receivers.set i r' := (mem_set_iff hi r' r').2 (.inl rfl)
  refine h.grow hg (fun st hst => .inl hst) (fun x hx => .inl hx) (fun a ha => ?_)
    (fun a ha => .inl ha) (fun m hm => ?_) (fun q hq => ?_) (fun q hq => .inl hq) ?_
  · rcases (mem_set_iff hi r' a).1 ha with rfl | ⟨k, -, hk⟩
    · exact .inr (hopened.grows hg)
    · exact .inl (List.mem_of_getElem? hk)
  · refine (List.mem_append.1 hm).symm.imp_right fun hm => ?_
    obtain ⟨key, hkey, rfl⟩ := hmacs m hm
    exact ⟨r', hr', key, hkey, rfl⟩
  · refine (List.mem_append.1 hq).symm.imp_right fun hq => ?_
    obtain ⟨w, key, body, hkey, hsome, hbody, hseal⟩ := hseals q hq
    exact .back w r' hr' key body hkey hsome hbody hseal
  · refine h.apart.of_eq rfl (map_set_of_eq _ hi ?_) rfl rfl rfl
    rw [hgrow.secret, hgrow.scalar]

end

theorem Opened.of_payload_eq {r r' : Receiver} (h : s.Opened p r) (hgrow : r.Grows r')
    (hpayload : r'.payload = r.payload) : s.Opened p r' := by
  intro body hbody
  obtain ⟨key, hkey, hfound⟩ := h body (hpayload ▸ hbody)
  refine ⟨key, hgrow.key hkey, ?_⟩
  rwa [hgrow.slot, hgrow.sid]

theorem Inv.greet (h : s.Inv p c) (i : ℕ) (ms : Bytes) (fate : Put) :
    (s.step p o c (.greet i ms fate)).Inv p c := by
  rw [step]
  cases hi : s.receivers[i]? with
  | none => exact h
  | some r =>
      have hgrow := r.greet_grows p ms fate
      refine h.setReceiver _ [] hi hgrow ?_ (fun m hm => ?_) (by simp)
      · exact (h.receivers r (List.mem_of_getElem? hi)).of_payload_eq hgrow
          (Receiver.greet_payload ms fate)
      · obtain ⟨key, hkey, rfl⟩ := Receiver.greet_macs hm
        exact ⟨key, hkey, by rw [hgrow.slot, hgrow.sid]⟩

theorem Inv.collect (h : s.Inv p c) (i : ℕ) (ct : Bytes) (hreal : s.Unforged p c (.collect i ct)) :
    (s.step p o c (.collect i ct)).Inv p c := by
  rw [step]
  cases hi : s.receivers[i]? with
  | none => exact h
  | some r =>
      have hgrow := r.collect_grows p ct
      refine h.setReceiver [] [] hi hgrow ?_ (by simp) (by simp)
      intro body hbody
      rw [hgrow.slot, hgrow.sid]
      rcases Receiver.collect_payload hbody with hold | ⟨key, hkey, hopen⟩
      · obtain ⟨key, hkey, hfound⟩ := h.receivers r (List.mem_of_getElem? hi) body hold
        exact ⟨key, hgrow.key hkey, hfound⟩
      · exact ⟨key, hgrow.key hkey, ct, hopen, hreal r key hi hkey (by rw [hopen]; rfl)⟩

theorem Inv.answer (h : s.Inv p c) (i : ℕ) (fate extrasFate : Put) :
    (s.step p o c (.answer i fate extrasFate)).Inv p c := by
  rw [step]
  cases hi : s.receivers[i]? with
  | none => exact h
  | some r =>
      have hgrow := r.answer_grows p fate extrasFate
      have hpayload := Receiver.answer_payload (r := r) (p := p) fate extrasFate
      refine h.setReceiver [] _ hi hgrow ?_ (by simp) (fun q hq => ?_)
      · exact (h.receivers r (List.mem_of_getElem? hi)).of_payload_eq hgrow hpayload
      · obtain ⟨w, key, body, hkey, hsome, hbody, hseal⟩ := Receiver.answer_seals hq
        refine ⟨w, key, body, hgrow.key hkey, by rwa [hpayload], by rwa [hgrow.body w], ?_⟩
        rwa [hgrow.slot, hgrow.sid]

/-! ### Whoever draws -/

theorem mem_honest {m : Bytes} : m ∈ s.honest p c ↔ m ∈ s.hostMessages p c ∨
    m ∈ s.receiverMessages p ∨ m ∈ s.senderMessages p ∨ m ∈ s.messagesV1 p := by
  simp only [honest, List.mem_append, or_assoc]

/-- One message more, which nobody has sent. -/
theorem Apart.draw {new : Bytes} (h : s.Apart p c) (hhonest : new ∉ s.honest p c)
    (htried : new ∉ s.tried p)
    (hhost : ∀ m ∈ s'.hostMessages p c, m ∈ s.hostMessages p c ∨ m = new)
    (hreceiver : ∀ m ∈ s'.receiverMessages p, m ∈ s.receiverMessages p ∨ m = new)
    (hsender : ∀ m ∈ s'.senderMessages p, m ∈ s.senderMessages p ∨ m = new)
    (hV1 : ∀ m ∈ s'.messagesV1 p, m ∈ s.messagesV1 p ∨ m = new)
    (hsame : s'.tried p = s.tried p)
    (hone : new ∈ s'.hostMessages p c → new ∉ s'.receiverMessages p)
    (hold : new ∈ s'.senderMessages p → new ∉ s'.messagesV1 p) : s'.Apart p c where
  host m hm hm' := by
    rcases hhost m hm with hm₁ | rfl
    · rcases hreceiver m hm' with hm₂ | rfl
      · exact h.host m hm₁ hm₂
      · exact hhonest (mem_honest.2 (.inl hm₁))
    · exact hone hm hm'
  old m hm hm' := by
    rcases hsender m hm with hm₁ | rfl
    · rcases hV1 m hm' with hm₂ | rfl
      · exact h.old m hm₁ hm₂
      · exact hhonest (mem_honest.2 (.inr (.inr (.inl hm₁))))
    · exact hold hm hm'
  tried m hm hm' := by
    rw [hsame] at hm
    have hbefore : m ∈ s.honest p c ∨ m = new := by
      rw [mem_honest] at hm' ⊢
      rcases hm' with hm' | hm' | hm' | hm'
      · exact (hhost m hm').imp_left .inl
      · exact (hreceiver m hm').imp_left fun h => .inr (.inl h)
      · exact (hsender m hm').imp_left fun h => .inr (.inr (.inl h))
      · exact (hV1 m hm').imp_left fun h => .inr (.inr (.inr h))
    rcases hbefore with hold | rfl
    · exact h.tried m hm hold
    · exact htried hm

theorem mem_map_append {α : Type} (f : α → Bytes) (l : List α) (a : α) :
    ∀ m ∈ (l ++ [a]).map f, m ∈ l.map f ∨ m = f a := by
  intro m hm
  rwa [List.map_append, List.mem_append, List.map_singleton, List.mem_singleton] at hm

theorem Inv.join (h : s.Inv p c) {secret sid : String} {scalar : Bytes}
    {reply extras : Option Bytes} {fate : Put}
    (hfresh : s.Fresh p c (.join secret sid scalar reply extras fate)) :
    (s.step p o c (.join secret sid scalar reply extras fate)).Inv p c := by
  obtain ⟨hhonest, htried⟩ := hfresh
  refine h.grow ?_ (fun st hst => .inl hst) (fun x hx => .inl hx) (fun r hr => ?_)
    (fun r hr => .inl hr) (fun m hm => .inl hm) (fun q hq => .inl hq) (fun q hq => .inl hq) ?_
  · exact .of_subset (List.Subset.refl _) (List.Subset.refl _) (List.subset_append_left _ _)
      (List.Subset.refl _) (List.Subset.refl _) (List.Subset.refl _) (List.Subset.refl _)
  · refine (List.mem_append.1 hr).imp_right fun hr => ?_
    obtain rfl := List.mem_singleton.1 hr
    intro body hbody
    exact absurd hbody (by simp)
  · exact h.apart.draw hhonest htried (fun m hm => .inl hm) (mem_map_append _ _ _)
      (fun m hm => .inl hm) (fun m hm => .inl hm) rfl
      (fun hm _ => hhonest (mem_honest.2 (.inl hm)))
      (fun hm _ => hhonest (mem_honest.2 (.inr (.inr (.inl hm)))))

theorem Inv.publish (h : s.Inv p c) {secret : String} {scalar payload : Bytes}
    (hfresh : s.Fresh p c (.publish secret scalar payload)) :
    (s.step p o c (.publish secret scalar payload)).Inv p c := by
  obtain ⟨hhonest, htried⟩ := hfresh
  refine h.grow ?_ (fun st hst => .inl hst) (fun x hx => .inl hx) (fun r hr => .inl hr)
    (fun r hr => .inl hr) (fun m hm => .inl hm) (fun q hq => .inl hq) (fun q hq => .inl hq) ?_
  · exact .of_subset (List.Subset.refl _) (List.Subset.refl _) (List.Subset.refl _)
      (List.subset_append_left _ _) (List.Subset.refl _) (List.Subset.refl _) (List.Subset.refl _)
  · exact h.apart.draw hhonest htried (fun m hm => .inl hm) (fun m hm => .inl hm)
      (mem_map_append _ _ _) (fun m hm => .inl hm) rfl
      (fun hm _ => hhonest (mem_honest.2 (.inl hm)))
      (fun _ hm => hhonest (mem_honest.2 (.inr (.inr (.inr hm)))))

theorem Inv.joinV1 (h : s.Inv p c) {secret : String} {scalar ms : Bytes} {fate : Put}
    (hfresh : s.Fresh p c (.joinV1 secret scalar ms fate)) :
    (s.step p o c (.joinV1 secret scalar ms fate)).Inv p c := by
  obtain ⟨hhonest, htried⟩ := hfresh
  refine h.grow ?_ (fun st hst => .inl hst) (fun x hx => .inl hx) (fun r hr => .inl hr)
    (fun r hr => ?_) (fun m hm => .inl hm) (fun q hq => .inl hq) (fun q hq => .inl hq) ?_
  · exact .of_subset (List.Subset.refl _) (List.Subset.refl _) (List.Subset.refl _)
      (List.Subset.refl _) (List.Subset.refl _) (List.Subset.refl _) (List.Subset.refl _)
  · refine (List.mem_append.1 hr).imp_right fun hr => ?_
    obtain rfl := List.mem_singleton.1 hr
    intro body hbody
    exact absurd hbody (by simp)
  · exact h.apart.draw hhonest htried (fun m hm => .inl hm) (fun m hm => .inl hm)
      (fun m hm => .inl hm) (mem_map_append _ _ _) rfl
      (fun hm _ => hhonest (mem_honest.2 (.inl hm)))
      (fun hm _ => hhonest (mem_honest.2 (.inr (.inr (.inl hm)))))

theorem Inv.guess (h : s.Inv p c) {secret : String} {scalar : Bytes}
    (hfresh : s.Fresh p c (.guess secret scalar)) :
    (s.step p o c (.guess secret scalar)).Inv p c := by
  refine h.grow ?_ (fun st hst => .inl hst) (fun x hx => .inl hx) (fun r hr => .inl hr)
    (fun r hr => .inl hr) (fun m hm => .inl hm) (fun q hq => .inl hq) (fun q hq => .inl hq) ?_
  · exact .of_subset (List.Subset.refl _) (List.Subset.refl _) (List.Subset.refl _)
      (List.Subset.refl _) (List.subset_cons_self _ _) (List.Subset.refl _) (List.Subset.refl _)
  · refine ⟨h.apart.host, h.apart.old, fun m hm hm' => ?_⟩
    rcases List.mem_cons.1 hm with rfl | hm
    · exact hfresh hm'
    · exact h.apart.tried m hm hm'

theorem Inv.complete (h : s.Inv p c) (i : ℕ) (mr : Bytes) (fate : Put) :
    (s.step p o c (.complete i mr fate)).Inv p c := by
  rw [step]
  cases hi : s.senders[i]? with
  | none => exact h
  | some z =>
      have hgrow := z.run_grows p mr fate
      have hz : (z.run p mr fate).1 ∈ s.senders.set i (z.run p mr fate).1 :=
        (mem_set_iff hi _ _).2 (.inl rfl)
      refine h.grow ?_ (fun st hst => .inl hst) (fun x hx => .inl hx) (fun r hr => .inl hr)
        (fun r hr => .inl hr) (fun m hm => .inl hm) (fun q hq => ?_) (fun q hq => .inl hq) ?_
      · exact ⟨List.Subset.refl _, List.Subset.refl _, fun r hr => ⟨r, hr, .refl r⟩,
          exists_mem_set PairComplete.Grows.refl hi hgrow, List.Subset.refl _, List.Subset.refl _,
          List.subset_append_right _ _⟩
      · refine (List.mem_append.1 hq).symm.imp_right fun hq => ?_
        have hz' := hz
        rw [PairComplete.run] at hq hz'
        -- a sender runs once, and seals nothing afterwards
        by_cases hdone : z.theirs.isSome
        · rw [if_pos hdone] at hq
          exact absurd hq List.not_mem_nil
        · rw [if_neg hdone] at hq hz'
          cases fate with
          | failed => exact absurd hq List.not_mem_nil
          | _ =>
              obtain ⟨key, hkey, hseal⟩ := Option.bind_eq_some_iff.1 (Option.mem_toList.1 hq)
              refine .legacy _ hz mr key ?_ ?_ ?_
              · rw [PairComplete.run, if_neg hdone]
              · rwa [hgrow.side]
              · rwa [hgrow.payload]
      · refine h.apart.of_eq rfl rfl (map_set_of_eq _ hi ?_) rfl rfl
        rw [hgrow.secret, hgrow.scalar]

theorem Inv.collectV1 (h : s.Inv p c) (i : ℕ) (ct : Bytes)
    (hreal : s.Unforged p c (.collectV1 i ct)) : (s.step p o c (.collectV1 i ct)).Inv p c := by
  rw [step]
  cases hi : s.receiversV1[i]? with
  | none => exact h
  | some r =>
      have hg : s.Grows { s with receiversV1 := s.receiversV1.set i (r.collect p ct) } :=
        .of_subset (List.Subset.refl _) (List.Subset.refl _) (List.Subset.refl _)
          (List.Subset.refl _) (List.Subset.refl _) (List.Subset.refl _) (List.Subset.refl _)
      have hr := h.receiversV1 r (List.mem_of_getElem? hi)
      refine h.grow hg (fun st hst => .inl hst) (fun x hx => .inl hx) (fun r hr => .inl hr)
        (fun a ha => ?_) (fun m hm => .inl hm) (fun q hq => .inl hq) (fun q hq => .inl hq) ?_
      · rcases (mem_set_iff hi _ a).1 ha with rfl | ⟨k, -, hk⟩
        · right
          rw [ReceiverV1.collect]
          cases hended : r.ended with
          | true => exact hr.grows hg
          | false =>
              intro body hbody
              obtain ⟨key, hkey, hopen⟩ := Option.bind_eq_some_iff.1 hbody
              exact ⟨key, hkey, ct, hopen, hreal r key hi hkey (by rw [hopen]; rfl)⟩
        · exact .inl (List.mem_of_getElem? hk)
      · refine h.apart.of_eq rfl rfl rfl (map_set_of_eq _ hi ?_) rfl
        rw [ReceiverV1.collect]
        split_ifs <;> rfl

/-! ### The steps of the host -/

theorem stage_eq_some {st : Stage} : s.stage = some st ↔ ∃ r, s.host.run = some r ∧ r.stage = st :=
  Option.map_eq_some_iff

/-- The host goes on, and nothing is drawn or sealed. -/
theorem Inv.setHost (h : s.Inv p c) {host : Host} (hdelivered : host.delivered = s.host.delivered)
    (hstage : ∀ r, host.run = some r → s.stage = some r.stage ∨ s.StageOk p c r.stage) :
    ({ s with host } : Parties).Inv p c := by
  have hg : s.Grows { s with host } :=
    .of_subset (List.Subset.refl _) (by rw [hdelivered]; exact List.Subset.refl _)
      (List.Subset.refl _) (List.Subset.refl _) (List.Subset.refl _) (List.Subset.refl _)
      (List.Subset.refl _)
  refine h.grow hg (fun st hst => ?_) (fun x hx => .inl (hdelivered ▸ hx)) (fun r hr => .inl hr)
    (fun r hr => .inl hr) (fun m hm => .inl hm) (fun q hq => .inl hq) (fun q hq => .inl hq)
    (h.apart.of_eq rfl rfl rfl rfl rfl)
  obtain ⟨r, hrun, rfl⟩ := stage_eq_some.1 hst
  exact (hstage r hrun).imp_right fun hok => hok.grows hg

theorem Inv.goto (h : s.Inv p c) {host : Host} (hdelivered : host.delivered = s.host.delivered)
    (r : Run) {st : Stage} (hok : s.StageOk p c st) :
    ({ s with host := host.goto r st } : Parties).Inv p c := by
  refine h.setHost hdelivered fun r' hr' => .inr ?_
  obtain rfl := Option.some.inj hr'
  exact hok

/-- A receiver's message is read, and the host draws. -/
theorem Inv.hostReceive (h : s.Inv p c) {r : Run} {sid : String} {mr scalar : Bytes}
    (hfresh : s.Fresh p c (.host (.receive (some mr) scalar))) :
    ({ s with
      host := s.host.receive (p.pake c.secret) r sid (some mr) scalar
      drawn := scalar :: s.drawn } : Parties).Inv p c := by
  obtain ⟨hhonest, htried⟩ := hfresh
  have hdelivered : (s.host.receive (p.pake c.secret) r sid (some mr) scalar).delivered =
      s.host.delivered := by
    obtain ⟨emitted, st, heq⟩ := Host.receive_eq (h := s.host) (p := p.pake c.secret) (r := r) sid
      (some mr) scalar
    rw [heq]
    rfl
  refine h.grow ?_ (fun st hst => .inr ?_) (fun x hx => .inl (hdelivered ▸ hx))
    (fun r hr => .inl hr) (fun r hr => .inl hr) (fun m hm => .inl hm) (fun q hq => .inl hq)
    (fun q hq => .inl hq) ?_
  · exact .of_subset (List.subset_cons_self _ _) (by rw [hdelivered]; exact List.Subset.refl _)
      (List.Subset.refl _) (List.Subset.refl _) (List.Subset.refl _) (List.Subset.refl _)
      (List.Subset.refl _)
  · obtain ⟨r', hrun, rfl⟩ := stage_eq_some.1 hst
    -- a reflected message is echoed, and the host has drawn for it all the same
    simp only [Host.receive] at hrun
    split_ifs at hrun
    all_goals
      obtain rfl := Option.some.inj hrun
      exact List.mem_cons_self
  · refine h.apart.draw hhonest htried (fun m hm => ?_) (fun m hm => .inl hm) (fun m hm => .inl hm)
      (fun m hm => .inl hm) rfl (fun _ hm => hhonest (mem_honest.2 (.inr (.inl hm))))
      (fun hm _ => hhonest (mem_honest.2 (.inr (.inr (.inl hm)))))
    exact (List.mem_cons.1 hm).symm

/-- The host seals the payload for a session. -/
theorem Inv.hostSeal (h : s.Inv p c) {r : Run} {x : Session} (fate : Put) (st : Stage)
    (hst : st = .paired x ∧ fate = .landed ∨ st = .listed) (hstage : s.stage = some (.sealing x)) :
    ({ s with
      host := (s.host.deliver x fate).goto r st
      seals := if fate.lands then (c.ticketFor p x).toList ++ s.seals else s.seals } :
        Parties).Inv p c := by
  have hconf : s.Confirmed p c x := h.stage _ hstage
  have hdelivered : ((s.host.deliver x fate).goto r st).delivered =
      if fate.lands then x :: s.host.delivered else s.host.delivered := by
    cases fate <;> rfl
  have hg : s.Grows { s with
      host := (s.host.deliver x fate).goto r st
      seals := if fate.lands then (c.ticketFor p x).toList ++ s.seals else s.seals } := by
    refine .of_subset (List.Subset.refl _) ?_ (List.Subset.refl _) (List.Subset.refl _)
      (List.Subset.refl _) (List.Subset.refl _) ?_
    · dsimp only
      rw [hdelivered]
      split_ifs
      · exact List.subset_cons_self _ _
      · exact List.Subset.refl _
    · dsimp only
      split_ifs
      · exact List.subset_append_right _ _
      · exact List.Subset.refl _
  refine h.grow hg (fun st' hst' => .inr ?_) (fun y hy => ?_) (fun r hr => .inl hr)
    (fun r hr => .inl hr) (fun m hm => .inl hm) (fun q hq => ?_) (fun q hq => .inl hq)
    (h.apart.of_eq rfl rfl rfl rfl rfl)
  · obtain rfl : st = st' := Option.some.inj hst'
    rcases hst with ⟨rfl, rfl⟩ | rfl
    · exact List.mem_cons_self
    · trivial
  · dsimp only at hy
    rw [hdelivered] at hy
    split_ifs at hy
    · rcases List.mem_cons.1 hy with rfl | hy
      · exact .inr (hconf.grows hg)
      · exact .inl hy
    · exact .inl hy
  · dsimp only at hq
    split_ifs at hq with hlands
    · refine (List.mem_append.1 hq).symm.imp_right fun hq => .ticket x ?_ (Option.mem_toList.1 hq)
      rw [hdelivered, if_pos hlands]
      exact List.mem_cons_self
    · exact .inl hq

/-- The host's own message is posted. -/
theorem Inv.hostGreet (h : s.Inv p c) (r : Run) {x : Session} (fate : Put)
    (hstage : s.stage = some (.greeting x)) :
    ({ s with host := s.host.greet (p.pake c.secret) r x fate } : Parties).Inv p c := by
  have hdrawn : x.scalar ∈ s.drawn := h.stage _ hstage
  unfold Host.greet
  split
  · rename_i key hkey
    exact h.goto Host.delivered_post r ⟨hdrawn, hkey⟩
  · exact h.goto Host.delivered_post r trivial

theorem hostStep_of_stopped (e : Event) (hrun : s.host.run = none) :
    s.hostStep p o c e = { s with host := s.host.step o (p.pake c.secret) e } := by
  have hstage : s.stage = none := by rw [stage, hrun]; rfl
  simp only [hostStep, hstage]

/-- The steps that draw and seal nothing. -/
theorem Inv.hostOther (h : s.Inv p c) {e : Event} {r : Run} (hrun : s.host.run = some r)
    (hreceive : ∀ sid mr scalar, r.stage = .reading sid → e ≠ .receive (some mr) scalar)
    (hgreet : ∀ x fate, r.stage = .greeting x → e ≠ .put fate)
    (hseal : ∀ x fate, r.stage = .sealing x → e ≠ .put fate)
    (hcount : ∀ x, r.stage = .paired x → e ≠ .count)
    (hreal : s.Unforged p c (.host e)) :
    ({ s with host := s.host.step o (p.pake c.secret) e } : Parties).Inv p c := by
  have hstage : s.stage = some r.stage := stage_eq_some.2 ⟨r, hrun, rfl⟩
  have hok : s.StageOk p c r.stage := h.stage _ hstage
  have hmoves := Host.moves_step (o := o) (p := p.pake c.secret) s.host e hrun
  generalize s.host.step o (p.pake c.secret) e = host at hmoves
  cases hmoves with
  | stay => exact h.setHost rfl fun r' hr' => .inl (stage_eq_some.2 ⟨r', hr', rfl⟩)
  | crash => exact h.setHost rfl fun r' hr' => absurd hr' (by simp [Host.finish])
  | finish => exact h.setHost rfl fun r' hr' => absurd hr' (by simp [Host.finish])
  | list sids => exact h.goto rfl _ trivial
  | again => exact h.goto rfl r trivial
  | take sid sids => exact h.goto rfl _ trivial
  | receive sid mr scalar hreading =>
      cases mr with
      | none => exact h.goto rfl r trivial
      | some mr => exact absurd rfl (hreceive sid mr scalar hreading)
  | echo x fate => exact h.goto Host.delivered_post r trivial
  | greet x key hgreeting => exact absurd rfl (hgreet x .landed hgreeting)
  | drop x fate => exact h.goto Host.delivered_post r trivial
  | abandon x key => exact h.goto rfl r trivial
  | right x key got hconf hgot =>
      rw [hconf] at hok hstage
      obtain ⟨hdrawn, hkey⟩ := hok
      have hmac := hreal x key hstage hgot
      exact h.goto rfl r ⟨hdrawn, key, hkey, hgot ▸ hmac⟩
  | wrong x key got => exact h.goto rfl r trivial
  | refuse x fate => exact h.goto Host.delivered_refuse r trivial
  | charge x answered => exact h.setHost rfl fun r' hr' => .inr (Option.some.inj hr' ▸ trivial)
  | deliver x hsealing => exact absurd rfl (hseal x .landed hsealing)
  | lose x fate _ hsealing => exact absurd rfl (hseal x fate hsealing)
  | credit x hpaired => exact absurd rfl (hcount x hpaired)

theorem Inv.host (h : s.Inv p c) (e : Event) (hfresh : s.Fresh p c (.host e))
    (hreal : s.Unforged p c (.host e)) : (s.step p o c (.host e)).Inv p c := by
  rw [step]
  cases hrun : s.host.run with
  | none =>
      rw [hostStep_of_stopped e hrun]
      rcases Host.step_of_stopped (o := o) (p := p.pake c.secret) s.host e hrun with heq | heq
      · rw [heq]
        exact h
      · rw [heq]
        exact h.setHost rfl fun r' hr' => .inr (Option.some.inj hr' ▸ trivial)
  | some r =>
      have hstage : s.stage = some r.stage := stage_eq_some.2 ⟨r, hrun, rfl⟩
      have hturn : s.host.step o (p.pake c.secret) e =
          s.host.turn o (p.pake c.secret) r r.stage e := by
        simp only [Host.step, hrun]
      simp only [hostStep, hstage]
      split
      · rename_i sid mr scalar hreading
        rw [hturn, Option.some.inj hreading]
        exact h.hostReceive hfresh
      · rename_i x fate hsealing
        rw [Option.some.inj hsealing] at hturn hstage
        have hsealed := h.hostSeal (r := r) fate
          (if fate = .landed then .paired x else .listed) ?_ hstage
        · rw [hturn]
          split_ifs with hlands
          · rw [if_pos hlands] at hsealed
            exact hsealed
          · rw [if_neg hlands] at hsealed
            exact hsealed
        · by_cases hlanded : fate = .landed
          · exact .inl ⟨if_pos hlanded, hlanded⟩
          · exact .inr (if_neg hlanded)
      · exact h
      · rename_i e _ _ hnotReceive hnotSeal hnotCount
        by_cases hgreeting : ∃ x fate, r.stage = .greeting x ∧ e = .put fate
        · obtain ⟨x, fate, hgreeting, rfl⟩ := hgreeting
          rw [hgreeting] at hturn hstage
          rw [hturn]
          exact h.hostGreet r fate hstage
        · refine h.hostOther hrun (fun sid mr scalar hst he => ?_) (fun x fate hst he => ?_)
            (fun x fate hst he => ?_) (fun x hst he => ?_) hreal
          · exact hnotReceive sid mr scalar (by rw [hst]) he
          · exact hgreeting ⟨x, fate, hst, he⟩
          · exact hnotSeal x fate (by rw [hst]) he
          · exact hnotCount x (by rw [hst]) he

theorem Hosted.hear_eq_some {derive : Bytes → String → String → Bytes} {x : Session}
    {found : Option Bytes} {body : Bytes} (h : c.hear p derive x found = some body) :
    ∃ key ct, c.key p x = some key ∧ found = some ct ∧
      p.openWith (derive key c.slot x.sid) ct = some body := by
  rw [Hosted.hear] at h
  split_ifs at h
  obtain ⟨key, hkey, h⟩ := Option.bind_eq_some_iff.1 h
  obtain ⟨ct, hct, hopen⟩ := Option.bind_eq_some_iff.1 h
  exact ⟨key, ct, hkey, hct, hopen⟩

theorem Inv.hear (h : s.Inv p c) {reply extras : Option Bytes}
    (hreal : s.Unforged p c (.hear reply extras)) :
    (s.step p o c (.hear reply extras)).Inv p c := by
  rw [step, Parties.hear]
  split
  · rename_i x hstage
    obtain ⟨r, hrun, hpaired⟩ := stage_eq_some.1 hstage
    have hdelivered : x ∈ s.host.delivered := h.stage _ hstage
    have hstep : s.host.step o (p.pake c.secret) .count = s.host.credit r := by
      simp only [Host.step, hrun, Host.turn, hpaired]
    have hcredit : ({ s with host := s.host.credit r } : Parties).Inv p c :=
      h.setHost rfl fun r' hr' => .inr (Option.some.inj hr' ▸ trivial)
    rw [hstep]
    refine hcredit.grow ?_ (fun st hst => .inl hst) (fun y hy => .inl hy) (fun r hr => .inl hr)
      (fun r hr => .inl hr) (fun m hm => .inl hm) (fun q hq => .inl hq) (fun q hq => ?_)
      (hcredit.apart.of_eq rfl rfl rfl rfl rfl)
    · exact .of_subset (List.Subset.refl _) (List.Subset.refl _) (List.Subset.refl _)
        (List.Subset.refl _) (List.Subset.refl _) (List.Subset.refl _) (List.Subset.refl _)
    · refine (List.mem_cons.1 hq).symm.imp_right ?_
      rintro rfl
      refine ⟨hdelivered, fun w body hbody => ?_⟩
      cases w with
      | reply =>
          obtain ⟨key, ct, hkey, hct, hopen⟩ := Hosted.hear_eq_some hbody
          exact ⟨key, hkey, ct, hopen, (hreal x key hstage hkey).1 ct hct (by rw [hopen]; rfl)⟩
      | extras =>
          obtain ⟨key, ct, hkey, hct, hopen⟩ := Hosted.hear_eq_some hbody
          exact ⟨key, hkey, ct, hopen, (hreal x key hstage hkey).2 ct hct (by rw [hopen]; rfl)⟩
  · exact h

theorem Inv.step (h : s.Inv p c) (a : Act) (ha : s.Possible p c a) : (s.step p o c a).Inv p c := by
  obtain ⟨hfresh, hreal⟩ := ha
  cases a with
  | host e => exact h.host e hfresh hreal
  | hear reply extras => exact h.hear hreal
  | join secret sid scalar reply extras fate => exact h.join hfresh
  | greet i ms fate => exact h.greet i ms fate
  | collect i ct => exact h.collect i ct hreal
  | answer i fate extrasFate => exact h.answer i fate extrasFate
  | publish secret scalar payload => exact h.publish hfresh
  | complete i mr fate => exact h.complete i mr fate
  | joinV1 secret scalar ms fate => exact h.joinV1 hfresh
  | collectV1 i ct => exact h.collectV1 i ct hreal
  | guess secret scalar => exact h.guess hfresh

theorem inv_run {as : List Act} (h : Along (step p o c) (Possible p c) {} as) :
    (run p o c as).Inv p c :=
  h.foldl_inv (fun s => s.Inv p c) (fun _ a hinv ha => hinv.step a ha) inv_empty

/-! ### Agreement -/

section

variable (p c)

/-- A session of the host and a receiver are the two sides of one exchange. -/
structure Meets (x : Session) (r : Receiver) : Prop where
  sid : r.sid = x.sid
  faces : ∃ ms, r.theirs = some ms ∧ (c.side x).Faces p.toExchange (r.side ms)

/-- What was handed over, either way, came from the other side of the exchange, unless somebody
else stands there who has tried the right secret. -/
structure Agrees (s : Parties) : Prop where
  received : ∀ r ∈ s.receivers, ∀ body, r.payload = some body → ∃ ms, r.theirs = some ms ∧
    ((body = c.payload ∧ ∃ x ∈ s.host.delivered, Meets p c x r) ∨
      (r.side ms).Guessed p.toExchange s.guesses)
  receivedV1 : ∀ r ∈ s.receiversV1, ∀ body, r.payload = some body →
    (∃ z ∈ s.senders, ∃ mr, z.theirs = some mr ∧ body = z.payload ∧
      (z.side mr).Faces p.toExchange r.side) ∨ r.side.Guessed p.toExchange s.guesses
  delivered : ∀ x ∈ s.host.delivered, (∃ r ∈ s.receivers, Meets p c x r) ∨
    (c.side x).Guessed p.toExchange s.guesses
  heard : ∀ q ∈ s.paired, ∀ w body, q.heard w = some body →
    (∃ r ∈ s.receivers, Meets p c q.session r ∧ r.body w = some body ∧
      r.payload = some c.payload) ∨ (c.side q.session).Guessed p.toExchange s.guesses

end

variable {key : Bytes}

/-- A key of the host's that others have is that of a session they were in. -/
theorem Inv.guessed_host (hp : p.Ideal) (h : s.Inv p c) {x : Session} (hdrawn : x.scalar ∈ s.drawn)
    (hkey : c.key p x = some key) (hknown : p.Known s.guesses key) :
    (c.side x).Guessed p.toExchange s.guesses := by
  refine hp.binding.guessed hkey hknown fun g hg heq => ?_
  refine h.apart.tried _ (List.mem_map_of_mem hg) (mem_honest.2 (.inl ?_))
  rw [heq]
  exact List.mem_map_of_mem hdrawn

theorem Inv.guessed_receiver (hp : p.Ideal) (h : s.Inv p c) {r : Receiver} (hr : r ∈ s.receivers)
    {ms : Bytes} (hkey : (r.side ms).key p.toExchange = some key)
    (hknown : p.Known s.guesses key) : (r.side ms).Guessed p.toExchange s.guesses := by
  refine hp.binding.guessed hkey hknown fun g hg heq => ?_
  refine h.apart.tried _ (List.mem_map_of_mem hg) (mem_honest.2 (.inr (.inl ?_)))
  rw [heq]
  exact List.mem_map_of_mem (f := fun r : Receiver => p.start r.secret r.scalar) hr

/-- Where the host and a receiver have one key for one session, they meet. -/
theorem Inv.meets (hp : p.Ideal) (h : s.Inv p c) {x : Session} (hdrawn : x.scalar ∈ s.drawn)
    (hx : c.key p x = some key) {r : Receiver} (hr : r ∈ s.receivers)
    (hkey : r.key p = some key) (hsid : r.sid = x.sid) : Meets p c x r := by
  obtain ⟨ms, hms, hkey⟩ := Receiver.key_eq_some.1 hkey
  refine ⟨hsid, ms, hms, hp.binding.faces hx hkey fun heq => ?_⟩
  refine h.apart.host _ (List.mem_map_of_mem hdrawn) ?_
  have hours : p.start c.secret x.scalar = p.start r.secret r.scalar := heq
  rw [hours]
  exact List.mem_map_of_mem (f := fun r : Receiver => p.start r.secret r.scalar) hr

/-- Nobody else stands where the host does. -/
theorem Inv.not_guessed (h : s.Inv p c) {x : Session} (hdrawn : x.scalar ∈ s.drawn) {r : Receiver}
    (hmeets : Meets p c x r) {ms : Bytes} (hms : r.theirs = some ms) :
    ¬ (r.side ms).Guessed p.toExchange s.guesses := by
  rintro ⟨y, hy, htheirs⟩
  obtain ⟨ms', hms', hfaces⟩ := hmeets.faces
  obtain rfl : ms = ms' := Option.some.inj (hms.symm.trans hms')
  have hsame : p.start c.secret x.scalar = p.start r.secret y := hfaces.ours.symm.trans htheirs
  have hhost : p.start c.secret x.scalar ∈ s.hostMessages p c := List.mem_map_of_mem hdrawn
  rw [hsame] at hhost
  exact h.apart.tried _ (List.mem_map_of_mem hy) (mem_honest.2 (.inl hhost))

/-- What is sealed under the key of a ticket is the payload. -/
theorem Inv.ticket_origin (hp : p.Ideal) (h : s.Inv p c) {r : Receiver} (hr : r ∈ s.receivers)
    (hkey : r.key p = some key) {ct body : Bytes}
    (hseal : (p.ticketKey32 key r.slot r.sid, ct) ∈ s.seals)
    (hopen : p.openWith (p.ticketKey32 key r.slot r.sid) ct = some body) :
    body = c.payload ∧ ∃ x ∈ s.host.delivered, Meets p c x r := by
  generalize hq : (p.ticketKey32 key r.slot r.sid, ct) = q at hseal
  cases h.seals q hseal with
  | ticket x hx hticket =>
      subst hq
      obtain ⟨key', hkey', hsealed⟩ := Option.bind_eq_some_iff.1 hticket
      obtain ⟨ms, hms, hside⟩ := Receiver.key_eq_some.1 hkey
      have hderived := (CodePrims.sealWith_eq_some hsealed).1
      obtain ⟨rfl, hsid⟩ := hp.session_eq hside hkey' (hp.deriveKey_inj hderived).2
      refine ⟨?_, x, hx, h.meets hp (h.delivered x hx).drawn hkey' hr hkey hsid⟩
      exact Option.some.inj (hopen.symm.trans (hp.openWith_of_sealWith hsealed))
  -- what goes back, and an older ticket, are sealed for other uses
  | back w r' hr' key' body' hkey' hopened hbody' hsealed =>
      subst hq
      cases w <;> exact absurd hsealed (hp.sealWith_ne (by decide))
  | legacy z hz mr key' hmr hkey' hsealed =>
      subst hq
      exact absurd hsealed (hp.sealWith_ne (by decide))

/-- What is sealed under the key of a reply is the reply of a receiver that the host meets. -/
theorem Inv.back_origin (hp : p.Ideal) (h : s.Inv p c) {x : Session} (hdrawn : x.scalar ∈ s.drawn)
    (hkey : c.key p x = some key) {w : Way} {ct body : Bytes}
    (hseal : (p.backKey32 w key c.slot x.sid, ct) ∈ s.seals)
    (hopen : p.openWith (p.backKey32 w key c.slot x.sid) ct = some body) :
    ∃ r ∈ s.receivers, Meets p c x r ∧ r.body w = some body ∧ r.payload.isSome := by
  generalize hq : (p.backKey32 w key c.slot x.sid, ct) = q at hseal
  cases h.seals q hseal with
  | back w' r hr key' body' hkey' hopened hbody' hsealed =>
      subst hq
      obtain ⟨ms, hms, hside⟩ := Receiver.key_eq_some.1 hkey'
      obtain ⟨rfl, hinput⟩ := hp.backKey32_inj (CodePrims.sealWith_eq_some hsealed).1
      obtain ⟨rfl, hsid⟩ := hp.session_eq hkey hside hinput
      refine ⟨r, hr, h.meets hp hdrawn hkey hr hkey' hsid.symm, ?_, hopened⟩
      rw [hbody', ← hopen, hp.openWith_of_sealWith hsealed]
  | ticket y hy hticket =>
      subst hq
      obtain ⟨key', hkey', hsealed⟩ := Option.bind_eq_some_iff.1 hticket
      cases w <;> exact absurd hsealed (hp.sealWith_ne (by decide))
  | legacy z hz mr key' hmr hkey' hsealed =>
      subst hq
      cases w <;> exact absurd hsealed (hp.sealWith_ne (by decide))

/-- What is sealed under a key of the older exchange is a sender's. -/
theorem Inv.legacy_origin (hp : p.Ideal) (h : s.Inv p c) {r : ReceiverV1}
    (hr : r ∈ s.receiversV1) (hkey : r.side.key p.toExchange = some key) {ct body : Bytes}
    (hseal : (p.key32 key, ct) ∈ s.seals) (hopen : p.openWith (p.key32 key) ct = some body) :
    ∃ z ∈ s.senders, ∃ mr, z.theirs = some mr ∧ body = z.payload ∧
      (z.side mr).Faces p.toExchange r.side := by
  generalize hq : (p.key32 key, ct) = q at hseal
  cases h.seals q hseal with
  | legacy z hz mr key' hmr hkey' hsealed =>
      subst hq
      obtain rfl : key = key' := (hp.deriveKey_inj (CodePrims.sealWith_eq_some hsealed).1).2
      refine ⟨z, hz, mr, hmr, ?_, hp.binding.faces hkey' hkey fun heq => ?_⟩
      · exact Option.some.inj (hopen.symm.trans (hp.openWith_of_sealWith hsealed))
      · have hours : p.start z.secret z.scalar = p.start r.secret r.scalar := heq
        refine h.apart.old _
          (List.mem_map_of_mem (f := fun z : PairComplete => p.start z.secret z.scalar) hz) ?_
        rw [hours]
        exact List.mem_map_of_mem (f := fun r : ReceiverV1 => p.start r.secret r.scalar) hr
  | ticket y hy hticket =>
      subst hq
      obtain ⟨key', hkey', hsealed⟩ := Option.bind_eq_some_iff.1 hticket
      exact absurd hsealed (hp.sealWith_ne (by decide))
  | back w r' hr' key' body' hkey' hopened hbody' hsealed =>
      subst hq
      cases w <;> exact absurd hsealed (hp.sealWith_ne (by decide))

theorem Inv.agrees (hp : p.Ideal) (h : s.Inv p c) : Agrees p c s where
  received r hr body hbody := by
    obtain ⟨key, hkey, ct, hopen, hseal | hknown⟩ := h.receivers r hr body hbody
    · obtain ⟨heq, x, hx, hmeets⟩ := h.ticket_origin hp hr hkey hseal hopen
      obtain ⟨ms, hms, -⟩ := hmeets.faces
      exact ⟨ms, hms, .inl ⟨heq, x, hx, hmeets⟩⟩
    · obtain ⟨ms, hms, hside⟩ := Receiver.key_eq_some.1 hkey
      exact ⟨ms, hms, .inr (h.guessed_receiver hp hr hside hknown)⟩
  receivedV1 r hr body hbody := by
    obtain ⟨key, hkey, ct, hopen, hseal | hknown⟩ := h.receiversV1 r hr body hbody
    · exact .inl (h.legacy_origin hp hr hkey hseal hopen)
    · refine .inr (hp.binding.guessed hkey hknown fun g hg heq => ?_)
      refine h.apart.tried _ (List.mem_map_of_mem hg) (mem_honest.2 (.inr (.inr (.inr ?_))))
      rw [heq]
      exact List.mem_map_of_mem (f := fun r : ReceiverV1 => p.start r.secret r.scalar) hr
  delivered x hx := by
    obtain ⟨hdrawn, key, hkey, hmac | hknown⟩ := h.delivered x hx
    · obtain ⟨r, hr, key', hkey', hmac⟩ := h.macs _ hmac
      obtain ⟨ms, hms, hside⟩ := Receiver.key_eq_some.1 hkey'
      obtain ⟨rfl, hsid⟩ := hp.mac_eq hkey hside hmac
      exact .inl ⟨r, hr, h.meets hp hdrawn hkey hr hkey' hsid.symm⟩
    · exact .inr (h.guessed_host hp hdrawn hkey hknown)
  heard q hq w body hbody := by
    have hheard := h.paired q hq
    have hdrawn := (h.delivered _ hheard.delivered).drawn
    obtain ⟨key, hkey, ct, hopen, hseal | hknown⟩ := hheard.heard w body hbody
    · obtain ⟨r, hr, hmeets, hback, hopened⟩ := h.back_origin hp hdrawn hkey hseal hopen
      refine .inl ⟨r, hr, hmeets, hback, ?_⟩
      obtain ⟨payload, hpayload⟩ := Option.isSome_iff_exists.1 hopened
      -- the receiver has opened the payload, and nobody but the host can have sealed it
      obtain ⟨key', hkey', ct', hopen', hseal' | hknown'⟩ := h.receivers r hr payload hpayload
      · rw [hpayload, (h.ticket_origin hp hr hkey' hseal' hopen').1]
      · obtain ⟨ms, hms, hside⟩ := Receiver.key_eq_some.1 hkey'
        exact absurd (h.guessed_receiver hp hr hside hknown') (h.not_guessed hdrawn hmeets hms)
    · exact .inr (h.guessed_host hp hdrawn hkey hknown)

end Parties

/-! ### What a receiver returns -/

/-- It returns what it has opened. -/
def Receiver.Returns (r : Receiver) : Prop := ∀ res, r.result = some res → r.payload = some res.1

namespace Receiver

variable {p : CodePrims} {r : Receiver}

theorem Returns.greet (h : r.Returns) (ms : Bytes) (fate : Put) :
    (r.greet p ms fate).1.Returns := by
  rw [Receiver.greet]
  by_cases hdone : r.ended ∨ r.theirs.isSome
  · rw [if_pos hdone]
    exact h
  · rw [if_neg hdone]
    cases (r.side ms).key p.toExchange <;> exact h

theorem Returns.collect (h : r.Returns) (ct : Bytes) : (r.collect p ct).Returns := by
  rw [Receiver.collect]
  by_cases hdone : r.ended ∨ r.payload.isSome
  · rw [if_pos hdone]
    exact h
  · rw [if_neg hdone]
    obtain ⟨-, hnone⟩ := not_or.1 hdone
    rw [Option.not_isSome_iff_eq_none] at hnone
    split
    · exact h
    · split
      · exact h
      · intro res hres
        exact absurd (hnone.symm.trans (h res hres)) (by simp)

theorem Returns.answer (h : r.Returns) (fate extrasFate : Put) :
    (r.answer p fate extrasFate).1.Returns := by
  unfold Receiver.answer
  split
  · rename_i hpayload _
    dsimp only
    split_ifs
    · exact h
    all_goals
      intro res hres
      obtain rfl := Option.some.inj hres
      exact hpayload
  · exact h

end Receiver

namespace Parties

variable {p : CodePrims} {o : HostOpts} {c : Hosted} {s s' : Parties}

theorem returns_set {i : ℕ} {r r' : Receiver} (h : ∀ a ∈ s.receivers, a.Returns)
    (hi : s.receivers[i]? = some r) (hr' : r.Returns → r'.Returns) :
    ∀ a ∈ s.receivers.set i r', a.Returns :=
  forall_mem_set (hr' (h r (List.mem_of_getElem? hi)))
    fun _ a ha _ => h a (List.mem_of_getElem? ha)

theorem returns_step (h : ∀ r ∈ s.receivers, r.Returns) (a : Act) :
    ∀ r ∈ (s.step p o c a).receivers, r.Returns := by
  cases a with
  | host e =>
      have hsame : (s.hostStep p o c e).receivers = s.receivers := by
        simp only [hostStep]
        split
        · rfl
        · split_ifs <;> rfl
        · rfl
        · rfl
      rw [step, hsame]
      exact h
  | hear reply extras =>
      rw [step, Parties.hear]
      split <;> exact h
  | join secret sid scalar reply extras fate =>
      intro r hr
      rcases List.mem_append.1 hr with hr | hr
      · exact h r hr
      · obtain rfl := List.mem_singleton.1 hr
        exact fun res hres => absurd hres (by simp)
  | greet i ms fate =>
      rw [step]
      cases hi : s.receivers[i]? with
      | none => exact h
      | some r => exact returns_set h hi fun hr => hr.greet ms fate
  | collect i ct =>
      rw [step]
      cases hi : s.receivers[i]? with
      | none => exact h
      | some r => exact returns_set h hi fun hr => hr.collect ct
  | answer i fate extrasFate =>
      rw [step]
      cases hi : s.receivers[i]? with
      | none => exact h
      | some r => exact returns_set h hi fun hr => hr.answer fate extrasFate
  | complete i mr fate =>
      rw [step]
      split <;> exact h
  | collectV1 i ct =>
      rw [step]
      split <;> exact h
  | _ => exact h

theorem returns_run (as : List Act) : ∀ r ∈ (run p o c as).receivers, r.Returns :=
  foldl_inv (fun s : Parties => ∀ r ∈ s.receivers, r.Returns) (fun _ a h => returns_step h a)
    (by simp) as

theorem Made.unforged {a : Act} (h : s.Made p c a) : s.Unforged p c a := by
  cases a with
  | host e =>
      cases e with
      | confirmation got =>
          cases got with
          | none => trivial
          | some got => exact fun x key _ _ => .inl h
      | _ => trivial
  | hear reply extras =>
      intro x key hstage hkey
      simp only [Made, hstage] at h
      obtain ⟨hreply, hextras⟩ := h key hkey
      exact ⟨fun ct hct _ => .inl (hreply ct hct), fun ct hct _ => .inl (hextras ct hct)⟩
  | collect i ct => exact fun r key hr hkey _ => .inl (h r hr key hkey)
  | collectV1 i ct => exact fun r key hr hkey _ => .inl (h r hr key hkey)
  | _ => trivial

/-- In every run: a receiver returns the payload of the host, which sealed it for that receiver's
session, the host seals for nobody else, and what comes back to it was sent by a receiver that
has the payload. The exception is somebody who has tried the right secret, and he is at the other
end himself. A receiver that was led to the older exchange can only get what a sender of it
sent. -/
theorem agrees_run (hp : p.Ideal) {as : List Act}
    (h : Along (step p o c) (Possible p c) {} as) :
    Agrees p c (run p o c as) ∧ ∀ r ∈ (run p o c as).receivers, r.Returns :=
  ⟨(inv_run h).agrees hp, returns_run as⟩

/-- A receiver that gets the code right, beside somebody who has tried another one. -/
theorem agrees_run_one :
    let acts : List Act :=
      [.host .start, .guess "7-red-fox" [9], .join "7-red-owl" "k3" [5] (some [3]) none .landed,
        .host (.poll (some ["k3"])), .host .next, .host (.receive (some [5]) [6]),
        .host (.put .landed), .greet 0 [6] .landed,
        .host (.confirmation
          (some (CodePrims.framed.confirmMac (bytesOf "7-red-owl" ++ [5, 6]) "7" "k3"))),
        .host (.put .landed), .collect 0 ([1, 2] ++ List.replicate 16 0),
        .answer 0 .landed .landed, .hear (some ([3] ++ List.replicate 16 0)) none]
    let s := run .framed {} ⟨"7-red-owl", [1, 2], true⟩ acts
    (Agrees .framed ⟨"7-red-owl", [1, 2], true⟩ s ∧ ∀ r ∈ s.receivers, r.Returns) ∧
      s.receivers.map Receiver.result = [some ([1, 2], true)] ∧
        s.paired.map Paired.reply = [some [3]] := by
  intro acts s
  have hmade : Along (step .framed {} ⟨"7-red-owl", [1, 2], true⟩)
      (fun s a => s.Fresh .framed ⟨"7-red-owl", [1, 2], true⟩ a ∧
        s.Made .framed ⟨"7-red-owl", [1, 2], true⟩ a) {} acts := by
    decide +kernel
  have hpossible : Along (step .framed {} ⟨"7-red-owl", [1, 2], true⟩)
      (Possible .framed ⟨"7-red-owl", [1, 2], true⟩) {} acts :=
    hmade.imp (fun _ => True) (fun _ _ _ _ _ => trivial)
      (fun _ _ _ _ h => ⟨h.1, h.2.unforged⟩) trivial
  exact ⟨agrees_run CodePrims.framed_ideal hpossible, by decide +kernel, by decide +kernel⟩

end Parties

end Arvolo.Code
