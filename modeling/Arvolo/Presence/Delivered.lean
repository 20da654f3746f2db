import Arvolo.Presence.Subscription

/-!
What a subscription to an inbox says it holds has been handed on.
-/

namespace Arvolo.Presence

open Crypto Lib
open Sync (DeviceId fromBytes)

/-! ### What a step does -/

/-- The body that came of a request. -/
def Exchange.received (x : Exchange) : Option Bytes :=
  match x.reply, x.replyAgain with
  | .body bytes, _ => some bytes
  | .unauthorized, .body bytes => some bytes
  | _, _ => none

/-- The rows `on` was called for, in order. -/
def onIds (log : List Entry) : List String :=
  log.filterMap fun
    | .on o => some o.id
    | _ => none

@[simp]
theorem onIds_append (log new : List Entry) : onIds (log ++ new) = onIds log ++ onIds new :=
  List.filterMap_append

theorem mem_onIds {log : List Entry} {id : String} :
    id ∈ onIds log ↔ ∃ o, Entry.on o ∈ log ∧ o.id = id := by
  rw [onIds, List.mem_filterMap]
  constructor
  · rintro ⟨e, he, hid⟩
    cases e with
    | on o => exact ⟨o, he, Option.some.inj hid⟩
    | _ => cases hid
  · rintro ⟨o, ho, rfl⟩
    exact ⟨.on o, ho, rfl⟩

namespace Client

section

variable {Identity Rand : Type} {r : Reader Identity Rand} {c : Client}

/-- The rows read in this round and not yet handed on. -/
def out (c : Client) : List InboxItem :=
  match c.phase with
  | .idle => []
  | .reading _ _ _ out => out

theorem ensureSession_eq (slot : String) (force : Bool) (now : ℕ)
    (challenge : Option (Challenge × ℕ)) : ∃ sessions,
      (c.ensureSession r slot force now challenge).2 = { c with sessions := sessions } := by
  unfold ensureSession
  simp only
  split
  · exact ⟨c.sessions, rfl⟩
  · split
    · exact ⟨c.sessions, rfl⟩
    · split
      · exact ⟨c.sessions, rfl⟩
      · exact ⟨_, rfl⟩

theorem send_eq (c : Client) (have_ : Option (List String)) : ∃ new,
    c.send have_ = { c with log := c.log ++ new } ∧
      ∀ e ∈ new, ∃ ids, have_ = some ids ∧ e = .have_ ids := by
  cases have_ with
  | none => exact ⟨[], by rw [List.append_nil]; rfl, nofun⟩
  | some ids => exact ⟨[.have_ ids], rfl, fun e he => ⟨ids, rfl, List.mem_singleton.1 he⟩⟩

/-- A request changes the sessions, and tells what it was given to tell. -/
theorem authed_eq (slot : String) (have_ : Option (List String)) (x : Exchange) :
    ∃ sessions new,
      (c.authed r slot have_ x).2 = { c with sessions := sessions, log := c.log ++ new } ∧
        (∀ e ∈ new, ∃ ids, have_ = some ids ∧ e = .have_ ids) ∧
        ∀ bytes, (c.authed r slot have_ x).1 = some bytes → x.received = some bytes := by
  obtain ⟨s, hs⟩ := ensureSession_eq (r := r) (c := c) slot false x.now x.challenge
  unfold authed Exchange.received
  revert hs
  cases c.ensureSession r slot false x.now x.challenge with
  | mk bearer d =>
      rintro rfl
      cases bearer with
      | none => exact ⟨s, [], by rw [List.append_nil], nofun, nofun⟩
      | some bearer =>
          obtain ⟨new, hsend, hnew⟩ := send_eq { c with sessions := s } have_
          simp only [hsend]
          cases x.reply with
          | body bytes => exact ⟨s, new, rfl, hnew, fun _ h => h⟩
          | lost => exact ⟨s, new, rfl, hnew, nofun⟩
          | rejected => exact ⟨s, new, rfl, hnew, nofun⟩
          | unauthorized =>
              simp only
              obtain ⟨s', hs'⟩ := ensureSession_eq (r := r)
                (c := { c with sessions := s.erase slot, log := c.log ++ new }) slot true x.now
                x.challengeAgain
              revert hs'
              generalize ensureSession r _ slot true x.now x.challengeAgain = p
              obtain ⟨bearer, d⟩ := p
              rintro rfl
              cases bearer with
              | none => exact ⟨s', new, rfl, hnew, nofun⟩
              | some bearer =>
                  obtain ⟨new', hsend', hnew'⟩ :=
                    send_eq { c with sessions := s', log := c.log ++ new } have_
                  simp only [hsend']
                  have hboth : ∀ e ∈ new ++ new', ∃ ids, have_ = some ids ∧ e = .have_ ids :=
                    fun e he => (List.mem_append.1 he).elim (hnew e) (hnew' e)
                  cases x.replyAgain with
                  | body bytes =>
                      exact ⟨s', new ++ new', by rw [List.append_assoc], hboth, fun _ h => h⟩
                  | lost => exact ⟨s', new ++ new', by rw [List.append_assoc], hboth, nofun⟩
                  | rejected => exact ⟨s', new ++ new', by rw [List.append_assoc], hboth, nofun⟩
                  | unauthorized =>
                      exact ⟨s', new ++ new', by rw [List.append_assoc], hboth, nofun⟩

/-- What asking for a slot changes: nothing that is read of rows. What is told is what is
held, and only of the first slot. -/
def Asked (r : Reader Identity Rand) (c : Client) (first : Bool) (d : Client) : Prop :=
  ∃ sessions lastBackfill new,
    d = { c with sessions := sessions, lastBackfill := lastBackfill, log := c.log ++ new } ∧
      ∀ e ∈ new, first = true ∧ e = .have_ (r.hashOrder c.held)

theorem asked_authed (slot : String) (first : Bool) (l : ℕ) (x : Exchange) :
    Asked r c first
      (({ c with lastBackfill := l } : Client).authed r slot
        (if first then haveHeader r { c with lastBackfill := l } else none) x).2 := by
  obtain ⟨s, new, heq, hnew, -⟩ := authed_eq (r := r) (c := { c with lastBackfill := l }) slot
    (if first then haveHeader r { c with lastBackfill := l } else none) x
  refine ⟨s, l, new, heq, fun e he => ?_⟩
  obtain ⟨ids, hids, rfl⟩ := hnew e he
  cases first with
  | false => cases hids
  | true =>
      simp only [if_true, haveHeader] at hids
      split_ifs at hids
      exact ⟨rfl, by rw [Option.some.inj hids]⟩

/-- The four ways a slot is read: not at all, without news, with what is no list of rows,
and with rows. -/
theorem readSlot_cases (slot : String) (rest : List String) (first backfill : Bool)
    (out : List InboxItem) (now : ℕ) (x : Exchange) : ∃ d, Asked r c first d ∧
      ((first = true ∧ c.readSlot r slot rest first backfill out now x =
          { d with phase := .idle }) ∨
        (∃ todo backfill', c.readSlot r slot rest first backfill out now x =
          { d with phase := .reading todo false backfill' out }) ∨
        (∃ bytes, x.received = some bytes ∧ bytes ≠ [] ∧ decodeInboxItems bytes = none ∧
          c.readSlot r slot rest first backfill out now x = { d with phase := .idle }) ∨
        ∃ items backfill', c.readSlot r slot rest first backfill out now x =
          { d.rememberRows slot (items.map (·.id)) with
            held := if first then (items.map (·.id)).toFinset else
              (d.rememberRows slot (items.map (·.id))).held
            phase := .reading rest false backfill' (out ++ items) }) := by
  have hlook : ∃ l due, (if first || backfill then (true, c) else c.backfillDue now) =
      (due, { c with lastBackfill := l }) := by
    unfold backfillDue
    split_ifs
    · exact ⟨c.lastBackfill, _, rfl⟩
    · exact ⟨c.lastBackfill, _, rfl⟩
    · exact ⟨now, _, rfl⟩
  obtain ⟨l, due, hlook⟩ := hlook
  unfold readSlot
  rw [hlook]
  cases due with
  | false => exact ⟨_, ⟨c.sessions, l, [], by rw [List.append_nil], nofun⟩,
      Or.inr (Or.inl ⟨[], false, rfl⟩)⟩
  | true =>
      have hasked := asked_authed (r := r) (c := c) slot first l x
      obtain ⟨-, -, -, -, hreceived⟩ := authed_eq (r := r) (c := { c with lastBackfill := l }) slot
        (if first then haveHeader r { c with lastBackfill := l } else none) x
      revert hasked hreceived
      simp only [if_true]
      generalize authed r _ slot _ x = p
      obtain ⟨answer, d⟩ := p
      intro hasked hreceived
      refine ⟨d, hasked, ?_⟩
      cases answer with
      | none =>
          cases first with
          | true => exact Or.inl ⟨rfl, rfl⟩
          | false => exact Or.inr (Or.inl ⟨rest, _, rfl⟩)
      | some bytes =>
          simp only [answered]
          cases hempty : bytes.isEmpty with
          | true => exact Or.inr (Or.inl ⟨rest, _, rfl⟩)
          | false =>
              simp only [Bool.false_eq_true, if_false]
              cases hitems : decodeInboxItems bytes with
              | none =>
                  refine Or.inr (Or.inr (Or.inl ⟨bytes, hreceived bytes rfl, ?_, hitems, rfl⟩))
                  rintro rfl
                  cases hempty
              | some items => exact Or.inr (Or.inr (Or.inr ⟨items, _, rfl⟩))

theorem rememberRows_eq (c : Client) (slot : String) (ids : List String) : ∃ rows emptied,
    c.rememberRows slot ids = { c with
      rowSlots := insertRows rows slot ids
      log := c.log ++ emptied ++ [.listed slot ids] } ∧
    (rows = c.rowSlots ∧ emptied = [] ∨
      rows = ∅ ∧ emptied = [.emptied] ∧ maxRowSlots < c.rowSlots.entries.length) := by
  unfold rememberRows
  split_ifs with hfull
  · exact ⟨∅, [.emptied], rfl, Or.inr ⟨rfl, rfl, hfull⟩⟩
  · exact ⟨c.rowSlots, [], by rw [List.append_nil]; rfl, Or.inl ⟨rfl, rfl⟩⟩

/-- A poll skips a row or returns an offer for it. -/
theorem sift_eq (c : Client) (items : List InboxItem) : ∃ undecodable new,
    (c.sift r items).2 = { c with undecodable := undecodable, log := c.log ++ new } ∧
      (∀ e ∈ new, ∃ id why, e = .skipped id why) ∧
      (∀ item ∈ items, (∃ why, .skipped item.id why ∈ new) ∨
        ∃ o ∈ (c.sift r items).1, o.id = item.id) ∧
      ∀ o ∈ (c.sift r items).1, ∃ item ∈ items, item.id = o.id := by
  induction items generalizing c with
  | nil => exact ⟨c.undecodable, [], by rw [List.append_nil]; rfl, nofun, nofun, nofun⟩
  | cons item items ih =>
      rw [sift]
      cases hlook : c.look r item with
      | inr o =>
          have hid : o.id = item.id := by
            unfold look at hlook
            split_ifs at hlook
            revert hlook
            split
            · split_ifs <;> intro h <;> cases h
              rfl
            · intro h
              cases h
          obtain ⟨u, new, heq, hnew, hitems, hoffers⟩ := ih c
          refine ⟨u, new, heq, hnew, ?_, ?_⟩
          · intro i hi
            rcases List.mem_cons.1 hi with rfl | hi
            · exact Or.inr ⟨o, List.mem_cons_self, hid⟩
            · exact (hitems i hi).imp_right fun ⟨o', ho', hid'⟩ =>
                ⟨o', List.mem_cons_of_mem o ho', hid'⟩
          · intro o' ho'
            rcases List.mem_cons.1 ho' with rfl | ho'
            · exact ⟨item, List.mem_cons_self, hid.symm⟩
            · obtain ⟨i, hi, hid'⟩ := hoffers o' ho'
              exact ⟨i, List.mem_cons_of_mem item hi, hid'⟩
      | inl why =>
          obtain ⟨u, new, heq, hnew, hitems, hoffers⟩ := ih (({ c with
            undecodable := if why = .undecodable then insert item.id c.undecodable
              else c.undecodable } : Client).emit (.skipped item.id why))
          refine ⟨u, .skipped item.id why :: new, ?_, ?_, ?_, ?_⟩
          · rw [List.append_cons]
            exact heq
          · exact List.forall_mem_cons.2 ⟨⟨_, _, rfl⟩, hnew⟩
          · intro i hi
            rcases List.mem_cons.1 hi with rfl | hi
            · exact Or.inl ⟨why, List.mem_cons_self⟩
            · exact (hitems i hi).imp_left fun ⟨w, hw⟩ => ⟨w, List.mem_cons_of_mem _ hw⟩
          · intro o' ho'
            obtain ⟨i, hi, hid'⟩ := hoffers o' ho'
            exact ⟨i, List.mem_cons_of_mem item hi, hid'⟩

/-- Offers are handed on once each, and not when their row was handed on before. -/
theorem surface_eq (c : Client) (offers : List ReceivedOffer) : ∃ seen new,
    offers.foldl surface c = { c with seen := seen, log := c.log ++ new } ∧
      (∀ e ∈ new, ∃ o ∈ offers, e = .on o) ∧ seen = c.seen ∪ (onIds new).toFinset ∧
      (onIds new).Nodup ∧ (∀ id ∈ onIds new, id ∉ c.seen) ∧ ∀ o ∈ offers, o.id ∈ seen := by
  induction offers generalizing c with
  | nil => exact ⟨c.seen, [], by rw [List.append_nil]; rfl, nofun, by simp [onIds],
      List.nodup_nil, nofun, nofun⟩
  | cons o offers ih =>
      rw [List.foldl_cons, surface]
      split_ifs with hseen
      · obtain ⟨seen, new, heq, hnew, hset, hnodup, hfresh, hall⟩ := ih c
        refine ⟨seen, new, heq, fun e he => ?_, hset, hnodup, hfresh, ?_⟩
        · obtain ⟨o', ho', rfl⟩ := hnew e he
          exact ⟨o', List.mem_cons_of_mem o ho', rfl⟩
        · refine List.forall_mem_cons.2 ⟨?_, hall⟩
          rw [hset]
          exact Finset.mem_union_left _ hseen
      · obtain ⟨seen, new, heq, hnew, hset, hnodup, hfresh, hall⟩ :=
          ih (({ c with seen := insert o.id c.seen } : Client).emit (.on o))
        have hids : onIds (.on o :: new) = o.id :: onIds new := rfl
        refine ⟨seen, .on o :: new, ?_, ?_, ?_, ?_, ?_, ?_⟩
        · rw [List.append_cons]
          exact heq
        · refine List.forall_mem_cons.2 ⟨⟨o, List.mem_cons_self, rfl⟩, fun e he => ?_⟩
          obtain ⟨o', ho', rfl⟩ := hnew e he
          exact ⟨o', List.mem_cons_of_mem o ho', rfl⟩
        · rw [hset, hids, List.toFinset_cons, Finset.union_insert]
          exact Finset.insert_union ..
        · rw [hids]
          exact List.nodup_cons.2 ⟨fun h => hfresh o.id h (Finset.mem_insert_self _ _), hnodup⟩
        · rw [hids]
          exact List.forall_mem_cons.2 ⟨hseen, fun id hid hmem =>
            hfresh id hid (Finset.mem_insert_of_mem hmem)⟩
        · refine List.forall_mem_cons.2 ⟨?_, hall⟩
          rw [hset]
          exact Finset.mem_union_left _ (Finset.mem_insert_self _ _)

/-- A delete is answered, or it is not. -/
theorem ackAnswered_eq (c : Client) (key : String × String) (x : Exchange) : ∃ sessions,
    c.ackAnswered r key x = { c with sessions := sessions } ∨
      c.ackAnswered r key x = { c with
        sessions := sessions
        rowSlots := c.rowSlots.erase key.1
        log := c.log ++ [.acked key.1] } := by
  obtain ⟨s, new, heq, hnew, -⟩ := authed_eq (r := r) (c := c) key.2 none x
  have hnil : new = [] := List.eq_nil_iff_forall_not_mem.2 fun e he => by
    obtain ⟨ids, hids, -⟩ := hnew e he
    cases hids
  subst hnil
  rw [List.append_nil] at heq
  refine ⟨s, ?_⟩
  unfold ackAnswered
  revert heq
  generalize authed r c key.2 none x = p
  obtain ⟨answer, d⟩ := p
  rintro rfl
  cases answer with
  | none => exact Or.inl rfl
  | some bytes => exact Or.inr rfl

/-- What a delivery does: every row is skipped, or an offer that was seen or is now. -/
theorem deliver_eq (c : Client) (out : List InboxItem) : ∃ undecodable skips seen ons,
    c.deliver r out = { c with
      undecodable := undecodable
      seen := (if maxSeen < c.seen.card then ∅ else c.seen) ∪ seen
      phase := .idle
      log := c.log ++ skips ++ ons } ∧
    (∀ e ∈ skips, ∃ id why, e = .skipped id why) ∧
    (∀ e ∈ ons, ∃ o, e = .on o ∧ ∃ item ∈ out, item.id = o.id) ∧
    seen = (onIds ons).toFinset ∧ (onIds ons).Nodup ∧
    (∀ id ∈ onIds ons, id ∉ if maxSeen < c.seen.card then ∅ else c.seen) ∧
    ∀ item ∈ out, (∃ why, .skipped item.id why ∈ skips) ∨
      item.id ∈ (if maxSeen < c.seen.card then ∅ else c.seen) ∪ seen := by
  obtain ⟨u, skips, hsift, hskips, hitems, hoffers⟩ := sift_eq (r := r) c out
  unfold deliver
  revert hsift hitems hoffers
  generalize c.sift r out = p
  obtain ⟨offers, d⟩ := p
  rintro rfl hitems hoffers
  obtain ⟨seen, ons, hsurface, hons, rfl, hnodup, hfresh, hall⟩ := surface_eq
    ({ c with
      undecodable := u
      seen := if maxSeen < c.seen.card then ∅ else c.seen
      log := c.log ++ skips } : Client) offers
  refine ⟨u, skips, _, ons, ?_, hskips, fun e he => ?_, rfl, hnodup, hfresh, fun item hi => ?_⟩
  · have hstart : (if maxSeen < c.seen.card then
        ({ c with undecodable := u, log := c.log ++ skips, seen := ∅ } : Client)
        else { c with undecodable := u, log := c.log ++ skips }) =
        { c with
          undecodable := u
          seen := if maxSeen < c.seen.card then ∅ else c.seen
          log := c.log ++ skips } := by
      split_ifs <;> rfl
    simp only [hstart, hsurface]
  · obtain ⟨o, ho, rfl⟩ := hons e he
    exact ⟨o, rfl, hoffers o ho⟩
  · refine (hitems item hi).imp_right fun ⟨o, ho, hid⟩ => ?_
    rw [← hid]
    exact hall o ho

theorem Asked.phase_eq {first : Bool} {d : Client} (hd : Asked r c first d) :
    d.phase = c.phase := by
  obtain ⟨sessions, lastBackfill, new, rfl, -⟩ := hd
  rfl

/-- What a step can do. -/
inductive Does (r : Reader Identity Rand) (c : Client) : Event → Client → Prop
  | still {e : Event} : Does r c e c
  | names {device : DeviceId} : Does r c (.setOrigin device) { c with origin := some device }
  | begins {now : ℕ} : c.phase = .idle →
      Does r c (.round now) { c with phase := .reading (readSlots r now) true false [] }
  | leaves {slot rest first backfill out now x d} :
      c.phase = .reading (slot :: rest) first backfill out → Asked r c first d →
      (first = false → ∃ bytes, x.received = some bytes ∧ bytes ≠ [] ∧
        decodeInboxItems bytes = none) →
      Does r c (.get now x) { d with phase := .idle }
  | passes {slot rest first backfill out now x d} (todo : List String) (backfill' : Bool) :
      c.phase = .reading (slot :: rest) first backfill out → Asked r c first d →
      Does r c (.get now x) { d with phase := .reading todo false backfill' out }
  | lists {slot rest first backfill out now x d} (items : List InboxItem) (backfill' : Bool) :
      c.phase = .reading (slot :: rest) first backfill out → Asked r c first d →
      Does r c (.get now x) { d.rememberRows slot (items.map (·.id)) with
        held := if first then (items.map (·.id)).toFinset else
          (d.rememberRows slot (items.map (·.id))).held
        phase := .reading rest false backfill' (out ++ items) }
  | delivers {first backfill out} : c.phase = .reading [] first backfill out →
      Does r c .deliver (c.deliver r out)
  | acks {id : String} {now : ℕ} (acking : List (String × String)) : Does r c (.ack id now) { c with
      acking := acking
      log := c.log ++ [.ack id ((c.rowSlots.lookup id).getD (currentSlot r now)) now] }
  | fails {i : ℕ} {x : Exchange} (acking : List (String × String))
      (sessions : Table String CachedSession) :
      Does r c (.ackDone i x) { c with acking := acking, sessions := sessions }
  | acked {i : ℕ} {x : Exchange} (acking : List (String × String))
      (sessions : Table String CachedSession) (id : String) : Does r c (.ackDone i x) { c with
        acking := acking
        sessions := sessions
        rowSlots := c.rowSlots.erase id
        log := c.log ++ [.acked id] }

theorem step_does (r : Reader Identity Rand) (c : Client) (e : Event) :
    Does r c e (c.step r e) := by
  cases e with
  | setOrigin device => exact .names
  | round now =>
      unfold step
      cases hphase : c.phase with
      | idle => exact .begins hphase
      | reading todo first backfill out => exact .still
  | get now x =>
      unfold step
      cases hphase : c.phase with
      | idle => exact .still
      | reading todo first backfill out =>
          cases todo with
          | nil => exact .still
          | cons slot rest =>
              obtain ⟨d, hd, hcases⟩ :=
                readSlot_cases (r := r) (c := c) slot rest first backfill out now x
              rcases hcases with ⟨hf, heq⟩ | ⟨todo, b, heq⟩ | ⟨bytes, hbytes, hne, hnone, heq⟩ |
                ⟨items, b, heq⟩
              · simp only [heq]
                exact .leaves hphase hd fun hfalse => absurd (hf.symm.trans hfalse) (by decide)
              · simp only [heq]
                exact .passes todo b hphase hd
              · simp only [heq]
                exact .leaves hphase hd fun _ => ⟨bytes, hbytes, hne, hnone⟩
              · simp only [heq]
                exact .lists items b hphase hd
  | deliver =>
      unfold step
      cases hphase : c.phase with
      | idle => exact .still
      | reading todo first backfill out =>
          cases todo with
          | cons slot rest => exact .still
          | nil => exact .delivers hphase
  | ack id now => exact .acks _
  | ackDone i x =>
      simp only [step]
      split
      · exact .still
      · next key _ =>
        obtain ⟨s, heq | heq⟩ :=
          ackAnswered_eq (r := r) { c with acking := c.acking.eraseIdx i } key x
        · rw [heq]
          exact .fails _ s
        · rw [heq]
          exact .acked _ s key.1

end

/-! ### What is told has been handed on -/

/-- The row has been through the delivery. -/
def Delivered (log : List Entry) (id : String) : Prop :=
  (∃ why, .skipped id why ∈ log) ∨ id ∈ onIds log

theorem Delivered.append {log : List Entry} {id : String} (h : Delivered log id)
    (new : List Entry) : Delivered (log ++ new) id :=
  h.imp (fun ⟨why, hmem⟩ => ⟨why, List.mem_append_left new hmem⟩)
    fun hmem => by rw [onIds_append]; exact List.mem_append_left _ hmem

def Told (before : List Entry) (e : Entry) : Prop :=
  ∀ ids, e = .have_ ids → ∀ id ∈ ids, Delivered before id

section

variable {Identity Rand : Type} {r : Reader Identity Rand} {c : Client}

/-- No older slot answers with bytes that are no list of rows. -/
def OlderReadable (c : Client) : Event → Prop
  | .get _ x =>
      match c.phase with
      | .reading (_ :: _) false _ _ =>
          ∀ bytes, x.received = some bytes → bytes = [] ∨ decodeInboxItems bytes ≠ none
      | _ => True
  | _ => True

/-- What is held is delivered, except for what this round has read. -/
structure Truthful (c : Client) : Prop where
  told : Lawful Told c.log
  held : ∀ id ∈ c.held, Delivered c.log id ∨ ∃ item ∈ c.out, item.id = id
  seen : ∀ id ∈ c.seen, id ∈ onIds c.log
  first : ∀ {todo backfill out}, c.phase = .reading todo true backfill out → out = []

theorem truthful_fresh : Truthful fresh :=
  ⟨lawful_nil, nofun, nofun, nofun⟩

theorem told_of_ne {before : List Entry} {e : Entry} (h : ∀ ids, e ≠ .have_ ids) :
    Told before e := fun ids heq => absurd heq (h ids)

/-- Entries that tell nothing, about rows that are as they were. -/
theorem Truthful.log_append (h : Truthful c) {new : List Entry}
    (hnew : ∀ e ∈ new, ∀ ids, e ≠ .have_ ids) : Truthful { c with log := c.log ++ new } where
  told := h.told.append fun _ e he => told_of_ne (hnew e he)
  held id hid := (h.held id hid).imp_left fun hd => hd.append new
  seen id hid := by
    rw [onIds_append]
    exact List.mem_append_left _ (h.seen id hid)
  first := h.first

theorem Truthful.asked (h : Truthful c) {first : Bool} {d : Client} (hd : Asked r c first d)
    (hfirst : first = true → c.out = []) : Truthful d := by
  obtain ⟨sessions, lastBackfill, new, rfl, hnew⟩ := hd
  refine ⟨h.told.append fun pre e he ids heq id hid => ?_, fun id hid =>
    (h.held id hid).imp_left fun hd => hd.append new, fun id hid => ?_, h.first⟩
  · obtain ⟨hf, rfl⟩ := hnew e he
    obtain rfl := Entry.have_.inj heq
    have hheld := h.held id (r.mem_hashOrder.1 hid)
    rw [hfirst hf] at hheld
    exact (hheld.resolve_right nofun).append pre
  · rw [onIds_append]
    exact List.mem_append_left _ (h.seen id hid)

/-- What is held once nothing is left to hand on. -/
theorem Truthful.held_of_nil (h : Truthful c) (hout : c.out = []) :
    ∀ id ∈ c.held, Delivered c.log id := by
  intro id hid
  refine (h.held id hid).resolve_right fun ⟨item, hitem, _⟩ => ?_
  rw [hout] at hitem
  cases hitem

/-- Leaving a round with nothing to hand on, or going on with the same rows. -/
theorem Truthful.idle (h : Truthful c) (hout : c.out = []) :
    Truthful { c with phase := .idle } where
  told := h.told
  held id hid := Or.inl (h.held_of_nil hout id hid)
  seen := h.seen
  first := nofun

theorem Truthful.passed (h : Truthful c) (todo : List String) (backfill : Bool) :
    Truthful { c with phase := .reading todo false backfill c.out } where
  told := h.told
  held := h.held
  seen := h.seen
  first := nofun

theorem Truthful.listed (h : Truthful c) (slot : String) (items : List InboxItem)
    (rest : List String) (first backfill : Bool) (hfirst : first = true → c.out = []) :
    Truthful { c.rememberRows slot (items.map (·.id)) with
      held := if first then (items.map (·.id)).toFinset else
        (c.rememberRows slot (items.map (·.id))).held
      phase := .reading rest false backfill (c.out ++ items) } := by
  obtain ⟨rows, emptied, heq, hrows⟩ := rememberRows_eq c slot (items.map (·.id))
  have hnew : ∀ e ∈ emptied ++ [.listed slot (items.map (·.id))], ∀ ids, e ≠ .have_ ids := by
    intro e he ids
    rcases List.mem_append.1 he with he | he
    · rcases hrows with ⟨-, rfl⟩ | ⟨-, rfl, -⟩
      · cases he
      · obtain rfl := List.mem_singleton.1 he
        nofun
    · obtain rfl := List.mem_singleton.1 he
      nofun
  have hlog := h.log_append hnew
  rw [heq, List.append_assoc]
  refine ⟨hlog.told, fun id hid => ?_, hlog.seen, nofun⟩
  cases first with
  | true =>
      obtain ⟨item, hitem, rfl⟩ := List.mem_map.1 (List.mem_toFinset.1 hid)
      exact Or.inr ⟨item, List.mem_append_right _ hitem, rfl⟩
  | false =>
      exact (hlog.held id hid).imp_right fun ⟨item, hitem, heq⟩ =>
        ⟨item, List.mem_append_left _ hitem, heq⟩

theorem Truthful.deliver (h : Truthful c) : Truthful (c.deliver r c.out) := by
  obtain ⟨u, skips, seen, ons, heq, hskips, hons, rfl, -, -, hall⟩ := deliver_eq (r := r) c c.out
  have hsub : ∀ id ∈ (if maxSeen < c.seen.card then ∅ else c.seen), id ∈ onIds c.log := by
    intro id hid
    split_ifs at hid
    · cases hid
    · exact h.seen id hid
  have hmem : ∀ id ∈ (if maxSeen < c.seen.card then ∅ else c.seen) ∪ (onIds ons).toFinset,
      id ∈ onIds (c.log ++ skips ++ ons) := by
    intro id hid
    rw [onIds_append, onIds_append]
    rcases Finset.mem_union.1 hid with hid | hid
    · exact List.mem_append_left _ (List.mem_append_left _ (hsub id hid))
    · exact List.mem_append_right _ (List.mem_toFinset.1 hid)
  rw [heq]
  constructor
  · have hskip : ∀ e ∈ skips, ∀ ids, e ≠ .have_ ids := by
      intro e he ids
      obtain ⟨id, why, rfl⟩ := hskips e he
      nofun
    have hon : ∀ e ∈ ons, ∀ ids, e ≠ .have_ ids := by
      intro e he ids
      obtain ⟨o, rfl, -⟩ := hons e he
      nofun
    exact (h.told.append fun _ e he => told_of_ne (hskip e he)).append
      fun _ e he => told_of_ne (hon e he)
  · intro id hid
    refine Or.inl ?_
    rcases h.held id hid with hd | ⟨item, hitem, rfl⟩
    · exact (hd.append skips).append ons
    · rcases hall item hitem with ⟨why, hwhy⟩ | hseen
      · exact Or.inl ⟨why, List.mem_append_left _ (List.mem_append_right _ hwhy)⟩
      · exact Or.inr (hmem _ hseen)
  · exact hmem
  · nofun

theorem out_eq {todo : List String} {first backfill : Bool} {out : List InboxItem}
    (h : c.phase = .reading todo first backfill out) : c.out = out := by
  rw [Client.out, h]

theorem Truthful.does (h : Truthful c) {e : Event} {c' : Client} (hdoes : Does r c e c')
    (he : OlderReadable c e) : Truthful c' := by
  have hlog : ∀ e', (∀ ids, e' ≠ .have_ ids) → Truthful { c with log := c.log ++ [e'] } :=
    fun e' he' => h.log_append fun e hmem => by rw [List.mem_singleton.1 hmem]; exact he'
  cases hdoes with
  | still => exact h
  | names => exact ⟨h.told, h.held, h.seen, h.first⟩
  | begins hphase =>
      have hout : c.out = [] := by rw [out, hphase]
      refine ⟨h.told, fun id hid => Or.inl (h.held_of_nil hout id hid), h.seen, ?_⟩
      intro todo backfill out heq
      exact (Phase.reading.inj heq).2.2.2.symm
  | leaves hphase hd hbytes =>
      rename_i slot rest first backfill out now x d
      have hfirst : first = true := by
        by_contra hf
        obtain ⟨bytes, hreceived, hne, hnone⟩ := hbytes (Bool.not_eq_true _ ▸ hf)
        rw [Bool.not_eq_true] at hf
        subst hf
        simp only [OlderReadable, hphase] at he
        exact ((he bytes hreceived).resolve_left hne) hnone
      subst hfirst
      have hout : c.out = [] := (out_eq hphase).trans (h.first hphase)
      refine (h.asked hd fun _ => hout).idle ?_
      rw [out_eq (hd.phase_eq.trans hphase), ← out_eq hphase]
      exact hout
  | passes todo b hphase hd =>
      have htrue := h.asked hd fun hf => (out_eq hphase).trans (h.first (hf ▸ hphase))
      rw [← out_eq (hd.phase_eq.trans hphase)]
      exact htrue.passed todo b
  | lists items b hphase hd =>
      rename_i slot rest first backfill out now x d
      have hout : first = true → c.out = [] := fun hf =>
        (out_eq hphase).trans (h.first (hf ▸ hphase))
      rw [← out_eq (hd.phase_eq.trans hphase)]
      refine (h.asked hd hout).listed slot items rest first b fun hf => ?_
      rw [out_eq (hd.phase_eq.trans hphase), ← out_eq hphase]
      exact hout hf
  | delivers hphase =>
      rw [← out_eq hphase]
      exact h.deliver
  | acks acking =>
      rename_i id now
      have hack := hlog (.ack id ((c.rowSlots.lookup id).getD (currentSlot r now)) now) nofun
      exact ⟨hack.told, hack.held, hack.seen, hack.first⟩
  | fails acking sessions => exact ⟨h.told, h.held, h.seen, h.first⟩
  | acked acking sessions id =>
      have hacked := hlog (.acked id) nofun
      exact ⟨hacked.told, hacked.held, hacked.seen, hacked.first⟩

end

end Client

end Arvolo.Presence
