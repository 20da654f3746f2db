import Arvolo.Control.Acks

/-!
Serving a ticket to any number of receivers, `SendSession::serve` of `core/src/flow/send.rs`, with
the control connections and the count of active peers that it watches (`core/src/chunked.rs`).

The handlers of the control connections record acks and put departures and aborts on channels;
the loop takes them off, one at a time and not while an offload is under way. Peers act in any
order in between. The digests of a payload are at most 2^32 in number, so the casts of a chunk's
index to a `u32` lose nothing here.
-/

namespace Arvolo.Send

open Control Lib

/-! ### Who is downloading now -/

def activeWindow : ℕ := 10 * 1000

/-- The peers with a chunk connection open, and when each last did anything. -/
structure PeerCount where
  ids : Finset Peer := ∅
  conns : Peer → ℕ := fun _ => 0
  activity : Peer → ℕ := fun _ => 0

namespace PeerCount

variable (c : PeerCount)

def enter (now : ℕ) (id : Peer) : PeerCount where
  ids := insert id c.ids
  conns := Function.update c.conns id (c.conns id + 1)
  activity := Function.update c.activity id now

/-- A connection of `id` shows a sign of life. -/
def touch (now : ℕ) (id : Peer) : PeerCount :=
  if id ∈ c.ids then { c with activity := Function.update c.activity id now } else c

def leave (id : Peer) : PeerCount :=
  if id ∈ c.ids then
    { c with
      ids := if c.conns id - 1 = 0 then c.ids.erase id else c.ids
      conns := Function.update c.conns id (c.conns id - 1) }
  else c

/-- The peers that count as downloading. -/
def counted (now : ℕ) : Finset Peer := c.ids.filter fun id => now - c.activity id ≤ activeWindow

def distinct (now : ℕ) : ℕ := (c.counted now).card

/-- The peers of the map are those with a connection. -/
def Balanced : Prop := ∀ id, id ∈ c.ids ↔ 0 < c.conns id

end PeerCount

/-! ### The loop -/

inductive SendEvent
  | delivered
  | peers (count : ℕ)
  | receiverConnected
  | recipientCancelled
  | receiverDropped (missing : ℕ)
  | backfilled
  | backfillFailed (reason : String)
  | relayCapped (limitBytes : ℕ)
  | offloaded
  deriving DecidableEq

inductive ServePhase
  | waiting
  /-- The tail of a receiver that is gone is on its way to the relay. -/
  | offloading (peer : Peer) (tail : List ℕ)
  | stopped
  deriving DecidableEq

structure Serve where
  sealedToRecipient : Bool
  relay : Bool
  sender : Sender
  /-- The control connections that are open, by their receivers. -/
  ctrl : List Peer := []
  peers : PeerCount := {}
  now : ℕ := activeWindow + 1
  /-- Connections to be told of, and how many departures and aborts have been taken. -/
  connected : ℕ := 0
  gone : ℕ := 0
  aborted : ℕ := 0
  /-- The receivers whose delivery was reported, in that order. -/
  reported : List Peer := []
  lastPeers : ℕ := 0
  phase : ServePhase := .waiting
  log : List SendEvent := []

inductive ServeEvent
  | ctrlOpen (p : Peer)
  | ctrlRead (p : Peer) (msg : CtrlMsg)
  /-- The stream ends, or nothing has come for too long. -/
  | ctrlEnd (p : Peer)
  | chunkOpen (p : Peer)
  | chunkAct (p : Peer)
  | chunkClose (p : Peer)
  | time (ms : ℕ)
  | tick
  | receiverConnected
  | receiverAborted
  | receiverGone
  | offloadDone (complete : Bool)
  | cancel

namespace Serve

variable (s : Serve)

def on (e : SendEvent) : Serve := { s with log := s.log ++ [e] }

/-- `reported.insert(peer)`, with the event if it was not in. -/
def report (p : Peer) : Serve :=
  if p ∈ s.reported then s else { s with reported := s.reported ++ [p] }.on .delivered

def activePeers : ℕ := s.peers.distinct s.now

/-- The departure that is next in the channel. -/
def nextGone : Option (Peer × List ℕ) := s.sender.gone[s.gone]?

/-- The abort that is next in the channel. -/
def nextAbort : Option Peer := s.sender.aborts.reverse[s.aborted]?

def step (s : Serve) : ServeEvent → Serve
  | .ctrlOpen p => { s with ctrl := p :: s.ctrl, connected := s.connected + 1 }
  | .ctrlRead p msg =>
      if p ∈ s.ctrl then
        { s with
          sender := s.sender.read p msg
          ctrl := if msg = .abort then s.ctrl.erase p else s.ctrl }
      else s
  | .ctrlEnd p =>
      if p ∈ s.ctrl then { s with sender := s.sender.depart p, ctrl := s.ctrl.erase p } else s
  | .chunkOpen p => { s with peers := s.peers.enter s.now p }
  | .chunkAct p => { s with peers := s.peers.touch s.now p }
  | .chunkClose p => { s with peers := s.peers.leave p }
  | .time ms => { s with now := s.now + ms }
  | .tick =>
      match s.phase with
      | .waiting =>
          let s := s.sender.completedPeers.foldl report s
          let p := s.activePeers
          if p ≠ s.lastPeers then { s with lastPeers := p }.on (.peers p) else s
      | _ => s
  | .receiverConnected =>
      match s.phase, s.connected with
      | .waiting, n + 1 => { s with connected := n }.on .receiverConnected
      | _, _ => s
  | .receiverAborted =>
      match s.phase, s.nextAbort with
      | .waiting, some _ =>
          let s := { s with aborted := s.aborted + 1 }.on .recipientCancelled
          -- one may be the aborter, counted for a while yet
          if s.sealedToRecipient ∨ (s.activePeers ≤ 1 ∧ s.reported = []) then
            { s with phase := .stopped }
          else s
      | _, _ => s
  | .receiverGone =>
      match s.phase, s.nextGone with
      | .waiting, some (peer, undelivered) =>
          let s := { s with gone := s.gone + 1 }
          if undelivered = [] then s.report peer
          else if s.relay then
            { s with phase := .offloading peer undelivered }.on (.receiverDropped undelivered.length)
          else s
      | _, _ => s
  | .offloadDone complete =>
      match s.phase with
      | .offloading _ _ =>
          if complete ∧ s.sealedToRecipient ∧ s.activePeers ≤ 1 then
            { s with phase := .stopped }.on .offloaded
          else { s with phase := .waiting }
      | _ => s
  | .cancel =>
      match s.phase with
      | .waiting => { s with phase := .stopped }
      | _ => s

/-- A session over `total` chunks. -/
def start (total : ℕ) (sealedToRecipient relay : Bool) : Serve :=
  { sealedToRecipient, relay, sender := { total, known := Sender.known_start } }

def run (total : ℕ) (sealedToRecipient relay : Bool) (es : List ServeEvent) : Serve :=
  es.foldl step (start total sealedToRecipient relay)

/-! ### What a step does to the acks -/

section Step

variable {s}

@[simp] theorem sender_on (e : SendEvent) : (s.on e).sender = s.sender := rfl

@[simp] theorem sender_report (p : Peer) : (s.report p).sender = s.sender := by
  unfold report
  split <;> rfl

@[simp] theorem sender_foldl_report (ps : List Peer) :
    (ps.foldl report s).sender = s.sender := by
  induction ps generalizing s with
  | nil => rfl
  | cons p ps ih => rw [List.foldl_cons, ih, sender_report]

/-- What the handlers of the control connections know after a step. -/
def heard (s : Serve) : ServeEvent → Sender
  | .ctrlRead p msg => if p ∈ s.ctrl then s.sender.read p msg else s.sender
  | .ctrlEnd p => if p ∈ s.ctrl then s.sender.depart p else s.sender
  | _ => s.sender

theorem sender_step (e : ServeEvent) : (s.step e).sender = s.heard e := by
  cases e with
  | ctrlRead p msg =>
      simp only [step, heard]
      split <;> rfl
  | ctrlEnd p =>
      simp only [step, heard]
      split <;> rfl
  | tick =>
      simp only [step, heard]
      split
      · split <;> simp
      · rfl
  | receiverConnected =>
      simp only [step, heard]
      split <;> rfl
  | receiverAborted =>
      simp only [step, heard]
      split
      · split <;> rfl
      · rfl
  | receiverGone =>
      simp only [step, heard]
      split
      · split
        · simp
        · split <;> rfl
      · rfl
  | offloadDone complete =>
      simp only [step, heard]
      split
      · split <;> rfl
      · rfl
  | cancel =>
      simp only [step, heard]
      split <;> rfl
  | _ => rfl

theorem gone_read (sender : Sender) (p : Peer) (msg : CtrlMsg) :
    (sender.read p msg).gone = sender.gone := by
  cases msg with
  | have_ idx =>
      simp only [Sender.read]
      split <;> rfl
  | _ => rfl

theorem mem_delivered_read_iff {sender : Sender} {p q : Peer} {msg : CtrlMsg} {i : ℕ} :
    i ∈ (sender.read p msg).delivered q ↔
      i ∈ sender.delivered q ∨ (p = q ∧ msg = .have_ i ∧ i < sender.total) := by
  cases msg with
  | have_ idx =>
      by_cases hidx : idx < sender.total
      · by_cases hq : q = p
        · subst hq
          simp only [Sender.read, hidx, if_true, Function.update_self, Finset.mem_insert,
            CtrlMsg.have_.injEq, true_and]
          constructor
          · rintro (rfl | hold)
            · exact .inr ⟨rfl, hidx⟩
            · exact .inl hold
          · rintro (hold | ⟨rfl, -⟩)
            · exact .inr hold
            · exact .inl rfl
        · simp [Sender.read, hidx, Function.update_of_ne hq, Ne.symm hq]
      · simp only [Sender.read, hidx, if_false, CtrlMsg.have_.injEq]
        constructor
        · exact .inl
        · rintro (hold | ⟨-, rfl, hlt⟩)
          · exact hold
          · exact absurd hlt hidx
  | hello => simp [Sender.read]
  | ping => simp [Sender.read]
  | abort => simp [Sender.read]

@[simp] theorem total_heard (e : ServeEvent) : (s.heard e).total = s.sender.total := by
  cases e with
  | ctrlRead p msg =>
      simp only [heard]
      split
      · exact State.total_read s.sender p msg
      · rfl
  | ctrlEnd p =>
      simp only [heard]
      split <;> rfl
  | _ => rfl

/-- A step records the ack that it reads on an open connection, if it is in range, and nothing
else. -/
theorem mem_delivered_step (e : ServeEvent) (p : Peer) (i : ℕ) :
    i ∈ (s.step e).sender.delivered p ↔ i ∈ s.sender.delivered p ∨
      (e = .ctrlRead p (.have_ i) ∧ p ∈ s.ctrl ∧ i < s.sender.total) := by
  rw [sender_step]
  cases e with
  | ctrlRead q msg =>
      by_cases hq : q ∈ s.ctrl
      · simp only [heard, if_pos hq, mem_delivered_read_iff, ServeEvent.ctrlRead.injEq]
        constructor
        · rintro (hold | ⟨rfl, rfl, hlt⟩)
          · exact .inl hold
          · exact .inr ⟨⟨rfl, rfl⟩, hq, hlt⟩
        · rintro (hold | ⟨⟨rfl, rfl⟩, -, hlt⟩)
          · exact .inl hold
          · exact .inr ⟨rfl, rfl, hlt⟩
      · simp only [heard, if_neg hq, ServeEvent.ctrlRead.injEq]
        constructor
        · exact .inl
        · rintro (hold | ⟨⟨rfl, -⟩, hopen, -⟩)
          · exact hold
          · exact absurd hopen hq
  | ctrlEnd q =>
      simp only [heard, reduceCtorEq, false_and, or_false]
      split <;> rfl
  | _ => simp [heard]

end Step

/-! ### Who is reported -/

/-- What holds of the reports in every state. -/
structure Counted (s : Serve) : Prop where
  bounded : ∀ p, ∀ i ∈ s.sender.delivered p, i < s.sender.total
  nodup : s.reported.Nodup
  count : s.log.count .delivered = s.reported.length
  complete : ∀ p ∈ s.reported, ∀ i < s.sender.total, i ∈ s.sender.delivered p
  departed : ∀ d ∈ s.sender.gone, ∀ i < s.sender.total, i ∉ d.2 → i ∈ s.sender.delivered d.1

section Counted

variable {s}

theorem counted_start (total : ℕ) (sealedToRecipient relay : Bool) :
    (start total sealedToRecipient relay).Counted where
  bounded p i hi := by simp [start] at hi
  nodup := List.nodup_nil
  count := rfl
  complete p hp := by cases hp
  departed d hd := by cases hd

/-- What is reported about is not touched by the rest of the state. -/
theorem Counted.congr (h : s.Counted) {s' : Serve} (hsender : s'.sender = s.sender)
    (hreported : s'.reported = s.reported)
    (hlog : s'.log.count .delivered = s.log.count .delivered) : s'.Counted where
  bounded := hsender ▸ h.bounded
  nodup := hreported ▸ h.nodup
  count := by rw [hlog, hreported, h.count]
  complete := by rw [hreported, hsender]; exact h.complete
  departed := hsender ▸ h.departed

theorem Counted.on (h : s.Counted) (e : SendEvent) (he : e ≠ .delivered) : (s.on e).Counted := by
  refine h.congr rfl rfl ?_
  simp [Serve.on, he]

/-- A receiver is reported once, and only where it has everything. -/
theorem Counted.report (h : s.Counted) {p : Peer}
    (hp : ∀ i < s.sender.total, i ∈ s.sender.delivered p) : (s.report p).Counted := by
  unfold Serve.report
  split
  next => exact h
  next hnew =>
    refine ⟨h.bounded, ?_, ?_, ?_, h.departed⟩
    · refine List.nodup_append.2 ⟨h.nodup, List.nodup_singleton p, fun q hq r hr => ?_⟩
      rw [List.mem_singleton.1 hr]
      exact fun heq => hnew (heq ▸ hq)
    · simp [Serve.on, h.count]
    · intro q hq
      rcases List.mem_append.1 hq with hold | hq
      · exact h.complete q hold
      · rw [List.mem_singleton.1 hq]
        exact hp

/-- Acks in range that are as many as the chunks are all of them. -/
theorem mem_completedPeers_iff (h : s.Counted) (hpos : 0 < s.sender.total) (p : Peer) :
    p ∈ s.sender.completedPeers ↔ ∀ i < s.sender.total, i ∈ s.sender.delivered p := by
  constructor
  · intro hp
    rw [Sender.completedPeers, if_neg hpos.ne'] at hp
    have hcard : s.sender.total ≤ (s.sender.delivered p).card := by
      simpa using (List.mem_filter.1 hp).2
    have hsub : s.sender.delivered p ⊆ Finset.range s.sender.total := fun i hi =>
      Finset.mem_range.2 (h.bounded p i hi)
    have hall : s.sender.delivered p = Finset.range s.sender.total :=
      Finset.eq_of_subset_of_card_le hsub (by rwa [Finset.card_range])
    intro i hi
    rw [hall]
    exact Finset.mem_range.2 hi
  · exact State.mem_completedPeers hpos

theorem completedPeers_of_zero {sender : Sender} (h : sender.total = 0) :
    sender.completedPeers = [] := by
  rw [Sender.completedPeers, if_pos h]

theorem complete_of_mem (h : s.Counted) {p : Peer} (hp : p ∈ s.sender.completedPeers) :
    ∀ i < s.sender.total, i ∈ s.sender.delivered p := by
  rcases Nat.eq_zero_or_pos s.sender.total with hzero | hpos
  · rw [completedPeers_of_zero hzero] at hp
    cases hp
  · exact (mem_completedPeers_iff h hpos p).1 hp

theorem Counted.foldl_report (h : s.Counted) {ps : List Peer}
    (hps : ∀ p ∈ ps, ∀ i < s.sender.total, i ∈ s.sender.delivered p) :
    (ps.foldl Serve.report s).Counted := by
  induction ps generalizing s with
  | nil => exact h
  | cons p ps ih =>
      refine ih (h.report (hps p List.mem_cons_self)) fun q hq => ?_
      rw [sender_report]
      exact hps q (List.mem_cons_of_mem _ hq)

/-- Reading a message takes nothing back. -/
theorem Counted.ctrlRead (h : s.Counted) (p : Peer) (msg : CtrlMsg) :
    (s.step (.ctrlRead p msg)).Counted := by
  simp only [Serve.step]
  split
  next =>
    refine ⟨fun q i hi => ?_, h.nodup, h.count, fun q hq i hi => ?_, fun d hd i hi hmem => ?_⟩
    · rw [State.total_read]
      rcases mem_delivered_read_iff.1 hi with hold | ⟨-, -, hlt⟩
      · exact h.bounded q i hold
      · exact hlt
    · rw [State.total_read] at hi
      exact State.mem_delivered_read (h.complete q hq i hi)
    · rw [State.total_read] at hi
      exact State.mem_delivered_read (h.departed d (gone_read s.sender p msg ▸ hd) i hi hmem)
  next => exact h

/-- A departure reports what its receiver has not acked by then. -/
theorem Counted.ctrlEnd (h : s.Counted) (p : Peer) : (s.step (.ctrlEnd p)).Counted := by
  simp only [Serve.step]
  split
  next =>
    refine ⟨h.bounded, h.nodup, h.count, h.complete, fun d hd i hi hmem => ?_⟩
    rcases List.mem_append.1 hd with hold | hd
    · exact h.departed d hold i hi hmem
    · rw [List.mem_singleton.1 hd] at hmem ⊢
      by_contra hnot
      have hlacks : i ∉ s.sender.delivered p := hnot
      exact hmem (List.mem_filter.2 ⟨List.mem_range.2 hi, decide_eq_true hlacks⟩)
  next => exact h

theorem Counted.step (h : s.Counted) (e : ServeEvent) : (s.step e).Counted := by
  cases e with
  | ctrlRead p msg => exact h.ctrlRead p msg
  | ctrlEnd p => exact h.ctrlEnd p
  | tick =>
      simp only [Serve.step]
      split
      · have hall := h.foldl_report fun p hp => complete_of_mem h hp
        generalize s.sender.completedPeers.foldl Serve.report s = t at hall
        split
        · have hpeers : ({ t with lastPeers := t.activePeers } : Serve).Counted :=
            hall.congr rfl rfl rfl
          exact hpeers.on (.peers t.activePeers) nofun
        · exact hall
      · exact h
  | receiverConnected =>
      simp only [Serve.step]
      split
      next n _ _ =>
        have htaken : ({ s with connected := n } : Serve).Counted := h.congr rfl rfl rfl
        exact htaken.on .receiverConnected nofun
      next => exact h
  | receiverAborted =>
      simp only [Serve.step]
      split
      · have htaken : ({ s with aborted := s.aborted + 1 } : Serve).Counted := h.congr rfl rfl rfl
        have hsaid := htaken.on .recipientCancelled nofun
        split
        · exact hsaid.congr rfl rfl rfl
        · exact hsaid
      · exact h
  | receiverGone =>
      simp only [Serve.step]
      split
      next peer undelivered _ hnext =>
        have htaken : ({ s with gone := s.gone + 1 } : Serve).Counted := h.congr rfl rfl rfl
        split
        next hempty =>
          refine htaken.report fun i hi => ?_
          exact h.departed _ (List.mem_of_getElem? hnext) i hi (by rw [hempty]; exact List.not_mem_nil)
        next =>
          split
          · have hphase : ({ s with
                gone := s.gone + 1
                phase := .offloading peer undelivered } : Serve).Counted := h.congr rfl rfl rfl
            exact hphase.on (.receiverDropped undelivered.length) nofun
          · exact htaken
      next => exact h
  | offloadDone complete =>
      simp only [Serve.step]
      split
      · split
        · have hphase : ({ s with phase := .stopped } : Serve).Counted := h.congr rfl rfl rfl
          exact hphase.on .offloaded nofun
        · exact h.congr rfl rfl rfl
      · exact h
  | cancel =>
      simp only [Serve.step]
      split
      · exact h.congr rfl rfl rfl
      · exact h
  | _ => exact h.congr rfl rfl rfl

/-- The next tick reports every receiver that has a complete copy. -/
theorem mem_reported_tick (hphase : s.phase = .waiting) {p : Peer}
    (hp : p ∈ s.sender.completedPeers) : p ∈ (s.step .tick).reported := by
  have hkeep : ∀ (ps : List Peer) (s : Serve), p ∈ s.reported → p ∈ (ps.foldl report s).reported := by
    intro ps
    induction ps with
    | nil => exact fun s h => h
    | cons q ps ih =>
        intro s h
        refine ih _ ?_
        unfold report
        split
        · exact h
        · exact List.mem_append_left _ h
  have hfold : ∀ (ps : List Peer) (s : Serve), p ∈ ps → p ∈ (ps.foldl report s).reported := by
    intro ps
    induction ps with
    | nil => exact fun s h => nomatch h
    | cons q ps ih =>
        intro s h
        rcases List.mem_cons.1 h with rfl | h
        · refine hkeep ps _ ?_
          unfold report
          split
          next hin => exact hin
          next => exact List.mem_append_right _ (List.mem_singleton_self p)
        · exact ih _ h
  simp only [step, hphase]
  split
  · exact hfold _ s hp
  · exact hfold _ s hp

end Counted

/-! ### Whole runs -/

section Run

variable {total : ℕ} {sealedToRecipient relay : Bool}

theorem run_append (es : List ServeEvent) (e : ServeEvent) :
    run total sealedToRecipient relay (es ++ [e]) =
      (run total sealedToRecipient relay es).step e := by
  rw [run, List.foldl_concat]
  rfl

theorem counted_run (es : List ServeEvent) : (run total sealedToRecipient relay es).Counted :=
  foldl_inv Counted (fun _ e h => h.step e) (counted_start total sealedToRecipient relay) es

theorem total_run (es : List ServeEvent) :
    (run total sealedToRecipient relay es).sender.total = total := by
  induction es using List.reverseRecOn with
  | nil => rfl
  | append_singleton es e ih => rw [run_append, sender_step, total_heard, ih]

/-- A control connection of `p` itself has read its ack for piece `i`, and there is such a piece. -/
def Acked (total : ℕ) (sealedToRecipient relay : Bool) (es : List ServeEvent) (p : Peer)
    (i : ℕ) : Prop :=
  i < total ∧ ∃ n, es[n]? = some (.ctrlRead p (.have_ i)) ∧
    p ∈ (run total sealedToRecipient relay (es.take n)).ctrl

/-- What happens at some point of a longer run happens before, or at its end. -/
theorem exists_append_iff (es : List ServeEvent) (e e' : ServeEvent)
    (P : List ServeEvent → Prop) :
    (∃ n, (es ++ [e])[n]? = some e' ∧ P ((es ++ [e]).take n)) ↔
      (∃ n, es[n]? = some e' ∧ P (es.take n)) ∨ (e = e' ∧ P es) := by
  constructor
  · rintro ⟨n, hn, h⟩
    rcases Nat.lt_trichotomy n es.length with hlt | rfl | hgt
    · rw [List.getElem?_append_left hlt] at hn
      rw [List.take_append_of_le_length hlt.le] at h
      exact .inl ⟨n, hn, h⟩
    · rw [List.getElem?_concat_length] at hn
      rw [List.take_left'  rfl] at h
      exact .inr ⟨Option.some.inj hn, h⟩
    · rw [List.getElem?_eq_none (by simpa using hgt)] at hn
      cases hn
  · rintro (⟨n, hn, h⟩ | ⟨rfl, h⟩)
    · have hlt : n < es.length := (List.getElem?_eq_some_iff.1 hn).1
      refine ⟨n, ?_, ?_⟩
      · rw [List.getElem?_append_left hlt, hn]
      · rwa [List.take_append_of_le_length hlt.le]
    · refine ⟨es.length, List.getElem?_concat_length, ?_⟩
      rwa [List.take_left' rfl]

/-- The sender knows of a receiver what that receiver acked, of the pieces there are, and nothing
that another did. -/
theorem mem_delivered_run (es : List ServeEvent) (p : Peer) (i : ℕ) :
    i ∈ (run total sealedToRecipient relay es).sender.delivered p ↔
      Acked total sealedToRecipient relay es p i := by
  induction es using List.reverseRecOn with
  | nil => simp [run, start, Acked]
  | append_singleton es e ih =>
      rw [run_append, mem_delivered_step, ih, total_run, Acked, Acked, exists_append_iff es e _
        fun es => p ∈ (run total sealedToRecipient relay es).ctrl, and_or_left]
      exact or_congr_right ⟨fun h => ⟨h.2.2, h.1, h.2.1⟩, fun h => ⟨h.2.1, h.2.2, h.1⟩⟩

/-- A departure is the end of a connection, and says what its receiver had not acked then. -/
theorem exists_of_mem_gone {es : List ServeEvent} {d : Peer × List ℕ}
    (hd : d ∈ (run total sealedToRecipient relay es).sender.gone) :
    ∃ n, es[n]? = some (.ctrlEnd d.1) ∧
      d.1 ∈ (run total sealedToRecipient relay (es.take n)).ctrl ∧
      d.2 = (run total sealedToRecipient relay (es.take n)).sender.undelivered d.1 := by
  induction es using List.reverseRecOn with
  | nil => cases hd
  | append_singleton es e ih =>
      let P : List ServeEvent → Prop := fun es =>
        d.1 ∈ (run total sealedToRecipient relay es).ctrl ∧
          d.2 = (run total sealedToRecipient relay es).sender.undelivered d.1
      refine (exists_append_iff es e (.ctrlEnd d.1) P).2 ?_
      rw [run_append, sender_step] at hd
      cases e with
      | ctrlRead q msg =>
          refine .inl (ih ?_)
          simp only [heard] at hd
          split at hd
          · rwa [gone_read] at hd
          · exact hd
      | ctrlEnd q =>
          simp only [heard] at hd
          split at hd
          next hopen =>
            rcases List.mem_append.1 hd with hold | hnew
            · exact .inl (ih hold)
            · obtain rfl := List.mem_singleton.1 hnew
              exact .inr ⟨rfl, hopen, rfl⟩
          next => exact .inl (ih hd)
      | _ => exact .inl (ih hd)

theorem mem_undelivered_run (es : List ServeEvent) (p : Peer) (i : ℕ) :
    i ∈ (run total sealedToRecipient relay es).sender.undelivered p ↔
      i < total ∧ ¬ Acked total sealedToRecipient relay es p i := by
  rw [Sender.undelivered, List.mem_filter, List.mem_range, total_run]
  exact and_congr_right fun _ => by rw [decide_eq_true_iff, mem_delivered_run]

/-- What is offloaded is the tail of a departure. -/
def Owed (s : Serve) : Prop :=
  ∀ p tail, s.phase = .offloading p tail → (p, tail) ∈ s.sender.gone

theorem phase_report (s : Serve) (p : Peer) : (s.report p).phase = s.phase := by
  unfold report
  split <;> rfl

theorem phase_foldl_report (ps : List Peer) (s : Serve) :
    (ps.foldl report s).phase = s.phase := by
  induction ps generalizing s with
  | nil => rfl
  | cons p ps ih => rw [List.foldl_cons, ih, phase_report]

theorem gone_subset_heard {s : Serve} (e : ServeEvent) :
    s.sender.gone ⊆ (s.heard e).gone := by
  cases e with
  | ctrlRead p msg =>
      simp only [heard]
      split
      · rw [gone_read]
        exact List.Subset.refl _
      · exact List.Subset.refl _
  | ctrlEnd p =>
      simp only [heard]
      split
      · exact List.subset_append_left _ _
      · exact List.Subset.refl _
  | _ => exact List.Subset.refl _

/-- An offload starts from the departure that is taken, and the phase is otherwise kept or left. -/
theorem phase_step {s : Serve} (e : ServeEvent) {p : Peer} {tail : List ℕ}
    (h : (s.step e).phase = .offloading p tail) :
    s.phase = .offloading p tail ∨ s.nextGone = some (p, tail) := by
  cases e with
  | ctrlRead q msg =>
      simp only [step] at h
      split at h <;> exact .inl h
  | ctrlEnd q =>
      simp only [step] at h
      split at h <;> exact .inl h
  | tick =>
      simp only [step] at h
      split at h
      · refine .inl ?_
        split at h
        · exact (phase_foldl_report s.sender.completedPeers s).symm.trans h
        · exact (phase_foldl_report s.sender.completedPeers s).symm.trans h
      · exact .inl h
  | receiverConnected =>
      simp only [step] at h
      split at h <;> exact .inl h
  | receiverAborted =>
      simp only [step] at h
      split at h
      · split at h
        · cases h
        · exact .inl h
      · exact .inl h
  | receiverGone =>
      simp only [step] at h
      split at h
      next peer undelivered _ hnext =>
        split at h
        · exact .inl ((phase_report { s with gone := s.gone + 1 } peer).symm.trans h)
        · split at h
          · cases h
            exact .inr hnext
          · exact .inl h
      next => exact .inl h
  | offloadDone complete =>
      simp only [step] at h
      split at h
      · split at h <;> cases h
      · exact .inl h
  | cancel =>
      simp only [step] at h
      split at h
      · cases h
      · exact .inl h
  | _ => exact .inl h

theorem owed_run (es : List ServeEvent) : (run total sealedToRecipient relay es).Owed := by
  have hstart : (start total sealedToRecipient relay).Owed := fun p tail h => by cases h
  refine foldl_inv Owed (fun s e hs p tail h => ?_) hstart es
  have hin : (p, tail) ∈ s.sender.gone := by
    rcases phase_step e h with hold | hnext
    · exact hs p tail hold
    · exact List.mem_of_getElem? hnext
  rw [sender_step]
  exact gone_subset_heard e hin

end Run

end Serve

end Arvolo.Send
