import Arvolo.Send.Serve

/-!
One receiver that leaves must not end the download of another, in the abort and gone arms of
`SendSession::serve` (`core/src/flow/send.rs`).

Both arms compare the number of receivers that are pulling with one, since the leaver may be counted
for a while yet. Whether it is depends on whether its own chunk connections are closed by then.
-/

namespace Arvolo.Send

open Control Lib

namespace Serve

/-- A chunk connection of `q` is open, and there was a sign of life within the window. -/
def Pulling (s : Serve) (q : Peer) : Prop :=
  0 < s.peers.conns q ∧ s.now - s.peers.activity q ≤ activeWindow

/-- Whoever leaves does not end the download of another: an abort stops a shared ticket only
where no other receiver is pulling, and an offload stops a sealed one only where no connection is
but what the leaver has left behind. -/
def Spared (s : Serve) : ServeEvent → Prop
  | .receiverAborted => ∀ leaver, s.nextAbort = some leaver → s.sealedToRecipient = false →
      s.phase = .waiting → (s.step .receiverAborted).phase = .stopped →
        ∀ q, s.Pulling q → q = leaver
  | .offloadDone complete => ∀ leaver tail, s.phase = .offloading leaver tail →
      s.sealedToRecipient = true → (s.step (.offloadDone complete)).phase = .stopped →
        ∀ q, s.Pulling q → q = leaver ∧ q ∉ s.ctrl
  | _ => True

/-- A single receiver that is counted is the one that left. -/
def Undisputed (s : Serve) : ServeEvent → Prop
  | .receiverAborted => ∀ leaver, s.nextAbort = some leaver → s.sealedToRecipient = false →
      s.phase = .waiting → s.reported = [] → ∀ q, s.peers.counted s.now = {q} → q = leaver
  | .offloadDone complete => ∀ leaver tail, s.phase = .offloading leaver tail →
      s.sealedToRecipient = true → complete = true →
        ∀ q, s.peers.counted s.now = {q} → q = leaver ∧ q ∉ s.ctrl
  | _ => True

theorem balanced_enter {c : PeerCount} (h : c.Balanced) (now : ℕ) (id : Peer) :
    (c.enter now id).Balanced := by
  intro q
  by_cases hq : q = id
  · subst hq
    simp [PeerCount.enter]
  · simp only [PeerCount.enter, Finset.mem_insert, hq, false_or, Function.update_of_ne hq]
    exact h q

theorem balanced_touch {c : PeerCount} (h : c.Balanced) (now : ℕ) (id : Peer) :
    (c.touch now id).Balanced := by
  unfold PeerCount.touch
  split
  · exact h
  · exact h

theorem balanced_leave {c : PeerCount} (h : c.Balanced) (id : Peer) : (c.leave id).Balanced := by
  unfold PeerCount.leave
  split
  next hid =>
    intro q
    by_cases hq : q = id
    · subst hq
      simp only [Function.update_self]
      split
      next hlast => simp [hlast]
      next hmore => exact iff_of_true hid (Nat.pos_of_ne_zero hmore)
    · simp only [Function.update_of_ne hq, ← h q]
      split
      · exact Finset.mem_erase.trans (and_iff_right hq)
      · rfl
  next => exact h

theorem peers_report (s : Serve) (p : Peer) : (s.report p).peers = s.peers := by
  unfold report
  split <;> rfl

theorem peers_foldl_report (ps : List Peer) (s : Serve) :
    (ps.foldl report s).peers = s.peers := by
  induction ps generalizing s with
  | nil => rfl
  | cons p ps ih => rw [List.foldl_cons, ih, peers_report]

/-- The map of the peers is kept by their chunk connections alone, which open and close in turn. -/
theorem balanced_step {s : Serve} (h : s.peers.Balanced) (e : ServeEvent) :
    (s.step e).peers.Balanced := by
  have hsame : ∀ {t : Serve}, t.peers = s.peers → t.peers.Balanced := fun heq => heq ▸ h
  cases e with
  | chunkOpen p => exact balanced_enter h s.now p
  | chunkAct p => exact balanced_touch h s.now p
  | chunkClose p => exact balanced_leave h p
  | ctrlRead p msg =>
      simp only [step]
      split <;> exact hsame rfl
  | ctrlEnd p =>
      simp only [step]
      split <;> exact hsame rfl
  | tick =>
      simp only [step]
      split
      · split
        · exact hsame (peers_foldl_report s.sender.completedPeers s)
        · exact hsame (peers_foldl_report s.sender.completedPeers s)
      · exact h
  | receiverConnected =>
      simp only [step]
      split <;> exact hsame rfl
  | receiverAborted =>
      simp only [step]
      split
      · split <;> exact hsame rfl
      · exact h
  | receiverGone =>
      simp only [step]
      split
      next peer undelivered _ _ =>
        split
        · exact hsame (peers_report { s with gone := s.gone + 1 } peer)
        · split <;> exact hsame rfl
      next => exact h
  | offloadDone complete =>
      simp only [step]
      split
      · split <;> exact hsame rfl
      · exact h
  | cancel =>
      simp only [step]
      split <;> exact hsame rfl
  | _ => exact h

theorem mem_counted_iff {s : Serve} (h : s.peers.Balanced) (q : Peer) :
    q ∈ s.peers.counted s.now ↔ s.Pulling q := by
  rw [PeerCount.counted, Finset.mem_filter, h q, Pulling]

/-- Where one peer at most is counted, nothing pulls but what `P` allows, exactly if `P` allows
the one that is counted alone. -/
theorem forall_pulling_iff {s : Serve} (h : s.peers.Balanced) (hone : s.activePeers ≤ 1)
    (P : Peer → Prop) :
    (∀ q, s.Pulling q → P q) ↔ ∀ q, s.peers.counted s.now = {q} → P q := by
  constructor
  · intro hall q hq
    refine hall q ((mem_counted_iff h q).1 ?_)
    rw [hq]
    exact Finset.mem_singleton_self q
  · intro hall q hq
    have hmem : q ∈ s.peers.counted s.now := (mem_counted_iff h q).2 hq
    refine hall q (Finset.eq_singleton_iff_unique_mem.2 ⟨hmem, fun r hr => ?_⟩)
    exact Finset.card_le_one.1 hone r hr q hmem

theorem stopped_of_receiverAborted_iff {s : Serve} {leaver : Peer}
    (hnext : s.nextAbort = some leaver) (hshared : s.sealedToRecipient = false)
    (hphase : s.phase = .waiting) :
    (s.step .receiverAborted).phase = .stopped ↔ s.activePeers ≤ 1 ∧ s.reported = [] := by
  simp only [step, hphase, hnext]
  split
  next h =>
    refine iff_of_true rfl ?_
    rcases h with h | h
    · exact absurd (hshared.symm.trans h) Bool.false_ne_true
    · exact h
  next h => exact iff_of_false (by rintro ⟨⟩) fun hboth => h (.inr hboth)

theorem stopped_of_offloadDone_iff {s : Serve} {leaver : Peer} {tail : List ℕ} {complete : Bool}
    (hphase : s.phase = .offloading leaver tail) (hsealed : s.sealedToRecipient = true) :
    (s.step (.offloadDone complete)).phase = .stopped ↔ complete = true ∧ s.activePeers ≤ 1 := by
  simp only [step, hphase, hsealed, true_and]
  split
  next h => exact iff_of_true rfl h
  next h => exact iff_of_false (by rintro ⟨⟩) h

/-- One step spares those that stay exactly where a single receiver that is counted is the one
that left. With more than one the loop goes on, and with none there is nobody to spare. -/
theorem spared_iff_undisputed {s : Serve} (h : s.peers.Balanced) (e : ServeEvent) :
    s.Spared e ↔ s.Undisputed e := by
  cases e with
  | receiverAborted =>
      refine forall₄_congr fun leaver hnext hshared hphase => ?_
      rw [stopped_of_receiverAborted_iff hnext hshared hphase, and_imp]
      constructor
      · intro hspared hnone q hq
        have hone : s.activePeers ≤ 1 := (congrArg Finset.card hq).le
        exact (forall_pulling_iff h hone (· = leaver)).1 (hspared hone hnone) q hq
      · intro hundisputed hone hnone
        exact (forall_pulling_iff h hone (· = leaver)).2 (hundisputed hnone)
  | offloadDone complete =>
      refine forall₄_congr fun leaver tail hphase hsealed => ?_
      rw [stopped_of_offloadDone_iff hphase hsealed, and_imp]
      refine forall_congr' fun _ => ?_
      constructor
      · intro hspared q hq
        have hone : s.activePeers ≤ 1 := (congrArg Finset.card hq).le
        exact (forall_pulling_iff h hone fun q => q = leaver ∧ q ∉ s.ctrl).1 (hspared hone) q hq
      · intro hundisputed hone
        exact (forall_pulling_iff h hone fun q => q = leaver ∧ q ∉ s.ctrl).2 hundisputed
  | _ => exact Iff.rfl

/-- A run spares those that stay, at each of its steps, exactly where at each abort of a shared
ticket of which no copy is complete, and at the end of each complete offload of a sealed one, a
single receiver that is counted is the one that left. -/
theorem spared_run_iff (total : ℕ) (sealedToRecipient relay : Bool) (es : List ServeEvent) :
    Along step Spared (start total sealedToRecipient relay) es ↔
      Along step Undisputed (start total sealedToRecipient relay) es := by
  have hstart : (start total sealedToRecipient relay).peers.Balanced := fun q => by simp [start]
  have hkeep : ∀ s : Serve, ∀ e ∈ es, s.peers.Balanced → (s.step e).peers.Balanced :=
    fun s e _ h => balanced_step h e
  constructor
  · refine Along.imp (fun s => s.peers.Balanced) (fun s e he h _ => hkeep s e he h) ?_ hstart
    exact fun s e _ h hspared => (spared_iff_undisputed h e).1 hspared
  · refine Along.imp (fun s => s.peers.Balanced) (fun s e he h _ => hkeep s e he h) ?_ hstart
    exact fun s e _ h hundisputed => (spared_iff_undisputed h e).2 hundisputed

/-- A receiver says no after its chunk connection is closed, and `<= 1` allows for the wrong one. -/
theorem not_spared_closedFirst : ¬ ∀ (total : ℕ) (sealedToRecipient relay : Bool)
    (es : List ServeEvent), Along step Spared (start total sealedToRecipient relay) es := by
  intro h
  have hrun := h 2 false false [.ctrlOpen "a", .ctrlOpen "b", .chunkOpen "a", .chunkOpen "b",
    .chunkClose "a", .ctrlRead "a" .abort, .receiverAborted]
  have habort := hrun.2.2.2.2.2.2.1 "a" rfl rfl rfl
  have hb : "b" = "a" := habort (by decide +kernel) "b" ⟨by decide +kernel, by decide +kernel⟩
  exact absurd hb (by decide)

end Serve

end Arvolo.Send
