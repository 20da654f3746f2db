import Arvolo.Recv.Accounting

/-!
The assignment phase of `recv_chunked`, `core/src/flow/recv.rs`: the inner loop that keeps the
window of fetches full.

Each turn looks up who can serve the waiting pieces, and only if nobody can, who else could serve
the last pieces in flight. Each look at the sources is one of its own, and the tasks run on
meanwhile. The piece among the rarest, and the provider among a piece's, are left open.
-/

namespace Arvolo.Recv

open Crypto Lib

/-! ### Who can serve a piece -/

/-- A source holds the piece: the sender everything, the relay what it took, a peer its bits. -/
def Sources.Holds (src : Sources) (i : ℕ) (p : Provider) : Prop :=
  src.sender = some p ∨ (∃ held, src.relay = some (p, held) ∧ i ∈ held) ∨
    ∃ bits, (p, bits) ∈ src.peers ∧ bitfieldHas bits i = true

theorem isEligible_iff {banned : List Provider} {cooldown : Provider → Option ℕ} {now : ℕ}
    {p : Provider} : isEligible banned cooldown now p = true ↔
      p ∉ banned ∧ ∀ t, cooldown p = some t → t ≤ now := by
  rw [isEligible]
  cases cooldown p <;> simp

theorem mem_providersForPiece {i : ℕ} {src : Sources} {eligible : Provider → Bool} {p : Provider} :
    p ∈ providersForPiece i src eligible ↔ src.Holds i p ∧ eligible p = true := by
  have hrelay : p ∈ (src.relay.toList.filter fun r => r.2.contains i && eligible r.1).map Prod.fst ↔
      (∃ held, src.relay = some (p, held) ∧ i ∈ held) ∧ eligible p = true := by
    simp only [List.mem_map, List.mem_filter, Option.mem_toList, Bool.and_eq_true,
      List.contains_eq_mem, decide_eq_true_eq]
    constructor
    · rintro ⟨⟨p, held⟩, ⟨hr, hi, hp⟩, rfl⟩
      exact ⟨⟨held, hr, hi⟩, hp⟩
    · rintro ⟨⟨held, hr, hi⟩, hp⟩
      exact ⟨(p, held), ⟨hr, hi, hp⟩, rfl⟩
  have hpeers : p ∈ (src.peers.filter fun q => bitfieldHas q.2 i && eligible q.1).map Prod.fst ↔
      (∃ bits, (p, bits) ∈ src.peers ∧ bitfieldHas bits i = true) ∧ eligible p = true := by
    simp only [List.mem_map, List.mem_filter, Bool.and_eq_true]
    constructor
    · rintro ⟨⟨p, bits⟩, ⟨hmem, hi, hp⟩, rfl⟩
      exact ⟨⟨bits, hmem, hi⟩, hp⟩
    · rintro ⟨⟨bits, hmem, hi⟩, hp⟩
      exact ⟨(p, bits), ⟨hmem, hi, hp⟩, rfl⟩
  rw [providersForPiece, List.mem_append, List.mem_append, hrelay, hpeers, List.mem_filter,
    Option.mem_toList, Sources.Holds]
  simp only [or_and_right, or_assoc]

/-- The rarest of some pieces are some pieces. -/
theorem rarestSet_eq_nil {cs : List (ℕ × List Provider)} : rarestSet cs = [] ↔ cs = [] := by
  constructor
  · intro h
    unfold rarestSet at h
    split at h
    next fewest hmin =>
      obtain ⟨c, hc, hlen⟩ := List.mem_map.1 (List.min?_mem hmin)
      have hmem : c ∈ cs.filter fun c => c.2.length == fewest :=
        List.mem_filter.2 ⟨hc, by simp [hlen]⟩
      rw [h] at hmem
      cases hmem
    next => exact h
  · rintro rfl
    rfl

/-- Sparing the origin leaves something to fetch. -/
theorem preferOffloadable_eq_nil {cs : List (ℕ × List Provider)} {origin : Option Provider}
    {busy : Bool} : preferOffloadable cs origin busy = [] ↔ cs = [] := by
  constructor
  · intro h
    unfold preferOffloadable at h
    split_ifs at h
    · exact h
    · dsimp only at h
      split_ifs at h with hany
      · obtain ⟨c, hc, hoff⟩ := List.any_eq_true.1 hany
        have hmem : c ∈ cs.filter fun c => c.2.any fun id => some id != origin :=
          List.mem_filter.2 ⟨hc, hoff⟩
        rw [h] at hmem
        cases hmem
      · exact h
  · rintro rfl
    unfold preferOffloadable
    split_ifs <;> rfl

/-! ### One turn -/

/-- What one call of `providers_having` sees. -/
structure View where
  sources : Sources
  banned : List Provider

/-- The looks at the waiting pieces, and then at those in flight. -/
structure Look where
  waiting : ℕ → View
  tail : ℕ → View

namespace Loop

variable (c : Config) (s : Loop)

def having (now : ℕ) (view : View) (i : ℕ) : List Provider :=
  providersForPiece i view.sources (isEligible view.banned s.cooldown now)

/-- The piece's backoff is over. -/
def Due (now i : ℕ) : Bool := ((s.pieceBackoff i).map fun t => decide (t ≤ now)).getD true

def cands (now : ℕ) (look : Look) : List (ℕ × List Provider) :=
  ((s.remaining.filter (s.Due now)).map fun i => (i, s.having now (look.waiting i) i)).filter
    fun e => !e.2.isEmpty

/-- Phase 1: the rarest of the pieces that somebody can serve. -/
def rare (now : ℕ) (look : Look) : List (ℕ × List Provider) :=
  let originBusy := (c.origin.map fun id => decide (s.inFlight id > 0)).getD false
  rarestSet (preferOffloadable (s.cands now look) c.origin originBusy)

/-- Phase 2: the last pieces in flight, with the sources they do not use yet. -/
def endgame (now : ℕ) (look : Look) : List (ℕ × List Provider) :=
  if (s.live c).isEmpty || endgamePieces < (s.live c).length then []
  else
    (((s.live c).filter fun i => (s.pieceSrcs i).length < endgameParallel).map fun i =>
      (i, (s.having now (look.tail i) i).filter fun id => !(s.pieceSrcs i).contains id)).filter
        fun e => !e.2.isEmpty

/-- What a turn chooses from. -/
def options (now : ℕ) (look : Look) : List (ℕ × List Provider) :=
  if (s.rare c now look).isEmpty then s.endgame c now look else s.rare c now look

/-- The piece goes to the provider; a fresh one is not waiting any more. -/
def give (now : ℕ) (look : Look) (i : ℕ) (prov : Provider) : Loop :=
  if (s.rare c now look).isEmpty then s.spawn i prov
  else { s with remaining := s.remaining.filter (· ≠ i) }.spawn i prov

/-- What happens beside the loop while it assigns: the tasks run, the download is cancelled. -/
def Event.Beside : Event → Prop
  | .openStage _ | .receive _ _ | .writeStage _ _ | .fail _ _ | .notice _ | .trip => True
  | .assign _ _ _ _ | .report _ _ _ _ | .stop | .leave _ | .die => False

end Loop

/-- Why the phase stops; what it saw, where it found nothing to start. -/
inductive Stop
  | full
  | cancelled
  | idle (look : Look)

/-- A fetch that the phase starts. -/
structure Fetch where
  before : Loop
  look : Look
  piece : ℕ
  prov : Provider

namespace Loop

/-- The assignment phase that begins at `now`, with the fetches it starts. -/
inductive Phase (c : Config) (now : ℕ) : Loop → List Fetch → Loop → Stop → Prop
  | full {s : Loop} (h : c.concurrency ≤ s.tasks.length) : Phase c now s [] s .full
  | cancelled {s : Loop} (h : s.cancel = true) : Phase c now s [] s .cancelled
  | idle {s : Loop} (look : Look) (h : s.options c now look = []) :
      Phase c now s [] s (.idle look)
  | turn {s s' : Loop} {fetches : List Fetch} {stop : Stop} (look : Look)
      (e : ℕ × List Provider) (prov : Provider) (hroom : s.tasks.length < c.concurrency)
      (hcancel : s.cancel = false) (he : e ∈ s.options c now look) (hprov : prov ∈ e.2)
      (rest : Phase c now (s.give c now look e.1 prov) fetches s' stop) :
      Phase c now s (⟨s, look, e.1, prov⟩ :: fetches) s' stop
  | beside {s s' : Loop} {fetches : List Fetch} {stop : Stop} (e : Event) (he : e.Beside)
      (rest : Phase c now (s.step c e) fetches s' stop) : Phase c now s fetches s' stop

/-! ### What a turn chooses from -/

section

variable {c : Config} {s : Loop} {now : ℕ} {look : Look} {e : ℕ × List Provider}

theorem mem_cands : e ∈ s.cands now look ↔
    (e.1 ∈ s.remaining ∧ s.Due now e.1 = true) ∧ s.having now (look.waiting e.1) e.1 = e.2 ∧
      e.2 ≠ [] := by
  simp only [cands, List.mem_filter, List.mem_map, Bool.not_eq_true', List.isEmpty_eq_false_iff]
  constructor
  · rintro ⟨⟨i, hi, rfl⟩, hne⟩
    exact ⟨hi, rfl, hne⟩
  · rintro ⟨hi, hhaving, hne⟩
    exact ⟨⟨e.1, hi, Prod.ext rfl hhaving⟩, hne⟩

theorem mem_endgame (h : e ∈ s.endgame c now look) {p : Provider} (hp : p ∈ e.2) :
    e.1 ∈ s.live c ∧ p ∈ s.having now (look.tail e.1) e.1 ∧ p ∉ s.pieceSrcs e.1 := by
  rw [endgame] at h
  split_ifs at h
  · cases h
  · obtain ⟨i, hi, rfl⟩ := List.mem_map.1 (List.mem_filter.1 h).1
    obtain ⟨hhaving, hunused⟩ := List.mem_filter.1 hp
    exact ⟨(List.mem_filter.1 hi).1, hhaving, by simpa using hunused⟩

/-- The choice goes empty only with the waiting pieces. -/
theorem rare_eq_nil : s.rare c now look = [] ↔ s.cands now look = [] := by
  rw [rare, rarestSet_eq_nil, preferOffloadable_eq_nil]

theorem cands_eq_nil_of_options (h : s.options c now look = []) : s.cands now look = [] := by
  rw [options] at h
  split_ifs at h with hrare
  · exact rare_eq_nil.1 (List.isEmpty_iff.1 hrare)
  · exact absurd (List.isEmpty_iff.2 h) hrare

/-- A choice of phase 1, or one of phase 2 when there is none. -/
theorem mem_options (h : e ∈ s.options c now look) :
    ((s.rare c now look).isEmpty = false ∧ e ∈ s.cands now look) ∨
      ((s.rare c now look).isEmpty = true ∧ e ∈ s.endgame c now look) := by
  rw [options] at h
  split_ifs at h with hrare
  · exact .inr ⟨hrare, h⟩
  · exact .inl ⟨by simpa using hrare, mem_of_mem_preferOffloadable (mem_of_mem_rarestSet h)⟩

/-- There is a provider to choose. -/
theorem ne_nil_of_options (h : e ∈ s.options c now look) : e.2 ≠ [] := by
  rcases mem_options h with ⟨-, hmem⟩ | ⟨-, hmem⟩
  · exact (mem_cands.1 hmem).2.2
  · rw [endgame] at hmem
    split_ifs at hmem
    · cases hmem
    · simpa using (List.mem_filter.1 hmem).2

end

/-! ### The books over a phase -/

section

variable {c : Config} {s s' : Loop} {bits₀ : Bytes} {now : ℕ} {look : Look}
  {e : ℕ × List Provider} {prov : Provider}

theorem Counted.give (h : s.Counted c bits₀) (he : e ∈ s.options c now look) (hprov : prov ∈ e.2) :
    (s.give c now look e.1 prov).Counted c bits₀ := by
  rw [Loop.give]
  rcases mem_options he with ⟨hrare, hmem⟩ | ⟨hrare, hmem⟩
  · obtain ⟨hi, hsat, hsrc⟩ := h.waiting e.1 (mem_cands.1 hmem).1.1
    rw [if_neg (by simp [hrare])]
    exact h.spawn hi hsat (by simp [hsrc]) (by simp)
  · obtain ⟨hlive, -, hunused⟩ := mem_endgame hmem hprov
    simp only [live, List.mem_filter, List.mem_range, Bool.not_eq_true',
      List.isEmpty_eq_false_iff] at hlive
    have hsat : e.1 ∉ s.satisfied := fun hs => hlive.2 (h.done e.1 hs)
    rw [if_pos hrare]
    refine h.spawn hlive.1 hsat hunused fun k => ⟨fun hk => ⟨hk, ?_⟩, And.left⟩
    rintro rfl
    exact hlive.2 (h.waiting e.1 hk).2.2

theorem exit_give : (s.give c now look e.1 prov).exit = s.exit := by
  rw [give]
  split_ifs <;> rfl

theorem exit_step_beside {ev : Event} (h : ev.Beside) (hrun : s.exit = none) :
    (s.step c ev).exit = none := by
  unfold Loop.step
  rw [if_neg (by simp [hrun])]
  cases ev with
  | openStage j => exact (quiet_openStage j).exit.trans hrun
  | receive j body => exact (quiet_receive j body).exit.trans hrun
  | writeStage j n => exact (quiet_writeStage j n).exit.trans hrun
  | fail j storage => exact (quiet_fail j storage).exit.trans hrun
  | notice j => exact (quiet_notice j).exit.trans hrun
  | trip => exact hrun
  | assign | report | stop | leave | die => cases h

theorem Counted.beside (h : s.Counted c bits₀) (hrun : s.exit = none) {ev : Event}
    (hev : ev.Beside) : (s.step c ev).Counted c bits₀ :=
  ((h.books (by simp [hrun])).step ev).running (exit_step_beside hev hrun)

end

/-! ### What the phase starts, and where it stops -/

/-- The provider holds the piece, is neither banned nor cooling down, and is not fetching it yet. -/
def Able (now : ℕ) (f : Fetch) : Prop :=
  ∃ view : View, (view = f.look.waiting f.piece ∨ view = f.look.tail f.piece) ∧
    view.sources.Holds f.piece f.prov ∧ f.prov ∉ view.banned ∧
      (∀ t, f.before.cooldown f.prov = some t → t ≤ now) ∧ (f.piece, f.prov) ∉ f.before.keys

/-- A phase that stops early has reason to: nobody who could serve a waiting piece that is due was
seen. -/
def Justified (c : Config) (now : ℕ) (s : Loop) : Stop → Prop
  | .full => c.concurrency ≤ s.tasks.length
  | .cancelled => s.cancel = true
  | .idle look => ∀ i ∈ s.remaining, s.Due now i = true → ∀ p,
      (look.waiting i).sources.Holds i p →
        p ∈ (look.waiting i).banned ∨ ∃ t, s.cooldown p = some t ∧ now < t

section

variable {c : Config} {s s' : Loop} {bits₀ : Bytes} {now : ℕ} {look : Look} {stop : Stop}
  {fetches : List Fetch} {e : ℕ × List Provider} {prov : Provider}

theorem able_of_options (h : s.Counted c bits₀) (he : e ∈ s.options c now look)
    (hprov : prov ∈ e.2) : Able now ⟨s, look, e.1, prov⟩ := by
  rcases mem_options he with ⟨-, hmem⟩ | ⟨-, hmem⟩
  · obtain ⟨⟨hi, -⟩, hhaving, -⟩ := mem_cands.1 hmem
    obtain ⟨-, hsat, hsrc⟩ := h.waiting e.1 hi
    rw [← hhaving, having, mem_providersForPiece, isEligible_iff] at hprov
    obtain ⟨hholds, hbanned, hcool⟩ := hprov
    refine ⟨look.waiting e.1, .inl rfl, hholds, hbanned, hcool, fun hkey => ?_⟩
    have hsrcs := (h.fetching e.1 hsat prov).2 hkey
    rw [hsrc] at hsrcs
    cases hsrcs
  · obtain ⟨hlive, hhaving, hunused⟩ := mem_endgame hmem hprov
    rw [having, mem_providersForPiece, isEligible_iff] at hhaving
    obtain ⟨hholds, hbanned, hcool⟩ := hhaving
    refine ⟨look.tail e.1, .inr rfl, hholds, hbanned, hcool, fun hkey => hunused ?_⟩
    have hsat : e.1 ∉ s.satisfied := fun hs => by
      simp [live, h.done e.1 hs] at hlive
    exact (h.fetching e.1 hsat prov).2 hkey

theorem justified_idle (h : s.options c now look = []) : Justified c now s (.idle look) := by
  intro i hi hdue p hholds
  have hnone : s.having now (look.waiting i) i = [] := by
    by_contra hne
    have hmem : (i, s.having now (look.waiting i) i) ∈ s.cands now look :=
      mem_cands.2 ⟨⟨hi, hdue⟩, rfl, hne⟩
    rw [cands_eq_nil_of_options h] at hmem
    cases hmem
  by_contra hable
  rw [not_or, not_exists] at hable
  have hmem : p ∈ s.having now (look.waiting i) i := by
    rw [having, mem_providersForPiece, isEligible_iff]
    exact ⟨hholds, hable.1, fun t ht => not_lt.1 fun hlt => hable.2 t ⟨ht, hlt⟩⟩
  rw [hnone] at hmem
  cases hmem

theorem Phase.spec (hphase : Phase c now s fetches s' stop) (h : s.Counted c bits₀)
    (hrun : s.exit = none) :
    (∀ f ∈ fetches, Able now f) ∧ Justified c now s' stop ∧ s'.Counted c bits₀ ∧ s'.exit = none := by
  induction hphase with
  | full hfull => exact ⟨by simp, hfull, h, hrun⟩
  | cancelled hcancel => exact ⟨by simp, hcancel, h, hrun⟩
  | idle look hidle => exact ⟨by simp, justified_idle hidle, h, hrun⟩
  | turn look e prov hroom hcancel he hprov rest ih =>
      obtain ⟨hable, hrest⟩ := ih (h.give he hprov) (exit_give.trans hrun)
      exact ⟨List.forall_mem_cons.2 ⟨able_of_options h he hprov, hable⟩, hrest⟩
  | beside e he rest ih => exact ih (h.beside hrun he) (exit_step_beside he hrun)

end

/-! ### Every state the loop gets into -/

/-- The states of a run of `recv_chunked`, where the phases are as above. -/
inductive Scheduled (c : Config) (s₀ : Loop) : Loop → Prop
  | start : Scheduled c s₀ s₀
  | step {s : Loop} (h : Scheduled c s₀ s) (e : Event) : Scheduled c s₀ (s.step c e)
  | phase {s s' : Loop} {now : ℕ} {fetches : List Fetch} {stop : Stop} (h : Scheduled c s₀ s)
      (hrun : s.exit = none) (hphase : Phase c now s fetches s' stop) : Scheduled c s₀ s'

theorem Scheduled.books {c : Config} {s₀ s : Loop} {bits₀ : Bytes} (h : Scheduled c s₀ s)
    (h₀ : s₀.Books c bits₀) : s.Books c bits₀ := by
  induction h with
  | start => exact h₀
  | step h e ih => exact ih.step e
  | phase h hrun hphase ih =>
      obtain ⟨-, -, hcounted, hexit⟩ := hphase.spec (ih.running hrun) hrun
      exact hcounted.books (by simp [hexit])

/-- The origin and the relay are seen, and nobody is banned. -/
def racedLook : Look := ⟨fun _ => ⟨racedSources, []⟩, fun _ => ⟨racedSources, []⟩⟩

/-- Whatever is seen, the phase comes to an end. -/
theorem exists_phase (c : Config) (now : ℕ) (look : Look) (s : Loop) :
    ∃ fetches s' stop, Phase c now s fetches s' stop := by
  induction hroom : c.concurrency - s.tasks.length generalizing s with
  | zero => exact ⟨[], s, .full, .full (by omega)⟩
  | succ n ih =>
      by_cases hcancel : s.cancel = true
      · exact ⟨[], s, .cancelled, .cancelled hcancel⟩
      · rcases hoptions : s.options c now look with _ | ⟨e, rest⟩
        · exact ⟨[], s, .idle look, .idle look hoptions⟩
        · have he : e ∈ s.options c now look := hoptions ▸ List.mem_cons_self
          obtain ⟨prov, hprov⟩ := List.exists_mem_of_ne_nil e.2 (ne_nil_of_options he)
          have hlen : (s.give c now look e.1 prov).tasks.length = s.tasks.length + 1 := by
            rw [give]
            split_ifs <;> simp [spawn]
          obtain ⟨fetches, s', stop, hphase⟩ := ih (s.give c now look e.1 prov) (by omega)
          exact ⟨_, s', stop, .turn look e prov (by omega) (by simpa using hcancel) he hprov hphase⟩

end Loop

end Arvolo.Recv
