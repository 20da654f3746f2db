import Arvolo.Lib.Table

/-!
Counting in fixed windows of time, for many keys at once.

A window of a key opens with the first event that finds the one before it over, so a span
as long as a window meets two of them at most. What is counted of a key is a record, and a
table of records may drop those that are idle: a `Keeper` says which records cannot be told
apart from then on.
-/

namespace Lib

/-! ### Windows that follow each other -/

section

variable {ε : Type} {W : ℕ} {start time : ε → ℕ} {log : List ε} {current : ℕ}

/-- Every event is inside its window, windows do not overlap, and none opened after
`current`. -/
structure Windowed (W : ℕ) (start time : ε → ℕ) (log : List ε) (current : ℕ) : Prop where
  within : ∀ e ∈ log, start e ≤ time e ∧ time e < start e + W
  past : ∀ e ∈ log, start e = current ∨ start e + W ≤ current
  spaced : ∀ e ∈ log, ∀ e' ∈ log, start e < start e' → start e + W ≤ start e'

theorem windowed_nil : Windowed W start time [] current where
  within _ h := absurd h List.not_mem_nil
  past _ h := absurd h List.not_mem_nil
  spaced _ h := absurd h List.not_mem_nil

/-- A window opens when the last one is over. -/
theorem Windowed.roll (h : Windowed W start time log current) {now : ℕ}
    (hover : current + W ≤ now) : Windowed W start time log now where
  within := h.within
  past e he := by
    rcases h.past e he with heq | hle
    · exact .inr (by omega)
    · exact .inr (by omega)
  spaced := h.spaced

/-- An event happens in the window that is open. -/
theorem Windowed.concat (h : Windowed W start time log current) {e : ε} (hstart : start e = current)
    (htime : start e ≤ time e ∧ time e < start e + W) :
    Windowed W start time (log ++ [e]) current where
  within e' he' := by
    rcases List.mem_append.1 he' with hold | hnew
    · exact h.within e' hold
    · rw [List.mem_singleton.1 hnew]
      exact htime
  past e' he' := by
    rcases List.mem_append.1 he' with hold | hnew
    · exact h.past e' hold
    · exact .inl (by rw [List.mem_singleton.1 hnew, hstart])
  spaced e₁ h₁ e₂ h₂ hlt := by
    rcases List.mem_append.1 h₁ with hold₁ | hnew₁
    · rcases List.mem_append.1 h₂ with hold₂ | hnew₂
      · exact h.spaced e₁ hold₁ e₂ hold₂ hlt
      · rw [List.mem_singleton.1 hnew₂, hstart] at hlt ⊢
        exact (h.past e₁ hold₁).resolve_left hlt.ne
    · rw [List.mem_singleton.1 hnew₁, hstart] at hlt ⊢
      rcases List.mem_append.1 h₂ with hold₂ | hnew₂
      · rcases h.past e₂ hold₂ with heq | hle <;> omega
      · rw [List.mem_singleton.1 hnew₂, hstart] at hlt
        exact absurd hlt (lt_irrefl _)

/-- A span as long as a window meets two of them: one that was open when it began, and one
that opened in it. -/
theorem Windowed.two_windows (h : Windowed W start time log current) (a : ℕ) :
    ∃ s₁ s₂, ∀ e ∈ log, a ≤ time e → time e < a + W → start e = s₁ ∨ start e = s₂ := by
  have hsame : ∀ e ∈ log, ∀ e' ∈ log, start e < start e' + W → start e' < start e + W →
      start e = start e' := by
    intro e he e' he' hlt hlt'
    rcases lt_trichotomy (start e) (start e') with hbefore | heq | hafter
    · exact absurd (h.spaced e he e' he' hbefore) (not_le.2 hlt')
    · exact heq
    · exact absurd (h.spaced e' he' e he hafter) (not_le.2 hlt)
  have hone (P : ε → Prop) (hP : ∀ e ∈ log, ∀ e' ∈ log, P e → P e' → start e < start e' + W) :
      ∃ s, ∀ e ∈ log, P e → start e = s := by
    by_cases hex : ∃ e ∈ log, P e
    · obtain ⟨e, he, hPe⟩ := hex
      exact ⟨start e, fun e' he' hPe' =>
        hsame e' he' e he (hP e' he' e he hPe' hPe) (hP e he e' he' hPe hPe')⟩
    · exact ⟨0, fun e he hPe => absurd ⟨e, he, hPe⟩ hex⟩
  obtain ⟨s₁, hs₁⟩ := hone (fun e => a ≤ time e ∧ start e ≤ a) fun e he e' he' hPe hPe' => by
    have hopen := (h.within e' he').2
    omega
  obtain ⟨s₂, hs₂⟩ := hone (fun e => time e < a + W ∧ a < start e) fun e he e' he' hPe hPe' => by
    have hopened := (h.within e he).1
    omega
  refine ⟨s₁, s₂, fun e he hlow hhigh => ?_⟩
  rcases le_or_gt (start e) a with hle | hgt
  · exact .inl (hs₁ e he ⟨hlow, hle⟩)
  · exact .inr (hs₂ e he ⟨hhigh, hgt⟩)

theorem countP_le_add {p q₁ q₂ : ε → Bool} (h : ∀ e ∈ log, p e = true → q₁ e = true ∨ q₂ e = true) :
    log.countP p ≤ log.countP q₁ + log.countP q₂ := by
  induction log with
  | nil => exact Nat.zero_le _
  | cons e log ih =>
      have hrest := ih fun e' he' => h e' (List.mem_cons_of_mem e he')
      rw [List.countP_cons, List.countP_cons, List.countP_cons]
      by_cases hp : p e = true
      · rcases h e List.mem_cons_self hp with hq | hq
        · rw [if_pos hp, if_pos hq]
          omega
        · rw [if_pos hp, if_pos hq]
          omega
      · rw [if_neg hp]
        omega

/-- What is counted: up to `cap` in each of the windows, and up to twice that in any span
as long as one. -/
structure Capped (W : ℕ) (start time : ε → ℕ) (log : List ε) (counted : ε → Bool) (cap : ℕ) :
    Prop where
  windowed : ∃ current, Windowed W start time log current
  each : ∀ s, log.countP (fun e => counted e && decide (start e = s)) ≤ cap
  span : ∀ a, log.countP (fun e => counted e && decide (a ≤ time e ∧ time e < a + W)) ≤ 2 * cap

/-- The different values of what is counted, likewise. -/
structure CappedValues {α : Type} (W : ℕ) (start time : ε → ℕ) (log : List ε)
    (values : ε → Finset α) (cap : ℕ) : Prop where
  windowed : ∃ current, Windowed W start time log current
  each : ∀ s, ∃ set : Finset α, set.card ≤ cap ∧ ∀ e ∈ log, start e = s → values e ⊆ set
  span : ∀ a, ∃ set : Finset α, set.card ≤ 2 * cap ∧
    ∀ e ∈ log, a ≤ time e → time e < a + W → values e ⊆ set

theorem Windowed.capped (h : Windowed W start time log current) {counted : ε → Bool} {cap : ℕ}
    (hcap : ∀ s, log.countP (fun e => counted e && decide (start e = s)) ≤ cap) :
    Capped W start time log counted cap where
  windowed := ⟨current, h⟩
  each := hcap
  span a := by
    obtain ⟨s₁, s₂, hs⟩ := h.two_windows a
    calc log.countP (fun e => counted e && decide (a ≤ time e ∧ time e < a + W))
        ≤ log.countP (fun e => counted e && decide (start e = s₁)) +
            log.countP (fun e => counted e && decide (start e = s₂)) := by
          refine countP_le_add fun e he hp => ?_
          simp only [Bool.and_eq_true, decide_eq_true_eq] at hp ⊢
          exact (hs e he hp.2.1 hp.2.2).imp (fun hs₁ => ⟨hp.1, hs₁⟩) fun hs₂ => ⟨hp.1, hs₂⟩
      _ ≤ 2 * cap := by
          have h₁ := hcap s₁
          have h₂ := hcap s₂
          omega

theorem Windowed.cappedValues {α : Type} [DecidableEq α]
    (h : Windowed W start time log current) {values : ε → Finset α} {cap : ℕ}
    (hcap : ∀ s, ∃ set : Finset α, set.card ≤ cap ∧ ∀ e ∈ log, start e = s → values e ⊆ set) :
    CappedValues W start time log values cap where
  windowed := ⟨current, h⟩
  each := hcap
  span a := by
    obtain ⟨s₁, s₂, hs⟩ := h.two_windows a
    obtain ⟨set₁, hcard₁, hset₁⟩ := hcap s₁
    obtain ⟨set₂, hcard₂, hset₂⟩ := hcap s₂
    refine ⟨set₁ ∪ set₂, ?_, fun e he hlow hhigh => ?_⟩
    · have hunion := Finset.card_union_le set₁ set₂
      omega
    · rcases hs e he hlow hhigh with heq | heq
      · exact (hset₁ e he heq).trans Finset.subset_union_left
      · exact (hset₂ e he heq).trans Finset.subset_union_right

end

/-! ### Records of keys -/

/-- One key's event, at a time. -/
structure Timed (κ Q : Type) where
  key : κ
  query : Q
  now : ℕ

/-- What is kept of a key, and which two records are not told apart from a time on. -/
structure Keeper (ρ Q A : Type) where
  fresh : ρ
  serve : Q → ℕ → ρ → ρ × A
  idle : ℕ → ρ → Bool
  Alike : ℕ → ρ → ρ → Prop
  alike_refl : ∀ now r, Alike now r r
  later : ∀ {now now' r r'}, Alike now r r' → now ≤ now' → Alike now' r r'
  /-- An idle record is as good as none. -/
  forget : ∀ {now r r'}, idle now r = true → Alike now r r' → Alike now fresh r'
  serve_alike : ∀ {now r r'} q, Alike now r r' →
    (serve q now r).2 = (serve q now r').2 ∧ Alike now (serve q now r).1 (serve q now r').1

namespace Keeper

variable {κ ρ Q A : Type} [DecidableEq κ] (K : Keeper ρ Q A)

/-- The table without its idle records. -/
def dropIdle (now : ℕ) (t : Table κ ρ) : Table κ ρ :=
  (t.keysWhere (K.idle now)).foldl (fun t k => t.erase k) t

/-- The record of the key, if there is one. -/
def record (t : Table κ ρ) (k : κ) : ρ := (t.lookup k).getD K.fresh

/-- The guard of a table that is to have `cap` records at most: with a new key it drops the
idle ones, and says whether that has made room. -/
def makeRoom (cap : ℕ) (t : Table κ ρ) (a : Timed κ Q) : Table κ ρ × Bool :=
  if cap ≤ t.entries.length ∧ t.lookup a.key = none then
    (K.dropIdle a.now t, decide ((K.dropIdle a.now t).entries.length < cap))
  else (t, true)

/-- The events that are answered, and what they are answered. -/
abbrev Answers (κ Q A : Type) := List (Timed κ Q × A)

/-- One event at the table. Where there is no room it is let pass, and nothing is kept. -/
def serveTable (cap : ℕ) (s : Table κ ρ × Answers κ Q A) (a : Timed κ Q) :
    Table κ ρ × Answers κ Q A :=
  let (t, room) := K.makeRoom cap s.1 a
  if room then
    let r := K.serve a.query a.now (K.record t a.key)
    (t.insert a.key r.1, s.2 ++ [(a, r.2)])
  else (t, s.2)

/-- One event where every key has its record for good. -/
def serveAll (s : (κ → ρ) × Answers κ Q A) (a : Timed κ Q) : (κ → ρ) × Answers κ Q A :=
  let r := K.serve a.query a.now (s.1 a.key)
  (Function.update s.1 a.key r.1, s.2 ++ [(a, r.2)])

def runTable (cap : ℕ) (asks : List (Timed κ Q)) : Table κ ρ × Answers κ Q A :=
  asks.foldl (K.serveTable cap) (∅, [])

def runAll (asks : List (Timed κ Q)) : (κ → ρ) × Answers κ Q A :=
  asks.foldl K.serveAll (fun _ => K.fresh, [])

variable {K}

theorem lookup_dropIdle (now : ℕ) (t : Table κ ρ) (k : κ) :
    (K.dropIdle now t).lookup k = (t.lookup k).filter fun r => !K.idle now r := by
  rw [dropIdle, Table.lookup_foldl_erase]
  cases hrow : t.lookup k with
  | none => simp
  | some r =>
      by_cases hidle : K.idle now r = true
      · rw [if_pos (Table.mem_keysWhere.2 ⟨r, hrow, hidle⟩)]
        simp [Option.filter, hidle]
      · rw [if_neg]
        · simp [Option.filter, hidle]
        · intro hmem
          obtain ⟨r', hr', hidle'⟩ := Table.mem_keysWhere.1 hmem
          obtain rfl := Option.some.inj (hrow.symm.trans hr')
          exact hidle hidle'

/-- The records of the table and those that are kept for good are not told apart. -/
def Mirrors (K : Keeper ρ Q A) (now : ℕ) (t : Table κ ρ) (u : κ → ρ) : Prop :=
  ∀ k, K.Alike now (K.record t k) (u k)

section

variable {now : ℕ} {t : Table κ ρ} {u : κ → ρ}

theorem Mirrors.later (h : K.Mirrors now t u) {now' : ℕ} (hle : now ≤ now') :
    K.Mirrors now' t u := fun k => K.later (h k) hle

theorem Mirrors.dropIdle (h : K.Mirrors now t u) : K.Mirrors now (K.dropIdle now t) u := by
  intro k
  have hk := h k
  rw [record, lookup_dropIdle]
  rw [record] at hk
  cases hrow : t.lookup k with
  | none => rwa [hrow] at hk
  | some r =>
      rw [hrow, Option.getD_some] at hk
      by_cases hidle : K.idle now r = true
      · simpa [Option.filter, hidle] using K.forget hidle hk
      · simpa [Option.filter, hidle] using hk

theorem Mirrors.makeRoom {a : Timed κ Q} (h : K.Mirrors a.now t u) (cap : ℕ) :
    K.Mirrors a.now (K.makeRoom cap t a).1 u := by
  unfold Keeper.makeRoom
  split_ifs
  · exact h.dropIdle
  · exact h

theorem Mirrors.insert {a : Timed κ Q} (h : K.Mirrors a.now t u) :
    (K.serve a.query a.now (K.record t a.key)).2 = (K.serve a.query a.now (u a.key)).2 ∧
      K.Mirrors a.now (t.insert a.key (K.serve a.query a.now (K.record t a.key)).1)
        (Function.update u a.key (K.serve a.query a.now (u a.key)).1) := by
  obtain ⟨hanswer, halike⟩ := K.serve_alike a.query (h a.key)
  refine ⟨hanswer, fun k => ?_⟩
  rw [record, Table.lookup_insert_eq]
  by_cases hk : k = a.key
  · subst hk
    rw [if_pos rfl, Function.update_self]
    exact halike
  · rw [if_neg hk, Function.update_of_ne hk]
    exact h k

end

/-- A table that drops idle records answers as one that keeps every record, what it lets
pass for want of room apart. -/
theorem runTable_eq (cap : ℕ) {asks : List (Timed κ Q)}
    (hsorted : (asks.map Timed.now).Pairwise (· ≤ ·)) :
    (K.runAll ((K.runTable cap asks).2.map Prod.fst)).2 = (K.runTable cap asks).2 := by
  suffices h : (K.runAll ((K.runTable cap asks).2.map Prod.fst)).2 = (K.runTable cap asks).2 ∧
      ∀ now, (∀ a ∈ asks, a.now ≤ now) → K.Mirrors now (K.runTable cap asks).1
        (K.runAll ((K.runTable cap asks).2.map Prod.fst)).1 from h.1
  induction asks using List.reverseRecOn with
  | nil => exact ⟨rfl, fun now _ k => K.alike_refl now _⟩
  | append_singleton asks a ih =>
      rw [List.map_append, List.pairwise_append] at hsorted
      obtain ⟨hbefore, -, hle⟩ := hsorted
      obtain ⟨hlog, hmirrors⟩ := ih hbefore
      have hmirror := hmirrors a.now fun b hb =>
        hle b.now (List.mem_map_of_mem hb) a.now List.mem_cons_self
      have hnext : K.runTable cap (asks ++ [a]) = K.serveTable cap (K.runTable cap asks) a :=
        List.foldl_concat ..
      rw [hnext]
      generalize K.runTable cap asks = s at hlog hmirror ⊢
      have hroom := hmirror.makeRoom cap
      have hlater : ∀ {t : Table κ ρ} {u : κ → ρ} {now : ℕ}, K.Mirrors a.now t u →
          (∀ b ∈ asks ++ [a], b.now ≤ now) → K.Mirrors now t u := fun h hnow =>
        h.later (hnow a (List.mem_append_right _ List.mem_cons_self))
      unfold serveTable
      generalize K.makeRoom cap s.1 a = m at hroom ⊢
      obtain ⟨t, room⟩ := m
      cases room with
      | false => exact ⟨hlog, fun now hnow => hlater hroom hnow⟩
      | true =>
          obtain ⟨hanswer, hmirror'⟩ := hroom.insert
          have hall : K.runAll ((s.2 ++ [(a, (K.serve a.query a.now (K.record t a.key)).2)]).map
              Prod.fst) = K.serveAll (K.runAll (s.2.map Prod.fst)) a := by
            rw [List.map_append]
            exact List.foldl_concat ..
          simp only [if_true, hall]
          refine ⟨?_, fun now hnow => hlater hmirror' hnow⟩
          rw [hanswer]
          exact congrArg (· ++ _) hlog

/-! ### The windows of a key -/

/-- A window in the record, which some of the queries look at. -/
structure Meter (K : Keeper ρ Q A) (W : ℕ) where
  start : ρ → ℕ
  opens : Q → Bool
  /-- When the window opened in which the answer was given. -/
  opened : A → ℕ
  start_fresh : start K.fresh = 0
  start_serve : ∀ q now r, start (K.serve q now r).1 =
    if opens q = true ∧ start r + W ≤ now then now else start r
  opened_serve : ∀ q now r, opens q = true →
    opened (K.serve q now r).2 = start (K.serve q now r).1

namespace Meter

variable {W : ℕ} (m : Meter K W)

/-- The events of one key that look at the window. -/
def events (k : κ) (log : Answers κ Q A) : Answers κ Q A :=
  log.filter fun e => decide (e.1.key = k) && m.opens e.1.query

/-- Those of one window. -/
def segment (k : κ) (s : ℕ) (log : Answers κ Q A) : Answers κ Q A :=
  (m.events k log).filter fun e => decide (m.opened e.2 = s)

theorem events_concat (k : κ) (log : Answers κ Q A) (e : Timed κ Q × A) :
    m.events k (log ++ [e]) =
      m.events k log ++ if e.1.key = k ∧ m.opens e.1.query = true then [e] else [] := by
  rw [events, List.filter_append]
  by_cases h : e.1.key = k ∧ m.opens e.1.query = true
  · rw [if_pos h, List.filter_cons_of_pos (by simp [h.1, h.2])]
    rfl
  · rw [if_neg h, List.filter_cons_of_neg (by simpa using h)]
    rfl

theorem runAll_concat (asks : List (Timed κ Q)) (a : Timed κ Q) :
    K.runAll (asks ++ [a]) = K.serveAll (K.runAll asks) a := List.foldl_concat ..

omit m in
theorem serveAll_self (s : (κ → ρ) × Answers κ Q A) (a : Timed κ Q) :
    (K.serveAll s a).1 a.key = (K.serve a.query a.now (s.1 a.key)).1 := Function.update_self ..

omit m in
theorem serveAll_of_ne (s : (κ → ρ) × Answers κ Q A) {a : Timed κ Q} {k : κ} (h : k ≠ a.key) :
    (K.serveAll s a).1 k = s.1 k := Function.update_of_ne h ..

/-- What an event does to one key: nothing, or its record is served in a window. -/
theorem serveAll_cases (s : (κ → ρ) × Answers κ Q A) (a : Timed κ Q) (k : κ) :
    (m.events k (K.serveAll s a).2 = m.events k s.2 ∧
      ((K.serveAll s a).1 k = s.1 k ∨ m.opens a.query = false ∧
        (K.serveAll s a).1 k = (K.serve a.query a.now (s.1 k)).1)) ∨
    m.opens a.query = true ∧
      m.events k (K.serveAll s a).2 = m.events k s.2 ++ [(a, (K.serve a.query a.now (s.1 k)).2)] ∧
      (K.serveAll s a).1 k = (K.serve a.query a.now (s.1 k)).1 := by
  by_cases hk : a.key = k
  · subst hk
    cases hopens : m.opens a.query with
    | false =>
        refine .inl ⟨?_, .inr ⟨rfl, serveAll_self s a⟩⟩
        rw [serveAll, events_concat, if_neg (by simp [hopens]), List.append_nil]
    | true =>
        refine .inr ⟨rfl, ?_, serveAll_self s a⟩
        rw [serveAll, events_concat, if_pos ⟨rfl, hopens⟩]
  · refine .inl ⟨?_, .inl (serveAll_of_ne s (Ne.symm hk))⟩
    rw [serveAll, events_concat, if_neg fun h => hk h.1, List.append_nil]

theorem windowed_runAll (hW : 0 < W) {asks : List (Timed κ Q)}
    (hsorted : (asks.map Timed.now).Pairwise (· ≤ ·)) (k : κ) :
    Windowed W (fun e => m.opened e.2) (fun e => e.1.now)
        (m.events k (K.runAll asks).2) (m.start ((K.runAll asks).1 k)) ∧
      ∀ now, (∀ a ∈ asks, a.now ≤ now) → m.start ((K.runAll asks).1 k) ≤ now := by
  induction asks using List.reverseRecOn with
  | nil => exact ⟨windowed_nil, fun now _ => by rw [runAll, List.foldl_nil, m.start_fresh]; omega⟩
  | append_singleton asks a ih =>
      rw [List.map_append, List.pairwise_append] at hsorted
      obtain ⟨hbefore, -, hle⟩ := hsorted
      obtain ⟨hwindowed, hpast⟩ := ih hbefore
      have hnow := hpast a.now fun b hb =>
        hle b.now (List.mem_map_of_mem hb) a.now List.mem_cons_self
      have hrest : ∀ now, (∀ b ∈ asks ++ [a], b.now ≤ now) → (∀ b ∈ asks, b.now ≤ now) ∧
          a.now ≤ now := fun now h =>
        ⟨fun b hb => h b (List.mem_append_left _ hb), h a (List.mem_append_right _ (by simp))⟩
      rw [runAll_concat]
      rcases m.serveAll_cases (K.runAll asks) a k with
        ⟨hevents, hsame⟩ | ⟨hopens, hevents, hrecord⟩
      · have hstart : m.start ((K.serveAll (K.runAll asks) a).1 k) =
            m.start ((K.runAll asks).1 k) := by
          rcases hsame with hsame | ⟨hopens, hrecord⟩
          · rw [hsame]
          · rw [hrecord, m.start_serve, if_neg (by simp [hopens])]
        rw [hevents, hstart]
        exact ⟨hwindowed, fun now h => hpast now (hrest now h).1⟩
      · have hopened := m.opened_serve a.query a.now ((K.runAll asks).1 k) hopens
        rw [hevents, hrecord, m.start_serve]
        rw [m.start_serve] at hopened
        simp only [hopens, true_and] at hopened ⊢
        split_ifs at hopened ⊢ with hover
        · exact ⟨(hwindowed.roll hover).concat hopened (by simp only [hopened]; omega),
            fun now h => (hrest now h).2⟩
        · exact ⟨hwindowed.concat hopened (by simp only [hopened]; omega),
            fun now h => hpast now (hrest now h).1⟩

/-- What a record keeps of the events of its window: `Holds` says that they come to that
much, and `Ok` that it is no more than it may be. -/
structure Account (γ : Type) where
  of : ρ → γ
  Ok : γ → Prop
  Holds : List (Q × A) → γ → Prop
  ok_fresh : Ok (of K.fresh)
  holds_fresh : Holds [] (of K.fresh)
  ok_serve : ∀ q now r, Ok (of r) → Ok (of (K.serve q now r).1)
  holds_same : ∀ q now r, m.opens q = false → of (K.serve q now r).1 = of r
  holds_opened : ∀ q now r, m.opens q = true → m.start r + W ≤ now →
    Holds [(q, (K.serve q now r).2)] (of (K.serve q now r).1)
  holds_open : ∀ q now r l, m.opens q = true → now < m.start r + W → Holds l (of r) →
    Holds (l ++ [(q, (K.serve q now r).2)]) (of (K.serve q now r).1)

variable {m} {γ : Type}

/-- In every window of a key the account holds. -/
theorem Account.runAll (c : m.Account γ) (hW : 0 < W) {asks : List (Timed κ Q)}
    (hsorted : (asks.map Timed.now).Pairwise (· ≤ ·)) (k : κ) (s : ℕ) :
    ∃ sum, c.Ok sum ∧
      c.Holds ((m.segment k s (K.runAll asks).2).map fun e => (e.1.query, e.2)) sum := by
  suffices h : c.Ok (c.of ((K.runAll asks).1 k)) ∧
      c.Holds ((m.segment k (m.start ((K.runAll asks).1 k)) (K.runAll asks).2).map
        fun e => (e.1.query, e.2)) (c.of ((K.runAll asks).1 k)) ∧
      ∀ s, ∃ sum, c.Ok sum ∧
        c.Holds ((m.segment k s (K.runAll asks).2).map fun e => (e.1.query, e.2)) sum from h.2.2 s
  induction asks using List.reverseRecOn with
  | nil => exact ⟨c.ok_fresh, c.holds_fresh, fun _ => ⟨_, c.ok_fresh, c.holds_fresh⟩⟩
  | append_singleton asks a ih =>
      rw [List.map_append, List.pairwise_append] at hsorted
      obtain ⟨hok, hcurrent, hall⟩ := ih hsorted.1
      have hwindowed := (m.windowed_runAll hW hsorted.1 k).1
      rw [runAll_concat]
      generalize K.runAll asks = t at hok hcurrent hall hwindowed ⊢
      rcases m.serveAll_cases t a k with ⟨hevents, hsame⟩ | ⟨hopens, hevents, hrecord⟩
      · have hkept : c.of ((K.serveAll t a).1 k) = c.of (t.1 k) ∧
            m.start ((K.serveAll t a).1 k) = m.start (t.1 k) := by
          rcases hsame with hsame | ⟨hopens, hrecord⟩
          · rw [hsame]
            exact ⟨rfl, rfl⟩
          · rw [hrecord, m.start_serve, if_neg (by simp [hopens])]
            exact ⟨c.holds_same _ _ _ hopens, rfl⟩
        simp only [segment, hevents, hkept.1, hkept.2]
        exact ⟨hok, hcurrent, hall⟩
      · have hsegment (s : ℕ) : m.segment k s (K.serveAll t a).2 = m.segment k s t.2 ++
            if m.opened (K.serve a.query a.now (t.1 k)).2 = s then
              [(a, (K.serve a.query a.now (t.1 k)).2)] else [] := by
          rw [segment, hevents, List.filter_append]
          by_cases hs : m.opened (K.serve a.query a.now (t.1 k)).2 = s
          · rw [if_pos hs, List.filter_cons_of_pos (by simpa using hs)]
            rfl
          · rw [if_neg hs, List.filter_cons_of_neg (by simpa using hs)]
            rfl
        have hopened := m.opened_serve a.query a.now (t.1 k) hopens
        have hok' := c.ok_serve a.query a.now _ hok
        have hnow : c.Holds ((m.segment k (m.start (K.serve a.query a.now (t.1 k)).1)
            (K.serveAll t a).2).map fun e => (e.1.query, e.2))
            (c.of (K.serve a.query a.now (t.1 k)).1) := by
          rw [hsegment, if_pos hopened, List.map_append, m.start_serve]
          by_cases hover : m.start (t.1 k) + W ≤ a.now
          · -- nothing has been answered in a window that opens only now
            have hempty : m.segment k a.now t.2 = [] := by
              refine List.filter_eq_nil_iff.2 fun e he => ?_
              rcases hwindowed.past e he with heq | hle <;>
                simp only [decide_eq_true_eq] <;> omega
            rw [if_pos ⟨hopens, hover⟩, hempty]
            exact c.holds_opened _ _ _ hopens hover
          · rw [if_neg fun h => hover h.2]
            exact c.holds_open _ _ _ _ hopens (not_le.1 hover) hcurrent
        rw [hrecord]
        refine ⟨hok', hnow, fun s => ?_⟩
        by_cases hs : m.start (K.serve a.query a.now (t.1 k)).1 = s
        · exact ⟨_, hok', hs ▸ hnow⟩
        · rw [hsegment, if_neg fun h => hs (hopened.symm.trans h), List.append_nil]
          exact hall s

/-- What is counted of a key is capped in each of its windows. -/
theorem Account.capped (c : m.Account ℕ) (hW : 0 < W) {counted : Q × A → Bool} {cap : ℕ}
    (hholds : ∀ l n, c.Holds l n → l.countP counted ≤ n) (hcap : ∀ n, c.Ok n → n ≤ cap)
    {asks : List (Timed κ Q)} (hsorted : (asks.map Timed.now).Pairwise (· ≤ ·)) (k : κ) :
    Capped W (fun e => m.opened e.2) (fun e => e.1.now) (m.events k (K.runAll asks).2)
      (fun e => counted (e.1.query, e.2)) cap := by
  refine (m.windowed_runAll hW hsorted k).1.capped fun s => ?_
  obtain ⟨n, hok, hsum⟩ := c.runAll hW hsorted k s
  have hle := (hholds _ _ hsum).trans (hcap n hok)
  rwa [segment, List.countP_map, List.countP_filter] at hle

/-- And the different values of what it asks for. -/
theorem Account.cappedValues {α : Type} [DecidableEq α] (c : m.Account (Finset α)) (hW : 0 < W)
    {values : Q × A → Finset α} {cap : ℕ}
    (hholds : ∀ l set, c.Holds l set → ∀ x ∈ l, values x ⊆ set)
    (hcap : ∀ set, c.Ok set → set.card ≤ cap) {asks : List (Timed κ Q)}
    (hsorted : (asks.map Timed.now).Pairwise (· ≤ ·)) (k : κ) :
    CappedValues W (fun e => m.opened e.2) (fun e => e.1.now) (m.events k (K.runAll asks).2)
      (fun e => values (e.1.query, e.2)) cap := by
  refine (m.windowed_runAll hW hsorted k).1.cappedValues fun s => ?_
  obtain ⟨set, hok, hsum⟩ := c.runAll hW hsorted k s
  refine ⟨set, hcap set hok, fun e he hs => hholds _ _ hsum _ ?_⟩
  exact List.mem_map_of_mem (List.mem_filter.2 ⟨he, decide_eq_true hs⟩)

end Meter

end Keeper

end Lib
