import Arvolo.Lib.Windows

/-!
The limits of what one address may do: `rz_rate_limit` and `write_rate_limit` of
`relay/src/limits.rs`.

Each keeps a record of every address that came lately, in a table of bounded size. A record
counts in fixed windows; that of the rendezvous has two of them, of a minute and of an hour.
-/

namespace Arvolo.Relay

open Lib

def maxRzLimiterIps : ℕ := 100000
def rzLimiterWindowSecs : ℕ := 60
def rzClaimWindowSecs : ℕ := 3600

section

variable {Ip : Type} [DecidableEq Ip]

/-! ### The rendezvous -/

/-- One address's rendezvous activity inside the current windows. -/
@[ext]
structure RzIpWindow where
  windowStart : ℕ := 0
  posts : ℕ := 0
  slots : Finset String := ∅
  claimWindowStart : ℕ := 0
  claims : ℕ := 0

inductive RzAction
  | post
  | getSlot (slot : String)
  | claim
  deriving DecidableEq

abbrev RzLimiter (Ip : Type) := Table Ip RzIpWindow

def RzIpWindow.live (now : ℕ) (w : RzIpWindow) : Bool :=
  decide (now < w.windowStart + rzLimiterWindowSecs) ||
    decide (now < w.claimWindowStart + rzClaimWindowSecs)

/-- The minute's window, opened anew once it is over. -/
def RzIpWindow.roll (now : ℕ) (w : RzIpWindow) : RzIpWindow :=
  if w.windowStart + rzLimiterWindowSecs ≤ now then
    { w with windowStart := now, posts := 0, slots := ∅ }
  else w

/-- The hour's. -/
def RzIpWindow.rollClaims (now : ℕ) (w : RzIpWindow) : RzIpWindow :=
  if w.claimWindowStart + rzClaimWindowSecs ≤ now then
    { w with claimWindowStart := now, claims := 0 }
  else w

/-- What the record says to a request. A cap of nought is no cap. -/
def RzIpWindow.charge (now postCap slotCap : ℕ) (w : RzIpWindow) :
    RzAction → RzIpWindow × Except String Unit
  | .post =>
      if 0 < postCap ∧ postCap ≤ w.posts then (w, .error "rendezvous rate limit exceeded")
      else ({ w with posts := w.posts + 1 }, .ok ())
  | .getSlot slot =>
      if slot ∈ w.slots then (w, .ok ())
      else if 0 < slotCap ∧ slotCap ≤ w.slots.card then (w, .error "rendezvous rate limit exceeded")
      else ({ w with slots := insert slot w.slots }, .ok ())
  | .claim =>
      let w := w.rollClaims now
      -- the cap of claims comes in the place of the posts'
      if 0 < postCap ∧ postCap ≤ w.claims then
        (w, .error "too many new rendezvous slots from this address")
      else ({ w with claims := w.claims + 1 }, .ok ())

/-- The entry of the address, and what becomes of it. -/
def rzAdmit (limiter : RzLimiter Ip) (ip : Ip) (action : RzAction) (now postCap slotCap : ℕ) :
    RzLimiter Ip × Except String Unit :=
  let (w, result) := (((limiter.lookup ip).getD {}).roll now).charge now postCap slotCap action
  (limiter.insert ip w, result)

/-- `retain`: the rows that pass the test. -/
def retain {ρ : Type} (test : ρ → Bool) (t : Table Ip ρ) : Table Ip ρ :=
  (t.keysWhere fun w => !test w).foldl (fun t k => t.erase k) t

def rzRateLimit (limiter : RzLimiter Ip) (ip : Option Ip) (action : RzAction)
    (now postCap slotCap : ℕ) : RzLimiter Ip × Except String Unit :=
  match ip with
  | none => (limiter, .ok ())
  | some ip =>
      if maxRzLimiterIps ≤ limiter.entries.length ∧ limiter.lookup ip = none then
        let limiter := retain (RzIpWindow.live now) limiter
        if maxRzLimiterIps ≤ limiter.entries.length then (limiter, .ok ())
        else rzAdmit limiter ip action now postCap slotCap
      else rzAdmit limiter ip action now postCap slotCap

/-! ### The writes -/

structure WriteIpWindow where
  windowStart : ℕ := 0
  writes : ℕ := 0

abbrev WriteLimiter (Ip : Type) := Table Ip WriteIpWindow

def WriteIpWindow.live (now : ℕ) (w : WriteIpWindow) : Bool :=
  decide (now < w.windowStart + rzLimiterWindowSecs)

def WriteIpWindow.roll (now : ℕ) (w : WriteIpWindow) : WriteIpWindow :=
  if w.windowStart + rzLimiterWindowSecs ≤ now then { windowStart := now, writes := 0 } else w

def WriteIpWindow.charge (cap : ℕ) (w : WriteIpWindow) : WriteIpWindow × Except String Unit :=
  if cap ≤ w.writes then (w, .error "write rate limit exceeded")
  else ({ w with writes := w.writes + 1 }, .ok ())

def writeAdmit (limiter : WriteLimiter Ip) (ip : Ip) (now cap : ℕ) :
    WriteLimiter Ip × Except String Unit :=
  let (w, result) := (((limiter.lookup ip).getD {}).roll now).charge cap
  (limiter.insert ip w, result)

def writeRateLimit (limiter : WriteLimiter Ip) (ip : Option Ip) (now cap : ℕ) :
    WriteLimiter Ip × Except String Unit :=
  if cap = 0 then (limiter, .ok ())
  else
    match ip with
    | none => (limiter, .ok ())
    | some ip =>
        if maxRzLimiterIps ≤ limiter.entries.length ∧ limiter.lookup ip = none then
          let limiter := retain (WriteIpWindow.live now) limiter
          if maxRzLimiterIps ≤ limiter.entries.length then (limiter, .ok ())
          else writeAdmit limiter ip now cap
        else writeAdmit limiter ip now cap

/-! ### A run of a limiter -/

/-- A request of an address, where it is known, at a time. -/
structure Request (Ip Q : Type) where
  ip : Option Ip
  query : Q
  now : ℕ

def Request.ask {Ip Q : Type} (r : Request Ip Q) : Option (Timed Ip Q) :=
  r.ip.map (⟨·, r.query, r.now⟩)

/-- What a limiter made of a request, and its table afterwards. -/
structure Verdict (Ip Q ρ : Type) where
  request : Request Ip Q
  result : Except String Unit
  after : Table Ip ρ

abbrev Limiter (Ip Q ρ : Type) := Table Ip ρ → Request Ip Q → Table Ip ρ × Except String Unit

variable {Q ρ ω : Type}

def Limiter.step (limit : Limiter Ip Q ρ) (s : Table Ip ρ × List (Verdict Ip Q ρ))
    (r : Request Ip Q) : Table Ip ρ × List (Verdict Ip Q ρ) :=
  let (t, result) := limit s.1 r
  (t, s.2 ++ [⟨r, result, t⟩])

def Limiter.run (limit : Limiter Ip Q ρ) (requests : List (Request Ip Q)) :
    Table Ip ρ × List (Verdict Ip Q ρ) := requests.foldl limit.step (∅, [])

/-- A verdict that comes from a record of the address, with the windows that the record was
in; there is none where the limiter let the request pass without one. -/
def Verdict.answered (windows : Q → ρ → ω) (v : Verdict Ip Q ρ) :
    Option (Timed Ip Q × Except String Unit × ω) :=
  v.request.ip.bind fun ip => (v.after.lookup ip).map fun w =>
    (⟨ip, v.request.query, v.request.now⟩, v.result, windows v.request.query w)

def Limiter.answers (limit : Limiter Ip Q ρ) (windows : Q → ρ → ω)
    (requests : List (Request Ip Q)) : Keeper.Answers Ip Q (Except String Unit × ω) :=
  (limit.run requests).2.filterMap (Verdict.answered windows)

/-- The limiter is the table of what `K` keeps, of bounded size: where there is no room, or
no address, it fails open. -/
structure Limiter.Guards (limit : Limiter Ip Q ρ) (K : Keeper ρ Q (Except String Unit × ω))
    (windows : Q → ρ → ω) : Prop where
  unknown : ∀ t q now, limit t ⟨none, q, now⟩ = (t, .ok ())
  known : ∀ t ip q now, limit t ⟨some ip, q, now⟩ =
    if (K.makeRoom maxRzLimiterIps t ⟨ip, q, now⟩).2 = true then
      ((K.makeRoom maxRzLimiterIps t ⟨ip, q, now⟩).1.insert ip
        (K.serve q now (K.record (K.makeRoom maxRzLimiterIps t ⟨ip, q, now⟩).1 ip)).1,
       (K.serve q now (K.record (K.makeRoom maxRzLimiterIps t ⟨ip, q, now⟩).1 ip)).2.1)
    else ((K.makeRoom maxRzLimiterIps t ⟨ip, q, now⟩).1, .ok ())
  windows_eq : ∀ q now w, (K.serve q now w).2.2 = windows q (K.serve q now w).1

/-- It answers as a limiter that keeps every record, and lets pass what it has no record
for: no address, or a table that is full of records still in use. -/
structure Limiter.Faithful (limit : Limiter Ip Q ρ) (K : Keeper ρ Q (Except String Unit × ω))
    (windows : Q → ρ → ω) (requests : List (Request Ip Q)) : Prop where
  unbounded : (K.runAll ((limit.answers windows requests).map Prod.fst)).2 =
    limit.answers windows requests
  open_of_full : ∀ v ∈ (limit.run requests).2, v.answered windows = none → v.result = .ok () ∧
    (v.request.ip = none ∨ maxRzLimiterIps ≤ v.after.entries.length ∧
      ∀ ip w, v.after.lookup ip = some w → K.idle v.request.now w = false)

namespace Limiter.Guards

variable {limit : Limiter Ip Q ρ} {K : Keeper ρ Q (Except String Unit × ω)}
  {windows : Q → ρ → ω}

omit [DecidableEq Ip] in
theorem run_concat (requests : List (Request Ip Q)) (r : Request Ip Q) :
    limit.run (requests ++ [r]) = limit.step (limit.run requests) r := List.foldl_concat ..

theorem lookup_makeRoom_full {t : Table Ip ρ} {a : Timed Ip Q}
    (h : (K.makeRoom maxRzLimiterIps t a).2 = false) :
    (K.makeRoom maxRzLimiterIps t a).1.lookup a.key = none ∧
      maxRzLimiterIps ≤ (K.makeRoom maxRzLimiterIps t a).1.entries.length ∧
      ∀ ip w, (K.makeRoom maxRzLimiterIps t a).1.lookup ip = some w → K.idle a.now w = false := by
  unfold Keeper.makeRoom at h ⊢
  split_ifs at h ⊢ with hfull
  refine ⟨?_, not_lt.1 (of_decide_eq_false h), fun ip w hw => ?_⟩
  · rw [Keeper.lookup_dropIdle, hfull.2]
    rfl
  · rw [Keeper.lookup_dropIdle, Option.filter_eq_some_iff] at hw
    simpa using hw.2

/-- The limiter's table, and what it answers from it, are those of `K`. -/
theorem runTable_eq (g : limit.Guards K windows) (requests : List (Request Ip Q)) :
    K.runTable maxRzLimiterIps (requests.filterMap Request.ask) =
      ((limit.run requests).1, limit.answers windows requests) := by
  induction requests using List.reverseRecOn with
  | nil => rfl
  | append_singleton requests r ih =>
      obtain ⟨ip, q, now⟩ := r
      rw [List.filterMap_append, Limiter.answers, run_concat, Limiter.step]
      cases ip with
      | none =>
          have hask : [(⟨none, q, now⟩ : Request Ip Q)].filterMap Request.ask = [] := rfl
          rw [g.unknown, hask, List.append_nil, ih, List.filterMap_append]
          exact congrArg (Prod.mk _) (List.append_nil _).symm
      | some ip =>
          rw [g.known, List.filterMap_append]
          have hnext : K.runTable maxRzLimiterIps (requests.filterMap Request.ask ++
              [⟨some ip, q, now⟩].filterMap Request.ask) =
              K.serveTable maxRzLimiterIps (K.runTable maxRzLimiterIps
                (requests.filterMap Request.ask)) ⟨ip, q, now⟩ := List.foldl_concat ..
          rw [hnext, ih, Keeper.serveTable, Limiter.answers]
          have hfull := lookup_makeRoom_full (K := K) (t := (limit.run requests).1)
            (a := ⟨ip, q, now⟩)
          generalize K.makeRoom maxRzLimiterIps (limit.run requests).1 ⟨ip, q, now⟩ = m at hfull ⊢
          obtain ⟨t, room⟩ := m
          cases room with
          | false => simp [Verdict.answered, (hfull rfl).1]
          | true =>
              have hwindows := g.windows_eq q now (K.record t ip)
              simp [Verdict.answered, ← hwindows]

theorem faithful (g : limit.Guards K windows) {requests : List (Request Ip Q)}
    (hsorted : (requests.map Request.now).Pairwise (· ≤ ·)) :
    limit.Faithful K windows requests where
  unbounded := by
    have hasks : ((requests.filterMap Request.ask).map Timed.now).Pairwise (· ≤ ·) := by
      rw [List.pairwise_map] at hsorted ⊢
      refine hsorted.filterMap _ fun r r' hle a ha a' ha' => ?_
      obtain ⟨ip, -, rfl⟩ := Option.map_eq_some_iff.1 ha
      obtain ⟨ip', -, rfl⟩ := Option.map_eq_some_iff.1 ha'
      exact hle
    have hbounded := K.runTable_eq maxRzLimiterIps hasks
    rwa [g.runTable_eq] at hbounded
  open_of_full := by
    clear hsorted
    induction requests using List.reverseRecOn with
    | nil => exact fun v hv => absurd hv List.not_mem_nil
    | append_singleton requests r ih =>
        intro v hv
        rw [run_concat, Limiter.step] at hv
        rcases List.mem_append.1 hv with hold | hnew
        · exact ih v hold
        · obtain ⟨ip, q, now⟩ := r
          rw [List.mem_singleton.1 hnew]
          intro hnone
          cases ip with
          | none =>
              rw [g.unknown]
              exact ⟨rfl, .inl rfl⟩
          | some ip =>
              rw [g.known] at hnone ⊢
              cases hroom : (K.makeRoom maxRzLimiterIps (limit.run requests).1 ⟨ip, q, now⟩).2 with
              | false =>
                  rw [if_neg (by simp)]
                  exact ⟨rfl, .inr (lookup_makeRoom_full hroom).2⟩
              | true => simp [hroom, Verdict.answered] at hnone

/-- The times of what is answered do not go back either. -/
theorem sorted_answers {requests : List (Request Ip Q)}
    (hsorted : (requests.map Request.now).Pairwise (· ≤ ·)) :
    (((limit.answers windows requests).map Prod.fst).map Timed.now).Pairwise (· ≤ ·) := by
  have hrequests : (limit.run requests).2.map Verdict.request = requests := by
    clear hsorted
    induction requests using List.reverseRecOn with
    | nil => rfl
    | append_singleton requests r ih =>
        rw [run_concat, Limiter.step, List.map_append, ih]
        rfl
  rw [← hrequests, List.pairwise_map, List.pairwise_map] at hsorted
  rw [List.pairwise_map, List.pairwise_map]
  refine hsorted.filterMap _ fun v v' hle a ha a' ha' => ?_
  obtain ⟨ip, -, hip⟩ := Option.bind_eq_some_iff.1 ha
  obtain ⟨w, -, rfl⟩ := Option.map_eq_some_iff.1 hip
  obtain ⟨ip', -, hip'⟩ := Option.bind_eq_some_iff.1 ha'
  obtain ⟨w', -, rfl⟩ := Option.map_eq_some_iff.1 hip'
  exact hle

theorem capped (g : limit.Guards K windows) {W : ℕ} {m : K.Meter W} (c : m.Account ℕ)
    (hW : 0 < W) {counted : Q × Except String Unit × ω → Bool} {cap : ℕ}
    (hholds : ∀ l n, c.Holds l n → l.countP counted ≤ n) (hcap : ∀ n, c.Ok n → n ≤ cap)
    {requests : List (Request Ip Q)}
    (hsorted : (requests.map Request.now).Pairwise (· ≤ ·)) (ip : Ip) :
    Capped W (fun e => m.opened e.2) (fun e => e.1.now)
      (m.events ip (limit.answers windows requests)) (fun e => counted (e.1.query, e.2)) cap := by
  have hanswers : (K.runAll ((limit.answers windows requests).map Prod.fst)).2 = _ :=
    (g.faithful hsorted).unbounded
  rw [← hanswers]
  exact c.capped hW hholds hcap (sorted_answers hsorted) ip

theorem cappedValues (g : limit.Guards K windows) {W : ℕ} {m : K.Meter W} {α : Type}
    [DecidableEq α] (c : m.Account (Finset α)) (hW : 0 < W)
    {values : Q × Except String Unit × ω → Finset α} {cap : ℕ}
    (hholds : ∀ l set, c.Holds l set → ∀ x ∈ l, values x ⊆ set)
    (hcap : ∀ set, c.Ok set → set.card ≤ cap) {requests : List (Request Ip Q)}
    (hsorted : (requests.map Request.now).Pairwise (· ≤ ·)) (ip : Ip) :
    CappedValues W (fun e => m.opened e.2) (fun e => e.1.now)
      (m.events ip (limit.answers windows requests)) (fun e => values (e.1.query, e.2)) cap := by
  have hanswers : (K.runAll ((limit.answers windows requests).map Prod.fst)).2 = _ :=
    (g.faithful hsorted).unbounded
  rw [← hanswers]
  exact c.cappedValues hW hholds hcap (sorted_answers hsorted) ip

end Limiter.Guards

end

end Arvolo.Relay
