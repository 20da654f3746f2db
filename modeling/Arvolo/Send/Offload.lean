import Arvolo.Lib.Batches
import Arvolo.Lib.Traverse
import Arvolo.Relay.Have
import Arvolo.Send.Serve

/-!
Putting pieces on the relay, `SendSession::offload` and `park_on_relay` of
`core/src/flow/send.rs`.

The relay is asked what it holds of the wanted pieces, and the rest goes to it in batches. Three
numberings meet here: of the pieces, of their positions in the list that is wanted, and of the
answer, which is by position. An offload ends at the first batch that is not accepted.
-/

namespace Arvolo.Send

open Lib Relay
open Sync (trim)

/-- `parse::<u64>()`. -/
def parseU64 (s : String) : Option ℕ :=
  let digits := if s.toList.head? = some '+' then s.toList.tail else s.toList
  if digits ≠ [] ∧ digits.all Char.isDigit then
    let n := digits.foldl (fun n c => 10 * n + (c.toNat - '0'.toNat)) 0
    if n < 2 ^ 64 then some n else none
  else none

structure RelayRelease where
  http : String
  addr : String
  token : String

structure SendSession where
  chunks : List Hash
  totalSize : ℕ
  addr : String
  relay : Option RelayRelease
  /-- What receivers are told that the relay has. -/
  onRelay : Finset ℕ := ∅

/-- A seed request, and where it is posted. -/
structure SeedPost where
  url : String
  sender : String
  chunks : List Hash
  token : String
  swarmId : String
  deriving DecidableEq

/-- What becomes of the request for a batch. -/
inductive Turn
  | unencodable (error : String)
  | cancelled
  | lost (error : String)
  /-- A status, as a number and in words, the lifetime that was granted and the text. -/
  | answered (status : ℕ) (line : String) (ttl body : Option String)

inductive Offload
  | complete (granted : Option ℕ)
  | capped
  | full
  | failed
  | cancelled
  deriving DecidableEq

def seedBatch : ℕ := 64

/-- What an offload has done so far. -/
structure Offloading where
  onRelay : Finset ℕ
  /-- The batches of pieces that the relay was asked to fetch. -/
  asked : List (List ℕ) := []
  log : List SendEvent := []

namespace Offloading

variable (o : Offloading)

def on (e : SendEvent) : Offloading := { o with log := o.log ++ [e] }

def ask (batch : List ℕ) : Offloading := { o with asked := o.asked ++ [batch] }

def markOnRelay (indices : List ℕ) : Offloading :=
  { o with onRelay := o.onRelay ∪ (indices.map (· % 2 ^ 32)).toFinset }

end Offloading

/-- The lifetime that an answer names. -/
def told (ttl : Option String) : Option ℕ := ttl.bind fun v => parseU64 (trim v)

/-- The shortest lifetime so far. -/
def lowest (granted told : Option ℕ) : Option ℕ :=
  match granted, told with
  | granted, none => granted
  | none, some ttl => some ttl
  | some g, some ttl => some (min g ttl)

namespace SendSession

variable (s : SendSession) (swarmId : List Hash → ℕ → String) (cm : CaseMap)
  (ask : ℕ → String → Reply) (cancelled : ℕ → Bool) (turn : ℕ → SeedPost → Turn) (ttlSecs : ℕ)

/-- The request for a batch; an index that no chunk has panics. -/
def seedPost (r : RelayRelease) (batch : List ℕ) : Option SeedPost := do
  let chunks ← batch.mapM (s.chunks[·]?)
  some ⟨r.http ++ "/v1/seed?ttl=" ++ toString ttlSecs, s.addr, chunks, r.token,
    swarmId s.chunks s.totalSize⟩

/-- The batches from number `b` on. `none` is a panic. -/
def seedBatches (r : RelayRelease) :
    ℕ → List (List ℕ) → Option ℕ → Offloading → Option (Offload × Offloading)
  | _, [], granted, o => some (.complete granted, o.on .backfilled)
  | b, batch :: rest, granted, o =>
      if cancelled b then some (.cancelled, o)
      else do
        let post ← s.seedPost swarmId ttlSecs r batch
        match turn b post with
        | .unencodable error => some (.failed, o.on (.backfillFailed error))
        | .cancelled => some (.cancelled, o.ask batch)
        | .lost error => some (.failed, (o.ask batch).on (.backfillFailed error))
        | .answered status line ttl body =>
            if 200 ≤ status ∧ status < 300 then
              seedBatches r (b + 1) rest (lowest granted (told ttl))
                ((o.ask batch).markOnRelay batch)
            else if status = 402 then
              let limitBytes := (body.bind fun t => parseU64 (trim t)).getD 0
              some (.capped, (o.ask batch).on (.relayCapped limitBytes))
            else if status = 507 then
              some (.full, (o.ask batch).on (.backfillFailed
                "the relay has no room right now — it clears as other transfers finish"))
            else some (.failed, (o.ask batch).on (.backfillFailed ("relay rejected: " ++ line)))

/-- Put the wanted pieces on the relay, but for those it already holds. -/
def offload (wanted : List ℕ) : Option (Offload × Offloading) :=
  match s.relay with
  | none => some (.failed, { onRelay := s.onRelay })
  | some r => do
      let hashes ← wanted.mapM (s.chunks[·]?)
      let held := (relayHave cm ask hashes).toOption.getD ∅
      let already ← held.sort.mapM (wanted[·]?)
      let o : Offloading :=
        if already ≠ [] then ({ onRelay := s.onRelay } : Offloading).markOnRelay already
        else { onRelay := s.onRelay }
      let todo := (wanted.zipIdx.filter fun x => x.2 % 2 ^ 32 ∉ held).map (·.1)
      if todo = [] then some (.complete none, o.on .backfilled)
      else
        s.seedBatches swarmId cancelled turn ttlSecs r 0 (batches seedBatch todo) none o

/-- The lifetime that is reported, if all of the payload is on the relay. -/
def parkOnRelay : Option (Option ℕ × Offloading) := do
  let all := List.range s.chunks.length
  match ← s.offload swarmId cm ask cancelled turn ttlSecs all with
  | (.complete granted, o) => some (some (granted.getD ttlSecs), o.on .offloaded)
  | (_, o) => some (none, o)

/-! ### One batch after the other -/

/-- Batch `b` is posted and taken, with an answer that names `t`. -/
def Accepted (r : RelayRelease) (b : ℕ) (batch : List ℕ) (t : Option ℕ) : Prop :=
  ∃ post status line ttl body, s.seedPost swarmId ttlSecs r batch = some post ∧
    turn b post = .answered status line ttl body ∧ 200 ≤ status ∧ status < 300 ∧ t = told ttl

end SendSession

/-- The lifetime `granted` is at most the one that was named, if one was. -/
def Within (granted t : Option ℕ) : Prop := ∀ x, t = some x → ∃ g, granted = some g ∧ g ≤ x

theorem within_lowest {g granted t : Option ℕ} (h : Within g (lowest granted t)) :
    Within g granted ∧ Within g t := by
  cases granted with
  | none =>
      cases t with
      | none => exact ⟨h, h⟩
      | some x => exact ⟨nofun, h⟩
  | some y =>
      cases t with
      | none => exact ⟨h, nofun⟩
      | some x =>
          obtain ⟨L, hL, hle⟩ := h (min y x) rfl
          refine ⟨fun z hz => ⟨L, hL, ?_⟩, fun z hz => ⟨L, hL, ?_⟩⟩
          · rw [← Option.some.inj hz]
            exact hle.trans (min_le_left y x)
          · rw [← Option.some.inj hz]
            exact hle.trans (min_le_right y x)

theorem lowest_eq_or (granted t : Option ℕ) : lowest granted t = granted ∨ lowest granted t = t := by
  cases granted with
  | none => cases t <;> simp [lowest]
  | some y =>
      cases t with
      | none => exact .inl rfl
      | some x => simp only [lowest, Option.some.injEq]; exact min_choice y x

namespace SendSession

section Batches

variable {s : SendSession} {swarmId : List Hash → ℕ → String} {cancelled : ℕ → Bool}
  {turn : ℕ → SeedPost → Turn} {ttlSecs : ℕ} {r : RelayRelease}

/-- How the batches from number `b` on went: `n` were taken and `k` asked for. -/
structure Went (s : SendSession) (swarmId : List Hash → ℕ → String) (cancelled : ℕ → Bool)
    (turn : ℕ → SeedPost → Turn) (ttlSecs : ℕ) (r : RelayRelease) (b : ℕ) (bs : List (List ℕ))
    (granted : Option ℕ) (o : Offloading) (out : Offload) (o' : Offloading) (n k : ℕ) :
    Prop where
  taken_le : n ≤ k
  asked_le : k ≤ n + 1
  bounded : k ≤ bs.length
  asked : o'.asked = o.asked ++ bs.take k
  onRelay : o'.onRelay = o.onRelay ∪ (bs.take n).flatten.toFinset
  taken : ∀ j < n, ∀ batch, bs[j]? = some batch →
    ∃ t, s.Accepted swarmId turn ttlSecs r (b + j) batch t
  running : ∀ j < k, cancelled (b + j) = false
  complete : ∀ g, out = .complete g → n = bs.length ∧ Within g granted ∧
    (∀ j batch t, bs[j]? = some batch → s.Accepted swarmId turn ttlSecs r (b + j) batch t →
      Within g t) ∧
    ∀ L, g = some L → granted = some L ∨
      ∃ j batch, bs[j]? = some batch ∧ s.Accepted swarmId turn ttlSecs r (b + j) batch (some L)

/-- Nothing more goes out after a batch that is not taken. -/
theorem went_stop {b : ℕ} {batch : List ℕ} {rest : List (List ℕ)} {granted : Option ℕ}
    {o : Offloading} {out : Offload} (hout : ∀ g, out ≠ .complete g) (log : List SendEvent)
    (hrun : cancelled b = false) :
    Went s swarmId cancelled turn ttlSecs r b (batch :: rest) granted o out
      { o.ask batch with log := log } 0 1 where
  taken_le := Nat.zero_le 1
  asked_le := le_rfl
  bounded := Nat.succ_pos _
  asked := rfl
  onRelay := by simp [Offloading.ask]
  taken j hj := absurd hj (Nat.not_lt_zero j)
  running j hj := by rwa [Nat.lt_one_iff.1 hj]
  complete g hg := absurd hg (hout g)

theorem went_none {b : ℕ} {bs : List (List ℕ)} {granted : Option ℕ} {o : Offloading}
    {out : Offload} (hout : ∀ g, out ≠ .complete g) (log : List SendEvent) :
    Went s swarmId cancelled turn ttlSecs r b bs granted o out { o with log := log } 0 0 where
  taken_le := le_rfl
  asked_le := Nat.zero_le 1
  bounded := Nat.zero_le _
  asked := by simp
  onRelay := by simp
  taken j hj := absurd hj (Nat.not_lt_zero j)
  running j hj := absurd hj (Nat.not_lt_zero j)
  complete g hg := absurd hg (hout g)

theorem isSome_seedPost {batch : List ℕ} (h : ∀ i ∈ batch, i < s.chunks.length) :
    ∃ post, s.seedPost swarmId ttlSecs r batch = some post := by
  have hsome : (batch.mapM (s.chunks[·]?)).isSome = true :=
    isSome_mapM_iff.2 fun i hi => by simp [h i hi]
  obtain ⟨chunks, hchunks⟩ := Option.isSome_iff_exists.1 hsome
  exact ⟨_, by rw [seedPost, hchunks]; rfl⟩

theorem accepted_unique {b : ℕ} {batch : List ℕ} {t t' : Option ℕ}
    (h : s.Accepted swarmId turn ttlSecs r b batch t)
    (h' : s.Accepted swarmId turn ttlSecs r b batch t') : t = t' := by
  obtain ⟨post, status, line, ttl, body, hpost, hturn, -, -, rfl⟩ := h
  obtain ⟨post', status', line', ttl', body', hpost', hturn', -, -, rfl⟩ := h'
  obtain rfl := Option.some.inj (hpost.symm.trans hpost')
  obtain ⟨-, -, rfl, -⟩ := Turn.answered.inj (hturn.symm.trans hturn')
  rfl

/-- A batch that is taken, and then the others. -/
theorem Went.cons {b : ℕ} {batch : List ℕ} {rest : List (List ℕ)} {granted t : Option ℕ}
    {o o' : Offloading} {out : Offload} {n k : ℕ}
    (htaken : s.Accepted swarmId turn ttlSecs r b batch t) (hrun : cancelled b = false)
    (hsmall : ∀ i ∈ batch, i < 2 ^ 32)
    (h : Went s swarmId cancelled turn ttlSecs r (b + 1) rest (lowest granted t)
      ((o.ask batch).markOnRelay batch) out o' n k) :
    Went s swarmId cancelled turn ttlSecs r b (batch :: rest) granted o out o' (n + 1) (k + 1) where
  taken_le := Nat.succ_le_succ h.taken_le
  asked_le := Nat.succ_le_succ h.asked_le
  bounded := Nat.succ_le_succ h.bounded
  asked := by
    rw [h.asked]
    simp [Offloading.markOnRelay, Offloading.ask]
  onRelay := by
    have hcast : batch.map (· % 2 ^ 32) = batch :=
      (List.map_congr_left fun i hi => Nat.mod_eq_of_lt (hsmall i hi)).trans (List.map_id' batch)
    rw [h.onRelay]
    simp only [Offloading.markOnRelay, Offloading.ask, hcast, List.take_succ_cons,
      List.flatten_cons, List.toFinset_append, Finset.union_assoc]
  taken j hj c hc := by
    cases j with
    | zero =>
        obtain rfl := Option.some.inj hc
        exact ⟨t, htaken⟩
    | succ j =>
        have := h.taken j (Nat.lt_of_succ_lt_succ hj) c hc
        rwa [Nat.add_right_comm] at this
  running j hj := by
    cases j with
    | zero => exact hrun
    | succ j =>
        have := h.running j (Nat.lt_of_succ_lt_succ hj)
        rwa [Nat.add_right_comm] at this
  complete g hg := by
    obtain ⟨hn, hbelow, hall, hfrom⟩ := h.complete g hg
    obtain ⟨hgranted, ht⟩ := within_lowest hbelow
    refine ⟨congrArg Nat.succ hn, hgranted, fun j c u hc hu => ?_, fun L hL => ?_⟩
    · cases j with
      | zero =>
          obtain rfl := Option.some.inj hc
          rwa [← accepted_unique htaken hu]
      | succ j =>
          refine hall j c u hc ?_
          rwa [Nat.add_right_comm]
    · rcases hfrom L hL with hlow | ⟨j, c, hc, hu⟩
      · rcases lowest_eq_or granted t with heq | heq
        · exact .inl (heq ▸ hlow)
        · exact .inr ⟨0, batch, rfl, by rwa [← hlow, heq]⟩
      · exact .inr ⟨j + 1, c, hc, by rwa [Nat.add_right_comm] at hu⟩

/-- By induction on the batches that are left. -/
theorem seedBatches_went {bs : List (List ℕ)} (hin : ∀ batch ∈ bs, ∀ i ∈ batch,
    i < s.chunks.length) (hsize : s.chunks.length ≤ 2 ^ 32) (b : ℕ) (granted : Option ℕ)
    (o : Offloading) :
    ∃ out o' n k, s.seedBatches swarmId cancelled turn ttlSecs r b bs granted o = some (out, o') ∧
      Went s swarmId cancelled turn ttlSecs r b bs granted o out o' n k := by
  induction bs generalizing b granted o with
  | nil =>
      refine ⟨_, _, 0, 0, rfl, le_rfl, Nat.zero_le 1, le_rfl, ?_, ?_, ?_, ?_, ?_⟩
      · simp [Offloading.on]
      · simp [Offloading.on]
      · exact fun j hj => absurd hj (Nat.not_lt_zero j)
      · exact fun j hj => absurd hj (Nat.not_lt_zero j)
      · rintro g hg
        obtain rfl := Offload.complete.inj hg
        refine ⟨rfl, fun x hx => ⟨x, hx, le_rfl⟩, ?_, fun L hL => .inl hL⟩
        rintro j batch t hj
        cases hj
  | cons batch rest ih =>
      have hbatch : ∀ i ∈ batch, i < s.chunks.length := hin batch List.mem_cons_self
      rw [seedBatches]
      by_cases hcancel : cancelled b = true
      · rw [if_pos hcancel]
        exact ⟨_, _, 0, 0, rfl, went_none (by simp) o.log⟩
      have hrun : cancelled b = false := Bool.not_eq_true _ ▸ hcancel
      obtain ⟨post, hpost⟩ : ∃ post, s.seedPost swarmId ttlSecs r batch = some post :=
        isSome_seedPost hbatch
      rw [if_neg hcancel, hpost]
      simp only [Option.bind_eq_bind, Option.bind_some]
      cases hturn : turn b post with
      | unencodable error => exact ⟨_, _, 0, 0, rfl, went_none (by simp) _⟩
      | cancelled => exact ⟨_, _, 0, 1, rfl, went_stop (by simp) o.log hrun⟩
      | lost error => exact ⟨_, _, 0, 1, rfl, went_stop (by simp) _ hrun⟩
      | answered status line ttl body =>
          simp only
          by_cases hok : 200 ≤ status ∧ status < 300
          · rw [if_pos hok]
            have htaken : s.Accepted swarmId turn ttlSecs r b batch (told ttl) :=
              ⟨post, status, line, ttl, body, hpost, hturn, hok.1, hok.2, rfl⟩
            obtain ⟨out, o', n, k, heq, hwent⟩ := ih
              (fun c hc => hin c (List.mem_cons_of_mem batch hc)) (b + 1)
              (lowest granted (told ttl)) ((o.ask batch).markOnRelay batch)
            exact ⟨out, o', n + 1, k + 1, heq,
              hwent.cons htaken hrun fun i hi => (hbatch i hi).trans_le hsize⟩
          · rw [if_neg hok]
            split_ifs
            · exact ⟨_, _, 0, 1, rfl, went_stop (by simp) _ hrun⟩
            · exact ⟨_, _, 0, 1, rfl, went_stop (by simp) _ hrun⟩
            · exact ⟨_, _, 0, 1, rfl, went_stop (by simp) _ hrun⟩

end Batches

/-! ### The whole offload -/

/-- The relay says that it holds piece `p`. -/
def Reported (s : SendSession) (cm : CaseMap) (ask : ℕ → String → Reply) (wanted : List ℕ)
    (p : ℕ) : Prop :=
  ∃ hashes held i, wanted.mapM (s.chunks[·]?) = some hashes ∧ relayHave cm ask hashes = .ok held ∧
    i ∈ held ∧ wanted[i]? = some p

/-- The relay takes batch `b`, with an answer that names `t`. -/
def Took (s : SendSession) (swarmId : List Hash → ℕ → String) (turn : ℕ → SeedPost → Turn)
    (ttlSecs b : ℕ) (batch : List ℕ) (t : Option ℕ) : Prop :=
  ∃ r, s.relay = some r ∧ s.Accepted swarmId turn ttlSecs r b batch t

/-- An offload asks for what is wanted and not reported, once, and records what was reported or
taken; it stops at the first batch that is not taken, and is complete if there is none. -/
structure Exact (s : SendSession) (swarmId : List Hash → ℕ → String) (cm : CaseMap)
    (ask : ℕ → String → Reply) (cancelled : ℕ → Bool) (turn : ℕ → SeedPost → Turn) (ttlSecs : ℕ)
    (wanted : List ℕ) (out : Offload) (o : Offloading) : Prop where
  once : o.asked.flatten.Nodup
  missing : ∀ p ∈ o.asked.flatten, p ∈ wanted ∧ ¬ s.Reported cm ask wanted p
  batched : ∀ batch ∈ o.asked, batch.length ≤ seedBatch
  stops : ∀ n, cancelled n = true → o.asked.length ≤ n
  goesOn : ∀ b batch, b + 1 < o.asked.length → o.asked[b]? = some batch →
    ∃ t, s.Took swarmId turn ttlSecs b batch t
  recorded : ∀ p ∈ o.onRelay, p ∈ s.onRelay ∨ (p ∈ wanted ∧ s.Reported cm ask wanted p) ∨
    ∃ b batch t, o.asked[b]? = some batch ∧ p ∈ batch ∧ s.Took swarmId turn ttlSecs b batch t
  complete : ∀ g, out = .complete g → ∀ p ∈ wanted, p ∈ o.onRelay ∧
    (¬ s.Reported cm ask wanted p → p ∈ o.asked.flatten)
  granted : ∀ g, out = .complete g →
    (∀ b batch t, o.asked[b]? = some batch → s.Took swarmId turn ttlSecs b batch t →
      Within g t) ∧
    ∀ L, g = some L → ∃ b batch, o.asked[b]? = some batch ∧
      s.Took swarmId turn ttlSecs b batch (some L)

section Offload

variable {s : SendSession} {swarmId : List Hash → ℕ → String} {cm : CaseMap}
  {ask : ℕ → String → Reply} {cancelled : ℕ → Bool} {turn : ℕ → SeedPost → Turn} {ttlSecs : ℕ}
  {wanted : List ℕ}

/-- An offload that asks for nothing. -/
theorem exact_quiet {out : Offload} {o : Offloading} (hasked : o.asked = [])
    (hrecorded : ∀ p ∈ o.onRelay, p ∈ s.onRelay ∨ (p ∈ wanted ∧ s.Reported cm ask wanted p))
    (hcomplete : ∀ g, out = .complete g →
      g = none ∧ ∀ p ∈ wanted, p ∈ o.onRelay ∧ s.Reported cm ask wanted p) :
    s.Exact swarmId cm ask cancelled turn ttlSecs wanted out o where
  once := by simp [hasked]
  missing p hp := by simp [hasked] at hp
  batched batch hb := by simp [hasked] at hb
  stops n _ := by simp [hasked]
  goesOn b batch hb := by simp [hasked] at hb
  recorded p hp := by
    rcases hrecorded p hp with hold | hreported
    · exact .inl hold
    · exact .inr (.inl hreported)
  complete g hg p hp := by
    obtain ⟨hin, hreported⟩ := (hcomplete g hg).2 p hp
    exact ⟨hin, fun hnot => absurd hreported hnot⟩
  granted g hg := by
    obtain rfl := (hcomplete g hg).1
    refine ⟨fun b batch t hb => ?_, nofun⟩
    simp [hasked] at hb

theorem getElem?_of_append_take {bs : List (List ℕ)} {k b : ℕ} {batch : List ℕ}
    (h : (bs.take k)[b]? = some batch) : bs[b]? = some batch ∧ b < k := by
  have hlt : b < k :=
    (List.getElem?_eq_some_iff.1 h).1.trans_le (List.length_take_le k bs)
  rw [List.getElem?_take_of_lt hlt] at h
  exact ⟨h, hlt⟩

/-- The pieces that are not reported go to the relay in batches. -/
theorem exact_of_went {r : RelayRelease} (hr : s.relay = some r) {todo : List ℕ}
    (hnodup : todo.Nodup)
    (htodo : ∀ p, p ∈ todo ↔ p ∈ wanted ∧ ¬ s.Reported cm ask wanted p) {o : Offloading}
    (hasked : o.asked = [])
    (hfirst : ∀ p, p ∈ o.onRelay ↔ p ∈ s.onRelay ∨ (p ∈ wanted ∧ s.Reported cm ask wanted p))
    {out : Offload} {o' : Offloading} {n k : ℕ}
    (h : Went s swarmId cancelled turn ttlSecs r 0 (batches seedBatch todo) none o out o' n k) :
    s.Exact swarmId cm ask cancelled turn ttlSecs wanted out o' := by
  have hpos : 0 < seedBatch := by decide
  have hall : (batches seedBatch todo).flatten = todo := flatten_batches hpos todo
  have hask : o'.asked = (batches seedBatch todo).take k := by
    rw [h.asked, hasked, List.nil_append]
  have hsub : o'.asked.flatten.Sublist todo := by
    have hpart := (List.take_sublist k (batches seedBatch todo)).flatten
    rwa [← hask, hall] at hpart
  have htook : ∀ j batch t, (batches seedBatch todo)[j]? = some batch →
      s.Accepted swarmId turn ttlSecs r (0 + j) batch t → s.Took swarmId turn ttlSecs j batch t :=
    fun j batch t _ ht => ⟨r, hr, by rwa [Nat.zero_add] at ht⟩
  refine ⟨hsub.nodup hnodup, fun p hp => (htodo p).1 (hsub.subset hp), ?_, ?_, ?_, ?_, ?_, ?_⟩
  · intro batch hb
    rw [hask] at hb
    exact length_le_of_mem_batches hpos (List.mem_of_mem_take hb)
  · intro m hm
    have hlen : o'.asked.length = k := by
      rw [hask, List.length_take, Nat.min_eq_left h.bounded]
    rw [hlen]
    by_contra hlt
    have := h.running m (Nat.lt_of_not_le hlt)
    rw [Nat.zero_add, hm] at this
    cases this
  · intro b batch hb hget
    rw [hask, List.length_take, Nat.min_eq_left h.bounded] at hb
    rw [hask] at hget
    have hget' := (getElem?_of_append_take hget).1
    obtain ⟨t, ht⟩ := h.taken b (by have := h.asked_le; omega) batch hget'
    exact ⟨t, htook b batch t hget' ht⟩
  · intro p hp
    rw [h.onRelay, Finset.mem_union, hfirst] at hp
    rcases hp with (hold | hreported) | hp
    · exact .inl hold
    · exact .inr (.inl hreported)
    · obtain ⟨batch, hmem, hp⟩ := List.mem_flatten.1 (List.mem_toFinset.1 hp)
      obtain ⟨b, hb⟩ := List.mem_iff_getElem?.1 hmem
      obtain ⟨hget, hlt⟩ := getElem?_of_append_take hb
      obtain ⟨t, ht⟩ := h.taken b hlt batch hget
      refine .inr (.inr ⟨b, batch, t, ?_, hp, htook b batch t hget ht⟩)
      rw [hask, List.getElem?_take_of_lt (hlt.trans_le h.taken_le), hget]
  · intro g hg p hp
    obtain ⟨hn, -⟩ := h.complete g hg
    have hkn : k = (batches seedBatch todo).length :=
      Nat.le_antisymm h.bounded (hn ▸ h.taken_le)
    have hflat : o'.asked.flatten = todo := by rw [hask, hkn, List.take_length, hall]
    rw [h.onRelay, Finset.mem_union, hfirst, hn, List.take_length, hall, List.mem_toFinset, htodo,
      hflat, htodo]
    by_cases hreported : s.Reported cm ask wanted p
    · exact ⟨.inl (.inr ⟨hp, hreported⟩), fun hnot => ⟨hp, hnot⟩⟩
    · exact ⟨.inr ⟨hp, hreported⟩, fun hnot => ⟨hp, hnot⟩⟩
  · intro g hg
    obtain ⟨hn, -, hbelow, hfrom⟩ := h.complete g hg
    constructor
    · rintro b batch t hb ⟨r', hr', ht⟩
      obtain rfl := Option.some.inj (hr.symm.trans hr')
      rw [hask] at hb
      exact hbelow b batch t (getElem?_of_append_take hb).1 (by rwa [Nat.zero_add])
    · intro L hL
      rcases hfrom L hL with hnone | ⟨j, batch, hj, ht⟩
      · cases hnone
      · refine ⟨j, batch, ?_, htook j batch (some L) hj ht⟩
        have hlt : j < k := by
          have hj' := (List.getElem?_eq_some_iff.1 hj).1
          have := h.taken_le
          omega
        rw [hask, List.getElem?_take_of_lt hlt, hj]

/-- What is left to do, where the answer is by position. -/
theorem mem_todo_iff (hsize : wanted.length ≤ 2 ^ 32) {held : Finset ℕ} (p : ℕ) :
    p ∈ (wanted.zipIdx.filter fun x => x.2 % 2 ^ 32 ∉ held).map (·.1) ↔
      ∃ i, wanted[i]? = some p ∧ i ∉ held := by
  simp only [List.mem_map, List.mem_filter, Prod.exists, List.mk_mem_zipIdx_iff_getElem?,
    decide_eq_true_iff]
  constructor
  · rintro ⟨q, i, ⟨hget, hheld⟩, rfl⟩
    have hi : i < wanted.length := (List.getElem?_eq_some_iff.1 hget).1
    rw [Nat.mod_eq_of_lt (hi.trans_le hsize)] at hheld
    exact ⟨i, hget, hheld⟩
  · rintro ⟨i, hget, hheld⟩
    have hi : i < wanted.length := (List.getElem?_eq_some_iff.1 hget).1
    refine ⟨p, i, ⟨hget, ?_⟩, rfl⟩
    rwa [Nat.mod_eq_of_lt (hi.trans_le hsize)]

/-- In a list of distinct pieces, those that are not at a held position are those that are at
none. -/
theorem mem_unheld_iff (hnodup : wanted.Nodup) {held : Finset ℕ} (p : ℕ) :
    (∃ i, wanted[i]? = some p ∧ i ∉ held) ↔ p ∈ wanted ∧ ¬ ∃ i ∈ held, wanted[i]? = some p := by
  constructor
  · rintro ⟨i, hget, hi⟩
    refine ⟨List.mem_of_getElem? hget, ?_⟩
    rintro ⟨j, hj, hget'⟩
    have hlt := (List.getElem?_eq_some_iff.1 hget).1
    obtain rfl : i = j := (List.getElem?_inj hlt hnodup).1 (hget.trans hget'.symm)
    exact hi hj
  · rintro ⟨hp, hnone⟩
    obtain ⟨i, hi⟩ := List.mem_iff_getElem?.1 hp
    exact ⟨i, hi, fun hheld => hnone ⟨i, hheld, hi⟩⟩

theorem mem_answer_iff {answer : Except String (Finset ℕ)} {i : ℕ} :
    i ∈ answer.toOption.getD ∅ ↔ ∃ held, answer = .ok held ∧ i ∈ held := by
  cases answer <;> simp [Except.toOption]

/-- What was reported is what stands at the positions of the answer. -/
theorem reported_iff {hashes : List Hash} (hhashes : wanted.mapM (s.chunks[·]?) = some hashes)
    (p : ℕ) : s.Reported cm ask wanted p ↔
      ∃ i ∈ (relayHave cm ask hashes).toOption.getD ∅, wanted[i]? = some p := by
  constructor
  · rintro ⟨hashes', held, i, hhashes', hanswer, hi, hget⟩
    obtain rfl := Option.some.inj (hhashes.symm.trans hhashes')
    exact ⟨i, mem_answer_iff.2 ⟨held, hanswer, hi⟩, hget⟩
  · rintro ⟨i, hi, hget⟩
    obtain ⟨held, hanswer, hi⟩ := mem_answer_iff.1 hi
    exact ⟨hashes, held, i, hhashes, hanswer, hi, hget⟩

/-- The positions that are reported are positions of the list. -/
theorem lt_of_mem_answer {hashes : List Hash} (hsize : hashes.length ≤ 2 ^ 32) {i : ℕ}
    (hi : i ∈ (relayHave cm ask hashes).toOption.getD ∅) : i < hashes.length := by
  obtain ⟨held, hanswer, hi⟩ := mem_answer_iff.1 hi
  obtain ⟨j, hj, rfl⟩ := mem_relayHave_of_any hanswer hi
  rwa [Nat.mod_eq_of_lt (hj.trans_le hsize)]

/-- The pieces at positions that exist can all be looked up. -/
theorem exists_already {held : Finset ℕ} (hheld : ∀ i ∈ held, i < wanted.length) :
    ∃ already, held.sort.mapM (wanted[·]?) = some already ∧
      ∀ p, p ∈ already ↔ ∃ i ∈ held, wanted[i]? = some p := by
  have hsome : (held.sort.mapM (wanted[·]?)).isSome = true :=
    isSome_mapM_iff.2 fun i hi => by simp [hheld i ((Finset.mem_sort _).1 hi)]
  obtain ⟨already, halready⟩ := Option.isSome_iff_exists.1 hsome
  refine ⟨already, halready, fun p => ?_⟩
  simp only [mem_iff_of_mapM halready, Finset.mem_sort]

/-- What is recorded before anything is asked for. -/
theorem first_spec {already : List ℕ} (hsmall : ∀ p ∈ already, p < 2 ^ 32) :
    (if already ≠ [] then ({ onRelay := s.onRelay } : Offloading).markOnRelay already
      else { onRelay := s.onRelay }) =
      { onRelay := s.onRelay ∪ already.toFinset } := by
  have hcast : already.map (· % 2 ^ 32) = already :=
    (List.map_congr_left fun p hp => Nat.mod_eq_of_lt (hsmall p hp)).trans (List.map_id' already)
  split_ifs with h
  · simp only [Offloading.markOnRelay, hcast]
  · rw [not_not.1 h]
    simp

/-- Distinct pieces of a payload are no more than its pieces. -/
theorem length_le_of_nodup (hin : ∀ p ∈ wanted, p < s.chunks.length) (hnodup : wanted.Nodup) :
    wanted.length ≤ s.chunks.length := by
  have hsub : wanted ⊆ List.range s.chunks.length := fun p hp => List.mem_range.2 (hin p hp)
  have hle := (hnodup.subperm hsub).length_le
  rwa [List.length_range] at hle

/-- Whatever is wanted of a payload of up to 2^32 pieces and whatever the relay answers, an offload
ends without a panic, and is exact. -/
theorem offload_spec (hsize : s.chunks.length ≤ 2 ^ 32)
    (hin : ∀ p ∈ wanted, p < s.chunks.length) (hnodup : wanted.Nodup) :
    ∃ out o, s.offload swarmId cm ask cancelled turn ttlSecs wanted = some (out, o) ∧
      s.Exact swarmId cm ask cancelled turn ttlSecs wanted out o := by
  rw [offload]
  cases hr : s.relay with
  | none => exact ⟨_, _, rfl, exact_quiet rfl (fun p hp => .inl hp) nofun⟩
  | some r =>
      have hlen : wanted.length ≤ 2 ^ 32 := (length_le_of_nodup hin hnodup).trans hsize
      have hsome : (wanted.mapM (s.chunks[·]?)).isSome = true :=
        isSome_mapM_iff.2 fun p hp => by simp [hin p hp]
      obtain ⟨hashes, hhashes⟩ := Option.isSome_iff_exists.1 hsome
      have hcount : wanted.length = hashes.length := (mapM_eq_some_iff.1 hhashes).length_eq
      have hreported : ∀ p, s.Reported cm ask wanted p ↔
          ∃ i ∈ (relayHave cm ask hashes).toOption.getD ∅, wanted[i]? = some p :=
        reported_iff hhashes
      have hheld := fun i (hi : i ∈ (relayHave cm ask hashes).toOption.getD ∅) =>
        hcount ▸ lt_of_mem_answer (hcount ▸ hlen) hi
      simp only [hhashes, Option.bind_eq_bind, Option.bind_some]
      generalize (relayHave cm ask hashes).toOption.getD ∅ = held at hreported hheld
      obtain ⟨already, halready, hmem⟩ := exists_already hheld
      simp only [halready, Option.bind_some]
      have hmem' : ∀ p, p ∈ already ↔ s.Reported cm ask wanted p := fun p => by
        rw [hmem, hreported]
      have hwanted : ∀ p ∈ already, p ∈ wanted := fun p hp => by
        obtain ⟨i, -, hget⟩ := (hmem p).1 hp
        exact List.mem_of_getElem? hget
      have hfirst : ∀ p, p ∈ s.onRelay ∪ already.toFinset ↔
          p ∈ s.onRelay ∨ (p ∈ wanted ∧ s.Reported cm ask wanted p) := by
        intro p
        rw [Finset.mem_union, List.mem_toFinset, ← hmem' p]
        exact or_congr_right (iff_and_self.2 (hwanted p))
      rw [first_spec fun p hp => (hin p (hwanted p hp)).trans_le hsize]
      have htodo : ∀ p, p ∈ (wanted.zipIdx.filter fun x => x.2 % 2 ^ 32 ∉ held).map (·.1) ↔
          p ∈ wanted ∧ ¬ s.Reported cm ask wanted p := by
        intro p
        rw [mem_todo_iff hlen, hreported]
        exact mem_unheld_iff hnodup p
      have hdistinct : ((wanted.zipIdx.filter fun x => x.2 % 2 ^ 32 ∉ held).map (·.1)).Nodup := by
        have hsub := (List.filter_sublist (p := fun x => decide (x.2 % 2 ^ 32 ∉ held))
          (l := wanted.zipIdx)).map (·.1)
        rw [List.zipIdx_map_fst] at hsub
        exact hsub.nodup hnodup
      generalize (wanted.zipIdx.filter fun x => x.2 % 2 ^ 32 ∉ held).map (·.1) = todo
        at htodo hdistinct
      split_ifs with hnone
      · refine ⟨_, _, rfl, exact_quiet rfl (fun p hp => (hfirst p).1 hp) fun g hg => ?_⟩
        refine ⟨(Offload.complete.inj hg).symm, fun p hp => ?_⟩
        have hreported' : s.Reported cm ask wanted p := by
          by_contra hnot
          have := (htodo p).2 ⟨hp, hnot⟩
          rw [hnone] at this
          cases this
        exact ⟨(hfirst p).2 (.inr ⟨hp, hreported'⟩), hreported'⟩
      · have hbatches : ∀ batch ∈ batches seedBatch todo, ∀ p ∈ batch, p < s.chunks.length := by
          intro batch hb p hp
          have hflat : p ∈ (batches seedBatch todo).flatten := List.mem_flatten.2 ⟨batch, hb, hp⟩
          rw [flatten_batches (by decide)] at hflat
          exact hin p ((htodo p).1 hflat).1
        obtain ⟨out, o', n, k, heq, hwent⟩ :
            ∃ out o' n k, s.seedBatches swarmId cancelled turn ttlSecs r 0
              (batches seedBatch todo) none { onRelay := s.onRelay ∪ already.toFinset } =
                some (out, o') ∧
              Went s swarmId cancelled turn ttlSecs r 0 (batches seedBatch todo) none
                { onRelay := s.onRelay ∪ already.toFinset } out o' n k :=
          seedBatches_went hbatches hsize 0 none _
        exact ⟨out, o', heq, exact_of_went hr hdistinct htodo rfl hfirst hwent⟩

end Offload

section Park

variable (s : SendSession) (swarmId : List Hash → ℕ → String) (cm : CaseMap)
  (ask : ℕ → String → Reply) (cancelled : ℕ → Bool) (turn : ℕ → SeedPost → Turn) (ttlSecs : ℕ)

/-- Of a payload of up to 2^32 pieces, whatever distinct pieces are wanted, whatever the relay
answers and whenever it is cancelled, an offload is exact. Parking reports the shortest lifetime
that was named for a batch it had taken, or the one that was asked for if none was. -/
theorem offload_exact (hsize : s.chunks.length ≤ 2 ^ 32) :
    (∀ wanted : List ℕ, (∀ p ∈ wanted, p < s.chunks.length) → wanted.Nodup →
      ∃ out o, s.offload swarmId cm ask cancelled turn ttlSecs wanted = some (out, o) ∧
        s.Exact swarmId cm ask cancelled turn ttlSecs wanted out o) ∧
    ∃ res o, s.parkOnRelay swarmId cm ask cancelled turn ttlSecs = some (res, o) ∧
      ∀ L, res = some L → (∀ p < s.chunks.length, p ∈ o.onRelay) ∧
        (∀ b batch x, o.asked[b]? = some batch →
          s.Took swarmId turn ttlSecs b batch (some x) → L ≤ x) ∧
        ((∃ b batch, o.asked[b]? = some batch ∧ s.Took swarmId turn ttlSecs b batch (some L)) ∨
          (L = ttlSecs ∧ ∀ b batch t, o.asked[b]? = some batch →
            s.Took swarmId turn ttlSecs b batch t → t = none)) := by
  refine ⟨fun wanted hin hnodup => offload_spec hsize hin hnodup, ?_⟩
  obtain ⟨out, o, heq, hexact⟩ : ∃ out o,
      s.offload swarmId cm ask cancelled turn ttlSecs (List.range s.chunks.length) =
        some (out, o) ∧
      s.Exact swarmId cm ask cancelled turn ttlSecs (List.range s.chunks.length) out o :=
    offload_spec hsize (fun p hp => List.mem_range.1 hp) List.nodup_range
  rw [parkOnRelay, heq]
  cases out with
  | complete granted =>
      refine ⟨_, _, rfl, fun L hL => ?_⟩
      obtain ⟨hbelow, hfrom⟩ := hexact.granted granted rfl
      refine ⟨fun p hp => (hexact.complete granted rfl p (List.mem_range.2 hp)).1, ?_, ?_⟩
      · intro b batch x hb hx
        obtain ⟨g, rfl, hle⟩ := hbelow b batch (some x) hb hx x rfl
        rwa [← Option.some.inj hL]
      · cases granted with
        | some g =>
            obtain rfl : g = L := Option.some.inj hL
            exact .inl (hfrom g rfl)
        | none =>
            refine .inr ⟨(Option.some.inj hL).symm, fun b batch t hb ht => ?_⟩
            cases t with
            | none => rfl
            | some x =>
                obtain ⟨g, hg, -⟩ := hbelow b batch (some x) hb ht x rfl
                cases hg
  | capped => exact ⟨_, _, rfl, nofun⟩
  | full => exact ⟨_, _, rfl, nofun⟩
  | failed => exact ⟨_, _, rfl, nofun⟩
  | cancelled => exact ⟨_, _, rfl, nofun⟩

end Park

/-! ### A relay with one of two pieces -/

def twoPieces : SendSession where
  chunks := [zeroHash, ⟨List.replicate 32 1, by decide⟩]
  totalSize := 2
  addr := "a"
  relay := some ⟨"http://r", "b", "t"⟩

/-- It says that it has the first. -/
def hasFirst : ℕ → String → Reply := fun _ _ =>
  .answered 200 (some (encodeHaveBitfield .plain [1]))

/-- And it keeps what it is asked to keep for a week. -/
def takesAll : ℕ → SeedPost → Turn := fun _ _ => .answered 200 "200 OK" (some "604800") (some "ok")

theorem relayHave_hasFirst (h k : Hash) : relayHave .plain hasFirst [h, k] = .ok {0} := by
  have hcut : batches haveBatch [h, k] = [[h, k]] := by
    rw [batches_of_ne_nil (by decide) (by simp)]
    simp [haveBatch]
  have hbits : decodeHaveBitfield .plain (encodeHaveBitfield .plain [1]) 2 = .ok [1] :=
    decodeHaveBitfield_encode CaseMap.plain_ascii [1] rfl
  have hfound : (List.range 2).filter (Recv.bitfieldHas [1]) = [0] := by decide +kernel
  rw [relayHave, hcut, askBatches, hasFirst]
  simp only [List.length_cons, List.length_nil, Nat.zero_add, Nat.reduceAdd, hbits]
  rw [if_neg (by decide), if_neg (by decide)]
  change askBatches .plain hasFirst 1 [] (∅ ∪ (((List.range 2).filter (Recv.bitfieldHas [1])).map
    fun i => (0 * haveBatch + i) % 2 ^ 32).toFinset) = .ok {0}
  rw [hfound]
  rfl

theorem parkOnRelay_twoPieces : twoPieces.parkOnRelay (fun _ _ => "") .plain hasFirst
    (fun _ => false) takesAll 604800 =
      some (some 604800, ⟨{0, 1}, [[1]], [.backfilled, .offloaded]⟩) := by
  have hone : batches seedBatch [1] = [[1]] := by
    rw [batches_of_ne_nil (by decide) (by simp)]
    simp [seedBatch]
  have hsort : Finset.sort ({0} : Finset ℕ) = [0] := Finset.sort_singleton _ 0
  have htold : told (some "604800") = some 604800 := by decide +kernel
  have hheld := relayHave_hasFirst zeroHash ⟨List.replicate 32 1, by decide⟩
  have hoffload : twoPieces.offload (fun _ _ => "") .plain hasFirst (fun _ => false) takesAll 604800
      [0, 1] = some (.complete (some 604800), ⟨{0, 1}, [[1]], [.backfilled]⟩) := by
    have hhashes : [0, 1].mapM (twoPieces.chunks[·]?) = some twoPieces.chunks := rfl
    have halready : [0].mapM ([0, 1][·]?) = some [0] := rfl
    have htodo : (([0, 1].zipIdx.filter fun x => x.2 % 2 ^ 32 ∉ ({0} : Finset ℕ)).map (·.1)) =
        [1] := by decide +kernel
    simp only [offload, twoPieces, Option.bind_eq_bind] at hhashes ⊢
    rw [hhashes]
    simp only [Option.bind_some, hheld, Except.toOption, Option.getD_some, hsort, halready, htodo,
      hone]
    rfl
  rw [parkOnRelay]
  have hall : List.range twoPieces.chunks.length = [0, 1] := rfl
  rw [hall, hoffload]
  rfl

theorem offload_exact_twoPieces : twoPieces.chunks.length ≤ 2 ^ 32 ∧
    ∃ res o, twoPieces.parkOnRelay (fun _ _ => "") .plain hasFirst (fun _ => false) takesAll
      604800 = some (res, o) ∧ ∀ L, res = some L → ∀ p < 2, p ∈ o.onRelay := by
  have hsize : twoPieces.chunks.length ≤ 2 ^ 32 := by decide
  obtain ⟨-, res, o, heq, hpark⟩ := offload_exact twoPieces (fun _ _ => "") .plain hasFirst
    (fun _ => false) takesAll 604800 hsize
  exact ⟨hsize, res, o, heq, fun L hL => (hpark L hL).1⟩

/-- The first piece is there already and goes in an hour; the lifetime that is reported is that of
the second. -/
theorem not_park_within_lives : ¬ ∀ (s : SendSession) (swarmId : List Hash → ℕ → String)
    (cm : CaseMap) (ask : ℕ → String → Reply) (cancelled : ℕ → Bool) (turn : ℕ → SeedPost → Turn)
    (ttlSecs L : ℕ) (o : Offloading) (lives : ℕ → ℕ),
    s.parkOnRelay swarmId cm ask cancelled turn ttlSecs = some (some L, o) →
    (∀ b batch x, o.asked[b]? = some batch → s.Took swarmId turn ttlSecs b batch (some x) →
      ∀ p ∈ batch, lives p = x) →
    ∀ p < s.chunks.length, L ≤ lives p := by
  intro h
  have hlate := h twoPieces (fun _ _ => "") .plain hasFirst (fun _ => false) takesAll 604800 604800
    _ (fun p => if p = 0 then 3600 else 604800) parkOnRelay_twoPieces ?_ 0 (by decide)
  · exact absurd hlate (by decide)
  · intro b batch x hb htook p hp
    cases b with
    | zero =>
        obtain rfl := Option.some.inj hb
        obtain rfl := List.mem_singleton.1 hp
        obtain ⟨r, -, post, status, line, ttl, body, -, hturn, -, -, hx⟩ := htook
        obtain ⟨-, -, rfl, -⟩ := Turn.answered.inj hturn
        have htold : told (some "604800") = some 604800 := by decide +kernel
        exact (Option.some.inj (hx.trans htold)).symm
    | succ b => cases hb

end SendSession

end Arvolo.Send
