import Arvolo.Lib.Machine
import Arvolo.Lib.Pool
import Arvolo.Lib.Traverse
import Arvolo.Send.Providers

/-!
The hashing pass, `PreparedChunks::compute` of `core/src/chunked.rs`.

One thread reads the payload slice by slice and hands each slice to the next worker in turn,
waiting until that worker is free; the workers seal and hash, and their answers are put in order
by index once all of them are done. Every run ends, and up to 2^32 slices it ends with what
sealing the slices one after the other gives: the slices that were read are at all times those
in somebody's hands and those answered, each once.
-/

namespace Arvolo.Send

open Crypto Lib

/-! ### Reading -/

/-- An open file: what is left of it, and how many bytes each read hands over at most, less
one. -/
structure Reader where
  rest : Bytes
  grain : ℕ → ℕ

def Reader.read (r : Reader) (want : ℕ) : Bytes × Reader :=
  let n := min want (r.grain 0 + 1)
  (r.rest.take n, ⟨r.rest.drop n, fun m => r.grain (m + 1)⟩)

/-- Read until `want` bytes are there or the file ends. -/
def fill (r : Reader) (want : ℕ) : Bytes × Reader :=
  if want = 0 then ([], r)
  else
    let got := r.read want
    if got.1 = [] then ([], got.2)
    else
      let more := fill got.2 (want - got.1.length)
      (got.1 ++ more.1, more.2)
  termination_by want
  decreasing_by
    have hpos : 0 < (r.read want).1.length := List.length_pos_iff.2 ‹_›
    omega

/-- However the file hands its bytes over, the buffer is filled. -/
theorem fill_spec (r : Reader) (want : ℕ) :
    (fill r want).1 = r.rest.take want ∧ (fill r want).2.rest = r.rest.drop want := by
  induction want using Nat.strong_induction_on generalizing r with
  | _ want ih =>
    unfold fill
    by_cases hwant : want = 0
    · simp [hwant]
    rw [if_neg hwant]
    set n := min want (r.grain 0 + 1) with hn
    have hread : r.read want = (r.rest.take n, ⟨r.rest.drop n, fun m => r.grain (m + 1)⟩) := rfl
    simp only [hread]
    by_cases hempty : r.rest.take n = []
    · have hrest : r.rest = [] := by
        rcases List.take_eq_nil_iff.1 hempty with hzero | hrest
        · omega
        · exact hrest
      simp [hrest]
    · rw [if_neg hempty]
      have hpos : 0 < (r.rest.take n).length := List.length_pos_iff.2 hempty
      obtain ⟨hmore, hleft⟩ := ih (want - (r.rest.take n).length) (by omega)
        ⟨r.rest.drop n, fun m => r.grain (m + 1)⟩
      rw [hmore, hleft]
      have hlen : (r.rest.take n).length = min n r.rest.length := List.length_take
      rcases Nat.le_total n r.rest.length with hle | hle
      · rw [hlen, min_eq_left hle, ← List.take_add, List.drop_drop]
        have hsum : n + (want - n) = want := by omega
        simp [hsum]
      · have htake : r.rest.take n = r.rest := List.take_of_length_le hle
        have hdrop : r.rest.drop n = [] := List.drop_of_length_le hle
        have hbuf : r.rest.length ≤ want := by omega
        simp [htake, hdrop, List.take_of_length_le hbuf, List.drop_of_length_le hbuf]

/-! ### The slices of a payload -/

/-- The number of slices of `size` bytes, the last of which may be short. -/
def slices (size len : ℕ) : ℕ := (len + (size - 1)) / size

def slice (size : ℕ) (payload : Bytes) (i : ℕ) : Bytes := (payload.drop (i * size)).take size

section Slices

variable {size : ℕ}

theorem lt_slices (hsize : 0 < size) {i len : ℕ} : i < slices size len ↔ i * size < len := by
  rw [slices, Nat.lt_iff_add_one_le, Nat.le_div_iff_mul_le hsize, Nat.add_one_mul]
  omega

theorem slices_sub (hsize : 0 < size) {len : ℕ} (hlen : 0 < len) :
    slices size (len - size) + 1 = slices size len := by
  refine eq_of_forall_lt_iff fun i => ?_
  cases i with
  | zero => simp [lt_slices hsize, hlen]
  | succ i =>
      rw [Nat.add_lt_add_iff_right, lt_slices hsize, lt_slices hsize, Nat.add_one_mul]
      omega

/-- The slices cover every byte once. -/
theorem flatten_slices (hsize : 0 < size) (payload : Bytes) :
    ((List.range (slices size payload.length)).map (slice size payload)).flatten = payload := by
  have hpart : ∀ n, ((List.range n).map (slice size payload)).flatten =
      payload.take (n * size) := by
    intro n
    induction n with
    | zero => simp
    | succ n ih =>
        rw [List.range_succ, List.map_append, List.flatten_append, ih, Nat.add_one_mul,
          List.take_add]
        simp [slice]
  have hall : payload.length ≤ slices size payload.length * size :=
    Nat.not_lt.1 fun h => Nat.lt_irrefl _ ((lt_slices hsize).2 h)
  rw [hpart, List.take_of_length_le hall]

end Slices

/-! ### The pool -/

structure Job where
  idx : ℕ
  buf : Bytes
  deriving DecidableEq

structure Pool where
  reader : Reader
  /-- The index of the next slice, a `u32`. -/
  idx : ℕ := 0
  /-- A slice that was read and waits for its worker. -/
  hand : Option Job := none
  /-- The end of the file has not been seen. -/
  reading : Bool := true
  /-- What each worker is sealing. -/
  workers : List (Option Job)
  /-- The answers, in the order in which they came. -/
  done : List (Option (ℕ × Bytes)) := []

inductive PoolEvent
  | read
  | feed
  | finish (j : ℕ)

/-- The number of workers, by what the machine says of itself. -/
def prepWorkers (parallelism : Option ℕ) : ℕ := max 1 (min 4 (parallelism.getD 1))

section Pass

variable (prims : Prims) (size : ℕ) (key payload : Bytes)

/-- Seal and hash one slice. -/
def answer (job : Job) : Option (ℕ × Bytes) :=
  (sealChunk prims.aead key job.idx (slices size payload.length % 2 ^ 32) job.buf).map fun ct =>
    (job.idx, prims.blake3 ct)

namespace Pool

def start (grain : ℕ → ℕ) (workers : ℕ) : Pool where
  reader := ⟨payload, grain⟩
  workers := List.replicate workers none

/-- What one thread does next. -/
def step (s : Pool) : PoolEvent → Option Pool
  | .read =>
      if s.hand = none ∧ s.reading then
        let got := fill s.reader size
        if got.1 = [] then some { s with reader := got.2, reading := false }
        else some { s with reader := got.2, hand := some ⟨s.idx, got.1⟩ }
      else none
  | .feed =>
      match s.hand with
      | some job =>
          -- round-robin: a slice waits for its own worker, even where another is free
          let w := job.idx % s.workers.length
          if s.workers[w]? = some none then
            some { s with hand := none, workers := s.workers.set w (some job),
                          idx := (s.idx + 1) % 2 ^ 32 }
          else none
      | none => none
  | .finish j =>
      match s.workers[j]? with
      | some (some job) =>
          some { s with workers := s.workers.set j none,
                        done := s.done ++ [answer prims size key payload job] }
      | _ => none

/-- The reader has returned, and so have the workers. -/
def Finished (s : Pool) : Prop := s.reading = false ∧ s.hand = none ∧ ∀ w ∈ s.workers, w = none

/-- The digests in file order, from the answers. -/
def result (s : Pool) : Option Prepared := do
  let got ← s.done.mapM id
  let chunks ← (collect got).mapM id
  return ⟨key, payload.length, chunks⟩

end Pool

/-- Sealing the slices one after the other. -/
def sequential : Option Prepared := do
  let total := slices size payload.length
  let chunks ← (List.range total).mapM fun i =>
    (sealChunk prims.aead key i total (slice size payload i)).map prims.blake3
  return ⟨key, payload.length, chunks⟩

end Pass

/-! ### What is in whose hands -/

section Spread

variable {prims : Prims} {size : ℕ} {key payload : Bytes}

/-- The `k`-th slice, under its index. -/
def jobOf (size : ℕ) (payload : Bytes) (k : ℕ) : Job := ⟨k % 2 ^ 32, slice size payload k⟩

namespace Pool

/-- The slices that were read and are not answered yet. -/
def inFlight (s : Pool) : List Job := s.hand.toList ++ (s.workers.map Option.toList).flatten

/-- `k` slices have been read; those of `order` are answered, in that order, and those of `held`
are on their way. -/
structure Spread (prims : Prims) (size : ℕ) (key payload : Bytes) (s : Pool) (k : ℕ)
    (order held : List ℕ) : Prop where
  staffed : 0 < s.workers.length
  rest : s.reader.rest = payload.drop (k * size)
  idx : s.idx = (if s.hand.isSome then k - 1 else k) % 2 ^ 32
  read_le : k ≤ slices size payload.length
  ended : s.reading = false → slices size payload.length ≤ k
  inFlight : s.inFlight.Perm (held.map (jobOf size payload))
  done : s.done = order.map fun k => answer prims size key payload (jobOf size payload k)
  perm : (order ++ held).Perm (List.range k)

/-- Every slice that was read is somewhere. -/
def Inv (prims : Prims) (size : ℕ) (key payload : Bytes) (s : Pool) : Prop :=
  ∃ k order held, Spread prims size key payload s k order held

/-- What is left to do: three steps a slice, and the read that sees the end. -/
def todo (size : ℕ) (s : Pool) : ℕ :=
  3 * slices size s.reader.rest.length + (if s.reading then 1 else 0) +
    2 * s.hand.toList.length + ((s.workers.map Option.toList).map List.length).sum

theorem inv_start (grain : ℕ → ℕ) {workers : ℕ} (hworkers : 0 < workers) :
    Inv prims size key payload (start payload grain workers) := by
  refine ⟨0, [], [], ?_⟩
  constructor
  · simpa [start] using hworkers
  · simp [start]
  · simp [start]
  · exact Nat.zero_le _
  · exact fun h => nomatch h
  · simp [start, Pool.inFlight, List.map_replicate]
  · rfl
  · simp

theorem todo_start (grain : ℕ → ℕ) (workers : ℕ) :
    todo size (start payload grain workers) = 3 * slices size payload.length + 1 := by
  simp [todo, start, List.map_replicate]

theorem inv_read (hsize : 0 < size) {s t : Pool} (h : Inv prims size key payload s)
    (ht : s.step prims size key payload .read = some t) :
    Inv prims size key payload t ∧ todo size t + 1 = todo size s := by
  obtain ⟨k, order, held, hs⟩ := h
  simp only [step] at ht
  split_ifs at ht with hidle hempty
  · -- the end of the file
    obtain rfl := Option.some.inj ht
    obtain ⟨htake, hdrop⟩ := fill_spec s.reader size
    have hrest : s.reader.rest = [] := by
      rw [htake, List.take_eq_nil_iff] at hempty
      exact hempty.resolve_left hsize.ne'
    have hend : slices size payload.length ≤ k := by
      have hlen := congrArg List.length (hs.rest.symm.trans hrest)
      rw [List.length_drop, List.length_nil] at hlen
      exact Nat.not_lt.1 fun hlt => by have := (lt_slices hsize).1 hlt; omega
    refine ⟨⟨k, order, held, hs.staffed, ?_, hs.idx, hs.read_le, fun _ => hend, hs.inFlight,
      hs.done, hs.perm⟩, ?_⟩
    · rw [hdrop, hrest, List.drop_nil, ← hs.rest, hrest]
    · simp [todo, hdrop, hrest, hidle.2]
      omega
  · -- one more slice
    obtain rfl := Option.some.inj ht
    obtain ⟨htake, hdrop⟩ := fill_spec s.reader size
    have hslice : (fill s.reader size).1 = slice size payload k := by rw [htake, hs.rest]; rfl
    have hpos : 0 < s.reader.rest.length := by
      rw [htake, List.take_eq_nil_iff] at hempty
      exact List.length_pos_iff.2 fun hnil => hempty (.inr hnil)
    have hlt : k < slices size payload.length := by
      rw [hs.rest, List.length_drop] at hpos
      exact (lt_slices hsize).2 (by omega)
    have hidx : s.idx = k % 2 ^ 32 := by simpa [hidle.1] using hs.idx
    refine ⟨⟨k + 1, order, k :: held, hs.staffed, ?_, ?_, hlt, ?_, ?_, hs.done, ?_⟩, ?_⟩
    · rw [hdrop, hs.rest, List.drop_drop, Nat.add_one_mul]
    · simpa using hidx
    · intro hend
      simp [hidle.2] at hend
    · have hflight : s.inFlight = (s.workers.map Option.toList).flatten := by
        simp [Pool.inFlight, hidle.1]
      have hheld := hs.inFlight
      rw [hflight] at hheld
      have hjob : (⟨s.idx, (fill s.reader size).1⟩ : Job) = jobOf size payload k := by
        rw [jobOf, hidx, hslice]
      simp only [Pool.inFlight, Option.toList_some, List.singleton_append, List.map_cons, hjob]
      exact hheld.cons _
    · rw [List.range_succ]
      refine List.perm_middle.trans ?_
      exact (hs.perm.cons k).trans (List.perm_append_singleton k _).symm
    · have hfall := slices_sub hsize hpos
      simp [todo, hdrop, hidle.1, hidle.2]
      omega

theorem inv_feed {s t : Pool} (h : Inv prims size key payload s)
    (ht : s.step prims size key payload .feed = some t) :
    Inv prims size key payload t ∧ todo size t + 1 = todo size s := by
  obtain ⟨k, order, held, hs⟩ := h
  simp only [step] at ht
  split at ht
  next job hhand =>
    split_ifs at ht with hfree
    obtain rfl := Option.some.inj ht
    set w := job.idx % s.workers.length with hw
    have hempty : (s.workers.map Option.toList)[w]? = some [] := by
      rw [List.getElem?_map, hfree]
      rfl
    have hset : (s.workers.set w (some job)).map Option.toList =
        (s.workers.map Option.toList).set w [job] := by
      rw [List.map_set, Option.toList_some]
    have hkpos : 0 < k := by
      have hlen := hs.inFlight.length_eq
      have hall := hs.perm.length_eq
      simp only [Pool.inFlight, hhand, Option.toList_some, List.length_append,
        List.length_singleton, List.length_map, List.length_range] at hlen hall
      omega
    refine ⟨⟨k, order, held, ?_, hs.rest, ?_, hs.read_le, hs.ended, ?_, hs.done, hs.perm⟩, ?_⟩
    · rw [List.length_set]
      exact hs.staffed
    · have hidx := hs.idx
      simp only [hhand, Option.isSome_some, if_true] at hidx
      simp only [Option.isSome_none, Bool.false_eq_true, if_false, hidx, Nat.mod_add_mod]
      rw [Nat.sub_add_cancel hkpos]
    · refine List.Perm.trans ?_ hs.inFlight
      simp only [Pool.inFlight, hhand, Option.toList_some, Option.toList_none, List.nil_append, hset]
      have hnow : ((s.workers.map Option.toList).set w [job])[w]? = some [job] :=
        List.getElem?_set_self (List.getElem?_eq_some_iff.1 hempty).1
      refine (flatten_perm_set hnow).trans ?_
      rw [List.set_set]
      exact ((flatten_perm_set hempty).symm).append_left [job]
    · have hsum := sum_map_set List.length hempty [job]
      simp only [todo, hhand, hset, Option.toList_some, Option.toList_none, List.length_singleton,
        List.length_nil] at hsum ⊢
      omega
  next => exact nomatch ht

theorem inv_finish {s t : Pool} {j : ℕ} (h : Inv prims size key payload s)
    (ht : s.step prims size key payload (.finish j) = some t) :
    Inv prims size key payload t ∧ todo size t + 1 = todo size s := by
  obtain ⟨k, order, held, hs⟩ := h
  simp only [step] at ht
  split at ht
  next job hbusy =>
    obtain rfl := Option.some.inj ht
    have hjob : (s.workers.map Option.toList)[j]? = some [job] := by
      rw [List.getElem?_map, hbusy]
      rfl
    have hset : (s.workers.set j none).map Option.toList =
        (s.workers.map Option.toList).set j [] := by
      rw [List.map_set, Option.toList_none]
    have hsplit : s.inFlight.Perm
        (job :: (s.hand.toList ++ ((s.workers.set j none).map Option.toList).flatten)) := by
      rw [hset]
      refine ((flatten_perm_set hjob).append_left _).trans ?_
      rw [List.singleton_append]
      exact List.perm_middle
    -- which of the slices it was
    obtain ⟨m, hm, hmjob⟩ := List.mem_map.1
      ((hs.inFlight.symm.trans hsplit).mem_iff.2 List.mem_cons_self)
    have hheld : held.Perm (m :: held.erase m) := List.perm_cons_erase hm
    refine ⟨⟨k, order ++ [m], held.erase m, ?_, hs.rest, hs.idx, hs.read_le, hs.ended, ?_, ?_, ?_⟩,
      ?_⟩
    · rw [List.length_set]
      exact hs.staffed
    · refine (List.perm_cons job).1 ?_
      refine hsplit.symm.trans (hs.inFlight.trans ?_)
      rw [← hmjob, ← List.map_cons]
      exact hheld.map _
    · rw [List.map_append, ← hs.done, List.map_singleton, hmjob]
    · rw [List.append_assoc]
      exact (hheld.symm.append_left order).trans hs.perm
    · have hsum := sum_map_set List.length hjob []
      simp only [todo, hset, List.length_singleton, List.length_nil] at hsum ⊢
      omega
  next => exact nomatch ht

theorem inv_step (hsize : 0 < size) (s : Pool) (e : PoolEvent) (t : Pool)
    (h : Inv prims size key payload s) (ht : s.step prims size key payload e = some t) :
    Inv prims size key payload t ∧ todo size t + 1 = todo size s := by
  cases e with
  | read => exact inv_read hsize h ht
  | feed => exact inv_feed h ht
  | finish j => exact inv_finish h ht

/-- Until the pool is finished, somebody can go on. -/
theorem progress {s : Pool} (h : Inv prims size key payload s) :
    s.Finished ∨ ∃ e t, s.step prims size key payload e = some t := by
  obtain ⟨k, order, held, hs⟩ := h
  have hgo : ∀ e, (s.step prims size key payload e).isSome = true →
      ∃ e t, s.step prims size key payload e = some t := fun e he =>
    ⟨e, Option.isSome_iff_exists.1 he⟩
  by_cases hbusy : ∃ (j : ℕ) (job : Job), s.workers[j]? = some (some job)
  · obtain ⟨j, job, hj⟩ := hbusy
    exact .inr (hgo (.finish j) (by simp [step, hj]))
  have hfree : ∀ w ∈ s.workers, w = none := by
    intro w hw
    obtain ⟨j, hj⟩ := List.mem_iff_getElem?.1 hw
    cases w with
    | none => rfl
    | some job => exact absurd ⟨j, job, hj⟩ hbusy
  cases hhand : s.hand with
  | some job =>
      have hlt : job.idx % s.workers.length < s.workers.length := Nat.mod_lt _ hs.staffed
      have hnone : s.workers[job.idx % s.workers.length]? = some none := by
        rw [List.getElem?_eq_getElem hlt, hfree _ (List.getElem_mem hlt)]
      exact .inr (hgo .feed (by simp [step, hhand, hnone]))
  | none =>
      cases hreading : s.reading with
      | false => exact .inl ⟨hreading, hhand, hfree⟩
      | true =>
          refine .inr (hgo .read ?_)
          by_cases hempty : (fill s.reader size).1 = [] <;> simp [step, hhand, hreading, hempty]

/-- In the end every slice has been answered once. -/
theorem order_of_finished {s : Pool} (h : Inv prims size key payload s) (hdone : s.Finished) :
    ∃ order : List ℕ, order.Perm (List.range (slices size payload.length)) ∧
      s.done = order.map fun k => answer prims size key payload (jobOf size payload k) := by
  obtain ⟨k, order, held, hs⟩ := h
  obtain ⟨hreading, hhand, hfree⟩ := hdone
  have hk : k = slices size payload.length := le_antisymm hs.read_le (hs.ended hreading)
  have hnone : s.inFlight = [] := by
    rw [Pool.inFlight, hhand, Option.toList_none, List.nil_append, List.flatten_eq_nil_iff]
    intro l hl
    obtain ⟨w, hw, rfl⟩ := List.mem_map.1 hl
    rw [hfree w hw, Option.toList_none]
  have hheld : held = [] := by
    have hlen := hs.inFlight.length_eq
    rw [hnone, List.length_nil, List.length_map] at hlen
    exact List.eq_nil_of_length_eq_zero hlen.symm
  have hperm := hs.perm
  rw [hheld, List.append_nil, hk] at hperm
  exact ⟨order, hperm, hs.done⟩

end Pool

end Spread

/-! ### Putting the answers in order -/

theorem length_place (hashes : List (Option Bytes)) (got : ℕ × Bytes) :
    (place hashes got).length = max hashes.length (got.1 + 1) := by
  unfold place
  split
  next hle =>
    rw [List.length_set, List.length_append, List.length_replicate]
    omega
  next =>
    rw [List.length_set]
    omega

theorem length_collect_le {got : List (ℕ × Bytes)} {n : ℕ} (h : ∀ g ∈ got, g.1 < n) :
    (collect got).length ≤ n := by
  induction got using List.reverseRecOn with
  | nil => exact Nat.zero_le n
  | append_singleton got g ih =>
      rw [collect, List.foldl_append, List.foldl_cons, List.foldl_nil, length_place]
      refine max_le (ih fun x hx => h x (List.mem_append_left _ hx)) ?_
      exact h g (List.mem_append_right _ (List.mem_singleton_self g))

/-- Answers that come once each are put where they belong, in whatever order they come. -/
theorem collect_of_perm {order : List ℕ} {n : ℕ} (h : order.Perm (List.range n)) (f : ℕ → Bytes) :
    collect (order.map fun k => (k, f k)) = (List.range n).map fun k => some (f k) := by
  have hlen : (collect (order.map fun k => (k, f k))).length ≤ n := by
    refine length_collect_le fun g hg => ?_
    obtain ⟨k, hk, rfl⟩ := List.mem_map.1 hg
    exact List.mem_range.1 (h.mem_iff.1 hk)
  refine List.ext_getElem? fun i => ?_
  rcases Nat.lt_or_ge i n with hi | hi
  · have hmem : i ∈ order.reverse := List.mem_reverse.2 (h.mem_iff.2 (List.mem_range.2 hi))
    have hjoin := getElem?_collect (order.map fun k => (k, f k)) i
    rw [← List.map_reverse, List.find?_map] at hjoin
    cases hfind : order.reverse.find? ((fun g : ℕ × Bytes => decide (g.1 = i)) ∘ fun k => (k, f k)) with
    | none => exact absurd (decide_eq_true rfl) (List.find?_eq_none.1 hfind i hmem)
    | some k =>
        have hki : k = i := by simpa using List.find?_some hfind
        rw [hfind, hki] at hjoin
        have hentry : (collect (order.map fun k => (k, f k)))[i]? = some (some (f i)) := by
          cases hget : (collect (order.map fun k => (k, f k)))[i]? with
          | none => rw [hget] at hjoin; cases hjoin
          | some o =>
              rw [hget] at hjoin
              exact congrArg some hjoin
        rw [hentry, List.getElem?_map, List.getElem?_range hi, Option.map_some]
  · rw [List.getElem?_eq_none (hlen.trans hi), List.getElem?_eq_none (by simpa using hi)]

theorem u32le_mod (n : ℕ) : u32le (n % 2 ^ 32) = u32le n := by
  simp only [u32le, List.cons.injEq, and_true]
  refine ⟨?_, ?_, ?_, ?_⟩ <;>
    (refine UInt8.toNat.inj ?_; simp only [UInt8.toNat_ofNat']; omega)

/-- A chunk is sealed under what a `u32` holds of its index and of the number of chunks. -/
theorem sealChunk_mod (aead : Aead) (key : Bytes) (i total : ℕ) (m : Bytes) :
    sealChunk aead key (i % 2 ^ 32) (total % 2 ^ 32) m = sealChunk aead key i total m := by
  simp only [sealChunk, chunkNonce, chunkAad, u32le_mod]

section Order

variable {prims : Prims} {size : ℕ} {key payload : Bytes} {s : Pool}

/-- The digest of a sealed slice. -/
def digestOf (prims : Prims) (size : ℕ) (key payload : Bytes) (k : ℕ) : Bytes :=
  prims.blake3
    ((sealChunk prims.aead key k (slices size payload.length) (slice size payload k)).getD [])

theorem answer_jobOf (k : ℕ) : answer prims size key payload (jobOf size payload k) =
    (sealChunk prims.aead key k (slices size payload.length) (slice size payload k)).map
      fun ct => (k % 2 ^ 32, prims.blake3 ct) := by
  rw [answer, jobOf, sealChunk_mod]

/-- The result of a pass, from the order of its answers. -/
theorem result_eq {order : List ℕ}
    (hdone : s.done = order.map fun k => answer prims size key payload (jobOf size payload k)) :
    s.result key payload = (order.mapM fun k =>
      (sealChunk prims.aead key k (slices size payload.length) (slice size payload k)).map
        fun ct => (k % 2 ^ 32, prims.blake3 ct)).bind fun got =>
      ((collect got).mapM id).map fun chunks => ⟨key, payload.length, chunks⟩ := by
  simp only [Pool.result, hdone, List.mapM_map, Function.comp_def, id, answer_jobOf,
    Option.bind_eq_bind, Option.pure_def, Option.map_eq_bind]

/-- With a slice that the cipher refuses, neither gives anything. -/
theorem result_of_refused {order : List ℕ}
    (hperm : order.Perm (List.range (slices size payload.length)))
    (hdone : s.done = order.map fun k => answer prims size key payload (jobOf size payload k))
    {i : ℕ} (hi : i < slices size payload.length)
    (hseal : sealChunk prims.aead key i (slices size payload.length) (slice size payload i) = none) :
    s.result key payload = none ∧ sequential prims size key payload = none := by
  constructor
  · rw [result_eq hdone, mapM_eq_none (hperm.mem_iff.2 (List.mem_range.2 hi)) (by rw [hseal]; rfl)]
    rfl
  · have hwalk : ((List.range (slices size payload.length)).mapM fun i =>
        (sealChunk prims.aead key i (slices size payload.length) (slice size payload i)).map
          prims.blake3) = none :=
      mapM_eq_none (List.mem_range.2 hi) (by rw [hseal, Option.map_none])
    simp only [sequential, hwalk]
    rfl

section Sealed

variable (hseal : ∀ i < slices size payload.length,
  (sealChunk prims.aead key i (slices size payload.length) (slice size payload i)).isSome = true)
include hseal

theorem digestOf_eq {i : ℕ} (hi : i < slices size payload.length) :
    (sealChunk prims.aead key i (slices size payload.length) (slice size payload i)).map prims.blake3 =
      some (digestOf prims size key payload i) := by
  obtain ⟨ct, hct⟩ := Option.isSome_iff_exists.1 (hseal i hi)
  rw [digestOf, hct]
  rfl

theorem sequential_eq : sequential prims size key payload = some ⟨key, payload.length,
    (List.range (slices size payload.length)).map (digestOf prims size key payload)⟩ := by
  rw [sequential]
  simp only [mapM_eq_map fun i hi => digestOf_eq hseal (List.mem_range.1 hi)]
  rfl

theorem result_sealed {order : List ℕ}
    (hperm : order.Perm (List.range (slices size payload.length)))
    (hdone : s.done = order.map fun k => answer prims size key payload (jobOf size payload k)) :
    s.result key payload = ((collect (order.map fun k =>
      (k % 2 ^ 32, digestOf prims size key payload k))).mapM id).map fun chunks =>
        ⟨key, payload.length, chunks⟩ := by
  rw [result_eq hdone, mapM_eq_map fun k hk => ?_]
  · rfl
  · obtain ⟨ct, hct⟩ := Option.isSome_iff_exists.1
      (hseal k (List.mem_range.1 (hperm.mem_iff.1 hk)))
    rw [digestOf, hct]
    rfl

/-- Up to 2^32 slices the answers come out as sealing the slices in turn has them. -/
theorem result_of_le {order : List ℕ} (hle : slices size payload.length ≤ 2 ^ 32)
    (hperm : order.Perm (List.range (slices size payload.length)))
    (hdone : s.done = order.map fun k => answer prims size key payload (jobOf size payload k)) :
    s.result key payload = sequential prims size key payload := by
  have hmod : (order.map fun k => (k % 2 ^ 32, digestOf prims size key payload k)) =
      order.map fun k => (k, digestOf prims size key payload k) := by
    refine List.map_congr_left fun k hk => ?_
    have hlt : k < slices size payload.length := List.mem_range.1 (hperm.mem_iff.1 hk)
    rw [Nat.mod_eq_of_lt (by omega)]
  have hall : ((List.range (slices size payload.length)).map fun k =>
      some (digestOf prims size key payload k)).mapM id =
      some ((List.range (slices size payload.length)).map (digestOf prims size key payload)) := by
    rw [List.mapM_map]
    exact mapM_eq_map fun _ _ => rfl
  rw [result_sealed hseal hperm hdone, hmod, collect_of_perm hperm, sequential_eq hseal, hall]
  rfl

/-- Above that, answers are lost. -/
theorem result_of_lt {order : List ℕ} (hlt : 2 ^ 32 < slices size payload.length)
    (hperm : order.Perm (List.range (slices size payload.length)))
    (hdone : s.done = order.map fun k => answer prims size key payload (jobOf size payload k)) :
    s.result key payload ≠ sequential prims size key payload := by
  rw [result_sealed hseal hperm hdone, sequential_eq hseal]
  intro heq
  obtain ⟨chunks, hchunks, hsame⟩ := Option.map_eq_some_iff.1 heq
  have hlen : chunks.length ≤ 2 ^ 32 := by
    have hcollect := congrArg List.length (mapM_id_eq_some hchunks)
    rw [List.length_map] at hcollect
    rw [← hcollect]
    refine length_collect_le fun g hg => ?_
    obtain ⟨k, -, rfl⟩ := List.mem_map.1 hg
    exact Nat.mod_lt _ (by decide)
  have hcount := congrArg (fun p => p.chunks.length) hsame
  simp only [List.length_map, List.length_range] at hcount
  omega

end Sealed

/-! ### The reverse map -/

/-- Where no digest occurs twice, the reverse map is the inverse of the list. -/
theorem Prepared.index_eq_some_iff {p : Prepared} (hnodup : p.chunks.Nodup)
    (hlen : p.chunks.length ≤ 2 ^ 32) (h : Bytes) (i : ℕ) :
    p.index h = some i ↔ p.chunks[i]? = some h := by
  have hmem {j : ℕ} : (h, j) ∈ p.chunks.zipIdx.reverse ↔ p.chunks[j]? = some h := by
    rw [List.mem_reverse, List.mk_mem_zipIdx_iff_getElem?]
  have hfound {g : Bytes} {j : ℕ}
      (hfind : p.chunks.zipIdx.reverse.find? (fun c => decide (c.1 = h)) = some (g, j)) :
      p.index h = some j ∧ p.chunks[j]? = some h := by
    have hg : g = h := by simpa using List.find?_some hfind
    have hj := hmem.1 (hg ▸ List.mem_of_find?_eq_some hfind)
    have hlt : j < 2 ^ 32 := (List.getElem?_eq_some_iff.1 hj).1.trans_le hlen
    exact ⟨by rw [Prepared.index, hfind, Option.map_some, Nat.mod_eq_of_lt hlt], hj⟩
  constructor
  · intro hidx
    obtain ⟨⟨g, j⟩, hfind, -⟩ := Option.map_eq_some_iff.1 hidx
    obtain ⟨hj, hget⟩ := hfound hfind
    obtain rfl := Option.some.inj (hj.symm.trans hidx)
    exact hget
  · intro hi
    cases hfind : p.chunks.zipIdx.reverse.find? (fun c => decide (c.1 = h)) with
    | none => exact absurd (decide_eq_true rfl) (List.find?_eq_none.1 hfind (h, i) (hmem.2 hi))
    | some c =>
        obtain ⟨hj, hget⟩ := hfound hfind
        obtain ⟨hil, hieq⟩ := List.getElem?_eq_some_iff.1 hi
        obtain ⟨hjl, hjeq⟩ := List.getElem?_eq_some_iff.1 hget
        rw [hj, (List.Nodup.getElem_inj_iff hnodup).1 (hjeq.trans hieq.symm)]

theorem nodup_digests (hlawful : prims.Lawful) (hbinds : prims.aead.BindsIndex)
    (hle : slices size payload.length ≤ 2 ^ 32) (hseal : ∀ i < slices size payload.length,
      (sealChunk prims.aead key i (slices size payload.length)
        (slice size payload i)).isSome = true) :
    ((List.range (slices size payload.length)).map (digestOf prims size key payload)).Nodup := by
  refine (List.nodup_map_iff_inj_on List.nodup_range).2 fun i hi j hj heq => ?_
  have hilt := List.mem_range.1 hi
  have hjlt := List.mem_range.1 hj
  obtain ⟨ct, hct⟩ := Option.isSome_iff_exists.1 (hseal i hilt)
  obtain ⟨ct', hct'⟩ := Option.isSome_iff_exists.1 (hseal j hjlt)
  have hsame : ct = ct' := by
    simp only [digestOf, hct, hct', Option.getD_some] at heq
    exact hlawful.blake3 heq
  rw [← hsame] at hct'
  exact hbinds (by omega) (by omega) hct (hlawful.aead.decrypt_encrypt hct')

end Order

/-! ### The pass -/

/-- At the chunk size of the program, what a pass gives is `compute` in the order in which the
workers answered. -/
theorem exists_compute {prims : Prims} {key payload : Bytes} {s : Pool}
    (h : Pool.Inv prims chunkSize key payload s) (hdone : s.Finished) :
    ∃ order : List ℕ, order.Perm (List.range (reads payload.length)) ∧
      s.result key payload = compute prims key payload order := by
  obtain ⟨order, hperm, hanswers⟩ := Pool.order_of_finished h hdone
  refine ⟨order, hperm, ?_⟩
  simp only [Pool.result, hanswers, List.mapM_map, Function.comp_def, id, compute]
  rfl

/-- The pass gave what sealing the slices in turn gives, and a reverse map that is the inverse
of its digests. -/
structure Faithful (prims : Prims) (size : ℕ) (key payload : Bytes) (s : Pool) : Prop where
  result_eq : s.result key payload = sequential prims size key payload
  index : ∀ p, s.result key payload = some p → ∀ h i, p.index h = some i ↔ p.chunks[i]? = some h

/-- Whatever the number of workers and whoever goes first: no run is longer than three steps a
slice and one more, none is stuck before it is finished, and a finished one is faithful exactly
if there are at most 2^32 slices (or the cipher refuses one of them). -/
theorem prepared_faithful_iff {prims : Prims} (hlawful : prims.Lawful)
    (hbinds : prims.aead.BindsIndex) {size workers : ℕ} (hsize : 0 < size)
    (hworkers : 0 < workers) (key payload : Bytes) (grain : ℕ → ℕ) :
    ((List.range (slices size payload.length)).map (slice size payload)).flatten = payload ∧
    ∀ (es : List PoolEvent) (s : Pool),
      es.foldlM (Pool.step prims size key payload) (Pool.start payload grain workers) = some s →
      es.length ≤ 3 * slices size payload.length + 1 ∧
      (s.Finished ∨ ∃ e t, s.step prims size key payload e = some t) ∧
      (s.Finished → (Faithful prims size key payload s ↔ slices size payload.length ≤ 2 ^ 32 ∨
        ∃ i < slices size payload.length,
          sealChunk prims.aead key i (slices size payload.length) (slice size payload i) = none)) := by
  refine ⟨flatten_slices hsize payload, fun es s hrun => ?_⟩
  have hstart : Pool.Inv prims size key payload (Pool.start payload grain workers) :=
    Pool.inv_start grain hworkers
  have hinv : Pool.Inv prims size key payload s :=
    foldlM_inv (Pool.Inv prims size key payload)
      (fun s e t h ht => (Pool.inv_step hsize s e t h ht).1) hstart hrun
  have hlen := foldlM_length (Pool.todo size) (Pool.inv_step hsize) hstart hrun
  rw [Pool.todo_start] at hlen
  refine ⟨by omega, Pool.progress hinv, fun hdone => ?_⟩
  obtain ⟨order, hperm, hanswers⟩ := Pool.order_of_finished hinv hdone
  by_cases hrefused : ∃ i < slices size payload.length,
      sealChunk prims.aead key i (slices size payload.length) (slice size payload i) = none
  · obtain ⟨i, hi, hnone⟩ := hrefused
    obtain ⟨hres, hseq⟩ := result_of_refused hperm hanswers hi hnone
    refine iff_of_true ⟨hres.trans hseq.symm, fun p hp => ?_⟩ (.inr ⟨i, hi, hnone⟩)
    rw [hres] at hp
    cases hp
  · have hseal : ∀ i < slices size payload.length, (sealChunk prims.aead key i
        (slices size payload.length) (slice size payload i)).isSome = true := by
      intro i hi
      rw [Option.isSome_iff_ne_none]
      exact fun hnone => hrefused ⟨i, hi, hnone⟩
    rw [or_iff_left hrefused]
    constructor
    · intro hfaithful
      exact Nat.not_lt.1 fun hlt => result_of_lt hseal hlt hperm hanswers hfaithful.result_eq
    · intro hle
      have hres := result_of_le hseal hle hperm hanswers
      refine ⟨hres, fun p hp => ?_⟩
      rw [hres, sequential_eq hseal] at hp
      obtain rfl := Option.some.inj hp
      refine Prepared.index_eq_some_iff (nodup_digests hlawful hbinds hle hseal) ?_
      simpa using hle

theorem prepared_faithful_oneByte :
    ((List.range (slices chunkSize 1)).map (slice chunkSize [5])).flatten = [5] ∧
    ∀ (es : List PoolEvent) (s : Pool),
      es.foldlM (Pool.step bare chunkSize [9] [5])
        (Pool.start [5] (fun _ => 0) (prepWorkers none)) = some s →
      es.length ≤ 3 * slices chunkSize 1 + 1 ∧
      (s.Finished ∨ ∃ e t, s.step bare chunkSize [9] [5] e = some t) ∧
      (s.Finished → (Faithful bare chunkSize [9] [5] s ↔ slices chunkSize 1 ≤ 2 ^ 32 ∨
        ∃ i < slices chunkSize 1,
          sealChunk bare.aead [9] i (slices chunkSize 1) (slice chunkSize [5] i) = none)) :=
  prepared_faithful_iff bare_lawful spelled_bindsIndex (by decide) (by decide) [9] [5] fun _ => 0

/-- The byte past 2^56 is sealed under the index of the first slice. -/
theorem not_faithful_pebibytes : ∃ (es : List PoolEvent) (s : Pool),
    es.foldlM (Pool.step bare chunkSize [9] (List.replicate (2 ^ 56 + 1) 5))
      (Pool.start (List.replicate (2 ^ 56 + 1) 5) (fun _ => 0) (prepWorkers none)) = some s ∧
    s.Finished ∧ ¬ Faithful bare chunkSize [9] (List.replicate (2 ^ 56 + 1) 5) s := by
  generalize hpayload : List.replicate (2 ^ 56 + 1) (5 : UInt8) = payload
  have hcount : slices chunkSize payload.length = 2 ^ 32 + 1 := by
    rw [← hpayload, List.length_replicate]
    norm_num [slices, chunkSize]
  have hstart : Pool.Inv bare chunkSize [9] payload
      (Pool.start payload (fun _ => 0) (prepWorkers none)) := Pool.inv_start _ (by decide)
  obtain ⟨es, s, hrun, hdone⟩ := exists_foldlM_done (Pool.todo chunkSize)
    (Pool.inv_step (by decide)) (fun s => Pool.progress) hstart
  refine ⟨es, s, hrun, hdone, fun h => ?_⟩
  have hinv : Pool.Inv bare chunkSize [9] payload s :=
    foldlM_inv (Pool.Inv bare chunkSize [9] payload)
      (fun s e t h ht => (Pool.inv_step (by decide) s e t h ht).1) hstart hrun
  obtain ⟨order, hperm, hanswers⟩ := Pool.order_of_finished hinv hdone
  refine result_of_lt (fun i _ => ?_) (by omega) hperm hanswers h.result_eq
  refine spelled_total _ _ _ _ (le_trans (List.length_take_le _ _) ?_)
  norm_num [chunkSize]

end Arvolo.Send
