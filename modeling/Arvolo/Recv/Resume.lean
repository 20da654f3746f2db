import Arvolo.Recv.Loop

/-!
How `recv_chunked` picks a download up: the sidecar is read, each piece it
claims is re-checked against the file, and the loop starts from what is left.

The sidecar is matched to the ticket by its length alone. Re-checking looks at
the length of the file, and at its bytes only when asked to.
-/

namespace Arvolo.Recv

open Crypto

/-- The resume switches, `ARVOLO_RESUME_TRUST` and `ARVOLO_RESUME_VERIFY`. -/
structure Settings where
  trust : Bool := false
  deep : Bool := false

def readSidecar (sidecar : Option Bytes) (total : ℕ) : Bytes :=
  match sidecar with
  | some b => if b.length = bitfieldBytes total then b else bitfieldNew total
  | none => bitfieldNew total

/-- The plaintext length of piece `i`; the last one is short. -/
def Ticket.plainLen (t : Ticket) (i : ℕ) : ℕ :=
  if i + 1 = t.total then t.totalSize - i * t.chunkSize else t.chunkSize

/-- Where piece `i` lies in a file. -/
def Ticket.region (t : Ticket) (i : ℕ) (file : Bytes) : Bytes :=
  (file.drop (i * t.chunkSize)).take (t.plainLen i)

/-- Whether the file bears a claimed piece out: it is long enough, and, in a deep
check, its bytes seal to the ticket's digest. -/
def bearsOut (c : Config) (file : Bytes) (deep : Bool) (i : ℕ) : Bool :=
  decide (i * c.ticket.chunkSize + c.ticket.plainLen i ≤ file.length) &&
    (!deep ||
      match sealChunk c.aead c.ticket.key i c.ticket.total (c.ticket.region i file) with
      | some ct => decide (c.ticket.chunks[i]? = some (c.hash ct))
      | none => false)

def revalidateHave (c : Config) (file bits : Bytes) (deep : Bool) : Bytes :=
  ((List.range c.ticket.total).filter fun i => bitfieldHas bits i && bearsOut c file deep i).foldl
    bitfieldSet (bitfieldNew c.ticket.total)

/-- Everything before the loop. `room` is the answer of the free-space check. -/
def Loop.resume (c : Config) (settings : Settings) (stages : StageFiles) (out : Bytes)
    (sidecar : Option Bytes) (saved : Saved) (room : Bool) : Loop :=
  let bits := readSidecar sidecar c.ticket.total
  let before := bitfieldCount bits
  let s :=
    if 0 < before ∧ settings.trust = false then
      let checked := revalidateHave c out bits settings.deep
      let after := bitfieldCount checked
      let s := Loop.start c.ticket checked stages out
        (if after < before then writeSidecar sidecar checked saved else sidecar)
      -- the whole partial is gone: leave it to the user
      if after = 0 then { s with exit := some .paused } else s
    else Loop.start c.ticket bits stages out sidecar
  if room then s else { s with exit := some .paused }

/-! ### The restored bits -/

@[simp] theorem length_readSidecar (sidecar : Option Bytes) (total : ℕ) :
    (readSidecar sidecar total).length = bitfieldBytes total := by
  unfold readSidecar
  split
  · split_ifs with h
    · exact h
    · simp
  · simp

theorem length_foldl_bitfieldSet (l : List ℕ) (bf : Bytes) :
    (l.foldl bitfieldSet bf).length = bf.length := by
  induction l generalizing bf with
  | nil => rfl
  | cons i l ih => rw [List.foldl_cons, ih, length_bitfieldSet]

theorem bitfieldHas_foldl_set {l : List ℕ} {bf : Bytes} (h : ∀ i ∈ l, i / 8 < bf.length) (j : ℕ) :
    bitfieldHas (l.foldl bitfieldSet bf) j = true ↔ bitfieldHas bf j = true ∨ j ∈ l := by
  induction l generalizing bf with
  | nil => simp
  | cons i l ih =>
      have hi : i / 8 < bf.length := h i List.mem_cons_self
      have htail : ∀ k ∈ l, k / 8 < (bitfieldSet bf i).length := by
        intro k hk
        rw [length_bitfieldSet]
        exact h k (List.mem_cons_of_mem _ hk)
      rw [List.foldl_cons, ih htail, bitfieldHas_set hi, Bool.or_eq_true, decide_eq_true_eq,
        List.mem_cons]
      constructor
      · rintro ((hj | rfl) | hj)
        · exact .inl hj
        · exact .inr (.inl rfl)
        · exact .inr (.inr hj)
      · rintro (hj | rfl | hj)
        · exact .inl (.inl hj)
        · exact .inl (.inr rfl)
        · exact .inr hj

@[simp] theorem length_revalidateHave (c : Config) (file bits : Bytes) (deep : Bool) :
    (revalidateHave c file bits deep).length = bitfieldBytes c.ticket.total := by
  rw [revalidateHave, length_foldl_bitfieldSet, length_bitfieldNew]

/-- The pieces that survive the re-check. -/
theorem bitfieldHas_revalidateHave {c : Config} {file bits : Bytes} {deep : Bool} {i : ℕ} :
    bitfieldHas (revalidateHave c file bits deep) i = true ↔
      i < c.ticket.total ∧ bitfieldHas bits i = true ∧ bearsOut c file deep i = true := by
  unfold revalidateHave
  rw [bitfieldHas_foldl_set]
  · simp
  · intro k hk
    rw [length_bitfieldNew]
    exact byte_lt_of_lt (List.mem_range.mp (List.mem_of_mem_filter hk))

theorem bitfieldHas_of_count_eq_zero {bf : Bytes} (h : bitfieldCount bf = 0) (i : ℕ) :
    bitfieldHas bf i = false := by
  by_contra hbit
  have hlt := lt_of_bitfieldHas (by simpa using hbit)
  rw [bitfieldCount_eq, List.countP_eq_zero] at h
  exact h i (List.mem_range.mpr hlt) (by simpa using hbit)

/-- What the loop starts from: bits of the right length, those the sidecar had
that the file bears out, or the sidecar's own when it is trusted. -/
theorem Loop.resume_eq (c : Config) (settings : Settings) (stages : StageFiles) (out : Bytes)
    (sidecar : Option Bytes) (saved : Saved) (room : Bool) :
    ∃ bits sidecar' exit,
      Loop.resume c settings stages out sidecar saved room =
        { Loop.start c.ticket bits stages out sidecar' with exit } ∧
      bits.length = bitfieldBytes c.ticket.total ∧
      (∀ i, bitfieldHas bits i = true → bitfieldHas (readSidecar sidecar c.ticket.total) i = true) ∧
      (settings.trust = false → ∀ i, bitfieldHas bits i = true →
        i < c.ticket.total ∧ bearsOut c out settings.deep i = true) ∧
      (sidecar' = sidecar ∨ sidecar' = writeSidecar sidecar bits saved) ∧
      (exit = none ∨ exit = some .paused) := by
  unfold Loop.resume
  simp only
  by_cases hcheck : 0 < bitfieldCount (readSidecar sidecar c.ticket.total) ∧ settings.trust = false
  · set bits := readSidecar sidecar c.ticket.total
    set checked := revalidateHave c out bits settings.deep with hchecked
    refine ⟨checked, if bitfieldCount checked < bitfieldCount bits
      then writeSidecar sidecar checked saved else sidecar,
      if room then (if bitfieldCount checked = 0 then some .paused else none) else some .paused,
      ?_, by simp [hchecked], ?_, ?_, ?_, ?_⟩
    · simp only [hcheck, and_self, if_true]
      split_ifs <;> rfl
    · intro i hi
      exact (bitfieldHas_revalidateHave.mp hi).2.1
    · intro _ i hi
      obtain ⟨hlt, -, hout⟩ := bitfieldHas_revalidateHave.mp hi
      exact ⟨hlt, hout⟩
    · split_ifs <;> simp
    · split_ifs <;> simp
  · refine ⟨readSidecar sidecar c.ticket.total, sidecar, if room then none else some .paused,
      ?_, by simp, fun _ h => h, ?_, .inl rfl, ?_⟩
    · simp only [hcheck, if_false]
      split_ifs <;> rfl
    · intro htrust i hi
      -- nothing was claimed
      have hzero : bitfieldCount (readSidecar sidecar c.ticket.total) = 0 := by
        by_contra hne
        exact hcheck ⟨Nat.pos_of_ne_zero hne, htrust⟩
      rw [bitfieldHas_of_count_eq_zero hzero] at hi
      cases hi
    · split_ifs <;> simp

end Arvolo.Recv
