import Arvolo.Upload.Relay

/-!
What the relay holds of an upload, kept by every handler.

The file is a prefix of the ciphertext, an append that was let in carries on
where the file ends, and there is at most one. The one handler this is not true
of is a dropped one with a write under way, so `Inv.dropAppend` asks that there
be none.
-/

namespace Arvolo.Upload

open Crypto

namespace Relay

variable (r : Relay)

/-! ### What the relay holds -/

/-- What is to be at the session's place of the ciphertext `v`: a prefix while
the upload is open, and all of it, with its length, once published. -/
def Holds (v file : Bytes) : Place → Prop
  | .part => file <+: v
  | .blob _ size => file = v ∧ size = v.length
  | .gone => True

instance (v file : Bytes) : (place : Place) → Decidable (Holds v file place)
  | .part => inferInstanceAs (Decidable (file <+: v))
  | .blob _ size => inferInstanceAs (Decidable (file = v ∧ size = v.length))
  | .gone => .isTrue trivial

/-- A running append: what it has on the way and what has yet to arrive go on
where the file ends. -/
structure Appending (v : Bytes) (r : Relay) (a : Append) : Prop where
  place : r.place = .part
  bytes : r.file ++ (a.inFlight ++ (a.chunk ++ a.body)) <+: v
  reached : a.reached = r.file.length + a.inFlight.length + a.chunk.length

structure Inv (v : Bytes) (len : ℕ) (r : Relay) : Prop where
  orphans : r.orphans = []
  length : ∀ row ∈ r.row, row.length = len
  open_part : ∀ row ∈ r.row, row.committed = none → r.place = .part
  holds : Holds v r.file r.place
  guard : r.busy = false → r.appends = []
  append : r.appends = [] ∨ ∃ a, r.appends = [a] ∧ Appending v r a

variable {r} {v : Bytes} {len : ℕ}

theorem append_of_drop {file body : Bytes} (hf : file <+: v) (hb : body <+: v.drop file.length) :
    file ++ body <+: v := by
  obtain ⟨rest, rfl⟩ := hf
  rw [List.drop_left] at hb
  exact (List.prefix_append_right_inj file).mpr hb

namespace Inv

/-- At a position of the handler list there is nothing, or the one append. -/
theorem at_position (h : r.Inv v len) (k : ℕ) : r.appends[k]? = none ∨
    ∃ a, k = 0 ∧ r.appends = [a] ∧ r.appends[k]? = some a ∧ Appending v r a := by
  rcases h.append with hnil | ⟨a, hone, ha⟩
  · left
    simp [hnil]
  · cases k with
    | zero => exact .inr ⟨a, rfl, hone, by simp [hone], ha⟩
    | succ k =>
        left
        simp [hone]

/-- Replace the running append, and move the file under it. -/
theorem setAppend (h : r.Inv v len) (file : Bytes) {a a' : Append} (hone : r.appends = [a])
    (hplace : r.place = .part) (ha : Appending v { r with file } a') (hf : file <+: v) :
    ({ r.setAppend 0 a' with file } : Relay).Inv v len where
  orphans := h.orphans
  length := h.length
  open_part := h.open_part
  holds := by
    change Holds v file r.place
    rw [hplace]
    exact hf
  guard hb := by
    have hnil := h.guard hb
    rw [hone] at hnil
    cases hnil
  append := .inr ⟨a', by simp [Relay.setAppend, hone], ha.place, ha.bytes, ha.reached⟩

theorem endAppend (h : r.Inv v len) {a : Append} (hone : r.appends = [a]) :
    (r.endAppend 0).Inv v len where
  orphans := h.orphans
  length := h.length
  open_part := h.open_part
  holds := h.holds
  guard _ := by simp [Relay.endAppend, hone]
  append := .inl (by simp [Relay.endAppend, hone])

theorem received_eq (h : r.Inv v len) (hlen : v.length ≤ len) {now : ℕ} {info : UploadInfo}
    (hinfo : r.uploadInfo now = some info) (hopen : info.committed = none) :
    r.place = .part ∧ r.file <+: v ∧ info.received = r.file.length ∧ info.length = len := by
  unfold uploadInfo at hinfo
  cases hrow : r.row with
  | none => simp [hrow] at hinfo
  | some row =>
      rw [hrow] at hinfo
      cases hc : row.committed with
      | some done =>
          simp only [hc, Option.some.injEq] at hinfo
          subst hinfo
          cases hopen
      | none =>
          simp only [hc] at hinfo
          split_ifs at hinfo with hidle hplace
          have hf : r.file <+: v := by
            have := h.holds
            rwa [hplace] at this
          have hrlen : row.length = len := h.length row hrow
          simp only [Option.some.injEq] at hinfo
          subst hinfo
          refine ⟨hplace, hf, ?_, hrlen⟩
          have hfl := hf.length_le
          simp only [hrlen]
          omega

theorem appendHandler (h : r.Inv v len) (hlen : v.length ≤ len) (req now offset : ℕ)
    {body : Bytes} (hbody : body <+: v.drop offset) :
    (r.appendHandler req now offset body).1.Inv v len := by
  unfold Relay.appendHandler
  split_ifs with hbusy
  · exact h
  split
  · exact h
  · rename_i info hinfo
    split_ifs with hc ho
    · exact h
    · exact h
    · have hopen : info.committed = none := by simpa using hc
      obtain ⟨hplace, hf, hrec, -⟩ := h.received_eq hlen hinfo hopen
      have hoff : offset = r.file.length := by
        rw [not_not.mp ho, hrec]
      have hnil : r.appends = [] := h.guard (by simpa using hbusy)
      refine ⟨h.orphans, h.length, h.open_part, h.holds, fun hb => absurd hb (by simp),
        .inr ?_⟩
      refine ⟨{ req, reached := offset, body }, by simp [hnil], hplace, ?_, ?_⟩
      · simp only [List.nil_append]
        exact append_of_drop hf (hoff ▸ hbody)
      · simp [hoff]

theorem openPart (h : r.Inv v len) (k : ℕ) : (r.openPart k).1.Inv v len := by
  unfold Relay.openPart
  rcases h.at_position k with hnone | ⟨a, rfl, hone, hk, ha⟩
  · rw [hnone]
    exact h
  · rw [hk]
    simp only [if_pos ha.place]
    split
    · exact h
    · have hf : r.file <+: v := (List.prefix_append _ _).trans ha.bytes
      exact h.setAppend r.file hone ha.place ⟨ha.place, ha.bytes, ha.reached⟩ hf

theorem takeChunk (h : r.Inv v len) (k n : ℕ) : (r.takeChunk k n).Inv v len := by
  unfold Relay.takeChunk
  rcases h.at_position k with hnone | ⟨a, rfl, hone, hk, ha⟩
  · rw [hnone]
    exact h
  · rw [hk]
    have hf : r.file <+: v := (List.prefix_append _ _).trans ha.bytes
    cases r.row with
    | none => exact h
    | some row =>
        simp only
        split_ifs with hready hover
        · exact h.setAppend r.file hone ha.place ⟨ha.place, ha.bytes, ha.reached⟩ hf
        · simp only [Bool.and_eq_true, List.isEmpty_iff, decide_eq_true_eq] at hready
          obtain ⟨⟨⟨-, hchunk⟩, -⟩, hn⟩ := hready
          refine h.setAppend r.file hone ha.place ⟨ha.place, ?_, ?_⟩ hf
          · have hbytes := ha.bytes
            rw [hchunk, List.nil_append] at hbytes
            simpa using hbytes
          · have hreached := ha.reached
            simp only [hchunk, List.length_nil, List.length_take] at hreached ⊢
            omega
        · exact h

theorem handOver (h : r.Inv v len) (k n : ℕ) : (r.handOver k n).Inv v len := by
  unfold Relay.handOver
  rcases h.at_position k with hnone | ⟨a, rfl, hone, hk, ha⟩
  · rw [hnone]
    exact h
  · rw [hk]
    have hf : r.file <+: v := (List.prefix_append _ _).trans ha.bytes
    simp only [List.isEmpty_iff]
    split_ifs with hempty
    · refine h.setAppend r.file hone ha.place ⟨ha.place, ?_, ?_⟩ hf
      · have hbytes := ha.bytes
        rw [hempty, List.nil_append] at hbytes
        rwa [← List.append_assoc (a.chunk.take n), List.take_append_drop]
      · have hreached := ha.reached
        simp only [hempty, List.length_nil, List.length_take, List.length_drop] at hreached ⊢
        omega
    · exact h

theorem land (h : r.Inv v len) (k : ℕ) : (r.land k).Inv v len := by
  unfold Relay.land
  rcases h.at_position k with hnone | ⟨a, rfl, hone, hk, ha⟩
  · rw [hnone]
    exact h
  · rw [hk]
    have hbytes := ha.bytes
    rw [← List.append_assoc] at hbytes
    refine h.setAppend (r.file ++ a.inFlight) hone ha.place ⟨ha.place, by simpa using hbytes, ?_⟩
      ((List.prefix_append _ _).trans hbytes)
    have hreached := ha.reached
    simp only [List.length_append, List.length_nil]
    omega

theorem touchUpload (h : r.Inv v len) (now : ℕ) : (r.touchUpload now).Inv v len where
  orphans := h.orphans
  length row hrow := by
    obtain ⟨row', hrow', rfl⟩ := Option.map_eq_some_iff.mp hrow
    have hl := h.length row' hrow'
    split_ifs
    · exact hl
    · exact hl
  open_part row hrow hopen := by
    obtain ⟨row', hrow', rfl⟩ := Option.map_eq_some_iff.mp hrow
    refine h.open_part row' hrow' ?_
    split_ifs at hopen
    · exact hopen
    · exact hopen
  holds := h.holds
  guard := h.guard
  append := by
    rcases h.append with hnil | ⟨a, hone, ha⟩
    · exact .inl hnil
    · exact .inr ⟨a, hone, ha.place, ha.bytes, ha.reached⟩

/-- Cutting the file to where it already ends does nothing. -/
theorem setLen_length (file : Bytes) : setLen file file.length = file := by
  simp [setLen]

theorem finishAppend (h : r.Inv v len) (k now : ℕ) (broke : Bool) :
    (r.finishAppend k now broke).1.Inv v len := by
  unfold Relay.finishAppend
  rcases h.at_position k with hnone | ⟨a, rfl, hone, hk, ha⟩
  · rw [hnone]
    exact h
  · rw [hk]
    simp only
    by_cases hready : a.opened && a.chunk.isEmpty && a.inFlight.isEmpty &&
        (broke || a.failed || a.body.isEmpty)
    · rw [if_pos hready]
      simp only [Bool.and_eq_true, List.isEmpty_iff] at hready
      obtain ⟨⟨⟨-, hchunk⟩, hfl⟩, -⟩ := hready
      have hreached : a.reached = r.file.length := by
        have := ha.reached
        simp only [hchunk, hfl, List.length_nil] at this
        omega
      have hsame : (if (broke || a.failed) && r.place = .part then setLen r.file a.reached
          else r.file) = r.file := by
        split_ifs
        · rw [hreached, setLen_length]
        · rfl
      rw [hsame]
      exact (h.endAppend hone).touchUpload now
    · rw [if_neg hready]
      exact h

/-- A handler that is dropped with no write under way leaves nothing behind. -/
theorem dropAppend (h : r.Inv v len) (k : ℕ)
    (hset : ∀ a ∈ r.appends[k]?, a.inFlight = []) : (r.dropAppend k).Inv v len := by
  unfold Relay.dropAppend
  rcases h.at_position k with hnone | ⟨a, rfl, hone, hk, ha⟩
  · rw [hnone]
    exact h
  · rw [hk]
    have hempty : a.inFlight = [] := hset a hk
    have hend := h.endAppend hone
    simp only [hempty, List.isEmpty_nil, if_true]
    exact ⟨h.orphans, hend.length, hend.open_part, hend.holds, hend.guard, .inl (by
      simp [Relay.endAppend, hone])⟩

theorem landOrphan (h : r.Inv v len) (k : ℕ) : (r.landOrphan k).Inv v len := by
  unfold Relay.landOrphan
  rw [h.orphans, List.getElem?_nil]
  exact h

theorem commitHandler (h : r.Inv v len) (hlen : v.length ≤ len) (req now : ℕ) (claim : String)
    (granted : Option ℕ) : (r.commitHandler req now claim granted).1.Inv v len := by
  unfold Relay.commitHandler
  split_ifs with hbusy
  · exact h
  split
  · rename_i info row hinfo hrow
    split
    · exact h
    · rename_i hopen
      split_ifs with hrec
      · exact h
      · split
        · exact h
        · obtain ⟨hplace, hf, hreceived, hilen⟩ := h.received_eq hlen hinfo hopen
          have hnil : r.appends = [] := h.guard (by simpa using hbusy)
          -- complete by its length, so the prefix is the whole
          have hfull : r.file = v := hf.eq_of_length (by
            have := hf.length_le
            have := not_not.mp hrec
            omega)
          refine ⟨h.orphans, ?_, ?_, ⟨hfull, ?_⟩, h.guard, .inl hnil⟩
          · intro row' hrow'
            obtain rfl := Option.some.inj hrow'
            exact h.length row hrow
          · intro row' hrow' hc
            obtain rfl := Option.some.inj hrow'
            cases hc
          · have := not_not.mp hrec
            have := congrArg List.length hfull
            omega
  · exact h

theorem forget (h : r.Inv v len) (hbusy : r.busy = false) : r.forget.Inv v len := by
  have hnil : r.appends = [] := h.guard hbusy
  unfold Relay.forget
  split
  · rename_i row hrow
    refine ⟨h.orphans, fun _ hr => absurd hr (by simp), fun _ hr => absurd hr (by simp), ?_,
      h.guard, .inl hnil⟩
    change Holds v r.file (if row.committed.isNone then .gone else r.place)
    split_ifs
    · trivial
    · exact h.holds
  · exact h

theorem abortHandler (h : r.Inv v len) : r.abortHandler.Inv v len := by
  unfold Relay.abortHandler
  split_ifs with hbusy
  · exact h
  · exact h.forget (by simpa using hbusy)

theorem uploadReap (h : r.Inv v len) (now : ℕ) : (r.uploadReap now).Inv v len := by
  unfold Relay.uploadReap
  split
  · split_ifs with hidle
    · simp only [Bool.and_eq_true, Bool.not_eq_true'] at hidle
      exact h.forget hidle.2
    · exact h
  · exact h

end Inv

end Relay

end Arvolo.Upload
