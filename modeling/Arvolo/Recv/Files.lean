import Arvolo.Recv.Accounting

/-!
Stage files and the tasks that hold them open.

What is true of a task and the files whatever the other tasks do: its stage
belongs to its piece, its descriptor is of a file that no path but its own leads
to, and a body it has accepted matches the digest of the piece.
-/

namespace Arvolo.Recv

open Crypto

namespace StageFiles

variable {f : StageFiles} {p : Stage}

theorem openStage_eq_some {n : ℕ} (h : f.names p = some n) : f.openStage p = (f.write n [], n) := by
  simp [openStage, h]

theorem openStage_eq_none (h : f.names p = none) : f.openStage p = (f.create p, f.next) := by
  simp [openStage, h]

@[simp] theorem data_write_self (n : ℕ) (bytes : Bytes) : (f.write n bytes).data n = bytes :=
  Function.update_self _ _ _

theorem data_write_of_ne {m n : ℕ} (h : m ≠ n) (bytes : Bytes) :
    (f.write n bytes).data m = f.data m :=
  Function.update_of_ne h _ _

@[simp] theorem names_create_self : (f.create p).names p = some f.next :=
  Function.update_self _ _ _

theorem names_create_of_ne {q : Stage} (h : q ≠ p) : (f.create p).names q = f.names q :=
  Function.update_of_ne h _ _

theorem data_create_of_lt {n : ℕ} (h : n < f.next) : (f.create p).data n = f.data n :=
  Function.update_of_ne h.ne _ _

theorem names_remove_of_ne {q : Stage} (h : q ≠ p) : (f.remove p).names q = f.names q :=
  Function.update_of_ne h _ _

theorem names_of_remove {q : Stage} {n : ℕ} (h : (f.remove p).names q = some n) :
    f.names q = some n := by
  by_cases hq : q = p
  · subst hq
    simp [remove] at h
  · rwa [names_remove_of_ne hq] at h

/-- The file that was opened is the one the path leads to. -/
theorem names_openStage (f : StageFiles) (p : Stage) :
    (f.openStage p).1.names p = some (f.openStage p).2 := by
  cases h : f.names p with
  | some n => rw [openStage_eq_some h]; exact h
  | none => rw [openStage_eq_none h]; exact names_create_self

/-- What removing names does: some are gone, the rest is as it was. -/
structure Trimmed (f g : StageFiles) : Prop where
  data : g.data = f.data
  next : g.next = f.next
  names : ∀ q n, g.names q = some n → f.names q = some n

theorem Trimmed.rfl : f.Trimmed f := ⟨Eq.refl _, Eq.refl _, fun _ _ h => h⟩

theorem trimmed_remove : f.Trimmed (f.remove p) := ⟨rfl, rfl, fun _ _ => names_of_remove⟩

theorem Trimmed.trans {g h : StageFiles} (hfg : f.Trimmed g) (hgh : g.Trimmed h) : f.Trimmed h :=
  ⟨hgh.data.trans hfg.data, hgh.next.trans hfg.next, fun q n hq => hfg.names q n (hgh.names q n hq)⟩

/-- Removing the paths of a piece leaves the others. -/
theorem removeAll_spec (f : StageFiles) (i : ℕ) :
    f.Trimmed (f.removeAll i) ∧ ∀ q : Stage, q.piece ≠ i → (f.removeAll i).names q = f.names q := by
  have hdups : ∀ (ns : List ℕ) (g : StageFiles),
      g.Trimmed (ns.foldl (fun f n => f.remove (.dup i (n + 1))) g) ∧
        ∀ q : Stage, q.piece ≠ i →
          (ns.foldl (fun f n => f.remove (.dup i (n + 1))) g).names q = g.names q := by
    intro ns
    induction ns with
    | nil => exact fun g => ⟨⟨rfl, rfl, fun _ _ h => h⟩, fun _ _ => rfl⟩
    | cons n ns ih =>
        intro g
        obtain ⟨htrim, hnames⟩ := ih (g.remove (.dup i (n + 1)))
        refine ⟨trimmed_remove.trans htrim, fun q hq => ?_⟩
        rw [List.foldl_cons, hnames q hq]
        refine names_remove_of_ne ?_
        rintro rfl
        exact hq rfl
  obtain ⟨htrim, hnames⟩ := hdups (List.range endgameParallel) (f.remove (.path i))
  refine ⟨trimmed_remove.trans htrim, fun q hq => (hnames q hq).trans (names_remove_of_ne ?_)⟩
  rintro rfl
  exact hq rfl

end StageFiles

/-- The bytes of a file after a write. -/
theorem getElem?_writeAt {file bytes : Bytes} (h : bytes ≠ []) (off k : ℕ) :
    (writeAt file off bytes)[k]? =
      if k < off then (if k < file.length then file[k]? else some 0)
      else if k < off + bytes.length then bytes[k - off]? else file[k]? := by
  have hempty : bytes.isEmpty = false := by simpa using h
  have hpad : (file ++ List.replicate (off - file.length) 0).length = max file.length off := by
    simp only [List.length_append, List.length_replicate]
    omega
  have hlen : ((file ++ List.replicate (off - file.length) 0).take off).length = off := by
    rw [List.length_take, hpad]
    omega
  simp only [writeAt, hempty, Bool.false_eq_true, if_false, List.append_assoc]
  rcases Nat.lt_or_ge k off with hk | hk
  · rw [List.getElem?_append_left (by omega), List.getElem?_take_of_lt hk, if_pos hk]
    split_ifs with hfile
    · rw [List.getElem?_append_left hfile]
    · rw [List.getElem?_append_right (by omega), List.getElem?_replicate, if_pos (by omega)]
  · rw [List.getElem?_append_right (by omega), hlen, if_neg (by omega)]
    rcases Nat.lt_or_ge k (off + bytes.length) with hk' | hk'
    · rw [List.getElem?_append_left (by omega), if_pos hk']
    · rw [List.getElem?_append_right (by omega), List.getElem?_drop, if_neg (by omega)]
      congr 1
      omega

/-- Writing on from where the writing stopped. -/
theorem writeAt_take (b : Bytes) {p n : ℕ} (h : p ≤ n) :
    writeAt (b.take p) p ((b.take n).drop p) = b.take n := by
  unfold writeAt
  split_ifs with hempty
  · -- nothing was left to write
    rw [List.isEmpty_iff, List.drop_eq_nil_iff, List.length_take] at hempty
    rcases Nat.le_total n b.length with hn | hn
    · rw [min_eq_left hn] at hempty
      rw [show n = p by omega]
    · rw [min_eq_right hn] at hempty
      rw [List.take_of_length_le hempty, List.take_of_length_le hn]
  · have hp : p < b.length := by
      by_contra hge
      apply hempty
      rw [List.isEmpty_iff, List.drop_eq_nil_iff, List.length_take]
      omega
    have hlen : (b.take p).length = p := by
      rw [List.length_take]
      omega
    have hrest : (b.take p).drop (p + ((b.take n).drop p).length) = [] := by
      rw [List.drop_eq_nil_iff, hlen]
      omega
    have hpre : b.take p = (b.take n).take p := by rw [List.take_take, min_eq_left h]
    rw [hrest, hlen, Nat.sub_self, List.replicate_zero, List.append_nil, List.append_nil,
      List.take_of_length_le hlen.le, hpre, List.take_append_drop]

/-! ### Tasks -/

structure Task.Filed (c : Config) (f : StageFiles) (t : Task) : Prop where
  piece : t.stage.piece = t.piece
  fd_lt : ∀ n, t.fd = some n → n < f.next
  name : ∀ n p, t.fd = some n → f.names p = some n → p = t.stage
  held : ∀ b, t.verified = some b → t.fd ≠ none
  checked : ∀ b, t.verified = some b → c.ticket.chunks[t.piece]? = some (c.hash b)
  okay : t.outcome = some .ok → ∃ b, t.verified = some b ∧ b.length ≤ t.pos

namespace Task.Filed

variable {c : Config} {f g : StageFiles} {t : Task}

theorem trim (h : t.Filed c f) (hg : f.Trimmed g) : t.Filed c g where
  piece := h.piece
  fd_lt n hn := hg.next ▸ h.fd_lt n hn
  name n p hn hp := h.name n p hn (hg.names p n hp)
  held := h.held
  checked := h.checked
  okay := h.okay

theorem write (h : t.Filed c f) (m : ℕ) (bytes : Bytes) : t.Filed c (f.write m bytes) :=
  ⟨h.piece, h.fd_lt, h.name, h.held, h.checked, h.okay⟩

/-- A new file is not the task's, even when it is under its path. -/
theorem create (h : t.Filed c f) (p : Stage) : t.Filed c (f.create p) where
  piece := h.piece
  fd_lt n hn := Nat.lt_succ_of_lt (h.fd_lt n hn)
  name n q hn hq := by
    by_cases hqp : q = p
    · subst hqp
      simp only [StageFiles.names_create_self, Option.some.injEq] at hq
      have := h.fd_lt n hn
      omega
    · rw [StageFiles.names_create_of_ne hqp] at hq
      exact h.name n q hn hq
  held := h.held
  checked := h.checked
  okay := h.okay

theorem openStage (h : t.Filed c f) (p : Stage) : t.Filed c (f.openStage p).1 := by
  cases hname : f.names p with
  | some n => exact StageFiles.openStage_eq_some hname ▸ h.write n []
  | none => exact StageFiles.openStage_eq_none hname ▸ h.create p

/-- A task that has no file yet has nothing to show. -/
theorem verified_eq_none (h : t.Filed c f) (hfd : t.fd = none) : t.verified = none := by
  by_contra hv
  obtain ⟨b, hb⟩ := Option.ne_none_iff_exists'.mp hv
  exact h.held b hb hfd

/-- The task opens its file. -/
theorem opened (h : t.Filed c f) {n : ℕ} (hname : g.names t.stage = some n) :
    Task.Filed c g { t with fd := some n } where
  piece := h.piece
  fd_lt m hm := Option.some.inj hm ▸ g.lt_next _ _ hname
  name m p hm hp := by
    obtain rfl := Option.some.inj hm
    exact g.inj _ _ _ hp hname
  held _ _ hnone := by cases hnone
  checked := h.checked
  okay := h.okay

/-- The task accepts a body. -/
theorem received (h : t.Filed c f) {body : Bytes} (hfd : t.fd ≠ none) (hout : t.outcome = none)
    (hbody : c.ticket.chunks[t.piece]? = some (c.hash body)) :
    Task.Filed c f { t with verified := some body, pos := 0 } where
  piece := h.piece
  fd_lt := h.fd_lt
  name := h.name
  held _ _ := hfd
  checked b hb := Option.some.inj hb ▸ hbody
  okay hok := by
    rw [show t.outcome = some .ok from hok] at hout
    cases hout

/-- The task has written its body on to byte `n`. -/
theorem wrote (h : t.Filed c f) {body : Bytes} (hver : t.verified = some body) (n : ℕ) :
    Task.Filed c f { t with
      pos := n
      outcome := if body.length ≤ n then some .ok else none } where
  piece := h.piece
  fd_lt := h.fd_lt
  name := h.name
  held := h.held
  checked := h.checked
  okay hok := by
    refine ⟨body, hver, ?_⟩
    by_contra hlt
    rw [if_neg hlt] at hok
    cases hok

/-- The task gives up. -/
theorem gaveUp (h : t.Filed c f) {o : Outcome} (ho : o ≠ .ok) :
    Task.Filed c f { t with outcome := some o } where
  piece := h.piece
  fd_lt := h.fd_lt
  name := h.name
  held := h.held
  checked := h.checked
  okay hok := absurd (Option.some.inj hok) ho

/-- A task that has just been assigned. -/
theorem assigned {i : ℕ} {prov : Provider} {p : Stage} (hp : p.piece = i) :
    Task.Filed c f { piece := i, prov, stage := p } where
  piece := hp
  fd_lt _ h := by cases h
  name _ _ h := by cases h
  held _ h := by cases h
  checked _ h := by cases h
  okay h := by cases h

end Task.Filed

theorem Loop.stageFor_piece (s : Loop) (i : ℕ) (prov : Provider) :
    (s.stageFor i prov).piece = i := by
  simp only [stageFor]
  split_ifs <;> rfl

end Arvolo.Recv
