import Mathlib

/-!
Gathering into an accumulator that is only ever added to, by a program that may fail:
the caller's `&mut Vec` that a walk pushes to.
-/

namespace Lib

variable {M ε α : Type}

theorem foldlM_cons_eq_ok {f : M → α → Except ε M} {c c' : M} {x : α} {xs : List α} :
    (x :: xs).foldlM f c = .ok c' ↔ ∃ m, f c x = .ok m ∧ xs.foldlM f m = .ok c' := by
  rw [List.foldlM_cons]
  cases f c x with
  | error e => exact ⟨nofun, nofun⟩
  | ok m => exact ⟨fun h => ⟨m, rfl, h⟩, fun ⟨_, h, h'⟩ => Except.ok.inj h ▸ h'⟩

variable [AddMonoid M]

/-- What `f` adds does not depend on what is there. -/
def Adds (f : M → Except ε M) : Prop := ∀ c, f c = (f 0).map (c + ·)

theorem adds_ok (m : M) : Adds (fun c => (.ok (c + m) : Except ε M)) := by
  intro c
  show Except.ok (c + m) = Except.ok (c + (0 + m))
  rw [zero_add]

theorem adds_keep : Adds (fun c : M => (.ok c : Except ε M)) := by
  intro c
  show Except.ok c = Except.ok (c + 0)
  rw [add_zero]

theorem adds_error (e : ε) : Adds (fun _ : M => .error e) := fun _ => rfl

theorem Adds.before {f : M → Except ε M} (h : Adds f) (m : M) : Adds fun c => f (c + m) := by
  intro c
  show f (c + m) = (f (0 + m)).map (c + ·)
  rw [h (c + m), h (0 + m), zero_add]
  cases f 0 with
  | error e => rfl
  | ok m' =>
      show Except.ok (c + m + m') = Except.ok (c + (m + m'))
      rw [add_assoc]

theorem Adds.eq_ok {f : M → Except ε M} (h : Adds f) {c c' : M} :
    f c = .ok c' ↔ ∃ m, f 0 = .ok m ∧ c' = c + m := by
  rw [h c]
  cases f 0 with
  | error e => exact ⟨nofun, nofun⟩
  | ok m =>
      exact ⟨fun h => ⟨m, rfl, (Except.ok.inj h).symm⟩,
        fun ⟨_, h, h'⟩ => by rw [h', ← Except.ok.inj h]; rfl⟩

/-- A loop of such steps gathers what each of them adds, in order. -/
theorem foldlM_eq_ok {f : M → α → Except ε M} {xs : List α} (h : ∀ x ∈ xs, Adds (f · x))
    {c c' : M} : xs.foldlM f c = .ok c' ↔
      ∃ g : α → M, (∀ x ∈ xs, f 0 x = .ok (g x)) ∧ c' = c + (xs.map g).sum := by
  have hstep : ∀ x ∈ xs, ∀ c c', f c x = .ok c' ↔ ∃ m, f 0 x = .ok m ∧ c' = c + m :=
    fun x hx c c' => (h x hx).eq_ok
  induction xs generalizing c c' with
  | nil =>
      simp only [List.foldlM_nil, List.map_nil, List.sum_nil, add_zero]
      exact ⟨fun h => ⟨fun _ => 0, nofun, (Except.ok.inj h).symm⟩, fun ⟨_, _, h⟩ => h ▸ rfl⟩
  | cons x xs ih =>
      have hx := hstep x List.mem_cons_self
      have hxs := fun y hy => h y (List.mem_cons_of_mem x hy)
      have hrest := fun y hy => hstep y (List.mem_cons_of_mem x hy)
      rw [foldlM_cons_eq_ok]
      constructor
      · rintro ⟨m, hm, hloop⟩
        obtain ⟨a, ha, rfl⟩ := (hx c m).1 hm
        obtain ⟨g, hg, rfl⟩ := (ih hxs hrest).1 hloop
        -- what a later turn on the same element adds is what this one adds
        refine ⟨fun y => (f 0 y).toOption.getD 0, fun y hy => ?_, ?_⟩
        · rcases List.mem_cons.1 hy with rfl | hy
          · simp [ha, Except.toOption]
          · simp [hg y hy, Except.toOption]
        · have hmap : xs.map (fun y => (f 0 y).toOption.getD 0) = xs.map g :=
            List.map_congr_left fun y hy => by simp [hg y hy, Except.toOption]
          rw [List.map_cons, hmap, List.sum_cons, ha, add_assoc]
          rfl
      · rintro ⟨g, hg, rfl⟩
        refine ⟨c + g x, (hx c _).2 ⟨g x, hg x List.mem_cons_self, rfl⟩, ?_⟩
        rw [List.map_cons, List.sum_cons, ← add_assoc]
        exact (ih hxs hrest).2 ⟨g, fun y hy => hg y (List.mem_cons_of_mem x hy), rfl⟩

theorem adds_foldlM {f : M → α → Except ε M} {xs : List α} (h : ∀ x ∈ xs, Adds (f · x)) :
    Adds (xs.foldlM f) := by
  induction xs with
  | nil =>
      intro c
      show Except.ok c = Except.ok (c + 0)
      rw [add_zero]
  | cons x xs ih =>
      intro c
      have hx := h x List.mem_cons_self c
      have hxs : ∀ c, xs.foldlM f c = (xs.foldlM f 0).map (c + ·) :=
        ih fun y hy => h y (List.mem_cons_of_mem x hy)
      simp only [List.foldlM_cons] at hx ⊢
      rw [hx]
      cases f 0 x with
      | error e => rfl
      | ok m =>
          show xs.foldlM f (c + m) = (xs.foldlM f m).map (c + ·)
          rw [hxs (c + m), hxs m]
          cases xs.foldlM f 0 with
          | error e => rfl
          | ok m' =>
              show Except.ok (c + m + m') = Except.ok (c + (m + m'))
              rw [add_assoc]

end Lib
