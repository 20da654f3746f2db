import Arvolo.Lib.Parse
import Arvolo.Lib.Utf8

/-!
Positional codecs, as postcard's: values one after another with nothing between them,
numbers in groups of seven bits, sequences and texts after their length.

A codec carries what its reader owes: it reads back what was written, and whatever it
reads it reads from a beginning of the input, however long the rest is, that is no
shorter than what the value is written as. Numbers may be padded, so that beginning need
not be the written form.
-/

namespace Lib

structure Codec (α : Type) where
  write : α → List UInt8
  read : List UInt8 → Option (α × List UInt8)
  /-- The values of the type that is written. -/
  Good : α → Prop
  read_write : ∀ {a} (s : List UInt8), Good a → read (write a ++ s) = some (a, s)
  read_sound : ∀ {s a rest}, read s = some (a, rest) → Good a ∧ ∃ lead, s = lead ++ rest ∧
    (write a).length ≤ lead.length ∧ ∀ t, read (lead ++ t) = some (a, t)

namespace Codec

/-! ### Numbers -/

/-- A number in at most `k` groups of seven bits. -/
def writeVarint : ℕ → ℕ → List UInt8
  | 0, _ => []
  | k + 1, n =>
      if n < 128 then [UInt8.ofNat n] else UInt8.ofNat (n % 128 + 128) :: writeVarint k (n / 128)

/-- The last of the `k` groups is at most `top`. -/
def readGroups (top : ℕ) : ℕ → List UInt8 → Option (ℕ × List UInt8)
  | 0, _ => none
  | _ + 1, [] => none
  | k + 1, b :: s =>
      if b.toNat < 128 then if k = 0 ∧ top < b.toNat then none else some (b.toNat, s)
      else (readGroups top k s).map fun r => (b.toNat - 128 + 128 * r.1, r.2)

/-- The last of the `k` groups has one bit. -/
def readVarint : ℕ → List UInt8 → Option (ℕ × List UInt8)
  | 0, _ => none
  | _ + 1, [] => none
  | k + 1, b :: s =>
      if b.toNat < 128 then if k = 0 ∧ 1 < b.toNat then none else some (b.toNat, s)
      else (readVarint k s).map fun r => (b.toNat - 128 + 128 * r.1, r.2)

theorem readVarint_eq (k : ℕ) (s : List UInt8) : readVarint k s = readGroups 1 k s := by
  induction k generalizing s with
  | zero => rfl
  | succ k ih =>
      cases s with
      | nil => rfl
      | cons b s => rw [readVarint, readGroups, ih]

theorem length_writeVarint_le (k n : ℕ) : (writeVarint k n).length ≤ k := by
  induction k generalizing n with
  | zero => exact le_rfl
  | succ k ih =>
      rw [writeVarint]
      split_ifs
      · simp
      · exact Nat.succ_le_succ (ih _)

section

variable {top : ℕ}

theorem readGroups_writeVarint {k n : ℕ} (htop : top < 128) (h : n < (top + 1) * 128 ^ k)
    (s : List UInt8) :
    readGroups top (k + 1) (writeVarint (k + 1) n ++ s) = some (n, s) := by
  induction k generalizing n with
  | zero =>
      have hlt : n < 128 := by omega
      have hn : (UInt8.ofNat n).toNat = n := by
        rw [UInt8.toNat_ofNat']
        omega
      rw [writeVarint, if_pos hlt, List.cons_append, readGroups, hn, if_pos hlt,
        if_neg (by omega)]
      rfl
  | succ k ih =>
      rw [writeVarint]
      by_cases hlt : n < 128
      · have hn : (UInt8.ofNat n).toNat = n := by
          rw [UInt8.toNat_ofNat']
          omega
        rw [if_pos hlt, List.cons_append, readGroups, hn, if_pos hlt, if_neg (by omega)]
        rfl
      · have hn : (UInt8.ofNat (n % 128 + 128)).toNat = n % 128 + 128 := by
          rw [UInt8.toNat_ofNat']
          omega
        have hdiv : n / 128 < (top + 1) * 128 ^ k := by
          rw [Nat.div_lt_iff_lt_mul (by norm_num)]
          rwa [pow_succ, ← mul_assoc] at h
        rw [if_neg hlt, List.cons_append, readGroups, hn, if_neg (by omega), ih hdiv,
          Option.map_some]
        congr 2
        omega

theorem readGroups_sound {k n : ℕ} {s rest : List UInt8}
    (h : readGroups top (k + 1) s = some (n, rest)) :
    n < (top + 1) * 128 ^ k ∧ ∃ lead, s = lead ++ rest ∧
      (writeVarint (k + 1) n).length ≤ lead.length ∧
        ∀ t, readGroups top (k + 1) (lead ++ t) = some (n, t) := by
  induction k generalizing n s with
  | zero =>
      cases s with
      | nil => exact nomatch h
      | cons b s =>
          rw [readGroups] at h
          by_cases hb : b.toNat < 128
          · rw [if_pos hb] at h
            split_ifs at h with hlast
            obtain ⟨rfl, rfl⟩ := Prod.mk.inj (Option.some.inj h)
            refine ⟨by omega, [b], rfl, by rw [writeVarint, if_pos hb]; rfl, fun t => ?_⟩
            rw [List.cons_append, readGroups, if_pos hb, if_neg hlast]
            rfl
          · rw [if_neg hb] at h
            exact nomatch h
  | succ k ih =>
      cases s with
      | nil => exact nomatch h
      | cons b s =>
          rw [readGroups] at h
          by_cases hb : b.toNat < 128
          · rw [if_pos hb, if_neg (by omega)] at h
            obtain ⟨rfl, rfl⟩ := Prod.mk.inj (Option.some.inj h)
            have hpow : 0 < (top + 1) * 128 ^ k := by positivity
            refine ⟨by rw [pow_succ, ← mul_assoc]; omega, [b], rfl,
              by rw [writeVarint, if_pos hb]; rfl, fun t => ?_⟩
            rw [List.cons_append, readGroups, if_pos hb, if_neg (by omega)]
            rfl
          · rw [if_neg hb] at h
            obtain ⟨⟨m, r⟩, hm, heq⟩ := Option.map_eq_some_iff.1 h
            obtain ⟨rfl, rfl⟩ := Prod.mk.inj heq
            obtain ⟨hlt, lead, rfl, hlen, hread⟩ := ih hm
            have hbyte := b.toNat_lt
            have hdiv : (b.toNat - 128 + 128 * m) / 128 = m := by omega
            refine ⟨by rw [pow_succ, ← mul_assoc]; omega, b :: lead, rfl, ?_, fun t => ?_⟩
            · rw [writeVarint]
              split_ifs
              · simp
              · rw [hdiv, List.length_cons, List.length_cons]
                omega
            · rw [List.cons_append, readGroups, if_neg hb, hread, Option.map_some]

theorem length_writeVarint {k n : ℕ} (h : n < 128 ^ (k + 1)) :
    (writeVarint (k + 1) n).length = Nat.log 128 n + 1 := by
  induction k generalizing n with
  | zero =>
      have hlt : n < 128 := by simpa using h
      rw [writeVarint, if_pos hlt, Nat.log_of_lt hlt]
      rfl
  | succ k ih =>
      rw [writeVarint]
      by_cases hlt : n < 128
      · rw [if_pos hlt, Nat.log_of_lt hlt]
        rfl
      · have hdiv : n / 128 < 128 ^ (k + 1) := by
          rw [Nat.div_lt_iff_lt_mul (by norm_num)]
          rwa [pow_succ] at h
        rw [if_neg hlt, List.length_cons, ih hdiv,
          Nat.log_of_one_lt_of_le (by norm_num) (not_lt.1 hlt)]

end

/-- `u64`, and the lengths of sequences. -/
def u64 : Codec ℕ where
  write := writeVarint 10
  read := readVarint 10
  Good n := n < 2 ^ 64
  read_write s h := by
    rw [readVarint_eq]
    exact readGroups_writeVarint (by norm_num) (by norm_num; omega) s
  read_sound h := by
    simp only [readVarint_eq] at h ⊢
    obtain ⟨hlt, hlead⟩ := readGroups_sound h
    exact ⟨by norm_num at hlt; omega, hlead⟩

/-- `u32`, and the index of a variant. -/
def u32 : Codec UInt32 where
  write n := writeVarint 5 n.toNat
  read s := (readGroups 15 5 s).map fun r => (UInt32.ofNat r.1, r.2)
  Good _ := True
  read_write {n} s _ := by
    have hn := n.toNat_lt
    rw [readGroups_writeVarint (by norm_num) (by norm_num; omega), Option.map_some,
      UInt32.ofNat_toNat]
  read_sound h := by
    obtain ⟨⟨n, rest⟩, hread, heq⟩ := Option.map_eq_some_iff.1 h
    obtain ⟨rfl, rfl⟩ := Prod.mk.inj heq
    obtain ⟨hlt, lead, rfl, hlen, hlead⟩ := readGroups_sound hread
    refine ⟨trivial, lead, rfl, ?_, fun t => by rw [hlead, Option.map_some]⟩
    rwa [UInt32.toNat_ofNat_of_lt' (by norm_num at hlt; simp [UInt32.size]; omega)]

theorem length_write_u32 (n : UInt32) : (u32.write n).length = Nat.log 128 n.toNat + 1 := by
  have hn := n.toNat_lt
  exact length_writeVarint (by norm_num; omega)

/-! ### Fixed sizes -/

/-- An array of bytes. -/
def bytes (k : ℕ) : Codec { b : List UInt8 // b.length = k } where
  write b := b.val
  read s := if h : k ≤ s.length then some (⟨s.take k, List.length_take_of_le h⟩, s.drop k) else none
  Good _ := True
  read_write {a} s _ := by
    obtain ⟨b, rfl⟩ := a
    rw [dif_pos (by simp)]
    simp
  read_sound {s a rest} h := by
    split_ifs at h with hle
    obtain ⟨rfl, rfl⟩ := Prod.mk.inj (Option.some.inj h)
    refine ⟨trivial, s.take k, (List.take_append_drop k s).symm, le_rfl, fun t => ?_⟩
    have hlen : (s.take k).length = k := List.length_take_of_le hle
    rw [dif_pos (by rw [List.length_append]; omega)]
    simp only [List.take_left' hlen, List.drop_left' hlen]

def bool : Codec Bool where
  write b := [if b then 1 else 0]
  read
    | [] => none
    | b :: s => if b = 0 then some (false, s) else if b = 1 then some (true, s) else none
  Good _ := True
  read_write {a} s _ := by cases a <;> rfl
  read_sound {s a rest} h := by
    cases s with
    | nil => exact nomatch h
    | cons b s =>
        simp only at h
        split_ifs at h with h₀ h₁
        · obtain ⟨rfl, rfl⟩ := Prod.mk.inj (Option.some.inj h)
          exact ⟨trivial, [b], rfl, le_rfl, fun t => by simp [h₀]⟩
        · obtain ⟨rfl, rfl⟩ := Prod.mk.inj (Option.some.inj h)
          exact ⟨trivial, [b], rfl, le_rfl, fun t => by simp [h₁]⟩

/-! ### Composition -/

section

variable {α β : Type}

/-- One value after another. -/
def pair (c : Codec α) (d : Codec β) : Codec (α × β) where
  write p := c.write p.1 ++ d.write p.2
  read s := (c.read s).bind fun x => (d.read x.2).map fun y => ((x.1, y.1), y.2)
  Good p := c.Good p.1 ∧ d.Good p.2
  read_write s h := by
    rw [List.append_assoc, c.read_write _ h.1, Option.bind_some, d.read_write _ h.2]
    rfl
  read_sound h := by
    obtain ⟨⟨a, s₁⟩, ha, h⟩ := Option.bind_eq_some_iff.1 h
    obtain ⟨⟨b, s₂⟩, hb, heq⟩ := Option.map_eq_some_iff.1 h
    obtain ⟨rfl, rfl⟩ := Prod.mk.inj heq
    obtain ⟨hga, lead, rfl, hlen, hread⟩ := c.read_sound ha
    obtain ⟨hgb, lead', rfl, hlen', hread'⟩ := d.read_sound hb
    refine ⟨⟨hga, hgb⟩, lead ++ lead', (List.append_assoc ..).symm, ?_, fun t => ?_⟩
    · rw [List.length_append, List.length_append]
      exact Nat.add_le_add hlen hlen'
    · rw [List.append_assoc, hread, Option.bind_some, hread']
      rfl

/-- The same bytes for another type. -/
def xmap (c : Codec α) (f : α → β) (g : β → α) (hfg : ∀ b, f (g b) = b) (hgf : ∀ a, g (f a) = a) :
    Codec β where
  write b := c.write (g b)
  read s := (c.read s).map fun x => (f x.1, x.2)
  Good b := c.Good (g b)
  read_write s h := by
    rw [c.read_write s h, Option.map_some, hfg]
  read_sound h := by
    obtain ⟨⟨a, s₁⟩, ha, heq⟩ := Option.map_eq_some_iff.1 h
    obtain ⟨rfl, rfl⟩ := Prod.mk.inj heq
    obtain ⟨hgood, lead, hs, hlen, hread⟩ := c.read_sound ha
    rw [hgf]
    exact ⟨hgood, lead, hs, hlen, fun t => by rw [hread, Option.map_some]⟩

def writeOption (c : Codec α) : Option α → List UInt8
  | none => [0]
  | some a => 1 :: c.write a

def readOption (c : Codec α) : List UInt8 → Option (Option α × List UInt8)
  | [] => none
  | b :: s =>
      if b = 0 then some (none, s)
      else if b = 1 then (c.read s).map fun x => (some x.1, x.2) else none

def option (c : Codec α) : Codec (Option α) where
  write := c.writeOption
  read := c.readOption
  Good o := ∀ a, o = some a → c.Good a
  read_write {o} s h := by
    cases o with
    | none => rfl
    | some a =>
        have hread := c.read_write s (h a rfl)
        change ((c.read (c.write a ++ s)).map fun x => (some x.1, x.2)) = _
        rw [hread, Option.map_some]
  read_sound {s o rest} h := by
    cases s with
    | nil => exact nomatch h
    | cons b s =>
        rw [readOption] at h
        by_cases hb : b = 0
        · rw [if_pos hb] at h
          obtain ⟨rfl, rfl⟩ := Prod.mk.inj (Option.some.inj h)
          exact ⟨nofun, [b], rfl, le_rfl, fun t => by rw [List.cons_append, readOption, if_pos hb]; rfl⟩
        · rw [if_neg hb] at h
          split_ifs at h with hb'
          obtain ⟨⟨a, s₁⟩, ha, heq⟩ := Option.map_eq_some_iff.1 h
          obtain ⟨rfl, rfl⟩ := Prod.mk.inj heq
          obtain ⟨hgood, lead, rfl, hlen, hread⟩ := c.read_sound ha
          refine ⟨fun x hx => Option.some.inj hx ▸ hgood, b :: lead, rfl, Nat.succ_le_succ hlen,
            fun t => ?_⟩
          rw [List.cons_append, readOption, if_neg hb, if_pos hb', hread, Option.map_some]

/-- `n` values. -/
def readMany (c : Codec α) : ℕ → List UInt8 → Option (List α × List UInt8)
  | 0, s => some ([], s)
  | n + 1, s => (c.read s).bind fun x => (c.readMany n x.2).map fun y => (x.1 :: y.1, y.2)

theorem readMany_write (c : Codec α) {as : List α} (h : ∀ a ∈ as, c.Good a) (s : List UInt8) :
    c.readMany as.length (as.flatMap c.write ++ s) = some (as, s) := by
  induction as with
  | nil => rfl
  | cons a as ih =>
      rw [List.flatMap_cons, List.append_assoc, List.length_cons, readMany,
        c.read_write _ (h a List.mem_cons_self), Option.bind_some,
        ih fun b hb => h b (List.mem_cons_of_mem _ hb)]
      rfl

theorem readMany_sound (c : Codec α) {n : ℕ} {s rest : List UInt8} {as : List α}
    (h : c.readMany n s = some (as, rest)) :
    as.length = n ∧ (∀ a ∈ as, c.Good a) ∧ ∃ lead, s = lead ++ rest ∧
      (as.flatMap c.write).length ≤ lead.length ∧
        ∀ t, c.readMany n (lead ++ t) = some (as, t) := by
  induction n generalizing s as with
  | zero =>
      obtain ⟨rfl, rfl⟩ := Prod.mk.inj (Option.some.inj h)
      exact ⟨rfl, nofun, [], rfl, le_rfl, fun t => rfl⟩
  | succ n ih =>
      obtain ⟨⟨a, s₁⟩, ha, h⟩ := Option.bind_eq_some_iff.1 h
      obtain ⟨⟨as', s₂⟩, has, heq⟩ := Option.map_eq_some_iff.1 h
      obtain ⟨rfl, rfl⟩ := Prod.mk.inj heq
      obtain ⟨hga, lead, rfl, hlen, hread⟩ := c.read_sound ha
      obtain ⟨hn, hgas, lead', rfl, hlen', hread'⟩ := ih has
      refine ⟨congrArg (· + 1) hn, ?_, lead ++ lead', (List.append_assoc ..).symm, ?_,
        fun t => ?_⟩
      · intro b hb
        rcases List.mem_cons.1 hb with rfl | hb
        · exact hga
        · exact hgas b hb
      · rw [List.flatMap_cons, List.length_append, List.length_append]
        exact Nat.add_le_add hlen hlen'
      · rw [List.append_assoc, readMany, hread, Option.bind_some, hread']
        rfl

/-- A sequence after its length. -/
def vec (c : Codec α) : Codec (List α) where
  write as := u64.write as.length ++ as.flatMap c.write
  read s := (u64.read s).bind fun x => c.readMany x.1 x.2
  Good as := u64.Good as.length ∧ ∀ a ∈ as, c.Good a
  read_write s h := by
    rw [List.append_assoc, u64.read_write _ h.1, Option.bind_some, c.readMany_write h.2]
  read_sound h := by
    obtain ⟨⟨n, s₁⟩, hn, hmany⟩ := Option.bind_eq_some_iff.1 h
    obtain ⟨rfl, hgood, lead', rfl, hlen', hread'⟩ := c.readMany_sound hmany
    obtain ⟨hgn, lead, rfl, hlen, hread⟩ := u64.read_sound hn
    refine ⟨⟨hgn, hgood⟩, lead ++ lead', (List.append_assoc ..).symm, ?_, fun t => ?_⟩
    · rw [List.length_append, List.length_append]
      exact Nat.add_le_add hlen hlen'
    · rw [List.append_assoc, hread, Option.bind_some, hread']

end

/-- A text after the length of its encoding. -/
def text : Codec String where
  write x := u64.write (utf8 x.toList).length ++ utf8 x.toList
  read s := (u64.read s).bind fun x => (take? x.1 x.2).bind fun y =>
    (fromUtf8 y.1).map fun z => (z, y.2)
  Good x := u64.Good (utf8 x.toList).length
  read_write {x} s h := by
    have htake := take?_append (utf8 x.toList) s
    rw [List.append_assoc, u64.read_write _ h, Option.bind_some, htake, Option.bind_some,
      fromUtf8_eq_some.2 rfl, Option.map_some]
  read_sound h := by
    obtain ⟨⟨n, s₁⟩, hn, h⟩ := Option.bind_eq_some_iff.1 h
    obtain ⟨⟨b, s₂⟩, hb, h⟩ := Option.bind_eq_some_iff.1 h
    obtain ⟨z, hz, heq⟩ := Option.map_eq_some_iff.1 h
    obtain ⟨rfl, rfl⟩ := Prod.mk.inj heq
    obtain ⟨hgn, lead, rfl, hlen, hread⟩ := u64.read_sound hn
    obtain ⟨hsplit, rfl⟩ := take?_eq_some.1 hb
    obtain rfl : s₁ = b ++ s₂ := hsplit
    obtain rfl := fromUtf8_eq_some.1 hz
    refine ⟨hgn, lead ++ utf8 z.toList, (List.append_assoc ..).symm, ?_, fun t => ?_⟩
    · rw [List.length_append, List.length_append]
      exact Nat.add_le_add_right hlen _
    · rw [List.append_assoc, hread, Option.bind_some, take?_append, Option.bind_some, hz,
        Option.map_some]

/-- Bytes after their length. -/
def blob : Codec (List UInt8) where
  write b := u64.write b.length ++ b
  read s := (u64.read s).bind fun x => take? x.1 x.2
  Good b := u64.Good b.length
  read_write {b} s h := by
    rw [List.append_assoc, u64.read_write _ h, Option.bind_some, take?_append]
  read_sound h := by
    obtain ⟨⟨n, s₁⟩, hn, hb⟩ := Option.bind_eq_some_iff.1 h
    obtain ⟨hgn, lead, rfl, hlen, hread⟩ := u64.read_sound hn
    obtain ⟨hsplit, rfl⟩ := take?_eq_some.1 hb
    obtain rfl : s₁ = _ ++ _ := hsplit
    refine ⟨hgn, lead ++ _, (List.append_assoc ..).symm, ?_, fun t => ?_⟩
    · rw [List.length_append, List.length_append]
      exact Nat.add_le_add_right hlen _
    · rw [List.append_assoc, hread, Option.bind_some, take?_append]

theorem length_write_blob_le (b : List UInt8) : (blob.write b).length ≤ 10 + b.length := by
  change (writeVarint 10 b.length ++ b).length ≤ _
  rw [List.length_append]
  exact Nat.add_le_add_right (length_writeVarint_le 10 _) _

/-- Two variants, after their index. -/
def sum {α β : Type} (c : Codec α) (d : Codec β) : Codec (α ⊕ β) where
  write
    | .inl a => u32.write 0 ++ c.write a
    | .inr b => u32.write 1 ++ d.write b
  read s := (u32.read s).bind fun x =>
    if x.1 = 0 then (c.read x.2).map fun y => (.inl y.1, y.2)
    else if x.1 = 1 then (d.read x.2).map fun y => (.inr y.1, y.2) else none
  Good
    | .inl a => c.Good a
    | .inr b => d.Good b
  read_write {v} s h := by
    cases v with
    | inl a =>
        rw [List.append_assoc, u32.read_write _ trivial, Option.bind_some, if_pos rfl,
          c.read_write s h, Option.map_some]
    | inr b =>
        rw [List.append_assoc, u32.read_write _ trivial, Option.bind_some,
          if_neg (show (1 : UInt32) ≠ 0 by decide), if_pos rfl, d.read_write s h, Option.map_some]
  read_sound h := by
    obtain ⟨⟨n, s₁⟩, hn, hv⟩ := Option.bind_eq_some_iff.1 h
    obtain ⟨-, lead, rfl, hlen, hread⟩ := u32.read_sound hn
    simp only at hv
    split_ifs at hv with hzero hone
    · obtain ⟨⟨a, s₂⟩, ha, heq⟩ := Option.map_eq_some_iff.1 hv
      obtain ⟨rfl, rfl⟩ := Prod.mk.inj heq
      obtain ⟨hgood, lead', rfl, hlen', hread'⟩ := c.read_sound ha
      refine ⟨hgood, lead ++ lead', (List.append_assoc ..).symm, ?_, fun t => ?_⟩
      · rw [List.length_append, List.length_append]
        exact Nat.add_le_add (hzero ▸ hlen) hlen'
      · rw [List.append_assoc, hread, Option.bind_some, if_pos hzero, hread', Option.map_some]
    · obtain ⟨⟨b, s₂⟩, hb, heq⟩ := Option.map_eq_some_iff.1 hv
      obtain ⟨rfl, rfl⟩ := Prod.mk.inj heq
      obtain ⟨hgood, lead', rfl, hlen', hread'⟩ := d.read_sound hb
      refine ⟨hgood, lead ++ lead', (List.append_assoc ..).symm, ?_, fun t => ?_⟩
      · rw [List.length_append, List.length_append]
        exact Nat.add_le_add (hone ▸ hlen) hlen'
      · rw [List.append_assoc, hread, Option.bind_some, if_neg hzero, if_pos hone, hread',
          Option.map_some]

/-- An input begins with an encoding of the value. -/
def Starts {α : Type} (c : Codec α) (s : List UInt8) (a : α) : Prop :=
  ∃ lead rest, s = lead ++ rest ∧ ∀ t, c.read (lead ++ t) = some (a, t)

theorem starts_iff {α : Type} {c : Codec α} {s : List UInt8} {a : α} :
    c.Starts s a ↔ ∃ rest, c.read s = some (a, rest) := by
  constructor
  · rintro ⟨lead, rest, rfl, hread⟩
    exact ⟨rest, hread rest⟩
  · rintro ⟨rest, h⟩
    obtain ⟨-, lead, hs, -, hread⟩ := c.read_sound h
    exact ⟨lead, rest, hs, hread⟩

/-- Reading a value takes at least what writing it would. -/
theorem length_write_le {α : Type} {c : Codec α} {s rest : List UInt8} {a : α}
    (h : c.read s = some (a, rest)) : (c.write a).length ≤ s.length := by
  obtain ⟨-, lead, rfl, hlen, -⟩ := c.read_sound h
  rw [List.length_append]
  omega

/-- A pair is only read where its first part is. -/
theorem read_pair_of_none {α β : Type} {c : Codec α} {d : Codec β} {s : List UInt8}
    (h : c.read s = none) : (c.pair d).read s = none := by
  change (c.read s).bind _ = none
  rw [h, Option.bind_none]

/-- The first part alone is no pair, when the second part takes something to read. -/
theorem read_pair_write {α β : Type} {c : Codec α} {d : Codec β} {a : α} (ha : c.Good a)
    (hd : d.read [] = none) : (c.pair d).read (c.write a) = none := by
  have hread := c.read_write [] ha
  rw [List.append_nil] at hread
  change (c.read (c.write a)).bind _ = none
  rw [hread, Option.bind_some, hd, Option.map_none]

theorem read_text_nil : text.read [] = none := rfl

theorem read_vec_nil {α : Type} (c : Codec α) : c.vec.read [] = none := rfl

theorem read_option_nil {α : Type} (c : Codec α) : c.option.read [] = none := rfl

end Codec

end Lib
