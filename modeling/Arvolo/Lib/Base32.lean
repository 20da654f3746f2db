import Arvolo.Lib.Batches
import Arvolo.Lib.Traverse

/-!
Base32 without padding: the bits of the bytes, the highest first, in groups of five, the last
filled up with zeros, a letter or digit for each group. The reader is strict: a character outside
the alphabet, a length that no number of bytes has, and a set bit past the last byte are refused.
-/

namespace Lib

namespace Base32

def alphabet : List Char := "ABCDEFGHIJKLMNOPQRSTUVWXYZ234567".toList

/-- The lowest `k` bits, the highest first. -/
def bitsOf (k n : ℕ) : List Bool := ((List.range k).map n.testBit).reverse

def ofBits (bits : List Bool) : ℕ := bits.foldl (fun n b => 2 * n + if b then 1 else 0) 0

def symbol (group : List Bool) : Char :=
  alphabet.getD (ofBits (group ++ List.replicate (5 - group.length) false)) 'A'

def encode (bytes : List UInt8) : String :=
  String.ofList ((batches 5 (bytes.flatMap fun b => bitsOf 8 b.toNat)).map symbol)

/-- The group of five that a character stands for. -/
def group (c : Char) : Option (List Bool) := (alphabet.idxOf? c).map (bitsOf 5)

def decode (s : String) : Option (List UInt8) := do
  let groups ← s.toList.mapM group
  let bits := groups.flatten
  let whole := bits.length / 8 * 8
  if (bits.drop whole).length < 5 ∧ (bits.drop whole).all (· = false) then
    some ((batches 8 (bits.take whole)).map fun byte => UInt8.ofNat (ofBits byte))
  else none

@[simp] theorem length_bitsOf (k n : ℕ) : (bitsOf k n).length = k := by simp [bitsOf]

theorem ofBits_bitsOf : ∀ n < 256, ofBits (bitsOf 8 n) = n := by decide +kernel

theorem group_symbol (a b c d e : Bool) : group (symbol [a, b, c, d, e]) = some [a, b, c, d, e] := by
  cases a <;> cases b <;> cases c <;> cases d <;> cases e <;> decide

theorem group_symbol_of_length {g : List Bool} (h : g.length ≤ 5) :
    group (symbol g) = some (g ++ List.replicate (5 - g.length) false) := by
  set full := g ++ List.replicate (5 - g.length) false with hfull
  have hlen : full.length = 5 := by
    rw [hfull, List.length_append, List.length_replicate]
    omega
  have hsame : symbol g = symbol full := by
    rw [symbol, symbol, ← hfull, hlen, Nat.sub_self, List.replicate_zero, List.append_nil]
  rw [hsame]
  match full, hlen with
  | [a, b, c, d, e], _ => exact group_symbol a b c d e

/-- The groups of a text of bits are the bits, and fewer than five zeros. -/
theorem exists_mapM_group (bits : List Bool) : ∃ groups pad,
    ((batches 5 bits).map symbol).mapM group = some groups ∧
      groups.flatten = bits ++ List.replicate pad false ∧ pad < 5 := by
  induction bits using batches_induction (n := 5) (by decide) with
  | hnil => exact ⟨[], 0, by simp⟩
  | hcut bits hbits ih =>
      obtain ⟨groups, pad, hwalk, hflat, hpad⟩ := ih
      have hfirst := group_symbol_of_length (g := bits.take 5) (List.length_take_le 5 _)
      have hpos : 0 < bits.length := List.length_pos_iff.2 hbits
      rw [batches_of_ne_nil (by decide) hbits, List.map_cons, List.mapM_cons, hfirst, hwalk]
      refine ⟨_, if bits.length < 5 then 5 - bits.length else pad, rfl, ?_, by split <;> omega⟩
      rw [List.flatten_cons, hflat, List.length_take]
      split
      next hshort =>
        have hzero : pad = 0 := by
          have hall := congrArg List.length hflat
          have hdrop : bits.drop 5 = [] := List.drop_of_length_le (by omega)
          have hnone : groups = [] := by
            rw [hdrop] at hwalk
            simpa using hwalk.symm
          rw [hnone, hdrop] at hall
          simpa using hall.symm
        rw [hzero, List.take_of_length_le (by omega), List.drop_of_length_le (by omega),
          min_eq_right (by omega)]
        simp
      next hlong =>
        rw [min_eq_left (by omega), Nat.sub_self, List.replicate_zero, List.append_nil,
          ← List.append_assoc, List.take_append_drop]

/-- What was written is read back. -/
theorem decode_encode (bytes : List UInt8) : decode (encode bytes) = some bytes := by
  obtain ⟨groups, pad, hwalk, hflat, hpad⟩ :=
    exists_mapM_group (bytes.flatMap fun b => bitsOf 8 b.toNat)
  have hlen : (bytes.flatMap fun b => bitsOf 8 b.toNat).length = bytes.length * 8 := by
    rw [List.length_flatMap]
    simp
  have hwhole : (groups.flatten).length / 8 * 8 = bytes.length * 8 := by
    rw [hflat, List.length_append, List.length_replicate, hlen]
    omega
  have hdrop : groups.flatten.drop (bytes.length * 8) = List.replicate pad false := by
    rw [hflat, List.drop_left' hlen]
  have htake : groups.flatten.take (bytes.length * 8) =
      (bytes.map fun b => bitsOf 8 b.toNat).flatten := by
    rw [hflat, List.take_left' hlen, List.flatMap_def]
  have hcut : batches 8 (bytes.map fun b => bitsOf 8 b.toNat).flatten =
      bytes.map fun b => bitsOf 8 b.toNat :=
    batches_flatten (by decide) fun g hg => by
      obtain ⟨b, -, rfl⟩ := List.mem_map.1 hg
      exact length_bitsOf 8 _
  have hback : ∀ b : UInt8, UInt8.ofNat (ofBits (bitsOf 8 b.toNat)) = b := by
    intro b
    rw [ofBits_bitsOf b.toNat b.toNat_lt, UInt8.ofNat_toNat]
  simp only [decode, encode, String.toList_ofList, hwalk, Option.bind_eq_bind, Option.bind_some,
    hwhole, hdrop, htake, hcut, List.length_replicate, List.map_map, Function.comp_def, hback,
    List.map_id']
  exact if_pos ⟨hpad, by simp⟩

theorem ofBits_lt (bits : List Bool) : ofBits bits < 2 ^ bits.length := by
  induction bits using List.reverseRecOn with
  | nil => simp [ofBits]
  | append_singleton bits b ih =>
      rw [ofBits, List.foldl_append, List.length_append, List.length_singleton, Nat.pow_succ]
      change 2 * ofBits bits + _ < _
      split <;> omega

theorem bitsOf_ofBits (bits : List Bool) (k : ℕ) (h : bits.length = k) :
    bitsOf k (ofBits bits) = bits := by
  subst h
  induction bits using List.reverseRecOn with
  | nil => simp [bitsOf]
  | append_singleton bits b ih =>
      have hval : ofBits (bits ++ [b]) = 2 * ofBits bits + if b then 1 else 0 := by
        rw [ofBits, List.foldl_append]
        rfl
      have hlow : (ofBits (bits ++ [b])).testBit 0 = b := by
        rw [hval, Nat.testBit_zero]
        cases b <;> simp
      have hhigh (i : ℕ) : (ofBits (bits ++ [b])).testBit (i + 1) = (ofBits bits).testBit i := by
        rw [hval, Nat.testBit_succ]
        congr 1
        split <;> omega
      rw [bitsOf, List.length_append, List.length_singleton, List.range_succ_eq_map,
        List.map_cons, List.reverse_cons, hlow, List.map_map]
      congr 1
      refine Eq.trans ?_ ih
      simp only [bitsOf, Function.comp_def, Nat.succ_eq_add_one, hhigh]

/-- A character of the alphabet is the symbol of its group. -/
theorem symbol_of_group {c : Char} {g : List Bool} (h : group c = some g) :
    symbol g = c ∧ g.length = 5 := by
  obtain ⟨i, hi, rfl⟩ := Option.map_eq_some_iff.1 h
  obtain ⟨hlt, hget, -⟩ := List.idxOf?_eq_some_iff.1 hi
  have hback : ∀ i < alphabet.length, ofBits (bitsOf 5 i) = i := by decide
  refine ⟨?_, length_bitsOf 5 i⟩
  rw [symbol, length_bitsOf, Nat.sub_self, List.replicate_zero, List.append_nil, hback i hlt,
    List.getD_eq_getElem _ _ hlt, hget]

/-- Cut short in its last group by zeros only, a row of groups is written as it was. -/
theorem map_symbol_batches {groups : List (List Bool)} (hlen : ∀ g ∈ groups, g.length = 5) {n : ℕ}
    (hn : groups.flatten.length - n < 5) (hzero : ∀ b ∈ groups.flatten.drop n, b = false) :
    (batches 5 (groups.flatten.take n)).map symbol = groups.map symbol := by
  induction groups generalizing n with
  | nil => simp
  | cons g groups ih =>
      have hg := hlen g List.mem_cons_self
      rw [List.flatten_cons] at hn hzero ⊢
      rw [List.length_append] at hn
      have hne : (g ++ groups.flatten).take n ≠ [] := by
        rw [← List.length_pos_iff, List.length_take, List.length_append]
        omega
      by_cases hlast : groups = []
      · subst hlast
        rw [List.flatten_nil, List.append_nil] at hzero hne ⊢
        have hshort : (g.take n).length ≤ 5 := by
          rw [List.length_take]
          omega
        have htail : g.take n ++ List.replicate (5 - (g.take n).length) false = g := by
          have hdrop : g.drop n = List.replicate (5 - (g.take n).length) false := by
            refine List.eq_replicate_iff.2 ⟨?_, hzero⟩
            rw [List.length_drop, List.length_take]
            omega
          rw [← hdrop, List.take_append_drop]
        rw [batches_of_ne_nil (by decide) hne, List.take_of_length_le hshort,
          List.drop_of_length_le hshort, batches_nil, List.map_cons, List.map_cons, symbol, htail,
          symbol, hg, Nat.sub_self, List.replicate_zero, List.append_nil]
      · have hfive : 5 ≤ groups.flatten.length := by
          obtain ⟨g', rest, rfl⟩ := List.exists_cons_of_ne_nil hlast
          have hg' := hlen g' (by simp)
          rw [List.flatten_cons, List.length_append]
          omega
        have hcut : (g ++ groups.flatten).take n = g ++ groups.flatten.take (n - 5) := by
          rw [List.take_append, hg, List.take_of_length_le (by omega)]
        rw [hcut] at hne ⊢
        rw [batches_of_ne_nil (by decide) hne, List.take_left' hg, List.drop_left' hg,
          List.map_cons, List.map_cons,
          ih (fun g' hg' => hlen g' (List.mem_cons_of_mem _ hg')) (by omega) ?_]
        intro b hb
        refine hzero b ?_
        rw [List.drop_append, hg, List.drop_of_length_le (by omega)]
        exact hb

/-- What is read is written back: one text only is read as given bytes. -/
theorem encode_decode {s : String} {bytes : List UInt8} (h : decode s = some bytes) :
    encode bytes = s := by
  simp only [decode, Option.bind_eq_bind, Option.bind_eq_some_iff, Option.ite_none_right_eq_some,
    Option.some.injEq] at h
  obtain ⟨groups, hwalk, ⟨hshort, hzero⟩, rfl⟩ := h
  set bits := groups.flatten with hbits
  set whole := bits.length / 8 * 8 with hwhole
  have hgroups := mapM_eq_some_iff.1 hwalk
  have hlen : ∀ g ∈ groups, g.length = 5 := by
    intro g hg
    obtain ⟨c, -, hc⟩ := (mem_iff_of_mapM hwalk).1 hg
    exact (symbol_of_group hc).2
  have hfull : (bits.take whole).length = whole := by
    rw [List.length_take]
    omega
  have hbytes : ((batches 8 (bits.take whole)).map fun byte => UInt8.ofNat (ofBits byte)).flatMap
      (fun b => bitsOf 8 b.toNat) = bits.take whole := by
    rw [List.flatMap_map]
    calc (batches 8 (bits.take whole)).flatMap
          (fun byte => bitsOf 8 (UInt8.ofNat (ofBits byte)).toNat)
        = (batches 8 (bits.take whole)).flatMap id := by
          refine List.flatMap_congr fun byte hbyte => ?_
          have height : byte.length = 8 := by
            obtain ⟨i, hi⟩ := List.mem_iff_getElem?.1 hbyte
            rw [getElem?_batches (by decide)] at hi
            split_ifs at hi with hin
            obtain rfl := Option.some.inj hi
            rw [List.length_take, List.length_drop]
            omega
          have hlt := ofBits_lt byte
          rw [height] at hlt
          rw [UInt8.toNat_ofNat_of_lt' hlt, bitsOf_ofBits byte 8 height, id]
      _ = bits.take whole := by rw [List.flatMap_id, flatten_batches (by decide)]
  have hmap : groups.map symbol = s.toList := by
    refine List.forall₂_eq_eq_eq ▸ List.forall₂_map_left_iff.2 (hgroups.flip.imp fun g c hc => ?_)
    exact (symbol_of_group hc).1
  rw [encode, hbytes, map_symbol_batches hlen ?_ ?_, hmap, String.ofList_toList]
  · rw [List.length_drop] at hshort
    exact hshort
  · intro b hb
    simpa using List.all_eq_true.1 hzero b hb

theorem forall_alphabet {P : Char → Prop} [DecidablePred P]
    (h : (alphabet.all fun a => decide (P a)) = true) : ∀ a ∈ alphabet, P a := by
  intro a ha
  simpa using List.all_eq_true.1 h a ha

/-- Every character written is of the alphabet. -/
theorem mem_alphabet_of_encode {bytes : List UInt8} {c : Char} (h : c ∈ (encode bytes).toList) :
    c ∈ alphabet := by
  rw [encode, String.toList_ofList] at h
  obtain ⟨g, -, rfl⟩ := List.mem_map.1 h
  rw [symbol, List.getD_eq_getElem?_getD]
  cases hget : alphabet[ofBits (g ++ List.replicate (5 - g.length) false)]? with
  | none => decide
  | some c => exact List.mem_of_getElem? hget

end Base32

end Lib
