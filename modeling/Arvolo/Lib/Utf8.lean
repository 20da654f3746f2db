import Mathlib

/-!
Decoding UTF-8 without failing, as browsers do: a leading byte order mark is dropped,
and what is not the encoding of a character becomes U+FFFD, one for the longest
beginning of an encoding that is there.
-/

namespace Lib

/-- `String::from_utf8`. -/
def fromUtf8 (b : List UInt8) : Option String := String.fromUTF8? ⟨⟨b⟩⟩

def utf8 (cs : List Char) : List UInt8 := cs.flatMap String.utf8EncodeChar

/-- The character a sequence starts with. -/
def firstChar (b : List UInt8) : Option Char := ByteArray.utf8DecodeChar? ⟨⟨b⟩⟩ 0

/-- After a first byte: how many bytes follow it in an encoding, and the bounds of the
first of them. -/
def follow (b : UInt8) : Option (ℕ × UInt8 × UInt8) :=
  if 0xC2 ≤ b ∧ b ≤ 0xDF then some (1, 0x80, 0xBF)
  else if 0xE0 ≤ b ∧ b ≤ 0xEF then
    some (2, if b = 0xE0 then 0xA0 else 0x80, if b = 0xED then 0x9F else 0xBF)
  else if 0xF0 ≤ b ∧ b ≤ 0xF4 then
    some (3, if b = 0xF0 then 0x90 else 0x80, if b = 0xF4 then 0x8F else 0xBF)
  else none

/-- How many bytes one U+FFFD stands for. -/
def brokenLen : List UInt8 → ℕ
  | [] => 1
  | b :: bs =>
      match follow b, bs with
      | some (n, lower, upper), c :: cs =>
          if lower ≤ c ∧ c ≤ upper then
            2 + ((cs.take (n - 1)).takeWhile fun c => 0x80 ≤ c && c ≤ 0xBF).length
          else 1
      | _, _ => 1

/-- The decoder's run over `n` characters at most. -/
def decodeLossy : ℕ → List UInt8 → List Char
  | 0, _ => []
  | _ + 1, [] => []
  | n + 1, b :: bs =>
      match firstChar (b :: bs) with
      | some c => c :: decodeLossy n ((b :: bs).drop c.utf8Size)
      | none => '\uFFFD' :: decodeLossy n ((b :: bs).drop (brokenLen (b :: bs)))

/-- The byte order mark. -/
def bom : List UInt8 := [0xEF, 0xBB, 0xBF]

def dropBom (b : List UInt8) : List UInt8 := if b.take 3 = bom then b.drop 3 else b

/-- `TextDecoder.decode`. -/
def textDecode (b : List UInt8) : String :=
  String.ofList (decodeLossy (dropBom b).length (dropBom b))

theorem mk_eq_toByteArray (b : List UInt8) : (⟨⟨b⟩⟩ : ByteArray) = b.toByteArray := by
  apply ByteArray.ext
  rw [List.data_toByteArray]

theorem fromUtf8_eq_some {b : List UInt8} {s : String} :
    fromUtf8 b = some s ↔ b = utf8 s.toList := by
  have hs : s.toByteArray = (utf8 s.toList).toByteArray := by
    conv_lhs => rw [← String.ofList_toList (s := s)]
    rfl
  unfold fromUtf8 String.fromUTF8?
  rw [mk_eq_toByteArray]
  constructor
  · intro h
    split_ifs at h with hv
    have hbytes := congrArg String.toByteArray (Option.some.inj h)
    rw [hs] at hbytes
    exact List.toByteArray_inj.1 hbytes
  · rintro rfl
    have hv : (utf8 s.toList).toByteArray.IsValidUTF8 := hs ▸ s.isValidUTF8
    rw [dif_pos hv]
    exact congrArg some (String.toByteArray_inj.1 hs.symm)

theorem firstChar_utf8 (c : Char) (rest : List UInt8) :
    firstChar (String.utf8EncodeChar c ++ rest) = some c := by
  rw [firstChar, mk_eq_toByteArray, List.toByteArray_append]
  exact ByteArray.utf8DecodeChar?_utf8EncodeChar_append

theorem firstChar_eq_some {b : List UInt8} {c : Char} (h : firstChar b = some c) :
    ∃ rest, b = String.utf8EncodeChar c ++ rest := by
  rw [firstChar, mk_eq_toByteArray] at h
  obtain ⟨l, hl⟩ := ByteArray.exists_of_utf8DecodeChar?_eq_some h
  refine ⟨l.data.toList, List.toByteArray_inj.1 ?_⟩
  rw [hl, List.toByteArray_append, ← mk_eq_toByteArray l.data.toList]

theorem decodeLossy_succ {n : ℕ} {b : List UInt8} (hb : b ≠ []) : decodeLossy (n + 1) b =
    match firstChar b with
    | some c => c :: decodeLossy n (b.drop c.utf8Size)
    | none => '\uFFFD' :: decodeLossy n (b.drop (brokenLen b)) := by
  cases b with
  | nil => exact absurd rfl hb
  | cons x b => rfl

/-- What is an encoding is decoded. -/
theorem decodeLossy_utf8 {n : ℕ} {cs : List Char} (h : (utf8 cs).length ≤ n) :
    decodeLossy n (utf8 cs) = cs := by
  induction cs generalizing n with
  | nil => cases n <;> rfl
  | cons c cs ih =>
      have hcons : utf8 (c :: cs) = String.utf8EncodeChar c ++ utf8 cs := List.flatMap_cons
      have hlen := String.length_utf8EncodeChar c
      have hpos := c.utf8Size_pos
      rw [hcons, List.length_append, hlen] at h
      obtain ⟨n, rfl⟩ := Nat.exists_eq_succ_of_ne_zero (show n ≠ 0 by omega)
      have hne : String.utf8EncodeChar c ++ utf8 cs ≠ [] := by simp
      rw [hcons, decodeLossy_succ hne, firstChar_utf8]
      simp only
      rw [List.drop_left' hlen, ih (by omega)]

theorem utf8_append (cs ds : List Char) : utf8 (cs ++ ds) = utf8 cs ++ utf8 ds :=
  List.flatMap_append

theorem utf8_bom : utf8 ['\uFEFF'] = bom := by decide

/-- A text that does not start with a byte order mark is decoded as it was. -/
theorem textDecode_eq {b : List UInt8} {s : String} (h : fromUtf8 b = some s) :
    textDecode b = s ↔ b.take 3 ≠ bom := by
  obtain rfl := fromUtf8_eq_some.1 h
  constructor
  · intro heq hbom
    -- without its mark the text is one character shorter
    have hsplit : utf8 s.toList = bom ++ (utf8 s.toList).drop 3 := by
      rw [← hbom, List.take_append_drop]
    have hfirst : firstChar (utf8 s.toList) = some '\uFEFF' := by
      rw [hsplit, ← utf8_bom]
      exact firstChar_utf8 '\uFEFF' _
    cases hs : s.toList with
    | nil =>
        rw [hs] at hbom
        exact absurd hbom (by decide)
    | cons c cs =>
        have hcons : utf8 (c :: cs) = String.utf8EncodeChar c ++ utf8 cs := List.flatMap_cons
        rw [hs, hcons, firstChar_utf8] at hfirst
        obtain rfl := Option.some.inj hfirst
        have hdrop : dropBom (utf8 s.toList) = utf8 cs := by
          rw [dropBom, if_pos hbom, hs, hcons]
          rfl
        rw [textDecode, hdrop, decodeLossy_utf8 le_rfl] at heq
        have hlen := congrArg (fun s => s.toList.length) heq
        rw [hs] at hlen
        simp at hlen
  · intro hbom
    rw [textDecode, dropBom, if_neg hbom, decodeLossy_utf8 le_rfl, String.ofList_toList]

theorem brokenLen_pos (b : List UInt8) : 0 < brokenLen b := by
  unfold brokenLen
  split
  · exact Nat.one_pos
  · split
    · split_ifs <;> omega
    · exact Nat.one_pos

theorem length_decodeLossy_le (n : ℕ) (b : List UInt8) : (decodeLossy n b).length ≤ b.length := by
  induction n generalizing b with
  | zero => exact Nat.zero_le _
  | succ n ih =>
      cases b with
      | nil => exact le_rfl
      | cons x b =>
          rw [decodeLossy_succ (List.cons_ne_nil x b)]
          cases firstChar (x :: b) with
          | some c =>
              have hpos := c.utf8Size_pos
              have hrest := ih ((x :: b).drop c.utf8Size)
              rw [List.length_drop] at hrest
              simp only [List.length_cons] at hrest ⊢
              omega
          | none =>
              have hpos := brokenLen_pos (x :: b)
              have hrest := ih ((x :: b).drop (brokenLen (x :: b)))
              rw [List.length_drop] at hrest
              simp only [List.length_cons] at hrest ⊢
              omega

/-- A text of as many characters as bytes, with none of them a U+FFFD, was read byte by
byte. -/
theorem eq_utf8_of_decodeLossy {n : ℕ} {b : List UInt8} {cs : List Char}
    (h : decodeLossy n b = cs) (hlen : cs.length = b.length) (hcs : '\uFFFD' ∉ cs) :
    b = utf8 cs := by
  induction n generalizing b cs with
  | zero =>
      obtain rfl : cs = [] := h.symm
      exact List.length_eq_zero_iff.1 hlen.symm
  | succ n ih =>
      cases b with
      | nil =>
          obtain rfl : cs = [] := h.symm
          rfl
      | cons x b =>
          rw [decodeLossy_succ (List.cons_ne_nil x b)] at h
          cases hc : firstChar (x :: b) with
          | none =>
              simp only [hc] at h
              subst h
              exact absurd List.mem_cons_self hcs
          | some c =>
              simp only [hc] at h
              subst h
              obtain ⟨rest, hrest⟩ := firstChar_eq_some hc
              have hsize := String.length_utf8EncodeChar c
              have hpos := c.utf8Size_pos
              have hle := length_decodeLossy_le n ((x :: b).drop c.utf8Size)
              have hdrop : (x :: b).drop c.utf8Size = rest := by
                rw [hrest, List.drop_left' hsize]
              have htotal := congrArg List.length hrest
              rw [List.length_append, hsize] at htotal
              rw [hdrop] at hle hlen hcs
              rw [List.length_cons] at hlen
              have hrec : rest = utf8 (decodeLossy n rest) :=
                ih rfl (by omega) fun h => hcs (List.mem_cons_of_mem _ h)
              have hcons : utf8 (c :: decodeLossy n rest) =
                  String.utf8EncodeChar c ++ utf8 (decodeLossy n rest) := List.flatMap_cons
              rw [hdrop, hcons, ← hrec]
              exact hrest

/-- A text of as many characters as its bytes is read from its own encoding only. -/
theorem textDecode_eq_iff {b : List UInt8} {s : String} (hlen : s.toList.length = b.length)
    (hs : '\uFFFD' ∉ s.toList) (hbom : (utf8 s.toList).take 3 ≠ bom) :
    textDecode b = s ↔ b = utf8 s.toList := by
  constructor
  · intro h
    have hchars : decodeLossy (dropBom b).length (dropBom b) = s.toList := by
      rw [← h, textDecode, String.toList_ofList]
    by_cases hb : b.take 3 = bom
    · have hle := length_decodeLossy_le (dropBom b).length (dropBom b)
      have hthree := congrArg List.length hb
      rw [hchars, dropBom, if_pos hb, List.length_drop] at hle
      rw [List.length_take] at hthree
      simp only [bom, List.length_cons, List.length_nil] at hthree
      omega
    · rw [dropBom, if_neg hb] at hchars
      exact eq_utf8_of_decodeLossy hchars hlen hs
  · rintro rfl
    exact (textDecode_eq (fromUtf8_eq_some.2 rfl)).2 hbom

/-- What `to_string_lossy` makes of bytes. -/
def lossy (b : List UInt8) : List Char := decodeLossy b.length b

theorem lossy_ne_nil {b : List UInt8} (hb : b ≠ []) : lossy b ≠ [] := by
  obtain ⟨n, hn⟩ := Nat.exists_eq_succ_of_ne_zero (mt List.length_eq_zero_iff.1 hb)
  rw [lossy, hn, decodeLossy_succ hb]
  cases firstChar b <;> exact List.cons_ne_nil _ _

/-- A character that no mark of broken bytes put there has its encoding in them. -/
theorem mem_of_mem_decodeLossy {n : ℕ} {b : List UInt8} {c : Char} {x : UInt8}
    (hc : c ∈ decodeLossy n b) (hmark : c ≠ '\uFFFD') (hx : x ∈ String.utf8EncodeChar c) :
    x ∈ b := by
  induction n generalizing b with
  | zero => cases hc
  | succ n ih =>
      cases b with
      | nil => cases hc
      | cons y b =>
          rw [decodeLossy_succ (List.cons_ne_nil y b)] at hc
          cases hd : firstChar (y :: b) with
          | none =>
              simp only [hd] at hc
              rcases List.mem_cons.1 hc with rfl | hrest
              · exact absurd rfl hmark
              · exact List.mem_of_mem_drop (ih hrest)
          | some d =>
              simp only [hd] at hc
              rcases List.mem_cons.1 hc with rfl | hrest
              · obtain ⟨rest, hsplit⟩ := firstChar_eq_some hd
                rw [hsplit]
                exact List.mem_append_left rest hx
              · exact List.mem_of_mem_drop (ih hrest)

/-- Without a mark of broken bytes, the bytes were an encoding. -/
theorem utf8_decodeLossy {n : ℕ} {b : List UInt8} (hn : b.length ≤ n)
    (h : '\uFFFD' ∉ decodeLossy n b) : utf8 (decodeLossy n b) = b := by
  induction n generalizing b with
  | zero =>
      obtain rfl := List.length_eq_zero_iff.1 (Nat.le_zero.1 hn)
      rfl
  | succ n ih =>
      cases b with
      | nil => rfl
      | cons x b =>
          rw [decodeLossy_succ (List.cons_ne_nil x b)] at h ⊢
          cases hc : firstChar (x :: b) with
          | none =>
              simp only [hc] at h
              exact absurd List.mem_cons_self h
          | some c =>
              simp only [hc] at h ⊢
              obtain ⟨rest, hrest⟩ := firstChar_eq_some hc
              have hsize := String.length_utf8EncodeChar c
              have hpos := c.utf8Size_pos
              have hdrop : (x :: b).drop c.utf8Size = rest := by
                rw [hrest, List.drop_left' hsize]
              have htotal := congrArg List.length hrest
              rw [List.length_append, hsize] at htotal
              rw [hdrop] at h ⊢
              have hrec : utf8 (decodeLossy n rest) = rest :=
                ih (by omega) fun hmem => h (List.mem_cons_of_mem c hmem)
              have hcons : utf8 (c :: decodeLossy n rest) =
                  String.utf8EncodeChar c ++ utf8 (decodeLossy n rest) := List.flatMap_cons
              rw [hcons, hrec, hrest]

end Lib
