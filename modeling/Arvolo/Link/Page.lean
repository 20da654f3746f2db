import Arvolo.Lib.Double
import Arvolo.Link.Container

/-!
The download page's reader of a link's container, `run` of `web/decryptor/src/dl.js`,
beside `decrypt_link`, which calls itself its mirror.

The page reads a stream in whatever pieces arrive, counts in doubles, and decodes text
without failing; it checks neither the chunk size nor the final size.
-/

namespace Arvolo.Link

open Crypto Send Upload Lib

/-! ### The source -/

/-- `byteReader`: what was read and not yet taken, and the pieces still to come. -/
structure ByteReader where
  buf : Bytes
  stream : List Bytes

namespace ByteReader

/-- `fill`: read until there are `n` bytes, or no more pieces. -/
def fill (n : ℕ) : Bytes → List Bytes → ByteReader
  | buf, [] => ⟨buf, []⟩
  | buf, v :: vs => if buf.length < n then fill n (buf ++ v) vs else ⟨buf, v :: vs⟩

def exact (n : ℕ) (r : ByteReader) : Except String (Bytes × ByteReader) :=
  let r := fill n r.buf r.stream
  if r.buf.length < n then .error "errTruncated"
  else .ok (r.buf.take n, { r with buf := r.buf.drop n })

/-- `u32` and `u64` of what `exact` reads. -/
def word (k : ℕ) (r : ByteReader) : Except String (ℕ × ByteReader) :=
  (r.exact k).map fun p => (ofLeBytes p.1, p.2)

/-- The bytes still to be taken. -/
def rest (r : ByteReader) : Bytes := r.buf ++ r.stream.flatten

end ByteReader

/-- `>>> 0`. -/
def toUint32 (n : ℕ) : ℕ := n % 2 ^ 32

def nonceFor (index : ℕ) : Bytes := leBytes 4 (toUint32 index) ++ List.replicate 8 0

def aadFor (index total : ℕ) : Bytes := leBytes 4 (toUint32 index) ++ leBytes 4 (toUint32 total)

/-- `i++` on a number: above 2^53 the sum is rounded back. -/
def increment (i : ℕ) : ℕ := if i < 2 ^ 53 then i + 1 else i

section

variable (aead : Aead) (key : Bytes)

def decChunk (index total : ℕ) (ct : Bytes) : Option Bytes :=
  aead.decrypt key (nonceFor index) (aadFor index total) ct

/-- The loop over the chunks, for as long as there can be bytes to read. -/
def writeChunks (total : ℕ) : ℕ → ℕ → ByteReader → Bytes → Except String Bytes
  | 0, _, _, _ => .error "errTruncated"
  | fuel + 1, i, r, out =>
      if i < total then do
        let (ctLen, r) ← r.word 4
        let (ct, r) ← r.exact ctLen
        let pt ← context "OperationError" (decChunk aead key i total ct)
        writeChunks total fuel (increment i) r (out ++ pt)
      else .ok out

/-- `run`, from the body of the response to the name and the bytes given to the sink. -/
def run (pieces : List Bytes) : Except String (String × Bytes) := do
  let (lead, r) ← ByteReader.exact 8 ⟨[], pieces⟩
  ensure (textDecode lead = "ARVLNK01") "errNotArvolo"
  let (chunkSize, r) ← r.word 4
  let (size, r) ← r.word 8
  let totalSize := toDouble size
  let (metaLen, r) ← r.word 4
  let totalChunks := if chunkSize ≠ 0 then ⌈toDouble (totalSize / chunkSize)⌉₊ else 0
  let (metaCt, r) ← r.exact metaLen
  let metaPt ← context "errDecrypt" (decChunk aead key metaIndex totalChunks metaCt)
  let name := textDecode metaPt
  let out ← writeChunks aead key totalChunks (r.rest.length + 1) 0 r []
  return (name, out)

end

/-! ### Reading in pieces -/

namespace ByteReader

theorem rest_fill (n : ℕ) (buf : Bytes) (vs : List Bytes) :
    (fill n buf vs).rest = buf ++ vs.flatten := by
  induction vs generalizing buf with
  | nil => rfl
  | cons v vs ih =>
      unfold fill
      by_cases h : buf.length < n
      · rw [if_pos h, ih, List.flatten_cons, List.append_assoc]
      · rw [if_neg h]
        rfl

/-- A buffer that stays short has the whole stream in it. -/
theorem length_fill_lt {n : ℕ} {buf : Bytes} {vs : List Bytes}
    (h : (fill n buf vs).buf.length < n) : (fill n buf vs).stream = [] := by
  induction vs generalizing buf with
  | nil => rfl
  | cons v vs ih =>
      unfold fill at h ⊢
      by_cases hlt : buf.length < n
      · rw [if_pos hlt] at h ⊢
        exact ih h
      · rw [if_neg hlt] at h
        exact absurd h hlt

/-- Taking from the pieces is taking from the bytes they make. -/
theorem exact_eq_ok {n : ℕ} {r : ByteReader} {out : Bytes} {r' : ByteReader}
    (h : r.exact n = .ok (out, r')) : take? n r.rest = some (out, r'.rest) := by
  have hrest := rest_fill n r.buf r.stream
  unfold exact at h
  simp only at h
  split_ifs at h with hlt
  obtain ⟨rfl, rfl⟩ := Prod.mk.inj (Except.ok.inj h)
  refine take?_eq_some.2 ⟨?_, List.length_take_of_le (not_lt.1 hlt)⟩
  rw [rest, ← hrest, rest, rest, ← List.append_assoc, List.take_append_drop]

theorem exact_of_take? {n : ℕ} {r : ByteReader} {out s : Bytes}
    (h : take? n r.rest = some (out, s)) : ∃ r', r.exact n = .ok (out, r') ∧ r'.rest = s := by
  cases hex : r.exact n with
  | ok p =>
      have hp := exact_eq_ok (show r.exact n = .ok (p.1, p.2) from hex)
      obtain ⟨rfl, rfl⟩ := Prod.mk.inj (Option.some.inj (h.symm.trans hp))
      exact ⟨p.2, rfl, rfl⟩
  | error e =>
      have hrest := rest_fill n r.buf r.stream
      unfold exact at hex
      simp only at hex
      split_ifs at hex with hlt
      -- too few bytes in all
      rw [rest, length_fill_lt hlt] at hrest
      obtain ⟨hsplit, hlen⟩ := take?_eq_some.1 h
      have hle := congrArg List.length hsplit
      rw [rest, ← hrest, List.length_append, List.length_append] at hle
      simp only [List.flatten_nil, List.length_nil] at hle
      omega

theorem word_eq_ok {k n : ℕ} {r r' : ByteReader} (h : r.word k = .ok (n, r')) :
    Lib.word k r.rest = some (n, r'.rest) := by
  unfold word at h
  cases hex : r.exact k with
  | error e =>
      rw [hex] at h
      exact nomatch h
  | ok p =>
      rw [hex] at h
      obtain ⟨rfl, rfl⟩ := Prod.mk.inj (Except.ok.inj h)
      rw [Lib.word, exact_eq_ok (show r.exact k = .ok (p.1, p.2) from hex), Option.map_some]

theorem word_of_word {k n : ℕ} {r : ByteReader} {s : Bytes}
    (h : Lib.word k r.rest = some (n, s)) : ∃ r', r.word k = .ok (n, r') ∧ r'.rest = s := by
  obtain ⟨⟨b, s'⟩, htake, heq⟩ := Option.map_eq_some_iff.1 h
  obtain ⟨rfl, rfl⟩ := Prod.mk.inj heq
  obtain ⟨r', hex, hrest⟩ := exact_of_take? htake
  exact ⟨r', by rw [word, hex]; rfl, hrest⟩

end ByteReader

variable {aead : Aead} {key : Bytes}

theorem decChunk_eq (index total : ℕ) (ct : Bytes) :
    decChunk aead key index total ct = openChunk aead key index total ct := by
  have hword : ∀ n, leBytes 4 (toUint32 n) = u32le n := fun n =>
    (leBytes_mod 4 n).trans (u32le_eq n).symm
  rw [decChunk, openChunk, nonceFor, aadFor, hword, hword]
  rfl

theorem length_of_take? {n : ℕ} {s a rest : Bytes} (h : take? n s = some (a, rest)) :
    s.length = n + rest.length := by
  obtain ⟨rfl, rfl⟩ := take?_eq_some.1 h
  exact List.length_append

theorem length_of_word {k n : ℕ} {s rest : Bytes} (h : Lib.word k s = some (n, rest)) :
    s.length = k + rest.length := by
  rw [(word_eq_some.1 h).1, List.length_append, length_leBytes]

/-- The loop of the page is that of the format, up to the count a number can reach. -/
theorem writeChunks_eq_ok {total fuel i : ℕ} {r : ByteReader} {out res : Bytes}
    (htotal : total ≤ 2 ^ 53) (hi : i ≤ total) (hfuel : r.rest.length < fuel) :
    writeChunks aead key total fuel i r out = .ok res ↔
      ∃ rest, openChunks aead key total (total - i) i r.rest = some rest ∧ out ++ rest = res := by
  induction fuel generalizing i r out with
  | zero => exact absurd hfuel (Nat.not_lt_zero _)
  | succ fuel ih =>
      rcases Nat.lt_or_ge i total with hlt | hge
      · have hinc : increment i = i + 1 := if_pos (by omega)
        have hn : total - i = (total - (i + 1)) + 1 := by omega
        rw [writeChunks, if_pos hlt, hn, openChunks]
        simp only [bind_eq_ok, context_eq_ok, decChunk_eq, hinc, Option.bind_eq_bind,
          Option.bind_eq_some_iff, Option.pure_def, Option.some.injEq]
        constructor
        · rintro ⟨⟨len, r₁⟩, hlen, ⟨ct, r₂⟩, hct, pt, hpt, hrec⟩
          have hlen' := ByteReader.word_eq_ok hlen
          have hct' := ByteReader.exact_eq_ok hct
          have h₁ := length_of_word hlen'
          have h₂ : r₁.rest.length = len + r₂.rest.length := length_of_take? hct'
          have hless : r₂.rest.length < fuel := by omega
          obtain ⟨rest, hrest, rfl⟩ := (ih (by omega) hless).1 hrec
          exact ⟨pt ++ rest, ⟨_, hlen', _, hct', pt, hpt, rest, hrest, rfl⟩, by simp⟩
        · rintro ⟨-, ⟨⟨len, s₁⟩, hlen, ⟨ct, s₂⟩, hct, pt, hpt, rest, hrest, rfl⟩, rfl⟩
          obtain ⟨r₁, hr₁, rfl⟩ := ByteReader.word_of_word hlen
          obtain ⟨r₂, hr₂, rfl⟩ := ByteReader.exact_of_take? hct
          have h₁ := length_of_word hlen
          have h₂ : r₁.rest.length = len + r₂.rest.length := length_of_take? hct
          have hless : r₂.rest.length < fuel := by omega
          exact ⟨_, hr₁, _, hr₂, pt, hpt, (ih (by omega) hless).2 ⟨rest, hrest, by simp⟩⟩
      · have hzero : total - i = 0 := by omega
        rw [writeChunks, if_neg (by omega), hzero, openChunks]
        simp

/-- A count the index does not reach is never done. -/
theorem writeChunks_ne_ok {total fuel i : ℕ} {r : ByteReader} {out res : Bytes}
    (htotal : 2 ^ 53 < total) (hi : i ≤ 2 ^ 53) :
    writeChunks aead key total fuel i r out ≠ .ok res := by
  induction fuel generalizing i r out with
  | zero => exact nofun
  | succ fuel ih =>
      intro h
      rw [writeChunks, if_pos (by omega)] at h
      simp only [bind_eq_ok] at h
      obtain ⟨p, -, q, -, pt, -, h⟩ := h
      have hinc : increment i ≤ 2 ^ 53 := by
        unfold increment
        split_ifs <;> omega
      exact ih hinc h

/-- The number of chunks the page expects. -/
def Header.pageTotal (h : Header) : ℕ :=
  if h.chunkSize ≠ 0 then ⌈toDouble (toDouble h.size / h.chunkSize)⌉₊ else 0

theorem textDecode_eq_magic {lead : Bytes} (h : lead.length = 8) :
    textDecode lead = "ARVLNK01" ↔ lead = magic := by
  have hmagic : utf8 "ARVLNK01".toList = magic := by decide
  rw [textDecode_eq_iff (by rw [h]; rfl) (by decide) (by decide), hmagic]

/-- What the page accepts. -/
theorem run_eq_ok {pieces : List Bytes} {name : String} {out : Bytes} :
    run aead key pieces = .ok (name, out) ↔
      ∃ o, openWith aead key Header.pageTotal pieces.flatten = some o ∧
        o.header.pageTotal ≤ 2 ^ 53 ∧ textDecode o.name = name ∧ o.content = out := by
  simp only [run, openWith, readHeader, bind_eq_ok, context_eq_ok, ensure_eq_ok, pure_eq_ok,
    decChunk_eq, Option.bind_eq_bind, Option.bind_eq_some_iff, Option.pure_def, Option.some.injEq,
    guard_eq_some, Prod.mk.injEq]
  constructor
  · rintro ⟨⟨lead, r⟩, hlead, -, hmagic, ⟨cs, r₁⟩, hcs, ⟨size, r₂⟩, hsize, ⟨len, r₃⟩, hlen,
      ⟨ct, r₄⟩, hct, pt, hpt, out, hout, rfl, rfl⟩
    have hlead' := ByteReader.exact_eq_ok hlead
    have height := (take?_eq_some.1 hlead').2
    by_cases hcount : Header.pageTotal ⟨cs, size, ct⟩ ≤ 2 ^ 53
    · obtain ⟨rest, hrest, rfl⟩ :=
        (writeChunks_eq_ok hcount (Nat.zero_le _) (Nat.lt_succ_self _)).1 hout
      refine ⟨_, ⟨_, ⟨_, hlead', (), (textDecode_eq_magic height).1 hmagic, _,
        ByteReader.word_eq_ok hcs, _, ByteReader.word_eq_ok hsize, _, ByteReader.word_eq_ok hlen,
        _, ByteReader.exact_eq_ok hct, rfl⟩, _, hpt, _, hrest, rfl⟩, hcount, rfl, rfl⟩
    · exact absurd hout (writeChunks_ne_ok (not_le.1 hcount) (Nat.zero_le _))
  · rintro ⟨-, ⟨-, ⟨⟨lead, s⟩, hlead, -, hmagic, ⟨cs, s₁⟩, hcs, ⟨size, s₂⟩, hsize, ⟨len, s₃⟩, hlen,
      ⟨ct, s₄⟩, hct, rfl⟩, pt, hpt, out, hout, rfl⟩, hcount, rfl, rfl⟩
    have height := (take?_eq_some.1 hlead).2
    obtain ⟨r, hr, rfl⟩ := ByteReader.exact_of_take? (r := ⟨[], pieces⟩) hlead
    obtain ⟨r₁, hr₁, rfl⟩ := ByteReader.word_of_word hcs
    obtain ⟨r₂, hr₂, rfl⟩ := ByteReader.word_of_word hsize
    obtain ⟨r₃, hr₃, rfl⟩ := ByteReader.word_of_word hlen
    obtain ⟨r₄, hr₄, rfl⟩ := ByteReader.exact_of_take? hct
    exact ⟨_, hr, (), (textDecode_eq_magic height).2 hmagic, _, hr₁, _, hr₂, _, hr₃, _, hr₄, _,
      hpt, _, (writeChunks_eq_ok hcount (Nat.zero_le _) (Nat.lt_succ_self _)).2
        ⟨_, hout, List.nil_append _⟩, rfl, rfl⟩

/-! ### Agreement -/

/-- AES-GCM is a stream cipher: the associated data decides whether a ciphertext opens,
not what it opens to. -/
def OneText (aead : Aead) : Prop :=
  ∀ {k n a a' c m m'}, aead.decrypt k n a c = some m → aead.decrypt k n a' c = some m' → m = m'

/-- Both readers accept the same blobs, with the same name and bytes. -/
def Agree (aead : Aead) (key : Bytes) (pieces : List Bytes) : Prop :=
  ∀ r, run aead key pieces = .ok r ↔ decryptLink aead key pieces.flatten = .ok r

/-- What `decrypt_link` checks of the units it opened. -/
structure InOrder (o : Opened) : Prop where
  chunkSize : 0 < o.header.chunkSize
  size : o.content.length = o.header.size
  name : (fromUtf8 o.name).isSome = true

/-- The blob gives the page nothing to accept that `decrypt_link` would not, and has as
many chunks for the one as for the other. -/
structure Settled (aead : Aead) (key blob : Bytes) : Prop where
  page : ∀ o, openWith aead key Header.pageTotal blob = some o → o.header.pageTotal ≤ 2 ^ 53 →
    InOrder o ∧ o.name.take 3 ≠ bom ∧ openWith aead key Header.total blob = some o
  link : ∀ o, openWith aead key Header.total blob = some o → InOrder o →
    o.header.pageTotal ≤ 2 ^ 53 ∧ openWith aead key Header.pageTotal blob = some o

theorem openWith_eq_some {count : Header → ℕ} {blob : Bytes} {o : Opened} :
    openWith aead key count blob = some o ↔ ∃ c, readHeader blob = some (o.header, c) ∧
      openChunk aead key metaIndex (count o.header) o.header.metaCt = some o.name ∧
      openChunks aead key (count o.header) (count o.header) 0 c = some o.content := by
  simp only [openWith, Option.bind_eq_bind, Option.bind_eq_some_iff, Option.pure_def,
    Option.some.injEq, Prod.exists]
  constructor
  · rintro ⟨h, c, hread, n, hn, out, hout, rfl⟩
    exact ⟨c, hread, hn, hout⟩
  · rintro ⟨c, hread, hn, hout⟩
    exact ⟨_, c, hread, _, hn, _, hout, rfl⟩

/-- Two readings of one blob differ in the content only. -/
theorem opened_eq (haead : OneText aead) {count count' : Header → ℕ} {blob : Bytes}
    {o o' : Opened} (h : openWith aead key count blob = some o)
    (h' : openWith aead key count' blob = some o') (hcontent : o.content = o'.content) :
    o = o' := by
  obtain ⟨c, hread, hname, -⟩ := openWith_eq_some.1 h
  obtain ⟨c', hread', hname', -⟩ := openWith_eq_some.1 h'
  obtain ⟨hheader, -⟩ := Prod.mk.inj (Option.some.inj (hread.symm.trans hread'))
  obtain ⟨header, name, content⟩ := o
  obtain ⟨header', name', content'⟩ := o'
  obtain rfl : header = header' := hheader
  obtain rfl : content = content' := hcontent
  obtain rfl : name = name' := haead hname hname'
  rfl

/-- What the page accepts of units that `decrypt_link` would accept too. -/
theorem InOrder.decryptLink {o : Opened} (h : InOrder o) {blob : Bytes}
    (hopen : openWith aead key Header.total blob = some o) {name : String}
    (hname : fromUtf8 o.name = some name) :
    Link.decryptLink aead key blob = .ok (name, o.content) :=
  decryptLink_eq_ok.2 ⟨o, hopen, h.chunkSize, hname, h.size, rfl⟩

/-- The page and `decrypt_link` agree exactly on the blobs that are settled. -/
theorem agree_iff_settled (haead : OneText aead) (key : Bytes) (pieces : List Bytes) :
    Agree aead key pieces ↔ Settled aead key pieces.flatten := by
  constructor
  · intro h
    constructor
    · intro o hopen hcount
      have hrun := run_eq_ok.2 ⟨o, hopen, hcount, rfl, rfl⟩
      obtain ⟨o', hopen', hpos, hname, hsize, hcontent⟩ := decryptLink_eq_ok.1 ((h _).1 hrun)
      obtain rfl := opened_eq haead hopen' hopen hcontent
      exact ⟨⟨hpos, hsize, by rw [hname]; rfl⟩, (textDecode_eq hname).1 rfl, hopen'⟩
    · intro o hopen horder
      obtain ⟨name, hname⟩ := Option.isSome_iff_exists.1 horder.name
      obtain ⟨o', hopen', hcount, -, hcontent⟩ :=
        run_eq_ok.1 ((h _).2 (horder.decryptLink hopen hname))
      obtain rfl := opened_eq haead hopen' hopen hcontent
      exact ⟨hcount, hopen'⟩
  · rintro h ⟨name, out⟩
    constructor
    · intro hrun
      obtain ⟨o, hopen, hcount, rfl, rfl⟩ := run_eq_ok.1 hrun
      obtain ⟨horder, hbom, hopen'⟩ := h.page o hopen hcount
      obtain ⟨name, hname⟩ := Option.isSome_iff_exists.1 horder.name
      rw [(textDecode_eq hname).2 hbom]
      exact horder.decryptLink hopen' hname
    · intro hdec
      obtain ⟨o, hopen, hpos, hname, hsize, rfl⟩ := decryptLink_eq_ok.1 hdec
      obtain ⟨hcount, hopen'⟩ := h.link o hopen ⟨hpos, hsize, by rw [hname]; rfl⟩
      obtain ⟨-, hbom, -⟩ := h.page o hopen' hcount
      exact run_eq_ok.2 ⟨o, hopen', hcount, (textDecode_eq hname).2 hbom, rfl⟩

/-- For files below 2^53 bytes in fewer than 2^32 chunks the counts are the same. -/
theorem pageTotal_eq {h : Header} (hpos : 0 < h.chunkSize) (hsize : h.size < 2 ^ 53)
    (hcount : (h.size + (h.chunkSize - 1)) / h.chunkSize < 2 ^ 32) : h.pageTotal = h.total := by
  rw [Header.pageTotal, if_pos hpos.ne', toDouble_natCast hsize, ceil_toDouble_div hsize hpos,
    Header.total, totalChunksFor, Nat.mod_eq_of_lt hcount]

/-- Where the counts are the same, a blob is settled if it opens in order and to a name
without a byte order mark, or not at all. -/
theorem settled_of_pageTotal {blob : Bytes}
    (hcount : ∀ h c, readHeader blob = some (h, c) → h.pageTotal = h.total)
    (horder : ∀ o, openWith aead key Header.total blob = some o →
      InOrder o ∧ o.name.take 3 ≠ bom) : Settled aead key blob := by
  have hsame : ∀ o, openWith aead key Header.pageTotal blob = some o ↔
      openWith aead key Header.total blob = some o := by
    intro o
    rw [openWith_eq_some, openWith_eq_some]
    constructor
    · rintro ⟨c, hread, hopen⟩
      exact ⟨c, hread, hcount _ _ hread ▸ hopen⟩
    · rintro ⟨c, hread, hopen⟩
      exact ⟨c, hread, (hcount _ _ hread).symm ▸ hopen⟩
  constructor
  · intro o hopen _
    have hopen' := (hsame o).1 hopen
    exact ⟨(horder o hopen').1, (horder o hopen').2, hopen'⟩
  · intro o hopen _
    obtain ⟨c, hread, -⟩ := openWith_eq_some.1 hopen
    have hlt := totalChunksFor_lt o.header.size o.header.chunkSize
    refine ⟨?_, (hsame o).2 hopen⟩
    rw [hcount _ _ hread]
    exact hlt.le.trans (by norm_num)

/-! ### Runs -/

theorem oneText_tagged : OneText .tagged := by
  intro k n a a' c m m' h h'
  exact Option.some.inj (h.symm.trans h')

/-- The container of an empty file, with its chunk size overwritten by zero. -/
def zeroChunkSize : List Bytes :=
  [magic, leBytes 4 0 ++ leBytes 8 0 ++ leBytes 4 17, 97 :: List.replicate tag 0]

/-- The page accepts it, `decrypt_link` does not. -/
theorem not_agree_zeroChunkSize : ¬ Agree .tagged [] zeroChunkSize := by
  intro h
  have hrun : run .tagged [] zeroChunkSize = .ok ("a", []) := by rfl
  have hdec : decryptLink .tagged [] zeroChunkSize.flatten = .error "invalid chunk size" := by
    rfl
  exact nomatch hdec.symm.trans ((h _).1 hrun)

/-- The container of an empty file, in two pieces. -/
def emptyFile : List Bytes :=
  [magic ++ leBytes 4 4, leBytes 8 0 ++ leBytes 4 17 ++ 97 :: List.replicate tag 0]

theorem agree_emptyFile : Agree .tagged [] emptyFile ↔ Settled .tagged [] emptyFile.flatten :=
  agree_iff_settled oneText_tagged [] emptyFile

end Arvolo.Link
