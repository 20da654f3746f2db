import Arvolo.Lib.Base32
import Arvolo.Lib.Codec
import Arvolo.Relay.Inbox
import Arvolo.Send.Providers

/-!
Which chunks a relay holds: the question of `relay_have` (`core/src/backfill.rs`), the answer of
`have_handler` (`relay/src/http.rs`) and the two wire forms (`core/src/chunked.rs`).

A list is asked about in batches. Bit `j` of the answer to batch `b` is set exactly if the relay
holds the chunk at `b * 4096 + j` when it answers, and that number, cut to a `u32`, is what the
set of held chunks gets.
-/

namespace Arvolo.Relay

open Lib Recv Send
open Sync (trim)

abbrev Hash := { b : List UInt8 // b.length = 32 }

structure HaveRequest where
  chunks : List Hash

/-- Unicode's case mappings. -/
structure CaseMap where
  upper : String → String
  lower : String → String

/-- On ASCII they are the mappings of ASCII. -/
structure CaseMap.Ascii (cm : CaseMap) : Prop where
  upper : ∀ s : String, (∀ c ∈ s.toList, c.toNat < 128) →
    cm.upper s = String.ofList (s.toList.map Char.toUpper)
  lower : ∀ s : String, (∀ c ∈ s.toList, c.toNat < 128) →
    cm.lower s = String.ofList (s.toList.map Char.toLower)

def haveBatch : ℕ := 4096
def maxHaveChunksPerReq : ℕ := 4096

/-! ### The wire forms -/

/-- A sequence of digests, as postcard has it. -/
def haveCodec : Codec (List Hash) := (Codec.bytes 32).vec

namespace HaveRequest

def encode (r : HaveRequest) : String := "arvh" ++ Base32.encode (haveCodec.write r.chunks)

def decode (cm : CaseMap) (s : String) : Except String HaveRequest :=
  match stripPrefix "arvh" (trim s) with
  | none => .error "not a have request"
  | some body =>
      match Base32.decode (cm.upper body) with
      | none => .error "decode have request"
      | some bytes =>
          match haveCodec.read bytes with
          | none => .error "deserialize have request"
          | some (chunks, _) => .ok ⟨chunks⟩

end HaveRequest

def encodeHaveBitfield (cm : CaseMap) (bitfield : Crypto.Bytes) : String :=
  cm.lower (Base32.encode bitfield)

def decodeHaveBitfield (cm : CaseMap) (s : String) (nChunks : ℕ) : Except String Crypto.Bytes :=
  match Base32.decode (cm.upper (trim s)) with
  | none => .error "decode have bitfield"
  | some bytes =>
      if bytes.length ≤ bitfieldBytes nChunks then .ok bytes
      else .error "have bitfield longer than the question asked"

/-! ### The relay -/

def hasChunks (dir : ChunkDir) (chunks : List Hash) : List Bool :=
  chunks.map fun h => (dir h.val).isSome

/-- The bits of the chunks that are held. -/
def haveBits (held : List Bool) : Crypto.Bytes :=
  held.zipIdx.foldl (fun bf x => if x.1 then bitfieldSet bf x.2 else bf) (bitfieldNew held.length)

/-- `limit` is what the write limiter says. -/
def haveHandler (cm : CaseMap) (limit : Except (ℕ × String) Unit) (dir : ChunkDir)
    (body : String) : Except (ℕ × String) String := do
  limit
  match HaveRequest.decode cm (trim body) with
  | .error e => .error (400, "bad have request: " ++ e)
  | .ok req =>
      if req.chunks.length > maxHaveChunksPerReq then .error (413, "too many chunks (max 4096)")
      else .ok (encodeHaveBitfield cm (haveBits (hasChunks dir req.chunks)))

/-! ### The client -/

inductive Reply
  | lost
  /-- A status, and the text if it could be read. -/
  | answered (code : ℕ) (text : Option String)

def askBatches (cm : CaseMap) (ask : ℕ → String → Reply) :
    ℕ → List (List Hash) → Finset ℕ → Except String (Finset ℕ)
  | _, [], held => .ok held
  | b, batch :: rest, held =>
      match ask b (HaveRequest.encode ⟨batch⟩) with
      | .lost => .error "relay /v1/have"
      | .answered code text =>
          if code = 404 then .ok ∅
          else if 400 ≤ code ∧ code < 600 then .error "relay rejected have query"
          else
            match text with
            | none => .error "read have answer"
            | some body => do
                let bits ← decodeHaveBitfield cm body batch.length
                let found := (List.range batch.length).filter (bitfieldHas bits)
                askBatches cm ask (b + 1) rest
                  (held ∪ (found.map fun i => (b * haveBatch + i) % 2 ^ 32).toFinset)

/-- The chunks that the relay holds, by their index. `ask` is how it takes each question. -/
def relayHave (cm : CaseMap) (ask : ℕ → String → Reply) (chunks : List Hash) :
    Except String (Finset ℕ) :=
  askBatches cm ask 0 (batches haveBatch chunks) ∅

/-- What becomes of a question. -/
inductive Trip
  | through
  /-- The write limiter turns it away. -/
  | limited
  /-- The question or its answer is lost. -/
  | lost
  | cut
  deriving DecidableEq

/-- The relay of this repository, with its chunk files at the time of each question. -/
def relayReply (cm : CaseMap) (trips : ℕ → Trip) (dirs : ℕ → ChunkDir) (b : ℕ) (body : String) :
    Reply :=
  let limit : Except (ℕ × String) Unit :=
    if trips b = .limited then .error (429, "write rate limit exceeded") else .ok ()
  match trips b with
  | .lost => .lost
  | trip =>
      match haveHandler cm limit (dirs b) body with
      | .error (code, text) => .answered code (some text)
      | .ok text => .answered 200 (if trip = .cut then none else some text)

/-! ### What is written is read -/

theorem trim_eq_self {s : String} (h : ∀ c ∈ s.toList, Sync.isWhitespace c = false) :
    trim s = s := by
  have hkeep : ∀ {l : List Char}, (∀ c ∈ l, Sync.isWhitespace c = false) →
      l.dropWhile Sync.isWhitespace = l := by
    intro l hl
    cases l with
    | nil => rfl
    | cons c l => exact List.dropWhile_cons_of_neg (by simp [hl c List.mem_cons_self])
  have hrev : ∀ c ∈ s.toList.reverse, Sync.isWhitespace c = false := fun c hc =>
    h c (List.mem_reverse.1 hc)
  rw [trim, hkeep h, hkeep hrev, List.reverse_reverse, String.ofList_toList]

/-- What the case mappings do to the characters of base32. -/
theorem case_alphabet {c : Char} (h : c ∈ Base32.alphabet) : c.toNat < 128 ∧ c.toUpper = c ∧
    c.toLower.toNat < 128 ∧ c.toLower.toUpper = c ∧ Sync.isWhitespace c = false ∧
    Sync.isWhitespace c.toLower = false := by
  have hall : Base32.alphabet.all (fun c => c.toNat < 128 ∧ c.toUpper = c ∧
      c.toLower.toNat < 128 ∧ c.toLower.toUpper = c ∧ Sync.isWhitespace c = false ∧
      Sync.isWhitespace c.toLower = false) = true := by
    decide +kernel
  exact of_decide_eq_true (List.all_eq_true.1 hall c h)

section Case

variable {cm : CaseMap} (hcm : cm.Ascii) (bytes : Crypto.Bytes)
include hcm

theorem upper_encode : cm.upper (Base32.encode bytes) = Base32.encode bytes := by
  have hall := fun (c : Char) (hc : c ∈ (Base32.encode bytes).toList) =>
    case_alphabet (Base32.mem_alphabet_of_encode hc)
  rw [hcm.upper _ fun c hc => (hall c hc).1, List.map_congr_left fun c hc => (hall c hc).2.1,
    List.map_id', String.ofList_toList]

theorem mem_lower_encode {c : Char} (h : c ∈ (cm.lower (Base32.encode bytes)).toList) :
    ∃ u ∈ Base32.alphabet, u.toLower = c := by
  rw [hcm.lower _ fun c hc => (case_alphabet (Base32.mem_alphabet_of_encode hc)).1,
    String.toList_ofList] at h
  obtain ⟨u, hu, rfl⟩ := List.mem_map.1 h
  exact ⟨u, Base32.mem_alphabet_of_encode hu, rfl⟩

theorem lower_encode : cm.lower (Base32.encode bytes) =
    String.ofList ((Base32.encode bytes).toList.map Char.toLower) :=
  hcm.lower _ fun _ hc => (case_alphabet (Base32.mem_alphabet_of_encode hc)).1

theorem upper_lower_encode :
    cm.upper (cm.lower (Base32.encode bytes)) = Base32.encode bytes := by
  have hascii : ∀ c ∈ (cm.lower (Base32.encode bytes)).toList, c.toNat < 128 := by
    intro c hc
    obtain ⟨u, hu, rfl⟩ := mem_lower_encode hcm bytes hc
    exact (case_alphabet hu).2.2.1
  have hback : ∀ c ∈ (Base32.encode bytes).toList, c.toLower.toUpper = c := fun c hc =>
    (case_alphabet (Base32.mem_alphabet_of_encode hc)).2.2.2.1
  rw [hcm.upper _ hascii, lower_encode hcm, String.toList_ofList, List.map_map]
  simp only [Function.comp_def, List.map_congr_left hback, List.map_id', String.ofList_toList]

/-- The answer comes back as it was packed. -/
theorem decodeHaveBitfield_encode {n : ℕ} (h : bytes.length = bitfieldBytes n) :
    decodeHaveBitfield cm (encodeHaveBitfield cm bytes) n = .ok bytes := by
  have htrim : trim (encodeHaveBitfield cm bytes) = encodeHaveBitfield cm bytes := by
    refine trim_eq_self fun c hc => ?_
    obtain ⟨u, hu, rfl⟩ := mem_lower_encode hcm bytes hc
    exact (case_alphabet hu).2.2.2.2.2
  rw [decodeHaveBitfield, htrim, encodeHaveBitfield, upper_lower_encode hcm, Base32.decode_encode]
  exact if_pos h.le

/-- The question arrives as it was asked. -/
theorem decode_encode_haveRequest {r : HaveRequest} (hr : r.chunks.length < 2 ^ 64) :
    HaveRequest.decode cm (trim r.encode) = .ok r := by
  have htrim : trim r.encode = r.encode := by
    refine trim_eq_self fun c hc => ?_
    rw [HaveRequest.encode, String.toList_append] at hc
    rcases List.mem_append.1 hc with hlead | hbody
    · have hall : "arvh".toList.all (fun c => Sync.isWhitespace c = false) = true := by
        decide +kernel
      exact of_decide_eq_true (List.all_eq_true.1 hall c hlead)
    · exact (case_alphabet (Base32.mem_alphabet_of_encode hbody)).2.2.2.2.1
  have hstrip : stripPrefix "arvh" r.encode = some (Base32.encode (haveCodec.write r.chunks)) := by
    have hlist : r.encode.toList =
        "arvh".toList ++ (Base32.encode (haveCodec.write r.chunks)).toList := by
      rw [HaveRequest.encode, String.toList_append]
    rw [stripPrefix, hlist, if_pos (List.isPrefixOf_iff_prefix.2 (List.prefix_append _ _)),
      List.drop_left, String.ofList_toList]
  have hgood : haveCodec.Good r.chunks := ⟨hr, fun _ _ => trivial⟩
  have hread := haveCodec.read_write [] hgood
  rw [List.append_nil] at hread
  rw [HaveRequest.decode, htrim, htrim, hstrip]
  simp only [upper_encode hcm, Base32.decode_encode, hread]

end Case

/-! ### The bits of an answer -/

/-- Going through the answers from position `k` on sets the bits of those that are yes. -/
theorem foldl_haveBits {n : ℕ} (held : List Bool) (k : ℕ) (bf : Crypto.Bytes)
    (hbf : bf.length = bitfieldBytes n) (hk : k + held.length ≤ n) :
    ((held.zipIdx k).foldl (fun bf x => if x.1 then bitfieldSet bf x.2 else bf) bf).length =
        bitfieldBytes n ∧
      ∀ j, bitfieldHas ((held.zipIdx k).foldl
          (fun bf x => if x.1 then bitfieldSet bf x.2 else bf) bf) j =
        (bitfieldHas bf j || (decide (k ≤ j) && held.getD (j - k) false)) := by
  induction held generalizing k bf with
  | nil => exact ⟨hbf, fun j => by simp⟩
  | cons x held ih =>
      rw [List.length_cons] at hk
      have hset : (if x then bitfieldSet bf k else bf).length = bitfieldBytes n := by
        cases x <;> simp [hbf]
      obtain ⟨hlen, hbits⟩ := ih (k + 1) (if x then bitfieldSet bf k else bf) hset (by omega)
      rw [List.zipIdx_cons, List.foldl_cons]
      refine ⟨hlen, fun j => ?_⟩
      rw [hbits j]
      have hrange : k / 8 < bf.length := hbf ▸ byte_lt_of_lt (by omega)
      have hfirst : bitfieldHas (if x then bitfieldSet bf k else bf) j =
          (bitfieldHas bf j || (x && decide (k = j))) := by
        cases x
        · simp
        · simp [bitfieldHas_set hrange]
      rw [hfirst, Bool.or_assoc]
      congr 1
      rcases Nat.lt_trichotomy j k with hlt | heq | hgt
      · simp [Nat.not_le.2 hlt, Nat.not_le.2 (Nat.lt_succ_of_lt hlt), hlt.ne']
      · simp [heq]
      · obtain ⟨m, rfl⟩ : ∃ m, j = k + 1 + m := ⟨j - (k + 1), by omega⟩
        have hsub : k + 1 + m - k = m + 1 := by omega
        have hne : k ≠ k + 1 + m := by omega
        simp [hsub, hne]
        omega

theorem length_haveBits (held : List Bool) : (haveBits held).length = bitfieldBytes held.length :=
  (foldl_haveBits held 0 _ (length_bitfieldNew _) (by omega)).1

/-- A bit is set exactly if the answer at its position is yes. -/
theorem bitfieldHas_haveBits (held : List Bool) (j : ℕ) :
    bitfieldHas (haveBits held) j = held.getD j false := by
  have h := (foldl_haveBits (n := held.length) held 0 _ (length_bitfieldNew _) (by omega)).2 j
  simpa [haveBits] using h

/-! ### One batch -/

/-- What an answer adds to the set. -/
def found (dir : ChunkDir) (b : ℕ) (batch : List Hash) : Finset ℕ :=
  (((List.range batch.length).filter (bitfieldHas (haveBits (hasChunks dir batch)))).map
    fun i => (b * haveBatch + i) % 2 ^ 32).toFinset

theorem mem_found {dir : ChunkDir} {b : ℕ} {batch : List Hash} {x : ℕ} :
    x ∈ found dir b batch ↔ ∃ j h, batch[j]? = some h ∧ (dir h.val).isSome = true ∧
      x = (b * haveBatch + j) % 2 ^ 32 := by
  have hbit (j : ℕ) : bitfieldHas (haveBits (hasChunks dir batch)) j = true ↔
      ∃ h, batch[j]? = some h ∧ (dir h.val).isSome = true := by
    rw [bitfieldHas_haveBits, hasChunks, List.getD_eq_getElem?_getD, List.getElem?_map]
    cases batch[j]? <;> simp
  simp only [found, List.mem_toFinset, List.mem_map, List.mem_filter, List.mem_range, hbit]
  constructor
  · rintro ⟨j, ⟨-, h, hget, hheld⟩, rfl⟩
    exact ⟨j, h, hget, hheld, rfl⟩
  · rintro ⟨j, h, hget, hheld, rfl⟩
    exact ⟨j, ⟨(List.getElem?_eq_some_iff.1 hget).1, h, hget, hheld⟩, rfl⟩

section Ask

variable {cm : CaseMap} (hcm : cm.Ascii) {trips : ℕ → Trip} {dirs : ℕ → ChunkDir}
include hcm

theorem haveHandler_ok (dir : ChunkDir) {batch : List Hash} (h : batch.length ≤ haveBatch) :
    haveHandler cm (.ok ()) dir (HaveRequest.encode ⟨batch⟩) =
      .ok (encodeHaveBitfield cm (haveBits (hasChunks dir batch))) := by
  have hread : HaveRequest.decode cm (trim (HaveRequest.encode ⟨batch⟩)) = .ok ⟨batch⟩ :=
    decode_encode_haveRequest hcm (h.trans_lt (by decide))
  have hcap : ¬ batch.length > maxHaveChunksPerReq := not_lt.2 h
  simp only [haveHandler, hread]
  exact if_neg hcap

/-- One question and its answer. -/
theorem askBatches_cons (b : ℕ) {batch : List Hash} (h : batch.length ≤ haveBatch)
    (rest : List (List Hash)) (held : Finset ℕ) :
    askBatches cm (relayReply cm trips dirs) b (batch :: rest) held =
      match trips b with
      | .through => askBatches cm (relayReply cm trips dirs) (b + 1) rest
          (held ∪ found (dirs b) b batch)
      | .limited => .error "relay rejected have query"
      | .lost => .error "relay /v1/have"
      | .cut => .error "read have answer" := by
  have hanswer := haveHandler_ok hcm (dirs b) h
  have hlen : (haveBits (hasChunks (dirs b) batch)).length = bitfieldBytes batch.length := by
    rw [length_haveBits, hasChunks, List.length_map]
  rw [askBatches, relayReply]
  cases htrip : trips b with
  | lost => rfl
  | limited => rfl
  | cut =>
      simp only [reduceCtorEq, if_false, hanswer]
      rfl
  | through =>
      simp only [reduceCtorEq, if_false, hanswer]
      rw [if_neg (by decide), if_neg (by decide), decodeHaveBitfield_encode hcm _ hlen]
      rfl

/-- The set at the end, from the batches still to be asked about. -/
theorem mem_askBatches {b : ℕ} {bs : List (List Hash)} {held out : Finset ℕ}
    (hbs : ∀ batch ∈ bs, batch.length ≤ haveBatch)
    (h : askBatches cm (relayReply cm trips dirs) b bs held = .ok out) (x : ℕ) :
    x ∈ out ↔ x ∈ held ∨ ∃ k batch, bs[k]? = some batch ∧ x ∈ found (dirs (b + k)) (b + k) batch := by
  induction bs generalizing b held with
  | nil =>
      obtain rfl := Except.ok.inj h
      simp
  | cons batch bs ih =>
      rw [askBatches_cons hcm b (hbs batch List.mem_cons_self)] at h
      cases htrip : trips b with
      | lost => rw [htrip] at h; cases h
      | limited => rw [htrip] at h; cases h
      | cut => rw [htrip] at h; cases h
      | through =>
          rw [htrip] at h
          rw [ih (fun c hc => hbs c (List.mem_cons_of_mem _ hc)) h, Finset.mem_union, or_assoc]
          refine or_congr_right ?_
          constructor
          · rintro (hfound | ⟨k, c, hk, hfound⟩)
            · exact ⟨0, batch, rfl, hfound⟩
            · exact ⟨k + 1, c, hk, by rwa [Nat.add_right_comm] at hfound⟩
          · rintro ⟨k, c, hk, hfound⟩
            cases k with
            | zero =>
                obtain rfl := Option.some.inj hk
                exact .inl hfound
            | succ k => exact .inr ⟨k, c, hk, by rwa [Nat.add_right_comm]⟩

theorem askBatches_isOk {b : ℕ} {bs : List (List Hash)} (held : Finset ℕ)
    (hbs : ∀ batch ∈ bs, batch.length ≤ haveBatch)
    (hthrough : ∀ k < bs.length, trips (b + k) = .through) :
    ∃ out, askBatches cm (relayReply cm trips dirs) b bs held = .ok out := by
  induction bs generalizing b held with
  | nil => exact ⟨held, rfl⟩
  | cons batch bs ih =>
      have hfirst : trips b = .through := hthrough 0 (Nat.succ_pos _)
      rw [askBatches_cons hcm b (hbs batch List.mem_cons_self), hfirst]
      refine ih _ (fun c hc => hbs c (List.mem_cons_of_mem _ hc)) fun k hk => ?_
      rw [Nat.add_right_comm]
      exact hthrough (k + 1) (Nat.succ_lt_succ hk)

end Ask

/-- Whoever answers, what the set gets is the number of a chunk that was asked about. -/
theorem mem_askBatches_of_any {cm : CaseMap} {ask : ℕ → String → Reply} {b : ℕ}
    {bs : List (List Hash)} {held out : Finset ℕ} (h : askBatches cm ask b bs held = .ok out)
    {x : ℕ} (hx : x ∈ out) : x ∈ held ∨ ∃ k batch j, bs[k]? = some batch ∧ j < batch.length ∧
      x = ((b + k) * haveBatch + j) % 2 ^ 32 := by
  induction bs generalizing b held with
  | nil =>
      obtain rfl := Except.ok.inj h
      exact .inl hx
  | cons batch bs ih =>
      rw [askBatches] at h
      split at h
      next => cases h
      next code text _ =>
        split_ifs at h
        · obtain rfl := Except.ok.inj h
          exact absurd hx (Finset.notMem_empty x)
        · cases text with
          | none => cases h
          | some body =>
              cases hbits : decodeHaveBitfield cm body batch.length with
              | error e =>
                  simp only [hbits] at h
                  cases h
              | ok bits =>
                  simp only [hbits] at h
                  rcases ih h with hmem | ⟨k, c, j, hk, hj, hxj⟩
                  · rcases Finset.mem_union.1 hmem with hold | hnew
                    · exact .inl hold
                    · obtain ⟨j, hj, rfl⟩ := List.mem_map.1 (List.mem_toFinset.1 hnew)
                      have hlt : j < batch.length :=
                        List.mem_range.1 (List.mem_filter.1 hj).1
                      exact .inr ⟨0, batch, j, rfl, hlt, rfl⟩
                  · exact .inr ⟨k + 1, c, j, hk, hj, by rw [hxj, Nat.add_assoc b 1 k, Nat.add_comm 1 k]⟩

/-! ### The whole list -/

theorem mem_relayHave_of_any {cm : CaseMap} {ask : ℕ → String → Reply} {chunks : List Hash}
    {held : Finset ℕ} (h : relayHave cm ask chunks = .ok held) {x : ℕ} (hx : x ∈ held) :
    ∃ i < chunks.length, x = i % 2 ^ 32 := by
  have hpos : 0 < haveBatch := by decide
  rcases mem_askBatches_of_any h hx with hnone | ⟨k, batch, j, hk, hj, hxj⟩
  · exact absurd hnone (Finset.notMem_empty x)
  · rw [getElem?_batches hpos] at hk
    split_ifs at hk with hlt
    obtain rfl := Option.some.inj hk
    rw [List.length_take, List.length_drop] at hj
    rw [Nat.zero_add] at hxj
    exact ⟨k * haveBatch + j, by omega, hxj⟩

/-- The relay has the chunk at `i` when its batch is asked about. -/
def HoldsAt (dirs : ℕ → ChunkDir) (chunks : List Hash) (i : ℕ) : Prop :=
  ∃ h, chunks[i]? = some h ∧ (dirs (i / haveBatch) h.val).isSome = true

section Whole

variable {cm : CaseMap} (hcm : cm.Ascii) {trips : ℕ → Trip} {dirs : ℕ → ChunkDir}
include hcm

/-- Every held chunk is reported, under what a `u32` keeps of its index. -/
theorem mem_relayHave {chunks : List Hash} {held : Finset ℕ}
    (h : relayHave cm (relayReply cm trips dirs) chunks = .ok held) (x : ℕ) :
    x ∈ held ↔ ∃ i, HoldsAt dirs chunks i ∧ x = i % 2 ^ 32 := by
  have hpos : 0 < haveBatch := by decide
  rw [mem_askBatches hcm (fun _ hb => length_le_of_mem_batches hpos hb) h]
  simp only [Finset.notMem_empty, false_or, Nat.zero_add, getElem?_batches hpos, mem_found]
  constructor
  · rintro ⟨k, batch, hk, j, g, hget, hheld, rfl⟩
    split_ifs at hk with hlt
    obtain rfl := Option.some.inj hk
    have hj : j < haveBatch := by
      have hlen := (List.getElem?_eq_some_iff.1 hget).1
      exact hlen.trans_le (List.length_take_le _ _)
    rw [List.getElem?_take_of_lt hj, List.getElem?_drop] at hget
    have hdiv : (k * haveBatch + j) / haveBatch = k := by
      rw [Nat.mul_comm, Nat.mul_add_div hpos, Nat.div_eq_of_lt hj, Nat.add_zero]
    exact ⟨k * haveBatch + j, ⟨g, hget, by rwa [hdiv]⟩, rfl⟩
  · rintro ⟨i, ⟨g, hget, hheld⟩, rfl⟩
    have hi := (List.getElem?_eq_some_iff.1 hget).1
    have hsplit : i / haveBatch * haveBatch + i % haveBatch = i := Nat.div_add_mod' i haveBatch
    have hlt : i / haveBatch * haveBatch < chunks.length := by omega
    refine ⟨i / haveBatch, _, if_pos hlt, i % haveBatch, g, ?_, hheld, by rw [hsplit]⟩
    rw [List.getElem?_take_of_lt (Nat.mod_lt _ hpos), List.getElem?_drop, hsplit, hget]

/-- Whatever the relay holds while it is asked and whatever becomes of the questions: if all get
through there is an answer, and an answer is the set of the held chunks exactly if none of them
lies at 2^32 or above. -/
theorem relayHave_exact_iff (trips : ℕ → Trip) (dirs : ℕ → ChunkDir) (chunks : List Hash) :
    ((∀ b < (batches haveBatch chunks).length, trips b = .through) →
      ∃ held, relayHave cm (relayReply cm trips dirs) chunks = .ok held) ∧
    ∀ held, relayHave cm (relayReply cm trips dirs) chunks = .ok held →
      ((∀ i, i ∈ held ↔ HoldsAt dirs chunks i) ↔ ∀ i, HoldsAt dirs chunks i → i < 2 ^ 32) := by
  constructor
  · intro hthrough
    refine askBatches_isOk hcm ∅ (fun _ hb => length_le_of_mem_batches (by decide) hb) ?_
    simpa using hthrough
  · intro held hheld
    have hmem := mem_relayHave hcm hheld
    constructor
    · intro hexact i hi
      obtain ⟨j, -, hj⟩ := (hmem i).1 ((hexact i).2 hi)
      rw [hj]
      exact Nat.mod_lt _ (by decide)
    · intro hsmall i
      rw [hmem i]
      constructor
      · rintro ⟨j, hj, rfl⟩
        rwa [Nat.mod_eq_of_lt (hsmall j hj)]
      · intro hi
        exact ⟨i, hi, (Nat.mod_eq_of_lt (hsmall i hi)).symm⟩

end Whole

/-- Case mappings that know ASCII only. -/
def CaseMap.plain : CaseMap where
  upper s := String.ofList (s.toList.map Char.toUpper)
  lower s := String.ofList (s.toList.map Char.toLower)

theorem CaseMap.plain_ascii : CaseMap.plain.Ascii := ⟨fun _ _ => rfl, fun _ _ => rfl⟩

def zeroHash : Hash := ⟨List.replicate 32 0, by decide⟩

/-- A relay with that one chunk. -/
def zeroDir : ChunkDir := fun h => if h = zeroHash.val then some [] else none

theorem relayHave_oneChunk :
    ((∀ b < (batches haveBatch [zeroHash]).length, Trip.through = .through) →
      ∃ held, relayHave .plain (relayReply .plain (fun _ => .through) fun _ => zeroDir)
        [zeroHash] = .ok held) ∧
    ∀ held, relayHave .plain (relayReply .plain (fun _ => .through) fun _ => zeroDir)
        [zeroHash] = .ok held →
      ((∀ i, i ∈ held ↔ HoldsAt (fun _ => zeroDir) [zeroHash] i) ↔
        ∀ i, HoldsAt (fun _ => zeroDir) [zeroHash] i → i < 2 ^ 32) :=
  relayHave_exact_iff CaseMap.plain_ascii (fun _ => .through) (fun _ => zeroDir) [zeroHash]

/-- A held chunk past 2^32 is reported at another index. -/
theorem not_relayHave_exact : ¬ ∀ (chunks : List Hash) (held : Finset ℕ),
    relayHave .plain (relayReply .plain (fun _ => .through) fun _ => zeroDir) chunks = .ok held →
      ∀ i, i ∈ held ↔ HoldsAt (fun _ => zeroDir) chunks i := by
  intro hexact
  have hok : ∃ held, relayHave .plain (relayReply .plain (fun _ => .through) fun _ => zeroDir)
      (List.replicate (2 ^ 32 + 1) zeroHash) = .ok held :=
    askBatches_isOk CaseMap.plain_ascii ∅
      (fun _ hb => length_le_of_mem_batches (by decide) hb) fun _ _ => rfl
  obtain ⟨held, hheld⟩ := hok
  have hlast : HoldsAt (fun _ => zeroDir) (List.replicate (2 ^ 32 + 1) zeroHash) (2 ^ 32) :=
    ⟨zeroHash, List.getElem?_replicate_of_lt (Nat.lt_succ_self _), by simp [zeroDir]⟩
  obtain ⟨j, -, hj⟩ := (mem_relayHave CaseMap.plain_ascii hheld (2 ^ 32)).1
    ((hexact _ held hheld (2 ^ 32)).2 hlast)
  have hlt : j % 2 ^ 32 < 2 ^ 32 := Nat.mod_lt _ (by decide)
  omega

end Arvolo.Relay
