import Arvolo.Relay.Have
import Arvolo.Book.Spelling
import Arvolo.Sync.Sidecar

/-!
The tickets somebody pastes: `ChunkTicket` of `core/src/chunked.rs`, which names a live send
(`arvc…`), and `OfflineTicket` of `core/src/offline.rs`, which names a deposit (`arvm…`).

A ticket is a marker and the base32 of its fields. What is pasted may have blanks around it and
its letters in another case. A mailbox ticket of an older build has no name, and its encoding
ends where the name of a newer one begins.
-/

namespace Arvolo.Tickets

open Lib Relay
open Sync (trim isWhitespace fromBytes)

/-! ### Markers and letters -/

def encodeText (marker : String) (bytes : List UInt8) : String := marker ++ Base32.encode bytes

/-- What stands behind the marker. -/
def bodyBytes (cm : CaseMap) (marker s missing undecodable : String) :
    Except String (List UInt8) :=
  match stripPrefix marker (trim s) with
  | none => .error missing
  | some body =>
      match Base32.decode (cm.upper body) with
      | none => .error undecodable
      | some bytes => .ok bytes

/-- Blanks around the text, and the letters behind the marker in any case. -/
def Pasted (marker text s : String) : Prop :=
  ∃ before body after : List Char, s.toList = before ++ (marker.toList ++ body) ++ after ∧
    (∀ c ∈ before ++ after, isWhitespace c = true) ∧ (∀ c ∈ body, c.toNat < 128) ∧
    text.toList = marker.toList ++ body.map Char.toUpper

/-- A marker of a ticket: something, and no blank in it. -/
structure Marker (marker : String) : Prop where
  ne_nil : marker.toList ≠ []
  solid : ∀ c ∈ marker.toList, isWhitespace c = false

/-! ### Chunk tickets -/

inductive KeyDelivery
  | plain (key : List UInt8)
  | sealed (encappedKey ciphertext sender : List UInt8)
  deriving DecidableEq

structure RelayRelease where
  http : String
  addr : String
  token : String
  deriving DecidableEq

/-- `Addr` is the address of an endpoint. -/
structure ChunkTicket (Addr : Type) where
  totalSize : ℕ
  chunkSize : UInt32
  chunks : List Hash
  providers : List Addr
  relay : Option RelayRelease
  key : KeyDelivery
  name : String
  archive : Bool

def keyCodec : Codec KeyDelivery :=
  (Codec.blob.sum (Codec.blob.pair (Codec.blob.pair Codec.blob))).xmap
    (fun v => v.elim .plain fun p => .sealed p.1 p.2.1 p.2.2)
    (fun k => match k with
      | .plain key => .inl key
      | .sealed encappedKey ciphertext sender => .inr (encappedKey, ciphertext, sender))
    (fun k => by cases k <;> rfl) fun v => by cases v <;> rfl

def relayCodec : Codec RelayRelease :=
  (Codec.text.pair (Codec.text.pair Codec.text)).xmap (fun p => ⟨p.1, p.2.1, p.2.2⟩)
    (fun r => (r.http, r.addr, r.token)) (fun _ => rfl) fun _ => rfl

namespace ChunkTicket

variable {Addr : Type} (addr : Codec Addr)

/-- `TicketWire`. -/
def codec : Codec (ChunkTicket Addr) :=
  (Codec.u64.pair (Codec.u32.pair ((Codec.bytes 32).vec.pair (addr.vec.pair
    (relayCodec.option.pair (keyCodec.pair (Codec.text.pair Codec.bool))))))).xmap
    (fun p => ⟨p.1, p.2.1, p.2.2.1, p.2.2.2.1, p.2.2.2.2.1, p.2.2.2.2.2.1, p.2.2.2.2.2.2.1,
      p.2.2.2.2.2.2.2⟩)
    (fun t => (t.totalSize, t.chunkSize, t.chunks, t.providers, t.relay, t.key, t.name, t.archive))
    (fun _ => rfl) fun _ => rfl

def encode (t : ChunkTicket Addr) : String := encodeText "arvc" ((codec addr).write t)

def decode (cm : CaseMap) (s : String) : Except String (ChunkTicket Addr) :=
  match bodyBytes cm "arvc" s "not a chunk ticket (missing arvc prefix)" "decode chunk ticket" with
  | .error e => .error e
  | .ok bytes =>
      match fromBytes (codec addr) bytes with
      | none => .error "deserialize chunk ticket"
      | some t => .ok t

/-- `looks_like`. -/
def looksLike (s : String) : Bool := "arvc".toList.isPrefixOf (s.toList.dropWhile isWhitespace)

end ChunkTicket

/-- The digests in order and the size. -/
def swarmBuf (chunks : List Hash) (totalSize : ℕ) : List UInt8 :=
  chunks.flatMap Subtype.val ++ leBytes 8 totalSize

/-- `swarm_id`: the hash in hex. -/
def swarmId (blake3 : List UInt8 → String) (chunks : List Hash) (totalSize : ℕ) : String :=
  blake3 (swarmBuf chunks totalSize)

/-- What a ticket serves. -/
def ChunkTicket.contentId {Addr : Type} (blake3 : List UInt8 → String) (t : ChunkTicket Addr) :
    String :=
  swarmId blake3 t.chunks t.totalSize

/-! ### Mailbox tickets -/

structure OfflineWireV1 where
  relay : String
  claim : String
  sender : List UInt8
  salt : List UInt8
  wrappedKey : List UInt8
  totalSize : ℕ
  deriving DecidableEq

structure OfflineTicket extends OfflineWireV1 where
  name : String
  deriving DecidableEq

namespace OfflineTicket

def codecV1 : Codec OfflineWireV1 :=
  (Codec.text.pair (Codec.text.pair (Codec.blob.pair (Codec.blob.pair
    (Codec.blob.pair Codec.u64))))).xmap
    (fun p => ⟨p.1, p.2.1, p.2.2.1, p.2.2.2.1, p.2.2.2.2.1, p.2.2.2.2.2⟩)
    (fun w => (w.relay, w.claim, w.sender, w.salt, w.wrappedKey, w.totalSize)) (fun _ => rfl)
    fun _ => rfl

/-- `OfflineWire`. -/
def codec : Codec OfflineTicket :=
  (codecV1.pair Codec.text).xmap (fun p => ⟨p.1, p.2⟩) (fun t => (t.toOfflineWireV1, t.name))
    (fun _ => rfl) fun _ => rfl

def hasPassword (t : OfflineTicket) : Bool := !t.salt.isEmpty

def encode (t : OfflineTicket) : String := encodeText "arvm" (codec.write t)

/-- The newest shape first. -/
def decode (cm : CaseMap) (s : String) : Except String OfflineTicket :=
  match bodyBytes cm "arvm" s "not an offline ticket (missing arvm prefix)"
      "decode offline ticket" with
  | .error e => .error e
  | .ok bytes =>
      match fromBytes codec bytes with
      | some t => .ok t
      | none =>
          match fromBytes codecV1 bytes with
          | none => .error "deserialize offline ticket"
          | some w => .ok { w with name := "" }

end OfflineTicket

/-! ### Reading what was pasted -/

theorem marker_arvc : Marker "arvc" := by
  have hall : "arvc".toList.all (fun c => isWhitespace c = false) = true := by decide +kernel
  exact ⟨by decide, fun c hc => of_decide_eq_true (List.all_eq_true.1 hall c hc)⟩

theorem marker_arvm : Marker "arvm" := by
  have hall : "arvm".toList.all (fun c => isWhitespace c = false) = true := by decide +kernel
  exact ⟨by decide, fun c hc => of_decide_eq_true (List.all_eq_true.1 hall c hc)⟩

theorem dropWhile_append_solid {before core : List Char}
    (hbefore : ∀ c ∈ before, isWhitespace c = true) (hcore : ∀ c ∈ core, isWhitespace c = false) :
    (before ++ core).dropWhile isWhitespace = core := by
  rw [List.dropWhile_append_of_pos hbefore]
  cases core with
  | nil => rfl
  | cons c core => exact List.dropWhile_cons_of_neg (by simp [hcore c List.mem_cons_self])

/-- Blanks around a text without blanks are cut off. -/
theorem trim_padded {s : String} {before core after : List Char}
    (hs : s.toList = before ++ core ++ after)
    (hblank : ∀ c ∈ before ++ after, isWhitespace c = true)
    (hcore : ∀ c ∈ core, isWhitespace c = false) : trim s = String.ofList core := by
  have hbefore : ∀ c ∈ before, isWhitespace c = true := fun c hc =>
    hblank c (List.mem_append_left _ hc)
  have hafter : ∀ c ∈ after.reverse, isWhitespace c = true := fun c hc =>
    hblank c (List.mem_append_right _ (List.mem_reverse.1 hc))
  have hback : ∀ c ∈ core.reverse, isWhitespace c = false := fun c hc =>
    hcore c (List.mem_reverse.1 hc)
  rcases List.eq_nil_or_concat core with rfl | ⟨init, last, rfl⟩
  · have hall : ∀ c ∈ s.toList, isWhitespace c = true := by simpa [hs] using hblank
    rw [trim, List.dropWhile_eq_nil_iff.2 hall]
    rfl
  · have hlast : ((init ++ [last] ++ after).dropWhile isWhitespace) = init ++ [last] ++ after := by
      cases init with
      | nil => exact List.dropWhile_cons_of_neg (by simp [hcore last (by simp)])
      | cons c init =>
          exact List.dropWhile_cons_of_neg (by simp [hcore c (by simp)])
    rw [trim, hs, List.append_assoc, List.dropWhile_append_of_pos hbefore]
    rw [List.concat_eq_append] at hcore hback ⊢
    rw [hlast, List.reverse_append, dropWhile_append_solid hafter hback, List.reverse_reverse]

section Paste

variable {marker text s : String} {bytes : List UInt8}

/-- A letter that may stand in the body of a ticket is no blank. -/
theorem not_isWhitespace_of_toUpper {c : Char} (hc : c.toNat < 128)
    (h : c.toUpper ∈ Base32.alphabet) : isWhitespace c = false := by
  have hall : ∀ n < 128, (Char.ofNat n).toUpper ∈ Base32.alphabet →
      isWhitespace (Char.ofNat n) = false := by decide +kernel
  exact Book.forall_ascii (P := fun c => c.toUpper ∈ Base32.alphabet → isWhitespace c = false)
    hall hc h

/-- What is left of a pasted ticket when the blanks are cut off. -/
theorem Pasted.trim (hs : Pasted marker (encodeText marker bytes) s) (hmarker : Marker marker) :
    ∃ body : String, Sync.trim s = String.ofList (marker.toList ++ body.toList) ∧
      (∀ c ∈ body.toList, c.toNat < 128) ∧
      body.toList.map Char.toUpper = (Base32.encode bytes).toList := by
  obtain ⟨before, body, after, hs, hblank, hascii, htext⟩ := hs
  have hbody : body.map Char.toUpper = (Base32.encode bytes).toList := by
    rw [encodeText, String.toList_append] at htext
    exact (List.append_cancel_left htext).symm
  have hsolid : ∀ c ∈ marker.toList ++ body, isWhitespace c = false := by
    intro c hc
    rcases List.mem_append.1 hc with hc | hc
    · exact hmarker.solid c hc
    · refine not_isWhitespace_of_toUpper (hascii c hc) ?_
      have hletter : c.toUpper ∈ (Base32.encode bytes).toList := by
        rw [← hbody]
        exact List.mem_map_of_mem hc
      exact Base32.mem_alphabet_of_encode hletter
  refine ⟨String.ofList body, ?_, ?_, ?_⟩
  · rw [String.toList_ofList]
    exact trim_padded hs hblank hsolid
  · rwa [String.toList_ofList]
  · rwa [String.toList_ofList]

theorem bodyBytes_pasted {cm : CaseMap} (hcm : cm.Ascii)
    (hs : Pasted marker (encodeText marker bytes) s) (hmarker : Marker marker)
    (missing undecodable : String) :
    bodyBytes cm marker s missing undecodable = .ok bytes := by
  obtain ⟨body, htrim, hascii, hupper⟩ := hs.trim hmarker
  have hstrip : stripPrefix marker (Sync.trim s) = some body := by
    rw [htrim, stripPrefix, String.toList_ofList,
      if_pos (List.isPrefixOf_iff_prefix.2 (List.prefix_append _ _)), List.drop_left,
      String.ofList_toList]
  have hcase : cm.upper body = Base32.encode bytes := by
    rw [hcm.upper body hascii, hupper, String.ofList_toList]
  rw [bodyBytes, hstrip]
  simp only [hcase, Base32.decode_encode]

/-- A text is pasted as it was handed out. -/
theorem pasted_self (marker : String) (bytes : List UInt8) :
    Pasted marker (encodeText marker bytes) (encodeText marker bytes) := by
  have hletters := fun (c : Char) (hc : c ∈ (Base32.encode bytes).toList) =>
    case_alphabet (Base32.mem_alphabet_of_encode hc)
  refine ⟨[], (Base32.encode bytes).toList, [], ?_, by simp, fun c hc => (hletters c hc).1, ?_⟩
  · rw [encodeText, String.toList_append, List.nil_append, List.append_nil]
  · rw [encodeText, String.toList_append, List.map_congr_left fun c hc => (hletters c hc).2.1,
      List.map_id']

/-- A ticket of one kind has not the marker of the other. -/
theorem bodyBytes_of_other {cm : CaseMap} {other : String}
    (hs : Pasted marker (encodeText marker bytes) s) (hmarker : Marker marker)
    (hlen : other.toList.length = marker.toList.length)
    (hne : other.toList ≠ marker.toList) (missing undecodable : String) :
    bodyBytes cm other s missing undecodable = .error missing := by
  obtain ⟨body, htrim, -, -⟩ := hs.trim hmarker
  have hstrip : stripPrefix other (Sync.trim s) = none := by
    rw [htrim, stripPrefix, String.toList_ofList, if_neg]
    intro hpre
    obtain ⟨rest, hrest⟩ := List.isPrefixOf_iff_prefix.1 hpre
    exact hne (List.append_inj hrest hlen).1
  rw [bodyBytes, hstrip]

theorem dropWhile_pasted (hs : Pasted marker (encodeText marker bytes) s)
    (hmarker : Marker marker) : marker.toList <+: s.toList.dropWhile isWhitespace := by
  obtain ⟨before, body, after, hs, hblank, -, -⟩ := hs
  rw [hs, List.append_assoc,
    List.dropWhile_append_of_pos fun c hc => hblank c (List.mem_append_left _ hc)]
  obtain ⟨c, rest, hcons⟩ := List.exists_cons_of_ne_nil hmarker.ne_nil
  have hc : isWhitespace c = false := hmarker.solid c (hcons ▸ List.mem_cons_self)
  rw [hcons, List.cons_append, List.cons_append, List.dropWhile_cons_of_neg (by simp [hc])]
  exact ⟨body ++ after, by simp⟩

end Paste

theorem ChunkTicket.decode_pasted {Addr : Type} {addr : Codec Addr} {cm : CaseMap}
    (hcm : cm.Ascii) {t : ChunkTicket Addr} (ht : (codec addr).Good t) {s : String}
    (hs : Pasted "arvc" (t.encode addr) s) : decode addr cm s = .ok t := by
  rw [decode, bodyBytes_pasted hcm hs marker_arvc]
  simp only [Sync.fromBytes_write ht]

theorem OfflineTicket.decode_pasted {cm : CaseMap} (hcm : cm.Ascii) {t : OfflineTicket}
    (ht : codec.Good t) {s : String} (hs : Pasted "arvm" t.encode s) : decode cm s = .ok t := by
  rw [decode, bodyBytes_pasted hcm hs marker_arvm]
  simp only [Sync.fromBytes_write ht]

/-- A ticket as it was written, of a live send, of a deposit, or of a deposit by an older build. -/
inductive Written (Addr : Type)
  | chunk (t : ChunkTicket Addr)
  | offline (t : OfflineTicket)
  | offlineV1 (w : OfflineWireV1)

namespace Written

variable {Addr : Type} (addr : Codec Addr)

def marker : Written Addr → String
  | .chunk _ => "arvc"
  | .offline _ | .offlineV1 _ => "arvm"

def bytes : Written Addr → List UInt8
  | .chunk t => (ChunkTicket.codec addr).write t
  | .offline t => OfflineTicket.codec.write t
  | .offlineV1 w => OfflineTicket.codecV1.write w

def text (v : Written Addr) : String := encodeText v.marker (v.bytes addr)

/-- The fields are of a size that can be written. -/
def Good : Written Addr → Prop
  | .chunk t => (ChunkTicket.codec addr).Good t
  | .offline t => OfflineTicket.codec.Good t
  | .offlineV1 w => OfflineTicket.codecV1.Good w

/-- What the two readers make of a text, and which of them it is given to. -/
def Opens (cm : CaseMap) (s : String) : Written Addr → Prop
  | .chunk t => ChunkTicket.looksLike s = true ∧ ChunkTicket.decode addr cm s = .ok t ∧
      OfflineTicket.decode cm s = .error "not an offline ticket (missing arvm prefix)"
  | .offline t => ChunkTicket.looksLike s = false ∧ OfflineTicket.decode cm s = .ok t ∧
      ChunkTicket.decode addr cm s = .error "not a chunk ticket (missing arvc prefix)"
  | .offlineV1 w => ChunkTicket.looksLike s = false ∧
      OfflineTicket.decode cm s = .ok { w with name := "" } ∧
      ChunkTicket.decode addr cm s = .error "not a chunk ticket (missing arvc prefix)"

variable {addr}

/-- A deposit's ticket is not given to the reader of live ones. -/
theorem looksLike_of_offline {bytes : List UInt8} {s : String}
    (hs : Pasted "arvm" (encodeText "arvm" bytes) s) : ChunkTicket.looksLike s = false := by
  rw [ChunkTicket.looksLike, Bool.eq_false_iff]
  intro hpre
  have hlive := List.isPrefixOf_iff_prefix.1 hpre
  have hdeposit := dropWhile_pasted hs marker_arvm
  have hsame := List.prefix_of_prefix_length_le hlive hdeposit (by decide)
  exact absurd hsame (by decide)

theorem chunk_decode_of_offline {cm : CaseMap} {bytes : List UInt8} {s : String}
    (hs : Pasted "arvm" (encodeText "arvm" bytes) s) : ChunkTicket.decode addr cm s =
      .error "not a chunk ticket (missing arvc prefix)" := by
  rw [ChunkTicket.decode, bodyBytes_of_other hs marker_arvm (by decide) (by decide)]

/-- However a ticket is pasted, it is given to the reader of its kind, which reads what was
written; the other reader says that it is not one of its own. -/
theorem opens_pasted {cm : CaseMap} (hcm : cm.Ascii) {v : Written Addr} (hv : v.Good addr)
    {s : String} (hs : Pasted v.marker (v.text addr) s) : v.Opens addr cm s := by
  cases v with
  | chunk t =>
      have hgood : (ChunkTicket.codec addr).Good t := hv
      have hs : Pasted "arvc" (encodeText "arvc" ((ChunkTicket.codec addr).write t)) s := hs
      refine ⟨?_, ChunkTicket.decode_pasted hcm hgood hs, ?_⟩
      · exact List.isPrefixOf_iff_prefix.2 (dropWhile_pasted hs marker_arvc)
      · rw [OfflineTicket.decode, bodyBytes_of_other hs marker_arvc (by decide) (by decide)]
  | offline t =>
      have hgood : OfflineTicket.codec.Good t := hv
      have hs : Pasted "arvm" (encodeText "arvm" (OfflineTicket.codec.write t)) s := hs
      exact ⟨looksLike_of_offline hs, OfflineTicket.decode_pasted hcm hgood hs,
        chunk_decode_of_offline hs⟩
  | offlineV1 w =>
      have hgood : OfflineTicket.codecV1.Good w := hv
      have hs : Pasted "arvm" (encodeText "arvm" (OfflineTicket.codecV1.write w)) s := hs
      -- A newer ticket has at least the length of a name behind these fields.
      have hshort : fromBytes OfflineTicket.codec (OfflineTicket.codecV1.write w) = none :=
        Sync.fromBytes_eq_none.2
          (Option.map_eq_none_iff.2 (Codec.read_pair_write hgood Codec.read_text_nil))
      refine ⟨looksLike_of_offline hs, ?_, chunk_decode_of_offline hs⟩
      rw [OfflineTicket.decode, bodyBytes_pasted hcm hs marker_arvm]
      simp only [hshort, Sync.fromBytes_write hgood]

end Written

/-! ### What was read -/

section Read

variable {Addr : Type} {addr : Codec Addr} {cm : CaseMap} {s : String}

theorem good_of_fromBytes {α : Type} {c : Codec α} {bytes : List UInt8} {a : α}
    (h : fromBytes c bytes = some a) : c.Good a := by
  obtain ⟨⟨a', rest⟩, hread, rfl⟩ := Option.map_eq_some_iff.1 h
  exact (c.read_sound hread).1

theorem good_empty : Codec.text.Good "" := by
  change 0 < 2 ^ 64
  decide

theorem ChunkTicket.good_of_decode {t : ChunkTicket Addr} (h : decode addr cm s = .ok t) :
    (codec addr).Good t := by
  rw [decode] at h
  split at h
  · exact absurd h (by simp)
  · split at h
    · exact absurd h (by simp)
    · rename_i t' hread
      obtain rfl := Except.ok.inj h
      exact good_of_fromBytes hread

theorem OfflineTicket.good_of_decode {t : OfflineTicket} (h : decode cm s = .ok t) :
    codec.Good t := by
  rw [decode] at h
  split at h
  · exact absurd h (by simp)
  · split at h
    · rename_i t' hread
      obtain rfl := Except.ok.inj h
      exact good_of_fromBytes hread
    · split at h
      · exact absurd h (by simp)
      · rename_i w hread
        obtain rfl := Except.ok.inj h
        exact ⟨good_of_fromBytes hread, good_empty⟩

end Read

/-- Digests have one length, so that where one ends and the size begins is no question. -/
theorem flatMap_val_inj {chunks chunks' : List Hash} {size size' : List UInt8}
    (hlen : size.length = size'.length)
    (h : chunks.flatMap Subtype.val ++ size = chunks'.flatMap Subtype.val ++ size') :
    chunks = chunks' ∧ size = size' := by
  induction chunks generalizing chunks' with
  | nil =>
      cases chunks' with
      | nil => exact ⟨rfl, h⟩
      | cons c chunks' =>
          have hlength := congrArg List.length h
          simp [c.2] at hlength
          omega
  | cons c chunks ih =>
      cases chunks' with
      | nil =>
          have hlength := congrArg List.length h
          simp [c.2] at hlength
          omega
      | cons c' chunks' =>
          rw [List.flatMap_cons, List.flatMap_cons, List.append_assoc, List.append_assoc] at h
          obtain ⟨hc, hrest⟩ := List.append_inj h (c.2.trans c'.2.symm)
          obtain ⟨hchunks, hsize⟩ := ih hrest
          exact ⟨by rw [Subtype.ext hc, hchunks], hsize⟩

/-- One chunk of zeros, for whoever has the ticket. -/
def zeroTicket : ChunkTicket String :=
  { totalSize := 1, chunkSize := 1, chunks := [zeroHash], providers := [], relay := none
    key := .plain [], name := "", archive := false }

theorem good_zeroTicket : (ChunkTicket.codec Codec.text).Good zeroTicket := by
  refine ⟨?_, trivial, ⟨?_, fun _ _ => trivial⟩, ⟨?_, fun _ h => ?_⟩, fun _ h => ?_, ?_,
    good_empty, trivial⟩
  · change 1 < 2 ^ 64
    decide
  · change 1 < 2 ^ 64
    decide
  · change 0 < 2 ^ 64
    decide
  · exact absurd h List.not_mem_nil
  · simp [zeroTicket] at h
  · change 0 < 2 ^ 64
    decide

theorem decode_zeroTicket :
    ChunkTicket.decode Codec.text .plain (zeroTicket.encode Codec.text) = .ok zeroTicket :=
  ChunkTicket.decode_pasted CaseMap.plain_ascii good_zeroTicket (pasted_self "arvc" _)

theorem Written.opens_pasted_zero : (Written.chunk zeroTicket).Opens Codec.text .plain
    (zeroTicket.encode Codec.text) := by
  have hgood : (Written.chunk zeroTicket).Good Codec.text := good_zeroTicket
  exact Written.opens_pasted CaseMap.plain_ascii hgood (pasted_self "arvc" _)

end Arvolo.Tickets
