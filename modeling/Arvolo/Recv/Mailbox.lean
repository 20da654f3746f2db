import Arvolo.Crypto.Hpke
import Arvolo.Link.Faithful

/-!
The fetch of a mailbox deposit, `fetch_offline_with_progress` of
`core/src/flow/offline.rs`.

The blob is a row of sealed chunks with nothing between them. The receiver works out
where each ends from the size in its ticket, and cuts it out of a buffer that it fills
from the frames of the response as they come. Once all are written it tells the relay,
which may then let go of the only copy.
-/

namespace Arvolo.Recv.Mailbox

open Crypto Lib Upload Link Send

/-! ### The ticket and the key -/

/-- What is read of an `OfflineTicket` besides where to ask and how to name the file. -/
structure OfflineTicket where
  sender : Bytes
  salt : Bytes
  wrappedKey : Bytes
  totalSize : ℕ

def OfflineTicket.hasPassword (t : OfflineTicket) : Bool := !t.salt.isEmpty

structure Prims (Identity Rand : Type) where
  hpke : Hpke Identity Rand
  aead : Aead
  /-- The password, the salt and the wrapped key. -/
  unwrapWithPassword : String → Bytes → Bytes → Option Bytes

def chunkKeyLen : ℕ := 32

def mailboxKeyAad : Bytes := utf8 "arvolo/mailbox-key/v1".toList

section

variable {Identity Rand : Type} (prims : Prims Identity Rand)

/-- What is checked before the relay is asked. -/
def checkTicket (t : OfflineTicket) (password : Option String) : Except String PublicId := do
  if t.wrappedKey.isEmpty then
    throw "unsupported offline ticket (older whole-file format is no longer accepted)"
  match PublicId.fromBytes prims.hpke.valid t.sender with
  | none => throw "invalid sender in ticket"
  | some sender =>
      if t.hasPassword && (password.map String.isEmpty).getD true then
        throw "this link is password-protected — supply the password"
      return sender

/-- The content key, with the encapsulated key the relay has handed over. -/
def contentKey (t : OfflineTicket) (me : Identity) (sender : PublicId) (password : Option String)
    (encapped : Bytes) : Except String Bytes := do
  match prims.hpke.open_ ⟨encapped, t.wrappedKey⟩ me sender mailboxKeyAad with
  | none => throw "decrypt content key (wrong identity, sender, or tampered)"
  | some keyPlain =>
      let keyBytes ←
        if t.hasPassword then
          match prims.unwrapWithPassword (password.getD "") t.salt keyPlain with
          | none => throw "unwrap key with password"
          | some k => pure k
        else pure keyPlain
      if keyBytes.length = chunkKeyLen then return keyBytes
      else throw "invalid content key length"

end

/-! ### The response -/

/-- The body of a response, in the frames it comes in. A connection that breaks ends it
with an error. -/
structure Body where
  frames : List Bytes
  broken : Bool := false

inductive Reply
  /-- The request does not get through. -/
  | lost
  | refused (status : ℕ) (text : String)
  /-- The encapsulated key of the header, if there is one. -/
  | served (encapped : Option Bytes) (body : Body)

def fetchRefusal (status : ℕ) (text : String) : String :=
  if status = 404 then
    "the relay no longer holds this deposit — it expired, " ++
      "or it was already collected (a sealed deposit is burn-after-read). Nothing on your " ++
      "side can recover it: ask the sender to send it again."
  else if status = 410 then
    "the relay is holding this deposit for nobody: it has " ++
      "expired or hit its download limit. Ask the sender to send it again."
  else "the relay refused to serve this deposit (" ++ text ++ ")"

/-- How the disk behaves: whether the file can be made, how much of a chunk was written
when its write failed, and whether all of it gets there in the end. -/
structure Disk where
  create : Bool := true
  write : ℕ → Option ℕ := fun _ => none
  flush : Bool := true

/-! ### Reassembly -/

/-- The loop, between two chunks. -/
structure Reading where
  frames : List Bytes
  carry : Bytes := []
  eof : Bool := false
  out : Bytes := []
  progress : List (ℕ × ℕ) := []

/-- Take frames until the buffer holds `need` bytes or the body ends. -/
def fill (broken : Bool) (need : ℕ) : Bytes → List Bytes → Option (Bytes × List Bytes × Bool)
  | carry, [] =>
      if carry.length < need then if broken then none else some (carry, [], true)
      else some (carry, [], false)
  | carry, b :: frames =>
      if carry.length < need then fill broken need (carry ++ b) frames
      else some (carry, b :: frames, false)

def Reading.fill (broken : Bool) (need : ℕ) (s : Reading) : Option Reading :=
  if s.eof then some s
  else (Mailbox.fill broken need s.carry s.frames).map fun r =>
    { s with carry := r.1, frames := r.2.1, eof := r.2.2 }

def totalChunks (totalSize : ℕ) : ℕ :=
  if totalSize = 0 then 0 else (totalSize + (chunkSizeMailbox - 1)) / chunkSizeMailbox % 2 ^ 32

section

variable (aead : Aead) (key : Bytes) (totalSize : ℕ) (broken : Bool) (disk : Disk)

/-- The plaintext length of chunk `idx`. -/
def plainLen (idx : ℕ) : ℕ :=
  if idx = totalChunks totalSize - 1 then totalSize - idx * chunkSizeMailbox else chunkSizeMailbox

/-- One turn of the loop, and the error that ends it. -/
def fetchChunk (idx : ℕ) (s : Reading) : Reading × Option String :=
  let ctLen := plainLen totalSize idx + tag
  match s.fill broken ctLen with
  | none => (s, some "read ciphertext")
  | some s =>
      if s.carry.length < ctLen then (s, some s!"truncated mailbox blob at chunk {idx}")
      else
        let ct := s.carry.take ctLen
        let s := { s with carry := s.carry.drop ctLen }
        match openChunk aead key idx (totalChunks totalSize) ct with
        | none => (s, some "decrypt chunk")
        | some plain =>
            match disk.write idx with
            | some n => ({ s with out := s.out ++ plain.take n }, some "write chunk")
            | none =>
                ({ s with
                    out := s.out ++ plain
                    progress := s.progress ++
                      [(min (idx * chunkSizeMailbox + plainLen totalSize idx) (2 ^ 64 - 1),
                        totalSize)] }, none)

/-- `n` chunks from `idx` on. -/
def fetchChunks : ℕ → ℕ → Reading → Reading × Option String
  | 0, _, s => (s, none)
  | n + 1, idx, s =>
      match fetchChunk aead key totalSize broken disk idx s with
      | (s, none) => fetchChunks n (idx + 1) s
      | (s, some e) => (s, some e)

end

/-- What a fetch leaves: the file, if it was made, what was reported on the way, whether
the relay was told, and the number of bytes or the error. -/
structure Fetched where
  file : Option Bytes := none
  progress : List (ℕ × ℕ) := []
  acked : Bool := false
  result : Except String ℕ

/-- From the content key on. -/
def fetchBody (aead : Aead) (key : Bytes) (totalSize : ℕ) (body : Body) (disk : Disk) : Fetched :=
  if disk.create then
    match fetchChunks aead key totalSize body.broken disk (totalChunks totalSize) 0
        { frames := body.frames } with
    | (s, some e) => { file := some s.out, progress := s.progress, result := .error e }
    | (s, none) =>
        if disk.flush then
          { file := some s.out, progress := s.progress, acked := true, result := .ok totalSize }
        else { file := some s.out, progress := s.progress, result := .error "flush output" }
  else { result := .error "create" }

def fetchOffline {Identity Rand : Type} (prims : Prims Identity Rand) (t : OfflineTicket)
    (me : Identity) (password : Option String) (reply : Reply) (disk : Disk) : Fetched :=
  match checkTicket prims t password with
  | .error e => { result := .error e }
  | .ok sender =>
      match reply with
      | .lost => { result := .error "fetch request" }
      | .refused status text => { result := .error (fetchRefusal status text) }
      | .served none _ => { result := .error "missing encapped key from relay" }
      | .served (some encapped) body =>
          match contentKey prims t me sender password encapped with
          | .error e => { result := .error e }
          | .ok key => fetchBody prims.aead key t.totalSize body disk

/-! ### The buffer -/

theorem fill_spec {broken : Bool} {need : ℕ} {carry c : Bytes} {frames fs : List Bytes} {e : Bool}
    (h : fill broken need carry frames = some (c, fs, e)) :
    c ++ fs.flatten = carry ++ frames.flatten ∧ (e = true → fs = []) ∧
      (need ≤ (carry ++ frames.flatten).length → need ≤ c.length) := by
  induction frames generalizing carry with
  | nil =>
      rw [fill] at h
      split_ifs at h with hshort
      · obtain ⟨rfl, rfl, rfl⟩ := by simpa using h
        exact ⟨rfl, fun _ => rfl, fun hle => by simpa using hle⟩
      · obtain ⟨rfl, rfl, rfl⟩ := by simpa using h
        exact ⟨rfl, fun _ => rfl, fun _ => by omega⟩
  | cons b frames ih =>
      rw [fill] at h
      rw [List.flatten_cons, ← List.append_assoc]
      split_ifs at h with hshort
      · exact ih h
      · obtain ⟨rfl, rfl, rfl⟩ := by simpa using h
        exact ⟨by simp, nofun, fun _ => by omega⟩

/-- A body that is long enough does not break before that. -/
theorem isSome_fill (broken : Bool) {need : ℕ} {carry : Bytes} {frames : List Bytes}
    (h : need ≤ (carry ++ frames.flatten).length) :
    (fill broken need carry frames).isSome = true := by
  induction frames generalizing carry with
  | nil =>
      rw [fill, if_neg (by simpa using h)]
      rfl
  | cons b frames ih =>
      rw [fill]
      split_ifs with hshort
      · exact ih (by simpa [List.append_assoc] using h)
      · rfl

namespace Reading

/-- What is left of the body, the buffer first. -/
def stream (s : Reading) : Bytes := s.carry ++ s.frames.flatten

/-- Nothing comes after the end. -/
def Ended (s : Reading) : Prop := s.eof = true → s.frames = []

theorem fill_eq_some {s s' : Reading} {broken : Bool} {need : ℕ}
    (h : s.fill broken need = some s') (hended : s.Ended) :
    s'.stream = s.stream ∧ s'.Ended ∧ s'.out = s.out ∧ s'.progress = s.progress ∧
      (need ≤ s.stream.length → need ≤ s'.carry.length) := by
  rw [Reading.fill] at h
  split_ifs at h with heof
  · obtain rfl := Option.some.inj h
    refine ⟨rfl, hended, rfl, rfl, fun hle => ?_⟩
    rwa [stream, hended heof, List.flatten_nil, List.append_nil] at hle
  · obtain ⟨⟨c, fs, e⟩, hfill, rfl⟩ := Option.map_eq_some_iff.1 h
    obtain ⟨hstream, hend, hneed⟩ := fill_spec hfill
    exact ⟨hstream, hend, rfl, rfl, hneed⟩

theorem isSome_fill {s : Reading} (broken : Bool) {need : ℕ} (h : need ≤ s.stream.length) :
    (s.fill broken need).isSome = true := by
  rw [Reading.fill]
  split_ifs
  · rfl
  · rw [Option.isSome_map]
    exact Mailbox.isSome_fill broken h

end Reading

section

variable {aead : Aead} {key : Bytes} {totalSize : ℕ} {broken : Bool} {disk : Disk}

/-- A chunk that was taken is a chunk of the body that opened. -/
theorem fetchChunk_eq {idx : ℕ} {s s' : Reading}
    (h : fetchChunk aead key totalSize broken disk idx s = (s', none)) (hended : s.Ended) :
    ∃ ct plain, s.stream = ct ++ s'.stream ∧
      openChunk aead key idx (totalChunks totalSize) ct = some plain ∧
        s'.out = s.out ++ plain ∧ s'.Ended := by
  rw [fetchChunk] at h
  simp only at h
  split at h
  · cases h
  · rename_i u hu
    obtain ⟨hstream, hend, hout, -, -⟩ := Reading.fill_eq_some hu hended
    split_ifs at h
    · cases h
    split at h
    · cases h
    · rename_i plain hopen
      split at h
      · cases h
      · obtain ⟨rfl, -⟩ := Prod.mk.inj h
        refine ⟨_, plain, ?_, hopen, by rw [hout], hend⟩
        rw [← hstream, Reading.stream, Reading.stream, ← List.append_assoc,
          List.take_append_drop]

variable (broken) in
/-- A chunk that is there is taken. -/
theorem fetchChunk_of_stream {idx : ℕ} {s : Reading} {ct rest plain : Bytes}
    (hstream : s.stream = ct ++ rest) (hlen : ct.length = plainLen totalSize idx + tag)
    (hopen : openChunk aead key idx (totalChunks totalSize) ct = some plain)
    (hwrite : disk.write idx = none) (hended : s.Ended) :
    ∃ s', fetchChunk aead key totalSize broken disk idx s = (s', none) ∧ s'.stream = rest ∧
      s'.out = s.out ++ plain ∧ s'.Ended := by
  have hneed : plainLen totalSize idx + tag ≤ s.stream.length := by
    rw [hstream, List.length_append, hlen]
    exact Nat.le_add_right _ _
  obtain ⟨u, hu⟩ := Option.isSome_iff_exists.1 (Reading.isSome_fill broken hneed)
  obtain ⟨hkept, hend, hout, -, hcarry⟩ := Reading.fill_eq_some hu hended
  have hle : plainLen totalSize idx + tag ≤ u.carry.length := hcarry hneed
  rw [hstream, Reading.stream] at hkept
  have hct : u.carry.take (plainLen totalSize idx + tag) = ct := by
    have := congrArg (List.take (plainLen totalSize idx + tag)) hkept
    rwa [List.take_append_of_le_length hle, ← hlen, List.take_left, hlen] at this
  have hrest : u.carry.drop (plainLen totalSize idx + tag) ++ u.frames.flatten = rest := by
    have := congrArg (List.drop (plainLen totalSize idx + tag)) hkept
    rwa [List.drop_append_of_le_length hle, ← hlen, List.drop_left, hlen] at this
  rw [fetchChunk]
  simp only [hu, if_neg (not_lt.2 hle), hct, hopen, hwrite]
  exact ⟨_, rfl, hrest, by rw [hout], hend⟩

end

/-! ### The blob of a deposit -/

/-- The layout of a deposit. -/
def deposit (payload key : Bytes) : SealedLayout := .mailbox payload key payload.length

/-- Under an ideal cipher the ciphertexts in `blob` that open under the key are the sealed
chunks, each as the chunk it was sealed as. -/
def Unforged (aead : Aead) (l : SealedLayout) (blob : Bytes) : Prop :=
  ∀ ct, ct <:+: blob → ∀ idx total m, idx < 2 ^ 32 → total < 2 ^ 32 →
    openChunk aead l.key idx total ct = some m →
      total = l.totalChunks ∧ sealChunk aead l.key idx total m = some ct ∧
        idx < l.totalChunks ∧ m = plainUnit l idx

section

variable {payload key : Bytes}

theorem totalChunks_deposit :
    (deposit payload key).totalChunks = totalChunks payload.length := by
  rw [totalChunks]
  split_ifs with hzero
  · change (payload.length + (chunkSizeMailbox - 1)) / chunkSizeMailbox % 2 ^ 32 = 0
    rw [hzero]
    decide
  · rfl

/-- The deposit has fewer chunks than a `u32` holds. -/
def Countable (payload : Bytes) : Prop :=
  (payload.length + (chunkSizeMailbox - 1)) / chunkSizeMailbox < 2 ^ 32

theorem Countable.fits (h : Countable payload) :
    (deposit payload key).totalChunks = 0 ∧ (deposit payload key).size = 0 ∨
      (deposit payload key).Fits :=
  Layout.fits_of_count_lt _ h

theorem Countable.content (h : Countable payload) :
    contentFrom (deposit payload key) 0 = payload := by
  rw [contentFrom_eq_drop h.fits rfl (Nat.zero_le _), Nat.zero_mul]
  rfl

/-- The receiver's lengths are the sender's. -/
theorem length_plainUnit (h : Countable payload) {i : ℕ}
    (hi : i < (deposit payload key).totalChunks) :
    (plainUnit (deposit payload key) i).length = plainLen payload.length i := by
  obtain ⟨-, hend⟩ := Layout.plain_le_chunkSize h.fits hi
  have hwant : (deposit payload key).unitLen i - tag - (deposit payload key).framing =
      plainLen payload.length i := by
    have hframing : (deposit payload key).framing = 0 := rfl
    have htotal : (deposit payload key).totalChunks = totalChunks payload.length :=
      totalChunks_deposit
    rw [plainLen, ← htotal, Layout.unitLen, hframing, Nat.add_zero, Nat.sub_zero,
      Nat.add_sub_cancel]
    by_cases hlast : i + 1 = (deposit payload key).totalChunks
    · rw [if_pos hlast, if_pos (by omega)]
      rfl
    · rw [if_neg hlast, if_neg (by omega)]
      rfl
  have hsize : (deposit payload key).size = payload.length := rfl
  rw [hwant, hsize] at hend
  rw [plainUnit, List.length_take, List.length_drop, hwant]
  change min _ (payload.length - i * (deposit payload key).chunkSize) = _
  omega

variable {aead : Aead} {broken : Bool} {disk : Disk}

/-- A chunk as it stands in the blob. -/
theorem unit_deposit (haead : aead.Lawful) {i : ℕ} {u : Bytes}
    (hu : (deposit payload key).unit aead i = some u) :
    u.length = (plainUnit (deposit payload key) i).length + tag ∧
      openChunk aead key i (deposit payload key).totalChunks u =
        some (plainUnit (deposit payload key) i) := by
  simp only [Layout.unit, sealChunk] at hu
  split_ifs at hu with hfull
  obtain ⟨ct, hct, rfl⟩ := Option.map_eq_some_iff.1 hu
  exact ⟨haead.length_encrypt hct, haead.decrypt_encrypt hct⟩

variable (broken disk) in
/-- The chunks of the blob come out one after another, however they arrive. -/
theorem fetchChunks_chunksFrom (haead : aead.Lawful) (hcount : Countable payload)
    (hunits : ∀ i < (deposit payload key).totalChunks,
      ((deposit payload key).unit aead i).isSome = true)
    (hwrite : ∀ i, disk.write i = none) {n i : ℕ} (hn : i + n = (deposit payload key).totalChunks)
    {s : Reading} (hstream : s.stream = (deposit payload key).chunksFrom aead i)
    (hended : s.Ended) :
    ∃ s', fetchChunks aead key payload.length broken disk n i s = (s', none) ∧
      s'.out = s.out ++ contentFrom (deposit payload key) i := by
  induction n generalizing i s with
  | zero => exact ⟨s, rfl, by rw [contentFrom_of_le _ (by omega), List.append_nil]⟩
  | succ n ih =>
      have hi : i < (deposit payload key).totalChunks := by omega
      obtain ⟨u, hu⟩ := Option.isSome_iff_exists.1 (hunits i hi)
      obtain ⟨hlen, hopen⟩ := unit_deposit haead hu
      rw [length_plainUnit hcount hi] at hlen
      rw [totalChunks_deposit] at hopen
      rw [Layout.chunksFrom_succ aead _ hi, hu, Option.getD_some] at hstream
      obtain ⟨t, hstep, hrest, hout, hend⟩ :=
        fetchChunk_of_stream broken hstream hlen hopen (hwrite i) hended
      obtain ⟨s', hchunks, hout'⟩ := ih (i := i + 1) (by omega) hrest hend
      refine ⟨s', by rw [fetchChunks, hstep]; exact hchunks, ?_⟩
      rw [hout', hout, contentFrom_succ _ hi, List.append_assoc]

/-- Whatever a stream without forged ciphertexts yields in full is the chunks. -/
theorem fetchChunks_unforged {blob : Bytes} (hblob : Unforged aead (deposit payload key) blob)
    {n i : ℕ} (hn : i + n = (deposit payload key).totalChunks) {s s' : Reading}
    (hstream : s.stream <:+: blob) (hended : s.Ended)
    (h : fetchChunks aead key payload.length broken disk n i s = (s', none)) :
    s'.out = s.out ++ contentFrom (deposit payload key) i := by
  have htotal : (deposit payload key).totalChunks < 2 ^ 32 := Nat.mod_lt _ (by decide)
  induction n generalizing i s with
  | zero =>
      obtain ⟨rfl, -⟩ := Prod.mk.inj h
      rw [contentFrom_of_le _ (by omega), List.append_nil]
  | succ n ih =>
      have hi : i < (deposit payload key).totalChunks := by omega
      rw [fetchChunks] at h
      split at h
      · rename_i t hstep
        obtain ⟨ct, plain, hsplit, hopen, hout, hend⟩ := fetchChunk_eq hstep hended
        rw [hsplit] at hstream
        rw [← totalChunks_deposit] at hopen
        have hct : ct <:+: blob := .trans ⟨[], t.stream, by simp⟩ hstream
        have hrest : t.stream <:+: blob := .trans ⟨ct, [], by simp⟩ hstream
        obtain ⟨-, -, -, rfl⟩ :=
          hblob ct hct i (deposit payload key).totalChunks plain (hi.trans htotal) htotal hopen
        rw [ih (by omega) hrest hend h, hout, contentFrom_succ _ hi, List.append_assoc]
      · cases h

end

/-! ### Deposits are read back -/

/-- The file is there, and the relay may let go. -/
def Fetched.Done (r : Fetched) (payload : Bytes) : Prop :=
  r.file = some payload ∧ r.acked = true ∧ r.result = .ok payload.length

/-- The relay keeps the deposit. -/
def Fetched.Failed (r : Fetched) : Prop := r.acked = false ∧ ∃ e, r.result = .error e

section

variable {Identity Rand : Type} {prims : Prims Identity Rand} {payload key : Bytes}

/-- With the content key in hand it comes down to the body. -/
theorem fetchOffline_served {t : OfflineTicket} {me : Identity} {password : Option String}
    {sender : PublicId} {encapped : Bytes} (hticket : checkTicket prims t password = .ok sender)
    (hkey : contentKey prims t me sender password encapped = .ok key) (body : Body) (disk : Disk) :
    fetchOffline prims t me password (.served (some encapped) body) disk =
      fetchBody prims.aead key t.totalSize body disk := by
  rw [fetchOffline, hticket]
  simp only [hkey]

/-- A fetch has the content key and the body, or fails. -/
theorem fetchOffline_cases (t : OfflineTicket) (me : Identity) (password : Option String)
    (reply : Reply) (disk : Disk) :
    (fetchOffline prims t me password reply disk).Failed ∨
      ∃ sender encapped key body, contentKey prims t me sender password encapped = .ok key ∧
        reply = .served (some encapped) body ∧
        fetchOffline prims t me password reply disk =
          fetchBody prims.aead key t.totalSize body disk := by
  cases hticket : checkTicket prims t password with
  | error e => exact .inl (by rw [fetchOffline, hticket]; exact ⟨rfl, e, rfl⟩)
  | ok sender =>
      cases reply with
      | lost => exact .inl (by rw [fetchOffline, hticket]; exact ⟨rfl, _, rfl⟩)
      | refused status text => exact .inl (by rw [fetchOffline, hticket]; exact ⟨rfl, _, rfl⟩)
      | served encapped body =>
          cases encapped with
          | none => exact .inl (by rw [fetchOffline, hticket]; exact ⟨rfl, _, rfl⟩)
          | some encapped =>
              cases hkey : contentKey prims t me sender password encapped with
              | error e =>
                  refine .inl ?_
                  rw [fetchOffline, hticket]
                  simp only [hkey]
                  exact ⟨rfl, e, rfl⟩
              | ok k =>
                  exact .inr ⟨sender, encapped, k, body, hkey, rfl,
                    fetchOffline_served hticket hkey body disk⟩

/-- The blob of a deposit yields the payload, however it is cut into frames, and a fetch
that is handed anything else fails or yields the payload all the same. -/
structure ReadBack (prims : Prims Identity Rand) (payload key : Bytes) : Prop where
  roundTrip : ∃ v, (deposit payload key).toVec prims.aead = some v ∧
    ∀ body : Body, body.frames.flatten = v →
      (fetchBody prims.aead key payload.length body {}).Done payload
  sound : ∀ (t : OfflineTicket) (me : Identity) (password : Option String) (reply : Reply)
    (disk : Disk), t.totalSize = payload.length →
    (∀ sender encapped k, contentKey prims t me sender password encapped = .ok k → k = key) →
    (∀ encapped body, reply = .served encapped body →
      Unforged prims.aead (deposit payload key) body.frames.flatten) →
    (fetchOffline prims t me password reply disk).Done payload ∨
      (fetchOffline prims t me password reply disk).Failed

theorem Countable.roundTrip (hcount : Countable payload) (haead : prims.aead.Lawful)
    (htotal : prims.aead.Total) :
    ∃ v, (deposit payload key).toVec prims.aead = some v ∧
      ∀ body : Body, body.frames.flatten = v →
        (fetchBody prims.aead key payload.length body {}).Done payload := by
  obtain ⟨v, hv⟩ := Layout.toVec_isSome (l := (deposit payload key).toLayout) htotal le_rfl
    hcount.fits
  refine ⟨v, hv, fun body hbody => ?_⟩
  have hstream : Reading.stream { frames := body.frames } =
      (deposit payload key).chunksFrom prims.aead 0 := by
    have hlead : (deposit payload key).lead = [] := rfl
    rw [Reading.stream, List.nil_append, hbody, Layout.toVec_eq hv, hlead, List.nil_append]
  have hcounts : totalChunks payload.length = (deposit payload key).totalChunks :=
    totalChunks_deposit.symm
  have hended : Reading.Ended { frames := body.frames } := nofun
  have hwrite : ∀ i, ({} : Disk).write i = none := fun _ => rfl
  obtain ⟨s, hs, hout⟩ := fetchChunks_chunksFrom body.broken {} haead hcount
    (Layout.isSome_of_toVec hv) hwrite (Nat.zero_add _) hstream hended
  rw [hcount.content] at hout
  rw [fetchBody, if_pos rfl, hcounts, hs]
  simp only [if_true]
  exact ⟨congrArg some hout, rfl, rfl⟩

theorem Countable.sound (hcount : Countable payload) {body : Body} (disk : Disk)
    (hblob : Unforged prims.aead (deposit payload key) body.frames.flatten) :
    (fetchBody prims.aead key payload.length body disk).Done payload ∨
      (fetchBody prims.aead key payload.length body disk).Failed := by
  have hcounts : totalChunks payload.length = (deposit payload key).totalChunks :=
    totalChunks_deposit.symm
  rw [fetchBody, hcounts]
  by_cases hcreate : disk.create = true
  · rw [if_pos hcreate]
    split
    · exact .inr ⟨rfl, _, rfl⟩
    · rename_i s hs
      have hout := fetchChunks_unforged hblob (Nat.zero_add _) (s := { frames := body.frames })
        List.infix_rfl nofun hs
      rw [hcount.content] at hout
      by_cases hflush : disk.flush = true
      · rw [if_pos hflush]
        exact .inl ⟨congrArg some hout, rfl, rfl⟩
      · rw [if_neg hflush]
        exact .inr ⟨rfl, _, rfl⟩
  · rw [if_neg hcreate]
    exact .inr ⟨rfl, _, rfl⟩

/-- A deposit that is counted to have no chunks leaves an empty file. -/
theorem file_of_totalChunks_zero {totalSize : ℕ} (hzero : totalChunks totalSize = 0)
    (aead : Aead) (body : Body) : (fetchBody aead key totalSize body {}).file = some [] := by
  rw [fetchBody, if_pos rfl, hzero]
  rfl

/-- Deposits are read back exactly if their chunks can be counted. -/
theorem readBack_iff (prims : Prims Identity Rand) (haead : prims.aead.Lawful)
    (htotal : prims.aead.Total) (payload key : Bytes) :
    ReadBack prims payload key ↔ Countable payload := by
  constructor
  · rintro ⟨⟨v, hv, hdone⟩, -⟩
    have hlt : (deposit payload key).totalChunks < 2 ^ 32 := Nat.mod_lt _ (by decide)
    have hsize : (deposit payload key).size = payload.length := rfl
    have hchunk : (deposit payload key).chunkSize = chunkSizeMailbox := rfl
    rcases SealedLayout.fits_or_zero haead (Layout.isSome_of_toVec hv) with hzero | hfits
    · -- no chunk, and so nothing in the file
      have hcounts : totalChunks payload.length = 0 := totalChunks_deposit.symm.trans hzero
      have hfile := (hdone ⟨[v], false⟩ (by simp)).1
      rw [file_of_totalChunks_zero hcounts] at hfile
      obtain rfl : [] = payload := Option.some.inj hfile
      show (0 + (chunkSizeMailbox - 1)) / chunkSizeMailbox < 2 ^ 32
      decide
    · have hupper := hfits.upper
      rw [hsize, hchunk] at hupper
      rw [Countable, Nat.div_lt_iff_lt_mul (by decide)]
      unfold chunkSizeMailbox at hupper ⊢
      omega
  · intro hcount
    refine ⟨hcount.roundTrip haead htotal, fun t me password reply disk hsize hkey hblob => ?_⟩
    rcases fetchOffline_cases t me password reply disk with hfailed | hbody
    · exact .inr hfailed
    · obtain ⟨sender, encapped, k, body, hk, rfl, heq⟩ := hbody
      obtain rfl := hkey sender encapped k hk
      rw [heq, hsize]
      exact hcount.sound disk (hblob _ body rfl)

end

/-! ### Runs -/

def standPrims : Prims UInt8 Unit := ⟨standIn, spelled, fun _ _ k => some k⟩

/-- A deposit of one byte. -/
theorem readBack_oneByte : ReadBack standPrims [7] [9] :=
  (readBack_iff standPrims spelled_lawful spelled_total [7] [9]).2
    (show (1 + (chunkSizeMailbox - 1)) / chunkSizeMailbox < 2 ^ 32 by decide)

/-- A file of 2^56 bytes: its chunks are as many as a `u32` holds and one more. -/
def sixtyFourPebibytes : Bytes := List.replicate (2 ^ 56) 0

/-- The deposit of such a file is empty, and what comes of it is an empty file and the
word that it has arrived. -/
theorem not_readBack_pebibytes : ¬ ReadBack standPrims sixtyFourPebibytes [9] := by
  rintro ⟨⟨v, -, hdone⟩, -⟩
  have hlen : sixtyFourPebibytes.length = 2 ^ 56 := List.length_replicate
  have hzero : totalChunks sixtyFourPebibytes.length = 0 := by
    rw [hlen]
    decide
  have hfile := (hdone ⟨[v], false⟩ (by simp)).1
  rw [file_of_totalChunks_zero hzero] at hfile
  have hnil : [] = sixtyFourPebibytes := Option.some.inj hfile
  rw [← hnil] at hlen
  exact absurd hlen (by decide)

end Arvolo.Recv.Mailbox
