import Arvolo.Lib.Pool
import Arvolo.Recv.Files

/-!
The bytes a download writes.

A ticket is issued for a payload: the payload is cut into pieces, each is sealed,
and the ticket lists the digests of the ciphertexts. Whatever the providers serve
and however the stage files are shared, a commit writes the piece of the payload
at its offset or ends the download, so the file agrees with the payload wherever
a bit is set, in memory or in the sidecar.
-/

namespace Arvolo.Recv

open Crypto Lib

/-! ### The sender's side -/

/-- Piece `i` of a payload. -/
def piece (chunkSize i : ℕ) (payload : Bytes) : Bytes :=
  (payload.drop (i * chunkSize)).take chunkSize

/-- `PreparedChunks::compute`: the digests of the sealed pieces. -/
def prepare (aead : Aead) (hash : Bytes → Bytes) (key : Bytes) (chunkSize : ℕ) (payload : Bytes) :
    Option (List Bytes) :=
  let total := (payload.length + chunkSize - 1) / chunkSize
  (List.range total).mapM fun i => (sealChunk aead key i total (piece chunkSize i payload)).map hash

/-- The ticket a sender makes for a payload. -/
def Ticket.issue (aead : Aead) (hash : Bytes → Bytes) (key : Bytes) (chunkSize : ℕ) (name : String)
    (archive : Bool) (payload : Bytes) : Option Ticket :=
  (prepare aead hash key chunkSize payload).map fun chunks =>
    { chunks, key, chunkSize, totalSize := payload.length, name, archive }

theorem mapM_spec {α β : Type} {f : α → Option β} {l : List α} {r : List β}
    (h : l.mapM f = some r) :
    r.length = l.length ∧
      ∀ (k : ℕ) (a : α), l[k]? = some a → ∃ b, f a = some b ∧ r[k]? = some b := by
  induction l generalizing r with
  | nil =>
      simp only [List.mapM_nil, Option.pure_def, Option.some.injEq] at h
      subst h
      exact ⟨rfl, fun k a hk => by simp at hk⟩
  | cons x l ih =>
      rw [List.mapM_cons] at h
      simp only [Option.pure_def, Option.bind_eq_bind, Option.bind_eq_some_iff,
        Option.some.injEq] at h
      obtain ⟨b, hb, bs, hbs, rfl⟩ := h
      obtain ⟨hlen, hget⟩ := ih hbs
      refine ⟨by simp [hlen], fun k a hk => ?_⟩
      cases k with
      | zero =>
          obtain rfl : x = a := by simpa using hk
          exact ⟨b, hb, rfl⟩
      | succ k => exact hget k a (by simpa using hk)

/-- What a ticket says about the payload it was issued for. -/
structure Issued (c : Config) (payload : Bytes) : Prop where
  pos : 0 < c.ticket.chunkSize
  size : c.ticket.totalSize = payload.length
  total : c.ticket.total = (payload.length + c.ticket.chunkSize - 1) / c.ticket.chunkSize
  sealed : ∀ i < c.ticket.total, ∃ ct,
    sealChunk c.aead c.ticket.key i c.ticket.total (piece c.ticket.chunkSize i payload) = some ct ∧
      c.ticket.chunks[i]? = some (c.hash ct)

theorem issued_of_issue {c : Config} {payload : Bytes} (hpos : 0 < c.ticket.chunkSize)
    (h : Ticket.issue c.aead c.hash c.ticket.key c.ticket.chunkSize c.ticket.name c.ticket.archive
      payload = some c.ticket) : Issued c payload := by
  obtain ⟨chunks, hprep, heq⟩ := Option.map_eq_some_iff.mp h
  have hchunks : c.ticket.chunks = chunks := by rw [← heq]
  have hsize : c.ticket.totalSize = payload.length := by rw [← heq]
  obtain ⟨hlen, hget⟩ := mapM_spec hprep
  rw [List.length_range] at hlen
  have htotal : c.ticket.total = (payload.length + c.ticket.chunkSize - 1) / c.ticket.chunkSize := by
    rw [Ticket.total, hchunks, hlen]
  refine ⟨hpos, hsize, htotal, fun i hi => ?_⟩
  obtain ⟨d, hd, hi'⟩ := hget i i (List.getElem?_range (htotal ▸ hi))
  obtain ⟨ct, hct, rfl⟩ := Option.map_eq_some_iff.mp hd
  exact ⟨ct, htotal ▸ hct, hchunks ▸ hi'⟩

/-! ### Agreement with the payload -/

/-- The file has the bytes of the payload throughout piece `i`. -/
def Agrees (chunkSize : ℕ) (payload file : Bytes) (i : ℕ) : Prop :=
  ∀ k : ℕ, k / chunkSize = i → k < payload.length → file[k]? = payload[k]?

section Agrees

variable {chunkSize : ℕ} {payload file : Bytes} {i : ℕ}

theorem Agrees.lt_length (h : Agrees chunkSize payload file i) {k : ℕ} (hk : k / chunkSize = i)
    (hlt : k < payload.length) : k < file.length := by
  have hbyte := h k hk hlt
  rw [List.getElem?_eq_getElem hlt] at hbyte
  exact (List.getElem?_eq_some_iff.mp hbyte).1

theorem getElem?_piece_take (chunkSize : ℕ) (payload : Bytes) {j n k : ℕ}
    (hk : k < ((piece chunkSize j payload).take n).length) :
    ((piece chunkSize j payload).take n)[k]? = payload[j * chunkSize + k]? := by
  rw [List.length_take, piece, List.length_take] at hk
  rw [piece, List.getElem?_take_of_lt (by omega), List.getElem?_take_of_lt (by omega),
    List.getElem?_drop]

/-- Writing bytes of the payload where they belong spoils no piece. -/
theorem Agrees.writeAt (h : Agrees chunkSize payload file i) (j n : ℕ) :
    Agrees chunkSize payload
      (writeAt file (j * chunkSize) ((piece chunkSize j payload).take n)) i := by
  intro k hk hlt
  by_cases hempty : (piece chunkSize j payload).take n = []
  · simpa [Recv.writeAt, hempty] using h k hk hlt
  · rw [getElem?_writeAt hempty]
    split_ifs with hbefore hfile hinside
    · exact h k hk hlt
    · exact absurd (h.lt_length hk hlt) hfile
    · rw [getElem?_piece_take _ _ (by omega)]
      congr 1
      omega
    · exact h k hk hlt

/-- Writing all of piece `j` makes it right. -/
theorem agrees_writeAt (hpos : 0 < chunkSize) (j : ℕ) :
    Agrees chunkSize payload (writeAt file (j * chunkSize) (piece chunkSize j payload)) j := by
  intro k hk hlt
  have hlow : j * chunkSize ≤ k := hk ▸ Nat.div_mul_le_self k chunkSize
  have hhigh : k < j * chunkSize + chunkSize := hk ▸ Nat.lt_div_mul_add hpos
  have hlen : (piece chunkSize j payload).length =
      min chunkSize (payload.length - j * chunkSize) := by
    simp [piece]
  have hne : piece chunkSize j payload ≠ [] := by
    intro hnil
    rw [hnil, List.length_nil] at hlen
    omega
  rw [getElem?_writeAt hne, if_neg (by omega), if_pos (by omega)]
  have hwhole : (piece chunkSize j payload).take (piece chunkSize j payload).length =
      piece chunkSize j payload := List.take_length
  rw [← hwhole, getElem?_piece_take chunkSize payload (by rw [hwhole]; omega)]
  congr 1
  omega

/-- Giving the file its final length spoils no piece. -/
theorem Agrees.setLen (h : Agrees chunkSize payload file i) :
    Agrees chunkSize payload (setLen file payload.length) i := by
  intro k hk hlt
  have hfile := h.lt_length hk hlt
  rw [Recv.setLen, List.getElem?_append_left (by rw [List.length_take]; omega),
    List.getElem?_take_of_lt hlt]
  exact h k hk hlt

/-- A file of the right length that agrees throughout is the payload. -/
theorem eq_of_agrees (hpos : 0 < chunkSize) (hlen : file.length = payload.length)
    (h : ∀ i < (payload.length + chunkSize - 1) / chunkSize, Agrees chunkSize payload file i) :
    file = payload := by
  refine List.ext_getElem? fun k => ?_
  rcases Nat.lt_or_ge k payload.length with hk | hk
  · refine h (k / chunkSize) ?_ k rfl hk
    rw [Nat.div_lt_iff_lt_mul hpos]
    have := Nat.lt_div_mul_add (a := payload.length + chunkSize - 1) hpos
    omega
  · rw [List.getElem?_eq_none (hlen ▸ hk), List.getElem?_eq_none hk]

end Agrees

/-! ### Stage files that hold nothing foreign -/

/-- The genuine ciphertext of piece `i`. -/
def genuine (c : Config) (payload : Bytes) (i : ℕ) : Bytes :=
  (sealChunk c.aead c.ticket.key i c.ticket.total (piece c.ticket.chunkSize i payload)).getD []

/-- No other body has the digest of a ciphertext of the ticket. -/
def Unforged (c : Config) (payload : Bytes) : Prop :=
  ∀ i < c.ticket.total, ∀ body, c.hash body = c.hash (genuine c payload i) →
    body = genuine c payload i

theorem Issued.seal_eq {c : Config} {payload : Bytes} (h : Issued c payload) {i : ℕ}
    (hi : i < c.ticket.total) :
    sealChunk c.aead c.ticket.key i c.ticket.total (piece c.ticket.chunkSize i payload) =
      some (genuine c payload i) ∧
    c.ticket.chunks[i]? = some (c.hash (genuine c payload i)) := by
  obtain ⟨ct, hct, hdigest⟩ := h.sealed i hi
  simp [genuine, hct, hdigest]

theorem damaged_nil (whole : Bytes) : Damaged [] whole :=
  ⟨by simp, fun k b hk => by simp at hk⟩

/-- Bytes of a ciphertext written where they belong leave a damaged copy of it, or
all of it. -/
theorem damaged_writeAt {left whole : Bytes} (h : Damaged left whole) (p n : ℕ) :
    Damaged (writeAt left p ((whole.take n).drop p)) whole := by
  by_cases hempty : (whole.take n).drop p = []
  · simpa [Recv.writeAt, hempty] using h
  · have hlen : ((whole.take n).drop p).length = min n whole.length - p := by simp
    have hpos : 0 < ((whole.take n).drop p).length := List.length_pos_iff.mpr hempty
    have hbyte : ∀ (k : ℕ) (b : UInt8),
        (Recv.writeAt left p ((whole.take n).drop p))[k]? = some b →
          whole[k]? = some b ∨ b = 0 := by
      intro k b hk
      rw [getElem?_writeAt hempty] at hk
      split_ifs at hk with hbefore hleft hinside
      · exact h.byte k b hk
      · exact .inr (Option.some.inj hk).symm
      · rw [List.getElem?_drop, List.getElem?_take_of_lt (by omega),
          Nat.add_sub_cancel' (by omega)] at hk
        exact .inl hk
      · exact h.byte k b hk
    refine ⟨?_, hbyte⟩
    -- no byte past the end of the ciphertext
    by_contra hlong
    have hk : whole.length < (Recv.writeAt left p ((whole.take n).drop p)).length := by omega
    have hsome := List.getElem?_eq_getElem hk
    rw [getElem?_writeAt hempty, if_neg (by omega), if_neg (by omega),
      List.getElem?_eq_none h.length_le] at hsome
    cases hsome

namespace Loop

variable {c : Config} {payload : Bytes} {s : Loop}

/-- Under the path of a task that has opened it there is, if anything, a damaged
copy of the piece's ciphertext, or all of it. -/
structure Genuine (c : Config) (payload : Bytes) (s : Loop) : Prop where
  filed : ∀ t ∈ s.tasks, t.Filed c s.stages
  remains : ∀ t ∈ s.tasks, t.fd ≠ none → ∀ n, s.stages.names t.stage = some n →
    Damaged (s.stages.data n) (Recv.genuine c payload t.piece)

/-- A body that was accepted is the ciphertext of the piece. -/
theorem Genuine.verified_eq (h : s.Genuine c payload) (hissued : Issued c payload)
    (hunforged : Unforged c payload) {t : Task} (ht : t ∈ s.tasks) (hlt : t.piece < c.ticket.total)
    {b : Bytes} (hb : t.verified = some b) : b = Recv.genuine c payload t.piece := by
  have hdigest := (h.filed t ht).checked b hb
  rw [(hissued.seal_eq hlt).2] at hdigest
  exact hunforged t.piece hlt b (Option.some.inj hdigest).symm

/-- Replace task `j` by one with the same path, over the same files. -/
theorem Genuine.setTask (h : s.Genuine c payload) {j : ℕ} {t : Task} {banned : List Provider}
    (ht : t.Filed c s.stages)
    (hrem : t.fd ≠ none → ∀ n, s.stages.names t.stage = some n →
      Damaged (s.stages.data n) (Recv.genuine c payload t.piece)) :
    Genuine c payload { s with tasks := s.tasks.set j t, banned } where
  filed := forall_mem_set ht fun _ u hk _ => h.filed u (List.mem_of_getElem? hk)
  remains := forall_mem_set (P := fun t => t.fd ≠ none → ∀ n, s.stages.names t.stage = some n →
      Damaged (s.stages.data n) (Recv.genuine c payload t.piece)) hrem
    fun _ u hk _ => h.remains u (List.mem_of_getElem? hk)

/-- Write to a file: every path that leads to it is of the piece that is written. -/
theorem Genuine.write (h : s.Genuine c payload) (m : ℕ) (bytes : Bytes)
    (hbytes : ∀ p : Stage, s.stages.names p = some m →
      Damaged bytes (Recv.genuine c payload p.piece)) :
    Genuine c payload { s with stages := s.stages.write m bytes } where
  filed t ht := (h.filed t ht).write m bytes
  remains t ht hfd n hn := by
    by_cases hnm : n = m
    · subst hnm
      rw [StageFiles.data_write_self, ← (h.filed t ht).piece]
      exact hbytes t.stage hn
    · rw [StageFiles.data_write_of_ne hnm]
      exact h.remains t ht hfd n hn

/-- Some paths are gone. -/
theorem Genuine.trim (h : s.Genuine c payload) {f : StageFiles} (hf : s.stages.Trimmed f) :
    Genuine c payload { s with stages := f } where
  filed t ht := (h.filed t ht).trim hf
  remains t ht hfd n hn := by
    have hdata : f.data n = s.stages.data n := by rw [hf.data]
    exact hdata ▸ h.remains t ht hfd n (hf.names _ _ hn)

/-- The file a path leads to was emptied, or made. -/
theorem Genuine.openFile (h : s.Genuine c payload) (p : Stage) :
    Genuine c payload { s with stages := (s.stages.openStage p).1 } ∧
      (s.stages.openStage p).1.data (s.stages.openStage p).2 = [] := by
  cases hname : s.stages.names p with
  | some n =>
      rw [StageFiles.openStage_eq_some hname]
      exact ⟨h.write n [] fun q _ => damaged_nil _, StageFiles.data_write_self n []⟩
  | none =>
      rw [StageFiles.openStage_eq_none hname]
      refine ⟨⟨fun t ht => (h.filed t ht).create p, ?_⟩, Function.update_self _ _ _⟩
      intro t ht hfd n hn
      by_cases htp : t.stage = p
      · rw [htp, StageFiles.names_create_self] at hn
        obtain rfl := Option.some.inj hn
        rw [show (s.stages.create p).data s.stages.next = [] from Function.update_self _ _ _]
        exact damaged_nil _
      · rw [StageFiles.names_create_of_ne htp] at hn
        rw [StageFiles.data_create_of_lt (s.stages.lt_next _ _ hn)]
        exact h.remains t ht hfd n hn

theorem Genuine.openStage (h : s.Genuine c payload) (j : ℕ) :
    (s.openStage j).Genuine c payload := by
  unfold Loop.openStage
  split
  · rename_i t ht
    split_ifs
    · obtain ⟨hopen, hnil⟩ := h.openFile t.stage
      have hname := StageFiles.names_openStage s.stages t.stage
      refine hopen.setTask ((h.filed t (List.mem_of_getElem? ht)).opened hname) ?_
      intro _ n hn
      obtain rfl : (s.stages.openStage t.stage).2 = n := Option.some.inj (hname.symm.trans hn)
      rw [hnil]
      exact damaged_nil _
    · exact h
  · exact h

theorem Genuine.receive (h : s.Genuine c payload) (j : ℕ) (body : Bytes) :
    (s.receive c j body).Genuine c payload := by
  unfold Loop.receive
  split
  · rename_i t ht
    have hmem : t ∈ s.tasks := List.mem_of_getElem? ht
    split
    · rename_i n hfd hver hout
      split_ifs with hhash
      · have hempty := h.write n [] fun p _ => damaged_nil _
        exact hempty.setTask ((hempty.filed t hmem).received (by simp [hfd]) hout hhash)
          (hempty.remains t hmem)
      · exact h.setTask ((h.filed t hmem).gaveUp (by decide)) (h.remains t hmem)
    · exact h
  · exact h

theorem Genuine.writeStage (h : s.Genuine c payload) (hissued : Issued c payload)
    (hunforged : Unforged c payload) (hlt : ∀ t ∈ s.tasks, t.piece < c.ticket.total) (j n : ℕ) :
    (s.writeStage j n).Genuine c payload := by
  unfold Loop.writeStage
  split
  · rename_i t ht
    have hmem : t ∈ s.tasks := List.mem_of_getElem? ht
    have hfiled := h.filed t hmem
    split
    · rename_i fd body hfd hver hout
      have hbody := h.verified_eq hissued hunforged hmem (hlt t hmem) hver
      have hwrite := h.write fd (writeAt (s.stages.data fd) t.pos
          ((body.take (max t.pos (min n body.length))).drop t.pos)) fun p hp => by
        obtain rfl := hfiled.name fd p hfd hp
        rw [hfiled.piece, hbody]
        exact damaged_writeAt (h.remains t hmem (by simp [hfd]) fd hp) _ _
      exact hwrite.setTask ((hwrite.filed t hmem).wrote hver _) (hwrite.remains t hmem)
    · exact h
  · exact h

theorem Genuine.fail (h : s.Genuine c payload) (j : ℕ) (storage : Bool) :
    (s.fail j storage).Genuine c payload := by
  unfold Loop.fail
  split
  · rename_i t ht
    have hmem : t ∈ s.tasks := List.mem_of_getElem? ht
    split_ifs
    · exact h.setTask ((h.filed t hmem).gaveUp (by simp)) (h.remains t hmem)
    · exact h
  · exact h

theorem Genuine.notice (h : s.Genuine c payload) (j : ℕ) : (s.notice j).Genuine c payload := by
  unfold Loop.notice
  split
  · rename_i t ht
    have hmem : t ∈ s.tasks := List.mem_of_getElem? ht
    split_ifs
    · exact h.setTask ((h.filed t hmem).gaveUp (by simp)) (h.remains t hmem)
    · exact h
  · exact h

theorem Genuine.spawn (h : s.Genuine c payload) (i : ℕ) (prov : Provider) {remaining : List ℕ} :
    Genuine c payload ({ s with remaining }.spawn i prov) := by
  have hcases : ∀ t ∈ ({ s with remaining }.spawn i prov).tasks,
      t ∈ s.tasks ∨ t = { piece := i, prov, stage := s.stageFor i prov } := by
    intro t ht
    exact (List.mem_append.mp ht).imp_right List.mem_singleton.mp
  refine ⟨fun t ht => ?_, fun t ht => ?_⟩
  · rcases hcases t ht with ht | rfl
    · exact h.filed t ht
    · exact .assigned (s.stageFor_piece i prov)
  · rcases hcases t ht with ht | rfl
    · exact h.remains t ht
    · exact fun hfd => absurd rfl hfd

theorem Genuine.assign (h : s.Genuine c payload) (now : ℕ) (src : Sources) (i : ℕ)
    (prov : Provider) : (s.assign c now src i prov).Genuine c payload := by
  unfold Loop.assign
  split_ifs
  · exact h.spawn i prov
  · exact h.spawn i prov
  · exact h
  · exact h

/-- A report takes its task off and perhaps some paths with it. -/
theorem Genuine.reported (h : s.Genuine c payload) {j : ℕ} {s' : Loop}
    (htasks : s'.tasks = s.tasks.eraseIdx j) (hstages : s.stages.Trimmed s'.stages) :
    s'.Genuine c payload where
  filed t ht := by
    rw [htasks] at ht
    exact (h.filed t (List.mem_of_mem_eraseIdx ht)).trim hstages
  remains t ht hfd n hn := by
    rw [htasks] at ht
    have hdata : s'.stages.data n = s.stages.data n := by rw [hstages.data]
    exact hdata ▸ h.remains t (List.mem_of_mem_eraseIdx ht) hfd n (hstages.names _ _ hn)

/-- What a reported success opens to is the piece of the payload. -/
theorem Genuine.plain_eq (h : s.Genuine c payload) (hissued : Issued c payload)
    (hlawful : c.aead.Lawful) (hreject : c.aead.RejectsDamaged) {t : Task} (ht : t ∈ s.tasks)
    (hlt : t.piece < c.ticket.total) (hok : t.outcome = some .ok) {ct plain : Bytes}
    (hread : s.stages.read t.stage = some ct)
    (hopen : openChunk c.aead c.ticket.key t.piece c.ticket.total ct = some plain) :
    plain = piece c.ticket.chunkSize t.piece payload := by
  obtain ⟨b, hb, -⟩ := (h.filed t ht).okay hok
  obtain ⟨n, hn, rfl⟩ := Option.map_eq_some_iff.mp hread
  have hdam := h.remains t ht ((h.filed t ht).held b hb) n hn
  obtain ⟨hseal, -⟩ := hissued.seal_eq hlt
  by_cases hwhole : s.stages.data n = Recv.genuine c payload t.piece
  · have hdec := hlawful.decrypt_encrypt hseal
    rw [← hwhole] at hdec
    exact Option.some.inj (hopen.symm.trans hdec)
  · rw [openChunk, hreject hseal hdam hwhole] at hopen
    cases hopen

/-! ### The output -/

/-- The output and the sidecar claim nothing that is not so. -/
structure Faithful (c : Config) (payload : Bytes) (s : Loop) : Prop where
  genuine : s.Genuine c payload
  bits : ∀ i < c.ticket.total, bitfieldHas s.have_ i = true →
    Agrees c.ticket.chunkSize payload s.out i
  saved : ∀ b, s.sidecar = some b → b.length = bitfieldBytes c.ticket.total →
    ∀ i < c.ticket.total, bitfieldHas b i = true → Agrees c.ticket.chunkSize payload s.out i
  final : s.exit = some .completed → s.out.length = payload.length

theorem Faithful.of_quiet {s' : Loop} (h : s.Faithful c payload) (hquiet : s.Quiet s')
    (hgen : s'.Genuine c payload) : s'.Faithful c payload where
  genuine := hgen
  bits := by rw [hquiet.bits, hquiet.out]; exact h.bits
  saved := by rw [hquiet.sidecar, hquiet.out]; exact h.saved
  final := by rw [hquiet.exit, hquiet.out]; exact h.final

/-- A sidecar written from the bits claims what they claim. -/
theorem saved_writeSidecar {old : Option Bytes} {bits : Bytes} {w : Saved} {total : ℕ}
    {P : ℕ → Prop} (hbits : ∀ i < total, bitfieldHas bits i = true → P i)
    (hlen : bits.length = bitfieldBytes total)
    (hold : ∀ b, old = some b → b.length = bitfieldBytes total →
      ∀ i < total, bitfieldHas b i = true → P i) :
    ∀ b, writeSidecar old bits w = some b → b.length = bitfieldBytes total →
      ∀ i < total, bitfieldHas b i = true → P i := by
  intro b hb hblen
  cases w with
  | whole =>
      obtain rfl := Option.some.inj hb
      exact hbits
  | cut n =>
      obtain rfl := Option.some.inj hb
      -- a sidecar that was cut short is not taken for one
      have hall : bits.take n = bits := by
        rw [List.length_take, ← hlen] at hblen
        exact List.take_of_length_le (by omega)
      rw [hall]
      exact hbits
  | skipped => exact hold b hb hblen

theorem Faithful.commit (h : s.Faithful c payload) (hissued : Issued c payload)
    (hlawful : c.aead.Lawful) (hreject : c.aead.RejectsDamaged) (hrun : s.exit = none)
    (hwidth : s.have_.length = bitfieldBytes c.ticket.total) {j : ℕ} {t : Task}
    (ht : s.tasks[j]? = some t) (hlt : t.piece < c.ticket.total) (hok : t.outcome = some .ok)
    (fault : Option Fault) (saved : Saved) :
    ((s.unlist j t).commit c t fault saved).Faithful c payload := by
  have hmem : t ∈ s.tasks := List.mem_of_getElem? ht
  unfold Loop.commit
  simp only
  split
  · exact ⟨h.genuine.reported (by rfl) .rfl, h.bits, h.saved, fun he => by cases he⟩
  · rename_i ct hread
    split
    · exact ⟨h.genuine.reported (by rfl) .rfl, h.bits, h.saved, fun he => by cases he⟩
    · rename_i plain hopen
      obtain rfl := h.genuine.plain_eq hissued hlawful hreject hmem hlt hok hread hopen
      cases fault with
      | some f =>
          refine ⟨h.genuine.reported (by rfl) .rfl, ?_, ?_, ?_⟩
          · exact fun i hi hb => (h.bits i hi hb).writeAt t.piece f.written
          · exact fun b hb hlen i hi hbit => (h.saved b hb hlen i hi hbit).writeAt t.piece f.written
          · intro he
            simp only [Option.some.injEq] at he
            split_ifs at he
      | none =>
          have hwrite : ∀ i, Agrees c.ticket.chunkSize payload s.out i →
              Agrees c.ticket.chunkSize payload (Recv.writeAt s.out
                (t.piece * c.ticket.chunkSize) (piece c.ticket.chunkSize t.piece payload)) i := by
            intro i hi
            have := hi.writeAt t.piece (piece c.ticket.chunkSize t.piece payload).length
            rwa [List.take_length] at this
          have hbits : ∀ i < c.ticket.total, bitfieldHas (bitfieldSet s.have_ t.piece) i = true →
              Agrees c.ticket.chunkSize payload (Recv.writeAt s.out
                (t.piece * c.ticket.chunkSize) (piece c.ticket.chunkSize t.piece payload)) i := by
            intro i hi hbit
            rw [bitfieldHas_set (hwidth ▸ byte_lt_of_lt hlt), Bool.or_eq_true,
              decide_eq_true_eq] at hbit
            rcases hbit with hbit | rfl
            · exact hwrite i (h.bits i hi hbit)
            · exact agrees_writeAt hissued.pos t.piece
          refine ⟨h.genuine.reported (by rfl) ?_, hbits, ?_, ?_⟩
          · exact StageFiles.trimmed_remove.trans (StageFiles.removeAll_spec _ t.piece).1
          · exact saved_writeSidecar hbits ((length_bitfieldSet _ _).trans hwidth)
              fun b hb hlen i hi hbit => hwrite i (h.saved b hb hlen i hi hbit)
          · intro he
            rw [show (s.exit = some .completed) from he] at hrun
            cases hrun

theorem Faithful.report (h : s.Faithful c payload) {bits₀ : Bytes} (hbooks : s.Counted c bits₀)
    (hissued : Issued c payload) (hlawful : c.aead.Lawful) (hreject : c.aead.RejectsDamaged)
    (hrun : s.exit = none) (j now : ℕ) (fault : Option Fault) (saved : Saved) :
    (s.report c j now fault saved).Faithful c payload := by
  have hopen : s.exit = some .completed → s.out.length = payload.length := h.final
  unfold Loop.report
  split
  · rename_i t ht
    have hdiscard : ∀ s' : Loop, s'.tasks = s.tasks.eraseIdx j →
        s'.stages = s.stages.remove t.stage → s'.Genuine c payload := by
      intro s' htasks hstages
      exact h.genuine.reported htasks (hstages ▸ StageFiles.trimmed_remove)
    split
    · exact h
    · exact ⟨hdiscard _ rfl rfl, h.bits, h.saved, hopen⟩
    · rename_i hok
      split_ifs
      · exact ⟨hdiscard _ rfl rfl, h.bits, h.saved, hopen⟩
      · have hmem : t ∈ s.tasks := List.mem_of_getElem? ht
        have hlt : t.piece < c.ticket.total :=
          (hbooks.keys_lt t.piece t.prov (List.mem_map.mpr ⟨t, hmem, rfl⟩)).1
        exact h.commit hissued hlawful hreject hrun hbooks.width ht hlt hok fault saved
    · split_ifs
      · exact ⟨hdiscard _ rfl rfl, h.bits, h.saved, fun he => by cases he⟩
      · have hquiet := quiet_reassign (s := s.unlist j t) t now
        refine Faithful.of_quiet (s := s.unlist j t) ⟨?_, h.bits, h.saved, hopen⟩ hquiet ?_
        · exact h.genuine.reported (by rfl) .rfl
        · unfold Loop.reassign
          simp only
          split_ifs <;> exact hdiscard _ rfl rfl
  · exact h

theorem Faithful.leave (h : s.Faithful c payload) (hissued : Issued c payload) (removed : Bool) :
    (s.leave c removed).Faithful c payload := by
  unfold Loop.leave
  split
  · split
    · exact ⟨⟨h.genuine.filed, h.genuine.remains⟩, h.bits, h.saved, fun he => by cases he⟩
    · have hset : ∀ i, Agrees c.ticket.chunkSize payload s.out i →
          Agrees c.ticket.chunkSize payload (setLen s.out c.ticket.totalSize) i := by
        intro i hi
        rw [hissued.size]
        exact hi.setLen
      refine ⟨⟨h.genuine.filed, h.genuine.remains⟩, fun i hi hb => hset i (h.bits i hi hb), ?_, ?_⟩
      · intro b hb hlen i hi hbit
        cases removed with
        | true => cases hb
        | false => exact hset i (h.saved b hb hlen i hi hbit)
      · intro _
        simp only [setLen, List.length_append, List.length_take, List.length_replicate,
          hissued.size]
        omega
  · exact h

theorem Faithful.step (h : s.Faithful c payload) {bits₀ : Bytes} (hbooks : s.Books c bits₀)
    (hissued : Issued c payload) (hunforged : Unforged c payload) (hlawful : c.aead.Lawful)
    (hreject : c.aead.RejectsDamaged) (e : Event) : (s.step c e).Faithful c payload := by
  unfold Loop.step
  split
  · exact h
  · rename_i hexit
    have hrun : s.exit = none := by simpa using hexit
    have hcounted := hbooks.running hrun
    have hlt : ∀ t ∈ s.tasks, t.piece < c.ticket.total := fun t ht =>
      (hcounted.keys_lt t.piece t.prov (List.mem_map.mpr ⟨t, ht, rfl⟩)).1
    cases e with
    | assign now src i prov =>
        exact h.of_quiet (quiet_assign now src i prov) (h.genuine.assign now src i prov)
    | openStage j => exact h.of_quiet (quiet_openStage j) (h.genuine.openStage j)
    | receive j body => exact h.of_quiet (quiet_receive j body) (h.genuine.receive j body)
    | writeStage j n =>
        exact h.of_quiet (quiet_writeStage j n) (h.genuine.writeStage hissued hunforged hlt j n)
    | fail j storage => exact h.of_quiet (quiet_fail j storage) (h.genuine.fail j storage)
    | notice j => exact h.of_quiet (quiet_notice j) (h.genuine.notice j)
    | report j now fault saved =>
        exact h.report hcounted hissued hlawful hreject hrun j now fault saved
    | trip => exact ⟨⟨h.genuine.filed, h.genuine.remains⟩, h.bits, h.saved, h.final⟩
    | stop =>
        show Faithful c payload (if s.cancel then { s with exit := some .cancelled } else s)
        split
        · exact ⟨⟨h.genuine.filed, h.genuine.remains⟩, h.bits, h.saved, fun he => by cases he⟩
        · exact h
    | leave removed => exact h.leave hissued removed
    | die => exact ⟨⟨h.genuine.filed, h.genuine.remains⟩, h.bits, h.saved, fun he => by cases he⟩

/-- A sidecar that claims only what is so is a good start. -/
theorem faithful_resume (settings : Settings) (stages : StageFiles) {out : Bytes}
    {sidecar : Option Bytes} (saved : Saved) (room : Bool)
    (hclaims : ∀ i < c.ticket.total, bitfieldHas (readSidecar sidecar c.ticket.total) i = true →
      Agrees c.ticket.chunkSize payload out i) :
    (resume c settings stages out sidecar saved room).Faithful c payload := by
  obtain ⟨bits, sidecar', exit, heq, hlen, hsub, -, hside, hexit⟩ :=
    resume_eq c settings stages out sidecar saved room
  rw [heq]
  have hbits : ∀ i < c.ticket.total, bitfieldHas bits i = true →
      Agrees c.ticket.chunkSize payload out i := fun i hi hb => hclaims i hi (hsub i hb)
  have hold : ∀ b, sidecar = some b → b.length = bitfieldBytes c.ticket.total →
      ∀ i < c.ticket.total, bitfieldHas b i = true →
        Agrees c.ticket.chunkSize payload out i := by
    rintro b rfl hblen i hi hb
    exact hclaims i hi (by simpa [readSidecar, hblen] using hb)
  refine ⟨⟨fun t ht => absurd ht (by simp [start]), fun t ht => absurd ht (by simp [start])⟩,
    hbits, ?_, ?_⟩
  · rcases hside with rfl | rfl
    · exact hold
    · exact saved_writeSidecar hbits hlen hold
  · rcases hexit with rfl | rfl <;> exact fun he => by cases he

/-- A run from such a start keeps the output and the sidecar faithful, and if it
completes the output is the payload. -/
theorem run_faithful (settings : Settings) (stages : StageFiles) {out : Bytes}
    {sidecar : Option Bytes} (saved : Saved) (room : Bool) (es : List Event)
    (htrust : settings.trust = false) (hissued : Issued c payload) (hunforged : Unforged c payload)
    (hlawful : c.aead.Lawful) (hreject : c.aead.RejectsDamaged)
    (hclaims : ∀ i < c.ticket.total, bitfieldHas (readSidecar sidecar c.ticket.total) i = true →
      Agrees c.ticket.chunkSize payload out i) :
    (run c settings stages out sidecar saved room es).Faithful c payload ∧
      ((run c settings stages out sidecar saved room es).exit = some .completed →
        (run c settings stages out sidecar saved room es).out = payload) := by
  have hboth : (run c settings stages out sidecar saved room es).Faithful c payload ∧
      (run c settings stages out sidecar saved room es).Books c
        (resume c settings stages out sidecar saved room).have_ := foldl_inv
    (fun s : Loop => s.Faithful c payload ∧
      s.Books c (resume c settings stages out sidecar saved room).have_)
    (fun s e hs => ⟨hs.1.step hs.2 hissued hunforged hlawful hreject e, hs.2.step e⟩)
    ⟨faithful_resume settings stages saved room hclaims,
      books_resume c settings stages out sidecar saved room⟩ es
  refine ⟨hboth.1, fun hexit => ?_⟩
  have hall := run_complete c settings stages out sidecar saved room es hexit (.inr htrust)
  refine eq_of_agrees hissued.pos (hboth.1.final hexit) fun i hi => ?_
  rw [← hissued.total] at hi
  exact hboth.1.bits i hi (hall i hi)

end Loop

end Arvolo.Recv
