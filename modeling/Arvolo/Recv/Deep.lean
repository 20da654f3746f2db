import Arvolo.Recv.History

/-!
The deep re-check of a partial download, `revalidate_have` under
`ARVOLO_RESUME_VERIFY`.

The bytes of every claimed piece are sealed again and the digest is compared with
the ticket's. A piece that passes is the piece of the payload, whatever was on disk
and whatever the sidecar claimed, so that a download that completes from there is
the payload.
-/

namespace Arvolo.Recv

open Crypto Lib

variable {c : Config} {payload : Bytes}

/-! ### One piece -/

/-- The bytes of piece `i` in the file seal to the digest the ticket has for it. -/
def Reseals (c : Config) (file : Bytes) (i : ℕ) : Prop :=
  i * c.ticket.chunkSize + c.ticket.plainLen i ≤ file.length ∧
    ∃ ct, sealChunk c.aead c.ticket.key i c.ticket.total (c.ticket.region i file) = some ct ∧
      c.ticket.chunks[i]? = some (c.hash ct)

theorem bearsOut_deep {file : Bytes} {i : ℕ} :
    bearsOut c file true i = true ↔ Reseals c file i := by
  simp only [bearsOut, Bool.not_true, Bool.false_or, Bool.and_eq_true, decide_eq_true_eq, Reseals]
  refine and_congr_right fun _ => ?_
  cases sealChunk c.aead c.ticket.key i c.ticket.total (c.ticket.region i file) <;> simp

/-- No piece is empty. -/
theorem Issued.start_lt (h : Issued c payload) {i : ℕ} (hi : i < c.ticket.total) :
    i * c.ticket.chunkSize < payload.length := by
  have hpos := h.pos
  have hdown := Nat.div_mul_le_self (payload.length + c.ticket.chunkSize - 1) c.ticket.chunkSize
  have hle : (i + 1) * c.ticket.chunkSize ≤ c.ticket.total * c.ticket.chunkSize :=
    Nat.mul_le_mul_right _ hi
  rw [← h.total] at hdown
  rw [Nat.add_one_mul] at hle
  omega

/-- A piece ends where the next one starts or, the last one, where the payload
does. -/
theorem Issued.plainLen_eq (h : Issued c payload) {i : ℕ} (hi : i < c.ticket.total) :
    c.ticket.plainLen i = (piece c.ticket.chunkSize i payload).length := by
  have hpos := h.pos
  have hup := Nat.lt_div_mul_add (a := payload.length + c.ticket.chunkSize - 1) h.pos
  have hdown := Nat.div_mul_le_self (payload.length + c.ticket.chunkSize - 1) c.ticket.chunkSize
  rw [← h.total] at hup hdown
  simp only [Ticket.plainLen, piece, List.length_take, List.length_drop]
  split_ifs with hlast
  · rw [← hlast, Nat.add_one_mul] at hup
    rw [h.size]
    omega
  · have hle : (i + 2) * c.ticket.chunkSize ≤ c.ticket.total * c.ticket.chunkSize :=
      Nat.mul_le_mul_right _ (by omega)
    rw [Nat.add_mul] at hle
    omega

/-- Where the region of a piece is the piece of the payload, the file agrees. -/
theorem agrees_of_region (h : Issued c payload) {file : Bytes} {i : ℕ}
    (hregion : c.ticket.region i file = piece c.ticket.chunkSize i payload) :
    Agrees c.ticket.chunkSize payload file i := by
  intro k hk hlt
  have hlow : i * c.ticket.chunkSize ≤ k := hk ▸ Nat.div_mul_le_self k c.ticket.chunkSize
  have hhigh : k < i * c.ticket.chunkSize + c.ticket.chunkSize := hk ▸ Nat.lt_div_mul_add h.pos
  obtain ⟨r, rfl⟩ := Nat.exists_eq_add_of_le hlow
  have hr : r < (piece c.ticket.chunkSize i payload).length := by
    simp only [piece, List.length_take, List.length_drop]
    omega
  have hbyte : (c.ticket.region i file)[r]? = payload[i * c.ticket.chunkSize + r]? := by
    rw [hregion, piece, List.getElem?_take_of_lt (by omega), List.getElem?_drop]
  rw [← hbyte, Ticket.region, List.getElem?_take_of_lt, List.getElem?_drop]
  have := congrArg List.length hregion
  simp only [Ticket.region, List.length_take] at this
  omega

/-- A piece that passes the deep check is the piece of the payload. -/
theorem Reseals.agrees {file : Bytes} {i : ℕ} (h : Reseals c file i) (hi : i < c.ticket.total)
    (hissued : Issued c payload) (hunforged : Unforged c payload) (hlawful : c.aead.Lawful) :
    Agrees c.ticket.chunkSize payload file i := by
  obtain ⟨-, ct, hct, hdigest⟩ := h
  obtain ⟨hseal, hgenuine⟩ := hissued.seal_eq hi
  rw [hgenuine, Option.some.injEq] at hdigest
  obtain rfl := hunforged i hi ct hdigest.symm
  refine agrees_of_region hissued ?_
  exact Option.some.inj
    ((hlawful.decrypt_encrypt hct).symm.trans (hlawful.decrypt_encrypt hseal))

/-- A piece the file has right passes it. -/
theorem Agrees.reseals {file : Bytes} {i : ℕ} (h : Agrees c.ticket.chunkSize payload file i)
    (hi : i < c.ticket.total) (hissued : Issued c payload) : Reseals c file i := by
  have hlen := hissued.plainLen_eq hi
  have hsize : (piece c.ticket.chunkSize i payload).length =
      min c.ticket.chunkSize (payload.length - i * c.ticket.chunkSize) := by
    simp [piece]
  have hbyte : ∀ r < (piece c.ticket.chunkSize i payload).length,
      file[i * c.ticket.chunkSize + r]? = payload[i * c.ticket.chunkSize + r]? := by
    intro r hr
    refine h _ ?_ (by omega)
    rw [Nat.add_comm, Nat.add_mul_div_right _ _ hissued.pos, Nat.div_eq_of_lt (by omega),
      Nat.zero_add]
  have hregion : c.ticket.region i file = piece c.ticket.chunkSize i payload := by
    refine List.ext_getElem? fun r => ?_
    rw [Ticket.region, hlen]
    rcases Nat.lt_or_ge r (piece c.ticket.chunkSize i payload).length with hr | hr
    · rw [List.getElem?_take_of_lt hr, List.getElem?_drop, hbyte r hr, piece,
        List.getElem?_take_of_lt (by omega), List.getElem?_drop]
    · rw [List.getElem?_eq_none hr, List.getElem?_eq_none (by simp; omega)]
  have hlong : i * c.ticket.chunkSize + c.ticket.plainLen i ≤ file.length := by
    have hstart := hissued.start_lt hi
    have hpos := hissued.pos
    have := congrArg List.length hregion
    simp only [Ticket.region, List.length_take, List.length_drop] at this
    omega
  rw [Reseals, hregion]
  exact ⟨hlong, _, hissued.seal_eq hi⟩

/-- For a ticket issued for the payload, a deep check keeps the claimed pieces the
file has right. -/
theorem bitfieldHas_revalidateHave_iff_agrees (hissued : Issued c payload)
    (hunforged : Unforged c payload) (hlawful : c.aead.Lawful) {file bits : Bytes} {i : ℕ}
    (hi : i < c.ticket.total) :
    bitfieldHas (revalidateHave c file bits true) i = true ↔
      bitfieldHas bits i = true ∧ Agrees c.ticket.chunkSize payload file i := by
  rw [bitfieldHas_revalidateHave, bearsOut_deep]
  constructor
  · rintro ⟨-, hbit, hseals⟩
    exact ⟨hbit, hseals.agrees hi hissued hunforged hlawful⟩
  · rintro ⟨hbit, hagrees⟩
    exact ⟨hi, hbit, hagrees.reseals hi hissued⟩

/-! ### A run without its sidecar -/

namespace Loop

/-- A state with no sidecar on disk. -/
def forget (s : Loop) : Loop := { s with sidecar := none }

theorem forget_commit (s : Loop) (t : Task) (fault : Option Fault) (saved : Saved) :
    (s.forget.commit c t fault saved).forget = (s.commit c t fault saved).forget := by
  simp only [commit, show s.forget.stages = s.stages from rfl]
  split
  · rfl
  · split
    · rfl
    · cases fault <;> rfl

theorem forget_report (s : Loop) (j now : ℕ) (fault : Option Fault) (saved : Saved) :
    (s.forget.report c j now fault saved).forget = (s.report c j now fault saved).forget := by
  simp only [report, show s.forget.tasks = s.tasks from rfl]
  split
  · rename_i t _
    split
    · rfl
    · rfl
    · rw [apply_ite forget, apply_ite forget]
      rw [show s.forget.unlist j t = (s.unlist j t).forget from rfl, forget_commit]
      rfl
    · simp only [reassign, apply_ite forget]
      rfl
  · rfl

/-- The sidecar is written and not read: a step goes the same way without it. -/
theorem forget_step (s : Loop) (e : Event) : (s.forget.step c e).forget = (s.step c e).forget := by
  unfold step
  by_cases hexit : s.exit.isSome
  · rw [if_pos hexit, if_pos (show s.forget.exit.isSome from hexit)]
    rfl
  rw [if_neg hexit, if_neg (show ¬ s.forget.exit.isSome from hexit)]
  cases e with
  | assign now src i prov =>
      unfold assign
      simp only [apply_ite forget]
      rfl
  | openStage j =>
      simp only [openStage, show s.forget.tasks = s.tasks from rfl]
      split
      · simp only [apply_ite forget]
        rfl
      · rfl
  | receive j body =>
      simp only [receive, show s.forget.tasks = s.tasks from rfl]
      split
      · split
        · simp only [apply_ite forget]
          rfl
        · rfl
      · rfl
  | writeStage j n =>
      simp only [writeStage, show s.forget.tasks = s.tasks from rfl]
      split
      · split <;> rfl
      · rfl
  | fail j storage =>
      simp only [fail, show s.forget.tasks = s.tasks from rfl]
      split
      · simp only [apply_ite forget]
        rfl
      · rfl
  | notice j =>
      simp only [notice, show s.forget.tasks = s.tasks from rfl]
      split
      · simp only [apply_ite forget]
        rfl
      · rfl
  | report j now fault saved => exact forget_report s j now fault saved
  | trip => rfl
  | stop =>
      simp only [apply_ite forget]
      rfl
  | leave removed =>
      unfold leave
      simp only [apply_ite forget]
      rfl
  | die => rfl

theorem Books.forget {s : Loop} {bits₀ : Bytes} (h : s.Books c bits₀) :
    s.forget.Books c bits₀ where
  running hrun := { h.running hrun with }
  once := h.once
  fresh := h.fresh
  complete := h.complete

theorem Faithful.forget {s : Loop} (h : s.Faithful c payload) : s.forget.Faithful c payload where
  genuine := ⟨h.genuine.filed, h.genuine.remains⟩
  bits := h.bits
  saved b hb := by cases hb
  final := h.final

/-- A deep re-check is a good start whatever the sidecar claims, the sidecar
itself apart. -/
theorem forget_resume_faithful (hissued : Issued c payload) (hunforged : Unforged c payload)
    (hlawful : c.aead.Lawful) {settings : Settings} (htrust : settings.trust = false)
    (stages : StageFiles) {out : Bytes} (sidecar : Option Bytes) (saved : Saved) (room : Bool)
    (hchecked : settings.deep = true ∨ out = []) :
    (resume c settings stages out sidecar saved room).forget.Faithful c payload := by
  obtain ⟨bits, sidecar', exit, heq, -, -, hclean, -, hexit⟩ :=
    resume_eq c settings stages out sidecar saved room
  rw [heq]
  refine ⟨⟨fun t ht => absurd ht (by simp [forget, start]),
    fun t ht => absurd ht (by simp [forget, start])⟩, ?_, fun b hb => (by cases hb), ?_⟩
  · intro i hi hbit
    obtain ⟨-, hout⟩ := hclean htrust i hbit
    rcases hchecked with hdeep | rfl
    · rw [hdeep] at hout
      exact (bearsOut_deep.mp hout).agrees hi hissued hunforged hlawful
    · -- no piece fits in a file that is missing
      have hstart := hissued.start_lt hi
      have hpos := hissued.pos
      simp only [bearsOut, Bool.and_eq_true, decide_eq_true_eq, hissued.plainLen_eq hi,
        List.length_nil, piece, List.length_take, List.length_drop] at hout
      omega
  · rcases hexit with rfl | rfl <;> exact fun he => by cases he

/-- A run from such a start that completes has the payload. -/
theorem run_deep (hissued : Issued c payload) (hunforged : Unforged c payload)
    (hlawful : c.aead.Lawful) (hreject : c.aead.RejectsDamaged) {settings : Settings}
    (htrust : settings.trust = false) (stages : StageFiles) {out : Bytes} (sidecar : Option Bytes)
    (saved : Saved) (room : Bool) (hchecked : settings.deep = true ∨ out = []) (es : List Event)
    (hexit : (run c settings stages out sidecar saved room es).exit = some .completed) :
    (run c settings stages out sidecar saved room es).out = payload := by
  have hboth : (run c settings stages out sidecar saved room es).forget.Faithful c payload ∧
      (run c settings stages out sidecar saved room es).Books c
        (resume c settings stages out sidecar saved room).have_ := foldl_inv
    (fun s : Loop => s.forget.Faithful c payload ∧
      s.Books c (resume c settings stages out sidecar saved room).have_)
    (fun s e hs => ⟨forget_step s e ▸
        (hs.1.step hs.2.forget hissued hunforged hlawful hreject e).forget, hs.2.step e⟩)
    ⟨forget_resume_faithful hissued hunforged hlawful htrust stages sidecar saved room hchecked,
      books_resume c settings stages out sidecar saved room⟩ es
  have hall := run_complete c settings stages out sidecar saved room es hexit (.inr htrust)
  refine eq_of_agrees hissued.pos (hboth.1.final hexit) fun i hi => ?_
  rw [← hissued.total] at hi
  exact hboth.1.bits i hi (hall i hi)

end Loop

/-! ### The deep check -/

/-- The switches of a deep re-check: `ARVOLO_RESUME_TRUST` is off, and the bytes
are read if there is a file. -/
def deepSettings (disk : Option Bytes) : Settings := { deep := disk.isSome }

/-- The deep check keeps the claimed pieces whose bytes seal to the ticket's
digests and no others, and a download that completes after one is the payload,
whatever was on disk. -/
theorem revalidateHave_deep (c : Config) :
    (∀ file bits : Bytes,
      (revalidateHave c file bits true).length = bitfieldBytes c.ticket.total ∧
      ∀ i, bitfieldHas (revalidateHave c file bits true) i = true ↔
        i < c.ticket.total ∧ bitfieldHas bits i = true ∧ Reseals c file i) ∧
    ∀ payload : Bytes, 0 < c.ticket.chunkSize →
      Ticket.issue c.aead c.hash c.ticket.key c.ticket.chunkSize c.ticket.name c.ticket.archive
        payload = some c.ticket →
      Unforged c payload → c.aead.Lawful → c.aead.RejectsDamaged →
      ∀ (disk sidecar : Option Bytes) (stages : StageFiles) (saved : Saved) (room : Bool)
        (es : List Loop.Event),
        (Loop.run c (deepSettings disk) stages (disk.getD []) sidecar saved room es).exit =
          some .completed →
        (Loop.run c (deepSettings disk) stages (disk.getD []) sidecar saved room es).out =
          payload := by
  constructor
  · intro file bits
    refine ⟨length_revalidateHave c file bits true, fun i => ?_⟩
    rw [bitfieldHas_revalidateHave, bearsOut_deep]
  · intro payload hpos hissue hunforged hlawful hreject disk sidecar stages saved room es
    refine Loop.run_deep (issued_of_issue hpos hissue) hunforged hlawful hreject (by rfl) stages
      sidecar saved room ?_ es
    cases disk with
    | none => exact .inr rfl
    | some file => exact .inl rfl

/-- A file of the wrong bytes whose sidecar claims both pieces: the first is
fetched again and the rest is cut off. -/
theorem revalidateHave_deep_spoiled :
    (Loop.run ((finished [1, 2] [3, 4]).config .plain id) (deepSettings (some [9, 9, 3, 4, 5]))
      .empty [9, 9, 3, 4, 5] (some [3]) .skipped true
      (fetchPiece 0 (sealedText [1, 2]) ++ [.leave true])).exit = some .completed ∧
    (Loop.run ((finished [1, 2] [3, 4]).config .plain id) (deepSettings (some [9, 9, 3, 4, 5]))
      .empty [9, 9, 3, 4, 5] (some [3]) .skipped true
      (fetchPiece 0 (sealedText [1, 2]) ++ [.leave true])).out = [1, 2, 3, 4] := by
  have hexit : (Loop.run ((finished [1, 2] [3, 4]).config .plain id)
      (deepSettings (some [9, 9, 3, 4, 5])) .empty [9, 9, 3, 4, 5] (some [3]) .skipped true
      (fetchPiece 0 (sealedText [1, 2]) ++ [.leave true])).exit = some .completed := by
    decide +kernel
  exact ⟨hexit, (revalidateHave_deep ((finished [1, 2] [3, 4]).config .plain id)).2 [1, 2, 3, 4]
    (by decide) (by decide +kernel) (unforged_id (finished [1, 2] [3, 4])) Aead.plain_lawful
    Aead.plain_rejectsDamaged (some [9, 9, 3, 4, 5]) (some [3]) .empty .skipped true _ hexit⟩

end Arvolo.Recv
