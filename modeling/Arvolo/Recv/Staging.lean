import Arvolo.Lib.Pool
import Arvolo.Recv.Files

/-!
The stage files of the receive loop.

A task stages its piece under a path that carries the number of sources then
fetching the piece. As long as no new source is given a number that is still in
use, every unfinished task has a path of its own, and the file there holds what
the task has written: the report of a success finds the verified ciphertext.
The number in use comes about when a source fails while a later one keeps
running, and then a third one joins.
-/

namespace Arvolo.Recv

open Crypto Lib

/-! ### Tasks -/

/-- What holds of a task that shares its path with no other: unless the piece is
done its path leads to its file, and the file holds what it has written. -/
structure Task.Sound (c : Config) (f : StageFiles) (done : List ℕ) (t : Task) : Prop
    extends Task.Filed c f t where
  linked : ∀ n, t.fd = some n → t.piece ∉ done → f.names t.stage = some n
  content : ∀ b n, t.verified = some b → t.fd = some n → f.data n = b.take t.pos

/-- Two tasks use different paths and different files. -/
def Task.Apart (t u : Task) : Prop := t.stage ≠ u.stage ∧ ∀ n, t.fd = some n → u.fd ≠ some n

theorem Task.Apart.symm (t u : Task) (h : t.Apart u) : u.Apart t :=
  ⟨h.1.symm, fun n hu ht => h.2 n ht hu⟩

namespace Task.Sound

variable {c : Config} {f g : StageFiles} {done done' : List ℕ} {t : Task}

/-- A task only minds its own path, and that not once its piece is done. -/
theorem trim (h : t.Sound c f done) (hg : f.Trimmed g) (hdone : ∀ i ∈ done, i ∈ done')
    (hlink : t.piece ∉ done' → g.names t.stage = f.names t.stage) : t.Sound c g done' where
  toFiled := h.toFiled.trim hg
  linked n hn hnd := (hlink hnd).trans (h.linked n hn fun hd => hnd (hdone _ hd))
  content b n hb hn := hg.data ▸ h.content b n hb hn

/-- Writing to a file that is not the task's. -/
theorem write (h : t.Sound c f done) {m : ℕ} (hm : t.fd ≠ some m) (bytes : Bytes) :
    t.Sound c (f.write m bytes) done where
  toFiled := h.toFiled.write m bytes
  linked := h.linked
  content b n hb hn := by
    have hne : n ≠ m := by
      rintro rfl
      exact hm hn
    rw [StageFiles.data_write_of_ne hne, h.content b n hb hn]

/-- A new file under a path that is not the task's. -/
theorem create (h : t.Sound c f done) {p : Stage} (hp : t.stage ≠ p) :
    t.Sound c (f.create p) done where
  toFiled := h.toFiled.create p
  linked n hn hnd := (StageFiles.names_create_of_ne hp).trans (h.linked n hn hnd)
  content b n hb hn :=
    (StageFiles.data_create_of_lt (h.fd_lt n hn)).trans (h.content b n hb hn)

/-- The task opens its file. -/
theorem opened (h : t.Sound c f done) (hfd : t.fd = none) {n : ℕ}
    (hname : g.names t.stage = some n) : Task.Sound c g done { t with fd := some n } where
  toFiled := h.toFiled.opened hname
  linked _ hm _ := hname.trans hm
  content b _ hb _ := absurd hfd (h.held b hb)

/-- Another task opens a file under a path that is not this one's. -/
theorem other_opened (h : t.Sound c f done) {p : Stage} (hp : t.stage ≠ p) :
    t.Sound c (f.openStage p).1 done ∧ t.fd ≠ some (f.openStage p).2 := by
  cases hname : f.names p with
  | some n =>
      rw [StageFiles.openStage_eq_some hname]
      have hfd : t.fd ≠ some n := fun ht => hp (h.name n p ht hname).symm
      exact ⟨h.write hfd [], hfd⟩
  | none =>
      rw [StageFiles.openStage_eq_none hname]
      exact ⟨h.create hp, fun ht => (h.fd_lt _ ht).ne rfl⟩

end Task.Sound

/-! ### The pool -/

namespace Loop

variable {c : Config} {s : Loop} {bits₀ : Bytes}

structure Staged (c : Config) (s : Loop) : Prop where
  sound : ∀ t ∈ s.tasks, t.Sound c s.stages s.satisfied
  apart : s.tasks.Pairwise Task.Apart

theorem Staged.apart_of_ne (h : s.Staged c) {j k : ℕ} {t u : Task} (hj : s.tasks[j]? = some t)
    (hk : s.tasks[k]? = some u) (hne : k ≠ j) : t.Apart u :=
  pairwise_getElem? Task.Apart.symm h.apart hj hk hne.symm

/-- Replace task `j` and the files: the new task is sound, the others stay so, and
it has not taken another's path or file. -/
theorem Staged.setTask (h : s.Staged c) {j : ℕ} {t : Task} {f : StageFiles}
    {banned : List Provider} (ht : t.Sound c f s.satisfied)
    (hothers : ∀ k u, s.tasks[k]? = some u → k ≠ j → t.Apart u ∧ u.Sound c f s.satisfied) :
    Staged c { s with tasks := s.tasks.set j t, stages := f, banned } where
  sound := forall_mem_set ht fun k u hk hne => (hothers k u hk hne).2
  apart := pairwise_set Task.Apart.symm h.apart fun k u hk hne => (hothers k u hk hne).1

theorem Staged.openStage (h : s.Staged c) (j : ℕ) : (s.openStage j).Staged c := by
  unfold Loop.openStage
  split
  · rename_i t ht
    split_ifs with hready
    · simp only [Bool.and_eq_true, Option.isNone_iff_eq_none] at hready
      have hsound := h.sound t (List.mem_of_getElem? ht)
      refine h.setTask (hsound.opened hready.1 (StageFiles.names_openStage _ _)) ?_
      intro k u hk hne
      have hapart := h.apart_of_ne ht hk hne
      obtain ⟨husound, hfd⟩ :=
        (h.sound u (List.mem_of_getElem? hk)).other_opened hapart.1.symm
      exact ⟨⟨hapart.1, fun m hm => Option.some.inj hm ▸ hfd⟩, husound⟩
    · exact h
  · exact h

/-- A task that writes to its own file does not touch the others. -/
theorem Staged.writeTask (h : s.Staged c) {j n : ℕ} {t t' : Task} (ht : s.tasks[j]? = some t)
    (hfd : t.fd = some n) (hfd' : t'.fd = some n) (hstage : t'.stage = t.stage) (bytes : Bytes)
    (ht' : t'.Sound c (s.stages.write n bytes) s.satisfied) :
    Staged c { s with tasks := s.tasks.set j t', stages := s.stages.write n bytes } := by
  refine h.setTask ht' fun k u hk hne => ?_
  have hapart := h.apart_of_ne ht hk hne
  refine ⟨⟨hstage ▸ hapart.1, fun m hm => ?_⟩, ?_⟩
  · rw [hfd'] at hm
    exact hapart.2 m (hfd.trans hm)
  · exact (h.sound u (List.mem_of_getElem? hk)).write (hapart.2 n hfd) bytes

/-- A task that gives up keeps its path and its file. -/
theorem Staged.giveUp (h : s.Staged c) {j : ℕ} {t : Task} (ht : s.tasks[j]? = some t) {o : Outcome}
    (ho : o ≠ .ok) {banned : List Provider} :
    Staged c { s with tasks := s.tasks.set j { t with outcome := some o }, banned } := by
  have hsound := h.sound t (List.mem_of_getElem? ht)
  refine h.setTask ⟨hsound.toFiled.gaveUp ho, hsound.linked, hsound.content⟩ fun k u hk hne => ?_
  obtain ⟨hstage, hfd⟩ := h.apart_of_ne ht hk hne
  exact ⟨⟨hstage, hfd⟩, h.sound u (List.mem_of_getElem? hk)⟩

theorem Staged.receive (h : s.Staged c) (j : ℕ) (body : Bytes) : (s.receive c j body).Staged c := by
  unfold Loop.receive
  split
  · rename_i t ht
    split
    · rename_i n hfd hver hout
      have hsound := h.sound t (List.mem_of_getElem? ht)
      split_ifs with hhash
      · refine h.writeTask ht hfd (by exact hfd) (by rfl) [] ?_
        refine ⟨(hsound.toFiled.write n []).received (by simp [hfd]) hout hhash, hsound.linked, ?_⟩
        intro b m _ hm
        obtain rfl : n = m := Option.some.inj (hfd.symm.trans hm)
        simp
      · exact h.giveUp ht (by decide)
    · exact h
  · exact h

theorem Staged.writeStage (h : s.Staged c) (j n : ℕ) : (s.writeStage j n).Staged c := by
  unfold Loop.writeStage
  split
  · rename_i t ht
    split
    · rename_i fd body hfd hver hout
      have hsound := h.sound t (List.mem_of_getElem? ht)
      refine h.writeTask ht hfd (by exact hfd) (by rfl) _ ?_
      refine ⟨(hsound.toFiled.write fd _).wrote hver _, hsound.linked, ?_⟩
      intro b m hb hm
      obtain rfl : body = b := Option.some.inj (hver.symm.trans hb)
      obtain rfl : fd = m := Option.some.inj (hfd.symm.trans hm)
      rw [StageFiles.data_write_self, hsound.content body fd hver hfd]
      exact writeAt_take body (le_max_left _ _)
    · exact h
  · exact h

theorem Staged.fail (h : s.Staged c) (j : ℕ) (storage : Bool) : (s.fail j storage).Staged c := by
  unfold Loop.fail
  split
  · rename_i t ht
    split_ifs
    · exact h.giveUp ht (by simp)
    · exact h
  · exact h

theorem Staged.notice (h : s.Staged c) (j : ℕ) : (s.notice j).Staged c := by
  unfold Loop.notice
  split
  · rename_i t ht
    split_ifs
    · exact h.giveUp ht (by simp)
    · exact h
  · exact h

/-! ### Reports -/

theorem apart_of_mem_eraseIdx (h : s.Staged c) {j : ℕ} {t u : Task} (ht : s.tasks[j]? = some t)
    (hu : u ∈ s.tasks.eraseIdx j) : t.Apart u := by
  obtain ⟨k, hne, hk⟩ := List.mem_eraseIdx_iff_getElem?.mp hu
  exact h.apart_of_ne ht hk hne

/-- The tasks other than `j`, over files and done pieces that leave them sound. -/
theorem Staged.others (h : s.Staged c) {j : ℕ} {s' : Loop} (htasks : s'.tasks = s.tasks.eraseIdx j)
    (hsound : ∀ u ∈ s.tasks.eraseIdx j, u.Sound c s.stages s.satisfied →
      u.Sound c s'.stages s'.satisfied) : s'.Staged c where
  sound u hu := by
    rw [htasks] at hu
    exact hsound u hu (h.sound u (List.mem_of_mem_eraseIdx hu))
  apart := htasks ▸ h.apart.sublist (List.eraseIdx_sublist _ _)

/-- A report that removes the task's own stage file. -/
theorem Staged.discard (h : s.Staged c) {j : ℕ} {t : Task} (ht : s.tasks[j]? = some t) {s' : Loop}
    (htasks : s'.tasks = s.tasks.eraseIdx j) (hstages : s'.stages = s.stages.remove t.stage)
    (hsat : s'.satisfied = s.satisfied) : s'.Staged c := by
  refine h.others htasks fun u hu husound => ?_
  rw [hstages, hsat]
  refine husound.trim StageFiles.trimmed_remove (fun _ hi => hi) fun _ => ?_
  exact StageFiles.names_remove_of_ne (apart_of_mem_eraseIdx h ht hu).1.symm

/-- A commit ends, one way or the other, with the piece satisfied; only its own
stage files may be gone. -/
theorem Staged.commit (h : s.Staged c) {j : ℕ} {t : Task} (ht : s.tasks[j]? = some t)
    (fault : Option Fault) (saved : Saved) : ((s.unlist j t).commit c t fault saved).Staged c := by
  have hfailed : ∀ s' : Loop, s'.tasks = s.tasks.eraseIdx j → s'.stages = s.stages →
      s'.satisfied = t.piece :: s.satisfied → s'.Staged c := by
    intro s' htasks hstages hsat
    refine h.others htasks fun u _ husound => ?_
    rw [hstages, hsat]
    exact husound.trim ⟨rfl, rfl, fun _ _ hq => hq⟩ (fun _ hi => List.mem_cons_of_mem _ hi)
      fun _ => rfl
  unfold Loop.commit
  simp only
  split
  · exact hfailed _ rfl rfl rfl
  · split
    · exact hfailed _ rfl rfl rfl
    · cases fault with
      | some f => exact hfailed _ rfl rfl rfl
      | none =>
          obtain ⟨htrim, hnames⟩ := (s.stages.remove t.stage).removeAll_spec t.piece
          have htpiece := (h.sound t (List.mem_of_getElem? ht)).piece
          refine h.others (by rfl) fun u _ husound => ?_
          refine husound.trim (StageFiles.trimmed_remove.trans htrim)
            (fun _ hi => List.mem_cons_of_mem _ hi) fun hnd => ?_
          have hne : u.stage.piece ≠ t.piece := by
            rw [husound.piece]
            exact fun he => hnd (he ▸ List.mem_cons_self)
          refine (hnames u.stage hne).trans (StageFiles.names_remove_of_ne ?_)
          intro he
          rw [he, htpiece] at hne
          exact hne rfl

theorem Staged.report (h : s.Staged c) (j now : ℕ) (fault : Option Fault) (saved : Saved) :
    (s.report c j now fault saved).Staged c := by
  unfold Loop.report
  split
  · rename_i t ht
    split
    · exact h
    · exact h.discard ht rfl rfl rfl
    · split_ifs
      · exact h.discard ht rfl rfl rfl
      · exact h.commit ht fault saved
    · split_ifs
      · exact h.discard ht rfl rfl rfl
      · unfold Loop.reassign
        simp only
        split_ifs <;> exact h.discard ht rfl rfl rfl
  · exact h

/-! ### Assignment -/

/-- A piece that is in flight is given to a further source. -/
def Duplicates (c : Config) (s : Loop) (now : ℕ) (src : Sources) (i : ℕ) (prov : Provider) : Prop :=
  s.exit = none ∧ s.tasks.length < c.concurrency ∧ s.cancel = false ∧ s.MayDuplicate c now src i prov

instance (c : Config) (s : Loop) (now : ℕ) (src : Sources) (i : ℕ) (prov : Provider) :
    Decidable (s.Duplicates c now src i prov) :=
  inferInstanceAs (Decidable (_ ∧ _ ∧ _ ∧ _))

/-- A further source does not get a number that an unfinished fetch of the piece
still carries. The number is one more than the sources now fetching it. -/
def FreshNumber (c : Config) (s : Loop) : Event → Prop
  | .assign now src i prov =>
      s.Duplicates c now src i prov → ∀ t ∈ s.tasks, t.stage ≠ .dup i ((s.pieceSrcs i).length + 1)
  | _ => True

instance (c : Config) (s : Loop) : DecidablePred (s.FreshNumber c)
  | .assign .. => inferInstanceAs (Decidable (_ → _))
  | .openStage _ => .isTrue trivial
  | .receive .. => .isTrue trivial
  | .writeStage .. => .isTrue trivial
  | .fail .. => .isTrue trivial
  | .notice _ => .isTrue trivial
  | .report .. => .isTrue trivial
  | .trip => .isTrue trivial
  | .stop => .isTrue trivial
  | .leave _ => .isTrue trivial
  | .die => .isTrue trivial

theorem Staged.spawn (h : s.Staged c) {i : ℕ} {prov : Provider}
    (hnew : ∀ t ∈ s.tasks, t.stage ≠ s.stageFor i prov) {remaining : List ℕ} :
    Staged c ({ s with remaining }.spawn i prov) where
  sound t ht := by
    simp only [Loop.spawn, List.mem_append, List.mem_singleton] at ht
    rcases ht with ht | rfl
    · exact h.sound t ht
    · refine ⟨.assigned (s.stageFor_piece i prov), ?_, ?_⟩
      · intro n hn
        cases hn
      · intro b n hb
        cases hb
  apart := by
    simp only [Loop.spawn]
    refine List.pairwise_append.mpr ⟨h.apart, List.pairwise_singleton _ _, ?_⟩
    intro t ht u hu
    obtain rfl := List.mem_singleton.mp hu
    exact ⟨hnew t ht, fun _ _ hu => by cases hu⟩

theorem stageFor_of_nil {i : ℕ} {prov : Provider} (h : s.pieceSrcs i = []) :
    s.stageFor i prov = .path i := by
  simp [stageFor, h, addSource]

theorem stageFor_of_unused {i : ℕ} {prov : Provider} (h : s.pieceSrcs i ≠ [])
    (hp : prov ∉ s.pieceSrcs i) : s.stageFor i prov = .dup i ((s.pieceSrcs i).length + 1) := by
  have hlen : (s.pieceSrcs i).length ≠ 0 := by simpa using h
  simp [stageFor, addSource, hp, hlen]

theorem Staged.assign (h : s.Staged c) (hbooks : s.Counted c bits₀) {now : ℕ} {src : Sources}
    {i : ℕ} {prov : Provider} (hrun : s.exit = none)
    (hnum : s.FreshNumber c (.assign now src i prov)) : (s.assign c now src i prov).Staged c := by
  unfold Loop.assign
  split_ifs with hroom hfetch hdup
  · -- a waiting piece has no task, so no task has its path
    obtain ⟨-, hns, hsrc⟩ := hbooks.waiting i (mem_remaining_of_mayFetch hfetch)
    refine h.spawn fun t ht hstage => ?_
    have hpiece : t.piece = i := by
      rw [← (h.sound t ht).piece, hstage, stageFor_of_nil hsrc]
      rfl
    have hmem : (i, t.prov) ∈ s.keys := List.mem_map.mpr ⟨t, ht, by rw [Task.key, hpiece]⟩
    rw [← hbooks.fetching i hns, hsrc] at hmem
    cases hmem
  · have hguard : s.Duplicates c now src i prov := ⟨hrun, hroom.1, hroom.2, hdup⟩
    obtain ⟨-, -, hlive, -, hunused⟩ := hdup
    simp only [live, List.mem_filter, List.mem_range, Bool.not_eq_true',
      List.isEmpty_eq_false_iff] at hlive
    simp only [unused, List.mem_filter, Bool.not_eq_true', List.contains_eq_mem,
      decide_eq_false_iff_not] at hunused
    refine h.spawn ?_
    rw [stageFor_of_unused hlive.2 hunused.2]
    exact hnum hguard
  · exact h
  · exact h

/-! ### Runs -/

theorem Staged.step (h : s.Staged c) (hbooks : s.Books c bits₀) {e : Event}
    (hnum : s.FreshNumber c e) : (s.step c e).Staged c := by
  unfold Loop.step
  split
  · exact h
  · rename_i hexit
    have hrun : s.exit = none := by simpa using hexit
    cases e with
    | assign now src i prov => exact h.assign (hbooks.running hrun) hrun hnum
    | openStage j => exact h.openStage j
    | receive j body => exact h.receive j body
    | writeStage j n => exact h.writeStage j n
    | fail j storage => exact h.fail j storage
    | notice j => exact h.notice j
    | report j now fault saved => exact h.report j now fault saved
    | trip => exact ⟨h.sound, h.apart⟩
    | stop =>
        show Staged c (if s.cancel then { s with exit := some .cancelled } else s)
        split <;> exact ⟨h.sound, h.apart⟩
    | leave removed =>
        show Staged c (s.leave c removed)
        unfold Loop.leave
        split
        · split <;> exact ⟨h.sound, h.apart⟩
        · exact h
    | die => exact ⟨h.sound, h.apart⟩

theorem staged_resume (c : Config) (settings : Settings) (stages : StageFiles) (out : Bytes)
    (sidecar : Option Bytes) (saved : Saved) (room : Bool) :
    (resume c settings stages out sidecar saved room).Staged c := by
  obtain ⟨bits, sidecar', exit, heq, -⟩ := resume_eq c settings stages out sidecar saved room
  rw [heq]
  exact ⟨fun t ht => absurd ht (by simp [start]), List.Pairwise.nil⟩

/-- What the stage files are good for: every unfinished task has a path of its
own, a success reported for a piece that is not committed yet finds the
ciphertext it verified, and no report of a success fails. -/
structure Exclusive (c : Config) (s : Loop) : Prop where
  apart : ∀ (j k : ℕ) (t u : Task), s.tasks[j]? = some t → s.tasks[k]? = some u →
    t.stage = u.stage → j = k
  intact : s.exit = none → ∀ t ∈ s.tasks, t.outcome = some .ok → ¬ s.Committed t.piece →
    ∃ ct, t.verified = some ct ∧ s.stages.read t.stage = some ct ∧
      c.ticket.chunks[t.piece]? = some (c.hash ct)
  commits : s.exit = none → ∀ (j : ℕ) (t : Task), s.tasks[j]? = some t → t.outcome = some .ok →
    ∀ ct, t.verified = some ct → (openChunk c.aead c.ticket.key t.piece c.ticket.total ct).isSome →
      ∀ now saved, (s.step c (.report j now none saved)).exit = none ∧
        (s.step c (.report j now none saved)).Committed t.piece

theorem Staged.read_stage (h : s.Staged c) {t : Task} (ht : t ∈ s.tasks)
    (hok : t.outcome = some .ok) (hns : t.piece ∉ s.satisfied) {ct : Bytes}
    (hct : t.verified = some ct) : s.stages.read t.stage = some ct := by
  have hsound := h.sound t ht
  obtain ⟨n, hfd⟩ := Option.ne_none_iff_exists'.mp (hsound.held ct hct)
  obtain ⟨b, hb, hpos⟩ := hsound.okay hok
  obtain rfl : ct = b := Option.some.inj (hct.symm.trans hb)
  rw [StageFiles.read, hsound.linked n hfd hns, Option.map_some, hsound.content ct n hct hfd,
    List.take_of_length_le hpos]

theorem Staged.report_commits (h : s.Staged c) (hbooks : s.Counted c bits₀) (hrun : s.exit = none)
    {j : ℕ} {t : Task} (ht : s.tasks[j]? = some t) (hok : t.outcome = some .ok) {ct : Bytes}
    (hct : t.verified = some ct)
    (hopen : (openChunk c.aead c.ticket.key t.piece c.ticket.total ct).isSome) (now : ℕ)
    (saved : Saved) :
    (s.report c j now none saved).exit = none ∧ (s.report c j now none saved).Committed t.piece := by
  have hmem : t ∈ s.tasks := List.mem_of_getElem? ht
  have hlt : t.piece < c.ticket.total :=
    (hbooks.keys_lt t.piece t.prov (List.mem_map.mpr ⟨t, hmem, rfl⟩)).1
  simp only [Loop.report, ht, hok]
  split_ifs with hsat
  · exact ⟨hrun, (hbooks.bit _ hlt).mpr hsat⟩
  · obtain ⟨plain, hplain⟩ := Option.isSome_iff_exists.mp hopen
    have hread : ({ s.unlist j t with
        satisfied := t.piece :: (s.unlist j t).satisfied
        tripped := if t.piece ∈ (s.unlist j t).pieceCancel then t.piece :: (s.unlist j t).tripped
          else (s.unlist j t).tripped } : Loop).stages.read t.stage = some ct :=
      h.read_stage hmem hok hsat hct
    simp only [Loop.commit, hread, hplain]
    refine ⟨hrun, ?_⟩
    have hbyte : t.piece / 8 < s.have_.length := hbooks.width ▸ byte_lt_of_lt hlt
    show bitfieldHas (bitfieldSet s.have_ t.piece) t.piece = true
    rw [bitfieldHas_set hbyte]
    simp

theorem Staged.exclusive (h : s.Staged c) (hbooks : s.Books c bits₀) : s.Exclusive c where
  apart j k t u hj hk hstage := by
    by_contra hne
    exact (h.apart_of_ne hj hk (Ne.symm hne)).1 hstage
  intact hrun t ht hok hcom := by
    obtain ⟨ct, hct, -⟩ := (h.sound t ht).okay hok
    have hlt : t.piece < c.ticket.total :=
      ((hbooks.running hrun).keys_lt t.piece t.prov (List.mem_map.mpr ⟨t, ht, rfl⟩)).1
    have hns : t.piece ∉ s.satisfied := fun hs => hcom (((hbooks.running hrun).bit _ hlt).mpr hs)
    exact ⟨ct, hct, h.read_stage ht hok hns hct, (h.sound t ht).checked ct hct⟩
  commits hrun j t ht hok ct hct hopen now saved := by
    have hstep : s.step c (.report j now none saved) = s.report c j now none saved := by
      simp [Loop.step, hrun]
    rw [hstep]
    exact h.report_commits (hbooks.running hrun) hrun ht hok hct hopen now saved

/-- Stage files are exclusive in every state of a run in which no further source
of a piece is given a number still in use. -/
theorem stages_exclusive (c : Config) (settings : Settings) (stages : StageFiles) (out : Bytes)
    (sidecar : Option Bytes) (saved : Saved) (room : Bool) (es : List Event)
    (hnum : Along (step c) (FreshNumber c) (resume c settings stages out sidecar saved room) es) :
    (run c settings stages out sidecar saved room es).Exclusive c := by
  have hinv := hnum.foldl_inv
    (fun s => s.Staged c ∧ s.Books c (resume c settings stages out sidecar saved room).have_)
    (fun s e hs he => ⟨hs.1.step hs.2 he, hs.2.step e⟩)
    ⟨staged_resume c settings stages out sidecar saved room,
      books_resume c settings stages out sidecar saved room⟩
  exact hinv.1.exclusive hinv.2

def threeSources : Sources :=
  { sender := some "origin", relay := some ("relay", [0]), peers := [("peer", [1])] }

/-- Two sources race and both deliver. -/
def twoWinners : List Event :=
  [.assign 0 threeSources 0 "origin", .assign 0 threeSources 0 "relay", .openStage 0, .openStage 1,
    .receive 0 ([7, 8] ++ List.replicate tag 255), .receive 1 ([7, 8] ++ List.replicate tag 255),
    .writeStage 1 64, .writeStage 0 64]

theorem twoWinners_exclusive :
    (run racedConfig {} .empty [] none .whole true twoWinners).tasks.length = 2 ∧
      (run racedConfig {} .empty [] none .whole true twoWinners).Exclusive racedConfig := by
  have hnum : Along (step racedConfig) (FreshNumber racedConfig)
      (resume racedConfig {} .empty [] none .whole true) twoWinners := by decide +kernel
  have hlen : (run racedConfig {} .empty [] none .whole true twoWinners).tasks.length = 2 := by
    decide +kernel
  exact ⟨hlen, stages_exclusive racedConfig {} .empty [] none .whole true twoWinners hnum⟩

/-- The origin fails while the relay, as source number two, keeps running, and a
peer joins: it is the second source again. -/
def reusedRun : List Event :=
  [.assign 0 threeSources 0 "origin", .assign 0 threeSources 0 "relay", .openStage 0, .openStage 1,
    .fail 0 false, .report 0 1 none .whole, .assign 1 threeSources 0 "peer", .openStage 1,
    .receive 0 ([7, 8] ++ List.replicate tag 255), .writeStage 0 64]

/-- The peer fails, and takes the relay's verified file with it. -/
def lostRun : List Event := reusedRun ++ [.fail 1 false, .report 1 2 none .whole]

theorem not_exclusive :
    ¬ (∀ es, (run racedConfig {} .empty [] none .whole true es).Exclusive racedConfig) ∧
      ((run racedConfig {} .empty [] none .whole true reusedRun).tasks.map Task.stage =
        [.dup 0 2, .dup 0 2]) ∧
      ((run racedConfig {} .empty [] none .whole true lostRun).tasks.map Task.outcome =
        [some .ok]) ∧
      ((run racedConfig {} .empty [] none .whole true lostRun).stages.read (.dup 0 2) = none) ∧
      (run racedConfig {} .empty [] none .whole true
        (lostRun ++ [.report 0 2 none .whole])).exit = some .failed := by
  have hshared : (run racedConfig {} .empty [] none .whole true reusedRun).tasks.map Task.stage =
      [.dup 0 2, .dup 0 2] := by decide +kernel
  refine ⟨fun h => ?_, hshared, by decide +kernel, by decide +kernel, by decide +kernel⟩
  have hstage : ∀ k < 2, ∃ t,
      (run racedConfig {} .empty [] none .whole true reusedRun).tasks[k]? = some t ∧
        t.stage = .dup 0 2 := by
    intro k hk
    have hget := congrArg (fun l => l[k]?) hshared
    simp only [List.getElem?_map] at hget
    have hk' : ([.dup 0 2, .dup 0 2] : List Stage)[k]? = some (.dup 0 2) := by
      interval_cases k <;> rfl
    rw [hk', Option.map_eq_some_iff] at hget
    exact hget
  obtain ⟨t, ht, hts⟩ := hstage 0 (by decide)
  obtain ⟨u, hu, hus⟩ := hstage 1 (by decide)
  exact absurd ((h reusedRun).apart 0 1 t u ht hu (hts.trans hus.symm)) (by decide)

end Loop

end Arvolo.Recv
