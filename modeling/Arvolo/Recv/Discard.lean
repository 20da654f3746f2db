import Arvolo.Recv.Names

/-!
What a cancelled download leaves: `discard_incomplete` of `core/src/flow/recv.rs`, and the end of
the task of `spawn_receive` and `cancel` of `core/src/manager/mod.rs`, which decide whether it is
called.

A receive works out for itself where its file goes, the clean-up works it out again, from the
destination as it was given. A download that is held has no task, and only a task cleans up.
-/

namespace Arvolo.Recv

open Crypto Lib

/-! ### The disk -/

/-- The files, and which paths are directories. -/
structure Shelf where
  files : Path → Option Bytes
  isDir : Path → Bool

/-- A path as it stands before the name of a file in it. -/
def Path.text (p : Path) : String := if p.dir = "" then p.name else p.dir ++ "/" ++ p.name

/-- What a search for a free name sees: a directory is in the way as a file is. -/
def Shelf.world (d : Shelf) : World :=
  ⟨fun x => if d.isDir x then some [] else d.files x, fun _ => none⟩

/-- The files that `remove_stage_files` takes for stages of the download. -/
def Path.IsStage (p x : Path) : Prop :=
  x.dir = p.dir ∧ (p.name ++ partInfix).toList <+: x.name.toList

instance (p x : Path) : Decidable (p.IsStage x) := inferInstanceAs (Decidable (_ ∧ _))

/-! ### A download -/

/-- A chunk ticket as far as it decides on paths, and where the download is to go. -/
structure Intake where
  archive : Bool
  name : String
  chunks : List Bytes
  out : Path
  temp : String
  named : out.name ≠ ""

namespace Intake

variable (c : Intake)

/-- Where the payload lands. -/
def download (d : Shelf) : Option Path :=
  if c.archive then some (archiveStagePath c.temp c.chunks)
  else d.world.singleFileOut (if d.isDir c.out then .dir c.out.text else .file c.out) c.name
    c.chunks

/-- Where `discard_incomplete` takes it to be. -/
def discarded : Path := if c.archive then archiveStagePath c.temp c.chunks else c.out

def removeStageFiles (files : Path → Option Bytes) (download : Path) : Path → Option Bytes :=
  fun x => if download.IsStage x then none else files x

def discardIncomplete (files : Path → Option Bytes) : Path → Option Bytes :=
  let files := removeStageFiles files c.discarded
  let files := Function.update files c.discarded.sidecar none
  let files := Function.update files (c.discarded.litter .ticket) none
  let files := Function.update files c.discarded none
  Function.update files (c.out.litter .ticket) none

/-- What a running receive does to the files. -/
inductive Effect
  | write (bytes : Bytes)
  | writeSidecar (bytes : Bytes)
  | writeTicket (bytes : Bytes)
  /-- The copy of the ticket beside the directory an archive is unpacked into. -/
  | writeDirTicket (bytes : Bytes)
  | writeStage (s : Stage) (bytes : Bytes)
  | removeStage (s : Stage)

def effect (download : Path) (files : Path → Option Bytes) : Effect → Path → Option Bytes
  | .write bytes => Function.update files download (some bytes)
  | .writeSidecar bytes => Function.update files download.sidecar (some bytes)
  | .writeTicket bytes => Function.update files (download.litter .ticket) (some bytes)
  | .writeDirTicket bytes =>
      if c.archive then Function.update files (c.out.litter .ticket) (some bytes) else files
  | .writeStage s bytes => Function.update files (download.litter (.stage s)) (some bytes)
  | .removeStage s => Function.update files (download.litter (.stage s)) none

end Intake

/-! ### Its row -/

/-- How a receive returns. -/
inductive RecvOutcome
  | completed
  | cancelled
  | paused (reason : String)
  deriving DecidableEq

def RecvOutcome.isComplete : RecvOutcome → Bool
  | .completed => true
  | _ => false

def receivePauseReason (result : Except String RecvOutcome) (cancelFired pausedMarked : Bool) :
    Option String :=
  match result with
  | .ok (.paused reason) => some reason
  | .ok o => if !o.isComplete && cancelFired && pausedMarked then some "in pausa" else none
  | .error _ => none

inductive IntakePhase
  | running
  | paused
  | over
  deriving DecidableEq

/-- A download: the files, its pause marker, whether its task was told to stop, and the path that
the task works on. -/
structure IntakeRow where
  files : Path → Option Bytes
  marked : Bool := false
  fired : Bool := false
  phase : IntakePhase
  path : Path

inductive IntakeEvent
  | effect (e : Intake.Effect)
  | pause
  | settle (result : Except String RecvOutcome)
  | resume

namespace IntakeRow

variable (c : Intake) (isDir : Path → Bool)

/-- The receive looks for its path and opens the file, which is made if it is not there. -/
def open_ (files : Path → Option Bytes) : IntakeRow :=
  match c.download ⟨files, isDir⟩ with
  | some p =>
      if isDir p then { files, phase := .over, path := p }
      else
        { files := if (files p).isSome then files else Function.update files p (some [])
          phase := .running
          path := p }
  | none => { files, phase := .over, path := c.out }

/-- The end of the task. -/
def settle (s : IntakeRow) (result : Except String RecvOutcome) : IntakeRow :=
  match receivePauseReason result s.fired s.marked with
  | some _ => { s with marked := true, phase := .paused }
  | none =>
      let stoppedIncomplete := match result with
        | .ok o => !o.isComplete
        | .error _ => false
      { s with
        files := if s.fired && stoppedIncomplete then c.discardIncomplete s.files else s.files
        phase := .over }

def step (s : IntakeRow) : IntakeEvent → IntakeRow
  | .effect e =>
      match s.phase with
      | .running => { s with files := c.effect s.path s.files e }
      | _ => s
  | .pause =>
      match s.phase with
      | .running => { s with marked := true, fired := true }
      | _ => s
  | .settle result =>
      match s.phase with
      | .running => if result = .ok .cancelled ∧ s.fired = false then s else s.settle c result
      | _ => s
  | .resume =>
      match s.phase with
      | .paused => open_ c isDir s.files
      | _ => s

def run (files : Path → Option Bytes) (es : List IntakeEvent) : IntakeRow :=
  es.foldl (step c isDir) (open_ c isDir files)

/-- `cancel`, and what becomes of it: a running task does a little more and then notices; a row
that is held is ended as it is. -/
def cancel (s : IntakeRow) (late : List Intake.Effect) : IntakeRow :=
  match s.phase with
  | .running =>
      { s with fired := true, files := late.foldl (c.effect s.path) s.files }.settle c
        (.ok .cancelled)
  | .paused => { s with phase := .over }
  | .over => s

/-- Where a download is when it is cancelled: at work, told to pause and still at work, held. -/
inductive Point
  | running
  | pausing
  | paused

def At (s : IntakeRow) : Point → Prop
  | .running => s.phase = .running ∧ s.marked = false
  | .pausing => s.phase = .running ∧ s.marked = true
  | .paused => s.phase = .paused

end IntakeRow

/-! ### What is to be left -/

/-- What was not there before, and what was but is of the download's own, is gone; the rest is
as it was. -/
def Tidied (before : Path → Option Bytes) (own : Path → Prop) (after : Path → Option Bytes) :
    Prop :=
  ∀ x, (before x = none ∨ own x → after x = none) ∧
    ∀ bytes, before x = some bytes → ¬ own x → after x = some bytes

namespace Intake

variable (c : Intake) (isDir : Path → Bool) (before : Path → Option Bytes)

/-- However the download goes, cancelling it there leaves no litter and spares the rest. -/
def CancelsClean (own : Path → Prop) (point : IntakeRow.Point) : Prop :=
  ∀ es late, (IntakeRow.run c isDir before es).At point →
    Tidied before own ((IntakeRow.run c isDir before es).cancel c late).files

/-- What the clean-up removes. -/
def Clears (x : Path) : Prop :=
  x = c.discarded ∨ x = c.discarded.sidecar ∨ x = c.discarded.litter .ticket ∨
    c.discarded.IsStage x ∨ x = c.out.litter .ticket

instance (x : Path) : Decidable (c.Clears x) := inferInstanceAs (Decidable (_ ∨ _ ∨ _ ∨ _ ∨ _))

/-- The destination is no directory, or an archive is to be unpacked there. -/
def Direct : Prop := c.archive = false → isDir c.out = false

variable {c isDir before}

theorem discardIncomplete_of_clears {files : Path → Option Bytes} {x : Path} (h : c.Clears x) :
    c.discardIncomplete files x = none := by
  simp only [discardIncomplete, removeStageFiles, Function.update_apply]
  rcases h with rfl | rfl | rfl | h | rfl <;> simp [*]

theorem discardIncomplete_of_not_clears {files : Path → Option Bytes} {x : Path}
    (h : ¬ c.Clears x) : c.discardIncomplete files x = files x := by
  simp only [Clears, not_or] at h
  obtain ⟨hdownload, hsidecar, hticket, hstage, hdir⟩ := h
  simp only [discardIncomplete, removeStageFiles, Function.update_apply, if_neg hdownload,
    if_neg hsidecar, if_neg hticket, if_neg hstage, if_neg hdir]

theorem isStage_litter (p : Path) (s : Stage) : p.IsStage (p.litter (.stage s)) := by
  cases s with
  | path i =>
      refine ⟨rfl, i.repr.toList, ?_⟩
      simp [Path.litter]
  | dup i n =>
      refine ⟨rfl, i.repr.toList ++ ".eg".toList ++ n.repr.toList, ?_⟩
      simp [Path.litter]

theorem effect_of_not_clears {files : Path → Option Bytes} {x : Path} (h : ¬ c.Clears x)
    (e : Effect) : c.effect c.discarded files e x = files x := by
  have hne : ∀ y, c.Clears y → x ≠ y := fun y hy hxy => h (hxy ▸ hy)
  cases e with
  | write bytes => exact Function.update_of_ne (hne _ (.inl rfl)) ..
  | writeSidecar bytes => exact Function.update_of_ne (hne _ (.inr (.inl rfl))) ..
  | writeTicket bytes => exact Function.update_of_ne (hne _ (.inr (.inr (.inl rfl)))) ..
  | writeDirTicket bytes =>
      simp only [effect]
      split_ifs
      · exact Function.update_of_ne (hne _ (.inr (.inr (.inr (.inr rfl))))) ..
      · rfl
  | writeStage s bytes =>
      exact Function.update_of_ne (hne _ (.inr (.inr (.inr (.inl (isStage_litter _ s)))))) ..
  | removeStage s =>
      exact Function.update_of_ne (hne _ (.inr (.inr (.inr (.inl (isStage_litter _ s)))))) ..

theorem download_of_direct (h : c.Direct isDir) (files : Path → Option Bytes) :
    c.download ⟨files, isDir⟩ = some c.discarded := by
  unfold download discarded
  by_cases harchive : c.archive = true
  · rw [if_pos harchive, if_pos harchive]
  · have hfile := h (Bool.eq_false_iff.2 harchive)
    rw [if_neg harchive, if_neg harchive, if_neg (Bool.eq_false_iff.1 hfile)]
    rfl

/-- The receive works where the clean-up looks, and leaves the rest alone. -/
structure Kept (c : Intake) (before : Path → Option Bytes) (s : IntakeRow) : Prop where
  path : s.path = c.discarded
  files : s.phase ≠ .over → ∀ x, ¬ c.Clears x → s.files x = before x

theorem kept_open (h : c.Direct isDir) {files : Path → Option Bytes}
    (hfiles : ∀ x, ¬ c.Clears x → files x = before x) :
    c.Kept before (IntakeRow.open_ c isDir files) := by
  rw [IntakeRow.open_, download_of_direct h]
  simp only
  split_ifs with hdir
  · exact ⟨rfl, fun hover => absurd rfl hover⟩
  · exact ⟨rfl, fun _ => hfiles⟩
  · refine ⟨rfl, fun _ x hx => ?_⟩
    exact (Function.update_of_ne (fun hxp => hx (.inl hxp)) ..).trans (hfiles x hx)

theorem Kept.step (h : c.Direct isDir) {s : IntakeRow} (hs : c.Kept before s) (e : IntakeEvent) :
    c.Kept before (s.step c isDir e) := by
  cases e with
  | effect e =>
      simp only [IntakeRow.step]
      split
      next hrunning =>
        refine ⟨hs.path, fun hover x hx => ?_⟩
        simp only [hs.path, effect_of_not_clears hx]
        exact hs.files hover x hx
      next => exact hs
  | pause =>
      simp only [IntakeRow.step]
      split
      next => exact ⟨hs.path, hs.files⟩
      next => exact hs
  | settle result =>
      simp only [IntakeRow.step]
      split
      next hrunning =>
        split_ifs
        · exact hs
        · unfold IntakeRow.settle
          split
          next => exact ⟨hs.path, fun _ => hs.files (by rw [hrunning]; decide)⟩
          next => exact ⟨hs.path, fun hover => absurd rfl hover⟩
      next => exact hs
  | resume =>
      simp only [IntakeRow.step]
      split
      next hpaused => exact kept_open h (hs.files (by rw [hpaused]; decide))
      next => exact hs

theorem kept_run (h : c.Direct isDir) (es : List IntakeEvent) :
    c.Kept before (IntakeRow.run c isDir before es) := by
  refine List.foldlRecOn es _ (kept_open h fun _ _ => rfl) fun s hs e _ => hs.step h e

theorem effects_of_not_clears {x : Path} (h : ¬ c.Clears x) (late : List Effect)
    (files : Path → Option Bytes) : late.foldl (c.effect c.discarded) files x = files x := by
  induction late generalizing files with
  | nil => rfl
  | cons e late ih => exact (ih _).trans (effect_of_not_clears h e)

/-- A task that is cancelled at work cleans up. -/
theorem files_cancel {s : IntakeRow} (h : s.At .running) (late : List Effect) :
    (s.cancel c late).files = c.discardIncomplete (late.foldl (c.effect s.path) s.files) := by
  unfold IntakeRow.cancel
  rw [h.1]
  simp [IntakeRow.settle, receivePauseReason, RecvOutcome.isComplete, h.2]

theorem Kept.cancel {s : IntakeRow} (hs : c.Kept before s) (h : s.At .running)
    (late : List Effect) (x : Path) :
    (s.cancel c late).files x = if c.Clears x then none else before x := by
  rw [files_cancel h, hs.path]
  split_ifs with hx
  · exact discardIncomplete_of_clears hx
  · rw [discardIncomplete_of_not_clears hx, effects_of_not_clears hx]
    exact hs.files (by rw [h.1]; decide) x hx

/-! ### Where a download goes inside a directory -/

theorem dir_ne_text (p : Path) (h : p.name ≠ "") : p.text ≠ p.dir := by
  unfold Path.text
  intro heq
  split_ifs at heq with hdir
  · exact h (heq.trans hdir)
  · have hlen := congrArg (List.length ∘ String.toList) heq
    simp only [Function.comp, String.toList_append, List.length_append] at hlen
    have hslash : "/".toList.length = 1 := by decide
    omega

theorem dir_of_clears (hsingle : c.archive = false) {x : Path} (h : c.Clears x) :
    x.dir = c.out.dir := by
  have hout : c.discarded = c.out := by rw [discarded, hsingle]; rfl
  simp only [Clears, hout] at h
  rcases h with rfl | rfl | rfl | h | rfl
  · rfl
  · rfl
  · rfl
  · exact h.1
  · rfl

/-- The file is in the directory, where nothing is cleaned up. -/
theorem not_clears_download (hsingle : c.archive = false) (hdir : isDir c.out = true)
    {files : Path → Option Bytes} {p : Path} (h : c.download ⟨files, isDir⟩ = some p) :
    ¬ c.Clears p := by
  intro hclears
  simp only [download, hsingle, Bool.false_eq_true, if_false, hdir, if_true] at h
  have hp : p.dir = c.out.text := by
    rcases collisionFree_eq_some h with rfl | ⟨k, rfl⟩
    · rfl
    · rfl
  exact dir_ne_text c.out c.named (hp.symm.trans (dir_of_clears hsingle hclears))

/-- A file that was written to and is still there is neither gone nor as it was. -/
theorem not_tidied_of_written {own : Path → Prop} {after : Path → Option Bytes} {p : Path}
    (h : after p = some (0 :: (before p).getD [])) : ¬ Tidied before own after := by
  intro htidied
  obtain ⟨hgone, hspared⟩ := htidied p
  have hsome : ¬ (before p = none ∨ own p) := fun hnew => by simp [h] at hgone; tauto
  push Not at hsome
  obtain ⟨bytes, hbytes⟩ := Option.ne_none_iff_exists'.1 hsome.1
  have hsame := hspared bytes hbytes hsome.2
  rw [h, hbytes, Option.getD_some] at hsame
  exact absurd (congrArg List.length (Option.some.inj hsame)) (by simp)

/-- The receive gets to its file. -/
def Opens (c : Intake) (isDir : Path → Bool) (before : Path → Option Bytes) (p : Path) : Prop :=
  c.download ⟨before, isDir⟩ = some p ∧ isDir p = false

theorem open_of_opens {p : Path} (h : c.Opens isDir before p) :
    IntakeRow.open_ c isDir before = {
      files := if (before p).isSome then before else Function.update before p (some [])
      phase := .running
      path := p } := by
  rw [IntakeRow.open_, h.1]
  simp only [h.2, Bool.false_eq_true, if_false]

/-- A receive that has only written to its file. -/
theorem run_write {p : Path} (h : c.Opens isDir before p) (bytes : Bytes) :
    ∃ files, files p = some bytes ∧ IntakeRow.run c isDir before [.effect (.write bytes)] =
      { files, phase := .running, path := p } := by
  have hstep : IntakeRow.run c isDir before [.effect (.write bytes)] =
      (IntakeRow.open_ c isDir before).step c isDir (.effect (.write bytes)) := rfl
  rw [hstep, open_of_opens h]
  exact ⟨_, Function.update_self .., rfl⟩

theorem run_concat (es : List IntakeEvent) (e : IntakeEvent) :
    IntakeRow.run c isDir before (es ++ [e]) = (IntakeRow.run c isDir before es).step c isDir e :=
  List.foldl_concat ..

theorem phase_run_of_not_opens (h : ¬ ∃ p, c.Opens isDir before p) (es : List IntakeEvent) :
    (IntakeRow.run c isDir before es).phase = .over := by
  induction es using List.reverseRecOn with
  | nil =>
      rw [IntakeRow.run, List.foldl_nil, IntakeRow.open_]
      cases hp : c.download ⟨before, isDir⟩ with
      | none => rfl
      | some p =>
          have hdir : isDir p = true := by
            by_contra hfile
            exact h ⟨p, hp, Bool.eq_false_iff.2 hfile⟩
          simp only [hdir, if_true]
  | append_singleton es e ih =>
      rw [run_concat]
      cases e <;> simp only [IntakeRow.step, ih]

/-- Where the clean-up has not run, what was written is still there. -/
theorem eq_running {own : Path → Prop} {point : IntakeRow.Point} {p : Path}
    (hclean : c.CancelsClean isDir before own point) (h : c.Opens isDir before p) :
    point = .running := by
  obtain ⟨files, hwritten, hrun⟩ := run_write h (0 :: (before p).getD [])
  cases point with
  | running => rfl
  | pausing =>
      have hpausing := hclean [.effect (.write (0 :: (before p).getD [])), .pause] []
      rw [← List.singleton_append, run_concat, hrun] at hpausing
      exact absurd (hpausing ⟨rfl, rfl⟩) (not_tidied_of_written hwritten)
  | paused =>
      have hpaused := hclean
        ([.effect (.write (0 :: (before p).getD [])), .pause] ++ [.settle (.ok .cancelled)]) []
      rw [run_concat, ← List.singleton_append, run_concat, hrun] at hpaused
      exact absurd (hpaused rfl) (not_tidied_of_written hwritten)

theorem direct_of_clean {own : Path → Prop} {p : Path}
    (hclean : c.CancelsClean isDir before own .running) (h : c.Opens isDir before p) :
    c.Direct isDir := by
  intro hsingle
  by_contra hdir
  obtain ⟨files, hwritten, hrun⟩ := run_write h (0 :: (before p).getD [])
  have hrunning := hclean [.effect (.write (0 :: (before p).getD []))] []
  rw [hrun] at hrunning
  have htidied := hrunning ⟨rfl, rfl⟩
  rw [files_cancel ⟨rfl, rfl⟩] at htidied
  have hleft : c.discardIncomplete files p = some (0 :: (before p).getD []) := by
    rw [discardIncomplete_of_not_clears
      (not_clears_download hsingle (Bool.eq_true_of_not_eq_false hdir) h.1)]
    exact hwritten
  exact not_tidied_of_written hleft htidied

theorem Kept.tidied_iff {own : Path → Prop} {s : IntakeRow} (hs : c.Kept before s)
    (hat : s.At .running) (late : List Effect) :
    Tidied before own (s.cancel c late).files ↔
      ∀ x, before x ≠ none → (own x ↔ c.Clears x) := by
  constructor
  · intro htidied x hx
    obtain ⟨bytes, hbytes⟩ := Option.ne_none_iff_exists'.1 hx
    obtain ⟨hgone, hspared⟩ := htidied x
    rw [hs.cancel hat] at hgone hspared
    by_cases hclears : c.Clears x
    · rw [if_pos hclears] at hspared
      refine iff_of_true ?_ hclears
      by_contra hown
      exact absurd (hspared bytes hbytes hown) (by simp)
    · rw [if_neg hclears] at hgone
      exact iff_of_false (fun hown => hx (hgone (.inr hown))) hclears
  · intro hown x
    rw [hs.cancel hat]
    refine ⟨fun hgone => ?_, fun bytes hbytes hforeign => ?_⟩
    · split_ifs with hclears
      · rfl
      · by_contra hx
        exact hgone.elim hx fun hmine => hclears ((hown x hx).1 hmine)
    · have hx : before x ≠ none := by rw [hbytes]; simp
      rw [if_neg fun hclears => hforeign ((hown x hx).2 hclears), hbytes]

/-- Cancelling a download removes its litter and nothing else exactly if its task is at work and
has not been told to pause, the destination is no directory that the file goes into, and the
files found where the clean-up looks are those of its own earlier attempts. -/
theorem cancelsClean_iff (c : Intake) (isDir : Path → Bool) (before : Path → Option Bytes)
    (own : Path → Prop) (point : IntakeRow.Point) : c.CancelsClean isDir before own point ↔
      ((∃ p, c.Opens isDir before p) →
        point = .running ∧ c.Direct isDir ∧ ∀ x, before x ≠ none → (own x ↔ c.Clears x)) := by
  constructor
  · rintro hclean ⟨p, hp⟩
    obtain rfl := eq_running hclean hp
    have hdirect := direct_of_clean hclean hp
    refine ⟨rfl, hdirect, (Kept.tidied_iff (kept_run hdirect []) ?_ []).1 (hclean [] [] ?_)⟩
    · rw [IntakeRow.run, List.foldl_nil, open_of_opens hp]
      exact ⟨rfl, rfl⟩
    · rw [IntakeRow.run, List.foldl_nil, open_of_opens hp]
      exact ⟨rfl, rfl⟩
  · intro h es late hat
    by_cases hopens : ∃ p, c.Opens isDir before p
    · obtain ⟨rfl, hdirect, hown⟩ := h hopens
      exact ((kept_run hdirect es).tidied_iff hat late).2 hown
    · have hover := phase_run_of_not_opens hopens es
      cases point with
      | running => exact absurd (hover.symm.trans hat.1) (by decide)
      | pausing => exact absurd (hover.symm.trans hat.1) (by decide)
      | paused => exact absurd (hover.symm.trans hat) (by decide)

/-- A file that goes into a folder. -/
def intoFolder : Intake where
  archive := false
  name := "report.pdf"
  chunks := []
  out := ⟨"/home/a", "Downloads"⟩
  temp := "/tmp"
  named := by decide

/-- It is left there half done. -/
theorem not_cancelsClean_intoFolder : ¬ intoFolder.CancelsClean
    (fun x => decide (x = ⟨"/home/a", "Downloads"⟩)) (fun _ => none) (fun _ => False)
    .running := by
  intro hclean
  have hopens : intoFolder.Opens (fun x => decide (x = ⟨"/home/a", "Downloads"⟩)) (fun _ => none)
      ⟨"/home/a/Downloads", "report.pdf"⟩ := ⟨by decide, by decide⟩
  exact absurd (direct_of_clean hclean hopens rfl) (by decide)

end Intake

end Arvolo.Recv
