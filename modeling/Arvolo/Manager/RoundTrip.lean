import Arvolo.Manager.Refile

/-!
Whether a restart brings every transfer back, and leaves each a record to be brought back
from again.

Three things go wrong. A fresh id may be the old one of a record whose turn has yet to come,
and that record's removal then takes the one just written with it. What was written down of
an upload is swept with what was left behind. And the record of a send takes its staged
archive along, its code is not written down again.
-/

namespace Arvolo.Manager.Restart

open Lib

variable {env : Env} {w : World}

/-- The transfers that are on disk, with the ids of their records. -/
def records (now : ℕ) (d : Disk) : List (Transfer × ℕ) :=
  mains.flatMap fun k => (listed d k).map fun r =>
    ({ transferOf now k r.2 (d.beside k r.1) with
      upload := d.uploadOf k r.1, code := d.codeOf k r.1 }, r.1)

/-- A disk as a run of the manager leaves it, and the files of its transfers as they were. -/
structure Usual (env : Env) (d : Disk) : Prop where
  good : ∀ k ∈ mains, ∀ r ∈ listed d k, Good env k r.2
  prep : ∀ r ∈ listed d .sendto, ∀ p ∈ (d.files .prep).lookup r.1, rebuildPrep env r.2.payload p
  paused : ∀ id, (d.files .download).lookup id = none → (d.files .paused).lookup id = none
  share : ∀ id, (d.files .send).lookup id = none → (d.files .share).lookup id = none

/-- Every transfer comes back once and as it was, has one record when the restart is over,
and the archives that sends keep are still there. -/
structure RoundTrip (env : Env) (d : Disk) : Prop where
  broughtBack : ((resumeIncomplete env (start d)).restored.map Prod.fst).Perm
    ((records env.now d).map Prod.fst)
  onDisk : (records env.now (resumeIncomplete env (start d)).disk).Perm
    (resumeIncomplete env (start d)).restored
  archives : ∀ r ∈ d.rows .send, ∀ s ∈ r.2.ownedStage, s ∈ d.stages →
    s ∈ (resumeIncomplete env (start d)).disk.stages

/-- The first fresh id that a record of this kind gets. -/
def base (d : Disk) (k : Kind) : ℕ :=
  1 + ((mains.takeWhile (· ≠ k)).map fun j => (listed d j).length).sum

/-- The disks that a restart does no harm to. -/
structure Spared (d : Disk) : Prop where
  clear : ∀ k ∈ mains, Clear (base d k) ((listed d k).map (·.1))
  upload : ∀ k ∈ mains, ∀ r ∈ listed d k, d.uploadOf k r.1 = none
  code : ∀ r ∈ d.rows .send, (d.files .code).lookup r.1 = none
  stage : ∀ r ∈ d.rows .send, ∀ s ∈ r.2.ownedStage, s ∉ d.stages

/-! ### The loops one after the other -/

/-- What is done before the loop over a kind. -/
def before (d : Disk) : Kind → World → World
  | .sendto, w => w.sweepPreps (listed d .sendto)
  | .download, w => w.sweepUploads
  | _, w => w

def phase (env : Env) (d : Disk) (w : World) (k : Kind) : World :=
  (listed d k).foldl (fun w r => w.restore env k r) (before d k w)

/-- The files that a phase changes. -/
def touchedBy : Kind → List Kind
  | .download => .upload :: touched .download
  | k => touched k

theorem before_spec (d : Disk) (k : Kind) (h : w.fails = none) :
    Sweeps (touchedBy k) w (before d k w) ∧
      (before d k w).disk.files k = w.disk.files k := by
  have hweaken : ∀ (k' : Kind) {w' : World}, k' ∈ touchedBy k → k' ≠ k → Sweeps [k'] w w' →
      Sweeps (touchedBy k) w w' ∧ w'.disk.files k = w.disk.files k :=
    fun _ _ hk' hne hs => ⟨⟨hs.fails, hs.next, hs.restored, hs.codes, hs.stages, fun k'' hk'' =>
      hs.frame k'' fun hmem => hk'' (List.mem_singleton.mp hmem ▸ hk')⟩,
      hs.frame k (by simpa using hne.symm)⟩
  cases k with
  | sendto =>
      exact hweaken .prep (by decide) (by decide) (sweepPreps_spec h (listed d .sendto)).1
  | download => exact hweaken .upload (by decide) (by decide) (sweepUploads_spec h).1
  | _ => exact ⟨.refl h, rfl⟩

theorem phase_looped {d : Disk} {k : Kind} (hk : k ∈ mains) (h : w.fails = none)
    (hgood : ∀ r ∈ listed d k, Good env k r.2) :
    Looped k (listed d k) (before d k w) (phase env d w k) :=
  looped hk (before_spec d k h).1.fails hgood

theorem phase_frame {d : Disk} {k : Kind} (hk : k ∈ mains) (h : w.fails = none)
    (hgood : ∀ r ∈ listed d k, Good env k r.2) {k' : Kind} (hk' : k' ∉ touchedBy k) :
    (phase env d w k).disk.files k' = w.disk.files k' := by
  refine ((phase_looped hk h hgood).frame k' fun hmem => hk' ?_).trans
    ((before_spec d k h).1.frame k' hk')
  cases k with
  | download => exact List.mem_cons_of_mem _ hmem
  | _ => exact hmem

theorem resumeIncomplete_eq {d : Disk} (h : ∀ k ∈ mains, ∀ r ∈ listed d k, Good env k r.2) :
    resumeIncomplete env (start d) = mains.foldl (phase env d) (loaded d) := by
  have hload := loaded_spec d
  set w₁ := phase env d (loaded d) .deposited with hw₁
  set w₂ := phase env d w₁ .sendto with hw₂
  set w₃ := phase env d w₂ .link with hw₃
  have hgood : ∀ {k : Kind}, k ∈ mains → ∀ r ∈ listed d k, Good env k r.2 := fun hk => h _ hk
  have h₁ := phase_looped (k := .deposited) (by decide) hload.fails (hgood (by decide))
  have h₂ := phase_looped (w := w₁) (k := .sendto) (by decide) h₁.fails (hgood (by decide))
  have h₃ := phase_looped (w := w₂) (k := .link) (by decide) h₂.fails (hgood (by decide))
  have hlink : w₂.disk.files .link = d.files .link :=
    ((phase_frame (by decide) h₁.fails (hgood (by decide)) (by decide)).trans
      (phase_frame (by decide) hload.fails (hgood (by decide)) (by decide))).trans
      (hload.frame .link (by decide))
  have hpending : w₃.disk.files .pendingShare = d.files .pendingShare :=
    (((phase_frame (by decide) h₂.fails (hgood (by decide)) (by decide)).trans
      (phase_frame (by decide) h₁.fails (hgood (by decide)) (by decide))).trans
      (phase_frame (by decide) hload.fails (hgood (by decide)) (by decide))).trans
      (hload.frame .pendingShare (by decide))
  have hdeposited : (start d).loadSendtos.2.loadDepositeds.1.foldl (·.restoreDeposited env ·)
      (start d).loadSendtos.2.loadDepositeds.2.takeCodes = w₁ := by
    rw [loadDepositeds_fst]
    rfl
  have hsendto : (start d).loadSendtos.1.foldl (·.restoreSendto env ·)
      (w₁.sweepPreps (start d).loadSendtos.1) = w₂ := rfl
  have hlinks : (w₂.disk.rows .link).foldl (·.restoreLink env ·) w₂ = w₃ := by
    rw [Disk.rows, hlink]
    rfl
  have hpendings : (w₃.disk.rows .pendingShare).foldl (·.restorePending ·) w₃ =
      phase env d w₃ .pendingShare := by
    rw [Disk.rows, hpending]
    rfl
  unfold resumeIncomplete
  simp only [hdeposited, hsendto, hlinks, hpendings]
  rfl

/-- The first fresh id of a kind, when the loops over `ks` begin at `n`. -/
def baseFrom (d : Disk) (n : ℕ) (ks : List Kind) (k : Kind) : ℕ :=
  n + ((ks.takeWhile (· ≠ k)).map fun j => (listed d j).length).sum

theorem baseFrom_self (d : Disk) (n : ℕ) (k : Kind) (ks : List Kind) :
    baseFrom d n (k :: ks) k = n := by
  simp [baseFrom]

theorem baseFrom_of_ne (d : Disk) (n : ℕ) {k k' : Kind} (h : k' ≠ k) (ks : List Kind) :
    baseFrom d n (k' :: ks) k = baseFrom d (n + (listed d k').length) ks k := by
  simp only [baseFrom, List.takeWhile_cons, ne_eq, h, not_false_eq_true, decide_true, if_true,
    List.map_cons, List.sum_cons, Nat.add_assoc]

theorem notMem_touchedBy {k k' : Kind} (hk : k ∈ mains) (hk' : k' ∈ mains) (hne : k ≠ k') :
    k ∉ touchedBy k' := by
  have hall : ∀ k ∈ mains, ∀ k' ∈ mains, k ≠ k' → k ∉ touchedBy k' := by decide
  exact hall k hk k' hk' hne

/-- What the loops over good records do, whatever else is on disk. -/
structure Ran (d : Disk) (ks : List Kind) (w w' : World) : Prop where
  fails : w'.fails = none
  next : w'.next = w.next + (ks.map fun k => (listed d k).length).sum
  mono : ∀ x ∈ w.restored, x ∈ w'.restored
  brought : ∀ k ∈ ks, ∀ i < (listed d k).length,
    ∃ t : Transfer, t.record.1 = k ∧ (t, baseFrom d w.next ks k + i) ∈ w'.restored
  lookup : ∀ k ∈ ks, (w'.disk.files k).lookup =
    rekeyAll none (w.disk.files k).lookup (baseFrom d w.next ks k)
      ((listed d k).map fun r => (r.1, some (settled k r.2)))
  frame : ∀ k', (∀ k ∈ ks, k' ∉ touchedBy k) → w'.disk.files k' = w.disk.files k'

theorem Looped.mem_restored {k : Kind} {rows : List (Σ _ : ℕ, Content k)} {w' : World}
    (h : Looped k rows w w') {i : ℕ} (hi : i < rows.length) :
    ∃ t : Transfer, t.record.1 = k ∧ (t, w.next + i) ∈ w'.restored := by
  obtain ⟨ts, hlength, hts, hrestored⟩ := h.brought
  have hi' : i < ts.length := hlength ▸ hi
  refine ⟨ts[i], hts _ (List.getElem_mem hi'), ?_⟩
  rw [hrestored]
  refine List.mem_append_right _ (List.mk_mem_zipIdx_iff_le_and_getElem?_sub.2 ⟨by omega, ?_⟩)
  rw [Nat.add_sub_cancel_left, List.getElem?_eq_getElem hi']

theorem ran {d : Disk} (ks : List Kind) (hks : ∀ k ∈ ks, k ∈ mains) (hnodup : ks.Nodup)
    (h : w.fails = none) (hgood : ∀ k ∈ mains, ∀ r ∈ listed d k, Good env k r.2) :
    Ran d ks w (ks.foldl (phase env d) w) := by
  induction ks generalizing w with
  | nil => exact ⟨h, rfl, fun _ hx => hx, by simp, by simp, fun _ _ => rfl⟩
  | cons k ks ih =>
      obtain ⟨hk, hks'⟩ := List.forall_mem_cons.mp hks
      obtain ⟨hnew, hnodup'⟩ := List.nodup_cons.mp hnodup
      have hbefore := before_spec d k h
      have hloop := phase_looped hk h (hgood k hk)
      have hframe := fun k' (hk' : k' ∉ touchedBy k) => phase_frame hk h (hgood k hk) hk'
      have hrest := ih (w := phase env d w k) hks' hnodup' hloop.fails
      have hnext : (phase env d w k).next = w.next + (listed d k).length := by
        rw [hloop.next, hbefore.1.next]
      have hother : ∀ k' ∈ ks, k' ∈ mains ∧ k ≠ k' := fun k' hk' =>
        ⟨hks' k' hk', fun heq => hnew (heq ▸ hk')⟩
      rw [List.foldl_cons]
      refine ⟨hrest.fails, ?_, fun x hx => hrest.mono x ?_, fun k' hk' i hi => ?_,
        fun k' hk' => ?_, fun k' hk' => ?_⟩
      · rw [hrest.next, hnext, List.map_cons, List.sum_cons, Nat.add_assoc]
      · obtain ⟨ts, -, -, hrestored⟩ := hloop.brought
        rw [hrestored, hbefore.1.restored]
        exact List.mem_append_left _ hx
      · rcases List.mem_cons.mp hk' with rfl | hk'
        · obtain ⟨t, ht, hmem⟩ := hloop.mem_restored hi
          rw [baseFrom_self, ← hbefore.1.next]
          exact ⟨t, ht, hrest.mono _ hmem⟩
        · rw [baseFrom_of_ne d _ (hother k' hk').2, ← hnext]
          exact hrest.brought k' hk' i hi
      · rcases List.mem_cons.mp hk' with rfl | hk'
        · rw [baseFrom_self, ← hbefore.1.next, ← hbefore.2, ← hloop.lookup, hrest.frame k' ?_]
          exact fun k'' hk'' => notMem_touchedBy hk (hother k'' hk'').1 (hother k'' hk'').2
        · rw [baseFrom_of_ne d _ (hother k' hk').2, ← hnext, hrest.lookup k' hk',
            hframe k' (notMem_touchedBy (hother k' hk').1 hk (hother k' hk').2.symm)]
      · rw [List.forall_mem_cons] at hk'
        exact (hrest.frame k' hk'.2).trans (hframe k' hk'.1)

/-! ### Where a restart does harm -/

theorem transferOf_kind (now : ℕ) (k : Kind) (c : Content k) (b : Beside) :
    (transferOf now k c b).record.1 = k := by
  cases k <;> rfl

theorem mem_records {now : ℕ} {d : Disk} {t : Transfer} {id : ℕ} (h : (t, id) ∈ records now d) :
    ∃ k ∈ mains, ∃ r ∈ listed d k, t.record.1 = k ∧ r.1 = id ∧ t.upload = d.uploadOf k r.1 ∧
      t.code = d.codeOf k r.1 := by
  obtain ⟨k, hk, hmem⟩ := List.mem_flatMap.mp h
  obtain ⟨r, hr, heq⟩ := List.mem_map.mp hmem
  obtain ⟨rfl, rfl⟩ := Prod.mk.inj heq
  exact ⟨k, hk, r, hr, transferOf_kind _ _ _ _, rfl, rfl, rfl⟩

/-- When the restart is over nothing is written down of uploads and codes, nor under an old
prefix. -/
theorem resumed_gone {d : Disk} (h : ∀ k ∈ mains, ∀ r ∈ listed d k, Good env k r.2) :
    ∀ k ∈ [Kind.legacySendto, .legacyDeposited, .code, .upload],
      (resumeIncomplete env (start d)).disk.files k = ∅ := by
  have hload := loaded_spec d
  rw [resumeIncomplete_eq h]
  intro k hk
  simp only [List.mem_cons, List.not_mem_nil, or_false] at hk
  have hran := ran mains (w := loaded d) (fun _ hk => hk) (by decide) hload.fails h
  rcases hk with rfl | rfl | rfl | rfl
  · exact (hran.frame _ (by decide)).trans (hload.gone _ (by decide))
  · exact (hran.frame _ (by decide)).trans (hload.gone _ (by decide))
  · exact (hran.frame _ (by decide)).trans (hload.gone _ (by decide))
  · -- swept before the downloads, and written by none of the loops from there on
    set w := [Kind.deposited, .sendto, .link, .pendingShare].foldl (phase env d) (loaded d)
      with hw
    have hfails : w.fails = none :=
      (ran [Kind.deposited, .sendto, .link, .pendingShare] (by decide) (by decide)
        hload.fails h).fails
    have hdownload := phase_looped (w := w) (k := .download) (by decide) hfails
      (h .download (by decide))
    have hsend := phase_frame (w := phase env d w .download) (k := .send) (by decide)
      hdownload.fails (h .send (by decide)) (show Kind.upload ∉ touchedBy .send by decide)
    change (phase env d (phase env d w .download) .send).disk.files .upload = ∅
    rw [hsend, hdownload.frame _ (by decide)]
    exact (sweepUploads_spec hfails).2

theorem clear_of_onDisk {d : Disk} (h : ∀ k ∈ mains, ∀ r ∈ listed d k, Good env k r.2)
    (honDisk : (records env.now (resumeIncomplete env (start d)).disk).Perm
      (resumeIncomplete env (start d)).restored) :
    ∀ k ∈ mains, Clear (base d k) ((listed d k).map (·.1)) := by
  intro k hk
  by_contra hclear
  have hgone := resumed_gone h
  have hload := loaded_spec d
  have hran := ran mains (w := loaded d) (fun _ hk => hk) (by decide) hload.fails h
  rw [← resumeIncomplete_eq h] at hran
  have hbase : baseFrom d (loaded d).next mains k = base d k := by
    rw [hload.next]
    rfl
  have hkeys : ((listed d k).map fun r => (r.1, some (settled k r.2))).map Prod.fst =
      (listed d k).map (·.1) := List.map_map ..
  obtain ⟨i, hi, hblank⟩ := exists_rekeyAll_blank none
    ((loaded d).disk.files k).lookup (base d k) (hkeys ▸ hclear)
  rw [List.length_map] at hi
  obtain ⟨t, ht, hmem⟩ := hran.brought k hk i hi
  obtain ⟨k', -, r, hr, hk', hid, -⟩ := mem_records (honDisk.mem_iff.mpr hmem)
  obtain rfl : k' = k := hk'.symm.trans ht
  rw [listed_eq_rows (hgone _ (by decide)) (hgone _ (by decide))] at hr
  have hsome := Disk.mem_rows.1 hr
  rw [hid, hbase] at hsome
  have hlook := congrFun (hran.lookup k' hk) (base d k' + i)
  rw [hbase, hblank] at hlook
  exact Option.some_ne_none _ (hsome.symm.trans hlook)

theorem mem_records_of_listed (now : ℕ) {d : Disk} {k : Kind} (hk : k ∈ mains)
    {r : Σ _ : ℕ, Content k} (hr : r ∈ listed d k) :
    ({ transferOf now k r.2 (d.beside k r.1) with
      upload := d.uploadOf k r.1, code := d.codeOf k r.1 }, r.1) ∈ records now d :=
  List.mem_flatMap.mpr ⟨k, hk, List.mem_map.mpr ⟨r, hr, rfl⟩⟩

/-- What comes back as it was had no upload state and no code: nothing of either is left. -/
theorem bare_of_roundTrip {d : Disk} (h : ∀ k ∈ mains, ∀ r ∈ listed d k, Good env k r.2)
    (hround : RoundTrip env d) {k : Kind} (hk : k ∈ mains) {r : Σ _ : ℕ, Content k}
    (hr : r ∈ listed d k) : d.uploadOf k r.1 = none ∧ d.codeOf k r.1 = none := by
  have hgone := resumed_gone h
  have hmem := List.mem_map_of_mem (f := Prod.fst) (mem_records_of_listed env.now hk hr)
  obtain ⟨⟨t, id⟩, hrestored, ht⟩ := List.mem_map.mp (hround.broughtBack.mem_iff.mpr hmem)
  obtain ⟨k', -, r', -, -, -, hupload, hcode⟩ := mem_records (hround.onDisk.mem_iff.mpr hrestored)
  have hempty : ∀ {k : Kind} (j : ℕ), (resumeIncomplete env (start d)).disk.files k = ∅ →
      ((resumeIncomplete env (start d)).disk.files k).lookup j = none := by
    intro k j hfiles
    rw [hfiles, AList.lookup_empty]
  have hu : t.upload = none := by
    rw [hupload]
    cases k' <;> simp [Disk.uploadOf, hempty _ (hgone .upload (by decide))]
  have hc : t.code = none := by
    rw [hcode]
    cases k' <;> simp [Disk.codeOf, hempty _ (hgone .code (by decide))]
  subst ht
  exact ⟨hu, hc⟩

/-- The restore of a send takes the archive its record says it owns. -/
theorem stages_restoreSend (env : Env) (h : w.fails = none) (r : Σ _ : ℕ, SendRecord) :
    (w.restoreSend env r).disk.stages ⊆ w.disk.stages ∧
      ((w.disk.files .send).lookup r.1 = some r.2 → ∀ s ∈ r.2.ownedStage,
        s ∉ (w.restoreSend env r).disk.stages) := by
  have hfails : (w.removeSend r.1).fails = none := by
    unfold World.removeSend
    split <;> exact h
  have hstages : (w.restoreSend env r).disk.stages = (w.removeSend r.1).disk.stages := by
    unfold World.restoreSend
    split_ifs <;> simp [World.disk_put, World.disk_unlink, hfails, Disk.put, Disk.unlink]
  rw [hstages]
  constructor
  · unfold World.removeSend
    split
    · simpa [World.disk_unlink, World.disk_act, h, Disk.unlink, Disk.run] using
        Finset.erase_subset _ _
    · simp [World.disk_unlink, h, Disk.unlink]
  · intro hlook s hs
    unfold World.removeSend
    simp [hlook, show r.2.ownedStage = some s from hs, World.disk_unlink, World.disk_act, h,
      Disk.unlink, Disk.run]

theorem stages_loop (env : Env) (rows : List (Σ _ : ℕ, SendRecord)) (h : w.fails = none)
    (hgood : ∀ r ∈ rows, Good env .send r.2) (hclear : Clear w.next (rows.map (·.1)))
    (hnodup : (rows.map (·.1)).Nodup)
    (hlook : ∀ r ∈ rows, (w.disk.files .send).lookup r.1 = some r.2) :
    (rows.foldl (fun w r => w.restoreSend env r) w).disk.stages ⊆ w.disk.stages ∧
      ∀ r ∈ rows, ∀ s ∈ r.2.ownedStage,
        s ∉ (rows.foldl (fun w r => w.restoreSend env r) w).disk.stages := by
  induction rows generalizing w with
  | nil => exact ⟨subset_rfl, by simp⟩
  | cons r rows ih =>
      obtain ⟨hfresh, hclear'⟩ := hclear
      obtain ⟨hold, hnodup'⟩ := List.nodup_cons.mp hnodup
      have hone := restores_send h (hgood r List.mem_cons_self)
      obtain ⟨hsub, htaken⟩ := stages_restoreSend env h r
      obtain ⟨hsub', htaken'⟩ := ih (w := w.restoreSend env r) hone.fails
        (fun r' hr' => hgood r' (List.mem_cons_of_mem _ hr')) (by rwa [hone.next]) hnodup'
        fun r' hr' => by
          have hmem := List.mem_map_of_mem (f := (·.1)) hr'
          have hnext : r'.1 ≠ w.next := fun heq => hfresh (heq ▸ hmem)
          have hother : r'.1 ≠ r.1 := fun heq => hold (show r.1 ∈ _ from heq ▸ hmem)
          refine (congrFun hone.lookup r'.1).trans ?_
          rw [rekey_apply, if_neg hnext, if_neg hother]
          exact hlook r' (List.mem_cons_of_mem _ hr')
      rw [List.foldl_cons]
      refine ⟨hsub'.trans hsub, fun r' hr' s hs => ?_⟩
      rcases List.mem_cons.mp hr' with rfl | hr'
      · exact fun hmem => htaken (hlook r' List.mem_cons_self) s hs (hsub' hmem)
      · exact htaken' r' hr' s hs

theorem spared_of_roundTrip {d : Disk} (h : Usual env d) (hround : RoundTrip env d) :
    Spared d := by
  have hclear := clear_of_onDisk h.good hround.onDisk
  have hbare : ∀ {k : Kind}, k ∈ mains → ∀ {r : Σ _ : ℕ, Content k}, r ∈ listed d k → _ :=
    fun hk _ hr => bare_of_roundTrip h.good hround hk hr
  refine ⟨hclear, fun k hk r hr => (hbare hk hr).1,
    fun r hr => (hbare (k := .send) (by decide) hr).2, fun r hr s hs hmem => ?_⟩
  have hload := loaded_spec d
  -- the world that the loop over the sends begins in
  set ks := [Kind.deposited, .sendto, .link, .pendingShare, .download] with hks
  set w := ks.foldl (phase env d) (loaded d) with hw
  have hran := ran ks (w := loaded d) (by decide) (by decide) hload.fails h.good
  have hend : resumeIncomplete env (start d) = phase env d w .send := resumeIncomplete_eq h.good
  have hnext : w.next = base d .send := by
    rw [hran.next, hload.next]
    rfl
  have hsend : w.disk.files .send = d.files .send :=
    (hran.frame _ (by decide)).trans (hload.frame _ (by decide))
  have htaken := (stages_loop env (w := w) (d.rows .send) hran.fails
    (h.good .send (by decide)) (hnext ▸ hclear .send (by decide)) (d.files .send).nodupKeys
    fun r hr => by rw [hsend]; exact Disk.mem_rows.1 hr).2
  have hkept := hround.archives r hr s hs hmem
  rw [hend] at hkept
  exact htaken r hr s hs hkept

/-! ### Where it does none -/

/-- The kind of the files that lie beside the records of a kind. -/
def sidecar : Kind → Kind
  | .sendto => .prep
  | .download => .paused
  | .send => .share
  | k => k

theorem beside_congr {d d' : Disk} {k : Kind} (h : d'.files (sidecar k) = d.files (sidecar k)) :
    d'.beside k = d.beside k := by
  ext1 j
  cases k <;> first | rfl | simp_all [Disk.beside, sidecar]

/-- The records of a kind whose turn has yet to come: each finds its own, and nothing lies
about that belongs to none of them. -/
structure Waiting (env : Env) (d : Disk) (k : Kind) (w : World) : Prop where
  ready : ∀ r ∈ listed d k, Ready env k r w
  alone : k ≠ .sendto → ∀ j ∉ (listed d k).map (·.1), w.disk.beside k j = {}

theorem Waiting.congr {d : Disk} {k : Kind} {w' : World} (h : Waiting env d k w)
    (hfiles : w'.disk.files (sidecar k) = w.disk.files (sidecar k))
    (hupload : ∀ j, w.disk.uploadOf k j = none → w'.disk.uploadOf k j = none)
    (hcodes : ∀ j, w.codes.lookup j = none → w'.codes.lookup j = none) : Waiting env d k w' := by
  have hbeside := beside_congr hfiles
  refine ⟨fun r hr => ?_, fun hk j hj => by rw [hbeside]; exact h.alone hk j hj⟩
  obtain ⟨hgood, hfits, hnone, hcode⟩ := h.ready r hr
  exact ⟨hgood, hbeside ▸ hfits, hupload _ hnone, fun hk => hcodes _ (hcode hk)⟩

/-- Nothing but a record's own lies about when the loop over its kind begins. -/
theorem Waiting.at_turn {d : Disk} {k : Kind} (h : Waiting env d k w) (hfails : w.fails = none) :
    (∀ r ∈ listed d k, Ready env k r (before d k w) ∧
      (before d k w).disk.beside k r.1 = w.disk.beside k r.1) ∧
    ∀ j, (before d k w).disk.beside k j ≠ {} → j ∈ (listed d k).map (·.1) := by
  have hsame : k ≠ .sendto → (before d k w).disk.beside k = w.disk.beside k := fun hk => by
    refine beside_congr ?_
    cases k with
    | sendto => exact absurd rfl hk
    | download => exact (sweepUploads_spec hfails).1.frame .paused (by decide)
    | _ => rfl
  have hsweep := (sweepPreps_spec hfails (listed d .sendto)).2
  have hkept : ∀ r ∈ listed d k, (before d k w).disk.beside k r.1 = w.disk.beside k r.1 := by
    intro r hr
    by_cases hk : k = .sendto
    · subst hk
      simp only [Disk.beside, before, hsweep,
        if_pos (List.mem_map_of_mem (f := fun r : Σ _ : ℕ, SendToRecord => r.1) hr)]
    · rw [hsame hk]
  refine ⟨fun r hr => ⟨?_, hkept r hr⟩, fun j hj => ?_⟩
  · obtain ⟨hgood, hfits, hnone, hcode⟩ := h.ready r hr
    have hcodes := (before_spec d k hfails).1.codes
    refine ⟨hgood, hkept r hr ▸ hfits, ?_, fun hk => by rw [hcodes]; exact hcode hk⟩
    cases k with
    | sendto =>
        have hframe := (sweepPreps_spec hfails (listed d .sendto)).1.frame .upload (by decide)
        simpa only [Disk.uploadOf, before, hframe] using hnone
    | _ => exact hnone
  · by_contra hmem
    by_cases hk : k = .sendto
    · subst hk
      refine hj ?_
      simp only [Disk.beside, before, hsweep, if_neg hmem]
    · rw [hsame hk] at hj
      exact hj (h.alone hk j hmem)

theorem before_upload {d : Disk} (h : w.fails = none) (k : Kind) {j : ℕ}
    (hj : (w.disk.files .upload).lookup j = none) :
    ((before d k w).disk.files .upload).lookup j = none := by
  cases k with
  | sendto =>
      have hframe := (sweepPreps_spec h (listed d .sendto)).1.frame .upload (by decide)
      rw [before, hframe, hj]
  | download => rw [before, (sweepUploads_spec h).2, AList.lookup_empty]
  | _ => exact hj

/-- The loop over a kind leaves those of a later kind as they are. Only that over the links
writes down upload state, and the held sends have had their turn by then. -/
structure Apart (k k' : Kind) : Prop where
  ne : k ≠ k'
  upload : k = .link → k' ≠ .sendto

theorem apart_mains : mains.Pairwise Apart := by
  have hall : mains.Pairwise fun k k' => k ≠ k' ∧ (k = .link → k' ≠ .sendto) := by decide
  exact hall.imp fun h => ⟨h.1, h.2⟩

theorem sidecar_notMem {k k' : Kind} (hk : k ∈ mains) (hk' : k' ∈ mains) (hne : k ≠ k') :
    sidecar k' ∉ touchedBy k := by
  have hall : ∀ k ∈ mains, ∀ k' ∈ mains, k ≠ k' → sidecar k' ∉ touchedBy k := by decide
  exact hall k hk k' hk' hne

theorem Waiting.after_phase {d : Disk} {k k' : Kind} (hwait : Waiting env d k' w) (hk : k ∈ mains)
    (hk' : k' ∈ mains) (hapart : Apart k k') (h : w.fails = none)
    (hgood : ∀ r ∈ listed d k, Good env k r.2)
    (hcarried : Carried env k (listed d k) (before d k w) (phase env d w k)) :
    Waiting env d k' (phase env d w k) ∧
      (phase env d w k).disk.beside k' = w.disk.beside k' := by
  have hfiles := phase_frame hk h hgood (sidecar_notMem hk hk' hapart.ne)
  refine ⟨hwait.congr hfiles (fun j hj => ?_) (fun j hj => ?_), beside_congr hfiles⟩
  · have hnone : ∀ j, k ≠ .link → (w.disk.files .upload).lookup j = none →
        ((phase env d w k).disk.files .upload).lookup j = none := fun j hlink hj =>
      hcarried.upload hlink j (before_upload h k hj)
    cases k' with
    | sendto =>
        simp only [Disk.uploadOf, Option.map_eq_none_iff] at hj ⊢
        exact hnone j (fun hlink => hapart.upload hlink rfl) hj
    | link =>
        simp only [Disk.uploadOf, Option.map_eq_none_iff] at hj ⊢
        exact hnone j hapart.ne hj
    | _ => rfl
  · refine hcarried.codes j ?_
    rw [(before_spec d k h).1.codes]
    exact hj

theorem phases_carried {d : Disk} {ks : List Kind} (hks : ∀ k ∈ ks, k ∈ mains)
    (hapart : ks.Pairwise Apart) (h : w.fails = none)
    (hgood : ∀ k ∈ mains, ∀ r ∈ listed d k, Good env k r.2)
    (hnodup : ∀ k ∈ ks, ((listed d k).map (·.1)).Nodup)
    (hwait : ∀ k ∈ ks, Waiting env d k w)
    (hclear : ∀ k ∈ ks, Clear (baseFrom d w.next ks k) ((listed d k).map (·.1))) :
    (ks.foldl (phase env d) w).restored = w.restored ++
      (ks.flatMap fun k => (listed d k).map fun r =>
        transferOf env.now k r.2 (w.disk.beside k r.1)).zipIdx w.next ∧
    ∀ k ∈ ks, ∀ i r, (listed d k)[i]? = some r →
      (ks.foldl (phase env d) w).disk.beside k (baseFrom d w.next ks k + i) =
        kept env.now k (w.disk.beside k r.1) := by
  induction ks generalizing w with
  | nil => exact ⟨by simp, by simp⟩
  | cons k ks ih =>
      obtain ⟨hk, hks'⟩ := List.forall_mem_cons.mp hks
      obtain ⟨hfirst, hapart'⟩ := List.pairwise_cons.mp hapart
      have hne : ∀ k' ∈ ks, k ≠ k' := fun k' hk' => (hfirst k' hk').ne
      have hbefore := before_spec d k h
      obtain ⟨hready, hwithin⟩ := (hwait k List.mem_cons_self).at_turn h
      have hclear₀ := hclear k List.mem_cons_self
      rw [baseFrom_self, ← hbefore.1.next] at hclear₀
      have hcarried : Carried env k (listed d k) (before d k w) (phase env d w k) :=
        carried hk hbefore.1.fails (fun r hr => (hready r hr).1) hclear₀
          (hnodup k List.mem_cons_self) fun j hj => .inl (hwithin j hj)
      have hloop := phase_looped (w := w) hk h (hgood k hk)
      have hnext : (phase env d w k).next = w.next + (listed d k).length := by
        rw [hloop.next, hbefore.1.next]
      have hothers : ∀ k' ∈ ks, Waiting env d k' (phase env d w k) ∧
          (phase env d w k).disk.beside k' = w.disk.beside k' := fun k' hk' =>
        (hwait k' (List.mem_cons_of_mem _ hk')).after_phase hk (hks' k' hk') (hfirst k' hk') h
          (hgood k hk) hcarried
      obtain ⟨hrestored, hbeside⟩ := ih (w := phase env d w k) hks' hapart' hloop.fails
        (fun k' hk' => hnodup k' (List.mem_cons_of_mem _ hk')) (fun k' hk' => (hothers k' hk').1)
        fun k' hk' => by
          have hrest := hclear k' (List.mem_cons_of_mem _ hk')
          rwa [baseFrom_of_ne d _ (hne k' hk'), ← hnext] at hrest
      have hmine : (listed d k).map (fun r =>
            transferOf env.now k r.2 ((before d k w).disk.beside k r.1)) =
          (listed d k).map fun r => transferOf env.now k r.2 (w.disk.beside k r.1) :=
        List.map_congr_left fun r hr => by rw [(hready r hr).2]
      have htheirs : (ks.flatMap fun k' => (listed d k').map fun r =>
            transferOf env.now k' r.2 ((phase env d w k).disk.beside k' r.1)) =
          ks.flatMap fun k' => (listed d k').map fun r =>
            transferOf env.now k' r.2 (w.disk.beside k' r.1) :=
        List.flatMap_congr fun k' hk' => by rw [(hothers k' hk').2]
      rw [List.foldl_cons]
      refine ⟨?_, fun k' hk' i r hr => ?_⟩
      · rw [hrestored, htheirs, hcarried.restored, hmine, hbefore.1.restored, hbefore.1.next,
          List.flatMap_cons, List.zipIdx_append, List.length_map, hnext, List.append_assoc]
      · rcases List.mem_cons.mp hk' with rfl | hk'
        · have hran := ran ks (w := phase env d w k') hks'
            (hapart'.imp fun hap => hap.ne) hloop.fails hgood
          rw [baseFrom_self, beside_congr (hran.frame (sidecar k') fun k'' hk'' =>
              sidecar_notMem (hks' k'' hk'') hk (hne k'' hk'').symm), hcarried.beside,
            ← hbefore.1.next, ← (hready r (List.mem_of_getElem? hr)).2]
          refine rekeyAll_fresh (?_ : Clear _ (List.map Prod.fst _)) (?_ : _ = some (r.1, _))
          · rwa [List.map_map]
          · rw [List.getElem?_map, hr]
            rfl
        · rw [baseFrom_of_ne d _ (hne k' hk'), ← hnext, hbeside k' hk' i r hr,
            (hothers k' hk').2]

theorem zipIdx_flatMap {d : Disk} {ks : List Kind} (hnodup : ks.Nodup) (n : ℕ)
    (f : (k : Kind) → (Σ _ : ℕ, Content k) → Transfer) :
    (ks.flatMap fun k => (listed d k).map (f k)).zipIdx n =
      ks.flatMap fun k => ((listed d k).map (f k)).zipIdx (baseFrom d n ks k) := by
  induction ks generalizing n with
  | nil => rfl
  | cons k ks ih =>
      obtain ⟨hnew, hnodup'⟩ := List.nodup_cons.mp hnodup
      rw [List.flatMap_cons, List.flatMap_cons, List.zipIdx_append, List.length_map, ih hnodup',
        baseFrom_self]
      congr 1
      refine List.flatMap_congr fun k' hk' => ?_
      rw [baseFrom_of_ne d n (ne_of_mem_of_not_mem hk' hnew).symm]

theorem loaded_beside (d : Disk) (k : Kind) : (loaded d).disk.beside k = d.beside k := by
  have hload := loaded_spec d
  ext1 j
  cases k with
  | sendto => rw [Disk.beside, Disk.beside, hload.frame .prep (by decide)]
  | download => rw [Disk.beside, Disk.beside, hload.frame .paused (by decide)]
  | send => rw [Disk.beside, Disk.beside, hload.frame .share (by decide)]
  | _ => rfl

theorem waiting_loaded {d : Disk} (h : Usual env d) (hspared : Spared d) {k : Kind}
    (hk : k ∈ mains) : Waiting env d k (loaded d) := by
  have hload := loaded_spec d
  refine ⟨fun r hr => ⟨h.good k hk r hr, ?_, ?_, fun hsend => ?_⟩, fun hne j hj => ?_⟩
  · rw [loaded_beside]
    cases k with
    | sendto => exact h.prep r hr
    | _ => trivial
  · have hnone := hspared.upload k hk r hr
    cases k with
    | sendto => rwa [Disk.uploadOf, hload.frame .upload (by decide)]
    | link => rwa [Disk.uploadOf, hload.frame .upload (by decide)]
    | _ => rfl
  · subst hsend
    rw [hload.codes]
    exact hspared.code r hr
  · rw [loaded_beside]
    have hnone : ∀ {k : Kind}, k ≠ .sendto → k ≠ .deposited → j ∉ (listed d k).map (·.1) →
        (d.files k).lookup j = none := by
      intro k h₁ h₂ hj
      have hrows : listed d k = d.rows k := by cases k <;> first | rfl | contradiction
      rw [hrows] at hj
      by_contra hsome
      obtain ⟨c, hc⟩ := Option.ne_none_iff_exists'.mp hsome
      exact hj (List.mem_map_of_mem (f := (·.1)) (Disk.mem_rows.2 hc))
    cases k with
    | sendto => exact absurd rfl hne
    | download => rw [Disk.beside, h.paused j (hnone (by decide) (by decide) hj)]
    | send => rw [Disk.beside, h.share j (hnone (by decide) (by decide) hj)]
    | _ => rfl

theorem transferOf_bare (now : ℕ) (k : Kind) (c : Content k) (b : Beside) :
    { transferOf now k c b with upload := none, code := none } = transferOf now k c b := by
  cases k <;> rfl

/-- The records of a kind that a restart leaves are of the transfers it brought back. -/
theorem perm_left {now n : ℕ} {d : Disk} {k : Kind} {rows : List (Σ _ : ℕ, Content k)}
    {v : ℕ → Option (Content k)} {b : (Σ _ : ℕ, Content k) → Beside}
    (hlookup : (d.files k).lookup =
      rekeyAll none v n (rows.map fun r => (r.1, some (settled k r.2))))
    (hv : ∀ j, v j ≠ none → j ∈ rows.map (·.1)) (hclear : Clear n (rows.map (·.1)))
    (hbeside : ∀ i r, rows[i]? = some r → d.beside k (n + i) = kept now k (b r)) :
    ((d.rows k).map fun r => (transferOf now k r.2 (d.beside k r.1), r.1)).Perm
      ((rows.map fun r => transferOf now k r.2 (b r)).zipIdx n) := by
  refine (List.perm_ext_iff_of_nodup ?_ ?_).2 fun ⟨t, id⟩ => ?_
  · refine List.Nodup.of_map Prod.snd ?_
    rw [List.map_map]
    exact (d.files k).nodupKeys
  · refine List.Nodup.of_map Prod.snd ?_
    rw [List.zipIdx_map_snd]
    exact List.nodup_range'
  · have hkeys : (rows.map fun r => (r.1, some (settled k r.2))).map Prod.fst =
        rows.map (·.1) := List.map_map ..
    have hfound : ∀ c, (d.files k).lookup id = some c ↔
        n ≤ id ∧ ∃ r, rows[id - n]? = some r ∧ settled k r.2 = c := by
      intro c
      have hiff :
          rekeyAll none v n (rows.map fun r => (r.1, some (settled k r.2))) id = some c ↔ _ :=
        rekeyAll_eq_iff (hkeys ▸ hclear) (hkeys ▸ hv) (Option.some_ne_none c)
      rw [← congrFun hlookup id] at hiff
      rw [hiff, List.mk_mem_zipIdx_iff_le_and_getElem?_sub, List.map_map, List.getElem?_map]
      simp only [Option.map_eq_some_iff, Function.comp_apply, Option.some.injEq]
    constructor
    · intro hmem
      obtain ⟨r, hr, heq⟩ := List.mem_map.mp hmem
      obtain ⟨rfl, rfl⟩ := Prod.mk.inj heq
      obtain ⟨hle, r', hr', hset⟩ := (hfound r.2).1 (Disk.mem_rows.1 hr)
      have hside := hbeside _ r' hr'
      rw [Nat.add_sub_cancel' hle] at hside
      rw [List.mk_mem_zipIdx_iff_le_and_getElem?_sub, List.getElem?_map, hr', hside, ← hset,
        transferOf_kept]
      exact ⟨hle, rfl⟩
    · intro hmem
      rw [List.mk_mem_zipIdx_iff_le_and_getElem?_sub, List.getElem?_map] at hmem
      obtain ⟨hle, hget⟩ := hmem
      obtain ⟨r, hr, rfl⟩ := Option.map_eq_some_iff.mp hget
      have hside := hbeside _ r hr
      rw [Nat.add_sub_cancel' hle] at hside
      refine List.mem_map.mpr ⟨⟨id, settled k r.2⟩,
        Disk.mem_rows.2 ((hfound _).2 ⟨hle, r, hr, rfl⟩), ?_⟩
      rw [hside, transferOf_kept]

theorem roundTrip_of_spared {d : Disk} (h : Usual env d) (hspared : Spared d) :
    RoundTrip env d := by
  have hload := loaded_spec d
  have hgone := resumed_gone h.good
  have hnodup : ∀ k ∈ mains, ((listed d k).map (·.1)).Nodup := fun k hk => (hload.known k hk).nodup
  have hbase : ∀ k, baseFrom d (loaded d).next mains k = base d k := by
    intro k
    rw [hload.next]
    rfl
  have hran := ran mains (w := loaded d) (fun _ hk => hk) (by decide) hload.fails h.good
  obtain ⟨hrestored, hbeside⟩ := phases_carried (fun _ hk => hk) apart_mains hload.fails h.good
    hnodup (fun k hk => waiting_loaded h hspared hk)
    (fun k hk => by rw [hbase]; exact hspared.clear k hk)
  rw [← resumeIncomplete_eq h.good] at hran hrestored hbeside
  set w := resumeIncomplete env (start d) with hw
  have hbare : ∀ k ∈ mains, ∀ r ∈ listed d k,
      d.uploadOf k r.1 = none ∧ d.codeOf k r.1 = none := by
    refine fun k hk r hr => ⟨hspared.upload k hk r hr, ?_⟩
    cases k with
    | send => exact hspared.code r hr
    | _ => rfl
  rw [hload.restored, List.nil_append, hload.next] at hrestored
  simp only [loaded_beside] at hrestored hbeside
  refine ⟨?_, ?_, fun r hr s hs hmem => absurd hmem (hspared.stage r hr s hs)⟩
  · -- the transfers are those on disk, in the order of the loops
    rw [hrestored, List.zipIdx_map_fst, records, List.map_flatMap]
    refine List.Perm.of_eq (List.flatMap_congr fun k hk => ?_)
    rw [List.map_map]
    refine List.map_congr_left fun r hr => ?_
    obtain ⟨hupload, hcode⟩ := hbare k hk r hr
    simp only [Function.comp_apply, hupload, hcode, transferOf_bare]
  · rw [← hw, hrestored, zipIdx_flatMap (by decide)]
    refine List.Perm.flatMap_left _ fun k hk => ?_
    have hlookup := hran.lookup k hk
    have hside := hbeside k hk
    rw [hbase] at hlookup hside
    have hempty : ∀ j, w.disk.uploadOf k j = none ∧ w.disk.codeOf k j = none := by
      intro j
      have hupload := hgone .upload (by decide)
      have hcode := hgone .code (by decide)
      cases k <;> simp [Disk.uploadOf, Disk.codeOf, hupload, hcode]
    simp only [hempty, transferOf_bare]
    rw [listed_eq_rows (hgone _ (by decide)) (hgone _ (by decide))]
    refine perm_left hlookup (fun j hj => ?_) (hspared.clear k hk) hside
    obtain ⟨c, hc⟩ := Option.ne_none_iff_exists'.mp hj
    exact List.mem_map_of_mem (f := (·.1)) (((hload.known k hk).lookup j c).2 hc)

/-- A restart brings back and leaves what there was exactly where it is spared. -/
theorem roundTrip_iff {d : Disk} (h : Usual env d) : RoundTrip env d ↔ Spared d :=
  ⟨spared_of_roundTrip h, roundTrip_of_spared h⟩

/-! ### A disk that is spared, and one that is not -/

def noFiles : Disk := ⟨fun _ => ∅, ∅⟩

/-- Our own relay, and public ids of the right length. -/
def atHome : Env where
  now := 100
  relay := some "https://relay.example"
  publicId b := if b.length = 64 then some b else none
  chunkTicket _ := none
  payloadStamp _ := none
  linkSeal _ := none

/-- A download that the user paused. -/
def pausedDownload : Disk :=
  (noFiles.put .download 3 ⟨"arvcabc", "/tmp/out", "f", 10⟩).put .paused 3 .user

theorem roundTrip_pausedDownload : RoundTrip atHome pausedDownload := by
  refine (roundTrip_iff ⟨fun k hk r hr => ?_, fun r hr => ?_, fun id hid => ?_, fun _ _ => rfl⟩).2
    ⟨by decide, fun k hk r hr => ?_, fun r hr => ?_, fun r hr => ?_⟩
  · simp only [mains, List.mem_cons, List.not_mem_nil, or_false] at hk
    rcases hk with rfl | rfl | rfl | rfl | rfl | rfl
    case inr.inr.inr.inr.inl =>
      obtain rfl : r = ⟨3, ⟨"arvcabc", "/tmp/out", "f", 10⟩⟩ := List.mem_singleton.mp hr
      show ChunkTicket.looksLike "arvcabc" = true
      decide
    all_goals cases hr
  · cases hr
  · by_cases h : id = 3
    · subst h
      cases hid
    · rw [pausedDownload, Disk.files_put_self, Table.lookup_insert_eq, if_neg h]
      rfl
  · simp only [mains, List.mem_cons, List.not_mem_nil, or_false] at hk
    rcases hk with rfl | rfl | rfl | rfl | rfl | rfl <;> rfl
  · cases hr
  · cases hr

def deposit (name : String) : DepositedRecord :=
  ⟨[], name, 10, "https://relay.example", "c", 200, "rv", "", "", "https://relay.example"⟩

/-- Two deposits; the one listed later has an id that the first is given. -/
def twoDeposits : Disk :=
  (noFiles.put .deposited 1 (deposit "b")).put .deposited 5 (deposit "a")

theorem not_roundTrip_twoDeposits : Usual atHome twoDeposits ∧ ¬ RoundTrip atHome twoDeposits := by
  have husual : Usual atHome twoDeposits := by
    refine ⟨fun k hk r hr => ?_, fun r hr => ?_, fun _ _ => rfl, fun _ _ => rfl⟩
    · simp only [mains, List.mem_cons, List.not_mem_nil, or_false] at hk
      rcases hk with rfl | rfl | rfl | rfl | rfl | rfl
      case inl =>
        have hr' : r ∈ [(⟨5, deposit "a"⟩ : Σ _ : ℕ, DepositedRecord), ⟨1, deposit "b"⟩] := hr
        simp only [List.mem_cons, List.not_mem_nil, or_false] at hr'
        rcases hr' with rfl | rfl <;> exact ⟨by decide, rfl⟩
      all_goals cases hr
    · cases hr
  refine ⟨husual, fun hround => ?_⟩
  have hclear := (spared_of_roundTrip husual hround).clear .deposited (by decide)
  revert hclear
  decide

end Arvolo.Manager.Restart
