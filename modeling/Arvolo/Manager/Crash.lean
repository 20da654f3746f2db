import Arvolo.Manager.RoundTrip

/-!
A restart that dies half way, or one of whose writes fails.

Every restore removes a record before it writes it down again, so right after the first
removal the transfer is on disk nowhere. Up to there only files were unlinked that no transfer
comes back from: what is on disk is less than what was there at the start.
-/

namespace Arvolo.Manager.Restart

open Lib

/-- Whether a start that finds this record brings something back from it. -/
def restorable (env : Env) (d : Disk) : (k : Kind) → ℕ → Content k → Bool
  | .deposited, _, c => env.now < c.expires
  | .sendto, _, c => (env.publicId c.recipient).isSome && (c.relay.or env.relay).isSome
  | .link, id, c =>
      ((((d.files .upload).lookup id).bind (UploadRecord.resumes env c.payload)).bind
        (·.sealing.link?)).isSome || (env.linkSeal c.payload).isSome
  | .pendingShare, _, _ => true
  | .download, _, _ => true
  | .send, _, c => c.serves env
  | .code, id, c => c.ownerToken.length = 32 && ((d.files .send).lookup id).any (·.serves env)
  | _, _, _ => false

/-- What a restore writes down of a record. -/
def rewritten (env : Env) : (k : Kind) → Content k → Content k
  | .deposited, c => { c with recipient := (env.publicId c.recipient).getD [] }
  | .sendto, c => { c.settled with recipient := (env.publicId c.recipient).getD c.recipient }
  | .pendingShare, c => { c with code := c.code.filter (·.ownerToken.length = 32) }
  | _, c => c

/-- The records that something comes back from. -/
def owedRows (env : Env) (d : Disk) : List ((k : Kind) × (Σ _ : ℕ, Content k)) :=
  (.code :: mains).flatMap fun k =>
    ((listed d k).filter fun r => restorable env d k r.1 r.2).map (Sigma.mk k)

/-- The transfers and codes on disk that have neither ended nor been given up, without the ids
of their records. -/
def owed (env : Env) (d : Disk) : List ((k : Kind) × Content k) :=
  (owedRows env d).map fun x => ⟨x.1, rewritten env x.1 x.2.2⟩

def Safe (env : Env) (d d' : Disk) : Prop := (owed env d).Subperm (owed env d')

def replay (d : Disk) (ops : List Op) : Disk := ops.foldl Disk.run d

/-- Wherever the process dies, and whichever write fails, nothing is lost. -/
structure CrashSafe (env : Env) (d : Disk) : Prop where
  dies : ∀ n, Safe env d (replay d ((resumeIncomplete env (start d)).did.take n))
  fails : ∀ n miss, Safe env d
    (resumeIncomplete env { start d with fails := some (n, miss) }).disk

/-! ### The changes of the disk, one after the other -/

/-- `w'` comes after `w`: what it did to the disk beyond `w` is in its log. -/
structure Extends (w w' : World) : Prop where
  fails : w'.fails = none
  did : ∃ ops, w'.did = w.did ++ ops ∧ w'.disk = replay w.disk ops

variable {env : Env} {w w' w'' : World}

theorem Extends.of_eq (h : w.fails = none) (hfails : w'.fails = w.fails) (hdid : w'.did = w.did)
    (hdisk : w'.disk = w.disk) : Extends w w' :=
  ⟨hfails.trans h, [], by rw [hdid, List.append_nil], hdisk⟩

theorem Extends.refl (h : w.fails = none) : Extends w w := .of_eq h rfl rfl rfl

theorem Extends.trans (h : Extends w w') (h' : Extends w' w'') : Extends w w'' := by
  obtain ⟨ops, hdid, hdisk⟩ := h.did
  obtain ⟨ops', hdid', hdisk'⟩ := h'.did
  refine ⟨h'.fails, ops ++ ops', ?_, ?_⟩
  · rw [hdid', hdid, List.append_assoc]
  · rw [hdisk', hdisk, replay, replay, replay, List.foldl_append]

theorem Extends.act (h : Extends w w') (op : Op) : Extends w (w'.act op) :=
  h.trans ⟨h.fails, [op], rfl, World.disk_act h.fails⟩

theorem Extends.unlink (h : Extends w w') (k : Kind) (id : ℕ) : Extends w (w'.unlink k id) :=
  h.act _

theorem Extends.put (h : Extends w w') (k : Kind) (id : ℕ) (c : Content k) :
    Extends w (w'.put k id c) :=
  h.act _

theorem Extends.register (h : Extends w w') : Extends w w'.register :=
  h.trans (.of_eq h.fails rfl rfl rfl)

theorem Extends.bring (h : Extends w w') (id : ℕ) (t : Transfer) : Extends w (w'.bring id t) :=
  h.trans (.of_eq h.fails rfl rfl rfl)

theorem Extends.removeDownload (h : Extends w w') (id : ℕ) : Extends w (w'.removeDownload id) :=
  (h.unlink _ _).unlink _ _

theorem Extends.removeSend (h : Extends w w') (id : ℕ) : Extends w (w'.removeSend id) := by
  unfold World.removeSend
  split
  · exact (h.act _).unlink _ _
  · exact h.unlink _ _

theorem Extends.finish (h : Extends w w') (id : ℕ) : Extends w (w'.finish id) :=
  ((((((h.removeDownload id).removeSend id).unlink _ _).unlink _ _).unlink _ _).unlink _ _).unlink
    _ _

theorem Extends.remember (h : Extends w w') (id : ℕ) (u : Resumable) (payload : String)
    (live : Bool) : Extends w (w'.remember env id u payload live) := by
  rcases World.remember_cases (w := w') with hrem | ⟨_, hrem⟩ <;> rw [hrem]
  · exact h
  · exact h.put _ _ _

theorem Extends.foldl {β : Type} {f : World → β → World}
    (hf : ∀ w', w'.fails = none → ∀ b, Extends w' (f w' b)) (h : Extends w w') (l : List β) :
    Extends w (l.foldl f w') := by
  induction l generalizing w' with
  | nil => exact h
  | cons b l ih => exact ih (h.trans (hf w' h.fails b))

/-- Where the main record of a kind has just been removed. -/
def removed (w : World) : Kind → ℕ → World
  | .sendto, id => (w.unlink .prep id).unlink .sendto id
  | .download, id => w.removeDownload id
  | .send, id => w.removeSend id
  | k, id => w.unlink k id

theorem extends_removed (h : w.fails = none) (k : Kind) (id : ℕ) : Extends w (removed w k id) := by
  have hrefl := Extends.refl h
  cases k with
  | sendto => exact (hrefl.unlink _ _).unlink _ _
  | download => exact hrefl.removeDownload _
  | send => exact hrefl.removeSend _
  | _ => exact hrefl.unlink _ _

/-- Every restore begins with that removal. -/
theorem extends_restore (env : Env) (h : w.fails = none) (k : Kind) (r : Σ _ : ℕ, Content k)
    (hk : k ∈ mains) : Extends (removed w k r.1) (w.restore env k r) := by
  have hrefl := Extends.refl (extends_removed h k r.1).fails
  simp only [mains, List.mem_cons, List.not_mem_nil, or_false] at hk
  rcases hk with rfl | rfl | rfl | rfl | rfl | rfl
  · change Extends _ (w.restoreDeposited env r)
    unfold World.restoreDeposited
    split_ifs
    · exact hrefl.unlink _ _
    · exact (hrefl.register.put _ _ _).bring _ _
  · change Extends _ (w.restoreSendto env r)
    unfold World.restoreSendto World.takeUpload
    split
    · refine ((?_ : Extends _ _).put _ _ _).bring _ _
      have htake := hrefl.register.unlink .upload r.1
      have hrefile : ∀ o, Extends (removed w .sendto r.1)
          (((removed w .sendto r.1).register.unlink .upload r.1).refile env
            (removed w .sendto r.1).next r.2.payload o) := by
        intro o
        cases o with
        | none => exact htake
        | some u => exact htake.remember _ _ _ _
      unfold World.rekeyPrep
      split
      · exact (hrefile _).put _ _ _
      · exact hrefile _
    · exact hrefl
  · change Extends _ (w.restoreLink env r)
    unfold World.restoreLink World.takeUpload
    have htake := hrefl.unlink .upload r.1
    simp only
    split
    · exact ((htake.register.put _ _ _).remember _ _ _ _).bring _ _
    · exact htake.register.finish _
  · exact (hrefl.register.put _ _ _).bring _ _
  · change Extends _ (w.restoreDownload r)
    unfold World.restoreDownload World.restorePausedDownload World.startDownload
    split_ifs
    · exact ((hrefl.register.put _ _ _).put _ _ _).bring _ _
    · exact (hrefl.register.put _ _ _).bring _ _
    · exact hrefl.register.bring _ _
  · change Extends _ (w.restoreSend env r)
    unfold World.restoreSend
    split_ifs
    · have hput := ((hrefl.unlink .share r.1).register.put .send (removed w .send r.1).next r.2).put
        .share (removed w .send r.1).next
        ((((w.disk.files .share).lookup r.1).getD {}).settled env.now)
      exact hput.trans (.of_eq hput.fails rfl rfl rfl)
    · exact hrefl.unlink _ _

theorem extends_migrate (old new : Kind) (convert : Content old → Content new)
    (h : w.fails = none) : Extends w (w.migrate old new convert).2 := by
  have hrun : ∀ (rows : List (Σ _ : ℕ, Content old)) (out : List (Σ _ : ℕ, Content new))
      (w' : World), Extends w w' →
      Extends w (rows.foldl (World.migrateOne old new convert) (out, w')).2 := by
    intro rows
    induction rows with
    | nil => exact fun _ _ h => h
    | cons r rows ih =>
        intro out w' h
        rw [List.foldl_cons]
        unfold World.migrateOne
        split_ifs
        · exact ih _ _ (h.unlink _ _)
        · exact ih _ _ ((h.put _ _ _).unlink _ _)
  exact hrun _ _ _ (.refl h)

theorem extends_takeCodes (h : w.fails = none) : Extends w w.takeCodes := by
  have hfold := (Extends.refl h).foldl (fun _ h' (r : Σ _ : ℕ, CodeRecord) =>
    (Extends.refl h').unlink .code r.1) (w.disk.rows .code)
  exact hfold.trans (.of_eq hfold.fails rfl rfl rfl)

theorem extends_sweepPreps (h : w.fails = none) (sendtos : List (Σ _ : ℕ, SendToRecord)) :
    Extends w (w.sweepPreps sendtos) :=
  (Extends.refl h).foldl (fun _ h' r => by
    split_ifs
    · exact .refl h'
    · exact (Extends.refl h').unlink _ _) _

theorem extends_sweepUploads (h : w.fails = none) : Extends w w.sweepUploads :=
  (Extends.refl h).foldl (fun _ h' _ => (Extends.refl h').unlink _ _) _

theorem extends_loop (env : Env) {k : Kind} (hk : k ∈ mains) (h : w.fails = none)
    (rows : List (Σ _ : ℕ, Content k)) :
    Extends w (rows.foldl (fun w r => w.restore env k r) w) :=
  (Extends.refl h).foldl (fun _ h' r =>
    (extends_removed h' k r.1).trans (extends_restore env h' k r hk)) rows

/-! ### Disks with less on them -/

/-- Nothing is there that a start on `d` would not find. -/
structure Below (d : Disk) (w : World) : Prop where
  fails : w.fails = none
  gone : ∀ k ∈ [Kind.legacySendto, .legacyDeposited], w.disk.files k = ∅
  rows : ∀ k ∈ Kind.code :: mains, ∀ r ∈ w.disk.rows k, r ∈ listed d k
  upload : ∀ j u, (w.disk.files .upload).lookup j = some u →
    (d.files .upload).lookup j = some u

variable {d : Disk}

theorem Below.of_eq (h : Below d w) (hfails : w'.fails = w.fails)
    (hfiles : w'.disk.files = w.disk.files) : Below d w' :=
  ⟨hfails.trans h.fails, fun k hk => by rw [hfiles, h.gone k hk],
    fun k hk r hr => h.rows k hk r (by rwa [Disk.rows, hfiles] at hr), fun j u hu =>
    h.upload j u (by rwa [hfiles] at hu)⟩

theorem Below.unlink (h : Below d w) (k : Kind) (id : ℕ) : Below d (w.unlink k id) := by
  have hless : ∀ k', ((w.unlink k id).disk.files k').entries ⊆ (w.disk.files k').entries := by
    intro k' r hr
    rw [World.disk_unlink h.fails] at hr
    by_cases hk : k' = k
    · subst hk
      rw [Disk.files_unlink_self] at hr
      exact Table.mem_of_mem_erase hr
    · rwa [Disk.files_unlink_of_ne hk] at hr
  refine ⟨h.fails, fun k' hk' => ?_, fun k' hk' r hr => h.rows k' hk' r (hless k' hr),
    fun j u hu => h.upload j u ?_⟩
  · have hnil := hless k'
    rw [h.gone k' hk'] at hnil
    exact AList.ext (List.subset_nil.mp hnil)
  · exact AList.mem_lookup_iff.2 (hless .upload (AList.mem_lookup_iff.1 hu))

theorem Below.register (h : Below d w) : Below d w.register := h.of_eq rfl rfl

theorem Below.unlinkStage (h : Below d w) (path : String) : Below d (w.act (.unlinkStage path)) :=
  h.of_eq rfl (by rw [World.disk_act h.fails]; rfl)

theorem Below.removeSend (h : Below d w) (id : ℕ) : Below d (w.removeSend id) := by
  unfold World.removeSend
  split
  · exact (h.unlinkStage _).unlink _ _
  · exact h.unlink _ _

theorem Below.removed (h : Below d w) (k : Kind) (id : ℕ) : Below d (removed w k id) := by
  cases k with
  | sendto => exact (h.unlink _ _).unlink _ _
  | download => exact (h.unlink _ _).unlink _ _
  | send => exact h.removeSend _
  | _ => exact h.unlink _ _

theorem Below.finish (h : Below d w) (id : ℕ) : Below d (w.finish id) :=
  (((((((h.unlink _ _).unlink _ _).removeSend id).unlink _ _).unlink _ _).unlink _ _).unlink
    _ _).unlink _ _

theorem Below.foldl {β : Type} {f : World → β → World} (hf : ∀ w, Below d w → ∀ b, Below d (f w b))
    (h : Below d w) (l : List β) : Below d (l.foldl f w) := by
  induction l generalizing w with
  | nil => exact h
  | cons b l ih => exact ih (hf w h b)

/-- With less on disk no more comes back. -/
theorem Below.restorable (h : Below d w) {k : Kind} (hk : k ∈ Kind.code :: mains) {id : ℕ}
    {c : Content k} (hc : restorable env w.disk k id c = true) :
    restorable env d k id c = true := by
  cases k with
  | link =>
      simp only [Restart.restorable, Bool.or_eq_true] at hc ⊢
      refine hc.imp_left fun hsome => ?_
      cases hu : (w.disk.files .upload).lookup id with
      | none => simp [hu] at hsome
      | some u => rwa [h.upload id u hu, ← hu]
  | code =>
      simp only [Restart.restorable, Bool.and_eq_true] at hc ⊢
      refine hc.imp_right fun hsome => ?_
      cases hs : (w.disk.files .send).lookup id with
      | none => simp [hs] at hsome
      | some s =>
          have hrow := h.rows .send (by decide) ⟨id, s⟩ (Disk.mem_rows.2 hs)
          rwa [Disk.mem_rows.1 hrow, ← hs]
  | _ => exact hc

/-- A record that brings nothing back is unlinked, and nothing is written. -/
theorem Below.restore (h : Below d w) {k : Kind} (hk : k ∈ mains) {r : Σ _ : ℕ, Content k}
    (hr : Restart.restorable env d k r.1 r.2 = false) : Below d (w.restore env k r) := by
  have hremoved := h.removed k r.1
  simp only [mains, List.mem_cons, List.not_mem_nil, or_false] at hk
  rcases hk with rfl | rfl | rfl | rfl | rfl | rfl
  · change Below d (w.restoreDeposited env r)
    unfold World.restoreDeposited
    rw [if_pos (by simpa [Restart.restorable] using hr)]
    exact hremoved.unlink _ _
  · change Below d (w.restoreSendto env r)
    unfold World.restoreSendto
    split
    · rename_i recipient relay hrecipient hrelay
      simp [Restart.restorable, hrecipient, hrelay] at hr
    · exact hremoved
  · change Below d (w.restoreLink env r)
    unfold World.restoreLink World.takeUpload
    have htake := hremoved.unlink .upload r.1
    simp only
    split
    · rename_i s hs
      have hsome : Restart.restorable env w.disk .link r.1 r.2 = true := by
        have hor := congrArg Option.isSome hs
        rw [Option.isSome_or] at hor
        simpa [Restart.restorable, World.disk_unlink h.fails] using hor
      rw [h.restorable (by decide) hsome] at hr
      cases hr
    · exact htake.register.finish _
  · simp [Restart.restorable] at hr
  · simp [Restart.restorable] at hr
  · change Below d (w.restoreSend env r)
    unfold World.restoreSend
    rw [if_neg (by simpa [Restart.restorable] using hr)]
    exact hremoved.unlink _ _

/-! ### The moment at which a record is missing -/

theorem nodup_owedRows (h : ∀ k ∈ Kind.code :: mains, listed d k = d.rows k) :
    (owedRows env d).Nodup := by
  rw [owedRows, List.nodup_flatMap]
  refine ⟨fun k hk => ?_, ?_⟩
  · have hrows : (d.rows k).Nodup := List.Nodup.of_map _ (d.files k).nodupKeys
    rw [h k hk]
    exact List.Nodup.map sigma_mk_injective (hrows.filter _)
  · have hkinds : (Kind.code :: mains).Pairwise (· ≠ ·) := by decide
    refine List.Pairwise.imp ?_ hkinds
    intro k k' hne x hx hx'
    obtain ⟨r, -, rfl⟩ := List.mem_map.mp hx
    obtain ⟨r', -, heq⟩ := List.mem_map.mp hx'
    exact hne (congrArg Sigma.fst heq).symm

theorem mem_owedRows {k : Kind} {r : Σ _ : ℕ, Content k} :
    (⟨k, r⟩ : (k : Kind) × (Σ _ : ℕ, Content k)) ∈ owedRows env d ↔
      k ∈ Kind.code :: mains ∧ r ∈ listed d k ∧ restorable env d k r.1 r.2 = true := by
  rw [owedRows, List.mem_flatMap]
  constructor
  · rintro ⟨k', hk', hmem⟩
    obtain ⟨r', hr', heq⟩ := List.mem_map.mp hmem
    cases heq
    exact ⟨hk', List.mem_filter.mp hr'⟩
  · rintro ⟨hk, hr⟩
    exact ⟨k, hk, List.mem_map.mpr ⟨r, List.mem_filter.mpr hr, rfl⟩⟩

/-- A record that something comes back from is not there, and nothing is there for it. -/
theorem Below.not_safe (h : Below d w) {k : Kind} (hk : k ∈ mains) {r : Σ _ : ℕ, Content k}
    (hr : r ∈ listed d k) (hrest : Restart.restorable env d k r.1 r.2 = true)
    (hgone : r ∉ w.disk.rows k) : ¬ Safe env d w.disk := by
  intro hsafe
  have hlisted := fun k => listed_eq_rows (h.gone .legacySendto (by decide))
    (h.gone .legacyDeposited (by decide)) k
  have hrows : (⟨k, r⟩ :: owedRows env w.disk).Subperm (owedRows env d) := by
    refine List.subperm_of_subset (List.nodup_cons.mpr ⟨?_, nodup_owedRows fun k _ => hlisted k⟩) ?_
    · rw [mem_owedRows, hlisted]
      exact fun hmem => hgone hmem.2.1
    · rintro ⟨k', r'⟩ hmem
      rcases List.mem_cons.mp hmem with heq | hmem
      · rw [heq]
        exact mem_owedRows.2 ⟨List.mem_cons_of_mem _ hk, hr, hrest⟩
      · obtain ⟨hk', hr', hrest'⟩ := mem_owedRows.1 hmem
        rw [hlisted] at hr'
        exact mem_owedRows.2 ⟨hk', h.rows k' hk' r' hr', h.restorable hk' hrest'⟩
  have hless := hrows.length_le
  have hmore := hsafe.length_le
  rw [owed, owed, List.length_map, List.length_map] at hmore
  rw [List.length_cons] at hless
  omega

/-- At some moment on the way from `w` to `w'` a transfer is lost. -/
def Loses (env : Env) (d : Disk) (w w' : World) : Prop :=
  ∃ c, Extends w c ∧ Extends c w' ∧ ¬ Safe env d c.disk

theorem Loses.after {v : World} (hext : Extends v w) (h : Loses env d w w') : Loses env d v w' := by
  obtain ⟨c, hc, hc', hlost⟩ := h
  exact ⟨c, hext.trans hc, hc', hlost⟩

theorem Loses.before {v : World} (h : Loses env d w w') (hext : Extends w' v) :
    Loses env d w v := by
  obtain ⟨c, hc, hc', hlost⟩ := h
  exact ⟨c, hc, hc'.trans hext, hlost⟩

/-- Nothing comes back from the records of a kind. -/
def Barren (env : Env) (d : Disk) (k : Kind) : Prop :=
  ∀ r ∈ listed d k, restorable env d k r.1 r.2 = false

theorem lookup_removed (h : w.fails = none) {k : Kind} (hk : k ∈ mains) (id : ℕ) :
    ((removed w k id).disk.files k).lookup id = none := by
  simp only [mains, List.mem_cons, List.not_mem_nil, or_false] at hk
  rcases hk with rfl | rfl | rfl | rfl | rfl | rfl
  case inr.inr.inr.inr.inr =>
    change ((w.removeSend id).disk.files .send).lookup id = none
    rw [disk_removeSend h, Disk.files_unlink_self, AList.lookup_erase]
  all_goals simp [removed, World.removeDownload, World.disk_unlink, h]

/-- The loop over the records of a kind loses a transfer, or they bring nothing back. -/
theorem loses_or_below (env : Env) (h : Below d w) {k : Kind} (hk : k ∈ mains)
    {rows : List (Σ _ : ℕ, Content k)} (hrows : ∀ r ∈ rows, r ∈ listed d k) :
    Loses env d w (rows.foldl (fun w r => w.restore env k r) w) ∨
      (Below d (rows.foldl (fun w r => w.restore env k r) w) ∧
        ∀ r ∈ rows, restorable env d k r.1 r.2 = false) := by
  induction rows generalizing w with
  | nil => exact .inr ⟨h, by simp⟩
  | cons r rows ih =>
      obtain ⟨hr, hrows'⟩ := List.forall_mem_cons.mp hrows
      rw [List.foldl_cons]
      have hstep := extends_restore env h.fails k r hk
      cases hrest : restorable env d k r.1 r.2 with
      | true =>
          refine .inl ⟨removed w k r.1, extends_removed h.fails k r.1,
            hstep.trans (extends_loop env hk hstep.fails rows),
            (h.removed k r.1).not_safe hk hr hrest fun hmem => ?_⟩
          have hsome := Disk.mem_rows.1 hmem
          rw [lookup_removed h.fails hk] at hsome
          cases hsome
      | false =>
          rcases ih (h.restore hk hrest) hrows' with hlost | ⟨hbelow, hbarren⟩
          · exact .inl (hlost.after ((extends_removed h.fails k r.1).trans hstep))
          · exact .inr ⟨hbelow, List.forall_mem_cons.mpr ⟨hrest, hbarren⟩⟩

/-- The same for a loop over the records that are still there: one that is not is lost. -/
theorem loses_or_barren (env : Env) (h : Below d w) {k : Kind} (hk : k ∈ mains) :
    Loses env d w ((w.disk.rows k).foldl (fun w r => w.restore env k r) w) ∨
      (Below d ((w.disk.rows k).foldl (fun w r => w.restore env k r) w) ∧ Barren env d k) := by
  rcases loses_or_below env h hk (h.rows k (List.mem_cons_of_mem _ hk)) with hlost | ⟨hbelow, hnone⟩
  · exact .inl hlost
  · by_cases hbarren : Barren env d k
    · exact .inr ⟨hbelow, hbarren⟩
    · obtain ⟨r, hr, hrest⟩ : ∃ r ∈ listed d k, restorable env d k r.1 r.2 = true := by
        simpa [Barren] using hbarren
      refine .inl ⟨w, .refl h.fails, extends_loop env hk h.fails _,
        h.not_safe hk hr hrest fun hmem => ?_⟩
      rw [hnone r hmem] at hrest
      cases hrest

theorem below_loaded (d : Disk) : Below d (loaded d) := by
  have hload := loaded_spec d
  refine ⟨hload.fails, fun k hk => hload.gone k ?_, fun k hk r hr => ?_, fun j u hu => ?_⟩
  · simp only [List.mem_cons, List.not_mem_nil, or_false] at hk ⊢
    tauto
  · rcases List.mem_cons.mp hk with rfl | hk
    · rw [Disk.rows, hload.gone .code (by decide)] at hr
      cases hr
    · exact ((hload.known k hk).lookup r.1 r.2).2 (Disk.mem_rows.1 hr)
  · rwa [hload.frame .upload (by decide)] at hu

theorem extends_loaded (d : Disk) : Extends (start d) (loaded d) := by
  have hsendtos := extends_migrate (w := start d) .legacySendto .sendto LegacySendTo.toRecord rfl
  have hdeposits := extends_migrate (w := (start d).loadSendtos.2) .legacyDeposited .deposited
    LegacyDeposited.toRecord hsendtos.fails
  exact (hsendtos.trans hdeposits).trans (extends_takeCodes hdeposits.fails)

theorem Below.sweepPreps (h : Below d w) (sendtos : List (Σ _ : ℕ, SendToRecord)) :
    Below d (w.sweepPreps sendtos) :=
  h.foldl (fun w h r => by
    split_ifs
    · exact h
    · exact h.unlink _ _) _

theorem Below.sweepUploads (h : Below d w) : Below d w.sweepUploads :=
  h.foldl (fun _ h _ => h.unlink _ _) _

/-- Either a transfer is lost at some moment of the restart, or no record brings anything back. -/
theorem loses_or_all_barren (env : Env) (d : Disk) :
    Loses env d (start d) (resumeIncomplete env (start d)) ∨ ∀ k ∈ mains, Barren env d k := by
  set w₁ := (listed d .deposited).foldl (fun w r => w.restore env .deposited r) (loaded d) with hw₁
  set w₂ := (listed d .sendto).foldl (fun w r => w.restore env .sendto r)
    (w₁.sweepPreps (listed d .sendto)) with hw₂
  set w₃ := (w₂.disk.rows .link).foldl (fun w r => w.restore env .link r) w₂ with hw₃
  set w₄ := (w₃.disk.rows .pendingShare).foldl (fun w r => w.restore env .pendingShare r) w₃
    with hw₄
  set w₅ := (listed d .download).foldl (fun w r => w.restore env .download r) w₄.sweepUploads
    with hw₅
  set w₆ := (listed d .send).foldl (fun w r => w.restore env .send r) w₅ with hw₆
  have hend : resumeIncomplete env (start d) = w₆ := by
    rw [hw₆, hw₅, hw₄, hw₃, hw₂, hw₁, ← loadDepositeds_fst]
    rfl
  -- the way from the start to each loop
  have p₀ := extends_loaded d
  have l₁ := extends_loop env (k := .deposited) (by decide) p₀.fails (listed d .deposited)
  have s₁ := extends_sweepPreps l₁.fails (listed d .sendto)
  have l₂ := extends_loop env (k := .sendto) (by decide) s₁.fails (listed d .sendto)
  have l₃ := extends_loop env (k := .link) (by decide) l₂.fails (w₂.disk.rows .link)
  have l₄ := extends_loop env (k := .pendingShare) (by decide) l₃.fails
    (w₃.disk.rows .pendingShare)
  have s₄ := extends_sweepUploads l₄.fails
  have l₅ := extends_loop env (k := .download) (by decide) s₄.fails (listed d .download)
  have p₂ := (p₀.trans l₁).trans (s₁.trans l₂)
  have p₄ := p₂.trans (l₃.trans l₄)
  -- and from each loop to the end
  have e₅ := extends_loop env (k := .send) (by decide) l₅.fails (listed d .send)
  have e₄ := s₄.trans (l₅.trans e₅)
  have e₂ := l₃.trans (l₄.trans e₄)
  have hall : ∀ {k : Kind}, ∀ r ∈ listed d k, r ∈ listed d k := fun _ hr => hr
  rw [hend]
  rcases loses_or_below env (below_loaded d) (k := .deposited) (by decide) hall with
    hlost | ⟨hb₁, hdeposited⟩
  · exact .inl ((hlost.after p₀).before (s₁.trans (l₂.trans e₂)))
  rcases loses_or_below env (hb₁.sweepPreps (listed d .sendto)) (k := .sendto)
    (by decide) hall with hlost | ⟨hb₂, hsendto⟩
  · exact .inl ((hlost.after ((p₀.trans l₁).trans s₁)).before e₂)
  rcases loses_or_barren env hb₂ (k := .link) (by decide) with hlost | ⟨hb₃, hlink⟩
  · exact .inl ((hlost.after p₂).before (l₄.trans e₄))
  rcases loses_or_barren env hb₃ (k := .pendingShare) (by decide) with
    hlost | ⟨hb₄, hpending⟩
  · exact .inl ((hlost.after (p₂.trans l₃)).before e₄)
  rcases loses_or_below env hb₄.sweepUploads (k := .download) (by decide) hall with
    hlost | ⟨hb₅, hdownload⟩
  · exact .inl ((hlost.after (p₄.trans s₄)).before e₅)
  rcases loses_or_below env hb₅ (k := .send) (by decide) hall with hlost | ⟨-, hsend⟩
  · exact .inl (hlost.after (p₄.trans (s₄.trans l₅)))
  refine .inr fun k hk => ?_
  simp only [mains, List.mem_cons, List.not_mem_nil, or_false] at hk
  rcases hk with rfl | rfl | rfl | rfl | rfl | rfl
  exacts [hdeposited, hsendto, hlink, hpending, hdownload, hsend]

theorem owed_eq_nil (h : ∀ k ∈ mains, Barren env d k) : owed env d = [] := by
  rw [owed, List.map_eq_nil_iff, List.eq_nil_iff_forall_not_mem]
  rintro ⟨k, r⟩ hmem
  obtain ⟨hk, hr, hrest⟩ := mem_owedRows.1 hmem
  rcases List.mem_cons.mp hk with rfl | hk
  · -- a code comes back with its send
    simp only [restorable, Bool.and_eq_true, Option.any_eq_true] at hrest
    obtain ⟨-, s, hs, hserves⟩ := hrest
    have hnone := h .send (by decide) ⟨r.1, s⟩ (Disk.mem_rows.2 hs)
    exact Bool.false_ne_true (hnone.symm.trans hserves)
  · rw [h k hk r hr] at hrest
    cases hrest

/-- A restart that dies or cannot write loses nothing exactly where there is nothing to lose. -/
theorem crashSafe_iff (env : Env) (d : Disk) : CrashSafe env d ↔ owed env d = [] := by
  constructor
  · intro hsafe
    rcases loses_or_all_barren env d with ⟨c, hc, hc', hlost⟩ | hbarren
    · refine absurd ?_ hlost
      obtain ⟨ops, hdid, hdisk⟩ := hc.did
      obtain ⟨more, hmore, -⟩ := hc'.did
      have hthere := hsafe.dies ops.length
      rw [hmore, hdid, show (start d).did = [] from rfl, List.nil_append, List.take_left] at hthere
      rwa [hdisk]
    · exact owed_eq_nil hbarren
  · intro hnil
    have hany : ∀ d', Safe env d d' := fun d' => by
      rw [Safe, hnil]
      exact List.nil_subperm
    exact ⟨fun _ => hany _, fun _ _ => hany _⟩

/-- After the first change of the disk one of the two deposits is nowhere. -/
theorem not_crashSafe_twoDeposits : ¬ CrashSafe atHome twoDeposits := by
  intro hsafe
  have hless := (hsafe.dies 1).length_le
  revert hless
  decide

end Arvolo.Manager.Restart
