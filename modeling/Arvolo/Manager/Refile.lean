import Arvolo.Lib.Rekey
import Arvolo.Manager.Reload

/-!
What the restore of a record does, and the loop over the records of a kind.

`Restores` holds whatever else is on disk. `Faithful` also says what comes back, and asks that
the fresh id is not that of another record.
-/

namespace Arvolo.Manager.Restart

open Lib

variable {env : Env} {w : World}

/-! ### What a record says -/

/-- What lies beside a record for as long as the record does. -/
structure Beside where
  prep : Option PrepRecord := none
  paused : Option PausedBy := none
  share : Option ShareRecord := none

namespace Disk

variable (d : Disk)

def beside : Kind → ℕ → Beside
  | .sendto, id => { prep := (d.files .prep).lookup id }
  | .download, id => { paused := (d.files .paused).lookup id }
  | .send, id => { share := (d.files .share).lookup id }
  | _, _ => {}

def uploadOf : Kind → ℕ → Option Resumable
  | .sendto, id => ((d.files .upload).lookup id).map (·.toResumable)
  | .link, id => ((d.files .upload).lookup id).map (·.toResumable)
  | _, _ => none

def codeOf : Kind → ℕ → Option CodeRecord
  | .send, id => (d.files .code).lookup id
  | _, _ => none

end Disk

def settled : (k : Kind) → Content k → Content k
  | .sendto, c => SendToRecord.settled c
  | _, c => c

/-- The transfer that a record and what lies beside it say. -/
def transferOf (now : ℕ) : (k : Kind) → Content k → Beside → Transfer
  | .sendto, c, b => { record := ⟨.sendto, SendToRecord.settled c⟩, prep := b.prep }
  | .download, c, b => { record := ⟨.download, c⟩, userPaused := b.paused = some .user }
  | .send, c, b => { record := ⟨.send, c⟩, stats := (b.share.getD {}).settled now }
  | k, c, _ => { record := ⟨k, c⟩ }

/-- A record as the manager writes it, within its lifetime, its file where it was. -/
def Good (env : Env) : (k : Kind) → Content k → Prop
  | .deposited, c => env.now < c.expires ∧ (env.publicId c.recipient).getD [] = c.recipient
  | .sendto, c => env.publicId c.recipient = some c.recipient ∧ (c.relay.or env.relay).isSome
  | .link, c => (env.linkSeal c.payload).isSome
  | .pendingShare, c => ∀ code ∈ c.code, code.ownerToken.length = 32
  | .download, c => ChunkTicket.looksLike c.ticket
  | .send, c => c.serves env
  | _, _ => True

/-! ### One restore -/

/-- The body of the loop over the records of a kind. -/
def World.restore (env : Env) (w : World) : (k : Kind) → (Σ _ : ℕ, Content k) → World
  | .deposited, r => w.restoreDeposited env r
  | .sendto, r => w.restoreSendto env r
  | .link, r => w.restoreLink env r
  | .pendingShare, r => w.restorePending r
  | .download, r => w.restoreDownload r
  | .send, r => w.restoreSend env r
  | _, _ => w

/-- The kinds whose files the loop over a kind writes or unlinks. -/
def touched : Kind → List Kind
  | .sendto => [.sendto, .prep, .upload]
  | .link => [.link, .upload]
  | .download => [.download, .paused]
  | .send => [.send, .share]
  | k => [k]

/-- What the restore of a good record does, whatever else is on disk. -/
structure Restores (k : Kind) (r : Σ _ : ℕ, Content k) (w w' : World) : Prop where
  fails : w'.fails = none
  next : w'.next = w.next + 1
  brought : ∃ t : Transfer, t.record.1 = k ∧ w'.restored = w.restored ++ [(t, w.next)]
  lookup : (w'.disk.files k).lookup =
    rekey none (w.disk.files k).lookup r.1 w.next (some (settled k r.2))
  frame : ∀ k' ∉ touched k, w'.disk.files k' = w.disk.files k'

attribute [local simp] touched

theorem restores_deposited {r : Σ _ : ℕ, DepositedRecord} (h : w.fails = none)
    (hgood : Good env .deposited r.2) : Restores .deposited r w (w.restoreDeposited env r) := by
  obtain ⟨hexpires, hrecipient⟩ := hgood
  have hstep : w.restoreDeposited env r =
      (((w.unlink .deposited r.1).register.put .deposited w.next r.2).bring w.next
        { record := ⟨.deposited, r.2⟩ }) := by
    unfold World.restoreDeposited
    rw [if_neg (by omega), hrecipient]
    rfl
  rw [hstep]
  refine ⟨h, rfl, ⟨_, rfl, rfl⟩, ?_, fun k' hk' => ?_⟩
  · ext1 j
    simp [World.disk_put, World.disk_unlink, h, Table.lookup_insert_eq, Table.lookup_erase_eq,
      rekey_apply, settled]
  · simp only [touched, List.mem_singleton] at hk'
    simp [World.disk_put, World.disk_unlink, h, hk']

theorem restores_sendto {r : Σ _ : ℕ, SendToRecord} (h : w.fails = none)
    (hgood : Good env .sendto r.2) : Restores .sendto r w (w.restoreSendto env r) := by
  obtain ⟨hrecipient, hrelay⟩ := hgood
  obtain ⟨relay, hrelay⟩ := Option.isSome_iff_exists.mp hrelay
  unfold World.restoreSendto World.takeUpload
  simp only [hrecipient, hrelay]
  refine ⟨by simp [h], by simp, ⟨_, rfl, by simp; rfl⟩, ?_, fun k' hk' => ?_⟩
  · ext1 j
    simp [World.disk_put, World.disk_unlink, h, World.files_rekeyPrep_of_ne,
      World.files_refile_of_ne, Table.lookup_insert_eq, Table.lookup_erase_eq, rekey_apply,
      settled, SendToRecord.settled]
  · simp only [touched, List.mem_cons, List.not_mem_nil, or_false, not_or] at hk'
    simp [World.disk_put, World.disk_unlink, h, World.files_rekeyPrep_of_ne,
      World.files_refile_of_ne, hk']

theorem restores_link {r : Σ _ : ℕ, LinkRecord} (h : w.fails = none)
    (hgood : Good env .link r.2) : Restores .link r w (w.restoreLink env r) := by
  obtain ⟨s, hseal⟩ : ∃ s, ((((w.unlink .link r.1).takeUpload env r.1 r.2.payload).1.bind
      (·.sealing.link?)).or (env.linkSeal r.2.payload)) = some s := by
    rw [← Option.isSome_iff_exists, Option.isSome_or, hgood, Bool.or_true]
  unfold World.restoreLink
  simp only [hseal]
  unfold World.takeUpload
  refine ⟨by simp [h], by simp, ⟨_, rfl, by simp; rfl⟩, ?_, fun k' hk' => ?_⟩
  · ext1 j
    simp [World.disk_put, World.disk_unlink, h, World.files_remember_of_ne,
        Table.lookup_insert_eq, Table.lookup_erase_eq, rekey_apply, settled]
  · simp only [touched, List.mem_cons, List.not_mem_nil, or_false, not_or] at hk'
    simp [World.disk_put, World.disk_unlink, h, World.files_remember_of_ne, hk']

theorem restores_pending {r : Σ _ : ℕ, PendingShareRecord} (h : w.fails = none)
    (hgood : Good env .pendingShare r.2) : Restores .pendingShare r w (w.restorePending r) := by
  have hcode : r.2.code.filter (·.ownerToken.length = 32) = r.2.code := by
    cases hc : r.2.code with
    | none => rfl
    | some c => exact Option.filter_eq_some_iff.2 ⟨rfl, by simpa using hgood c hc⟩
  unfold World.restorePending
  rw [hcode]
  refine ⟨h, rfl, ⟨_, rfl, rfl⟩, ?_, fun k' hk' => ?_⟩
  · ext1 j
    simp [World.disk_put, World.disk_unlink, h, Table.lookup_insert_eq, Table.lookup_erase_eq,
      rekey_apply, settled]
  · simp only [touched, List.mem_singleton] at hk'
    simp [World.disk_put, World.disk_unlink, h, hk']

theorem restores_download {r : Σ _ : ℕ, DownloadRecord} (h : w.fails = none)
    (hgood : Good env .download r.2) : Restores .download r w (w.restoreDownload r) := by
  unfold World.restoreDownload World.removeDownload World.restorePausedDownload
    World.startDownload
  rw [if_pos (show ChunkTicket.looksLike r.2.ticket = true from hgood)]
  split_ifs with hpaused
  all_goals
    refine ⟨h, rfl, ⟨_, rfl, rfl⟩, ?_, fun k' hk' => ?_⟩
    · ext1 j
      simp [World.disk_put, World.disk_unlink, h, Table.lookup_insert_eq, Table.lookup_erase_eq,
        rekey_apply, settled]
    · simp only [touched, List.mem_cons, List.not_mem_nil, or_false, not_or] at hk'
      simp [World.disk_put, World.disk_unlink, h, hk']

theorem disk_removeSend (h : w.fails = none) (id : ℕ) {k : Kind} :
    (w.removeSend id).disk.files k = (w.disk.unlink .send id).files k := by
  unfold World.removeSend
  split <;> simp [World.disk_unlink, World.disk_act, Disk.run, Disk.unlink, h]

theorem restores_send {r : Σ _ : ℕ, SendRecord} (h : w.fails = none)
    (hgood : Good env .send r.2) : Restores .send r w (w.restoreSend env r) := by
  have hfails : (w.removeSend r.1).fails = none := by
    unfold World.removeSend
    split <;> exact h
  have hnext : (w.removeSend r.1).next = w.next := by
    unfold World.removeSend
    split <;> rfl
  have hrestored : (w.removeSend r.1).restored = w.restored := by
    unfold World.removeSend
    split <;> rfl
  unfold World.restoreSend
  rw [if_pos (show r.2.serves env = true from hgood)]
  refine ⟨by simp [hfails], by simp [hnext], ⟨_, rfl, by simp [hrestored, hnext]; rfl⟩, ?_,
    fun k' hk' => ?_⟩
  · ext1 j
    simp [World.disk_put, World.disk_unlink, hfails, disk_removeSend h, hnext,
      Table.lookup_insert_eq, Table.lookup_erase_eq, rekey_apply, settled]
  · simp only [touched, List.mem_cons, List.not_mem_nil, or_false, not_or] at hk'
    simp [World.disk_put, World.disk_unlink, hfails, disk_removeSend h, hk']

theorem restores {k : Kind} (hk : k ∈ mains) {r : Σ _ : ℕ, Content k} (h : w.fails = none)
    (hgood : Good env k r.2) : Restores k r w (w.restore env k r) := by
  simp only [mains, List.mem_cons, List.not_mem_nil, or_false] at hk
  rcases hk with rfl | rfl | rfl | rfl | rfl | rfl
  · exact restores_deposited h hgood
  · exact restores_sendto h hgood
  · exact restores_link h hgood
  · exact restores_pending h hgood
  · exact restores_download h hgood
  · exact restores_send h hgood

/-! ### What the restore of a record brings back -/

/-- What is written down again of what lay beside the record. -/
def kept (now : ℕ) : Kind → Beside → Beside
  | .sendto, b => b
  | .download, b => { paused := b.paused.filter (· = .user) }
  | .send, b => { share := some ((b.share.getD {}).settled now) }
  | _, _ => {}

theorem ShareRecord.settled_settled (now : ℕ) (s : ShareRecord) :
    (s.settled now).settled now = s.settled now := by
  unfold ShareRecord.settled
  split_ifs <;> simp_all

theorem SendToRecord.settled_settled (c : SendToRecord) : c.settled.settled = c.settled := by
  unfold SendToRecord.settled
  cases c.paused <;> rfl

/-- A transfer is the same by what is written down of it. -/
theorem transferOf_kept (now : ℕ) (k : Kind) (c : Content k) (b : Beside) :
    transferOf now k (settled k c) (kept now k b) = transferOf now k c b := by
  cases k with
  | sendto => simp only [transferOf, settled, kept, SendToRecord.settled_settled]
  | send => simp only [transferOf, settled, kept, Option.getD_some, ShareRecord.settled_settled]
  | download =>
      simp only [transferOf, settled, kept]
      obtain ⟨prep, paused, share⟩ := b
      rcases paused with _ | _ | _ <;> simp [Option.filter]
  | _ => rfl

/-- The preparation that lies beside a held send is one of its payload as it is. -/
def Fits (env : Env) : (k : Kind) → Content k → Beside → Prop
  | .sendto, c, b => ∀ p ∈ b.prep, rebuildPrep env c.payload p
  | _, _, _ => True

/-- A record whose restore finds its own and nothing else. -/
structure Ready (env : Env) (k : Kind) (r : Σ _ : ℕ, Content k) (w : World) : Prop where
  good : Good env k r.2
  fits : Fits env k r.2 (w.disk.beside k r.1)
  upload : w.disk.uploadOf k r.1 = none
  code : k = .send → w.codes.lookup r.1 = none

structure Faithful (env : Env) (k : Kind) (r : Σ _ : ℕ, Content k) (w w' : World) : Prop where
  restored : w'.restored =
    w.restored ++ [(transferOf env.now k r.2 (w.disk.beside k r.1), w.next)]
  beside : w'.disk.beside k =
    rekey {} (w.disk.beside k) r.1 w.next (kept env.now k (w.disk.beside k r.1))
  upload : ∀ j, j ≠ w.next ∨ k ≠ .link → (w.disk.files .upload).lookup j = none →
    (w'.disk.files .upload).lookup j = none
  codes : ∀ j, w.codes.lookup j = none → w'.codes.lookup j = none

theorem beside_eq {k : Kind} (h : k ≠ .sendto ∧ k ≠ .download ∧ k ≠ .send) (d : Disk) (j : ℕ) :
    d.beside k j = {} := by
  obtain ⟨h₁, h₂, h₃⟩ := h
  cases k <;> first | rfl | contradiction

theorem faithful_deposited {r : Σ _ : ℕ, DepositedRecord} (h : w.fails = none)
    (hready : Ready env .deposited r w) :
    Faithful env .deposited r w (w.restoreDeposited env r) := by
  obtain ⟨hexpires, hrecipient⟩ := hready.good
  have hframe := (restores_deposited h hready.good).frame
  refine ⟨?_, ?_, fun j _ hj => ?_, fun j hj => ?_⟩
  · unfold World.restoreDeposited
    rw [if_neg (by omega), hrecipient]
    rfl
  · ext1 j
    simp [rekey_apply, beside_eq, kept]
  · rwa [hframe .upload (by decide)]
  · unfold World.restoreDeposited
    rw [if_neg (by omega)]
    exact hj

theorem faithful_pending {r : Σ _ : ℕ, PendingShareRecord} (h : w.fails = none)
    (hready : Ready env .pendingShare r w) :
    Faithful env .pendingShare r w (w.restorePending r) := by
  have hcode : r.2.code.filter (·.ownerToken.length = 32) = r.2.code := by
    cases hc : r.2.code with
    | none => rfl
    | some c => exact Option.filter_eq_some_iff.2 ⟨rfl, by simpa using hready.good c hc⟩
  have hframe := (restores_pending h hready.good).frame
  refine ⟨?_, ?_, fun j _ hj => ?_, fun j hj => hj⟩
  · unfold World.restorePending
    rw [hcode]
    rfl
  · ext1 j
    simp [rekey_apply, beside_eq, kept]
  · rwa [hframe .upload (by decide)]

theorem faithful_link {r : Σ _ : ℕ, LinkRecord} (h : w.fails = none)
    (hready : Ready env .link r w) : Faithful env .link r w (w.restoreLink env r) := by
  have hgood : (env.linkSeal r.2.payload).isSome := hready.good
  obtain ⟨s, hseal⟩ := Option.isSome_iff_exists.mp hgood
  have hnone : (w.disk.files .upload).lookup r.1 = none := by
    simpa [Disk.uploadOf] using hready.upload
  have htake : (w.unlink .link r.1).takeUpload env r.1 r.2.payload =
      (none, (w.unlink .link r.1).unlink .upload r.1) := by
    simp [World.takeUpload, World.disk_unlink h, hnone]
  unfold World.restoreLink
  simp only [htake, Option.bind_none, Option.none_or, hseal]
  refine ⟨?_, ?_, fun j hj hlook => ?_, fun j hj => by simpa using hj⟩
  · simp [transferOf]
  · ext1 j
    simp [rekey_apply, beside_eq, kept]
  · have hj' : j ≠ w.next := hj.resolve_right (by simp)
    rcases World.remember_cases with hrem | ⟨_, hrem⟩ <;>
      rw [World.disk_bring, hrem] <;>
      simp [World.disk_put, World.disk_unlink, h, Table.lookup_erase_eq, hlook, hj']

theorem faithful_sendto {r : Σ _ : ℕ, SendToRecord} (h : w.fails = none)
    (hready : Ready env .sendto r w) (hfree : w.next ≠ r.1 → w.disk.beside .sendto w.next = {}) :
    Faithful env .sendto r w (w.restoreSendto env r) := by
  obtain ⟨hrecipient, hrelay⟩ := hready.good
  obtain ⟨relay, hrelay⟩ := Option.isSome_iff_exists.mp hrelay
  have hnone : (w.disk.files .upload).lookup r.1 = none := by
    simpa [Disk.uploadOf] using hready.upload
  have hslot : ((w.disk.files .prep).lookup r.1).filter (rebuildPrep env r.2.payload) =
      (w.disk.files .prep).lookup r.1 := by
    cases hp : (w.disk.files .prep).lookup r.1 with
    | none => rfl
    | some p => exact Option.filter_eq_some_iff.2 ⟨rfl, hready.fits p hp⟩
  have hprep : w.next ≠ r.1 → (w.disk.files .prep).lookup w.next = none := fun hne =>
    congrArg Beside.prep (hfree hne)
  unfold World.restoreSendto World.takeUpload
  simp only [hrecipient, hrelay, hslot]
  simp only [World.disk_register, World.disk_unlink, h, World.fails_unlink, Disk.files_unlink_of_ne,
    ne_eq, reduceCtorEq, not_false_eq_true, hnone, Option.bind_none, World.refile]
  refine ⟨?_, ?_, fun j _ hlook => ?_, fun j hj => by simpa using hj⟩
  · simp [transferOf, Disk.beside, SendToRecord.settled]
  · refine Table.comp_lookup_rekey (fun o => ({ prep := o } : Beside)) rfl ?_
    cases hp : (w.disk.files .prep).lookup r.1 with
    | none =>
        simpa [World.disk_put, World.disk_unlink, h, World.rekeyPrep] using
          Table.lookup_erase_eq_rekey _ _ _ hprep
    | some p =>
        simpa [World.disk_put, World.disk_unlink, h, World.rekeyPrep] using
          Table.lookup_erase_insert _ _ _ p
  · simp [World.disk_put, World.disk_unlink, h, World.files_rekeyPrep_of_ne,
      Table.lookup_erase_eq, hlook]

theorem faithful_download {r : Σ _ : ℕ, DownloadRecord} (h : w.fails = none)
    (hready : Ready env .download r w)
    (hfree : w.next ≠ r.1 → w.disk.beside .download w.next = {}) :
    Faithful env .download r w (w.restoreDownload r) := by
  have hframe := (restores_download h hready.good).frame
  have hmarker : w.next ≠ r.1 → (w.disk.files .paused).lookup w.next = none := fun hne =>
    congrArg Beside.paused (hfree hne)
  refine ⟨?_, ?_, fun j _ hj => ?_, ?_⟩
  · unfold World.restoreDownload World.restorePausedDownload World.startDownload
    rw [if_pos (show ChunkTicket.looksLike r.2.ticket = true from hready.good)]
    split_ifs with hpaused <;> simp [World.removeDownload, transferOf, Disk.beside, hpaused]
  · refine Table.comp_lookup_rekey (fun o => ({ paused := o } : Beside)) rfl ?_
    unfold World.restoreDownload World.restorePausedDownload World.startDownload
    rw [if_pos (show ChunkTicket.looksLike r.2.ticket = true from hready.good)]
    simp only [Disk.beside]
    split_ifs with hpaused
    · rw [hpaused, show (some PausedBy.user).filter (· = .user) = some .user from rfl]
      simpa [World.removeDownload, World.disk_put, World.disk_unlink, h] using
        Table.lookup_erase_insert _ _ _ PausedBy.user
    · have hdropped : ((w.disk.files .paused).lookup r.1).filter (· = .user) = none := by
        rw [Option.filter_eq_none_iff]
        intro p hp
        simpa using fun heq => hpaused (hp.trans (congrArg some heq))
      simpa [World.removeDownload, World.disk_put, World.disk_unlink, h, hdropped] using
        Table.lookup_erase_eq_rekey _ _ _ hmarker
  · rwa [hframe .upload (by decide)]
  · unfold World.restoreDownload World.restorePausedDownload World.startDownload
    split_ifs <;> exact fun j hj => hj

theorem faithful_send {r : Σ _ : ℕ, SendRecord} (h : w.fails = none)
    (hready : Ready env .send r w) : Faithful env .send r w (w.restoreSend env r) := by
  have hframe := (restores_send h hready.good).frame
  have hfails : (w.removeSend r.1).fails = none := by
    unfold World.removeSend
    split <;> exact h
  have hnext : (w.removeSend r.1).next = w.next := by
    unfold World.removeSend
    split <;> rfl
  have hrestored : (w.removeSend r.1).restored = w.restored := by
    unfold World.removeSend
    split <;> rfl
  have hcodes : (w.removeSend r.1).codes = w.codes := by
    unfold World.removeSend
    split <;> rfl
  refine ⟨?_, ?_, fun j _ hj => ?_, ?_⟩
  · unfold World.restoreSend
    rw [if_pos (show r.2.serves env = true from hready.good)]
    simp [hrestored, hnext, hcodes, hready.code, transferOf, Disk.beside]
  · refine Table.comp_lookup_rekey (fun o => ({ share := o } : Beside)) rfl ?_
    unfold World.restoreSend
    rw [if_pos (show r.2.serves env = true from hready.good)]
    simpa [World.disk_put, World.disk_unlink, hfails, disk_removeSend h, hnext, Disk.beside]
      using Table.lookup_erase_insert _ _ _ _
  · rwa [hframe .upload (by decide)]
  · unfold World.restoreSend
    rw [if_pos (show r.2.serves env = true from hready.good)]
    intro j hj
    simp [hcodes, Table.lookup_erase_eq, hj]

theorem faithful {k : Kind} (hk : k ∈ mains) {r : Σ _ : ℕ, Content k} (h : w.fails = none)
    (hready : Ready env k r w) (hfree : w.next ≠ r.1 → w.disk.beside k w.next = {}) :
    Faithful env k r w (w.restore env k r) := by
  simp only [mains, List.mem_cons, List.not_mem_nil, or_false] at hk
  rcases hk with rfl | rfl | rfl | rfl | rfl | rfl
  · exact faithful_deposited h hready
  · exact faithful_sendto h hready hfree
  · exact faithful_link h hready
  · exact faithful_pending h hready
  · exact faithful_download h hready hfree
  · exact faithful_send h hready

/-! ### The loop over the records of a kind -/

/-- What the loop over good records does, whatever else is on disk. -/
structure Looped (k : Kind) (rows : List (Σ _ : ℕ, Content k)) (w w' : World) : Prop where
  fails : w'.fails = none
  next : w'.next = w.next + rows.length
  brought : ∃ ts : List Transfer, ts.length = rows.length ∧ (∀ t ∈ ts, t.record.1 = k) ∧
    w'.restored = w.restored ++ ts.zipIdx w.next
  lookup : (w'.disk.files k).lookup = rekeyAll none (w.disk.files k).lookup w.next
    (rows.map fun r => (r.1, some (settled k r.2)))
  frame : ∀ k' ∉ touched k, w'.disk.files k' = w.disk.files k'

theorem looped {k : Kind} (hk : k ∈ mains) {rows : List (Σ _ : ℕ, Content k)}
    (h : w.fails = none) (hgood : ∀ r ∈ rows, Good env k r.2) :
    Looped k rows w (rows.foldl (fun w r => w.restore env k r) w) := by
  induction rows generalizing w with
  | nil => exact ⟨h, rfl, ⟨[], rfl, by simp, by simp⟩, rfl, fun _ _ => rfl⟩
  | cons r rows ih =>
      have hstep := restores hk h (hgood r List.mem_cons_self)
      have hrest := ih hstep.fails fun r' hr' => hgood r' (List.mem_cons_of_mem _ hr')
      rw [List.foldl_cons]
      refine ⟨hrest.fails, ?_, ?_, ?_,
        fun k' hk' => (hrest.frame k' hk').trans (hstep.frame k' hk')⟩
      · rw [hrest.next, hstep.next, List.length_cons]
        omega
      · obtain ⟨t, ht, hone⟩ := hstep.brought
        obtain ⟨ts, hlength, hts, hmore⟩ := hrest.brought
        refine ⟨t :: ts, by simp [hlength], by simpa [ht] using hts, ?_⟩
        rw [hmore, hone, hstep.next, List.zipIdx_cons, List.append_assoc]
        rfl
      · rw [hrest.lookup, hstep.lookup, hstep.next]
        rfl

/-- What the loop brings back and leaves beside the records, as long as no fresh id is the old
one of a record whose turn has yet to come. -/
structure Carried (env : Env) (k : Kind) (rows : List (Σ _ : ℕ, Content k)) (w w' : World) :
    Prop where
  restored : w'.restored = w.restored ++
    (rows.map fun r => transferOf env.now k r.2 (w.disk.beside k r.1)).zipIdx w.next
  beside : w'.disk.beside k = rekeyAll {} (w.disk.beside k) w.next
    (rows.map fun r => (r.1, kept env.now k (w.disk.beside k r.1)))
  upload : k ≠ .link → ∀ j, (w.disk.files .upload).lookup j = none →
    (w'.disk.files .upload).lookup j = none
  codes : ∀ j, w.codes.lookup j = none → w'.codes.lookup j = none

/-- Another record finds its own after a restore as well. -/
theorem Ready.step {k : Kind} {r r' : Σ _ : ℕ, Content k} {w' : World}
    (hready : Ready env k r' w) (hstep : Faithful env k r w w') (hnext : r'.1 ≠ w.next)
    (hold : r'.1 ≠ r.1) :
    Ready env k r' w' ∧ w'.disk.beside k r'.1 = w.disk.beside k r'.1 := by
  have hbeside : w'.disk.beside k r'.1 = w.disk.beside k r'.1 := by
    rw [hstep.beside, rekey_apply, if_neg hnext, if_neg hold]
  refine ⟨⟨hready.good, hbeside ▸ hready.fits, ?_,
    fun hk => hstep.codes _ (hready.code hk)⟩, hbeside⟩
  have hupload := hstep.upload r'.1 (.inl hnext)
  have hnone := hready.upload
  cases k with
  | sendto => simpa [Disk.uploadOf] using hupload (by simpa [Disk.uploadOf] using hnone)
  | link => simpa [Disk.uploadOf] using hupload (by simpa [Disk.uploadOf] using hnone)
  | _ => rfl

theorem carried {k : Kind} (hk : k ∈ mains) {rows : List (Σ _ : ℕ, Content k)}
    (h : w.fails = none) (hready : ∀ r ∈ rows, Ready env k r w)
    (hclear : Clear w.next (rows.map (·.1))) (hnodup : (rows.map (·.1)).Nodup)
    (hwithin : ∀ j, w.disk.beside k j ≠ {} → j ∈ rows.map (·.1) ∨ j < w.next) :
    Carried env k rows w (rows.foldl (fun w r => w.restore env k r) w) := by
  induction rows generalizing w with
  | nil => exact ⟨by simp, rfl, fun _ _ hj => hj, fun _ hj => hj⟩
  | cons r rows ih =>
      obtain ⟨hfresh, hclear'⟩ := hclear
      obtain ⟨hold, hnodup'⟩ := List.nodup_cons.mp hnodup
      have hone := restores hk h (hready r List.mem_cons_self).good
      have hstep := faithful hk h (hready r List.mem_cons_self) fun hne => by
        by_contra hbeside
        rcases hwithin _ hbeside with hmem | hlt
        · exact hfresh ((List.mem_cons.mp hmem).resolve_left hne)
        · omega
      have hother : ∀ r' ∈ rows, r'.1 ≠ w.next ∧ r'.1 ≠ r.1 := fun r' hr' =>
        have hmem := List.mem_map_of_mem (f := (·.1)) hr'
        ⟨fun heq => hfresh (heq ▸ hmem), fun heq => hold (show r.1 ∈ _ from heq ▸ hmem)⟩
      have hnow : ∀ r' ∈ rows, Ready env k r' (w.restore env k r) ∧
          (w.restore env k r).disk.beside k r'.1 = w.disk.beside k r'.1 := fun r' hr' =>
        (hready r' (List.mem_cons_of_mem _ hr')).step hstep (hother r' hr').1 (hother r' hr').2
      have hrest := ih hone.fails (fun r' hr' => (hnow r' hr').1) (by rwa [hone.next]) hnodup'
        (fun j hj => by
          rw [hstep.beside, rekey_apply] at hj
          rw [hone.next]
          by_cases hnext : j = w.next
          · exact .inr (by omega)
          · rw [if_neg hnext] at hj
            by_cases heq : j = r.1
            · simp [heq] at hj
            · rw [if_neg heq] at hj
              rcases hwithin j hj with hmem | hlt
              · exact .inl ((List.mem_cons.mp hmem).resolve_left heq)
              · exact .inr (by omega))
      rw [List.foldl_cons]
      refine ⟨?_, ?_, fun hlink j hj => hrest.upload hlink j (hstep.upload j (.inr hlink) hj),
        fun j hj => hrest.codes j (hstep.codes j hj)⟩
      · rw [hrest.restored, hstep.restored, hone.next, List.map_cons, List.zipIdx_cons,
          List.append_assoc, List.map_congr_left fun r' hr' => by rw [(hnow r' hr').2]]
        rfl
      · rw [hrest.beside, hstep.beside, hone.next,
          List.map_congr_left fun r' hr' => by rw [← hstep.beside, (hnow r' hr').2]]
        rfl

end Arvolo.Manager.Restart
