import Arvolo.Lib.Machine
import Arvolo.Relay.Uploads

/-!
The lifecycle of upload sessions over any interleaving of requests: who holds a session,
where its file is, what is reserved for it and when that is given back.
-/

namespace Arvolo.Relay

open Lib

/-- The job's next step is the one that puts the session's state together again. -/
def UploadJob.closing : UploadJob → Bool
  | .restoring .. => true
  | .marking .. => true
  | _ => false

namespace UploadStore

variable {s : UploadStore} {id : Name}

def hasPart (s : UploadStore) (id : Name) : Bool := (s.parts.lookup id).isSome

/-- A commit has the session's file elsewhere. -/
def moving (s : UploadStore) (id : Name) : Bool := s.jobs.any fun j => j.id = id && j.moved

/-- Outside the steps of a commit, there is a partial file exactly for an open session. -/
def Placed (s : UploadStore) : Prop :=
  ∀ id, s.moving id = false → s.hasPart id = s.isOpen id

/-- A session that a request appends to or commits is open; outside the steps of a commit,
there is a partial file exactly for an open session; what is reserved is what the open
sessions declared; and a session that was opened has been released once if it is open no
more, and otherwise not at all. -/
structure Lifecycle (s : UploadStore) : Prop where
  guarded : ∀ job ∈ s.jobs, s.isOpen job.id = true
  files : s.Placed
  reserved : s.reservedUploadBytes = Table.total Session.declared s.sessions
  released (id : Name) :
    s.released.count id = if id ∈ s.issued ∧ s.isOpen id = false then 1 else 0

/-! ### The reservation -/

theorem sumI64_le (n : ℕ) : Disk.sumI64 n ≤ n := by
  unfold Disk.sumI64
  split_ifs
  · exact Nat.le_refl n
  · exact Nat.zero_le n

theorem reserved_le_declared (x : Session) : x.reserved ≤ x.declared := by
  unfold Session.reserved Session.declared Session.length
  split_ifs
  · exact Nat.min_le_left ..
  · exact Nat.le_refl 0

/-- The sum is the declared one exactly where that fits the column. -/
theorem reserved_iff : s.reservedUploadBytes = Table.total Session.declared s.sessions ↔
    Table.total Session.declared s.sessions ≤ i64Max := by
  constructor
  · intro h
    by_contra hbig
    have hle : Disk.sumI64 (Table.total Session.reserved s.sessions) ≤ i64Max := by
      unfold Disk.sumI64
      split_ifs with hfit
      · exact hfit
      · exact Nat.zero_le i64Max
    exact hbig (h ▸ hle)
  · intro h
    have heq : Table.total Session.reserved s.sessions =
        Table.total Session.declared s.sessions := by
      refine Table.total_congr fun k x hx => ?_
      have hx' : x.declared ≤ i64Max := (Table.le_total Session.declared hx).trans h
      unfold Session.reserved Session.declared Session.length at *
      split_ifs at hx' ⊢
      · exact Nat.min_eq_left hx'
      · rfl
    rw [reservedUploadBytes, heq, Disk.sumI64, if_pos h]

/-! ### The requests that hold a session -/

/-- Two requests hold different sessions, and two commits have drawn different claims. -/
def Apart (a b : UploadJob) : Prop := a.id ≠ b.id ∧ (a.claim.isSome → a.claim ≠ b.claim)

theorem Apart.symm {a b : UploadJob} (h : Apart a b) : Apart b a := by
  refine ⟨h.1.symm, fun hb heq => ?_⟩
  exact h.2 (heq ▸ hb) heq.symm

theorem isOpen_eq_true : s.isOpen id = true ↔
    ∃ row, s.sessions.lookup id = some row ∧ row.committed.isNone = true := by
  unfold isOpen
  cases s.sessions.lookup id <;> simp

theorem mem_openIds : id ∈ s.openIds ↔ s.isOpen id = true := by
  rw [isOpen_eq_true]
  exact Table.mem_keysWhere

theorem moving_eq_true : s.moving id = true ↔
    ∃ job ∈ s.jobs, job.id = id ∧ job.moved = true := by
  simp [moving]

theorem moving_eq_false : s.moving id = false ↔
    ∀ job ∈ s.jobs, job.id = id → job.moved = false := by
  simp [moving]

/-- What the steps keep. -/
structure Sound (s : UploadStore) : Prop where
  apart : s.jobs.Pairwise Apart
  guarded : ∀ job ∈ s.jobs, s.isOpen job.id = true
  blob : ∀ job ∈ s.jobs, job.moved = true → ∃ c ∈ job.claim, (s.blobs.lookup c).isSome = true
  issued (id : Name) : (s.sessions.lookup id).isSome = true → id ∈ s.issued
  files (id : Name) : s.hasPart id = (s.isOpen id && !s.moving id)
  fits : Table.total Session.declared s.sessions ≤ i64Max

variable {i : ℕ} {job : UploadJob}

/-- Only the request at hand holds its session. -/
theorem Sound.only (h : s.Sound) (hi : s.jobs[i]? = some job) {k : ℕ} {other : UploadJob}
    (hk : s.jobs[k]? = some other) (hid : other.id = job.id) : k = i := by
  by_contra hne
  exact (pairwise_getElem? (fun _ _ => Apart.symm) h.apart hk hi hne).1 hid

theorem Sound.moving_self (h : s.Sound) (hi : s.jobs[i]? = some job) :
    s.moving job.id = job.moved := by
  cases hmoved : job.moved with
  | true => exact moving_eq_true.2 ⟨job, List.mem_of_getElem? hi, rfl, hmoved⟩
  | false =>
      refine moving_eq_false.2 fun other hother hid => ?_
      obtain ⟨k, hk⟩ := List.mem_iff_getElem?.1 hother
      obtain rfl := h.only hi hk hid
      rw [← Option.some.inj (hi.symm.trans hk), hmoved]

theorem Sound.moving_set (h : s.Sound) (hi : s.jobs[i]? = some job) {next : UploadJob}
    (hid : next.id = job.id) (id : Name) :
    (s.setJob i (some next)).moving id = if id = job.id then next.moved else s.moving id := by
  rw [Bool.eq_iff_iff, moving_eq_true]
  simp only [setJob, mem_set_iff hi]
  split_ifs with hself
  · constructor
    · rintro ⟨other, rfl | ⟨k, hki, hk⟩, hother, hmoved⟩
      · exact hmoved
      · exact absurd (h.only hi hk (hother.trans hself)) hki
    · exact fun hmoved => ⟨next, .inl rfl, hid.trans hself.symm, hmoved⟩
  · rw [moving_eq_true]
    constructor
    · rintro ⟨other, rfl | ⟨k, -, hk⟩, hother, hmoved⟩
      · exact absurd (hother.symm.trans hid) hself
      · exact ⟨other, List.mem_of_getElem? hk, hother, hmoved⟩
    · rintro ⟨other, hmem, hother, hmoved⟩
      obtain ⟨k, hk⟩ := List.mem_iff_getElem?.1 hmem
      refine ⟨other, .inr ⟨k, ?_, hk⟩, hother, hmoved⟩
      rintro rfl
      rw [← Option.some.inj (hi.symm.trans hk)] at hother
      exact hself hother.symm

theorem Sound.moving_erase (h : s.Sound) (hi : s.jobs[i]? = some job) (id : Name) :
    (s.setJob i none).moving id = if id = job.id then false else s.moving id := by
  rw [Bool.eq_iff_iff, moving_eq_true]
  simp only [setJob, List.mem_eraseIdx_iff_getElem?]
  split_ifs with hself
  · refine ⟨?_, nofun⟩
    rintro ⟨other, ⟨k, hki, hk⟩, hother, -⟩
    exact absurd (h.only hi hk (hother.trans hself)) hki
  · rw [moving_eq_true]
    constructor
    · rintro ⟨other, ⟨k, -, hk⟩, hother, hmoved⟩
      exact ⟨other, List.mem_of_getElem? hk, hother, hmoved⟩
    · rintro ⟨other, hmem, hother, hmoved⟩
      obtain ⟨k, hk⟩ := List.mem_iff_getElem?.1 hmem
      refine ⟨other, ⟨k, ?_, hk⟩, hother, hmoved⟩
      rintro rfl
      rw [← Option.some.inj (hi.symm.trans hk)] at hother
      exact hself hother.symm

/-! ### What each request keeps -/

/-- A request goes on with the same session, claim and place of its file. -/
theorem Sound.setJob (h : s.Sound) (hi : s.jobs[i]? = some job) {next : UploadJob}
    (hid : next.id = job.id) (hclaim : next.claim = job.claim) (hmoved : next.moved = job.moved) :
    (s.setJob i (some next)).Sound where
  apart := by
    refine pairwise_set (fun _ _ => Apart.symm) h.apart fun k other hk hki => ?_
    obtain ⟨hne, hclaims⟩ :=
      pairwise_getElem? (fun _ _ => Apart.symm) h.apart hi hk (Ne.symm hki)
    exact ⟨hid ▸ hne, hclaim ▸ hclaims⟩
  guarded := by
    refine forall_mem_set ?_ fun k other hk _ => h.guarded other (List.mem_of_getElem? hk)
    rw [hid]
    exact h.guarded job (List.mem_of_getElem? hi)
  blob := by
    refine forall_mem_set ?_ fun k other hk _ => h.blob other (List.mem_of_getElem? hk)
    rw [hclaim, hmoved]
    exact h.blob job (List.mem_of_getElem? hi)
  issued := h.issued
  files id := by
    rw [h.moving_set hi hid, hmoved]
    split_ifs with hself
    · rw [hself, ← h.moving_self hi]
      exact h.files job.id
    · exact h.files id
  fits := h.fits

/-- A request that has the file where it was lets go of the session. -/
theorem Sound.eraseJob (h : s.Sound) (hi : s.jobs[i]? = some job) (hmoved : job.moved = false) :
    (s.setJob i none).Sound where
  apart := h.apart.sublist (List.eraseIdx_sublist ..)
  guarded other hother := h.guarded other (List.mem_of_mem_eraseIdx hother)
  blob other hother := h.blob other (List.mem_of_mem_eraseIdx hother)
  issued := h.issued
  files id := by
    rw [h.moving_erase hi]
    split_ifs with hself
    · rw [hself, ← hmoved, ← h.moving_self hi]
      exact h.files job.id
    · exact h.files id
  fits := h.fits

/-- Nobody holds the session a request takes. -/
theorem Sound.addJob (h : s.Sound) (hbusy : s.busy job.id = false) (hopen : s.isOpen job.id = true)
    (hclaim : job.claim.isSome → s.jobs.any (·.claim = job.claim) = false)
    (hmoved : job.moved = false) : ({ s with jobs := s.jobs ++ [job] } : UploadStore).Sound where
  apart := by
    refine List.pairwise_append.2 ⟨h.apart, List.pairwise_singleton _ _, ?_⟩
    rintro other hother _ hmem
    rw [List.mem_singleton.1 hmem]
    simp only [busy, List.any_eq_false, decide_eq_true_eq] at hbusy hclaim
    refine ⟨hbusy other hother, fun hsome heq => ?_⟩
    exact hclaim (heq ▸ hsome) other hother heq
  guarded other hother := by
    rcases List.mem_append.1 hother with hmem | hmem
    · exact h.guarded other hmem
    · rw [List.mem_singleton.1 hmem]
      exact hopen
  blob other hother hother' := by
    rcases List.mem_append.1 hother with hmem | hmem
    · exact h.blob other hmem hother'
    · rw [List.mem_singleton.1 hmem, hmoved] at hother'
      cases hother'
  issued := h.issued
  files id := by
    have hmoving : ({ s with jobs := s.jobs ++ [job] } : UploadStore).moving id = s.moving id := by
      simp [moving, hmoved]
    rw [hmoving]
    exact h.files id
  fits := h.fits

/-- Nothing changes that the others can see. -/
theorem Sound.quiet (h : s.Sound) {s' : UploadStore} (hjobs : s'.jobs = s.jobs)
    (hblobs : s'.blobs = s.blobs) (hissued : s'.issued = s.issued)
    (hopen : ∀ id, s'.isOpen id = s.isOpen id) (hpart : ∀ id, s'.hasPart id = s.hasPart id)
    (hrows : ∀ id, (s'.sessions.lookup id).isSome = true → (s.sessions.lookup id).isSome = true)
    (htotal : Table.total Session.declared s'.sessions = Table.total Session.declared s.sessions) :
    s'.Sound where
  apart := hjobs ▸ h.apart
  guarded job hjob := by
    rw [hopen]
    exact h.guarded job (hjobs ▸ hjob)
  blob job hjob := by
    rw [hblobs]
    exact h.blob job (hjobs ▸ hjob)
  issued id hid := by
    rw [hissued]
    exact h.issued id (hrows id hid)
  files id := by
    have hmoving : s'.moving id = s.moving id := by rw [moving, hjobs, moving]
    rw [hpart, hopen, hmoving, h.files]
  fits := htotal ▸ h.fits

/-- A session nobody holds any more has its file if it is open, and only then. -/
theorem Sound.settle (h : s.Sound) {s' : UploadStore} (id : Name)
    (hsub : s'.jobs.Sublist s.jobs) (hfree : ∀ job ∈ s'.jobs, job.id ≠ id)
    (hkeep : ∀ job ∈ s.jobs, job.id ≠ id → job ∈ s'.jobs)
    (hblob : ∀ job ∈ s'.jobs, ∀ c ∈ job.claim, (s.blobs.lookup c).isSome = true →
      (s'.blobs.lookup c).isSome = true)
    (hissued : ∀ id, (s'.sessions.lookup id).isSome = true → id ∈ s'.issued)
    (hopen : ∀ j, j ≠ id → s'.isOpen j = s.isOpen j)
    (hpart : ∀ j, j ≠ id → s'.hasPart j = s.hasPart j) (hself : s'.hasPart id = s'.isOpen id)
    (hfits : Table.total Session.declared s'.sessions ≤ i64Max) : s'.Sound where
  apart := h.apart.sublist hsub
  guarded job hjob := by
    rw [hopen job.id (hfree job hjob)]
    exact h.guarded job (hsub.subset hjob)
  blob job hjob hmoved := by
    obtain ⟨c, hc, hsome⟩ := h.blob job (hsub.subset hjob) hmoved
    exact ⟨c, hc, hblob job hjob c hc hsome⟩
  issued := hissued
  files j := by
    by_cases hj : j = id
    · have hmoving : s'.moving j = false :=
        moving_eq_false.2 fun job hjob hid => absurd (hid.trans hj) (hfree job hjob)
      rw [hmoving, hj, hself, Bool.not_false, Bool.and_true]
    · have hmoving : s'.moving j = s.moving j := by
        rw [Bool.eq_iff_iff, moving_eq_true, moving_eq_true]
        constructor
        · rintro ⟨job, hjob, rest⟩
          exact ⟨job, hsub.subset hjob, rest⟩
        · rintro ⟨job, hjob, hid, hmoved⟩
          exact ⟨job, hkeep job hjob (hid ▸ hj), hid, hmoved⟩
      rw [hmoving, hopen j hj, hpart j hj, h.files]
  fits := hfits

/-- The last step of a request that holds a session. -/
theorem Sound.leave (h : s.Sound) (hi : s.jobs[i]? = some job) {s' : UploadStore}
    (hjobs : s'.jobs = s.jobs.eraseIdx i)
    (hblob : ∀ other ∈ s'.jobs, ∀ c ∈ other.claim, (s.blobs.lookup c).isSome = true →
      (s'.blobs.lookup c).isSome = true)
    (hissued : ∀ id, (s'.sessions.lookup id).isSome = true → id ∈ s'.issued)
    (hopen : ∀ j, j ≠ job.id → s'.isOpen j = s.isOpen j)
    (hpart : ∀ j, j ≠ job.id → s'.hasPart j = s.hasPart j)
    (hself : s'.hasPart job.id = s'.isOpen job.id)
    (hfits : Table.total Session.declared s'.sessions ≤ i64Max) : s'.Sound := by
  refine h.settle job.id ?_ ?_ ?_ hblob hissued hopen hpart hself hfits
  · rw [hjobs]
    exact List.eraseIdx_sublist ..
  · rw [hjobs]
    intro other hother hid
    obtain ⟨k, hki, hk⟩ := List.mem_eraseIdx_iff_getElem?.1 hother
    exact hki (h.only hi hk hid)
  · intro other hother hid
    rw [hjobs]
    obtain ⟨k, hk⟩ := List.mem_iff_getElem?.1 hother
    refine List.mem_eraseIdx_iff_getElem?.2 ⟨k, ?_, hk⟩
    rintro rfl
    exact hid (congrArg UploadJob.id (Option.some.inj (hk.symm.trans hi)))

/-! ### Parts of a store that a step leaves alone -/

theorem isOpen_insert (t : Table Name Session) (id j : Name) (row : Session) :
    ({ s with sessions := t.insert id row } : UploadStore).isOpen j =
      if j = id then row.committed.isNone else (t.lookup j).any (·.committed.isNone) := by
  rw [isOpen, Table.lookup_insert_eq]
  split_ifs <;> rfl

theorem Sound.edit (h : s.Sound) (id : Name) (f : List UInt8 → List UInt8) :
    (s.edit id f).Sound := by
  unfold UploadStore.edit
  split
  · next file hfile =>
      refine h.quiet rfl rfl rfl (fun _ => rfl) (fun j => ?_) (fun _ hj => hj) rfl
      rw [hasPart, hasPart, Table.lookup_insert_eq]
      split_ifs with hj
      · rw [hj, hfile]
        rfl
      · rfl
  · exact h

/-- A row that is exchanged for one as open, declared the same, changes nothing. -/
theorem Sound.touchUpload (h : s.Sound) (id : Name) (now : ℕ) : (s.touchUpload id now).Sound := by
  unfold UploadStore.touchUpload
  split
  · next row hrow =>
      split_ifs with hnone
      · refine h.quiet rfl rfl rfl (fun j => ?_) (fun _ => rfl) (fun j hj => ?_) ?_
        · rw [isOpen_insert]
          split_ifs with hj
          · rw [hj, isOpen, hrow]
            rfl
          · rfl
        · rw [Table.lookup_insert_eq] at hj
          split_ifs at hj with hid
          · rw [hid, hrow]
            rfl
          · exact hj
        · have htotal := Table.total_insert_of_some (f := Session.declared)
            (a := { row with idleExpires := now + uploadIdleSecs }) hrow
          have hsame : Session.declared { row with idleExpires := now + uploadIdleSecs } =
            row.declared := rfl
          show Table.total Session.declared
              (s.sessions.insert id { row with idleExpires := now + uploadIdleSecs }) =
            Table.total Session.declared s.sessions
          omega
      · exact h
  · exact h

theorem Sound.commitDeposit (h : s.Sound) {id claim now maxTtl granted : ℕ} {s' : UploadStore}
    (hdep : s.commitDeposit id claim now maxTtl = some (granted, s')) :
    s'.Sound ∧ s'.jobs = s.jobs := by
  unfold UploadStore.commitDeposit at hdep
  split at hdep
  · dsimp only at hdep
    split at hdep
    · obtain ⟨rfl, rfl⟩ := Prod.mk.inj (Option.some.inj hdep)
      exact ⟨h.quiet rfl rfl rfl (fun _ => rfl) (fun _ => rfl) (fun _ hj => hj) rfl, rfl⟩
    · cases hdep
  · cases hdep

theorem isOpen_of_info {now : ℕ} {info : UploadInfo} (hinfo : s.uploadInfo id now = some info)
    (hnone : info.committed.isNone = true) : s.isOpen id = true := by
  unfold uploadInfo at hinfo
  cases hrow : s.sessions.lookup id with
  | none =>
      rw [hrow] at hinfo
      cases hinfo
  | some row =>
      refine isOpen_eq_true.2 ⟨row, hrow, ?_⟩
      cases hdone : row.committed with
      | none => rfl
      | some done =>
          simp only [hrow, hdone, Option.some.injEq] at hinfo
          rw [← hinfo] at hnone
          cases hnone

/-! ### The steps that need their files and rows to go together -/

theorem not_busy : s.busy id = false ↔ ∀ job ∈ s.jobs, job.id ≠ id := by
  simp [busy]

theorem Sound.free (h : s.Sound) (hid : s.isOpen id = false) : s.busy id = false := by
  refine not_busy.2 fun job hjob hself => ?_
  rw [← hself, h.guarded job hjob] at hid
  cases hid

theorem Sound.isOpen_of_issued (h : s.Sound) (hid : id ∉ s.issued) : s.isOpen id = false := by
  rw [Bool.eq_false_iff]
  intro hopen
  obtain ⟨row, hrow, -⟩ := isOpen_eq_true.1 hopen
  exact hid (h.issued id (by rw [hrow]; rfl))

theorem moving_of_not_busy (h : s.busy id = false) : s.moving id = false :=
  moving_eq_false.2 fun job hjob hself => absurd hself (not_busy.1 h job hjob)

theorem isOpen_forget (removed deleted : Bool) (j : Name) :
    (s.forget id removed deleted).isOpen j = if deleted ∧ j = id then false else s.isOpen j := by
  unfold forget isOpen
  cases deleted with
  | false => simp
  | true =>
      simp only [if_true, true_and, Table.lookup_erase_eq]
      split_ifs <;> rfl

theorem hasPart_forget (removed deleted : Bool) (j : Name) :
    (s.forget id removed deleted).hasPart j =
      if (s.isOpen id && removed) ∧ j = id then false else s.hasPart j := by
  unfold forget hasPart
  cases hgone : s.isOpen id && removed with
  | false => simp
  | true =>
      simp only [if_true, true_and, Table.lookup_erase_eq]
      split_ifs <;> rfl

theorem Sound.forget (h : s.Sound) (hbusy : s.busy id = false) {removed deleted : Bool}
    (hcalm : s.isOpen id = true → removed = deleted) : (s.forget id removed deleted).Sound := by
  refine h.settle id (List.Sublist.refl _) (not_busy.1 hbusy) (fun _ hjob _ => hjob)
    (fun _ _ _ _ hc => hc) (fun j hj => ?_) (fun j hj => ?_) (fun j hj => ?_) ?_ ?_
  · refine h.issued j ?_
    unfold UploadStore.forget at hj
    cases deleted with
    | false => exact hj
    | true =>
        simp only [if_true, Table.lookup_erase_eq] at hj
        split_ifs at hj
        · cases hj
        · exact hj
  · rw [isOpen_forget, if_neg fun hself => hj hself.2]
  · rw [hasPart_forget, if_neg fun hself => hj hself.2]
  · have hfiles := h.files id
    rw [moving_of_not_busy hbusy, Bool.not_false, Bool.and_true] at hfiles
    rw [isOpen_forget, hasPart_forget, hfiles]
    cases hopen : s.isOpen id with
    | false => simp
    | true => simp [hcalm hopen]
  · unfold UploadStore.forget
    cases deleted with
    | false => exact h.fits
    | true => exact (Table.total_erase_le ..).trans h.fits

/-- The partial file is the row's, or is taken back with it. -/
theorem Sound.openUpload (h : s.Sound) (hid : id ∉ s.issued) {now maxOpen : ℕ} {o : UploadOpen}
    {created inserted removed : Bool} (hfits : inserted = true →
      Table.total Session.declared s.sessions + o.length ≤ i64Max)
    (hremoved : inserted = false → removed = true) :
    (s.openUpload id now maxOpen o created inserted removed).Sound := by
  unfold UploadStore.openUpload
  split_ifs with hrefused hins hrem
  · exact h
  · have hnone : s.sessions.lookup id = none := by
      cases hrow : s.sessions.lookup id with
      | none => rfl
      | some row => exact absurd (h.issued id (by rw [hrow]; rfl)) hid
    have hfree := h.free (h.isOpen_of_issued hid)
    refine h.settle id (List.Sublist.refl _) (not_busy.1 hfree) (fun _ hjob _ => hjob)
      (fun _ _ _ _ hc => hc) (fun j hj => ?_) (fun j hj => ?_) (fun j hj => ?_) ?_ ?_
    · rw [Table.lookup_insert_eq] at hj
      split_ifs at hj with hself
      · rw [hself]
        exact Finset.mem_insert_self ..
      · exact Finset.mem_insert_of_mem (h.issued j hj)
    · rw [isOpen, Table.lookup_insert_eq, if_neg hj]
      rfl
    · rw [hasPart, Table.lookup_insert_eq, if_neg hj]
      rfl
    · rw [hasPart, isOpen, Table.lookup_insert_eq, Table.lookup_insert_eq, if_pos rfl, if_pos rfl]
      rfl
    · rw [Table.total_insert_of_none hnone, Nat.add_comm]
      exact hfits hins
  · exact h
  · cases inserted with
    | true => exact absurd rfl hins
    | false => exact absurd (hremoved rfl) hrem

/-- The rename of a commit. -/
theorem Sound.publish (h : s.Sound) {id claim now : ℕ}
    (hi : s.jobs[i]? = some (.publishing id claim now)) {s' : UploadStore}
    (hs' : s.rename id claim = some s') : (s'.setJob i (some (.recording id claim now))).Sound := by
  obtain ⟨file, hfile, rfl⟩ := Option.map_eq_some_iff.1 hs'
  refine ⟨?_, ?_, ?_, h.issued, fun j => ?_, h.fits⟩
  · refine pairwise_set (fun _ _ => Apart.symm) h.apart fun k other hk hki => ?_
    show Apart (.publishing id claim now) other
    exact pairwise_getElem? (fun _ _ => Apart.symm) h.apart hi hk (Ne.symm hki)
  · have hguard : s.isOpen id = true := h.guarded _ (List.mem_of_getElem? hi)
    exact forall_mem_set hguard fun k other hk _ => h.guarded other (List.mem_of_getElem? hk)
  · refine forall_mem_set ?_ fun k other hk _ hmoved => ?_
    · intro _
      refine ⟨claim, rfl, ?_⟩
      show ((s.blobs.insert claim file).lookup claim).isSome = true
      rw [Table.lookup_insert_eq, if_pos rfl]
      rfl
    · obtain ⟨c, hc, hsome⟩ := h.blob other (List.mem_of_getElem? hk) hmoved
      refine ⟨c, hc, ?_⟩
      show ((s.blobs.insert claim file).lookup c).isSome = true
      rw [Table.lookup_insert_eq]
      split_ifs
      · rfl
      · exact hsome
  · have hmoving : ({ s with
          parts := s.parts.erase id, blobs := s.blobs.insert claim file
          jobs := s.jobs.set i (.recording id claim now) } : UploadStore).moving j =
        if j = id then true else s.moving j :=
      h.moving_set hi (show (UploadJob.recording id claim now).id = id from rfl) j
    show (((s.parts.erase id).lookup j).isSome) = (s.isOpen j && !_)
    rw [Table.lookup_erase_eq]
    refine Eq.trans ?_ (congrArg (fun b => s.isOpen j && !b) hmoving.symm)
    split_ifs with hself
    · simp
    · exact h.files j

theorem isOpen_mark (claim now granted : ℕ) (j : Name) :
    (s.mark id claim now granted).isOpen j = if j = id then false else s.isOpen j := by
  unfold mark
  cases hrow : s.sessions.lookup id with
  | some row =>
      dsimp only
      rw [isOpen_insert]
      rfl
  | none =>
      dsimp only
      split_ifs with hj
      · rw [hj, isOpen, hrow]
        rfl
      · rfl

/-- The last step of a commit: the session is open no more, and its file is elsewhere. -/
theorem Sound.mark (h : s.Sound) {id claim granted now : ℕ}
    (hi : s.jobs[i]? = some (.marking id claim granted now)) :
    ((s.mark id claim now granted).setJob i none).Sound := by
  have hrows : ∀ j, ((s.mark id claim now granted).sessions.lookup j).isSome = true →
      (s.sessions.lookup j).isSome = true := by
    intro j
    unfold UploadStore.mark
    cases hrow : s.sessions.lookup id with
    | some row =>
        dsimp only
        rw [Table.lookup_insert_eq]
        split_ifs with hj
        · rw [hj, hrow]
          exact fun _ => rfl
        · exact fun hsome => hsome
    | none => exact fun hsome => hsome
  have hframe : (s.mark id claim now granted).parts = s.parts ∧
      (s.mark id claim now granted).jobs = s.jobs ∧
      (s.mark id claim now granted).blobs = s.blobs ∧
      (s.mark id claim now granted).issued = s.issued := by
    unfold UploadStore.mark
    split <;> exact ⟨rfl, rfl, rfl, rfl⟩
  obtain ⟨hparts, hjobs, hblobs, hissued⟩ := hframe
  refine h.leave hi (congrArg (·.eraseIdx i) hjobs) (fun _ _ c _ hc => ?_) (fun j hj => ?_)
    (fun j hj => ?_) (fun j _ => ?_) ?_ ?_
  · show ((s.mark id claim now granted).blobs.lookup c).isSome = true
    rwa [hblobs]
  · show j ∈ (s.mark id claim now granted).issued
    rw [hissued]
    exact h.issued j (hrows j hj)
  · show (s.mark id claim now granted).isOpen j = s.isOpen j
    rw [isOpen_mark, if_neg (show ¬ j = id from hj)]
  · show (s.mark id claim now granted).hasPart j = s.hasPart j
    rw [hasPart, hparts, hasPart]
  · show (s.mark id claim now granted).hasPart id = (s.mark id claim now granted).isOpen id
    have hmoving : s.moving id = true := h.moving_self hi
    rw [isOpen_mark, if_pos rfl, hasPart, hparts]
    have hfiles := h.files id
    rwa [hmoving, Bool.not_true, Bool.and_false] at hfiles
  · show Table.total Session.declared (s.mark id claim now granted).sessions ≤ i64Max
    refine le_trans ?_ h.fits
    unfold UploadStore.mark
    cases hrow : s.sessions.lookup id with
    | some row =>
        dsimp only
        refine le_trans (Nat.le_add_right _ row.declared) ?_
        rw [Table.total_insert_of_some hrow]
        exact (Nat.zero_add _).le
    | none => exact Nat.le_refl _

/-- The file of a commit whose entry was refused is the session's again. -/
theorem Sound.putBack (h : s.Sound) {id claim : ℕ}
    (hi : s.jobs[i]? = some (.restoring id claim)) :
    ((s.putBack id claim).setJob i none).Sound := by
  obtain ⟨c, hc, hsome⟩ := h.blob _ (List.mem_of_getElem? hi) rfl
  obtain rfl := Option.some.inj hc
  obtain ⟨file, hfile⟩ := Option.isSome_iff_exists.1 hsome
  have heq : s.putBack id claim =
      { s with parts := s.parts.insert id file, blobs := s.blobs.erase claim } := by
    rw [UploadStore.putBack, hfile]
  rw [heq]
  refine h.leave hi rfl (fun other hother c hclaim hblob => ?_) h.issued (fun _ _ => rfl)
    (fun j hj => ?_) ?_ h.fits
  · show ((s.blobs.erase claim).lookup c).isSome = true
    rw [Table.lookup_erase_eq, if_neg, hblob]
    rintro rfl
    -- another commit has drawn another claim
    obtain ⟨k, hki, hk⟩ := List.mem_eraseIdx_iff_getElem?.1 hother
    refine (pairwise_getElem? (fun _ _ => Apart.symm) h.apart hk hi hki).2 ?_ ?_
    · rw [hclaim]
      rfl
    · exact hclaim
  · show ((s.parts.insert id file).lookup j).isSome = s.hasPart j
    rw [Table.lookup_insert_eq, if_neg (show ¬ j = id from hj)]
    rfl
  · show ((s.parts.insert id file).lookup id).isSome = s.isOpen id
    rw [Table.lookup_insert_eq, if_pos rfl]
    exact (h.guarded _ (List.mem_of_getElem? hi)).symm

/-! ### The calm steps -/

/-- A file and its row come and go together: a draw that is refused its row takes its file
back, the last step of a commit does not fail, a removal takes both or neither; and the
declared lengths fit the column. -/
def Calm (maxOpen : ℕ) (s : UploadStore) : UploadEvent → Prop
  | .openUpload id o _ created inserted removed =>
      id ∉ s.issued → s.hasPart id = false → s.openIds.length < maxOpen → created = true →
        if inserted then Table.total Session.declared s.sessions + o.length ≤ i64Max
        else removed = true
  | .turn i ok => ∀ job ∈ s.jobs[i]?, job.closing = true → ok = true
  | .abort id removed deleted => s.busy id = false → s.isOpen id = true → removed = deleted
  | .reap now stuck kept =>
      ∀ id ∈ s.due now, s.busy id = false → s.isOpen id = true → (id ∈ stuck ↔ id ∈ kept)
  | _ => True

theorem Sound.turnJob (h : s.Sound) {maxTtl : ℕ} {ok : Bool}
    (hcalm : ∀ job ∈ s.jobs[i]?, job.closing = true → ok = true) :
    (s.turnJob maxTtl i ok).Sound := by
  unfold UploadStore.turnJob
  cases hi : s.jobs[i]? with
  | none => exact h
  | some job =>
      have hok := hcalm job hi
      cases job with
      | appending id length reached failed => exact h.setJob hi rfl rfl rfl
      | publishing id claim now =>
          dsimp only [UploadStore.turn]
          cases hren : (if ok then s.rename id claim else none) with
          | none => exact h.eraseJob hi rfl
          | some s' =>
              split_ifs at hren
              exact h.publish hi hren
      | recording id claim now =>
          dsimp only [UploadStore.turn]
          cases hdep : (if ok then s.commitDeposit id claim now maxTtl else none) with
          | none => exact h.setJob hi rfl rfl rfl
          | some p =>
              split_ifs at hdep
              obtain ⟨hs', hjobs⟩ := h.commitDeposit hdep
              have hi' : p.2.jobs[i]? = some (.recording id claim now) := by rw [hjobs, hi]
              exact hs'.setJob hi' rfl rfl rfl
      | restoring id claim =>
          dsimp only [UploadStore.turn]
          rw [if_pos (hok rfl)]
          exact h.putBack hi
      | marking id claim granted now =>
          dsimp only [UploadStore.turn]
          rw [if_pos (hok rfl)]
          exact h.mark hi

/-- One row of the reaper's list. -/
def reapOne (stuck kept : List Name) (s : UploadStore) (id : Name) : UploadStore :=
  if s.busy id then s else s.forget id (id ∉ stuck) (id ∉ kept)

theorem jobs_reapOne (stuck kept : List Name) (id : Name) :
    (reapOne stuck kept s id).jobs = s.jobs := by
  unfold reapOne
  split_ifs <;> rfl

theorem isOpen_reapOne (stuck kept : List Name) (j : Name) :
    (reapOne stuck kept s id).isOpen j =
      if s.busy id = false ∧ id ∉ kept ∧ j = id then false else s.isOpen j := by
  unfold reapOne
  cases s.busy id with
  | true => simp
  | false => simp [isOpen_forget]

theorem hasPart_reapOne (stuck kept : List Name) (j : Name) :
    (reapOne stuck kept s id).hasPart j =
      if s.busy id = false ∧ s.isOpen id = true ∧ id ∉ stuck ∧ j = id then false
      else s.hasPart j := by
  unfold reapOne
  cases s.busy id with
  | true => simp
  | false => simp [hasPart_forget, and_assoc]

/-- Where each row of the list goes with its file or stays with it, nothing is torn apart. -/
theorem Sound.reap {stuck kept : List Name} (ids : List Name) (h : s.Sound)
    (hcalm : ∀ id ∈ ids, s.busy id = false → s.isOpen id = true → (id ∈ stuck ↔ id ∈ kept)) :
    (ids.foldl (reapOne stuck kept) s).Sound := by
  induction ids generalizing s with
  | nil => exact h
  | cons id ids ih =>
      have hone : (reapOne stuck kept s id).Sound := by
        unfold reapOne
        split_ifs with hbusy
        · exact h
        · refine h.forget (Bool.eq_false_iff.2 hbusy) fun hopen => ?_
          have hboth := hcalm id List.mem_cons_self (Bool.eq_false_iff.2 hbusy) hopen
          simp [hboth]
      refine ih hone fun j hj hbusy hopen => ?_
      refine hcalm j (List.mem_cons_of_mem _ hj) ?_ ?_
      · rwa [busy, jobs_reapOne] at hbusy
      · rw [isOpen_reapOne] at hopen
        split_ifs at hopen
        exact hopen

theorem Sound.append (h : s.Sound) {now offset : ℕ} {opened : Bool} :
    (s.appendHandler id now offset opened).Sound := by
  unfold UploadStore.appendHandler
  split_ifs with hbusy
  · exact h
  · split
    · next info hinfo =>
        split_ifs with hlet
        · simp only [Bool.and_eq_true, decide_eq_true_eq] at hlet
          exact h.addJob (Bool.eq_false_iff.2 hbusy) (isOpen_of_info hinfo hlet.1.1) nofun rfl
        · exact h
    · exact h

theorem Sound.write (h : s.Sound) (i : ℕ) (chunk : List UInt8) (torn : Option ℕ) :
    (s.write i chunk torn).Sound := by
  unfold UploadStore.write
  split
  · next id length reached hi =>
      have hedit (f : List UInt8 → List UInt8) : (s.edit id f).jobs[i]? = s.jobs[i]? := by
        unfold UploadStore.edit
        split <;> rfl
      split_ifs
      · exact h.setJob hi rfl rfl rfl
      · split
        · exact (h.edit id _).setJob ((hedit _).trans hi) rfl rfl rfl
        · exact (h.edit id _).setJob ((hedit _).trans hi) rfl rfl rfl
  · exact h

theorem Sound.finish (h : s.Sound) (now i : ℕ) (broke cut touched : Bool) :
    (s.finishAppend now i broke cut touched).Sound := by
  unfold UploadStore.finishAppend
  split
  · next id length reached failed hi =>
      have herase := h.eraseJob hi rfl
      dsimp only
      split_ifs
      · exact (herase.edit id _).touchUpload id now
      · exact herase.touchUpload id now
      · exact herase.edit id _
      · exact herase
  · exact h

theorem Sound.commit (h : s.Sound) {claim now : ℕ} {read : Bool}
    (hclaim : s.jobs.any (·.claim = some claim) = false) :
    (s.beginCommit id claim now read).Sound := by
  unfold UploadStore.beginCommit
  split_ifs with hbusy
  · exact h
  · split
    · next info hinfo =>
        split_ifs with hlet
        · simp only [Bool.and_eq_true, decide_eq_true_eq] at hlet
          exact h.addJob (Bool.eq_false_iff.2 hbusy) (isOpen_of_info hinfo hlet.1.1)
            (fun _ => hclaim) rfl
        · exact h
    · exact h

variable {maxOpen maxTtl : ℕ} {e : UploadEvent}

theorem Sound.act (h : s.Sound) (hcalm : Calm maxOpen s e) : (s.act maxOpen maxTtl e).Sound := by
  cases e with
  | openUpload id o now created inserted removed =>
      simp only [UploadStore.act, Bool.or_eq_true, decide_eq_true_eq]
      split_ifs with hused
      · exact h
      · rw [not_or] at hused
        have hpart : s.hasPart id = false := Bool.eq_false_iff.2 hused.2
        by_cases hroom : s.openIds.length < maxOpen
        · cases created with
          | false => simpa [UploadStore.openUpload] using h
          | true =>
              have hboth := hcalm hused.1 hpart hroom rfl
              refine h.openUpload hused.1 (fun hins => ?_) (fun hins => ?_)
              · rwa [if_pos hins] at hboth
              · rwa [if_neg (by rw [hins]; exact Bool.false_ne_true)] at hboth
        · simpa [UploadStore.openUpload, not_lt.1 hroom] using h
  | append id now offset opened => exact h.append
  | write i chunk torn => exact h.write i chunk torn
  | finish i now broke cut touched => exact h.finish now i broke cut touched
  | drop i =>
      simp only [UploadStore.act, UploadStore.dropAppend]
      split
      · next hi => exact h.eraseJob hi rfl
      · exact h
  | commit id now claim read =>
      simp only [UploadStore.act, Bool.or_eq_true]
      split_ifs with hused
      · exact h
      · rw [not_or] at hused
        exact h.commit (Bool.eq_false_iff.2 hused.2)
  | turn i ok => exact h.turnJob hcalm
  | abort id removed deleted =>
      simp only [UploadStore.act, UploadStore.abortUpload]
      split_ifs with hbusy
      · exact h
      · exact h.forget (Bool.eq_false_iff.2 hbusy) (hcalm (Bool.eq_false_iff.2 hbusy))
  | reap now stuck kept => exact h.reap (s.due now) hcalm

/-! ### What is released -/

/-- No id is given out, and no session opened. -/
structure Fades (s s' : UploadStore) : Prop where
  released : s'.released = s.released
  issued : s'.issued = s.issued
  isOpen (id : Name) : s'.isOpen id = true → s.isOpen id = true

theorem Fades.refl : Fades s s := ⟨rfl, rfl, fun _ h => h⟩

theorem Fades.trans {s' s'' : UploadStore} (h : Fades s s') (h' : Fades s' s'') : Fades s s'' :=
  ⟨h'.released.trans h.released, h'.issued.trans h.issued,
    fun id hid => h.isOpen id (h'.isOpen id hid)⟩

/-- Neither the rows nor the records are touched. -/
theorem Fades.of_sessions {s' : UploadStore} (hreleased : s'.released = s.released)
    (hissued : s'.issued = s.issued) (hsessions : s'.sessions = s.sessions) : Fades s s' :=
  ⟨hreleased, hissued, fun id hid => by rwa [UploadStore.isOpen, hsessions] at hid⟩

theorem fades_setJob (i : ℕ) (next : Option UploadJob) : Fades s (s.setJob i next) := by
  cases next <;> exact .of_sessions rfl rfl rfl

theorem fades_edit (f : List UInt8 → List UInt8) : Fades s (s.edit id f) := by
  unfold edit
  split <;> exact .of_sessions rfl rfl rfl

theorem fades_touchUpload (now : ℕ) : Fades s (s.touchUpload id now) := by
  unfold touchUpload
  split
  · next row hrow =>
      split_ifs with hnone
      · refine ⟨rfl, rfl, fun j hj => ?_⟩
        rw [isOpen_insert] at hj
        split_ifs at hj with hself
        · exact isOpen_eq_true.2 ⟨row, hself ▸ hrow, hnone⟩
        · exact hj
      · exact .refl
  · exact .refl

theorem fades_forget (removed deleted : Bool) : Fades s (s.forget id removed deleted) := by
  refine ⟨rfl, rfl, fun j hj => ?_⟩
  rw [isOpen_forget] at hj
  split_ifs at hj
  exact hj

theorem fades_mark (claim now granted : ℕ) : Fades s (s.mark id claim now granted) := by
  have hrecords : (s.mark id claim now granted).released = s.released ∧
      (s.mark id claim now granted).issued = s.issued := by
    unfold mark
    split <;> exact ⟨rfl, rfl⟩
  refine ⟨hrecords.1, hrecords.2, fun j hj => ?_⟩
  rw [isOpen_mark] at hj
  split_ifs at hj
  exact hj

theorem fades_turn (maxTtl : ℕ) (ok : Bool) (job : UploadJob) :
    Fades s (s.turn maxTtl ok job).1 := by
  cases job with
  | appending id length reached failed => exact .refl
  | publishing id claim now =>
      dsimp only [turn]
      split
      · next s' hs' =>
          split_ifs at hs'
          obtain ⟨file, -, rfl⟩ := Option.map_eq_some_iff.1 hs'
          exact .of_sessions rfl rfl rfl
      · exact .refl
  | recording id claim now =>
      dsimp only [turn]
      split
      · next granted s' hs' =>
          split_ifs at hs'
          unfold commitDeposit at hs'
          split at hs'
          · dsimp only at hs'
            split at hs'
            · obtain ⟨rfl, rfl⟩ := Prod.mk.inj (Option.some.inj hs')
              exact .of_sessions rfl rfl rfl
            · cases hs'
          · cases hs'
      · exact .refl
  | restoring id claim =>
      dsimp only [turn, putBack]
      split_ifs
      · split <;> exact .of_sessions rfl rfl rfl
      · exact .refl
  | marking id claim granted now =>
      dsimp only [turn]
      split_ifs
      · exact fades_mark claim now granted
      · exact .refl

theorem fades_reap (stuck kept ids : List Name) :
    Fades s (ids.foldl (reapOne stuck kept) s) := by
  induction ids generalizing s with
  | nil => exact .refl
  | cons id ids ih =>
      refine Fades.trans ?_ ih
      unfold reapOne
      split_ifs
      · exact .refl
      · exact fades_forget ..

/-- Only an opening gives out an id, and the session under it is open. -/
theorem act_fades_or_opens (s : UploadStore) (maxOpen maxTtl : ℕ) (e : UploadEvent) :
    Fades s (s.act maxOpen maxTtl e) ∨ ∃ id, id ∉ s.issued ∧
      (s.act maxOpen maxTtl e).released = s.released ∧
      (s.act maxOpen maxTtl e).issued = insert id s.issued ∧
      ∀ j, (s.act maxOpen maxTtl e).isOpen j = if j = id then true else s.isOpen j := by
  cases e with
  | openUpload id o now created inserted removed =>
      simp only [act, Bool.or_eq_true, decide_eq_true_eq]
      split_ifs with hused
      · exact .inl .refl
      · rw [not_or] at hused
        unfold openUpload
        split_ifs
        · exact .inl .refl
        · refine .inr ⟨id, hused.1, rfl, rfl, fun j => ?_⟩
          rw [UploadStore.isOpen, Table.lookup_insert_eq]
          split_ifs <;> rfl
        · exact .inl .refl
        · exact .inl (.of_sessions rfl rfl rfl)
  | append id now offset opened =>
      left
      simp only [act, appendHandler]
      split_ifs
      · exact .refl
      · split
        · split_ifs
          · exact .of_sessions rfl rfl rfl
          · exact .refl
        · exact .refl
  | write i chunk torn =>
      left
      simp only [act, write]
      split
      · split_ifs
        · exact fades_setJob ..
        · split
          · exact (fades_edit _).trans (fades_setJob ..)
          · exact (fades_edit _).trans (fades_setJob ..)
      · exact .refl
  | finish i now broke cut touched =>
      left
      simp only [act, finishAppend]
      split
      · split_ifs
        · exact ((fades_setJob ..).trans (fades_edit _)).trans (fades_touchUpload now)
        · exact (fades_setJob ..).trans (fades_touchUpload now)
        · exact (fades_setJob ..).trans (fades_edit _)
        · exact fades_setJob ..
      · exact .refl
  | drop i =>
      left
      simp only [act, dropAppend]
      split
      · exact fades_setJob ..
      · exact .refl
  | commit id now claim read =>
      left
      simp only [act, beginCommit]
      split_ifs
      · exact .refl
      · exact .refl
      · split
        · split_ifs
          · exact .of_sessions rfl rfl rfl
          · exact .refl
        · exact .refl
  | turn i ok =>
      left
      simp only [act, turnJob]
      split
      · exact (fades_turn maxTtl ok _).trans (fades_setJob ..)
      · exact .refl
  | abort id removed deleted =>
      left
      simp only [act, abortUpload]
      split_ifs
      · exact .refl
      · exact fades_forget ..
  | reap now stuck kept => exact .inl (fades_reap stuck kept (s.due now))

/-- Each id that was given out has been released once if its session is open no more. -/
def Settled (s : UploadStore) : Prop := ∀ id,
  s.released.count id = if id ∈ s.issued ∧ s.isOpen id = false then 1 else 0

theorem Lifecycle.of_sound (h : s.Sound) (hsettled : s.Settled) : s.Lifecycle where
  guarded := h.guarded
  files id hid := by rw [h.files, hid, Bool.not_false, Bool.and_true]
  reserved := reserved_iff.2 h.fits
  released := hsettled

theorem Sound.empty : ({} : UploadStore).Sound :=
  ⟨List.Pairwise.nil, nofun, nofun, nofun, fun _ => rfl, Nat.zero_le _⟩

theorem Settled.empty : ({} : UploadStore).Settled := fun _ => rfl

/-- The record of what was released is nobody's business. -/
theorem Sound.of_records (h : s.Sound) {released : List Name} :
    ({ s with released } : UploadStore).Sound :=
  ⟨h.apart, h.guarded, h.blob, h.issued, h.files, h.fits⟩

theorem count_closed (s s' : UploadStore) (id : Name) :
    (s.openIds.filter (!s'.isOpen ·)).count id =
      if s.isOpen id = true ∧ s'.isOpen id = false then 1 else 0 := by
  have hnodup : (s.openIds.filter (!s'.isOpen ·)).Nodup := Table.nodup_keysWhere.filter _
  rw [hnodup.count]
  simp only [List.mem_filter, mem_openIds, Bool.not_eq_true']

theorem Settled.step (h : s.Settled) (hs : s.Sound) (maxOpen maxTtl : ℕ) (e : UploadEvent) :
    (s.step maxOpen maxTtl e).Settled := by
  intro id
  have hissued : s.isOpen id = true → id ∈ s.issued := fun hopen => by
    by_contra hid
    rw [hs.isOpen_of_issued hid] at hopen
    cases hopen
  show ((s.act maxOpen maxTtl e).released ++ _).count id =
    if id ∈ (s.act maxOpen maxTtl e).issued ∧ (s.act maxOpen maxTtl e).isOpen id = false then 1
    else 0
  rw [List.count_append, count_closed]
  rcases act_fades_or_opens s maxOpen maxTtl e with
    hfade | ⟨new, hnew, hreleased, hgiven, hopen⟩
  · rw [hfade.released, hfade.issued, h id]
    have hmono := hfade.isOpen id
    cases hafter : (s.act maxOpen maxTtl e).isOpen id with
    | true => simp [hmono hafter]
    | false =>
        cases hbefore : s.isOpen id with
        | true => simp [hissued hbefore]
        | false => simp
  · rw [hreleased, hgiven, hopen, h id]
    by_cases hself : id = new
    · subst hself
      simp [hnew]
    · simp only [Finset.mem_insert, hself, false_or, if_false]
      cases s.isOpen id <;> simp

/-! ### Only calm steps keep the lifecycle -/

theorem reap_of_notMem (stuck kept : List Name) {ids : List Name} (hid : id ∉ ids) :
    (ids.foldl (reapOne stuck kept) s).isOpen id = s.isOpen id ∧
      (ids.foldl (reapOne stuck kept) s).hasPart id = s.hasPart id := by
  induction ids generalizing s with
  | nil => exact ⟨rfl, rfl⟩
  | cons j ids ih =>
      have hne : id ≠ j := fun heq => hid (heq ▸ List.mem_cons_self)
      obtain ⟨hopen, hpart⟩ := ih (s := reapOne stuck kept s j)
        fun h => hid (List.mem_cons_of_mem _ h)
      rw [List.foldl_cons, hopen, hpart, isOpen_reapOne, hasPart_reapOne,
        if_neg fun h => hne h.2.2, if_neg fun h => hne h.2.2.2]
      exact ⟨rfl, rfl⟩

/-- What the reaper leaves of an open session on its list. -/
theorem reap_of_mem (stuck kept : List Name) {ids : List Name} (hnodup : ids.Nodup) (hid : id ∈ ids)
    (hbusy : s.busy id = false) (hopen : s.isOpen id = true) :
    (ids.foldl (reapOne stuck kept) s).isOpen id = decide (id ∈ kept) ∧
      (ids.foldl (reapOne stuck kept) s).hasPart id = (s.hasPart id && decide (id ∈ stuck)) := by
  induction ids generalizing s with
  | nil => cases hid
  | cons j ids ih =>
      obtain ⟨hj, hnodup⟩ := List.nodup_cons.1 hnodup
      rw [List.foldl_cons]
      rcases List.mem_cons.1 hid with rfl | hid
      · obtain ⟨hopen', hpart'⟩ := reap_of_notMem stuck kept (s := reapOne stuck kept s id) hj
        rw [hopen', hpart', isOpen_reapOne, hasPart_reapOne, hbusy, hopen]
        constructor
        · by_cases hkept : id ∈ kept <;> simp [hkept]
        · by_cases hstuck : id ∈ stuck <;> simp [hstuck]
      · have hne : id ≠ j := fun heq => hj (heq ▸ hid)
        have hpart : (reapOne stuck kept s j).hasPart id = s.hasPart id := by
          rw [hasPart_reapOne, if_neg fun h => hne h.2.2.2]
        rw [← hpart]
        refine ih hnodup hid ?_ ?_
        · rwa [busy, jobs_reapOne]
        · rw [isOpen_reapOne, if_neg fun h => hne h.2.2, hopen]

theorem jobs_reap (stuck kept ids : List Name) :
    (ids.foldl (reapOne stuck kept) s).jobs = s.jobs := by
  induction ids generalizing s with
  | nil => rfl
  | cons id ids ih => rw [List.foldl_cons, ih, jobs_reapOne]

/-- A commit that fails where it should have put things together leaves an open session
without its file. -/
theorem Sound.torn (h : s.Sound) (hi : s.jobs[i]? = some job) (hmoved : job.moved = true)
    (hfiles : (s.setJob i none).Placed) : False := by
  have hself := hfiles job.id (by rw [h.moving_erase hi, if_pos rfl])
  have hgone : s.hasPart job.id = false := by
    rw [h.files, h.moving_self hi, hmoved, Bool.not_true, Bool.and_false]
  have hopen : s.isOpen job.id = true := h.guarded job (List.mem_of_getElem? hi)
  have hself' : s.hasPart job.id = s.isOpen job.id := hself
  rw [hgone, hopen] at hself'
  cases hself'

theorem Sound.calm_of_placed (h : s.Sound) (maxTtl : ℕ) (e : UploadEvent)
    (hfiles : (s.act maxOpen maxTtl e).Placed)
    (hfits : Table.total Session.declared (s.act maxOpen maxTtl e).sessions ≤ i64Max) :
    Calm maxOpen s e := by
  cases e with
  | openUpload id o now created inserted removed =>
      intro hid hpart hroom hcreated
      have hact : s.act maxOpen maxTtl (.openUpload id o now created inserted removed) =
          s.openUpload id now maxOpen o created inserted removed := by
        have hpart' : (s.parts.lookup id).isSome = false := hpart
        simp [UploadStore.act, hid, hpart']
      have hcond : ¬ (decide (s.openIds.length ≥ maxOpen) || !created) = true := by
        simp [hroom, hcreated]
      rw [hact, UploadStore.openUpload, if_neg hcond] at hfiles hfits
      cases inserted with
      | true =>
          have hnone : s.sessions.lookup id = none := by
            cases hrow : s.sessions.lookup id with
            | none => rfl
            | some row => exact absurd (h.issued id (by rw [hrow]; rfl)) hid
          have htotal : Table.total Session.declared (s.sessions.insert id
              { opened := o, idleExpires := now + uploadIdleSecs }) =
                o.length + Table.total Session.declared s.sessions :=
            Table.total_insert_of_none hnone
          rw [if_pos rfl, htotal, Nat.add_comm] at hfits
          exact hfits
      | false =>
          show removed = true
          by_contra hremoved
          rw [if_neg Bool.false_ne_true, if_neg hremoved] at hfiles
          have hopen := h.isOpen_of_issued hid
          have hhas : ((s.parts.insert id []).lookup id).isSome = s.isOpen id :=
            hfiles id (moving_of_not_busy (h.free hopen))
          rw [hopen, Table.lookup_insert_eq, if_pos rfl] at hhas
          cases hhas
  | turn i ok =>
      intro job hjob hclosing
      by_contra hok
      have hi : s.jobs[i]? = some job := hjob
      have hact : s.act maxOpen maxTtl (.turn i ok) = s.setJob i none ∧ job.moved = true := by
        rw [Bool.not_eq_true] at hok
        cases job with
        | restoring id claim =>
            exact ⟨by simp [UploadStore.act, UploadStore.turnJob, hi, turn, hok], rfl⟩
        | marking id claim granted now =>
            exact ⟨by simp [UploadStore.act, UploadStore.turnJob, hi, turn, hok], rfl⟩
        | _ => cases hclosing
      rw [hact.1] at hfiles
      exact h.torn hi hact.2 hfiles
  | abort id removed deleted =>
      intro hbusy hopen
      have hact : s.act maxOpen maxTtl (.abort id removed deleted) =
          s.forget id removed deleted := by
        simp [UploadStore.act, abortUpload, hbusy]
      rw [hact] at hfiles
      have hself := hfiles id (moving_of_not_busy hbusy)
      have hpart := h.files id
      rw [moving_of_not_busy hbusy, hopen] at hpart
      rw [isOpen_forget, hasPart_forget, hopen, hpart] at hself
      cases removed <;> cases deleted <;> simp at hself ⊢
  | reap now stuck kept =>
      intro id hid hbusy hopen
      obtain ⟨hopen', hpart'⟩ := reap_of_mem stuck kept
        Table.nodup_keysWhere hid hbusy hopen
      have hmoving : (s.uploadReap now stuck kept).moving id = false := by
        show ((s.due now).foldl (reapOne stuck kept) s).moving id = false
        rw [moving, jobs_reap]
        exact moving_of_not_busy hbusy
      have hself := hfiles id hmoving
      have hpart := h.files id
      rw [moving_of_not_busy hbusy, hopen] at hpart
      have heq : (s.hasPart id && decide (id ∈ stuck)) = decide (id ∈ kept) :=
        hpart'.symm.trans (hself.trans hopen')
      rw [hpart] at heq
      simpa using heq
  | _ => trivial

/-- Over every interleaving of requests and failures, the lifecycle holds in every state
exactly when every step is calm. -/
theorem lifecycle_iff_calm (maxOpen maxTtl : ℕ) (es : List UploadEvent) :
    (∀ n, Lifecycle ((es.take n).foldl (fun s e => s.step maxOpen maxTtl e) {})) ↔
      Along (fun s e => s.step maxOpen maxTtl e) (Calm maxOpen) {} es := by
  refine forall_take_iff_along_of (I := fun s : UploadStore => s.Sound ∧ s.Settled)
    (fun s h => Lifecycle.of_sound h.1 h.2) (fun s e h hcalm => ?_) (fun s e h hl => ?_)
    ⟨Sound.empty, Settled.empty⟩ es
  · exact ⟨(h.1.act hcalm).of_records, h.2.step h.1 maxOpen maxTtl e⟩
  · exact h.1.calm_of_placed maxTtl e hl.files (reserved_iff.1 hl.reserved)

/-- One session of three bytes, sent in one append, up to its commit. -/
def oneUpload : List UploadEvent :=
  [.openUpload 1 ⟨[], [], 3600, 1, 3⟩ 1000 true true true, .append 1 1000 0 true,
    .write 0 [7, 8, 9] none, .finish 0 1001 false true true]

/-- The last statement of the commit fails: the entry is made, and the session is open
without its file. -/
def unmarked : UploadStore :=
  List.foldl (fun s e => s.step 256 86400 e) {}
    (List.append oneUpload [.commit 1 1002 5 true, .turn 0 true, .turn 0 true, .turn 0 false])

/-- An abort removes the file, and then cannot delete the row. -/
def halfAborted : UploadStore :=
  List.foldl (fun s e => s.step 256 86400 e) {} (List.append oneUpload [.abort 1 true false])

theorem not_lifecycle : ¬ unmarked.Lifecycle ∧ ¬ halfAborted.Lifecycle := by
  constructor
  · intro h
    have hfiles := h.files 1 (by decide +kernel)
    revert hfiles
    decide +kernel
  · intro h
    have hfiles := h.files 1 (by decide +kernel)
    revert hfiles
    decide +kernel

end UploadStore

end Arvolo.Relay
