import Arvolo.Lib.Machine
import Arvolo.Relay.Uploads

/-!
One commit from beginning to end (`commit_upload`), with at most one of its steps failing,
and the commits that follow it. The busy guard keeps every other request away from the
session meanwhile.
-/

namespace Arvolo.Relay

open Lib

/-- The database and file steps of `commit_upload`, in order; `restore` is the rename back
after a refused entry. -/
inductive CommitStep
  | info
  | metadata
  | fields
  | rename
  | insert
  | restore
  | mark
  deriving DecidableEq

inductive CommitAnswer
  | done (claim granted : ℕ)
  /-- The bytes that are there. -/
  | incomplete (received : ℕ)
  | notFound
  | failed
  deriving DecidableEq

namespace UploadStore

variable (s : UploadStore) (id claim now maxTtl : ℕ) (fault : Option CommitStep)

/-- From the complete file on. -/
def publish : UploadStore × CommitAnswer :=
  match if fault = some .rename then none else s.rename id claim with
  | none => (s, .failed)
  | some s =>
      match if fault = some .insert then none else s.commitDeposit id claim now maxTtl with
      | none => (if fault = some .restore then s else s.putBack id claim, .failed)
      | some (granted, s) =>
          if fault = some .mark then (s, .failed)
          else (s.mark id claim now granted, .done claim granted)

/-- A file that cannot be looked at is taken for a missing one. -/
def seen : UploadStore :=
  if fault = some .metadata then { s with parts := s.parts.erase id } else s

/-- `commit_upload`. -/
def commitUpload : UploadStore × CommitAnswer :=
  if fault = some .info then (s, .failed)
  else
    match (s.seen id fault).uploadInfo id now with
    | none => (s, .notFound)
    | some info =>
        match info.committed with
        | some done => (s, .done done.1 done.2)
        | none =>
            if info.received ≠ info.length then (s, .incomplete info.received)
            else if fault = some .fields then (s, .failed)
            else s.publish id claim now maxTtl fault

/-- A claim that is drawn is not in use. -/
def Fresh : Prop := s.blobs.lookup claim = none ∧ s.entries.lookup claim = none

instance : Decidable (s.Fresh claim) := inferInstanceAs (Decidable (_ ∧ _))

/-- One request to commit. -/
structure Attempt where
  now : ℕ
  claim : Name
  fault : Option CommitStep
  deriving DecidableEq

def attempt (a : Attempt) : UploadStore :=
  if s.Fresh a.claim then (s.commitUpload id a.claim a.now maxTtl a.fault).1 else s

/-- The session is open, and its file has all of its bytes. -/
def Complete (b : List UInt8) : Prop :=
  ∃ row, s.sessions.lookup id = some row ∧ row.committed = none ∧
    s.parts.lookup id = some b ∧ row.length ≤ b.length

/-- The session's deadline has not passed. -/
def Live : Prop := ∃ row ∈ s.sessions.lookup id, now < row.idleExpires

/-- The session can be committed again, or answers a commit with the claim under which its
bytes are stored. -/
def Retriable (b : List UInt8) : Prop :=
  (s.Complete id b ∧ ∀ now claim, s.Live id now → s.Fresh claim →
    ∃ granted, (s.commitUpload id claim now maxTtl none).2 = .done claim granted) ∨
  ∃ c granted, s.blobs.lookup c = some b ∧ (s.entries.lookup c).isSome = true ∧
    ∀ now claim, (s.commitUpload id claim now maxTtl none).2 = .done c granted

/-- The bytes are in the session's file, or in the blob of its entry. -/
def Kept (b : List UInt8) : Prop :=
  s.parts.lookup id = some b ∨ ∃ c, (id, c) ∈ s.created ∧ s.blobs.lookup c = some b

def entriesOf : ℕ := s.created.countP (·.1 = id)

/-- A commit is atomic, and repeating it harmless. -/
structure Atomic (b : List UInt8) : Prop where
  retriable : s.Retriable id maxTtl b
  once : s.entriesOf id ≤ 1
  kept : s.Kept id b

variable {s id claim now maxTtl fault} {b : List UInt8}

/-! ### One commit -/

theorem commitDeposit_eq (now maxTtl : ℕ) {row : Session} (hrow : s.sessions.lookup id = some row)
    (hfresh : s.entries.lookup claim = none) :
    ∃ granted entry, s.commitDeposit id claim now maxTtl = some (granted,
      { s with entries := s.entries.insert claim entry, created := s.created ++ [(id, claim)] }) := by
  unfold commitDeposit
  rw [hrow]
  simp only [Mailbox.commitDeposit, hfresh]
  exact ⟨_, _, rfl⟩

theorem rename_eq (claim : Name) (hpart : s.parts.lookup id = some b) : s.rename id claim =
    some { s with parts := s.parts.erase id, blobs := s.blobs.insert claim b } := by
  rw [rename, hpart, Option.map_some]

theorem sessions_seen : (s.seen id fault).sessions = s.sessions := by
  unfold seen
  split_ifs <;> rfl

theorem seen_of_ne (h : fault ≠ some .metadata) : s.seen id fault = s := if_neg h

/-- A session whose commit is remembered answers with it, whatever is asked. -/
theorem commitUpload_of_committed {row : Session} {c granted : ℕ}
    (hrow : s.sessions.lookup id = some row) (hdone : row.committed = some (c, granted)) :
    (s.commitUpload id claim now maxTtl fault).1 = s ∧
      (fault ≠ some .info → (s.commitUpload id claim now maxTtl fault).2 = .done c granted) := by
  have hinfo : (s.seen id fault).uploadInfo id now =
      some ⟨row.length, row.length, some (c, granted)⟩ := by
    rw [uploadInfo, sessions_seen, hrow]
    simp only [hdone]
  unfold commitUpload
  rw [hinfo]
  by_cases hfault : fault = some .info
  · rw [if_pos hfault]
    exact ⟨rfl, fun hne => absurd hfault hne⟩
  · rw [if_neg hfault]
    exact ⟨rfl, fun _ => rfl⟩

/-- The commit gets to the rename. -/
def Proceeds (s : UploadStore) (id now : ℕ) (fault : Option CommitStep) : Prop :=
  s.Live id now ∧ fault ≠ some .info ∧ fault ≠ some .metadata ∧ fault ≠ some .fields

theorem commitUpload_of_proceeds (h : s.Complete id b) (hp : s.Proceeds id now fault) :
    s.commitUpload id claim now maxTtl fault = s.publish id claim now maxTtl fault := by
  obtain ⟨row, hrow, hnone, hpart, hlen⟩ := h
  obtain ⟨⟨row', hrow', hlive⟩, hinfo, hmeta, hfields⟩ := hp
  obtain rfl := Option.some.inj (hrow.symm.trans hrow')
  have hat : s.uploadInfo id now = some ⟨row.length, row.length, none⟩ := by
    rw [uploadInfo, hrow]
    simp only [hnone, hpart, Option.map_some, if_neg (not_le.2 hlive), Nat.min_eq_right hlen]
  rw [commitUpload, if_neg hinfo, seen_of_ne hmeta, hat]
  simp only [ne_eq, not_true_eq_false, if_false, if_neg hfields]

/-- Else it leaves everything as it is. -/
theorem commitUpload_of_not_proceeds (h : s.Complete id b) (hp : ¬ s.Proceeds id now fault) :
    (s.commitUpload id claim now maxTtl fault).1 = s := by
  obtain ⟨row, hrow, hnone, hpart, hlen⟩ := h
  unfold commitUpload
  by_cases hinfo : fault = some .info
  · rw [if_pos hinfo]
  rw [if_neg hinfo]
  by_cases hmeta : fault = some .metadata
  · have hat : (s.seen id fault).uploadInfo id now = none := by
      rw [uploadInfo, sessions_seen, hrow]
      simp only [hnone, seen, if_pos hmeta, AList.lookup_erase, Option.map_none, ite_self]
    rw [hat]
  rw [seen_of_ne hmeta]
  by_cases hlive : now < row.idleExpires
  · have hfields : fault = some .fields := by
      by_contra hfields
      exact hp ⟨⟨row, hrow, hlive⟩, hinfo, hmeta, hfields⟩
    cases hat : s.uploadInfo id now with
    | none => rfl
    | some info =>
        dsimp only
        split
        · rfl
        · rw [if_pos hfields]
          split_ifs <;> rfl
  · have hat : s.uploadInfo id now = none := by
      rw [uploadInfo, hrow]
      simp only [hnone, if_pos (not_lt.1 hlive)]
    rw [hat]

/-- The session remembers the claim its bytes are stored under. -/
def Committed (s : UploadStore) (id : Name) (b : List UInt8) : Prop :=
  ∃ row c granted, s.sessions.lookup id = some row ∧ row.committed = some (c, granted) ∧
    s.blobs.lookup c = some b ∧ (s.entries.lookup c).isSome = true ∧ (id, c) ∈ s.created

/-- The entry is made, and the session does not know. -/
def Torn (s : UploadStore) (id : Name) (b : List UInt8) : Prop :=
  (∃ row, s.sessions.lookup id = some row ∧ row.committed = none) ∧ s.parts.lookup id = none ∧
    ∃ c, (id, c) ∈ s.created ∧ s.blobs.lookup c = some b

theorem entriesOf_append (s : UploadStore) (id c : Name) (h : s.entriesOf id = 0) {s' : UploadStore}
    (hcreated : s'.created = s.created ++ [(id, c)]) : s'.entriesOf id = 1 := by
  rw [entriesOf, hcreated, List.countP_append]
  rw [entriesOf] at h
  rw [h]
  simp

/-- From the rename on, a commit succeeds, or fails leaving a complete session, or fails at
its last step. -/
theorem publish_of_complete (h : s.Complete id b) (hfresh : s.Fresh claim) (now maxTtl : ℕ)
    (fault : Option CommitStep) :
    (fault = some .mark → (s.publish id claim now maxTtl fault).1.Torn id b ∧
      ∃ c, (s.publish id claim now maxTtl fault).1.created = s.created ++ [(id, c)]) ∧
    (fault = some .rename ∨ fault = some .insert →
      (s.publish id claim now maxTtl fault).1.Complete id b ∧
        (s.publish id claim now maxTtl fault).1.created = s.created) ∧
    (fault ≠ some .mark → fault ≠ some .rename → fault ≠ some .insert →
      (∃ granted, (s.publish id claim now maxTtl fault).2 = .done claim granted) ∧
      (s.publish id claim now maxTtl fault).1.Committed id b ∧
        ∃ c, (s.publish id claim now maxTtl fault).1.created = s.created ++ [(id, c)]) := by
  obtain ⟨row, hrow, hnone, hpart, hlen⟩ := h
  have hren := rename_eq claim hpart
  obtain ⟨granted, entry, hdep⟩ := commitDeposit_eq now maxTtl
    (s := { s with parts := s.parts.erase id, blobs := s.blobs.insert claim b }) hrow hfresh.2
  refine ⟨fun hmark => ?_, fun hearly => ?_, fun hmark hrename hinsert => ?_⟩
  · have heq : s.publish id claim now maxTtl fault =
        ({ s with
            parts := s.parts.erase id, blobs := s.blobs.insert claim b
            entries := s.entries.insert claim entry, created := s.created ++ [(id, claim)] },
          .failed) := by
      simp only [publish, hmark, reduceCtorEq, Option.some.injEq, if_false, if_true, hren, hdep]
    rw [heq]
    refine ⟨⟨⟨row, hrow, hnone⟩, AList.lookup_erase _ _, claim, ?_, AList.lookup_insert _⟩,
      claim, rfl⟩
    exact List.mem_append_right _ (List.mem_singleton_self _)
  · rcases hearly with hrename | hinsert
    · have heq : s.publish id claim now maxTtl fault = (s, .failed) := by
        simp only [publish, hrename, if_true]
      rw [heq]
      exact ⟨⟨row, hrow, hnone, hpart, hlen⟩, rfl⟩
    · have heq : s.publish id claim now maxTtl fault =
          ({ s with
              parts := (s.parts.erase id).insert id b
              blobs := (s.blobs.insert claim b).erase claim }, .failed) := by
        simp only [publish, hinsert, reduceCtorEq, Option.some.injEq, if_false, if_true, hren,
          putBack, AList.lookup_insert]
      rw [heq]
      exact ⟨⟨row, hrow, hnone, AList.lookup_insert _, hlen⟩, rfl⟩
  · have heq : s.publish id claim now maxTtl fault =
        (({ s with
            parts := s.parts.erase id, blobs := s.blobs.insert claim b
            entries := s.entries.insert claim entry,
            created := s.created ++ [(id, claim)] } : UploadStore).mark id claim now granted,
          .done claim granted) := by
      simp only [publish, if_neg hmark, if_neg hrename, if_neg hinsert, hren, hdep]
    rw [heq]
    refine ⟨⟨granted, rfl⟩, ?_, claim, ?_⟩
    · refine ⟨{ row with
        committed := some (claim, granted)
        idleExpires := now + uploadCommittedGraceSecs }, claim, granted, ?_, rfl, ?_, ?_, ?_⟩
      · simp only [mark, hrow]
        exact AList.lookup_insert _
      · simp only [mark, hrow]
        exact AList.lookup_insert _
      · simp only [mark, hrow, AList.lookup_insert, Option.isSome_some]
      · simp [mark, hrow]
    · simp only [mark, hrow]

/-! ### Commit after commit -/

/-- The one attempt that loses its session: the last step fails after the others succeeded. -/
def Spares (id : Name) (b : List UInt8) (s : UploadStore) (a : Attempt) : Prop :=
  a.fault = some .mark → s.Complete id b → s.Fresh a.claim → ¬ s.Live id a.now

/-- What the attempts keep: the session is complete with no entry, or committed with one. -/
def Whole (s : UploadStore) (id : Name) (b : List UInt8) : Prop :=
  s.Complete id b ∧ s.entriesOf id = 0 ∨ s.Committed id b ∧ s.entriesOf id = 1

theorem Complete.not_committed (h : s.Complete id b) : ¬ s.Committed id b := by
  rintro ⟨row, c, granted, hrow, hdone, -⟩
  obtain ⟨row', hrow', hnone, -⟩ := h
  obtain rfl := Option.some.inj (hrow.symm.trans hrow')
  cases hnone.symm.trans hdone

theorem Whole.atomic (h : s.Whole id b) (maxTtl : ℕ) : s.Atomic id maxTtl b := by
  rcases h with ⟨hcomplete, hnone⟩ | ⟨⟨row, c, granted, hrow, hdone, hblob, hentry, hmade⟩, hone⟩
  · refine ⟨.inl ⟨hcomplete, fun now claim hlive hfresh => ?_⟩, by omega, .inl ?_⟩
    · have hp : s.Proceeds id now none := ⟨hlive, nofun, nofun, nofun⟩
      rw [commitUpload_of_proceeds hcomplete hp]
      exact ((publish_of_complete hcomplete hfresh now maxTtl none).2.2 nofun nofun nofun).1
    · obtain ⟨row, -, -, hpart, -⟩ := hcomplete
      exact hpart
  · refine ⟨.inr ⟨c, granted, hblob, hentry, fun now claim => ?_⟩, by omega, .inr ⟨c, hmade, hblob⟩⟩
    exact (commitUpload_of_committed hrow hdone).2 nofun

/-- A torn session is lost to its client. -/
theorem Torn.not_atomic (h : s.Torn id b) (maxTtl : ℕ) : ¬ s.Atomic id maxTtl b := by
  obtain ⟨⟨row, hrow, hnone⟩, hpart, -⟩ := h
  intro hatomic
  rcases hatomic.retriable with ⟨⟨row', -, -, hpart', -⟩, -⟩ | ⟨c, granted, -, -, hanswer⟩
  · cases hpart.symm.trans hpart'
  · have hdone := hanswer 0 0
    have hinfo : (s.seen id none).uploadInfo id 0 = none := by
      rw [uploadInfo, sessions_seen, hrow]
      simp only [hnone, seen, reduceCtorEq, if_false, hpart, Option.map_none, ite_self]
    rw [commitUpload, if_neg nofun, hinfo] at hdone
    cases hdone

theorem Whole.attempt (h : s.Whole id b) (maxTtl : ℕ) {a : Attempt} (ha : Spares id b s a) :
    (s.attempt id maxTtl a).Whole id b := by
  unfold UploadStore.attempt
  split_ifs with hfresh
  · rcases h with ⟨hcomplete, hnone⟩ | ⟨hcommitted, hone⟩
    · by_cases hp : s.Proceeds id a.now a.fault
      · rw [commitUpload_of_proceeds hcomplete hp]
        obtain ⟨-, hearly, hlate⟩ := publish_of_complete hcomplete hfresh a.now maxTtl a.fault
        have hmark : a.fault ≠ some .mark := fun hmark => ha hmark hcomplete hfresh hp.1
        by_cases hfault : a.fault = some .rename ∨ a.fault = some .insert
        · obtain ⟨hcomplete', hcreated⟩ := hearly hfault
          refine .inl ⟨hcomplete', ?_⟩
          rwa [entriesOf, hcreated]
        · rw [not_or] at hfault
          obtain ⟨-, hcommitted, c, hcreated⟩ := hlate hmark hfault.1 hfault.2
          exact .inr ⟨hcommitted, entriesOf_append s id c hnone hcreated⟩
      · rw [commitUpload_of_not_proceeds hcomplete hp]
        exact .inl ⟨hcomplete, hnone⟩
    · have hsame : (s.commitUpload id a.claim a.now maxTtl a.fault).1 = s := by
        obtain ⟨row, c, granted, hrow, hdone, -⟩ := hcommitted
        exact (commitUpload_of_committed hrow hdone).1
      rw [hsame]
      exact .inr ⟨hcommitted, hone⟩
  · exact h

/-- An attempt that does not spare the session tears it. -/
theorem spares_of_atomic {a : Attempt}
    (hatomic : (s.attempt id maxTtl a).Atomic id maxTtl b) : Spares id b s a := by
  intro hmark hcomplete hfresh hlive
  have hp : s.Proceeds id a.now a.fault := by
    rw [hmark]
    exact ⟨hlive, nofun, nofun, nofun⟩
  have htorn := ((publish_of_complete hcomplete hfresh a.now maxTtl a.fault).1 hmark).1
  rw [UploadStore.attempt, if_pos hfresh, commitUpload_of_proceeds hcomplete hp] at hatomic
  exact htorn.not_atomic maxTtl hatomic

/-- Committing a complete session, again and again and with any one step failing each time,
is atomic and idempotent exactly where its last step never fails after the others. -/
theorem atomic_iff_spares (h : s.Complete id b) (hnew : s.entriesOf id = 0) (maxTtl : ℕ)
    (as : List Attempt) :
    (∀ n, ((as.take n).foldl (fun s a => s.attempt id maxTtl a) s).Atomic id maxTtl b) ↔
      Along (fun s a => s.attempt id maxTtl a) (Spares id b) s as :=
  forall_take_iff_along_of (I := fun s : UploadStore => s.Whole id b)
    (Q := fun s => s.Atomic id maxTtl b) (fun _ hs => hs.atomic maxTtl)
    (fun _ _ hs ha => hs.attempt maxTtl ha) (fun _ _ _ => spares_of_atomic) (.inl ⟨h, hnew⟩) as

/-- A file of three bytes, all there. -/
def filled : UploadStore where
  sessions := AList.singleton 1 { opened := ⟨[], [], 3600, 1, 3⟩, idleExpires := 90000 }
  parts := AList.singleton 1 [7, 8, 9]

theorem complete_filled : filled.Complete 1 [7, 8, 9] :=
  ⟨{ opened := ⟨[], [], 3600, 1, 3⟩, idleExpires := 90000 }, rfl, rfl, rfl, by decide⟩

/-- The entry is refused at first; the second attempt succeeds, and the third asks again. -/
def retries : List Attempt := [⟨1000, 5, some .insert⟩, ⟨1010, 6, none⟩, ⟨1020, 7, none⟩]

theorem atomic_retries :
    Along (fun s a => s.attempt 1 86400 a) (Spares 1 [7, 8, 9]) filled retries ∧ ∀ n,
      ((retries.take n).foldl (fun s a => s.attempt 1 86400 a) filled).Atomic 1 86400 [7, 8, 9] := by
  have hspares : Along (fun s a => s.attempt 1 86400 a) (Spares 1 [7, 8, 9]) filled retries :=
    ⟨nofun, nofun, nofun, trivial⟩
  exact ⟨hspares, (atomic_iff_spares complete_filled rfl 86400 retries).2 hspares⟩

/-- The session's last statement fails: it is open without its file, and asking again is
answered with 404. -/
theorem not_atomic_lastStep :
    ¬ (filled.attempt 1 86400 ⟨1000, 5, some .mark⟩).Atomic 1 86400 [7, 8, 9] := by
  intro h
  rcases h.retriable with ⟨⟨row, -, -, hpart, -⟩, -⟩ | ⟨c, granted, -, -, hanswer⟩
  · revert hpart
    decide +kernel
  · have hdone : CommitAnswer.notFound = .done c granted := hanswer 1010 6
    cases hdone

/-! ### Whatever fails -/

theorem commitUpload_of_torn (h : s.Torn id b) :
    (s.commitUpload id claim now maxTtl fault).1 = s := by
  obtain ⟨⟨row, hrow, hnone⟩, hpart, -⟩ := h
  have hgone : (s.seen id fault).parts.lookup id = none := by
    unfold seen
    split_ifs
    · exact AList.lookup_erase _ _
    · exact hpart
  have hinfo : (s.seen id fault).uploadInfo id now = none := by
    rw [uploadInfo, sessions_seen, hrow]
    simp only [hnone, hgone, Option.map_none, ite_self]
  unfold commitUpload
  rw [hinfo]
  split_ifs <;> rfl

/-- A session gets one entry at most, and its bytes are kept. -/
theorem kept_of_complete (h : s.Complete id b) (hnew : s.entriesOf id = 0) (maxTtl : ℕ)
    (as : List Attempt) :
    (as.foldl (fun s a => s.attempt id maxTtl a) s).entriesOf id ≤ 1 ∧
      (as.foldl (fun s a => s.attempt id maxTtl a) s).Kept id b := by
  have hstep (s : UploadStore) (a : Attempt)
      (hs : s.Whole id b ∨ s.Torn id b ∧ s.entriesOf id = 1) :
      (s.attempt id maxTtl a).Whole id b ∨
        (s.attempt id maxTtl a).Torn id b ∧ (s.attempt id maxTtl a).entriesOf id = 1 := by
    rcases hs with hwhole | ⟨htorn, hone⟩
    · by_cases ha : Spares id b s a
      · exact .inl (hwhole.attempt maxTtl ha)
      · -- the last step fails
        simp only [Spares, not_forall, not_not] at ha
        obtain ⟨hmark, hcomplete, hfresh, hlive⟩ := ha
        have hp : s.Proceeds id a.now a.fault := by
          rw [hmark]
          exact ⟨hlive, nofun, nofun, nofun⟩
        have hnone : s.entriesOf id = 0 := by
          rcases hwhole with ⟨-, hnone⟩ | ⟨hcommitted, -⟩
          · exact hnone
          · exact absurd hcommitted hcomplete.not_committed
        obtain ⟨htorn, c, hcreated⟩ :=
          (publish_of_complete hcomplete hfresh a.now maxTtl a.fault).1 hmark
        rw [UploadStore.attempt, if_pos hfresh, commitUpload_of_proceeds hcomplete hp]
        exact .inr ⟨htorn, entriesOf_append s id c hnone hcreated⟩
    · unfold UploadStore.attempt
      rw [commitUpload_of_torn htorn, ite_self]
      exact .inr ⟨htorn, hone⟩
  rcases foldl_inv _ hstep (.inl (.inl ⟨h, hnew⟩)) as with hwhole | ⟨⟨-, -, hkept⟩, hone⟩
  · have hatomic := hwhole.atomic maxTtl
    exact ⟨hatomic.once, hatomic.kept⟩
  · exact ⟨hone.le, .inr hkept⟩

end UploadStore

end Arvolo.Relay
