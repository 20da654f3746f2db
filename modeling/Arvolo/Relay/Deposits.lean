import Arvolo.Lib.Machine
import Arvolo.Lib.Table
import Arvolo.Lib.Word

/-!
The download accounting of a stored deposit (`relay/src/mailbox.rs`).

A deposit is a row of `entries` and a file of ciphertext. A fetch is counted when
it is planned, or, when it is held, by the acknowledgement that follows it; both
go through one counter. The plan that spends the last download deletes the row
under the lock and leaves the file to the handler, which removes it later,
off the lock. Every other way a row goes takes the file with it.
-/

namespace Arvolo.Relay

open Lib

/-- A claim, a token, an upload id or a chunk hash: names are only compared. -/
abbrev Name := ℕ

def maxDownloadsCap : ℕ := 10000

inductive MailboxError
  | notFound
  | expired
  | exhausted
  | forbidden
  deriving DecidableEq

/-- A row of `entries`. -/
structure Entry where
  encappedKey : List UInt8
  expiresAt : ℤ
  maxDownloads : ℕ
  downloads : ℕ
  revokeHash : Option (List UInt8)
  deriving DecidableEq

/-- The row has passed its expiry, as the fetches read the column. -/
def Entry.late (e : Entry) (now : ℕ) : Bool := asU64 e.expiresAt ≤ now

structure Mailbox where
  entries : Table Name Entry
  /-- The claims that have a `{claim}.bin`. -/
  blobs : Finset Name
  deriving DecidableEq

/-- What a fetch returns: the file to read is the claim's own. -/
structure FetchPlan where
  encappedKey : List UInt8
  blobPath : Name
  burn : Bool
  deriving DecidableEq

namespace Mailbox

variable (mb : Mailbox) (claim : Name) (now : ℕ)

/-- `commit_deposit`, answering with the lifetime granted; `none` when the claim has
a row already. -/
def commitDeposit (maxTtl : ℕ) (encappedKey : List UInt8) (ttlSecs maxDownloads : ℕ)
    (revokeHash : List UInt8) : Option ℕ × Mailbox :=
  let ttl := min ttlSecs maxTtl
  match mb.entries.lookup claim with
  | some _ => (none, mb)
  | none =>
      let row : Entry :=
        { encappedKey
          expiresAt := asI64 (satAdd now ttl)
          maxDownloads := min (max 1 maxDownloads) maxDownloadsCap
          downloads := 0
          revokeHash := if revokeHash.isEmpty then none else some revokeHash }
      (some ttl, { mb with entries := mb.entries.insert claim row })

def writeBlob : Mailbox := { mb with blobs := insert claim mb.blobs }

def removeFile : Mailbox := { mb with blobs := mb.blobs.erase claim }

def deleteRow : Mailbox := { mb with entries := mb.entries.erase claim }

/-- `delete`: the file, then the row. -/
def delete : Mailbox := (mb.removeFile claim).deleteRow claim

def setDownloads (e : Entry) (n : ℕ) : Mailbox :=
  { mb with entries := mb.entries.insert claim { e with downloads := n } }

/-- `presented` is the BLAKE3 hash of the token the caller names. -/
def revoke (presented : List UInt8) : Except MailboxError Unit × Mailbox :=
  match mb.entries.lookup claim with
  | none => (.error .notFound, mb)
  | some e =>
      match e.revokeHash with
      | none => (.error .forbidden, mb)
      | some stored =>
          if stored ≠ presented then (.error .forbidden, mb)
          else (.ok (), mb.delete claim)

def fetchPlan : Except MailboxError FetchPlan × Mailbox :=
  match mb.entries.lookup claim with
  | none => (.error .notFound, mb)
  | some e =>
      if e.late now then (.error .expired, mb.delete claim)
      else if e.maxDownloads ≤ e.downloads then (.error .exhausted, mb.delete claim)
      else if e.maxDownloads ≤ e.downloads + 1 then
        (.ok ⟨e.encappedKey, claim, true⟩, mb.deleteRow claim)
      else (.ok ⟨e.encappedKey, claim, false⟩, mb.setDownloads claim e (e.downloads + 1))

def fetchPlanHeld : Except MailboxError FetchPlan × Mailbox :=
  match mb.entries.lookup claim with
  | none => (.error .notFound, mb)
  | some e =>
      if e.late now then (.error .expired, mb.delete claim)
      else if e.maxDownloads ≤ e.downloads then (.error .exhausted, mb.delete claim)
      else (.ok ⟨e.encappedKey, claim, false⟩, mb)

def ackFetch : Except MailboxError Unit × Mailbox :=
  match mb.entries.lookup claim with
  | none => (.error .notFound, mb)
  | some e =>
      if e.late now ∨ e.maxDownloads ≤ e.downloads + 1 then (.ok (), mb.delete claim)
      else (.ok (), mb.setDownloads claim e (e.downloads + 1))

def reap : Mailbox :=
  let claims := (mb.entries.entries.filter fun r => r.2.expiresAt ≤ asI64 now).map (·.1)
  claims.foldl delete mb

/-! ### What each operation does to the rows and the files -/

variable {mb : Mailbox} {claim c : Name} {now : ℕ}

@[simp] theorem lookup_delete :
    (mb.delete claim).entries.lookup c = if c = claim then none else mb.entries.lookup c :=
  Table.lookup_erase_eq ..

@[simp] theorem blobs_delete : (mb.delete claim).blobs = mb.blobs.erase claim := rfl

@[simp] theorem lookup_deleteRow :
    (mb.deleteRow claim).entries.lookup c = if c = claim then none else mb.entries.lookup c :=
  Table.lookup_erase_eq ..

@[simp] theorem blobs_deleteRow : (mb.deleteRow claim).blobs = mb.blobs := rfl

@[simp] theorem lookup_setDownloads {e : Entry} {n : ℕ} :
    (mb.setDownloads claim e n).entries.lookup c =
      if c = claim then some { e with downloads := n } else mb.entries.lookup c :=
  Table.lookup_insert_eq ..

@[simp] theorem blobs_setDownloads {e : Entry} {n : ℕ} :
    (mb.setDownloads claim e n).blobs = mb.blobs := rfl

/-- A row is either left as it is, or goes together with its file. -/
structure Drops (mb mb' : Mailbox) : Prop where
  lookup (c : Name) (e : Entry) : mb'.entries.lookup c = some e → mb.entries.lookup c = some e
  blobs (c : Name) : c ∈ mb'.blobs → c ∈ mb.blobs
  keeps (c : Name) (e : Entry) : mb'.entries.lookup c = some e → c ∈ mb.blobs → c ∈ mb'.blobs

theorem Drops.refl (mb : Mailbox) : Drops mb mb :=
  ⟨fun _ _ h => h, fun _ h => h, fun _ _ _ h => h⟩

theorem Drops.trans {mb' mb'' : Mailbox} (h : Drops mb mb') (h' : Drops mb' mb'') :
    Drops mb mb'' where
  lookup c e he := h.lookup c e (h'.lookup c e he)
  blobs c hc := h.blobs c (h'.blobs c hc)
  keeps c e he hc := h'.keeps c e he (h.keeps c e (h'.lookup c e he) hc)

theorem drops_delete (mb : Mailbox) (claim : Name) : Drops mb (mb.delete claim) where
  lookup c e h := by
    rw [lookup_delete] at h
    split_ifs at h
    exact h
  blobs c h := Finset.mem_of_mem_erase h
  keeps c e h hc := by
    rw [lookup_delete] at h
    split_ifs at h with hne
    exact Finset.mem_erase.2 ⟨hne, hc⟩

theorem drops_reap (mb : Mailbox) (now : ℕ) : Drops mb (mb.reap now) := by
  unfold reap
  generalize (mb.entries.entries.filter _).map _ = claims
  induction claims generalizing mb with
  | nil => exact Drops.refl mb
  | cons claim claims ih => exact (drops_delete mb claim).trans (ih _)

theorem drops_revoke (mb : Mailbox) (claim : Name) (presented : List UInt8) :
    Drops mb (mb.revoke claim presented).2 := by
  unfold revoke
  split
  · exact Drops.refl mb
  · split
    · exact Drops.refl mb
    · split_ifs
      · exact Drops.refl mb
      · exact drops_delete mb claim

theorem drops_fetchPlanHeld (mb : Mailbox) (claim : Name) (now : ℕ) :
    Drops mb (mb.fetchPlanHeld claim now).2 := by
  unfold fetchPlanHeld
  split
  · exact Drops.refl mb
  · split_ifs
    · exact drops_delete mb claim
    · exact drops_delete mb claim
    · exact Drops.refl mb

end Mailbox

/-! ### Runs of the mailbox -/

/-- The mailbox, with what its clients have had of it. -/
structure Store where
  mb : Mailbox
  /-- Claims whose last download is planned and whose file the handler has yet to remove. -/
  burning : Finset Name
  /-- The `max_downloads` stored for each claim ever handed out. -/
  granted : Name → Option ℕ
  /-- The fetches planned and acknowledged with success. -/
  spent : Name → ℕ

inductive StoreEvent
  | deposit (claim : Name) (encappedKey : List UInt8) (ttlSecs maxDownloads : ℕ)
      (revokeHash : List UInt8) (now : ℕ)
  | fetch (claim : Name) (now : ℕ)
  | fetchHeld (claim : Name) (now : ℕ)
  | ack (claim : Name) (now : ℕ)
  | revoke (claim : Name) (presented : List UInt8)
  | reap (now : ℕ)
  /-- A handler that was handed the last download removes the file it has opened. -/
  | unlink (claim : Name)
  deriving DecidableEq

def Store.empty : Store := ⟨⟨∅, ∅⟩, ∅, fun _ => none, fun _ => 0⟩

def Store.spend (s : Store) (claim : Name) : Store :=
  { s with spent := Function.update s.spent claim (s.spent claim + 1) }

def Store.step (maxTtl : ℕ) (s : Store) : StoreEvent → Store
  | .deposit claim encappedKey ttlSecs maxDownloads revokeHash now =>
      -- `random_claim` does not draw a claim twice
      if s.granted claim = none then
        let mb := ((s.mb.writeBlob claim).commitDeposit claim now maxTtl encappedKey ttlSecs
          maxDownloads revokeHash).2
        { s with
          mb
          granted := Function.update s.granted claim
            ((mb.entries.lookup claim).map (·.maxDownloads)) }
      else s
  | .fetch claim now =>
      match s.mb.fetchPlan claim now with
      | (.ok plan, mb) =>
          { s.spend claim with
            mb
            burning := if plan.burn then insert claim s.burning else s.burning }
      | (.error _, mb) => { s with mb }
  | .fetchHeld claim now => { s with mb := (s.mb.fetchPlanHeld claim now).2 }
  | .ack claim now =>
      match s.mb.ackFetch claim now with
      | (.ok (), mb) => { s.spend claim with mb }
      | (.error _, mb) => { s with mb }
  | .revoke claim presented => { s with mb := (s.mb.revoke claim presented).2 }
  | .reap now => { s with mb := s.mb.reap now }
  | .unlink claim =>
      if claim ∈ s.burning then
        { s with mb := s.mb.removeFile claim, burning := s.burning.erase claim }
      else s

namespace Store

/-- A claim with a row has its file, and its downloads are those that were spent; no
claim is spent beyond what was stored for it. -/
structure Inv (s : Store) : Prop where
  fresh (c : Name) : s.granted c = none →
    s.mb.entries.lookup c = none ∧ c ∉ s.burning ∧ s.spent c = 0
  row (c : Name) (e : Entry) : s.mb.entries.lookup c = some e →
    s.granted c = some e.maxDownloads ∧ s.spent c = e.downloads ∧
      e.downloads < e.maxDownloads ∧ c ∈ s.mb.blobs ∧ c ∉ s.burning
  bound (c : Name) (m : ℕ) : s.granted c = some m → s.spent c ≤ m

theorem inv_empty : empty.Inv where
  fresh _ _ := ⟨AList.lookup_empty _, Finset.notMem_empty _, rfl⟩
  row c e h := by cases (AList.lookup_empty c).symm.trans h
  bound _ _ h := nomatch h

variable {s : Store} {c claim : Name} {e : Entry} {mb : Mailbox}

theorem Inv.drops (h : s.Inv) (hmb : Mailbox.Drops s.mb mb) : ({ s with mb } : Store).Inv where
  fresh c hc := by
    obtain ⟨hrow, hrest⟩ := h.fresh c hc
    refine ⟨?_, hrest⟩
    cases hl : mb.entries.lookup c with
    | none => rfl
    | some e => exact absurd (hmb.lookup c e hl) (by simp [hrow])
  row c e hc := by
    obtain ⟨hmax, hspent, hlt, hblob, hburn⟩ := h.row c e (hmb.lookup c e hc)
    exact ⟨hmax, hspent, hlt, hmb.keeps c e hc hblob, hburn⟩
  bound := h.bound

/-- A download is spent and the row is gone; the file may be left to the handler. -/
theorem Inv.spend_last (h : s.Inv) (hrow : s.mb.entries.lookup claim = some e)
    (hmb : Mailbox.Drops s.mb mb ∨ mb = s.mb.deleteRow claim)
    (hgone : mb.entries.lookup claim = none) {burning : Finset Name}
    (hburn : burning ⊆ insert claim s.burning) :
    ({ s.spend claim with mb, burning } : Store).Inv := by
  obtain ⟨hmax, hspent, hlt, -, -⟩ := h.row claim e hrow
  have hother : ∀ c ≠ claim, ∀ e', mb.entries.lookup c = some e' →
      s.mb.entries.lookup c = some e' ∧ (c ∈ s.mb.blobs → c ∈ mb.blobs) := by
    intro c hne e' he'
    rcases hmb with hmb | rfl
    · exact ⟨hmb.lookup c e' he', hmb.keeps c e' he'⟩
    · simpa [hne] using he'
  have hb : ∀ c ≠ claim, c ∉ s.burning → c ∉ burning := by
    intro c hne hc hc'
    exact hc (Finset.mem_of_mem_insert_of_ne (hburn hc') hne)
  refine ⟨fun c hc => ?_, fun c e' he' => ?_, fun c m hm => ?_⟩
  · have hne : c ≠ claim := by
      rintro rfl
      exact absurd (hc.symm.trans hmax) (by simp)
    obtain ⟨hnone, hnb, hzero⟩ := h.fresh c hc
    refine ⟨?_, hb c hne hnb, by simpa [spend, hne] using hzero⟩
    cases hl : mb.entries.lookup c with
    | none => rfl
    | some e' => exact absurd (hother c hne e' hl).1 (by simp [hnone])
  · have hne : c ≠ claim := by
      rintro rfl
      exact absurd (hgone.symm.trans he') (by simp)
    obtain ⟨hold, hblob⟩ := hother c hne e' he'
    obtain ⟨hmax', hspent', hlt', hin, hnb⟩ := h.row c e' hold
    exact ⟨hmax', by simpa [spend, hne] using hspent', hlt', hblob hin, hb c hne hnb⟩
  · by_cases hc : c = claim
    · subst hc
      have : m = e.maxDownloads := Option.some.inj (hm.symm.trans hmax)
      simp only [spend, Function.update_self]
      omega
    · simpa [spend, hc] using h.bound c m hm

/-- A download is spent and more are left. -/
theorem Inv.spend_more (h : s.Inv) (hrow : s.mb.entries.lookup claim = some e)
    (hmore : e.downloads + 1 < e.maxDownloads) :
    ({ s.spend claim with mb := s.mb.setDownloads claim e (e.downloads + 1) } : Store).Inv := by
  obtain ⟨hmax, hspent, -, hblob, hburn⟩ := h.row claim e hrow
  refine ⟨fun c hc => ?_, fun c e' he' => ?_, fun c m hm => ?_⟩
  · have hne : c ≠ claim := by
      rintro rfl
      exact absurd (hc.symm.trans hmax) (by simp)
    simpa [spend, hne] using h.fresh c hc
  · by_cases hc : c = claim
    · subst hc
      obtain rfl : { e with downloads := e.downloads + 1 } = e' := by simpa using he'
      exact ⟨hmax, by simp [spend, hspent], hmore, hblob, hburn⟩
    · simpa [spend, hc] using h.row c e' (by simpa [hc] using he')
  · by_cases hc : c = claim
    · subst hc
      have : m = e.maxDownloads := Option.some.inj (hm.symm.trans hmax)
      simp only [spend, Function.update_self]
      omega
    · simpa [spend, hc] using h.bound c m hm

theorem Inv.deposit (h : s.Inv) (hnew : s.granted claim = none) (maxTtl : ℕ)
    (encappedKey : List UInt8) (ttlSecs maxDownloads : ℕ) (revokeHash : List UInt8) (now : ℕ) :
    (s.step maxTtl (.deposit claim encappedKey ttlSecs maxDownloads revokeHash now)).Inv := by
  obtain ⟨hnone, hburn, hzero⟩ := h.fresh claim hnew
  have hnone' : (s.mb.writeBlob claim).entries.lookup claim = none := hnone
  simp only [step, hnew, if_true, Mailbox.commitDeposit, hnone']
  refine ⟨fun c hc => ?_, fun c e hc => ?_, fun c m hc => ?_⟩
  · by_cases hne : c = claim
    · simp [hne] at hc
    · have hold : s.granted c = none := by simpa [hne] using hc
      simpa [hne, Mailbox.writeBlob] using h.fresh c hold
  · by_cases hne : c = claim
    · subst hne
      obtain rfl := Option.some.inj ((AList.lookup_insert _).symm.trans hc)
      refine ⟨by simp, hzero, ?_, Finset.mem_insert_self .., hburn⟩
      simp [maxDownloadsCap]
    · have hold : s.mb.entries.lookup c = some e := by
        simpa [hne, Mailbox.writeBlob] using hc
      simpa [hne, Mailbox.writeBlob] using h.row c e hold
  · by_cases hne : c = claim
    · subst hne
      simp [hzero]
    · exact h.bound c m (by simpa [hne] using hc)

theorem Inv.unlink (h : s.Inv) (hburn : claim ∈ s.burning) :
    ({ s with mb := s.mb.removeFile claim, burning := s.burning.erase claim } : Store).Inv where
  fresh c hc := by
    obtain ⟨hrow, hnb, hzero⟩ := h.fresh c hc
    exact ⟨hrow, fun hin => hnb (Finset.mem_of_mem_erase hin), hzero⟩
  row c e hc := by
    obtain ⟨hmax, hspent, hlt, hblob, hnb⟩ := h.row c e hc
    have hne : c ≠ claim := by
      rintro rfl
      exact hnb hburn
    exact ⟨hmax, hspent, hlt, Finset.mem_erase.2 ⟨hne, hblob⟩,
      fun hin => hnb (Finset.mem_of_mem_erase hin)⟩
  bound := h.bound

theorem Inv.step (h : s.Inv) (maxTtl : ℕ) (ev : StoreEvent) : (s.step maxTtl ev).Inv := by
  cases ev with
  | deposit claim encappedKey ttlSecs maxDownloads revokeHash now =>
      by_cases hnew : s.granted claim = none
      · exact h.deposit hnew ..
      · simpa [Store.step, hnew] using h
  | fetch claim now =>
      cases hrow : s.mb.entries.lookup claim with
      | none => simpa [Store.step, Mailbox.fetchPlan, hrow] using h
      | some e =>
          simp only [Store.step, Mailbox.fetchPlan, hrow]
          split_ifs with hlate hspent hlast
          · exact h.drops (Mailbox.drops_delete s.mb claim)
          · exact h.drops (Mailbox.drops_delete s.mb claim)
          · exact h.spend_last hrow (.inr rfl) (by simp) subset_rfl
          · exact h.spend_more hrow (by omega)
  | fetchHeld claim now => exact h.drops (Mailbox.drops_fetchPlanHeld s.mb claim now)
  | ack claim now =>
      cases hrow : s.mb.entries.lookup claim with
      | none => simpa [Store.step, Mailbox.ackFetch, hrow] using h
      | some e =>
          simp only [Store.step, Mailbox.ackFetch, hrow]
          split_ifs with hlast
          · exact h.spend_last hrow (.inl (Mailbox.drops_delete s.mb claim)) (by simp)
              (Finset.subset_insert ..)
          · exact h.spend_more hrow (by omega)
  | revoke claim presented => exact h.drops (Mailbox.drops_revoke s.mb claim presented)
  | reap now => exact h.drops (Mailbox.drops_reap s.mb now)
  | unlink claim =>
      by_cases hburn : claim ∈ s.burning
      · simpa [Store.step, hburn] using h.unlink hburn
      · simpa [Store.step, hburn] using h

def run (maxTtl : ℕ) : Store → List StoreEvent → Store := List.foldl (step maxTtl)

theorem Inv.run (h : s.Inv) (maxTtl : ℕ) (es : List StoreEvent) : (s.run maxTtl es).Inv :=
  foldl_inv Inv (fun _ ev h => h.step maxTtl ev) h es

/-- What was stored for a claim stays stored, and what was spent stays spent. -/
theorem ledger_step (maxTtl : ℕ) (s : Store) (ev : StoreEvent) (c : Name) :
    (s.granted c ≠ none → (s.step maxTtl ev).granted c = s.granted c) ∧
      s.spent c ≤ (s.step maxTtl ev).spent c := by
  cases ev with
  | deposit claim encappedKey ttlSecs maxDownloads revokeHash now =>
      simp only [Store.step]
      split_ifs with hnew
      · refine ⟨fun hc => Function.update_of_ne ?_ .., le_rfl⟩
        rintro rfl
        exact hc hnew
      · exact ⟨fun _ => rfl, le_rfl⟩
  | fetch claim now =>
      simp only [Store.step]
      split
      · refine ⟨fun _ => rfl, ?_⟩
        by_cases hc : c = claim <;> simp [spend, hc]
      · exact ⟨fun _ => rfl, le_rfl⟩
  | ack claim now =>
      simp only [Store.step]
      split
      · refine ⟨fun _ => rfl, ?_⟩
        by_cases hc : c = claim <;> simp [spend, hc]
      · exact ⟨fun _ => rfl, le_rfl⟩
  | unlink claim =>
      simp only [Store.step]
      split_ifs <;> exact ⟨fun _ => rfl, le_rfl⟩
  | _ => exact ⟨fun _ => rfl, le_rfl⟩

theorem ledger_run (maxTtl : ℕ) (s : Store) (es : List StoreEvent) {c : Name} {m : ℕ}
    (hm : s.granted c = some m) :
    (s.run maxTtl es).granted c = some m ∧ s.spent c ≤ (s.run maxTtl es).spent c := by
  induction es generalizing s with
  | nil => exact ⟨hm, le_rfl⟩
  | cons ev es ih =>
      obtain ⟨hgranted, hspent⟩ := ledger_step maxTtl s ev c
      obtain ⟨hm', hspent'⟩ := ih (s.step maxTtl ev) ((hgranted (by simp [hm])).trans hm)
      exact ⟨hm', hspent.trans hspent'⟩

/-- A claim that is spent as often as was stored for it has no row. -/
theorem Inv.row_none {m : ℕ} (h : s.Inv) (hm : s.granted c = some m) (hspent : m ≤ s.spent c) :
    s.mb.entries.lookup c = none := by
  cases hrow : s.mb.entries.lookup c with
  | none => rfl
  | some e =>
      obtain ⟨hmax, hcount, hlt, -, -⟩ := h.row c e hrow
      have : m = e.maxDownloads := Option.some.inj (hm.symm.trans hmax)
      omega

theorem Inv.fetchPlanHeld_eq (h : s.Inv) {now : ℕ}
    (hlate : ∀ e, s.mb.entries.lookup c = some e → e.late now = false) :
    (s.mb.fetchPlanHeld c now).2 = s.mb := by
  cases hrow : s.mb.entries.lookup c with
  | none => simp [Mailbox.fetchPlanHeld, hrow]
  | some e =>
      obtain ⟨-, -, hlt, -, -⟩ := h.row c e hrow
      simp [Mailbox.fetchPlanHeld, hrow, hlate e hrow, Nat.not_le.2 hlt]

/-- In every run no claim is spent more often than was stored for it; once it is, it is
never served again; a row has its file; and a held fetch of a claim that has not expired
leaves the mailbox as it is. -/
theorem accounting (maxTtl : ℕ) (es : List StoreEvent) :
    let s := empty.run maxTtl es
    (∀ c e, s.mb.entries.lookup c = some e →
      s.granted c = some e.maxDownloads ∧ c ∈ s.mb.blobs) ∧
    (∀ c m, s.granted c = some m → s.spent c ≤ m) ∧
    (∀ c m, s.granted c = some m → s.spent c = m → ∀ es' now,
      let mb := (s.run maxTtl es').mb
      (mb.fetchPlan c now).1 = .error .notFound ∧
        (mb.fetchPlanHeld c now).1 = .error .notFound ∧
        (mb.ackFetch c now).1 = .error .notFound) ∧
    (∀ c now, (∀ e, s.mb.entries.lookup c = some e → e.late now = false) →
      (s.mb.fetchPlanHeld c now).2 = s.mb) := by
  intro s
  have hinv : s.Inv := inv_empty.run maxTtl es
  refine ⟨fun c e hrow => ?_, hinv.bound, fun c m hm hspent es' now => ?_, fun c now hlate => ?_⟩
  · obtain ⟨hmax, -, -, hblob, -⟩ := hinv.row c e hrow
    exact ⟨hmax, hblob⟩
  · obtain ⟨hm', hspent'⟩ := ledger_run maxTtl s es' hm
    have hnone := (hinv.run maxTtl es').row_none hm' (hspent ▸ hspent')
    simp [Mailbox.fetchPlan, Mailbox.fetchPlanHeld, Mailbox.ackFetch, hnone]
  · exact hinv.fetchPlanHeld_eq hlate

/-- A held fetch takes an expired deposit away, row and file. -/
theorem held_deletes :
    ¬ ∀ (maxTtl : ℕ) (es : List StoreEvent) (c : Name) (now : ℕ),
      let s := empty.run maxTtl es
      (s.mb.fetchPlanHeld c now).2.entries.lookup c = s.mb.entries.lookup c ∧
        (c ∈ (s.mb.fetchPlanHeld c now).2.blobs ↔ c ∈ s.mb.blobs) := by
  intro h
  have := (h 3600 [.deposit 1 [] 60 1 [] 0] 1 60).2
  revert this
  decide +kernel

end Store

end Arvolo.Relay
