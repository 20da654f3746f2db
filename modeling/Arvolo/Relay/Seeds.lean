import Arvolo.Lib.Machine
import Arvolo.Lib.Table
import Arvolo.Relay.Clock
import Arvolo.Relay.Deposits

/-!
The seeded chunks of a relay (`relay/src/http.rs`, `core/src/backfill.rs`, and the
reaper of `relay/src/main.rs`).

A row of `seeded` belongs to a token and names a chunk hash; the chunk's file
belongs to nobody and is named by the hash. A seed request looks at its chunks one
by one, fetches those whose file is not there, and records its rows at the end; a
withdrawal forgets the rows of its token and then removes their files one by one;
the reaper takes the list of expired rows first and then goes through it. Between
two of these steps any other request may run. A release checks its row and takes the
file and the row in one step, and a request refused at its admission does nothing.
The hourly sweep of files without a row is not modelled.
-/

namespace Arvolo.Relay

open Lib

/-- What a seed request carries and is granted. -/
structure SeedRequest where
  token : Name
  chunks : List Name
  granted : ℕ
  deriving DecidableEq

/-- A request under way, with what it still has to do. -/
inductive SeedJob
  /-- `seed_chunks`, before it looks at the next chunk; `written` are the files it
  takes back should it fail. -/
  | seeding (req : SeedRequest) (todo written : List Name)
  /-- `seed_one` waits for the sender. -/
  | fetching (req : SeedRequest) (hash : Name) (todo written : List Name)
  | undoing (token : Name) (written : List Name)
  /-- The handler records a row for each chunk, all with one expiry. -/
  | recording (token : Name) (todo : List Name) (exp : ℤ)
  /-- `seeded_delete_handler`, once the rows are taken. -/
  | withdrawing (token : Name) (hashes : List Name)
  | reaping (pairs : List (Name × Name))
  deriving DecidableEq

structure Seeds where
  /-- (token, hash) to expiry. -/
  seeded : Table (Name × Name) ℤ
  files : Finset Name
  clock : Clock
  jobs : List SeedJob
  deriving DecidableEq

namespace Seeds

def empty (clock : Clock) : Seeds := ⟨∅, ∅, clock, []⟩

def recordSeed (s : Seeds) (token hash : Name) (exp : ℤ) : Seeds :=
  { s with seeded := s.seeded.insert (token, hash) exp }

def deleteSeedOne (s : Seeds) (token hash : Name) : Seeds :=
  { s with seeded := s.seeded.erase (token, hash) }

def seedExists (s : Seeds) (token hash : Name) : Bool := (s.seeded.lookup (token, hash)).isSome

def hashesOf (s : Seeds) (token : Name) : List Name :=
  (s.seeded.keys.filter (·.1 = token)).map (·.2)

/-- The rows of the token are gone, and the hashes they named. -/
def takeSeedsByToken (s : Seeds) (token : Name) : List Name × Seeds :=
  let hashes := s.hashesOf token
  (hashes, hashes.foldl (fun s h => s.deleteSeedOne token h) s)

def expiredSeeds (s : Seeds) : List (Name × Name) :=
  (s.seeded.entries.filter fun r => r.2 ≤ s.clock.i64).map (·.1)

def releaseHex (s : Seeds) (hash : Name) : Seeds := { s with files := s.files.erase hash }

def writeChunk (s : Seeds) (hash : Name) : Seeds := { s with files := insert hash s.files }

/-- The next step of a request, and what it has to do after it; `fetched` is how the
sender's chunk arrived. -/
def turn (s : Seeds) (fetched : Bool) : SeedJob → Seeds × Option SeedJob
  | .seeding req (hash :: todo) written =>
      if hash ∈ s.files then (s, some (.seeding req todo written))
      else (s, some (.fetching req hash todo (written ++ [hash])))
  | .seeding req [] _ =>
      (s, some (.recording req.token req.chunks (asI64 (satAdd s.clock.secs req.granted))))
  | .fetching req hash todo written =>
      if fetched then (s.writeChunk hash, some (.seeding req todo written))
      else (s, some (.undoing req.token written))
  | .undoing token (hash :: written) => (s.releaseHex hash, some (.undoing token written))
  | .undoing _ [] => (s, none)
  | .recording token (hash :: todo) exp =>
      (s.recordSeed token hash exp, some (.recording token todo exp))
  | .recording _ [] _ => (s, none)
  | .withdrawing token (hash :: hashes) =>
      (s.releaseHex hash, some (.withdrawing token hashes))
  | .withdrawing _ [] => (s, none)
  | .reaping ((token, hash) :: pairs) =>
      ((s.releaseHex hash).deleteSeedOne token hash, some (.reaping pairs))
  | .reaping [] => (s, none)

def setJob (s : Seeds) (i : ℕ) : Option SeedJob → Seeds
  | some job => { s with jobs := s.jobs.set i job }
  | none => { s with jobs := s.jobs.eraseIdx i }

def start (s : Seeds) (job : SeedJob) : Seeds := { s with jobs := s.jobs ++ [job] }

end Seeds

inductive SeedEvent
  | seed (token : Name) (chunks : List Name) (ttl : ℕ)
  | release (token hash : Name)
  | withdraw (token : Name)
  | reap
  | turn (i : ℕ) (fetched : Bool)
  | tick (secs : ℕ)
  deriving DecidableEq

/-- `ARVOLO_SEED_TTL` and `ARVOLO_MAX_TTL`. -/
structure SeedLimits where
  seedTtl : ℕ
  maxTtl : ℕ

def SeedLimits.granted (l : SeedLimits) (ttl : ℕ) : ℕ :=
  if ttl = 0 then l.seedTtl else min ttl l.maxTtl

namespace Seeds

def step (l : SeedLimits) (s : Seeds) : SeedEvent → Seeds
  | .seed token chunks ttl => s.start (.seeding ⟨token, chunks, l.granted ttl⟩ chunks [])
  | .release token hash =>
      if s.seedExists token hash then (s.releaseHex hash).deleteSeedOne token hash else s
  | .withdraw token =>
      let (hashes, s) := s.takeSeedsByToken token
      s.start (.withdrawing token hashes)
  | .reap => s.start (.reaping s.expiredSeeds)
  | .turn i fetched =>
      match s.jobs[i]? with
      | some job => ((s.turn fetched job).1).setJob i (s.turn fetched job).2
      | none => s
  | .tick secs => { s with clock := s.clock.tick secs }

/-- The row is there and has not expired. -/
def Live (s : Seeds) (token hash : Name) : Prop :=
  ∃ exp, s.seeded.lookup (token, hash) = some exp ∧ s.clock.i64 < exp

/-- The chunk of every unexpired row is held. -/
def Retained (s : Seeds) : Prop := ∀ token hash, s.Live token hash → hash ∈ s.files

/-- On whose behalf a step removes a file. -/
def actor (s : Seeds) : SeedEvent → Option Name
  | .release token _ => some token
  | .turn i _ =>
      match s.jobs[i]? with
      | some (.undoing token _) => some token
      | some (.withdrawing token _) => some token
      | some (.reaping ((token, _) :: _)) => some token
      | _ => none
  | _ => none

/-- A step for one token leaves the chunks that another token's live row names. -/
def Spares (l : SeedLimits) (s : Seeds) (e : SeedEvent) : Prop :=
  ∀ token ∈ s.actor e, ∀ other hash, other ≠ token → s.Live other hash → hash ∈ s.files →
    hash ∈ (s.step l e).files

/-- A step of a request removes a file only when no live row names it, and records a live
row only when the file is there. -/
def CalmTurn (s : Seeds) : SeedJob → Prop
  | .undoing _ (hash :: _) => ∀ other, ¬ s.Live other hash
  | .withdrawing _ (hash :: _) => ∀ other, ¬ s.Live other hash
  | .reaping ((token, hash) :: _) => ∀ other, s.Live other hash → other = token
  | .recording _ (hash :: _) exp => s.clock.i64 < exp → hash ∈ s.files
  | _ => True

def Calm (s : Seeds) : SeedEvent → Prop
  | .release token hash =>
      s.seedExists token hash → ∀ other, s.Live other hash → other = token
  | .turn i _ => ∀ job ∈ s.jobs[i]?, s.CalmTurn job
  | _ => True

/-! ### What a step does to the live rows -/

variable {s : Seeds} {token other hash h : Name}

@[simp] theorem retained_start (job : SeedJob) : (s.start job).Retained ↔ s.Retained := Iff.rfl

@[simp] theorem retained_setJob (i : ℕ) (job : Option SeedJob) :
    (s.setJob i job).Retained ↔ s.Retained := by
  cases job <;> exact Iff.rfl

@[simp] theorem files_setJob (i : ℕ) (job : Option SeedJob) : (s.setJob i job).files = s.files := by
  cases job <;> rfl

theorem live_deleteSeedOne :
    (s.deleteSeedOne token hash).Live other h ↔ (other, h) ≠ (token, hash) ∧ s.Live other h := by
  simp only [Live, deleteSeedOne, Table.lookup_erase_eq]
  split_ifs with heq <;> simp [heq]

theorem live_recordSeed {exp : ℤ} :
    (s.recordSeed token hash exp).Live other h ↔
      if (other, h) = (token, hash) then s.clock.i64 < exp else s.Live other h := by
  simp only [Live, recordSeed, Table.lookup_insert_eq]
  split_ifs with heq <;> simp

theorem Live.of_tick {secs : ℕ}
    (hl : ({ s with clock := s.clock.tick secs } : Seeds).Live token hash) :
    s.Live token hash := by
  obtain ⟨exp, hrow, hlt⟩ := hl
  exact ⟨exp, hrow, (s.clock.i64_le_tick secs).trans_lt hlt⟩

theorem retained_releaseHex (hs : s.Retained) :
    (s.releaseHex hash).Retained ↔ ∀ other, ¬ s.Live other hash := by
  constructor
  · intro hr other hl
    exact Finset.notMem_erase hash s.files (hr other hash hl)
  · intro hno other h hl
    have hne : h ≠ hash := by
      rintro rfl
      exact hno other hl
    exact Finset.mem_erase.2 ⟨hne, hs other h hl⟩

theorem retained_release (hs : s.Retained) :
    ((s.releaseHex hash).deleteSeedOne token hash).Retained ↔
      ∀ other, s.Live other hash → other = token := by
  constructor
  · intro hr other hl
    by_contra hne
    refine Finset.notMem_erase hash s.files (hr other hash ?_)
    exact live_deleteSeedOne.2 ⟨by simp [hne], hl⟩
  · intro hown other h hl
    obtain ⟨hne, hl⟩ := live_deleteSeedOne.1 hl
    have hh : h ≠ hash := by
      rintro rfl
      exact hne (by rw [hown other hl])
    exact Finset.mem_erase.2 ⟨hh, hs other h hl⟩

theorem retained_recordSeed {exp : ℤ} (hs : s.Retained) :
    (s.recordSeed token hash exp).Retained ↔ (s.clock.i64 < exp → hash ∈ s.files) := by
  constructor
  · intro hr hlt
    exact hr token hash (live_recordSeed.2 (by simpa using hlt))
  · intro hfile other h hl
    rw [live_recordSeed] at hl
    split_ifs at hl with heq
    · obtain ⟨rfl, rfl⟩ := Prod.mk.inj heq
      exact hfile hl
    · exact hs other h hl

theorem Retained.writeChunk (hs : s.Retained) : (s.writeChunk hash).Retained :=
  fun other h hl => Finset.mem_insert_of_mem (hs other h hl)

theorem Retained.takeSeedsByToken (hs : s.Retained) : (s.takeSeedsByToken token).2.Retained := by
  unfold Seeds.takeSeedsByToken
  generalize s.hashesOf token = hashes
  induction hashes generalizing s with
  | nil => exact hs
  | cons hash hashes ih =>
      exact ih fun other h hl => hs other h (live_deleteSeedOne.1 hl).2

/-- One turn of a request keeps the chunks exactly when it is calm. -/
theorem retained_turn (hs : s.Retained) (fetched : Bool) (job : SeedJob) :
    (s.turn fetched job).1.Retained ↔ s.CalmTurn job := by
  have hskip : s.Retained ↔ True := iff_true_intro hs
  cases job with
  | seeding req todo written =>
      cases todo with
      | nil => exact hskip
      | cons hash todo =>
          simp only [turn]
          split_ifs <;> exact hskip
  | fetching req hash todo written =>
      cases fetched with
      | true => exact iff_true_intro hs.writeChunk
      | false => exact hskip
  | undoing token written =>
      cases written with
      | nil => exact hskip
      | cons hash written => exact retained_releaseHex hs
  | recording token todo exp =>
      cases todo with
      | nil => exact hskip
      | cons hash todo => exact retained_recordSeed hs
  | withdrawing token hashes =>
      cases hashes with
      | nil => exact hskip
      | cons hash hashes => exact retained_releaseHex hs
  | reaping pairs =>
      cases pairs with
      | nil => exact hskip
      | cons pair pairs => exact retained_release hs

theorem retained_step (l : SeedLimits) (s : Seeds) (e : SeedEvent) (hs : s.Retained) :
    (s.step l e).Retained ↔ s.Calm e := by
  cases e with
  | seed token chunks ttl => exact iff_true_intro hs
  | release token hash =>
      by_cases hex : s.seedExists token hash = true
      · simpa [step, Calm, hex] using retained_release hs
      · simpa [step, Calm, hex] using hs
  | withdraw token => exact iff_true_intro hs.takeSeedsByToken
  | reap => exact iff_true_intro hs
  | turn i fetched =>
      cases hjob : s.jobs[i]? with
      | none => simpa [step, Calm, hjob] using hs
      | some job => simpa [step, Calm, hjob] using retained_turn hs fetched job
  | tick secs => exact iff_true_intro fun token hash hl => hs token hash hl.of_tick

/-- A calm step spares the chunks of the other tokens. -/
theorem Calm.spares (l : SeedLimits) {e : SeedEvent} (hc : s.Calm e) : s.Spares l e := by
  intro token htoken other h hne hl hfile
  have hrelease : ∀ hash, (∀ other, s.Live other hash → other = token) →
      h ∈ s.files.erase hash := by
    intro hash hown
    refine Finset.mem_erase.2 ⟨?_, hfile⟩
    rintro rfl
    exact hne (hown other hl)
  cases e with
  | release t hash =>
      obtain rfl : t = token := by simpa [actor] using htoken
      simp only [step]
      split_ifs with hex
      · exact hrelease hash (hc hex)
      · exact hfile
  | turn i fetched =>
      cases hjob : s.jobs[i]? with
      | none => simp [actor, hjob] at htoken
      | some job =>
          have hturn : s.CalmTurn job := hc job hjob
          simp only [step, hjob, files_setJob]
          cases job with
          | undoing t written =>
              cases written with
              | nil => exact hfile
              | cons hash written => exact hrelease hash fun o ho => absurd ho (hturn o)
          | withdrawing t hashes =>
              cases hashes with
              | nil => exact hfile
              | cons hash hashes => exact hrelease hash fun o ho => absurd ho (hturn o)
          | reaping pairs =>
              cases pairs with
              | nil => exact hfile
              | cons pair pairs =>
                  obtain rfl : pair.1 = token := by simpa [actor, hjob] using htoken
                  exact hrelease pair.2 hturn
          | _ => simp [actor, hjob] at htoken
  | _ => cases htoken

def run (l : SeedLimits) : Seeds → List SeedEvent → Seeds := List.foldl (step l)

theorem retained_empty (clock : Clock) : (empty clock).Retained := by
  rintro token hash ⟨exp, hrow, -⟩
  cases (AList.lookup_empty (token, hash)).symm.trans hrow

/-- The chunk of every live row is held throughout a run, and no step for one token takes
another's, exactly when every step of the run is calm. -/
theorem retained_iff_calm (l : SeedLimits) (clock : Clock) (es : List SeedEvent) :
    ((∀ n, ((empty clock).run l (es.take n)).Retained) ∧
      Along (step l) (Spares l) (empty clock) es) ↔
        Along (step l) Calm (empty clock) es := by
  have hkept : (∀ n, ((empty clock).run l (es.take n)).Retained) ↔
      Along (step l) Calm (empty clock) es :=
    forall_take_iff_along (retained_step l) (retained_empty clock) es
  refine ⟨fun h => hkept.1 h.1, fun h => ⟨hkept.2 h, ?_⟩⟩
  refine Along.imp (fun _ => True) (fun _ _ _ _ _ => trivial) ?_ trivial h
  exact fun s e _ _ hc => hc.spares l

/-- A seed request for one chunk, from its admission to its answer. -/
def seedOne (token hash : Name) : List SeedEvent :=
  .seed token [hash] 0 :: List.replicate 5 (.turn 0 true)

/-- Two tokens seed one chunk, and the first releases it. -/
def twoOwners : List SeedEvent := seedOne 1 7 ++ seedOne 2 7 ++ [.release 1 7]

def afterRelease : Seeds := (empty ⟨0, by norm_num⟩).run ⟨3600, 3600⟩ twoOwners

theorem live_afterRelease : afterRelease.Live 2 7 :=
  ⟨3600, by decide +kernel, by decide +kernel⟩

/-- The second token's row names a chunk that is gone. -/
theorem released_under_another :
    ¬ ∀ (l : SeedLimits) (clock : Clock) (es : List SeedEvent),
      ((∀ n, ((empty clock).run l (es.take n)).Retained) ∧
        Along (step l) (Spares l) (empty clock) es) := by
  intro h
  have htake : twoOwners.take 13 = twoOwners := by decide
  have hrun := And.left (h ⟨3600, 3600⟩ ⟨0, by norm_num⟩ twoOwners)
  have hkept : afterRelease.Retained := by
    have hrun := hrun 13
    rw [htake] at hrun
    exact hrun
  have hfile : 7 ∉ afterRelease.files := by decide +kernel
  exact hfile (hkept 2 7 live_afterRelease)

end Seeds

end Arvolo.Relay
