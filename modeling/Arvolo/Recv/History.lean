import Arvolo.Recv.Payload

/-!
Downloads one after the other.

A receive resolves its destination to a path, runs against the file and the
sidecar it finds there, and leaves a file, perhaps a sidecar, and stage files and
a ticket record next to it. The sidecar does not say which payload it is of, and
a derived name whose sidecar exists is taken for this very download. The history
keeps what the disk does not: whose pieces the sidecar at a path lists.
-/

namespace Arvolo.Recv

open Crypto Lib

/-! ### Paths -/

structure Path where
  dir : String
  name : String
  deriving DecidableEq

def sidecarSuffix : String := ".arvhave"

def ticketSuffix : String := ".arvticket"

def partInfix : String := ".arvpart."

def Path.sidecar (p : Path) : Path := { p with name := p.name ++ sidecarSuffix }

/-- The other files a download keeps next to its output. -/
inductive Litter
  | ticket
  | stage (p : Stage)
  deriving DecidableEq

def Path.litter (p : Path) : Litter → Path
  | .ticket => { p with name := p.name ++ ticketSuffix }
  | .stage (.path i) => { p with name := p.name ++ partInfix ++ i.repr }
  | .stage (.dup i n) => { p with name := p.name ++ partInfix ++ i.repr ++ ".eg" ++ n.repr }

/-- The name is not that of a file the engine keeps. -/
def Path.Plain (p : Path) : Prop :=
  ¬ sidecarSuffix.toList <:+ p.name.toList ∧ ¬ ticketSuffix.toList <:+ p.name.toList ∧
    ¬ partInfix.toList <:+: p.name.toList

instance (p : Path) : Decidable p.Plain := inferInstanceAs (Decidable (_ ∧ _ ∧ _))

theorem Path.sidecar_inj {p q : Path} (h : p.sidecar = q.sidecar) : p = q := by
  simp only [Path.sidecar, Path.mk.injEq, String.append_left_inj] at h
  obtain ⟨hdir, hname⟩ := h
  cases p
  cases q
  simp_all

theorem Path.Plain.ne_sidecar {p : Path} (h : p.Plain) (q : Path) : p ≠ q.sidecar := by
  rintro rfl
  refine h.1 ⟨q.name.toList, ?_⟩
  simp [Path.sidecar, String.toList_append]

theorem Path.Plain.ne_litter {p : Path} (h : p.Plain) (q : Path) (k : Litter) :
    p ≠ q.litter k := by
  rintro rfl
  cases k with
  | ticket =>
      refine h.2.1 ⟨q.name.toList, ?_⟩
      simp [Path.litter, String.toList_append]
  | stage p =>
      cases p with
      | path i =>
          refine h.2.2 ⟨q.name.toList, i.repr.toList, ?_⟩
          simp [Path.litter, String.toList_append]
      | dup i n =>
          refine h.2.2 ⟨q.name.toList, i.repr.toList ++ ".eg".toList ++ n.repr.toList, ?_⟩
          simp [Path.litter, String.toList_append]

theorem getLast?_repr {n : ℕ} {l : List Char} {x : Char}
    (h : (l ++ n.repr.toList).getLast? = some x) : x.isDigit = true := by
  have hne : n.repr.toList ≠ [] := by
    rw [Nat.toList_repr]
    exact Nat.toDigits_ne_nil
  rw [List.getLast?_append_of_ne_nil _ hne] at h
  have hmem := List.mem_of_getLast? h
  rw [Nat.toList_repr] at hmem
  exact Nat.isDigit_of_mem_toDigits (by decide) (by decide) hmem

/-- A sidecar is not one of the other files: it ends in another character. -/
theorem Path.sidecar_ne_litter (p q : Path) (k : Litter) : p.sidecar ≠ q.litter k := by
  intro h
  have hlast : (q.litter k).name.toList.getLast? = some 'e' := by
    rw [← h, Path.sidecar, String.toList_append]
    exact List.getLast?_append_of_ne_nil _ (by decide)
  cases k with
  | ticket =>
      rw [Path.litter, String.toList_append, List.getLast?_append_of_ne_nil _ (by decide)] at hlast
      exact absurd hlast (by decide)
  | stage s =>
      cases s with
      | path i =>
          rw [Path.litter, String.toList_append] at hlast
          exact absurd (getLast?_repr hlast) (by decide)
      | dup i n =>
          rw [Path.litter, String.toList_append] at hlast
          exact absurd (getLast?_repr hlast) (by decide)

/-! ### Destinations -/

/-- `Hash`'s display, lower-case hexadecimal. -/
def hex (bytes : Bytes) : String :=
  String.ofList (bytes.flatMap fun b => [Nat.digitChar (b.toNat / 16), Nat.digitChar (b.toNat % 16)])

/-- `Path::file_name` of a sender's name, if it is usable. -/
def safeDownloadName (name : String) : Option String :=
  match ((name.toList.splitOn '/').filter fun part => part ≠ [] ∧ part ≠ ['.']).getLast? with
  | some part => if part = ['.', '.'] then none else some (String.ofList part)
  | none => none

def defaultOut (seed : String) : String :=
  "received-" ++ String.ofList (seed.toList.take 16) ++ ".bin"

/-- The digest a generated name is made from. -/
def firstHash (chunks : List Bytes) : String := (chunks.head?.map hex).getD ""

def defaultFromName (name : String) (chunks : List Bytes) : String :=
  (safeDownloadName name).getD (defaultOut (firstHash chunks))

/-- `file_stem` and `extension`, the latter with its dot. -/
def splitExt (name : String) : String × String :=
  let after := name.toList.reverse.takeWhile (· ≠ '.')
  match name.toList.reverse.drop after.length with
  | _ :: b :: before => (String.ofList (b :: before).reverse, "." ++ String.ofList after.reverse)
  | _ => (name, "")

/-- Where the user wants the file: nowhere in particular, in a directory that
exists, or under a name of its own. -/
inductive Dest
  | here
  | dir (d : String)
  | file (p : Path)

/-- The files on disk, and whose pieces the sidecar at a path lists: a payload and
the size of its pieces. -/
structure World where
  files : Path → Option Bytes
  source : Path → Option (Bytes × ℕ)

namespace World

variable (w : World)

/-- The first of the numbered names that is free or has a sidecar. -/
def numbered (p : Path) : (fuel n : ℕ) → Option Path
  | 0, _ => none
  | fuel + 1, n =>
      let candidate := { p with
        name := (splitExt p.name).1 ++ " (" ++ n.repr ++ ")" ++ (splitExt p.name).2 }
      if (w.files candidate.sidecar).isSome then some candidate
      else if (w.files candidate).isNone then some candidate
      else numbered p fuel (n + 1)

/-- A path is kept if it is free or has a sidecar; otherwise a number is added. -/
def collisionFree (p : Path) : Option Path :=
  if (w.files p).isNone || (w.files p.sidecar).isSome then some p
  else w.numbered p (2 ^ 32 - 1) 1

def singleFileOut (dest : Dest) (name : String) (chunks : List Bytes) : Option Path :=
  match dest with
  | .dir d => w.collisionFree ⟨d, defaultFromName name chunks⟩
  | .file p => some p
  | .here => w.collisionFree ⟨"", defaultFromName name chunks⟩

end World

/-- The staged tar of an archive, in the scratch directory. -/
def archiveStagePath (temp : String) (chunks : List Bytes) : Path :=
  ⟨temp, "arvolo-" ++ firstHash chunks ++ ".tar"⟩

/-! ### Receives -/

/-- A run of `recv_chunked`: what it is asked for and what happens to it. `payload`
is what the ticket was issued for. -/
structure Receive where
  ticket : Ticket
  payload : Bytes
  concurrency : ℕ
  origin : Option Provider
  dest : Dest
  temp : String := ""
  deep : Bool := false
  /-- The staging files it finds. -/
  stages : StageFiles
  saved : Saved := .whole
  room : Bool := true
  events : List Loop.Event
  /-- What it leaves in the files next to the output. -/
  litter : List (Litter × Option Bytes) := []
  /-- Whether a finished archive's tar is dropped. -/
  dropped : Bool := false

namespace Receive

variable (aead : Aead) (hash : Bytes → Bytes) (r : Receive)

def config : Config where
  aead := aead
  hash := hash
  ticket := r.ticket
  concurrency := r.concurrency
  origin := r.origin

/-- The payload and the size of its pieces. -/
def source : Bytes × ℕ := (r.payload, r.ticket.chunkSize)

def download (w : World) : Option Path :=
  if r.ticket.archive then some (archiveStagePath r.temp r.ticket.chunks)
  else w.singleFileOut r.dest r.ticket.name r.ticket.chunks

/-- The run against what is found at `p`, with the default of not trusting the
sidecar unchecked. -/
def loop (w : World) (p : Path) : Loop :=
  Loop.run (r.config aead hash) { deep := r.deep } r.stages ((w.files p).getD [])
    (w.files p.sidecar) r.saved r.room r.events

/-- Whether the output is gone afterwards: a finished archive is unpacked. -/
def drops (s : Loop) : Bool := r.dropped && r.ticket.archive && s.exit == some .completed

/-- Whose pieces the sidecar lists afterwards. If it has the length of this
ticket's bitfield, this payload's; if nothing was touched, those it listed before;
otherwise nobody's. -/
def sourceAfter (w : World) (p : Path) (s : Loop) : Option (Bytes × ℕ) :=
  if r.drops s then none
  else if s.sidecar.map List.length = some (bitfieldBytes r.ticket.total) then some r.source
  else if w.files p = some s.out ∧ w.files p.sidecar = s.sidecar then w.source p
  else none

end Receive

namespace World

def put (w : World) (p : Path) (content : Option Bytes) : World :=
  { w with files := Function.update w.files p content }

/-- The disk after a receive. -/
def receive (aead : Aead) (hash : Bytes → Bytes) (w : World) (r : Receive) : World :=
  match r.download w with
  | none => w
  | some p =>
      let s := r.loop aead hash w p
      let w' := (w.put p (if r.drops s then none else some s.out)).put p.sidecar s.sidecar
      { r.litter.foldl (fun w k => w.put (p.litter k.1) k.2) w' with
        source := Function.update w.source p (r.sourceAfter w p s) }

variable {aead : Aead} {hash : Bytes → Bytes} {w : World} {r : Receive} {p : Path}

/-- A derived name with a sidecar is kept, whoever left it. -/
theorem download_of_sidecar {d n : String} (harchive : r.ticket.archive = false)
    (hdest : r.dest = .dir d) (hname : defaultFromName r.ticket.name r.ticket.chunks = n)
    (hside : (w.files (Path.mk d n).sidecar).isSome) : r.download w = some ⟨d, n⟩ := by
  simp [Receive.download, harchive, singleFileOut, hdest, hname, collisionFree, hside]

/-! ### What a receive touches -/

theorem files_litter {ks : List (Litter × Option Bytes)} {q : Path}
    (hq : ∀ k, q ≠ p.litter k) (w : World) :
    (ks.foldl (fun w k => w.put (p.litter k.1) k.2) w).files q = w.files q := by
  induction ks generalizing w with
  | nil => rfl
  | cons k ks ih => exact (ih _).trans (Function.update_of_ne (hq k.1) _ _)

theorem receive_eq (hp : r.download w = some p) :
    w.receive aead hash r =
      { r.litter.foldl (fun w k => w.put (p.litter k.1) k.2)
          ((w.put p (if r.drops (r.loop aead hash w p) then none
            else some (r.loop aead hash w p).out)).put p.sidecar (r.loop aead hash w p).sidecar) with
        source := Function.update w.source p (r.sourceAfter w p (r.loop aead hash w p)) } := by
  simp [receive, hp]

/-- The output is where it was resolved to. -/
theorem receive_files_self (hp : r.download w = some p) (hplain : p.Plain) :
    (w.receive aead hash r).files p =
      if r.drops (r.loop aead hash w p) then none else some (r.loop aead hash w p).out := by
  rw [receive_eq hp]
  refine (files_litter (fun k => hplain.ne_litter p k) _).trans ?_
  exact (Function.update_of_ne (hplain.ne_sidecar p) _ _).trans (Function.update_self _ _ _)

theorem receive_files_sidecar (hp : r.download w = some p) :
    (w.receive aead hash r).files p.sidecar = (r.loop aead hash w p).sidecar := by
  rw [receive_eq hp]
  exact (files_litter (fun k => p.sidecar_ne_litter p k) _).trans (Function.update_self _ _ _)

theorem receive_source_self (hp : r.download w = some p) :
    (w.receive aead hash r).source p = r.sourceAfter w p (r.loop aead hash w p) := by
  rw [receive_eq hp]
  exact Function.update_self _ _ _

/-- Another download's output and sidecar are left alone. -/
theorem receive_frame (aead : Aead) (hash : Bytes → Bytes) (hp : r.download w = some p) (hplain : p.Plain) {q : Path} (hq : q.Plain)
    (hne : q ≠ p) :
    (w.receive aead hash r).files q = w.files q ∧
      (w.receive aead hash r).files q.sidecar = w.files q.sidecar ∧
      (w.receive aead hash r).source q = w.source q := by
  rw [receive_eq hp]
  refine ⟨?_, ?_, Function.update_of_ne hne _ _⟩
  · refine (files_litter (fun k => hq.ne_litter p k) _).trans ?_
    exact (Function.update_of_ne (hq.ne_sidecar p) _ _).trans (Function.update_of_ne hne _ _)
  · refine (files_litter (fun k => q.sidecar_ne_litter p k) _).trans ?_
    refine (Function.update_of_ne (fun he => hne (Path.sidecar_inj he)) _ _).trans ?_
    exact Function.update_of_ne (hplain.ne_sidecar q).symm _ _

/-! ### Histories -/

/-- What a sidecar lists of its payload is in the file. -/
def Right (w : World) : Prop :=
  ∀ p : Path, p.Plain → ∀ payload chunkSize, w.source p = some (payload, chunkSize) →
    ∀ b, w.files p.sidecar = some b →
      ∀ i < (payload.length + chunkSize - 1) / chunkSize, bitfieldHas b i = true →
        Agrees chunkSize payload ((w.files p).getD []) i

/-- The ticket was issued for the payload, and its digests are not forged. -/
structure Valid (aead : Aead) (hash : Bytes → Bytes) (r : Receive) : Prop where
  pos : 0 < r.ticket.chunkSize
  issued : Ticket.issue aead hash r.ticket.key r.ticket.chunkSize r.ticket.name r.ticket.archive
    r.payload = some r.ticket
  unforged : Unforged (r.config aead hash) r.payload

/-- The receive finds nothing of another payload: the sidecar at its path claims
no piece, or was left by receives of the same payload. Its path is not named like
a file the engine keeps. -/
def Own (w : World) (r : Receive) : Prop :=
  match r.download w with
  | none => True
  | some p => p.Plain ∧
      (bitfieldCount (readSidecar (w.files p.sidecar) r.ticket.total) = 0 ∨
        w.source p = some r.source)

instance (w : World) (r : Receive) : Decidable (w.Own r) := by
  unfold Own
  cases r.download w with
  | none => exact .isTrue trivial
  | some p => exact inferInstanceAs (Decidable (_ ∧ _))

/-- If the receive completes, its output is the payload, and it is on disk unless
it was an archive that has been unpacked. -/
def Delivered (aead : Aead) (hash : Bytes → Bytes) (w : World) (r : Receive) : Prop :=
  ∀ p, r.download w = some p → (r.loop aead hash w p).exit = some .completed →
    (r.loop aead hash w p).out = r.payload ∧
      (r.drops (r.loop aead hash w p) = false →
        (w.receive aead hash r).files p = some r.payload)

theorem Own.claims (hown : w.Own r) (hright : w.Right) (hp : r.download w = some p)
    (htotal : r.ticket.total =
      (r.payload.length + r.ticket.chunkSize - 1) / r.ticket.chunkSize) :
    ∀ i < r.ticket.total, bitfieldHas (readSidecar (w.files p.sidecar) r.ticket.total) i = true →
      Agrees r.ticket.chunkSize r.payload ((w.files p).getD []) i := by
  intro i hi hbit
  simp only [Own, hp] at hown
  obtain ⟨hplain, hzero | hsource⟩ := hown
  · rw [bitfieldHas_of_count_eq_zero hzero] at hbit
    cases hbit
  · cases hside : w.files p.sidecar with
    | none => simp [hside, readSidecar] at hbit
    | some b =>
        refine hright p hplain _ _ hsource b hside i (htotal ▸ hi) ?_
        rw [hside, readSidecar] at hbit
        split_ifs at hbit
        · exact hbit
        · simp at hbit

theorem receive_faithful (hlawful : aead.Lawful) (hreject : aead.RejectsDamaged)
    (hvalid : Valid aead hash r) (hown : w.Own r) (hright : w.Right) (hp : r.download w = some p) :
    (r.loop aead hash w p).Faithful (r.config aead hash) r.payload ∧
      ((r.loop aead hash w p).exit = some .completed → (r.loop aead hash w p).out = r.payload) := by
  have hissued : Issued (r.config aead hash) r.payload := issued_of_issue hvalid.pos hvalid.issued
  exact Loop.run_faithful _ _ _ _ _ rfl hissued hvalid.unforged hlawful hreject
    (hown.claims hright hp hissued.total)

/-- A receive leaves every sidecar right. -/
theorem Right.receive (hright : w.Right) (hlawful : aead.Lawful) (hreject : aead.RejectsDamaged)
    (hvalid : Valid aead hash r) (hown : w.Own r) : (w.receive aead hash r).Right := by
  cases hp : r.download w with
  | none => simpa [World.receive, hp] using hright
  | some p =>
      obtain ⟨hfaithful, -⟩ := receive_faithful hlawful hreject hvalid hown hright hp
      have hplain : p.Plain := by
        simp only [Own, hp] at hown
        exact hown.1
      intro q hq payload chunkSize hsource b hb i hi hbit
      by_cases hqp : q = p
      · subst hqp
        rw [receive_files_sidecar hp] at hb
        rw [receive_files_self hp hplain]
        rw [receive_source_self hp, Receive.sourceAfter] at hsource
        split_ifs at hsource with hdrop hlen hsame
        · -- the sidecar is this receive's own
          rw [if_neg (by simpa using hdrop)]
          obtain ⟨rfl, rfl⟩ := Prod.mk.inj (Option.some.inj hsource)
          rw [hb, Option.map_some, Option.some.injEq] at hlen
          have hissued : Issued (r.config aead hash) r.payload :=
            issued_of_issue hvalid.pos hvalid.issued
          exact hfaithful.saved b hb hlen i (hissued.total ▸ hi) hbit
        · -- nothing was touched
          rw [if_neg (by simpa using hdrop)]
          have hold := hright q hq payload chunkSize hsource b (hsame.2.trans hb) i hi hbit
          rwa [hsame.1] at hold
      · obtain ⟨hfile, hside, hsrc⟩ := receive_frame aead hash hp hplain hq hqp
        rw [hside] at hb
        rw [hsrc] at hsource
        rw [hfile]
        exact hright q hq payload chunkSize hsource b hb i hi hbit

theorem delivered (hright : w.Right) (hlawful : aead.Lawful) (hreject : aead.RejectsDamaged)
    (hvalid : Valid aead hash r) (hown : w.Own r) : w.Delivered aead hash r := by
  intro p hp hexit
  obtain ⟨-, hout⟩ := receive_faithful hlawful hreject hvalid hown hright hp
  have hplain : p.Plain := by
    simp only [Own, hp] at hown
    exact hown.1
  refine ⟨hout hexit, fun hdrop => ?_⟩
  rw [receive_files_self hp hplain, if_neg (by simp [hdrop]), hout hexit]

end World

/-! ### Two tickets under one name -/

/-- A ciphertext of the stand-in cipher. -/
def sealedText (m : Bytes) : Bytes := m ++ List.replicate tag 255

/-- A ticket for four bytes in two pieces. -/
def pairTicket (a b : Bytes) : Ticket where
  chunks := [sealedText a, sealedText b]
  key := []
  chunkSize := 2
  totalSize := 4
  name := "report.pdf"

def soleSource : Sources := { sender := some "origin" }

/-- Fetch piece `i` and commit it. -/
def fetchPiece (i : ℕ) (ct : Bytes) : List Loop.Event :=
  [.assign 0 soleSource i "origin", .openStage 0, .receive 0 ct, .writeStage 0 64,
    .report 0 0 none .whole]

/-- A receive of `pairTicket` into a directory. -/
def pairReceive (a b : Bytes) (events : List Loop.Event) : Receive where
  ticket := pairTicket a b
  payload := a ++ b
  concurrency := 1
  origin := some "origin"
  dest := .dir "downloads"
  stages := .empty
  events := events

/-- The first piece arrives and the process dies. -/
def interrupted (a b : Bytes) : Receive := pairReceive a b (fetchPiece 0 (sealedText a) ++ [.die])

/-- Whatever piece is missing is fetched, the second one here. -/
def finished (a b : Bytes) : Receive := pairReceive a b (fetchPiece 1 (sealedText b) ++ [.leave true])

theorem unforged_id (r : Receive) : Unforged (r.config .plain id) r.payload :=
  fun _ _ _ h => h

def noFiles : Path → Option Bytes := fun _ => none

namespace World

end World

end Arvolo.Recv
