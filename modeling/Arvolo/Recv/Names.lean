import Arvolo.Recv.History
import Arvolo.Lib.Lines

/-!
Names that a sender chose, as the receivers derive a path from them: `default_out`,
`safe_download_name` and `single_file_out` of `core/src/flow/recv.rs`, `mailbox_out` of
`core/src/flow/offline.rs` and `accept_offer_with_password` of `core/src/manager/mod.rs`.

The last component of a name is used if it is one. Otherwise the name is made from the first 16
bytes of another string of the sender's, as they are.
-/

namespace Arvolo.Recv

open Crypto

/-! ### The names -/

def utf8Len (cs : List Char) : ℕ := (cs.map Char.utf8Size).sum

/-- The first `n` bytes, if no character lies across their end. -/
def bytePrefix : ℕ → List Char → Option (List Char)
  | 0, _ => some []
  | _ + 1, [] => none
  | n + 1, c :: cs =>
      if c.utf8Size ≤ n + 1 then (bytePrefix (n + 1 - c.utf8Size) cs).map (c :: ·) else none

/-- `default_out` of any string; `none` is a panic. -/
def seedOut (seed : String) : Option String :=
  (bytePrefix (min (utf8Len seed.toList) 16) seed.toList).map fun cs =>
    "received-" ++ String.ofList cs ++ ".bin"

/-- `safe_download_name`, or else `default_out`. -/
def derivedName (name seed : String) : Option String :=
  match safeDownloadName name with
  | some n => some n
  | none => seedOut seed

/-- `archive_dir` of `recv_chunked`. -/
def archiveDir (userOut : Option Path) (name : String) : Option Path :=
  match userOut with
  | some d => some d
  | none => (derivedName name name).map (Path.mk "")

/-- A mailbox ticket's name, and the claim it is fetched by. -/
structure OfflineTicket where
  name : String
  claim : String

def mailboxOut (w : World) (userOut : Dest) (t : OfflineTicket) : Option Path :=
  match userOut, safeDownloadName t.name with
  | .dir d, some n => w.collisionFree ⟨d, n⟩
  | .dir d, none => (seedOut t.claim).bind fun n => w.collisionFree ⟨d, n⟩
  | .file p, _ => some p
  | .here, some n => w.collisionFree ⟨"", n⟩
  | .here, none => (seedOut t.claim).bind fun n => w.collisionFree ⟨"", n⟩

/-- An offer's name and ticket. -/
structure Offer where
  name : String
  ticket : String

/-- `out_path` of `accept_offer_with_password`. -/
def acceptOut (downloadDir : String) (out : Option Path) (offer : Offer) : Option Path :=
  match out with
  | some p => some p
  | none => (derivedName offer.name offer.ticket).map (Path.mk downloadDir)

/-- The directory that a destination leaves the name to. -/
def Dest.base : Dest → Option String
  | .here => some ""
  | .dir d => some d
  | .file _ => none

/-- One component that stays where it is put. -/
def Normal (n : String) : Prop := n ≠ "" ∧ n ≠ "." ∧ n ≠ ".." ∧ '/' ∉ n.toList

def Path.Inside (p : Path) (base : String) : Prop := p.dir = base ∧ Normal p.name

/-- What the sender's strings give: the last component of the name; or, where that is none, the
first 16 bytes of the other string, which end with a character and have no separator. -/
def Named (name seed n : String) : Prop :=
  safeDownloadName name = some n ∨
    (safeDownloadName name = none ∧ ∃ cs rest, seed.toList = cs ++ rest ∧
      utf8Len cs = min (utf8Len seed.toList) 16 ∧ '/' ∉ cs ∧
      n = "received-" ++ String.ofList cs ++ ".bin")

/-! ### The first bytes -/

theorem utf8Len_cons (c : Char) (cs : List Char) :
    utf8Len (c :: cs) = c.utf8Size + utf8Len cs := by
  simp [utf8Len]

theorem bytePrefix_eq_some_iff {n : ℕ} {cs pre : List Char} :
    bytePrefix n cs = some pre ↔ ∃ rest, cs = pre ++ rest ∧ utf8Len pre = n := by
  induction cs generalizing n pre with
  | nil =>
      cases n with
      | zero =>
          simp only [bytePrefix, Option.some.injEq, List.nil_eq_append_iff]
          constructor
          · rintro rfl
            exact ⟨[], ⟨rfl, rfl⟩, rfl⟩
          · rintro ⟨rest, ⟨rfl, -⟩, -⟩
            rfl
      | succ n =>
          simp only [bytePrefix, reduceCtorEq, List.nil_eq_append_iff, false_iff, not_exists]
          rintro rest ⟨⟨rfl, -⟩, hlen⟩
          cases hlen
  | cons c cs ih =>
      have hpos : 0 < c.utf8Size := c.utf8Size_pos
      cases n with
      | zero =>
          simp only [bytePrefix, Option.some.injEq]
          constructor
          · rintro rfl
            exact ⟨c :: cs, rfl, rfl⟩
          · rintro ⟨rest, heq, hlen⟩
            cases pre with
            | nil => rfl
            | cons d pre =>
                have hd : 0 < d.utf8Size := d.utf8Size_pos
                rw [utf8Len_cons] at hlen
                omega
      | succ n =>
          simp only [bytePrefix]
          split_ifs with hfit
          · simp only [Option.map_eq_some_iff, ih]
            constructor
            · rintro ⟨tail, ⟨rest, rfl, hlen⟩, rfl⟩
              refine ⟨rest, rfl, ?_⟩
              rw [utf8Len_cons]
              omega
            · rintro ⟨rest, heq, hlen⟩
              cases pre with
              | nil => cases hlen
              | cons d tail =>
                  obtain ⟨rfl, rfl⟩ := List.cons.inj heq
                  rw [utf8Len_cons] at hlen
                  exact ⟨tail, ⟨rest, rfl, by omega⟩, rfl⟩
          · simp only [false_iff, not_exists]
            rintro rest ⟨heq, hlen⟩
            cases pre with
            | nil => cases hlen
            | cons d tail =>
                obtain ⟨rfl, -⟩ := List.cons.inj heq
                rw [utf8Len_cons] at hlen
                omega

theorem seedOut_eq_some_iff {seed n : String} :
    seedOut seed = some n ↔ ∃ cs rest, seed.toList = cs ++ rest ∧
      utf8Len cs = min (utf8Len seed.toList) 16 ∧ n = "received-" ++ String.ofList cs ++ ".bin" := by
  simp only [seedOut, Option.map_eq_some_iff, bytePrefix_eq_some_iff]
  constructor
  · rintro ⟨cs, ⟨rest, heq, hlen⟩, rfl⟩
    exact ⟨cs, rest, heq, hlen, rfl⟩
  · rintro ⟨cs, rest, heq, hlen, rfl⟩
    exact ⟨cs, ⟨rest, heq, hlen⟩, rfl⟩

/-! ### What is one component -/

theorem normal_of_safeDownloadName {name n : String} (h : safeDownloadName name = some n) :
    Normal n := by
  unfold safeDownloadName at h
  split at h
  next part hlast =>
    split_ifs at h with hparent
    obtain rfl := Option.some.inj h
    obtain ⟨hpart, hkeep⟩ := List.mem_filter.1 (List.mem_of_getLast? hlast)
    obtain ⟨hempty, hdot⟩ := of_decide_eq_true hkeep
    refine ⟨?_, ?_, ?_, ?_⟩
    · exact fun heq => hempty (by simpa using congrArg String.toList heq)
    · exact fun heq => hdot (by simpa using congrArg String.toList heq)
    · exact fun heq => hparent (by simpa using congrArg String.toList heq)
    · rw [String.toList_ofList]
      exact Lib.notMem_of_mem_splitOn hpart
  next => cases h

/-- A generated name is one component if nothing separates it. -/
theorem normal_received_iff (cs : List Char) :
    Normal ("received-" ++ String.ofList cs ++ ".bin") ↔ '/' ∉ cs := by
  have hlist : ("received-" ++ String.ofList cs ++ ".bin").toList =
      "received-".toList ++ cs ++ ".bin".toList := by
    simp only [String.toList_append, String.toList_ofList]
  have hlong : ∀ t : String, t.toList.length < 9 → "received-" ++ String.ofList cs ++ ".bin" ≠ t := by
    intro t ht heq
    have := congrArg (List.length ∘ String.toList) heq
    simp only [Function.comp, hlist, List.length_append] at this
    have hnine : "received-".toList.length = 9 := by decide
    omega
  have hmem : '/' ∈ ("received-" ++ String.ofList cs ++ ".bin").toList ↔ '/' ∈ cs := by
    have hfirst : '/' ∉ "received-".toList := by decide
    have hlast : '/' ∉ ".bin".toList := by decide
    rw [hlist, List.mem_append, List.mem_append]
    tauto
  constructor
  · exact fun h hcs => h.2.2.2 (hmem.2 hcs)
  · exact fun h => ⟨hlong _ (by decide), hlong _ (by decide), hlong _ (by decide),
      fun hin => h (hmem.1 hin)⟩

theorem derivedName_normal_iff {name seed n : String} :
    (derivedName name seed = some n ∧ Normal n) ↔ Named name seed n := by
  unfold derivedName Named
  cases hname : safeDownloadName name with
  | some m =>
      simp only [Option.some.injEq, reduceCtorEq, false_and, or_false, and_iff_left_iff_imp]
      rintro rfl
      exact normal_of_safeDownloadName hname
  | none =>
      simp only [reduceCtorEq, true_and, false_or, seedOut_eq_some_iff]
      constructor
      · rintro ⟨⟨cs, rest, heq, hlen, rfl⟩, hnormal⟩
        exact ⟨cs, rest, heq, hlen, (normal_received_iff cs).1 hnormal, rfl⟩
      · rintro ⟨cs, rest, heq, hlen, hcs, rfl⟩
        exact ⟨⟨cs, rest, heq, hlen, rfl⟩, (normal_received_iff cs).2 hcs⟩

/-! ### Numbered names -/

/-- The name with a number. -/
def Path.nth (p : Path) (k : ℕ) : Path :=
  { p with name := (splitExt p.name).1 ++ " (" ++ k.repr ++ ")" ++ (splitExt p.name).2 }

/-- The name is free or has a sidecar. -/
def World.Takes (w : World) (p : Path) : Prop :=
  (w.files p).isNone = true ∨ (w.files p.sidecar).isSome = true

/-- The name can be taken, or one of its 2^32 - 1 numbered variants can. -/
def World.Room (w : World) (p : Path) : Prop :=
  w.Takes p ∨ ∃ k, 1 ≤ k ∧ k < 2 ^ 32 ∧ w.Takes (p.nth k)

theorem splitExt_append (name : String) : (splitExt name).1 ++ (splitExt name).2 = name := by
  have hsplit : ∀ l : List Char, l.drop (l.takeWhile (· ≠ '.')).length = l.dropWhile (· ≠ '.') := by
    intro l
    refine (List.append_right_inj (l.takeWhile (· ≠ '.'))).1 ?_
    rw [List.takeWhile_append_dropWhile]
    exact List.prefix_iff_eq_append.1 (List.takeWhile_prefix _)
  simp only [splitExt, hsplit]
  have hwhole := List.takeWhile_append_dropWhile (p := fun c => decide (c ≠ '.'))
    (l := name.toList.reverse)
  have hhead := List.head?_dropWhile_not (fun c => decide (c ≠ '.')) name.toList.reverse
  generalize hafter : name.toList.reverse.takeWhile (fun c => decide (c ≠ '.')) = after at hwhole
  generalize hdrop : name.toList.reverse.dropWhile (fun c => decide (c ≠ '.')) = rest
    at hwhole hhead
  split
  next c b before =>
    obtain rfl : c = '.' := by simpa using hhead
    refine String.toList_injective ?_
    have hback := congrArg List.reverse hwhole
    rw [List.reverse_reverse] at hback
    simp [String.toList_append, ← hback]
  next => exact String.append_empty

theorem notMem_repr (k : ℕ) : '/' ∉ k.repr.toList := by
  intro h
  rw [Nat.toList_repr] at h
  exact absurd (Nat.isDigit_of_mem_toDigits (by decide) (by decide) h) (by decide)

theorem toList_nth (p : Path) (k : ℕ) : (p.nth k).name.toList = (splitExt p.name).1.toList ++
    " (".toList ++ k.repr.toList ++ ")".toList ++ (splitExt p.name).2.toList := by
  simp only [Path.nth, String.toList_append]

/-- A number makes a component of what nothing separates. -/
theorem normal_nth_iff (p : Path) (k : ℕ) : Normal (p.nth k).name ↔ '/' ∉ p.name.toList := by
  have hmem : '/' ∈ (p.nth k).name.toList ↔ '/' ∈ p.name.toList := by
    have hsplit := congrArg String.toList (splitExt_append p.name)
    rw [String.toList_append] at hsplit
    have hopen : '/' ∉ " (".toList := by decide
    have hclose : '/' ∉ ")".toList := by decide
    simp only [toList_nth, ← hsplit, List.mem_append, hopen, hclose, notMem_repr, or_false]
  have hlong : ∀ t : String, t.toList.length < 3 → (p.nth k).name ≠ t := by
    intro t ht heq
    have hlen := congrArg List.length (toList_nth p k)
    have htwo : " (".toList.length = 2 := by decide
    have hone : ")".toList.length = 1 := by decide
    simp only [heq, List.length_append, htwo, hone] at hlen
    omega
  constructor
  · exact fun h hname => h.2.2.2 (hmem.2 hname)
  · exact fun h => ⟨hlong _ (by decide), hlong _ (by decide), hlong _ (by decide),
      fun hin => h (hmem.1 hin)⟩

theorem numbered_eq_some {w : World} {p q : Path} {fuel n : ℕ}
    (h : w.numbered p fuel n = some q) : ∃ k, q = p.nth k := by
  induction fuel generalizing n with
  | zero => cases h
  | succ fuel ih =>
      rw [World.numbered] at h
      split_ifs at h
      · exact ⟨n, (Option.some.inj h).symm⟩
      · exact ⟨n, (Option.some.inj h).symm⟩
      · exact ih h

/-- The search ends where a numbered name can be taken. -/
theorem exists_numbered_iff (w : World) (p : Path) (fuel n : ℕ) :
    (∃ q, w.numbered p fuel n = some q) ↔ ∃ k, n ≤ k ∧ k < n + fuel ∧ w.Takes (p.nth k) := by
  induction fuel generalizing n with
  | zero =>
      simp only [World.numbered, reduceCtorEq, exists_false, false_iff, not_exists]
      rintro k ⟨hle, hlt, -⟩
      omega
  | succ fuel ih =>
      rw [World.numbered]
      by_cases hside : (w.files (p.nth n).sidecar).isSome = true
      · refine iff_of_true ⟨p.nth n, if_pos hside⟩ ⟨n, le_rfl, by omega, .inr hside⟩
      by_cases hfree : (w.files (p.nth n)).isNone = true
      · refine iff_of_true ⟨p.nth n, ?_⟩ ⟨n, le_rfl, by omega, .inl hfree⟩
        exact (if_neg hside).trans (if_pos hfree)
      have hrest : ∀ o, (if (w.files (p.nth n).sidecar).isSome = true then some (p.nth n)
          else if (w.files (p.nth n)).isNone = true then some (p.nth n) else o) = o := fun o => by
        rw [if_neg hside, if_neg hfree]
      have hstep := hrest (w.numbered p fuel (n + 1))
      rw [Path.nth] at hstep
      simp only [hstep, ih]
      constructor
      · rintro ⟨k, hle, hlt, h⟩
        exact ⟨k, by omega, by omega, h⟩
      · rintro ⟨k, hle, hlt, h⟩
        have hne : k ≠ n := by
          rintro rfl
          rcases h with h | h
          · exact hfree h
          · exact hside h
        exact ⟨k, by omega, by omega, h⟩

theorem collisionFree_eq_some {w : World} {p q : Path} (h : w.collisionFree p = some q) :
    q = p ∨ ∃ k, q = p.nth k := by
  rw [World.collisionFree] at h
  split_ifs at h
  · exact .inl (Option.some.inj h).symm
  · exact .inr (numbered_eq_some h)

theorem exists_collisionFree_iff (w : World) (p : Path) :
    (∃ q, w.collisionFree p = some q) ↔ w.Room p := by
  rw [World.collisionFree, World.Room, World.Takes, ← Bool.or_eq_true]
  split_ifs with h
  · exact iff_of_true ⟨p, rfl⟩ (.inl h)
  · rw [exists_numbered_iff]
    constructor
    · rintro ⟨k, hle, hlt, htakes⟩
      exact .inr ⟨k, hle, by omega, htakes⟩
    · rintro (hnow | ⟨k, hle, hlt, htakes⟩)
      · exact absurd hnow h
      · exact ⟨k, hle, by omega, htakes⟩

/-- The search keeps what is one component, and makes none of what is not. -/
theorem inside_collisionFree_iff (w : World) (base : String) {n : String}
    (h : Normal n ∨ '/' ∈ n.toList) :
    (∃ p, w.collisionFree ⟨base, n⟩ = some p ∧ p.Inside base) ↔ Normal n ∧ w.Room ⟨base, n⟩ := by
  constructor
  · rintro ⟨p, hp, -, hnormal⟩
    refine ⟨?_, (exists_collisionFree_iff w _).1 ⟨p, hp⟩⟩
    rcases collisionFree_eq_some hp with rfl | ⟨k, rfl⟩
    · exact hnormal
    · exact h.resolve_right ((normal_nth_iff _ k).1 hnormal)
  · rintro ⟨hn, hroom⟩
    obtain ⟨p, hp⟩ := (exists_collisionFree_iff w _).2 hroom
    refine ⟨p, hp, ?_⟩
    rcases collisionFree_eq_some hp with rfl | ⟨k, rfl⟩
    · exact ⟨rfl, hn⟩
    · exact ⟨rfl, (normal_nth_iff _ k).2 hn.2.2.2⟩

/-! ### The generated name of a digest -/

theorem utf8Len_eq_length {cs : List Char} (h : ∀ c ∈ cs, c.utf8Size = 1) :
    utf8Len cs = cs.length := by
  induction cs with
  | nil => rfl
  | cons c cs ih =>
      rw [utf8Len_cons, h c List.mem_cons_self, ih fun d hd => h d (List.mem_cons_of_mem c hd),
        List.length_cons, Nat.add_comm]

/-- Of one-byte characters the first 16 bytes are the first 16 characters. -/
theorem seedOut_of_ascii {seed : String} (h : ∀ c ∈ seed.toList, c.utf8Size = 1) :
    seedOut seed = some (defaultOut seed) := by
  refine seedOut_eq_some_iff.2 ⟨seed.toList.take 16, seed.toList.drop 16, ?_, ?_, rfl⟩
  · rw [List.take_append_drop]
  · rw [utf8Len_eq_length h, utf8Len_eq_length fun c hc => h c (List.mem_of_mem_take hc),
      List.length_take, Nat.min_comm]

theorem hex_char {bytes : Bytes} {c : Char} (h : c ∈ (hex bytes).toList) :
    c.utf8Size = 1 ∧ c ≠ '/' := by
  have hdigit : ∀ d < 16, (Nat.digitChar d).utf8Size = 1 ∧ Nat.digitChar d ≠ '/' := by decide
  rw [hex, String.toList_ofList] at h
  obtain ⟨b, -, hc⟩ := List.mem_flatMap.1 h
  have hb : b.toNat < 256 := b.toNat_lt
  rcases List.mem_cons.1 hc with rfl | hc
  · exact hdigit _ (by omega)
  · rw [List.mem_singleton.1 hc]
    exact hdigit _ (by omega)

theorem firstHash_char {chunks : List Bytes} {c : Char} (h : c ∈ (firstHash chunks).toList) :
    c.utf8Size = 1 ∧ c ≠ '/' := by
  cases chunks with
  | nil => simp [firstHash] at h
  | cons b chunks => exact hex_char (by simpa [firstHash] using h)

/-- A digest always gives a name. -/
theorem named_defaultFromName (name : String) (chunks : List Bytes) :
    Named name (firstHash chunks) (defaultFromName name chunks) := by
  rw [← derivedName_normal_iff, derivedName, defaultFromName]
  cases hname : safeDownloadName name with
  | some n => exact ⟨rfl, normal_of_safeDownloadName hname⟩
  | none =>
      refine ⟨seedOut_of_ascii fun c hc => (firstHash_char hc).1, ?_⟩
      refine (normal_received_iff _).2 fun hmem => ?_
      exact (firstHash_char (List.mem_of_mem_take hmem)).2 rfl

/-! ### The paths -/

theorem derivedName_normal_or {name seed n : String} (h : derivedName name seed = some n) :
    Normal n ∨ '/' ∈ n.toList := by
  by_cases hn : Normal n
  · exact .inl hn
  · refine .inr ?_
    unfold derivedName at h
    split at h
    next m hm =>
      obtain rfl := Option.some.inj h
      exact absurd (normal_of_safeDownloadName hm) hn
    next =>
      obtain ⟨cs, -, -, -, rfl⟩ := seedOut_eq_some_iff.1 h
      rw [normal_received_iff, not_not] at hn
      simp [String.toList_append, hn]

/-- A name that is put into a directory as it is. -/
theorem inside_map_iff (base name seed : String) :
    (∃ p, (derivedName name seed).map (Path.mk base) = some p ∧ p.Inside base) ↔
      ∃ n, Named name seed n := by
  simp only [← derivedName_normal_iff, Option.map_eq_some_iff]
  constructor
  · rintro ⟨p, ⟨n, hn, rfl⟩, -, hnormal⟩
    exact ⟨n, hn, hnormal⟩
  · rintro ⟨n, hn, hnormal⟩
    exact ⟨⟨base, n⟩, ⟨n, hn, rfl⟩, rfl, hnormal⟩

/-- A name that nothing must be overwritten under. -/
theorem inside_bind_iff (w : World) (base name seed : String) :
    (∃ p, ((derivedName name seed).bind fun n => w.collisionFree ⟨base, n⟩) = some p ∧
      p.Inside base) ↔ ∃ n, Named name seed n ∧ w.Room ⟨base, n⟩ := by
  simp only [← derivedName_normal_iff, Option.bind_eq_some_iff]
  constructor
  · rintro ⟨p, ⟨n, hn, hp⟩, hinside⟩
    obtain ⟨hnormal, hroom⟩ :=
      (inside_collisionFree_iff w base (derivedName_normal_or hn)).1 ⟨p, hp, hinside⟩
    exact ⟨n, ⟨hn, hnormal⟩, hroom⟩
  · rintro ⟨n, ⟨hn, hnormal⟩, hroom⟩
    obtain ⟨p, hp, hinside⟩ :=
      (inside_collisionFree_iff w base (.inl hnormal)).2 ⟨hnormal, hroom⟩
    exact ⟨p, ⟨n, hn, hp⟩, hinside⟩

theorem mailboxOut_eq (w : World) {userOut : Dest} {base : String}
    (h : userOut.base = some base) (t : OfflineTicket) :
    mailboxOut w userOut t =
      (derivedName t.name t.claim).bind fun n => w.collisionFree ⟨base, n⟩ := by
  cases userOut with
  | file p => cases h
  | here =>
      obtain rfl := Option.some.inj h
      simp only [mailboxOut, derivedName]
      cases safeDownloadName t.name <;> rfl
  | dir d =>
      obtain rfl := Option.some.inj h
      simp only [mailboxOut, derivedName]
      cases safeDownloadName t.name <;> rfl

theorem singleFileOut_eq (w : World) {userOut : Dest} {base : String}
    (h : userOut.base = some base) (name : String) (chunks : List Bytes) :
    w.singleFileOut userOut name chunks =
      (derivedName name (firstHash chunks)).bind fun n => w.collisionFree ⟨base, n⟩ := by
  rw [(derivedName_normal_iff.2 (named_defaultFromName name chunks)).1]
  cases userOut with
  | file p => cases h
  | here =>
      obtain rfl := Option.some.inj h
      rfl
  | dir d =>
      obtain rfl := Option.some.inj h
      rfl

/-- Where the user leaves the name to the sender, each receiver derives one component below the
directory, without a panic, exactly where the sender's strings give a name and, for those that look
for a free one, one is left. Of a chunk ticket for a single file the strings always do. -/
theorem derived_inside_iff (w : World) (downloadDir name seed : String) (chunks : List Bytes)
    (userOut : Dest) (base : String) (hbase : userOut.base = some base) :
    ((∃ p, archiveDir none name = some p ∧ p.Inside "") ↔ ∃ n, Named name name n) ∧
    ((∃ p, w.singleFileOut userOut name chunks = some p ∧ p.Inside base) ↔
      ∃ n, Named name (firstHash chunks) n ∧ w.Room ⟨base, n⟩) ∧
    (∃ n, Named name (firstHash chunks) n) ∧
    ((∃ p, mailboxOut w userOut ⟨name, seed⟩ = some p ∧ p.Inside base) ↔
      ∃ n, Named name seed n ∧ w.Room ⟨base, n⟩) ∧
    ((∃ p, acceptOut downloadDir none ⟨name, seed⟩ = some p ∧ p.Inside downloadDir) ↔
      ∃ n, Named name seed n) := by
  refine ⟨inside_map_iff "" name name, ?_, ⟨_, named_defaultFromName name chunks⟩, ?_,
    inside_map_iff downloadDir name seed⟩
  · rw [singleFileOut_eq w hbase]
    exact inside_bind_iff w base name (firstHash chunks)
  · rw [mailboxOut_eq w hbase]
    exact inside_bind_iff w base name seed

theorem derived_inside_report :
    Dest.here.base = some "" ∧ ((∃ p, archiveDir none "a/report.pdf" = some p ∧ p.Inside "") ↔
      ∃ n, Named "a/report.pdf" "a/report.pdf" n) := by
  have hbase : Dest.here.base = some "" := rfl
  exact ⟨hbase, (derived_inside_iff ⟨fun _ => none, fun _ => none⟩ "d" "a/report.pdf" "arvc" []
    .here "" hbase).1⟩

/-- A name without a last component is cut into the path as it is, and leads out of the
directory. -/
theorem not_derived_inside : ¬ ∀ name : String, ∃ p, archiveDir none name = some p ∧
    p.Inside "" := by
  intro h
  obtain ⟨p, hp, -, hnormal⟩ := h "../../../etc/.."
  have hpath : archiveDir none "../../../etc/.." = some ⟨"", "received-../../../etc/...bin"⟩ := by
    decide +kernel
  obtain rfl := Option.some.inj (hpath.symm.trans hp)
  exact hnormal.2.2.2 (by decide +kernel)

end Arvolo.Recv
