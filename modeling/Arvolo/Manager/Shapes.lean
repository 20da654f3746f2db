import Arvolo.Lib.Migration
import Arvolo.Sync.Sidecar

/-!
The bytes of the records of held sends and of deposits, in the shapes they have had:
`manager/records.rs`.

A record carries no version. Its file's prefix tells two generations apart; within one, the newest
shape is tried first, and a shorter encoding runs out of input where the longer has one field more.
-/

namespace Arvolo.Manager.Shapes

open Lib Sync

/-! ### Shapes -/

structure SendToRecordV1 where
  id : ℕ
  recipient : List UInt8
  payload : String
  name : String
  archive : Bool
  paused : Bool
  reason : String
  note : String
  deriving DecidableEq

structure SendToRecordV2 extends SendToRecordV1 where
  /-- The device the send is aimed at. -/
  target : Option DeviceId
  deriving DecidableEq

structure SendToRecordV3 extends SendToRecordV2 where
  /-- The recipient's relay, where it is not ours. -/
  relay : Option String
  deriving DecidableEq

structure SendToRecord extends SendToRecordV3 where
  /-- Never the mailbox. -/
  liveOnly : Bool
  deriving DecidableEq

structure DepositedRecordV1 where
  id : ℕ
  recipient : List UInt8
  name : String
  size : ℕ
  relay : String
  claim : String
  expires : ℕ
  revokeToken : String
  offerId : String
  posterToken : String
  deriving DecidableEq

structure DepositedRecord extends DepositedRecordV1 where
  /-- Where the notice is, which need not be where the blob is. -/
  offerRelay : String
  deriving DecidableEq

/-! ### Encodings -/

def sendToV1Codec : Codec SendToRecordV1 :=
  (Codec.u64.pair (Codec.blob.pair (Codec.text.pair (Codec.text.pair (Codec.bool.pair
    (Codec.bool.pair (Codec.text.pair Codec.text))))))).xmap
    (fun p => ⟨p.1, p.2.1, p.2.2.1, p.2.2.2.1, p.2.2.2.2.1, p.2.2.2.2.2.1, p.2.2.2.2.2.2.1,
      p.2.2.2.2.2.2.2⟩)
    (fun r => (r.id, r.recipient, r.payload, r.name, r.archive, r.paused, r.reason, r.note))
    (fun _ => rfl) fun _ => rfl

def sendToV2Codec : Codec SendToRecordV2 :=
  (sendToV1Codec.pair (Codec.bytes 16).option).xmap (fun p => ⟨p.1, p.2⟩)
    (fun r => (r.toSendToRecordV1, r.target)) (fun _ => rfl) fun _ => rfl

def sendToV3Codec : Codec SendToRecordV3 :=
  (sendToV2Codec.pair Codec.text.option).xmap (fun p => ⟨p.1, p.2⟩)
    (fun r => (r.toSendToRecordV2, r.relay)) (fun _ => rfl) fun _ => rfl

def sendToCodec : Codec SendToRecord :=
  (sendToV3Codec.pair Codec.bool).xmap (fun p => ⟨p.1, p.2⟩)
    (fun r => (r.toSendToRecordV3, r.liveOnly)) (fun _ => rfl) fun _ => rfl

def depositedV1Codec : Codec DepositedRecordV1 :=
  (Codec.u64.pair (Codec.blob.pair (Codec.text.pair (Codec.u64.pair (Codec.text.pair
    (Codec.text.pair (Codec.u64.pair (Codec.text.pair (Codec.text.pair Codec.text))))))))).xmap
    (fun p => ⟨p.1, p.2.1, p.2.2.1, p.2.2.2.1, p.2.2.2.2.1, p.2.2.2.2.2.1, p.2.2.2.2.2.2.1,
      p.2.2.2.2.2.2.2.1, p.2.2.2.2.2.2.2.2.1, p.2.2.2.2.2.2.2.2.2⟩)
    (fun r => (r.id, r.recipient, r.name, r.size, r.relay, r.claim, r.expires, r.revokeToken,
      r.offerId, r.posterToken)) (fun _ => rfl) fun _ => rfl

def depositedCodec : Codec DepositedRecord :=
  (depositedV1Codec.pair Codec.text).xmap (fun p => ⟨p.1, p.2⟩)
    (fun r => (r.toDepositedRecordV1, r.offerRelay)) (fun _ => rfl) fun _ => rfl

/-! ### Reading and migrating -/

def SendToRecordV3.upgraded (r : SendToRecordV3) : SendToRecord := { r with liveOnly := false }

def SendToRecordV2.upgraded (r : SendToRecordV2) : SendToRecord :=
  { r with relay := none, liveOnly := false }

def SendToRecordV1.upgraded (r : SendToRecordV1) : SendToRecord :=
  { r with target := none, relay := none, liveOnly := false }

/-- One relay served both roles. -/
def DepositedRecordV1.upgraded (r : DepositedRecordV1) : DepositedRecord :=
  { r with offerRelay := r.relay }

def readSendTo (b : List UInt8) : Option SendToRecord :=
  (fromBytes sendToCodec b).or ((fromBytes sendToV3Codec b).map SendToRecordV3.upgraded)

def decodeLegacySendTo (b : List UInt8) : Option SendToRecord :=
  ((fromBytes sendToV2Codec b).map SendToRecordV2.upgraded).or
    ((fromBytes sendToV1Codec b).map SendToRecordV1.upgraded)

def sendToFiles : Generations SendToRecord where
  oldPrefix := "sendto-"
  newPrefix := "sendto2-"
  id r := r.id
  readOld := decodeLegacySendTo
  readNew := readSendTo
  write := sendToCodec.write

def depositedFiles : Generations DepositedRecord where
  oldPrefix := "dep-"
  newPrefix := "dep2-"
  id r := r.id
  readOld b := (fromBytes depositedV1Codec b).map DepositedRecordV1.upgraded
  readNew := fromBytes depositedCodec
  write := depositedCodec.write

def loadSendtos (dir : Dir) : List SendToRecord × Dir := sendToFiles.load dir

def loadDepositeds (dir : Dir) : List DepositedRecord × Dir := depositedFiles.load dir

/-! ### What was written -/

/-- A held send, as some version wrote it. -/
inductive HeldSend
  | v1 (r : SendToRecordV1)
  | v2 (r : SendToRecordV2)
  | v3 (r : SendToRecordV3)
  | current (r : SendToRecord)
  deriving DecidableEq

namespace HeldSend

def upgraded : HeldSend → SendToRecord
  | v1 r => r.upgraded
  | v2 r => r.upgraded
  | v3 r => r.upgraded
  | current r => r

def path : HeldSend → String
  | v1 r => sendToFiles.oldPath r.id
  | v2 r => sendToFiles.oldPath r.id
  | v3 r => sendToFiles.newPath r.id
  | current r => sendToFiles.newPath r.id

def bytes : HeldSend → List UInt8
  | v1 r => sendToV1Codec.write r
  | v2 r => sendToV2Codec.write r
  | v3 r => sendToV3Codec.write r
  | current r => sendToCodec.write r

/-- The numbers and lengths are those of the types. -/
def Good : HeldSend → Prop
  | v1 r => sendToV1Codec.Good r
  | v2 r => sendToV2Codec.Good r
  | v3 r => sendToV3Codec.Good r
  | current r => sendToCodec.Good r

end HeldSend

inductive HeldDeposit
  | v1 (r : DepositedRecordV1)
  | current (r : DepositedRecord)
  deriving DecidableEq

namespace HeldDeposit

def upgraded : HeldDeposit → DepositedRecord
  | v1 r => r.upgraded
  | current r => r

def path : HeldDeposit → String
  | v1 r => depositedFiles.oldPath r.id
  | current r => depositedFiles.newPath r.id

def bytes : HeldDeposit → List UInt8
  | v1 r => depositedV1Codec.write r
  | current r => depositedCodec.write r

def Good : HeldDeposit → Prop
  | v1 r => depositedV1Codec.Good r
  | current r => depositedCodec.Good r

end HeldDeposit

/-- The directory with these files in it. -/
def shelf (files : List (String × List UInt8)) : Dir :=
  files.foldr (fun file dir => dir.insert file.1 file.2) ∅

def filesOf (sends : List HeldSend) (deposits : List HeldDeposit) : List (String × List UInt8) :=
  (sends.map fun w => (w.path, w.bytes)) ++ deposits.map fun w => (w.path, w.bytes)

/-- Each record that was written is loaded once, with what it was written with, whatever passes
were made over the directory before, or begun. -/
def LoseNothing (sends : List HeldSend) (deposits : List HeldDeposit) : Prop :=
  ∀ ps : List (Generations.Pass ⊕ Generations.Pass),
    let dir := ps.foldl (Generations.passOf sendToFiles depositedFiles)
      (shelf (filesOf sends deposits))
    (((loadSendtos dir).1.map fun r => r.id).Nodup ∧
        ∀ r, r ∈ (loadSendtos dir).1 ↔ ∃ w ∈ sends, w.upgraded = r) ∧
      ((loadDepositeds dir).1.map fun r => r.id).Nodup ∧
        ∀ r, r ∈ (loadDepositeds dir).1 ↔ ∃ w ∈ deposits, w.upgraded = r

/-- Records of one id, under the old name and under the new one, are one record. -/
def OneEach (sends : List HeldSend) (deposits : List HeldDeposit) : Prop :=
  (∀ w ∈ sends, ∀ w' ∈ sends, w.upgraded.id = w'.upgraded.id → w.upgraded = w'.upgraded) ∧
    ∀ w ∈ deposits, ∀ w' ∈ deposits, w.upgraded.id = w'.upgraded.id → w.upgraded = w'.upgraded

/-! ### No shape is read as another -/

section

variable {α β γ : Type} {c : Codec α} {d : Codec β}

theorem good_of_fromBytes {b : List UInt8} {a : α} (h : fromBytes c b = some a) : c.Good a := by
  obtain ⟨⟨a', rest⟩, hread, rfl⟩ := Option.map_eq_some_iff.1 h
  exact (c.read_sound hread).1

/-- A shape with one field more runs out of input. -/
theorem fromBytes_longer {f : α × β → γ} {k : γ → α × β} {hfg : ∀ r, f (k r) = r}
    {hgf : ∀ p, k (f p) = p} {a : α} (ha : c.Good a) (hd : d.read [] = none) :
    fromBytes ((c.pair d).xmap f k hfg hgf) (c.write a) = none :=
  fromBytes_eq_none.2 (Option.map_eq_none_iff.2 (Codec.read_pair_write ha hd))

end

theorem good_none {α : Type} (c : Codec α) : c.option.Good none :=
  fun _ h => absurd h (by simp)

theorem good_upgraded_v2 {r : SendToRecordV2} (h : sendToV2Codec.Good r) :
    sendToCodec.Good r.upgraded :=
  ⟨⟨h, good_none _⟩, trivial⟩

theorem good_upgraded_v1 {r : SendToRecordV1} (h : sendToV1Codec.Good r) :
    sendToCodec.Good r.upgraded :=
  ⟨⟨⟨h, good_none _⟩, good_none _⟩, trivial⟩

theorem readSendTo_write {r : SendToRecord} (h : sendToCodec.Good r) :
    readSendTo (sendToCodec.write r) = some r := by
  rw [readSendTo, fromBytes_write h, Option.some_or]

theorem HeldSend.written {w : HeldSend} (h : w.Good) :
    sendToFiles.Written w.path w.bytes w.upgraded := by
  cases w with
  | v1 r =>
      have hlonger : fromBytes sendToV2Codec (sendToV1Codec.write r) = none :=
        fromBytes_longer h (Codec.read_option_nil _)
      refine .inr ⟨rfl, ?_⟩
      change decodeLegacySendTo (sendToV1Codec.write r) = some r.upgraded
      rw [decodeLegacySendTo, hlonger, fromBytes_write h]
      rfl
  | v2 r =>
      refine .inr ⟨rfl, ?_⟩
      change decodeLegacySendTo (sendToV2Codec.write r) = some r.upgraded
      rw [decodeLegacySendTo, fromBytes_write h]
      rfl
  | v3 r =>
      have hlonger : fromBytes sendToCodec (sendToV3Codec.write r) = none := fromBytes_longer h rfl
      refine .inl ⟨rfl, ?_⟩
      change readSendTo (sendToV3Codec.write r) = some r.upgraded
      rw [readSendTo, hlonger, fromBytes_write h]
      rfl
  | current r => exact .inl ⟨rfl, readSendTo_write h⟩

theorem HeldDeposit.written {w : HeldDeposit} (h : w.Good) :
    depositedFiles.Written w.path w.bytes w.upgraded := by
  cases w with
  | v1 r =>
      refine .inr ⟨rfl, ?_⟩
      change (fromBytes depositedV1Codec (depositedV1Codec.write r)).map _ = some r.upgraded
      rw [fromBytes_write h]
      rfl
  | current r => exact .inl ⟨rfl, fromBytes_write h⟩

/-! ### The names -/

theorem notOld_of_prefixes {R : Type} {g : Generations R}
    (h : ¬ g.oldPrefix.toList <+: g.newPrefix.toList)
    (h' : ¬ g.newPrefix.toList <+: g.oldPrefix.toList) (i : ℕ) :
    isRecord g.oldPrefix (g.newPath i) = false ∧ isRecord g.newPrefix (g.oldPath i) = false :=
  ⟨Generations.isRecord_of_isRecord h' h (isRecord_recordPath _ i),
    Generations.isRecord_of_isRecord h h' (isRecord_recordPath _ i)⟩

theorem lawful_sendToFiles : sendToFiles.Lawful where
  new_not_old i := (notOld_of_prefixes (g := sendToFiles) (by decide) (by decide) i).1
  old_not_new i := (notOld_of_prefixes (g := sendToFiles) (by decide) (by decide) i).2
  readNew_write b r h := by
    refine readSendTo_write ?_
    rcases Option.or_eq_some_iff.1 h with h | ⟨-, h⟩
    · obtain ⟨r', hr', rfl⟩ := Option.map_eq_some_iff.1 h
      exact good_upgraded_v2 (good_of_fromBytes hr')
    · obtain ⟨r', hr', rfl⟩ := Option.map_eq_some_iff.1 h
      exact good_upgraded_v1 (good_of_fromBytes hr')

theorem lawful_depositedFiles : depositedFiles.Lawful where
  new_not_old i := (notOld_of_prefixes (g := depositedFiles) (by decide) (by decide) i).1
  old_not_new i := (notOld_of_prefixes (g := depositedFiles) (by decide) (by decide) i).2
  readNew_write b r h := by
    obtain ⟨r', hr', rfl⟩ := Option.map_eq_some_iff.1 h
    have hgood := good_of_fromBytes hr'
    exact fromBytes_write ⟨hgood, hgood.2.2.2.2.1⟩

theorem not_owns_depositedFiles {path : String} (h : sendToFiles.Owns path) :
    ¬ depositedFiles.Owns path := by
  have hapart {pre : String} (hpre : pre = "sendto-" ∨ pre = "sendto2-")
      (hpath : isRecord pre path = true) :
      isRecord "dep-" path = false ∧ isRecord "dep2-" path = false := by
    rcases hpre with rfl | rfl
    · exact ⟨Generations.isRecord_of_isRecord (by decide) (by decide) hpath,
        Generations.isRecord_of_isRecord (by decide) (by decide) hpath⟩
    · exact ⟨Generations.isRecord_of_isRecord (by decide) (by decide) hpath,
        Generations.isRecord_of_isRecord (by decide) (by decide) hpath⟩
  have hnone : isRecord "dep-" path = false ∧ isRecord "dep2-" path = false :=
    h.elim (hapart (.inl rfl)) (hapart (.inr rfl))
  rintro (hold | hnew)
  · exact Bool.false_ne_true (hnone.1.symm.trans hold)
  · exact Bool.false_ne_true (hnone.2.symm.trans hnew)

/-! ### What is loaded -/

theorem lookup_shelf {files : List (String × List UInt8)} (h : (files.map Prod.fst).Nodup)
    (path : String) (b : List UInt8) : (shelf files).lookup path = some b ↔ (path, b) ∈ files := by
  induction files with
  | nil => simp [shelf]
  | cons file files ih =>
      rw [List.map_cons, List.nodup_cons] at h
      have hshelf : shelf (file :: files) = (shelf files).insert file.1 file.2 := rfl
      rw [hshelf, Table.lookup_insert_eq, List.mem_cons]
      split_ifs with hpath
      · subst hpath
        constructor
        · intro hb
          exact .inl (congrArg _ (Option.some.inj hb).symm)
        · rintro (hfile | hmem)
          · rw [← hfile]
          · exact absurd (List.mem_map_of_mem (f := Prod.fst) hmem) h.1
      · rw [ih h.2]
        exact (or_iff_right fun hfile => hpath (congrArg Prod.fst hfile)).symm

section

variable {sends : List HeldSend} {deposits : List HeldDeposit}

theorem nodup_filesOf (hsends : (sends.map HeldSend.path).Nodup)
    (hdeposits : (deposits.map HeldDeposit.path).Nodup) (hgood : ∀ w ∈ sends, w.Good)
    (hgood' : ∀ w ∈ deposits, w.Good) : ((filesOf sends deposits).map Prod.fst).Nodup := by
  rw [filesOf, List.map_append, List.map_map, List.map_map]
  refine List.nodup_append.2 ⟨hsends, hdeposits, fun p hp p' hp' => ?_⟩
  obtain ⟨w, hw, rfl⟩ := List.mem_map.1 hp
  obtain ⟨w', hw', rfl⟩ := List.mem_map.1 hp'
  intro heq
  have howns : sendToFiles.Owns w.path := (HeldSend.written (hgood w hw)).owns
  have howns' : depositedFiles.Owns w'.path := (HeldDeposit.written (hgood' w' hw')).owns
  have hsame : w.path = w'.path := heq
  exact not_owns_depositedFiles howns (hsame ▸ howns')

theorem stored_sends (hnames : ((filesOf sends deposits).map Prod.fst).Nodup)
    (hgood : ∀ w ∈ sends, w.Good) (hgood' : ∀ w ∈ deposits, w.Good) :
    sendToFiles.Stored (shelf (filesOf sends deposits)) sends HeldSend.path HeldSend.bytes
      HeldSend.upgraded where
  lookup_iff p b howns := by
    rw [lookup_shelf hnames, filesOf, List.mem_append, List.mem_map, List.mem_map]
    refine (or_iff_left ?_).trans ?_
    · rintro ⟨w, hw, heq⟩
      obtain ⟨rfl, rfl⟩ := Prod.mk.inj heq
      exact not_owns_depositedFiles howns (HeldDeposit.written (hgood' w hw)).owns
    · simp only [Prod.mk.injEq]
  written w hw := HeldSend.written (hgood w hw)

theorem stored_deposits (hnames : ((filesOf sends deposits).map Prod.fst).Nodup)
    (hgood : ∀ w ∈ sends, w.Good) (hgood' : ∀ w ∈ deposits, w.Good) :
    depositedFiles.Stored (shelf (filesOf sends deposits)) deposits HeldDeposit.path
      HeldDeposit.bytes HeldDeposit.upgraded where
  lookup_iff p b howns := by
    rw [lookup_shelf hnames, filesOf, List.mem_append, List.mem_map, List.mem_map]
    refine (or_iff_right ?_).trans ?_
    · rintro ⟨w, hw, heq⟩
      obtain ⟨rfl, rfl⟩ := Prod.mk.inj heq
      exact not_owns_depositedFiles (HeldSend.written (hgood w hw)).owns howns
    · simp only [Prod.mk.injEq]
  written w hw := HeldDeposit.written (hgood' w hw)

theorem oneEach_of_loseNothing (hnames : ((filesOf sends deposits).map Prod.fst).Nodup)
    (hgood : ∀ w ∈ sends, w.Good) (hgood' : ∀ w ∈ deposits, w.Good)
    (h : LoseNothing sends deposits) : OneEach sends deposits := by
  have hs := stored_sends hnames hgood hgood'
  have hd := stored_deposits hnames hgood hgood'
  have hlawful := lawful_sendToFiles
  have hlawful' := lawful_depositedFiles
  obtain ⟨⟨-, hloaded⟩, -, hloaded'⟩ := h []
  refine ⟨(hs.agree_iff hlawful).1 ?_, (hd.agree_iff hlawful').1 ?_⟩
  · exact (hs.shelved hlawful).agree_of_load hlawful
      fun r hr => (hloaded r).2 ((hs.holds_iff hlawful r).1 hr)
  · exact (hd.shelved hlawful').agree_of_load hlawful'
      fun r hr => (hloaded' r).2 ((hd.holds_iff hlawful' r).1 hr)

/-- The files of the directory have names of their own, and were written from values of their
types. -/
theorem loseNothing_iff (hsends : (sends.map HeldSend.path).Nodup)
    (hdeposits : (deposits.map HeldDeposit.path).Nodup) (hgood : ∀ w ∈ sends, w.Good)
    (hgood' : ∀ w ∈ deposits, w.Good) : LoseNothing sends deposits ↔ OneEach sends deposits := by
  have hnames := nodup_filesOf hsends hdeposits hgood hgood'
  have hs := stored_sends hnames hgood hgood'
  have hd := stored_deposits hnames hgood hgood'
  have hlawful := lawful_sendToFiles
  have hlawful' := lawful_depositedFiles
  constructor
  · exact oneEach_of_loseNothing hnames hgood hgood'
  · rintro ⟨hone, hone'⟩ ps
    obtain ⟨⟨hshelf, hkept⟩, hshelf', hkept'⟩ := (hs.shelved hlawful).passes hlawful hlawful'
      (fun _ => not_owns_depositedFiles) (hd.shelved hlawful') ((hs.agree_iff hlawful).2 hone)
      ((hd.agree_iff hlawful').2 hone') ps
    obtain ⟨-, -, hnodup, hmem⟩ := hshelf.load hlawful hkept.1
    obtain ⟨-, -, hnodup', hmem'⟩ := hshelf'.load hlawful' hkept'.1
    exact ⟨⟨hnodup, fun r => ((hmem r).trans (hkept.2 r)).trans (hs.holds_iff hlawful r)⟩,
      hnodup', fun r => ((hmem' r).trans (hkept'.2 r)).trans (hd.holds_iff hlawful' r)⟩

end

/-- A send that an older version held. -/
def heldBefore (id : ℕ) (name : String) : SendToRecordV2 where
  id := id
  recipient := [1, 2, 3]
  payload := name
  name := name
  archive := false
  paused := true
  reason := ""
  note := ""
  target := none

theorem good_heldBefore {id : ℕ} {name : String} (hid : id < 2 ^ 64)
    (hname : (utf8 name.toList).length < 2 ^ 64) : sendToV2Codec.Good (heldBefore id name) := by
  have hempty : Codec.text.Good "" := by
    change (utf8 "".toList).length < 2 ^ 64
    decide
  have hthree : Codec.blob.Good [1, 2, 3] := by
    change 3 < 2 ^ 64
    decide
  exact ⟨⟨hid, hthree, hname, hname, trivial, trivial, hempty, hempty⟩, good_none _⟩

theorem loseNothing_heldBefore :
    LoseNothing [.v2 (heldBefore 1 "a"), .current (heldBefore 2 "b").upgraded] [] := by
  have hlength : (utf8 "a".toList).length < 2 ^ 64 ∧ (utf8 "b".toList).length < 2 ^ 64 := by decide
  have hempty : (([] : List HeldDeposit).map HeldDeposit.path).Nodup := List.nodup_nil
  refine (loseNothing_iff (by decide) hempty (fun w hw => ?_) fun w hw => ?_).2 ?_
  · rcases List.mem_pair.1 hw with rfl | rfl
    · exact good_heldBefore (by decide) hlength.1
    · exact good_upgraded_v2 (good_heldBefore (by decide) hlength.2)
  · exact absurd hw List.not_mem_nil
  · refine ⟨fun w hw w' hw' hid => ?_, fun w hw => absurd hw List.not_mem_nil⟩
    rcases List.mem_pair.1 hw with rfl | rfl <;> rcases List.mem_pair.1 hw' with rfl | rfl
    · rfl
    · exact absurd hid (by decide)
    · exact absurd hid (by decide)
    · rfl

/-- Two sends that were both the first of their run. -/
theorem not_loseNothing_sameId : ¬ ∀ (sends : List HeldSend) (deposits : List HeldDeposit),
    (sends.map HeldSend.path).Nodup → (deposits.map HeldDeposit.path).Nodup →
      (∀ w ∈ sends, w.Good) → (∀ w ∈ deposits, w.Good) → LoseNothing sends deposits := by
  intro h
  have hlength : (utf8 "a".toList).length < 2 ^ 64 ∧ (utf8 "b".toList).length < 2 ^ 64 := by decide
  have hgood : ∀ w ∈ [HeldSend.v2 (heldBefore 1 "a"), .current (heldBefore 1 "b").upgraded],
      w.Good := by
    intro w hw
    rcases List.mem_pair.1 hw with rfl | rfl
    · exact good_heldBefore (by decide) hlength.1
    · exact good_upgraded_v2 (good_heldBefore (by decide) hlength.2)
  have hnone : ∀ w ∈ ([] : List HeldDeposit), w.Good := fun w hw => absurd hw List.not_mem_nil
  have hlose := h _ [] (by decide) List.nodup_nil hgood hnone
  have hone := (oneEach_of_loseNothing (by decide) hgood hnone hlose).1 _ List.mem_cons_self _
    (List.mem_cons_of_mem _ List.mem_cons_self) rfl
  exact absurd (congrArg (fun r => r.name) hone) (by decide)

end Arvolo.Manager.Shapes
