import Arvolo.Crypto.Chunk

/-!
Identities and sealing toward them, `core/src/crypto.rs`.

An identity has two keys derived from one seed: it signs with one, and messages are
sealed toward the other. Its public id is both. The HPKE operations take the second
half only.
-/

namespace Arvolo.Crypto

/-- Bytes of one half of a public id. -/
def half : ℕ := 32

/-- One half, and an encapsulated key. -/
abbrev Key := { b : Bytes // b.length = half }

/-- The signing half, then the KEM half. -/
structure PublicId where
  ed : Key
  x : Key
  deriving DecidableEq

namespace PublicId

def toBytes (id : PublicId) : Bytes := id.ed.val ++ id.x.val

/-- `valid` is whether 32 bytes are a point of the signing curve, in the subgroup of
prime order. -/
def fromBytes (valid : Key → Bool) (bytes : Bytes) : Option PublicId :=
  if h : bytes.length = 2 * half then
    let ed : Key := ⟨bytes.take half, by rw [List.length_take, h]; decide⟩
    let x : Key := ⟨bytes.drop half, by rw [List.length_drop, h]; decide⟩
    if valid ed then some ⟨ed, x⟩ else none
  else none

theorem length_toBytes (id : PublicId) : id.toBytes.length = 2 * half := by
  rw [toBytes, List.length_append, id.ed.2, id.x.2, Nat.two_mul]

theorem fromBytes_eq_some {valid : Key → Bool} {bytes : Bytes} {id : PublicId} :
    fromBytes valid bytes = some id ↔ valid id.ed = true ∧ id.toBytes = bytes := by
  constructor
  · intro h
    unfold fromBytes at h
    simp only at h
    split_ifs at h with hlen hvalid
    obtain rfl := Option.some.inj h
    exact ⟨hvalid, List.take_append_drop half bytes⟩
  · rintro ⟨hvalid, rfl⟩
    have hed : id.toBytes.take half = id.ed.val := List.take_left' id.ed.2
    have hx : id.toBytes.drop half = id.x.val := List.drop_left' id.ed.2
    unfold fromBytes
    simp only [dif_pos (length_toBytes id), hed, hx, Subtype.coe_eta, hvalid, if_true]

theorem toBytes_inj {a b : PublicId} (h : a.toBytes = b.toBytes) : a = b := by
  have hboth := List.append_inj h (a.ed.2.trans b.ed.2.symm)
  cases a
  cases b
  simp only [PublicId.mk.injEq]
  exact ⟨Subtype.ext hboth.1, Subtype.ext hboth.2⟩

end PublicId

/-- The encapsulated key and the ciphertext. -/
structure Sealed where
  encappedKey : Bytes
  ciphertext : Bytes

/-- Identities, and the HPKE operations under the one `INFO`. A sender that is given
makes the mode authenticated. -/
structure Hpke (Identity Rand : Type) where
  /-- `Identity::public` -/
  public_ : Identity → PublicId
  valid : Key → Bool
  /-- The sender, the recipient's key, the message and the associated data. -/
  singleShotSeal : Rand → Option Identity → Key → Bytes → Bytes → Option (Key × Bytes)
  /-- The sender's key, the recipient, the encapsulated key, the ciphertext and the
  associated data. -/
  singleShotOpen : Option Key → Identity → Key → Bytes → Bytes → Option Bytes

namespace Hpke

variable {Identity Rand : Type} (h : Hpke Identity Rand)

/-- `EncappedKey::from_bytes` -/
def encapped (bytes : Bytes) : Option Key :=
  if hlen : bytes.length = half then some ⟨bytes, hlen⟩ else none

def seal_ (ρ : Rand) (plaintext : Bytes) (recipient : PublicId) (sender : Identity) (aad : Bytes) :
    Option Sealed :=
  (h.singleShotSeal ρ (some sender) recipient.x plaintext aad).map fun c => ⟨c.1.val, c.2⟩

def open_ (s : Sealed) (recipient : Identity) (sender : PublicId) (aad : Bytes) : Option Bytes :=
  (encapped s.encappedKey).bind fun k =>
    h.singleShotOpen (some sender.x) recipient k s.ciphertext aad

def sealAnon (ρ : Rand) (plaintext : Bytes) (recipient : PublicId) (aad : Bytes) : Option Sealed :=
  (h.singleShotSeal ρ none recipient.x plaintext aad).map fun c => ⟨c.1.val, c.2⟩

def openAnon (s : Sealed) (recipient : Identity) (aad : Bytes) : Option Bytes :=
  (encapped s.encappedKey).bind fun k => h.singleShotOpen none recipient k s.ciphertext aad

/-- What is relied on: identities are told apart by their KEM keys and their signing
keys are good points, what is sealed opens for the recipient, what opens was sealed toward
the recipient by the holder of the key it is opened with, and a ciphertext is of one
sender and one recipient, a tag longer than its message and within the limit of the mode. -/
structure Ideal : Prop where
  valid_public : ∀ a, h.valid (h.public_ a).ed = true
  x_inj : ∀ {a b}, (h.public_ a).x = (h.public_ b).x → a = b
  open_seal : ∀ {ρ sender r p aad c},
    h.singleShotSeal ρ sender (h.public_ r).x p aad = some c →
      h.singleShotOpen (sender.map fun a => (h.public_ a).x) r c.1 c.2 aad = some p
  sealed_of_open : ∀ {key r k ct aad p}, h.singleShotOpen key r k ct aad = some p →
    ∃ ρ sender, key = sender.map (fun a => (h.public_ a).x) ∧
      h.singleShotSeal ρ sender (h.public_ r).x p aad = some (k, ct)
  one : ∀ {ρ ρ' sender sender' x x' p p' aad aad' c},
    h.singleShotSeal ρ sender x p aad = some c →
      h.singleShotSeal ρ' sender' x' p' aad' = some c → sender = sender' ∧ x = x'
  length_seal : ∀ {ρ sender x p aad c}, h.singleShotSeal ρ sender x p aad = some c →
    c.2.length = p.length + tag ∧ p.length ≤ 2 ^ 36
  seals : ∀ ρ sender r p aad, p.length ≤ 2 ^ 36 →
    (h.singleShotSeal ρ sender (h.public_ r).x p aad).isSome = true

end Hpke

/-! ### A stand-in -/

/-- A key that spells out whose it is. -/
def standKey (a : UInt8) : Key := ⟨List.replicate half a, List.length_replicate⟩

theorem standKey_inj {a b : UInt8} (hkey : standKey a = standKey b) : a = b :=
  congrArg (fun k : Key => k.val.headD 0) hkey

/-- A tag that spells out the sender and the beginning of the associated data. -/
def standTag (sender : Option UInt8) (aad : Bytes) : Bytes :=
  (match sender with
    | none => [0, 0]
    | some a => [1, a]) ++ (aad ++ List.replicate 14 0).take 14

theorem length_standTag (sender : Option UInt8) (aad : Bytes) :
    (standTag sender aad).length = tag := by
  cases sender <;> simp [standTag, tag]

/-- A stand-in: the encapsulated key is the recipient's, and the ciphertext is the message
and a tag. -/
def standIn : Hpke UInt8 Unit where
  public_ a := ⟨standKey a, standKey a⟩
  valid k := decide (∃ a : UInt8, k = standKey a)
  singleShotSeal _ sender x p aad :=
    if p.length ≤ 2 ^ 36 then some (x, p ++ standTag sender aad) else none
  singleShotOpen key r k ct aad :=
    let sender := key.map fun x => x.val.headD 0
    let p := ct.take (ct.length - tag)
    if key = sender.map standKey ∧ k = standKey r ∧ ct = p ++ standTag sender aad ∧
        p.length ≤ 2 ^ 36 then some p
    else none

theorem standIn_ideal : standIn.Ideal where
  valid_public a := decide_eq_true ⟨a, rfl⟩
  x_inj := standKey_inj
  open_seal {ρ sender r p aad c} hseal := by
    simp only [standIn] at hseal
    split_ifs at hseal with hlen
    obtain rfl := Option.some.inj hseal
    have hsender : (sender.map fun a => (standIn.public_ a).x).map
        (fun x : Key => x.val.headD 0) = sender := by
      cases sender <;> rfl
    have hp : (p ++ standTag sender aad).take ((p ++ standTag sender aad).length - tag) = p := by
      rw [List.length_append, length_standTag, Nat.add_sub_cancel, List.take_left]
    simp only [standIn] at hsender ⊢
    rw [hsender, hp, if_pos ⟨rfl, trivial, rfl, hlen⟩]
  sealed_of_open {key r k ct aad p} hopen := by
    simp only [standIn] at hopen
    split_ifs at hopen with hall
    obtain ⟨hkey, rfl, hct, hlen⟩ := hall
    obtain rfl := Option.some.inj hopen
    refine ⟨(), key.map fun x : Key => x.val.headD 0, hkey, ?_⟩
    simp only [standIn]
    rw [if_pos hlen, ← hct]
  one {ρ ρ' sender sender' x x' p p' aad aad' c} hseal hseal' := by
    simp only [standIn] at hseal hseal'
    split_ifs at hseal hseal'
    obtain rfl := Option.some.inj hseal
    obtain ⟨rfl, heq⟩ := Prod.mk.inj (Option.some.inj hseal')
    have htag := (List.append_inj' heq (by rw [length_standTag, length_standTag])).2
    refine ⟨?_, rfl⟩
    cases sender <;> cases sender' <;> simp_all [standTag]
  length_seal {ρ sender x p aad c} hseal := by
    simp only [standIn] at hseal
    split_ifs at hseal with hlen
    obtain rfl := Option.some.inj hseal
    rw [List.length_append, length_standTag]
    exact ⟨rfl, hlen⟩
  seals ρ sender r p aad hlen := by
    simp only [standIn]
    rw [if_pos hlen, Option.isSome_some]

end Arvolo.Crypto
