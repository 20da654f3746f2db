import Arvolo.Crypto.Hpke
import Arvolo.Sync.Sidecar

/-!
Offers in an inbox, `encode_offer_blob` and `decode_offer` of `core/src/presence.rs`.

An offer is sealed to the recipient by the sender, put in an envelope with the sender's
id, and the envelope is sealed again, by nobody. Older clients put the envelope on the
relay as it is, and wrote an offer without its last field. The encoding says none of
this: the reader tries the shapes, newest first.
-/

namespace Arvolo.Presence

open Crypto Lib
open Sync (DeviceId fromBytes fromBytes_write fromBytes_eq_none)

/-! ### Shapes -/

structure Offer where
  name : String
  size : ℕ
  chunks : ℕ
  ticket : String
  note : String
  senderName : String
  origin : Option DeviceId
  target : Option DeviceId
  relay : String

structure OfferV1 where
  name : String
  size : ℕ
  chunks : ℕ
  ticket : String
  note : String
  senderName : String
  origin : Option DeviceId
  target : Option DeviceId

def OfferV1.into (o : OfferV1) : Offer where
  name := o.name
  size := o.size
  chunks := o.chunks
  ticket := o.ticket
  note := o.note
  senderName := o.senderName
  origin := o.origin
  target := o.target
  relay := ""

structure Envelope where
  sender : Bytes
  encappedKey : Bytes
  ciphertext : Bytes

structure SealedEnvelope where
  encappedKey : Bytes
  ciphertext : Bytes

def deviceIdCodec : Codec DeviceId := Codec.bytes 16

def offerV1Codec : Codec OfferV1 :=
  (Codec.text.pair (Codec.u64.pair (Codec.u64.pair (Codec.text.pair (Codec.text.pair
    (Codec.text.pair (deviceIdCodec.option.pair deviceIdCodec.option))))))).xmap
    (fun p => ⟨p.1, p.2.1, p.2.2.1, p.2.2.2.1, p.2.2.2.2.1, p.2.2.2.2.2.1, p.2.2.2.2.2.2.1,
      p.2.2.2.2.2.2.2⟩)
    (fun o => (o.name, o.size, o.chunks, o.ticket, o.note, o.senderName, o.origin, o.target))
    (fun _ => rfl) fun _ => rfl

/-- The older fields, and one more. -/
def offerCodec : Codec Offer :=
  (offerV1Codec.pair Codec.text).xmap
    (fun p => { p.1.into with relay := p.2 })
    (fun o => (⟨o.name, o.size, o.chunks, o.ticket, o.note, o.senderName, o.origin, o.target⟩,
      o.relay))
    (fun _ => rfl) fun _ => rfl

def sealedEnvelopeCodec : Codec SealedEnvelope :=
  (Codec.blob.pair Codec.blob).xmap (fun p => ⟨p.1, p.2⟩) (fun w => (w.encappedKey, w.ciphertext))
    (fun _ => rfl) fun _ => rfl

/-- The two fields of a sealed envelope are where the first two of this one are. -/
def envelopeCodec : Codec Envelope :=
  (sealedEnvelopeCodec.pair Codec.blob).xmap
    (fun p => ⟨p.1.encappedKey, p.1.ciphertext, p.2⟩)
    (fun e => (⟨e.sender, e.encappedKey⟩, e.ciphertext))
    (fun _ => rfl) fun _ => rfl

/-! ### Sync notes -/

inductive SyncNote
  | snapshot (blob : Bytes)
  | snapshotRef (claim relay : String)

def syncNoteCodec : Codec SyncNote :=
  (Codec.blob.sum (Codec.text.pair Codec.text)).xmap
    (fun
      | .inl blob => .snapshot blob
      | .inr p => .snapshotRef p.1 p.2)
    (fun
      | .snapshot blob => .inl blob
      | .snapshotRef claim relay => .inr (claim, relay))
    (fun n => by cases n <;> rfl) fun n => by cases n <;> rfl

/-- `ASN1` -/
def syncNoteMagic : Bytes := [65, 83, 78, 49]

def encodeSyncNote (note : SyncNote) : Bytes := syncNoteMagic ++ syncNoteCodec.write note

def decodeSyncNote (blob : Bytes) : Option SyncNote :=
  if syncNoteMagic.isPrefixOf blob then fromBytes syncNoteCodec (blob.drop syncNoteMagic.length)
  else none

/-! ### Blobs -/

def offerAad : Bytes := utf8 "arvolo/offer/v1".toList

def envelopeAad : Bytes := utf8 "arvolo/offer/env/v1".toList

section

variable {Identity Rand : Type} (h : Hpke Identity Rand)

/-- `ρ` is what the two seals draw. -/
def encodeOfferBlob (ρ : Rand × Rand) (offer : Offer) (recipient : PublicId) (me : Identity) :
    Option Bytes := do
  let s ← h.seal_ ρ.1 (offerCodec.write offer) recipient me offerAad
  let env : Envelope := ⟨(h.public_ me).toBytes, s.encappedKey, s.ciphertext⟩
  let outer ← h.sealAnon ρ.2 (envelopeCodec.write env) recipient envelopeAad
  return sealedEnvelopeCodec.write ⟨outer.encappedKey, outer.ciphertext⟩

/-- The envelope under the outer seal. -/
def unwrap (blob : Bytes) (me : Identity) : Option Envelope := do
  let wire ← fromBytes sealedEnvelopeCodec blob
  let env ← h.openAnon ⟨wire.encappedKey, wire.ciphertext⟩ me envelopeAad
  fromBytes envelopeCodec env

/-- The newest shape first. -/
def readOffer (plaintext : Bytes) : Option Offer :=
  match fromBytes offerCodec plaintext with
  | some offer => some offer
  | none => (fromBytes offerV1Codec plaintext).map OfferV1.into

def openEnvelope (env : Envelope) (me : Identity) : Option (PublicId × Offer) := do
  let sender ← PublicId.fromBytes h.valid env.sender
  let plaintext ← h.open_ ⟨env.encappedKey, env.ciphertext⟩ me sender offerAad
  let offer ← readOffer plaintext
  return (sender, offer)

def decodeOffer (blob : Bytes) (me : Identity) : Option (PublicId × Offer) :=
  match unwrap h blob me with
  | some env => openEnvelope h env me
  | none => (fromBytes envelopeCodec blob).bind fun env => openEnvelope h env me

end

/-! ### Telling the shapes apart -/

theorem readOffer_write {o : Offer} (ho : offerCodec.Good o) :
    readOffer (offerCodec.write o) = some o := by
  rw [readOffer, fromBytes_write ho]

/-- An offer of the older shape runs out before the last field. -/
theorem readOffer_write_v1 {o : OfferV1} (ho : offerV1Codec.Good o) :
    readOffer (offerV1Codec.write o) = some o.into := by
  have hnone : offerCodec.read (offerV1Codec.write o) = none :=
    Option.map_eq_none_iff.2 (Codec.read_pair_write ho Codec.read_text_nil)
  rw [readOffer, fromBytes_eq_none.2 hnone, fromBytes_write ho, Option.map_some]

/-- A bare envelope is read as a sealed one too, shifted by a field. -/
theorem fromBytes_sealedEnvelope {blob : Bytes} {env : Envelope}
    (henv : fromBytes envelopeCodec blob = some env) :
    fromBytes sealedEnvelopeCodec blob = some ⟨env.sender, env.encappedKey⟩ := by
  obtain ⟨⟨e, rest⟩, hread, rfl⟩ := Option.map_eq_some_iff.1 henv
  obtain ⟨⟨p, rest'⟩, hpair, heq⟩ := Option.map_eq_some_iff.1 hread
  obtain ⟨rfl, rfl⟩ := Prod.mk.inj heq
  obtain ⟨⟨w, s⟩, hw, hbind⟩ := Option.bind_eq_some_iff.1 hpair
  obtain ⟨⟨ct, s'⟩, -, hp⟩ := Option.map_eq_some_iff.1 hbind
  obtain ⟨rfl, rfl⟩ := Prod.mk.inj hp
  rw [fromBytes, hw, Option.map_some]

/-- The first byte of a sealed envelope is the length of its first field. -/
theorem length_encappedKey {b : UInt8} {s : Bytes} {w : SealedEnvelope} (hb : b.toNat < 128)
    (hw : fromBytes sealedEnvelopeCodec (b :: s) = some w) : w.encappedKey.length = b.toNat := by
  obtain ⟨⟨w, rest⟩, hread, rfl⟩ := Option.map_eq_some_iff.1 hw
  obtain ⟨⟨p, rest'⟩, hpair, heq⟩ := Option.map_eq_some_iff.1 hread
  obtain ⟨rfl, rfl⟩ := Prod.mk.inj heq
  obtain ⟨⟨k, s₁⟩, hk, hbind⟩ := Option.bind_eq_some_iff.1 hpair
  obtain ⟨⟨ct, s₂⟩, -, hp⟩ := Option.map_eq_some_iff.1 hbind
  obtain ⟨rfl, rfl⟩ := Prod.mk.inj hp
  obtain ⟨⟨n, s₃⟩, hn, htake⟩ := Option.bind_eq_some_iff.1 hk
  have hvarint : Codec.u64.read (b :: s) = some (b.toNat, s) := by
    change Codec.readVarint 10 (b :: s) = _
    rw [Codec.readVarint, if_pos hb, if_neg (by omega)]
  obtain ⟨rfl, rfl⟩ := Prod.mk.inj (Option.some.inj (hvarint.symm.trans hn))
  exact (take?_eq_some.1 htake).2

section

variable {Identity Rand : Type} {h : Hpke Identity Rand}

theorem openEnvelope_eq_none {env : Envelope} {me : Identity}
    (hlen : env.sender.length ≠ 2 * half) : openEnvelope h env me = none := by
  have hnone : PublicId.fromBytes h.valid env.sender = none := by
    rw [PublicId.fromBytes, dif_neg hlen]
  rw [openEnvelope, hnone]
  rfl

theorem openAnon_eq_none {s : Sealed} {me : Identity} {aad : Bytes}
    (hlen : s.encappedKey.length ≠ half) : h.openAnon s me aad = none := by
  rw [Hpke.openAnon, Hpke.encapped, dif_neg hlen, Option.bind_none]

/-- A blob whose first field has the length of neither an encapsulated key nor a public
id is no offer. -/
theorem decodeOffer_eq_none {b : UInt8} {s : Bytes} (me : Identity) (hb : b.toNat < 128)
    (hkey : b.toNat ≠ half) (hid : b.toNat ≠ 2 * half) : decodeOffer h (b :: s) me = none := by
  have hunwrap : unwrap h (b :: s) me = none := by
    rw [unwrap]
    cases hw : fromBytes sealedEnvelopeCodec (b :: s) with
    | none => rfl
    | some w =>
        rw [Option.bind_eq_bind, Option.bind_some,
          openAnon_eq_none (by rw [length_encappedKey hb hw]; exact hkey)]
        rfl
  rw [decodeOffer, hunwrap]
  refine Option.bind_eq_none_iff.2 fun env henv => openEnvelope_eq_none ?_
  rw [length_encappedKey hb (fromBytes_sealedEnvelope henv)]
  exact hid

/-- The mark of a sync note is not the length of anything. -/
theorem decodeOffer_encodeSyncNote (note : SyncNote) (me : Identity) :
    decodeOffer h (encodeSyncNote note) me = none :=
  decodeOffer_eq_none me (by decide) (by decide) (by decide)

end

theorem decodeSyncNote_encodeSyncNote {note : SyncNote} (hnote : syncNoteCodec.Good note) :
    decodeSyncNote (encodeSyncNote note) = some note := by
  have hpre : syncNoteMagic.isPrefixOf (encodeSyncNote note) = true :=
    List.isPrefixOf_iff_prefix.2 (List.prefix_append _ _)
  rw [decodeSyncNote, if_pos hpre, encodeSyncNote, List.drop_left, fromBytes_write hnote]

theorem decodeSyncNote_eq_none {b : UInt8} {s : Bytes} (hb : b ≠ 65) :
    decodeSyncNote (b :: s) = none := by
  have hpre : ¬ syncNoteMagic.isPrefixOf (b :: s) = true := by
    rw [List.isPrefixOf_iff_prefix]
    exact fun hprefix => hb (List.cons_prefix_cons.1 hprefix).1.symm
  rw [decodeSyncNote, if_neg hpre]

/-! ### What is on a relay -/

/-- Whether the envelope is sealed or lies bare. -/
inductive Wire
  | sealed
  | clear

inductive Shape
  | current (offer : Offer)
  | v1 (offer : OfferV1)

namespace Shape

def bytes : Shape → Bytes
  | current o => offerCodec.write o
  | v1 o => offerV1Codec.write o

def offer : Shape → Offer
  | current o => o
  | v1 o => o.into

/-- What texts and numbers in memory can be. -/
def Good : Shape → Prop
  | current o => offerCodec.Good o
  | v1 o => offerV1Codec.Good o

theorem readOffer_bytes {s : Shape} (hs : s.Good) : readOffer s.bytes = some s.offer := by
  cases s with
  | current o => exact readOffer_write hs
  | v1 o => exact readOffer_write_v1 hs

end Shape

/-- An offer on its way: what one client has sealed to another, and the id it has put
in the envelope. -/
structure Post (Identity : Type) where
  wire : Wire
  shape : Shape
  sender : Identity
  named : PublicId
  recipient : Identity

section

variable {Identity Rand : Type} (h : Hpke Identity Rand)

def Post.blob (ρ : Rand × Rand) (p : Post Identity) : Option Bytes := do
  let s ← h.seal_ ρ.1 p.shape.bytes (h.public_ p.recipient) p.sender offerAad
  let env : Envelope := ⟨p.named.toBytes, s.encappedKey, s.ciphertext⟩
  match p.wire with
  | .clear => return envelopeCodec.write env
  | .sealed => do
      let outer ← h.sealAnon ρ.2 (envelopeCodec.write env) (h.public_ p.recipient) envelopeAad
      return sealedEnvelopeCodec.write ⟨outer.encappedKey, outer.ciphertext⟩

/-- The sealed offer and its envelope. -/
structure Post.Sealing (p : Post Identity) (env : Envelope) : Prop where
  sender : env.sender = p.named.toBytes
  seals : ∃ ρ k ct, env.encappedKey = k.val ∧ env.ciphertext = ct ∧
    h.singleShotSeal ρ (some p.sender) (h.public_ p.recipient).x p.shape.bytes offerAad =
      some (k, ct)

variable {h}

theorem Post.Sealing.good {p : Post Identity} {env : Envelope} (henv : p.Sealing h env)
    (hideal : h.Ideal) : envelopeCodec.Good env := by
  obtain ⟨ρ, k, ct, hk, rfl, hseal⟩ := henv.seals
  obtain ⟨hlen, hlimit⟩ := hideal.length_seal hseal
  have hsender : env.sender.length = 2 * half := by
    rw [henv.sender, PublicId.length_toBytes]
  have hkey : env.encappedKey.length = half := by rw [hk, k.2]
  have hct : env.ciphertext.length < 2 ^ 64 := by
    simp only [tag] at hlen
    omega
  refine ⟨⟨?_, ?_⟩, hct⟩
  · change env.sender.length < 2 ^ 64
    rw [hsender]
    decide
  · change env.encappedKey.length < 2 ^ 64
    rw [hkey]
    decide

/-- The seal opens for the recipient, under any id with the sender's KEM key. -/
theorem Post.Sealing.open_ {p : Post Identity} {env : Envelope} (henv : p.Sealing h env)
    (hideal : h.Ideal) (me : Identity) :
    (p.recipient = me ∧ p.named.x = (h.public_ p.sender).x →
      h.open_ ⟨env.encappedKey, env.ciphertext⟩ me p.named offerAad = some p.shape.bytes) ∧
    (¬ (p.recipient = me ∧ p.named.x = (h.public_ p.sender).x) →
      h.open_ ⟨env.encappedKey, env.ciphertext⟩ me p.named offerAad = none) := by
  obtain ⟨ρ, k, ct, hk, rfl, hseal⟩ := henv.seals
  have hkey : Hpke.encapped env.encappedKey = some k := by
    rw [Hpke.encapped, dif_pos (by rw [hk, k.2])]
    exact congrArg some (Subtype.ext hk)
  rw [Hpke.open_, hkey, Option.bind_some]
  constructor
  · rintro ⟨rfl, hx⟩
    rw [hx]
    exact hideal.open_seal hseal
  · intro hother
    refine Option.eq_none_iff_forall_ne_some.2 fun plain hopen => hother ?_
    -- whoever sealed it did so toward the reader, with the key of the id
    obtain ⟨ρ', sender, hsender, hseal'⟩ := hideal.sealed_of_open hopen
    obtain ⟨rfl, hx⟩ := hideal.one hseal hseal'
    exact ⟨hideal.x_inj hx, Option.some.inj hsender⟩

variable [DecidableEq Identity]

theorem Post.Sealing.openEnvelope {p : Post Identity} {env : Envelope} (henv : p.Sealing h env)
    (hideal : h.Ideal) (hshape : p.shape.Good) (me : Identity) :
    openEnvelope h env me =
      if p.recipient = me ∧ p.named.x = (h.public_ p.sender).x ∧ h.valid p.named.ed = true then
        some (p.named, p.shape.offer)
      else none := by
  obtain ⟨hopens, hfails⟩ := henv.open_ hideal me
  rw [Presence.openEnvelope, henv.sender]
  by_cases hvalid : h.valid p.named.ed = true
  · rw [PublicId.fromBytes_eq_some.2 ⟨hvalid, rfl⟩, Option.bind_eq_bind, Option.bind_some]
    by_cases hmine : p.recipient = me ∧ p.named.x = (h.public_ p.sender).x
    · rw [hopens hmine, if_pos ⟨hmine.1, hmine.2, hvalid⟩, Option.bind_eq_bind, Option.bind_some,
        Shape.readOffer_bytes hshape]
      rfl
    · rw [hfails hmine, if_neg fun hall => hmine ⟨hall.1, hall.2.1⟩]
      rfl
  · have hnone : PublicId.fromBytes h.valid p.named.toBytes = none := by
      refine Option.eq_none_iff_forall_ne_some.2 fun id hid => hvalid ?_
      obtain ⟨hgood, heq⟩ := PublicId.fromBytes_eq_some.1 hid
      exact PublicId.toBytes_inj heq ▸ hgood
    rw [hnone, if_neg fun hall => hvalid hall.2.2]
    rfl

omit [DecidableEq Identity] in
/-- How a post begins, and what is in it. -/
theorem Post.blob_eq_some {ρ : Rand × Rand} {p : Post Identity} {blob : Bytes}
    (hblob : p.blob h ρ = some blob) :
    ∃ env, p.Sealing h env ∧
      match p.wire with
      | .clear => blob = envelopeCodec.write env
      | .sealed => ∃ k ct, blob = sealedEnvelopeCodec.write ⟨k.val, ct⟩ ∧
          h.singleShotSeal ρ.2 none (h.public_ p.recipient).x (envelopeCodec.write env)
            envelopeAad = some (k, ct) := by
  rw [Post.blob] at hblob
  obtain ⟨s, hs, hrest⟩ := Option.bind_eq_some_iff.1 hblob
  obtain ⟨⟨k, ct⟩, hseal, rfl⟩ := Option.map_eq_some_iff.1 hs
  refine ⟨⟨p.named.toBytes, k.val, ct⟩, ⟨rfl, ρ.1, k, ct, rfl, rfl, hseal⟩, ?_⟩
  cases hw : p.wire with
  | clear =>
      rw [hw] at hrest
      exact (Option.some.inj hrest).symm
  | sealed =>
      rw [hw] at hrest
      obtain ⟨outer, houter, heq⟩ := Option.bind_eq_some_iff.1 hrest
      obtain ⟨⟨k', ct'⟩, hseal', rfl⟩ := Option.map_eq_some_iff.1 houter
      exact ⟨k', ct', (Option.some.inj heq).symm, hseal'⟩

/-- Whatever a post says of its sender, it opens for the recipient as long as the KEM
keys agree. -/
theorem decodeOffer_post (hideal : h.Ideal) {ρ : Rand × Rand} {p : Post Identity}
    (hshape : p.shape.Good) {blob : Bytes} (hblob : p.blob h ρ = some blob) (me : Identity) :
    decodeOffer h blob me =
      if p.recipient = me ∧ p.named.x = (h.public_ p.sender).x ∧ h.valid p.named.ed = true then
        some (p.named, p.shape.offer)
      else none := by
  obtain ⟨env, henv, hform⟩ := Post.blob_eq_some hblob
  have hread := fromBytes_write (henv.good hideal)
  cases hw : p.wire with
  | clear =>
      simp only [hw] at hform
      subst hform
      have hunwrap : unwrap h (envelopeCodec.write env) me = none := by
        have hlen : env.sender.length ≠ half := by
          rw [henv.sender, PublicId.length_toBytes]
          decide
        rw [unwrap, fromBytes_sealedEnvelope hread, Option.bind_eq_bind, Option.bind_some,
          openAnon_eq_none hlen]
        rfl
      rw [decodeOffer, hunwrap, hread]
      exact henv.openEnvelope hideal hshape me
  | sealed =>
      simp only [hw] at hform
      obtain ⟨k, ct, rfl, hseal⟩ := hform
      have hgood : sealedEnvelopeCodec.Good ⟨k.val, ct⟩ := by
        obtain ⟨hlen, hlimit⟩ := hideal.length_seal hseal
        refine ⟨?_, ?_⟩
        · change k.val.length < 2 ^ 64
          rw [k.2]
          decide
        · change ct.length < 2 ^ 64
          simp only [tag] at hlen
          omega
      have hkey : Hpke.encapped k.val = some k := by
        rw [Hpke.encapped, dif_pos k.2]
      by_cases hmine : p.recipient = me
      · have hopen : h.openAnon ⟨k.val, ct⟩ me envelopeAad = some (envelopeCodec.write env) := by
          rw [Hpke.openAnon, hkey, Option.bind_some, ← hmine]
          exact hideal.open_seal hseal
        have hunwrap : unwrap h (sealedEnvelopeCodec.write ⟨k.val, ct⟩) me = some env := by
          rw [unwrap, fromBytes_write hgood, Option.bind_eq_bind, Option.bind_some, hopen,
            Option.bind_eq_bind, Option.bind_some, hread]
        rw [decodeOffer, hunwrap]
        exact henv.openEnvelope hideal hshape me
      · have hopen : h.openAnon ⟨k.val, ct⟩ me envelopeAad = none := by
          rw [Hpke.openAnon, hkey, Option.bind_some]
          refine Option.eq_none_iff_forall_ne_some.2 fun plain hplain => hmine ?_
          obtain ⟨ρ', sender, -, hseal'⟩ := hideal.sealed_of_open hplain
          exact hideal.x_inj (hideal.one hseal hseal').2
        have hunwrap : unwrap h (sealedEnvelopeCodec.write ⟨k.val, ct⟩) me = none := by
          rw [unwrap, fromBytes_write hgood, Option.bind_eq_bind, Option.bind_some, hopen]
          rfl
        rw [decodeOffer, hunwrap, if_neg fun hall => hmine hall.1]
        -- a sealed envelope may be read as a bare one, but for the length of the sender
        refine Option.bind_eq_none_iff.2 fun env' henv' => openEnvelope_eq_none ?_
        have hshift := fromBytes_sealedEnvelope henv'
        rw [fromBytes_write hgood, Option.some.injEq, SealedEnvelope.mk.injEq] at hshift
        rw [← hshift.1, k.2]
        decide

omit [DecidableEq Identity] in
/-- The first byte of a post is the length of a key or of an id. -/
theorem Post.exists_cons {ρ : Rand × Rand} {p : Post Identity} {blob : Bytes}
    (hblob : p.blob h ρ = some blob) : ∃ s, blob = 32 :: s ∨ blob = 64 :: s := by
  obtain ⟨env, henv, hform⟩ := Post.blob_eq_some hblob
  cases hw : p.wire with
  | clear =>
      simp only [hw] at hform
      subst hform
      have hlen : Codec.u64.write env.sender.length = [64] := by
        rw [henv.sender, PublicId.length_toBytes]
        rfl
      refine ⟨env.sender ++ Codec.blob.write env.encappedKey ++ Codec.blob.write env.ciphertext,
        .inr ?_⟩
      change ((Codec.u64.write env.sender.length ++ env.sender) ++ Codec.blob.write env.encappedKey)
        ++ Codec.blob.write env.ciphertext = _
      rw [hlen]
      rfl
  | sealed =>
      simp only [hw] at hform
      obtain ⟨k, ct, rfl, -⟩ := hform
      have hlen : Codec.u64.write k.val.length = [32] := by
        rw [k.2]
        rfl
      refine ⟨k.val ++ Codec.blob.write ct, .inl ?_⟩
      change (Codec.u64.write k.val.length ++ k.val) ++ Codec.blob.write ct = _
      rw [hlen]
      rfl

omit [DecidableEq Identity] in
theorem decodeSyncNote_post {ρ : Rand × Rand} {p : Post Identity} {blob : Bytes}
    (hblob : p.blob h ρ = some blob) : decodeSyncNote blob = none := by
  obtain ⟨s, rfl | rfl⟩ := Post.exists_cons hblob
  · exact decodeSyncNote_eq_none (by decide)
  · exact decodeSyncNote_eq_none (by decide)

omit [DecidableEq Identity] in
/-- An offer that is not of many gigabytes can be posted. -/
theorem Post.isSome_blob (hideal : h.Ideal) (ρ : Rand × Rand) {p : Post Identity}
    (hlen : p.shape.bytes.length ≤ 2 ^ 35) : (p.blob h ρ).isSome = true := by
  obtain ⟨⟨k, ct⟩, hseal⟩ := Option.isSome_iff_exists.1
    (hideal.seals ρ.1 (some p.sender) p.recipient p.shape.bytes offerAad (by omega))
  obtain ⟨hct, -⟩ := hideal.length_seal hseal
  have hbytes : (envelopeCodec.write ⟨p.named.toBytes, k.val, ct⟩).length ≤ 2 ^ 36 := by
    have hsender := Codec.length_write_blob_le p.named.toBytes
    have hkey := Codec.length_write_blob_le k.val
    have hcipher := Codec.length_write_blob_le ct
    rw [PublicId.length_toBytes] at hsender
    rw [k.2] at hkey
    change ((Codec.blob.write p.named.toBytes ++ Codec.blob.write k.val) ++
      Codec.blob.write ct).length ≤ 2 ^ 36
    rw [List.length_append, List.length_append]
    simp only [half, tag] at hsender hkey hct
    omega
  obtain ⟨⟨k', ct'⟩, hseal'⟩ := Option.isSome_iff_exists.1
    (hideal.seals ρ.2 none p.recipient _ envelopeAad hbytes)
  rw [Post.blob, Hpke.seal_, hseal]
  cases hw : p.wire with
  | clear => rfl
  | sealed =>
      simp only [Option.map_some, Option.bind_eq_bind, Option.bind_some, Hpke.sealAnon, hseal']
      rfl

omit [DecidableEq Identity] in
theorem encodeOfferBlob_eq (ρ : Rand × Rand) (offer : Offer) (recipient me : Identity) :
    encodeOfferBlob h ρ offer (h.public_ recipient) me =
      Post.blob h ρ ⟨.sealed, .current offer, me, h.public_ me, recipient⟩ := rfl

omit [DecidableEq Identity] in
/-- Whatever is taken for an offer was sealed to the reader by the holder of the KEM key
it is attributed to. -/
theorem decodeOffer_sound (hideal : h.Ideal) {blob : Bytes} {me : Identity} {sender : PublicId}
    {offer : Offer} (hdecode : decodeOffer h blob me = some (sender, offer)) :
    ∃ ρ a plain c, (h.public_ a).x = sender.x ∧ readOffer plain = some offer ∧
      h.singleShotSeal ρ (some a) (h.public_ me).x plain offerAad = some c := by
  have hopen : ∃ env, openEnvelope h env me = some (sender, offer) := by
    rw [decodeOffer] at hdecode
    split at hdecode
    · exact ⟨_, hdecode⟩
    · obtain ⟨env, -, henv⟩ := Option.bind_eq_some_iff.1 hdecode
      exact ⟨env, henv⟩
  obtain ⟨env, henv⟩ := hopen
  rw [Presence.openEnvelope] at henv
  obtain ⟨id, -, hrest⟩ := Option.bind_eq_some_iff.1 henv
  obtain ⟨plain, hplain, hrest⟩ := Option.bind_eq_some_iff.1 hrest
  obtain ⟨o, ho, heq⟩ := Option.bind_eq_some_iff.1 hrest
  obtain ⟨rfl, rfl⟩ := Prod.mk.inj (Option.some.inj heq)
  obtain ⟨k, -, hk⟩ := Option.bind_eq_some_iff.1 hplain
  obtain ⟨ρ, a, ha, hseal⟩ := hideal.sealed_of_open hk
  cases a with
  | none => cases ha
  | some a => exact ⟨ρ, a, plain, _, (Option.some.inj ha).symm, ho, hseal⟩

/-- The envelope names another signing key next to the sender's KEM key. -/
def Post.Joined (h : Hpke Identity Rand) (p : Post Identity) : Prop :=
  p.named ≠ h.public_ p.sender ∧ p.named.x = (h.public_ p.sender).x ∧
    h.valid p.named.ed = true

/-- A post is an offer to its recipient under its sender's id, and nothing else to
anybody. -/
def Decodes (h : Hpke Identity Rand) (p : Post Identity) (blob : Bytes) (me : Identity) : Prop :=
  decodeSyncNote blob = none ∧
    decodeOffer h blob me =
      if p.recipient = me ∧ p.named = h.public_ p.sender then
        some (h.public_ p.sender, p.shape.offer)
      else none

/-- Offers come out as they were sent, and neither for anybody else nor as sync notes,
except under an id that is not of one identity: the signing half is taken on trust. -/
theorem decodes_iff (hideal : h.Ideal) :
    (∀ (ρ : Rand × Rand) (p : Post Identity) (blob : Bytes) (me : Identity), p.shape.Good →
      p.blob h ρ = some blob → (Decodes h p blob me ↔ ¬ (p.recipient = me ∧ p.Joined h))) ∧
    (∀ (ρ : Rand × Rand) (offer : Offer) (recipient me : Identity), offerCodec.Good offer →
      (∀ blob, encodeOfferBlob h ρ offer (h.public_ recipient) me = some blob →
        decodeOffer h blob recipient = some (h.public_ me, offer)) ∧
      ((offerCodec.write offer).length ≤ 2 ^ 35 →
        (encodeOfferBlob h ρ offer (h.public_ recipient) me).isSome = true)) ∧
    (∀ (note : SyncNote) (me : Identity), decodeOffer h (encodeSyncNote note) me = none) ∧
    ∀ (blob : Bytes) (me : Identity) (sender : PublicId) (offer : Offer),
      decodeOffer h blob me = some (sender, offer) →
        ∃ ρ a plain c, (h.public_ a).x = sender.x ∧ readOffer plain = some offer ∧
          h.singleShotSeal ρ (some a) (h.public_ me).x plain offerAad = some c := by
  refine ⟨fun ρ p blob me hshape hblob => ?_, fun ρ offer recipient me hoffer => ⟨?_, ?_⟩,
    decodeOffer_encodeSyncNote, fun blob me sender offer => decodeOffer_sound hideal⟩
  · have hdecode := decodeOffer_post hideal hshape hblob me
    rw [Decodes, and_iff_right (decodeSyncNote_post hblob), hdecode]
    by_cases hmine : p.recipient = me
    · by_cases hown : p.named = h.public_ p.sender
      · have hvalid := hideal.valid_public p.sender
        rw [if_pos ⟨hmine, by rw [hown], by rw [hown]; exact hvalid⟩, if_pos ⟨hmine, hown⟩, hown]
        exact iff_of_true rfl fun hjoined => hjoined.2.1 hown
      · rw [if_neg fun hall : p.recipient = me ∧ p.named = _ => hown hall.2]
        by_cases hkey : p.named.x = (h.public_ p.sender).x ∧ h.valid p.named.ed = true
        · rw [if_pos ⟨hmine, hkey⟩]
          exact iff_of_false (by simp) (not_not_intro ⟨hmine, hown, hkey⟩)
        · rw [if_neg fun hall => hkey hall.2]
          exact iff_of_true rfl fun hjoined => hkey hjoined.2.2
    · rw [if_neg fun hall => hmine hall.1, if_neg fun hall => hmine hall.1]
      exact iff_of_true rfl fun hjoined => hmine hjoined.1
  · intro blob hblob
    rw [encodeOfferBlob_eq] at hblob
    have hshape : (Shape.current offer).Good := hoffer
    rw [decodeOffer_post hideal hshape hblob, if_pos ⟨rfl, rfl, hideal.valid_public me⟩]
    rfl
  · intro hlen
    rw [encodeOfferBlob_eq]
    exact Post.isSome_blob hideal ρ hlen

end

/-! ### An id of two people -/

def photoOffer : Offer where
  name := "photo.jpg"
  size := 1234
  chunks := 1
  ticket := "arvc"
  note := ""
  senderName := "Alice"
  origin := none
  target := none
  relay := ""

theorem good_photoOffer : offerCodec.Good photoOffer := by
  refine ⟨⟨?_, ?_, ?_, ?_, ?_, ?_, nofun, nofun⟩, ?_⟩
  all_goals
    show _ < 2 ^ 64
    decide +kernel

/-- An offer of 3 to 1, under the signing key of 2. -/
def joinedPost : Post UInt8 where
  wire := .sealed
  shape := .current photoOffer
  sender := 3
  named := ⟨standKey 2, standKey 3⟩
  recipient := 1

/-- It is taken, under an id that nobody has. -/
theorem not_decodes_joined :
    ¬ ∀ (p : Post UInt8) (blob : Bytes) (me : UInt8), p.shape.Good →
      p.blob standIn ((), ()) = some blob → Decodes standIn p blob me := by
  intro hall
  obtain ⟨blob, hblob⟩ := Option.isSome_iff_exists.1
    (Post.isSome_blob standIn_ideal ((), ()) (p := joinedPost) (by decide +kernel))
  have hright := (hall joinedPost blob 1 good_photoOffer hblob).2
  rw [decodeOffer_post standIn_ideal (p := joinedPost) good_photoOffer hblob 1,
    if_pos (by decide +kernel), if_neg (by decide +kernel)] at hright
  cases hright

/-- Under its sender's own id it is the offer of 3. -/
theorem decodes_own :
    ∃ blob, Post.blob standIn ((), ()) { joinedPost with named := standIn.public_ 3 } = some blob ∧
      Decodes standIn { joinedPost with named := standIn.public_ 3 } blob 1 := by
  obtain ⟨blob, hblob⟩ := Option.isSome_iff_exists.1
    (Post.isSome_blob standIn_ideal ((), ())
      (p := { joinedPost with named := standIn.public_ 3 }) (by decide +kernel))
  have hdecodes := (decodes_iff standIn_ideal).1 ((), ())
    { joinedPost with named := standIn.public_ 3 } blob 1 good_photoOffer hblob
  exact ⟨blob, hblob, hdecodes.2 fun hjoined => hjoined.2.1 rfl⟩

end Arvolo.Presence
