import Arvolo.Code.Budgets
import Arvolo.Crypto.Chunk
import Arvolo.Lib.Exchange
import Arvolo.Lib.Pool
import Arvolo.Lib.Utf8

/-!
A pairing code from all its ends, `core/src/code.rs`: the host, the receivers that type the
code in, both sides of the older exchange, and whoever else can reach the relay.

What is read off the relay need not be what was put there, and the relay itself may be anybody's.
The key exchange, the derivation of keys and the cipher are parameters. What cannot be done is
to make up a confirmation, or a ciphertext that opens, under a key one does not have. Somebody
who tries secrets of his own has the keys of the exchanges he has started.
-/

namespace Arvolo.Code

open Lib
open Crypto (Aead sealChunk openChunk)

/-! ### Keys -/

/-- What a receiver may send back: its half of a mutual exchange, and where it listens. -/
inductive Way
  | reply
  | extras
  deriving DecidableEq

/-- What comes from other crates: `spake2`, `blake3` and the cipher. -/
structure CodePrims extends Exchange String Bytes Bytes Bytes where
  deriveKey : String → Bytes → Bytes
  keyedHash : Bytes → Bytes → Bytes
  aead : Aead

/-- `str::as_bytes`. -/
def bytesOf (s : String) : Bytes := utf8 s.toList

/-- The slot, which stands in front of the words. -/
def nameplate (secret : String) : String := String.ofList (secret.toList.takeWhile (· ≠ '-'))

/-- What the keys of one session are derived from. -/
def sessionInput (pakeKey : Bytes) (slot sid : String) : Bytes :=
  pakeKey ++ [0] ++ bytesOf slot ++ [0] ++ bytesOf sid

namespace CodePrims

variable (p : CodePrims)

def key32 (pakeKey : Bytes) : Bytes := p.deriveKey "arvolo/code/ticket-key/v1" pakeKey

def ticketKey32 (pakeKey : Bytes) (slot sid : String) : Bytes :=
  p.deriveKey "arvolo/code/ticket-key/v2" (sessionInput pakeKey slot sid)

def extrasKey32 (pakeKey : Bytes) (slot sid : String) : Bytes :=
  p.deriveKey "arvolo/code/extras-key/v1" (sessionInput pakeKey slot sid)

def replyKey32 (pakeKey : Bytes) (slot sid : String) : Bytes :=
  p.deriveKey "arvolo/code/reply-key/v2" (sessionInput pakeKey slot sid)

def confirmMac (pakeKey : Bytes) (slot sid : String) : Bytes :=
  p.keyedHash (p.deriveKey "arvolo/code/confirm-recv/v2" pakeKey)
    (bytesOf slot ++ [0] ++ bytesOf sid)

/-- What the host of this secret works with. -/
def pake (secret : String) : Pake where
  start := p.start secret
  finish := p.finish secret
  confirmMac key sid := p.confirmMac key (nameplate secret) sid

/-- No two inputs collide, and a key stands for the exchange it comes from. -/
structure Ideal : Prop where
  binding : p.toExchange.Binding
  length_eq : ∀ (a b : Side String Bytes Bytes) (k l : Bytes), a.key p.toExchange = some k →
    b.key p.toExchange = some l → k.length = l.length
  deriveKey_inj : ∀ {c c' : String} {k k' : Bytes}, p.deriveKey c k = p.deriveKey c' k' →
    c = c' ∧ k = k'
  keyedHash_inj : ∀ {k k' m m' : Bytes}, p.keyedHash k m = p.keyedHash k' m' → k = k' ∧ m = m'
  aead : p.aead.Lawful

/-- The key of what goes back. -/
def backKey32 : Way → Bytes → String → String → Bytes
  | .reply => p.replyKey32
  | .extras => p.extrasKey32

/-- One message, sealed by itself. -/
def sealWith (key body : Bytes) : Option (Bytes × Bytes) :=
  (sealChunk p.aead key 0 1 body).map (key, ·)

def openWith (key ct : Bytes) : Option Bytes := openChunk p.aead key 0 1 ct

end CodePrims

/-! ### The receiver -/

/-- A receiver, `resolve_v2`. What it has read, and what it has come to, are filled in as it
goes on. -/
structure Receiver where
  secret : String
  sid : String
  scalar : Bytes
  reply : Option Bytes
  extras : Option Bytes
  /-- The message it found under `s.`. -/
  theirs : Option Bytes := none
  /-- What it has opened. -/
  payload : Option Bytes := none
  /-- What it returns, and whether its reply was taken. -/
  result : Option (Bytes × Bool) := none
  ended : Bool := false
  deriving DecidableEq

namespace Receiver

variable (p : CodePrims) (r : Receiver)

def slot : String := nameplate r.secret

def side (ms : Bytes) : Side String Bytes Bytes := ⟨r.secret, r.scalar, ms⟩

/-- What it has to send back. -/
def body : Way → Option Bytes
  | .reply => r.reply
  | .extras => r.extras

/-- The key it has, once it has read the other's message. -/
def key : Option Bytes := r.theirs.bind fun ms => (r.side ms).key p.toExchange

/-- It reads `s.`, and posts its confirmation. -/
def greet (ms : Bytes) (fate : Put) : Receiver × List Bytes :=
  if r.ended ∨ r.theirs.isSome then (r, [])
  else
    match (r.side ms).key p.toExchange with
    | none => ({ r with ended := true }, [])
    | some key =>
        ({ r with theirs := some ms, ended := fate ≠ .landed },
          if fate.lands then [p.confirmMac key r.slot r.sid] else [])

/-- It reads `t.`, and opens it. -/
def collect (ct : Bytes) : Receiver :=
  if r.ended ∨ r.payload.isSome then r
  else
    match r.key p with
    | none => r
    | some key =>
        match p.openWith (p.ticketKey32 key r.slot r.sid) ct with
        | none => { r with ended := true }
        | some payload => { r with payload := some payload }

/-- It posts its reply and its extras, if it has any, and is through. A reply that cannot be
sealed is an error; what became of the extras is not looked at. -/
def answer (fate extrasFate : Put) : Receiver × List (Bytes × Bytes) :=
  match r.ended, r.payload, r.key p with
  | false, some payload, some key =>
      let reply := r.reply.map (p.sealWith (p.replyKey32 key r.slot r.sid))
      let extras := r.extras.bind (p.sealWith (p.extrasKey32 key r.slot r.sid))
      if reply = some none then ({ r with ended := true }, [])
      else
        ({ r with result := some (payload, reply.isSome && fate = .landed), ended := true },
          (if fate.lands then reply.join.toList else []) ++
            if extrasFate.lands then extras.toList else [])
  | _, _, _ => (r, [])

end Receiver

/-! ### The older exchange -/

/-- A sender of one ticket, `PairComplete`. -/
structure PairComplete where
  secret : String
  scalar : Bytes
  payload : Bytes
  /-- The message it found under `mr`. -/
  theirs : Option Bytes := none
  deriving DecidableEq

namespace PairComplete

variable (p : CodePrims) (q : PairComplete)

def side (mr : Bytes) : Side String Bytes Bytes := ⟨q.secret, q.scalar, mr⟩

/-- `run`: nothing is asked of the receiver. -/
def run (mr : Bytes) (fate : Put) : PairComplete × List (Bytes × Bytes) :=
  if q.theirs.isSome then (q, [])
  else
    ({ q with theirs := some mr },
      if fate.lands then
        (((q.side mr).key p.toExchange).bind fun key => p.sealWith (p.key32 key) q.payload).toList
      else [])

end PairComplete

/-- A receiver of the older exchange, `resolve_v1`. It reads before it draws. -/
structure ReceiverV1 where
  secret : String
  scalar : Bytes
  theirs : Bytes
  payload : Option Bytes := none
  ended : Bool := false
  deriving DecidableEq

namespace ReceiverV1

variable (p : CodePrims) (r : ReceiverV1)

def side : Side String Bytes Bytes := ⟨r.secret, r.scalar, r.theirs⟩

def collect (ct : Bytes) : ReceiverV1 :=
  if r.ended then r
  else
    { r with
      ended := true
      payload := ((r.side).key p.toExchange).bind fun key => p.openWith (p.key32 key) ct }

end ReceiverV1

/-! ### Everybody -/

/-- What the host shows a code for. -/
structure Hosted where
  secret : String
  payload : Bytes
  awaitReply : Bool
  deriving DecidableEq

namespace Hosted

variable (p : CodePrims) (c : Hosted)

def slot : String := nameplate c.secret

def side (x : Session) : Side String Bytes Bytes := ⟨c.secret, x.scalar, x.mr⟩

def key (x : Session) : Option Bytes := (c.side x).key p.toExchange

/-- The payload, sealed for one session. -/
def ticketFor (x : Session) : Option (Bytes × Bytes) :=
  (c.key p x).bind fun key => p.sealWith (p.ticketKey32 key c.slot x.sid) c.payload

/-- What is in a value that was found under a key of the session, if the host asks for it. -/
def hear (derive : Bytes → String → String → Bytes) (x : Session) (ct : Option Bytes) :
    Option Bytes :=
  if c.awaitReply then
    (c.key p x).bind fun key => ct.bind (p.openWith (derive key c.slot x.sid))
  else none

end Hosted

/-- `HostEvent::Paired`. -/
structure Paired where
  session : Session
  reply : Option Bytes
  extras : Option Bytes
  deriving DecidableEq

/-- What came back. -/
def Paired.heard (q : Paired) : Way → Option Bytes
  | .reply => q.reply
  | .extras => q.extras

/-- The parties, and the record of what honest ones have drawn and made. -/
structure Parties where
  host : Host := {}
  /-- The scalars the host has drawn. -/
  drawn : List Bytes := []
  receivers : List Receiver := []
  senders : List PairComplete := []
  receiversV1 : List ReceiverV1 := []
  /-- The secrets others have tried, each with a scalar of theirs. -/
  guesses : List (String × Bytes) := []
  macs : List Bytes := []
  /-- What was sealed, with the key. -/
  seals : List (Bytes × Bytes) := []
  paired : List Paired := []
  deriving DecidableEq

/-- What is read is up to the relay. -/
inductive Act
  | host (e : Event)
  /-- The host looks for a reply and extras, and counts the session. -/
  | hear (reply extras : Option Bytes)
  | join (secret sid : String) (scalar : Bytes) (reply extras : Option Bytes) (fate : Put)
  | greet (i : ℕ) (ms : Bytes) (fate : Put)
  | collect (i : ℕ) (ct : Bytes)
  | answer (i : ℕ) (fate extrasFate : Put)
  | publish (secret : String) (scalar payload : Bytes)
  | complete (i : ℕ) (mr : Bytes) (fate : Put)
  | joinV1 (secret : String) (scalar ms : Bytes) (fate : Put)
  | collectV1 (i : ℕ) (ct : Bytes)
  /-- Somebody else runs an exchange under a secret. -/
  | guess (secret : String) (scalar : Bytes)

namespace Parties

variable (p : CodePrims) (o : HostOpts) (c : Hosted) (s : Parties)

def stage : Option Stage := s.host.run.map Run.stage

/-- A step of the host. It does not count a session before it has looked for a reply. -/
def hostStep (e : Event) : Parties :=
  let next := { s with host := s.host.step o (p.pake c.secret) e }
  match s.stage, e with
  | some (.reading _), .receive (some _) scalar => { next with drawn := scalar :: s.drawn }
  | some (.sealing x), .put fate =>
      if fate.lands then { next with seals := (c.ticketFor p x).toList ++ s.seals } else next
  | some (.paired _), .count => s
  | _, _ => next

def hear (reply extras : Option Bytes) : Parties :=
  match s.stage with
  | some (.paired x) =>
      { s with
        host := s.host.step o (p.pake c.secret) .count
        paired := ⟨x, c.hear p p.replyKey32 x reply, c.hear p p.extrasKey32 x extras⟩ :: s.paired }
  | _ => s

def setReceiver (i : ℕ) (r : Receiver) : Parties := { s with receivers := s.receivers.set i r }

def step : Act → Parties
  | .host e => s.hostStep p o c e
  | .hear reply extras => s.hear p o c reply extras
  | .join secret sid scalar reply extras fate =>
      let r : Receiver := { secret, sid, scalar, reply, extras, ended := fate ≠ .landed }
      { s with receivers := s.receivers ++ [r] }
  | .greet i ms fate =>
      match s.receivers[i]? with
      | none => s
      | some r =>
          { s.setReceiver i (r.greet p ms fate).1 with macs := (r.greet p ms fate).2 ++ s.macs }
  | .collect i ct =>
      match s.receivers[i]? with
      | none => s
      | some r => s.setReceiver i (r.collect p ct)
  | .answer i fate extrasFate =>
      match s.receivers[i]? with
      | none => s
      | some r =>
          { s.setReceiver i (r.answer p fate extrasFate).1 with
            seals := (r.answer p fate extrasFate).2 ++ s.seals }
  | .publish secret scalar payload =>
      { s with senders := s.senders ++ [{ secret, scalar, payload }] }
  | .complete i mr fate =>
      match s.senders[i]? with
      | none => s
      | some q =>
          { s with senders := s.senders.set i (q.run p mr fate).1
                   seals := (q.run p mr fate).2 ++ s.seals }
  | .joinV1 secret scalar theirs fate =>
      let r : ReceiverV1 := { secret, scalar, theirs, ended := fate ≠ .landed }
      { s with receiversV1 := s.receiversV1 ++ [r] }
  | .collectV1 i ct =>
      match s.receiversV1[i]? with
      | none => s
      | some r => { s with receiversV1 := s.receiversV1.set i (r.collect p ct) }
  | .guess secret scalar => { s with guesses := (secret, scalar) :: s.guesses }

def run (as : List Act) : Parties := as.foldl (step p o c) {}

/-! ### What nobody can do -/

/-- The messages of the host's sessions, of the receivers, and of both sides of the older
exchange. -/
def hostMessages : List Bytes := s.drawn.map (p.start c.secret)

def receiverMessages : List Bytes := s.receivers.map fun r => p.start r.secret r.scalar

def senderMessages : List Bytes := s.senders.map fun q => p.start q.secret q.scalar

def messagesV1 : List Bytes := s.receiversV1.map fun r => p.start r.secret r.scalar

def honest : List Bytes :=
  s.hostMessages p c ++ s.receiverMessages p ++ s.senderMessages p ++ s.messagesV1 p

def tried : List Bytes := s.guesses.map fun g => p.start g.1 g.2

/-- Whoever draws a scalar, its message is new. -/
def Fresh : Act → Prop
  | .host (.receive (some _) scalar) =>
      p.start c.secret scalar ∉ s.honest p c ∧ p.start c.secret scalar ∉ s.tried p
  | .join secret _ scalar _ _ _ | .publish secret scalar _ | .joinV1 secret scalar _ _ =>
      p.start secret scalar ∉ s.honest p c ∧ p.start secret scalar ∉ s.tried p
  | .guess secret scalar => p.start secret scalar ∉ s.honest p c
  | _ => True

/-- A ciphertext that opens under a key of this exchange was sealed under it, unless somebody
else has the exchange's key. -/
def Genuine (pakeKey key ct : Bytes) : Prop :=
  (p.openWith key ct).isSome → (key, ct) ∈ s.seals ∨ p.Known s.guesses pakeKey

/-- What is read and found right was made by somebody who has the key. -/
def Unforged : Act → Prop
  | .host (.confirmation (some got)) => ∀ x key, s.stage = some (.confirming x key) →
      got = p.confirmMac key c.slot x.sid → got ∈ s.macs ∨ p.Known s.guesses key
  | .hear reply extras => ∀ x key, s.stage = some (.paired x) → c.key p x = some key →
      (∀ ct, reply = some ct → s.Genuine p key (p.replyKey32 key c.slot x.sid) ct) ∧
        ∀ ct, extras = some ct → s.Genuine p key (p.extrasKey32 key c.slot x.sid) ct
  | .collect i ct => ∀ r key, s.receivers[i]? = some r → r.key p = some key →
      s.Genuine p key (p.ticketKey32 key r.slot r.sid) ct
  | .collectV1 i ct => ∀ r key, s.receiversV1[i]? = some r → r.side.key p.toExchange = some key →
      s.Genuine p key (p.key32 key) ct
  | _ => True

/-- The step can be taken by these parties. -/
def Possible (a : Act) : Prop := s.Fresh p c a ∧ s.Unforged p c a

/-- The step reads only what honest parties made under the key it is read with. -/
def Made : Act → Prop
  | .host (.confirmation (some got)) => got ∈ s.macs
  | .hear reply extras =>
      match s.stage with
      | some (.paired x) => ∀ key ∈ c.key p x,
          (∀ ct ∈ reply, (p.replyKey32 key c.slot x.sid, ct) ∈ s.seals) ∧
            ∀ ct ∈ extras, (p.extrasKey32 key c.slot x.sid, ct) ∈ s.seals
      | _ => True
  | .collect i ct => ∀ r ∈ s.receivers[i]?, ∀ key ∈ r.key p,
      (p.ticketKey32 key r.slot r.sid, ct) ∈ s.seals
  | .collectV1 i ct => ∀ r ∈ s.receiversV1[i]?, ∀ key ∈ r.side.key p.toExchange,
      (p.key32 key, ct) ∈ s.seals
  | _ => True

section

/-- Membership in a list of messages is decided by one proof, wherever it is looked for. -/
theorem lawfulBEq_bytes : LawfulBEq Bytes := inferInstance

attribute [local instance] lawfulBEq_bytes

instance : DecidablePred (s.Fresh p c) := by
  intro a
  cases a with
  | host e =>
      cases e with
      | receive mr scalar => cases mr <;> unfold Fresh <;> infer_instance
      | _ => unfold Fresh; infer_instance
  | _ => unfold Fresh; infer_instance

instance : DecidablePred (s.Made p c) := by
  intro a
  cases a with
  | host e =>
      cases e with
      | confirmation got => cases got <;> unfold Made <;> infer_instance
      | _ => unfold Made; infer_instance
  | hear reply extras =>
      unfold Made
      cases s.stage with
      | none => infer_instance
      | some st => cases st <;> infer_instance
  | _ => unfold Made; infer_instance

end

end Parties

/-! ### One key, one session -/

theorem bytesOf_inj {s t : String} (h : bytesOf s = bytesOf t) : s = t := by
  have hs : decodeLossy (utf8 s.toList).length (utf8 s.toList) = s.toList := decodeLossy_utf8 le_rfl
  have ht : decodeLossy (utf8 t.toList).length (utf8 t.toList) = t.toList := decodeLossy_utf8 le_rfl
  rw [show utf8 s.toList = utf8 t.toList from h, ht] at hs
  exact String.toList_inj.1 hs.symm

namespace CodePrims

variable {p : CodePrims}

theorem sealWith_eq_some {key body : Bytes} {q : Bytes × Bytes} (h : p.sealWith key body = some q) :
    q.1 = key ∧ sealChunk p.aead key 0 1 body = some q.2 := by
  obtain ⟨ct, hct, rfl⟩ := Option.map_eq_some_iff.1 h
  exact ⟨rfl, hct⟩

theorem Ideal.backKey32_inj (hp : p.Ideal) {w w' : Way} {k k' : Bytes}
    {slot slot' sid sid' : String} (h : p.backKey32 w k slot sid = p.backKey32 w' k' slot' sid') :
    w = w' ∧ sessionInput k slot sid = sessionInput k' slot' sid' := by
  cases w with
  | reply =>
      cases w' with
      | reply => exact ⟨rfl, (hp.deriveKey_inj h).2⟩
      | extras => exact absurd (hp.deriveKey_inj h).1 (by decide)
  | extras =>
      cases w' with
      | reply => exact absurd (hp.deriveKey_inj h).1 (by decide)
      | extras => exact ⟨rfl, (hp.deriveKey_inj h).2⟩

/-- What is sealed for one use is not what is sealed for another. -/
theorem Ideal.sealWith_ne (hp : p.Ideal) {use use' : String} {k k' body ct : Bytes}
    (hne : use ≠ use') :
    p.sealWith (p.deriveKey use k) body ≠ some (p.deriveKey use' k', ct) := by
  intro h
  exact hne (hp.deriveKey_inj (sealWith_eq_some h).1).1.symm

/-- What is opened is what was sealed. -/
theorem Ideal.openWith_of_sealWith (hp : p.Ideal) {key key' body ct : Bytes}
    (h : p.sealWith key body = some (key', ct)) : p.openWith key' ct = some body := by
  obtain ⟨rfl, hct⟩ := sealWith_eq_some h
  exact hp.aead.decrypt_encrypt hct

section

variable (hp : p.Ideal) {a b : Side String Bytes Bytes} {k l : Bytes} {sid sid' : String}
include hp

/-- The word for a session ends differently where the sessions are different. -/
theorem Ideal.sid_eq (ha : a.key p.toExchange = some k) (hb : b.key p.toExchange = some l)
    (hkl : k = l)
    (h : bytesOf (nameplate a.secret) ++ [0] ++ bytesOf sid =
      bytesOf (nameplate b.secret) ++ [0] ++ bytesOf sid') : sid = sid' := by
  subst hkl
  rw [hp.binding.secret_eq ha hb] at h
  exact bytesOf_inj (List.append_cancel_left h)

theorem Ideal.session_eq (ha : a.key p.toExchange = some k) (hb : b.key p.toExchange = some l)
    (h : sessionInput k (nameplate a.secret) sid = sessionInput l (nameplate b.secret) sid') :
    k = l ∧ sid = sid' := by
  simp only [sessionInput, List.append_assoc] at h
  obtain ⟨hkl, hrest⟩ := List.append_inj h (hp.length_eq a b k l ha hb)
  refine ⟨hkl, hp.sid_eq ha hb hkl ?_⟩
  simp only [List.append_assoc]
  exact List.append_cancel_left hrest

theorem Ideal.mac_eq (ha : a.key p.toExchange = some k) (hb : b.key p.toExchange = some l)
    (h : p.confirmMac k (nameplate a.secret) sid = p.confirmMac l (nameplate b.secret) sid') :
    k = l ∧ sid = sid' := by
  obtain ⟨hkey, hword⟩ := hp.keyedHash_inj h
  have hkl : k = l := (hp.deriveKey_inj hkey).2
  exact ⟨hkl, hp.sid_eq ha hb hkl hword⟩

end

end CodePrims

/-! ### A stand-in -/

/-- Two texts in one, so that both can be read back. -/
def frame : Bytes → Bytes → Bytes
  | [], b => 0 :: b
  | x :: a, b => 1 :: x :: frame a b

theorem frame_inj {a a' b b' : Bytes} (h : frame a b = frame a' b') : a = a' ∧ b = b' := by
  induction a generalizing a' with
  | nil =>
      cases a' with
      | nil => exact ⟨rfl, (List.cons.inj h).2⟩
      | cons x a' => exact absurd (List.cons.inj h).1 (by decide)
  | cons x a ih =>
      cases a' with
      | nil => exact absurd (List.cons.inj h).1 (by decide)
      | cons y a' =>
          obtain ⟨rfl, hrest⟩ := List.cons.inj (List.cons.inj h).2
          obtain ⟨rfl, hb⟩ := ih hrest
          exact ⟨rfl, hb⟩

/-- Messages of one byte, and secrets of nine: the key is the secret and both messages, the
smaller one first. -/
def CodePrims.framed : CodePrims where
  start _ x := x
  finish s x m :=
    match x, m with
    | [a], [b] =>
        if (bytesOf s).length = 9 then some (bytesOf s ++ if a ≤ b then [a, b] else [b, a])
        else none
    | _, _ => none
  deriveKey c k := frame (bytesOf c) k
  keyedHash := frame
  aead := Aead.tagged

namespace CodePrims

theorem framed_key {a : Side String Bytes Bytes} {k : Bytes}
    (h : a.key framed.toExchange = some k) :
    ∃ x m, a.scalar = [x] ∧ a.theirs = [m] ∧ (bytesOf a.secret).length = 9 ∧
      k = bytesOf a.secret ++ if x ≤ m then [x, m] else [m, x] := by
  obtain ⟨secret, scalar, theirs⟩ := a
  simp only [Side.key, framed] at h
  split at h
  · rename_i x m
    by_cases hlen : (bytesOf secret).length = 9
    · rw [if_pos hlen] at h
      exact ⟨x, m, rfl, rfl, hlen, (Option.some.inj h).symm⟩
    · rw [if_neg hlen] at h
      exact absurd h (by simp)
  · exact absurd h (by simp)

theorem framed_binding : framed.toExchange.Binding := by
  intro a b k ha hb
  obtain ⟨x, m, hx, hm, hlen, hk⟩ := framed_key ha
  obtain ⟨y, n, hy, hn, hlen', hk'⟩ := framed_key hb
  obtain ⟨hsecret, hpair⟩ := List.append_inj (hk.symm.trans hk') (hlen.trans hlen'.symm)
  have hours : ∀ s : Side String Bytes Bytes, s.ours framed.toExchange = s.scalar := fun _ => rfl
  refine ⟨bytesOf_inj hsecret, ?_⟩
  rw [hours, hours, hx, hm, hy, hn]
  -- either pair may stand in either order
  split_ifs at hpair <;> simp_all

theorem framed_agreeing : framed.toExchange.Agreeing := by
  intro s x y
  obtain _ | ⟨a, _ | ⟨a', x⟩⟩ := x <;> obtain _ | ⟨b, _ | ⟨b', y⟩⟩ := y
  case cons.nil.cons.nil =>
      have hpair : (if a ≤ b then [a, b] else [b, a]) = if b ≤ a then [b, a] else [a, b] := by
        by_cases hab : a ≤ b
        · rw [if_pos hab]
          split_ifs with hba
          · rw [UInt8.le_antisymm hab hba]
          · rfl
        · rw [if_neg hab, if_pos ((UInt8.le_total a b).resolve_left hab)]
      simp only [framed, hpair]
  all_goals rfl

theorem framed_ideal : framed.Ideal where
  binding := framed_binding
  length_eq a b k l ha hb := by
    obtain ⟨x, m, -, -, hlen, rfl⟩ := framed_key ha
    obtain ⟨y, n, -, -, hlen', rfl⟩ := framed_key hb
    rw [List.length_append, List.length_append, hlen, hlen']
    split_ifs <;> rfl
  deriveKey_inj h := (frame_inj h).imp_left bytesOf_inj
  keyedHash_inj := frame_inj
  aead := Aead.tagged_lawful

end CodePrims

end Arvolo.Code
