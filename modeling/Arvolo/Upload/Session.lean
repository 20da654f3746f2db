import Arvolo.Lib.Machine
import Arvolo.Upload.Held

/-!
One resumable upload: the client of `core/src/upload.rs` driving a session on
the relay, over a network that loses, repeats and delays.

Every request the client has sent stays in `sent`: it may reach the relay at any
later moment, any number of times, or never. Every answer stays in `answers`
and may reach the client late, though only the answer to the request it is
waiting for is heard.

What the relay holds is a prefix of the layout's ciphertext as long as no append
handler is dropped while a write it handed over is still under way. The guard
that keeps a second append out is released with the handler, and the write is
not.
-/

namespace Arvolo.Upload

open Crypto Lib

inductive Request
  | status
  | patch (offset : ℕ) (body : Bytes)
  | commit
  deriving DecidableEq

/-- Where `drive` is: about to ask for the status, waiting for an answer, or
holding the offset to go on from. -/
inductive Client
  | start
  | asked (req : ℕ)
  | ready (pos : ℕ)
  | sending (req pos : ℕ)
  | committing (req : ℕ)
  | done (claim : String) (ttl : ℕ)
  /-- The session is given up: the relay forgot it, or refused for good. -/
  | over
  deriving DecidableEq

structure System where
  relay : Relay
  client : Client := .start
  sent : List Request := []
  answers : List Answer := []
  deriving DecidableEq

def segmentBytes : ℕ := 32 * 1024 * 1024

/-- What a refusal means for the upload: start over, stop, or try again. -/
def refusal : Status → Client
  | .payloadTooLarge | .insufficientStorage | .forbidden | .notFound => .over
  | _ => .start

/-- An answer reaches the client. `length` is the session's declared length. -/
def Client.hear (length : ℕ) (c : Client) (a : Answer) : Client :=
  match c with
  | .asked req =>
      if a.req ≠ req then c
      else if a.status.isSuccess then
        match a.offset with
        | some pos => .ready pos
        | none => .start
      else refusal a.status
  | .sending req pos =>
      if a.req ≠ req then c
      else if a.status.isSuccess || a.status = .conflict then
        match a.offset with
        -- an answer that leaves the upload where it was counts as a failed attempt
        | some new => if new = pos then .start else .ready new
        | none => .start
      else refusal a.status
  | .committing req =>
      if a.req ≠ req then c
      else if a.status.isSuccess then
        match a.committed with
        | some (claim, ttl) => .done claim ttl
        | none => .start
      else if a.status = .conflict then
        match a.offset with
        | some new => if new < length then .ready new else .start
        | none => .start
      else refusal a.status
  | _ => c

inductive Event
  /-- The client takes its next step: ask for the status, send the next segment,
  or ask for the commit. -/
  | proceed
  | hear (n : ℕ)
  /-- The client stops waiting for an answer. -/
  | giveUp
  /-- The client is started again and re-queries the offset. -/
  | restart
  /-- Request `n` reaches the relay. The last two arguments are used by a commit:
  the claim drawn, and the lifetime granted unless recording the deposit fails. -/
  | arrive (n now : ℕ) (claim : String) (granted : Option ℕ)
  /-- A proxy, or the relay's rate limit, answers in the relay's place. -/
  | refuse (n : ℕ) (status : Status)
  | openPart (k : ℕ)
  | takeChunk (k n : ℕ)
  | handOver (k n : ℕ)
  | land (k : ℕ)
  | finishAppend (k now : ℕ) (broke : Bool)
  | dropAppend (k : ℕ)
  | landOrphan (k : ℕ)
  | abort
  | reap (now : ℕ)

namespace System

variable (aead : Aead) (l : SealedLayout)

/-- The session as `open_upload` leaves it. -/
def opened (now : ℕ) : System :=
  { relay := { row := some { length := l.len, idleExpires := now + uploadIdleSecs } } }

def post (s : System) (req : Request) (waiting : ℕ → Client) : System :=
  { s with sent := s.sent ++ [req], client := waiting s.sent.length }

/-- The next step of `drive`. -/
def proceed (s : System) : System :=
  match s.client with
  | .start => s.post .status .asked
  | .ready pos =>
      if pos < l.len then
        s.post (.patch pos (l.stream aead pos (min (pos + segmentBytes) l.len)))
          (fun req => .sending req pos)
      else s.post .commit .committing
  | _ => s

def answer (s : System) (out : Relay × Option Answer) : System :=
  { s with relay := out.1, answers := s.answers ++ out.2.toList }

def arrive (s : System) (n now : ℕ) (claim : String) (granted : Option ℕ) : System :=
  match s.sent[n]? with
  | some .status => s.answer (s.relay, some (s.relay.statusHandler n now))
  | some (.patch offset body) => s.answer (s.relay.appendHandler n now offset body)
  | some .commit =>
      let out := s.relay.commitHandler n now claim granted
      s.answer (out.1, some out.2)
  | none => s

def giveUp (s : System) : System :=
  match s.client with
  | .asked _ | .sending _ _ | .committing _ => { s with client := .start }
  | _ => s

def step (s : System) : Event → System
  | .proceed => s.proceed aead l
  | .hear n =>
      match s.answers[n]? with
      | some a => { s with client := s.client.hear l.len a }
      | none => s
  | .giveUp => s.giveUp
  | .restart => { s with client := .start }
  | .arrive n now claim granted => s.arrive n now claim granted
  | .refuse n status => s.answer (s.relay, some { req := n, status })
  | .openPart k => s.answer (s.relay.openPart k)
  | .takeChunk k n => { s with relay := s.relay.takeChunk k n }
  | .handOver k n => { s with relay := s.relay.handOver k n }
  | .land k => { s with relay := s.relay.land k }
  | .finishAppend k now broke => s.answer (s.relay.finishAppend k now broke)
  | .dropAppend k => { s with relay := s.relay.dropAppend k }
  | .landOrphan k => { s with relay := s.relay.landOrphan k }
  | .abort => { s with relay := s.relay.abortHandler }
  | .reap now => { s with relay := s.relay.uploadReap now }

def run (now : ℕ) (es : List Event) : System := es.foldl (step aead l) (opened l now)

/-- A handler is not dropped while a write of its is under way. -/
def Settled (s : System) : Event → Prop
  | .dropAppend k => ∀ a ∈ s.relay.appends[k]?, a.inFlight = []
  | _ => True

instance (s : System) : (e : Event) → Decidable (s.Settled e)
  | .dropAppend k => inferInstanceAs (Decidable (∀ a ∈ s.relay.appends[k]?, a.inFlight = []))
  | .proceed | .hear _ | .giveUp | .restart | .arrive .. | .refuse .. | .openPart _
  | .takeChunk .. | .handOver .. | .land _ | .finishAppend .. | .landOrphan _ | .abort
  | .reap _ => .isTrue trivial

structure Inv (v : Bytes) (s : System) : Prop where
  relay : s.relay.Inv v l.len
  sent : ∀ offset body, Request.patch offset body ∈ s.sent → body <+: v.drop offset

variable {aead l} {v : Bytes} {s : System}

theorem Inv.post (h : s.Inv l v) {req : Request} (waiting : ℕ → Client)
    (hreq : ∀ offset body, req = .patch offset body → body <+: v.drop offset) :
    (s.post req waiting).Inv l v where
  relay := h.relay
  sent offset body hmem := by
    rcases List.mem_append.mp hmem with hold | hnew
    · exact h.sent offset body hold
    · exact hreq offset body (List.mem_singleton.mp hnew).symm

theorem inv_step (haead : aead.Lawful) (hv : l.toVec aead = some v) (h : s.Inv l v) (e : Event)
    (hset : s.Settled e) : (s.step aead l e).Inv l v := by
  have hlen := SealedLayout.length_toVec_le haead hv
  cases e with
  | proceed =>
      simp only [step, proceed]
      split
      · exact h.post _ (by simp)
      · split_ifs
        · refine h.post _ ?_
          intro offset body hreq
          cases hreq
          rw [SealedLayout.stream_eq haead hv]
          exact List.take_prefix _ _
        · exact h.post _ (by simp)
      · exact h
  | hear n =>
      simp only [step]
      split
      · exact ⟨h.relay, h.sent⟩
      · exact h
  | giveUp =>
      simp only [step, giveUp]
      split
      all_goals exact ⟨h.relay, h.sent⟩
  | restart => exact ⟨h.relay, h.sent⟩
  | arrive n now claim granted =>
      simp only [step, arrive]
      split
      · exact ⟨h.relay, h.sent⟩
      · rename_i offset body hn
        exact ⟨h.relay.appendHandler hlen n now offset
          (h.sent offset body (List.mem_of_getElem? hn)), h.sent⟩
      · exact ⟨h.relay.commitHandler hlen n now claim granted, h.sent⟩
      · exact h
  | refuse n status => exact ⟨h.relay, h.sent⟩
  | openPart k => exact ⟨h.relay.openPart k, h.sent⟩
  | takeChunk k n => exact ⟨h.relay.takeChunk k n, h.sent⟩
  | handOver k n => exact ⟨h.relay.handOver k n, h.sent⟩
  | land k => exact ⟨h.relay.land k, h.sent⟩
  | finishAppend k now broke => exact ⟨h.relay.finishAppend k now broke, h.sent⟩
  | dropAppend k => exact ⟨h.relay.dropAppend k hset, h.sent⟩
  | landOrphan k => exact ⟨h.relay.landOrphan k, h.sent⟩
  | abort => exact ⟨h.relay.abortHandler, h.sent⟩
  | reap now => exact ⟨h.relay.uploadReap now, h.sent⟩

theorem inv_opened (now : ℕ) : (opened l now).Inv l v where
  relay := by
    refine ⟨rfl, ?_, fun _ _ _ => rfl, List.nil_prefix, fun _ => rfl, .inl rfl⟩
    intro row hrow
    cases hrow
    rfl
  sent _ _ hmem := absurd hmem List.not_mem_nil

/-- A file of one byte. -/
def oneByte : SealedLayout := .mailbox [7] [] 1

/-- Its ciphertext under the stand-in cipher. -/
def oneByteSealed : Bytes := 7 :: List.replicate 16 255

/-- A request breaks off half-way and its handler is dropped; the client asks
where the upload stands, goes on from there while the stale request arrives a
second time, and commits. -/
def resumedRun : List Event :=
  [.proceed, .arrive 0 10 "" none, .hear 0, .proceed, .arrive 1 11 "" none, .openPart 0,
    .takeChunk 0 9, .handOver 0 9, .land 0, .dropAppend 0, .giveUp, .proceed,
    .arrive 2 12 "" none, .hear 1, .proceed, .arrive 1 13 "" none, .arrive 3 13 "" none,
    .openPart 0, .takeChunk 0 8, .handOver 0 8, .land 0, .finishAppend 0 14 false, .hear 3,
    .proceed, .arrive 4 15 "claim" (some 60)]

/-- The first append is dropped while its write is under way; the second is let
in at the same offset, and then both writes are in the file that is published. -/
def doubledRun : List Event :=
  [.proceed, .arrive 0 10 "" none, .hear 0, .proceed, .arrive 1 11 "" none, .openPart 0,
    .takeChunk 0 17, .handOver 0 17, .dropAppend 0, .giveUp, .proceed, .arrive 2 12 "" none,
    .hear 1, .proceed, .arrive 3 13 "" none, .openPart 0, .takeChunk 0 17, .handOver 0 17,
    .land 0, .finishAppend 0 14 false, .landOrphan 0, .hear 2, .proceed,
    .arrive 4 15 "claim" (some 60)]

end System

end Arvolo.Upload
