import Arvolo.Recv.Bitfield

/-!
The scheduling decisions of the swarm receiver, `core/src/flow/schedule.rs`.

The address of a provider is its endpoint id here. The last choice of the
source, which of a piece's providers is the cheapest, compares floating-point
estimates of throughput; it is left to the environment, that may name any of
them.
-/

namespace Arvolo.Recv

open Crypto (Bytes)

/-- A provider, by its endpoint id. -/
abbrev Provider := String

/-- Who could serve pieces at some moment: the sender while its control channel
is live, the relay with the pieces it has taken, and peers with their
bitfields. -/
structure Sources where
  sender : Option Provider := none
  relay : Option (Provider × List ℕ) := none
  peers : List (Provider × Bytes) := []

/-- The providers of `piece` that `isEligible` lets pass: sender, relay, peers. -/
def providersForPiece (piece : ℕ) (src : Sources) (isEligible : Provider → Bool) :
    List Provider :=
  (src.sender.toList.filter isEligible) ++
    ((src.relay.toList.filter fun r => r.2.contains piece && isEligible r.1).map Prod.fst) ++
    ((src.peers.filter fun p => bitfieldHas p.2 piece && isEligible p.1).map Prod.fst)

/-- Neither banned nor cooling down. -/
def isEligible (banned : List Provider) (cooldown : Provider → Option ℕ) (now : ℕ)
    (id : Provider) : Bool :=
  !banned.contains id && ((cooldown id).map fun t => decide (t ≤ now)).getD true

/-- The candidates with the fewest providers. -/
def rarestSet (candidates : List (ℕ × List Provider)) : List (ℕ × List Provider) :=
  match (candidates.map fun c => c.2.length).min? with
  | some fewest => candidates.filter fun c => c.2.length == fewest
  | none => candidates

/-- While a request to the origin is outstanding, only the pieces somebody else
can serve, if there are any. -/
def preferOffloadable (candidates : List (ℕ × List Provider)) (origin : Option Provider)
    (originBusy : Bool) : List (ℕ × List Provider) :=
  if !originBusy then candidates
  else
    let offloadable := fun c : ℕ × List Provider => c.2.any fun id => some id != origin
    if candidates.any offloadable then candidates.filter offloadable else candidates

theorem mem_of_mem_rarestSet {cs : List (ℕ × List Provider)} {c : ℕ × List Provider}
    (h : c ∈ rarestSet cs) : c ∈ cs := by
  unfold rarestSet at h
  split at h
  · exact List.mem_of_mem_filter h
  · exact h

theorem mem_of_mem_preferOffloadable {cs : List (ℕ × List Provider)} {origin : Option Provider}
    {busy : Bool} {c : ℕ × List Provider} (h : c ∈ preferOffloadable cs origin busy) : c ∈ cs := by
  unfold preferOffloadable at h
  split_ifs at h
  · exact h
  · simp only at h
    split_ifs at h
    · exact List.mem_of_mem_filter h
    · exact h

end Arvolo.Recv
