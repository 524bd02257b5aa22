import Loom.Core.Message
import Loom.Prelude.GoMap

/-!
# Quorum aggregation and leader election

An aggregator keeps the messages of distinct authors and hands them out once the
high threshold is met. The elector aggregates the coin shares of each round and
turns the recovered signature into a leader.
-/

namespace Loom

/-- Messages of one height or one round, at most one per author. -/
structure Aggregator (M : Type) where
  item : List M
  /-- The authors seen so far. -/
  used : List Int
  committee : Committee

def newAggregator {M : Type} (c : Committee) : Aggregator M := ⟨[], [], c⟩

namespace Aggregator

variable {M : Type}

/-- Add a message unless its author was here before. -/
def push (ag : Aggregator M) (author : Int) (msg : M) : Aggregator M :=
  if author ∈ ag.used then ag
  else { ag with used := ag.used ++ [author], item := ag.item ++ [msg] }

/-- Hand out the messages once there are enough of them. -/
def take (ag : Aggregator M) : Option (List M) × Aggregator M :=
  let thld := ag.committee.hightThreshold
  if thld ≤ ag.item.length then (some ag.item, { ag with item := ag.item.drop thld })
  else (none, ag)

end Aggregator

/-- Revealed leaders and pending coin shares by round. -/
structure Elector where
  leader : GoMap Int Int
  ag : GoMap Int (Aggregator Elect)
  committee : Committee

def newElector (c : Committee) : Elector := ⟨∅, ∅, c⟩

namespace Elector

/-- The first four bytes of a recovered signature, modulo the committee size. -/
def reveal (e : Elector) (sig : Bytes) : Int :=
  (([0, 1, 2, 3].foldl (fun seed i => seed * 256 + (sig.getD i 0).toNat) 0 : Nat) : Int).tmod
    e.committee.size

/-- Add a coin share and try to combine; the flag is `false` on a failed combination. -/
def add (cr : Crypto) (e : Elector) (elect : Elect) : Elector × Bool :=
  let a := (e.ag.lookup elect.round).getD (newAggregator e.committee)
  let (msg, a') := (a.push elect.author elect).take
  let e' := { e with ag := e.ag.insert elect.round a' }
  match msg with
  | none => (e', true)
  | some msgs =>
    match cr.recover (msgs.map (·.sigShare)) (electHash cr elect.round) with
    | none => (e', false)
    | some sig => ({ e' with leader := e'.leader.insert elect.round (e.reveal sig) }, true)

def tryGetLeader (e : Elector) (round : Int) : Option Int := e.leader.lookup round

def removeBy (e : Elector) (round : Int) : Elector :=
  { e with leader := e.leader.erase round, ag := e.ag.erase round }

end Elector

end Loom
