import Loom.Core.Message
import Loom.Prelude.GoMap

/-!
# The dag goroutine

One line of blocks per author, holes included, starts right above the author's
watermark `cacheMark`. The handlers are the bodies of the goroutine's loop. A
handler returns `none` where the Go code panics (an index outside a slice, a nil
block or a nil `pendingCommit`), and otherwise the new state together with the
channel send that ends it.
-/

namespace Loom

/-- Reveal of the leader of a round. -/
structure CommitReq where
  leader : Int
  round : Int
  deriving DecidableEq, Repr

/-- Anchor handed to the commitor. The leader map that travels with it in Go is
the dag's own `uncommitted`, shared by reference, so it is not copied here. -/
structure SubmitReq where
  slot : Slot
  round : Int
  deriving DecidableEq, Repr

/-- State of one node's dag. -/
structure Dag where
  nodeID : Int
  committee : Committee
  /-- Blocks of the entire DAG, one line per author. -/
  cache : List (List (Option Block))
  /-- Height of the highest committed block. -/
  cacheMark : GoMap Int Int
  /-- Uncommitted leaders of each round. -/
  uncommitted : GoMap Int Int
  /-- Highest committed round. -/
  commitMark : Int
  /-- Reply channel registered for a pending pull. -/
  pending : GoMap Slot Nat
  /-- Commit request in processing. -/
  pendingCommit : Option CommitReq

/-- What the goroutine still has to send before it takes the next request. -/
inductive DagPc where
  | idle
  | reply (ch : Nat) (block : Option Block)
  | refResp (ref : List Header)
  | submit (req : SubmitReq)
  deriving DecidableEq, Repr

def newDag (nodeID : Int) (c : Committee) : Dag where
  nodeID := nodeID
  committee := c
  cache := List.replicate c.size []
  cacheMark := c.ids.foldl (fun m id => m.insert id (-1)) ∅
  uncommitted := ∅
  commitMark := -2
  pending := ∅
  pendingCommit := none

namespace Dag

/-- `d.cacheMark[a]`, zero for an unknown author as in Go. -/
def mark (d : Dag) (a : Int) : Int := (d.cacheMark.lookup a).getD 0

/-- `d.cache[a]`; `none` is the panic of an index out of range. -/
def line (d : Dag) (a : Int) : Option (List (Option Block)) :=
  if 0 ≤ a then d.cache[a.toNat]? else none

/-- `d.cache[a] = l`. -/
def setLine (d : Dag) (a : Int) (l : List (Option Block)) : Dag :=
  { d with cache := d.cache.set a.toNat l }

/-- Store a block at an index of a line, padding with holes up to it. -/
def store (l : List (Option Block)) (index : Nat) (block : Block) : List (Option Block) :=
  if index < l.length then l.set index (some block)
  else l ++ List.replicate (index - l.length) none ++ [some block]

/-- Add a newly received block and answer a pull that waits for it. -/
def handleBlockPushReq (d : Dag) (block : Block) : Option (Dag × DagPc) :=
  let b := block.header.slot
  let index := b.height - d.mark b.author - 1
  if index < 0 then some (d, .idle)
  else do
    let l ← d.line b.author
    let d' := d.setLine b.author (store l index.toNat block)
    match d.pending.lookup b with
    | some ch => some (d', .reply ch (some block))
    | none => some (d', .idle)

/-- The test for a reference from a proposal of round `round` to a latest block:
two blocks of an even round, one of an odd round, or any later round. -/
def qualifies (round : Int) (h : Header) : Bool :=
  !decide (h.round < round) &&
    (decide (round < h.round) ||
      decide (round.tmod 2 = 0 ∧ 2 ≤ goSub h.slot.height h.firstRefH) ||
      decide (round.tmod 2 = 1 ∧ 1 ≤ goSub h.slot.height h.firstRefH))

/-- The contribution of one line to the references; `none` is a nil dereference. -/
def refOf (round : Int) (l : List (Option Block)) : Option (List Header) :=
  match l.getLast? with
  | none => some []
  | some none => none
  | some (some b) => some (if qualifies round b.header then [b.header] else [])

/-- Collect references for a new block. -/
def handleRefReq (d : Dag) (round : Int) : Option (Dag × DagPc) := do
  let ref := (← d.cache.mapM (refOf round)).flatten
  if ref.length < d.committee.hightThreshold then
    match (← d.line d.nodeID).getLast? with
    | none => some (d, .refResp ref)
    | some none => none
    | some (some b) => some (d, .refResp [b.header])
  else some (d, .refResp ref)

/-- All leaders after the last committed round up to `curR` are known. -/
def isAnchorReady (d : Dag) (curR : Int) : Bool :=
  (List.range ((curR - d.commitMark) / 2).toNat).all fun k =>
    (d.uncommitted.lookup (d.commitMark + 2 + 2 * k)).isSome

/-- The highest received block of the leader's line that is two blocks past the
opening of `round`. -/
def topBlock (l : List (Option Block)) (round : Int) : Option Block :=
  (l.filterMap id).reverse.find? fun b =>
    decide (b.header.round = round ∧ 2 ≤ goSub b.header.slot.height b.header.firstRefH)

/-- The pending commit after a reveal: the later of the two rounds. -/
def nextCommit (d : Dag) (req : CommitReq) : CommitReq :=
  match d.pendingCommit with
  | none => req
  | some p => if p.round < req.round then req else p

/-- Register a leader and submit the pending anchor if no leader before it is missing. -/
def handleCommitReq (d : Dag) (req : CommitReq) : Option (Dag × DagPc) :=
  let p := d.nextCommit req
  let d' := { d with uncommitted := d.uncommitted.insert req.round req.leader,
                     pendingCommit := some p }
  if d'.isAnchorReady p.round then do
    let l ← d'.line p.leader
    match topBlock l p.round with
    | some b => some (d', .submit ⟨⟨p.leader, b.header.slot.height - 2⟩, p.round⟩)
    | none => some ({ d' with pendingCommit := none }, .idle)
  else some (d', .idle)

/-- Answer a pull: nothing for a committed slot, the block if it is here, and
otherwise register the reply channel. -/
def handleBlockPullReq (d : Dag) (b : Slot) (ch : Nat) : Option (Dag × DagPc) :=
  if b.height ≤ d.mark b.author then some (d, .reply ch none)
  else do
    let l ← d.line b.author
    match l[(b.height - d.mark b.author - 1).toNat]?.join with
    | some block => some (d, .reply ch (some block))
    | none => some ({ d with pending := d.pending.insert b ch }, .idle)

/-- Drop one author's blocks up to the new watermark. -/
def cleanLine (d : Dag) (id : Int) (wm : Int) : Option Dag := do
  let l ← d.line id
  let next := wm - d.mark id
  if l = [] then some { d with cacheMark := d.cacheMark.insert id wm }
  else if 0 ≤ next ∧ next ≤ l.length then
    some { d.setLine id (l.drop next.toNat) with cacheMark := d.cacheMark.insert id wm }
  else none

/-- Clean the authors of a watermark map in the given iteration order. -/
def cleanLines (wm : GoMap Int Int) : List Int → Dag → Option Dag
  | [], d => some d
  | id :: ids, d => do
    let d' ← d.cleanLine id ((wm.lookup id).getD 0)
    cleanLines wm ids d'

/-- Remove committed blocks, committed leaders and all pending pulls. -/
def handleCleanReq (d : Dag) (wm : GoMap Int Int) (order : List Int) :
    Option (Dag × DagPc) := do
  let p ← d.pendingCommit
  let d' ← cleanLines wm order d
  some ({ d' with
    commitMark := p.round
    uncommitted := GoMap.eraseAll d'.uncommitted
      (d'.uncommitted.keys.filter fun r => decide (r ≤ p.round))
    pending := ∅ }, .idle)

end Dag

end Loom
