import Loom.Core.Aggregator
import Loom.Pair.State

/-!
# The core goroutine

The core handles one network message at a time. A handler updates the local maps
and leaves a list of channel operations that the goroutine performs one by one
before it looks at the next message; waiting for the references of a new block is
one of them. `none` is the panic of a signature check.
-/

namespace Loom

/-- A channel operation that the core still has to perform. -/
inductive CoreAct where
  /-- `transmitor.Send`, to one node or to everybody else. -/
  | send (dst : Int) (msg : NetMessage)
  /-- `transmitor.RecvChannel() <- msg`. -/
  | loop (msg : NetMessage)
  /-- `dagCh <- req`. -/
  | dag (req : CoreReq)
  /-- `ref := <-respCh` in `generateBlock`. -/
  | awaitRef (height round oldFirstRefH : Int)
  deriving DecidableEq, Repr

/-- State of one node's core. -/
structure Core where
  nodeID : Int
  committee : Committee
  eletor : Elector
  voteAg : GoMap Int (Aggregator Echo)
  todo : List CoreAct

namespace Core

/-- `propose` up to the point where it waits for references. -/
def propose (height round oldFirstRefH : Int) : List CoreAct :=
  [.dag (.refReq round), .awaitRef height round oldFirstRefH]

/-- The loop starts by proposing the first block. -/
def init (nodeID : Int) (c : Committee) : Core where
  nodeID := nodeID
  committee := c
  eletor := newElector c
  voteAg := ∅
  todo := propose 0 0 0

/-- Broadcast a share of the coin of `round`, if signing succeeds. -/
def invokeElect (cr : Crypto) (c : Core) (round : Int) : List CoreAct :=
  match newElectMsg cr c.nodeID round with
  | none => []
  | some elect => [.send NONE (.elect elect), .loop (.elect elect)]

/-- Whether the references received open a new round. -/
def opens (ref : List Header) : Bool := decide (1 < ref.length)

/-- The header data of the next block: a new round starts at its own height. -/
def nextRound (round : Int) (ref : List Header) : Int := if opens ref then round + 1 else round

def nextFirstRefH (height oldFirstRefH : Int) (ref : List Header) : Int :=
  if opens ref then height else oldFirstRefH

/-- The block that `generateBlock` builds from its references and a batch. -/
def buildBlock (cr : Crypto) (c : Core) (height round oldFirstRefH : Int) (ref : List Header)
    (batch : Batch) : Block :=
  newBlock cr c.nodeID height (nextRound round ref) (nextFirstRefH height oldFirstRefH ref)
    batch ref

/-- `generateBlock` after the references have arrived, and the sends of `propose`.
The coin of an even round is invoked on entering the odd round after it. -/
def generateBlock (cr : Crypto) (c : Core) (height round oldFirstRefH : Int) (ref : List Header)
    (batch : Batch) : List CoreAct :=
  let round' := nextRound round ref
  let b := c.buildBlock cr height round oldFirstRefH ref batch
  (if opens ref ∧ round'.tmod 2 = 1 then c.invokeElect cr (round' - 1) else []) ++
    [.send NONE (.propose b), .loop (.propose b)]

/-- Echo a correctly signed proposal to its author and add it to the dag. -/
def handlePropose (cr : Crypto) (c : Core) (block : Block) : Option Core := do
  if ← block.verify cr c.committee then
    some { c with todo := [.send block.header.slot.author (.echo (newEcho cr c.nodeID block)),
                           .dag (.propose block)] }
  else some c

/-- Aggregate echoes by height and propose the next block on a quorum. -/
def handleEcho (cr : Crypto) (c : Core) (echo : Echo) : Option Core := do
  if ← echo.verify cr c.committee then
    let h := echo.header.slot.height
    let ag := (c.voteAg.lookup h).getD (newAggregator c.committee)
    let (votes, ag') := (ag.push echo.author echo).take
    let c' := { c with voteAg := c.voteAg.insert h ag' }
    match votes with
    | none => some c'
    | some _ => some { c' with todo := propose (h + 1) echo.header.round echo.header.firstRefH }
  else some c

/-- Aggregate coin shares and pass a revealed leader to the dag. -/
def handleElect (cr : Crypto) (c : Core) (elect : Elect) : Core :=
  let (e, ok) := c.eletor.add cr elect
  if ok then
    match e.tryGetLeader elect.round with
    | none => { c with eletor := e }
    | some leader =>
      { c with eletor := e.removeBy elect.round,
               todo := [.dag (.commitReq ⟨leader, elect.round⟩)] }
  else { c with eletor := e }

/-- Dispatch of `Run`. -/
def handle (cr : Crypto) (c : Core) : NetMessage → Option Core
  | .propose block => c.handlePropose cr block
  | .echo echo => c.handleEcho cr echo
  | .elect elect => some (c.handleElect cr elect)

end Core

end Loom
