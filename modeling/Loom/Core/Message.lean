import Loom.Core.Config

/-!
# Network messages

Slots, headers, blocks, echoes and coin shares as they travel between nodes,
with the digests they are signed over. The inner requests between the core, the
dag and the commitor are in the modules of their receivers.
-/

namespace Loom

/-- Position of a block: its proposer and its height in the proposer's chain. -/
structure Slot where
  author : Int
  height : Int
  deriving DecidableEq, Repr

/-- The part of a block that references and echoes repeat. -/
structure Header where
  slot : Slot
  /-- Block round. -/
  round : Int
  /-- Height of the proposer's first block of this round. -/
  firstRefH : Int
  deriving DecidableEq, Repr

/-- A batch of transactions from the pool. -/
structure Batch where
  id : Int
  txs : List Bytes
  deriving DecidableEq, Repr

/-- A proposal. -/
structure Block where
  header : Header
  batch : Batch
  ref : List Header
  sig : Bytes
  deriving DecidableEq, Repr

/-- The slots a block refers to. -/
def Block.refSlots (b : Block) : List Slot := b.ref.map (·.slot)

/-- The digest covers the slot and the transactions. -/
def Block.hash (cr : Crypto) (b : Block) : Bytes :=
  cr.sha256 (appendInt b.header.slot.author ++ appendInt b.header.slot.height ++
    b.batch.txs.flatten)

/-- Build and sign a proposal. -/
def newBlock (cr : Crypto) (author : Int) (height round firstH : Int) (batch : Batch)
    (ref : List Header) : Block :=
  let block : Block := ⟨⟨⟨author, height⟩, round, firstH⟩, batch, ref, []⟩
  { block with sig := cr.sign author (block.hash cr) }

/-- Check the proposer's signature. -/
def Block.verify (cr : Crypto) (c : Committee) (b : Block) : Option Bool :=
  verifySig cr (c.name b.header.slot.author) (b.hash cr) b.sig

/-- The acknowledgement of a proposal, sent back to its author. -/
structure Echo where
  author : Int
  header : Header
  sig : Bytes
  deriving DecidableEq, Repr

def Echo.hash (cr : Crypto) (e : Echo) : Bytes :=
  cr.sha256 (appendInt e.author ++ appendInt e.header.slot.author ++
    appendInt e.header.slot.height)

/-- Build and sign the echo of a block. -/
def newEcho (cr : Crypto) (author : Int) (block : Block) : Echo :=
  let e : Echo := ⟨author, block.header, []⟩
  { e with sig := cr.sign author (e.hash cr) }

def Echo.verify (cr : Crypto) (c : Committee) (e : Echo) : Option Bool :=
  verifySig cr (c.name e.author) (e.hash cr) e.sig

/-- A share of the common coin of a round. -/
structure Elect where
  author : Int
  round : Int
  sigShare : Bytes
  deriving DecidableEq, Repr

/-- The signed digest of a coin depends on the round only. -/
def electHash (cr : Crypto) (round : Int) : Bytes := cr.sha256 (appendInt round)

/-- Build a coin share; `none` is a signing error. -/
def newElectMsg (cr : Crypto) (author : Int) (round : Int) : Option Elect :=
  (cr.tsSign author (electHash cr round)).map fun share => ⟨author, round, share⟩

/-- The network messages of a node that follows the protocol. Block requests and
their replies are absent: `requestBlocks` has no caller. -/
inductive NetMessage where
  | propose (block : Block)
  | echo (echo : Echo)
  | elect (elect : Elect)
  deriving DecidableEq, Repr

/-- A SHA-256 digest. -/
structure Digest where
  bytes : Bytes
  size : bytes.length = 32
  deriving DecidableEq, Repr

/-- A request for blocks by their digests. -/
structure RequestBlockMsg where
  author : Int
  missBlock : List Digest
  signature : Bytes
  reqID : Int
  ts : Int
  deriving DecidableEq, Repr

def RequestBlockMsg.hash (cr : Crypto) (m : RequestBlockMsg) : Bytes :=
  cr.sha256 (appendInt m.author ++ appendInt m.reqID ++ (m.missBlock.map (·.bytes)).flatten)

/-- Build and sign a request. -/
def newRequestBlock (cr : Crypto) (author : Int) (missBlock : List Digest) (reqID ts : Int) :
    RequestBlockMsg :=
  let m : RequestBlockMsg := ⟨author, missBlock, [], reqID, ts⟩
  { m with signature := cr.sign author (m.hash cr) }

def RequestBlockMsg.verify (cr : Crypto) (c : Committee) (m : RequestBlockMsg) : Option Bool :=
  verifySig cr (c.name m.author) (m.hash cr) m.signature

/-- The answer to such a request. -/
structure ReplyBlockMsg where
  author : Int
  blocks : List Block
  reqID : Int
  signature : Bytes
  deriving DecidableEq, Repr

/-- The digest covers the author and the request number. -/
def ReplyBlockMsg.hash (cr : Crypto) (m : ReplyBlockMsg) : Bytes :=
  cr.sha256 (appendInt m.author ++ appendInt m.reqID)

/-- Build and sign a reply. -/
def newReplyBlockMsg (cr : Crypto) (author : Int) (blocks : List Block) (reqID : Int) :
    ReplyBlockMsg :=
  let m : ReplyBlockMsg := ⟨author, blocks, reqID, []⟩
  { m with signature := cr.sign author (m.hash cr) }

def ReplyBlockMsg.verify (cr : Crypto) (c : Committee) (m : ReplyBlockMsg) : Option Bool :=
  verifySig cr (c.name m.author) (m.hash cr) m.signature

@[simp] theorem newBlock_header (cr : Crypto) (a : Int) (h r f : Int) (batch : Batch)
    (ref : List Header) : (newBlock cr a h r f batch ref).header = ⟨⟨a, h⟩, r, f⟩ := rfl

end Loom
