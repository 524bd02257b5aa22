import Loom.Core.Core

/-!
# Frames and the messages they carry

Everything that a connection can deliver: the codec first decodes a type id and then a
value of the type registered for it. A type id without a registered type makes
`reflect.New` panic; a payload that does not decode is an error, which closes the
connection. The messages are those of `DefaultNetMsgTypes`, block requests and replies
included, and nothing is assumed about their fields.
-/

namespace Loom.Remote

/-- The registered types. -/
inductive MsgType where
  | propose
  | echo
  | elect
  | requestBlock
  | replyBlock
  | loopBack
  deriving DecidableEq, Repr

/-- The number that stands for a type on the wire. -/
def MsgType.id : MsgType → Int
  | .propose => 0
  | .echo => 1
  | .elect => 2
  | .requestBlock => 3
  | .replyBlock => 4
  | .loopBack => 5

/-- `DefaultNetMsgTypes`. -/
def netMsgTypes : Int → Option MsgType
  | 0 => some .propose
  | 1 => some .echo
  | 2 => some .elect
  | 3 => some .requestBlock
  | 4 => some .replyBlock
  | 5 => some .loopBack
  | _ => none

@[simp] theorem netMsgTypes_id (t : MsgType) : netMsgTypes t.id = some t := by
  cases t <;> rfl

/-- A decoded message. -/
inductive RemoteMessage where
  | net (msg : NetMessage)
  | requestBlock (request : RequestBlockMsg)
  | replyBlock (reply : ReplyBlockMsg)
  | loopBack (blockHash : Digest)
  deriving DecidableEq, Repr

namespace RemoteMessage

def msgType : RemoteMessage → MsgType
  | .net (.propose _) => .propose
  | .net (.echo _) => .echo
  | .net (.elect _) => .elect
  | .requestBlock _ => .requestBlock
  | .replyBlock _ => .replyBlock
  | .loopBack _ => .loopBack

/-- The Ed25519 signatures in a message: who is said to have signed which digest. -/
def signatures (cr : Crypto) : RemoteMessage → List (Int × Bytes × Bytes)
  | .net (.propose b) => [(b.header.slot.author, b.hash cr, b.sig)]
  | .net (.echo e) => [(e.author, e.hash cr, e.sig)]
  | .net (.elect _) => []
  | .requestBlock r => [(r.author, r.hash cr, r.signature)]
  | .replyBlock r => (r.author, r.hash cr, r.signature) ::
      r.blocks.map fun b => (b.header.slot.author, b.hash cr, b.sig)
  | .loopBack _ => []

/-- The digest that the sender of a message signs. -/
def digest (cr : Crypto) : RemoteMessage → Option Bytes
  | .net (.propose b) => some (b.hash cr)
  | .net (.echo e) => some (e.hash cr)
  | .net (.elect _) => none
  | .requestBlock r => some (r.hash cr)
  | .replyBlock r => some (r.hash cr)
  | .loopBack _ => none

end RemoteMessage

/-- What comes off a connection: a type id, and what the decoder makes of the rest as a
value of the registered type, `none` if it fails. -/
structure Frame where
  typeId : Int
  payload : Option RemoteMessage
  typed : ∀ t m, netMsgTypes typeId = some t → payload = some m → m.msgType = t

/-- The outcomes of `Codec.Read`. -/
inductive ReadResult where
  | panic
  | error
  | message (msg : RemoteMessage)
  deriving DecidableEq, Repr

namespace Codec

/-- Decode the type id, make a value of its type and decode into it. -/
def read (f : Frame) : ReadResult :=
  match netMsgTypes f.typeId with
  | none => .panic
  | some _ =>
    match f.payload with
    | none => .error
    | some m => .message m

/-- Encode the type id and the message. -/
def write (m : RemoteMessage) : Frame where
  typeId := m.msgType.id
  payload := some m
  typed t m' ht hm := by
    cases hm
    rw [netMsgTypes_id] at ht
    exact Option.some.inj ht

/-- What one node writes, another one reads. -/
@[simp] theorem read_write (m : RemoteMessage) : read (write m) = .message m := by
  simp only [read, write, netMsgTypes_id]

end Codec

/-- The blocks that `processRequest` finds for a request, in a store keyed by digests. -/
def processRequest (store : GoMap Bytes Block) (request : RequestBlockMsg) : List Block :=
  request.missBlock.filterMap fun d => store.lookup d.bytes

end Loom.Remote
