import Loom.Core.Config
import Loom.Prelude.Service

/-!
# The signature service

All goroutines of a process sign through one service. It signs digests itself, and it leaves
each share of the coin to a goroutine, so that slow pairings do not hold up the signatures.
Answers come back in any order, each to the caller of its request.
-/

namespace Loom.SigService

open Service (Event State)

variable {C : Type} [DecidableEq C]

/-- A `sigReq`, by its type. -/
inductive Req where
  | sig (digest : Bytes)
  | share (digest : Bytes)
  deriving DecidableEq, Repr

/-- What is filled in; signing a share may fail. -/
inductive Resp where
  | signature (sig : Bytes)
  | signatureShare (partialSig : Option Bytes)
  deriving DecidableEq, Repr

/-- What the service of a node has to answer. -/
def sign (cr : Crypto) (nodeID : Int) : Req → Resp
  | .sig digest => .signature (cr.sign nodeID digest)
  | .share digest => .signatureShare (cr.tsSign nodeID digest)

/-- `NewSigService`. -/
def server (cr : Crypto) (nodeID : Int) : Service.Server Req Resp Unit where
  handle _ req := ((), sign cr nodeID req)
  spawns
    | .sig _ => false
    | .share _ => true
  cap := 100

/-- The history of the calls of a service. -/
def history (cr : Crypto) (nodeID : Int) (acts : List (Service.Act C Req)) :
    List (Event C Req Resp) :=
  Machine.outputs (Service.step (server cr nodeID)) (Service.events (server cr nodeID))
    (Service.init ()) acts

/-- **Every caller gets what it has asked for**: what a call returns is the signature or the
share for its own digest, whatever else is signed at the same time; and as long as a caller
waits, the service can go on. -/
theorem signed_as_requested {cr : Crypto} {nodeID : Int} {acts : List (Service.Act C Req)}
    {s : State C Req Resp Unit}
    (hrun : Machine.run (Service.step (server cr nodeID)) (Service.init ()) acts = some s) :
    (∀ pre c resp post, history cr nodeID acts = pre ++ .returned c resp :: post →
      ∃ req p₀ p₁, pre = p₀ ++ .called c req :: p₁ ∧ resp = sign cr nodeID req ∧
        ∀ e ∈ p₁, e.caller = c → e = .served c req resp) ∧
    ∀ c req, s.phase c = .waiting req →
      (Service.step (server cr nodeID) s .take).isSome = true ∨
        ∃ k, (Service.step (server cr nodeID) s (.finish k)).isSome = true := by
  have hagrees := Service.agrees hrun
  refine ⟨fun pre c resp post htr => ?_, fun c req hwaiting => hagrees.goes_on hwaiting⟩
  obtain ⟨req, p₀, p₁, p₂, hpre, hother, hresp⟩ := hagrees.valid.returned htr
  refine ⟨req, p₀, p₁ ++ .served c req resp :: p₂, hpre, hresp, fun e he hcaller => ?_⟩
  rcases List.mem_append.mp he with he | he
  · exact absurd hcaller (hother e (List.mem_append_left _ he))
  · rcases List.mem_cons.mp he with rfl | he
    · rfl
    · exact absurd hcaller (hother e (List.mem_append_right _ he))

/-- Signatures that name the node and the digest. -/
def namedCrypto : Crypto where
  sha256 := id
  sign i digest := i.toNat.toUInt8 :: digest
  edVerify _ _ _ := true
  tsSign i digest := some (digest ++ [i.toNat.toUInt8])
  recover _ _ := none

/-- Two shares are signed in the other order, and a signature comes first. -/
def outOfOrder : List (Service.Act Nat Req) :=
  [.call 1 (.share [10]), .call 2 (.share [20]), .call 3 (.sig [30]), .take, .take, .take,
   .ret 3, .finish 1, .ret 2, .finish 0]

/-- The answer for the second digest overtakes that for the first and is still the right one. -/
theorem signed_as_requested_outOfOrder : ∃ pre post,
    history namedCrypto 7 outOfOrder =
      pre ++ .returned 2 (.signatureShare (some [20, 7])) :: post ∧
    ∃ req p₀ p₁, pre = p₀ ++ .called 2 req :: p₁ ∧
      .signatureShare (some [20, 7]) = sign namedCrypto 7 req := by
  obtain ⟨s, hs⟩ := Option.isSome_iff_exists.mp (show (Machine.run
    (Service.step (server namedCrypto 7)) (Service.init ()) outOfOrder).isSome = true by decide)
  have htr : history namedCrypto 7 outOfOrder = (history namedCrypto 7 outOfOrder).take 6 ++
      .returned 2 (.signatureShare (some [20, 7])) ::
        (history namedCrypto 7 outOfOrder).drop 7 := by decide
  obtain ⟨req, p₀, p₁, hpre, hresp, _⟩ := (signed_as_requested hs).1 _ _ _ _ htr
  exact ⟨_, _, htr, req, p₀, p₁, hpre, hresp⟩

end Loom.SigService
