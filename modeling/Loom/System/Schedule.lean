import Loom.System.World

/-!
# Schedules

A schedule is a list of links. For each link the oldest packet on it is delivered, and
then the receiver runs until it blocks; a link from a node to itself without a packet
just lets the node run. Every schedule is a run of the system with FIFO links, so a
concrete schedule can be evaluated where a run is needed.
-/

namespace Loom.World

/-- What the dag can go on with, apart from the next request. -/
def answers (p : Pair) : List Act :=
  match p.dagPc with
  | .submit _ => [.submit]
  | .reply _ _ => [.reply]
  | .idle | .refResp _ => []

/-- The next request in `opCh`; maps are iterated in the order of their keys. -/
def requests (p : Pair) : List Act :=
  match p.opCh with
  | [] => []
  | .gcReq wm _ :: _ => [.dag wm.keys]
  | .core _ :: _ | .blockPullReq _ _ :: _ => [.dag []]

/-- What the commitor can go on with. -/
def commits (p : Pair) : List Act :=
  match p.com with
  | .idle => [.take]
  | .pulling c => if c.q.isEmpty then [.finish c.pulled.keys c.anchors.keys] else [.pull]
  | .waiting _ _ _ => []
  | .received _ _ _ => [.process]
  | .executing _ todo _ => if todo.isEmpty then [.gc] else [.exec]

/-- The moves that a node tries on its own, in this order. The pool has no transactions. -/
def ownMoves (i : Int) (w : World) : List Move :=
  let p := (w.nodes i).pair
  (answers p ++ requests p ++ commits p).map (.pair i) ++ [.core i ⟨-1, []⟩]

/-- Let a node run until it blocks. -/
def runNode (S : Setup) (i : Int) (w : World) : List Move × World :=
  Machine.settle (step S) (ownMoves i) 100 w

/-- Deliver the oldest packet of a link and let the receiver run. -/
def useLink (S : Setup) (link : Int × Int) (w : World) : List Move × World :=
  let k := w.net.findIdx fun p => decide (p.src = link.1 ∧ p.dst = link.2)
  match w.step S (.deliver k) with
  | some w' => (.deliver k :: (runNode S link.2 w').1, (runNode S link.2 w').2)
  | none => if link.1 = link.2 then runNode S link.2 w else ([], w)

/-- The moves of a schedule and the state it ends in. -/
def follow (S : Setup) (links : List (Int × Int)) : List Move × World :=
  Machine.play (useLink S) links (init S)

/-- Every schedule is a run. -/
theorem follow_reaches (S : Setup) (links : List (Int × Int)) :
    Reaches S (follow S links).1 (follow S links).2 := by
  refine Machine.run_play (fun link w => ?_) links (init S)
  unfold useLink
  dsimp only
  split
  · exact Machine.run_cons.mpr ⟨_, ‹_›, Machine.run_settle _ _ _⟩
  · split
    · exact Machine.run_settle _ _ _
    · rfl

/-- Four nodes. Signatures always verify, and the recovered coin elects member `1` in
round `0` and member `2` in every other round. -/
def fourNodes : Setup where
  crypto :=
    { sha256 := id
      sign := fun _ _ => []
      edVerify := fun _ _ _ => true
      tsSign := fun _ _ => some []
      recover := fun _ digest => some (if digest = [48] then [0, 0, 0, 1] else [0, 0, 0, 2]) }
  committee := ⟨List.replicate 4 (List.replicate 32 0)⟩
  lineCap := 2 ^ 45

/-- Every node proposes its first block. -/
def wakeUp : List (Int × Int) := [(0, 0), (1, 1), (2, 2), (3, 3)]

/-- Every link is used once. -/
def sweep : List (Int × Int) :=
  fourNodes.committee.ids.flatMap fun a => fourNodes.committee.ids.map fun b => (a, b)

/-- A schedule repeated. -/
def repeated (n : Nat) (links : List (Int × Int)) : List (Int × Int) :=
  (List.replicate n links).flatten

end Loom.World
