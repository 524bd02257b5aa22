import Loom.Core.Core

/-!
# The whole system

Every node runs its core next to its dag and commitor. Messages in flight are a
list from which any entry may be delivered next, so delays are arbitrary and a
message may stay in flight for ever; nothing is forged or duplicated. The trace
records what the statements about whole runs talk about; no node reads it.
-/

namespace Loom

/-- What happened so far, seen from outside. -/
inductive Event where
  /-- The references of the block have arrived, and `generateBlock` of its author goes on to
  build it. -/
  | proposed (block : Block)
  /-- `generateBlock` of a node raised its round to the given one. -/
  | entered (node round : Int)
  /-- A node processed a block in `handlePropose` and sent an echo of it. -/
  | echoed (node : Int) (block : Header)
  /-- A node sent its coin share of a round. -/
  | elected (node round : Int)
  /-- A node handled the coin share of an author for a round. -/
  | counted (node author round : Int)
  /-- The core of a node emitted a reveal. -/
  | revealed (node : Int) (req : CommitReq)
  /-- The dag of a node submitted an anchor. -/
  | submitted (node : Int) (req : SubmitReq)
  deriving DecidableEq, Repr

/-- One process. -/
structure Node where
  core : Core
  pair : Pair
  /-- `Transmitor.recvCh`. -/
  recvCh : List NetMessage

/-- Buffer size of `recvCh`. -/
def recvCap : Nat := 1000

def Node.init (c : Committee) (id : Int) : Node := ⟨.init id c, .init id c, []⟩

/-- A message on its way. -/
structure Packet where
  src : Int
  dst : Int
  msg : NetMessage
  deriving DecidableEq, Repr

structure World where
  nodes : Int → Node
  net : List Packet
  trace : List Event

/-- The fixed surroundings of a run. -/
structure Setup where
  crypto : Crypto
  committee : Committee
  /-- How long a line of the dag can get in the memory of a process. -/
  lineCap : Int

def World.init (S : Setup) : World := ⟨Node.init S.committee, [], []⟩

/-- A move of the system. -/
inductive Move where
  /-- Put the packet at a position of the network into its receiver's `recvCh`. -/
  | deliver (k : Nat)
  /-- The core of a node handles a message or performs its next channel operation;
  the batch is what the pool returns if a block is built. -/
  | core (node : Int) (batch : Batch)
  /-- The dag or the commitor of a node moves. -/
  | pair (node : Int) (act : Act)
  deriving DecidableEq, Repr

namespace World

/-- Replace the state of one node. -/
def setNode (w : World) (i : Int) (x : Node) : World :=
  { w with nodes := Function.update w.nodes i x }

/-- The packets of one `transmitor.Send`. -/
def packets (S : Setup) (src dst : Int) (msg : NetMessage) : List Packet :=
  if dst = NONE then (S.committee.broadCast src).map fun d => ⟨src, d, msg⟩
  else if dst ∈ S.committee.ids then [⟨src, dst, msg⟩] else []

/-- The event of sending a message. -/
def sendEvents (i : Int) : NetMessage → List Event
  | .propose _ => []
  | .echo e => [.echoed i e.header]
  | .elect e => [.elected i e.round]

/-- The event of putting a request into `dagCh`. -/
def dagEvents (i : Int) : CoreReq → List Event
  | .commitReq req => [.revealed i req]
  | _ => []

/-- The event of taking a message from `recvCh`. -/
def recvEvents (i : Int) : NetMessage → List Event
  | .elect e => [.counted i e.author e.round]
  | _ => []

/-- The events of building a block. -/
def buildEvents (i : Int) (ref : List Header) (b : Block) : List Event :=
  (if Core.opens ref then [.entered i b.header.round] else []) ++ [.proposed b]

/-- Perform the channel operation at the head of a core's list. -/
def perform (S : Setup) (w : World) (i : Int) (batch : Batch) (act : CoreAct)
    (rest : List CoreAct) : Option World :=
  let x := w.nodes i
  let core := { x.core with todo := rest }
  match act with
  | .send dst msg =>
    some { w.setNode i { x with core := core } with
      net := w.net ++ packets S i dst msg
      trace := w.trace ++ sendEvents i msg }
  | .loop msg =>
    if x.recvCh.length < recvCap then
      some (w.setNode i { x with core := core, recvCh := x.recvCh ++ [msg] })
    else none
  | .dag req => do
    let p ← x.pair.step (.send req)
    some { w.setNode i { x with core := core, pair := p } with
      trace := w.trace ++ dagEvents i req }
  | .awaitRef height round oldFirstRefH =>
    match x.pair.dagPc with
    | .refResp ref => do
      let p ← x.pair.step .refResp
      some { w.setNode i { x with
          core := { core with
            todo := core.generateBlock S.crypto height round oldFirstRefH ref batch }
          pair := p } with
        trace := w.trace ++
          buildEvents i ref (core.buildBlock S.crypto height round oldFirstRefH ref batch) }
    | _ => none

/-- The event of a move of the dag or the commitor. -/
def pairEvents (i : Int) (p : Pair) : Act → List Event
  | .submit => match p.dagPc with
    | .submit req => [.submitted i req]
    | _ => []
  | _ => []

/-- The labels that belong to the dag and the commitor alone. -/
def ownAct : Act → Bool
  | .send _ => false
  | .refResp => false
  | _ => true

/-- One move of the system; `none` if it is blocked or impossible. -/
def step (S : Setup) (w : World) : Move → Option World
  | .deliver k =>
    match w.net[k]? with
    | none => none
    | some p =>
      let x := w.nodes p.dst
      if x.recvCh.length < recvCap then
        some { w.setNode p.dst { x with recvCh := x.recvCh ++ [p.msg] } with
          net := w.net.eraseIdx k }
      else none
  | .core i batch =>
    let x := w.nodes i
    if i ∉ S.committee.ids ∨ x.pair.crashed = true then none else
    match x.core.todo with
    | act :: rest => w.perform S i batch act rest
    | [] =>
      match x.recvCh with
      | [] => none
      | msg :: recvCh =>
        match x.core.handle S.crypto msg with
        | none => some (w.setNode i { x with pair := { x.pair with crashed := true } })
        | some core =>
          some { w.setNode i { x with core := core, recvCh := recvCh } with
            trace := w.trace ++ recvEvents i msg }
  | .pair i act => do
    if i ∉ S.committee.ids ∨ ownAct act = false then none else
    let p ← (w.nodes i).pair.step act
    some { w.setNode i { w.nodes i with pair := p } with
      trace := w.trace ++ pairEvents i (w.nodes i).pair act }

/-- What one move can do, with the guards of the code. -/
inductive Step (S : Setup) (w : World) : Move → World → Prop
  | deliver {k p} : w.net[k]? = some p → Step S w (.deliver k)
      { w.setNode p.dst { w.nodes p.dst with recvCh := (w.nodes p.dst).recvCh ++ [p.msg] } with
        net := w.net.eraseIdx k }
  | send {i batch dst msg rest} : i ∈ S.committee.ids →
      (w.nodes i).core.todo = .send dst msg :: rest → Step S w (.core i batch)
      { w.setNode i { w.nodes i with core := { (w.nodes i).core with todo := rest } } with
        net := w.net ++ packets S i dst msg
        trace := w.trace ++ sendEvents i msg }
  | loop {i batch msg rest} : i ∈ S.committee.ids →
      (w.nodes i).core.todo = .loop msg :: rest → Step S w (.core i batch)
      (w.setNode i { w.nodes i with
        core := { (w.nodes i).core with todo := rest }
        recvCh := (w.nodes i).recvCh ++ [msg] })
  | dagReq {i batch req rest p} : i ∈ S.committee.ids →
      (w.nodes i).core.todo = .dag req :: rest → (w.nodes i).pair.step (.send req) = some p →
      Step S w (.core i batch)
      { w.setNode i { w.nodes i with
          core := { (w.nodes i).core with todo := rest }
          pair := p } with
        trace := w.trace ++ dagEvents i req }
  | build {i batch height round oldFirstRefH rest ref p} : i ∈ S.committee.ids →
      (w.nodes i).core.todo = .awaitRef height round oldFirstRefH :: rest →
      (w.nodes i).pair.dagPc = .refResp ref → (w.nodes i).pair.step .refResp = some p →
      Step S w (.core i batch)
      { w.setNode i { w.nodes i with
          core := { (w.nodes i).core with
            todo := (w.nodes i).core.generateBlock S.crypto height round oldFirstRefH ref batch }
          pair := p } with
        trace := w.trace ++ buildEvents i ref
          ((w.nodes i).core.buildBlock S.crypto height round oldFirstRefH ref batch) }
  | panic {i batch msg recvCh} : i ∈ S.committee.ids → (w.nodes i).core.todo = [] →
      (w.nodes i).recvCh = msg :: recvCh → (w.nodes i).core.handle S.crypto msg = none →
      Step S w (.core i batch)
      (w.setNode i { w.nodes i with pair := { (w.nodes i).pair with crashed := true } })
  | handle {i batch msg recvCh core} : i ∈ S.committee.ids → (w.nodes i).core.todo = [] →
      (w.nodes i).recvCh = msg :: recvCh → (w.nodes i).core.handle S.crypto msg = some core →
      Step S w (.core i batch)
      { w.setNode i { w.nodes i with core := core, recvCh := recvCh } with
        trace := w.trace ++ recvEvents i msg }
  | pair {i act p} : i ∈ S.committee.ids → ownAct act = true →
      (w.nodes i).pair.step act = some p → Step S w (.pair i act)
      { w.setNode i { w.nodes i with pair := p } with
        trace := w.trace ++ pairEvents i (w.nodes i).pair act }

/-- The inversion of `step`. -/
theorem step_cases {S : Setup} {w w' : World} {mv : Move} (h : w.step S mv = some w') :
    w.Step S mv w' := by
  cases mv with
  | deliver k =>
    simp only [step] at h
    split at h
    · cases h
    · rename_i p hp
      simp only [Option.ite_none_right_eq_some, Option.some.injEq] at h
      obtain ⟨_, rfl⟩ := h
      exact .deliver hp
  | core i batch =>
    simp only [step] at h
    split at h
    · cases h
    · rename_i hok
      have hi : i ∈ S.committee.ids := by
        by_contra hno
        exact hok (Or.inl hno)
      split at h
      · rename_i act rest htodo
        simp only [perform] at h
        split at h
        · cases h
          exact .send hi htodo
        · simp only [Option.ite_none_right_eq_some, Option.some.injEq] at h
          obtain ⟨_, rfl⟩ := h
          exact .loop hi htodo
        · obtain ⟨p, hp, h⟩ := Option.bind_eq_some_iff.mp h
          cases h
          exact .dagReq hi htodo hp
        · split at h
          · obtain ⟨p, hp, h⟩ := Option.bind_eq_some_iff.mp h
            cases h
            exact .build hi htodo ‹_› hp
          · cases h
      · rename_i htodo
        split at h
        · cases h
        · rename_i msg recvCh hrecv
          split at h <;> cases h
          · exact .panic hi htodo hrecv ‹_›
          · exact .handle hi htodo hrecv ‹_›
  | pair i act =>
    simp only [step] at h
    split at h
    · cases h
    · rename_i hok
      obtain ⟨p, hp, h⟩ := Option.bind_eq_some_iff.mp h
      cases h
      refine .pair ?_ ?_ hp
      · by_contra hno
        exact hok (Or.inl hno)
      · by_contra hno
        exact hok (Or.inr (by simpa using hno))

/-- The trace only grows. -/
theorem Step.trace_grows {S : Setup} {w w' : World} {mv : Move} (h : w.Step S mv w') :
    w.trace <+: w'.trace := by
  cases h with
  | deliver | loop | panic => exact List.prefix_rfl
  | send | dagReq | build | handle | pair => exact List.prefix_append _ _

/-- A block is proposed where the core takes the references for it. -/
theorem Step.proposed_cases {S : Setup} {w w' : World} {mv : Move} {b : Block}
    (hs : w.Step S mv w') (hb : .proposed b ∈ w'.trace) : .proposed b ∈ w.trace ∨
      ∃ i batch height round oldFirstRefH rest ref, mv = .core i batch ∧
        (w.nodes i).core.todo = .awaitRef height round oldFirstRefH :: rest ∧
        (w.nodes i).pair.dagPc = .refResp ref ∧
        b = (w.nodes i).core.buildBlock S.crypto height round oldFirstRefH ref batch := by
  have hold : ∀ {evs : List Event}, .proposed b ∉ evs → .proposed b ∈ w.trace ++ evs →
      .proposed b ∈ w.trace :=
    fun hno hmem => (List.mem_append.mp hmem).resolve_right hno
  cases hs with
  | deliver | loop | panic => exact Or.inl hb
  | @send i batch dst msg rest hi htodo =>
    exact Or.inl (hold (by cases msg <;> simp [sendEvents]) hb)
  | @dagReq i batch req rest p hi htodo hp =>
    exact Or.inl (hold (by cases req <;> simp [dagEvents]) hb)
  | @build i batch height round oldFirstRefH rest ref p hi htodo hpc hp =>
    rcases List.mem_append.mp hb with hb | hb
    · exact Or.inl hb
    · simp only [buildEvents, List.mem_append, List.mem_singleton, Event.proposed.injEq] at hb
      rcases hb with hb | hb
      · split at hb <;> simp at hb
      · exact Or.inr ⟨i, batch, height, round, oldFirstRefH, rest, ref, rfl, htodo, hpc, hb⟩
  | @handle i batch msg recvCh core hi htodo hrecv hh =>
    exact Or.inl (hold (by cases msg <;> simp [recvEvents]) hb)
  | @pair i act p hi hown hp =>
    refine Or.inl (hold ?_ hb)
    unfold pairEvents
    split
    · split <;> simp
    · simp

/-- A state of the system after some run. -/
def Reaches (S : Setup) (moves : List Move) (w : World) : Prop :=
  Machine.run (step S) (init S) moves = some w

@[simp] theorem setNode_trace (w : World) (i : Int) (x : Node) : (w.setNode i x).trace = w.trace :=
  rfl

@[simp] theorem setNode_net (w : World) (i : Int) (x : Node) : (w.setNode i x).net = w.net := rfl

@[simp] theorem setNode_nodes (w : World) (i j : Int) (x : Node) :
    (w.setNode i x).nodes j = if j = i then x else w.nodes j := by
  simp [setNode, Function.update_apply]

end World

end Loom
