import Loom.Remote.Wire
import Loom.System.Traffic

/-!
# Nodes among arbitrary senders

The members run the code of their nodes, and any frame may arrive at any node at any
time. What senders cannot do is a condition on runs and not part of the steps: `unforged`
says that a signature of a member outside a given set is over a digest that this member
has signed in a message it sent. The trace records what the statements talk about.
-/

namespace Loom.Remote

/-- What happened so far, seen from outside. -/
inductive Event where
  /-- The references of the block have arrived, and `generateBlock` of its author goes on to
  build it. -/
  | proposed (block : Block)
  /-- `generateBlock` of a node raised its round to the given one. -/
  | entered (node round : Int)
  /-- `handlePropose` of a node found the block correctly signed and signed an echo of it. -/
  | echoed (node : Int) (block : Block)
  /-- `handleEcho` of a node found the echo correctly signed. -/
  | heard (node : Int) (echo : Echo)
  /-- `handleEcho` of a node called `propose`. -/
  | proposing (node height round oldFirstRefH : Int)
  /-- A node passed a message to `transmitor.Send`. -/
  | sent (node : Int) (msg : RemoteMessage)
  deriving DecidableEq, Repr

/-- One process. -/
structure Host where
  core : Core
  pair : Pair
  /-- `Transmitor.recvCh`. -/
  recvCh : List RemoteMessage
  /-- The blocks of the reply in processing that are still to be handled. -/
  blocks : List Block
  /-- The block store, by digest. -/
  store : GoMap Bytes Block
  /-- The requests for which a goroutine of the retriever is under way. -/
  requests : List RequestBlockMsg
  /-- How long a line of the dag can get in memory. -/
  lineCap : Int

def Host.init (S : Setup) (id : Int) : Host :=
  ⟨.init id S.committee, .init id S.committee, [], [], ∅, [], S.lineCap⟩

/-- A move of one node. -/
inductive HostMove where
  /-- A frame arrives and is put into `recvCh`. -/
  | receive (frame : Frame)
  /-- The core performs its next channel operation or handles what comes next; the batch
  is what the pool returns if a block is built. -/
  | core (batch : Batch)
  /-- The core takes a block from `loopBackChannel`. Nothing in the code asks the retriever
  for blocks, so no particular block is expected there. -/
  | loopBack (block : Block)
  /-- A goroutine of the retriever answers its request. -/
  | answer (k : Nat)
  /-- The dag or the commitor moves. -/
  | pair (act : Act)

/-- The longest slice of pointers in the address space. -/
def makeLimit : Int := 2 ^ 45

/-- `make` in `handleBlockPushReq` ends the process: the line would have to get longer than
the memory or the address space allows. -/
def overflows (lineCap : Int) (d : Dag) (block : Block) : Bool :=
  let b := block.header.slot
  let index := goInt (b.height - d.mark b.author - 1)
  (d.line b.author).any fun l =>
    decide ((l.length : Int) ≤ index ∧ min lineCap makeLimit < index + 1)

namespace Host

/-- A panic or a lack of memory ends the process. -/
def crash (x : Host) : Host := { x with pair := { x.pair with crashed := true } }

/-- Whether a move of the dag handles a push that overflows its line. -/
def overflowing (x : Host) : Act → Bool
  | .dag _ =>
    match x.pair.dagPc, x.pair.opCh with
    | .idle, .core (.propose block) :: _ => overflows x.lineCap x.pair.dag block
    | _, _ => false
  | _ => false

/-- The event of a proposal in `handlePropose`. -/
def echoEvents (cr : Crypto) (c : Core) (i : Int) (block : Block) : List Event :=
  if block.verify cr c.committee = some true then [.echoed i block] else []

/-- The events of building a block. -/
def buildEvents (i : Int) (ref : List Header) (b : Block) : List Event :=
  (if Core.opens ref then [.entered i b.header.round] else []) ++ [.proposed b]

@[simp] theorem mem_buildEvents {i : Int} {ref : List Header} {b : Block} {e : Event} :
    e ∈ buildEvents i ref b ↔
      Core.opens ref = true ∧ e = .entered i b.header.round ∨ e = .proposed b := by
  unfold buildEvents
  split <;> simp [*]

/-- The event of a call of `propose`. -/
def proposingEvents (i : Int) : List CoreAct → List Event
  | [.dag (.refReq _), .awaitRef height round oldFirstRefH] =>
    [.proposing i height round oldFirstRefH]
  | _ => []

/-- The events of handling a network message, which leaves the core in the state `c'`. -/
def recvEvents (cr : Crypto) (c c' : Core) (i : Int) : NetMessage → List Event
  | .propose block => echoEvents cr c i block
  | .echo echo => (if echo.verify cr c.committee = some true then [.heard i echo] else []) ++
      proposingEvents i c'.todo
  | .elect _ => []

/-- `handlePropose`, also for the blocks of a reply and for `handleLoopBack`. -/
def handlePropose (cr : Crypto) (i : Int) (x : Host) (block : Block) :
    Option (Host × List Event) :=
  (x.core.handlePropose cr block).map fun core =>
    ({ x with core := core }, echoEvents cr x.core i block)

/-- `handleRequestBlock` starts a goroutine for a correctly signed request. -/
def handleRequestBlock (cr : Crypto) (x : Host) (request : RequestBlockMsg) :
    Option (Host × List Event) :=
  (request.verify cr x.core.committee).map fun ok =>
    (if ok then { x with requests := x.requests ++ [request] } else x, [])

/-- `handleReplyBlock` goes through the blocks of a correctly signed reply. -/
def handleReplyBlock (cr : Crypto) (x : Host) (reply : ReplyBlockMsg) :
    Option (Host × List Event) :=
  (reply.verify cr x.core.committee).map fun ok =>
    (if ok then { x with blocks := reply.blocks } else x, [])

/-- Dispatch of `Run`; `none` is a panic. -/
def handle (cr : Crypto) (i : Int) (x : Host) : RemoteMessage → Option (Host × List Event)
  | .net msg => (x.core.handle cr msg).map fun core =>
      ({ x with core := core }, recvEvents cr x.core core i msg)
  | .requestBlock request => x.handleRequestBlock cr request
  | .replyBlock reply => x.handleReplyBlock cr reply
  | .loopBack _ => some (x, [])

/-- The core handles a network message, or only notes requests or blocks for later. -/
theorem handle_cases {cr : Crypto} {i : Int} {x y : Host} {m : RemoteMessage} {evs : List Event}
    (h : x.handle cr i m = some (y, evs)) :
    (∃ msg core, m = .net msg ∧ x.core.handle cr msg = some core ∧ y = { x with core := core } ∧
      evs = recvEvents cr x.core core i msg) ∨
    ∃ blocks requests, y = { x with blocks := blocks, requests := requests } ∧ evs = [] := by
  cases m with
  | net msg =>
    obtain ⟨core, hcore, h⟩ := Option.map_eq_some_iff.mp h
    cases h
    exact Or.inl ⟨msg, core, rfl, hcore, rfl, rfl⟩
  | requestBlock request =>
    obtain ⟨ok, _, h⟩ := Option.map_eq_some_iff.mp h
    cases h
    cases ok <;> exact Or.inr ⟨_, _, rfl, rfl⟩
  | replyBlock reply =>
    obtain ⟨ok, _, h⟩ := Option.map_eq_some_iff.mp h
    cases h
    cases ok <;> exact Or.inr ⟨_, _, rfl, rfl⟩
  | loopBack digest =>
    cases h
    exact Or.inr ⟨_, _, rfl, rfl⟩

/-- Perform the channel operation at the head of a core's list. -/
def perform (cr : Crypto) (i : Int) (x : Host) (batch : Batch) (act : CoreAct)
    (rest : List CoreAct) : Option (Host × List Event) :=
  let core := { x.core with todo := rest }
  match act with
  | .send _ msg => some ({ x with core := core }, [.sent i (.net msg)])
  | .loop msg =>
    if x.recvCh.length < recvCap then
      some ({ x with core := core, recvCh := x.recvCh ++ [.net msg] }, [])
    else none
  | .dag req => do
    let p ← x.pair.step (.send req)
    some ({ x with core := core, pair := p }, [])
  | .awaitRef height round oldFirstRefH =>
    match x.pair.dagPc with
    | .refResp ref => do
      let p ← x.pair.step .refResp
      some ({ x with
          core := { core with todo := core.generateBlock cr height round oldFirstRefH ref batch }
          pair := p },
        buildEvents i ref (core.buildBlock cr height round oldFirstRefH ref batch))
    | _ => none

/-- The core takes what comes next: the rest of a reply, or the next message. -/
def next (cr : Crypto) (i : Int) (x : Host) : Option (Option (Host × List Event)) :=
  match x.blocks, x.recvCh with
  | b :: bs, _ =>
    some (({ x with blocks := bs, store := x.store.insert (b.hash cr) b }).handlePropose cr i b)
  | [], m :: rest => some (({ x with recvCh := rest }).handle cr i m)
  | [], [] => none

/-- The message that a move takes from `recvCh`. -/
def upcoming (x : Host) : HostMove → Option RemoteMessage
  | .core _ =>
    match x.core.todo, x.blocks with
    | [], [] => x.recvCh.head?
    | _, _ => none
  | _ => none

/-- One move of a node; `none` if it is blocked or impossible. -/
def step (cr : Crypto) (i : Int) (x : Host) : HostMove → Option (Host × List Event)
  | .receive f =>
    match Codec.read f with
    | .panic => some (x.crash, [])
    | .error => some (x, [])
    | .message m =>
      if x.recvCh.length < recvCap then some ({ x with recvCh := x.recvCh ++ [m] }, []) else none
  | .core batch =>
    if x.pair.crashed then none else
    match x.core.todo with
    | act :: rest => x.perform cr i batch act rest
    | [] => (x.next cr i).map fun r => r.getD (x.crash, [])
  | .loopBack block =>
    if x.pair.crashed ∨ x.core.todo ≠ [] ∨ x.blocks ≠ [] then none
    else some ((x.handlePropose cr i block).getD (x.crash, []))
  | .answer k =>
    if x.pair.crashed then none else
    match x.requests[k]? with
    | none => none
    | some r =>
      let reply := newReplyBlockMsg cr i (processRequest x.store r) r.reqID
      some ({ x with requests := x.requests.eraseIdx k }, [.sent i (.replyBlock reply)])
  | .pair act => do
    if World.ownAct act = false then none
    else if x.overflowing act ∧ x.pair.crashed = false then some (x.crash, [])
    else
      let p ← x.pair.step act
      some ({ x with pair := p }, [])

/-- What one move can do, with the guards of the code. -/
inductive Step (cr : Crypto) (i : Int) (x : Host) : HostMove → Host → List Event → Prop
  | garbled {f} : Codec.read f = .panic → Step cr i x (.receive f) x.crash []
  | closed {f} : Codec.read f = .error → Step cr i x (.receive f) x []
  | receive {f m} : Codec.read f = .message m → x.recvCh.length < recvCap →
      Step cr i x (.receive f) { x with recvCh := x.recvCh ++ [m] } []
  | send {batch dst msg rest} : x.core.todo = .send dst msg :: rest →
      Step cr i x (.core batch) { x with core := { x.core with todo := rest } }
        [.sent i (.net msg)]
  | loop {batch msg rest} : x.core.todo = .loop msg :: rest → x.recvCh.length < recvCap →
      Step cr i x (.core batch)
        { x with core := { x.core with todo := rest }, recvCh := x.recvCh ++ [.net msg] } []
  | dagReq {batch req rest p} : x.core.todo = .dag req :: rest →
      x.pair.step (.send req) = some p →
      Step cr i x (.core batch) { x with core := { x.core with todo := rest }, pair := p } []
  | build {batch height round oldFirstRefH rest ref p} :
      x.core.todo = .awaitRef height round oldFirstRefH :: rest → x.pair.dagPc = .refResp ref →
      x.pair.step .refResp = some p →
      Step cr i x (.core batch)
        { x with
          core := { x.core with
            todo := x.core.generateBlock cr height round oldFirstRefH ref batch }
          pair := p }
        (buildEvents i ref (x.core.buildBlock cr height round oldFirstRefH ref batch))
  | panicBlock {batch b bs} : x.core.todo = [] → x.blocks = b :: bs →
      x.core.handlePropose cr b = none → Step cr i x (.core batch) x.crash []
  | block {batch b bs core} : x.core.todo = [] → x.blocks = b :: bs →
      x.core.handlePropose cr b = some core →
      Step cr i x (.core batch)
        { x with core := core, blocks := bs, store := x.store.insert (b.hash cr) b }
        (echoEvents cr x.core i b)
  | panicMessage {batch m rest} : x.core.todo = [] → x.blocks = [] → x.recvCh = m :: rest →
      ({ x with recvCh := rest }).handle cr i m = none → Step cr i x (.core batch) x.crash []
  | message {batch m rest y evs} : x.core.todo = [] → x.blocks = [] → x.recvCh = m :: rest →
      ({ x with recvCh := rest }).handle cr i m = some (y, evs) → Step cr i x (.core batch) y evs
  | panicLoopBack {b} : x.core.todo = [] → x.blocks = [] → x.core.handlePropose cr b = none →
      Step cr i x (.loopBack b) x.crash []
  | loopBack {b core} : x.core.todo = [] → x.blocks = [] →
      x.core.handlePropose cr b = some core →
      Step cr i x (.loopBack b) { x with core := core } (echoEvents cr x.core i b)
  | answer {k r} : x.requests[k]? = some r →
      Step cr i x (.answer k) { x with requests := x.requests.eraseIdx k }
        [.sent i (.replyBlock (newReplyBlockMsg cr i (processRequest x.store r) r.reqID))]
  | overflow {act} : x.overflowing act = true → Step cr i x (.pair act) x.crash []
  | pair {act p} : World.ownAct act = true → x.overflowing act = false →
      x.pair.step act = some p → Step cr i x (.pair act) { x with pair := p } []

/-- The inversion of `step`. -/
theorem step_cases {cr : Crypto} {i : Int} {x y : Host} {mv : HostMove} {evs : List Event}
    (h : x.step cr i mv = some (y, evs)) : x.Step cr i mv y evs := by
  cases mv with
  | receive f =>
    simp only [step] at h
    split at h
    · cases h
      exact .garbled ‹_›
    · cases h
      exact .closed ‹_›
    · simp only [Option.ite_none_right_eq_some, Option.some.injEq, Prod.mk.injEq] at h
      obtain ⟨hroom, rfl, rfl⟩ := h
      exact .receive ‹_› hroom
  | core batch =>
    simp only [step] at h
    split at h
    · cases h
    split at h
    · rename_i act rest htodo
      simp only [perform] at h
      split at h
      · cases h
        exact .send htodo
      · simp only [Option.ite_none_right_eq_some, Option.some.injEq, Prod.mk.injEq] at h
        obtain ⟨hroom, rfl, rfl⟩ := h
        exact .loop htodo hroom
      · obtain ⟨p, hp, h⟩ := Option.bind_eq_some_iff.mp h
        cases h
        exact .dagReq htodo hp
      · split at h
        · obtain ⟨p, hp, h⟩ := Option.bind_eq_some_iff.mp h
          cases h
          exact .build htodo ‹_› hp
        · cases h
    · rename_i htodo
      obtain ⟨r, hr, h⟩ := Option.map_eq_some_iff.mp h
      unfold next at hr
      split at hr
      · rename_i b bs hblocks
        cases hr
        unfold handlePropose at h
        cases hh : x.core.handlePropose cr b with
        | none =>
          rw [hh] at h
          cases h
          exact .panicBlock htodo hblocks hh
        | some core =>
          rw [hh] at h
          cases h
          exact .block htodo hblocks hh
      · rename_i m rest hblocks hrecv
        cases hr
        cases hh : ({ x with recvCh := rest } : Host).handle cr i m with
        | none =>
          rw [hh] at h
          cases h
          exact .panicMessage htodo hblocks hrecv hh
        | some r =>
          rw [hh] at h
          cases h
          exact .message htodo hblocks hrecv hh
      · cases hr
  | loopBack b =>
    simp only [step] at h
    split at h
    · cases h
    rename_i hok
    push Not at hok
    unfold handlePropose at h
    cases hh : x.core.handlePropose cr b with
    | none =>
      rw [hh] at h
      cases h
      exact .panicLoopBack hok.2.1 hok.2.2 hh
    | some core =>
      rw [hh] at h
      cases h
      exact .loopBack hok.2.1 hok.2.2 hh
  | answer k =>
    simp only [step] at h
    split at h
    · cases h
    split at h
    · cases h
    · cases h
      exact .answer ‹_›
  | pair act =>
    simp only [step] at h
    split at h
    · cases h
    rename_i hown
    split at h
    · rename_i hover
      cases h
      exact .overflow hover.1
    · rename_i hover
      obtain ⟨p, hp, h⟩ := Option.bind_eq_some_iff.mp h
      cases h
      refine .pair (by simpa using hown) ?_ hp
      have hcr := (Pair.step_cases hp).1
      simpa [hcr] using hover

end Host

/-- The members' nodes and the trace of what they did. -/
structure Net where
  hosts : Int → Host
  trace : List Event

namespace Net

def init (S : Setup) : Net := ⟨Host.init S, []⟩

/-- One move of one member's node. -/
def step (S : Setup) (n : Net) (mv : Int × HostMove) : Option Net :=
  if mv.1 ∉ S.committee.ids then none
  else ((n.hosts mv.1).step S.crypto mv.1 mv.2).map fun r =>
    ⟨Function.update n.hosts mv.1 r.1, n.trace ++ r.2⟩

/-- A state of the system after some run. -/
def Reaches (S : Setup) (moves : List (Int × HostMove)) (n : Net) : Prop :=
  Machine.run (step S) (init S) moves = some n

/-- The inversion of `step`. -/
theorem step_cases {S : Setup} {n n' : Net} {i : Int} {mv : HostMove}
    (h : n.step S (i, mv) = some n') : i ∈ S.committee.ids ∧ ∃ y evs,
      (n.hosts i).Step S.crypto i mv y evs ∧
      n' = ⟨Function.update n.hosts i y, n.trace ++ evs⟩ := by
  simp only [step] at h
  split at h
  · cases h
  rename_i hi
  obtain ⟨⟨y, evs⟩, hr, rfl⟩ := Option.map_eq_some_iff.mp h
  exact ⟨not_not.mp hi, y, evs, Host.step_cases hr, rfl⟩

/-- Nothing is forgotten. -/
theorem trace_subset {S : Setup} {n n' : Net} {moves : List (Int × HostMove)}
    (h : Machine.run (step S) n moves = some n') : n.trace ⊆ n'.trace := by
  refine Machine.invariant (P := fun u : Net => n.trace ⊆ u.trace) ?_ (List.Subset.refl _) h
  rintro u ⟨i, mv⟩ v hu hs
  obtain ⟨_, y, evs, _, rfl⟩ := step_cases hs
  exact List.Subset.trans hu (List.subset_append_left _ _)

/-- What holds of every node on its own, together with the trace, and is kept by the moves
of the node and by what other nodes add to the trace. -/
theorem invariant_hosts {S : Setup} {P : List Event → Int → Host → Prop}
    {ok : Net → Int × HostMove → Prop}
    (hinit : ∀ i ∈ S.committee.ids, P [] i (Host.init S i))
    (hmono : ∀ {tr i x j z mv y evs}, j ≠ i → Host.Step S.crypto j z mv y evs → P tr i x →
      P (tr ++ evs) i x)
    (hstep : ∀ n : Net, ∀ i mv y evs, i ∈ S.committee.ids → ok n (i, mv) →
      P n.trace i (n.hosts i) → (n.hosts i).Step S.crypto i mv y evs → P (n.trace ++ evs) i y)
    {moves : List (Int × HostMove)} {n : Net} (h : Reaches S moves n)
    (hok : Machine.Along (step S) ok (init S) moves) :
    ∀ i ∈ S.committee.ids, P n.trace i (n.hosts i) := by
  refine Machine.invariant_along
    (P := fun n : Net => ∀ i ∈ S.committee.ids, P n.trace i (n.hosts i)) ?_ hinit hok h
  rintro n ⟨i, mv⟩ n' hP hq hs j hj
  obtain ⟨hi, y, evs, hy, rfl⟩ := step_cases hs
  by_cases hji : j = i
  · subst hji
    simp only [Function.update_self]
    exact hstep n j mv y evs hj hq (hP j hj) hy
  · simp only [Function.update_of_ne hji]
    exact hmono (Ne.symm hji) hy (hP j hj)

/-- The messages that a member has sent. -/
def sentBy (tr : List Event) (a : Int) : List RemoteMessage :=
  tr.filterMap fun
    | .sent a' m => if a' = a then some m else none
    | _ => none

/-- The messages that a member has sent. -/
theorem mem_sentBy {tr : List Event} {a : Int} {m : RemoteMessage} :
    m ∈ sentBy tr a ↔ .sent a m ∈ tr := by
  apply Machine.mem_selected
  intro e a
  cases e <;> simp

/-- A valid signature of a member outside `byz` is over a digest that the member has signed
in a message it sent. -/
def genuine (S : Setup) (byz : List Int) (tr : List Event) (m : RemoteMessage) : Bool :=
  (m.signatures S.crypto).all fun (a, d, sig) =>
    decide (verifySig S.crypto (S.committee.name a) d sig = some true →
      a ∈ byz ∨ ∃ m' ∈ sentBy tr a, m'.digest S.crypto = some d)

/-- The members of `byz` send, replay and forward what they like, and cannot sign for
anybody else: whenever a node handles a message, its signatures are genuine. -/
def unforged (S : Setup) (byz : List Int) (n : Net) (mv : Int × HostMove) : Bool :=
  ((n.hosts mv.1).upcoming mv.2).all (genuine S byz n.trace)

/-- A node asks for its references, builds its first block and sends it to the others. -/
def firstBlock (i : Int) : List (Int × HostMove) :=
  [(i, .core ⟨-1, []⟩), (i, .pair (.dag [])), (i, .core ⟨-1, []⟩), (i, .core ⟨-1, []⟩)]

end Net

/-! ## Nodes that only hear from each other -/

/-- A node of the closed system, seen as one among arbitrary senders. -/
def Host.ofNode (S : Setup) (x : Node) : Host :=
  ⟨x.core, x.pair, x.recvCh.map .net, [], ∅, [], S.lineCap⟩

/-- No line of a dag outgrows the memory. -/
def fitsMemory (S : Setup) (w : World) : Move → Bool
  | .pair i act => !(Host.ofNode S (w.nodes i)).overflowing act
  | _ => true

/-- A core with work to do performs its next operation. -/
theorem Host.step_core_cons {cr : Crypto} {i : Int} {x : Host} {batch : Batch} {act : CoreAct}
    {rest : List CoreAct} (hcr : x.pair.crashed = false) (htodo : x.core.todo = act :: rest) :
    x.step cr i (.core batch) = x.perform cr i batch act rest := by
  simp [step, hcr, htodo]

/-- A core without work takes what comes next. -/
theorem Host.step_core_nil {cr : Crypto} {i : Int} {x : Host} {batch : Batch}
    (hcr : x.pair.crashed = false) (htodo : x.core.todo = []) :
    x.step cr i (.core batch) = (x.next cr i).map fun r => r.getD (x.crash, []) := by
  simp [step, hcr, htodo]

/-- A move of a core is the same move among arbitrary senders. -/
theorem ofNode_core {S : Setup} {w w' : World} {i : Int} {batch : Batch}
    (h : w.step S (.core i batch) = some w') : i ∈ S.committee.ids ∧
      ((Host.ofNode S (w.nodes i)).step S.crypto i (.core batch)).map Prod.fst =
        some (Host.ofNode S (w'.nodes i)) ∧ ∀ j, j ≠ i → w'.nodes j = w.nodes j := by
  simp only [World.step] at h
  split at h
  · cases h
  rename_i hok
  push Not at hok
  have hcr : (Host.ofNode S (w.nodes i)).pair.crashed = false := by
    simpa [Host.ofNode] using hok.2
  refine ⟨hok.1, ?_⟩
  split at h
  · rename_i act rest htodo
    rw [Host.step_core_cons hcr htodo]
    simp only [World.perform] at h
    split at h
    · cases h
      exact ⟨by simp [Host.perform, Host.ofNode], fun j hj => by simp [hj]⟩
    · simp only [Option.ite_none_right_eq_some, Option.some.injEq] at h
      obtain ⟨hroom, rfl⟩ := h
      exact ⟨by simp [Host.perform, Host.ofNode, hroom], fun j hj => by simp [hj]⟩
    · obtain ⟨p, hp, h⟩ := Option.bind_eq_some_iff.mp h
      cases h
      exact ⟨by simp [Host.perform, Host.ofNode, hp], fun j hj => by simp [hj]⟩
    · split at h
      · obtain ⟨p, hp, h⟩ := Option.bind_eq_some_iff.mp h
        cases h
        rename_i hpc
        exact ⟨by simp [Host.perform, Host.ofNode, hp, hpc], fun j hj => by simp [hj]⟩
      · cases h
  · rename_i htodo
    rw [Host.step_core_nil hcr htodo]
    split at h
    · cases h
    · rename_i msg recvCh hrecv
      split at h <;> cases h <;> rename_i hh
      · exact ⟨by simp [Host.next, Host.ofNode, Host.handle, hh, Host.crash, hrecv],
          fun j hj => by simp [hj]⟩
      · exact ⟨by simp [Host.next, Host.ofNode, Host.handle, hh, hrecv], fun j hj => by simp [hj]⟩

/-- One move of the closed system is one move among arbitrary senders. -/
theorem step_simulated {S : Setup} {w w' : World} {mv : Move} {n : Net} (ht : World.Traffic S w)
    (hsim : ∀ i, n.hosts i = Host.ofNode S (w.nodes i)) (hfit : fitsMemory S w mv = true)
    (h : w.step S mv = some w') :
    ∃ mv' n', n.step S mv' = some n' ∧ ∀ i, n'.hosts i = Host.ofNode S (w'.nodes i) := by
  have hmove : ∀ {i : Int} (mv' : HostMove), i ∈ S.committee.ids →
      ((Host.ofNode S (w.nodes i)).step S.crypto i mv').map Prod.fst =
        some (Host.ofNode S (w'.nodes i)) →
      (∀ j, j ≠ i → w'.nodes j = w.nodes j) →
      ∃ mv' n', n.step S mv' = some n' ∧ ∀ i, n'.hosts i = Host.ofNode S (w'.nodes i) := by
    intro i mv' hi hstep hother
    obtain ⟨⟨y, evs⟩, hstep, rfl⟩ := Option.map_eq_some_iff.mp hstep
    refine ⟨(i, mv'), ⟨Function.update n.hosts i (Host.ofNode S (w'.nodes i)), n.trace ++ evs⟩,
      ?_, ?_⟩
    · simp [Net.step, hi, hsim, hstep]
    · intro j
      by_cases hj : j = i
      · subst hj
        simp
      · simp [hj, hsim, hother j hj]
  cases mv with
  | deliver k =>
    simp only [World.step] at h
    split at h
    · cases h
    · rename_i p hp
      simp only [Option.ite_none_right_eq_some, Option.some.injEq] at h
      obtain ⟨hroom, rfl⟩ := h
      refine hmove (.receive (Codec.write (.net p.msg))) (ht.net p (List.mem_of_getElem? hp)).1 ?_
        fun j hj => by simp [hj]
      simp [Host.step, Host.ofNode, hroom]
  | core i batch =>
    obtain ⟨hi, hstep, hother⟩ := ofNode_core h
    exact hmove (.core batch) hi hstep hother
  | pair i act =>
    simp only [World.step] at h
    split at h
    · cases h
    · rename_i hok
      push Not at hok
      obtain ⟨p, hp, h⟩ := Option.bind_eq_some_iff.mp h
      cases h
      refine hmove (.pair act) hok.1 ?_ fun j hj => by simp [hj]
      simp only [fitsMemory, Bool.not_eq_true'] at hfit
      have hp' : (Host.ofNode S (w.nodes i)).pair.step act = some p := hp
      simp only [Host.step, hok.2, hfit, hp', Bool.false_eq_true, false_and, ↓reduceIte]
      simp [Host.ofNode]

/-- Every run of the closed system that fits into memory is a run among arbitrary senders:
the same cores, dags and commitors, with the same messages waiting. -/
theorem world_simulated {S : Setup} {moves : List Move} {w : World} (h : World.Reaches S moves w)
    (hfit : Machine.Along (World.step S) (fun w mv => fitsMemory S w mv = true) (World.init S)
      moves) :
    ∃ moves' n, Net.Reaches S moves' n ∧ ∀ i, n.hosts i = Host.ofNode S (w.nodes i) := by
  refine Machine.invariant_reached (P := fun w =>
    ∃ moves' n, Net.Reaches S moves' n ∧ ∀ i, n.hosts i = Host.ofNode S (w.nodes i))
    ⟨[], Net.init S, rfl, fun i => rfl⟩ ?_ hfit h
  rintro ls u mv u' hu ⟨moves', n, hn, hsim⟩ hq hs
  obtain ⟨mv', n', hstep, hsim'⟩ := step_simulated (World.Reaches.traffic hu) hsim hq hs
  exact ⟨moves' ++ [mv'], n', Machine.run_concat.mpr ⟨n, hn, hstep⟩, hsim'⟩

end Loom.Remote
