import Loom.System.Schedule
import Loom.Remote.Wire
import Loom.Network.Transport

/-!
# The system over its transport

In the world messages in flight are a list from which any entry may be delivered next. Here
the same processes are put over the transport that the code has: its channels of fixed
capacity, the goroutines between them, timers for proposals, and dials and writes that may
fail. Whatever such a system does, a world can do: a message that the transport has lost is
one that the world never delivers.
-/

namespace Loom

/-- What the processes find: whether proposals are delayed (`DDos`), and how many messages the
buffers of a connection hold. -/
structure Links where
  ddos : Bool
  window : Nat
  window_pos : 0 < window

/-- The codec over these connections, for the messages of the core. -/
def Links.carrier (L : Links) : Network.Carrier NetMessage Remote.Frame where
  encode msg := Remote.Codec.write (.net msg)
  decode f :=
    match Remote.Codec.read f with
    | .message (.net msg) => some msg
    | _ => none
  decode_encode msg := by rw [Remote.Codec.read_write]
  window := L.window
  window_pos := L.window_pos

/-- All processes with their transport. -/
structure Stack where
  nodes : Int → Node
  net : Network.Transport Int NetMessage Remote.Frame
  trace : List Event

/-- A move of the system. -/
inductive StackMove where
  /-- The core of a node, as in the world. If it broadcasts, the members come in the order in
  which `BroadCast` finds them in its map. -/
  | core (node : Int) (batch : Batch) (order : List Int)
  /-- The dag or the commitor of a node, as in the world. -/
  | pair (node : Int) (act : Act)
  /-- The transport. -/
  | net (act : Network.TransportAct Int NetMessage)

/-- The moves of the processes. -/
def StackMove.own : StackMove → List Move
  | .core i batch _ => [.core i batch]
  | .pair i act => [.pair i act]
  | .net _ => []

/-- A dial or a `Write` that fails. -/
def StackMove.fails : StackMove → Bool
  | .net act => act.fails
  | _ => false

/-- The moves of the processes. -/
def Move.own : Move → List Move
  | .deliver _ => []
  | mv => [mv]

namespace Stack

open Network (Transport TransportAct)

/-- The addresses of a call of `Transmitor.Send`, with those of all others in some order. -/
def addresses (order : List Int) (dst : Int) : List Int :=
  if dst = NONE then order else [dst]

/-- The filter of `Transmitor.Send`. -/
def delays (ddos : Bool) : NetMessage → Bool
  | .propose _ => ddos
  | _ => false

/-- What the next operation of a core asks of the transport. -/
def sending (L : Links) (i : Int) (order : List Int) (x : Node) :
    Option (TransportAct Int NetMessage) :=
  match x.core.todo with
  | .send dst msg :: _ => some (.send i ⟨msg, addresses order dst⟩ (delays L.ddos msg))
  | _ => none

/-- The processes without what is between them. -/
def processes (s : Stack) : World := ⟨s.nodes, [], s.trace⟩

/-- All processes at their start. -/
def init (S : Setup) : Stack := ⟨Node.init S.committee, Transport.init, []⟩

/-- A move of the transport. Nothing moves in a process that has crashed. -/
def netStep (S : Setup) (L : Links) (s : Stack) (act : TransportAct Int NetMessage) :
    Option Stack :=
  let i := act.process
  let x := s.nodes i
  if i ∉ S.committee.ids ∨ x.pair.crashed = true then none else
  match act with
  | .send _ _ _ => none
  | .arrive dst =>
    match (s.net dst).handing with
    | none => none
    | some p =>
      if x.recvCh.length < recvCap then
        (s.net.step L.carrier act).map fun net =>
          ⟨Function.update s.nodes i { x with recvCh := x.recvCh ++ [p.2] }, net, s.trace⟩
      else none
  | _ => (s.net.step L.carrier act).map fun net => { s with net := net }

/-- One move of the system; `none` if it is blocked or impossible. -/
def step (S : Setup) (L : Links) (s : Stack) : StackMove → Option Stack
  | .core i batch order =>
    if order.isPerm (S.committee.broadCast i) = false then none else
    match s.processes.step S (.core i batch), sending L i order (s.nodes i) with
    | none, _ => none
    | some w, none => some ⟨w.nodes, s.net, w.trace⟩
    | some w, some act => (s.net.step L.carrier act).map fun net => ⟨w.nodes, net, w.trace⟩
  | .pair i act => (s.processes.step S (.pair i act)).map fun w => ⟨w.nodes, s.net, w.trace⟩
  | .net act => s.netStep S L act

/-- The ways in which the moves go on. -/
inductive Step (S : Setup) (L : Links) (s : Stack) : StackMove → Stack → Prop
  | core {i batch order w} : s.processes.step S (.core i batch) = some w →
      (∀ dst msg rest, (s.nodes i).core.todo ≠ .send dst msg :: rest) →
      Step S L s (.core i batch order) ⟨w.nodes, s.net, w.trace⟩
  | send {i batch order w dst msg rest net} : order.Perm (S.committee.broadCast i) →
      s.processes.step S (.core i batch) = some w →
      (s.nodes i).core.todo = .send dst msg :: rest →
      s.net.step L.carrier (.send i ⟨msg, addresses order dst⟩ (delays L.ddos msg)) = some net →
      Step S L s (.core i batch order) ⟨w.nodes, net, w.trace⟩
  | pair {i act w} : s.processes.step S (.pair i act) = some w →
      Step S L s (.pair i act) ⟨w.nodes, s.net, w.trace⟩
  | arrive {dst p net} : dst ∈ S.committee.ids → (s.net dst).handing = some p →
      (s.nodes dst).recvCh.length < recvCap → s.net.step L.carrier (.arrive dst) = some net →
      Step S L s (.net (.arrive dst)) ⟨Function.update s.nodes dst
        { s.nodes dst with recvCh := (s.nodes dst).recvCh ++ [p.2] }, net, s.trace⟩
  | net {act net} : (∀ a msg delayed, act ≠ .send a msg delayed) → (∀ b, act ≠ .arrive b) →
      s.net.step L.carrier act = some net → Step S L s (.net act) { s with net := net }

/-- Every move is one of these. -/
theorem step_cases {S : Setup} {L : Links} {s s' : Stack} {mv : StackMove}
    (hs : s.step S L mv = some s') : Step S L s mv s' := by
  cases mv with
  | core i batch order =>
    simp only [step] at hs
    split at hs
    · cases hs
    rename_i hperm
    have horder : order.Perm (S.committee.broadCast i) :=
      List.isPerm_iff.mp (by simpa using hperm)
    split at hs
    · cases hs
    · rename_i w hstep hsending
      cases hs
      refine .core hstep fun dst msg rest htodo => ?_
      simp [sending, htodo] at hsending
    · rename_i w act hstep hsending
      obtain ⟨net, hnet, rfl⟩ := Option.map_eq_some_iff.mp hs
      unfold sending at hsending
      split at hsending
      · cases hsending
        exact .send horder hstep ‹_› hnet
      · cases hsending
  | pair i act =>
    obtain ⟨w, hstep, rfl⟩ := Option.map_eq_some_iff.mp hs
    exact .pair hstep
  | net act =>
    simp only [step, netStep] at hs
    split at hs
    · cases hs
    rename_i hok
    split at hs
    · cases hs
    · split at hs
      · cases hs
      · obtain ⟨hroom, hs⟩ := Option.ite_none_right_eq_some.mp hs
        obtain ⟨net, hnet, rfl⟩ := Option.map_eq_some_iff.mp hs
        exact .arrive (not_not.mp (not_or.mp hok).1) ‹_› hroom hnet
    · rename_i hsend harrive
      obtain ⟨net, hnet, rfl⟩ := Option.map_eq_some_iff.mp hs
      exact .net hsend harrive hnet

/-- A state of the system after some run. -/
def Reaches (S : Setup) (L : Links) (moves : List StackMove) (s : Stack) : Prop :=
  Machine.run (step S L) (init S) moves = some s

end Stack

namespace World

/-- The messages in flight on a link. -/
def onLink (net : List Packet) (src dst : Int) : List NetMessage :=
  net.filterMap fun p => if p.src = src ∧ p.dst = dst then some p.msg else none

@[simp] theorem onLink_append (net net' : List Packet) (src dst : Int) :
    onLink (net ++ net') src dst = onLink net src dst ++ onLink net' src dst :=
  List.filterMap_append

/-- A core or a dag does the same whatever is in flight. -/
theorem step_net {S : Setup} {nodes : Int → Node} {tr : List Event} {mv : Move} {w : World}
    (hmv : ∀ k, mv ≠ .deliver k) (h : step S ⟨nodes, [], tr⟩ mv = some w) (net : List Packet) :
    step S ⟨nodes, net, tr⟩ mv = some ⟨w.nodes, net ++ w.net, w.trace⟩ := by
  cases mv with
  | deliver k => exact absurd rfl (hmv k)
  | core i batch =>
    simp only [step] at h ⊢
    split at h
    · cases h
    · rename_i hok
      rw [if_neg hok]
      split at h
      · rename_i act rest htodo
        simp only [perform] at h ⊢
        split at h
        · cases h
          simp [setNode]
        · obtain ⟨hroom, h⟩ := Option.ite_none_right_eq_some.mp h
          cases h
          simp [setNode, hroom]
        · obtain ⟨p, hp, h⟩ := Option.bind_eq_some_iff.mp h
          cases h
          simp [setNode, hp]
        · split at h
          · obtain ⟨p, hp, h⟩ := Option.bind_eq_some_iff.mp h
            cases h
            simp [setNode, hp]
          · cases h
      · split at h
        · cases h
        · split at h <;> cases h <;> simp [setNode]
  | pair i act =>
    simp only [step] at h ⊢
    split at h
    · cases h
    · rename_i hok
      rw [if_neg hok]
      obtain ⟨p, hp, h⟩ := Option.bind_eq_some_iff.mp h
      cases h
      simp [setNode, hp]

/-- What a core puts on its way. -/
theorem net_of_core {S : Setup} {nodes : Int → Node} {tr : List Event} {i : Int} {batch : Batch}
    {w : World} (h : step S ⟨nodes, [], tr⟩ (.core i batch) = some w) :
    i ∈ S.committee.ids ∧
      ((∃ dst msg rest, (nodes i).core.todo = .send dst msg :: rest ∧
        w.net = packets S i dst msg) ∨
      (∀ dst msg rest, (nodes i).core.todo ≠ .send dst msg :: rest) ∧ w.net = []) := by
  have hother : ∀ {todo : List CoreAct}, (nodes i).core.todo = todo →
      (∀ dst msg rest, todo ≠ .send dst msg :: rest) → ∀ dst msg rest,
        (nodes i).core.todo ≠ .send dst msg :: rest := by
    rintro _ rfl hno
    exact hno
  cases step_cases h with
  | send hi htodo => exact ⟨hi, Or.inl ⟨_, _, _, htodo, rfl⟩⟩
  | loop hi htodo => exact ⟨hi, Or.inr ⟨hother htodo (by simp), rfl⟩⟩
  | dagReq hi htodo _ => exact ⟨hi, Or.inr ⟨hother htodo (by simp), rfl⟩⟩
  | build hi htodo _ _ => exact ⟨hi, Or.inr ⟨hother htodo (by simp), rfl⟩⟩
  | panic hi htodo _ _ => exact ⟨hi, Or.inr ⟨hother htodo (by simp), rfl⟩⟩
  | handle hi htodo _ _ => exact ⟨hi, Or.inr ⟨hother htodo (by simp), rfl⟩⟩

/-- The packets of a call of `Send` are what the transport is given for the members. -/
theorem onLink_packets {S : Setup} {i dst : Int} {order : List Int}
    (horder : order.Perm (S.committee.broadCast i)) (hdst : dst ∈ S.committee.ids)
    (src d : Int) (msg : NetMessage) :
    (if i = src then
      Network.addressed dst (Network.NetMessage.parts ⟨msg, Stack.addresses order d⟩)
    else []).Perm (onLink (packets S i d msg) src dst) := by
  have hfan : ∀ ids : List Int, onLink (ids.map fun d => ⟨i, d, msg⟩) src dst =
      if i = src then Network.addressed dst (ids.map fun d => (d, msg)) else [] := by
    intro ids
    by_cases hsrc : i = src <;>
      simp [onLink, Network.addressed, List.filterMap_map, hsrc]
  unfold packets Stack.addresses Network.NetMessage.parts
  by_cases hnone : d = NONE
  · rw [if_pos hnone, if_pos hnone, hfan]
    split
    · exact (horder.map _).filterMap _
    · exact List.Perm.refl _
  · rw [if_neg hnone, if_neg hnone]
    by_cases hd : d ∈ S.committee.ids
    · rw [if_pos hd]
      exact (hfan [d]) ▸ List.Perm.refl _
    · have hne : d ≠ dst := by
        rintro rfl
        exact hd hdst
      simp [hd, hne, onLink]

end World

namespace Stack

open Network (Transport TransportAct)
open World (onLink)

variable {S : Setup} {L : Links} {s s' : Stack} {w : World}
  {lost : Int → Int → List NetMessage}

/-- A world with the same processes, in which all that is on its way to a member is in flight,
and also what was lost. -/
structure Refines (S : Setup) (L : Links) (s : Stack) (w : World)
    (lost : Int → Int → List NetMessage) : Prop where
  nodes : w.nodes = s.nodes
  trace : w.trace = s.trace
  net : ∀ src, ∀ dst ∈ S.committee.ids,
    (s.net.transit L.carrier src dst ++ s.net.delayed src dst ++ lost src dst).Perm
      (onLink w.net src dst)

/-- A move of the transport without a call of `Send` or an arrival needs no move of the
world. -/
theorem Refines.quiet (h : Refines S L s w lost) {act : TransportAct Int NetMessage}
    {net : Transport Int NetMessage Remote.Frame} (hs : s.net.step L.carrier act = some net)
    (hsent : ∀ src dst, Transport.sent src dst s.net act net = [])
    (harrived : ∀ src dst, Transport.arrived src dst s.net act net = []) :
    ∃ lost', Refines S L { s with net := net } w lost' ∧ (act.fails = false → lost' = lost) := by
  choose new hnew hnone using fun src dst => Transport.transit_perm hs src dst
  refine ⟨fun src dst => new src dst ++ lost src dst,
    ⟨h.nodes, h.trace, fun src dst hdst => ?_⟩, fun hok => ?_⟩
  · have hperm := (hnew src dst).append_right (lost src dst)
    rw [hsent, harrived, List.append_nil, List.nil_append, List.append_assoc] at hperm
    exact hperm.trans (h.net src dst hdst)
  · funext src dst
    rw [hnone src dst hok, List.nil_append]

/-- A call of `Send` puts its packets into the world. -/
theorem Refines.sends (h : Refines S L s w lost) {i d : Int} {msg : NetMessage}
    {order : List Int} (horder : order.Perm (S.committee.broadCast i)) {nodes : Int → Node}
    {tr : List Event} {net : Transport Int NetMessage Remote.Frame}
    (hs : s.net.step L.carrier (.send i ⟨msg, addresses order d⟩ (delays L.ddos msg)) =
      some net) :
    Refines S L ⟨nodes, net, tr⟩ ⟨nodes, w.net ++ World.packets S i d msg, tr⟩ lost := by
  refine ⟨rfl, rfl, fun src dst hdst => ?_⟩
  obtain ⟨new, hnew, hnone⟩ := Transport.transit_perm hs src dst
  rw [hnone rfl, List.append_nil] at hnew
  have hold := (h.net src dst hdst).append (World.onLink_packets horder hdst src d msg)
  rw [List.append_assoc] at hold
  rw [World.onLink_append]
  refine (hnew.append_right (lost src dst)).trans ?_
  rw [List.append_assoc]
  exact (List.perm_append_comm.append_left _).trans hold

/-- A message that arrives is in flight. -/
theorem Refines.exists_packet (h : Refines S L s w lost) {dst : Int}
    {p : Int × NetMessage} (hdst : dst ∈ S.committee.ids) (hp : (s.net dst).handing = some p) :
    (⟨p.1, dst, p.2⟩ : Packet) ∈ w.net := by
  have hmem : p.2 ∈ s.net.transit L.carrier p.1 dst := by
    simp [Transport.transit, Network.Endpoint.incoming, hp]
  have hlink := (h.net p.1 dst hdst).subset
    (List.mem_append_left _ (List.mem_append_left _ hmem))
  obtain ⟨⟨src, dst', msg⟩, hq, hsel⟩ := List.mem_filterMap.mp hlink
  simp only [Option.ite_none_right_eq_some, Option.some.injEq] at hsel
  obtain ⟨⟨rfl, rfl⟩, rfl⟩ := hsel
  exact hq

/-- A message that arrives is delivered. -/
theorem Refines.arrives (h : Refines S L s w lost) {dst : Int} {p : Int × NetMessage}
    {net : Transport Int NetMessage Remote.Frame} (hdst : dst ∈ S.committee.ids)
    (hp : (s.net dst).handing = some p) (hroom : (s.nodes dst).recvCh.length < recvCap)
    (hs : s.net.step L.carrier (.arrive dst) = some net) :
    ∃ k w', w.step S (.deliver k) = some w' ∧ Refines S L
      ⟨Function.update s.nodes dst
        { s.nodes dst with recvCh := (s.nodes dst).recvCh ++ [p.2] }, net, s.trace⟩ w' lost := by
  obtain ⟨k, hk⟩ := List.mem_iff_getElem?.mp (h.exists_packet hdst hp)
  obtain ⟨hlt, hget⟩ := List.getElem?_eq_some_iff.mp hk
  obtain ⟨nodes, wnet, tr⟩ := w
  obtain ⟨rfl, rfl, hnet⟩ := h
  refine ⟨k, ⟨Function.update s.nodes dst
    { s.nodes dst with recvCh := (s.nodes dst).recvCh ++ [p.2] }, wnet.eraseIdx k, s.trace⟩,
    by simp [World.step, World.setNode, hk, hroom], rfl, rfl, fun src dst' hdst' => ?_⟩
  have hperm : (onLink wnet src dst').Perm
      (onLink [⟨p.1, dst, p.2⟩] src dst' ++ onLink (wnet.eraseIdx k) src dst') := by
    have hcons := (List.getElem_cons_eraseIdx_perm hlt).symm
    rw [hget] at hcons
    rw [← World.onLink_append]
    exact hcons.filterMap _
  have harrived : Transport.arrived src dst' s.net (.arrive dst) net =
      onLink [⟨p.1, dst, p.2⟩] src dst' := by
    by_cases hd : dst = dst'
    · subst hd
      by_cases hsrc : p.1 = src <;> simp [Transport.arrived, onLink, hp, hsrc]
    · simp [Transport.arrived, onLink, hd]
  obtain ⟨new, hnew, hnone⟩ := Transport.transit_perm hs src dst'
  have hsent : Transport.sent src dst' s.net (.arrive dst) net = [] := rfl
  rw [hnone rfl, harrived, hsent, List.append_nil, List.append_nil] at hnew
  have hall := (hnew.append_right (lost src dst')).trans ((hnet src dst' hdst').trans hperm)
  rw [List.append_assoc] at hall
  exact (List.perm_append_left_iff _).mp hall

/-- Every move is matched by at most one move of the world. -/
theorem Refines.step {mv : StackMove} (h : Refines S L s w lost)
    (hs : s.step S L mv = some s') :
    ∃ moves w' lost', Machine.run (World.step S) w moves = some w' ∧
      moves.flatMap Move.own = mv.own ∧ Refines S L s' w' lost' ∧
      (mv.fails = false → lost' = lost) := by
  have hmove : ∀ {mv : Move} {w₀ : World}, (∀ k, mv ≠ .deliver k) →
      s.processes.step S mv = some w₀ →
      Machine.run (World.step S) w [mv] = some ⟨w₀.nodes, w.net ++ w₀.net, w₀.trace⟩ := by
    intro mv w₀ hmv hstep
    have hw : w = ⟨s.nodes, w.net, s.trace⟩ := by rw [← h.nodes, ← h.trace]
    refine Machine.run_cons.mpr ⟨_, ?_, rfl⟩
    rw [hw]
    exact World.step_net hmv hstep w.net
  cases step_cases hs with
  | core hstep hquiet =>
    refine ⟨[.core _ _], _, lost, hmove (by simp) hstep, rfl, ⟨rfl, rfl, ?_⟩, fun _ => rfl⟩
    rcases (World.net_of_core hstep).2 with ⟨d, msg, rest, htodo, _⟩ | ⟨_, hnone⟩
    · exact absurd htodo (hquiet d msg rest)
    · rw [hnone, List.append_nil]
      exact h.net
  | send horder hstep htodo hnet =>
    refine ⟨[.core _ _], _, lost, hmove (by simp) hstep, rfl, ?_, fun _ => rfl⟩
    rcases (World.net_of_core hstep).2 with ⟨d, msg, rest, htodo', hpackets⟩ | ⟨hno, _⟩
    · cases htodo.symm.trans htodo'
      rw [hpackets]
      exact h.sends horder hnet
    · exact absurd htodo (hno _ _ _)
  | pair hstep =>
    refine ⟨[.pair _ _], _, lost, hmove (by simp) hstep, rfl, ⟨rfl, rfl, ?_⟩, fun _ => rfl⟩
    cases World.step_cases hstep
    simp only [processes, World.setNode, List.append_nil]
    exact h.net
  | arrive hdst hp hroom hnet =>
    obtain ⟨k, w', hstep, href⟩ := h.arrives hdst hp hroom hnet
    exact ⟨[.deliver k], w', lost, Machine.run_cons.mpr ⟨w', hstep, rfl⟩, rfl, href, fun _ => rfl⟩
  | @net act _ hsend harrive hnet =>
    obtain ⟨lost', href, hsame⟩ := h.quiet hnet
      (fun src dst => by
        cases act with
        | send a msg delayed => exact absurd rfl (hsend a msg delayed)
        | fire | pass | forward | run | write | read | deliver | relay | arrive => rfl)
      (fun src dst => by
        cases act with
        | arrive b => exact absurd rfl (harrive b)
        | send | fire | pass | forward | run | write | read | deliver | relay => rfl)
    exact ⟨[], w, lost', rfl, rfl, href, hsame⟩

/-- A run over the transport has a world to it. -/
theorem Reaches.refines {moves : List StackMove} (h : Reaches S L moves s) :
    ∃ wmoves w lost, World.Reaches S wmoves w ∧
      wmoves.flatMap Move.own = moves.flatMap StackMove.own ∧ Refines S L s w lost ∧
      ((∀ mv ∈ moves, mv.fails = false) → ∀ src dst, lost src dst = []) := by
  refine Machine.history (P := fun moves s => ∃ wmoves w lost, World.Reaches S wmoves w ∧
      wmoves.flatMap Move.own = moves.flatMap StackMove.own ∧ Refines S L s w lost ∧
      ((∀ mv ∈ moves, mv.fails = false) → ∀ src dst, lost src dst = []))
    ?_ ?_ (Machine.along_of_forall fun _ _ _ => trivial) h
  · exact ⟨[], World.init S, fun _ _ => [], rfl, rfl,
      ⟨rfl, rfl, fun _ _ _ => List.Perm.refl _⟩, fun _ _ _ => rfl⟩
  · rintro moves u mv t ⟨wmoves, w, lost, hw, hown, href, hlost⟩ _ hs
    obtain ⟨more, w', lost', hrun, hmore, href', hsame⟩ := href.step hs
    refine ⟨wmoves ++ more, w', lost', Machine.run_append.mpr ⟨w, hw, hrun⟩, ?_, href',
      fun hok src dst => ?_⟩
    · rw [List.flatMap_append, List.flatMap_append, hown, hmore, List.flatMap_singleton]
    · rw [hsame (hok mv (by simp))]
      exact hlost (fun mv' hmv' => hok mv' (List.mem_append_left _ hmv')) src dst

/-- **The transport is one of the networks of the world.** Whatever the processes do over
their transport, they do in a world: with the same moves of the processes, the same states and
the same trace, and with all that is still on its way to a member in flight. If no dial and no
`Write` has failed, nothing else is. -/
theorem refines_world {moves : List StackMove} (h : Reaches S L moves s) :
    ∃ wmoves w, World.Reaches S wmoves w ∧
      wmoves.flatMap Move.own = moves.flatMap StackMove.own ∧
      w.nodes = s.nodes ∧ w.trace = s.trace ∧
      (∀ src, ∀ dst ∈ S.committee.ids,
        (s.net.transit L.carrier src dst ++ s.net.delayed src dst).Subperm
          (onLink w.net src dst)) ∧
      ((∀ mv ∈ moves, mv.fails = false) → ∀ src, ∀ dst ∈ S.committee.ids,
        (s.net.transit L.carrier src dst ++ s.net.delayed src dst).Perm
          (onLink w.net src dst)) := by
  obtain ⟨wmoves, w, lost, hw, hown, href, hlost⟩ := h.refines
  refine ⟨wmoves, w, hw, hown, href.nodes, href.trace, fun src dst hdst => ?_,
    fun hok src dst hdst => ?_⟩
  · exact (List.sublist_append_left _ _).subperm.trans (href.net src dst hdst).subperm
  · have hperm := href.net src dst hdst
    rwa [hlost hok, List.append_nil] at hperm

/-- Proposals are delayed, and a connection holds one message. -/
def slowLinks : Links := ⟨true, 1, Nat.one_pos⟩

/-- The first block of member `0` waits for a timer and arrives at member `1`. Its broadcast
goes to the members `3`, `1` and `2`, in this order. -/
def firstArrival : List StackMove :=
  let core := .core 0 ⟨-1, []⟩ [3, 1, 2]
  [core, .pair 0 (.dag []), core, core, .net (.fire 0 0), .net (.pass 0), .net (.forward 0),
   .net (.run 0 .next), .net (.run 0 (.dial true)), .net (.run 0 (.dial true)),
   .net (.run 0 (.take 1)), .net (.write 0 1 true), .net (.read 0 1), .net (.deliver 0 1),
   .net (.relay 1), .net (.arrive 1)]

/-- The first arrival happens in a world as well. -/
theorem refines_world_firstArrival : ∃ s, Reaches World.fourNodes slowLinks firstArrival s ∧
    (s.nodes 1).recvCh.length = 1 ∧
    ∃ wmoves w, World.Reaches World.fourNodes wmoves w ∧ w.nodes = s.nodes ∧
      w.trace = s.trace := by
  obtain ⟨s, hs, hlen⟩ : ∃ s ∈ Machine.run (step World.fourNodes slowLinks)
      (init World.fourNodes) firstArrival, (s.nodes 1).recvCh.length = 1 := by decide +kernel
  obtain ⟨wmoves, w, hw, _, hnodes, htrace, _⟩ := refines_world hs
  exact ⟨s, hs, hlen, wmoves, w, hw, hnodes, htrace⟩

end Stack

end Loom
