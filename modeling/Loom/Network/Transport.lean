import Loom.Network.Sender
import Mathlib.Data.List.Perm.Subperm

/-!
# The transport

A message goes a long way from `Transmitor.Send` of one process to `recvCh` of another one:
the channel of the transmitor, the goroutine that empties it, the sender with its writers, a
connection, the goroutine that serves the connection, the channel of the receiver, and the
goroutine that empties that one. With `DDos` a proposal first waits for a timer. Every stage
is a bounded queue or a single message in hand, so a link keeps the order of what is put into
the channel of the transmitor; only the timers change it. A dial or a `Write` that fails loses
messages, and nothing else does.
-/

namespace Loom.Network

variable {A M F : Type}

/-- The two directions of the codec. -/
structure Coding (M F : Type) where
  encode : M → F
  decode : F → Option M
  decode_encode : ∀ msg, decode (encode msg) = some msg

/-- The codec over connections whose buffers hold so many messages before a `Write` waits. -/
structure Carrier (M F : Type) extends Coding M F where
  window : Nat
  window_pos : 0 < window

/-- The receiving end of a connection: what is on its way, the message that `serveConn` has
in hand, and whether `serveConn` is running. -/
structure Wire (M F : Type) where
  stream : List F
  hand : Option M
  serving : Bool

/-- What the transport keeps in one process. A received message comes with the address of its
sender, which the code does not keep. -/
structure Endpoint (A M F : Type) where
  /-- `Transmitor.msgCh`. -/
  msgCh : List (NetMessage A M)
  /-- The messages that wait for `AfterFunc`. -/
  timers : List (NetMessage A M)
  /-- The message on its way from `msgCh` to the sender. -/
  passing : Option (NetMessage A M)
  sender : Sender A M
  /-- The connections that others have dialled. -/
  wires : A → Wire M F
  /-- `Receiver.msg`. -/
  received : List (A × M)
  /-- The message on its way from the receiver to `recvCh`. -/
  handing : Option (A × M)

def newEndpoint : Endpoint A M F := ⟨[], [], none, newSender, fun _ => ⟨[], none, true⟩, [], none⟩

/-- The transport of all processes. -/
abbrev Transport (A M F : Type) := A → Endpoint A M F

/-- What can happen next. -/
inductive TransportAct (A M : Type) where
  /-- A call of `Transmitor.Send`, with or without a timer. -/
  | send (src : A) (msg : NetMessage A M) (delayed : Bool)
  /-- A timer is over and its message goes into `msgCh`. -/
  | fire (src : A) (k : Nat)
  /-- The next message is taken from `msgCh`. -/
  | pass (src : A)
  /-- It is given to the sender. -/
  | forward (src : A)
  /-- `Run` or a writer of the sender moves. -/
  | run (src : A) (act : SenderAct A M)
  /-- The `Write` of a writer returns. -/
  | write (src dst : A) (ok : Bool)
  /-- `serveConn` reads the next message of a connection. -/
  | read (src dst : A)
  /-- It puts the message into the channel of the receiver. -/
  | deliver (src dst : A)
  /-- The next message is taken from there. -/
  | relay (dst : A)
  /-- It is put into `recvCh`, which is a channel of the core: there has to be room. -/
  | arrive (dst : A)
  deriving DecidableEq, Repr

/-- The process whose goroutine moves. -/
def TransportAct.process : TransportAct A M → A
  | .send src _ _ => src
  | .fire src _ => src
  | .pass src => src
  | .forward src => src
  | .run src _ => src
  | .write src _ _ => src
  | .read _ dst => dst
  | .deliver _ dst => dst
  | .relay dst => dst
  | .arrive dst => dst

/-- The moves of `Run` and of the writers up to their `Write`. -/
def SenderAct.ofRun : SenderAct A M → Bool
  | .send _ => false
  | .write _ _ => false
  | _ => true

namespace Transport

section Model

variable [DecidableEq A] (cd : Carrier M F)

/-- Replace the sender of one process. -/
def setSender (T : Transport A M F) (src : A) (s : Sender A M) : Transport A M F :=
  Function.update T src { T src with sender := s }

/-- Replace the receiving end of one connection. -/
def setWire (T : Transport A M F) (src dst : A) (w : Wire M F) : Transport A M F :=
  Function.update T dst { T dst with wires := Function.update (T dst).wires src w }

/-- One move; `none` if it is blocked or impossible. -/
def step (T : Transport A M F) : TransportAct A M → Option (Transport A M F)
  | .send src msg delayed =>
    let e := T src
    if delayed then some (Function.update T src { e with timers := e.timers ++ [msg] })
    else if e.msgCh.length < chanCap then
      some (Function.update T src { e with msgCh := e.msgCh ++ [msg] })
    else none
  | .fire src k =>
    let e := T src
    match e.timers[k]? with
    | none => none
    | some msg =>
      if e.msgCh.length < chanCap then
        some (Function.update T src
          { e with timers := e.timers.eraseIdx k, msgCh := e.msgCh ++ [msg] })
      else none
  | .pass src =>
    let e := T src
    match e.passing, e.msgCh with
    | none, msg :: rest =>
      some (Function.update T src { e with msgCh := rest, passing := some msg })
    | _, _ => none
  | .forward src =>
    let e := T src
    match e.passing with
    | none => none
    | some msg => (e.sender.step (.send msg)).map fun s =>
        Function.update T src { e with passing := none, sender := s }
  | .run src act =>
    if act.ofRun then ((T src).sender.step act).map (T.setSender src) else none
  | .write src dst ok =>
    let w := (T dst).wires src
    if ok ∧ cd.window ≤ w.stream.length then none else
    ((T src).sender.step (.write dst ok)).map fun s =>
      let frames := (Sender.written (T src).sender (.write dst ok) s).map fun p => cd.encode p.2
      (T.setSender src s).setWire src dst { w with stream := w.stream ++ frames }
  | .read src dst =>
    match (T dst).wires src with
    | ⟨f :: rest, none, true⟩ =>
      match cd.decode f with
      | none => some (T.setWire src dst ⟨rest, none, false⟩)
      | some msg => some (T.setWire src dst ⟨rest, some msg, true⟩)
    | _ => none
  | .deliver src dst =>
    let e := T dst
    match (e.wires src).hand with
    | none => none
    | some msg =>
      if e.received.length < chanCap then
        some (Function.update T dst { e with
          received := e.received ++ [(src, msg)]
          wires := Function.update e.wires src { e.wires src with hand := none } })
      else none
  | .relay dst =>
    let e := T dst
    match e.handing, e.received with
    | none, p :: rest => some (Function.update T dst { e with received := rest, handing := some p })
    | _, _ => none
  | .arrive dst =>
    let e := T dst
    match e.handing with
    | none => none
    | some _ => some (Function.update T dst { e with handing := none })

def init : Transport A M F := fun _ => newEndpoint

/-- The ways in which the moves go on. -/
inductive Step (T : Transport A M F) : TransportAct A M → Transport A M F → Prop
  | delay {src msg} : Step T (.send src msg true)
      (Function.update T src { T src with timers := (T src).timers ++ [msg] })
  | send {src msg} : (T src).msgCh.length < chanCap → Step T (.send src msg false)
      (Function.update T src { T src with msgCh := (T src).msgCh ++ [msg] })
  | fire {src k msg} : (T src).timers[k]? = some msg → (T src).msgCh.length < chanCap →
      Step T (.fire src k) (Function.update T src
        { T src with timers := (T src).timers.eraseIdx k, msgCh := (T src).msgCh ++ [msg] })
  | pass {src msg rest} : (T src).passing = none → (T src).msgCh = msg :: rest →
      Step T (.pass src)
        (Function.update T src { T src with msgCh := rest, passing := some msg })
  | forward {src msg s} : (T src).passing = some msg →
      (T src).sender.step (.send msg) = some s →
      Step T (.forward src) (Function.update T src { T src with passing := none, sender := s })
  | run {src act s} : act.ofRun = true → (T src).sender.step act = some s →
      Step T (.run src act) (T.setSender src s)
  | write {src dst ok s} : (T src).sender.step (.write dst ok) = some s →
      Step T (.write src dst ok) ((T.setSender src s).setWire src dst { (T dst).wires src with
        stream := ((T dst).wires src).stream ++
          (Sender.written (T src).sender (.write dst ok) s).map fun p => cd.encode p.2 })
  | close {src dst f rest} : (T dst).wires src = ⟨f :: rest, none, true⟩ →
      cd.decode f = none → Step T (.read src dst) (T.setWire src dst ⟨rest, none, false⟩)
  | read {src dst f rest msg} : (T dst).wires src = ⟨f :: rest, none, true⟩ →
      cd.decode f = some msg → Step T (.read src dst) (T.setWire src dst ⟨rest, some msg, true⟩)
  | deliver {src dst msg} : ((T dst).wires src).hand = some msg →
      (T dst).received.length < chanCap →
      Step T (.deliver src dst) (Function.update T dst { T dst with
        received := (T dst).received ++ [(src, msg)]
        wires := Function.update (T dst).wires src { (T dst).wires src with hand := none } })
  | relay {dst p rest} : (T dst).handing = none → (T dst).received = p :: rest →
      Step T (.relay dst)
        (Function.update T dst { T dst with received := rest, handing := some p })
  | arrive {dst p} : (T dst).handing = some p →
      Step T (.arrive dst) (Function.update T dst { T dst with handing := none })

variable {cd} in
/-- Every move is one of these. -/
theorem step_cases {T T' : Transport A M F} {act : TransportAct A M}
    (hs : T.step cd act = some T') : Step cd T act T' := by
  cases act with
  | send src msg delayed =>
    simp only [step] at hs
    cases delayed with
    | true =>
      cases hs
      exact .delay
    | false =>
      obtain ⟨hroom, hs⟩ := Option.ite_none_right_eq_some.mp hs
      cases hs
      exact .send hroom
  | fire src k =>
    simp only [step] at hs
    split at hs
    · cases hs
    · obtain ⟨hroom, hs⟩ := Option.ite_none_right_eq_some.mp hs
      cases hs
      exact .fire ‹_› hroom
  | pass src =>
    simp only [step] at hs
    split at hs <;> cases hs
    exact .pass ‹_› ‹_›
  | forward src =>
    simp only [step] at hs
    split at hs
    · cases hs
    · obtain ⟨s, hsend, rfl⟩ := Option.map_eq_some_iff.mp hs
      exact .forward ‹_› hsend
  | run src act =>
    obtain ⟨hrun, hs⟩ := Option.ite_none_right_eq_some.mp hs
    obtain ⟨s, hact, rfl⟩ := Option.map_eq_some_iff.mp hs
    exact .run hrun hact
  | write src dst ok =>
    simp only [step] at hs
    obtain ⟨s, hwrite, rfl⟩ := Option.map_eq_some_iff.mp (Option.ite_none_left_eq_some.mp hs).2
    exact .write hwrite
  | read src dst =>
    simp only [step] at hs
    split at hs
    · split at hs <;> cases hs
      · exact .close ‹_› ‹_›
      · exact .read ‹_› ‹_›
    · cases hs
  | deliver src dst =>
    simp only [step] at hs
    split at hs
    · cases hs
    · obtain ⟨hroom, hs⟩ := Option.ite_none_right_eq_some.mp hs
      cases hs
      exact .deliver ‹_› hroom
  | relay dst =>
    simp only [step] at hs
    split at hs <;> cases hs
    exact .relay ‹_› ‹_›
  | arrive dst =>
    simp only [step] at hs
    split at hs <;> cases hs
    exact .arrive ‹_›

end Model

end Transport

/-! ## What is on a link -/

/-- The messages for one address. -/
def addressed [DecidableEq A] (addr : A) (ps : List (A × M)) : List M :=
  ps.filterMap fun p => if p.1 = addr then some p.2 else none

/-- A message, once for each address. -/
def NetMessage.parts (msg : NetMessage A M) : List (A × M) :=
  msg.address.map fun addr => (addr, msg.msg)

section Addressed

variable [DecidableEq A] (addr : A)

@[simp] theorem addressed_nil : addressed addr ([] : List (A × M)) = [] := rfl

@[simp] theorem addressed_cons (p : A × M) (ps : List (A × M)) :
    addressed addr (p :: ps) = (if p.1 = addr then [p.2] else []) ++ addressed addr ps := by
  by_cases hp : p.1 = addr <;> simp [addressed, hp]

@[simp] theorem addressed_append (ps qs : List (A × M)) :
    addressed addr (ps ++ qs) = addressed addr ps ++ addressed addr qs :=
  List.filterMap_append

end Addressed

/-- A dial or a `Write` that fails. -/
def SenderAct.fails : SenderAct A M → Bool
  | .dial ok => !ok
  | .write _ ok => !ok
  | _ => false

/-- The messages that a connection has not written yet. -/
def Conn.queued (c : Conn M) : List M := c.writing.toList ++ c.msgCh

namespace Sender

variable [DecidableEq A] {s t : Sender A M} {act : SenderAct A M}

/-- The messages for an address that the sender has not written yet. -/
def queued (s : Sender A M) (addr : A) : List M :=
  ((s.conns.lookup addr).map Conn.queued).getD [] ++ addressed addr s.pending

/-- What a call of `Send` brings for an address. -/
def brought (addr : A) : SenderAct A M → List M
  | .send msg => addressed addr msg.parts
  | _ => []

/-- A sender neither loses nor reorders what is for one address, as long as nothing fails. -/
theorem queued_step (hs : s.step act = some t) (hok : act.fails = false) (addr : A) :
    addressed addr (written s act t) ++ t.queued addr = s.queued addr ++ brought addr act := by
  cases step_cases hs with
  | send => simp [queued, pending, written, brought, NetMessage.parts]
  | next htodo hmsgCh => simp [queued, pending, written, brought, htodo, hmsgCh]
  | @dial addr' msg rest htodo hnone =>
    by_cases haddr : addr = addr'
    · subst haddr
      simp [queued, pending, written, brought, Conn.queued, htodo, hnone]
    · simp [queued, pending, written, brought, htodo, haddr, Ne.symm haddr]
  | refused => cases hok
  | @enqueue addr' msg rest c htodo hc _ =>
    by_cases haddr : addr = addr'
    · subst haddr
      simp [queued, pending, written, brought, Conn.queued, htodo, hc]
    · simp [queued, pending, written, brought, htodo, haddr, Ne.symm haddr]
  | @take addr' msg rest hc =>
    by_cases haddr : addr = addr'
    · subst haddr
      simp [queued, pending, written, brought, Conn.queued, hc]
    · simp [queued, pending, written, brought, haddr]
  | @write addr' msgCh msg ok hc =>
    have hok : ok = true := by simpa [SenderAct.fails] using hok
    subst hok
    by_cases haddr : addr = addr'
    · subst haddr
      simp [queued, pending, written, brought, Conn.queued, hc]
    · simp [queued, pending, written, brought, hc, haddr, Ne.symm haddr]

/-- A failure loses messages, but reorders none. -/
theorem queued_fail (hs : s.step act = some t) (hfail : act.fails = true) (addr : A) :
    written s act t = [] ∧ (t.queued addr).Sublist (s.queued addr) := by
  cases step_cases hs with
  | send | next | dial | enqueue | take => cases hfail
  | refused htodo _ =>
    refine ⟨rfl, List.Sublist.append_left ?_ _⟩
    simp only [pending, htodo, List.cons_append, addressed_cons]
    exact List.sublist_append_right _ _
  | @write addr' msgCh msg ok hc =>
    have hok : ok = false := by simpa [SenderAct.fails] using hfail
    subst hok
    refine ⟨rfl, List.Sublist.append_right ?_ _⟩
    by_cases haddr : addr = addr'
    · subst haddr
      simp [Conn.queued, hc]
    · simp [haddr]

end Sender

/-- The messages on a connection. -/
def Wire.content (cd : Carrier M F) (w : Wire M F) : List M :=
  w.hand.toList ++ w.stream.filterMap cd.decode

/-- What has been written is on the connection. -/
theorem Wire.content_write {cd : Carrier M F} {w : Wire M F} {ps : List (A × M)} :
    ({ w with stream := w.stream ++ ps.map fun p => cd.encode p.2 } : Wire M F).content cd =
      w.content cd ++ ps.map (·.2) := by
  have hread : (ps.map fun p => cd.encode p.2).filterMap cd.decode = ps.map (·.2) := by
    rw [List.filterMap_map, ← List.filterMap_eq_map]
    congr 1
    funext p
    exact cd.decode_encode p.2
  simp [Wire.content, hread]

namespace Endpoint

variable [DecidableEq A] (cd : Carrier M F) (e : Endpoint A M F)

/-- The messages for a process that have not been written yet. -/
def outgoing (dst : A) : List M :=
  e.sender.queued dst ++ addressed dst ((e.passing.toList ++ e.msgCh).flatMap NetMessage.parts)

/-- The messages from a process that have been written and not put into `recvCh` yet. -/
def incoming (src : A) : List M :=
  addressed src (e.handing.toList ++ e.received) ++ (e.wires src).content cd

end Endpoint

/-- A move that loses messages. -/
def TransportAct.fails : TransportAct A M → Bool
  | .run _ act => act.fails
  | .write _ _ ok => !ok
  | _ => false

/-- A call of `Send` that sets a timer. -/
def TransportAct.delays : TransportAct A M → Bool
  | .send _ _ delayed => delayed
  | _ => false

namespace Transport

variable [DecidableEq A] {cd : Carrier M F} {T T' : Transport A M F} {act : TransportAct A M}
  {src dst : A}

/-- The messages on a link, the one that arrives next first. -/
def transit (cd : Carrier M F) (T : Transport A M F) (src dst : A) : List M :=
  (T dst).incoming cd src ++ (T src).outgoing dst

/-- The messages for a link that wait for a timer. -/
def delayed (T : Transport A M F) (src dst : A) : List M :=
  addressed dst ((T src).timers.flatMap NetMessage.parts)

/-- What a call of `Send` brings for a link. -/
def sent (src dst : A) (_ : Transport A M F) (act : TransportAct A M) (_ : Transport A M F) :
    List M :=
  match act with
  | .send a msg _ => if a = src then addressed dst msg.parts else []
  | _ => []

/-- What a move puts into `Transmitor.msgCh` for a link. -/
def entered (src dst : A) (T : Transport A M F) (act : TransportAct A M) (_ : Transport A M F) :
    List M :=
  match act with
  | .send a msg false => if a = src then addressed dst msg.parts else []
  | .fire a k =>
    if a = src then addressed dst ((T a).timers[k]?.toList.flatMap NetMessage.parts) else []
  | _ => []

/-- What a move puts into `recvCh` from a link. -/
def arrived (src dst : A) (T : Transport A M F) (act : TransportAct A M) (_ : Transport A M F) :
    List M :=
  match act with
  | .arrive b => if b = dst then addressed src (T b).handing.toList else []
  | _ => []

/-- A move of one sending end. -/
theorem transit_sender {a : A} {e : Endpoint A M F}
    (hin : ∀ src, e.incoming cd src = (T a).incoming cd src) :
    transit cd (Function.update T a e) src dst =
      (T dst).incoming cd src ++ if src = a then e.outgoing dst else (T src).outgoing dst := by
  simp only [transit, Function.update_apply]
  congr 1
  · split
    · rename_i hdst
      rw [hdst, hin]
    · rfl
  · split <;> rfl

/-- A move of one receiving end. -/
theorem transit_receiver {b : A} {e : Endpoint A M F}
    (hout : ∀ dst, e.outgoing dst = (T b).outgoing dst) :
    transit cd (Function.update T b e) src dst =
      (if dst = b then e.incoming cd src else (T dst).incoming cd src) ++ (T src).outgoing dst := by
  simp only [transit, Function.update_apply]
  congr 1
  · split <;> rfl
  · split
    · rename_i hsrc
      rw [hsrc, hout]
    · rfl

private theorem incoming_setSender {a : A} {s : Sender A M} :
    (T.setSender a s dst).incoming cd src = (T dst).incoming cd src := by
  unfold setSender
  by_cases hdst : dst = a
  · subst hdst
    rw [Function.update_self]
    rfl
  · rw [Function.update_of_ne hdst]

private theorem outgoing_setSender {a : A} {s : Sender A M} : (T.setSender a s src).outgoing dst =
    if src = a then s.queued dst ++ addressed dst
      (((T a).passing.toList ++ (T a).msgCh).flatMap NetMessage.parts)
    else (T src).outgoing dst := by
  unfold setSender
  by_cases hsrc : src = a
  · subst hsrc
    rw [Function.update_self, if_pos rfl]
    rfl
  · rw [Function.update_of_ne hsrc, if_neg hsrc]

/-- More messages on one connection. -/
theorem transit_setWire {a b : A} {w : Wire M F} {ms : List M}
    (hw : w.content cd = ((T b).wires a).content cd ++ ms) :
    transit cd (T.setWire a b w) src dst = (T dst).incoming cd src ++
      ((if src = a ∧ dst = b then ms else []) ++ (T src).outgoing dst) := by
  refine (transit_receiver (b := b) (e := { T b with
    wires := Function.update (T b).wires a w }) fun _ => rfl).trans ?_
  by_cases hdst : dst = b
  · subst hdst
    by_cases hsrc : src = a
    · subst hsrc
      simp [Endpoint.incoming, hw]
    · simp [Endpoint.incoming, hsrc]
  · simp [hdst]

/-- All that a `Write` to an address writes is for that address. -/
theorem addressed_written {s s' : Sender A M} {a b : A} {ok : Bool} :
    addressed b (Sender.written s (.write a ok) s') =
      if b = a then (Sender.written s (.write a ok) s').map (·.2) else [] := by
  cases ok with
  | false => simp [Sender.written]
  | true =>
    simp only [Sender.written]
    cases ((s.conns.lookup a).bind (·.writing)) with
    | none => simp
    | some msg => simp [eq_comm]

/-- What one connection holds is read or decoded, and nothing is added. -/
private theorem transit_wire {a b : A} {w : Wire M F}
    (hw : w.content cd = ((T b).wires a).content cd) :
    transit cd (T.setWire a b w) src dst = transit cd T src dst := by
  have hnothing : w.content cd = ((T b).wires a).content cd ++ [] := by
    rw [hw, List.append_nil]
  rw [transit_setWire hnothing]
  simp [transit]

/-- A `Write` moves what it writes from the sending to the receiving end. -/
theorem transit_write {a b : A} {ok : Bool} {s : Sender A M} :
    transit cd ((T.setSender a s).setWire a b { (T b).wires a with
        stream := ((T b).wires a).stream ++
          (Sender.written (T a).sender (.write b ok) s).map fun p => cd.encode p.2 }) src dst =
      (T dst).incoming cd src ++
      if src = a then (addressed dst (Sender.written (T a).sender (.write b ok) s) ++
        s.queued dst) ++
        addressed dst (((T a).passing.toList ++ (T a).msgCh).flatMap NetMessage.parts)
      else (T src).outgoing dst := by
  have hwires : (T.setSender a s b).wires a = (T b).wires a := by
    unfold setSender
    rw [Function.update_apply]
    split
    · rename_i hb
      rw [hb]
    · rfl
  rw [transit_setWire (by rw [Wire.content_write, hwires]), incoming_setSender,
    outgoing_setSender, addressed_written]
  congr 1
  by_cases hsrc : src = a <;> by_cases hdst : dst = b <;> simp [hsrc, hdst]

/-- A move that does not fail keeps what is on a link and its order: messages enter at the
back and arrive from the front. -/
theorem transit_step (hs : T.step cd act = some T') (hok : act.fails = false) :
    arrived src dst T act T' ++ transit cd T' src dst =
      transit cd T src dst ++ entered src dst T act T' := by
  cases step_cases hs with
  | @delay a =>
    rw [transit_sender (by exact fun _ => rfl)]
    by_cases hsrc : src = a <;> simp [hsrc, arrived, entered, transit, Endpoint.outgoing]
  | @send a =>
    rw [transit_sender (by exact fun _ => rfl)]
    by_cases hsrc : src = a
    · simp [hsrc, arrived, entered, transit, Endpoint.outgoing]
    · simp [hsrc, Ne.symm hsrc, arrived, entered, transit]
  | @fire a k msg hmsg _ =>
    rw [transit_sender (by exact fun _ => rfl)]
    by_cases hsrc : src = a
    · simp [hsrc, hmsg, arrived, entered, transit, Endpoint.outgoing]
    · simp [hsrc, Ne.symm hsrc, arrived, entered, transit]
  | @pass a msg rest hpassing hmsgCh =>
    rw [transit_sender (by exact fun _ => rfl)]
    by_cases hsrc : src = a
    · simp [hsrc, hpassing, hmsgCh, arrived, entered, transit, Endpoint.outgoing]
    · simp [hsrc, arrived, entered, transit]
  | @forward a msg s hpassing hsend =>
    have hq := Sender.queued_step hsend rfl dst
    rw [transit_sender (by exact fun _ => rfl)]
    by_cases hsrc : src = a
    · simp only [Sender.written, Sender.brought, addressed_nil, List.nil_append] at hq
      simp [hsrc, hpassing, hq, arrived, entered, transit, Endpoint.outgoing]
    · simp [hsrc, arrived, entered, transit]
  | @run a act s hrun hact =>
    have hq := Sender.queued_step hact hok dst
    have hnone : Sender.written (T a).sender act s = [] ∧ Sender.brought dst act = [] := by
      cases act <;> first | exact ⟨rfl, rfl⟩ | cases hrun
    rw [hnone.1, hnone.2, addressed_nil, List.nil_append, List.append_nil] at hq
    rw [transit, incoming_setSender, outgoing_setSender, hq]
    by_cases hsrc : src = a
    · simp [hsrc, arrived, entered, transit, Endpoint.outgoing]
    · simp [hsrc, arrived, entered, transit]
  | @write a b ok s hwrite =>
    rw [transit_write, Sender.queued_step hwrite hok]
    by_cases hsrc : src = a
    · simp [hsrc, arrived, entered, transit, Endpoint.outgoing, Sender.brought]
    · simp [hsrc, arrived, entered, transit]
  | close hwire hnone =>
    rw [transit_wire (by simp [Wire.content, hwire, hnone])]
    simp [arrived, entered]
  | read hwire hsome =>
    rw [transit_wire (by simp [Wire.content, hwire, hsome])]
    simp [arrived, entered]
  | @deliver a b msg hhand _ =>
    rw [transit_receiver (by exact fun _ => rfl)]
    by_cases hdst : dst = b
    · by_cases hsrc : src = a
      · simp [hdst, hsrc, hhand, arrived, entered, transit, Endpoint.incoming, Wire.content]
      · simp [hdst, hsrc, Ne.symm hsrc, arrived, entered, transit, Endpoint.incoming]
    · simp [hdst, arrived, entered, transit]
  | @relay b p rest hhanding hreceived =>
    rw [transit_receiver (by exact fun _ => rfl)]
    by_cases hdst : dst = b
    · simp [hdst, hhanding, hreceived, arrived, entered, transit, Endpoint.incoming]
    · simp [hdst, arrived, entered, transit]
  | @arrive b p hhanding =>
    rw [transit_receiver (by exact fun _ => rfl)]
    by_cases hdst : dst = b
    · simp [hdst, hhanding, arrived, entered, transit, Endpoint.incoming]
    · simp [hdst, Ne.symm hdst, arrived, entered, transit]

/-- A failure loses messages of a link, but reorders none. -/
theorem transit_fail (hs : T.step cd act = some T') (hfail : act.fails = true) (src dst : A) :
    arrived src dst T act T' = [] ∧ entered src dst T act T' = [] ∧
      (transit cd T' src dst).Sublist (transit cd T src dst) := by
  cases step_cases hs with
  | delay | send | fire | pass | forward | close | read | deliver | relay | arrive => cases hfail
  | @run a act s _ hact =>
    have hq := (Sender.queued_fail hact hfail dst).2
    refine ⟨rfl, rfl, ?_⟩
    rw [transit, incoming_setSender, outgoing_setSender]
    by_cases hsrc : src = a
    · subst hsrc
      rw [if_pos rfl]
      exact (hq.append_right _).append_left _
    · rw [if_neg hsrc]
      exact List.Sublist.refl _
  | @write a b ok s hwrite =>
    obtain ⟨hnone, hq⟩ := Sender.queued_fail hwrite hfail dst
    refine ⟨rfl, rfl, ?_⟩
    rw [transit_write, hnone, addressed_nil, List.nil_append]
    by_cases hsrc : src = a
    · subst hsrc
      rw [if_pos rfl]
      exact (hq.append_right _).append_left _
    · rw [if_neg hsrc]
      exact List.Sublist.refl _

/-- Whatever happens, a link adds nothing and keeps the order. -/
theorem transit_sublist (hs : T.step cd act = some T') (src dst : A) :
    (arrived src dst T act T' ++ transit cd T' src dst).Sublist
      (transit cd T src dst ++ entered src dst T act T') := by
  cases hfail : act.fails with
  | false => rw [transit_step hs hfail]
  | true =>
    obtain ⟨harrived, hentered, hsub⟩ := transit_fail hs hfail src dst
    rw [harrived, hentered, List.nil_append, List.append_nil]
    exact hsub

/-- Only calls of `Send` and timers that are over change the timers. -/
theorem timers_step (hs : T.step cd act = some T') (src dst : A) :
    (∃ a msg, act = .send a msg true ∧
      ∀ x, (T' x).timers = (T x).timers ++ if x = a then [msg] else []) ∨
    (∃ a k msg, act = .fire a k ∧ (T a).timers[k]? = some msg ∧
      ∀ x, (T' x).timers = if x = a then (T a).timers.eraseIdx k else (T x).timers) ∨
    entered src dst T act T' = sent src dst T act T' ∧ ∀ x, (T' x).timers = (T x).timers := by
  have hsame : ∀ {T : Transport A M F} {a : A} {e : Endpoint A M F}, e.timers = (T a).timers →
      ∀ x, (Function.update T a e x).timers = (T x).timers := by
    intro T a e he x
    rw [Function.update_apply]
    split
    · rename_i hx
      rw [hx, he]
    · rfl
  cases step_cases hs with
  | @delay a msg =>
    refine Or.inl ⟨a, msg, rfl, fun x => ?_⟩
    by_cases hx : x = a
    · subst hx
      simp
    · simp [hx]
  | @fire a k msg hmsg _ =>
    refine Or.inr (Or.inl ⟨a, k, msg, rfl, hmsg, fun x => ?_⟩)
    rw [Function.update_apply]
    split <;> rfl
  | @write a b ok s _ =>
    refine Or.inr (Or.inr ⟨rfl, fun x => ?_⟩)
    have hsender : (T.setSender a s x).timers = (T x).timers := by
      apply hsame
      rfl
    rw [← hsender]
    apply hsame
    rfl
  | send | pass | forward | run | close | read | deliver | relay | arrive =>
    exact Or.inr (Or.inr ⟨rfl, hsame rfl⟩)

/-- What waits for a timer has been sent, and enters `msgCh` once. -/
theorem delayed_step (hs : T.step cd act = some T') (src dst : A) :
    (entered src dst T act T' ++ delayed T' src dst).Perm
      (delayed T src dst ++ sent src dst T act T') := by
  rcases timers_step hs src dst with ⟨a, msg, rfl, htimers⟩ |
    ⟨a, k, msg, rfl, hmsg, htimers⟩ | ⟨heq, htimers⟩
  · simp only [entered, sent, delayed, htimers, List.nil_append]
    by_cases hsrc : src = a
    · simp [hsrc]
    · simp [hsrc, Ne.symm hsrc]
  · simp only [entered, sent, delayed, htimers, hmsg, List.append_nil]
    by_cases hsrc : src = a
    · subst hsrc
      obtain ⟨hlt, hget⟩ := List.getElem?_eq_some_iff.mp hmsg
      have hperm := (List.getElem_cons_eraseIdx_perm hlt).flatMap_right NetMessage.parts
      rw [hget, List.flatMap_cons] at hperm
      have hparts := hperm.filterMap fun p => if p.1 = dst then some p.2 else none
      simpa [addressed] using hparts
    · simp [hsrc, Ne.symm hsrc]
  · simp only [delayed, htimers, heq]
    exact List.perm_append_comm

/-- With the timers counted in, a link still adds nothing, and it loses nothing unless there
is a failure. -/
theorem transit_perm (hs : T.step cd act = some T') (src dst : A) : ∃ lost,
    (arrived src dst T act T' ++ (transit cd T' src dst ++ delayed T' src dst) ++ lost).Perm
      (transit cd T src dst ++ delayed T src dst ++ sent src dst T act T') ∧
    (act.fails = false → lost = []) := by
  have htimers := (delayed_step hs src dst).append_left (transit cd T src dst)
  rw [← List.append_assoc, ← List.append_assoc] at htimers
  cases hfail : act.fails with
  | false =>
    refine ⟨[], ?_, fun _ => rfl⟩
    rw [List.append_nil, ← List.append_assoc, transit_step hs hfail]
    exact htimers
  | true =>
    obtain ⟨lost, hlost⟩ := (transit_sublist hs src dst).exists_perm_append
    refine ⟨lost, ?_, fun h => by cases h⟩
    refine List.Perm.trans ?_ ((hlost.append_right (delayed T' src dst)).symm.trans htimers)
    simp only [List.append_assoc]
    exact (List.perm_append_comm.append_left _).append_left _

/-- So no more arrives than was sent. -/
theorem transit_subperm (hs : T.step cd act = some T') (src dst : A) :
    (arrived src dst T act T' ++ (transit cd T' src dst ++ delayed T' src dst)).Subperm
      (transit cd T src dst ++ delayed T src dst ++ sent src dst T act T') := by
  obtain ⟨lost, hperm, _⟩ := transit_perm hs src dst
  exact (List.sublist_append_left _ lost).subperm.trans hperm.subperm

/-- Without timers all that is sent enters `msgCh` at once. -/
theorem entered_eq_sent (hs : T.step cd act = some T') (hdelays : act.delays = false)
    (h : ∀ a, (T a).timers = []) : entered src dst T act T' = sent src dst T act T' := by
  rcases timers_step hs src dst with ⟨a, msg, rfl, _⟩ |
    ⟨a, k, msg, rfl, hmsg, _⟩ | ⟨heq, _⟩
  · cases hdelays
  · rw [h] at hmsg
    cases hmsg
  · exact heq

private theorem timers_nil (hs : T.step cd act = some T') (hdelays : act.delays = false)
    (h : ∀ a, (T a).timers = []) (a : A) : (T' a).timers = [] := by
  rcases timers_step hs a a with ⟨b, msg, rfl, _⟩ |
    ⟨b, k, msg, rfl, hmsg, _⟩ | ⟨_, htimers⟩
  · cases hdelays
  · rw [h] at hmsg
    cases hmsg
  · exact (htimers a).trans (h a)

/-- Along a run that sets no timer, none is waited for. -/
theorem along_timers_nil {acts : List (TransportAct A M)} {q : TransportAct A M → Prop}
    (hdelays : ∀ act, q act → act.delays = false) (hq : ∀ act ∈ acts, q act) :
    Machine.Along (step cd) (fun T act => (∀ a, (T a).timers = []) ∧ q act) init acts := by
  refine (Machine.along_of_forall fun act hact _ => hq act hact).keep ?_ fun _ => rfl
  intro T act T' hnil hact hs
  exact timers_nil hs (hdelays act hact) hnil

/-- **A link keeps the order.** What arrives from a process has been sent by it, once for
each time that it arrives. Without timers it arrives in the order of the calls of `Send`, and
as long as nothing fails either, what has not arrived is still on its way. -/
theorem link_order {acts : List (TransportAct A M)}
    (hrun : Machine.run (step cd) init acts = some T) (src dst : A) :
    (Machine.outputs (step cd) (arrived src dst) init acts).Subperm
        (Machine.outputs (step cd) (sent src dst) init acts) ∧
    ((∀ act ∈ acts, act.delays = false) →
      (Machine.outputs (step cd) (arrived src dst) init acts).Sublist
        (Machine.outputs (step cd) (sent src dst) init acts)) ∧
    ((∀ act ∈ acts, act.delays = false ∧ act.fails = false) →
      Machine.outputs (step cd) (arrived src dst) init acts ++ transit cd T src dst =
        Machine.outputs (step cd) (sent src dst) init acts) := by
  refine ⟨?_, fun hdelays => ?_, fun hboth => ?_⟩
  · have hflow : (Machine.outputs (step cd) (arrived src dst) init acts ++
        (transit cd T src dst ++ delayed T src dst)).Subperm
          ([] ++ Machine.outputs (step cd) (sent src dst) init acts) := by
      refine Machine.outputs_flow (c := fun T => transit cd T src dst ++ delayed T src dst)
        List.Subperm.refl List.Subperm.trans List.Subperm.append
        (fun T act T' _ hs => transit_subperm hs src dst)
        (Machine.along_of_forall fun _ _ _ => trivial) hrun
    exact (List.sublist_append_left _ _).subperm.trans hflow
  · have hflow : (Machine.outputs (step cd) (arrived src dst) init acts ++
        transit cd T src dst).Sublist
          ([] ++ Machine.outputs (step cd) (sent src dst) init acts) := by
      refine Machine.outputs_flow (c := fun T => transit cd T src dst) List.Sublist.refl
        List.Sublist.trans List.Sublist.append (fun T act T' hok hs => ?_)
        (along_timers_nil (fun _ => id) hdelays) hrun
      rw [← entered_eq_sent hs hok.2 hok.1]
      exact transit_sublist hs src dst
    exact (List.sublist_append_left _ _).trans hflow
  · refine Machine.outputs_flow (r := Eq) (c := fun T => transit cd T src dst) (fun _ => rfl)
      Eq.trans (fun h h' => by rw [h, h']) (fun T act T' hok hs => ?_)
      (along_timers_nil (fun _ => And.left) hboth) hrun
    rw [← entered_eq_sent hs hok.2.1 hok.1]
    exact transit_step hs hok.2.2

/-- Numbers that are sent as they are. -/
def numbers : Carrier Nat Nat := ⟨⟨id, some, fun _ => rfl⟩, 1, by decide⟩

/-- Process `1` sends two messages to process `2`, and the first one arrives. -/
def twoSends : List (TransportAct Nat Nat) :=
  [.send 1 ⟨5, [2]⟩ false, .pass 1, .forward 1, .send 1 ⟨6, [2]⟩ false, .run 1 .next,
   .run 1 (.dial true), .run 1 (.take 2), .write 1 2 true, .pass 1, .read 1 2, .deliver 1 2,
   .relay 2, .arrive 2]

/-- The first message has arrived and the second is still on its way. -/
theorem link_order_twoSends : ∃ T, Machine.run (step numbers) init twoSends = some T ∧
    Machine.outputs (step numbers) (arrived 1 2) init twoSends ++ transit numbers T 1 2 =
      [5, 6] ∧
    Machine.outputs (step numbers) (arrived 1 2) init twoSends = [5] := by
  obtain ⟨T, hT⟩ := Option.isSome_iff_exists.mp
    (show (Machine.run (step numbers) init twoSends).isSome = true by decide)
  have hsent : Machine.outputs (step numbers) (sent 1 2) init twoSends = [5, 6] := by decide
  refine ⟨T, hT, ?_, by decide⟩
  rw [← hsent]
  exact (link_order hT 1 2).2.2 (by decide)

end Transport

end Loom.Network
