import Loom.Prelude.GoMap
import Loom.Prelude.Machine

/-!
# The sender

One goroutine, `Run`, passes every message to the connections of its addresses, and each
connection has a writer goroutine of its own behind a channel of fixed capacity. A writer
returns when a `Write` fails. `Run` is not told, so it goes on filling the channel that
nobody reads, and it waits for ever once the channel is full.
-/

namespace Loom.Network

variable {A M : Type}

/-- A message with the addresses it is for. -/
structure NetMessage (A M : Type) where
  msg : M
  address : List A
  deriving DecidableEq, Repr

/-- The capacity of all channels. -/
def chanCap : Nat := 1000

/-- A connection: the channel of its writer, the message that the writer is writing, and
whether it is running. -/
structure Conn (M : Type) where
  msgCh : List M
  writing : Option M
  running : Bool
  deriving DecidableEq, Repr

/-- State of the sender and of its writers. -/
structure Sender (A M : Type) where
  msgCh : List (NetMessage A M)
  conns : GoMap A (Conn M)
  /-- The addresses still to be served with the message that `Run` has in hand. -/
  todo : List (A × M)

def newSender : Sender A M := ⟨[], ∅, []⟩

/-- What can happen next. -/
inductive SenderAct (A M : Type) where
  /-- A call of `Send`. -/
  | send (msg : NetMessage A M)
  /-- `Run` takes the next message from its channel. -/
  | next
  /-- `Run` dials an address that it has no connection for. -/
  | dial (ok : Bool)
  /-- `Run` passes the message to a connection that it has. -/
  | enqueue
  /-- A writer takes the next message from its channel. -/
  | take (addr : A)
  /-- The `Write` of a writer returns. -/
  | write (addr : A) (ok : Bool)
  deriving DecidableEq, Repr

namespace Sender

section Model

variable [DecidableEq A]

/-- `Run` and the writers; `none` is an operation that is not possible or has to wait. -/
def step (s : Sender A M) : SenderAct A M → Option (Sender A M)
  | .send msg =>
    if s.msgCh.length < chanCap then some { s with msgCh := s.msgCh ++ [msg] } else none
  | .next =>
    match s.todo, s.msgCh with
    | [], msg :: rest =>
      some { s with msgCh := rest, todo := msg.address.map fun addr => (addr, msg.msg) }
    | _, _ => none
  | .dial ok =>
    match s.todo with
    | [] => none
    | (addr, msg) :: rest =>
      match s.conns.lookup addr with
      | some _ => none
      | none =>
        if ok then
          some { s with conns := s.conns.insert addr ⟨[msg], none, true⟩, todo := rest }
        else some { s with todo := rest }
  | .enqueue =>
    match s.todo with
    | [] => none
    | (addr, msg) :: rest =>
      match s.conns.lookup addr with
      | none => none
      | some c =>
        if c.msgCh.length < chanCap then
          some { s with
            conns := s.conns.insert addr { c with msgCh := c.msgCh ++ [msg] }, todo := rest }
        else none
  | .take addr =>
    match s.conns.lookup addr with
    | some ⟨msg :: rest, none, true⟩ =>
      some { s with conns := s.conns.insert addr ⟨rest, some msg, true⟩ }
    | _ => none
  | .write addr ok =>
    match s.conns.lookup addr with
    | some ⟨msgCh, some _, true⟩ => some { s with conns := s.conns.insert addr ⟨msgCh, none, ok⟩ }
    | _ => none

/-- The messages that have been written on a connection, with its address. -/
def written (s : Sender A M) (act : SenderAct A M) (_ : Sender A M) : List (A × M) :=
  match act with
  | .write addr true => ((s.conns.lookup addr).bind (·.writing)).toList.map fun msg => (addr, msg)
  | _ => []

/-- The ways in which the actions go on. -/
inductive Step (s : Sender A M) : SenderAct A M → Sender A M → Prop
  | send {msg} : s.msgCh.length < chanCap →
      Step s (.send msg) { s with msgCh := s.msgCh ++ [msg] }
  | next {msg rest} : s.todo = [] → s.msgCh = msg :: rest →
      Step s .next
        { s with msgCh := rest, todo := msg.address.map fun addr => (addr, msg.msg) }
  | dial {addr msg rest} : s.todo = (addr, msg) :: rest → s.conns.lookup addr = none →
      Step s (.dial true)
        { s with conns := s.conns.insert addr ⟨[msg], none, true⟩, todo := rest }
  | refused {addr msg rest} : s.todo = (addr, msg) :: rest → s.conns.lookup addr = none →
      Step s (.dial false) { s with todo := rest }
  | enqueue {addr msg rest c} : s.todo = (addr, msg) :: rest →
      s.conns.lookup addr = some c → c.msgCh.length < chanCap →
      Step s .enqueue
        { s with conns := s.conns.insert addr { c with msgCh := c.msgCh ++ [msg] }, todo := rest }
  | take {addr msg rest} : s.conns.lookup addr = some ⟨msg :: rest, none, true⟩ →
      Step s (.take addr) { s with conns := s.conns.insert addr ⟨rest, some msg, true⟩ }
  | write {addr msgCh msg ok} : s.conns.lookup addr = some ⟨msgCh, some msg, true⟩ →
      Step s (.write addr ok) { s with conns := s.conns.insert addr ⟨msgCh, none, ok⟩ }

/-- Every step is one of these. -/
theorem step_cases {s t : Sender A M} {act : SenderAct A M} (hs : s.step act = some t) :
    Step s act t := by
  cases act with
  | send msg =>
    simp only [step, Option.ite_none_right_eq_some, Option.some.injEq] at hs
    obtain ⟨hroom, rfl⟩ := hs
    exact .send hroom
  | next =>
    simp only [step] at hs
    split at hs <;> cases hs
    exact .next ‹_› ‹_›
  | dial ok =>
    simp only [step] at hs
    split at hs
    · cases hs
    · split at hs
      · cases hs
      · cases ok <;> cases hs
        · exact .refused ‹_› ‹_›
        · exact .dial ‹_› ‹_›
  | enqueue =>
    simp only [step] at hs
    split at hs
    · cases hs
    · split at hs
      · cases hs
      · obtain ⟨hroom, hs⟩ := Option.ite_none_right_eq_some.mp hs
        cases hs
        exact .enqueue ‹_› ‹_› hroom
  | take addr =>
    simp only [step] at hs
    split at hs <;> cases hs
    exact .take ‹_›
  | write addr ok =>
    simp only [step] at hs
    split at hs <;> cases hs
    exact .write ‹_›

/-- The sender after a sequence of actions. -/
def Reaches (acts : List (SenderAct A M)) (s : Sender A M) : Prop :=
  Machine.run step newSender acts = some s

end Model

variable {s t u : Sender A M} {acts : List (SenderAct A M)}

/-- The addresses for which a message is in hand or waiting, with the message. -/
def pending (s : Sender A M) : List (A × M) :=
  s.todo ++ s.msgCh.flatMap fun msg => msg.address.map fun addr => (addr, msg.msg)

/-- One address less. -/
theorem pending_subset {p : A × M} {rest : List (A × M)} {conns : GoMap A (Conn M)}
    (htodo : s.todo = p :: rest) : (⟨s.msgCh, conns, rest⟩ : Sender A M).pending ⊆ s.pending := by
  intro q hq
  rw [pending, htodo]
  exact List.mem_cons_of_mem _ hq

variable [DecidableEq A]

/-- The writer of the connection to an address has returned. -/
def Dead (s : Sender A M) (addr : A) : Prop :=
  ∃ c, s.conns.lookup addr = some c ∧ c.running = false

instance (s : Sender A M) (addr : A) : Decidable (s.Dead addr) :=
  inferInstanceAs (Decidable (∃ c ∈ s.conns.lookup addr, c.running = false))

/-- A connection that is not dead has a running writer. -/
theorem running_of_not_dead {addr : A} {c : Conn M} (halive : ¬ s.Dead addr)
    (hc : s.conns.lookup addr = some c) : c.running = true := by
  cases hrun : c.running with
  | true => rfl
  | false => exact absurd ⟨c, hc, hrun⟩ halive

/-- A connection that is replaced, in a state with other lists. -/
theorem dead_insert {addr addr' : A} {c : Conn M} {todo : List (A × M)}
    {msgCh : List (NetMessage A M)}
    (h : (⟨msgCh, s.conns.insert addr c, todo⟩ : Sender A M).Dead addr') :
    addr' = addr ∧ c.running = false ∨ s.Dead addr' := by
  obtain ⟨c', hc', hrun⟩ := h
  rw [GoMap.lookup_insert_ite] at hc'
  split at hc'
  · cases hc'
    exact Or.inl ⟨‹_›, hrun⟩
  · exact Or.inr ⟨c', hc', hrun⟩

/-- What a step does to the connections and to what is pending. -/
theorem pending_step {act : SenderAct A M} (hs : s.step act = some t) :
    (∃ msg, act = .send msg ∧ (∀ addr, t.Dead addr → s.Dead addr) ∧
      t.pending = s.pending ++ msg.address.map fun addr => (addr, msg.msg)) ∨
    (t.pending ⊆ s.pending ∧ ∀ addr, t.Dead addr → s.Dead addr) ∨
    ∃ addr, act = .write addr false ∧ t.pending = s.pending ∧
      ∀ addr', t.Dead addr' → addr' = addr ∨ s.Dead addr' := by
  cases step_cases hs with
  | @send msg _ => exact Or.inl ⟨msg, rfl, fun _ => id, by simp [pending]⟩
  | next htodo hmsgCh =>
    refine Or.inr (Or.inl ⟨?_, fun _ => id⟩)
    simp [pending, htodo, hmsgCh]
  | dial htodo _ =>
    refine Or.inr (Or.inl ⟨pending_subset htodo, fun addr' hdead => ?_⟩)
    exact (dead_insert hdead).resolve_left fun h => by cases h.2
  | refused htodo _ => exact Or.inr (Or.inl ⟨pending_subset htodo, fun _ => id⟩)
  | @enqueue addr msg rest c htodo hc _ =>
    refine Or.inr (Or.inl ⟨pending_subset htodo, fun addr' hdead => ?_⟩)
    rcases dead_insert hdead with ⟨rfl, hrun⟩ | hdead
    · exact ⟨c, hc, hrun⟩
    · exact hdead
  | take _ =>
    refine Or.inr (Or.inl ⟨List.Subset.refl _, fun addr' hdead => ?_⟩)
    exact (dead_insert hdead).resolve_left fun h => by cases h.2
  | @write addr msgCh msg ok _ =>
    cases ok with
    | true =>
      refine Or.inr (Or.inl ⟨List.Subset.refl _, fun addr' hdead => ?_⟩)
      exact (dead_insert hdead).resolve_left fun h => by cases h.2
    | false =>
      refine Or.inr (Or.inr ⟨addr, rfl, rfl, fun addr' hdead => ?_⟩)
      exact (dead_insert hdead).imp_left And.left

/-- No message is for a peer after the failure of a `Write` to it: a `Write` fails only when no
message for its address is in hand or waiting, and no message is sent to an address after
that. -/
def Spares (s : Sender A M) : SenderAct A M → Prop
  | .send msg => ∀ addr ∈ msg.address, ¬ s.Dead addr
  | .write addr false => ∀ p ∈ s.pending, p.1 ≠ addr
  | _ => True

instance (s : Sender A M) : ∀ act, Decidable (s.Spares act)
  | .send msg => inferInstanceAs (Decidable (∀ addr ∈ msg.address, ¬ s.Dead addr))
  | .write addr false => inferInstanceAs (Decidable (∀ p ∈ s.pending, p.1 ≠ addr))
  | .write _ true => isTrue trivial
  | .next => isTrue trivial
  | .dial _ => isTrue trivial
  | .enqueue => isTrue trivial
  | .take _ => isTrue trivial

/-- Nothing is pending for a dead connection. -/
def Clear (s : Sender A M) : Prop := ∀ p ∈ s.pending, ¬ s.Dead p.1

/-- Sparing actions leave nothing pending for a dead connection. -/
theorem Clear.step {act : SenderAct A M} (h : s.Clear) (hok : s.Spares act)
    (hs : s.step act = some t) : t.Clear := by
  intro p hp hdead
  rcases pending_step hs with ⟨msg, rfl, hsame, heq⟩ | ⟨hsub, hsame⟩ | ⟨addr, rfl, heq, hnew⟩
  · rw [heq] at hp
    rcases List.mem_append.mp hp with hp | hp
    · exact h p hp (hsame _ hdead)
    · obtain ⟨addr, haddr, rfl⟩ := List.mem_map.mp hp
      exact hok addr haddr (hsame _ hdead)
  · exact h p (hsub hp) (hsame _ hdead)
  · rw [heq] at hp
    rcases hnew _ hdead with haddr | hdead
    · exact hok p hp haddr
    · exact h p hp hdead

private theorem Reaches.clear (h : Reaches acts s)
    (hok : Machine.Along step Spares newSender acts) : s.Clear := by
  refine Machine.invariant_along (P := Clear) ?_ ?_ hok h
  · intro s act t hclear hok hs
    exact hclear.step hok hs
  · intro p hp
    cases hp

/-! ## Progress -/

/-- An action that neither sends a message nor fails. -/
def Quiet : SenderAct A M → Prop
  | .send _ => False
  | .write _ false => False
  | _ => True

/-- A run of quiet actions, with what it writes. It kills no connection. -/
structure Leads (s : Sender A M) (acts : List (SenderAct A M)) (t : Sender A M)
    (out : List (A × M)) : Prop where
  run : Machine.run step s acts = some t
  quiet : ∀ act ∈ acts, Quiet act
  dead : ∀ addr, t.Dead addr → s.Dead addr
  out : Machine.outputs step written s acts = out

/-- The empty run. -/
theorem Leads.refl (s : Sender A M) : Leads s [] s [] := ⟨rfl, nofun, fun _ => id, rfl⟩

/-- A run of one quiet action. -/
theorem Leads.single (act : SenderAct A M) (hs : s.step act = some t) (hquiet : Quiet act) :
    Leads s [act] t (written s act t) := by
  refine ⟨Machine.run_cons.mpr ⟨t, hs, rfl⟩, by simpa using hquiet, ?_, ?_⟩
  · rcases pending_step hs with ⟨msg, rfl, _⟩ | ⟨_, hsame⟩ | ⟨addr, rfl, _⟩
    · exact hquiet.elim
    · exact hsame
    · exact hquiet.elim
  · simp [Machine.outputs, hs]

/-- Two runs after each other. -/
theorem Leads.trans {acts acts' : List (SenderAct A M)} {out out' : List (A × M)}
    (h : Leads s acts t out) (h' : Leads t acts' u out') :
    Leads s (acts ++ acts') u (out ++ out') where
  run := Machine.run_append.mpr ⟨t, h.run, h'.run⟩
  quiet act hact := (List.mem_append.mp hact).elim (h.quiet act) (h'.quiet act)
  dead addr hdead := h.dead addr (h'.dead addr hdead)
  out := by rw [Machine.outputs_append h.run, h.out, h'.out]

/-- The writer of a connection writes the message it has. -/
theorem leads_write {addr : A} {msgCh : List M} {msg : M}
    (hc : s.conns.lookup addr = some ⟨msgCh, some msg, true⟩) :
    Leads s [.write addr true]
      { s with conns := s.conns.insert addr ⟨msgCh, none, true⟩ } [(addr, msg)] := by
  have hlead := Leads.single (s := s) (.write addr true)
    (t := { s with conns := s.conns.insert addr ⟨msgCh, none, true⟩ })
    (by simp [step, hc]) trivial
  simpa [written, hc] using hlead

/-- The writer of a connection takes and writes the next message of its channel. -/
theorem leads_take {addr : A} {rest : List M} {msg : M}
    (hc : s.conns.lookup addr = some ⟨msg :: rest, none, true⟩) :
    Leads s [.take addr, .write addr true]
      { s with conns := s.conns.insert addr ⟨rest, none, true⟩ } [(addr, msg)] := by
  have htake := Leads.single (s := s) (.take addr)
    (t := { s with conns := s.conns.insert addr ⟨rest, some msg, true⟩ })
    (by simp [step, hc]) trivial
  have hwrite := leads_write (s := { s with conns := s.conns.insert addr ⟨rest, some msg, true⟩ })
    (AList.lookup_insert _)
  simpa [written, AList.insert_insert] using htake.trans hwrite

/-- A running writer can empty its channel. -/
theorem leads_empty {addr : A} {msgCh : List M}
    (hc : s.conns.lookup addr = some ⟨msgCh, none, true⟩) :
    ∃ acts conns out, Leads s acts { s with conns := conns } out ∧
      conns.lookup addr = some ⟨[], none, true⟩ := by
  induction msgCh generalizing s with
  | nil => exact ⟨[], s.conns, [], Leads.refl s, hc⟩
  | cons msg rest ih =>
    have htake := leads_take hc
    obtain ⟨acts, conns, out, hlead, hempty⟩ :=
      ih (s := { s with conns := s.conns.insert addr ⟨rest, none, true⟩ }) (AList.lookup_insert _)
    exact ⟨_, conns, _, htake.trans hlead, hempty⟩

/-- A running writer can finish what it is writing and empty its channel. -/
theorem leads_idle {addr : A} {c : Conn M} (hc : s.conns.lookup addr = some c)
    (hrun : c.running = true) : ∃ acts conns out, Leads s acts { s with conns := conns } out ∧
      conns.lookup addr = some ⟨[], none, true⟩ := by
  obtain ⟨msgCh, writing, running⟩ := c
  subst hrun
  cases writing with
  | none => exact leads_empty hc
  | some msg =>
    have hwrite := leads_write hc
    obtain ⟨acts, conns, out, hlead, hempty⟩ :=
      leads_empty (s := { s with conns := s.conns.insert addr ⟨msgCh, none, true⟩ })
        (AList.lookup_insert _)
    exact ⟨_, conns, _, hwrite.trans hlead, hempty⟩

/-- `Run` can get the message in hand written on a connection that is not dead. -/
theorem leads_served {addr : A} {msg : M} {rest : List (A × M)}
    (htodo : s.todo = (addr, msg) :: rest) (halive : ¬ s.Dead addr) :
    ∃ acts conns out, Leads s acts ⟨s.msgCh, conns, rest⟩ out ∧ (addr, msg) ∈ out := by
  cases hc : s.conns.lookup addr with
  | none =>
    have hdial := Leads.single (s := s) (.dial true)
      (t := ⟨s.msgCh, s.conns.insert addr ⟨[msg], none, true⟩, rest⟩)
      (by simp [step, htodo, hc]) trivial
    have htake := leads_take
      (s := ⟨s.msgCh, s.conns.insert addr ⟨[msg], none, true⟩, rest⟩) (AList.lookup_insert _)
    exact ⟨_, _, _, hdial.trans htake, by simp⟩
  | some c =>
    obtain ⟨acts, conns, out, hlead, hempty⟩ := leads_idle hc (running_of_not_dead halive hc)
    have henqueue := Leads.single (s := { s with conns := conns }) .enqueue
      (t := ⟨s.msgCh, conns.insert addr ⟨[msg], none, true⟩, rest⟩)
      (by simp [step, htodo, hempty, chanCap]) trivial
    have htake := leads_take
      (s := ⟨s.msgCh, conns.insert addr ⟨[msg], none, true⟩, rest⟩) (AList.lookup_insert _)
    exact ⟨_, _, _, (hlead.trans henqueue).trans htake, by simp⟩

/-- `Run` can get the message in hand written for all addresses. -/
theorem leads_todo {todo : List (A × M)} (htodo : s.todo = todo)
    (halive : ∀ p ∈ todo, ¬ s.Dead p.1) :
    ∃ acts conns out, Leads s acts ⟨s.msgCh, conns, []⟩ out ∧ todo ⊆ out := by
  induction todo generalizing s with
  | nil =>
    obtain ⟨msgCh, conns, _⟩ := s
    cases htodo
    exact ⟨[], conns, [], Leads.refl _, List.Subset.refl _⟩
  | cons p rest ih =>
    obtain ⟨acts, conns, out, hlead, hmem⟩ := leads_served htodo (halive p (by simp))
    obtain ⟨acts', conns', out', hlead', hsub⟩ :=
      ih (s := ⟨s.msgCh, conns, rest⟩) rfl fun q hq hdead =>
        halive q (List.mem_cons_of_mem _ hq) (hlead.dead _ hdead)
    refine ⟨_, _, _, hlead.trans hlead', ?_⟩
    exact List.cons_subset.mpr ⟨List.mem_append_left _ hmem,
      List.subset_append_of_subset_right _ hsub⟩

/-- All pending messages can be written. -/
theorem leads_pending (h : s.Clear) :
    ∃ acts conns out, Leads s acts ⟨[], conns, []⟩ out ∧ s.pending ⊆ out := by
  obtain ⟨msgs, hmsgs⟩ : ∃ msgs, s.msgCh = msgs := ⟨_, rfl⟩
  induction msgs generalizing s with
  | nil =>
    obtain ⟨acts, conns, out, hlead, hsub⟩ := leads_todo rfl fun p hp =>
      h p (List.mem_append_left _ hp)
    rw [hmsgs] at hlead
    refine ⟨acts, conns, out, hlead, ?_⟩
    simpa [pending, hmsgs] using hsub
  | cons msg msgs ih =>
    obtain ⟨acts, conns, out, hlead, hsub⟩ := leads_todo rfl fun p hp =>
      h p (List.mem_append_left _ hp)
    rw [hmsgs] at hlead
    have hnext := Leads.single (s := ⟨msg :: msgs, conns, []⟩) .next
      (t := ⟨msgs, conns, msg.address.map fun addr => (addr, msg.msg)⟩) rfl trivial
    have hboth := hlead.trans hnext
    have hpending : s.pending = s.todo ++
        (⟨msgs, conns, msg.address.map fun addr => (addr, msg.msg)⟩ : Sender A M).pending := by
      simp [pending, hmsgs]
    obtain ⟨acts', conns', out', hlead', hsub'⟩ :=
      ih (s := ⟨msgs, conns, msg.address.map fun addr => (addr, msg.msg)⟩)
        (fun p hp hdead => h p (hpending ▸ List.mem_append_right _ hp) (hboth.dead _ hdead)) rfl
    refine ⟨_, _, _, hboth.trans hlead', ?_⟩
    rw [hpending]
    apply List.append_subset.mpr
    exact ⟨List.subset_append_of_subset_left _ (List.subset_append_of_subset_left _ hsub),
      List.subset_append_of_subset_right _ hsub'⟩

/-- **A dead peer silences nobody**, if no message is for a peer at or after the failure of a
`Write` to it. Then `Run` is never at the connection of a writer that has returned, so it is
not blocked there and puts no message into its channel; and in every state reached, all
messages in hand or waiting can still be written, without any further failure. -/
theorem dead_peer_silences_nobody (h : Reaches acts s)
    (hok : Machine.Along step Spares newSender acts) :
    (∀ addr msg rest c, s.todo = (addr, msg) :: rest → s.conns.lookup addr = some c →
      c.running = true) ∧
    ∃ more t, Machine.run step s more = some t ∧ (∀ act ∈ more, Quiet act) ∧
      t.todo = [] ∧ t.msgCh = [] ∧ s.pending ⊆ Machine.outputs step written s more := by
  have hclear := h.clear hok
  constructor
  · intro addr msg rest c htodo hc
    exact running_of_not_dead (hclear (addr, msg) (by simp [pending, htodo])) hc
  · obtain ⟨more, conns, out, hlead, hsub⟩ := leads_pending hclear
    refine ⟨more, _, hlead.run, hlead.quiet, rfl, rfl, ?_⟩
    rw [hlead.out]
    exact hsub

/-- Two peers are served, the last `Write` to one of them fails, and the other one is served
again. -/
def lastWriteFails : List (SenderAct Nat Nat) :=
  [.send ⟨5, [1, 2]⟩, .next, .dial true, .take 1, .dial true, .take 2, .write 2 true,
   .write 1 false, .send ⟨6, [2]⟩, .next]

/-- The connection to `1` is dead, and the message for `2` is still written. -/
theorem dead_peer_silences_nobody_lastWriteFails : ∃ s, Reaches lastWriteFails s ∧
    s.Dead 1 ∧ s.pending = [(2, 6)] ∧
    ∃ more t, Machine.run step s more = some t ∧ t.todo = [] ∧
      (2, 6) ∈ Machine.outputs step written s more := by
  obtain ⟨s, hs, hdead, hpending⟩ : ∃ s ∈ Machine.run step newSender lastWriteFails,
      s.Dead 1 ∧ s.pending = [(2, 6)] := by decide
  have hok : Machine.Along step Spares newSender lastWriteFails := by decide
  obtain ⟨_, more, t, hrun, _, htodo, _, hwritten⟩ := dead_peer_silences_nobody hs hok
  exact ⟨s, hs, hdead, hpending, more, t, hrun, htodo, hwritten (by simp [hpending])⟩

/-! ## A dead channel that is full -/

/-- `Run` stays for ever where the channel is full and its writer has returned. -/
theorem blocked_for_ever {addr : A} {msg : M} {rest : List (A × M)} {c : Conn M}
    (htodo : s.todo = (addr, msg) :: rest) (hc : s.conns.lookup addr = some c)
    (hdead : c.running = false) (hfull : chanCap ≤ c.msgCh.length)
    (hrun : Machine.run step s acts = some t) : t.todo = s.todo := by
  suffices hinv : t.todo = s.todo ∧ t.conns.lookup addr = some c from hinv.1
  refine Machine.invariant
    (P := fun t : Sender A M => t.todo = s.todo ∧ t.conns.lookup addr = some c)
    ?_ ⟨rfl, hc⟩ hrun
  rintro u act v ⟨hu, huc⟩ hs
  rw [htodo] at hu ⊢
  obtain ⟨msgCh, writing, running⟩ := c
  subst hdead
  have hother : ∀ {addr' : A} {c' : Conn M}, u.conns.lookup addr' ≠ some ⟨msgCh, writing, false⟩ →
      (u.conns.insert addr' c').lookup addr = some ⟨msgCh, writing, false⟩ := by
    intro addr' c' hne
    rw [AList.lookup_insert_ne]
    · exact huc
    · rintro rfl
      exact hne huc
  cases act with
  | send msg =>
    simp only [step, Option.ite_none_right_eq_some, Option.some.injEq] at hs
    obtain ⟨_, rfl⟩ := hs
    exact ⟨hu, huc⟩
  | next => simp [step, hu] at hs
  | dial ok => simp [step, hu, huc] at hs
  | enqueue => simp [step, hu, huc, not_lt.mpr hfull] at hs
  | take addr' =>
    simp only [step] at hs
    split at hs
    · rename_i hlookup
      cases hs
      exact ⟨hu, hother (by simp [hlookup])⟩
    · cases hs
  | write addr' ok =>
    simp only [step] at hs
    split at hs
    · rename_i hlookup
      cases hs
      exact ⟨hu, hother (by simp [hlookup])⟩
    · cases hs

/-- A message for one address is sent and put into the channel of its connection. -/
def round (addr : A) (msg : M) : List (SenderAct A M) := [.send ⟨msg, [addr]⟩, .next, .enqueue]

/-- A dead connection and nothing else. -/
def deadState (addr : A) (msgCh : List M) : Sender A M :=
  ⟨[], (∅ : GoMap A (Conn M)).insert addr ⟨msgCh, none, false⟩, []⟩

/-- Messages for a dead connection fill its channel. -/
theorem run_rounds (addr : A) (msg : M) (msgCh : List M) {k : Nat}
    (hroom : msgCh.length + k ≤ chanCap) :
    Machine.run step (deadState addr msgCh) (List.replicate k (round addr msg)).flatten =
      some (deadState addr (msgCh ++ List.replicate k msg)) := by
  induction k generalizing msgCh with
  | zero => simp
  | succ k ih =>
    have hlookup : (deadState addr msgCh).conns.lookup addr = some ⟨msgCh, none, false⟩ :=
      AList.lookup_insert _
    have henqueue : (⟨[], (deadState addr msgCh).conns, [(addr, msg)]⟩ : Sender A M).step
        .enqueue = some (deadState addr (msgCh ++ [msg])) := by
      simp only [step, hlookup]
      rw [if_pos (by omega)]
      simp only [deadState, AList.insert_insert]
    have hround : Machine.run step (deadState addr msgCh) (round addr msg) =
        some (deadState addr (msgCh ++ [msg])) :=
      Machine.run_cons.mpr ⟨_, rfl, Machine.run_cons.mpr ⟨_, rfl,
        Machine.run_cons.mpr ⟨_, henqueue, rfl⟩⟩⟩
    have hrest := ih (msgCh ++ [msg]) (by simp; omega)
    rw [List.replicate_succ, List.flatten_cons]
    refine Machine.run_append.mpr ⟨_, hround, ?_⟩
    rw [hrest, List.replicate_succ, List.append_assoc, List.singleton_append]

/-- The first `Write` to address `1` fails, and a thousand more messages are for it before one
that is also for address `2`. -/
def failedWrite : List (SenderAct Nat Nat) :=
  [.send ⟨0, [1]⟩, .next, .dial true, .take 1, .write 1 false] ++
    (List.replicate chanCap (round 1 0)).flatten ++ [.send ⟨7, [1, 2]⟩, .next]

/-- After one failed `Write` the dead channel takes a thousand messages, none of which is ever
written, and then `Run` is blocked on it for ever with the message for another address in
hand. -/
theorem failed_write_silences_node : ∃ s c, Reaches failedWrite s ∧
    s.todo = [(1, 7), (2, 7)] ∧ s.conns.lookup 1 = some c ∧ c.running = false ∧
    c.msgCh.length = chanCap ∧
    ∀ acts t, Machine.run step s acts = some t → t.todo = [(1, 7), (2, 7)] := by
  have hfail : Machine.run step newSender
      [.send ⟨0, [1]⟩, .next, .dial true, .take 1, .write 1 false] =
        some (deadState 1 ([] : List Nat)) := rfl
  have hfill := run_rounds (1 : Nat) (0 : Nat) [] (k := chanCap) (by simp)
  rw [List.nil_append] at hfill
  have hlookup : (deadState 1 (List.replicate chanCap 0)).conns.lookup 1 =
      some ⟨List.replicate chanCap 0, none, false⟩ := AList.lookup_insert _
  have hlen : (List.replicate chanCap 0).length = chanCap := List.length_replicate
  have htodo : (⟨[], (deadState 1 (List.replicate chanCap 0)).conns, [(1, 7), (2, 7)]⟩ :
      Sender Nat Nat).todo = [(1, 7), (2, 7)] := rfl
  refine ⟨⟨[], (deadState 1 (List.replicate chanCap 0)).conns, [(1, 7), (2, 7)]⟩, _, ?_, htodo,
    hlookup, rfl, hlen, fun acts t ht => ?_⟩
  · exact Machine.run_append.mpr ⟨_, Machine.run_append.mpr ⟨_, hfail, hfill⟩,
      Machine.run_cons.mpr ⟨_, rfl, Machine.run_cons.mpr ⟨_, rfl, rfl⟩⟩⟩
  · exact (blocked_for_ever htodo hlookup rfl (Nat.le_of_eq hlen.symm) ht).trans htodo

end Sender

end Loom.Network
