import Loom.Network.Progress
import Loom.System.Liveness
import Loom.System.Stack

/-!
# Where the system can stop

Over the real transport all channels are bounded, and a core that waits in `Send` takes no
message from its `recvCh`. So cores can wait for each other: for room in their own `msgCh`,
behind which everything is full up to the `recvCh` of another core that waits in the same way.
Every such circle goes through a core, because the transport by itself has none. As long as no
dial and no `Write` fails, a system can go on unless a process is blocked or a core waits in
`Send`.
-/

namespace Loom

/-- Whatever is in flight comes from a member. -/
theorem World.Reaches.sources {S : Setup} {moves : List Move} {w : World}
    (h : World.Reaches S moves w) : ∀ p ∈ w.net, p.src ∈ S.committee.ids := by
  refine Machine.invariant (P := fun w : World => ∀ p ∈ w.net, p.src ∈ S.committee.ids) ?_
    (by simp [World.init]) h
  intro u mv v hu hs p hp
  cases World.step_cases hs with
  | deliver => exact hu p (List.mem_of_mem_eraseIdx hp)
  | @send i _ dst msg _ hi =>
    rcases List.mem_append.mp hp with hp | hp
    · exact hu p hp
    · unfold World.packets at hp
      split at hp
      · obtain ⟨d, _, rfl⟩ := List.mem_map.mp hp
        exact hi
      · split at hp
        · rw [List.mem_singleton.mp hp]
          exact hi
        · cases hp
  | loop | dagReq | build | panic | handle | pair => exact hu p hp

namespace Stack

open Network (Transport TransportAct)

variable {S : Setup} {L : Links} {moves : List StackMove} {s s' : Stack} {f : Nat}

/-- What a move asks of the transport: nothing, a call of `Send` by a core, or a move of its
own. -/
theorem net_cases {mv : StackMove} (hs : s.step S L mv = some s') : s'.net = s.net ∨
    ∃ act, s.net.step L.carrier act = some s'.net ∧ act.fails = mv.fails ∧
      ∀ i msg delayed, act = .send i msg delayed → ∃ dst m rest order,
        (s.nodes i).core.todo = .send dst m :: rest ∧ order.Perm (S.committee.broadCast i) ∧
        msg.address = addresses order dst := by
  cases step_cases hs with
  | core | pair => exact Or.inl rfl
  | send horder _ htodo hnet =>
    refine Or.inr ⟨_, hnet, rfl, ?_⟩
    rintro _ _ _ ⟨⟩
    exact ⟨_, _, _, _, htodo, horder, rfl⟩
  | arrive _ _ _ hnet => exact Or.inr ⟨_, hnet, rfl, by simp⟩
  | net hsend _ hnet =>
    exact Or.inr ⟨_, hnet, rfl, fun i msg delayed hact => absurd hact (hsend i msg delayed)⟩

/-- A core sends to members only. -/
theorem addresses_members {w : World} (ht : World.Traffic S w) {i dst : Int} {msg : NetMessage}
    {rest : List CoreAct} (htodo : (w.nodes i).core.todo = .send dst msg :: rest)
    {order : List Int} (horder : order.Perm (S.committee.broadCast i)) :
    ∀ addr ∈ addresses order dst, addr ∈ S.committee.ids := by
  have hdue := (ht.node i).todo _ (htodo ▸ List.mem_cons_self ..)
  have hdst : dst = NONE ∨ dst ∈ S.committee.ids := by
    cases msg with
    | propose b => exact Or.inl hdue.1
    | echo e =>
      obtain ⟨_, rfl, b, hb, hheader⟩ := hdue
      exact Or.inr (hheader ▸ ht.authors b hb)
    | elect e => exact Or.inl hdue.1
  intro addr haddr
  unfold addresses at haddr
  split at haddr
  · exact List.mem_of_mem_filter (horder.subset haddr)
  · rw [List.mem_singleton.mp haddr]
    exact hdst.resolve_left ‹_›

/-- As long as nothing fails, all ends of the transport are healthy. -/
theorem Reaches.healthy (h : Reaches S L moves s) (hok : ∀ mv ∈ moves, mv.fails = false) :
    ∀ a, Transport.Healthy L.carrier (· ∈ S.committee.ids) (s.net a) := by
  refine Machine.invariant_reached
    (P := fun s : Stack => ∀ a, Transport.Healthy L.carrier (· ∈ S.committee.ids) (s.net a))
    Transport.healthy_init ?_ (Machine.along_of_forall fun mv hmv _ => hok mv hmv) h
  intro ls u mv t hu hhealthy hmv hs
  rcases net_cases hs with hsame | ⟨act, hact, hfails, hsend⟩
  · rw [hsame]
    exact hhealthy
  · refine Transport.healthy_step hhealthy ⟨hfails.trans hmv, fun i msg delayed heq => ?_⟩ hact
    obtain ⟨dst, m, rest, order, htodo, horder, haddr⟩ := hsend i msg delayed heq
    obtain ⟨wmoves, w, lost, hw, _, href, _⟩ := Reaches.refines hu
    rw [haddr]
    exact addresses_members hw.traffic (by rw [href.nodes]; exact htodo) horder

/-- A move of the transport is possible where the process is running and its `recvCh` has
room. -/
theorem netStep_isSome {act : TransportAct Int NetMessage}
    (hon : Transport.Onward L.carrier s.net act) (hmember : act.process ∈ S.committee.ids)
    (hrunning : (s.nodes act.process).pair.crashed = false)
    (hroom : (s.nodes act.process).recvCh.length < recvCap) :
    (s.step S L (.net act)).isSome = true := by
  have henabled := hon.enabled
  simp only [step, netStep, hmember, hrunning, not_true_eq_false, Bool.false_eq_true, or_self,
    if_false]
  cases act with
  | send a msg delayed => exact absurd rfl (hon.own a msg delayed)
  | arrive dst =>
    have hroom : (s.nodes dst).recvCh.length < recvCap := hroom
    cases hhanding : (s.net dst).handing with
    | none => simp [Transport.step, hhanding] at henabled
    | some p => simpa [TransportAct.process, hhanding, hroom] using henabled
  | fire | pass | forward | run | write | read | deliver | relay => simpa using henabled

/-- With all processes running and room in every `recvCh`, what is on its way can go on. -/
theorem Reaches.onward (h : Reaches S L moves s) (hok : ∀ mv ∈ moves, mv.fails = false)
    (hopen : ∀ i ∈ S.committee.ids, (s.nodes i).pair.crashed = false ∧
      (s.nodes i).recvCh.length < recvCap) {src dst : Int} (hsrc : src ∈ S.committee.ids)
    (hdst : dst ∈ S.committee.ids)
    (hlink : s.net.transit L.carrier src dst ++ s.net.delayed src dst ≠ []) :
    ∃ act, TransportAct.fails act = false ∧ (s.step S L (.net act)).isSome = true := by
  obtain ⟨act, hmember, hon⟩ := Transport.onward_of_link (h.healthy hok) hsrc hdst hlink
  obtain ⟨hrunning, hroom⟩ := hopen _ hmember
  exact ⟨act, hon.sound, netStep_isSome hon hmember hrunning hroom⟩

/-- **Only cores hold up the transport.** As long as no dial and no `Write` has failed and
something is on its way from one member to another, a goroutine of the transport can go on, or
a member has panicked, or the `recvCh` of a member is full. -/
theorem link_moves_on (h : Reaches S L moves s) (hok : ∀ mv ∈ moves, mv.fails = false)
    {src dst : Int} (hsrc : src ∈ S.committee.ids) (hdst : dst ∈ S.committee.ids)
    (hlink : s.net.transit L.carrier src dst ++ s.net.delayed src dst ≠ []) :
    (∃ act, TransportAct.fails act = false ∧ (s.step S L (.net act)).isSome = true) ∨
      ∃ i ∈ S.committee.ids, (s.nodes i).pair.crashed = true ∨
        recvCap ≤ (s.nodes i).recvCh.length := by
  by_cases hopen : ∀ i ∈ S.committee.ids, (s.nodes i).pair.crashed = false ∧
      (s.nodes i).recvCh.length < recvCap
  · exact Or.inl (h.onward hok hopen hsrc hdst hlink)
  · push Not at hopen
    obtain ⟨i, hi, hclosed⟩ := hopen
    refine Or.inr ⟨i, hi, ?_⟩
    cases hcrashed : (s.nodes i).pair.crashed with
    | true => exact Or.inl rfl
    | false => exact Or.inr (hclosed hcrashed)

/-- A copy of the first block is still on its way to member `2`. -/
theorem link_moves_on_firstArrival : ∃ s,
    Reaches World.fourNodes slowLinks firstArrival s ∧
    (s.net.transit slowLinks.carrier 0 2).length = 1 ∧
    ((∃ act, TransportAct.fails act = false ∧
      (s.step World.fourNodes slowLinks (.net act)).isSome = true) ∨
    ∃ i ∈ World.fourNodes.committee.ids, (s.nodes i).pair.crashed = true ∨
      recvCap ≤ (s.nodes i).recvCh.length) := by
  obtain ⟨s, hs, hlen⟩ : ∃ s ∈ Machine.run (step World.fourNodes slowLinks)
      (init World.fourNodes) firstArrival,
      (s.net.transit slowLinks.carrier 0 2).length = 1 := by decide +kernel
  have hmembers : 0 ∈ World.fourNodes.committee.ids ∧ 2 ∈ World.fourNodes.committee.ids := by
    decide
  refine ⟨s, hs, hlen, link_moves_on hs (by decide) hmembers.1 hmembers.2 ?_⟩
  intro hnil
  rw [(List.append_eq_nil_iff.mp hnil).1] at hlen
  cases hlen

/-- The core of a node waits in `Send` for room in `msgCh`. -/
def SendWaits (L : Links) (s : Stack) (i : Int) : Prop :=
  ∃ dst msg rest, (s.nodes i).core.todo = .send dst msg :: rest ∧ delays L.ddos msg = false ∧
    Network.chanCap ≤ (s.net i).msgCh.length

/-- The addresses of a broadcast may come in any order, also in their own. -/
private theorem isPerm_broadCast (i : Int) :
    (S.committee.broadCast i).isPerm (S.committee.broadCast i) = true :=
  List.isPerm_iff.mpr (List.Perm.refl _)

/-- Where no core waits in `Send`, a core that calls it goes on. -/
theorem send_isSome {i : Int} (hi : i ∈ S.committee.ids)
    (hrunning : (s.nodes i).pair.crashed = false) {dst : Int} {msg : NetMessage}
    {rest : List CoreAct} (htodo : (s.nodes i).core.todo = .send dst msg :: rest)
    (hroom : ¬ SendWaits L s i) (batch : Batch) :
    (s.step S L (.core i batch (S.committee.broadCast i))).isSome = true := by
  have henabled : (s.net.step L.carrier (.send i ⟨msg, addresses (S.committee.broadCast i) dst⟩
      (delays L.ddos msg))).isSome = true := by
    cases hdelays : delays L.ddos msg with
    | true => simp [Transport.step]
    | false =>
      have hlt : (s.net i).msgCh.length < Network.chanCap := by
        by_contra hfull
        exact hroom ⟨dst, msg, rest, htodo, hdelays, by omega⟩
      simp [Transport.step, hlt]
  simp only [step, isPerm_broadCast, Bool.true_eq_false, if_false, processes, World.step, hi,
    hrunning, not_true_eq_false, Bool.false_eq_true, or_self, htodo, World.perform, sending]
  simpa using henabled

/-- Where nothing can move, no process can, unless by a call of `Send`. -/
theorem stuck_of_rest (hrest : ∀ mv, StackMove.fails mv = false → s.step S L mv = none)
    (i : Int) : World.Stuck S s.processes i := by
  constructor
  · intro act
    have hnone := hrest (.pair i act) rfl
    rwa [step, Option.map_eq_none_iff] at hnone
  · intro batch hnosend
    have hnone := hrest (.core i batch (S.committee.broadCast i)) rfl
    have hquiet : sending L i (S.committee.broadCast i) (s.nodes i) = none := by
      unfold sending
      split
      · rename_i dst msg rest htodo
        exact absurd htodo (hnosend dst msg rest)
      · rfl
    rw [step, isPerm_broadCast, hquiet] at hnone
    cases hstep : World.step S s.processes (.core i batch) with
    | none => exact hstep
    | some w => simp [hstep] at hnone

/-- If nothing was lost, a packet in flight is still on its way in the transport. -/
theorem Refines.link_ne_nil {w : World} {lost : Int → Int → List NetMessage}
    (h : Refines S L s w lost) {p : Packet} (hp : p ∈ w.net) (hdst : p.dst ∈ S.committee.ids)
    (hlost : lost p.src p.dst = []) :
    s.net.transit L.carrier p.src p.dst ++ s.net.delayed p.src p.dst ≠ [] := by
  have hperm := h.net p.src p.dst hdst
  rw [hlost, List.append_nil] at hperm
  have hmem : p.msg ∈ World.onLink w.net p.src p.dst :=
    List.mem_filterMap.mpr ⟨p, hp, by simp⟩
  exact List.ne_nil_of_mem (hperm.symm.subset hmem)

/-- **The system stops only where a process is blocked or a core waits in `Send`.** If the keys
of the members match and no dial and no `Write` has failed, something can move unless a member
has panicked, or its core waits for room in its own `recvCh`, or its dag and commitor wait for
each other, or its core waits for room in `msgCh`. -/
theorem moves_unless_blocked (hn : S.committee.size = 3 * f + 1) (hkeys : S.KeysMatch)
    (h : Reaches S L moves s) (hok : ∀ mv ∈ moves, mv.fails = false)
    (hfree : ∀ i ∈ S.committee.ids, ¬ World.Blocked (s.nodes i) ∧ ¬ SendWaits L s i) :
    ∃ mv, StackMove.fails mv = false ∧ (s.step S L mv).isSome = true := by
  by_contra hno
  push Not at hno
  have hrest : ∀ mv, StackMove.fails mv = false → s.step S L mv = none := fun mv hmv => by
    simpa using hno mv hmv
  obtain ⟨wmoves, w, lost, hw, _, href, hlost⟩ := h.refines
  have hfree' : ∀ i ∈ S.committee.ids, ¬ World.Blocked (w.nodes i) := by
    rw [href.nodes]
    exact fun i hi => (hfree i hi).1
  have hsend : ∀ i ∈ S.committee.ids, ∀ dst msg rest,
      (w.nodes i).core.todo ≠ .send dst msg :: rest := by
    intro i hi dst msg rest htodo
    rw [href.nodes] at htodo
    have hrunning := World.running_of_not_blocked (hfree i hi).1
    have hsome := send_isSome hi hrunning htodo (hfree i hi).2 ⟨0, []⟩
    rw [hrest _ rfl] at hsome
    cases hsome
  have hstuck : ∀ i, World.Stuck S w i := by
    intro i
    have hprocesses : World.Stuck S ⟨w.nodes, [], w.trace⟩ i := by
      rw [href.nodes, href.trace]
      exact stuck_of_rest hrest i
    exact ⟨hprocesses.pair, hprocesses.core⟩
  have hidle : ∀ i ∈ S.committee.ids, (w.nodes i).core.todo = [] ∧ (w.nodes i).recvCh = [] :=
    fun i hi => (hstuck i).core_idle hn hw hi (hfree' i hi) (hsend i hi)
  -- The cores are idle, so something is in flight, and nothing keeps it there.
  refine hw.unfinished hn hkeys hidle (List.eq_nil_iff_forall_not_mem.mpr fun p hp => ?_)
  have hdst := (hw.traffic.net p hp).1
  have hopen : ∀ i ∈ S.committee.ids, (s.nodes i).pair.crashed = false ∧
      (s.nodes i).recvCh.length < recvCap := by
    intro i hi
    rw [← href.nodes, (hidle i hi).2]
    exact ⟨World.running_of_not_blocked (hfree' i hi), by simp [recvCap]⟩
  obtain ⟨act, hact, hsome⟩ := h.onward hok hopen (hw.sources p hp) hdst
    (href.link_ne_nil hp hdst (hlost hok _ _))
  rw [hrest (.net act) hact] at hsome
  cases hsome

/-- The keys of the four members match. -/
theorem fourNodes_keysMatch : World.fourNodes.KeysMatch := by
  have hlen : ∀ i ∈ World.fourNodes.committee.ids,
      (World.fourNodes.committee.name i).length = 32 := by decide
  intro i hi digest
  rw [verifySig, if_pos (hlen i hi)]
  rfl

/-- After the first arrival nobody is blocked. -/
theorem moves_unless_blocked_firstArrival : ∃ s, Reaches World.fourNodes slowLinks firstArrival s ∧
    (∀ i ∈ World.fourNodes.committee.ids,
      ¬ World.Blocked (s.nodes i) ∧ ¬ SendWaits slowLinks s i) ∧
    ∃ mv, StackMove.fails mv = false ∧
      (s.step World.fourNodes slowLinks mv).isSome = true := by
  obtain ⟨s, hs, hall⟩ : ∃ s ∈ Machine.run (step World.fourNodes slowLinks)
      (init World.fourNodes) firstArrival, ∀ i ∈ World.fourNodes.committee.ids,
        (s.nodes i).pair.crashed = false ∧ (s.nodes i).recvCh.length < recvCap ∧
        (s.nodes i).pair.dagBlocked = false ∧ (s.net i).msgCh.length < Network.chanCap := by
    decide +kernel
  have hfree : ∀ i ∈ World.fourNodes.committee.ids,
      ¬ World.Blocked (s.nodes i) ∧ ¬ SendWaits slowLinks s i := by
    intro i hi
    obtain ⟨hrunning, hroom, hdag, hmsgCh⟩ := hall i hi
    constructor
    · rintro (hc | ⟨_, hfull⟩ | ⟨hd, _⟩)
      · rw [hrunning] at hc
        cases hc
      · omega
      · rw [hdag] at hd
        cases hd
    · rintro ⟨_, _, _, _, _, hfull⟩
      omega
  exact ⟨s, hs, hfree, moves_unless_blocked (f := 1) rfl fourNodes_keysMatch hs (by decide) hfree⟩

end Stack

end Loom
