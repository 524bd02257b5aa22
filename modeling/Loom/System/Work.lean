import Loom.System.Liveness

/-!
# The work between two proposals

A message causes a bounded number of messages and requests, and a pair works off its requests
in bounded time. Without new blocks the system therefore runs out of moves: no run, in whatever
order its moves are taken, goes on for ever between two proposals.
-/

namespace Loom

/-- What handling a message costs, with all that follows from it. -/
def NetMessage.cost (n : Nat) (U : List Block) : NetMessage → Nat
  | .echo _ => 4
  | .elect _ => commitCost U + 4
  | .propose _ => 5 * n + 5

def CoreAct.cost (n : Nat) (U : List Block) : CoreAct → Nat
  | .send _ m => 1 + n * (1 + m.cost n U)
  | .loop m => 1 + m.cost n U
  | .dag req => 1 + OpMsg.cost U (.core req)
  | .awaitRef _ _ _ => 0

/-- The moves that a node can still take, at most, with what it has. -/
def Node.cost (n : Nat) (U : List Block) (x : Node) : Nat :=
  (x.core.todo.map (CoreAct.cost n U)).sum + (x.recvCh.map (NetMessage.cost n U)).sum +
    x.pair.cost U

/-- Handling a message costs less than the message. -/
theorem cost_coreHandle {cr : Crypto} {c c' : Core} {msg : NetMessage} (n : Nat)
    (U : List Block) (hnil : c.todo = []) (h : c.handle cr msg = some c') :
    (c'.todo.map (CoreAct.cost n U)).sum < msg.cost n U := by
  cases msg with
  | propose b =>
    rcases Core.handlePropose_cases h with rfl | rfl
    · simp [hnil, NetMessage.cost]
    · simp only [List.map_cons, List.map_nil, List.sum_cons, List.sum_nil, CoreAct.cost,
        NetMessage.cost, OpMsg.cost]
      omega
  | echo e =>
    rcases Core.handleEcho_cases h with rfl | ⟨_, rfl⟩ | ⟨_, rfl⟩
    · simp [hnil, NetMessage.cost]
    · simp [hnil, NetMessage.cost]
    · simp [Core.propose, CoreAct.cost, NetMessage.cost, OpMsg.cost]
  | elect e =>
    cases h
    rcases Core.handleElect_cases cr c e with heq | ⟨_, _, heq, _⟩
    · simp [heq, hnil, NetMessage.cost]
    · simp only [heq, List.map_cons, List.map_nil, List.sum_cons, List.sum_nil, CoreAct.cost,
        NetMessage.cost, OpMsg.cost]
      omega

namespace Pair

/-- A panic adds no block. -/
theorem Within.crash {U : List Block} {s : Pair} (h : s.Within U) :
    ({ s with crashed := true } : Pair).Within U :=
  ⟨h.blocks.crash, h.unseen⟩

/-- A request of the core adds its cost. -/
theorem cost_send {U : List Block} {s t : Pair} {req : CoreReq} (hs : s.Step (.send req) t) :
    t.cost U = s.cost U + OpMsg.cost U (.core req) := by
  cases hs
  simp only [cost, List.map_append, List.sum_append, List.map_singleton, List.sum_singleton]
  omega

end Pair

namespace World

/-- The moves that the system can still take without a new block, at most. -/
def cost (S : Setup) (U : List Block) (w : World) : Nat :=
  (w.net.map fun p => 1 + p.msg.cost S.committee.size U).sum +
    (S.committee.ids.map fun i => (w.nodes i).cost S.committee.size U).sum

/-- Replacing one node changes the sum over the members by its own share. -/
theorem sum_setNode (ids : List Int) (hnodup : ids.Nodup) (g : Node → Nat) (w : World) {s : Int}
    (hs : s ∈ ids) (x : Node) : (ids.map fun i => g ((w.setNode s x).nodes i)).sum +
      g (w.nodes s) = (ids.map fun i => g (w.nodes i)).sum + g x := by
  have hrest : (ids.erase s).map (fun i => g ((w.setNode s x).nodes i)) =
      (ids.erase s).map fun i => g (w.nodes i) := by
    refine List.map_congr_left fun i hi => ?_
    rw [setNode_nodes, if_neg]
    rintro rfl
    exact hnodup.not_mem_erase hi
  have hnew := List.sum_map_erase (fun i => g ((w.setNode s x).nodes i)) hs
  have hold := List.sum_map_erase (fun i => g (w.nodes i)) hs
  rw [hrest] at hnew
  simp only [setNode_nodes, if_true] at hnew
  simp only [setNode_nodes]
  omega

/-- A move that replaces one node and changes the links lowers the cost if the two together
get cheaper. -/
theorem cost_lt_of_setNode {S : Setup} {U : List Block} {w w' : World} {s : Int} {x : Node}
    (hs : s ∈ S.committee.ids) (hnodes : w'.nodes = (w.setNode s x).nodes)
    (hlt : (w'.net.map fun p => 1 + p.msg.cost S.committee.size U).sum +
        x.cost S.committee.size U <
      (w.net.map fun p => 1 + p.msg.cost S.committee.size U).sum +
        (w.nodes s).cost S.committee.size U) : w'.cost S U < w.cost S U := by
  have hsum := sum_setNode S.committee.ids S.committee.nodup_ids
    (Node.cost S.committee.size U) w hs x
  unfold cost
  rw [hnodes]
  omega

/-- One broadcast makes at most one packet for every member. -/
theorem cost_packets {S : Setup} {s : Int} (hs : s ∈ S.committee.ids) (U : List Block) (dst : Int)
    (msg : NetMessage) :
    ((packets S s dst msg).map fun p => 1 + p.msg.cost S.committee.size U).sum ≤
      S.committee.size * (1 + msg.cost S.committee.size U) := by
  have hlen : (packets S s dst msg).length ≤ S.committee.size := by
    unfold packets
    split
    · rw [List.length_map, ← Committee.length_ids]
      exact List.length_filter_le _ _
    · split
      · have hmem := (Committee.mem_ids _ _).mp hs
        simp only [List.length_singleton]
        omega
      · exact Nat.zero_le _
  have heq : (packets S s dst msg).map (fun p => 1 + p.msg.cost S.committee.size U) =
      List.replicate (packets S s dst msg).length (1 + msg.cost S.committee.size U) := by
    rw [List.eq_replicate_iff]
    refine ⟨List.length_map _, fun c hc => ?_⟩
    obtain ⟨p, hp, rfl⟩ := List.mem_map.mp hc
    rw [packets_msg hp]
  rw [heq, List.sum_replicate_nat]
  exact Nat.mul_le_mul_right _ hlen

/-- The core of a process that has panicked does not move. -/
theorem running_of_core {S : Setup} {w w' : World} {i : Int} {batch : Batch}
    (h : w.step S (.core i batch) = some w') : (w.nodes i).pair.crashed = false := by
  simp only [step] at h
  split at h
  · cases h
  · rename_i hok
    cases hc : (w.nodes i).pair.crashed with
    | true => exact absurd (Or.inr hc) hok
    | false => rfl

/-- Every move without a new block lowers the cost. -/
theorem cost_step {S : Setup} {w w' : World} {mv : Move} (ht : Traffic S w) {U : List Block}
    (hU : ∀ i, (w.nodes i).pair.Within U) (hs : w.step S mv = some w')
    (hold : proposals w'.trace = proposals w.trace) : w'.cost S U < w.cost S U := by
  have hrunning : ∀ {i batch}, mv = .core i batch → (w.nodes i).pair.crashed = false := by
    rintro i batch rfl
    exact running_of_core hs
  cases step_cases hs with
  | @deliver k p hp =>
    obtain ⟨hlt, hget⟩ := List.getElem?_eq_some_iff.mp hp
    have hperm := ((List.getElem_cons_eraseIdx_perm hlt).map
      fun q : Packet => 1 + q.msg.cost S.committee.size U).sum_eq
    rw [hget, List.map_cons, List.sum_cons] at hperm
    refine cost_lt_of_setNode (ht.net p (List.mem_of_getElem? hp)).1 rfl ?_
    simp only [Node.cost, List.map_append, List.sum_append, List.map_singleton,
      List.sum_singleton]
    omega
  | @send s batch dst msg rest hi htodo =>
    have hpk := cost_packets hi U dst msg
    refine cost_lt_of_setNode hi rfl ?_
    simp only [Node.cost, htodo, List.map_append, List.sum_append, List.map_cons, List.sum_cons,
      CoreAct.cost]
    omega
  | @loop s batch msg rest hi htodo =>
    refine cost_lt_of_setNode hi rfl ?_
    simp only [Node.cost, htodo, List.map_append, List.sum_append, List.map_cons, List.sum_cons,
      List.map_nil, List.sum_nil, CoreAct.cost, setNode_net]
    omega
  | @dagReq s batch req rest p hi htodo hp =>
    have hsend := Pair.cost_send (U := U) (Pair.step_cases hp).2
    refine cost_lt_of_setNode hi rfl ?_
    simp only [Node.cost, htodo, hsend, List.map_cons, List.sum_cons, CoreAct.cost, setNode_net]
    omega
  | @build s batch height round oldFirstRefH rest ref p hi htodo hpc hp =>
    have hlen : (proposals (w.trace ++ buildEvents s ref ((w.nodes s).core.buildBlock S.crypto
        height round oldFirstRefH ref batch))).length = (proposals w.trace).length :=
      congrArg List.length hold
    rw [proposals_append, List.length_append] at hlen
    have hone : 0 < (proposals (buildEvents s ref ((w.nodes s).core.buildBlock S.crypto height
        round oldFirstRefH ref batch))).length :=
      List.length_pos_of_mem
        (mem_proposals.mpr (List.mem_append_right _ (List.mem_singleton.mpr rfl)))
    omega
  | @panic s batch msg recvCh hi htodo hrecv hh =>
    refine cost_lt_of_setNode hi rfl ?_
    simp only [Node.cost, Pair.cost, hrunning rfl, Bool.false_eq_true, if_false, if_true,
      setNode_net]
    omega
  | @handle s batch msg recvCh core hi htodo hrecv hh =>
    have hlt := cost_coreHandle S.committee.size U htodo hh
    refine cost_lt_of_setNode hi rfl ?_
    simp only [Node.cost, htodo, hrecv, List.map_cons, List.sum_cons, List.map_nil, List.sum_nil,
      setNode_net]
    omega
  | @pair s act p hi hown hp =>
    obtain ⟨hrun, hst⟩ := Pair.step_cases hp
    have hact : act.isOwn = true := by cases act <;> first | rfl | cases hown
    have hlt := (hU s).cost_lt (ht.node s).inv.bounds hrun hact hst
    refine cost_lt_of_setNode hi rfl ?_
    simp only [Node.cost, setNode_net]
    omega

/-- Every block in a node was proposed, and the pull loops are sound. -/
theorem Reaches.within {S : Setup} {moves : List Move} {w : World} (h : Reaches S moves w) :
    ∀ i, (w.nodes i).pair.Within (proposals w.trace) :=
  h.eachPair (J := fun tr s => s.Within (proposals tr)) (fun i => Pair.within_init _ i _)
    (fun _ _ _ hsub hJ => hJ.mono fun _ hb => mem_proposals.mpr (hsub (mem_proposals.mp hb)))
    (fun _ _ hJ => hJ.crash)
    (fun _ _ _ _ _ hinv hP hJ hs =>
      hJ.step hinv.bounds (fun b hb => mem_proposals.mpr (hP b hb)) (Pair.step_cases hs).2)

/-- **A long run proposes.** For every reachable state there is a bound such that every run
from it with more moves than that, in whatever order they are taken, proposes a new block. It
does not say that there are such runs: the system may stop before. -/
theorem keeps_proposing {S : Setup} {moves : List Move} {w : World} (h : Reaches S moves w) :
    ∃ bound, ∀ more w', Machine.run (step S) w more = some w' → bound < more.length →
      (proposals w.trace).length < (proposals w'.trace).length := by
  refine ⟨w.cost S (proposals w.trace), fun more w' hrun hlong => ?_⟩
  by_contra hno
  obtain ⟨hsame, htoward⟩ := Machine.along_toward
    (R := fun u v : World => proposals u.trace <+: proposals v.trace)
    (fun _ => List.prefix_rfl)
    (fun _ _ _ _ hs ht => ((step_cases hs).trace_grows.filterMap _).trans ht) hrun
  have hlast : proposals w'.trace = proposals w.trace :=
    (hsame.eq_of_length_le (by omega)).symm
  have hle := Machine.length_run_le (P := fun u => (∃ ms, Reaches S ms u) ∧
      proposals u.trace = proposals w.trace) (m := cost S (proposals w.trace)) ?_
    ⟨⟨moves, h⟩, rfl⟩ htoward hrun
  · omega
  · rintro u mv v ⟨⟨ms, hu⟩, hsame⟩ hv hs
    have hgrow : proposals u.trace <+: proposals v.trace :=
      (step_cases hs).trace_grows.filterMap _
    have hsame' : proposals v.trace = proposals u.trace := by
      have hle := (hv v hs).length_le
      rw [hlast, ← hsame] at hle
      exact (hgrow.eq_of_length_le hle).symm
    refine ⟨⟨⟨ms ++ [mv], Machine.run_concat.mpr ⟨u, hu, hs⟩⟩, hsame'.trans hsame⟩, ?_⟩
    exact cost_step (Reaches.traffic hu) (hsame ▸ Reaches.within hu) hs hsame'

/-- After four proposals a long run brings a fifth. -/
theorem keeps_proposing_one_sweep : ∃ moves w, Reaches fourNodes moves w ∧
    ∃ bound, ∀ more w', Machine.run (step fourNodes) w more = some w' → bound < more.length →
      4 < (proposals w'.trace).length := by
  have hrun := follow_reaches fourNodes (wakeUp ++ sweep)
  have hfour : (proposals (follow fourNodes (wakeUp ++ sweep)).2.trace).length = 4 := by
    decide +kernel
  obtain ⟨bound, hbound⟩ := keeps_proposing hrun
  exact ⟨_, _, hrun, bound, fun more w' hmore hlong => hfour ▸ hbound more w' hmore hlong⟩

end World

end Loom
