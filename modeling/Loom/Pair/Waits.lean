import Loom.Pair.Rounds

/-!
# Waiting for each other

The dag serves the pulls of the commitor and fills its work queue `submitCh`, and the
commitor waits for the dag whenever it pulls. If the dag handles reveals while the
commitor waits for a missing block, the work queue fills up, and the next submission
blocks the dag for good: the missing block can no longer be pushed. If every reveal finds
room in `submitCh`, or an idle commitor that makes room, this does not happen.
-/

namespace Loom

/-- Whether the commitor waits for its next request. -/
def Commitor.isIdle : Commitor → Bool
  | .idle => true
  | _ => false

namespace Pair

/-- The dag cannot go on before the commitor takes from `submitCh`. -/
def dagBlocked (s : Pair) : Bool :=
  match s.dagPc with
  | .submit _ => decide (submitCap ≤ s.submitCh.length)
  | _ => false

/-- The commitor cannot go on before the dag answers a pull or takes from `opCh`. -/
def comBlocked (s : Pair) : Bool :=
  match s.com with
  | .waiting _ _ _ => true
  | .pulling c =>
    match c.q with
    | [] => false
    | head :: _ => decide (head ∉ c.pulled.keys) && decide (opCap ≤ s.opCh.length)
  | .executing _ [] _ => decide (opCap ≤ s.opCh.length)
  | _ => false

/-- A reveal is handled only while `submitCh` has room or the commitor is idle. -/
def hasRoom (s : Pair) : Act → Bool
  | .dag _ =>
    match s.opCh with
    | .core (.commitReq _) :: _ => decide (s.submitCh.length < submitCap) || s.com.isIdle
    | _ => true
  | _ => true

/-- `submitCh` stays within its capacity, and a submission finds room or an idle commitor. -/
structure Roomy (s : Pair) : Prop where
  bound : s.submitCh.length ≤ submitCap
  submit : ∀ req, s.dagPc = .submit req → s.submitCh.length < submitCap ∨ s.com = .idle

private theorem roomy_init (i : Int) (c : Committee) : (init i c).Roomy where
  bound := by simp [init]
  submit := by simp [init]

/-- A submission that goes through found room. -/
theorem submit_room {s t : Pair} (h : s.step .submit = some t) :
    s.submitCh.length < submitCap := by
  unfold step at h
  split at h
  · cases h
  · dsimp only at h
    split at h
    · simp only [Option.ite_none_right_eq_some] at h
      exact h.1
    · cases h

/-- Handling anything but a reveal submits nothing. -/
theorem room_of_handle {s : Pair} {order : List Int} {m : OpMsg} {rest : List OpMsg} {d : Dag}
    {pc : DagPc} {req : SubmitReq} (hop : s.opCh = m :: rest)
    (hm : s.dag.handle order m = some (d, pc)) (hpc : pc = .submit req)
    (hok : s.hasRoom (.dag order) = true) : s.submitCh.length < submitCap ∨ s.com = .idle := by
  by_cases hr : ∃ req', m = .core (.commitReq req')
  · obtain ⟨req', rfl⟩ := hr
    simp only [hasRoom, hop, Bool.or_eq_true, decide_eq_true_eq] at hok
    rcases hok with hroom | hidle
    · exact Or.inl hroom
    · right
      cases hcom : s.com <;> simp [hcom, Commitor.isIdle] at hidle ⊢
  · have hnil := (pendingCommit_handle hm fun req' h => hr ⟨req', h⟩).2
    rw [hpc] at hnil
    cases hnil

/-- A step that finds room leaves room. -/
theorem Roomy.step {s t : Pair} {a : Act} (h : s.Roomy) (hok : s.hasRoom a = true)
    (hs : s.step a = some t) : t.Roomy := by
  cases (step_cases hs).2 with
  | dag _ hop _ hm =>
    refine ⟨h.bound, fun req hpc => ?_⟩
    exact room_of_handle (s := s) hop hm hpc hok
  | submit _ =>
    have hroom := submit_room hs
    refine ⟨?_, by simp⟩
    rw [List.length_append, List.length_singleton]
    omega
  | take hcom hsub =>
    have hbound := h.bound
    rw [hsub, List.length_cons] at hbound
    exact ⟨by dsimp only; omega, fun _ _ => Or.inl (by dsimp only; omega)⟩
  | reply _ _ | refResp _ => exact ⟨h.bound, by simp⟩
  | send _ | crash _ _ _ _ => exact ⟨h.bound, h.submit⟩
  | skip hcom _ _ | pull hcom _ _ | process hcom | finish hcom _ _ _ _ | exec hcom =>
    refine ⟨h.bound, fun req hpc => Or.inl ?_⟩
    rcases h.submit req hpc with hroom | hidle
    · exact hroom
    · rw [hidle] at hcom
      cases hcom
  | nothing _ _ _ | gc _ => exact ⟨h.bound, fun _ _ => Or.inr rfl⟩

/-- **No circular wait.** In a run whose reveals find room in `submitCh` or an idle commitor,
the dag is never blocked on `submitCh` while the commitor waits for the dag. -/
theorem no_circular_wait {i : Int} {c : Committee} {acts : List Act} {s : Pair}
    (h : Reaches i c acts s)
    (hok : Machine.Along step (fun u a => u.hasRoom a = true) (init i c) acts) :
    ¬ (s.dagBlocked = true ∧ s.comBlocked = true) := by
  have hroomy := Machine.invariant_along (fun _ _ _ h hok hs => Roomy.step h hok hs)
    (roomy_init i c) hok h
  rintro ⟨hdag, hcom⟩
  unfold dagBlocked at hdag
  split at hdag
  · rename_i req hpc
    rw [decide_eq_true_eq] at hdag
    rcases hroomy.submit req hpc with hroom | hidle
    · omega
    · simp [comBlocked, hidle] at hcom
  · cases hdag

/-- The commitor waits for a block, and the dag does not wait for it. -/
theorem no_circular_wait_commitRun : ∃ s, Reaches 0 fourMembers (commitRun.take 16) s ∧
    s.comBlocked = true ∧ ¬ (s.dagBlocked = true ∧ s.comBlocked = true) := by
  obtain ⟨s, hs, hwait⟩ : ∃ s ∈ Machine.run step (init 0 fourMembers) (commitRun.take 16),
      s.comBlocked = true := by decide +kernel
  exact ⟨s, hs, hwait, no_circular_wait hs (by decide +kernel)⟩

/-! ## A queue that fills up -/

/-- The third block of member `1` in round `2 * k`; the two before it are not there. -/
def thirdBlock (k : Nat) : Block := ⟨⟨⟨1, 3 * k + 2⟩, 2 * k, 3 * k⟩, ⟨-1, []⟩, [], []⟩

/-- The anchor submitted for round `2 * k`. -/
def anchorOf (k : Nat) : SubmitReq := ⟨⟨1, 3 * k⟩, 2 * k⟩

/-- The third block of a round arrives, its author is revealed as the leader and submitted. -/
def revealNext (k : Nat) : List Act :=
  [.send (.propose (thirdBlock k)), .dag [], .send (.commitReq ⟨1, 2 * k⟩), .dag []]

/-- The commitor waits for the first anchor, and `k` further anchors are submitted. -/
structure Filling (k : Nat) (s : Pair) : Prop where
  running : s.crashed = false
  idle : s.dagPc = .idle
  empty : s.opCh = []
  waiting : s.comBlocked = true
  queue : s.submitCh.length = k
  commitMark : s.dag.commitMark = -2
  leaders : ∀ j : Nat, j ≤ k → (s.dag.uncommitted.lookup (2 * (j : Int))).isSome
  latest : s.dag.pendingCommit = some ⟨1, 2 * k⟩
  mark : s.dag.mark 1 = -1
  line : ∃ l, s.dag.line 1 = some l ∧ l.length = 3 * k + 3
  pending : ∀ sl ch, s.dag.pending.lookup sl = some ch → sl = ⟨1, 0⟩

/-- The third block of the next round is stored at the end of the line. -/
theorem Filling.push {k : Nat} {s : Pair} (h : s.Filling k) :
    ∃ l, l.length = 3 * k + 5 ∧ s.dag.handleBlockPushReq (thirdBlock (k + 1)) =
        some (s.dag.setLine 1 (l ++ [some (thirdBlock (k + 1))]), .idle) ∧
      (s.dag.setLine 1 (l ++ [some (thirdBlock (k + 1))])).line 1 =
        some (l ++ [some (thirdBlock (k + 1))]) := by
  obtain ⟨l, hl, hlen⟩ := h.line
  have hnone : s.dag.pending.lookup (thirdBlock (k + 1)).header.slot = none := by
    cases hp : s.dag.pending.lookup (thirdBlock (k + 1)).header.slot with
    | none => rfl
    | some ch =>
      have hslot := congrArg Slot.height (h.pending _ ch hp)
      simp only [thirdBlock] at hslot
      omega
  have hindex : (thirdBlock (k + 1)).header.slot.height -
      s.dag.mark (thirdBlock (k + 1)).header.slot.author - 1 = (3 * k + 5 : Nat) := by
    simp only [thirdBlock, h.mark]
    omega
  have hline : s.dag.line (thirdBlock (k + 1)).header.slot.author = some l := hl
  have hstore : Dag.store l (3 * k + 5) (thirdBlock (k + 1)) =
      (l ++ List.replicate 2 none) ++ [some (thirdBlock (k + 1))] := by
    rw [Dag.store, if_neg (by omega), hlen, show 3 * k + 5 - (3 * k + 3) = 2 by omega]
  refine ⟨l ++ List.replicate 2 none, ?_, ?_, ?_⟩
  · rw [List.length_append, List.length_replicate, hlen]
  · have hpos : ¬ ((3 * k + 5 : Nat) : Int) < 0 := by omega
    simp only [Dag.handleBlockPushReq, hindex, hpos, ite_false, hline, Option.bind_eq_bind,
      Option.bind_some, Int.toNat_natCast, hstore, hnone]
    rfl
  · rw [Dag.line_setLine hl, if_pos rfl]

/-- The reveal of the next round submits its anchor. -/
theorem Filling.reveal {k : Nat} {s : Pair} (h : s.Filling k) {l : List (Option Block)} {d : Dag}
    (hd : d = s.dag.setLine 1 (l ++ [some (thirdBlock (k + 1))]))
    (hl : d.line 1 = some (l ++ [some (thirdBlock (k + 1))])) :
    d.handleCommitReq ⟨1, 2 * (k + 1 : Nat)⟩ = some ({ d with
      uncommitted := d.uncommitted.insert (2 * (k + 1 : Nat)) 1
      pendingCommit := some ⟨1, 2 * (k + 1 : Nat)⟩ },
      .submit (anchorOf (k + 1))) := by
  have hnext : d.nextCommit ⟨1, 2 * (k + 1 : Nat)⟩ = ⟨1, 2 * (k + 1 : Nat)⟩ := by
    have hlatest : d.pendingCommit = some ⟨1, 2 * k⟩ := by rw [hd]; exact h.latest
    simp only [Dag.nextCommit, hlatest]
    rw [if_pos (by omega)]
  have hready : ({ d with
      uncommitted := d.uncommitted.insert (2 * (k + 1 : Nat)) 1
      pendingCommit := some ⟨1, 2 * (k + 1 : Nat)⟩ } : Dag).isAnchorReady (2 * (k + 1 : Nat)) =
      true := by
    have hmark : d.commitMark = -2 := by rw [hd]; exact h.commitMark
    have hun : d.uncommitted = s.dag.uncommitted := by rw [hd]; rfl
    rw [isAnchorReady_iff]
    intro r hpar hlo hhi
    simp only [hmark] at hpar hlo
    dsimp only
    rw [GoMap.lookup_insert_ite, hun]
    split
    · rfl
    · have hr := h.leaders (r / 2).toNat (by omega)
      rwa [show 2 * (((r / 2).toNat : Nat) : Int) = r by omega] at hr
  have htop : Dag.topBlock (l ++ [some (thirdBlock (k + 1))]) (2 * (k + 1 : Nat)) =
      some (thirdBlock (k + 1)) := by
    simp only [Dag.topBlock, List.filterMap_append, List.filterMap_cons, List.filterMap_nil, id,
      List.reverse_append, List.reverse_cons, List.reverse_nil, List.nil_append,
      List.singleton_append]
    rw [List.find?_cons_of_pos]
    have hpast : goSub (3 * (k + 1 : Nat) + 2) (3 * (k + 1 : Nat)) = 2 := by
      rw [goSub, add_sub_cancel_left]
      rfl
    simp only [thirdBlock, hpast, le_refl, and_self, decide_true]
  have hline : ({ d with
      uncommitted := d.uncommitted.insert (2 * (k + 1 : Nat)) 1
      pendingCommit := some ⟨1, 2 * (k + 1 : Nat)⟩ } : Dag).line 1 =
      some (l ++ [some (thirdBlock (k + 1))]) := hl
  simp only [Dag.handleCommitReq, hnext, hready, ite_true, hline, Option.bind_eq_bind,
    Option.bind_some, htop]
  simp [thirdBlock, anchorOf]

/-- One more round is revealed. -/
theorem Filling.next {k : Nat} {s : Pair} (h : s.Filling k) :
    ∃ d, Machine.run step s (revealNext (k + 1)) =
        some { s with dag := d, dagPc := .submit (anchorOf (k + 1)) } ∧
      ({ s with dag := d, submitCh := s.submitCh ++ [anchorOf (k + 1)] } : Pair).Filling
        (k + 1) := by
  obtain ⟨l, hlen, hpush, hline⟩ := h.push
  have hreveal := h.reveal rfl hline
  refine ⟨{ s.dag.setLine 1 (l ++ [some (thirdBlock (k + 1))]) with
    uncommitted := s.dag.uncommitted.insert (2 * (k + 1 : Nat)) 1
    pendingCommit := some ⟨1, 2 * (k + 1 : Nat)⟩ }, ?_, ?_⟩
  · simp only [revealNext, Machine.run, step, h.running, h.idle, h.empty, opCap, OpMsg.orderOk,
      Dag.handle, hpush, hreveal, List.nil_append, List.length_nil, Nat.zero_lt_succ, ite_true,
      Bool.false_eq_true, ite_false, Option.bind_some, Option.some.injEq]
    simp only [Dag.setLine]
  · refine ⟨h.running, h.idle, h.empty, h.waiting, ?_, h.commitMark, ?_, rfl, h.mark, ?_,
      h.pending⟩
    · rw [List.length_append, h.queue, List.length_singleton]
    · intro j hj
      dsimp only
      rw [GoMap.lookup_insert_ite]
      split
      · rfl
      · exact h.leaders j (by omega)
    · refine ⟨_, hline, ?_⟩
      rw [List.length_append, hlen, List.length_singleton]
      omega

/-- Any number of rounds up to the capacity of the queue can be submitted. -/
theorem Filling.fill {s : Pair} (h : s.Filling 0) {n : Nat} (hn : n ≤ submitCap) :
    ∃ acts t, Machine.run step s acts = some t ∧ t.Filling n := by
  induction n with
  | zero => exact ⟨[], s, rfl, h⟩
  | succ n ih =>
    obtain ⟨acts, u, hu, hfill⟩ := ih (by omega)
    obtain ⟨d, hrun, hnext⟩ := hfill.next
    have hsubmit : step { u with dag := d, dagPc := .submit (anchorOf (n + 1)) } .submit =
        some { u with dag := d, submitCh := u.submitCh ++ [anchorOf (n + 1)] } := by
      have hroom : u.submitCh.length < submitCap := by rw [hfill.queue]; omega
      simp only [step, hfill.running, Bool.false_eq_true, ite_false, hroom, ite_true,
        hfill.idle]
    exact ⟨_, _, Machine.run_concat.mpr ⟨_, Machine.run_append.mpr ⟨u, hu, hrun⟩, hsubmit⟩, hnext⟩

/-- The commitor waits for the anchor of the first round. -/
def firstWait : List Act := revealNext 0 ++ [.submit, .take, .pull, .dag []]

private theorem filling_firstWait : ∃ s, Reaches 0 fourMembers firstWait s ∧ s.Filling 0 := by
  obtain ⟨s, hs, h₁, h₂, h₃, h₄, h₅, h₆, h₇, h₈, h₉, h₁₀, h₁₁⟩ :
      ∃ s ∈ Machine.run step (init 0 fourMembers) firstWait,
        s.crashed = false ∧ s.dagPc = .idle ∧ s.opCh.isEmpty ∧ s.comBlocked = true ∧
        s.submitCh.length = 0 ∧ s.dag.commitMark = -2 ∧ (s.dag.uncommitted.lookup 0).isSome ∧
        s.dag.pendingCommit = some ⟨1, 0⟩ ∧ s.dag.mark 1 = -1 ∧
        (s.dag.line 1).map List.length = some 3 ∧ s.dag.pending.keys = [⟨1, 0⟩] := by
    decide +kernel
  refine ⟨s, hs, h₁, h₂, List.isEmpty_iff.mp h₃, h₄, h₅, h₆, ?_, h₈, h₉, ?_, ?_⟩
  · intro j hj
    obtain rfl : j = 0 := by omega
    exact h₇
  · obtain ⟨l, hl, hlen⟩ := Option.map_eq_some_iff.mp h₁₀
    exact ⟨l, hl, hlen⟩
  · intro sl ch hp
    have hmem := (GoMap.mem_keys_iff _ _).mpr ⟨ch, hp⟩
    rwa [h₁₁, List.mem_singleton] at hmem

/-- While the commitor waits for the anchor of the first round, a hundred and one further
rounds are revealed: the dag blocks on `submitCh`, and the commitor on the dag. -/
theorem crowded_waits_in_circle : ∃ acts s, Reaches 0 fourMembers acts s ∧
    s.dagBlocked = true ∧ s.comBlocked = true := by
  obtain ⟨s, hs, hfirst⟩ := filling_firstWait
  obtain ⟨acts, t, ht, hfull⟩ := hfirst.fill le_rfl
  obtain ⟨d, hrun, _⟩ := hfull.next
  refine ⟨_, _, Machine.run_append.mpr ⟨_, Machine.run_append.mpr ⟨s, hs, ht⟩, hrun⟩, ?_,
    hfull.waiting⟩
  simp [dagBlocked, hfull.queue]

end Pair

end Loom
