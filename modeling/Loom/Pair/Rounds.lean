import Loom.Pair.Once

/-!
# Commit rounds and garbage collection

A commit is outstanding from the moment `handleCommitReq` decides to submit it until
`handleCleanReq` has collected it. `outstanding` lists the rounds of these commits along
the pipeline dag, `submitCh`, commitor, `opCh`, oldest first. The garbage collector takes
its round from `pendingCommit`, so it collects for the right commit only if no reveal
has replaced `pendingCommit` in between; `steady` is the condition on a step that rules
this out.
-/

namespace Loom

/-- The round of the commit in progress. -/
def Commitor.rounds : Commitor → List Int
  | .idle => []
  | .pulling c | .waiting c _ _ | .received c _ _ => [c.req.round]
  | .executing req _ _ => [req.round]

/-- The round of a commit whose blocks are being executed. -/
def Commitor.executingRounds : Commitor → List Int
  | .executing req _ _ => [req.round]
  | _ => []

/-- The request whose pull loop is running. -/
def Commitor.reading : Commitor → Option SubmitReq
  | .pulling c | .waiting c _ _ | .received c _ _ => some c.req
  | _ => none

/-- The round of a submission that waits for room in `submitCh`. -/
def DagPc.rounds : DagPc → List Int
  | .submit req => [req.round]
  | _ => []

@[simp] theorem DagPc.rounds_idle : DagPc.idle.rounds = [] := rfl

@[simp] theorem DagPc.rounds_submit (req : SubmitReq) :
    (DagPc.submit req).rounds = [req.round] := rfl

/-- The rounds of the garbage collections in a queue. -/
def gcRounds (ops : List OpMsg) : List Int :=
  ops.filterMap fun
    | .gcReq _ r => some r
    | _ => none

@[simp] theorem gcRounds_nil : gcRounds [] = [] := rfl

@[simp] theorem gcRounds_core (req : CoreReq) (ops : List OpMsg) :
    gcRounds (.core req :: ops) = gcRounds ops := rfl

@[simp] theorem gcRounds_pull (sl : Slot) (ch : Nat) (ops : List OpMsg) :
    gcRounds (.blockPullReq sl ch :: ops) = gcRounds ops := rfl

@[simp] theorem gcRounds_gc (wm : GoMap Int Int) (r : Int) (ops : List OpMsg) :
    gcRounds (.gcReq wm r :: ops) = r :: gcRounds ops := rfl

@[simp] theorem gcRounds_append (xs ys : List OpMsg) :
    gcRounds (xs ++ ys) = gcRounds xs ++ gcRounds ys := List.filterMap_append ..

namespace Pair

/-- The rounds of the outstanding commits, oldest first. -/
def outstanding (s : Pair) : List Int :=
  gcRounds s.opCh ++ (s.com.rounds ++ (s.submitCh.map (·.round) ++ s.dagPc.rounds))

/-- The rounds of the commits that are past their pull loop, oldest first. -/
def collecting (s : Pair) : List Int := gcRounds s.opCh ++ s.com.executingRounds

/-- A reveal that leaves the pending commit where it is. -/
def keepsPending (d : Dag) (req : CommitReq) : Bool :=
  match d.pendingCommit with
  | none => false
  | some p => decide (req.round ≤ p.round) &&
      (d.line p.leader).any fun l => (Dag.topBlock l p.round).isSome

/-- The condition under which garbage collection meets its commit: a reveal is handled
only when no commit is outstanding, or it keeps the pending one. -/
def steady (s : Pair) : Act → Bool
  | .dag _ =>
    match s.opCh with
    | .core (.commitReq req) :: _ => s.outstanding.isEmpty || keepsPending s.dag req
    | _ => true
  | _ => true

/-- Whether a step handles the given reveal. -/
def Reveals (s : Pair) (a : Act) (req : CommitReq) : Prop :=
  (∃ order, a = .dag order) ∧ ∃ rest, s.opCh = .core (.commitReq req) :: rest

/-! ## One step of the pipeline -/

/-- Only a reveal touches the pending commit. -/
theorem pendingCommit_handle {d d' : Dag} {order : List Int} {m : OpMsg} {pc : DagPc}
    (hm : d.handle order m = some (d', pc)) (hr : ∀ req, m ≠ .core (.commitReq req)) :
    d'.pendingCommit = d.pendingCommit ∧ pc.rounds = [] := by
  cases m with
  | core req =>
    cases req with
    | propose block =>
      rcases Dag.handleBlockPushReq_cases hm with ⟨_, rfl, rfl⟩ | ⟨_, l, _, rfl, hpc⟩
      · exact ⟨rfl, rfl⟩
      · rcases hpc with ⟨_, rfl⟩ | ⟨_, _, rfl⟩ <;> exact ⟨rfl, rfl⟩
    | refReq round =>
      obtain ⟨rfl, ref, rfl⟩ := Dag.handleRefReq_dag hm
      exact ⟨rfl, rfl⟩
    | commitReq req => exact absurd rfl (hr req)
  | blockPullReq sl ch =>
    rcases Dag.handleBlockPullReq_cases hm with
      ⟨_, rfl, rfl⟩ | ⟨_, _, _, ⟨_, _, rfl, rfl⟩ | ⟨_, rfl, rfl⟩⟩ <;> exact ⟨rfl, rfl⟩
  | gcReq wm r =>
    obtain ⟨rfl, p, d₁, _, _, rfl⟩ := Dag.handleCleanReq_cases hm
    exact ⟨rfl, rfl⟩

/-- Outside garbage collection and reveals, the round bookkeeping of the dag stands still. -/
theorem rounds_handle {d d' : Dag} {order : List Int} {m : OpMsg} {pc : DagPc}
    (hm : d.handle order m = some (d', pc)) (hr : ∀ req, m ≠ .core (.commitReq req))
    (hgc : ∀ wm r, m ≠ .gcReq wm r) :
    d'.commitMark = d.commitMark ∧ d'.uncommitted = d.uncommitted := by
  cases m with
  | core req =>
    cases req with
    | propose block =>
      rcases Dag.handleBlockPushReq_cases hm with ⟨_, rfl, _⟩ | ⟨_, l, _, rfl, _⟩ <;>
        exact ⟨rfl, rfl⟩
    | refReq round =>
      obtain ⟨rfl, _⟩ := Dag.handleRefReq_dag hm
      exact ⟨rfl, rfl⟩
    | commitReq req => exact absurd rfl (hr req)
  | blockPullReq sl ch =>
    rcases Dag.handleBlockPullReq_cases hm with
      ⟨_, rfl, _⟩ | ⟨_, _, _, ⟨_, _, rfl, _⟩ | ⟨_, rfl, _⟩⟩ <;> exact ⟨rfl, rfl⟩
  | gcReq wm r => exact absurd rfl (hgc wm r)

/-- Without a reveal, commits only move on along the pipeline or leave it. -/
theorem outstanding_step {s t : Pair} {a : Act} (hs : s.Step a t)
    (hr : ∀ req, ¬ s.Reveals a req) : t.outstanding.Sublist s.outstanding := by
  cases hs with
  | send req => simp [outstanding]
  | crash => exact List.Sublist.refl _
  | @dag order m rest d pc hpc hop _ hm =>
    have hno : ∀ req, m ≠ .core (.commitReq req) := by
      rintro req rfl
      exact hr req ⟨⟨order, rfl⟩, rest, hop⟩
    have hrest : (gcRounds rest).Sublist (gcRounds (m :: rest)) :=
      (List.sublist_cons_self m rest).filterMap _
    simp only [outstanding, (pendingCommit_handle hm hno).2, hpc, hop, DagPc.rounds_idle]
    exact hrest.append (List.Sublist.refl _)
  | submit hpc => simp [outstanding, hpc, DagPc.rounds]
  | reply hpc hcom => simp [outstanding, hpc, hcom, DagPc.rounds, Commitor.rounds]
  | refResp hpc => simp [outstanding, hpc, DagPc.rounds]
  | take hcom hsub => simp [outstanding, hcom, hsub, Commitor.rounds, CommitState.start]
  | skip hcom _ _ => simp [outstanding, hcom, Commitor.rounds]
  | pull hcom _ _ => simp [outstanding, hcom, Commitor.rounds]
  | @process c head b hcom =>
    have hreq : (c.receive s.dag.uncommitted head b).req = c.req := by cases b <;> rfl
    simp [outstanding, hcom, Commitor.rounds, hreq]
  | nothing hcom _ _ => simp [outstanding, hcom, Commitor.rounds]
  | finish hcom _ _ _ _ => simp [outstanding, hcom, Commitor.rounds]
  | exec hcom => simp [outstanding, hcom, Commitor.rounds]
  | gc hcom => simp [outstanding, hcom, Commitor.rounds]

/-- Only a handled request changes the dag. -/
theorem Step.dag_eq {s t : Pair} {a : Act} (hs : s.Step a t) :
    t.dag = s.dag ∨ ∃ order m rest d pc, a = .dag order ∧ s.dagPc = .idle ∧
      s.opCh = m :: rest ∧ m.orderOk order = true ∧ s.dag.handle order m = some (d, pc) ∧
      t = { s with dag := d, dagPc := pc, opCh := rest } := by
  cases hs with
  | dag hpc hop hord hm => exact Or.inr ⟨_, _, _, _, _, rfl, hpc, hop, hord, hm, rfl⟩
  | _ => exact Or.inl rfl

/-! ## Garbage collection meets its commit -/

/-- The pending commit is the one of every outstanding round. -/
def Matched (s : Pair) : Prop :=
  ∀ R ∈ s.outstanding, ∃ p, s.dag.pendingCommit = some p ∧ p.round = R

/-- A reveal handled while it keeps the pending commit does not replace it. -/
theorem nextCommit_of_keepsPending {d : Dag} {req : CommitReq} (h : keepsPending d req = true) :
    ∃ p l b, d.pendingCommit = some p ∧ d.nextCommit req = p ∧ req.round ≤ p.round ∧
      d.line p.leader = some l ∧ Dag.topBlock l p.round = some b := by
  unfold keepsPending at h
  split at h
  · cases h
  · rename_i p hp
    simp only [Bool.and_eq_true, decide_eq_true_eq, Option.any_eq_true,
      Option.isSome_iff_exists] at h
    obtain ⟨hle, l, hl, b, hb⟩ := h
    refine ⟨p, l, b, hp, ?_, hle, hl, hb⟩
    simp only [Dag.nextCommit, hp]
    rw [if_neg (by omega)]

/-- A reveal that keeps the pending anchor leaves the rounds matched. -/
theorem Matched.reveal {s : Pair} (h : s.Matched) {req : CommitReq} {rest : List OpMsg} {d : Dag}
    {pc : DagPc} (hpc : s.dagPc = .idle) (hop : s.opCh = .core (.commitReq req) :: rest)
    (hok : s.outstanding = [] ∨ keepsPending s.dag req = true)
    (hm : s.dag.handleCommitReq req = some (d, pc)) :
    ({ s with dag := d, dagPc := pc, opCh := rest } : Pair).Matched := by
  have hout : ∀ R ∈ ({ s with dag := d, dagPc := pc, opCh := rest } : Pair).outstanding,
      R ∈ s.outstanding ∨ R ∈ pc.rounds := by
    intro R hR
    simp only [outstanding, hop, hpc, gcRounds_core, List.mem_append] at hR ⊢
    tauto
  intro R hR
  obtain ⟨p, rfl, hcase⟩ := Dag.handleCommitReq_cases hm
  rcases hok with hq | hk
  · rcases hout R hR with hold | hnew
    · rw [hq] at hold
      cases hold
    · rcases hcase with ⟨_, _, rfl⟩ | ⟨_, l, _, ⟨_, _, rfl⟩ | ⟨b, _, rfl, rfl⟩⟩
      · cases hnew
      · cases hnew
      · rw [DagPc.rounds_submit, List.mem_singleton] at hnew
        exact ⟨_, rfl, hnew.symm⟩
  · obtain ⟨p₀, l₀, b₀, hp₀, hnext, _, hl₀, hb₀⟩ := nextCommit_of_keepsPending hk
    rw [hnext] at hcase
    have hsame : ∀ R ∈ s.outstanding, p₀.round = R := by
      intro R hR
      obtain ⟨p', hp', hround⟩ := h R hR
      rw [hp₀] at hp'
      cases hp'
      exact hround
    rcases hcase with ⟨_, rfl, rfl⟩ | ⟨_, l, hl, ⟨hnone, _, _⟩ | ⟨b, _, rfl, rfl⟩⟩
    · rcases hout R hR with hold | hnew
      · exact ⟨p₀, rfl, hsame R hold⟩
      · cases hnew
    · rw [hl₀, Option.some.injEq] at hl
      subst l
      rw [hb₀] at hnone
      cases hnone
    · rcases hout R hR with hold | hnew
      · exact ⟨p₀, rfl, hsame R hold⟩
      · rw [DagPc.rounds_submit, List.mem_singleton] at hnew
        exact ⟨p₀, rfl, hnew.symm⟩

/-- Every steady step does. -/
theorem Matched.step {s t : Pair} {a : Act} (h : s.Matched) (hok : s.steady a = true)
    (hs : s.Step a t) : t.Matched := by
  by_cases hr : ∃ req, s.Reveals a req
  · obtain ⟨req, ⟨order, rfl⟩, rest, hop⟩ := hr
    simp only [steady, hop, Bool.or_eq_true, List.isEmpty_iff] at hok
    cases hs with
    | crash => exact h
    | dag hpc hop' _ hm =>
      rw [hop] at hop'
      cases hop'
      exact h.reveal hpc hop hok hm
  · have hno : ∀ req, ¬ s.Reveals a req := fun req hreq => hr ⟨req, hreq⟩
    intro R hR
    obtain ⟨p, hp, hround⟩ := h R ((outstanding_step hs hno).subset hR)
    refine ⟨p, ?_, hround⟩
    rcases hs.dag_eq with hd | ⟨order, m, rest, d, pc, rfl, _, hop, _, hm, rfl⟩
    · rw [hd]
      exact hp
    · have hm' : ∀ req, m ≠ .core (.commitReq req) := by
        rintro req rfl
        exact hno req ⟨⟨order, rfl⟩, rest, hop⟩
      exact ((pendingCommit_handle hm hm').1).trans hp

/-- **Garbage collection matches the commit that caused it**, in every run whose reveals
are handled while no commit is outstanding or keep the pending commit. -/
theorem gc_meets_commit {i : Int} {c : Committee} {acts : List Act} {s : Pair}
    (h : Reaches i c acts s)
    (hok : Machine.Along step (fun s a => s.steady a = true) (init i c) acts)
    {wm : GoMap Int Int} {R : Int} {rest : List OpMsg} (hop : s.opCh = .gcReq wm R :: rest)
    {order : List Int} (hord : order.Perm wm.keys) :
    s.dag.pendingCommit.isSome ∧ ∃ d, s.dag.handle order (.gcReq wm R) = some (d, .idle) ∧
      d.commitMark = R ∧
      ∀ r, d.uncommitted.lookup r = if r ≤ R then none else s.dag.uncommitted.lookup r := by
  have hmatch : s.Matched := Machine.invariant_along
    (fun _ _ _ hi ha hs => Matched.step hi ha (step_cases hs).2) (by simp [Matched, outstanding,
      init, Commitor.rounds, DagPc.rounds]) hok h
  obtain ⟨p, hp, hround⟩ := hmatch R (by simp [outstanding, hop])
  have hheld : s.dag.WmHeld wm := h.inv.bounds.gc wm R (hop ▸ List.mem_cons_self ..)
  obtain ⟨d₁, h₁⟩ := hheld.cleanLines hord
  have hm : ∃ d, s.dag.handle order (.gcReq wm R) = some (d, .idle) := by
    simp only [Dag.handle, Dag.handleCleanReq, hp, h₁, Option.bind_eq_bind, Option.bind_some]
    exact ⟨_, rfl⟩
  obtain ⟨d, hd⟩ := hm
  refine ⟨by rw [hp]; rfl, d, hd, ?_⟩
  obtain ⟨_, p', d₂, hp', _, rfl⟩ := Dag.handleCleanReq_cases hd
  rw [hp] at hp'
  cases hp'
  refine ⟨hround, fun r => ?_⟩
  rw [← hround]
  exact Dag.lookup_erase_le _ _ _

/-- Members `1` and `2` push three blocks each, of rounds `0` and `2`, and member `1` is
revealed as the leader of round `0`; its anchor has been taken by the commitor. -/
def firstCommit : List Act :=
  (List.range 3).map (fun k => .send (.propose (plainBlock 0 1 k))) ++
  (List.range 3).map (fun k => .send (.propose (plainBlock 2 2 k))) ++
  [.send (.commitReq ⟨1, 0⟩)] ++ List.replicate 7 (.dag []) ++ [.submit, .take]

/-- The rest of the first commit up to its garbage collection. -/
def finishFirst : List Act :=
  [.pull, .dag [], .reply, .process, .finish [⟨1, 0⟩] [0], .exec, .gc]

/-- A second leader, of round `2`, is revealed while the first commit is in progress, and
it has no block to commit. -/
def emptyLeader : List Act :=
  firstCommit ++ [.send (.commitReq ⟨3, 2⟩), .dag []] ++ finishFirst

private theorem gc_of_rounds {ops : List OpMsg} {r : Int} (h : gcRounds ops = [r])
    (hl : ops.length = 1) : ∃ wm, ops = [.gcReq wm r] := by
  obtain ⟨m, rfl⟩ := List.length_eq_one_iff.mp hl
  cases m with
  | gcReq wm r' =>
    cases h
    exact ⟨wm, rfl⟩
  | core | blockPullReq => cases h

/-- The first request to clean finds the round it belongs to. -/
theorem gc_meets_commit_first : ∃ s wm d,
    Reaches 0 fourMembers (firstCommit ++ finishFirst) s ∧ s.opCh = [.gcReq wm 0] ∧
    s.dag.handle wm.keys (.gcReq wm 0) = some (d, .idle) ∧ d.commitMark = 0 := by
  obtain ⟨s, hs, hgc, hlen⟩ : ∃ s ∈ Machine.run step (init 0 fourMembers)
      (firstCommit ++ finishFirst), gcRounds s.opCh = [0] ∧ s.opCh.length = 1 := by decide +kernel
  obtain ⟨wm, hop⟩ := gc_of_rounds hgc hlen
  obtain ⟨_, d, hd, hmark, _⟩ := gc_meets_commit hs (by decide +kernel) hop (List.Perm.refl _)
  exact ⟨s, wm, d, hs, hop, hd, hmark⟩

/-- A reveal without a block to commit clears the pending commit of the one in progress,
and the dag panics on the garbage collection of round `0`. -/
theorem emptyLeader_gc_panics : ∃ s t wm, Reaches 0 fourMembers emptyLeader s ∧
    s.opCh = [.gcReq wm 0] ∧ s.dag.pendingCommit = none ∧
    s.step (.dag wm.keys) = some t ∧ t.crashed = true := by
  obtain ⟨s, hs, hgc, hlen, hp, hpc, hcr⟩ : ∃ s ∈ Machine.run step (init 0 fourMembers) emptyLeader,
      gcRounds s.opCh = [0] ∧ s.opCh.length = 1 ∧ s.dag.pendingCommit = none ∧
      s.dagPc = .idle ∧ s.crashed = false := by decide +kernel
  obtain ⟨wm, hop⟩ := gc_of_rounds hgc hlen
  refine ⟨s, { s with crashed := true }, wm, hs, hop, hp, ?_, rfl⟩
  have hm : s.dag.handle wm.keys (.gcReq wm 0) = none := by
    simp [Dag.handle, Dag.handleCleanReq, hp]
  have hord : (OpMsg.gcReq wm 0).orderOk wm.keys = true :=
    List.isPerm_iff.mpr (List.Perm.refl _)
  simp [step, hcr, hpc, hop, hord, hm]

/-! ## The order of the commits -/

/-- The round of the latest commit, `-2` before the first one. -/
def lastRound (cs : List SubmitReq) : Int := (cs.getLast?.map (·.round)).getD (-2)

@[simp] theorem lastRound_concat (cs : List SubmitReq) (req : SubmitReq) :
    lastRound (cs ++ [req]) = req.round := by simp [lastRound]

/-- In an increasing list of rounds the latest is the highest. -/
theorem le_lastRound {cs : List SubmitReq} (h : (cs.map (·.round)).Pairwise (· < ·)) {r : Int}
    (hr : r ∈ cs.map (·.round)) : r ≤ lastRound cs := by
  induction cs using List.reverseRecOn with
  | nil => simp at hr
  | append_singleton cs req _ =>
    rw [lastRound_concat]
    simp only [List.map_append, List.map_cons, List.map_nil, List.mem_append,
      List.mem_singleton] at hr
    rw [List.map_append, List.pairwise_append] at h
    rcases hr with hr | rfl
    · exact le_of_lt (h.2.2 r hr req.round (by simp))
    · exact le_rfl

/-- What `isAnchorReady` checks: every round of the right parity has its leader. -/
theorem isAnchorReady_iff (d : Dag) (R : Int) : d.isAnchorReady R = true ↔
    ∀ r, r % 2 = d.commitMark % 2 → d.commitMark < r → r ≤ R →
      (d.uncommitted.lookup r).isSome := by
  simp only [Dag.isAnchorReady, List.all_eq_true, List.mem_range]
  constructor
  · intro h r hpar hlo hhi
    have hk := h ((r - d.commitMark - 2) / 2).toNat (by omega)
    rwa [show d.commitMark + 2 + 2 * (((r - d.commitMark - 2) / 2).toNat : Int) = r by omega] at hk
  · intro h k hk
    exact h _ (by omega) (by omega) (by omega)

/-- The bookkeeping of a pair that handles one commit at a time. -/
structure Aligned (s : Pair) : Prop where
  even : s.dag.commitMark % 2 = 0
  low : -2 ≤ s.dag.commitMark
  above : ∀ r l, s.dag.uncommitted.lookup r = some l → s.dag.commitMark < r ∧ r % 2 = 0
  pending : ∀ p, s.dag.pendingCommit = some p → s.dag.commitMark ≤ p.round ∧ p.round % 2 = 0
  single : s.outstanding.length ≤ 1
  inFlight : ∀ R ∈ s.outstanding, (∃ p, s.dag.pendingCommit = some p ∧ p.round = R) ∧
    s.dag.commitMark < R ∧
    ∀ r, r % 2 = 0 → s.dag.commitMark < r → r ≤ R → (s.dag.uncommitted.lookup r).isSome
  commits : (s.commits.map (·.round)).Pairwise (· < ·)
  settled : s.collecting = [] → lastRound s.commits = s.dag.commitMark
  collecting : ∀ R ∈ s.collecting, lastRound s.commits = R

/-- At the start no round is under way. -/
theorem aligned_init (i : Int) (c : Committee) : (init i c).Aligned where
  even := rfl
  low := le_rfl
  above := by simp [init, newDag]
  pending := by simp [init, newDag]
  single := by simp [outstanding, init, Commitor.rounds]
  inFlight := by simp [outstanding, init, Commitor.rounds]
  commits := by simp [init]
  settled := by simp [init, newDag, lastRound]
  collecting := by simp [collecting, init, Commitor.executingRounds]

/-- The pending commit after a reveal above the commit mark. -/
theorem nextCommit_round {d : Dag} {req : CommitReq} (hreq : d.commitMark < req.round)
    (heven : req.round % 2 = 0) (hp : ∀ p, d.pendingCommit = some p → p.round % 2 = 0) :
    d.commitMark < (d.nextCommit req).round ∧ (d.nextCommit req).round % 2 = 0 := by
  unfold Dag.nextCommit
  split
  · exact ⟨hreq, heven⟩
  · rename_i p hpend
    split
    · exact ⟨hreq, heven⟩
    · exact ⟨by omega, hp p hpend⟩

/-- A reveal above the commit mark, handled while no commit is outstanding. -/
theorem Aligned.reveal {s : Pair} (h : s.Aligned) {req : CommitReq} {rest : List OpMsg} {d : Dag}
    {pc : DagPc} (hop : s.opCh = .core (.commitReq req) :: rest) (hq : s.outstanding = [])
    (heven : req.round % 2 = 0) (hlo : s.dag.commitMark < req.round)
    (hm : s.dag.handleCommitReq req = some (d, pc)) :
    ({ s with dag := d, dagPc := pc, opCh := rest } : Pair).Aligned := by
  have hempty := hq
  simp only [outstanding, hop, gcRounds_core, List.append_eq_nil_iff] at hempty
  obtain ⟨hgc, hcom, hsub, _⟩ := hempty
  have hout : ({ s with dag := d, dagPc := pc, opCh := rest } : Pair).outstanding = pc.rounds := by
    simp only [outstanding, hgc, hcom, hsub, List.nil_append]
  have hcoll : ({ s with dag := d, dagPc := pc, opCh := rest } : Pair).collecting =
      s.collecting := by
    simp only [Pair.collecting, hop, gcRounds_core]
  obtain ⟨p, rfl, hcase⟩ := Dag.handleCommitReq_cases hm
  have hnext := nextCommit_round hlo heven fun p hp => (h.pending p hp).2
  have hp : p = none ∨ p = some (s.dag.nextCommit req) := by
    rcases hcase with ⟨_, rfl, _⟩ | ⟨_, _, _, ⟨_, rfl, _⟩ | ⟨_, _, rfl, _⟩⟩ <;> simp
  refine ⟨h.even, h.low, ?_, ?_, ?_, ?_, h.commits, ?_, ?_⟩
  · intro r l hr
    rw [GoMap.lookup_insert_ite] at hr
    split at hr
    · subst r
      exact ⟨hlo, heven⟩
    · exact h.above r l hr
  · intro p' hp'
    rcases hp with rfl | rfl
    · cases hp'
    · cases hp'
      exact ⟨le_of_lt hnext.1, hnext.2⟩
  · rw [hout]
    rcases hcase with ⟨_, _, rfl⟩ | ⟨_, _, _, ⟨_, _, rfl⟩ | ⟨_, _, _, rfl⟩⟩ <;> simp
  · intro R hR
    rw [hout] at hR
    rcases hcase with ⟨_, _, rfl⟩ | ⟨hready, _, _, ⟨_, _, rfl⟩ | ⟨_, _, rfl, rfl⟩⟩
    · cases hR
    · cases hR
    · rw [DagPc.rounds_submit, List.mem_singleton] at hR
      subst R
      refine ⟨⟨_, rfl, rfl⟩, hnext.1, fun r hr => ?_⟩
      exact (isAnchorReady_iff _ _).mp hready r (by rw [hr]; exact h.even.symm)
  · rw [hcoll]
    exact h.settled
  · rw [hcoll]
    exact h.collecting

/-- Collecting the one outstanding commit. -/
theorem Aligned.gc {s : Pair} (h : s.Aligned) {wm : GoMap Int Int} {R : Int} {rest : List OpMsg}
    {order : List Int} {d : Dag} {pc : DagPc} (hop : s.opCh = .gcReq wm R :: rest)
    (hm : s.dag.handle order (.gcReq wm R) = some (d, pc)) :
    ({ s with dag := d, dagPc := pc, opCh := rest } : Pair).Aligned ∧ d.commitMark = R := by
  have hmem : R ∈ s.outstanding := by simp [outstanding, hop]
  obtain ⟨⟨p, hp, hround⟩, hlt, _⟩ := h.inFlight R hmem
  obtain ⟨rfl, p', d₁, hp', _, rfl⟩ := Dag.handleCleanReq_cases hm
  rw [hp] at hp'
  cases hp'
  subst R
  have hrest : gcRounds rest = [] ∧ s.com.rounds = [] ∧ s.submitCh = [] := by
    have hlen := h.single
    simp only [outstanding, hop, gcRounds_gc, List.length_append, List.length_cons,
      List.length_map] at hlen
    exact ⟨List.length_eq_zero_iff.mp (by omega), List.length_eq_zero_iff.mp (by omega),
      List.length_eq_zero_iff.mp (by omega)⟩
  have hexec : s.com.executingRounds = [] := by
    have hr := hrest.2.1
    cases hcom : s.com <;> simp_all [Commitor.rounds, Commitor.executingRounds]
  refine ⟨⟨(h.pending p hp).2, ?_, ?_, ?_, ?_, ?_, h.commits, ?_, ?_⟩, rfl⟩
  · have hlow := h.low
    simp only
    omega
  · intro r l hr
    change (GoMap.eraseAll _ _).lookup r = some l at hr
    rw [Dag.lookup_erase_le] at hr
    split at hr
    · cases hr
    · exact ⟨by simp only; omega, (h.above r l hr).2⟩
  · intro p' hp'
    change s.dag.pendingCommit = some p' at hp'
    rw [hp] at hp'
    cases hp'
    exact ⟨le_rfl, (h.pending p hp).2⟩
  · simp [outstanding, hrest]
  · simp [outstanding, hrest]
  · intro _
    exact h.collecting p.round (by simp [Pair.collecting, hop])
  · simp [Pair.collecting, hrest, hexec]

/-- Every other step keeps the dag's bookkeeping and moves the commit along. -/
theorem Aligned.move {s t : Pair} (h : s.Aligned) (hmark : t.dag.commitMark = s.dag.commitMark)
    (hun : t.dag.uncommitted = s.dag.uncommitted)
    (hpend : t.dag.pendingCommit = s.dag.pendingCommit)
    (hout : t.outstanding.Sublist s.outstanding) (hcoll : t.collecting = s.collecting)
    (hcommits : t.commits = s.commits) : t.Aligned where
  even := hmark ▸ h.even
  low := hmark ▸ h.low
  above r l hr := by
    rw [hun] at hr
    rw [hmark]
    exact h.above r l hr
  pending p hp := by
    rw [hpend] at hp
    rw [hmark]
    exact h.pending p hp
  single := le_trans hout.length_le h.single
  inFlight R hR := by
    rw [hpend, hmark, hun]
    exact h.inFlight R (hout.subset hR)
  commits := hcommits ▸ h.commits
  settled hc := by
    rw [hcommits, hmark]
    exact h.settled (hcoll ▸ hc)
  collecting R hR := by
    rw [hcommits]
    exact h.collecting R (hcoll ▸ hR)

/-- Finishing a pull loop: the new commit is above all earlier ones. -/
theorem Aligned.finish {s : Pair} (h : s.Aligned) {c : CommitState} (hcom : s.com = .pulling c)
    (slots : List Slot) (rounds : List Int) :
    Aligned { s with
      com := .executing c.req (c.execOrder rounds) (newWatermark slots)
      commits := s.commits ++ [c.req] } := by
  have hmem : c.req.round ∈ s.outstanding := by simp [outstanding, hcom, Commitor.rounds]
  have hgc : gcRounds s.opCh = [] := by
    have hlen := h.single
    simp only [outstanding, hcom, Commitor.rounds, List.length_append, List.length_singleton]
      at hlen
    exact List.length_eq_zero_iff.mp (by omega)
  have hlast := h.settled (by simp [Pair.collecting, hgc, hcom, Commitor.executingRounds])
  have hlt := (h.inFlight _ hmem).2.1
  have hout : outstanding { s with
      com := .executing c.req (c.execOrder rounds) (newWatermark slots)
      commits := s.commits ++ [c.req] } = s.outstanding := by
    simp [outstanding, hcom, Commitor.rounds]
  refine ⟨h.even, h.low, h.above, h.pending, hout ▸ h.single, ?_, ?_, ?_, ?_⟩
  · rw [hout]
    exact h.inFlight
  · rw [List.map_append, List.pairwise_append]
    refine ⟨h.commits, by simp, ?_⟩
    intro r hr q hq
    simp only [List.map_cons, List.map_nil, List.mem_singleton] at hq
    have hle := le_lastRound h.commits hr
    omega
  · simp [Pair.collecting, Commitor.executingRounds]
  · simp [Pair.collecting, Commitor.executingRounds, hgc]

/-- The bookkeeping is kept by every step whose reveal, if it handles one, comes while no
commit is outstanding and is for an even round above the commit mark. -/
theorem Aligned.step {s t : Pair} {a : Act} (h : s.Aligned) (hs : s.Step a t)
    (hok : ∀ req, s.Reveals a req →
      s.outstanding = [] ∧ req.round % 2 = 0 ∧ s.dag.commitMark < req.round) : t.Aligned := by
  by_cases hr : ∃ req, s.Reveals a req
  · obtain ⟨req, hreq⟩ := hr
    obtain ⟨hq, heven, hlo⟩ := hok req hreq
    obtain ⟨⟨order, rfl⟩, rest, hop⟩ := hreq
    cases hs with
    | crash => exact h.move rfl rfl rfl (List.Sublist.refl _) rfl rfl
    | dag _ hop' _ hm =>
      rw [hop] at hop'
      cases hop'
      exact h.reveal hop hq heven hlo hm
  have hno : ∀ req, ¬ s.Reveals a req := fun req hreq => hr ⟨req, hreq⟩
  have hout := outstanding_step hs hno
  cases hs with
  | @dag order m rest d pc _ hop _ hm =>
    by_cases hgc : ∃ wm R, m = .gcReq wm R
    · obtain ⟨wm, R, rfl⟩ := hgc
      exact (h.gc hop hm).1
    · have hm₁ : ∀ req, m ≠ .core (.commitReq req) := by
        rintro req rfl
        exact hno req ⟨⟨order, rfl⟩, rest, hop⟩
      have hm₂ : ∀ wm R, m ≠ .gcReq wm R := fun wm R he => hgc ⟨wm, R, he⟩
      obtain ⟨hmark, hun⟩ := rounds_handle hm hm₁ hm₂
      have hcoll : gcRounds rest = gcRounds s.opCh := by
        rw [hop]
        cases m with
        | core req => rfl
        | blockPullReq sl ch => rfl
        | gcReq wm R => exact absurd rfl (hm₂ wm R)
      refine h.move hmark hun (pendingCommit_handle hm hm₁).1 hout ?_ rfl
      simp only [Pair.collecting, hcoll]
  | finish hcom _ _ _ _ => exact h.finish hcom _ _
  | send req => exact h.move rfl rfl rfl hout (by simp [Pair.collecting]) rfl
  | crash | submit | refResp => exact h.move rfl rfl rfl hout rfl rfl
  | reply _ hcom | take hcom _ | skip hcom _ _ | pull hcom _ _ | process hcom
  | nothing hcom _ _ | exec hcom | gc hcom =>
    refine h.move rfl rfl rfl hout ?_ rfl
    simp [Pair.collecting, hcom, Commitor.executingRounds]

/-- From an aligned state the commit mark does not decrease, whatever the step. -/
theorem Aligned.commitMark_le {s t : Pair} {a : Act} (h : s.Aligned) (hs : s.Step a t) :
    s.dag.commitMark ≤ t.dag.commitMark := by
  rcases hs.dag_eq with hd | ⟨order, m, rest, d, pc, rfl, _, hop, _, hm, rfl⟩
  · rw [hd]
  · cases m with
    | gcReq wm R =>
      obtain ⟨_, p, d₁, hp, _, rfl⟩ := Dag.handleCleanReq_cases hm
      exact (h.pending p hp).1
    | blockPullReq sl ch =>
      exact le_of_eq (rounds_handle hm (by simp) (by simp)).1.symm
    | core req =>
      cases req with
      | commitReq req =>
        obtain ⟨p, rfl, _⟩ := Dag.handleCommitReq_cases hm
        exact le_rfl
      | propose | refReq => exact le_of_eq (rounds_handle hm (by simp) (by simp)).1.symm

/-- While a pull loop runs, the latest commit is the one of the commit mark. -/
theorem Aligned.reading {s : Pair} (h : s.Aligned) {req : SubmitReq}
    (hr : s.com.reading = some req) :
    req.round ∈ s.outstanding ∧ lastRound s.commits = s.dag.commitMark := by
  have hcom : s.com.rounds = [req.round] ∧ s.com.executingRounds = [] := by
    cases hc : s.com <;>
      simp_all [Commitor.reading, Commitor.rounds, Commitor.executingRounds]
  have hgc : gcRounds s.opCh = [] := by
    have hlen := h.single
    simp only [outstanding, hcom.1, List.length_append, List.length_singleton] at hlen
    exact List.length_eq_zero_iff.mp (by omega)
  exact ⟨by simp [outstanding, hcom.1], h.settled (by simp [Pair.collecting, hgc, hcom.2])⟩

/-- The reveals that a run sends to the dag. -/
def reveals (acts : List Act) : List CommitReq :=
  acts.filterMap fun
    | .send (.commitReq req) => some req
    | _ => none

/-- The reveals that wait in a queue. -/
def queuedReveals (ops : List OpMsg) : List CommitReq :=
  ops.filterMap fun
    | .core (.commitReq req) => some req
    | _ => none

/-- The reveals sent so far up to some point have been handled: the leaders of all rounds
up to the commit mark and everything in the leader map are among them. -/
def Handled (sent : List CommitReq) (s : Pair) : Prop :=
  ∃ past, sent = past ++ queuedReveals s.opCh ∧
    (∀ r, 0 ≤ r → r % 2 = 0 → r ≤ s.dag.commitMark → r ∈ past.map (·.round)) ∧
    ∀ r l, s.dag.uncommitted.lookup r = some l → ⟨l, r⟩ ∈ past

private theorem reveals_concat (acts : List Act) (a : Act) :
    reveals (acts ++ [a]) = reveals acts ++ reveals [a] := List.filterMap_append ..

/-- If each even round is revealed at most once, a reveal that meets `steady` comes while
no commit is outstanding, and it is above the commit mark. -/
theorem Handled.fresh {sent : List CommitReq} {s : Pair} {a : Act} {req : CommitReq}
    (h : Handled sent s) (hal : s.Aligned) (honce : (sent.map (·.round)).Nodup)
    (heven : ∀ req ∈ sent, 0 ≤ req.round ∧ req.round % 2 = 0)
    (hok : s.steady a = true) (hr : s.Reveals a req) :
    s.outstanding = [] ∧ req.round % 2 = 0 ∧ s.dag.commitMark < req.round ∧
      s.dag.uncommitted.lookup req.round = none := by
  obtain ⟨past, hpast, hmark, hun⟩ := h
  obtain ⟨⟨order, rfl⟩, rest, hop⟩ := hr
  have hq : queuedReveals s.opCh = req :: queuedReveals rest := by rw [hop]; rfl
  obtain ⟨hnn, hpar⟩ := heven req (by rw [hpast, hq]; simp)
  have hnew : req.round ∉ past.map (·.round) := by
    rw [hpast, hq, List.map_append, List.nodup_append] at honce
    exact fun hmem => honce.2.2 _ hmem _ (by simp) rfl
  have habove : s.dag.commitMark < req.round := by
    by_contra hle
    exact hnew (hmark _ hnn hpar (by omega))
  have hunknown : s.dag.uncommitted.lookup req.round = none := by
    rw [Option.eq_none_iff_forall_ne_some]
    intro l hl
    exact hnew (List.mem_map.mpr ⟨_, hun _ _ hl, rfl⟩)
  refine ⟨?_, hpar, habove, hunknown⟩
  simp only [steady, hop, Bool.or_eq_true, List.isEmpty_iff] at hok
  rcases hok with hok | hk
  · exact hok
  · by_contra hne
    obtain ⟨R, hR⟩ := List.exists_mem_of_ne_nil _ hne
    obtain ⟨⟨p, hp, hround⟩, _, hready⟩ := hal.inFlight R hR
    obtain ⟨p', _, _, hp', _, hle, _⟩ := nextCommit_of_keepsPending hk
    rw [hp] at hp'
    cases hp'
    have hknown := hready req.round hpar habove (by omega)
    rw [hunknown] at hknown
    cases hknown

/-- At the start no reveal has been handled. -/
theorem handled_init (i : Int) (c : Committee) : Handled [] (init i c) := by
  refine ⟨[], rfl, ?_, by simp [init, newDag]⟩
  intro r h0 _ hle
  change r ≤ -2 at hle
  omega

/-- Every step accounts for the reveals. -/
theorem Handled.step {sent : List CommitReq} {s t : Pair} {a : Act} (h : Handled sent s)
    (hal : s.Aligned) (hs : s.Step a t) : Handled (sent ++ reveals [a]) t := by
  obtain ⟨past, hpast, hmark, hun⟩ := h
  unfold Handled
  rw [hpast]
  cases hs with
  | @dag order m rest d pc _ hop _ hm =>
    rw [hop]
    by_cases hr : ∃ req, m = .core (.commitReq req)
    · obtain ⟨req, rfl⟩ := hr
      obtain ⟨p, rfl, _⟩ := Dag.handleCommitReq_cases hm
      refine ⟨past ++ [req], by simp [reveals, queuedReveals], ?_, ?_⟩
      · intro r h0 hpar hle
        rw [List.map_append]
        exact List.mem_append_left _ (hmark r h0 hpar hle)
      · intro r l hl
        rw [List.mem_append, List.mem_singleton]
        rw [GoMap.lookup_insert_ite] at hl
        split at hl
        · subst r
          cases hl
          exact Or.inr rfl
        · exact Or.inl (hun r l hl)
    have hqueue : queuedReveals (m :: rest) = queuedReveals rest := by
      cases m with
      | core req =>
        cases req with
        | commitReq req => exact absurd ⟨req, rfl⟩ hr
        | propose | refReq => rfl
      | blockPullReq | gcReq => rfl
    refine ⟨past, by rw [hqueue]; exact List.append_nil _, ?_⟩
    by_cases hgc : ∃ wm R, m = .gcReq wm R
    · obtain ⟨wm, R, rfl⟩ := hgc
      obtain ⟨_, _, hready⟩ := hal.inFlight R (by simp [outstanding, hop])
      have hcm := (hal.gc hop hm).2
      obtain ⟨_, p, d₁, _, _, rfl⟩ := Dag.handleCleanReq_cases hm
      change p.round = R at hcm
      constructor
      · intro r h0 hpar hle
        change r ≤ p.round at hle
        by_cases hlow : r ≤ s.dag.commitMark
        · exact hmark r h0 hpar hlow
        · obtain ⟨l, hl⟩ := Option.isSome_iff_exists.mp (hready r hpar (by omega) (by omega))
          exact List.mem_map.mpr ⟨_, hun r l hl, rfl⟩
      · intro r l hl
        change (GoMap.eraseAll _ _).lookup r = some l at hl
        rw [Dag.lookup_erase_le] at hl
        split at hl
        · cases hl
        · exact hun r l hl
    · obtain ⟨hcm, hu⟩ := rounds_handle hm (fun req he => hr ⟨req, he⟩)
        fun wm R he => hgc ⟨wm, R, he⟩
      rw [hcm, hu]
      exact ⟨hmark, hun⟩
  | send req =>
    refine ⟨past, ?_, hmark, hun⟩
    cases req <;> simp [reveals, queuedReveals]
  | pull | gc => exact ⟨past, by simp [reveals, queuedReveals], hmark, hun⟩
  | _ => exact ⟨past, List.append_nil _, hmark, hun⟩

/-- **No leader is skipped and commit rounds only move forward**, in every run that meets
`steady` and reveals each even round at most once: the committed rounds increase, the
commit mark never decreases, and a running pull loop finds the revealed leader of every
even round after the previously committed one. -/
theorem commits_in_order {i : Int} {c : Committee} {acts : List Act} {s : Pair}
    (h : Reaches i c acts s)
    (hok : Machine.Along step (fun s a => s.steady a = true) (init i c) acts)
    (heven : ∀ req ∈ reveals acts, 0 ≤ req.round ∧ req.round % 2 = 0)
    (honce : ((reveals acts).map (·.round)).Nodup) :
    (s.commits.map (·.round)).Pairwise (· < ·) ∧
    (∀ a t, s.step a = some t → s.dag.commitMark ≤ t.dag.commitMark) ∧
    ∀ req, s.com.reading = some req →
      ∀ r, r % 2 = 0 → lastRound s.commits < r → r ≤ req.round →
        ∃ l, s.dag.uncommitted.lookup r = some l ∧ ⟨l, r⟩ ∈ reveals acts := by
  have hinv : (∀ req ∈ reveals acts, 0 ≤ req.round ∧ req.round % 2 = 0) →
      ((reveals acts).map (·.round)).Nodup → Handled (reveals acts) s ∧ s.Aligned := by
    refine Machine.history (P := fun acts s =>
      (∀ req ∈ reveals acts, 0 ≤ req.round ∧ req.round % 2 = 0) →
      ((reveals acts).map (·.round)).Nodup → Handled (reveals acts) s ∧ s.Aligned) ?_ ?_ hok h
    · exact fun _ _ => ⟨handled_init i c, aligned_init i c⟩
    · intro acts u a t ih ha hs heven honce
      rw [reveals_concat] at heven honce ⊢
      have heven' := fun req hreq => heven req (List.mem_append_left _ hreq)
      have honce' := (List.nodup_append.mp (List.map_append ▸ honce)).1
      obtain ⟨hh, hal⟩ := ih heven' honce'
      obtain ⟨_, hst⟩ := step_cases hs
      refine ⟨hh.step hal hst, hal.step hst fun req hr => ?_⟩
      obtain ⟨hquiet, hpar, habove, _⟩ := hh.fresh hal honce' heven' ha hr
      exact ⟨hquiet, hpar, habove⟩
  obtain ⟨⟨past, hpast, _, hun⟩, hal⟩ := hinv heven honce
  refine ⟨hal.commits, fun a t ht => hal.commitMark_le (step_cases ht).2, ?_⟩
  intro req hreq r hpar hlo hhi
  obtain ⟨hmem, hlast⟩ := hal.reading hreq
  obtain ⟨l, hl⟩ := Option.isSome_iff_exists.mp
    ((hal.inFlight _ hmem).2.2 r hpar (by omega) hhi)
  exact ⟨l, hl, hpast ▸ List.mem_append_left _ (hun r l hl)⟩

/-- The leader of round `2` is revealed after the first commit has been collected. -/
def inTurn : List Act :=
  firstCommit ++ finishFirst ++ [.dag [1], .send (.commitReq ⟨2, 2⟩), .dag [], .submit, .take]

/-- The leader of round `2` is revealed while the first commit is in progress. -/
def overlapping : List Act :=
  firstCommit ++ [.send (.commitReq ⟨2, 2⟩), .dag [], .submit] ++ finishFirst ++ [.dag [1], .take]

/-- A second round is being committed after the first. -/
theorem commits_in_order_inTurn : ∃ s, Reaches 0 fourMembers inTurn s ∧
    s.com.reading = some ⟨⟨2, 0⟩, 2⟩ ∧ (s.commits.map (·.round)).Pairwise (· < ·) ∧
    ∃ l, s.dag.uncommitted.lookup 2 = some l ∧ ⟨l, 2⟩ ∈ reveals inTurn := by
  obtain ⟨s, hs, hread, hlast⟩ : ∃ s ∈ Machine.run step (init 0 fourMembers) inTurn,
      s.com.reading = some ⟨⟨2, 0⟩, 2⟩ ∧ lastRound s.commits = 0 := by decide +kernel
  have hrun := commits_in_order hs (by decide +kernel) (by decide) (by decide)
  exact ⟨s, hs, hread, hrun.1, hrun.2.2 _ hread 2 rfl (by omega) le_rfl⟩

/-- With overlapping reveals the pull loop of round `2` runs after a commit of round `0`
with a leader map that has lost the leader of round `2`. -/
theorem overlapping_skips_leader : ∃ s, Reaches 0 fourMembers overlapping s ∧
    ((reveals overlapping).map (·.round)).Nodup ∧ (∀ req ∈ reveals overlapping,
      0 ≤ req.round ∧ req.round % 2 = 0) ∧
    s.com.reading = some ⟨⟨2, 0⟩, 2⟩ ∧ lastRound s.commits = 0 ∧
    ⟨2, 2⟩ ∈ reveals overlapping ∧ s.dag.uncommitted.lookup 2 = none := by
  obtain ⟨s, hs, hread, hlast, hnone⟩ : ∃ s ∈ Machine.run step (init 0 fourMembers) overlapping,
      s.com.reading = some ⟨⟨2, 0⟩, 2⟩ ∧ lastRound s.commits = 0 ∧
      s.dag.uncommitted.lookup 2 = none := by decide +kernel
  exact ⟨s, hs, by decide, by decide, hread, hlast, by decide, hnone⟩

end Pair

end Loom
