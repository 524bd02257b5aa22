import Loom.Prelude.Compatible
import Loom.Pair.Lines

/-!
# Commits one at a time

A pair that handles every reveal while no commit is outstanding reads, for the commit of
a round, exactly the leaders of the even rounds after the previous commit and up to that
round. The order in which it executes blocks is then a function of the sequence of its
submissions and of the leaders.
-/

namespace Loom

/-- The submission that waits for room in `submitCh`. -/
def DagPc.requests : DagPc → List SubmitReq
  | .submit req => [req]
  | _ => []

@[simp] theorem DagPc.requests_idle : DagPc.idle.requests = [] := rfl

private theorem DagPc.requests_eq_nil {pc : DagPc} (h : pc.rounds = []) : pc.requests = [] := by
  cases pc with
  | submit req => cases h
  | _ => rfl

/-- The block from which a reveal takes an anchor: if the leaders up to the one to be
committed are known, the highest block of that leader's line two past the opening of its
round. -/
def Dag.leaderTop (d : Dag) (req : CommitReq) : Option Block :=
  if ({ d with uncommitted := d.uncommitted.insert req.round req.leader } : Dag).isAnchorReady
      (d.nextCommit req).round then
    (d.line (d.nextCommit req).leader).bind fun l => topBlock l (d.nextCommit req).round
  else none

/-- The anchor two below a block of the leader to be committed. -/
def Dag.anchorBelow (d : Dag) (req : CommitReq) (b : Block) : SubmitReq :=
  ⟨⟨(d.nextCommit req).leader, b.header.slot.height - 2⟩, (d.nextCommit req).round⟩

/-- A handled reveal submits the anchor below the leader's top block, if there is one. -/
theorem Dag.requests_handleCommitReq (d : Dag) (req : CommitReq) :
    ((d.handleCommitReq req).elim [] fun p => p.2.requests) =
      ((d.leaderTop req).map (d.anchorBelow req)).toList := by
  cases h : d.handleCommitReq req with
  | none =>
    unfold handleCommitReq at h
    dsimp only at h
    split at h
    · cases hl : d.line (d.nextCommit req).leader with
      | none => simp [leaderTop, hl]
      | some l =>
        change ((d.line (d.nextCommit req).leader).bind fun _ => _) = none at h
        rw [hl, Option.bind_some] at h
        split at h <;> cases h
    · cases h
  | some p =>
    obtain ⟨d', pc⟩ := p
    unfold leaderTop
    obtain ⟨_, _, ⟨hready, _, rfl⟩ | ⟨hready, l, hl, ⟨htop, _, rfl⟩ | ⟨b, htop, _, rfl⟩⟩⟩ :=
      Dag.handleCommitReq_cases h
    · rw [hready]
      rfl
    · rw [hready, hl]
      simp [htop]
    · rw [hready, hl]
      simp [htop, anchorBelow, DagPc.requests]

namespace Pair

/-! ## Submissions -/

/-- The anchors that the dag has submitted, oldest first. -/
def submissions (s : Pair) : List SubmitReq := s.taken ++ (s.submitCh ++ s.dagPc.requests)

/-- The anchor that a step submits. -/
def submits (s : Pair) : Act → Option SubmitReq
  | .dag _ =>
    match s.opCh with
    | .core (.commitReq req) :: _ => (s.dag.leaderTop req).map (s.dag.anchorBelow req)
    | _ => none
  | _ => none

/-- Only a reveal submits an anchor. -/
theorem submits_eq_none {s : Pair} {a : Act} (h : ∀ req, ¬ s.Reveals a req) :
    s.submits a = none := by
  unfold submits
  split
  · split
    · rename_i hop
      exact absurd ⟨⟨_, rfl⟩, _, hop⟩ (h _)
    · rfl
  · rfl

private theorem submits_reveal {s : Pair} {req : CommitReq} {rest : List OpMsg} (order : List Int)
    (hop : s.opCh = .core (.commitReq req) :: rest) :
    (s.submits (.dag order)).toList =
      ((s.dag.handleCommitReq req).elim [] fun p => p.2.requests) := by
  simp only [submits, hop, Dag.requests_handleCommitReq]

/-- The submissions grow by the anchor that a step submits. -/
theorem submissions_step {s t : Pair} {a : Act} (hs : s.Step a t) :
    t.submissions = s.submissions ++ (s.submits a).toList := by
  by_cases hr : ∃ req, s.Reveals a req
  · obtain ⟨req, ⟨order, rfl⟩, rest, hop⟩ := hr
    rw [submits_reveal order hop]
    cases hs with
    | crash _ hop' _ hm =>
      rw [hop] at hop'
      cases hop'
      change s.dag.handleCommitReq req = none at hm
      rw [hm]
      exact (List.append_nil _).symm
    | dag hpc hop' _ hm =>
      rw [hop] at hop'
      cases hop'
      change s.dag.handleCommitReq req = some _ at hm
      simp [submissions, hm, hpc]
  · have hno : ∀ req, ¬ s.Reveals a req := fun req hreq => hr ⟨req, hreq⟩
    rw [submits_eq_none hno, Option.toList_none, List.append_nil]
    cases hs with
    | @dag order m rest d pc hpc hop _ hm =>
      have hnil : pc.requests = [] := by
        refine DagPc.requests_eq_nil (pendingCommit_handle hm ?_).2
        rintro req rfl
        exact hno req ⟨⟨order, rfl⟩, rest, hop⟩
      simp [submissions, hnil, hpc]
    | submit hpc | refResp hpc | reply hpc _ => simp [submissions, hpc, DagPc.requests]
    | take _ hsub => simp [submissions, hsub]
    | _ => rfl

/-! ## The range of the leader map -/

/-- The leader map holds no round above the pending commit, and no gap if the latest
leader had no block to commit. -/
structure Ranged (s : Pair) : Prop where
  pending : ∀ p, s.dag.pendingCommit = some p →
    ∀ r, (s.dag.uncommitted.lookup r).isSome → r ≤ p.round
  skipped : s.dag.pendingCommit = none → ∀ r, (s.dag.uncommitted.lookup r).isSome →
    ∀ r', r' % 2 = 0 → s.dag.commitMark < r' → r' ≤ r → (s.dag.uncommitted.lookup r').isSome

private theorem ranged_init (i : Int) (c : Committee) : (init i c).Ranged where
  pending := by simp [init, newDag]
  skipped := by simp [init, newDag]

/-- Only the rounds of the dag matter. -/
theorem Ranged.frame {s t : Pair} (h : s.Ranged) (hmark : t.dag.commitMark = s.dag.commitMark)
    (hun : t.dag.uncommitted = s.dag.uncommitted)
    (hpend : t.dag.pendingCommit = s.dag.pendingCommit) : t.Ranged where
  pending := by
    rw [hun, hpend]
    exact h.pending
  skipped := by
    rw [hun, hpend, hmark]
    exact h.skipped

/-- The pending commit after a reveal is the highest round known. -/
theorem Ranged.le_nextCommit {s : Pair} (h : s.Ranged) {req : CommitReq}
    (heven : req.round % 2 = 0) (hlo : s.dag.commitMark < req.round)
    (hnew : s.dag.uncommitted.lookup req.round = none) {r : Int}
    (hr : ((s.dag.uncommitted.insert req.round req.leader).lookup r).isSome) :
    r ≤ (s.dag.nextCommit req).round := by
  have hself : req.round ≤ (s.dag.nextCommit req).round := by
    unfold Dag.nextCommit
    split
    · exact le_rfl
    · split
      · exact le_rfl
      · omega
  rw [GoMap.lookup_insert_ite] at hr
  split at hr
  · subst r
    exact hself
  · cases hp : s.dag.pendingCommit with
    | some p =>
      have hle := h.pending p hp r hr
      simp only [Dag.nextCommit, hp]
      split
      · omega
      · exact hle
    | none =>
      refine le_trans ?_ hself
      by_contra hlt
      have hknown := h.skipped hp r hr req.round heven hlo (by omega)
      rw [hnew] at hknown
      cases hknown

/-- A reveal of an unknown even round above the commit mark. -/
theorem Ranged.reveal {s t : Pair} (h : s.Ranged) (hal : s.Aligned) {req : CommitReq} {d : Dag}
    {pc : DagPc} (heven : req.round % 2 = 0) (hlo : s.dag.commitMark < req.round)
    (hnew : s.dag.uncommitted.lookup req.round = none)
    (hm : s.dag.handleCommitReq req = some (d, pc)) (ht : t.dag = d) : t.Ranged := by
  obtain ⟨p, rfl, hcase⟩ := Dag.handleCommitReq_cases hm
  have htop := fun r => h.le_nextCommit heven hlo hnew (r := r)
  constructor
  · rw [ht]
    intro p' hp' r hr
    have hp : p' = s.dag.nextCommit req := by
      change p = some p' at hp'
      rcases hcase with ⟨_, rfl, _⟩ | ⟨_, _, _, ⟨_, rfl, _⟩ | ⟨_, _, rfl, _⟩⟩ <;> cases hp' <;> rfl
    rw [hp]
    exact htop r hr
  · rw [ht]
    intro hp' r hr r' hpar hlo' hle
    have hready : Dag.isAnchorReady { s.dag with
        uncommitted := s.dag.uncommitted.insert req.round req.leader
        pendingCommit := some (s.dag.nextCommit req) } (s.dag.nextCommit req).round = true := by
      change p = none at hp'
      rcases hcase with ⟨_, rfl, _⟩ | ⟨hready, _⟩
      · cases hp'
      · exact hready
    exact (isAnchorReady_iff _ _).mp hready r' (by rw [hpar]; exact hal.even.symm) hlo'
      (hle.trans (htop r hr))

/-- Every step keeps the rounds in range, if reveals come for new even rounds. -/
theorem Ranged.step {s t : Pair} {a : Act} (h : s.Ranged) (hal : s.Aligned) (hs : s.Step a t)
    (hok : ∀ req, s.Reveals a req → req.round % 2 = 0 ∧ s.dag.commitMark < req.round ∧
      s.dag.uncommitted.lookup req.round = none) : t.Ranged := by
  rcases hs.dag_eq with hd | ⟨order, m, rest, d, pc, rfl, _, hop, _, hm, rfl⟩
  · exact h.frame (by rw [hd]) (by rw [hd]) (by rw [hd])
  by_cases hr : ∃ req, m = .core (.commitReq req)
  · obtain ⟨req, rfl⟩ := hr
    obtain ⟨heven, hlo, hnew⟩ := hok req ⟨⟨order, rfl⟩, rest, hop⟩
    exact h.reveal hal heven hlo hnew hm rfl
  have hno : ∀ req, m ≠ .core (.commitReq req) := fun req he => hr ⟨req, he⟩
  by_cases hgc : ∃ wm R, m = .gcReq wm R
  · obtain ⟨wm, R, rfl⟩ := hgc
    obtain ⟨_, p, d₁, hp, _, rfl⟩ := Dag.handleCleanReq_cases hm
    have hnone : ∀ r, ¬ ((GoMap.eraseAll s.dag.uncommitted
        (s.dag.uncommitted.keys.filter (· ≤ p.round))).lookup r).isSome := by
      intro r hr
      rw [Dag.lookup_erase_le] at hr
      split at hr
      · cases hr
      · exact absurd (h.pending p hp r hr) ‹_›
    exact ⟨fun _ _ r hr => absurd hr (hnone r), fun _ r hr => absurd hr (hnone r)⟩
  · obtain ⟨hmark, hun⟩ := rounds_handle hm hno fun wm R he => hgc ⟨wm, R, he⟩
    exact h.frame hmark hun (pendingCommit_handle hm hno).1

/-- What holds of a pair that has been sent the given reveals and handles one commit at a
time. -/
structure InTurn (sent : List CommitReq) (s : Pair) : Prop where
  handled : Handled sent s
  aligned : s.Aligned
  ranged : s.Ranged

/-- At the start no round has been revealed. -/
theorem inTurn_init (i : Int) (c : Committee) : InTurn [] (init i c) :=
  ⟨handled_init i c, aligned_init i c, ranged_init i c⟩

/-- A panic reveals no round. -/
theorem InTurn.crash {sent : List CommitReq} {s : Pair} (h : InTurn sent s) :
    InTurn sent { s with crashed := true } :=
  ⟨h.handled, h.aligned.move rfl rfl rfl (List.Sublist.refl _) rfl rfl, h.ranged.frame rfl rfl rfl⟩

/-- Every steady step keeps the rounds in turn. -/
theorem InTurn.step {sent : List CommitReq} {s t : Pair} {a : Act} (h : InTurn sent s)
    (honce : (sent.map (·.round)).Nodup)
    (heven : ∀ req ∈ sent, 0 ≤ req.round ∧ req.round % 2 = 0) (hok : s.steady a = true)
    (hs : s.Step a t) : InTurn (sent ++ reveals [a]) t := by
  have hfresh := fun req (hr : s.Reveals a req) => h.handled.fresh h.aligned honce heven hok hr
  refine ⟨h.handled.step h.aligned hs, h.aligned.step hs fun req hr => ?_,
    h.ranged.step h.aligned hs fun req hr => (hfresh req hr).2⟩
  obtain ⟨hquiet, hpar, habove, _⟩ := hfresh req hr
  exact ⟨hquiet, hpar, habove⟩

/-! ## The leaders read -/

/-- The leaders of the even rounds after the previous commit and up to the current one. -/
def Upto (lead : Int → Int) : Reading := fun ts cs r v =>
  v = ts.getLast?.bind fun req =>
    if lastRound cs < r ∧ r ≤ req.round ∧ r % 2 = 0 then some (lead r) else none

/-- Readings up to a round are unique. -/
theorem Upto.unique {lead : Int → Int} (ts cs : List SubmitReq) (r : Int) (v v' : Option Int)
    (h : Upto lead ts cs r v) (h' : Upto lead ts cs r v') : v = v' := h.trans h'.symm

/-- A pair that handles one commit at a time reads the leaders up to the current round. -/
theorem InTurn.readsOk {sent : List CommitReq} {blk : Slot → Option Block}
    {K : CommitReq → Prop} {lead : Int → Int} {s : Pair} (h : InTurn sent s) (hl : s.Loaded blk)
    (ht : s.Told K) (hK : ∀ req, K req → req.leader = lead req.round) (a : Act) :
    s.ReadsOk (Upto lead) a := by
  rintro c head b rfl hcom
  obtain ⟨ts, hts⟩ := hl.last c (head :: c.q) (by rw [hcom]; rfl)
  have hreading : s.com.reading = some c.req := by rw [hcom]; rfl
  obtain ⟨hmem, hlast⟩ := h.aligned.reading hreading
  obtain ⟨⟨p, hp, hround⟩, _, hready⟩ := h.aligned.inFlight _ hmem
  unfold Upto
  rw [hts, List.getLast?_concat, Option.bind_some, hlast]
  cases hread : s.dag.uncommitted.lookup b.header.round with
  | some l =>
    obtain ⟨hlo, hpar⟩ := h.aligned.above _ l hread
    have hhi := h.ranged.pending p hp _ (by rw [hread]; rfl)
    rw [if_pos ⟨hlo, by omega, hpar⟩]
    exact congrArg some (hK _ (ht.leaders _ l hread))
  | none =>
    rw [if_neg]
    rintro ⟨hlo, hhi, hpar⟩
    have hknown := hready _ hpar hlo hhi
    rw [hread] at hknown
    cases hknown

/-! ## Agreement of two pairs -/

/-- The requests that a ledger accounts for are among the submissions. -/
theorem Current.prefix_submissions {R : Reading} {o : Origin} {s : Pair} {ts : List SubmitReq}
    (h : s.Current R o ts) : ts <+: s.submissions := by
  refine List.IsPrefix.trans ?_ (List.prefix_append s.taken _)
  unfold Current at h
  split at h <;> rw [h.1]
  exact List.prefix_append _ _

/-- Two pairs with the same blocks and leaders that submit compatible sequences of anchors
execute compatible sequences of slots. -/
theorem Booked.compatible {blk : Slot → Option Block} {R : Reading} {o : Origin} {s t : Pair}
    (hR : ∀ ts cs r v v', R ts cs r v → R ts cs r v' → v = v') (hs : s.Booked blk R o)
    (ht : t.Booked blk R o) (hsub : Compatible s.submissions t.submissions) :
    Compatible (s.executed.map (·.header.slot)) (t.executed.map (·.header.slot)) := by
  obtain ⟨ts, hled, hcur⟩ := hs
  obtain ⟨ts', hled', hcur'⟩ := ht
  have hts : Compatible ts ts' :=
    hsub.of_prefix hcur.prefix_submissions hcur'.prefix_submissions
  have hout : Compatible s.out t.out :=
    hts.imp (hled.out_prefix hR hled') (hled'.out_prefix hR hled)
  have hex : ∀ s : Pair, s.executed.map (·.header.slot) <+: s.out := by
    intro s
    rw [out, List.map_append]
    exact List.prefix_append _ _
  exact hout.of_prefix (hex s) (hex t)

end Pair

end Loom
