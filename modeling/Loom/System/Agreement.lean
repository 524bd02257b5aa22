import Loom.Pair.Turns
import Loom.System.Lines

/-!
# Agreement on the total order

Every node executes the ledger of the anchors it submits. Nodes that commit one round at
a time and submit the same anchors therefore execute the same slots in the same order.
The code does not make them submit the same anchors: `handleCommitReq` starts from the
highest block of the leader that has arrived when the leader is revealed.
-/

namespace Loom.World

/-! ## The common coin -/

/-- All reveals of a round name one leader. -/
def SameLeaders (lead : Int → Int) (tr : List Event) : Prop :=
  ∀ k req, .revealed k req ∈ tr → req.leader = lead req.round

/-- Whatever shares of a round are combined, the signature elects the same leader. -/
def CommonCoin (S : Setup) (lead : Int → Int) : Prop :=
  ∀ shares r sig, S.crypto.recover shares (electHash S.crypto r) = some sig →
    (newElector S.committee).reveal sig = lead r

/-- A handled message leaves a reveal only of a leader recovered from shares. -/
theorem recovered_of_handle {cr : Crypto} {c c' : Core} {msg : NetMessage} (hnil : c.todo = [])
    (hlead : ∀ r, c.eletor.leader.lookup r = none) (h : c.handle cr msg = some c')
    {req : CommitReq} (hreq : .dag (.commitReq req) ∈ c'.todo) :
    ∃ shares sig, cr.recover shares (electHash cr req.round) = some sig ∧
      req.leader = c.eletor.reveal sig := by
  cases msg with
  | propose b => rcases Core.handlePropose_cases h with rfl | rfl <;> simp [hnil] at hreq
  | echo e =>
    rcases Core.handleEcho_cases h with rfl | ⟨_, rfl⟩ | ⟨_, rfl⟩ <;>
      simp [hnil, Core.propose] at hreq
  | elect e =>
    cases h
    rcases Core.handleElect_cases cr c e with heq | ⟨_, _, heq, hcase⟩
    · simp [heq, hnil] at hreq
    · rw [heq, List.mem_singleton] at hreq
      cases hreq
      rcases hcase with ⟨_, hsome⟩ | ⟨_, msgs, sig, _, hrec, hreveal⟩
      · rw [hlead] at hsome
        cases hsome
      · exact ⟨_, sig, hrec, hreveal⟩

/-- Every reveal, made or due, names the leader of its round. -/
structure Coined (lead : Int → Int) (w : World) : Prop where
  told : SameLeaders lead w.trace
  due : ∀ i req, .dag (.commitReq req) ∈ (w.nodes i).core.todo → req.leader = lead req.round

private theorem coined_init (S : Setup) (lead : Int → Int) : Coined lead (init S) where
  told := by simp [SameLeaders, init]
  due := by simp [init, Node.init, Core.init, Core.propose]

/-- A step that replaces one node. -/
theorem Coined.setNode {lead : Int → Int} {w w' : World} (h : Coined lead w) {i : Int} {x : Node}
    (hnodes : ∀ j, w'.nodes j = if j = i then x else w.nodes j) {evs : List Event}
    (htrace : w'.trace = w.trace ++ evs)
    (hevs : ∀ k req, .revealed k req ∈ evs → .dag (.commitReq req) ∈ (w.nodes i).core.todo)
    (hx : ∀ req, .dag (.commitReq req) ∈ x.core.todo → req.leader = lead req.round) :
    Coined lead w' := by
  constructor
  · intro k req hreq
    rw [htrace] at hreq
    rcases List.mem_append.mp hreq with hreq | hreq
    · exact h.told k req hreq
    · exact h.due i req (hevs k req hreq)
  · intro j req hreq
    rw [hnodes] at hreq
    split at hreq
    · exact hx req hreq
    · exact h.due j req hreq

private theorem coined_step {S : Setup} {lead : Int → Int} (hc : CommonCoin S lead) {w w' : World}
    {mv : Move} (ht : Traffic S w) (he : ∀ i, Elects S w.trace i (w.nodes i)) (h : Coined lead w)
    (hs : w.Step S mv w') : Coined lead w' := by
  have hrest : ∀ {i act rest}, (w.nodes i).core.todo = act :: rest →
      ∀ req, .dag (.commitReq req) ∈ rest → req.leader = lead req.round := by
    intro i act rest htodo req hreq
    exact h.due i req (htodo ▸ List.mem_cons_of_mem _ hreq)
  cases hs with
  | @deliver k p hp =>
    exact h.setNode (setNode_nodes _ _ · _) (List.append_nil _).symm (by simp) (h.due p.dst)
  | @send i batch dst msg rest hi htodo =>
    refine h.setNode (setNode_nodes _ _ · _) rfl ?_ (hrest htodo)
    intro k req hreq
    cases msg <;> simp [sendEvents] at hreq
  | @loop i batch msg rest hi htodo =>
    exact h.setNode (setNode_nodes _ _ · _) (List.append_nil _).symm (by simp) (hrest htodo)
  | @dagReq i batch req rest p hi htodo hp =>
    refine h.setNode (setNode_nodes _ _ · _) rfl ?_ (hrest htodo)
    intro k req' hreq
    rw [htodo]
    cases req <;> simp [dagEvents] at hreq
    rw [hreq.2]
    exact List.mem_cons_self ..
  | @build i batch height round oldFirstRefH rest ref p hi htodo hpc hp =>
    refine h.setNode (setNode_nodes _ _ · _) rfl ?_ ?_
    · intro k req hreq
      unfold buildEvents at hreq
      split at hreq <;> simp at hreq
    · intro req hreq
      simp only [Core.generateBlock, Core.invokeElect] at hreq
      split at hreq
      · split at hreq <;> simp at hreq
      · simp at hreq
  | @panic i batch msg recvCh hi htodo hrecv hh =>
    exact h.setNode (setNode_nodes _ _ · _) (List.append_nil _).symm (by simp) (h.due i)
  | @handle i batch msg recvCh core hi htodo hrecv hh =>
    refine h.setNode (setNode_nodes _ _ · _) rfl ?_ ?_
    · intro k req hreq
      cases msg <;> simp [recvEvents] at hreq
    · intro req hreq
      obtain ⟨shares, sig, hrec, hleader⟩ := recovered_of_handle htodo (he i).leader hh hreq
      rw [hleader, ← hc shares req.round sig hrec, Elector.reveal, (ht.node i).elector]
      rfl
  | @pair i act p hi hown hp =>
    refine h.setNode (setNode_nodes _ _ · _) rfl ?_ (h.due i)
    intro k req hreq
    unfold pairEvents at hreq
    split at hreq
    · split at hreq <;> simp at hreq
    · cases hreq

/-- With a common coin all nodes are told the same leaders. -/
theorem Reaches.sameLeaders {S : Setup} {moves : List Move} {w : World} {f : Nat}
    (hn : S.committee.size = 3 * f + 1) (h : Reaches S moves w) {lead : Int → Int}
    (hc : CommonCoin S lead) : SameLeaders lead w.trace := by
  have hinv : Coined lead w := Machine.invariant_reached (coined_init S lead)
    (fun _ _ _ _ hu hi _ hs => coined_step hc (Reaches.traffic hu)
      (Reaches.disciplined hn hu).elects hi (step_cases hs))
    (Machine.along_of_forall fun _ _ _ => trivial) h
  exact hinv.told

/-! ## Agreement -/

/-- Two nodes commit from the same view of a leader's line: the anchor below the leader's
top block here is the one that the other node, if it is as far, has at this place. -/
def sameView (p q : Pair) (req : CommitReq) : Bool :=
  (p.dag.leaderTop req).all fun b =>
    q.submissions[p.submissions.length]?.all fun a => a = p.dag.anchorBelow req b

/-- The condition under which nodes agree: a reveal is handled while no commit of the node
is outstanding, or keeps the pending one, and from the same view of the leader's line from
which the other members committed. -/
def sameViews (S : Setup) (w : World) : Move → Bool
  | .pair i (.dag order) =>
    match (w.nodes i).pair.opCh with
    | .core (.commitReq req) :: _ => (w.nodes i).pair.steady (.dag order) &&
        S.committee.ids.all fun j => sameView (w.nodes i).pair (w.nodes j).pair req
    | _ => true
  | _ => true

/-- A move appends an anchor to the submissions of at most one node. -/
theorem Step.submissions {S : Setup} {w w' : World} {mv : Move} (hs : w.Step S mv w') (i : Int) :
    (w'.nodes i).pair.submissions = (w.nodes i).pair.submissions ∨
    ∃ act req, mv = .pair i act ∧ (w.nodes i).pair.submits act = some req ∧
      (w'.nodes i).pair.submissions = (w.nodes i).pair.submissions ++ [req] := by
  cases hs.pairStep i with
  | same heq => exact Or.inl (by rw [heq])
  | panic heq => exact Or.inl (by rw [heq]; rfl)
  | step act hact _ _ hown =>
    have hsub := Pair.submissions_step (Pair.step_cases hact).2
    cases hreq : (w.nodes i).pair.submits act with
    | none =>
      rw [hreq, Option.toList_none, List.append_nil] at hsub
      exact Or.inl hsub
    | some req =>
      rw [hreq] at hsub
      have hmv : ownAct act = true := by
        cases act with
        | dag order => rfl
        | _ => cases hreq
      exact Or.inr ⟨act, req, hown hmv, hreq, hsub⟩

/-- What the members have submitted is compatible. -/
def Concordant (S : Setup) (w : World) : Prop :=
  ∀ i ∈ S.committee.ids, ∀ j ∈ S.committee.ids,
    Compatible (w.nodes i).pair.submissions (w.nodes j).pair.submissions

private theorem concordant_init (S : Setup) : Concordant S (init S) :=
  fun _ _ _ _ => Compatible.refl _

/-- The anchor submitted is the one that every other member has at this place. -/
theorem sameViews.submits {S : Setup} {w : World} {i j : Int} {act : Act} {req : SubmitReq}
    (hok : sameViews S w (.pair i act) = true) (hj : j ∈ S.committee.ids)
    (hsub : (w.nodes i).pair.submits act = some req) :
    ∀ a ∈ (w.nodes j).pair.submissions[(w.nodes i).pair.submissions.length]?, a = req := by
  intro a ha
  unfold Pair.submits at hsub
  split at hsub
  · split at hsub
    · rename_i hop
      simp only [sameViews, hop, Bool.and_eq_true, List.all_eq_true] at hok
      obtain ⟨b, hb, rfl⟩ := Option.map_eq_some_iff.mp hsub
      have hview := hok.2 j hj
      rw [Option.mem_def] at ha
      rw [sameView, hb, ha] at hview
      exact of_decide_eq_true hview
    · cases hsub
  · cases hsub

/-- Nodes with the same views take steady steps. -/
theorem sameViews.steady {S : Setup} {w : World} {i : Int} {act : Act}
    (hok : sameViews S w (.pair i act) = true) : (w.nodes i).pair.steady act = true := by
  cases act with
  | dag order =>
    cases hr : (w.nodes i).pair.steady (.dag order) with
    | true => rfl
    | false =>
      simp only [sameViews, hr, Bool.false_and] at hok
      simp only [Pair.steady] at hr
      split at hr
      · rename_i hop
        rw [hop] at hok
        cases hok
      · cases hr
  | _ => rfl

private theorem Concordant.extend {S : Setup} {w w' : World} {i j : Int} {act : Act}
    {req : SubmitReq} (h : Concordant S w) (hi : i ∈ S.committee.ids) (hj : j ∈ S.committee.ids)
    (hok : sameViews S w (.pair i act) = true)
    (hsub : (w.nodes i).pair.submits act = some req)
    (hi' : (w'.nodes i).pair.submissions = (w.nodes i).pair.submissions ++ [req])
    (hj' : (w'.nodes j).pair.submissions = (w.nodes j).pair.submissions) :
    Compatible (w'.nodes i).pair.submissions (w'.nodes j).pair.submissions := by
  rw [hi', hj']
  exact (h i hi j hj).concat (sameViews.submits hok hj hsub)

private theorem concordant_step {S : Setup} {w w' : World} {mv : Move} (h : Concordant S w)
    (hok : sameViews S w mv = true) (hs : w.Step S mv w') : Concordant S w' := by
  intro i hi j hj
  rcases hs.submissions i with hi' | ⟨act, req, rfl, hsub, hi'⟩
  · rcases hs.submissions j with hj' | ⟨act, req, rfl, hsub, hj'⟩
    · rw [hi', hj']
      exact h i hi j hj
    · exact (h.extend hj hi hok hsub hj' hi').symm
  · by_cases hij : i = j
    · subst j
      exact Compatible.refl _
    · rcases hs.submissions j with hj' | ⟨_, _, hmv, _⟩
      · exact h.extend hi hj hok hsub hi' hj'
      · cases hmv
        exact absurd rfl hij

/-- The pairs of a run that meets the condition keep the ledger of their submissions. -/
theorem Reaches.inTurn {S : Setup} {moves : List Move} {w : World} {f : Nat}
    (hn : S.committee.size = 3 * f + 1) (h : Reaches S moves w) {lead : Int → Int}
    (hlead : SameLeaders lead w.trace)
    (hok : Machine.Along (step S) (fun w mv => sameViews S w mv = true) (init S) moves)
    (i : Int) :
    (w.nodes i).pair.Booked (blocks w.trace) (Pair.Upto lead) (Pair.freshOrigin S.committee) := by
  have hpairs := h.pairs hn hok
    (J := fun sent s => s.InTurn sent ∧
      s.Booked (blocks w.trace) (Pair.Upto lead) (Pair.freshOrigin S.committee))
    (fun i => ⟨Pair.inTurn_init i _, Pair.booked_init _ _ i _⟩)
    (fun _ s hJ => ⟨hJ.1.crash, hJ.2.crash⟩)
    (fun u mv i act t hu hmv hown hk hJ hact => by
      obtain ⟨_, hst⟩ := Pair.step_cases hact
      have hinv := (hu.traffic.node i).inv
      obtain ⟨honce, heven⟩ := hu.sent_once hn i
      have hsteady : (u.nodes i).pair.steady act = true := by
        cases hact : ownAct act with
        | true =>
          rw [hown hact] at hmv
          exact sameViews.steady hmv
        | false =>
          cases act with
          | dag order => cases hact
          | _ => rfl
      have hreads : (u.nodes i).pair.ReadsOk (Pair.Upto lead) act := hJ.1.readsOk hk.loaded hk.told
        (fun req hreq => hlead i req (mem_revealsBy.mp hreq)) act
      exact ⟨hJ.1.step honce heven hsteady hst,
        Pair.booked_step hinv.shape hinv.bounds hk.loaded hJ.2 hreads hst⟩)
  exact (hpairs i).2.2

/-- **Agreement on the total order**, in every run with one leader per round that meets
`sameViews`: of any two members, one has executed a prefix of the slots that the other
has executed. -/
theorem executed_agree {S : Setup} {moves : List Move} {w : World} {f : Nat}
    (hn : S.committee.size = 3 * f + 1) (h : Reaches S moves w) {lead : Int → Int}
    (hlead : SameLeaders lead w.trace)
    (hok : Machine.Along (step S) (fun w mv => sameViews S w mv = true) (init S) moves)
    {i j : Int} (hi : i ∈ S.committee.ids) (hj : j ∈ S.committee.ids) :
    (w.nodes i).pair.executed.map (·.header.slot) <+:
        (w.nodes j).pair.executed.map (·.header.slot) ∨
      (w.nodes j).pair.executed.map (·.header.slot) <+:
        (w.nodes i).pair.executed.map (·.header.slot) := by
  have hsub : Concordant S w := Machine.invariant_along
    (fun _ _ _ hi ha hs => concordant_step hi ha (step_cases hs)) (concordant_init S) hok h
  exact (h.inTurn hn hlead hok i).compatible Pair.Upto.unique (h.inTurn hn hlead hok j)
    (hsub i hi j hj)

/-- The leaders that the coin of the four members elects. -/
def coinLeader (r : Int) : Int := if appendInt r = [48] then 1 else 2

private theorem commonCoin_fourNodes : CommonCoin fourNodes coinLeader := by
  intro shares r sig hsig
  change some (if appendInt r = [48] then [0, 0, 0, 1] else [0, 0, 0, 2]) = some sig at hsig
  rw [Option.some.injEq] at hsig
  rw [← hsig, coinLeader]
  split <;> decide

/-- Members `0` and `3` have executed compatible sequences. -/
theorem executed_agree_inLockstep : ∃ moves w, Reaches fourNodes moves w ∧
    ((w.nodes 0).pair.executed.map (·.header.slot) <+:
        (w.nodes 3).pair.executed.map (·.header.slot) ∨
      (w.nodes 3).pair.executed.map (·.header.slot) <+:
        (w.nodes 0).pair.executed.map (·.header.slot)) ∧
    (w.nodes 0).pair.executed.length = 21 := by
  have hrun := follow_reaches fourNodes inLockstep
  have hlead := hrun.sameLeaders (f := 1) rfl commonCoin_fourNodes
  obtain ⟨hok, hlen⟩ : Machine.Along (step fourNodes) (fun w mv => sameViews fourNodes w mv = true)
        (init fourNodes) (follow fourNodes inLockstep).1 ∧
      ((follow fourNodes inLockstep).2.nodes 0).pair.executed.length = 21 := by decide +kernel
  exact ⟨_, _, hrun, executed_agree (f := 1) rfl hrun hlead hok (by decide) (by decide), hlen⟩

/-- Member `1` goes ahead with the echoes of the others. -/
def leaderAhead : List (Int × Int) :=
  [(1, 0), (1, 1), (1, 2), (1, 3), (0, 1), (2, 1), (3, 1)]

/-- It goes on, while nothing of it arrives at member `0`. -/
def leaderHidden : List (Int × Int) := [(1, 1), (1, 2), (1, 3), (2, 1), (3, 1)]

/-- The other members exchange their messages. -/
def othersFollow : List (Int × Int) :=
  [(0, 0), (0, 2), (0, 3), (2, 0), (2, 2), (2, 3), (3, 0), (3, 2), (3, 3)]

/-- Member `0` has received two blocks less of the leader of round `0` than member `2` when
the leader is revealed. -/
def twoViews : List (Int × Int) :=
  wakeUp ++ repeated 5 leaderAhead ++ repeated 2 leaderHidden ++ repeated 8 othersFollow ++
    repeated 11 sweep

/-- Member `0` anchors round `0` at height `1` of the leader's line and member `2` at
height `3`. The rest of the line is ordered within the next commit at member `0`, behind
the blocks of another member, and neither order is a prefix of the other. -/
theorem twoViews_disagree : ∃ moves w, Reaches fourNodes moves w ∧
    SameLeaders coinLeader w.trace ∧
    ((w.nodes 0).pair.executed.map (·.header.slot)).take 5 =
      [⟨1, 0⟩, ⟨1, 1⟩, ⟨0, 0⟩, ⟨0, 1⟩, ⟨0, 2⟩] ∧
    ((w.nodes 2).pair.executed.map (·.header.slot)).take 5 =
      [⟨1, 0⟩, ⟨1, 1⟩, ⟨1, 2⟩, ⟨1, 3⟩, ⟨0, 0⟩] ∧
    ¬ (w.nodes 0).pair.executed.map (·.header.slot) <+:
      (w.nodes 2).pair.executed.map (·.header.slot) ∧
    ¬ (w.nodes 2).pair.executed.map (·.header.slot) <+:
      (w.nodes 0).pair.executed.map (·.header.slot) := by
  have hrun := follow_reaches fourNodes twoViews
  refine ⟨_, _, hrun, hrun.sameLeaders (f := 1) rfl commonCoin_fourNodes, ?_⟩
  decide +kernel

end Loom.World
