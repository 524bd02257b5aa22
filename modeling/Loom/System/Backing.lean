import Loom.System.Chain

/-!
# Direct commits are backed by quorums

An anchor is submitted two blocks below a block of its leader that is in the leader's
chain, so the leader had collected a quorum of echoes for the anchor and for the block
after it.
-/

namespace Loom

/-- A submitted anchor lies two below a stored block of its round and leader. -/
theorem Pair.submit_handle {s : Pair} {order : List Int} {m : OpMsg} {d : Dag} {req : SubmitReq}
    (hs : s.dag.CacheOk) (hm : s.dag.handle order m = some (d, .submit req)) :
    ∃ (a : Int) (l : List (Option Block)) (k : Nat) (b : Block), s.dag.line a = some l ∧
      l[k]? = some (some b) ∧
      b.header.slot = ⟨req.slot.author, req.slot.height + 2⟩ ∧ b.header.round = req.round ∧
      2 ≤ goSub b.header.slot.height b.header.firstRefH := by
  cases m with
  | core creq =>
    cases creq with
    | propose block =>
      rcases Dag.handleBlockPushReq_cases hm with
        ⟨_, _, hpc⟩ | ⟨_, _, _, _, ⟨_, hpc⟩ | ⟨_, _, hpc⟩⟩ <;>
        cases hpc
    | refReq round =>
      obtain ⟨_, _, hpc⟩ := Dag.handleRefReq_dag hm
      cases hpc
    | commitReq creq =>
      obtain ⟨p, rfl, hcase⟩ := Dag.handleCommitReq_cases hm
      rcases hcase with ⟨_, _, hpc⟩ | ⟨_, l, hl, ⟨_, _, hpc⟩ | ⟨b, hb, _, hpc⟩⟩
      · cases hpc
      · cases hpc
      · have hfind := List.find?_some hb
        have hmem := List.mem_of_find?_eq_some hb
        rw [List.mem_reverse, List.mem_filterMap] at hmem
        obtain ⟨o, ho, hob⟩ := hmem
        cases hob
        obtain ⟨k, hk⟩ := List.mem_iff_getElem?.mp ho
        simp only [decide_eq_true_eq] at hfind
        have hslot := hs.slot _ _ _ _ hl hk
        cases hpc
        refine ⟨_, l, k, b, hl, hk, ?_, hfind.1, hfind.2⟩
        rw [hslot]
        simp
  | blockPullReq sl ch =>
    rcases Dag.handleBlockPullReq_cases hm with
      ⟨_, _, hpc⟩ | ⟨_, _, _, ⟨_, _, _, hpc⟩ | ⟨_, _, hpc⟩⟩ <;> cases hpc
  | gcReq wm r =>
    obtain ⟨hpc, _⟩ := Dag.handleCleanReq_cases hm
    cases hpc

namespace World

/-- The leader has proposed a block two above the anchor, two past the round's opening. -/
def Ripe (tr : List Event) (req : SubmitReq) : Prop :=
  ∃ b, .proposed b ∈ tr ∧ b.header.slot = ⟨req.slot.author, req.slot.height + 2⟩ ∧
    b.header.round = req.round ∧ 2 ≤ goSub b.header.slot.height b.header.firstRefH

/-- A quorum of members sent an echo of the block. -/
def Echoed (S : Setup) (tr : List Event) (b : Header) : Prop :=
  ∃ q : List Int, q.Nodup ∧ (∀ j ∈ q, j ∈ S.committee.ids) ∧
    S.committee.hightThreshold ≤ q.length ∧ ∀ j ∈ q, .echoed j b ∈ tr

/-- The anchor and the block after it are of the anchor's round, and a quorum echoed each. -/
def Backed (S : Setup) (tr : List Event) (req : SubmitReq) : Prop :=
  ∃ b₀ b₁, .proposed b₀ ∈ tr ∧ .proposed b₁ ∈ tr ∧
    b₀.header.slot = req.slot ∧ b₁.header.slot = ⟨req.slot.author, req.slot.height + 1⟩ ∧
    b₀.header.round = req.round ∧ b₁.header.round = req.round ∧
    Echoed S tr b₀.header ∧ Echoed S tr b₁.header

/-- What is ripe stays ripe. -/
theorem Ripe.mono {tr tr' : List Event} {req : SubmitReq} (h : Ripe tr req) (hsub : tr ⊆ tr') :
    Ripe tr' req := by
  obtain ⟨b, hb, hrest⟩ := h
  exact ⟨b, hsub hb, hrest⟩

/-- All blocks of a chain but the last have been echoed by a quorum. -/
theorem Chained.echoed {S : Setup} {tr : List Event} {i : Int} {x : Node} (h : Chained S tr i x)
    {k : Nat} {b : Block} (hk : (chain i tr)[k]? = some b) (hlt : k + 1 < (chain i tr).length) :
    Echoed S tr b.header := by
  have hbegun : ((chain i tr).length : Int) ≤ begun i tr x.core.todo := by
    unfold begun
    split <;> omega
  obtain ⟨ag, hag, hq⟩ := h.fired k (by omega)
  obtain ⟨ht, _⟩ := h.votes k ag hag
  obtain ⟨b', hb', he⟩ := ht.echoes
  rw [Int.toNat_natCast, hk, Option.some.injEq] at hb'
  subst hb'
  exact ⟨ag.used, ht.ok.nodup, ht.ok.members, hq, he⟩

/-- Two blocks below a block two past its round's opening both rounds are the same, and
both quorums are complete. -/
theorem backed_of_ripe {S : Setup} {tr : List Event} {req : SubmitReq} {x : Node}
    (h : Chained S tr req.slot.author x) (hr : Ripe tr req) : Backed S tr req := by
  obtain ⟨b, hb, hslot, hround, hpast⟩ := hr
  have hmem : b ∈ chain req.slot.author tr := mem_chain.mpr ⟨hb, by rw [hslot]⟩
  obtain ⟨k, hk⟩ := List.mem_iff_getElem?.mp hmem
  have hheight : (k : Int) = req.slot.height + 2 := by
    have hs := h.linked.slot k b hk
    rw [hslot, Slot.mk.injEq] at hs
    exact hs.2.symm
  rw [hslot] at hpast
  dsimp only at hpast
  obtain ⟨h0, hle, hall⟩ := h.linked.firstRefH k b hk
  have hfull := goSub_le (x := req.slot.height + 2) (y := b.header.firstRefH) (by omega)
  have hlt := (List.getElem?_eq_some_iff.mp hk).1
  have hk₀ : (chain req.slot.author tr)[k - 2]? = some (chain req.slot.author tr)[k - 2] :=
    List.getElem?_eq_getElem (by omega)
  have hk₁ : (chain req.slot.author tr)[k - 1]? = some (chain req.slot.author tr)[k - 1] :=
    List.getElem?_eq_getElem (by omega)
  refine ⟨_, _, (mem_chain.mp (List.mem_of_getElem? hk₀)).1,
    (mem_chain.mp (List.mem_of_getElem? hk₁)).1, ?_, ?_, ?_, ?_, h.echoed hk₀ (by omega),
    h.echoed hk₁ (by omega)⟩
  · have hs₀ : ((k - 2 : Nat) : Int) = req.slot.height := by omega
    rw [h.linked.slot _ _ hk₀, hs₀]
  · rw [h.linked.slot _ _ hk₁, Slot.mk.injEq]
    exact ⟨rfl, by omega⟩
  · rw [← hround]
    exact (hall _ _ hk₀).2 (by omega) (by omega)
  · rw [← hround]
    exact (hall _ _ hk₁).2 (by omega) (by omega)

/-- What a submission says about the time before it. -/
def SubmitOk (S : Setup) (pre : List Event) : Event → Prop
  | .submitted _ req => Backed S pre req
  | _ => True

/-- Submissions in progress are ripe, and past ones were backed. -/
structure Anchored (S : Setup) (w : World) : Prop where
  submitting : ∀ i req, (w.nodes i).pair.dagPc = .submit req → Ripe w.trace req
  submitted : Machine.Always (SubmitOk S) w.trace

private theorem anchored_init (S : Setup) : Anchored S (init S) where
  submitting := by simp [init, Node.init, Pair.init]
  submitted := Machine.always_nil _

/-- Replacing a node whose dag starts no submission. -/
theorem Anchored.setNode {S : Setup} {w w' : World} (h : Anchored S w) {i : Int} {x : Node}
    (hnodes : ∀ j, w'.nodes j = if j = i then x else w.nodes j)
    (hsub : w.trace ⊆ w'.trace) (hx : ∀ req, x.pair.dagPc = .submit req → Ripe w'.trace req)
    (hal : Machine.Always (SubmitOk S) w'.trace) : Anchored S w' where
  submitting j req hpc := by
    rw [hnodes] at hpc
    split at hpc
    · exact hx req hpc
    · exact (h.submitting j req hpc).mono hsub
  submitted := hal

/-- A pair that starts a submission does so for a ripe anchor. -/
theorem ripe_pairStep {S : Setup} {tr : List Event} {i : Int} {x : Node} (hloc : Local S tr i x)
    {act : Act} {p : Pair} (hp : x.pair.step act = some p) {req : SubmitReq}
    (hpc : p.dagPc = .submit req) (hold : x.pair.dagPc = .submit req → Ripe tr req) :
    Ripe tr req := by
  obtain ⟨_, hst⟩ := Pair.step_cases hp
  cases hst with
  | @dag order m rest d pc _ _ _ hm =>
    change pc = .submit req at hpc
    subst hpc
    obtain ⟨a, l, k, b, hl, hk, hrest⟩ := Pair.submit_handle hloc.inv.dagSide.cache hm
    exact ⟨b, hloc.stored.cache a l k b hl hk, hrest⟩
  | submit | reply | refResp => cases hpc
  | _ => exact hold hpc

private theorem anchored_step {S : Setup} {w w' : World} {mv : Move} (ht : Traffic S w)
    (hc : ∀ i, Chained S w.trace i (w.nodes i)) (h : Anchored S w) (hs : w.Step S mv w') :
    Anchored S w' := by
  have hsub : w.trace ⊆ w'.trace := hs.trace_grows.subset
  cases hs with
  | deliver | loop =>
    exact h.setNode (setNode_nodes _ _ · _) hsub (h.submitting _) h.submitted
  | @panic i => exact h.setNode (setNode_nodes _ _ · _) hsub (h.submitting i) h.submitted
  | @send i batch dst msg rest hi htodo =>
    refine h.setNode (setNode_nodes _ _ · _) hsub
      (fun req hpc => (h.submitting i req hpc).mono hsub)
      (h.submitted.append ?_)
    intro e he pre
    cases msg <;> simp only [sendEvents, List.mem_singleton, List.not_mem_nil] at he <;>
      subst he <;>
      trivial
  | @dagReq i batch req rest p hi htodo hp =>
    refine h.setNode (setNode_nodes _ _ · _) hsub ?_ (h.submitted.append ?_)
    · intro req' hpc
      exact ((ripe_pairStep (ht.node i) hp hpc (h.submitting i req')).mono hsub)
    · intro e he pre
      cases req <;> simp only [dagEvents, List.mem_singleton, List.not_mem_nil] at he
      subst he
      trivial
  | @build i batch height round oldFirstRefH rest ref p hi htodo _ hp =>
    refine h.setNode (setNode_nodes _ _ · _) hsub ?_ (h.submitted.append ?_)
    · intro req' hpc
      exact ((ripe_pairStep (ht.node i) hp hpc (h.submitting i req')).mono hsub)
    · intro e he pre
      simp only [buildEvents, List.mem_append, List.mem_singleton] at he
      rcases he with he | rfl
      · split at he
        · rw [List.mem_singleton] at he
          subst he
          trivial
        · cases he
      · trivial
  | @handle i batch msg recvCh core hi _ hrecv hh =>
    refine h.setNode (setNode_nodes _ _ · _) hsub
      (fun req hpc => (h.submitting i req hpc).mono hsub)
      (h.submitted.append ?_)
    intro e he pre
    cases msg <;> simp only [recvEvents, List.mem_singleton, List.not_mem_nil] at he
    subst he
    trivial
  | @pair i act p hi hown hp =>
    refine h.setNode (setNode_nodes _ _ · _) hsub ?_ ?_
    · intro req hpc
      exact (ripe_pairStep (ht.node i) hp hpc (h.submitting i req)).mono hsub
    · unfold pairEvents
      split
      · split
        · rename_i req hpc
          exact h.submitted.concat (backed_of_ripe (hc _) (h.submitting i req hpc))
        · rw [List.append_nil]
          exact h.submitted
      · rw [List.append_nil]
        exact h.submitted

/-- **Direct commits are quorum-backed.** Whenever a node submits the anchor `(L, h)` for a
round, the blocks of `L` at the heights `h` and `h + 1` are of that round, and at least
`2f+1` distinct members had already processed each of them and sent an echo. -/
theorem submitted_backed {S : Setup} {moves : List Move} {w : World} {f : Nat}
    (hn : S.committee.size = 3 * f + 1) (h : Reaches S moves w) {pre post : List Event} {i : Int}
    {req : SubmitReq} (htr : w.trace = pre ++ .submitted i req :: post) :
    ∃ b₀ b₁, .proposed b₀ ∈ pre ∧ .proposed b₁ ∈ pre ∧
      b₀.header.slot = req.slot ∧ b₁.header.slot = ⟨req.slot.author, req.slot.height + 1⟩ ∧
      b₀.header.round = req.round ∧ b₁.header.round = req.round ∧
      ∀ b ∈ [b₀, b₁], ∃ q : List Int, q.Nodup ∧ (∀ j ∈ q, j ∈ S.committee.ids) ∧
        2 * f + 1 ≤ q.length ∧ ∀ j ∈ q, .echoed j b.header ∈ pre := by
  have hinv : Anchored S w := Machine.invariant_reached (anchored_init S)
    (fun _ _ _ _ hu hi _ hs => anchored_step (Reaches.traffic hu) (Reaches.chained hn hu) hi
      (step_cases hs))
    (Machine.along_of_forall fun _ _ _ => trivial) h
  obtain ⟨b₀, b₁, hp₀, hp₁, hs₀, hs₁, hr₀, hr₁, he₀, he₁⟩ := hinv.submitted pre _ post htr
  refine ⟨b₀, b₁, hp₀, hp₁, hs₀, hs₁, hr₀, hr₁, ?_⟩
  intro b hb
  rw [← Committee.hightThreshold_eq hn]
  simp only [List.mem_cons, List.not_mem_nil, or_false] at hb
  rcases hb with rfl | rfl
  · exact he₀
  · exact he₁

/-- The anchor of round `0` is backed by three echoes. -/
theorem submitted_backed_ten_sweeps : ∃ moves w, Reaches fourNodes moves w ∧
    ∃ pre post, w.trace = pre ++ .submitted 0 ⟨⟨1, 0⟩, 0⟩ :: post ∧
      ∃ b₁, .proposed b₁ ∈ pre ∧ b₁.header.slot = ⟨1, 1⟩ ∧ b₁.header.round = 0 ∧
        ∃ q : List Int, q.Nodup ∧ (∀ j ∈ q, j ∈ fourNodes.committee.ids) ∧ 3 ≤ q.length ∧
          ∀ j ∈ q, .echoed j b₁.header ∈ pre := by
  have hrun := follow_reaches fourNodes (wakeUp ++ repeated 10 sweep)
  have hmem : Event.submitted 0 ⟨⟨1, 0⟩, 0⟩ ∈
      (follow fourNodes (wakeUp ++ repeated 10 sweep)).2.trace := by decide +kernel
  obtain ⟨pre, post, htr⟩ := List.append_of_mem hmem
  obtain ⟨_, b₁, _, hp₁, _, hs₁, _, hr₁, hq⟩ := submitted_backed (f := 1) rfl hrun htr
  exact ⟨_, _, hrun, pre, post, htr, b₁, hp₁, hs₁, hr₁, hq b₁ (by simp)⟩

end World

end Loom
