import Loom.Pair.History
import Loom.System.Lines
import Mathlib.Logic.Relation

/-!
# The block graph and its executed part

Every block that a node holds or executes was proposed by its author. A proposal refers to
blocks that were proposed before it, so the references form an acyclic graph, and in runs
that keep parents a commit always ends in a set of blocks that is closed under references.
-/

namespace Loom

private theorem firstWm_comOps (ops : List OpMsg) : firstWm (comOps ops) = firstWm ops := by
  induction ops with
  | nil => rfl
  | cons m ops ih => cases m <;> simp [ih]

namespace Pair

/-- A watermark map in flight is the one that counts. -/
theorem Shape.flyingWm_eq {s : Pair} (h : s.Shape) {wm : GoMap Int Int} (hfly : s.Flying wm) :
    s.flyingWm = some wm := by
  rcases hfly with ⟨req, todo, hcom⟩ | ⟨r, hmem⟩
  · simp only [flyingWm, hcom]
  · rw [mem_comOps rfl] at hmem
    unfold flyingWm
    rw [← firstWm_comOps]
    cases hcom : s.com with
    | idle =>
      simp only [Shape, hcom] at h
      obtain h | ⟨_, _, h⟩ := h <;> rw [h] at hmem ⊢
      · cases hmem
      · cases List.mem_singleton.mp hmem
        rfl
    | pulling c =>
      simp only [Shape, hcom] at h
      obtain h | ⟨_, _, _, h⟩ := h <;> rw [h] at hmem ⊢
      · cases hmem
      · cases List.mem_singleton.mp hmem
        rfl
    | waiting c head ch =>
      simp only [Shape, hcom] at h
      obtain ⟨_, h | ⟨_, h | ⟨_, _, _, h⟩⟩⟩ := h <;> rw [h] at hmem ⊢
      · cases hmem
      · cases List.mem_singleton.mp hmem
      · simp only [List.mem_cons, List.not_mem_nil, or_false, reduceCtorEq] at hmem
        cases hmem
        rfl
    | received | executing =>
      simp only [Shape, hcom] at h
      rw [h] at hmem
      cases hmem

/-- What is covered is at or below the watermarks that count. -/
theorem Covered.le_marks {s : Pair} {sl : Slot} (hsh : s.Shape) (hb : s.Bounds)
    (h : s.Covered sl) : sl.height ≤ s.marks sl.author := by
  rcases h with hle | ⟨wm, k, hfly, hk, hle⟩
  · unfold marks
    cases hl : s.flyingWm.bind fun wm => wm.lookup sl.author with
    | none => exact hle
    | some k =>
      obtain ⟨wm, hfly, hk⟩ := Option.bind_eq_some_iff.mp hl
      have hheld : s.dag.WmHeld wm := by
        unfold flyingWm at hfly
        split at hfly
        · cases hfly
          exact (hb.executing _ _ _ ‹_›).1
        · obtain ⟨m, hm, hwm⟩ := List.exists_of_findSome?_eq_some hfly
          cases m with
          | gcReq wm' r =>
            cases hwm
            exact hb.gc _ r hm
          | core | blockPullReq => cases hwm
      obtain ⟨_, _, hlt, _⟩ := hheld _ _ hk
      exact hle.trans hlt.le
  · rw [marks, hsh.flyingWm_eq hfly, Option.bind_some, hk]
    exact hle

end Pair

namespace World

/-- The rule for properties of the pairs alone: a step of a pair may use its invariant and
that it pushes proposed blocks only. -/
theorem Reaches.eachPair {S : Setup} {moves : List Move} {w : World} (h : Reaches S moves w)
    {J : List Event → Pair → Prop} (hinit : ∀ i, J [] (Pair.init i S.committee))
    (hmono : ∀ tr tr' s, tr ⊆ tr' → J tr s → J tr' s)
    (hcrash : ∀ tr s, J tr s → J tr { s with crashed := true })
    (hstep : ∀ tr i s act t, s.Inv i S.committee →
      (∀ b, act = .send (.propose b) → .proposed b ∈ tr) → J tr s → s.step act = some t → J tr t) :
    ∀ i, J w.trace (w.nodes i).pair := by
  refine Machine.invariant_reached (P := fun w => ∀ i, J w.trace (w.nodes i).pair) hinit ?_
    (Machine.along_of_forall fun _ _ _ => trivial) h
  intro ms u mv v hu hJ _ hs i
  have ht := Reaches.traffic hu
  have hst := step_cases hs
  have hsub : u.trace ⊆ v.trace := hst.trace_grows.subset
  cases hst.pairStep i with
  | same heq _ =>
    rw [heq]
    exact hmono _ _ _ hsub (hJ i)
  | panic heq _ =>
    rw [heq]
    exact hcrash _ _ (hmono _ _ _ hsub (hJ i))
  | step act hact _ hsend _ =>
    refine hmono _ _ _ hsub (hstep _ i _ act _ (ht.node i).inv ?_ (hJ i) hact)
    rintro b rfl
    exact (ht.node i).todo _ (hsend _ rfl)

/-- Every block that a node holds or executes was proposed. -/
theorem Reaches.throughout {S : Setup} {moves : List Move} {w : World} (h : Reaches S moves w) :
    ∀ i, (w.nodes i).pair.Throughout fun b => .proposed b ∈ w.trace :=
  h.eachPair (J := fun tr s => s.Throughout fun b => .proposed b ∈ tr)
    (fun i => Pair.throughout_init _ i _) (fun _ _ _ hsub hJ => hJ.mono fun _ hb => hsub hb)
    (fun _ _ hJ => hJ.crash)
    (fun _ _ _ _ _ hinv hP hJ hs => Pair.throughout_step hinv.bounds hJ hP (Pair.step_cases hs).2)

/-- In every node what is ordered is closed up to the watermarks. -/
theorem Reaches.closed {S : Setup} {moves : List Move} {w : World} (h : Reaches S moves w) :
    ∀ i, (w.nodes i).pair.Closed :=
  h.eachPair (J := fun _ s => s.Closed) (fun i => Pair.closed_init i _) (fun _ _ _ _ hJ => hJ)
    (fun _ _ hJ => hJ.crash)
    (fun _ _ _ _ _ hinv _ hJ hs =>
      Pair.closed_step hinv.dagSide hinv.shape hinv.bounds hJ (Pair.step_cases hs).2)

/-! ## The graph of references -/

/-- The references of a proposal are headers of blocks proposed before. -/
def RefersBack (pre : List Event) : Event → Prop
  | .proposed b => ∀ k ∈ b.ref, ∃ b', .proposed b' ∈ pre ∧ b'.header = k
  | _ => True

private theorem refersBack_step {S : Setup} {w w' : World} {mv : Move} (ht : Traffic S w)
    (h : Machine.Always RefersBack w.trace) (hs : w.Step S mv w') :
    Machine.Always RefersBack w'.trace := by
  cases hs with
  | deliver | loop | panic => exact h
  | @send i batch dst msg rest hi htodo =>
    refine h.append fun e he pre => ?_
    cases msg <;> simp only [sendEvents, List.mem_singleton, List.not_mem_nil] at he <;>
      subst he <;> trivial
  | @dagReq i batch req rest p hi htodo hp =>
    refine h.append fun e he pre => ?_
    cases req <;> simp only [dagEvents, List.mem_singleton, List.not_mem_nil] at he
    subst he
    trivial
  | @build i batch height round oldFirstRefH rest ref p hi htodo hpc hp =>
    have hopen : Machine.Always RefersBack (w.trace ++ if Core.opens ref then [Event.entered i
        ((w.nodes i).core.buildBlock S.crypto height round oldFirstRefH ref batch).header.round]
        else []) := by
      refine h.append fun e he pre => ?_
      split at he
      · rw [List.mem_singleton] at he
        subst he
        trivial
      · cases he
    rw [buildEvents, ← List.append_assoc]
    refine hopen.concat fun k hk => ?_
    obtain ⟨b', hb', hh⟩ := (ht.node i).stored.refs ref hpc k hk
    exact ⟨b', List.mem_append_left _ hb', hh⟩
  | @handle i batch msg recvCh core hi htodo hrecv hh =>
    refine h.append fun e he pre => ?_
    cases msg <;> simp only [recvEvents, List.mem_singleton, List.not_mem_nil] at he
    subst he
    trivial
  | @pair i act p hi hown hp =>
    refine h.append fun e he pre => ?_
    unfold pairEvents at he
    split at he
    · split at he
      · rw [List.mem_singleton] at he
        subst he
        trivial
      · cases he
    · cases he

/-- After every run proposals refer back. -/
theorem Reaches.refersBack {S : Setup} {moves : List Move} {w : World} (h : Reaches S moves w) :
    Machine.Always RefersBack w.trace :=
  Machine.invariant_reached (P := fun w => Machine.Always RefersBack w.trace) (Machine.always_nil _)
    (fun _ _ _ _ hu hi _ hs => refersBack_step (Reaches.traffic hu) hi (step_cases hs))
    (Machine.along_of_forall fun _ _ _ => trivial) h

/-- A proposed block of the first slot refers to the second slot. -/
def Refers (tr : List Event) (s s' : Slot) : Prop :=
  ∃ b, .proposed b ∈ tr ∧ b.header.slot = s ∧ s' ∈ b.refSlots

/-- The place of a slot in the order of proposals. -/
def rank (tr : List Event) (s : Slot) : Nat :=
  (proposals tr).findIdx fun b => decide (b.header.slot = s)

private theorem proposed_unique {S : Setup} {moves : List Move} {w : World} {f : Nat}
    (hn : S.committee.size = 3 * f + 1) (h : Reaches S moves w) {b b' : Block}
    (hb : .proposed b ∈ w.trace) (hb' : .proposed b' ∈ w.trace)
    (hslot : b.header.slot = b'.header.slot) : b = b' := by
  have hc := h.chained hn
  have hfirst := (blocks_eq_some hc).mpr ⟨hb, rfl⟩
  rw [hslot, (blocks_eq_some hc).mpr ⟨hb', rfl⟩] at hfirst
  exact (Option.some.inj hfirst).symm

/-- The proposals of a longer trace. -/
theorem proposals_append (tr tr' : List Event) :
    proposals (tr ++ tr') = proposals tr ++ proposals tr' := List.filterMap_append ..

/-- References go down in the order of proposals. -/
theorem Refers.rank_lt {S : Setup} {moves : List Move} {w : World} {f : Nat}
    (hn : S.committee.size = 3 * f + 1) (h : Reaches S moves w) {s s' : Slot}
    (hr : Refers w.trace s s') : rank w.trace s' < rank w.trace s := by
  obtain ⟨b, hb, rfl, hmem⟩ := hr
  obtain ⟨k, hk, rfl⟩ := List.mem_map.mp hmem
  obtain ⟨pre, post, htr, hnew⟩ := List.eq_append_cons_of_mem hb
  obtain ⟨b', hb', rfl⟩ := h.refersBack pre _ post htr k hk
  have hold : ∀ x ∈ proposals pre, ¬ decide (x.header.slot = b.header.slot) = true := by
    intro x hx heq
    rw [mem_proposals] at hx
    have hxb := proposed_unique hn h (by rw [htr]; exact List.mem_append_left _ hx) hb
      (of_decide_eq_true heq)
    exact hnew (hxb ▸ hx)
  have hsplit : proposals w.trace = proposals pre ++ b :: proposals post := by
    rw [htr, proposals_append]
    rfl
  have hplace : rank w.trace b.header.slot = (proposals pre).length := by
    have hnone : (proposals pre).findIdx (fun x => decide (x.header.slot = b.header.slot)) =
        (proposals pre).length := List.findIdx_eq_length.mpr fun x hx => by simpa using hold x hx
    rw [rank, hsplit, List.findIdx_append, hnone, if_neg (lt_irrefl _), List.findIdx_cons]
    simp
  have hearly : (proposals pre).findIdx (fun x => decide (x.header.slot = b'.header.slot)) <
      (proposals pre).length := List.findIdx_lt_length.mpr ⟨b', mem_proposals.mpr hb', by simp⟩
  rw [hplace, rank, hsplit, List.findIdx_append, if_pos hearly]
  exact hearly

/-- **The block graph is acyclic.** In every run of `3f+1` members the references of a proposal
are headers of blocks proposed before it, and no path of references leads from a slot back to
itself. -/
theorem references_acyclic {S : Setup} {moves : List Move} {w : World} {f : Nat}
    (hn : S.committee.size = 3 * f + 1) (h : Reaches S moves w) :
    (∀ pre b post, w.trace = pre ++ .proposed b :: post →
      ∀ k ∈ b.ref, ∃ b', .proposed b' ∈ pre ∧ b'.header = k) ∧
    ∀ s, ¬ Relation.TransGen (Refers w.trace) s s := by
  refine ⟨fun pre b post htr => h.refersBack pre _ post htr, fun s hcycle => ?_⟩
  have hdown : ∀ {s'}, Relation.TransGen (Refers w.trace) s s' →
      rank w.trace s' < rank w.trace s := by
    intro s' hpath
    induction hpath with
    | single hr => exact hr.rank_lt hn h
    | tail _ hr ih => exact (hr.rank_lt hn h).trans ih
  exact lt_irrefl _ (hdown hcycle)

/-- A second block refers to the first one, and to itself by no path. -/
theorem references_acyclic_four_sweeps : ∃ moves w, Reaches fourNodes moves w ∧
    Refers w.trace ⟨0, 1⟩ ⟨0, 0⟩ ∧ ¬ Relation.TransGen (Refers w.trace) ⟨0, 1⟩ ⟨0, 1⟩ := by
  have hrun := follow_reaches fourNodes (wakeUp ++ repeated 4 sweep)
  obtain ⟨b, hb, hslot, href⟩ : ∃ b ∈ proposals (follow fourNodes (wakeUp ++
      repeated 4 sweep)).2.trace, b.header.slot = ⟨0, 1⟩ ∧ ⟨0, 0⟩ ∈ b.refSlots := by
    decide +kernel
  refine ⟨_, _, hrun, ⟨b, mem_proposals.mp hb, hslot, href⟩, ?_⟩
  exact (references_acyclic (f := 1) rfl hrun).2 _

/-! ## The executed part -/

/-- The slots up to the watermarks that count are the ones ordered. -/
theorem Lined.mem_out {ids : List Int} {s : Pair} (h : Lined ids s) {sl : Slot}
    (ha : sl.author ∈ ids) (h0 : 0 ≤ sl.height) (hle : sl.height ≤ s.marks sl.author) :
    sl ∈ s.out := by
  obtain ⟨_, hheights⟩ := h.heights _ ha
  have hmem : sl.height ∈ heightsOf sl.author s.out := by
    rw [hheights, mem_after]
    omega
  exact mem_heightsOf.mp hmem

/-- **What is ordered is closed under references**, in every run of `3f+1` members that keeps
parents: every block that a node has executed or ordered for execution was proposed by its
author, and each of its references is the header of a block that the node has executed or
ordered as well. So the executed blocks form a closed part of the graph whenever no commit is
being executed. -/
theorem executed_cut {S : Setup} {moves : List Move} {w : World} {f : Nat}
    (hn : S.committee.size = 3 * f + 1) (h : Reaches S moves w)
    (hok : Machine.Along (step S) (fun w mv => keepsParent w mv = true) (init S) moves) (i : Int) :
    ∀ b ∈ (w.nodes i).pair.executed ++ (w.nodes i).pair.com.todo, .proposed b ∈ w.trace ∧
      ∀ k ∈ b.ref, ∃ b' ∈ (w.nodes i).pair.executed ++ (w.nodes i).pair.com.todo,
        b'.header = k := by
  intro b hb
  have hall := (h.throughout i).ordered
  have hinv := (h.traffic.node i).inv
  refine ⟨hall b hb, fun k hk => ?_⟩
  obtain ⟨pre, post, htr⟩ := List.append_of_mem (hall b hb)
  obtain ⟨b₀, hb₀, rfl⟩ := h.refersBack pre _ post htr k hk
  have hb₀' : Event.proposed b₀ ∈ w.trace := by
    rw [htr]
    exact List.mem_append_left _ hb₀
  have hheight : 0 ≤ b₀.header.slot.height := by
    obtain ⟨j, hj⟩ := List.mem_iff_getElem?.mp (mem_chain.mpr ⟨hb₀', rfl⟩)
    rw [(h.chained hn _).linked.slot j b₀ hj]
    exact Int.natCast_nonneg j
  have hcov := (h.closed i).ordered b hb _ (List.mem_map_of_mem hk)
  have hout := (h.lined hn hok i).mem_out (h.traffic.authors b₀ hb₀') hheight
    (hcov.le_marks hinv.shape hinv.bounds)
  obtain ⟨b', hb', hslot⟩ := List.mem_map.mp hout
  exact ⟨b', hb', by rw [proposed_unique hn h (hall b' hb') hb₀' hslot]⟩

/-- Twenty-one blocks are executed with all that they refer to. -/
theorem executed_cut_inLockstep : ∃ moves w, Reaches fourNodes moves w ∧
    (w.nodes 0).pair.executed.length = 21 ∧ (w.nodes 0).pair.com.todo = [] ∧
    ∀ b ∈ (w.nodes 0).pair.executed, ∀ k ∈ b.ref, ∃ b' ∈ (w.nodes 0).pair.executed,
      b'.header = k := by
  have hrun := follow_reaches fourNodes inLockstep
  obtain ⟨hok, hlen, htodo⟩ : Machine.Along (step fourNodes)
        (fun w mv => keepsParent w mv = true) (init fourNodes) (follow fourNodes inLockstep).1 ∧
      ((follow fourNodes inLockstep).2.nodes 0).pair.executed.length = 21 ∧
      ((follow fourNodes inLockstep).2.nodes 0).pair.com.todo = [] := by decide +kernel
  have hcut := executed_cut (f := 1) rfl hrun hok 0
  rw [htodo, List.append_nil] at hcut
  exact ⟨_, _, hrun, hlen, htodo, fun b hb => (hcut b hb).2⟩

/-- In a run that keeps parents, the blocks of an author that a node has executed are an
initial part of the author's proposals. -/
theorem Reaches.executed_prefix {S : Setup} {moves : List Move} {w : World} {f : Nat}
    (hn : S.committee.size = 3 * f + 1) (h : Reaches S moves w)
    (hok : Machine.Along (step S) (fun w mv => keepsParent w mv = true) (init S) moves) (i : Int)
    {a : Int} (ha : a ∈ S.committee.ids) :
    ((w.nodes i).pair.executed.filter fun b => decide (b.header.slot.author = a)) <+:
      chain a w.trace := by
  have hheights := (h.lined hn hok i).executedHeights ha
  have hmap : (w.nodes i).pair.executedHeights a = ((w.nodes i).pair.executed.filter
      fun b => decide (b.header.slot.author = a)).map (·.header.slot.height) := by
    rw [Pair.executedHeights, heightsOf, List.filter_map, List.map_map]
    rfl
  rw [hmap, List.length_map] at hheights
  generalize hL : ((w.nodes i).pair.executed.filter
    fun b => decide (b.header.slot.author = a)) = L at hheights
  have hmem : ∀ b ∈ L, .proposed b ∈ w.trace ∧ b.header.slot.author = a := by
    intro b hb
    rw [← hL, List.mem_filter, decide_eq_true_eq] at hb
    exact ⟨(h.throughout i).ordered b (List.mem_append_left _ hb.1), hb.2⟩
  rw [List.prefix_iff_getElem?]
  intro k hk
  obtain ⟨j, hj⟩ := List.mem_iff_getElem?.mp (mem_chain.mpr (hmem _ (List.getElem_mem hk)))
  have hslot := (h.chained hn a).linked.slot j _ hj
  have hheight : L[k].header.slot.height = k := by
    have hget : (L.map (·.header.slot.height))[k]? = some (L[k].header.slot.height) := by
      rw [List.getElem?_map, List.getElem?_eq_getElem hk]
      rfl
    rw [hheights, after_neg_one, List.getElem?_map, List.getElem?_range hk] at hget
    exact (Option.some.inj hget).symm
  rw [hslot] at hheight
  have hjk : j = k := by
    dsimp only at hheight
    omega
  rwa [hjk] at hj

end World

end Loom
