import Loom.System.References
import Loom.System.Books

/-!
# Executed lines have no gaps

A commit executes what is reachable through references, while garbage collection drops
everything up to the highest height gathered. The two agree if every block refers to its
own parent, which `handleRefReq` gives up when a quorum of other lines has gone ahead.
-/

namespace Loom.World

/-- The condition under which the lines stay connected: when a node takes the references
for a block above height `0`, its own line ends in the block below, and this block
qualifies for a reference or fewer than `2f+1` lines do. -/
def keepsParent (w : World) : Move → Bool
  | .core i _ =>
    match (w.nodes i).core.todo with
    | .awaitRef height round _ :: _ =>
      decide (height < 1) || (w.nodes i).pair.dag.refersToOwn round ⟨i, height - 1⟩
    | _ => true
  | _ => true

/-- Every proposed block above height `0` refers to the one below it. -/
def Parented (tr : List Event) : Prop :=
  ∀ b, .proposed b ∈ tr → 1 ≤ b.header.slot.height →
    ⟨b.header.slot.author, b.header.slot.height - 1⟩ ∈ b.refSlots

private theorem parented_step {S : Setup} {w w' : World} {mv : Move} (ht : Traffic S w)
    (ha : ∀ i, Asking (w.nodes i)) (h : Parented w.trace) (hok : keepsParent w mv = true)
    (hs : w.Step S mv w') : Parented w'.trace := by
  intro b hb hheight
  rcases hs.proposed_cases hb with
    hb | ⟨i, batch, height, round, oldFirstRefH, rest, ref, rfl, htodo, hpc, rfl⟩
  · exact h b hb hheight
  · change 1 ≤ height at hheight
    have href := (ha i).handleRefReq htodo hpc
    simp only [keepsParent, htodo, Bool.or_eq_true, decide_eq_true_eq] at hok
    obtain ⟨k, hmem, hslot⟩ := Dag.mem_of_refersToOwn href (hok.resolve_left (by omega))
    refine List.mem_map.mpr ⟨k, hmem, ?_⟩
    rw [hslot, Core.buildBlock, newBlock_header, (ht.node i).nodeID]

/-- The universe of a run that keeps parents is connected. -/
theorem connected_blocks {S : Setup} {w : World} (hc : ∀ i, Chained S w.trace i (w.nodes i))
    (hp : Parented w.trace) : Connected (blocks w.trace) := by
  have hindex : ∀ {a h b}, blocks w.trace ⟨a, h⟩ = some b → ∃ k : Nat, h = k ∧
      (chain a w.trace)[k]? = some b := by
    intro a h b hb
    obtain ⟨hmem, hslot⟩ := (blocks_eq_some hc).mp hb
    obtain ⟨k, hk⟩ := List.mem_iff_getElem?.mp (mem_chain.mpr ⟨hmem, by rw [hslot]⟩)
    have hs := (hc a).linked.slot k b hk
    rw [hslot, Slot.mk.injEq] at hs
    exact ⟨k, hs.2, hk⟩
  refine ⟨fun a h b hb => ?_, fun a h b hb hpos => ?_⟩
  · obtain ⟨k, hk, _⟩ := hindex hb
    omega
  · obtain ⟨hmem, hslot⟩ := (blocks_eq_some hc).mp hb
    have href := hp b hmem (by rw [hslot]; exact hpos)
    rw [hslot] at href
    refine ⟨href, ?_⟩
    obtain ⟨k, rfl, hk⟩ := hindex hb
    have hlt := (List.getElem?_eq_some_iff.mp hk).1
    have hk' : (chain a w.trace)[k - 1]? = some (chain a w.trace)[k - 1] :=
      List.getElem?_eq_getElem (by omega)
    refine Option.isSome_iff_exists.mpr ⟨_, (blocks_eq_some hc).mpr
      ⟨(mem_chain.mp (List.mem_of_getElem? hk')).1, ?_⟩⟩
    rw [(hc a).linked.slot _ _ hk', Slot.mk.injEq]
    exact ⟨rfl, by omega⟩

/-- A node is told one leader per round. -/
theorem Disciplined.leader_unique {S : Setup} {w : World} {f : Nat}
    (hn : S.committee.size = 3 * f + 1) (h : Disciplined S w) {i r l l' : Int}
    (hl : ⟨l, r⟩ ∈ revealsBy i w.trace) (hl' : ⟨l', r⟩ ∈ revealsBy i w.trace) : l = l' := by
  have heq := List.inj_on_of_nodup_map (h.sent_once hn i).1 hl hl' rfl
  exact (CommitReq.mk.injEq .. ▸ heq).1

/-- What a pair has ordered ends at the watermarks, and everything up to the watermarks
installed has been executed. -/
structure Lined (ids : List Int) (s : Pair) : Prop where
  heights : ∀ a ∈ ids, -1 ≤ s.marks a ∧ heightsOf a s.out = after (-1) (s.marks a + 1).toNat
  behind : s.Behind ids

/-- In every node the executed blocks of a member follow each other without gaps. -/
theorem Reaches.lined {S : Setup} {moves : List Move} {w : World} {f : Nat}
    (hn : S.committee.size = 3 * f + 1) (h : Reaches S moves w)
    (hok : Machine.Along (step S) (fun w mv => keepsParent w mv = true) (init S) moves) :
    ∀ i, Lined S.committee.ids (w.nodes i).pair := by
  have hlast := h.disciplined hn
  have hpar : Parented w.trace :=
    Machine.invariant_reached (P := fun w => Parented w.trace) (by simp [Parented, init])
      (fun _ _ _ _ hu hi hq hs => parented_step (Reaches.traffic hu) (Reaches.asking hu) hi hq
        (step_cases hs)) hok h
  have hconn := connected_blocks hlast.chained hpar
  have hpairs := h.pairs hn hok
    (J := fun _ s => s.Booked (blocks w.trace) OwnLeader (Pair.freshOrigin S.committee) ∧
      s.Behind S.committee.ids)
    (fun i => ⟨Pair.booked_init _ _ i _, Pair.behind_init i _⟩)
    (fun _ s hJ => ⟨hJ.1.crash, hJ.2⟩)
    (fun u mv i act t hu _ _ hk hJ hact => by
      obtain ⟨_, hst⟩ := Pair.step_cases hact
      have hinv := (hu.traffic.node i).inv
      have hreads := Pair.readsOk_ownLeader hk.loaded hk.told
        (fun r l l' => hlast.leader_unique hn) act
      have hbooked := Pair.booked_step hinv.shape hinv.bounds hk.loaded hJ.1 hreads hst
      exact ⟨hbooked, Pair.behind_step hinv.shape hJ.2 hst fun a ha => hbooked.heights hconn ha⟩)
  intro i
  obtain ⟨_, hbooked, hbehind⟩ := hpairs i
  exact ⟨fun a ha => hbooked.heights hconn ha, hbehind⟩

/-- The heights executed so far are the first ones. -/
theorem Lined.executedHeights {ids : List Int} {s : Pair} (h : Lined ids s) {a : Int}
    (ha : a ∈ ids) : s.executedHeights a = after (-1) (s.executedHeights a).length := by
  have hpre := s.executedHeights_prefix a
  rw [(h.heights a ha).2] at hpre
  exact prefix_after hpre

/-- The heights from `0` on. -/
theorem after_neg_one (n : Nat) : after (-1) n = (List.range n).map fun k : Nat => (k : Int) := by
  refine List.map_congr_left fun k _ => ?_
  omega

/-- **No committed-over block is lost**, in every run that keeps parents: the heights of
each author's blocks in the order in which a node executes them are `0, 1, …, k - 1`;
every slot up to a watermark, which is what garbage collection discards and a pull
reports as committed, has been executed; and after a processed garbage collection the
watermark is the last height executed. -/
theorem executed_without_gaps {S : Setup} {moves : List Move} {w : World} {f : Nat}
    (hn : S.committee.size = 3 * f + 1) (h : Reaches S moves w)
    (hok : Machine.Along (step S) (fun w mv => keepsParent w mv = true) (init S) moves)
    (i : Int) {a : Int} (ha : a ∈ S.committee.ids) :
    ∃ k : Nat,
      (w.nodes i).pair.executedHeights a = (List.range k).map (fun h : Nat => (h : Int)) ∧
      (∀ h : Int, 0 ≤ h → h ≤ (w.nodes i).pair.dag.mark a →
        ⟨a, h⟩ ∈ (w.nodes i).pair.executed.map (·.header.slot)) ∧
      ∀ wm R rest order w', (w.nodes i).pair.opCh = .gcReq wm R :: rest →
        w.step S (.pair i (.dag order)) = some w' → (w'.nodes i).pair.crashed = false →
        (w'.nodes i).pair.dag.mark a = k - 1 := by
  have hl := h.lined hn hok i
  have hex := hl.executedHeights ha
  refine ⟨((w.nodes i).pair.executedHeights a).length, hex.trans (after_neg_one _), ?_, ?_⟩
  · intro x h0 hx
    have hb := hl.behind a ha
    rw [← mem_heightsOf]
    change x ∈ (w.nodes i).pair.executedHeights a
    rw [hex, mem_after]
    omega
  · intro wm R rest order w' hop hs hcr
    have h' : Reaches S (moves ++ [.pair i (.dag order)]) w' := Machine.run_concat.mpr ⟨w, h, hs⟩
    have hok' : Machine.Along (step S) (fun w mv => keepsParent w mv = true) (init S)
        (moves ++ [.pair i (.dag order)]) :=
      Machine.along_append.mpr ⟨hok, fun _ _ => ⟨rfl, fun _ _ => trivial⟩⟩
    obtain ⟨hlow, hheights⟩ := (h'.lined hn hok' i).heights a ha
    obtain ⟨d, pc, hpair⟩ : ∃ d pc, (w'.nodes i).pair =
        { (w.nodes i).pair with dag := d, dagPc := pc, opCh := rest } := by
      cases step_cases hs with
      | pair _ _ hp =>
        rw [setNode_nodes, if_pos rfl] at hcr ⊢
        cases (Pair.step_cases hp).2 with
        | crash => cases hcr
        | dag _ hop' _ _ =>
          rw [hop] at hop'
          cases hop'
          exact ⟨_, _, rfl⟩
    have hinv := ((h.disciplined hn).traffic.node i).inv
    obtain ⟨hout, hmark⟩ := Pair.mark_of_gc hinv.shape hop hpair
    have hlen := congrArg List.length hheights
    rw [hout, hmark, length_after, hpair] at hlen
    rw [hmark] at hlow
    change ((w.nodes i).pair.executedHeights a).length = _ at hlen
    rw [hpair] at hlow ⊢
    omega

/-- All links in turn, until the second commit. -/
def inLockstep : List (Int × Int) := wakeUp ++ repeated 18 sweep

/-- Six blocks of member `2` are executed, with heights `0` to `5`. -/
theorem executed_without_gaps_inLockstep : ∃ moves w, Reaches fourNodes moves w ∧
    (∃ k : Nat, (w.nodes 0).pair.executedHeights 2 = (List.range k).map (fun h : Nat => (h : Int)) ∧
      k = 6) ∧
    ⟨2, 5⟩ ∈ (w.nodes 0).pair.executed.map (·.header.slot) := by
  have hrun := follow_reaches fourNodes inLockstep
  obtain ⟨hok, hstate⟩ : Machine.Along (step fourNodes) (fun w mv => keepsParent w mv = true)
        (init fourNodes) (follow fourNodes inLockstep).1 ∧
      (((follow fourNodes inLockstep).2.nodes 0).pair.executedHeights 2).length = 6 ∧
      ((follow fourNodes inLockstep).2.nodes 0).pair.dag.mark 2 = 5 := by decide +kernel
  obtain ⟨k, hk, hcover, _⟩ := executed_without_gaps (f := 1) rfl hrun hok 0 (a := 2) (by decide)
  refine ⟨_, _, hrun, ⟨k, hk, ?_⟩, hcover 5 (by decide) (by rw [hstate.2])⟩
  have hlen := hstate.1
  rwa [hk, List.length_map, List.length_range] at hlen

/-- Members `0`, `1` and `3` exchange their messages and reach member `2`, from which
nothing arrives. -/
def goAhead : List (Int × Int) :=
  [(0, 0), (0, 1), (0, 3), (1, 0), (1, 1), (1, 3), (3, 0), (3, 1), (3, 3), (0, 2), (1, 2), (3, 2)]

/-- The links of member `2`. -/
def catchUp : List (Int × Int) := [(2, 0), (2, 1), (2, 3), (2, 2), (0, 2), (1, 2), (3, 2)]

/-- Member `2` gets the echoes of its first block when the others are two blocks ahead. -/
def lagging : List (Int × Int) :=
  wakeUp ++ repeated 5 goAhead ++ repeated 6 catchUp ++ repeated 13 sweep

/-- The second block of a lagging member refers to the three other lines and not to the
member's first block. That block is never executed, although later blocks of the member
are, and the watermark has passed it. -/
theorem lagging_loses_block : ∃ moves w, Reaches fourNodes moves w ∧
    (∃ b, .proposed b ∈ w.trace ∧ b.header.slot = ⟨2, 0⟩) ∧
    (w.nodes 2).pair.executedHeights 2 = [1, 2, 3, 4] ∧ (w.nodes 2).pair.dag.mark 2 = 4 := by
  refine ⟨_, _, follow_reaches fourNodes lagging, ?_⟩
  have hstate : (∃ b ∈ proposals (follow fourNodes lagging).2.trace, b.header.slot = ⟨2, 0⟩) ∧
      ((follow fourNodes lagging).2.nodes 2).pair.executedHeights 2 = [1, 2, 3, 4] ∧
      ((follow fourNodes lagging).2.nodes 2).pair.dag.mark 2 = 4 := by decide +kernel
  obtain ⟨⟨b, hb, hslot⟩, hrest⟩ := hstate
  exact ⟨⟨b, mem_proposals.mp hb, hslot⟩, hrest⟩

end Loom.World
