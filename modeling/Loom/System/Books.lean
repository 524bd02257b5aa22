import Loom.System.Election
import Loom.Pair.Lines

/-!
# The books of the nodes

The blocks proposed in a run form one universe, and what every node executes is a ledger
over it. A move of the system changes the dag and the commitor of a node by at most one
step of the pair, so the invariants of pairs hold in the system.
-/

namespace Loom.World

/-! ## The universe of a run -/

/-- The blocks proposed, in order. -/
def proposals (tr : List Event) : List Block :=
  tr.filterMap fun
    | .proposed b => some b
    | _ => none

/-- The proposed blocks of a trace. -/
theorem mem_proposals {tr : List Event} {b : Block} : b ∈ proposals tr ↔ .proposed b ∈ tr := by
  apply Machine.mem_selected
  intro e a
  cases e <;> simp

/-- The block proposed for each slot. -/
def blocks (tr : List Event) : Slot → Option Block := universeOf (proposals tr)

/-- A block is in the universe if it was proposed, since every slot is proposed once. -/
theorem blocks_eq_some {S : Setup} {w : World} (h : ∀ i, Chained S w.trace i (w.nodes i))
    {s : Slot} {b : Block} :
    blocks w.trace s = some b ↔ .proposed b ∈ w.trace ∧ b.header.slot = s := by
  have hfound : ∀ {b : Block}, blocks w.trace s = some b →
      .proposed b ∈ w.trace ∧ b.header.slot = s := by
    intro b hb
    refine ⟨mem_proposals.mp (List.mem_of_find?_eq_some hb), ?_⟩
    simpa using List.find?_some hb
  refine ⟨hfound, ?_⟩
  rintro ⟨hb, rfl⟩
  have hsome : (blocks w.trace b.header.slot).isSome := by
    rw [blocks, universeOf, List.find?_isSome]
    exact ⟨b, mem_proposals.mpr hb, by simp⟩
  obtain ⟨b', hb'⟩ := Option.isSome_iff_exists.mp hsome
  obtain ⟨hmem', hslot'⟩ := hfound hb'
  obtain ⟨k, hk⟩ := List.mem_iff_getElem?.mp (mem_chain.mpr ⟨hb, rfl⟩)
  obtain ⟨k', hk'⟩ := List.mem_iff_getElem?.mp (mem_chain.mpr ⟨hmem', rfl⟩)
  rw [hslot'] at hk'
  have hs := (h _).linked.slot k b hk
  have hs' := (h _).linked.slot k' b' hk'
  rw [hslot', hs, Slot.mk.injEq] at hs'
  have hkk : k = k' := by omega
  rw [hkk, hk'] at hk
  cases hk
  exact hb'

/-! ## Pairs inside the system -/

/-- The reveals that a node emitted, in order. -/
def revealsBy (i : Int) (tr : List Event) : List CommitReq :=
  tr.filterMap fun
    | .revealed k req => if k = i then some req else none
    | _ => none

/-- The reveals of one node. -/
theorem mem_revealsBy {i : Int} {tr : List Event} {req : CommitReq} :
    req ∈ revealsBy i tr ↔ .revealed i req ∈ tr := by
  apply Machine.mem_selected
  intro e a
  cases e <;> simp

private theorem revealsBy_append (i : Int) (tr evs : List Event) :
    revealsBy i (tr ++ evs) = revealsBy i tr ++ revealsBy i evs := List.filterMap_append ..

private theorem revealsBy_append_of_none {i : Int} {tr evs : List Event}
    (h : ∀ req, .revealed i req ∉ evs) : revealsBy i (tr ++ evs) = revealsBy i tr := by
  have hnil : revealsBy i evs = [] := by
    rw [List.eq_nil_iff_forall_not_mem]
    exact fun req hreq => h req (mem_revealsBy.mp hreq)
  rw [revealsBy_append, hnil, List.append_nil]

/-- What a move does to the pair of one node and to the reveals sent to it. -/
inductive PairStep (w w' : World) (mv : Move) (i : Int) : Prop
  | same : (w'.nodes i).pair = (w.nodes i).pair →
      revealsBy i w'.trace = revealsBy i w.trace → PairStep w w' mv i
  | panic : (w'.nodes i).pair = { (w.nodes i).pair with crashed := true } →
      revealsBy i w'.trace = revealsBy i w.trace → PairStep w w' mv i
  | step (act) : (w.nodes i).pair.step act = some (w'.nodes i).pair →
      revealsBy i w'.trace = revealsBy i w.trace ++ Pair.reveals [act] →
      (∀ req, act = .send req → .dag req ∈ (w.nodes i).core.todo) →
      (ownAct act = true → mv = .pair i act) → PairStep w w' mv i

/-- A move changes the pair of a node by one step of the pair at most, or it is the panic
of the node's core. -/
theorem Step.pairStep {S : Setup} {w w' : World} {mv : Move} (hs : w.Step S mv w') (i : Int) :
    PairStep w w' mv i := by
  have hother : ∀ {k : Int} {x : Node}, i ≠ k →
      ((w.setNode k x).nodes i).pair = (w.nodes i).pair := by
    intro k x hne
    rw [setNode_nodes, if_neg hne]
  have hkeep : ∀ {k : Int} {x : Node}, x.pair = (w.nodes k).pair →
      ((w.setNode k x).nodes i).pair = (w.nodes i).pair := by
    intro k x hx
    rw [setNode_nodes]
    split
    · subst k
      exact hx
    · rfl
  cases hs with
  | deliver | loop => exact .same (hkeep rfl) rfl
  | @send k batch dst msg rest hk htodo =>
    refine .same (hkeep rfl) (revealsBy_append_of_none fun req hreq => ?_)
    cases msg <;> simp [sendEvents] at hreq
  | @dagReq k batch req rest p hk htodo hp =>
    by_cases hik : i = k
    · subst hik
      refine .step (.send req) (by simpa using hp) ?_ ?_ (by simp [ownAct])
      · rw [revealsBy_append]
        cases req <;> simp [revealsBy, dagEvents, Pair.reveals]
      · rintro req' he
        cases he
        exact htodo ▸ List.mem_cons_self ..
    · refine .same (hother hik) (revealsBy_append_of_none fun req' hreq => ?_)
      cases req <;> simp [dagEvents, hik] at hreq
  | @build k batch height round oldFirstRefH rest ref p hk htodo hpc hp =>
    have hev : ∀ req, Event.revealed i req ∉ buildEvents k ref
        ((w.nodes k).core.buildBlock S.crypto height round oldFirstRefH ref batch) := by
      intro req
      unfold buildEvents
      split <;> simp
    by_cases hik : i = k
    · subst hik
      refine .step .refResp (by simpa using hp) ?_ (by simp) (by simp [ownAct])
      exact (revealsBy_append_of_none hev).trans (List.append_nil _).symm
    · exact .same (hother hik) (revealsBy_append_of_none hev)
  | @panic k =>
    by_cases hik : i = k
    · subst hik
      exact .panic (by simp) rfl
    · exact .same (hother hik) rfl
  | @handle k batch msg recvCh core hk htodo hrecv hh =>
    refine .same (hkeep rfl) (revealsBy_append_of_none fun req hreq => ?_)
    cases msg <;> simp [recvEvents] at hreq
  | @pair k act p hk hown hp =>
    have hev : ∀ req, Event.revealed i req ∉ pairEvents k (w.nodes k).pair act := by
      intro req
      unfold pairEvents
      split
      · split <;> simp
      · simp
    by_cases hik : i = k
    · subst hik
      refine .step act (by simpa using hp) ?_ ?_ fun _ => rfl
      · have hnil : Pair.reveals [act] = [] := by cases act <;> first | rfl | cases hown
        rw [hnil, List.append_nil]
        exact revealsBy_append_of_none hev
      · rintro req rfl
        cases hown
    · exact .same (hother hik) (revealsBy_append_of_none hev)

/-- What holds of every pair in a run towards the trace `tr`. -/
structure Kept (tr : List Event) (i : Int) (s : Pair) : Prop where
  loaded : s.Loaded (blocks tr)
  told : s.Told (· ∈ revealsBy i tr)

private theorem kept_init (tr : List Event) (i : Int) (c : Committee) : Kept tr i (Pair.init i c) :=
  ⟨Pair.loaded_init _ i c, Pair.told_init _ i c⟩

/-- A panic changes nothing in the books. -/
theorem Kept.crash {tr : List Event} {i : Int} {s : Pair} (h : Kept tr i s) :
    Kept tr i { s with crashed := true } := ⟨h.loaded.crash, h.told.crash⟩

/-- A step of a pair conforms to the blocks and reveals of the run. -/
theorem Kept.step {S : Setup} {w wl : World} {i : Int} {act : Act} {t : Pair}
    (h : Kept wl.trace i (w.nodes i).pair) (ht : Traffic S w)
    (hl : ∀ i, Chained S wl.trace i (wl.nodes i)) (hw : w.trace ⊆ wl.trace)
    (hact : (w.nodes i).pair.step act = some t)
    (hsend : ∀ req, act = .send req → .dag req ∈ (w.nodes i).core.todo)
    (hrev : ∀ req ∈ Pair.reveals [act], req ∈ revealsBy i wl.trace) : Kept wl.trace i t := by
  have hinv := (ht.node i).inv
  obtain ⟨_, hst⟩ := Pair.step_cases hact
  refine ⟨Pair.loaded_step hinv.dagSide hinv.shape hinv.bounds h.loaded ?_ hst,
    Pair.told_step h.told ?_ hst⟩
  · rintro b rfl
    have hdue := (ht.node i).todo _ (hsend _ rfl)
    exact (blocks_eq_some hl).mpr ⟨hw hdue, rfl⟩
  · rintro req rfl
    exact hrev req (List.mem_singleton.mpr rfl)

/-- **The rule for pairs in a run.** What holds of a fresh pair, survives a panic and is
kept by the steps of pairs holds of every node's pair together with the reveals sent to
it. A step may use that the run is disciplined, that its pair conforms to the blocks and
reveals of the whole run, and the condition that the moves of the run meet. -/
theorem Reaches.pairs {S : Setup} {moves : List Move} {w : World} {f : Nat}
    (hn : S.committee.size = 3 * f + 1) (h : Reaches S moves w) {ok : World → Move → Prop}
    (hok : Machine.Along (step S) ok (init S) moves) {J : List CommitReq → Pair → Prop}
    (hinit : ∀ i, J [] (Pair.init i S.committee))
    (hcrash : ∀ sent s, J sent s → J sent { s with crashed := true })
    (hstep : ∀ u mv i act t, Disciplined S u → ok u mv → (ownAct act = true → mv = .pair i act) →
      Kept w.trace i (u.nodes i).pair → J (revealsBy i u.trace) (u.nodes i).pair →
      (u.nodes i).pair.step act = some t → J (revealsBy i u.trace ++ Pair.reveals [act]) t) :
    ∀ i, Kept w.trace i (w.nodes i).pair ∧ J (revealsBy i w.trace) (w.nodes i).pair := by
  have hlast := h.disciplined hn
  obtain ⟨_, htoward⟩ := Machine.along_toward (R := fun u v : World => u.trace ⊆ v.trace)
    (fun _ => List.Subset.refl _)
    (fun _ _ _ _ hs ht => List.Subset.trans (step_cases hs).trace_grows.subset ht) h
  have hinv : Disciplined S w ∧ ∀ i, Kept w.trace i (w.nodes i).pair ∧
      J (revealsBy i w.trace) (w.nodes i).pair := by
    refine Machine.invariant_along (P := fun u => Disciplined S u ∧ ∀ i,
      Kept w.trace i (u.nodes i).pair ∧ J (revealsBy i u.trace) (u.nodes i).pair) ?_ ?_
      (hok.and htoward) h
    · rintro u mv v ⟨hu, hpairs⟩ ⟨hmv, hv⟩ hs
      have hst := step_cases hs
      have hsub := hv v hs
      refine ⟨disciplined_step hn hu hst, fun i => ?_⟩
      obtain ⟨hk, hJ⟩ := hpairs i
      cases hst.pairStep i with
      | same heq hrev =>
        rw [heq, hrev]
        exact ⟨hk, hJ⟩
      | panic heq hrev =>
        rw [heq, hrev]
        exact ⟨hk.crash, hcrash _ _ hJ⟩
      | step act hact hrev hsend hown =>
        refine ⟨hk.step hu.traffic hlast.chained (List.Subset.trans hst.trace_grows.subset hsub)
          hact hsend fun req hreq => ?_, ?_⟩
        · have hmem : req ∈ revealsBy i v.trace := by
            rw [hrev]
            exact List.mem_append_right _ hreq
          exact mem_revealsBy.mpr (hsub (mem_revealsBy.mp hmem))
        · rw [hrev]
          exact hstep u mv i act _ hu hmv hown hk hJ hact
    · exact ⟨disciplined_init S, fun i => ⟨kept_init _ i _, hinit i⟩⟩
  exact hinv.2

/-- A node reveals each round at most once, and only even rounds. -/
theorem Disciplined.sent_once {S : Setup} {w : World} {f : Nat}
    (hn : S.committee.size = 3 * f + 1) (h : Disciplined S w) (i : Int) :
    ((revealsBy i w.trace).map (·.round)).Nodup ∧
      ∀ req ∈ revealsBy i w.trace, 0 ≤ req.round ∧ req.round % 2 = 0 := by
  constructor
  · rw [List.nodup_iff_count_le_one]
    intro r
    have hcount : ((revealsBy i w.trace).map (·.round)).count r =
        w.trace.countP (isReveal i r) := by
      rw [List.count, List.countP_map, revealsBy, List.countP_filterMap]
      refine List.countP_congr fun e _ => ?_
      cases e <;> simp [isReveal]
      split <;> simp_all
    rw [hcount]
    exact h.reveal_once hn i r
  · intro req hreq
    obtain ⟨pre, post, htr⟩ := List.append_of_mem (mem_revealsBy.mp hreq)
    exact (h.reveals pre _ post htr).1

end Loom.World
