import Loom.System.Traffic

/-!
# Reference requests

`propose` sends a `refReq` to the dag and waits for the answer, so a node has at most one
request under way. While the dag holds its answer it handles nothing else, and the
references that `generateBlock` receives are those that `handleRefReq` collects from the
dag as it is at that moment. They include the node's own last block unless a quorum of
lines qualifies without it.
-/

namespace Loom

/-- The rounds of the reference requests in a queue. -/
def refRounds (ops : List OpMsg) : List Int :=
  ops.filterMap fun
    | .core (.refReq r) => some r
    | _ => none

/-- The answer to a reference request that waits for the core. -/
def DagPc.refs : DagPc → List (List Header)
  | .refResp ref => [ref]
  | _ => []

namespace Dag

/-- Whether the last block of a line may be referred to from a proposal of the round. -/
def lineQualifies (round : Int) (l : List (Option Block)) : Bool :=
  l.getLast?.join.any fun b => qualifies round b.header

/-- The own line ends in the given slot, and its last block is not left out: it qualifies
itself, or fewer than `2f+1` lines do. -/
def refersToOwn (d : Dag) (round : Int) (s : Slot) : Bool :=
  ((d.line d.nodeID).bind fun l => l.getLast?.join).any fun b =>
    decide (b.header.slot = s) && (qualifies round b.header ||
      decide (d.cache.countP (lineQualifies round) < d.committee.hightThreshold))

private theorem refOf_some {round : Int} {l : List (Option Block)} {r : List Header}
    (h : refOf round l = some r) : r.length = (if lineQualifies round l then 1 else 0) ∧
      ∀ b, l.getLast? = some (some b) → qualifies round b.header = true → b.header ∈ r := by
  unfold refOf at h
  unfold lineQualifies
  split at h
  · rename_i hlast
    cases h
    simp [hlast]
  · cases h
  · rename_i b hlast
    cases h
    cases hq : qualifies round b.header <;> simp [hlast, hq]

/-- Each line that qualifies contributes the header of its last block. -/
theorem mapM_refOf {round : Int} {ls : List (List (Option Block))} {refs : List (List Header)}
    (h : ls.mapM (refOf round) = some refs) :
    refs.flatten.length = ls.countP (lineQualifies round) ∧
      ∀ l ∈ ls, ∀ b, l.getLast? = some (some b) → qualifies round b.header = true →
        b.header ∈ refs.flatten := by
  induction ls generalizing refs with
  | nil =>
    cases h
    simp
  | cons l ls ih =>
    rw [List.mapM_cons] at h
    obtain ⟨r, hr, h⟩ := Option.bind_eq_some_iff.mp h
    obtain ⟨rs, hrs, h⟩ := Option.bind_eq_some_iff.mp h
    cases h
    obtain ⟨hlen, hmem⟩ := ih hrs
    have hhead := refOf_some hr
    refine ⟨?_, ?_⟩
    · rw [List.flatten_cons, List.length_append, List.countP_cons, hlen, hhead.1, Nat.add_comm]
    · intro l' hl' b hb hq
      rw [List.flatten_cons, List.mem_append]
      rcases List.mem_cons.mp hl' with rfl | hl'
      · exact Or.inl (hhead.2 b hb hq)
      · exact Or.inr (hmem l' hl' b hb hq)

/-- The references are those of the lines that qualify, unless these are too few. -/
theorem handleRefReq_ref {d d' : Dag} {round : Int} {ref : List Header}
    (h : d.handleRefReq round = some (d', .refResp ref)) :
    (d.committee.hightThreshold ≤ d.cache.countP (lineQualifies round) ∧
      ∃ refs, d.cache.mapM (refOf round) = some refs ∧ ref = refs.flatten) ∨
    (d.cache.countP (lineQualifies round) < d.committee.hightThreshold ∧
      ∀ l b, d.line d.nodeID = some l → l.getLast? = some (some b) → ref = [b.header]) := by
  unfold handleRefReq at h
  obtain ⟨refs, hrefs, h⟩ := Option.bind_eq_some_iff.mp h
  have hlen := (mapM_refOf hrefs).1
  dsimp only at h
  split at h
  · refine Or.inr ⟨by omega, fun l b hl hb => ?_⟩
    rw [hl] at h
    simp only [Option.bind_eq_bind, Option.bind_some, hb] at h
    cases h
    rfl
  · cases h
    exact Or.inl ⟨by omega, refs, hrefs, rfl⟩

/-- A line is one of the cache. -/
theorem mem_cache_of_line {d : Dag} {a : Int} {l : List (Option Block)} (h : d.line a = some l) :
    l ∈ d.cache := by
  unfold line at h
  split at h
  · exact List.mem_of_getElem? h
  · cases h

/-- A dag that refers to its own line names the last block of it. -/
theorem mem_of_refersToOwn {d d' : Dag} {round : Int} {ref : List Header} {s : Slot}
    (h : d.handleRefReq round = some (d', .refResp ref)) (hown : d.refersToOwn round s = true) :
    ∃ k ∈ ref, k.slot = s := by
  simp only [refersToOwn, Option.any_eq_true, Option.bind_eq_some_iff, Bool.and_eq_true,
    Bool.or_eq_true, decide_eq_true_eq, Option.join_eq_some_iff] at hown
  obtain ⟨b, ⟨l, hl, hb⟩, hslot, hq⟩ := hown
  refine ⟨b.header, ?_, hslot⟩
  rcases handleRefReq_ref h with ⟨hmany, refs, hrefs, rfl⟩ | ⟨_, hfew⟩
  · exact (mapM_refOf hrefs).2 l (mem_cache_of_line hl) b hb (hq.resolve_right (by omega))
  · rw [hfew l b hl hb]
    exact List.mem_singleton.mpr rfl

end Dag

namespace Pair

/-- What a step does to the reference requests. -/
inductive RefStep (s : Pair) (a : Act) (t : Pair) : Prop
  | same : refRounds t.opCh = refRounds s.opCh → t.dagPc.refs = s.dagPc.refs →
      (t.dagPc.refs ≠ [] → t.dag = s.dag) → RefStep s a t
  | asked (r) : a = .send (.refReq r) → refRounds t.opCh = refRounds s.opCh ++ [r] →
      t.dagPc.refs = s.dagPc.refs → RefStep s a t
  | answered (r ref) : refRounds s.opCh = r :: refRounds t.opCh → s.dagPc.refs = [] →
      t.dagPc.refs = [ref] → s.dag.handleRefReq r = some (s.dag, .refResp ref) →
      t.dag = s.dag → RefStep s a t
  | taken : a = .refResp → RefStep s a t

/-- Only a reference request is answered with references. -/
theorem refs_handle {d d' : Dag} {order : List Int} {m : OpMsg} {pc : DagPc}
    (hm : d.handle order m = some (d', pc)) (hr : ∀ r, m ≠ .core (.refReq r)) : pc.refs = [] := by
  cases m with
  | core req =>
    cases req with
    | propose block =>
      rcases Dag.handleBlockPushReq_cases hm with
        ⟨_, _, rfl⟩ | ⟨_, _, _, _, ⟨_, rfl⟩ | ⟨_, _, rfl⟩⟩ <;> rfl
    | refReq r => exact absurd rfl (hr r)
    | commitReq req =>
      obtain ⟨_, _, ⟨_, _, rfl⟩ | ⟨_, _, _, ⟨_, _, rfl⟩ | ⟨_, _, _, rfl⟩⟩⟩ :=
        Dag.handleCommitReq_cases hm <;> rfl
  | blockPullReq sl ch =>
    rcases Dag.handleBlockPullReq_cases hm with
      ⟨_, _, rfl⟩ | ⟨_, _, _, ⟨_, _, _, rfl⟩ | ⟨_, _, rfl⟩⟩ <;> rfl
  | gcReq wm r =>
    obtain ⟨rfl, _⟩ := Dag.handleCleanReq_cases hm
    rfl

/-- What a step does to requests for references. -/
theorem Step.refStep {s t : Pair} {a : Act} (hs : s.Step a t) : RefStep s a t := by
  cases hs with
  | send req =>
    cases req with
    | refReq r => exact .asked r rfl (by simp [refRounds]) rfl
    | propose | commitReq => exact .same (by simp [refRounds]) rfl fun _ => rfl
  | crash => exact .same rfl rfl fun _ => rfl
  | @dag order m rest d pc hpc hop _ hm =>
    by_cases hr : ∃ r, m = .core (.refReq r)
    · obtain ⟨r, rfl⟩ := hr
      change s.dag.handleRefReq r = some (d, pc) at hm
      obtain ⟨rfl, ref, rfl⟩ := Dag.handleRefReq_dag hm
      exact .answered r ref (by rw [hop]; rfl) (by rw [hpc]; rfl) rfl hm rfl
    · have hno : ∀ r, m ≠ .core (.refReq r) := fun r he => hr ⟨r, he⟩
      have hnil := refs_handle hm hno
      refine .same ?_ (by rw [hpc]; exact hnil) fun hne => absurd hnil hne
      rw [hop]
      cases m with
      | core req =>
        cases req with
        | refReq r => exact absurd rfl (hno r)
        | propose | commitReq => rfl
      | blockPullReq | gcReq => rfl
  | submit hpc | reply hpc _ => exact .same rfl (by rw [hpc]; rfl) fun _ => rfl
  | refResp => exact .taken rfl
  | pull | gc => exact .same (by simp [refRounds]) rfl fun _ => rfl
  | take | skip | process | nothing | finish | exec => exact .same rfl rfl fun _ => rfl

end Pair

namespace World

/-- At most one reference request is under way, the core waits for it, and an answer is
what the dag would still answer. -/
structure Asking (x : Node) : Prop where
  single : (refRounds x.pair.opCh).length + x.pair.dagPc.refs.length ≤ 1
  queued : ∀ r ∈ refRounds x.pair.opCh, ∃ h f, x.core.todo = [.awaitRef h r f]
  answered : ∀ ref ∈ x.pair.dagPc.refs, ∃ h r f, x.core.todo = [.awaitRef h r f] ∧
    x.pair.dag.handleRefReq r = some (x.pair.dag, .refResp ref)
  due : ∀ r, .dag (.refReq r) ∈ x.core.todo → ∃ h f, x.core.todo = Core.propose h r f

/-- A core that asks for nothing. -/
theorem Asking.quiet {x : Node} (hq : refRounds x.pair.opCh = []) (hr : x.pair.dagPc.refs = [])
    (hdue : ∀ r, .dag (.refReq r) ∈ x.core.todo → ∃ h f, x.core.todo = Core.propose h r f) :
    Asking x where
  single := by simp [hq, hr]
  queued := by simp [hq]
  answered := by simp [hr]
  due := hdue

/-- The references that the core takes are those of the dag as it is. -/
theorem Asking.handleRefReq {x : Node} (h : Asking x) {height round oldFirstRefH : Int}
    {rest : List CoreAct} {ref : List Header}
    (htodo : x.core.todo = .awaitRef height round oldFirstRefH :: rest)
    (hpc : x.pair.dagPc = .refResp ref) :
    x.pair.dag.handleRefReq round = some (x.pair.dag, .refResp ref) := by
  obtain ⟨_, _, _, htodo', href⟩ := h.answered ref (by rw [hpc]; exact List.mem_singleton.mpr rfl)
  rw [htodo] at htodo'
  cases htodo'
  exact href

private theorem asking_init (c : Committee) (i : Int) : Asking (Node.init c i) := by
  refine Asking.quiet rfl rfl fun r hr => ?_
  simp only [Node.init, Core.init, Core.propose, List.mem_cons, CoreAct.dag.injEq,
    CoreReq.refReq.injEq, reduceCtorEq, List.not_mem_nil, or_false] at hr
  subst hr
  exact ⟨0, 0, rfl⟩

/-- Nothing is asked unless the core waits. -/
theorem Asking.idle {x : Node} (h : Asking x) (hno : ∀ a r f, x.core.todo ≠ [.awaitRef a r f]) :
    refRounds x.pair.opCh = [] ∧ x.pair.dagPc.refs = [] := by
  constructor
  · rw [List.eq_nil_iff_forall_not_mem]
    intro r hr
    obtain ⟨a, f, htodo⟩ := h.queued r hr
    exact hno a r f htodo
  · rw [List.eq_nil_iff_forall_not_mem]
    intro ref href
    obtain ⟨a, r, f, htodo, _⟩ := h.answered ref href
    exact hno a r f htodo

/-- After the first operation of the core's list no reference request is due. -/
theorem Asking.due_rest {x : Node} (h : Asking x) {act : CoreAct} {rest : List CoreAct}
    (htodo : x.core.todo = act :: rest) (r : Int) : .dag (.refReq r) ∉ rest := by
  intro hmem
  obtain ⟨a, f, heq⟩ := h.due r (htodo ▸ List.mem_cons_of_mem _ hmem)
  rw [htodo, Core.propose, List.cons.injEq] at heq
  rw [heq.2] at hmem
  simp at hmem

/-- A step of the dag or the commitor. -/
theorem Asking.pair {x : Node} (h : Asking x) {act : Act} {p : Pair} (hown : ownAct act = true)
    (hs : x.pair.Step act p) : Asking { x with pair := p } := by
  cases hs.refStep with
  | same hq hr hdag =>
    refine ⟨?_, ?_, ?_, h.due⟩
    · change (refRounds p.opCh).length + p.dagPc.refs.length ≤ 1
      rw [hq, hr]
      exact h.single
    · change ∀ r ∈ refRounds p.opCh, _
      rw [hq]
      exact h.queued
    · intro ref href
      have hd : p.dag = x.pair.dag := hdag (List.ne_nil_of_mem href)
      change ∃ a r f, x.core.todo = _ ∧ p.dag.handleRefReq r = some (p.dag, .refResp ref)
      rw [hd]
      exact h.answered ref (hr ▸ href)
  | asked r hact =>
    subst hact
    cases hown
  | answered r ref hq hnil hr hm hdag =>
    have hlen := h.single
    rw [hq, hnil, List.length_cons, List.length_nil] at hlen
    have hnone : refRounds p.opCh = [] := List.length_eq_zero_iff.mp (by omega)
    obtain ⟨a, f, htodo⟩ := h.queued r (hq ▸ List.mem_cons_self ..)
    refine ⟨?_, ?_, ?_, h.due⟩
    · change (refRounds p.opCh).length + p.dagPc.refs.length ≤ 1
      rw [hnone, hr]
      exact le_rfl
    · change ∀ r ∈ refRounds p.opCh, _
      rw [hnone]
      simp
    · intro ref' href
      change ref' ∈ p.dagPc.refs at href
      rw [hr, List.mem_singleton] at href
      subst href
      refine ⟨a, r, f, htodo, ?_⟩
      change p.dag.handleRefReq r = some (p.dag, .refResp ref')
      rw [hdag]
      exact hm
  | taken hact =>
    subst hact
    cases hown

/-- A request of the core. -/
theorem Asking.send {x : Node} (h : Asking x) {req : CoreReq} {rest : List CoreAct} {p : Pair}
    (htodo : x.core.todo = .dag req :: rest) (hs : x.pair.Step (.send req) p) :
    Asking { x with core := { x.core with todo := rest }, pair := p } := by
  obtain ⟨hq, hr⟩ := h.idle (by simp [htodo])
  have hrest := h.due_rest htodo
  cases hs.refStep with
  | same hq' hr' =>
    exact Asking.quiet (hq'.trans hq) (hr'.trans hr) fun r hmem => absurd hmem (hrest r)
  | asked r hact hq' hr' =>
    cases hact
    obtain ⟨a, f, heq⟩ := h.due r (htodo ▸ List.mem_cons_self ..)
    rw [htodo, Core.propose, List.cons.injEq] at heq
    rw [hq, List.nil_append] at hq'
    rw [hr] at hr'
    refine ⟨?_, ?_, ?_, fun r' hmem => absurd hmem (hrest r')⟩
    · change (refRounds p.opCh).length + p.dagPc.refs.length ≤ 1
      rw [hq', hr']
      exact le_rfl
    · intro r' hr''
      change r' ∈ refRounds p.opCh at hr''
      rw [hq', List.mem_singleton] at hr''
      subst hr''
      exact ⟨a, f, heq.2⟩
    · intro ref href
      change ref ∈ p.dagPc.refs at href
      rw [hr'] at href
      cases href
  | answered r ref hq' =>
    rw [hq] at hq'
    cases hq'
  | taken hact => cases hact

/-- A handled message. -/
theorem Asking.handle {x : Node} (h : Asking x) {cr : Crypto} {msg : NetMessage}
    {recvCh : List NetMessage} {core : Core} (htodo : x.core.todo = [])
    (hh : x.core.handle cr msg = some core) :
    Asking { x with core := core, recvCh := recvCh } := by
  obtain ⟨hq, hr⟩ := h.idle (by simp [htodo])
  refine Asking.quiet hq hr fun r hmem => ?_
  change .dag (.refReq r) ∈ core.todo at hmem
  cases msg with
  | propose b => rcases Core.handlePropose_cases hh with rfl | rfl <;> simp [htodo] at hmem
  | echo e =>
    rcases Core.handleEcho_cases hh with rfl | ⟨_, rfl⟩ | ⟨_, rfl⟩
    · simp [htodo] at hmem
    · simp [htodo] at hmem
    · simp only [Core.propose, List.mem_cons, CoreAct.dag.injEq, CoreReq.refReq.injEq,
        reduceCtorEq, List.not_mem_nil, or_false] at hmem
      subst hmem
      exact ⟨_, _, rfl⟩
  | elect e =>
    cases hh
    rcases Core.handleElect_cases cr x.core e with heq | ⟨_, _, heq, _⟩ <;>
      simp [heq, htodo] at hmem

private theorem asking_step {S : Setup} {w w' : World} {mv : Move} (h : ∀ i, Asking (w.nodes i))
    (hs : w.Step S mv w') (i : Int) : Asking (w'.nodes i) := by
  have hset : ∀ {k : Int} {x : Node}, Asking x → Asking ((w.setNode k x).nodes i) := by
    intro k x hx
    rw [setNode_nodes]
    split
    · exact hx
    · exact h i
  have hpop : ∀ {k : Int} {act : CoreAct} {rest : List CoreAct} {x : Node},
      (w.nodes k).core.todo = act :: rest → (∀ a r f, act ≠ .awaitRef a r f) →
      x.core.todo = rest → x.pair = (w.nodes k).pair → Asking x := by
    intro k act rest x htodo hact hx hp
    obtain ⟨hq, hr⟩ := (h k).idle fun a r f heq => by
      rw [htodo, List.cons.injEq] at heq
      exact hact a r f heq.1
    refine Asking.quiet (hp ▸ hq) (hp ▸ hr) fun r hmem => ?_
    exact absurd (hx ▸ hmem) ((h k).due_rest htodo r)
  cases hs with
  | deliver => exact hset ⟨(h _).single, (h _).queued, (h _).answered, (h _).due⟩
  | send _ htodo | loop _ htodo => exact hset (hpop htodo (by simp) rfl rfl)
  | dagReq _ htodo hp => exact hset ((h _).send htodo (Pair.step_cases hp).2)
  | @build k batch height round oldFirstRefH rest ref p hi htodo hpc hp =>
    have hlen := (h k).single
    rw [hpc] at hlen
    have hq : refRounds (w.nodes k).pair.opCh = [] :=
      List.length_eq_zero_iff.mp (by simpa [DagPc.refs] using hlen)
    cases (Pair.step_cases hp).2 with
    | refResp =>
      refine hset (Asking.quiet hq rfl fun r hmem => ?_)
      simp only [Core.generateBlock, Core.invokeElect] at hmem
      split at hmem
      · split at hmem <;> simp at hmem
      · simp at hmem
  | panic => exact hset ⟨(h _).single, (h _).queued, (h _).answered, (h _).due⟩
  | handle _ htodo _ hh => exact hset ((h _).handle htodo hh)
  | pair _ hown hp => exact hset ((h _).pair hown (Pair.step_cases hp).2)

/-- **References are collected from the dag as it is**: when `generateBlock` takes its
references, they are what `handleRefReq` answers for the round it continues. -/
theorem Reaches.asking {S : Setup} {moves : List Move} {w : World} (h : Reaches S moves w)
    (i : Int) : Asking (w.nodes i) :=
  Machine.invariant (P := fun w => ∀ i, Asking (w.nodes i))
    (fun _ _ _ hi hs => asking_step hi (step_cases hs)) (fun i => asking_init S.committee i) h i

end World

end Loom
