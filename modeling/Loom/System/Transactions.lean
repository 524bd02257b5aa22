import Loom.System.Integrity
import Loom.Pool.Queue

/-!
# From the pools to the execution

Each node takes the batches of its blocks from its own pool: `generateBlock` calls `GetBatch`
once for every block that it builds. A cluster is the system together with the pools, so a
transaction can be followed from the pool that accepts it to the nodes that execute it.
-/

namespace Loom

/-- A committee with the pool parameters of its nodes. -/
structure Deployment where
  setup : Setup
  parameters : Int → Parameters

/-- Batches are not empty and fit into the queues. -/
def Deployment.BatchesFit (D : Deployment) : Prop :=
  ∀ i, 1 ≤ (D.parameters i).batchSize ∧ (D.parameters i).batchSize ≤ (D.parameters i).maxQueueSize

/-- The system, the pools of its nodes, and what every pool has done. -/
structure Cluster where
  world : World
  pools : Int → Pool
  log : Int → List PoolEvent

/-- The pool of a node numbers its batches by the node and the committee size. -/
def Cluster.init (D : Deployment) : Cluster where
  world := World.init D.setup
  pools i := newPool (D.parameters i) D.setup.committee.size i
  log _ := []

/-- A move of a cluster. -/
inductive ClusterMove where
  | deliver (k : Nat)
  | core (node : Int)
  | pair (node : Int) (act : Act)
  /-- The pool of a node takes a transaction from its channel. -/
  | tx (node : Int) (tx : Bytes)
  /-- The pool of a node sends a batch into its channel. -/
  | send (node : Int)
  deriving DecidableEq, Repr

namespace Cluster

/-- The move of the system; a block that is built carries the batch that the pool returns. -/
def move (c : Cluster) : ClusterMove → Option Move
  | .deliver k => some (.deliver k)
  | .core i => some (.core i (c.pools i).get)
  | .pair i act => some (.pair i act)
  | .tx _ _ | .send _ => none

/-- Whether the core of a node builds a block next. -/
def builds (x : Node) : Bool :=
  match x.core.todo with
  | .awaitRef _ _ _ :: _ => true
  | _ => false

/-- The pool that takes part in a move, and what it does. -/
def poolAct (c : Cluster) : ClusterMove → Option (Int × PoolAct)
  | .core i => if builds (c.world.nodes i) then some (i, .get) else none
  | .tx i tx => some (i, .tx tx)
  | .send i => some (i, .send)
  | .deliver _ | .pair _ _ => none

/-- A step of one pool. -/
def poolStep (c : Cluster) (i : Int) (act : PoolAct) : Option Cluster := do
  let p ← (c.pools i).step act
  some { c with
    pools := Function.update c.pools i p
    log := Function.update c.log i (c.log i ++ (c.pools i).events act p) }

/-- The system after a move. -/
def nextWorld (D : Deployment) (c : Cluster) (mv : ClusterMove) : Option World :=
  match c.move mv with
  | some m => c.world.step D.setup m
  | none => some c.world

/-- The pools after a move. -/
def nextPools (c : Cluster) (mv : ClusterMove) : Option Cluster :=
  match c.poolAct mv with
  | some (i, act) => c.poolStep i act
  | none => some c

/-- One move; `none` if it is blocked or impossible. -/
def step (D : Deployment) (c : Cluster) (mv : ClusterMove) : Option Cluster := do
  let w ← c.nextWorld D mv
  let c' ← c.nextPools mv
  some { c' with world := w }

/-- A state of a cluster after some run. -/
def Reaches (D : Deployment) (moves : List ClusterMove) (c : Cluster) : Prop :=
  Machine.run (step D) (init D) moves = some c

/-- The parents are kept by the moves of the system. -/
def keepsParent (c : Cluster) (mv : ClusterMove) : Bool := (c.move mv).all c.world.keepsParent

/-- What one move does to the system and to the pools. -/
theorem step_cases {D : Deployment} {c c' : Cluster} {mv : ClusterMove}
    (h : c.step D mv = some c') :
    ((c.move mv = none ∧ c'.world = c.world) ∨
      ∃ m, c.move mv = some m ∧ c.world.step D.setup m = some c'.world) ∧
    ((c.poolAct mv = none ∧ c'.pools = c.pools ∧ c'.log = c.log) ∨
      ∃ i act p, c.poolAct mv = some (i, act) ∧ (c.pools i).step act = some p ∧
        c'.pools = Function.update c.pools i p ∧
        c'.log = Function.update c.log i (c.log i ++ (c.pools i).events act p)) := by
  obtain ⟨w, hw, h⟩ := Option.bind_eq_some_iff.mp h
  obtain ⟨c₁, hc₁, h⟩ := Option.bind_eq_some_iff.mp h
  cases h
  unfold nextWorld at hw
  unfold nextPools at hc₁
  constructor
  · split at hw
    · exact Or.inr ⟨_, ‹_›, hw⟩
    · cases hw
      exact Or.inl ⟨‹_›, rfl⟩
  · split at hc₁
    · obtain ⟨p, hstep, hc₁⟩ := Option.bind_eq_some_iff.mp hc₁
      cases hc₁
      exact Or.inr ⟨_, _, p, ‹_›, hstep, rfl, rfl⟩
    · cases hc₁
      exact Or.inl ⟨‹_›, rfl, rfl⟩

/-- The system inside a cluster runs as it does alone. -/
theorem Reaches.world {D : Deployment} {moves : List ClusterMove} {c : Cluster}
    (h : Reaches D moves c) (ok : World → Move → Prop)
    (hok : Machine.Along (step D) (fun c mv => ∀ m ∈ c.move mv, ok c.world m) (init D) moves) :
    ∃ ms, World.Reaches D.setup ms c.world ∧
      Machine.Along (World.step D.setup) ok (World.init D.setup) ms := by
  refine Machine.invariant_along (P := fun c => ∃ ms, World.Reaches D.setup ms c.world ∧
    Machine.Along (World.step D.setup) ok (World.init D.setup) ms) ?_ ?_ hok h
  case refine_2 => exact ⟨[], rfl, trivial⟩
  rintro c mv c' ⟨ms, hms, hall⟩ hmv hs
  rcases (step_cases hs).1 with ⟨_, heq⟩ | ⟨m, hm, hstep⟩
  · rw [heq]
    exact ⟨ms, hms, hall⟩
  · refine ⟨ms ++ [m], Machine.run_concat.mpr ⟨_, hms, hstep⟩, ?_⟩
    refine Machine.along_append.mpr ⟨hall, fun w hw => ?_⟩
    rw [Option.mem_def, hms] at hw
    cases hw
    exact ⟨hmv m hm, fun _ _ => trivial⟩

private theorem builds_eq_false {x : Node} {act : CoreAct} {rest : List CoreAct}
    (htodo : x.core.todo = act :: rest) (hact : ∀ h r f, act ≠ .awaitRef h r f) :
    builds x = false := by
  unfold builds
  split
  · rename_i heq
    rw [htodo, List.cons.injEq] at heq
    exact absurd heq.1 (hact _ _ _)
  · rfl

end Cluster

namespace World

/-- A move adds to the chain of a node the block that the node builds, and nothing else. -/
theorem Step.chain_cases {S : Setup} {w w' : World} {mv : Move} (ht : Traffic S w)
    (hs : w.Step S mv w') (i : Int) :
    (∃ b, mv = .core i b.batch ∧ Cluster.builds (w.nodes i) = true ∧
      chain i w'.trace = chain i w.trace ++ [b]) ∨
    ((∀ batch, mv = .core i batch → Cluster.builds (w.nodes i) = false) ∧
      chain i w'.trace = chain i w.trace) := by
  have hkeep : ∀ {evs : List Event}, (∀ b, .proposed b ∉ evs) →
      chain i (w.trace ++ evs) = chain i w.trace :=
    fun hno => chain_append_of_none fun b hb => absurd hb (hno b)
  cases hs with
  | deliver => exact Or.inr ⟨by simp, rfl⟩
  | @send k batch dst msg rest hk htodo =>
    refine Or.inr ⟨fun batch' heq => ?_, hkeep fun b hb => ?_⟩
    · cases heq
      exact Cluster.builds_eq_false htodo (by simp)
    · cases msg <;> simp [sendEvents] at hb
  | @loop k batch msg rest hk htodo =>
    refine Or.inr ⟨fun batch' heq => ?_, rfl⟩
    cases heq
    exact Cluster.builds_eq_false htodo (by simp)
  | @dagReq k batch req rest p hk htodo hp =>
    refine Or.inr ⟨fun batch' heq => ?_, hkeep fun b hb => ?_⟩
    · cases heq
      exact Cluster.builds_eq_false htodo (by simp)
    · cases req <;> simp [dagEvents] at hb
  | @build k batch height round oldFirstRefH rest ref p hk htodo hpc hp =>
    have hauthor : ((w.nodes k).core.buildBlock S.crypto height round oldFirstRefH ref
        batch).header.slot.author = k := (ht.node k).nodeID
    by_cases hik : i = k
    · subst hik
      refine Or.inl ⟨(w.nodes i).core.buildBlock S.crypto height round oldFirstRefH ref batch, rfl,
        by rw [Cluster.builds, htodo], ?_⟩
      rw [chain_append]
      congr 1
      unfold buildEvents
      split <;> simp [chain, hauthor]
    · refine Or.inr ⟨fun batch' heq => ?_, chain_append_of_none fun b hb => ?_⟩
      · cases heq
        exact absurd rfl hik
      · simp only [buildEvents, List.mem_append, List.mem_singleton, Event.proposed.injEq] at hb
        rcases hb with hb | rfl
        · split at hb <;> simp at hb
        · rw [hauthor]
          exact Ne.symm hik
  | @panic k batch msg recvCh hk htodo =>
    refine Or.inr ⟨fun batch' heq => ?_, rfl⟩
    cases heq
    rw [Cluster.builds, htodo]
  | @handle k batch msg recvCh core hk htodo hrecv hh =>
    refine Or.inr ⟨fun batch' heq => ?_, hkeep fun b hb => ?_⟩
    · cases heq
      rw [Cluster.builds, htodo]
    · cases msg <;> simp [recvEvents] at hb
  | @pair k act p hk hown hp =>
    refine Or.inr ⟨by simp, hkeep fun b hb => ?_⟩
    unfold pairEvents at hb
    split at hb
    · split at hb <;> simp at hb
    · cases hb

end World

namespace Cluster

open PoolEvent

/-- The blocks of a list that carry transactions. -/
def loaded (bs : List Block) : List Block := bs.filter fun b => decide (b.batch.txs ≠ [])

/-- Every pool runs as it does alone, and the batches that it handed out are those of its
node's blocks. -/
structure Fed (D : Deployment) (c : Cluster) : Prop where
  pool : ∀ i, ∃ acts, Pool.Reaches (D.parameters i) D.setup.committee.size i acts (c.pools i) ∧
    Pool.trace (D.parameters i) D.setup.committee.size i acts = c.log i
  fed : ∀ i, handed (c.log i) = (loaded (World.chain i c.world.trace)).map (·.batch)

private theorem fed_init (D : Deployment) : Fed D (init D) where
  pool _ := ⟨[], rfl, rfl⟩
  fed _ := rfl

/-- Of the steps of a pool only `GetBatch` hands something out. -/
theorem handed_events (s t : Pool) (act : PoolAct) : handed (s.events act t) =
    if act = .get then (if s.get.txs = [] then [] else [s.get]) else [] := by
  cases act with
  | tx tx =>
    simp only [Pool.events, reduceCtorEq, if_false]
    split
    · rfl
    · cases t.sending <;> rfl
  | send => rfl
  | get =>
    simp only [Pool.events, handed, if_true]
    split <;> simp_all

private theorem loaded_concat (bs : List Block) (b : Block) : (loaded (bs ++ [b])).map (·.batch) =
    (loaded bs).map (·.batch) ++ if b.batch.txs = [] then [] else [b.batch] := by
  rw [loaded, List.filter_append, List.map_append]
  by_cases hb : b.batch.txs = [] <;> simp [hb, loaded]

/-- A move changes the log of a node by what its pool does in it. -/
theorem log_step {D : Deployment} {c c' : Cluster} {mv : ClusterMove} (hs : c.step D mv = some c')
    (i : Int) :
    (c'.pools i = c.pools i ∧ c'.log i = c.log i ∧ ∀ act, c.poolAct mv ≠ some (i, act)) ∨
      ∃ act, c.poolAct mv = some (i, act) ∧ (c.pools i).step act = some (c'.pools i) ∧
        c'.log i = c.log i ++ (c.pools i).events act (c'.pools i) := by
  rcases (step_cases hs).2 with ⟨hnone, hpools, hlog⟩ | ⟨k, act, p, hact, hstep, hpools, hlog⟩
  · rw [hpools, hlog, hnone]
    exact Or.inl ⟨rfl, rfl, by simp⟩
  · rw [hpools, hlog]
    by_cases hik : i = k
    · subst hik
      rw [Function.update_self, Function.update_self]
      exact Or.inr ⟨act, hact, hstep, rfl⟩
    · rw [Function.update_of_ne hik, Function.update_of_ne hik, hact]
      refine Or.inl ⟨rfl, rfl, fun act' heq => ?_⟩
      cases heq
      exact hik rfl

/-- The chain of a node grows by a block with the batch that its pool hands out. -/
theorem chain_step {D : Deployment} {c c' : Cluster} {mv : ClusterMove}
    (ht : World.Traffic D.setup c.world) (hs : c.step D mv = some c') (i : Int) :
    (∃ b, c.poolAct mv = some (i, .get) ∧ b.batch = (c.pools i).get ∧
      World.chain i c'.world.trace = World.chain i c.world.trace ++ [b]) ∨
    (c.poolAct mv ≠ some (i, .get) ∧
      World.chain i c'.world.trace = World.chain i c.world.trace) := by
  have hget : c.poolAct mv = some (i, .get) → mv = .core i ∧ builds (c.world.nodes i) = true := by
    intro hact
    cases mv with
    | core k =>
      simp only [poolAct, Option.ite_none_right_eq_some, Option.some.injEq, Prod.mk.injEq,
        and_true] at hact
      obtain ⟨hb, rfl⟩ := hact
      exact ⟨rfl, hb⟩
    | deliver | pair | tx | send => simp [poolAct] at hact
  rcases (step_cases hs).1 with ⟨hnone, heq⟩ | ⟨m, hm, hstep⟩
  · refine Or.inr ⟨fun hact => ?_, by rw [heq]⟩
    rw [(hget hact).1] at hnone
    cases hnone
  · rcases (World.step_cases hstep).chain_cases ht i with ⟨b, rfl, hb, hchain⟩ | ⟨hno, hchain⟩
    · cases mv with
      | core k =>
        simp only [move, Option.some.injEq, Move.core.injEq] at hm
        obtain ⟨rfl, hbatch⟩ := hm
        exact Or.inl ⟨b, by rw [poolAct, if_pos hb], hbatch.symm, hchain⟩
      | deliver | pair | tx | send => simp [move] at hm
    · refine Or.inr ⟨fun hact => ?_, hchain⟩
      obtain ⟨rfl, hb⟩ := hget hact
      cases hm
      rw [hno _ rfl] at hb
      cases hb

/-- Every move keeps blocks fed by the pool of their author. -/
theorem Fed.step {D : Deployment} {c c' : Cluster} {mv : ClusterMove}
    (ht : World.Traffic D.setup c.world) (h : Fed D c) (hs : c.step D mv = some c') :
    Fed D c' := by
  refine ⟨fun i => ?_, fun i => ?_⟩
  · obtain ⟨acts, hreach, htrace⟩ := h.pool i
    rcases log_step hs i with ⟨hpool, hlog, _⟩ | ⟨act, _, hstep, hlog⟩
    · rw [hpool, hlog]
      exact ⟨acts, hreach, htrace⟩
    · refine ⟨acts ++ [act], Machine.run_concat.mpr ⟨_, hreach, hstep⟩, ?_⟩
      rw [hlog, ← htrace]
      exact Machine.outputs_concat hreach hstep
  · have hlog : handed (c'.log i) = handed (c.log i) ++
        if c.poolAct mv = some (i, .get) then
          (if (c.pools i).get.txs = [] then [] else [(c.pools i).get]) else [] := by
      rcases log_step hs i with ⟨_, hlog, hno⟩ | ⟨act, hact, _, hlog⟩
      · rw [hlog, if_neg (hno _), List.append_nil]
      · rw [hlog, handed_append, handed_events, hact]
        simp
    rcases chain_step ht hs i with ⟨b, hact, hbatch, hchain⟩ | ⟨hact, hchain⟩
    · rw [hlog, if_pos hact, hchain, loaded_concat, h.fed, hbatch]
    · rw [hlog, if_neg hact, hchain, List.append_nil, h.fed]

private theorem Reaches.fed {D : Deployment} {moves : List ClusterMove} {c : Cluster}
    (h : Reaches D moves c) : Fed D c := by
  refine Machine.invariant_reached (P := Fed D) (fed_init D) ?_
    (Machine.along_of_forall fun _ _ _ => trivial) h
  intro moves c mv c' hu hfed _ hs
  obtain ⟨ms, hms, _⟩ := Reaches.world hu (fun _ _ => True)
    (Machine.along_of_forall fun _ _ _ _ _ => trivial)
  exact hfed.step hms.traffic hs

/-! ## Batches -/

section Batches

variable {D : Deployment} {moves : List ClusterMove} {c : Cluster}

/-- The invariant of every pool, in terms of the log. -/
theorem Fed.inv (h : Fed D c) (hp : D.BatchesFit) (i : Int) :
    Pool.Inv (D.parameters i) D.setup.committee.size i (accepts (c.log i)) (batches (c.log i))
      (handed (c.log i)) (c.pools i) := by
  obtain ⟨acts, hreach, htrace⟩ := h.pool i
  rw [← htrace]
  exact hreach.inv (hp i).1 (hp i).2

private theorem Fed.handed_prefix (h : Fed D c) (hp : D.BatchesFit) (i : Int) :
    handed (c.log i) <+: batches (c.log i) := by
  rw [(h.inv hp i).queued, List.append_assoc]
  exact List.prefix_append _ _

/-- The blocks of a node with transactions carry its batches in the order of their numbers. -/
theorem Fed.batch_at (h : Fed D c) (hp : D.BatchesFit) {i : Int} {k : Nat} {b : Block}
    (hb : (loaded (World.chain i c.world.trace))[k]? = some b) :
    (batches (c.log i))[k]? = some b.batch ∧
      b.batch.id = i + D.setup.committee.size * k := by
  obtain ⟨rest, hrest⟩ := h.handed_prefix hp i
  have hmade : (batches (c.log i))[k]? = some b.batch := by
    have hk : (handed (c.log i))[k]? = some b.batch := by
      rw [h.fed, List.getElem?_map, hb]
      rfl
    rw [← hrest, List.getElem?_append_left (List.getElem?_eq_some_iff.mp hk).1, hk]
  exact ⟨hmade, (h.inv hp i).number k _ hmade⟩

/-- The place of a proposed block with transactions among those of its author. -/
theorem exists_loaded {b : Block} (hb : .proposed b ∈ c.world.trace) (htxs : b.batch.txs ≠ []) :
    ∃ k : Nat, (loaded (World.chain b.header.slot.author c.world.trace))[k]? = some b := by
  refine List.mem_iff_getElem?.mp (List.mem_filter.mpr ⟨World.mem_chain.mpr ⟨hb, rfl⟩, ?_⟩)
  simpa using htxs

/-- The transactions of one author's blocks passed to `exec`, in order. -/
def executedTxs (s : Pair) (a : Int) : List Bytes :=
  (s.executed.filter fun b => decide (b.header.slot.author = a)).flatMap (·.batch.txs)

/-- **Batches are executed at most once.** In every run of a cluster whose batches fit, the batch
of a block with transactions that a node executes was made by the pool of the block's author and
is complete, and no two such blocks carry batches with the same number. -/
theorem executed_batches (hp : D.BatchesFit) (h : Reaches D moves c) (i : Int) :
    (∀ b ∈ loaded (c.world.nodes i).pair.executed,
      b.batch ∈ batches (c.log b.header.slot.author) ∧
      b.batch.txs.length = (D.parameters b.header.slot.author).batchSize) ∧
    ((loaded (c.world.nodes i).pair.executed).map (·.batch.id)).Nodup := by
  have hfed := h.fed
  obtain ⟨ms, hms, _⟩ := h.world (fun _ _ => True)
    (Machine.along_of_forall fun _ _ _ _ _ => trivial)
  have hproposed : ∀ b ∈ loaded (c.world.nodes i).pair.executed,
      .proposed b ∈ c.world.trace ∧ b.batch.txs ≠ [] := by
    intro b hb
    obtain ⟨hmem, htxs⟩ := List.mem_filter.mp hb
    exact ⟨(hms.throughout i).ordered b (List.mem_append_left _ hmem), by simpa using htxs⟩
  constructor
  · intro b hb
    obtain ⟨hmem, htxs⟩ := hproposed b hb
    obtain ⟨k, hk⟩ := exists_loaded hmem htxs
    have hmade := List.mem_of_getElem? (hfed.batch_at hp hk).1
    exact ⟨hmade, (hfed.inv hp _).size _ hmade⟩
  · have hslots := (hms.traffic.node i).inv.once.nodup
    rw [List.map_append, List.nodup_append] at hslots
    refine List.Nodup.map_on ?_ (hslots.1.of_map.filter _)
    intro b hb b' hb' heq
    obtain ⟨hmem, htxs⟩ := hproposed b hb
    obtain ⟨hmem', htxs'⟩ := hproposed b' hb'
    obtain ⟨k, hk⟩ := exists_loaded hmem htxs
    obtain ⟨k', hk'⟩ := exists_loaded hmem' htxs'
    rw [(hfed.batch_at hp hk).2, (hfed.batch_at hp hk').2] at heq
    have hids : ∀ {b}, .proposed b ∈ c.world.trace → 0 ≤ b.header.slot.author ∧
        b.header.slot.author < (D.setup.committee.size : Int) :=
      fun hb => (Committee.mem_ids _ _).mp (hms.traffic.authors _ hb)
    obtain ⟨hauthor, hkk⟩ := Pool.number_unique (hids hmem) (hids hmem') heq
    rw [hauthor, hkk, hk'] at hk
    exact (Option.some.inj hk).symm

/-- Batches of two transactions. -/
def oneClient : Deployment := ⟨World.fourNodes, fun _ => ⟨2, 3⟩⟩

private theorem oneClient_batchesFit : oneClient.BatchesFit := by
  intro i
  change 1 ≤ 2 ∧ 2 ≤ 3
  decide

/-- The pool of member `2` accepts a batch and a half, and then all links are served in turn. -/
def clientRun : List ClusterMove :=
  [.tx 2 [7], .tx 2 [8], .send 2, .tx 2 [9]] ++
    (World.follow World.fourNodes World.inLockstep).1.map fun
      | .deliver k => .deliver k
      | .core i _ => .core i
      | .pair i act => .pair i act

private theorem clientRun_outcome : Machine.Along (step oneClient)
      (fun c mv => keepsParent c mv = true) (init oneClient) clientRun ∧
    ∃ c ∈ Machine.run (step oneClient) (init oneClient) clientRun,
      (∃ b ∈ loaded (c.world.nodes 0).pair.executed, b.batch = ⟨2, [[7], [8]]⟩) ∧
      executedTxs (c.world.nodes 0).pair 2 = [[7], [8]] ∧
      accepts (c.log 2) = [[7], [8], [9]] := by decide +kernel

/-- A batch of two transactions is executed. -/
theorem executed_batches_clientRun : ∃ c, Reaches oneClient clientRun c ∧
    (∃ b ∈ loaded (c.world.nodes 0).pair.executed, b.batch = ⟨2, [[7], [8]]⟩ ∧
      b.batch ∈ batches (c.log b.header.slot.author)) ∧
    ((loaded (c.world.nodes 0).pair.executed).map (·.batch.id)).Nodup := by
  obtain ⟨_, c, hc, ⟨b, hb, hbatch⟩, _⟩ := clientRun_outcome
  obtain ⟨hmade, hnodup⟩ := executed_batches oneClient_batchesFit hc 0
  exact ⟨c, hc, ⟨b, hb, hbatch, (hmade b hb).1⟩, hnodup⟩

/-! ## Transactions -/

private theorem flatMap_loaded (bs : List Block) :
    ((loaded bs).map (·.batch)).flatMap (·.txs) = bs.flatMap (·.batch.txs) := by
  induction bs with
  | nil => rfl
  | cons b bs ih =>
    rw [loaded, List.filter_cons, List.flatMap_cons, ← ih]
    by_cases hb : b.batch.txs = [] <;> simp [hb, loaded]

/-- The transactions of a node's blocks were accepted by its pool, in the same order. -/
theorem Fed.chain_prefix (h : Fed D c) (hp : D.BatchesFit) (a : Int) :
    (World.chain a c.world.trace).flatMap (·.batch.txs) <+: accepts (c.log a) := by
  rw [← flatMap_loaded, ← h.fed]
  refine ((h.handed_prefix hp a).flatMap _).trans ?_
  rw [(h.inv hp a).fifo]
  exact List.prefix_append _ _

/-- **Transactions are executed in the order in which they were accepted**, in every run of a
cluster of `3f+1` nodes whose batches fit that keeps parents: what a node has executed of an
author's transactions is an initial part of those that the author's pool accepted, so of any two
nodes one has executed an initial part of what the other has. -/
theorem executed_transactions {f : Nat} (hn : D.setup.committee.size = 3 * f + 1)
    (hp : D.BatchesFit) (h : Reaches D moves c)
    (hok : Machine.Along (step D) (fun c mv => keepsParent c mv = true) (init D) moves) {a : Int}
    (ha : a ∈ D.setup.committee.ids) :
    (∀ i, executedTxs (c.world.nodes i).pair a <+: accepts (c.log a)) ∧
    ∀ i j, executedTxs (c.world.nodes i).pair a <+: executedTxs (c.world.nodes j).pair a ∨
      executedTxs (c.world.nodes j).pair a <+: executedTxs (c.world.nodes i).pair a := by
  obtain ⟨ms, hms, hkeep⟩ := h.world (fun w m => w.keepsParent m = true)
    (hok.mono fun c mv hmv m hm => by
      rw [keepsParent, Option.all_eq_true] at hmv
      exact hmv m hm)
  have hall : ∀ i, executedTxs (c.world.nodes i).pair a <+: accepts (c.log a) := by
    intro i
    refine List.IsPrefix.trans ?_ (h.fed.chain_prefix hp a)
    exact (hms.executed_prefix hn hkeep i ha).flatMap _
  exact ⟨hall, fun i j => List.prefix_or_prefix_of_prefix (hall i) (hall j)⟩

/-- Two of three accepted transactions are executed. -/
theorem executed_transactions_clientRun : ∃ c, Reaches oneClient clientRun c ∧
    executedTxs (c.world.nodes 0).pair 2 = [[7], [8]] ∧ accepts (c.log 2) = [[7], [8], [9]] ∧
    executedTxs (c.world.nodes 0).pair 2 <+: accepts (c.log 2) := by
  obtain ⟨hok, c, hc, _, htxs, hacc⟩ := clientRun_outcome
  exact ⟨c, hc, htxs, hacc, (executed_transactions (f := 1) rfl oneClient_batchesFit hc hok
    (a := 2) (by decide)).1 0⟩

end Batches

end Cluster

end Loom
