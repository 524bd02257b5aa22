import Loom.Pair.History
import Loom.Pair.Pulls
import Loom.Pair.Waits

/-!
# What a pair does on its own

Without further requests of the core, the dag and the commitor can only work off what they
have: every request, submission and pull is paid for in advance, so their own steps come to
an end in every interleaving. Where they end is one of five states of the pair, and in the
runs without repeated pushes and crowded reveals it is one of three.
-/

namespace Loom

/-- Whether a step is taken by the pair itself and not by its core. -/
def Act.isOwn : Act → Bool
  | .send _ => false
  | _ => true

/-! ## The cost of the work at hand -/

/-- What a list weighs after entries have been dropped from it. -/
theorem sum_filter_add_le {α : Type} {p q : α → Bool} (w : α → Nat) {l : List α} {x : α}
    (hx : x ∈ l) (hp : p x = true) (hq : q x = false) (hqp : ∀ y, q y = true → p y = true) :
    ((l.filter q).map w).sum + w x ≤ ((l.filter p).map w).sum := by
  have hperm := ((List.filter_append_perm q (l.filter p)).map w).sum_eq
  have hqq : (l.filter p).filter q = l.filter q := by
    rw [List.filter_filter]
    refine List.filter_congr fun y _ => ?_
    by_cases hy : q y = true
    · simp [hy, hqp y hy]
    · simp [hy]
  have hmem : x ∈ (l.filter p).filter fun y => !q y := by
    simp [hx, hp, hq]
  have hone := List.single_le_sum (by simp) _ (List.mem_map_of_mem (f := w) hmem)
  rw [List.map_append, List.sum_append, hqq] at hperm
  omega

/-- The entries of a work queue that a block accounts for: its own and those it appends. -/
def Block.weight (b : Block) : Nat := 1 + b.refSlots.length

/-- The queue entries that the blocks still to be gathered can cause. -/
def unvisited (U : List Block) (pulled : GoMap Slot Block) : Nat :=
  ((U.filter fun b => decide (b.header.slot ∉ pulled.keys)).map Block.weight).sum

/-- The turns of the pull loop that are still possible. -/
def CommitState.turns (U : List Block) (c : CommitState) : Nat :=
  c.q.length + unvisited U c.pulled

/-- What is left of a pull loop and its commit: five steps for every turn, and one for every
block that is executed. -/
def CommitState.cost (U : List Block) (c : CommitState) : Nat := 5 * c.turns U + (U.length + 4)

/-- The cost of a whole commit. -/
def commitCost (U : List Block) : Nat := 5 * (1 + (U.map Block.weight).sum) + (U.length + 5)

def OpMsg.cost (U : List Block) : OpMsg → Nat
  | .core (.commitReq _) => commitCost U + 2
  | .core _ => 2
  | .blockPullReq _ _ => 2
  | .gcReq _ _ => 1

def DagPc.cost (U : List Block) : DagPc → Nat
  | .idle => 0
  | .reply _ _ | .refResp _ => 1
  | .submit _ => commitCost U + 1

def Commitor.cost (U : List Block) : Commitor → Nat
  | .idle => 0
  | .pulling c => c.cost U
  | .received c _ _ => c.cost U + 1
  | .waiting c _ _ => c.cost U + 2
  | .executing _ todo _ => todo.length + 2

/-- A turn of the pull loop is paid for by the slot it visits. -/
theorem turns_receive {U : List Block} {c : CommitState} {head : Slot} {b : Block}
    (un : GoMap Int Int) (hb : b ∈ U) (hslot : b.header.slot = head)
    (hnew : head ∉ c.pulled.keys) : (c.receive un head (some b)).turns U < c.turns U := by
  have hless : unvisited U (c.pulled.insert head b) + b.weight ≤ unvisited U c.pulled := by
    apply sum_filter_add_le Block.weight hb
    · simpa [hslot] using hnew
    · simp [hslot]
    · intro x hx
      simp only [decide_eq_true_eq, GoMap.mem_keys_insert, not_or] at hx ⊢
      exact hx.2
  simp only [CommitState.turns, CommitState.receive, List.length_append, Block.weight] at hless ⊢
  omega

namespace Pair

/-- The steps that the pair can still take, at most, if no further requests arrive. -/
def cost (U : List Block) (s : Pair) : Nat :=
  (if s.crashed then 0 else 1) + (s.opCh.map (OpMsg.cost U)).sum + s.dagPc.cost U +
    s.submitCh.length * commitCost U + s.com.cost U

/-- Only these blocks are in the pair, and the slot asked for has not been gathered. -/
structure Within (U : List Block) (s : Pair) : Prop where
  blocks : s.Throughout (· ∈ U)
  unseen : ∀ c head, s.com.asked = some (c, head) → head ∉ c.pulled.keys

/-- At the start there is no block. -/
theorem within_init (U : List Block) (i : Int) (c : Committee) : (init i c).Within U where
  blocks := throughout_init _ i c
  unseen := by simp [init, Commitor.asked]

/-- More blocks are allowed. -/
theorem Within.mono {U V : List Block} {s : Pair} (h : s.Within U) (hUV : ∀ b ∈ U, b ∈ V) :
    s.Within V :=
  ⟨h.blocks.mono hUV, h.unseen⟩

/-- Every step stays within the blocks that are pushed. -/
theorem Within.step {U : List Block} {s t : Pair} {a : Act} (hb : s.Bounds) (h : s.Within U)
    (ha : ∀ b, a = .send (.propose b) → b ∈ U) (hs : s.Step a t) : t.Within U := by
  refine ⟨throughout_step hb h.blocks ha hs, ?_⟩
  cases hs with
  | send | crash | dag | submit | refResp => exact h.unseen
  | reply _ hcom =>
    intro c head he
    exact h.unseen c head (by rw [hcom]; exact he)
  | pull hcom _ hnew =>
    intro c head he
    cases he
    exact hnew
  | take | skip | process | nothing | finish | exec | gc => simp [Commitor.asked]

/-- Handling a request costs less than the request. -/
theorem cost_handle {U : List Block} {d d' : Dag} {order : List Int} {m : OpMsg} {pc : DagPc}
    (hm : d.handle order m = some (d', pc)) : pc.cost U < m.cost U := by
  cases m with
  | core req =>
    cases req with
    | propose block =>
      rcases Dag.handleBlockPushReq_cases hm with
        ⟨_, _, rfl⟩ | ⟨_, _, _, _, ⟨_, rfl⟩ | ⟨_, _, rfl⟩⟩ <;> simp [DagPc.cost, OpMsg.cost]
    | refReq round =>
      obtain ⟨_, _, rfl⟩ := Dag.handleRefReq_dag hm
      simp [DagPc.cost, OpMsg.cost]
    | commitReq req =>
      obtain ⟨_, _, ⟨_, _, rfl⟩ | ⟨_, _, _, ⟨_, _, rfl⟩ | ⟨_, _, _, rfl⟩⟩⟩ :=
        Dag.handleCommitReq_cases hm <;> simp [DagPc.cost, OpMsg.cost]
  | blockPullReq sl ch =>
    rcases Dag.handleBlockPullReq_cases hm with
      ⟨_, _, rfl⟩ | ⟨_, _, _, ⟨_, _, _, rfl⟩ | ⟨_, _, rfl⟩⟩ <;> simp [DagPc.cost, OpMsg.cost]
  | gcReq wm r =>
    obtain ⟨rfl, _⟩ := Dag.handleCleanReq_cases hm
    simp [DagPc.cost, OpMsg.cost]

/-- A commit executes no more blocks than there are. -/
theorem Within.length_execOrder {U : List Block} {s : Pair} (h : s.Within U) (hb : s.Bounds)
    {c : CommitState} (hcom : s.com = .pulling c) (rounds : List Int) :
    (c.execOrder rounds).length ≤ U.length := by
  have hkeyed : Keyed c.pulled := fun sl b hl => (hb.pulled sl b (by rw [hcom]; exact hl)).1
  have hnodup : (c.execOrder rounds).Nodup := (nodup_commitRounds hkeyed).of_map
  exact (List.subperm_of_subset hnodup (h.blocks.finish hb hcom rounds)).length_le

/-- Every step of the pair itself lowers the cost. -/
theorem Within.cost_lt {U : List Block} {s t : Pair} {a : Act} (h : s.Within U) (hb : s.Bounds)
    (hrunning : s.crashed = false) (ha : a.isOwn = true) (hs : s.Step a t) :
    t.cost U < s.cost U := by
  cases hs with
  | send => cases ha
  | crash => simp only [cost, hrunning, if_true, Bool.false_eq_true, if_false]; omega
  | dag hpc hop _ hm =>
    have hlt := cost_handle (U := U) hm
    have hidle : s.dagPc.cost U = 0 := by rw [hpc]; rfl
    simp only [cost, hidle, hop, List.map_cons, List.sum_cons]
    omega
  | submit hpc =>
    simp only [cost, hpc, DagPc.cost, List.length_append, List.length_singleton, Nat.add_mul]
    omega
  | reply hpc hcom =>
    simp only [cost, hpc, hcom, DagPc.cost, Commitor.cost]
    omega
  | refResp hpc =>
    simp only [cost, hpc, DagPc.cost]
    omega
  | take hcom hsub =>
    have hall : unvisited U ∅ = (U.map Block.weight).sum := by simp [unvisited]
    simp only [cost, hcom, hsub, Commitor.cost, CommitState.cost, CommitState.turns,
      CommitState.start, List.length_cons, List.length_nil, hall, commitCost, Nat.add_mul]
    omega
  | skip hcom hq _ =>
    simp only [cost, hcom, Commitor.cost, CommitState.cost, CommitState.turns, hq,
      List.length_cons]
    omega
  | pull hcom hq _ =>
    simp only [cost, hcom, Commitor.cost, CommitState.cost, CommitState.turns, hq,
      List.length_cons, List.map_append, List.sum_append, List.map_singleton,
      List.sum_singleton, OpMsg.cost]
    omega
  | @process c head reply hcom =>
    cases reply with
    | none =>
      simp only [cost, hcom, Commitor.cost, CommitState.receive]
      omega
    | some b =>
      have hlt := turns_receive s.dag.uncommitted (h.blocks.received c head b hcom)
        (hb.received c head b hcom).1 (h.unseen c head (by rw [hcom]; rfl))
      simp only [cost, hcom, Commitor.cost, CommitState.cost]
      omega
  | nothing hcom =>
    simp only [cost, hcom, Commitor.cost, CommitState.cost]
    omega
  | @finish c slots rounds hcom =>
    have hle := h.length_execOrder hb hcom rounds
    simp only [cost, hcom, Commitor.cost, CommitState.cost]
    omega
  | exec hcom =>
    simp only [cost, hcom, Commitor.cost, List.length_cons]
    omega
  | gc hcom =>
    simp only [cost, hcom, Commitor.cost, List.map_append, List.sum_append, List.map_singleton,
      List.sum_singleton, OpMsg.cost]
    omega

/-- So every run does. -/
theorem Reaches.within {i : Int} {c : Committee} {acts : List Act} {s : Pair}
    (h : Reaches i c acts s) : s.Within (pushes acts) := by
  have hall : s.Inv i c ∧ s.Within (pushes acts) := by
    refine Machine.history (P := fun acts s => s.Inv i c ∧ s.Within (pushes acts))
      ⟨inv_init i c, within_init _ i c⟩ ?_ (Machine.along_of_forall fun _ _ _ => trivial) h
    rintro acts u a t ⟨hinv, hu⟩ _ hs
    have hmono : ∀ b ∈ pushes acts, b ∈ pushes (acts ++ [a]) := by
      intro b hb
      rw [pushes, List.filterMap_append]
      exact List.mem_append_left _ hb
    refine ⟨hinv.step hs, (hu.mono hmono).step hinv.bounds ?_ (step_cases hs).2⟩
    rintro b rfl
    exact List.mem_filterMap.mpr ⟨_, List.mem_append_right _ (List.mem_singleton.mpr rfl), rfl⟩
  exact hall.2

/-- The pair can do nothing before its core sends the next request. -/
def AtRest (s : Pair) : Prop := ∀ a : Act, a.isOwn = true → s.step a = none

/-- **The work of a pair ends.** From every state that a pair can reach, its own steps can
be taken in any order and come to an end within a bounded number of steps. -/
theorem settles {i : Int} {c : Committee} {acts : List Act} {s : Pair} (h : Reaches i c acts s) :
    (∃ bound, ∀ own t, (∀ a ∈ own, a.isOwn = true) → Machine.run step s own = some t →
      own.length ≤ bound) ∧
    ∃ own t, (∀ a ∈ own, a.isOwn = true) ∧ Machine.run step s own = some t ∧ t.AtRest := by
  have hstep : ∀ (u : Pair) (a : Act) (t : Pair), u.Inv i c ∧ u.Within (pushes acts) →
      a.isOwn = true → u.step a = some t →
      (t.Inv i c ∧ t.Within (pushes acts)) ∧ t.cost (pushes acts) < u.cost (pushes acts) := by
    rintro u a t ⟨hinv, hu⟩ ha hs
    obtain ⟨hrunning, hst⟩ := step_cases hs
    refine ⟨⟨hinv.step hs, hu.step hinv.bounds ?_ hst⟩, hu.cost_lt hinv.bounds hrunning ha hst⟩
    rintro b rfl
    cases ha
  refine ⟨⟨s.cost (pushes acts), fun own t hown hrun => ?_⟩, ?_⟩
  · have hle := Machine.length_run_le hstep ⟨h.inv, h.within⟩
      (Machine.along_of_forall fun a ha _ => hown a ha) hrun
    omega
  · obtain ⟨own, t, halong, hrun, hrest⟩ := Machine.exists_run_rest hstep ⟨h.inv, h.within⟩
    exact ⟨own, t, Machine.forall_of_along halong hrun, hrun, hrest⟩

/-- After four steps of a run there is more to do, and it can be done. -/
theorem settles_commitRun : ∃ s own t, Reaches 0 fourMembers (commitRun.take 4) s ∧ own ≠ [] ∧
    (∀ a ∈ own, a.isOwn = true) ∧ Machine.run step s own = some t ∧ t.AtRest := by
  obtain ⟨s, hs, hbusy⟩ : ∃ s ∈ Machine.run step (init 0 fourMembers) (commitRun.take 4),
      (s.step (.dag [])).isSome := by decide +kernel
  obtain ⟨own, t, hown, hrun, hrest⟩ := (settles hs).2
  refine ⟨s, own, t, hs, ?_, hown, hrun, hrest⟩
  rintro rfl
  cases hrun
  rw [hrest (.dag []) rfl] at hbusy
  cases hbusy

/-! ## Where a pair comes to rest -/

/-- A commitor that waits has its pull in the queue, is being answered, or asked for a block
that is not there. -/
def Served (s : Pair) : Prop :=
  ∀ c head ch, s.com = .waiting c head ch → .blockPullReq head ch ∈ s.opCh ∨
    (∃ b, s.dagPc = .reply ch b) ∨ (s.Awaiting head ch ∧ s.dag.blockAt head = none)

/-- A dag with a channel in hand is about to reply on it. -/
theorem mem_channels {pc : DagPc} {ch : Nat} (h : ch ∈ pc.channels) : ∃ b, pc = .reply ch b := by
  cases pc with
  | reply ch' b =>
    rw [DagPc.channels_reply, List.mem_singleton] at h
    exact ⟨b, by rw [h]⟩
  | idle | refResp | submit => cases h

/-- A pull that is handled is answered, or its block is missing. -/
theorem served_pull {s t : Pair} (hsh : s.Shape) {order : List Int} {sl : Slot} {ch : Nat}
    (ha : s.Takes (.dag order) (.blockPullReq sl ch)) (hrunning : t.crashed = false)
    (hs : s.Step (.dag order) t) :
    (∃ b, t.dagPc = .reply ch b) ∨ (t.Awaiting sl ch ∧ t.dag.blockAt sl = none) := by
  rcases hsh.takes_pull ha hs with hc | hch | hwait
  · rw [hrunning] at hc
    cases hc
  · exact Or.inl (mem_channels hch)
  · refine Or.inr ⟨hwait, ?_⟩
    obtain ⟨_, _, rest, hop⟩ := ha
    cases hs with
    | crash => cases hrunning
    | dag _ hop' _ hm =>
      rw [hop] at hop'
      cases hop'
      rcases Dag.handleBlockPullReq_cases hm with
        ⟨_, rfl, rfl⟩ | ⟨_, l, hl, ⟨b, _, rfl, rfl⟩ | ⟨hnone, rfl, rfl⟩⟩
      · exact absurd rfl (hwait.unanswered _)
      · exact absurd rfl (hwait.unanswered _)
      · simp only [Dag.blockAt]
        rw [show Dag.line { s.dag with pending := s.dag.pending.insert sl ch } sl.author =
          some l from hl]
        exact hnone

/-- While a pull is registered, its block is missing. -/
theorem Awaiting.absent {s t : Pair} {a : Act} {sl : Slot} {ch : Nat} (hd : s.DagSide)
    (h : s.Awaiting sl ch) (habsent : s.dag.blockAt sl = none) (hs : s.Step a t) :
    (∃ b, t.dagPc = .reply ch b) ∨ (t.Awaiting sl ch ∧ t.dag.blockAt sl = none) := by
  rcases h.step hs with hnext | hch
  · by_cases hpush : ∃ block, s.Takes a (.core (.propose block)) ∧ block.header.slot = sl
    · obtain ⟨block, hpush, hslot⟩ := hpush
      have hch := h.push hd hpush hslot hs
      cases hs with
      | crash hpc => simp [begins, hpc] at hch
      | dag => exact Or.inl (mem_channels hch)
      | _ => cases hch
    · refine Or.inr ⟨hnext, ?_⟩
      cases hs with
      | @dag order m rest d pc hpc hop hord hm =>
        have halone := h.alone
        rw [hop] at halone
        cases m with
        | core req =>
          cases req with
          | propose block =>
            rcases Dag.handleBlockPushReq_cases hm with ⟨_, rfl, _⟩ | ⟨hh, l, hl, rfl, _⟩
            · exact habsent
            · dsimp only
              rw [Dag.blockAt_store hl hh (hd.cache.pending _ _ h.registered), if_neg]
              · exact habsent
              · rintro rfl
                exact hpush ⟨block, ⟨⟨order, rfl⟩, hpc, rest, hop⟩, rfl⟩
          | refReq round =>
            obtain ⟨rfl, _⟩ := Dag.handleRefReq_dag hm
            exact habsent
          | commitReq req =>
            obtain ⟨p, rfl, _⟩ := Dag.handleCommitReq_cases hm
            exact habsent
        | blockPullReq | gcReq => cases halone
      | _ => exact habsent
  · cases hs with
    | crash hpc => simp [begins, hpc] at hch
    | dag => exact Or.inl (mem_channels hch)
    | _ => cases hch

/-- At the start nothing is pulled. -/
theorem served_init (i : Int) (c : Committee) : (init i c).Served := by simp [Served, init]

/-- Every step without a panic keeps the pulls known to the dag. -/
theorem served_step {s t : Pair} {a : Act} (hd : s.DagSide) (hsh : s.Shape) (h : s.Served)
    (hrunning : t.crashed = false) (hs : s.Step a t) : t.Served := by
  have hkeep : ∀ {c head ch}, s.com = .waiting c head ch →
      (.blockPullReq head ch ∈ s.opCh → .blockPullReq head ch ∈ t.opCh) →
      (∀ b, s.dagPc = .reply ch b → t.dagPc = .reply ch b) → .blockPullReq head ch ∈ t.opCh ∨
        (∃ b, t.dagPc = .reply ch b) ∨ (t.Awaiting head ch ∧ t.dag.blockAt head = none) := by
    intro c head ch hcom hmem hpc
    rcases h c head ch hcom with hq | ⟨b, hb⟩ | ⟨haw, habsent⟩
    · exact Or.inl (hmem hq)
    · exact Or.inr (Or.inl ⟨b, hpc b hb⟩)
    · exact Or.inr (haw.absent hd habsent hs)
  intro c head ch hcom
  cases hs with
  | send => exact hkeep hcom (List.mem_append_left _) fun _ => id
  | crash => cases hrunning
  | @dag order m rest d pc hpc hop hord hm =>
    by_cases hm' : m = .blockPullReq head ch
    · subst hm'
      exact Or.inr (served_pull hsh ⟨⟨order, rfl⟩, hpc, rest, hop⟩ hrunning (.dag hpc hop hord hm))
    · refine hkeep hcom (fun hq => ?_) fun b hb => ?_
      · rw [hop] at hq
        exact (List.mem_cons.mp hq).resolve_left (Ne.symm hm')
      · rw [hpc] at hb
        cases hb
  | submit hpc | refResp hpc =>
    refine hkeep hcom id fun b hb => ?_
    rw [hpc] at hb
    cases hb
  | pull =>
    cases hcom
    exact Or.inl (List.mem_append_right _ (List.mem_singleton.mpr rfl))
  | reply | take | skip | process | nothing | finish | exec | gc => cases hcom

/-- So they are known after every run without a panic. -/
theorem Reaches.served {i : Int} {c : Committee} {acts : List Act} {s : Pair}
    (h : Reaches i c acts s) (hrunning : s.crashed = false) : s.Served := by
  have hall : s.Inv i c ∧ (s.crashed = false → s.Served) := by
    refine Machine.invariant (P := fun s => s.Inv i c ∧ (s.crashed = false → s.Served)) ?_
      ⟨inv_init i c, fun _ => served_init i c⟩ h
    rintro u a t ⟨hinv, hu⟩ hs
    obtain ⟨hc, hst⟩ := step_cases hs
    exact ⟨hinv.step hs, fun hrun => served_step hinv.dagSide hinv.shape (hu hc) hrun hst⟩
  exact hall.2 hrunning

/-- The states in which a pair waits for its core. -/
inductive Resting (s : Pair) : Prop
  /-- A handler has panicked. -/
  | crashed : s.crashed = true → Resting s
  /-- Both goroutines are idle, and no request is left. -/
  | done : s.dagPc = .idle → s.opCh = [] → s.com = .idle → s.submitCh = [] → Resting s
  /-- The commitor waits for a block above the watermark that was not pushed. -/
  | missing {c head ch} : s.dagPc = .idle → s.opCh = [] → s.com = .waiting c head ch →
      s.dag.pending.lookup head = some ch → s.dag.mark head.author < head.height →
      s.dag.blockAt head = none → Resting s
  /-- The dag sends a reply that the commitor does not wait for. -/
  | unheard {ch b} : s.dagPc = .reply ch b → (∀ c head, s.com ≠ .waiting c head ch) → Resting s
  /-- Each goroutine waits for the other one to take from its channel. -/
  | circular : s.dagBlocked = true → s.comBlocked = true → Resting s

/-- An idle dag handles what is in its queue. -/
theorem AtRest.opCh_eq_nil {s : Pair} (h : s.AtRest) (hrunning : s.crashed = false)
    (hpc : s.dagPc = .idle) : s.opCh = [] := by
  cases hop : s.opCh with
  | nil => rfl
  | cons m rest =>
    obtain ⟨order, hord⟩ : ∃ order, m.orderOk order = true := by
      cases m with
      | gcReq wm r => exact ⟨wm.keys, List.isPerm_iff.mpr (List.Perm.refl _)⟩
      | core | blockPullReq => exact ⟨[], rfl⟩
    have hstep := h (.dag order) rfl
    simp only [step, hrunning, hpc, hop, hord, Bool.false_eq_true, if_false, if_true] at hstep
    split at hstep <;> cases hstep

/-- A commitor that cannot move has no request, or it waits for the dag. -/
theorem AtRest.commitor {s : Pair} (h : s.AtRest) (hrunning : s.crashed = false) :
    (s.com = .idle ∧ s.submitCh = []) ∨ s.comBlocked = true := by
  cases hcom : s.com with
  | idle =>
    cases hsub : s.submitCh with
    | nil => exact Or.inl ⟨rfl, rfl⟩
    | cons req rest =>
      have hstep := h .take rfl
      simp [step, hrunning, hcom, hsub] at hstep
  | waiting c head ch => exact Or.inr (by simp [comBlocked, hcom])
  | received c head b =>
    have hstep := h .process rfl
    simp [step, hrunning, hcom] at hstep
  | pulling c =>
    cases hq : c.q with
    | nil =>
      have hstep := h (.finish c.pulled.keys c.anchors.keys) rfl
      by_cases hkeys : c.pulled.keys = [] <;>
        simp [step, hrunning, hcom, hq, hkeys, List.isPerm_iff] at hstep
    | cons head q =>
      have hstep := h .pull rfl
      simp only [step, hrunning, hcom, hq, Bool.false_eq_true, if_false] at hstep
      right
      split at hstep
      · cases hstep
      · rename_i hnew
        simp only [ite_eq_right_iff, reduceCtorEq, imp_false, not_lt] at hstep
        simp [comBlocked, hcom, hq, hnew, hstep]
  | executing req todo wm =>
    cases todo with
    | nil =>
      have hstep := h .gc rfl
      simp only [step, hrunning, hcom, Bool.false_eq_true, if_false, ite_eq_right_iff,
        reduceCtorEq, imp_false, not_lt] at hstep
      exact Or.inr (by simp [comBlocked, hcom, hstep])
    | cons b todo =>
      have hstep := h .exec rfl
      simp [step, hrunning, hcom] at hstep

/-- With an empty queue the commitor is blocked on replies only. -/
theorem waiting_of_comBlocked {s : Pair} (h : s.comBlocked = true) (hop : s.opCh = []) :
    ∃ c head ch, s.com = .waiting c head ch := by
  unfold comBlocked at h
  split at h
  · exact ⟨_, _, _, ‹_›⟩
  · split at h
    · cases h
    · simp [hop, opCap] at h
  · simp [hop, opCap] at h
  · cases h

/-- The states in which no step is left. -/
theorem AtRest.resting {s : Pair} (hd : s.DagSide) (hserved : s.crashed = false → s.Served)
    (hrest : s.AtRest) : s.Resting := by
  by_cases hc : s.crashed = true
  · exact .crashed hc
  have hrunning : s.crashed = false := by simpa using hc
  have hcommitor := hrest.commitor hrunning
  cases hpc : s.dagPc with
  | idle =>
    have hop := hrest.opCh_eq_nil hrunning hpc
    rcases hcommitor with ⟨hcom, hsub⟩ | hblocked
    · exact .done hpc hop hcom hsub
    · obtain ⟨c, head, ch, hcom⟩ := waiting_of_comBlocked hblocked hop
      rcases hserved hrunning c head ch hcom with hq | ⟨b, hb⟩ | ⟨hwait, habsent⟩
      · rw [hop] at hq
        cases hq
      · rw [hpc] at hb
        cases hb
      · exact .missing hpc hop hcom hwait.registered
          (hd.cache.pending _ _ hwait.registered) habsent
  | reply ch b =>
    refine .unheard hpc fun c head hcom => ?_
    have hstep := hrest .reply rfl
    simp [step, hrunning, hpc, hcom] at hstep
  | refResp ref =>
    have hstep := hrest .refResp rfl
    simp [step, hrunning, hpc] at hstep
  | submit req =>
    have hstep := hrest .submit rfl
    simp only [step, hrunning, hpc, Bool.false_eq_true, if_false, ite_eq_right_iff,
      reduceCtorEq, imp_false, not_lt] at hstep
    refine .circular (by simp [dagBlocked, hpc, hstep]) (hcommitor.resolve_left ?_)
    rintro ⟨_, hsub⟩
    rw [hsub] at hstep
    cases hstep

/-- **Where a pair comes to rest.** A pair that cannot move has panicked, has nothing left to
do, waits for a missing block, sends a reply that nobody reads, or is in a circular wait. -/
theorem resting_cases {i : Int} {c : Committee} {acts : List Act} {s : Pair}
    (h : Reaches i c acts s) (hrest : s.AtRest) : s.Resting :=
  hrest.resting h.inv.dagSide h.served

/-- A pair that misses a block waits. -/
theorem atRest_of_waiting {s : Pair} {c : CommitState} {head : Slot} {ch : Nat}
    (hpc : s.dagPc = .idle) (hop : s.opCh = []) (hcom : s.com = .waiting c head ch) :
    s.AtRest := by
  intro a ha
  cases a <;> simp [step, hpc, hop, hcom, Act.isOwn] at ha ⊢

/-- After sixteen steps the commitor waits for a block that is not there. -/
theorem resting_cases_commitRun : ∃ s, Reaches 0 fourMembers (commitRun.take 16) s ∧ s.AtRest ∧
    s.comBlocked = true ∧ s.Resting := by
  obtain ⟨s, hs, hpc, hop, hwait⟩ : ∃ s ∈ Machine.run step (init 0 fourMembers)
      (commitRun.take 16), s.dagPc = .idle ∧ s.opCh.length = 0 ∧ s.comBlocked = true := by
    decide +kernel
  have hnil := List.eq_nil_of_length_eq_zero hop
  obtain ⟨c, head, ch, hcom⟩ := waiting_of_comBlocked hwait hnil
  have hrest := atRest_of_waiting hpc hnil hcom
  exact ⟨s, hs, hrest, hwait, resting_cases hs hrest⟩

/-! ## Every reply is read -/

/-- A channel that is registered and unused, or in use, is the one the commitor waits on. -/
structure Heard (sent : List Nat) (s : Pair) : Prop where
  registered : ∀ sl ch, s.dag.pending.lookup sl = some ch → ch ∉ sent →
    ∃ c, s.com = .waiting c sl ch
  reply : ∀ ch b, s.dagPc = .reply ch b → ch ∈ sent ∧ ∃ c head, s.com = .waiting c head ch

/-- At the start no reply is due. -/
theorem heard_init (i : Int) (c : Committee) : (init i c).Heard [] where
  registered := by simp [init, newDag]
  reply := by simp [init]

/-- A request of the dag keeps its replies heard. -/
theorem Heard.handle {sent : List Nat} {s : Pair} (h : s.Heard sent) (hans : s.Answered sent)
    (hsh : s.Shape) {order : List Int} {m : OpMsg} {rest : List OpMsg} {d : Dag} {pc : DagPc}
    (hop : s.opCh = m :: rest) (hm : s.dag.handle order m = some (d, pc))
    (hok : s.freshPush (.dag order) = true) :
    ({ s with dag := d, dagPc := pc, opCh := rest } : Pair).Heard (sent ++ pc.channels) := by
  have hold : ∀ {chs}, ∀ sl ch, s.dag.pending.lookup sl = some ch → ch ∉ sent ++ chs →
      ∃ c, s.com = .waiting c sl ch :=
    fun sl ch hp hno => h.registered sl ch hp fun hin => hno (List.mem_append_left _ hin)
  have hnew : ∀ {ch b c head}, s.com = .waiting c head ch → ∀ ch' b',
      DagPc.reply ch b = .reply ch' b' →
      ch' ∈ sent ++ [ch] ∧ ∃ c head, s.com = .waiting c head ch' := by
    intro ch b c head hcom ch' b' heq
    cases heq
    exact ⟨List.mem_append_right _ (List.mem_singleton.mpr rfl), c, head, hcom⟩
  cases m with
  | core req =>
    cases req with
    | propose block =>
      rcases Dag.handleBlockPushReq_cases hm with
        ⟨_, rfl, rfl⟩ | ⟨_, _, _, rfl, ⟨_, rfl⟩ | ⟨ch, hch, rfl⟩⟩
      · exact ⟨hold, by simp⟩
      · exact ⟨hold, by simp⟩
      · have hunsent : ch ∉ sent := by
          intro hin
          have hsome := hans.held _ ch hch hin
          simp only [freshPush, hop, hch, Option.isNone_some, Bool.false_or,
            Option.isNone_iff_eq_none] at hok
          rw [hok] at hsome
          cases hsome
        obtain ⟨c, hcom⟩ := h.registered _ ch hch hunsent
        exact ⟨hold, hnew hcom⟩
    | refReq round =>
      obtain ⟨rfl, ref, rfl⟩ := Dag.handleRefReq_dag hm
      exact ⟨hold, by simp⟩
    | commitReq req =>
      obtain ⟨p, rfl, hpc⟩ := Dag.handleCommitReq_cases hm
      refine ⟨hold, fun ch b hb => ?_⟩
      rcases hpc with ⟨_, _, rfl⟩ | ⟨_, _, _, ⟨_, _, rfl⟩ | ⟨_, _, _, rfl⟩⟩ <;> cases hb
  | blockPullReq sl ch =>
    obtain ⟨_, ⟨c, hcom⟩, _⟩ := hsh.queued_pull (by rw [hop]; exact List.mem_cons_self ..)
    rcases Dag.handleBlockPullReq_cases hm with
      ⟨_, rfl, rfl⟩ | ⟨_, _, _, ⟨_, _, rfl, rfl⟩ | ⟨_, rfl, rfl⟩⟩
    · exact ⟨hold, hnew hcom⟩
    · exact ⟨hold, hnew hcom⟩
    · refine ⟨fun sl' ch' hp hno => ?_, by simp⟩
      dsimp only at hp
      rw [GoMap.lookup_insert_ite] at hp
      split at hp
      · cases hp
        subst sl'
        exact ⟨c, hcom⟩
      · exact hold sl' ch' hp hno
  | gcReq wm r =>
    obtain ⟨rfl, p, d₁, _, _, rfl⟩ := Dag.handleCleanReq_cases hm
    exact ⟨by simp, by simp⟩

/-- A step of the commitor when it does not wait. -/
theorem Heard.frame {sent : List Nat} {s t : Pair} (h : s.Heard sent)
    (hcom : ∀ c head ch, s.com ≠ .waiting c head ch)
    (hpending : t.dag.pending = s.dag.pending) (hpc : t.dagPc = s.dagPc) : t.Heard sent where
  registered sl ch hp hno := by
    rw [hpending] at hp
    obtain ⟨c, hwait⟩ := h.registered sl ch hp hno
    exact absurd hwait (hcom _ _ _)
  reply ch b hb := by
    rw [hpc] at hb
    obtain ⟨_, c, head, hwait⟩ := h.reply ch b hb
    exact absurd hwait (hcom _ _ _)

/-- Every step does, if no block is pushed twice. -/
theorem Heard.step {sent : List Nat} {s t : Pair} {a : Act} (h : s.Heard sent)
    (hans : s.Answered sent) (hsh : s.Shape) (hok : s.freshPush a = true) (hs : s.Step a t) :
    t.Heard (sent ++ s.begins a t) := by
  cases hs with
  | dag hpc hop hord hm => exact h.handle hans hsh hop hm hok
  | crash hpc =>
    simp only [begins, hpc, DagPc.channels_idle, List.append_nil]
    exact ⟨h.registered, by simp⟩
  | send =>
    simp only [begins, List.append_nil]
    exact ⟨h.registered, h.reply⟩
  | submit | refResp =>
    simp only [begins, List.append_nil]
    exact ⟨h.registered, by simp⟩
  | reply hpc hcom =>
    simp only [begins, List.append_nil]
    refine ⟨fun sl ch' hp hno => ?_, by simp⟩
    obtain ⟨c', hwait⟩ := h.registered sl ch' hp hno
    rw [hcom] at hwait
    cases hwait
    exact absurd (h.reply _ _ hpc).1 hno
  | take hcom | skip hcom | pull hcom | process hcom | nothing hcom | finish hcom | exec hcom
  | gc hcom =>
    simp only [begins, List.append_nil]
    exact h.frame (by simp [hcom]) rfl rfl

/-- Without repeated pushes of a registered slot, the dag sends to a commitor that waits. -/
theorem Reaches.heard {i : Int} {c : Committee} {acts : List Act} {s : Pair}
    (h : Reaches i c acts s)
    (hok : Machine.Along step (fun u a => u.freshPush a = true) (init i c) acts) :
    s.Heard (replies (init i c) acts) := by
  have hall : s.Inv i c ∧ s.Answered (replies (init i c) acts) ∧
      s.Heard (replies (init i c) acts) := by
    refine Machine.outputs_invariant (P := fun (sent : List Nat) (u : Pair) =>
      u.Inv i c ∧ u.Answered sent ∧ u.Heard sent)
      ⟨inv_init i c, answered_init i c, heard_init i c⟩ ?_ hok h
    rintro sent u a t ⟨hinv, hans, hu⟩ hfresh hs
    have hst := (step_cases hs).2
    exact ⟨hinv.step hs, hans.step hinv.dagSide hinv.shape hfresh hst,
      hu.step hans hinv.shape hfresh hst⟩
  exact hall.2.2

end Pair

end Loom
