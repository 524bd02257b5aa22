import Loom.Pair.Cache
import Loom.Pair.Order

/-!
# Invariants of the dag and the commitor

The invariant is built in layers. `DagSide` is about the cache and the reply
channels, `Shape` about the at most two requests that the commitor can have in
`opCh`, `Bounds` says that what the commitor pulled or is about to collect lies
inside the cache, and `Once` that nothing is executed twice. Each layer is kept by
every step given the layers before it.
-/

namespace Loom

/-- The block map of a pull loop. -/
def Commitor.pulled : Commitor → GoMap Slot Block
  | .pulling c | .waiting c _ _ | .received c _ _ => c.pulled
  | .idle | .executing _ _ _ => ∅

/-- The blocks that are ordered but not yet executed. -/
def Commitor.todo : Commitor → List Block
  | .executing _ todo _ => todo
  | _ => []

/-- Whether an entry of `opCh` comes from the commitor. -/
def OpMsg.ofCommitor : OpMsg → Bool
  | .core _ => false
  | .blockPullReq _ _ => true
  | .gcReq _ _ => true

/-- The requests of the commitor that wait in a queue. -/
def comOps (ops : List OpMsg) : List OpMsg := ops.filter OpMsg.ofCommitor

@[simp] theorem comOps_core (req : CoreReq) (ops : List OpMsg) :
    comOps (.core req :: ops) = comOps ops := rfl

@[simp] theorem comOps_pull (sl : Slot) (ch : Nat) (ops : List OpMsg) :
    comOps (.blockPullReq sl ch :: ops) = .blockPullReq sl ch :: comOps ops := rfl

@[simp] theorem comOps_gc (wm : GoMap Int Int) (r : Int) (ops : List OpMsg) :
    comOps (.gcReq wm r :: ops) = .gcReq wm r :: comOps ops := rfl

@[simp] theorem comOps_nil : comOps [] = [] := rfl

@[simp] theorem comOps_append (xs ys : List OpMsg) : comOps (xs ++ ys) = comOps xs ++ comOps ys :=
  List.filter_append ..

namespace Pair

/-! ## The cache and the reply channels -/

/-- The cache is well placed and every reply channel belongs to the slot it was made
for, whether it is queued, registered or about to be used. -/
structure DagSide (s : Pair) : Prop where
  cache : s.dag.CacheOk
  pending : ∀ sl ch, s.dag.pending.lookup sl = some ch → s.pulls[ch]? = some sl
  reply : ∀ ch b, s.dagPc = .reply ch b → ∃ sl, s.pulls[ch]? = some sl ∧
    ∀ block, b = some block → block.header.slot = sl ∧ s.dag.Held sl
  queued : ∀ sl ch, .blockPullReq sl ch ∈ s.opCh → s.pulls[ch]? = some sl

/-- The lines of a new dag are empty. -/
theorem line_newDag {i : Int} {c : Committee} {a : Int} {l : List (Option Block)}
    (h : (newDag i c).line a = some l) : l = [] := by
  simp only [Dag.line, newDag] at h
  split at h
  · rw [List.getElem?_replicate] at h
    simp only [Option.ite_none_right_eq_some, Option.some.injEq] at h
    exact h.2.symm
  · cases h

/-- The dag of a new pair is in order. -/
theorem dagSide_init (i : Int) (c : Committee) : (init i c).DagSide where
  cache :=
    { slot := by
        intro a l k b hl hb
        cases line_newDag hl
        simp at hb
      last := by
        intro a l hl
        cases line_newDag hl
        simp
      pending := by simp [init, newDag] }
  pending := by simp [init, newDag]
  reply := by simp [init]
  queued := by simp [init]

/-- One handled request keeps the cache and the channels in order. -/
theorem DagSide.handle {s : Pair} (h : s.DagSide) {order : List Int} {m : OpMsg}
    {rest : List OpMsg} {d : Dag} {pc : DagPc} (hop : s.opCh = m :: rest)
    (hm : s.dag.handle order m = some (d, pc)) :
    ({ s with dag := d, dagPc := pc, opCh := rest } : Pair).DagSide := by
  have hq : ∀ sl ch, OpMsg.blockPullReq sl ch ∈ rest → s.pulls[ch]? = some sl := fun sl ch hmem =>
    h.queued sl ch (hop ▸ List.mem_cons_of_mem m hmem)
  cases m with
  | core req =>
    cases req with
    | propose block =>
      rcases Dag.handleBlockPushReq_cases hm with ⟨_, rfl, rfl⟩ | ⟨hh, l, hl, rfl, hpc⟩
      · exact ⟨h.cache, h.pending, by simp, hq⟩
      · refine ⟨h.cache.store hl hh, h.pending, ?_, hq⟩
        intro ch b hb
        rcases hpc with ⟨_, rfl⟩ | ⟨ch', hch, rfl⟩
        · cases hb
        · cases hb
          refine ⟨_, h.pending _ _ hch, ?_⟩
          intro b hb
          cases hb
          exact ⟨rfl, Dag.held_store hl hh⟩
    | refReq round =>
      obtain ⟨rfl, ref, rfl⟩ := Dag.handleRefReq_dag hm
      exact ⟨h.cache, h.pending, by simp, hq⟩
    | commitReq req =>
      obtain ⟨p, rfl, hpc⟩ := Dag.handleCommitReq_cases hm
      refine ⟨⟨h.cache.slot, h.cache.last, h.cache.pending⟩, h.pending, ?_, hq⟩
      intro ch b hb
      rcases hpc with ⟨_, _, rfl⟩ | ⟨_, _, _, ⟨_, _, rfl⟩ | ⟨_, _, _, rfl⟩⟩ <;> cases hb
  | blockPullReq sl ch =>
    have hsl : s.pulls[ch]? = some sl := h.queued sl ch (hop ▸ List.mem_cons_self ..)
    rcases Dag.handleBlockPullReq_cases hm with
      ⟨_, rfl, rfl⟩ | ⟨hh, l, hl, ⟨b, hb, rfl, rfl⟩ | ⟨_, rfl, rfl⟩⟩
    · refine ⟨h.cache, h.pending, ?_, hq⟩
      intro ch' b' hb'
      cases hb'
      exact ⟨sl, hsl, by simp⟩
    · refine ⟨h.cache, h.pending, ?_, hq⟩
      intro ch' b' hb'
      cases hb'
      refine ⟨sl, hsl, ?_⟩
      intro b' hb'
      cases hb'
      exact h.cache.read hl hh hb
    · have hins : ∀ sl' ch', (s.dag.pending.insert sl ch).lookup sl' = some ch' →
          sl' = sl ∧ ch' = ch ∨ s.dag.pending.lookup sl' = some ch' := by
        intro sl' ch' hp
        rw [GoMap.lookup_insert_ite] at hp
        split at hp
        · cases hp
          exact Or.inl ⟨‹_›, rfl⟩
        · exact Or.inr hp
      refine ⟨⟨h.cache.slot, h.cache.last, ?_⟩, ?_, by simp, hq⟩
      · intro sl' ch' hp
        rcases hins sl' ch' hp with ⟨rfl, rfl⟩ | hp
        · exact hh
        · exact h.cache.pending sl' ch' hp
      · intro sl' ch' hp
        rcases hins sl' ch' hp with ⟨rfl, rfl⟩ | hp
        · exact hsl
        · exact h.pending sl' ch' hp
  | gcReq wm r =>
    obtain ⟨rfl, p, d₁, _, hclean, rfl⟩ := Dag.handleCleanReq_cases hm
    obtain ⟨hslot, hlast⟩ := Dag.cleanLines_ok hclean h.cache.slot h.cache.last
    exact ⟨⟨hslot, hlast, by simp⟩, by simp, by simp, hq⟩

/-- Every step keeps the dag in order. -/
theorem dagSide_step {s t : Pair} {a : Act} (h : s.DagSide) (hs : s.Step a t) : t.DagSide := by
  cases hs with
  | send req =>
    refine ⟨h.cache, h.pending, h.reply, ?_⟩
    intro sl ch hmem
    exact h.queued sl ch (by simpa using hmem)
  | crash => exact ⟨h.cache, h.pending, h.reply, h.queued⟩
  | dag _ hop _ hm => exact h.handle hop hm
  | submit => exact ⟨h.cache, h.pending, by simp, h.queued⟩
  | reply => exact ⟨h.cache, h.pending, by simp, h.queued⟩
  | refResp => exact ⟨h.cache, h.pending, by simp, h.queued⟩
  | pull =>
    rename_i c head q _ _ _
    have hgrow : ∀ {k : Nat} {sl : Slot}, s.pulls[k]? = some sl →
        (s.pulls ++ [head])[k]? = some sl := by
      intro k sl hk
      rw [List.getElem?_append_left (List.getElem?_eq_some_iff.mp hk).1]
      exact hk
    refine ⟨h.cache, fun sl ch hp => hgrow (h.pending sl ch hp), ?_, ?_⟩
    · intro ch b hb
      obtain ⟨sl, hsl, hblk⟩ := h.reply ch b hb
      exact ⟨sl, hgrow hsl, hblk⟩
    · intro sl ch hmem
      rcases List.mem_append.mp hmem with hmem | hmem
      · exact hgrow (h.queued sl ch hmem)
      · rw [List.mem_singleton] at hmem
        cases hmem
        simp
  | gc =>
    refine ⟨h.cache, h.pending, h.reply, ?_⟩
    intro sl ch hmem
    exact h.queued sl ch (by simpa using hmem)
  | take | skip | process | nothing | finish | exec =>
    exact ⟨h.cache, h.pending, h.reply, h.queued⟩

/-! ## Stored blocks -/

/-- Every block that the dag holds, is about to handle, sends as a reply or refers to in
an answered reference request has the property. -/
structure Stored (P : Block → Prop) (s : Pair) : Prop where
  cache : ∀ (a : Int) (l : List (Option Block)) (k : Nat) (b : Block), s.dag.line a = some l →
    l[k]? = some (some b) → P b
  queue : ∀ b, .core (.propose b) ∈ s.opCh → P b
  reply : ∀ ch b, s.dagPc = .reply ch (some b) → P b
  refs : ∀ ref, s.dagPc = .refResp ref → ∀ h ∈ ref, ∃ b, P b ∧ b.header = h

/-- At the start no block is stored. -/
theorem stored_init (P : Block → Prop) (i : Int) (c : Committee) : (init i c).Stored P where
  cache := by
    intro a l k b hl hb
    cases line_newDag hl
    simp at hb
  queue := by simp [init]
  reply := by simp [init]
  refs := by simp [init]

/-- A weaker property. -/
theorem Stored.mono {P Q : Block → Prop} {s : Pair} (h : s.Stored P) (hPQ : ∀ b, P b → Q b) :
    s.Stored Q where
  cache a l k b hl hb := hPQ b (h.cache a l k b hl hb)
  queue b hb := hPQ b (h.queue b hb)
  reply ch b hb := hPQ b (h.reply ch b hb)
  refs ref hr k hk := by
    obtain ⟨b, hb, hh⟩ := h.refs ref hr k hk
    exact ⟨b, hPQ b hb, hh⟩

/-- A handled request keeps the property. -/
theorem Stored.handle {P : Block → Prop} {s : Pair} (h : s.Stored P) {order : List Int}
    {m : OpMsg} {rest : List OpMsg} {d : Dag} {pc : DagPc} (hop : s.opCh = m :: rest)
    (hm : s.dag.handle order m = some (d, pc)) :
    ({ s with dag := d, dagPc := pc, opCh := rest } : Pair).Stored P := by
  have hq : ∀ b, OpMsg.core (.propose b) ∈ rest → P b := fun b hb =>
    h.queue b (hop ▸ List.mem_cons_of_mem m hb)
  cases m with
  | core req =>
    cases req with
    | propose block =>
      have hblk := h.queue block (hop ▸ List.mem_cons_self ..)
      rcases Dag.handleBlockPushReq_cases hm with ⟨_, rfl, rfl⟩ | ⟨_, l, hl, rfl, hpc⟩
      · exact ⟨h.cache, hq, by simp, by simp⟩
      · refine ⟨?_, hq, ?_, ?_⟩
        · intro a l' k b hl' hb
          rw [Dag.line_setLine hl] at hl'
          split at hl'
          · cases hl'
            rcases Dag.getElem?_store hb with ⟨_, rfl⟩ | hb
            · exact hblk
            · exact h.cache _ _ _ _ hl hb
          · exact h.cache _ _ _ _ hl' hb
        · intro ch b hb
          rcases hpc with ⟨_, rfl⟩ | ⟨_, _, rfl⟩
          · cases hb
          · cases hb
            exact hblk
        · intro ref hr
          rcases hpc with ⟨_, rfl⟩ | ⟨_, _, rfl⟩ <;> cases hr
    | refReq round =>
      obtain ⟨rfl, ref, rfl, href⟩ := Dag.handleRefReq_cases hm
      refine ⟨h.cache, hq, by simp, ?_⟩
      intro ref' hr k hk
      cases hr
      obtain ⟨a, l, j, b, hl, hb, rfl⟩ := href k hk
      exact ⟨b, h.cache a l j b hl hb, rfl⟩
    | commitReq req =>
      obtain ⟨p, rfl, hpc⟩ := Dag.handleCommitReq_cases hm
      refine ⟨h.cache, hq, ?_, ?_⟩
      · intro ch b hb
        rcases hpc with ⟨_, _, rfl⟩ | ⟨_, _, _, ⟨_, _, rfl⟩ | ⟨_, _, _, rfl⟩⟩ <;> cases hb
      · intro ref hr
        rcases hpc with ⟨_, _, rfl⟩ | ⟨_, _, _, ⟨_, _, rfl⟩ | ⟨_, _, _, rfl⟩⟩ <;> cases hr
  | blockPullReq sl ch =>
    rcases Dag.handleBlockPullReq_cases hm with
      ⟨_, rfl, rfl⟩ | ⟨_, l, hl, ⟨b, hb, rfl, rfl⟩ | ⟨_, rfl, rfl⟩⟩
    · exact ⟨h.cache, hq, by simp, by simp⟩
    · refine ⟨h.cache, hq, ?_, by simp⟩
      intro ch' b' hb'
      cases hb'
      exact h.cache _ _ _ _ hl hb
    · exact ⟨h.cache, hq, by simp, by simp⟩
  | gcReq wm r =>
    obtain ⟨rfl, p, d₁, _, hclean, rfl⟩ := Dag.handleCleanReq_cases hm
    refine ⟨?_, hq, by simp, by simp⟩
    intro a l k b hl hb
    obtain ⟨l₀, n, hl₀, rfl⟩ := Dag.cleanLines_drop hclean (a := a) hl
    rw [List.getElem?_drop] at hb
    exact h.cache a l₀ _ b hl₀ hb

/-- The property is kept if the core pushes only blocks that have it. -/
theorem stored_step {P : Block → Prop} {s t : Pair} {a : Act} (h : s.Stored P)
    (hP : ∀ b, a = .send (.propose b) → P b) (hs : s.Step a t) : t.Stored P := by
  cases hs with
  | send req =>
    refine ⟨h.cache, ?_, h.reply, h.refs⟩
    intro b hmem
    rcases List.mem_append.mp hmem with hmem | hmem
    · exact h.queue b hmem
    · rw [List.mem_singleton] at hmem
      cases hmem
      exact hP b rfl
  | dag _ hop _ hm => exact h.handle hop hm
  | pull | gc => exact ⟨h.cache, fun b hmem => h.queue b (by simpa using hmem), h.reply, h.refs⟩
  | submit | reply | refResp => exact ⟨h.cache, h.queue, by simp, by simp⟩
  | _ => exact ⟨h.cache, h.queue, h.reply, h.refs⟩

/-- A panic stores nothing. -/
theorem Stored.crash {P : Block → Prop} {s : Pair} (h : s.Stored P) :
    ({ s with crashed := true } : Pair).Stored P := ⟨h.cache, h.queue, h.reply, h.refs⟩

/-! ## The requests of the commitor in flight -/

/-- A reply channel whose pull the dag has not handled yet. -/
def Fresh (d : Dag) (pc : DagPc) (ch : Nat) : Prop :=
  (∀ sl, d.pending.lookup sl ≠ some ch) ∧ ∀ b, pc ≠ .reply ch b

/-- What the commitor can have in `opCh` where it stands. Its garbage collection may
still be queued when the next commit starts, but only ahead of the first pull. -/
def Shape (s : Pair) : Prop :=
  match s.com with
  | .idle => comOps s.opCh = [] ∨ ∃ wm r, comOps s.opCh = [.gcReq wm r]
  | .pulling c => comOps s.opCh = [] ∨ c.pulled.keys = [] ∧ ∃ wm r, comOps s.opCh = [.gcReq wm r]
  | .waiting c head ch => s.pulls[ch]? = some head ∧
      (comOps s.opCh = [] ∨ Fresh s.dag s.dagPc ch ∧ (comOps s.opCh = [.blockPullReq head ch] ∨
        c.pulled.keys = [] ∧ ∃ wm r, comOps s.opCh = [.gcReq wm r, .blockPullReq head ch]))
  | .received _ _ _ => comOps s.opCh = []
  | .executing _ _ _ => comOps s.opCh = []

/-- A new commitor is idle. -/
theorem shape_init (i : Int) (c : Committee) : (init i c).Shape := Or.inl rfl

/-- Handling a request of the core does not use a channel that is still fresh. -/
theorem Fresh.handle_core {d d' : Dag} {pc pc' : DagPc} {ch : Nat} (hf : Fresh d pc ch)
    {order : List Int} {req : CoreReq} (hm : d.handle order (.core req) = some (d', pc')) :
    Fresh d' pc' ch := by
  cases req with
  | propose block =>
    rcases Dag.handleBlockPushReq_cases hm with ⟨_, rfl, rfl⟩ | ⟨_, l, _, rfl, hpc⟩
    · exact ⟨hf.1, by simp⟩
    · refine ⟨hf.1, ?_⟩
      intro b hb
      rcases hpc with ⟨_, rfl⟩ | ⟨ch', hch, rfl⟩
      · cases hb
      · cases hb
        exact hf.1 _ hch
  | refReq round =>
    obtain ⟨rfl, ref, rfl⟩ := Dag.handleRefReq_dag hm
    exact ⟨hf.1, by simp⟩
  | commitReq req =>
    obtain ⟨p, rfl, hpc⟩ := Dag.handleCommitReq_cases hm
    refine ⟨hf.1, ?_⟩
    intro b hb
    rcases hpc with ⟨_, _, rfl⟩ | ⟨_, _, _, ⟨_, _, rfl⟩ | ⟨_, _, _, rfl⟩⟩ <;> cases hb

/-- A handled garbage collection clears all registered channels. -/
theorem Fresh.handle_gc {d d' : Dag} {pc : DagPc} {order : List Int} {wm : GoMap Int Int} {r : Int}
    (hm : d.handle order (.gcReq wm r) = some (d', pc)) (ch : Nat) : Fresh d' pc ch := by
  obtain ⟨rfl, p, d₁, _, _, rfl⟩ := Dag.handleCleanReq_cases hm
  exact ⟨by simp, by simp⟩

/-- A dag step takes the oldest request of the commitor, if it takes one at all. -/
theorem Shape.handle {s : Pair} (h : s.Shape) {order : List Int} {m : OpMsg}
    {rest : List OpMsg} {d : Dag} {pc : DagPc} (hop : s.opCh = m :: rest)
    (hm : s.dag.handle order m = some (d, pc)) :
    ({ s with dag := d, dagPc := pc, opCh := rest } : Pair).Shape := by
  cases m with
  | core req =>
    cases hcom : s.com with
    | waiting c head ch =>
      simp only [Shape, hcom, hop, comOps_core] at h ⊢
      obtain ⟨hch, hrest | ⟨hf, hrest⟩⟩ := h
      · exact ⟨hch, Or.inl hrest⟩
      · exact ⟨hch, Or.inr ⟨hf.handle_core hm, hrest⟩⟩
    | idle | pulling | received | executing =>
      simp only [Shape, hcom, hop, comOps_core] at h ⊢
      exact h
  | blockPullReq sl ch =>
    cases hcom : s.com with
    | waiting c head ch =>
      simp only [Shape, hcom, hop, comOps_pull] at h ⊢
      obtain ⟨hch, h | ⟨_, h | ⟨_, _, _, h⟩⟩⟩ := h
      · cases h
      · exact ⟨hch, Or.inl (List.cons.inj h).2⟩
      · cases h
    | idle | pulling | received | executing => simp [Shape, hcom, hop] at h
  | gcReq wm r =>
    cases hcom : s.com with
    | idle =>
      simp only [Shape, hcom, hop, comOps_gc] at h ⊢
      obtain h | ⟨_, _, h⟩ := h
      · cases h
      · exact Or.inl (List.cons.inj h).2
    | pulling c =>
      simp only [Shape, hcom, hop, comOps_gc] at h ⊢
      obtain h | ⟨_, _, _, h⟩ := h
      · cases h
      · exact Or.inl (List.cons.inj h).2
    | waiting c head ch =>
      simp only [Shape, hcom, hop, comOps_gc] at h ⊢
      obtain ⟨hch, h | ⟨_, h | ⟨_, _, _, h⟩⟩⟩ := h
      · cases h
      · cases h
      · exact ⟨hch, Or.inr ⟨Fresh.handle_gc hm ch, Or.inl (List.cons.inj h).2⟩⟩
    | received | executing => simp [Shape, hcom, hop] at h

/-- A new channel has not been used by the dag. -/
theorem DagSide.fresh {s : Pair} (h : s.DagSide) : Fresh s.dag s.dagPc s.pulls.length := by
  constructor
  · intro sl hp
    have hin := h.pending sl _ hp
    simp at hin
  · intro b hb
    obtain ⟨sl, hsl, _⟩ := h.reply _ b hb
    simp at hsl

/-- The shape does not depend on which other send the dag has just finished. -/
theorem Shape.dagIdle {s t : Pair} (h : s.Shape) (hcom : t.com = s.com) (hop : t.opCh = s.opCh)
    (hpulls : t.pulls = s.pulls) (hdag : t.dag = s.dag) (hpc : t.dagPc = .idle) : t.Shape := by
  cases hc : s.com <;> simp only [Shape, hcom, hc, hop, hpulls, hdag, hpc] at h ⊢
  case waiting =>
    obtain ⟨hch, hrest | ⟨hf, hrest⟩⟩ := h
    · exact ⟨hch, Or.inl hrest⟩
    · exact ⟨hch, Or.inr ⟨⟨hf.1, by simp⟩, hrest⟩⟩
  all_goals exact h

/-- Every step keeps commitor and requests in one of the shapes. -/
theorem shape_step {s t : Pair} {a : Act} (hd : s.DagSide) (h : s.Shape) (hs : s.Step a t) :
    t.Shape := by
  cases hs with
  | send req =>
    cases hcom : s.com <;>
      simp only [Shape, hcom, comOps_append, comOps_core, comOps_nil, List.append_nil] at h ⊢ <;>
      exact h
  | crash => exact h
  | dag _ hop _ hm => exact h.handle hop hm
  | submit _ => exact h.dagIdle rfl rfl rfl rfl rfl
  | refResp _ => exact h.dagIdle rfl rfl rfl rfl rfl
  | reply hpc hcom =>
    simp only [Shape, hcom] at h ⊢
    obtain ⟨_, h | ⟨hf, _⟩⟩ := h
    · exact h
    · exact absurd hpc (hf.2 _)
  | take hcom _ =>
    simp only [Shape, hcom] at h ⊢
    rcases h with h | h
    · exact Or.inl h
    · exact Or.inr ⟨rfl, h⟩
  | skip hcom _ _ =>
    simp only [Shape, hcom] at h ⊢
    exact h
  | pull hcom _ _ =>
    simp only [Shape, hcom, comOps_append, comOps_pull, comOps_nil] at h ⊢
    refine ⟨by simp, Or.inr ⟨hd.fresh, ?_⟩⟩
    rcases h with h | ⟨hp, wm, r, h⟩
    · exact Or.inl (by rw [h]; rfl)
    · exact Or.inr ⟨hp, wm, r, by rw [h]; rfl⟩
  | process hcom =>
    simp only [Shape, hcom] at h ⊢
    exact Or.inl h
  | nothing hcom _ _ =>
    simp only [Shape, hcom] at h ⊢
    rcases h with h | ⟨_, h⟩
    · exact Or.inl h
    · exact Or.inr h
  | finish hcom _ hp _ _ =>
    simp only [Shape, hcom] at h ⊢
    rcases h with h | ⟨hp', _⟩
    · exact h
    · exact absurd hp' hp
  | exec hcom =>
    simp only [Shape, hcom] at h ⊢
    exact h
  | gc hcom =>
    simp only [Shape, hcom, comOps_append, comOps_gc, comOps_nil] at h ⊢
    exact Or.inr ⟨_, _, by rw [h]; rfl⟩

/-! ## Bounds of what is pulled and collected -/

/-- Whatever the commitor has pulled, received or is about to collect lies above the
watermarks and inside the lines of the cache. -/
structure Bounds (s : Pair) : Prop where
  pulled : ∀ sl b, s.com.pulled.lookup sl = some b → b.header.slot = sl ∧ s.dag.Held sl
  received : ∀ c head b, s.com = .received c head (some b) →
    b.header.slot = head ∧ s.dag.Held head
  executing : ∀ req todo wm, s.com = .executing req todo wm → s.dag.WmHeld wm ∧
    ∀ b ∈ todo, ∃ h, wm.lookup b.header.slot.author = some h ∧ b.header.slot.height ≤ h
  gc : ∀ wm r, .gcReq wm r ∈ s.opCh → s.dag.WmHeld wm

/-- A new commitor has no watermarks and no blocks. -/
theorem bounds_init (i : Int) (c : Committee) : (init i c).Bounds where
  pulled := by simp [init, Commitor.pulled]
  received := by simp [init]
  executing := by simp [init]
  gc := by simp [init]

/-- Only garbage collection moves watermarks or shortens lines. -/
theorem grows_handle {d d' : Dag} {order : List Int} {m : OpMsg} {pc : DagPc}
    (hm : d.handle order m = some (d', pc)) (hgc : ∀ wm r, m ≠ .gcReq wm r) : d.Grows d' := by
  cases m with
  | core req =>
    cases req with
    | propose block =>
      rcases Dag.handleBlockPushReq_cases hm with ⟨_, rfl, _⟩ | ⟨_, l, hl, rfl, _⟩
      · exact .refl _
      · exact .store hl _ _
    | refReq round =>
      obtain ⟨rfl, _⟩ := Dag.handleRefReq_dag hm
      exact .refl _
    | commitReq req =>
      obtain ⟨p, rfl, _⟩ := Dag.handleCommitReq_cases hm
      exact ⟨fun _ => rfl, fun _ l hl => ⟨l, hl, le_rfl⟩⟩
  | blockPullReq sl ch =>
    rcases Dag.handleBlockPullReq_cases hm with
      ⟨_, rfl, _⟩ | ⟨_, _, _, ⟨_, _, rfl, _⟩ | ⟨_, rfl, _⟩⟩
    · exact .refl _
    · exact .refl _
    · exact ⟨fun _ => rfl, fun _ l hl => ⟨l, hl, le_rfl⟩⟩
  | gcReq wm r => exact absurd rfl (hgc wm r)

/-- The bounds survive any change of the dag that only lets it grow. -/
theorem Bounds.grow {s t : Pair} (h : s.Bounds) (hg : s.dag.Grows t.dag) (hcom : t.com = s.com)
    (hop : ∀ m ∈ t.opCh, m ∈ s.opCh) : t.Bounds where
  pulled sl b hb := by
    rw [hcom] at hb
    obtain ⟨hslot, hheld⟩ := h.pulled sl b hb
    exact ⟨hslot, hg.held hheld⟩
  received c head b hb := by
    obtain ⟨hslot, hheld⟩ := h.received c head b (hcom ▸ hb)
    exact ⟨hslot, hg.held hheld⟩
  executing req todo wm hb := by
    obtain ⟨hwm, htodo⟩ := h.executing req todo wm (hcom ▸ hb)
    exact ⟨hg.wmHeld hwm, htodo⟩
  gc wm r hmem := hg.wmHeld (h.gc wm r (hop _ hmem))

/-- The requests of the commitor are found among its own. -/
theorem mem_comOps {m : OpMsg} {ops : List OpMsg} (hm : m.ofCommitor = true) :
    m ∈ ops ↔ m ∈ comOps ops := by
  simp [comOps, hm]

private theorem lookup_eq_none_of_keys {pulled : GoMap Slot Block} (h : pulled.keys = [])
    (sl : Slot) : pulled.lookup sl = none := by
  rw [AList.lookup_eq_none, AList.mem_keys, h]
  exact List.not_mem_nil

/-- When a garbage collection is at the head of the queue, the commitor has nothing
pulled and nothing else to collect. -/
theorem Shape.gc_head {s : Pair} (h : s.Shape) {wm : GoMap Int Int} {r : Int} {rest : List OpMsg}
    (hop : s.opCh = .gcReq wm r :: rest) :
    (∀ sl, s.com.pulled.lookup sl = none) ∧ (∀ c head b, s.com ≠ .received c head b) ∧
      (∀ req todo wm, s.com ≠ .executing req todo wm) ∧
      ∀ wm r, OpMsg.gcReq wm r ∉ rest := by
  have hno : ∀ {ops : List OpMsg}, (∀ wm r, OpMsg.gcReq wm r ∉ ops) → comOps rest = ops →
      ∀ wm r, OpMsg.gcReq wm r ∉ rest := by
    intro ops hops heq wm r hmem
    exact hops wm r (heq ▸ (mem_comOps rfl).mp hmem)
  cases hcom : s.com with
  | idle =>
    simp only [Shape, hcom, hop, comOps_gc] at h
    obtain h | ⟨_, _, h⟩ := h
    · cases h
    · exact ⟨by simp [Commitor.pulled], by simp, by simp, hno (by simp) (List.cons.inj h).2⟩
  | pulling c =>
    simp only [Shape, hcom, hop, comOps_gc] at h
    obtain h | ⟨hp, _, _, h⟩ := h
    · cases h
    · exact ⟨lookup_eq_none_of_keys hp, by simp, by simp, hno (by simp) (List.cons.inj h).2⟩
  | waiting c head ch =>
    simp only [Shape, hcom, hop, comOps_gc] at h
    obtain ⟨_, h | ⟨_, h | ⟨hp, _, _, h⟩⟩⟩ := h
    · cases h
    · cases h
    · exact ⟨lookup_eq_none_of_keys hp, by simp, by simp, hno (by simp) (List.cons.inj h).2⟩
  | received | executing => simp [Shape, hcom, hop] at h

/-- Finishing a pull loop: the new watermarks and the blocks to execute are inside
what was pulled. -/
theorem Bounds.finish {s : Pair} (h : s.Bounds) {c : CommitState} (hcom : s.com = .pulling c)
    {slots : List Slot} (hslots : slots.Perm c.pulled.keys) (rounds : List Int) :
    s.dag.WmHeld (newWatermark slots) ∧ ∀ b ∈ c.execOrder rounds,
      c.pulled.lookup b.header.slot = some b ∧
      ∃ h, (newWatermark slots).lookup b.header.slot.author = some h ∧
        b.header.slot.height ≤ h := by
  have hp : ∀ sl b, c.pulled.lookup sl = some b → b.header.slot = sl ∧ s.dag.Held sl := by
    intro sl b hb
    exact h.pulled sl b (by rw [hcom]; exact hb)
  constructor
  · intro a k hk
    have hmem := hslots.mem_iff.mp (newWatermark_attained hk)
    obtain ⟨b, hb⟩ := (GoMap.mem_keys_iff _ _).mp hmem
    exact (hp _ b hb).2
  · intro b hb
    have hl := lookup_of_mem_commitRounds (fun sl b hb => (hp sl b hb).1) hb
    refine ⟨hl, newWatermark_covers (hslots.mem_iff.mpr ?_)⟩
    exact (GoMap.mem_keys_iff _ _).mpr ⟨b, hl⟩

/-- Every step keeps the commitor within its bounds. -/
theorem bounds_step {s t : Pair} {a : Act} (hd : s.DagSide) (hsh : s.Shape) (h : s.Bounds)
    (hs : s.Step a t) : t.Bounds := by
  cases hs with
  | send req =>
    refine ⟨h.pulled, h.received, h.executing, fun wm r hmem => h.gc wm r ?_⟩
    simpa using hmem
  | crash => exact ⟨h.pulled, h.received, h.executing, h.gc⟩
  | @dag order m rest d pc _ hop _ hm =>
    by_cases hgc : ∃ wm r, m = .gcReq wm r
    · obtain ⟨wm, r, rfl⟩ := hgc
      obtain ⟨hpull, hrecv, hexec, hrest⟩ := hsh.gc_head hop
      refine ⟨?_, ?_, ?_, ?_⟩
      · intro sl b hb
        simp only at hb
        rw [hpull] at hb
        cases hb
      · intro c head b hb
        exact absurd hb (hrecv c head (some b))
      · intro req todo wm hb
        exact absurd hb (hexec req todo wm)
      · intro wm r hmem
        exact absurd hmem (hrest wm r)
    · refine h.grow (grows_handle hm fun wm r he => hgc ⟨wm, r, he⟩) rfl fun x hx => ?_
      rw [hop]
      exact List.mem_cons_of_mem m hx
  | submit _ => exact ⟨h.pulled, h.received, h.executing, h.gc⟩
  | refResp _ => exact ⟨h.pulled, h.received, h.executing, h.gc⟩
  | @reply ch b c head hpc hcom =>
    refine ⟨fun sl b hb => h.pulled sl b (by rw [hcom]; exact hb), ?_, by simp, h.gc⟩
    intro c' head' b' hb
    simp only [Commitor.received.injEq] at hb
    obtain ⟨rfl, rfl, rfl⟩ := hb
    obtain ⟨sl, hsl, hblk⟩ := hd.reply _ _ hpc
    obtain ⟨hslot, hheld⟩ := hblk b' rfl
    simp only [Shape, hcom] at hsh
    rw [hsh.1, Option.some.injEq] at hsl
    subst sl
    exact ⟨hslot, hheld⟩
  | take _ _ =>
    exact ⟨by simp [Commitor.pulled, CommitState.start], by simp, by simp, h.gc⟩
  | skip hcom _ _ =>
    refine ⟨fun sl b hb => h.pulled sl b (by rw [hcom]; exact hb), by simp, by simp, h.gc⟩
  | pull hcom _ _ =>
    refine ⟨fun sl b hb => h.pulled sl b (by rw [hcom]; exact hb), by simp, by simp, ?_⟩
    intro wm r hmem
    exact h.gc wm r (by simpa using hmem)
  | @process c head reply hcom =>
    refine ⟨?_, by simp, by simp, h.gc⟩
    intro sl b hb
    cases reply with
    | none => exact h.pulled sl b (by rw [hcom]; exact hb)
    | some cur =>
      simp only [Commitor.pulled, CommitState.receive, GoMap.lookup_insert_ite] at hb
      split at hb
      · cases hb
        subst sl
        exact h.received _ _ _ hcom
      · exact h.pulled sl b (by rw [hcom]; exact hb)
  | nothing hcom _ _ => exact ⟨by simp [Commitor.pulled], by simp, by simp, h.gc⟩
  | @finish c slots rounds hcom _ _ hslots _ =>
    refine ⟨by simp [Commitor.pulled], by simp, ?_, h.gc⟩
    intro req todo wm hb
    simp only [Commitor.executing.injEq] at hb
    obtain ⟨_, rfl, rfl⟩ := hb
    obtain ⟨hwm, htodo⟩ := h.finish hcom hslots rounds
    exact ⟨hwm, fun b hb => (htodo b hb).2⟩
  | exec hcom =>
    refine ⟨by simp [Commitor.pulled], by simp, ?_, h.gc⟩
    intro req todo wm hb
    simp only [Commitor.executing.injEq] at hb
    obtain ⟨_, rfl, rfl⟩ := hb
    obtain ⟨hwm, htodo⟩ := h.executing _ _ _ hcom
    exact ⟨hwm, fun b hb => htodo b (List.mem_cons_of_mem _ hb)⟩
  | gc hcom =>
    refine ⟨by simp [Commitor.pulled], by simp, by simp, ?_⟩
    intro wm r hmem
    rcases List.mem_append.mp hmem with hmem | hmem
    · exact h.gc wm r hmem
    · rw [List.mem_singleton] at hmem
      cases hmem
      exact (h.executing _ _ _ hcom).1

end Pair

end Loom
