import Loom.Pair.Invariant

/-!
# At-most-once execution and the cache representation

Executed slots stay below the watermarks, counting a garbage collection that is still
on its way as done, while everything pulled lies above them. Hence no slot is
executed twice, whatever blocks, references and reveals the core sends and however
the two goroutines interleave.
-/

namespace Loom.Pair

/-- A watermark map that will be installed before the next block is pulled. -/
def Flying (s : Pair) (wm : GoMap Int Int) : Prop :=
  (∃ req todo, s.com = .executing req todo wm) ∨ ∃ r, .gcReq wm r ∈ s.opCh

/-- The slot is at or below its author's watermark, present or on its way. -/
def Covered (s : Pair) (sl : Slot) : Prop :=
  sl.height ≤ s.dag.mark sl.author ∨
    ∃ wm h, s.Flying wm ∧ wm.lookup sl.author = some h ∧ sl.height ≤ h

/-- Executed slots are covered, and they are disjoint from what is still to be executed. -/
structure Once (s : Pair) : Prop where
  covered : ∀ b ∈ s.executed, s.Covered b.header.slot
  nodup : ((s.executed ++ s.com.todo).map (·.header.slot)).Nodup

private theorem once_init (i : Int) (c : Committee) : (init i c).Once where
  covered := by simp [init]
  nodup := by simp [init, Commitor.todo]

/-- A step that executes nothing. -/
theorem Once.frame {s t : Pair} (h : s.Once) (hcov : ∀ sl, s.Covered sl → t.Covered sl)
    (hex : t.executed = s.executed) (htodo : t.com.todo = s.com.todo) : t.Once where
  covered b hb := hcov _ (h.covered b (hex ▸ hb))
  nodup := by
    rw [hex, htodo]
    exact h.nodup

/-- The commitor has nothing in flight once it holds a block. -/
theorem Shape.pulling_clear {s : Pair} (h : s.Shape) {c : CommitState} (hcom : s.com = .pulling c)
    (hp : c.pulled.keys ≠ []) (wm : GoMap Int Int) : ¬ s.Flying wm := by
  simp only [Shape, hcom] at h
  rcases h with h | ⟨hp', _⟩
  · rintro (⟨req, todo, he⟩ | ⟨r, hmem⟩)
    · rw [hcom] at he
      cases he
    · rw [mem_comOps rfl, h] at hmem
      cases hmem
  · exact absurd hp' hp

/-- Watermarks set by a garbage collection within its bounds. -/
theorem mark_gc {d d' : Dag} {wm : GoMap Int Int} {r : Int} {order : List Int} {pc : DagPc}
    (hord : (OpMsg.gcReq wm r).orderOk order = true)
    (hm : d.handle order (.gcReq wm r) = some (d', pc)) (a : Int) :
    d'.mark a = (wm.lookup a).getD (d.mark a) := by
  obtain ⟨_, p, d₁, _, hclean, rfl⟩ := Dag.handleCleanReq_cases hm
  have hmark := (Dag.cleanLines_cases hclean).1 a
  have hperm := List.isPerm_iff.mp hord
  have hmem : a ∈ order ↔ ∃ k, wm.lookup a = some k := by
    rw [hperm.mem_iff, GoMap.mem_keys_iff]
  change d₁.mark a = _
  rw [hmark]
  split
  · obtain ⟨k, hk⟩ := hmem.mp ‹_›
    rw [hk]
    rfl
  · rename_i hno
    cases hk : wm.lookup a with
    | none => rfl
    | some k => exact absurd (hmem.mpr ⟨k, hk⟩) hno

/-- Watermarks never decrease. -/
theorem mark_mono {s t : Pair} {a : Act} (hb : s.Bounds) (hs : s.Step a t) (x : Int) :
    s.dag.mark x ≤ t.dag.mark x := by
  cases hs with
  | @dag order m rest d pc _ hop hord hm =>
    by_cases hgc : ∃ wm r, m = .gcReq wm r
    · obtain ⟨wm, r, rfl⟩ := hgc
      rw [show ({ s with dag := d, dagPc := pc, opCh := rest } : Pair).dag.mark x = d.mark x
          from rfl,
        mark_gc hord hm x]
      cases hk : wm.lookup x with
      | none => exact le_rfl
      | some k =>
        obtain ⟨_, _, hlt, _⟩ := hb.gc wm r (hop ▸ List.mem_cons_self ..) x k hk
        exact le_of_lt hlt
    · exact le_of_eq ((grows_handle hm fun wm r he => hgc ⟨wm, r, he⟩).mark x).symm
  | _ => exact le_rfl

/-- A watermark map in flight stays there until the dag installs it. -/
theorem Flying.step {s t : Pair} {a : Act} {wm : GoMap Int Int} (hs : s.Step a t)
    (h : s.Flying wm) : t.Flying wm ∨ ∀ x, t.dag.mark x = (wm.lookup x).getD (s.dag.mark x) := by
  cases hs with
  | send req =>
    rcases h with he | ⟨r, hmem⟩
    · exact Or.inl (Or.inl he)
    · exact Or.inl (Or.inr ⟨r, List.mem_append_left _ hmem⟩)
  | @dag order m rest d pc _ hop hord hm =>
    rcases h with ⟨req, todo, he⟩ | ⟨r, hmem⟩
    · exact Or.inl (Or.inl ⟨req, todo, he⟩)
    · rw [hop, List.mem_cons] at hmem
      rcases hmem with rfl | hmem
      · exact Or.inr (mark_gc hord hm)
      · exact Or.inl (Or.inr ⟨r, hmem⟩)
  | crash | submit | refResp => exact Or.inl h
  | reply _ hcom | take hcom _ | skip hcom _ _ | process hcom | nothing hcom _ _
  | finish hcom _ _ _ _ =>
    rcases h with ⟨req, todo, he⟩ | hmem
    · rw [hcom] at he
      cases he
    · exact Or.inl (Or.inr hmem)
  | pull hcom _ _ =>
    rcases h with ⟨req, todo, he⟩ | ⟨r, hmem⟩
    · rw [hcom] at he
      cases he
    · exact Or.inl (Or.inr ⟨r, List.mem_append_left _ hmem⟩)
  | exec hcom =>
    rcases h with ⟨req, todo, he⟩ | hmem
    · rw [hcom] at he
      cases he
      exact Or.inl (Or.inl ⟨_, _, rfl⟩)
    · exact Or.inl (Or.inr hmem)
  | @gc req wm' hcom =>
    rcases h with ⟨req', todo, he⟩ | ⟨r, hmem⟩
    · rw [hcom] at he
      cases he
      exact Or.inl (Or.inr ⟨req.round, List.mem_append_right _ (List.mem_singleton.mpr rfl)⟩)
    · exact Or.inl (Or.inr ⟨r, List.mem_append_left _ hmem⟩)

/-- What is covered stays covered. -/
theorem Covered.step {s t : Pair} {a : Act} {sl : Slot} (hb : s.Bounds) (hs : s.Step a t)
    (h : s.Covered sl) : t.Covered sl := by
  rcases h with hle | ⟨wm, k, hfly, hk, hle⟩
  · exact Or.inl (le_trans hle (mark_mono hb hs _))
  · rcases hfly.step hs with hfly | hmark
    · exact Or.inr ⟨wm, k, hfly, hk, hle⟩
    · refine Or.inl ?_
      rw [hmark, hk]
      exact hle

/-- The order of a commit has none of the slots executed before. -/
theorem Once.finish {s : Pair} {c : CommitState} {slots : List Slot} (hsh : s.Shape)
    (hb : s.Bounds) (h : s.Once) (hcom : s.com = .pulling c) (hp : c.pulled.keys ≠ [])
    (hslots : slots.Perm c.pulled.keys) (rounds : List Int) :
    ((s.executed ++ c.execOrder rounds).map (·.header.slot)).Nodup := by
  have hlow : ∀ b ∈ s.executed, b.header.slot.height ≤ s.dag.mark b.header.slot.author := by
    intro b hmem
    rcases h.covered b hmem with hle | ⟨wm, _, hfly, _⟩
    · exact hle
    · exact absurd hfly (hsh.pulling_clear hcom hp wm)
  have hpull : ∀ sl b, c.pulled.lookup sl = some b → b.header.slot = sl ∧ s.dag.Held sl :=
    fun sl b hb' => hb.pulled sl b (by rw [hcom]; exact hb')
  have hold := h.nodup
  rw [hcom] at hold
  simp only [Commitor.todo, List.append_nil] at hold
  rw [List.map_append, List.nodup_append]
  refine ⟨hold, nodup_commitRounds fun sl b hb' => (hpull sl b hb').1, ?_⟩
  intro x hx y hy heq
  subst y
  obtain ⟨b, hbe, rfl⟩ := List.mem_map.mp hx
  obtain ⟨b', hbt, hslot⟩ := List.mem_map.mp hy
  obtain ⟨_, _, hlt, _⟩ := (hpull _ _ ((hb.finish hcom hslots rounds).2 b' hbt).1).2
  have hle := hlow b hbe
  rw [← hslot] at hle
  omega

private theorem once_step {s t : Pair} {a : Act} (hsh : s.Shape) (hb : s.Bounds) (h : s.Once)
    (hs : s.Step a t) : t.Once := by
  have hcov : ∀ sl, s.Covered sl → t.Covered sl := fun sl hsl => hsl.step hb hs
  cases hs with
  | send | crash | dag | submit | refResp => exact h.frame hcov rfl rfl
  | reply _ hcom | take hcom _ | skip hcom _ _ | pull hcom _ _ | process hcom | nothing hcom _ _
  | gc hcom => exact h.frame hcov rfl (by rw [hcom]; rfl)
  | @finish c slots rounds hcom _ hp hslots _ =>
    have hnodup := h.finish hsh hb hcom hp hslots rounds
    exact ⟨fun b hmem => hcov _ (h.covered b hmem), hnodup⟩
  | @exec req b todo wm hcom =>
    constructor
    · intro b' hmem
      rcases List.mem_append.mp hmem with hmem | hmem
      · exact hcov _ (h.covered b' hmem)
      · rw [List.mem_singleton] at hmem
        subst b'
        obtain ⟨_, htodo⟩ := hb.executing _ _ _ hcom
        obtain ⟨k, hk, hle⟩ := htodo b (List.mem_cons_self ..)
        exact Or.inr ⟨wm, k, Or.inl ⟨_, _, rfl⟩, hk, hle⟩
    · have hold := h.nodup
      rw [hcom] at hold
      simpa [Commitor.todo] using hold

/-! ## Reachable states -/

/-- The dag keeps its identity and one line per member. -/
structure Fixed (i : Int) (c : Committee) (s : Pair) : Prop where
  nodeID : s.dag.nodeID = i
  committee : s.dag.committee = c
  lines : s.dag.cache.length = c.size

private theorem cleanLines_length {wm : GoMap Int Int} {ids : List Int} {d d' : Dag}
    (h : Dag.cleanLines wm ids d = some d') : d'.cache.length = d.cache.length := by
  induction ids generalizing d with
  | nil =>
    cases h
    rfl
  | cons id ids ih =>
    obtain ⟨d₁, h₁, h⟩ := Option.bind_eq_some_iff.mp h
    rw [ih h]
    unfold Dag.cleanLine at h₁
    obtain ⟨l, _, h₁⟩ := Option.bind_eq_some_iff.mp h₁
    dsimp only at h₁
    split at h₁
    · cases h₁
      rfl
    · split at h₁
      · cases h₁
        exact List.length_set ..
      · cases h₁

/-- No request changes the node, the committee or the number of lines. -/
theorem Fixed.handle {d d' : Dag} {order : List Int} {m : OpMsg} {pc : DagPc}
    (hm : d.handle order m = some (d', pc)) : d'.nodeID = d.nodeID ∧
      d'.committee = d.committee ∧ d'.cache.length = d.cache.length := by
  cases m with
  | core req =>
    cases req with
    | propose block =>
      rcases Dag.handleBlockPushReq_cases hm with ⟨_, rfl, _⟩ | ⟨_, l, hl, rfl, _⟩
      · exact ⟨rfl, rfl, rfl⟩
      · exact ⟨rfl, rfl, List.length_set ..⟩
    | refReq round =>
      obtain ⟨rfl, _⟩ := Dag.handleRefReq_dag hm
      exact ⟨rfl, rfl, rfl⟩
    | commitReq req =>
      obtain ⟨p, rfl, _⟩ := Dag.handleCommitReq_cases hm
      exact ⟨rfl, rfl, rfl⟩
  | blockPullReq sl ch =>
    rcases Dag.handleBlockPullReq_cases hm with
      ⟨_, rfl, _⟩ | ⟨_, _, _, ⟨_, _, rfl, _⟩ | ⟨_, rfl, _⟩⟩ <;> exact ⟨rfl, rfl, rfl⟩
  | gcReq wm r =>
    obtain ⟨_, p, d₁, _, hclean, rfl⟩ := Dag.handleCleanReq_cases hm
    have hl := cleanLines_length hclean
    exact ⟨rfl, rfl, hl⟩

/-- All layers together. -/
structure Inv (i : Int) (c : Committee) (s : Pair) : Prop where
  fixed : s.Fixed i c
  dagSide : s.DagSide
  shape : s.Shape
  bounds : s.Bounds
  once : s.Once

/-- The invariants hold at the start. -/
theorem inv_init (i : Int) (c : Committee) : (init i c).Inv i c where
  fixed := ⟨rfl, rfl, List.length_replicate ..⟩
  dagSide := dagSide_init i c
  shape := shape_init i c
  bounds := bounds_init i c
  once := once_init i c

/-- Every step keeps them. -/
theorem Inv.step {i : Int} {c : Committee} {s t : Pair} {a : Act} (h : s.Inv i c)
    (hs : s.step a = some t) : t.Inv i c := by
  obtain ⟨_, hst⟩ := step_cases hs
  refine ⟨?_, dagSide_step h.dagSide hst, shape_step h.dagSide h.shape hst,
    bounds_step h.dagSide h.shape h.bounds hst, once_step h.shape h.bounds h.once hst⟩
  cases hst with
  | dag _ _ _ hm =>
    obtain ⟨hn, hc, hl⟩ := Fixed.handle hm
    exact ⟨hn.trans h.fixed.nodeID, hc.trans h.fixed.committee, hl.trans h.fixed.lines⟩
  | _ => exact ⟨h.fixed.nodeID, h.fixed.committee, h.fixed.lines⟩

/-- A panic of another goroutine stops the pair as it is. -/
theorem Inv.crash {i : Int} {c : Committee} {s : Pair} (h : s.Inv i c) :
    ({ s with crashed := true } : Pair).Inv i c where
  fixed := ⟨h.fixed.nodeID, h.fixed.committee, h.fixed.lines⟩
  dagSide := ⟨h.dagSide.cache, h.dagSide.pending, h.dagSide.reply, h.dagSide.queued⟩
  shape := h.shape
  bounds := ⟨h.bounds.pulled, h.bounds.received, h.bounds.executing, h.bounds.gc⟩
  once := ⟨h.once.covered, h.once.nodup⟩

/-- The invariant holds in every reachable state. -/
theorem Reaches.inv {i : Int} {c : Committee} {acts : List Act} {s : Pair}
    (h : Reaches i c acts s) : s.Inv i c :=
  Machine.invariant (fun _ _ _ hi hs => hi.step hs) (inv_init i c) h

/-- **At-most-once execution.** In no run is a slot passed to `exec` twice. -/
theorem executed_nodup {i : Int} {c : Committee} {acts : List Act} {s : Pair}
    (h : Reaches i c acts s) : (s.executed.map (·.header.slot)).Nodup := by
  have hn := h.inv.once.nodup
  rw [List.map_append, List.nodup_append] at hn
  exact hn.1

/-- A committee of four for concrete runs. -/
def fourMembers : Committee := ⟨List.replicate 4 (List.replicate 32 0)⟩

/-- A block whose author has been in one round since height `0` and that refers to its
parent only. -/
def plainBlock (round a h : Int) : Block :=
  ⟨⟨⟨a, h⟩, round, 0⟩, ⟨-1, []⟩, if h = 0 then [] else [⟨⟨a, h - 1⟩, round, 0⟩], []⟩

/-- Three blocks of member `1`, its election for round `0`, and the commit that follows. -/
def commitRun : List Act :=
  [.send (.propose (plainBlock 0 1 1)), .send (.propose (plainBlock 0 1 3)),
    .send (.propose (plainBlock 0 1 2)), .send (.commitReq ⟨1, 0⟩), .dag [], .dag [], .dag [],
    .dag [], .submit, .take, .pull, .dag [], .reply, .process, .pull, .dag [],
    .send (.propose (plainBlock 0 1 0)), .send (.propose (plainBlock 0 1 0)), .dag [], .reply,
    .process, .finish [⟨1, 0⟩, ⟨1, 1⟩] [0], .exec, .exec, .gc]

/-- Two blocks of one author are executed, each once. -/
theorem executed_nodup_commitRun : ∃ s, Reaches 0 fourMembers commitRun s ∧
    s.executed.map (·.header.slot) = [⟨1, 0⟩, ⟨1, 1⟩] ∧
    (s.executed.map (·.header.slot)).Nodup := by
  obtain ⟨s, hs, he⟩ : ∃ s ∈ Machine.run step (init 0 fourMembers) commitRun,
      s.executed.map (·.header.slot) = [⟨1, 0⟩, ⟨1, 1⟩] := by decide +kernel
  exact ⟨s, hs, he, executed_nodup hs⟩

/-! ## The representation of the cache -/

private theorem refOf_isSome {l : List (Option Block)} (h : l.getLast? ≠ some none) (round : Int) :
    (Dag.refOf round l).isSome := by
  unfold Dag.refOf
  split
  · rfl
  · exact absurd ‹_› h
  · rfl

private theorem mapM_isSome {α β : Type} {f : α → Option β} {l : List α}
    (h : ∀ x ∈ l, (f x).isSome) : ∃ ys, l.mapM f = some ys := by
  induction l with
  | nil => exact ⟨[], rfl⟩
  | cons x l ih =>
    obtain ⟨y, hy⟩ := Option.isSome_iff_exists.mp (h x (List.mem_cons_self ..))
    obtain ⟨ys, hys⟩ := ih fun z hz => h z (List.mem_cons_of_mem _ hz)
    exact ⟨y :: ys, by simp [List.mapM_cons, hy, hys]⟩

/-- With well-ended lines a reference request of a member is answered. -/
theorem handleRefReq_isSome {i : Int} {c : Committee} {s : Pair} (h : s.Inv i c)
    (hi : i ∈ c.ids) (round : Int) : ∃ d pc, s.dag.handleRefReq round = some (d, pc) := by
  have hline : ∀ (k : Nat) (l : List (Option Block)), s.dag.cache[k]? = some l →
      s.dag.line k = some l := by
    intro k l hk
    simpa [Dag.line] using hk
  have hall : ∀ l ∈ s.dag.cache, (Dag.refOf round l).isSome := by
    intro l hl
    obtain ⟨k, hk, rfl⟩ := List.getElem_of_mem hl
    exact refOf_isSome (h.dagSide.cache.last k _ (hline k _ (List.getElem?_eq_getElem hk))) round
  obtain ⟨refs, hrefs⟩ := mapM_isSome hall
  have hown : ∃ l, s.dag.line s.dag.nodeID = some l := by
    rw [h.fixed.nodeID]
    rw [Committee.mem_ids] at hi
    have hlt : i.toNat < s.dag.cache.length := by
      rw [h.fixed.lines]
      omega
    refine ⟨s.dag.cache[i.toNat], ?_⟩
    rw [Dag.line, if_pos hi.1, List.getElem?_eq_getElem hlt]
  obtain ⟨l, hl⟩ := hown
  simp only [Dag.handleRefReq, hrefs, Option.bind_eq_bind, Option.bind_some, hl]
  split
  · split
    · exact ⟨_, _, rfl⟩
    · exact absurd ‹_› (h.dagSide.cache.last _ _ hl)
    · exact ⟨_, _, rfl⟩
  · exact ⟨_, _, rfl⟩

/-- **Cache representation.** In every reachable state: every block is stored at the
index of its slot; every non-empty line ends in a block, so a reference request is
answered without a nil dereference; a garbage collection about to be handled fits the
lines, in whatever order its keys are visited, and no watermark ever decreases; every
block sent as a reply is the block of the slot that was pulled, and only slots above
the watermark are registered as pending. -/
theorem cache_representation {i : Int} {c : Committee} {acts : List Act} {s : Pair}
    (h : Reaches i c acts s) :
    (∀ a l (k : Nat) b, s.dag.line a = some l → l[k]? = some (some b) →
      b.header.slot = ⟨a, s.dag.mark a + 1 + k⟩) ∧
    ((∀ a l, s.dag.line a = some l → l ≠ [] → ∃ b, l.getLast? = some (some b)) ∧
      (i ∈ c.ids → ∀ round, s.dag.handleRefReq round ≠ none)) ∧
    ((∀ wm r rest, s.opCh = .gcReq wm r :: rest →
        (∀ id k, wm.lookup id = some k → ∃ l, s.dag.line id = some l ∧
          s.dag.mark id < k ∧ k ≤ s.dag.mark id + l.length) ∧
        ∀ order, order.Perm wm.keys → Dag.cleanLines wm order s.dag ≠ none) ∧
      ∀ a t, s.step a = some t → ∀ id, s.dag.mark id ≤ t.dag.mark id) ∧
    ((∀ ch b, s.dagPc = .reply ch (some b) → s.pulls[ch]? = some b.header.slot) ∧
      ∀ sl ch, s.dag.pending.lookup sl = some ch → s.dag.mark sl.author < sl.height) := by
  have hi := h.inv
  refine ⟨hi.dagSide.cache.slot, ⟨?_, ?_⟩, ⟨?_, ?_⟩, ?_, hi.dagSide.cache.pending⟩
  · intro a l hl hne
    cases hlast : l.getLast? with
    | none => exact absurd (List.getLast?_eq_none_iff.mp hlast) hne
    | some o =>
      cases o with
      | none => exact absurd hlast (hi.dagSide.cache.last a l hl)
      | some b => exact ⟨b, rfl⟩
  · intro hmem round hnone
    obtain ⟨d, pc, hd⟩ := handleRefReq_isSome hi hmem round
    rw [hnone] at hd
    cases hd
  · intro wm r rest hop
    have hheld : s.dag.WmHeld wm := hi.bounds.gc wm r (hop ▸ List.mem_cons_self ..)
    refine ⟨hheld, ?_⟩
    intro order hperm hnone
    obtain ⟨d, hd⟩ := hheld.cleanLines hperm
    rw [hnone] at hd
    cases hd
  · intro a t ht
    exact mark_mono hi.bounds (step_cases ht).2
  · intro ch b hb
    obtain ⟨sl, hsl, hblk⟩ := hi.dagSide.reply ch _ hb
    rw [(hblk b rfl).1]
    exact hsl

/-- Four blocks lie at their places, and a request for references does not panic. -/
theorem cache_representation_commitRun : ∃ s, Reaches 0 fourMembers commitRun s ∧
    s.dag.line 1 = some ((List.range 4).map fun k => some (plainBlock 0 1 k)) ∧
    s.dag.handleRefReq 0 ≠ none := by
  obtain ⟨s, hs, hl⟩ : ∃ s ∈ Machine.run step (init 0 fourMembers) commitRun,
      s.dag.line 1 = some ((List.range 4).map fun k => some (plainBlock 0 1 k)) := by decide +kernel
  exact ⟨s, hs, hl, (cache_representation hs).2.1.2 (by decide) 0⟩

end Loom.Pair
