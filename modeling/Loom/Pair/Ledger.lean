import Loom.Pair.Order

/-!
# The ledger

What a commit is meant to do, without channels, queues or a cache. A universe assigns
at most one block to each slot. A commit gathers everything reachable from its anchor
above the watermarks, picks the highest leader block of each round, executes the
histories of these anchors round by round and raises the watermarks to what was
gathered. A ledger is a sequence of commits. The order of headers inside a block and
the order in which slots are visited do not enter, and the ledger is determined by its
universe and its leaders.
-/

namespace Loom

open Traversal

/-- The slots above the watermarks `m`, each with the references of its block. -/
def graph (blk : Slot → Option Block) (m : Int → Int) (s : Slot) : Option (List Slot) :=
  if m s.author < s.height then (blk s).map Block.refSlots else none

/-- The block is one of its round's leader, not the first of that round. -/
def Leads (u : Slot → Option Int) (b : Block) : Prop :=
  u b.header.slot = some b.header.slot.author ∧ 1 ≤ goSub b.header.slot.height b.header.firstRefH

/-- The anchors found among the pulled blocks, starting from the anchors `base` when the
slots in `old` had been pulled. `u` tells which leader was read for the block of a slot. -/
structure AnchorsOf (u : Slot → Option Int) (base : GoMap Int Slot) (old : List Slot)
    (pulled : GoMap Slot Block) (anchors : GoMap Int Slot) : Prop where
  mem : ∀ r s, anchors.lookup r = some s → base.lookup r = some s ∨
    ∃ b, s ∉ old ∧ pulled.lookup s = some b ∧ b.header.round = r ∧ Leads u b
  high : ∀ s b, pulled.lookup s = some b → s ∉ old → Leads u b →
    ∃ a, anchors.lookup b.header.round = some a ∧ s.height ≤ a.height
  base : ∀ r a, base.lookup r = some a →
    ∃ a', anchors.lookup r = some a' ∧ (a' = a ∨ a.height < a'.height)

/-- The anchors of a pull loop before its first reply. -/
def startAnchors (req : SubmitReq) : GoMap Int Slot := (CommitState.start req).anchors

/-- What a pull loop has gathered when it ends. -/
structure Gathered (blk : Slot → Option Block) (m : Int → Int) (u : Slot → Option Int)
    (base : GoMap Int Slot) (old : List Slot) (req : SubmitReq) (pulled : GoMap Slot Block)
    (anchors : GoMap Int Slot) : Prop where
  keys : ∀ s, s ∈ pulled.keys ↔ Reach (graph blk m) req.slot s
  blocks : ∀ s b, pulled.lookup s = some b → blk s = some b ∧ b.header.slot = s
  anchors : AnchorsOf u base old pulled anchors

/-- The slots executed for the gathered blocks, in order. -/
def executedSlots (pulled : GoMap Slot Block) (anchors : GoMap Int Slot) : List Slot :=
  (commitRounds anchors (anchors.keys.insertionSort (· ≤ ·)) pulled).map (·.header.slot)

/-- The watermarks after the gathered blocks. -/
def raise (m : Int → Int) (pulled : GoMap Slot Block) (a : Int) : Int :=
  ((newWatermark pulled.keys).lookup a).getD (m a)

/-- Where a ledger starts: requests taken, commits made, slots executed and watermarks,
and possibly a pull loop that is already running. -/
structure Origin where
  taken : List SubmitReq
  commits : List SubmitReq
  out : List Slot
  marks : Int → Int
  resumed : Option CommitState

/-- The anchors and pulled slots with which the commit after `ts` starts. -/
def Origin.base (o : Origin) (ts : List SubmitReq) (req : SubmitReq) : GoMap Int Slot × List Slot :=
  match o.resumed with
  | some c => if ts = o.taken then (c.anchors, c.pulled.keys) else (startAnchors req, [])
  | none => (startAnchors req, [])

/-- The condition on the leaders that commits read: requests taken so far, the current
one last, commits made before it, a round, and the leader read for that round. -/
abbrev Reading := List SubmitReq → List SubmitReq → Int → Option Int → Prop

/-- The commits of a run: requests taken, commits that gathered something, executed
slots, watermarks. -/
inductive Ledger (blk : Slot → Option Block) (R : Reading) (o : Origin) :
    List SubmitReq → List SubmitReq → List Slot → (Int → Int) → Prop
  | origin : Ledger blk R o o.taken o.commits o.out o.marks
  | nothing {ts cs out m req} : Ledger blk R o ts cs out m → graph blk m req.slot = none →
      Ledger blk R o (ts ++ [req]) cs out m
  | commit {ts cs out m req u pulled anchors} : Ledger blk R o ts cs out m →
      Gathered blk m u (o.base ts req).1 (o.base ts req).2 req pulled anchors →
      (graph blk m req.slot).isSome →
      (∀ s b, pulled.lookup s = some b → s ∉ (o.base ts req).2 →
        R (ts ++ [req]) cs b.header.round (u s)) →
      Ledger blk R o (ts ++ [req]) (cs ++ [req]) (out ++ executedSlots pulled anchors)
        (raise m pulled)

/-! ## One turn of the pull loop -/

/-- The anchors before the first reply. -/
theorem AnchorsOf.refl (u : Slot → Option Int) (base : GoMap Int Slot)
    (pulled : GoMap Slot Block) : AnchorsOf u base pulled.keys pulled base where
  mem _ _ h := Or.inl h
  high _ b h hs _ := absurd ((GoMap.mem_keys_iff _ _).mpr ⟨b, h⟩) hs
  base _ a h := ⟨a, h, Or.inl rfl⟩

/-- The effect of `updateAnchor` on one round. -/
theorem lookup_updateAnchor (un : GoMap Int Int) (anchors : GoMap Int Slot) (b : Header) (r : Int) :
    (updateAnchor un anchors b).lookup r =
      if r = b.round ∧ un.lookup b.round = some b.slot.author ∧
        1 ≤ goSub b.slot.height b.firstRefH ∧
        (∀ old, anchors.lookup b.round = some old → old.height < b.slot.height) then some b.slot
      else anchors.lookup r := by
  unfold updateAnchor
  cases hl : un.lookup b.round with
  | none => simp
  | some leader =>
    by_cases hb : b.slot.author = leader ∧ 1 ≤ goSub b.slot.height b.firstRefH
    · obtain ⟨rfl, hh⟩ := hb
      cases ha : anchors.lookup b.round with
      | none => simp [hh, GoMap.lookup_insert_ite]
      | some old =>
        by_cases hlt : old.height < b.slot.height
        · simp [hh, hlt, GoMap.lookup_insert_ite]
        · simp [hh, hlt]
    · have hno : ¬ (r = b.round ∧ leader = b.slot.author ∧ 1 ≤ goSub b.slot.height b.firstRefH ∧
          ∀ old, anchors.lookup b.round = some old → old.height < b.slot.height) := by
        rintro ⟨_, rfl, hh, _⟩
        exact hb ⟨rfl, hh⟩
      simp only [hb, ite_false, Option.some.injEq, hno]

/-- A reply for a new slot: the leader read for its block extends the reading. -/
theorem AnchorsOf.receive {u : Slot → Option Int} {base anchors : GoMap Int Slot}
    {old : List Slot} {pulled : GoMap Slot Block} (h : AnchorsOf u base old pulled anchors)
    {head : Slot} {b : Block} (hnew : head ∉ pulled.keys) (hold : head ∉ old)
    (hb : b.header.slot = head) (hkeyed : Keyed pulled) (un : GoMap Int Int) :
    AnchorsOf (Function.update u head (un.lookup b.header.round)) base old
      (pulled.insert head b) (updateAnchor un anchors b.header) := by
  have hother : ∀ s b', pulled.lookup s = some b' → s ≠ head := by
    rintro s b' hs rfl
    exact hnew ((GoMap.mem_keys_iff _ _).mpr ⟨b', hs⟩)
  have hleads : ∀ s b', pulled.lookup s = some b' →
      (Leads (Function.update u head (un.lookup b.header.round)) b' ↔ Leads u b') := by
    intro s b' hs
    have hne := hother s b' hs
    rw [← hkeyed s b' hs] at hne
    simp only [Leads, Function.update_of_ne hne]
  have hself : Leads (Function.update u head (un.lookup b.header.round)) b ↔
      un.lookup b.header.round = some b.header.slot.author ∧
        1 ≤ goSub b.header.slot.height b.header.firstRefH := by
    simp only [Leads, hb, Function.update_self]
  refine ⟨?_, ?_, ?_⟩
  · intro r s hs
    rw [lookup_updateAnchor] at hs
    split at hs
    · rename_i hc
      obtain ⟨rfl, hl, hh, _⟩ := hc
      cases hs
      rw [hb]
      exact Or.inr ⟨b, hold, by rw [GoMap.lookup_insert_ite, if_pos rfl], rfl, hself.mpr ⟨hl, hh⟩⟩
    · rcases h.mem r s hs with hbase | ⟨b', ho, hp, hr, hl⟩
      · exact Or.inl hbase
      · refine Or.inr ⟨b', ho, ?_, hr, (hleads s b' hp).mpr hl⟩
        rw [GoMap.lookup_insert_ite, if_neg (hother s b' hp)]
        exact hp
  · intro s b' hs ho hl
    rw [GoMap.lookup_insert_ite] at hs
    rw [lookup_updateAnchor]
    split at hs
    · subst s
      cases hs
      obtain ⟨hun, hh⟩ := hself.mp hl
      by_cases hall : ∀ old, anchors.lookup b.header.round = some old →
          old.height < b.header.slot.height
      · exact ⟨_, if_pos ⟨rfl, hun, hh, hall⟩, by rw [hb]⟩
      · simp only [not_forall] at hall
        obtain ⟨a, ha, hle⟩ := hall
        refine ⟨a, ?_, by rw [← hb]; omega⟩
        rw [if_neg fun hc => hle (hc.2.2.2 a ha)]
        exact ha
    · obtain ⟨a, ha, hle⟩ := h.high s b' hs ho ((hleads s b' hs).mp hl)
      split
      · rename_i hc
        have hlt := hc.2.2.2 a (hc.1 ▸ ha)
        exact ⟨_, rfl, by omega⟩
      · exact ⟨a, ha, hle⟩
  · intro r a ha
    obtain ⟨a', ha', hcmp⟩ := h.base r a ha
    rw [lookup_updateAnchor]
    split
    · rename_i hc
      have hlt := hc.2.2.2 a' (hc.1 ▸ ha')
      refine ⟨_, rfl, Or.inr ?_⟩
      rcases hcmp with rfl | hcmp <;> omega
    · exact ⟨a', ha', hcmp⟩

/-! ## A ledger is determined by its blocks and leaders -/

/-- The same block up to the order of its references. -/
def SameBlock (b₁ b₂ : Block) : Prop := b₁.header = b₂.header ∧ b₁.ref.Perm b₂.ref

/-- The same blocks, slot by slot. -/
def SameBlocks (blk₁ blk₂ : Slot → Option Block) : Prop :=
  ∀ s, Option.Rel SameBlock (blk₁ s) (blk₂ s)

/-- The same block refers to the same slots. -/
theorem SameBlock.refSlots {b₁ b₂ : Block} (h : SameBlock b₁ b₂) (s : Slot) :
    s ∈ b₁.refSlots ↔ s ∈ b₂.refSlots := (h.2.map _).mem_iff

/-- The order of the two does not matter. -/
theorem SameBlock.symm {b₁ b₂ : Block} (h : SameBlock b₁ b₂) : SameBlock b₂ b₁ :=
  ⟨h.1.symm, h.2.symm⟩

/-- A block is the same as itself. -/
theorem SameBlock.refl (b : Block) : SameBlock b b := ⟨rfl, List.Perm.refl _⟩

/-- The order of the two does not matter. -/
theorem SameBlocks.symm {blk₁ blk₂ : Slot → Option Block} (h : SameBlocks blk₁ blk₂) :
    SameBlocks blk₂ blk₁ := by
  intro s
  have hs := h s
  generalize blk₁ s = o₁, blk₂ s = o₂ at hs
  cases hs with
  | some hb => exact .some hb.symm
  | none => exact .none

/-- Blocks are the same as themselves. -/
theorem SameBlocks.refl (blk : Slot → Option Block) : SameBlocks blk blk := by
  intro s
  cases blk s with
  | some b => exact .some (SameBlock.refl b)
  | none => exact .none

/-- A block of one side has the same block on the other. -/
theorem SameBlocks.exists {blk₁ blk₂ : Slot → Option Block} (h : SameBlocks blk₁ blk₂) {s : Slot}
    {b : Block} (hb : blk₁ s = some b) : ∃ b', blk₂ s = some b' ∧ SameBlock b b' := by
  have hs := h s
  rw [hb] at hs
  generalize blk₂ s = o at hs
  cases hs with
  | some hsame => exact ⟨_, rfl, hsame⟩

/-- The universe of a list of blocks. -/
def universeOf (bs : List Block) (s : Slot) : Option Block :=
  bs.find? fun b => decide (b.header.slot = s)

/-- Lists of the same blocks in the same order. -/
theorem sameBlocks_universeOf {bs₁ bs₂ : List Block} (h : List.Forall₂ SameBlock bs₁ bs₂) :
    SameBlocks (universeOf bs₁) (universeOf bs₂) := by
  intro s
  induction h with
  | nil => exact .none
  | @cons b₁ b₂ _ _ hb _ ih =>
    by_cases hs : b₁.header.slot = s
    · have hs' : b₂.header.slot = s := by rw [← hb.1, hs]
      simp only [universeOf, List.find?_cons, hs, hs', decide_true]
      exact .some hb
    · have hs' : b₂.header.slot ≠ s := by rw [← hb.1]; exact hs
      simp only [universeOf, List.find?_cons, hs, hs', decide_false]
      exact ih

/-- The same blocks span the same graph. -/
theorem SameBlocks.graph {blk₁ blk₂ : Slot → Option Block} (h : SameBlocks blk₁ blk₂)
    (m : Int → Int) (x : Slot) (ys : List Slot) (hx : graph blk₁ m x = some ys) :
    ∃ zs, graph blk₂ m x = some zs ∧ ∀ y, y ∈ ys ↔ y ∈ zs := by
  unfold Loom.graph at hx ⊢
  split at hx
  · rename_i hlt
    obtain ⟨b, hb, rfl⟩ := Option.map_eq_some_iff.mp hx
    obtain ⟨b', hb', hsame⟩ := h.exists hb
    exact ⟨b'.refSlots, by rw [if_pos hlt, hb']; rfl, hsame.refSlots⟩
  · cases hx

private theorem SameBlocks.graph_isSome {blk₁ blk₂ : Slot → Option Block} (h : SameBlocks blk₁ blk₂)
    {m : Int → Int} {x : Slot} (hx : (Loom.graph blk₁ m x).isSome) :
    (Loom.graph blk₂ m x).isSome := by
  obtain ⟨ys, hys⟩ := Option.isSome_iff_exists.mp hx
  obtain ⟨zs, hzs, _⟩ := h.graph m x ys hys
  exact Option.isSome_iff_exists.mpr ⟨zs, hzs⟩

/-- Two collections of pulled blocks that agree up to the order of references execute the
same slots. -/
theorem commitRounds_slots_congr {anchors₁ anchors₂ : GoMap Int Slot} {rs : List Int}
    (ha : ∀ r ∈ rs, anchors₁.lookup r = anchors₂.lookup r) :
    ∀ {p₁ p₂ : GoMap Slot Block}, Keyed p₁ → Keyed p₂ →
      SameBlocks (fun s => p₁.lookup s) (fun s => p₂.lookup s) →
      (commitRounds anchors₁ rs p₁).map (·.header.slot) =
        (commitRounds anchors₂ rs p₂).map (·.header.slot) := by
  induction rs with
  | nil => intros; rfl
  | cons r rs ih =>
    intro p₁ p₂ hk₁ hk₂ hsame
    have hrest := @ih fun r' hr' => ha r' (List.mem_cons_of_mem _ hr')
    simp only [commitRounds, ha r (List.mem_cons_self ..)]
    cases anchors₂.lookup r with
    | none => exact hrest hk₁ hk₂ hsame
    | some anchor =>
      have hrefs : ∀ {q₁ q₂ : GoMap Slot Block},
          SameBlocks (fun s => q₁.lookup s) (fun s => q₂.lookup s) →
          ∀ x ys, refsOf q₁ x = some ys → ∃ zs, refsOf q₂ x = some zs ∧ ∀ y, y ∈ ys ↔ y ∈ zs := by
        intro q₁ q₂ hq x ys hx
        obtain ⟨b, hb, rfl⟩ := Option.map_eq_some_iff.mp hx
        obtain ⟨b', hb', hsb⟩ := hq.exists hb
        exact ⟨b'.refSlots, by rw [refsOf, hb']; rfl, hsb.refSlots⟩
      have hord : orderedFrom anchor p₁ = orderedFrom anchor p₂ := by
        refine orderedFrom_eq (nodup_orderedFrom _ _) (pairwise_orderedFrom _ _) fun s => ?_
        rw [mem_orderedFrom]
        exact ⟨Reach.congr (hrefs hsame.symm), Reach.congr (hrefs hsame)⟩
      simp only [List.map_append]
      rw [commitAnchor_slots hk₁, commitAnchor_slots hk₂, hord]
      refine congrArg _ (hrest (hk₁.commitAnchor _) (hk₂.commitAnchor _) fun s => ?_)
      simp only [lookup_commitAnchor, hord]
      split
      · exact .none
      · exact hsame s

/-- Anchors are determined if the leader of a round does not change on the way. -/
theorem AnchorsOf.unique {u₁ u₂ : Slot → Option Int} {base a₁ a₂ : GoMap Int Slot}
    {old : List Slot} {p₁ p₂ : GoMap Slot Block} (h₁ : AnchorsOf u₁ base old p₁ a₁)
    (h₂ : AnchorsOf u₂ base old p₂ a₂)
    (hsame : ∀ s b, p₁.lookup s = some b → s ∉ old → Leads u₁ b →
      ∃ b', p₂.lookup s = some b' ∧ b'.header = b.header ∧ Leads u₂ b')
    (hsame' : ∀ s b, p₂.lookup s = some b → s ∉ old → Leads u₂ b →
      ∃ b', p₁.lookup s = some b' ∧ b'.header = b.header ∧ Leads u₁ b')
    (hone : ∀ s s' b b', p₁.lookup s = some b → p₁.lookup s' = some b' → s ∉ old → s' ∉ old →
      Leads u₁ b → Leads u₁ b' → b.header.round = b'.header.round → s.author = s'.author)
    {r : Int} {s : Slot} (hs : a₁.lookup r = some s) : a₂.lookup r = some s := by
  rcases h₁.mem r s hs with hbase | ⟨b, ho, hp, hr, hl⟩
  · obtain ⟨s', hs', hcmp⟩ := h₂.base r s hbase
    rcases hcmp with rfl | hcmp
    · exact hs'
    · rcases h₂.mem r s' hs' with hbase' | ⟨b', ho', hp', hr', hl'⟩
      · rw [hbase] at hbase'
        cases hbase'
        omega
      · obtain ⟨b'', hp'', hh, hl''⟩ := hsame' s' b' hp' ho' hl'
        obtain ⟨a, ha, hle⟩ := h₁.high s' b'' hp'' ho' hl''
        rw [hh, hr', hs] at ha
        cases ha
        omega
  · obtain ⟨b₂, hp₂, hh₂, hl₂⟩ := hsame s b hp ho hl
    obtain ⟨s', hs', hle⟩ := h₂.high s b₂ hp₂ ho hl₂
    rw [hh₂, hr] at hs'
    rcases h₂.mem r s' hs' with hbase' | ⟨b', ho', hp', hr', hl'⟩
    · obtain ⟨a, ha, hcmp⟩ := h₁.base r s' hbase'
      rw [hs] at ha
      cases ha
      rcases hcmp with rfl | hcmp
      · exact hs'
      · omega
    · obtain ⟨b'', hp'', hh, hl''⟩ := hsame' s' b' hp' ho' hl'
      obtain ⟨a, ha, hle'⟩ := h₁.high s' b'' hp'' ho' hl''
      rw [hh, hr', hs] at ha
      cases ha
      have hauth := hone s s' b b'' hp hp'' ho ho' hl hl'' (by rw [hh, hr, hr'])
      have heq : s = s' := by
        rcases s with ⟨a, k⟩
        rcases s' with ⟨a', k'⟩
        simp only [Slot.mk.injEq] at hle hle' hauth ⊢
        omega
      rw [heq]
      exact hs'

/-- Two maps with the same entries have the same keys in ascending order. -/
theorem insertionSort_keys_congr {a₁ a₂ : GoMap Int Slot}
    (h : ∀ r, a₁.lookup r = a₂.lookup r) :
    a₁.keys.insertionSort (· ≤ ·) = a₂.keys.insertionSort (· ≤ ·) := by
  refine List.Perm.eq_of_pairwise' (List.pairwise_insertionSort _ _)
    (List.pairwise_insertionSort _ _) ?_
  refine (List.perm_insertionSort _ _).trans (List.Perm.trans ?_ (List.perm_insertionSort _ _).symm)
  rw [List.perm_ext_iff_of_nodup a₁.keys_nodup a₂.keys_nodup]
  intro r
  rw [GoMap.mem_keys_iff, GoMap.mem_keys_iff, h]

/-- The watermarks depend on the set of pulled slots only. -/
theorem raise_congr {p₁ p₂ : GoMap Slot Block} (h : ∀ s, s ∈ p₁.keys ↔ s ∈ p₂.keys)
    (m : Int → Int) : raise m p₁ = raise m p₂ := by
  funext a
  have heq : (newWatermark p₁.keys).lookup a = (newWatermark p₂.keys).lookup a := by
    ext k
    simp only [lookup_newWatermark, h]
  rw [raise, raise, heq]

section Unique

variable {blk₁ blk₂ : Slot → Option Block} {m : Int → Int} {u₁ u₂ : Slot → Option Int}
  {base a₁ a₂ : GoMap Int Slot} {old : List Slot} {req : SubmitReq} {p₁ p₂ : GoMap Slot Block}

/-- Two pull loops from the same anchor over the same blocks gather the same blocks. -/
theorem Gathered.sameBlocks (hb : SameBlocks blk₁ blk₂)
    (h₁ : Gathered blk₁ m u₁ base old req p₁ a₁) (h₂ : Gathered blk₂ m u₂ base old req p₂ a₂) :
    SameBlocks (fun s => p₁.lookup s) (fun s => p₂.lookup s) := by
  have hkeys : ∀ s, s ∈ p₁.keys ↔ s ∈ p₂.keys := by
    intro s
    rw [h₁.keys, h₂.keys]
    exact ⟨Reach.congr (hb.graph m), Reach.congr (hb.symm.graph m)⟩
  intro s
  dsimp only
  cases hs₁ : p₁.lookup s with
  | none =>
    cases hs₂ : p₂.lookup s with
    | none => exact .none
    | some b₂ =>
      have hmem := (hkeys s).mpr ((GoMap.mem_keys_iff _ _).mpr ⟨b₂, hs₂⟩)
      rw [GoMap.mem_keys_iff, hs₁] at hmem
      simp at hmem
  | some b₁ =>
    obtain ⟨b₂, hs₂⟩ := (GoMap.mem_keys_iff _ _).mp
      ((hkeys s).mp ((GoMap.mem_keys_iff _ _).mpr ⟨b₁, hs₁⟩))
    obtain ⟨b', hb', hsame⟩ := hb.exists (h₁.blocks s b₁ hs₁).1
    rw [(h₂.blocks s b₂ hs₂).1] at hb'
    cases hb'
    rw [hs₂]
    exact .some hsame

/-- The same leaders are read for the same blocks. -/
theorem Gathered.leads {K : Int → Option Int → Prop} (hK : ∀ r v v', K r v → K r v' → v = v')
    (hp : SameBlocks (fun s => p₁.lookup s) (fun s => p₂.lookup s))
    (h₁ : Gathered blk₁ m u₁ base old req p₁ a₁)
    (hr₁ : ∀ s b, p₁.lookup s = some b → s ∉ old → K b.header.round (u₁ s))
    (hr₂ : ∀ s b, p₂.lookup s = some b → s ∉ old → K b.header.round (u₂ s)) :
    ∀ s b, p₁.lookup s = some b → s ∉ old → Leads u₁ b →
      ∃ b', p₂.lookup s = some b' ∧ b'.header = b.header ∧ Leads u₂ b' := by
  intro s b hs ho hl
  obtain ⟨b', hs', hsame⟩ := hp.exists hs
  refine ⟨b', hs', hsame.1.symm, ?_⟩
  have hread := hK _ _ _ (hr₁ s b hs ho) (hsame.1 ▸ hr₂ s b' hs' ho)
  have hslot := (h₁.blocks s b hs).2
  simp only [Leads, ← hsame.1, hslot] at hl ⊢
  rw [← hread]
  exact hl

/-- What a commit executes and where it leaves the watermarks is determined. -/
theorem Gathered.unique {K : Int → Option Int → Prop} (hK : ∀ r v v', K r v → K r v' → v = v')
    (hb : SameBlocks blk₁ blk₂)
    (h₁ : Gathered blk₁ m u₁ base old req p₁ a₁) (h₂ : Gathered blk₂ m u₂ base old req p₂ a₂)
    (hr₁ : ∀ s b, p₁.lookup s = some b → s ∉ old → K b.header.round (u₁ s))
    (hr₂ : ∀ s b, p₂.lookup s = some b → s ∉ old → K b.header.round (u₂ s)) :
    executedSlots p₁ a₁ = executedSlots p₂ a₂ ∧ raise m p₁ = raise m p₂ := by
  have hp := Gathered.sameBlocks hb h₁ h₂
  have hl₁ := h₁.leads hK hp hr₁ hr₂
  have hl₂ := h₂.leads hK hp.symm hr₂ hr₁
  have hone : ∀ {blk : Slot → Option Block} {u : Slot → Option Int} {p : GoMap Slot Block}
      {a : GoMap Int Slot}, Gathered blk m u base old req p a →
      (∀ s b, p.lookup s = some b → s ∉ old → K b.header.round (u s)) →
      ∀ s s' b b', p.lookup s = some b → p.lookup s' = some b' → s ∉ old → s' ∉ old →
      Leads u b → Leads u b' → b.header.round = b'.header.round → s.author = s'.author := by
    intro blk u p a hg hr s s' b b' hs hs' ho ho' hl hl' hround
    have hread := hK _ _ _ (hr s b hs ho) (hround ▸ hr s' b' hs' ho')
    rw [Leads, (hg.blocks s b hs).2] at hl
    rw [Leads, (hg.blocks s' b' hs').2] at hl'
    rw [hl.1, hl'.1, Option.some.injEq] at hread
    exact hread
  have hanchor : ∀ r, a₁.lookup r = a₂.lookup r := by
    intro r
    ext s
    exact ⟨fun hs => h₁.anchors.unique h₂.anchors hl₁ hl₂ (hone h₁ hr₁) hs,
      fun hs => h₂.anchors.unique h₁.anchors hl₂ hl₁ (hone h₂ hr₂) hs⟩
  constructor
  · rw [executedSlots, executedSlots, insertionSort_keys_congr hanchor]
    exact commitRounds_slots_congr (fun r _ => hanchor r) (fun s b hs => (h₁.blocks s b hs).2)
      (fun s b hs => (h₂.blocks s b hs).2) hp
  · refine raise_congr (fun s => ?_) m
    rw [h₁.keys, h₂.keys]
    exact ⟨Reach.congr (hb.graph m), Reach.congr (hb.symm.graph m)⟩

end Unique

/-- A ledger extends its origin. -/
theorem Ledger.origin_prefix {blk : Slot → Option Block} {R : Reading} {o : Origin}
    {ts cs : List SubmitReq} {out : List Slot} {m : Int → Int} (h : Ledger blk R o ts cs out m) :
    o.taken <+: ts := by
  induction h with
  | origin => exact List.prefix_rfl
  | nothing _ _ ih => exact ih.trans (List.prefix_append _ _)
  | commit _ _ _ _ ih => exact ih.trans (List.prefix_append _ _)

/-- A commit that has begun is not where the ledger starts. -/
theorem Ledger.not_origin {blk : Slot → Option Block} {R : Reading} {o : Origin}
    {ts cs : List SubmitReq} {out : List Slot} {m : Int → Int} {req : SubmitReq}
    (h : Ledger blk R o ts cs out m) : ts ++ [req] ≠ o.taken := by
  intro he
  have hlen := h.origin_prefix.length_le
  rw [← he, List.length_append, List.length_singleton] at hlen
  omega

/-- **A ledger is determined** by its origin and its requests, if the leaders read are. -/
theorem Ledger.unique {blk₁ blk₂ : Slot → Option Block} {R : Reading} {o : Origin}
    (hb : SameBlocks blk₁ blk₂) (hR : ∀ ts cs r v v', R ts cs r v → R ts cs r v' → v = v')
    {ts cs cs' : List SubmitReq} {out out' : List Slot} {m m' : Int → Int}
    (h : Ledger blk₁ R o ts cs out m) (h' : Ledger blk₂ R o ts cs' out' m') :
    cs = cs' ∧ out = out' ∧ m = m' := by
  induction h generalizing cs' out' m' with
  | origin =>
    generalize hts : o.taken = ts at h'
    cases h' with
    | origin => exact ⟨rfl, rfl, rfl⟩
    | nothing h₁ _ => exact absurd hts.symm h₁.not_origin
    | commit h₁ _ _ _ => exact absurd hts.symm h₁.not_origin
  | @nothing ts cs out m req h₀ hnone ih =>
    generalize hts : ts ++ [req] = ts' at h'
    cases h' with
    | origin => exact absurd hts h₀.not_origin
    | nothing h₁ _ =>
      obtain ⟨rfl, hreq⟩ := List.append_inj' hts rfl
      cases hreq
      exact ih h₁
    | commit h₁ _ hsome _ =>
      obtain ⟨rfl, hreq⟩ := List.append_inj' hts rfl
      cases hreq
      obtain ⟨_, _, rfl⟩ := ih h₁
      have hsome' := hb.symm.graph_isSome hsome
      rw [hnone] at hsome'
      cases hsome'
  | @commit ts cs out m req u pulled anchors h₀ hg hsome hr ih =>
    generalize hts : ts ++ [req] = ts' at h'
    cases h' with
    | origin => exact absurd hts h₀.not_origin
    | nothing h₁ hnone =>
      obtain ⟨rfl, hreq⟩ := List.append_inj' hts rfl
      cases hreq
      obtain ⟨_, _, rfl⟩ := ih h₁
      have hsome' := hb.graph_isSome hsome
      rw [hnone] at hsome'
      cases hsome'
    | commit h₁ hg' _ hr' =>
      obtain ⟨rfl, hreq⟩ := List.append_inj' hts rfl
      cases hreq
      obtain ⟨rfl, rfl, rfl⟩ := ih h₁
      obtain ⟨hout, hm⟩ := Gathered.unique (hR _ _) hb hg hg' hr hr'
      exact ⟨rfl, by rw [hout], hm⟩

/-- A longer ledger extends a shorter one. -/
theorem Ledger.out_prefix {blk : Slot → Option Block} {R : Reading} {o : Origin}
    (hR : ∀ ts cs r v v', R ts cs r v → R ts cs r v' → v = v')
    {ts ts' cs cs' : List SubmitReq} {out out' : List Slot} {m m' : Int → Int}
    (h : Ledger blk R o ts cs out m) (h' : Ledger blk R o ts' cs' out' m') (hts : ts <+: ts') :
    out <+: out' := by
  have hsame : ∀ {cs' out' m'}, Ledger blk R o ts cs' out' m' → out <+: out' := by
    intro cs' out' m' h'
    obtain ⟨_, rfl, _⟩ := Ledger.unique (SameBlocks.refl blk) hR h h'
    exact List.prefix_rfl
  have hlast : ∀ {ts' : List SubmitReq} {req : SubmitReq}, ts <+: ts' ++ [req] →
      ts = ts' ++ [req] ∨ ts <+: ts' := by
    intro ts' req hp
    exact (List.prefix_concat_iff.mp hp)
  induction h' with
  | origin =>
    have heq := hts.eq_of_length_le h.origin_prefix.length_le
    subst heq
    exact hsame .origin
  | nothing h₀ hnone ih =>
    rcases hlast hts with rfl | hp
    · exact hsame (.nothing h₀ hnone)
    · exact ih hp
  | commit h₀ hg hsome hr ih =>
    rcases hlast hts with rfl | hp
    · exact hsame (.commit h₀ hg hsome hr)
    · exact (ih hp).trans (List.prefix_append _ _)

end Loom
