import Loom.Core.Commitor
import Mathlib.Data.List.Induction

/-!
# What a finished pull loop executes

Every anchor executes the slots reachable from it among the blocks that earlier
anchors left over, so no slot is executed twice, and the watermark sent to the dag
is the highest pulled height of each author.
-/

namespace Loom

open Traversal

/-- Every pulled block is filed under its own slot. -/
def Keyed (pulled : GoMap Slot Block) : Prop :=
  ∀ s b, pulled.lookup s = some b → b.header.slot = s

/-- Blocks stay under their slots when others are deleted. -/
theorem Keyed.eraseAll {pulled : GoMap Slot Block} (h : Keyed pulled) (ks : List Slot) :
    Keyed (GoMap.eraseAll pulled ks) := by
  intro s b hb
  rw [GoMap.lookup_eraseAll] at hb
  split at hb
  · cases hb
  · exact h s b hb

/-- Collected slots are pulled slots. -/
theorem mem_keys_of_mem_orderedFrom {anchor s : Slot} {pulled : GoMap Slot Block}
    (h : s ∈ orderedFrom anchor pulled) : s ∈ pulled.keys :=
  refsOf_isSome.mp (mem_orderedFrom.mp h).isSome

/-- The slots executed for one anchor are the collected slots in order. -/
theorem commitAnchor_slots {pulled : GoMap Slot Block} (hk : Keyed pulled) (anchor : Slot) :
    (commitAnchor anchor pulled).1.map (·.header.slot) = orderedFrom anchor pulled := by
  have hsome : ∀ s ∈ orderedFrom anchor pulled, ∃ b, pulled.lookup s = some b := fun s hs =>
    (GoMap.mem_keys_iff pulled s).mp (mem_keys_of_mem_orderedFrom hs)
  simp only [commitAnchor]
  generalize orderedFrom anchor pulled = l at hsome
  induction l with
  | nil => rfl
  | cons s l ih =>
    obtain ⟨b, hb⟩ := hsome s (List.mem_cons_self ..)
    rw [List.filterMap_cons, hb]
    simp only [List.map_cons, hk s b hb]
    rw [ih fun t ht => hsome t (List.mem_cons_of_mem _ ht)]

/-- Reading what one anchor leaves over. -/
theorem lookup_commitAnchor (anchor s : Slot) (pulled : GoMap Slot Block) :
    (commitAnchor anchor pulled).2.lookup s =
      if s ∈ orderedFrom anchor pulled then none else pulled.lookup s :=
  GoMap.lookup_eraseAll pulled _ s

/-- Ordering an anchor leaves the rest under its slots. -/
theorem Keyed.commitAnchor {pulled : GoMap Slot Block} (hk : Keyed pulled) (anchor : Slot) :
    Keyed (commitAnchor anchor pulled).2 := hk.eraseAll _

/-- A block executed for one anchor was pulled. -/
theorem lookup_of_mem_commitAnchor {pulled : GoMap Slot Block} (hk : Keyed pulled) {anchor : Slot}
    {b : Block} (h : b ∈ (commitAnchor anchor pulled).1) :
    pulled.lookup b.header.slot = some b := by
  obtain ⟨s, _, hs⟩ := List.mem_filterMap.mp h
  rw [hk s b hs]
  exact hs

/-- Every executed block was pulled. -/
theorem lookup_of_mem_commitRounds {anchors : GoMap Int Slot} {rs : List Int} {b : Block} :
    ∀ {pulled : GoMap Slot Block}, Keyed pulled → b ∈ commitRounds anchors rs pulled →
      pulled.lookup b.header.slot = some b := by
  induction rs with
  | nil => intro pulled _ h; simp [commitRounds] at h
  | cons r rs ih =>
    intro pulled hk h
    simp only [commitRounds] at h
    split at h
    · exact ih hk h
    · rename_i anchor _
      rcases List.mem_append.mp h with h | h
      · exact lookup_of_mem_commitAnchor hk h
      · have hrest := ih (hk.commitAnchor anchor) h
        rw [lookup_commitAnchor] at hrest
        split at hrest
        · cases hrest
        · exact hrest

/-- No slot is executed twice within one commit. -/
theorem nodup_commitRounds {anchors : GoMap Int Slot} {rs : List Int} :
    ∀ {pulled : GoMap Slot Block}, Keyed pulled →
      ((commitRounds anchors rs pulled).map (·.header.slot)).Nodup := by
  induction rs with
  | nil => intro pulled _; simp [commitRounds]
  | cons r rs ih =>
    intro pulled hk
    simp only [commitRounds]
    split
    · exact ih hk
    · rename_i anchor _
      rw [List.map_append, commitAnchor_slots hk, List.nodup_append]
      refine ⟨nodup_orderedFrom anchor pulled, ih (hk.commitAnchor anchor), ?_⟩
      intro s hs t ht heq
      subst t
      obtain ⟨b, hb, rfl⟩ := List.mem_map.mp ht
      have hrest := lookup_of_mem_commitRounds (hk.commitAnchor anchor) hb
      rw [lookup_commitAnchor, if_pos hs] at hrest
      cases hrest

/-! ## Anchoring higher on a chain -/

/-- The blocks of `leader` from height `low` to `high` are pulled, and each one above `low`
references its parent and nothing else. -/
def PlainChain (pulled : GoMap Slot Block) (leader low high : Int) : Prop :=
  ∀ h, low ≤ h → h ≤ high → ∃ b, pulled.lookup ⟨leader, h⟩ = some b ∧
    (low < h → b.refSlots ≠ [] ∧ ∀ s ∈ b.refSlots, s = ⟨leader, h - 1⟩)

/-- The slots of `leader` above `low` up to `high`, in height order. -/
def slotsAbove (leader low high : Int) : List Slot :=
  (List.range (high - low).toNat).map fun k : Nat => ⟨leader, low + 1 + k⟩

private theorem mem_slotsAbove {leader low high : Int} {s : Slot} :
    s ∈ slotsAbove leader low high ↔ s.author = leader ∧ low < s.height ∧ s.height ≤ high := by
  rcases s with ⟨a, h⟩
  simp only [slotsAbove, List.mem_map, List.mem_range, Slot.mk.injEq]
  constructor
  · rintro ⟨k, hk, rfl, rfl⟩
    omega
  · rintro ⟨rfl, hl, hh⟩
    exact ⟨(h - low - 1).toNat, by omega, rfl, by omega⟩

private theorem pairwise_slotsAbove (leader low high : Int) :
    (slotsAbove leader low high).Pairwise fun s t => s.height < t.height := by
  rw [slotsAbove, List.pairwise_map]
  apply List.pairwise_lt_range.imp
  intro i j hij
  simp only
  omega

/-- A plain block adds itself to the history of its parent. -/
theorem reach_plain {pulled : GoMap Slot Block} {a p s : Slot} {b : Block}
    (hb : pulled.lookup a = some b) (hne : b.refSlots ≠ []) (hall : ∀ t ∈ b.refSlots, t = p) :
    Reach (refsOf pulled) a s ↔ s = a ∨ Reach (refsOf pulled) p s := by
  have hrefs : refsOf pulled a = some b.refSlots := by rw [refsOf, hb, Option.map_some]
  rw [Reach.head_iff hrefs]
  apply or_congr_right
  constructor
  · rintro ⟨t, ht, hr⟩
    rw [hall t ht] at hr
    exact hr
  · intro hr
    obtain ⟨t, ht⟩ := List.exists_mem_of_ne_nil _ hne
    exact ⟨t, ht, hall t ht ▸ hr⟩

/-- The history of the upper end of a plain chain. -/
theorem PlainChain.reach {pulled : GoMap Slot Block} {leader low high : Int} {s : Slot}
    (hle : low ≤ high) (hc : PlainChain pulled leader low high) :
    Reach (refsOf pulled) ⟨leader, high⟩ s ↔
      Reach (refsOf pulled) ⟨leader, low⟩ s ∨ s ∈ slotsAbove leader low high := by
  obtain ⟨k, rfl⟩ : ∃ k : Nat, high = low + k := ⟨(high - low).toNat, by omega⟩
  induction k with
  | zero => simp [slotsAbove]
  | succ k ih =>
    have hprev : PlainChain pulled leader low (low + k) :=
      fun h hl hh => hc h hl (by omega)
    obtain ⟨b, hb, hpar⟩ := hc (low + (k + 1 : Nat)) (by omega) le_rfl
    obtain ⟨hne, hall⟩ := hpar (by omega)
    have hparent : low + ((k + 1 : Nat) : Int) - 1 = low + k := by omega
    rw [hparent] at hall
    rw [reach_plain hb hne hall, ih (by omega) hprev, mem_slotsAbove, mem_slotsAbove]
    rcases s with ⟨a, h⟩
    simp only [Slot.mk.injEq]
    constructor
    · rintro (⟨rfl, rfl⟩ | hr | hm)
      · exact Or.inr (by omega)
      · exact Or.inl hr
      · exact Or.inr (by omega)
    · rintro (hr | ⟨rfl, hl, hh⟩)
      · exact Or.inr (Or.inl hr)
      · by_cases htop : h = low + (k + 1 : Nat)
        · exact Or.inl ⟨rfl, htop⟩
        · exact Or.inr (Or.inr (by omega))

/-- A plain chain extends the execution order of its lower end. -/
theorem PlainChain.order_extends {pulled : GoMap Slot Block} {leader low high : Int}
    (hle : low ≤ high) (hc : PlainChain pulled leader low high)
    (htop : ∀ s, Reach (refsOf pulled) ⟨leader, low⟩ s → s.author = leader → s.height ≤ low) :
    orderedFrom ⟨leader, high⟩ pulled =
      orderedFrom ⟨leader, low⟩ pulled ++ slotsAbove leader low high := by
  have hcross : ∀ s ∈ orderedFrom ⟨leader, low⟩ pulled, ∀ t ∈ slotsAbove leader low high,
      less leader s t = true := by
    intro s hs t ht
    obtain ⟨hta, htl, _⟩ := mem_slotsAbove.mp ht
    by_cases ha : s.author = leader
    · have hlow := htop s (mem_orderedFrom.mp hs) ha
      simp only [less, ha, hta, ite_true, decide_eq_true_eq]
      omega
    · simp only [less, hta, ha, ite_false, ite_true]
  apply orderedFrom_eq
  · rw [List.nodup_append]
    refine ⟨nodup_orderedFrom _ _, (pairwise_slotsAbove leader low high).imp ?_, ?_⟩
    · rintro s _ hlt rfl
      omega
    · rintro s hs _ ht rfl
      have hself := hcross s hs s ht
      rw [less_irrefl] at hself
      cases hself
  · rw [List.pairwise_append]
    refine ⟨pairwise_orderedFrom ⟨leader, low⟩ pulled, ?_,
      fun s hs t ht => less_asymm (hcross s hs t ht)⟩
    apply (pairwise_slotsAbove leader low high).imp_of_mem
    intro s t hs ht hlt
    apply less_asymm
    simp only [less, (mem_slotsAbove.mp hs).1, (mem_slotsAbove.mp ht).1, ite_true,
      decide_eq_true_eq]
    exact hlt
  · intro s
    rw [List.mem_append, mem_orderedFrom, hc.reach hle]

/-- **Anchoring higher on a plain chain only extends the order**, by the blocks of the chain. -/
theorem commitAnchor_extends {pulled : GoMap Slot Block} {leader low high : Int}
    (hle : low ≤ high) (hc : PlainChain pulled leader low high)
    (htop : ∀ s, Reach (refsOf pulled) ⟨leader, low⟩ s → s.author = leader → s.height ≤ low) :
    ∃ chain, (commitAnchor ⟨leader, high⟩ pulled).1 =
        (commitAnchor ⟨leader, low⟩ pulled).1 ++ chain ∧
      chain.map some = (slotsAbove leader low high).map fun s => pulled.lookup s := by
  refine ⟨(slotsAbove leader low high).filterMap fun s => pulled.lookup s, ?_, ?_⟩
  · simp only [commitAnchor, hc.order_extends hle htop, List.filterMap_append]
  · have hsome : ∀ s ∈ slotsAbove leader low high, ∃ b, pulled.lookup s = some b := by
      intro s hs
      obtain ⟨rfl, hl, hh⟩ := mem_slotsAbove.mp hs
      obtain ⟨b, hb, _⟩ := hc s.height (by omega) hh
      exact ⟨b, hb⟩
    generalize slotsAbove leader low high = l at hsome
    induction l with
    | nil => rfl
    | cons s l ih =>
      obtain ⟨b, hb⟩ := hsome s (List.mem_cons_self ..)
      simp only [List.filterMap_cons, hb, List.map_cons]
      rw [ih fun t ht => hsome t (List.mem_cons_of_mem _ ht)]

/-- A block without transactions. -/
def bareBlock (author height round firstRefH : Int) (ref : List Slot) : Block :=
  ⟨⟨⟨author, height⟩, round, firstRefH⟩, ⟨0, []⟩, ref.map fun s => ⟨s, 0, 0⟩, []⟩

/-- Three blocks of author 1 on top of a block of author 2. -/
def threeAndOne : GoMap Slot Block :=
  [bareBlock 2 0 0 0 [], bareBlock 1 0 0 0 [⟨2, 0⟩], bareBlock 1 1 0 0 [⟨1, 0⟩],
    bareBlock 1 2 0 0 [⟨1, 1⟩]].foldl (fun m b => m.insert b.header.slot b) ∅

/-- The order up to height `2` extends that up to height `0`. -/
theorem commitAnchor_extends_threeAndOne :
    ∃ chain, (commitAnchor ⟨1, 2⟩ threeAndOne).1 = (commitAnchor ⟨1, 0⟩ threeAndOne).1 ++ chain ∧
      chain.map some = (slotsAbove 1 0 2).map fun s => threeAndOne.lookup s := by
  apply commitAnchor_extends (by decide)
  · intro h hl hh
    obtain rfl | rfl | rfl : h = 0 ∨ h = 1 ∨ h = 2 := by omega
    · exact ⟨bareBlock 1 0 0 0 [⟨2, 0⟩], by decide, by decide⟩
    · exact ⟨bareBlock 1 1 0 0 [⟨1, 0⟩], by decide, by decide⟩
    · exact ⟨bareBlock 1 2 0 0 [⟨1, 1⟩], by decide, by decide⟩
  · have hall : ∀ s ∈ orderedFrom ⟨1, 0⟩ threeAndOne, s.author = 1 → s.height ≤ 0 := by
      decide +kernel
    intro s hs
    exact hall s (mem_orderedFrom.mpr hs)

/-! ## Watermarks -/

/-- One turn of the watermark loop. -/
theorem newWatermark_concat (l : List Slot) (s : Slot) :
    newWatermark (l ++ [s]) =
      match (newWatermark l).lookup s.author with
      | none => (newWatermark l).insert s.author s.height
      | some h => if h < s.height then (newWatermark l).insert s.author s.height
          else newWatermark l := by
  rw [newWatermark, List.foldl_append]
  rfl

/-- The watermarks cover every listed slot. -/
theorem newWatermark_covers {l : List Slot} {s : Slot} (hs : s ∈ l) :
    ∃ h, (newWatermark l).lookup s.author = some h ∧ s.height ≤ h := by
  induction l using List.reverseRecOn with
  | nil => simp at hs
  | append_singleton l t ih =>
    rw [newWatermark_concat]
    rcases List.mem_append.mp hs with hs | hs
    · obtain ⟨h, hh, hle⟩ := ih hs
      split
      · rename_i hnone
        have hne : s.author ≠ t.author := by
          intro he
          rw [he, hnone] at hh
          cases hh
        exact ⟨h, by rw [GoMap.lookup_insert_ite, if_neg hne, hh], hle⟩
      · rename_i k hk
        split
        · rw [GoMap.lookup_insert_ite]
          split
          · rename_i he
            rw [he, hk] at hh
            cases hh
            exact ⟨t.height, rfl, by omega⟩
          · exact ⟨h, hh, hle⟩
        · exact ⟨h, hh, hle⟩
    · rw [List.mem_singleton] at hs
      subst t
      split
      · exact ⟨s.height, by rw [GoMap.lookup_insert_ite, if_pos rfl], le_rfl⟩
      · rename_i k hk
        split
        · exact ⟨s.height, by rw [GoMap.lookup_insert_ite, if_pos rfl], le_rfl⟩
        · exact ⟨k, hk, by omega⟩

/-- Every watermark is the height of a listed slot. -/
theorem newWatermark_attained {l : List Slot} {a h : Int}
    (hl : (newWatermark l).lookup a = some h) : ⟨a, h⟩ ∈ l := by
  induction l using List.reverseRecOn with
  | nil => simp [newWatermark] at hl
  | append_singleton l t ih =>
    have hins : ∀ (hl : ((newWatermark l).insert t.author t.height).lookup a = some h),
        (⟨a, h⟩ : Slot) ∈ l ++ [t] := by
      intro hl
      rw [GoMap.lookup_insert_ite] at hl
      split at hl
      · rename_i ha
        cases hl
        subst a
        exact List.mem_append_right l (List.mem_singleton.mpr rfl)
      · exact List.mem_append_left _ (ih hl)
    rw [newWatermark_concat] at hl
    split at hl
    · exact hins hl
    · split at hl
      · exact hins hl
      · exact List.mem_append_left _ (ih hl)

/-- The watermark of an author is the highest listed height of that author. -/
theorem lookup_newWatermark (l : List Slot) (a h : Int) :
    (newWatermark l).lookup a = some h ↔
      ⟨a, h⟩ ∈ l ∧ ∀ s ∈ l, s.author = a → s.height ≤ h := by
  constructor
  · intro hl
    refine ⟨newWatermark_attained hl, ?_⟩
    intro s hs hsa
    obtain ⟨k, hk, hle⟩ := newWatermark_covers hs
    rw [hsa, hl] at hk
    cases hk
    exact hle
  · rintro ⟨hmem, hmax⟩
    obtain ⟨k, hk, hle⟩ := newWatermark_covers hmem
    have hle' := hmax _ (newWatermark_attained hk) rfl
    rw [hk, Option.some.injEq]
    simp only at hle hle'
    omega

end Loom
