import Loom.Core.Aggregator
import Loom.Prelude.Machine
import Mathlib.Data.List.Perm.Subperm
import Mathlib.Data.Finset.Card

/-!
# Quorums

Each successful `Take` uses up a threshold of authors, so the members of a committee can
complete a quorum only once if two thresholds are more than there are members. Two quorums
of `2f+1` among `3f+1` members have a member in common that is not among any `f` given ones.
-/

namespace Loom

/-- In a committee of `3f+1` the high threshold is `2f+1`. -/
theorem Committee.hightThreshold_eq {c : Committee} {f : Nat} (hn : c.size = 3 * f + 1) :
    c.hightThreshold = 2 * f + 1 := by
  unfold Committee.hightThreshold
  omega

/-- Two quorums of `2f+1` are more than `3f+1` members. -/
theorem Committee.size_lt {c : Committee} {f : Nat} (hn : c.size = 3 * f + 1) :
    c.size < 2 * c.hightThreshold := by
  rw [hightThreshold_eq hn]
  omega

/-- Distinct members are at most as many as the committee has. -/
theorem Committee.length_le {c : Committee} {l : List Int} (hn : l.Nodup)
    (hm : ∀ j ∈ l, j ∈ c.ids) : l.length ≤ c.size := by
  rw [← c.length_ids]
  exact (List.subperm_of_subset hn hm).length_le

/-- What two sets have in common is at least what they have too much. -/
theorem card_add_card_le {α : Type} [DecidableEq α] {u : List α} {x y : Finset α}
    (hx : ∀ a ∈ x, a ∈ u) (hy : ∀ a ∈ y, a ∈ u) :
    x.card + y.card ≤ u.length + (x ∩ y).card := by
  have hunion : (x ∪ y).card ≤ u.length := by
    refine (Finset.card_le_card ?_).trans (List.toFinset_card_le u)
    intro a ha
    rw [Finset.mem_union] at ha
    exact List.mem_toFinset.mpr (ha.elim (hx a) (hy a))
  have hsum := Finset.card_union_add_card_inter x y
  omega

/-- Two quorums share a member outside any set too small for the overlap. -/
theorem exists_common_notMem {α : Type} [DecidableEq α] {u x y z : List α} (hx : x.Nodup)
    (hy : y.Nodup) (hxu : x ⊆ u) (hyu : y ⊆ u)
    (hlen : u.length + z.length < x.length + y.length) : ∃ a ∈ x, a ∈ y ∧ a ∉ z := by
  have hsum := card_add_card_le (x := x.toFinset) (y := y.toFinset)
    (fun a ha => hxu (List.mem_toFinset.mp ha)) (fun a ha => hyu (List.mem_toFinset.mp ha))
  rw [List.toFinset_card_of_nodup hx, List.toFinset_card_of_nodup hy] at hsum
  have hlz := List.toFinset_card_le z
  obtain ⟨a, ha, hno⟩ := Finset.exists_mem_notMem_of_card_lt_card
    (show z.toFinset.card < (x.toFinset ∩ y.toFinset).card by omega)
  rw [Finset.mem_inter, List.mem_toFinset, List.mem_toFinset] at ha
  exact ⟨a, ha.1, ha.2, fun hmem => hno (List.mem_toFinset.mpr hmem)⟩

namespace Aggregator

variable {M : Type} {c : Committee} {ag : Aggregator M}

/-- The authors are distinct members, and the items are those since the last quorum. -/
structure Ok (c : Committee) (ag : Aggregator M) : Prop where
  committee : ag.committee = c
  nodup : ag.used.Nodup
  members : ∀ j ∈ ag.used, j ∈ c.ids
  few : ag.used.length < c.hightThreshold → ag.item.length = ag.used.length
  many : c.hightThreshold ≤ ag.used.length →
    ag.item.length + c.hightThreshold = ag.used.length

/-- A new aggregator is in order. -/
theorem ok_new (c : Committee) : (newAggregator c : Aggregator M).Ok c where
  committee := rfl
  nodup := List.nodup_nil
  members := by simp [newAggregator]
  few _ := rfl
  many h := by
    simp only [newAggregator, List.length_nil, Committee.hightThreshold] at h
    omega

/-- A push adds its author. -/
theorem mem_push_used {author j : Int} {msg : M} :
    j ∈ (ag.push author msg).used ↔ j = author ∨ j ∈ ag.used := by
  unfold push
  split
  · constructor
    · exact Or.inr
    · rintro (rfl | h)
      · assumption
      · exact h
  · simp [or_comm]

/-- Below the threshold `Take` returns nothing. -/
theorem take_of_lt (h : ag.item.length < ag.committee.hightThreshold) : ag.take = (none, ag) :=
  if_neg (by omega)

/-- At the threshold `Take` returns all messages and cuts off a threshold of them. -/
theorem take_of_le (h : ag.committee.hightThreshold ≤ ag.item.length) :
    ag.take = (some ag.item, { ag with item := ag.item.drop ag.committee.hightThreshold }) :=
  if_pos h

/-- A `Take` that returns nothing changes nothing. -/
theorem take_of_none (h : ag.take.1 = none) : ag.take.2 = ag := by
  by_cases hle : ag.committee.hightThreshold ≤ ag.item.length
  · rw [take_of_le hle] at h
    cases h
  · rw [take_of_lt (by omega)]

/-- All messages are handed out, and some may stay. -/
theorem take_items (ag : Aggregator M) :
    (∀ msgs, ag.take.1 = some msgs → msgs = ag.item) ∧ ag.take.2.item ⊆ ag.item := by
  by_cases hle : ag.committee.hightThreshold ≤ ag.item.length
  · rw [take_of_le hle]
    refine ⟨?_, List.drop_subset _ _⟩
    rintro msgs ⟨⟩
    rfl
  · rw [take_of_lt (by omega)]
    exact ⟨by simp, List.Subset.refl _⟩

/-- Adding one message either leaves the quorum as it was and takes nothing, or completes
it for the first time. -/
theorem Ok.push_take (hn : c.size < 2 * c.hightThreshold) (h : ag.Ok c) {author : Int}
    (ha : author ∈ c.ids) (msg : M) :
    ((ag.push author msg).take.1 = none ∧ (ag.push author msg).take.2 = ag.push author msg ∧
      (ag.push author msg).Ok c ∧ (ag.push author msg).used.length ≤ ag.used.length + 1 ∧
      (c.hightThreshold ≤ (ag.push author msg).used.length ↔ c.hightThreshold ≤ ag.used.length)) ∨
    ((∃ msgs, (ag.push author msg).take.1 = some msgs) ∧ ag.used.length < c.hightThreshold ∧
      c.hightThreshold ≤ (ag.push author msg).take.2.used.length ∧
      (ag.push author msg).take.2.Ok c ∧
      (ag.push author msg).take.2.used = (ag.push author msg).used ∧
      (ag.push author msg).used.length = ag.used.length + 1) := by
  by_cases hmem : author ∈ ag.used
  · have hpush : ag.push author msg = ag := if_pos hmem
    have hle := Committee.length_le h.nodup h.members
    have hlow : ag.item.length < c.hightThreshold := by
      by_cases hq : c.hightThreshold ≤ ag.used.length
      · have hmany := h.many hq
        omega
      · have hfew := h.few (by omega)
        omega
    rw [hpush, take_of_lt (h.committee ▸ hlow)]
    exact Or.inl ⟨rfl, rfl, h, by omega, Iff.rfl⟩
  · have hpush : ag.push author msg =
        { ag with used := ag.used ++ [author], item := ag.item ++ [msg] } := if_neg hmem
    generalize ag.push author msg = p at hpush
    have hcom : p.committee = c := by rw [hpush, h.committee]
    have hused : p.used.length = ag.used.length + 1 := by simp [hpush]
    have hitem : p.item.length = ag.item.length + 1 := by simp [hpush]
    have hnodup : p.used.Nodup := by
      rw [hpush, List.nodup_append]
      refine ⟨h.nodup, List.nodup_singleton _, ?_⟩
      rintro x hx y hy rfl
      rw [List.mem_singleton] at hy
      exact hmem (hy ▸ hx)
    have hmembers : ∀ j ∈ p.used, j ∈ c.ids := by
      intro j hj
      rw [hpush] at hj
      rcases List.mem_append.mp hj with hj | hj
      · exact h.members j hj
      · rw [List.mem_singleton] at hj
        exact hj ▸ ha
    have hle := Committee.length_le hnodup hmembers
    have hfew := h.few
    have hmany := h.many
    by_cases hfire : c.hightThreshold ≤ p.item.length
    · rw [take_of_le (hcom ▸ hfire), hcom]
      refine Or.inr ⟨⟨_, rfl⟩, by omega, by dsimp only; omega, ⟨rfl, hnodup, hmembers, ?_, ?_⟩,
        rfl, hused⟩
      · intro hlt
        dsimp only at hlt ⊢
        omega
      · intro _
        rw [List.length_drop]
        dsimp only
        omega
    · rw [take_of_lt (by rw [hcom]; omega)]
      exact Or.inl ⟨rfl, rfl, ⟨hcom, hnodup, hmembers, by omega, by omega⟩, by omega, by omega⟩

/-! ## Sequences of calls -/

/-- A call of one of the two methods. -/
inductive Call (M : Type) where
  | push (author : Int) (msg : M)
  | take
  deriving DecidableEq, Repr

/-- The aggregator after a call. -/
def step (ag : Aggregator M) : Call M → Option (Aggregator M)
  | .push author msg => some (ag.push author msg)
  | .take => some ag.take.2

/-- What a call returns, if it is not nil. -/
def result (ag : Aggregator M) : Call M → Aggregator M → List (List M)
  | .push _ _, _ => []
  | .take, _ => ag.take.1.toList

/-- The non-nil results of a sequence of calls on a new aggregator. -/
def taken (c : Committee) (calls : List (Call M)) : List (List M) :=
  Machine.outputs step result (newAggregator c) calls

/-- After `k` successful calls of `Take`: each has used up a threshold of distinct members,
and the items left are the messages of the others. -/
structure Fired (c : Committee) (R : Int → M → Prop) (k : Nat) (ag : Aggregator M) : Prop where
  committee : ag.committee = c
  nodup : ag.used.Nodup
  members : ∀ j ∈ ag.used, j ∈ c.ids
  spent : k * c.hightThreshold ≤ ag.used.length
  items : List.Forall₂ R (ag.used.drop (k * c.hightThreshold)) ag.item

variable {R : Int → M → Prop} {k : Nat}

/-- A new aggregator has not fired. -/
theorem fired_new (c : Committee) (R : Int → M → Prop) : (newAggregator c).Fired c R 0 where
  committee := rfl
  nodup := List.nodup_nil
  members := by simp [newAggregator]
  spent := by simp
  items := by simp [newAggregator]

/-- The thresholds used up are at most the members. -/
theorem Fired.le_size (h : ag.Fired c R k) : k * c.hightThreshold ≤ c.size :=
  h.spent.trans (Committee.length_le h.nodup h.members)

/-- A push does not fire. -/
theorem Fired.push (h : ag.Fired c R k) {author : Int} {msg : M} (ha : author ∈ c.ids)
    (hR : R author msg) : (ag.push author msg).Fired c R k := by
  unfold Aggregator.push
  split
  · exact h
  · rename_i hnew
    refine ⟨h.committee, ?_, ?_, ?_, ?_⟩
    · apply List.Nodup.append h.nodup (List.nodup_singleton _)
      simpa using hnew
    · intro j hj
      rcases List.mem_append.mp hj with hj | hj
      · exact h.members j hj
      · exact List.mem_singleton.mp hj ▸ ha
    · rw [List.length_append]
      exact h.spent.trans (Nat.le_add_right _ _)
    · dsimp only
      rw [List.drop_append_of_le_length h.spent]
      exact List.rel_append h.items (.cons hR .nil)

/-- Messages of a threshold of distinct members. -/
def FromQuorum (c : Committee) (R : Int → M → Prop) (msgs : List M) : Prop :=
  ∃ authors : List Int, authors.Nodup ∧ (∀ a ∈ authors, a ∈ c.ids) ∧
    c.hightThreshold ≤ authors.length ∧ List.Forall₂ R authors msgs

/-- A successful call returns the messages of a threshold of distinct members. -/
theorem Fired.take (h : ag.Fired c R k) {msgs : List M} (hs : ag.take.1 = some msgs) :
    ag.take.2.Fired c R (k + 1) ∧ FromQuorum c R msgs := by
  have hlen := h.items.length_eq
  rw [List.length_drop] at hlen
  by_cases hle : ag.committee.hightThreshold ≤ ag.item.length
  · rw [take_of_le hle] at hs ⊢
    cases hs
    rw [h.committee] at hle ⊢
    have hsub := List.drop_sublist (k * c.hightThreshold) ag.used
    refine ⟨⟨rfl, h.nodup, h.members, ?_, ?_⟩, _, h.nodup.sublist hsub,
      fun a ha => h.members a (hsub.subset ha), by rw [List.length_drop]; omega, h.items⟩
    · have hspent := h.spent
      dsimp only
      rw [Nat.succ_mul]
      omega
    · dsimp only
      rw [Nat.succ_mul, ← List.drop_drop]
      exact List.forall₂_drop _ h.items
  · rw [take_of_lt (by omega)] at hs
    cases hs

/-- **What a sequence of calls can return.** If the members call `Push`, however often and
in whatever order with calls of `Take`, each non-nil result has the messages of a threshold
of distinct members, and the results use up different members. -/
theorem taken_spec {calls : List (Call M)} (hmem : ∀ a m, .push a m ∈ calls → a ∈ c.ids) :
    (taken c calls).length * c.hightThreshold ≤ c.size ∧
      ∀ msgs ∈ taken c calls, FromQuorum c (fun a m => .push a m ∈ calls) msgs := by
  have htotal : ∀ (ag : Aggregator M) call, ∃ ag', step ag call = some ag' := by
    intro ag call
    cases call <;> exact ⟨_, rfl⟩
  obtain ⟨ag, hrun⟩ := Machine.exists_run htotal (newAggregator c) calls
  suffices hinv : ag.Fired c (fun a m => .push a m ∈ calls) (taken c calls).length ∧
      ∀ msgs ∈ taken c calls, FromQuorum c (fun a m => .push a m ∈ calls) msgs from
    ⟨hinv.1.le_size, hinv.2⟩
  refine Machine.outputs_invariant (P := fun es (ag : Aggregator M) =>
      ag.Fired c (fun a m => .push a m ∈ calls) es.length ∧
      ∀ msgs ∈ es, FromQuorum c (fun a m => .push a m ∈ calls) msgs)
    ⟨fired_new c _, by simp⟩ ?_ (Machine.along_of_forall fun l hl _ => hl) hrun
  · rintro es u l t ⟨hfired, hes⟩ hl hs
    cases l with
    | push a m =>
      cases hs
      rw [result, List.append_nil]
      exact ⟨hfired.push (hmem a m hl) hl, hes⟩
    | take =>
      cases hs
      rw [result]
      cases htake : u.take.1 with
      | none =>
        rw [Option.toList_none, List.append_nil, take_of_none htake]
        exact ⟨hfired, hes⟩
      | some msgs =>
        obtain ⟨hnext, hauthors⟩ := hfired.take htake
        rw [Option.toList_some, List.length_append, List.length_singleton]
        refine ⟨hnext, fun msgs' hmem => ?_⟩
        rcases List.mem_append.mp hmem with hmem | hmem
        · exact hes msgs' hmem
        · exact List.mem_singleton.mp hmem ▸ hauthors

end Aggregator

end Loom
