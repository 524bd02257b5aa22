import Mathlib.Data.List.Nodup
import Mathlib.Algebra.BigOperators.Group.List.Basic
import Mathlib.Algebra.Order.BigOperators.Group.List
import Mathlib.Algebra.Order.Group.Nat
import Mathlib.Algebra.Ring.Nat

/-!
# Work-list traversal of a finite graph

A graph is given by a partial successor function: a vertex without successors
list is not part of it. `traverse` pops a queue, skips vertices that are outside
the graph or already seen, and otherwise records the vertex and queues its
successors. `Frontier` is the loop invariant of every such traversal, also of
one whose steps are interleaved with other work, and `mem_traverse_iff` says
that with enough fuel the vertices recorded are exactly the reachable ones.
-/

namespace Loom.Traversal

variable {α : Type} {succ succ' : α → Option (List α)} {a b x : α} {q seen ys : List α}

/-- Reachability from `a` through vertices of the graph. -/
inductive Reach (succ : α → Option (List α)) (a : α) : α → Prop
  | start : (succ a).isSome → Reach succ a a
  | step {b c : α} {ys : List α} : Reach succ a b → succ b = some ys → c ∈ ys →
      (succ c).isSome → Reach succ a c

/-- Every reached vertex belongs to the graph. -/
theorem Reach.isSome (h : Reach succ a b) : (succ b).isSome := by
  cases h <;> assumption

/-- Something can be reached only from a vertex of the graph. -/
theorem Reach.root (h : Reach succ a b) : (succ a).isSome := by
  induction h with
  | start hs => exact hs
  | step _ _ _ _ ih => exact ih

/-- Reachability composes. -/
theorem Reach.trans {c : α} (h : Reach succ a b) (h' : Reach succ b c) : Reach succ a c := by
  induction h' with
  | start _ => exact h
  | step _ hs hc hm ih => exact ih.step hs hc hm

/-- The first step of a path. -/
theorem Reach.head_iff (hs : succ a = some ys) :
    Reach succ a b ↔ b = a ∨ ∃ y ∈ ys, Reach succ y b := by
  have ha : (succ a).isSome := by rw [hs]; rfl
  constructor
  · intro h
    induction h with
    | start _ => exact Or.inl rfl
    | step _ hz hc hm ih =>
      rcases ih with rfl | ⟨y, hy, hr⟩
      · rw [hs] at hz
        cases hz
        exact Or.inr ⟨_, hc, .start hm⟩
      · exact Or.inr ⟨y, hy, hr.step hz hc hm⟩
  · rintro (rfl | ⟨y, hy, hr⟩)
    · exact .start ha
    · exact ((Reach.start ha).step hs hy hr.root).trans hr

/-- A graph with the same vertices and, vertex by vertex, the same successor set
has the same reachable vertices. -/
theorem Reach.congr (h : ∀ x ys, succ x = some ys → ∃ zs, succ' x = some zs ∧ ∀ y, y ∈ ys ↔ y ∈ zs)
    (hr : Reach succ a b) : Reach succ' a b := by
  have hsome : ∀ x, (succ x).isSome → (succ' x).isSome := by
    intro x hx
    obtain ⟨ys, hys⟩ := Option.isSome_iff_exists.mp hx
    obtain ⟨zs, hzs, _⟩ := h x ys hys
    exact Option.isSome_iff_exists.mpr ⟨zs, hzs⟩
  induction hr with
  | start hs => exact .start (hsome _ hs)
  | step _ hs hc hm ih =>
    obtain ⟨zs, hzs, hmem⟩ := h _ _ hs
    exact ih.step hzs ((hmem _).mp hc) (hsome _ hm)

/-- Only the vertices that are reached matter. -/
theorem Reach.restrict (h : ∀ x, Reach succ a x → succ' x = succ x) (hr : Reach succ a b) :
    Reach succ' a b := by
  induction hr with
  | start hs =>
    refine .start ?_
    rw [h _ (.start hs)]
    exact hs
  | step hb hs hc hm ih =>
    refine ih.step ((h _ hb).trans hs) hc ?_
    rw [h _ (hb.step hs hc hm)]
    exact hm

/-- A path to a vertex outside a closed set avoids the set. -/
theorem Reach.avoid {C : α → Prop} (hout : ∀ x, ¬C x → succ' x = succ x)
    (hclosed : ∀ x ys, C x → succ x = some ys → ∀ y ∈ ys, (succ y).isSome → C y)
    (hr : Reach succ a b) (hb : ¬C b) : Reach succ' a b := by
  induction hr with
  | start hs =>
    refine .start ?_
    rw [hout _ hb]
    exact hs
  | step hr hs hc hm ih =>
    have hprev := fun hC => hb (hclosed _ _ hC hs _ hc hm)
    refine (ih hprev).step ((hout _ hprev).trans hs) hc ?_
    rw [hout _ hb]
    exact hm

/-- The invariant of a traversal from `a`: what is seen is reachable, what is
queued is reachable if it is in the graph, and nothing reachable is forgotten. -/
structure Frontier (succ : α → Option (List α)) (a : α) (q seen : List α) : Prop where
  seen_reach : ∀ x ∈ seen, Reach succ a x
  queue_reach : ∀ x ∈ q, (succ x).isSome → Reach succ a x
  closed : ∀ x ∈ seen, ∀ ys, succ x = some ys → ∀ y ∈ ys, (succ y).isSome → y ∈ seen ∨ y ∈ q
  start : (succ a).isSome → a ∈ seen ∨ a ∈ q

namespace Frontier

/-- A traversal starts with its root queued. -/
theorem init (a : α) : Frontier succ a [a] [] where
  seen_reach := by simp
  queue_reach x hx hs := by
    rw [List.mem_singleton] at hx
    subst x
    exact .start hs
  closed := by simp
  start _ := by simp

/-- Popping a vertex that is already seen. -/
theorem skip (h : Frontier succ a (x :: q) seen) (hx : x ∈ seen) : Frontier succ a q seen where
  seen_reach := h.seen_reach
  queue_reach y hy := h.queue_reach y (List.mem_cons_of_mem x hy)
  closed y hy zs hs z hz hm := by
    rcases h.closed y hy zs hs z hz hm with hmem | hmem
    · exact Or.inl hmem
    · rcases List.mem_cons.mp hmem with rfl | hq
      · exact Or.inl hx
      · exact Or.inr hq
  start hs := by
    rcases h.start hs with hmem | hmem
    · exact Or.inl hmem
    · rcases List.mem_cons.mp hmem with rfl | hq
      · exact Or.inl hx
      · exact Or.inr hq

/-- Popping a vertex outside the graph. -/
theorem outside (h : Frontier succ a (x :: q) seen) (hx : succ x = none) :
    Frontier succ a q seen where
  seen_reach := h.seen_reach
  queue_reach y hy := h.queue_reach y (List.mem_cons_of_mem x hy)
  closed y hy zs hs z hz hm := by
    rcases h.closed y hy zs hs z hz hm with hmem | hmem
    · exact Or.inl hmem
    · rcases List.mem_cons.mp hmem with rfl | hq
      · simp [hx] at hm
      · exact Or.inr hq
  start hs := by
    rcases h.start hs with hmem | hmem
    · exact Or.inl hmem
    · rcases List.mem_cons.mp hmem with rfl | hq
      · simp [hx] at hs
      · exact Or.inr hq

/-- Popping a new vertex: it is recorded, in any position, and its successors queued. -/
theorem visit (h : Frontier succ a (x :: q) seen) (hx : succ x = some ys) {seen' : List α}
    (hseen : ∀ y, y ∈ seen' ↔ y = x ∨ y ∈ seen) : Frontier succ a (q ++ ys) seen' := by
  have hrx : Reach succ a x := h.queue_reach x (List.mem_cons_self ..) (by simp [hx])
  have hpush : ∀ y, y ∈ seen ∨ y ∈ x :: q → y ∈ seen' ∨ y ∈ q ++ ys := by
    intro y hy
    rw [hseen, List.mem_append]
    rcases hy with hy | hy
    · exact Or.inl (Or.inr hy)
    · rcases List.mem_cons.mp hy with rfl | hy
      · exact Or.inl (Or.inl rfl)
      · exact Or.inr (Or.inl hy)
  refine ⟨?_, ?_, ?_, fun hs => hpush a (h.start hs)⟩
  · intro y hy
    rcases (hseen y).mp hy with rfl | hy
    · exact hrx
    · exact h.seen_reach y hy
  · intro y hy hm
    rcases List.mem_append.mp hy with hy | hy
    · exact h.queue_reach y (List.mem_cons_of_mem x hy) hm
    · exact hrx.step hx hy hm
  · intro y hy zs hs z hz hm
    rcases (hseen y).mp hy with rfl | hy
    · rw [hx] at hs
      cases hs
      exact Or.inr (List.mem_append_right q hz)
    · exact hpush z (h.closed y hy zs hs z hz hm)

/-- Once the queue is empty, exactly the reachable vertices are seen. -/
theorem done (h : Frontier succ a [] seen) (x : α) : x ∈ seen ↔ Reach succ a x := by
  refine ⟨h.seen_reach x, fun hr => ?_⟩
  induction hr with
  | start hs => simpa using h.start hs
  | step _ hs hc hm ih => simpa using h.closed _ ih _ hs _ hc hm

end Frontier

section Loop

variable [DecidableEq α]

/-- Work through a queue, recording each vertex of the graph once. -/
def traverse (succ : α → Option (List α)) : Nat → List α → List α → List α
  | 0, _, seen => seen
  | _ + 1, [], seen => seen
  | fuel + 1, x :: q, seen =>
    match succ x with
    | none => traverse succ fuel q seen
    | some ys =>
      if x ∈ seen then traverse succ fuel q seen
      else traverse succ fuel (q ++ ys) (seen ++ [x])

/-- Number of queue entries a vertex can still cause. -/
def weight (succ : α → Option (List α)) (x : α) : Nat := ((succ x).getD []).length

/-- Steps a traversal may still need: what is queued, and what the unseen
vertices of the graph will queue. -/
def measure (succ : α → Option (List α)) (verts q seen : List α) : Nat :=
  q.length + ((verts.filter (· ∉ seen)).map (weight succ)).sum

/-- Recording a vertex pays for the successors it queues. -/
theorem measure_visit {verts : List α} (hmem : x ∈ verts) (hx : succ x = some ys)
    (hns : x ∉ seen) :
    measure succ verts (q ++ ys) (seen ++ [x]) < measure succ verts (x :: q) seen := by
  have hw : weight succ x = ys.length := by simp [weight, hx]
  have hsum : ((verts.filter (· ∉ seen ++ [x])).map (weight succ)).sum + weight succ x ≤
      ((verts.filter (· ∉ seen)).map (weight succ)).sum := by
    induction verts with
    | nil => simp at hmem
    | cons v vs ih =>
      have hmono : ((vs.filter (· ∉ seen ++ [x])).map (weight succ)).sum ≤
          ((vs.filter (· ∉ seen)).map (weight succ)).sum := by
        apply List.Sublist.sum_le_sum
        · apply List.Sublist.map
          apply List.monotone_filter_right
          intro y hy
          simp only [List.mem_append, decide_eq_true_eq, not_or] at hy ⊢
          exact hy.1
        · simp
      by_cases hv : v = x
      · subst v
        simp only [List.filter_cons, List.mem_append, List.mem_singleton, or_true,
          not_true_eq_false, decide_false, Bool.false_eq_true, ite_false, hns,
          not_false_eq_true, decide_true, ite_true, List.map_cons, List.sum_cons]
        simp only [List.mem_append, List.mem_singleton] at hmono
        omega
      · have hvs : x ∈ vs := (List.mem_cons.mp hmem).resolve_left (Ne.symm hv)
        have hrec := ih hvs
        simp only [List.mem_append, List.mem_singleton] at hrec ⊢
        by_cases hvseen : v ∈ seen
        · simp only [List.filter_cons, hvseen, true_or, not_true_eq_false, decide_false,
            Bool.false_eq_true, ite_false]
          exact hrec
        · simp only [List.filter_cons, hvseen, hv, or_self, not_false_eq_true, decide_true,
            ite_true, List.map_cons, List.sum_cons]
          omega
  simp only [measure, List.length_append, List.length_cons]
  omega

/-- Popping a vertex costs one step. -/
theorem measure_cons (verts : List α) :
    measure succ verts (x :: q) seen = measure succ verts q seen + 1 := by
  simp only [measure, List.length_cons]
  omega

/-- The measure depends on the set of seen vertices only. -/
theorem measure_congr {verts seen' : List α} (h : ∀ y, y ∈ seen ↔ y ∈ seen') :
    measure succ verts q seen = measure succ verts q seen' := by
  simp only [measure, h]

/-- With enough fuel the loop ends with an empty queue and keeps its invariant. -/
theorem traverse_frontier {verts : List α} (hverts : ∀ x, (succ x).isSome → x ∈ verts) :
    ∀ (fuel : Nat) (q seen : List α), measure succ verts q seen < fuel →
      Frontier succ a q seen → Frontier succ a [] (traverse succ fuel q seen) := by
  intro fuel
  induction fuel with
  | zero => intro q seen hm; omega
  | succ fuel ih =>
    intro q seen hm hf
    cases q with
    | nil => exact hf
    | cons x q =>
      have hpop : measure succ verts q seen < fuel := by
        rw [measure_cons] at hm
        omega
      cases hx : succ x with
      | none =>
        simp only [traverse, hx]
        exact ih q seen hpop (hf.outside hx)
      | some ys =>
        simp only [traverse, hx]
        by_cases hs : x ∈ seen
        · rw [if_pos hs]
          exact ih q seen hpop (hf.skip hs)
        · rw [if_neg hs]
          have hlt := measure_visit (q := q) (hverts x (by simp [hx])) hx hs
          refine ih _ _ (by omega) (hf.visit hx ?_)
          intro y
          rw [List.mem_append, List.mem_singleton, or_comm]

/-- No vertex is recorded twice. -/
theorem traverse_nodup : ∀ (fuel : Nat) (q seen : List α), seen.Nodup →
    (traverse succ fuel q seen).Nodup := by
  intro fuel
  induction fuel with
  | zero => intro q seen h; exact h
  | succ fuel ih =>
    intro q seen h
    cases q with
    | nil => exact h
    | cons x q =>
      cases hx : succ x with
      | none =>
        simp only [traverse, hx]
        exact ih q seen h
      | some ys =>
        simp only [traverse, hx]
        by_cases hs : x ∈ seen
        · rw [if_pos hs]
          exact ih q seen h
        · rw [if_neg hs]
          apply ih
          rw [List.nodup_append]
          refine ⟨h, List.nodup_singleton x, ?_⟩
          intro y hy z hz heq
          rw [List.mem_singleton] at hz
          subst hz heq
          exact hs hy

/-- Fuel for a traversal of the whole graph from one root. -/
def enough (succ : α → Option (List α)) (verts : List α) : Nat :=
  2 + (verts.map (weight succ)).sum

/-- The traversal records exactly the vertices reachable from its root. -/
theorem mem_traverse_iff {verts : List α} (hverts : ∀ x, (succ x).isSome → x ∈ verts) (x : α) :
    x ∈ traverse succ (enough succ verts) [a] [] ↔ Reach succ a x := by
  refine (traverse_frontier hverts _ _ _ ?_ (Frontier.init a)).done x
  simp [measure, enough]

end Loop

end Loom.Traversal
