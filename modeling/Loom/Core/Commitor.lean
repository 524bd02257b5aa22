import Loom.Core.Dag
import Loom.Prelude.Traversal
import Mathlib.Data.List.Sort

/-!
# The commitor goroutine

`commit2` pulls the uncommitted history of an anchor block by block, then orders
it anchor by anchor. The pull loop talks to the dag, so its local variables are a
state of their own, advanced by one reply at a time. What follows the loop is a
pure computation on the pulled blocks. The iteration orders of the Go maps are
arguments.
-/

namespace Loom

open Traversal

/-- The local variables of `commit2` during its pull loop. -/
structure CommitState where
  req : SubmitReq
  q : List Slot
  /-- Highest safe-to-commit block for each uncommitted leader. -/
  anchors : GoMap Int Slot
  pulled : GoMap Slot Block

/-- The loop starts from the submitted anchor. -/
def CommitState.start (req : SubmitReq) : CommitState where
  req := req
  q := [req.slot]
  anchors := (∅ : GoMap Int Slot).insert req.round req.slot
  pulled := ∅

/-- Take a leader block as the anchor of its round if it is the highest so far. -/
def updateAnchor (uncommitted : GoMap Int Int) (anchors : GoMap Int Slot) (b : Header) :
    GoMap Int Slot :=
  match uncommitted.lookup b.round with
  | none => anchors
  | some leader =>
    if b.slot.author = leader ∧ 1 ≤ goSub b.slot.height b.firstRefH then
      match anchors.lookup b.round with
      | none => anchors.insert b.round b.slot
      | some old =>
        if old.height < b.slot.height then anchors.insert b.round b.slot else anchors
    else anchors

/-- One turn of the loop after the reply for `head`; a nil reply marks a committed slot. -/
def CommitState.receive (uncommitted : GoMap Int Int) (c : CommitState) (head : Slot) :
    Option Block → CommitState
  | none => c
  | some cur =>
    { c with
      q := c.q ++ cur.refSlots
      anchors := updateAnchor uncommitted c.anchors cur.header
      pulled := c.pulled.insert head cur }

/-- The highest pulled height of each author. -/
def newWatermark (order : List Slot) : GoMap Int Int :=
  order.foldl (fun wm b =>
    match wm.lookup b.author with
    | none => wm.insert b.author b.height
    | some h => if h < b.height then wm.insert b.author b.height else wm) ∅

/-- The comparison of `sort.Slice`: by author with the leader last, then by height. -/
def less (leader : Int) (s₁ s₂ : Slot) : Bool :=
  if s₁.author = s₂.author then decide (s₁.height < s₂.height)
  else if s₁.author = leader then false
  else if s₂.author = leader then true
  else decide (s₁.author < s₂.author)

/-- `s₂` does not come before `s₁`. -/
def NotAfter (leader : Int) (s₁ s₂ : Slot) : Prop := less leader s₂ s₁ = false

instance (leader : Int) : DecidableRel (NotAfter leader) :=
  fun s₁ s₂ => inferInstanceAs (Decidable (less leader s₂ s₁ = false))

/-- The pulled blocks as a graph. -/
def refsOf (pulled : GoMap Slot Block) (s : Slot) : Option (List Slot) :=
  (pulled.lookup s).map Block.refSlots

/-- The slots that `commitAnchor` collects from an anchor, in execution order. -/
def orderedFrom (anchor : Slot) (pulled : GoMap Slot Block) : List Slot :=
  (traverse (refsOf pulled) (enough (refsOf pulled) pulled.keys) [anchor] []).insertionSort
    (NotAfter anchor.author)

/-- Execute the history of an anchor and remove it from `pulled`. No slot is
collected twice, so the deletions do not interfere with the reads. -/
def commitAnchor (anchor : Slot) (pulled : GoMap Slot Block) : List Block × GoMap Slot Block :=
  let ordered := orderedFrom anchor pulled
  (ordered.filterMap fun s => pulled.lookup s, GoMap.eraseAll pulled ordered)

/-- Execute the anchors of a list of rounds one after the other. -/
def commitRounds (anchors : GoMap Int Slot) : List Int → GoMap Slot Block → List Block
  | [], _ => []
  | r :: rs, pulled =>
    match anchors.lookup r with
    | none => commitRounds anchors rs pulled
    | some anchor =>
      (commitAnchor anchor pulled).1 ++ commitRounds anchors rs (commitAnchor anchor pulled).2

/-- All blocks that a finished pull loop executes; `rounds` lists the keys of `anchors`. -/
def CommitState.execOrder (c : CommitState) (rounds : List Int) : List Block :=
  commitRounds c.anchors (rounds.insertionSort (· ≤ ·)) c.pulled

/-- Where the goroutine stands. -/
inductive Commitor where
  | idle
  | pulling (c : CommitState)
  | waiting (c : CommitState) (head : Slot) (ch : Nat)
  | received (c : CommitState) (head : Slot) (reply : Option Block)
  | executing (req : SubmitReq) (todo : List Block) (wm : GoMap Int Int)

/-! ## The execution order -/

/-- The comparison separates any two slots. -/
theorem less_trichotomy (leader : Int) (s t : Slot) :
    less leader s t = true ∨ s = t ∨ less leader t s = true := by
  rcases s with ⟨a, h⟩
  rcases t with ⟨b, k⟩
  simp only [less, Slot.mk.injEq]
  by_cases hab : a = b
  · subst b
    simp only [ite_true, decide_eq_true_eq, true_and]
    omega
  · simp only [hab, Ne.symm hab, ite_false, false_and, false_or]
    by_cases ha : a = leader <;> by_cases hb : b = leader <;>
      simp_all only [ite_true, ite_false, decide_eq_true_eq, Bool.false_eq_true, or_true,
        not_true_eq_false, or_false]
    omega

/-- No slot comes before itself. -/
theorem less_irrefl (leader : Int) (s : Slot) : less leader s s = false := by
  simp [less]

private theorem less_trans {leader : Int} {s t u : Slot} (h : less leader s t = true)
    (h' : less leader t u = true) : less leader s u = true := by
  rcases s with ⟨a, ha⟩
  rcases t with ⟨b, hb⟩
  rcases u with ⟨c, hc⟩
  simp only [less] at h h' ⊢
  split_ifs at h h' ⊢ <;> simp_all only [decide_eq_true_eq, not_true_eq_false] <;> omega

/-- Of two slots at most one comes before the other. -/
theorem less_asymm {leader : Int} {s t : Slot} (h : less leader s t = true) :
    less leader t s = false := by
  by_contra hc
  have hss := less_trans h (by simpa using hc)
  rw [less_irrefl] at hss
  cases hss

instance (leader : Int) : Std.Total (NotAfter leader) where
  total s t := by
    rcases less_trichotomy leader s t with h | h | h
    · exact Or.inl (less_asymm h)
    · subst h
      exact Or.inl (less_irrefl leader s)
    · exact Or.inr (less_asymm h)

instance (leader : Int) : IsTrans Slot (NotAfter leader) where
  trans s t u hst htu := by
    by_contra hc
    have hus : less leader u s = true := by simpa [NotAfter] using hc
    rcases less_trichotomy leader t u with h | h | h
    · have hts := less_trans h hus
      simp [NotAfter, hts] at hst
    · subst h
      simp [NotAfter, hus] at hst
    · simp [NotAfter, h] at htu

instance (leader : Int) : Std.Antisymm (NotAfter leader) where
  antisymm s t hst hts := by
    rcases less_trichotomy leader s t with h | h | h
    · simp [NotAfter, h] at hts
    · exact h
    · simp [NotAfter, h] at hst

/-- The references of a slot are known exactly for the pulled blocks. -/
theorem refsOf_isSome {pulled : GoMap Slot Block} {s : Slot} :
    (refsOf pulled s).isSome ↔ s ∈ pulled.keys := by
  rw [refsOf, Option.isSome_map, AList.lookup_isSome, AList.mem_keys]

/-- `commitAnchor` collects exactly what is reachable inside `pulled`. -/
theorem mem_orderedFrom {anchor s : Slot} {pulled : GoMap Slot Block} :
    s ∈ orderedFrom anchor pulled ↔ Reach (refsOf pulled) anchor s := by
  rw [orderedFrom, List.mem_insertionSort]
  exact mem_traverse_iff (fun x hx => refsOf_isSome.mp hx) s

/-- No slot is ordered twice. -/
theorem nodup_orderedFrom (anchor : Slot) (pulled : GoMap Slot Block) :
    (orderedFrom anchor pulled).Nodup :=
  (List.perm_insertionSort _ _).nodup_iff.mpr (traverse_nodup _ _ _ List.nodup_nil)

/-- The slots come in the order of `less`. -/
theorem pairwise_orderedFrom (anchor : Slot) (pulled : GoMap Slot Block) :
    (orderedFrom anchor pulled).Pairwise (NotAfter anchor.author) :=
  List.pairwise_insertionSort _ _

/-- The execution order is determined by the set of collected slots. -/
theorem orderedFrom_eq {anchor : Slot} {pulled : GoMap Slot Block} {l : List Slot}
    (hn : l.Nodup) (hs : l.Pairwise (NotAfter anchor.author))
    (hm : ∀ s, s ∈ l ↔ Reach (refsOf pulled) anchor s) : orderedFrom anchor pulled = l := by
  refine List.Perm.eq_of_pairwise' (pairwise_orderedFrom anchor pulled) hs ?_
  rw [List.perm_ext_iff_of_nodup (nodup_orderedFrom anchor pulled) hn]
  intro s
  rw [mem_orderedFrom, hm]

end Loom
