import Loom.Pair.Commit

/-!
# The traversals on arbitrary maps

Both loops of the commitor work through a queue that may grow by duplicates at each turn. On
any finite map of slots to blocks, with whatever references the blocks have, they end, and
they collect the mapped slots that are reachable through mapped slots.
-/

namespace Loom

open Traversal

/-- The loop of `commitAnchor` before the sorting; `none` if the fuel is used up. -/
def collect (pulled : GoMap Slot Block) :
    Nat → List Slot → GoMap Slot Bool → List Slot → Option (List Slot)
  | 0, _, _, _ => none
  | _ + 1, [], _, ordered => some ordered
  | fuel + 1, head :: q, visited, ordered =>
    match pulled.lookup head with
    | none => collect pulled fuel q visited ordered
    | some cur =>
      if (visited.lookup head).getD false then collect pulled fuel q visited ordered
      else collect pulled fuel (q ++ cur.refSlots) (visited.insert head true) (ordered ++ [head])

variable {pulled : GoMap Slot Block}

/-- With enough fuel the loop is the traversal of the graph of the map. -/
theorem collect_eq_traverse : ∀ {fuel : Nat} {q : List Slot} {visited : GoMap Slot Bool}
    {ordered : List Slot}, (∀ s, (visited.lookup s).getD false = true ↔ s ∈ ordered) →
    measure (refsOf pulled) pulled.keys q ordered < fuel →
    collect pulled fuel q visited ordered = some (traverse (refsOf pulled) fuel q ordered) := by
  intro fuel
  induction fuel with
  | zero => intro q visited ordered _ hm; omega
  | succ fuel ih =>
    intro q visited ordered hvisited hm
    cases q with
    | nil => rfl
    | cons head q =>
      have hpop : measure (refsOf pulled) pulled.keys q ordered < fuel := by
        rw [measure_cons] at hm
        omega
      cases hcur : pulled.lookup head with
      | none =>
        have hrefs : refsOf pulled head = none := by rw [refsOf, hcur, Option.map_none]
        simp only [collect, hcur, Traversal.traverse, hrefs]
        exact ih hvisited hpop
      | some cur =>
        have hrefs : refsOf pulled head = some cur.refSlots := by
          rw [refsOf, hcur, Option.map_some]
        simp only [collect, hcur, Traversal.traverse, hrefs]
        by_cases hseen : head ∈ ordered
        · rw [if_pos hseen, if_pos ((hvisited head).mpr hseen)]
          exact ih hvisited hpop
        · rw [if_neg hseen, if_neg (fun h => hseen ((hvisited head).mp h))]
          have hmem : head ∈ pulled.keys := refsOf_isSome.mp (by rw [hrefs]; rfl)
          have hless := measure_visit (q := q) hmem hrefs hseen
          apply ih
          · intro s
            rw [GoMap.lookup_insert_ite, List.mem_append, List.mem_singleton]
            by_cases hs : s = head
            · simp [hs]
            · simp [hs, hvisited s]
          · omega

/-- More fuel does not change the result. -/
theorem collect_mono {ordered' : List Slot} : ∀ {fuel : Nat} {q : List Slot}
    {visited : GoMap Slot Bool} {ordered : List Slot} (extra : Nat),
    collect pulled fuel q visited ordered = some ordered' →
    collect pulled (fuel + extra) q visited ordered = some ordered' := by
  intro fuel
  induction fuel with
  | zero => intro q visited ordered extra h; cases h
  | succ fuel ih =>
    intro q visited ordered extra h
    rw [Nat.succ_add]
    cases q with
    | nil => exact h
    | cons head q =>
      simp only [collect] at h ⊢
      split at h
      · exact ih extra h
      · split at h
        · rename_i hseen
          rw [if_pos hseen]
          exact ih extra h
        · rename_i hseen
          rw [if_neg hseen]
          exact ih extra h

/-- The loop of `commitAnchor` ends with the reachable slots, in some order without
repetition, and `orderedFrom` is what sorting makes of them. -/
theorem collect_reaches (pulled : GoMap Slot Block) (anchor : Slot) :
    ∃ enough ordered, (∀ extra, collect pulled (enough + extra) [anchor] ∅ [] = some ordered) ∧
      ordered.Nodup ∧ (∀ s, s ∈ ordered ↔ Reach (refsOf pulled) anchor s) ∧
      orderedFrom anchor pulled = ordered.insertionSort (NotAfter anchor.author) := by
  have hrun : collect pulled (enough (refsOf pulled) pulled.keys) [anchor] ∅ [] =
      some (traverse (refsOf pulled) (enough (refsOf pulled) pulled.keys) [anchor] []) := by
    apply collect_eq_traverse
    · intro s
      simp
    · simp [Traversal.measure, enough]
  refine ⟨_, _, fun extra => collect_mono extra hrun, traverse_nodup _ _ _ List.nodup_nil, ?_, rfl⟩
  exact mem_traverse_iff fun s hs => refsOf_isSome.mp hs

/-- The invariant of the pull loop on a map: its turns are those of a traversal, and what it has
pulled is from the map. -/
structure Fetching (blocks : GoMap Slot Block) (root : Slot) (c : CommitState) : Prop where
  frontier : Frontier (refsOf blocks) root c.q c.pulled.keys
  pulled : ∀ s b, c.pulled.lookup s = some b → blocks.lookup s = some b

variable {blocks : GoMap Slot Block} {root : Slot} {c : CommitState} {head : Slot} {q : List Slot}

/-- A slot that is pulled already or not in the map. -/
theorem Fetching.skip (h : Fetching blocks root c) (hq : c.q = head :: q)
    (hhead : head ∈ c.pulled.keys ∨ blocks.lookup head = none) :
    Fetching blocks root { c with q := q } := by
  refine ⟨?_, h.pulled⟩
  have hfrontier := h.frontier
  rw [hq] at hfrontier
  rcases hhead with hhead | hnone
  · exact hfrontier.skip hhead
  · apply hfrontier.outside
    rw [refsOf, hnone, Option.map_none]

/-- A block is pulled. -/
theorem Fetching.receive {b : Block} (h : Fetching blocks root c) (hq : c.q = head :: q)
    (hb : blocks.lookup head = some b) (un : GoMap Int Int) :
    Fetching blocks root (CommitState.receive un { c with q := q } head (some b)) := by
  have hfrontier := h.frontier
  rw [hq] at hfrontier
  refine ⟨?_, fun s b' hs => ?_⟩
  · apply hfrontier.visit
    · rw [refsOf, hb, Option.map_some]
    · exact GoMap.mem_keys_insert c.pulled head b
  · change (c.pulled.insert head b).lookup s = some b' at hs
    rw [GoMap.lookup_insert_ite] at hs
    split at hs
    · subst s
      exact hb.trans hs
    · exact h.pulled s b' hs

/-- The pull loop ends with the blocks of the reachable slots, if the pulls are answered from
a map. -/
theorem pullLoop_reaches (blocks : GoMap Slot Block) (un : GoMap Int Int) (req : SubmitReq) :
    ∃ enough c,
      (∀ extra, pullLoop un (fun s => some (blocks.lookup s)) (enough + extra) (.start req) =
        some c) ∧
      c.q = [] ∧ c.pulled.keys.Nodup ∧
      (∀ s, s ∈ c.pulled.keys ↔ Reach (refsOf blocks) req.slot s) ∧
      ∀ s b, c.pulled.lookup s = some b → blocks.lookup s = some b := by
  obtain ⟨c, hc, hfetching, hq⟩ : ∃ c, pullLoop un (fun s => some (blocks.lookup s))
      (Traversal.measure (refsBy fun s => blocks.lookup s) blocks.keys [req.slot] [] + 1)
      (.start req) = some c ∧ Fetching blocks req.slot c ∧ c.q = [] := by
    refine pullLoop_rule (fun s => blocks.lookup s) ?_ ?_ ?_ ?_ _ _ ?_ (Nat.lt_succ_self _)
    · intro s hs
      exact (AList.lookup_isSome.mp hs : s ∈ blocks)
    · intro c head q _ _
      rfl
    · intro c head q h hq hhead
      exact h.skip hq hhead
    · intro c head q b h hq _ hb
      exact h.receive hq hb un
    · refine ⟨Frontier.init req.slot, fun s b hs => ?_⟩
      simp [CommitState.start] at hs
  refine ⟨_, c, fun extra => pullLoop_mono (Nat.le_add_right _ extra) hc, hq,
    c.pulled.keys_nodup, ?_, hfetching.pulled⟩
  have hfrontier := hfetching.frontier
  rw [hq] at hfrontier
  exact hfrontier.done

/-- **The traversals end and compute reachability**, on any map of slots to blocks, with
repeated and dangling references, cycles and references of a block to itself. The loop of
`commitAnchor` and the pull loop of `commit2`, with pulls answered from the map, return from
some amount of fuel on the same result: each mapped slot that can be reached from the start
through mapped slots, once, and nothing else. -/
theorem traversals_reach (blocks : GoMap Slot Block) (anchor : Slot) (un : GoMap Int Int)
    (req : SubmitReq) :
    (∃ enough ordered,
      (∀ extra, collect blocks (enough + extra) [anchor] ∅ [] = some ordered) ∧
      ordered.Nodup ∧ (∀ s, s ∈ ordered ↔ Reach (refsOf blocks) anchor s) ∧
      orderedFrom anchor blocks = ordered.insertionSort (NotAfter anchor.author)) ∧
    ∃ enough c,
      (∀ extra, pullLoop un (fun s => some (blocks.lookup s)) (enough + extra) (.start req) =
        some c) ∧
      c.q = [] ∧ c.pulled.keys.Nodup ∧
      (∀ s, s ∈ c.pulled.keys ↔ Reach (refsOf blocks) req.slot s) ∧
      ∀ s b, c.pulled.lookup s = some b → blocks.lookup s = some b :=
  ⟨collect_reaches blocks anchor, pullLoop_reaches blocks un req⟩

end Loom
