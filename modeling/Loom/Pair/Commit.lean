import Loom.Pair.Ledger
import Loom.Pair.State

/-!
# `commit2` as a function

The pair of goroutines interleaves the pull loop of `commit2` with everything else the
dag does. Here the loop runs against fixed answers: nothing for a committed slot, the
block for a slot that is present, and no answer, so no result, for one that is missing.
With enough fuel the loop ends if all it asks for is present, and the blocks it executes
are the histories of its anchors, each without what was executed before.
-/

namespace Loom

open Traversal

/-- The answer to a pull; a pull of a missing block waits. -/
def answer (blk : Slot → Option Block) (m : Int → Int) (s : Slot) : Option (Option Block) :=
  if s.height ≤ m s.author then some none else (blk s).map some

/-- The pull loop; `none` if a pull waits or the fuel is used up. -/
def pullLoop (uncommitted : GoMap Int Int) (pull : Slot → Option (Option Block)) :
    Nat → CommitState → Option CommitState
  | 0, _ => none
  | fuel + 1, c =>
    match c.q with
    | [] => some c
    | head :: q =>
      if head ∈ c.pulled.keys then pullLoop uncommitted pull fuel { c with q := q }
      else (pull head).bind fun reply =>
        pullLoop uncommitted pull fuel
          (CommitState.receive uncommitted { c with q := q } head reply)

/-- What a commit leaves behind: its anchors, the executed blocks and the request to the dag. -/
structure Committed where
  anchors : GoMap Int Slot
  executed : List Block
  gcReq : Option (GoMap Int Int)

/-- The rest of `commit2` after its pull loop; `rounds` lists the keys of `anchors`. -/
def CommitState.conclude (c : CommitState) (rounds : List Int) : Committed :=
  if c.pulled.keys = [] then ⟨c.anchors, [], none⟩
  else ⟨c.anchors, c.execOrder rounds, some (newWatermark c.pulled.keys)⟩

/-- One commit; `order` is the iteration order of the anchor map. -/
def commit2 (uncommitted : GoMap Int Int) (pull : Slot → Option (Option Block))
    (order : List Int → List Int) (fuel : Nat) (req : SubmitReq) : Option Committed :=
  (pullLoop uncommitted pull fuel (.start req)).map fun c => c.conclude (order c.anchors.keys)

/-! ## The specification -/

/-- Every slot above the watermarks that the history of `root` mentions is present. -/
structure Complete (blk : Slot → Option Block) (m : Int → Int) (root : Slot) : Prop where
  start : m root.author < root.height → (blk root).isSome
  refs : ∀ s b t, Reach (graph blk m) root s → blk s = some b → t ∈ b.refSlots →
    m t.author < t.height → (blk t).isSome

/-- A reachable block of round `r` by its leader, not the first of the round. -/
def LeaderBlock (blk : Slot → Option Block) (m : Int → Int) (uncommitted : GoMap Int Int)
    (root : Slot) (r : Int) (s : Slot) : Prop :=
  Reach (graph blk m) root s ∧ ∃ b, blk s = some b ∧ b.header.round = r ∧
    uncommitted.lookup r = some s.author ∧ 1 ≤ goSub s.height b.header.firstRefH

/-- The highest such block. -/
def HighestLeaderBlock (blk : Slot → Option Block) (m : Int → Int) (uncommitted : GoMap Int Int)
    (root : Slot) (r : Int) (s : Slot) : Prop :=
  LeaderBlock blk m uncommitted root r s ∧
    ∀ t, LeaderBlock blk m uncommitted root r t → t.height ≤ s.height

/-- The histories of a list of anchors one after the other, each sorted and without the
slots that are done. -/
inductive Histories (g : Slot → Option (List Slot)) : List Slot → List Slot → List Slot → Prop
  | nil {done : List Slot} : Histories g done [] []
  | cons {done : List Slot} {anchor : Slot} {anchors l rest : List Slot} :
      l.Pairwise (fun s t => less anchor.author s t = true) →
      (∀ s, s ∈ l ↔ Reach g anchor s ∧ s ∉ done) →
      Histories g (done ++ l) anchors rest → Histories g done (anchor :: anchors) (l ++ rest)

/-- The anchors in increasing round order. -/
def anchorsInOrder (anchors : GoMap Int Slot) : List Slot :=
  (anchors.keys.insertionSort (· ≤ ·)).filterMap fun r => anchors.lookup r

/-- What the commit of a submitted slot is meant to do. -/
structure Committed.Meets (result : Committed) (blk : Slot → Option Block) (m : Int → Int)
    (uncommitted : GoMap Int Int) (req : SubmitReq) : Prop where
  /-- The anchor of the submitted round is the submitted slot. -/
  own : result.anchors.lookup req.round = some req.slot
  /-- The anchor of any other round is its highest leader block, if there is one. -/
  other : ∀ r s, r ≠ req.round → (result.anchors.lookup r = some s ↔
    HighestLeaderBlock blk m uncommitted req.slot r s)
  /-- The anchors execute their histories in round order. -/
  histories : Histories (graph blk m) [] (anchorsInOrder result.anchors)
    (result.executed.map (·.header.slot))
  /-- Every executed block is the block of its slot. -/
  blocks : ∀ b ∈ result.executed, blk b.header.slot = some b
  /-- No slot is executed twice. -/
  once : (result.executed.map (·.header.slot)).Nodup
  /-- Exactly the uncommitted slots reachable from the submitted one are executed. -/
  all : ∀ s, s ∈ result.executed.map (·.header.slot) ↔ Reach (graph blk m) req.slot s

section Histories

variable {g g' : Slot → Option (List Slot)} {done anchors l : List Slot}

/-- The histories cover what the anchors reach. -/
theorem Histories.mem_iff (h : Histories g done anchors l) (s : Slot) :
    s ∈ l ↔ s ∉ done ∧ ∃ a ∈ anchors, Reach g a s := by
  induction h with
  | nil => simp
  | @cons done anchor anchors l rest _ hmem _ ih =>
    rw [List.mem_append, hmem, ih, List.mem_append, List.exists_mem_cons_iff, hmem]
    by_cases hd : s ∈ done <;> by_cases hr : Reach g anchor s <;> simp [hd, hr]

/-- Nothing is executed twice. -/
theorem Histories.nodup (h : Histories g done anchors l) : l.Nodup := by
  induction h with
  | nil => exact List.nodup_nil
  | @cons done anchor anchors l rest hsort _ hrest ih =>
    rw [List.nodup_append]
    refine ⟨hsort.imp ?_, ih, ?_⟩
    · rintro s _ hlt rfl
      rw [less_irrefl] at hlt
      cases hlt
    · rintro s hs _ ht rfl
      exact ((hrest.mem_iff s).mp ht).1 (List.mem_append_right done hs)

/-- Only reachability from the anchors matters. -/
theorem Histories.congr (h : Histories g done anchors l)
    (hg : ∀ a ∈ anchors, ∀ s, Reach g a s ↔ Reach g' a s) : Histories g' done anchors l := by
  induction h with
  | nil => exact .nil
  | @cons done anchor anchors l rest hsort hmem _ ih =>
    apply Histories.cons hsort
    · intro s
      rw [hmem, hg anchor (List.mem_cons_self ..)]
    · exact ih fun a ha => hg a (List.mem_cons_of_mem _ ha)

end Histories

/-! ## Executing over a map with holes -/

/-- The execution order is strictly sorted. -/
theorem sorted_orderedFrom (anchor : Slot) (pulled : GoMap Slot Block) :
    (orderedFrom anchor pulled).Pairwise fun s t => less anchor.author s t = true := by
  have hboth := (pairwise_orderedFrom anchor pulled).and (nodup_orderedFrom anchor pulled)
  apply hboth.imp
  rintro s t ⟨hnot, hne⟩
  rcases less_trichotomy anchor.author s t with h | h | h
  · exact h
  · exact absurd h hne
  · rw [NotAfter, h] at hnot
    cases hnot

/-- Everything reachable in one step from a member is a member. -/
def ClosedIn (g : Slot → Option (List Slot)) (done : List Slot) : Prop :=
  ∀ s ys, s ∈ done → g s = some ys → ∀ t ∈ ys, (g t).isSome → t ∈ done

/-- Removing a closed set hides nothing else. -/
theorem reach_eraseAll {full rest : GoMap Slot Block} {done : List Slot}
    (hrest : ∀ s, rest.lookup s = if s ∈ done then none else full.lookup s)
    (hclosed : ClosedIn (refsOf full) done) (anchor s : Slot) :
    Reach (refsOf rest) anchor s ↔ Reach (refsOf full) anchor s ∧ s ∉ done := by
  have hin : ∀ x, x ∈ done → refsOf rest x = none := by
    intro x hx
    rw [refsOf, hrest, if_pos hx, Option.map_none]
  have hout : ∀ x, x ∉ done → refsOf rest x = refsOf full x := by
    intro x hx
    rw [refsOf, refsOf, hrest, if_neg hx]
  constructor
  · intro hr
    have hsome : ∀ x, (refsOf rest x).isSome → x ∉ done := by
      intro x hx hd
      rw [hin x hd] at hx
      cases hx
    refine ⟨?_, hsome s hr.isSome⟩
    apply hr.restrict
    intro x hx
    rw [hout x (hsome x hx.isSome)]
  · rintro ⟨hr, hs⟩
    exact hr.avoid hout hclosed hs

/-- What one anchor executes leaves a closed set behind. -/
theorem closedIn_append {full rest : GoMap Slot Block} {done : List Slot}
    (hrest : ∀ s, rest.lookup s = if s ∈ done then none else full.lookup s)
    (hclosed : ClosedIn (refsOf full) done) (anchor : Slot) :
    ClosedIn (refsOf full) (done ++ orderedFrom anchor rest) := by
  intro s ys hs hys t ht hsome
  rw [List.mem_append]
  rcases List.mem_append.mp hs with hd | ho
  · exact Or.inl (hclosed s ys hd hys t ht hsome)
  · rw [mem_orderedFrom, reach_eraseAll hrest hclosed] at ho
    by_cases hd : t ∈ done
    · exact Or.inl hd
    · right
      rw [mem_orderedFrom, reach_eraseAll hrest hclosed]
      exact ⟨ho.1.step hys ht hsome, hd⟩

/-- The rounds of a commit execute the histories of their anchors. -/
theorem histories_commitRounds {full : GoMap Slot Block} (anchors : GoMap Int Slot)
    (hk : Keyed full) (rs : List Int) : ∀ (rest : GoMap Slot Block) (done : List Slot),
    (∀ s, rest.lookup s = if s ∈ done then none else full.lookup s) →
    ClosedIn (refsOf full) done →
    Histories (refsOf full) done (rs.filterMap fun r => anchors.lookup r)
      ((commitRounds anchors rs rest).map (·.header.slot)) := by
  induction rs with
  | nil => intro rest done _ _; exact .nil
  | cons r rs ih =>
    intro rest done hrest hclosed
    cases ha : anchors.lookup r with
    | none =>
      simp only [commitRounds, List.filterMap_cons, ha]
      exact ih rest done hrest hclosed
    | some anchor =>
      have hkr : Keyed rest := by
        intro s b hb
        rw [hrest] at hb
        split at hb
        · cases hb
        · exact hk s b hb
      simp only [commitRounds, List.filterMap_cons, ha, List.map_append, commitAnchor_slots hkr]
      apply Histories.cons (sorted_orderedFrom anchor rest)
      · intro s
        rw [mem_orderedFrom, reach_eraseAll hrest hclosed]
      · apply ih _ _ _ (closedIn_append hrest hclosed anchor)
        intro s
        rw [lookup_commitAnchor, hrest]
        by_cases hd : s ∈ done <;> by_cases ho : s ∈ orderedFrom anchor rest <;> simp [hd, ho]

/-! ## The pull loop -/

section Loop

variable {blk : Slot → Option Block} {m : Int → Int} {un : GoMap Int Int} {req : SubmitReq}
  {c c' : CommitState} {fuel : Nat}

/-- The leader that the loop reads for the block of a slot. -/
def leaderRead (blk : Slot → Option Block) (un : GoMap Int Int) (s : Slot) : Option Int :=
  (blk s).bind fun b => un.lookup b.header.round

/-- The invariant of the pull loop against fixed answers. -/
structure Pulling (blk : Slot → Option Block) (m : Int → Int) (un : GoMap Int Int)
    (req : SubmitReq) (c : CommitState) : Prop where
  frontier : Frontier (graph blk m) req.slot c.q c.pulled.keys
  blocks : ∀ s b, c.pulled.lookup s = some b → blk s = some b ∧ m s.author < s.height
  anchors : AnchorsOf (leaderRead blk un) (startAnchors req) [] c.pulled c.anchors
  queued : ∀ s ∈ c.q, m s.author < s.height → (blk s).isSome

/-- What is pulled has the references of the graph. -/
theorem refsOf_pulled (hblocks : ∀ s b, c.pulled.lookup s = some b → blk s = some b ∧
    m s.author < s.height) {s : Slot} (hs : s ∈ c.pulled.keys) :
    refsOf c.pulled s = graph blk m s := by
  obtain ⟨b, hb⟩ := (GoMap.mem_keys_iff _ _).mp hs
  obtain ⟨hblk, hlt⟩ := hblocks s b hb
  rw [refsOf, graph, hb, if_pos hlt, hblk]

/-- A commit starts with its anchor to be pulled. -/
theorem Pulling.start (un : GoMap Int Int) (hfull : Complete blk m req.slot) :
    Pulling blk m un req (.start req) where
  frontier := Frontier.init req.slot
  blocks s b h := by simp [CommitState.start] at h
  anchors := AnchorsOf.refl _ _ ∅
  queued s hs hlt := by
    rw [CommitState.start, List.mem_singleton] at hs
    subst s
    exact hfull.start hlt

/-- A slot that is already pulled is skipped. -/
theorem Pulling.skip {head : Slot} {q : List Slot} (h : Pulling blk m un req c)
    (hq : c.q = head :: q) (hhead : head ∈ c.pulled.keys) :
    Pulling blk m un req { c with q := q } where
  frontier := (hq ▸ h.frontier).skip hhead
  blocks := h.blocks
  anchors := h.anchors
  queued s hs := h.queued s (by rw [hq]; exact List.mem_cons_of_mem _ hs)

/-- A committed slot is skipped as well. -/
theorem Pulling.committed {head : Slot} {q : List Slot} (h : Pulling blk m un req c)
    (hq : c.q = head :: q) (hhead : head.height ≤ m head.author) :
    Pulling blk m un req { c with q := q } where
  frontier := by
    apply (hq ▸ h.frontier : Frontier (graph blk m) req.slot (head :: q) c.pulled.keys).outside
    rw [graph, if_neg (by omega)]
  blocks := h.blocks
  anchors := h.anchors
  queued s hs := h.queued s (by rw [hq]; exact List.mem_cons_of_mem _ hs)

/-- A block is filed, and its references are queued. -/
theorem Pulling.receive {head : Slot} {q : List Slot} {b : Block}
    (hslot : ∀ s b, blk s = some b → b.header.slot = s) (hfull : Complete blk m req.slot)
    (h : Pulling blk m un req c) (hq : c.q = head :: q) (hhead : head ∉ c.pulled.keys)
    (hlt : m head.author < head.height) (hb : blk head = some b) :
    Pulling blk m un req (CommitState.receive un { c with q := q } head (some b)) := by
  have hgraph : graph blk m head = some b.refSlots := by
    rw [graph, if_pos hlt, hb, Option.map_some]
  have hreach : Reach (graph blk m) req.slot head := by
    apply h.frontier.queue_reach head
    · rw [hq]
      exact List.mem_cons_self ..
    · rw [hgraph]
      rfl
  have hkeys := GoMap.mem_keys_insert c.pulled head b
  refine ⟨?_, ?_, ?_, ?_⟩
  · exact (hq ▸ h.frontier : Frontier (graph blk m) req.slot (head :: q) c.pulled.keys).visit
      hgraph hkeys
  · intro s b' hs
    simp only [CommitState.receive, GoMap.lookup_insert_ite] at hs
    split at hs
    · subst s
      cases hs
      exact ⟨hb, hlt⟩
    · exact h.blocks s b' hs
  · have hread : leaderRead blk un head = un.lookup b.header.round := by
      rw [leaderRead, hb, Option.bind_some]
    have hkeyed : Keyed c.pulled := fun s b' hs => hslot s b' (h.blocks s b' hs).1
    have hrec := h.anchors.receive hhead (List.not_mem_nil) (hslot head b hb) hkeyed un
    rw [← hread, Function.update_eq_self] at hrec
    exact hrec
  · intro s hs hm
    rcases List.mem_append.mp hs with hs | hs
    · exact h.queued s (by rw [hq]; exact List.mem_cons_of_mem _ hs) hm
    · exact hfull.refs head b s hreach hb hs hm

/-- The graph of the blocks that a map of slots gives. -/
def refsBy (get : Slot → Option Block) (s : Slot) : Option (List Slot) :=
  (get s).map Block.refSlots

/-- The rule for the pull loop: if every pull is answered from `get`, the loop ends, and what
its turns preserve holds at its end. -/
theorem pullLoop_rule {pull : Slot → Option (Option Block)} (get : Slot → Option Block)
    {slots : List Slot} (hfin : ∀ s, (get s).isSome → s ∈ slots) {P : CommitState → Prop}
    (hpull : ∀ c head q, P c → c.q = head :: q → pull head = some (get head))
    (hskip : ∀ c head q, P c → c.q = head :: q → head ∈ c.pulled.keys ∨ get head = none →
      P { c with q := q })
    (hreceive : ∀ c head q b, P c → c.q = head :: q → head ∉ c.pulled.keys → get head = some b →
      P (CommitState.receive un { c with q := q } head (some b))) :
    ∀ (fuel : Nat) (c : CommitState), P c →
      measure (refsBy get) slots c.q c.pulled.keys < fuel →
      ∃ c', pullLoop un pull fuel c = some c' ∧ P c' ∧ c'.q = [] := by
  intro fuel
  induction fuel with
  | zero => intro c _ hm; omega
  | succ fuel ih =>
    intro c hp hm
    rw [pullLoop]
    cases hq : c.q with
    | nil => exact ⟨c, rfl, hp, hq⟩
    | cons head q =>
      have hpop : measure (refsBy get) slots q c.pulled.keys < fuel := by
        rw [hq, measure_cons] at hm
        omega
      by_cases hhead : head ∈ c.pulled.keys
      · simp only [hhead, ite_true]
        exact ih _ (hskip c head q hp hq (Or.inl hhead)) hpop
      · simp only [hhead, ite_false, hpull c head q hp hq, Option.bind_some]
        cases hb : get head with
        | none => exact ih _ (hskip c head q hp hq (Or.inr hb)) hpop
        | some b =>
          refine ih _ (hreceive c head q b hp hq hhead hb) ?_
          have hrefs : refsBy get head = some b.refSlots := by
            rw [refsBy, hb, Option.map_some]
          have hvisit := measure_visit (q := q) (hfin head (by simp [hb])) hrefs hhead
          have hsame : measure (refsBy get) slots (q ++ b.refSlots)
              (c.pulled.insert head b).keys =
              measure (refsBy get) slots (q ++ b.refSlots) (c.pulled.keys ++ [head]) := by
            apply measure_congr
            intro y
            rw [GoMap.mem_keys_insert, List.mem_append, List.mem_singleton, or_comm]
          change measure _ slots (q ++ b.refSlots) (c.pulled.insert head b).keys < fuel
          rw [← hq] at hvisit
          omega

/-- **The loop ends** if everything it asks for is present. -/
theorem pullLoop_terminates {slots : List Slot} (hfin : ∀ s, (blk s).isSome → s ∈ slots)
    (hslot : ∀ s b, blk s = some b → b.header.slot = s) (hfull : Complete blk m req.slot)
    (fuel : Nat) (c : CommitState) (hp : Pulling blk m un req c)
    (hm : measure (graph blk m) slots c.q c.pulled.keys < fuel) :
    ∃ c', pullLoop un (answer blk m) fuel c = some c' ∧ Pulling blk m un req c' ∧ c'.q = [] := by
  let above : Slot → Option Block := fun s => if m s.author < s.height then blk s else none
  have hgraph : graph blk m = refsBy above := by
    funext s
    simp only [graph, refsBy, above]
    split <;> rfl
  rw [hgraph] at hm
  refine pullLoop_rule above ?_ ?_ ?_ ?_ fuel c hp hm
  · intro s hs
    simp only [above] at hs
    split at hs
    · exact hfin s hs
    · cases hs
  · intro c head q hp hq
    simp only [answer, above]
    by_cases hlt : m head.author < head.height
    · have hsome := hp.queued head (by rw [hq]; exact List.mem_cons_self ..) hlt
      obtain ⟨b, hb⟩ := Option.isSome_iff_exists.mp hsome
      rw [if_neg (by omega), if_pos hlt, hb, Option.map_some]
    · rw [if_pos (by omega), if_neg hlt]
  · rintro c head q hp hq (hhead | hnone)
    · exact hp.skip hq hhead
    · by_cases hlt : m head.author < head.height
      · have hsome := hp.queued head (by rw [hq]; exact List.mem_cons_self ..) hlt
        simp only [above, if_pos hlt] at hnone
        rw [hnone] at hsome
        cases hsome
      · exact hp.committed hq (by omega)
  · intro c head q b hp hq hhead hb
    simp only [above] at hb
    split at hb
    · rename_i hlt
      exact hp.receive hslot hfull hq hhead hlt hb
    · cases hb

/-- More fuel does not change the result. -/
theorem pullLoop_mono {pull : Slot → Option (Option Block)} :
    ∀ {fuel fuel' : Nat} {c : CommitState}, fuel ≤ fuel' →
      pullLoop un pull fuel c = some c' → pullLoop un pull fuel' c = some c' := by
  intro fuel
  induction fuel with
  | zero => intro fuel' c _ h; cases h
  | succ fuel ih =>
    intro fuel' c hle h
    obtain ⟨k, rfl⟩ : ∃ k, fuel' = k + 1 := ⟨fuel' - 1, by omega⟩
    rw [pullLoop] at h ⊢
    split at h
    · exact h
    · split at h
      · rename_i hhead
        rw [if_pos hhead]
        exact ih (by omega) h
      · rename_i hhead
        rw [if_neg hhead]
        obtain ⟨reply, hr, h⟩ := Option.bind_eq_some_iff.mp h
        rw [hr, Option.bind_some]
        exact ih (by omega) h

/-! ## What a commit executes -/

variable {order : List Int → List Int}

/-- The pulled blocks and the graph reach the same slots from a pulled slot or the root. -/
theorem Pulling.reach_iff (h : Pulling blk m un req c) (hq : c.q = []) {a : Slot}
    (ha : a = req.slot ∨ a ∈ c.pulled.keys) (s : Slot) :
    Reach (refsOf c.pulled) a s ↔ Reach (graph blk m) a s := by
  have hdone := (hq ▸ h.frontier : Frontier (graph blk m) req.slot [] c.pulled.keys).done
  constructor
  · intro hr
    apply hr.restrict
    intro x hx
    exact (refsOf_pulled h.blocks (refsOf_isSome.mp hx.isSome)).symm
  · intro hr
    apply hr.restrict
    intro x hx
    have hroot : Reach (graph blk m) req.slot a := by
      rcases ha with rfl | ha
      · exact .start hr.root
      · exact (hdone a).mp ha
    exact refsOf_pulled h.blocks ((hdone x).mpr (hroot.trans hx))

/-- The leader blocks among the pulled ones. -/
theorem Pulling.leaderBlock_iff (hslot : ∀ s b, blk s = some b → b.header.slot = s)
    (h : Pulling blk m un req c) (hq : c.q = []) {r : Int} {s : Slot} :
    LeaderBlock blk m un req.slot r s ↔
      ∃ b, c.pulled.lookup s = some b ∧ b.header.round = r ∧ Leads (leaderRead blk un) b := by
  have hdone := (hq ▸ h.frontier : Frontier (graph blk m) req.slot [] c.pulled.keys).done
  have hleads : ∀ b, blk s = some b → (Leads (leaderRead blk un) b ↔
      un.lookup b.header.round = some s.author ∧ 1 ≤ goSub s.height b.header.firstRefH) := by
    intro b hb
    rw [Leads, hslot s b hb, leaderRead, hb, Option.bind_some]
  constructor
  · rintro ⟨hr, b, hb, rfl, hl⟩
    obtain ⟨b', hb'⟩ := (GoMap.mem_keys_iff _ _).mp ((hdone s).mpr hr)
    have heq := (h.blocks s b' hb').1
    rw [hb] at heq
    cases heq
    exact ⟨b, hb', rfl, (hleads b hb).mpr hl⟩
  · rintro ⟨b, hb, rfl, hl⟩
    have hblk := (h.blocks s b hb).1
    refine ⟨(hdone s).mp ((GoMap.mem_keys_iff _ _).mpr ⟨b, hb⟩), b, hblk, rfl, ?_⟩
    exact (hleads b hblk).mp hl

/-- The anchor of the submitted round is the submitted slot. -/
theorem Pulling.anchor_own (hslot : ∀ s b, blk s = some b → b.header.slot = s)
    (hlead : un.lookup req.round = some req.slot.author)
    (htop : ∀ s, Reach (graph blk m) req.slot s → s.author = req.slot.author →
      s.height ≤ req.slot.height)
    (h : Pulling blk m un req c) (hq : c.q = []) :
    c.anchors.lookup req.round = some req.slot := by
  have hbase : (startAnchors req).lookup req.round = some req.slot := by
    simp only [startAnchors, CommitState.start]
    exact AList.lookup_insert _
  obtain ⟨a, ha, hcmp⟩ := h.anchors.base _ _ hbase
  rcases hcmp with rfl | hhigh
  · exact ha
  · rcases h.anchors.mem _ _ ha with hb | ⟨b, _, hb, hr, hl⟩
    · rw [hbase] at hb
      cases hb
      omega
    · obtain ⟨hreach, b', _, _, hun, _⟩ :=
        (h.leaderBlock_iff hslot hq).mpr ⟨b, hb, hr, hl⟩
      rw [hlead, Option.some.injEq] at hun
      have hle := htop a hreach hun.symm
      omega

/-- The anchor of any other round is its highest leader block. -/
theorem Pulling.anchor_other (hslot : ∀ s b, blk s = some b → b.header.slot = s)
    (h : Pulling blk m un req c) (hq : c.q = []) {r : Int} (hr : r ≠ req.round) (s : Slot) :
    c.anchors.lookup r = some s ↔ HighestLeaderBlock blk m un req.slot r s := by
  have hbase : (startAnchors req).lookup r = none := by
    simp only [startAnchors, CommitState.start]
    rw [GoMap.lookup_insert_ite, if_neg hr, AList.lookup_empty]
  have hmem : ∀ a, c.anchors.lookup r = some a → LeaderBlock blk m un req.slot r a := by
    intro a ha
    rcases h.anchors.mem r a ha with hb | ⟨b, _, hb⟩
    · rw [hbase] at hb
      cases hb
    · exact (h.leaderBlock_iff hslot hq).mpr ⟨b, hb⟩
  have hhigh : ∀ t, LeaderBlock blk m un req.slot r t →
      ∃ a, c.anchors.lookup r = some a ∧ t.height ≤ a.height := by
    intro t ht
    obtain ⟨b, hb, rfl, hl⟩ := (h.leaderBlock_iff hslot hq).mp ht
    exact h.anchors.high t b hb List.not_mem_nil hl
  constructor
  · intro hs
    refine ⟨hmem s hs, ?_⟩
    intro t ht
    obtain ⟨a, ha, hle⟩ := hhigh t ht
    rw [hs] at ha
    cases ha
    exact hle
  · rintro ⟨hs, hmax⟩
    obtain ⟨a, ha, hle⟩ := hhigh s hs
    have hle' := hmax a (hmem a ha)
    obtain ⟨_, _, _, _, hun, _⟩ := hs
    obtain ⟨_, _, _, _, hun', _⟩ := hmem a ha
    rw [hun, Option.some.injEq] at hun'
    rw [ha, Option.some.injEq]
    rcases a with ⟨a₁, a₂⟩
    rcases s with ⟨s₁, s₂⟩
    simp only at hun' hle hle'
    rw [hun', show a₂ = s₂ by omega]

private theorem mem_anchorsInOrder {anchors : GoMap Int Slot} {a : Slot} :
    a ∈ anchorsInOrder anchors ↔ ∃ r, anchors.lookup r = some a := by
  simp only [anchorsInOrder, List.mem_filterMap, List.mem_insertionSort]
  constructor
  · rintro ⟨r, _, hr⟩
    exact ⟨r, hr⟩
  · rintro ⟨r, hr⟩
    exact ⟨r, (GoMap.mem_keys_iff _ _).mpr ⟨a, hr⟩, hr⟩

/-- Every anchor is the submitted slot or a pulled one. -/
theorem Pulling.anchor_origin (h : Pulling blk m un req c) {a : Slot}
    (ha : a ∈ anchorsInOrder c.anchors) : a = req.slot ∨ a ∈ c.pulled.keys := by
  obtain ⟨r, hr⟩ := mem_anchorsInOrder.mp ha
  rcases h.anchors.mem r a hr with hb | ⟨b, _, hb, _⟩
  · left
    simp only [startAnchors, CommitState.start, GoMap.lookup_insert_ite] at hb
    split at hb
    · cases hb
      rfl
    · simp at hb
  · exact Or.inr ((GoMap.mem_keys_iff _ _).mpr ⟨b, hb⟩)

/-- The slots executed after the loop. -/
theorem Pulling.histories (hslot : ∀ s b, blk s = some b → b.header.slot = s)
    (horder : ∀ l, (order l).Perm l) (h : Pulling blk m un req c) (hq : c.q = []) :
    Histories (graph blk m) [] (anchorsInOrder c.anchors)
      ((c.execOrder (order c.anchors.keys)).map (·.header.slot)) := by
  have hkeyed : Keyed c.pulled := fun s b hs => hslot s b (h.blocks s b hs).1
  have hsorted : (order c.anchors.keys).insertionSort (· ≤ ·) =
      c.anchors.keys.insertionSort (· ≤ ·) := by
    apply List.Perm.eq_of_pairwise' (List.pairwise_insertionSort _ _)
      (List.pairwise_insertionSort _ _)
    exact (List.perm_insertionSort _ _).trans
      ((horder _).trans (List.perm_insertionSort _ _).symm)
  rw [CommitState.execOrder, hsorted]
  have hexec := histories_commitRounds c.anchors hkeyed
    (c.anchors.keys.insertionSort (· ≤ ·)) c.pulled [] (by simp) (by simp [ClosedIn])
  apply hexec.congr
  intro a ha s
  exact h.reach_iff hq (h.anchor_origin ha) s

/-- The anchors together reach what the submitted slot reaches. -/
theorem Pulling.reach_anchors (h : Pulling blk m un req c) (hq : c.q = [])
    (hown : c.anchors.lookup req.round = some req.slot) (s : Slot) :
    (∃ a ∈ anchorsInOrder c.anchors, Reach (graph blk m) a s) ↔
      Reach (graph blk m) req.slot s := by
  have hdone := (hq ▸ h.frontier : Frontier (graph blk m) req.slot [] c.pulled.keys).done
  constructor
  · rintro ⟨a, ha, hr⟩
    rcases h.anchor_origin ha with rfl | hmem
    · exact hr
    · exact ((hdone a).mp hmem).trans hr
  · intro hr
    exact ⟨req.slot, mem_anchorsInOrder.mpr ⟨req.round, hown⟩, hr⟩

/-- Without a pulled block there is nothing to execute. -/
theorem commitRounds_eq_nil {pulled : GoMap Slot Block} (hnil : pulled.keys = [])
    (anchors : GoMap Int Slot) (rs : List Int) : commitRounds anchors rs pulled = [] := by
  have hnone : ∀ s b, pulled.lookup s ≠ some b := by
    intro s b hb
    have hmem := (GoMap.mem_keys_iff _ _).mpr ⟨b, hb⟩
    rw [hnil] at hmem
    cases hmem
  rw [List.eq_nil_iff_forall_not_mem]
  intro b hb
  exact hnone _ b (lookup_of_mem_commitRounds (fun s b hb => absurd hb (hnone s b)) hb)

@[simp] theorem CommitState.conclude_anchors (c : CommitState) (rounds : List Int) :
    (c.conclude rounds).anchors = c.anchors := by
  unfold CommitState.conclude
  split <;> rfl

@[simp] theorem CommitState.conclude_executed (c : CommitState) (rounds : List Int) :
    (c.conclude rounds).executed = c.execOrder rounds := by
  unfold CommitState.conclude
  split
  · rename_i hnil
    rw [CommitState.execOrder, commitRounds_eq_nil hnil]
  · rfl

/-- **`commit2` meets its specification**: it ends, it uses the anchors it should, and it
executes the histories of these anchors in round order, so that every uncommitted slot
reachable from the submitted one is executed exactly once. -/
theorem commit2_spec (slots : List Slot) (hfin : ∀ s, (blk s).isSome → s ∈ slots)
    (hslot : ∀ s b, blk s = some b → b.header.slot = s) (hfull : Complete blk m req.slot)
    (hlead : un.lookup req.round = some req.slot.author)
    (htop : ∀ s, Reach (graph blk m) req.slot s → s.author = req.slot.author →
      s.height ≤ req.slot.height)
    (horder : ∀ l, (order l).Perm l) :
    ∃ result : Committed,
      (∃ enough, ∀ fuel, enough ≤ fuel →
        commit2 un (answer blk m) order fuel req = some result) ∧
      result.Meets blk m un req := by
  obtain ⟨enough, c, hc, hp, hq⟩ : ∃ enough c,
      pullLoop un (answer blk m) enough (.start req) = some c ∧ Pulling blk m un req c ∧
        c.q = [] :=
    ⟨_, pullLoop_terminates hfin hslot hfull _ _ (Pulling.start un hfull) (Nat.lt_succ_self _)⟩
  have hkeyed : Keyed c.pulled := fun s b hs => hslot s b (hp.blocks s b hs).1
  have hown := hp.anchor_own hslot hlead htop hq
  have hhist := hp.histories hslot horder hq
  refine ⟨c.conclude (order c.anchors.keys), ⟨enough, fun fuel hle => ?_⟩, ?_⟩
  · rw [commit2, pullLoop_mono hle hc, Option.map_some]
  · constructor
    · rw [CommitState.conclude_anchors]
      exact hown
    · intro r s hr
      rw [CommitState.conclude_anchors]
      exact hp.anchor_other hslot hq hr s
    · rw [CommitState.conclude_anchors, CommitState.conclude_executed]
      exact hhist
    · intro b hb
      rw [CommitState.conclude_executed] at hb
      exact (hp.blocks _ b (lookup_of_mem_commitRounds hkeyed hb)).1
    · rw [CommitState.conclude_executed]
      exact hhist.nodup
    · intro s
      rw [CommitState.conclude_executed, hhist.mem_iff, hp.reach_anchors hq hown]
      simp

end Loop

/-- A leader block of round 2 on top of the history of round 0, whose leader was author 2. -/
def twoRounds : List Block :=
  [bareBlock 2 0 0 0 [], bareBlock 2 1 0 0 [⟨2, 0⟩], bareBlock 3 0 0 0 [],
    bareBlock 1 0 2 0 [⟨2, 1⟩, ⟨3, 0⟩], bareBlock 1 1 2 0 [⟨1, 0⟩]]

/-- The leaders of the two rounds. -/
def twoLeaders : GoMap Int Int := ((∅ : GoMap Int Int).insert 0 2).insert 2 1

/-- Both anchors of two rounds are committed. -/
theorem commit2_spec_twoRounds :
    ∃ result : Committed,
      (∃ enough, ∀ fuel, enough ≤ fuel →
        commit2 twoLeaders (answer (universeOf twoRounds) fun _ => -1) id fuel ⟨⟨1, 1⟩, 2⟩ =
          some result) ∧
      result.Meets (universeOf twoRounds) (fun _ => -1) twoLeaders ⟨⟨1, 1⟩, 2⟩ := by
  have hmem : ∀ s b, universeOf twoRounds s = some b → b ∈ twoRounds ∧ b.header.slot = s := by
    intro s b hb
    exact ⟨List.mem_of_find?_eq_some hb, by simpa using List.find?_some hb⟩
  have hall : ∀ b ∈ twoRounds, ∀ t ∈ b.refSlots, (universeOf twoRounds t).isSome := by decide
  have hlow : ∀ b ∈ twoRounds, b.header.slot.author = 1 → b.header.slot.height ≤ 1 := by decide
  apply commit2_spec (twoRounds.map (·.header.slot))
  · intro s hs
    obtain ⟨b, hb⟩ := Option.isSome_iff_exists.mp hs
    obtain ⟨hin, rfl⟩ := hmem s b hb
    exact List.mem_map_of_mem hin
  · exact fun s b hb => (hmem s b hb).2
  · constructor
    · intro _
      decide
    · intro s b t _ hb ht _
      exact hall b (hmem s b hb).1 t ht
  · decide
  · intro s hr hs
    obtain ⟨ys, hys⟩ := Option.isSome_iff_exists.mp hr.isSome
    rw [graph] at hys
    split at hys
    · obtain ⟨b, hb, _⟩ := Option.map_eq_some_iff.mp hys
      obtain ⟨hin, rfl⟩ := hmem s b hb
      exact hlow b hin hs
    · cases hys
  · exact fun l => List.Perm.refl l

/-! ## The commit of an undisturbed pair -/

/-- The block that a line of the cache holds at a slot. -/
def Dag.blockAt (d : Dag) (s : Slot) : Option Block :=
  (d.line s.author).bind fun l => l[(s.height - d.mark s.author - 1).toNat]?.join

/-- The dag answers a pull at once unless the block is missing. -/
theorem Dag.handleBlockPullReq_answer {d : Dag} {s : Slot} {reply : Option Block} (ch : Nat)
    (h : answer d.blockAt d.mark s = some reply) :
    d.handleBlockPullReq s ch = some (d, .reply ch reply) := by
  unfold answer at h
  unfold Dag.handleBlockPullReq
  split at h
  · rename_i hle
    cases h
    rw [if_pos hle]
  · rename_i hlt
    obtain ⟨b, hb, rfl⟩ := Option.map_eq_some_iff.mp h
    obtain ⟨l, hl, hb⟩ := Option.bind_eq_some_iff.mp hb
    rw [if_neg hlt, hl]
    simp only [Option.bind_eq_bind, Option.bind_some, hb]

namespace Pair

/-- The dag waits for a request and none is queued. -/
structure Quiet (s : Pair) : Prop where
  running : s.crashed = false
  idle : s.dagPc = .idle
  empty : s.opCh = []

variable {s : Pair} {c c' : CommitState} {head : Slot} {q : List Slot} {reply : Option Block}

/-- One pull with its answer. -/
theorem Quiet.pull (h : s.Quiet) (hcom : s.com = .pulling c) (hq : c.q = head :: q)
    (hhead : head ∉ c.pulled.keys)
    (hans : answer s.dag.blockAt s.dag.mark head = some reply) :
    Machine.run step s [.pull, .dag [], .reply, .process] = some { s with
      com := .pulling (CommitState.receive s.dag.uncommitted { c with q := q } head reply)
      pulls := s.pulls ++ [head] } := by
  have hhandle := Dag.handleBlockPullReq_answer s.pulls.length hans
  simp [Machine.run, step, h.running, h.idle, h.empty, hcom, hq, hhead, opCap, OpMsg.orderOk,
    Dag.handle, hhandle]

/-- The pull loop against the dag. -/
theorem Quiet.pullLoop (fuel : Nat) : ∀ {s : Pair} {c : CommitState}, s.Quiet →
    s.com = .pulling c →
    Loom.pullLoop s.dag.uncommitted (answer s.dag.blockAt s.dag.mark) fuel c = some c' →
    c'.q = [] ∧ c'.req = c.req ∧ ∃ acts ps,
      Machine.run step s acts = some { s with com := .pulling c', pulls := ps } := by
  induction fuel with
  | zero => intro s c _ _ h; cases h
  | succ fuel ih =>
    intro s c hs hcom h
    rw [Loom.pullLoop] at h
    split at h
    · rename_i hq
      cases h
      refine ⟨hq, rfl, [], s.pulls, ?_⟩
      rw [Machine.run_nil, ← hcom]
    · rename_i head q hq
      split at h
      · rename_i hhead
        have hstep : s.step .pull = some { s with com := .pulling { c with q := q } } := by
          simp [step, hs.running, hcom, hq, hhead]
        obtain ⟨hq', hreq, acts, ps, hrun⟩ :=
          ih (s := { s with com := .pulling { c with q := q } })
            ⟨hs.running, hs.idle, hs.empty⟩ rfl h
        exact ⟨hq', hreq, .pull :: acts, ps, Machine.run_cons.mpr ⟨_, hstep, hrun⟩⟩
      · rename_i hhead
        obtain ⟨reply, hans, h⟩ := Option.bind_eq_some_iff.mp h
        have hturn := hs.pull hcom hq hhead hans
        obtain ⟨hq', hreq, acts, ps, hrun⟩ := ih (s := { s with
          com := .pulling (CommitState.receive s.dag.uncommitted { c with q := q } head reply)
          pulls := s.pulls ++ [head] }) ⟨hs.running, hs.idle, hs.empty⟩ rfl h
        refine ⟨hq', ?_, _, ps, Machine.run_append.mpr ⟨_, hturn, hrun⟩⟩
        rw [hreq]
        cases reply <;> rfl

/-- The blocks to execute are executed. -/
theorem run_exec {req : SubmitReq} {wm : GoMap Int Int} (todo : List Block) :
    ∀ {s : Pair}, s.crashed = false → s.com = .executing req todo wm →
      Machine.run step s (List.replicate todo.length .exec) = some { s with
        com := .executing req [] wm, executed := s.executed ++ todo } := by
  induction todo with
  | nil =>
    intro s _ hcom
    rw [List.length_nil, List.replicate_zero, Machine.run_nil, ← hcom, List.append_nil]
  | cons b todo ih =>
    intro s hc hcom
    have hstep : s.step .exec = some { s with
        com := .executing req todo wm, executed := s.executed ++ [b] } := by
      simp [step, hc, hcom]
    rw [List.length_cons, List.replicate_succ, Machine.run_cons]
    refine ⟨_, hstep, ?_⟩
    rw [ih (s := { s with com := .executing req todo wm, executed := s.executed ++ [b] }) hc rfl]
    simp

/-- **The goroutines compute `commit2`**: a pair that is left alone executes what the
function returns and sends the dag its request. -/
theorem Quiet.commit2 (hs : s.Quiet) (hcom : s.com = .idle) {req : SubmitReq}
    {rest : List SubmitReq} (hsub : s.submitCh = req :: rest) {fuel : Nat} {result : Committed}
    (h : Loom.commit2 s.dag.uncommitted (answer s.dag.blockAt s.dag.mark) id fuel req =
      some result) :
    ∃ acts t, Machine.run step s acts = some t ∧ t.com = .idle ∧
      t.executed = s.executed ++ result.executed ∧
      t.opCh = (result.gcReq.map fun wm => OpMsg.gcReq wm req.round).toList := by
  obtain ⟨c, hc, rfl⟩ := Option.map_eq_some_iff.mp h
  have htake : s.step .take = some { s with
      com := .pulling (.start req), submitCh := rest, taken := s.taken ++ [req] } := by
    simp [step, hs.running, hcom, hsub]
  obtain ⟨hq, hreq, acts, ps, hrun⟩ := Quiet.pullLoop fuel (s := { s with
      com := .pulling (.start req), submitCh := rest, taken := s.taken ++ [req] })
    ⟨hs.running, hs.idle, hs.empty⟩ rfl hc
  have hpulled := Machine.run_cons.mpr ⟨_, htake, hrun⟩
  by_cases hnil : c.pulled.keys = []
  · have hlast : step { s with
        com := .pulling c, submitCh := rest, taken := s.taken ++ [req], pulls := ps }
        (.finish [] []) = some { s with
          com := .idle, submitCh := rest, taken := s.taken ++ [req], pulls := ps } := by
      simp [step, hs.running, hq, hnil]
    refine ⟨_, _, Machine.run_concat.mpr ⟨_, hpulled, hlast⟩, rfl, ?_, ?_⟩
    · simp [CommitState.conclude, hnil]
    · simp [CommitState.conclude, hnil, hs.empty]
  · have hfinish : step { s with
        com := .pulling c, submitCh := rest, taken := s.taken ++ [req], pulls := ps }
        (.finish c.pulled.keys c.anchors.keys) = some { s with
          com := .executing c.req (c.execOrder c.anchors.keys) (newWatermark c.pulled.keys)
          submitCh := rest, taken := s.taken ++ [req], pulls := ps
          commits := s.commits ++ [c.req] } := by
      simp [step, hs.running, hq, hnil, List.isPerm_iff]
    have hexec := Machine.run_append.mpr
      ⟨_, Machine.run_concat.mpr ⟨_, hpulled, hfinish⟩, run_exec _ hs.running rfl⟩
    have hlast : step { s with
        com := .executing c.req [] (newWatermark c.pulled.keys)
        submitCh := rest, taken := s.taken ++ [req], pulls := ps
        commits := s.commits ++ [c.req]
        executed := s.executed ++ c.execOrder c.anchors.keys } .gc = some { s with
          com := .idle, opCh := s.opCh ++ [.gcReq (newWatermark c.pulled.keys) c.req.round]
          submitCh := rest, taken := s.taken ++ [req], pulls := ps
          commits := s.commits ++ [c.req]
          executed := s.executed ++ c.execOrder c.anchors.keys } := by
      simp [step, hs.running, hs.empty, opCap]
    refine ⟨_, _, Machine.run_concat.mpr ⟨_, hexec, hlast⟩, rfl, ?_, ?_⟩
    · simp [CommitState.conclude, hnil]
    · simp [CommitState.conclude, hnil, hs.empty, hreq, CommitState.start]

end Pair

end Loom
