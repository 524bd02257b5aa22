import Loom.Pair.Refine
import Loom.Pair.Leaders
import Loom.Prelude.Segment

/-!
# Lines without gaps

If every block refers to the block below it of the same author, a commit executes the
blocks of each author from the watermark upwards without a gap, and it executes all that
it has gathered: the anchor of its own round reaches the submitted one, whatever anchors
of other rounds come first. The watermark is then the height of the last block executed.
-/

namespace Loom

open Traversal

/-- Every block above height `0` refers to the block below it of the same author. -/
structure Connected (blk : Slot → Option Block) : Prop where
  nonneg : ∀ a h b, blk ⟨a, h⟩ = some b → 0 ≤ h
  parent : ∀ a h b, blk ⟨a, h⟩ = some b → 1 ≤ h →
    ⟨a, h - 1⟩ ∈ b.refSlots ∧ (blk ⟨a, h - 1⟩).isSome

/-- The heights of one author's slots in a list. -/
def heightsOf (a : Int) (l : List Slot) : List Int :=
  (l.filter fun s => decide (s.author = a)).map (·.height)

private theorem heightsOf_append (a : Int) (l₁ l₂ : List Slot) :
    heightsOf a (l₁ ++ l₂) = heightsOf a l₁ ++ heightsOf a l₂ := by
  rw [heightsOf, List.filter_append, List.map_append]
  rfl

/-- The heights of one author. -/
theorem mem_heightsOf {a h : Int} {l : List Slot} : h ∈ heightsOf a l ↔ ⟨a, h⟩ ∈ l := by
  simp only [heightsOf, List.mem_map, List.mem_filter, decide_eq_true_eq]
  constructor
  · rintro ⟨s, ⟨hs, rfl⟩, rfl⟩
    exact hs
  · intro hs
    exact ⟨_, ⟨hs, rfl⟩, rfl⟩

/-- The execution order takes the slots of one author upwards. -/
theorem heightsOf_orderedFrom (anchor : Slot) (pulled : GoMap Slot Block) (a : Int) :
    (heightsOf a (orderedFrom anchor pulled)).Pairwise (· < ·) := by
  rw [heightsOf, List.pairwise_map, List.pairwise_filter]
  refine ((pairwise_orderedFrom anchor pulled).and (nodup_orderedFrom anchor pulled)).imp ?_
  rintro ⟨a₁, h₁⟩ ⟨a₂, h₂⟩ ⟨hle, hne⟩ ha₁ ha₂
  simp only [decide_eq_true_eq] at ha₁ ha₂
  subst ha₁ ha₂
  simp only [NotAfter, less, if_true, decide_eq_false_iff_not] at hle
  simp only [ne_eq, Slot.mk.injEq, true_and] at hne
  dsimp only
  omega

/-- Parents that are there are referred to. -/
def Paternal (pulled : GoMap Slot Block) : Prop :=
  ∀ a h b, pulled.lookup ⟨a, h⟩ = some b → ⟨a, h - 1⟩ ∈ pulled.keys → ⟨a, h - 1⟩ ∈ b.refSlots

/-- The heights of one author in a map are those from `m + 1` to `m + n`. -/
def Spans (a m : Int) (n : Nat) (pulled : GoMap Slot Block) : Prop :=
  ∀ h, ⟨a, h⟩ ∈ pulled.keys ↔ m < h ∧ h ≤ m + n

private theorem mem_keys_commitAnchor {anchor s : Slot} {pulled : GoMap Slot Block} :
    s ∈ (commitAnchor anchor pulled).2.keys ↔
      s ∉ orderedFrom anchor pulled ∧ s ∈ pulled.keys := by
  rw [GoMap.mem_keys_iff, GoMap.mem_keys_iff, lookup_commitAnchor]
  by_cases hs : s ∈ orderedFrom anchor pulled <;> simp [hs]

/-- Ordering an anchor leaves every block with its parent. -/
theorem Paternal.commitAnchor {pulled : GoMap Slot Block} (h : Paternal pulled) (anchor : Slot) :
    Paternal (commitAnchor anchor pulled).2 := by
  intro a k b hb hmem
  rw [lookup_commitAnchor] at hb
  split at hb
  · cases hb
  · exact h a k b hb (mem_keys_commitAnchor.mp hmem).2

/-- One anchor executes an initial part of each line. -/
theorem Spans.commitAnchor {a m : Int} {n : Nat} {pulled : GoMap Slot Block}
    (h : Spans a m n pulled) (hp : Paternal pulled) (anchor : Slot) :
    ∃ k ≤ n, heightsOf a (orderedFrom anchor pulled) = after m k ∧
      Spans a (m + k) (n - k) (commitAnchor anchor pulled).2 := by
  obtain ⟨k, hk, hiff⟩ := exists_initial (P := fun x => ⟨a, x⟩ ∈ orderedFrom anchor pulled)
    (m := m) (n := n) (fun x hx => (h x).mp (mem_keys_of_mem_orderedFrom hx)) fun x hx hlo => by
      have hkey := mem_keys_of_mem_orderedFrom hx
      have hpar : ⟨a, x - 1⟩ ∈ pulled.keys := (h _).mpr (by have := (h x).mp hkey; omega)
      obtain ⟨b, hb⟩ := (GoMap.mem_keys_iff _ _).mp hkey
      have hrefs : refsOf pulled ⟨a, x⟩ = some b.refSlots := by rw [refsOf, hb]; rfl
      rw [mem_orderedFrom] at hx ⊢
      exact hx.step hrefs (hp a x b hb hpar) (refsOf_isSome.mpr hpar)
  refine ⟨k, hk, eq_after (heightsOf_orderedFrom anchor pulled a) fun x => ?_, fun x => ?_⟩
  · rw [mem_heightsOf]
    exact hiff x
  · rw [mem_keys_commitAnchor, hiff, h]
    omega

/-- A block reaches all lower blocks of its line. -/
theorem Spans.reach {a m x : Int} {n : Nat} {pulled : GoMap Slot Block}
    (h : Spans a m n pulled) (hp : Paternal pulled) (hx : ⟨a, x⟩ ∈ pulled.keys) :
    ∀ j : Nat, m < x - j → Reach (refsOf pulled) ⟨a, x⟩ ⟨a, x - j⟩ := by
  intro j
  induction j with
  | zero =>
    intro _
    simpa using Reach.start (refsOf_isSome.mpr hx)
  | succ j ih =>
    intro hlo
    have hbounds := (h x).mp hx
    obtain ⟨b, hb⟩ := (GoMap.mem_keys_iff _ _).mp ((h (x - j)).mpr (by omega))
    have hpar : ⟨a, x - j - 1⟩ ∈ pulled.keys := (h _).mpr (by omega)
    have hrefs : refsOf pulled ⟨a, x - j⟩ = some b.refSlots := by rw [refsOf, hb]; rfl
    rw [show x - ((j + 1 : Nat) : Int) = x - j - 1 by omega]
    exact (ih (by omega)).step hrefs (hp _ _ _ hb hpar) (refsOf_isSome.mpr hpar)

/-- The anchors of a list of rounds execute an initial part of each line. -/
theorem Spans.commitRounds {a : Int} (anchors : GoMap Int Slot) (rs : List Int) :
    ∀ {m : Int} {n : Nat} {pulled : GoMap Slot Block}, Spans a m n pulled → Keyed pulled →
      Paternal pulled → ∃ k ≤ n,
        heightsOf a ((commitRounds anchors rs pulled).map (·.header.slot)) = after m k := by
  induction rs with
  | nil =>
    intro m n pulled _ _ _
    exact ⟨0, Nat.zero_le n, rfl⟩
  | cons r rs ih =>
    intro m n pulled h hk hp
    simp only [Loom.commitRounds]
    cases anchors.lookup r with
    | none => exact ih h hk hp
    | some anchor =>
      obtain ⟨k₁, hk₁, hheights, hspan⟩ := h.commitAnchor hp anchor
      obtain ⟨k₂, hk₂, hrest⟩ := ih hspan (hk.commitAnchor anchor) (hp.commitAnchor anchor)
      refine ⟨k₁ + k₂, by omega, ?_⟩
      dsimp only
      rw [List.map_append, heightsOf_append, commitAnchor_slots hk, hheights, hrest, after_append]

/-- What an anchor reaches is executed, at its round or before. -/
theorem mem_commitRounds {anchors : GoMap Int Slot} {r : Int} {anchor s : Slot}
    (ha : anchors.lookup r = some anchor) {rs : List Int} (hr : r ∈ rs) :
    ∀ {pulled : GoMap Slot Block}, Keyed pulled → Reach (refsOf pulled) anchor s →
      s ∈ (commitRounds anchors rs pulled).map (·.header.slot) := by
  induction rs with
  | nil => cases hr
  | cons r' rs ih =>
    intro pulled hk hs
    simp only [commitRounds]
    by_cases heq : r' = r
    · subst heq
      rw [ha]
      dsimp only
      rw [List.map_append, commitAnchor_slots hk]
      exact List.mem_append_left _ (mem_orderedFrom.mpr hs)
    · have hr' : r ∈ rs := (List.mem_cons.mp hr).resolve_left (Ne.symm heq)
      cases anchors.lookup r' with
      | none => exact ih hr' hk hs
      | some anchor' =>
        dsimp only
        rw [List.map_append, commitAnchor_slots hk]
        by_cases hdone : s ∈ orderedFrom anchor' pulled
        · exact List.mem_append_left _ hdone
        · refine List.mem_append_right _ (ih hr' (hk.commitAnchor _) ?_)
          refine hs.avoid (C := (· ∈ orderedFrom anchor' pulled)) ?_ ?_ hdone
          · intro x hx
            rw [refsOf, lookup_commitAnchor, if_neg hx, refsOf]
          · intro x ys hx hys y hy hm
            rw [mem_orderedFrom] at hx ⊢
            exact hx.step hys hy hm

section Commit

variable {blk : Slot → Option Block} {m : Int → Int} {u : Slot → Option Int} {req : SubmitReq}
  {pulled : GoMap Slot Block} {anchors : GoMap Int Slot}

private theorem Gathered.refsOf_eq {base : GoMap Int Slot} {old : List Slot}
    (h : Gathered blk m u base old req pulled anchors) {s : Slot} (hs : s ∈ pulled.keys) :
    refsOf pulled s = graph blk m s := by
  obtain ⟨b, hb⟩ := (GoMap.mem_keys_iff _ _).mp hs
  have hsome := ((h.keys s).mp hs).isSome
  unfold graph at hsome ⊢
  split at hsome
  · rw [if_pos ‹_›, refsOf, hb, (h.blocks s b hb).1]
  · cases hsome

private theorem Gathered.paternal {base : GoMap Int Slot} {old : List Slot} (hc : Connected blk)
    (h : Gathered blk m u base old req pulled anchors) : Paternal pulled := by
  intro a x b hb hmem
  obtain ⟨b', hb'⟩ := (GoMap.mem_keys_iff _ _).mp hmem
  have hnn := hc.nonneg _ _ _ (h.blocks _ _ hb').1
  exact (hc.parent a x b (h.blocks _ _ hb).1 (by omega)).1

/-- The gathered part of each line starts right above the watermark. -/
theorem Gathered.spans {base : GoMap Int Slot} {old : List Slot} (hc : Connected blk)
    (h : Gathered blk m u base old req pulled anchors) {a : Int} (hm : -1 ≤ m a) :
    ∃ n, Spans a (m a) n pulled := by
  have hlow : ∀ x, ⟨a, x⟩ ∈ pulled.keys → m a < x := by
    intro x hx
    have hsome := ((h.keys _).mp hx).isSome
    unfold graph at hsome
    split at hsome
    · assumption
    · cases hsome
  obtain ⟨n, hn⟩ : ∃ n : Nat, ∀ x, ⟨a, x⟩ ∈ pulled.keys → x ≤ m a + n := by
    refine ⟨((pulled.keys.map fun s => (s.height - m a).toNat).sum), fun x hx => ?_⟩
    have hle := List.single_le_sum (l := pulled.keys.map fun s => (s.height - m a).toNat)
      (by simp) _ (List.mem_map_of_mem hx)
    dsimp only at hle
    omega
  obtain ⟨k, _, hk⟩ := exists_initial (P := fun x => ⟨a, x⟩ ∈ pulled.keys) (m := m a) (n := n)
    (fun x hx => ⟨hlow x hx, hn x hx⟩) fun x hx hlo => by
      obtain ⟨b, hb⟩ := (GoMap.mem_keys_iff _ _).mp hx
      obtain ⟨hblk, _⟩ := h.blocks _ _ hb
      obtain ⟨hpar, hsome⟩ := hc.parent a x b hblk (by omega)
      have hgraph : graph blk m ⟨a, x⟩ = some b.refSlots := by
        rw [graph, if_pos (hlow x hx), hblk]
        rfl
      rw [h.keys] at hx ⊢
      refine hx.step hgraph hpar ?_
      rw [graph, if_pos hlo, Option.isSome_map]
      exact hsome
  exact ⟨k, hk⟩

/-- The new watermark is the top of the gathered part. -/
theorem Spans.raise {a : Int} {n : Nat} (h : Spans a (m a) n pulled) :
    raise m pulled a = m a + n := by
  unfold Loom.raise
  cases hl : (newWatermark pulled.keys).lookup a with
  | none =>
    have hn : n = 0 := by
      by_contra hne
      have htop : (newWatermark pulled.keys).lookup a = some (m a + n) := by
        rw [lookup_newWatermark]
        refine ⟨(h _).mpr (by omega), ?_⟩
        rintro ⟨a', x⟩ hx rfl
        exact ((h x).mp hx).2
      rw [hl] at htop
      cases htop
    simp [hn]
  | some x =>
    obtain ⟨hx, hmax⟩ := (lookup_newWatermark _ _ _).mp hl
    have hbounds := (h x).mp hx
    have htop := hmax ⟨a, m a + n⟩ ((h _).mpr (by omega)) rfl
    dsimp only at htop
    rw [Option.getD_some]
    omega

/-- The anchor of the commit's own round reaches the submitted one. -/
theorem Gathered.own_anchor (hc : Connected blk)
    (h : Gathered blk m u (startAnchors req) [] req pulled anchors)
    (hm : -1 ≤ m req.slot.author) (hroot : (graph blk m req.slot).isSome)
    (hlead : ∀ s b, pulled.lookup s = some b → b.header.round = req.round →
      ∀ l, u s = some l → l = req.slot.author) :
    ∃ anchor, anchors.lookup req.round = some anchor ∧
      Reach (refsOf pulled) anchor req.slot := by
  have hbase : (startAnchors req).lookup req.round = some req.slot := AList.lookup_insert _
  have hmem : req.slot ∈ pulled.keys := (h.keys _).mpr (.start hroot)
  obtain ⟨anchor, ha, hcmp⟩ := h.anchors.base req.round req.slot hbase
  refine ⟨anchor, ha, ?_⟩
  rcases hcmp with rfl | hlt
  · exact .start (refsOf_isSome.mpr hmem)
  · rcases h.anchors.mem req.round anchor ha with hb | ⟨b, _, hb, hround, hleads, _⟩
    · rw [hbase] at hb
      cases hb
      omega
    · have hslot := (h.blocks anchor b hb).2
      rw [hslot] at hleads
      have hauthor := hlead anchor b hb hround _ hleads
      obtain ⟨n, hspan⟩ := h.spans hc hm
      have hx : ⟨req.slot.author, anchor.height⟩ ∈ pulled.keys := by
        rw [← hauthor]
        exact (GoMap.mem_keys_iff _ _).mpr ⟨b, hb⟩
      have hlo : m req.slot.author < req.slot.height := ((hspan _).mp hmem).1
      obtain ⟨j, hj⟩ : ∃ j : Nat, req.slot.height = anchor.height - j :=
        ⟨(anchor.height - req.slot.height).toNat, by omega⟩
      have hreach := hspan.reach (h.paternal hc) hx j (by omega)
      rw [← hj] at hreach
      have hanchor : anchor = ⟨req.slot.author, anchor.height⟩ := by rw [← hauthor]
      rw [hanchor]
      exact hreach

/-- Everything gathered is executed. -/
theorem Gathered.all_executed (hc : Connected blk)
    (h : Gathered blk m u (startAnchors req) [] req pulled anchors)
    (hm : -1 ≤ m req.slot.author) (hroot : (graph blk m req.slot).isSome)
    (hlead : ∀ s b, pulled.lookup s = some b → b.header.round = req.round →
      ∀ l, u s = some l → l = req.slot.author) :
    ∀ s ∈ pulled.keys, s ∈ executedSlots pulled anchors := by
  intro s hs
  obtain ⟨anchor, ha, hreach⟩ := h.own_anchor hc hm hroot hlead
  refine mem_commitRounds ha ?_ (fun s b hb => (h.blocks s b hb).2) (hreach.trans ?_)
  · rw [List.mem_insertionSort, GoMap.mem_keys_iff]
    exact ⟨anchor, ha⟩
  · refine ((h.keys s).mp hs).restrict fun x hx => ?_
    exact h.refsOf_eq ((h.keys x).mpr hx)

/-- A commit continues each line from its watermark and raises the watermark to the last
block executed. -/
theorem Gathered.heights (hc : Connected blk)
    (h : Gathered blk m u (startAnchors req) [] req pulled anchors)
    (hreq : -1 ≤ m req.slot.author) (hroot : (graph blk m req.slot).isSome)
    (hlead : ∀ s b, pulled.lookup s = some b → b.header.round = req.round →
      ∀ l, u s = some l → l = req.slot.author) {a : Int} (hm : -1 ≤ m a) :
    ∃ n : Nat, heightsOf a (executedSlots pulled anchors) = after (m a) n ∧
      raise m pulled a = m a + n := by
  obtain ⟨n, hspan⟩ := h.spans hc hm
  obtain ⟨k, hk, hheights⟩ := Spans.commitRounds anchors (anchors.keys.insertionSort (· ≤ ·)) hspan
    (fun s b hb => (h.blocks s b hb).2) (h.paternal hc)
  refine ⟨n, ?_, hspan.raise⟩
  have hkn : k = n := by
    by_contra hne
    have htop := h.all_executed hc hreq hroot hlead ⟨a, m a + n⟩ ((hspan _).mpr (by omega))
    rw [← mem_heightsOf, executedSlots, hheights, mem_after] at htop
    omega
  rw [executedSlots, hheights, hkn]

end Commit

/-- The leader read for the round of the current request is the author of its anchor. -/
def OwnLeader : Reading := fun ts _ r v =>
  ∀ req, ts.getLast? = some req → r = req.round → ∀ l, v = some l → l = req.slot.author

/-- **A ledger has no gaps**: the heights executed of each author are the ones from `0` up
to its watermark, in this order. -/
theorem Ledger.heights {blk : Slot → Option Block} {o : Origin} {ts cs : List SubmitReq}
    {out : List Slot} {m : Int → Int} (hc : Connected blk) (h : Ledger blk OwnLeader o ts cs out m)
    (hres : o.resumed = none) (hlow : ∀ a, -1 ≤ o.marks a) {a : Int}
    (ho : heightsOf a o.out = after (-1) (o.marks a + 1).toNat) :
    (∀ a, -1 ≤ m a) ∧ heightsOf a out = after (-1) (m a + 1).toNat := by
  induction h with
  | origin => exact ⟨hlow, ho⟩
  | nothing _ _ ih => exact ih
  | @commit ts cs out m req u pulled anchors h₀ hg hroot hr ih =>
    obtain ⟨hm, hout⟩ := ih
    have hbase : o.base ts req = (startAnchors req, []) := by
      rw [Origin.base, hres]
    rw [hbase] at hg hr
    have hlead : ∀ s b, pulled.lookup s = some b → b.header.round = req.round →
        ∀ l, u s = some l → l = req.slot.author := fun s b hb hround l hl =>
      hr s b hb (List.not_mem_nil) req List.getLast?_concat hround l hl
    have hnext := fun a' => hg.heights hc (hm _) hroot hlead (hm a')
    refine ⟨fun a' => ?_, ?_⟩
    · obtain ⟨n, _, hraise⟩ := hnext a'
      have hold := hm a'
      omega
    · obtain ⟨n, hheights, hraise⟩ := hnext a
      have hold := hm a
      rw [heightsOf_append, hout, hheights, hraise]
      have hseg := after_append (-1) (m a + 1).toNat n
      rw [show -1 + ((m a + 1).toNat : Int) = m a by omega] at hseg
      rw [hseg]
      congr 1
      omega

namespace Pair

/-! ## The lines of a pair -/

/-- Where the ledger of every pair of a committee starts. -/
def freshOrigin (c : Committee) : Origin := (init 0 c).asOrigin

/-- A new pair has an empty ledger. -/
theorem booked_init (blk : Slot → Option Block) (R : Reading) (i : Int) (c : Committee) :
    (init i c).Booked blk R (freshOrigin c) := by
  have horigin : freshOrigin c = (init i c).asOrigin := rfl
  rw [horigin]
  exact booked_origin R (loaded_init blk i c)

/-- A panic writes nothing into the ledger. -/
theorem Booked.crash {blk : Slot → Option Block} {R : Reading} {o : Origin} {s : Pair}
    (h : s.Booked blk R o) : ({ s with crashed := true } : Pair).Booked blk R o :=
  h.frame rfl rfl rfl rfl rfl

/-- A panic pulls nothing. -/
theorem Loaded.crash {blk : Slot → Option Block} {s : Pair} (h : s.Loaded blk) :
    ({ s with crashed := true } : Pair).Loaded blk :=
  ⟨h.stored.crash, h.nilReply, h.received, h.nilReceived, h.pulled, h.unseen, h.frontier, h.last⟩

private theorem freshOrigin_marks (c : Committee) (a : Int) :
    (freshOrigin c).marks a = if a ∈ c.ids then -1 else 0 :=
  Dag.mark_newDag 0 c a

/-- A pair whose reveals name one leader per round reads the author of the current anchor
for its round. -/
theorem readsOk_ownLeader {blk : Slot → Option Block} {K : CommitReq → Prop} {s : Pair}
    (hl : s.Loaded blk) (ht : s.Told K) (hK : ∀ r l l', K ⟨l, r⟩ → K ⟨l', r⟩ → l = l') (a : Act) :
    s.ReadsOk OwnLeader a := by
  rintro c head b rfl hcom req hlast hround l hread
  obtain ⟨ts, hts⟩ := hl.last c (head :: c.q) (by rw [hcom]; rfl)
  rw [hts, List.getLast?_concat, Option.some.injEq] at hlast
  subst hlast
  have hauthor := ht.reading c.req (by rw [hcom]; rfl)
  exact hK _ _ _ (hround ▸ ht.leaders _ _ hread) hauthor

/-- The heights executed or ordered for execution end at the watermark. -/
theorem Booked.heights {blk : Slot → Option Block} {c : Committee} {s : Pair}
    (hc : Connected blk) (h : s.Booked blk OwnLeader (freshOrigin c)) {a : Int} (ha : a ∈ c.ids) :
    -1 ≤ s.marks a ∧ heightsOf a s.out = after (-1) (s.marks a + 1).toNat := by
  obtain ⟨ts, hled, _⟩ := h
  have hmarks := freshOrigin_marks c
  have hlow : ∀ a, -1 ≤ (freshOrigin c).marks a := by
    intro a
    rw [hmarks]
    split <;> omega
  have hheights := hled.heights hc rfl hlow (a := a) (by rw [hmarks, if_pos ha]; rfl)
  exact ⟨hheights.1 a, hheights.2⟩

/-- The heights of one author's blocks passed to `exec`. -/
def executedHeights (s : Pair) (a : Int) : List Int := heightsOf a (s.executed.map (·.header.slot))

/-- What is executed is the first part of what is ordered. -/
theorem executedHeights_prefix (s : Pair) (a : Int) :
    s.executedHeights a <+: heightsOf a s.out := by
  rw [executedHeights, out, List.map_append, heightsOf_append]
  exact List.prefix_append _ _

/-- Everything up to the installed watermark has been executed. -/
def Behind (ids : List Int) (s : Pair) : Prop :=
  ∀ a ∈ ids, s.dag.mark a < (s.executedHeights a).length

/-- At the start the watermarks of all members are `-1`. -/
theorem behind_init (i : Int) (c : Committee) : (init i c).Behind c.ids := by
  intro a ha
  change (freshOrigin c).marks a < 0
  rw [freshOrigin_marks, if_pos ha]
  decide

/-- After a garbage collection nothing is left to execute, and the watermark is installed. -/
theorem mark_of_gc {s t : Pair} (hsh : s.Shape) {wm : GoMap Int Int} {r : Int} {rest : List OpMsg}
    {d : Dag} {pc : DagPc} (hop : s.opCh = .gcReq wm r :: rest)
    (ht : t = { s with dag := d, dagPc := pc, opCh := rest }) :
    t.out = t.executed.map (·.header.slot) ∧ ∀ a, t.marks a = t.dag.mark a := by
  obtain ⟨_, _, hexec, hrest⟩ := hsh.gc_head hop
  subst ht
  constructor
  · cases hcom : s.com with
    | executing => exact absurd hcom (hexec _ _ _)
    | idle | pulling | waiting | received => simp [out, Commitor.todo]
  · refine marks_of_none ?_
    unfold flyingWm
    split
    · exact absurd ‹_› (hexec _ _ _)
    · exact firstWm_eq_none hrest

/-- Every step keeps the watermarks with the blocks that are ordered. -/
theorem behind_step {ids : List Int} {s t : Pair} {a : Act} (hsh : s.Shape) (h : s.Behind ids)
    (hs : s.Step a t) (ht : ∀ x ∈ ids, -1 ≤ t.marks x ∧
      heightsOf x t.out = after (-1) (t.marks x + 1).toNat) : t.Behind ids := by
  intro x hx
  have hold := h x hx
  cases hs with
  | @dag order m rest d pc _ hop _ hm =>
    by_cases hgc : ∃ wm r, m = .gcReq wm r
    · obtain ⟨wm, r, rfl⟩ := hgc
      obtain ⟨hout, hmark⟩ := mark_of_gc
        (t := { s with dag := d, dagPc := pc, opCh := rest }) hsh hop rfl
      obtain ⟨hlow, hheights⟩ := ht x hx
      rw [executedHeights, ← hout, hheights, length_after, ← hmark]
      omega
    · have hmark := (grows_handle hm fun wm r he => hgc ⟨wm, r, he⟩).mark x
      rw [hmark]
      exact hold
  | exec hcom =>
    refine lt_of_lt_of_le hold ?_
    simp [executedHeights, heightsOf_append]
  | _ => exact hold

end Pair

end Loom
