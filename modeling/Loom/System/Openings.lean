import Loom.System.References
import Loom.System.Books

/-!
# Openings and continuations

A proposal above height `0` either opens a round with the headers of a quorum of lines,
or continues its parent and refers to nothing else. `handleRefReq` answers from the lines
as they are: it has a parent to fall back on only if the own line ends in it, and a line
that garbage collection has emptied, or that the own block has not reached yet, has none.
-/

namespace Loom

namespace Dag

/-- The own line ends in the given slot. -/
def endsIn (d : Dag) (s : Slot) : Bool :=
  ((d.line d.nodeID).bind fun l => l.getLast?.join).any fun b => decide (b.header.slot = s)

/-- The lines that qualify are a quorum of more than one. -/
def quorumQualifies (d : Dag) (round : Int) : Bool :=
  decide (d.committee.hightThreshold ≤ d.cache.countP (lineQualifies round) ∧
    1 < d.cache.countP (lineQualifies round))

/-- The own line of a dag ends in a slot. -/
theorem endsIn_iff {d : Dag} {s : Slot} : d.endsIn s = true ↔
    ∃ l b, d.line d.nodeID = some l ∧ l.getLast? = some (some b) ∧ b.header.slot = s := by
  simp only [endsIn, Option.any_eq_true, Option.bind_eq_some_iff, decide_eq_true_eq,
    Option.join_eq_some_iff]
  constructor
  · rintro ⟨b, ⟨l, hl, hb⟩, hs⟩
    exact ⟨l, b, hl, hb, hs⟩
  · rintro ⟨l, b, hl, hb, hs⟩
    exact ⟨b, ⟨l, hl, hb⟩, hs⟩

/-- The headers collected from consecutive lines are in the order of their authors. -/
theorem mapM_refOf_authors {round : Int} {k : Nat} {ls : List (List (Option Block))}
    {refs : List (List Header)} (h : ls.mapM (refOf round) = some refs)
    (hauthor : ∀ (j : Nat) l b, ls[j]? = some l → l.getLast? = some (some b) →
      b.header.slot.author = (k + j : Nat)) :
    (refs.flatten.map (·.slot.author)).Pairwise (· < ·) ∧
      ∀ a ∈ refs.flatten.map (·.slot.author), (k : Int) ≤ a ∧ a < k + ls.length := by
  induction ls generalizing refs k with
  | nil =>
    cases h
    simp
  | cons l ls ih =>
    rw [List.mapM_cons] at h
    obtain ⟨r, hr, h⟩ := Option.bind_eq_some_iff.mp h
    obtain ⟨rs, hrs, h⟩ := Option.bind_eq_some_iff.mp h
    cases h
    obtain ⟨hpair, hle⟩ := ih (k := k + 1) hrs fun j l' b hl' hb => by
      rw [hauthor (j + 1) l' b (by simpa using hl') hb]
      congr 1
      omega
    rw [List.length_cons]
    have hhead : ∀ x ∈ r, r = [x] ∧ x.slot.author = k := by
      intro x hx
      unfold refOf at hr
      split at hr
      · cases hr
        cases hx
      · cases hr
      · rename_i b hlast
        cases hr
        split at hx
        · cases List.mem_singleton.mp hx
          rw [if_pos ‹_›]
          exact ⟨rfl, by simpa using hauthor 0 l b rfl hlast⟩
        · cases hx
    rw [List.flatten_cons, List.map_append]
    cases r with
    | nil => exact ⟨hpair, fun a ha => by have := hle a ha; omega⟩
    | cons x xs =>
      obtain ⟨hone, hx⟩ := hhead x (List.mem_cons_self ..)
      cases hone
      simp only [List.map_cons, List.map_nil, List.singleton_append, List.pairwise_cons,
        List.mem_cons, forall_eq_or_imp, hx]
      exact ⟨⟨fun a ha => by have := hle a ha; omega, hpair⟩, by omega,
        fun a ha => by have := hle a ha; omega⟩

/-- The references of a proposal have distinct members as authors. -/
theorem handleRefReq_authors {d d' : Dag} {round : Int} {ref : List Header}
    (hsize : d.cache.length = d.committee.size) (hplaced : d.Placed)
    (h : d.handleRefReq round = some (d', .refResp ref)) :
    (ref.map (·.slot.author)).Nodup ∧ ∀ a ∈ ref.map (·.slot.author), a ∈ d.committee.ids := by
  unfold handleRefReq at h
  obtain ⟨refs, hrefs, h⟩ := Option.bind_eq_some_iff.mp h
  obtain ⟨hsorted, hbound⟩ := mapM_refOf_authors (k := 0) hrefs fun j l b hl hb => by
    rw [List.getLast?_eq_getElem?] at hb
    have hline : d.line (j : Nat) = some l := by
      rw [line, if_pos (by omega), Int.toNat_natCast, hl]
    rw [hplaced _ l _ b hline hb, Nat.zero_add]
  have hlines : (refs.flatten.map (·.slot.author)).Nodup ∧
      ∀ a ∈ refs.flatten.map (·.slot.author), a ∈ d.committee.ids := by
    refine ⟨hsorted.imp fun hlt => ne_of_lt hlt, fun a ha => ?_⟩
    have hin := hbound a ha
    rw [Committee.mem_ids]
    omega
  dsimp only at h
  split at h
  · obtain ⟨l, hl, h⟩ := Option.bind_eq_some_iff.mp h
    split at h
    · cases h
      exact hlines
    · cases h
    · rename_i b hlast
      cases h
      rw [List.getLast?_eq_getElem?] at hlast
      have hslot := hplaced _ l _ b hl hlast
      simp only [List.map_cons, List.map_nil, List.nodup_singleton, List.mem_singleton, forall_eq,
        hslot, true_and]
      unfold line at hl
      split at hl
      · obtain ⟨hlt, _⟩ := List.getElem?_eq_some_iff.mp hl
        rw [Committee.mem_ids]
        omega
      · cases hl
  · cases h
    exact hlines

/-- The references are a quorum of distinct authors, or the own last block alone. -/
theorem handleRefReq_quorum_or_parent {d d' : Dag} {round : Int} {ref : List Header} {s : Slot}
    {f : Nat} (hn : d.committee.size = 3 * f + 1) (hsize : d.cache.length = d.committee.size)
    (hplaced : d.Placed) (h : d.handleRefReq round = some (d', .refResp ref))
    (hok : d.endsIn s = true ∨ d.quorumQualifies round = true) :
    (1 < ref.length ∧ d.committee.hightThreshold ≤ ref.length ∧
      (ref.map (·.slot.author)).Nodup) ∨
    ∃ l b, d.line d.nodeID = some l ∧ l.getLast? = some (some b) ∧ b.header.slot = s ∧
      ref = [b.header] := by
  have hq := Committee.hightThreshold_eq hn
  have hone : ¬1 < d.cache.countP (lineQualifies round) → d.endsIn s = true := by
    intro hno
    apply hok.resolve_right
    simp only [quorumQualifies, decide_eq_true_eq]
    omega
  rcases handleRefReq_ref h with ⟨hmany, refs, hrefs, rfl⟩ | ⟨hfew, hparent⟩
  · obtain ⟨hlen, hmem⟩ := mapM_refOf hrefs
    by_cases hgt : 1 < d.cache.countP (lineQualifies round)
    · refine Or.inl ⟨by omega, by omega, ?_⟩
      exact (handleRefReq_authors hsize hplaced h).1
    · obtain ⟨l, b, hl, hb, hs⟩ := endsIn_iff.mp (hone hgt)
      refine Or.inr ⟨l, b, hl, hb, hs, ?_⟩
      have hcache : d.cache = [l] := by
        obtain ⟨l', hl'⟩ := List.length_eq_one_iff.mp (show d.cache.length = 1 by omega)
        have hin := mem_cache_of_line hl
        rw [hl', List.mem_singleton] at hin
        rw [hl', hin]
      have hqual : lineQualifies round l = true := by
        by_contra hno
        rw [hcache, List.countP_singleton, if_neg hno] at hmany
        omega
      have hin := hmem l (mem_cache_of_line hl) b hb (by simpa [lineQualifies, hb] using hqual)
      obtain ⟨x, hx⟩ := List.length_eq_one_iff.mp (show refs.flatten.length = 1 by
        rw [hlen, hcache, List.countP_singleton, if_pos hqual])
      rw [hx, List.mem_singleton] at hin
      rw [hx, hin]
  · obtain ⟨l, b, hl, hb, hs⟩ := endsIn_iff.mp <| by
      apply hok.resolve_right
      simp only [quorumQualifies, decide_eq_true_eq]
      omega
    exact Or.inr ⟨l, b, hl, hb, hs, hparent l b hl hb⟩

end Dag

namespace World

/-- The condition under which references are complete: when a node takes the references
for a block above height `0`, its own line ends in the block below, or a quorum of lines
qualifies. -/
def findsParent (w : World) : Move → Bool
  | .core i _ =>
    match (w.nodes i).core.todo with
    | .awaitRef height round _ :: _ =>
      decide (height < 1) || (w.nodes i).pair.dag.endsIn ⟨i, height - 1⟩ ||
        (w.nodes i).pair.dag.quorumQualifies round
    | _ => true
  | _ => true

/-- A block opens the round after its parent's with the given number of distinct authors. -/
def Opens (quorum : Nat) (p b : Block) : Prop :=
  b.header.round = p.header.round + 1 ∧ quorum ≤ b.ref.length ∧
    (b.ref.map (·.slot.author)).Nodup

/-- A block keeps the round of its parent and refers to nothing else. -/
def Continues (p b : Block) : Prop :=
  b.header.round = p.header.round ∧ b.header.firstRefH = p.header.firstRefH ∧ b.ref = [p.header]

instance (quorum : Nat) (p b : Block) : Decidable (Opens quorum p b) :=
  inferInstanceAs (Decidable (_ ∧ _ ∧ _))

instance (p b : Block) : Decidable (Continues p b) := inferInstanceAs (Decidable (_ ∧ _ ∧ _))

/-- Every proposed block above height `0` opens a round or continues the block below. -/
def Referred (quorum : Nat) (tr : List Event) : Prop :=
  ∀ b, .proposed b ∈ tr → 1 ≤ b.header.slot.height → ∃ p, .proposed p ∈ tr ∧
    p.header.slot = ⟨b.header.slot.author, b.header.slot.height - 1⟩ ∧
    (Opens quorum p b ∨ Continues p b)

/-- The parent of the block that a core is about to build. -/
theorem Chained.parent {S : Setup} {tr : List Event} {i : Int} {x : Node}
    (h : Chained S tr i x) {height round oldFirstRefH : Int}
    (hmem : .awaitRef height round oldFirstRefH ∈ x.core.todo) (hpos : 1 ≤ height) :
    ∃ p, .proposed p ∈ tr ∧ p.header.slot = ⟨i, height - 1⟩ ∧ round = p.header.round ∧
      oldFirstRefH = p.header.firstRefH := by
  obtain ⟨hlen, hlast⟩ := h.next _ _ _ hmem
  obtain ⟨p, hp⟩ : ∃ p, (chain i tr).getLast? = some p := by
    apply Option.isSome_iff_exists.mp
    rw [List.getLast?_isSome]
    intro hnil
    rw [hnil] at hlen
    simp only [List.length_nil] at hlen
    omega
  have hidx := hp
  rw [List.getLast?_eq_getElem?] at hidx
  refine ⟨p, (mem_chain.mp (List.mem_of_getLast? hp)).1, ?_, hlast p hp⟩
  rw [h.linked.slot _ p hidx, Slot.mk.injEq]
  exact ⟨rfl, by omega⟩

private theorem referred_step {S : Setup} {w w' : World} {mv : Move} {f : Nat}
    (hn : S.committee.size = 3 * f + 1) (ht : Traffic S w)
    (hc : ∀ i, Chained S w.trace i (w.nodes i)) (ha : ∀ i, Asking (w.nodes i))
    (h : Referred S.committee.hightThreshold w.trace) (hok : findsParent w mv = true)
    (hs : w.Step S mv w') : Referred S.committee.hightThreshold w'.trace := by
  have hsub := hs.trace_grows.subset
  intro b hb hheight
  rcases hs.proposed_cases hb with
    hb | ⟨i, batch, height, round, oldFirstRefH, rest, ref, rfl, htodo, hpc, rfl⟩
  · obtain ⟨p, hp, hrest⟩ := h b hb hheight
    exact ⟨p, hsub hp, hrest⟩
  · change 1 ≤ height at hheight
    have hl := ht.node i
    have hfix := hl.inv.fixed
    obtain ⟨p, hp, hslot, hround, hfirst⟩ :=
      (hc i).parent (htodo ▸ List.mem_cons_self ..) hheight
    refine ⟨p, hsub hp, by rw [hslot, Core.buildBlock, newBlock_header, hl.nodeID], ?_⟩
    simp only [findsParent, htodo, Bool.or_eq_true, decide_eq_true_eq] at hok
    have href := Dag.handleRefReq_quorum_or_parent (f := f) (s := ⟨i, height - 1⟩)
      (by rw [hfix.committee, hn]) (by rw [hfix.committee, hfix.lines])
      hl.inv.dagSide.cache.slot ((ha i).handleRefReq htodo hpc) (by
        rcases hok with (hlt | hends) | hmany
        · omega
        · exact Or.inl hends
        · exact Or.inr hmany)
    rw [hfix.committee, hfix.nodeID] at href
    rcases href with ⟨hgt, hquorum, hnodup⟩ | ⟨l, b, hline, hlast, hbslot, rfl⟩
    · refine Or.inl ⟨?_, hquorum, hnodup⟩
      rw [hround, Core.buildBlock, newBlock_header, Core.nextRound, if_pos (by simpa [Core.opens])]
    · rw [List.getLast?_eq_getElem?] at hlast
      have hb := hl.stored.cache i l _ b hline hlast
      have hpb : b = p := by
        have hb' := (blocks_eq_some hc).mpr ⟨hb, hbslot⟩
        rw [(blocks_eq_some hc).mpr ⟨hp, hslot⟩] at hb'
        exact (Option.some.inj hb').symm
      subst hpb
      refine Or.inr ⟨?_, ?_, rfl⟩
      · rw [hround]
        rfl
      · rw [hfirst]
        rfl

/-- **References of honest proposals.** In every run whose steps find the parent or a
quorum of lines, every block above height `0` opens a new round with references to `2f+1`
distinct authors, or keeps its parent's `Round` and `FirstRefH` and refers to its parent
alone. -/
theorem proposals_open_or_continue {S : Setup} {moves : List Move} {w : World} {f : Nat}
    (hn : S.committee.size = 3 * f + 1) (h : Reaches S moves w)
    (hok : Machine.Along (step S) (fun w mv => findsParent w mv = true) (init S) moves)
    {b : Block} (hb : .proposed b ∈ w.trace) (hheight : 1 ≤ b.header.slot.height) :
    ∃ p, .proposed p ∈ w.trace ∧
      p.header.slot = ⟨b.header.slot.author, b.header.slot.height - 1⟩ ∧
      (Opens (2 * f + 1) p b ∨ Continues p b) := by
  have hinv : Referred S.committee.hightThreshold w.trace := Machine.invariant_reached
    (P := fun w => Referred S.committee.hightThreshold w.trace) (by simp [Referred, init])
    (fun _ _ _ _ hu hi hq hs => referred_step hn (Reaches.traffic hu) (Reaches.chained hn hu)
      (Reaches.asking hu) hi hq (step_cases hs)) hok h
  rw [← Committee.hightThreshold_eq hn]
  exact hinv b hb hheight

/-- In a run of eight sweeps, member `0`'s fourth block, which opens round `1`. -/
theorem proposals_open_or_continue_sweeps : ∃ moves w, Reaches fourNodes moves w ∧
    ∃ b p, .proposed b ∈ w.trace ∧ .proposed p ∈ w.trace ∧ b.header.slot = ⟨0, 3⟩ ∧
      p.header.slot = ⟨0, 2⟩ ∧ (Opens 3 p b ∨ Continues p b) := by
  have hrun := follow_reaches fourNodes (wakeUp ++ repeated 8 sweep)
  obtain ⟨hok, b, hb, hslot⟩ : Machine.Along (step fourNodes) (fun w mv => findsParent w mv = true)
        (init fourNodes) (follow fourNodes (wakeUp ++ repeated 8 sweep)).1 ∧
      ∃ b ∈ proposals (follow fourNodes (wakeUp ++ repeated 8 sweep)).2.trace,
        b.header.slot = ⟨0, 3⟩ := by decide +kernel
  obtain ⟨p, hp, hpslot, hopen⟩ := proposals_open_or_continue (f := 1) rfl hrun hok
    (mem_proposals.mp hb) (by rw [hslot]; decide)
  rw [hslot] at hpslot
  exact ⟨_, _, hrun, b, p, mem_proposals.mp hb, hp, hslot, hpslot, hopen⟩

/-- A node asks for its references, builds its block and sends it to the others. -/
def sendBlock (i : Int) : List Move :=
  [.core i ⟨-1, []⟩, .pair i (.dag []), .core i ⟨-1, []⟩, .core i ⟨-1, []⟩]

/-- A delivery takes the oldest packet of its link. -/
def oldest (w : World) : Move → Bool
  | .deliver k =>
    match w.net[k]? with
    | none => true
    | some p => (w.net.take k).all fun q => decide (q.src = p.src → q.dst ≠ p.dst)
  | _ => true

/-- The first blocks of the others and their echoes of member `0`'s first block arrive before
member `0` has put the block into its own `recvCh`. -/
def overtaken : List Move :=
  sendBlock 0 ++
    [1, 2, 3].flatMap (fun j => .deliver 0 :: sendBlock j ++ List.replicate 3 (.core j ⟨-1, []⟩)) ++
    [.deliver 0, .deliver 2, .deliver 2, .deliver 4, .deliver 4, .deliver 6] ++
    List.replicate 14 (.core 0 ⟨-1, []⟩) ++ List.replicate 4 (.pair 0 (.dag [])) ++
    [.core 0 ⟨-1, []⟩]

/-- With the echoes ahead of its own block, a node proposes a second block that refers to
nothing at all, although all links keep their order. -/
theorem overtaken_refers_to_nothing : ∃ w, Reaches fourNodes overtaken w ∧
    Machine.Along (step fourNodes) (fun w mv => oldest w mv = true) (init fourNodes) overtaken ∧
    ∃ b, .proposed b ∈ w.trace ∧ b.header.slot = ⟨0, 1⟩ ∧ b.ref = [] := by
  have hstate : ∃ w ∈ Machine.run (step fourNodes) (init fourNodes) overtaken,
      ∃ b ∈ proposals w.trace, b.header.slot = ⟨0, 1⟩ ∧ b.ref = [] := by decide +kernel
  obtain ⟨w, hw, b, hb, hrest⟩ := hstate
  exact ⟨w, hw, by decide +kernel, b, mem_proposals.mp hb, hrest⟩

end World

end Loom
