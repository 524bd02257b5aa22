import Loom.System.Openings
import Loom.System.Election
import Mathlib.Algebra.Order.BigOperators.Group.Finset
import Mathlib.Data.Int.CardIntervalMod

/-!
# Rounds fill up before they are left

`handleRefReq` lets a node open the next round when the lines of `2f+1` members have gone on in
the current one, by three blocks if it is even and by two if it is odd, or have left it. Whoever
is the first to leave a round has seen `2f+1` members with that many blocks in it. So a round
that anyone has left is full, and when the leader of a round is revealed, most of the values of
the coin name a member that has the three blocks an anchor takes.
-/

namespace Loom

namespace Dag

private theorem line_of_mem_cache {d : Dag} {l : List (Option Block)} (h : l ∈ d.cache) :
    ∃ a, d.line a = some l := by
  obtain ⟨j, hj⟩ := List.mem_iff_getElem?.mp h
  exact ⟨j, by rw [line, if_pos (by omega), Int.toNat_natCast, hj]⟩

/-- References that open a round are those of a quorum of lines that qualify. -/
theorem handleRefReq_opens {d d' : Dag} {round : Int} {ref : List Header} {s : Slot}
    (h : d.handleRefReq round = some (d', .refResp ref))
    (hok : d.endsIn s = true ∨ d.quorumQualifies round = true) (hopens : 1 < ref.length) :
    d.committee.hightThreshold ≤ ref.length ∧ ∀ x ∈ ref, qualifies round x = true ∧
      ∃ a l b, d.line a = some l ∧ l.getLast? = some (some b) ∧ x = b.header := by
  rcases handleRefReq_ref h with ⟨hmany, refs, hrefs, rfl⟩ | ⟨hfew, hparent⟩
  · refine ⟨by rw [(mapM_refOf hrefs).1]; exact hmany, fun x hx => ?_⟩
    obtain ⟨l, hl, b, hb, hq, rfl⟩ := mem_of_mapM_refOf hrefs hx
    obtain ⟨a, ha⟩ := line_of_mem_cache hl
    exact ⟨hq, a, l, b, ha, hb, rfl⟩
  · have hends := hok.resolve_right <| by
      simp only [quorumQualifies, decide_eq_true_eq]
      omega
    obtain ⟨l, b, hl, hb, _⟩ := endsIn_iff.mp hends
    rw [hparent l b hl hb, List.length_singleton] at hopens
    omega

end Dag

/-! ## The values of the coin -/

/-- Four bytes, the most significant first. -/
def seedBytes (s : Nat) : Bytes :=
  [s / 2 ^ 24, s / 2 ^ 16, s / 2 ^ 8, s].map UInt8.ofNat

namespace Elector

/-- The leader is the value of the first four bytes modulo the size of the committee. -/
theorem reveal_seedBytes (e : Elector) {s : Nat} (hs : s < 2 ^ 32) (rest : Bytes) :
    e.reveal (seedBytes s ++ rest) = ((s % e.committee.size : Nat) : Int) := by
  have hvalue : [0, 1, 2, 3].foldl
      (fun seed i => seed * 256 + ((seedBytes s ++ rest).getD i 0).toNat) 0 = s := by
    simp only [seedBytes, List.map_cons, List.map_nil, List.cons_append, List.nil_append,
      List.foldl_cons, List.foldl_nil, List.getD_cons_zero, List.getD_cons_succ,
      UInt8.toNat_ofNat']
    omega
  rw [reveal, hvalue, Int.ofNat_tmod]

/-- Every member is the leader for at least `2³² / n` values of the first four bytes. -/
theorem le_card_reveal (e : Elector) (rest : Bytes) {j : Int} (hj : j ∈ e.committee.ids) :
    2 ^ 32 / e.committee.size ≤
      ((Finset.range (2 ^ 32)).filter fun s => e.reveal (seedBytes s ++ rest) = j).card := by
  obtain ⟨hnonneg, hlt⟩ := (Committee.mem_ids _ _).mp hj
  have hpos : 0 < e.committee.size := by omega
  have hcount := Nat.count_modEq_card (2 ^ 32) hpos j.toNat
  rw [Nat.count_eq_card_filter_range] at hcount
  refine (hcount ▸ Nat.le_add_right ..).trans (Finset.card_le_card fun s hs => ?_)
  rw [Finset.mem_filter, Finset.mem_range] at hs ⊢
  refine ⟨hs.1, ?_⟩
  have hmod : s % e.committee.size = j.toNat :=
    Eq.trans hs.2 (Nat.mod_eq_of_lt (by omega))
  rw [e.reveal_seedBytes hs.1, hmod, Int.toNat_of_nonneg hnonneg]

/-- So a set of members has the leader for a proportional part of the values. -/
theorem le_count_reveal (e : Elector) (rest : Bytes) {q : List Int} (hnodup : q.Nodup)
    (hq : ∀ j ∈ q, j ∈ e.committee.ids) :
    q.length * (2 ^ 32 / e.committee.size) ≤
      Nat.count (fun s => e.reveal (seedBytes s ++ rest) ∈ q) (2 ^ 32) := by
  have hmaps : ∀ s ∈ (Finset.range (2 ^ 32)).filter fun s => e.reveal (seedBytes s ++ rest) ∈ q,
      e.reveal (seedBytes s ++ rest) ∈ q.toFinset :=
    fun s hs => List.mem_toFinset.mpr (Finset.mem_filter.mp hs).2
  rw [Nat.count_eq_card_filter_range, Finset.card_eq_sum_card_fiberwise hmaps,
    ← List.toFinset_card_of_nodup hnodup, ← Nat.nsmul_eq_mul]
  refine Finset.card_nsmul_le_sum _ _ _ fun j hj => ?_
  rw [List.mem_toFinset] at hj
  refine (e.le_card_reveal rest (hq j hj)).trans (Finset.card_le_card fun s hs => ?_)
  rw [Finset.mem_filter] at hs
  rw [Finset.mem_filter, Finset.mem_filter, hs.2]
  exact ⟨⟨hs.1, hj⟩, rfl⟩

end Elector

namespace World

/-- The number of blocks that a member needs in a round before others leave it. -/
def width (r : Int) : Nat := if r % 2 = 0 then 3 else 2

/-- The members that have proposed that many blocks of a round. -/
def fillers (S : Setup) (r : Int) (tr : List Event) : List Int :=
  S.committee.ids.filter fun j =>
    decide (width r ≤ (chain j tr).countP fun b => decide (b.header.round = r))

private theorem mem_fillers {S : Setup} {r j : Int} {tr : List Event} : j ∈ fillers S r tr ↔
    j ∈ S.committee.ids ∧ width r ≤ (chain j tr).countP fun b => decide (b.header.round = r) := by
  rw [fillers, List.mem_filter, decide_eq_true_eq]

/-- Members do not take their blocks back. -/
theorem fillers_subset {S : Setup} {r : Int} {tr tr' : List Event} (h : tr <+: tr') :
    fillers S r tr ⊆ fillers S r tr' := by
  intro j hj
  rw [mem_fillers] at hj ⊢
  obtain ⟨evs, rfl⟩ := h
  rw [chain_append, List.countP_append]
  exact ⟨hj.1, by omega⟩

private theorem length_fillers_mono {S : Setup} {r : Int} {tr tr' : List Event} (h : tr <+: tr') :
    (fillers S r tr).length ≤ (fillers S r tr').length :=
  ((Committee.nodup_ids _).filter _).subperm (fillers_subset h) |>.length_le

/-- From `firstRefH` on, all blocks up to a given one are of its round. -/
theorem Linked.length_round {i : Int} {bs : List Block} (h : Linked i bs) {k : Nat} {b : Block}
    (hk : bs[k]? = some b) :
    k + 1 - b.header.firstRefH.toNat ≤
      bs.countP fun b' => decide (b'.header.round = b.header.round) := by
  obtain ⟨hnonneg, hle, hall⟩ := h.firstRefH k b hk
  have hlt := (List.getElem?_eq_some_iff.mp hk).1
  have hsub : ((bs.take (k + 1)).drop b.header.firstRefH.toNat).Sublist bs :=
    (List.drop_sublist ..).trans (List.take_sublist ..)
  have hlen : ((bs.take (k + 1)).drop b.header.firstRefH.toNat).length =
      k + 1 - b.header.firstRefH.toNat := by
    rw [List.length_drop, List.length_take]
    omega
  rw [← hlen]
  refine le_trans (le_of_eq (List.countP_eq_length.mpr fun b' hb' => ?_).symm) hsub.countP_le
  obtain ⟨j, hj⟩ := List.mem_iff_getElem?.mp hb'
  rw [List.getElem?_drop, List.getElem?_take] at hj
  split at hj
  · rw [decide_eq_true_eq]
    exact (hall _ b' hj).2 (by omega) (by omega)
  · cases hj

/-- A line that qualifies without having left the round has filled it. -/
theorem Linked.width_le {i : Int} {bs : List Block} (h : Linked i bs) {k : Nat} {b : Block}
    (hk : bs[k]? = some b) (hq : Dag.qualifies b.header.round b.header = true)
    (hround : 0 ≤ b.header.round) :
    width b.header.round ≤ bs.countP fun b' => decide (b'.header.round = b.header.round) := by
  refine le_trans ?_ (h.length_round hk)
  have hheight := h.slot k b hk
  obtain ⟨hnonneg, hle, _⟩ := h.firstRefH k b hk
  simp only [Dag.qualifies, lt_self_iff_false, decide_false, Bool.not_false, Bool.true_and,
    Bool.false_or, Bool.or_eq_true, decide_eq_true_eq, hheight,
    Int.tmod_eq_emod_of_nonneg hround] at hq
  have hfull := goSub_le hle
  unfold width
  split <;> omega

/-- Whatever round a proposed block has left behind is full. -/
def Filled (S : Setup) (tr : List Event) : Prop :=
  ∀ b, .proposed b ∈ tr → ∀ r, 0 ≤ r → r < b.header.round →
    S.committee.hightThreshold ≤ (fillers S r tr).length

/-- A round that a quorum of lines qualifies to leave is full: one of them has left it before,
or all have filled it. -/
theorem Filled.of_quorum {S : Setup} {tr : List Event} (h : Filled S tr)
    (hc : ∀ j, Linked j (chain j tr)) {r : Int} (hr : 0 ≤ r) {ref : List Header}
    (hquorum : S.committee.hightThreshold ≤ ref.length)
    (hnodup : (ref.map (·.slot.author)).Nodup)
    (hmem : ∀ a ∈ ref.map (·.slot.author), a ∈ S.committee.ids)
    (href : ∀ x ∈ ref, Dag.qualifies r x = true ∧ ∃ b, .proposed b ∈ tr ∧ b.header = x) :
    S.committee.hightThreshold ≤ (fillers S r tr).length := by
  by_cases hleft : ∃ x ∈ ref, r < x.round
  · obtain ⟨x, hx, hlt⟩ := hleft
    obtain ⟨_, b, hb, rfl⟩ := href x hx
    exact h b hb r hr hlt
  push Not at hleft
  have hsub : ref.map (·.slot.author) ⊆ fillers S r tr := by
    intro a ha
    obtain ⟨x, hx, rfl⟩ := List.mem_map.mp ha
    obtain ⟨hq, b, hb, rfl⟩ := href x hx
    obtain ⟨k, hk⟩ := List.mem_iff_getElem?.mp (mem_chain.mpr ⟨hb, rfl⟩)
    have hsame : b.header.round = r := by
      have hle := hleft _ hx
      simp only [Dag.qualifies, Bool.and_eq_true, Bool.not_eq_true', decide_eq_false_iff_not] at hq
      omega
    subst hsame
    exact mem_fillers.mpr ⟨hmem _ ha, (hc _).width_le hk hq hr⟩
  have hle := (hnodup.subperm hsub).length_le
  rw [List.length_map] at hle
  omega

private theorem filled_step {S : Setup} {w w' : World} {mv : Move} (ht : Traffic S w)
    (hc : ∀ i, Chained S w.trace i (w.nodes i)) (hc' : ∀ i, Chained S w'.trace i (w'.nodes i))
    (ha : ∀ i, Asking (w.nodes i)) (h : Filled S w.trace) (hok : findsParent w mv = true)
    (hs : w.Step S mv w') : Filled S w'.trace := by
  have hgrows := hs.trace_grows
  have hold : ∀ b, .proposed b ∈ w.trace → ∀ r, 0 ≤ r → r < b.header.round →
      S.committee.hightThreshold ≤ (fillers S r w'.trace).length :=
    fun b hb r hr hlt => (h b hb r hr hlt).trans (length_fillers_mono hgrows)
  intro b hb r hr hlt
  rcases hs.proposed_cases hb with
    hb' | ⟨i, batch, height, round, oldFirstRefH, rest, ref, rfl, htodo, hpc, rfl⟩
  · exact hold b hb' r hr hlt
  have hl := ht.node i
  have hround : ((w.nodes i).core.buildBlock S.crypto height round oldFirstRefH ref
      batch).header.round = Core.nextRound round ref := rfl
  rw [hround] at hlt
  obtain ⟨k, hk⟩ := List.mem_iff_getElem?.mp (mem_chain.mpr ⟨hb, rfl⟩)
  have hheight : height = k := congrArg Slot.height ((hc' _).linked.slot k _ hk)
  by_cases hfirst : k = 0
  · subst hfirst
    have hzero := ((hc' _).linked.first _ hk).1
    rw [hround] at hzero
    omega
  obtain ⟨p, hp, _, hparent, _⟩ := (hc i).parent (htodo ▸ List.mem_cons_self ..) (by omega)
  by_cases hlow : r < p.header.round
  · exact hold p hp r hr hlow
  -- The block leaves the round of its parent.
  have hopens : Core.opens ref = true := by
    by_contra hno
    rw [Core.nextRound, if_neg hno] at hlt
    omega
  have hsame : r = round := by
    rw [Core.nextRound, if_pos hopens] at hlt
    omega
  subst hsame
  have hfix := hl.inv.fixed
  have href := (ha i).handleRefReq htodo hpc
  simp only [findsParent, htodo, Bool.or_eq_true, decide_eq_true_eq] at hok
  obtain ⟨hquorum, hqual⟩ := Dag.handleRefReq_opens (s := ⟨i, height - 1⟩) href
    (by
      rcases hok with (hlt | hends) | hmany
      · omega
      · exact Or.inl hends
      · exact Or.inr hmany)
    (of_decide_eq_true hopens)
  obtain ⟨hnodup, hmem⟩ := Dag.handleRefReq_authors (by rw [hfix.committee, hfix.lines])
    hl.inv.dagSide.cache.slot href
  rw [hfix.committee] at hquorum hmem
  refine (h.of_quorum (fun j => (hc j).linked) hr hquorum hnodup hmem fun x hx => ?_).trans
    (length_fillers_mono hgrows)
  obtain ⟨hq, a, l, b, hline, hlast, rfl⟩ := hqual x hx
  rw [List.getLast?_eq_getElem?] at hlast
  exact ⟨hq, b, hl.stored.cache a l _ b hline hlast, rfl⟩

/-- Rounds that were left are filled, after every run. -/
theorem Reaches.filled {S : Setup} {moves : List Move} {w : World} {f : Nat}
    (hn : S.committee.size = 3 * f + 1) (h : Reaches S moves w)
    (hok : Machine.Along (step S) (fun w mv => findsParent w mv = true) (init S) moves) :
    Filled S w.trace :=
  Machine.invariant_reached (P := fun w => Filled S w.trace) (by simp [Filled, init])
    (fun _ _ _ _ hu hi hq hs => filled_step (Reaches.traffic hu) (Reaches.chained hn hu)
      (Reaches.chained hn (Machine.run_concat.mpr ⟨_, hu, hs⟩)) (Reaches.asking hu) hi hq
      (step_cases hs)) hok h

/-- **Rounds fill up before they are left.** In every run whose steps find the parent or a quorum
of lines, once some member has proposed a block beyond a round, at least `2f+1` members have
proposed three blocks of it if it is even, or two if it is odd. -/
theorem left_rounds_full {S : Setup} {moves : List Move} {w : World} {f : Nat}
    (hn : S.committee.size = 3 * f + 1) (h : Reaches S moves w)
    (hok : Machine.Along (step S) (fun w mv => findsParent w mv = true) (init S) moves)
    {b : Block} (hb : .proposed b ∈ w.trace) {r : Int} (hr : 0 ≤ r) (hlt : r < b.header.round) :
    2 * f + 1 ≤ (fillers S r w.trace).length := by
  rw [← Committee.hightThreshold_eq hn]
  exact h.filled hn hok b hb r hr hlt

/-- In a run of eight sweeps member `0` has left round `0` with its fourth block. -/
theorem left_rounds_full_eight_sweeps : ∃ moves w, Reaches fourNodes moves w ∧
    ∃ b, .proposed b ∈ w.trace ∧ b.header.round = 1 ∧ 3 ≤ (fillers fourNodes 0 w.trace).length := by
  have hrun := follow_reaches fourNodes (wakeUp ++ repeated 8 sweep)
  obtain ⟨hok, b, hb, hround⟩ : Machine.Along (step fourNodes)
        (fun w mv => findsParent w mv = true) (init fourNodes)
        (follow fourNodes (wakeUp ++ repeated 8 sweep)).1 ∧
      ∃ b ∈ proposals (follow fourNodes (wakeUp ++ repeated 8 sweep)).2.trace,
        b.header.round = 1 := by decide +kernel
  exact ⟨_, _, hrun, b, mem_proposals.mp hb, hround, left_rounds_full (f := 1) rfl hrun hok
    (mem_proposals.mp hb) le_rfl (by rw [hround]; decide)⟩

/-- **Most values of the coin name a member with an anchor.** In every run whose steps find the
parent or a quorum of lines, whenever a node has revealed the leader of a round, at least
`(2f+1)⌊2³²/n⌋` of the `2³²` values of the coin name a member that has already proposed three
blocks of that round. -/
theorem coin_hits_full_lines {S : Setup} {moves : List Move} {w : World} {f : Nat}
    (hn : S.committee.size = 3 * f + 1) (h : Reaches S moves w)
    (hok : Machine.Along (step S) (fun w mv => findsParent w mv = true) (init S) moves)
    {i : Int} {req : CommitReq} (hreveal : .revealed i req ∈ w.trace) (rest : Bytes) :
    width req.round = 3 ∧ (2 * f + 1) * (2 ^ 32 / S.committee.size) ≤
      Nat.count (fun s => (w.nodes i).core.eletor.reveal (seedBytes s ++ rest) ∈
        fillers S req.round w.trace) (2 ^ 32) := by
  obtain ⟨pre, post, htr⟩ := List.append_of_mem hreveal
  have hd := h.disciplined hn
  have hcommittee := (hd.traffic.node i).elector
  obtain ⟨⟨hr, heven⟩, q, _, _, hquorum, hent⟩ := hd.reveals pre _ post htr
  obtain ⟨j, hj⟩ : ∃ j, j ∈ q := by
    refine List.exists_mem_of_length_pos ?_
    rw [Committee.hightThreshold_eq hn] at hquorum
    omega
  obtain ⟨b, hb, hle⟩ := (hd.entering j).below (req.round + 1)
    (htr ▸ List.mem_append_left _ (hent j hj))
  have hfull := h.filled hn hok b (mem_chain.mp hb).1 req.round hr (by omega)
  rw [Committee.hightThreshold_eq hn] at hfull
  have hcount := (w.nodes i).core.eletor.le_count_reveal rest (q := fillers S req.round w.trace)
    ((Committee.nodup_ids _).filter _) fun a ha => hcommittee ▸ (mem_fillers.mp ha).1
  rw [hcommittee] at hcount
  exact ⟨if_pos heven, (Nat.mul_le_mul_right _ hfull).trans hcount⟩

/-- In a run of ten sweeps member `0` has revealed the leader of round `0`. -/
theorem coin_hits_full_lines_ten_sweeps : ∃ moves w, Reaches fourNodes moves w ∧
    .revealed 0 ⟨1, 0⟩ ∈ w.trace ∧ 3 * 2 ^ 30 ≤
      Nat.count (fun s => (w.nodes 0).core.eletor.reveal (seedBytes s ++ []) ∈
        fillers fourNodes 0 w.trace) (2 ^ 32) := by
  have hrun := follow_reaches fourNodes (wakeUp ++ repeated 10 sweep)
  obtain ⟨hok, hmem⟩ : Machine.Along (step fourNodes) (fun w mv => findsParent w mv = true)
        (init fourNodes) (follow fourNodes (wakeUp ++ repeated 10 sweep)).1 ∧
      Event.revealed 0 ⟨1, 0⟩ ∈ (follow fourNodes (wakeUp ++ repeated 10 sweep)).2.trace := by
    decide +kernel
  exact ⟨_, _, hrun, hmem, (coin_hits_full_lines (f := 1) rfl hrun hok hmem []).2⟩

end World

end Loom
