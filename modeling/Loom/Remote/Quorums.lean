import Loom.Remote.Echoes
import Loom.System.Openings
import Mathlib.Data.Int.Interval

/-!
# Quorums of committees of any size

`HightThreshold` is `2f+1` for `f = (n - 1) / 3` at every size `n`. A committee of `2`, `3`
or `6` members can complete two quorums of it one after the other, so an aggregator fires
twice. Two quorums are sure to share `f+1` members only at the sizes `3f+1`.
-/

namespace Loom

/-- Two thresholds exceed all sizes but three. -/
theorem Committee.size_lt_iff {c : Committee} (hpos : 1 ≤ c.size) :
    c.size < 2 * c.hightThreshold ↔ c.size ∉ [2, 3, 6] := by
  simp only [hightThreshold, List.mem_cons, List.not_mem_nil, or_false]
  omega

/-! ## Common members -/

/-- A set of members that passes the test against `HightThreshold`. -/
def Committee.IsQuorum (c : Committee) (x : Finset Int) : Prop :=
  (∀ a ∈ x, a ∈ c.ids) ∧ c.hightThreshold ≤ x.card

instance (c : Committee) (x : Finset Int) : Decidable (c.IsQuorum x) :=
  inferInstanceAs (Decidable (_ ∧ _))

/-- The authors of a successful `Take`. -/
theorem Committee.isQuorum_taken {c : Committee} {M : Type} {calls : List (Aggregator.Call M)}
    (hmem : ∀ a m, .push a m ∈ calls → a ∈ c.ids) {msgs : List M}
    (hmsgs : msgs ∈ Aggregator.taken c calls) : ∃ x : Finset Int, c.IsQuorum x ∧
      x.card = msgs.length ∧ ∀ a ∈ x, ∃ m ∈ msgs, .push a m ∈ calls := by
  obtain ⟨authors, hnodup, hids, hmany, hfrom⟩ := (Aggregator.taken_spec hmem).2 msgs hmsgs
  have hcard := List.toFinset_card_of_nodup hnodup
  refine ⟨authors.toFinset, ⟨fun a ha => hids a (List.mem_toFinset.mp ha), ?_⟩, ?_, ?_⟩
  · rw [hcard]
    exact hmany
  · rw [hcard, hfrom.length_eq]
  · intro a ha
    obtain ⟨k, hk, hka⟩ := List.getElem_of_mem (List.mem_toFinset.mp ha)
    have hk' : k < msgs.length := hfrom.length_eq ▸ hk
    refine ⟨msgs[k], List.getElem_mem hk', ?_⟩
    rw [← hka]
    exact hfrom.get hk hk'

/-- The authors of references that open a round. -/
theorem Committee.isQuorum_refs {c : Committee} {i round : Int} {acts : List Act} {s : Pair}
    (h : Pair.Reaches i c acts s) {d : Dag} {ref : List Header}
    (href : s.dag.handleRefReq round = some (d, .refResp ref))
    (hmany : c.hightThreshold ≤ ref.length) :
    c.IsQuorum (ref.map (·.slot.author)).toFinset ∧
      (ref.map (·.slot.author)).toFinset.card = ref.length := by
  have hcom : s.dag.committee = c := h.inv.fixed.committee
  obtain ⟨hnodup, hids⟩ := Dag.handleRefReq_authors (hcom ▸ h.inv.fixed.lines)
    h.inv.dagSide.cache.slot href
  have hcard := List.toFinset_card_of_nodup hnodup
  rw [List.length_map] at hcard
  refine ⟨⟨fun a ha => hcom ▸ hids a (List.mem_toFinset.mp ha), ?_⟩, hcard⟩
  rw [hcard]
  exact hmany

/-- The messages of some members, and a call of `Take`. -/
def takeFrom (authors : List Int) : List (Aggregator.Call Int) :=
  authors.map (fun a => .push a a) ++ [.take]

/-- Pushes of distinct new authors are all kept. -/
theorem Aggregator.run_pushes {ag : Aggregator Int} {authors : List Int}
    (hnodup : (ag.used ++ authors).Nodup) :
    Machine.run Aggregator.step ag (authors.map fun a => .push a a) =
        some { ag with used := ag.used ++ authors, item := ag.item ++ authors } ∧
      Machine.outputs Aggregator.step Aggregator.result ag (authors.map fun a => .push a a) =
        [] := by
  induction authors generalizing ag with
  | nil => simp [Machine.outputs]
  | cons a authors ih =>
    have hnew : a ∉ ag.used := fun hmem =>
      List.disjoint_of_nodup_append hnodup hmem (List.mem_cons_self ..)
    have hpush : ag.push a a = { ag with used := ag.used ++ [a], item := ag.item ++ [a] } :=
      if_neg hnew
    rw [List.append_cons] at hnodup
    have hkept : ((ag.push a a).used ++ authors).Nodup := by
      rw [hpush]
      exact hnodup
    have hrest := ih hkept
    refine ⟨Machine.run_cons.mpr ⟨ag.push a a, rfl, ?_⟩, hrest.2⟩
    rw [hrest.1, hpush]
    simp

/-- A threshold of new authors completes a quorum. -/
theorem Aggregator.run_takeFrom {ag : Aggregator Int} {authors : List Int}
    (hnodup : (ag.used ++ authors).Nodup) (hitem : ag.item = [])
    (hmany : ag.committee.hightThreshold ≤ authors.length) :
    Machine.run Aggregator.step ag (takeFrom authors) = some { ag with
        used := ag.used ++ authors, item := authors.drop ag.committee.hightThreshold } ∧
      Machine.outputs Aggregator.step Aggregator.result ag (takeFrom authors) = [authors] := by
  obtain ⟨hrun, hout⟩ := run_pushes hnodup
  rw [hitem, List.nil_append] at hrun
  have htake : ({ ag with used := ag.used ++ authors, item := authors } : Aggregator Int).take =
      (some authors, { ag with
        used := ag.used ++ authors, item := authors.drop ag.committee.hightThreshold }) :=
    take_of_le hmany
  constructor
  · refine Machine.run_append.mpr ⟨_, hrun, ?_⟩
    simp [Machine.run, Aggregator.step, htake]
  · rw [takeFrom, Machine.outputs_append hrun, hout]
    simp [Machine.outputs, Aggregator.step, Aggregator.result, htake]

/-- Every quorum is the set of authors of a successful `Take`. -/
theorem Aggregator.taken_takeFrom {c : Committee} {authors : List Int} (hnodup : authors.Nodup)
    (hmany : c.hightThreshold ≤ authors.length) :
    Aggregator.taken c (takeFrom authors) = [authors] :=
  (@run_takeFrom (newAggregator c) authors (by simpa [newAggregator] using hnodup) rfl hmany).2

/-- At the sizes `3f+1` two quorums share `f+1` members. -/
theorem Committee.overlap_of_mod {c : Committee} (hn : c.size % 3 = 1) {x y : Finset Int}
    (hx : c.IsQuorum x) (hy : c.IsQuorum y) : c.lowThreshold ≤ (x ∩ y).card := by
  have hsum := card_add_card_le hx.1 hy.1
  rw [c.length_ids] at hsum
  have hxlen := hx.2
  have hylen := hy.2
  unfold hightThreshold at hxlen hylen
  unfold lowThreshold
  omega

/-- At any other size the first and the last members form quorums that share fewer. -/
theorem Committee.mod_of_overlap {c : Committee} (hpos : 1 ≤ c.size)
    (h : ∀ x y : Finset Int, c.IsQuorum x → c.IsQuorum y → c.lowThreshold ≤ (x ∩ y).card) :
    c.size % 3 = 1 := by
  have hquorum : ∀ k : Nat, k + c.hightThreshold ≤ c.size →
      c.IsQuorum (Finset.Ico (k : Int) (k + c.hightThreshold)) := by
    intro k hk
    refine ⟨fun a ha => ?_, by simp⟩
    rw [Finset.mem_Ico] at ha
    rw [mem_ids]
    omega
  have hle : c.hightThreshold ≤ c.size := by
    unfold hightThreshold
    omega
  have hshare := h _ _ (hquorum 0 (by omega)) (hquorum (c.size - c.hightThreshold) (by omega))
  rw [Finset.Ico_inter_Ico, Int.card_Ico] at hshare
  unfold lowThreshold hightThreshold at hshare
  omega

/-- **Quorum intersection**, exactly at the sizes `3f+1`. There, and at no other size, any two
sets of members that pass the threshold test share at least `f+1` members, so one that is not
among `f` faulty ones, and the threshold is at least the `n-f` that the code means by it. The
sets that pass the test are the authors of successful calls of `Take`, and the authors of the
references that open a round are such sets. -/
theorem Committee.quorums_overlap {c : Committee} (hpos : 1 ≤ c.size) :
    ((∀ x y : Finset Int, c.IsQuorum x → c.IsQuorum y → c.lowThreshold ≤ (x ∩ y).card ∧
      ∀ faulty : Finset Int, faulty.card ≤ (c.size - 1) / 3 → ∃ a ∈ x ∩ y, a ∉ faulty) ↔
        c.size % 3 = 1) ∧
    (∀ (M : Type) (calls : List (Aggregator.Call M)),
      (∀ a m, .push a m ∈ calls → a ∈ c.ids) → ∀ msgs ∈ Aggregator.taken c calls,
      ∃ x : Finset Int, c.IsQuorum x ∧ x.card = msgs.length ∧
        ∀ a ∈ x, ∃ m ∈ msgs, .push a m ∈ calls) ∧
    (∀ x : Finset Int, c.IsQuorum x →
      ∃ authors : List Int, authors.toFinset = x ∧ Aggregator.taken c (takeFrom authors) =
        [authors]) ∧
    (∀ i acts s, Pair.Reaches i c acts s → ∀ round d ref,
      s.dag.handleRefReq round = some (d, .refResp ref) → c.hightThreshold ≤ ref.length →
      c.IsQuorum (ref.map (·.slot.author)).toFinset ∧
        (ref.map (·.slot.author)).toFinset.card = ref.length) ∧
    (c.size - (c.size - 1) / 3 ≤ c.hightThreshold ↔ c.size % 3 = 1) := by
  refine ⟨⟨fun h => mod_of_overlap hpos fun x y hx hy => (h x y hx hy).1, fun hn x y hx hy => ?_⟩,
    fun M calls hmem msgs => isQuorum_taken hmem, fun x hx => ?_,
    fun i acts s h round d ref => isQuorum_refs h, ?_⟩
  · have hcommon := overlap_of_mod hn hx hy
    refine ⟨hcommon, fun faulty hfaulty => ?_⟩
    apply Finset.exists_mem_notMem_of_card_lt_card
    unfold lowThreshold at hcommon
    omega
  · refine ⟨x.toList, Finset.toList_toFinset x, Aggregator.taken_takeFrom x.nodup_toList ?_⟩
    rw [Finset.length_toList]
    exact hx.2
  · unfold hightThreshold
    omega

/-- Seven members. -/
def sevenMembers : Committee := ⟨List.replicate 7 []⟩

/-- Two quorums of seven members share three. -/
theorem Committee.quorums_overlap_sevenMembers :
    sevenMembers.lowThreshold = 3 ∧ sevenMembers.IsQuorum {0, 1, 2, 3, 4} ∧
    sevenMembers.IsQuorum {2, 3, 4, 5, 6} ∧
    sevenMembers.lowThreshold ≤ (({0, 1, 2, 3, 4} : Finset Int) ∩ {2, 3, 4, 5, 6}).card := by
  have hx : sevenMembers.IsQuorum {0, 1, 2, 3, 4} := by decide
  have hy : sevenMembers.IsQuorum {2, 3, 4, 5, 6} := by decide
  exact ⟨by decide, hx, hy, ((quorums_overlap (by decide)).1.mpr (by decide) _ _ hx hy).1⟩

/-- Five members. -/
def fiveMembers : Committee := ⟨List.replicate 5 []⟩

/-- Two successful calls of `Take` in a committee of five whose authors share a single
member, which may be the faulty one, where `f+1` is two. -/
theorem five_members_share_one :
    Aggregator.taken fiveMembers (takeFrom [0, 1, 2]) = [[0, 1, 2]] ∧
    Aggregator.taken fiveMembers (takeFrom [2, 3, 4]) = [[2, 3, 4]] ∧
    fiveMembers.IsQuorum {0, 1, 2} ∧ fiveMembers.IsQuorum {2, 3, 4} ∧
    fiveMembers.lowThreshold = 2 ∧ ({0, 1, 2} : Finset Int) ∩ {2, 3, 4} = {2} ∧
    fiveMembers.hightThreshold < fiveMembers.size - (fiveMembers.size - 1) / 3 := by
  decide

/-! ## Firing once -/

namespace Remote

/-- A proposal that a node starts for a height. -/
def Event.isProposing (i height : Int) : Event → Bool
  | .proposing j h _ _ => decide (j = i ∧ h = height)
  | _ => false

namespace Host

/-- The echoes of a height that a node has counted. -/
def votesOf (x : Host) (height : Int) : Aggregator Echo :=
  (x.core.voteAg.lookup height).getD (newAggregator x.core.committee)

end Host

namespace Net

/-- Each quorum of echoes of a height has started one proposal for the height above. -/
structure Voted (S : Setup) (tr : List Event) (i : Int) (x : Host) : Prop where
  committee : x.core.committee = S.committee
  votes : ∀ height, (x.votesOf height).Fired S.committee (fun _ _ => True)
    (tr.countP (Event.isProposing i (height + 1)))

private theorem voted_init (S : Setup) (i : Int) : Voted S [] i (Host.init S i) where
  committee := rfl
  votes _ := Aggregator.fired_new _ _

/-- A step that leaves the votes alone. -/
theorem Voted.frame {S : Setup} {tr evs : List Event} {i : Int} {x y : Host} (h : Voted S tr i x)
    (hcom : y.core.committee = x.core.committee) (hvotes : y.core.voteAg = x.core.voteAg)
    (hno : ∀ height round g, .proposing i height round g ∉ evs) : Voted S (tr ++ evs) i y where
  committee := hcom.trans h.committee
  votes height := by
    have hzero : evs.countP (Event.isProposing i (height + 1)) = 0 := by
      rw [List.countP_eq_zero]
      intro ev hev his
      unfold Event.isProposing at his
      split at his
      · rw [decide_eq_true_eq] at his
        exact hno _ _ _ (his.1 ▸ hev)
      · cases his
    rw [List.countP_append, hzero, Nat.add_zero, Host.votesOf, hcom, hvotes]
    exact h.votes height

private theorem voted_step {S : Setup} {n : Net} {i : Int} {mv : HostMove} {y : Host}
    {evs : List Event}
    (h : Voted S n.trace i (n.hosts i)) (hs : (n.hosts i).Step S.crypto i mv y evs) :
    Voted S (n.trace ++ evs) i y := by
  obtain ⟨hcom, ⟨hvotes, hno⟩ | ⟨e, hup, htodo, hh, hevs⟩⟩ := hs.echo_cases
  · exact h.frame hcom hvotes (hno i)
  have hheard : ∀ height, (if e.verify S.crypto (n.hosts i).core.committee = some true then
      [Event.heard i e] else []).countP (Event.isProposing i height) = 0 := by
    intro height
    split <;> simp [Event.isProposing]
  have hevents : ∀ height, evs.countP (Event.isProposing i height) =
      (Host.proposingEvents i y.core.todo).countP (Event.isProposing i height) := by
    intro height
    rw [hevs, Host.recvEvents, List.countP_append, hheard, Nat.zero_add]
  have hquiet : y.core.todo = [] → ∀ height, evs.countP (Event.isProposing i height) = 0 := by
    intro hnil height
    rw [hevents, hnil]
    rfl
  have hsame : y.core = (n.hosts i).core → Voted S (n.trace ++ evs) i y := by
    intro heq
    refine ⟨heq ▸ h.committee, fun height => ?_⟩
    rw [List.countP_append, hquiet (heq ▸ htodo), Nat.add_zero, Host.votesOf, heq]
    exact h.votes height
  rcases Core.verify_of_handleEcho hh with heq | hv
  · exact hsame heq
  have hid : e.author ∈ S.committee.ids := by
    rw [h.committee] at hv
    exact mem_ids_of_verifySig hv
  have hpush : ((n.hosts i).core.votesFor e).Fired S.committee (fun _ _ => True)
      (n.trace.countP (Event.isProposing i (e.header.slot.height + 1))) :=
    (h.votes e.header.slot.height).push hid trivial
  have hother : ∀ {ag : Aggregator Echo},
      y.core.voteAg = (n.hosts i).core.voteAg.insert e.header.slot.height ag →
      ∀ height, y.votesOf height =
        if height = e.header.slot.height then ag else (n.hosts i).votesOf height := by
    intro ag hag height
    rw [Host.votesOf, hag, GoMap.lookup_insert_ite, hcom]
    split <;> rfl
  rcases Core.handleEcho_cases hh with heq | ⟨hnone, hcore⟩ | ⟨⟨msgs, hsome⟩, hcore⟩
  · exact hsame heq
  · refine ⟨hcom.trans h.committee, fun height => ?_⟩
    rw [List.countP_append, hquiet (by rw [hcore]; exact htodo), Nat.add_zero,
      hother (by rw [hcore])]
    split
    · subst height
      rw [Aggregator.take_of_none hnone]
      exact hpush
    · exact h.votes height
  · refine ⟨hcom.trans h.committee, fun height => ?_⟩
    have hone : evs.countP (Event.isProposing i (height + 1)) =
        if height = e.header.slot.height then 1 else 0 := by
      rw [hevents, hcore]
      by_cases heq : height = e.header.slot.height
      · simp [Core.propose, Host.proposingEvents, Event.isProposing, heq]
      · simp [Core.propose, Host.proposingEvents, Event.isProposing, heq, Ne.symm heq]
    rw [List.countP_append, hone, hother (by rw [hcore])]
    split
    · subst height
      exact (hpush.take hsome).1
    · exact h.votes height

private theorem Reaches.voted {S : Setup} {moves : List (Int × HostMove)} {n : Net}
    (h : Reaches S moves n) : ∀ i ∈ S.committee.ids, Voted S n.trace i (n.hosts i) :=
  invariant_hosts (fun i _ => voted_init S i)
    (fun hne hs hx => hx.frame rfl rfl fun _ _ _ hev => hne (hs.proposing_node hev).symm)
    (fun _ _ _ _ _ _ _ hx hs => voted_step hx hs) h (Machine.along_of_forall fun _ _ _ => trivial)

/-- **The quorum fires once**, in a committee of any size but `2`, `3` and `6`. Whatever
sequence of `Push` by members and `Take` is called on one aggregator, `Take` returns
messages at most once, and then those of a threshold of distinct authors; and whatever
anybody sends, `handleEcho` of a node proposes at most one block for each height. -/
theorem quorum_fires_once {S : Setup} (hpos : 1 ≤ S.committee.size)
    (hsize : S.committee.size ∉ [2, 3, 6]) :
    (∀ (M : Type) (calls : List (Aggregator.Call M)),
      (∀ a m, .push a m ∈ calls → a ∈ S.committee.ids) →
      (Aggregator.taken S.committee calls).length ≤ 1 ∧
      ∀ msgs ∈ Aggregator.taken S.committee calls, ∃ authors : List Int, authors.Nodup ∧
        S.committee.hightThreshold ≤ authors.length ∧
        List.Forall₂ (fun a m => .push a m ∈ calls) authors msgs) ∧
    ∀ moves n, Reaches S moves n → ∀ i ∈ S.committee.ids, ∀ height,
      n.trace.countP (Event.isProposing i height) ≤ 1 := by
  have hlt := (Committee.size_lt_iff hpos).mpr hsize
  have honce : ∀ {k : Nat}, k * S.committee.hightThreshold ≤ S.committee.size → k ≤ 1 := by
    intro k hk
    by_contra hno
    have hmul := Nat.mul_le_mul_right S.committee.hightThreshold (show 2 ≤ k by omega)
    omega
  constructor
  · intro M calls hmem
    obtain ⟨hlen, hresults⟩ := Aggregator.taken_spec hmem
    refine ⟨honce hlen, fun msgs hmsgs => ?_⟩
    obtain ⟨authors, hnodup, _, hmany, hfrom⟩ := hresults msgs hmsgs
    exact ⟨authors, hnodup, hmany, hfrom⟩
  · intro moves n hn i hi height
    have hfired := (hn.voted i hi).votes (height - 1)
    rw [Int.sub_add_cancel] at hfired
    exact honce hfired.le_size

/-- Three members push, one of them twice, before the threshold is taken. -/
def pushedThrice : List (Aggregator.Call Unit) :=
  [.push 0 (), .take, .push 2 (), .push 0 (), .take, .push 3 (), .take, .push 1 (), .take]

/-- A fourth message does not make the aggregator fire again. -/
theorem quorum_fires_once_pushedThrice :
    Aggregator.taken tagged.committee pushedThrice = [[(), (), ()]] ∧
    (Aggregator.taken tagged.committee pushedThrice).length ≤ 1 ∧
    ∃ n, Reaches tagged (forwarded ownBlock) n ∧
      n.trace.countP (Event.isProposing 0 1) = 1 ∧
      ∀ height, n.trace.countP (Event.isProposing 0 height) ≤ 1 := by
  have honce := quorum_fires_once (S := tagged) (by decide) (by decide)
  have hmem : ∀ a m, .push a m ∈ pushedThrice → a ∈ tagged.committee.ids := by
    intro a m hm
    simp only [pushedThrice, List.mem_cons, Aggregator.Call.push.injEq, reduceCtorEq,
      List.not_mem_nil, or_false, false_or] at hm
    rcases hm with ⟨rfl, _⟩ | ⟨rfl, _⟩ | ⟨rfl, _⟩ | ⟨rfl, _⟩ | ⟨rfl, _⟩ <;> decide
  obtain ⟨n, hn, hone⟩ : ∃ n ∈ Machine.run (step tagged) (init tagged) (forwarded ownBlock),
      n.trace.countP (Event.isProposing 0 1) = 1 := by decide +kernel
  exact ⟨by decide, (honce.1 Unit pushedThrice hmem).1, n, hn, hone,
    honce.2 _ n hn 0 (by decide)⟩

/-- At each of the three sizes an aggregator fires twice: for the first members, and again for
as many others. -/
theorem fires_twice {c : Committee} (hsize : c.size ∈ [2, 3, 6]) :
    ∃ calls : List (Aggregator.Call Int), (∀ a m, .push a m ∈ calls → a ∈ c.ids) ∧
      (Aggregator.taken c calls).length = 2 := by
  have hroom : 2 * c.hightThreshold ≤ c.ids.length := by
    rw [c.length_ids]
    simp only [List.mem_cons, List.not_mem_nil, or_false] at hsize
    unfold Committee.hightThreshold
    omega
  have hsplit : (c.ids.take c.hightThreshold ++
      (c.ids.drop c.hightThreshold).take c.hightThreshold).Nodup := by
    refine c.nodup_ids.sublist ?_
    nth_rewrite 3 [← List.take_append_drop c.hightThreshold c.ids]
    exact (List.Sublist.refl _).append (List.take_sublist _ _)
  have hlen : (c.ids.take c.hightThreshold).length = c.hightThreshold :=
    List.length_take_of_le (by omega)
  refine ⟨takeFrom (c.ids.take c.hightThreshold) ++
    takeFrom ((c.ids.drop c.hightThreshold).take c.hightThreshold), fun a m hm => ?_, ?_⟩
  · simp only [takeFrom, List.mem_append, List.mem_map, Aggregator.Call.push.injEq,
      List.mem_singleton, reduceCtorEq, or_false] at hm
    rcases hm with ⟨j, hj, rfl, _⟩ | ⟨j, hj, rfl, _⟩
    · exact List.mem_of_mem_take hj
    · exact List.mem_of_mem_drop (List.mem_of_mem_take hj)
  · obtain ⟨hrun, hout⟩ := @Aggregator.run_takeFrom (newAggregator c)
      (c.ids.take c.hightThreshold)
      (by simpa [newAggregator] using (List.nodup_append.mp hsplit).1) rfl hlen.ge
    have hnext := @Aggregator.run_takeFrom
      ⟨(c.ids.take c.hightThreshold).drop c.hightThreshold, c.ids.take c.hightThreshold, c⟩
      ((c.ids.drop c.hightThreshold).take c.hightThreshold) hsplit
      (List.drop_eq_nil_of_le hlen.le)
      (by rw [List.length_take, List.length_drop]; simp only [le_inf_iff]; omega)
    rw [Aggregator.taken, Machine.outputs_append hrun, hout]
    exact congrArg (fun l => ([c.ids.take c.hightThreshold] ++ l).length) hnext.2

/-- The first two of the four members. -/
def twoNodes : Setup := { tagged with committee := ⟨tagged.committee.names.take 2⟩ }

/-- Both nodes echo the first block of node `0`, and node `0` receives the two echoes. -/
def echoedTwice : List (Int × HostMove) :=
  firstBlock 0 ++ List.replicate 4 (0, .core ⟨-1, []⟩) ++ echoBack ownBlock 1 ++
    [0, 1].map (fun k =>
      (0, .receive (Codec.write (.net (.echo (newEcho tagged.crypto k ownBlock)))))) ++
    [(0, .pair (.dag [])), (0, .core ⟨-1, []⟩), (0, .core ⟨-1, []⟩), (0, .pair (.dag []))] ++
    List.replicate 4 (0, .core ⟨-1, []⟩)

/-- In a committee of two, an aggregator fires once for each member, and a node proposes
two blocks for one height, although everybody follows the code. -/
theorem two_members_fire_twice :
    Aggregator.taken twoNodes.committee [.push 0 (), .take, .push 1 (), .take] = [[()], [()]] ∧
    ∃ n, Reaches twoNodes echoedTwice n ∧
      Machine.Along (step twoNodes) (fun n mv => unforged twoNodes [] n mv = true) (init twoNodes)
        echoedTwice ∧
      n.trace.countP (Event.isProposing 0 1) = 2 := by
  refine ⟨by decide, ?_⟩
  have hstate : ∃ n ∈ Machine.run (step twoNodes) (init twoNodes) echoedTwice,
      n.trace.countP (Event.isProposing 0 1) = 2 := by decide +kernel
  have hok : Machine.Along (step twoNodes) (fun n mv => unforged twoNodes [] n mv = true)
      (init twoNodes) echoedTwice := by decide +kernel
  obtain ⟨n, hn, htwice⟩ := hstate
  exact ⟨n, hn, hok, htwice⟩

end Net

end Remote

end Loom
