import Loom.Remote.Echoes
import Loom.Pair.Pulls
import Loom.Pair.Rounds

/-!
# Consistent broadcast

A node echoes every correctly signed block that reaches it, by `handlePropose`, inside a
reply or from `loopBackChannel`, and stores it over what its line held at the slot. Two
different blocks of one slot can therefore both gather a quorum of echoes. They cannot if
no honest node echoes two of them: two quorums have an honest member in common, and the
blocks of a line are among those that its node has echoed.
-/

namespace Loom

/-! ## What a line keeps -/

namespace Pair

/-- Watermarks never fall, and a slot above its watermark stays filled. -/
theorem Inv.keeps_block {i : Int} {c : Committee} {s t : Pair} {a : Act} (h : s.Inv i c)
    (hs : s.Step a t) {sl : Slot} (habove : t.dag.mark sl.author < sl.height) :
    s.dag.mark sl.author < sl.height ∧
      ((s.dag.blockAt sl).isSome = true → (t.dag.blockAt sl).isSome = true) := by
  rcases hs.dag_eq with heq | ⟨order, m, rest, d, pc, rfl, _, hop, hord, hm, rfl⟩
  · rw [heq] at habove ⊢
    exact ⟨habove, id⟩
  dsimp only at habove ⊢
  cases m with
  | core req =>
    cases req with
    | propose block =>
      rcases Dag.handleBlockPushReq_cases hm with ⟨_, rfl, _⟩ | ⟨hh, l, hl, rfl, _⟩
      · exact ⟨habove, id⟩
      · rw [Dag.mark_setLine] at habove
        refine ⟨habove, fun hsome => ?_⟩
        rw [Dag.blockAt_store hl hh habove]
        split
        · rfl
        · exact hsome
    | refReq r =>
      obtain ⟨rfl, _⟩ := Dag.handleRefReq_dag hm
      exact ⟨habove, id⟩
    | commitReq req =>
      obtain ⟨_, rfl, _⟩ := Dag.handleCommitReq_cases hm
      exact ⟨habove, id⟩
  | blockPullReq slot ch =>
    rcases Dag.handleBlockPullReq_cases hm with
      ⟨_, rfl, _⟩ | ⟨_, _, _, ⟨_, _, rfl, _⟩ | ⟨_, rfl, _⟩⟩ <;> exact ⟨habove, id⟩
  | gcReq wm r =>
    obtain ⟨_, p, d₁, _, hclean, rfl⟩ := Dag.handleCleanReq_cases hm
    have hhi : d₁.mark sl.author < sl.height := habove
    have hlo : s.dag.mark sl.author < sl.height := by
      have hmark := (Dag.cleanLines_cases hclean).1 sl.author
      split at hmark
      · rename_i hmem
        simp only [OpMsg.orderOk, List.isPerm_iff] at hord
        obtain ⟨k, hk⟩ := (GoMap.mem_keys_iff wm sl.author).mp (hord.mem_iff.mp hmem)
        obtain ⟨_, _, hlt, _⟩ := h.bounds.gc wm r (hop ▸ List.mem_cons_self ..) _ _ hk
        rw [hmark, hk, Option.getD_some] at hhi
        exact lt_trans hlt hhi
      · rw [← hmark]
        exact hhi
    exact ⟨hlo, fun hsome => by
      rw [← Dag.cleanLines_blockAt hclean hlo hhi] at hsome
      exact hsome⟩

end Pair

namespace Remote

/-- The same header, batch and references. -/
def SameContent (b b' : Block) : Prop :=
  b.header = b'.header ∧ b.batch = b'.batch ∧ b.ref = b'.ref

instance (b b' : Block) : Decidable (SameContent b b') := inferInstanceAs (Decidable (_ ∧ _ ∧ _))

/-- The order of the two does not matter. -/
theorem SameContent.symm {b b' : Block} (h : SameContent b b') : SameContent b' b :=
  ⟨h.1.symm, h.2.1.symm, h.2.2.symm⟩

/-- What two blocks share with a third they share with each other. -/
theorem SameContent.trans {b b' b'' : Block} (h : SameContent b b') (h' : SameContent b' b'') :
    SameContent b b'' :=
  ⟨h.1.trans h'.1, h.2.1.trans h'.2.1, h.2.2.trans h'.2.2⟩

namespace Host

/-- The block that a move passes to `handlePropose`. -/
def incoming (x : Host) : HostMove → Option Block
  | .core _ =>
    match x.core.todo, x.blocks, x.recvCh with
    | [], b :: _, _ => some b
    | [], [], .net (.propose b) :: _ => some b
    | _, _, _ => none
  | .loopBack b => some b
  | _ => none

private theorem mem_echoEvents {cr : Crypto} {c : Core} {i j : Int} {b b' : Block} :
    .echoed j b' ∈ echoEvents cr c i b ↔ j = i ∧ b' = b ∧ b.verify cr c.committee = some true := by
  unfold echoEvents
  split <;> simp_all

/-- A block that a handled proposal sends to the dag has been echoed. -/
theorem echoed_of_handlePropose {cr : Crypto} {c c' : Core} {i : Int} {b b' : Block}
    (htodo : c.todo = []) (h : c.handlePropose cr b = some c')
    (hmem : .dag (.propose b') ∈ c'.todo) : .echoed i b' ∈ echoEvents cr c i b := by
  unfold Core.handlePropose at h
  obtain ⟨v, hv, h⟩ := Option.bind_eq_some_iff.mp h
  cases v with
  | false =>
    cases h
    rw [htodo] at hmem
    cases hmem
  | true =>
    cases h
    simp only [List.mem_cons, reduceCtorEq, CoreAct.dag.injEq, CoreReq.propose.injEq, false_or,
      List.not_mem_nil, or_false] at hmem
    exact mem_echoEvents.mpr ⟨rfl, hmem, hv⟩

/-- Blocks reach the dag by way of an echo, and the block echoed is the one handled. -/
theorem Step.echoed_cases {cr : Crypto} {i : Int} {x y : Host} {mv : HostMove} {evs : List Event}
    (hs : x.Step cr i mv y evs) :
    (∀ b, .dag (.propose b) ∈ y.core.todo →
      .dag (.propose b) ∈ x.core.todo ∨ .echoed i b ∈ evs) ∧
    ∀ j b, .echoed j b ∈ evs →
      j = i ∧ x.incoming mv = some b ∧ b.verify cr x.core.committee = some true := by
  have hpop : ∀ {act : CoreAct} {rest : List CoreAct}, x.core.todo = act :: rest →
      ∀ b, .dag (.propose b) ∈ rest → .dag (.propose b) ∈ x.core.todo := by
    intro act rest htodo b hb
    rw [htodo]
    exact List.mem_cons_of_mem _ hb
  have hnone : ∀ {evs : List Event}, (∀ j b, .echoed j b ∉ evs) → ∀ j b, .echoed j b ∈ evs →
      j = i ∧ x.incoming mv = some b ∧ b.verify cr x.core.committee = some true :=
    fun hno j b hb => absurd hb (hno j b)
  cases hs with
  | garbled | closed | receive | panicBlock | panicMessage | panicLoopBack | answer | overflow
  | pair => exact ⟨fun _ hb => Or.inl hb, hnone (by simp)⟩
  | send htodo | loop htodo | dagReq htodo =>
    exact ⟨fun b hb => Or.inl (hpop htodo b hb), hnone (by simp)⟩
  | @build batch height round oldFirstRefH rest ref p htodo hpc hp =>
    refine ⟨fun b hb => ?_, hnone (by simp)⟩
    simp only [Core.generateBlock, Core.invokeElect] at hb
    split at hb
    · split at hb <;> simp at hb
    · simp at hb
  | @block batch b bs core htodo hblocks hh =>
    refine ⟨fun b' hb => Or.inr (echoed_of_handlePropose htodo hh hb), fun j b' hb => ?_⟩
    obtain ⟨rfl, rfl, hv⟩ := mem_echoEvents.mp hb
    exact ⟨rfl, by simp only [incoming, htodo, hblocks], hv⟩
  | @loopBack b core htodo hblocks hh =>
    refine ⟨fun b' hb => Or.inr (echoed_of_handlePropose htodo hh hb), fun j b' hb => ?_⟩
    obtain ⟨rfl, rfl, hv⟩ := mem_echoEvents.mp hb
    exact ⟨rfl, rfl, hv⟩
  | @message batch m rest y evs htodo hblocks hrecv hh =>
    rcases handle_cases hh with ⟨msg, core, rfl, hcore, rfl, rfl⟩ | ⟨blocks, requests, rfl, rfl⟩
    · cases msg with
      | propose b =>
        refine ⟨fun b' hb => Or.inr (echoed_of_handlePropose htodo hcore hb), fun j b' hb => ?_⟩
        obtain ⟨rfl, rfl, hv⟩ := mem_echoEvents.mp hb
        exact ⟨rfl, by simp only [incoming, htodo, hblocks, hrecv], hv⟩
      | echo e =>
        refine ⟨fun b hb => ?_, hnone fun j b hb => ?_⟩
        · change .dag (.propose b) ∈ core.todo at hb
          rcases Core.handleEcho_cases hcore with rfl | ⟨_, rfl⟩ | ⟨_, rfl⟩ <;>
            simp [htodo, Core.propose] at hb
        · simp only [recvEvents, List.mem_append] at hb
          rcases hb with hb | hb
          · split at hb <;> simp at hb
          · unfold proposingEvents at hb
            split at hb <;> simp at hb
      | elect e =>
        change some (x.core.handleElect cr e) = some core at hcore
        cases hcore
        refine ⟨fun b hb => ?_, hnone (by simp [recvEvents])⟩
        change .dag (.propose b) ∈ (x.core.handleElect cr e).todo at hb
        rcases Core.handleElect_cases cr x.core e with heq | ⟨_, _, heq, _⟩ <;>
          simp [heq, htodo] at hb
    · exact ⟨fun _ hb => Or.inl hb, hnone (by simp)⟩

/-- The dag and the commitor take a step of their own, stop, or are left alone. -/
theorem Step.pair_cases {cr : Crypto} {i : Int} {x y : Host} {mv : HostMove} {evs : List Event}
    (hs : x.Step cr i mv y evs) : y.pair = x.pair ∨ y.pair = { x.pair with crashed := true } ∨
      ∃ a, x.pair.step a = some y.pair ∧ ∀ req, a = .send req → .dag req ∈ x.core.todo := by
  cases hs with
  | garbled | panicBlock | panicMessage | panicLoopBack | overflow => exact Or.inr (Or.inl rfl)
  | closed | receive | send | loop | block | loopBack | answer => exact Or.inl rfl
  | @dagReq batch req rest p htodo hp =>
    refine Or.inr (Or.inr ⟨_, hp, fun req' hreq => ?_⟩)
    cases hreq
    rw [htodo]
    exact List.mem_cons_self ..
  | build htodo hpc hp => exact Or.inr (Or.inr ⟨_, hp, by simp⟩)
  | @pair act p hown hover hp =>
    refine Or.inr (Or.inr ⟨_, hp, fun req hreq => ?_⟩)
    subst hreq
    cases hown
  | @message batch m rest y evs htodo hblocks hrecv hh =>
    rcases handle_cases hh with ⟨msg, core, rfl, hcore, rfl, rfl⟩ | ⟨blocks, requests, rfl, rfl⟩ <;>
      exact Or.inl rfl

end Host

namespace Net

/-- The blocks that a node has echoed. -/
def echoedBy (tr : List Event) (i : Int) : List Block :=
  tr.filterMap fun
    | .echoed j b => if j = i then some b else none
    | _ => none

private theorem mem_echoedBy {tr : List Event} {i : Int} {b : Block} :
    b ∈ echoedBy tr i ↔ .echoed i b ∈ tr := by
  apply Machine.mem_selected
  intro e a
  cases e <;> simp

/-- The members that have echoed a block with this content, counting those of `byz`, who
may have echoed anything. -/
def echoers (S : Setup) (byz : List Int) (tr : List Event) (b : Block) : List Int :=
  S.committee.ids.filter fun i => decide (i ∈ byz ∨ ∃ b' ∈ echoedBy tr i, SameContent b' b)

/-- The condition under which broadcast is consistent: an honest node accepts a correctly
signed block only if it has not accepted a different one for the same slot. -/
def acceptsOnce (S : Setup) (byz : List Int) (n : Net) (mv : Int × HostMove) : Bool :=
  ((n.hosts mv.1).incoming mv.2).all fun b =>
    decide (mv.1 ∉ byz → b.verify S.crypto S.committee = some true →
      ∀ b' ∈ echoedBy n.trace mv.1, b'.header.slot = b.header.slot → SameContent b' b)

/-- An honest node's dag holds only blocks that the node has echoed, and these have one
content for each slot. -/
structure Faithful (S : Setup) (tr : List Event) (i : Int) (x : Host) : Prop where
  committee : x.core.committee = S.committee
  todo : ∀ b, .dag (.propose b) ∈ x.core.todo → .echoed i b ∈ tr
  stored : x.pair.Stored fun b => .echoed i b ∈ tr
  inv : x.pair.Inv i S.committee
  once : ∀ b b', .echoed i b ∈ tr → .echoed i b' ∈ tr → b.header.slot = b'.header.slot →
    SameContent b b'

private theorem faithful_init (S : Setup) (i : Int) : Faithful S [] i (Host.init S i) where
  committee := rfl
  todo b h := by simp [Host.init, Core.init, Core.propose] at h
  stored := Pair.stored_init _ _ _
  inv := Pair.inv_init _ _
  once := by simp

private theorem faithful_step {S : Setup} {byz : List Int} {n : Net} {i : Int} {mv : HostMove}
    {y : Host} {evs : List Event} (hi : i ∉ byz) (h : Faithful S n.trace i (n.hosts i))
    (hok : acceptsOnce S byz n (i, mv) = true) (hs : (n.hosts i).Step S.crypto i mv y evs) :
    Faithful S (n.trace ++ evs) i y := by
  obtain ⟨htodo, hevs⟩ := hs.echoed_cases
  have hstored : (n.hosts i).pair.Stored fun b => .echoed i b ∈ n.trace ++ evs :=
    h.stored.mono fun b hb => List.mem_append_left _ hb
  have hnew : ∀ b, .echoed i b ∈ evs → ∀ b', .echoed i b' ∈ n.trace ++ evs →
      b'.header.slot = b.header.slot → SameContent b' b := by
    intro b hb b' hb' hslot
    obtain ⟨_, hin, hv⟩ := hevs i b hb
    rcases List.mem_append.mp hb' with hb' | hb'
    · simp only [acceptsOnce, hin, Option.all_some, decide_eq_true_eq] at hok
      exact hok hi (h.committee ▸ hv) b' (mem_echoedBy.mpr hb') hslot
    · obtain ⟨_, hin', _⟩ := hevs i b' hb'
      rw [hin] at hin'
      cases hin'
      exact ⟨rfl, rfl, rfl⟩
  have hpair : y.pair.Stored (fun b => .echoed i b ∈ n.trace ++ evs) ∧
      y.pair.Inv i S.committee := by
    rcases hs.pair_cases with heq | heq | ⟨a, ha, hreq⟩
    · rw [heq]
      exact ⟨hstored, h.inv⟩
    · rw [heq]
      exact ⟨hstored.crash, h.inv.crash⟩
    · refine ⟨Pair.stored_step hstored (fun b hb => ?_) (Pair.step_cases ha).2, h.inv.step ha⟩
      exact List.mem_append_left _ (h.todo b (hreq _ hb))
  refine ⟨hs.echo_cases.1.trans h.committee, fun b hb => ?_, hpair.1, hpair.2, ?_⟩
  · rcases htodo b hb with hb | hb
    · exact List.mem_append_left _ (h.todo b hb)
    · exact List.mem_append_right _ hb
  · intro b b' hb hb' hslot
    rcases List.mem_append.mp hb with hold | hb
    · rcases List.mem_append.mp hb' with hold' | hb'
      · exact h.once b b' hold hold' hslot
      · exact hnew b' hb' b hb hslot
    · exact (hnew b hb b' hb' hslot.symm).symm

private theorem Reaches.faithful {S : Setup} {byz : List Int} {moves : List (Int × HostMove)}
    {n : Net} (h : Reaches S moves n)
    (hok : Machine.Along (step S) (fun n mv => acceptsOnce S byz n mv = true) (init S) moves) :
    ∀ i ∈ S.committee.ids, i ∉ byz → Faithful S n.trace i (n.hosts i) := by
  refine invariant_hosts (P := fun tr i x => i ∉ byz → Faithful S tr i x)
    (fun i _ _ => faithful_init S i) ?_
    (fun _ _ _ _ _ _ hq hx hs hi => faithful_step hi (hx hi) hq hs) h hok
  intro tr i x j z mv y evs hne hs hx hi
  have hno : ∀ b, .echoed i b ∈ tr ++ evs → .echoed i b ∈ tr := by
    intro b hb
    rcases List.mem_append.mp hb with hb | hb
    · exact hb
    · exact absurd (hs.echoed_cases.2 i b hb).1.symm hne
  refine ⟨(hx hi).committee, fun b hb => List.mem_append_left _ ((hx hi).todo b hb),
    (hx hi).stored.mono fun b hb => List.mem_append_left _ hb, (hx hi).inv, ?_⟩
  intro b b' hb hb' hslot
  exact (hx hi).once b b' (hno b hb) (hno b' hb') hslot

/-- A block that a faithful node's dag holds at a slot has been echoed for this slot. -/
theorem Faithful.echoed {S : Setup} {tr : List Event} {i : Int} {x : Host}
    (h : Faithful S tr i x) {s : Slot} {b : Block}
    (habove : x.pair.dag.mark s.author < s.height) (hb : x.pair.dag.blockAt s = some b) :
    .echoed i b ∈ tr ∧ b.header.slot = s := by
  obtain ⟨l, hl, hb⟩ := Option.bind_eq_some_iff.mp hb
  rw [Option.join_eq_some_iff] at hb
  exact ⟨h.stored.cache _ l _ b hl hb, (h.inv.dagSide.cache.read hl habove hb).1⟩

private theorem mem_echoers {S : Setup} {byz : List Int} {tr : List Event} {b : Block} {i : Int} :
    i ∈ echoers S byz tr b ↔ i ∈ S.committee.ids ∧
      (i ∈ byz ∨ ∃ b', .echoed i b' ∈ tr ∧ SameContent b' b) := by
  simp only [echoers, List.mem_filter, decide_eq_true_eq, mem_echoedBy]

/-- The node's dag still holds something at a slot that is still above the watermark. -/
theorem stays_filled {S : Setup} {byz : List Int} {moves more : List (Int × HostMove)} {n n' : Net}
    (h : Reaches S moves n)
    (hok : Machine.Along (step S) (fun n mv => acceptsOnce S byz n mv = true) (init S) moves)
    (hmore : Machine.run (step S) n more = some n')
    (hokmore : Machine.Along (step S) (fun n mv => acceptsOnce S byz n mv = true) n more)
    {i : Int} (hi : i ∈ S.committee.ids) (hbyz : i ∉ byz) {s : Slot}
    (hsome : ((n.hosts i).pair.dag.blockAt s).isSome = true) :
    (n'.hosts i).pair.dag.mark s.author < s.height →
      ((n'.hosts i).pair.dag.blockAt s).isSome = true := by
  have hinv := Machine.invariant_along
    (P := fun u : Net => (∃ ms, Reaches S ms u ∧ Machine.Along (step S)
        (fun n mv => acceptsOnce S byz n mv = true) (init S) ms) ∧
      ((u.hosts i).pair.dag.mark s.author < s.height →
        ((u.hosts i).pair.dag.blockAt s).isSome = true))
    ?_ ⟨⟨moves, h, hok⟩, fun _ => hsome⟩ hokmore hmore
  · exact hinv.2
  · rintro u ⟨j, mv⟩ v ⟨⟨ms, hms, hokms⟩, hfilled⟩ hq hs
    refine ⟨⟨ms ++ [(j, mv)], Machine.run_concat.mpr ⟨u, hms, hs⟩, ?_⟩, fun habove => ?_⟩
    · refine Machine.along_append.mpr ⟨hokms, fun t ht => ?_⟩
      cases Option.some.inj (hms.symm.trans ht)
      exact ⟨hq, fun _ _ => trivial⟩
    · obtain ⟨_, y, evs, hy, rfl⟩ := step_cases hs
      by_cases hj : i = j
      · subst hj
        simp only [Function.update_self] at habove ⊢
        have hinv := (hms.faithful hokms i hi hbyz).inv
        rcases hy.pair_cases with heq | heq | ⟨a, ha, _⟩
        · rw [heq] at habove ⊢
          exact hfilled habove
        · rw [heq] at habove ⊢
          exact hfilled habove
        · obtain ⟨hlo, hkeeps⟩ := hinv.keeps_block (Pair.step_cases ha).2 habove
          exact hkeeps (hfilled hlo)
      · simp only [Function.update_of_ne hj] at habove ⊢
        exact hfilled habove

/-- **Consistent broadcast**, as long as honest nodes accept one block for each slot. Two
different blocks of one slot are never both echoed by `2f+1` members, at most `f` of which
may have echoed anything, and a block that an honest node's dag holds above the watermark
is never replaced by a different one. -/
theorem broadcast_consistent {S : Setup} {byz : List Int} {moves more : List (Int × HostMove)}
    {n n' : Net} {f : Nat} (hn : S.committee.size = 3 * f + 1) (hbyz : byz.length ≤ f)
    (h : Reaches S moves n)
    (hok : Machine.Along (step S) (fun n mv => acceptsOnce S byz n mv = true) (init S) moves)
    (hmore : Machine.run (step S) n more = some n')
    (hokmore : Machine.Along (step S) (fun n mv => acceptsOnce S byz n mv = true) n more) :
    (∀ b b', b.header.slot = b'.header.slot → 2 * f + 1 ≤ (echoers S byz n.trace b).length →
      2 * f + 1 ≤ (echoers S byz n.trace b').length → SameContent b b') ∧
    ∀ i ∈ S.committee.ids, i ∉ byz → ∀ s b,
      (n.hosts i).pair.dag.mark s.author < s.height →
      (n.hosts i).pair.dag.blockAt s = some b →
      (n'.hosts i).pair.dag.mark s.author < s.height →
      ∃ b', (n'.hosts i).pair.dag.blockAt s = some b' ∧ SameContent b b' := by
  constructor
  · intro b b' hslot hb hb'
    obtain ⟨i, hi, hi', hhonest⟩ := exists_common_notMem (u := S.committee.ids) (z := byz)
      (S.committee.nodup_ids.filter _) (S.committee.nodup_ids.filter _)
      List.filter_sublist.subset List.filter_sublist.subset
      (show _ < (echoers S byz n.trace b).length + (echoers S byz n.trace b').length by
        rw [S.committee.length_ids]
        omega)
    obtain ⟨hid, hmem⟩ := mem_echoers.mp hi
    obtain ⟨c, hc, hcb⟩ := hmem.resolve_left hhonest
    obtain ⟨c', hc', hcb'⟩ := (mem_echoers.mp hi').2.resolve_left hhonest
    have hsame := (h.faithful hok i hid hhonest).once c c' hc hc' (by
      rw [hcb.1, hcb'.1, hslot])
    exact hcb.symm.trans (hsame.trans hcb')
  · intro i hi hhonest s b habove hb habove'
    have hsome := stays_filled h hok hmore hokmore hi hhonest (by rw [hb]; rfl) habove'
    obtain ⟨b', hb'⟩ := Option.isSome_iff_exists.mp hsome
    refine ⟨b', hb', ?_⟩
    have hall : Reaches S (moves ++ more) n' := Machine.run_append.mpr ⟨n, h, hmore⟩
    have hokall := Machine.along_append.mpr ⟨hok, fun t ht => by
      cases Option.some.inj (h.symm.trans ht)
      exact hokmore⟩
    have hlast := hall.faithful hokall i hi hhonest
    obtain ⟨he', hslot'⟩ := hlast.echoed habove' hb'
    obtain ⟨he, hslot⟩ := (h.faithful hok i hi hhonest).echoed habove hb
    have htrace : n.trace ⊆ n'.trace := trace_subset hmore
    exact hlast.once b b' (htrace he) he' (hslot.trans hslot'.symm)

/-- A node receives some blocks first of all, echoes them and passes them to its dag. -/
def showBlocks (bs : List Block) (i : Int) : List (Int × HostMove) :=
  bs.map (fun b => (i, .receive (Codec.write (.net (.propose b))))) ++ firstBlock i ++
    List.replicate (3 * bs.length + 1) (i, .core ⟨-1, []⟩)

/-- Nodes `0`, `1` and `2` receive blocks, and the dag of node `0` stores the first. -/
def shown (bs : List Block) : List (Int × HostMove) :=
  [0, 1, 2].flatMap (showBlocks bs) ++ [(0, .pair (.dag []))]

/-- The first block of member `3`, in the given round. -/
def thirdBlock (round : Int) : Block := newBlock tagged.crypto 3 0 round 0 ⟨-1, []⟩ []

/-- A block stays what it was when the core goes on. -/
theorem broadcast_consistent_thirdBlock : ∃ n n', Reaches tagged (shown [thirdBlock 0]) n ∧
    Machine.run (step tagged) n [(0, .core ⟨-1, []⟩)] = some n' ∧
    (n.hosts 0).pair.dag.blockAt ⟨3, 0⟩ = some (thirdBlock 0) ∧
    ∃ b', (n'.hosts 0).pair.dag.blockAt ⟨3, 0⟩ = some b' ∧ SameContent (thirdBlock 0) b' := by
  have hstate : ∃ n ∈ Machine.run (step tagged) (init tagged) (shown [thirdBlock 0]),
      ∃ n' ∈ Machine.run (step tagged) n [(0, .core ⟨-1, []⟩)],
        (n.hosts 0).pair.dag.blockAt ⟨3, 0⟩ = some (thirdBlock 0) ∧
        (n.hosts 0).pair.dag.mark 3 < 0 ∧ (n'.hosts 0).pair.dag.mark 3 < 0 ∧
        Machine.Along (step tagged) (fun n mv => acceptsOnce tagged [3] n mv = true) n
          [(0, .core ⟨-1, []⟩)] := by decide +kernel
  have hok : Machine.Along (step tagged) (fun n mv => acceptsOnce tagged [3] n mv = true)
      (init tagged) (shown [thirdBlock 0]) := by decide +kernel
  obtain ⟨n, hn, n', hn', hb, hlo, hhi, hmore⟩ := hstate
  exact ⟨n, n', hn, hn', hb, (broadcast_consistent (f := 1) rfl (by decide) hn hok hn'
    hmore).2 0 (by decide) (by decide) ⟨3, 0⟩ _ hlo hb hhi⟩

/-- Member `3` shows two blocks of one slot to all others. Each of them echoes both, so
both have a quorum of echoes, and the dag of node `0` replaces the one by the other. -/
theorem equivocation_echoed_twice : ∃ n n', Reaches tagged (shown [thirdBlock 0, thirdBlock 7]) n ∧
    Machine.Along (step tagged) (fun n mv => unforged tagged [3] n mv = true) (init tagged)
      (shown [thirdBlock 0, thirdBlock 7]) ∧
    Machine.run (step tagged) n [(0, .pair (.dag []))] = some n' ∧
    ¬ SameContent (thirdBlock 0) (thirdBlock 7) ∧
    (∀ i ∈ [0, 1, 2], ∀ round ∈ [0, 7], .echoed i (thirdBlock round) ∈ n.trace ∧
      .sent i (.net (.echo (newEcho tagged.crypto i (thirdBlock round)))) ∈ n.trace) ∧
    (n.hosts 0).pair.dag.blockAt ⟨3, 0⟩ = some (thirdBlock 0) ∧
    (n'.hosts 0).pair.dag.blockAt ⟨3, 0⟩ = some (thirdBlock 7) ∧
    (n'.hosts 0).pair.dag.mark 3 < 0 := by
  have hstate : ∃ n ∈ Machine.run (step tagged) (init tagged) (shown [thirdBlock 0, thirdBlock 7]),
      ∃ n' ∈ Machine.run (step tagged) n [(0, .pair (.dag []))],
        (∀ i ∈ [0, 1, 2], ∀ round ∈ [0, 7], .echoed i (thirdBlock round) ∈ n.trace ∧
          .sent i (.net (.echo (newEcho tagged.crypto i (thirdBlock round)))) ∈ n.trace) ∧
        (n.hosts 0).pair.dag.blockAt ⟨3, 0⟩ = some (thirdBlock 0) ∧
        (n'.hosts 0).pair.dag.blockAt ⟨3, 0⟩ = some (thirdBlock 7) ∧
        (n'.hosts 0).pair.dag.mark 3 < 0 := by decide +kernel
  have hok : Machine.Along (step tagged) (fun n mv => unforged tagged [3] n mv = true)
      (init tagged) (shown [thirdBlock 0, thirdBlock 7]) := by decide +kernel
  obtain ⟨n, hn, n', hn', hrest⟩ := hstate
  exact ⟨n, n', hn, hok, hn', by decide, hrest⟩

end Net

end Remote

end Loom
