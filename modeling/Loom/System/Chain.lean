import Loom.System.Traffic
import Loom.System.Schedule
import Loom.Core.Quorum
import Mathlib.Order.Bounds.Defs

/-!
# The chain of a proposer

A node keeps no counter of its own: the height, round and `firstRefH` of its next block
come back in the echoes of the previous one. `Chained` says what the node's aggregators
and pending operations know about the blocks it proposed, and `Linked` what follows for
the chain of headers.
-/

namespace Loom.World

/-- The blocks that a node proposed, in order. -/
def chain (i : Int) (tr : List Event) : List Block :=
  tr.filterMap fun
    | .proposed b => if b.header.slot.author = i then some b else none
    | _ => none

/-- The blocks of one author. -/
theorem mem_chain {i : Int} {tr : List Event} {b : Block} :
    b ∈ chain i tr ↔ .proposed b ∈ tr ∧ b.header.slot.author = i := by
  simp only [chain, List.mem_filterMap]
  constructor
  · rintro ⟨e, he, hb⟩
    split at hb
    · simp only [Option.ite_none_right_eq_some, Option.some.injEq] at hb
      obtain ⟨ha, rfl⟩ := hb
      exact ⟨he, ha⟩
    · cases hb
  · rintro ⟨he, ha⟩
    exact ⟨_, he, if_pos ha⟩

/-- The chain of a longer trace. -/
theorem chain_append (i : Int) (tr evs : List Event) :
    chain i (tr ++ evs) = chain i tr ++ chain i evs := List.filterMap_append ..

/-- Events of others do not change a chain. -/
theorem chain_append_of_none {i : Int} {tr evs : List Event}
    (h : ∀ b, .proposed b ∈ evs → b.header.slot.author ≠ i) : chain i (tr ++ evs) = chain i tr := by
  have hnil : chain i evs = [] := by
    rw [List.eq_nil_iff_forall_not_mem]
    intro b hb
    obtain ⟨hmem, ha⟩ := mem_chain.mp hb
    exact h b hmem ha
  rw [chain_append, hnil, List.append_nil]

/-! ## Chains of headers -/

/-- The next block stays in the round or opens the next one. -/
def Follows (b b' : Header) : Prop :=
  b'.round = b.round ∧ b'.firstRefH = b.firstRefH ∨
    b'.round = b.round + 1 ∧ b'.firstRefH = b'.slot.height

/-- The blocks of one author from height `0` on. -/
structure Linked (i : Int) (bs : List Block) : Prop where
  slot : ∀ (k : Nat) b, bs[k]? = some b → b.header.slot = ⟨i, k⟩
  first : ∀ b, bs[0]? = some b → b.header.round = 0 ∧ b.header.firstRefH = 0
  next : ∀ (k : Nat) b b', bs[k]? = some b → bs[k + 1]? = some b' → Follows b.header b'.header

private theorem linked_nil (i : Int) : Linked i [] := ⟨by simp, by simp, by simp⟩

/-- Extending a chain by one block. -/
theorem Linked.concat {i : Int} {bs : List Block} (h : Linked i bs) {b : Block}
    (hslot : b.header.slot = ⟨i, bs.length⟩)
    (hfirst : bs = [] → b.header.round = 0 ∧ b.header.firstRefH = 0)
    (hnext : ∀ b₀, bs.getLast? = some b₀ → Follows b₀.header b.header) :
    Linked i (bs ++ [b]) where
  slot k b' hk := by
    rw [List.getElem?_append] at hk
    split at hk
    · exact h.slot k b' hk
    · rw [List.getElem?_singleton] at hk
      split at hk
      · cases hk
        rw [hslot, Slot.mk.injEq]
        exact ⟨rfl, by omega⟩
      · cases hk
  first b' hk := by
    cases bs with
    | nil =>
      cases hk
      exact hfirst rfl
    | cons b₀ bs => exact h.first b' hk
  next k b₁ b₂ h₁ h₂ := by
    rw [List.getElem?_append] at h₁ h₂
    split at h₂
    · rw [if_pos (by omega)] at h₁
      exact h.next k b₁ b₂ h₁ h₂
    · rw [List.getElem?_singleton] at h₂
      split at h₂
      · cases h₂
        rw [if_pos (by omega)] at h₁
        refine hnext b₁ ?_
        rw [List.getLast?_eq_getElem?, ← h₁]
        congr 1
        omega
      · cases h₂

/-- Below `firstRefH` the rounds are lower, and from there on they are the block's own. -/
theorem Linked.firstRefH {i : Int} {bs : List Block} (h : Linked i bs) :
    ∀ (k : Nat) b, bs[k]? = some b → 0 ≤ b.header.firstRefH ∧ b.header.firstRefH ≤ k ∧
      ∀ (j : Nat) b', bs[j]? = some b' →
        ((j : Int) < b.header.firstRefH → b'.header.round < b.header.round) ∧
        (b.header.firstRefH ≤ j → j ≤ k → b'.header.round = b.header.round) := by
  intro k
  induction k with
  | zero =>
    intro b hb
    obtain ⟨hr, hf⟩ := h.first b hb
    refine ⟨by omega, by omega, fun j b' hj => ⟨by omega, fun _ hle => ?_⟩⟩
    have hj0 : j = 0 := by omega
    subst hj0
    rw [hb] at hj
    cases hj
    rfl
  | succ k ih =>
    intro b hb
    obtain ⟨hlt, _⟩ := List.getElem?_eq_some_iff.mp hb
    have hk : bs[k]? = some bs[k] := List.getElem?_eq_getElem (by omega)
    obtain ⟨h0, hle, hall⟩ := ih _ hk
    have hself : ∀ (j : Nat) b', bs[j]? = some b' → j = k + 1 →
        b'.header.round = b.header.round := by
      rintro j b' hj rfl
      rw [hb] at hj
      cases hj
      rfl
    rcases h.next k _ b hk hb with ⟨hr, hf⟩ | ⟨hr, hf⟩
    · refine ⟨by omega, by omega, fun j b' hj => ⟨fun hlt => ?_, fun hge hle' => ?_⟩⟩
      · have hlow := (hall j b' hj).1 (by omega)
        omega
      · by_cases heq : j = k + 1
        · exact hself j b' hj heq
        · have hsame := (hall j b' hj).2 (by omega) (by omega)
          omega
    · rw [h.slot _ _ hb] at hf
      dsimp only at hf
      refine ⟨by omega, by omega, fun j b' hj => ⟨fun hlt => ?_, fun hge hle' => ?_⟩⟩
      · by_cases hlow : (j : Int) < bs[k].header.firstRefH
        · have hl := (hall j b' hj).1 hlow
          omega
        · have hsame := (hall j b' hj).2 (by omega) (by omega)
          omega
      · exact hself j b' hj (by omega)

/-- `firstRefH` is the least height of the proposer's blocks of the same round. -/
theorem Linked.isLeast {i : Int} {bs : List Block} (h : Linked i bs) {b : Block} (hb : b ∈ bs) :
    IsLeast { k | ∃ b' ∈ bs, b'.header.round = b.header.round ∧ b'.header.slot.height = k }
      b.header.firstRefH := by
  obtain ⟨k, hk⟩ := List.mem_iff_getElem?.mp hb
  obtain ⟨h0, hle, hall⟩ := h.firstRefH k b hk
  obtain ⟨hlt, _⟩ := List.getElem?_eq_some_iff.mp hk
  constructor
  · have hj : bs[b.header.firstRefH.toNat]? = some bs[b.header.firstRefH.toNat] :=
      List.getElem?_eq_getElem (by omega)
    refine ⟨_, List.mem_of_getElem? hj, (hall _ _ hj).2 (by omega) (by omega), ?_⟩
    rw [h.slot _ _ hj]
    dsimp only
    omega
  · rintro x ⟨b', hb', hr, rfl⟩
    obtain ⟨j, hj⟩ := List.mem_iff_getElem?.mp hb'
    rw [h.slot j b' hj]
    dsimp only
    by_contra hlow
    have hlt := (hall j b' hj).1 (by omega)
    omega

/-! ## What a node knows about its chain -/

/-- Whether a proposal has been started and not yet built. -/
def awaits (todo : List CoreAct) : Bool :=
  todo.any fun
    | .awaitRef _ _ _ => true
    | _ => false

/-- The number of proposals started so far. -/
def begun (i : Int) (tr : List Event) (todo : List CoreAct) : Int :=
  (chain i tr).length + if awaits todo then 1 else 0

/-- The echoes counted for a height: distinct members that echoed the block there. -/
structure Tally (S : Setup) (tr : List Event) (i h : Int) (ag : Aggregator Echo) : Prop where
  ok : ag.Ok S.committee
  nonneg : 0 ≤ h
  echoes : ∃ b, (chain i tr)[h.toNat]? = some b ∧ ∀ j ∈ ag.used, .echoed j b.header ∈ tr

/-- The aggregators of all started heights but the last have met their quorum, and a
started proposal continues the chain. -/
structure Chained (S : Setup) (tr : List Event) (i : Int) (x : Node) : Prop where
  linked : Linked i (chain i tr)
  next : ∀ h r f : Int, .awaitRef h r f ∈ x.core.todo → h = (chain i tr).length ∧
    ∀ b, (chain i tr).getLast? = some b → r = b.header.round ∧ f = b.header.firstRefH
  start : chain i tr = [] →
    (x.core.todo = Core.propose 0 0 0 ∨ x.core.todo = [.awaitRef 0 0 0]) ∧
      x.pair.Stored fun _ => False
  votes : ∀ h ag, x.core.voteAg.lookup h = some ag → Tally S tr i h ag ∧
    (S.committee.hightThreshold ≤ ag.used.length ↔ h + 1 < begun i tr x.core.todo)
  fired : ∀ k : Nat, (k : Int) + 1 < begun i tr x.core.todo →
    ∃ ag, x.core.voteAg.lookup (k : Int) = some ag ∧ S.committee.hightThreshold ≤ ag.used.length

/-- At the start all chains are empty. -/
theorem chained_init (S : Setup) (i : Int) : Chained S [] i (Node.init S.committee i) where
  linked := linked_nil i
  next h r f hmem := by
    simp only [Node.init, Core.init, Core.propose, List.mem_cons, List.not_mem_nil, or_false,
      reduceCtorEq, false_or, CoreAct.awaitRef.injEq] at hmem
    obtain ⟨rfl, rfl, rfl⟩ := hmem
    exact ⟨rfl, by simp [chain]⟩
  start _ := ⟨Or.inl rfl, Pair.stored_init _ _ _⟩
  votes := by simp [Node.init, Core.init]
  fired k hk := by
    simp only [begun, chain, List.filterMap_nil, List.length_nil] at hk
    split at hk <;> omega

/-- Votes stay counted. -/
theorem Tally.mono {S : Setup} {tr tr' : List Event} {i h : Int} {ag : Aggregator Echo}
    (ht : Tally S tr i h ag) (hsub : tr ⊆ tr') (hpre : chain i tr <+: chain i tr') :
    Tally S tr' i h ag := by
  obtain ⟨b, hb, he⟩ := ht.echoes
  refine ⟨ht.ok, ht.nonneg, b, ?_, fun j hj => hsub (he j hj)⟩
  obtain ⟨rest, hrest⟩ := hpre
  rw [← hrest, List.getElem?_append_left (List.getElem?_eq_some_iff.mp hb).1]
  exact hb

/-- A step that leaves the node's chain, aggregators and started proposals alone. -/
theorem Chained.frame {S : Setup} {tr tr' : List Event} {i : Int} {x x' : Node}
    (h : Chained S tr i x) (hsub : tr ⊆ tr') (hchain : chain i tr' = chain i tr)
    (hvotes : x'.core.voteAg = x.core.voteAg)
    (hawait : ∀ a b c, .awaitRef a b c ∈ x'.core.todo ↔ .awaitRef a b c ∈ x.core.todo)
    (hstart : chain i tr = [] →
      (x'.core.todo = Core.propose 0 0 0 ∨ x'.core.todo = [.awaitRef 0 0 0]) ∧
        x'.pair.Stored fun _ => False) : Chained S tr' i x' := by
  have haw : awaits x'.core.todo = awaits x.core.todo := by
    rw [Bool.eq_iff_iff]
    simp only [awaits, List.any_eq_true]
    constructor
    · rintro ⟨act, hmem, hact⟩
      split at hact
      · exact ⟨_, (hawait _ _ _).mp hmem, rfl⟩
      · cases hact
    · rintro ⟨act, hmem, hact⟩
      split at hact
      · exact ⟨_, (hawait _ _ _).mpr hmem, rfl⟩
      · cases hact
  have hbegun : begun i tr' x'.core.todo = begun i tr x.core.todo := by
    rw [begun, begun, hchain, haw]
  refine ⟨by rw [hchain]; exact h.linked, ?_, by rw [hchain]; exact hstart, ?_, ?_⟩
  · intro a b c hmem
    rw [hchain]
    exact h.next a b c ((hawait a b c).mp hmem)
  · intro k ag hk
    rw [hvotes] at hk
    rw [hbegun]
    obtain ⟨ht, hq⟩ := h.votes k ag hk
    exact ⟨ht.mono hsub (hchain ▸ List.prefix_rfl), hq⟩
  · intro k hk
    rw [hbegun] at hk
    rw [hvotes]
    exact h.fired k hk

/-- Performing an operation other than building a block. -/
theorem Chained.pop {S : Setup} {tr tr' : List Event} {i : Int} {x x' : Node} {act : CoreAct}
    {rest : List CoreAct} (h : Chained S tr i x) (hsub : tr ⊆ tr')
    (hchain : chain i tr' = chain i tr) (htodo : x.core.todo = act :: rest)
    (hact : ∀ a b c, act ≠ .awaitRef a b c) (hcore : x'.core = { x.core with todo := rest })
    (hpair : act = .dag (.refReq 0) → x.pair.Stored (fun _ => False) →
      x'.pair.Stored fun _ => False) : Chained S tr' i x' := by
  refine h.frame hsub hchain (by rw [hcore]) ?_ ?_
  · intro a b c
    rw [hcore, htodo, List.mem_cons]
    constructor
    · exact Or.inr
    · rintro (he | hmem)
      · exact absurd he.symm (hact a b c)
      · exact hmem
  · intro hnil
    obtain ⟨hshape, hst⟩ := h.start hnil
    rw [htodo] at hshape
    rcases hshape with he | he
    · obtain ⟨rfl, rfl⟩ := List.cons.inj he
      rw [hcore]
      exact ⟨Or.inr rfl, hpair rfl hst⟩
    · exact absurd (List.cons.inj he).1 (hact _ _ _)

private theorem awaits_generateBlock (cr : Crypto) (c : Core) (height round oldFirstRefH : Int)
    (ref : List Header) (batch : Batch) {a b d : Int} :
    .awaitRef a b d ∉ c.generateBlock cr height round oldFirstRefH ref batch := by
  intro hmem
  simp only [Core.generateBlock, List.mem_append, List.mem_cons, List.not_mem_nil, or_false,
    reduceCtorEq] at hmem
  split at hmem
  · unfold Core.invokeElect at hmem
    split at hmem <;> simp at hmem
  · cases hmem

private theorem awaits_eq_false {todo : List CoreAct} (h : ∀ a b c, .awaitRef a b c ∉ todo) :
    awaits todo = false := by
  rw [awaits, List.any_eq_false]
  intro act hact
  split
  · exact absurd hact (h _ _ _)
  · exact Bool.false_ne_true

/-- The first block has no references. -/
theorem Chained.ref_nil {S : Setup} {tr : List Event} {i : Int} {x : Node} (h : Chained S tr i x)
    {ref : List Header} (hpc : x.pair.dagPc = .refResp ref) (hnil : chain i tr = []) :
    ref = [] := by
  rw [List.eq_nil_iff_forall_not_mem]
  intro k hk
  obtain ⟨_, hfalse, _⟩ := (h.start hnil).2.refs ref hpc k hk
  exact hfalse

/-- The block built continues the chain. -/
theorem Chained.build {S : Setup} {tr : List Event} {i : Int} {x x' : Node}
    {height round oldFirstRefH : Int} {rest : List CoreAct} {ref : List Header} {batch : Batch}
    (h : Chained S tr i x) (hid : x.core.nodeID = i)
    (htodo : x.core.todo = .awaitRef height round oldFirstRefH :: rest)
    (hpc : x.pair.dagPc = .refResp ref)
    (hcore : x'.core = { x.core with
      todo := x.core.generateBlock S.crypto height round oldFirstRefH ref batch }) :
    Chained S (tr ++ buildEvents i ref
      (x.core.buildBlock S.crypto height round oldFirstRefH ref batch)) i x' := by
  generalize hb : x.core.buildBlock S.crypto height round oldFirstRefH ref batch = b
  have hhead : b.header = ⟨⟨i, height⟩, Core.nextRound round ref,
      Core.nextFirstRefH height oldFirstRefH ref⟩ := by
    rw [← hb, ← hid]
    rfl
  obtain ⟨hheight, hlast⟩ := h.next _ _ _ (htodo ▸ List.mem_cons_self ..)
  have hchain : chain i (tr ++ buildEvents i ref b) = chain i tr ++ [b] := by
    rw [chain_append]
    congr 1
    unfold buildEvents
    split <;> simp [chain, hhead]
  have hawait : ∀ a c d, .awaitRef a c d ∉ x'.core.todo := by
    intro a c d
    rw [hcore]
    exact awaits_generateBlock _ _ _ _ _ _ _
  have hbegun : begun i (tr ++ buildEvents i ref b) x'.core.todo = begun i tr x.core.todo := by
    have haw : awaits x.core.todo = true := by
      rw [htodo]
      rfl
    rw [begun, begun, hchain, awaits_eq_false hawait, haw, List.length_append,
      List.length_singleton]
    simp
  refine ⟨?_, ?_, ?_, ?_, ?_⟩
  · rw [hchain]
    refine h.linked.concat (by rw [hhead, hheight]) ?_ ?_
    · intro hnil
      obtain ⟨hshape, _⟩ := h.start hnil
      have hround : round = 0 ∧ oldFirstRefH = 0 := by
        rw [htodo] at hshape
        rcases hshape with he | he
        · cases he
        · cases he
          exact ⟨rfl, rfl⟩
      simp [hhead, h.ref_nil hpc hnil, Core.nextRound, Core.nextFirstRefH, Core.opens, hround]
    · intro b₀ hb₀
      obtain ⟨rfl, rfl⟩ := hlast b₀ hb₀
      simp only [Follows, hhead, Core.nextRound, Core.nextFirstRefH]
      split
      · exact Or.inr ⟨rfl, rfl⟩
      · exact Or.inl ⟨rfl, rfl⟩
  · intro a c d hmem
    exact absurd hmem (hawait a c d)
  · intro hnil
    rw [hchain] at hnil
    simp at hnil
  · intro k ag hk
    rw [hbegun]
    rw [hcore] at hk
    obtain ⟨ht, hq⟩ := h.votes k ag hk
    refine ⟨ht.mono (List.subset_append_left _ _) ?_, hq⟩
    rw [hchain]
    exact List.prefix_append _ _
  · intro k hk
    rw [hbegun] at hk
    rw [hcore]
    exact h.fired k hk

/-- Where an echo for a node's block belongs in its chain. -/
theorem Chained.echo_index {S : Setup} {tr : List Event} {i : Int} {x : Node} {e : Echo}
    (h : Chained S tr i x) (hsent : Sent S tr i (.echo e)) :
    ∃ (k : Nat) (b : Block), (chain i tr)[k]? = some b ∧ b.header = e.header ∧
      e.header.slot.height = k := by
  obtain ⟨_, hauth, _, b, hb, hh⟩ := hsent
  have hmem : b ∈ chain i tr := mem_chain.mpr ⟨hb, by rw [hh, hauth]⟩
  obtain ⟨k, hk⟩ := List.mem_iff_getElem?.mp hmem
  refine ⟨k, b, hk, hh, ?_⟩
  rw [← hh, h.linked.slot k b hk]

/-- The aggregator of a height before an echo is added. -/
theorem Chained.tally {S : Setup} {tr : List Event} {i : Int} {x : Node}
    (h : Chained S tr i x) (hcom : x.core.committee = S.committee) {k : Nat} {b : Block}
    (hk : (chain i tr)[k]? = some b) :
    Tally S tr i k ((x.core.voteAg.lookup (k : Int)).getD (newAggregator x.core.committee)) ∧
      (S.committee.hightThreshold ≤ ((x.core.voteAg.lookup (k : Int)).getD
        (newAggregator x.core.committee)).used.length ↔
        (k : Int) + 1 < begun i tr x.core.todo) := by
  cases hl : x.core.voteAg.lookup (k : Int) with
  | some ag => exact h.votes k ag hl
  | none =>
    rw [Option.getD_none, hcom]
    refine ⟨⟨Aggregator.ok_new _, by omega, b, by simpa using hk, by simp [newAggregator]⟩, ?_⟩
    constructor
    · intro hq
      simp only [newAggregator, List.length_nil, Committee.hightThreshold] at hq
      omega
    · intro hlt
      obtain ⟨ag, hag, _⟩ := h.fired k hlt
      rw [hl] at hag
      cases hag

/-- The echo of a member who has echoed the block of a height, added to its aggregator. -/
theorem Tally.add {S : Setup} {tr : List Event} {i : Int} {k : Nat} {ag ag' : Aggregator Echo}
    {a : Int} {b : Block} (h : Tally S tr i k ag) (hk : (chain i tr)[k]? = some b)
    (hechoed : .echoed a b.header ∈ tr) (hok : ag'.Ok S.committee)
    (hused : ∀ j ∈ ag'.used, j = a ∨ j ∈ ag.used) : Tally S tr i k ag' := by
  obtain ⟨b', hb', he⟩ := h.echoes
  rw [Int.toNat_natCast, hk, Option.some.injEq] at hb'
  subst hb'
  refine ⟨hok, by omega, b, by rw [Int.toNat_natCast]; exact hk, fun j hj => ?_⟩
  rcases hused j hj with rfl | hj
  · exact hechoed
  · exact he j hj

/-- A counted echo that does not complete a quorum. -/
theorem Chained.counted {S : Setup} {tr : List Event} {i : Int} {x x' : Node} {k : Nat}
    {ag : Aggregator Echo} (h : Chained S tr i x) (hne : chain i tr ≠ [])
    (htally : Tally S tr i k ag) (hq : S.committee.hightThreshold ≤ ag.used.length ↔
      (k : Int) + 1 < begun i tr x.core.todo)
    (hcore : x'.core = { x.core with voteAg := x.core.voteAg.insert (k : Int) ag }) :
    Chained S tr i x' := by
  refine ⟨h.linked, ?_, fun hnil => absurd hnil hne, ?_, ?_⟩
  · intro a c d hmem
    rw [hcore] at hmem
    exact h.next a c d hmem
  · intro k' ag' hk'
    rw [hcore] at hk' ⊢
    rw [GoMap.lookup_insert_ite] at hk'
    split at hk'
    · cases hk'
      subst k'
      exact ⟨htally, hq⟩
    · exact h.votes k' ag' hk'
  · intro k' hk'
    rw [hcore] at hk' ⊢
    simp only [GoMap.lookup_insert_ite]
    split
    · rename_i heq
      rw [heq] at hk'
      exact ⟨_, rfl, hq.mpr hk'⟩
    · exact h.fired k' hk'

/-- The quorum of the latest block starts the next proposal. -/
theorem Chained.proposes {S : Setup} {tr : List Event} {i : Int} {x x' : Node} {k : Nat}
    {b : Block} {ag : Aggregator Echo} (h : Chained S tr i x) (htodo : x.core.todo = [])
    (hk : (chain i tr)[k]? = some b) (hlast : (k : Int) + 1 = (chain i tr).length)
    (htally : Tally S tr i k ag) (hquorum : S.committee.hightThreshold ≤ ag.used.length)
    (hcore : x'.core = { x.core with
      voteAg := x.core.voteAg.insert (k : Int) ag
      todo := Core.propose (k + 1) b.header.round b.header.firstRefH }) : Chained S tr i x' := by
  have hbegun : begun i tr x.core.todo = (chain i tr).length := by
    simp [begun, htodo, awaits]
  have hbegun' : begun i tr x'.core.todo = (chain i tr).length + 1 := by
    rw [hcore]
    rfl
  refine ⟨h.linked, ?_, ?_, ?_, ?_⟩
  · intro a c d hmem
    rw [hcore] at hmem
    simp only [Core.propose, List.mem_cons, List.not_mem_nil, or_false, reduceCtorEq, false_or,
      CoreAct.awaitRef.injEq] at hmem
    obtain ⟨rfl, rfl, rfl⟩ := hmem
    refine ⟨hlast, fun b' hb' => ?_⟩
    rw [List.getLast?_eq_getElem?, show (chain i tr).length - 1 = k by omega, hk] at hb'
    cases hb'
    exact ⟨rfl, rfl⟩
  · intro hnil
    simp [hnil] at hk
  · intro k' ag' hk'
    rw [hbegun']
    rw [hcore, GoMap.lookup_insert_ite] at hk'
    split at hk'
    · cases hk'
      subst k'
      exact ⟨htally, iff_of_true hquorum (by omega)⟩
    · obtain ⟨ht', hq'⟩ := h.votes k' ag' hk'
      refine ⟨ht', ?_⟩
      obtain ⟨b', hb', _⟩ := ht'.echoes
      have hlt := (List.getElem?_eq_some_iff.mp hb').1
      have h0 := ht'.nonneg
      rw [hq', hbegun]
      omega
  · intro k' hk'
    rw [hbegun'] at hk'
    rw [hcore]
    simp only [GoMap.lookup_insert_ite]
    split
    · exact ⟨_, rfl, hquorum⟩
    · exact h.fired k' (by rw [hbegun]; omega)

/-- A counted echo: the quorum of the latest block starts the next proposal. -/
theorem Chained.echo {S : Setup} {tr : List Event} {i : Int} {x x' : Node} {e : Echo} {core : Core}
    {f : Nat} (hn : S.committee.size = 3 * f + 1) (h : Chained S tr i x)
    (hcom : x.core.committee = S.committee) (hsent : Sent S tr i (.echo e))
    (htodo : x.core.todo = []) (hh : x.core.handleEcho S.crypto e = some core)
    (hcore : x'.core = core) : Chained S tr i x' := by
  obtain ⟨k, b, hk, hb, hheight⟩ := h.echo_index hsent
  obtain ⟨ht, hq⟩ := h.tally hcom hk
  obtain ⟨hmem, _, hechoed, _⟩ := hsent
  have hklen : k < (chain i tr).length := (List.getElem?_eq_some_iff.mp hk).1
  have hne : chain i tr ≠ [] := by
    intro hnil
    simp [hnil] at hk
  have hvotes : x.core.votesFor e = ((x.core.voteAg.lookup (k : Int)).getD
      (newAggregator x.core.committee)).push e.author e := by
    rw [Core.votesFor, hheight]
  generalize (x.core.voteAg.lookup (k : Int)).getD (newAggregator x.core.committee) = ag
    at ht hq hvotes
  have hpush := ht.ok.push_take (Committee.size_lt hn) hmem e
  rw [← hvotes] at hpush
  have hused : ∀ j ∈ (x.core.votesFor e).used, j = e.author ∨ j ∈ ag.used := by
    intro j hj
    rw [hvotes] at hj
    exact Aggregator.mem_push_used.mp hj
  rw [← hb] at hechoed
  rcases Core.handleEcho_cases hh with rfl | ⟨hnone, rfl⟩ | ⟨⟨msgs, hsome⟩, rfl⟩
  · refine h.frame (fun _ hev => hev) rfl (by rw [hcore]) (by rw [hcore]; simp) ?_
    intro hnil
    exact absurd hnil hne
  · rcases hpush with ⟨_, htake, hok, _, hiff⟩ | ⟨⟨_, hsome⟩, _⟩
    · rw [htake, hheight] at hcore
      exact h.counted hne (ht.add hk hechoed hok hused) (hiff.trans hq) hcore
    · rw [hnone] at hsome
      cases hsome
  · rcases hpush with ⟨hnone, _⟩ | ⟨_, hlow, hquorum, hok, hsame, _⟩
    · rw [hnone] at hsome
      cases hsome
    · have hlast : (k : Int) + 1 = (chain i tr).length := by
        simp only [begun, htodo, awaits, List.any_nil, Bool.false_eq_true, if_false] at hq
        omega
      rw [hheight, ← hb] at hcore
      exact h.proposes htodo hk hlast (ht.add hk hechoed hok (by rw [hsame]; exact hused)) hquorum
        hcore

/-- A handled message of any kind. -/
theorem Chained.handle {S : Setup} {tr : List Event} {i : Int} {x : Node} {msg : NetMessage}
    {recvCh : List NetMessage} {core : Core} {f : Nat} (hn : S.committee.size = 3 * f + 1)
    (hloc : Local S tr i x) (h : Chained S tr i x) (hrecv : x.recvCh = msg :: recvCh)
    (htodo : x.core.todo = []) (hh : x.core.handle S.crypto msg = some core) :
    Chained S tr i { x with core := core, recvCh := recvCh } := by
  have hne : chain i tr ≠ [] := by
    intro hnil
    obtain ⟨he | he, _⟩ := h.start hnil <;> rw [htodo] at he <;> cases he
  cases msg with
  | propose b =>
    refine h.frame (fun _ hev => hev) rfl ?_ ?_ fun hnil => absurd hnil hne
    · rcases Core.handlePropose_cases hh with rfl | rfl <;> rfl
    · intro a c d
      rcases Core.handlePropose_cases hh with rfl | rfl
      · rfl
      · simp [htodo]
  | echo e =>
    exact h.echo hn hloc.committee (hloc.recv _ (hrecv ▸ List.mem_cons_self ..)) htodo hh rfl
  | elect e =>
    cases hh
    have hcases := Core.handleElect_cases S.crypto x.core e
    refine h.frame (fun _ hev => hev) rfl ?_ ?_ fun hnil => absurd hnil hne
    · rcases hcases with heq | ⟨_, _, heq, _⟩ <;> rw [heq]
    · intro a c d
      rcases hcases with heq | ⟨_, _, heq, _⟩ <;> rw [heq]
      simp [htodo]

/-- The step of one node, seen from the others. -/
theorem chained_setNode {S : Setup} {w w' : World} (h : ∀ j, Chained S w.trace j (w.nodes j))
    {i : Int} {x : Node} (hnodes : ∀ j, w'.nodes j = if j = i then x else w.nodes j)
    {evs : List Event} (htrace : w'.trace = w.trace ++ evs)
    (hother : ∀ j, j ≠ i → ∀ b, .proposed b ∈ evs → b.header.slot.author ≠ j)
    (hx : Chained S w'.trace i x) : ∀ j, Chained S w'.trace j (w'.nodes j) := by
  intro j
  rw [hnodes]
  split
  · subst j
    exact hx
  · rename_i hne
    rw [htrace]
    exact (h j).frame (List.subset_append_left _ _) (chain_append_of_none (hother j hne)) rfl
      (fun _ _ _ => Iff.rfl) fun hnil => (h j).start hnil

/-- Every move keeps all chains. -/
theorem chained_step {S : Setup} {w w' : World} {mv : Move} {f : Nat}
    (hn : S.committee.size = 3 * f + 1) (ht : Traffic S w)
    (h : ∀ j, Chained S w.trace j (w.nodes j)) (hs : w.Step S mv w') :
    ∀ j, Chained S w'.trace j (w'.nodes j) := by
  cases hs with
  | @deliver k p hp =>
    refine chained_setNode h (setNode_nodes _ _ · _) (List.append_nil _).symm (by simp) ?_
    exact (h p.dst).frame (fun _ hev => hev) rfl rfl (fun _ _ _ => Iff.rfl) (h p.dst).start
  | @send i batch dst msg rest hi htodo =>
    have hev : ∀ b, Event.proposed b ∉ sendEvents i msg := by
      intro b hb
      cases msg <;> simp [sendEvents] at hb
    refine chained_setNode h (setNode_nodes _ _ · _) rfl (fun _ _ b hb => absurd hb (hev b)) ?_
    exact (h i).pop (List.subset_append_left _ _)
      (chain_append_of_none fun b hb => absurd hb (hev b))
      htodo (by simp) rfl (by simp)
  | @loop i batch msg rest hi htodo =>
    refine chained_setNode h (setNode_nodes _ _ · _) (List.append_nil _).symm (by simp) ?_
    exact (h i).pop (fun _ hev => hev) rfl htodo (by simp) rfl (by simp)
  | @dagReq i batch req rest p hi htodo hp =>
    have hev : ∀ b, Event.proposed b ∉ dagEvents i req := by
      intro b hb
      cases req <;> simp [dagEvents] at hb
    refine chained_setNode h (setNode_nodes _ _ · _) rfl (fun _ _ b hb => absurd hb (hev b)) ?_
    refine (h i).pop (List.subset_append_left _ _)
      (chain_append_of_none fun b hb => absurd hb (hev b)) htodo (by simp) rfl ?_
    intro hact hst
    refine Pair.stored_step hst ?_ (Pair.step_cases hp).2
    intro b hb
    cases hact
    cases hb
  | @build i batch height round oldFirstRefH rest ref p hi htodo hpc hp =>
    have hid := (ht.node i).nodeID
    refine chained_setNode h (setNode_nodes _ _ · _) rfl ?_ ((h i).build hid htodo hpc rfl)
    intro j hj b hb
    simp only [buildEvents, List.mem_append, List.mem_singleton, Event.proposed.injEq] at hb
    rcases hb with hb | rfl
    · split at hb <;> simp at hb
    · simp only [Core.buildBlock, newBlock_header, hid]
      exact Ne.symm hj
  | @panic i batch msg recvCh hi _ _ _ =>
    refine chained_setNode h (setNode_nodes _ _ · _) (List.append_nil _).symm (by simp) ?_
    refine (h i).frame (fun _ hev => hev) rfl rfl (fun _ _ _ => Iff.rfl) fun hnil => ?_
    exact ⟨((h i).start hnil).1, ((h i).start hnil).2.crash⟩
  | @handle i batch msg recvCh core hi htodo hrecv hh =>
    have hev : ∀ b, Event.proposed b ∉ recvEvents i msg := by
      intro b hb
      cases msg <;> simp [recvEvents] at hb
    refine chained_setNode h (setNode_nodes _ _ · _) rfl (fun _ _ b hb => absurd hb (hev b)) ?_
    refine Chained.frame ((h i).handle hn (ht.node i) hrecv htodo hh) (List.subset_append_left _ _)
      (chain_append_of_none fun b hb => absurd hb (hev b)) rfl (fun _ _ _ => Iff.rfl) ?_
    exact ((h i).handle hn (ht.node i) hrecv htodo hh).start
  | @pair i act p hi hown hp =>
    have hev : ∀ b, Event.proposed b ∉ pairEvents i (w.nodes i).pair act := by
      intro b hb
      unfold pairEvents at hb
      split at hb
      · split at hb <;> simp at hb
      · cases hb
    refine chained_setNode h (setNode_nodes _ _ · _) rfl (fun _ _ b hb => absurd hb (hev b)) ?_
    refine (h i).frame (List.subset_append_left _ _)
      (chain_append_of_none fun b hb => absurd hb (hev b)) rfl (fun _ _ _ => Iff.rfl) fun hnil => ?_
    refine ⟨((h i).start hnil).1, Pair.stored_step ((h i).start hnil).2 ?_ (Pair.step_cases hp).2⟩
    rintro b rfl
    cases hown

/-- So they are chains after every run. -/
theorem Reaches.chained {S : Setup} {moves : List Move} {w : World} {f : Nat}
    (hn : S.committee.size = 3 * f + 1) (h : Reaches S moves w) :
    ∀ i, Chained S w.trace i (w.nodes i) :=
  Machine.invariant_reached (P := fun w => ∀ i, Chained S w.trace i (w.nodes i))
    (fun i => chained_init S i)
    (fun _ _ _ _ hu hi _ hs => chained_step hn (Reaches.traffic hu) hi (step_cases hs))
    (Machine.along_of_forall fun _ _ _ => trivial) h

/-- **Header chain of an honest proposer.** The blocks that a node proposes have the
heights `0, 1, 2, …` in this order; the round starts at `0` and stays or grows by one
from block to block; and `firstRefH` is the least height among the node's blocks of the
same round. -/
theorem proposed_chain {S : Setup} {moves : List Move} {w : World} {f : Nat}
    (hn : S.committee.size = 3 * f + 1) (h : Reaches S moves w) (i : Int) :
    (∀ (k : Nat) b, (chain i w.trace)[k]? = some b → b.header.slot = ⟨i, k⟩) ∧
    (∀ b, (chain i w.trace)[0]? = some b → b.header.round = 0) ∧
    (∀ (k : Nat) b b', (chain i w.trace)[k]? = some b → (chain i w.trace)[k + 1]? = some b' →
      b'.header.round = b.header.round ∨ b'.header.round = b.header.round + 1) ∧
    ∀ b ∈ chain i w.trace, IsLeast { k | ∃ b' ∈ chain i w.trace,
      b'.header.round = b.header.round ∧ b'.header.slot.height = k } b.header.firstRefH := by
  have hl := (h.chained hn i).linked
  refine ⟨hl.slot, fun b hb => (hl.first b hb).1, ?_, fun b hb => hl.isLeast hb⟩
  intro k b b' hb hb'
  rcases hl.next k b b' hb hb' with ⟨hr, _⟩ | ⟨hr, _⟩
  · exact Or.inl hr
  · exact Or.inr hr

/-- The fourth block of member `0` opens round `1`. -/
theorem proposed_chain_eight_sweeps : ∃ moves w, Reaches fourNodes moves w ∧
    ∃ b ∈ chain 0 w.trace, b.header = ⟨⟨0, 3⟩, 1, 3⟩ ∧
      IsLeast { k | ∃ b' ∈ chain 0 w.trace,
        b'.header.round = b.header.round ∧ b'.header.slot.height = k } 3 := by
  have hrun := follow_reaches fourNodes (wakeUp ++ repeated 8 sweep)
  obtain ⟨b, hb, hh⟩ : ∃ b ∈ chain 0 (follow fourNodes (wakeUp ++ repeated 8 sweep)).2.trace,
      b.header = ⟨⟨0, 3⟩, 1, 3⟩ := by decide +kernel
  have hleast := (proposed_chain (f := 1) rfl hrun 0).2.2.2 b hb
  rw [show b.header.firstRefH = 3 by rw [hh]] at hleast
  exact ⟨_, _, hrun, b, hb, hh, hleast⟩

end Loom.World
