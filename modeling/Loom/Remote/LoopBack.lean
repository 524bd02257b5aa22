import Loom.Remote.Retriever

/-!
# When a block is handed back

The retriever keeps a bare counter for each registered block. The counter is right as long as
no digest of the block is missed again between its answer and the answer of the last one: a
second request for it would count the block down once more. Then the block is handed back with
the reply that answers its last missing digest.
-/

namespace Loom.Remote.Retriever

/-! ## Counting occurrences -/

section Occurrences

variable {α : Type} [DecidableEq α]

private theorem countP_mem_cons {d : α} {ds : List α} (hd : d ∉ ds) (l : List α) :
    l.countP (· ∈ d :: ds) = l.count d + l.countP (· ∈ ds) := by
  induction l with
  | nil => rfl
  | cons x l ih =>
    rw [List.countP_cons, List.count_cons, List.countP_cons, ih]
    by_cases hx : x = d
    · subst hx
      simp [hd]
      omega
    · simp [hx, Nat.add_assoc]

/-- What is not in a list is in the second part of its extension or outside of it. -/
theorem countP_notMem_append {as ds l : List α} (h : ∀ d ∈ l, d ∈ ds → d ∉ as) :
    l.countP (· ∉ as) = l.countP (· ∉ as ++ ds) + l.countP (· ∈ ds) := by
  induction l with
  | nil => rfl
  | cons x l ih =>
    have hrest := ih fun d hd => h d (List.mem_cons_of_mem _ hd)
    have hx := h x (List.mem_cons_self ..)
    rw [List.countP_cons, List.countP_cons, List.countP_cons, hrest]
    by_cases hds : x ∈ ds
    · simp [hds, hx hds]
      omega
    · simp [hds, Nat.add_right_comm]

private theorem countP_notMem_eq_zero {as l : List α} :
    l.countP (· ∉ as) = 0 ↔ ∀ d ∈ l, d ∈ as := by
  rw [List.countP_eq_zero]
  simp

end Occurrences

/-! ## Answers -/

/-- The digests that a turn answers: those of the request that a reply belongs to. -/
def answered (r : Retriever) (act : RetrieverAct) (_ : Retriever) : List Digest :=
  match act with
  | .reply reqID => (r.missOf reqID).getD []
  | .request _ _ _ _ => []
  | .tick _ _ => []

/-- The digests answered in a sequence of turns. -/
def answers (cr : Crypto) (r : Retriever) (acts : List RetrieverAct) : List Digest :=
  Machine.outputs (step cr) answered r acts

/-- No digest of a block is missed again after its answer, unless all of them are answered. -/
def Undisturbed (cr : Crypto) (r : Retriever) (missRefs : List Digest)
    (acts : List RetrieverAct) : Prop :=
  ∀ before missRefs' nodeID backBlock now after,
    acts = before ++ .request missRefs' nodeID backBlock now :: after →
    ∀ d ∈ missRefs', d ∈ missRefs → d ∈ answers cr r before →
      ∀ d' ∈ missRefs, d' ∈ answers cr r before

/-- The block registered under a number, with the digests answered since then. While it is
waiting, its counter is the number of its references that are not answered, and these are
pending. -/
structure Tracks (id : Int) (missRefs : List Digest) (backBlock : Digest) (as : List Digest)
    (r : Retriever) : Prop where
  used : id < r.cnt
  block : r.blockOf id = backBlock
  times : ∀ d, (r.missedBy d).count id = missRefs.count d
  count : (∃ d ∈ missRefs, d ∉ as) → r.countOf id = missRefs.countP (· ∉ as)
  waits : (∃ d ∈ missRefs, d ∉ as) → ∀ d ∈ missRefs, d ∈ r.pending ↔ d ∉ as
  done : (∀ d ∈ missRefs, d ∈ as) → r.countOf id ≤ 0

variable {cr : Crypto} {id : Int} {missRefs as : List Digest} {backBlock : Digest}
  {r r' : Retriever}

private theorem tracks_registered {new : List Digest} (h : r.Kept)
    (hr : Registered r missRefs backBlock new r') :
    Tracks r.cnt missRefs backBlock [] r' where
  used := by
    rw [hr.cnt]
    exact Int.lt_succ _
  block := by rw [hr.blockOf, if_pos rfl]
  times d := by
    have hunused : (r.missedBy d).count r.cnt = 0 := by
      rw [List.count_eq_zero]
      exact fun hmem => lt_irrefl _ (h.missed d r.cnt hmem)
    rw [hr.missedBy, List.count_append, hunused, List.count_replicate_self, Nat.zero_add]
  count _ := by
    rw [hr.countOf, if_pos rfl]
    simp
  waits _ d hd := by
    rw [hr.pending]
    simp [hd]
  done hall := by
    have hnil : missRefs = [] := by
      apply List.eq_nil_iff_forall_not_mem.mpr
      intro d hd
      exact absurd (hall d hd) List.not_mem_nil
    rw [hr.countOf, if_pos rfl, hnil]
    rfl

/-- Another block is registered. -/
theorem Tracks.request {missRefs' new : List Digest} {backBlock' : Digest}
    (h : Tracks id missRefs backBlock as r) (hr : Registered r missRefs' backBlock' new r')
    (hfresh : ∀ d ∈ missRefs', d ∈ missRefs → d ∈ as → ∀ d' ∈ missRefs, d' ∈ as) :
    Tracks id missRefs backBlock as r' := by
  have hne : id ≠ r.cnt := h.used.ne
  refine ⟨?_, ?_, ?_, ?_, ?_, ?_⟩
  · rw [hr.cnt]
    exact h.used.trans (Int.lt_succ _)
  · rw [hr.blockOf, if_neg hne]
    exact h.block
  · intro d
    rw [hr.missedBy, List.count_append, List.count_replicate, h.times]
    simp [Ne.symm hne]
  · intro hwait
    rw [hr.countOf, if_neg hne]
    exact h.count hwait
  · intro hwait d hd
    rw [hr.pending, h.waits hwait d hd]
    refine ⟨?_, Or.inl⟩
    rintro (hno | hmem) has
    · exact hno has
    · obtain ⟨d', hd', hno⟩ := hwait
      exact hno (hfresh d hmem hd has d' hd')
  · intro hall
    rw [hr.countOf, if_neg hne]
    exact h.done hall

/-- How often an answer counts a block down. -/
theorem Tracks.count_flatMap (h : Tracks id missRefs backBlock as r) {ds : List Digest}
    (hnodup : ds.Nodup) : (ds.flatMap r.missedBy).count id = missRefs.countP (· ∈ ds) := by
  induction ds with
  | nil => simp
  | cons d ds ih =>
    rw [List.nodup_cons] at hnodup
    rw [List.flatMap_cons, List.count_append, h.times, ih hnodup.2, countP_mem_cons hnodup.1]

/-- While a block is waiting, an answer counts it down by what it answers for the first time. -/
theorem Tracks.countOf_eq (hkept : r.Kept) (h : Tracks id missRefs backBlock as r)
    {reqID : Int} {ds : List Digest} (hds : r.missOf reqID = some ds)
    (hwait : ∃ d ∈ missRefs, d ∉ as) :
    r.countOf id = missRefs.countP (· ∉ as ++ ds) + (ds.flatMap r.missedBy).count id := by
  have hnew : ∀ d ∈ missRefs, d ∈ ds → d ∉ as := by
    intro d hd hmem
    exact (h.waits hwait d hd).mp ((hkept.pending d).mpr ⟨reqID, ds, hds, hmem⟩)
  rw [h.count hwait, countP_notMem_append hnew, h.count_flatMap (hkept.nodup reqID ds hds)]
  push_cast
  rfl

/-- A request is answered. -/
theorem Tracks.reply (hkept : r.Kept) (h : Tracks id missRefs backBlock as r) {reqID : Int}
    {ds : List Digest} (hds : r.missOf reqID = some ds) :
    Tracks id missRefs backBlock (as ++ ds) { r with
      loopBackCnts := (countDown (ds.flatMap r.missedBy) r).1.loopBackCnts
      pending := GoMap.eraseAll r.pending ds
      requests := r.requests.erase reqID } := by
  have hcount := countOf_countDown (ds.flatMap r.missedBy) r id
  have hbefore : (∃ d ∈ missRefs, d ∉ as ++ ds) → ∃ d ∈ missRefs, d ∉ as := by
    rintro ⟨d, hd, hno⟩
    exact ⟨d, hd, fun hmem => hno (List.mem_append_left _ hmem)⟩
  refine ⟨h.used, h.block, h.times, ?_, ?_, ?_⟩
  · intro hwait
    refine hcount.trans ?_
    rw [h.countOf_eq hkept hds (hbefore hwait)]
    omega
  · intro hwait d hd
    rw [GoMap.mem_eraseAll, h.waits (hbefore hwait) d hd, List.mem_append, not_or]
  · intro hall
    refine hcount.le.trans ?_
    by_cases hwait : ∃ d ∈ missRefs, d ∉ as
    · rw [h.countOf_eq hkept hds hwait, countP_notMem_eq_zero.mpr hall]
      simp
    · have hdone := h.done fun d hd => not_not.mp fun hno => hwait ⟨d, hd, hno⟩
      omega

/-- A tick does not touch the bookkeeping of a block. -/
theorem Tracks.tick {now : Int} {order : List Int} (hkept : r.Kept)
    (h : Tracks id missRefs backBlock as r) :
    Tracks id missRefs backBlock as (retry cr now order r).1 := by
  obtain ⟨_, hframe, _, _⟩ := retry_spec cr now order hkept.keyed
  rw [hframe]
  exact ⟨h.used, h.block, h.times, h.count, h.waits, h.done⟩

/-- One turn of the retriever, as seen by a registered block. -/
theorem Tracks.step {act : RetrieverAct} (hkept : r.Kept) (h : Tracks id missRefs backBlock as r)
    (hs : r.step cr act = some r')
    (hfresh : ∀ missRefs' nodeID backBlock' now,
      act = .request missRefs' nodeID backBlock' now →
      ∀ d ∈ missRefs', d ∈ missRefs → d ∈ as → ∀ d' ∈ missRefs, d' ∈ as) :
    Tracks id missRefs backBlock (as ++ answered r act r') r' := by
  cases act with
  | request missRefs' nodeID backBlock' now =>
    cases hs
    obtain ⟨⟨new, hr⟩, _⟩ := handleRequest_registered cr r missRefs' nodeID backBlock' now
    rw [answered, List.append_nil]
    exact h.request hr (hfresh _ _ _ _ rfl)
  | reply reqID =>
    cases hs
    rw [answered]
    change Tracks _ _ _ _ (r.handleReply reqID).1
    rcases handleReply_cases hkept.keyed reqID with ⟨hnone, heq⟩ | ⟨ds, hds, heq⟩
    · rw [hnone, heq, Option.getD_none, List.append_nil]
      exact h
    · rw [hds, heq]
      exact h.reply hkept hds
  | tick now order =>
    obtain ⟨_, hs⟩ := Option.ite_none_right_eq_some.mp hs
    cases hs
    rw [answered, List.append_nil]
    exact h.tick hkept

/-- The block is handed back in the turn that answers the last of its digests. -/
theorem Tracks.loopBack_iff {act : RetrieverAct} (hkept : r.Kept)
    (h : Tracks id missRefs backBlock as r) (block : Digest) :
    .loopBack id block ∈ events cr r act r' ↔ block = backBlock ∧
      (∀ d ∈ missRefs, d ∈ as ++ answered r act r') ∧ ¬ ∀ d ∈ missRefs, d ∈ as := by
  cases act with
  | request missRefs' nodeID backBlock' now =>
    have hno := (handleRequest_registered cr r missRefs' nodeID backBlock' now).2 id block
    rw [answered, List.append_nil]
    exact iff_of_false hno fun hall => hall.2.2 hall.2.1
  | tick now order =>
    have hno := (retry_spec cr now order hkept.keyed).2.2.2 id block
    rw [answered, List.append_nil]
    exact iff_of_false hno fun hall => hall.2.2 hall.2.1
  | reply reqID =>
    rw [answered]
    change _ ∈ (r.handleReply reqID).2 ↔ _
    rcases handleReply_cases hkept.keyed reqID with ⟨hnone, heq⟩ | ⟨ds, hds, heq⟩
    · rw [hnone, heq, Option.getD_none, List.append_nil]
      exact iff_of_false List.not_mem_nil fun hall => hall.2.2 hall.2.1
    · rw [hds, heq, Option.getD_some, loopBack_mem_countDown, h.block]
      by_cases hwait : ∃ d ∈ missRefs, d ∉ as
      · have hpos : 1 ≤ r.countOf id := by
          obtain ⟨d, hd, hno⟩ := hwait
          rw [h.count ⟨d, hd, hno⟩]
          exact_mod_cast List.countP_pos_iff.mpr ⟨d, hd, by simpa using hno⟩
        have hle : r.countOf id ≤ (ds.flatMap r.missedBy).count id ↔
            ∀ d ∈ missRefs, d ∈ as ++ ds := by
          rw [h.countOf_eq hkept hds hwait, ← countP_notMem_eq_zero]
          omega
        rw [hle]
        refine and_congr_right fun _ => ⟨fun hall => ⟨hall.2, ?_⟩, fun hall => ⟨hpos, hall.1⟩⟩
        obtain ⟨d, hd, hno⟩ := hwait
        exact fun hall => hno (hall d hd)
      · have hall : ∀ d ∈ missRefs, d ∈ as := fun d hd =>
          not_not.mp fun hno => hwait ⟨d, hd, hno⟩
        have hdone := h.done hall
        exact iff_of_false (fun hback => by omega) fun hback => hback.2.2 hall

/-! ## Whole runs -/

/-- A beginning of an undisturbed sequence is undisturbed. -/
theorem Undisturbed.init {acts : List RetrieverAct} {act : RetrieverAct}
    (h : Undisturbed cr r missRefs (acts ++ [act])) : Undisturbed cr r missRefs acts := by
  intro before missRefs' nodeID backBlock now after heq
  exact h before missRefs' nodeID backBlock now (after ++ [act]) (by simp [heq])

/-- A registered block is tracked as long as it is not disturbed. -/
theorem tracks_run {acts : List RetrieverAct} {r₁ : Retriever} (hkept : r.Kept)
    (h : Tracks id missRefs backBlock [] r) (hfresh : Undisturbed cr r missRefs acts)
    (hrun : Machine.run (step cr) r acts = some r₁) :
    r₁.Kept ∧ Tracks id missRefs backBlock (answers cr r acts) r₁ := by
  induction acts using List.reverseRecOn generalizing r₁ with
  | nil =>
    cases hrun
    exact ⟨hkept, h⟩
  | append_singleton acts act ih =>
    obtain ⟨r₂, hr₂, hs⟩ := Machine.run_concat.mp hrun
    obtain ⟨hkept₂, htracks⟩ := ih hfresh.init hr₂
    have hnext : Tracks id missRefs backBlock (answers cr r acts ++ answered r₂ act r₁) r₁ := by
      apply htracks.step hkept₂ hs
      rintro missRefs' nodeID backBlock' now rfl
      exact hfresh acts missRefs' nodeID backBlock' now [] rfl
    refine ⟨hkept₂.step hs, ?_⟩
    rw [answers, Machine.outputs_concat hr₂ hs]
    exact hnext

/-- **A block is handed back when its last missing digest is answered**, if none of its
digests is missed again after its answer while others are still to be answered. Whatever has
happened before the block is registered and happens after that: a turn starts `loopBack` for
its number exactly if it is the first one after which every missing digest of the block has
been answered by a reply to an outstanding request, and then it is for this block; nothing is
started for the number up to the registration. -/
theorem looped_back_when_answered {nodeID retryDelay : Int} {before acts : List RetrieverAct}
    {r₀ r₁ r₂ r₃ : Retriever} {src now : Int} {act : RetrieverAct}
    (hbefore : Reaches cr nodeID retryDelay before r₀)
    (hreg : r₀.step cr (.request missRefs src backBlock now) = some r₁)
    (hrun : Machine.run (step cr) r₁ acts = some r₂) (hstep : r₂.step cr act = some r₃)
    (hfresh : Undisturbed cr r₁ missRefs acts) :
    (∀ block, .loopBack r₀.cnt block ∈ events cr r₂ act r₃ ↔ block = backBlock ∧
      (∀ d ∈ missRefs, d ∈ answers cr r₁ (acts ++ [act])) ∧
      ¬ ∀ d ∈ missRefs, d ∈ answers cr r₁ acts) ∧
    ∀ block, .loopBack r₀.cnt block ∉
      trace cr nodeID retryDelay (before ++ [.request missRefs src backBlock now]) := by
  obtain ⟨hkept, honce⟩ := hbefore.kept_once
  have hkept₁ := hkept.step hreg
  obtain ⟨⟨new, hr⟩, hno⟩ := handleRequest_registered cr r₀ missRefs src backBlock now
  have htracks : Tracks r₀.cnt missRefs backBlock [] r₁ := by
    cases hreg
    exact tracks_registered hkept hr
  obtain ⟨hkept₂, htracks₂⟩ := tracks_run hkept₁ htracks hfresh hrun
  constructor
  · intro block
    rw [answers, answers, Machine.outputs_concat hrun hstep]
    exact htracks₂.loopBack_iff hkept₂ block
  · intro block hmem
    rw [trace, Machine.outputs_concat hbefore hreg] at hmem
    rcases List.mem_append.mp hmem with hmem | hmem
    · have hzero := List.countP_eq_zero.mp ((honce r₀.cnt).2 (Or.inr le_rfl)) _ hmem
      simp [RetrieverEvent.isLoopBack] at hzero
    · exact hno r₀.cnt block hmem

/-- The registration of a block. -/
def registers (missRefs : List Digest) (block : UInt8) : RetrieverAct :=
  .request missRefs 1 (digestOf block) 0

/-- The second answer hands the block back. -/
theorem looped_back_when_answered_second :
    ∃ r₀ r₁ r₂ r₃, Reaches unsigned 0 5 [registers [digestOf 1] 7] r₀ ∧
      r₀.step unsigned (registers [digestOf 1, digestOf 2] 8) = some r₁ ∧
      Machine.run (step unsigned) r₁ [.reply 0] = some r₂ ∧
      r₂.step unsigned (.reply 1) = some r₃ ∧
      .loopBack r₀.cnt (digestOf 8) ∈ events unsigned r₂ (.reply 1) r₃ := by
  obtain ⟨r₀, h₀, r₁, h₁, r₂, h₂, r₃, h₃, hall, hsome⟩ :
      ∃ r₀ ∈ Machine.run (step unsigned) (newRetriever 0 5) [registers [digestOf 1] 7],
      ∃ r₁ ∈ r₀.step unsigned (registers [digestOf 1, digestOf 2] 8),
      ∃ r₂ ∈ Machine.run (step unsigned) r₁ [.reply 0],
      ∃ r₃ ∈ r₂.step unsigned (.reply 1),
        (∀ d ∈ [digestOf 1, digestOf 2], d ∈ answers unsigned r₁ [.reply 0, .reply 1]) ∧
        ¬ ∀ d ∈ [digestOf 1, digestOf 2], d ∈ answers unsigned r₁ [.reply 0] := by
    decide +kernel
  have hfresh : Undisturbed unsigned r₁ [digestOf 1, digestOf 2] [.reply 0] := by
    intro before missRefs nodeID backBlock now after heq
    have hmem : RetrieverAct.request missRefs nodeID backBlock now ∈ [RetrieverAct.reply 0] := by
      rw [heq]
      simp
    simp at hmem
  refine ⟨r₀, r₁, r₂, r₃, h₀, h₁, h₂, h₃, ?_⟩
  exact ((looped_back_when_answered h₀ h₁ h₂ h₃ hfresh).1 _).mpr ⟨rfl, hall, hsome⟩

/-- The first block misses digest `1`, and the second one digests `1` and `2`. After the
answer to digest `1` a third block misses it again, and the answer to its request counts the
second block down once more: it is handed back although digest `2` has not been answered. -/
theorem third_request_counts_second_down :
    ∃ r₀ r₁ r₂ r₃, Reaches unsigned 0 5 [registers [digestOf 1] 7] r₀ ∧
      r₀.step unsigned (registers [digestOf 1, digestOf 2] 8) = some r₁ ∧
      Machine.run (step unsigned) r₁ [.reply 0, registers [digestOf 1] 9] = some r₂ ∧
      r₂.step unsigned (.reply 2) = some r₃ ∧
      .loopBack r₀.cnt (digestOf 8) ∈ events unsigned r₂ (.reply 2) r₃ ∧
      digestOf 2 ∉ answers unsigned r₁ [.reply 0, registers [digestOf 1] 9, .reply 2] := by
  obtain ⟨r₀, h₀, r₁, h₁, r₂, h₂, r₃, h₃, h⟩ :
      ∃ r₀ ∈ Machine.run (step unsigned) (newRetriever 0 5) [registers [digestOf 1] 7],
      ∃ r₁ ∈ r₀.step unsigned (registers [digestOf 1, digestOf 2] 8),
      ∃ r₂ ∈ Machine.run (step unsigned) r₁ [.reply 0, registers [digestOf 1] 9],
      ∃ r₃ ∈ r₂.step unsigned (.reply 2),
        .loopBack r₀.cnt (digestOf 8) ∈ events unsigned r₂ (.reply 2) r₃ ∧
        digestOf 2 ∉ answers unsigned r₁ [.reply 0, registers [digestOf 1] 9, .reply 2] := by
    decide +kernel
  exact ⟨r₀, r₁, r₂, r₃, h₀, h₁, h₂, h₃, h⟩

end Loom.Remote.Retriever
