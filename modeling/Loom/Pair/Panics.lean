import Loom.Pair.Leaders

/-!
# When the dag does not panic

A handler of the dag panics on an author outside the committee, where the cache has no
line, and on a garbage collection without a pending commit. The authors come from pushed
blocks, from revealed leaders and, at the time of a commit, from the references of pulled
blocks. If all of these are members and the reveals are steady, nothing panics.
-/

namespace Loom

/-- The author and the authors referred to are members. -/
def Block.inside (c : Committee) (b : Block) : Bool :=
  decide (b.header.slot.author ∈ c.ids) && b.ref.all fun k => decide (k.slot.author ∈ c.ids)

/-- The authors that a block names are members. -/
theorem Block.inside_iff {c : Committee} {b : Block} : b.inside c = true ↔
    b.header.slot.author ∈ c.ids ∧ ∀ s ∈ b.refSlots, s.author ∈ c.ids := by
  simp [Block.inside, Block.refSlots]

/-- A request of the core that only names members. -/
def CoreReq.inside (c : Committee) : CoreReq → Bool
  | .propose block => block.inside c
  | .refReq _ => true
  | .commitReq req => decide (req.leader ∈ c.ids)

/-- The slots that the commitor has yet to pull. -/
def Commitor.wanted : Commitor → List Slot
  | .pulling c | .waiting c _ _ => c.q
  | .received c _ reply => c.q ++ (reply.map Block.refSlots).getD []
  | .idle | .executing _ _ _ => []

namespace Pair

/-- The authors of all slots that are or will be pulled have the property. -/
structure Tracked (A : Int → Prop) (s : Pair) : Prop where
  queued : ∀ sl ch, .blockPullReq sl ch ∈ s.opCh → A sl.author
  wanted : ∀ sl ∈ s.com.wanted, A sl.author

private theorem tracked_init (A : Int → Prop) (i : Int) (c : Committee) : (init i c).Tracked A where
  queued := by simp [init]
  wanted := by simp [init, Commitor.wanted]

/-- The property is kept if the submitted anchors and the references of stored blocks
have it. -/
theorem tracked_step {A : Int → Prop} {s t : Pair} {a : Act} (h : s.Tracked A)
    (hsub : ∀ req ∈ s.submitCh, A req.slot.author)
    (hstored : s.Stored fun b => ∀ sl ∈ b.refSlots, A sl.author) (hs : s.Step a t) :
    t.Tracked A := by
  cases hs with
  | send req => exact ⟨fun sl ch hmem => h.queued sl ch (by simpa using hmem), h.wanted⟩
  | crash | submit | refResp => exact ⟨h.queued, h.wanted⟩
  | dag _ hop _ _ =>
    exact ⟨fun sl ch hmem => h.queued sl ch (hop ▸ List.mem_cons_of_mem _ hmem), h.wanted⟩
  | @reply ch b c head hpc hcom =>
    refine ⟨h.queued, fun sl hsl => ?_⟩
    rcases List.mem_append.mp hsl with hsl | hsl
    · exact h.wanted sl (by rw [hcom]; exact hsl)
    · cases b with
      | none => cases hsl
      | some b => exact hstored.reply ch b hpc sl hsl
  | @take req rest hcom hsubs =>
    refine ⟨h.queued, fun sl hsl => ?_⟩
    cases List.mem_singleton.mp hsl
    exact hsub req (hsubs ▸ List.mem_cons_self ..)
  | @skip c head q hcom hq hseen =>
    refine ⟨h.queued, fun sl hsl => h.wanted sl ?_⟩
    rw [hcom]
    change sl ∈ c.q
    rw [hq]
    exact List.mem_cons_of_mem _ hsl
  | @pull c head q hcom hq hnew =>
    have hwanted : ∀ sl ∈ c.q, A sl.author := fun sl hsl => h.wanted sl (by rw [hcom]; exact hsl)
    refine ⟨fun sl ch hmem => ?_, fun sl hsl => hwanted sl (hq ▸ List.mem_cons_of_mem _ hsl)⟩
    rcases List.mem_append.mp hmem with hmem | hmem
    · exact h.queued sl ch hmem
    · cases List.mem_singleton.mp hmem
      exact hwanted head (hq ▸ List.mem_cons_self ..)
  | @process c head b hcom =>
    refine ⟨h.queued, fun sl hsl => h.wanted sl ?_⟩
    rw [hcom]
    cases b with
    | none => exact List.mem_append_left _ hsl
    | some b => exact hsl
  | nothing | finish | exec => exact ⟨h.queued, by simp [Commitor.wanted]⟩
  | gc => exact ⟨fun sl ch hmem => h.queued sl ch (by simpa using hmem), by simp [Commitor.wanted]⟩

/-- A running pair in which every author is a member and every garbage collection has its
commit. -/
structure Sound (i : Int) (c : Committee) (s : Pair) : Prop where
  running : s.crashed = false
  inv : s.Inv i c
  matched : s.Matched
  stored : s.Stored fun b => b.inside c = true
  told : s.Told fun req => req.leader ∈ c.ids
  tracked : s.Tracked (· ∈ c.ids)

/-- The dag of a new pair holds nothing unsound. -/
theorem sound_init (i : Int) (c : Committee) : (init i c).Sound i c where
  running := rfl
  inv := inv_init i c
  matched := by simp [Matched, outstanding, init, Commitor.rounds, DagPc.rounds]
  stored := stored_init _ i c
  told := told_init _ i c
  tracked := tracked_init _ i c

/-- Every member has a line. -/
theorem Inv.exists_line {i : Int} {c : Committee} {s : Pair} (h : s.Inv i c) {a : Int}
    (ha : a ∈ c.ids) : ∃ l, s.dag.line a = some l := by
  obtain ⟨h0, hlt⟩ := (c.mem_ids a).mp ha
  have hlen := h.fixed.lines
  exact ⟨_, by rw [Dag.line, if_pos h0, List.getElem?_eq_getElem (by omega)]⟩

/-- The dag handles the next request of a sound pair. -/
theorem Sound.handle_isSome {i : Int} {c : Committee} {s : Pair} (h : s.Sound i c)
    (hi : i ∈ c.ids) {m : OpMsg} {rest : List OpMsg} (hop : s.opCh = m :: rest)
    {order : List Int} (hord : m.orderOk order = true) :
    (s.dag.handle order m).isSome = true := by
  have hmem : m ∈ s.opCh := hop ▸ List.mem_cons_self ..
  cases m with
  | core req =>
    cases req with
    | propose b =>
      obtain ⟨l, hl⟩ := h.inv.exists_line (Block.inside_iff.mp (h.stored.queue b hmem)).1
      simp only [Dag.handle, Dag.handleBlockPushReq]
      split
      · rfl
      · simp only [hl, Option.bind_eq_bind, Option.bind_some]
        split <;> rfl
    | refReq r =>
      obtain ⟨d, pc, hd⟩ := handleRefReq_isSome h.inv hi r
      change (s.dag.handleRefReq r).isSome = true
      rw [hd]
      rfl
    | commitReq req =>
      have hleader : (s.dag.nextCommit req).leader ∈ c.ids := by
        unfold Dag.nextCommit
        split
        · exact h.told.queue req hmem
        · split
          · exact h.told.queue req hmem
          · exact h.told.pending _ ‹_›
      obtain ⟨l, hl⟩ := h.inv.exists_line hleader
      simp only [Dag.handle, Dag.handleCommitReq]
      split
      · have hl' : ({ s.dag with
            uncommitted := s.dag.uncommitted.insert req.round req.leader
            pendingCommit := some (s.dag.nextCommit req) } : Dag).line
              (s.dag.nextCommit req).leader = some l := hl
        rw [hl']
        simp only [Option.bind_eq_bind, Option.bind_some]
        split <;> rfl
      · rfl
  | blockPullReq sl ch =>
    obtain ⟨l, hl⟩ := h.inv.exists_line (h.tracked.queued sl ch hmem)
    simp only [Dag.handle, Dag.handleBlockPullReq]
    split
    · rfl
    · simp only [hl, Option.bind_eq_bind, Option.bind_some]
      split <;> rfl
  | gcReq wm r =>
    simp only [OpMsg.orderOk, List.isPerm_iff] at hord
    obtain ⟨p, hp, _⟩ := h.matched r (by simp [outstanding, hop])
    obtain ⟨d, hd⟩ := (h.inv.bounds.gc wm r hmem).cleanLines hord
    simp only [Dag.handle, Dag.handleCleanReq, hp, hd, Option.bind_eq_bind, Option.bind_some]
    rfl

/-- A sound pair stays sound, if the core only names members and its reveals are steady. -/
theorem Sound.step {i : Int} {c : Committee} {s t : Pair} {a : Act} (h : s.Sound i c)
    (hi : i ∈ c.ids) (hreq : ∀ req, a = .send req → req.inside c = true)
    (hok : s.steady a = true) (hs : s.step a = some t) : t.Sound i c := by
  have hst := (step_cases hs).2
  refine ⟨?_, h.inv.step hs, h.matched.step hok hst, ?_, ?_, ?_⟩
  · cases hst with
    | crash hpc hop hord hm =>
      have hsome := h.handle_isSome hi hop hord
      rw [hm] at hsome
      cases hsome
    | _ => exact h.running
  · exact stored_step h.stored (fun b hb => hreq _ hb) hst
  · exact told_step h.told (fun req hr => by simpa [CoreReq.inside] using hreq _ hr) hst
  · exact tracked_step h.tracked (fun req hmem => h.told.submitted req hmem)
      (h.stored.mono fun b hb => (Block.inside_iff.mp hb).2) hst

end Pair

end Loom
