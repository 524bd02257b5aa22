import Loom.Pair.Rounds

/-!
# Leaders come from reveals

Every leader that a pair knows, and the author of every anchor that it submits, was
revealed for the round in question.
-/

namespace Loom.Pair

/-- All leaders of a pair were revealed. -/
structure Told (K : CommitReq → Prop) (s : Pair) : Prop where
  queue : ∀ req, .core (.commitReq req) ∈ s.opCh → K req
  leaders : ∀ r l, s.dag.uncommitted.lookup r = some l → K ⟨l, r⟩
  pending : ∀ p, s.dag.pendingCommit = some p → K p
  submit : ∀ req, s.dagPc = .submit req → K ⟨req.slot.author, req.round⟩
  submitted : ∀ req ∈ s.submitCh, K ⟨req.slot.author, req.round⟩
  reading : ∀ req, s.com.reading = some req → K ⟨req.slot.author, req.round⟩

/-- At the start no leader is known. -/
theorem told_init (K : CommitReq → Prop) (i : Int) (c : Committee) : (init i c).Told K where
  queue := by simp [init]
  leaders := by simp [init, newDag]
  pending := by simp [init, newDag]
  submit := by simp [init]
  submitted := by simp [init]
  reading := by simp [init, Commitor.reading]

/-- A panic reveals no leader. -/
theorem Told.crash {K : CommitReq → Prop} {s : Pair} (h : s.Told K) :
    ({ s with crashed := true } : Pair).Told K :=
  ⟨h.queue, h.leaders, h.pending, h.submit, h.submitted, h.reading⟩

/-- A handled reveal registers its leader and may submit an anchor of the pending one. -/
theorem Told.reveal {K : CommitReq → Prop} {s : Pair} (h : s.Told K) {req : CommitReq} {d : Dag}
    {pc : DagPc} (hreq : K req) (hm : s.dag.handleCommitReq req = some (d, pc)) :
    (∀ r l, d.uncommitted.lookup r = some l → K ⟨l, r⟩) ∧
    (∀ p, d.pendingCommit = some p → K p) ∧
    ∀ sub, pc = .submit sub → K ⟨sub.slot.author, sub.round⟩ := by
  obtain ⟨p, rfl, hcase⟩ := Dag.handleCommitReq_cases hm
  have hnext : K (s.dag.nextCommit req) := by
    unfold Dag.nextCommit
    split
    · exact hreq
    · split
      · exact hreq
      · exact h.pending _ ‹_›
  refine ⟨?_, ?_, ?_⟩
  · intro r l hl
    rw [GoMap.lookup_insert_ite] at hl
    split at hl
    · subst r
      cases hl
      exact hreq
    · exact h.leaders r l hl
  · intro p' hp'
    change p = some p' at hp'
    rcases hcase with ⟨_, rfl, _⟩ | ⟨_, _, _, ⟨_, rfl, _⟩ | ⟨_, _, rfl, _⟩⟩ <;> cases hp'
    · exact hnext
    · exact hnext
  · rintro sub rfl
    rcases hcase with ⟨_, _, hpc⟩ | ⟨_, _, _, ⟨_, _, hpc⟩ | ⟨_, _, _, hpc⟩⟩ <;> cases hpc
    exact hnext

/-- Every step keeps the known leaders to those that were sent. -/
theorem told_step {K : CommitReq → Prop} {s t : Pair} {a : Act} (h : s.Told K)
    (hsend : ∀ req, a = .send (.commitReq req) → K req) (hs : s.Step a t) : t.Told K := by
  cases hs with
  | send req =>
    refine ⟨?_, h.leaders, h.pending, h.submit, h.submitted, h.reading⟩
    intro req' hmem
    rcases List.mem_append.mp hmem with hmem | hmem
    · exact h.queue req' hmem
    · rw [List.mem_singleton] at hmem
      cases hmem
      exact hsend req' rfl
  | crash => exact h.crash
  | @dag order m rest d pc hpc hop _ hm =>
    have hqueue : ∀ req, .core (.commitReq req) ∈ rest → K req := fun req hmem =>
      h.queue req (hop ▸ List.mem_cons_of_mem _ hmem)
    by_cases hr : ∃ req, m = .core (.commitReq req)
    · obtain ⟨req, rfl⟩ := hr
      obtain ⟨hun, hpend, hsub⟩ := h.reveal (h.queue req (hop ▸ List.mem_cons_self ..)) hm
      exact ⟨hqueue, hun, hpend, hsub, h.submitted, h.reading⟩
    · have hno : ∀ req, m ≠ .core (.commitReq req) := fun req he => hr ⟨req, he⟩
      obtain ⟨hpend, hrounds⟩ := pendingCommit_handle hm hno
      refine ⟨hqueue, ?_, ?_, ?_, h.submitted, h.reading⟩
      · intro r l hl
        refine h.leaders r l ?_
        by_cases hgc : ∃ wm R, m = .gcReq wm R
        · obtain ⟨wm, R, rfl⟩ := hgc
          obtain ⟨_, p, d₁, _, _, rfl⟩ := Dag.handleCleanReq_cases hm
          change (GoMap.eraseAll _ _).lookup r = some l at hl
          rw [Dag.lookup_erase_le] at hl
          split at hl
          · cases hl
          · exact hl
        · rw [← (rounds_handle hm hno fun wm R he => hgc ⟨wm, R, he⟩).2]
          exact hl
      · intro p hp
        exact h.pending p (hpend ▸ hp)
      · rintro req rfl
        cases hrounds
  | @submit req hpc =>
    refine ⟨h.queue, h.leaders, h.pending, by simp, ?_, h.reading⟩
    intro req' hmem
    rcases List.mem_append.mp hmem with hmem | hmem
    · exact h.submitted req' hmem
    · rw [List.mem_singleton] at hmem
      exact hmem ▸ h.submit req hpc
  | refResp => exact ⟨h.queue, h.leaders, h.pending, by simp, h.submitted, h.reading⟩
  | @reply ch b c head hpc hcom =>
    refine ⟨h.queue, h.leaders, h.pending, by simp, h.submitted, fun req hr => ?_⟩
    exact h.reading req (by rw [hcom]; exact hr)
  | @take req rest hcom hsub =>
    refine ⟨h.queue, h.leaders, h.pending, h.submit, ?_, ?_⟩
    · exact fun req' hmem => h.submitted req' (hsub ▸ List.mem_cons_of_mem _ hmem)
    · intro req' hr
      cases hr
      exact h.submitted req (hsub ▸ List.mem_cons_self ..)
  | @skip c head q hcom hq hseen =>
    refine ⟨h.queue, h.leaders, h.pending, h.submit, h.submitted, fun req hr => ?_⟩
    exact h.reading req (by rw [hcom]; exact hr)
  | @pull c head q hcom hq hnew =>
    refine ⟨?_, h.leaders, h.pending, h.submit, h.submitted, fun req hr => ?_⟩
    · intro req hmem
      exact h.queue req (by simpa using hmem)
    · exact h.reading req (by rw [hcom]; exact hr)
  | @process c head b hcom =>
    refine ⟨h.queue, h.leaders, h.pending, h.submit, h.submitted, fun req hr => ?_⟩
    refine h.reading req ?_
    rw [hcom]
    cases b <;> exact hr
  | nothing | finish | exec =>
    exact ⟨h.queue, h.leaders, h.pending, h.submit, h.submitted, by simp [Commitor.reading]⟩
  | gc =>
    refine ⟨?_, h.leaders, h.pending, h.submit, h.submitted, by simp [Commitor.reading]⟩
    intro req hmem
    exact h.queue req (by simpa using hmem)

end Loom.Pair
