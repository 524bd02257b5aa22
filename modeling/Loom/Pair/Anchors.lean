import Loom.Pair.History
import Loom.Pair.Progress

/-!
# What becomes of a submitted anchor

A commit starts at its anchor and visits the references of what it gathers, so the slots that it
asks for are its anchor and references of blocks that the dag holds. When it has ended, the
watermarks have reached the anchor.
-/

namespace Loom.Pair

/-- The anchors in the pipeline have the first property, and every slot that the commitor has
still to visit is its anchor or a reference of a block with the second one. -/
structure Wanted (P : SubmitReq → Prop) (Q : Block → Prop) (s : Pair) : Prop where
  submits : ∀ req, s.dagPc = .submit req → P req
  queued : ∀ req ∈ s.submitCh, P req
  taken : ∀ req ∈ s.taken, P req
  queue : ∀ c q, s.com.loop = some (c, q) → c.req ∈ s.taken ∧
    ∀ sl ∈ q, sl = c.req.slot ∨ ∃ b, Q b ∧ sl ∈ b.refSlots

/-- At the start nothing is submitted or pulled. -/
theorem wanted_init (P : SubmitReq → Prop) (Q : Block → Prop) (i : Int) (c : Committee) :
    (init i c).Wanted P Q where
  submits := by simp [init]
  queued := by simp [init]
  taken := by simp [init]
  queue := by simp [init, Commitor.loop]

/-- Weaker properties. -/
theorem Wanted.mono {P P' : SubmitReq → Prop} {Q Q' : Block → Prop} {s : Pair}
    (h : s.Wanted P Q) (hP : ∀ req, P req → P' req) (hQ : ∀ b, Q b → Q' b) : s.Wanted P' Q' where
  submits req hpc := hP req (h.submits req hpc)
  queued req hmem := hP req (h.queued req hmem)
  taken req hmem := hP req (h.taken req hmem)
  queue c q hl := by
    refine ⟨(h.queue c q hl).1, fun sl hsl => ?_⟩
    rcases (h.queue c q hl).2 sl hsl with heq | ⟨b, hb, hr⟩
    · exact Or.inl heq
    · exact Or.inr ⟨b, hQ b hb, hr⟩

/-- A panic changes neither requests nor queues. -/
theorem Wanted.crash {P : SubmitReq → Prop} {Q : Block → Prop} {s : Pair} (h : s.Wanted P Q) :
    ({ s with crashed := true } : Pair).Wanted P Q := ⟨h.submits, h.queued, h.taken, h.queue⟩

/-- Every step keeps the property, if the dag submits only what has it. -/
theorem wanted_step {P : SubmitReq → Prop} {Q : Block → Prop} {s t : Pair} {a : Act}
    (h : s.Wanted P Q) (hQ : s.Throughout Q)
    (hP : ∀ order m d req, s.dag.handle order m = some (d, .submit req) → P req)
    (hs : s.Step a t) : t.Wanted P Q := by
  cases hs with
  | send | crash => exact ⟨h.submits, h.queued, h.taken, h.queue⟩
  | dag hpc hop hord hm =>
    refine ⟨fun req hreq => ?_, h.queued, h.taken, h.queue⟩
    dsimp only at hreq
    subst hreq
    exact hP _ _ _ req hm
  | @submit req hpc =>
    refine ⟨by simp, fun r hr => ?_, h.taken, h.queue⟩
    rcases List.mem_append.mp hr with hr | hr
    · exact h.queued r hr
    · cases List.mem_singleton.mp hr
      exact h.submits req hpc
  | refResp => exact ⟨by simp, h.queued, h.taken, h.queue⟩
  | @reply ch b c head hpc hcom =>
    refine ⟨by simp, h.queued, h.taken, fun c' q hl => ?_⟩
    exact h.queue c' q (by rw [hcom]; exact hl)
  | @take req rest hcom hsub =>
    refine ⟨h.submits, fun r hr => h.queued r (hsub ▸ List.mem_cons_of_mem _ hr), fun r hr => ?_,
      fun c q hl => ?_⟩
    · rcases List.mem_append.mp hr with hr | hr
      · exact h.taken r hr
      · cases List.mem_singleton.mp hr
        exact h.queued req (hsub ▸ List.mem_cons_self ..)
    · cases hl
      refine ⟨List.mem_append_right _ (List.mem_singleton.mpr rfl), fun sl hsl => Or.inl ?_⟩
      exact List.mem_singleton.mp hsl
  | @skip c head q hcom hq hseen =>
    refine ⟨h.submits, h.queued, h.taken, fun c' q' hl => ?_⟩
    cases hl
    obtain ⟨hmem, hall⟩ := h.queue c (head :: q) (by rw [hcom, ← hq]; rfl)
    exact ⟨hmem, fun sl hsl => hall sl (List.mem_cons_of_mem _ hsl)⟩
  | @pull c head q hcom hq _ =>
    refine ⟨h.submits, h.queued, h.taken, fun c' q' hl => ?_⟩
    cases hl
    exact h.queue c (head :: q) (by rw [hcom, ← hq]; rfl)
  | @process c head reply hcom =>
    refine ⟨h.submits, h.queued, h.taken, fun c' q' hl => ?_⟩
    obtain ⟨hmem, hall⟩ := h.queue c (head :: c.q) (by rw [hcom]; rfl)
    cases hl
    cases reply with
    | none => exact ⟨hmem, fun sl hsl => hall sl (List.mem_cons_of_mem _ hsl)⟩
    | some cur =>
      refine ⟨hmem, fun sl hsl => ?_⟩
      rcases List.mem_append.mp hsl with hsl | hsl
      · exact hall sl (List.mem_cons_of_mem _ hsl)
      · exact Or.inr ⟨cur, hQ.received _ _ _ hcom, hsl⟩
  | nothing | finish | exec | gc =>
    exact ⟨h.submits, h.queued, h.taken, by simp [Commitor.loop]⟩

/-- The loop of a commit sees its anchor, and the anchors of the other requests taken are
covered. -/
structure Rooted (s : Pair) : Prop where
  root : ∀ c q, s.com.loop = some (c, q) → s.Sees c q c.req.slot
  done : ∀ req ∈ s.taken, (∃ c q, s.com.loop = some (c, q) ∧ c.req = req) ∨ s.Covered req.slot

/-- At the start no commit has begun. -/
theorem rooted_init (i : Int) (c : Committee) : (init i c).Rooted where
  root := by simp [init, Commitor.loop]
  done := by simp [init]

/-- A panic changes no commit. -/
theorem Rooted.crash {s : Pair} (h : s.Rooted) : ({ s with crashed := true } : Pair).Rooted :=
  ⟨h.root, h.done⟩

/-- The loop of a commit goes on. -/
theorem Rooted.turn {s t : Pair} {a : Act} (hb : s.Bounds) (h : s.Rooted) (hs : s.Step a t)
    {c c' : CommitState} {q q' : List Slot} (hcom : s.com.loop = some (c, q))
    (hcom' : t.com.loop = some (c', q')) (hreq : c'.req = c.req) (htaken : t.taken = s.taken)
    (hsees : s.Sees c q c.req.slot → t.Sees c' q' c.req.slot) : t.Rooted where
  root c₁ q₁ hl := by
    rw [hcom'] at hl
    cases hl
    rw [hreq]
    exact hsees (h.root c q hcom)
  done req hmem := by
    rw [htaken] at hmem
    rcases h.done req hmem with ⟨c₁, q₁, hl, rfl⟩ | hcov
    · rw [hcom] at hl
      cases hl
      exact Or.inl ⟨c', q', hcom', hreq⟩
    · exact Or.inr (hcov.step hb hs)

/-- The commitor has no loop under way, before the step or after it. -/
theorem Rooted.leave {s t : Pair} {a : Act} (hb : s.Bounds) (h : s.Rooted) (hs : s.Step a t)
    (hcom' : t.com.loop = none) (htaken : t.taken = s.taken)
    (hend : ∀ c q, s.com.loop = some (c, q) → t.Covered c.req.slot) : t.Rooted where
  root c q hl := by
    rw [hcom'] at hl
    cases hl
  done req hmem := by
    rw [htaken] at hmem
    rcases h.done req hmem with ⟨c, q, hl, rfl⟩ | hcov
    · exact Or.inr (hend c q hl)
    · exact Or.inr (hcov.step hb hs)

/-- Every step keeps the commits rooted in their anchors. -/
theorem rooted_step {s t : Pair} {a : Act} (hb : s.Bounds) (hc : s.Closed) (h : s.Rooted)
    (hs : s.Step a t) : t.Rooted := by
  have hmono := mark_mono hb hs
  -- A step that leaves the commitor alone.
  have hsame : t.com = s.com → t.taken = s.taken → t.Rooted := by
    intro hcom htaken
    cases hl : s.com.loop with
    | none =>
      refine h.leave hb hs (by rw [hcom, hl]) htaken fun c q hl' => ?_
      rw [hl] at hl'
      cases hl'
    | some p =>
      exact h.turn hb hs hl (by rw [hcom, hl]) rfl htaken fun hsees => hsees.mono (hmono _)
  have hst := hs
  cases hs with
  | send | crash | dag | submit | refResp => exact hsame rfl rfl
  | @reply ch b c head hpc hcom =>
    exact h.turn hb hst (by rw [hcom]; rfl) rfl rfl rfl fun hsees => hsees.mono (hmono _)
  | @take req rest hcom hsub =>
    refine ⟨fun c q hl => ?_, fun r hr => ?_⟩
    · cases hl
      exact Or.inr (Or.inl (List.mem_singleton.mpr rfl))
    · rcases List.mem_append.mp hr with hr | hr
      · rcases h.done r hr with ⟨c, q, hl, _⟩ | hcov
        · rw [hcom] at hl
          cases hl
        · exact Or.inr (hcov.step hb hst)
      · cases List.mem_singleton.mp hr
        exact Or.inl ⟨_, _, rfl, rfl⟩
  | @skip c head q hcom hq hseen =>
    exact h.turn hb hst (c := c) (q := head :: q) (by rw [hcom, ← hq]; rfl) rfl rfl rfl
      fun hsees => hsees.skip hseen
  | @pull c head q hcom hq _ =>
    exact h.turn hb hst (c := c) (q := head :: q) (by rw [hcom, ← hq]; rfl) rfl rfl rfl id
  | @process c head reply hcom =>
    refine h.turn hb hst (c := c) (q := head :: c.q) (by rw [hcom]; rfl) rfl ?_ rfl
      fun hsees => hsees.receive ?_ _
    · cases reply <;> rfl
    · rintro rfl
      exact hc.nilReceived c head hcom
  | @nothing c slots rounds hcom hq hkeys =>
    refine h.leave hb hst rfl rfl fun c' q' hl => ?_
    rw [hcom] at hl
    cases hl
    rcases h.root c [] (by rw [hcom, ← hq]; rfl) with hkey | hnil | hle
    · rw [hkeys] at hkey
      cases hkey
    · cases hnil
    · exact Or.inl hle
  | @finish c slots rounds hcom hq _ hslots _ =>
    refine h.leave hb hst rfl rfl fun c' q' hl => ?_
    rw [hcom] at hl
    cases hl
    exact (h.root c [] (by rw [hcom, ← hq]; rfl)).covered hslots rfl rfl
  | exec hcom | gc hcom =>
    refine h.leave hb hst rfl rfl fun c q hl => ?_
    rw [hcom] at hl
    cases hl

end Loom.Pair
