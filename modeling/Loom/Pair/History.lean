import Loom.Pair.Refine

/-!
# The history of an executed block

Whatever a node executes was pushed by its core. A pull loop visits the references of every
block that it gathers, and the answer without a block stands for a slot below the watermark.
A commit therefore never executes a block whose references it has neither gathered nor found
committed, whatever blocks the core pushes.
-/

namespace Loom.Pair

/-- Every block in the hands of the dag or the commitor, executed or not, has the property. -/
structure Throughout (P : Block → Prop) (s : Pair) : Prop where
  stored : s.Stored P
  received : ∀ c head b, s.com = .received c head (some b) → P b
  pulled : ∀ sl b, s.com.pulled.lookup sl = some b → P b
  ordered : ∀ b ∈ s.executed ++ s.com.todo, P b

/-- At the start there is no block. -/
theorem throughout_init (P : Block → Prop) (i : Int) (c : Committee) :
    (init i c).Throughout P where
  stored := stored_init P i c
  received := by simp [init]
  pulled := by simp [init, Commitor.pulled]
  ordered := by simp [init, Commitor.todo]

/-- A weaker property. -/
theorem Throughout.mono {P Q : Block → Prop} {s : Pair} (h : s.Throughout P)
    (hPQ : ∀ b, P b → Q b) : s.Throughout Q where
  stored := h.stored.mono hPQ
  received c head b hb := hPQ b (h.received c head b hb)
  pulled sl b hb := hPQ b (h.pulled sl b hb)
  ordered b hb := hPQ b (h.ordered b hb)

/-- A panic moves no block. -/
theorem Throughout.crash {P : Block → Prop} {s : Pair} (h : s.Throughout P) :
    ({ s with crashed := true } : Pair).Throughout P :=
  ⟨h.stored.crash, h.received, h.pulled, h.ordered⟩

/-- The blocks of a commit are among those gathered. -/
theorem Throughout.finish {P : Block → Prop} {s : Pair} (h : s.Throughout P) (hb : s.Bounds)
    {c : CommitState} (hcom : s.com = .pulling c) (rounds : List Int) :
    ∀ b ∈ c.execOrder rounds, P b := by
  have hkeyed : Keyed c.pulled := fun sl b hl => (hb.pulled sl b (by rw [hcom]; exact hl)).1
  intro b hmem
  refine h.pulled b.header.slot b ?_
  rw [hcom]
  exact lookup_of_mem_commitRounds hkeyed hmem

/-- The property is kept if the core pushes only blocks that have it. -/
theorem throughout_step {P : Block → Prop} {s t : Pair} {a : Act} (hb : s.Bounds)
    (h : s.Throughout P) (hP : ∀ b, a = .send (.propose b) → P b) (hs : s.Step a t) :
    t.Throughout P := by
  have hst := stored_step h.stored hP hs
  cases hs with
  | send | crash | dag | submit | refResp => exact ⟨hst, h.received, h.pulled, h.ordered⟩
  | @reply ch b c head hpc hcom =>
    refine ⟨hst, ?_, fun sl b hl => h.pulled sl b (by rw [hcom]; exact hl),
      fun b hm => h.ordered b (by rw [hcom]; exact hm)⟩
    intro c' head' b' he
    cases he
    exact h.stored.reply _ _ hpc
  | take hcom =>
    exact ⟨hst, by simp, by simp [Commitor.pulled, CommitState.start],
      fun b hm => h.ordered b (by rw [hcom]; exact hm)⟩
  | skip hcom | pull hcom =>
    exact ⟨hst, by simp, fun sl b hl => h.pulled sl b (by rw [hcom]; exact hl),
      fun b hm => h.ordered b (by rw [hcom]; exact hm)⟩
  | @process c head reply hcom =>
    refine ⟨hst, by simp, fun sl b hl => ?_, fun b hm => h.ordered b (by rw [hcom]; exact hm)⟩
    cases reply with
    | none => exact h.pulled sl b (by rw [hcom]; exact hl)
    | some cur =>
      simp only [Commitor.pulled, CommitState.receive, GoMap.lookup_insert_ite] at hl
      split at hl
      · cases hl
        exact h.received _ _ _ hcom
      · exact h.pulled sl b (by rw [hcom]; exact hl)
  | nothing hcom =>
    exact ⟨hst, by simp, by simp [Commitor.pulled],
      fun b hm => h.ordered b (by rw [hcom]; exact hm)⟩
  | @finish c slots rounds hcom _ _ _ _ =>
    refine ⟨hst, by simp, by simp [Commitor.pulled], fun b hmem => ?_⟩
    rcases List.mem_append.mp hmem with hmem | hmem
    · exact h.ordered b (List.mem_append_left _ hmem)
    · exact h.finish hb hcom rounds b hmem
  | exec hcom =>
    refine ⟨hst, by simp, by simp [Commitor.pulled], fun b hmem => h.ordered b ?_⟩
    rw [hcom]
    simpa [Commitor.todo] using hmem
  | gc hcom =>
    exact ⟨hst, by simp, by simp [Commitor.pulled],
      fun b hm => h.ordered b (by rw [hcom]; exact hm)⟩

/-- Every block in a pair was pushed by its core. -/
theorem Reaches.pushed {i : Int} {c : Committee} {acts : List Act} {s : Pair}
    (h : Reaches i c acts s) : s.Throughout fun b => .send (.propose b) ∈ acts := by
  have hall : s.Inv i c ∧ s.Throughout fun b => .send (.propose b) ∈ acts := by
    refine Machine.history (P := fun acts s => s.Inv i c ∧
      s.Throughout fun b => .send (.propose b) ∈ acts) ⟨inv_init i c, throughout_init _ i c⟩ ?_
      (Machine.along_of_forall fun _ _ _ => trivial) h
    rintro acts u a t ⟨hinv, hu⟩ _ hs
    refine ⟨hinv.step hs, throughout_step hinv.bounds (hu.mono fun b hb => ?_) ?_ (step_cases hs).2⟩
    · exact List.mem_append_left _ hb
    · rintro b rfl
      exact List.mem_append_right _ (List.mem_singleton.mpr rfl)
  exact hall.2

/-! ## Closure under references -/

/-- The loop of a commit has gathered the slot, it has still to visit it, or the slot is
committed. -/
def Sees (s : Pair) (c : CommitState) (q : List Slot) (r : Slot) : Prop :=
  r ∈ c.pulled.keys ∨ r ∈ q ∨ r.height ≤ s.dag.mark r.author

/-- A reference stays in sight when the watermarks rise. -/
theorem Sees.mono {s t : Pair} {c : CommitState} {q : List Slot} {r : Slot} (h : s.Sees c q r)
    (hmark : s.dag.mark r.author ≤ t.dag.mark r.author) : t.Sees c q r :=
  h.imp_right fun h => h.imp_right fun hle => hle.trans hmark

/-- A slot that was gathered before is passed over. -/
theorem Sees.skip {s : Pair} {c : CommitState} {head : Slot} {q : List Slot} {r : Slot}
    (h : s.Sees c (head :: q) r) (hseen : head ∈ c.pulled.keys) : s.Sees c q r := by
  rcases h with hkey | hmem | hle
  · exact Or.inl hkey
  · rcases List.mem_cons.mp hmem with rfl | hmem
    · exact Or.inl hseen
    · exact Or.inr (Or.inl hmem)
  · exact Or.inr (Or.inr hle)

/-- A slot is gathered with its block, and a slot without one is committed. -/
theorem Sees.receive {s : Pair} {c : CommitState} {head r : Slot} {reply : Option Block}
    (h : s.Sees c (head :: c.q) r) (hnil : reply = none → head.height ≤ s.dag.mark head.author)
    (un : GoMap Int Int) :
    s.Sees (c.receive un head reply) (c.receive un head reply).q r := by
  cases reply with
  | none =>
    rcases h with hkey | hmem | hle
    · exact Or.inl hkey
    · rcases List.mem_cons.mp hmem with rfl | hmem
      · exact Or.inr (Or.inr (hnil rfl))
      · exact Or.inr (Or.inl hmem)
    · exact Or.inr (Or.inr hle)
  | some cur =>
    simp only [Sees, CommitState.receive, GoMap.mem_keys_insert]
    rcases h with hkey | hmem | hle
    · exact Or.inl (Or.inr hkey)
    · rcases List.mem_cons.mp hmem with rfl | hmem
      · exact Or.inl (Or.inl rfl)
      · exact Or.inr (Or.inl (List.mem_append_left _ hmem))
    · exact Or.inr (Or.inr hle)

/-- When the loop has ended, the new watermarks and the old ones cover what it has seen. -/
theorem Sees.covered {s t : Pair} {c : CommitState} {r : Slot} (h : s.Sees c [] r)
    {slots : List Slot} {req : SubmitReq} {todo : List Block} (hslots : slots.Perm c.pulled.keys)
    (ht : t.com = .executing req todo (newWatermark slots)) (hdag : t.dag = s.dag) :
    t.Covered r := by
  rcases h with hkey | hnil | hle
  · obtain ⟨k, hk, hle⟩ := newWatermark_covers (hslots.mem_iff.mpr hkey)
    exact Or.inr ⟨_, k, Or.inl ⟨_, _, ht⟩, hk, hle⟩
  · cases hnil
  · exact Or.inl (by rw [hdag]; exact hle)

/-- Every reference of a gathered block is gathered, still to be visited or committed, and
every reference of a block ordered for execution is covered. -/
structure Closed (s : Pair) : Prop where
  nilReply : ∀ ch sl, s.dagPc = .reply ch none → s.pulls[ch]? = some sl →
    sl.height ≤ s.dag.mark sl.author
  nilReceived : ∀ c head, s.com = .received c head none → head.height ≤ s.dag.mark head.author
  gathered : ∀ c q, s.com.loop = some (c, q) → ∀ sl b, c.pulled.lookup sl = some b →
    ∀ r ∈ b.refSlots, s.Sees c q r
  ordered : ∀ b ∈ s.executed ++ s.com.todo, ∀ r ∈ b.refSlots, s.Covered r

/-- At the start nothing is ordered. -/
theorem closed_init (i : Int) (c : Committee) : (init i c).Closed where
  nilReply := by simp [init]
  nilReceived := by simp [init]
  gathered := by simp [init, Commitor.loop]
  ordered := by simp [init, Commitor.todo]

/-- One turn of the loop: the references of the block received are put into the queue. -/
theorem Closed.process {s : Pair} (h : s.Closed) {c : CommitState} {head : Slot}
    {reply : Option Block} (hcom : s.com = .received c head reply) (un : GoMap Int Int) :
    ∀ sl b, (c.receive un head reply).pulled.lookup sl = some b → ∀ r ∈ b.refSlots,
      s.Sees (c.receive un head reply) (c.receive un head reply).q r := by
  have hnil : reply = none → head.height ≤ s.dag.mark head.author := by
    rintro rfl
    exact h.nilReceived c head hcom
  have hold : ∀ sl b, c.pulled.lookup sl = some b → ∀ r ∈ b.refSlots,
      s.Sees (c.receive un head reply) (c.receive un head reply).q r :=
    fun sl b hl r hr =>
      (h.gathered c (head :: c.q) (by rw [hcom]; rfl) sl b hl r hr).receive hnil un
  cases reply with
  | none => exact hold
  | some cur =>
    intro sl b hl r hr
    simp only [CommitState.receive, GoMap.lookup_insert_ite] at hl
    split at hl
    · cases hl
      exact Or.inr (Or.inl (List.mem_append_right _ hr))
    · exact hold sl b hl r hr

/-- When the loop has ended, the new watermarks and the old ones cover all references. -/
theorem Closed.finish {s : Pair} (h : s.Closed) (hb : s.Bounds) {c : CommitState}
    {slots : List Slot} {t : Pair} {req : SubmitReq} {todo : List Block}
    (hcom : s.com = .pulling c) (hq : c.q = []) (hslots : slots.Perm c.pulled.keys)
    (rounds : List Int) (ht : t.com = .executing req todo (newWatermark slots))
    (hdag : t.dag = s.dag) : ∀ b ∈ c.execOrder rounds, ∀ r ∈ b.refSlots, t.Covered r := by
  intro b hmem r hr
  have hl := ((hb.finish hcom hslots rounds).2 b hmem).1
  exact (h.gathered c [] (by rw [hcom, ← hq]; rfl) _ b hl r hr).covered hslots ht hdag

/-- Every step keeps what is ordered closed up to the watermarks. -/
theorem closed_step {s t : Pair} {a : Act} (hd : s.DagSide) (hsh : s.Shape) (hb : s.Bounds)
    (h : s.Closed) (hs : s.Step a t) : t.Closed := by
  have hcov : ∀ {b : Block}, b ∈ s.executed ++ s.com.todo → ∀ r ∈ b.refSlots, t.Covered r :=
    fun hmem r hr => (h.ordered _ hmem r hr).step hb hs
  have hmono := mark_mono hb hs
  have hloop : ∀ {c q}, s.com.loop = some (c, q) → ∀ sl b, c.pulled.lookup sl = some b →
      ∀ r ∈ b.refSlots, t.Sees c q r :=
    fun hl sl b hlb r hr => (h.gathered _ _ hl sl b hlb r hr).mono (hmono _)
  cases hs with
  | send => exact ⟨h.nilReply, h.nilReceived, fun c q hl => hloop hl, fun b hm => hcov hm⟩
  | crash => exact ⟨h.nilReply, h.nilReceived, fun c q hl => hloop hl, fun b hm => hcov hm⟩
  | dag hpc hop hord hm =>
    refine ⟨fun ch sl => nilReply_handle hd hop hm, fun c head hcom => ?_,
      fun c q hl => hloop hl, fun b hm => hcov hm⟩
    exact (h.nilReceived c head hcom).trans (hmono _)
  | submit | refResp =>
    exact ⟨by simp, h.nilReceived, fun c q hl => hloop hl, fun b hm => hcov hm⟩
  | @reply ch b c head hpc hcom =>
    refine ⟨by simp, ?_, ?_, fun b hm => hcov (by rw [hcom]; exact hm)⟩
    · intro c' head' he
      cases he
      simp only [Shape, hcom] at hsh
      exact h.nilReply ch _ hpc hsh.1
    · intro c' q he
      exact hloop (by rw [hcom]; exact he)
  | take hcom =>
    refine ⟨h.nilReply, by simp, ?_, fun b hm => hcov (by rw [hcom]; exact hm)⟩
    intro c q he sl b hl
    cases he
    simp [CommitState.start] at hl
  | @skip c head q hcom hq hseen =>
    refine ⟨h.nilReply, by simp, ?_, fun b hm => hcov (by rw [hcom]; exact hm)⟩
    intro c' q' he sl b hl r hr
    cases he
    exact (hloop (c := c) (q := head :: q) (by rw [hcom, ← hq]; rfl) sl b hl r hr).skip hseen
  | @pull c head q hcom hq _ =>
    refine ⟨?_, by simp, ?_, fun b hm => hcov (by rw [hcom]; exact hm)⟩
    · intro ch sl hpc hsl
      refine h.nilReply ch sl hpc ?_
      obtain ⟨_, hmade, _⟩ := hd.reply ch none hpc
      rwa [List.getElem?_append_left (List.getElem?_eq_some_iff.mp hmade).1] at hsl
    · intro c' q' he
      cases he
      exact hloop (c := c) (q := head :: q) (by rw [hcom, ← hq]; rfl)
  | @process c head reply hcom =>
    refine ⟨h.nilReply, by simp, ?_, fun b hm => hcov (by rw [hcom]; exact hm)⟩
    intro c' q he
    cases he
    exact h.process hcom _
  | nothing hcom =>
    exact ⟨h.nilReply, by simp, by simp [Commitor.loop],
      fun b hm => hcov (by rw [hcom]; exact hm)⟩
  | @finish c slots rounds hcom hq _ hslots _ =>
    refine ⟨h.nilReply, by simp, by simp [Commitor.loop], fun b hm => ?_⟩
    rcases List.mem_append.mp hm with hm | hm
    · exact hcov (List.mem_append_left _ hm)
    · exact h.finish hb hcom hq hslots rounds (by rfl) (by rfl) b hm
  | exec hcom =>
    refine ⟨h.nilReply, by simp, by simp [Commitor.loop], fun b hm => hcov ?_⟩
    rw [hcom]
    simpa [Commitor.todo] using hm
  | gc hcom =>
    exact ⟨h.nilReply, by simp, by simp [Commitor.loop],
      fun b hm => hcov (by rw [hcom]; exact hm)⟩

/-- A panic orders nothing. -/
theorem Closed.crash {s : Pair} (h : s.Closed) : ({ s with crashed := true } : Pair).Closed :=
  ⟨h.nilReply, h.nilReceived, h.gathered, h.ordered⟩

/-- So it is closed after every run. -/
theorem Reaches.closed {i : Int} {c : Committee} {acts : List Act} {s : Pair}
    (h : Reaches i c acts s) : s.Closed := by
  have hall : s.Inv i c ∧ s.Closed := by
    refine Machine.invariant (P := fun s => s.Inv i c ∧ s.Closed) ?_
      ⟨inv_init i c, closed_init i c⟩ h
    rintro u a t ⟨hinv, hu⟩ hs
    exact ⟨hinv.step hs, closed_step hinv.dagSide hinv.shape hinv.bounds hu (step_cases hs).2⟩
  exact hall.2

/-- **What is executed refers to nothing above the watermarks.** Whatever blocks and reveals
the core sends: a block passed to `exec` was pushed by the core, and each of its references is
at or below the watermark of its author, which is in the dag or on its way there. -/
theorem executed_closed {i : Int} {c : Committee} {acts : List Act} {s : Pair}
    (h : Reaches i c acts s) : ∀ b ∈ s.executed, .send (.propose b) ∈ acts ∧
      ∀ r ∈ b.refSlots, r.height ≤ s.dag.mark r.author ∨ ∃ wm k,
        s.Flying wm ∧ wm.lookup r.author = some k ∧ r.height ≤ k := by
  intro b hb
  have hmem : b ∈ s.executed ++ s.com.todo := List.mem_append_left _ hb
  exact ⟨h.pushed.ordered b hmem, h.closed.ordered b hmem⟩

/-- Block `(1, 1)` is executed, and its parent is below a watermark that is on its way. -/
theorem executed_closed_commitRun : ∃ s, Reaches 0 fourMembers commitRun s ∧
    plainBlock 0 1 1 ∈ s.executed ∧ s.dag.mark 1 = -1 ∧
    ∃ wm k, s.Flying wm ∧ wm.lookup 1 = some k ∧ 0 ≤ k := by
  obtain ⟨s, hs, hmem, hmark⟩ : ∃ s ∈ Machine.run step (init 0 fourMembers) commitRun,
      plainBlock 0 1 1 ∈ s.executed ∧ s.dag.mark 1 = -1 := by decide +kernel
  obtain ⟨_, hrefs⟩ := executed_closed hs _ hmem
  refine ⟨s, hs, hmem, hmark, ?_⟩
  rcases hrefs ⟨1, 0⟩ (by decide) with hle | hfly
  · rw [hmark] at hle
    cases hle
  · exact hfly

end Loom.Pair
