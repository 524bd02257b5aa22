import Loom.Pair.State

/-!
# The block cache

Each line of the cache is offset by its author's watermark and may have holes, but
never at its end. `Dag.CacheOk` states this representation once; the lemmas below
say for each handler how it moves the watermarks and the lines, so that no later
proof repeats the offset arithmetic `height - cacheMark - 1`.
-/

namespace Loom

namespace Dag

/-- Every block is stored where its slot says. -/
def Placed (d : Dag) : Prop :=
  ∀ (a : Int) (l : List (Option Block)) (i : Nat) (b : Block), d.line a = some l →
    l[i]? = some (some b) → b.header.slot = ⟨a, d.mark a + 1 + i⟩

/-- No line ends in a hole. -/
def Ended (d : Dag) : Prop := ∀ a l, d.line a = some l → l.getLast? ≠ some none

/-- The representation of the cache; pulls are registered above the watermark only. -/
structure CacheOk (d : Dag) : Prop where
  slot : d.Placed
  last : d.Ended
  pending : ∀ s ch, d.pending.lookup s = some ch → d.mark s.author < s.height

/-- The slot lies above its author's watermark and inside the author's line. -/
def Held (d : Dag) (s : Slot) : Prop :=
  ∃ l, d.line s.author = some l ∧ d.mark s.author < s.height ∧
    s.height ≤ d.mark s.author + l.length

/-- Every entry of a watermark map lies inside its author's line. -/
def WmHeld (d : Dag) (wm : GoMap Int Int) : Prop :=
  ∀ a h, wm.lookup a = some h → d.Held ⟨a, h⟩

/-- Same watermarks, and no line gets shorter. -/
structure Grows (d d' : Dag) : Prop where
  mark : ∀ a, d'.mark a = d.mark a
  line : ∀ a l, d.line a = some l → ∃ l', d'.line a = some l' ∧ l.length ≤ l'.length

/-- A dag grows into itself. -/
theorem Grows.refl (d : Dag) : Grows d d :=
  ⟨fun _ => rfl, fun _ l h => ⟨l, h, le_rfl⟩⟩

/-- What is held stays held. -/
theorem Grows.held {d d' : Dag} (h : Grows d d') {s : Slot} (hs : d.Held s) : d'.Held s := by
  obtain ⟨l, hl, hlo, hhi⟩ := hs
  obtain ⟨l', hl', hle⟩ := h.line _ _ hl
  refine ⟨l', hl', ?_, ?_⟩ <;> rw [h.mark] <;> omega

/-- So does what a watermark map asks for. -/
theorem Grows.wmHeld {d d' : Dag} (h : Grows d d') {wm : GoMap Int Int} (hw : d.WmHeld wm) :
    d'.WmHeld wm := fun a k hk => h.held (hw a k hk)

/-! ## Lines -/

/-- Watermarks that are all set to `-1`. -/
theorem lookup_fresh (l : List Int) (m : GoMap Int Int) (a : Int) :
    (l.foldl (fun m id => m.insert id (-1)) m).lookup a =
      if a ∈ l then some (-1) else m.lookup a := by
  induction l generalizing m with
  | nil => simp
  | cons x l ih =>
    rw [List.foldl_cons, ih, GoMap.lookup_insert_ite]
    by_cases hl : a ∈ l <;> by_cases hx : a = x <;> simp [hl, hx]

/-- The watermarks of a fresh dag. -/
theorem mark_newDag (i : Int) (c : Committee) (a : Int) :
    (newDag i c).mark a = if a ∈ c.ids then -1 else 0 := by
  rw [mark, newDag, lookup_fresh]
  split <;> rfl

/-- Replacing a line that exists. -/
theorem line_setLine {d : Dag} {a : Int} {l : List (Option Block)} (h : d.line a = some l)
    (l' : List (Option Block)) (a' : Int) :
    (d.setLine a l').line a' = if a' = a then some l' else d.line a' := by
  unfold line at h
  split at h
  · rename_i ha
    obtain ⟨hlt, _⟩ := List.getElem?_eq_some_iff.mp h
    by_cases heq : a' = a
    · subst a'
      simp [line, setLine, ha, hlt]
    · simp only [line, setLine, heq, ite_false]
      split
      · rw [List.getElem?_set_ne]
        omega
      · rfl
  · cases h

@[simp] theorem mark_setLine (d : Dag) (a a' : Int) (l : List (Option Block)) :
    (d.setLine a l).mark a' = d.mark a' := rfl

/-- A line grows up to the index that is stored at. -/
theorem length_store (l : List (Option Block)) (i : Nat) (b : Block) :
    (store l i b).length = max l.length (i + 1) := by
  unfold store
  split
  · rw [List.length_set]
    omega
  · simp only [List.length_append, List.length_replicate, List.length_singleton]
    omega

/-- A stored line holds the new block at its index and otherwise what it held before. -/
theorem getElem?_store {l : List (Option Block)} {i j : Nat} {b c : Block}
    (h : (store l i b)[j]? = some (some c)) : (j = i ∧ c = b) ∨ l[j]? = some (some c) := by
  unfold store at h
  split at h
  · rw [List.getElem?_set] at h
    split at h
    · subst j
      simp only [Option.some.injEq] at h
      exact Or.inl ⟨rfl, h.symm⟩
    · exact Or.inr h
  · rename_i hi
    rw [List.append_assoc, List.getElem?_append] at h
    split at h
    · exact Or.inr h
    · rw [List.getElem?_append, List.length_replicate] at h
      split at h
      · simp only [List.getElem?_replicate, Option.ite_none_right_eq_some] at h
        simp at h
      · rw [List.getElem?_singleton] at h
        split at h
        · simp only [Option.some.injEq] at h
          exact Or.inl ⟨by omega, h.symm⟩
        · cases h

private theorem getLast?_store {l : List (Option Block)} (h : l.getLast? ≠ some none) (i : Nat)
    (b : Block) : (store l i b).getLast? ≠ some none := by
  unfold store
  split
  · rename_i hi
    rw [List.getLast?_eq_getElem?, List.length_set, List.getElem?_set]
    split
    · simp_all
    · rwa [List.getLast?_eq_getElem?] at h
  · simp

/-! ## Push -/

/-- A push below the watermark is dropped; any other push is stored in its line and
answers the pull registered for its slot. -/
theorem handleBlockPushReq_cases {d d' : Dag} {block : Block} {pc : DagPc}
    (h : d.handleBlockPushReq block = some (d', pc)) :
    (block.header.slot.height ≤ d.mark block.header.slot.author ∧ d' = d ∧ pc = .idle) ∨
    (d.mark block.header.slot.author < block.header.slot.height ∧
      ∃ l, d.line block.header.slot.author = some l ∧
        d' = d.setLine block.header.slot.author
          (store l (block.header.slot.height - d.mark block.header.slot.author - 1).toNat block) ∧
        ((d.pending.lookup block.header.slot = none ∧ pc = .idle) ∨
          ∃ ch, d.pending.lookup block.header.slot = some ch ∧ pc = .reply ch (some block))) := by
  unfold handleBlockPushReq at h
  dsimp only at h
  split at h
  · cases h
    exact Or.inl ⟨by omega, rfl, rfl⟩
  · refine Or.inr ⟨by omega, ?_⟩
    obtain ⟨l, hl, h⟩ := Option.bind_eq_some_iff.mp h
    refine ⟨l, hl, ?_⟩
    split at h <;> cases h
    · exact ⟨rfl, Or.inr ⟨_, ‹_›, rfl⟩⟩
    · exact ⟨rfl, Or.inl ⟨‹_›, rfl⟩⟩

/-- Storing a block at its own slot keeps the representation. -/
theorem CacheOk.store {d : Dag} (hd : d.CacheOk) {block : Block} {l : List (Option Block)}
    (hl : d.line block.header.slot.author = some l)
    (hh : d.mark block.header.slot.author < block.header.slot.height) :
    (d.setLine block.header.slot.author (Dag.store l
      (block.header.slot.height - d.mark block.header.slot.author - 1).toNat block)).CacheOk where
  slot a l' i b hl' hb := by
    rw [line_setLine hl] at hl'
    rw [mark_setLine]
    split at hl'
    · subst a
      cases hl'
      rcases getElem?_store hb with ⟨rfl, rfl⟩ | hb
      · rcases hs : b.header.slot with ⟨a, k⟩
        simp only [hs] at hh ⊢
        rw [Slot.mk.injEq]
        omega
      · exact hd.slot _ _ _ _ hl hb
    · exact hd.slot _ _ _ _ hl' hb
  last a l' hl' := by
    rw [line_setLine hl] at hl'
    split at hl'
    · cases hl'
      exact getLast?_store (hd.last _ _ hl) _ _
    · exact hd.last _ _ hl'
  pending s ch hs := hd.pending s ch hs

/-- Storing a block only adds to the cache. -/
theorem Grows.store {d : Dag} {a : Int} {l : List (Option Block)} (hl : d.line a = some l)
    (i : Nat) (b : Block) : Grows d (d.setLine a (Dag.store l i b)) where
  mark _ := rfl
  line a' l' hl' := by
    rw [line_setLine hl]
    split
    · subst a'
      rw [hl] at hl'
      cases hl'
      exact ⟨_, rfl, by rw [length_store]; omega⟩
    · exact ⟨l', hl', le_rfl⟩

/-- The stored block's slot lies inside its line. -/
theorem held_store {d : Dag} {block : Block} {l : List (Option Block)}
    (hl : d.line block.header.slot.author = some l)
    (hh : d.mark block.header.slot.author < block.header.slot.height) :
    (d.setLine block.header.slot.author (Dag.store l
      (block.header.slot.height - d.mark block.header.slot.author - 1).toNat block)).Held
      block.header.slot := by
  refine ⟨_, by rw [line_setLine hl, if_pos rfl], hh, ?_⟩
  rw [length_store, mark_setLine]
  omega

/-! ## References, reveals and pulls -/

/-- The references found in a list of lines are headers of latest blocks. -/
theorem mem_of_mapM_refOf {round : Int} {ls : List (List (Option Block))}
    {refs : List (List Header)}
    (h : ls.mapM (refOf round) = some refs) {k : Header} (hk : k ∈ refs.flatten) :
    ∃ l ∈ ls, ∃ b, l.getLast? = some (some b) ∧ qualifies round b.header = true ∧ k = b.header := by
  induction ls generalizing refs with
  | nil =>
    cases h
    simp at hk
  | cons l ls ih =>
    rw [List.mapM_cons] at h
    obtain ⟨r, hr, h⟩ := Option.bind_eq_some_iff.mp h
    obtain ⟨rs, hrs, h⟩ := Option.bind_eq_some_iff.mp h
    cases h
    rw [List.flatten_cons, List.mem_append] at hk
    rcases hk with hk | hk
    · unfold refOf at hr
      split at hr
      · cases hr
        simp at hk
      · cases hr
      · rename_i b hb
        cases hr
        split at hk
        · rw [List.mem_singleton] at hk
          exact ⟨l, List.mem_cons_self .., b, hb, ‹_›, hk⟩
        · simp at hk
    · obtain ⟨l', hl', hb⟩ := ih hrs hk
      exact ⟨l', List.mem_cons_of_mem _ hl', hb⟩

/-- A reference request changes nothing, and it answers with headers of stored blocks. -/
theorem handleRefReq_cases {d d' : Dag} {round : Int} {pc : DagPc}
    (h : d.handleRefReq round = some (d', pc)) : d' = d ∧ ∃ ref, pc = .refResp ref ∧
      ∀ k ∈ ref, ∃ (a : Int) (l : List (Option Block)) (j : Nat) (b : Block),
        d.line a = some l ∧ l[j]? = some (some b) ∧ k = b.header := by
  unfold handleRefReq at h
  obtain ⟨refs, hrefs, h⟩ := Option.bind_eq_some_iff.mp h
  have hmem : ∀ k ∈ refs.flatten, ∃ (a : Int) (l : List (Option Block)) (j : Nat) (b : Block),
      d.line a = some l ∧ l[j]? = some (some b) ∧ k = b.header := by
    intro k hk
    obtain ⟨l, hl, b, hb, _, rfl⟩ := mem_of_mapM_refOf hrefs hk
    obtain ⟨a, ha, rfl⟩ := List.getElem_of_mem hl
    rw [List.getLast?_eq_getElem?] at hb
    refine ⟨a, _, _, b, ?_, hb, rfl⟩
    simp [line, ha]
  dsimp only at h
  split at h
  · obtain ⟨l, hl, h⟩ := Option.bind_eq_some_iff.mp h
    split at h
    · cases h
      exact ⟨rfl, _, rfl, hmem⟩
    · cases h
    · rename_i b hb
      cases h
      refine ⟨rfl, _, rfl, ?_⟩
      intro k hk
      rw [List.mem_singleton] at hk
      rw [List.getLast?_eq_getElem?] at hb
      exact ⟨_, l, _, b, hl, hb, hk⟩
  · cases h
    exact ⟨rfl, _, rfl, hmem⟩

/-- A request for references leaves the dag as it is. -/
theorem handleRefReq_dag {d d' : Dag} {round : Int} {pc : DagPc}
    (h : d.handleRefReq round = some (d', pc)) : d' = d ∧ ∃ ref, pc = .refResp ref := by
  obtain ⟨hd, ref, hpc, _⟩ := handleRefReq_cases h
  exact ⟨hd, ref, hpc⟩

/-- A reveal touches the leader map and the pending commit only. -/
theorem handleCommitReq_cases {d d' : Dag} {req : CommitReq} {pc : DagPc}
    (h : d.handleCommitReq req = some (d', pc)) :
    ∃ p, d' = { d with uncommitted := d.uncommitted.insert req.round req.leader,
                       pendingCommit := p } ∧
      (({ d with uncommitted := d.uncommitted.insert req.round req.leader } : Dag).isAnchorReady
          (d.nextCommit req).round = false ∧ p = some (d.nextCommit req) ∧ pc = .idle ∨
       ({ d with uncommitted := d.uncommitted.insert req.round req.leader } : Dag).isAnchorReady
          (d.nextCommit req).round = true ∧
        ∃ l, d.line (d.nextCommit req).leader = some l ∧
          (topBlock l (d.nextCommit req).round = none ∧ p = none ∧ pc = .idle ∨
           ∃ b, topBlock l (d.nextCommit req).round = some b ∧ p = some (d.nextCommit req) ∧
            pc = .submit ⟨⟨(d.nextCommit req).leader, b.header.slot.height - 2⟩,
              (d.nextCommit req).round⟩)) := by
  unfold handleCommitReq at h
  dsimp only at h
  split at h
  · rename_i hready
    obtain ⟨l, hl, h⟩ := Option.bind_eq_some_iff.mp h
    split at h <;> cases h
    · exact ⟨_, rfl, Or.inr ⟨hready, l, hl, Or.inr ⟨_, ‹_›, rfl, rfl⟩⟩⟩
    · exact ⟨_, rfl, Or.inr ⟨hready, l, hl, Or.inl ⟨‹_›, rfl, rfl⟩⟩⟩
  · rename_i hready
    cases h
    exact ⟨_, rfl, Or.inl ⟨Bool.eq_false_iff.mpr hready, rfl, rfl⟩⟩

/-- A pull is answered with nothing, answered with a stored block, or registered. -/
theorem handleBlockPullReq_cases {d d' : Dag} {s : Slot} {ch : Nat} {pc : DagPc}
    (h : d.handleBlockPullReq s ch = some (d', pc)) :
    (s.height ≤ d.mark s.author ∧ d' = d ∧ pc = .reply ch none) ∨
    (d.mark s.author < s.height ∧ ∃ l, d.line s.author = some l ∧
      ((∃ b, l[(s.height - d.mark s.author - 1).toNat]? = some (some b) ∧
          d' = d ∧ pc = .reply ch (some b)) ∨
        (l[(s.height - d.mark s.author - 1).toNat]?.join = none ∧
          d' = { d with pending := d.pending.insert s ch } ∧ pc = .idle))) := by
  unfold handleBlockPullReq at h
  split at h
  · cases h
    exact Or.inl ⟨‹_›, rfl, rfl⟩
  · refine Or.inr ⟨by omega, ?_⟩
    obtain ⟨l, hl, h⟩ := Option.bind_eq_some_iff.mp h
    refine ⟨l, hl, ?_⟩
    split at h <;> cases h
    · exact Or.inl ⟨_, Option.join_eq_some_iff.mp ‹_›, rfl, rfl⟩
    · exact Or.inr ⟨‹_›, rfl, rfl⟩

/-- A block read for a slot is the block of that slot. -/
theorem CacheOk.read {d : Dag} (hd : d.CacheOk) {s : Slot} {l : List (Option Block)} {b : Block}
    (hl : d.line s.author = some l) (hh : d.mark s.author < s.height)
    (hb : l[(s.height - d.mark s.author - 1).toNat]? = some (some b)) :
    b.header.slot = s ∧ d.Held s := by
  constructor
  · rw [hd.slot _ _ _ _ hl hb]
    rcases s with ⟨a, k⟩
    simp only [Slot.mk.injEq, true_and] at hh ⊢
    omega
  · obtain ⟨hlt, _⟩ := List.getElem?_eq_some_iff.mp hb
    exact ⟨l, hl, hh, by omega⟩

/-! ## Garbage collection -/

private theorem mark_insert (d : Dag) (a k a' : Int) :
    ({ d with cacheMark := d.cacheMark.insert a k } : Dag).mark a' =
      if a' = a then k else d.mark a' := by
  simp only [mark, GoMap.lookup_insert_ite]
  split <;> rfl

/-- Cleaning a line moves its watermark and drops what is at or below it. -/
theorem cleanLine_cases {d d' : Dag} {a wm : Int} (h : d.cleanLine a wm = some d') :
    ∃ l, d.line a = some l ∧ d'.line a = some (l.drop (wm - d.mark a).toNat) ∧
      (l = [] ∨ d.mark a ≤ wm ∧ wm ≤ d.mark a + l.length) ∧
      (∀ a', a' ≠ a → d'.line a' = d.line a') ∧
      (∀ a', d'.mark a' = if a' = a then wm else d.mark a') ∧
      d' = { d with cache := d'.cache, cacheMark := d'.cacheMark } := by
  unfold cleanLine at h
  obtain ⟨l, hl, h⟩ := Option.bind_eq_some_iff.mp h
  dsimp only at h
  refine ⟨l, hl, ?_⟩
  split at h
  · cases h
    subst l
    refine ⟨by rw [List.drop_nil]; exact hl, Or.inl rfl, fun _ _ => rfl, mark_insert d a wm, rfl⟩
  · split at h
    · cases h
      refine ⟨?_, Or.inr (by omega), ?_, mark_insert _ a wm, rfl⟩
      · exact (line_setLine hl _ a).trans (if_pos rfl)
      · intro a' ha'
        exact (line_setLine hl _ a').trans (if_neg ha')
    · cases h

/-- One cleaned line keeps the block positions and the ends of the lines. -/
theorem cleanLine_ok {d d' : Dag} {a wm : Int} (h : d.cleanLine a wm = some d')
    (hslot : d.Placed) (hlast : d.Ended) : d'.Placed ∧ d'.Ended := by
  obtain ⟨l, hl, hl', hin, hother, hmark, _⟩ := cleanLine_cases h
  constructor
  · intro a' k i b hk hb
    rw [hmark]
    by_cases ha : a' = a
    · subst a'
      rw [hl'] at hk
      cases hk
      rw [List.getElem?_drop] at hb
      rw [hslot a l _ b hl hb, if_pos rfl, Slot.mk.injEq]
      rcases hin with rfl | hin
      · simp at hb
      · simp only [true_and]
        omega
    · rw [hother a' ha] at hk
      rw [hslot a' k i b hk hb, if_neg ha]
  · intro a' k hk
    by_cases ha : a' = a
    · subst a'
      rw [hl'] at hk
      cases hk
      have hold := hlast a l hl
      rw [List.getLast?_drop]
      split
      · simp
      · exact hold
    · rw [hother a' ha] at hk
      exact hlast a' k hk

/-- A clean over a list of authors sets their watermarks to the new ones. -/
theorem cleanLines_cases {wm : GoMap Int Int} {ids : List Int} {d d' : Dag}
    (h : cleanLines wm ids d = some d') :
    (∀ a, d'.mark a = if a ∈ ids then (wm.lookup a).getD 0 else d.mark a) ∧
      (∀ a, a ∉ ids → d'.line a = d.line a) ∧
      d' = { d with cache := d'.cache, cacheMark := d'.cacheMark } := by
  induction ids generalizing d with
  | nil =>
    cases h
    simp
  | cons id ids ih =>
    obtain ⟨d₁, h₁, h⟩ := Option.bind_eq_some_iff.mp h
    obtain ⟨_, _, _, _, hother, hmark, hrest⟩ := cleanLine_cases h₁
    obtain ⟨hmark', hline', hrest'⟩ := ih h
    refine ⟨?_, ?_, by rw [hrest', hrest]⟩
    · intro a
      rw [hmark', hmark]
      by_cases ha : a = id
      · subst a
        simp
      · simp [ha]
    · intro a ha
      rw [List.mem_cons, not_or] at ha
      rw [hline' a ha.2, hother a ha.1]

/-- Cleaning keeps blocks at their places and lines without a hole at the end. -/
theorem cleanLines_ok {wm : GoMap Int Int} {ids : List Int} {d d' : Dag}
    (h : cleanLines wm ids d = some d')
    (hslot : d.Placed) (hlast : d.Ended) : d'.Placed ∧ d'.Ended := by
  induction ids generalizing d with
  | nil =>
    cases h
    exact ⟨hslot, hlast⟩
  | cons id ids ih =>
    obtain ⟨d₁, h₁, h⟩ := Option.bind_eq_some_iff.mp h
    obtain ⟨hs, hl⟩ := cleanLine_ok h₁ hslot hlast
    exact ih h hs hl

/-- Cleaning only drops blocks from the front of lines. -/
theorem cleanLines_drop {wm : GoMap Int Int} {ids : List Int} {d d' : Dag}
    (h : cleanLines wm ids d = some d') {a : Int} {l' : List (Option Block)}
    (hl' : d'.line a = some l') : ∃ l n, d.line a = some l ∧ l' = l.drop n := by
  induction ids generalizing d with
  | nil =>
    cases h
    exact ⟨l', 0, hl', rfl⟩
  | cons id ids ih =>
    obtain ⟨d₁, h₁, h⟩ := Option.bind_eq_some_iff.mp h
    obtain ⟨l₁, n₁, hl₁, rfl⟩ := ih h
    obtain ⟨l, hl, hdrop, _, hother, _⟩ := cleanLine_cases h₁
    by_cases ha : a = id
    · subst a
      rw [hdrop, Option.some.injEq] at hl₁
      subst hl₁
      exact ⟨l, _, hl, List.drop_drop ..⟩
    · rw [hother a ha] at hl₁
      exact ⟨l₁, n₁, hl₁, rfl⟩

/-- The effect of a processed garbage-collection request. -/
theorem handleCleanReq_cases {d d' : Dag} {wm : GoMap Int Int} {order : List Int} {pc : DagPc}
    (h : d.handleCleanReq wm order = some (d', pc)) :
    pc = .idle ∧ ∃ p d₁, d.pendingCommit = some p ∧ cleanLines wm order d = some d₁ ∧
      d' = { d with
        cache := d₁.cache
        cacheMark := d₁.cacheMark
        commitMark := p.round
        uncommitted := GoMap.eraseAll d.uncommitted
          (d.uncommitted.keys.filter fun r => decide (r ≤ p.round))
        pending := ∅ } := by
  unfold handleCleanReq at h
  obtain ⟨p, hp, h⟩ := Option.bind_eq_some_iff.mp h
  obtain ⟨d₁, h₁, h⟩ := Option.bind_eq_some_iff.mp h
  cases h
  refine ⟨rfl, p, d₁, hp, h₁, ?_⟩
  rw [(cleanLines_cases h₁).2.2]

/-- The leader map after garbage collection: exactly the rounds above the bound stay. -/
theorem lookup_erase_le (u : GoMap Int Int) (bound r : Int) :
    (GoMap.eraseAll u (u.keys.filter fun r => decide (r ≤ bound))).lookup r =
      if r ≤ bound then none else u.lookup r := by
  rw [GoMap.lookup_eraseAll]
  by_cases hr : r ≤ bound
  · rw [if_pos hr]
    split
    · rfl
    · rename_i hm
      rw [List.mem_filter, decide_eq_true_eq, not_and_or] at hm
      rcases hm with hm | hm
      · rw [AList.lookup_eq_none, AList.mem_keys]
        exact hm
      · exact absurd hr hm
  · rw [if_neg hr, if_neg]
    simp [hr]

/-- A held watermark map is cleaned without leaving a slice, in every order of its keys. -/
theorem cleanLines_isSome {wm : GoMap Int Int} {ids : List Int} {d : Dag} (hn : ids.Nodup)
    (h : ∀ a ∈ ids, ∃ k, wm.lookup a = some k ∧ d.Held ⟨a, k⟩) :
    ∃ d', cleanLines wm ids d = some d' := by
  induction ids generalizing d with
  | nil => exact ⟨d, rfl⟩
  | cons id ids ih =>
    obtain ⟨k, hk, l, hl, hlo, hhi⟩ := h id (List.mem_cons_self ..)
    rw [List.nodup_cons] at hn
    have hstep : ∃ d₁, d.cleanLine id k = some d₁ := by
      simp only at hl hlo hhi
      unfold cleanLine
      simp only [hl, Option.bind_eq_bind, Option.bind_some]
      split
      · exact ⟨_, rfl⟩
      · rw [if_pos (by omega)]
        exact ⟨_, rfl⟩
    obtain ⟨d₁, h₁⟩ := hstep
    obtain ⟨_, _, _, _, hother, hmark, _⟩ := cleanLine_cases h₁
    have hrest : ∀ a ∈ ids, ∃ k, wm.lookup a = some k ∧ d₁.Held ⟨a, k⟩ := by
      intro a ha
      have hne : a ≠ id := fun he => hn.1 (he ▸ ha)
      obtain ⟨k, hk, l, hl, hlo, hhi⟩ := h a (List.mem_cons_of_mem _ ha)
      refine ⟨k, hk, l, ?_, ?_, ?_⟩
      · rw [hother a hne]
        exact hl
      · rw [hmark, if_neg hne]
        exact hlo
      · rw [hmark, if_neg hne]
        exact hhi
    obtain ⟨d', h'⟩ := ih hn.2 hrest
    refine ⟨d', ?_⟩
    simp only [cleanLines, hk, Option.getD_some, h₁, Option.bind_eq_bind, Option.bind_some]
    exact h'

/-- Cleaning does not panic if all blocks up to the watermarks are held. -/
theorem WmHeld.cleanLines {d : Dag} {wm : GoMap Int Int} (h : d.WmHeld wm) {order : List Int}
    (hord : order.Perm wm.keys) : ∃ d', Dag.cleanLines wm order d = some d' := by
  refine cleanLines_isSome (hord.nodup_iff.mpr wm.keys_nodup) fun a ha => ?_
  obtain ⟨k, hk⟩ := (GoMap.mem_keys_iff wm a).mp (hord.mem_iff.mp ha)
  exact ⟨k, hk, h a k hk⟩

end Dag

end Loom
