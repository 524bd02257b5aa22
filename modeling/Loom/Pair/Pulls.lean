import Loom.Pair.Commit
import Loom.Pair.Once

/-!
# Every pull is answered once

A pull carries a reply channel of its own. The dag answers it at once or registers the
channel, and the first push of the slot that follows uses it. The entry stays registered
after that, until the next garbage collection, so a second push of the slot would answer
on a channel that nobody reads any more. The condition below excludes such a push.
-/

namespace Loom

/-- The channel of a reply that the dag is about to send. -/
def DagPc.channels : DagPc → List Nat
  | .reply ch _ => [ch]
  | _ => []

@[simp] theorem DagPc.channels_reply (ch : Nat) (b : Option Block) :
    (DagPc.reply ch b).channels = [ch] := rfl

@[simp] theorem DagPc.channels_idle : DagPc.idle.channels = [] := rfl

@[simp] theorem DagPc.channels_refResp (ref : List Header) :
    (DagPc.refResp ref).channels = [] := rfl

@[simp] theorem DagPc.channels_submit (req : SubmitReq) : (DagPc.submit req).channels = [] := rfl

namespace Pair

/-- The channel on which a step makes the dag send. -/
def begins (_ : Pair) : Act → Pair → List Nat
  | .dag _, t => t.dagPc.channels
  | _, _ => []

/-- The channels on which the dag sends in the course of a run. -/
def replies (s : Pair) (acts : List Act) : List Nat := Machine.outputs step begins s acts

/-- Whether the dag takes the given request from its queue. -/
def Takes (s : Pair) (a : Act) (m : OpMsg) : Prop :=
  (∃ order, a = .dag order) ∧ s.dagPc = .idle ∧ ∃ rest, s.opCh = m :: rest

/-- A push is handled while a pull of its slot is registered only if the cache does not
hold that slot yet. -/
def freshPush (s : Pair) : Act → Bool
  | .dag _ =>
    match s.opCh with
    | .core (.propose b) :: _ =>
      (s.dag.pending.lookup b.header.slot).isNone || (s.dag.blockAt b.header.slot).isNone
    | _ => true
  | _ => true

/-! ## At most one reply -/

/-- What the replies sent so far leave open. -/
structure Answered (sent : List Nat) (s : Pair) : Prop where
  nodup : sent.Nodup
  made : ∀ ch ∈ sent, ch < s.pulls.length
  queued : ∀ sl ch, OpMsg.blockPullReq sl ch ∈ s.opCh → ch ∉ sent
  held : ∀ sl ch, s.dag.pending.lookup sl = some ch → ch ∈ sent → (s.dag.blockAt sl).isSome

/-- At the start no pull has been answered. -/
theorem answered_init (i : Int) (c : Committee) : (init i c).Answered [] where
  nodup := List.nodup_nil
  made := by simp
  queued := by simp
  held := by simp

end Pair

/-- Reading a stored line. -/
theorem Dag.join_getElem?_store (l : List (Option Block)) (i j : Nat) (b : Block) :
    (Dag.store l i b)[j]?.join = if j = i then some b else l[j]?.join := by
  unfold Dag.store
  split
  · rename_i hi
    rw [List.getElem?_set]
    by_cases hj : i = j
    · subst j
      simp [hi]
    · simp [hj, Ne.symm hj]
  · rename_i hi
    rw [List.append_assoc, List.getElem?_append]
    split
    · rename_i hj
      rw [if_neg (by omega)]
    · rename_i hj
      have hnone : l[j]? = none := List.getElem?_eq_none (by omega)
      rw [List.getElem?_append, List.length_replicate, hnone]
      split
      · rw [List.getElem?_replicate, if_pos (by omega), if_neg (by omega)]
        rfl
      · rw [List.getElem?_singleton]
        by_cases hji : j = i
        · rw [if_pos (by omega), if_pos hji]
          rfl
        · rw [if_neg (by omega), if_neg hji]

/-- Storing a block at its slot changes what is read at that slot only. -/
theorem Dag.blockAt_store {d : Dag} {block : Block} {l : List (Option Block)}
    (hl : d.line block.header.slot.author = some l)
    (hh : d.mark block.header.slot.author < block.header.slot.height) {s : Slot}
    (hs : d.mark s.author < s.height) :
    (d.setLine block.header.slot.author (Dag.store l
      (block.header.slot.height - d.mark block.header.slot.author - 1).toNat block)).blockAt s =
      if s = block.header.slot then some block else d.blockAt s := by
  simp only [Dag.blockAt, Dag.line_setLine hl, Dag.mark_setLine]
  rcases hb : block.header.slot with ⟨a, h⟩
  rcases s with ⟨a', h'⟩
  rw [hb] at hl hh
  simp only at hl hh hs ⊢
  by_cases ha : a' = a
  · subst a'
    rw [if_pos rfl, hl, Option.bind_some, Option.bind_some, Dag.join_getElem?_store]
    by_cases hh' : h' = h
    · rw [if_pos (by rw [hh']), if_pos (by rw [hh'])]
    · rw [if_neg (by omega), if_neg (by simpa using hh')]
  · rw [if_neg ha, if_neg (by simp [ha])]

namespace Dag

/-- Cleaning a line does not change what it holds above the watermark. -/
theorem cleanLine_blockAt {d d' : Dag} {a wm : Int} (h : d.cleanLine a wm = some d') {s : Slot}
    (hlo : d.mark s.author < s.height) (hhi : d'.mark s.author < s.height) :
    d'.blockAt s = d.blockAt s := by
  obtain ⟨l, hl, hl', hin, hother, hmark, _⟩ := cleanLine_cases h
  by_cases ha : s.author = a
  · rw [hmark, if_pos ha] at hhi
    rw [ha] at hlo
    simp only [blockAt, ha, hl, hl', hmark, if_true, Option.bind_some, List.getElem?_drop]
    rcases hin with rfl | hin
    · simp
    · congr 2
      omega
  · simp only [blockAt, hother _ ha, hmark, if_neg ha]

/-- Cleaning does not touch what is above the watermarks. -/
theorem cleanLines_blockAt {wm : GoMap Int Int} {ids : List Int} {d d' : Dag}
    (h : cleanLines wm ids d = some d') {s : Slot} (hlo : d.mark s.author < s.height)
    (hhi : d'.mark s.author < s.height) : d'.blockAt s = d.blockAt s := by
  induction ids generalizing d with
  | nil =>
    cases h
    rfl
  | cons id ids ih =>
    have hlast := (cleanLines_cases h).1 s.author
    obtain ⟨d₁, h₁, h⟩ := Option.bind_eq_some_iff.mp h
    obtain ⟨_, _, _, _, _, hmark, _⟩ := cleanLine_cases h₁
    have hmid : d₁.mark s.author < s.height := by
      rw [hmark]
      split
      · rename_i ha
        rw [hlast, ha, if_pos (List.mem_cons_self ..)] at hhi
        exact hhi
      · exact hlo
    rw [ih h hmid, cleanLine_blockAt h₁ hlo hmid]

end Dag

namespace Pair

/-- A channel determines the slot it was made for. -/
theorem DagSide.slot_unique {s : Pair} (h : s.DagSide) {sl sl' : Slot} {ch : Nat}
    (hp : s.dag.pending.lookup sl = some ch) (hsl : s.pulls[ch]? = some sl') : sl = sl' := by
  have hsl' := h.pending sl ch hp
  rw [hsl] at hsl'
  exact (Option.some.inj hsl').symm

/-- A step that begins no reply and neither registers a channel nor touches the cache. -/
theorem Answered.frame {sent : List Nat} {s t : Pair} (h : s.Answered sent)
    (hpulls : s.pulls.length ≤ t.pulls.length)
    (hop : ∀ sl ch, OpMsg.blockPullReq sl ch ∈ t.opCh → OpMsg.blockPullReq sl ch ∈ s.opCh ∨
      s.pulls.length ≤ ch)
    (hpending : t.dag.pending = s.dag.pending) (hread : t.dag.blockAt = s.dag.blockAt) :
    t.Answered sent where
  nodup := h.nodup
  made ch hch := lt_of_lt_of_le (h.made ch hch) hpulls
  queued sl ch hq hch := by
    rcases hop sl ch hq with hq | hnew
    · exact h.queued sl ch hq hch
    · have hlt := h.made ch hch
      omega
  held sl ch hp hch := by
    rw [hpending] at hp
    rw [hread]
    exact h.held sl ch hp hch

/-- A new reply on a channel that was not used and is not queued. -/
theorem Answered.reply {sent : List Nat} {s t : Pair} (h : s.Answered sent) {ch : Nat} {sl : Slot}
    (hsl : s.pulls[ch]? = some sl) (hnew : ch ∉ sent) (hpulls : t.pulls = s.pulls)
    (hop : ∀ sl' ch', OpMsg.blockPullReq sl' ch' ∈ t.opCh →
      OpMsg.blockPullReq sl' ch' ∈ s.opCh ∧ ch' ≠ ch)
    (hheld : ∀ sl' ch', t.dag.pending.lookup sl' = some ch' → ch' ∈ sent ∨ ch' = ch →
      (t.dag.blockAt sl').isSome) :
    t.Answered (sent ++ [ch]) where
  nodup := by
    rw [List.nodup_append]
    refine ⟨h.nodup, List.nodup_singleton ch, ?_⟩
    intro ch' hch' ch'' hch'' heq
    rw [List.mem_singleton] at hch''
    subst ch'' ch'
    exact hnew hch'
  made ch' hch' := by
    rw [hpulls]
    rcases List.mem_append.mp hch' with hch' | hch'
    · exact h.made ch' hch'
    · rw [List.mem_singleton] at hch'
      subst ch'
      exact (List.getElem?_eq_some_iff.mp hsl).1
  queued sl' ch' hq hch' := by
    obtain ⟨hq, hne⟩ := hop sl' ch' hq
    rcases List.mem_append.mp hch' with hch' | hch'
    · exact h.queued sl' ch' hq hch'
    · exact hne (List.mem_singleton.mp hch')
  held sl' ch' hp hch' := by
    apply hheld sl' ch' hp
    rcases List.mem_append.mp hch' with hch' | hch'
    · exact Or.inl hch'
    · exact Or.inr (List.mem_singleton.mp hch')

/-- A queued pull is the last request of the commitor, and its channel is fresh. -/
theorem Shape.queued_pull {s : Pair} (h : s.Shape) {sl : Slot} {ch : Nat}
    (hq : OpMsg.blockPullReq sl ch ∈ s.opCh) :
    Fresh s.dag s.dagPc ch ∧ (∃ c, s.com = .waiting c sl ch) ∧
      ∀ rest, comOps s.opCh = .blockPullReq sl ch :: rest → rest = [] := by
  rw [mem_comOps rfl] at hq
  cases hcom : s.com with
  | waiting c head ch' =>
    simp only [Shape, hcom] at h
    obtain ⟨_, h | ⟨hf, h | ⟨_, _, _, h⟩⟩⟩ := h
    · rw [h] at hq
      cases hq
    · rw [h, List.mem_singleton] at hq
      cases hq
      refine ⟨hf, ⟨c, rfl⟩, fun rest hrest => ?_⟩
      rw [h] at hrest
      exact (List.cons.inj hrest).2.symm
    · simp only [h, List.mem_cons, List.not_mem_nil, or_false, reduceCtorEq, false_or] at hq
      cases hq
      refine ⟨hf, ⟨c, rfl⟩, fun rest hrest => ?_⟩
      rw [h] at hrest
      cases (List.cons.inj hrest).1
  | idle =>
    simp only [Shape, hcom] at h
    obtain h | ⟨_, _, h⟩ := h <;> simp [h] at hq
  | pulling c =>
    simp only [Shape, hcom] at h
    obtain h | ⟨_, _, _, h⟩ := h <;> simp [h] at hq
  | received | executing =>
    simp only [Shape, hcom] at h
    simp [h] at hq

/-- A push that is handled. -/
theorem Answered.push {sent : List Nat} {s : Pair} (h : s.Answered sent) (hd : s.DagSide)
    (hsh : s.Shape) {block : Block} {rest : List OpMsg} {d : Dag} {pc : DagPc}
    (hop : s.opCh = .core (.propose block) :: rest)
    (hm : s.dag.handleBlockPushReq block = some (d, pc))
    (hok : s.dag.pending.lookup block.header.slot = none ∨
      s.dag.blockAt block.header.slot = none) :
    ({ s with dag := d, dagPc := pc, opCh := rest } : Pair).Answered (sent ++ pc.channels) := by
  have hrest : ∀ sl ch, OpMsg.blockPullReq sl ch ∈ rest → OpMsg.blockPullReq sl ch ∈ s.opCh := by
    intro sl ch hq
    rw [hop]
    exact List.mem_cons_of_mem _ hq
  rcases Dag.handleBlockPushReq_cases hm with ⟨_, rfl, rfl⟩ | ⟨hh, l, hl, rfl, hpc⟩
  · rw [DagPc.channels_idle, List.append_nil]
    exact h.frame le_rfl (fun sl ch hq => Or.inl (hrest sl ch hq)) rfl rfl
  · have hread : ∀ sl ch, s.dag.pending.lookup sl = some ch → _ := fun sl ch hp =>
      Dag.blockAt_store hl hh (hd.cache.pending sl ch hp)
    rcases hpc with ⟨hnone, rfl⟩ | ⟨ch, hch, rfl⟩
    · rw [DagPc.channels_idle, List.append_nil]
      refine ⟨h.nodup, h.made, fun sl ch hq => h.queued sl ch (hrest sl ch hq), ?_⟩
      intro sl ch hp hch
      dsimp only
      rw [hread sl ch hp]
      split
      · rfl
      · exact h.held sl ch hp hch
    · have hnone := hok.resolve_left (by rw [hch]; simp)
      have hnew : ch ∉ sent := by
        intro hin
        have hsome := h.held _ ch hch hin
        rw [hnone] at hsome
        cases hsome
      rw [DagPc.channels_reply]
      apply h.reply (hd.pending _ ch hch) hnew
      · rfl
      · intro sl' ch' hq
        refine ⟨hrest sl' ch' hq, ?_⟩
        rintro rfl
        exact (hsh.queued_pull (hrest sl' ch' hq)).1.1 _ hch
      · intro sl ch' hp hch'
        dsimp only
        rw [hread sl ch' hp]
        split
        · rfl
        · rename_i hne
          rcases hch' with hin | rfl
          · exact h.held sl ch' hp hin
          · exact absurd (hd.slot_unique hp (hd.pending _ _ hch)) hne

/-- A handled request. -/
theorem Answered.handle {sent : List Nat} {s : Pair} (h : s.Answered sent) (hd : s.DagSide)
    (hsh : s.Shape) {order : List Int} {m : OpMsg} {rest : List OpMsg} {d : Dag} {pc : DagPc}
    (hop : s.opCh = m :: rest) (hm : s.dag.handle order m = some (d, pc))
    (hok : s.freshPush (.dag order) = true) :
    ({ s with dag := d, dagPc := pc, opCh := rest } : Pair).Answered (sent ++ pc.channels) := by
  have hrest : ∀ sl ch, OpMsg.blockPullReq sl ch ∈ rest → OpMsg.blockPullReq sl ch ∈ s.opCh := by
    intro sl ch hq
    rw [hop]
    exact List.mem_cons_of_mem m hq
  cases m with
  | core req =>
    cases req with
    | propose block =>
      apply h.push hd hsh hop hm
      simpa [freshPush, hop] using hok
    | refReq round =>
      obtain ⟨rfl, ref, rfl⟩ := Dag.handleRefReq_dag hm
      rw [DagPc.channels_refResp, List.append_nil]
      exact h.frame le_rfl (fun sl ch hq => Or.inl (hrest sl ch hq)) rfl rfl
    | commitReq req =>
      obtain ⟨p, rfl, hpc⟩ := Dag.handleCommitReq_cases hm
      have hnil : pc.channels = [] := by
        rcases hpc with ⟨_, _, rfl⟩ | ⟨_, _, _, ⟨_, _, rfl⟩ | ⟨_, _, _, rfl⟩⟩ <;> rfl
      rw [hnil, List.append_nil]
      exact h.frame le_rfl (fun sl ch hq => Or.inl (hrest sl ch hq)) rfl rfl
  | blockPullReq sl ch =>
    have hin : OpMsg.blockPullReq sl ch ∈ s.opCh := by
      rw [hop]
      exact List.mem_cons_self ..
    obtain ⟨hfresh, _, hlast⟩ := hsh.queued_pull hin
    have hno : ∀ sl' ch', OpMsg.blockPullReq sl' ch' ∉ rest := by
      intro sl' ch' hq
      have hnil := hlast (comOps rest) (by rw [hop, comOps_pull])
      rw [mem_comOps rfl, hnil] at hq
      cases hq
    have hreply : ∀ b, ({ s with dagPc := .reply ch b, opCh := rest } : Pair).Answered
        (sent ++ [ch]) := by
      intro b
      apply h.reply (hd.queued sl ch hin) (h.queued sl ch hin)
      · rfl
      · intro sl' ch' hq
        exact absurd hq (hno sl' ch')
      · rintro sl' ch' hp (hin | rfl)
        · exact h.held sl' ch' hp hin
        · exact absurd hp (hfresh.1 sl')
    rcases Dag.handleBlockPullReq_cases hm with
      ⟨_, rfl, rfl⟩ | ⟨hh, l, hl, ⟨b, hb, rfl, rfl⟩ | ⟨_, rfl, rfl⟩⟩
    · exact hreply none
    · exact hreply (some b)
    · rw [DagPc.channels_idle, List.append_nil]
      refine ⟨h.nodup, h.made, fun sl' ch' hq => absurd hq (hno sl' ch'), ?_⟩
      intro sl' ch' hp hch'
      dsimp only at hp
      rw [GoMap.lookup_insert_ite] at hp
      split at hp
      · cases hp
        exact absurd hch' (h.queued sl ch hin)
      · exact h.held sl' ch' hp hch'
  | gcReq wm r =>
    obtain ⟨rfl, p, d₁, _, _, rfl⟩ := Dag.handleCleanReq_cases hm
    rw [DagPc.channels_idle, List.append_nil]
    refine ⟨h.nodup, h.made, fun sl ch hq => h.queued sl ch (hrest sl ch hq), ?_⟩
    simp

/-- Every step keeps answered pulls from being answered again. -/
theorem Answered.step {sent : List Nat} {s t : Pair} {a : Act} (h : s.Answered sent)
    (hd : s.DagSide) (hsh : s.Shape) (hok : s.freshPush a = true) (hs : s.Step a t) :
    t.Answered (sent ++ s.begins a t) := by
  have hsame : ∀ {ops : List OpMsg}, ops = s.opCh → ∀ sl ch, OpMsg.blockPullReq sl ch ∈ ops →
      OpMsg.blockPullReq sl ch ∈ s.opCh ∨ s.pulls.length ≤ ch := by
    rintro _ rfl sl ch hq
    exact Or.inl hq
  cases hs with
  | dag hpc hop hord hm => exact h.handle hd hsh hop hm hok
  | crash hpc hop hord hm =>
    rw [begins, hpc, DagPc.channels_idle, List.append_nil]
    exact h.frame le_rfl (hsame rfl) rfl rfl
  | send req | gc hcom =>
    simp only [begins, List.append_nil]
    refine h.frame le_rfl (fun sl ch hq => Or.inl ?_) rfl rfl
    simpa using hq
  | pull hcom hq hhead =>
    simp only [begins, List.append_nil]
    refine h.frame (by simp) (fun sl ch hmem => ?_) rfl rfl
    simp only [List.mem_append, List.mem_singleton, OpMsg.blockPullReq.injEq] at hmem
    rcases hmem with hmem | ⟨_, rfl⟩
    · exact Or.inl hmem
    · exact Or.inr le_rfl
  | submit _ | reply _ _ | refResp _ | take _ _ | skip _ _ _ | process _ | nothing _ _ _
  | finish _ _ _ _ _ | exec _ =>
    simp only [begins, List.append_nil]
    exact h.frame le_rfl (hsame rfl) rfl rfl

/-! ## No later than the first push -/

/-- The pull is registered, and nothing but its answer can move the commitor. -/
structure Awaiting (sl : Slot) (ch : Nat) (s : Pair) : Prop where
  registered : s.dag.pending.lookup sl = some ch
  waiting : ∃ c, s.com = .waiting c sl ch
  alone : comOps s.opCh = []
  unanswered : ∀ b, s.dagPc ≠ .reply ch b
  line : (s.dag.line sl.author).isSome

/-- A pull that the dag handles is answered or registered. -/
theorem Shape.takes_pull {s t : Pair} (hsh : s.Shape) {a : Act} {sl : Slot} {ch : Nat}
    (ha : s.Takes a (.blockPullReq sl ch)) (hs : s.Step a t) :
    t.crashed = true ∨ ch ∈ s.begins a t ∨ t.Awaiting sl ch := by
  obtain ⟨⟨order, rfl⟩, hpc, rest, hop⟩ := ha
  obtain ⟨_, ⟨c, hcom⟩, hlast⟩ := hsh.queued_pull (by rw [hop]; exact List.mem_cons_self ..)
  cases hs with
  | crash _ _ _ _ => exact Or.inl rfl
  | dag _ hop' _ hm =>
    rw [hop] at hop'
    cases hop'
    rcases Dag.handleBlockPullReq_cases hm with
      ⟨_, rfl, rfl⟩ | ⟨_, l, hl, ⟨b, _, rfl, rfl⟩ | ⟨_, rfl, rfl⟩⟩
    · exact Or.inr (Or.inl (List.mem_singleton.mpr rfl))
    · exact Or.inr (Or.inl (List.mem_singleton.mpr rfl))
    · refine Or.inr (Or.inr ⟨AList.lookup_insert _, ⟨c, hcom⟩, ?_, by simp, ?_⟩)
      · exact hlast (comOps rest) (by rw [hop, comOps_pull])
      · exact Option.isSome_iff_exists.mpr ⟨l, hl⟩

/-- A registered pull stays registered until it is answered. -/
theorem Awaiting.step {sl : Slot} {ch : Nat} {s t : Pair} {a : Act} (h : s.Awaiting sl ch)
    (hs : s.Step a t) : t.Awaiting sl ch ∨ ch ∈ s.begins a t := by
  obtain ⟨c, hwait⟩ := h.waiting
  cases hs with
  | send req =>
    left
    refine ⟨h.registered, h.waiting, ?_, h.unanswered, h.line⟩
    rw [comOps_append, h.alone]
    rfl
  | crash => exact Or.inl ⟨h.registered, h.waiting, h.alone, h.unanswered, h.line⟩
  | @dag order m rest d pc hpc hop hord hm =>
    have halone := h.alone
    rw [hop] at halone
    cases m with
    | core req =>
      rw [comOps_core] at halone
      cases req with
      | propose block =>
        rcases Dag.handleBlockPushReq_cases hm with ⟨_, rfl, rfl⟩ | ⟨hh, l, hl, rfl, hpc'⟩
        · exact Or.inl ⟨h.registered, h.waiting, halone, by simp, h.line⟩
        · have hline : ((s.dag.setLine block.header.slot.author (Dag.store l
              (block.header.slot.height - s.dag.mark block.header.slot.author - 1).toNat
                block)).line sl.author).isSome := by
            rw [Dag.line_setLine hl]
            split
            · rfl
            · exact h.line
          rcases hpc' with ⟨hnone, rfl⟩ | ⟨ch', hch', rfl⟩
          · exact Or.inl ⟨h.registered, h.waiting, halone, by simp, hline⟩
          · by_cases heq : ch' = ch
            · subst ch'
              exact Or.inr (List.mem_singleton.mpr rfl)
            · refine Or.inl ⟨h.registered, h.waiting, halone, ?_, hline⟩
              intro b hb
              cases hb
              exact heq rfl
      | refReq round =>
        obtain ⟨rfl, ref, rfl⟩ := Dag.handleRefReq_dag hm
        exact Or.inl ⟨h.registered, h.waiting, halone, by simp, h.line⟩
      | commitReq req =>
        obtain ⟨p, rfl, hpc'⟩ := Dag.handleCommitReq_cases hm
        refine Or.inl ⟨h.registered, h.waiting, halone, ?_, h.line⟩
        intro b hb
        rcases hpc' with ⟨_, _, rfl⟩ | ⟨_, _, _, ⟨_, _, rfl⟩ | ⟨_, _, _, rfl⟩⟩ <;> cases hb
    | blockPullReq => cases halone
    | gcReq => cases halone
  | submit _ | refResp _ => exact Or.inl ⟨h.registered, h.waiting, h.alone, by simp, h.line⟩
  | reply hpc hcom =>
    rw [hwait] at hcom
    cases hcom
    exact absurd hpc (h.unanswered _)
  | take hcom | skip hcom | pull hcom | process hcom | nothing hcom | finish hcom | exec hcom
  | gc hcom =>
    rw [hwait] at hcom
    cases hcom

/-- The next push of the slot answers it. -/
theorem Awaiting.push {sl : Slot} {ch : Nat} {s t : Pair} {a : Act} {block : Block}
    (h : s.Awaiting sl ch) (hd : s.DagSide) (ha : s.Takes a (.core (.propose block)))
    (hb : block.header.slot = sl) (hs : s.Step a t) : ch ∈ s.begins a t := by
  obtain ⟨⟨order, rfl⟩, _, rest, hop⟩ := ha
  subst sl
  have hlt := hd.cache.pending _ ch h.registered
  obtain ⟨l, hl⟩ := Option.isSome_iff_exists.mp h.line
  cases hs with
  | crash _ hop' _ hm =>
    rw [hop] at hop'
    cases hop'
    have hpos : ¬ block.header.slot.height - s.dag.mark block.header.slot.author - 1 < 0 := by
      omega
    simp [Dag.handle, Dag.handleBlockPushReq, hpos, hl, h.registered] at hm
  | dag _ hop' _ hm =>
    rw [hop] at hop'
    cases hop'
    rcases Dag.handleBlockPushReq_cases hm with ⟨hle, _, _⟩ | ⟨_, _, _, _, hpc⟩
    · omega
    · rcases hpc with ⟨hnone, _⟩ | ⟨ch', hch', rfl⟩
      · rw [h.registered] at hnone
        cases hnone
      · rw [h.registered] at hch'
        cases hch'
        exact List.mem_singleton.mpr rfl

/-- A handled pull is answered, or still registered, in every later state. -/
theorem answered_or_awaiting {sl : Slot} {ch : Nat} {s u v : Pair} {a : Act} {acts : List Act}
    (hsh : s.Shape) (ha : s.Takes a (.blockPullReq sl ch)) (hs : s.step a = some u)
    (hrun : Machine.run step u acts = some v) :
    v.crashed = true ∨ ch ∈ s.begins a u ++ replies u acts ∨ v.Awaiting sl ch := by
  have hfree : Machine.Along step (fun _ _ => True) u acts :=
    Machine.along_of_forall fun _ _ _ => trivial
  refine Machine.outputs_invariant (P := fun (sent : List Nat) (v : Pair) =>
    v.crashed = true ∨ ch ∈ s.begins a u ++ sent ∨ v.Awaiting sl ch) ?_ ?_ hfree hrun
  · rw [List.append_nil]
    exact hsh.takes_pull ha (step_cases hs).2
  · intro sent u' l t h _ hstep
    obtain ⟨hrunning, hst⟩ := step_cases hstep
    rw [← List.append_assoc, List.mem_append]
    rcases h with h | h | h
    · rw [hrunning] at h
      cases h
    · exact Or.inr (Or.inl (Or.inl h))
    · rcases h.step hst with h | h
      · exact Or.inr (Or.inr h)
      · exact Or.inr (Or.inl (Or.inr h))

/-- **Every pull is answered once.** In a run without repeated pushes of a slot that is
registered and already held, the dag sends at most once on each reply channel, and it has
sent on the channel of a pull when it has handled a later push of the requested slot. -/
theorem pulls_answered_once {i : Int} {c : Committee} {acts : List Act} {s : Pair}
    (h : Reaches i c acts s)
    (hok : Machine.Along step (fun u a => u.freshPush a = true) (init i c) acts) :
    (replies (init i c) acts).Nodup ∧
    ∀ before a between a' u v sl ch block, acts = before ++ a :: (between ++ [a']) →
      Reaches i c before u → u.Takes a (.blockPullReq sl ch) →
      Reaches i c (before ++ a :: between) v → v.Takes a' (.core (.propose block)) →
      block.header.slot = sl → ch ∈ replies (init i c) acts := by
  constructor
  · have hall : s.Inv i c ∧ s.Answered (replies (init i c) acts) := by
      refine Machine.outputs_invariant (P := fun (sent : List Nat) (u : Pair) =>
        u.Inv i c ∧ u.Answered sent) ⟨inv_init i c, answered_init i c⟩ ?_ hok h
      rintro sent u a t ⟨hinv, hans⟩ hfresh hs
      refine ⟨hinv.step hs, ?_⟩
      exact hans.step hinv.dagSide hinv.shape hfresh (step_cases hs).2
    exact hall.2.nodup
  · intro before a between a' u v sl ch block hacts hu htake hv hpush hb
    subst acts
    obtain ⟨u', hu', hv'⟩ := Machine.run_append.mp hv
    rw [hu] at hu'
    cases hu'
    obtain ⟨w, hw, hv'⟩ := Machine.run_cons.mp hv'
    have hsplit : before ++ a :: (between ++ [a']) = (before ++ a :: between) ++ [a'] := by simp
    rw [hsplit] at h ⊢
    obtain ⟨v', hv'', hlast⟩ := Machine.run_concat.mp h
    rw [hv] at hv''
    cases hv''
    have hsofar : replies (init i c) (before ++ a :: between) =
        replies (init i c) before ++ (u.begins a w ++ replies w between) := by
      rw [replies, Machine.outputs_append hu]
      simp only [Machine.outputs, hw]
      rfl
    rw [replies, Machine.outputs_concat hv hlast, List.mem_append]
    obtain ⟨hrunning, hst⟩ := step_cases hlast
    rcases answered_or_awaiting hu.inv.shape htake hw hv' with hc | hsent | hwait
    · rw [hrunning] at hc
      cases hc
    · left
      rw [← replies, hsofar]
      exact List.mem_append_right _ hsent
    · exact Or.inr (hwait.push hv.inv.dagSide hpush hb hst)

/-- The commit of `commitRun` up to its last answer. -/
def pushedOnce : List Act := commitRun.take 21

/-- Two pulls are answered, each once. -/
theorem pulls_answered_once_pushedOnce : ∃ s, Reaches 0 fourMembers pushedOnce s ∧
    replies (init 0 fourMembers) pushedOnce = [0, 1] ∧
    (replies (init 0 fourMembers) pushedOnce).Nodup := by
  obtain ⟨s, hs, hr⟩ : ∃ s ∈ Machine.run step (init 0 fourMembers) pushedOnce,
      replies (init 0 fourMembers) pushedOnce = [0, 1] := by decide +kernel
  exact ⟨s, hs, hr, (pulls_answered_once hs (by decide +kernel)).1⟩

/-- The block that answered the second pull is delivered again before the garbage
collection: the dag sends on the same channel, where nobody receives, and stays there. -/
theorem repeatedPush_replies_twice : ∃ s, Reaches 0 fourMembers (commitRun ++ [.dag []]) s ∧
    replies (init 0 fourMembers) (commitRun ++ [.dag []]) = [0, 1, 1] ∧
    s.dagPc.channels = [1] ∧ (s.step .reply).isNone ∧ (s.step (.dag [])).isNone := by
  have hrun : ∃ s ∈ Machine.run step (init 0 fourMembers) (commitRun ++ [.dag []]),
      replies (init 0 fourMembers) (commitRun ++ [.dag []]) = [0, 1, 1] ∧
      s.dagPc.channels = [1] ∧ (s.step .reply).isNone ∧ (s.step (.dag [])).isNone := by
    decide +kernel
  exact hrun

end Pair

end Loom
