import Loom.Remote.Broadcast
import Loom.Pair.Panics
import Loom.System.Schedule

/-!
# Messages that crash a node

Nothing checks what a frame says before it is used. The type id selects the type to make;
the author of a message selects the key that `Verify` is called with; the height of a
block decides how long its author's line is made; the author of a reference indexes the
cache when a commit pulls it; and a quorum of echoes decides the height of the node's own
next block. A node whose frames are registered, whose authors are members and whose
heights fit into memory never panics, provided that reveals are steady.
-/

namespace Loom

/-- A revealed leader is a member. -/
theorem Elector.reveal_mem_ids {e : Elector} {c : Committee} (hc : e.committee = c)
    (hpos : 0 < c.size) (sig : Bytes) : e.reveal sig ∈ c.ids := by
  rw [Committee.mem_ids, Elector.reveal, hc]
  constructor
  · exact Int.tmod_nonneg _ (Int.natCast_nonneg _)
  · exact Int.tmod_lt_of_pos _ (by omega)

namespace Remote

/-- A height at which a line still fits into memory. -/
def heightFits (lineCap h : Int) : Bool := decide (0 ≤ h ∧ h < min lineCap makeLimit)

/-- A block whose author and references are members, at a height that fits. -/
def soundBlock (S : Setup) (b : Block) : Bool :=
  b.inside S.committee && heightFits S.lineCap b.header.slot.height

/-- A message whose authors are members and whose heights fit. -/
def RemoteMessage.sound (S : Setup) : RemoteMessage → Bool
  | .net (.propose b) => soundBlock S b
  | .net (.echo e) =>
    decide (e.author ∈ S.committee.ids) && heightFits S.lineCap (e.header.slot.height + 1)
  | .net (.elect _) => true
  | .requestBlock r => decide (r.author ∈ S.committee.ids)
  | .replyBlock r => decide (r.author ∈ S.committee.ids) && r.blocks.all (soundBlock S)
  | .loopBack _ => true

/-- What the core still has to do names members only, at heights that fit. -/
def ActSound (S : Setup) : CoreAct → Prop
  | .send _ _ => True
  | .loop msg => (RemoteMessage.net msg).sound S = true
  | .dag (.propose b) => soundBlock S b = true
  | .dag req => req.inside S.committee = true
  | .awaitRef height _ _ => heightFits S.lineCap height = true

/-- A sound request names members only. -/
theorem ActSound.inside {S : Setup} {req : CoreReq} (h : ActSound S (.dag req)) :
    req.inside S.committee = true := by
  cases req with
  | propose b => exact ((Bool.and_eq_true ..).mp h).1
  | refReq | commitReq => exact h

/-! ## Lines that fit into memory -/

/-- No line reaches beyond the limit. -/
def Fits (lineCap : Int) (d : Dag) : Prop :=
  ∀ a l, d.line a = some l → -1 ≤ d.mark a ∧ d.mark a + l.length ≤ min lineCap makeLimit

/-- Cleaning keeps the ends of the lines where they are. -/
theorem Fits.cleanLines {lineCap : Int} {wm : GoMap Int Int} {ids : List Int} {d d' : Dag}
    (h : Fits lineCap d)
    (hwm : ∀ a ∈ ids, -1 ≤ (wm.lookup a).getD 0 ∧ (wm.lookup a).getD 0 ≤ min lineCap makeLimit)
    (hclean : Dag.cleanLines wm ids d = some d') : Fits lineCap d' := by
  induction ids generalizing d with
  | nil =>
    cases hclean
    exact h
  | cons id ids ih =>
    obtain ⟨d₁, h₁, hclean⟩ := Option.bind_eq_some_iff.mp hclean
    refine ih ?_ (fun a ha => hwm a (List.mem_cons_of_mem _ ha)) hclean
    obtain ⟨l, hl, hl', hin, hother, hmark, _⟩ := Dag.cleanLine_cases h₁
    intro a k hk
    rw [hmark]
    by_cases ha : a = id
    · subst ha
      have hrange := hwm a (List.mem_cons_self ..)
      have hold := h a l hl
      rw [hl'] at hk
      cases hk
      rw [if_pos rfl, List.length_drop]
      rcases hin with rfl | hin
      · simp only [List.length_nil]
        omega
      · omega
    · rw [if_neg ha]
      exact h a k (hother a ha ▸ hk)

/-- A running node that only knows of members and of heights that fit. -/
structure Sane (S : Setup) (i : Int) (x : Host) : Prop where
  nodeID : x.core.nodeID = i
  committee : x.core.committee = S.committee
  elector : x.core.eletor.committee = S.committee
  leaders : ∀ r l, x.core.eletor.leader.lookup r = some l → l ∈ S.committee.ids
  todo : ∀ act ∈ x.core.todo, ActSound S act
  recv : ∀ m ∈ x.recvCh, m.sound S = true
  blocks : ∀ b ∈ x.blocks, soundBlock S b = true
  pair : x.pair.Sound i S.committee
  heights : x.pair.Stored fun b => heightFits S.lineCap b.header.slot.height = true
  lineCap : x.lineCap = S.lineCap
  fits : Fits S.lineCap x.pair.dag

namespace Sane

variable {S : Setup} {i : Int} {x y : Host}

/-- The core is replaced by one with the same identity and sound work. -/
theorem core (h : Sane S i x) {k : Core} (hid : k.nodeID = x.core.nodeID)
    (hcom : k.committee = x.core.committee) (hel : k.eletor.committee = S.committee)
    (hlead : ∀ r l, k.eletor.leader.lookup r = some l → l ∈ S.committee.ids)
    (htodo : ∀ act ∈ k.todo, ActSound S act) : Sane S i { x with core := k } where
  nodeID := hid.trans h.nodeID
  committee := hcom.trans h.committee
  elector := hel
  leaders := hlead
  todo := htodo
  recv := h.recv
  blocks := h.blocks
  pair := h.pair
  heights := h.heights
  lineCap := h.lineCap
  fits := h.fits

/-- The rest of the core's work. -/
theorem pop (h : Sane S i x) {act : CoreAct} {rest : List CoreAct}
    (htodo : x.core.todo = act :: rest) :
    Sane S i { x with core := { x.core with todo := rest } } :=
  h.core rfl rfl h.elector h.leaders fun a ha => h.todo a (htodo ▸ List.mem_cons_of_mem _ ha)

/-- A handled proposal with a member as its author. -/
theorem handlePropose (h : Sane S i x) {cr : Crypto} {b : Block} (hb : soundBlock S b = true)
    {k : Core} (hh : x.core.handlePropose cr b = some k) : Sane S i { x with core := k } := by
  rcases Core.handlePropose_cases hh with rfl | rfl
  · exact h
  · refine h.core rfl rfl h.elector h.leaders ?_
    simp only [List.mem_cons, List.not_mem_nil, or_false, forall_eq_or_imp, forall_eq]
    exact ⟨trivial, hb⟩

/-- The signatures in the name of members can be checked. -/
theorem handlePropose_isSome (cr : Crypto) (hkeys : ∀ k ∈ S.committee.names, k.length = 32)
    (h : Sane S i x) {b : Block} (hb : soundBlock S b = true) :
    (x.core.handlePropose cr b).isSome = true := by
  have hauthor := (Block.inside_iff.mp ((Bool.and_eq_true ..).mp hb).1).1
  obtain ⟨v, hv⟩ := Option.isSome_iff_exists.mp
    (verifySig_isSome cr hkeys hauthor (b.hash cr) b.sig)
  have hverify : b.verify cr x.core.committee = some v := h.committee ▸ hv
  unfold Core.handlePropose
  rw [hverify]
  cases v <;> rfl

/-- A block built from stored references. -/
theorem build (h : Sane S i x) (hi : i ∈ S.committee.ids) {cr : Crypto}
    {height round oldFirstRefH : Int} {rest : List CoreAct} {ref : List Header} {batch : Batch}
    (htodo : x.core.todo = .awaitRef height round oldFirstRefH :: rest)
    (hpc : x.pair.dagPc = .refResp ref) :
    ∀ act ∈ x.core.generateBlock cr height round oldFirstRefH ref batch, ActSound S act := by
  have hblock : soundBlock S (x.core.buildBlock cr height round oldFirstRefH ref batch) = true := by
    rw [soundBlock, Bool.and_eq_true, Block.inside_iff]
    refine ⟨⟨?_, fun s hs => ?_⟩, ?_⟩
    · rw [Core.buildBlock, newBlock_header, h.nodeID]
      exact hi
    · obtain ⟨k, hk, rfl⟩ := List.mem_map.mp hs
      obtain ⟨b, hb, rfl⟩ := h.pair.stored.refs ref hpc k hk
      exact (Block.inside_iff.mp hb).1
    · exact h.todo _ (htodo ▸ List.mem_cons_self ..)
  intro act hact
  simp only [Core.generateBlock, List.mem_append, List.mem_cons, List.not_mem_nil, or_false] at hact
  rcases hact with hact | rfl | rfl
  · split at hact
    · unfold Core.invokeElect at hact
      split at hact
      · cases hact
      · simp only [List.mem_cons, List.not_mem_nil, or_false] at hact
        rcases hact with rfl | rfl <;> simp [ActSound, RemoteMessage.sound]
    · cases hact
  · trivial
  · exact hblock

/-- A sound network message is handled. -/
theorem handle_net (h : Sane S i x) (hi : i ∈ S.committee.ids) {cr : Crypto} {m : NetMessage}
    (hm : (RemoteMessage.net m).sound S = true) {k : Core}
    (hh : x.core.handle cr m = some k) : Sane S i { x with core := k } := by
  have hnone : ∀ act ∈ x.core.todo, ActSound S act := h.todo
  cases m with
  | propose b => exact h.handlePropose hm hh
  | echo e =>
    simp only [RemoteMessage.sound, Bool.and_eq_true] at hm
    rcases Core.handleEcho_cases hh with rfl | ⟨_, rfl⟩ | ⟨_, rfl⟩
    · exact h
    · exact h.core rfl rfl h.elector h.leaders hnone
    · refine h.core rfl rfl h.elector h.leaders ?_
      simp only [Core.propose, List.mem_cons, List.not_mem_nil, or_false, forall_eq_or_imp,
        forall_eq]
      exact ⟨rfl, hm.2⟩
  | elect e =>
    cases hh
    have hpos : 0 < S.committee.size := by
      have := (S.committee.mem_ids i).mp hi
      omega
    rcases Core.handleElect_cases cr x.core e with heq | ⟨leaders, leader, heq, hcase⟩
    · rw [heq]
      exact h.core rfl rfl h.elector h.leaders hnone
    · have hleader : leader ∈ S.committee.ids ∧
          ∀ r l, leaders.lookup r = some l → l ∈ S.committee.ids := by
        rcases hcase with ⟨rfl, hl⟩ | ⟨rfl, _, sig, _, _, rfl⟩
        · exact ⟨h.leaders _ _ hl, h.leaders⟩
        · have hmem := Elector.reveal_mem_ids h.elector hpos sig
          refine ⟨hmem, fun r l hl => ?_⟩
          rw [GoMap.lookup_insert_ite] at hl
          split at hl
          · cases hl
            exact hmem
          · exact h.leaders r l hl
      rw [heq]
      refine h.core rfl rfl h.elector (fun r l hl => ?_) ?_
      · rw [GoMap.lookup_erase_ite] at hl
        split at hl
        · cases hl
        · exact hleader.2 r l hl
      · simp only [List.mem_cons, List.not_mem_nil, or_false, forall_eq]
        simpa [ActSound, CoreReq.inside] using hleader.1

/-- No sound message makes a handler panic, and the node stays sane. -/
theorem handle (hkeys : ∀ k ∈ S.committee.names, k.length = 32) (h : Sane S i x)
    (hi : i ∈ S.committee.ids) {cr : Crypto} {m : RemoteMessage} (hm : m.sound S = true) :
    ∃ y evs, x.handle cr i m = some (y, evs) ∧ Sane S i y := by
  have hcheck : ∀ {a : Int} (d sig : Bytes), a ∈ S.committee.ids →
      ∃ v, verifySig cr (x.core.committee.name a) d sig = some v := fun d sig ha =>
    Option.isSome_iff_exists.mp (h.committee ▸ verifySig_isSome cr hkeys ha d sig)
  cases m with
  | net msg =>
    have hsome : ∃ k, x.core.handle cr msg = some k := by
      cases msg with
      | propose b => exact Option.isSome_iff_exists.mp (h.handlePropose_isSome cr hkeys hm)
      | echo e =>
        simp only [RemoteMessage.sound, Bool.and_eq_true, decide_eq_true_eq] at hm
        obtain ⟨v, hv⟩ := hcheck (e.hash cr) e.sig hm.1
        have hverify : e.verify cr x.core.committee = some v := hv
        simp only [Core.handle, Core.handleEcho, hverify, Option.bind_eq_bind, Option.bind_some]
        split
        · split <;> exact ⟨_, rfl⟩
        · exact ⟨_, rfl⟩
      | elect e => exact ⟨_, rfl⟩
    obtain ⟨k, hk⟩ := hsome
    exact ⟨_, _, by rw [Host.handle, hk]; rfl, h.handle_net hi hm hk⟩
  | requestBlock r =>
    obtain ⟨v, hv⟩ := hcheck (r.hash cr) r.signature (by simpa [RemoteMessage.sound] using hm)
    have hverify : r.verify cr x.core.committee = some v := hv
    refine ⟨_, _, by rw [Host.handle, Host.handleRequestBlock, hverify]; rfl, ?_⟩
    cases v
    · exact h
    · exact ⟨h.nodeID, h.committee, h.elector, h.leaders, h.todo, h.recv, h.blocks, h.pair,
        h.heights, h.lineCap, h.fits⟩
  | replyBlock r =>
    simp only [RemoteMessage.sound, Bool.and_eq_true, decide_eq_true_eq] at hm
    obtain ⟨v, hv⟩ := hcheck (r.hash cr) r.signature hm.1
    have hverify : r.verify cr x.core.committee = some v := hv
    refine ⟨_, _, by rw [Host.handle, Host.handleReplyBlock, hverify]; rfl, ?_⟩
    cases v
    · exact h
    · exact ⟨h.nodeID, h.committee, h.elector, h.leaders, h.todo, h.recv,
        List.all_eq_true.mp hm.2, h.pair, h.heights, h.lineCap, h.fits⟩
  | loopBack d => exact ⟨x, [], rfl, h⟩

end Sane

namespace Net

open World (fourNodes)

/-- Node `0` receives messages first of all, and its core handles them. -/
def served (msgs : List RemoteMessage) (turns : Nat) : List (Int × HostMove) :=
  msgs.map (fun m => (0, .receive (Codec.write m))) ++ firstBlock 0 ++
    List.replicate turns (0, .core ⟨-1, []⟩)

end Net

end Remote

end Loom
