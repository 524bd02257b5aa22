import Loom.System.Integrity
import Loom.Pair.Progress

/-!
# Every proposal arrives once

A block is sent once to every other member and looped back once to its author, and a node
passes what it receives once to its dag. At any time at most one copy of a block is therefore
on its way to a node, and none once the dag of the node holds it. A push never finds its slot
filled, so the dag never answers a pull that was answered before.
-/

namespace Loom

/-- The push of the block of a slot. -/
def OpMsg.isPush (sl : Slot) : OpMsg → Bool
  | .core (.propose b) => decide (b.header.slot = sl)
  | _ => false

/-- The copies of a block that a step adds to `opCh`. -/
def Act.brought (sl : Slot) : Act → Nat
  | .send req => if OpMsg.isPush sl (.core req) then 1 else 0
  | _ => 0

namespace Pair

/-- The cache holds a block for a slot above the watermark. -/
def present (s : Pair) (sl : Slot) : Bool :=
  decide (s.dag.mark sl.author < sl.height) && (s.dag.blockAt sl).isSome

/-- The copies of a block that a pair holds or is about to handle. -/
def landed (s : Pair) (sl : Slot) : Nat :=
  s.opCh.countP (OpMsg.isPush sl) + if s.present sl then 1 else 0

private theorem landed_init (i : Int) (c : Committee) (sl : Slot) : (init i c).landed sl = 0 := by
  have hnone : (newDag i c).blockAt sl = none := by
    rw [Dag.blockAt]
    cases hl : (newDag i c).line sl.author with
    | none => rfl
    | some l =>
      cases line_newDag hl
      rfl
  simp [landed, present, hnone, init]

/-- Handling a request other than a push puts no block into the cache. -/
theorem present_handle {i : Int} {c : Committee} {s : Pair} (h : s.Inv i c) {order : List Int}
    {m : OpMsg} {rest : List OpMsg} {d : Dag} {pc : DagPc} (hpc : s.dagPc = .idle)
    (hop : s.opCh = m :: rest) (hord : m.orderOk order = true)
    (hm : s.dag.handle order m = some (d, pc)) {sl : Slot} (habove : d.mark sl.author < sl.height)
    (hsome : (d.blockAt sl).isSome = true) :
    s.present sl = true ∨ m.isPush sl = true := by
  have hsame : d.mark = s.dag.mark → d.blockAt = s.dag.blockAt → s.present sl = true := by
    intro hmark hread
    rw [present, ← hmark, ← hread, hsome, decide_eq_true habove]
    rfl
  cases m with
  | core req =>
    cases req with
    | propose block =>
      rcases Dag.handleBlockPushReq_cases hm with ⟨_, rfl, _⟩ | ⟨hh, l, hl, rfl, _⟩
      · exact Or.inl (hsame rfl rfl)
      · rw [Dag.mark_setLine] at habove
        rw [Dag.blockAt_store hl hh habove] at hsome
        split at hsome
        · rename_i heq
          exact Or.inr (by simp [OpMsg.isPush, heq])
        · left
          rw [present, hsome, decide_eq_true habove]
          rfl
    | refReq round =>
      obtain ⟨rfl, _⟩ := Dag.handleRefReq_dag hm
      exact Or.inl (hsame rfl rfl)
    | commitReq req =>
      obtain ⟨p, rfl, _⟩ := Dag.handleCommitReq_cases hm
      exact Or.inl (hsame rfl rfl)
  | blockPullReq slot ch =>
    rcases Dag.handleBlockPullReq_cases hm with
      ⟨_, rfl, _⟩ | ⟨_, _, _, ⟨_, _, rfl, _⟩ | ⟨_, rfl, _⟩⟩ <;> exact Or.inl (hsame rfl rfl)
  | gcReq wm r =>
    left
    have hmono := mark_mono h.bounds (.dag hpc hop hord hm) sl.author
    have hlo : s.dag.mark sl.author < sl.height := hmono.trans_lt habove
    obtain ⟨_, p, d₁, _, hclean, rfl⟩ := Dag.handleCleanReq_cases hm
    rw [present, decide_eq_true hlo, ← Dag.cleanLines_blockAt hclean hlo habove]
    exact hsome

/-- A step adds a copy only if the core sends one. -/
theorem landed_step {i : Int} {c : Committee} {s t : Pair} {a : Act} (h : s.Inv i c)
    (hs : s.Step a t) (sl : Slot) : t.landed sl ≤ s.landed sl + a.brought sl := by
  cases hs with
  | send req =>
    have hsame : ({ s with opCh := s.opCh ++ [.core req] } : Pair).present sl = s.present sl := rfl
    simp only [landed, hsame, List.countP_append, List.countP_singleton, Act.brought]
    omega
  | @dag order m rest d pc hpc hop hord hm =>
    simp only [landed, hop, List.countP_cons]
    by_cases hp : ({ s with dag := d, dagPc := pc, opCh := rest } : Pair).present sl = true
    · have hnew := hp
      simp only [present, Bool.and_eq_true, decide_eq_true_eq] at hnew
      rcases present_handle h hpc hop hord hm hnew.1 hnew.2 with hold | hpush
      · rw [if_pos hp, if_pos hold]
        omega
      · rw [if_pos hp, if_pos hpush]
        omega
    · rw [if_neg hp]
      omega
  | pull | gc =>
    simp [landed, present, OpMsg.isPush]
  | crash | submit | reply | refResp | take | skip | process | nothing | finish | exec =>
    exact le_rfl

end Pair

namespace World

/-- The proposal of a slot. -/
def isBlock (sl : Slot) : NetMessage → Bool
  | .propose b => decide (b.header.slot = sl)
  | _ => false

/-- The operation that brings the block of a slot to node `i`: the broadcast, or for the
author itself the loop back. -/
def brings (i : Int) (sl : Slot) : CoreAct → Bool
  | .send _ m => decide (i ≠ sl.author) && isBlock sl m
  | .loop m => decide (i = sl.author) && isBlock sl m
  | _ => false

/-- The operation that passes the block of a slot to the dag. -/
def hands (sl : Slot) : CoreAct → Bool
  | .dag req => OpMsg.isPush sl (.core req)
  | _ => false

/-- The copies for node `i` that a node still has to send. -/
def outbox (x : Node) (i : Int) (sl : Slot) : Nat := x.core.todo.countP (brings i sl)

/-- The copies on the links to node `i`. -/
def inFlight (net : List Packet) (i : Int) (sl : Slot) : Nat :=
  net.countP fun p => decide (p.dst = i) && isBlock sl p.msg

/-- The copies that have arrived at a node. -/
def inbox (x : Node) (sl : Slot) : Nat :=
  x.recvCh.countP (isBlock sl) + x.core.todo.countP (hands sl) + x.pair.landed sl

/-- The copies of a block that have arrived at node `i` or are on their way to it. -/
def arrivals (w : World) (i : Int) (sl : Slot) : Nat :=
  outbox (w.nodes sl.author) i sl + inFlight w.net i sl + inbox (w.nodes i) sl

/-- Proposals are broadcast by their authors. -/
def OwnBlock (k : Int) : CoreAct → Prop
  | .send dst (.propose b) => dst = NONE ∧ b.header.slot.author = k
  | .loop (.propose b) => b.header.slot.author = k
  | _ => True

/-- The blocks that a node built for a slot. -/
def built (tr : List Event) (sl : Slot) : Nat :=
  (chain sl.author tr).countP fun b => decide (b.header.slot = sl)

/-- No more copies of a block are on their way to a node than were built. -/
structure Single (w : World) : Prop where
  own : ∀ k, ∀ act ∈ (w.nodes k).core.todo, OwnBlock k act
  arrivals : ∀ i sl, arrivals w i sl ≤ built w.trace sl

private theorem single_init (S : Setup) : Single (init S) where
  own k := by simp [init, Node.init, Core.init, Core.propose, OwnBlock]
  arrivals i sl := by
    simp [World.arrivals, outbox, inFlight, inbox, init, Node.init, Core.init, Core.propose,
      brings, hands, OpMsg.isPush, Pair.landed_init]

/-- The share of a node in the copies for node `i`. -/
def share (s : Int) (x : Node) (i : Int) (sl : Slot) : Nat :=
  (if sl.author = s then outbox x i sl else 0) + if i = s then inbox x sl else 0

/-- A step that replaces one node. -/
theorem Single.setNode {w w' : World} (h : Single w) {s : Int} {x : Node}
    (hnodes : ∀ j, w'.nodes j = if j = s then x else w.nodes j)
    (hown : ∀ act ∈ x.core.todo, OwnBlock s act)
    (hshare : ∀ i sl, inFlight w'.net i sl + share s x i sl + built w.trace sl ≤
      inFlight w.net i sl + share s (w.nodes s) i sl + built w'.trace sl) : Single w' where
  own k := by
    rw [hnodes]
    split
    · subst k
      exact hown
    · exact h.own k
  arrivals i sl := by
    have hold := h.arrivals i sl
    have hnew := hshare i sl
    unfold World.arrivals at hold ⊢
    unfold share at hnew
    rw [hnodes, hnodes]
    by_cases ha : sl.author = s
    · rw [ha] at hold
      by_cases hi : i = s
      · rw [hi] at hold
        simp only [ha, hi, if_true] at hnew ⊢
        omega
      · simp only [ha, hi, if_true, if_false] at hnew ⊢
        omega
    · by_cases hi : i = s
      · rw [hi] at hold
        simp only [ha, hi, if_true, if_false] at hnew ⊢
        omega
      · simp only [ha, hi, if_false] at hnew ⊢
        omega

/-- A step in which nothing is sent, delivered or built. -/
theorem Single.frame {w w' : World} (h : Single w) {s : Int} {x : Node}
    (hnodes : ∀ j, w'.nodes j = if j = s then x else w.nodes j) (hnet : w'.net = w.net)
    (hchain : ∀ a, chain a w'.trace = chain a w.trace)
    (hown : ∀ act ∈ x.core.todo, OwnBlock s act)
    (hout : ∀ i sl, outbox x i sl ≤ outbox (w.nodes s) i sl)
    (hin : ∀ sl, inbox x sl ≤ inbox (w.nodes s) sl) : Single w' := by
  refine h.setNode hnodes hown fun i sl => ?_
  have h₁ := hout i sl
  have h₂ := hin sl
  unfold share built
  rw [hnet, hchain]
  split <;> split <;> omega

/-! ## The moves -/

private theorem inFlight_eraseIdx {net : List Packet} {k : Nat} {p : Packet} (hp : net[k]? = some p)
    (i : Int) (sl : Slot) : inFlight net i sl = inFlight (net.eraseIdx k) i sl +
      if i = p.dst ∧ isBlock sl p.msg = true then 1 else 0 := by
  obtain ⟨hlt, hget⟩ := List.getElem?_eq_some_iff.mp hp
  have hperm := (List.getElem_cons_eraseIdx_perm hlt).countP_eq
    fun q => decide (q.dst = i) && isBlock sl q.msg
  rw [hget, List.countP_cons] at hperm
  unfold inFlight
  rw [← hperm]
  simp only [Bool.and_eq_true, decide_eq_true_eq, eq_comm (a := p.dst)]

/-- A proposal goes once to every other member and not to its author. -/
theorem inFlight_packets {S : Setup} {s dst : Int} {msg : NetMessage}
    (hown : OwnBlock s (.send dst msg)) (i : Int) (sl : Slot) :
    inFlight (packets S s dst msg) i sl ≤ if i ≠ s ∧ isBlock sl msg = true then 1 else 0 := by
  by_cases hb : isBlock sl msg = true
  · have hdst : dst = NONE := by
      cases msg with
      | propose b => exact hown.1
      | echo | elect => cases hb
    have hcount : inFlight (packets S s dst msg) i sl = (S.committee.broadCast s).count i := by
      rw [inFlight, packets, if_pos hdst, List.countP_map, List.count]
      congr 1
      funext d
      simp only [Function.comp_apply, hb, Bool.and_true]
      rfl
    rw [hcount]
    by_cases hi : i = s
    · rw [if_neg (by simp [hi]), Nat.le_zero, List.count_eq_zero, hi]
      simp [Committee.broadCast]
    · rw [if_pos ⟨hi, hb⟩]
      exact List.nodup_iff_count_le_one.mp (S.committee.nodup_ids.filter _) i
  · rw [if_neg (by simp [hb]), Nat.le_zero, inFlight, List.countP_eq_zero]
    intro p hp
    simp [packets_msg hp, hb]

/-- A node has only blocks of its own to send. -/
theorem OwnBlock.author {k : Int} {sl : Slot} {act : CoreAct} {msg : NetMessage}
    (h : OwnBlock k act) (hact : act = .loop msg ∨ ∃ dst, act = .send dst msg)
    (hb : isBlock sl msg = true) : sl.author = k := by
  cases msg with
  | propose b =>
    simp only [isBlock, decide_eq_true_eq] at hb
    rw [← hb]
    rcases hact with rfl | ⟨dst, rfl⟩
    · exact h
    · exact h.2
  | echo | elect => cases hb

/-- A delivery moves a copy. -/
theorem Single.deliver {w : World} (h : Single w) {k : Nat} {p : Packet}
    (hp : w.net[k]? = some p) : Single { w.setNode p.dst { w.nodes p.dst with
      recvCh := (w.nodes p.dst).recvCh ++ [p.msg] } with net := w.net.eraseIdx k } := by
  refine h.setNode (setNode_nodes _ _ · _) (h.own p.dst) fun i sl => ?_
  have herase := inFlight_eraseIdx hp i sl
  simp only [share, outbox, inbox, setNode_trace, List.countP_append, List.countP_singleton]
  by_cases hi : i = p.dst
  · simp only [hi, true_and, if_true] at herase ⊢
    omega
  · simp only [hi, false_and, if_false] at herase ⊢
    omega

/-- A send makes one copy for every other member. -/
theorem Single.send {S : Setup} {w : World} (h : Single w) {s dst : Int} {msg : NetMessage}
    {rest : List CoreAct} (htodo : (w.nodes s).core.todo = .send dst msg :: rest) :
    Single { w.setNode s { w.nodes s with core := { (w.nodes s).core with todo := rest } } with
      net := w.net ++ packets S s dst msg
      trace := w.trace ++ sendEvents s msg } := by
  have hown := h.own s
  rw [htodo] at hown
  have hhead := hown _ (List.mem_cons_self ..)
  refine h.setNode (setNode_nodes _ _ · _) (fun act ha => hown act (List.mem_cons_of_mem _ ha)) ?_
  intro i sl
  have hchain : chain sl.author (w.trace ++ sendEvents s msg) = chain sl.author w.trace :=
    chain_append_of_none fun b hb => by cases msg <;> simp [sendEvents] at hb
  have hnet : inFlight (w.net ++ packets S s dst msg) i sl =
      inFlight w.net i sl + inFlight (packets S s dst msg) i sl := List.countP_append
  have hpk := inFlight_packets (S := S) hhead i sl
  simp only [share, outbox, inbox, built, hchain, hnet, htodo, List.countP_cons, brings, hands]
  by_cases hb : isBlock sl msg = true
  · have ha := hhead.author (Or.inr ⟨_, rfl⟩) hb
    by_cases hi : i = s <;> simp [ha, hi, hb] at hpk ⊢ <;> omega
  · simp [hb] at hpk ⊢
    omega

/-- A node's own copy goes through its own channel. -/
theorem Single.loop {w : World} (h : Single w) {s : Int} {msg : NetMessage}
    {rest : List CoreAct} (htodo : (w.nodes s).core.todo = .loop msg :: rest) :
    Single (w.setNode s { w.nodes s with
      core := { (w.nodes s).core with todo := rest }
      recvCh := (w.nodes s).recvCh ++ [msg] }) := by
  have hown := h.own s
  rw [htodo] at hown
  have hhead := hown _ (List.mem_cons_self ..)
  refine h.setNode (setNode_nodes _ _ · _) (fun act ha => hown act (List.mem_cons_of_mem _ ha)) ?_
  intro i sl
  simp only [share, outbox, inbox, setNode_trace, setNode_net, htodo, List.countP_cons,
    List.countP_append, List.countP_nil, brings, hands]
  by_cases hb : isBlock sl msg = true
  · have ha := hhead.author (Or.inl rfl) hb
    by_cases hi : i = s
    · simp [ha, hi, hb]
      omega
    · simp [ha, hi]
  · simp [hb]

/-- A new block is sent and looped back, after the coin shares if there are any. -/
theorem generateBlock_cases (cr : Crypto) (c : Core) (height round oldFirstRefH : Int)
    (ref : List Header) (batch : Batch) : ∃ shares : List CoreAct,
      (∀ act ∈ shares, ∃ e, act = .send NONE (.elect e) ∨ act = .loop (.elect e)) ∧
      c.generateBlock cr height round oldFirstRefH ref batch = shares ++
        [.send NONE (.propose (c.buildBlock cr height round oldFirstRefH ref batch)),
          .loop (.propose (c.buildBlock cr height round oldFirstRefH ref batch))] := by
  refine ⟨_, ?_, rfl⟩
  intro act hact
  split at hact
  · unfold Core.invokeElect at hact
    split at hact
    · cases hact
    · rename_i e _
      simp only [List.mem_cons, List.not_mem_nil, or_false] at hact
      exact ⟨e, hact⟩
  · cases hact

/-- A built block leaves one copy for every node, and nothing to pass to the dag. -/
theorem countP_generateBlock_block (cr : Crypto) (c : Core) (height round oldFirstRefH : Int)
    (ref : List Header) (batch : Batch) (i : Int) (sl : Slot) :
    let todo := c.generateBlock cr height round oldFirstRefH ref batch
    (∀ act ∈ todo, OwnBlock c.nodeID act) ∧ todo.countP (hands sl) = 0 ∧
      todo.countP (brings i sl) ≤ if sl = ⟨c.nodeID, height⟩ then 1 else 0 := by
  obtain ⟨shares, hshares, heq⟩ := generateBlock_cases cr c height round oldFirstRefH ref batch
  have hslot : (c.buildBlock cr height round oldFirstRefH ref batch).header.slot =
      ⟨c.nodeID, height⟩ := rfl
  have hnone : shares.countP (hands sl) = 0 ∧ shares.countP (brings i sl) = 0 := by
    constructor <;> rw [List.countP_eq_zero] <;> intro act hact <;>
      obtain ⟨e, rfl | rfl⟩ := hshares act hact <;> simp [hands, brings, isBlock]
  dsimp only
  rw [heq]
  refine ⟨fun act hact => ?_, ?_, ?_⟩
  · simp only [List.mem_append, List.mem_cons, List.not_mem_nil, or_false] at hact
    rcases hact with hact | rfl | rfl
    · obtain ⟨e, rfl | rfl⟩ := hshares act hact <;> trivial
    · exact ⟨rfl, rfl⟩
    · exact (rfl : _ = c.nodeID)
  · rw [List.countP_append, hnone.1]
    simp [hands]
  · rw [List.countP_append, hnone.2]
    by_cases hsl : sl = ⟨c.nodeID, height⟩
    · by_cases hi : i = c.nodeID <;> simp [brings, isBlock, hslot, hsl, hi]
    · simp [brings, isBlock, hslot, Ne.symm hsl]

/-- A handled message leaves the copy that it carried, and nothing to send. -/
theorem countP_handle_block {cr : Crypto} {c c' : Core} {msg : NetMessage} (hnil : c.todo = [])
    (h : c.handle cr msg = some c') (i : Int) (sl : Slot) :
    (∀ k, ∀ act ∈ c'.todo, OwnBlock k act) ∧ c'.todo.countP (brings i sl) = 0 ∧
      c'.todo.countP (hands sl) ≤ if isBlock sl msg then 1 else 0 := by
  cases msg with
  | propose b =>
    rcases Core.handlePropose_cases h with rfl | rfl
    · simp [hnil]
    · simp [OwnBlock, brings, hands, isBlock, OpMsg.isPush, List.countP_cons]
  | echo e =>
    rcases Core.handleEcho_cases h with rfl | ⟨_, rfl⟩ | ⟨_, rfl⟩
    · simp [hnil]
    · simp [hnil]
    · simp [Core.propose, OwnBlock, brings, hands, OpMsg.isPush]
  | elect e =>
    cases h
    rcases Core.handleElect_cases cr c e with heq | ⟨_, _, heq, _⟩
    · simp [heq, hnil]
    · simp [heq, OwnBlock, brings, hands, OpMsg.isPush]

private theorem built_append_buildEvents (tr : List Event) (s : Int) (ref : List Header) (b : Block)
    (sl : Slot) : built (tr ++ buildEvents s ref b) sl =
      built tr sl + if sl = b.header.slot then 1 else 0 := by
  have hchain : chain sl.author (buildEvents s ref b) =
      if b.header.slot.author = sl.author then [b] else [] := by
    unfold buildEvents
    split <;> split <;> simp_all [chain]
  rw [built, chain_append, List.countP_append, hchain, built]
  congr 1
  by_cases hsl : sl = b.header.slot
  · simp [hsl]
  · rw [if_neg hsl]
    split
    · simp [Ne.symm hsl]
    · rfl

private theorem single_step {S : Setup} {w w' : World} {mv : Move} (ht : Traffic S w) (h : Single w)
    (hs : w.Step S mv w') : Single w' := by
  cases hs with
  | deliver hp => exact h.deliver hp
  | send _ htodo => exact h.send htodo
  | loop _ htodo => exact h.loop htodo
  | @dagReq s batch req rest p hi htodo hp =>
    have hown := h.own s
    rw [htodo] at hown
    refine h.frame (setNode_nodes _ _ · _) rfl (fun a => ?_)
      (fun act ha => hown act (List.mem_cons_of_mem _ ha)) (fun i sl => ?_) fun sl => ?_
    · exact chain_append_of_none fun b hb => by cases req <;> simp [dagEvents] at hb
    · simp [outbox, htodo, brings]
    · have hland := Pair.landed_step (ht.node s).inv (Pair.step_cases hp).2 sl
      simp only [inbox, htodo, List.countP_cons, hands, Act.brought] at hland ⊢
      by_cases hpush : OpMsg.isPush sl (.core req) = true
      · simp only [hpush, if_true] at hland ⊢
        omega
      · simp only [hpush, Bool.false_eq_true, if_false] at hland ⊢
        omega
  | @build s batch height round oldFirstRefH rest ref p hi htodo hpc hp =>
    have hnode := (ht.node s).nodeID
    refine h.setNode (setNode_nodes _ _ · _) ?_ fun i sl => ?_
    · have hgen := countP_generateBlock_block S.crypto (w.nodes s).core height round oldFirstRefH
        ref batch 0 ⟨0, 0⟩
      rw [hnode] at hgen
      exact hgen.1
    · have hland := Pair.landed_step (ht.node s).inv (Pair.step_cases hp).2 sl
      obtain ⟨_, hhands, hbrings⟩ := countP_generateBlock_block S.crypto (w.nodes s).core height
        round oldFirstRefH ref batch i sl
      have hbuilt := built_append_buildEvents w.trace s ref ((w.nodes s).core.buildBlock S.crypto
        height round oldFirstRefH ref batch) sl
      rw [hnode] at hbrings
      have hslot : ((w.nodes s).core.buildBlock S.crypto height round oldFirstRefH ref
        batch).header.slot = ⟨s, height⟩ := congrArg (Slot.mk · height) hnode
      rw [hslot] at hbuilt
      simp only [share, outbox, inbox, hhands, Act.brought, setNode_net, hbuilt] at hland ⊢
      by_cases ha : sl.author = s
      · by_cases hi : i = s
        · simp only [ha, hi, if_true] at hbrings ⊢
          omega
        · simp only [ha, hi, if_true, if_false] at hbrings ⊢
          omega
      · by_cases hi : i = s
        · simp only [ha, hi, if_true, if_false]
          omega
        · simp only [ha, hi, if_false]
          omega
  | panic =>
    exact h.frame (setNode_nodes _ _ · _) rfl (fun _ => rfl) (h.own _) (fun _ _ => le_rfl)
      fun _ => le_rfl
  | @handle s batch msg recvCh core hi htodo hrecv hh =>
    refine h.frame (setNode_nodes _ _ · _) rfl (fun a => ?_)
      ((countP_handle_block htodo hh 0 ⟨0, 0⟩).1 s) (fun i sl => ?_) fun sl => ?_
    · exact chain_append_of_none fun b hb => by cases msg <;> simp [recvEvents] at hb
    · rw [outbox, (countP_handle_block htodo hh i sl).2.1]
      exact Nat.zero_le _
    · have hle := (countP_handle_block htodo hh 0 sl).2.2
      simp only [inbox, hrecv, htodo, List.countP_cons, List.countP_nil]
      omega
  | @pair s act p hi hact hp =>
    refine h.frame (setNode_nodes _ _ · _) rfl (fun a => ?_) (h.own s) (fun _ _ => le_rfl)
      fun sl => ?_
    · refine chain_append_of_none fun b hb => ?_
      unfold pairEvents at hb
      split at hb
      · split at hb <;> simp at hb
      · cases hb
    · have hland := Pair.landed_step (ht.node s).inv (Pair.step_cases hp).2 sl
      have hnone : act.brought sl = 0 := by cases act <;> first | rfl | cases hact
      simp only [inbox]
      omega

/-- So there is one copy after every run. -/
theorem Reaches.single {S : Setup} {moves : List Move} {w : World} (h : Reaches S moves w) :
    Single w :=
  Machine.invariant_reached (P := Single) (single_init S)
    (fun _ _ _ _ hu hi _ hs => single_step (Reaches.traffic hu) hi (step_cases hs))
    (Machine.along_of_forall fun _ _ _ => trivial) h

/-! ## One copy at a time -/

private theorem Linked.nodup_slots {i : Int} {bs : List Block} (h : Linked i bs) :
    (bs.map (·.header.slot)).Nodup := by
  rw [List.Nodup, List.pairwise_iff_getElem]
  intro j k hj hk hlt heq
  rw [List.getElem_map, List.getElem_map] at heq
  rw [List.length_map] at hj hk
  rw [h.slot j _ (List.getElem?_eq_getElem hj), h.slot k _ (List.getElem?_eq_getElem hk),
    Slot.mk.injEq] at heq
  omega

private theorem Chained.built_le_one {S : Setup} {tr : List Event} {sl : Slot} {x : Node}
    (h : Chained S tr sl.author x) : built tr sl ≤ 1 := by
  have hcount : built tr sl = ((chain sl.author tr).map (·.header.slot)).count sl := by
    rw [built, List.count, List.countP_map]
    rfl
  rw [hcount]
  exact List.nodup_iff_count_le_one.mp h.linked.nodup_slots sl

/-- **No proposal is there twice.** In every state of every run of `3f+1` members, at most one copy
of the block of a slot is on its way to a node: with its author, on the links, in the node's
channels or in its cache above the watermark. -/
theorem delivered_once {S : Setup} {moves : List Move} {w : World} {f : Nat}
    (hn : S.committee.size = 3 * f + 1) (h : Reaches S moves w) (i : Int) (sl : Slot) :
    arrivals w i sl ≤ 1 :=
  (h.single.arrivals i sl).trans (h.chained hn sl.author).built_le_one

/-- The first block of member `1` is in the cache of member `0`, and no other copy is on its
way there. -/
theorem delivered_once_one_sweep : ∃ moves w, Reaches fourNodes moves w ∧
    (w.nodes 0).pair.present ⟨1, 0⟩ = true ∧ arrivals w 0 ⟨1, 0⟩ ≤ 1 := by
  have hrun := follow_reaches fourNodes (wakeUp ++ sweep)
  have hpresent : ((follow fourNodes (wakeUp ++ sweep)).2.nodes 0).pair.present ⟨1, 0⟩ = true := by
    decide +kernel
  exact ⟨_, _, hrun, hpresent, delivered_once (f := 1) rfl hrun 0 ⟨1, 0⟩⟩

/-- A push finds its slot free. -/
theorem Reaches.freshPush {S : Setup} {moves : List Move} {w : World} {f : Nat}
    (hn : S.committee.size = 3 * f + 1) (h : Reaches S moves w) (i : Int) (act : Act) :
    (w.nodes i).pair.freshPush act = true := by
  unfold Pair.freshPush
  split
  · split
    · rename_i b rest hop
      have hone := (h.single.arrivals i b.header.slot).trans (h.chained hn _).built_le_one
      have hlanded : (w.nodes i).pair.landed b.header.slot ≤ 1 := by
        unfold arrivals inbox at hone
        omega
      rw [Pair.landed, hop, List.countP_cons] at hlanded
      cases hp : (w.nodes i).pair.dag.pending.lookup b.header.slot with
      | none => rfl
      | some ch =>
        have habove := (h.traffic.node i).inv.dagSide.cache.pending _ _ hp
        have hnone : (w.nodes i).pair.present b.header.slot ≠ true := by
          intro hpres
          simp only [OpMsg.isPush, hpres, decide_true, if_true] at hlanded
          omega
        simpa [Pair.present, habove] using hnone
    · rfl
  · rfl

/-- In every node the replies of the dag are heard. -/
theorem Reaches.heard {S : Setup} {moves : List Move} {w : World} {f : Nat}
    (hn : S.committee.size = 3 * f + 1) (h : Reaches S moves w) :
    ∀ i, ∃ sent, (w.nodes i).pair.Answered sent ∧ (w.nodes i).pair.Heard sent := by
  refine Machine.invariant_reached (P := fun w : World => ∀ i, ∃ sent,
    (w.nodes i).pair.Answered sent ∧ (w.nodes i).pair.Heard sent) ?_ ?_
    (Machine.along_of_forall fun _ _ _ => trivial) h
  · exact fun i => ⟨[], Pair.answered_init i _, Pair.heard_init i _⟩
  · intro ms u mv v hu hall _ hs i
    obtain ⟨sent, hans, hheard⟩ := hall i
    cases (step_cases hs).pairStep i with
    | same heq _ =>
      rw [heq]
      exact ⟨sent, hans, hheard⟩
    | panic heq _ =>
      rw [heq]
      exact ⟨sent, ⟨hans.nodup, hans.made, hans.queued, hans.held⟩,
        ⟨hheard.registered, hheard.reply⟩⟩
    | step act hact _ _ _ =>
      have hinv := ((Reaches.traffic hu).node i).inv
      have hst := (Pair.step_cases hact).2
      have hfresh := Reaches.freshPush hn hu i act
      exact ⟨_, hans.step hinv.dagSide hinv.shape hfresh hst,
        hheard.step hans hinv.shape hfresh hst⟩

/-- **No reply is lost.** In every run of `3f+1` members, whenever a dag is about to send a reply,
the commitor of its node waits on the channel of that reply. -/
theorem replies_heard {S : Setup} {moves : List Move} {w : World} {f : Nat}
    (hn : S.committee.size = 3 * f + 1) (h : Reaches S moves w) (i : Int) :
    ∀ ch b, (w.nodes i).pair.dagPc = .reply ch b →
      ∃ c head, (w.nodes i).pair.com = .waiting c head ch := by
  intro ch b hpc
  obtain ⟨sent, _, hheard⟩ := h.heard hn i
  exact (hheard.reply ch b hpc).2

/-- A dag is about to reply, and the commitor waits on that channel. -/
theorem replies_heard_ten_sweeps : ∃ moves w, Reaches fourNodes moves w ∧
    ∃ i ch, (w.nodes i).pair.dagPc.channels = [ch] ∧
      ∃ c head, (w.nodes i).pair.com = .waiting c head ch := by
  obtain ⟨w, hw, i, _, ch, _, hch⟩ : ∃ w ∈ Machine.run (step fourNodes) (init fourNodes)
      ((follow fourNodes (wakeUp ++ repeated 10 sweep)).1.take 456), ∃ i ∈ fourNodes.committee.ids,
      ∃ ch ∈ List.range 10, (w.nodes i).pair.dagPc.channels = [ch] := by decide +kernel
  obtain ⟨b, hb⟩ := Pair.mem_channels (hch ▸ List.mem_singleton.mpr rfl)
  exact ⟨_, w, hw, i, ch, hch, replies_heard (f := 1) rfl hw i ch b hb⟩

end World

end Loom
