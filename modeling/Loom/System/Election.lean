import Loom.System.Chain

/-!
# Election discipline

A member makes one coin share per even round, when it enters the odd round after it, and
every other member gets at most one copy of it. The elector forgets the shares of a round
on a reveal, so the argument counts the shares that can still come: each reveal uses up
`2f+1` of at most `3f+1`.
-/

namespace Loom.World

/-! ## Entering a round -/

/-- A node enters each round once, and its chain has reached the rounds it entered. -/
structure Entering (tr : List Event) (j : Int) : Prop where
  once : ∀ r, tr.count (.entered j r) ≤ 1
  below : ∀ r, .entered j r ∈ tr → ∃ b ∈ chain j tr, r ≤ b.header.round

/-- Events other than the node's own entries do not matter. -/
theorem Entering.append {tr evs : List Event} {j : Int} (h : Entering tr j)
    (hevs : ∀ r, .entered j r ∉ evs) : Entering (tr ++ evs) j where
  once r := by
    rw [List.count_append, List.count_eq_zero_of_not_mem (hevs r), Nat.add_zero]
    exact h.once r
  below r hr := by
    rcases List.mem_append.mp hr with hr | hr
    · obtain ⟨b, hb, hle⟩ := h.below r hr
      rw [chain_append]
      exact ⟨b, List.mem_append_left _ hb, hle⟩
    · exact absurd hr (hevs r)

/-- No round of a chain is above the last one. -/
theorem Linked.round_le_last {i : Int} {bs : List Block} (h : Linked i bs) {b last : Block}
    (hb : b ∈ bs) (hlast : bs.getLast? = some last) : b.header.round ≤ last.header.round := by
  obtain ⟨k, hk⟩ := List.mem_iff_getElem?.mp hb
  rw [List.getLast?_eq_getElem?] at hlast
  obtain ⟨_, _, hall⟩ := h.firstRefH _ _ hlast
  have hlt := (List.getElem?_eq_some_iff.mp hk).1
  obtain ⟨hbefore, hsame⟩ := hall k b hk
  by_cases hlow : (k : Int) < last.header.firstRefH
  · exact Int.le_of_lt (hbefore hlow)
  · exact Int.le_of_eq (hsame (by omega) (by omega))

/-- A node that opens a round enters one above all rounds of its chain. -/
theorem Entering.build {S : Setup} {tr : List Event} {i : Int} {x : Node}
    {height round oldFirstRefH : Int} {rest : List CoreAct} {ref : List Header} {batch : Batch}
    (h : Entering tr i) (hc : Chained S tr i x) (hid : x.core.nodeID = i)
    (htodo : x.core.todo = .awaitRef height round oldFirstRefH :: rest)
    (hpc : x.pair.dagPc = .refResp ref) :
    Entering (tr ++ buildEvents i ref
      (x.core.buildBlock S.crypto height round oldFirstRefH ref batch)) i := by
  generalize hb : x.core.buildBlock S.crypto height round oldFirstRefH ref batch = b
  have hround : b.header.round = Core.nextRound round ref := by
    rw [← hb]
    rfl
  have hauthor : b.header.slot.author = i := by
    rw [← hb, ← hid]
    rfl
  by_cases hopen : Core.opens ref = true
  · have hne : chain i tr ≠ [] := by
      intro hnil
      rw [hc.ref_nil hpc hnil] at hopen
      cases hopen
    obtain ⟨last, hlast⟩ := Option.ne_none_iff_exists'.mp (mt List.getLast?_eq_none_iff.mp hne)
    obtain ⟨_, hnext⟩ := hc.next _ _ _ (htodo ▸ List.mem_cons_self ..)
    have hlift : b.header.round = last.header.round + 1 := by
      rw [hround, Core.nextRound, if_pos hopen, (hnext last hlast).1]
    have hfresh : Event.entered i b.header.round ∉ tr := by
      intro hmem
      obtain ⟨b', hb', hle⟩ := h.below _ hmem
      have hmax := hc.linked.round_le_last hb' hlast
      omega
    constructor
    · intro r
      rw [List.count_append, buildEvents, if_pos hopen]
      by_cases hr : r = b.header.round
      · rw [hr, List.count_eq_zero_of_not_mem hfresh]
        simp
      · have hold := h.once r
        simpa [List.count_cons, Ne.symm hr] using hold
    · intro r hr
      rw [chain_append]
      rcases List.mem_append.mp hr with hr | hr
      · obtain ⟨b', hb', hle⟩ := h.below r hr
        exact ⟨b', List.mem_append_left _ hb', hle⟩
      · rw [buildEvents, if_pos hopen] at hr
        simp only [List.cons_append, List.nil_append, List.mem_cons, Event.entered.injEq, true_and,
          reduceCtorEq, List.not_mem_nil, or_false] at hr
        refine ⟨b, List.mem_append_right _ (mem_chain.mpr ⟨?_, hauthor⟩), by omega⟩
        simp [buildEvents]
  · refine h.append fun r hr => ?_
    rw [buildEvents, if_neg hopen] at hr
    simp at hr

/-! ## Copies of a share -/

/-- The coin share of a member for a round. -/
def isShare (j r : Int) : NetMessage → Bool
  | .elect e => decide (e.author = j ∧ e.round = r)
  | _ => false

/-- The broadcast of a share. -/
def broadcasts (j r : Int) : CoreAct → Bool
  | .send _ m => isShare j r m
  | _ => false

/-- The operation that brings the share of node `j` to node `i`: the broadcast, or for the
node's own share the loop back. -/
def carries (i j r : Int) : CoreAct → Bool
  | .send _ m => decide (i ≠ j) && isShare j r m
  | .loop m => decide (i = j) && isShare j r m
  | _ => false

/-- A reveal that a core still has to pass to its dag. -/
def passes (r : Int) : CoreAct → Bool
  | .dag (.commitReq req) => decide (req.round = r)
  | _ => false

/-- The broadcasts of the share of node `j` so far and those it still has to make. -/
def shared (w : World) (j r : Int) : Nat :=
  w.trace.count (.elected j r) + (w.nodes j).core.todo.countP (broadcasts j r)

/-- The copies of the share of node `j` on the links to node `i`. -/
def links (w : World) (i j r : Int) : Nat :=
  w.net.countP fun p => decide (p.dst = i) && isShare j r p.msg

/-- The copies of the share of node `j` that node `i` has counted or can still get. -/
def copies (w : World) (i j r : Int) : Nat :=
  w.trace.count (.counted i j r) + links w i j r +
    (w.nodes i).recvCh.countP (isShare j r) + (w.nodes j).core.todo.countP (carries i j r)

/-- The share that a node sends or loops back is its own. -/
theorem eq_of_isShare {tr : List Event} {s j r : Int} {act : CoreAct} {msg : NetMessage}
    (hdue : Due tr s act) (hact : act = .loop msg ∨ ∃ dst, act = .send dst msg)
    (hs : isShare j r msg = true) : j = s := by
  cases msg with
  | propose | echo => cases hs
  | elect e =>
    simp only [isShare, decide_eq_true_eq] at hs
    rw [← hs.1]
    rcases hact with rfl | ⟨dst, rfl⟩
    · exact hdue.1
    · exact hdue.2.1

/-- All packets of a send carry its message. -/
theorem packets_msg {S : Setup} {s dst : Int} {msg : NetMessage} {p : Packet}
    (hp : p ∈ packets S s dst msg) : p.msg = msg := by
  unfold packets at hp
  split at hp
  · obtain ⟨_, _, rfl⟩ := List.mem_map.mp hp
    rfl
  · split at hp
    · rw [List.mem_singleton] at hp
      rw [hp]
    · cases hp

/-- A share goes once to every other member and not to the sender. -/
theorem countP_packets {S : Setup} {tr : List Event} {s dst i j r : Int} {msg : NetMessage}
    (hdue : Due tr s (.send dst msg)) :
    (packets S s dst msg).countP (fun p => decide (p.dst = i) && isShare j r p.msg) ≤
      if i ≠ s ∧ isShare j r msg = true then 1 else 0 := by
  by_cases hshare : isShare j r msg = true
  · have hdst : dst = NONE := by
      cases msg with
      | propose | echo => cases hshare
      | elect e => exact hdue.1
    have hcount : (packets S s dst msg).countP (fun p => decide (p.dst = i) && isShare j r p.msg) =
        (S.committee.broadCast s).count i := by
      rw [packets, if_pos hdst, List.countP_map, List.count]
      congr 1
      funext d
      simp only [Function.comp_apply, hshare, Bool.and_true]
      rfl
    rw [hcount]
    have hnodup : (S.committee.broadCast s).Nodup := S.committee.nodup_ids.filter _
    by_cases hi : i = s
    · rw [if_neg (by simp [hi]), Nat.le_zero, List.count_eq_zero, hi]
      simp [Committee.broadCast]
    · rw [if_pos ⟨hi, hshare⟩]
      exact List.nodup_iff_count_le_one.mp hnodup i
  · rw [if_neg (by simp [hshare]), Nat.le_zero, List.countP_eq_zero]
    intro p hp
    simp [packets_msg hp, hshare]

/-- Sending a share is an event of its author. -/
theorem count_sendEvents {tr : List Event} {s dst : Int} {msg : NetMessage}
    (hdue : Due tr s (.send dst msg)) :
    (∀ i j r, (sendEvents s msg).count (.counted i j r) = 0 ∧
      (sendEvents s msg).count (.entered j r) = 0) ∧
    ∀ j r, (sendEvents s msg).count (.elected j r) ≤ if isShare j r msg = true then 1 else 0 := by
  cases msg with
  | propose | echo => simp [sendEvents]
  | elect e =>
    obtain ⟨_, rfl, _⟩ := hdue
    simp [sendEvents, isShare, List.count_singleton]

/-- Taking a share from the channel counts it. -/
theorem count_recvEvents (s : Int) (msg : NetMessage) :
    (∀ j r, (recvEvents s msg).count (.elected j r) = 0 ∧
      (recvEvents s msg).count (.entered j r) = 0) ∧
    ∀ i j r, (recvEvents s msg).count (.counted i j r) =
      if i = s ∧ isShare j r msg = true then 1 else 0 := by
  cases msg with
  | propose | echo => simp [recvEvents, isShare]
  | elect e =>
    refine ⟨by simp [recvEvents], fun i j r => ?_⟩
    rw [recvEvents, List.count_singleton]
    simp [isShare, eq_comm (a := i)]

/-- A built block leaves one share to send and one to loop back, and only if the node
entered the round after the share's. -/
theorem countP_generateBlock (cr : Crypto) (c : Core) (height round oldFirstRefH : Int)
    (ref : List Header) (batch : Batch) (i r : Int) :
    let todo := c.generateBlock cr height round oldFirstRefH ref batch
    let evs := buildEvents c.nodeID ref (c.buildBlock cr height round oldFirstRefH ref batch)
    todo.countP (broadcasts c.nodeID r) ≤ evs.count (.entered c.nodeID (r + 1)) ∧
      todo.countP (carries i c.nodeID r) ≤ evs.count (.entered c.nodeID (r + 1)) := by
  dsimp only
  have hround : (c.buildBlock cr height round oldFirstRefH ref batch).header.round =
      Core.nextRound round ref := rfl
  simp only [Core.generateBlock, buildEvents, hround]
  by_cases hopen : Core.opens ref = true
  · by_cases hodd : (Core.nextRound round ref).tmod 2 = 1
    · rw [if_pos ⟨hopen, hodd⟩, if_pos hopen, Core.invokeElect]
      split
      · simp [broadcasts, carries, isShare]
      · rename_i e he
        obtain ⟨share, _, rfl⟩ := Option.map_eq_some_iff.mp he
        by_cases hr : Core.nextRound round ref = r + 1
        · by_cases hi : i = c.nodeID <;>
            simp [broadcasts, carries, isShare, hr, hi]
        · have hr' : ¬Core.nextRound round ref - 1 = r := by omega
          simp [broadcasts, carries, isShare, hr']
    · rw [if_neg (by simp [hodd])]
      simp [broadcasts, carries, isShare]
  · rw [if_neg (by simp [hopen])]
    simp [broadcasts, carries, isShare]

/-- A built block leaves no reveal to pass. -/
theorem passes_generateBlock (cr : Crypto) (c : Core) (height round oldFirstRefH : Int)
    (ref : List Header) (batch : Batch) (r : Int) :
    (c.generateBlock cr height round oldFirstRefH ref batch).countP (passes r) = 0 := by
  rw [List.countP_eq_zero]
  intro act hact
  simp only [Core.generateBlock, List.mem_append, List.mem_cons, List.not_mem_nil, or_false] at hact
  rcases hact with hact | rfl | rfl
  · split at hact
    · unfold Core.invokeElect at hact
      split at hact
      · cases hact
      · simp only [List.mem_cons, List.not_mem_nil, or_false] at hact
        rcases hact with rfl | rfl <;> simp [passes]
    · cases hact
  · simp [passes]
  · simp [passes]

/-- A handled message leaves no share to send. -/
theorem countP_handle {cr : Crypto} {c c' : Core} {msg : NetMessage} (hnil : c.todo = [])
    (h : c.handle cr msg = some c') (i j r : Int) :
    c'.todo.countP (broadcasts j r) = 0 ∧ c'.todo.countP (carries i j r) = 0 := by
  cases msg with
  | propose b =>
    rcases Core.handlePropose_cases h with rfl | rfl
    · simp [hnil]
    · simp [broadcasts, carries, isShare]
  | echo e =>
    rcases Core.handleEcho_cases h with rfl | ⟨_, rfl⟩ | ⟨_, rfl⟩
    · simp [hnil]
    · simp [hnil]
    · simp [Core.propose, broadcasts, carries]
  | elect e =>
    cases h
    rcases Core.handleElect_cases cr c e with heq | ⟨_, _, heq, _⟩
    · simp [heq, hnil]
    · simp [heq, broadcasts, carries]

/-- No more shares are sent, and none arrives more often, than rounds are entered. -/
structure Budget (w : World) : Prop where
  shared : ∀ j r, shared w j r ≤ w.trace.count (.entered j (r + 1))
  copies : ∀ i j r, copies w i j r ≤ w.trace.count (.entered j (r + 1))

private theorem budget_init (S : Setup) : Budget (init S) where
  shared j r := by simp [World.shared, init, Node.init, Core.init, Core.propose, broadcasts]
  copies i j r := by simp [World.copies, links, init, Node.init, Core.init, Core.propose, carries]

/-- The copies of a share that lie at node `s`. -/
def held (s : Int) (x : Node) (i j r : Int) : Nat :=
  (if i = s then x.recvCh.countP (isShare j r) else 0) +
    if j = s then x.core.todo.countP (carries i j r) else 0

/-- A step keeps the budget if what one node gains is covered by the rounds entered. -/
theorem Budget.setNode {w w' : World} (h : Budget w) {s : Int} {x : Node} {evs : List Event}
    (hnodes : ∀ j, w'.nodes j = if j = s then x else w.nodes j)
    (htrace : w'.trace = w.trace ++ evs)
    (hshared : ∀ r, evs.count (.elected s r) + x.core.todo.countP (broadcasts s r) ≤
      (w.nodes s).core.todo.countP (broadcasts s r) + evs.count (.entered s (r + 1)))
    (helected : ∀ j r, j ≠ s → evs.count (.elected j r) = 0)
    (hcopies : ∀ i j r, evs.count (.counted i j r) + links w' i j r + held s x i j r ≤
      links w i j r + held s (w.nodes s) i j r + evs.count (.entered j (r + 1))) : Budget w' where
  shared j r := by
    have hold := h.shared j r
    unfold World.shared at hold ⊢
    rw [htrace, hnodes, List.count_append, List.count_append]
    by_cases hj : j = s
    · subst j
      have hnew := hshared r
      rw [if_pos rfl]
      omega
    · rw [if_neg hj, helected j r hj]
      omega
  copies i j r := by
    have hold := h.copies i j r
    have hnew := hcopies i j r
    unfold World.copies at hold ⊢
    unfold held at hnew
    rw [htrace, hnodes, hnodes, List.count_append, List.count_append]
    by_cases hi : i = s
    · subst i
      by_cases hj : j = s
      · subst j
        simp only [if_true] at hnew ⊢
        omega
      · simp only [if_true, if_neg hj] at hnew ⊢
        omega
    · by_cases hj : j = s
      · subst j
        simp only [if_true, if_neg hi] at hnew ⊢
        omega
      · simp only [if_neg hi, if_neg hj] at hnew ⊢
        omega

/-- Events that have nothing to do with shares. -/
def Unrelated (evs : List Event) : Prop :=
  ∀ i j r, evs.count (.elected j r) = 0 ∧ evs.count (.counted i j r) = 0 ∧
    evs.count (.entered j r) = 0

/-- A step that has nothing to do with shares. -/
theorem Budget.frame {w w' : World} (h : Budget w) {s : Int} {x : Node} {evs : List Event}
    (hnodes : ∀ j, w'.nodes j = if j = s then x else w.nodes j)
    (htrace : w'.trace = w.trace ++ evs) (hevs : Unrelated evs) (hnet : w'.net = w.net)
    (hrecv : x.recvCh = (w.nodes s).recvCh)
    (hb : ∀ r, x.core.todo.countP (broadcasts s r) = (w.nodes s).core.todo.countP (broadcasts s r))
    (hc : ∀ i r, x.core.todo.countP (carries i s r) =
      (w.nodes s).core.todo.countP (carries i s r)) : Budget w' := by
  refine h.setNode hnodes htrace ?_ (fun j r _ => (hevs 0 j r).1) ?_
  · intro r
    rw [(hevs 0 s r).1, (hevs 0 s (r + 1)).2.2, hb]
    omega
  · intro i j r
    have hheld : held s x i j r = held s (w.nodes s) i j r := by
      unfold held
      rw [hrecv]
      by_cases hj : j = s
      · rw [hj, hc]
      · rw [if_neg hj, if_neg hj]
    rw [(hevs i j r).2.1, (hevs 0 j (r + 1)).2.2, hheld, links, links, hnet]
    omega

/-- Delivery moves a packet to the receiver's channel. -/
theorem links_deliver {w : World} (w' : World) {k : Nat} {p : Packet} (hp : w.net[k]? = some p)
    (hnet : w'.net = w.net.eraseIdx k) (i j r : Int) :
    links w i j r = links w' i j r + if i = p.dst ∧ isShare j r p.msg = true then 1 else 0 := by
  obtain ⟨hlt, hget⟩ := List.getElem?_eq_some_iff.mp hp
  have hperm := (List.getElem_cons_eraseIdx_perm hlt).countP_eq
    fun q => decide (q.dst = i) && isShare j r q.msg
  rw [hget, List.countP_cons] at hperm
  unfold links
  rw [hnet, ← hperm]
  simp only [Bool.and_eq_true, decide_eq_true_eq, eq_comm (a := p.dst)]

/-- A delivery moves a share. -/
theorem Budget.deliver {w : World} (h : Budget w) {k : Nat} {p : Packet}
    (hp : w.net[k]? = some p) : Budget { w.setNode p.dst { w.nodes p.dst with
      recvCh := (w.nodes p.dst).recvCh ++ [p.msg] } with net := w.net.eraseIdx k } := by
  refine h.setNode (setNode_nodes _ _ · _) (List.append_nil _).symm (by simp) (by simp) ?_
  intro i j r
  have hlinks := links_deliver { w with net := w.net.eraseIdx k } hp rfl i j r
  rw [hlinks]
  unfold held links
  dsimp only
  rw [List.countP_append, List.countP_singleton]
  by_cases hi : i = p.dst
  · simp only [hi, if_true, true_and, List.count_nil]
    omega
  · simp only [hi, false_and, if_false, List.count_nil]
    omega

/-- A broadcast turns the operation into copies on the links. -/
theorem Budget.send {S : Setup} {w : World} (h : Budget w) {s dst : Int} {msg : NetMessage}
    {rest : List CoreAct} (hdue : Due w.trace s (.send dst msg))
    (htodo : (w.nodes s).core.todo = .send dst msg :: rest) :
    Budget { w.setNode s { w.nodes s with core := { (w.nodes s).core with todo := rest } } with
      net := w.net ++ packets S s dst msg
      trace := w.trace ++ sendEvents s msg } := by
  obtain ⟨hent, hel⟩ := count_sendEvents hdue
  have hown : ∀ {j r}, isShare j r msg = true → j = s := eq_of_isShare hdue (Or.inr ⟨_, rfl⟩)
  refine h.setNode (setNode_nodes _ _ · _) rfl ?_ ?_ ?_
  · intro r
    have hnew := hel s r
    rw [htodo, List.countP_cons, broadcasts]
    dsimp only
    by_cases hs : isShare s r msg = true
    · rw [if_pos hs] at hnew ⊢
      omega
    · rw [if_neg hs] at hnew ⊢
      omega
  · intro j r hj
    have hnew := hel j r
    rw [if_neg fun hs => hj (hown hs)] at hnew
    omega
  · intro i j r
    have hlinks : links { w.setNode s { w.nodes s with
          core := { (w.nodes s).core with todo := rest } } with
        net := w.net ++ packets S s dst msg
        trace := w.trace ++ sendEvents s msg } i j r = links w i j r +
          (packets S s dst msg).countP fun p => decide (p.dst = i) && isShare j r p.msg :=
      List.countP_append
    have hpk := countP_packets (S := S) (i := i) (j := j) (r := r) hdue
    rw [hlinks, (hent i j r).1]
    unfold held
    rw [htodo, List.countP_cons]
    simp only [carries, Bool.and_eq_true, decide_eq_true_eq]
    by_cases hj : j = s
    · subst j
      simp only [if_true]
      omega
    · rw [if_neg fun hs => hj (hown hs.2)] at hpk
      simp only [if_neg hj]
      omega

/-- A node's own message goes to its own channel. -/
theorem Budget.loop {w : World} (h : Budget w) {s : Int} {msg : NetMessage} {rest : List CoreAct}
    (hdue : Due w.trace s (.loop msg)) (htodo : (w.nodes s).core.todo = .loop msg :: rest) :
    Budget (w.setNode s { w.nodes s with
      core := { (w.nodes s).core with todo := rest }
      recvCh := (w.nodes s).recvCh ++ [msg] }) := by
  have hown : ∀ {j r}, isShare j r msg = true → j = s := eq_of_isShare hdue (Or.inl rfl)
  refine h.setNode (setNode_nodes _ _ · _) (List.append_nil _).symm ?_ (by simp) ?_
  · intro r
    simp [htodo, broadcasts]
  · intro i j r
    unfold held links
    rw [htodo, List.countP_cons]
    dsimp only
    rw [List.countP_append, List.countP_singleton]
    simp only [carries, Bool.and_eq_true, decide_eq_true_eq, setNode_net, List.count_nil]
    by_cases hj : j = s
    · by_cases hi : i = s
      · simp only [hi, hj, if_true, true_and]
        omega
      · simp only [hi, hj, if_true, if_false, false_and]
        omega
    · simp only [mt hown hj, hj, if_false, Nat.add_zero, Bool.false_eq_true]
      omega

/-- A new block with the shares that a newly entered round brings. -/
theorem Budget.build {w w' : World} (h : Budget w) {s : Int} {x : Node} {ref : List Header}
    {b : Block} (hnodes : ∀ j, w'.nodes j = if j = s then x else w.nodes j)
    (htrace : w'.trace = w.trace ++ buildEvents s ref b) (hnet : w'.net = w.net)
    (hrecv : x.recvCh = (w.nodes s).recvCh)
    (hgen : ∀ i r,
      x.core.todo.countP (broadcasts s r) ≤ (buildEvents s ref b).count (.entered s (r + 1)) ∧
      x.core.todo.countP (carries i s r) ≤ (buildEvents s ref b).count (.entered s (r + 1))) :
    Budget w' := by
  have hev : ∀ i j r, (buildEvents s ref b).count (.elected j r) = 0 ∧
      (buildEvents s ref b).count (.counted i j r) = 0 := by
    intro i j r
    unfold buildEvents
    split <;> simp
  refine h.setNode hnodes htrace ?_ (fun j r _ => (hev 0 j r).1) ?_
  · intro r
    have hnew := (hgen 0 r).1
    rw [(hev 0 s r).1]
    omega
  · intro i j r
    unfold held links
    rw [(hev i j r).2, hnet, hrecv]
    by_cases hj : j = s
    · subst j
      have hnew := (hgen i r).2
      simp only [if_true]
      omega
    · simp only [if_neg hj]
      omega

/-- A message taken from the channel is counted. -/
theorem Budget.handle {cr : Crypto} {w : World} (h : Budget w) {s : Int} {msg : NetMessage}
    {recvCh : List NetMessage} {core : Core} (htodo : (w.nodes s).core.todo = [])
    (hrecv : (w.nodes s).recvCh = msg :: recvCh)
    (hh : (w.nodes s).core.handle cr msg = some core) :
    Budget { w.setNode s { w.nodes s with core := core, recvCh := recvCh } with
      trace := w.trace ++ recvEvents s msg } := by
  obtain ⟨hent, hcount⟩ := count_recvEvents s msg
  refine h.setNode (setNode_nodes _ _ · _) rfl ?_ (fun j r _ => (hent j r).1) ?_
  · intro r
    rw [(hent s r).1, (countP_handle htodo hh 0 s r).1]
    omega
  · intro i j r
    unfold held links
    rw [hcount i j r, hrecv, htodo, List.countP_cons]
    simp only [setNode_net, (countP_handle htodo hh i j r).2, List.countP_nil, ite_self]
    by_cases hi : i = s
    · simp only [hi, true_and, if_true]
      omega
    · simp only [hi, false_and, if_false]
      omega

private theorem budget_step {S : Setup} {w w' : World} {mv : Move} (ht : Traffic S w) (h : Budget w)
    (hs : w.Step S mv w') : Budget w' := by
  cases hs with
  | deliver hp => exact h.deliver hp
  | @send s batch dst msg rest hi htodo =>
    exact h.send ((ht.node s).todo _ (htodo ▸ List.mem_cons_self ..)) htodo
  | @loop s batch msg rest hi htodo =>
    exact h.loop ((ht.node s).todo _ (htodo ▸ List.mem_cons_self ..)) htodo
  | @dagReq i batch req rest p hi htodo hp =>
    refine h.frame (setNode_nodes _ _ · _) rfl ?_ rfl rfl ?_ ?_
    · intro i' j r
      cases req <;> simp [dagEvents]
    · intro r
      simp [htodo, broadcasts]
    · intro i' r
      simp [htodo, carries]
  | @build s batch height round oldFirstRefH rest ref p hi htodo hpc hp =>
    have hgen := countP_generateBlock S.crypto (w.nodes s).core height round oldFirstRefH ref batch
    rw [(ht.node s).nodeID] at hgen
    exact h.build (setNode_nodes _ _ · _) rfl rfl rfl hgen
  | panic =>
    exact h.frame (setNode_nodes _ _ · _) (List.append_nil _).symm (by simp [Unrelated]) rfl rfl
      (fun _ => rfl) fun _ _ => rfl
  | handle hi htodo hrecv hh => exact h.handle htodo hrecv hh
  | @pair i act p hi hown hp =>
    refine h.frame (setNode_nodes _ _ · _) rfl ?_ rfl rfl (fun _ => rfl) fun _ _ => rfl
    intro i' j r
    unfold pairEvents
    split
    · split <;> simp
    · simp

/-! ## Reveals -/

/-- The reveal of a round by a node. -/
def isReveal (i r : Int) : Event → Bool
  | .revealed k req => decide (k = i ∧ req.round = r)
  | _ => false

/-- The authors whose shares of a round a node has counted. -/
def counters (i r : Int) (tr : List Event) : List Int :=
  tr.filterMap fun
    | .counted k j s => if k = i ∧ s = r then some j else none
    | _ => none

private theorem mem_counters {i r j : Int} {tr : List Event} :
    j ∈ counters i r tr ↔ .counted i j r ∈ tr := by
  apply Machine.mem_selected
  intro e a
  cases e <;> simp [and_right_comm, and_assoc]

private theorem counters_append (i r : Int) (tr evs : List Event) :
    counters i r (tr ++ evs) = counters i r tr ++ counters i r evs := List.filterMap_append ..

private theorem count_counters (i r j : Int) (tr : List Event) :
    (counters i r tr).count j = tr.count (.counted i j r) := by
  induction tr with
  | nil => rfl
  | cons e tr ih =>
    rw [List.count_cons, ← ih, counters, List.filterMap_cons]
    split
    · rename_i hnone
      have hne : (e == .counted i j r) = false := by
        rw [beq_eq_false_iff_ne]
        rintro rfl
        simp at hnone
      rw [hne]
      rfl
    · rename_i j' hsome
      split at hsome
      · simp only [Option.ite_none_right_eq_some, Option.some.injEq] at hsome
        obtain ⟨⟨rfl, rfl⟩, rfl⟩ := hsome
        rw [List.count_cons]
        simp [counters]
      · cases hsome

/-- Every reveal of a round has used up a quorum of the shares counted, apart from those
that wait in the aggregator. -/
structure Elects (S : Setup) (tr : List Event) (i : Int) (x : Node) : Prop where
  leader : ∀ r, x.core.eletor.leader.lookup r = none
  shares : ∀ r, (x.core.sharesOf r).Ok S.committee
  quota : ∀ r, (x.core.sharesOf r).used.length + S.committee.hightThreshold *
      (tr.countP (isReveal i r) + x.core.todo.countP (passes r)) ≤ (counters i r tr).length
  members : ∀ r, ∀ j ∈ counters i r tr, j ∈ S.committee.ids ∧ 0 ≤ r ∧ r % 2 = 0

private theorem elects_init (S : Setup) (i : Int) : Elects S [] i (Node.init S.committee i) where
  leader r := rfl
  shares r := Aggregator.ok_new _
  quota r := by
    simp [Node.init, Core.init, Core.sharesOf, newElector, Core.propose, passes, newAggregator,
      counters]
  members := by simp [counters]

/-- A step that leaves the node's elector alone and passes at most what was due. -/
theorem Elects.frame {S : Setup} {tr evs : List Event} {i : Int} {x x' : Node}
    (h : Elects S tr i x) (hel : x'.core.eletor = x.core.eletor)
    (hcounted : ∀ j r, .counted i j r ∉ evs)
    (hpass : ∀ r, evs.countP (isReveal i r) + x'.core.todo.countP (passes r) ≤
      x.core.todo.countP (passes r)) : Elects S (tr ++ evs) i x' := by
  have hcounters : ∀ r, counters i r (tr ++ evs) = counters i r tr := by
    intro r
    have hnil : counters i r evs = [] := by
      rw [List.eq_nil_iff_forall_not_mem]
      exact fun j hj => hcounted j r (mem_counters.mp hj)
    rw [counters_append, hnil, List.append_nil]
  have hshares : ∀ r, x'.core.sharesOf r = x.core.sharesOf r := by
    intro r
    rw [Core.sharesOf, hel, Core.sharesOf]
  refine ⟨by rw [hel]; exact h.leader, fun r => by rw [hshares]; exact h.shares r, ?_, ?_⟩
  · intro r
    have hle : (tr ++ evs).countP (isReveal i r) + x'.core.todo.countP (passes r) ≤
        tr.countP (isReveal i r) + x.core.todo.countP (passes r) := by
      have hp := hpass r
      rw [List.countP_append]
      omega
    rw [hshares, hcounters]
    exact (Nat.add_le_add_left (Nat.mul_le_mul_left _ hle) _).trans (h.quota r)
  · intro r
    rw [hcounters]
    exact h.members r

private theorem counters_counted (i r j q : Int) (tr : List Event) :
    counters i r (tr ++ [.counted i j q]) = counters i r tr ++ if r = q then [j] else [] := by
  rw [counters_append]
  congr 1
  by_cases hr : r = q
  · simp [counters, hr]
  · simp [counters, hr, Ne.symm hr]

/-- A share is counted and its aggregator becomes `ag`: what is left in it and what a reveal
uses up is paid for by one share more. -/
theorem Elects.counted {S : Setup} {tr : List Event} {i : Int} {x x' : Node} {e : Elect}
    {ag : Aggregator Elect} (h : Elects S tr i x) (hmem : e.author ∈ S.committee.ids)
    (hpar : 0 ≤ e.round ∧ e.round % 2 = 0) (htodo : x.core.todo = [])
    (hlead : ∀ r, x'.core.eletor.leader.lookup r = none)
    (hshares : ∀ r, x'.core.sharesOf r = if r = e.round then ag else x.core.sharesOf r)
    (hok : ag.Ok S.committee)
    (hpass : ∀ r, r ≠ e.round → x'.core.todo.countP (passes r) = 0)
    (hquota : ag.used.length +
      S.committee.hightThreshold * x'.core.todo.countP (passes e.round) ≤
        (x.core.sharesOf e.round).used.length + 1) :
    Elects S (tr ++ [.counted i e.author e.round]) i x' := by
  have hreveal : ∀ r, (tr ++ [Event.counted i e.author e.round]).countP (isReveal i r) =
      tr.countP (isReveal i r) := by
    intro r
    simp [isReveal]
  refine ⟨hlead, fun r => ?_, fun r => ?_, fun r j hj => ?_⟩
  · rw [hshares]
    split
    · exact hok
    · exact h.shares r
  · have hold := h.quota r
    rw [htodo, List.countP_nil, Nat.add_zero] at hold
    rw [hshares, counters_counted, hreveal, List.length_append]
    by_cases hr : r = e.round
    · subst r
      rw [if_pos rfl, if_pos rfl, List.length_singleton, Nat.mul_add]
      omega
    · rw [if_neg hr, if_neg hr, hpass r hr, Nat.add_zero, List.length_nil, Nat.add_zero]
      exact hold
  · rw [counters_counted] at hj
    rcases List.mem_append.mp hj with hj | hj
    · exact h.members r j hj
    · split at hj
      · rw [List.mem_singleton] at hj
        subst hj
        subst r
        exact ⟨hmem, hpar⟩
      · cases hj

/-- A counted share waits in its aggregator or completes the quorum of a reveal. -/
theorem Elects.elect {S : Setup} {tr : List Event} {i : Int} {x x' : Node} {e : Elect} {f : Nat}
    (hn : S.committee.size = 3 * f + 1) (h : Elects S tr i x)
    (hcom : x.core.eletor.committee = S.committee) (hmem : e.author ∈ S.committee.ids)
    (hpar : 0 ≤ e.round ∧ e.round % 2 = 0) (htodo : x.core.todo = [])
    (hcore : x'.core = x.core.handleElect S.crypto e) :
    Elects S (tr ++ [.counted i e.author e.round]) i x' := by
  have hpush := (h.shares e.round).push_take (Committee.size_lt hn) hmem e
  have hwith : (x.core.sharesOf e.round).push e.author e = x.core.sharesWith e := rfl
  rw [hwith] at hpush
  rcases Core.handleElect_cases S.crypto x.core e with heq | ⟨leaders, leader, heq, hcase⟩
  · have htodo' : x'.core.todo = [] := by rw [hcore, heq, htodo]
    have hnew : (x.core.sharesWith e).take.2.Ok S.committee ∧
        (x.core.sharesWith e).take.2.used.length ≤ (x.core.sharesOf e.round).used.length + 1 := by
      rcases hpush with ⟨_, htake, hok, hlen, _⟩ | ⟨_, _, _, hok, hused, hlen⟩
      · rw [htake]
        exact ⟨hok, hlen⟩
      · exact ⟨hok, by rw [hused]; exact Nat.le_of_eq hlen⟩
    refine h.counted hmem hpar htodo (by rw [hcore, heq]; exact h.leader) ?_ hnew.1 ?_ ?_
    · intro r
      rw [Core.sharesOf, hcore, heq, Core.addShare]
      dsimp only
      rw [GoMap.lookup_insert_ite]
      split <;> rfl
    · intro r _
      rw [htodo', List.countP_nil]
    · rw [htodo', List.countP_nil, Nat.mul_zero]
      exact hnew.2
  · rcases hcase with ⟨_, hlead⟩ | ⟨rfl, msgs, _, hmsgs, _⟩
    · rw [h.leader] at hlead
      cases hlead
    · have htodo' : x'.core.todo = [.dag (.commitReq ⟨leader, e.round⟩)] := by rw [hcore, heq]
      have hfire : S.committee.hightThreshold ≤ (x.core.sharesOf e.round).used.length + 1 := by
        rcases hpush with ⟨hnone, _⟩ | ⟨_, _, hle, _, hused, hlen⟩
        · rw [hmsgs] at hnone
          cases hnone
        · rw [← hlen, ← hused]
          exact hle
      refine h.counted hmem hpar htodo ?_ ?_ (Aggregator.ok_new S.committee) ?_ ?_
      · intro r
        rw [hcore, heq]
        dsimp only
        rw [GoMap.lookup_erase_ite, GoMap.lookup_insert_ite]
        split
        · rfl
        · exact h.leader r
      · intro r
        rw [Core.sharesOf, hcore, heq, Core.addShare]
        dsimp only
        rw [GoMap.lookup_erase_ite, GoMap.lookup_insert_ite, hcom]
        split
        · rfl
        · rw [Core.sharesOf, hcom]
      · intro r hr
        simp [htodo', passes, Ne.symm hr]
      · simpa [htodo', passes, newAggregator] using hfire

/-- A handled message of any kind. -/
theorem Elects.handle {S : Setup} {tr : List Event} {i : Int} {x : Node} {msg : NetMessage}
    {recvCh : List NetMessage} {core : Core} {f : Nat} (hn : S.committee.size = 3 * f + 1)
    (hloc : Local S tr i x) (h : Elects S tr i x) (hrecv : x.recvCh = msg :: recvCh)
    (htodo : x.core.todo = []) (hh : x.core.handle S.crypto msg = some core) :
    Elects S (tr ++ recvEvents i msg) i { x with core := core, recvCh := recvCh } := by
  cases msg with
  | propose b =>
    refine h.frame ?_ (by simp [recvEvents]) ?_
    · rcases Core.handlePropose_cases hh with rfl | rfl <;> rfl
    · intro r
      rcases Core.handlePropose_cases hh with rfl | rfl <;> simp [recvEvents, htodo, passes]
  | echo e =>
    refine h.frame ?_ (by simp [recvEvents]) ?_
    · rcases Core.handleEcho_cases hh with rfl | ⟨_, rfl⟩ | ⟨_, rfl⟩ <;> rfl
    · intro r
      rcases Core.handleEcho_cases hh with rfl | ⟨_, rfl⟩ | ⟨_, rfl⟩ <;>
        simp [recvEvents, htodo, Core.propose, passes]
  | elect e =>
    cases hh
    obtain ⟨hmem, hpar, hnn, _⟩ := hloc.recv _ (hrecv ▸ List.mem_cons_self ..)
    exact h.elect hn hloc.elector hmem ⟨hnn, hpar⟩ htodo rfl

/-- The step of one node, seen from the others. -/
theorem elects_setNode {S : Setup} {w w' : World} (h : ∀ j, Elects S w.trace j (w.nodes j))
    {i : Int} {x : Node} (hnodes : ∀ j, w'.nodes j = if j = i then x else w.nodes j)
    {evs : List Event} (htrace : w'.trace = w.trace ++ evs)
    (hother : ∀ j, j ≠ i → (∀ k r, .counted j k r ∉ evs) ∧ ∀ r, evs.countP (isReveal j r) = 0)
    (hx : Elects S w'.trace i x) : ∀ j, Elects S w'.trace j (w'.nodes j) := by
  intro j
  rw [hnodes]
  split
  · subst j
    exact hx
  · rename_i hne
    rw [htrace]
    refine (h j).frame rfl (hother j hne).1 fun r => ?_
    rw [(hother j hne).2 r]
    omega

private theorem elects_step {S : Setup} {w w' : World} {mv : Move} {f : Nat}
    (hn : S.committee.size = 3 * f + 1) (ht : Traffic S w)
    (h : ∀ j, Elects S w.trace j (w.nodes j)) (hs : w.Step S mv w') :
    ∀ j, Elects S w'.trace j (w'.nodes j) := by
  cases hs with
  | @deliver k p hp =>
    refine elects_setNode h (setNode_nodes _ _ · _) (List.append_nil _).symm (by simp) ?_
    rw [setNode_trace, ← List.append_nil w.trace]
    exact (h p.dst).frame rfl (by simp) (by simp)
  | @send i batch dst msg rest hi htodo =>
    have hev : ∀ j k r, Event.counted j k r ∉ sendEvents i msg := by
      cases msg <;> simp [sendEvents]
    have hrev : ∀ j r, (sendEvents i msg).countP (isReveal j r) = 0 := by
      cases msg <;> simp [sendEvents, isReveal]
    refine elects_setNode h (setNode_nodes _ _ · _) rfl (fun j _ => ⟨hev j, hrev j⟩) ?_
    refine (h i).frame rfl (hev i) fun r => ?_
    simp [hrev, htodo, passes]
  | @loop i batch msg rest hi htodo =>
    refine elects_setNode h (setNode_nodes _ _ · _) (List.append_nil _).symm (by simp) ?_
    rw [setNode_trace, ← List.append_nil w.trace]
    refine (h i).frame rfl (by simp) fun r => ?_
    simp [htodo, passes]
  | @dagReq i batch req rest p hi htodo hp =>
    have hev : ∀ j k r, Event.counted j k r ∉ dagEvents i req := by
      cases req <;> simp [dagEvents]
    refine elects_setNode h (setNode_nodes _ _ · _) rfl (fun j hj => ⟨hev j, ?_⟩) ?_
    · intro r
      cases req <;> simp [dagEvents, isReveal, Ne.symm hj]
    · refine (h i).frame rfl (hev i) fun r => ?_
      cases req <;> simp [dagEvents, isReveal, htodo, passes, List.countP_cons, Nat.add_comm]
  | @build i batch height round oldFirstRefH rest ref p hi htodo hpc hp =>
    generalize (w.nodes i).core.buildBlock S.crypto height round oldFirstRefH ref batch = b
    have hev : ∀ j k r, Event.counted j k r ∉ buildEvents i ref b := by
      intro j k r
      unfold buildEvents
      split <;> simp
    have hrev : ∀ j r, (buildEvents i ref b).countP (isReveal j r) = 0 := by
      intro j r
      unfold buildEvents
      split <;> simp [isReveal]
    refine elects_setNode h (setNode_nodes _ _ · _) rfl (fun j _ => ⟨hev j, hrev j⟩) ?_
    refine (h i).frame rfl (hev i) fun r => ?_
    rw [hrev, passes_generateBlock]
    omega
  | @panic i batch msg recvCh hi _ _ _ =>
    refine elects_setNode h (setNode_nodes _ _ · _) (List.append_nil _).symm (by simp) ?_
    rw [setNode_trace, ← List.append_nil w.trace]
    exact (h i).frame rfl (by simp) (by simp)
  | @handle i batch msg recvCh core hi htodo hrecv hh =>
    refine elects_setNode h (setNode_nodes _ _ · _) rfl ?_
      ((h i).handle hn (ht.node i) hrecv htodo hh)
    intro j hj
    cases msg <;> simp [recvEvents, isReveal]
    exact fun _ _ heq => absurd heq hj
  | @pair i act p hi hown hp =>
    have hev : ∀ j k r, Event.counted j k r ∉ pairEvents i (w.nodes i).pair act := by
      intro j k r
      unfold pairEvents
      split
      · split <;> simp
      · simp
    have hrev : ∀ j r, (pairEvents i (w.nodes i).pair act).countP (isReveal j r) = 0 := by
      intro j r
      unfold pairEvents
      split
      · split <;> simp [isReveal]
      · simp
    refine elects_setNode h (setNode_nodes _ _ · _) rfl (fun j _ => ⟨hev j, hrev j⟩) ?_
    refine (h i).frame rfl (hev i) fun r => ?_
    rw [hrev, Nat.zero_add]

/-! ## The discipline -/

/-- A quorum of members has entered a round. -/
def EnteredBy (S : Setup) (tr : List Event) (r : Int) : Prop :=
  ∃ q : List Int, q.Nodup ∧ (∀ j ∈ q, j ∈ S.committee.ids) ∧
    S.committee.hightThreshold ≤ q.length ∧ ∀ j ∈ q, .entered j r ∈ tr

/-- What a reveal says about the time before it. -/
def RevealOk (S : Setup) (pre : List Event) : Event → Prop
  | .revealed _ req => (0 ≤ req.round ∧ req.round % 2 = 0) ∧ EnteredBy S pre (req.round + 1)
  | _ => True

/-- All that the elections of a run rest on. -/
structure Disciplined (S : Setup) (w : World) : Prop where
  traffic : Traffic S w
  chained : ∀ i, Chained S w.trace i (w.nodes i)
  entering : ∀ j, Entering w.trace j
  budget : Budget w
  elects : ∀ i, Elects S w.trace i (w.nodes i)
  reveals : Machine.Always (RevealOk S) w.trace

/-- The authors counted are distinct members that entered the odd round. -/
theorem Disciplined.counters {S : Setup} {w : World} (h : Disciplined S w) (i r : Int) :
    (counters i r w.trace).Nodup ∧ (∀ j ∈ counters i r w.trace, j ∈ S.committee.ids) ∧
      ∀ j ∈ counters i r w.trace, .entered j (r + 1) ∈ w.trace := by
  have hle : ∀ j, w.trace.count (.counted i j r) ≤ w.trace.count (.entered j (r + 1)) := by
    intro j
    have hcopies := h.budget.copies i j r
    unfold World.copies at hcopies
    omega
  refine ⟨List.nodup_iff_count_le_one.mpr fun j => ?_,
    fun j hj => ((h.elects i).members r j hj).1, ?_⟩
  · rw [count_counters]
    exact (hle j).trans ((h.entering j).once (r + 1))
  · intro j hj
    have hpos := List.count_pos_iff.mpr (mem_counters.mp hj)
    exact List.count_pos_iff.mp (hpos.trans_le (hle j))

/-- A reveal rests on a quorum. -/
theorem Disciplined.revealOk {S : Setup} {w : World} (h : Disciplined S w) {i r : Int}
    (hr : 0 < w.trace.countP (isReveal i r) + (w.nodes i).core.todo.countP (passes r)) :
    (0 ≤ r ∧ r % 2 = 0) ∧ EnteredBy S w.trace (r + 1) := by
  obtain ⟨hnodup, hmem, hent⟩ := h.counters i r
  have hquota := (h.elects i).quota r
  have hmul := Nat.le_mul_of_pos_right S.committee.hightThreshold hr
  have hlen : S.committee.hightThreshold ≤ (World.counters i r w.trace).length := by omega
  refine ⟨?_, _, hnodup, hmem, hlen, hent⟩
  have hpos : 0 < (World.counters i r w.trace).length := by
    unfold Committee.hightThreshold at hlen
    omega
  obtain ⟨j, hj⟩ := List.exists_mem_of_length_pos hpos
  exact ((h.elects i).members r j hj).2

/-- A node reveals each round at most once. -/
theorem Disciplined.reveal_once {S : Setup} {w : World} {f : Nat}
    (hn : S.committee.size = 3 * f + 1) (h : Disciplined S w) (i r : Int) :
    w.trace.countP (isReveal i r) ≤ 1 := by
  obtain ⟨hnodup, hmem, _⟩ := h.counters i r
  have hthld := Committee.hightThreshold_eq hn
  have hlen := Committee.length_le hnodup hmem
  have hquota := (h.elects i).quota r
  by_contra hmany
  have hmul : S.committee.hightThreshold * 2 ≤ S.committee.hightThreshold *
      (w.trace.countP (isReveal i r) + (w.nodes i).core.todo.countP (passes r)) :=
    Nat.mul_le_mul_left _ (by omega)
  omega

private theorem entering_step {S : Setup} {w w' : World} {mv : Move} (ht : Traffic S w)
    (hc : ∀ i, Chained S w.trace i (w.nodes i)) (h : ∀ j, Entering w.trace j)
    (hs : w.Step S mv w') : ∀ j, Entering w'.trace j := by
  intro j
  cases hs with
  | deliver | loop | panic => exact h j
  | @send i batch dst msg rest hi htodo =>
    refine (h j).append fun r hr => ?_
    cases msg <;> simp [sendEvents] at hr
  | @dagReq i batch req rest p hi htodo hp =>
    refine (h j).append fun r hr => ?_
    cases req <;> simp [dagEvents] at hr
  | @build i batch height round oldFirstRefH rest ref p hi htodo hpc hp =>
    by_cases hj : j = i
    · subst j
      exact (h i).build (hc i) (ht.node i).nodeID htodo hpc
    · refine (h j).append fun r hr => ?_
      unfold buildEvents at hr
      split at hr <;> simp [hj] at hr
  | @handle i batch msg recvCh core hi htodo hrecv hh =>
    refine (h j).append fun r hr => ?_
    cases msg <;> simp [recvEvents] at hr
  | @pair i act p hi hown hp =>
    refine (h j).append fun r hr => ?_
    unfold pairEvents at hr
    split at hr
    · split at hr <;> simp at hr
    · cases hr

private theorem revealOk_step {S : Setup} {w w' : World} {mv : Move} (h : Disciplined S w)
    (hs : w.Step S mv w') : Machine.Always (RevealOk S) w'.trace := by
  cases hs with
  | deliver | loop | panic => exact h.reveals
  | @send i batch dst msg rest hi htodo =>
    refine h.reveals.append fun e he pre => ?_
    cases msg <;> simp only [sendEvents, List.mem_singleton, List.not_mem_nil] at he <;>
      subst he <;>
      trivial
  | @dagReq i batch req rest p hi htodo hp =>
    cases req with
    | propose | refReq =>
      exact h.reveals.append (by simp [dagEvents])
    | commitReq req =>
      refine h.reveals.concat (h.revealOk (i := i) ?_)
      simp [htodo, passes]
  | @build i batch height round oldFirstRefH rest ref p hi htodo hpc hp =>
    refine h.reveals.append fun e he pre => ?_
    simp only [buildEvents, List.mem_append, List.mem_singleton] at he
    rcases he with he | rfl
    · split at he
      · rw [List.mem_singleton] at he
        subst he
        trivial
      · cases he
    · trivial
  | @handle i batch msg recvCh core hi htodo hrecv hh =>
    refine h.reveals.append fun e he pre => ?_
    cases msg <;> simp only [recvEvents, List.mem_singleton, List.not_mem_nil] at he
    subst he
    trivial
  | @pair i act p hi hown hp =>
    refine h.reveals.append fun e he pre => ?_
    unfold pairEvents at he
    split at he
    · split at he
      · rw [List.mem_singleton] at he
        subst he
        trivial
      · cases he
    · cases he

/-- Nothing has been revealed at the start. -/
theorem disciplined_init (S : Setup) : Disciplined S (init S) :=
  ⟨traffic_init S, chained_init S, fun j => ⟨by simp [init], by simp [init]⟩, budget_init S,
    elects_init S, Machine.always_nil _⟩

/-- Every move keeps the discipline. -/
theorem disciplined_step {S : Setup} {w w' : World} {mv : Move} {f : Nat}
    (hn : S.committee.size = 3 * f + 1) (h : Disciplined S w) (hs : w.Step S mv w') :
    Disciplined S w' :=
  ⟨traffic_step h.traffic hs, chained_step hn h.traffic h.chained hs,
    entering_step h.traffic h.chained h.entering hs, budget_step h.traffic h.budget hs,
    elects_step hn h.traffic h.elects hs, revealOk_step h hs⟩

/-- So it is kept by every run. -/
theorem Reaches.disciplined {S : Setup} {moves : List Move} {w : World} {f : Nat}
    (hn : S.committee.size = 3 * f + 1) (h : Reaches S moves w) : Disciplined S w :=
  Machine.invariant (fun _ _ _ hi hs => disciplined_step hn hi (step_cases hs))
    (disciplined_init S) h

/-- **Election discipline.** Each node sends at most one coin share per round and emits at
most one reveal per round; and every reveal is of an even round `r`, emitted when at least
`2f+1` distinct members have entered round `r + 1`. -/
theorem election_discipline {S : Setup} {moves : List Move} {w : World} {f : Nat}
    (hn : S.committee.size = 3 * f + 1) (h : Reaches S moves w) :
    (∀ i r, w.trace.count (.elected i r) ≤ 1) ∧
    (∀ i r, w.trace.countP (isReveal i r) ≤ 1) ∧
    ∀ pre post i req, w.trace = pre ++ .revealed i req :: post → req.round % 2 = 0 ∧
      ∃ q : List Int, q.Nodup ∧ (∀ j ∈ q, j ∈ S.committee.ids) ∧ 2 * f + 1 ≤ q.length ∧
        ∀ j ∈ q, .entered j (req.round + 1) ∈ pre := by
  have hd := h.disciplined hn
  refine ⟨?_, ?_, ?_⟩
  · intro i r
    have hshared := hd.budget.shared i r
    unfold World.shared at hshared
    have honce := (hd.entering i).once (r + 1)
    omega
  · exact hd.reveal_once hn
  · intro pre post i req htr
    rw [← Committee.hightThreshold_eq hn]
    obtain ⟨hround, hq⟩ := hd.reveals pre _ post htr
    exact ⟨hround.2, hq⟩

/-- Round `0` is revealed once, after three members have entered round `1`. -/
theorem election_discipline_ten_sweeps : ∃ moves w, Reaches fourNodes moves w ∧
    w.trace.countP (isReveal 0 0) = 1 ∧
    ∃ pre post, w.trace = pre ++ .revealed 0 ⟨1, 0⟩ :: post ∧
      ∃ q : List Int, q.Nodup ∧ (∀ j ∈ q, j ∈ fourNodes.committee.ids) ∧ 3 ≤ q.length ∧
        ∀ j ∈ q, .entered j 1 ∈ pre := by
  have hrun := follow_reaches fourNodes (wakeUp ++ repeated 10 sweep)
  have hmem : Event.revealed 0 ⟨1, 0⟩ ∈
      (follow fourNodes (wakeUp ++ repeated 10 sweep)).2.trace := by decide +kernel
  obtain ⟨_, honce, hall⟩ := election_discipline (f := 1) rfl hrun
  obtain ⟨pre, post, htr⟩ := List.append_of_mem hmem
  refine ⟨_, _, hrun, Nat.le_antisymm (honce 0 0) ?_, pre, post, htr, (hall pre post 0 _ htr).2⟩
  exact List.countP_pos_iff.mpr ⟨_, hmem, rfl⟩

end Loom.World
