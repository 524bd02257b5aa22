import Loom.System.Deliveries

/-!
# The system does not stop by itself

Messages are not lost: a proposal is on its way to every member until the member echoes it,
and an echo is on its way to the author until the author counts it. If nothing moves any more,
all echoes of all blocks have been counted, and that is more than the quorum that starts the
next proposal. A system without panics, full channels and circular waits therefore never
stops, provided that the members' keys belong together.
-/

namespace Loom

/-- The private key of every member belongs to its public key. -/
def Setup.KeysMatch (S : Setup) : Prop :=
  ∀ i ∈ S.committee.ids, ∀ digest,
    verifySig S.crypto (S.committee.name i) digest (S.crypto.sign i digest) = some true

/-- The message that an operation of the core sends. -/
def CoreAct.message : CoreAct → Option NetMessage
  | .send _ m | .loop m => some m
  | .dag _ | .awaitRef _ _ _ => none

namespace World

/-! ## Nobody waits in vain -/

/-- A core that waits for references has asked for them and will get them, or it is about
to ask. -/
def Expecting (x : Node) : Prop :=
  ∀ h r f, .awaitRef h r f ∈ x.core.todo → x.core.todo = Core.propose h r f ∨
    (x.core.todo = [.awaitRef h r f] ∧
      (refRounds x.pair.opCh ≠ [] ∨ x.pair.dagPc.refs ≠ []))

private theorem expecting_init (c : Committee) (i : Int) : Expecting (Node.init c i) := by
  intro h r f hmem
  simp only [Node.init, Core.init, Core.propose, List.mem_cons, reduceCtorEq, false_or,
    CoreAct.awaitRef.injEq, List.not_mem_nil, or_false] at hmem
  obtain ⟨rfl, rfl, rfl⟩ := hmem
  exact Or.inl rfl

private theorem expecting_of_none {x : Node} (h : ∀ a r f, .awaitRef a r f ∉ x.core.todo) :
    Expecting x := fun a r f hmem => absurd hmem (h a r f)

/-- After another operation the core does not wait for references. -/
theorem Expecting.pop {x : Node} (h : Expecting x) {act : CoreAct} {rest : List CoreAct}
    (htodo : x.core.todo = act :: rest) (hdag : ∀ req, act ≠ .dag req)
    (hact : ∀ a r f, act ≠ .awaitRef a r f) : ∀ a r f, .awaitRef a r f ∉ rest := by
  intro a r f hmem
  rcases h a r f (htodo ▸ List.mem_cons_of_mem _ hmem) with heq | ⟨heq, _⟩
  · rw [htodo, Core.propose, List.cons.injEq] at heq
    exact hdag _ heq.1
  · rw [htodo, List.cons.injEq] at heq
    exact hact _ _ _ heq.1

/-- A step of the dag or the commitor. -/
theorem Expecting.pair {x : Node} (h : Expecting x) {act : Act} {p : Pair}
    (hown : ownAct act = true) (hs : x.pair.Step act p) : Expecting { x with pair := p } := by
  intro a r f hmem
  rcases h a r f hmem with heq | ⟨heq, hasked⟩
  · exact Or.inl heq
  · refine Or.inr ⟨heq, ?_⟩
    dsimp only
    cases hs.refStep with
    | same hq hr _ =>
      rw [hq, hr]
      exact hasked
    | answered _ _ _ _ hr _ _ =>
      rw [hr]
      exact Or.inr (List.cons_ne_nil _ _)
    | asked _ hact =>
      rw [hact] at hown
      cases hown
    | taken hact =>
      rw [hact] at hown
      cases hown

/-- A request of the core. -/
theorem Expecting.send {x : Node} (h : Expecting x) {req : CoreReq} {rest : List CoreAct}
    {p : Pair} (htodo : x.core.todo = .dag req :: rest) (hs : x.pair.Step (.send req) p) :
    Expecting { x with core := { x.core with todo := rest }, pair := p } := by
  intro a r f hmem
  rcases h a r f (htodo ▸ List.mem_cons_of_mem _ hmem) with heq | ⟨heq, _⟩
  · rw [htodo, Core.propose] at heq
    cases heq
    refine Or.inr ⟨rfl, Or.inl ?_⟩
    cases hs
    simp [refRounds]
  · rw [htodo] at heq
    cases heq

/-- A handled message. -/
theorem expecting_handle {x : Node} {cr : Crypto} {msg : NetMessage} {recvCh : List NetMessage}
    {core : Core} (htodo : x.core.todo = []) (hh : x.core.handle cr msg = some core) :
    Expecting { x with core := core, recvCh := recvCh } := by
  cases msg with
  | propose b =>
    apply expecting_of_none
    rcases Core.handlePropose_cases hh with rfl | rfl <;> simp [htodo]
  | echo e =>
    rcases Core.handleEcho_cases hh with rfl | ⟨_, rfl⟩ | ⟨_, rfl⟩
    · exact expecting_of_none (by simp [htodo])
    · exact expecting_of_none (by simp [htodo])
    · intro a r f hmem
      simp only [Core.propose, List.mem_cons, reduceCtorEq, false_or, CoreAct.awaitRef.injEq,
        List.not_mem_nil, or_false] at hmem
      obtain ⟨rfl, rfl, rfl⟩ := hmem
      exact Or.inl rfl
  | elect e =>
    cases hh
    apply expecting_of_none
    rcases Core.handleElect_cases cr x.core e with heq | ⟨_, _, heq, _⟩ <;> simp [heq, htodo]

private theorem expecting_step {S : Setup} {w w' : World} {mv : Move}
    (h : ∀ i, Expecting (w.nodes i)) (hs : w.Step S mv w') : ∀ i, Expecting (w'.nodes i) := by
  have hset : ∀ {k : Int} {x : Node}, Expecting x → ∀ i, Expecting ((w.setNode k x).nodes i) := by
    intro k x hx i
    rw [setNode_nodes]
    split
    · exact hx
    · exact h i
  cases hs with
  | deliver | panic => exact hset (h _)
  | send _ htodo | loop _ htodo =>
    exact hset (expecting_of_none ((h _).pop htodo (by simp) (by simp)))
  | dagReq _ htodo hp => exact hset ((h _).send htodo (Pair.step_cases hp).2)
  | @build s batch height round oldFirstRefH rest ref p hi htodo hpc hp =>
    obtain ⟨shares, hshares, heq⟩ := generateBlock_cases S.crypto (w.nodes s).core height round
      oldFirstRefH ref batch
    refine hset (expecting_of_none fun a r f hmem => ?_)
    dsimp only at hmem
    rw [heq] at hmem
    simp only [List.mem_append, List.mem_cons, reduceCtorEq, List.not_mem_nil, or_false] at hmem
    obtain ⟨e, he | he⟩ := hshares _ hmem <;> cases he
  | handle _ htodo _ hh => exact hset (expecting_handle htodo hh)
  | pair _ hown hp => exact hset ((h _).pair hown (Pair.step_cases hp).2)

/-- No core waits for references that will not come. -/
theorem Reaches.expecting {S : Setup} {moves : List Move} {w : World} (h : Reaches S moves w) :
    ∀ i, Expecting (w.nodes i) :=
  Machine.invariant (P := fun w : World => ∀ i, Expecting (w.nodes i))
    (fun _ _ _ hw hs => expecting_step hw (step_cases hs))
    (fun i => expecting_init S.committee i) h

/-! ## Signatures -/

/-- The signature of a message, if it has one, is accepted. -/
def Signed (S : Setup) : NetMessage → Prop
  | .propose b => b.verify S.crypto S.committee = some true
  | .echo e => e.verify S.crypto S.committee = some true
  | .elect _ => True

/-- All messages under way carry valid signatures. -/
structure Genuine (S : Setup) (w : World) : Prop where
  net : ∀ p ∈ w.net, Signed S p.msg
  recv : ∀ i, ∀ m ∈ (w.nodes i).recvCh, Signed S m
  todo : ∀ i, ∀ act ∈ (w.nodes i).core.todo, ∀ m ∈ act.message, Signed S m

private theorem genuine_init (S : Setup) : Genuine S (init S) where
  net := by simp [init]
  recv := by simp [init, Node.init]
  todo := by simp [init, Node.init, Core.init, Core.propose, CoreAct.message]

/-- A step that replaces one node. -/
theorem Genuine.setNode {S : Setup} {w w' : World} (h : Genuine S w) {s : Int} {x : Node}
    (hnodes : ∀ j, w'.nodes j = if j = s then x else w.nodes j)
    (hnet : ∀ p ∈ w'.net, p ∈ w.net ∨ Signed S p.msg)
    (hrecv : ∀ m ∈ x.recvCh, m ∈ (w.nodes s).recvCh ∨ Signed S m)
    (htodo : ∀ act ∈ x.core.todo, act ∈ (w.nodes s).core.todo ∨ ∀ m ∈ act.message, Signed S m) :
    Genuine S w' where
  net p hp := (hnet p hp).elim (h.net p) id
  recv i m hm := by
    rw [hnodes] at hm
    split at hm
    · exact (hrecv m hm).elim (h.recv s m) id
    · exact h.recv i m hm
  todo i act hact := by
    rw [hnodes] at hact
    split at hact
    · exact (htodo act hact).elim (h.todo s act) id
    · exact h.todo i act hact

private theorem genuine_step {S : Setup} {w w' : World} {mv : Move} (hkeys : S.KeysMatch)
    (ht : Traffic S w) (h : Genuine S w) (hs : w.Step S mv w') : Genuine S w' := by
  have hkeep : ∀ {α : Type} {xs : List α} {P : α → Prop}, ∀ x ∈ xs, x ∈ xs ∨ P x :=
    fun x hx => Or.inl hx
  cases hs with
  | @deliver k p hp =>
    refine h.setNode (setNode_nodes _ _ · _) (fun q hq => Or.inl (List.mem_of_mem_eraseIdx hq)) ?_
      hkeep
    intro m hm
    rcases List.mem_append.mp hm with hm | hm
    · exact Or.inl hm
    · rw [List.mem_singleton] at hm
      subst hm
      exact Or.inr (h.net p (List.mem_of_getElem? hp))
  | @send s batch dst msg rest hi htodo =>
    refine h.setNode (setNode_nodes _ _ · _) ?_ hkeep
      (fun act hact => Or.inl (htodo ▸ List.mem_cons_of_mem _ hact))
    intro p hp
    rcases List.mem_append.mp hp with hp | hp
    · exact Or.inl hp
    · rw [packets_msg hp]
      exact Or.inr (h.todo s _ (htodo ▸ List.mem_cons_self ..) msg rfl)
  | @loop s batch msg rest hi htodo =>
    refine h.setNode (setNode_nodes _ _ · _) hkeep ?_
      (fun act hact => Or.inl (htodo ▸ List.mem_cons_of_mem _ hact))
    intro m hm
    rcases List.mem_append.mp hm with hm | hm
    · exact Or.inl hm
    · rw [List.mem_singleton] at hm
      subst hm
      exact Or.inr (h.todo s _ (htodo ▸ List.mem_cons_self ..) m rfl)
  | @dagReq s batch req rest p hi htodo hp =>
    exact h.setNode (setNode_nodes _ _ · _) hkeep hkeep
      (fun act hact => Or.inl (htodo ▸ List.mem_cons_of_mem _ hact))
  | @build s batch height round oldFirstRefH rest ref p hi htodo hpc hp =>
    refine h.setNode (setNode_nodes _ _ · _) hkeep hkeep fun act hact => Or.inr ?_
    have hsigned : Signed S (.propose ((w.nodes s).core.buildBlock S.crypto height round
        oldFirstRefH ref batch)) := by
      rw [← (ht.node s).nodeID] at hi
      exact hkeys _ hi _
    obtain ⟨shares, hshares, heq⟩ := generateBlock_cases S.crypto (w.nodes s).core height round
      oldFirstRefH ref batch
    dsimp only at hact
    rw [heq] at hact
    simp only [List.mem_append, List.mem_cons, List.not_mem_nil, or_false] at hact
    rcases hact with hact | rfl | rfl
    · obtain ⟨e, rfl | rfl⟩ := hshares act hact <;> simp [CoreAct.message, Signed]
    · simpa [CoreAct.message] using hsigned
    · simpa [CoreAct.message] using hsigned
  | panic => exact h.setNode (setNode_nodes _ _ · _) hkeep hkeep hkeep
  | @handle s batch msg recvCh core hi htodo hrecv hh =>
    refine h.setNode (setNode_nodes _ _ · _) hkeep
      (fun m hm => Or.inl (hrecv ▸ List.mem_cons_of_mem _ hm)) fun act hact => Or.inr ?_
    dsimp only at hact
    cases msg with
    | propose b =>
      rcases Core.handlePropose_cases hh with rfl | rfl
      · rw [htodo] at hact
        cases hact
      · have hsigned : Signed S (.echo (newEcho S.crypto (w.nodes s).core.nodeID b)) := by
          rw [← (ht.node s).nodeID] at hi
          exact hkeys _ hi _
        simp only [List.mem_cons, List.not_mem_nil, or_false] at hact
        rcases hact with rfl | rfl
        · simpa [CoreAct.message] using hsigned
        · simp [CoreAct.message]
    | echo e =>
      rcases Core.handleEcho_cases hh with rfl | ⟨_, rfl⟩ | ⟨_, rfl⟩
      · rw [htodo] at hact
        cases hact
      · rw [htodo] at hact
        cases hact
      · simp only [Core.propose, List.mem_cons, List.not_mem_nil, or_false] at hact
        rcases hact with rfl | rfl <;> simp [CoreAct.message]
    | elect e =>
      cases hh
      rcases Core.handleElect_cases S.crypto (w.nodes s).core e with heq | ⟨_, _, heq, _⟩
      · rw [heq, htodo] at hact
        cases hact
      · rw [heq, List.mem_singleton] at hact
        subst hact
        simp [CoreAct.message]
  | pair => exact h.setNode (setNode_nodes _ _ · _) hkeep hkeep hkeep

/-- With matching keys all signatures are accepted. -/
theorem Reaches.genuine {S : Setup} {moves : List Move} {w : World} (hkeys : S.KeysMatch)
    (h : Reaches S moves w) : Genuine S w :=
  Machine.invariant_reached (P := Genuine S) (genuine_init S)
    (fun _ _ _ _ hu hi _ hs => genuine_step hkeys (Reaches.traffic hu) hi (step_cases hs))
    (Machine.along_of_forall fun _ _ _ => trivial) h

/-! ## Nothing is lost -/

/-- The operation of node `s` that brings a block nearer to the echo of node `k`. -/
def Carries (b : Block) (k s : Int) : CoreAct → Prop
  | .send _ (.propose b') => b' = b ∧ k ≠ s
  | .loop (.propose b') => b' = b ∧ k = s
  | .send _ (.echo e) => e.header = b.header ∧ k = s
  | _ => False

/-- A block is on its way to node `k`, or the node has echoed it. -/
inductive Underway (S : Setup) (w : World) (b : Block) (k : Int) : Prop
  | todo {s a} : s ∈ S.committee.ids → a ∈ (w.nodes s).core.todo → Carries b k s a →
      Underway S w b k
  | net {p} : p ∈ w.net → p.dst = k → p.msg = .propose b → Underway S w b k
  | recv : .propose b ∈ (w.nodes k).recvCh → Underway S w b k
  | echoed : .echoed k b.header ∈ w.trace → Underway S w b k

/-- A step that replaces one node. -/
theorem Underway.setNode {S : Setup} {w w' : World} {b : Block} {k : Int} (h : Underway S w b k)
    {s : Int} {x : Node} (hnodes : ∀ j, w'.nodes j = if j = s then x else w.nodes j)
    (htrace : w.trace ⊆ w'.trace)
    (htodo : ∀ act ∈ (w.nodes s).core.todo, Carries b k s act →
      act ∈ x.core.todo ∨ Underway S w' b k)
    (hnet : ∀ p ∈ w.net, p.dst = k → p.msg = .propose b → p ∈ w'.net ∨ Underway S w' b k)
    (hrecv : k = s → .propose b ∈ (w.nodes s).recvCh →
      .propose b ∈ x.recvCh ∨ Underway S w' b k) : Underway S w' b k := by
  cases h with
  | @todo j act hj' hact hcarries =>
    by_cases hj : j = s
    · subst hj
      rcases htodo act hact hcarries with hkept | hnew
      · exact .todo (s := j) hj' (by rw [hnodes, if_pos rfl]; exact hkept) hcarries
      · exact hnew
    · exact .todo (s := j) hj' (by rw [hnodes, if_neg hj]; exact hact) hcarries
  | @net p hp hdst hmsg => exact (hnet p hp hdst hmsg).elim (.net · hdst hmsg) id
  | recv hmem =>
    by_cases hk : k = s
    · rcases hrecv hk (hk ▸ hmem) with hkept | hnew
      · exact .recv (by rw [hnodes, if_pos hk]; exact hkept)
      · exact hnew
    · exact .recv (by rw [hnodes, if_neg hk]; exact hmem)
  | echoed hmem => exact .echoed (htrace hmem)

private theorem mem_net_eraseIdx {net : List Packet} {j : Nat} {p q : Packet}
    (hp : net[j]? = some p) (hq : q ∈ net) : q ∈ net.eraseIdx j ∨ q = p := by
  obtain ⟨hlt, hget⟩ := List.getElem?_eq_some_iff.mp hp
  rw [← (List.getElem_cons_eraseIdx_perm hlt).mem_iff, hget, List.mem_cons] at hq
  exact hq.symm

/-- A correctly signed proposal is echoed. -/
theorem todo_of_handlePropose {cr : Crypto} {c c' : Core} {b : Block}
    (h : c.handlePropose cr b = some c') (hv : b.verify cr c.committee = some true) :
    c'.todo = [.send b.header.slot.author (.echo (newEcho cr c.nodeID b)), .dag (.propose b)] := by
  simp only [Core.handlePropose, hv] at h
  cases h
  rfl

/-- Every move keeps a block on its way, or it is echoed. -/
theorem Underway.step {S : Setup} {w w' : World} {mv : Move} {b : Block} {k : Int}
    (h : Underway S w b k) (ht : Traffic S w) (hg : Genuine S w) (hsingle : Single w)
    (hexp : ∀ i, Expecting (w.nodes i)) (hk : k ∈ S.committee.ids) (hs : w.Step S mv w') :
    Underway S w' b k := by
  have hsub := hs.trace_grows.subset
  cases hs with
  | @deliver j p hp =>
    refine h.setNode (setNode_nodes _ _ · _) hsub (fun _ hact _ => Or.inl hact) ?_
      fun _ hmem => Or.inl (List.mem_append_left _ hmem)
    intro q hq hdst hmsg
    rcases mem_net_eraseIdx hp hq with hq | rfl
    · exact Or.inl hq
    · refine Or.inr (.recv ?_)
      subst hdst
      simp [← hmsg]
  | @send s batch dst msg rest hi htodo =>
    refine h.setNode (setNode_nodes _ _ · _) hsub ?_
      (fun p hp _ _ => Or.inl (List.mem_append_left _ hp)) fun _ hmem => Or.inl hmem
    intro act hact hcarries
    rw [htodo, List.mem_cons] at hact
    rcases hact with rfl | hact
    · right
      cases msg with
      | propose b' =>
        obtain ⟨rfl, hks⟩ := hcarries
        obtain ⟨rfl, _⟩ := hsingle.own s _ (htodo ▸ List.mem_cons_self ..)
        refine .net (p := ⟨s, k, .propose b'⟩) (List.mem_append_right _ ?_) rfl rfl
        rw [packets, if_pos rfl, List.mem_map]
        exact ⟨k, by simp [Committee.broadCast, hk, hks], rfl⟩
      | echo e =>
        obtain ⟨hh, rfl⟩ := hcarries
        exact .echoed (List.mem_append_right _ (by simp [sendEvents, hh]))
      | elect e => cases hcarries
    · exact Or.inl hact
  | @loop s batch msg rest hi htodo =>
    refine h.setNode (setNode_nodes _ _ · _) hsub ?_ (fun p hp _ _ => Or.inl hp)
      fun _ hmem => Or.inl (List.mem_append_left _ hmem)
    intro act hact hcarries
    rw [htodo, List.mem_cons] at hact
    rcases hact with rfl | hact
    · right
      cases msg with
      | propose b' =>
        obtain ⟨rfl, rfl⟩ := hcarries
        exact .recv (by simp)
      | echo | elect => cases hcarries
    · exact Or.inl hact
  | @dagReq s batch req rest p hi htodo hp =>
    refine h.setNode (setNode_nodes _ _ · _) hsub ?_ (fun p hp _ _ => Or.inl hp)
      fun _ hmem => Or.inl hmem
    intro act hact hcarries
    rw [htodo, List.mem_cons] at hact
    rcases hact with rfl | hact
    · cases hcarries
    · exact Or.inl hact
  | @build s batch height round oldFirstRefH rest ref p hi htodo hpc hp =>
    refine h.setNode (setNode_nodes _ _ · _) hsub ?_ (fun p hp _ _ => Or.inl hp)
      fun _ hmem => Or.inl hmem
    intro act hact hcarries
    rcases hexp s _ _ _ (htodo ▸ List.mem_cons_self ..) with heq | ⟨heq, _⟩
    · rw [htodo] at heq
      cases heq
    · rw [heq, List.mem_singleton] at hact
      subst hact
      cases hcarries
  | panic | pair =>
    exact h.setNode (setNode_nodes _ _ · _) hsub (fun _ hact _ => Or.inl hact)
      (fun p hp _ _ => Or.inl hp) fun _ hmem => Or.inl hmem
  | @handle s batch msg recvCh core hi htodo hrecv hh =>
    refine h.setNode (setNode_nodes _ _ · _) hsub (fun act hact => ?_)
      (fun p hp _ _ => Or.inl hp) fun hks hmem => ?_
    · rw [htodo] at hact
      cases hact
    · rw [hrecv, List.mem_cons] at hmem
      rcases hmem with rfl | hmem
      · right
        have hv : b.verify S.crypto (w.nodes s).core.committee = some true := by
          rw [(ht.node s).committee]
          exact hg.recv s _ (hrecv ▸ List.mem_cons_self ..)
        have heq := todo_of_handlePropose hh hv
        refine .todo (s := s) (a := .send b.header.slot.author
          (.echo (newEcho S.crypto (w.nodes s).core.nodeID b))) hi ?_ ⟨rfl, hks⟩
        simp [heq]
      · exact Or.inl hmem

/-- The echo of a header by node `k` is on its way to the author, or the author has counted
it. -/
inductive Answering (w : World) (b : Header) (k : Int) : Prop
  | net {p e} : p ∈ w.net → p.dst = b.slot.author → p.msg = .echo e → e.author = k →
      e.header = b → Answering w b k
  | recv {e} : .echo e ∈ (w.nodes b.slot.author).recvCh → e.author = k → e.header = b →
      Answering w b k
  | counted {ag} : (w.nodes b.slot.author).core.voteAg.lookup b.slot.height = some ag →
      k ∈ ag.used → Answering w b k

/-- A step that replaces one node. -/
theorem Answering.setNode {w w' : World} {b : Header} {k : Int} (h : Answering w b k) {s : Int}
    {x : Node} (hnodes : ∀ j, w'.nodes j = if j = s then x else w.nodes j)
    (hnet : ∀ p ∈ w.net, p ∈ w'.net ∨ ∀ e, p.dst = b.slot.author → p.msg = .echo e →
      e.author = k → e.header = b → Answering w' b k)
    (hrecv : b.slot.author = s → ∀ e, .echo e ∈ (w.nodes s).recvCh → e.author = k →
      e.header = b → .echo e ∈ x.recvCh ∨ Answering w' b k)
    (hvotes : b.slot.author = s → ∀ ag,
      (w.nodes s).core.voteAg.lookup b.slot.height = some ag → k ∈ ag.used →
      ∃ ag', x.core.voteAg.lookup b.slot.height = some ag' ∧ k ∈ ag'.used) :
    Answering w' b k := by
  cases h with
  | net hp hdst hmsg ha hh =>
    exact (hnet _ hp).elim (.net · hdst hmsg ha hh) fun hnew => hnew _ hdst hmsg ha hh
  | recv hmem ha hh =>
    by_cases hs : b.slot.author = s
    · rcases hrecv hs _ (hs ▸ hmem) ha hh with hkept | hnew
      · exact .recv (by rw [hnodes, if_pos hs]; exact hkept) ha hh
      · exact hnew
    · exact .recv (by rw [hnodes, if_neg hs]; exact hmem) ha hh
  | counted hag hmem =>
    by_cases hs : b.slot.author = s
    · obtain ⟨ag', hag', hmem'⟩ := hvotes hs _ (hs ▸ hag) hmem
      exact .counted (by rw [hnodes, if_pos hs]; exact hag') hmem'
    · exact .counted (by rw [hnodes, if_neg hs]; exact hag) hmem

/-- An aggregator forgets nobody. -/
theorem used_take {M : Type} (ag : Aggregator M) : ag.take.2.used = ag.used := by
  unfold Aggregator.take
  dsimp only
  split <;> rfl

/-- A correctly signed echo is added to the votes of its height. -/
theorem voteAg_of_handleEcho {cr : Crypto} {c c' : Core} {e : Echo}
    (h : c.handleEcho cr e = some c') (hv : e.verify cr c.committee = some true) :
    c'.voteAg = c.voteAg.insert e.header.slot.height (c.votesFor e).take.2 := by
  have hvotes : ((c.voteAg.lookup e.header.slot.height).getD
      (newAggregator c.committee)).push e.author e = c.votesFor e := rfl
  simp only [Core.handleEcho, hv, hvotes] at h
  generalize (c.votesFor e).take = taken at h ⊢
  obtain ⟨votes, ag⟩ := taken
  cases votes <;> cases h <;> rfl

/-- A handled message adds to the votes of the author, and a correctly signed echo is counted. -/
theorem voteAg_handle {cr : Crypto} {c c' : Core} {msg : NetMessage}
    (h : c.handle cr msg = some c') :
    (∀ k ag, c.voteAg.lookup k = some ag →
      ∃ ag', c'.voteAg.lookup k = some ag' ∧ ∀ j ∈ ag.used, j ∈ ag'.used) ∧
    ∀ e, msg = .echo e → e.verify cr c.committee = some true →
      ∃ ag, c'.voteAg.lookup e.header.slot.height = some ag ∧ e.author ∈ ag.used := by
  have hsame : c'.voteAg = c.voteAg → ∀ k ag, c.voteAg.lookup k = some ag →
      ∃ ag', c'.voteAg.lookup k = some ag' ∧ ∀ j ∈ ag.used, j ∈ ag'.used :=
    fun heq k ag hag => ⟨ag, heq ▸ hag, fun _ hj => hj⟩
  cases msg with
  | propose b => rcases Core.handlePropose_cases h with rfl | rfl <;> exact ⟨hsame rfl, by simp⟩
  | elect e =>
    cases h
    refine ⟨hsame ?_, by simp⟩
    rcases Core.handleElect_cases cr c e with heq | ⟨_, _, heq, _⟩ <;> rw [heq]
  | echo e =>
    have hadd : c'.voteAg = c.voteAg.insert e.header.slot.height (c.votesFor e).take.2 →
        (∀ k ag, c.voteAg.lookup k = some ag →
          ∃ ag', c'.voteAg.lookup k = some ag' ∧ ∀ j ∈ ag.used, j ∈ ag'.used) ∧
        ∃ ag, c'.voteAg.lookup e.header.slot.height = some ag ∧ e.author ∈ ag.used := by
      intro heq
      rw [heq]
      refine ⟨fun k ag hag => ?_, _, AList.lookup_insert _, ?_⟩
      · rw [GoMap.lookup_insert_ite]
        split
        · rename_i hk
          refine ⟨_, rfl, fun j hj => ?_⟩
          rw [used_take, Core.votesFor, ← hk, hag, Option.getD_some]
          exact Aggregator.mem_push_used.mpr (Or.inr hj)
        · exact ⟨ag, hag, fun _ hj => hj⟩
      · rw [used_take]
        exact Aggregator.mem_push_used.mpr (Or.inl rfl)
    by_cases hv : e.verify cr c.committee = some true
    · obtain ⟨hold, hnew⟩ := hadd (voteAg_of_handleEcho h hv)
      refine ⟨hold, ?_⟩
      rintro _ heq _
      cases heq
      exact hnew
    · rcases Core.verify_of_handleEcho h with rfl | htrue
      · refine ⟨hsame rfl, ?_⟩
        rintro _ heq htrue
        cases heq
        exact absurd htrue hv
      · exact absurd htrue hv

/-- Every move keeps an echo on its way, or it is counted. -/
theorem Answering.step {S : Setup} {w w' : World} {mv : Move} {b : Header} {k : Int}
    (h : Answering w b k) (ht : Traffic S w) (hg : Genuine S w) (hs : w.Step S mv w') :
    Answering w' b k := by
  have hvotes : ∀ {votes : GoMap Int (Aggregator Echo)}, ∀ ag,
      votes.lookup b.slot.height = some ag → k ∈ ag.used →
      ∃ ag', votes.lookup b.slot.height = some ag' ∧ k ∈ ag'.used :=
    fun ag hag hk => ⟨ag, hag, hk⟩
  cases hs with
  | @deliver j p hp =>
    refine h.setNode (setNode_nodes _ _ · _) (fun q hq => ?_)
      (fun _ _ hmem _ _ => Or.inl (List.mem_append_left _ hmem)) fun _ => hvotes
    rcases mem_net_eraseIdx hp hq with hq | rfl
    · exact Or.inl hq
    · refine Or.inr fun e hdst hmsg ha hh => .recv (e := e) ?_ ha hh
      simp [← hdst, hmsg]
  | send =>
    exact h.setNode (setNode_nodes _ _ · _) (fun p hp => Or.inl (List.mem_append_left _ hp))
      (fun _ _ hmem _ _ => Or.inl hmem) fun _ => hvotes
  | loop =>
    exact h.setNode (setNode_nodes _ _ · _) (fun p hp => Or.inl hp)
      (fun _ _ hmem _ _ => Or.inl (List.mem_append_left _ hmem)) fun _ => hvotes
  | dagReq | build | panic | pair =>
    exact h.setNode (setNode_nodes _ _ · _) (fun p hp => Or.inl hp)
      (fun _ _ hmem _ _ => Or.inl hmem) fun _ => hvotes
  | @handle s batch msg recvCh core hi htodo hrecv hh =>
    obtain ⟨hold, hnew⟩ := voteAg_handle hh
    refine h.setNode (setNode_nodes _ _ · _) (fun p hp => Or.inl hp) ?_ ?_
    · intro hs e hmem ha hb
      rw [hrecv, List.mem_cons] at hmem
      rcases hmem with rfl | hmem
      · right
        have hv : e.verify S.crypto (w.nodes s).core.committee = some true := by
          rw [(ht.node s).committee]
          exact hg.recv s _ (hrecv ▸ List.mem_cons_self ..)
        obtain ⟨ag, hag, hmem⟩ := hnew e rfl hv
        rw [hb] at hag
        exact .counted (by simpa [hs] using hag) (ha ▸ hmem)
      · exact Or.inl hmem
    · intro _ ag hag hk
      obtain ⟨ag', hag', hsub⟩ := hold _ ag hag
      exact ⟨ag', hag', hsub k hk⟩

/-- Every proposal is on its way to every member, and every echo to its author. -/
structure Lossless (S : Setup) (w : World) : Prop where
  proposals : ∀ b, .proposed b ∈ w.trace → ∀ k ∈ S.committee.ids, Underway S w b k
  echoes : ∀ b k, .echoed k b ∈ w.trace → Answering w b k

private theorem lossless_init (S : Setup) : Lossless S (init S) :=
  ⟨by simp [init], by simp [init]⟩

/-- A new block is on its way to everybody. -/
theorem underway_build {S : Setup} {w w' : World} {mv : Move} {b : Block} (hs : w.Step S mv w')
    (hb : .proposed b ∈ w'.trace) (hnew : .proposed b ∉ w.trace) (k : Int) :
    Underway S w' b k := by
  have hnone : ∀ {evs : List Event}, .proposed b ∈ w.trace ++ evs → .proposed b ∈ evs :=
    fun hmem => (List.mem_append.mp hmem).resolve_left hnew
  cases hs with
  | deliver | loop | panic => exact absurd hb hnew
  | @send s batch dst msg rest hi htodo =>
    have hev := hnone hb
    cases msg <;> simp [sendEvents] at hev
  | @dagReq s batch req rest p hi htodo hp =>
    have hev := hnone hb
    cases req <;> simp [dagEvents] at hev
  | @build s batch height round oldFirstRefH rest ref p hi htodo hpc hp =>
    have hev := hnone hb
    simp only [buildEvents, List.mem_append, List.mem_singleton, Event.proposed.injEq] at hev
    have hbuilt := hev.resolve_left (by split <;> simp)
    obtain ⟨shares, _, heq⟩ := generateBlock_cases S.crypto (w.nodes s).core height round
      oldFirstRefH ref batch
    rw [← hbuilt] at heq
    by_cases hk : k = s
    · exact .todo (s := s) (a := .loop (.propose b)) hi (by simp [heq]) ⟨rfl, hk⟩
    · exact .todo (s := s) (a := .send NONE (.propose b)) hi (by simp [heq]) ⟨rfl, hk⟩
  | @handle s batch msg recvCh core hi htodo hrecv hh =>
    have hev := hnone hb
    cases msg <;> simp [recvEvents] at hev
  | pair =>
    have hev := hnone hb
    unfold pairEvents at hev
    split at hev
    · split at hev <;> simp at hev
    · cases hev

/-- A new echo is on its way to the author. -/
theorem answering_send {S : Setup} {w w' : World} {mv : Move} {b : Header} {k : Int}
    (ht : Traffic S w) (hs : w.Step S mv w') (hb : .echoed k b ∈ w'.trace)
    (hnew : .echoed k b ∉ w.trace) : Answering w' b k := by
  have hnone : ∀ {evs : List Event}, .echoed k b ∈ w.trace ++ evs → .echoed k b ∈ evs :=
    fun hmem => (List.mem_append.mp hmem).resolve_left hnew
  cases hs with
  | deliver | loop | panic => exact absurd hb hnew
  | @send s batch dst msg rest hi htodo =>
    have hev := hnone hb
    cases msg with
    | propose | elect => simp [sendEvents] at hev
    | echo e =>
      simp only [sendEvents, List.mem_singleton, Event.echoed.injEq] at hev
      obtain ⟨rfl, rfl⟩ := hev
      obtain ⟨ha, hdst, b', hb', hh⟩ := (ht.node k).todo _ (htodo ▸ List.mem_cons_self ..)
      have hmem : dst ∈ S.committee.ids := by
        rw [hdst, ← hh]
        exact ht.authors b' hb'
      have hne : dst ≠ NONE := by
        have h0 := ((Committee.mem_ids _ _).mp hmem).1
        unfold NONE
        omega
      refine .net (p := ⟨k, dst, .echo e⟩) (List.mem_append_right _ ?_) hdst rfl ha rfl
      rw [packets, if_neg hne, if_pos hmem]
      exact List.mem_singleton.mpr rfl
  | @dagReq s batch req rest p hi htodo hp =>
    have hev := hnone hb
    cases req <;> simp [dagEvents] at hev
  | build =>
    have hev := hnone hb
    unfold buildEvents at hev
    split at hev <;> simp at hev
  | @handle s batch msg recvCh core hi htodo hrecv hh =>
    have hev := hnone hb
    cases msg <;> simp [recvEvents] at hev
  | pair =>
    have hev := hnone hb
    unfold pairEvents at hev
    split at hev
    · split at hev <;> simp at hev
    · cases hev

private theorem lossless_step {S : Setup} {w w' : World} {mv : Move} (ht : Traffic S w)
    (hg : Genuine S w) (hsingle : Single w) (hexp : ∀ i, Expecting (w.nodes i))
    (h : Lossless S w) (hs : w.Step S mv w') : Lossless S w' := by
  refine ⟨fun b hb k hk => ?_, fun b k hb => ?_⟩
  · by_cases hold : .proposed b ∈ w.trace
    · exact (h.proposals b hold k hk).step ht hg hsingle hexp hk hs
    · exact underway_build hs hb hold k
  · by_cases hold : .echoed k b ∈ w.trace
    · exact (h.echoes b k hold).step ht hg hs
    · exact answering_send ht hs hb hold

private theorem Reaches.lossless {S : Setup} {moves : List Move} {w : World} (hkeys : S.KeysMatch)
    (h : Reaches S moves w) : Lossless S w :=
  Machine.invariant_reached (P := Lossless S) (lossless_init S)
    (fun _ _ _ _ hu hi _ hs => lossless_step (Reaches.traffic hu) (Reaches.genuine hkeys hu)
      (Reaches.single hu) (Reaches.expecting hu) hi (step_cases hs))
    (Machine.along_of_forall fun _ _ _ => trivial) h

/-! ## A system at rest -/

/-- A process that will not go on by itself: it has panicked, its core waits for room in its
own receive channel, or its dag and commitor wait for each other. -/
inductive Blocked (x : Node) : Prop
  | crashed : x.pair.crashed = true → Blocked x
  | full {msg rest} : x.core.todo = .loop msg :: rest → recvCap ≤ x.recvCh.length → Blocked x
  | circular : x.pair.dagBlocked = true → x.pair.comBlocked = true → Blocked x

/-- A process that is not blocked has not panicked. -/
theorem running_of_not_blocked {x : Node} (h : ¬ Blocked x) : x.pair.crashed = false := by
  cases hc : x.pair.crashed with
  | true => exact absurd (.crashed hc) h
  | false => rfl

/-- A node that cannot move unless by a call of `Send`, whatever is in flight. -/
structure Stuck (S : Setup) (w : World) (i : Int) : Prop where
  pair : ∀ act, step S ⟨w.nodes, [], w.trace⟩ (.pair i act) = none
  core : ∀ batch, (∀ dst msg rest, (w.nodes i).core.todo ≠ .send dst msg :: rest) →
    step S ⟨w.nodes, [], w.trace⟩ (.core i batch) = none

/-- In every node the dag has registered the pulls that wait for an answer. -/
theorem Reaches.served {S : Setup} {moves : List Move} {w : World} (h : Reaches S moves w) :
    ∀ i, (w.nodes i).pair.crashed = false → (w.nodes i).pair.Served :=
  h.eachPair (J := fun _ s => s.crashed = false → s.Served)
    (fun i _ => Pair.served_init i _) (fun _ _ _ _ hJ => hJ) (fun _ _ _ hc => by cases hc)
    (fun _ _ _ _ _ hinv _ hJ hs hc => by
      obtain ⟨hrunning, hst⟩ := Pair.step_cases hs
      exact Pair.served_step hinv.dagSide hinv.shape (hJ hrunning) hc hst)

section Rest

variable {S : Setup} {moves : List Move} {w : World} {f : Nat} {i : Int}

/-- The dag of a stuck node that is not blocked has no request left. -/
theorem Stuck.dag_idle (hstuck : Stuck S w i) (hn : S.committee.size = 3 * f + 1)
    (h : Reaches S moves w) (hi : i ∈ S.committee.ids) (hno : ¬ Blocked (w.nodes i)) :
    (w.nodes i).pair.dagPc = .idle ∧ (w.nodes i).pair.opCh = [] := by
  have hrunning := running_of_not_blocked hno
  have hrefs : ∀ ref, (w.nodes i).pair.dagPc ≠ .refResp ref := by
    intro ref hpc
    have hmem : ref ∈ (w.nodes i).pair.dagPc.refs := by
      rw [hpc]
      exact List.mem_singleton.mpr rfl
    obtain ⟨a, r, g, htodo, _⟩ := (h.asking i).answered ref hmem
    have hstep := hstuck.core ⟨0, []⟩ (by simp [htodo])
    simp [step, hi, hrunning, htodo, perform, hpc, Pair.step] at hstep
  have hpair : (w.nodes i).pair.AtRest := by
    intro act hact
    cases hown : ownAct act with
    | false =>
      cases act with
      | refResp =>
        simp only [Pair.step, hrunning, Bool.false_eq_true, if_false]
      | send => cases hact
      | dag | submit | reply | take | pull | process | finish | exec | gc => cases hown
    | true =>
      have hstep := hstuck.pair act
      simp only [step, hi, hown, not_true_eq_false, Bool.true_eq_false, or_self, if_false] at hstep
      cases hp : (w.nodes i).pair.step act with
      | none => rfl
      | some p =>
        rw [hp] at hstep
        cases hstep
  cases hpair.resting (h.traffic.node i).inv.dagSide (h.served i) with
  | crashed hc => exact absurd (.crashed hc) hno
  | done hpc hop _ _ => exact ⟨hpc, hop⟩
  | missing hpc hop _ _ _ _ => exact ⟨hpc, hop⟩
  | @unheard ch b hpc hcom =>
    obtain ⟨sent, _, hheard⟩ := h.heard hn i
    obtain ⟨_, c, head, hwait⟩ := hheard.reply ch b hpc
    exact absurd hwait (hcom c head)
  | circular hd hc => exact absurd (.circular hd hc) hno

/-- The core of a stuck node that is neither blocked nor sending has handled everything. -/
theorem Stuck.core_idle (hstuck : Stuck S w i) (hn : S.committee.size = 3 * f + 1)
    (h : Reaches S moves w) (hi : i ∈ S.committee.ids) (hno : ¬ Blocked (w.nodes i))
    (hsend : ∀ dst msg rest, (w.nodes i).core.todo ≠ .send dst msg :: rest) :
    (w.nodes i).core.todo = [] ∧ (w.nodes i).recvCh = [] := by
  obtain ⟨hpc, hop⟩ := hstuck.dag_idle hn h hi hno
  have hrunning := running_of_not_blocked hno
  have hstep := hstuck.core ⟨0, []⟩ hsend
  have hnil : (w.nodes i).core.todo = [] := by
    cases htodo : (w.nodes i).core.todo with
    | nil => rfl
    | cons act rest =>
      cases act with
      | send dst msg => exact absurd htodo (hsend dst msg rest)
      | loop msg =>
        simp only [step, hi, hrunning, htodo, perform, not_true_eq_false, Bool.false_eq_true,
          or_self, if_false, ite_eq_right_iff, reduceCtorEq, imp_false, not_lt] at hstep
        exact absurd (.full htodo hstep) hno
      | dag req => simp [step, hi, hrunning, htodo, perform, Pair.step, hop, opCap] at hstep
      | awaitRef a r g =>
        rcases h.expecting i a r g (htodo ▸ List.mem_cons_self ..) with heq | ⟨_, hq | hr⟩
        · rw [htodo] at heq
          cases heq
        · rw [hop] at hq
          exact absurd rfl hq
        · rw [hpc] at hr
          exact absurd rfl hr
  refine ⟨hnil, ?_⟩
  cases hrecv : (w.nodes i).recvCh with
  | nil => rfl
  | cons msg recvCh =>
    simp only [step, hi, hrunning, hnil, hrecv, not_true_eq_false, Bool.false_eq_true, or_self,
      if_false] at hstep
    split at hstep <;> cases hstep

/-- An idle core has proposed. -/
theorem Chained.last_of_idle {tr : List Event} {x : Node} (h : Chained S tr i x)
    (hidle : x.core.todo = []) : ∃ b, (chain i tr).getLast? = some b := by
  cases hlast : (chain i tr).getLast? with
  | some b => exact ⟨b, rfl⟩
  | none =>
    rcases (h.start (List.getLast?_eq_none_iff.mp hlast)).1 with heq | heq <;>
      rw [hidle] at heq <;> cases heq

/-- **The work is never done.** If the keys of the members match, it cannot be that all cores
have handled everything and nothing is in flight: the last block of member `0` has been echoed
by everybody then, and the echoes make the member propose another one. -/
theorem Reaches.unfinished (h : Reaches S moves w) (hn : S.committee.size = 3 * f + 1)
    (hkeys : S.KeysMatch)
    (hidle : ∀ j ∈ S.committee.ids, (w.nodes j).core.todo = [] ∧ (w.nodes j).recvCh = []) :
    w.net ≠ [] := by
  intro hnet
  have h0 : (0 : Int) ∈ S.committee.ids := (Committee.mem_ids _ _).mpr (by omega)
  have hc := h.chained hn 0
  obtain ⟨b, hb⟩ := hc.last_of_idle (hidle 0 h0).1
  obtain ⟨hmem, hauthor⟩ := mem_chain.mp (List.mem_of_getLast? hb)
  have hheight : b.header.slot.height + 1 = (chain 0 w.trace).length := by
    have hlen : 0 < (chain 0 w.trace).length := List.length_pos_of_mem (List.mem_of_getLast? hb)
    rw [List.getLast?_eq_getElem?] at hb
    rw [hc.linked.slot _ b hb]
    dsimp only
    omega
  have hcounted : ∀ k ∈ S.committee.ids, ∃ ag,
      (w.nodes 0).core.voteAg.lookup b.header.slot.height = some ag ∧ k ∈ ag.used := by
    intro k hk
    have hechoed : .echoed k b.header ∈ w.trace := by
      cases (h.lossless hkeys).proposals b hmem k hk with
      | @todo s act hs hact _ =>
        rw [(hidle s hs).1] at hact
        cases hact
      | net hp =>
        rw [hnet] at hp
        cases hp
      | recv hrecv =>
        rw [(hidle k hk).2] at hrecv
        cases hrecv
      | echoed hev => exact hev
    cases (h.lossless hkeys).echoes b.header k hechoed with
    | net hp =>
      rw [hnet] at hp
      cases hp
    | recv hrecv =>
      rw [hauthor, (hidle 0 h0).2] at hrecv
      cases hrecv
    | @counted ag hag hk =>
      rw [hauthor] at hag
      exact ⟨ag, hag, hk⟩
  obtain ⟨ag, hag, _⟩ := hcounted 0 h0
  have hall : S.committee.ids ⊆ ag.used := by
    intro k hk
    obtain ⟨ag', hag', hmem⟩ := hcounted k hk
    rw [hag] at hag'
    cases hag'
    exact hmem
  have hquorum : S.committee.hightThreshold ≤ ag.used.length := by
    have hle := (List.subperm_of_subset S.committee.nodup_ids hall).length_le
    rw [Committee.length_ids] at hle
    rw [Committee.hightThreshold_eq hn]
    omega
  have hnext := (hc.votes _ ag hag).2.mp hquorum
  rw [begun, (hidle 0 h0).1, hheight] at hnext
  simp [awaits] at hnext

end Rest

/-! ## A run that stops -/

/-- The moves of a node whose commitor stands still and that hears nothing of member `2`. -/
def slowMoves (i : Int) (w : World) : List Move :=
  (answers (w.nodes i).pair ++ requests (w.nodes i).pair).map (.pair i) ++ [.core i ⟨-1, []⟩,
    .deliver (w.net.findIdx fun p => decide (p.src ≠ 2 ∧ p.dst = i))]

/-- The commitors wait until round `2` has been revealed, whose leader is member `2`. Then they
commit round `0`, and at last everything is delivered. -/
def haltRun : List Move × World :=
  Machine.play (fun d w => Machine.settle (step fourNodes) d.1 d.2 w)
    ((List.replicate 12 (fourNodes.committee.ids.map fun i => (slowMoves i, 40))).flatten ++
      fourNodes.committee.ids.map (fun i => (ownMoves i, 60)) ++
      [(fun _ => [.deliver 0], 100)]) (init fourNodes)

/-- **The system can stop**: all members may panic, although all of them are honest. -/
theorem halts : ∃ moves w, Reaches fourNodes moves w ∧ w.net = [] ∧
    ∀ i ∈ fourNodes.committee.ids, (w.nodes i).pair.crashed = true := by
  have hrun : Reaches fourNodes haltRun.1 haltRun.2 :=
    Machine.run_play (fun d w => Machine.run_settle d.1 d.2 w) _ (init fourNodes)
  exact ⟨haltRun.1, haltRun.2, hrun, by decide +kernel⟩

end World

end Loom
