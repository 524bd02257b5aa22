import Loom.Pair.Anchors
import Loom.Pair.Turns
import Loom.System.Backing
import Loom.System.Liveness
import Loom.Remote.Broadcast

/-!
# Submitted anchors are committed

A block that a node has echoed is in its dag, queued for it or committed. What the commitor asks
for are slots of proposed blocks. So a node that has echoed every proposed block and stands
still, without having panicked and without a circular wait, is not in the middle of a commit: its
watermarks have reached every anchor that it has submitted.
-/

namespace Loom

/-- Without a commit in progress the commitor is idle. -/
theorem Commitor.eq_idle_of_rounds {c : Commitor} (h : c.rounds = []) : c = .idle := by
  cases c with
  | idle => rfl
  | _ => cases h

namespace World

/-! ## Echoed blocks are kept -/

/-- The node is about to push the block, the push is queued, or the block is in the dag unless
it is committed. -/
inductive Got (x : Node) (b : Block) : Prop
  | todo : .dag (.propose b) ∈ x.core.todo → Got x b
  | queued : .core (.propose b) ∈ x.pair.opCh → Got x b
  | kept : (x.pair.dag.mark b.header.slot.author < b.header.slot.height →
      (x.pair.dag.blockAt b.header.slot).isSome = true) → Got x b

/-- A step that leaves the queue and the dag alone. -/
theorem Got.frame {x y : Node} {b : Block} (h : Got x b)
    (htodo : .dag (.propose b) ∈ x.core.todo → .dag (.propose b) ∈ y.core.todo)
    (hop : y.pair.opCh = x.pair.opCh) (hdag : y.pair.dag = x.pair.dag) : Got y b := by
  cases h with
  | todo hmem => exact .todo (htodo hmem)
  | queued hmem => exact .queued (hop ▸ hmem)
  | kept hsome => exact .kept (hdag ▸ hsome)

/-- A step of the dag or the commitor. -/
theorem Got.pair {x : Node} {b : Block} (h : Got x b) {i : Int} {c : Committee}
    (hinv : x.pair.Inv i c) {act : Act} {p : Pair} (hs : x.pair.Step act p) :
    Got { x with pair := p } b := by
  cases h with
  | todo hmem => exact .todo hmem
  | kept hsome =>
    refine .kept fun habove => ?_
    obtain ⟨hlo, hkeeps⟩ := hinv.keeps_block hs habove
    exact hkeeps (hsome hlo)
  | queued hmem =>
    cases hs with
    | send | pull | gc => exact .queued (List.mem_append_left _ hmem)
    | @dag order m rest d pc hpc hop hord hm =>
      rw [hop] at hmem
      rcases List.mem_cons.mp hmem with rfl | hmem
      · refine .kept fun habove => ?_
        dsimp only at habove ⊢
        rcases Dag.handleBlockPushReq_cases hm with ⟨hle, rfl, _⟩ | ⟨hh, l, hl, rfl, _⟩
        · omega
        · rw [Dag.blockAt_store hl hh hh, if_pos rfl]
          rfl
      · exact .queued hmem
    | _ => exact .queued hmem

/-- An echo is sent right before the block is passed to the dag, and what was echoed is kept. -/
structure Echoing (tr : List Event) (i : Int) (x : Node) : Prop where
  next : ∀ dst e, .send dst (.echo e) ∈ x.core.todo → ∃ b, .proposed b ∈ tr ∧
    b.header = e.header ∧ x.core.todo = [.send dst (.echo e), .dag (.propose b)]
  got : ∀ k, .echoed i k ∈ tr → ∃ b, .proposed b ∈ tr ∧ b.header = k ∧ Got x b

private theorem echoing_init (S : Setup) (i : Int) : Echoing [] i (Node.init S.committee i) where
  next := by simp [Node.init, Core.init, Core.propose]
  got := by simp

/-- A step of a node that sends no echo. -/
theorem Echoing.frame {tr tr' : List Event} {i : Int} {x y : Node} (h : Echoing tr i x)
    (hsub : tr ⊆ tr') (hevs : ∀ k, .echoed i k ∈ tr' → .echoed i k ∈ tr)
    (hnext : ∀ dst e, .send dst (.echo e) ∈ y.core.todo → ∃ b, .proposed b ∈ tr' ∧
      b.header = e.header ∧ y.core.todo = [.send dst (.echo e), .dag (.propose b)])
    (hgot : ∀ b, Got x b → Got y b) : Echoing tr' i y where
  next := hnext
  got k hk := by
    obtain ⟨b, hb, heq, hg⟩ := h.got k (hevs k hk)
    exact ⟨b, hsub hb, heq, hgot b hg⟩

/-- After its first operation a core has no echo to send. -/
theorem Echoing.rest {tr : List Event} {i : Int} {x : Node} (h : Echoing tr i x) {act : CoreAct}
    {rest : List CoreAct} (htodo : x.core.todo = act :: rest) (dst : Int) (e : Echo) :
    .send dst (.echo e) ∉ rest := by
  intro hmem
  obtain ⟨b, _, _, heq⟩ := h.next dst e (htodo ▸ List.mem_cons_of_mem _ hmem)
  rw [htodo] at heq
  cases heq
  simp at hmem

/-- What happens elsewhere. -/
theorem Echoing.append {tr evs : List Event} {i : Int} {x : Node} (h : Echoing tr i x)
    (hevs : ∀ k, .echoed i k ∉ evs) : Echoing (tr ++ evs) i x := by
  have hsub : tr ⊆ tr ++ evs := List.subset_append_left ..
  refine h.frame hsub (fun k hk => (List.mem_append.mp hk).resolve_right (hevs k))
    (fun dst e hmem => ?_) fun _ => id
  obtain ⟨b, hb, hrest⟩ := h.next dst e hmem
  exact ⟨b, hsub hb, hrest⟩

/-- A core goes on to its next operation without sending an echo. -/
theorem Echoing.pop {tr tr' : List Event} {i : Int} {x y : Node} (h : Echoing tr i x)
    {act : CoreAct} (htodo : x.core.todo = act :: y.core.todo) (hsub : tr ⊆ tr')
    (hevs : ∀ k, .echoed i k ∈ tr' → .echoed i k ∈ tr) (hgot : ∀ b, Got x b → Got y b) :
    Echoing tr' i y :=
  h.frame hsub hevs (fun dst e hmem => absurd hmem (h.rest htodo dst e)) hgot

/-- The core sends a message. -/
theorem Echoing.send {tr : List Event} {i dst : Int} {x : Node} {msg : NetMessage}
    {rest : List CoreAct} (h : Echoing tr i x) (htodo : x.core.todo = .send dst msg :: rest) :
    Echoing (tr ++ sendEvents i msg) i { x with core := { x.core with todo := rest } } := by
  have hgot : ∀ b, Got x b → Got { x with core := { x.core with todo := rest } } b := by
    refine fun b hb => hb.frame (fun hmem => ?_) rfl rfl
    rw [htodo] at hmem
    exact (List.mem_cons.mp hmem).resolve_left (by simp)
  have hsub : tr ⊆ tr ++ sendEvents i msg := List.subset_append_left ..
  refine ⟨fun dst' e hmem => absurd hmem (h.rest htodo dst' e), fun k hk => ?_⟩
  rcases List.mem_append.mp hk with hk | hk
  · obtain ⟨b, hb, heq, hg⟩ := h.got k hk
    exact ⟨b, hsub hb, heq, hgot b hg⟩
  · cases msg with
    | echo e =>
      cases List.mem_singleton.mp hk
      obtain ⟨b, hb, heq, hall⟩ := h.next dst e (htodo ▸ List.mem_cons_self ..)
      rw [htodo] at hall
      cases hall
      exact ⟨b, hsub hb, heq, .todo (List.mem_singleton.mpr rfl)⟩
    | propose | elect => simp [sendEvents] at hk

/-- The core puts a request into `dagCh`. -/
theorem Got.request {x : Node} {b : Block} (h : Got x b) {req : CoreReq} {rest : List CoreAct}
    {p : Pair} (htodo : x.core.todo = .dag req :: rest) (hs : x.pair.Step (.send req) p) :
    Got { x with core := { x.core with todo := rest }, pair := p } b := by
  cases h with
  | todo hmem =>
    rw [htodo] at hmem
    rcases List.mem_cons.mp hmem with heq | hmem
    · cases heq
      cases hs
      exact .queued (List.mem_append_right _ (List.mem_singleton.mpr rfl))
    · exact .todo hmem
  | queued hmem =>
    cases hs
    exact .queued (List.mem_append_left _ hmem)
  | kept hsome =>
    cases hs
    exact .kept hsome

private theorem echoing_step {S : Setup} {w w' : World} {mv : Move} (ht : Traffic S w)
    (hexp : ∀ i, Expecting (w.nodes i)) (h : ∀ i, Echoing w.trace i (w.nodes i))
    (hs : w.Step S mv w') : ∀ i, Echoing w'.trace i (w'.nodes i) := by
  have hset : ∀ {s : Int} {x : Node} {evs : List Event}, (∀ j k, .echoed j k ∈ evs → j = s) →
      Echoing (w.trace ++ evs) s x →
      ∀ i, Echoing (w.trace ++ evs) i ((w.setNode s x).nodes i) := by
    intro s x evs hevs hx i
    rw [setNode_nodes]
    split
    · rename_i hi
      exact hi ▸ hx
    · rename_i hi
      exact (h i).append fun k hk => hi (hevs i k hk)
  have hquiet : ∀ {s : Int} {x : Node}, Echoing w.trace s x →
      ∀ i, Echoing w.trace i ((w.setNode s x).nodes i) := by
    intro s x hx i
    have hnew := @hset s x [] (by simp) (by rwa [List.append_nil]) i
    rwa [List.append_nil] at hnew
  cases hs with
  | @deliver k p hp =>
    refine hquiet ((h p.dst).frame (List.Subset.refl _) (fun _ => id) (h p.dst).next fun b hb => ?_)
    exact hb.frame id rfl rfl
  | @send s batch dst msg rest hi htodo =>
    refine hset (fun j k hk => ?_) ((h s).send htodo)
    cases msg <;> simp only [sendEvents, List.mem_singleton, List.not_mem_nil, reduceCtorEq] at hk
    exact (Event.echoed.inj hk).1
  | @loop s batch msg rest hi htodo =>
    refine hquiet ((h s).pop htodo (List.Subset.refl _) (fun _ => id) fun b hb => ?_)
    refine hb.frame (fun hmem => ?_) rfl rfl
    rw [htodo] at hmem
    exact (List.mem_cons.mp hmem).resolve_left (by simp)
  | @dagReq s batch req rest p hi htodo hp =>
    have hno : ∀ j k, .echoed j k ∉ dagEvents s req := by cases req <;> simp [dagEvents]
    refine hset (fun j k hk => absurd hk (hno j k)) ?_
    refine (h s).pop htodo (List.subset_append_left ..) (fun k hk => ?_) fun b hb =>
      hb.request htodo (Pair.step_cases hp).2
    exact (List.mem_append.mp hk).resolve_right (hno s k)
  | @build s batch height round oldFirstRefH rest ref p hi htodo hpc hp =>
    have hno : ∀ j k, .echoed j k ∉ buildEvents s ref ((w.nodes s).core.buildBlock S.crypto height
        round oldFirstRefH ref batch) := by
      intro j k
      unfold buildEvents
      split <;> simp
    obtain ⟨shares, hshares, heq⟩ := generateBlock_cases S.crypto (w.nodes s).core height round
      oldFirstRefH ref batch
    refine hset (fun j k hk => absurd hk (hno j k)) ?_
    refine (h s).frame (List.subset_append_left ..)
      (fun k hk => (List.mem_append.mp hk).resolve_right (hno s k)) (fun dst e hmem => ?_)
      fun b hb => ?_
    · dsimp only at hmem
      rw [heq] at hmem
      simp only [List.mem_append, List.mem_cons, List.not_mem_nil, or_false, CoreAct.send.injEq,
        reduceCtorEq, and_false] at hmem
      obtain ⟨e', he | he⟩ := hshares _ hmem <;> simp at he
    · cases (Pair.step_cases hp).2
      refine hb.frame (fun hmem => ?_) rfl rfl
      rcases hexp s _ _ _ (htodo ▸ List.mem_cons_self ..) with hall | ⟨hall, _⟩
      · rw [htodo] at hall
        cases hall
      · rw [hall] at hmem
        simp at hmem
  | @panic s =>
    refine hquiet ((h s).frame (List.Subset.refl _) (fun _ => id) (h s).next fun b hb => ?_)
    exact hb.frame id rfl rfl
  | @handle s batch msg recvCh core hi htodo hrecv hh =>
    have hno : ∀ j k, .echoed j k ∉ recvEvents s msg := by cases msg <;> simp [recvEvents]
    refine hset (fun j k hk => absurd hk (hno j k)) ?_
    refine (h s).frame (List.subset_append_left ..)
      (fun k hk => (List.mem_append.mp hk).resolve_right (hno s k)) (fun dst e hmem => ?_)
      fun b hb => hb.frame (fun hmem => by rw [htodo] at hmem; cases hmem) rfl rfl
    dsimp only at hmem ⊢
    cases msg with
    | propose b =>
      have hb : .proposed b ∈ w.trace :=
        (ht.node s).recv (.propose b) (hrecv ▸ List.mem_cons_self ..)
      rcases Core.handlePropose_cases hh with rfl | rfl
      · rw [htodo] at hmem
        cases hmem
      · simp only [List.mem_cons, CoreAct.send.injEq, NetMessage.echo.injEq, reduceCtorEq,
          List.not_mem_nil, or_false] at hmem
        obtain ⟨rfl, rfl⟩ := hmem
        exact ⟨b, List.mem_append_left _ hb, rfl, rfl⟩
    | echo e' =>
      rcases Core.handleEcho_cases hh with rfl | ⟨_, rfl⟩ | ⟨_, rfl⟩ <;>
        simp [htodo, Core.propose] at hmem
    | elect e' =>
      cases hh
      rcases Core.handleElect_cases S.crypto (w.nodes s).core e' with heq | ⟨_, _, heq, _⟩ <;>
        simp [heq, htodo] at hmem
  | @pair s act p hi hown hp =>
    have hno : ∀ j k, .echoed j k ∉ pairEvents s (w.nodes s).pair act := by
      intro j k
      unfold pairEvents
      split
      · split <;> simp
      · simp
    refine hset (fun j k hk => absurd hk (hno j k)) ?_
    refine (h s).frame (List.subset_append_left ..)
      (fun k hk => (List.mem_append.mp hk).resolve_right (hno s k)) (fun dst e hmem => ?_)
      fun b hb => hb.pair (ht.node s).inv (Pair.step_cases hp).2
    obtain ⟨b, hb, hrest⟩ := (h s).next dst e hmem
    exact ⟨b, List.mem_append_left _ hb, hrest⟩

private theorem Reaches.echoing {S : Setup} {moves : List Move} {w : World}
    (h : Reaches S moves w) : ∀ i, Echoing w.trace i (w.nodes i) :=
  Machine.invariant_reached (P := fun w => ∀ i, Echoing w.trace i (w.nodes i)) (echoing_init S)
    (fun _ _ _ _ hu hi _ hs => echoing_step (Reaches.traffic hu) (Reaches.expecting hu) hi
      (step_cases hs)) (Machine.along_of_forall fun _ _ _ => trivial) h

/-! ## The slots that a commitor asks for -/

/-- Anchors lie two below a proposed block of their leader, and everything else that a commitor
asks for is a reference of a proposed block. -/
theorem Reaches.wanted {S : Setup} {moves : List Move} {w : World} (h : Reaches S moves w) :
    ∀ i, (w.nodes i).pair.Wanted (Ripe w.trace) fun b => .proposed b ∈ w.trace := by
  have hall := h.eachPair (J := fun tr s => s.Throughout (fun b => .proposed b ∈ tr) ∧
      s.Wanted (Ripe tr) fun b => .proposed b ∈ tr)
    (fun i => ⟨Pair.throughout_init _ i _, Pair.wanted_init _ _ i _⟩)
    (fun _ _ _ hsub hJ => ⟨hJ.1.mono fun _ hb => hsub hb,
      hJ.2.mono (fun _ hr => hr.mono hsub) fun _ hb => hsub hb⟩)
    (fun _ _ hJ => ⟨hJ.1.crash, hJ.2.crash⟩) ?_
  · exact fun i => (hall i).2
  · intro tr i s act t hinv hP hJ hs
    have hst := (Pair.step_cases hs).2
    refine ⟨Pair.throughout_step hinv.bounds hJ.1 hP hst, Pair.wanted_step hJ.2 hJ.1 ?_ hst⟩
    intro order m d req hm
    obtain ⟨a, l, k, b, hl, hk, hrest⟩ := Pair.submit_handle hinv.dagSide.cache hm
    exact ⟨b, hJ.1.stored.cache a l k b hl hk, hrest⟩

private theorem Reaches.rooted {S : Setup} {moves : List Move} {w : World} (h : Reaches S moves w) :
    ∀ i, (w.nodes i).pair.Rooted := by
  have hall := h.eachPair (J := fun _ s => s.Closed ∧ s.Rooted)
    (fun i => ⟨Pair.closed_init i _, Pair.rooted_init i _⟩) (fun _ _ _ _ hJ => hJ)
    (fun _ _ hJ => ⟨hJ.1.crash, hJ.2.crash⟩) ?_
  · exact fun i => (hall i).2
  · intro tr i s act t hinv _ hJ hs
    have hst := (Pair.step_cases hs).2
    exact ⟨Pair.closed_step hinv.dagSide hinv.shape hinv.bounds hJ.1 hst,
      Pair.rooted_step hinv.bounds hJ.1 hJ.2 hst⟩

/-- The commitor waits for slots of proposed blocks only. -/
theorem Reaches.proposed_of_waiting {S : Setup} {moves : List Move} {w : World} {f : Nat}
    (hn : S.committee.size = 3 * f + 1) (h : Reaches S moves w) {i : Int} {c : CommitState}
    {head : Slot} {ch : Nat} (hcom : (w.nodes i).pair.com = .waiting c head ch) :
    ∃ b, .proposed b ∈ w.trace ∧ b.header.slot = head := by
  have hw := h.wanted i
  obtain ⟨htaken, hqueue⟩ := hw.queue c (head :: c.q) (by rw [hcom]; rfl)
  rcases hqueue head (List.mem_cons_self ..) with rfl | ⟨b, hb, hr⟩
  · obtain ⟨b₀, _, hb₀, _, hslot, _⟩ := backed_of_ripe (h.chained hn _) (hw.taken _ htaken)
    exact ⟨b₀, hb₀, hslot⟩
  · obtain ⟨k, hk, rfl⟩ := List.mem_map.mp hr
    obtain ⟨pre, post, htr⟩ := List.append_of_mem hb
    obtain ⟨b', hb', rfl⟩ := h.refersBack pre _ post htr k hk
    exact ⟨b', htr ▸ List.mem_append_left _ hb', rfl⟩

/-! ## Nodes that have caught up -/

/-- A node has echoed all blocks that were proposed, and nothing in it moves. -/
structure CaughtUp (w : World) (i : Int) : Prop where
  echoed : ∀ b, .proposed b ∈ w.trace → .echoed i b.header ∈ w.trace
  idle : (w.nodes i).core.todo = []
  rest : (w.nodes i).pair.AtRest

/-- A pair without requests is at rest. -/
theorem atRest_of_idle {s : Pair} (hpc : s.dagPc = .idle) (hop : s.opCh = [])
    (hcom : s.com = .idle) (hsub : s.submitCh = []) : s.AtRest := by
  intro act hact
  cases act <;> simp [Pair.step, hpc, hop, hcom, hsub]
  cases hact

/-- **Submitted anchors are committed.** A node that has echoed all proposed blocks, whose core
has nothing left to do and whose dag and commitor stand still has panicked, or its dag and its
commitor wait for each other, or no commit is in progress and its watermarks have reached every
anchor that it submitted. -/
theorem anchors_committed {S : Setup} {moves : List Move} {w : World} {f : Nat}
    (hn : S.committee.size = 3 * f + 1) (h : Reaches S moves w) {i : Int} (hup : CaughtUp w i) :
    (w.nodes i).pair.crashed = true ∨
    ((w.nodes i).pair.dagBlocked = true ∧ (w.nodes i).pair.comBlocked = true) ∨
    ((w.nodes i).pair.com = .idle ∧ ∀ req ∈ (w.nodes i).pair.submissions,
      req.slot.height ≤ (w.nodes i).pair.dag.mark req.slot.author) := by
  have hinv := (h.traffic.node i).inv
  cases hup.rest.resting hinv.dagSide (h.served i) with
  | crashed hc => exact Or.inl hc
  | circular hd hc => exact Or.inr (Or.inl ⟨hd, hc⟩)
  | @unheard ch b hpc hno =>
    obtain ⟨sent, _, hheard⟩ := h.heard hn i
    obtain ⟨_, c, head, hwait⟩ := hheard.reply ch b hpc
    exact absurd hwait (hno c head)
  | @missing c head ch hpc hop hcom hreg habove habsent =>
    exfalso
    obtain ⟨b, hb, rfl⟩ := h.proposed_of_waiting hn hcom
    obtain ⟨b', hb', heq, hgot⟩ := (h.echoing i).got _ (hup.echoed b hb)
    cases hgot with
    | todo hmem =>
      rw [hup.idle] at hmem
      cases hmem
    | queued hmem =>
      rw [hop] at hmem
      cases hmem
    | kept hsome =>
      rw [heq, habsent] at hsome
      cases hsome habove
  | done hpc hop hcom hsub =>
    refine Or.inr (Or.inr ⟨hcom, fun req hreq => ?_⟩)
    rw [Pair.submissions, hsub, hpc, DagPc.requests_idle, List.append_nil, List.append_nil] at hreq
    rcases (h.rooted i).done req hreq with ⟨c, q, hl, _⟩ | hle | ⟨wm, k, hfly, _⟩
    · rw [hcom] at hl
      cases hl
    · exact hle
    · rcases hfly with ⟨_, _, hex⟩ | ⟨_, hmem⟩
      · rw [hcom] at hex
        cases hex
      · rw [hop] at hmem
        cases hmem

/-- After ten sweeps member `0` has echoed all blocks and committed the anchor of round `0`. -/
theorem anchors_committed_ten_sweeps : ∃ moves w, Reaches fourNodes moves w ∧ CaughtUp w 0 ∧
    ⟨⟨1, 0⟩, 0⟩ ∈ (w.nodes 0).pair.submissions ∧ 0 ≤ (w.nodes 0).pair.dag.mark 1 := by
  obtain ⟨moves, w, hrun, hall, htodo, hpc, hop, hrounds, hsub, hrunning, hmem⟩ :
      ∃ moves w, Reaches fourNodes moves w ∧
        (∀ b ∈ proposals w.trace, Event.echoed 0 b.header ∈ w.trace) ∧
        (w.nodes 0).core.todo.length = 0 ∧ (w.nodes 0).pair.dagPc = .idle ∧
        (w.nodes 0).pair.opCh.length = 0 ∧ (w.nodes 0).pair.com.rounds = [] ∧
        (w.nodes 0).pair.submitCh = [] ∧ (w.nodes 0).pair.crashed = false ∧
        ⟨⟨1, 0⟩, 0⟩ ∈ (w.nodes 0).pair.submissions :=
    ⟨_, _, follow_reaches fourNodes (wakeUp ++ repeated 10 sweep), by decide +kernel⟩
  have hcom := Commitor.eq_idle_of_rounds hrounds
  have hup : CaughtUp w 0 :=
    ⟨fun b hb => hall b (mem_proposals.mpr hb), List.length_eq_zero_iff.mp htodo,
      atRest_of_idle hpc (List.length_eq_zero_iff.mp hop) hcom hsub⟩
  refine ⟨moves, w, hrun, hup, hmem, ?_⟩
  rcases anchors_committed (f := 1) rfl hrun hup with hc | ⟨_, hc⟩ | ⟨_, hmarks⟩
  · rw [hrunning] at hc
    cases hc
  · simp [Pair.comBlocked, hcom] at hc
  · exact hmarks _ hmem

end World

end Loom
