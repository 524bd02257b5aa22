import Loom.System.World
import Loom.Pair.Once

/-!
# Messages in flight

Nothing is forged: every block on its way, in a queue or in a cache was proposed, every
echo comes from a member that sent it for a proposed block and is addressed to the
block's author, and every coin share comes from a member that entered the odd round
after the share's even round.
-/

namespace Loom

namespace Core

/-- What a handled proposal leaves to do. -/
theorem handlePropose_cases {cr : Crypto} {c c' : Core} {block : Block}
    (h : c.handlePropose cr block = some c') :
    c' = c ∨ c' = { c with
      todo := [.send block.header.slot.author (.echo (newEcho cr c.nodeID block)),
        .dag (.propose block)] } := by
  unfold handlePropose at h
  obtain ⟨v, _, h⟩ := Option.bind_eq_some_iff.mp h
  cases v <;> cases h
  · exact Or.inl rfl
  · exact Or.inr rfl

/-- The aggregator of an echo's height with the echo added. -/
def votesFor (c : Core) (echo : Echo) : Aggregator Echo :=
  ((c.voteAg.lookup echo.header.slot.height).getD (newAggregator c.committee)).push echo.author echo

/-- What a handled echo changes: below the quorum it is added to its height's aggregator,
and on a quorum the next proposal starts as well. -/
theorem handleEcho_cases {cr : Crypto} {c c' : Core} {echo : Echo}
    (h : c.handleEcho cr echo = some c') : c' = c ∨
      ((c.votesFor echo).take.1 = none ∧ c' = { c with
        voteAg := c.voteAg.insert echo.header.slot.height (c.votesFor echo).take.2 }) ∨
      (∃ msgs, (c.votesFor echo).take.1 = some msgs) ∧ c' = { c with
        voteAg := c.voteAg.insert echo.header.slot.height (c.votesFor echo).take.2
        todo := propose (echo.header.slot.height + 1) echo.header.round
          echo.header.firstRefH } := by
  unfold handleEcho at h
  obtain ⟨v, _, h⟩ := Option.bind_eq_some_iff.mp h
  cases v with
  | false =>
    cases h
    exact Or.inl rfl
  | true =>
    refine Or.inr ?_
    have hvotes : ((c.voteAg.lookup echo.header.slot.height).getD
        (newAggregator c.committee)).push echo.author echo = c.votesFor echo := rfl
    simp only [ite_true, hvotes] at h
    generalize (c.votesFor echo).take = taken at h ⊢
    obtain ⟨votes, ag⟩ := taken
    cases votes with
    | none =>
      cases h
      exact Or.inl ⟨rfl, rfl⟩
    | some msgs =>
      cases h
      exact Or.inr ⟨⟨msgs, rfl⟩, rfl⟩

/-- An echo with a wrong signature changes nothing. -/
theorem verify_of_handleEcho {cr : Crypto} {c c' : Core} {echo : Echo}
    (h : c.handleEcho cr echo = some c') : c' = c ∨ echo.verify cr c.committee = some true := by
  unfold handleEcho at h
  obtain ⟨v, hv, h⟩ := Option.bind_eq_some_iff.mp h
  cases v with
  | false =>
    cases h
    exact Or.inl rfl
  | true => exact Or.inr hv

/-- The aggregator of the coin shares of a round. -/
def sharesOf (c : Core) (round : Int) : Aggregator Elect :=
  (c.eletor.ag.lookup round).getD (newAggregator c.eletor.committee)

/-- The aggregator of an elect message's round with the message added. -/
def sharesWith (c : Core) (elect : Elect) : Aggregator Elect :=
  (c.sharesOf elect.round).push elect.author elect

/-- The shares after an elect message has been added. -/
def addShare (c : Core) (elect : Elect) : GoMap Int (Aggregator Elect) :=
  c.eletor.ag.insert elect.round (c.sharesWith elect).take.2

/-- `Add` in terms of the shares of the message's round. -/
theorem eletor_add (cr : Crypto) (c : Core) (elect : Elect) :
    c.eletor.add cr elect = match (c.sharesWith elect).take.1 with
      | none => ({ c.eletor with ag := c.addShare elect }, true)
      | some msgs => match cr.recover (msgs.map (·.sigShare)) (electHash cr elect.round) with
        | none => ({ c.eletor with ag := c.addShare elect }, false)
        | some sig => (⟨c.eletor.leader.insert elect.round (c.eletor.reveal sig),
            c.addShare elect, c.eletor.committee⟩, true) := rfl

/-- A coin share that completes a signature. -/
theorem handleElect_of_recover {cr : Crypto} {c : Core} {elect : Elect} {msgs : List Elect}
    {sig : Bytes} (htake : (c.sharesWith elect).take.1 = some msgs)
    (hrec : cr.recover (msgs.map (·.sigShare)) (electHash cr elect.round) = some sig) :
    c.handleElect cr elect = { c with
      eletor := ⟨(c.eletor.leader.insert elect.round (c.eletor.reveal sig)).erase elect.round,
        (c.addShare elect).erase elect.round, c.eletor.committee⟩
      todo := [.dag (.commitReq ⟨c.eletor.reveal sig, elect.round⟩)] } := by
  unfold handleElect
  rw [eletor_add, htake]
  dsimp only
  rw [hrec]
  dsimp only [Elector.tryGetLeader]
  rw [if_pos rfl, AList.lookup_insert]
  rfl

/-- What a handled coin share changes: it is added to the shares of its round, or all of
them are forgotten and the leader is passed to the dag. -/
theorem handleElect_cases (cr : Crypto) (c : Core) (elect : Elect) :
    c.handleElect cr elect =
      { c with eletor := { c.eletor with ag := c.addShare elect } } ∨
    ∃ leaders leader,
      c.handleElect cr elect = { c with
        eletor := ⟨leaders.erase elect.round, (c.addShare elect).erase elect.round,
          c.eletor.committee⟩
        todo := [.dag (.commitReq ⟨leader, elect.round⟩)] } ∧
      (leaders = c.eletor.leader ∧ c.eletor.leader.lookup elect.round = some leader ∨
        leaders = c.eletor.leader.insert elect.round leader ∧
          ∃ msgs sig, (c.sharesWith elect).take.1 = some msgs ∧
            cr.recover (msgs.map (·.sigShare)) (electHash cr elect.round) = some sig ∧
            leader = c.eletor.reveal sig) := by
  unfold handleElect
  cases htake : (c.sharesWith elect).take.1 with
  | none =>
    rw [eletor_add, htake]
    dsimp only [Elector.tryGetLeader]
    rw [if_pos rfl]
    split
    · exact Or.inl rfl
    · exact Or.inr ⟨_, _, rfl, Or.inl ⟨rfl, ‹_›⟩⟩
  | some msgs =>
    cases hrec : cr.recover (msgs.map (·.sigShare)) (electHash cr elect.round) with
    | none =>
      rw [eletor_add, htake]
      dsimp only
      rw [hrec]
      exact Or.inl rfl
    | some sig =>
      exact Or.inr ⟨_, _, handleElect_of_recover htake hrec,
        Or.inr ⟨rfl, msgs, sig, rfl, hrec, rfl⟩⟩

end Core

namespace World

/-- A message on its way to `dst` or in its `recvCh`. -/
def Sent (S : Setup) (tr : List Event) (dst : Int) : NetMessage → Prop
  | .propose b => .proposed b ∈ tr
  | .echo e => e.author ∈ S.committee.ids ∧ e.header.slot.author = dst ∧
      .echoed e.author e.header ∈ tr ∧ ∃ b, .proposed b ∈ tr ∧ b.header = e.header
  | .elect e => e.author ∈ S.committee.ids ∧ e.round % 2 = 0 ∧ 0 ≤ e.round ∧
      .entered e.author (e.round + 1) ∈ tr

/-- A channel operation that the core of node `i` still has to perform. -/
def Due (tr : List Event) (i : Int) : CoreAct → Prop
  | .send dst (.echo e) => e.author = i ∧ dst = e.header.slot.author ∧
      ∃ b, .proposed b ∈ tr ∧ b.header = e.header
  | .send dst (.elect e) => dst = NONE ∧ e.author = i ∧ e.round % 2 = 0 ∧ 0 ≤ e.round ∧
      .entered i (e.round + 1) ∈ tr
  | .loop (.elect e) => e.author = i ∧ e.round % 2 = 0 ∧ 0 ≤ e.round ∧
      .entered i (e.round + 1) ∈ tr
  | .send dst (.propose b) => dst = NONE ∧ .proposed b ∈ tr
  | .loop (.propose b) | .dag (.propose b) => .proposed b ∈ tr
  | .loop (.echo _) => False
  | .dag _ | .awaitRef _ _ _ => True

/-- What was sent stays sent. -/
theorem Sent.mono {S : Setup} {tr tr' : List Event} {dst : Int} {msg : NetMessage}
    (h : Sent S tr dst msg) (hsub : tr ⊆ tr') : Sent S tr' dst msg := by
  cases msg with
  | propose b => exact hsub h
  | echo e =>
    obtain ⟨ha, hd, he, b, hb, hh⟩ := h
    exact ⟨ha, hd, hsub he, b, hsub hb, hh⟩
  | elect e =>
    obtain ⟨ha, hpar, hnn, hent⟩ := h
    exact ⟨ha, hpar, hnn, hsub hent⟩

/-- What is due stays due. -/
theorem Due.mono {tr tr' : List Event} {i : Int} {act : CoreAct} (h : Due tr i act)
    (hsub : tr ⊆ tr') : Due tr' i act := by
  cases act with
  | send dst msg =>
    cases msg with
    | propose b => exact ⟨h.1, hsub h.2⟩
    | echo e =>
      obtain ⟨ha, hd, b, hb, hh⟩ := h
      exact ⟨ha, hd, b, hsub hb, hh⟩
    | elect e =>
      obtain ⟨hd, ha, hpar, hnn, hent⟩ := h
      exact ⟨hd, ha, hpar, hnn, hsub hent⟩
  | loop msg =>
    cases msg with
    | propose b => exact hsub h
    | echo e => exact h
    | elect e =>
      obtain ⟨ha, hpar, hnn, hent⟩ := h
      exact ⟨ha, hpar, hnn, hsub hent⟩
  | dag req =>
    cases req with
    | propose b => exact hsub h
    | refReq | commitReq => trivial
  | awaitRef => trivial

/-- The messages of one node and what its dag holds. -/
structure Local (S : Setup) (tr : List Event) (i : Int) (x : Node) : Prop where
  recv : ∀ m ∈ x.recvCh, Sent S tr i m
  todo : ∀ act ∈ x.core.todo, Due tr i act
  stored : x.pair.Stored fun b => .proposed b ∈ tr
  inv : x.pair.Inv i S.committee
  nodeID : x.core.nodeID = i
  committee : x.core.committee = S.committee
  elector : x.core.eletor.committee = S.committee

/-- A longer trace accounts for more. -/
theorem Local.mono {S : Setup} {tr tr' : List Event} {i : Int} {x : Node} (h : Local S tr i x)
    (hsub : tr ⊆ tr') : Local S tr' i x where
  recv m hm := (h.recv m hm).mono hsub
  todo act ha := (h.todo act ha).mono hsub
  stored := h.stored.mono fun _ hb => hsub hb
  inv := h.inv
  nodeID := h.nodeID
  committee := h.committee
  elector := h.elector

/-- Nothing in the system is forged. -/
structure Traffic (S : Setup) (w : World) : Prop where
  net : ∀ p ∈ w.net, p.dst ∈ S.committee.ids ∧ Sent S w.trace p.dst p.msg
  node : ∀ i, Local S w.trace i (w.nodes i)
  authors : ∀ b, .proposed b ∈ w.trace → b.header.slot.author ∈ S.committee.ids

/-- At the start nothing is on its way. -/
theorem traffic_init (S : Setup) : Traffic S (init S) where
  net := by simp [init]
  node i :=
    { recv := by simp [init, Node.init]
      todo := by simp [init, Node.init, Core.init, Core.propose, Due]
      stored := Pair.stored_init _ _ _
      inv := Pair.inv_init _ _
      nodeID := rfl
      committee := rfl
      elector := rfl }
  authors := by simp [init]

/-- A step of the pair keeps what its dag holds. -/
theorem Local.pairStep {S : Setup} {tr : List Event} {i : Int} {x : Node} (h : Local S tr i x)
    {act : Act} {p : Pair} (hp : x.pair.step act = some p)
    (hpush : ∀ b, act = .send (.propose b) → .proposed b ∈ tr) :
    p.Stored (fun b => .proposed b ∈ tr) ∧ p.Inv i S.committee :=
  ⟨Pair.stored_step h.stored hpush (Pair.step_cases hp).2, h.inv.step hp⟩

/-- Replacing one node and extending the trace. -/
theorem Traffic.setNode {S : Setup} {w w' : World} (h : Traffic S w) {i : Int} {x : Node}
    (hnodes : ∀ j, w'.nodes j = if j = i then x else w.nodes j) (hsub : w.trace ⊆ w'.trace)
    (hx : Local S w'.trace i x)
    (hnet : ∀ p ∈ w'.net, p ∈ w.net ∨ p.dst ∈ S.committee.ids ∧ Sent S w'.trace p.dst p.msg)
    (hauth : ∀ b, .proposed b ∈ w'.trace →
      .proposed b ∈ w.trace ∨ b.header.slot.author ∈ S.committee.ids) : Traffic S w' where
  net p hp := by
    rcases hnet p hp with hold | hnew
    · obtain ⟨hd, hs⟩ := h.net p hold
      exact ⟨hd, hs.mono hsub⟩
    · exact hnew
  node j := by
    rw [hnodes]
    split
    · subst j
      exact hx
    · exact (h.node j).mono hsub
  authors b hb := by
    rcases hauth b hb with hold | hnew
    · exact h.authors b hold
    · exact hnew

/-- The packets of one send are sound if what was due is. -/
theorem sent_of_due {S : Setup} {tr : List Event} {i dst : Int} {msg : NetMessage}
    (hi : i ∈ S.committee.ids) (hdue : Due tr i (.send dst msg))
    (hauth : ∀ b, .proposed b ∈ tr → b.header.slot.author ∈ S.committee.ids) :
    ∀ p ∈ packets S i dst msg, p.dst ∈ S.committee.ids ∧
      Sent S (tr ++ sendEvents i msg) p.dst p.msg := by
  intro p hp
  have hdst : p.dst ∈ S.committee.ids ∧ p.msg = msg ∧ (dst ≠ NONE → p.dst = dst) := by
    unfold packets at hp
    split at hp
    · obtain ⟨d, hd, rfl⟩ := List.mem_map.mp hp
      exact ⟨List.mem_of_mem_filter hd, rfl, fun hne => absurd ‹_› hne⟩
    · split at hp
      · rw [List.mem_singleton] at hp
        subst hp
        exact ⟨‹_›, rfl, fun _ => rfl⟩
      · cases hp
  obtain ⟨hd, hmsg, hto⟩ := hdst
  refine ⟨hd, ?_⟩
  rw [hmsg]
  cases msg with
  | propose b => exact List.mem_append_left _ hdue.2
  | echo e =>
    obtain ⟨rfl, hdst, b, hb, hh⟩ := hdue
    have hne : dst ≠ NONE := by
      have hmem := hauth b hb
      rw [Committee.mem_ids, hh, ← hdst] at hmem
      unfold NONE
      omega
    refine ⟨hi, by rw [← hdst, hto hne], ?_, b, List.mem_append_left _ hb, hh⟩
    exact List.mem_append_right _ (List.mem_singleton.mpr rfl)
  | elect e =>
    obtain ⟨_, rfl, hpar, hnn, hent⟩ := hdue
    exact ⟨hi, hpar, hnn, List.mem_append_left _ hent⟩

private theorem tmod_two_eq_one {r : Int} (h : r.tmod 2 = 1) : r % 2 = 1 ∧ 1 ≤ r := by
  rw [Int.tmod_eq_emod] at h
  split at h <;> omega

/-- The operations that a built block leaves to do. -/
theorem due_generateBlock (cr : Crypto) (c : Core) (height round oldFirstRefH : Int)
    (ref : List Header) (batch : Batch) (tr : List Event) :
    ∀ act ∈ c.generateBlock cr height round oldFirstRefH ref batch,
      Due (tr ++ buildEvents c.nodeID ref (c.buildBlock cr height round oldFirstRefH ref batch))
        c.nodeID act := by
  intro act hact
  have hprop : Event.proposed (c.buildBlock cr height round oldFirstRefH ref batch) ∈
      tr ++ buildEvents c.nodeID ref (c.buildBlock cr height round oldFirstRefH ref batch) := by
    simp [buildEvents]
  simp only [Core.generateBlock, List.mem_append, List.mem_cons, List.not_mem_nil, or_false] at hact
  rcases hact with hact | rfl | rfl
  · split at hact
    · rename_i hopen
      obtain ⟨hpar, hpos⟩ := tmod_two_eq_one hopen.2
      have hent : Event.entered c.nodeID (Core.nextRound round ref) ∈
          tr ++ buildEvents c.nodeID ref (c.buildBlock cr height round oldFirstRefH ref batch) := by
        simp [buildEvents, hopen.1, Core.buildBlock]
      have helect : ∀ e, newElectMsg cr c.nodeID (Core.nextRound round ref - 1) = some e →
          e.author = c.nodeID ∧ e.round % 2 = 0 ∧ 0 ≤ e.round ∧
            Event.entered c.nodeID (e.round + 1) ∈ tr ++ buildEvents c.nodeID ref
              (c.buildBlock cr height round oldFirstRefH ref batch) := by
        intro e he
        obtain ⟨share, _, rfl⟩ := Option.map_eq_some_iff.mp he
        refine ⟨rfl, by dsimp only; omega, by dsimp only; omega, ?_⟩
        simpa using hent
      unfold Core.invokeElect at hact
      split at hact
      · cases hact
      · rename_i e he
        simp only [List.mem_cons, List.not_mem_nil, or_false] at hact
        rcases hact with rfl | rfl
        · exact ⟨rfl, helect e he⟩
        · exact helect e he
    · cases hact
  · exact ⟨rfl, hprop⟩
  · exact hprop

/-- A handled message leaves sound operations. -/
theorem Local.handle {S : Setup} {tr : List Event} {i : Int} {x : Node} (h : Local S tr i x)
    {msg : NetMessage} {recvCh : List NetMessage} {core : Core} (hrecv : x.recvCh = msg :: recvCh)
    (hh : x.core.handle S.crypto msg = some core) :
    Local S tr i { x with core := core, recvCh := recvCh } := by
  have hmsg := h.recv msg (hrecv ▸ List.mem_cons_self ..)
  have hrest : ∀ m ∈ recvCh, Sent S tr i m := fun m hm =>
    h.recv m (hrecv ▸ List.mem_cons_of_mem _ hm)
  cases msg with
  | propose b =>
    rcases Core.handlePropose_cases hh with rfl | rfl
    · exact { h with recv := hrest }
    · refine { h with recv := hrest, todo := ?_ }
      intro act hact
      simp only [List.mem_cons, List.not_mem_nil, or_false] at hact
      rcases hact with rfl | rfl
      · exact ⟨h.nodeID, rfl, b, hmsg, rfl⟩
      · exact hmsg
  | echo e =>
    rcases Core.handleEcho_cases hh with rfl | ⟨_, rfl⟩ | ⟨_, rfl⟩
    · exact { h with recv := hrest }
    · exact { h with recv := hrest }
    · refine { h with recv := hrest, todo := ?_ }
      intro act hact
      simp only [Core.propose, List.mem_cons, List.not_mem_nil, or_false] at hact
      rcases hact with rfl | rfl <;> trivial
  | elect e =>
    cases hh
    rcases Core.handleElect_cases S.crypto x.core e with heq | ⟨_, l, heq, _⟩
    · rw [heq]
      exact { h with recv := hrest }
    · rw [heq]
      refine { h with recv := hrest, todo := ?_ }
      intro act hact
      rw [List.mem_singleton] at hact
      subst hact
      trivial

/-- Another message in the channel of a node. -/
theorem Local.receive {S : Setup} {tr : List Event} {i : Int} {x : Node} (h : Local S tr i x)
    {msg : NetMessage} (hmsg : Sent S tr i msg) :
    Local S tr i { x with recvCh := x.recvCh ++ [msg] } := by
  refine { h with recv := fun m hm => ?_ }
  rcases List.mem_append.mp hm with hm | hm
  · exact h.recv m hm
  · rw [List.mem_singleton] at hm
    subst hm
    exact hmsg

/-- One operation less to perform. -/
theorem Local.pop {S : Setup} {tr : List Event} {i : Int} {x : Node} (h : Local S tr i x)
    {act : CoreAct} {rest : List CoreAct} (htodo : x.core.todo = act :: rest) :
    Local S tr i { x with core := { x.core with todo := rest } } :=
  { h with todo := fun act' hact => h.todo act' (htodo ▸ List.mem_cons_of_mem _ hact) }

/-- A node's own message arrives as it is due. -/
theorem sent_of_loop {S : Setup} {tr : List Event} {i : Int} {msg : NetMessage}
    (hi : i ∈ S.committee.ids) (hdue : Due tr i (.loop msg)) : Sent S tr i msg := by
  cases msg with
  | propose b => exact hdue
  | echo e => exact hdue.elim
  | elect e =>
    obtain ⟨rfl, hpar, hnn, hent⟩ := hdue
    exact ⟨hi, hpar, hnn, hent⟩

private theorem Step.core_mem {S : Setup} {w w' : World} {i : Int} {batch : Batch}
    (hs : w.Step S (.core i batch) w') : i ∈ S.committee.ids := by
  cases hs <;> assumption

/-- A member proposes blocks as their author. -/
theorem Traffic.author_of_step {S : Setup} {w w' : World} {mv : Move} (h : Traffic S w)
    (hs : w.Step S mv w') (b : Block) (hb : .proposed b ∈ w'.trace) :
    .proposed b ∈ w.trace ∨ b.header.slot.author ∈ S.committee.ids := by
  rcases hs.proposed_cases hb with hold | ⟨i, batch, _, _, _, _, _, rfl, _, _, rfl⟩
  · exact Or.inl hold
  · refine Or.inr ?_
    simp only [Core.buildBlock, newBlock_header, (h.node i).nodeID]
    exact hs.core_mem

/-- Every move keeps the traffic sound. -/
theorem traffic_step {S : Setup} {w w' : World} {mv : Move} (h : Traffic S w)
    (hs : w.Step S mv w') : Traffic S w' := by
  have hsub : w.trace ⊆ w'.trace := hs.trace_grows.subset
  have hauth := h.author_of_step hs
  cases hs with
  | @deliver k p hp =>
    obtain ⟨_, hsent⟩ := h.net p (List.mem_of_getElem? hp)
    exact h.setNode (setNode_nodes _ _ · _) hsub ((h.node p.dst).receive hsent)
      (fun q hq => Or.inl (List.mem_of_mem_eraseIdx hq)) hauth
  | @send i batch dst msg rest hi htodo =>
    have hdue := (h.node i).todo _ (htodo ▸ List.mem_cons_self ..)
    refine h.setNode (setNode_nodes _ _ · _) hsub (((h.node i).mono hsub).pop htodo) ?_ hauth
    intro p hp
    rcases List.mem_append.mp hp with hp | hp
    · exact Or.inl hp
    · exact Or.inr (sent_of_due hi hdue h.authors p hp)
  | @loop i batch msg rest hi htodo =>
    have hdue := (h.node i).todo _ (htodo ▸ List.mem_cons_self ..)
    exact h.setNode (setNode_nodes _ _ · _) hsub
      (((h.node i).pop htodo).receive (sent_of_loop hi hdue)) (fun q hq => Or.inl hq) hauth
  | @dagReq i batch req rest p hi htodo hp =>
    have hloc := (h.node i).mono hsub
    have hdue := hloc.todo _ (htodo ▸ List.mem_cons_self ..)
    obtain ⟨hst, hinv⟩ := hloc.pairStep hp (by
      rintro b he
      cases he
      exact hdue)
    exact h.setNode (setNode_nodes _ _ · _) hsub
      { hloc.pop htodo with stored := hst, inv := hinv } (fun q hq => Or.inl hq) hauth
  | @build i batch height round oldFirstRefH rest ref p hi htodo hpc hp =>
    have hloc := (h.node i).mono hsub
    obtain ⟨hst, hinv⟩ := hloc.pairStep hp (by simp)
    have hdue := due_generateBlock S.crypto (w.nodes i).core height round oldFirstRefH ref batch
      w.trace
    rw [hloc.nodeID] at hdue
    exact h.setNode (setNode_nodes _ _ · _) hsub
      { hloc with todo := hdue, stored := hst, inv := hinv } (fun q hq => Or.inl hq) hauth
  | @panic i batch msg recvCh hi _ _ _ =>
    have hloc := h.node i
    exact h.setNode (setNode_nodes _ _ · _) hsub
      { hloc with stored := hloc.stored.crash, inv := hloc.inv.crash } (fun q hq => Or.inl hq) hauth
  | @handle i batch msg recvCh core hi _ hrecv hh =>
    exact h.setNode (setNode_nodes _ _ · _) hsub (((h.node i).mono hsub).handle hrecv hh)
      (fun q hq => Or.inl hq) hauth
  | @pair i act p hi hown hp =>
    have hloc := (h.node i).mono hsub
    obtain ⟨hst, hinv⟩ := hloc.pairStep hp (by
      rintro b rfl
      cases hown)
    exact h.setNode (setNode_nodes _ _ · _) hsub { hloc with stored := hst, inv := hinv }
      (fun q hq => Or.inl hq) hauth

/-- So it is sound after every run. -/
theorem Reaches.traffic {S : Setup} {moves : List Move} {w : World} (h : Reaches S moves w) :
    Traffic S w :=
  Machine.invariant (fun _ _ _ hi hs => traffic_step hi (step_cases hs)) (traffic_init S) h

end World

end Loom
