import Loom.Remote.Net
import Loom.System.Schedule

/-!
# The core and its own channel

`propose` and `invokeElect` put the core's own messages into `recvCh`, which only the core
reads and which the network fills at the same time. If the channel is full at that moment
the core waits for itself, and nothing can ever free it. `leavesRoom` keeps a place for
every message that the core still has to send to itself.
-/

namespace Loom.Remote

/-- A send of the core into its own `recvCh`. -/
def isLoop : CoreAct → Bool
  | .loop _ => true
  | _ => false

namespace Host

/-- The sends into `recvCh` that the core still has to make. -/
def selfSends (x : Host) : Nat := x.core.todo.countP isLoop

/-- The core is about to send into its own full channel. -/
def Blocked (x : Host) : Prop :=
  x.core.todo.head?.any isLoop = true ∧ recvCap ≤ x.recvCh.length

instance (x : Host) : Decidable x.Blocked := inferInstanceAs (Decidable (_ ∧ _))

/-- A place in `recvCh` is kept for each send of the core to itself. -/
def Roomy (x : Host) : Prop := x.recvCh.length + x.selfSends ≤ recvCap

private theorem Roomy.not_blocked {x : Host} (h : x.Roomy) : ¬ x.Blocked := by
  rintro ⟨hhead, hfull⟩
  obtain ⟨act, hact, hloop⟩ := Option.any_eq_true .. |>.mp hhead
  have hpos : 0 < x.selfSends :=
    List.countP_pos_iff.mpr ⟨act, List.mem_of_mem_head? hact, hloop⟩
  unfold Roomy at h
  omega

end Host

/-- The core sends itself at most a coin share and a block. -/
theorem countP_generateBlock (cr : Crypto) (c : Core) (height round oldFirstRefH : Int)
    (ref : List Header) (batch : Batch) :
    (c.generateBlock cr height round oldFirstRefH ref batch).countP isLoop ≤ 2 := by
  have helect : ∀ r, (c.invokeElect cr r).countP isLoop ≤ 1 := by
    intro r
    unfold Core.invokeElect
    split <;> simp [isLoop]
  have htail : ∀ b : Block,
      [CoreAct.send NONE (.propose b), .loop (.propose b)].countP isLoop = 1 := fun _ => rfl
  unfold Core.generateBlock
  dsimp only
  rw [List.countP_append, htail]
  split
  · exact Nat.add_le_add_right (helect _) 1
  · simp

/-- No handler sends into `recvCh`. -/
theorem countP_handlePropose {cr : Crypto} {c c' : Core} {b : Block} (htodo : c.todo = [])
    (h : c.handlePropose cr b = some c') : c'.todo.countP isLoop = 0 := by
  rcases Core.handlePropose_cases h with rfl | rfl <;> simp [htodo, isLoop]

/-- Handling a message leaves nothing for the node's own channel. -/
theorem countP_handle {cr : Crypto} {c c' : Core} {m : NetMessage} (htodo : c.todo = [])
    (h : c.handle cr m = some c') : c'.todo.countP isLoop = 0 := by
  cases m with
  | propose b => exact countP_handlePropose htodo h
  | echo e =>
    rcases Core.handleEcho_cases h with rfl | ⟨_, rfl⟩ | ⟨_, rfl⟩ <;>
      simp [htodo, Core.propose, isLoop]
  | elect e =>
    cases h
    rcases Core.handleElect_cases cr c e with heq | ⟨_, _, heq, _⟩ <;> simp [heq, htodo, isLoop]

namespace Host

/-- Handling a message leaves the core without sends to itself. -/
theorem handle_room {cr : Crypto} {i : Int} {x y : Host} {m : RemoteMessage} {evs : List Event}
    (htodo : x.core.todo = []) (h : x.handle cr i m = some (y, evs)) :
    y.recvCh = x.recvCh ∧ y.selfSends = 0 := by
  rcases handle_cases h with ⟨msg, core, rfl, hcore, rfl, rfl⟩ | ⟨blocks, requests, rfl, rfl⟩
  · exact ⟨rfl, countP_handle htodo hcore⟩
  · exact ⟨rfl, by simp [selfSends, htodo]⟩

/-- The condition under which the core never waits for itself: a message from the network
is put into `recvCh` only if a place remains for each send that the core still has to make
to itself, and a block is built only while two places are free. -/
def leavesRoom (x : Host) : HostMove → Bool
  | .receive f =>
    match Codec.read f with
    | .message _ => decide (x.recvCh.length + x.selfSends < recvCap)
    | _ => true
  | .core _ =>
    match x.core.todo with
    | .awaitRef _ _ _ :: _ => decide (x.recvCh.length + 2 ≤ recvCap)
    | _ => true
  | _ => true

private theorem roomy_step {cr : Crypto} {i : Int} {x y : Host} {mv : HostMove} {evs : List Event}
    (h : x.Roomy) (hok : x.leavesRoom mv = true) (hs : x.Step cr i mv y evs) : y.Roomy := by
  have hpop : ∀ {act : CoreAct} {rest : List CoreAct}, x.core.todo = act :: rest →
      x.selfSends = rest.countP isLoop + if isLoop act then 1 else 0 := by
    intro act rest htodo
    rw [selfSends, htodo, List.countP_cons]
  unfold Roomy at h ⊢
  cases hs with
  | garbled | closed | panicBlock | panicMessage | panicLoopBack | answer | overflow | pair =>
    exact h
  | @receive f m hread hroom =>
    simp only [leavesRoom, hread, decide_eq_true_eq] at hok
    rw [List.length_append, List.length_singleton]
    change x.recvCh.length + 1 + x.selfSends ≤ recvCap
    omega
  | @send batch dst msg rest htodo =>
    have hcount := hpop htodo
    change x.recvCh.length + rest.countP isLoop ≤ recvCap
    omega
  | @loop batch msg rest htodo =>
    have hcount := hpop htodo
    simp only [isLoop, ↓reduceIte] at hcount
    change (x.recvCh ++ _).length + rest.countP isLoop ≤ recvCap
    rw [List.length_append, List.length_singleton]
    omega
  | @dagReq batch req rest p htodo hp =>
    have hcount := hpop htodo
    change x.recvCh.length + rest.countP isLoop ≤ recvCap
    omega
  | @build batch height round oldFirstRefH rest ref p htodo hpc hp =>
    have hcount := countP_generateBlock cr x.core height round oldFirstRefH ref batch
    simp only [leavesRoom, htodo, decide_eq_true_eq] at hok
    exact le_trans (Nat.add_le_add_left hcount _) hok
  | @block batch b bs core htodo hblocks hh =>
    change x.recvCh.length + core.todo.countP isLoop ≤ recvCap
    rw [countP_handlePropose htodo hh]
    omega
  | @message batch m rest y evs htodo hblocks hrecv hh =>
    obtain ⟨hsame, hzero⟩ := handle_room (x := { x with recvCh := rest }) htodo hh
    rw [hsame, hzero]
    rw [hrecv, List.length_cons] at h
    dsimp only
    omega
  | @loopBack b core htodo hblocks hh =>
    change x.recvCh.length + core.todo.countP isLoop ≤ recvCap
    rw [countP_handlePropose htodo hh]
    omega

/-- A core that waits for itself waits for ever. -/
theorem blocked_step {cr : Crypto} {i : Int} {x y : Host} {mv : HostMove} {evs : List Event}
    (h : x.Blocked) (hs : x.Step cr i mv y evs) : y.Blocked := by
  obtain ⟨hhead, hfull⟩ := h
  have hstuck : ∀ {act : CoreAct} {rest : List CoreAct}, x.core.todo = act :: rest →
      isLoop act = true := by
    intro act rest htodo
    simpa [htodo] using hhead
  have hidle : x.core.todo ≠ [] := by
    intro htodo
    simp [htodo] at hhead
  cases hs with
  | garbled | closed | answer | overflow | pair => exact ⟨hhead, hfull⟩
  | receive _ hroom | loop _ hroom => omega
  | send htodo | dagReq htodo | build htodo => cases hstuck htodo
  | panicBlock htodo | block htodo | panicMessage htodo | message htodo | panicLoopBack htodo
  | loopBack htodo => exact absurd htodo hidle

end Host

namespace Net

open World (fourNodes)

/-- **The core loop never waits on itself.** In every run in which the network and the
proposals leave room in `recvCh`, no reachable state has a core that is blocked on sending
its own block or coin share into the full channel. -/
theorem never_waits_on_itself {S : Setup} {moves : List (Int × HostMove)} {n : Net}
    (h : Reaches S moves n)
    (hok : Machine.Along (step S) (fun n mv => (n.hosts mv.1).leavesRoom mv.2 = true) (init S)
      moves) : ∀ i ∈ S.committee.ids, ¬ (n.hosts i).Blocked := by
  intro i hi
  apply Host.Roomy.not_blocked
  exact invariant_hosts (P := fun _ _ x => x.Roomy) (fun _ _ => Nat.zero_le _)
    (fun _ _ hx => hx) (fun _ _ _ _ _ _ hq hx hs => Host.roomy_step hx hq hs) h hok i hi

/-- A message that every node ignores. -/
def ignored : RemoteMessage := .loopBack ⟨List.replicate 32 0, by decide⟩

/-- A node with its own block and one more message is not blocked. -/
theorem never_waits_on_itself_firstBlock : ∃ n, Reaches fourNodes
    (firstBlock 0 ++ [(0, .receive (Codec.write ignored)), (0, .core ⟨-1, []⟩)]) n ∧
    (n.hosts 0).recvCh.length = 2 ∧ ¬ (n.hosts 0).Blocked := by
  have hstate : ∃ n ∈ Machine.run (step fourNodes) (init fourNodes)
      (firstBlock 0 ++ [(0, .receive (Codec.write ignored)), (0, .core ⟨-1, []⟩)]),
      (n.hosts 0).recvCh.length = 2 := by decide +kernel
  have hok : Machine.Along (step fourNodes) (fun n mv => (n.hosts mv.1).leavesRoom mv.2 = true)
      (init fourNodes)
      (firstBlock 0 ++ [(0, .receive (Codec.write ignored)), (0, .core ⟨-1, []⟩)]) := by
    decide +kernel
  obtain ⟨n, hn, hlen⟩ := hstate
  exact ⟨n, hn, hlen, never_waits_on_itself hn hok 0 (by decide)⟩

/-- Messages from the network pile up while a core does not read them. -/
theorem run_flood {S : Setup} {i : Int} (hi : i ∈ S.committee.ids) (m : RemoteMessage) (k : Nat)
    {n : Net} (hroom : (n.hosts i).recvCh.length + k ≤ recvCap) :
    ∃ n', Machine.run (step S) n (List.replicate k (i, .receive (Codec.write m))) = some n' ∧
      (n'.hosts i).core = (n.hosts i).core ∧
      (n'.hosts i).recvCh.length = (n.hosts i).recvCh.length + k := by
  induction k generalizing n with
  | zero => exact ⟨n, rfl, rfl, rfl⟩
  | succ k ih =>
    have hlt : (n.hosts i).recvCh.length < recvCap := by omega
    have hstep : n.step S (i, .receive (Codec.write m)) = some
        ⟨Function.update n.hosts i { n.hosts i with recvCh := (n.hosts i).recvCh ++ [m] },
          n.trace ++ []⟩ := by
      simp [step, hi, Host.step, hlt]
    obtain ⟨n', hrun, hcore, hlen⟩ := ih (n := ⟨Function.update n.hosts i
      { n.hosts i with recvCh := (n.hosts i).recvCh ++ [m] }, n.trace ++ []⟩) (by simp; omega)
    refine ⟨n', Machine.run_cons.mpr ⟨_, hstep, hrun⟩, ?_, ?_⟩
    · simpa using hcore
    · simp only [Function.update_self, List.length_append, List.length_singleton] at hlen
      omega

/-- A thousand messages arrive after node `0` has sent its first block to the others and
before it has put the block into its own channel. From then on its core is blocked. -/
theorem flooded_waits_for_ever : ∃ moves n, Reaches fourNodes moves n ∧ (n.hosts 0).Blocked ∧
    ∀ more n', Machine.run (step fourNodes) n more = some n' → (n'.hosts 0).Blocked := by
  have hstate : ∃ n ∈ Machine.run (step fourNodes) (init fourNodes) (firstBlock 0),
      (n.hosts 0).core.todo.head?.any isLoop = true ∧ (n.hosts 0).recvCh.length = 0 := by
    decide +kernel
  obtain ⟨n, hn, hhead, hlen⟩ := hstate
  obtain ⟨n', hrun, hcore, hlen'⟩ := run_flood (S := fourNodes) (i := 0) (by decide) ignored recvCap
    (n := n) (by omega)
  have hblocked : (n'.hosts 0).Blocked := ⟨by rw [hcore]; exact hhead, by omega⟩
  refine ⟨_, n', Machine.run_append.mpr ⟨n, hn, hrun⟩, hblocked, fun more t ht => ?_⟩
  refine Machine.invariant (P := fun n : Net => (n.hosts 0).Blocked) ?_ hblocked ht
  rintro u ⟨i, mv⟩ v hu hs
  obtain ⟨_, y, evs, hy, rfl⟩ := step_cases hs
  by_cases hi : i = 0
  · subst hi
    simp only [Function.update_self]
    exact Host.blocked_step hu hy
  · simpa only [Function.update_of_ne (Ne.symm hi)] using hu

end Net

end Loom.Remote
