import Loom.Network.Transport

/-!
# Progress of the transport

Every stage of the transport waits only for the stage behind it: `Run` of the sender for a
writer, the writer for room on its connection, the connection for `serveConn` at the other end,
and so on up to `recvCh`. So the transport by itself has no circular wait: while nothing fails,
something that has been sent can go on, if only into a `recvCh` that has room.
-/

namespace Loom.Network

variable {A M F : Type} [DecidableEq A]

namespace Sender

/-- The addresses that a sender knows of. -/
def addresses (s : Sender A M) : List A := s.conns.keys ++ s.pending.map Prod.fst

/-- `Run` connects only to addresses that it has messages for. -/
theorem keys_step {s t : Sender A M} {act : SenderAct A M} (hs : s.step act = some t) :
    ∀ addr ∈ t.conns.keys, addr ∈ s.addresses := by
  have hold : ∀ addr ∈ s.conns.keys, addr ∈ s.addresses := fun _ h => List.mem_append_left _ h
  have hknown : ∀ {addr : A} {c c' : Conn M}, s.conns.lookup addr = some c →
      ∀ x ∈ (s.conns.insert addr c').keys, x ∈ s.addresses := by
    intro addr c c' hc x hx
    rcases (GoMap.mem_keys_insert _ _ _ _).mp hx with rfl | hx
    · exact hold x ((GoMap.mem_keys_iff _ _).mpr ⟨c, hc⟩)
    · exact hold x hx
  cases step_cases hs with
  | send | next | refused => exact hold
  | dial htodo _ =>
    intro x hx
    rcases (GoMap.mem_keys_insert _ _ _ _).mp hx with rfl | hx
    · simp [addresses, pending, htodo]
    · exact hold x hx
  | enqueue _ hc _ => exact hknown hc
  | take hc => exact hknown hc
  | write hc => exact hknown hc

/-- It learns of addresses only by calls of `Send`. -/
theorem addresses_step {s t : Sender A M} {act : SenderAct A M} (hs : s.step act = some t) :
    ∀ addr ∈ t.addresses, addr ∈ s.addresses ∨ ∃ msg, act = .send msg ∧ addr ∈ msg.address := by
  intro addr haddr
  rcases List.mem_append.mp haddr with hkey | hpending
  · exact Or.inl (keys_step hs addr hkey)
  · have hold : t.pending ⊆ s.pending → addr ∈ s.addresses := fun hsub =>
      List.mem_append_right _ (List.map_subset Prod.fst hsub hpending)
    rcases pending_step hs with ⟨msg, rfl, _, heq⟩ | ⟨hsub, _⟩ | ⟨_, _, heq, _⟩
    · rw [heq, List.map_append, List.mem_append] at hpending
      rcases hpending with hpending | hpending
      · exact Or.inl (List.mem_append_right _ hpending)
      · exact Or.inr ⟨msg, rfl, by simpa using hpending⟩
    · exact Or.inl (hold hsub)
    · exact Or.inl (hold (heq ▸ List.Subset.refl _))

end Sender

/-- The addresses that an end knows of. -/
def Endpoint.addresses (e : Endpoint A M F) : List A :=
  e.sender.addresses ++ (e.passing.toList ++ e.msgCh ++ e.timers).flatMap NetMessage.address

namespace Transport

variable {cd : Carrier M F} {T T' : Transport A M F} {act : TransportAct A M} {src dst : A}
  {member : A → Prop}

/-- An end without a dead writer, at which all connections are served and carry only what can
be decoded, and which has messages for members only. -/
structure Healthy (cd : Carrier M F) (member : A → Prop) (e : Endpoint A M F) : Prop where
  alive : ∀ addr, ¬ e.sender.Dead addr
  serving : ∀ a, (e.wires a).serving = true
  readable : ∀ a, ∀ f ∈ (e.wires a).stream, (cd.decode f).isSome = true
  known : ∀ addr ∈ e.addresses, member addr

/-- A new end has nothing. -/
theorem healthy_init (a : A) : Healthy cd member ((init : Transport A M F) a) where
  alive := by simp [init, newEndpoint, newSender, Sender.Dead]
  serving _ := rfl
  readable := by simp [init, newEndpoint]
  known := by
    simp [init, newEndpoint, newSender, Endpoint.addresses, Sender.addresses, Sender.pending]

/-- One end is replaced. -/
theorem healthy_update (h : ∀ a, Healthy cd member (T a)) {b : A} {e : Endpoint A M F}
    (he : Healthy cd member e) (a : A) : Healthy cd member (Function.update T b e a) := by
  rw [Function.update_apply]
  split
  · exact he
  · exact h a

/-- Only a failure kills a writer. -/
theorem Healthy.sender {e : Endpoint A M F} (h : Healthy cd member e) {act : SenderAct A M}
    {s : Sender A M} (hs : e.sender.step act = some s) (hok : act.fails = false) (addr : A) :
    ¬ s.Dead addr := by
  intro hdead
  rcases Sender.pending_step hs with ⟨_, _, hsame, _⟩ | ⟨_, hsame⟩ | ⟨_, rfl, _⟩
  · exact h.alive addr (hsame addr hdead)
  · exact h.alive addr (hsame addr hdead)
  · cases hok

/-- `Run` or a writer moves. -/
theorem Healthy.run {e : Endpoint A M F} (h : Healthy cd member e) {act : SenderAct A M}
    {s : Sender A M} (hs : e.sender.step act = some s) (hok : act.fails = false)
    (hown : ∀ msg, act ≠ .send msg) : Healthy cd member { e with sender := s } where
  alive := h.sender hs hok
  serving := h.serving
  readable := h.readable
  known addr haddr := by
    refine h.known addr ?_
    rcases List.mem_append.mp haddr with haddr | haddr
    · rcases Sender.addresses_step hs addr haddr with haddr | ⟨msg, hact, _⟩
      · exact List.mem_append_left _ haddr
      · exact absurd hact (hown msg)
    · exact List.mem_append_right _ haddr

/-- The message in hand is given to the sender. -/
theorem Healthy.forward {e : Endpoint A M F} (h : Healthy cd member e) {msg : NetMessage A M}
    (hpassing : e.passing = some msg) {s : Sender A M} (hs : e.sender.step (.send msg) = some s) :
    Healthy cd member { e with passing := none, sender := s } where
  alive := h.sender hs rfl
  serving := h.serving
  readable := h.readable
  known addr haddr := by
    refine h.known addr ?_
    simp only [Endpoint.addresses, hpassing, Option.toList_none, Option.toList_some,
      List.nil_append, List.cons_append, List.flatMap_cons, List.mem_append] at haddr ⊢
    rcases haddr with haddr | haddr
    · rcases Sender.addresses_step hs addr haddr with haddr | ⟨_, hact, haddr⟩
      · exact Or.inl haddr
      · cases hact
        exact Or.inr (Or.inl haddr)
    · exact Or.inr (Or.inr haddr)

/-- The receiving end of a connection is replaced. -/
theorem Healthy.wire {e : Endpoint A M F} (h : Healthy cd member e) {a : A} {w : Wire M F}
    (hserving : w.serving = true) (hread : ∀ f ∈ w.stream, (cd.decode f).isSome = true) :
    Healthy cd member { e with wires := Function.update e.wires a w } where
  alive := h.alive
  serving b := by
    simp only [Function.update_apply]
    split
    · exact hserving
    · exact h.serving b
  readable b := by
    simp only [Function.update_apply]
    split
    · exact hread
    · exact h.readable b
  known := h.known

/-- The queues before the sender change. -/
theorem Healthy.queues {e e' : Endpoint A M F} (h : Healthy cd member e)
    (hsender : e'.sender = e.sender) (hwires : e'.wires = e.wires)
    (hknown : ∀ msg ∈ e'.passing.toList ++ e'.msgCh ++ e'.timers,
      msg ∈ e.passing.toList ++ e.msgCh ++ e.timers ∨ ∀ addr ∈ msg.address, member addr) :
    Healthy cd member e' where
  alive := hsender ▸ h.alive
  serving := hwires ▸ h.serving
  readable := hwires ▸ h.readable
  known addr haddr := by
    rcases List.mem_append.mp haddr with haddr | haddr
    · exact h.known addr (List.mem_append_left _ (hsender ▸ haddr))
    · obtain ⟨msg, hmsg, haddr⟩ := List.mem_flatMap.mp haddr
      rcases hknown msg hmsg with hmsg | hmember
      · exact h.known addr (List.mem_append_right _ (List.mem_flatMap.mpr ⟨msg, hmsg, haddr⟩))
      · exact hmember addr haddr

/-- A move that does not fail and sends to members only. -/
def Proper (member : A → Prop) (act : TransportAct A M) : Prop :=
  act.fails = false ∧ ∀ a msg delayed, act = .send a msg delayed →
    ∀ addr ∈ msg.address, member addr

/-- With such moves all ends stay healthy. -/
theorem healthy_step (h : ∀ a, Healthy cd member (T a)) (hok : Proper member act)
    (hs : T.step cd act = some T') : ∀ a, Healthy cd member (T' a) := by
  cases step_cases hs with
  | @delay a msg =>
    refine healthy_update h ((h a).queues rfl rfl fun m hm => ?_)
    rw [← List.append_assoc] at hm
    rcases List.mem_append.mp hm with hm | hm
    · exact Or.inl hm
    · rw [List.mem_singleton.mp hm]
      exact Or.inr (hok.2 a msg true rfl)
  | @send a msg _ =>
    refine healthy_update h ((h a).queues rfl rfl fun m hm => ?_)
    simp only [List.mem_append, List.mem_singleton] at hm ⊢
    rcases hm with (hm | hm | rfl) | hm
    · exact Or.inl (Or.inl (Or.inl hm))
    · exact Or.inl (Or.inl (Or.inr hm))
    · exact Or.inr (hok.2 a m false rfl)
    · exact Or.inl (Or.inr hm)
  | @fire a k msg hmsg _ =>
    refine healthy_update h ((h a).queues rfl rfl fun m hm => Or.inl ?_)
    simp only [List.mem_append, List.mem_singleton] at hm ⊢
    rcases hm with (hm | hm | rfl) | hm
    · exact Or.inl (Or.inl hm)
    · exact Or.inl (Or.inr hm)
    · exact Or.inr (List.mem_of_getElem? hmsg)
    · exact Or.inr (List.mem_of_mem_eraseIdx hm)
  | @pass a msg rest hpassing hmsgCh =>
    refine healthy_update h ((h a).queues rfl rfl fun m hm => Or.inl ?_)
    simpa [hpassing, hmsgCh] using hm
  | @forward a msg s hpassing hsend => exact healthy_update h ((h a).forward hpassing hsend)
  | @run a act s hrun hact =>
    refine healthy_update h ((h a).run hact hok.1 ?_)
    rintro msg rfl
    cases hrun
  | @write a b ok s hwrite =>
    have hsender : ∀ x, Healthy cd member (T.setSender a s x) :=
      healthy_update h ((h a).run hwrite hok.1 (by simp))
    refine healthy_update hsender ((hsender b).wire ((h b).serving a) fun f hf => ?_)
    rcases List.mem_append.mp hf with hf | hf
    · exact (h b).readable a f hf
    · obtain ⟨p, _, rfl⟩ := List.mem_map.mp hf
      simp [cd.decode_encode]
  | @close a b f rest hwire hnone =>
    have hsome := (h b).readable a f (by simp [hwire])
    rw [hnone] at hsome
    cases hsome
  | @read a b f rest msg hwire _ =>
    refine healthy_update h ((h b).wire rfl fun f hf => ?_)
    exact (h b).readable a f (by simp [hwire, hf])
  | @deliver a b =>
    have hwire := (h b).wire (a := a) (w := { (T b).wires a with hand := none })
      ((h b).serving a) ((h b).readable a)
    exact healthy_update h (hwire.queues rfl rfl fun _ => Or.inl)
  | @relay b => exact healthy_update h ((h b).queues rfl rfl fun _ => Or.inl)
  | @arrive b => exact healthy_update h ((h b).queues rfl rfl fun _ => Or.inl)

/-- A move that goes on with what has been sent. -/
structure Onward (cd : Carrier M F) (T : Transport A M F) (act : TransportAct A M) : Prop where
  enabled : (T.step cd act).isSome = true
  sound : act.fails = false
  own : ∀ a msg delayed, act ≠ .send a msg delayed

/-- A receiving end that is not empty has a move. -/
theorem onward_of_received (h : Healthy cd member (T dst)) (src : A)
    (hin : (T dst).handing = none → (T dst).received = [] → ((T dst).wires src).hand = none →
      ((T dst).wires src).stream ≠ []) :
    ∃ act, TransportAct.process act = dst ∧ Onward cd T act := by
  cases hhanding : (T dst).handing with
  | some p =>
    refine ⟨.arrive dst, rfl, ?_, rfl, by simp⟩
    simp [step, hhanding]
  | none =>
    cases hreceived : (T dst).received with
    | cons p rest =>
      refine ⟨.relay dst, rfl, ?_, rfl, by simp⟩
      simp [step, hhanding, hreceived]
    | nil =>
      have hserving := h.serving src
      have hread := h.readable src
      have hstream := hin hhanding hreceived
      cases hwire : (T dst).wires src with
      | mk stream hand serving =>
        rw [hwire] at hserving hread hstream
        subst hserving
        cases hand with
        | some msg =>
          refine ⟨.deliver src dst, rfl, ?_, rfl, by simp⟩
          simp [step, hwire, hreceived, chanCap]
        | none =>
          cases stream with
          | nil => exact absurd rfl (hstream rfl)
          | cons f rest =>
            obtain ⟨msg, hmsg⟩ := Option.isSome_iff_exists.mp (hread f (by simp))
            refine ⟨.read src dst, rfl, ?_, rfl, by simp⟩
            simp [step, hwire, hmsg]

/-- A sender with something on a connection has a move, or the other end of the connection,
which is full, has one. -/
theorem onward_of_queued (h : ∀ a, Healthy cd member (T a)) (hsrc : member src) {addr : A}
    {c : Conn M} (hc : (T src).sender.conns.lookup addr = some c) (hqueued : c.queued ≠ []) :
    ∃ act, member (TransportAct.process act) ∧ Onward cd T act := by
  have hrunning := Sender.running_of_not_dead ((h src).alive addr) hc
  have haddr : member addr := by
    refine (h src).known addr (List.mem_append_left _ (List.mem_append_left _ ?_))
    exact (GoMap.mem_keys_iff _ _).mpr ⟨c, hc⟩
  obtain ⟨msgCh, writing, running⟩ := c
  subst hrunning
  cases writing with
  | some msg =>
    by_cases hfull : cd.window ≤ ((T addr).wires src).stream.length
    · have hstream : ((T addr).wires src).stream ≠ [] :=
        List.ne_nil_of_length_pos (lt_of_lt_of_le cd.window_pos hfull)
      obtain ⟨act, hact, hon⟩ := onward_of_received (h addr) src fun _ _ _ => hstream
      exact ⟨act, hact ▸ haddr, hon⟩
    · refine ⟨.write src addr true, hsrc, ?_, rfl, by simp⟩
      simp [step, Sender.step, hc, hfull]
  | none =>
    cases msgCh with
    | nil => exact absurd rfl hqueued
    | cons msg rest =>
      refine ⟨.run src (.take addr), hsrc, ?_, rfl, by simp⟩
      simp [step, SenderAct.ofRun, Sender.step, hc]

/-- A sender with something left to pass on has a move: where the channel of a connection is
full, its writer goes on. -/
theorem onward_of_busy (h : ∀ a, Healthy cd member (T a)) (hsrc : member src)
    (hbusy : (T src).sender.todo = [] → (T src).sender.msgCh ≠ []) :
    ∃ act, member (TransportAct.process act) ∧ Onward cd T act := by
  cases htodo : (T src).sender.todo with
  | nil =>
    cases hmsgCh : (T src).sender.msgCh with
    | nil => exact absurd hmsgCh (hbusy htodo)
    | cons msg rest =>
      refine ⟨.run src .next, hsrc, ?_, rfl, by simp⟩
      simp [step, SenderAct.ofRun, Sender.step, htodo, hmsgCh]
  | cons p rest =>
    cases hc : (T src).sender.conns.lookup p.1 with
    | none =>
      refine ⟨.run src (.dial true), hsrc, ?_, rfl, by simp⟩
      simp [step, SenderAct.ofRun, Sender.step, htodo, hc]
    | some c =>
      by_cases hroom : c.msgCh.length < chanCap
      · refine ⟨.run src .enqueue, hsrc, ?_, rfl, by simp⟩
        simp [step, SenderAct.ofRun, Sender.step, htodo, hc, hroom]
      · refine onward_of_queued h hsrc hc fun hnil => hroom ?_
        simp [(List.append_eq_nil_iff.mp hnil).2, chanCap]

/-- An end that has something to send has a move, or one of its peers has. -/
theorem onward_of_outgoing (h : ∀ a, Healthy cd member (T a)) (hsrc : member src)
    (hout : (T src).outgoing dst ++ delayed T src dst ≠ []) :
    ∃ act, member (TransportAct.process act) ∧ Onward cd T act := by
  by_cases hbusy : (T src).sender.todo = [] → (T src).sender.msgCh ≠ []
  · exact onward_of_busy h hsrc hbusy
  push Not at hbusy
  obtain ⟨htodo, hmsgs⟩ := hbusy
  cases hpassing : (T src).passing with
  | some msg =>
    refine ⟨.forward src, hsrc, ?_, rfl, by simp⟩
    simp [step, hpassing, Sender.step, hmsgs, chanCap]
  | none =>
    cases hmsgCh : (T src).msgCh with
    | cons msg rest =>
      refine ⟨.pass src, hsrc, ?_, rfl, by simp⟩
      simp [step, hpassing, hmsgCh]
    | nil =>
      cases htimers : (T src).timers with
      | cons msg rest =>
        refine ⟨.fire src 0, hsrc, ?_, rfl, by simp⟩
        simp [step, htimers, hmsgCh, chanCap]
      | nil =>
        cases hc : (T src).sender.conns.lookup dst with
        | none =>
          simp [Endpoint.outgoing, delayed, Sender.queued, Sender.pending, htodo, hmsgs, hpassing,
            hmsgCh, htimers, hc] at hout
        | some c =>
          refine onward_of_queued h hsrc hc fun hnil => hout ?_
          simp [Endpoint.outgoing, delayed, Sender.queued, Sender.pending, htodo, hmsgs, hpassing,
            hmsgCh, htimers, hc, hnil]

/-- **The transport has no circular wait.** While something is on its way from one member to
another, a goroutine of the transport can go on, at one of the two or at another member that
the first one sends to. -/
theorem onward_of_link (h : ∀ a, Healthy cd member (T a)) (hsrc : member src)
    (hdst : member dst) (hlink : transit cd T src dst ++ delayed T src dst ≠ []) :
    ∃ act, member (TransportAct.process act) ∧ Onward cd T act := by
  by_cases hin : (T dst).incoming cd src = []
  · rw [transit, hin, List.nil_append] at hlink
    exact onward_of_outgoing h hsrc hlink
  · obtain ⟨act, hact, hon⟩ := onward_of_received (h dst) src fun hhanding hreceived hhand => by
      rintro hstream
      simp [Endpoint.incoming, Wire.content, hhanding, hreceived, hhand, hstream] at hin
    exact ⟨act, hact ▸ hdst, hon⟩

end Transport

end Loom.Network
