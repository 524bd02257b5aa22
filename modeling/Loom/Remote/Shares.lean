import Loom.Core.Digest
import Loom.Remote.Net
import Loom.System.Coin
import Loom.System.Schedule

/-!
# The coin among arbitrary senders

Coin shares carry no signature, and nothing ties the author of a message to its share. What a
faulty sender cannot make is a valid share of somebody else. Since a coin is combined from valid
shares of `2f+1` signers, `f+1` members outside the faulty ones have sent theirs before any node
learns a leader, and they have entered the next round by then.
-/

namespace Loom.Remote

/-! ## What a move does to the shares of a node -/

namespace Host

/-- Neither a coin share for others nor a leader for the dag. -/
def Plain : CoreAct → Prop
  | .send _ (.elect _) | .dag (.commitReq _) => False
  | _ => True

/-- The share of a round goes out where the round is left. -/
theorem shares_generateBlock {cr : Crypto} {c : Core} {height round oldFirstRefH : Int}
    {ref : List Header} {batch : Batch} {act : CoreAct}
    (h : act ∈ c.generateBlock cr height round oldFirstRefH ref batch) :
    Plain act ∨ ∃ dst e, act = .send dst (.elect e) ∧ Core.opens ref = true ∧
      (c.buildBlock cr height round oldFirstRefH ref batch).header.round = e.round + 1 := by
  rcases List.mem_append.mp h with h | h
  · split at h
    · rename_i hopens
      unfold Core.invokeElect at h
      split at h
      · cases h
      · rename_i e he
        obtain ⟨share, _, rfl⟩ := Option.map_eq_some_iff.mp he
        simp only [List.mem_cons, List.not_mem_nil, or_false] at h
        rcases h with rfl | rfl
        · refine Or.inr ⟨_, _, rfl, hopens.1, ?_⟩
          change Core.nextRound round ref = Core.nextRound round ref - 1 + 1
          omega
        · exact Or.inl trivial
    · cases h
  · simp only [List.mem_cons, List.not_mem_nil, or_false] at h
    rcases h with rfl | rfl <;> exact Or.inl trivial

/-- What a move does to a node's elector, its operations and the messages sent, unless it
handles a coin share. -/
structure Apart (i : Int) (x y : Host) (evs : List Event) : Prop where
  eletor : y.core.eletor = x.core.eletor
  todo : ∀ act ∈ y.core.todo, act ∈ x.core.todo ∨ Plain act ∨
    ∃ dst e, act = .send dst (.elect e) ∧ .entered i (e.round + 1) ∈ evs
  sent : ∀ j e, .sent j (.net (.elect e)) ∈ evs → j = i ∧ ∃ dst, .send dst (.elect e) ∈ x.core.todo

/-- A move that only takes operations away. -/
theorem apart_of_sublist {i : Int} {x y : Host} {evs : List Event}
    (hel : y.core.eletor = x.core.eletor) (htodo : y.core.todo ⊆ x.core.todo)
    (hevs : ∀ j e, .sent j (.net (.elect e)) ∉ evs) :
    Apart i x y evs :=
  ⟨hel, fun _ hact => Or.inl (htodo hact), fun j e he => absurd he (hevs j e)⟩

/-- A node that handles a block only echoes it and hands it over. -/
theorem apart_of_handlePropose {cr : Crypto} {i : Int} {x y : Host} {b : Block}
    (h : x.core.handlePropose cr b = some y.core) :
    Apart i x y (echoEvents cr x.core i b) := by
  have hevs : ∀ j e, .sent j (.net (.elect e)) ∉ echoEvents cr x.core i b := by
    intro j e
    unfold echoEvents
    split <;> simp
  rcases Core.handlePropose_cases h with heq | heq
  · exact apart_of_sublist (by rw [heq]) (by rw [heq]; exact List.Subset.refl _) hevs
  · refine ⟨by rw [heq], fun act hact => Or.inr (Or.inl ?_), fun j e he => absurd he (hevs j e)⟩
    rw [heq] at hact
    simp only [List.mem_cons, List.not_mem_nil, or_false] at hact
    rcases hact with rfl | rfl <;> trivial

/-- A node handles a coin share, or it leaves its elector alone and prepares a share only where
it enters the next round. -/
theorem Step.elect_cases {cr : Crypto} {i : Int} {x y : Host} {mv : HostMove} {evs : List Event}
    (hs : x.Step cr i mv y evs) : Apart i x y evs ∨
    ∃ e, x.upcoming mv = some (.net (.elect e)) ∧ x.core.todo = [] ∧
      y.core = x.core.handleElect cr e ∧ evs = [] := by
  cases hs with
  | garbled | closed | receive | panicBlock | panicMessage | panicLoopBack | overflow | pair =>
    exact Or.inl (apart_of_sublist rfl (List.Subset.refl _) (by simp))
  | answer => exact Or.inl (apart_of_sublist rfl (List.Subset.refl _) (by simp))
  | @send batch dst msg rest htodo =>
    refine Or.inl ⟨rfl, fun act hact => Or.inl (htodo ▸ List.mem_cons_of_mem _ hact), ?_⟩
    intro j e he
    simp only [List.mem_singleton, Event.sent.injEq, RemoteMessage.net.injEq] at he
    obtain ⟨rfl, rfl⟩ := he
    exact ⟨rfl, dst, htodo ▸ List.mem_cons_self ..⟩
  | loop htodo | dagReq htodo =>
    refine Or.inl (apart_of_sublist rfl (fun act hact => ?_) (by simp))
    exact htodo ▸ List.mem_cons_of_mem _ hact
  | @build batch height round oldFirstRefH rest ref p htodo hpc hp =>
    refine Or.inl ⟨rfl, fun act hact => ?_, by simp⟩
    rcases shares_generateBlock hact with hplain | ⟨dst, e, rfl, hopens, hround⟩
    · exact Or.inr (Or.inl hplain)
    · refine Or.inr (Or.inr ⟨dst, e, rfl, mem_buildEvents.mpr (Or.inl ⟨hopens, ?_⟩)⟩)
      rw [hround]
  | block _ _ hh | loopBack _ _ hh => exact Or.inl (apart_of_handlePropose hh)
  | @message batch m rest y evs htodo hblocks hrecv hh =>
    have hup : x.upcoming (.core batch) = some m := by
      simp only [upcoming, htodo, hblocks, hrecv, List.head?_cons]
    rcases handle_cases hh with ⟨msg, core, rfl, hcore, rfl, rfl⟩ | ⟨blocks, requests, rfl, rfl⟩
    · cases msg with
      | propose b => exact Or.inl (apart_of_handlePropose hcore)
      | echo e =>
        have hevs : ∀ j e', .sent j (.net (.elect e')) ∉ recvEvents cr x.core core i (.echo e) := by
          intro j e'
          simp only [recvEvents, List.mem_append, not_or]
          refine ⟨by split <;> simp, ?_⟩
          unfold proposingEvents
          split <;> simp
        rcases Core.handleEcho_cases hcore with heq | ⟨_, heq⟩ | ⟨_, heq⟩
        · exact Or.inl (apart_of_sublist (by rw [heq]) (by rw [heq]; simp) hevs)
        · exact Or.inl (apart_of_sublist (by rw [heq]) (by rw [heq]; simp) hevs)
        · refine Or.inl ⟨by rw [heq], fun act hact => Or.inr (Or.inl ?_),
            fun j e' he => absurd he (hevs j e')⟩
          rw [heq] at hact
          simp only [Core.propose, List.mem_cons, List.not_mem_nil, or_false] at hact
          rcases hact with rfl | rfl <;> trivial
      | elect e =>
        change some (x.core.handleElect cr e) = some core at hcore
        cases hcore
        exact Or.inr ⟨e, hup, htodo, rfl, rfl⟩
    · exact Or.inl (apart_of_sublist rfl (List.Subset.refl _) (by simp))

/-- A share is sent by the node that moves. -/
theorem Step.sent_elect {cr : Crypto} {i j : Int} {x y : Host} {mv : HostMove} {evs : List Event}
    {e : Elect} (hs : x.Step cr i mv y evs) (hev : .sent j (.net (.elect e)) ∈ evs) : j = i := by
  rcases hs.elect_cases with hapart | ⟨_, _, _, _, rfl⟩
  · exact (hapart.sent j e hev).1
  · cases hev

end Host

/-- The digest that the share of a message is over. -/
def RemoteMessage.coinDigest (cr : Crypto) : RemoteMessage → Option Bytes
  | .net (.elect e) => some (electHash cr e.round)
  | _ => none

namespace Net

/-! ## Who stands behind a coin -/

/-- A member has sent its share for the coin of a round. -/
def Shared (S : Setup) (tr : List Event) (round j : Int) : Prop :=
  ∃ e, .sent j (.net (.elect e)) ∈ tr ∧ electHash S.crypto e.round = electHash S.crypto round

/-- A share that was made stays made. -/
theorem Shared.mono {S : Setup} {tr tr' : List Event} {round j : Int} (h : Shared S tr round j)
    (hsub : tr ⊆ tr') : Shared S tr' round j := by
  obtain ⟨e, he, hhash⟩ := h
  exact ⟨e, hsub he, hhash⟩

section Coin

variable {S : Setup} {valid : Bytes → Bytes → Bool} {signer : Bytes → Int} {byz : List Int}
  {t : Nat}

/-- The members of `byz` send, replay and forward what they like, and cannot make a share of
anybody else: whenever a node handles a valid share, its signer belongs to `byz` or has sent a
share for this coin. -/
def sharesUnforged (S : Setup) (valid : Bytes → Bytes → Bool) (signer : Bytes → Int)
    (byz : List Int) (n : Net) (mv : Int × HostMove) : Bool :=
  match (n.hosts mv.1).upcoming mv.2 with
  | some (.net (.elect e)) =>
    decide (valid (electHash S.crypto e.round) e.sigShare = true →
      signer e.sigShare ∈ byz ∨ ∃ m ∈ sentBy n.trace (signer e.sigShare),
        m.coinDigest S.crypto = some (electHash S.crypto e.round))
  | _ => true

/-- The valid share of a member outside `byz` has been sent by this member. -/
def Owned (S : Setup) (valid : Bytes → Bytes → Bool) (signer : Bytes → Int) (byz : List Int)
    (tr : List Event) (e : Elect) : Prop :=
  valid (electHash S.crypto e.round) e.sigShare = true → signer e.sigShare ∉ byz →
    Shared S tr e.round (signer e.sigShare)

private theorem owned_of_upcoming {n : Net} {i : Int} {mv : HostMove} {e : Elect}
    (hup : (n.hosts i).upcoming mv = some (.net (.elect e)))
    (hun : sharesUnforged S valid signer byz n (i, mv) = true) :
    Owned S valid signer byz n.trace e := by
  intro hvalid hhonest
  simp only [sharesUnforged, hup, decide_eq_true_eq] at hun
  obtain ⟨m, hm, hd⟩ := (hun hvalid).resolve_left hhonest
  unfold RemoteMessage.coinDigest at hd
  split at hd
  · exact ⟨_, mem_sentBy.mp hm, Option.some.inj hd⟩
  · cases hd

/-- All but the faulty among `t` distinct members have sent their shares for the coin. -/
def Backed (S : Setup) (byz : List Int) (t : Nat) (tr : List Event) (round : Int) : Prop :=
  ∃ q : List Int, q.Nodup ∧ t ≤ q.length + byz.length ∧ ∀ j ∈ q, j ∉ byz ∧ Shared S tr round j

/-- Shares that combine have `t` signers, and those outside `byz` have sent theirs. -/
theorem backed_of_recover (hrec : S.crypto.RecoversFrom valid signer t) {tr : List Event}
    {msgs : List Elect} {round : Int} {sig : Bytes}
    (hmsgs : ∀ e ∈ msgs, e.round = round ∧ Owned S valid signer byz tr e)
    (hsig : S.crypto.recover (msgs.map (·.sigShare)) (electHash S.crypto round) = some sig) :
    Backed S byz t tr round := by
  have hne : S.crypto.recover (msgs.map (·.sigShare)) (electHash S.crypto round) ≠ none := by
    simp [hsig]
  rw [Ne, hrec, not_or, not_exists, not_lt] at hne
  obtain ⟨_, hcard⟩ := hne
  set signers := (((msgs.map (·.sigShare)).take t).filter
    (valid (electHash S.crypto round))).map signer with hsigners
  refine ⟨(signers.toFinset \ byz.toFinset).toList, Finset.nodup_toList _, ?_, fun j hj => ?_⟩
  · rw [Finset.length_toList]
    have hsdiff := Finset.le_card_sdiff byz.toFinset signers.toFinset
    have hbyz := List.toFinset_card_le byz
    omega
  · rw [Finset.mem_toList, Finset.mem_sdiff, List.mem_toFinset, List.mem_toFinset, hsigners] at hj
    obtain ⟨share, hshare, rfl⟩ := List.mem_map.mp hj.1
    obtain ⟨hmem, hvalid⟩ := List.mem_filter.mp hshare
    obtain ⟨e, he, rfl⟩ := List.mem_map.mp (List.mem_of_mem_take hmem)
    obtain ⟨rfl, howned⟩ := hmsgs e he
    exact ⟨hj.2, howned hvalid hj.2⟩

/-- What a node has sent, collected and revealed of the coins. -/
structure Sharing (S : Setup) (valid : Bytes → Bytes → Bool) (signer : Bytes → Int)
    (byz : List Int) (t : Nat) (tr : List Event) (i : Int) (x : Host) : Prop where
  /-- A leader is forgotten as soon as it has been passed on. -/
  leader : ∀ round, x.core.eletor.leader.lookup round = none
  shares : ∀ round ag, x.core.eletor.ag.lookup round = some ag →
    ∀ e ∈ ag.item, e.round = round ∧ Owned S valid signer byz tr e
  pending : ∀ dst e, .send dst (.elect e) ∈ x.core.todo → .entered i (e.round + 1) ∈ tr
  sent : ∀ e, .sent i (.net (.elect e)) ∈ tr → .entered i (e.round + 1) ∈ tr
  reveal : ∀ req, .dag (.commitReq req) ∈ x.core.todo → Backed S byz t tr req.round

/-- A share stays one of its owner. -/
theorem Owned.mono {tr tr' : List Event} {e : Elect} (h : Owned S valid signer byz tr e)
    (hsub : tr ⊆ tr') : Owned S valid signer byz tr' e :=
  fun hvalid hhonest => (h hvalid hhonest).mono hsub

/-- A round stays backed. -/
theorem Backed.mono {tr tr' : List Event} {round : Int} (h : Backed S byz t tr round)
    (hsub : tr ⊆ tr') : Backed S byz t tr' round := by
  obtain ⟨q, hnodup, hlen, hq⟩ := h
  exact ⟨q, hnodup, hlen, fun j hj => ⟨(hq j hj).1, (hq j hj).2.mono hsub⟩⟩

private theorem sharing_init (i : Int) :
    Sharing S valid signer byz t [] i (Host.init S i) where
  leader := by simp [Host.init, Core.init, newElector]
  shares := by simp [Host.init, Core.init, newElector]
  pending := by simp [Host.init, Core.init, Core.propose]
  sent := by simp
  reveal := by simp [Host.init, Core.init, Core.propose]

/-- What other nodes do. -/
theorem Sharing.mono {tr evs : List Event} {i : Int} {x : Host}
    (h : Sharing S valid signer byz t tr i x) (hno : ∀ e, .sent i (.net (.elect e)) ∉ evs) :
    Sharing S valid signer byz t (tr ++ evs) i x := by
  have hsub : tr ⊆ tr ++ evs := List.subset_append_left _ _
  refine ⟨h.leader, fun r ag hag e he => ?_, fun dst e he => hsub (h.pending dst e he),
    fun e he => hsub (h.sent e ((List.mem_append.mp he).resolve_right (hno e))),
    fun req hreq => (h.reveal req hreq).mono hsub⟩
  obtain ⟨hround, howned⟩ := h.shares r ag hag e he
  exact ⟨hround, howned.mono hsub⟩

/-- A move that handles no share. -/
theorem Sharing.apart {tr evs : List Event} {i : Int} {x y : Host}
    (h : Sharing S valid signer byz t tr i x) (ha : Host.Apart i x y evs) :
    Sharing S valid signer byz t (tr ++ evs) i y := by
  have hsub : tr ⊆ tr ++ evs := List.subset_append_left _ _
  refine ⟨by rw [ha.eletor]; exact h.leader, ?_, ?_, ?_, ?_⟩
  · rw [ha.eletor]
    intro r ag hag e he
    obtain ⟨hround, howned⟩ := h.shares r ag hag e he
    exact ⟨hround, howned.mono hsub⟩
  · intro dst e he
    rcases ha.todo _ he with hold | hplain | ⟨dst', e', heq, hentered⟩
    · exact hsub (h.pending dst e hold)
    · exact hplain.elim
    · cases heq
      exact List.mem_append_right _ hentered
  · intro e he
    rcases List.mem_append.mp he with he | he
    · exact hsub (h.sent e he)
    · obtain ⟨_, dst, hdue⟩ := ha.sent i e he
      exact hsub (h.pending dst e hdue)
  · intro req hreq
    rcases ha.todo _ hreq with hold | hplain | ⟨dst', e', heq, _⟩
    · exact (h.reveal req hold).mono hsub
    · exact hplain.elim
    · cases heq

/-- The shares of a round together with one that arrives. -/
theorem Sharing.sharesWith {tr : List Event} {i : Int} {x : Host}
    (h : Sharing S valid signer byz t tr i x) {e : Elect}
    (he : Owned S valid signer byz tr e) :
    ∀ e' ∈ (x.core.sharesWith e).item, e'.round = e.round ∧ Owned S valid signer byz tr e' := by
  have hold : ∀ e' ∈ (x.core.sharesOf e.round).item,
      e'.round = e.round ∧ Owned S valid signer byz tr e' := by
    unfold Core.sharesOf
    cases hag : x.core.eletor.ag.lookup e.round with
    | none => simp [newAggregator]
    | some ag => exact h.shares _ ag hag
  unfold Core.sharesWith Aggregator.push
  split
  · exact hold
  · intro e' he'
    rcases List.mem_append.mp he' with he' | he'
    · exact hold e' he'
    · rw [List.mem_singleton] at he'
      subst he'
      exact ⟨rfl, he⟩

private theorem sharing_step (hrec : S.crypto.RecoversFrom valid signer t) {n : Net} {i : Int}
    {mv : HostMove} {y : Host} {evs : List Event}
    (h : Sharing S valid signer byz t n.trace i (n.hosts i))
    (hun : sharesUnforged S valid signer byz n (i, mv) = true)
    (hs : (n.hosts i).Step S.crypto i mv y evs) :
    Sharing S valid signer byz t (n.trace ++ evs) i y := by
  rcases hs.elect_cases with hapart | ⟨e, hup, htodo, hcore, rfl⟩
  · exact h.apart hapart
  have hwith := h.sharesWith (owned_of_upcoming hup hun)
  -- the shares that stay after a quorum has been taken out
  have hadd : ∀ r ag, ((n.hosts i).core.addShare e).lookup r = some ag →
      ∀ e' ∈ ag.item, e'.round = r ∧ Owned S valid signer byz n.trace e' := by
    intro r ag hag
    rw [Core.addShare, GoMap.lookup_insert_ite] at hag
    split at hag
    · subst_vars
      cases hag
      exact fun e' he' => hwith e' ((Aggregator.take_items _).2 he')
    · exact h.shares r ag hag
  rw [List.append_nil]
  rcases Core.handleElect_cases S.crypto (n.hosts i).core e with heq | ⟨leaders, leader, heq, hcase⟩
  · rw [heq] at hcore
    exact ⟨by rw [hcore]; exact h.leader, by rw [hcore]; exact hadd, by rw [hcore]; exact h.pending,
      h.sent, by rw [hcore]; exact h.reveal⟩
  · rw [heq] at hcore
    rcases hcase with ⟨_, hl⟩ | ⟨rfl, msgs, sig, htake, hsig, _⟩
    · rw [h.leader] at hl
      cases hl
    have hmsgs : msgs = ((n.hosts i).core.sharesWith e).item := (Aggregator.take_items _).1 _ htake
    refine ⟨fun r => ?_, fun r ag hag => ?_, ?_, h.sent, ?_⟩
    · rw [hcore, GoMap.lookup_erase_ite, GoMap.lookup_insert_ite]
      split
      · rfl
      · exact h.leader r
    · rw [hcore, GoMap.lookup_erase_ite] at hag
      split at hag
      · cases hag
      · exact hadd r ag hag
    · rw [hcore]
      simp
    · rw [hcore]
      intro req hreq
      simp only [List.mem_singleton, CoreAct.dag.injEq, CoreReq.commitReq.injEq] at hreq
      subst hreq
      exact backed_of_recover hrec (hmsgs ▸ hwith) hsig

/-- Only members send shares. -/
theorem mem_ids_of_sent {moves : List (Int × HostMove)} {n : Net} (h : Reaches S moves n)
    {j : Int} {e : Elect} (hev : .sent j (.net (.elect e)) ∈ n.trace) : j ∈ S.committee.ids := by
  refine Machine.invariant (P := fun n : Net => ∀ j e, .sent j (.net (.elect e)) ∈ n.trace →
    j ∈ S.committee.ids) ?_ (by simp [init]) h j e hev
  rintro n ⟨i, mv⟩ n' hn hs j e hev
  obtain ⟨hi, y, evs, hy, rfl⟩ := step_cases hs
  rcases List.mem_append.mp hev with hev | hev
  · exact hn j e hev
  · exact hy.sent_elect hev ▸ hi

/-- **No leader before the round is left.** Whatever the members of `byz` send, replay or
forward: when a node is about to pass the leader of a round to its dag, then all but those of
`t` distinct members that belong to `byz` have entered the next round. With the threshold
`2f+1` of the keys and at most `f` faulty members, `f+1` members outside `byz` have left the
round before anybody knows its leader. -/
theorem leader_after_round (hrec : S.crypto.RecoversFrom valid signer t)
    (hhash : Function.Injective (electHash S.crypto)) {moves : List (Int × HostMove)} {n : Net}
    (h : Reaches S moves n)
    (hok : Machine.Along (step S) (fun n mv => sharesUnforged S valid signer byz n mv = true)
      (init S) moves) {i : Int} (hi : i ∈ S.committee.ids) {req : CommitReq}
    (hreq : .dag (.commitReq req) ∈ (n.hosts i).core.todo) :
    ∃ q : List Int, q.Nodup ∧ t ≤ q.length + byz.length ∧
      ∀ j ∈ q, j ∉ byz ∧ .entered j (req.round + 1) ∈ n.trace := by
  have hinv := invariant_hosts (P := Sharing S valid signer byz t)
    (fun i _ => sharing_init i)
    (fun hne hs hx => hx.mono fun e he => hne (hs.sent_elect he).symm)
    (fun n i mv y evs _ hun hx hs => sharing_step hrec hx hun hs) h hok
  obtain ⟨q, hnodup, hlen, hq⟩ := (hinv i hi).reveal req hreq
  refine ⟨q, hnodup, hlen, fun j hj => ?_⟩
  obtain ⟨hhonest, e, he, hround⟩ := hq j hj
  refine ⟨hhonest, ?_⟩
  rw [← hhash hround]
  exact (hinv j (mem_ids_of_sent h he)).sent e he

end Coin

/-- Four members with the coin of `threeShares`. -/
def fourSharers : Setup := ⟨Core.threeShares, World.fourNodes.committee, 2 ^ 45⟩

/-- A block of round `0` that is high enough to be referred to from the next round. -/
def highBlock (j : Int) : Block := newBlock Core.threeShares j 2 0 0 ⟨-1, []⟩ []

/-- Node `i` hears of the high blocks of the others, and of echoes of its own first block. It
enters round `1` and sends its share for the coin of round `0`. -/
def leaveRound (i : Int) : List (Int × HostMove) :=
  firstBlock i ++ [(i, .core ⟨-1, []⟩)] ++
    (([0, 1, 2, 3].filter (· ≠ i)).map fun j => (i, .receive (Codec.write
      (.net (.propose (highBlock j)))))) ++
    ([0, 1, 2].map fun j => (i, .receive (Codec.write (.net (.echo
      (newEcho Core.threeShares j (newBlock Core.threeShares i 0 0 0 ⟨-1, []⟩ []))))))) ++
    (List.replicate 4 (List.replicate 3 (i, .core ⟨-1, []⟩) ++ [(i, .pair (.dag []))])).flatten ++
    List.replicate 4 (i, .core ⟨-1, []⟩) ++
    [(i, .pair (.dag [])), (i, .core ⟨-1, []⟩), (i, .core ⟨-1, []⟩)]

/-- Nodes `1` and `2` leave round `0`. Member `3` forwards their shares to node `0`, together
with its own. -/
def sharesForwarded : List (Int × HostMove) :=
  leaveRound 1 ++ leaveRound 2 ++ firstBlock 0 ++
    ([1, 2, 3].map fun j => (0, .receive (Codec.write (.net (.elect (Core.goodShare j 0)))))) ++
    List.replicate 4 (0, .core ⟨-1, []⟩)

/-- Two honest members have entered round `1` before the leader of round `0` is passed on. -/
theorem leader_after_round_sharesForwarded : ∃ n, Reaches fourSharers sharesForwarded n ∧
    .dag (.commitReq ⟨2, 0⟩) ∈ (n.hosts 0).core.todo ∧
    ∃ q : List Int, q.Nodup ∧ 3 ≤ q.length + 1 ∧
      ∀ j ∈ q, j ∉ [3] ∧ .entered j 1 ∈ n.trace := by
  have hstate : ∃ n ∈ Machine.run (step fourSharers) (init fourSharers) sharesForwarded,
      .dag (.commitReq ⟨2, 0⟩) ∈ (n.hosts 0).core.todo := by decide +kernel
  have hok : Machine.Along (step fourSharers) (fun n mv => sharesUnforged fourSharers Core.oneByte
      Core.signerByte [3] n mv = true) (init fourSharers) sharesForwarded := by decide +kernel
  have hhash : Function.Injective (electHash fourSharers.crypto) :=
    fun _ _ h => appendInt_injective h
  obtain ⟨n, hn, hreq⟩ := hstate
  exact ⟨n, hn, hreq,
    leader_after_round Core.threeShares_recoversFrom hhash hn hok (by decide) hreq⟩

end Net

end Loom.Remote
