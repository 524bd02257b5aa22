import Loom.Remote.Net
import Loom.Core.Quorum

/-!
# Echoes and the proposals they trigger

`handleEcho` counts echoes by height and continues from the header of the echo that
completes the quorum. It does not ask whose block is echoed, and the digest of an echo
covers neither the round nor `FirstRefH`. The quorum stands for a block of the node only
if every echo counted carries the header of such a block, and its digest is that of
nothing else that its author has signed.
-/

namespace Loom.Remote

/-- Whether a message is an echo of the slot. -/
def RemoteMessage.isEchoOf (s : Slot) : RemoteMessage → Bool
  | .net (.echo e) => decide (e.header.slot = s)
  | _ => false

namespace Net

/-- The blocks proposed so far. -/
def proposals (tr : List Event) : List Block :=
  tr.filterMap fun
    | .proposed b => some b
    | _ => none

/-- The proposed blocks of a trace. -/
theorem mem_proposals {tr : List Event} {b : Block} : b ∈ proposals tr ↔ .proposed b ∈ tr := by
  apply Machine.mem_selected
  intro e a
  cases e <;> simp

/-- The condition under which the echoes that node `i` counts stand for its own blocks:
each correctly signed echo carries the header of a block that the node has proposed, and
its author has signed the digest for an echo of this slot only. -/
def echoesOwn (S : Setup) (i : Int) (n : Net) (mv : Int × HostMove) : Bool :=
  match (n.hosts mv.1).upcoming mv.2 with
  | some (.net (.echo e)) =>
    decide (mv.1 = i → e.verify S.crypto S.committee = some true →
      (∃ b ∈ proposals n.trace, b.header = e.header ∧ b.header.slot.author = i) ∧
      ∀ m ∈ sentBy n.trace e.author, m.digest S.crypto = some (e.hash S.crypto) →
        m.isEchoOf e.header.slot = true)
  | _ => true

/-- Node `i` has counted an echo of its block at the height in the name of member `a`, and
the member has sent such an echo unless it belongs to `byz`. -/
structure Heard (S : Setup) (byz : List Int) (tr : List Event) (i height a : Int) : Prop where
  member : a ∈ S.committee.ids
  counted : ∃ e, .heard i e ∈ tr ∧ e.author = a ∧ e.header.slot = ⟨i, height⟩ ∧
    e.verify S.crypto S.committee = some true
  sent : a ∉ byz → ∃ e, .sent a (.net (.echo e)) ∈ tr ∧ e.header.slot = ⟨i, height⟩

/-- What was heard stays heard. -/
theorem Heard.mono {S : Setup} {byz : List Int} {tr tr' : List Event} {i height a : Int}
    (h : Heard S byz tr i height a) (hsub : tr ⊆ tr') : Heard S byz tr' i height a := by
  refine ⟨h.member, ?_, fun ha => ?_⟩
  · obtain ⟨e, he, hrest⟩ := h.counted
    exact ⟨e, hsub he, hrest⟩
  · obtain ⟨e, he, hrest⟩ := h.sent ha
    exact ⟨e, hsub he, hrest⟩

/-- A proposal at the height above the given block of node `i`, on a quorum of echoes. -/
def Quorate (S : Setup) (byz : List Int) (tr : List Event) (i height round firstRefH : Int) :
    Prop :=
  ∃ b, .proposed b ∈ tr ∧ b.header = ⟨⟨i, height⟩, round, firstRefH⟩ ∧
    ∃ authors : List Int, authors.Nodup ∧ S.committee.hightThreshold ≤ authors.length ∧
      ∀ a ∈ authors, Heard S byz tr i height a

/-- A quorum of echoes stays one. -/
theorem Quorate.mono {S : Setup} {byz : List Int} {tr tr' : List Event}
    {i height round firstRefH : Int} (h : Quorate S byz tr i height round firstRefH)
    (hsub : tr ⊆ tr') : Quorate S byz tr' i height round firstRefH := by
  obtain ⟨b, hb, hheader, authors, hnodup, hlen, hheard⟩ := h
  exact ⟨b, hsub hb, hheader, authors, hnodup, hlen, fun a ha => (hheard a ha).mono hsub⟩

/-- The echoes that node `i` has counted, and the proposals it started from them. -/
structure Counted (S : Setup) (byz : List Int) (tr : List Event) (i : Int) (x : Host) : Prop where
  committee : x.core.committee = S.committee
  votes : ∀ height ag, x.core.voteAg.lookup height = some ag →
    ag.Ok S.committee ∧ ∀ a ∈ ag.used, Heard S byz tr i height a
  proposing : ∀ height round firstRefH, .proposing i height round firstRefH ∈ tr →
    Quorate S byz tr i (height - 1) round firstRefH

private theorem counted_init (S : Setup) (byz : List Int) (i : Int) :
    Counted S byz [] i (Host.init S i) where
  committee := rfl
  votes height ag h := by
    simp [Host.init, Core.init] at h
  proposing := by simp

end Net

namespace Host

/-- A handled proposal starts no proposal of its own. -/
theorem proposing_notMem_echoEvents {cr : Crypto} {c : Core} {i j height round f : Int}
    {b : Block} : .proposing j height round f ∉ echoEvents cr c i b := by
  unfold echoEvents
  split <;> simp

/-- Only a handled echo touches the votes or starts a proposal. -/
theorem Step.echo_cases {cr : Crypto} {i : Int} {x y : Host} {mv : HostMove} {evs : List Event}
    (hs : x.Step cr i mv y evs) : y.core.committee = x.core.committee ∧
      ((y.core.voteAg = x.core.voteAg ∧ ∀ j h r f, .proposing j h r f ∉ evs) ∨
        ∃ e, x.upcoming mv = some (.net (.echo e)) ∧ x.core.todo = [] ∧
          x.core.handleEcho cr e = some y.core ∧
          evs = recvEvents cr x.core y.core i (.echo e)) := by
  have hpropose : ∀ {b : Block} {core : Core}, x.core.handlePropose cr b = some core →
      core.committee = x.core.committee ∧ core.voteAg = x.core.voteAg := by
    intro b core hh
    rcases Core.handlePropose_cases hh with rfl | rfl <;> exact ⟨rfl, rfl⟩
  cases hs with
  | garbled | closed | receive | send | loop | dagReq | build | panicBlock | panicMessage
  | panicLoopBack | answer | overflow | pair =>
    exact ⟨rfl, Or.inl ⟨rfl, by simp⟩⟩
  | @block batch b bs core htodo hblocks hh =>
    exact ⟨(hpropose hh).1, Or.inl ⟨(hpropose hh).2, fun _ _ _ _ => proposing_notMem_echoEvents⟩⟩
  | @loopBack b core htodo hblocks hh =>
    exact ⟨(hpropose hh).1, Or.inl ⟨(hpropose hh).2, fun _ _ _ _ => proposing_notMem_echoEvents⟩⟩
  | @message batch m rest y evs htodo hblocks hrecv hh =>
    have hup : x.upcoming (.core batch) = some m := by
      simp only [upcoming, htodo, hblocks, hrecv, List.head?_cons]
    rcases handle_cases hh with ⟨msg, core, rfl, hcore, rfl, rfl⟩ | ⟨blocks, requests, rfl, rfl⟩
    · cases msg with
      | propose b =>
        exact ⟨(hpropose hcore).1, Or.inl ⟨(hpropose hcore).2,
          fun _ _ _ _ => proposing_notMem_echoEvents⟩⟩
      | echo e =>
        refine ⟨?_, Or.inr ⟨e, hup, htodo, hcore, rfl⟩⟩
        rcases Core.handleEcho_cases hcore with rfl | ⟨_, rfl⟩ | ⟨_, rfl⟩ <;> rfl
      | elect e =>
        change some (x.core.handleElect cr e) = some core at hcore
        cases hcore
        rcases Core.handleElect_cases cr x.core e with heq | ⟨_, _, heq, _⟩ <;>
          exact ⟨by simp [heq], Or.inl ⟨by simp [heq], by simp [recvEvents]⟩⟩
    · exact ⟨rfl, Or.inl ⟨rfl, by simp⟩⟩

/-- Nobody else starts a proposal of a node. -/
theorem Step.proposing_node {cr : Crypto} {i j : Int} {x y : Host} {mv : HostMove}
    {evs : List Event} {h r f : Int} (hs : x.Step cr i mv y evs)
    (hev : .proposing j h r f ∈ evs) : j = i := by
  obtain ⟨_, ⟨_, hno⟩ | ⟨e, _, _, _, rfl⟩⟩ := hs.echo_cases
  · exact absurd hev (hno j h r f)
  · simp only [recvEvents, List.mem_append] at hev
    rcases hev with hev | hev
    · split at hev <;> simp at hev
    · unfold proposingEvents at hev
      split at hev
      · simp only [List.mem_singleton, Event.proposing.injEq] at hev
        exact hev.1
      · cases hev

end Host

namespace Net

/-- The echo that a node is about to count, in a run without forgeries. -/
theorem heard_of_upcoming {S : Setup} {byz : List Int} {n : Net} {i : Int} {mv : HostMove}
    {e : Echo} (hup : (n.hosts i).upcoming mv = some (.net (.echo e)))
    (hv : e.verify S.crypto S.committee = some true) (hun : unforged S byz n (i, mv) = true)
    (hown : echoesOwn S i n (i, mv) = true) :
    (∃ b, .proposed b ∈ n.trace ∧ b.header = e.header) ∧ e.header.slot.author = i ∧
      (e.author ∉ byz → ∃ e', .sent e.author (.net (.echo e')) ∈ n.trace ∧
        e'.header.slot = e.header.slot) := by
  simp only [echoesOwn, hup, decide_eq_true_eq] at hown
  obtain ⟨⟨b, hb, hheader, hauthor⟩, honly⟩ := hown trivial hv
  refine ⟨⟨b, mem_proposals.mp hb, hheader⟩, hheader ▸ hauthor, fun hhonest => ?_⟩
  simp only [unforged, hup, Option.all_some, genuine, RemoteMessage.signatures, List.all_cons,
    List.all_nil, Bool.and_true, decide_eq_true_eq] at hun
  obtain ⟨m, hm, hd⟩ := (hun hv).resolve_left hhonest
  have hecho := honly m hm hd
  unfold RemoteMessage.isEchoOf at hecho
  split at hecho
  · exact ⟨_, mem_sentBy.mp hm, by simpa using hecho⟩
  · cases hecho

/-- After the echo of a height has been counted, its aggregator is as it should be. -/
theorem Counted.votesFor {S : Setup} {byz : List Int} {tr tr' : List Event} {i : Int} {x : Host}
    (h : Counted S byz tr i x) (hsub : tr ⊆ tr') {e : Echo}
    (hnew : Heard S byz tr' i e.header.slot.height e.author) :
    ((x.core.voteAg.lookup e.header.slot.height).getD
      (newAggregator x.core.committee)).Ok S.committee ∧
    ∀ a ∈ (x.core.votesFor e).used, Heard S byz tr' i e.header.slot.height a := by
  unfold Core.votesFor
  cases hl : x.core.voteAg.lookup e.header.slot.height with
  | none =>
    refine ⟨h.committee ▸ Aggregator.ok_new _, fun a ha => ?_⟩
    rcases Aggregator.mem_push_used.mp ha with rfl | ha
    · exact hnew
    · cases ha
  | some ag =>
    refine ⟨(h.votes _ ag hl).1, fun a ha => ?_⟩
    rcases Aggregator.mem_push_used.mp ha with rfl | ha
    · exact hnew
    · exact ((h.votes _ ag hl).2 a ha).mono hsub

/-- A step that leaves the votes alone. -/
theorem Counted.frame {S : Setup} {byz : List Int} {tr evs : List Event} {i : Int} {x y : Host}
    (h : Counted S byz tr i x) (hcom : y.core.committee = x.core.committee)
    (hvotes : y.core.voteAg = x.core.voteAg)
    (hno : ∀ height round g, .proposing i height round g ∉ evs) :
    Counted S byz (tr ++ evs) i y where
  committee := hcom.trans h.committee
  votes height ag hag := by
    rw [hvotes] at hag
    exact ⟨(h.votes height ag hag).1, fun a ha =>
      ((h.votes height ag hag).2 a ha).mono (List.subset_append_left _ _)⟩
  proposing height round g hev := by
    rcases List.mem_append.mp hev with hev | hev
    · exact (h.proposing _ _ _ hev).mono (List.subset_append_left _ _)
    · exact absurd hev (hno _ _ _)

private theorem counted_step {S : Setup} {byz : List Int} {f : Nat}
    (hn : S.committee.size = 3 * f + 1)
    {n : Net} {i : Int} {mv : HostMove} {y : Host} {evs : List Event}
    (h : Counted S byz n.trace i (n.hosts i)) (hun : unforged S byz n (i, mv) = true)
    (hown : echoesOwn S i n (i, mv) = true) (hs : (n.hosts i).Step S.crypto i mv y evs) :
    Counted S byz (n.trace ++ evs) i y := by
  have hsub : n.trace ⊆ n.trace ++ evs := List.subset_append_left _ _
  obtain ⟨hcom, ⟨hvotes, hno⟩ | ⟨e, hup, htodo, hh, hevs⟩⟩ := hs.echo_cases
  · exact h.frame hcom hvotes (hno i)
  have hquiet : y.core.todo = [] → ∀ height round g, .proposing i height round g ∉ evs := by
    intro hnil height round g hev
    rw [hevs] at hev
    simp only [Host.recvEvents, hnil, Host.proposingEvents, List.append_nil] at hev
    split at hev <;> simp at hev
  rcases Core.verify_of_handleEcho hh with hsame | hv
  · exact h.frame hcom (by rw [hsame]) (hquiet (by rw [hsame, htodo]))
  have hv' : e.verify S.crypto S.committee = some true := h.committee ▸ hv
  obtain ⟨⟨b, hb, hheader⟩, hauthor, hsent⟩ := heard_of_upcoming hup hv' hun hown
  have hslot : e.header.slot = ⟨i, e.header.slot.height⟩ := by rw [← hauthor]
  have hid : e.author ∈ S.committee.ids := mem_ids_of_verifySig hv'
  have hnew : Heard S byz (n.trace ++ evs) i e.header.slot.height e.author := by
    refine ⟨hid, ⟨e, ?_, rfl, hslot, hv'⟩, fun ha => ?_⟩
    · rw [hevs]
      simp [Host.recvEvents, hv]
    · obtain ⟨e', he', hslot'⟩ := hsent ha
      exact ⟨e', hsub he', hslot'.trans hslot⟩
  obtain ⟨hag, hused⟩ := h.votesFor hsub hnew
  have hinsert : ∀ {ag' : Aggregator Echo}, ag'.Ok S.committee →
      ag'.used = ((n.hosts i).core.votesFor e).used →
      ∀ height ag, ((n.hosts i).core.voteAg.insert e.header.slot.height ag').lookup height =
        some ag → ag.Ok S.committee ∧ ∀ a ∈ ag.used, Heard S byz (n.trace ++ evs) i height a := by
    intro ag' hok hsame height ag hl
    rw [GoMap.lookup_insert_ite] at hl
    split at hl
    · subst_vars
      cases hl
      exact ⟨hok, by rw [hsame]; exact hused⟩
    · exact ⟨(h.votes height ag hl).1, fun a ha => ((h.votes height ag hl).2 a ha).mono hsub⟩
  rcases Core.handleEcho_cases hh with hsame | ⟨hnone, hcore⟩ | ⟨⟨msgs, hsome⟩, hcore⟩
  · exact h.frame hcom (by rw [hsame]) (hquiet (by rw [hsame, htodo]))
  · rcases hag.push_take (Committee.size_lt hn) hid e with ⟨_, heq, hok, _⟩ | ⟨⟨msgs, hsome⟩, _⟩
    · refine ⟨hcom.trans h.committee, ?_, fun height round g hev => ?_⟩
      · rw [hcore]
        exact hinsert (heq ▸ hok) (congrArg Aggregator.used heq)
      · rcases List.mem_append.mp hev with hev | hev
        · exact (h.proposing _ _ _ hev).mono hsub
        · exact absurd hev (hquiet (by rw [hcore]; exact htodo) _ _ _)
    · exact absurd (hnone.symm.trans hsome) (by simp)
  · rcases hag.push_take (Committee.size_lt hn) hid e with ⟨hnone, _⟩ | ⟨_, _, hmany, hok, hsame, _⟩
    · exact absurd (hnone.symm.trans hsome) (by simp)
    · refine ⟨hcom.trans h.committee, ?_, fun height round g hev => ?_⟩
      · rw [hcore]
        exact hinsert hok hsame
      · rcases List.mem_append.mp hev with hev | hev
        · exact (h.proposing _ _ _ hev).mono hsub
        · have htodo' : y.core.todo = Core.propose (e.header.slot.height + 1) e.header.round
              e.header.firstRefH := by rw [hcore]
          rw [hevs, Host.recvEvents, htodo', if_pos hv] at hev
          simp only [Core.propose, Host.proposingEvents, List.mem_append, List.mem_singleton,
            reduceCtorEq, Event.proposing.injEq, true_and, false_or] at hev
          obtain ⟨rfl, rfl, rfl⟩ := hev
          refine ⟨b, hsub hb, ?_, _, hok.nodup, hmany, ?_⟩
          · rw [hheader, Int.add_sub_cancel, ← hslot]
          · rw [hsame, Int.add_sub_cancel]
            exact hused

/-- **Echoes cannot steer a proposer**, as long as the echoes it counts stand for its own
blocks. Whatever the members of `byz` send, replay or forward: whenever node `i` calls
`propose` from `handleEcho`, it has proposed a block at the height below, the round and
`FirstRefH` passed on are those of this block, and echoes of the block's slot have been
counted from `2f+1` distinct members, each of which has sent one unless it belongs to
`byz`. -/
theorem proposing_quorate {S : Setup} {byz : List Int} {moves : List (Int × HostMove)} {n : Net}
    {f : Nat} (hn : S.committee.size = 3 * f + 1) (h : Reaches S moves n) {i : Int}
    (hi : i ∈ S.committee.ids)
    (hok : Machine.Along (step S) (fun n mv => unforged S byz n mv = true ∧
      echoesOwn S i n mv = true) (init S) moves)
    {height round firstRefH : Int} (hev : .proposing i (height + 1) round firstRefH ∈ n.trace) :
    ∃ b, .proposed b ∈ n.trace ∧ b.header = ⟨⟨i, height⟩, round, firstRefH⟩ ∧
      ∃ authors : List Int, authors.Nodup ∧ 2 * f + 1 ≤ authors.length ∧
        ∀ a ∈ authors, Heard S byz n.trace i height a := by
  have hinv := invariant_hosts
    (P := fun tr j x => j = i → Counted S byz tr i x)
    (fun j _ hj => hj ▸ counted_init S byz j)
    (fun hne hs hx hj => (hx hj).frame rfl rfl fun _ _ _ hev =>
      hne (hj ▸ (hs.proposing_node hev).symm))
    (fun n j mv y evs _ hq hx hs hj => by
      subst hj
      exact counted_step hn (hx rfl) hq.1 hq.2 hs) h hok i hi rfl
  have hquorate := hinv.proposing _ _ _ hev
  rw [Int.add_sub_cancel, Quorate, Committee.hightThreshold_eq hn] at hquorate
  exact hquorate

/-- Four members. The signature of a member is its number in front of the digest. -/
def tagged : Setup where
  crypto :=
    { sha256 := id
      sign := fun i digest => UInt8.ofNat i.toNat :: digest
      edVerify := fun pub digest sig => decide (sig = pub.headD 0 :: digest)
      tsSign := fun _ _ => none
      recover := fun _ _ => none }
  committee := ⟨(List.range 4).map fun k => List.replicate 32 (UInt8.ofNat k)⟩
  lineCap := 2 ^ 45

/-- A node receives a block first of all, and sends an echo of it. -/
def echoBack (b : Block) (i : Int) : List (Int × HostMove) :=
  (i, .receive (Codec.write (.net (.propose b)))) :: firstBlock i ++
    List.replicate 3 (i, .core ⟨-1, []⟩)

/-- Nodes `1` and `2` echo a block. Member `3` forwards their echoes to node `0`, together
with one of its own. -/
def forwarded (b : Block) : List (Int × HostMove) :=
  firstBlock 0 ++ echoBack b 1 ++ echoBack b 2 ++
    [1, 2, 3].map (fun k =>
      (0, .receive (Codec.write (.net (.echo (newEcho tagged.crypto k b)))))) ++
    List.replicate 4 (0, .core ⟨-1, []⟩)

/-- The first block of node `0`. -/
def ownBlock : Block := newBlock tagged.crypto 0 0 0 0 ⟨-1, []⟩ []

/-- Three members have echoed the first block of member `0`. -/
theorem proposing_quorate_ownBlock : ∃ n, Reaches tagged (forwarded ownBlock) n ∧
    .proposing 0 1 0 0 ∈ n.trace ∧
    ∃ b, .proposed b ∈ n.trace ∧ b.header = ⟨⟨0, 0⟩, 0, 0⟩ ∧
      ∃ authors : List Int, authors.Nodup ∧ 3 ≤ authors.length ∧
        ∀ a ∈ authors, Heard tagged [3] n.trace 0 0 a := by
  have hstate : ∃ n ∈ Machine.run (step tagged) (init tagged) (forwarded ownBlock),
      .proposing 0 1 0 0 ∈ n.trace := by decide +kernel
  have hok : Machine.Along (step tagged) (fun n mv => unforged tagged [3] n mv = true ∧
      echoesOwn tagged 0 n mv = true) (init tagged) (forwarded ownBlock) := by decide +kernel
  obtain ⟨n, hn, hev⟩ := hstate
  exact ⟨n, hn, hev, proposing_quorate (f := 1) rfl hn (by decide) hok hev⟩

/-- A block that member `3` has signed for height `5`. -/
def strayBlock : Block := newBlock tagged.crypto 3 5 0 0 ⟨-1, []⟩ []

/-- The echoes of another member's block make node `0` propose at height `6`, although it
has proposed nothing at height `5`. Nobody but member `3` departs from the code. -/
theorem strayBlock_steers_proposer : ∃ n, Reaches tagged (forwarded strayBlock) n ∧
    Machine.Along (step tagged) (fun n mv => unforged tagged [3] n mv = true) (init tagged)
      (forwarded strayBlock) ∧
    .proposing 0 6 0 0 ∈ n.trace ∧ ∀ b, .proposed b ∈ n.trace → b.header.slot ≠ ⟨0, 5⟩ := by
  have hstate : ∃ n ∈ Machine.run (step tagged) (init tagged) (forwarded strayBlock),
      .proposing 0 6 0 0 ∈ n.trace ∧ ∀ b ∈ proposals n.trace, b.header.slot ≠ ⟨0, 5⟩ := by
    decide +kernel
  have hok : Machine.Along (step tagged) (fun n mv => unforged tagged [3] n mv = true)
      (init tagged) (forwarded strayBlock) := by decide +kernel
  obtain ⟨n, hn, hev, hno⟩ := hstate
  exact ⟨n, hn, hok, hev, fun b hb => hno b (mem_proposals.mpr hb)⟩

end Net

end Loom.Remote
