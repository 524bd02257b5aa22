import Loom.Remote.Retriever
import Mathlib.Data.List.Chain

/-!
# Repeated requests

A request is sent to the node it names and kept with the time of its last sending. As long as it is
outstanding, a tick sends it again, to everybody, once the retry delay has passed. All messages
under one number are copies of one request apart from the time, and none is sent after a reply.
-/

namespace Loom.Remote.Retriever

/-- The messages sent under a number, with their destinations. -/
def sends (id : Int) (evs : List RetrieverEvent) : List (Int × RequestBlockMsg) :=
  evs.filterMap fun
    | .sent dst request => if request.reqID = id then some (dst, request) else none
    | .loopBack _ _ => none

private theorem sends_append (id : Int) (evs evs' : List RetrieverEvent) :
    sends id (evs ++ evs') = sends id evs ++ sends id evs' := List.filterMap_append ..

private theorem sends_singleton (id dst : Int) (request : RequestBlockMsg) :
    sends id [.sent dst request] = if request.reqID = id then [(dst, request)] else [] := by
  by_cases h : request.reqID = id <;> simp [sends, h]

/-- Nothing is sent where blocks are only handed back. -/
theorem sends_countDown (id : Int) (ids : List Int) (r : Retriever) :
    sends id (countDown ids r).2 = [] := by
  rw [sends, List.filterMap_eq_nil_iff]
  intro ev hev
  obtain ⟨_, rfl⟩ := blockOf_of_mem_countDown hev
  rfl

/-- A request and its repetitions: copies of one request, all but the first to everybody, and
with the delay between one time and the next. -/
structure Series (cr : Crypto) (nodeID retryDelay id : Int)
    (ms : List (Int × RequestBlockMsg)) : Prop where
  copies : ∃ missBlock, ∀ p ∈ ms, p.2 = newRequestBlock cr nodeID missBlock id p.2.ts
  toAll : ∀ p ∈ ms.tail, p.1 = NONE
  spaced : ms.IsChain fun p q => retryDelay ≤ q.2.ts - p.2.ts

private theorem series_nil (cr : Crypto) (nodeID retryDelay id : Int) :
    Series cr nodeID retryDelay id [] := ⟨⟨[], by simp⟩, by simp, .nil⟩

private theorem series_singleton (cr : Crypto) (nodeID retryDelay id dst ts : Int)
    (missBlock : List Digest) :
    Series cr nodeID retryDelay id [(dst, newRequestBlock cr nodeID missBlock id ts)] :=
  ⟨⟨missBlock, by simp [newRequestBlock]⟩, by simp, .singleton _⟩

/-- The last message is repeated. -/
theorem Series.repeat {cr : Crypto} {nodeID retryDelay id : Int}
    {ms : List (Int × RequestBlockMsg)} (h : Series cr nodeID retryDelay id ms) {dst now : Int}
    {req : RequestBlockMsg} (hlast : ms.getLast? = some (dst, req))
    (hdelay : retryDelay ≤ now - req.ts) :
    Series cr nodeID retryDelay id
      (ms ++ [(NONE, newRequestBlock cr req.author req.missBlock req.reqID now)]) := by
  obtain ⟨missBlock, hcopies⟩ := h.copies
  have hreq := hcopies _ (List.mem_of_getLast? hlast)
  dsimp only at hreq
  refine ⟨⟨missBlock, fun p hp => ?_⟩, fun p hp => ?_, ?_⟩
  · rcases List.mem_append.mp hp with hp | hp
    · exact hcopies p hp
    · cases List.mem_singleton.mp hp
      rw [hreq]
      rfl
  · cases ms with
    | nil => cases hlast
    | cons q ms =>
      rw [List.cons_append, List.tail_cons] at hp
      rcases List.mem_append.mp hp with hp | hp
      · exact h.toAll p hp
      · cases List.mem_singleton.mp hp
        rfl
  · rw [List.isChain_append]
    refine ⟨h.spaced, .singleton _, fun x hx y hy => ?_⟩
    rw [hlast] at hx
    cases hx
    cases hy
    exact hdelay

/-- The outstanding requests are those sent last, and the next numbers are unused. -/
structure Logged (cr : Crypto) (nodeID retryDelay : Int) (evs : List RetrieverEvent)
    (r : Retriever) : Prop where
  owner : r.nodeID = nodeID ∧ r.retryDelay = retryDelay
  unused : ∀ id, r.cnt ≤ id → sends id evs = []
  last : ∀ id req, r.requests.lookup id = some req →
    ∃ dst, (sends id evs).getLast? = some (dst, req)
  series : ∀ id, Series cr nodeID retryDelay id (sends id evs)

variable {cr : Crypto} {nodeID retryDelay : Int}

private theorem logged_new : Logged cr nodeID retryDelay [] (newRetriever nodeID retryDelay) where
  owner := ⟨rfl, rfl⟩
  unused _ _ := rfl
  last := by simp [newRetriever]
  series _ := series_nil ..

/-- What a request does to the messages. -/
theorem handleRequest_sent (cr : Crypto) (r : Retriever) (missRefs : List Digest) (dst : Int)
    (backBlock : Digest) (now : Int) :
    let r' := (r.handleRequest cr missRefs dst backBlock now).1
    r'.nodeID = r.nodeID ∧ r'.retryDelay = r.retryDelay ∧ r'.cnt = r.cnt + 1 ∧
    ((r'.requests = r.requests ∧ (r.handleRequest cr missRefs dst backBlock now).2 = []) ∨
      ∃ missBlock, missBlock ⊆ missRefs ∧ r'.requests = r.requests.insert r.cnt
          (newRequestBlock cr r.nodeID missBlock r.cnt now) ∧
        (r.handleRequest cr missRefs dst backBlock now).2 =
          [.sent dst (newRequestBlock cr r.nodeID missBlock r.cnt now)]) := by
  have hframe := register_frame missRefs { r with
    loopBackBlocks := r.loopBackBlocks.insert r.cnt backBlock
    loopBackCnts := r.loopBackCnts.insert r.cnt missRefs.length } []
  obtain ⟨new, hnew, _, hmem⟩ := register_new missRefs { r with
    loopBackBlocks := r.loopBackBlocks.insert r.cnt backBlock
    loopBackCnts := r.loopBackCnts.insert r.cnt missRefs.length } []
  unfold handleRequest
  generalize register missRefs _ [] = reg at hframe hnew ⊢
  obtain ⟨r', missBlocks⟩ := reg
  dsimp only at hframe hnew ⊢
  split
  · refine ⟨?_, ?_, ?_, Or.inr ⟨missBlocks, ?_, ?_, ?_⟩⟩
    · rw [hframe]
    · rw [hframe]
    · rw [hframe]
    · intro d hd
      rw [hnew, List.nil_append] at hd
      exact ((hmem d).mp hd).1
    · rw [hframe]
      rfl
    · rw [hframe]
  · refine ⟨?_, ?_, ?_, Or.inl ⟨?_, rfl⟩⟩ <;> rw [hframe]

/-- A request is entered into the log. -/
theorem Logged.request {evs : List RetrieverEvent} {r : Retriever}
    (h : Logged cr nodeID retryDelay evs r) (missRefs : List Digest) (dst : Int)
    (backBlock : Digest) (now : Int) :
    Logged cr nodeID retryDelay (evs ++ (r.handleRequest cr missRefs dst backBlock now).2)
      (r.handleRequest cr missRefs dst backBlock now).1 := by
  obtain ⟨hnode, hdelay, hcnt, ⟨hreqs, hevs⟩ | ⟨missBlock, _, hreqs, hevs⟩⟩ :=
    handleRequest_sent cr r missRefs dst backBlock now
  · rw [hevs, List.append_nil]
    refine ⟨⟨hnode.trans h.owner.1, hdelay.trans h.owner.2⟩, fun id hid => ?_, ?_, h.series⟩
    · exact h.unused id (by omega)
    · rw [hreqs]
      exact h.last
  · rw [hevs]
    have hsends : ∀ id, sends id (evs ++
        [.sent dst (newRequestBlock cr r.nodeID missBlock r.cnt now)]) =
        if id = r.cnt then [(dst, newRequestBlock cr r.nodeID missBlock r.cnt now)]
        else sends id evs := by
      intro id
      rw [sends_append, sends_singleton]
      by_cases hid : id = r.cnt
      · subst hid
        rw [h.unused _ le_rfl]
        simp [newRequestBlock]
      · rw [if_neg hid, if_neg fun heq => hid heq.symm, List.append_nil]
    refine ⟨⟨hnode.trans h.owner.1, hdelay.trans h.owner.2⟩, fun id hid => ?_,
      fun id req hreq => ?_, fun id => ?_⟩
    · rw [hsends, if_neg (by omega)]
      exact h.unused id (by omega)
    · rw [hreqs, GoMap.lookup_insert_ite] at hreq
      rw [hsends]
      split at hreq
      · rename_i hid
        cases hreq
        rw [if_pos hid]
        exact ⟨dst, rfl⟩
      · rename_i hid
        rw [if_neg hid]
        exact h.last id req hreq
    · rw [hsends]
      split
      · rename_i hid
        rw [hid, h.owner.1]
        exact series_singleton ..
      · exact h.series id

/-- A reply takes its request from the outstanding ones, and nothing is sent. -/
theorem handleReply_sent {r : Retriever} (hkeyed : r.Keyed) (reqID : Int) :
    let r' := (r.handleReply reqID).1
    (r'.nodeID = r.nodeID ∧ r'.retryDelay = r.retryDelay ∧ r'.cnt = r.cnt) ∧
    (∀ id, r'.requests.lookup id = if id = reqID then none else r.requests.lookup id) ∧
    ∀ id, sends id (r.handleReply reqID).2 = [] := by
  rcases handleReply_cases hkeyed reqID with ⟨hmiss, heq⟩ | ⟨ds, _, heq⟩
  · rw [heq]
    refine ⟨⟨rfl, rfl, rfl⟩, fun id => ?_, fun _ => rfl⟩
    split
    · rename_i hid
      rw [hid]
      exact Option.map_eq_none_iff.mp hmiss
    · rfl
  · rw [heq]
    exact ⟨⟨rfl, rfl, rfl⟩, fun id => GoMap.lookup_erase_ite .., fun id => sends_countDown id _ r⟩

/-- A reply closes its entry. -/
theorem Logged.reply {evs : List RetrieverEvent} {r : Retriever}
    (h : Logged cr nodeID retryDelay evs r) (hkeyed : r.Keyed) (reqID : Int) :
    Logged cr nodeID retryDelay (evs ++ (r.handleReply reqID).2) (r.handleReply reqID).1 := by
  obtain ⟨⟨hnode, hdelay, hcnt⟩, hreqs, hevs⟩ := handleReply_sent hkeyed reqID
  have hsends : ∀ id, sends id (evs ++ (r.handleReply reqID).2) = sends id evs := by
    intro id
    rw [sends_append, hevs, List.append_nil]
  refine ⟨⟨hnode.trans h.owner.1, hdelay.trans h.owner.2⟩, fun id hid => ?_, fun id req hreq => ?_,
    fun id => ?_⟩
  · rw [hsends]
    exact h.unused id (hcnt ▸ hid)
  · rw [hreqs] at hreq
    rw [hsends]
    split at hreq
    · cases hreq
    · exact h.last id req hreq
  · rw [hsends]
    exact h.series id

/-- One request of a tick is sent again. -/
theorem Logged.again {evs : List RetrieverEvent} {r : Retriever}
    (h : Logged cr nodeID retryDelay evs r) (hkeyed : r.Keyed) {id now : Int}
    {req : RequestBlockMsg} (hreq : r.requests.lookup id = some req)
    (hdelay : r.retryDelay ≤ now - req.ts) :
    let request := newRequestBlock cr req.author req.missBlock req.reqID now
    Logged cr nodeID retryDelay (evs ++ [.sent NONE request])
      { r with requests := r.requests.insert req.reqID request } := by
  intro request
  have hid : req.reqID = id := hkeyed id req hreq
  obtain ⟨dst, hlast⟩ := h.last id req hreq
  have hsends : ∀ id', sends id' (evs ++ [.sent NONE request]) =
      sends id' evs ++ if id' = id then [(NONE, request)] else [] := by
    intro id'
    rw [sends_append, sends_singleton]
    congr 1
    exact if_congr (hid ▸ eq_comm) rfl rfl
  refine ⟨h.owner, fun id' hle => ?_, fun id' req' hreq' => ?_, fun id' => ?_⟩
  · have hunused := h.unused id' hle
    rw [hsends, hunused, List.nil_append, if_neg]
    rintro rfl
    rw [hunused] at hlast
    cases hlast
  · dsimp only at hreq'
    rw [GoMap.lookup_insert_ite, hid] at hreq'
    rw [hsends]
    split at hreq'
    · cases hreq'
      rw [if_pos ‹_›]
      exact ⟨NONE, List.getLast?_concat⟩
    · rw [if_neg ‹_›, List.append_nil]
      exact h.last id' req' hreq'
  · rw [hsends]
    split
    · rename_i heq
      subst heq
      exact (h.series id').repeat hlast (h.owner.2 ▸ hdelay)
    · rw [List.append_nil]
      exact h.series id'

/-- A tick repeats what is old enough. -/
theorem Logged.tick {evs : List RetrieverEvent} {r : Retriever}
    (h : Logged cr nodeID retryDelay evs r) (hkeyed : r.Keyed) (now : Int) (order : List Int) :
    Logged cr nodeID retryDelay (evs ++ (retry cr now order r).2) (retry cr now order r).1 := by
  induction order generalizing evs r with
  | nil => simpa [retry] using h
  | cons id ids ih =>
    rw [retry]
    cases hreq : r.requests.lookup id with
    | none => exact ih h hkeyed
    | some req =>
      dsimp only
      split
      · rename_i hdelay
        have hrest := ih (h.again hkeyed hreq hdelay)
          (hkeyed.insert (newRequestBlock cr req.author req.missBlock req.reqID now))
        rwa [List.append_assoc, List.singleton_append] at hrest
      · exact ih h hkeyed

/-- Every step keeps the log. -/
theorem Logged.step {evs : List RetrieverEvent} {r r' : Retriever} {act : RetrieverAct}
    (h : Logged cr nodeID retryDelay evs r) (hkeyed : r.Keyed) (hs : r.step cr act = some r') :
    Logged cr nodeID retryDelay (evs ++ r.events cr act r') r' := by
  cases act with
  | request missRefs dst backBlock now =>
    cases hs
    exact h.request missRefs dst backBlock now
  | reply reqID =>
    cases hs
    exact h.reply hkeyed reqID
  | tick now order =>
    obtain ⟨_, hs⟩ := Option.ite_none_right_eq_some.mp hs
    cases hs
    exact h.tick hkeyed now order

/-- A number that was used and is not outstanding. -/
def Settled (id : Int) (r : Retriever) : Prop := id < r.cnt ∧ r.requests.lookup id = none

/-- A tick sends nothing under a number that is not outstanding. -/
theorem retry_quiet {id : Int} (now : Int) (order : List Int) {r : Retriever} (hkeyed : r.Keyed)
    (h : r.requests.lookup id = none) :
    (retry cr now order r).1.requests.lookup id = none ∧
      sends id (retry cr now order r).2 = [] := by
  induction order generalizing r with
  | nil => exact ⟨h, rfl⟩
  | cons x ids ih =>
    rw [retry]
    cases hreq : r.requests.lookup x with
    | none => exact ih hkeyed h
    | some req =>
      dsimp only
      split
      · have hid : (newRequestBlock cr req.author req.missBlock req.reqID now).reqID ≠ id := by
          rintro rfl
          rw [show (newRequestBlock cr req.author req.missBlock req.reqID now).reqID = x from
            hkeyed x req hreq, hreq] at h
          cases h
        obtain ⟨hnone, hsends⟩ := ih
          (hkeyed.insert (newRequestBlock cr req.author req.missBlock req.reqID now))
          (by rw [GoMap.lookup_insert_ite, if_neg (Ne.symm hid)]; exact h)
        refine ⟨hnone, ?_⟩
        rw [← List.singleton_append, sends_append, sends_singleton, if_neg hid]
        exact hsends
      · exact ih hkeyed h

/-- A tick changes neither the number of requests nor what a settled number stands for. -/
theorem settled_retry {id : Int} (now : Int) (order : List Int) {r : Retriever} (hkeyed : r.Keyed)
    (h : Settled id r) :
    Settled id (retry cr now order r).1 ∧ sends id (retry cr now order r).2 = [] := by
  obtain ⟨hnone, hsends⟩ := @retry_quiet cr id now order r hkeyed h.2
  refine ⟨⟨?_, hnone⟩, hsends⟩
  rw [(retry_spec cr now order hkeyed).2.1]
  exact h.1

private theorem settled_request {id : Int} {r : Retriever} (missRefs : List Digest) (dst : Int)
    (backBlock : Digest) (now : Int) (h : Settled id r) :
    Settled id (r.handleRequest cr missRefs dst backBlock now).1 ∧
      sends id (r.handleRequest cr missRefs dst backBlock now).2 = [] := by
  obtain ⟨hlt, hnone⟩ := h
  obtain ⟨_, _, hcnt, ⟨hreqs, hevs⟩ | ⟨missBlock, _, hreqs, hevs⟩⟩ :=
    handleRequest_sent cr r missRefs dst backBlock now
  · exact ⟨⟨by omega, by rw [hreqs]; exact hnone⟩, by rw [hevs]; rfl⟩
  · refine ⟨⟨by omega, ?_⟩, ?_⟩
    · rw [hreqs, GoMap.lookup_insert_ite, if_neg (by omega)]
      exact hnone
    · rw [hevs, sends_singleton, if_neg]
      change r.cnt ≠ id
      omega

/-- Such a number is not used again. -/
theorem Settled.step {id : Int} {r r' : Retriever} {act : RetrieverAct} (h : Settled id r)
    (hkeyed : r.Keyed) (hs : r.step cr act = some r') :
    Settled id r' ∧ sends id (r.events cr act r') = [] := by
  cases act with
  | request missRefs dst backBlock now =>
    cases hs
    exact settled_request missRefs dst backBlock now h
  | reply reqID =>
    cases hs
    obtain ⟨⟨_, _, hcnt⟩, hreqs, hevs⟩ := handleReply_sent hkeyed reqID
    exact ⟨⟨hcnt ▸ h.1, (hreqs id).trans (by rw [h.2, ite_self])⟩, hevs id⟩
  | tick now order =>
    obtain ⟨_, hs⟩ := Option.ite_none_right_eq_some.mp hs
    cases hs
    exact settled_retry now order hkeyed h

private theorem Reaches.logged {acts : List RetrieverAct} {r : Retriever}
    (h : Reaches cr nodeID retryDelay acts r) :
    r.Kept ∧ Logged cr nodeID retryDelay (trace cr nodeID retryDelay acts) r := by
  refine Machine.outputs_invariant
    (P := fun evs (r : Retriever) => r.Kept ∧ Logged cr nodeID retryDelay evs r)
    ⟨kept_new nodeID retryDelay, logged_new⟩ ?_ (Machine.along_of_forall fun _ _ _ => trivial) h
  rintro evs r act r' ⟨hkept, hlogged⟩ _ hs
  exact ⟨hkept.step hs, hlogged.step hkept.keyed hs⟩

/-! ## The first message -/

/-- Whether a turn takes a request from the channel. -/
def isRequest : RetrieverAct → Bool
  | .request _ _ _ _ => true
  | _ => false

/-- The next number is that of the requests so far. -/
theorem Reaches.cnt_eq {acts : List RetrieverAct} {r : Retriever}
    (h : Reaches cr nodeID retryDelay acts r) : r.cnt = acts.countP isRequest := by
  refine Machine.history (P := fun acts (r : Retriever) =>
    r.Kept ∧ r.cnt = (acts.countP isRequest : Int)) ⟨kept_new nodeID retryDelay, rfl⟩ ?_
    (Machine.along_of_forall fun _ _ _ => trivial) h |>.2
  rintro acts r act r' ⟨hkept, hcnt⟩ _ hs
  refine ⟨hkept.step hs, ?_⟩
  rw [List.countP_append, List.countP_singleton]
  cases act with
  | request missRefs dst backBlock now =>
    cases hs
    have hnext := (handleRequest_sent cr r missRefs dst backBlock now).2.2.1
    simp only [isRequest, ↓reduceIte]
    rw [Nat.cast_add, ← hcnt]
    exact hnext
  | reply reqID =>
    cases hs
    have hsame := (handleReply_sent hkept.keyed reqID).1.2.2
    simp only [isRequest, Bool.false_eq_true, ↓reduceIte, Nat.add_zero]
    exact hsame.trans hcnt
  | tick now order =>
    obtain ⟨_, hs⟩ := Option.ite_none_right_eq_some.mp hs
    cases hs
    simp only [isRequest, Bool.false_eq_true, ↓reduceIte, Nat.add_zero]
    rw [handle, (retry_spec cr now order hkept.keyed).2.1]
    exact hcnt

/-- Where the first message of a number comes from: the turn that gives out the number. -/
theorem Reaches.first {acts : List RetrieverAct} {r : Retriever}
    (h : Reaches cr nodeID retryDelay acts r) {id : Int} {p : Int × RequestBlockMsg}
    (hp : (sends id (trace cr nodeID retryDelay acts)).head? = some p) :
    ∃ before missRefs backBlock after,
      acts = before ++ .request missRefs p.1 backBlock p.2.ts :: after ∧
      (before.countP isRequest : Int) = id ∧ p.2.missBlock ⊆ missRefs := by
  induction acts using List.reverseRecOn generalizing r with
  | nil => simp [trace, Machine.outputs, sends] at hp
  | append_singleton acts act ih =>
    obtain ⟨u, hu, hs⟩ := Machine.run_concat.mp h
    have hu' : Reaches cr nodeID retryDelay acts u := hu
    obtain ⟨hkept, hlogged⟩ := hu'.logged
    have htrace : trace cr nodeID retryDelay (acts ++ [act]) =
        trace cr nodeID retryDelay acts ++ events cr u act r := Machine.outputs_concat hu hs
    rw [htrace, sends_append] at hp
    by_cases hold : sends id (trace cr nodeID retryDelay acts) = []
    · rw [hold, List.nil_append] at hp
      -- nothing was sent before, so the number is not outstanding
      have hnone : u.requests.lookup id = none := by
        rw [Option.eq_none_iff_forall_not_mem]
        intro req hreq
        obtain ⟨dst, hlast⟩ := hlogged.last id req hreq
        rw [hold] at hlast
        cases hlast
      cases act with
      | request missRefs dst backBlock now =>
        obtain ⟨_, _, _, ⟨_, hevs⟩ | ⟨missBlock, hsub, _, hevs⟩⟩ :=
          handleRequest_sent cr u missRefs dst backBlock now
        · rw [events, handle, hevs] at hp
          cases hp
        · rw [events, handle, hevs, sends_singleton] at hp
          split at hp
          · rename_i hid
            cases hp
            refine ⟨acts, missRefs, backBlock, [], rfl, ?_, hsub⟩
            rw [← hu'.cnt_eq]
            exact hid
          · cases hp
      | reply reqID =>
        rw [events, handle, (handleReply_sent hkept.keyed reqID).2.2] at hp
        cases hp
      | tick now order =>
        rw [events, handle, (retry_quiet now order hkept.keyed hnone).2] at hp
        cases hp
    · rw [List.head?_append_of_ne_nil _ hold] at hp
      obtain ⟨before, missRefs, backBlock, after, rfl, hrest⟩ := ih hu' hp
      exact ⟨before, missRefs, backBlock, after ++ [act], by simp, hrest⟩

/-- **Requests are repeated at a distance and until they are answered.** After any sequence of
requests, replies and ticks, whatever the clock shows: the messages sent under a number are
copies of one request; the first one is sent when the request with this number is taken, for
some of its references and to the node it names, and all others to everybody, each at least the
retry delay after the one before; and after a reply to a request that was sent, nothing is sent
under its number any more. -/
theorem requests_repeated {acts : List RetrieverAct} {r : Retriever}
    (h : Reaches cr nodeID retryDelay acts r) (id : Int) :
    Series cr nodeID retryDelay id (sends id (trace cr nodeID retryDelay acts)) ∧
    (∀ p, (sends id (trace cr nodeID retryDelay acts)).head? = some p →
      ∃ before missRefs backBlock after,
        acts = before ++ .request missRefs p.1 backBlock p.2.ts :: after ∧
        (before.countP isRequest : Int) = id ∧ p.2.missBlock ⊆ missRefs) ∧
    ∀ before after, acts = before ++ .reply id :: after →
      sends id (trace cr nodeID retryDelay before) ≠ [] →
      sends id (trace cr nodeID retryDelay acts) =
        sends id (trace cr nodeID retryDelay before) := by
  refine ⟨h.logged.2.series id, fun p hp => h.first hp, ?_⟩
  rintro before after rfl hsent
  obtain ⟨r₀, hbefore, hrest⟩ := Machine.run_append.mp h
  obtain ⟨hkept, hlogged⟩ := Reaches.logged hbefore
  obtain ⟨r₁, hreply, hafter⟩ := Machine.run_cons.mp hrest
  have hlt : id < r₀.cnt := by
    by_contra hge
    exact hsent (hlogged.unused id (by omega))
  have hquiet : (r₁.Kept ∧ Settled id r₁) ∧
      sends id (events cr r₀ (.reply id) r₁) = [] := by
    cases hreply
    obtain ⟨⟨_, _, hcnt⟩, hreqs, hevs⟩ := handleReply_sent hkept.keyed id
    exact ⟨⟨hkept.reply id, hcnt ▸ hlt, (hreqs id).trans (if_pos rfl)⟩, hevs id⟩
  have htail : (r.Kept ∧ Settled id r) ∧
      sends id (Machine.outputs (step cr) (events cr) r₁ after) = [] := Machine.outputs_invariant
    (P := fun evs (r : Retriever) => (r.Kept ∧ Settled id r) ∧ sends id evs = [])
    ⟨hquiet.1, rfl⟩ (fun evs u act t hu _ hs => by
      obtain ⟨hsettled, hnone⟩ := hu.1.2.step hu.1.1.keyed hs
      exact ⟨⟨hu.1.1.step hs, hsettled⟩, by rw [sends_append, hu.2, hnone]; rfl⟩)
    (Machine.along_of_forall fun _ _ _ => trivial) hafter
  rw [trace, Machine.outputs_append hbefore, sends_append, Machine.outputs, hreply]
  dsimp only
  rw [sends_append, hquiet.2, htail.2]
  simp [trace]

/-- A request that is asked of node `1`, sent again to all and then answered; the next tick sends
nothing. -/
def askedTwice : List RetrieverAct :=
  [.request [digestOf 1] 1 (digestOf 8) 0, .tick 3 [0], .tick 7 [0], .reply 0, .tick 20 []]

/-- A request goes to one node and, after the delay, to everybody. -/
theorem requests_repeated_askedTwice : ∃ r, Reaches unsigned 0 5 askedTwice r ∧
    sends 0 (trace unsigned 0 5 askedTwice) =
      [(1, newRequestBlock unsigned 0 [digestOf 1] 0 0),
       (NONE, newRequestBlock unsigned 0 [digestOf 1] 0 7)] ∧
    Series unsigned 0 5 0 (sends 0 (trace unsigned 0 5 askedTwice)) ∧
    sends 0 (trace unsigned 0 5 askedTwice) = sends 0 (trace unsigned 0 5 (askedTwice.take 3)) := by
  obtain ⟨r, hr, hsends⟩ :
      ∃ r ∈ Machine.run (step unsigned) (newRetriever 0 5) askedTwice,
        sends 0 (trace unsigned 0 5 askedTwice) =
          [(1, newRequestBlock unsigned 0 [digestOf 1] 0 0),
           (NONE, newRequestBlock unsigned 0 [digestOf 1] 0 7)] := by decide +kernel
  obtain ⟨hseries, _, hquiet⟩ := requests_repeated hr 0
  exact ⟨r, hr, hsends, hseries, hquiet (askedTwice.take 3) [.tick 20 []] rfl (by decide +kernel)⟩

end Loom.Remote.Retriever
