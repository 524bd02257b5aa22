import Loom.Core.Message
import Loom.Prelude.GoMap
import Loom.Prelude.Machine

/-!
# The retriever

One goroutine keeps track of the blocks that are requested from other nodes. A block that
misses some references is registered under a new number; the references that are not pending
yet make up one request. The reply to a request counts down the numbers that miss one of its
digests, and a count of zero hands the block back to the core.
-/

namespace Loom.Remote

/-- The value of a missing map entry. -/
def zeroDigest : Digest := ⟨List.replicate 32 0, rfl⟩

/-- State of the retriever. -/
structure Retriever where
  nodeID : Int
  /-- The next number. -/
  cnt : Int
  /-- The digests of the outstanding requests. -/
  pending : GoMap Digest Unit
  requests : GoMap Int RequestBlockMsg
  loopBackBlocks : GoMap Int Digest
  loopBackCnts : GoMap Int Int
  /-- The numbers that have missed a digest, once for each time they did. -/
  miss2Blocks : GoMap Digest (List Int)
  retryDelay : Int

def newRetriever (nodeID retryDelay : Int) : Retriever where
  nodeID := nodeID
  cnt := 0
  pending := ∅
  requests := ∅
  loopBackBlocks := ∅
  loopBackCnts := ∅
  miss2Blocks := ∅
  retryDelay := retryDelay

/-- What `run` selects next. -/
inductive RetrieverAct where
  /-- A `ReqType` from the channel. -/
  | request (missRefs : List Digest) (nodeID : Int) (backBlock : Digest) (now : Int)
  /-- A `ReplyType` from the channel. -/
  | reply (reqID : Int)
  /-- A tick, with the order in which the loop meets the requests. -/
  | tick (now : Int) (order : List Int)
  deriving DecidableEq, Repr

/-- What `run` does to the outside. -/
inductive RetrieverEvent where
  /-- `transmitor.Send`, to one node or to everybody else. -/
  | sent (dst : Int) (request : RequestBlockMsg)
  /-- `go loopBack(block)`, for the block registered under `id`. -/
  | loopBack (id : Int) (block : Digest)
  deriving DecidableEq, Repr

/-- A block that is handed back for a number. -/
def RetrieverEvent.isLoopBack (id : Int) : RetrieverEvent → Bool
  | .loopBack id' _ => decide (id' = id)
  | .sent _ _ => false

namespace Retriever

/-- The numbers that have missed a digest. -/
def missedBy (r : Retriever) (d : Digest) : List Int := (r.miss2Blocks.lookup d).getD []

/-- How many missing digests of a number have not been counted down. -/
def countOf (r : Retriever) (id : Int) : Int := (r.loopBackCnts.lookup id).getD 0

/-- The block registered under a number. -/
def blockOf (r : Retriever) (id : Int) : Digest := (r.loopBackBlocks.lookup id).getD zeroDigest

/-- The loop over `missRefs`, with the digests to be requested so far. -/
def register : List Digest → Retriever → List Digest → Retriever × List Digest
  | [], r, missBlocks => (r, missBlocks)
  | d :: ds, r, missBlocks =>
    let r' := { r with miss2Blocks := r.miss2Blocks.insert d (r.missedBy d ++ [r.cnt]) }
    if d ∈ r.pending then register ds r' missBlocks
    else register ds { r' with pending := r'.pending.insert d () } (missBlocks ++ [d])

/-- Register a block and request those of its references that are not pending. -/
def handleRequest (cr : Crypto) (r : Retriever) (missRefs : List Digest) (nodeID : Int)
    (backBlock : Digest) (now : Int) : Retriever × List RetrieverEvent :=
  let (r', missBlocks) := register missRefs
    { r with
      loopBackBlocks := r.loopBackBlocks.insert r.cnt backBlock
      loopBackCnts := r.loopBackCnts.insert r.cnt missRefs.length } []
  if 0 < missBlocks.length then
    let request := newRequestBlock cr r'.nodeID missBlocks r'.cnt now
    ({ r' with requests := r'.requests.insert request.reqID request, cnt := r'.cnt + 1 },
      [.sent nodeID request])
  else ({ r' with cnt := r'.cnt + 1 }, [])

/-- The loop over the numbers that have missed a digest. -/
def countDown : List Int → Retriever → Retriever × List RetrieverEvent
  | [], r => (r, [])
  | id :: ids, r =>
    let r' := { r with loopBackCnts := r.loopBackCnts.insert id (r.countOf id - 1) }
    let (r'', evs) := countDown ids r'
    (r'', if r'.countOf id = 0 then .loopBack id (r'.blockOf id) :: evs else evs)

/-- The loop over the digests of an answered request. -/
def finish : List Digest → Retriever → Retriever × List RetrieverEvent
  | [], r => (r, [])
  | d :: ds, r =>
    let (r', evs) := countDown (r.missedBy d) r
    let (r'', evs') := finish ds { r' with pending := r'.pending.erase d }
    (r'', evs ++ evs')

/-- A reply counts only if its request is outstanding. -/
def handleReply (r : Retriever) (reqID : Int) : Retriever × List RetrieverEvent :=
  match r.requests.lookup reqID with
  | none => (r, [])
  | some req =>
    let (r', evs) := finish req.missBlock r
    ({ r' with requests := r'.requests.erase req.reqID }, evs)

/-- The loop over the requests at a tick: those that are old are sent to everybody. -/
def retry (cr : Crypto) (now : Int) : List Int → Retriever → Retriever × List RetrieverEvent
  | [], r => (r, [])
  | id :: ids, r =>
    match r.requests.lookup id with
    | none => retry cr now ids r
    | some req =>
      if r.retryDelay ≤ now - req.ts then
        let request := newRequestBlock cr req.author req.missBlock req.reqID now
        let (r', evs) := retry cr now ids
          { r with requests := r.requests.insert req.reqID request }
        (r', .sent NONE request :: evs)
      else retry cr now ids r

/-- One turn of the loop. -/
def handle (cr : Crypto) (r : Retriever) : RetrieverAct → Retriever × List RetrieverEvent
  | .request missRefs nodeID backBlock now => r.handleRequest cr missRefs nodeID backBlock now
  | .reply reqID => r.handleReply reqID
  | .tick now order => retry cr now order r

/-- A map is iterated in some order of its keys. -/
def step (cr : Crypto) (r : Retriever) : RetrieverAct → Option Retriever
  | .tick now order =>
    if order.Perm r.requests.keys then some (r.handle cr (.tick now order)).1 else none
  | act => some (r.handle cr act).1

/-- The events of a step. -/
def events (cr : Crypto) (r : Retriever) (act : RetrieverAct) (_ : Retriever) :
    List RetrieverEvent := (r.handle cr act).2

/-- The retriever after a sequence of turns. -/
def Reaches (cr : Crypto) (nodeID retryDelay : Int) (acts : List RetrieverAct) (r : Retriever) :
    Prop :=
  Machine.run (step cr) (newRetriever nodeID retryDelay) acts = some r

/-- The events of a sequence of turns. -/
def trace (cr : Crypto) (nodeID retryDelay : Int) (acts : List RetrieverAct) :
    List RetrieverEvent :=
  Machine.outputs (step cr) (events cr) (newRetriever nodeID retryDelay) acts

/-! ## The loops -/

/-- Registering writes two maps. -/
theorem register_frame (ds : List Digest) (r : Retriever) (missBlocks : List Digest) :
    (register ds r missBlocks).1 = { r with
      miss2Blocks := (register ds r missBlocks).1.miss2Blocks
      pending := (register ds r missBlocks).1.pending } := by
  induction ds generalizing r missBlocks with
  | nil => rfl
  | cons d ds ih =>
    rw [register]
    split
    · rw [ih]
    · rw [ih]

/-- Each digest gets the new number once for each time it is missed. -/
theorem missedBy_register (ds : List Digest) (r : Retriever) (missBlocks : List Digest)
    (d : Digest) : (register ds r missBlocks).1.missedBy d =
      r.missedBy d ++ List.replicate (ds.count d) r.cnt := by
  induction ds generalizing r missBlocks with
  | nil => simp [register]
  | cons x ds ih =>
    have hinsert : ∀ pending, ({ r with
        miss2Blocks := r.miss2Blocks.insert x (r.missedBy x ++ [r.cnt])
        pending := pending } : Retriever).missedBy d ++ List.replicate (ds.count d) r.cnt =
        r.missedBy d ++ List.replicate ((x :: ds).count d) r.cnt := by
      intro pending
      rw [missedBy, GoMap.lookup_insert_ite]
      by_cases hd : d = x
      · subst hd
        simp [List.replicate_succ]
      · simp [hd, Ne.symm hd, missedBy]
    rw [register]
    split
    · rw [ih]
      exact hinsert r.pending
    · rw [ih]
      exact hinsert _

/-- All digests missed are pending afterwards. -/
theorem mem_pending_register (ds : List Digest) (r : Retriever) (missBlocks : List Digest)
    (d : Digest) :
    d ∈ (register ds r missBlocks).1.pending ↔ d ∈ r.pending ∨ d ∈ ds := by
  induction ds generalizing r missBlocks with
  | nil => simp [register]
  | cons x ds ih =>
    rw [register]
    split
    · rw [ih, List.mem_cons]
      constructor
      · rintro (h | h)
        · exact Or.inl h
        · exact Or.inr (Or.inr h)
      · rintro (h | rfl | h)
        · exact Or.inl h
        · exact Or.inl ‹_›
        · exact Or.inr h
    · rw [ih, List.mem_cons, AList.mem_insert]
      tauto

/-- The digests to be requested are those that were not pending, each of them once. -/
theorem register_new (ds : List Digest) (r : Retriever) (missBlocks : List Digest) :
    ∃ new : List Digest, (register ds r missBlocks).2 = missBlocks ++ new ∧ new.Nodup ∧
      ∀ d, d ∈ new ↔ d ∈ ds ∧ d ∉ r.pending := by
  induction ds generalizing r missBlocks with
  | nil => exact ⟨[], by simp [register]⟩
  | cons x ds ih =>
    rw [register]
    split
    · rename_i hx
      obtain ⟨new, heq, hnodup, hmem⟩ := ih { r with
        miss2Blocks := r.miss2Blocks.insert x (r.missedBy x ++ [r.cnt]) } missBlocks
      refine ⟨new, heq, hnodup, fun d => ?_⟩
      rw [hmem, List.mem_cons]
      constructor
      · rintro ⟨hd, hno⟩
        exact ⟨Or.inr hd, hno⟩
      · rintro ⟨rfl | hd, hno⟩
        · exact absurd hx hno
        · exact ⟨hd, hno⟩
    · rename_i hx
      obtain ⟨new, heq, hnodup, hmem⟩ := ih { r with
        miss2Blocks := r.miss2Blocks.insert x (r.missedBy x ++ [r.cnt])
        pending := r.pending.insert x () } (missBlocks ++ [x])
      simp only [AList.mem_insert, not_or] at hmem
      refine ⟨x :: new, by rw [heq, List.append_assoc, List.singleton_append], ?_, fun d => ?_⟩
      · exact List.nodup_cons.mpr ⟨fun h => ((hmem x).mp h).2.1 rfl, hnodup⟩
      · rw [List.mem_cons, List.mem_cons, hmem]
        constructor
        · rintro (rfl | ⟨hd, hne, hno⟩)
          · exact ⟨Or.inl rfl, hx⟩
          · exact ⟨Or.inr hd, hno⟩
        · rintro ⟨rfl | hd, hno⟩
          · exact Or.inl rfl
          · by_cases heq : d = x
            · exact Or.inl heq
            · exact Or.inr ⟨hd, heq, hno⟩

/-- Counting down writes one map. -/
theorem countDown_frame (ids : List Int) (r : Retriever) :
    (countDown ids r).1 = { r with loopBackCnts := (countDown ids r).1.loopBackCnts } := by
  induction ids generalizing r with
  | nil => rfl
  | cons id ids ih =>
    rw [countDown]
    exact ih _

private theorem countOf_insert (r : Retriever) (id id' c : Int) :
    ({ r with loopBackCnts := r.loopBackCnts.insert id c } : Retriever).countOf id' =
      if id' = id then c else r.countOf id' := by
  rw [countOf, GoMap.lookup_insert_ite]
  split <;> rfl

/-- A count goes down by one for each occurrence of its number. -/
theorem countOf_countDown (ids : List Int) (r : Retriever) (id : Int) :
    (countDown ids r).1.countOf id = r.countOf id - ids.count id := by
  induction ids generalizing r with
  | nil => simp [countDown]
  | cons x ids ih =>
    rw [countDown]
    dsimp only
    rw [ih, countOf_insert, List.count_cons]
    by_cases hx : id = x
    · subst hx
      simp
      omega
    · simp [hx, Ne.symm hx]

/-- A number is handed back once, when its count passes zero. -/
theorem countP_countDown (ids : List Int) (r : Retriever) (id : Int) :
    (countDown ids r).2.countP (RetrieverEvent.isLoopBack id) =
      if 1 ≤ r.countOf id ∧ r.countOf id ≤ ids.count id then 1 else 0 := by
  induction ids generalizing r with
  | nil =>
    rw [if_neg (by simp; omega)]
    rfl
  | cons x ids ih =>
    rw [countDown]
    dsimp only
    by_cases hx : x = id
    · subst hx
      have hrest := ih { r with loopBackCnts := r.loopBackCnts.insert x (r.countOf x - 1) }
      rw [countOf_insert, if_pos rfl] at hrest
      rw [countOf_insert, if_pos rfl, List.count_cons_self]
      by_cases hzero : r.countOf x - 1 = 0
      · rw [if_pos hzero, List.countP_cons_of_pos (by simp [RetrieverEvent.isLoopBack]), hrest,
          if_neg (by omega), if_pos (by omega)]
      · rw [if_neg hzero, hrest]
        congr 1
        simp only [eq_iff_iff]
        omega
    · have hrest := ih { r with loopBackCnts := r.loopBackCnts.insert x (r.countOf x - 1) }
      rw [countOf_insert, if_neg (Ne.symm hx)] at hrest
      rw [List.count_cons_of_ne hx, ← hrest]
      split
      · rw [List.countP_cons_of_neg (by simpa [RetrieverEvent.isLoopBack] using hx)]
      · rfl

/-- The block handed back is the one registered under the number. -/
theorem blockOf_of_mem_countDown {ids : List Int} {r : Retriever} {ev : RetrieverEvent}
    (h : ev ∈ (countDown ids r).2) : ∃ id, ev = .loopBack id (r.blockOf id) := by
  induction ids generalizing r with
  | nil => cases h
  | cons x ids ih =>
    rw [countDown] at h
    dsimp only at h
    split at h
    · rcases List.mem_cons.mp h with rfl | h
      · exact ⟨x, rfl⟩
      · obtain ⟨id, hid⟩ := ih h
        exact ⟨id, hid⟩
    · obtain ⟨id, hid⟩ := ih h
      exact ⟨id, hid⟩

/-- The blocks handed back are those of the numbers whose count passes zero. -/
theorem loopBack_mem_countDown {ids : List Int} {r : Retriever} {id : Int} {block : Digest} :
    .loopBack id block ∈ (countDown ids r).2 ↔
      block = r.blockOf id ∧ 1 ≤ r.countOf id ∧ r.countOf id ≤ ids.count id := by
  have hcount := countP_countDown ids r id
  constructor
  · intro h
    obtain ⟨id', heq⟩ := blockOf_of_mem_countDown h
    cases heq
    have hpos : 0 < (countDown ids r).2.countP (RetrieverEvent.isLoopBack id) :=
      List.countP_pos_iff.mpr ⟨_, h, by simp [RetrieverEvent.isLoopBack]⟩
    refine ⟨rfl, ?_⟩
    by_contra hno
    rw [hcount, if_neg hno] at hpos
    exact absurd hpos (lt_irrefl 0)
  · rintro ⟨rfl, hpass⟩
    rw [if_pos hpass] at hcount
    obtain ⟨ev, hev, hid⟩ := List.countP_pos_iff.mp (hcount ▸ Nat.one_pos)
    obtain ⟨id', rfl⟩ := blockOf_of_mem_countDown hev
    have heq : id' = id := of_decide_eq_true hid
    exact heq ▸ hev

private theorem countDown_append (ids ids' : List Int) (r : Retriever) :
    countDown (ids ++ ids') r =
      ((countDown ids' (countDown ids r).1).1,
        (countDown ids r).2 ++ (countDown ids' (countDown ids r).1).2) := by
  induction ids generalizing r with
  | nil => rfl
  | cons x ids ih =>
    simp only [List.cons_append, countDown, ih]
    split <;> rfl

/-- Counting down does not look at what is pending. -/
theorem countDown_pending (ids : List Int) (r : Retriever) (pending : GoMap Digest Unit) :
    countDown ids { r with pending := pending } =
      ({ (countDown ids r).1 with pending := pending }, (countDown ids r).2) := by
  induction ids generalizing r with
  | nil => rfl
  | cons x ids ih =>
    have hrest := ih { r with loopBackCnts := r.loopBackCnts.insert x (r.countOf x - 1) }
    simp only [countOf] at hrest
    simp only [countDown, countOf, blockOf, hrest]
    rfl

/-- Answering digests counts down all numbers that have missed one of them. -/
theorem finish_eq (ds : List Digest) (r : Retriever) :
    finish ds r = ({ (countDown (ds.flatMap r.missedBy) r).1 with
      pending := GoMap.eraseAll r.pending ds }, (countDown (ds.flatMap r.missedBy) r).2) := by
  induction ds generalizing r with
  | nil => rfl
  | cons d ds ih =>
    have hframe := countDown_frame (r.missedBy d) r
    have hmissed : ({ (countDown (r.missedBy d) r).1 with
        pending := (countDown (r.missedBy d) r).1.pending.erase d } : Retriever).missedBy =
          r.missedBy := by
      rw [hframe]
      rfl
    have hpending : (countDown (r.missedBy d) r).1.pending = r.pending := by rw [hframe]
    rw [finish]
    dsimp only
    rw [ih, hmissed, countDown_pending, List.flatMap_cons, countDown_append, hpending]
    rfl

/-! ## What a turn changes -/

/-- The digests of an outstanding request. -/
def missOf (r : Retriever) (id : Int) : Option (List Digest) :=
  (r.requests.lookup id).map (·.missBlock)

/-- The requests are kept under their own numbers. -/
def Keyed (r : Retriever) : Prop :=
  ∀ id req, r.requests.lookup id = some req → req.reqID = id

/-- A request is kept under its number. -/
theorem Keyed.insert {r : Retriever} (h : r.Keyed) (req : RequestBlockMsg) :
    ({ r with requests := r.requests.insert req.reqID req } : Retriever).Keyed := by
  intro id req' hlookup
  rw [GoMap.lookup_insert_ite] at hlookup
  split at hlookup
  · cases hlookup
    exact Eq.symm ‹_›
  · exact h id req' hlookup

private theorem missOf_insert (r : Retriever) (req : RequestBlockMsg) (id : Int) :
    ({ r with requests := r.requests.insert req.reqID req } : Retriever).missOf id =
      if id = req.reqID then some req.missBlock else r.missOf id := by
  rw [missOf, GoMap.lookup_insert_ite]
  split <;> rfl

/-- The state after a block has been registered and `new` digests have been requested. -/
structure Registered (r : Retriever) (missRefs : List Digest) (backBlock : Digest)
    (new : List Digest) (r' : Retriever) : Prop where
  nodup : new.Nodup
  mem_new : ∀ d, d ∈ new ↔ d ∈ missRefs ∧ d ∉ r.pending
  cnt : r'.cnt = r.cnt + 1
  keyed : r.Keyed → r'.Keyed
  missOf : ∀ id, r'.missOf id = if id = r.cnt ∧ new ≠ [] then some new else r.missOf id
  countOf : ∀ id, r'.countOf id = if id = r.cnt then (missRefs.length : Int) else r.countOf id
  blockOf : ∀ id, r'.blockOf id = if id = r.cnt then backBlock else r.blockOf id
  missedBy : ∀ d, r'.missedBy d = r.missedBy d ++ List.replicate (missRefs.count d) r.cnt
  pending : ∀ d, d ∈ r'.pending ↔ d ∈ r.pending ∨ d ∈ missRefs

/-- The retriever when the loop over `missRefs` starts. -/
def entered (r : Retriever) (missRefs : List Digest) (backBlock : Digest) : Retriever :=
  { r with
    loopBackBlocks := r.loopBackBlocks.insert r.cnt backBlock
    loopBackCnts := r.loopBackCnts.insert r.cnt missRefs.length }

/-- After the loop there is a request for the digests found, if there are any. -/
theorem handleRequest_cases (cr : Crypto) (r : Retriever) (missRefs : List Digest) (nodeID : Int)
    (backBlock : Digest) (now : Int) :
    (register missRefs (r.entered missRefs backBlock) []).2 = [] ∧
      r.handleRequest cr missRefs nodeID backBlock now =
        ({ (register missRefs (r.entered missRefs backBlock) []).1 with
            requests := r.requests, cnt := r.cnt + 1 }, []) ∨
    (register missRefs (r.entered missRefs backBlock) []).2 ≠ [] ∧ ∃ request : RequestBlockMsg,
      request.reqID = r.cnt ∧
      request.missBlock = (register missRefs (r.entered missRefs backBlock) []).2 ∧
      r.handleRequest cr missRefs nodeID backBlock now =
        ({ (register missRefs (r.entered missRefs backBlock) []).1 with
            requests := r.requests.insert request.reqID request, cnt := r.cnt + 1 },
          [.sent nodeID request]) := by
  have hframe := register_frame missRefs (r.entered missRefs backBlock) []
  have hhandle : r.handleRequest cr missRefs nodeID backBlock now =
      let (r', missBlocks) := register missRefs (r.entered missRefs backBlock) []
      if 0 < missBlocks.length then
        let request := newRequestBlock cr r'.nodeID missBlocks r'.cnt now
        ({ r' with requests := r'.requests.insert request.reqID request, cnt := r'.cnt + 1 },
          [.sent nodeID request])
      else ({ r' with cnt := r'.cnt + 1 }, []) := rfl
  generalize register missRefs (r.entered missRefs backBlock) [] = reg at hframe hhandle ⊢
  have hcnt : reg.1.cnt = r.cnt := by rw [hframe, entered]
  have hreq : reg.1.requests = r.requests := by rw [hframe, entered]
  rw [hhandle]
  dsimp only
  rw [hcnt, hreq]
  by_cases hempty : reg.2 = []
  · rw [if_neg (by simp [hempty])]
    refine Or.inl ⟨hempty, ?_⟩
    rw [← hreq]
  · rw [if_pos (List.length_pos_iff.mpr hempty)]
    exact Or.inr ⟨hempty, _, rfl, rfl, rfl⟩

/-- The loop registers the block, whatever is requested for it. -/
theorem registered_of_register {r : Retriever} {missRefs : List Digest} {backBlock : Digest}
    {requests : GoMap Int RequestBlockMsg}
    (hkeyed : r.Keyed → ({ r with requests := requests } : Retriever).Keyed)
    (hmiss : ∀ id, ({ r with requests := requests } : Retriever).missOf id =
      if id = r.cnt ∧ (register missRefs (r.entered missRefs backBlock) []).2 ≠ []
      then some (register missRefs (r.entered missRefs backBlock) []).2 else r.missOf id) :
    Registered r missRefs backBlock (register missRefs (r.entered missRefs backBlock) []).2
      { (register missRefs (r.entered missRefs backBlock) []).1 with
        requests := requests, cnt := r.cnt + 1 } := by
  obtain ⟨new, hnew, hnodup, hmem⟩ := register_new missRefs (r.entered missRefs backBlock) []
  rw [List.nil_append] at hnew
  refine ⟨hnew ▸ hnodup, hnew ▸ hmem, rfl, hkeyed, hmiss, ?_, ?_,
    missedBy_register missRefs (r.entered missRefs backBlock) [],
    mem_pending_register missRefs (r.entered missRefs backBlock) []⟩
  · intro id
    rw [register_frame]
    exact countOf_insert r r.cnt id _
  · intro id
    rw [register_frame, Retriever.blockOf, entered, GoMap.lookup_insert_ite]
    split <;> rfl

/-- A request is registered and hands nothing back at once. -/
theorem handleRequest_registered (cr : Crypto) (r : Retriever) (missRefs : List Digest)
    (nodeID : Int) (backBlock : Digest) (now : Int) :
    (∃ new, Registered r missRefs backBlock new
      (r.handleRequest cr missRefs nodeID backBlock now).1) ∧
      ∀ id block, .loopBack id block ∉ (r.handleRequest cr missRefs nodeID backBlock now).2 := by
  rcases handleRequest_cases cr r missRefs nodeID backBlock now with
    ⟨hempty, heq⟩ | ⟨hnew, request, hid, hmiss, heq⟩
  · rw [heq]
    refine ⟨⟨_, registered_of_register id fun id => ?_⟩, nofun⟩
    rw [if_neg fun h => h.2 hempty]
  · rw [heq]
    refine ⟨⟨_, registered_of_register (fun hkeyed => hkeyed.insert request) fun id => ?_⟩, by simp⟩
    rw [missOf_insert, hid, hmiss]
    by_cases hcnt : id = r.cnt
    · rw [if_pos hcnt, if_pos ⟨hcnt, hnew⟩]
    · rw [if_neg hcnt, if_neg fun h => hcnt h.1]

/-- A reply is ignored, or it answers the digests of its request. -/
theorem handleReply_cases {r : Retriever} (hkeyed : r.Keyed) (reqID : Int) :
    r.missOf reqID = none ∧ r.handleReply reqID = (r, []) ∨
    ∃ ds, r.missOf reqID = some ds ∧ r.handleReply reqID =
      ({ r with
          loopBackCnts := (countDown (ds.flatMap r.missedBy) r).1.loopBackCnts
          pending := GoMap.eraseAll r.pending ds
          requests := r.requests.erase reqID },
        (countDown (ds.flatMap r.missedBy) r).2) := by
  unfold handleReply missOf
  cases hreq : r.requests.lookup reqID with
  | none => exact Or.inl ⟨rfl, rfl⟩
  | some req =>
    refine Or.inr ⟨req.missBlock, rfl, ?_⟩
    dsimp only
    rw [finish_eq, countDown_frame, hkeyed reqID req hreq]

/-- A tick changes nothing but the times of requests. -/
theorem retry_spec (cr : Crypto) (now : Int) (ids : List Int) {r : Retriever} (hkeyed : r.Keyed) :
    (retry cr now ids r).1.Keyed ∧
      (retry cr now ids r).1 = { r with requests := (retry cr now ids r).1.requests } ∧
      (∀ id, (retry cr now ids r).1.missOf id = r.missOf id) ∧
      ∀ id block, .loopBack id block ∉ (retry cr now ids r).2 := by
  induction ids generalizing r with
  | nil => exact ⟨hkeyed, rfl, fun _ => rfl, nofun⟩
  | cons x ids ih =>
    rw [retry]
    cases hreq : r.requests.lookup x with
    | none => exact ih hkeyed
    | some req =>
      dsimp only
      split
      · let request := newRequestBlock cr req.author req.missBlock req.reqID now
        have hmiss : ∀ id, ({ r with
            requests := r.requests.insert req.reqID request } : Retriever).missOf id =
              r.missOf id := by
          intro id
          refine (missOf_insert r request id).trans ?_
          split
          · rename_i hid
            rw [missOf, hid.trans (hkeyed x req hreq), hreq]
            rfl
          · rfl
        obtain ⟨hkeyed', hframe, hsame, hno⟩ := ih (hkeyed.insert request)
        refine ⟨hkeyed', hframe, fun id => (hsame id).trans (hmiss id), fun id block hmem => ?_⟩
        rcases List.mem_cons.mp hmem with hmem | hmem
        · cases hmem
        · exact hno id block hmem
      · exact ih hkeyed

/-! ## The books of the retriever -/

/-- The pending digests are divided among the outstanding requests. -/
structure Kept (r : Retriever) : Prop where
  keyed : r.Keyed
  below : ∀ id ds, r.missOf id = some ds → id < r.cnt
  nodup : ∀ id ds, r.missOf id = some ds → ds.Nodup
  apart : ∀ id id' ds ds' d, r.missOf id = some ds → r.missOf id' = some ds' → d ∈ ds → d ∈ ds' →
    id = id'
  pending : ∀ d, d ∈ r.pending ↔ ∃ id ds, r.missOf id = some ds ∧ d ∈ ds
  missed : ∀ d, ∀ id ∈ r.missedBy d, id < r.cnt

/-- A new retriever has nothing to keep. -/
theorem kept_new (nodeID retryDelay : Int) : (newRetriever nodeID retryDelay).Kept := by
  refine ⟨?_, ?_, ?_, ?_, ?_, ?_⟩ <;>
    simp [newRetriever, missOf, missedBy, Keyed]

/-- A request keeps the books in order. -/
theorem Kept.request {r r' : Retriever} {missRefs new : List Digest} {backBlock : Digest}
    (h : r.Kept) (hr : Registered r missRefs backBlock new r') : r'.Kept := by
  have hold : ∀ id ds, r'.missOf id = some ds → id = r.cnt ∧ ds = new ∨ r.missOf id = some ds := by
    intro id ds hds
    rw [hr.missOf] at hds
    split at hds
    · rename_i hid
      exact Or.inl ⟨hid.1, (Option.some.inj hds).symm⟩
    · exact Or.inr hds
  have hfresh : ∀ id ds, r.missOf id = some ds → ∀ d ∈ ds, d ∉ new := by
    intro id ds hds d hd hnew
    exact ((hr.mem_new d).mp hnew).2 ((h.pending d).mpr ⟨id, ds, hds, hd⟩)
  refine ⟨hr.keyed h.keyed, ?_, ?_, ?_, ?_, ?_⟩
  · intro id ds hds
    rw [hr.cnt]
    rcases hold id ds hds with ⟨rfl, _⟩ | hds
    · exact Int.lt_succ _
    · exact (h.below id ds hds).trans (Int.lt_succ _)
  · intro id ds hds
    rcases hold id ds hds with ⟨_, rfl⟩ | hds
    · exact hr.nodup
    · exact h.nodup id ds hds
  · intro id id' ds ds' d hds hds' hd hd'
    rcases hold id ds hds with ⟨rfl, rfl⟩ | hds <;> rcases hold id' ds' hds' with ⟨rfl, rfl⟩ | hds'
    · rfl
    · exact absurd hd (hfresh id' ds' hds' d hd')
    · exact absurd hd' (hfresh id ds hds d hd)
    · exact h.apart id id' ds ds' d hds hds' hd hd'
  · intro d
    rw [hr.pending]
    constructor
    · intro hd
      by_cases hp : d ∈ r.pending
      · obtain ⟨id, ds, hds, hmem⟩ := (h.pending d).mp hp
        refine ⟨id, ds, ?_, hmem⟩
        rw [hr.missOf, if_neg]
        · exact hds
        · rintro ⟨rfl, _⟩
          exact absurd (h.below r.cnt ds hds) (lt_irrefl _)
      · have hnew := (hr.mem_new d).mpr ⟨hd.resolve_left hp, hp⟩
        exact ⟨r.cnt, new, by rw [hr.missOf, if_pos ⟨rfl, List.ne_nil_of_mem hnew⟩], hnew⟩
    · rintro ⟨id, ds, hds, hd⟩
      rcases hold id ds hds with ⟨_, rfl⟩ | hds
      · exact Or.inr ((hr.mem_new d).mp hd).1
      · exact Or.inl ((h.pending d).mpr ⟨id, ds, hds, hd⟩)
  · intro d id hid
    rw [hr.missedBy] at hid
    rw [hr.cnt]
    rcases List.mem_append.mp hid with hid | hid
    · exact (h.missed d id hid).trans (Int.lt_succ _)
    · rw [List.eq_of_mem_replicate hid]
      exact Int.lt_succ _

/-- So does a reply. -/
theorem Kept.reply {r : Retriever} (h : r.Kept) (reqID : Int) : (r.handleReply reqID).1.Kept := by
  rcases handleReply_cases h.keyed reqID with ⟨_, heq⟩ | ⟨ds, hds, heq⟩
  · rw [heq]
    exact h
  · rw [heq]
    have hmiss : ∀ id ds', (((r.requests.erase reqID).lookup id).map (·.missBlock)) = some ds' →
        id ≠ reqID ∧ r.missOf id = some ds' := by
      intro id ds' hds'
      rw [GoMap.lookup_erase_ite] at hds'
      split at hds'
      · cases hds'
      · exact ⟨‹_›, hds'⟩
    refine ⟨?_, ?_, ?_, ?_, ?_, h.missed⟩
    · intro id req hreq
      rw [GoMap.lookup_erase_ite] at hreq
      split at hreq
      · cases hreq
      · exact h.keyed id req hreq
    · intro id ds' hds'
      exact h.below id ds' (hmiss id ds' hds').2
    · intro id ds' hds'
      exact h.nodup id ds' (hmiss id ds' hds').2
    · intro id id' ds₁ ds₂ d hds₁ hds₂
      exact h.apart id id' ds₁ ds₂ d (hmiss id ds₁ hds₁).2 (hmiss id' ds₂ hds₂).2
    · intro d
      rw [GoMap.mem_eraseAll, h.pending]
      constructor
      · rintro ⟨⟨id, ds', hds', hd⟩, hno⟩
        refine ⟨id, ds', ?_, hd⟩
        rw [missOf, GoMap.lookup_erase_ite, if_neg]
        · exact hds'
        · rintro rfl
          rw [hds] at hds'
          cases hds'
          exact hno hd
      · rintro ⟨id, ds', hds', hd⟩
        obtain ⟨hne, hds'⟩ := hmiss id ds' hds'
        exact ⟨⟨id, ds', hds', hd⟩, fun hmem => hne (h.apart id reqID ds' ds d hds' hds hd hmem)⟩

/-- So does a tick. -/
theorem Kept.tick {r : Retriever} (h : r.Kept) (cr : Crypto) (now : Int) (order : List Int) :
    (retry cr now order r).1.Kept := by
  obtain ⟨hkeyed, hframe, hmiss, _⟩ := retry_spec cr now order h.keyed
  have hcnt : (retry cr now order r).1.cnt = r.cnt := by rw [hframe]
  have hpending : (retry cr now order r).1.pending = r.pending := by rw [hframe]
  have hmissed : (retry cr now order r).1.missedBy = r.missedBy := by
    rw [hframe]
    rfl
  refine ⟨hkeyed, ?_, ?_, ?_, ?_, ?_⟩
  · simpa only [hmiss, hcnt] using h.below
  · simpa only [hmiss] using h.nodup
  · simpa only [hmiss] using h.apart
  · simpa only [hmiss, hpending] using h.pending
  · simpa only [hmissed, hcnt] using h.missed

/-- So does every step. -/
theorem Kept.step {cr : Crypto} {r r' : Retriever} {act : RetrieverAct} (h : r.Kept)
    (hs : r.step cr act = some r') : r'.Kept := by
  cases act with
  | request missRefs nodeID backBlock now =>
    cases hs
    obtain ⟨⟨new, hr⟩, _⟩ := handleRequest_registered cr r missRefs nodeID backBlock now
    exact h.request hr
  | reply reqID =>
    cases hs
    exact h.reply reqID
  | tick now order =>
    obtain ⟨_, hs⟩ := Option.ite_none_right_eq_some.mp hs
    cases hs
    exact h.tick cr now order

private theorem countP_isLoopBack_eq_zero {evs : List RetrieverEvent}
    (h : ∀ id block, .loopBack id block ∉ evs) (id : Int) :
    evs.countP (RetrieverEvent.isLoopBack id) = 0 := by
  rw [List.countP_eq_zero]
  intro ev hev hid
  cases ev with
  | sent dst request => cases hid
  | loopBack id' block => exact h id' block hev

/-- A number that still counts, or is not yet used, has not been handed back. -/
def Once (tr : List RetrieverEvent) (r : Retriever) : Prop :=
  ∀ id, tr.countP (RetrieverEvent.isLoopBack id) ≤ 1 ∧
    (1 ≤ r.countOf id ∨ r.cnt ≤ id → tr.countP (RetrieverEvent.isLoopBack id) = 0)

/-- A turn that hands nothing back. -/
theorem Once.quiet {tr evs : List RetrieverEvent} {r r' : Retriever} (h : Once tr r)
    (hno : ∀ id block, .loopBack id block ∉ evs)
    (hle : ∀ id, 1 ≤ r'.countOf id ∨ r'.cnt ≤ id → 1 ≤ r.countOf id ∨ r.cnt ≤ id) :
    Once (tr ++ evs) r' := by
  intro id
  rw [List.countP_append, countP_isLoopBack_eq_zero hno, Nat.add_zero]
  exact ⟨(h id).1, fun hid => (h id).2 (hle id hid)⟩

/-- A reply hands no block back that was handed back before. -/
theorem Once.reply {tr : List RetrieverEvent} {r : Retriever} (hkept : r.Kept) (h : Once tr r)
    (reqID : Int) : Once (tr ++ (r.handleReply reqID).2) (r.handleReply reqID).1 := by
  rcases handleReply_cases hkept.keyed reqID with ⟨_, heq⟩ | ⟨ds, hds, heq⟩
  · rw [heq]
    exact h.quiet nofun fun _ => id
  · intro id
    have hcount : (r.handleReply reqID).1.countOf id =
        r.countOf id - (ds.flatMap r.missedBy).count id := by
      rw [heq, ← countOf_countDown]
      rfl
    have hcnt : (r.handleReply reqID).1.cnt = r.cnt := by rw [heq]
    have hunused : r.cnt ≤ id → (ds.flatMap r.missedBy).count id = 0 := by
      intro hid
      rw [List.count_eq_zero, List.mem_flatMap]
      rintro ⟨d, _, hd⟩
      exact absurd (hkept.missed d id hd) (not_lt.mpr hid)
    have hevents : (r.handleReply reqID).2.countP (RetrieverEvent.isLoopBack id) =
        if 1 ≤ r.countOf id ∧ r.countOf id ≤ (ds.flatMap r.missedBy).count id then 1 else 0 := by
      rw [heq]
      exact countP_countDown _ r id
    obtain ⟨hle, hzero⟩ := h id
    rw [List.countP_append, hevents, hcount, hcnt]
    split
    · rename_i hpass
      have hnone := hzero (Or.inl hpass.1)
      refine ⟨by omega, ?_⟩
      rintro (hpos | hid)
      · omega
      · have hnot := hunused hid
        omega
    · refine ⟨by omega, fun hid => ?_⟩
      rw [Nat.add_zero]
      apply hzero
      rcases hid with hpos | hid
      · exact Or.inl (by omega)
      · exact Or.inr hid

/-- Nor does any other step. -/
theorem Once.step {cr : Crypto} {tr : List RetrieverEvent} {r r' : Retriever}
    {act : RetrieverAct} (hkept : r.Kept) (h : Once tr r) (hs : r.step cr act = some r') :
    Once (tr ++ events cr r act r') r' := by
  cases act with
  | request missRefs nodeID backBlock now =>
    cases hs
    obtain ⟨⟨new, hr⟩, hno⟩ := handleRequest_registered cr r missRefs nodeID backBlock now
    refine h.quiet hno fun id hid => ?_
    change 1 ≤ (r.handleRequest cr missRefs nodeID backBlock now).1.countOf id ∨
      (r.handleRequest cr missRefs nodeID backBlock now).1.cnt ≤ id at hid
    rw [hr.countOf, hr.cnt] at hid
    split at hid <;> omega
  | reply reqID =>
    cases hs
    exact h.reply hkept reqID
  | tick now order =>
    obtain ⟨_, hs⟩ := Option.ite_none_right_eq_some.mp hs
    cases hs
    obtain ⟨_, hframe, _, hno⟩ := retry_spec cr now order hkept.keyed
    refine h.quiet hno fun id hid => ?_
    change 1 ≤ (retry cr now order r).1.countOf id ∨ (retry cr now order r).1.cnt ≤ id at hid
    rw [hframe] at hid
    exact hid

/-- The books are in order after every sequence of steps. -/
theorem Reaches.kept_once {cr : Crypto} {nodeID retryDelay : Int} {acts : List RetrieverAct}
    {r : Retriever} (h : Reaches cr nodeID retryDelay acts r) :
    r.Kept ∧ Once (trace cr nodeID retryDelay acts) r := by
  refine Machine.outputs_invariant (P := fun tr (r : Retriever) => r.Kept ∧ Once tr r)
    ⟨kept_new nodeID retryDelay, fun id => ⟨Nat.zero_le 1, fun _ => rfl⟩⟩ ?_
    (Machine.along_of_forall fun _ _ _ => trivial) h
  rintro tr r act r' ⟨hkept, honce⟩ _ hs
  exact ⟨hkept.step hs, honce.step hkept hs⟩

/-- **The books of the retriever.** After any sequence of requests, replies and ticks, the
pending digests are the disjoint union of the digests of the outstanding requests, none of
which has a digest twice, and no number has been handed back more than once. -/
theorem bookkeeping {cr : Crypto} {nodeID retryDelay : Int} {acts : List RetrieverAct}
    {r : Retriever} (h : Reaches cr nodeID retryDelay acts r) :
    (∀ d, d ∈ r.pending ↔ ∃ id req, r.requests.lookup id = some req ∧ d ∈ req.missBlock) ∧
    (∀ id req, r.requests.lookup id = some req → req.missBlock.Nodup) ∧
    (∀ id id' req req' d, r.requests.lookup id = some req → r.requests.lookup id' = some req' →
      d ∈ req.missBlock → d ∈ req'.missBlock → id = id') ∧
    ∀ id, (trace cr nodeID retryDelay acts).countP (RetrieverEvent.isLoopBack id) ≤ 1 := by
  obtain ⟨hkept, honce⟩ := h.kept_once
  have hmiss : ∀ id req, r.requests.lookup id = some req → r.missOf id = some req.missBlock := by
    intro id req hreq
    rw [missOf, hreq]
    rfl
  refine ⟨fun d => ?_, ?_, ?_, fun id => (honce id).1⟩
  · rw [hkept.pending]
    constructor
    · rintro ⟨id, ds, hds, hd⟩
      obtain ⟨req, hreq, rfl⟩ := Option.map_eq_some_iff.mp hds
      exact ⟨id, req, hreq, hd⟩
    · rintro ⟨id, req, hreq, hd⟩
      exact ⟨id, _, hmiss id req hreq, hd⟩
  · intro id req hreq
    exact hkept.nodup id _ (hmiss id req hreq)
  · intro id id' req req' d hreq hreq'
    exact hkept.apart id id' _ _ d (hmiss id req hreq) (hmiss id' req' hreq')

/-- A digest that starts with the given byte. -/
def digestOf (b : UInt8) : Digest := ⟨b :: List.replicate 31 0, rfl⟩

/-- Signatures are empty. -/
def unsigned : Crypto where
  sha256 m := m
  sign _ _ := []
  edVerify _ _ _ := true
  tsSign _ _ := none
  recover _ _ := none

/-- Two blocks that miss digest `1`, the first of them twice; an unknown reply, a reply that
comes twice, and a tick. -/
def twoBlocks : List RetrieverAct :=
  [.request [digestOf 1, digestOf 1] 1 (digestOf 8) 0,
   .request [digestOf 1, digestOf 2] 2 (digestOf 9) 0,
   .reply 7, .reply 0, .reply 0, .tick 10 [1]]

/-- One block is handed back, and the other one is requested again. -/
theorem bookkeeping_twoBlocks : ∃ r, Reaches unsigned 0 5 twoBlocks r ∧
    r.pending.keys = [digestOf 2] ∧
    trace unsigned 0 5 twoBlocks =
      [.sent 1 (newRequestBlock unsigned 0 [digestOf 1] 0 0),
       .sent 2 (newRequestBlock unsigned 0 [digestOf 2] 1 0),
       .loopBack 0 (digestOf 8),
       .sent NONE (newRequestBlock unsigned 0 [digestOf 2] 1 10)] ∧
    (∀ d, d ∈ r.pending ↔ ∃ id req, r.requests.lookup id = some req ∧ d ∈ req.missBlock) ∧
    (trace unsigned 0 5 twoBlocks).countP (RetrieverEvent.isLoopBack 0) ≤ 1 := by
  obtain ⟨r, hr, hkeys⟩ :
      ∃ r ∈ Machine.run (step unsigned) (newRetriever 0 5) twoBlocks,
        r.pending.keys = [digestOf 2] := by decide +kernel
  obtain ⟨hpending, _, _, honce⟩ := bookkeeping hr
  exact ⟨r, hr, hkeys, by decide +kernel, hpending, honce 0⟩

end Retriever

end Loom.Remote
