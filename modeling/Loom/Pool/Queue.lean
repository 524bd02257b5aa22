import Loom.Core.Message
import Loom.Prelude.Machine
import Loom.Prelude.Ring

/-!
# The transaction pool

One goroutine writes the transactions of a stream into a ring buffer and makes a batch of
every `batchSize` of them. The batches go through a channel of fixed capacity, from which
`GetBatch` takes the oldest one without waiting.
-/

namespace Loom

/-- The parameters of the queue. -/
structure Parameters where
  batchSize : Nat
  maxQueueSize : Nat
  deriving DecidableEq, Repr

/-- The ring buffer, with the position to write next and the last position read. -/
structure TxQueue where
  queue : List Bytes
  /-- Write index. -/
  wind : Nat
  /-- Read index. -/
  rind : Int
  nums : Nat
  maxQueueSize : Nat
  batchSize : Nat
  N : Int
  Id : Int
  bcnt : Nat
  deriving DecidableEq, Repr

def newTxQueue (maxQueueSize batchSize : Nat) (N Id : Int) : TxQueue where
  queue := List.replicate maxQueueSize []
  wind := 0
  rind := -1
  nums := 0
  maxQueueSize := maxQueueSize
  batchSize := batchSize
  N := N
  Id := Id
  bcnt := 0

namespace TxQueue

/-- The test with which `run` rejects a transaction. -/
def full (q : TxQueue) : Bool := (q.wind : Int) == q.rind

/-- Store a transaction. -/
def put (q : TxQueue) (tx : Bytes) : TxQueue :=
  { q with
    queue := q.queue.set q.wind tx
    wind := (q.wind + 1) % q.maxQueueSize
    nums := q.nums + 1 }

/-- Move the read index to the next transaction. -/
def advance (q : TxQueue) : TxQueue :=
  { q with rind := (q.rind + 1).tmod q.maxQueueSize, nums := q.nums - 1 }

/-- The loop of `make`, with `i` transactions still to read. -/
def drain : Nat → TxQueue → List Bytes → TxQueue × List Bytes
  | 0, q, txs => (q, txs)
  | i + 1, q, txs => drain i q.advance (txs ++ [q.queue.getD q.advance.rind.toNat []])

/-- `make` up to the point where it sends the batch. -/
def make (q : TxQueue) : TxQueue × Batch :=
  let (q', txs) := drain q.batchSize q []
  (q', ⟨q.Id + q.N * q.bcnt, txs⟩)

end TxQueue

/-- The pool: the queue, the channel of batches, and the batch with which `make` is waiting
for room in the channel. -/
structure Pool where
  queue : TxQueue
  batchChannel : List Batch
  sending : Option Batch
  deriving DecidableEq, Repr

/-- The capacity of the channel of batches. -/
def batchCap : Nat := 1000

def newPool (p : Parameters) (N Id : Int) : Pool where
  queue := newTxQueue p.maxQueueSize p.batchSize N Id
  batchChannel := []
  sending := none

/-- What can happen next in the pool. -/
inductive PoolAct where
  /-- `run` takes a transaction from its channel. -/
  | tx (tx : Bytes)
  /-- The send of `make` goes through. -/
  | send
  /-- A call of `GetBatch`. -/
  | get
  deriving DecidableEq, Repr

/-- The transaction that an action offers to the pool. -/
def PoolAct.offered : PoolAct → Option Bytes
  | .tx t => some t
  | _ => none

/-- What the pool has done. -/
inductive PoolEvent where
  | accepted (tx : Bytes)
  /-- The pool was full. -/
  | rejected (tx : Bytes)
  | made (batch : Batch)
  /-- The result of `GetBatch`. -/
  | got (batch : Batch)
  deriving DecidableEq, Repr

namespace Pool

/-- `run` on one transaction. -/
def handleTx (s : Pool) (tx : Bytes) : Pool :=
  if s.queue.full then s
  else
    let q := s.queue.put tx
    if q.batchSize ≤ q.nums then { s with queue := q.make.1, sending := some q.make.2 }
    else { s with queue := q }

/-- `run` takes no transaction while `make` is waiting; the deferred count of a batch comes
after its send. -/
def step (s : Pool) : PoolAct → Option Pool
  | .tx tx => if s.sending.isSome then none else some (s.handleTx tx)
  | .send => s.sending.bind fun batch =>
      if s.batchChannel.length < batchCap then
        some ⟨{ s.queue with bcnt := s.queue.bcnt + 1 }, s.batchChannel ++ [batch], none⟩
      else none
  | .get => some { s with batchChannel := s.batchChannel.tail }

/-- The result of `GetBatch`. -/
def get (s : Pool) : Batch := s.batchChannel.headD ⟨-1, []⟩

/-- The events of a step. -/
def events (s : Pool) (act : PoolAct) (t : Pool) : List PoolEvent :=
  match act with
  | .tx tx =>
    if s.queue.full then [.rejected tx] else .accepted tx :: t.sending.toList.map .made
  | .send => []
  | .get => [.got s.get]

/-- The pool after a sequence of actions. -/
def Reaches (p : Parameters) (N Id : Int) (acts : List PoolAct) (s : Pool) : Prop :=
  Machine.run step (newPool p N Id) acts = some s

/-- The events of a sequence of actions. -/
def trace (p : Parameters) (N Id : Int) (acts : List PoolAct) : List PoolEvent :=
  Machine.outputs step events (newPool p N Id) acts

end Pool

namespace PoolEvent

/-- The transactions accepted, in order. -/
def accepts (tr : List PoolEvent) : List Bytes :=
  tr.filterMap fun | .accepted tx => some tx | _ => none

/-- The transactions rejected, in order. -/
def rejects (tr : List PoolEvent) : List Bytes :=
  tr.filterMap fun | .rejected tx => some tx | _ => none

/-- The batches made, in order. -/
def batches (tr : List PoolEvent) : List Batch :=
  tr.filterMap fun | .made batch => some batch | _ => none

/-- The batches handed out, in order; the empty batch stands for none. -/
def handed (tr : List PoolEvent) : List Batch :=
  tr.filterMap fun | .got batch => if batch.txs = [] then none else some batch | _ => none

end PoolEvent

namespace TxQueue

variable {q : TxQueue}

/-- The position of the oldest transaction that has not been read. -/
def start (q : TxQueue) : Nat := (q.rind + 1).toNat

/-- The transactions that have been written and not read, oldest first. -/
def held (q : TxQueue) : List Bytes := Ring.window [] q.queue q.start q.nums

/-- The indices are in range, and the write index is `nums` positions behind the start. -/
structure Ok (q : TxQueue) : Prop where
  pos : 0 < q.maxQueueSize
  size : q.queue.length = q.maxQueueSize
  rind_ge : -1 ≤ q.rind
  rind_lt : q.rind < q.maxQueueSize
  wind_eq : q.wind = (q.start + q.nums) % q.maxQueueSize

/-- The ring counts as full when a single position is free, once something has been read;
before that it never does. -/
theorem Ok.full_iff (h : q.Ok) (hnums : q.nums < q.maxQueueSize) :
    q.full = true ↔ 0 ≤ q.rind ∧ q.nums + 1 = q.maxQueueSize := by
  have hge := h.rind_ge
  have hlt := h.rind_lt
  have hwind := h.wind_eq
  unfold start at hwind
  rw [full, beq_iff_eq]
  obtain ⟨r, hr⟩ : ∃ r : Nat, q.rind = (r : Int) - 1 := ⟨(q.rind + 1).toNat, by omega⟩
  rw [hr] at hge hlt hwind ⊢
  have hr' : ((r : Int) - 1 + 1).toNat = r := by omega
  rw [hr'] at hwind
  by_cases hwrap : r + q.nums < q.maxQueueSize
  · rw [Nat.mod_eq_of_lt hwrap] at hwind
    omega
  · rw [Nat.mod_eq_sub_mod (by omega)] at hwind
    by_cases hzero : r + q.nums - q.maxQueueSize < q.maxQueueSize
    · rw [Nat.mod_eq_of_lt hzero] at hwind
      omega
    · omega

/-- A stored transaction is the newest one held. -/
theorem Ok.put (h : q.Ok) (hnums : q.nums < q.maxQueueSize) (tx : Bytes) :
    (q.put tx).Ok ∧ (q.put tx).held = q.held ++ [tx] := by
  have hsize := h.size
  have hwind := h.wind_eq
  refine ⟨⟨h.pos, ?_, h.rind_ge, h.rind_lt, ?_⟩, ?_⟩
  · simpa [TxQueue.put] using hsize
  · change (q.wind + 1) % q.maxQueueSize = (q.start + (q.nums + 1)) % q.maxQueueSize
    rw [hwind, ← Nat.add_assoc, Nat.mod_add_mod]
  · change Ring.window [] (q.queue.set q.wind tx) q.start (q.nums + 1) = _
    rw [hwind, ← hsize]
    exact Ring.window_set (hsize ▸ hnums) tx

/-- Reading takes the oldest transaction held. -/
theorem Ok.advance (h : q.Ok) (hnums : 0 < q.nums) :
    q.advance.Ok ∧ 0 ≤ q.advance.rind ∧
      q.held = q.queue.getD q.advance.rind.toNat [] :: q.advance.held := by
  have hge := h.rind_ge
  have hmod : q.start % q.maxQueueSize < q.maxQueueSize := Nat.mod_lt _ h.pos
  have hrind : q.advance.rind = ((q.start % q.maxQueueSize : Nat) : Int) := by
    have hstart : q.rind + 1 = (q.start : Int) := by
      unfold start
      omega
    change (q.rind + 1).tmod q.maxQueueSize = _
    rw [hstart]
    exact (Int.ofNat_tmod _ _).symm
  have hstart : q.advance.start = q.start % q.maxQueueSize + 1 := by
    rw [start, hrind]
    omega
  obtain ⟨n, hn⟩ : ∃ n, q.nums = n + 1 := ⟨q.nums - 1, by omega⟩
  have hadvance : q.advance.nums = n := by
    change q.nums - 1 = n
    omega
  refine ⟨⟨h.pos, h.size, by omega, ?_, ?_⟩, by omega, ?_⟩
  · rw [hrind]
    exact_mod_cast hmod
  · change q.wind = (q.advance.start + q.advance.nums) % q.maxQueueSize
    rw [hstart, hadvance, h.wind_eq, hn, Nat.add_assoc, Nat.mod_add_mod, Nat.add_comm 1 n]
  · have hcongr : Ring.window [] q.queue (q.start + 1) n =
        Ring.window [] q.queue q.advance.start n := by
      apply Ring.window_congr
      rw [hstart, h.size, Nat.mod_add_mod]
    rw [held, hn, Nat.add_comm n 1, Ring.window_append, hcongr, Ring.window_succ, hrind, h.size,
      Int.toNat_natCast, held, hadvance]
    rfl

/-- The loop moves the read index and counts down. -/
theorem drain_frame (i : Nat) (q : TxQueue) (txs : List Bytes) :
    (drain i q txs).1 = { q with rind := (drain i q txs).1.rind, nums := q.nums - i } := by
  induction i generalizing q txs with
  | zero => rfl
  | succ i ih =>
    rw [drain, ih]
    simp only [TxQueue.advance]
    congr 1
    omega

/-- The loop reads the oldest transactions in order. -/
theorem Ok.drain {i : Nat} (h : q.Ok) (hi : i ≤ q.nums) (txs : List Bytes) :
    (TxQueue.drain i q txs).1.Ok ∧ (0 < i → 0 ≤ (TxQueue.drain i q txs).1.rind) ∧
      txs ++ q.held = (TxQueue.drain i q txs).2 ++ (TxQueue.drain i q txs).1.held := by
  induction i generalizing q txs with
  | zero => exact ⟨h, fun hpos => absurd hpos (lt_irrefl 0), rfl⟩
  | succ i ih =>
    obtain ⟨hnext, hrind, hheld⟩ := h.advance (by omega)
    obtain ⟨hok, hread, heq⟩ := ih hnext (by change i ≤ q.nums - 1; omega)
      (txs ++ [q.queue.getD q.advance.rind.toNat []])
    refine ⟨hok, fun _ => ?_, ?_⟩
    · by_cases hzero : i = 0
      · subst hzero
        exact hrind
      · exact hread (by omega)
    · rw [TxQueue.drain, ← heq, hheld, List.append_assoc, List.singleton_append]

@[simp] theorem length_held (q : TxQueue) : q.held.length = q.nums := Ring.length_window

/-- `make` turns all that is held into a batch, when that is exactly a batch. -/
theorem Ok.make (h : q.Ok) (hnums : q.nums = q.batchSize) (hpos : 0 < q.batchSize) :
    q.make.2 = ⟨q.Id + q.N * q.bcnt, q.held⟩ ∧ q.make.1.Ok ∧ 0 ≤ q.make.1.rind ∧
      q.make.1 = { q with rind := q.make.1.rind, nums := 0 } ∧ q.make.1.held = [] := by
  obtain ⟨hok, hrind, hheld⟩ := h.drain hnums.ge []
  have hframe : q.make.1 = { q with rind := q.make.1.rind, nums := 0 } := by
    have hdrain := drain_frame q.batchSize q []
    rw [hnums, Nat.sub_self] at hdrain
    exact hdrain
  have hempty : q.make.1.held = [] := by
    apply List.eq_nil_of_length_eq_zero
    rw [length_held, hframe]
  refine ⟨?_, hok, hrind hpos, hframe, hempty⟩
  change (⟨_, (TxQueue.drain q.batchSize q []).2⟩ : Batch) = _
  change (TxQueue.drain q.batchSize q []).1.held = [] at hempty
  rw [hempty, List.nil_append, List.append_nil] at hheld
  rw [hheld]

end TxQueue

namespace PoolEvent

@[simp] theorem accepts_append (tr tr' : List PoolEvent) :
    accepts (tr ++ tr') = accepts tr ++ accepts tr' := List.filterMap_append

@[simp] theorem batches_append (tr tr' : List PoolEvent) :
    batches (tr ++ tr') = batches tr ++ batches tr' := List.filterMap_append

@[simp] theorem handed_append (tr tr' : List PoolEvent) :
    handed (tr ++ tr') = handed tr ++ handed tr' := List.filterMap_append

end PoolEvent

namespace Pool

open PoolEvent

variable {p : Parameters} {N Id : Int} {txs : List Bytes} {made out : List Batch} {s t : Pool}
  {acts : List PoolAct}

/-- What `run` does with a transaction: reject it, store it, or make a batch with it. -/
theorem handleTx_cases (s : Pool) (tx : Bytes) :
    s.queue.full = true ∧ s.handleTx tx = s ∨
    s.queue.full = false ∧ s.queue.nums + 1 < s.queue.batchSize ∧
      s.handleTx tx = { s with queue := s.queue.put tx } ∨
    s.queue.full = false ∧ s.queue.batchSize ≤ s.queue.nums + 1 ∧
      s.handleTx tx = { s with
        queue := (s.queue.put tx).make.1, sending := some (s.queue.put tx).make.2 } := by
  unfold handleTx
  by_cases hfull : s.queue.full = true
  · exact Or.inl ⟨hfull, if_pos hfull⟩
  · rw [if_neg hfull]
    rw [Bool.not_eq_true] at hfull
    by_cases hmake : (s.queue.put tx).batchSize ≤ (s.queue.put tx).nums
    · exact Or.inr (Or.inr ⟨hfull, hmake, if_pos hmake⟩)
    · exact Or.inr (Or.inl ⟨hfull, Nat.lt_of_not_le hmake, if_neg hmake⟩)

/-- With the transactions accepted, the batches made and those handed out so far: the queue
holds what is accepted and not yet in a batch, which is less than a batch; the batches are
full and numbered, and they are handed out, in the channel or about to be sent. -/
structure Inv (p : Parameters) (N Id : Int) (txs : List Bytes) (made out : List Batch)
    (s : Pool) : Prop where
  maxQueueSize : s.queue.maxQueueSize = p.maxQueueSize
  batchSize : s.queue.batchSize = p.batchSize
  nodes : s.queue.N = N
  node : s.queue.Id = Id
  ok : s.queue.Ok
  nums_lt : s.queue.nums < p.batchSize
  fifo : txs = made.flatMap (·.txs) ++ s.queue.held
  queued : made = out ++ s.batchChannel ++ s.sending.toList
  counted : s.queue.bcnt + s.sending.toList.length = made.length
  size : ∀ b ∈ made, b.txs.length = p.batchSize
  number : ∀ (k : Nat) (b : Batch), made[k]? = some b → b.id = Id + N * k
  read : made ≠ [] → 0 ≤ s.queue.rind
  room : s.batchChannel.length ≤ batchCap

private theorem inv_new (hB : 1 ≤ p.batchSize) (hM : p.batchSize ≤ p.maxQueueSize) :
    Inv p N Id [] [] [] (newPool p N Id) where
  maxQueueSize := rfl
  batchSize := rfl
  nodes := rfl
  node := rfl
  ok := by
    refine ⟨hB.trans hM, ?_, ?_, ?_, ?_⟩ <;> simp [newPool, newTxQueue, TxQueue.start]
    omega
  nums_lt := hB
  fifo := rfl
  queued := rfl
  counted := rfl
  size := by simp
  number := by simp
  read := by simp
  room := Nat.zero_le _

/-- A transaction that does not fill a batch. -/
theorem Inv.stored (hM : p.batchSize ≤ p.maxQueueSize) (h : Inv p N Id txs made out s) {tx : Bytes}
    (hfew : s.queue.nums + 1 < s.queue.batchSize) :
    Inv p N Id (txs ++ [tx]) made out { s with queue := s.queue.put tx } := by
  have hsize := h.batchSize
  have hmax := h.maxQueueSize
  obtain ⟨hok, hheld⟩ := h.ok.put (by omega) tx
  refine { h with ok := hok, nums_lt := hsize ▸ hfew, fifo := ?_ }
  rw [h.fifo, hheld, List.append_assoc]

/-- A transaction that fills a batch. -/
theorem Inv.batched (hB : 1 ≤ p.batchSize) (hM : p.batchSize ≤ p.maxQueueSize)
    (h : Inv p N Id txs made out s) (hidle : s.sending = none) {tx : Bytes}
    (hmany : s.queue.batchSize ≤ s.queue.nums + 1) :
    Inv p N Id (txs ++ [tx]) (made ++ [(s.queue.put tx).make.2]) out
      { s with queue := (s.queue.put tx).make.1, sending := some (s.queue.put tx).make.2 } := by
  have hsize := h.batchSize
  have hmax := h.maxQueueSize
  have hlt := h.nums_lt
  have hcount : s.queue.bcnt = made.length := by
    have hcounted := h.counted
    rw [hidle] at hcounted
    exact hcounted
  obtain ⟨hok, hheld⟩ := h.ok.put (by omega) tx
  have hnums : (s.queue.put tx).nums = (s.queue.put tx).batchSize := by
    change s.queue.nums + 1 = s.queue.batchSize
    omega
  obtain ⟨hbatch, hmade, hrind, hframe, hempty⟩ :=
    hok.make hnums (by change 0 < s.queue.batchSize; omega)
  have hfull : (s.queue.put tx).make.2.txs.length = p.batchSize := by
    rw [hbatch, TxQueue.length_held, hnums]
    exact hsize
  have hnumber : (s.queue.put tx).make.2.id = Id + N * made.length := by
    rw [hbatch, ← hcount, ← h.node, ← h.nodes]
    rfl
  refine ⟨?_, ?_, ?_, ?_, hmade, ?_, ?_, ?_, ?_, ?_, ?_, fun _ => hrind, h.room⟩
  · rw [hframe]
    exact hmax
  · rw [hframe]
    exact hsize
  · rw [hframe]
    exact h.nodes
  · rw [hframe]
    exact h.node
  · rw [hframe]
    exact hB
  · rw [h.fifo, hempty, hbatch, List.flatMap_append, List.flatMap_singleton, hheld,
      List.append_assoc, List.append_nil]
  · rw [h.queued, hidle]
    simp
  · rw [hframe, List.length_append, ← hcount]
    rfl
  · intro b hb
    rcases List.mem_append.mp hb with hb | hb
    · exact h.size b hb
    · rw [List.mem_singleton.mp hb]
      exact hfull
  · intro k b hk
    rcases Nat.lt_or_ge k made.length with hlt | hge
    · rw [List.getElem?_append_left hlt] at hk
      exact h.number k b hk
    · rw [List.getElem?_append_right hge, List.getElem?_singleton] at hk
      obtain ⟨hzero, hb⟩ := Option.ite_none_right_eq_some.mp hk
      rw [← Option.some.inj hb, hnumber, show k = made.length by omega]

/-- A batch is sent. -/
theorem Inv.sent (h : Inv p N Id txs made out s) {batch : Batch}
    (hsending : s.sending = some batch) (hroom : s.batchChannel.length < batchCap) :
    Inv p N Id txs made out
      ⟨{ s.queue with bcnt := s.queue.bcnt + 1 }, s.batchChannel ++ [batch], none⟩ := by
  have hcount := h.counted
  have hqueued := h.queued
  rw [hsending] at hcount hqueued
  refine { h with ok := ?_, queued := ?_, counted := hcount, room := ?_ }
  · exact ⟨h.ok.pos, h.ok.size, h.ok.rind_ge, h.ok.rind_lt, h.ok.wind_eq⟩
  · rw [hqueued]
    simp
  · rw [List.length_append]
    exact hroom

/-- A batch is handed out. -/
theorem Inv.got (h : Inv p N Id txs made out s) {batch : Batch} {rest : List Batch}
    (hchannel : s.batchChannel = batch :: rest) :
    Inv p N Id txs made (out ++ [batch]) { s with batchChannel := rest } := by
  refine { h with queued := ?_, room := ?_ }
  · rw [h.queued, hchannel]
    simp
  · have hroom := h.room
    rw [hchannel, List.length_cons] at hroom
    exact (Nat.le_succ _).trans hroom

/-- Every action keeps the queue in step with the trace. -/
theorem Inv.step (hB : 1 ≤ p.batchSize) (hM : p.batchSize ≤ p.maxQueueSize)
    {tr : List PoolEvent} {act : PoolAct} (hs : s.step act = some t)
    (h : Inv p N Id (accepts tr) (batches tr) (handed tr) s) :
    Inv p N Id (accepts (tr ++ s.events act t)) (batches (tr ++ s.events act t))
      (handed (tr ++ s.events act t)) t := by
  rw [accepts_append, batches_append, handed_append]
  cases act with
  | tx tx =>
    simp only [Pool.step, Option.ite_none_left_eq_some, Bool.not_eq_true,
      Option.isSome_eq_false_iff, Option.isNone_iff_eq_none, Option.some.injEq] at hs
    obtain ⟨hidle, rfl⟩ := hs
    rcases s.handleTx_cases tx with ⟨hfull, heq⟩ | ⟨hfull, hfew, heq⟩ | ⟨hfull, hmany, heq⟩
    · have hevents : s.events (.tx tx) (s.handleTx tx) = [.rejected tx] := if_pos hfull
      rw [heq] at hevents ⊢
      simpa [hevents, accepts, batches, handed] using h
    · have hevents : s.events (.tx tx) (s.handleTx tx) = [.accepted tx] := by
        simp [heq, events, hfull, hidle]
      rw [heq] at hevents ⊢
      simpa [hevents, accepts, batches, handed] using h.stored hM hfew
    · have hevents : s.events (.tx tx) (s.handleTx tx) =
          [.accepted tx, .made (s.queue.put tx).make.2] := by
        simp [heq, events, hfull]
      rw [heq] at hevents ⊢
      simpa [hevents, accepts, batches, handed] using h.batched hB hM hidle hmany
  | send =>
    simp only [Pool.step, Option.bind_eq_some_iff, Option.ite_none_right_eq_some,
      Option.some.injEq] at hs
    obtain ⟨batch, hsending, hroom, rfl⟩ := hs
    simpa [events, accepts, batches, handed] using h.sent hsending hroom
  | get =>
    cases hs
    cases hchannel : s.batchChannel with
    | nil =>
      have hsame : ({ s with batchChannel := [] } : Pool) = s := by rw [← hchannel]
      rw [List.tail_nil, hsame]
      simpa [events, get, hchannel, accepts, batches, handed] using h
    | cons batch rest =>
      have hne : batch.txs ≠ [] := by
        intro hnil
        have hlen := h.size batch (by rw [h.queued, hchannel]; simp)
        rw [hnil, List.length_nil] at hlen
        omega
      simpa [events, get, hchannel, hne, accepts, batches, handed] using h.got hchannel

/-- So it is in step after every run. -/
theorem Reaches.inv (hB : 1 ≤ p.batchSize) (hM : p.batchSize ≤ p.maxQueueSize)
    (h : Reaches p N Id acts s) : Inv p N Id (accepts (trace p N Id acts))
      (batches (trace p N Id acts)) (handed (trace p N Id acts)) s := by
  refine Machine.outputs_invariant
    (P := fun tr s => Inv p N Id (accepts tr) (batches tr) (handed tr) s)
    (inv_new hB hM) ?_ (Machine.along_of_forall fun _ _ _ => trivial) h
  intro tr s act t hinv _ hs
  exact hinv.step hB hM hs

/-- Everything accepted is in a batch or still held. -/
theorem Inv.length_eq (h : Inv p N Id txs made out s) :
    txs.length = p.batchSize * made.length + s.queue.nums := by
  have hbatches : (made.flatMap (·.txs)).length = p.batchSize * made.length := by
    rw [List.length_flatMap, List.map_congr_left h.size]
    simp [Nat.mul_comm]
  rw [h.fifo, List.length_append, hbatches, TxQueue.length_held]

/-! ## First in, first out -/

/-- Numbers of different nodes or different batches differ. -/
theorem number_unique {Id Id' : Int} {k k' : Nat} (hId : 0 ≤ Id ∧ Id < N)
    (hId' : 0 ≤ Id' ∧ Id' < N) (h : Id + N * k = Id' + N * k') : Id = Id' ∧ k = k' := by
  have hnode : Id = Id' := by
    have hmod := congrArg (· % N) h
    simp only [Int.add_mul_emod_self_left] at hmod
    rwa [Int.emod_eq_of_lt hId.1 hId.2, Int.emod_eq_of_lt hId'.1 hId'.2] at hmod
  refine ⟨hnode, ?_⟩
  rw [hnode, Int.add_right_inj] at h
  have hk := mul_left_cancel₀ (show N ≠ 0 by omega) h
  exact_mod_cast hk

/-- **The queue is first in, first out.** After any stream of transactions, whenever batches
are sent and handed out: the transactions of the batches made, followed by those between the
read and the write index, are the transactions accepted, in order; the batches made are those
handed out, in the channel and about to be sent, in order; each has `batchSize` transactions;
and their numbers are unique among all batches of all nodes. -/
theorem refines_fifo (hB : 1 ≤ p.batchSize) (hM : p.batchSize ≤ p.maxQueueSize)
    (hId : 0 ≤ Id ∧ Id < N) (h : Reaches p N Id acts s) :
    accepts (trace p N Id acts) =
      (batches (trace p N Id acts)).flatMap (·.txs) ++ s.queue.held ∧
    s.queue.held.length = s.queue.nums ∧
    s.queue.wind = ((s.queue.rind + 1).toNat + s.queue.nums) % p.maxQueueSize ∧
    batches (trace p N Id acts) =
      handed (trace p N Id acts) ++ s.batchChannel ++ s.sending.toList ∧
    (∀ b ∈ batches (trace p N Id acts), b.txs.length = p.batchSize) ∧
    (∀ (k : Nat) (b : Batch), (batches (trace p N Id acts))[k]? = some b → b.id = Id + N * k) ∧
    ∀ (p' : Parameters) (Id' : Int) (acts' : List PoolAct) (s' : Pool), 1 ≤ p'.batchSize →
      p'.batchSize ≤ p'.maxQueueSize → 0 ≤ Id' ∧ Id' < N → Reaches p' N Id' acts' s' →
      ∀ (k k' : Nat) (b b' : Batch), (batches (trace p N Id acts))[k]? = some b →
        (batches (trace p' N Id' acts'))[k']? = some b' → b.id = b'.id → Id = Id' ∧ k = k' := by
  have hinv := h.inv hB hM
  refine ⟨hinv.fifo, TxQueue.length_held _, ?_, hinv.queued, hinv.size, hinv.number, ?_⟩
  · rw [← hinv.maxQueueSize]
    exact hinv.ok.wind_eq
  · intro p' Id' acts' s' hB' hM' hId' h' k k' b b' hb hb' heq
    rw [hinv.number k b hb, (h'.inv hB' hM').number k' b' hb'] at heq
    exact number_unique hId hId' heq

/-- Five transactions go around a ring of three in batches of two. -/
def aroundRing : List PoolAct :=
  [.tx [1], .tx [2], .send, .tx [3], .tx [4], .get, .send, .tx [5]]

/-- Two batches are made, and the fifth transaction has gone round the ring. -/
theorem refines_fifo_aroundRing : ∃ s, Reaches ⟨2, 3⟩ 4 1 aroundRing s ∧
    batches (trace ⟨2, 3⟩ 4 1 aroundRing) = [⟨1, [[1], [2]]⟩, ⟨5, [[3], [4]]⟩] ∧
    s.queue.held = [[5]] ∧
    accepts (trace ⟨2, 3⟩ 4 1 aroundRing) =
      (batches (trace ⟨2, 3⟩ 4 1 aroundRing)).flatMap (·.txs) ++ s.queue.held := by
  obtain ⟨s, hs, hheld⟩ : ∃ s ∈ Machine.run step (newPool ⟨2, 3⟩ 4 1) aroundRing,
      s.queue.held = [[5]] := by decide
  exact ⟨s, hs, by decide, hheld, (refines_fifo (by decide) (by decide) (by decide) hs).1⟩

/-! ## Rejections -/

/-- A queue with room for more than a batch is never full. -/
theorem Reaches.not_full (hB : 1 ≤ p.batchSize) (hM : p.batchSize < p.maxQueueSize)
    (h : Reaches p N Id acts s) : s.queue.full = false := by
  have hinv := h.inv hB hM.le
  have hlt := hinv.nums_lt
  have hmax := hinv.maxQueueSize
  rw [← Bool.not_eq_true, hinv.ok.full_iff (by omega)]
  omega

/-- The pool can always come to a point where it takes the next transaction. -/
theorem Reaches.ready (hB : 1 ≤ p.batchSize) (hM : p.batchSize ≤ p.maxQueueSize)
    (h : Reaches p N Id acts s) : ∃ more u, Reaches p N Id (acts ++ more) u ∧
      more.filterMap PoolAct.offered = [] ∧ u.sending = none := by
  have hroom := (h.inv hB hM).room
  cases hsending : s.sending with
  | none => exact ⟨[], s, by rwa [List.append_nil], rfl, hsending⟩
  | some batch =>
    have htail : s.batchChannel.tail.length < batchCap := by
      rw [List.length_tail]
      have hcap : 0 < batchCap := by decide
      omega
    have hsend : ({ s with batchChannel := s.batchChannel.tail } : Pool).step .send =
        some ⟨{ s.queue with bcnt := s.queue.bcnt + 1 }, s.batchChannel.tail ++ [batch], none⟩ := by
      rw [step, hsending, Option.bind_some, if_pos htail]
    refine ⟨[.get, .send], ⟨{ s.queue with bcnt := s.queue.bcnt + 1 },
      s.batchChannel.tail ++ [batch], none⟩, ?_, rfl, rfl⟩
    exact Machine.run_append.mpr ⟨s, h, Machine.run_cons.mpr ⟨_, rfl,
      Machine.run_cons.mpr ⟨_, hsend, rfl⟩⟩⟩

/-- The pool can take any transactions next. -/
theorem Reaches.offer (hB : 1 ≤ p.batchSize) (hM : p.batchSize ≤ p.maxQueueSize)
    (h : Reaches p N Id acts s) (txs : List Bytes) : ∃ more u, Reaches p N Id (acts ++ more) u ∧
      more.filterMap PoolAct.offered = txs := by
  induction txs generalizing acts s with
  | nil => exact ⟨[], s, by rwa [List.append_nil], rfl⟩
  | cons tx txs ih =>
    obtain ⟨more, u, hu, hnone, hidle⟩ := h.ready hB hM
    have htx : u.step (.tx tx) = some (u.handleTx tx) := by simp [step, hidle]
    obtain ⟨rest, v, hv, hrest⟩ := ih (Machine.run_concat.mpr ⟨u, hu, htx⟩)
    refine ⟨more ++ [.tx tx] ++ rest, v, ?_, ?_⟩
    · simpa only [List.append_assoc] using hv
    · simp [hnone, hrest, PoolAct.offered]

/-- Without rejections, the transactions accepted are those offered. -/
theorem accepts_eq (hfull : Machine.Along step (fun s _ => s.queue.full = false)
      (newPool p N Id) acts) (h : Reaches p N Id acts s) :
    accepts (trace p N Id acts) = acts.filterMap PoolAct.offered ∧
      rejects (trace p N Id acts) = [] := by
  constructor
  · refine Machine.filterMap_outputs ?_ hfull h
    intro u act t hno _
    cases act with
    | tx tx => cases hsending : t.sending <;> simp [events, hno, hsending, PoolAct.offered]
    | send => rfl
    | get => rfl
  · suffices hnone : rejects (trace p N Id acts) = acts.filterMap fun _ => none by simpa using hnone
    refine Machine.filterMap_outputs ?_ hfull h
    intro u act t hno _
    cases act with
    | tx tx => cases hsending : t.sending <;> simp [events, hno, hsending]
    | send => rfl
    | get => rfl

/-- **A queue larger than a batch rejects nothing.** However long the stream is, no
transaction finds the queue full, every `batchSize` transactions make a batch, and the pool
can always take more of them. -/
theorem rejects_nothing (hB : 1 ≤ p.batchSize) (hM : p.batchSize < p.maxQueueSize)
    (h : Reaches p N Id acts s) :
    s.queue.full = false ∧ rejects (trace p N Id acts) = [] ∧
    accepts (trace p N Id acts) = acts.filterMap PoolAct.offered ∧
    (batches (trace p N Id acts)).length =
      (acts.filterMap PoolAct.offered).length / p.batchSize ∧
    ∀ txs : List Bytes, ∃ more u, Reaches p N Id (acts ++ more) u ∧
      more.filterMap PoolAct.offered = txs ∧
      (batches (trace p N Id (acts ++ more))).length =
        ((acts.filterMap PoolAct.offered).length + txs.length) / p.batchSize := by
  have hfull : ∀ acts, Machine.Along step (fun s _ => s.queue.full = false) (newPool p N Id) acts :=
    Machine.along_of_reached fun acts u hu _ => Reaches.not_full hB hM hu
  have hcount : ∀ {acts s}, Reaches p N Id acts s → (batches (trace p N Id acts)).length =
      (acts.filterMap PoolAct.offered).length / p.batchSize := by
    intro acts s h
    have hinv := h.inv hB hM.le
    rw [← (accepts_eq (hfull acts) h).1, hinv.length_eq, Nat.mul_add_div (by omega),
      Nat.div_eq_of_lt hinv.nums_lt, Nat.add_zero]
  obtain ⟨haccepts, hrejects⟩ := accepts_eq (hfull acts) h
  refine ⟨h.not_full hB hM, hrejects, haccepts, hcount h, fun txs => ?_⟩
  obtain ⟨more, u, hu, htxs⟩ := h.offer hB hM.le txs
  refine ⟨more, u, hu, htxs, ?_⟩
  rw [hcount hu, List.filterMap_append, List.length_append, htxs]

/-- Two batches of two are made of five transactions. -/
theorem rejects_nothing_aroundRing : ∃ s, Reaches ⟨2, 3⟩ 4 1 aroundRing s ∧
    s.queue.nums = 1 ∧ rejects (trace ⟨2, 3⟩ 4 1 aroundRing) = [] ∧
    (batches (trace ⟨2, 3⟩ 4 1 aroundRing)).length = 5 / 2 := by
  obtain ⟨s, hs, hnums⟩ : ∃ s ∈ Machine.run step (newPool ⟨2, 3⟩ 4 1) aroundRing,
      s.queue.nums = 1 := by decide
  obtain ⟨_, hrejects, _, hcount, _⟩ := rejects_nothing (by decide) (by decide) hs
  exact ⟨s, hs, hnums, hrejects, hcount⟩

/-- A full queue stays full: nothing is read before a batch is complete. -/
theorem full_for_ever (hfull : s.queue.full = true) (hidle : s.sending = none)
    (h : Machine.run step s acts = some t) :
    t.queue = s.queue ∧ accepts (Machine.outputs step events s acts) = [] ∧
      batches (Machine.outputs step events s acts) = [] := by
  suffices hinv : t.queue = s.queue ∧ t.sending = none ∧
      accepts (Machine.outputs step events s acts) = [] ∧
      batches (Machine.outputs step events s acts) = [] from ⟨hinv.1, hinv.2.2⟩
  refine Machine.outputs_invariant
    (P := fun tr t => t.queue = s.queue ∧ t.sending = none ∧ accepts tr = [] ∧ batches tr = [])
    ⟨rfl, hidle, rfl, rfl⟩ ?_ (Machine.along_of_forall fun _ _ _ => trivial) h
  rintro tr u act v ⟨hqueue, hsending, haccepts, hbatches⟩ _ hs
  have hufull : u.queue.full = true := hqueue ▸ hfull
  cases act with
  | tx tx =>
    rw [step, hsending] at hs
    cases hs
    have hsame : u.handleTx tx = u := if_pos hufull
    rw [hsame, accepts_append, batches_append, haccepts, hbatches, events, if_pos hufull]
    exact ⟨hqueue, hsending, rfl, rfl⟩
  | send =>
    rw [step, hsending] at hs
    cases hs
  | get =>
    cases hs
    rw [accepts_append, batches_append, haccepts, hbatches]
    exact ⟨hqueue, hsending, rfl, rfl⟩

/-- **A batch as large as the queue stops the pool.** After the first batch the queue is full
with one transaction less than it has room for, and no second batch is ever made. -/
theorem full_of_batchSize_eq (hB : 1 ≤ p.batchSize) (hM : p.batchSize = p.maxQueueSize)
    (h : Reaches p N Id acts s)
    (hmany : (accepts (trace p N Id acts)).length + 1 = 2 * p.maxQueueSize) :
    s.queue.full = true ∧ s.queue.held.length + 1 = p.maxQueueSize := by
  have hinv := h.inv hB hM.le
  have hlen := hinv.length_eq
  have hlt := hinv.nums_lt
  have hmax := hinv.maxQueueSize
  have hone : (batches (trace p N Id acts)).length = 1 := by
    have hdiv : (accepts (trace p N Id acts)).length / p.batchSize = 1 := by
      rw [Nat.div_eq_iff (by omega)]
      omega
    rw [hlen, Nat.mul_add_div (by omega), Nat.div_eq_of_lt hlt] at hdiv
    exact hdiv
  have hread := hinv.read (by
    intro hnil
    rw [hnil] at hone
    cases hone)
  rw [hone] at hlen
  rw [hinv.ok.full_iff (by omega), TxQueue.length_held]
  omega

/-- One batch of two and a third transaction. -/
def threeOfTwo : List PoolAct := [.tx [1], .tx [2], .send, .tx [3]]

/-- With room for two transactions and batches of two, the third transaction fills the queue:
it holds one transaction, rejects all others and never makes a batch again. -/
theorem batch_fills_queue : ∃ s, Reaches ⟨2, 2⟩ 4 0 threeOfTwo s ∧
    s.queue.held = [[3]] ∧ s.queue.maxQueueSize = 2 ∧
    rejects (trace ⟨2, 2⟩ 4 0 (threeOfTwo ++ [.tx [4]])) = [[4]] ∧
    ∀ acts t, Machine.run step s acts = some t →
      accepts (Machine.outputs step events s acts) = [] ∧
      batches (Machine.outputs step events s acts) = [] := by
  obtain ⟨s, hs, hheld, hmax, hfull, hidle⟩ :
      ∃ s ∈ Machine.run step (newPool ⟨2, 2⟩ 4 0) threeOfTwo, s.queue.held = [[3]] ∧
        s.queue.maxQueueSize = 2 ∧ s.queue.full = true ∧ s.sending = none := by decide
  exact ⟨s, hs, hheld, hmax, by decide, fun acts t ht => (full_for_ever hfull hidle ht).2⟩

end Pool

end Loom
