import Loom.Pair.Ledger
import Loom.Pair.Rounds

/-!
# The commitor keeps the ledger

`Loaded` relates a running pull loop to the graph of the universe above the watermarks:
whatever the order of pushes and replies, the loop is a traversal of that graph.
`Booked` relates the executed blocks and the watermarks, counting a garbage collection
that is still on its way as done, to a ledger. Two runs that read the same leaders
therefore execute the same slots.
-/

namespace Loom

open Traversal

/-- The state of a running pull loop and the slots it still has to visit. -/
def Commitor.loop : Commitor → Option (CommitState × List Slot)
  | .pulling c => some (c, c.q)
  | .waiting c head _ => some (c, head :: c.q)
  | .received c head _ => some (c, head :: c.q)
  | .idle | .executing _ _ _ => none

/-- The slot that the loop has asked for. -/
def Commitor.asked : Commitor → Option (CommitState × Slot)
  | .waiting c head _ => some (c, head)
  | .received c head _ => some (c, head)
  | _ => none

/-- The first watermark map in a queue. -/
def firstWm (ops : List OpMsg) : Option (GoMap Int Int) :=
  ops.findSome? fun
    | .gcReq wm _ => some wm
    | _ => none

@[simp] theorem firstWm_core (req : CoreReq) (ops : List OpMsg) :
    firstWm (.core req :: ops) = firstWm ops := rfl

@[simp] theorem firstWm_pull (sl : Slot) (ch : Nat) (ops : List OpMsg) :
    firstWm (.blockPullReq sl ch :: ops) = firstWm ops := rfl

@[simp] theorem firstWm_gc (wm : GoMap Int Int) (r : Int) (ops : List OpMsg) :
    firstWm (.gcReq wm r :: ops) = some wm := rfl

@[simp] theorem firstWm_concat_core (ops : List OpMsg) (req : CoreReq) :
    firstWm (ops ++ [.core req]) = firstWm ops := by
  simp [firstWm, List.findSome?_append]

@[simp] theorem firstWm_concat_pull (ops : List OpMsg) (sl : Slot) (ch : Nat) :
    firstWm (ops ++ [.blockPullReq sl ch]) = firstWm ops := by
  simp [firstWm, List.findSome?_append]

/-- Without a request to clean there is no watermark map. -/
theorem firstWm_eq_none {ops : List OpMsg} (h : ∀ wm r, OpMsg.gcReq wm r ∉ ops) :
    firstWm ops = none := by
  rw [firstWm, List.findSome?_eq_none_iff]
  intro m hm
  cases m with
  | gcReq wm r => exact absurd hm (h wm r)
  | core | blockPullReq => rfl

private theorem firstWm_of_comOps {ops : List OpMsg} (h : comOps ops = []) :
    firstWm ops = none := by
  refine firstWm_eq_none fun wm r hmem => ?_
  rw [Pair.mem_comOps rfl, h] at hmem
  cases hmem

namespace Pair

/-- The watermark map that will be installed before the next block is pulled. -/
def flyingWm (s : Pair) : Option (GoMap Int Int) :=
  match s.com with
  | .executing _ _ wm => some wm
  | _ => firstWm s.opCh

/-- The watermarks, counting a garbage collection on its way as done. -/
def marks (s : Pair) (a : Int) : Int :=
  (s.flyingWm.bind fun wm => wm.lookup a).getD (s.dag.mark a)

/-- With no watermark map on its way the watermarks are those of the dag. -/
theorem marks_of_none {s : Pair} (h : s.flyingWm = none) (a : Int) : s.marks a = s.dag.mark a := by
  rw [marks, h]
  rfl

private theorem marks_congr {s t : Pair} (hfly : t.flyingWm = s.flyingWm)
    (hmark : ∀ a, t.dag.mark a = s.dag.mark a) : t.marks = s.marks := by
  funext a
  rw [marks, marks, hfly, hmark]

/-- No garbage collection is on its way while a block is held or awaited by its reply. -/
theorem Shape.flying_received {s : Pair} (h : s.Shape) {c : CommitState} {head : Slot}
    {b : Option Block} (hcom : s.com = .received c head b) : s.flyingWm = none := by
  simp only [Shape, hcom] at h
  simp only [flyingWm, hcom]
  exact firstWm_of_comOps h

private theorem Shape.flying_pulling {s : Pair} (h : s.Shape) {c : CommitState}
    (hcom : s.com = .pulling c) (hp : c.pulled.keys ≠ []) : s.flyingWm = none := by
  simp only [Shape, hcom] at h
  simp only [flyingWm, hcom]
  rcases h with h | ⟨hp', _⟩
  · exact firstWm_of_comOps h
  · exact absurd hp' hp

/-- Only the end of a pull loop raises the watermarks. -/
theorem marks_step {s t : Pair} {a : Act} (hsh : s.Shape) (hs : s.Step a t)
    (hfin : ∀ req todo wm, t.com = .executing req todo wm →
      ∃ todo', s.com = .executing req todo' wm) : t.marks = s.marks := by
  cases hs with
  | send req =>
    refine marks_congr ?_ fun _ => rfl
    cases hcom : s.com <;> simp [flyingWm, hcom]
  | crash => exact marks_congr rfl fun _ => rfl
  | @dag order m rest d pc _ hop hord hm =>
    by_cases hgc : ∃ wm r, m = .gcReq wm r
    · obtain ⟨wm, r, rfl⟩ := hgc
      obtain ⟨_, _, hexec, hrest⟩ := hsh.gc_head hop
      have hfly : s.flyingWm = some wm := by
        unfold flyingWm
        split
        · exact absurd ‹_› (hexec _ _ _)
        · rw [hop]
          rfl
      have hfly' : ({ s with dag := d, dagPc := pc, opCh := rest } : Pair).flyingWm = none := by
        unfold flyingWm
        split
        · exact absurd ‹_› (hexec _ _ _)
        · exact firstWm_eq_none hrest
      funext a
      rw [marks_of_none hfly', marks, hfly]
      exact mark_gc hord hm a
    · have hne : ∀ wm r, m ≠ .gcReq wm r := fun wm r he => hgc ⟨wm, r, he⟩
      refine marks_congr ?_ (grows_handle hm hne).mark
      have hfirst : firstWm s.opCh = firstWm rest := by
        rw [hop]
        cases m with
        | gcReq wm r => exact absurd rfl (hne wm r)
        | core | blockPullReq => rfl
      cases hcom : s.com <;> simp [flyingWm, hcom, hfirst]
  | submit | refResp => exact marks_congr rfl fun _ => rfl
  | reply _ hcom | take hcom _ | skip hcom _ _ | pull hcom _ _ | process hcom
  | nothing hcom _ _ | exec hcom =>
    exact marks_congr (by simp [flyingWm, hcom]) fun _ => rfl
  | gc hcom =>
    refine marks_congr ?_ fun _ => rfl
    simp only [Shape, hcom] at hsh
    simp only [flyingWm, hcom]
    rw [firstWm, List.findSome?_append, ← firstWm, firstWm_of_comOps hsh]
    rfl
  | finish hcom _ _ _ _ =>
    obtain ⟨todo', he⟩ := hfin _ _ _ rfl
    rw [hcom] at he
    cases he

/-! ## Pull loops traverse the universe -/

/-- The pair holds blocks of the universe only, and a running pull loop is a traversal of
the universe above the watermarks. -/
structure Loaded (blk : Slot → Option Block) (s : Pair) : Prop where
  stored : s.Stored fun b => blk b.header.slot = some b
  nilReply : ∀ ch sl, s.dagPc = .reply ch none → s.pulls[ch]? = some sl →
    sl.height ≤ s.dag.mark sl.author
  received : ∀ c head b, s.com = .received c head (some b) → blk head = some b
  nilReceived : ∀ c head, s.com = .received c head none → head.height ≤ s.dag.mark head.author
  pulled : ∀ sl b, s.com.pulled.lookup sl = some b → blk sl = some b
  unseen : ∀ c head, s.com.asked = some (c, head) → head ∉ c.pulled.keys
  frontier : ∀ c q, s.com.loop = some (c, q) →
    Frontier (graph blk s.marks) c.req.slot q c.pulled.keys
  last : ∀ c q, s.com.loop = some (c, q) → ∃ ts, s.taken = ts ++ [c.req]

/-- A new pair has loaded nothing. -/
theorem loaded_init (blk : Slot → Option Block) (i : Int) (c : Committee) :
    (init i c).Loaded blk where
  stored := stored_init _ i c
  nilReply := by simp [init]
  received := by simp [init]
  nilReceived := by simp [init]
  pulled := by simp [init, Commitor.pulled]
  unseen := by simp [init, Commitor.asked]
  frontier := by simp [init, Commitor.loop]
  last := by simp [init, Commitor.loop]

/-- A step may only push blocks of the universe. -/
def Conforms (blk : Slot → Option Block) (a : Act) : Prop :=
  ∀ b, a = .send (.propose b) → blk b.header.slot = some b

/-- A nil reply is for a slot at or below the watermark. -/
theorem nilReply_handle {s : Pair} {order : List Int} {m : OpMsg} {rest : List OpMsg} {d : Dag}
    {pc : DagPc} (hd : s.DagSide) (hop : s.opCh = m :: rest)
    (hm : s.dag.handle order m = some (d, pc)) {ch : Nat} {sl : Slot} (hpc : pc = .reply ch none)
    (hsl : s.pulls[ch]? = some sl) : sl.height ≤ d.mark sl.author := by
  subst hpc
  cases m with
  | core req =>
    cases req with
    | propose block =>
      rcases Dag.handleBlockPushReq_cases hm with
        ⟨_, _, hpc⟩ | ⟨_, _, _, _, ⟨_, hpc⟩ | ⟨_, _, hpc⟩⟩ <;>
        cases hpc
    | refReq round =>
      obtain ⟨_, ref, hpc⟩ := Dag.handleRefReq_dag hm
      cases hpc
    | commitReq req =>
      obtain ⟨_, _, hpc⟩ := Dag.handleCommitReq_cases hm
      rcases hpc with ⟨_, _, hpc⟩ | ⟨_, _, _, ⟨_, _, hpc⟩ | ⟨_, _, _, hpc⟩⟩ <;> cases hpc
  | blockPullReq sl' ch' =>
    have hq := hd.queued sl' ch' (hop ▸ List.mem_cons_self ..)
    rcases Dag.handleBlockPullReq_cases hm with
      ⟨hle, rfl, hpc⟩ | ⟨_, _, _, ⟨_, _, _, hpc⟩ | ⟨_, _, hpc⟩⟩
    · cases hpc
      rw [hq, Option.some.injEq] at hsl
      subst hsl
      exact hle
    · cases hpc
    · cases hpc
  | gcReq wm r =>
    obtain ⟨hpc, _⟩ := Dag.handleCleanReq_cases hm
    cases hpc

/-- One turn of the loop is one step of the traversal. -/
theorem Loaded.process {blk : Slot → Option Block} {s : Pair} (hsh : s.Shape) (hb : s.Bounds)
    (h : s.Loaded blk) {c : CommitState} {head : Slot} {reply : Option Block}
    (hcom : s.com = .received c head reply) (un : GoMap Int Int) :
    Frontier (graph blk s.marks) c.req.slot (c.receive un head reply).q
      (c.receive un head reply).pulled.keys := by
  have hf := h.frontier c (head :: c.q) (by rw [hcom]; rfl)
  have hmark := marks_of_none (hsh.flying_received hcom) head.author
  cases reply with
  | none =>
    refine hf.outside ?_
    have hle := h.nilReceived c head hcom
    rw [graph, if_neg (by omega)]
  | some b =>
    obtain ⟨_, _, _, hlt, _⟩ := hb.received c head b hcom
    have hx : graph blk s.marks head = some b.refSlots := by
      rw [graph, if_pos (by omega), h.received c head b hcom]
      rfl
    exact hf.visit hx (GoMap.mem_keys_insert c.pulled head b)

private theorem receive_req (un : GoMap Int Int) (c : CommitState) (head : Slot)
    (b : Option Block) : (c.receive un head b).req = c.req := by cases b <;> rfl

/-- Every step keeps what is loaded in agreement with the blocks. -/
theorem loaded_step {blk : Slot → Option Block} {s t : Pair} {a : Act} (hd : s.DagSide)
    (hsh : s.Shape) (hb : s.Bounds) (h : s.Loaded blk) (hc : Conforms blk a) (hs : s.Step a t) :
    t.Loaded blk := by
  have hmarks := marks_step hsh hs
  have hst := stored_step h.stored hc hs
  have hloop : ∀ {c q}, s.com.loop = some (c, q) →
      Frontier (graph blk s.marks) c.req.slot q c.pulled.keys ∧ ∃ ts, s.taken = ts ++ [c.req] :=
    fun hl => ⟨h.frontier _ _ hl, h.last _ _ hl⟩
  cases hs with
  | send req =>
    rw [← hmarks fun _ todo _ he => ⟨todo, he⟩] at hloop
    exact ⟨hst, h.nilReply, h.received, h.nilReceived, h.pulled, h.unseen,
      fun _ _ hl => (hloop hl).1, h.last⟩
  | crash =>
    exact ⟨hst, h.nilReply, h.received, h.nilReceived, h.pulled, h.unseen, h.frontier, h.last⟩
  | @dag order m rest d pc hpc hop hord hm =>
    rw [← hmarks fun _ todo _ he => ⟨todo, he⟩] at hloop
    refine ⟨hst, fun ch sl => nilReply_handle hd hop hm, h.received, ?_, h.pulled, h.unseen,
      fun _ _ hl => (hloop hl).1, h.last⟩
    intro c head hcom
    have hgc : ∀ wm r, m ≠ .gcReq wm r := by
      rintro wm r rfl
      exact (hsh.gc_head hop).2.1 c head none hcom
    have hle := h.nilReceived c head hcom
    rwa [← (grows_handle hm hgc).mark] at hle
  | submit | refResp =>
    exact ⟨hst, by simp, h.received, h.nilReceived, h.pulled, h.unseen, h.frontier, h.last⟩
  | @reply ch b c head hpc hcom =>
    rw [← hmarks (by simp)] at hloop
    have hch : s.pulls[ch]? = some head := by
      simp only [Shape, hcom] at hsh
      exact hsh.1
    refine ⟨hst, by simp, ?_, ?_, ?_, ?_, ?_, ?_⟩
    · intro c' head' b' he
      cases he
      obtain ⟨sl, hsl, hblk⟩ := hd.reply _ _ hpc
      rw [hch, Option.some.injEq] at hsl
      subst hsl
      rw [← (hblk b' rfl).1]
      exact h.stored.reply _ _ hpc
    · intro c' head' he
      cases he
      exact h.nilReply _ _ hpc hch
    · intro sl b' hb'
      exact h.pulled sl b' (by rw [hcom]; exact hb')
    · intro c' head' he
      exact h.unseen c' head' (by rw [hcom]; exact he)
    · intro c' q he
      exact (hloop (by rw [hcom]; exact he)).1
    · intro c' q he
      exact h.last c' q (by rw [hcom]; exact he)
  | @take req rest hcom _ =>
    refine ⟨hst, h.nilReply, by simp, by simp, by simp [Commitor.pulled, CommitState.start],
      by simp [Commitor.asked], ?_, ?_⟩
    · intro c q he
      cases he
      exact Frontier.init _
    · intro c q he
      cases he
      exact ⟨s.taken, rfl⟩
  | @skip c head q hcom hq hseen =>
    rw [← hmarks (by simp)] at hloop
    obtain ⟨hf, hlast⟩ := hloop (c := c) (q := head :: q) (by rw [hcom, ← hq]; rfl)
    refine ⟨hst, h.nilReply, by simp, by simp, ?_, by simp [Commitor.asked], ?_, ?_⟩
    · intro sl b hb'
      exact h.pulled sl b (by rw [hcom]; exact hb')
    · intro c' q' he
      cases he
      exact hf.skip hseen
    · intro c' q' he
      cases he
      exact hlast
  | @pull c head q hcom hq hnew =>
    rw [← hmarks (by simp)] at hloop
    obtain ⟨hf, hlast⟩ := hloop (c := c) (q := head :: q) (by rw [hcom, ← hq]; rfl)
    refine ⟨hst, ?_, by simp, by simp, ?_, ?_, ?_, ?_⟩
    · intro ch sl hpc hsl
      refine h.nilReply ch sl hpc ?_
      obtain ⟨sl', hsl', _⟩ := hd.reply ch none hpc
      rw [List.getElem?_append_left (List.getElem?_eq_some_iff.mp hsl').1] at hsl
      exact hsl
    · intro sl b hb'
      exact h.pulled sl b (by rw [hcom]; exact hb')
    · intro c' head' he
      cases he
      exact hnew
    · intro c' q' he
      cases he
      exact hf
    · intro c' q' he
      cases he
      exact hlast
  | @process c head b hcom =>
    rw [← hmarks (by simp)] at hloop
    refine ⟨hst, h.nilReply, by simp, by simp, ?_, by simp [Commitor.asked], ?_, ?_⟩
    · intro sl b' hb'
      cases b with
      | none => exact h.pulled sl b' (by rw [hcom]; exact hb')
      | some cur =>
        simp only [Commitor.pulled, CommitState.receive, GoMap.lookup_insert_ite] at hb'
        split at hb'
        · cases hb'
          subst sl
          exact h.received _ _ _ hcom
        · exact h.pulled sl b' (by rw [hcom]; exact hb')
    · intro c' q' he
      cases he
      rw [hmarks (by simp), receive_req]
      exact h.process hsh hb hcom _
    · intro c' q' he
      cases he
      rw [receive_req]
      exact h.last c (head :: c.q) (by rw [hcom]; rfl)
  | nothing | finish | exec | gc =>
    exact ⟨hst, h.nilReply, by simp, by simp, by simp [Commitor.pulled], by simp [Commitor.asked],
      by simp [Commitor.loop], by simp [Commitor.loop]⟩

/-! ## The ledger of a run -/

/-- The slots executed or ordered for execution so far. -/
def out (s : Pair) : List Slot := (s.executed ++ s.com.todo).map (·.header.slot)

/-- The request in progress: the anchors found so far and the leaders read for them. -/
def Current (R : Reading) (o : Origin) (s : Pair) (ts : List SubmitReq) : Prop :=
  match s.com.loop with
  | none => s.taken = ts ∧ (o.resumed = none ∨ ts ≠ o.taken)
  | some (c, _) => s.taken = ts ++ [c.req] ∧
      (∀ x ∈ (o.base ts c.req).2, x ∈ c.pulled.keys) ∧
      ∃ u, AnchorsOf u (o.base ts c.req).1 (o.base ts c.req).2 c.pulled c.anchors ∧
        ∀ x b, c.pulled.lookup x = some b → x ∉ (o.base ts c.req).2 →
          R s.taken s.commits b.header.round (u x)

/-- What the pair has done so far is a ledger. -/
def Booked (blk : Slot → Option Block) (R : Reading) (o : Origin) (s : Pair) : Prop :=
  ∃ ts, Ledger blk R o ts s.commits s.out s.marks ∧ s.Current R o ts

/-- The condition on a step that reads the leader map. -/
def ReadsOk (R : Reading) (s : Pair) (a : Act) : Prop :=
  ∀ c head b, a = .process → s.com = .received c head (some b) →
    R s.taken s.commits b.header.round (s.dag.uncommitted.lookup b.header.round)

/-- The origin that a state is. -/
def asOrigin (s : Pair) : Origin where
  taken := if s.com.loop.isSome then s.taken.dropLast else s.taken
  commits := s.commits
  out := s.out
  marks := s.marks
  resumed := s.com.loop.map (·.1)

/-- The ledger may start in any state. -/
theorem booked_origin {blk : Slot → Option Block} (R : Reading) {s : Pair} (h : s.Loaded blk) :
    s.Booked blk R s.asOrigin := by
  refine ⟨s.asOrigin.taken, .origin, ?_⟩
  unfold Current
  cases hl : s.com.loop with
  | none => simp [asOrigin, hl]
  | some p =>
    obtain ⟨c, q⟩ := p
    obtain ⟨ts, hts⟩ := h.last c q hl
    have hbase : s.asOrigin.base s.asOrigin.taken c.req = (c.anchors, c.pulled.keys) := by
      simp [Origin.base, asOrigin, hl]
    dsimp only
    rw [hbase]
    refine ⟨by simp [asOrigin, hl, hts], fun x hx => hx, fun _ => none, .refl _ _ _, ?_⟩
    intro x b hx hno
    exact absurd ((GoMap.mem_keys_iff _ _).mpr ⟨b, hx⟩) hno

/-- Steps that leave the loop state, the history and the watermarks alone. -/
theorem Booked.frame {blk : Slot → Option Block} {R : Reading} {o : Origin} {s t : Pair}
    (h : s.Booked blk R o) (hout : t.out = s.out) (hmarks : t.marks = s.marks)
    (hloop : t.com.loop.map (fun p => (p.1.req, p.1.pulled, p.1.anchors)) =
      s.com.loop.map fun p => (p.1.req, p.1.pulled, p.1.anchors))
    (htaken : t.taken = s.taken) (hcommits : t.commits = s.commits) : t.Booked blk R o := by
  obtain ⟨ts, hled, hcur⟩ := h
  refine ⟨ts, by rw [hcommits, hout, hmarks]; exact hled, ?_⟩
  unfold Current at hcur ⊢
  rw [htaken, hcommits]
  cases hs : s.com.loop with
  | none =>
    rw [hs, Option.map_none, Option.map_eq_none_iff] at hloop
    rw [hs] at hcur
    rw [hloop]
    exact hcur
  | some p =>
    rw [hs, Option.map_some, Option.map_eq_some_iff] at hloop
    obtain ⟨p', hp', heq⟩ := hloop
    simp only [Prod.mk.injEq] at heq
    obtain ⟨hreq, hpulled, hanchors⟩ := heq
    rw [hs] at hcur
    rw [hp']
    dsimp only at hcur ⊢
    rw [hreq, hpulled, hanchors]
    exact hcur

/-- A new pull loop starts from the submitted anchor. -/
theorem Booked.take {blk : Slot → Option Block} {R : Reading} {o : Origin} {s t : Pair}
    {req : SubmitReq} (h : s.Booked blk R o) (hout : t.out = s.out) (hmarks : t.marks = s.marks)
    (hs : s.com.loop = none) (ht : t.com = .pulling (.start req))
    (htaken : t.taken = s.taken ++ [req]) (hcommits : t.commits = s.commits) :
    t.Booked blk R o := by
  obtain ⟨ts, hled, hcur⟩ := h
  refine ⟨ts, by rw [hcommits, hout, hmarks]; exact hled, ?_⟩
  simp only [Current, hs] at hcur
  obtain ⟨hts, hfirst⟩ := hcur
  have hbase : o.base ts req = (startAnchors req, []) := by
    unfold Origin.base
    split
    · rename_i c hc
      rcases hfirst with hnone | hne
      · rw [hnone] at hc
        cases hc
      · rw [if_neg hne]
    · rfl
  simp only [Current, ht, Commitor.loop]
  rw [show (CommitState.start req).req = req from rfl, hbase, htaken, hts]
  refine ⟨rfl, by simp, fun _ => none, ?_, ?_⟩
  · exact AnchorsOf.refl _ _ ∅
  · intro x b hx
    simp [CommitState.start] at hx

/-- A reply extends the anchors and the reading. -/
theorem Booked.process {blk : Slot → Option Block} {R : Reading} {o : Origin} {s t : Pair}
    {c : CommitState} {head : Slot} {reply : Option Block} (hb : s.Bounds) (hl : s.Loaded blk)
    (h : s.Booked blk R o) (hok : s.ReadsOk R .process) (hcom : s.com = .received c head reply)
    (ht : t = { s with com := .pulling (c.receive s.dag.uncommitted head reply) })
    (hmarks : t.marks = s.marks) : t.Booked blk R o := by
  have hout : t.out = s.out := by
    subst ht
    simp [out, hcom, Commitor.todo]
  cases reply with
  | none =>
    subst ht
    exact h.frame hout hmarks (by rw [hcom]; rfl) rfl rfl
  | some b =>
    have hread := hok c head b rfl hcom
    obtain ⟨ts, hled, hcur⟩ := h
    refine ⟨ts, by rw [hout, hmarks]; subst ht; exact hled, ?_⟩
    subst ht
    simp only [Current, hcom, Commitor.loop] at hcur
    obtain ⟨hts, hold, u, hanch, hreads⟩ := hcur
    have hnew : head ∉ c.pulled.keys := hl.unseen c head (by rw [hcom]; rfl)
    have hkeyed : Keyed c.pulled := fun sl b' hb' =>
      (hb.pulled sl b' (by rw [hcom]; exact hb')).1
    have hslot := (hb.received c head b hcom).1
    simp only [Current, Commitor.loop, CommitState.receive]
    refine ⟨hts, fun x hx => (GoMap.mem_keys_insert _ _ _ x).mpr (Or.inr (hold x hx)), _,
      hanch.receive hnew (fun hmem => hnew (hold _ hmem)) hslot hkeyed s.dag.uncommitted, ?_⟩
    intro x b' hx hno
    rw [GoMap.lookup_insert_ite] at hx
    split at hx
    · subst x
      cases hx
      rw [Function.update_self]
      exact hread
    · rename_i hne
      rw [Function.update_of_ne hne]
      exact hreads x b' hx hno

/-- The end of a pull loop is one commit of the ledger. -/
theorem Booked.finish {blk : Slot → Option Block} {R : Reading} {o : Origin} {s : Pair}
    {c : CommitState} (hsh : s.Shape) (hb : s.Bounds) (hl : s.Loaded blk) (h : s.Booked blk R o)
    (hcom : s.com = .pulling c) (hq : c.q = []) (hp : c.pulled.keys ≠ []) {slots : List Slot}
    {rounds : List Int} (hslots : slots.Perm c.pulled.keys) (hrounds : rounds.Perm c.anchors.keys) :
    Booked blk R o { s with
      com := .executing c.req (c.execOrder rounds) (newWatermark slots)
      commits := s.commits ++ [c.req] } := by
  obtain ⟨ts, hled, hcur⟩ := h
  simp only [Current, hcom, Commitor.loop] at hcur
  obtain ⟨hts, _, u, hanch, hreads⟩ := hcur
  have hf := hl.frontier c [] (by rw [hcom, ← hq]; rfl)
  have hroot : (graph blk s.marks c.req.slot).isSome := by
    obtain ⟨x, hx⟩ := List.exists_mem_of_ne_nil _ hp
    exact (hf.seen_reach x hx).root
  have hg : Gathered blk s.marks u (o.base ts c.req).1 (o.base ts c.req).2 c.req c.pulled
      c.anchors := by
    refine ⟨hf.done, fun sl b hb' => ?_, hanch⟩
    have hb'' : s.com.pulled.lookup sl = some b := by rw [hcom]; exact hb'
    exact ⟨hl.pulled sl b hb'', (hb.pulled sl b hb'').1⟩
  rw [hts] at hreads
  have hnext := Ledger.commit hled hg hroot hreads
  refine ⟨ts ++ [c.req], ?_, ?_⟩
  · have hsort : rounds.insertionSort (· ≤ ·) = c.anchors.keys.insertionSort (· ≤ ·) :=
      List.Perm.eq_of_pairwise' (List.pairwise_insertionSort _ _) (List.pairwise_insertionSort _ _)
        ((List.perm_insertionSort _ _).trans (hrounds.trans (List.perm_insertionSort _ _).symm))
    have hout : (s.executed ++ c.execOrder rounds).map (·.header.slot) =
        s.out ++ executedSlots c.pulled c.anchors := by
      rw [out, hcom]
      simp only [Commitor.todo, List.append_nil, List.map_append, CommitState.execOrder, hsort,
        executedSlots]
    have hraise : (fun a => ((newWatermark slots).lookup a).getD (s.dag.mark a)) =
        raise s.marks c.pulled := by
      funext a
      have hwm : (newWatermark slots).lookup a = (newWatermark c.pulled.keys).lookup a := by
        ext k
        simp only [lookup_newWatermark, hslots.mem_iff]
      rw [raise, hwm, marks_of_none (hsh.flying_pulling hcom hp)]
    rw [← hout, ← hraise] at hnext
    exact hnext
  · simp only [Current, Commitor.loop]
    exact ⟨hts, Or.inr hled.not_origin⟩

/-- A commit that gathers nothing is not written down. -/
theorem Booked.nothing {blk : Slot → Option Block} {R : Reading} {o : Origin} {s t : Pair}
    {c : CommitState} (hl : s.Loaded blk) (h : s.Booked blk R o) (hcom : s.com = .pulling c)
    (hq : c.q = []) (hp : c.pulled.keys = []) (ht : t = { s with com := .idle })
    (hmarks : t.marks = s.marks) : t.Booked blk R o := by
  obtain ⟨ts, hled, hcur⟩ := h
  simp only [Current, hcom, Commitor.loop] at hcur
  have hf := hl.frontier c [] (by rw [hcom, ← hq]; rfl)
  have hnone : graph blk s.marks c.req.slot = none := by
    rw [← Option.not_isSome_iff_eq_none]
    intro hsome
    have hstart := hf.start hsome
    rw [hp] at hstart
    simp at hstart
  refine ⟨ts ++ [c.req], ?_, ?_⟩
  · have hout : t.out = s.out := by
      subst ht
      simp [out, hcom, Commitor.todo]
    rw [hout, hmarks]
    subst ht
    exact .nothing hled hnone
  · subst ht
    simp only [Current, Commitor.loop]
    exact ⟨hcur.1, Or.inr hled.not_origin⟩

/-- Every step keeps the ledger. -/
theorem booked_step {blk : Slot → Option Block} {R : Reading} {o : Origin} {s t : Pair} {a : Act}
    (hsh : s.Shape) (hb : s.Bounds) (hl : s.Loaded blk) (h : s.Booked blk R o)
    (hok : s.ReadsOk R a) (hs : s.Step a t) : t.Booked blk R o := by
  have hmarks := marks_step hsh hs
  cases hs with
  | send | crash | dag | submit | refResp =>
    exact h.frame rfl (hmarks fun _ todo _ he => ⟨todo, he⟩) rfl rfl rfl
  | reply _ hcom | skip hcom _ _ | pull hcom _ _ =>
    exact h.frame (by simp [out, hcom, Commitor.todo]) (hmarks (by simp)) (by rw [hcom]; rfl)
      rfl rfl
  | take hcom _ =>
    exact h.take (by simp [out, hcom, Commitor.todo]) (hmarks (by simp)) (by rw [hcom]; rfl) rfl rfl
      rfl
  | process hcom => exact h.process hb hl hok hcom rfl (hmarks (by simp))
  | nothing hcom hq hp => exact h.nothing hl hcom hq hp rfl (hmarks (by simp))
  | finish hcom hq hp hslots hrounds => exact h.finish hsh hb hl hcom hq hp hslots hrounds
  | exec hcom =>
    refine h.frame (by simp [out, hcom, Commitor.todo]) (hmarks ?_) (by rw [hcom]; rfl) rfl rfl
    intro req todo wm he
    cases he
    exact ⟨_, hcom⟩
  | gc hcom =>
    exact h.frame (by simp [out, hcom, Commitor.todo]) (hmarks (by simp)) (by rw [hcom]; rfl)
      rfl rfl

/-! ## Commits depend on the blocks only -/

/-- The blocks that a run pushes. -/
def pushes (acts : List Act) : List Block :=
  acts.filterMap fun
    | .send (.propose b) => some b
    | _ => none

/-- In the `k`-th commit the leader map read is `maps k`. -/
def readsMap (maps : Nat → Int → Option Int) (s : Pair) : Act → Bool
  | .process =>
    match s.com with
    | .received _ _ (some b) =>
      s.dag.uncommitted.lookup b.header.round == maps s.taken.length b.header.round
    | _ => true
  | _ => true

/-- All commits taken so far have been executed and collected. -/
def Settled (s : Pair) : Prop := s.com.rounds = [] ∧ gcRounds s.opCh = []

instance (s : Pair) : Decidable s.Settled := inferInstanceAs (Decidable (_ ∧ _))

private theorem conforms_of_pushes {blk : Slot → Option Block} {acts : List Act}
    (h : ∀ b ∈ pushes acts, blk b.header.slot = some b) (s : Pair) :
    Machine.Along step (fun _ a => Conforms blk a) s acts := by
  refine Machine.along_of_forall fun a ha _ b hb => h b ?_
  subst hb
  exact List.mem_filterMap.mpr ⟨_, ha, rfl⟩

/-- In a settled state the commitor is idle. -/
theorem Settled.com {s : Pair} (h : s.Settled) : s.com = .idle := by
  have hr := h.1
  cases hcom : s.com <;> simp_all [Commitor.rounds]

/-- No watermark map is on its way then. -/
theorem Settled.flyingWm {s : Pair} (h : s.Settled) : s.flyingWm = none := by
  simp only [Pair.flyingWm, h.com]
  refine firstWm_eq_none fun wm r hmem => ?_
  have hin : r ∈ gcRounds s.opCh := List.mem_filterMap.mpr ⟨_, hmem, rfl⟩
  rw [h.2] at hin
  cases hin

/-- Every run is a ledger over the blocks it pushes and the leaders it reads, from
whatever reachable state it starts in. -/
theorem booked_of_run {i : Int} {c : Committee} {acts₀ acts : List Act} {s₀ s : Pair}
    {blk : Slot → Option Block} {R : Reading} (h₀ : Reaches i c acts₀ s₀)
    (h : Machine.run step s₀ acts = some s)
    (hp : ∀ b ∈ pushes (acts₀ ++ acts), blk b.header.slot = some b)
    (hr : Machine.Along step (ReadsOk R) s₀ acts) : s.Booked blk R s₀.asOrigin := by
  have hp₀ : ∀ b ∈ pushes acts₀, blk b.header.slot = some b := fun b hb =>
    hp b (by rw [pushes, List.filterMap_append]; exact List.mem_append_left _ hb)
  have hp₁ : ∀ b ∈ pushes acts, blk b.header.slot = some b := fun b hb =>
    hp b (by rw [pushes, List.filterMap_append]; exact List.mem_append_right _ hb)
  have hstart : s₀.Inv i c ∧ s₀.Loaded blk :=
    Machine.invariant_along (P := fun s => s.Inv i c ∧ s.Loaded blk)
      (fun s a t hs hc ht => ⟨hs.1.step ht,
        loaded_step hs.1.dagSide hs.1.shape hs.1.bounds hs.2 hc (step_cases ht).2⟩)
      ⟨inv_init i c, loaded_init blk i c⟩ (conforms_of_pushes hp₀ _) h₀
  have hend : s.Inv i c ∧ s.Loaded blk ∧ s.Booked blk R s₀.asOrigin :=
    Machine.invariant_along
      (P := fun s => s.Inv i c ∧ s.Loaded blk ∧ s.Booked blk R s₀.asOrigin)
      (fun s a t hs hc ht => ⟨hs.1.step ht,
        loaded_step hs.1.dagSide hs.1.shape hs.1.bounds hs.2.1 hc.1 (step_cases ht).2,
        booked_step hs.1.shape hs.1.bounds hs.2.1 hs.2.2 hc.2 (step_cases ht).2⟩)
      ⟨hstart.1, hstart.2, booked_origin R hstart.2⟩ ((conforms_of_pushes hp₁ _).and hr) h
  exact hend.2.2

private theorem readsOk_of_readsMap {maps : Nat → Int → Option Int} {s : Pair} {a : Act}
    (h : readsMap maps s a = true) :
    ReadsOk (fun ts _ r v => v = maps ts.length r) s a := by
  rintro c head b rfl hcom
  simpa [readsMap, hcom] using h

/-- **A commit depends only on the blocks, not on their arrival order.** Two runs from the
same reachable state over the same blocks, up to the order of their references, with the
same requests and the same leader maps have executed the same slots and hold the same
watermarks once both have completed these commits. The runs differ freely in the order
of pushes, the interleaving with pulls and the iteration orders of maps. -/
theorem commit_order_independent {i : Int} {c : Committee} {acts₀ acts₁ acts₂ : List Act}
    {s₀ s₁ s₂ : Pair} (h₀ : Reaches i c acts₀ s₀)
    (h₁ : Machine.run step s₀ acts₁ = some s₁) (h₂ : Machine.run step s₀ acts₂ = some s₂)
    {blk₁ blk₂ : Slot → Option Block} (hsame : SameBlocks blk₁ blk₂)
    (hp₁ : ∀ b ∈ pushes (acts₀ ++ acts₁), blk₁ b.header.slot = some b)
    (hp₂ : ∀ b ∈ pushes (acts₀ ++ acts₂), blk₂ b.header.slot = some b)
    {maps : Nat → Int → Option Int}
    (hm₁ : Machine.Along step (fun s a => readsMap maps s a = true) s₀ acts₁)
    (hm₂ : Machine.Along step (fun s a => readsMap maps s a = true) s₀ acts₂)
    (htaken : s₁.taken = s₂.taken) (hd₁ : s₁.Settled) (hd₂ : s₂.Settled) :
    s₁.executed.map (·.header.slot) = s₂.executed.map (·.header.slot) ∧
      ∀ a, s₁.dag.mark a = s₂.dag.mark a := by
  have hread : ∀ {s acts}, Machine.Along step (fun s a => readsMap maps s a = true) s acts →
      Machine.Along step (ReadsOk fun ts _ r v => v = maps ts.length r) s acts :=
    fun h => h.mono fun _ _ => readsOk_of_readsMap
  obtain ⟨ts₁, hl₁, hc₁⟩ := booked_of_run h₀ h₁ hp₁ (hread hm₁)
  obtain ⟨ts₂, hl₂, hc₂⟩ := booked_of_run h₀ h₂ hp₂ (hread hm₂)
  simp only [Current, hd₁.com, hd₂.com, Commitor.loop] at hc₁ hc₂
  have hts : ts₁ = ts₂ := by rw [← hc₁.1, ← hc₂.1, htaken]
  subst hts
  obtain ⟨_, hout, hmarks⟩ := Ledger.unique hsame
    (fun _ _ _ _ _ hv hv' => hv.trans hv'.symm) hl₁ hl₂
  constructor
  · simpa [out, hd₁.com, hd₂.com, Commitor.todo] using hout
  · intro a
    rw [← marks_of_none hd₁.flyingWm, ← marks_of_none hd₂.flyingWm, hmarks]

/-- The second block of member `1`, with references to both first blocks in some order. -/
def joinBlock (ref : List Slot) : Block :=
  { plainBlock 0 1 1 with ref := ref.map fun s => ⟨s, 0, 0⟩ }

/-- The blocks of member `1` around a second block, and one block of member `2`. -/
def joined (ref : List Slot) : List Block :=
  [plainBlock 0 1 0, plainBlock 0 2 0, joinBlock ref, plainBlock 0 1 2, plainBlock 0 1 3]

/-- All blocks arrive before the reveal, and every pull is answered at once. -/
def pushedFirst : List Act :=
  (joined [⟨1, 0⟩, ⟨2, 0⟩]).map (fun b => .send (.propose b)) ++
  [.send (.commitReq ⟨1, 0⟩)] ++ List.replicate 6 (.dag []) ++ [.submit, .take] ++
  (List.replicate 3 [.pull, .dag [], .reply, .process]).flatten ++
  [.finish [⟨1, 1⟩, ⟨2, 0⟩, ⟨1, 0⟩] [0], .exec, .exec, .exec, .gc, .dag [1, 2]]

/-- The highest block arrives first, and every pull waits for its block. -/
def pulledFirst : List Act :=
  [.send (.propose (plainBlock 0 1 3)), .send (.commitReq ⟨1, 0⟩), .dag [], .dag [],
    .submit, .take] ++
  [joinBlock [⟨2, 0⟩, ⟨1, 0⟩], plainBlock 0 2 0, plainBlock 0 1 0].flatMap (fun b =>
    [.pull, .dag [], .send (.propose b), .dag [], .reply, .process]) ++
  [.send (.propose (plainBlock 0 1 2)), .dag [], .finish [⟨1, 0⟩, ⟨1, 1⟩, ⟨2, 0⟩] [0], .exec,
    .exec, .exec, .gc, .dag [2, 1]]

/-- Two runs with different timing execute the same three slots. -/
theorem commit_order_independent_joined : ∃ s₁ s₂, Reaches 0 fourMembers pushedFirst s₁ ∧
    Reaches 0 fourMembers pulledFirst s₂ ∧
    s₁.executed.map (·.header.slot) = [⟨2, 0⟩, ⟨1, 0⟩, ⟨1, 1⟩] ∧
    s₁.executed.map (·.header.slot) = s₂.executed.map (·.header.slot) ∧
    ∀ a, s₁.dag.mark a = s₂.dag.mark a := by
  obtain ⟨s₁, h₁, hex, ht₁, hd₁⟩ : ∃ s ∈ Machine.run step (init 0 fourMembers) pushedFirst,
      s.executed.map (·.header.slot) = [⟨2, 0⟩, ⟨1, 0⟩, ⟨1, 1⟩] ∧ s.taken = [⟨⟨1, 1⟩, 0⟩] ∧
      s.Settled := by decide +kernel
  obtain ⟨s₂, h₂, ht₂, hd₂⟩ : ∃ s ∈ Machine.run step (init 0 fourMembers) pulledFirst,
      s.taken = [⟨⟨1, 1⟩, 0⟩] ∧ s.Settled := by decide +kernel
  have hsame : SameBlocks (universeOf (joined [⟨1, 0⟩, ⟨2, 0⟩]))
      (universeOf (joined [⟨2, 0⟩, ⟨1, 0⟩])) := by
    apply sameBlocks_universeOf
    refine .cons (.refl _) (.cons (.refl _) (.cons ⟨rfl, ?_⟩
      (.cons (.refl _) (.cons (.refl _) .nil))))
    exact List.Perm.swap _ _ _
  have h₀ : Reaches 0 fourMembers [] (init 0 fourMembers) := rfl
  have hm₁ : Machine.Along step (fun s a =>
      readsMap (fun _ r => if r = 0 then some 1 else none) s a = true) (init 0 fourMembers)
      pushedFirst := by decide +kernel
  exact ⟨s₁, s₂, h₁, h₂, hex, commit_order_independent h₀ h₁ h₂ hsame (by decide +kernel)
    (by decide +kernel) hm₁ (by decide +kernel) (ht₁.trans ht₂.symm) hd₁ hd₂⟩

end Pair

end Loom
