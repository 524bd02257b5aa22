import Loom.Core.Commitor
import Loom.Prelude.Machine

/-!
# The dag and the commitor of one node

The two goroutines share `opCh` and `submitCh`, both FIFO and bounded, and meet on
unbuffered reply channels. A step is one channel operation or one local move of
one goroutine, so every interleaving is a list of labels. The core is the
environment: it may put any push, reference request or reveal into `opCh` at any
time. A panic ends the run of the whole process.
-/

namespace Loom

/-- A request of the core to the dag. -/
inductive CoreReq where
  | propose (block : Block)
  | refReq (round : Int)
  | commitReq (req : CommitReq)
  deriving DecidableEq, Repr

/-- An entry of `opCh`. -/
inductive OpMsg where
  | core (req : CoreReq)
  | blockPullReq (slot : Slot) (ch : Nat)
  /-- The round belongs to the commit that sent the request; no handler reads it. -/
  | gcReq (newWatermark : GoMap Int Int) (round : Int)

/-- Buffer size of `opCh`. -/
def opCap : Nat := 10000

/-- Buffer size of `submitCh`. -/
def submitCap : Nat := 100

/-- The joint state of the two goroutines. -/
structure Pair where
  dag : Dag
  dagPc : DagPc
  com : Commitor
  opCh : List OpMsg
  submitCh : List SubmitReq
  /-- The reply channels made so far, each with the slot it was made for. -/
  pulls : List Slot
  /-- The blocks passed to `exec`, in order. -/
  executed : List Block
  /-- History: the requests received from `submitCh`. -/
  taken : List SubmitReq
  /-- History: the requests among them whose pulled set was not empty. -/
  commits : List SubmitReq
  crashed : Bool

def Pair.init (nodeID : Int) (c : Committee) : Pair where
  dag := newDag nodeID c
  dagPc := .idle
  com := .idle
  opCh := []
  submitCh := []
  pulls := []
  executed := []
  taken := []
  commits := []
  crashed := false

/-- One label for each kind of move; the lists are iteration orders of Go maps. -/
inductive Act where
  | send (req : CoreReq)
  | dag (order : List Int)
  | submit
  | reply
  | refResp
  | take
  | pull
  | process
  | finish (slots : List Slot) (rounds : List Int)
  | exec
  | gc
  deriving DecidableEq, Repr

/-- The body of the dag's loop. -/
def Dag.handle (d : Dag) (order : List Int) : OpMsg → Option (Dag × DagPc)
  | .core (.propose block) => d.handleBlockPushReq block
  | .core (.refReq round) => d.handleRefReq round
  | .core (.commitReq req) => d.handleCommitReq req
  | .blockPullReq slot ch => d.handleBlockPullReq slot ch
  | .gcReq wm _ => d.handleCleanReq wm order

/-- A watermark map is iterated in some order of its keys. -/
def OpMsg.orderOk (order : List Int) : OpMsg → Bool
  | .gcReq wm _ => order.isPerm wm.keys
  | _ => true

namespace Pair

/-- One step of the pair; `none` if the labelled move is blocked or impossible. -/
def step (s : Pair) (a : Act) : Option Pair :=
  if s.crashed then none else
  match a with
  | .send req =>
    if s.opCh.length < opCap then some { s with opCh := s.opCh ++ [.core req] } else none
  | .dag order =>
    match s.dagPc, s.opCh with
    | .idle, m :: rest =>
      if m.orderOk order then
        match s.dag.handle order m with
        | none => some { s with crashed := true }
        | some (d, pc) => some { s with dag := d, dagPc := pc, opCh := rest }
      else none
    | _, _ => none
  | .submit =>
    match s.dagPc with
    | .submit req =>
      if s.submitCh.length < submitCap then
        some { s with dagPc := .idle, submitCh := s.submitCh ++ [req] }
      else none
    | _ => none
  | .reply =>
    match s.dagPc, s.com with
    | .reply ch b, .waiting c head ch' =>
      if ch = ch' then some { s with dagPc := .idle, com := .received c head b } else none
    | _, _ => none
  | .refResp =>
    match s.dagPc with
    | .refResp _ => some { s with dagPc := .idle }
    | _ => none
  | .take =>
    match s.com, s.submitCh with
    | .idle, req :: rest =>
      some { s with com := .pulling (.start req), submitCh := rest, taken := s.taken ++ [req] }
    | _, _ => none
  | .pull =>
    match s.com with
    | .pulling c =>
      match c.q with
      | [] => none
      | head :: q =>
        if head ∈ c.pulled.keys then some { s with com := .pulling { c with q := q } }
        else if s.opCh.length < opCap then
          some { s with
            com := .waiting { c with q := q } head s.pulls.length
            opCh := s.opCh ++ [.blockPullReq head s.pulls.length]
            pulls := s.pulls ++ [head] }
        else none
    | _ => none
  | .process =>
    match s.com with
    | .received c head b => some { s with com := .pulling (c.receive s.dag.uncommitted head b) }
    | _ => none
  | .finish slots rounds =>
    match s.com with
    | .pulling c =>
      if c.q ≠ [] then none
      else if c.pulled.keys = [] then some { s with com := .idle }
      else if slots.isPerm c.pulled.keys ∧ rounds.isPerm c.anchors.keys then
        some { s with
          com := .executing c.req (c.execOrder rounds) (newWatermark slots)
          commits := s.commits ++ [c.req] }
      else none
    | _ => none
  | .exec =>
    match s.com with
    | .executing req (b :: todo) wm =>
      some { s with com := .executing req todo wm, executed := s.executed ++ [b] }
    | _ => none
  | .gc =>
    match s.com with
    | .executing req [] wm =>
      if s.opCh.length < opCap then
        some { s with com := .idle, opCh := s.opCh ++ [.gcReq wm req.round] }
      else none
    | _ => none

/-- What one step can do, with the guards of the code. -/
inductive Step (s : Pair) : Act → Pair → Prop
  | send (req : CoreReq) : Step s (.send req) { s with opCh := s.opCh ++ [.core req] }
  | crash {order m rest} : s.dagPc = .idle → s.opCh = m :: rest → m.orderOk order = true →
      s.dag.handle order m = none → Step s (.dag order) { s with crashed := true }
  | dag {order m rest d pc} : s.dagPc = .idle → s.opCh = m :: rest → m.orderOk order = true →
      s.dag.handle order m = some (d, pc) →
      Step s (.dag order) { s with dag := d, dagPc := pc, opCh := rest }
  | submit {req} : s.dagPc = .submit req →
      Step s .submit { s with dagPc := .idle, submitCh := s.submitCh ++ [req] }
  | reply {ch b c head} : s.dagPc = .reply ch b → s.com = .waiting c head ch →
      Step s .reply { s with dagPc := .idle, com := .received c head b }
  | refResp {ref} : s.dagPc = .refResp ref → Step s .refResp { s with dagPc := .idle }
  | take {req rest} : s.com = .idle → s.submitCh = req :: rest →
      Step s .take
        { s with com := .pulling (.start req), submitCh := rest, taken := s.taken ++ [req] }
  | skip {c head q} : s.com = .pulling c → c.q = head :: q → head ∈ c.pulled.keys →
      Step s .pull { s with com := .pulling { c with q := q } }
  | pull {c head q} : s.com = .pulling c → c.q = head :: q → head ∉ c.pulled.keys →
      Step s .pull { s with
        com := .waiting { c with q := q } head s.pulls.length
        opCh := s.opCh ++ [.blockPullReq head s.pulls.length]
        pulls := s.pulls ++ [head] }
  | process {c head b} : s.com = .received c head b →
      Step s .process { s with com := .pulling (c.receive s.dag.uncommitted head b) }
  | nothing {c slots rounds} : s.com = .pulling c → c.q = [] → c.pulled.keys = [] →
      Step s (.finish slots rounds) { s with com := .idle }
  | finish {c slots rounds} : s.com = .pulling c → c.q = [] → c.pulled.keys ≠ [] →
      slots.Perm c.pulled.keys → rounds.Perm c.anchors.keys →
      Step s (.finish slots rounds) { s with
        com := .executing c.req (c.execOrder rounds) (newWatermark slots)
        commits := s.commits ++ [c.req] }
  | exec {req b todo wm} : s.com = .executing req (b :: todo) wm →
      Step s .exec { s with com := .executing req todo wm, executed := s.executed ++ [b] }
  | gc {req wm} : s.com = .executing req [] wm →
      Step s .gc { s with com := .idle, opCh := s.opCh ++ [.gcReq wm req.round] }

/-- The inversion of `step`. -/
theorem step_cases {s t : Pair} {a : Act} (h : s.step a = some t) :
    s.crashed = false ∧ s.Step a t := by
  unfold step at h
  split at h
  · cases h
  rename_i hc
  refine ⟨by simpa using hc, ?_⟩
  cases a with
  | send req =>
    simp only [Option.ite_none_right_eq_some, Option.some.injEq] at h
    obtain ⟨_, rfl⟩ := h
    exact .send req
  | dag order =>
    dsimp only at h
    split at h
    · rename_i m rest hpc hop
      simp only [Option.ite_none_right_eq_some] at h
      obtain ⟨hord, h⟩ := h
      split at h <;> cases h
      · exact .crash hpc hop hord ‹_›
      · exact .dag hpc hop hord ‹_›
    · cases h
  | submit =>
    dsimp only at h
    split at h
    · simp only [Option.ite_none_right_eq_some, Option.some.injEq] at h
      obtain ⟨_, rfl⟩ := h
      exact .submit ‹_›
    · cases h
  | reply =>
    dsimp only at h
    split at h
    · rename_i ch b c head ch' hpc hcom
      simp only [Option.ite_none_right_eq_some, Option.some.injEq] at h
      obtain ⟨rfl, rfl⟩ := h
      exact .reply hpc hcom
    · cases h
  | refResp =>
    dsimp only at h
    split at h <;> cases h
    exact .refResp ‹_›
  | take =>
    dsimp only at h
    split at h <;> cases h
    exact .take ‹_› ‹_›
  | pull =>
    dsimp only at h
    split at h
    · split at h
      · cases h
      · split at h
        · cases h
          exact .skip ‹_› ‹_› ‹_›
        · simp only [Option.ite_none_right_eq_some, Option.some.injEq] at h
          obtain ⟨_, rfl⟩ := h
          exact .pull ‹_› ‹_› ‹_›
    · cases h
  | process =>
    dsimp only at h
    split at h <;> cases h
    exact .process ‹_›
  | finish slots rounds =>
    dsimp only at h
    split at h
    · rename_i c hcom
      by_cases hq : c.q = []
      · simp only [hq, ne_eq, not_true_eq_false, ite_false] at h
        split at h
        · cases h
          exact .nothing hcom hq ‹_›
        · simp only [Option.ite_none_right_eq_some, Option.some.injEq] at h
          obtain ⟨⟨h₁, h₂⟩, rfl⟩ := h
          exact .finish hcom hq ‹_› (List.isPerm_iff.mp h₁) (List.isPerm_iff.mp h₂)
      · simp [hq] at h
    · cases h
  | exec =>
    dsimp only at h
    split at h <;> cases h
    exact .exec ‹_›
  | gc =>
    dsimp only at h
    split at h
    · simp only [Option.ite_none_right_eq_some, Option.some.injEq] at h
      obtain ⟨_, rfl⟩ := h
      exact .gc ‹_›
    · cases h

/-- A run of the pair from its initial state. -/
def Reaches (nodeID : Int) (c : Committee) (acts : List Act) (s : Pair) : Prop :=
  Machine.run step (init nodeID c) acts = some s

end Pair

end Loom
