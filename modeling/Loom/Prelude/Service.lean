import Loom.Prelude.Machine
import Mathlib.Data.List.Nodup
import Mathlib.Data.List.Perm.Basic
import Mathlib.Logic.Function.Basic

/-!
# Servers that answer requests

A server is a goroutine with a channel of requests. A caller puts its request into the channel
and waits for the answer on a channel of its own, which has room for one answer, so that the
server never waits. The server takes the requests one by one and answers each of them, or
leaves it to a goroutine that answers in its own time. Whatever the interleaving, a call takes
effect at one moment between its start and its return.
-/

namespace Loom.Service

variable {C Q R σ : Type}

/-- What a server does. -/
structure Server (Q R σ : Type) where
  /-- The effect of a request on the memory, and the answer. -/
  handle : σ → Q → σ × R
  /-- The requests that are left to other goroutines. -/
  spawns : Q → Bool
  /-- The capacity of the channel. -/
  cap : Nat

/-- Where a caller is. -/
inductive Phase (Q R : Type) where
  | idle
  | waiting (q : Q)
  | answered (r : R)
  deriving DecidableEq, Repr

structure State (C Q R σ : Type) where
  mem : σ
  reqCh : List (C × Q)
  /-- The requests left to other goroutines. -/
  spawned : List (C × Q)
  phase : C → Phase Q R

def init (mem : σ) : State C Q R σ := ⟨mem, [], [], fun _ => .idle⟩

/-- What can happen next. -/
inductive Act (C Q : Type) where
  /-- A caller puts a request into the channel. -/
  | call (c : C) (q : Q)
  /-- The server takes the next request. -/
  | take
  /-- A goroutine answers the request that was left to it. -/
  | finish (k : Nat)
  /-- A caller gets its answer. -/
  | ret (c : C)
  deriving DecidableEq, Repr

/-- What has happened. -/
inductive Event (C Q R : Type) where
  | called (c : C) (q : Q)
  /-- A request takes effect. -/
  | served (c : C) (q : Q) (r : R)
  | returned (c : C) (r : R)
  deriving DecidableEq, Repr

def Event.caller : Event C Q R → C
  | .called c _ => c
  | .served c _ _ => c
  | .returned c _ => c

section Model

variable [DecidableEq C] (srv : Server Q R σ)

/-- A request takes effect and its caller has an answer. -/
def answer (s : State C Q R σ) (c : C) (q : Q) : State C Q R σ :=
  { s with
    mem := (srv.handle s.mem q).1
    phase := Function.update s.phase c (.answered (srv.handle s.mem q).2) }

/-- One move; `none` if it is blocked or impossible. -/
def step (s : State C Q R σ) : Act C Q → Option (State C Q R σ)
  | .call c q =>
    match s.phase c with
    | .idle =>
      if s.reqCh.length < srv.cap then
        some { s with
          reqCh := s.reqCh ++ [(c, q)]
          phase := Function.update s.phase c (.waiting q) }
      else none
    | _ => none
  | .take =>
    match s.reqCh with
    | [] => none
    | (c, q) :: rest =>
      if srv.spawns q then some { s with reqCh := rest, spawned := s.spawned ++ [(c, q)] }
      else some (answer srv { s with reqCh := rest } c q)
  | .finish k =>
    match s.spawned[k]? with
    | none => none
    | some (c, q) => some (answer srv { s with spawned := s.spawned.eraseIdx k } c q)
  | .ret c =>
    match s.phase c with
    | .answered _ => some { s with phase := Function.update s.phase c .idle }
    | _ => none

/-- The events of a move. -/
def events (s : State C Q R σ) (act : Act C Q) (_ : State C Q R σ) : List (Event C Q R) :=
  match act with
  | .call c q => [.called c q]
  | .take =>
    match s.reqCh with
    | [] => []
    | (c, q) :: _ => if srv.spawns q then [] else [.served c q (srv.handle s.mem q).2]
  | .finish k =>
    match s.spawned[k]? with
    | none => []
    | some (c, q) => [.served c q (srv.handle s.mem q).2]
  | .ret c =>
    match s.phase c with
    | .answered r => [.returned c r]
    | _ => []

/-- The memory that the requests served so far leave. -/
def memAfter (mem : σ) (tr : List (Event C Q R)) : σ :=
  tr.foldl (fun m e => match e with
    | .served _ q _ => (srv.handle m q).1
    | _ => m) mem

end Model

/-- Where the events so far leave a caller. -/
def phaseAfter [DecidableEq C] (c : C) (tr : List (Event C Q R)) : Phase Q R :=
  tr.foldl (fun p e => if e.caller = c then
    match e with
    | .called _ q => .waiting q
    | .served _ _ r => .answered r
    | .returned _ _ => .idle
    else p) .idle

@[simp] theorem memAfter_concat (srv : Server Q R σ) (mem : σ) (tr : List (Event C Q R))
    (e : Event C Q R) :
    memAfter srv mem (tr ++ [e]) = match e with
      | .served _ q _ => (srv.handle (memAfter srv mem tr) q).1
      | _ => memAfter srv mem tr := by
  rw [memAfter, List.foldl_append]
  rfl

variable [DecidableEq C] {srv : Server Q R σ}

@[simp] theorem phaseAfter_concat (c : C) (tr : List (Event C Q R)) (e : Event C Q R) :
    phaseAfter c (tr ++ [e]) = if e.caller = c then
      match e with
      | .called _ q => .waiting q
      | .served _ _ r => .answered r
      | .returned _ _ => .idle
      else phaseAfter c tr := by
  rw [phaseAfter, List.foldl_append]
  rfl

/-- An event that can follow a history: a caller that is idle calls, a request of a waiting
caller is served as the memory has it, and an answer is returned. -/
def Fits (srv : Server Q R σ) (mem : σ) (pre : List (Event C Q R)) : Event C Q R → Prop
  | .called c _ => phaseAfter c pre = .idle
  | .served c q r => phaseAfter c pre = .waiting q ∧ r = (srv.handle (memAfter srv mem pre) q).2
  | .returned c r => phaseAfter c pre = .answered r

/-- A history all of whose events fit. -/
def Valid (srv : Server Q R σ) (mem : σ) (tr : List (Event C Q R)) : Prop :=
  Machine.Always (Fits srv mem) tr

/-- A call is made by an idle caller, which then waits. -/
theorem call_cases {s t : State C Q R σ} {c : C} {q : Q} (hs : step srv s (.call c q) = some t) :
    s.phase c = .idle ∧ t.mem = s.mem ∧ t.phase = Function.update s.phase c (.waiting q) := by
  simp only [step] at hs
  split at hs
  · obtain ⟨_, hs⟩ := Option.ite_none_right_eq_some.mp hs
    cases hs
    exact ⟨‹_›, rfl, rfl⟩
  · cases hs

/-- A call returns to a caller that has an answer. -/
theorem ret_cases {s t : State C Q R σ} {c : C} (hs : step srv s (.ret c) = some t) :
    (∃ r, s.phase c = .answered r) ∧ t.mem = s.mem ∧
      t.phase = Function.update s.phase c .idle := by
  simp only [step] at hs
  split at hs
  · cases hs
    exact ⟨⟨_, ‹_›⟩, rfl, rfl⟩
  · cases hs

/-- The requests that have not taken effect. -/
def State.pending (s : State C Q R σ) : List (C × Q) := s.reqCh ++ s.spawned

/-- A state that agrees with the history: the memory and the callers are where the events leave
them, and the pending requests are those of the waiting callers. -/
structure Agrees (srv : Server Q R σ) (mem : σ) (tr : List (Event C Q R)) (s : State C Q R σ) :
    Prop where
  valid : Valid srv mem tr
  mem : s.mem = memAfter srv mem tr
  phase : ∀ c, s.phase c = phaseAfter c tr
  pending : ∀ c q, (c, q) ∈ s.pending ↔ s.phase c = .waiting q
  nodup : (s.pending.map Prod.fst).Nodup

/-- The start agrees with the empty history. -/
theorem agrees_init (mem : σ) : Agrees srv mem [] (init mem : State C Q R σ) where
  valid := Machine.always_nil _
  mem := rfl
  phase _ := rfl
  pending := by simp [init, State.pending]
  nodup := by simp [init, State.pending]

/-- A pending request takes effect. -/
theorem Agrees.answer {mem : σ} {tr : List (Event C Q R)} {s : State C Q R σ}
    (h : Agrees srv mem tr s) {c : C} {q : Q} {reqCh spawned : List (C × Q)}
    (hperm : s.pending.Perm ((c, q) :: (reqCh ++ spawned))) :
    Agrees srv mem (tr ++ [.served c q (srv.handle s.mem q).2])
      (answer srv { s with reqCh := reqCh, spawned := spawned } c q) := by
  have hnodup := (hperm.map Prod.fst).nodup_iff.mp h.nodup
  rw [List.map_cons, List.nodup_cons] at hnodup
  have hwaiting : s.phase c = .waiting q :=
    (h.pending c q).mp (hperm.mem_iff.mpr (List.mem_cons_self ..))
  refine ⟨h.valid.concat ⟨(h.phase c).symm.trans hwaiting, by rw [h.mem]⟩, ?_, fun d => ?_,
    fun d q' => ?_, hnodup.2⟩
  · rw [memAfter_concat, ← h.mem]
    rfl
  · rw [phaseAfter_concat, ← h.phase]
    by_cases hd : d = c
    · simp [Service.answer, Event.caller, hd]
    · simp [Service.answer, Event.caller, hd, Ne.symm hd]
  · simp only [Service.answer, Function.update_apply]
    by_cases hd : d = c
    · subst hd
      simp only [if_true, reduceCtorEq, iff_false]
      intro hmem
      exact hnodup.1 (List.mem_map.mpr ⟨(d, q'), hmem, rfl⟩)
    · rw [if_neg hd, ← h.pending, hperm.mem_iff, List.mem_cons]
      simp [hd, State.pending]

/-- Every move keeps the state and the history together. -/
theorem Agrees.step {mem : σ} {tr : List (Event C Q R)} {s t : State C Q R σ} {act : Act C Q}
    (h : Agrees srv mem tr s) (hs : step srv s act = some t) :
    Agrees srv mem (tr ++ events srv s act t) t := by
  cases act with
  | call c q =>
    simp only [Service.step] at hs
    split at hs
    · rename_i hidle
      obtain ⟨_, hs⟩ := Option.ite_none_right_eq_some.mp hs
      cases hs
      have hno : ∀ q', (c, q') ∉ s.pending := by
        intro q' hmem
        rw [h.pending, hidle] at hmem
        cases hmem
      have hperm : (s.reqCh ++ [(c, q)] ++ s.spawned).Perm ((c, q) :: s.pending) := by
        rw [List.append_assoc, List.singleton_append]
        exact List.perm_middle
      refine ⟨h.valid.concat ((h.phase c).symm.trans hidle), ?_, fun d => ?_, fun d q' => ?_, ?_⟩
      · simp [events, h.mem]
      · rw [events, phaseAfter_concat, ← h.phase]
        by_cases hd : d = c
        · simp [Event.caller, hd]
        · simp [Event.caller, hd, Ne.symm hd]
      · rw [State.pending, hperm.mem_iff, List.mem_cons]
        by_cases hd : d = c
        · subst hd
          simp [hno, eq_comm]
        · simp [hd, h.pending]
      · rw [State.pending, (hperm.map Prod.fst).nodup_iff, List.map_cons, List.nodup_cons]
        refine ⟨fun hmem => ?_, h.nodup⟩
        obtain ⟨⟨d, q'⟩, hpending, heq⟩ := List.mem_map.mp hmem
        cases heq
        exact hno q' hpending
    · cases hs
  | take =>
    simp only [Service.step] at hs
    split at hs
    · cases hs
    · rename_i c q rest hreq
      split at hs
      · rename_i hspawns
        cases hs
        simp only [events, hreq, hspawns, if_true, List.append_nil]
        have hperm : (rest ++ (s.spawned ++ [(c, q)])).Perm s.pending := by
          rw [State.pending, hreq, ← List.append_assoc]
          exact List.perm_append_singleton _ _
        refine ⟨h.valid, h.mem, h.phase, fun d q' => ?_, ?_⟩
        · rw [State.pending, hperm.mem_iff]
          exact h.pending d q'
        · exact (hperm.map Prod.fst).nodup_iff.mpr h.nodup
      · rename_i hspawns
        cases hs
        simp only [events, hreq, hspawns]
        refine h.answer ?_
        rw [State.pending, hreq]
        exact List.Perm.refl _
  | finish k =>
    simp only [Service.step] at hs
    split at hs
    · cases hs
    · rename_i c q hk
      cases hs
      simp only [events, hk]
      obtain ⟨hlt, hget⟩ := List.getElem?_eq_some_iff.mp hk
      have hperm := (List.getElem_cons_eraseIdx_perm hlt).symm
      rw [hget] at hperm
      exact h.answer ((hperm.append_left s.reqCh).trans List.perm_middle)
  | ret c =>
    simp only [Service.step] at hs
    split at hs
    · rename_i r hanswered
      cases hs
      simp only [events, hanswered]
      refine ⟨h.valid.concat ((h.phase c).symm.trans hanswered), ?_, fun d => ?_, fun d q => ?_,
        h.nodup⟩
      · simp [h.mem]
      · rw [phaseAfter_concat, ← h.phase]
        by_cases hd : d = c
        · simp [Event.caller, hd]
        · simp [Event.caller, hd, Ne.symm hd]
      · refine (h.pending d q).trans ?_
        by_cases hd : d = c
        · simp [hd, hanswered]
        · simp [hd]
    · cases hs

/-- A request that is served at once is one of a waiting caller. -/
theorem Agrees.take_cases {mem : σ} {tr : List (Event C Q R)} {s t : State C Q R σ}
    (h : Agrees srv mem tr s) (hnone : ∀ q, srv.spawns q = false)
    (hs : Service.step srv s .take = some t) :
    ∃ c q, s.phase c = .waiting q ∧ t.mem = (srv.handle s.mem q).1 ∧
      t.phase = Function.update s.phase c (.answered (srv.handle s.mem q).2) := by
  simp only [Service.step, hnone] at hs
  split at hs
  · cases hs
  · rename_i c q rest hreq
    cases hs
    refine ⟨c, q, (h.pending c q).mp ?_, rfl, rfl⟩
    rw [State.pending, hreq]
    exact List.mem_append_left _ (List.mem_cons_self ..)

/-- As long as a caller waits, the server or a goroutine can go on. -/
theorem Agrees.goes_on {mem : σ} {tr : List (Event C Q R)} {s : State C Q R σ}
    (h : Agrees srv mem tr s) {c : C} {q : Q} (hwaiting : s.phase c = .waiting q) :
    (Service.step srv s .take).isSome = true ∨
      ∃ k, (Service.step srv s (.finish k)).isSome = true := by
  rcases List.mem_append.mp ((h.pending c q).mpr hwaiting) with hmem | hmem
  · left
    cases hreq : s.reqCh with
    | nil =>
      rw [hreq] at hmem
      cases hmem
    | cons p rest =>
      simp only [Service.step, hreq]
      split <;> rfl
  · obtain ⟨k, hk⟩ := List.mem_iff_getElem?.mp hmem
    exact Or.inr ⟨k, by simp [Service.step, hk]⟩

/-- **The rule for histories**: every run of a server agrees with its history. -/
theorem agrees {mem : σ} {acts : List (Act C Q)} {s : State C Q R σ}
    (hrun : Machine.run (step srv) (init mem) acts = some s) :
    Agrees srv mem (Machine.outputs (step srv) (events srv) (init mem) acts) s := by
  refine Machine.outputs_invariant (P := Agrees srv mem) (agrees_init mem) ?_
    (Machine.along_of_forall fun _ _ _ => trivial) hrun
  intro tr u act v h _ hs
  exact h.step hs

/-- A caller that is not idle is where its last event has left it. -/
theorem last_event {c : C} {tr : List (Event C Q R)} (h : phaseAfter c tr ≠ .idle) :
    ∃ pre e post, tr = pre ++ e :: post ∧ e.caller = c ∧ (∀ e' ∈ post, e'.caller ≠ c) ∧
      phaseAfter c tr = phaseAfter c (pre ++ [e]) := by
  induction tr using List.reverseRecOn with
  | nil => exact absurd rfl h
  | append_singleton tr e ih =>
    by_cases he : e.caller = c
    · exact ⟨tr, e, [], rfl, he, by simp, rfl⟩
    · have hsame : phaseAfter c (tr ++ [e]) = phaseAfter c tr := by
        rw [phaseAfter_concat, if_neg he]
      rw [hsame] at h ⊢
      obtain ⟨pre, e', post, rfl, hcaller, hpost, hphase⟩ := ih h
      refine ⟨pre, e', post ++ [e], by simp, hcaller, fun x hx => ?_, hphase⟩
      rcases List.mem_append.mp hx with hx | hx
      · exact hpost x hx
      · rw [List.mem_singleton.mp hx]
        exact he

/-- A call that returns has taken effect at one moment between its start and its return. -/
theorem Valid.returned {mem : σ} {tr pre post : List (Event C Q R)} {c : C} {r : R}
    (h : Valid srv mem tr) (htr : tr = pre ++ .returned c r :: post) :
    ∃ q p₀ p₁ p₂, pre = p₀ ++ .called c q :: (p₁ ++ .served c q r :: p₂) ∧
      (∀ e ∈ p₁ ++ p₂, e.caller ≠ c) ∧
      r = (srv.handle (memAfter srv mem (p₀ ++ .called c q :: p₁)) q).2 := by
  have hanswered : phaseAfter c pre = .answered r := h _ _ _ htr
  obtain ⟨p, e, p₂, rfl, rfl, hp₂, hphase⟩ := last_event
    (show phaseAfter c pre ≠ .idle by simp [hanswered])
  rw [hanswered, phaseAfter_concat, if_pos rfl] at hphase
  cases e with
  | called c q => cases hphase
  | returned c r' => cases hphase
  | served c q r' =>
    cases hphase
    obtain ⟨hwaiting, hr⟩ : Fits srv mem p (.served c q r) :=
      h _ _ _ (by rw [htr, List.append_assoc, List.cons_append])
    obtain ⟨p₀, e, p₁, rfl, he, hp₁, hphase⟩ :=
      last_event (show phaseAfter c p ≠ .idle by simp [hwaiting])
    rw [hwaiting, phaseAfter_concat, if_pos he] at hphase
    cases e with
    | served => cases hphase
    | returned => cases hphase
    | called c' q' =>
      cases hphase
      cases he
      refine ⟨q, p₀, p₁, p₂, by simp [Event.caller], fun e he => ?_, hr⟩
      rcases List.mem_append.mp he with he | he
      · exact hp₁ e he
      · exact hp₂ e he

end Loom.Service
