import Mathlib.Data.Option.Basic
import Mathlib.Data.List.Induction

/-!
# Runs of labelled machines

A machine is a partial step function on states. A run is a list of labels, and
`Along` says that every step of a run meets a condition on its pre-state. The
invariant rules below are the only inductions over runs that the later
modules need.
-/

namespace Loom.Machine

variable {S L : Type}

/-- Follow a list of labels; an impossible label stops the run. -/
def run (step : S → L → Option S) : S → List L → Option S
  | s, [] => some s
  | s, l :: ls => (step s l).bind fun t => run step t ls

/-- Every step of the run meets `ok` in the state it is taken from. -/
def Along (step : S → L → Option S) (ok : S → L → Prop) : S → List L → Prop
  | _, [] => True
  | s, l :: ls => ok s l ∧ ∀ t ∈ step s l, Along step ok t ls

variable {step : S → L → Option S} {ok : S → L → Prop}

@[simp] theorem run_nil (s : S) : run step s [] = some s := rfl

/-- A run takes its first label and goes on from there. -/
theorem run_cons {s t : S} {l : L} {ls : List L} :
    run step s (l :: ls) = some t ↔ ∃ u, step s l = some u ∧ run step u ls = some t := by
  simp only [run, Option.bind_eq_some_iff]

/-- A run splits at any point of its label list. -/
theorem run_append {s t : S} {ls ms : List L} :
    run step s (ls ++ ms) = some t ↔ ∃ u, run step s ls = some u ∧ run step u ms = some t := by
  induction ls generalizing s with
  | nil => simp
  | cons l ls ih =>
    simp only [List.cons_append, run_cons, ih]
    constructor
    · rintro ⟨u, hu, v, hv, ht⟩
      exact ⟨v, ⟨u, hu, hv⟩, ht⟩
    · rintro ⟨v, ⟨u, hu, hv⟩, ht⟩
      exact ⟨u, hu, v, hv, ht⟩

/-- The last label of a run is one step. -/
theorem run_concat {s t : S} {ls : List L} {l : L} :
    run step s (ls ++ [l]) = some t ↔ ∃ u, run step s ls = some u ∧ step u l = some t := by
  simp only [run_append, run_cons, run_nil, Option.some.injEq, exists_eq_right]

/-- A machine in which every label is possible never stops. -/
theorem exists_run (htotal : ∀ s l, ∃ t, step s l = some t) (s : S) (ls : List L) :
    ∃ t, run step s ls = some t := by
  induction ls generalizing s with
  | nil => exact ⟨s, rfl⟩
  | cons l ls ih =>
    obtain ⟨u, hu⟩ := htotal s l
    obtain ⟨t, ht⟩ := ih u
    exact ⟨t, run_cons.mpr ⟨u, hu, ht⟩⟩

/-- What holds of a state and is kept by every step holds of every state reached. -/
theorem invariant {P : S → Prop} (hstep : ∀ s l t, P s → step s l = some t → P t)
    {s t : S} {ls : List L} (hs : P s) (hrun : run step s ls = some t) : P t := by
  induction ls generalizing s with
  | nil =>
    cases hrun
    exact hs
  | cons l ls ih =>
    obtain ⟨u, hu, ht⟩ := run_cons.mp hrun
    exact ih (hstep s l u hs hu) ht

/-- The same rule for runs whose steps all meet a condition. -/
theorem invariant_along {P : S → Prop}
    (hstep : ∀ s l t, P s → ok s l → step s l = some t → P t)
    {s t : S} {ls : List L} (hs : P s) (hok : Along step ok s ls)
    (hrun : run step s ls = some t) : P t := by
  induction ls generalizing s with
  | nil =>
    cases hrun
    exact hs
  | cons l ls ih =>
    obtain ⟨u, hu, ht⟩ := run_cons.mp hrun
    exact ih (hstep s l u hs hok.1 hu) (hok.2 u hu) ht

/-- A condition along a run holds along both parts of it. -/
theorem along_append {s : S} {ls ms : List L} :
    Along step ok s (ls ++ ms) ↔
      Along step ok s ls ∧ ∀ t ∈ run step s ls, Along step ok t ms := by
  induction ls generalizing s with
  | nil => simp [Along]
  | cons l ls ih =>
    simp only [List.cons_append, Along, ih, run, Option.mem_def, Option.bind_eq_some_iff]
    constructor
    · rintro ⟨hl, h⟩
      refine ⟨⟨hl, fun t ht => (h t ht).1⟩, ?_⟩
      rintro t ⟨u, hu, ht⟩
      exact (h u hu).2 t ht
    · rintro ⟨⟨hl, h⟩, h'⟩
      exact ⟨hl, fun t ht => ⟨h t ht, fun u hu => h' u ⟨t, ht, hu⟩⟩⟩

/-- A condition on labels alone. -/
theorem along_of_forall {s : S} {ls : List L} (h : ∀ l ∈ ls, ∀ s, ok s l) : Along step ok s ls := by
  induction ls generalizing s with
  | nil => trivial
  | cons l ls ih =>
    exact ⟨h l (List.mem_cons_self ..) s,
      fun _ _ => ih fun l' hl' => h l' (List.mem_cons_of_mem _ hl')⟩

/-- A condition on labels alone, read off a run. -/
theorem forall_of_along {q : L → Prop} {s t : S} {ls : List L}
    (h : Along step (fun _ l => q l) s ls) (hrun : run step s ls = some t) : ∀ l ∈ ls, q l := by
  induction ls generalizing s with
  | nil => simp
  | cons l ls ih =>
    obtain ⟨u, hu, ht⟩ := run_cons.mp hrun
    exact List.forall_mem_cons.mpr ⟨h.1, ih (h.2 u hu) ht⟩

/-- A condition that holds in every state reached. -/
theorem along_of_reached {s : S} (h : ∀ ls u, run step s ls = some u → ∀ l, ok u l)
    (ls : List L) : Along step ok s ls := by
  induction ls generalizing s with
  | nil => trivial
  | cons l ls ih =>
    refine ⟨h [] s rfl l, fun t ht => ih fun ms u hu => ?_⟩
    exact h (l :: ms) u (run_cons.mpr ⟨t, ht, hu⟩)

/-- Weakening the condition. -/
theorem Along.mono {ok' : S → L → Prop} {s : S} {ls : List L} (h : Along step ok s ls)
    (hok : ∀ s l, ok s l → ok' s l) : Along step ok' s ls := by
  induction ls generalizing s with
  | nil => trivial
  | cons l ls ih => exact ⟨hok s l h.1, fun t ht => ih (h.2 t ht)⟩

/-- Two conditions along one run. -/
theorem Along.and {ok' : S → L → Prop} {s : S} {ls : List L} (h : Along step ok s ls)
    (h' : Along step ok' s ls) : Along step (fun s l => ok s l ∧ ok' s l) s ls := by
  induction ls generalizing s with
  | nil => trivial
  | cons l ls ih => exact ⟨⟨h.1, h'.1⟩, fun t ht => ih (h.2 t ht) (h'.2 t ht)⟩

/-- An invariant holds along the way. -/
theorem Along.keep {P : S → Prop} (hstep : ∀ s l t, P s → ok s l → step s l = some t → P t)
    {s : S} {ls : List L} (hs : P s) (h : Along step ok s ls) :
    Along step (fun u l => P u ∧ ok u l) s ls := by
  induction ls generalizing s with
  | nil => trivial
  | cons l ls ih => exact ⟨⟨hs, h.1⟩, fun t ht => ih (hstep s l t hs h.1 ht) (h.2 t ht)⟩

/-- Along a run, every state entered is related to the last one by what steps preserve. -/
theorem along_toward {R : S → S → Prop} (hrefl : ∀ s, R s s)
    (hstep : ∀ s l t u, step s l = some t → R t u → R s u) {s t : S} {ls : List L}
    (hrun : run step s ls = some t) :
    R s t ∧ Along step (fun u l => ∀ v, step u l = some v → R v t) s ls := by
  induction ls generalizing s with
  | nil =>
    cases hrun
    exact ⟨hrefl _, trivial⟩
  | cons l ls ih =>
    obtain ⟨u, hu, ht⟩ := run_cons.mp hrun
    obtain ⟨hR, halong⟩ := ih ht
    refine ⟨hstep s l u t hu hR, fun v hv => ?_, fun v hv => ?_⟩
    · rw [hu] at hv
      cases hv
      exact hR
    · rw [Option.mem_def, hu] at hv
      cases hv
      exact halong

/-- The rule for properties of a state together with the labels that led to it. -/
theorem history {P : List L → S → Prop} {s : S} (hs : P [] s)
    (hstep : ∀ ls u l t, P ls u → ok u l → step u l = some t → P (ls ++ [l]) t)
    {t : S} {ls : List L} (hok : Along step ok s ls) (hrun : run step s ls = some t) : P ls t := by
  induction ls using List.reverseRecOn generalizing t with
  | nil =>
    cases hrun
    exact hs
  | append_singleton ls l ih =>
    obtain ⟨u, hu, ht⟩ := run_concat.mp hrun
    obtain ⟨hls, hl⟩ := along_append.mp hok
    exact hstep ls u l t (ih hls hu) (hl u hu).1 ht

/-- The invariant rule in which a step may use what is known of every state reached. -/
theorem invariant_reached {P : S → Prop} {s : S} (hs : P s)
    (hstep : ∀ ls u l t, run step s ls = some u → P u → ok u l → step u l = some t → P t)
    {t : S} {ls : List L} (hok : Along step ok s ls) (hrun : run step s ls = some t) : P t := by
  have hboth : run step s ls = some t ∧ P t := by
    refine history (P := fun ls u => run step s ls = some u ∧ P u) ⟨rfl, hs⟩ ?_ hok hrun
    rintro ls u l v ⟨hu, hP⟩ hl hv
    exact ⟨run_concat.mpr ⟨u, hu, hv⟩, hstep ls u l v hu hP hl hv⟩
  exact hboth.2

/-- Steps that all lower a measure: a run is no longer than its start is high. -/
theorem length_run_le {P : S → Prop} {m : S → Nat}
    (hstep : ∀ s l t, P s → ok s l → step s l = some t → P t ∧ m t < m s)
    {s t : S} {ls : List L} (hs : P s) (hok : Along step ok s ls)
    (hrun : run step s ls = some t) : ls.length + m t ≤ m s := by
  induction ls generalizing s with
  | nil =>
    cases hrun
    simp
  | cons l ls ih =>
    obtain ⟨u, hu, ht⟩ := run_cons.mp hrun
    obtain ⟨hP, hlt⟩ := hstep s l u hs hok.1 hu
    have hrest := ih hP (hok.2 u hu) ht
    rw [List.length_cons]
    omega

/-- Such steps can be taken until none is left. -/
theorem exists_run_rest {P : S → Prop} {m : S → Nat}
    (hstep : ∀ s l t, P s → ok s l → step s l = some t → P t ∧ m t < m s) {s : S} (hs : P s) :
    ∃ ls t, Along step ok s ls ∧ run step s ls = some t ∧ ∀ l, ok t l → step t l = none := by
  induction hm : m s using Nat.strongRecOn generalizing s with
  | _ n ih =>
    by_cases hrest : ∀ l, ok s l → step s l = none
    · exact ⟨[], s, trivial, rfl, hrest⟩
    · push Not at hrest
      obtain ⟨l, hl, hsome⟩ := hrest
      obtain ⟨u, hu⟩ := Option.ne_none_iff_exists'.mp hsome
      obtain ⟨hP, hlt⟩ := hstep s l u hs hl hu
      obtain ⟨ls, t, halong, hrun, ht⟩ := ih (m u) (hm ▸ hlt) hP rfl
      refine ⟨l :: ls, t, ⟨hl, fun v hv => ?_⟩, run_cons.mpr ⟨u, hu, hrun⟩, ht⟩
      rw [Option.mem_def, hu] at hv
      cases hv
      exact halong

/-- What the steps of a run put out, in order. -/
def outputs {E : Type} (step : S → L → Option S) (out : S → L → S → List E) :
    S → List L → List E
  | _, [] => []
  | s, l :: ls =>
    match step s l with
    | none => []
    | some t => out s l t ++ outputs step out t ls

/-- The outputs of a run split where the run does. -/
theorem outputs_append {E : Type} {out : S → L → S → List E} {s u : S} {ls ms : List L}
    (hrun : run step s ls = some u) :
    outputs step out s (ls ++ ms) = outputs step out s ls ++ outputs step out u ms := by
  induction ls generalizing s with
  | nil =>
    cases hrun
    rfl
  | cons l ls ih =>
    obtain ⟨t, ht, hrun⟩ := run_cons.mp hrun
    simp only [List.cons_append, outputs, ht, ih hrun, List.append_assoc]

/-- The last step adds its outputs at the end. -/
theorem outputs_concat {E : Type} {out : S → L → S → List E} {s u t : S} {ls : List L} {l : L}
    (hrun : run step s ls = some u) (hstep : step u l = some t) :
    outputs step out s (ls ++ [l]) = outputs step out s ls ++ out u l t := by
  rw [outputs_append hrun]
  simp only [outputs, hstep, List.append_nil]

/-- The rule for properties of a state together with what was put out on the way to it. -/
theorem outputs_invariant {E : Type} {out : S → L → S → List E} {P : List E → S → Prop} {s : S}
    (hs : P [] s)
    (hstep : ∀ es u l t, P es u → ok u l → step u l = some t → P (es ++ out u l t) t)
    {t : S} {ls : List L} (hok : Along step ok s ls) (hrun : run step s ls = some t) :
    P (outputs step out s ls) t := by
  induction ls using List.reverseRecOn generalizing t with
  | nil =>
    cases hrun
    exact hs
  | append_singleton ls l ih =>
    obtain ⟨u, hu, ht⟩ := run_concat.mp hrun
    obtain ⟨hls, hl⟩ := along_append.mp hok
    rw [outputs_concat hu ht]
    exact hstep _ u l t (ih hls hu) (hl u hu).1 ht

/-- The rule for what passes through: where each step takes out and keeps no more than was
there or is put in, so does a run. What "no more" means is a parameter. -/
theorem outputs_flow {E : Type} {r : List E → List E → Prop} (hrefl : ∀ es, r es es)
    (htrans : ∀ {es fs gs}, r es fs → r fs gs → r es gs)
    (happend : ∀ {es fs es' fs'}, r es fs → r es' fs' → r (es ++ es') (fs ++ fs'))
    {c : S → List E} {put take : S → L → S → List E}
    (hstep : ∀ s l t, ok s l → step s l = some t →
      r (take s l t ++ c t) (c s ++ put s l t))
    {s t : S} {ls : List L} (hok : Along step ok s ls) (hrun : run step s ls = some t) :
    r (outputs step take s ls ++ c t) (c s ++ outputs step put s ls) := by
  induction ls generalizing s with
  | nil =>
    cases hrun
    simpa [outputs] using hrefl (c _)
  | cons l ls ih =>
    obtain ⟨u, hu, hrun⟩ := run_cons.mp hrun
    have hhead := happend (hstep s l u hok.1 hu) (hrefl (outputs step put u ls))
    have htail := happend (hrefl (take s l u)) (ih (hok.2 u hu) hrun)
    simp only [outputs, hu, List.append_assoc] at hhead htail ⊢
    exact htrans htail hhead

/-- Outputs that can be read off the labels. -/
theorem filterMap_outputs {E A : Type} {out : S → L → S → List E} {select : E → Option A}
    {label : L → Option A}
    (hstep : ∀ s l t, ok s l → step s l = some t →
      (out s l t).filterMap select = (label l).toList)
    {s t : S} {ls : List L} (hok : Along step ok s ls) (hrun : run step s ls = some t) :
    (outputs step out s ls).filterMap select = ls.filterMap label := by
  induction ls generalizing s with
  | nil => rfl
  | cons l ls ih =>
    obtain ⟨u, hu, hrun⟩ := run_cons.mp hrun
    simp only [outputs, hu, List.filterMap_append, hstep s l u hok.1 hu, ih (hok.2 u hu) hrun]
    cases hl : label l <;> simp [hl]

/-- The contents of the events of one kind in a trace. -/
theorem mem_selected {E A : Type} {select : E → Option A} {event : A → E}
    (hselect : ∀ e a, select e = some a ↔ e = event a) {tr : List E} {a : A} :
    a ∈ tr.filterMap select ↔ event a ∈ tr := by
  simp only [List.mem_filterMap, hselect, exists_eq_right]

/-- Every event of a trace has the property together with what happened before it. -/
def Always {E : Type} (P : List E → E → Prop) (tr : List E) : Prop :=
  ∀ pre e post, tr = pre ++ e :: post → P pre e

/-- Nothing has happened yet. -/
theorem always_nil {E : Type} (P : List E → E → Prop) : Always P [] := by
  intro pre e post h
  simp at h

/-- What holds of a trace holds of its beginning. -/
theorem Always.left {E : Type} {P : List E → E → Prop} {tr evs : List E}
    (h : Always P (tr ++ evs)) : Always P tr := by
  rintro pre e post rfl
  exact h pre e (post ++ evs) (by simp)

/-- One more event that has the property. -/
theorem Always.concat {E : Type} {P : List E → E → Prop} {tr : List E} (h : Always P tr) {e : E}
    (he : P tr e) : Always P (tr ++ [e]) := by
  intro pre e' post heq
  rcases List.eq_nil_or_concat post with rfl | ⟨post, x, rfl⟩
  · obtain ⟨rfl, hx⟩ := List.append_inj' heq rfl
    cases hx
    exact he
  · have heq' : tr ++ [e] = (pre ++ e' :: post) ++ [x] := by simpa using heq
    obtain ⟨rfl, _⟩ := List.append_inj' heq' rfl
    exact h pre e' post rfl

/-- Extending a trace by events that have the property whatever came before. -/
theorem Always.append {E : Type} {P : List E → E → Prop} {tr evs : List E} (h : Always P tr)
    (hevs : ∀ e ∈ evs, ∀ pre, P pre e) : Always P (tr ++ evs) := by
  induction evs generalizing tr with
  | nil =>
    rw [List.append_nil]
    exact h
  | cons e evs ih =>
    rw [List.append_cons]
    exact ih (h.concat (hevs e (List.mem_cons_self ..) tr)) fun x hx =>
      hevs x (List.mem_cons_of_mem _ hx)

/-- Checking a condition along a concrete run. -/
instance decidableAlong [∀ s l, Decidable (ok s l)] :
    ∀ (s : S) (ls : List L), Decidable (Along step ok s ls)
  | _, [] => isTrue trivial
  | s, l :: ls =>
    match h : step s l with
    | none => decidable_of_iff (ok s l) (by simp [Along, h])
    | some t =>
      have := decidableAlong t ls
      decidable_of_iff (ok s l ∧ Along step ok t ls) (by simp [Along, h])

/-! ## Schedulers -/

/-- Take the first enabled label of a preference list again and again, until none is
enabled or the fuel is used up; the labels taken come with the state reached. -/
def settle (step : S → L → Option S) (prefer : S → List L) : Nat → S → List L × S
  | 0, s => ([], s)
  | fuel + 1, s =>
    match (prefer s).findSome? fun l => (step s l).map fun t => (l, t) with
    | none => ([], s)
    | some (l, t) => (l :: (settle step prefer fuel t).1, (settle step prefer fuel t).2)

/-- What a scheduler does is a run. -/
theorem run_settle (prefer : S → List L) (fuel : Nat) (s : S) :
    run step s (settle step prefer fuel s).1 = some (settle step prefer fuel s).2 := by
  induction fuel generalizing s with
  | zero => rfl
  | succ fuel ih =>
    unfold settle
    split
    · rfl
    · rename_i l t h
      obtain ⟨l', _, hl'⟩ := List.exists_of_findSome?_eq_some h
      obtain ⟨t', ht', heq⟩ := Option.map_eq_some_iff.mp hl'
      cases heq
      exact run_cons.mpr ⟨t, ht', ih t⟩

/-- Work through a list of tasks, each of which is a run from wherever it starts. -/
def play {D : Type} (task : D → S → List L × S) : List D → S → List L × S
  | [], s => ([], s)
  | d :: ds, s => ((task d s).1 ++ (play task ds (task d s).2).1, (play task ds (task d s).2).2)

/-- What the tasks do together is a run. -/
theorem run_play {D : Type} {task : D → S → List L × S}
    (htask : ∀ d s, run step s (task d s).1 = some (task d s).2) (ds : List D) (s : S) :
    run step s (play task ds s).1 = some (play task ds s).2 := by
  induction ds generalizing s with
  | nil => rfl
  | cons d ds ih => exact run_append.mpr ⟨_, htask d s, ih _⟩

end Loom.Machine
