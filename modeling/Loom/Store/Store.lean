import Loom.Prelude.GoMap
import Loom.Prelude.Service

/-!
# The store

All goroutines of a process share one store. Its requests go through one channel to one
goroutine, which is the only one to touch the database. Nothing is assumed of the database but
that it is new, that a `Put` either writes its value or fails and changes nothing, and that a
`Get` that succeeds returns what was written; both may fail at any time. So a `Read` that
succeeds gets what the last successful `Write` of its key left, at one moment between its call
and its return.
-/

namespace Loom.Store

open Service (Event State)

variable {C D K V : Type}

/-- The interface `DB` over the states `D` of a database. A `Put` says whether it has
succeeded, and a `Get` that fails has no value. -/
structure DB (D K V : Type) where
  put : D → K → V → D × Bool
  get : D → K → D × Option V

/-- A `storeReq`, by its type. -/
inductive Req (K V : Type) where
  | read (key : K)
  | write (key : K) (val : V)
  deriving DecidableEq, Repr

/-- What is filled in: the value of a `Read` unless there is an error, and whether a `Write`
has no error. -/
inductive Resp (V : Type) where
  | value (val : Option V)
  | done (ok : Bool)
  deriving DecidableEq, Repr

/-- The loop of the goroutine. -/
def handle (db : DB D K V) (d : D) : Req K V → D × Resp V
  | .read key => ((db.get d key).1, .value (db.get d key).2)
  | .write key val => ((db.put d key val).1, .done (db.put d key val).2)

/-- `NewStore`. -/
def server (db : DB D K V) : Service.Server (Req K V) (Resp V) D :=
  ⟨handle db, fun _ => false, 1000⟩

section Laws

variable [DecidableEq K]

/-- A database with the contents `content`, and with the state `d₀` when it is new. -/
structure DB.Lawful (db : DB D K V) (content : D → K → Option V) (d₀ : D) : Prop where
  new : ∀ key, content d₀ key = none
  put_ok : ∀ d key val, (db.put d key val).2 = true →
    content (db.put d key val).1 = Function.update (content d) key (some val)
  put_err : ∀ d key val, (db.put d key val).2 = false →
    content (db.put d key val).1 = content d
  get_keeps : ∀ d key, content (db.get d key).1 = content d
  get_ok : ∀ d key val, (db.get d key).2 = some val → content d key = some val

/-- A database whose `Get` fails only for keys that were never written. -/
def DB.Finds (db : DB D K V) (content : D → K → Option V) : Prop :=
  ∀ d key, (db.get d key).2 = none → content d key = none

/-- What an event writes under a key. -/
def written (key : K) : Event C (Req K V) (Resp V) → Option V
  | .served _ (.write k v) (.done true) => if k = key then some v else none
  | _ => none

/-- The value of the last successful `Write` of a key. -/
def lastWritten (key : K) (tr : List (Event C (Req K V) (Resp V))) : Option V :=
  tr.reverse.findSome? (written key)

/-- The last event either writes the key or leaves it. -/
theorem lastWritten_concat (key : K) (tr : List (Event C (Req K V) (Resp V)))
    (e : Event C (Req K V) (Resp V)) :
    lastWritten key (tr ++ [e]) = (written key e).or (lastWritten key tr) := by
  rw [lastWritten, List.reverse_concat, List.findSome?_cons]
  cases written key e <;> rfl

variable {db : DB D K V} {content : D → K → Option V} {d₀ : D}

/-- A `Put` changes at most the contents under its own key. -/
theorem DB.Lawful.content_put (laws : db.Lawful content d₀) (d : D) (key k : K) (val : V) :
    content (db.put d key val).1 k =
      if (db.put d key val).2 = true ∧ k = key then some val else content d k := by
  cases hok : (db.put d key val).2 with
  | false => simp [laws.put_err d key val hok]
  | true => simp [laws.put_ok d key val hok, Function.update_apply]

/-- One request changes the contents as its answer says. -/
theorem DB.Lawful.content_handle (laws : db.Lawful content d₀) (c : C) (key : K) (d : D)
    (q : Req K V) :
    content (handle db d q).1 key =
      (written key (.served c q (handle db d q).2)).or (content d key) := by
  cases q with
  | read k => simp [handle, written, laws.get_keeps]
  | write k v =>
    simp only [handle, laws.content_put]
    cases (db.put d k v).2 with
    | false => simp [written]
    | true => by_cases hk : key = k <;> simp [written, hk, eq_comm]

variable [DecidableEq C]

/-- The database holds the last values written. -/
theorem DB.Lawful.content_memAfter (laws : db.Lawful content d₀) (key : K)
    {tr : List (Event C (Req K V) (Resp V))} (hvalid : Service.Valid (server db) d₀ tr) :
    content (Service.memAfter (server db) d₀ tr) key = lastWritten key tr := by
  induction tr using List.reverseRecOn with
  | nil => exact laws.new key
  | append_singleton tr e ih =>
    rw [Service.memAfter_concat, lastWritten_concat, ← ih hvalid.left]
    cases e with
    | called | returned => rfl
    | served c q r =>
      obtain ⟨_, rfl⟩ : Service.Fits (server db) d₀ tr (.served c q r) := hvalid _ _ _ rfl
      exact laws.content_handle c key _ q

/-- The history of the calls of a store. -/
def history (db : DB D K V) (d₀ : D) (acts : List (Service.Act C (Req K V))) :
    List (Event C (Req K V) (Resp V)) :=
  Machine.outputs (Service.step (server db)) (Service.events (server db)) (Service.init d₀) acts

/-- **A `Read` returns the last value written**, at one moment between its call and its
return, whatever the other callers do: the value it returns is that of the last successful
`Write` of its key, and if the database finds what it holds, it returns an error only where
there was no such `Write`. -/
theorem read_returns_last_write (laws : db.Lawful content d₀)
    {acts : List (Service.Act C (Req K V))} {s : State C (Req K V) (Resp V) D}
    (hrun : Machine.run (Service.step (server db)) (Service.init d₀) acts = some s)
    {pre post : List (Event C (Req K V) (Resp V))} {c : C} {v : Option V}
    (htr : history db d₀ acts = pre ++ .returned c (.value v) :: post) :
    ∃ key p₀ p₁ p₂,
      pre = p₀ ++ .called c (.read key) :: (p₁ ++ .served c (.read key) (.value v) :: p₂) ∧
      (∀ e ∈ p₁ ++ p₂, e.caller ≠ c) ∧
      (∀ val, v = some val → lastWritten key (p₀ ++ .called c (.read key) :: p₁) = some val) ∧
      (db.Finds content → v = lastWritten key (p₀ ++ .called c (.read key) :: p₁)) := by
  have hvalid : Service.Valid (server db) d₀ (history db d₀ acts) := (Service.agrees hrun).valid
  obtain ⟨q, p₀, p₁, p₂, hpre, hother, hv⟩ := hvalid.returned htr
  cases q with
  | write k x => cases hv
  | read key =>
    rw [htr, hpre] at hvalid
    have hbefore : Service.Valid (server db) d₀ (p₀ ++ .called c (.read key) :: p₁) :=
      Machine.Always.left (by simpa [Service.Valid] using hvalid)
    refine ⟨key, p₀, p₁, p₂, hpre, hother, ?_, ?_⟩
    · rintro val rfl
      rw [← laws.content_memAfter key hbefore]
      exact laws.get_ok _ key val (Resp.value.inj hv).symm
    · intro hfinds
      rw [← laws.content_memAfter key hbefore]
      cases v with
      | none => exact (hfinds _ key (Resp.value.inj hv).symm).symm
      | some val => exact (laws.get_ok _ key val (Resp.value.inj hv).symm).symm

/-- A database in memory that cannot write some of the keys. -/
def mapDB (refuses : K → Bool) : DB (GoMap K V) K V where
  put m key val := if refuses key then (m, false) else (m.insert key val, true)
  get m key := (m, m.lookup key)

/-- What it holds is what `lookup` finds. -/
theorem mapDB_lawful (refuses : K → Bool) :
    (mapDB refuses : DB (GoMap K V) K V).Lawful (fun m key => m.lookup key) ∅ where
  new _ := rfl
  put_ok m key val hok := by
    simp only [mapDB] at hok ⊢
    split at hok
    · cases hok
    · rw [if_neg ‹_›]
      funext k
      rw [GoMap.lookup_insert_ite, Function.update_apply]
  put_err m key val herr := by
    simp only [mapDB] at herr ⊢
    split at herr
    · rw [if_pos ‹_›]
    · cases herr
  get_keeps _ _ := rfl
  get_ok _ _ _ h := h

/-- Its `Get` fails only for keys that were not written. -/
theorem mapDB_finds (refuses : K → Bool) :
    (mapDB refuses : DB (GoMap K V) K V).Finds fun m key => m.lookup key :=
  fun _ _ h => h

/-- Two writers and a reader of one key; the `Read` is called while the second `Write` is under
way, and it returns first. -/
def overtaken : List (Service.Act Nat (Req Nat Nat)) :=
  [.call 1 (.write 7 10), .take, .ret 1, .call 2 (.write 7 20), .call 3 (.read 7), .take, .take,
   .ret 3, .ret 2]

/-- The `Read` returns the value of the second `Write`, which was served before it. -/
theorem read_returns_last_write_overtaken : ∃ pre post,
    history (mapDB fun _ => false) ∅ overtaken =
      pre ++ .returned 3 (.value (some 20)) :: post ∧
    ∃ key p₀ p₁ p₂, pre = p₀ ++ .called 3 (.read key) ::
        (p₁ ++ .served 3 (.read key) (.value (some 20)) :: p₂) ∧
      some 20 = lastWritten key (p₀ ++ .called 3 (.read key) :: p₁) := by
  obtain ⟨s, hs⟩ := Option.isSome_iff_exists.mp
    (show (Machine.run (Service.step (server (mapDB fun _ => false))) (Service.init ∅)
      overtaken).isSome = true by decide)
  have htr : history (mapDB fun _ => false) ∅ overtaken =
      (history (mapDB fun _ => false) ∅ overtaken).take 7 ++
        .returned 3 (.value (some 20)) :: [.returned 2 (.done true)] := by decide
  obtain ⟨key, p₀, p₁, p₂, hpre, _, _, hv⟩ :=
    read_returns_last_write (mapDB_lawful fun _ => false) hs htr
  exact ⟨_, _, htr, key, p₀, p₁, p₂, hpre, hv (mapDB_finds fun _ => false)⟩

end Laws

end Loom.Store
