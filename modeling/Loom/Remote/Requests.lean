import Loom.Core.Message
import Loom.Network.Transport
import Loom.Store.Store

/-!
# Blocks in the store

The core stores the blocks of every reply it gets, each under its digest. For every request a
goroutine reads the wanted blocks from the store one after another and sends those it finds;
a block whose references have arrived is read again by a goroutine of its own and handed back
to the core. All of them share the store, so writes come between the reads of one answer, and
the database behind it may fail: the core does not look at the outcome of a `Write`.
-/

namespace Loom.Remote

open Service (Phase)

variable {D F : Type}

/-- Those who call the store. -/
inductive Client where
  | core
  | goroutine (g : Nat)
  deriving DecidableEq, Repr

/-- What a goroutine reads the store for. -/
inductive Purpose where
  | processRequest (request : RequestBlockMsg)
  | loopBack (blockHash : Digest)
  deriving DecidableEq, Repr

/-- The digests that it reads, in order. -/
def Purpose.wanted : Purpose → List Digest
  | .processRequest request => request.missBlock
  | .loopBack blockHash => [blockHash]

/-- A goroutine with the digests it has still to read and the blocks it has found. -/
structure Reader where
  purpose : Purpose
  left : List Digest
  blocks : List Block
  deriving DecidableEq, Repr

/-- How a goroutine goes on after a `Read`. -/
inductive Outcome where
  | goOn (r : Reader)
  | leave
  | panic
  deriving DecidableEq, Repr

/-- Use what a `Read` has returned. A request passes over a `Read` with an error; for a block
that is to be handed back there must be none. -/
def Reader.receive (cd : Network.Coding Block F) (r : Reader) (val : Option F) :
    Outcome :=
  match val, r.purpose with
  | none, .processRequest _ => .goOn { r with left := r.left.tail }
  | none, .loopBack _ => .panic
  | some data, purpose =>
    match cd.decode data, purpose with
    | some b, _ => .goOn { r with left := r.left.tail, blocks := r.blocks ++ [b] }
    | none, .processRequest _ => .leave
    | none, .loopBack _ => .panic

/-- The store and those who use it. -/
structure Archive (D F : Type) where
  store : Service.State Client (Store.Req Bytes F) (Store.Resp F) D
  /-- The block that the core is storing. -/
  writing : Option Block
  readers : Nat → Option Reader
  /-- The number of the next goroutine. -/
  next : Nat
  crashed : Bool

/-- What can happen next. -/
inductive ArchiveAct where
  /-- The core calls `storeBlock`. -/
  | store (b : Block)
  /-- The call returns. -/
  | stored
  /-- The store serves its next request. -/
  | serve
  /-- `go processRequest` or `go loopBack`. -/
  | start (purpose : Purpose)
  /-- A goroutine calls `Read`. -/
  | read (g : Nat)
  /-- The call returns. -/
  | got (g : Nat)
  /-- A goroutine has read everything. -/
  | finish (g : Nat)
  deriving DecidableEq, Repr

inductive ArchiveEvent where
  /-- `storeBlock` was called. -/
  | storing (b : Block)
  /-- `storeBlock` has returned `nil`; whether the `Write` was successful, it does not ask. -/
  | stored (b : Block) (ok : Bool)
  | started (g : Nat) (purpose : Purpose)
  | replied (g : Nat) (request : RequestBlockMsg) (reply : ReplyBlockMsg)
  | loopedBack (g : Nat) (blockHash : Digest) (b : Block)
  deriving DecidableEq, Repr

namespace Archive

/-- A new database, and nobody uses it. -/
def init (d₀ : D) : Archive D F := ⟨Service.init d₀, none, fun _ => none, 0, false⟩

/-- A goroutine goes on. -/
def setReader (a : Archive D F) (g : Nat) : Outcome → Archive D F
  | .goOn r => { a with readers := Function.update a.readers g (some r) }
  | .leave => { a with readers := Function.update a.readers g none }
  | .panic => { a with crashed := true }

/-- A call of the store or its return. -/
def call (db : Store.DB D Bytes F) (a : Archive D F)
    (act : Service.Act Client (Store.Req Bytes F)) : Option (Archive D F) :=
  (Service.step (Store.server db) a.store act).map fun s => { a with store := s }

/-- One move; `none` if it is blocked or impossible. -/
def step (cr : Crypto) (cd : Network.Coding Block F) (db : Store.DB D Bytes F)
    (a : Archive D F) (act : ArchiveAct) : Option (Archive D F) :=
  if a.crashed then none else
  match act with
  | .store b =>
    match a.writing with
    | some _ => none
    | none => call db { a with writing := some b }
        (.call .core (.write (b.hash cr) (cd.encode b)))
  | .stored => call db { a with writing := none } (.ret .core)
  | .serve => call db a .take
  | .start purpose => some { a with
      readers := Function.update a.readers a.next (some ⟨purpose, purpose.wanted, []⟩)
      next := a.next + 1 }
  | .read g =>
    match a.readers g with
    | some ⟨_, d :: _, _⟩ => call db a (.call (.goroutine g) (.read d.bytes))
    | _ => none
  | .got g =>
    match a.readers g, a.store.phase (.goroutine g) with
    | some r, .answered (.value val) =>
      call db (a.setReader g (r.receive cd val)) (.ret (.goroutine g))
    | _, _ => none
  | .finish g =>
    match a.readers g with
    | some ⟨_, [], _⟩ => some (a.setReader g .leave)
    | _ => none

/-- The events of a move of node `nodeID`. -/
def events (cr : Crypto) (nodeID : Int) (a : Archive D F) (act : ArchiveAct)
    (_ : Archive D F) : List ArchiveEvent :=
  match act with
  | .store b => [.storing b]
  | .stored =>
    match a.writing, a.store.phase .core with
    | some b, .answered (.done ok) => [.stored b ok]
    | _, _ => []
  | .start purpose => [.started a.next purpose]
  | .finish g =>
    match a.readers g with
    | some ⟨.processRequest request, _, blocks⟩ =>
      [.replied g request (newReplyBlockMsg cr nodeID blocks request.reqID)]
    | some ⟨.loopBack blockHash, _, blocks⟩ => blocks.map (.loopedBack g blockHash)
    | none => []
  | _ => []

/-- The archive after a sequence of moves. -/
def Reaches (cr : Crypto) (cd : Network.Coding Block F) (db : Store.DB D Bytes F) (d₀ : D)
    (acts : List ArchiveAct) (a : Archive D F) : Prop :=
  Machine.run (step cr cd db) (init d₀) acts = some a

/-- The events of a sequence of moves of node `nodeID`. -/
def trace (cr : Crypto) (cd : Network.Coding Block F) (db : Store.DB D Bytes F) (d₀ : D)
    (nodeID : Int) (acts : List ArchiveAct) : List ArchiveEvent :=
  Machine.outputs (step cr cd db) (events cr nodeID) (init d₀) acts

/-! ## What is stored -/

section Invariant

variable {cr : Crypto} {cd : Network.Coding Block F} {db : Store.DB D Bytes F}
  {content : D → Bytes → Option F} {d₀ : D} {nodeID : Int} {a a' : Archive D F}
  {tr evs : List ArchiveEvent} {g : Nat} {r : Reader}

/-- A block with this digest has been stored, with a `Write` that was successful. -/
def Known (cr : Crypto) (tr : List ArchiveEvent) (key : Bytes) : Prop :=
  ∃ b, .stored b true ∈ tr ∧ b.hash cr = key

/-- A `Read` of this digest cannot fail. -/
def Findable (cr : Crypto) (db : Store.DB D Bytes F) (content : D → Bytes → Option F)
    (tr : List ArchiveEvent) (key : Bytes) : Prop :=
  db.Finds content ∧ Known cr tr key

/-- Data under a key: a block with this digest that was to be stored. -/
def Holds (cr : Crypto) (cd : Network.Coding Block F) (tr : List ArchiveEvent)
    (key : Bytes) (data : F) : Prop :=
  ∃ b, cd.decode data = some b ∧ b.hash cr = key ∧ .storing b ∈ tr

/-- What a goroutine has found: the blocks for some of the digests it has read, in order, and
for all of them that could be found when it started. -/
structure Found (cr : Crypto) (tr : List ArchiveEvent) (known : Bytes → Prop) (done : List Digest)
    (blocks : List Block) : Prop where
  sublist : (blocks.map (Block.hash cr)).Sublist (done.map Digest.bytes)
  stored : ∀ b ∈ blocks, .storing b ∈ tr
  complete : ∀ d ∈ done, known d.bytes → d.bytes ∈ blocks.map (Block.hash cr)

/-- The `Read` that a goroutine is at. -/
def AtRead (cr : Crypto) (cd : Network.Coding Block F) (tr : List ArchiveEvent)
    (known : Bytes → Prop) (r : Reader) : Phase (Store.Req Bytes F) (Store.Resp F) → Prop
  | .idle => True
  | .waiting q => ∃ d rest, r.left = d :: rest ∧ q = .read d.bytes
  | .answered resp => ∃ d rest val, r.left = d :: rest ∧ resp = .value val ∧
      (∀ data, val = some data → Holds cr cd tr d.bytes data) ∧ (known d.bytes → val ≠ none)

/-- A goroutine since its start. -/
def ReaderAt (cr : Crypto) (cd : Network.Coding Block F) (db : Store.DB D Bytes F)
    (content : D → Bytes → Option F) (tr : List ArchiveEvent)
    (phase : Phase (Store.Req Bytes F) (Store.Resp F)) (g : Nat) (r : Reader) : Prop :=
  ∃ pre post done, tr = pre ++ .started g r.purpose :: post ∧ r.purpose.wanted = done ++ r.left ∧
    Found cr tr (Findable cr db content pre) done r.blocks ∧
    AtRead cr cd tr (Findable cr db content pre) r phase

/-- The `Write` that the core is at. -/
def CoreAt (cr : Crypto) (cd : Network.Coding Block F) (tr : List ArchiveEvent)
    (held : Bytes → Option F) (writing : Option Block) :
    Phase (Store.Req Bytes F) (Store.Resp F) → Prop
  | .idle => writing = none
  | .waiting q => ∃ b, writing = some b ∧ q = .write (b.hash cr) (cd.encode b) ∧ .storing b ∈ tr
  | .answered resp => ∃ b ok, writing = some b ∧ resp = .done ok ∧
      (ok = true → held (b.hash cr) ≠ none)

/-- A block that was not there when it was to be handed back. -/
def Missed (cr : Crypto) (tr : List ArchiveEvent) : Prop :=
  ∃ g blockHash pre post, tr = pre ++ .started g (.loopBack blockHash) :: post ∧
    ¬ Known cr pre blockHash.bytes

/-- What is known of the archive after a run: what the database holds was to be stored, what
was stored successfully it holds, and core and goroutines are where their last call left
them. -/
structure Sound (cr : Crypto) (cd : Network.Coding Block F) (db : Store.DB D Bytes F)
    (content : D → Bytes → Option F) (d₀ : D) (tr : List ArchiveEvent) (a : Archive D F) :
    Prop where
  served : ∃ history, Service.Agrees (Store.server db) d₀ history a.store
  holds : ∀ key data, content a.store.mem key = some data → Holds cr cd tr key data
  stored : ∀ b, .stored b true ∈ tr → content a.store.mem (b.hash cr) ≠ none
  core : CoreAt cr cd tr (content a.store.mem) a.writing (a.store.phase .core)
  fresh : ∀ g, a.next ≤ g → a.readers g = none
  absent : ∀ g, a.readers g = none → a.store.phase (.goroutine g) = .idle
  reader : ∀ g r, a.readers g = some r →
    ReaderAt cr cd db content tr (a.store.phase (.goroutine g)) g r
  crash : a.crashed = true → db.Finds content → Missed cr tr

/-- Data stay those of a block that was to be stored. -/
theorem Holds.mono {key : Bytes} {data : F} (h : Holds cr cd tr key data) (hsub : tr ⊆ evs) :
    Holds cr cd evs key data := by
  obtain ⟨b, hdec, hkey, hmem⟩ := h
  exact ⟨b, hdec, hkey, hsub hmem⟩

/-- One digest more has been read. -/
theorem Found.concat {known : Bytes → Prop} {done : List Digest} {blocks new : List Block}
    {d : Digest} (h : Found cr tr known done blocks)
    (hsub : (new.map (Block.hash cr)).Sublist [d.bytes]) (hstored : ∀ b ∈ new, .storing b ∈ tr)
    (hcomplete : known d.bytes → d.bytes ∈ new.map (Block.hash cr)) :
    Found cr tr known (done ++ [d]) (blocks ++ new) where
  sublist := by simpa using h.sublist.append hsub
  stored b hb := (List.mem_append.mp hb).elim (h.stored b) (hstored b)
  complete d' hd' hk := by
    rw [List.map_append]
    rcases List.mem_append.mp hd' with hd' | hd'
    · exact List.mem_append_left _ (h.complete d' hd' hk)
    · rw [List.mem_singleton.mp hd'] at hk ⊢
      exact List.mem_append_right _ (hcomplete hk)

/-- Later events do not matter to a goroutine. -/
theorem ReaderAt.append {phase : Phase (Store.Req Bytes F) (Store.Resp F)}
    (h : ReaderAt cr cd db content tr phase g r) (evs : List ArchiveEvent) :
    ReaderAt cr cd db content (tr ++ evs) phase g r := by
  obtain ⟨pre, post, done, rfl, hwanted, hfound, hread⟩ := h
  refine ⟨pre, post ++ evs, done, by simp, hwanted, ⟨hfound.sublist,
    fun b hb => List.mem_append_left _ (hfound.stored b hb), hfound.complete⟩, ?_⟩
  cases phase with
  | idle => trivial
  | waiting q => exact hread
  | answered resp =>
    obtain ⟨d, rest, val, hleft, hresp, hholds, hknown⟩ := hread
    exact ⟨d, rest, val, hleft, hresp,
      fun data hdata => (hholds data hdata).mono (List.subset_append_left _ _), hknown⟩

/-- Nor to the core. -/
theorem CoreAt.append {held : Bytes → Option F} {writing : Option Block}
    {phase : Phase (Store.Req Bytes F) (Store.Resp F)}
    (h : CoreAt cr cd tr held writing phase) (evs : List ArchiveEvent) :
    CoreAt cr cd (tr ++ evs) held writing phase := by
  cases phase with
  | idle | answered => exact h
  | waiting q =>
    obtain ⟨b, hwriting, hq, hb⟩ := h
    exact ⟨b, hwriting, hq, List.mem_append_left _ hb⟩

/-- Nothing is stored at the start. -/
theorem sound_init (laws : db.Lawful content d₀) : Sound cr cd db content d₀ [] (init d₀) where
  served := ⟨[], Service.agrees_init d₀⟩
  holds key data hdata := by
    rw [show content (init d₀ : Archive D F).store.mem key = none from laws.new key] at hdata
    cases hdata
  stored := by simp
  core := rfl
  fresh _ _ := rfl
  absent _ _ := rfl
  reader := by simp [init]
  crash := by simp [init]

/-- What a move that leaves the goroutines alone keeps. -/
theorem Sound.others (h : Sound cr cd db content d₀ tr a) (a' : Archive D F)
    (evs : List ArchiveEvent)
    (hphase : ∀ g, a'.store.phase (.goroutine g) = a.store.phase (.goroutine g))
    (hreaders : a'.readers = a.readers) :
    (∀ g, a'.readers g = none → a'.store.phase (.goroutine g) = .idle) ∧
    ∀ g r, a'.readers g = some r →
      ReaderAt cr cd db content (tr ++ evs) (a'.store.phase (.goroutine g)) g r := by
  rw [hreaders]
  constructor
  · intro g hg
    rw [hphase]
    exact h.absent g hg
  · intro g r hr
    rw [hphase]
    exact (h.reader g r hr).append evs

/-- A new event of the core. -/
theorem Sound.holds_append (h : Sound cr cd db content d₀ tr a) (evs : List ArchiveEvent)
    {key : Bytes} {data : F}
    (hdata : content a.store.mem key = some data) : Holds cr cd (tr ++ evs) key data :=
  (h.holds key data hdata).mono (List.subset_append_left _ _)

/-- The core calls `storeBlock`. -/
theorem Sound.store (h : Sound cr cd db content d₀ tr a) (hrunning : a.crashed = false) {b : Block}
    {s : Service.State Client (Store.Req Bytes F) (Store.Resp F) D}
    (hs : Service.step (Store.server db) a.store
      (.call .core (.write (b.hash cr) (cd.encode b))) = some s) :
    Sound cr cd db content d₀ (tr ++ [.storing b]) { a with writing := some b, store := s } := by
  obtain ⟨history, hagrees⟩ := h.served
  obtain ⟨_, hmem, hphase⟩ := Service.call_cases hs
  have hothers := h.others { a with writing := some b, store := s } [.storing b]
    (fun g => by simp [hphase]) rfl
  refine ⟨⟨_, hagrees.step hs⟩, fun key data hdata => ?_, fun b' hb' => ?_, ?_, h.fresh,
    hothers.1, hothers.2, fun hc => absurd hc (by simp [hrunning])⟩
  · exact h.holds_append _ (hmem ▸ hdata)
  · rw [hmem]
    exact h.stored b' (by simpa using hb')
  · simp [CoreAt, hphase]

/-- `storeBlock` returns. -/
theorem Sound.returned (h : Sound cr cd db content d₀ tr a) (hrunning : a.crashed = false)
    {s : Service.State Client (Store.Req Bytes F) (Store.Resp F) D}
    (hs : Service.step (Store.server db) a.store (.ret .core) = some s) :
    Sound cr cd db content d₀ (tr ++ events cr nodeID a .stored a')
      { a with writing := none, store := s } := by
  obtain ⟨history, hagrees⟩ := h.served
  obtain ⟨⟨resp, hanswered⟩, hmem, hphase⟩ := Service.ret_cases hs
  have hcore := h.core
  rw [hanswered] at hcore
  obtain ⟨b, ok, hwriting, rfl, hb⟩ := hcore
  have hevs : events cr nodeID a .stored a' = [.stored b ok] := by
    simp only [events, hwriting, hanswered]
  have hothers := h.others { a with writing := none, store := s } [.stored b ok]
    (fun g => by simp [hphase]) rfl
  rw [hevs]
  refine ⟨⟨_, hagrees.step hs⟩, fun key data hdata => ?_, fun b' hb' => ?_, ?_, h.fresh,
    hothers.1, hothers.2, fun hc => absurd hc (by simp [hrunning])⟩
  · exact h.holds_append _ (hmem ▸ hdata)
  · rw [hmem]
    rcases List.mem_append.mp hb' with hb' | hb'
    · exact h.stored b' hb'
    · obtain ⟨rfl, rfl⟩ := ArchiveEvent.stored.inj (List.mem_singleton.mp hb')
      exact hb rfl
  · simp [CoreAt, hphase]

/-- A move of one goroutine. -/
theorem Sound.goroutine (h : Sound cr cd db content d₀ tr a) (g : Nat) (reader : Option Reader)
    (a' : Archive D F) (evs : List ArchiveEvent)
    {phase : Phase (Store.Req Bytes F) (Store.Resp F)}
    (hevs : ∀ b ok, .stored b ok ∉ evs)
    (hserved : ∃ history, Service.Agrees (Store.server db) d₀ history a'.store)
    (hmem : content a'.store.mem = content a.store.mem)
    (hphase : a'.store.phase = Function.update a.store.phase (.goroutine g) phase)
    (hreaders : a'.readers = Function.update a.readers g reader)
    (hwriting : a'.writing = a.writing) (hnext : a'.next = a.next) (hg : a.readers g ≠ none)
    (hnone : reader = none → phase = .idle)
    (hsome : ∀ r, reader = some r → ReaderAt cr cd db content (tr ++ evs) phase g r)
    (hcrash : a'.crashed = true → db.Finds content → Missed cr (tr ++ evs)) :
    Sound cr cd db content d₀ (tr ++ evs) a' := by
  refine ⟨hserved, fun key data hdata => ?_, fun b hb => ?_, ?_, fun g' hg' => ?_,
    fun g' hg' => ?_, fun g' r hr => ?_, hcrash⟩
  · rw [hmem] at hdata
    exact h.holds_append evs hdata
  · rw [hmem]
    exact h.stored b ((List.mem_append.mp hb).resolve_right (hevs b true))
  · rw [hmem, hwriting, hphase, Function.update_of_ne (by simp)]
    exact h.core.append evs
  · rw [hreaders, Function.update_of_ne]
    · exact h.fresh g' (hnext ▸ hg')
    · rintro rfl
      exact hg (h.fresh g' (hnext ▸ hg'))
  · rw [hreaders] at hg'
    rw [hphase]
    by_cases heq : g' = g
    · subst heq
      rw [Function.update_self] at hg' ⊢
      exact hnone hg'
    · rw [Function.update_of_ne heq] at hg'
      rw [Function.update_of_ne (by simpa using heq)]
      exact h.absent g' hg'
  · rw [hreaders] at hr
    rw [hphase]
    by_cases heq : g' = g
    · subst heq
      rw [Function.update_self] at hr ⊢
      exact hsome r hr
    · rw [Function.update_of_ne heq] at hr
      rw [Function.update_of_ne (by simpa using heq)]
      exact (h.reader g' r hr).append evs

/-- The store serves a request. -/
theorem Sound.serve (laws : db.Lawful content d₀) (h : Sound cr cd db content d₀ tr a)
    (hrunning : a.crashed = false)
    {s : Service.State Client (Store.Req Bytes F) (Store.Resp F) D}
    (hs : Service.step (Store.server db) a.store .take = some s) :
    Sound cr cd db content d₀ tr { a with store := s } := by
  obtain ⟨history, hagrees⟩ := h.served
  obtain ⟨c, q, hwaiting, hmem, hphase⟩ := hagrees.take_cases (fun _ => rfl) hs
  cases c with
  | core =>
    have hcore := h.core
    rw [hwaiting] at hcore
    obtain ⟨b, hwriting, rfl, hb⟩ := hcore
    have hheld := fun key => laws.content_put a.store.mem (b.hash cr) key (cd.encode b)
    rw [show (db.put a.store.mem (b.hash cr) (cd.encode b)).1 = s.mem from hmem.symm] at hheld
    have hothers := h.others { a with store := s } [] (fun g => by simp [hphase]) rfl
    rw [List.append_nil] at hothers
    refine ⟨⟨_, hagrees.step hs⟩, fun key data hdata => ?_, fun b' hb' => ?_, ?_, h.fresh,
      hothers.1, hothers.2, fun hc => absurd hc (by simp [hrunning])⟩
    · rw [hheld] at hdata
      split at hdata
      · cases hdata
        exact ⟨b, cd.decode_encode b, (‹_ ∧ key = _›).2.symm, hb⟩
      · exact h.holds key data hdata
    · rw [hheld]
      split
      · simp
      · exact h.stored b' hb'
    · simp only [CoreAt, hphase, Function.update_self]
      refine ⟨b, _, hwriting, rfl, fun hok => ?_⟩
      rw [hheld, if_pos ⟨hok, rfl⟩]
      simp
  | goroutine g =>
    cases hr : a.readers g with
    | none =>
      rw [h.absent g hr] at hwaiting
      cases hwaiting
    | some r =>
      obtain ⟨pre, post, done, htr, hwanted, hfound, hread⟩ := h.reader g r hr
      rw [hwaiting] at hread
      obtain ⟨d, rest, hleft, rfl⟩ := hread
      have hgo := h.goroutine g (some r) { a with store := s } []
        (by simp) ⟨_, hagrees.step hs⟩
        (by rw [hmem]; exact laws.get_keeps a.store.mem d.bytes) hphase
        (by rw [← hr, Function.update_eq_self]) rfl rfl (by simp [hr]) (by simp)
        (fun r' hr' => ?_) (fun hc => absurd hc (by simp [hrunning]))
      · rwa [List.append_nil] at hgo
      · cases hr'
        rw [List.append_nil]
        refine ⟨pre, post, done, htr, hwanted, hfound, d, rest, _, hleft, rfl,
          fun data hdata => h.holds _ _ (laws.get_ok _ _ _ hdata), ?_⟩
        rintro ⟨hfinds, b, hb, hkey⟩ hno
        refine h.stored b (htr ▸ List.mem_append_left _ hb) ?_
        rw [hkey]
        exact hfinds _ _ hno

/-- A goroutine is started. -/
theorem Sound.start (h : Sound cr cd db content d₀ tr a) (hrunning : a.crashed = false)
    (purpose : Purpose) : Sound cr cd db content d₀ (tr ++ [.started a.next purpose]) { a with
      readers := Function.update a.readers a.next (some ⟨purpose, purpose.wanted, []⟩)
      next := a.next + 1 } := by
  have hidle := h.absent a.next (h.fresh a.next (le_refl _))
  refine ⟨h.served, fun key data => h.holds_append _, fun b hb => ?_, h.core.append _,
    fun g hg => ?_, fun g hg => ?_, fun g r hr => ?_, fun hc => absurd hc (by simp [hrunning])⟩
  · exact h.stored b (by simpa using hb)
  · dsimp only at hg ⊢
    rw [Function.update_of_ne (by omega)]
    exact h.fresh g (by omega)
  · by_cases heq : g = a.next
    · subst heq
      exact hidle
    · dsimp only at hg
      rw [Function.update_of_ne heq] at hg
      exact h.absent g hg
  · dsimp only at hr ⊢
    by_cases heq : g = a.next
    · subst heq
      rw [Function.update_self] at hr
      cases hr
      rw [hidle]
      exact ⟨tr, [], [], rfl, rfl, ⟨by simp, by simp, by simp⟩, trivial⟩
    · rw [Function.update_of_ne heq] at hr
      exact (h.reader g r hr).append _

/-- A goroutine calls `Read`. -/
theorem Sound.read (h : Sound cr cd db content d₀ tr a) (hrunning : a.crashed = false)
    {purpose : Purpose} {d : Digest} {rest : List Digest} {blocks : List Block}
    (hr : a.readers g = some ⟨purpose, d :: rest, blocks⟩)
    {s : Service.State Client (Store.Req Bytes F) (Store.Resp F) D}
    (hs : Service.step (Store.server db) a.store (.call (.goroutine g) (.read d.bytes)) = some s) :
    Sound cr cd db content d₀ tr { a with store := s } := by
  obtain ⟨history, hagrees⟩ := h.served
  obtain ⟨_, hmem, hphase⟩ := Service.call_cases hs
  obtain ⟨pre, post, done, htr, hwanted, hfound, _⟩ := h.reader g _ hr
  have hgo := h.goroutine g (some ⟨purpose, d :: rest, blocks⟩) { a with store := s } [] (by simp)
    ⟨_, hagrees.step hs⟩ (congrArg content hmem) hphase
    (by rw [← hr, Function.update_eq_self]) rfl rfl (by simp [hr]) (by simp)
    (fun r' hr' => ?_) (fun hc => absurd hc (by simp [hrunning]))
  · rwa [List.append_nil] at hgo
  · cases hr'
    rw [List.append_nil]
    exact ⟨pre, post, done, htr, hwanted, hfound, d, rest, rfl, rfl⟩

/-- A `Read` of a goroutine returns. -/
theorem Sound.got (h : Sound cr cd db content d₀ tr a) (hrunning : a.crashed = false)
    (hr : a.readers g = some r) {val : Option F}
    (hval : a.store.phase (.goroutine g) = .answered (.value val))
    {s : Service.State Client (Store.Req Bytes F) (Store.Resp F) D}
    (hs : Service.step (Store.server db) a.store (.ret (.goroutine g)) = some s) :
    Sound cr cd db content d₀ tr { a.setReader g (r.receive cd val) with store := s } := by
  obtain ⟨history, hagrees⟩ := h.served
  obtain ⟨_, hmem, hphase⟩ := Service.ret_cases hs
  obtain ⟨pre, post, done, htr, hwanted, hfound, hread⟩ := h.reader g r hr
  rw [hval] at hread
  obtain ⟨d, rest, val', hleft, hresp, hholds, hknown⟩ := hread
  cases hresp
  have hgo : ∀ (reader : Option Reader) (crashed : Bool),
      (∀ r', reader = some r' → ReaderAt cr cd db content tr .idle g r') →
      (crashed = true → db.Finds content → Missed cr tr) → Sound cr cd db content d₀ tr { a with
        readers := Function.update a.readers g reader, crashed := crashed, store := s } := by
    intro reader crashed hsome hcrash
    have hgo := h.goroutine g reader { a with
      readers := Function.update a.readers g reader, crashed := crashed, store := s } []
      (by simp) ⟨_, hagrees.step hs⟩ (congrArg content hmem) hphase rfl rfl rfl
      (by simp [hr]) (fun _ => rfl)
      (by simpa using hsome) (by simpa using hcrash)
    rwa [List.append_nil] at hgo
  have hrunning' : a.crashed = true → db.Finds content → Missed cr tr := fun hc =>
    absurd hc (by simp [hrunning])
  -- The goroutine goes on with the digest that it has read behind it.
  have hnext : ∀ new : List Block, (new.map (Block.hash cr)).Sublist [d.bytes] →
      (∀ b ∈ new, .storing b ∈ tr) →
      (Findable cr db content pre d.bytes → d.bytes ∈ new.map (Block.hash cr)) →
      ReaderAt cr cd db content tr .idle g ⟨r.purpose, r.left.tail, r.blocks ++ new⟩ := by
    intro new hsub hstored hcomplete
    exact ⟨pre, post, done ++ [d], htr, by simp [hwanted, hleft],
      hfound.concat hsub hstored hcomplete, trivial⟩
  cases val with
  | none =>
    have hunknown : ¬ Findable cr db content pre d.bytes := fun hk => hknown hk rfl
    cases hp : r.purpose with
    | processRequest request =>
      have hreader := hnext [] (by simp) (by simp) fun hk => absurd hk hunknown
      simp only [Reader.receive, hp, setReader]
      refine hgo (some _) a.crashed (fun r' hr' => ?_) hrunning'
      cases hr'
      simpa [hp] using hreader
    | loopBack blockHash =>
      simp only [Reader.receive, hp, setReader]
      have hsame : a.readers = Function.update a.readers g (some r) := by
        rw [← hr, Function.update_eq_self]
      have hboth := hgo (some r) true (fun r' hr' => ?_) fun _ hfinds => ?_
      · rwa [← hsame] at hboth
      · cases hr'
        exact ⟨pre, post, done, htr, hwanted, hfound, trivial⟩
      · refine ⟨g, blockHash, pre, post, by rw [htr, hp], ?_⟩
        have hone : [blockHash] = done ++ d :: rest := by rw [← hleft, ← hwanted, hp]; rfl
        have hd : d = blockHash := by
          cases done with
          | nil =>
            cases hone
            rfl
          | cons => simp at hone
        rw [← hd]
        exact fun hk => hunknown ⟨hfinds, hk⟩
  | some data =>
    obtain ⟨b, hdec, hkey, hb⟩ := hholds data rfl
    have hreader := hnext [b] (by simp [hkey]) (by simpa using hb) (by simp [hkey])
    simp only [Reader.receive, hdec, setReader]
    refine hgo (some _) a.crashed (fun r' hr' => ?_) hrunning'
    cases hr'
    exact hreader

/-- A goroutine is done. -/
theorem Sound.finish (h : Sound cr cd db content d₀ tr a) (hrunning : a.crashed = false)
    {purpose : Purpose} {blocks : List Block} (hr : a.readers g = some ⟨purpose, [], blocks⟩)
    (evs : List ArchiveEvent) (hevs : ∀ b ok, .stored b ok ∉ evs) :
    Sound cr cd db content d₀ (tr ++ evs) (a.setReader g .leave) := by
  have hidle : a.store.phase (.goroutine g) = .idle := by
    obtain ⟨_, _, _, _, _, _, hread⟩ := h.reader g _ hr
    cases hphase : a.store.phase (.goroutine g) with
    | idle => rfl
    | waiting q =>
      rw [hphase] at hread
      obtain ⟨d, rest, hleft, _⟩ := hread
      cases hleft
    | answered resp =>
      rw [hphase] at hread
      obtain ⟨d, rest, val, hleft, _⟩ := hread
      cases hleft
  exact h.goroutine g none _ evs hevs h.served rfl
    (by rw [← hidle, Function.update_eq_self]; rfl) rfl rfl rfl (by simp [hr]) (fun _ => rfl)
    (by simp) (fun hc => absurd hc (by simp [setReader, hrunning]))

/-- Every move keeps the archive sound. -/
theorem Sound.step (laws : db.Lawful content d₀) {act : ArchiveAct}
    (h : Sound cr cd db content d₀ tr a) (hs : a.step cr cd db act = some a') :
    Sound cr cd db content d₀ (tr ++ events cr nodeID a act a') a' := by
  simp only [Archive.step] at hs
  split at hs
  · cases hs
  · rename_i hcrashed
    have hrunning : a.crashed = false := by simpa using hcrashed
    cases act with
    | store b =>
      dsimp only at hs
      split at hs
      · cases hs
      · obtain ⟨s, hstep, rfl⟩ := Option.map_eq_some_iff.mp hs
        exact h.store hrunning hstep
    | stored =>
      obtain ⟨s, hstep, rfl⟩ := Option.map_eq_some_iff.mp hs
      exact h.returned hrunning hstep
    | serve =>
      obtain ⟨s, hstep, rfl⟩ := Option.map_eq_some_iff.mp hs
      simpa [events] using h.serve laws hrunning hstep
    | start purpose =>
      cases hs
      exact h.start hrunning purpose
    | read g =>
      dsimp only at hs
      split at hs
      · obtain ⟨s, hstep, rfl⟩ := Option.map_eq_some_iff.mp hs
        simpa [events] using h.read hrunning ‹_› hstep
      · cases hs
    | got g =>
      dsimp only at hs
      split at hs
      · rename_i r val hr hval
        obtain ⟨s, hstep, rfl⟩ := Option.map_eq_some_iff.mp hs
        have hstore : (a.setReader g (r.receive cd val)).store = a.store := by
          cases r.receive cd val <;> rfl
        rw [hstore] at hstep
        simpa [events] using h.got hrunning hr hval hstep
      · cases hs
    | finish g =>
      dsimp only at hs
      split at hs
      · rename_i purpose blocks hr
        cases hs
        refine h.finish hrunning hr _ fun b ok hb => ?_
        cases purpose <;> simp [events, hr] at hb
      · cases hs

/-- What an answer owes to what happened before it. -/
def Answers (cr : Crypto) (db : Store.DB D Bytes F) (content : D → Bytes → Option F)
    (pre : List ArchiveEvent) : ArchiveEvent → Prop
  | .replied g request reply => ∃ p₀ p₁, pre = p₀ ++ .started g (.processRequest request) :: p₁ ∧
      reply.reqID = request.reqID ∧
      Found cr pre (Findable cr db content p₀) request.missBlock reply.blocks
  | .loopedBack g blockHash b => ∃ p₀ p₁, pre = p₀ ++ .started g (.loopBack blockHash) :: p₁ ∧
      b.hash cr = blockHash.bytes ∧ .storing b ∈ pre
  | _ => True

/-- A goroutine that is done answers as it should. -/
theorem Sound.answers (h : Sound cr cd db content d₀ tr a)
    (halways : Machine.Always (Answers cr db content) tr)
    {purpose : Purpose} {blocks : List Block} (hr : a.readers g = some ⟨purpose, [], blocks⟩) :
    Machine.Always (Answers cr db content) (tr ++ events cr nodeID a (.finish g) a') := by
  obtain ⟨pre, post, done, htr, hwanted, hfound, _⟩ := h.reader g _ hr
  rw [List.append_nil] at hwanted
  dsimp only at hwanted
  subst hwanted
  cases purpose with
  | processRequest request =>
    simp only [events, hr]
    exact halways.concat ⟨pre, post, htr, rfl, hfound⟩
  | loopBack blockHash =>
    simp only [events, hr]
    have hle := hfound.sublist.length_le
    match blocks, hfound, hle with
    | [], _, _ => simpa using halways
    | [b], hfound, _ =>
      refine halways.concat ⟨pre, post, htr, ?_, hfound.stored b (by simp)⟩
      simpa [Purpose.wanted] using hfound.sublist
    | _ :: _ :: _, _, hle => simp [Purpose.wanted] at hle

/-- Every move keeps the answers as they should be. -/
theorem Sound.always_step {act : ArchiveAct} (h : Sound cr cd db content d₀ tr a)
    (halways : Machine.Always (Answers cr db content) tr) (hs : a.step cr cd db act = some a') :
    Machine.Always (Answers cr db content) (tr ++ events cr nodeID a act a') := by
  cases act with
  | store b => exact halways.concat trivial
  | start purpose => exact halways.concat trivial
  | serve | read g | got g => simpa [events] using halways
  | stored =>
    simp only [events]
    split
    · exact halways.concat trivial
    · simpa using halways
  | finish g =>
    simp only [Archive.step] at hs
    split at hs
    · cases hs
    · split at hs
      · exact h.answers halways ‹_›
      · cases hs

/-- Every run is sound and all its answers are as they should be. -/
theorem Reaches.sound (laws : db.Lawful content d₀) {acts : List ArchiveAct}
    (hrun : Reaches cr cd db d₀ acts a) (nodeID : Int) :
    Sound cr cd db content d₀ (trace cr cd db d₀ nodeID acts) a ∧
      Machine.Always (Answers cr db content) (trace cr cd db d₀ nodeID acts) := by
  refine Machine.outputs_invariant
    (P := fun tr a => Sound cr cd db content d₀ tr a ∧ Machine.Always (Answers cr db content) tr)
    ⟨sound_init laws, Machine.always_nil _⟩ ?_ (Machine.along_of_forall fun _ _ _ => trivial) hrun
  rintro tr u act v ⟨h, halways⟩ _ hs
  exact ⟨h.step laws hs, h.always_step halways hs⟩

/-- **Replies are complete.** Whatever is stored meanwhile, a reply answers a request that was
being processed: it holds blocks that were to be stored and whose digests are among those
requested, in their order. If the database finds what it holds, there is one for every requested
digest that was stored successfully before the processing started. -/
theorem replies_complete (laws : db.Lawful content d₀) {acts : List ArchiveAct}
    (hrun : Reaches cr cd db d₀ acts a) {pre post : List ArchiveEvent}
    {request : RequestBlockMsg} {reply : ReplyBlockMsg}
    (htr : trace cr cd db d₀ nodeID acts = pre ++ .replied g request reply :: post) :
    ∃ p₀ p₁, pre = p₀ ++ .started g (.processRequest request) :: p₁ ∧
      reply.reqID = request.reqID ∧
      (reply.blocks.map (Block.hash cr)).Sublist (request.missBlock.map Digest.bytes) ∧
      (∀ b ∈ reply.blocks, .storing b ∈ pre) ∧
      (db.Finds content → ∀ d ∈ request.missBlock, Known cr p₀ d.bytes →
        d.bytes ∈ reply.blocks.map (Block.hash cr)) := by
  obtain ⟨p₀, p₁, hpre, hid, hfound⟩ : Answers cr db content pre (.replied g request reply) :=
    (Reaches.sound laws hrun nodeID).2 _ _ _ htr
  exact ⟨p₀, p₁, hpre, hid, hfound.sublist, hfound.stored,
    fun hfinds d hd hk => hfound.complete d hd ⟨hfinds, hk⟩⟩

/-- Digests are the first bytes of what is hashed. -/
def plainCrypto : Crypto where
  sha256 data := (data ++ List.replicate 32 0).take 32
  sign _ _ := []
  edVerify _ _ _ := true
  tsSign _ _ := some []
  recover _ _ := none

/-- Blocks that are stored as they are. -/
def plainBlocks : Network.Coding Block Block := ⟨id, some, fun _ => rfl⟩

def firstBlock (author : Int) : Block := newBlock plainCrypto author 0 0 0 ⟨-1, []⟩ []

private theorem size_firstBlock (author : Int) :
    ((firstBlock author).hash plainCrypto).length = 32 := by
  simp only [Block.hash, plainCrypto, List.length_take, List.length_append, List.length_replicate]
  omega

/-- The digest of the first block of a member. -/
def firstDigest (author : Int) : Digest :=
  ⟨(firstBlock author).hash plainCrypto, size_firstBlock author⟩

/-- A request for the blocks of members `0`, `1` and `2`. -/
def threeWanted : RequestBlockMsg := ⟨3, [firstDigest 0, firstDigest 1, firstDigest 2], [], 5, 0⟩

/-- A database that cannot write the first block of one member. -/
def withoutFirst (author : Int) : Store.DB (GoMap Bytes Block) Bytes Block :=
  Store.mapDB fun key => key = (firstBlock author).hash plainCrypto

/-- Blocks `0` and `1` are stored before a request is processed, and block `2` while it is. -/
def storedMeanwhile : List ArchiveAct :=
  [.store (firstBlock 0), .serve, .stored, .store (firstBlock 1), .serve, .stored,
   .start (.processRequest threeWanted), .read 0,
   .store (firstBlock 2), .serve, .got 0, .read 0, .serve, .serve, .got 0, .read 0, .serve,
   .got 0, .finish 0]

/-- Where the `Write` of block `1` fails, the reply lacks it although `storeBlock` has
returned. -/
theorem replies_complete_storedMeanwhile : ∃ pre reply,
    trace plainCrypto plainBlocks (withoutFirst 1) ∅ 4 storedMeanwhile =
      pre ++ [.replied 0 threeWanted reply] ∧
    .stored (firstBlock 1) false ∈ pre ∧ reply.blocks = [firstBlock 0, firstBlock 2] ∧
    ∃ p₀ p₁, pre = p₀ ++ .started 0 (.processRequest threeWanted) :: p₁ ∧
      ∀ d ∈ threeWanted.missBlock, Known plainCrypto p₀ d.bytes →
        d.bytes ∈ reply.blocks.map (Block.hash plainCrypto) := by
  obtain ⟨a, ha⟩ := Option.isSome_iff_exists.mp (show (Machine.run
    (step plainCrypto plainBlocks (withoutFirst 1)) (init ∅) storedMeanwhile).isSome = true by
      decide +kernel)
  have htr : trace plainCrypto plainBlocks (withoutFirst 1) ∅ 4 storedMeanwhile =
      [.storing (firstBlock 0), .stored (firstBlock 0) true,
        .storing (firstBlock 1), .stored (firstBlock 1) false,
        .started 0 (.processRequest threeWanted), .storing (firstBlock 2)] ++
      [.replied 0 threeWanted
        (newReplyBlockMsg plainCrypto 4 [firstBlock 0, firstBlock 2] 5)] := by decide +kernel
  obtain ⟨p₀, p₁, hpre, _, _, _, hcomplete⟩ :=
    replies_complete (Store.mapDB_lawful _) ha htr
  exact ⟨_, _, htr, by simp, rfl, p₀, p₁, hpre, hcomplete (Store.mapDB_finds _)⟩

end Invariant

end Archive

end Loom.Remote
