import Loom.Core.Message
import Mathlib.Data.Nat.Digits.Lemmas

/-!
# What the digests cover

A digest hashes base-2 numerals and raw bytes one after the other, without lengths or
delimiters. A numeral can be continued by further digits into another numeral, so the
same bytes can be read with different numbers: `append_appendInt_iff` says when. The
digests also leave out fields that the receivers act on.
-/

namespace Loom

/-! ## Numerals -/

/-- The character of a base-2 digit. -/
def bitByte (d : Bool) : UInt8 := if d then 49 else 48

/-- Append a base-2 digit to a number. -/
def pushBit (x : Int) (d : Bool) : Int := if x < 0 then 2 * x - d.toNat else 2 * x + d.toNat

private theorem pushBit_ne_zero {x : Int} (hx : x ≠ 0) (d : Bool) : pushBit x d ≠ 0 := by
  unfold pushBit
  cases d <;> split <;> simp only [Bool.toNat_false, Bool.toNat_true] <;> omega

private theorem natAbs_pushBit (x : Int) (d : Bool) :
    (pushBit x d).natAbs = 2 * x.natAbs + d.toNat := by
  unfold pushBit
  split <;> omega

/-- Every number with at least two digits arises by appending one. -/
theorem exists_pushBit {y : Int} (hy : 2 ≤ y.natAbs) :
    ∃ x d, x ≠ 0 ∧ y = pushBit x d ∧ x.natAbs < y.natAbs := by
  by_cases hneg : y < 0
  · refine ⟨-((-y) / 2), decide ((-y) % 2 = 1), by omega, ?_, by omega⟩
    by_cases hodd : (-y) % 2 = 1
    · simp only [pushBit, hodd, decide_true, Bool.toNat_true]
      omega
    · simp only [pushBit, hodd, decide_false, Bool.toNat_false]
      omega
  · refine ⟨y / 2, decide (y % 2 = 1), by omega, ?_, by omega⟩
    by_cases hodd : y % 2 = 1
    · simp only [pushBit, hodd, decide_true, Bool.toNat_true]
      omega
    · simp only [pushBit, hodd, decide_false, Bool.toNat_false]
      omega

/-- Appending a digit to a number appends its character to the numeral. -/
theorem appendInt_pushBit {x : Int} (hx : x ≠ 0) (d : Bool) :
    appendInt (pushBit x d) = appendInt x ++ [bitByte d] := by
  have hsign : pushBit x d < 0 ↔ x < 0 := by
    unfold pushBit
    cases d <;> split <;> simp only [Bool.toNat_false, Bool.toNat_true] <;> omega
  have hdigits : Nat.digits 2 (pushBit x d).natAbs = d.toNat :: Nat.digits 2 x.natAbs := by
    rw [natAbs_pushBit, Nat.add_comm]
    apply Nat.digits_add 2 (by omega)
    · cases d <;> decide
    · right
      omega
  have hbyte : UInt8.ofNat (48 + d.toNat) = bitByte d := by cases d <;> rfl
  simp only [appendInt, hsign, pushBit_ne_zero hx d, hx, if_false, hdigits, List.reverse_cons,
    List.map_append, List.map_cons, List.map_nil, hbyte, List.append_assoc]

/-- The numerals with one digit. -/
theorem appendInt_small {x : Int} (hx : x.natAbs ≤ 1) :
    x = 0 ∧ appendInt x = [48] ∨ x = 1 ∧ appendInt x = [49] ∨ x = -1 ∧ appendInt x = [45, 49] := by
  obtain rfl | rfl | rfl : x = 0 ∨ x = 1 ∨ x = -1 := by omega
  · exact Or.inl ⟨rfl, by decide⟩
  · exact Or.inr (Or.inl ⟨rfl, by decide⟩)
  · exact Or.inr (Or.inr ⟨rfl, by decide⟩)

/-- No numeral is empty or just a sign. -/
theorem appendInt_ne_sign (x : Int) : appendInt x ≠ [] ∧ appendInt x ≠ [45] := by
  by_cases hx : x.natAbs ≤ 1
  · rcases appendInt_small hx with ⟨_, h⟩ | ⟨_, h⟩ | ⟨_, h⟩ <;> rw [h] <;> decide
  · obtain ⟨y, d, hy, rfl, _⟩ := exists_pushBit (y := x) (by omega)
    rw [appendInt_pushBit hy]
    constructor
    · simp
    · intro h
      have hlast := congrArg List.getLast? h
      cases d <;> simp [bitByte] at hlast

/-- Dropping the last character of a longer numeral drops its last digit. -/
theorem appendInt_eq_concat {y : Int} {l : Bytes} {c : UInt8} (h : appendInt y = l ++ [c])
    (hl : l ≠ [] ∧ l ≠ [45]) :
    ∃ x d, x ≠ 0 ∧ y = pushBit x d ∧ x.natAbs < y.natAbs ∧ appendInt x = l ∧ c = bitByte d := by
  have hbig : ¬ y.natAbs ≤ 1 := by
    intro hy
    have hlast := congrArg List.dropLast h
    rw [List.dropLast_concat] at hlast
    rcases appendInt_small hy with ⟨_, hy⟩ | ⟨_, hy⟩ | ⟨_, hy⟩
    · rw [hy] at hlast
      exact hl.1 hlast.symm
    · rw [hy] at hlast
      exact hl.1 hlast.symm
    · rw [hy] at hlast
      exact hl.2 hlast.symm
  obtain ⟨x, d, hx, rfl, hlt⟩ := exists_pushBit (y := y) (by omega)
  rw [appendInt_pushBit hx] at h
  obtain ⟨hl', hc⟩ := List.append_inj' h rfl
  exact ⟨x, d, hx, rfl, hlt, hl', (List.singleton_inj.mp hc).symm⟩

private theorem bitByte_injective : Function.Injective bitByte := by
  intro d e h
  cases d <;> cases e <;> first | rfl | exact absurd h (by decide)

/-- A numeral determines its number. -/
theorem appendInt_injective : Function.Injective appendInt := by
  have hind : ∀ (n : Nat) (x y : Int), y.natAbs < n → appendInt x = appendInt y → x = y := by
    intro n
    induction n with
    | zero => intro x y hy; omega
    | succ n ih =>
      intro x y hyn h
      by_cases hx : x.natAbs ≤ 1
      · by_cases hy : y.natAbs ≤ 1
        · rcases appendInt_small hx with ⟨hx, hx'⟩ | ⟨hx, hx'⟩ | ⟨hx, hx'⟩ <;>
            rcases appendInt_small hy with ⟨hy, hy'⟩ | ⟨hy, hy'⟩ | ⟨hy, hy'⟩ <;>
            rw [hx', hy'] at h <;> first | exact hx.trans hy.symm | exact absurd h (by decide)
        · obtain ⟨z, d, hz, rfl, _⟩ := exists_pushBit (y := y) (by omega)
          rw [appendInt_pushBit hz] at h
          obtain ⟨z', e, hz', rfl, _⟩ := appendInt_eq_concat h (appendInt_ne_sign z)
          rw [natAbs_pushBit] at hx
          omega
      · obtain ⟨z, d, hz, rfl, _⟩ := exists_pushBit (y := x) (by omega)
        rw [appendInt_pushBit hz] at h
        obtain ⟨z', e, _, rfl, hlt, hzz, hde⟩ := appendInt_eq_concat h.symm (appendInt_ne_sign z)
        rw [ih z z' (by omega) hzz.symm, bitByte_injective hde]
  intro x y h
  exact hind _ x y (Nat.lt_succ_self _) h

/-- A numeral that begins with another one continues it by digits. -/
theorem appendInt_continues {x : Int} (w : Bytes) : ∀ {y : Int}, appendInt y = appendInt x ++ w →
    ∃ ds : List Bool, w = ds.map bitByte ∧ y = ds.foldl pushBit x ∧ (ds ≠ [] → x ≠ 0) := by
  induction w using List.reverseRecOn with
  | nil =>
    intro y h
    rw [List.append_nil] at h
    exact ⟨[], rfl, appendInt_injective h, fun hne => absurd rfl hne⟩
  | append_singleton w c ih =>
    intro y h
    have hxs := appendInt_ne_sign x
    rw [← List.append_assoc] at h
    obtain ⟨z, d, hz, rfl, _, hzw, rfl⟩ := appendInt_eq_concat h (by
      constructor
      · intro hnil
        exact hxs.1 (List.append_eq_nil_iff.mp hnil).1
      · intro hsign
        rcases List.append_eq_singleton_iff.mp hsign with ⟨h₁, _⟩ | ⟨h₁, _⟩
        · exact hxs.1 h₁
        · exact hxs.2 h₁)
    obtain ⟨ds, rfl, rfl, hx⟩ := ih hzw
    refine ⟨ds ++ [d], by simp, by simp, fun _ => ?_⟩
    by_cases hds : ds = []
    · subst ds
      exact hz
    · exact hx hds

/-- The numeral of a number with further digits. -/
theorem appendInt_foldl_pushBit (ds : List Bool) : ∀ {x : Int}, x ≠ 0 →
    appendInt (ds.foldl pushBit x) = appendInt x ++ ds.map bitByte := by
  induction ds with
  | nil => intro x _; simp
  | cons d ds ih =>
    intro x hx
    rw [List.foldl_cons, ih (pushBit_ne_zero hx d), appendInt_pushBit hx]
    simp

/-- The bytes after the numeral of `x` begin with digits that continue it to the numeral of
`y`; what follows them is `v`. -/
def RunsInto (x : Int) (u : Bytes) (y : Int) (v : Bytes) : Prop :=
  ∃ ds : List Bool, ds ≠ [] ∧ x ≠ 0 ∧ y = ds.foldl pushBit x ∧ u = ds.map bitByte ++ v

/-- **When two readings of the same bytes differ**: only if one numeral runs into the other. -/
theorem append_appendInt_iff {x y : Int} {u v : Bytes} :
    appendInt x ++ u = appendInt y ++ v ↔
      (x = y ∧ u = v) ∨ RunsInto x u y v ∨ RunsInto y v x u := by
  have hinto : ∀ {x y : Int} {u v : Bytes}, RunsInto x u y v →
      appendInt x ++ u = appendInt y ++ v := by
    rintro x y u v ⟨ds, _, hx, rfl, rfl⟩
    rw [appendInt_foldl_pushBit ds hx, List.append_assoc]
  have hfrom : ∀ {x y : Int} {u v w : Bytes}, appendInt y = appendInt x ++ w → u = w ++ v →
      (x = y ∧ u = v) ∨ RunsInto x u y v := by
    intro x y u v w hy hu
    obtain ⟨ds, rfl, rfl, hx⟩ := appendInt_continues w hy
    by_cases hds : ds = []
    · subst ds
      exact Or.inl ⟨rfl, hu⟩
    · exact Or.inr ⟨ds, hds, hx hds, rfl, hu⟩
  constructor
  · intro h
    rcases List.append_eq_append_iff.mp h with ⟨w, hy, hu⟩ | ⟨w, hx, hv⟩
    · rcases hfrom hy hu with h | h
      · exact Or.inl h
      · exact Or.inr (Or.inl h)
    · rcases hfrom hx hv with ⟨rfl, rfl⟩ | h
      · exact Or.inl ⟨rfl, rfl⟩
      · exact Or.inr (Or.inr h)
  · rintro (⟨rfl, rfl⟩ | h | h)
    · rfl
    · exact hinto h
    · exact (hinto h).symm

/-- A number that runs into another one differs from it. -/
theorem RunsInto.ne {x y : Int} {u v : Bytes} (h : RunsInto x u y v) : x ≠ y := by
  obtain ⟨ds, hds, hx, rfl, _⟩ := h
  intro heq
  have happ := appendInt_foldl_pushBit ds hx
  rw [← heq, List.self_eq_append_right, List.map_eq_nil_iff] at happ
  exact hds happ

/-- A reading binds exactly if it is never confused and the rest follows from it. -/
theorem binds_iff_of_reading {same left right agree : Prop} (hleft : left → ¬ agree)
    (hright : right → ¬ agree) :
    (same ∨ left ∨ right → agree) ↔ (¬ left ∧ ¬ right) ∧ (same → agree) := by
  constructor
  · intro h
    refine ⟨⟨fun hl => hleft hl (h (Or.inr (Or.inl hl))), fun hr => ?_⟩, fun hs => h (Or.inl hs)⟩
    exact hright hr (h (Or.inr (Or.inr hr)))
  · rintro ⟨⟨hl, hr⟩, hs⟩ (h | h | h)
    · exact hs h
    · exact absurd h hl
    · exact absurd h hr

/-! ## What equal digests leave open -/

/-- The bytes of the transactions one after the other. -/
def Block.txBytes (b : Block) : Bytes := b.batch.txs.flatten

/-- The bytes of the requested digests one after the other. -/
def RequestBlockMsg.missBytes (m : RequestBlockMsg) : Bytes := (m.missBlock.map (·.bytes)).flatten

/-- Two blocks agree in every field that a receiver acts on. -/
def Block.Agrees (b₁ b₂ : Block) : Prop :=
  b₁.header = b₂.header ∧ b₁.ref = b₂.ref ∧ b₁.batch.txs = b₂.batch.txs

/-- The heights of two blocks cannot be confused through the bytes after them. -/
def Block.HeightsApart (b₁ b₂ : Block) : Prop :=
  ¬ RunsInto b₁.header.slot.height b₁.txBytes b₂.header.slot.height b₂.txBytes ∧
    ¬ RunsInto b₂.header.slot.height b₂.txBytes b₁.header.slot.height b₁.txBytes

/-- The authors of two blocks cannot be confused through the bytes after them. -/
def Block.AuthorsApart (b₁ b₂ : Block) : Prop :=
  ¬ RunsInto b₁.header.slot.author (appendInt b₁.header.slot.height ++ b₁.txBytes)
      b₂.header.slot.author (appendInt b₂.header.slot.height ++ b₂.txBytes) ∧
    ¬ RunsInto b₂.header.slot.author (appendInt b₂.header.slot.height ++ b₂.txBytes)
      b₁.header.slot.author (appendInt b₁.header.slot.height ++ b₁.txBytes)

/-- The slots of two echoes cannot be confused. -/
def Echo.SlotsApart (e₁ e₂ : Echo) : Prop :=
  ¬ RunsInto e₁.header.slot.author (appendInt e₁.header.slot.height)
      e₂.header.slot.author (appendInt e₂.header.slot.height) ∧
    ¬ RunsInto e₂.header.slot.author (appendInt e₂.header.slot.height)
      e₁.header.slot.author (appendInt e₁.header.slot.height)

/-- The numbers of two requests cannot be confused through the digests after them. -/
def RequestBlockMsg.IdsApart (m₁ m₂ : RequestBlockMsg) : Prop :=
  ¬ RunsInto m₁.reqID m₁.missBytes m₂.reqID m₂.missBytes ∧
    ¬ RunsInto m₂.reqID m₂.missBytes m₁.reqID m₁.missBytes

/-- Digests have one length, so their concatenation determines them. -/
theorem flatten_digests_inj : ∀ {ds es : List Digest},
    (ds.map (·.bytes)).flatten = (es.map (·.bytes)).flatten → ds = es := by
  intro ds
  induction ds with
  | nil =>
    intro es h
    cases es with
    | nil => rfl
    | cons e es =>
      have hlen := congrArg List.length h
      simp only [List.map_nil, List.flatten_nil, List.length_nil, List.map_cons,
        List.flatten_cons, List.length_append, e.size] at hlen
      omega
  | cons d ds ih =>
    intro es h
    cases es with
    | nil =>
      have hlen := congrArg List.length h
      simp only [List.map_nil, List.flatten_nil, List.length_nil, List.map_cons,
        List.flatten_cons, List.length_append, d.size] at hlen
      omega
    | cons e es =>
      simp only [List.map_cons, List.flatten_cons] at h
      obtain ⟨hd, hrest⟩ := List.append_inj h (by rw [d.size, e.size])
      rw [ih hrest]
      rcases d with ⟨bytes, _⟩
      cases hd
      rfl

section Binding

variable {cr : Crypto} (hinj : Function.Injective cr.sha256)

include hinj

/-- When two blocks have the same digest. -/
theorem Block.hash_eq_iff {b₁ b₂ : Block} : b₁.hash cr = b₂.hash cr ↔
    appendInt b₁.header.slot.author ++ (appendInt b₁.header.slot.height ++ b₁.txBytes) =
      appendInt b₂.header.slot.author ++ (appendInt b₂.header.slot.height ++ b₂.txBytes) := by
  rw [Block.hash, Block.hash, hinj.eq_iff, List.append_assoc, List.append_assoc]
  rfl

private theorem Block.hash_eq_iff_of_author {b₁ b₂ : Block}
    (ha : b₁.header.slot.author = b₂.header.slot.author) : b₁.hash cr = b₂.hash cr ↔
    appendInt b₁.header.slot.height ++ b₁.txBytes =
      appendInt b₂.header.slot.height ++ b₂.txBytes := by
  rw [Block.hash_eq_iff hinj, ha, List.append_cancel_left_eq]

/-- What the digest of a block binds. -/
theorem Block.binds_iff {b₁ b₂ : Block} (ha : b₁.header.slot.author = b₂.header.slot.author) :
    (b₁.hash cr = b₂.hash cr → b₁.Agrees b₂) ↔
      b₁.HeightsApart b₂ ∧ (b₁.header.slot.height = b₂.header.slot.height ∧
        b₁.txBytes = b₂.txBytes → b₁.Agrees b₂) := by
  rw [Block.hash_eq_iff_of_author hinj ha, append_appendInt_iff]
  apply binds_iff_of_reading
  · intro hrun hagree
    apply hrun.ne
    rw [hagree.1]
  · intro hrun hagree
    apply hrun.ne
    rw [hagree.1]

/-- What the digest of an echo binds. -/
theorem Echo.binds_iff {e₁ e₂ : Echo} (ha : e₁.author = e₂.author) :
    (e₁.hash cr = e₂.hash cr → e₁.header = e₂.header) ↔
      e₁.SlotsApart e₂ ∧ (e₁.header.slot = e₂.header.slot → e₁.header = e₂.header) := by
  have hsame : (e₁.header.slot.author = e₂.header.slot.author ∧
      appendInt e₁.header.slot.height = appendInt e₂.header.slot.height) ↔
      e₁.header.slot = e₂.header.slot := by
    rw [appendInt_injective.eq_iff]
    rcases e₁.header.slot with ⟨a, h⟩
    rcases e₂.header.slot with ⟨b, k⟩
    rw [Slot.mk.injEq]
  rw [Echo.hash, Echo.hash, hinj.eq_iff, List.append_assoc, List.append_assoc, ha,
    List.append_cancel_left_eq, append_appendInt_iff, hsame]
  apply binds_iff_of_reading
  · intro hrun hagree
    apply hrun.ne
    rw [hagree]
  · intro hrun hagree
    apply hrun.ne
    rw [hagree]

/-- What the digest of a request binds. -/
theorem RequestBlockMsg.binds_iff {m₁ m₂ : RequestBlockMsg} (ha : m₁.author = m₂.author) :
    (m₁.hash cr = m₂.hash cr → m₁.reqID = m₂.reqID ∧ m₁.missBlock = m₂.missBlock) ↔
      m₁.IdsApart m₂ := by
  have hsame : m₁.reqID = m₂.reqID ∧ m₁.missBytes = m₂.missBytes →
      m₁.reqID = m₂.reqID ∧ m₁.missBlock = m₂.missBlock :=
    fun h => ⟨h.1, flatten_digests_inj h.2⟩
  rw [RequestBlockMsg.hash, RequestBlockMsg.hash, hinj.eq_iff, List.append_assoc,
    List.append_assoc, ha, List.append_cancel_left_eq]
  have hread := append_appendInt_iff (x := m₁.reqID) (y := m₂.reqID) (u := m₁.missBytes)
    (v := m₂.missBytes)
  simp only [RequestBlockMsg.missBytes] at hread hsame
  rw [hread, binds_iff_of_reading (fun h => fun hagree => h.ne hagree.1)
    (fun h => fun hagree => h.ne hagree.1.symm)]
  exact and_iff_left hsame

/-- What the digest of a reply binds. -/
theorem ReplyBlockMsg.binds_iff {m₁ m₂ : ReplyBlockMsg} (ha : m₁.author = m₂.author) :
    (m₁.hash cr = m₂.hash cr → m₁.reqID = m₂.reqID ∧ m₁.blocks = m₂.blocks) ↔
      (m₁.reqID = m₂.reqID → m₁.blocks = m₂.blocks) := by
  rw [ReplyBlockMsg.hash, ReplyBlockMsg.hash, hinj.eq_iff, ha, List.append_cancel_left_eq,
    appendInt_injective.eq_iff]
  constructor
  · exact fun h hid => (h hid).2
  · exact fun h hid => ⟨hid, h hid⟩

/-- When the digests of two blocks at different slots differ. -/
theorem Block.hash_ne_iff {b₁ b₂ : Block} (hs : b₁.header.slot ≠ b₂.header.slot) :
    b₁.hash cr ≠ b₂.hash cr ↔ b₁.AuthorsApart b₂ ∧
      (b₁.header.slot.author = b₂.header.slot.author → b₁.HeightsApart b₂) := by
  have hheights : b₁.header.slot.author = b₂.header.slot.author →
      (appendInt b₁.header.slot.height ++ b₁.txBytes ≠
        appendInt b₂.header.slot.height ++ b₂.txBytes ↔ b₁.HeightsApart b₂) := by
    intro ha
    have hne : b₁.header.slot.height ≠ b₂.header.slot.height := by
      intro hh
      apply hs
      rcases hb₁ : b₁.header.slot with ⟨a, h⟩
      rcases hb₂ : b₂.header.slot with ⟨b, k⟩
      rw [hb₁, hb₂] at ha hh
      rw [Slot.mk.injEq]
      exact ⟨ha, hh⟩
    rw [ne_eq, append_appendInt_iff, not_or, not_or, Block.HeightsApart]
    exact and_iff_right fun h => hne h.1
  rw [ne_eq, Block.hash_eq_iff hinj, append_appendInt_iff, not_or, not_or, Block.AuthorsApart,
    and_comm]
  apply and_congr_right
  intro _
  rw [not_and]
  exact forall_congr' hheights

end Binding

/-- **What the digests bind**, for every pair of messages of one type by one author. Equal
digests make two messages agree exactly if neither numeral runs into the other and the
fields that are not hashed follow from the hashed ones; and two blocks of different slots
have different digests exactly if their numerals do not run into each other. -/
theorem digests_bind_iff (cr : Crypto) (hinj : Function.Injective cr.sha256) :
    (∀ b₁ b₂ : Block, b₁.header.slot.author = b₂.header.slot.author →
      ((b₁.hash cr = b₂.hash cr → b₁.Agrees b₂) ↔ b₁.HeightsApart b₂ ∧
        (b₁.header.slot.height = b₂.header.slot.height ∧ b₁.txBytes = b₂.txBytes →
          b₁.Agrees b₂))) ∧
    (∀ e₁ e₂ : Echo, e₁.author = e₂.author →
      ((e₁.hash cr = e₂.hash cr → e₁.header = e₂.header) ↔
        e₁.SlotsApart e₂ ∧ (e₁.header.slot = e₂.header.slot → e₁.header = e₂.header))) ∧
    (∀ m₁ m₂ : RequestBlockMsg, m₁.author = m₂.author →
      ((m₁.hash cr = m₂.hash cr → m₁.reqID = m₂.reqID ∧ m₁.missBlock = m₂.missBlock) ↔
        m₁.IdsApart m₂)) ∧
    (∀ m₁ m₂ : ReplyBlockMsg, m₁.author = m₂.author →
      ((m₁.hash cr = m₂.hash cr → m₁.reqID = m₂.reqID ∧ m₁.blocks = m₂.blocks) ↔
        (m₁.reqID = m₂.reqID → m₁.blocks = m₂.blocks))) ∧
    ∀ b₁ b₂ : Block, b₁.header.slot ≠ b₂.header.slot →
      (b₁.hash cr ≠ b₂.hash cr ↔ b₁.AuthorsApart b₂ ∧
        (b₁.header.slot.author = b₂.header.slot.author → b₁.HeightsApart b₂)) :=
  ⟨fun _ _ => Block.binds_iff hinj, fun _ _ => Echo.binds_iff hinj,
    fun _ _ => RequestBlockMsg.binds_iff hinj, fun _ _ => ReplyBlockMsg.binds_iff hinj,
    fun _ _ => Block.hash_ne_iff hinj⟩

/-- Library services with an injective digest. -/
def openCrypto : Crypto where
  sha256 bytes := bytes
  sign _ _ := []
  edVerify _ _ _ := true
  tsSign _ _ := none
  recover _ _ := none

/-- A signed block without references or transactions other than `txs`. -/
def sampleBlock (author height round : Int) (txs : List Bytes) : Block :=
  newBlock openCrypto author height round 0 ⟨0, txs⟩ []

/-- With the hash that is the identity, equal digests mean blocks that agree. -/
theorem digests_bind_iff_openCrypto : Function.Injective openCrypto.sha256 ∧
    ((sampleBlock 1 2 0 []).hash openCrypto = (sampleBlock 1 3 0 []).hash openCrypto →
      (sampleBlock 1 2 0 []).Agrees (sampleBlock 1 3 0 [])) := by
  have hinj : Function.Injective openCrypto.sha256 := fun _ _ h => h
  have hbinds := (digests_bind_iff openCrypto hinj).1 (sampleBlock 1 2 0 [])
    (sampleBlock 1 3 0 []) rfl
  refine ⟨hinj, hbinds.mpr ⟨⟨?_, ?_⟩, fun h => absurd h.1 (by decide)⟩⟩
  · rintro ⟨ds, hds, _, _, hu⟩
    cases ds with
    | nil => exact hds rfl
    | cons d ds => cases hu
  · rintro ⟨ds, hds, _, _, hu⟩
    cases ds with
    | nil => exact hds rfl
    | cons d ds => cases hu

/-- A digest made of the characters of `0`. -/
def zeroDigest : Digest := ⟨List.replicate 32 48, by decide⟩

/-- No digest binds its message: blocks that differ in their round, echoes of different
slots, requests with different numbers, replies with different blocks, and blocks of
different slots. -/
theorem digests_collide : ∃ cr : Crypto, Function.Injective cr.sha256 ∧
    ((sampleBlock 1 2 0 []).hash cr = (sampleBlock 1 2 7 []).hash cr ∧
      (sampleBlock 1 2 0 []).header.round ≠ (sampleBlock 1 2 7 []).header.round) ∧
    ((⟨0, ⟨⟨1, 2⟩, 0, 0⟩, []⟩ : Echo).hash cr = (⟨0, ⟨⟨3, 0⟩, 0, 0⟩, []⟩ : Echo).hash cr) ∧
    ((⟨0, [zeroDigest], [], 1, 0⟩ : RequestBlockMsg).hash cr =
      (⟨0, [], [], 2 ^ 32, 0⟩ : RequestBlockMsg).hash cr) ∧
    ((⟨0, [], 5, []⟩ : ReplyBlockMsg).hash cr =
      (⟨0, [sampleBlock 1 2 0 []], 5, []⟩ : ReplyBlockMsg).hash cr) ∧
    ((sampleBlock 1 1 0 [[48]]).hash cr = (sampleBlock 1 2 0 []).hash cr ∧
      (sampleBlock 1 1 0 [[48]]).header.slot ≠ (sampleBlock 1 2 0 []).header.slot) := by
  refine ⟨openCrypto, fun _ _ h => h, ⟨rfl, by decide⟩, ?_, ?_, rfl, ?_, by decide⟩
  · decide +kernel
  · decide +kernel
  · decide +kernel

end Loom
