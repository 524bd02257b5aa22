import Mathlib.Data.Nat.Digits.Defs
import Mathlib.Data.List.Nodup

/-!
# Committee and cryptographic services

A `NodeID` is a Go integer, so it stays `Int` here and `NONE` is `-1`. Differences of
numbers that other nodes may have chosen are taken in 64 bits, by `goSub`. A committee
of size `n` has the members `0, …, n - 1`, as the key generation lays it out. SHA-256,
Ed25519 and threshold BLS are library code and enter as the fields of `Crypto`; an
Ed25519 verification panics on a key of the wrong length, which `Signature.verify`
returns as `none`.
-/

namespace Loom

/-- A byte string. -/
abbrev Bytes := List UInt8

/-- The destination of a broadcast. -/
def NONE : Int := -1

/-- Two's complement of 64 bits. -/
def goInt (x : Int) : Int := x.bmod (2 ^ 64)

/-- The difference of two Go integers. -/
def goSub (x y : Int) : Int := goInt (x - y)

/-- A difference that is not negative can only get smaller. -/
theorem goSub_le {x y : Int} (h : y ≤ x) : goSub x y ≤ x - y := by
  unfold goSub goInt
  rw [Int.bmod_def]
  split <;> omega

/-- The library services behind hashing, signing and the common coin. -/
structure Crypto where
  /-- SHA-256 of a byte string. -/
  sha256 : Bytes → Bytes
  /-- `ed25519.Sign` under the private key of a node. -/
  sign : Int → Bytes → Bytes
  /-- `ed25519.Verify` for a public key of the right length. -/
  edVerify : Bytes → Bytes → Bytes → Bool
  /-- `tbls.Sign` under the key share of a node; `none` is its error. -/
  tsSign : Int → Bytes → Option Bytes
  /-- `tbls.Recover` on partial signatures of a digest; `none` is its error. -/
  recover : List Bytes → Bytes → Option Bytes

/-- The members' public keys, member `i` at position `i`. -/
structure Committee where
  names : List Bytes
  deriving DecidableEq, Repr

namespace Committee

/-- Number of members. -/
def size (c : Committee) : Nat := c.names.length

/-- The key of a member; an unknown number has the empty key. -/
def name (c : Committee) (id : Int) : Bytes :=
  if 0 ≤ id then c.names.getD id.toNat [] else []

/-- The member numbers in ascending order. -/
def ids (c : Committee) : List Int := (List.range c.size).map Int.ofNat

/-- Everybody but the sender. -/
def broadCast (c : Committee) (id : Int) : List Int := c.ids.filter (· ≠ id)

/-- `2f+1`. -/
def hightThreshold (c : Committee) : Nat := 2 * ((c.size - 1) / 3) + 1

/-- `f+1`. -/
def lowThreshold (c : Committee) : Nat := (c.size - 1) / 3 + 1

/-- The member numbers are the integers from `0` to `size - 1`. -/
theorem mem_ids (c : Committee) (id : Int) : id ∈ c.ids ↔ 0 ≤ id ∧ id < c.size := by
  simp only [ids, List.mem_map, List.mem_range]
  constructor
  · rintro ⟨k, hk, rfl⟩
    simp only [Int.ofNat_eq_natCast]
    omega
  · rintro ⟨h0, hn⟩
    refine ⟨id.toNat, by omega, ?_⟩
    simp only [Int.ofNat_eq_natCast]
    omega

/-- No member is listed twice. -/
theorem nodup_ids (c : Committee) : c.ids.Nodup := by
  refine List.Nodup.map ?_ List.nodup_range
  intro a b h
  exact Int.ofNat.inj h

/-- There is one id for each member. -/
theorem length_ids (c : Committee) : c.ids.length = c.size := by
  simp only [ids, List.length_map, List.length_range]

end Committee

/-- `ed25519.Verify`, with `none` for its panic on a key that is not 32 bytes long. -/
def verifySig (cr : Crypto) (pub digest sig : Bytes) : Option Bool :=
  if pub.length = 32 then some (cr.edVerify pub digest sig) else none

/-- Only a member's signature can be checked at all. -/
theorem mem_ids_of_verifySig {cr : Crypto} {c : Committee} {a : Int} {digest sig : Bytes} {v : Bool}
    (h : verifySig cr (c.name a) digest sig = some v) : a ∈ c.ids := by
  simp only [verifySig, Option.ite_none_right_eq_some] at h
  rw [Committee.mem_ids]
  by_contra hno
  have hempty : c.name a = [] := by
    unfold Committee.name
    split
    · rw [List.getD_eq_getElem?_getD, List.getElem?_eq_none]
      · rfl
      · change c.size ≤ _
        omega
    · rfl
  rw [hempty] at h
  cases h.1

/-- The signatures of members can be checked if their keys have the right length. -/
theorem verifySig_isSome (cr : Crypto) {c : Committee} (hkeys : ∀ k ∈ c.names, k.length = 32)
    {a : Int} (ha : a ∈ c.ids) (digest sig : Bytes) :
    (verifySig cr (c.name a) digest sig).isSome = true := by
  obtain ⟨h0, hlt⟩ := (c.mem_ids a).mp ha
  have hbound : a.toNat < c.names.length := by
    change a.toNat < c.size
    omega
  have hname : c.name a = c.names[a.toNat] := by
    rw [Committee.name, if_pos h0, List.getD_eq_getElem?_getD, List.getElem?_eq_getElem hbound]
    rfl
  rw [hname, verifySig, if_pos (hkeys _ (List.getElem_mem hbound))]
  rfl

/-- `strconv.AppendInt(nil, x, 2)`: the base-2 numeral, with a leading `-` below zero. -/
def appendInt (x : Int) : Bytes :=
  (if x < 0 then [45] else []) ++
    (if x = 0 then [48] else (Nat.digits 2 x.natAbs).reverse.map fun d => UInt8.ofNat (48 + d))

end Loom
