import Mathlib.Tactic.NormNum

/-!
# Single-precision floats, as far as they are compared

The searches compute distances elsewhere and only compare them, negate them and copy them.  `F32`
is the 32 bits of a `float`, with the comparisons of the language: every comparison with a NaN is
false, and the two zeros are equal.

On the values that are not NaN the comparisons are those of an integer, `F32.key`, which the
proofs work with.
-/

namespace FaissNavix

/-- A `float`, by its bits. -/
structure F32 where
  bits : BitVec 32
deriving DecidableEq, Repr

namespace F32

def magnitude (x : F32) : ℕ := x.bits.toNat % 2 ^ 31

def negative (x : F32) : Bool := decide (2 ^ 31 ≤ x.bits.toNat)

def isNaN (x : F32) : Bool := decide (0x7f800000 < x.magnitude)

/-- The integer that the comparisons of `x` are those of. -/
def key (x : F32) : ℤ := if x.negative then -(x.magnitude : ℤ) else x.magnitude

/-- `a < b` -/
def lt (a b : F32) : Bool := !a.isNaN && !b.isNaN && decide (a.key < b.key)

/-- `a <= b` -/
def le (a b : F32) : Bool := !a.isNaN && !b.isNaN && decide (a.key ≤ b.key)

/-- `a == b` -/
def feq (a b : F32) : Bool := !a.isNaN && !b.isNaN && decide (a.key = b.key)

instance : LT F32 := ⟨fun a b ↦ lt a b = true⟩

instance : LE F32 := ⟨fun a b ↦ le a b = true⟩

instance (a b : F32) : Decidable (a < b) := inferInstanceAs (Decidable (lt a b = true))

instance (a b : F32) : Decidable (a ≤ b) := inferInstanceAs (Decidable (le a b = true))

/-- `-a` -/
def neg (a : F32) : F32 := ⟨a.bits ^^^ 0x80000000#32⟩

/-- `0.0f` -/
def zero : F32 := ⟨0#32⟩

/-- `std::numeric_limits<float>::max()` -/
def max : F32 := ⟨0x7f7fffff#32⟩

/-- `std::numeric_limits<float>::lowest()` -/
def lowest : F32 := ⟨0xff7fffff#32⟩

/-- `HUGE_VALF` -/
def inf : F32 := ⟨0x7f800000#32⟩

def Comparable (x : F32) : Prop := x.isNaN = false

instance (x : F32) : Decidable x.Comparable := inferInstanceAs (Decidable (_ = _))

theorem lt_iff {a b : F32} : a < b ↔ a.Comparable ∧ b.Comparable ∧ a.key < b.key := by
  change lt a b = true ↔ _
  simp [lt, Comparable, and_assoc]

theorem le_iff {a b : F32} : a ≤ b ↔ a.Comparable ∧ b.Comparable ∧ a.key ≤ b.key := by
  change le a b = true ↔ _
  simp [le, Comparable, and_assoc]

theorem feq_iff {a b : F32} :
    a.feq b = true ↔ a.Comparable ∧ b.Comparable ∧ a.key = b.key := by
  simp [feq, Comparable, and_assoc]

theorem comparable_max : max.Comparable := by decide

theorem comparable_lowest : lowest.Comparable := by decide

theorem comparable_inf : inf.Comparable := by decide

protected theorem lt_irrefl (a : F32) : ¬ a < a := fun h ↦ lt_irrefl _ (lt_iff.mp h).2.2

protected theorem lt_trans {a b c : F32} (hab : a < b) (hbc : b < c) : a < c := by
  rw [lt_iff] at *
  exact ⟨hab.1, hbc.2.1, hab.2.2.trans hbc.2.2⟩

section
variable {a b : F32} (ha : a.Comparable) (hb : b.Comparable)
include ha hb

theorem not_lt_iff :
    ¬ a < b ↔ b.key ≤ a.key := by
  rw [lt_iff, not_and, not_and, not_lt]
  exact ⟨fun h ↦ h ha hb, fun h _ _ ↦ h⟩

theorem lt_iff_key :
    a < b ↔ a.key < b.key := by
  rw [lt_iff]
  exact ⟨fun h ↦ h.2.2, fun h ↦ ⟨ha, hb, h⟩⟩

theorem le_iff_key :
    a ≤ b ↔ a.key ≤ b.key := by
  rw [le_iff]
  exact ⟨fun h ↦ h.2.2, fun h ↦ ⟨ha, hb, h⟩⟩

end

theorem Comparable.of_lt {a b : F32} (h : a < b) : a.Comparable := (lt_iff.mp h).1

theorem key_le_inf {a : F32} (ha : a.Comparable) : a.key ≤ inf.key := by
  have hmag : a.magnitude ≤ 0x7f800000 := by simpa [Comparable, isNaN] using ha
  have hinf : inf.key = 0x7f800000 := by decide
  rw [hinf, key]
  split <;> omega

theorem neg_ne_self (a : F32) : a.neg ≠ a := by
  intro h
  have hb : a.bits ^^^ 0x80000000#32 = a.bits := congrArg F32.bits h
  have hx : a.bits ^^^ (a.bits ^^^ 0x80000000#32) = 0#32 := by rw [hb, BitVec.xor_self]
  rw [← BitVec.xor_assoc, BitVec.xor_self, BitVec.zero_xor] at hx
  exact absurd hx (by decide)

def rank (x : F32) : ℕ := (x.key + 2 ^ 31).toNat

theorem neg_le_key (x : F32) : -(2 ^ 31 : ℤ) ≤ x.key := by
  have h : x.magnitude < 2 ^ 31 := Nat.mod_lt _ (by norm_num)
  unfold key
  split <;> omega

theorem rank_lt_rank {a b : F32} (h : a < b) : a.rank < b.rank := by
  have h1 := (lt_iff.mp h).2.2
  have h2 := neg_le_key a
  unfold rank
  omega

end F32

end FaissNavix
