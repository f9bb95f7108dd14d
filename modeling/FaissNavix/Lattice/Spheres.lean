import FaissNavix.Lib.Numbering
import Mathlib.NumberTheory.SumFourSquares

/-!
# The integer vectors on a sphere

The integer vectors of dimension `2 ^ ld` and squared norm `r`, numbered by halving the dimension: a vector is in
the segment of the squared norm of its first half, where the pairs of halves are numbered by mixed radix.
-/

namespace FaissNavix.Spheres

open Lib

def sqNorm (c : List ℤ) : ℕ := (c.map fun x ↦ (x * x).toNat).sum

def sphere (dim r : ℕ) : Set (List ℤ) := {c | c.length = dim ∧ sqNorm c = r}

/-- The number of integer vectors of dimension `2 ^ ld`. -/
def sphereCount : ℕ → ℕ → ℕ
  | 0, r => if Nat.sqrt r * Nat.sqrt r = r then if Nat.sqrt r = 0 then 1 else 2 else 0
  | ld + 1, r => cum (fun a ↦ sphereCount ld a * sphereCount ld (r - a)) (r + 1)

def pairCount (ld r a : ℕ) : ℕ := sphereCount ld a * sphereCount ld (r - a)

theorem sphereCount_succ (ld r : ℕ) : sphereCount (ld + 1) r = cum (pairCount ld r) (r + 1) := rfl

/-- The number of a vector. -/
def sphereCode : ℕ → List ℤ → ℕ
  | 0, c => if 0 ≤ c.headD 0 then 0 else 1
  | ld + 1, c =>
      let a := sqNorm (c.take (2 ^ ld))
      let b := sqNorm (c.drop (2 ^ ld))
      cum (pairCount ld (a + b)) a + (sphereCode ld (c.take (2 ^ ld)) * sphereCount ld b +
        sphereCode ld (c.drop (2 ^ ld)))

/-! ## Nodes -/

section
variable (ld : ℕ) (x : ℕ × ℕ)

/-- The squared norm for the left child of a node of level `ld + 1`. -/
def leftNorm : ℕ := segmentOf (pairCount ld x.1) x.1 x.2

def digits : ℕ := x.2 - cum (pairCount ld x.1) (leftNorm ld x)

/-- The left child of a node, which has a squared norm and a code. -/
def leftChild : ℕ × ℕ :=
  (leftNorm ld x, digits ld x / sphereCount ld (x.1 - leftNorm ld x))

def rightChild : ℕ × ℕ :=
  (x.1 - leftNorm ld x, digits ld x % sphereCount ld (x.1 - leftNorm ld x))

end

/-- The nodes `t` levels below a node of level `ld`. -/
def descend : ℕ → ℕ → ℕ × ℕ → List (ℕ × ℕ)
  | 0, _, x => [x]
  | t + 1, ld, x => descend t (ld - 1) (leftChild (ld - 1) x) ++ descend t (ld - 1) (rightChild (ld - 1) x)

def leafInt (x : ℕ × ℕ) : ℤ := if x.2 = 0 then Nat.sqrt x.1 else -Nat.sqrt x.1

/-- The vector for a node of level `ld`. -/
def vectorAt (ld r code : ℕ) : List ℤ := (descend ld ld (r, code)).map leafInt

def IsCode (ld : ℕ) (x : ℕ × ℕ) : Prop := x.2 < sphereCount ld x.1

section Nodes

variable {ld t s : ℕ} {x y : ℕ × ℕ}

theorem length_descend (t ld : ℕ) (x : ℕ × ℕ) : (descend t ld x).length = 2 ^ t := by
  induction t generalizing ld x with
  | zero => rfl
  | succ t ih => rw [descend, List.length_append, ih, ih, Nat.pow_succ, Nat.mul_two]

theorem descend_add (t s ld : ℕ) (x : ℕ × ℕ) :
    descend (t + s) ld x = (descend t ld x).flatMap (descend s (ld - t)) := by
  induction t generalizing ld x with
  | zero => rw [Nat.zero_add, descend, List.flatMap_singleton, Nat.sub_zero]
  | succ t ih =>
      rw [Nat.succ_add, descend, descend, ih, ih, List.flatMap_append, Nat.sub_sub, Nat.add_comm 1 t]

theorem vectorAt_zero (r code : ℕ) : vectorAt 0 r code = [leafInt (r, code)] := rfl

theorem vectorAt_succ (ld r code : ℕ) :
    vectorAt (ld + 1) r code = vectorAt ld (leftChild ld (r, code)).1 (leftChild ld (r, code)).2 ++
      vectorAt ld (rightChild ld (r, code)).1 (rightChild ld (r, code)).2 := by
  rw [vectorAt, descend, List.map_append]
  rfl

theorem leftNorm_le (ld : ℕ) (x : ℕ × ℕ) : leftNorm ld x ≤ x.1 := segmentOf_le

theorem sphereCount_zero_right (ld : ℕ) : sphereCount ld 0 = 1 := by
  induction ld with
  | zero => rfl
  | succ ld ih => rw [sphereCount_succ, cum_succ, cum_zero, pairCount, ih]

theorem IsCode.digits_lt (h : IsCode (ld + 1) x) :
    digits ld x < sphereCount ld (leftNorm ld x) * sphereCount ld (x.1 - leftNorm ld x) :=
  sub_lt_count h

theorem IsCode.right_pos (h : IsCode (ld + 1) x) : 0 < sphereCount ld (x.1 - leftNorm ld x) :=
  Nat.pos_of_mul_pos_left (Nat.zero_lt_of_lt h.digits_lt)

theorem IsCode.leftChild (h : IsCode (ld + 1) x) : IsCode ld (leftChild ld x) :=
  Nat.div_lt_of_lt_mul (by
    rw [Nat.mul_comm]
    exact h.digits_lt)

theorem IsCode.rightChild (h : IsCode (ld + 1) x) : IsCode ld (rightChild ld x) :=
  Nat.mod_lt _ h.right_pos

theorem IsCode.of_mem_descend (h : IsCode (ld + t) x) (hy : y ∈ descend t (ld + t) x) : IsCode ld y := by
  induction t generalizing x with
  | zero =>
      rw [List.mem_singleton.mp hy]
      exact h
  | succ t ih =>
      rcases List.mem_append.mp hy with hy | hy
      · exact ih h.leftChild hy
      · exact ih h.rightChild hy

theorem le_of_mem_descend (hy : y ∈ descend t ld x) : y.1 ≤ x.1 := by
  induction t generalizing ld x with
  | zero => rw [List.mem_singleton.mp hy]
  | succ t ih =>
      rcases List.mem_append.mp hy with hy | hy
      · exact (ih hy).trans (leftNorm_le _ x)
      · exact (ih hy).trans (Nat.sub_le _ _)

theorem right_pos (ld : ℕ) (x : ℕ × ℕ) : 0 < sphereCount ld (x.1 - leftNorm ld x) := by
  rcases Nat.lt_or_ge x.2 (sphereCount (ld + 1) x.1) with hlt | hge
  · exact IsCode.right_pos hlt
  · have hlast : leftNorm ld x = x.1 := segmentOf_of_le hge
    rw [hlast, Nat.sub_self, sphereCount_zero_right]
    exact Nat.zero_lt_one

/-! A number that is not a code is taken to the left. -/

theorem rightChild_of_not (h : ¬ IsCode (ld + 1) x) : rightChild ld x = (0, 0) := by
  have hlast : leftNorm ld x = x.1 := segmentOf_of_le (Nat.le_of_not_lt h)
  rw [rightChild, hlast, Nat.sub_self, sphereCount_zero_right, Nat.mod_one]

theorem leftChild_of_not (h : ¬ IsCode (ld + 1) x) :
    (leftChild ld x).1 = x.1 ∧ ¬ IsCode ld (leftChild ld x) := by
  have hge : sphereCount (ld + 1) x.1 ≤ x.2 := Nat.le_of_not_lt h
  have hlast : leftNorm ld x = x.1 := segmentOf_of_le hge
  refine ⟨hlast, Nat.not_lt.mpr ?_⟩
  rw [sphereCount_succ, cum_succ, pairCount, Nat.sub_self, sphereCount_zero_right, Nat.mul_one] at hge
  rw [leftChild, digits, hlast, Nat.sub_self, sphereCount_zero_right, Nat.div_one]
  change sphereCount ld x.1 ≤ x.2 - cum (pairCount ld x.1) x.1
  omega

theorem eq_zero_of_mem_descend (hy : y ∈ descend t ld (0, 0)) : y = (0, 0) := by
  induction t generalizing ld with
  | zero => exact List.mem_singleton.mp hy
  | succ t ih =>
      have hnorm : leftNorm (ld - 1) (0, 0) = 0 := Nat.le_zero.mp (leftNorm_le _ _)
      have hdigits : digits (ld - 1) (0, 0) = 0 := Nat.zero_sub _
      have hleft : leftChild (ld - 1) (0, 0) = (0, 0) := by rw [leftChild, hnorm, hdigits, Nat.zero_div]
      have hright : rightChild (ld - 1) (0, 0) = (0, 0) := by
        rw [rightChild, hnorm, hdigits, Nat.zero_mod, Nat.sub_zero]
      rw [descend, hleft, hright] at hy
      rcases List.mem_append.mp hy with hy | hy <;> exact ih hy

/-- The leaves for a number that is not a code: all of the norm is in the first one. -/
theorem descend_of_not (h : ¬ IsCode (ld + t) x) :
    (∃ code, (x.1, code) ∈ descend t (ld + t) x) ∧ ∀ y ∈ descend t (ld + t) x, y.1 = x.1 ∨ y = (0, 0) := by
  induction t generalizing x with
  | zero => exact ⟨⟨x.2, List.mem_singleton.mpr rfl⟩, fun y hy ↦ .inl (by rw [List.mem_singleton.mp hy])⟩
  | succ t ih =>
      obtain ⟨hnorm, hleft⟩ := leftChild_of_not h
      obtain ⟨⟨code, hmem⟩, hall⟩ := ih hleft
      rw [hnorm] at hmem hall
      refine ⟨⟨code, List.mem_append_left _ hmem⟩, fun y hy ↦ ?_⟩
      rcases List.mem_append.mp hy with hy | hy
      · exact hall y hy
      · have hzero : rightChild (ld + (t + 1) - 1) x = (0, 0) := rightChild_of_not h
        rw [hzero] at hy
        exact .inr (eq_zero_of_mem_descend hy)

theorem cum_pairCount_one (ld r : ℕ) : cum (pairCount ld r) 1 = sphereCount ld r := by
  rw [cum_succ, cum_zero, Nat.zero_add, pairCount, sphereCount_zero_right, Nat.one_mul, Nat.sub_zero]

theorem rightChild_of_lt {r code : ℕ} (h : code < sphereCount ld r) : rightChild ld (r, code) = (r, code) := by
  have hnorm : leftNorm ld (r, code) = 0 :=
    segmentOf_eq (Nat.zero_le r) (Nat.zero_le code) fun _ ↦ by rwa [cum_pairCount_one]
  rw [rightChild, digits, hnorm, cum_zero, Nat.sub_zero]
  exact congrArg (r, ·) (Nat.mod_eq_of_lt h)

theorem sphereCount_le_succ (ld r : ℕ) : sphereCount ld r ≤ sphereCount (ld + 1) r := by
  rw [sphereCount_succ, ← cum_pairCount_one]
  exact Lib.cum_mono _ (by omega)

theorem sphereCount_mono {ld' r : ℕ} (h : ld ≤ ld') : sphereCount ld r ≤ sphereCount ld' r :=
  monotone_nat_of_le_succ (f := fun ld ↦ sphereCount ld r) (fun ld ↦ sphereCount_le_succ ld r) h

theorem getLast_descend_of_lt {r code : ℕ} (h : code < sphereCount ld r) (t : ℕ) :
    (descend t (ld + t) (r, code)).getLast? = some (r, code) := by
  induction t with
  | zero => rfl
  | succ t ih =>
      have hright : rightChild (ld + (t + 1) - 1) (r, code) = (r, code) :=
        rightChild_of_lt (h.trans_le (sphereCount_mono (by omega)))
      have hlevel : ld + (t + 1) - 1 = ld + t := rfl
      rw [descend, hright, hlevel, List.getLast?_append, ih]
      rfl

end Nodes

/-! ## The numbering -/

section Numbering

variable {ld r : ℕ}

theorem toNat_mul_self (x : ℤ) : (x * x).toNat = x.natAbs * x.natAbs := by
  rw [← Int.natAbs_mul_self, Int.toNat_natCast]

@[simp] theorem sqNorm_nil : sqNorm [] = 0 := rfl

@[simp] theorem sqNorm_cons (x : ℤ) (c : List ℤ) : sqNorm (x :: c) = x.natAbs * x.natAbs + sqNorm c := by
  rw [sqNorm, List.map_cons, List.sum_cons, toNat_mul_self]
  rfl

theorem sqNorm_append (c c' : List ℤ) : sqNorm (c ++ c') = sqNorm c + sqNorm c' := by
  rw [sqNorm, List.map_append, List.sum_append]
  rfl

theorem sqNorm_take_add_drop (n : ℕ) (c : List ℤ) : sqNorm (c.take n) + sqNorm (c.drop n) = sqNorm c := by
  rw [← sqNorm_append, List.take_append_drop]

theorem mem_sphere_one {c : List ℤ} : c ∈ sphere 1 r ↔ ∃ x, c = [x] ∧ x.natAbs * x.natAbs = r := by
  constructor
  · rintro ⟨hlen, hnorm⟩
    obtain ⟨x, rfl⟩ := List.length_eq_one_iff.mp hlen
    exact ⟨x, rfl, by rwa [sqNorm_cons, sqNorm_nil, Nat.add_zero] at hnorm⟩
  · rintro ⟨x, rfl, hx⟩
    exact ⟨rfl, by rwa [sqNorm_cons, sqNorm_nil, Nat.add_zero]⟩

/-- The components with a square: no sign for 0. -/
theorem leaf_numbers (r : ℕ) : Numbers (sphere 1 r) (sphereCount 0 r) (sphereCode 0) (vectorAt 0 r) where
  encode_lt := by
    intro c hc
    obtain ⟨x, rfl, rfl⟩ := mem_sphere_one.mp hc
    rw [sphereCode, sphereCount, Nat.sqrt_eq, if_pos rfl, List.headD_cons]
    split_ifs <;> omega
  decode_mem := by
    intro k hk
    rw [sphereCount] at hk
    rw [vectorAt_zero, leafInt]
    split_ifs at hk with hroot
    · refine mem_sphere_one.mpr ⟨_, rfl, ?_⟩
      split_ifs <;> simpa using hroot
    · refine mem_sphere_one.mpr ⟨_, rfl, ?_⟩
      split_ifs <;> simpa using hroot
    · omega
  decode_encode := by
    intro c hc
    obtain ⟨x, rfl, rfl⟩ := mem_sphere_one.mp hc
    rw [vectorAt_zero, leafInt, sphereCode, List.headD_cons, Nat.sqrt_eq]
    refine congrArg (fun x ↦ [x]) ?_
    by_cases hx : 0 ≤ x
    · rw [if_pos hx, if_pos rfl]
      omega
    · rw [if_neg hx, if_neg Nat.one_ne_zero]
      omega
  encode_decode := by
    intro k hk
    rw [vectorAt_zero, leafInt, sphereCode, List.headD_cons]
    by_cases hk0 : k = 0
    · rw [if_pos hk0, if_pos (Int.natCast_nonneg _), hk0]
    · have hroot : Nat.sqrt r ≠ 0 ∧ k < 2 := by
        rw [sphereCount] at hk
        split_ifs at hk <;> omega
      have hneg : ¬ (0 : ℤ) ≤ -(Nat.sqrt r : ℤ) := by omega
      rw [if_neg hk0, if_neg hneg]
      omega

def halves (ld a b : ℕ) : Set (List ℤ) :=
  {c | c.length = 2 ^ (ld + 1) ∧ sqNorm (c.take (2 ^ ld)) = a ∧ sqNorm (c.drop (2 ^ ld)) = b}

theorem sphere_eq_halves (ld r : ℕ) : sphere (2 ^ (ld + 1)) r = {c | ∃ a ≤ r, c ∈ halves ld a (r - a)} := by
  ext c
  constructor
  · rintro ⟨hlen, hnorm⟩
    have hsum := sqNorm_take_add_drop (2 ^ ld) c
    exact ⟨sqNorm (c.take (2 ^ ld)), by omega, hlen, rfl, by omega⟩
  · rintro ⟨a, ha, hlen, htake, hdrop⟩
    have hsum := sqNorm_take_add_drop (2 ^ ld) c
    exact ⟨hlen, by omega⟩

theorem halves_numbers {a b n m : ℕ} {encode encode' : List ℤ → ℕ} {decode decode' : ℕ → List ℤ}
    (ha : Numbers (sphere (2 ^ ld) a) n encode decode) (hb : Numbers (sphere (2 ^ ld) b) m encode' decode') :
    Numbers (halves ld a b) (n * m)
      (fun c ↦ encode (c.take (2 ^ ld)) * m + encode' (c.drop (2 ^ ld)))
      fun k ↦ decode (k / m) ++ decode' (k % m) := by
  have hlen : 2 ^ (ld + 1) = 2 ^ ld + 2 ^ ld := by rw [Nat.pow_succ, Nat.mul_two]
  refine (ha.prod hb).transport (f := fun c ↦ (c.take (2 ^ ld), c.drop (2 ^ ld))) (g := fun x ↦ x.1 ++ x.2)
    (fun c hc ↦ ?_) (fun x hx ↦ ?_) (fun c _ ↦ List.take_append_drop _ c) fun x hx ↦ ?_
  · obtain ⟨hc, htake, hdrop⟩ := hc
    exact ⟨⟨by rw [List.length_take, hc]; omega, htake⟩, ⟨by rw [List.length_drop, hc]; omega, hdrop⟩⟩
  · obtain ⟨⟨hlen₁, hnorm₁⟩, hlen₂, hnorm₂⟩ := hx
    refine ⟨by rw [List.length_append, hlen₁, hlen₂, hlen], ?_, ?_⟩
    · rwa [List.take_left' hlen₁]
    · rwa [List.drop_left' hlen₁]
  · obtain ⟨⟨hlen₁, -⟩, -⟩ := hx
    exact Prod.ext (List.take_left' hlen₁) (List.drop_left' hlen₁)

/-- The integer vectors on a sphere are numbered. -/
theorem sphere_numbers (ld r : ℕ) :
    Numbers (sphere (2 ^ ld) r) (sphereCount ld r) (sphereCode ld) (vectorAt ld r) := by
  induction ld generalizing r with
  | zero => exact leaf_numbers r
  | succ ld ih =>
      have hindex : ∀ a ≤ r, ∀ c ∈ halves ld a (r - a), sqNorm (c.take (2 ^ ld)) = a := fun a _ c hc ↦ hc.2.1
      have hhalves : ∀ a ≤ r, Numbers (halves ld a (r - a)) (pairCount ld r a) _ _ := fun a _ ↦
        halves_numbers (ih a) (ih (r - a))
      have hsegments := Numbers.segments hhalves hindex
      rw [← sphere_eq_halves] at hsegments
      refine hsegments.congr (fun c hc ↦ ?_) fun k _ ↦ vectorAt_succ ld r k
      have hsum := sqNorm_take_add_drop (2 ^ ld) c
      have hr : sqNorm c = r := hc.2
      have hdrop : r - sqNorm (c.take (2 ^ ld)) = sqNorm (c.drop (2 ^ ld)) := by omega
      rw [sphereCode, hsum, hr, hdrop]

theorem ncard_sphere (ld r : ℕ) : (sphere (2 ^ ld) r).ncard = sphereCount ld r := (sphere_numbers ld r).ncard_eq

theorem sphereCount_pos (hld : 2 ≤ ld) (r : ℕ) : 0 < sphereCount ld r := by
  obtain ⟨a, b, c, d, hsum⟩ := Nat.sum_four_squares r
  have hmem : ([a, b, c, d] : List ℤ) ∈ sphere (2 ^ 2) r := by
    refine ⟨rfl, ?_⟩
    simp only [sqNorm_cons, sqNorm_nil, Int.natAbs_natCast]
    rw [← hsum]
    ring
  have hpos : 0 < sphereCount 2 r := Nat.zero_lt_of_lt ((sphere_numbers 2 r).encode_lt _ hmem)
  exact hpos.trans_le (sphereCount_mono hld)

theorem sphereCode_segment {c : List ℤ} (hc : c ∈ sphere (2 ^ (ld + 1)) r) :
    cum (pairCount ld r) (sqNorm (c.take (2 ^ ld))) ≤ sphereCode (ld + 1) c ∧
      sphereCode (ld + 1) c < cum (pairCount ld r) (sqNorm (c.take (2 ^ ld)) + 1) := by
  have hsum := sqNorm_take_add_drop (2 ^ ld) c
  have hr : sqNorm c = r := hc.2
  have hdrop : sqNorm (c.drop (2 ^ ld)) = r - sqNorm (c.take (2 ^ ld)) := by omega
  have hlt := (halves_numbers (sphere_numbers ld _) (sphere_numbers ld _)).encode_lt c ⟨hc.1, rfl, rfl⟩
  rw [cum_succ, pairCount, ← hdrop, sphereCode, hsum, hr]
  exact ⟨Nat.le_add_right _ _, Nat.add_lt_add_left hlt _⟩

/-- The vectors whose second half has at most norm `b` have the last numbers. -/
theorem ncard_right_le {b : ℕ} (hb : b ≤ r) :
    {c ∈ sphere (2 ^ (ld + 1)) r | sqNorm (c.drop (2 ^ ld)) ≤ b}.ncard =
      sphereCount (ld + 1) r - cum (pairCount ld r) (r - b) := by
  rw [← (sphere_numbers (ld + 1) r).ncard_le_encode]
  congr 1
  ext c
  refine and_congr_right fun hc ↦ ?_
  have hsum := sqNorm_take_add_drop (2 ^ ld) c
  have hr : sqNorm c = r := hc.2
  obtain ⟨hle, hlt⟩ := sphereCode_segment hc
  constructor
  · intro hb'
    have hmono : cum (pairCount ld r) (r - b) ≤ cum (pairCount ld r) (sqNorm (c.take (2 ^ ld))) :=
      Lib.cum_mono _ (by omega)
    exact hmono.trans hle
  · intro hge
    by_contra hb'
    have hmono : cum (pairCount ld r) (sqNorm (c.take (2 ^ ld)) + 1) ≤ cum (pairCount ld r) (r - b) :=
      Lib.cum_mono _ (by omega)
    omega

end Numbering

end FaissNavix.Spheres
