import FaissNavix.Lib.Loop
import Mathlib.Data.Int.ModEq
import Mathlib.Data.List.Sort
import Mathlib.Tactic.NormNum

/-!
# Random ids without repetitions

`gen_random` of `faiss/impl/NNDescent.cpp`: so many draws below `N - size`, sorted and made strictly
increasing, and a random rotation modulo `N`.  The modulus is an `int` that becomes an unsigned number of
64 bits, and a division by zero or a signed overflow leaves no result.
-/

namespace FaissNavix

section
variable (rng : ℕ → UInt32) {l : List ℤ}

/-- The sum of two `int`s. -/
def addInt (a b : ℤ) : Option ℤ :=
  if -2 ^ 31 ≤ a + b ∧ a + b < 2 ^ 31 then some (a + b) else none

/-- The modulus `N - size`, as the unsigned number that the draws are divided by. -/
def drawModulus (size N : ℕ) : ℕ :=
  if size ≤ N then N - size else 2 ^ 64 - (size - N)

/-- The loop that makes the entries strictly increasing, behind the entry `prev`. -/
def increasing (prev : ℤ) : List ℤ → Option (List ℤ)
  | [] => some []
  | a :: rest => do
      let a ← (if a ≤ prev then addInt prev 1 else some a)
      let rest ← increasing a rest
      pure (a :: rest)

def spread : List ℤ → Option (List ℤ)
  | [] => some []
  | a :: rest => (increasing a rest).map (a :: ·)

/-- `gen_random`, where `rng` are the draws. -/
def genRandom (size N : ℕ) : Option (List ℤ) :=
  if drawModulus size N = 0 then none
  else do
    let addr := (List.range size).map fun i ↦
      Int.bmod (((rng i).toNat % drawModulus size N : ℕ) : ℤ) (2 ^ 32)
    let addr ← spread (addr.insertionSort (· ≤ ·))
    let off := (((rng size).toNat % N : ℕ) : ℤ)
    addr.mapM fun x ↦ (addInt x off).map fun y ↦ y.tmod N

/-! ## With room -/

theorem addInt_eq {a b : ℤ} (h0 : -2 ^ 31 ≤ a + b) (h1 : a + b < 2 ^ 31) : addInt a b = some (a + b) :=
  if_pos ⟨h0, h1⟩

/-- The entries become strictly increasing, and no larger than their number allows. -/
theorem increasing_spec {prev B : ℤ} (hl : ∀ a ∈ l, a ≤ B) (h0 : 0 ≤ prev) (hB : prev ≤ B)
    (hint : B + l.length < 2 ^ 31) :
    ∃ r, increasing prev l = some r ∧ r.length = l.length ∧ (prev :: r).Pairwise (· < ·) ∧
      ∀ x ∈ r, x ≤ B + l.length := by
  induction l generalizing prev B with
  | nil => exact ⟨[], rfl, rfl, List.pairwise_singleton _ _, fun x hx ↦ absurd hx List.not_mem_nil⟩
  | cons a l ih =>
      rw [List.length_cons, Nat.cast_succ] at hint
      have ha := hl a List.mem_cons_self
      obtain ⟨b, hb, hlt, hle⟩ : ∃ b, (if a ≤ prev then addInt prev 1 else some a) = some b ∧
          prev < b ∧ b ≤ B + 1 := by
        by_cases hap : a ≤ prev
        · rw [if_pos hap, addInt_eq (by omega) (by omega)]
          exact ⟨_, rfl, by omega, by omega⟩
        · rw [if_neg hap]
          exact ⟨_, rfl, by omega, by omega⟩
      obtain ⟨r, hr, hlen, hpair, hbound⟩ := @ih b (B + 1)
        (fun x hx ↦ (hl x (List.mem_cons_of_mem _ hx)).trans (by omega)) (by omega) hle (by omega)
      have hrest : ∀ x ∈ r, b < x := (List.pairwise_cons.mp hpair).1
      refine ⟨b :: r, ?_, by rw [List.length_cons, hlen, List.length_cons], ?_, fun x hx ↦ ?_⟩
      · rw [increasing, hb, Option.bind_eq_bind, Option.bind_some, hr]
        rfl
      · refine List.pairwise_cons.mpr ⟨fun x hx ↦ ?_, hpair⟩
        rcases List.mem_cons.mp hx with rfl | hx
        · exact hlt
        · exact hlt.trans (hrest x hx)
      · rw [List.length_cons, Nat.cast_succ]
        rcases List.mem_cons.mp hx with rfl | hx
        · omega
        · have := hbound x hx
          omega

theorem rotate_nodup {N : ℕ} {off : ℤ} (hl : l.Nodup)
    (hlt : ∀ a ∈ l, 0 ≤ a ∧ a < N) : (l.map fun a ↦ (a + off) % (N : ℤ)).Nodup := by
  refine List.Nodup.map_on (fun a ha b hb hab ↦ ?_) hl
  have hmod : a % (N : ℤ) = b % (N : ℤ) := (Int.ModEq.add_right_cancel' off hab :)
  rwa [Int.emod_eq_of_lt (hlt a ha).1 (hlt a ha).2, Int.emod_eq_of_lt (hlt b hb).1 (hlt b hb).2] at hmod

theorem mapM_rotate {off : ℤ} {N : ℕ} (h : ∀ a ∈ l, 0 ≤ a ∧ a + off < 2 ^ 31)
    (hoff : 0 ≤ off) :
    l.mapM (fun x ↦ (addInt x off).map fun y ↦ y.tmod N) = some (l.map fun x ↦ (x + off) % (N : ℤ)) := by
  refine Lib.mapM_eq_some_map fun x hx ↦ ?_
  obtain ⟨h0, h1⟩ := h x hx
  rw [addInt_eq (by omega) h1, Option.map_some, Int.tmod_eq_emod_of_nonneg (by omega)]

theorem spread_spec {B : ℤ} (hl : ∀ a ∈ l, 0 ≤ a ∧ a ≤ B)
    (hint : B + l.length ≤ 2 ^ 31) :
    ∃ r, spread l = some r ∧ r.length = l.length ∧ r.Nodup ∧
      ∀ x ∈ r, 0 ≤ x ∧ x ≤ B + l.length - 1 := by
  cases l with
  | nil => exact ⟨[], rfl, rfl, List.nodup_nil, fun x hx ↦ absurd hx List.not_mem_nil⟩
  | cons a l =>
      rw [List.length_cons, Nat.cast_succ] at hint ⊢
      obtain ⟨ha0, haB⟩ := hl a List.mem_cons_self
      obtain ⟨r, hr, hlen, hpair, hbound⟩ := increasing_spec
        (fun x hx ↦ (hl x (List.mem_cons_of_mem _ hx)).2) ha0 haB (by omega)
      refine ⟨a :: r, by rw [spread, hr]; rfl, by rw [List.length_cons, hlen],
        hpair.imp fun h ↦ ne_of_lt h, fun x hx ↦ ?_⟩
      rcases List.mem_cons.mp hx with rfl | hx
      · omega
      · have h1 := (List.pairwise_cons.mp hpair).1 x hx
        have h2 := hbound x hx
        omega

/-- With fewer ids than there are vertices, `gen_random` gives different vertices. -/
theorem genRandom_spec {size N : ℕ} (hsize : size < N) (hN : N ≤ 2 ^ 30 + 1) :
    ∃ ids, genRandom rng size N = some ids ∧ ids.length = size ∧ ids.Nodup ∧
      ∀ v ∈ ids, 0 ≤ v ∧ v < (N : ℤ) := by
  have hmod : drawModulus size N = N - size := if_pos hsize.le
  have hsorted := List.perm_insertionSort (· ≤ ·) ((List.range size).map fun i ↦
    Int.bmod (((rng i).toNat % drawModulus size N : ℕ) : ℤ) (2 ^ 32))
  unfold genRandom
  rw [if_neg (by omega)]
  dsimp only
  generalize List.insertionSort (· ≤ ·) ((List.range size).map fun i ↦
    Int.bmod (((rng i).toNat % drawModulus size N : ℕ) : ℤ) (2 ^ 32)) = l at hsorted
  have hlen : l.length = size := by rw [hsorted.length_eq, List.length_map, List.length_range]
  have hmem : ∀ a ∈ l, 0 ≤ a ∧ a ≤ ((N - size - 1 : ℕ) : ℤ) := by
    intro a ha
    obtain ⟨i, -, rfl⟩ := List.mem_map.mp (hsorted.mem_iff.mp ha)
    have hlt : (rng i).toNat % (N - size) < N - size := Nat.mod_lt _ (by omega)
    rw [hmod, Int.bmod_eq_of_le (by omega) (by omega)]
    omega
  obtain ⟨r, hr, hrlen, hrnd, hrange⟩ := spread_spec hmem (by omega)
  have hlast : ∀ x ∈ r, 0 ≤ x ∧ x ≤ (N : ℤ) - 2 := fun x hx ↦ by
    have := hrange x hx
    omega
  have hoff : (rng size).toNat % N < N := Nat.mod_lt _ (by omega)
  refine ⟨r.map fun x ↦ (x + (((rng size).toNat % N : ℕ) : ℤ)) % (N : ℤ), ?_, ?_, ?_, fun v hv ↦ ?_⟩
  · rw [hr, Option.bind_eq_bind, Option.bind_some]
    exact mapM_rotate (fun x hx ↦ by have := hlast x hx; omega) (by omega)
  · rw [List.length_map, hrlen, hlen]
  · exact rotate_nodup hrnd fun x hx ↦ by have := hlast x hx; omega
  · obtain ⟨x, -, rfl⟩ := List.mem_map.mp hv
    exact ⟨Int.emod_nonneg _ (by omega), Int.emod_lt_of_pos _ (by omega)⟩

/-! ## Without room -/

theorem increasing_replicate {m : ℕ} {a prev : ℤ} (ha : a ≤ prev) (h0 : -2 ^ 31 ≤ prev)
    (hint : prev + m < 2 ^ 31) :
    increasing prev (List.replicate m a) = some ((List.range m).map fun i : ℕ ↦ prev + 1 + (i : ℤ)) := by
  induction m generalizing prev with
  | zero => rfl
  | succ m ih =>
      rw [Nat.cast_succ] at hint
      rw [List.replicate_succ, increasing, if_pos ha, addInt_eq (by omega) (by omega),
        Option.bind_eq_bind, Option.bind_some, ih (by omega) (by omega) (by omega), Option.bind_eq_bind,
        Option.bind_some, Option.pure_def, List.range_succ_eq_map, List.map_cons, List.map_map]
      refine congrArg some (List.cons_eq_cons.mpr ⟨by simp, List.map_congr_left fun i _ ↦ ?_⟩)
      rw [Function.comp_apply, Nat.cast_succ]
      omega

/-- The same draw, again and again, and then another one. -/
def sameDraws (size : ℕ) (c off : UInt32) : ℕ → UInt32 :=
  fun t ↦ if t < size then c else off

theorem genRandom_sameDraws {size N : ℕ} {c off : UInt32} {v : ℤ} (hsize : 1 ≤ size)
    (hmod : drawModulus size N ≠ 0)
    (hv : Int.bmod ((c.toNat % drawModulus size N : ℕ) : ℤ) (2 ^ 32) = v) (h0 : -2 ^ 31 ≤ v)
    (hint : v + size ≤ 2 ^ 31) :
    genRandom (sameDraws size c off) size N =
      ((List.range size).map fun i : ℕ ↦ v + (i : ℤ)).mapM fun x ↦
        (addInt x ((off.toNat % N : ℕ) : ℤ)).map fun y ↦ y.tmod N := by
  have hdraws : ((List.range size).map fun i ↦
      Int.bmod (((sameDraws size c off i).toNat % drawModulus size N : ℕ) : ℤ) (2 ^ 32)) =
      List.replicate size v := by
    rw [← @List.length_range size, ← List.map_const', List.length_range]
    refine List.map_congr_left fun i hi ↦ ?_
    rw [sameDraws, if_pos (List.mem_range.mp hi), hv]
  have hsort : (List.replicate size v).insertionSort (· ≤ ·) = List.replicate size v :=
    List.perm_replicate.mp (List.perm_insertionSort _ _)
  obtain ⟨m, rfl⟩ : ∃ m, size = m + 1 := ⟨size - 1, by omega⟩
  rw [Nat.cast_succ] at hint
  have hspread : spread (List.replicate (m + 1) v) =
      some ((List.range (m + 1)).map fun i : ℕ ↦ v + (i : ℤ)) := by
    rw [List.replicate_succ, spread, increasing_replicate le_rfl h0 (by omega), List.range_succ_eq_map,
      List.map_cons, List.map_map, Option.map_some]
    refine congrArg some (List.cons_eq_cons.mpr ⟨by simp, List.map_congr_left fun i _ ↦ ?_⟩)
    rw [Function.comp_apply, Nat.cast_succ]
    omega
  have hoff : sameDraws (m + 1) c off (m + 1) = off := if_neg (Nat.lt_irrefl _)
  rw [genRandom, if_neg hmod]
  dsimp only
  rw [hdraws, hsort, hspread, Option.bind_eq_bind, Option.bind_some, hoff]

theorem genRandom_self (N : ℕ) : genRandom rng N N = none :=
  if_pos (by rw [drawModulus, if_pos le_rfl, Nat.sub_self])

end

/-- With more, some draws give a negative id. -/
theorem genRandom_of_gt {size N : ℕ} (hN : 2 ≤ N) (hsize : N < size) (hint : size < 2 ^ 31)
    {ids : List ℤ} (h : genRandom (sameDraws size 0xffffffff 0) size N = some ids) : -1 ∈ ids := by
  have hmod : drawModulus size N = 2 ^ 64 - (size - N) := if_neg (by omega)
  have hv : Int.bmod (((0xffffffff : UInt32).toNat % drawModulus size N : ℕ) : ℤ) (2 ^ 32) = -1 := by
    have hc : (0xffffffff : UInt32).toNat = 2 ^ 32 - 1 := rfl
    rw [hmod, hc, Nat.mod_eq_of_lt (by omega)]
    decide
  rw [genRandom_sameDraws (by omega) (by rw [hmod]; omega) hv (by norm_num) (by omega)] at h
  have hzero : (0 : UInt32).toNat % N = 0 := Nat.zero_mod N
  obtain ⟨m, rfl⟩ : ∃ m, size = m + 1 := ⟨size - 1, by omega⟩
  rw [hzero, List.range_succ_eq_map, List.map_cons, List.mapM_cons, addInt_eq (by norm_num) (by norm_num),
    Option.map_some, Option.bind_eq_bind, Option.bind_some] at h
  obtain ⟨rest, -, hids⟩ := Option.bind_eq_some_iff.mp h
  rw [Option.pure_def, Option.some_inj] at hids
  rw [← hids]
  refine List.mem_cons.mpr (.inl ?_)
  have htmod : ((-1 : ℤ) + (0 : ℕ) + (0 : ℕ)).tmod N = -(Int.tmod 1 N) := by
    rw [← Int.neg_tmod]
    rfl
  rw [htmod, Int.tmod_eq_of_lt (by norm_num) (by omega)]

theorem genRandom_of_large {size N : ℕ} (hsize : 1 ≤ size) (hlt : size < N) (hN : 2 ^ 30 + 1 < N)
    (hint : N < 2 ^ 31) :
    genRandom (sameDraws size (UInt32.ofNat (N - size - 1)) (UInt32.ofNat (N - 1))) size N = none := by
  have hmod : drawModulus size N = N - size := if_pos hlt.le
  have hc : (UInt32.ofNat (N - size - 1)).toNat = N - size - 1 := by
    rw [UInt32.toNat_ofNat', Nat.mod_eq_of_lt (by omega)]
  have hoff : (UInt32.ofNat (N - 1)).toNat % N = N - 1 := by
    rw [UInt32.toNat_ofNat', Nat.mod_eq_of_lt (by omega), Nat.mod_eq_of_lt (by omega)]
  have hv : Int.bmod (((UInt32.ofNat (N - size - 1)).toNat % drawModulus size N : ℕ) : ℤ) (2 ^ 32) =
      ((N - size - 1 : ℕ) : ℤ) := by
    rw [hmod, hc, Nat.mod_eq_of_lt (by omega), Int.bmod_eq_of_le (by omega) (by omega)]
  rw [genRandom_sameDraws hsize (by omega) hv (by omega) (by omega), hoff]
  refine @Lib.mapM_eq_none _ _ _ _ ((N - size - 1 : ℕ) + ((size - 1 : ℕ) : ℤ)) ?_ ?_
  · exact List.mem_map.mpr ⟨size - 1, List.mem_range.mpr (by omega), rfl⟩
  · rw [addInt, if_neg (by omega)]
    rfl

end FaissNavix
