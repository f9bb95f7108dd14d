import FaissNavix.AutoTune.OperatingPoints
import FaissNavix.HNSW.AddOrder

/-!
# Exploring a parameter space

`ParameterSpace` of `faiss/AutoTune.cpp` numbers the combinations of parameter values, and `explore`
measures them: all of them, or, in a random order, those that the measurements so far do not rule out.

A measurement is what `set_index_parameters`, the searches and the criterion make of a combination:
a performance and a time.
-/

namespace FaissNavix

open OperatingPoints (Collects)

/-- `ParameterRange` -/
structure ParameterRange where
  name : List Char
  values : List ℚ

/-- `ParameterSpace`, as far as `explore` reads it. -/
structure ParameterSpace where
  parameterRanges : List ParameterRange
  verbose : Bool
  /-- `int n_experiments`: 0 to try all combinations. -/
  nExperiments : Int32

/-- The performance and the time that are measured with a combination. -/
structure Measurement where
  perf : ℕ → ℚ
  t : ℕ → ℚ

/-- An `int` that is compared with a `size_t`. -/
def sizeOfInt (x : Int32) : ℕ := (x.toInt % 2 ^ 64).toNat

namespace ParameterSpace

/-- `n_combinations` -/
def nCombinations (space : ParameterSpace) : ℕ :=
  space.parameterRanges.foldl (fun n pr ↦ n * pr.values.length % 2 ^ 64) 1

/-! ## The order of combinations -/

/-- The loop of `combination_ge`. -/
def tupleGe : List ParameterRange → ℕ → ℕ → Bool
  | [], _, _ => true
  | pr :: prs, c1, c2 =>
      let nval := sizeOfInt (Int32.ofNat pr.values.length)
      let j1 := c1 % nval
      let j2 := c2 % nval
      if ¬ j2 ≤ j1 then false else tupleGe prs (c1 / nval) (c2 / nval)

/-- `combination_ge` -/
def combinationGe (space : ParameterSpace) (c1 c2 : ℕ) : Bool := tupleGe space.parameterRanges c1 c2

/-! ## The name of a combination -/

/-- What `combination_name` has written, where `wp` points in `buf`, and what is left of `cno`. -/
structure NameBuffer where
  text : List Char := []
  wp : ℕ := 0
  cno : ℕ

variable (printG : ℚ → List Char)

/-- What is printed for a range with `"%s%s=%g"`. -/
def rangeText (i : ℕ) (pr : ParameterRange) (cno : ℕ) : List Char :=
  (if i = 0 then [] else [',']) ++ pr.name ++ ['='] ++ printG (pr.values.getD (cno % pr.values.length) 0)

/-- The loop of `combination_name`.  `snprintf` writes no more than there is room for, and returns
the length of all the text. -/
def writeRanges : ℕ → List ParameterRange → NameBuffer → Except Fault NameBuffer
  | _, [], b => .ok b
  | i, pr :: prs, b => do
      Fault.throwIfNotMsg (decide (b.wp ≤ 1000)) "buf + 1000 - wp >= 0" "Overflow detected in snprintf"
      let text := rangeText printG i pr b.cno
      writeRanges (i + 1) prs ⟨b.text ++ text.take (1000 - b.wp - 1), b.wp + text.length,
        b.cno / pr.values.length⟩

/-- `combination_name` -/
def combinationName (space : ParameterSpace) (cno : ℕ) : Except Fault (List Char) := do
  let b ← writeRanges printG 0 space.parameterRanges { cno }
  return b.text

/-- The text of each range starts within the buffer, or right after it. -/
def FitsFrom : ℕ → List ParameterRange → ℕ → ℕ → Prop
  | _, [], _, _ => True
  | i, pr :: prs, wp, cno =>
      wp ≤ 1000 ∧ FitsFrom (i + 1) prs (wp + (rangeText printG i pr cno).length) (cno / pr.values.length)

/-- The name of a combination fits the buffer, unless its last range does not. -/
def NameFits (space : ParameterSpace) (cno : ℕ) : Prop :=
  FitsFrom printG 0 space.parameterRanges 0 cno

theorem exists_writeRanges_iff {i : ℕ} {prs : List ParameterRange} {b : NameBuffer} :
    (∃ r, writeRanges printG i prs b = .ok r) ↔ FitsFrom printG i prs b.wp b.cno := by
  induction prs generalizing i b with
  | nil => exact iff_of_true ⟨b, rfl⟩ trivial
  | cons pr prs ih =>
      rw [writeRanges, FitsFrom, ← ih (b := ⟨b.text ++ (rangeText printG i pr b.cno).take
        (1000 - b.wp - 1), b.wp + (rangeText printG i pr b.cno).length, b.cno / pr.values.length⟩)]
      constructor
      · rintro ⟨r, hr⟩
        obtain ⟨_, hroom, hr⟩ := Fault.bind_eq_ok.mp hr
        exact ⟨of_decide_eq_true (Fault.throwIfNotMsg_eq_ok.mp hroom), r, hr⟩
      · rintro ⟨hroom, r, hr⟩
        rw [decide_eq_true hroom]
        exact ⟨r, hr⟩

theorem exists_combinationName_iff {space : ParameterSpace} {cno : ℕ} :
    (∃ name, space.combinationName printG cno = .ok name) ↔ space.NameFits printG cno := by
  rw [NameFits, ← exists_writeRanges_iff printG (b := { cno })]
  constructor
  · rintro ⟨name, h⟩
    obtain ⟨r, hr, -⟩ := Fault.bind_eq_ok.mp h
    exact ⟨r, hr⟩
  · rintro ⟨r, hr⟩
    exact ⟨r.text, by rw [combinationName, hr]; rfl⟩

/-! ## Exploring -/

/-- `update_bounds`: the upper bound on the performance, and the lower bound on the time. -/
def updateBounds (space : ParameterSpace) (cno : ℕ) (bounds : ℚ × ℚ) (op : OperatingPoint) : ℚ × ℚ :=
  let opCno := (op.cno % 2 ^ 64).toNat
  let lowerBoundT :=
    if space.combinationGe cno opCno then if bounds.2 < op.t then op.t else bounds.2 else bounds.2
  let upperBoundPerf :=
    if space.combinationGe opCno cno then if op.perf < bounds.1 then op.perf else bounds.1
    else bounds.1
  (upperBoundPerf, lowerBoundT)

def boundsOf (space : ParameterSpace) (cno : ℕ) (pts : List OperatingPoint) : ℚ × ℚ :=
  pts.foldl (space.updateBounds cno) (1, 0)

/-- The name that is printed, if anything is. -/
def printName (space : ParameterSpace) (cno : ℕ) : Except Fault (List Char) :=
  if space.verbose then space.combinationName printG cno else .ok []

variable (m : Measurement)

variable (mt : ℕ → ℕ) (space : ParameterSpace)

/-- A turn of the loop over all the combinations. -/
def measure (ops : OperatingPoints) (cno : ℕ) :
    Except Fault OperatingPoints := do
  let name ← space.combinationName printG cno
  let r ← ops.add (m.perf cno) (m.t cno) name cno
  let _ ← space.printName printG cno
  return r.1

/-- A turn of the loop over the permutation. -/
def experiment (ops : OperatingPoints) (cno : ℕ) :
    Except Fault OperatingPoints := do
  let _ ← space.printName printG cno
  let bounds := space.boundsOf cno ops.allPts
  let bestT := ops.tForPerf bounds.1
  if bestT ≤ bounds.2 then return ops
  else do
    let name ← space.combinationName printG cno
    let r ← ops.add (m.perf cno) (m.t cno) name cno
    return r.1

/-- `rand_perm`, with the numbers that the generator draws. -/
def randPerm (n : ℕ) : List ℕ :=
  (List.range (n - 1)).foldl (fun perm i ↦ swapEntries perm i (i + mt i % (n - i))) (List.range n)

/-- `perm`: the slowest and the fastest experiment come first. -/
def perm (nComb : ℕ) : List ℕ :=
  if 1 < nComb then 0 :: (nComb - 1) :: (randPerm mt (nComb - 2)).map (· + 1)
  else List.replicate nComb 0

/-- `explore` of `nq` queries, with a criterion for `critNq`. -/
def explore (nq critNq : ℕ) (ops : OperatingPoints) :
    Except Fault OperatingPoints := do
  Fault.throwIfNotMsg (decide (nq = critNq)) "nq == crit.nq"
    "criterion does not have the same nb of queries"
  let nComb := space.nCombinations
  if space.nExperiments = 0 then
    (List.range nComb).foldlM (space.measure printG m) ops
  else do
    let nExp := if nComb < sizeOfInt space.nExperiments then Int32.ofNat nComb else space.nExperiments
    Fault.throwIfNot (decide (nComb = 1) || decide (2 < nExp)) "n_comb == 1 || n_exp > 2"
    ((perm mt nComb).take (sizeOfInt nExp)).foldlM (space.experiment printG m) ops

end ParameterSpace

end FaissNavix

/-!
# Combinations of parameter values

`combination_ge` compares the digits of two numbers, which makes it a preorder, with 0 at the bottom
(`tupleGe_zero`).  If the combinations can be counted, the last of them is at the top
(`ParameterSpace.combinationGe_last`).
-/

namespace FaissNavix

theorem sizeOfInt_ofNat {n : ℕ} (h : n < 2 ^ 31) : sizeOfInt (Int32.ofNat n) = n := by
  rw [sizeOfInt, Int32.toInt_ofNat_of_lt h]
  omega

namespace ParameterSpace

variable {space : ParameterSpace} {prs : List ParameterRange}

theorem tupleGe_zero (prs : List ParameterRange) (c : ℕ) : tupleGe prs c 0 = true := by
  induction prs generalizing c with
  | nil => rfl
  | cons pr prs ih =>
      rw [tupleGe]
      rw [Nat.zero_mod, Nat.zero_div, if_neg (not_not.mpr (Nat.zero_le _))]
      exact ih _

theorem tupleGe_trans {a b c : ℕ} (hab : tupleGe prs a b = true) (hbc : tupleGe prs b c = true) :
    tupleGe prs a c = true := by
  induction prs generalizing a b c with
  | nil => rfl
  | cons pr prs ih =>
      unfold tupleGe at hab hbc ⊢
      dsimp only at hab hbc ⊢
      split at hab
      · cases hab
      · rename_i hab'
        split at hbc
        · cases hbc
        · rename_i hbc'
          rw [if_neg (not_not.mpr ((not_not.mp hbc').trans (not_not.mp hab')))]
          exact ih hab hbc

def numCombinations (prs : List ParameterRange) : ℕ := (prs.map fun pr ↦ pr.values.length).prod

theorem numCombinations_cons (pr : ParameterRange) (prs : List ParameterRange) :
    numCombinations (pr :: prs) = pr.values.length * numCombinations prs := by
  rw [numCombinations, List.map_cons, List.prod_cons, numCombinations]

theorem one_le_numCombinations (h : ∀ pr ∈ prs, pr.values ≠ []) : 1 ≤ numCombinations prs := by
  induction prs with
  | nil => exact le_rfl
  | cons pr prs ih =>
      rw [numCombinations_cons]
      exact Nat.mul_pos (List.length_pos_iff.mpr (h pr List.mem_cons_self))
        (ih fun pr' hpr' ↦ h pr' (List.mem_cons_of_mem pr hpr'))

theorem tupleGe_last (h : ∀ pr ∈ prs, pr.values ≠ []) (hlt : numCombinations prs < 2 ^ 31) (c : ℕ) :
    tupleGe prs (numCombinations prs - 1) c = true := by
  induction prs generalizing c with
  | nil => rfl
  | cons pr prs ih =>
      have hprs : ∀ pr' ∈ prs, pr'.values ≠ [] := fun pr' hpr' ↦ h pr' (List.mem_cons_of_mem pr hpr')
      have hlen : 0 < pr.values.length := List.length_pos_iff.mpr (h pr List.mem_cons_self)
      have hrest := one_le_numCombinations hprs
      rw [numCombinations_cons] at hlt ⊢
      have hlenlt : pr.values.length < 2 ^ 31 := (Nat.le_mul_of_pos_right _ hrest).trans_lt hlt
      have hsplit : pr.values.length * numCombinations prs - 1 =
          (pr.values.length - 1) + pr.values.length * (numCombinations prs - 1) := by
        obtain ⟨r, hr⟩ := Nat.exists_eq_add_of_le' hrest
        rw [hr, Nat.mul_succ, Nat.add_sub_cancel]
        omega
      have hmod : (pr.values.length * numCombinations prs - 1) % pr.values.length =
          pr.values.length - 1 := by
        rw [hsplit, Nat.add_mul_mod_self_left, Nat.mod_eq_of_lt (by omega)]
      have hdiv : (pr.values.length * numCombinations prs - 1) / pr.values.length =
          numCombinations prs - 1 := by
        rw [hsplit, Nat.add_mul_div_left _ _ hlen, Nat.div_eq_of_lt (by omega), Nat.zero_add]
      have hc : c % pr.values.length ≤ pr.values.length - 1 := by
        have := Nat.mod_lt c hlen
        omega
      rw [tupleGe]
      rw [sizeOfInt_ofNat hlenlt, hmod, hdiv, if_neg (not_not.mpr hc)]
      exact ih hprs ((Nat.le_mul_of_pos_left _ hlen).trans_lt hlt) _

/-- `n_combinations` counts the combinations, if a `size_t` can. -/
theorem nCombinations_eq (h : ∀ pr ∈ space.parameterRanges, pr.values ≠ [])
    (hlt : numCombinations space.parameterRanges < 2 ^ 64) :
    space.nCombinations = numCombinations space.parameterRanges := by
  have hfold : ∀ (prs : List ParameterRange) (n : ℕ), (∀ pr ∈ prs, pr.values ≠ []) →
      n * numCombinations prs < 2 ^ 64 →
      prs.foldl (fun n pr ↦ n * pr.values.length % 2 ^ 64) n = n * numCombinations prs := by
    intro prs
    induction prs with
    | nil => exact fun n _ _ ↦ (Nat.mul_one n).symm
    | cons pr prs ih =>
        intro n hprs hn
        have hrest : ∀ pr' ∈ prs, pr'.values ≠ [] :=
          fun pr' hpr' ↦ hprs pr' (List.mem_cons_of_mem pr hpr')
        rw [numCombinations_cons, ← Nat.mul_assoc] at hn ⊢
        have hstep : n * pr.values.length < 2 ^ 64 :=
          (Nat.le_mul_of_pos_right _ (one_le_numCombinations hrest)).trans_lt hn
        rw [List.foldl_cons, Nat.mod_eq_of_lt hstep]
        exact ih _ hrest hn
  have := hfold space.parameterRanges 1 h (by rwa [Nat.one_mul])
  rwa [Nat.one_mul] at this

theorem combinationGe_last (h : ∀ pr ∈ space.parameterRanges, pr.values ≠ [])
    (hfits : numCombinations space.parameterRanges < 2 ^ 64) (hlt : space.nCombinations < 2 ^ 31)
    (c : ℕ) : space.combinationGe (space.nCombinations - 1) c = true := by
  rw [nCombinations_eq h hfits] at hlt ⊢
  exact tupleGe_last h hlt c

/-! ## The order of the experiments -/

theorem randPerm_perm (mt : ℕ → ℕ) (n : ℕ) : (randPerm mt n).Perm (List.range n) := by
  have hfold : ∀ (js xs : List ℕ), (∀ j ∈ js, j < n) → xs.length = n →
      (js.foldl (fun perm i ↦ swapEntries perm i (i + mt i % (n - i))) xs).Perm xs := by
    intro js
    induction js with
    | nil => exact fun xs _ _ ↦ List.Perm.refl xs
    | cons j js ih =>
        intro xs hjs hxs
        have hj := hjs j List.mem_cons_self
        have hmod : mt j % (n - j) < n - j := Nat.mod_lt _ (by omega)
        refine (ih (swapEntries xs j (j + mt j % (n - j)))
          (fun i hi ↦ hjs i (List.mem_cons_of_mem j hi)) ?_).trans ?_
        · rw [swapEntries, List.length_set, List.length_set, hxs]
        · rw [swapEntries, List.getD_eq_getElem _ _ (by omega : j + mt j % (n - j) < xs.length),
            List.getD_eq_getElem _ _ (by omega : j < xs.length)]
          exact List.set_set_perm _ _
  refine hfold _ _ (fun j hj ↦ ?_) List.length_range
  have := List.mem_range.mp hj
  omega

theorem perm_perm (mt : ℕ → ℕ) {n : ℕ} (hn : 1 ≤ n) : (perm mt n).Perm (List.range n) := by
  unfold perm
  by_cases h : 1 < n
  · obtain ⟨m, rfl⟩ := Nat.exists_eq_add_of_le' h
    rw [if_pos h]
    change (0 :: (m + 1) :: (randPerm mt m).map (· + 1)).Perm _
    rw [List.range_succ_eq_map, List.range_succ, List.map_append, List.map_singleton]
    exact List.Perm.cons 0 ((((randPerm_perm mt m).map _).cons _).trans
      (List.perm_append_singleton _ _).symm)
  · obtain rfl : n = 1 := by omega
    exact List.Perm.refl _

end ParameterSpace

end FaissNavix
