import FaissNavix.Invlists.InvertedLists
import FaissNavix.Lib.Partition

/-!
# Copying a part of the inverted lists

`copy_subset_to` adds the entries of one part of the lists to another object, and counts them.
What it takes of a list is written here as a function of that list, of its number and of the
entries before it: `picked`.
-/

namespace FaissNavix

/-- `subset_type_t` -/
inductive SubsetType where
  | idRange
  | idMod
  | elementRange
  | invlistFraction
  | invlist
deriving DecidableEq, Repr

/-- The variables of `copy_subset_to`. -/
structure SubsetState where
  accuN : UInt64
  accuA1 : UInt64
  accuA2 : UInt64
  nAdded : UInt64
  oivf : ArrayInvertedLists

namespace SubsetState

/-- An entry is added to list `j` and counted. -/
def addEntry (s : SubsetState) (j : ℕ) (e : Entry) : SubsetState :=
  { s with nAdded := s.nAdded + 1, oivf := s.oivf.addEntry j e }

end SubsetState

namespace InvertedLists

variable (il : InvertedLists)

/-- The loop `for (idx_t i = i1; i < i2; i++)` of the modes that take an interval of a list. -/
def copyRange (j : ℕ) (i1 i2 : UInt64) (oivf : ArrayInvertedLists) :
    Except Fault ArrayInvertedLists :=
  (List.range' i1.toNat (i2.toNat - i1.toNat)).foldlM
    (fun o i ↦ do
      let e ← il.getSingle j i
      return o.addEntry j e)
    oivf

/-- `x / y` on `size_t` -/
def divide (x y : UInt64) : Except Fault UInt64 :=
  if y = 0 then .error .divisionByZero else .ok (x / y)

/-- The body of the loop over the lists, without its last line. -/
def copyList (ty : SubsetType) (a1 a2 : Idx) (ntotal : UInt64) (s : SubsetState) (j : ℕ) :
    Except Fault SubsetState :=
  match ty with
  | .idRange =>
      .ok ((il.list j).foldl (fun s e ↦ if a1 ≤ e.id ∧ e.id < a2 then s.addEntry j e else s) s)
  | .idMod =>
      (il.list j).foldlM
        (fun s e ↦
          if a1 = 0 then .error .divisionByZero
          else .ok (if e.id % a1 = a2 then s.addEntry j e else s))
        s
  | .elementRange => do
      let nextAccuN := s.accuN + UInt64.ofNat (il.listSize j)
      let nextAccuA1 ← divide (nextAccuN * a1.toUInt64) ntotal
      let i1 := nextAccuA1 - s.accuA1
      let nextAccuA2 ← divide (nextAccuN * a2.toUInt64) ntotal
      let i2 := nextAccuA2 - s.accuA2
      let oivf ← il.copyRange j i1 i2 s.oivf
      return { s with
        accuA1 := nextAccuA1, accuA2 := nextAccuA2, nAdded := s.nAdded + (i2 - i1), oivf := oivf }
  | .invlistFraction => do
      let n := UInt64.ofNat (il.listSize j)
      let i1 ← divide (n * a2.toUInt64) a1.toUInt64
      let i2 ← divide (n * (a2 + 1).toUInt64) a1.toUInt64
      let oivf ← il.copyRange j i1 i2 s.oivf
      return { s with nAdded := s.nAdded + (i2 - i1), oivf := oivf }
  | .invlist =>
      .ok (if a1.toInt ≤ j ∧ (j : ℤ) < a2.toInt then
        { s with
          nAdded := s.nAdded + UInt64.ofNat (il.listSize j)
          oivf := (s.oivf.addEntries j (il.list j)).1 }
      else s)

/-- `copy_subset_to`: the value that it returns, and the other object. -/
def copySubsetTo (oivf : ArrayInvertedLists) (ty : SubsetType) (a1 a2 : Idx) :
    Except Fault (UInt64 × ArrayInvertedLists) := do
  Fault.throwIfNot (il.nlist == oivf.nlist) "nlist == oivf.nlist"
  Fault.throwIfNot (il.codeSize == oivf.codeSize) "code_size == oivf.code_size"
  let ntotal := if ty = .elementRange then UInt64.ofNat il.computeNtotal else 0
  let s ← (List.range il.nlist).foldlM
    (fun s j ↦ do
      let s ← il.copyList ty a1 a2 ntotal s j
      return { s with accuN := s.accuN + UInt64.ofNat (il.listSize j) })
    { accuN := 0, accuA1 := 0, accuA2 := 0, nAdded := 0, oivf := oivf }
  return (s.nAdded, s.oivf)

end InvertedLists

end FaissNavix

/-!
# What a call of `copy_subset_to` copies

The loop over the lists leaves in list `j` of the other object what the mode takes of list `j`.
Where the entries of a list that are taken form an interval, they may reach past the end of the
list, and the call does not return.
-/

namespace FaissNavix

open Lib (slice)

namespace InvertedLists

variable (il : InvertedLists)

/-! ## The loop over an interval -/

theorem getSingle_of_lt {j i : ℕ} (h : i < il.listSize j) :
    il.getSingle j i = .ok ((il.list j).get ⟨i, h⟩) := by
  rw [getSingle, List.getElem?_eq_getElem h]
  rfl

theorem getSingle_of_le {j i : ℕ} (h : il.listSize j ≤ i) :
    il.getSingle j i = .error (.assertion "offset < list_size(list_no)") := by
  rw [getSingle, List.getElem?_eq_none h]

/-- The entries at the positions `[s, s + n)` are added one by one. -/
theorem foldlM_addEntry (j : ℕ) (o o' : ArrayInvertedLists) (s n : ℕ) :
    (List.range' s n).foldlM
        (fun o i ↦ do
          let e ← il.getSingle j i
          return o.addEntry j e) o = .ok o' ↔
      (n = 0 ∨ s + n ≤ il.listSize j) ∧
        o' = o.setList j (o.lists j ++ ((il.list j).drop s).take n) := by
  induction n generalizing s o with
  | zero =>
      rw [List.take_zero, List.append_nil, ArrayInvertedLists.setList_self]
      constructor
      · intro h
        cases h
        exact ⟨.inl rfl, rfl⟩
      · rintro ⟨-, rfl⟩
        rfl
  | succ n ih =>
      rw [List.range'_succ, List.foldlM_cons]
      by_cases hs : s < il.listSize j
      · have hdrop : (il.list j).drop s = (il.list j).get ⟨s, hs⟩ :: (il.list j).drop (s + 1) :=
          List.drop_eq_getElem_cons hs
        rw [il.getSingle_of_lt hs]
        refine (ih (o.addEntry j ((il.list j).get ⟨s, hs⟩)) (s + 1)).trans ?_
        rw [ArrayInvertedLists.addEntry_eq, ArrayInvertedLists.setList_setList, hdrop,
          List.take_succ_cons, ArrayInvertedLists.setList_lists, if_pos rfl, List.append_assoc,
          List.singleton_append]
        refine and_congr_left fun _ ↦ ?_
        omega
      · rw [il.getSingle_of_le (not_lt.1 hs)]
        constructor
        · rintro ⟨⟩
        · rintro ⟨hn, -⟩
          omega

/-- The interval `[i1, i2)` of list `j` can be read. -/
def Readable (j : ℕ) (i1 i2 : UInt64) : Prop :=
  i2.toNat ≤ i1.toNat ∨ i2.toNat ≤ il.listSize j

theorem copyRange_eq_ok (j : ℕ) (i1 i2 : UInt64) (o o' : ArrayInvertedLists) :
    il.copyRange j i1 i2 o = .ok o' ↔
      il.Readable j i1 i2 ∧
        o' = o.setList j (o.lists j ++ slice (il.list j) i1.toNat i2.toNat) := by
  refine (il.foldlM_addEntry j o o' _ _).trans (and_congr_left fun _ ↦ ?_)
  rw [Readable]
  omega

/-! ## What is taken of each list -/

/-- What a call takes of the lists: the values of `accu_a1` and `accu_a2` before each list, the
entries taken of it, what is added to `n_added` there, and whether the step returns. -/
structure Part where
  accuA1 : ℕ → UInt64
  accuA2 : ℕ → UInt64
  taken : ℕ → List Entry
  counted : ℕ → ℕ
  Fits : ℕ → Prop

/-- The share of the first `m` lists in the first `a` entries, rounded down. -/
def share (a : UInt64) (m : ℕ) : UInt64 :=
  UInt64.ofNat (il.sizeBefore m) * a / UInt64.ofNat il.computeNtotal

/-- The entries of list `j` that are left before the first `a` entries. -/
def elementQuota (a : UInt64) (j : ℕ) : UInt64 :=
  il.share a (j + 1) - il.share a j

/-- The first `k` of `a1` fractions of list `j`. -/
def fractionQuota (a1 k : UInt64) (j : ℕ) : UInt64 :=
  UInt64.ofNat (il.listSize j) * k / a1

variable (ty : SubsetType) (a1 a2 : Idx)

/-- The entries selected by a predicate. -/
def filterPart (p : ℕ → Entry → Bool) (fits : ℕ → Prop) : Part where
  accuA1 _ := 0
  accuA2 _ := 0
  taken j := (il.list j).filter (p j)
  counted j := ((il.list j).filter (p j)).length
  Fits := fits

/-- The entries of intervals. -/
def rangePart (accuA1 accuA2 : ℕ → UInt64) (lo hi : ℕ → UInt64) (fits : Prop) : Part where
  accuA1 := accuA1
  accuA2 := accuA2
  taken j := slice (il.list j) (lo j).toNat (hi j).toNat
  counted j := (hi j - lo j).toNat
  Fits j := fits ∧ il.Readable j (lo j) (hi j)

/-- The predicates of the modes that select by id or by list. -/
def selects (j : ℕ) (e : Entry) : Bool :=
  match ty with
  | .idRange => a1 ≤ e.id ∧ e.id < a2
  | .idMod => e.id % a1 = a2
  | _ => a1.toInt ≤ j ∧ (j : ℤ) < a2.toInt

/-- What a call takes. -/
def part : Part :=
  match ty with
  | .idRange => il.filterPart (selects .idRange a1 a2) fun _ ↦ True
  | .idMod => il.filterPart (selects .idMod a1 a2) fun j ↦ il.list j = [] ∨ a1 ≠ 0
  | .invlist => il.filterPart (selects .invlist a1 a2) fun _ ↦ True
  | .elementRange =>
      il.rangePart (il.share a1.toUInt64) (il.share a2.toUInt64) (il.elementQuota a1.toUInt64)
        (il.elementQuota a2.toUInt64) (UInt64.ofNat il.computeNtotal ≠ 0)
  | .invlistFraction =>
      il.rangePart (fun _ ↦ 0) (fun _ ↦ 0) (il.fractionQuota a1.toUInt64 a2.toUInt64)
        (il.fractionQuota a1.toUInt64 (a2 + 1).toUInt64) (a1.toUInt64 ≠ 0)

/-- The variables when the first `m` lists are done. -/
def stateAt (p : Part) (m : ℕ) : SubsetState where
  accuN := UInt64.ofNat (il.sizeBefore m)
  accuA1 := p.accuA1 m
  accuA2 := p.accuA2 m
  nAdded := UInt64.ofNat (∑ j ∈ Finset.range m, p.counted j)
  oivf := ⟨il.nlist, il.codeSize, fun j ↦ if j < m then p.taken j else []⟩

theorem stateAt_succ (p : Part) (m : ℕ) :
    il.stateAt p (m + 1) =
      { accuN := (il.stateAt p m).accuN + UInt64.ofNat (il.listSize m)
        accuA1 := p.accuA1 (m + 1)
        accuA2 := p.accuA2 (m + 1)
        nAdded := (il.stateAt p m).nAdded + UInt64.ofNat (p.counted m)
        oivf := (il.stateAt p m).oivf.setList m
          ((il.stateAt p m).oivf.lists m ++ p.taken m) } := by
  rw [stateAt, sizeBefore_succ, Finset.sum_range_succ, UInt64.ofNat_add, UInt64.ofNat_add]
  congr 1
  rw [ArrayInvertedLists.setList]
  congr 1
  funext j
  simp only [stateAt, Function.update_apply, lt_self_iff_false, if_false, List.nil_append]
  by_cases hj : j = m
  · rw [if_pos hj, hj, if_pos (Nat.lt_succ_self m)]
  · rw [if_neg hj]
    refine if_congr ?_ rfl rfl
    omega

/-! ## One list -/

/-- Entries are added to list `j`, and the count rises by `n`. -/
def put (s : SubsetState) (j : ℕ) (es : List Entry) (n : UInt64) : SubsetState :=
  { s with nAdded := s.nAdded + n, oivf := s.oivf.setList j (s.oivf.lists j ++ es) }

theorem put_nil (s : SubsetState) (j : ℕ) : put s j [] 0 = s := by
  rw [put, List.append_nil, ArrayInvertedLists.setList_self, UInt64.add_zero]

theorem foldl_addEntry (p : Entry → Prop) [DecidablePred p] (j : ℕ) (es : List Entry)
    (s : SubsetState) :
    es.foldl (fun s e ↦ if p e then s.addEntry j e else s) s =
      put s j (es.filter p) (UInt64.ofNat (es.filter p).length) := by
  induction es generalizing s with
  | nil => exact (put_nil s j).symm
  | cons e es ih =>
      rw [List.foldl_cons, ih]
      by_cases he : p e
      · rw [List.filter_cons, if_pos (decide_eq_true he), if_pos he, put, put, SubsetState.addEntry,
          ArrayInvertedLists.addEntry_eq, List.length_cons, UInt64.ofNat_add, UInt64.add_assoc,
          UInt64.add_comm 1]
        simp
      · rw [List.filter_cons, if_neg he, if_neg (by simpa using he)]

/-- The variables after list `j`, before the last line of the loop. -/
def stateAfter (p : Part) (j : ℕ) : SubsetState :=
  { il.stateAt p (j + 1) with accuN := (il.stateAt p j).accuN }

theorem stateAfter_filterPart (p : ℕ → Entry → Bool) (fits : ℕ → Prop) (j : ℕ) :
    il.stateAfter (il.filterPart p fits) j =
      put (il.stateAt (il.filterPart p fits) j) j ((il.list j).filter (p j))
        (UInt64.ofNat ((il.list j).filter (p j)).length) := by
  rw [stateAfter, stateAt_succ]
  rfl

theorem divide_eq_ok {x y z : UInt64} : divide x y = .ok z ↔ y ≠ 0 ∧ z = x / y := by
  rw [divide]
  split
  · next h =>
      constructor
      · rintro ⟨⟩
      · exact fun h' ↦ absurd h h'.1
  · next h =>
      constructor
      · rintro ⟨⟩
        exact ⟨h, rfl⟩
      · rintro ⟨-, rfl⟩
        rfl

/-- The value of `ntotal` in the loop. -/
def loopTotal : UInt64 :=
  if ty = .elementRange then UInt64.ofNat il.computeNtotal else 0

/-- The loop that selects by a remainder divides by zero at the first entry that it sees. -/
theorem foldlM_idMod (j : ℕ) (es : List Entry) (s s' : SubsetState) :
    es.foldlM
        (fun s e ↦
          if a1 = 0 then Except.error Fault.divisionByZero
          else .ok (if e.id % a1 = a2 then s.addEntry j e else s)) s = .ok s' ↔
      (es = [] ∨ a1 ≠ 0) ∧
        s' = put s j (es.filter (selects .idMod a1 a2 j))
          (UInt64.ofNat (es.filter (selects .idMod a1 a2 j)).length) := by
  have hput : put s j (es.filter (selects .idMod a1 a2 j))
      (UInt64.ofNat (es.filter (selects .idMod a1 a2 j)).length) =
        es.foldl (fun s e ↦ if e.id % a1 = a2 then s.addEntry j e else s) s :=
    (foldl_addEntry (fun e ↦ e.id % a1 = a2) j es s).symm
  rw [hput]
  by_cases ha : a1 = 0
  · cases es with
    | nil =>
        refine Iff.trans ?_ (and_iff_right (Or.inl rfl)).symm
        rw [eq_comm (a := s')]
        exact Iff.of_eq (Except.ok.injEq _ _)
    | cons e es =>
        rw [List.foldlM_cons, if_pos ha]
        constructor
        · rintro ⟨⟩
        · rintro ⟨h | h, -⟩
          · cases h
          · exact absurd ha h
  · refine Iff.trans ?_ (and_iff_right (Or.inr ha)).symm
    simp only [if_neg ha]
    have hok : es.foldlM
        (fun s e ↦ (.ok (if e.id % a1 = a2 then s.addEntry j e else s) : Except Fault _)) s =
          .ok (es.foldl (fun s e ↦ if e.id % a1 = a2 then s.addEntry j e else s) s) :=
      List.foldlM_pure
    rw [hok, Except.ok.injEq, eq_comm]

/-- What one turn of the loop over the lists does. -/
theorem copyList_eq_ok (j : ℕ) (s : SubsetState) :
    il.copyList ty a1 a2 (il.loopTotal ty) (il.stateAt (il.part ty a1 a2) j) j = .ok s ↔
      (il.part ty a1 a2).Fits j ∧ s = il.stateAfter (il.part ty a1 a2) j := by
  cases ty with
  | idRange =>
      rw [copyList, part, stateAfter_filterPart]
      refine Iff.trans ?_ (and_iff_right trivial).symm
      rw [foldl_addEntry (fun e ↦ a1 ≤ e.id ∧ e.id < a2), Except.ok.injEq, eq_comm]
      rfl
  | idMod =>
      rw [copyList, part, stateAfter_filterPart]
      exact foldlM_idMod a1 a2 j _ _ _
  | invlist =>
      rw [copyList, part, stateAfter_filterPart]
      refine Iff.trans ?_ (and_iff_right trivial).symm
      rw [Except.ok.injEq, eq_comm]
      by_cases hj : a1.toInt ≤ j ∧ (j : ℤ) < a2.toInt
      · have hall : (il.list j).filter (selects .invlist a1 a2 j) = il.list j := by
          simp [selects, hj]
        rw [if_pos hj, hall, ArrayInvertedLists.addEntries_fst]
        rfl
      · have hnone : (il.list j).filter (selects .invlist a1 a2 j) = [] := by
          simpa [selects] using fun _ _ h ↦ not_lt.1 fun h' ↦ hj ⟨h, h'⟩
        rw [if_neg hj, hnone]
        exact (Eq.congr_right (put_nil _ j)).symm
  | elementRange =>
      have hn : (il.stateAt (il.part .elementRange a1 a2) j).accuN +
          UInt64.ofNat (il.listSize j) = UInt64.ofNat (il.sizeBefore (j + 1)) := by
        rw [sizeBefore_succ, UInt64.ofNat_add]
        rfl
      rw [stateAfter, stateAt_succ]
      simp only [copyList, Fault.bind_eq_ok, divide_eq_ok, copyRange_eq_ok, hn]
      constructor
      · rintro ⟨_, ⟨hT, rfl⟩, _, ⟨-, rfl⟩, _, ⟨hfit, rfl⟩, ⟨⟩⟩
        refine ⟨⟨hT, hfit⟩, ?_⟩
        simp only [part, rangePart, UInt64.ofNat_toNat]
        rfl
      · rintro ⟨⟨hT, hfit⟩, rfl⟩
        refine ⟨_, ⟨hT, rfl⟩, _, ⟨hT, rfl⟩, _, ⟨hfit, rfl⟩, ?_⟩
        simp only [part, rangePart, UInt64.ofNat_toNat]
        rfl
  | invlistFraction =>
      rw [stateAfter, stateAt_succ]
      simp only [copyList, Fault.bind_eq_ok, divide_eq_ok, copyRange_eq_ok]
      constructor
      · rintro ⟨_, ⟨hT, rfl⟩, _, ⟨-, rfl⟩, _, ⟨hfit, rfl⟩, ⟨⟩⟩
        refine ⟨⟨hT, hfit⟩, ?_⟩
        simp only [part, rangePart, UInt64.ofNat_toNat]
        rfl
      · rintro ⟨⟨hT, hfit⟩, rfl⟩
        refine ⟨_, ⟨hT, rfl⟩, _, ⟨hT, rfl⟩, _, ⟨hfit, rfl⟩, ?_⟩
        simp only [part, rangePart, UInt64.ofNat_toNat]
        rfl

/-! ## All lists -/

theorem share_zero (a : UInt64) : il.share a 0 = 0 := by
  have hmul : UInt64.ofNat (il.sizeBefore 0) * a = 0 := UInt64.zero_mul
  rw [share, hmul, UInt64.zero_div]

theorem stateAt_zero :
    il.stateAt (il.part ty a1 a2) 0 =
      { accuN := 0, accuA1 := 0, accuA2 := 0, nAdded := 0,
        oivf := .empty il.nlist il.codeSize } := by
  cases ty with
  | idRange | idMod | invlist | invlistFraction => rfl
  | elementRange =>
      simp only [stateAt, part, rangePart, share_zero]
      rfl

/-- The loop over the first `m` lists. -/
theorem foldlM_copyList (m : ℕ) (s : SubsetState) :
    (List.range m).foldlM
        (fun s j ↦ do
          let s ← il.copyList ty a1 a2 (il.loopTotal ty) s j
          return { s with accuN := s.accuN + UInt64.ofNat (il.listSize j) })
        (il.stateAt (il.part ty a1 a2) 0) = .ok s ↔
      (∀ j < m, (il.part ty a1 a2).Fits j) ∧ s = il.stateAt (il.part ty a1 a2) m := by
  induction m generalizing s with
  | zero =>
      constructor
      · rintro ⟨⟩
        exact ⟨fun j hj ↦ absurd hj (Nat.not_lt_zero j), rfl⟩
      · rintro ⟨-, rfl⟩
        rfl
  | succ m ih =>
      rw [List.range_succ, List.foldlM_append, Fault.bind_eq_ok]
      simp only [List.foldlM_cons, List.foldlM_nil, Fault.bind_eq_ok]
      constructor
      · rintro ⟨s₁, h₁, s₂, ⟨s₃, h₃, ⟨⟩⟩, ⟨⟩⟩
        obtain ⟨hfits, rfl⟩ := (ih s₁).1 h₁
        obtain ⟨hfit, rfl⟩ := (il.copyList_eq_ok ty a1 a2 m s₃).1 h₃
        refine ⟨fun j hj ↦ ?_, ?_⟩
        · obtain hj | rfl := Nat.lt_succ_iff_lt_or_eq.1 hj
          · exact hfits j hj
          · exact hfit
        · rw [stateAfter, stateAt_succ]
      · rintro ⟨hfits, rfl⟩
        refine ⟨_, (ih _).2 ⟨fun j hj ↦ hfits j (Nat.lt_succ_of_lt hj), rfl⟩, _,
          ⟨_, (il.copyList_eq_ok ty a1 a2 m _).2 ⟨hfits m (Nat.lt_succ_self m), rfl⟩, rfl⟩, ?_⟩
        rw [stateAfter, stateAt_succ]
        rfl

/-- A call on a fresh object returns if what it takes fits in every list, and then the object has
what was taken. -/
theorem copySubsetTo_eq_ok (r : UInt64 × ArrayInvertedLists) :
    il.copySubsetTo (.empty il.nlist il.codeSize) ty a1 a2 = .ok r ↔
      (∀ j < il.nlist, (il.part ty a1 a2).Fits j) ∧
        r = ((il.stateAt (il.part ty a1 a2) il.nlist).nAdded,
          (il.stateAt (il.part ty a1 a2) il.nlist).oivf) := by
  have hrun := il.foldlM_copyList ty a1 a2 il.nlist
  rw [il.stateAt_zero] at hrun
  have hcall : il.copySubsetTo (.empty il.nlist il.codeSize) ty a1 a2 =
      (List.range il.nlist).foldlM
        (fun s j ↦ do
          let s ← il.copyList ty a1 a2 (il.loopTotal ty) s j
          return { s with accuN := s.accuN + UInt64.ofNat (il.listSize j) })
        { accuN := 0, accuA1 := 0, accuA2 := 0, nAdded := 0,
          oivf := .empty il.nlist il.codeSize } >>= fun s ↦ .ok (s.nAdded, s.oivf) := by
    rw [copySubsetTo, ArrayInvertedLists.empty, BEq.rfl, BEq.rfl]
    rfl
  rw [hcall, Fault.bind_eq_ok]
  constructor
  · rintro ⟨s, hs, ⟨⟩⟩
    obtain ⟨hfits, rfl⟩ := (hrun s).1 hs
    exact ⟨hfits, rfl⟩
  · rintro ⟨hfits, rfl⟩
    exact ⟨_, (hrun _).2 ⟨hfits, rfl⟩, rfl⟩

end InvertedLists

end FaissNavix
