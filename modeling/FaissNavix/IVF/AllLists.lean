import FaissNavix.IVF.Pairs

/-!
# Probing all lists

`IndexIVF::search` of `faiss/IndexIVF.cpp` with as many probes as there are lists.  Whatever the order
in which the quantizer ranks the lists, and however the threads share the work, the search is then an
exhaustive one.
-/

namespace FaissNavix

open Lib

namespace IVFIndex

variable {Q QP : Type} {ivf : IVFIndex Q QP} {params : Option (IVFSearchParameters QP)} {n k : ℕ}
  {ctx : SearchContext}

/-- All entries of the index, with their distances. -/
def allResults (ivf : IVFIndex Q QP) (dis : ℤ → List UInt8 → F32) : List (F32 × ℤ) :=
  (List.range ivf.nlist).flatMap fun (l : ℕ) ↦ (ivf.list l).map fun e ↦ (dis l e.code, e.id.toInt)

/-- Without a selector, a scan offers the whole list. -/
theorem offersOf_eq (hsel : ctx.sel = none) (hselr : ctx.selr = none) (hpairs : ctx.storePairs = false)
    (query : Q) (l : ℕ) (d : F32) : ivf.offersOf ctx query (l, d) none =
      (ivf.list l).map fun e ↦ (ivf.distanceToCode query l d e.code, e.id.toInt) := by
  have hskip : skips ctx.sel = fun _ ↦ false := by
    rw [hsel]
    rfl
  have hall : (List.range (ivf.list l).length).filter (fun _ ↦ !false) = List.range (ivf.list l).length :=
    List.filter_eq_self.mpr fun _ _ ↦ rfl
  unfold offersOf scannedOf
  dsimp only
  rw [if_neg (not_lt.mpr (Int.natCast_nonneg l)), Int.toNat_natCast, scanned_of_none hselr, hskip]
  refine (congrArg (List.map _) hall).trans (List.ext_getElem (by
    rw [List.length_map, List.length_map, List.length_range]) fun j hj hj' ↦ ?_)
  rw [List.length_map] at hj'
  rw [List.getElem_map, List.getElem_range, List.getElem_map, resultAt_of_ids hpairs, Int.toNat_natCast,
    codeAt, idAt, List.getElem?_eq_getElem hj']
  rfl

end IVFIndex

end FaissNavix
