import FaissNavix.Lib.SwapRemove
import Mathlib.Algebra.Order.Ring.Nat
import Mathlib.Data.Int.Notation
import Mathlib.Data.Nat.Notation
import Mathlib.Logic.Function.Basic

/-!
# The indexes below an `IndexIDMap`

`IndexFlat`, with `IndexFlatCodes::remove_ids` and `merge_from` of `faiss/IndexFlatCodes.cpp`, and
`IndexIVFFlat` without a direct map, with `IndexIVF::add_core`, `remove_ids` and `merge_from` of
`faiss/IndexIVF.cpp`.  A vector of the first one has its position as its label; a vector of the second
one keeps the label that it was given.
-/

namespace FaissNavix

open Function
open Lib

/-- `IndexFlat`, with the vectors one after the other. -/
structure IndexFlat (V : Type) where
  codes : List V

/-- A vector in an inverted list, with its label. -/
structure Labelled (V : Type) where
  label : ℕ
  vec : V

/-- `IndexIVFFlat` without a direct map.  Two of them are compatible if they have the same quantizer. -/
structure IvfFlat (Q V : Type) where
  quantizer : Q
  nlist : ℕ
  lists : ℕ → List (Labelled V)
  ntotal : ℕ

variable {Q V : Type}

/-! ## `IndexFlat` -/

namespace IndexFlat

/-- `add` -/
def add (index : IndexFlat V) (xs : List V) : IndexFlat V :=
  ⟨index.codes ++ xs⟩

/-- `remove_ids`, where the selector is asked for labels. -/
def removeIds (index : IndexFlat V) (isMember : ℕ → Bool) : ℕ × IndexFlat V :=
  let codes := compact (fun i _ ↦ isMember i) index.codes
  (index.codes.length - codes.length, ⟨codes⟩)

/-- `merge_from`, and what is left of the other index. -/
def mergeFrom (index other : IndexFlat V) : IndexFlat V × IndexFlat V :=
  (⟨index.codes ++ other.codes⟩, ⟨[]⟩)

end IndexFlat

/-! ## `IndexIVFFlat` -/

/-- The slots of a list. -/
def labelledSlots (V : Type) : Slots (List (Labelled V)) (Option (Labelled V)) where
  get es j := es[j]?
  move es l j :=
    match es[l]? with
    | some e => es.set j e
    | none => es

/-- What `DirectMap::remove_ids` leaves of a list. -/
def removeLabelled (isMember : ℕ → Bool) (es : List (Labelled V)) : List (Labelled V) :=
  let s := swapRemove (labelledSlots V) (fun e ↦ e.any fun e ↦ isMember e.label) es 0 es.length
  s.1.take s.2

namespace IvfFlat

variable (assign : Q → V → ℤ)

/-- A turn of the loop of `add_core`: a vector gets the next label, and goes to the list that the
quantizer assigns it to, if it does. -/
def addOne (ivf : IvfFlat Q V) (x : V) : IvfFlat Q V :=
  let listNo := assign ivf.quantizer x
  { ivf with
    lists := if 0 ≤ listNo then
      update ivf.lists listNo.toNat (ivf.lists listNo.toNat ++ [⟨ivf.ntotal, x⟩]) else ivf.lists
    ntotal := ivf.ntotal + 1 }

/-- `add` -/
def add (ivf : IvfFlat Q V) (xs : List V) : IvfFlat Q V :=
  xs.foldl (addOne assign) ivf

/-- `remove_ids`, where the selector is asked for labels. -/
def removeIds (ivf : IvfFlat Q V) (isMember : ℕ → Bool) : ℕ × IvfFlat Q V :=
  let lists := fun i ↦ if i < ivf.nlist then removeLabelled isMember (ivf.lists i) else ivf.lists i
  let nremove := ((List.range ivf.nlist).map fun i ↦ (ivf.lists i).length - (lists i).length).sum
  (nremove, { ivf with lists, ntotal := ivf.ntotal - nremove })

/-- `merge_from` with nothing to add to the labels, and what is left of the other index. -/
def mergeFrom (ivf other : IvfFlat Q V) : IvfFlat Q V × IvfFlat Q V :=
  ({ ivf with
    lists := fun i ↦ if i < ivf.nlist then ivf.lists i ++ other.lists i else ivf.lists i
    ntotal := ivf.ntotal + other.ntotal },
   { other with lists := fun i ↦ if i < ivf.nlist then [] else other.lists i, ntotal := 0 })

end IvfFlat

/-! ## What removing leaves -/

/-- Where the labels go with ids, the vectors go with the ids that are kept. -/
theorem zip_removeIds {I : Type} {index : IndexFlat V} {ids : List I} {isMember : ℕ → Bool}
    {sel : I → Bool} (hlen : ids.length = index.codes.length)
    (h : ∀ i id, ids[i]? = some id → isMember i = sel id) :
    (index.removeIds isMember).2.codes.zip (ids.filter fun id ↦ !sel id) =
      (index.codes.zip ids).filter fun e ↦ !sel e.2 := by
  have hcodes : (index.removeIds isMember).2.codes =
      ((index.codes.zip ids).filter fun e ↦ !sel e.2).map Prod.fst :=
    compact_eq hlen fun i _ id _ hid ↦ h i id hid
  have hids : (ids.filter fun id ↦ !sel id) =
      ((index.codes.zip ids).filter fun e ↦ !sel e.2).map Prod.snd := by
    have hsnd : (index.codes.zip ids).map Prod.snd = ids :=
      List.map_snd_zip (Nat.le_of_eq hlen)
    conv_lhs => rw [← hsnd, List.filter_map]
    rfl
  rw [hcodes, hids]
  exact (List.zip_of_prod rfl rfl).symm

theorem labelledSlots_lawful (n : ℕ) :
    (labelledSlots V).Lawful (fun es ↦ es.length = n) n where
  ok_move {es l j} hs hl hj := by
    unfold labelledSlots
    dsimp only
    rw [List.getElem?_eq_getElem (hs ▸ hl)]
    exact List.length_set.trans hs
  get_move {es l j k} hs hl hj hk := by
    have hmove : (labelledSlots V).move es l j = es.set j (es.get ⟨l, hs ▸ hl⟩) := by
      unfold labelledSlots
      dsimp only
      rw [List.getElem?_eq_getElem (hs ▸ hl)]
      rfl
    rw [hmove]
    change (es.set j _)[k]? = if k = j then es[l]? else es[k]?
    by_cases hkj : k = j
    · rw [hkj, List.getElem?_set_self (hs ▸ hj), if_pos rfl, List.getElem?_eq_getElem (hs ▸ hl)]
      rfl
    · rw [List.getElem?_set_ne (Ne.symm hkj), if_neg hkj]

theorem contents_labelledSlots (es : List (Labelled V)) {l : ℕ} (hl : l ≤ es.length) :
    (labelledSlots V).contents es l = (es.take l).map some := by
  refine List.ext_getElem? fun j ↦ ?_
  unfold Slots.contents labelledSlots
  rw [List.getElem?_map, List.getElem?_map, List.getElem?_take]
  by_cases hj : j < l
  · rw [if_pos hj, List.getElem?_range hj, List.getElem?_eq_getElem (hj.trans_le hl)]
    exact congrArg some (List.getElem?_eq_getElem (hj.trans_le hl))
  · rw [if_neg hj, List.getElem?_eq_none (by rw [List.length_range]; omega)]
    rfl

theorem removeLabelled_perm (isMember : ℕ → Bool) (es : List (Labelled V)) :
    (removeLabelled isMember es).Perm (es.filter fun e ↦ !isMember e.label) := by
  obtain ⟨hlen, hle, hperm⟩ := (labelledSlots_lawful es.length).swapRemove
    (p := fun e ↦ e.any fun e ↦ isMember e.label) (s := es) rfl (Nat.zero_le _) (Nat.le_refl _)
    fun k hk ↦ absurd hk (Nat.not_lt_zero k)
  rw [contents_labelledSlots _ (hlen.symm ▸ hle), contents_labelledSlots _ (Nat.le_refl _),
    List.take_length, List.filter_map] at hperm
  exact (List.map_perm_map_iff (fun _ _ h ↦ Option.some.inj h)).mp hperm

end FaissNavix
