import Mathlib.Data.Nat.Notation
import Mathlib.Logic.Function.Basic

/-!
# The two halves of a byte

A byte is two nibbles, the lower one and the upper one, that are read and written apart.  A table of
bytes is a table of nibbles, whose addresses say which half of which byte they are.
-/

namespace Lib

/-- The upper half of a byte, or the lower one. -/
def nibble (x : UInt8) (upper : Bool) : UInt8 :=
  if upper then x >>> 4 else x &&& 15

/-- The byte with its upper half, or its lower one, replaced. -/
def setNibble (x : UInt8) (upper : Bool) (c : UInt8) : UInt8 :=
  if upper then c <<< 4 ||| x &&& 15 else c ||| x &&& ~~~15

theorem forall_byte {P : UInt8 → Prop} (h : ∀ i : Fin 256, P (UInt8.ofFin i)) (x : UInt8) : P x :=
  h x.toFin

theorem nibble_or (x y : UInt8) (upper : Bool) :
    nibble (x ||| y) upper = nibble x upper ||| nibble y upper := by
  cases upper with
  | true => exact UInt8.shiftRight_or
  | false =>
      refine UInt8.toBitVec_inj.mp (BitVec.eq_of_getElem_eq fun i hi ↦ ?_)
      simp only [nibble, Bool.false_eq_true, if_false, UInt8.toBitVec_and, UInt8.toBitVec_or,
        BitVec.getElem_and, BitVec.getElem_or]
      exact Bool.and_or_distrib_right _ _ _

theorem nibble_lt (x : UInt8) (upper : Bool) : nibble x upper < 16 := by
  revert x
  cases upper with
  | true => exact forall_byte (by decide +kernel)
  | false => exact forall_byte (by decide +kernel)

theorem nibbles_eq (x : UInt8) : nibble x false ||| nibble x true <<< 4 = x := by
  revert x
  exact forall_byte (by decide +kernel)

theorem nibble_pair {c d : UInt8} (hc : c < 16) (hd : d < 16) (upper : Bool) :
    nibble (c ||| d <<< 4) upper = if upper then d else c := by
  have hlow : ∀ c : UInt8, c < 16 → nibble c false = c ∧ nibble c true = 0 :=
    forall_byte (by decide +kernel)
  have hhigh : ∀ d : UInt8, d < 16 → nibble (d <<< 4) false = 0 ∧ nibble (d <<< 4) true = d :=
    forall_byte (by decide +kernel)
  rw [nibble_or]
  cases upper with
  | true => rw [(hlow c hc).2, (hhigh d hd).2, UInt8.zero_or, if_pos rfl]
  | false => rw [(hlow c hc).1, (hhigh d hd).1, UInt8.or_zero, if_neg Bool.false_ne_true]

theorem nibble_setNibble {c : UInt8} (hc : c < 16) (x : UInt8) (upper upper' : Bool) :
    nibble (setNibble x upper c) upper' = if upper' = upper then c else nibble x upper' := by
  have hlow : ∀ c : UInt8, c < 16 → nibble c false = c ∧ nibble c true = 0 :=
    forall_byte (by decide +kernel)
  have hhigh : ∀ d : UInt8, d < 16 → nibble (d <<< 4) false = 0 ∧ nibble (d <<< 4) true = d :=
    forall_byte (by decide +kernel)
  have hkeep : ∀ x : UInt8, nibble (x &&& 15) false = nibble x false ∧ nibble (x &&& 15) true = 0 ∧
      nibble (x &&& ~~~15) false = 0 ∧ nibble (x &&& ~~~15) true = nibble x true :=
    forall_byte (by decide +kernel)
  obtain ⟨h1, h2, h3, h4⟩ := hkeep x
  cases upper with
  | true =>
      rw [setNibble, if_pos rfl, nibble_or]
      cases upper' with
      | true => rw [(hhigh c hc).2, h2, UInt8.or_zero, if_pos rfl]
      | false => rw [(hhigh c hc).1, h1, UInt8.zero_or, if_neg Bool.false_ne_true]
  | false =>
      rw [setNibble, if_neg Bool.false_ne_true, nibble_or]
      cases upper' with
      | true => rw [(hlow c hc).2, h4, UInt8.zero_or, if_neg Bool.false_ne_true.symm]
      | false => rw [(hlow c hc).1, h3, UInt8.or_zero, if_pos rfl]

/-! ## Tables of nibbles -/

open Function

def getNib (m : ℕ → UInt8) (a : ℕ × Bool) : UInt8 :=
  nibble (m a.1) a.2

def setNib (m : ℕ → UInt8) (a : ℕ × Bool) (c : UInt8) : ℕ → UInt8 :=
  update m a.1 (setNibble (m a.1) a.2 c)

/-- Several nibbles are replaced, one after the other. -/
def setNibs (m : ℕ → UInt8) (ws : List ((ℕ × Bool) × UInt8)) : ℕ → UInt8 :=
  ws.foldl (fun m w ↦ setNib m w.1 w.2) m

theorem getNib_setNib {c : UInt8} (hc : c < 16) (m : ℕ → UInt8) (a a' : ℕ × Bool) :
    getNib (setNib m a c) a' = if a' = a then c else getNib m a' := by
  obtain ⟨i, upper⟩ := a
  obtain ⟨i', upper'⟩ := a'
  unfold getNib setNib
  by_cases hi : i' = i
  · subst hi
    rw [update_self, nibble_setNibble hc]
    by_cases hu : upper' = upper
    · subst hu
      rw [if_pos rfl, if_pos rfl]
    · rw [if_neg hu, if_neg fun h ↦ hu (congrArg Prod.snd h)]
  · rw [update_of_ne hi, if_neg fun h ↦ hi (congrArg Prod.fst h)]

theorem getNib_setNibs_of_notMem {ws : List ((ℕ × Bool) × UInt8)} (hws : ∀ w ∈ ws, w.2 < 16)
    {a : ℕ × Bool} (ha : a ∉ ws.map Prod.fst) (m : ℕ → UInt8) :
    getNib (setNibs m ws) a = getNib m a := by
  induction ws generalizing m with
  | nil => rfl
  | cons w ws ih =>
      obtain ⟨hw, hws⟩ := List.forall_mem_cons.mp hws
      rw [List.map_cons, List.mem_cons, not_or] at ha
      change getNib (setNibs (setNib m w.1 w.2) ws) a = getNib m a
      rw [ih hws ha.2, getNib_setNib hw, if_neg ha.1]

theorem getNib_setNibs_of_mem {ws : List ((ℕ × Bool) × UInt8)} (hws : ∀ w ∈ ws, w.2 < 16)
    (hnodup : (ws.map Prod.fst).Nodup) {w : (ℕ × Bool) × UInt8} (hw : w ∈ ws) (m : ℕ → UInt8) :
    getNib (setNibs m ws) w.1 = w.2 := by
  induction ws generalizing m with
  | nil => exact absurd hw List.not_mem_nil
  | cons w' ws ih =>
      obtain ⟨hw', hws'⟩ := List.forall_mem_cons.mp hws
      obtain ⟨hnot, hnodup'⟩ := List.nodup_cons.mp hnodup
      rcases List.mem_cons.mp hw with rfl | hw
      · change getNib (setNibs (setNib m w.1 w.2) ws) w.1 = w.2
        rw [getNib_setNibs_of_notMem hws' hnot, getNib_setNib hw', if_pos rfl]
      · exact ih hws' hnodup' hw (setNib m w'.1 w'.2)

theorem setNibs_of_forall_ne {ws : List ((ℕ × Bool) × UInt8)} {i : ℕ} (h : ∀ w ∈ ws, w.1.1 ≠ i)
    (m : ℕ → UInt8) : setNibs m ws i = m i := by
  induction ws generalizing m with
  | nil => rfl
  | cons w ws ih =>
      obtain ⟨hw, hws⟩ := List.forall_mem_cons.mp h
      exact (ih hws (setNib m w.1 w.2)).trans (update_of_ne hw.symm _ _)

end Lib
