import FaissNavix.Lib.Loop
import Mathlib.Data.Nat.Find
import Mathlib.Data.Nat.ModEq

/-!
# Going round a ring

The slots from `k0` up to `k1` make a ring.  A scan begins anywhere in the ring and goes on, from the last slot
to the first one, until it is at a slot where it stops, or where it began.
-/

namespace Lib

def nextSlot (k0 k1 slot : ℕ) : ℕ :=
  if slot + 1 = k1 then k0 else slot + 1

/-- The slot `d` steps behind `start`. -/
def slotAt (k0 k1 start d : ℕ) : ℕ :=
  k0 + (start - k0 + d) % (k1 - k0)

/-- A turn of a scan, at a slot. -/
def scanTurn (stop : ℕ → Bool) (k0 k1 start : ℕ) (s : ℕ × Bool) : Turn (ℕ × Bool) :=
  if stop s.1 then .done (s.1, true)
  else
    let slot := nextSlot k0 k1 s.1
    if slot = start then .done (slot, false) else .next (slot, false)

/-- A scan: the slot at which it ends, and whether it stopped there. -/
def scanRing (stop : ℕ → Bool) (k0 k1 start turns : ℕ) : Option (ℕ × Bool) :=
  iterate (scanTurn stop k0 k1 start) turns (start, false)

variable {stop : ℕ → Bool} {k0 k1 start d e slot turns : ℕ}

theorem slotAt_zero (h0 : k0 ≤ start) (h1 : start < k1) : slotAt k0 k1 start 0 = start := by
  rw [slotAt, Nat.add_zero, Nat.mod_eq_of_lt (by omega)]
  omega

theorem slotAt_bounds (h : k0 < k1) (start d : ℕ) : k0 ≤ slotAt k0 k1 start d ∧ slotAt k0 k1 start d < k1 := by
  have hlt := Nat.mod_lt (start - k0 + d) (show 0 < k1 - k0 by omega)
  rw [slotAt]
  omega

theorem nextSlot_slotAt (h : k0 < k1) (d : ℕ) :
    nextSlot k0 k1 (slotAt k0 k1 start d) = slotAt k0 k1 start (d + 1) := by
  have hlt := Nat.mod_lt (start - k0 + d) (show 0 < k1 - k0 by omega)
  have hsucc := Nat.add_mod (start - k0 + d) 1 (k1 - k0)
  rw [nextSlot, slotAt, slotAt, ← Nat.add_assoc (start - k0)]
  by_cases hone : k1 - k0 = 1
  · rw [hone, Nat.mod_one, Nat.mod_one, if_pos (by omega)]
    rfl
  · rw [Nat.mod_eq_of_lt (show 1 < k1 - k0 by omega)] at hsucc
    rw [hsucc]
    by_cases hlast : k0 + (start - k0 + d) % (k1 - k0) + 1 = k1
    · rw [if_pos hlast, show (start - k0 + d) % (k1 - k0) + 1 = k1 - k0 by omega, Nat.mod_self, Nat.add_zero]
    · rw [if_neg hlast, Nat.mod_eq_of_lt (show (start - k0 + d) % (k1 - k0) + 1 < k1 - k0 by omega),
        Nat.add_assoc]

theorem slotAt_inj (hd : d < k1 - k0) (he : e < k1 - k0)
    (h : slotAt k0 k1 start d = slotAt k0 k1 start e) : d = e := by
  unfold slotAt at h
  have hmod : (start - k0 + d) % (k1 - k0) = (start - k0 + e) % (k1 - k0) := by omega
  have hcancel : d % (k1 - k0) = e % (k1 - k0) := Nat.ModEq.add_left_cancel' (start - k0) hmod
  rwa [Nat.mod_eq_of_lt hd, Nat.mod_eq_of_lt he] at hcancel

section
variable (h0 : k0 ≤ start) (h1 : start < k1)
include h0 h1

theorem slotAt_round : slotAt k0 k1 start (k1 - k0) = start := by
  rw [slotAt, Nat.add_mod_right, Nat.mod_eq_of_lt (by omega)]
  omega

theorem scanTurn_next (hd : d + 1 < k1 - k0)
    (hgo : stop (slotAt k0 k1 start d) = false) (b : Bool) :
    scanTurn stop k0 k1 start (slotAt k0 k1 start d, b) = .next (slotAt k0 k1 start (d + 1), false) := by
  have hback : slotAt k0 k1 start (d + 1) ≠ start := by
    intro hback
    have hzero := slotAt_inj hd (show 0 < k1 - k0 by omega) (hback.trans (slotAt_zero h0 h1).symm)
    exact Nat.succ_ne_zero d hzero
  unfold scanTurn
  dsimp only
  rw [hgo, if_neg Bool.false_ne_true, nextSlot_slotAt (by omega), if_neg hback]

/-- The scan ends at the first slot where it stops. -/
theorem scanRing_stop (hd : d < k1 - k0)
    (hstop : stop (slotAt k0 k1 start d) = true) (hgo : ∀ i < d, stop (slotAt k0 k1 start i) = false)
    (hturns : d < turns) : scanRing stop k0 k1 start turns = some (slotAt k0 k1 start d, true) := by
  have hrun : ∀ e ≤ d, ∀ b n, e < n → iterate (scanTurn stop k0 k1 start) n (slotAt k0 k1 start (d - e), b) =
      some (slotAt k0 k1 start d, true) := by
    intro e
    induction e with
    | zero =>
        intro _ b n hn
        obtain ⟨n, rfl⟩ := Nat.exists_eq_succ_of_ne_zero hn.ne'
        exact iterate_done (if_pos hstop)
    | succ e ih =>
        intro he b n hn
        obtain ⟨n, rfl⟩ := Nat.exists_eq_succ_of_ne_zero (Nat.ne_zero_of_lt hn)
        rw [iterate_next (scanTurn_next h0 h1 (by omega) (hgo _ (by omega)) b),
          show d - (e + 1) + 1 = d - e by omega]
        exact ih (by omega) false n (by omega)
  have hall := hrun d le_rfl false turns hturns
  rwa [Nat.sub_self, slotAt_zero h0 h1] at hall

/-- A scan that does not stop goes round once. -/
theorem scanRing_round
    (hgo : ∀ i < k1 - k0, stop (slotAt k0 k1 start i) = false) (hturns : k1 - k0 ≤ turns) :
    scanRing stop k0 k1 start turns = some (start, false) := by
  have hrun : ∀ e < k1 - k0, ∀ b n, e < n →
      iterate (scanTurn stop k0 k1 start) n (slotAt k0 k1 start (k1 - k0 - 1 - e), b) = some (start, false) := by
    intro e
    induction e with
    | zero =>
        intro _ b n hn
        obtain ⟨n, rfl⟩ := Nat.exists_eq_succ_of_ne_zero hn.ne'
        refine iterate_done ?_
        unfold scanTurn
        dsimp only
        rw [hgo _ (by omega), if_neg Bool.false_ne_true, nextSlot_slotAt (by omega),
          show k1 - k0 - 1 - 0 + 1 = k1 - k0 by omega, slotAt_round h0 h1, if_pos rfl]
    | succ e ih =>
        intro he b n hn
        obtain ⟨n, rfl⟩ := Nat.exists_eq_succ_of_ne_zero (Nat.ne_zero_of_lt hn)
        rw [iterate_next (scanTurn_next h0 h1 (by omega) (hgo _ (by omega)) b),
          show k1 - k0 - 1 - (e + 1) + 1 = k1 - k0 - 1 - e by omega]
        exact ih (by omega) false n (by omega)
  have hall := hrun (k1 - k0 - 1) (by omega) false turns (by omega)
  rwa [Nat.sub_self, slotAt_zero h0 h1] at hall

end

theorem scanRing_total (stop : ℕ → Bool) (h0 : k0 ≤ start) (h1 : start < k1) (hturns : k1 - k0 ≤ turns) :
    (∃ d < k1 - k0, scanRing stop k0 k1 start turns = some (slotAt k0 k1 start d, true) ∧
      stop (slotAt k0 k1 start d) = true ∧ ∀ i < d, stop (slotAt k0 k1 start i) = false) ∨
    (scanRing stop k0 k1 start turns = some (start, false) ∧
      ∀ i < k1 - k0, stop (slotAt k0 k1 start i) = false) := by
  by_cases hsome : ∃ d < k1 - k0, stop (slotAt k0 k1 start d) = true
  · obtain ⟨hd, hstop⟩ := Nat.find_spec hsome
    have hgo : ∀ i < Nat.find hsome, stop (slotAt k0 k1 start i) = false := fun i hi ↦
      Bool.eq_false_iff.mpr fun h ↦ Nat.find_min hsome hi ⟨by omega, h⟩
    exact Or.inl ⟨_, hd, scanRing_stop h0 h1 hd hstop hgo (by omega), hstop, hgo⟩
  · have hgo : ∀ i < k1 - k0, stop (slotAt k0 k1 start i) = false := fun i hi ↦
      Bool.eq_false_iff.mpr fun h ↦ hsome ⟨i, hi, h⟩
    exact Or.inr ⟨scanRing_round h0 h1 hgo hturns, hgo⟩

end Lib
