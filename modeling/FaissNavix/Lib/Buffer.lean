import Mathlib.Tactic.Common

/-!
# Processing a stream through a small buffer

A stream is read element by element; an element that `enter` lets in is put in a buffer, and the
buffer is processed at once whenever it holds `n` elements, what is left at the end being processed
one by one.  As long as processing a full buffer is the same as processing its elements one by one,
the buffer makes no difference (`buffered_eq`).
-/

namespace Lib

variable {α σ τ : Type*}

/-- The buffered loop: `full` processes a full buffer and `one` a single element. -/
def buffered (n : ℕ) (enter : τ → α → Bool × τ) (full : σ → List α → σ) (one : σ → α → σ) :
    List α → List α → τ → σ → τ × σ
  | [], buf, t, s => (t, buf.foldl one s)
  | x :: xs, buf, t, s =>
    let buf' := if (enter t x).1 then buf ++ [x] else buf
    if buf'.length = n then buffered n enter full one xs [] (enter t x).2 (full s buf')
    else buffered n enter full one xs buf' (enter t x).2 s

/-- The elements that are let in, and the state `enter` ends in. -/
def entered (enter : τ → α → Bool × τ) : List α → τ → τ × List α
  | [], t => (t, [])
  | x :: xs, t =>
    let r := entered enter xs (enter t x).2
    (r.1, if (enter t x).1 then x :: r.2 else r.2)

/-- The buffer makes no difference. -/
theorem buffered_eq {n : ℕ} {enter : τ → α → Bool × τ} {full : σ → List α → σ} {one : σ → α → σ}
    (hfull : ∀ s buf, buf.length = n → full s buf = buf.foldl one s) (xs buf : List α) (t : τ)
    (s : σ) : buffered n enter full one xs buf t s =
      ((entered enter xs t).1, (buf ++ (entered enter xs t).2).foldl one s) := by
  induction xs generalizing buf t s with
  | nil => simp [buffered, entered]
  | cons x xs ih =>
      have hsplit : ∀ b : Bool, (if b then buf ++ [x] else buf) ++ (entered enter xs (enter t x).2).2 =
          buf ++ (if b then x :: (entered enter xs (enter t x).2).2
            else (entered enter xs (enter t x).2).2) := by
        intro b
        cases b <;> simp
      rw [buffered, entered]
      dsimp only
      rw [← hsplit]
      generalize (if (enter t x).1 then buf ++ [x] else buf) = buf'
      by_cases hn : buf'.length = n
      · rw [if_pos hn, ih, List.nil_append, hfull _ _ hn, List.foldl_append]
      · rw [if_neg hn, ih]

/-- The loop without a buffer, on a state that consists of the two: an element that is let in is
processed at once. -/
theorem foldl_eq_entered {ρ : Type*} {enter : τ → α → Bool × τ} {one : σ → α → σ} {body : ρ → α → ρ}
    (mk : τ → σ → ρ)
    (hin : ∀ t s x, (enter t x).1 = true → body (mk t s) x = mk (enter t x).2 (one s x))
    (hout : ∀ t s x, (enter t x).1 = false → body (mk t s) x = mk (enter t x).2 s)
    (xs : List α) (t : τ) (s : σ) :
    xs.foldl body (mk t s) = mk (entered enter xs t).1 ((entered enter xs t).2.foldl one s) := by
  induction xs generalizing t s with
  | nil => rfl
  | cons x xs ih =>
      rw [List.foldl_cons, entered]
      cases h : (enter t x).1 with
      | false => rw [hout t s x h, ih]; rfl
      | true => rw [hin t s x h, ih]; rfl

/-- The loop `for (x : xs) { if (stop(x)) break; body(x); }`. -/
def forUntil (stop : α → Bool) (body : σ → α → σ) : List α → σ → σ
  | [], s => s
  | x :: xs, s => if stop x then s else forUntil stop body xs (body s x)

theorem forUntil_eq (stop : α → Bool) (body : σ → α → σ) (xs : List α) (s : σ) :
    forUntil stop body xs s = (xs.takeWhile fun x ↦ !stop x).foldl body s := by
  induction xs generalizing s with
  | nil => rfl
  | cons x xs ih =>
      rw [forUntil, List.takeWhile_cons]
      cases stop x with
      | true => rfl
      | false => exact ih _

/-- The loop `for (; i + 4 < size; i += 4)` with the loop over the rest after it. -/
def batched (full : σ → List α → σ) (one : σ → α → σ) : List α → σ → σ
  | a :: b :: c :: d :: e :: rest, s => batched full one (e :: rest) (full s [a, b, c, d])
  | xs, s => xs.foldl one s

theorem batched_eq {full : σ → List α → σ} {one : σ → α → σ}
    (hfull : ∀ s buf, buf.length = 4 → full s buf = buf.foldl one s) (xs : List α) (s : σ) :
    batched full one xs s = xs.foldl one s := by
  induction xs, s using batched.induct full with
  | case1 s a b c d e rest ih =>
      rw [batched, ih, hfull _ _ rfl]
      rfl
  | case2 s xs hshort => rw [batched]; exact hshort

end Lib
