import Mathlib.Data.List.Basic
import Mathlib.Data.List.Induction
import Mathlib.Logic.Basic
import Mathlib.Order.Basic
import Mathlib.Tactic.Common

/-!
# Loops with a break

A loop of an imperative program is its body, which either leaves the loop or goes round again,
iterated with a bound on the number of turns.  A loop that runs out of turns has no result, so
that a statement about its result also says that it ends.

`iterate_total` is the rule for total correctness (an invariant and a decreasing measure) and
`iterate_sim` the rule for comparing two loops turn by turn.
-/

namespace Lib

variable {σ τ : Type*}

/-- What one turn of a loop does: leave the loop, or go round again. -/
inductive Turn (σ : Type*) where
  | done (s : σ)
  | next (s : σ)
deriving Repr

/-- At most `n` turns of a loop. -/
def iterate (body : σ → Turn σ) : ℕ → σ → Option σ
  | 0, _ => none
  | n + 1, s =>
    match body s with
    | .done s' => some s'
    | .next s' => iterate body n s'

variable {body : σ → Turn σ} {body' : τ → Turn τ}

section
variable {Inv Post : σ → Prop} (μ : σ → ℕ)

theorem iterate_done {n : ℕ} {s s' : σ} (h : body s = .done s') :
    iterate body (n + 1) s = some s' := by
  rw [iterate, h]

theorem iterate_next {n : ℕ} {s s' : σ} (h : body s = .next s') :
    iterate body (n + 1) s = iterate body n s' := by
  rw [iterate, h]

/-- A loop that has ended does so with more turns as well. -/
theorem iterate_mono {n m : ℕ} {s r : σ} (h : iterate body n s = some r) (hnm : n ≤ m) :
    iterate body m s = some r := by
  induction n generalizing m s with
  | zero => exact absurd h (by simp [iterate])
  | succ n ih =>
      obtain ⟨m, rfl⟩ : ∃ m', m = m' + 1 := ⟨m - 1, by omega⟩
      cases hb : body s with
      | done s' => rw [iterate_done hb] at h ⊢; exact h
      | next s' =>
          rw [iterate_next hb] at h ⊢
          exact ih h (by omega)

/-- Total correctness: from the invariant, a turn either leaves the loop with `Post`, or keeps the
invariant and makes the measure smaller. -/
theorem iterate_total (h : ∀ s, Inv s → (∃ s', body s = .done s' ∧ Post s') ∨
      ∃ s', body s = .next s' ∧ Inv s' ∧ μ s' < μ s) :
    ∀ (n : ℕ) (s : σ), Inv s → μ s < n → ∃ r, iterate body n s = some r ∧ Post r := by
  intro n
  induction n with
  | zero => intro s _ hμ; omega
  | succ n ih =>
      intro s hs hμ
      rcases h s hs with ⟨s', hb, hpost⟩ | ⟨s', hb, hs', hlt⟩
      · exact ⟨s', iterate_done hb, hpost⟩
      · rw [iterate_next hb]
        exact ih s' hs' (by omega)

/-- Total correctness of a loop that may wait: after some number of turns it has left, or the measure is
smaller. -/
theorem iterate_progress (h : ∀ s, Inv s → ∃ j, (∃ r, iterate body j s = some r ∧ Post r) ∨
      ∃ s', (∀ m, iterate body (j + m) s = iterate body m s') ∧ Inv s' ∧ μ s' < μ s) :
    ∀ s, Inv s → ∃ n r, iterate body n s = some r ∧ Post r := by
  intro s
  generalize hμ : μ s = k
  induction k using Nat.strongRecOn generalizing s with
  | ind k ih =>
      intro hs
      obtain ⟨j, ⟨r, hr, hpost⟩ | ⟨s', hreach, hs', hlt⟩⟩ := h s hs
      · exact ⟨j, r, hr, hpost⟩
      · obtain ⟨n, r, hr, hpost⟩ := ih (μ s') (hμ ▸ hlt) s' rfl hs'
        exact ⟨j + n, r, (hreach n).trans hr, hpost⟩

/-- Partial correctness: what every turn keeps, and what follows from it at the end. -/
theorem iterate_partial (hnext : ∀ s s', Inv s → body s = .next s' → Inv s')
    (hdone : ∀ s s', Inv s → body s = .done s' → Post s') {n : ℕ} {s r : σ} (hs : Inv s)
    (h : iterate body n s = some r) : Post r := by
  induction n generalizing s with
  | zero => exact absurd h (by simp [iterate])
  | succ n ih =>
      cases hb : body s with
      | done s' =>
          rw [iterate_done hb] at h
          exact Option.some.inj h ▸ hdone s s' hs hb
      | next s' =>
          rw [iterate_next hb] at h
          exact ih (hnext s s' hs hb) h

theorem iterate_never (h : ∀ s, Inv s → ∃ s', body s = .next s' ∧ Inv s') (n : ℕ)
    {s : σ} (hs : Inv s) : iterate body n s = none := by
  induction n generalizing s with
  | zero => rfl
  | succ n ih =>
      obtain ⟨s', hb, hs'⟩ := h s hs
      rw [iterate_next hb]
      exact ih hs'

end

theorem iterate_congr {body₁ body₂ : σ → Turn σ} (Inv : σ → Prop)
    (h : ∀ s, Inv s → body₁ s = body₂ s) (hnext : ∀ s s', Inv s → body₁ s = .next s' → Inv s')
    (n : ℕ) {s : σ} (hs : Inv s) : iterate body₁ n s = iterate body₂ n s := by
  induction n generalizing s with
  | zero => rfl
  | succ n ih =>
      cases hb : body₁ s with
      | done s' => rw [iterate_done hb, iterate_done ((h s hs).symm.trans hb)]
      | next s' => rw [iterate_next hb, iterate_next ((h s hs).symm.trans hb), ih (hnext s s' hs hb)]

/-- Simulation: two loops that take the same decisions turn by turn end together. -/
theorem iterate_sim {R Q : σ → τ → Prop}
    (h : ∀ s t, R s t →
      (∃ s' t', body s = .done s' ∧ body' t = .done t' ∧ Q s' t') ∨
        ∃ s' t', body s = .next s' ∧ body' t = .next t' ∧ R s' t') :
    ∀ (n : ℕ) (s : σ) (t : τ) (r : σ), R s t → iterate body n s = some r →
      ∃ r', iterate body' n t = some r' ∧ Q r r' := by
  intro n
  induction n with
  | zero => intro s t r _ hr; exact absurd hr (by simp [iterate])
  | succ n ih =>
      intro s t r hR hr
      rcases h s t hR with ⟨s', t', hs, ht, hQ⟩ | ⟨s', t', hs, ht, hR'⟩
      · rw [iterate_done hs] at hr
        cases hr
        exact ⟨t', iterate_done ht, hQ⟩
      · rw [iterate_next hs] at hr
        obtain ⟨r', hr', hQ⟩ := ih s' t' r hR' hr
        exact ⟨r', by rw [iterate_next ht]; exact hr', hQ⟩

end Lib

/-!
# Conditions on the steps of a run

A run is a list of steps, and a condition on a step may look at the steps before it.
-/

namespace Lib

universe u

variable {α : Type u} {P : List α → α → Prop} {xs : List α} {x : α}

/-- `P` holds of every step of the run and the steps before it. -/
def EachStep (P : List α → α → Prop) (xs : List α) : Prop :=
  ∀ before x after, xs = before ++ x :: after → P before x

theorem eachStep_nil : EachStep P [] := by
  intro before x after h
  cases before with
  | nil => cases h
  | cons y before => cases h

theorem eachStep_concat : EachStep P (xs ++ [x]) ↔ EachStep P xs ∧ P xs x := by
  constructor
  · intro h
    refine ⟨fun before y after heq ↦ h before y (after ++ [x]) ?_, h xs x [] rfl⟩
    rw [heq, List.append_assoc, List.cons_append]
  · rintro ⟨hxs, hx⟩ before y after heq
    obtain rfl | ⟨after, z, rfl⟩ := List.eq_nil_or_concat after
    · obtain ⟨rfl, hlast⟩ := List.append_inj' heq rfl
      obtain rfl : x = y := List.singleton_inj.1 hlast
      exact hx
    · rw [List.concat_eq_append, ← List.cons_append, ← List.append_assoc] at heq
      exact hxs before y after (List.append_inj' heq rfl).1

theorem eachStep_pair {y : α} : EachStep P [x, y] ↔ P [] x ∧ P [x] y := by
  rw [show [x, y] = ([] ++ [x]) ++ [y] from rfl, eachStep_concat, eachStep_concat,
    and_iff_right eachStep_nil]
  rfl

theorem EachStep.induct {motive : List α → Prop} (h : EachStep P xs) (nil : motive [])
    (concat : ∀ before x, motive before → P before x → motive (before ++ [x])) : motive xs := by
  induction xs using List.reverseRecOn with
  | nil => exact nil
  | append_singleton xs x ih =>
      obtain ⟨hxs, hx⟩ := eachStep_concat.1 h
      exact concat xs x (ih hxs) hx

theorem EachStep.and {Q : List α → α → Prop} (hP : EachStep P xs) (hQ : EachStep Q xs) :
    EachStep (fun before x ↦ P before x ∧ Q before x) xs :=
  fun before x after h ↦ ⟨hP before x after h, hQ before x after h⟩

theorem EachStep.of_forall_mem (h : ∀ x ∈ xs, ∀ before, P before x) : EachStep P xs := by
  intro before x after heq
  refine h x ?_ before
  rw [heq]
  exact List.mem_append_right before List.mem_cons_self

theorem foldlM_concat {m : Type u → Type u} [Monad m] [LawfulMonad m] {σ : Type u}
    (f : σ → α → m σ) (s : σ) (xs : List α) (x : α) :
    (xs ++ [x]).foldlM f s = xs.foldlM f s >>= (f · x) := by
  rw [List.foldlM_append]
  exact congrArg (xs.foldlM f s >>= ·) (funext fun s ↦ bind_pure _)

/-- All of the steps return. -/
theorem mapM_eq_some_iff {β : Type u} {f : α → Option β} {xs : List α} {ys : List β} :
    xs.mapM f = some ys ↔ xs.map f = ys.map some := by
  induction xs generalizing ys with
  | nil =>
      rw [List.mapM_nil, List.map_nil]
      cases ys with
      | nil => exact iff_of_true rfl rfl
      | cons y ys => exact iff_of_false nofun nofun
  | cons x xs ih =>
      rw [List.mapM_cons, List.map_cons]
      cases ys with
      | nil =>
          refine iff_of_false ?_ nofun
          cases f x with
          | none => exact nofun
          | some y =>
              cases xs.mapM f with
              | none => exact nofun
              | some ys => exact nofun
      | cons y ys =>
          rw [List.map_cons, List.cons.injEq, ← ih]
          cases f x with
          | none => exact iff_of_false nofun fun h ↦ nomatch h.1
          | some z =>
              cases xs.mapM f with
              | none => exact iff_of_false nofun fun h ↦ nomatch h.2
              | some zs =>
                  constructor
                  · rintro ⟨⟩
                    exact ⟨rfl, rfl⟩
                  · rintro ⟨⟨⟩, ⟨⟩⟩
                    rfl

theorem mapM_eq_some_map {β : Type u} {f : α → Option β} {g : α → β} {xs : List α}
    (h : ∀ x ∈ xs, f x = some (g x)) : xs.mapM f = some (xs.map g) := by
  rw [mapM_eq_some_iff, List.map_map]
  exact List.map_congr_left h

theorem mapM_range_eq {β : Type u} {xs : List α} {f : α → Option β} {g : ℕ → Option β}
    (h : ∀ i x, xs[i]? = some x → g i = f x) : (List.range xs.length).mapM g = xs.mapM f := by
  induction xs generalizing g with
  | nil => rfl
  | cons x xs ih =>
      have htail : (List.range xs.length).mapM (fun i ↦ g (i + 1)) = xs.mapM f :=
        ih fun i y hy ↦ h (i + 1) y hy
      rw [List.length_cons, List.range_succ_eq_map, List.mapM_cons, List.mapM_map, List.mapM_cons, h 0 x rfl]
      exact congrArg (f x >>= ·) (funext fun y ↦ congrArg (· >>= _) htail)

theorem mapM_eq_none {β : Type u} {f : α → Option β} {xs : List α} {x : α} (hx : x ∈ xs)
    (h : f x = none) : xs.mapM f = none := by
  rw [Option.eq_none_iff_forall_ne_some]
  intro ys hys
  have hmem : f x ∈ xs.map f := List.mem_map_of_mem hx
  rw [mapM_eq_some_iff.mp hys, h] at hmem
  obtain ⟨y, -, hy⟩ := List.mem_map.mp hmem
  exact absurd hy (Option.some_ne_none y)

/-- A loop returns if all of its steps do. -/
theorem exists_mapM_iff {β : Type u} {f : α → Option β} {xs : List α} :
    (∃ ys, xs.mapM f = some ys) ↔ ∀ x ∈ xs, ∃ y, f x = some y := by
  constructor
  · rintro ⟨ys, hys⟩ x hx
    rw [← Option.ne_none_iff_exists']
    intro hnone
    rw [mapM_eq_none hx hnone] at hys
    exact absurd hys (Option.some_ne_none ys).symm
  · intro h
    induction xs with
    | nil => exact ⟨[], rfl⟩
    | cons x xs ih =>
        obtain ⟨y, hy⟩ := h x List.mem_cons_self
        obtain ⟨ys, hys⟩ := ih fun x' hx' ↦ h x' (List.mem_cons_of_mem x hx')
        refine ⟨y :: ys, ?_⟩
        rw [List.mapM_cons, hy, hys]
        rfl

end Lib

/-!
# Invariants of loops over a list

What every turn of a loop preserves holds at the end of the loop, if it held before.
-/

namespace Lib

variable {σ α : Type*} {xs : List α} {s : σ}

theorem foldl_invariant {f : σ → α → σ} (P : σ → Prop) (hs : P s)
    (h : ∀ x ∈ xs, ∀ s, P s → P (f s x)) : P (xs.foldl f s) := by
  induction xs generalizing s with
  | nil => exact hs
  | cons x xs ih =>
      exact ih (h x List.mem_cons_self s hs) fun y hy ↦ h y (List.mem_cons_of_mem x hy)

theorem foldl_range_invariant {n : ℕ} {f : σ → ℕ → σ} (P : ℕ → σ → Prop) (hs : P 0 s)
    (h : ∀ i < n, ∀ s, P i s → P (i + 1) (f s i)) : P n ((List.range n).foldl f s) := by
  induction n with
  | zero => exact hs
  | succ n ih =>
      rw [List.range_succ, List.foldl_append]
      exact h n (Nat.lt_succ_self n) _ (ih fun i hi ↦ h i (Nat.lt_succ_of_lt hi))

theorem foldlM_invariant {σ α : Type} {xs : List α} {s r : σ} {f : σ → α → Option σ} (P : σ → Prop)
    (hs : P s) (h : ∀ x ∈ xs, ∀ s s', P s → f s x = some s' → P s') (hr : xs.foldlM f s = some r) :
    P r := by
  induction xs generalizing s with
  | nil =>
      obtain rfl := Option.some.inj hr
      exact hs
  | cons x xs ih =>
      rw [List.foldlM_cons] at hr
      obtain ⟨s', hx, hxs⟩ := Option.bind_eq_some_iff.mp hr
      exact ih (h x List.mem_cons_self s s' hs hx) (fun y hy ↦ h y (List.mem_cons_of_mem x hy)) hxs

/-- A loop whose turns may fail with an error, and that returns. -/
theorem foldlM_except_invariant {ε σ α : Type} {xs : List α} {s r : σ} {f : σ → α → Except ε σ}
    (P : σ → Prop) (hs : P s) (h : ∀ x ∈ xs, ∀ s s', P s → f s x = .ok s' → P s')
    (hr : xs.foldlM f s = .ok r) : P r := by
  induction xs generalizing s with
  | nil =>
      obtain rfl := Except.ok.inj hr
      exact hs
  | cons x xs ih =>
      rw [List.foldlM_cons] at hr
      cases hx : f s x with
      | error e =>
          rw [hx] at hr
          cases hr
      | ok s' =>
          rw [hx] at hr
          exact ih (h x List.mem_cons_self s s' hs hx) (fun y hy ↦ h y (List.mem_cons_of_mem x hy)) hr

theorem foldlM_total {σ α : Type} {xs : List α} {s : σ} {f : σ → α → Option σ} (P : σ → Prop) (hs : P s)
    (h : ∀ x ∈ xs, ∀ s, P s → ∃ s', f s x = some s' ∧ P s') : ∃ r, xs.foldlM f s = some r ∧ P r := by
  induction xs generalizing s with
  | nil => exact ⟨s, rfl, hs⟩
  | cons x xs ih =>
      obtain ⟨s', hx, hs'⟩ := h x List.mem_cons_self s hs
      obtain ⟨r, hr, hP⟩ := ih hs' fun y hy ↦ h y (List.mem_cons_of_mem x hy)
      exact ⟨r, by rw [List.foldlM_cons, hx]; exact hr, hP⟩

/-- A loop whose turns return where the invariant holds, which tells what has been done. -/
theorem foldlM_done {ε σ α : Type} {f : σ → α → Except ε σ} {xs done : List α} {s : σ}
    (P : List α → σ → Prop) (hs : P done s)
    (h : ∀ before x after s, done ++ xs = before ++ x :: after → P before s →
      ∃ s', f s x = .ok s' ∧ P (before ++ [x]) s') :
    ∃ r, xs.foldlM f s = .ok r ∧ P (done ++ xs) r := by
  induction xs generalizing s done with
  | nil => exact ⟨s, rfl, by rwa [List.append_nil]⟩
  | cons x xs ih =>
      obtain ⟨s', hx, hs'⟩ := h done x xs s rfl hs
      obtain ⟨r, hr, hP⟩ := ih hs' fun before y after t hy ↦
        h before y after t (by rw [← hy, List.append_assoc, List.singleton_append])
      rw [List.append_assoc, List.singleton_append] at hP
      exact ⟨r, by rw [List.foldlM_cons, hx]; exact hr, hP⟩

section
variable {m : Type → Type} [Monad m] [LawfulMonad m] {σ : Type} {n : ℕ} {f : σ → ℕ → m σ} {s : σ}
  (P : ℕ → σ → Prop)

/-- A loop that counts its turns, which return where the invariant holds. -/
theorem foldlM_range_done (hs : P 0 s)
    (h : ∀ i < n, ∀ s, P i s → ∃ s', f s i = pure s' ∧ P (i + 1) s') :
    ∃ r, (List.range n).foldlM f s = pure r ∧ P n r := by
  induction n with
  | zero => exact ⟨s, rfl, hs⟩
  | succ n ih =>
      obtain ⟨r, hr, hP⟩ := ih fun i hi ↦ h i (Nat.lt_succ_of_lt hi)
      obtain ⟨r', hr', hP'⟩ := h n (Nat.lt_succ_self n) r hP
      refine ⟨r', ?_, hP'⟩
      rw [List.range_succ, List.foldlM_append, hr, pure_bind]
      exact (bind_pure (f r n)).trans hr'

theorem foldlM_range_reverse_done (hs : P n s)
    (h : ∀ i < n, ∀ s, P (i + 1) s → ∃ s', f s i = pure s' ∧ P i s') :
    ∃ r, (List.range n).reverse.foldlM f s = pure r ∧ P 0 r := by
  induction n generalizing s with
  | zero => exact ⟨s, rfl, hs⟩
  | succ n ih =>
      obtain ⟨s', hs', hP⟩ := h n (Nat.lt_succ_self n) s hs
      obtain ⟨r, hr, hP'⟩ := ih hP fun i hi ↦ h i (Nat.lt_succ_of_lt hi)
      refine ⟨r, ?_, hP'⟩
      rw [List.range_succ, List.reverse_append, List.reverse_singleton, List.singleton_append,
        List.foldlM_cons, hs', pure_bind, hr]

end

/-- Every turn of a loop that returns has returned. -/
theorem foldlM_range_turns {σ : Type} {n : ℕ} {f : σ → ℕ → Option σ} {s r : σ} (P : ℕ → σ → Prop) (hs : P 0 s)
    (h : ∀ i < n, ∀ s s', P i s → f s i = some s' → P (i + 1) s') (hr : (List.range n).foldlM f s = some r) :
    P n r ∧ ∀ i < n, ∃ s s', P i s ∧ f s i = some s' := by
  induction n generalizing r with
  | zero =>
      obtain rfl := Option.some.inj hr
      exact ⟨hs, fun i hi ↦ absurd hi (Nat.not_lt_zero i)⟩
  | succ n ih =>
      rw [List.range_succ, foldlM_concat] at hr
      obtain ⟨t, ht, hlast⟩ := Option.bind_eq_some_iff.mp hr
      obtain ⟨hP, hall⟩ := ih (fun i hi ↦ h i (Nat.lt_succ_of_lt hi)) ht
      refine ⟨h n (Nat.lt_succ_self n) t r hP hlast, fun i hi ↦ ?_⟩
      rcases Nat.lt_succ_iff_lt_or_eq.mp hi with hlt | rfl
      · exact hall i hlt
      · exact ⟨t, r, hP, hlast⟩

theorem foldlM_fst {ε σ τ α : Type} {f : σ × τ → α → Except ε (σ × τ)} {g : σ → α → Except ε σ}
    {xs : List α} (h : ∀ x ∈ xs, ∀ s, ∃ t, f s x = g s.1 x >>= fun a ↦ .ok (a, t)) (s : σ × τ) :
    (xs.foldlM f s >>= fun s ↦ .ok s.1) = xs.foldlM g s.1 := by
  induction xs generalizing s with
  | nil => rfl
  | cons x xs ih =>
      obtain ⟨t, ht⟩ := h x List.mem_cons_self s
      rw [List.foldlM_cons, List.foldlM_cons, ht, bind_assoc, bind_assoc]
      refine congrArg (g s.1 x >>= ·) (funext fun a ↦ ?_)
      exact ih (fun y hy ↦ h y (List.mem_cons_of_mem x hy)) (a, t)

end Lib
