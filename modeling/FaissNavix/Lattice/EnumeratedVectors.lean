import FaissNavix.Float32
import FaissNavix.Lib.Loop

/-!
# Nearest codes of an enumerated codec

`EnumeratedVectors::find_nn` of `faiss/impl/lattice_Zn.cpp`, with any codec and any function in the
place of `fvec_inner_product`.

The loop over the codes decodes `codes[nc]` in each of its turns, the entry after the last one.  It
reads past the end of an array of `nc` codes unless `nc` is 0.  Where the array is the beginning of a
longer one, all turns compare the queries to the same vector (`EnumeratedVectors.allTurns_apply`), so
that no query gets another label than 0.
-/

namespace FaissNavix

open Function (update)

/-- What `find_nn` uses of an `EnumeratedVectors`.  `decode` gives no vector for a code that is not
valid. -/
structure EnumeratedVectors where
  dim : ℕ
  decode : UInt64 → Option (ℕ → F32)

/-- The arrays that `find_nn` writes. -/
structure NearestCodes where
  labels : ℕ → ℤ
  distances : ℕ → F32

namespace EnumeratedVectors

/-- `-1e20` -/
def worst : F32 := ⟨0xe0ad78ec#32⟩

variable (codec : EnumeratedVectors) (fvecInnerProduct : (ℕ → F32) → (ℕ → F32) → ℕ → F32)

/-- `fvec_inner_product(xq + j * dim, c.data(), dim)` -/
def score (xq c : ℕ → F32) (j : ℕ) : F32 :=
  fvecInnerProduct (fun t ↦ xq (j * codec.dim + t)) c codec.dim

/-- The loop over the queries, with the vector `c` in turn `i` of the loop over the codes. -/
def updateQueries (nq : ℕ) (xq c : ℕ → F32) (i : ℕ) (s : NearestCodes) : NearestCodes :=
  (List.range nq).foldl
    (fun s j ↦
      let dis := codec.score fvecInnerProduct xq c j
      if s.distances j < dis then
        { labels := update s.labels j i, distances := update s.distances j dis }
      else s) s

def initial (nq : ℕ) (s : NearestCodes) : NearestCodes where
  labels := fun i ↦ if i < nq then -1 else s.labels i
  distances := fun i ↦ if i < nq then worst else s.distances i

/-- `find_nn`, which gives nothing when it reads past the end of `codes` or decodes what is not a
code. -/
def findNn (nc : ℕ) (codes : List UInt64) (nq : ℕ) (xq : ℕ → F32) (s : NearestCodes) :
    Option NearestCodes :=
  (List.range nc).foldlM
    (fun s i ↦ do
      let code ← codes[nc]?
      let c ← codec.decode code
      return codec.updateQueries fvecInnerProduct nq xq c i s)
    (initial nq s)

/-! ## Nearest codes -/

/-- `label` is the first index at which `codes` has a code whose vector has the largest inner product
with query `j`, which is `distance`; without codes, the values are those that the search starts
with. -/
def IsNearest (codes : List UInt64) (xq : ℕ → F32) (j : ℕ) (label : ℤ) (distance : F32) : Prop :=
  (codes = [] ∧ label = -1 ∧ distance = worst) ∨
    ∃ i : ℕ, label = i ∧
      (∃ code ∈ codes[i]?, ∃ c ∈ codec.decode code,
        distance = codec.score fvecInnerProduct xq c j) ∧
      ∀ i', ∀ code ∈ codes[i']?, ∀ c ∈ codec.decode code,
        ¬distance < codec.score fvecInnerProduct xq c j ∧
          (i' < i → codec.score fvecInnerProduct xq c j < distance)

/-! ## The loops -/

variable {codec fvecInnerProduct} {nq : ℕ} {xq c : ℕ → F32} {codes : List UInt64}

variable (codec fvecInnerProduct xq c) in
/-- The loop over the queries treats each query alone. -/
theorem updateQueries_apply (i : ℕ) (s : NearestCodes) {j : ℕ} (hj : j < nq) :
    (codec.updateQueries fvecInnerProduct nq xq c i s).labels j =
        (if s.distances j < codec.score fvecInnerProduct xq c j then (i : ℤ) else s.labels j) ∧
      (codec.updateQueries fvecInnerProduct nq xq c i s).distances j =
        if s.distances j < codec.score fvecInnerProduct xq c j then codec.score fvecInnerProduct xq c j
        else s.distances j := by
  set dis := codec.score fvecInnerProduct xq c j with hdis
  -- the queries before `m` are done, and nothing has been written for the others
  have hrun := Lib.foldl_range_invariant (n := nq)
    (f := fun s j ↦
      let dis := codec.score fvecInnerProduct xq c j
      if s.distances j < dis then
        ({ labels := update s.labels j (i : ℤ), distances := update s.distances j dis } : NearestCodes)
      else s)
    (fun m t ↦
      (j < m → t.labels j = (if s.distances j < dis then (i : ℤ) else s.labels j) ∧
        t.distances j = if s.distances j < dis then dis else s.distances j) ∧
      (m ≤ j → t.labels j = s.labels j ∧ t.distances j = s.distances j))
    (s := s) ⟨fun h ↦ absurd h (Nat.not_lt_zero j), fun _ ↦ ⟨rfl, rfl⟩⟩
    fun m t hm ⟨hdone, htodo⟩ ↦ by
      rcases lt_trichotomy j m with hlt | rfl | hgt
      · refine ⟨fun _ ↦ ?_, fun h ↦ absurd h (by omega)⟩
        rw [← (hdone hlt).1, ← (hdone hlt).2]
        dsimp only
        split
        · exact ⟨Function.update_of_ne hlt.ne _ _, Function.update_of_ne hlt.ne _ _⟩
        · exact ⟨rfl, rfl⟩
      · obtain ⟨hlabel, hdistance⟩ := htodo le_rfl
        refine ⟨fun _ ↦ ?_, fun h ↦ absurd h (by omega)⟩
        dsimp only
        rw [hdistance]
        split
        · exact ⟨Function.update_self .., Function.update_self ..⟩
        · exact ⟨hlabel, hdistance⟩
      · refine ⟨fun h ↦ absurd h (by omega), fun _ ↦ ?_⟩
        rw [← (htodo hgt.le).1, ← (htodo hgt.le).2]
        dsimp only
        split
        · exact ⟨Function.update_of_ne hgt.ne' _ _, Function.update_of_ne hgt.ne' _ _⟩
        · exact ⟨rfl, rfl⟩
  exact hrun.1 hj

variable (codec fvecInnerProduct nq xq c) in
/-- The loop over the codes, if every turn decodes to `c`. -/
def allTurns (n : ℕ) (s : NearestCodes) : NearestCodes :=
  (List.range n).foldl (fun s i ↦ codec.updateQueries fvecInnerProduct nq xq c i s) (initial nq s)

theorem allTurns_succ (n : ℕ) (s : NearestCodes) :
    codec.allTurns fvecInnerProduct nq xq c (n + 1) s =
      codec.updateQueries fvecInnerProduct nq xq c n
        (codec.allTurns fvecInnerProduct nq xq c n s) := by
  rw [allTurns, List.range_succ, List.foldl_append]
  rfl

variable (codec fvecInnerProduct xq c) in
/-- What a query has once it has been compared to one vector, any number of times. -/
theorem allTurns_apply (s : NearestCodes) {j : ℕ} (hj : j < nq) (n : ℕ) :
    (codec.allTurns fvecInnerProduct nq xq c (n + 1) s).labels j =
        (if worst < codec.score fvecInnerProduct xq c j then 0 else -1) ∧
      (codec.allTurns fvecInnerProduct nq xq c (n + 1) s).distances j =
        if worst < codec.score fvecInnerProduct xq c j then codec.score fvecInnerProduct xq c j
        else worst := by
  induction n with
  | zero =>
      obtain ⟨hlabel, hdistance⟩ := updateQueries_apply codec fvecInnerProduct xq c 0 (initial nq s) hj
      have h : (initial nq s).labels j = -1 ∧ (initial nq s).distances j = worst :=
        ⟨if_pos hj, if_pos hj⟩
      rw [h.1, h.2] at hlabel
      rw [h.2] at hdistance
      exact ⟨hlabel, hdistance⟩
  | succ n ih =>
      obtain ⟨hlabel, hdistance⟩ := updateQueries_apply codec fvecInnerProduct xq c (n + 1)
        (codec.allTurns fvecInnerProduct nq xq c (n + 1) s) hj
      have hstay : ¬(codec.allTurns fvecInnerProduct nq xq c (n + 1) s).distances j <
          codec.score fvecInnerProduct xq c j := by
        rw [ih.2]
        split
        · exact fun hlt ↦ absurd (F32.lt_iff.mp hlt).2.2 (lt_irrefl _)
        · assumption
      rw [if_neg hstay, ih.1] at hlabel
      rw [if_neg hstay, ih.2] at hdistance
      rw [allTurns_succ]
      exact ⟨hlabel, hdistance⟩

/-- The turns all decode the entry after the last one. -/
theorem findNn_eq (s : NearestCodes) (n : ℕ) :
    codec.findNn fvecInnerProduct (n + 1) codes nq xq s =
      (codes[n + 1]?.bind codec.decode).map fun c ↦
        codec.allTurns fvecInnerProduct nq xq c (n + 1) s := by
  rw [findNn]
  cases hcode : codes[n + 1]? with
  | none =>
      rw [List.range_succ_eq_map, List.foldlM_cons]
      rfl
  | some code =>
      cases hc : codec.decode code with
      | none =>
          rw [List.range_succ_eq_map, List.foldlM_cons]
          simp only [Option.bind_eq_bind, Option.bind_some, hc]
          rfl
      | some c =>
          simp only [Option.bind_eq_bind, Option.bind_some, hc, Option.map_some]
          exact List.foldlM_pure

/-! ## The result -/

/-- The codes that `find_nn` finds are nearest exactly if there are none to find, or if the entry that
follows them in memory is a code too, with which every query has the inner product that it has with
the first code, and if no code has a larger one. -/
theorem findNn_exact_iff (codec : EnumeratedVectors)
    (fvecInnerProduct : (ℕ → F32) → (ℕ → F32) → ℕ → F32) (nc : ℕ) (codes : List UInt64) (nq : ℕ)
    (xq : ℕ → F32) (s : NearestCodes) (hnc : nc ≤ codes.length)
    (hworst : ∀ code ∈ codes.take nc, ∀ c ∈ codec.decode code, ∀ j < nq,
      worst < codec.score fvecInnerProduct xq c j) :
    (∃ r, codec.findNn fvecInnerProduct nc codes nq xq s = some r ∧ ∀ j < nq,
        codec.IsNearest fvecInnerProduct (codes.take nc) xq j (r.labels j) (r.distances j)) ↔
      nc = 0 ∨ ∃ after ∈ codes[nc]?, ∃ c ∈ codec.decode after, ∀ j < nq,
        ∃ first ∈ codes[0]?, ∃ c₀ ∈ codec.decode first,
          codec.score fvecInnerProduct xq c j = codec.score fvecInnerProduct xq c₀ j ∧
            ∀ code ∈ codes.take nc, ∀ c' ∈ codec.decode code,
              ¬codec.score fvecInnerProduct xq c₀ j < codec.score fvecInnerProduct xq c' j := by
  cases nc with
  | zero => exact iff_of_true ⟨initial nq s, rfl, fun j hj ↦
      Or.inl ⟨List.take_zero, if_pos hj, if_pos hj⟩⟩ (Or.inl rfl)
  | succ n =>
      have hne : codes.take (n + 1) ≠ [] := List.ne_nil_of_length_pos
        (by rw [List.length_take_of_le hnc]; exact Nat.succ_pos n)
      have hfirst : (codes.take (n + 1))[0]? = codes[0]? :=
        List.getElem?_take_of_lt (Nat.succ_pos n)
      rw [findNn_eq]
      constructor
      · rintro ⟨r, hr, hnearest⟩
        obtain ⟨c, hdecode, rfl⟩ := Option.map_eq_some_iff.mp hr
        obtain ⟨after, hafter, hc⟩ := Option.bind_eq_some_iff.mp hdecode
        refine Or.inr ⟨after, hafter, c, hc, fun j hj ↦ ?_⟩
        obtain ⟨hlabel, hdistance⟩ := allTurns_apply codec fvecInnerProduct xq c s hj n
        rcases hnearest j hj with ⟨hnil, -⟩ | ⟨i, hi, ⟨first, hmem, c₀, hc₀, hscore⟩, hbest⟩
        · exact absurd hnil hne
        · have hlt : worst < codec.score fvecInnerProduct xq c j := by
            by_contra hge
            rw [if_neg hge, hi] at hlabel
            omega
          rw [if_pos hlt] at hlabel hdistance
          obtain rfl : i = 0 := by omega
          rw [hdistance] at hscore hbest
          refine ⟨first, hfirst ▸ hmem, c₀, hc₀, hscore, fun code hcode c' hc' ↦ ?_⟩
          obtain ⟨i', hi'⟩ := List.mem_iff_getElem?.mp hcode
          exact hscore ▸ (hbest i' code hi' c' hc').1
      · rintro (h | ⟨after, hafter, c, hc, hbest⟩)
        · exact absurd h (Nat.succ_ne_zero n)
        · refine ⟨codec.allTurns fvecInnerProduct nq xq c (n + 1) s, ?_, fun j hj ↦ Or.inr ⟨0, ?_⟩⟩
          · rw [Option.mem_def.mp hafter, Option.bind_some, Option.mem_def.mp hc, Option.map_some]
          · obtain ⟨hlabel, hdistance⟩ := allTurns_apply codec fvecInnerProduct xq c s hj n
            obtain ⟨first, hmem, c₀, hc₀, hscore, hmax⟩ := hbest j hj
            have hin : first ∈ codes.take (n + 1) :=
              List.mem_of_getElem? (hfirst.trans (Option.mem_def.mp hmem))
            have hlt : worst < codec.score fvecInnerProduct xq c j :=
              hscore ▸ hworst first hin c₀ hc₀ j hj
            rw [hlabel, hdistance, if_pos hlt, if_pos hlt]
            refine ⟨rfl, ⟨first, hfirst.symm ▸ hmem, c₀, hc₀, hscore⟩, fun i' code hi' c' hc' ↦
              ⟨?_, fun h ↦ absurd h (Nat.not_lt_zero i')⟩⟩
            rw [hscore]
            exact hmax code (List.mem_of_getElem? hi') c' hc'

/-! ## One code

A codec for vectors of one number, all of whose codes stand for 1, and one query, which is 1. -/

/-- All codes stand for the vector 1. -/
def ones : EnumeratedVectors where
  dim := 1
  decode := fun _ ↦ some fun _ ↦ ⟨0x3f800000#32⟩

/-- The inner product of a number and 1. -/
def timesOne (x _ : ℕ → F32) (_ : ℕ) : F32 := x 0

/-- The one code that there is is not found. -/
theorem not_nearest_one : ¬∃ r,
    ones.findNn timesOne 1 [0] 1 (fun _ ↦ ⟨0x3f800000#32⟩) ⟨fun _ ↦ 0, fun _ ↦ worst⟩ = some r ∧
      ∀ j < 1, ones.IsNearest timesOne [0] (fun _ ↦ ⟨0x3f800000#32⟩) j (r.labels j)
        (r.distances j) := by
  rintro ⟨r, hr, -⟩
  rw [findNn_eq] at hr
  exact Option.some_ne_none r hr.symm

/-- It is found if the same code follows it in memory. -/
theorem findNn_exact_iff_one : ∃ r,
    ones.findNn timesOne 1 [0, 0] 1 (fun _ ↦ ⟨0x3f800000#32⟩) ⟨fun _ ↦ 0, fun _ ↦ worst⟩ = some r ∧
      ∀ j < 1, ones.IsNearest timesOne [0] (fun _ ↦ ⟨0x3f800000#32⟩) j (r.labels j)
        (r.distances j) := by
  refine (findNn_exact_iff ones timesOne 1 [0, 0] 1 _ _ (Nat.le_succ 1) ?_).mpr
    (Or.inr ⟨0, rfl, _, rfl, fun j _ ↦ ⟨0, rfl, _, rfl, rfl, ?_⟩⟩)
  · rintro code - c - j -
    change worst < ⟨0x3f800000#32⟩
    decide
  · rintro code - c' -
    change ¬(⟨0x3f800000#32⟩ : F32) < ⟨0x3f800000#32⟩
    decide

end EnumeratedVectors

end FaissNavix
