import FaissNavix.Lattice.Repeats
import Mathlib.Data.Finset.Card
import Mathlib.Data.List.Permutation

/-!
# Arrangements of values

What the codes of permutations mean: the digits of a code, in a number system of binomial coefficients, are the
numbers of the slots that one value after the other has among those that are left.  Every arrangement has a code and
every code has an arrangement.
-/

namespace FaissNavix

open Lib

variable {α : Type} [DecidableEq α]

def isVal (cs : List α) (v : α) (i : ℕ) : Bool := decide (cs[i]? = some v)

/-- The components in some slots are these values, each as often as it is repeated. -/
def Arranged (cs : List α) : List (Repeat α) → List ℕ → Prop
  | [], F => F = []
  | r :: rs, F => 0 < r.n ∧ F.countP (isVal cs r.val) = r.n ∧ Arranged cs rs (F.filter fun i ↦ !isVal cs r.val i)

/-- The code of the components in some slots. -/
def codeOf (cs : List α) : List (Repeat α) → List ℕ → ℕ
  | [], _ => 0
  | r :: rs, F =>
    rankOf (F.map (isVal cs r.val)).reverse + F.length.choose r.n * codeOf cs rs (F.filter fun i ↦ !isVal cs r.val i)

/-- The slots for a value, by the number of their selection. -/
def inDigit (F : List ℕ) (n digit i : ℕ) : Bool :=
  (ofRank F.length n digit).reverse.getD (F.idxOf i) false

def setAll (cs : List α) (v : α) (slots : List ℕ) : List α :=
  slots.foldl (fun cs i ↦ cs.set i v) cs

/-- The vector with the components in some slots that have a code. -/
def vectorOf : List (Repeat α) → List ℕ → ℕ → List α → List α
  | [], _, _, cs => cs
  | r :: rs, F, code, cs =>
    let p := inDigit F r.n (code % F.length.choose r.n)
    vectorOf rs (F.filter fun i ↦ !p i) (code / F.length.choose r.n) (setAll cs r.val (F.filter p).reverse)

def arrangements : List (Repeat α) → ℕ → ℕ
  | [], _ => 1
  | r :: rs, n => n.choose r.n * arrangements rs (n - r.n)

variable {cs c' : List α} {v : α} {r : Repeat α} {rs : List (Repeat α)} {F slots : List ℕ} {i n code : ℕ}

/-! ## Values in slots -/

omit [DecidableEq α] in
@[simp] theorem length_setAll (cs : List α) (v : α) (slots : List ℕ) : (setAll cs v slots).length = cs.length := by
  unfold setAll
  induction slots generalizing cs with
  | nil => rfl
  | cons i slots ih => rw [List.foldl_cons, ih, List.length_set]

omit [DecidableEq α] in
theorem getElem?_setAll_of_notMem (hi : i ∉ slots) : (setAll cs v slots)[i]? = cs[i]? := by
  unfold setAll
  induction slots generalizing cs with
  | nil => rfl
  | cons j slots ih =>
      rw [List.mem_cons, not_or] at hi
      rw [List.foldl_cons, ih hi.2, List.getElem?_set_ne (Ne.symm hi.1)]

omit [DecidableEq α] in
theorem getElem?_setAll_of_mem (hi : i ∈ slots) (hlt : i < cs.length) : (setAll cs v slots)[i]? = some v := by
  unfold setAll
  induction slots generalizing cs with
  | nil => exact absurd hi List.not_mem_nil
  | cons j slots ih =>
      rw [List.foldl_cons]
      by_cases hin : i ∈ slots
      · exact ih hin (by rwa [List.length_set])
      · obtain rfl : i = j := (List.mem_cons.mp hi).resolve_right hin
        have hrest : (setAll (cs.set i v) v slots)[i]? = (cs.set i v)[i]? := getElem?_setAll_of_notMem hin
        rw [setAll] at hrest
        rw [hrest, List.getElem?_set_self hlt]

theorem map_inDigit (hF : F.Nodup) (n digit : ℕ) :
    F.map (inDigit F n digit) = (ofRank F.length n digit).reverse := by
  refine List.ext_getElem (by rw [List.length_map, List.length_reverse, length_ofRank]) fun j hj hj' ↦ ?_
  rw [List.length_map] at hj
  rw [List.getElem_map, inDigit, hF.idxOf_getElem j hj, List.getD_eq_getElem _ _ hj']

theorem count_map (p : ℕ → Bool) (F : List ℕ) : (F.map p).count true = F.countP p := by
  rw [List.count, List.countP_map]
  exact List.countP_congr fun i _ ↦ by simp

theorem inDigit_rankOf (p : ℕ → Bool) (hi : i ∈ F) :
    inDigit F (F.countP p) (rankOf (F.map p).reverse) i = p i := by
  have hlen : (F.map p).reverse.length = F.length := by rw [List.length_reverse, List.length_map]
  have hcount : (F.map p).reverse.count true = F.countP p := by rw [List.count_reverse, count_map]
  have hrank := ofRank_rankOf (F.map p).reverse
  rw [hlen, hcount] at hrank
  have hidx := List.idxOf_lt_length_of_mem hi
  rw [inDigit, hrank, List.reverse_reverse, List.getD_eq_getElem _ _ (by rwa [List.length_map]), List.getElem_map,
    List.getElem_idxOf]

theorem countP_inDigit (hF : F.Nodup) {digit : ℕ} (h : digit < F.length.choose n) :
    F.countP (inDigit F n digit) = n := by
  rw [← count_map, map_inDigit hF, List.count_reverse, count_ofRank h]

theorem rankOf_inDigit (hF : F.Nodup) {digit : ℕ} (h : digit < F.length.choose n) :
    rankOf (F.map (inDigit F n digit)).reverse = digit := by
  rw [map_inDigit hF, List.reverse_reverse, rankOf_ofRank h]

theorem length_filter_not (p : ℕ → Bool) (F : List ℕ) : (F.filter fun i ↦ !p i).length = F.length - F.countP p := by
  have hsplit := List.length_eq_countP_add_countP p (l := F)
  rw [← List.countP_eq_length_filter]
  have hnot : F.countP (fun i ↦ !p i) = F.countP fun a ↦ decide ¬ p a = true :=
    List.countP_congr fun i _ ↦ by simp
  omega

/-! ## The code of an arrangement -/

omit [DecidableEq α] in
theorem arrangements_pos (hsum : (rs.map Repeat.n).sum ≤ n) : 0 < arrangements rs n := by
  induction rs generalizing n with
  | nil => exact Nat.zero_lt_one
  | cons r rs ih =>
      rw [List.map_cons, List.sum_cons] at hsum
      exact Nat.mul_pos (Nat.choose_pos (by omega)) (ih (by omega))

theorem Arranged.exists_val (h : Arranged cs rs F) (hi : i ∈ F) : ∃ r ∈ rs, cs[i]? = some r.val := by
  induction rs generalizing F with
  | nil =>
      rw [Arranged] at h
      exact absurd hi (h ▸ List.not_mem_nil)
  | cons r rs ih =>
      by_cases hval : cs[i]? = some r.val
      · exact ⟨r, List.mem_cons_self, hval⟩
      · have hrest : i ∈ F.filter fun i ↦ !isVal cs r.val i := by
          refine List.mem_filter.mpr ⟨hi, ?_⟩
          rw [isVal, decide_eq_false hval]
          rfl
        obtain ⟨r', hr', hv⟩ := ih h.2.2 hrest
        exact ⟨r', List.mem_cons_of_mem r hr', hv⟩

theorem Arranged.sum_eq (h : Arranged cs rs F) : (rs.map Repeat.n).sum = F.length := by
  induction rs generalizing F with
  | nil =>
      rw [Arranged] at h
      rw [h]
      rfl
  | cons r rs ih =>
      obtain ⟨-, hcount, hrest⟩ := h
      have hle : F.countP (isVal cs r.val) ≤ F.length := List.countP_le_length
      rw [List.map_cons, List.sum_cons, ih hrest, length_filter_not, hcount]
      omega

theorem codeOf_lt (h : Arranged cs rs F) : codeOf cs rs F < arrangements rs F.length := by
  induction rs generalizing F with
  | nil => exact Nat.zero_lt_one
  | cons r rs ih =>
      obtain ⟨-, hcount, hrest⟩ := h
      have hdigit := rankOf_lt (F.map (isVal cs r.val)).reverse
      have hbits : (F.map (isVal cs r.val)).reverse.count true = r.n := by
        rw [List.count_reverse, count_map, hcount]
      rw [List.length_reverse, List.length_map, hbits] at hdigit
      have hcode := ih hrest
      rw [length_filter_not, hcount] at hcode
      have hle := Nat.mul_le_mul_left (F.length.choose r.n) (Nat.succ_le_of_lt hcode)
      rw [Nat.mul_succ] at hle
      rw [codeOf, arrangements]
      omega

/-! ## Decoding and encoding -/

omit [DecidableEq α] in
theorem getElem?_vectorOf_of_notMem (hi : i ∉ F) : (vectorOf rs F code cs)[i]? = cs[i]? := by
  induction rs generalizing F code cs with
  | nil => rfl
  | cons r rs ih =>
      rw [vectorOf, ih fun h ↦ hi (List.mem_of_mem_filter h), getElem?_setAll_of_notMem]
      exact fun h ↦ hi (List.mem_of_mem_filter (List.mem_reverse.mp h))

omit [DecidableEq α] in
theorem length_vectorOf (rs : List (Repeat α)) (F : List ℕ) (code : ℕ) (cs : List α) :
    (vectorOf rs F code cs).length = cs.length := by
  induction rs generalizing F code cs with
  | nil => rfl
  | cons r rs ih => rw [vectorOf, ih, length_setAll]

/-- The code of an arrangement gives its components. -/
theorem getElem?_vectorOf_codeOf (h : Arranged cs rs F) (hF : ∀ i ∈ F, i < c'.length) (i : ℕ) :
    (vectorOf rs F (codeOf cs rs F) c')[i]? = if i ∈ F then cs[i]? else c'[i]? := by
  induction rs generalizing F c' with
  | nil =>
      rw [Arranged] at h
      rw [h, if_neg List.not_mem_nil]
      rfl
  | cons r rs ih =>
      obtain ⟨-, hcount, hrest⟩ := h
      have hdigit := rankOf_lt (F.map (isVal cs r.val)).reverse
      rw [List.length_reverse, List.length_map, List.count_reverse, count_map, hcount] at hdigit
      have hpos : 0 < F.length.choose r.n := Nat.zero_lt_of_lt hdigit
      have hsame : ∀ j ∈ F, inDigit F r.n (rankOf (F.map (isVal cs r.val)).reverse) j = isVal cs r.val j := by
        intro j hj
        rw [← hcount]
        exact inDigit_rankOf _ hj
      rw [vectorOf, codeOf, Nat.add_mul_mod_self_left, Nat.mod_eq_of_lt hdigit, Nat.add_mul_div_left _ _ hpos,
        Nat.div_eq_of_lt hdigit, Nat.zero_add, List.filter_congr hsame, List.filter_congr (q := fun i ↦ !isVal cs r.val i) fun j hj ↦ by rw [hsame j hj],
        ih hrest fun j hj ↦ by
          rw [length_setAll]
          exact hF j (List.mem_of_mem_filter hj)]
      by_cases hi : i ∈ F
      · rw [if_pos hi]
        cases hval : isVal cs r.val i with
        | true =>
            have hchosen : i ∈ (F.filter (isVal cs r.val)).reverse :=
              List.mem_reverse.mpr (List.mem_filter.mpr ⟨hi, hval⟩)
            rw [if_neg fun h ↦ by simp [hval] at h, getElem?_setAll_of_mem hchosen (hF i hi)]
            exact (of_decide_eq_true hval).symm
        | false => rw [if_pos (List.mem_filter.mpr ⟨hi, by rw [hval]; rfl⟩)]
      · rw [if_neg hi, if_neg fun h ↦ hi (List.mem_of_mem_filter h), getElem?_setAll_of_notMem]
        exact fun h ↦ hi (List.mem_of_mem_filter (List.mem_reverse.mp h))

/-- Every code is that of the arrangement it gives. -/
theorem arranged_vectorOf (hvals : (rs.map Repeat.val).Nodup) (hpos : ∀ r ∈ rs, 0 < r.n)
    (hsum : (rs.map Repeat.n).sum = F.length) (hF : F.Nodup) (hlt : ∀ i ∈ F, i < c'.length)
    (hcode : code < arrangements rs F.length) :
    Arranged (vectorOf rs F code c') rs F ∧ codeOf (vectorOf rs F code c') rs F = code := by
  induction rs generalizing F code c' with
  | nil =>
      exact ⟨List.eq_nil_of_length_eq_zero hsum.symm, (Nat.lt_one_iff.mp hcode).symm⟩
  | cons r rs ih =>
      obtain ⟨hnot, hvals⟩ := List.nodup_cons.mp hvals
      rw [List.map_cons, List.sum_cons] at hsum
      have hchoose : 0 < F.length.choose r.n := Nat.choose_pos (by omega)
      have hdigit := Nat.mod_lt code hchoose
      have hcount := countP_inDigit hF hdigit
      have hleft := length_filter_not (inDigit F r.n (code % F.length.choose r.n)) F
      rw [hcount] at hleft
      have hlt' : ∀ i ∈ F.filter fun i ↦ !inDigit F r.n (code % F.length.choose r.n) i,
          i < (setAll c' r.val (F.filter (inDigit F r.n (code % F.length.choose r.n))).reverse).length := by
        intro i hi
        rw [length_setAll]
        exact hlt i (List.mem_of_mem_filter hi)
      have hcode' : code / F.length.choose r.n <
          arrangements rs (F.filter fun i ↦ !inDigit F r.n (code % F.length.choose r.n) i).length := by
        rw [hleft]
        exact Nat.div_lt_of_lt_mul hcode
      obtain ⟨hrest, hcodeOf⟩ := ih hvals (fun r' hr' ↦ hpos r' (List.mem_cons_of_mem r hr')) (by omega)
        (hF.filter _) hlt' hcode'
      -- the value is where the digit says, as the other slots have other values
      have hsame : ∀ i ∈ F, isVal (vectorOf (r :: rs) F code c') r.val i =
          inDigit F r.n (code % F.length.choose r.n) i := by
        intro i hi
        rw [vectorOf]
        cases hp : inDigit F r.n (code % F.length.choose r.n) i with
        | true =>
            refine decide_eq_true ?_
            rw [getElem?_vectorOf_of_notMem fun h ↦ by simp [hp] at h]
            exact getElem?_setAll_of_mem (List.mem_reverse.mpr (List.mem_filter.mpr ⟨hi, hp⟩)) (hlt i hi)
        | false =>
            obtain ⟨r', hr', hval⟩ := hrest.exists_val (List.mem_filter.mpr ⟨hi, by rw [hp]; rfl⟩)
            refine decide_eq_false fun hval' ↦ hnot ?_
            rw [hval] at hval'
            exact Option.some.inj hval' ▸ List.mem_map_of_mem hr'
      have hfilter : (F.filter fun i ↦ !isVal (vectorOf (r :: rs) F code c') r.val i) =
          F.filter fun i ↦ !inDigit F r.n (code % F.length.choose r.n) i :=
        List.filter_congr fun i hi ↦ by rw [hsame i hi]
      refine ⟨⟨hpos r List.mem_cons_self, ?_, ?_⟩, ?_⟩
      · exact (List.countP_congr fun i hi ↦ by rw [hsame i hi]).trans hcount
      · rw [hfilter]
        exact hrest
      · rw [codeOf, hfilter, List.map_congr_left hsame, rankOf_inDigit hF hdigit]
        exact (congrArg (_ + _ * ·) hcodeOf).trans (Nat.mod_add_div code _)

/-! ## The values of a template -/

/-- The values of a template, each with the number of its repeats. -/
structure RepeatsOf (rs : List (Repeat α)) (cs : List α) : Prop where
  nodup : (rs.map Repeat.val).Nodup
  pos : ∀ r ∈ rs, 0 < r.n
  count : ∀ r ∈ rs, r.n = cs.count r.val
  exists_val : ∀ v ∈ cs, ∃ r ∈ rs, r.val = v

/-- A component is counted with those that have its value, or it has a new one. -/
theorem addRepeat_cases (rs : List (Repeat α)) (v : α) :
    (∃ front n back, rs = front ++ ⟨v, n⟩ :: back ∧ addRepeat rs v = front ++ ⟨v, n + 1⟩ :: back) ∨
      (∀ r ∈ rs, r.val ≠ v) ∧ addRepeat rs v = rs ++ [⟨v, 1⟩] := by
  induction rs with
  | nil => exact Or.inr ⟨fun r hr ↦ absurd hr List.not_mem_nil, rfl⟩
  | cons r rs ih =>
      rw [addRepeat]
      by_cases hv : r.val = v
      · subst hv
        exact Or.inl ⟨[], r.n, rs, rfl, by rw [if_pos rfl, List.nil_append]⟩
      · rw [if_neg hv]
        rcases ih with ⟨front, n, back, hrs, hadd⟩ | ⟨hnew, hadd⟩
        · exact Or.inl ⟨r :: front, n, back, by rw [hrs, List.cons_append], by rw [hadd, List.cons_append]⟩
        · exact Or.inr ⟨List.forall_mem_cons.mpr ⟨hv, hnew⟩, by rw [hadd, List.cons_append]⟩

theorem RepeatsOf.addRepeat (h : RepeatsOf rs cs) (v : α) : RepeatsOf (addRepeat rs v) (cs ++ [v]) := by
  have hcount : ∀ u, (cs ++ [v]).count u = cs.count u + if v = u then 1 else 0 := by
    intro u
    rw [List.count_append, List.count_singleton]
    simp only [beq_iff_eq]
  rcases addRepeat_cases rs v with ⟨front, n, back, hrs, hadd⟩ | ⟨hnew, hadd⟩
  · have hvals : (FaissNavix.addRepeat rs v).map Repeat.val = rs.map Repeat.val := by
      rw [hadd, hrs, List.map_append, List.map_append, List.map_cons, List.map_cons]
    have hnodup := h.nodup
    rw [hrs, List.map_append, List.map_cons, List.nodup_middle, List.nodup_cons, ← List.map_append] at hnodup
    have hn := h.count ⟨v, n⟩ (hrs ▸ List.mem_append_right front List.mem_cons_self)
    have hothers : ∀ r ∈ front ++ back, r ∈ rs ∧ v ≠ r.val := by
      intro r hr
      refine ⟨?_, fun hv ↦ hnodup.1 (List.mem_map.mpr ⟨r, hr, hv.symm⟩)⟩
      rw [hrs]
      rcases List.mem_append.mp hr with hr | hr
      · exact List.mem_append_left _ hr
      · exact List.mem_append_right _ (List.mem_cons_of_mem _ hr)
    have hmem : ∀ r ∈ FaissNavix.addRepeat rs v, r = ⟨v, n + 1⟩ ∨ r ∈ front ++ back := by
      intro r hr
      rw [hadd] at hr
      simpa [or_left_comm] using hr
    refine ⟨hvals ▸ h.nodup, fun r hr ↦ ?_, fun r hr ↦ ?_, fun u hu ↦ ?_⟩
    · rcases hmem r hr with rfl | hr
      · exact Nat.succ_pos n
      · exact h.pos r (hothers r hr).1
    · rcases hmem r hr with rfl | hr
      · rw [hcount, if_pos rfl, ← hn]
      · rw [hcount, if_neg (hothers r hr).2, h.count r (hothers r hr).1]
        rfl
    · rw [← List.mem_map, hvals, List.mem_map]
      rcases List.mem_append.mp hu with hu | hu
      · exact h.exists_val u hu
      · obtain rfl := List.mem_singleton.mp hu
        exact ⟨⟨u, n⟩, hrs ▸ List.mem_append_right front List.mem_cons_self, rfl⟩
  · have hzero : cs.count v = 0 := List.count_eq_zero.mpr fun hv ↦ by
      obtain ⟨r, hr, hval⟩ := h.exists_val v hv
      exact hnew r hr hval
    rw [hadd]
    refine ⟨?_, fun r hr ↦ ?_, fun r hr ↦ ?_, fun u hu ↦ ?_⟩
    · rw [List.map_append, List.map_singleton, ← List.concat_eq_append]
      refine h.nodup.concat fun hv ↦ ?_
      obtain ⟨r, hr, hval⟩ := List.mem_map.mp hv
      exact hnew r hr hval
    · rcases List.mem_append.mp hr with hr | hr
      · exact h.pos r hr
      · rw [List.mem_singleton.mp hr]
        exact Nat.one_pos
    · rcases List.mem_append.mp hr with hr | hr
      · rw [hcount, if_neg (Ne.symm (hnew r hr)), h.count r hr]
        rfl
      · rw [List.mem_singleton.mp hr, hcount, if_pos rfl, hzero]
    · rcases List.mem_append.mp hu with hu | hu
      · obtain ⟨r, hr, hval⟩ := h.exists_val u hu
        exact ⟨r, List.mem_append_left _ hr, hval⟩
      · exact ⟨⟨v, 1⟩, List.mem_append_right _ List.mem_cons_self, (List.mem_singleton.mp hu).symm⟩

theorem Repeats.new_repeatsOf (t : List α) : RepeatsOf (Repeats.new t).repeats t := by
  have hfold : ∀ (t before : List α) (rs : List (Repeat α)), RepeatsOf rs before →
      RepeatsOf (t.foldl FaissNavix.addRepeat rs) (before ++ t) := by
    intro t
    induction t with
    | nil =>
        intro before rs h
        rwa [List.append_nil]
    | cons v t ih =>
        intro before rs h
        rw [List.foldl_cons, List.append_cons]
        exact ih _ _ (h.addRepeat v)
  exact hfold t [] [] ⟨List.nodup_nil, fun r hr ↦ absurd hr List.not_mem_nil,
    fun r hr ↦ absurd hr List.not_mem_nil, fun v hv ↦ absurd hv List.not_mem_nil⟩

theorem countP_range_isVal (cs : List α) (v : α) : (List.range cs.length).countP (isVal cs v) = cs.count v := by
  have hmap : (List.range cs.length).map (fun i ↦ cs[i]?) = cs.map some := by
    refine List.ext_getElem (by rw [List.length_map, List.length_map, List.length_range]) fun i hi hi' ↦ ?_
    rw [List.length_map] at hi'
    rw [List.getElem_map, List.getElem_map, List.getElem_range, List.getElem?_eq_getElem hi']
  have hcount : (List.range cs.length).countP (isVal cs v) =
      ((List.range cs.length).map fun i ↦ cs[i]?).countP fun o ↦ decide (o = some v) := by
    rw [List.countP_map]
    rfl
  rw [hcount, hmap, List.countP_map, List.count]
  exact List.countP_congr fun u _ ↦ by simp

theorem arranged_of_counts (hvals : (rs.map Repeat.val).Nodup) (hpos : ∀ r ∈ rs, 0 < r.n)
    (hcount : ∀ r ∈ rs, F.countP (isVal cs r.val) = r.n) (hval : ∀ i ∈ F, ∃ r ∈ rs, cs[i]? = some r.val) :
    Arranged cs rs F := by
  induction rs generalizing F with
  | nil =>
      refine List.eq_nil_iff_forall_not_mem.mpr fun i hi ↦ ?_
      obtain ⟨r, hr, -⟩ := hval i hi
      exact List.not_mem_nil hr
  | cons r rs ih =>
      obtain ⟨hnot, hvals⟩ := List.nodup_cons.mp hvals
      refine ⟨hpos r List.mem_cons_self, hcount r List.mem_cons_self,
        ih hvals (fun r' hr' ↦ hpos r' (List.mem_cons_of_mem r hr')) (fun r' hr' ↦ ?_) fun i hi ↦ ?_⟩
      · rw [List.countP_filter, ← hcount r' (List.mem_cons_of_mem r hr')]
        refine List.countP_congr fun i _ ↦ ⟨fun h ↦ (Bool.and_eq_true_iff.mp h).1, fun h ↦ ?_⟩
        refine Bool.and_eq_true_iff.mpr ⟨h, ?_⟩
        rw [isVal, decide_eq_false]
        · rfl
        · rw [of_decide_eq_true h]
          exact fun h ↦ hnot (Option.some.inj h ▸ List.mem_map_of_mem hr')
      · obtain ⟨hiF, hother⟩ := List.mem_filter.mp hi
        obtain ⟨r', hr', hv⟩ := hval i hiF
        rcases List.mem_cons.mp hr' with rfl | hr'
        · rw [isVal, decide_eq_true hv] at hother
          exact absurd hother Bool.false_ne_true
        · exact ⟨r', hr', hv⟩

/-- In an arrangement, each value is in as many slots as it is repeated. -/
theorem Arranged.countP_eq (h : Arranged cs rs F) (hvals : (rs.map Repeat.val).Nodup) (hr : r ∈ rs) :
    F.countP (isVal cs r.val) = r.n := by
  induction rs generalizing F with
  | nil => exact absurd hr List.not_mem_nil
  | cons r' rs ih =>
      obtain ⟨hnot, hvals⟩ := List.nodup_cons.mp hvals
      rcases List.mem_cons.mp hr with rfl | hr
      · exact h.2.1
      · rw [← ih h.2.2 hvals hr, List.countP_filter]
        refine List.countP_congr fun i _ ↦ ⟨fun h ↦ ?_, fun h ↦ (Bool.and_eq_true_iff.mp h).1⟩
        refine Bool.and_eq_true_iff.mpr ⟨h, ?_⟩
        rw [isVal, decide_eq_false]
        · rfl
        · rw [of_decide_eq_true h]
          exact fun h ↦ hnot (Option.some.inj h ▸ List.mem_map_of_mem hr)

/-- The arrangements of the values of a template are its permutations. -/
theorem RepeatsOf.arranged_iff {t : List α} (h : RepeatsOf rs t) :
    Arranged cs rs (List.range cs.length) ↔ cs.Perm t := by
  constructor
  · intro ha
    have hval : ∀ v ∈ cs, ∃ r ∈ rs, r.val = v := by
      intro v hv
      obtain ⟨i, hi, rfl⟩ := List.mem_iff_getElem.mp hv
      obtain ⟨r, hr, hget⟩ := ha.exists_val (List.mem_range.mpr hi)
      rw [List.getElem?_eq_getElem hi] at hget
      exact ⟨r, hr, (Option.some.inj hget).symm⟩
    refine List.perm_iff_count.mpr fun v ↦ ?_
    by_cases hv : ∃ r ∈ rs, r.val = v
    · obtain ⟨r, hr, rfl⟩ := hv
      rw [← countP_range_isVal, ha.countP_eq h.nodup hr, h.count r hr]
    · rw [List.count_eq_zero.mpr fun hc ↦ hv (hval v hc), List.count_eq_zero.mpr fun ht ↦ hv (h.exists_val v ht)]
  · intro hperm
    refine arranged_of_counts h.nodup h.pos (fun r hr ↦ ?_) fun i hi ↦ ?_
    · rw [countP_range_isVal, hperm.count_eq, h.count r hr]
    · have hi := List.mem_range.mp hi
      obtain ⟨r, hr, hv⟩ := h.exists_val cs[i] (hperm.subset (List.getElem_mem hi))
      exact ⟨r, hr, by rw [hv, List.getElem?_eq_getElem hi]⟩

section Template

variable {t out : List α} (h : RepeatsOf rs t)
include h

theorem RepeatsOf.arranged (hc : cs.Perm t) : Arranged cs rs (List.range t.length) := by
  rw [← hc.length_eq]
  exact h.arranged_iff.mpr hc

theorem RepeatsOf.sum_eq : (rs.map Repeat.n).sum = t.length := by
  rw [(h.arranged (List.Perm.refl t)).sum_eq, List.length_range]

theorem RepeatsOf.codeOf_lt (hc : cs.Perm t) : codeOf cs rs (List.range t.length) < arrangements rs t.length := by
  have hlt := FaissNavix.codeOf_lt (h.arranged hc)
  rwa [List.length_range] at hlt

theorem RepeatsOf.vectorOf_codeOf (hc : cs.Perm t) (hout : out.length = t.length) :
    vectorOf rs (List.range t.length) (codeOf cs rs (List.range t.length)) out = cs := by
  refine List.ext_getElem? fun i ↦ ?_
  rw [getElem?_vectorOf_codeOf (h.arranged hc) fun j hj ↦ hout ▸ List.mem_range.mp hj]
  split
  · rfl
  · next hi =>
      rw [List.mem_range, not_lt] at hi
      rw [List.getElem?_eq_none (hout ▸ hi), List.getElem?_eq_none (hc.length_eq ▸ hi)]

theorem RepeatsOf.perm_vectorOf (hcode : code < arrangements rs t.length) (hout : out.length = t.length) :
    (vectorOf rs (List.range t.length) code out).Perm t ∧
      codeOf (vectorOf rs (List.range t.length) code out) rs (List.range t.length) = code := by
  obtain ⟨hperm, hcodeOf⟩ := arranged_vectorOf h.nodup h.pos (by rw [h.sum_eq, List.length_range])
    List.nodup_range (fun i hi ↦ (List.mem_range.mp hi).trans_eq hout.symm) (by rwa [List.length_range])
  refine ⟨h.arranged_iff.mp ?_, hcodeOf⟩
  rwa [length_vectorOf, hout]

theorem RepeatsOf.arrangements_eq_card : arrangements rs t.length = t.permutations.toFinset.card := by
  rw [← Finset.card_range (arrangements rs t.length)]
  refine Finset.card_nbij' (fun code ↦ vectorOf rs (List.range t.length) code t)
    (fun cs ↦ codeOf cs rs (List.range t.length)) (fun code hcode ↦ ?_) (fun cs hc ↦ ?_) (fun code hcode ↦ ?_)
    fun cs hc ↦ ?_
  · rw [Finset.mem_coe, List.mem_toFinset, List.mem_permutations]
    exact (h.perm_vectorOf (Finset.mem_range.mp hcode) rfl).1
  · rw [Finset.mem_coe, List.mem_toFinset, List.mem_permutations] at hc
    exact Finset.mem_coe.mpr (Finset.mem_range.mpr (h.codeOf_lt hc))
  · exact (h.perm_vectorOf (Finset.mem_range.mp hcode) rfl).2
  · rw [Finset.mem_coe, List.mem_toFinset, List.mem_permutations] at hc
    exact h.vectorOf_codeOf hc rfl

end Template

end FaissNavix
