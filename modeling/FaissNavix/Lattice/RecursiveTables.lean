import FaissNavix.Lattice.RecursiveCodec
import FaissNavix.Lattice.Spheres
import FaissNavix.Lib.Loop
import FaissNavix.Lib.Rows

/-!
# The tables of the recursive codec

The constructor fills the tables with the numbers of integer vectors, level by level.  With these, encoding
numbers a vector half by half, from the components up, and decoding goes down to the nodes of a code.
-/

namespace FaissNavix.ZnSphereCodecRec

open Spheres

variable {F : Type} {z z₀ : ZnSphereCodecRec F} {p ld r a : ℕ}

/-! ## Filling the tables -/

/-- The tables have all their values. -/
structure Counted (p : ℕ) (z : ZnSphereCodecRec F) : Prop where
  nv : ∀ ld r, ld ≤ p → r ≤ z.r2 → z.getNv ld r = some (sphereCount ld r)
  cum : ∀ ld r a, ld < p → r ≤ z.r2 → a ≤ r → z.getNvCum (ld + 1) r a = some (Lib.cum (pairCount ld r) a)

/-- The tables are filled up to row `r` of level `ld`, and `all_nv_cum` up to column `a` of this row.  Nothing
else has changed. -/
structure Filled (z₀ : ZnSphereCodecRec F) (p ld r a : ℕ) (z : ZnSphereCodecRec F) : Prop where
  frame : z = { z₀ with allNv := z.allNv, allNvCum := z.allNvCum }
  length_nv : z.allNv.length = (p + 1) * (z₀.r2 + 1)
  length_cum : z.allNvCum.length = (p + 1) * (z₀.r2 + 1) * (z₀.r2 + 1)
  nv : ∀ ld' r', r' ≤ z₀.r2 → ld' < ld ∨ ld' = ld ∧ r' < r → z.getNv ld' r' = some (sphereCount ld' r')
  cum : ∀ ld' r' a', r' ≤ z₀.r2 → a' ≤ r' → ld' + 1 < ld ∨ ld' + 1 = ld ∧ (r' < r ∨ r' = r ∧ a' < a) →
    z.getNvCum (ld' + 1) r' a' = some (Lib.cum (pairCount ld' r') a')

theorem Filled.r2_eq (h : Filled z₀ p ld r a z) : z.r2 = z₀.r2 := by rw [h.frame]

theorem Filled.next_level (h : Filled z₀ p ld (z₀.r2 + 1) 0 z) : Filled z₀ p (ld + 1) 0 0 z :=
  ⟨h.frame, h.length_nv, h.length_cum, fun ld' r' hr' hlt ↦ h.nv ld' r' hr' (by omega),
    fun ld' r' a' hr' ha' hlt ↦ h.cum ld' r' a' hr' ha' (by omega)⟩

theorem Filled.counted (h : Filled z₀ p (p + 1) 0 0 z) : Counted p z where
  nv := fun ld r hld hr ↦ h.nv ld r (h.r2_eq ▸ hr) (by omega)
  cum := fun ld r a hld hr ha ↦ h.cum ld r a (h.r2_eq ▸ hr) ha (by omega)

/-- The number of a row, when all of its cumulated numbers are there. -/
theorem Filled.setNv (h : Filled z₀ p ld r a z) (hld : ld ≤ p) (hr : r ≤ z₀.r2) (ha : ld = 0 ∨ a = r + 1) :
    ∃ z', z.setNv ld r (sphereCount ld r) = some z' ∧ Filled z₀ p ld (r + 1) 0 z' := by
  have hr2 := h.r2_eq
  have hrow : r < z.r2 + 1 := by omega
  have hlt : ld * (z.r2 + 1) + r < z.allNv.length := by
    rw [h.length_nv, ← hr2]
    exact Lib.cell_lt (Nat.lt_succ_of_le hld) hrow
  refine ⟨_, if_pos hlt, ?_, by rw [← h.length_nv, List.length_set], h.length_cum, fun ld' r' hr' hdone ↦ ?_,
    fun ld' r' a' hr' ha' hdone ↦ ?_⟩
  · rw [h.frame]
  · by_cases heq : ld' = ld ∧ r' = r
    · obtain ⟨rfl, rfl⟩ := heq
      exact List.getElem?_set_self hlt
    · rw [← h.nv ld' r' hr' (by omega)]
      refine List.getElem?_set_ne fun hcell ↦ heq ?_
      obtain ⟨hld', hr'⟩ := Lib.cell_inj hrow (by omega) hcell
      exact ⟨hld'.symm, hr'.symm⟩
  · exact h.cum ld' r' a' hr' ha' (by omega)

theorem Filled.setNvCum (h : Filled z₀ p (ld + 1) r a z) (hld : ld < p) (hr : r ≤ z₀.r2) (ha : a ≤ r) :
    ∃ z', z.setNvCum (ld + 1) r a (Lib.cum (pairCount ld r) a) = some z' ∧
      Filled z₀ p (ld + 1) r (a + 1) z' := by
  have hr2 := h.r2_eq
  have hrow : r < z.r2 + 1 := by omega
  have hcol : a < z.r2 + 1 := by omega
  have hlt : ((ld + 1) * (z.r2 + 1) + r) * (z.r2 + 1) + a < z.allNvCum.length := by
    rw [h.length_cum, ← hr2]
    exact Lib.cell_lt (Lib.cell_lt (Nat.succ_lt_succ hld) hrow) hcol
  refine ⟨_, if_pos hlt, ?_, h.length_nv, by rw [← h.length_cum, List.length_set], fun ld' r' hr' hdone ↦ ?_,
    fun ld' r' a' hr' ha' hdone ↦ ?_⟩
  · rw [h.frame]
  · exact h.nv ld' r' hr' (by omega)
  · by_cases heq : ld' = ld ∧ r' = r ∧ a' = a
    · obtain ⟨rfl, rfl, rfl⟩ := heq
      exact List.getElem?_set_self hlt
    · rw [← h.cum ld' r' a' hr' ha' (by omega)]
      refine List.getElem?_set_ne fun hcell ↦ heq ?_
      obtain ⟨hrows, hcols⟩ := Lib.cell_inj hcol (by omega) hcell
      obtain ⟨hlevels, hnorms⟩ := Lib.cell_inj hrow (by omega) hrows
      exact ⟨by omega, hnorms.symm, hcols.symm⟩

theorem leafTurn_filled (h : Filled z₀ p 0 r 0 z) (hr : r ≤ z₀.r2) :
    ∃ z', leafTurn z r = some z' ∧ Filled z₀ p 0 (r + 1) 0 z' := by
  obtain ⟨z', hset, hfilled⟩ := h.setNv (Nat.zero_le p) hr (.inl rfl)
  exact ⟨z', hset, hfilled⟩

/-- What the loop over `r2a` adds up are the cumulated numbers. -/
theorem convolveTurn_filled {s : ZnSphereCodecRec F × ℕ} (h : Filled z₀ p (ld + 1) r a s.1) (hld : ld < p)
    (hr : r ≤ z₀.r2) (ha : a ≤ r) (hs : s.2 = Lib.cum (pairCount ld r) a) (hfit : sphereCount (ld + 1) r < 2 ^ 64) :
    ∃ s', convolveTurn (ld + 1) r s a = some s' ∧ Filled z₀ p (ld + 1) r (a + 1) s'.1 ∧
      s'.2 = Lib.cum (pairCount ld r) (a + 1) := by
  obtain ⟨z', hset, hfilled⟩ := h.setNvCum hld hr ha
  have hcum : Lib.cum (pairCount ld r) (a + 1) < 2 ^ 64 :=
    (Lib.cum_mono (pairCount ld r) (Nat.succ_le_succ ha)).trans_lt hfit
  refine ⟨(z', Lib.cum (pairCount ld r) (a + 1)), ?_, hfilled, rfl⟩
  rw [convolveTurn, hs, hset]
  simp only [Option.bind_eq_bind, Option.bind_some, Nat.add_sub_cancel,
    hfilled.nv ld a (by omega) (by omega), hfilled.nv ld (r - a) (by omega) (by omega)]
  rw [Lib.cum_succ] at hcum ⊢
  exact congrArg (fun n ↦ some (z', n)) (Nat.mod_eq_of_lt hcum)

theorem normTurn_filled (h : Filled z₀ p (ld + 1) r 0 z) (hld : ld < p) (hr : r ≤ z₀.r2)
    (hfit : sphereCount (ld + 1) r < 2 ^ 64) :
    ∃ z', normTurn (ld + 1) z r = some z' ∧ Filled z₀ p (ld + 1) (r + 1) 0 z' := by
  obtain ⟨s, hfold, hfilled, hs⟩ := Lib.foldlM_range_done (m := Option) (n := r + 1)
    (f := convolveTurn (ld + 1) r) (s := (z, 0))
    (fun a s ↦ Filled z₀ p (ld + 1) r a s.1 ∧ s.2 = Lib.cum (pairCount ld r) a) ⟨h, rfl⟩
    fun a ha s hs ↦ convolveTurn_filled hs.1 hld hr (Nat.le_of_lt_succ ha) hs.2 hfit
  obtain ⟨z', hset, hfilled'⟩ := hfilled.setNv hld hr (.inr rfl)
  refine ⟨z', ?_, hfilled'⟩
  rw [normTurn, hfold]
  simp only [Option.pure_def, Option.bind_eq_bind, Option.bind_some]
  rw [hs]
  exact hset

/-- The loops of the constructor fill the tables. -/
theorem tables_counted (z₀ : ZnSphereCodecRec F) (hnv : z₀.allNv.length = (p + 1) * (z₀.r2 + 1))
    (hcum : z₀.allNvCum.length = (p + 1) * (z₀.r2 + 1) * (z₀.r2 + 1))
    (hfit : ∀ ld r, ld ≤ p → r ≤ z₀.r2 → sphereCount ld r < 2 ^ 64) :
    ∃ z₁ z, (List.range (z₀.r2 + 1)).foldlM leafTurn z₀ = some z₁ ∧
      (List.range p).foldlM (fun z t ↦ (List.range (z₀.r2 + 1)).foldlM (normTurn (t + 1)) z) z₁ = some z ∧
      z = { z₀ with allNv := z.allNv, allNvCum := z.allNvCum } ∧ Counted p z := by
  have hstart : Filled z₀ p 0 0 0 z₀ :=
    ⟨rfl, hnv, hcum, fun _ _ _ h ↦ absurd h (by omega), fun _ _ _ _ _ h ↦ absurd h (by omega)⟩
  obtain ⟨z₁, hleaves, hfilled₁⟩ := Lib.foldlM_range_done (m := Option) (fun r z ↦ Filled z₀ p 0 r 0 z) hstart
    fun r hr z hz ↦ leafTurn_filled hz (Nat.le_of_lt_succ hr)
  obtain ⟨z, hlevels, hfilled⟩ := Lib.foldlM_range_done (m := Option) (n := p)
    (f := fun z t ↦ (List.range (z₀.r2 + 1)).foldlM (normTurn (t + 1)) z)
    (fun t z ↦ Filled z₀ p (t + 1) 0 0 z) hfilled₁.next_level fun t ht z hz ↦ by
      obtain ⟨z', hrows, hfilled'⟩ := Lib.foldlM_range_done (m := Option)
        (fun r z ↦ Filled z₀ p (t + 1) r 0 z) hz fun r hr z hz ↦
          normTurn_filled hz ht (Nat.le_of_lt_succ hr) (hfit (t + 1) r ht (Nat.le_of_lt_succ hr))
      exact ⟨z', hrows, hfilled'.next_level⟩
  exact ⟨z₁, z, hleaves, hlevels, hfilled.frame, hfilled.counted⟩

/-! ## Encoding -/

/-- A block of `2 ^ ld` components. -/
def blockOf (c : List ℤ) (ld i : ℕ) : List ℤ := (c.drop (i * 2 ^ ld)).take (2 ^ ld)

/-- The node `i` of the arrays. -/
def Nodes.At (s : Nodes) (i : ℕ) (x : ℕ × ℕ) : Prop := s.norm2s[i]? = some x.1 ∧ s.codes[i]? = some x.2

/-- The number of a block, with its squared norm. -/
def blockNode (c : List ℤ) (ld i : ℕ) : ℕ × ℕ := (sqNorm (blockOf c ld i), sphereCode ld (blockOf c ld i))

section Blocks

variable {c cs : List ℤ} {i : ℕ}

theorem length_blockOf (hc : c.length = 2 ^ p) (hld : ld ≤ p) (hi : i < 2 ^ (p - ld)) :
    (blockOf c ld i).length = 2 ^ ld := by
  have hpow : 2 ^ (p - ld) * 2 ^ ld = 2 ^ p := by rw [← Nat.pow_add, Nat.sub_add_cancel hld]
  have hle : (i + 1) * 2 ^ ld ≤ 2 ^ (p - ld) * 2 ^ ld := Nat.mul_le_mul_right _ hi
  rw [Nat.succ_mul] at hle
  rw [blockOf, List.length_take, List.length_drop, hc]
  omega

theorem sqNorm_blockOf_le (c : List ℤ) (ld i : ℕ) : sqNorm (blockOf c ld i) ≤ sqNorm c := by
  have htake := sqNorm_take_add_drop (2 ^ ld) (c.drop (i * 2 ^ ld))
  have hdrop := sqNorm_take_add_drop (i * 2 ^ ld) c
  rw [blockOf]
  omega

theorem take_blockOf (c : List ℤ) (ld i : ℕ) : (blockOf c (ld + 1) i).take (2 ^ ld) = blockOf c ld (2 * i) := by
  have hle : 2 ^ ld ≤ 2 ^ (ld + 1) := Nat.pow_le_pow_right Nat.two_pos (Nat.le_succ ld)
  rw [blockOf, blockOf, List.take_take, Nat.min_eq_left hle, Nat.pow_succ]
  congr 2
  ring

theorem drop_blockOf (c : List ℤ) (ld i : ℕ) :
    (blockOf c (ld + 1) i).drop (2 ^ ld) = blockOf c ld (2 * i + 1) := by
  have hsub : 2 ^ (ld + 1) - 2 ^ ld = 2 ^ ld := by
    rw [Nat.pow_succ]
    omega
  rw [blockOf, blockOf, List.drop_take, List.drop_drop, hsub, Nat.pow_succ]
  congr 2
  ring

theorem blockOf_all (hc : c.length = 2 ^ p) : blockOf c p 0 = c := by
  rw [blockOf, Nat.zero_mul, List.drop_zero, ← hc, List.take_length]

theorem blockNode_zero {x : ℤ} (hx : cs[i]? = some x) : blockNode cs 0 i = leafOf x := by
  have hblock : blockOf cs 0 i = [x] := by
    rw [blockOf, Nat.pow_zero, Nat.mul_one, List.take_one, List.head?_drop, hx]
    rfl
  rw [blockNode, hblock, leafOf, sphereCode, sqNorm_cons, sqNorm_nil, List.headD_cons, toNat_mul_self,
    Nat.add_zero]
  by_cases h0 : x = 0
  · rw [if_pos h0, h0]
    rfl
  · rw [if_neg h0]

theorem blockNode_lt (hc : c.length = 2 ^ p) (hr2 : sqNorm c ≤ z.r2)
    (hfit : ∀ ld r, ld ≤ p → r ≤ z.r2 → sphereCount ld r < 2 ^ 64) (hld : ld ≤ p) (hi : i < 2 ^ (p - ld)) :
    (blockNode c ld i).2 < 2 ^ 64 := by
  have hmem : blockOf c ld i ∈ sphere (2 ^ ld) (sqNorm (blockOf c ld i)) := ⟨length_blockOf hc hld hi, rfl⟩
  exact ((sphere_numbers ld _).encode_lt _ hmem).trans (hfit ld _ hld ((sqNorm_blockOf_le c ld i).trans hr2))

end Blocks

/-- Node `i` is joined to those before it. -/
theorem Counted.joinTurn_eq (hz : Counted p z) {c : List ℤ} (hc : c.length = 2 ^ p) (hr2 : sqNorm c ≤ z.r2)
    (hfit : ∀ ld r, ld ≤ p → r ≤ z.r2 → sphereCount ld r < 2 ^ 64) (hld : ld < p) {i : ℕ}
    (hi : i < 2 ^ (p - (ld + 1))) {s : Nodes} (hcodes : i < s.codes.length) (hnorms : i < s.norm2s.length)
    (hleft : s.At (2 * i) (blockNode c ld (2 * i))) (hright : s.At (2 * i + 1) (blockNode c ld (2 * i + 1))) :
    ∃ s', z.joinTurn (ld + 1) s i = some s' ∧ s'.codes.length = s.codes.length ∧
      s'.norm2s.length = s.norm2s.length ∧ s'.At i (blockNode c (ld + 1) i) ∧
      ∀ j x, j ≠ i → s.At j x → s'.At j x := by
  have hsum := sqNorm_take_add_drop (2 ^ ld) (blockOf c (ld + 1) i)
  have hle := (sqNorm_blockOf_le c (ld + 1) i).trans hr2
  have hfits := blockNode_lt hc hr2 hfit hld hi
  have hcode : (blockNode c (ld + 1) i).2 =
      Lib.cum (pairCount ld (sqNorm (blockOf c (ld + 1) i))) (sqNorm (blockOf c ld (2 * i))) +
        sphereCode ld (blockOf c ld (2 * i)) * sphereCount ld (sqNorm (blockOf c ld (2 * i + 1))) +
        sphereCode ld (blockOf c ld (2 * i + 1)) := by
    rw [blockNode, sphereCode, hsum, take_blockOf, drop_blockOf, ← Nat.add_assoc]
  rw [take_blockOf, drop_blockOf] at hsum
  refine ⟨⟨s.codes.set i (blockNode c (ld + 1) i).2, s.norm2s.set i (blockNode c (ld + 1) i).1⟩, ?_,
    List.length_set, List.length_set,
    ⟨List.getElem?_set_self hnorms, List.getElem?_set_self hcodes⟩, fun j x hj hx ↦
      ⟨(List.getElem?_set_ne hj.symm).trans hx.1, (List.getElem?_set_ne hj.symm).trans hx.2⟩⟩
  rw [joinTurn, hleft.1, hleft.2, hright.1, hright.2]
  simp only [Option.bind_eq_bind, Option.bind_some, blockNode, hsum, Nat.add_sub_cancel]
  rw [hz.cum ld _ _ hld hle (by omega), hz.nv ld _ hld.le (by omega)]
  simp only [Option.bind_some, Option.pure_def]
  rw [← hcode, Nat.mod_eq_of_lt hfits]
  rfl

/-- The nodes of a level, all in their places. -/
structure Joined (c : List ℤ) (p ld : ℕ) (s : Nodes × ℕ) : Prop where
  length_codes : s.1.codes.length = 2 ^ p
  length_norm2s : s.1.norm2s.length = 2 ^ p
  at_block : ∀ i < 2 ^ (p - ld), s.1.At i (blockNode c ld i)
  dim2_eq : s.2 = 2 ^ (p - ld) / 2

/-- A turn over the levels: the node that is written is not read any more. -/
theorem Counted.joinLevel_joined (hz : Counted p z) {c : List ℤ} (hc : c.length = 2 ^ p) (hr2 : sqNorm c ≤ z.r2)
    (hfit : ∀ ld r, ld ≤ p → r ≤ z.r2 → sphereCount ld r < 2 ^ 64) (hld : ld < p) {s : Nodes × ℕ}
    (hs : Joined c p ld s) : ∃ s', z.joinLevel s (ld + 1) = some s' ∧ Joined c p (ld + 1) s' := by
  have hpow : 2 ^ (p - ld) = 2 ^ (p - (ld + 1)) * 2 := by
    rw [← Nat.pow_succ]
    congr 1
    omega
  have hhalf : s.2 = 2 ^ (p - (ld + 1)) := by rw [hs.dim2_eq, hpow, Nat.mul_div_cancel _ Nat.two_pos]
  have hle : 2 ^ (p - (ld + 1)) ≤ 2 ^ p := Nat.pow_le_pow_right Nat.two_pos (Nat.sub_le p _)
  obtain ⟨nodes, hfold, hcodes, hnorms, hdone, -⟩ := Lib.foldlM_range_done (m := Option) (s := s.1)
    (f := z.joinTurn (ld + 1)) (n := 2 ^ (p - (ld + 1)))
    (fun i nodes ↦ nodes.codes.length = 2 ^ p ∧ nodes.norm2s.length = 2 ^ p ∧
      (∀ j < i, nodes.At j (blockNode c (ld + 1) j)) ∧
      ∀ j, i ≤ j → j < 2 ^ (p - ld) → nodes.At j (blockNode c ld j))
    ⟨hs.length_codes, hs.length_norm2s, fun j hj ↦ absurd hj (Nat.not_lt_zero j), fun j _ hj ↦ hs.at_block j hj⟩
    fun i hi nodes hnodes ↦ by
      obtain ⟨hcodes, hnorms, hdone, hleft⟩ := hnodes
      obtain ⟨nodes', hturn, hcodes', hnorms', hself, hother⟩ := hz.joinTurn_eq hc hr2 hfit hld hi
        (by omega) (by omega) (hleft (2 * i) (by omega) (by omega)) (hleft (2 * i + 1) (by omega) (by omega))
      refine ⟨nodes', hturn, hcodes'.trans hcodes, hnorms'.trans hnorms, fun j hj ↦ ?_, fun j hij hj ↦ ?_⟩
      · rcases Nat.lt_succ_iff_lt_or_eq.mp hj with hlt | rfl
        · exact hother j _ hlt.ne (hdone j hlt)
        · exact hself
      · exact hother j _ (by omega) (hleft j (by omega) hj)
  refine ⟨(nodes, s.2 / 2), ?_, hcodes, hnorms, hdone, by rw [hhalf]⟩
  rw [joinLevel, hhalf, hfold]
  rfl

/-- `encode_centroid` numbers the vectors of the sphere. -/
theorem Counted.encodeCentroid_eq (hz : Counted p z) (hdim : z.dim = 2 ^ p) (hlog : z.log2Dim = p)
    (hfit : ∀ ld r, ld ≤ p → r ≤ z.r2 → sphereCount ld r < 2 ^ 64) {cs : List ℤ}
    (hc : cs ∈ sphere (2 ^ p) z.r2) : z.encodeCentroid cs = some (sphereCode p cs) := by
  obtain ⟨hlen, hr2⟩ := hc
  have hleaves : (List.range z.dim).mapM (fun i ↦ cs[i]?.map leafOf) = some (cs.map leafOf) := by
    rw [hdim, ← hlen, Lib.mapM_range_eq (f := fun x ↦ some (leafOf x)) fun i x hx ↦ by rw [hx]; rfl]
    exact Lib.mapM_eq_some_map fun x _ ↦ rfl
  have hstart : Joined cs p 0 (⟨(cs.map leafOf).map Prod.snd, (cs.map leafOf).map Prod.fst⟩, 2 ^ p / 2) := by
    refine ⟨by simp only [List.length_map, hlen], by simp only [List.length_map, hlen], fun i hi ↦ ?_, rfl⟩
    obtain ⟨x, hx⟩ : ∃ x, cs[i]? = some x := ⟨_, List.getElem?_eq_getElem (by rw [hlen]; exact hi)⟩
    rw [blockNode_zero hx]
    exact ⟨by simp only [List.getElem?_map, hx, Option.map_some], by
      simp only [List.getElem?_map, hx, Option.map_some]⟩
  obtain ⟨⟨nodes, dim2⟩, hfold, hjoined⟩ := Lib.foldlM_range_done (m := Option) (n := p)
    (f := fun s t ↦ z.joinLevel s (t + 1)) (fun t s ↦ Joined cs p t s) hstart
    fun t ht s hs ↦ hz.joinLevel_joined hlen hr2.le hfit ht hs
  have hroot := (hjoined.at_block 0 (by rw [Nat.sub_self]; exact Nat.one_pos)).2
  rw [encodeCentroid, hleaves, hlog, hdim]
  simp only [Option.bind_eq_bind, Option.bind_some, hfold, Option.pure_def]
  rw [hroot, blockNode, blockOf_all hlen]

/-! ## Decoding -/

/-- Node `i` is split, and its children are put in its place and behind it. -/
theorem Counted.splitTurn_eq (hz : Counted p z) (hld : ld < p) {i : ℕ} {s : Nodes} {x : ℕ × ℕ}
    (hcodes : 2 * i + 1 < s.codes.length) (hnorms : 2 * i + 1 < s.norm2s.length) (hx : s.At i x)
    (hr2 : x.1 ≤ z.r2) :
    ∃ s', z.splitTurn (ld + 1) s i = some s' ∧ s'.codes.length = s.codes.length ∧
      s'.norm2s.length = s.norm2s.length ∧ s'.At (2 * i) (leftChild ld x) ∧
      s'.At (2 * i + 1) (rightChild ld x) ∧ ∀ j y, j ≠ 2 * i → j ≠ 2 * i + 1 → s.At j y → s'.At j y := by
  have hleft := leftNorm_le ld x
  have hfind : Lib.findSegment (fun j ↦ z.getNvCum (ld + 1) x.1 j) x.2 (x.1 + 1) 0 (x.1 + 1) =
      some (leftNorm ld x) :=
    Lib.findSegment_eq (fun j hj ↦ hz.cum ld x.1 j hld hr2 hj) (by omega) (by omega) le_rfl
      ((Lib.cum_zero _).trans_le (Nat.zero_le _)) fun h ↦ absurd h (by omega)
  have hpos := right_pos ld x
  refine ⟨⟨(s.codes.set (2 * i) (leftChild ld x).2).set (2 * i + 1) (rightChild ld x).2,
    (s.norm2s.set (2 * i) (leftChild ld x).1).set (2 * i + 1) (rightChild ld x).1⟩, ?_, ?_, ?_, ⟨?_, ?_⟩,
    ⟨?_, ?_⟩, fun j y hj hj' hy ↦ ⟨?_, ?_⟩⟩
  · rw [splitTurn, hx.1, hx.2]
    simp only [Option.bind_eq_bind, Option.bind_some, hfind, hz.cum ld x.1 _ hld hr2 hleft,
      Nat.add_sub_cancel, hz.nv ld (x.1 - leftNorm ld x) hld.le (by omega)]
    rw [if_neg (by omega)]
    rfl
  · rw [List.length_set, List.length_set]
  · rw [List.length_set, List.length_set]
  · rw [List.getElem?_set_ne (by omega)]
    exact List.getElem?_set_self (by omega)
  · rw [List.getElem?_set_ne (by omega)]
    exact List.getElem?_set_self (by omega)
  · exact List.getElem?_set_self (by rwa [List.length_set])
  · exact List.getElem?_set_self (by rwa [List.length_set])
  · rw [List.getElem?_set_ne hj'.symm, List.getElem?_set_ne hj.symm]
    exact hy.1
  · rw [List.getElem?_set_ne hj'.symm, List.getElem?_set_ne hj.symm]
    exact hy.2

/-- The nodes `t` levels below the root, all in their places. -/
structure Split (p t : ℕ) (x : ℕ × ℕ) (s : Nodes × ℕ) : Prop where
  length_codes : s.1.codes.length = 2 ^ p
  length_norm2s : s.1.norm2s.length = 2 ^ p
  at_node : ∀ i y, (descend t p x)[i]? = some y → s.1.At i y
  dim2_eq : s.2 = 2 ^ t

theorem getElem?_flatMap_pair {α β : Type} (f g : α → β) (l : List α) (i : ℕ) :
    (l.flatMap fun x ↦ [f x, g x])[2 * i]? = l[i]?.map f ∧
      (l.flatMap fun x ↦ [f x, g x])[2 * i + 1]? = l[i]?.map g := by
  induction l generalizing i with
  | nil => exact ⟨rfl, rfl⟩
  | cons x l ih =>
      cases i with
      | zero => exact ⟨rfl, rfl⟩
      | succ i => exact ih i

theorem getElem?_descend_succ {t i : ℕ} {x y : ℕ × ℕ} (hy : (descend t p x)[i]? = some y) :
    (descend (t + 1) p x)[2 * i]? = some (leftChild (p - t - 1) y) ∧
      (descend (t + 1) p x)[2 * i + 1]? = some (rightChild (p - t - 1) y) := by
  have hpairs : descend 1 (p - t) = fun y ↦ [leftChild (p - t - 1) y, rightChild (p - t - 1) y] := rfl
  obtain ⟨hleft, hright⟩ := getElem?_flatMap_pair (leftChild (p - t - 1)) (rightChild (p - t - 1))
    (descend t p x) i
  rw [descend_add, hpairs, hleft, hright, hy]
  exact ⟨rfl, rfl⟩

/-- A turn over the levels: the node that is split is not overwritten before, as the loop counts down. -/
theorem Counted.splitLevel_split (hz : Counted p z) {t : ℕ} (ht : t < p) {x : ℕ × ℕ} (hx : x.1 ≤ z.r2)
    {s : Nodes × ℕ} (hs : Split p t x s) :
    ∃ s', z.splitLevel s (p - t) = some s' ∧ Split p (t + 1) x s' := by
  have hlevel : p - t = p - t - 1 + 1 := by omega
  have hle : 2 ^ (t + 1) ≤ 2 ^ p := Nat.pow_le_pow_right Nat.two_pos ht
  have hpow : 2 ^ (t + 1) = 2 ^ t * 2 := Nat.pow_succ 2 t
  have hnode : ∀ i < 2 ^ t, ∃ y, (descend t p x)[i]? = some y := fun i hi ↦
    ⟨_, List.getElem?_eq_getElem (by rwa [length_descend])⟩
  obtain ⟨nodes, hfold, hcodes, hnorms, -, hdone⟩ := Lib.foldlM_range_reverse_done (m := Option) (s := s.1)
    (f := z.splitTurn (p - t - 1 + 1)) (n := 2 ^ t)
    (fun i nodes ↦ nodes.codes.length = 2 ^ p ∧ nodes.norm2s.length = 2 ^ p ∧
      (∀ j y, j < i → (descend t p x)[j]? = some y → nodes.At j y) ∧
      ∀ j y, i ≤ j → (descend t p x)[j]? = some y →
        nodes.At (2 * j) (leftChild (p - t - 1) y) ∧ nodes.At (2 * j + 1) (rightChild (p - t - 1) y))
    ⟨hs.length_codes, hs.length_norm2s, fun j y _ hy ↦ hs.at_node j y hy, fun j y hj hy ↦ by
      obtain ⟨hlt, -⟩ := List.getElem?_eq_some_iff.mp hy
      rw [length_descend] at hlt
      omega⟩
    fun i hi nodes hnodes ↦ by
      obtain ⟨hcodes, hnorms, hbefore, hdone⟩ := hnodes
      obtain ⟨y, hy⟩ := hnode i hi
      have hnorm := (le_of_mem_descend (List.mem_of_getElem? hy)).trans hx
      obtain ⟨nodes', hturn, hcodes', hnorms', hleft, hright, hother⟩ :=
        hz.splitTurn_eq (show p - t - 1 < p by omega) (by omega) (by omega)
          (hbefore i y (Nat.lt_succ_self i) hy) hnorm
      refine ⟨nodes', hturn, hcodes'.trans hcodes, hnorms'.trans hnorms, fun j y' hj hy' ↦ ?_,
        fun j y' hij hy' ↦ ?_⟩
      · exact hother j y' (by omega) (by omega) (hbefore j y' (by omega) hy')
      · rcases hij.eq_or_lt with rfl | hlt
        · obtain rfl := Option.some.inj (hy.symm.trans hy')
          exact ⟨hleft, hright⟩
        · obtain ⟨hleft', hright'⟩ := hdone j y' hlt hy'
          exact ⟨hother _ _ (by omega) (by omega) hleft', hother _ _ (by omega) (by omega) hright'⟩
  refine ⟨(nodes, s.2 * 2), ?_, hcodes, hnorms, fun i y hy ↦ ?_, by rw [hs.dim2_eq, hpow]⟩
  · rw [splitLevel, hs.dim2_eq, hlevel, hfold]
    rfl
  · obtain ⟨hlt, -⟩ := List.getElem?_eq_some_iff.mp hy
    rw [length_descend, hpow] at hlt
    obtain ⟨y', hy'⟩ := hnode (i / 2) (by omega)
    obtain ⟨hleft, hright⟩ := getElem?_descend_succ hy'
    obtain ⟨hleft', hright'⟩ := hdone (i / 2) y' (Nat.zero_le _) hy'
    rcases Nat.even_or_odd' i with ⟨k, rfl | rfl⟩
    · rw [Nat.mul_div_cancel_left k Nat.two_pos] at hleft hleft'
      obtain rfl := Option.some.inj (hleft.symm.trans hy)
      exact hleft'
    · have hk : (2 * k + 1) / 2 = k := by omega
      rw [hk] at hright hright'
      obtain rfl := Option.some.inj (hright.symm.trans hy)
      exact hright'

/-- The loop over the levels goes down to the nodes of a level. -/
theorem Counted.foldlM_splitLevel (hz : Counted p z) {t : ℕ} (ht : t ≤ p) (code : ℕ) :
    ∃ s, (List.range t).foldlM (fun s t ↦ z.splitLevel s (p - t))
        (⟨(List.replicate (2 ^ p) 0).set 0 code, (List.replicate (2 ^ p) 0).set 0 z.r2⟩, 1) = some s ∧
      Split p t (z.r2, code) s := by
  have hlt : 0 < (List.replicate (2 ^ p) 0).length := by
    rw [List.length_replicate]
    exact Nat.two_pow_pos p
  have hstart : Split p 0 (z.r2, code)
      (⟨(List.replicate (2 ^ p) 0).set 0 code, (List.replicate (2 ^ p) 0).set 0 z.r2⟩, 1) := by
    refine ⟨by rw [List.length_set, List.length_replicate], by rw [List.length_set, List.length_replicate],
      fun i y hy ↦ ?_, rfl⟩
    obtain ⟨rfl, rfl⟩ : i = 0 ∧ (z.r2, code) = y := by
      cases i with
      | zero => exact ⟨rfl, Option.some.inj hy⟩
      | succ i => exact absurd hy (Option.some_ne_none y).symm
    exact ⟨List.getElem?_set_self hlt, List.getElem?_set_self hlt⟩
  exact Lib.foldlM_range_done (m := Option) (fun t s ↦ Split p t (z.r2, code) s) hstart
    fun t' ht' s hs ↦ hz.splitLevel_split (ht'.trans_le ht) le_rfl hs

variable [DecidableEq F] {fl : SphereFloats F} {assertions : Bool}

theorem Counted.decode_leaves (hz : Counted p z) (hdim : z.dim = 2 ^ p) (hlog : z.log2Dim = p)
    (hcache : z.decodeCacheLd = 0) (code : ℕ) :
    z.decode fl assertions code =
      (descend p p (z.r2, code)).mapM fun x ↦ leafValue fl assertions x.1 x.2 := by
  obtain ⟨⟨s, dim2⟩, hfold, hsplit⟩ := hz.foldlM_splitLevel (le_refl p) code
  rw [decode, hlog, hcache, hdim, Nat.sub_zero, hfold]
  simp only [Option.bind_eq_bind, Option.bind_some, if_true]
  rw [← length_descend p p (z.r2, code)]
  refine Lib.mapM_range_eq fun i x hx ↦ ?_
  obtain ⟨hnorm, hcode⟩ := hsplit.at_node i x hx
  rw [hnorm, hcode]
  rfl

/-- With caches, it goes down to the blocks. -/
theorem Counted.decode_blocks (hz : Counted p z) (hdim : z.dim = 2 ^ p) (hlog : z.log2Dim = p)
    {level : ℕ} (hcache : z.decodeCacheLd = level) (hpos : 0 < level) (hle : level ≤ p) (code : ℕ) :
    z.decode fl assertions code =
      ((descend (p - level) p (z.r2, code)).mapM fun x ↦
        z.cachedBlock assertions (2 ^ level) x.1 x.2).map List.flatten := by
  obtain ⟨⟨s, dim2⟩, hfold, hsplit⟩ := hz.foldlM_splitLevel (Nat.sub_le p level) code
  have hdim2 : dim2 = 2 ^ (p - level) := hsplit.dim2_eq
  have hsize : 2 ^ (p - level) * 2 ^ level = 2 ^ p := by rw [← Nat.pow_add, Nat.sub_add_cancel hle]
  have hblocks : (List.range (2 ^ (p - level))).mapM (fun i ↦
      s.norm2s[i]? >>= fun norm2 ↦ s.codes[i]? >>= fun code ↦ z.cachedBlock assertions (2 ^ level) norm2 code) =
      (descend (p - level) p (z.r2, code)).mapM fun x ↦ z.cachedBlock assertions (2 ^ level) x.1 x.2 := by
    rw [← length_descend (p - level) p (z.r2, code)]
    refine Lib.mapM_range_eq fun i x hx ↦ ?_
    obtain ⟨hnorm, hcode⟩ := hsplit.at_node i x hx
    rw [hnorm, hcode]
    rfl
  rw [decode, hlog, hcache, hdim, hfold]
  simp only [Option.bind_eq_bind, Option.bind_some]
  rw [if_neg hpos.ne', hdim2, hsize, if_neg fun h ↦ h.2 rfl]
  simp only [Option.bind_eq_bind] at hblocks
  rw [hblocks]
  cases (descend (p - level) p (z.r2, code)).mapM fun x ↦ z.cachedBlock assertions (2 ^ level) x.1 x.2 <;> rfl

end FaissNavix.ZnSphereCodecRec
