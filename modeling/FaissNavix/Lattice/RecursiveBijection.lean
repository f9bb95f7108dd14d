import FaissNavix.Lattice.RecursiveTables

/-!
# The recursive codec is a bijection

The caches of `ZnSphereCodecRec` have the vectors of a level, by their codes.  They are read off the last
components of codes of the whole vector, chosen so that the last node of the level has each code once.  Where no
vector has the norm that is left for the other half, there is no such code, and the constructor decodes what is not
a code; what it gets is never used, but its assertion about squares may fail (`codecRec_iff`).
-/

namespace FaissNavix

open Spheres
open Lib

variable {F : Type}

/-- The arithmetic of `float` is exact on small integers. -/
structure SphereFloats.Exact (fl : SphereFloats F) : Prop where
  sqrt : ∀ k : ℕ, k * k ≤ 2 ^ 24 → fl.sqrt (k * k) = fl.ofInt k
  neg : ∀ k : ℕ, k ≤ 2 ^ 24 → fl.neg (fl.ofInt k) = fl.ofInt (-k)
  mul : ∀ k : ℕ, k * k ≤ 2 ^ 24 → fl.mul (fl.ofInt k) (fl.ofInt k) = fl.ofInt ((k * k : ℕ) : ℤ)

/-- `r * r == n`, for the rounded square root `r` of `n`. -/
def SphereFloats.RootSquares (fl : SphereFloats F) (n : ℕ) : Prop :=
  fl.mul (fl.sqrt n) (fl.sqrt n) = fl.ofInt n

namespace ZnSphereCodecRec

/-! ## The claim -/

variable [DecidableEq F]

/-- `encode_centroid` and `decode` are a bijection between the integer vectors on the sphere and the codes, and
the caches do not change what `decode` returns. -/
structure IsBijection (z : ZnSphereCodecRec F) (fl : SphereFloats F) (assertions : Bool) (p r2 : ℕ) : Prop where
  nv_eq : z.nv = (sphere (2 ^ p) r2).ncard
  decode_encode : ∀ c ∈ sphere (2 ^ p) r2, ∃ code < z.nv, z.encodeCentroid c = some code ∧
    z.decode fl assertions code = some (c.map fl.ofInt)
  encode_decode : ∀ code < z.nv, ∃ c ∈ sphere (2 ^ p) r2, z.decode fl assertions code = some (c.map fl.ofInt) ∧
    z.encodeCentroid c = some code
  uncached : ∀ code < z.nv,
    z.decode fl assertions code = { z with decodeCacheLd := 0 }.decode fl assertions code

/-- The constructor returns, and the codec is a bijection. -/
def Bijects (fl : SphereFloats F) (assertions : Bool) (p r2 : ℕ) : Prop :=
  ∃ z, new fl assertions (2 ^ p) r2 = some z ∧ z.IsBijection fl assertions p r2

/-! ## Leaves -/

variable {fl : SphereFloats F} {assertions : Bool} {z : ZnSphereCodecRec F} {p r2 level r i code : ℕ}

theorem leafValue_of_isCode (hfl : fl.Exact) {x : ℕ × ℕ} (hx : IsCode 0 x) (hle : x.1 ≤ 2 ^ 24) :
    leafValue fl assertions x.1 x.2 = some (fl.ofInt (leafInt x)) := by
  have hroot : Nat.sqrt x.1 * Nat.sqrt x.1 = x.1 ∧ (Nat.sqrt x.1 = 0 → x.2 = 0) := by
    rw [IsCode, sphereCount] at hx
    split_ifs at hx with hsq hzero
    · exact ⟨hsq, fun _ ↦ by omega⟩
    · exact ⟨hsq, fun h ↦ absurd h hzero⟩
    · omega
  obtain ⟨hsq, hcode⟩ := hroot
  have hsmall : Nat.sqrt x.1 ≤ 2 ^ 24 := (Nat.sqrt_le_self x.1).trans hle
  have hsqrt : fl.sqrt x.1 = fl.ofInt (Nat.sqrt x.1) := by
    conv_lhs => rw [← hsq]
    exact hfl.sqrt _ (hsq.trans_le hle)
  have hmul : fl.mul (fl.sqrt x.1) (fl.sqrt x.1) = fl.ofInt x.1 := by
    rw [hsqrt, hfl.mul _ (hsq.trans_le hle), hsq]
  rw [leafValue, leafInt]
  by_cases h0 : x.1 = 0
  · rw [if_pos h0, hcode (by rw [h0]; rfl), if_pos rfl, h0]
    rfl
  · rw [if_neg h0]
    dsimp only
    rw [if_neg fun h ↦ h.2 hmul, hsqrt]
    by_cases hc : x.2 = 0
    · rw [if_pos hc, if_pos hc]
    · rw [if_neg hc, if_neg hc, hfl.neg _ hsmall]

omit [DecidableEq F] in
theorem rootSquares_zero (hfl : fl.Exact) : fl.RootSquares 0 := by
  have hsqrt : fl.sqrt 0 = fl.ofInt (0 : ℕ) := hfl.sqrt 0 (by norm_num)
  rw [SphereFloats.RootSquares, hsqrt]
  exact hfl.mul 0 (by norm_num)

/-! ## Decoding without caches -/

/-- The codec with its tables filled, before the caches are. -/
structure Tabled (p r2 : ℕ) (z : ZnSphereCodecRec F) : Prop where
  counted : Counted p z
  dim_eq : z.dim = 2 ^ p
  log2Dim_eq : z.log2Dim = p
  r2_eq : z.r2 = r2
  nv_eq : z.nv = sphereCount p r2
  length_cache : z.decodeCache.length = r2 + 1
  cacheLd_eq : z.decodeCacheLd = 0

theorem Tabled.decode_eq (hz : Tabled p r2 z) (hfl : fl.Exact) (hr2 : r2 ≤ 2 ^ 24) (hcode : code < sphereCount p r2) :
    z.decode fl assertions code = some ((vectorAt p r2 code).map fl.ofInt) := by
  rw [hz.counted.decode_leaves hz.dim_eq hz.log2Dim_eq hz.cacheLd_eq, hz.r2_eq, vectorAt, List.map_map]
  refine mapM_eq_some_map fun x hx ↦ leafValue_of_isCode hfl ?_ ((le_of_mem_descend hx).trans hr2)
  have hroot : IsCode (0 + p) (r2, code) := by rwa [Nat.zero_add]
  rw [← Nat.zero_add p] at hx
  refine hroot.of_mem_descend ?_
  rwa [Nat.zero_add] at hx ⊢

/-- Where `decode` returns: its assertion looks at the norm of the first leaf, if the number is not a code. -/
theorem Tabled.decode_iff (hz : Tabled p r2 z) (hfl : fl.Exact) (hr2 : r2 ≤ 2 ^ 24) :
    (∃ c, z.decode fl assertions code = some c) ↔
      code < sphereCount p r2 ∨ (assertions = true → fl.RootSquares r2) := by
  rcases Nat.lt_or_ge code (sphereCount p r2) with hlt | hge
  · exact iff_of_true ⟨_, hz.decode_eq hfl hr2 hlt⟩ (.inl hlt)
  · rw [or_iff_right (Nat.not_lt.mpr hge), hz.counted.decode_leaves hz.dim_eq hz.log2Dim_eq hz.cacheLd_eq,
      hz.r2_eq, exists_mapM_iff]
    have hroot : ¬ IsCode (0 + p) (r2, code) := by
      rw [Nat.zero_add]
      exact Nat.not_lt.mpr hge
    obtain ⟨⟨first, hfirst⟩, hall⟩ := descend_of_not hroot
    rw [Nat.zero_add] at hfirst hall
    constructor
    · intro h hassert
      by_contra hsq
      obtain ⟨y, hy⟩ := h _ hfirst
      have hne : r2 ≠ 0 := by
        rintro rfl
        exact hsq (rootSquares_zero hfl)
      rw [leafValue, if_neg hne] at hy
      dsimp only at hy
      rw [if_pos ⟨hassert, hsq⟩] at hy
      exact absurd hy (Option.some_ne_none y).symm
    · intro h x hx
      rcases hall x hx with hnorm | rfl
      · rw [hnorm, leafValue]
        by_cases h0 : r2 = 0
        · exact ⟨_, if_pos h0⟩
        · rw [if_neg h0]
          exact ⟨_, if_neg fun hfail ↦ hfail.2 (h hfail.1)⟩
      · exact ⟨_, if_pos rfl⟩

/-! ## The codes that fill the caches -/

def Paired (level r2 r : ℕ) : Prop := 0 < sphereCount level (r2 - r)

section CacheCodes

omit [DecidableEq F]

section
variable (hpair : Paired level r2 r) (hr : r ≤ r2) (hi : i < sphereCount level r)
include hpair hr hi

theorem Paired.lt_pairCount :
    i < pairCount level r2 (r2 - r) := by
  rw [pairCount, Nat.sub_sub_self hr]
  exact hi.trans_le (Nat.le_mul_of_pos_left _ hpair)

theorem Paired.add_lt :
    cum (pairCount level r2) (r2 - r) + i < sphereCount (level + 1) r2 := by
  have hlt := hpair.lt_pairCount hr hi
  have hmono : cum (pairCount level r2) (r2 - r + 1) ≤ sphereCount (level + 1) r2 :=
    Lib.cum_mono _ (by omega)
  rw [cum_succ] at hmono
  omega

theorem Paired.getLast_descend (hlevel : level < p) :
    (descend (p - level) p (r2, cum (pairCount level r2) (r2 - r) + i)).getLast? = some (r, i) := by
  obtain ⟨t, rfl⟩ := Nat.exists_eq_add_of_lt hlevel
  have hlast := getLast_descend_of_lt (hpair.add_lt hr hi) t
  have hlevels : level + 1 + t = level + t + 1 := by omega
  have hdepth : level + t + 1 - level = t + 1 := by omega
  have hlower : level + t + 1 - t = level + 1 := by omega
  rw [hlevels] at hlast
  obtain ⟨init, hinit⟩ := List.getLast?_eq_some_iff.mp hlast
  have hnorm : leftNorm level (r2, cum (pairCount level r2) (r2 - r) + i) = r2 - r :=
    segmentOf_cum_add (Nat.sub_le r2 r) (hpair.lt_pairCount hr hi)
  have hright : rightChild level (r2, cum (pairCount level r2) (r2 - r) + i) = (r, i) := by
    rw [rightChild, digits, hnorm, Nat.sub_sub_self hr, Nat.add_sub_cancel_left, Nat.mod_eq_of_lt hi]
  rw [hdepth, descend_add, hinit, List.flatMap_append, List.flatMap_singleton, hlower, List.getLast?_append,
    descend, Nat.add_sub_cancel, hright]
  rfl

end

theorem length_vectorAt (ld r code : ℕ) : (vectorAt ld r code).length = 2 ^ ld := by
  rw [vectorAt, List.length_map, length_descend]

theorem vectorAt_eq_flatMap (hlevel : level ≤ p) (x : ℕ × ℕ) :
    vectorAt p x.1 x.2 = (descend (p - level) p x).flatMap fun y ↦ vectorAt level y.1 y.2 := by
  have hsum : p - level + level = p := Nat.sub_add_cancel hlevel
  have hlower : p - (p - level) = level := Nat.sub_sub_self hlevel
  have hsplit := descend_add (p - level) level p x
  rw [hsum, hlower] at hsplit
  rw [vectorAt, hsplit, List.map_flatMap]
  rfl

theorem Paired.drop_vectorAt (hpair : Paired level r2 r) (hr : r ≤ r2) (hi : i < sphereCount level r)
    (hlevel : level < p) :
    (vectorAt p r2 (cum (pairCount level r2) (r2 - r) + i)).drop (2 ^ p - 2 ^ level) = vectorAt level r i := by
  obtain ⟨init, hinit⟩ := List.getLast?_eq_some_iff.mp (hpair.getLast_descend hr hi hlevel)
  have heq := vectorAt_eq_flatMap hlevel.le (r2, cum (pairCount level r2) (r2 - r) + i)
  have hlen := congrArg List.length heq
  rw [hinit, List.flatMap_append, List.flatMap_singleton] at heq hlen
  rw [List.length_append, length_vectorAt, length_vectorAt] at hlen
  rw [heq]
  exact List.drop_left' (by omega)

/-! ## The caches -/

/-- The vectors of a level with a squared norm, one after the other. -/
def blocksAt (fl : SphereFloats F) (level r : ℕ) : List F :=
  ((List.range (sphereCount level r)).map fun i ↦ (vectorAt level r i).map fl.ofInt).flatten

/-- The caches of the norms below `k` have what is read from them. -/
structure Cached (fl : SphereFloats F) (p r2 level k : ℕ) (z : ZnSphereCodecRec F) : Prop
    extends Tabled p r2 z where
  cache : ∀ r < k, Paired level r2 r → z.decodeCache[r]? = some (blocksAt fl level r)

/-- The number that is decoded for entry `i` of a cache. -/
def cacheCode (level r2 r i : ℕ) : ℕ := (i + cum (pairCount level r2) (r2 - r)) % 2 ^ 64

theorem Paired.cacheCode_eq (hpair : Paired level r2 r) (hr : r ≤ r2) (hi : i < sphereCount level r)
    (hlevel : level < p) (hfit : sphereCount p r2 < 2 ^ 64) :
    cacheCode level r2 r i = cum (pairCount level r2) (r2 - r) + i ∧
      cacheCode level r2 r i < sphereCount p r2 := by
  have hlt : cum (pairCount level r2) (r2 - r) + i < sphereCount p r2 :=
    (hpair.add_lt hr hi).trans_le (sphereCount_mono hlevel)
  have heq : cacheCode level r2 r i = cum (pairCount level r2) (r2 - r) + i := by
    rw [cacheCode, Nat.add_comm, Nat.mod_eq_of_lt (hlt.trans hfit)]
  exact ⟨heq, heq.trans_lt hlt⟩

end CacheCodes

theorem Tabled.cacheTurn_eq (hz : Tabled p r2 z) (hlevel : level < p) (hr : r ≤ r2) :
    cacheTurn fl assertions level z r =
      if 2 ^ 31 ≤ sphereCount level r then none
      else ((List.range (sphereCount level r)).mapM fun i ↦
        (z.decode fl assertions (cacheCode level r2 r i)).map (List.drop (2 ^ p - 2 ^ level))).map
          fun blocks ↦ { z with decodeCache := z.decodeCache.set r blocks.flatten } := by
  have hnv := hz.counted.nv level r hlevel.le (by rwa [hz.r2_eq])
  have hcum := hz.counted.cum level r2 (r2 - r) hlevel (by rw [hz.r2_eq]) (Nat.sub_le r2 r)
  rw [cacheTurn, hnv, hz.r2_eq, hz.dim_eq]
  simp only [Option.bind_eq_bind, Option.bind_some, hcum]
  split_ifs
  · rfl
  · have hturn : (fun i ↦ (z.decode fl assertions ((i + cum (pairCount level r2) (r2 - r)) % 2 ^ 64)).bind
        fun c ↦ pure (c.drop (2 ^ p - 2 ^ level))) = fun i ↦
          (z.decode fl assertions (cacheCode level r2 r i)).map (List.drop (2 ^ p - 2 ^ level)) := by
      funext i
      rw [cacheCode]
      cases z.decode fl assertions ((i + cum (pairCount level r2) (r2 - r)) % 2 ^ 64) <;> rfl
    rw [hturn]
    cases (List.range (sphereCount level r)).mapM fun i ↦
      (z.decode fl assertions (cacheCode level r2 r i)).map (List.drop (2 ^ p - 2 ^ level)) <;> rfl

def TurnReturns (fl : SphereFloats F) (assertions : Bool) (p r2 level r : ℕ) : Prop :=
  sphereCount level r < 2 ^ 31 ∧ ∀ i < sphereCount level r,
    cacheCode level r2 r i < sphereCount p r2 ∨ (assertions = true → fl.RootSquares r2)

theorem Tabled.cacheTurn_iff (hz : Tabled p r2 z) (hfl : fl.Exact) (hr2 : r2 ≤ 2 ^ 24) (hlevel : level < p)
    (hr : r ≤ r2) :
    (∃ z', cacheTurn fl assertions level z r = some z') ↔ TurnReturns fl assertions p r2 level r := by
  rw [hz.cacheTurn_eq hlevel hr]
  rcases Nat.lt_or_ge (sphereCount level r) (2 ^ 31) with hlt | hge
  · rw [if_neg (Nat.not_le.mpr hlt), TurnReturns, and_iff_right hlt]
    calc _ ↔ ∃ blocks, ((List.range (sphereCount level r)).mapM fun i ↦
            (z.decode fl assertions (cacheCode level r2 r i)).map (List.drop (2 ^ p - 2 ^ level))) =
              some blocks := by
          simp only [Option.map_eq_some_iff]
          exact ⟨fun ⟨_, blocks, hblocks, _⟩ ↦ ⟨blocks, hblocks⟩, fun ⟨blocks, hblocks⟩ ↦ ⟨_, blocks, hblocks, rfl⟩⟩
      _ ↔ ∀ i < sphereCount level r, ∃ c, z.decode fl assertions (cacheCode level r2 r i) = some c := by
          simp only [exists_mapM_iff, List.mem_range, Option.map_eq_some_iff]
          exact forall₂_congr fun i hi ↦ ⟨fun ⟨_, c, hc, _⟩ ↦ ⟨c, hc⟩, fun ⟨c, hc⟩ ↦ ⟨_, c, hc, rfl⟩⟩
      _ ↔ _ := forall₂_congr fun i hi ↦ hz.decode_iff hfl hr2
  · rw [if_pos hge]
    exact iff_of_false (fun ⟨_, h⟩ ↦ absurd h.symm (Option.some_ne_none _)) fun h ↦ absurd h.1 (Nat.not_lt.mpr hge)

/-- A turn fills its cache and leaves all others. -/
theorem Cached.cacheTurn_cached (hz : Cached fl p r2 level r z) (hfl : fl.Exact) (hr2 : r2 ≤ 2 ^ 24)
    (hfit : sphereCount p r2 < 2 ^ 64) (hlevel : level < p) (hr : r ≤ r2) {z' : ZnSphereCodecRec F}
    (h : cacheTurn fl assertions level z r = some z') : Cached fl p r2 level (r + 1) z' := by
  rw [hz.cacheTurn_eq hlevel hr] at h
  split_ifs at h with hlarge
  obtain ⟨blocks, hblocks, rfl⟩ := Option.map_eq_some_iff.mp h
  refine ⟨⟨⟨hz.counted.nv, hz.counted.cum⟩, hz.dim_eq, hz.log2Dim_eq, hz.r2_eq, hz.nv_eq,
    by rw [← hz.length_cache, List.length_set], hz.cacheLd_eq⟩, fun r' hr' hpair ↦ ?_⟩
  rcases Nat.lt_succ_iff_lt_or_eq.mp hr' with hlt | rfl
  · exact (List.getElem?_set_ne hlt.ne').trans (hz.cache r' hlt hpair)
  · have hall : ∀ i ∈ List.range (sphereCount level r'),
        (z.decode fl assertions (cacheCode level r2 r' i)).map (List.drop (2 ^ p - 2 ^ level)) =
          some ((vectorAt level r' i).map fl.ofInt) := by
      intro i hi
      have hi' := List.mem_range.mp hi
      obtain ⟨heq, hlt⟩ := hpair.cacheCode_eq hr hi' hlevel hfit
      rw [hz.decode_eq hfl hr2 hlt, Option.map_some, heq, ← List.map_drop, hpair.drop_vectorAt hr hi' hlevel]
    rw [mapM_eq_some_map hall] at hblocks
    have hself : (z.decodeCache.set r' blocks.flatten)[r']? = some blocks.flatten :=
      List.getElem?_set_self (by rw [hz.length_cache]; omega)
    rw [blocksAt, Option.some.inj hblocks]
    exact hself

/-- The caches are filled exactly if each turn returns. -/
theorem Cached.foldlM_cacheTurn (assertions : Bool) (hz : Cached fl p r2 level 0 z) (hfl : fl.Exact) (hr2 : r2 ≤ 2 ^ 24)
    (hfit : sphereCount p r2 < 2 ^ 64) (hlevel : level < p) :
    (∀ z', (List.range (r2 + 1)).foldlM (cacheTurn fl assertions level) z = some z' →
      Cached fl p r2 level (r2 + 1) z') ∧
    ((∃ z', (List.range (r2 + 1)).foldlM (cacheTurn fl assertions level) z = some z') ↔
      ∀ r ≤ r2, TurnReturns fl assertions p r2 level r) := by
  have hturn : ∀ r < r2 + 1, ∀ z z', Cached fl p r2 level r z → cacheTurn fl assertions level z r = some z' →
      Cached fl p r2 level (r + 1) z' := fun r hr z z' hz h ↦
    hz.cacheTurn_cached hfl hr2 hfit hlevel (Nat.le_of_lt_succ hr) h
  refine ⟨fun z' h ↦ (foldlM_range_turns (fun r z ↦ Cached fl p r2 level r z) hz hturn h).1, ?_, fun h ↦ ?_⟩
  · rintro ⟨z', h⟩ r hr
    obtain ⟨s, s', hs, hs'⟩ :=
      (foldlM_range_turns (fun r z ↦ Cached fl p r2 level r z) hz hturn h).2 r (Nat.lt_succ_of_le hr)
    exact (hs.cacheTurn_iff hfl hr2 hlevel hr).mp ⟨s', hs'⟩
  · obtain ⟨z', hfold, -⟩ := foldlM_range_done (m := Option) (fun r z ↦ Cached fl p r2 level r z) hz
      fun r hr s hs ↦ by
        obtain ⟨s', hs'⟩ := (hs.cacheTurn_iff hfl hr2 hlevel (Nat.le_of_lt_succ hr)).mpr
          (h r (Nat.le_of_lt_succ hr))
        exact ⟨s', hs', hturn r hr s s' hs hs'⟩
    exact ⟨z', hfold⟩

/-! ## The caches are used for codes only -/

omit [DecidableEq F] in
/-- Whatever is read from the caches is there: the sibling of a node of the level has a vector, or vectors of the
level have every norm. -/
theorem paired_of_mem_descend (hlevel : level + 1 = p ∨ 2 ≤ level) (hcode : code < sphereCount p r2) {y : ℕ × ℕ}
    (hy : y ∈ descend (p - level) p (r2, code)) : Paired level r2 y.1 := by
  rcases hlevel with rfl | hlevel
  · have hroot : IsCode (level + 1) (r2, code) := hcode
    have hdepth : level + 1 - level = 1 := Nat.add_sub_cancel_left level 1
    have hnorm := leftNorm_le level (r2, code)
    have hchildren : descend 1 (level + 1) (r2, code) = [leftChild level (r2, code), rightChild level (r2, code)] :=
      rfl
    rw [hdepth, hchildren, List.mem_pair] at hy
    rcases hy with rfl | rfl
    · exact hroot.right_pos
    · have hleft : r2 - (r2 - leftNorm level (r2, code)) = leftNorm level (r2, code) := Nat.sub_sub_self hnorm
      rw [Paired, rightChild, hleft]
      exact Nat.zero_lt_of_lt hroot.leftChild
  · exact sphereCount_pos hlevel _

omit [DecidableEq F] in
theorem Cached.cachedBlock_eq (hz : Cached fl p r2 level (r2 + 1) z) {x : ℕ × ℕ} (hle : x.1 ≤ r2)
    (hpair : Paired level r2 x.1) (hcode : IsCode level x) :
    cachedBlock { z with decodeCacheLd := level } assertions (2 ^ level) x.1 x.2 =
      some ((vectorAt level x.1 x.2).map fl.ofInt) := by
  have hlens : ∀ v ∈ (List.range (sphereCount level x.1)).map (fun i ↦ (vectorAt level x.1 i).map fl.ofInt),
      v.length = 2 ^ level := by
    intro v hv
    obtain ⟨i, -, rfl⟩ := List.mem_map.mp hv
    rw [List.length_map, length_vectorAt]
  have hlen : (blocksAt fl level x.1).length = 2 ^ level * sphereCount level x.1 := by
    rw [blocksAt, length_flatten_records hlens, List.length_map, List.length_range]
  have hpos : 0 < 2 ^ level := Nat.two_pow_pos level
  have hlt : x.2 < (blocksAt fl level x.1).length := by
    rw [hlen]
    exact hcode.trans_le (Nat.le_mul_of_pos_left _ hpos)
  have hend : (x.2 + 1) * 2 ^ level ≤ (blocksAt fl level x.1).length := by
    rw [hlen, Nat.mul_comm]
    exact Nat.mul_le_mul_left _ hcode
  rw [cachedBlock, hz.cache x.1 (Nat.lt_succ_of_le hle) hpair]
  simp only [Option.bind_eq_bind, Option.bind_some]
  rw [if_neg fun h ↦ absurd h.2 (Nat.not_le.mpr hlt), if_pos hend, blocksAt, Nat.mul_comm,
    drop_take_flatten hlens (by rwa [List.length_map, List.length_range])]
  simp only [List.get_eq_getElem, List.getElem_map, List.getElem_range]

/-- `decode` gives the vector of a code, with caches and without. -/
theorem Cached.decode_eq (hz : Cached fl p r2 level (r2 + 1) z) (hfl : fl.Exact) (hr2 : r2 ≤ 2 ^ 24)
    (hlt : level < p) (hlevel : level + 1 = p ∨ 2 ≤ level) (hcode : code < sphereCount p r2) :
    decode { z with decodeCacheLd := level } fl assertions code = some ((vectorAt p r2 code).map fl.ofInt) := by
  rcases Nat.eq_zero_or_pos level with rfl | hpos
  · have hself : { z with decodeCacheLd := 0 } = z := by rw [← hz.cacheLd_eq]
    rw [hself]
    exact hz.toTabled.decode_eq hfl hr2 hcode
  · obtain rfl : z.r2 = r2 := hz.r2_eq
    have hcounted : Counted p { z with decodeCacheLd := level } := ⟨hz.counted.nv, hz.counted.cum⟩
    have hdepth : level + (p - level) = p := by omega
    have hroot : IsCode (level + (p - level)) (z.r2, code) := by rwa [hdepth]
    have hblocks : ∀ x ∈ descend (p - level) p (z.r2, code),
        cachedBlock { z with decodeCacheLd := level } assertions (2 ^ level) x.1 x.2 =
          some ((vectorAt level x.1 x.2).map fl.ofInt) := fun x hx ↦
      hz.cachedBlock_eq (le_of_mem_descend hx) (paired_of_mem_descend hlevel hcode hx)
        (hroot.of_mem_descend (by rwa [hdepth]))
    have hmap := mapM_eq_some_map hblocks
    refine (hcounted.decode_blocks hz.dim_eq hz.log2Dim_eq rfl hpos hlt.le code).trans ?_
    change Option.map List.flatten ((descend (p - level) p (z.r2, code)).mapM fun x ↦
      cachedBlock { z with decodeCacheLd := level } assertions (2 ^ level) x.1 x.2) = _
    rw [hmap, Option.map_some, vectorAt_eq_flatMap hlt.le (z.r2, code), List.map_flatMap, List.flatMap_def]

theorem Cached.isBijection (hz : Cached fl p r2 level (r2 + 1) z) (hfl : fl.Exact) (hr2 : r2 ≤ 2 ^ 24)
    (hlt : level < p) (hlevel : level + 1 = p ∨ 2 ≤ level)
    (hfit : ∀ ld r, ld ≤ p → r ≤ r2 → sphereCount ld r < 2 ^ 64) :
    IsBijection { z with decodeCacheLd := level } fl assertions p r2 := by
  have hcounted : Counted p { z with decodeCacheLd := level } := ⟨hz.counted.nv, hz.counted.cum⟩
  have hnumbers := sphere_numbers p r2
  have hdecode : ∀ code < sphereCount p r2,
      decode { z with decodeCacheLd := level } fl assertions code = some ((vectorAt p r2 code).map fl.ofInt) :=
    fun code hcode ↦ hz.decode_eq hfl hr2 hlt hlevel hcode
  have hencode : ∀ c ∈ sphere (2 ^ p) r2,
      encodeCentroid { z with decodeCacheLd := level } c = some (sphereCode p c) := fun c hc ↦
    hcounted.encodeCentroid_eq hz.dim_eq hz.log2Dim_eq (by
      change ∀ ld r, ld ≤ p → r ≤ z.r2 → sphereCount ld r < 2 ^ 64
      rwa [hz.r2_eq]) (by
      change c ∈ sphere (2 ^ p) z.r2
      rwa [hz.r2_eq])
  have hself : { z with decodeCacheLd := 0 } = z := by rw [← hz.cacheLd_eq]
  refine ⟨hz.nv_eq.trans (ncard_sphere p r2).symm, fun c hc ↦ ?_, fun code hcode ↦ ?_, fun code hcode ↦ ?_⟩
  · refine ⟨sphereCode p c, (hnumbers.encode_lt c hc).trans_eq hz.nv_eq.symm, hencode c hc, ?_⟩
    rw [hdecode _ (hnumbers.encode_lt c hc), hnumbers.decode_encode c hc]
  · have hcode' : code < sphereCount p r2 := hcode.trans_eq hz.nv_eq
    refine ⟨vectorAt p r2 code, hnumbers.decode_mem code hcode', hdecode code hcode', ?_⟩
    rw [hencode _ (hnumbers.decode_mem code hcode'), hnumbers.encode_decode code hcode']
  · have hcode' : code < sphereCount p r2 := hcode.trans_eq hz.nv_eq
    rw [hdecode code hcode']
    change _ = { z with decodeCacheLd := 0 }.decode fl assertions code
    rw [hself, hz.toTabled.decode_eq hfl hr2 hcode']

/-! ## The constructor -/

theorem log2DimOf_eq {fuel ld : ℕ} (hld : ld ≤ p) (hfuel : p - ld ≤ fuel) : log2DimOf (2 ^ p) fuel ld = p := by
  induction fuel generalizing ld with
  | zero =>
      rw [log2DimOf]
      omega
  | succ fuel ih =>
      rw [log2DimOf]
      rcases hld.lt_or_eq with hlt | rfl
      · rw [if_pos (Nat.pow_lt_pow_right Nat.one_lt_two hlt)]
        exact ih hlt (by omega)
      · exact if_neg (lt_irrefl _)

def cacheLevel (p : ℕ) : ℕ := min 3 (p - 1)

/-- The constructor fills the tables first, and then the caches. -/
theorem new_eq (fl : SphereFloats F) (assertions : Bool) (hp : 1 ≤ p) (hsize : (p + 1) * (r2 + 1) * (r2 + 1) < 2 ^ 31)
    (hfit : ∀ ld r, ld ≤ p → r ≤ r2 → sphereCount ld r < 2 ^ 64) :
    ∃ z : ZnSphereCodecRec F, Tabled p r2 z ∧ new fl assertions (2 ^ p) r2 =
      ((List.range (r2 + 1)).foldlM (cacheTurn fl assertions (cacheLevel p)) z).map
        fun z ↦ { z with decodeCacheLd := cacheLevel p } := by
  obtain ⟨z₁, z, hleaves, hlevels, hframe, hcounted⟩ := tables_counted
    { dim := 2 ^ p, nv := 0, r2, log2Dim := p, decodeCacheLd := 0,
      allNv := List.replicate ((p + 1) * (r2 + 1)) 0,
      allNvCum := List.replicate ((p + 1) * (r2 + 1) * (r2 + 1)) 0,
      decodeCache := (List.replicate (r2 + 1) [] : List (List F)) }
    List.length_replicate List.length_replicate hfit
  have hlog : log2DimOf (2 ^ p) (2 ^ p) 0 = p := log2DimOf_eq (Nat.zero_le p) Nat.lt_two_pow_self.le
  have hr2 : z.r2 = r2 := by rw [hframe]
  have hnv : z.getNv p r2 = some (sphereCount p r2) := hcounted.nv p r2 le_rfl hr2.ge
  refine ⟨{ z with nv := sphereCount p r2 }, ⟨⟨hcounted.nv, hcounted.cum⟩, by rw [hframe], by rw [hframe],
    hr2, rfl, ?_, by rw [hframe]⟩, ?_⟩
  · rw [hframe]
    exact List.length_replicate
  · rw [new, hlog]
    dsimp only
    rw [if_neg fun h ↦ h.elim (fun h ↦ h.2 rfl) (by omega), if_neg (Nat.not_le.mpr hsize), hleaves]
    simp only [Option.bind_eq_bind, Option.bind_some]
    rw [hlevels]
    simp only [Option.bind_some, hnv]
    rw [cacheLevel]
    cases (List.range (r2 + 1)).foldlM (cacheTurn fl assertions (min 3 (p - 1)))
      { z with nv := sphereCount p r2 } <;> rfl

def Padded (p r2 : ℕ) : Prop :=
  ∀ r ≤ r2, (sphere (2 ^ (p - 1)) r).ncard ≤
    {c ∈ sphere (2 ^ p) r2 | sqNorm (c.drop (2 ^ (p - 1))) ≤ r}.ncard

theorem padded_iff (hp : 1 ≤ p) :
    Padded p r2 ↔ ∀ r ≤ r2, sphereCount (p - 1) r ≤
      sphereCount p r2 - cum (pairCount (p - 1) r2) (r2 - r) := by
  obtain ⟨q, rfl⟩ := Nat.exists_eq_add_of_le' hp
  refine forall₂_congr fun r hr ↦ ?_
  rw [Nat.add_sub_cancel, ncard_sphere, ncard_right_le hr]

theorem padded_of_le (hp : 3 ≤ p) : Padded p r2 := by
  refine (padded_iff (by omega)).mpr fun r hr ↦ ?_
  have hpair : Paired (p - 1) r2 r := sphereCount_pos (by omega) _
  have hlevel : p - 1 + 1 = p := by omega
  rcases Nat.eq_zero_or_pos (sphereCount (p - 1) r) with hzero | hpos
  · rw [hzero]
    exact Nat.zero_le _
  · have hlast := hpair.add_lt hr (Nat.sub_lt hpos Nat.one_pos)
    rw [hlevel] at hlast
    omega

/-- A bound for the numbers of the first levels. -/
theorem sphereCount_le (r : ℕ) :
    sphereCount 0 r ≤ 2 ∧ sphereCount 1 r ≤ 4 * (r + 1) ∧ sphereCount 2 r ≤ 16 * (r + 1) ^ 3 := by
  have h0 : ∀ r, sphereCount 0 r ≤ 2 := by
    intro r
    rw [sphereCount]
    split_ifs <;> omega
  have h1 : ∀ r, sphereCount 1 r ≤ 4 * (r + 1) := fun r ↦
    calc sphereCount 1 r = ∑ a ∈ Finset.range (r + 1), pairCount 0 r a := rfl
      _ ≤ ∑ _a ∈ Finset.range (r + 1), 2 * 2 :=
          Finset.sum_le_sum fun a _ ↦ Nat.mul_le_mul (h0 a) (h0 (r - a))
      _ = 4 * (r + 1) := by rw [Finset.sum_const, Finset.card_range, smul_eq_mul, Nat.mul_comm]
  refine ⟨h0 r, h1 r, ?_⟩
  calc sphereCount 2 r = ∑ a ∈ Finset.range (r + 1), pairCount 1 r a := rfl
    _ ≤ ∑ _a ∈ Finset.range (r + 1), 4 * (r + 1) * (4 * (r + 1)) :=
        Finset.sum_le_sum fun a ha ↦ by
          have hle := Finset.mem_range_succ_iff.mp ha
          exact Nat.mul_le_mul ((h1 a).trans (by omega)) ((h1 (r - a)).trans (by omega))
    _ = 16 * (r + 1) ^ 3 := by
        rw [Finset.sum_const, Finset.card_range, smul_eq_mul]
        ring

theorem lt_of_size (hsize : (p + 1) * (r2 + 1) * (r2 + 1) < 2 ^ 31) : r2 + 1 < 2 ^ 16 := by
  by_contra hge
  have hsq : 2 ^ 16 * 2 ^ 16 ≤ (r2 + 1) * (r2 + 1) := Nat.mul_le_mul (Nat.le_of_not_lt hge) (Nat.le_of_not_lt hge)
  have hle : 1 * (r2 + 1) * (r2 + 1) ≤ (p + 1) * (r2 + 1) * (r2 + 1) :=
    Nat.mul_le_mul_right _ (Nat.mul_le_mul_right _ (by omega))
  rw [Nat.one_mul] at hle
  omega

/-- With less, the numbers decoded for the caches do not wrap around. -/
theorem cacheCode_small (hp : p ≤ 2) (hp' : 1 ≤ p) (hr2 : r2 + 1 < 2 ^ 16) (hi : i < sphereCount (p - 1) r)
    (hr : r ≤ r2) :
    cacheCode (p - 1) r2 r i = cum (pairCount (p - 1) r2) (r2 - r) + i := by
  have hcum : cum (pairCount (p - 1) r2) (r2 - r) ≤ sphereCount (p - 1 + 1) r2 :=
    Lib.cum_mono _ (by omega)
  have hlevel : p - 1 + 1 = p := by omega
  have hall : sphereCount p r2 ≤ 2 ^ 52 := by
    calc sphereCount p r2 ≤ sphereCount 2 r2 := sphereCount_mono hp
      _ ≤ 16 * (r2 + 1) ^ 3 := (sphereCount_le r2).2.2
      _ ≤ 16 * (2 ^ 16) ^ 3 := Nat.mul_le_mul_left _ (Nat.pow_le_pow_left hr2.le 3)
      _ = 2 ^ 52 := by norm_num
  have hlast : i < 2 ^ 18 := by
    have hone : sphereCount (p - 1) r ≤ sphereCount 1 r := sphereCount_mono (by omega)
    have := (sphereCount_le r).2.1
    omega
  rw [hlevel] at hcum
  rw [cacheCode, Nat.add_comm]
  exact Nat.mod_eq_of_lt (by omega)

omit [DecidableEq F] in
/-- The assertion of `decode` holds in the constructor. -/
theorem turns_iff (hp : 1 ≤ p) (hr2 : r2 + 1 < 2 ^ 16) (hfit : sphereCount p r2 < 2 ^ 64) :
    (∀ r ≤ r2, TurnReturns fl assertions p r2 (cacheLevel p) r) ↔
      (∀ r ≤ r2, sphereCount (cacheLevel p) r < 2 ^ 31) ∧
        (assertions = true → fl.RootSquares r2 ∨ Padded p r2) := by
  have hforall : (∀ r ≤ r2, TurnReturns fl assertions p r2 (cacheLevel p) r) ↔
      (∀ r ≤ r2, sphereCount (cacheLevel p) r < 2 ^ 31) ∧ ∀ r ≤ r2, ∀ i < sphereCount (cacheLevel p) r,
        cacheCode (cacheLevel p) r2 r i < sphereCount p r2 ∨ (assertions = true → fl.RootSquares r2) :=
    ⟨fun h ↦ ⟨fun r hr ↦ (h r hr).1, fun r hr ↦ (h r hr).2⟩, fun h r hr ↦ ⟨h.1 r hr, h.2 r hr⟩⟩
  rw [hforall]
  refine and_congr_right fun _ ↦ ?_
  rcases Nat.lt_or_ge p 3 with hsmall | hlarge
  · have hlevel : cacheLevel p = p - 1 := Nat.min_eq_right (by omega)
    rw [padded_iff hp, hlevel]
    constructor
    · intro h hassert
      by_cases hsq : fl.RootSquares r2
      · exact .inl hsq
      · refine .inr fun r hr ↦ ?_
        by_contra hfew
        have hlast := h r hr (sphereCount (p - 1) r - 1) (by omega)
        rw [cacheCode_small (by omega) hp hr2 (by omega) hr] at hlast
        rcases hlast with hlt | hsq'
        · omega
        · exact hsq (hsq' hassert)
    · intro h r hr i hi
      rw [cacheCode_small (by omega) hp hr2 hi hr]
      by_cases hassert : assertions = true
      · rcases h hassert with hsq | hpadded
        · exact .inr fun _ ↦ hsq
        · have := hpadded r hr
          exact .inl (by omega)
      · exact .inr fun h ↦ absurd h hassert
  · have hlevel : 2 ≤ cacheLevel p ∧ cacheLevel p < p := by
      rw [cacheLevel]
      omega
    refine iff_of_true (fun r hr i hi ↦ .inl ?_) fun _ ↦ .inr (padded_of_le hlarge)
    have hpair : Paired (cacheLevel p) r2 r := sphereCount_pos hlevel.1 _
    exact (hpair.cacheCode_eq hr hi hlevel.2 hfit).2

/-- The size of a table is not an `int`. -/
theorem not_bijects_of_size (hp : 1 ≤ p) (hsize : 2 ^ 31 ≤ (p + 1) * (r2 + 1) * (r2 + 1)) :
    ¬ Bijects fl assertions p r2 := by
  rintro ⟨z, h, -⟩
  have hlog : log2DimOf (2 ^ p) (2 ^ p) 0 = p := log2DimOf_eq (Nat.zero_le p) Nat.lt_two_pow_self.le
  rw [new, hlog] at h
  dsimp only at h
  rw [if_neg fun h ↦ h.elim (fun h ↦ h.2 rfl) (by omega), if_pos hsize] at h
  exact absurd h (Option.some_ne_none z).symm

/-- The recursive codec is a bijection, with caches and without, exactly if the sizes of its tables and the
numbers of entries of its caches are `int`s, and if no assertion fails in the constructor: without assertions, or
if the float square root of `r2` gives `r2` again, or if there are enough vectors for the codes that fill the
caches. -/
theorem codecRec_iff (fl : SphereFloats F) (hfl : fl.Exact) (assertions : Bool) (p r2 : ℕ) (hp : 1 ≤ p)
    (hcounts : ∀ ld r, ld ≤ p → r ≤ r2 → (sphere (2 ^ ld) r).ncard < 2 ^ 64) :
    Bijects fl assertions p r2 ↔
      (p + 1) * (r2 + 1) * (r2 + 1) < 2 ^ 31 ∧
        (∀ r ≤ r2, (sphere (2 ^ min 3 (p - 1)) r).ncard < 2 ^ 31) ∧
        (assertions = true → fl.RootSquares r2 ∨ Padded p r2) := by
  have hfit : ∀ ld r, ld ≤ p → r ≤ r2 → sphereCount ld r < 2 ^ 64 := fun ld r hld hr ↦ by
    rw [← ncard_sphere]
    exact hcounts ld r hld hr
  simp only [ncard_sphere]
  rcases Nat.lt_or_ge ((p + 1) * (r2 + 1) * (r2 + 1)) (2 ^ 31) with hsize | hsize
  · have hsmall := lt_of_size hsize
    have hr2 : r2 ≤ 2 ^ 24 := by omega
    have hlevel : cacheLevel p < p ∧ (cacheLevel p + 1 = p ∨ 2 ≤ cacheLevel p) := by
      rw [cacheLevel]
      omega
    obtain ⟨z, hz, hnew⟩ := new_eq fl assertions hp hsize hfit
    have hstart : Cached fl p r2 (cacheLevel p) 0 z := ⟨hz, fun r hr ↦ absurd hr (Nat.not_lt_zero r)⟩
    obtain ⟨hcached, hreturns⟩ :=
      hstart.foldlM_cacheTurn assertions hfl hr2 (hfit p r2 le_rfl le_rfl) hlevel.1
    rw [and_iff_right hsize]
    refine Iff.trans ?_ (turns_iff hp hsmall (hfit p r2 le_rfl le_rfl))
    rw [← hreturns]
    constructor
    · rintro ⟨z', h, -⟩
      rw [hnew] at h
      obtain ⟨z'', h', -⟩ := Option.map_eq_some_iff.mp h
      exact ⟨z'', h'⟩
    · rintro ⟨z', h⟩
      refine ⟨{ z' with decodeCacheLd := cacheLevel p }, by rw [hnew, h]; rfl, ?_⟩
      exact (hcached z' h).isBijection hfl hr2 hlevel.1 hlevel.2 hfit
  · exact iff_of_false (not_bijects_of_size hp hsize) fun h ↦ absurd h.1 (Nat.not_lt.mpr hsize)

/-- The exact arithmetic of integers, with rounded roots. -/
def intFloats : SphereFloats ℤ := ⟨id, (-·), (· * ·), fun n ↦ (Nat.sqrt n : ℤ)⟩

theorem intFloats_exact : intFloats.Exact where
  sqrt := fun k _ ↦ congrArg Nat.cast (Nat.sqrt_eq k)
  neg := fun _ _ ↦ rfl
  mul := fun k _ ↦ (Nat.cast_mul k k).symm

theorem ncard_sphere_lt {ld : ℕ} (hld : ld ≤ 1) (hr : r < 2 ^ 16) : (sphere (2 ^ ld) r).ncard < 2 ^ 20 := by
  have hone : sphereCount ld r ≤ sphereCount 1 r := sphereCount_mono hld
  have hle := (sphereCount_le r).2.1
  rw [ncard_sphere]
  omega

/-- The four vectors of dimension 2 and norm 1. -/
theorem codecRec_iff_one : Bijects intFloats true 1 1 :=
  (codecRec_iff intFloats intFloats_exact true 1 1 le_rfl
    fun _ _ hld hr ↦ (ncard_sphere_lt hld (by omega)).trans (by norm_num)).mpr
      ⟨by norm_num, fun _ hr ↦ (ncard_sphere_lt (Nat.zero_le 1) (by omega)).trans (by norm_num), fun _ ↦ .inl rfl⟩

/-- In two dimensions the numbers of vectors fit into a word for all norms up to 32767, but the size of a table does
not fit into an `int`. -/
theorem not_bijects_large : (∀ ld r, ld ≤ 1 → r ≤ 32767 → (sphere (2 ^ ld) r).ncard < 2 ^ 64) ∧
    ¬ Bijects intFloats true 1 32767 ∧ ¬ Bijects intFloats false 1 32767 :=
  ⟨fun _ _ hld hr ↦ (ncard_sphere_lt hld (by omega)).trans (by norm_num),
    not_bijects_of_size le_rfl (by norm_num), not_bijects_of_size le_rfl (by norm_num)⟩

end ZnSphereCodecRec

end FaissNavix
