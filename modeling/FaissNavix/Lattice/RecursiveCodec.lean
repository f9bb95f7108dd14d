import FaissNavix.Lib.Numbering

/-!
# The recursive sphere codec

`ZnSphereCodecRec` of `faiss/impl/lattice_Zn.cpp`.  The components of a vector are the leaves of a binary tree.
A node of level `ld` stands for `2 ^ ld` components; its code tells how its squared norm is divided between its
two children, and has the codes of the children as digits.
-/

namespace FaissNavix

/-- What the codec needs of `float`. -/
structure SphereFloats (F : Type) where
  ofInt : ℤ → F
  neg : F → F
  mul : F → F → F
  /-- `float r = sqrt(n)` -/
  sqrt : ℕ → F

/-- `ZnSphereCodecRec` -/
structure ZnSphereCodecRec (F : Type) where
  dim : ℕ
  nv : ℕ
  r2 : ℕ
  log2Dim : ℕ
  allNv : List ℕ
  allNvCum : List ℕ
  decodeCacheLd : ℕ
  decodeCache : List (List F)

namespace ZnSphereCodecRec

variable {F : Type}

/-! ## The tables -/

/-- `get_nv` -/
def getNv (z : ZnSphereCodecRec F) (ld r2a : ℕ) : Option ℕ := z.allNv[ld * (z.r2 + 1) + r2a]?

/-- `get_nv_cum` -/
def getNvCum (z : ZnSphereCodecRec F) (ld r2t r2a : ℕ) : Option ℕ :=
  z.allNvCum[(ld * (z.r2 + 1) + r2t) * (z.r2 + 1) + r2a]?

/-- `all_nv[ld * (r2 + 1) + r2a] = nv` -/
def setNv (z : ZnSphereCodecRec F) (ld r2a nv : ℕ) : Option (ZnSphereCodecRec F) :=
  if ld * (z.r2 + 1) + r2a < z.allNv.length then
    some { z with allNv := z.allNv.set (ld * (z.r2 + 1) + r2a) nv }
  else none

/-- `set_nv_cum` -/
def setNvCum (z : ZnSphereCodecRec F) (ld r2t r2a cum : ℕ) : Option (ZnSphereCodecRec F) :=
  if (ld * (z.r2 + 1) + r2t) * (z.r2 + 1) + r2a < z.allNvCum.length then
    some { z with allNvCum := z.allNvCum.set ((ld * (z.r2 + 1) + r2t) * (z.r2 + 1) + r2a) cum }
  else none

/-! ## Encoding -/

/-- The arrays `codes` and `norm2s`. -/
structure Nodes where
  codes : List ℕ
  norm2s : List ℕ

section
variable (z : ZnSphereCodecRec F)

/-- A component, as a node of level 0: its squared norm and its code. -/
def leafOf (x : ℤ) : ℕ × ℕ :=
  if x = 0 then (0, 0)
  else ((x * x).toNat, if 0 ≤ x then 0 else 1)

/-- The turn that joins two nodes to node `i` of level `ld`. -/
def joinTurn (ld : ℕ) (s : Nodes) (i : ℕ) : Option Nodes := do
  let r2a ← s.norm2s[2 * i]?
  let r2b ← s.norm2s[2 * i + 1]?
  let codeA ← s.codes[2 * i]?
  let codeB ← s.codes[2 * i + 1]?
  let start ← z.getNvCum ld (r2a + r2b) r2a
  let nvb ← z.getNv (ld - 1) r2b
  return ⟨s.codes.set i ((start + codeA * nvb + codeB) % 2 ^ 64), s.norm2s.set i (r2a + r2b)⟩

/-- A turn of the loop over the levels, which also halves `dim2`. -/
def joinLevel (s : Nodes × ℕ) (ld : ℕ) : Option (Nodes × ℕ) := do
  let nodes ← (List.range s.2).foldlM (z.joinTurn ld) s.1
  return (nodes, s.2 / 2)

/-- `encode_centroid`, of a vector with integer components. -/
def encodeCentroid (cs : List ℤ) : Option ℕ := do
  let leaves ← (List.range z.dim).mapM fun i ↦ cs[i]?.map leafOf
  let (s, _) ← (List.range z.log2Dim).foldlM (fun s t ↦ z.joinLevel s (t + 1))
    (⟨leaves.map Prod.snd, leaves.map Prod.fst⟩, z.dim / 2)
  s.codes[0]?

/-! ## Decoding -/

/-- The turn that splits node `i` of level `ld`. -/
def splitTurn (ld : ℕ) (s : Nodes) (i : ℕ) : Option Nodes := do
  let r2sub ← s.norm2s[i]?
  let codei ← s.codes[i]?
  let r2a ← Lib.findSegment (fun j ↦ z.getNvCum ld r2sub j) codei (r2sub + 1) 0 (r2sub + 1)
  let r2b := r2sub - r2a
  let start ← z.getNvCum ld r2sub r2a
  let codei := codei - start
  let nvb ← z.getNv (ld - 1) r2b
  -- a division by 0, or a node that is not there
  if nvb = 0 ∨ s.codes.length ≤ 2 * i + 1 ∨ s.norm2s.length ≤ 2 * i + 1 then none
  else
    return ⟨(s.codes.set (2 * i) (codei / nvb)).set (2 * i + 1) (codei % nvb),
      (s.norm2s.set (2 * i) r2a).set (2 * i + 1) r2b⟩

/-- A turn of the loop over the levels, which also doubles `dim2`. -/
def splitLevel (s : Nodes × ℕ) (ld : ℕ) : Option (Nodes × ℕ) := do
  let nodes ← (List.range s.2).reverse.foldlM (z.splitTurn ld) s.1
  return (nodes, s.2 * 2)

end

variable [DecidableEq F]

section
variable (z : ZnSphereCodecRec F) (fl : SphereFloats F) (assertions : Bool)

/-- The component for a leaf. -/
def leafValue (norm2 code : ℕ) : Option F :=
  if norm2 = 0 then some (fl.ofInt 0)
  else
    let r := fl.sqrt norm2
    if assertions ∧ fl.mul r r ≠ fl.ofInt norm2 then none
    else some (if code = 0 then r else fl.neg r)

/-- The components for a node whose codes are all in the cache. -/
def cachedBlock (subdim norm2 code : ℕ) : Option (List F) := do
  let cache ← z.decodeCache[norm2]?
  if assertions ∧ cache.length ≤ code then none
  else if (code + 1) * subdim ≤ cache.length then some ((cache.drop (code * subdim)).take subdim)
  else none

/-- `decode`, into a vector of `dim` components. -/
def decode (code : ℕ) : Option (List F) := do
  let (s, dim2) ← (List.range (z.log2Dim - z.decodeCacheLd)).foldlM
    (fun s t ↦ z.splitLevel s (z.log2Dim - t))
    (⟨(List.replicate z.dim 0).set 0 code, (List.replicate z.dim 0).set 0 z.r2⟩, 1)
  if z.decodeCacheLd = 0 then
    (List.range z.dim).mapM fun i ↦ do
      let norm2 ← s.norm2s[i]?
      let code ← s.codes[i]?
      leafValue fl assertions norm2 code
  else
    let subdim := 2 ^ z.decodeCacheLd
    if assertions ∧ dim2 * subdim ≠ z.dim then none
    else do
      let blocks ← (List.range dim2).mapM fun i ↦ do
        let norm2 ← s.norm2s[i]?
        let code ← s.codes[i]?
        z.cachedBlock assertions subdim norm2 code
      return blocks.flatten

end

/-! ## Construction -/

/-- The loop for `log2_dim`. -/
def log2DimOf (dim : ℕ) : ℕ → ℕ → ℕ
  | 0, ld => ld
  | fuel + 1, ld => if 2 ^ ld < dim then log2DimOf dim fuel (ld + 1) else ld

omit [DecidableEq F] in
/-- The turn of the first loop over the norms, for level 0. -/
def leafTurn (z : ZnSphereCodecRec F) (r2a : ℕ) : Option (ZnSphereCodecRec F) :=
  let r := Nat.sqrt r2a
  z.setNv 0 r2a (if r * r = r2a then if r = 0 then 1 else 2 else 0)

omit [DecidableEq F] in
/-- The turn of the loop over `r2a`, which adds up `nv`. -/
def convolveTurn (ld r2sub : ℕ) (s : ZnSphereCodecRec F × ℕ) (r2a : ℕ) : Option (ZnSphereCodecRec F × ℕ) := do
  let r2b := r2sub - r2a
  let z ← s.1.setNvCum ld r2sub r2a s.2
  let nva ← z.getNv (ld - 1) r2a
  let nvb ← z.getNv (ld - 1) r2b
  return (z, (s.2 + nva * nvb) % 2 ^ 64)

omit [DecidableEq F] in
/-- The turn of the loop over `r2sub`. -/
def normTurn (ld : ℕ) (z : ZnSphereCodecRec F) (r2sub : ℕ) : Option (ZnSphereCodecRec F) := do
  let (z, nv) ← (List.range (r2sub + 1)).foldlM (convolveTurn ld r2sub) (z, 0)
  z.setNv ld r2sub nv

/-- The turn of the loop that fills the caches. -/
def cacheTurn (fl : SphereFloats F) (assertions : Bool) (cacheLevel : ℕ) (z : ZnSphereCodecRec F)
    (r2sub : ℕ) : Option (ZnSphereCodecRec F) := do
  let nvi ← z.getNv cacheLevel r2sub
  let dimsub := 2 ^ cacheLevel
  let code0 ← z.getNvCum (cacheLevel + 1) z.r2 (z.r2 - r2sub)
  -- the `int i` of the loop overflows
  if 2 ^ 31 ≤ nvi then none
  else do
    let blocks ← (List.range nvi).mapM fun i ↦ do
      let c ← z.decode fl assertions ((i + code0) % 2 ^ 64)
      return c.drop (z.dim - dimsub)
    return { z with decodeCache := z.decodeCache.set r2sub blocks.flatten }

/-- The constructor.  The sizes of the tables are computed as `int`, and the shift by `cache_level` needs a
level that is not below 0. -/
def new (fl : SphereFloats F) (assertions : Bool) (dim r2 : ℕ) : Option (ZnSphereCodecRec F) :=
  let log2Dim := log2DimOf dim dim 0
  if assertions ∧ dim ≠ 2 ^ log2Dim ∨ log2Dim = 0 then none
  else if 2 ^ 31 ≤ (log2Dim + 1) * (r2 + 1) * (r2 + 1) then none
  else do
    let z ← (List.range (r2 + 1)).foldlM leafTurn
      { dim, nv := 0, r2, log2Dim, decodeCacheLd := 0,
        allNv := List.replicate ((log2Dim + 1) * (r2 + 1)) 0,
        allNvCum := List.replicate ((log2Dim + 1) * (r2 + 1) * (r2 + 1)) 0,
        decodeCache := List.replicate (r2 + 1) [] }
    let z ← (List.range log2Dim).foldlM
      (fun z t ↦ (List.range (r2 + 1)).foldlM (normTurn (t + 1)) z) z
    let nv ← z.getNv log2Dim r2
    let z := { z with nv }
    let cacheLevel := min 3 (log2Dim - 1)
    let z ← (List.range (r2 + 1)).foldlM (cacheTurn fl assertions cacheLevel) z
    return { z with decodeCacheLd := cacheLevel }

end ZnSphereCodecRec

end FaissNavix
