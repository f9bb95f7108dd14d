import FaissNavix.Lib.Bits
import FaissNavix.Lib.Combinadic

/-!
# Codes of permutations

`Comb` and `Repeats` of `faiss/impl/lattice_Zn.cpp`.  A vector is an arrangement of the values of an atom: for one
value after the other, the code numbers the slots that it has among those that are left.  There are two versions of
the loops over the slots: one marks the slots in the bits of a word, and the other one in a `std::vector<bool>`.
-/

namespace FaissNavix

open Lib (scanList scanBits)

/-! ## Binomial coefficients -/

/-- `tab` of `Comb`, Pascal's triangle in 64 bits. -/
def combTab : ℕ → ℕ → ℕ
  | 0, 0 => 1
  | 0, _ + 1 => 0
  | _ + 1, 0 => 1
  | i + 1, j + 1 => (combTab i (j + 1) + combTab i j) % 2 ^ 64

/-- `comb(n, p)`, with its assertion. -/
def comb (n p : ℕ) : Option ℕ :=
  if n < 100 ∧ p < 100 then some (if n < p then 0 else combTab n p) else none

/-- `decode_comb_1`: `r`, and what is left of `n`.  It has no result if `r` gets below 0. -/
def decodeComb1 (n k1 : ℕ) : ℕ → Option (ℕ × ℕ)
  | 0 => (comb 0 k1).bind fun k ↦ if n < k then none else some (0, n - k)
  | r + 1 => (comb (r + 1) k1).bind fun k ↦ if n < k then decodeComb1 n k1 r else some (r + 1, n - k)

/-! ## Repeats -/

/-- `Repeat` -/
structure Repeat (α : Type) where
  val : α
  n : ℕ
deriving DecidableEq, Repr

/-- `Repeats` -/
structure Repeats (α : Type) where
  dim : ℕ
  repeats : List (Repeat α)
deriving DecidableEq, Repr

variable {α γ : Type} [DecidableEq α]

/-- The loop `for (;;)` of the constructor, for one component. -/
def addRepeat : List (Repeat α) → α → List (Repeat α)
  | [], v => [⟨v, 1⟩]
  | r :: rs, v => if r.val = v then ⟨r.val, r.n + 1⟩ :: rs else r :: addRepeat rs v

/-- The constructor, from a template of the atom. -/
def Repeats.new (cs : List α) : Repeats α :=
  ⟨cs.length, cs.foldl addRepeat []⟩

omit [DecidableEq α] in
/-- `count` -/
def Repeats.count (R : Repeats α) : Option ℕ :=
  (R.repeats.foldlM (fun (s : ℕ × ℕ) r ↦
    (comb s.2 r.n).map fun k ↦ (s.1 * k % 2 ^ 64, s.2 - r.n)) (1, R.dim)).map Prod.fst

/-! ## Encoding -/

/-- The local variables of the loop over the slots. -/
structure EncodeSlots (γ : Type) where
  rank : ℕ
  occ : ℕ
  codeComb : ℕ
  coded : γ

/-- The turn of the loop for a slot that is free. -/
def encodeSlot (insert : γ → ℕ → γ) (cs : List α) (r : Repeat α) (s : EncodeSlots γ) (i : ℕ) :
    Option (EncodeSlots γ × Bool) :=
  cs[i]?.bind fun v ↦
    if v = r.val then
      (comb s.rank (s.occ + 1)).map fun k ↦
        let occ := s.occ + 1
        let codeComb := (s.codeComb + k) % 2 ^ 64
        let coded := insert s.coded i
        if occ = r.n then (⟨s.rank, occ, codeComb, coded⟩, true) else (⟨s.rank + 1, occ, codeComb, coded⟩, false)
    else some (⟨s.rank + 1, s.occ, s.codeComb, s.coded⟩, false)

/-- The local variables of the loop over the values. -/
structure EncodeValues (γ : Type) where
  coded : γ
  nfree : ℕ
  code : ℕ
  shift : ℕ

section
variable (scan : Repeat α → γ → Option (EncodeSlots γ)) (R : Repeats α)

/-- The turn of the loop for a value, where `scan` is the loop over the slots. -/
def encodeValue (s : EncodeValues γ) (r : Repeat α) :
    Option (EncodeValues γ) :=
  (scan r s.coded).bind fun t ↦ (comb s.nfree r.n).map fun maxComb ↦
    { coded := t.coded
      nfree := s.nfree - r.n
      code := (s.code + s.shift * t.codeComb) % 2 ^ 64
      shift := s.shift * maxComb % 2 ^ 64 }

def encodeValues (empty : γ) : Option ℕ :=
  (R.repeats.foldlM (encodeValue scan) ⟨empty, R.dim, 0, 1⟩).map EncodeValues.code

/-- `set |= uint64_t{1} << i` -/
def insertBit (set : BitVec 64) (i : ℕ) : BitVec 64 := set ||| 1#64 <<< i

/-- `set[i] = true` -/
def insertBool (set : ℕ → Bool) (i : ℕ) : ℕ → Bool := Function.update set i true

/-- The loop over the slots in `repeats_encode_64`, which takes the lowest bit of `tosee` in each turn. -/
def encodeBitSlots (cs : List α) (r : Repeat α) (coded : BitVec 64) : Option (EncodeSlots (BitVec 64)) :=
  scanBits (List.range 64) (encodeSlot insertBit cs r) 64 (~~~coded) ⟨0, 0, 0, coded⟩

/-- `repeats_encode_64` -/
def repeatsEncode64 (cs : List α) : Option ℕ := encodeValues (encodeBitSlots cs) R 0

/-- The loop over the slots with a `std::vector<bool>`. -/
def encodeBoolSlots (dim : ℕ) (cs : List α) (r : Repeat α) (coded : ℕ → Bool) : Option (EncodeSlots (ℕ → Bool)) :=
  (scanList (fun s i ↦ if s.coded i then some (s, false) else encodeSlot insertBool cs r s i) (List.range dim)
    ⟨0, 0, 0, coded⟩).map Prod.fst

/-- The version with a `std::vector<bool>`. -/
def Repeats.encodeBools (cs : List α) : Option ℕ :=
  encodeValues (encodeBoolSlots R.dim cs) R fun _ ↦ false

/-- `Repeats::encode` -/
def Repeats.encode (cs : List α) : Option ℕ :=
  if R.dim < 64 then repeatsEncode64 R cs else R.encodeBools cs

end

/-! ## Decoding -/

/-- The local variables of the loop over the slots, and the output. -/
structure DecodeSlots (α γ : Type) where
  rank : ℕ
  occ : ℕ
  nextRank : ℕ
  codeComb : ℕ
  decoded : γ
  c : List α

/-- The turn of the loop for a slot that is free, where `rank` stays above 0. -/
def decodeSlot (insert : γ → ℕ → γ) (r : Repeat α) (s : DecodeSlots α γ) (i : ℕ) :
    Option (DecodeSlots α γ × Bool) :=
  let rank := s.rank - 1
  if rank = s.nextRank then
    if i < s.c.length then
      let decoded := insert s.decoded i
      let cs := s.c.set i r.val
      let occ := s.occ + 1
      if occ = r.n then some (⟨rank, occ, s.nextRank, s.codeComb, decoded, cs⟩, true)
      else (decodeComb1 s.codeComb (r.n - occ) s.nextRank).map fun t ↦ (⟨rank, occ, t.1, t.2, decoded, cs⟩, false)
    else none
  else some (⟨rank, s.occ, s.nextRank, s.codeComb, s.decoded, s.c⟩, false)

/-- The local variables of the loop over the values, and the output. -/
structure DecodeValues (α γ : Type) where
  decoded : γ
  nfree : ℕ
  code : ℕ
  c : List α

variable (scan : Repeat α → DecodeSlots α γ → Option (DecodeSlots α γ)) (R : Repeats α) (dim : ℕ)

/-- The turn of the loop for a value, where `scan` is the loop over the slots. -/
def decodeValue (s : DecodeValues α γ)
    (r : Repeat α) : Option (DecodeValues α γ) :=
  (comb s.nfree r.n).bind fun maxComb ↦
    if maxComb = 0 then none
    else
      (decodeComb1 (s.code % maxComb) r.n s.nfree).bind fun next ↦
        (scan r ⟨s.nfree, 0, next.1, next.2, s.decoded, s.c⟩).map fun t ↦
          { decoded := t.decoded
            nfree := s.nfree - r.n
            code := s.code / maxComb
            c := t.c }

def decodeValues (empty : γ)
    (code : ℕ) (cs : List α) : Option (List α) :=
  (R.repeats.foldlM (decodeValue scan) ⟨empty, R.dim, code, cs⟩).map DecodeValues.c

/-- The loop over the slots in `repeats_decode_64`, which takes the highest bit of `tosee` in each turn. -/
def decodeBitSlots
    (r : Repeat α) (s : DecodeSlots α (BitVec 64)) : Option (DecodeSlots α (BitVec 64)) :=
  scanBits (List.range 64).reverse (decodeSlot insertBit r) 64 (((1#64 <<< dim) - 1#64) ^^^ s.decoded) s

/-- `repeats_decode_64` -/
def repeatsDecode64 (code : ℕ) (cs : List α) : Option (List α) :=
  decodeValues (decodeBitSlots R.dim) R 0 code cs

/-- The loop over the slots with a `std::vector<bool>`. -/
def decodeBoolSlots
    (r : Repeat α) (s : DecodeSlots α (ℕ → Bool)) : Option (DecodeSlots α (ℕ → Bool)) :=
  (scanList (fun s i ↦ if s.decoded i then some (s, false) else decodeSlot insertBool r s i)
    (List.range dim).reverse s).map Prod.fst

/-- The version with a `std::vector<bool>`. -/
def Repeats.decodeBools (code : ℕ) (cs : List α) : Option (List α) :=
  decodeValues (decodeBoolSlots R.dim) R (fun _ ↦ false) code cs

/-- `Repeats::decode`, into a vector that is there. -/
def Repeats.decode (code : ℕ) (cs : List α) : Option (List α) :=
  if R.dim < 64 then repeatsDecode64 R code cs else R.decodeBools code cs

end FaissNavix
