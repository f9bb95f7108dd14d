import FaissNavix.Lib.Bits

/-!
# Bit strings

`BitstringWriter` and `BitstringReader` of `faiss/utils/hamming-inl.h`: numbers of different widths,
one after the other.  The writer joins bits with those that are there, and writes no zero bytes after
the first one.
-/

namespace FaissNavix

open Lib

/-! ## Writing -/

/-- `BitstringWriter`, and the bytes it writes to. -/
structure BitstringWriter where
  code : List UInt8
  i : ℕ
deriving DecidableEq, Repr

/-- The constructor, which clears the bytes. -/
def BitstringWriter.new (codeSize : ℕ) : BitstringWriter :=
  ⟨List.replicate codeSize 0, 0⟩

/-- The loop `while (x != 0)`. -/
def orRest : ℕ → List UInt8 → ℕ → ℕ → Option (List UInt8)
  | 0, _, _, _ => none
  | turns + 1, code, j, x =>
    if x = 0 then some code
    else (orByte code j x).bind fun code ↦ orRest turns code (j + 1) (x >>> 8)

/-- `write` of a number of 64 bits, which has no result where it leaves the bytes. -/
def BitstringWriter.write (wr : BitstringWriter) (x nbit : ℕ) : Option BitstringWriter :=
  let na := 8 - wr.i % 8
  (orByte wr.code (wr.i / 8) (x <<< (wr.i % 8))).bind fun code ↦
    if nbit ≤ na then some ⟨code, wr.i + nbit⟩
    else (orRest 9 code (wr.i / 8 + 1) (x >>> na)).map fun code ↦ ⟨code, wr.i + nbit⟩

/-! ## Reading -/

/-- `BitstringReader`, and the bytes it reads. -/
structure BitstringReader where
  code : List UInt8
  i : ℕ
deriving DecidableEq, Repr

/-- The loop `while (nbit > 8)`, and the last byte. -/
def readRest : ℕ → List UInt8 → ℕ → ℕ → ℕ → ℕ → Option ℕ
  | 0, _, _, _, _, _ => none
  | turns + 1, code, res, j, ofs, nbit =>
    code[j]?.bind fun byte ↦
      if 8 < nbit then readRest turns code (res ||| byte.toNat <<< ofs) (j + 1) (ofs + 8) (nbit - 8)
      else some (res ||| (byte.toNat &&& 2 ^ nbit - 1) <<< ofs)

/-- `read` of at most 64 bits. -/
def BitstringReader.read (rd : BitstringReader) (nbit : ℕ) : Option (ℕ × BitstringReader) :=
  let na := 8 - rd.i % 8
  rd.code[rd.i / 8]?.bind fun byte ↦
    let res := byte.toNat >>> (rd.i % 8)
    if nbit ≤ na then some (res &&& 2 ^ nbit - 1, ⟨rd.code, rd.i + nbit⟩)
    else (readRest 9 rd.code res (rd.i / 8 + 1) na (nbit - na)).map fun res ↦
      (res, ⟨rd.code, rd.i + nbit⟩)

/-! ## What is written -/

variable {code code' : List UInt8} {turns j x nbit ofs res r : ℕ} {wr wr' : BitstringWriter}
  {rd : BitstringReader}

theorem length_of_orRest (h : orRest turns code j x = some code') : code'.length = code.length := by
  induction turns generalizing code j x with
  | zero => cases h
  | succ turns ih =>
      unfold orRest at h
      split at h
      · cases h
        rfl
      · obtain ⟨code₁, hbyte, hrest⟩ := Option.bind_eq_some_iff.mp h
        rw [ih hrest, length_of_orByte hbyte]

/-- The loop joins the bits of the number from a byte on. -/
theorem bitAt_of_orRest (h : orRest turns code j x = some code') (p : ℕ) :
    bitAt code' p = (bitAt code p || decide (8 * j ≤ p) && x.testBit (p - 8 * j)) := by
  induction turns generalizing code j x with
  | zero => cases h
  | succ turns ih =>
      unfold orRest at h
      split at h
      · next hzero =>
          cases h
          rw [hzero, Nat.zero_testBit, Bool.and_false, Bool.or_false]
      · obtain ⟨code₁, hbyte, hrest⟩ := Option.bind_eq_some_iff.mp h
        rw [ih hrest, bitAt_of_orByte hbyte, Nat.testBit_shiftRight, Bool.or_assoc]
        refine congrArg (bitAt code p || ·) ?_
        rcases Nat.lt_or_ge p (8 * j) with hbefore | hle
        · rw [decide_eq_false (by omega : ¬ p / 8 = j), decide_eq_false (by omega : ¬ 8 * (j + 1) ≤ p),
            decide_eq_false (by omega : ¬ 8 * j ≤ p)]
          rfl
        · rcases Nat.lt_or_ge p (8 * (j + 1)) with hbyte' | hafter
          · rw [decide_eq_true (by omega : p / 8 = j), decide_eq_false (by omega : ¬ 8 * (j + 1) ≤ p),
              decide_eq_true hle, Bool.false_and, Bool.or_false, show p % 8 = p - 8 * j by omega]
          · rw [decide_eq_false (by omega : ¬ p / 8 = j), decide_eq_true hafter, decide_eq_true hle,
              Bool.false_and, Bool.false_or, show 8 + (p - 8 * (j + 1)) = p - 8 * j by omega]

/-- The loop ends within the bytes, where the number does. -/
theorem exists_orRest (hx : x < 2 ^ nbit) (hroom : 8 * j + nbit ≤ 8 * code.length)
    (hturns : nbit ≤ 8 * turns) : ∃ code', orRest (turns + 1) code j x = some code' := by
  induction turns generalizing code j x nbit with
  | zero =>
      obtain rfl : nbit = 0 := by omega
      obtain rfl : x = 0 := by omega
      exact ⟨code, rfl⟩
  | succ turns ih =>
      unfold orRest
      by_cases hzero : x = 0
      · exact ⟨code, if_pos hzero⟩
      · have hpos : 0 < nbit := Nat.pos_of_ne_zero fun h ↦ by
          rw [h] at hx
          omega
        have hj : j < code.length := by omega
        obtain ⟨code₁, hbyte⟩ := exists_orByte hj x
        have hshift : x >>> 8 < 2 ^ (nbit - 8) := by
          rw [Nat.shiftRight_eq_div_pow]
          refine Nat.div_lt_of_lt_mul (hx.trans_le ?_)
          rw [← Nat.pow_add]
          exact Nat.pow_le_pow_right (by decide) (by omega)
        rw [if_neg hzero, hbyte]
        refine ih hshift ?_ (by omega)
        rw [length_of_orByte hbyte]
        omega

namespace BitstringWriter

/-- What a write leaves behind: the position moves on, up to it the bits of the number are joined, and
after it there are those of the number if it is too large. -/
theorem of_write (h : wr.write x nbit = some wr') :
    wr'.i = wr.i + nbit ∧ wr'.code.length = wr.code.length ∧ wr.i < 8 * wr.code.length ∧
      (∀ p < wr.i + nbit,
        bitAt wr'.code p = (bitAt wr.code p || decide (wr.i ≤ p) && x.testBit (p - wr.i))) ∧
      (x < 2 ^ nbit → ∀ p, wr.i + nbit ≤ p → bitAt wr'.code p = bitAt wr.code p) := by
  unfold write at h
  obtain ⟨code, hbyte, h⟩ := Option.bind_eq_some_iff.mp h
  have hlt := lt_of_orByte hbyte
  have hfirst : ∀ p, bitAt code p = (bitAt wr.code p ||
      decide (p / 8 = wr.i / 8 ∧ wr.i ≤ p) && x.testBit (p - wr.i)) := by
    intro p
    rw [bitAt_of_orByte hbyte, Nat.testBit_shiftLeft]
    refine congrArg (bitAt wr.code p || ·) ?_
    by_cases hp : p / 8 = wr.i / 8 ∧ wr.i ≤ p
    · rw [decide_eq_true hp, decide_eq_true hp.1, decide_eq_true (by omega : p % 8 ≥ wr.i % 8),
        show p % 8 - wr.i % 8 = p - wr.i by omega]
      rfl
    · rw [decide_eq_false hp, Bool.false_and]
      by_cases hsame : p / 8 = wr.i / 8
      · rw [decide_eq_false (by omega : ¬ p % 8 ≥ wr.i % 8), Bool.false_and, Bool.and_false]
      · rw [decide_eq_false hsame, Bool.false_and]
  have hsmall : x < 2 ^ nbit → ∀ p, wr.i + nbit ≤ p → x.testBit (p - wr.i) = false :=
    fun hx p hp ↦ testBit_of_lt hx (by omega)
  split at h
  · next hna =>
      obtain rfl := Option.some.inj h
      refine ⟨rfl, length_of_orByte hbyte, by omega, fun p hp ↦ ?_, fun hx p hp ↦ ?_⟩
      · rw [hfirst]
        refine congrArg (fun b ↦ bitAt wr.code p || b && x.testBit (p - wr.i)) ?_
        exact decide_eq_decide.mpr (by omega)
      · rw [hfirst, hsmall hx p hp, Bool.and_false, Bool.or_false]
  · next hna =>
      obtain ⟨code', hrest, rfl⟩ := Option.map_eq_some_iff.mp h
      have hall : ∀ p, bitAt code' p =
          (bitAt wr.code p || decide (wr.i ≤ p) && x.testBit (p - wr.i)) := by
        intro p
        rw [bitAt_of_orRest hrest, hfirst, Nat.testBit_shiftRight, Bool.or_assoc]
        refine congrArg (bitAt wr.code p || ·) ?_
        by_cases hnext : 8 * (wr.i / 8 + 1) ≤ p
        · rw [decide_eq_false (by omega : ¬ (p / 8 = wr.i / 8 ∧ wr.i ≤ p)), decide_eq_true hnext,
            decide_eq_true (by omega : wr.i ≤ p), Bool.false_and, Bool.false_or,
            show 8 - wr.i % 8 + (p - 8 * (wr.i / 8 + 1)) = p - wr.i by omega]
        · rw [decide_eq_false hnext, Bool.false_and, Bool.or_false]
          exact congrArg (· && x.testBit (p - wr.i)) (decide_eq_decide.mpr (by omega))
      refine ⟨rfl, (length_of_orRest hrest).trans (length_of_orByte hbyte), by omega,
        fun p _ ↦ hall p, fun hx p hp ↦ ?_⟩
      rw [hall, hsmall hx p hp, Bool.and_false, Bool.or_false]

/-- A number that fits is written, where there is room. -/
theorem exists_write (hx : x < 2 ^ nbit) (hnbit : nbit ≤ 64) (hi : wr.i < 8 * wr.code.length)
    (hroom : wr.i + nbit ≤ 8 * wr.code.length) : ∃ wr', wr.write x nbit = some wr' := by
  have hlt : wr.i / 8 < wr.code.length := by omega
  obtain ⟨code, hbyte⟩ := exists_orByte hlt (x <<< (wr.i % 8))
  unfold write
  rw [hbyte]
  dsimp only [Option.bind_some]
  split
  · exact ⟨_, rfl⟩
  · next hna =>
      have hshift : x >>> (8 - wr.i % 8) < 2 ^ (nbit - (8 - wr.i % 8)) := by
        rw [Nat.shiftRight_eq_div_pow]
        refine Nat.div_lt_of_lt_mul ?_
        rwa [← Nat.pow_add, show 8 - wr.i % 8 + (nbit - (8 - wr.i % 8)) = nbit by omega]
      have hbytes : 8 * (wr.i / 8 + 1) + (nbit - (8 - wr.i % 8)) ≤ 8 * code.length := by
        rw [length_of_orByte hbyte]
        omega
      obtain ⟨code', hrest⟩ := exists_orRest hshift hbytes (by omega : _ ≤ 8 * 8)
      exact ⟨_, congrArg _ hrest⟩

/-- The writer is after these bits, and there are no others. -/
def Wrote (wr : BitstringWriter) (bits : List Bool) : Prop :=
  wr.i = bits.length ∧ ∀ p, bitAt wr.code p = bits.getD p false

theorem wrote_new (codeSize : ℕ) : (new codeSize).Wrote [] :=
  ⟨rfl, fun p ↦ bitAt_replicate_zero codeSize p⟩

/-- The bits of a number that fits are added. -/
theorem Wrote.write {bits : List Bool} (h : wr.Wrote bits) (hx : x < 2 ^ nbit) (hnbit : nbit ≤ 64)
    (hi : bits.length < 8 * wr.code.length) (hroom : bits.length + nbit ≤ 8 * wr.code.length) :
    ∃ wr', wr.write x nbit = some wr' ∧ wr'.Wrote (bits ++ toBits nbit x) ∧
      wr'.code.length = wr.code.length := by
  obtain ⟨hlen, hbits⟩ := h
  rw [← hlen] at hi hroom
  obtain ⟨wr', hwr'⟩ := exists_write hx hnbit hi hroom
  obtain ⟨hi', hlen', -, hbelow, habove⟩ := of_write hwr'
  refine ⟨wr', hwr', ⟨?_, fun p ↦ ?_⟩, hlen'⟩
  · rw [hi', hlen, List.length_append, length_toBits]
  · rcases Nat.lt_or_ge p (wr.i + nbit) with hp | hp
    · rw [hbelow p hp, hbits]
      rcases Nat.lt_or_ge p wr.i with hlow | hlow
      · rw [decide_eq_false (not_le.mpr hlow), Bool.false_and, Bool.or_false,
          List.getD_append _ _ _ _ (hlen ▸ hlow)]
      · rw [decide_eq_true hlow, List.getD_eq_default _ _ (hlen ▸ hlow),
          List.getD_append_right _ _ _ _ (hlen ▸ hlow), Bool.false_or, Bool.true_and, ← hlen,
          List.getD_eq_getElem _ _ (by rw [length_toBits]; omega), getElem_toBits]
    · rw [habove hx p hp, hbits, List.getD_eq_default _ _ (by omega), List.getD_eq_default]
      rw [List.length_append, length_toBits]
      omega

/-- `f` adds these bits, where there is room for them and for some more. -/
def Writes (f : BitstringWriter → Option BitstringWriter) (bs : List Bool) (more : ℕ) : Prop :=
  ∀ wr bits, wr.Wrote bits → bits.length + bs.length + more ≤ 8 * wr.code.length →
    ∃ wr', f wr = some wr' ∧ wr'.Wrote (bits ++ bs) ∧ wr'.code.length = wr.code.length

theorem writes_write {more : ℕ} (hx : x < 2 ^ nbit) (hnbit : nbit ≤ 64) (hpos : 0 < nbit + more) :
    Writes (·.write x nbit) (toBits nbit x) more := by
  intro wr bits hwr hroom
  rw [length_toBits] at hroom
  exact hwr.write hx hnbit (by omega) (by omega)

theorem Writes.bind {f g : BitstringWriter → Option BitstringWriter} {bs bs' : List Bool} {more : ℕ}
    (hf : Writes f bs (bs'.length + more)) (hg : Writes g bs' more) :
    Writes (fun wr ↦ f wr >>= g) (bs ++ bs') more := by
  intro wr bits hwr hroom
  rw [List.length_append] at hroom
  obtain ⟨wr₁, hf₁, hwr₁, hlen₁⟩ := hf wr bits hwr (by omega)
  obtain ⟨wr₂, hg₂, hwr₂, hlen₂⟩ := hg wr₁ (bits ++ bs) hwr₁ (by
    rw [List.length_append, hlen₁]
    omega)
  exact ⟨wr₂, (congrArg (· >>= g) hf₁).trans hg₂, List.append_assoc bits bs bs' ▸ hwr₂,
    hlen₂.trans hlen₁⟩

theorem writes_foldlM {α : Type} {step : BitstringWriter → α → Option BitstringWriter}
    {enc : α → List Bool} {xs : List α} (h : ∀ x ∈ xs, Writes (step · x) (enc x) 0) :
    Writes (xs.foldlM step ·) (xs.flatMap enc) 0 := by
  induction xs with
  | nil => exact fun wr bits hwr _ ↦ ⟨wr, rfl, (List.append_nil bits).symm ▸ hwr, rfl⟩
  | cons x xs ih =>
      intro wr bits hwr hroom
      rw [List.flatMap_cons, List.length_append] at hroom
      rw [List.flatMap_cons, ← List.append_assoc]
      obtain ⟨wr₁, hx, hwr₁, hlen₁⟩ := h x List.mem_cons_self wr bits hwr (by omega)
      obtain ⟨wr₂, hxs, hwr₂, hlen₂⟩ := ih (fun y hy ↦ h y (List.mem_cons_of_mem x hy)) wr₁ _ hwr₁ (by
        rw [List.length_append, hlen₁]
        omega)
      exact ⟨wr₂, (congrArg (· >>= (xs.foldlM step ·)) hx).trans hxs, hwr₂, hlen₂.trans hlen₁⟩

/-- From one state to another by so many bits, none of which starts outside of the bytes. -/
def Advances (wr wr' : BitstringWriter) (n : ℕ) : Prop :=
  wr'.i = wr.i + n ∧ wr'.code.length = wr.code.length ∧ wr'.i < 8 * wr.code.length + 64

theorem advances_write (h : wr.write x nbit = some wr') (hnbit : nbit ≤ 64) :
    wr.Advances wr' nbit := by
  obtain ⟨hi, hlen, hlt, -, -⟩ := of_write h
  exact ⟨hi, hlen, by omega⟩

theorem Advances.trans {wr₁ wr₂ wr₃ : BitstringWriter} {n n' : ℕ} (h : wr₁.Advances wr₂ n)
    (h' : wr₂.Advances wr₃ n') : wr₁.Advances wr₃ (n + n') := by
  obtain ⟨hi, hlen, -⟩ := h
  obtain ⟨hi', hlen', hlt⟩ := h'
  exact ⟨by omega, hlen'.trans hlen, by omega⟩

theorem advances_foldlM {α : Type} {step : BitstringWriter → α → Option BitstringWriter}
    {size : α → ℕ} {xs : List α}
    (h : ∀ x ∈ xs, ∀ wr wr', step wr x = some wr' → wr.Advances wr' (size x))
    (hstart : wr.i < 8 * wr.code.length + 64) (hwr' : xs.foldlM step wr = some wr') :
    wr.Advances wr' (xs.map size).sum := by
  induction xs generalizing wr with
  | nil =>
      obtain rfl := Option.some.inj hwr'
      exact ⟨rfl, rfl, hstart⟩
  | cons x xs ih =>
      rw [List.foldlM_cons] at hwr'
      obtain ⟨wr₁, hx, hwr'⟩ := Option.bind_eq_some_iff.mp hwr'
      have hstep := h x List.mem_cons_self wr wr₁ hx
      rw [List.map_cons, List.sum_cons]
      refine hstep.trans (ih (fun y hy ↦ h y (List.mem_cons_of_mem x hy)) ?_ hwr')
      rw [hstep.2.1]
      exact hstep.2.2

end BitstringWriter

/-! ## What is read -/

theorem testBit_getElem {byte : UInt8} (h : code[j]? = some byte) {q : ℕ} (hq : q < 8) :
    byte.toNat.testBit q = bitAt code (8 * j + q) := by
  unfold bitAt
  rw [List.getD_eq_getElem?_getD, show (8 * j + q) / 8 = j by omega, h,
    show (8 * j + q) % 8 = q by omega]
  rfl

theorem testBit_byte_of_le (byte : UInt8) {q : ℕ} (hq : 8 ≤ q) : byte.toNat.testBit q = false :=
  testBit_of_lt byte.toNat_lt hq

/-- The loop joins the bits from a byte on, as many as are asked for. -/
theorem testBit_of_readRest (h : readRest turns code res j ofs nbit = some r) (q : ℕ) :
    r.testBit q = (res.testBit q ||
      decide (ofs ≤ q ∧ q < ofs + nbit) && bitAt code (8 * j + (q - ofs))) := by
  induction turns generalizing res j ofs nbit with
  | zero => cases h
  | succ turns ih =>
      unfold readRest at h
      obtain ⟨byte, hbyte, h⟩ := Option.bind_eq_some_iff.mp h
      split at h
      · next hmore =>
          rw [ih h, Nat.testBit_or, Nat.testBit_shiftLeft, Bool.or_assoc]
          refine congrArg (res.testBit q || ·) ?_
          by_cases hlow : ofs ≤ q ∧ q < ofs + 8
          · rw [decide_eq_true hlow.1, testBit_getElem hbyte (by omega),
              decide_eq_false (by omega : ¬ (ofs + 8 ≤ q ∧ q < ofs + 8 + (nbit - 8))),
              decide_eq_true (by omega : ofs ≤ q ∧ q < ofs + nbit), Bool.false_and, Bool.or_false]
          · have hbit : (decide (q ≥ ofs) && byte.toNat.testBit (q - ofs)) = false := by
              by_cases hle : ofs ≤ q
              · rw [testBit_byte_of_le byte (by omega), Bool.and_false]
              · rw [decide_eq_false hle, Bool.false_and]
            rw [hbit, Bool.false_or]
            by_cases hhigh : ofs + 8 ≤ q
            · rw [show 8 * (j + 1) + (q - (ofs + 8)) = 8 * j + (q - ofs) by omega]
              exact congrArg (· && _) (decide_eq_decide.mpr (by omega))
            · rw [decide_eq_false (by omega : ¬ (ofs + 8 ≤ q ∧ q < ofs + 8 + (nbit - 8))),
                decide_eq_false (by omega : ¬ (ofs ≤ q ∧ q < ofs + nbit)), Bool.false_and,
                Bool.false_and]
      · next hlast =>
          obtain rfl := Option.some.inj h
          rw [Nat.testBit_or, Nat.testBit_shiftLeft, Nat.and_two_pow_sub_one_eq_mod,
            Nat.testBit_mod_two_pow]
          refine congrArg (res.testBit q || ·) ?_
          by_cases hin : ofs ≤ q ∧ q < ofs + nbit
          · rw [decide_eq_true hin, decide_eq_true hin.1, decide_eq_true (by omega : q - ofs < nbit),
              testBit_getElem hbyte (by omega)]
            rfl
          · rw [decide_eq_false hin, Bool.false_and]
            by_cases hle : ofs ≤ q
            · rw [decide_eq_false (by omega : ¬ q - ofs < nbit), Bool.false_and, Bool.and_false]
            · rw [decide_eq_false hle, Bool.false_and]

theorem exists_readRest (res ofs : ℕ) (hpos : 0 < nbit) (hroom : 8 * j + nbit ≤ 8 * code.length)
    (turns : ℕ) (hturns : nbit ≤ 8 * turns) :
    ∃ r, readRest turns code res j ofs nbit = some r := by
  induction turns generalizing res j ofs nbit with
  | zero => omega
  | succ turns ih =>
      unfold readRest
      rw [List.getElem?_eq_getElem (by omega : j < code.length)]
      dsimp only [Option.bind_some]
      split
      · exact ih _ _ (by omega) (by omega) (by omega)
      · exact ⟨_, rfl⟩

namespace BitstringReader

/-- What a read delivers: the bits from the position on, and the position moves on. -/
theorem of_read {rd' : BitstringReader} (h : rd.read nbit = some (r, rd')) :
    rd' = ⟨rd.code, rd.i + nbit⟩ ∧
      ∀ q, r.testBit q = (decide (q < nbit) && bitAt rd.code (rd.i + q)) := by
  unfold read at h
  obtain ⟨byte, hbyte, h⟩ := Option.bind_eq_some_iff.mp h
  have hfirst : ∀ q, (byte.toNat >>> (rd.i % 8)).testBit q =
      (decide (q < 8 - rd.i % 8) && bitAt rd.code (rd.i + q)) := by
    intro q
    rw [Nat.testBit_shiftRight]
    by_cases hq : q < 8 - rd.i % 8
    · rw [testBit_getElem hbyte (by omega), decide_eq_true hq, Bool.true_and,
        show 8 * (rd.i / 8) + (rd.i % 8 + q) = rd.i + q by omega]
    · rw [testBit_byte_of_le byte (by omega), decide_eq_false hq, Bool.false_and]
  split at h
  · next hna =>
      obtain ⟨rfl, rfl⟩ := Prod.mk.inj (Option.some.inj h)
      refine ⟨rfl, fun q ↦ ?_⟩
      rw [Nat.and_two_pow_sub_one_eq_mod, Nat.testBit_mod_two_pow, hfirst, ← Bool.and_assoc,
        ← Bool.decide_and]
      exact congrArg (· && _) (decide_eq_decide.mpr (by omega))
  · next hna =>
      obtain ⟨r', hrest, heq⟩ := Option.map_eq_some_iff.mp h
      obtain ⟨rfl, rfl⟩ := Prod.mk.inj heq
      refine ⟨rfl, fun q ↦ ?_⟩
      rw [testBit_of_readRest hrest, hfirst]
      by_cases hq : q < 8 - rd.i % 8
      · rw [decide_eq_true hq, decide_eq_true (by omega : q < nbit),
          decide_eq_false (fun h ↦ not_le.mpr hq h.1), Bool.false_and, Bool.or_false]
      · rw [decide_eq_false hq, Bool.false_and, Bool.false_or,
          show 8 * (rd.i / 8 + 1) + (q - (8 - rd.i % 8)) = rd.i + q by omega]
        exact congrArg (· && _) (decide_eq_decide.mpr (by omega))

theorem exists_read (rd : BitstringReader) (hnbit : nbit ≤ 64) (hi : rd.i < 8 * rd.code.length)
    (hroom : rd.i + nbit ≤ 8 * rd.code.length) :
    ∃ r, rd.read nbit = some (r, ⟨rd.code, rd.i + nbit⟩) := by
  unfold read
  rw [List.getElem?_eq_getElem (by omega : rd.i / 8 < rd.code.length)]
  dsimp only [Option.bind_some]
  split
  · exact ⟨_, rfl⟩
  · obtain ⟨r, hr⟩ := exists_readRest _ (8 - rd.i % 8) (by omega : 0 < nbit - (8 - rd.i % 8))
      (by omega : 8 * (rd.i / 8 + 1) + (nbit - (8 - rd.i % 8)) ≤ 8 * rd.code.length) 9 (by omega)
    exact ⟨r, congrArg (Option.map _) hr⟩

def Sees (rd : BitstringReader) (bits : List Bool) : Prop :=
  rd.i + bits.length ≤ 8 * rd.code.length ∧
    ∀ q < bits.length, bitAt rd.code (rd.i + q) = bits.getD q false

theorem sees_of_wrote {bits : List Bool} (h : wr.Wrote bits)
    (hroom : bits.length ≤ 8 * wr.code.length) : Sees ⟨wr.code, 0⟩ bits :=
  ⟨by rwa [Nat.zero_add], fun q _ ↦ by rw [Nat.zero_add, h.2]⟩

/-- The number of which the bits come first is read, unless nothing is left to read. -/
theorem Sees.read {bits : List Bool} (h : rd.Sees (toBits nbit x ++ bits)) (hx : x < 2 ^ nbit)
    (hnbit : nbit ≤ 64) (hleft : 0 < nbit + bits.length) :
    ∃ rd', rd.read nbit = some (x, rd') ∧ rd'.Sees bits ∧ rd'.code = rd.code := by
  obtain ⟨hroom, hbits⟩ := h
  rw [List.length_append, length_toBits] at hroom hbits
  obtain ⟨r, hr⟩ := exists_read rd hnbit (by omega) (by omega)
  obtain ⟨-, hread⟩ := of_read hr
  obtain rfl : r = x := by
    refine Nat.eq_of_testBit_eq fun q ↦ ?_
    rw [hread]
    by_cases hq : q < nbit
    · rw [decide_eq_true hq, Bool.true_and, hbits q (by omega),
        List.getD_append _ _ _ _ (by rwa [length_toBits]),
        List.getD_eq_getElem _ _ (by rwa [length_toBits]), getElem_toBits]
    · rw [decide_eq_false hq, Bool.false_and, testBit_of_lt hx (not_lt.mp hq)]
  refine ⟨_, hr, ⟨by dsimp only; omega, fun q hq ↦ ?_⟩, rfl⟩
  dsimp only
  rw [Nat.add_assoc, hbits (nbit + q) (by omega), List.getD_append_right, length_toBits,
    Nat.add_sub_cancel_left]
  rw [length_toBits]
  exact Nat.le_add_right _ _

/-- `f` reads `a` from these bits, where there are some more. -/
def Reads {α : Type} (f : BitstringReader → Option (α × BitstringReader)) (bs : List Bool) (a : α)
    (more : ℕ) : Prop :=
  ∀ rd after, rd.Sees (bs ++ after) → more ≤ after.length →
    ∃ rd', f rd = some (a, rd') ∧ rd'.Sees after

theorem reads_read {more : ℕ} (hx : x < 2 ^ nbit) (hnbit : nbit ≤ 64) (hpos : 0 < nbit + more) :
    Reads (·.read nbit) (toBits nbit x) x more := by
  intro rd after hrd hmore
  obtain ⟨rd', hread, hrd', -⟩ := hrd.read hx hnbit (by omega)
  exact ⟨rd', hread, hrd'⟩

end BitstringReader

end FaissNavix
