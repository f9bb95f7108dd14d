import FaissNavix.Bitstring
import FaissNavix.ProductQuantizer

/-!
# Streams of product quantizer codes

`PQEncoderGeneric` and `PQDecoderGeneric` of `faiss/impl/ProductQuantizer-inl.h` on a buffer: numbers of the same
width, one after the other.  The encoder keeps the byte that is not full in `reg`, and the decoder the one that it
is in.  Both agree with `BitstringWriter` and `BitstringReader` on where the bits of a number are.
-/

namespace FaissNavix

open Lib

/-! ## The model -/

/-- What has been written after the destructor, which writes the last byte. -/
def PQEncoderGeneric.finish (s : PQEncoderGeneric) : List UInt8 :=
  if 0 < s.offset then s.written ++ [s.reg] else s.written

/-- A `PQEncoderGeneric` on a buffer, which it writes from the first byte on.  It has no result where it writes
outside of the buffer. -/
def PQEncoderGeneric.encodeAll (nbits : ℕ) (xs : List ℕ) (code : List UInt8) : Option (List UInt8) :=
  let bytes := (xs.foldl (encode nbits) {}).finish
  if bytes.length ≤ code.length then some (bytes ++ code.drop bytes.length) else none

/-- `PQDecoderGeneric::decode` on a buffer, which has no result where it reads outside of it. -/
def PQDecoderGeneric.read (nbits : ℕ) (code : List UInt8) (s : PQDecoderGeneric) :
    Option (ℕ × PQDecoderGeneric) :=
  (if s.offset = 0 then code[s.pos]?.map UInt8.toNat else some s.reg).bind fun reg ↦
    let c := reg >>> s.offset
    if 8 ≤ s.offset + nbits then
      let e := 8 - s.offset
      let pos := s.pos + 1
      let nmore := (nbits - (8 - s.offset)) / 8
      ((List.range nmore).foldlM
        (fun c i ↦ code[pos + i]?.map fun byte ↦ c ||| byte.toNat <<< (e + 8 * i)) c).bind fun c ↦
          let pos := pos + nmore
          let e := e + 8 * nmore
          let offset := (s.offset + nbits) % 8
          if 0 < offset then
            code[pos]?.map fun byte ↦ ((c ||| byte.toNat <<< e) % 2 ^ nbits, ⟨pos, offset, byte.toNat⟩)
          else some (c % 2 ^ nbits, ⟨pos, offset, reg⟩)
    else some (c % 2 ^ nbits, ⟨s.pos, s.offset + nbits, reg⟩)

/-- The next numbers of a `PQDecoderGeneric`. -/
def PQDecoderGeneric.readAll (nbits : ℕ) (code : List UInt8) : ℕ → PQDecoderGeneric → Option (List ℕ)
  | 0, _ => some []
  | M + 1, s => (s.read nbits code).bind fun r ↦ (readAll nbits code M r.2).map (r.1 :: ·)

/-- Numbers and their widths, one after the other. -/
def BitstringWriter.writeAll (wr : BitstringWriter) (entries : List (ℕ × ℕ)) : Option BitstringWriter :=
  entries.foldlM (fun wr e ↦ wr.write e.1 e.2) wr

/-- Numbers of these widths, one after the other. -/
def BitstringReader.readAll : List ℕ → BitstringReader → Option (List ℕ)
  | [], _ => some []
  | nbit :: widths, rd => (rd.read nbit).bind fun r ↦ (readAll widths r.2).map (r.1 :: ·)

variable {nbits x i m c n : ℕ} {xs : List ℕ} {code : List UInt8} {bits : List Bool}

/-! ## What the encoder has written -/

namespace PQEncoderGeneric

variable {s : PQEncoderGeneric}

/-- The bytes that are written and the one that is not full have these bits, and no others. -/
def Encoded (s : PQEncoderGeneric) (bits : List Bool) : Prop :=
  bits.length = 8 * s.written.length + s.offset ∧ s.offset < 8 ∧
    ∀ p, bitAt (s.written ++ [s.reg]) p = bits.getD p false

theorem encoded_start : Encoded {} [] := by
  refine ⟨rfl, by decide, fun p ↦ ?_⟩
  rw [List.nil_append, bitAt_singleton]
  exact Nat.zero_testBit p

theorem testBit_reg (reg : UInt8) (x offset q : ℕ) :
    (reg ||| UInt8.ofNat (x <<< offset)).toNat.testBit q =
      (reg.toNat.testBit q || decide (offset ≤ q ∧ q < 8) && x.testBit (q - offset)) := by
  rw [UInt8.toNat_or, Nat.testBit_or, UInt8.toNat_ofNat', Nat.testBit_mod_two_pow, Nat.testBit_shiftLeft,
    ← Bool.and_assoc, ← Bool.decide_and]
  exact congrArg (fun b ↦ reg.toNat.testBit q || b && x.testBit (q - offset)) (decide_eq_decide.mpr and_comm)

/-- Up to the byte that was not full, the stream has the bits before and the first ones of the number. -/
theorem Encoded.bitAt_reg (h : s.Encoded bits) {p : ℕ} (hp : p < 8 * s.written.length + 8) :
    bitAt (s.written ++ [s.reg ||| UInt8.ofNat (x <<< s.offset)]) p =
      if p < bits.length then bits.getD p false else x.testBit (p - bits.length) := by
  obtain ⟨hlen, hoff, hbits⟩ := h
  have hbit := hbits p
  rw [bitAt_append] at hbit ⊢
  by_cases hw : p < 8 * s.written.length
  · rw [if_pos hw] at hbit
    rw [if_pos hw, if_pos (by omega : p < bits.length), hbit]
  · rw [if_neg hw, bitAt_singleton] at hbit
    rw [if_neg hw, bitAt_singleton, testBit_reg, hbit]
    by_cases hin : p < bits.length
    · rw [if_pos hin, decide_eq_false (by omega : ¬ _), Bool.false_and, Bool.or_false]
    · rw [if_neg hin, List.getD_eq_default _ _ (not_lt.mp hin), decide_eq_true (by omega : _ ∧ _), Bool.false_or,
        Bool.true_and, show p - 8 * s.written.length - s.offset = p - bits.length by omega]

/-- `encode` adds the bits of a number that fits. -/
theorem Encoded.encode (h : s.Encoded bits) (hx : x < 2 ^ nbits) :
    (s.encode nbits x).Encoded (bits ++ toBits nbits x) := by
  have hreg {p : ℕ} (hp : p < 8 * s.written.length + 8) := h.bitAt_reg (x := x) hp
  obtain ⟨hlen, hoff, -⟩ := h
  have hsmall : ∀ q, nbits ≤ q → x.testBit q = false := fun q hq ↦ testBit_of_lt hx hq
  unfold PQEncoderGeneric.encode
  dsimp only
  split
  · next hfull =>
      refine ⟨?_, Nat.mod_lt _ (by decide), fun p ↦ ?_⟩
      · rw [List.length_append, length_toBits, List.length_append, List.length_cons, List.length_map,
          List.length_range]
        dsimp only
        omega
      · rw [getD_append_toBits hx, List.append_assoc, List.cons_append,
          ← List.map_singleton (f := fun i ↦ UInt8.ofNat (x >>> (8 - s.offset) >>> (8 * i))), ← List.map_append,
          ← List.range_succ, List.append_cons,
          bitAt_append, List.length_append, List.length_singleton]
        by_cases hp : p < 8 * (s.written.length + 1)
        · rw [if_pos hp, hreg (by omega)]
        · rw [if_neg hp, if_neg (by omega : ¬ p < bits.length), bitAt_bytes, Nat.testBit_shiftRight,
            show 8 - s.offset + (p - 8 * (s.written.length + 1)) = p - bits.length by omega]
          by_cases hin : p - 8 * (s.written.length + 1) < 8 * ((nbits - (8 - s.offset)) / 8 + 1)
          · rw [decide_eq_true hin, Bool.true_and]
          · rw [decide_eq_false hin, Bool.false_and, hsmall _ (by omega)]
  · next hfits =>
      refine ⟨?_, by dsimp only; omega, fun p ↦ ?_⟩
      · rw [List.length_append, length_toBits]
        dsimp only
        omega
      · rw [getD_append_toBits hx]
        by_cases hp : p < 8 * s.written.length + 8
        · exact hreg hp
        · rw [if_neg (by omega : ¬ p < bits.length), hsmall _ (by omega)]
          refine bitAt_of_le ?_
          rw [List.length_append, List.length_singleton]
          dsimp only
          omega

theorem Encoded.foldl (h : s.Encoded bits) (hxs : ∀ x ∈ xs, x < 2 ^ nbits) :
    (xs.foldl (PQEncoderGeneric.encode nbits) s).Encoded (bits ++ xs.flatMap (toBits nbits)) := by
  induction xs generalizing s bits with
  | nil => rwa [List.flatMap_nil, List.append_nil]
  | cons x xs ih =>
      rw [List.flatMap_cons, ← List.append_assoc]
      exact ih (h.encode (hxs x List.mem_cons_self)) fun y hy ↦ hxs y (List.mem_cons_of_mem x hy)

/-- At the end there are as many bytes as the bits take, and these bits are in them. -/
theorem Encoded.finish (h : s.Encoded bits) :
    s.finish.length = (bits.length + 7) / 8 ∧ ∀ p, bitAt s.finish p = bits.getD p false := by
  obtain ⟨hlen, hoff, hbits⟩ := h
  unfold PQEncoderGeneric.finish
  split
  · exact ⟨by rw [List.length_append, List.length_singleton]; omega, hbits⟩
  · next hfull =>
      refine ⟨by omega, fun p ↦ ?_⟩
      by_cases hp : p < 8 * s.written.length
      · rw [← hbits, bitAt_append, if_pos hp]
      · rw [bitAt_of_le (not_lt.mp hp), List.getD_eq_default _ _ (by omega)]

end PQEncoderGeneric

/-! ## What the decoder reads -/

/-- `c` has the bits of the bytes from `i` on, `m` of them. -/
def HasBits (code : List UInt8) (i m c : ℕ) : Prop :=
  ∀ q, c.testBit q = (decide (q < m) && bitAt code (i + q))

theorem hasBits_first {j offset : ℕ} {byte : UInt8} (h : code[j]? = some byte) (hoff : offset < 8) :
    HasBits code (8 * j + offset) (8 - offset) (byte.toNat >>> offset) := by
  intro q
  rw [Nat.testBit_shiftRight]
  by_cases hq : q < 8 - offset
  · rw [decide_eq_true hq, Bool.true_and, testBit_getElem h (by omega), Nat.add_assoc]
  · rw [decide_eq_false hq, Bool.false_and, testBit_byte_of_le byte (by omega)]

theorem HasBits.next {j : ℕ} {byte : UInt8} (h : HasBits code i m c) (hj : i + m = 8 * j)
    (hbyte : code[j]? = some byte) : HasBits code i (m + 8) (c ||| byte.toNat <<< m) := by
  intro q
  rw [Nat.testBit_or, h, Nat.testBit_shiftLeft]
  rcases Nat.lt_or_ge q m with hq | hq
  · rw [decide_eq_true hq, decide_eq_false (not_le.mpr hq), decide_eq_true (by omega : q < m + 8), Bool.true_and,
      Bool.false_and, Bool.or_false]
  · rw [decide_eq_false (not_lt.mpr hq), Bool.false_and, Bool.false_or, decide_eq_true hq, Bool.true_and]
    by_cases hlow : q < m + 8
    · rw [decide_eq_true hlow, Bool.true_and, testBit_getElem hbyte (by omega),
        show 8 * j + (q - m) = i + q by omega]
    · rw [decide_eq_false hlow, Bool.false_and, testBit_byte_of_le byte (by omega)]

theorem HasBits.mod (h : HasBits code i m c) (hn : n ≤ m) : HasBits code i n (c % 2 ^ n) := by
  intro q
  rw [Nat.testBit_mod_two_pow, h, ← Bool.and_assoc, ← Bool.decide_and]
  exact congrArg (· && _) (decide_eq_decide.mpr (by omega))

theorem HasBits.eq (h : HasBits code i n c) (hx : x < 2 ^ n)
    (hbits : ∀ q < n, bitAt code (i + q) = x.testBit q) : c = x := by
  refine Nat.eq_of_testBit_eq fun q ↦ ?_
  rw [h]
  by_cases hq : q < n
  · rw [decide_eq_true hq, Bool.true_and, hbits q hq]
  · rw [decide_eq_false hq, Bool.false_and, testBit_of_lt hx (not_lt.mp hq)]

namespace PQDecoderGeneric

variable {s : PQDecoderGeneric}

/-- The decoder is before bit `i`, and has read the byte that this is within. -/
def Before (s : PQDecoderGeneric) (code : List UInt8) (i : ℕ) : Prop :=
  8 * s.pos + s.offset = i ∧ s.offset < 8 ∧
    (s.offset ≠ 0 → ∃ byte, code[s.pos]? = some byte ∧ s.reg = byte.toNat)

theorem before_start (code : List UInt8) : Before {} code 0 :=
  ⟨rfl, by decide, fun h ↦ absurd rfl h⟩

theorem Before.exists_reg (h : s.Before code i) (hroom : i < 8 * code.length) :
    ∃ byte, code[s.pos]? = some byte ∧
      (if s.offset = 0 then code[s.pos]?.map UInt8.toNat else some s.reg) = some byte.toNat := by
  obtain ⟨hi, hoff, hreg⟩ := h
  by_cases hzero : s.offset = 0
  · have hpos : s.pos < code.length := by omega
    rw [if_pos hzero, List.getElem?_eq_getElem hpos]
    exact ⟨_, rfl, rfl⟩
  · obtain ⟨byte, hbyte, hs⟩ := hreg hzero
    rw [if_neg hzero, hs]
    exact ⟨byte, hbyte, rfl⟩

theorem hasBits_loop {e j : ℕ} (h : HasBits code i e c) (hj : i + e = 8 * j) (hroom : j + n ≤ code.length) :
    ∃ c', (List.range n).foldlM
        (fun c k ↦ code[j + k]?.map fun byte ↦ c ||| byte.toNat <<< (e + 8 * k)) c = some c' ∧
      HasBits code i (e + 8 * n) c' := by
  induction n with
  | zero => exact ⟨c, rfl, h⟩
  | succ n ih =>
      obtain ⟨c₁, hloop, hc₁⟩ := ih (by omega)
      have hbyte := List.getElem?_eq_getElem (by omega : j + n < code.length)
      rw [List.range_succ, List.foldlM_append, hloop, Option.bind_eq_bind, Option.bind_some, List.foldlM_cons, hbyte]
      exact ⟨_, rfl, hc₁.next (by omega) hbyte⟩

/-- A number is read from its bits, and no byte behind them. -/
theorem Before.read (h : s.Before code i) (hpos : 0 < nbits) (hroom : i + nbits ≤ 8 * code.length) :
    ∃ x s', s.read nbits code = some (x, s') ∧ HasBits code i nbits x ∧ s'.Before code (i + nbits) := by
  obtain ⟨byte, hbyte, hreg⟩ := h.exists_reg (by omega)
  obtain ⟨hi, hoff, -⟩ := h
  have hfirst := hasBits_first hbyte hoff
  rw [hi] at hfirst
  unfold PQDecoderGeneric.read
  rw [hreg, Option.bind_some]
  dsimp only
  split
  · next hfull =>
      obtain ⟨c, hloop, hc⟩ := hasBits_loop (n := (nbits - (8 - s.offset)) / 8) (j := s.pos + 1) hfirst (by omega)
        (by omega)
      rw [hloop, Option.bind_some]
      split
      · next hrest =>
          have hlast := List.getElem?_eq_getElem
            (by omega : s.pos + 1 + (nbits - (8 - s.offset)) / 8 < code.length)
          rw [hlast]
          exact ⟨_, _, rfl, (hc.next (by omega) hlast).mod (by omega), by dsimp only; omega,
            Nat.mod_lt _ (by decide), fun _ ↦ ⟨_, hlast, rfl⟩⟩
      · next hends =>
          exact ⟨_, _, rfl, hc.mod (by omega), by dsimp only; omega, Nat.mod_lt _ (by decide),
            fun hne ↦ absurd (Nat.pos_of_ne_zero hne) hends⟩
  · next hwithin =>
      exact ⟨_, _, rfl, hfirst.mod (by omega), by dsimp only; omega, by dsimp only; omega,
        fun _ ↦ ⟨byte, hbyte, rfl⟩⟩

/-- Where a decoder on a buffer has a result, it is that of the decoder on a memory. -/
theorem decode_of_read {r : ℕ × PQDecoderGeneric} (h : s.read nbits code = some r) :
    s.decode nbits (code.getD · 0) = r := by
  have hget : ∀ {j : ℕ} {byte : UInt8}, code[j]? = some byte → code.getD j 0 = byte := fun hj ↦ by
    rw [List.getD_eq_getElem?_getD, hj, Option.getD_some]
  unfold PQDecoderGeneric.read at h
  obtain ⟨reg, hreg, h⟩ := Option.bind_eq_some_iff.mp h
  have hfirst : (if s.offset = 0 then (code.getD s.pos 0).toNat else s.reg) = reg := by
    split at hreg
    · next hzero =>
        obtain ⟨byte, hbyte, rfl⟩ := Option.map_eq_some_iff.mp hreg
        rw [if_pos hzero, hget hbyte]
    · next hne => rw [if_neg hne, Option.some.inj hreg]
  unfold PQDecoderGeneric.decode
  dsimp only at h ⊢
  rw [hfirst]
  split at h
  · next hfull =>
      obtain ⟨c, hloop, h⟩ := Option.bind_eq_some_iff.mp h
      have hmiddle : ∀ (ks : List ℕ) (c₀ : ℕ), ks.foldlM (fun c k ↦ code[s.pos + 1 + k]?.map fun byte ↦
          c ||| byte.toNat <<< (8 - s.offset + 8 * k)) c₀ = some c →
          ks.foldl (fun c k ↦ c ||| (code.getD (s.pos + 1 + k) 0).toNat <<< (8 - s.offset + 8 * k)) c₀ = c := by
        intro ks
        induction ks with
        | nil => exact fun c₀ hc ↦ Option.some.inj hc
        | cons k ks ih =>
            intro c₀ hc
            rw [List.foldlM_cons] at hc
            obtain ⟨c₁, hk, hc⟩ := Option.bind_eq_some_iff.mp hc
            obtain ⟨byte, hbyte, rfl⟩ := Option.map_eq_some_iff.mp hk
            rw [List.foldl_cons, hget hbyte, ih _ hc]
      rw [if_pos hfull, hmiddle _ _ hloop]
      split at h
      · next hrest =>
          obtain ⟨byte, hbyte, rfl⟩ := Option.map_eq_some_iff.mp h
          rw [if_pos hrest, hget hbyte]
      · next hends =>
          rw [if_neg hends]
          exact Option.some.inj h
  · next hwithin =>
      rw [if_neg hwithin]
      exact Option.some.inj h

/-- All numbers are read whose bits come next. -/
theorem Before.readAll (h : s.Before code i) (hpos : 0 < nbits) (hxs : ∀ x ∈ xs, x < 2 ^ nbits)
    (hroom : i + nbits * xs.length ≤ 8 * code.length)
    (hbits : ∀ q < nbits * xs.length, bitAt code (i + q) = (xs.flatMap (toBits nbits)).getD q false) :
    readAll nbits code xs.length s = some xs := by
  induction xs generalizing s i with
  | nil => rfl
  | cons x xs ih =>
      rw [List.length_cons, Nat.mul_succ] at hroom hbits
      rw [List.flatMap_cons] at hbits
      obtain ⟨y, s', hread, hy, hs'⟩ := h.read hpos (by omega)
      obtain rfl : y = x := by
        refine hy.eq (hxs x List.mem_cons_self) fun q hq ↦ ?_
        rw [hbits q (by omega), List.getD_append _ _ _ _ (by rwa [length_toBits]),
          List.getD_eq_getElem _ _ (by rwa [length_toBits]), getElem_toBits]
      have hrest : PQDecoderGeneric.readAll nbits code xs.length s' = some xs := by
        refine ih hs' (fun z hz ↦ hxs z (List.mem_cons_of_mem y hz)) (by omega) fun q hq ↦ ?_
        rw [Nat.add_assoc, hbits (nbits + q) (by omega), List.getD_append_right, length_toBits,
          Nat.add_sub_cancel_left]
        rw [length_toBits]
        exact Nat.le_add_right _ _
      rw [List.length_cons, PQDecoderGeneric.readAll, hread, Option.bind_some, hrest]
      rfl

end PQDecoderGeneric

/-! ## Bit strings of several numbers -/

def bitsOf (entries : List (ℕ × ℕ)) : List Bool :=
  entries.flatMap fun e ↦ toBits e.2 e.1

theorem length_bitsOf (entries : List (ℕ × ℕ)) : (bitsOf entries).length = (entries.map Prod.snd).sum := by
  rw [bitsOf, List.length_flatMap]
  simp only [length_toBits]

/-- Each number fits in its width, which is that of a write. -/
def FitsAll (entries : List (ℕ × ℕ)) : Prop :=
  ∀ e ∈ entries, 1 ≤ e.2 ∧ e.2 ≤ 64 ∧ e.1 < 2 ^ e.2

variable {entries : List (ℕ × ℕ)} {codeSize : ℕ}

theorem writeAll_wrote (h : FitsAll entries) (hroom : (entries.map Prod.snd).sum ≤ 8 * codeSize) :
    ∃ wr, (BitstringWriter.new codeSize).writeAll entries = some wr ∧ wr.Wrote (bitsOf entries) ∧
      wr.code.length = codeSize := by
  have hwrites : ∀ e ∈ entries, BitstringWriter.Writes (·.write e.1 e.2) (toBits e.2 e.1) 0 := fun e he ↦
    BitstringWriter.writes_write (h e he).2.2 (h e he).2.1 (Nat.lt_of_lt_of_le Nat.zero_lt_one (h e he).1)
  have hlen : (BitstringWriter.new codeSize).code.length = codeSize := List.length_replicate
  obtain ⟨wr, hwr, hbits, hsame⟩ := BitstringWriter.writes_foldlM hwrites _ [] (BitstringWriter.wrote_new codeSize) (by
    rw [hlen, ← bitsOf, length_bitsOf]
    simpa only [List.length_nil, Nat.zero_add, Nat.add_zero] using hroom)
  exact ⟨wr, hwr, hbits, hsame.trans hlen⟩

theorem BitstringReader.Sees.readAll {rd : BitstringReader} (hrd : rd.Sees (bitsOf entries))
    (h : FitsAll entries) : BitstringReader.readAll (entries.map Prod.snd) rd = some (entries.map Prod.fst) := by
  induction entries generalizing rd with
  | nil => rfl
  | cons e entries ih =>
      obtain ⟨hpos, hle, hlt⟩ := h e List.mem_cons_self
      rw [bitsOf, List.flatMap_cons, ← bitsOf] at hrd
      obtain ⟨rd', hread, hrd', -⟩ := hrd.read hlt hle (by omega)
      rw [List.map_cons, BitstringReader.readAll, hread, Option.bind_some,
        ih hrd' fun e' he' ↦ h e' (List.mem_cons_of_mem e he')]
      rfl

theorem readAll_writeAll (h : FitsAll entries) (hroom : (entries.map Prod.snd).sum ≤ 8 * codeSize) :
    ∃ wr, (BitstringWriter.new codeSize).writeAll entries = some wr ∧
      BitstringReader.readAll (entries.map Prod.snd) ⟨wr.code, 0⟩ = some (entries.map Prod.fst) := by
  obtain ⟨wr, hwr, hwrote, hlen⟩ := writeAll_wrote h hroom
  refine ⟨wr, hwr, BitstringReader.Sees.readAll (BitstringReader.sees_of_wrote hwrote ?_) h⟩
  rwa [length_bitsOf, hlen]

/-! ## One format -/

theorem bitsOf_map (nbits : ℕ) (xs : List ℕ) : bitsOf (xs.map (·, nbits)) = xs.flatMap (toBits nbits) := by
  rw [bitsOf, List.flatMap_map]

/-- The bytes of a `PQEncoderGeneric`: as many as the bits take, and they have these bits. -/
theorem finish_encoded (hxs : ∀ x ∈ xs, x < 2 ^ nbits) :
    (xs.foldl (PQEncoderGeneric.encode nbits) {}).finish.length = (xs.length * nbits + 7) / 8 ∧
      ∀ p, bitAt (xs.foldl (PQEncoderGeneric.encode nbits) {}).finish p =
        (xs.flatMap (toBits nbits)).getD p false := by
  obtain ⟨hlen, hbits⟩ := (PQEncoderGeneric.encoded_start.foldl hxs).finish
  rw [List.nil_append] at hlen hbits
  rw [length_flatMap_toBits] at hlen
  exact ⟨hlen, hbits⟩

/-- They are what a `PQDecoderGeneric` needs, whatever comes after them. -/
theorem readAll_finish (hpos : 0 < nbits) (hxs : ∀ x ∈ xs, x < 2 ^ nbits) (after : List UInt8) :
    PQDecoderGeneric.readAll nbits ((xs.foldl (PQEncoderGeneric.encode nbits) {}).finish ++ after) xs.length {} =
      some xs := by
  obtain ⟨hlen, hbits⟩ := finish_encoded hxs
  have hsize := Nat.mul_comm xs.length nbits
  refine (PQDecoderGeneric.before_start _).readAll hpos hxs ?_ fun q hq ↦ ?_
  · rw [List.length_append]
    omega
  · rw [Nat.zero_add, bitAt_append, if_pos (by omega), hbits]

/-- They are what a `BitstringWriter` writes. -/
theorem writeAll_finish (hpos : 0 < nbits) (hle : nbits ≤ 64) (hxs : ∀ x ∈ xs, x < 2 ^ nbits) :
    (BitstringWriter.new ((xs.length * nbits + 7) / 8)).writeAll (xs.map (·, nbits)) =
      some ⟨(xs.foldl (PQEncoderGeneric.encode nbits) {}).finish, xs.length * nbits⟩ := by
  obtain ⟨hlen, hbits⟩ := finish_encoded hxs
  have hfits : FitsAll (xs.map (·, nbits)) := by
    intro e he
    obtain ⟨x, hx, rfl⟩ := List.mem_map.mp he
    exact ⟨hpos, hle, hxs x hx⟩
  have hsum : ((xs.map (·, nbits)).map Prod.snd).sum = xs.length * nbits := by
    rw [← length_bitsOf, bitsOf_map, length_flatMap_toBits]
  have hroom : ((xs.map (·, nbits)).map Prod.snd).sum ≤ 8 * ((xs.length * nbits + 7) / 8) := by
    omega
  obtain ⟨wr, hwr, ⟨hi, hwrote⟩, hsize⟩ := writeAll_wrote hfits hroom
  have hcode : wr.code = (xs.foldl (PQEncoderGeneric.encode nbits) {}).finish :=
    eq_of_bitAt (hsize.trans hlen.symm) fun p _ ↦ by rw [hwrote, hbits, bitsOf_map]
  rw [length_bitsOf, hsum] at hi
  rw [hwr, ← hcode, ← hi]

/-- What `PQEncoderGeneric` writes takes as many bytes as the bits need, other bytes stay, `PQDecoderGeneric` gets
the numbers back from these bytes alone, and they are the bytes of a `BitstringWriter`.  A `BitstringReader` gets
numbers of any widths back. -/
theorem pqStreams_roundTrip :
    (∀ nbits, 1 ≤ nbits → nbits ≤ 63 → ∀ xs : List ℕ, (∀ x ∈ xs, x < 2 ^ nbits) → ∀ code : List UInt8,
      (xs.length * nbits + 7) / 8 ≤ code.length →
      ∃ bytes, bytes.length = (xs.length * nbits + 7) / 8 ∧
        PQEncoderGeneric.encodeAll nbits xs code = some (bytes ++ code.drop bytes.length) ∧
        (∀ after, PQDecoderGeneric.readAll nbits (bytes ++ after) xs.length {} = some xs) ∧
        (BitstringWriter.new bytes.length).writeAll (xs.map (·, nbits)) = some ⟨bytes, xs.length * nbits⟩) ∧
    (∀ entries : List (ℕ × ℕ), FitsAll entries → ∀ codeSize, (entries.map Prod.snd).sum ≤ 8 * codeSize →
      ∃ wr, (BitstringWriter.new codeSize).writeAll entries = some wr ∧
        BitstringReader.readAll (entries.map Prod.snd) ⟨wr.code, 0⟩ = some (entries.map Prod.fst)) := by
  refine ⟨fun nbits hpos hle xs hxs code hroom ↦ ?_, fun entries h codeSize ↦ readAll_writeAll h⟩
  obtain ⟨hlen, -⟩ := finish_encoded hxs
  refine ⟨_, hlen, ?_, readAll_finish hpos hxs, ?_⟩
  · unfold PQEncoderGeneric.encodeAll
    exact if_pos (hlen.trans_le hroom)
  · rw [hlen]
    exact writeAll_finish hpos (by omega) hxs

/-- Four numbers of three bits in a buffer of three bytes, and numbers of one and of ten bits. -/
theorem pqStreams_roundTrip_four :
    (∃ bytes, bytes.length = 2 ∧
      PQEncoderGeneric.encodeAll 3 [5, 2, 7, 4] [1, 1, 1] = some (bytes ++ [1]) ∧
      PQDecoderGeneric.readAll 3 (bytes ++ []) 4 {} = some [5, 2, 7, 4]) ∧
    ∃ wr, (BitstringWriter.new 2).writeAll [(1, 1), (700, 10)] = some wr ∧
      BitstringReader.readAll [1, 10] ⟨wr.code, 0⟩ = some [1, 700] := by
  constructor
  · obtain ⟨bytes, hlen, hencode, hread, -⟩ :=
      pqStreams_roundTrip.1 3 (by decide) (by decide) [5, 2, 7, 4] (by decide) [1, 1, 1] (by decide)
    refine ⟨bytes, hlen, ?_, hread []⟩
    rw [hencode, hlen]
    rfl
  · exact pqStreams_roundTrip.2 [(1, 1), (700, 10)] (by unfold FitsAll; decide) 2 (by decide)

end FaissNavix
