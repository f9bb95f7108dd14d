import FaissNavix.Lib.Segments
import FaissNavix.Readers

/-!
# Buffered readers and writers

`BufferedIOReader` and `BufferedIOWriter` of `faiss/impl/io.cpp`.  They stand before another reader or
writer, which gives and takes any part of what it is asked for, at least one byte.

What arrives is what was sent, and the assertions hold, except for the one in the loop that empties a full
buffer: the writer must not stop behind the first 10000000 bytes of a buffer that is larger than that
(`bufferedIO_transparent_iff`).
-/

namespace FaissNavix

open Lib (overwrite length_overwrite take_overwrite_end)
open Relation (ReflTransGen)

/-! ## The code

A call gives nothing if an assertion fails in it, if it throws, or if it does not end. -/

/-- The number of bytes that the underlying writer accepts, after those that it has got before, of those
that it is offered.  It gets some in each call, so that no two calls are made after the same bytes. -/
abbrev Accept := List UInt8 → List UInt8 → ℕ

def Accept.Positive (accept : Accept) : Prop :=
  ∀ before offered, offered ≠ [] →
    0 < accept before offered ∧ accept before offered ≤ offered.length

/-- A `BufferedIOWriter`, with the bytes that the underlying writer has got. -/
structure BufferedIOWriter where
  received : List UInt8
  ofs2 : ℕ
  b0 : ℕ
  buffer : List UInt8

def BufferedIOWriter.new (bsz : ℕ) : BufferedIOWriter := ⟨[], 0, 0, List.replicate bsz 0⟩

/-- The loop that empties a full buffer. -/
def flushLoop (accept : Accept) (bsz : ℕ) (buffer : List UInt8) : ℕ → ℕ → List UInt8 → Option (List UInt8)
  | 0, _, _ => none
  | fuel + 1, ofs2, received =>
    -- assert(ofs_2 < 10000000)
    if ofs2 < 10000000 then
      let offered := (buffer.drop ofs2).take (bsz - ofs2)
      let written := accept received offered
      if 0 < written then
        if ofs2 + written ≠ bsz then
          flushLoop accept bsz buffer fuel (ofs2 + written) (received ++ offered.take written)
        else some (received ++ offered.take written)
      else none
    else none

/-- The loop over the bytes that do not fit into the buffer; `nb` bytes have been copied. -/
def writeLoop (accept : Accept) (bsz : ℕ) :
    ℕ → List UInt8 → ℕ → BufferedIOWriter → Option (ℕ × BufferedIOWriter)
  | 0, _, _, _ => none
  | fuel + 1, src, nb, w =>
    if 0 < src.length then
      -- assert(b0 == bsz)
      if w.b0 = bsz then do
        let received ← flushLoop accept bsz w.buffer (bsz + 1) 0 w.received
        let nb1 := min bsz src.length
        writeLoop accept bsz fuel (src.drop nb1) (nb + nb1)
          { w with received, b0 := nb1, buffer := overwrite w.buffer 0 (src.take nb1) }
      else none
    else some (nb, w)

/-- A call of a writer, with the bytes at `ptr`. -/
structure WriteCall where
  unitsize : ℕ
  nitems : ℕ
  ptr : List UInt8
  unitsize_pos : 0 < unitsize
  length_ptr : ptr.length = unitsize * nitems
  length_lt : ptr.length < 2 ^ 64

/-- `operator()` of a `BufferedIOWriter`. -/
def BufferedIOWriter.write (accept : Accept) (bsz : ℕ) (w : BufferedIOWriter) (call : WriteCall) :
    Option (ℕ × BufferedIOWriter) :=
  let size := sizeT (call.unitsize * call.nitems)
  if size = 0 then some (0, w)
  else do
    let nb := min (bsz - w.b0) size
    let (nb, w) ← writeLoop accept bsz (size + 1) (call.ptr.drop nb) nb
      { w with b0 := w.b0 + nb, buffer := overwrite w.buffer w.b0 (call.ptr.take nb) }
    return (nb / call.unitsize, { w with ofs2 := w.ofs2 + nb })

/-- The loop of the destructor. -/
def destroyLoop (accept : Accept) (w : BufferedIOWriter) : ℕ → ℕ → List UInt8 → Option (List UInt8)
  | 0, _, _ => none
  | fuel + 1, ofs2, received =>
    if ofs2 ≠ w.b0 then
      let offered := (w.buffer.drop ofs2).take (w.b0 - ofs2)
      let written := accept received offered
      if 0 < written then destroyLoop accept w fuel (ofs2 + written) (received ++ offered.take written)
      else none
    else some received

/-- Some calls, one after the other. -/
def writeAll (accept : Accept) (bsz : ℕ) :
    List WriteCall → BufferedIOWriter → Option (List ℕ × BufferedIOWriter)
  | [], w => some ([], w)
  | call :: calls, w => do
    let (n, w) ← w.write accept bsz call
    let (ns, w) ← writeAll accept bsz calls w
    return (n :: ns, w)

/-- A writer is made, called and destroyed: what the calls return, and what the underlying writer has
got. -/
def writeThrough (accept : Accept) (bsz : ℕ) (calls : List WriteCall) : Option (List ℕ × List UInt8) := do
  let (ns, w) ← writeAll accept bsz calls (.new bsz)
  let received ← destroyLoop accept w (w.b0 + 1) 0 w.received
  return (ns, received)

/-- The number of bytes that the underlying reader gives, behind those that it has given, if it is asked
for some number of bytes. -/
abbrev Give := ℕ → ℕ → ℕ

/-- Some bytes are given, while there are any. -/
structure Give.Positive (give : Give) (data : List UInt8) : Prop where
  le_asked : ∀ pos n, give pos n ≤ n
  le_left : ∀ pos n, give pos n ≤ data.length - pos
  pos : ∀ pos n, 0 < n → pos < data.length → 0 < give pos n

/-- A `BufferedIOReader`, with the number of bytes that the underlying reader has given. -/
structure BufferedIOReader where
  given : ℕ
  ofs : ℕ
  ofs2 : ℕ
  b0 : ℕ
  b1 : ℕ
  buffer : List UInt8

def BufferedIOReader.new (bsz : ℕ) : BufferedIOReader := ⟨0, 0, 0, 0, 0, List.replicate bsz 0⟩

/-- The loop that reads while more data is wanted; `dst` has been copied. -/
def readLoop (give : Give) (data : List UInt8) (bsz : ℕ) :
    ℕ → ℕ → List UInt8 → BufferedIOReader → Option (List UInt8 × BufferedIOReader)
  | 0, _, _, _ => none
  | fuel + 1, size, dst, r =>
    if 0 < size then
      -- assert(b0 == b1)
      if r.b0 = r.b1 then
        let b1 := give r.given bsz
        let buffer := overwrite r.buffer 0 ((data.drop r.given).take b1)
        if b1 = 0 then some (dst, { r with b0 := 0, b1, buffer })
        else
          let nb2 := min b1 size
          readLoop give data bsz fuel (size - nb2) (dst ++ buffer.take nb2)
            { r with given := r.given + b1, ofs := r.ofs + b1, b0 := nb2, b1, buffer }
      else none
    else some (dst, r)

/-- A call of a reader. -/
structure ReadCall where
  unitsize : ℕ
  nitems : ℕ
  unitsize_pos : 0 < unitsize
  bytes_lt : unitsize * nitems < 2 ^ 64

/-- `operator()` of a `BufferedIOReader`: the number of items, and the bytes at `ptr`. -/
def BufferedIOReader.read (give : Give) (data : List UInt8) (bsz : ℕ) (r : BufferedIOReader)
    (call : ReadCall) : Option ((ℕ × List UInt8) × BufferedIOReader) :=
  let size := sizeT (call.unitsize * call.nitems)
  if size = 0 then some ((0, []), r)
  else do
    let nb := min (r.b1 - r.b0) size
    let (dst, r) ← readLoop give data bsz (size + 1) (size - nb) ((r.buffer.drop r.b0).take nb)
      { r with b0 := r.b0 + nb }
    return ((dst.length / call.unitsize, dst), { r with ofs2 := r.ofs2 + dst.length })

/-- Some calls, one after the other. -/
def readAll (give : Give) (data : List UInt8) (bsz : ℕ) :
    List ReadCall → BufferedIOReader → Option (List (ℕ × List UInt8))
  | [], _ => some []
  | call :: calls, r => do
    let (x, r) ← r.read give data bsz call
    let xs ← readAll give data bsz calls r
    return x :: xs

def readThrough (give : Give) (data : List UInt8) (bsz : ℕ) (calls : List ReadCall) :
    Option (List (ℕ × List UInt8)) :=
  readAll give data bsz calls (.new bsz)

/-! ## Without a buffer -/

/-- What the calls should deliver: the bytes in order, with the number of whole items among them. -/
def readDirectly : List UInt8 → List ReadCall → List (ℕ × List UInt8)
  | _, [] => []
  | left, call :: calls =>
    let bytes := left.take (call.unitsize * call.nitems)
    (bytes.length / call.unitsize, bytes) :: readDirectly (left.drop (call.unitsize * call.nitems)) calls

def allBytes (calls : List WriteCall) : List UInt8 := calls.flatMap WriteCall.ptr

/-- While a block is handed over, the underlying writer stops at an offset and then at the next one. -/
def StopsNext (accept : Accept) (before block : List UInt8) (o o' : ℕ) : Prop :=
  o < block.length ∧ o' = o + accept (before ++ block.take o) (block.drop o)

/-- Before it has accepted the whole block, the underlying writer stops at no offset behind the first
10000000 bytes. -/
def StopsEarly (accept : Accept) (before block : List UInt8) : Prop :=
  ∀ o < block.length, ReflTransGen (StopsNext accept before block) 0 o → o < 10000000

def blockOf (bsz : ℕ) (bytes : List UInt8) (j : ℕ) : List UInt8 := (bytes.drop (bsz * j)).take bsz

def fullBuffers (bsz n : ℕ) : ℕ := (n - 1) / bsz

/-! ## Calls that return under a condition -/

/-- A call returns if and only if a condition holds, and then what it returns satisfies `P`. -/
def ReturnsIff {α : Type} (r : Option α) (safe : Prop) (P : α → Prop) : Prop :=
  (safe → ∃ x, r = some x ∧ P x) ∧ (¬ safe → r = none)

namespace ReturnsIff

variable {α β : Type} {r : Option α} {f : α → Option β} {safe safe' : Prop} {P : α → Prop} {Q : β → Prop}

theorem of_some {x : α} (h : P x) : ReturnsIff (some x) True P :=
  ⟨fun _ ↦ ⟨x, rfl, h⟩, fun h ↦ absurd trivial h⟩

theorem congr (h : ReturnsIff r safe P) (hsafe : safe' ↔ safe) : ReturnsIff r safe' P :=
  ⟨fun hs ↦ h.1 (hsafe.mp hs), fun hs ↦ h.2 (mt hsafe.mpr hs)⟩

theorem mono {P' : α → Prop} (h : ReturnsIff r safe P) (hP : ∀ x, P x → P' x) :
    ReturnsIff r safe P' := by
  refine ⟨fun hs ↦ ?_, h.2⟩
  obtain ⟨x, hr, hx⟩ := h.1 hs
  exact ⟨x, hr, hP x hx⟩

theorem bind (h : ReturnsIff r safe P) (hf : ∀ x, P x → ReturnsIff (f x) safe' Q) :
    ReturnsIff (r.bind f) (safe ∧ safe') Q := by
  by_cases hs : safe
  · obtain ⟨x, rfl, hx⟩ := h.1 hs
    exact (hf x hx).congr (and_iff_right hs)
  · rw [h.2 hs]
    exact ⟨fun hs' ↦ absurd hs'.1 hs, fun _ ↦ rfl⟩

end ReturnsIff

/-! ## Handing over a block -/

variable {accept : Accept} {bsz : ℕ}

theorem take_append_take_drop (block : List UInt8) (o n : ℕ) :
    block.take o ++ (block.drop o).take n = block.take (o + n) := by
  rw [List.take_add]

theorem positive_min {m : ℕ} (hm : 0 < m) : Accept.Positive fun _ offered ↦ min m offered.length :=
  fun _ _ hne ↦ ⟨lt_min hm (List.length_pos_of_ne_nil hne), min_le_right _ _⟩

theorem Accept.Positive.step (ha : accept.Positive) (before : List UInt8) {block : List UInt8} {o : ℕ}
    (ho : o < block.length) :
    0 < accept (before ++ block.take o) (block.drop o) ∧
      o + accept (before ++ block.take o) (block.drop o) ≤ block.length := by
  have hlen : (block.drop o).length = block.length - o := List.length_drop
  obtain ⟨hpos, hle⟩ := ha (before ++ block.take o) (block.drop o)
    (List.ne_nil_of_length_pos (by omega))
  exact ⟨hpos, by omega⟩

theorem stops_iff {before block : List UInt8} {o o' : ℕ} (ho : o < block.length) :
    ReflTransGen (StopsNext accept before block) o o' ↔
      o' = o ∨ ReflTransGen (StopsNext accept before block)
        (o + accept (before ++ block.take o) (block.drop o)) o' := by
  rw [ReflTransGen.cases_head_iff, eq_comm]
  refine or_congr_right ⟨?_, fun h ↦ ⟨_, ⟨ho, rfl⟩, h⟩⟩
  rintro ⟨o'', ⟨-, rfl⟩, h⟩
  exact h

/-- The loop that empties a full buffer hands it over, if there are no stops where the assertion
fails. -/
theorem flushLoop_returnsIff (ha : accept.Positive) (before block : List UInt8) (fuel o : ℕ)
    (ho : o < block.length) (hfuel : block.length < fuel + o) :
    ReturnsIff (flushLoop accept block.length block fuel o (before ++ block.take o))
      (∀ o' < block.length, ReflTransGen (StopsNext accept before block) o o' → o' < 10000000)
      fun received ↦ received = before ++ block := by
  induction fuel generalizing o with
  | zero => omega
  | succ fuel ih =>
      obtain ⟨hpos, hle⟩ := ha.step before ho
      have hoffered : (block.drop o).take (block.length - o) = block.drop o :=
        List.take_of_length_le List.length_drop.le
      rw [flushLoop]
      simp only [hoffered, if_pos hpos]
      by_cases hassert : o < 10000000
      · rw [if_pos hassert]
        have hnext : before ++ block.take o ++
            (block.drop o).take (accept (before ++ block.take o) (block.drop o)) =
              before ++ block.take (o + accept (before ++ block.take o) (block.drop o)) := by
          rw [List.append_assoc, take_append_take_drop]
        rw [hnext]
        by_cases hend : o + accept (before ++ block.take o) (block.drop o) = block.length
        · rw [if_neg (not_not.mpr hend), hend, List.take_length]
          have hsafe : ∀ o' < block.length,
              ReflTransGen (StopsNext accept before block) o o' → o' < 10000000 := by
            intro o' ho' hstop
            rcases (stops_iff ho).mp hstop with rfl | hstop
            · exact hassert
            · rcases ReflTransGen.cases_head hstop with rfl | ⟨o'', ⟨hlt, -⟩, -⟩
              · omega
              · omega
          exact ⟨fun _ ↦ ⟨_, rfl, rfl⟩, fun h ↦ absurd hsafe h⟩
        · rw [if_pos hend]
          refine (ih _ (by omega) (by omega)).congr (forall_congr' fun o' ↦ forall_congr' fun ho' ↦ ?_)
          rw [stops_iff ho, or_imp, and_iff_right]
          rintro rfl
          exact hassert
      · rw [if_neg hassert]
        exact ⟨fun hsafe ↦ absurd (hsafe o ho .refl) hassert, fun _ ↦ rfl⟩

/-- The loop of the destructor hands over what is in the buffer. -/
theorem destroyLoop_eq (ha : accept.Positive) (w : BufferedIOWriter) (hb0 : w.b0 ≤ w.buffer.length)
    (fuel o : ℕ) (ho : o ≤ w.b0) (hfuel : w.b0 < fuel + o) :
    destroyLoop accept w fuel o (w.received ++ (w.buffer.take w.b0).take o) =
      some (w.received ++ w.buffer.take w.b0) := by
  have hlen : (w.buffer.take w.b0).length = w.b0 := by
    rw [List.length_take]
    omega
  induction fuel generalizing o with
  | zero => omega
  | succ fuel ih =>
      rw [destroyLoop]
      by_cases hend : o = w.b0
      · rw [if_neg (not_not.mpr hend), hend, List.take_of_length_le hlen.le]
      · have ho' : o < (w.buffer.take w.b0).length := by omega
        obtain ⟨hpos, hle⟩ := ha.step w.received ho'
        have hoffered : (w.buffer.drop o).take (w.b0 - o) = (w.buffer.take w.b0).drop o := by
          rw [List.drop_take]
        simp only [if_pos hend, hoffered, if_pos hpos]
        rw [List.append_assoc, take_append_take_drop]
        exact ih _ (by omega) (by omega)

/-! ## The writer -/

/-- The full buffers that are handed over from the first `D.length` bytes on are handed over without a
failure. -/
def SafeFrom (accept : Accept) (bsz : ℕ) (D D' : List UInt8) : Prop :=
  ∀ j, fullBuffers bsz D.length ≤ j → j < fullBuffers bsz D'.length →
    StopsEarly accept (D'.take (bsz * j)) (blockOf bsz D' j)

/-- What holds after the bytes `D`. -/
structure BufferedIOWriter.Inv (bsz : ℕ) (D : List UInt8) (w : BufferedIOWriter) : Prop where
  b0_le : w.b0 ≤ bsz
  length_buffer : w.buffer.length = bsz
  bytes : w.received ++ w.buffer.take w.b0 = D
  flushed : w.received.length = bsz * fullBuffers bsz D.length

theorem fullBuffers_eq {m b : ℕ} (hb : 0 < b) (hle : b ≤ bsz) : fullBuffers bsz (bsz * m + b) = m := by
  rw [fullBuffers, show bsz * m + b - 1 = bsz * m + (b - 1) by omega,
    Nat.mul_add_div (by omega), Nat.div_eq_of_lt (by omega), Nat.add_zero]

theorem fullBuffers_mono {n n' : ℕ} (h : n ≤ n') : fullBuffers bsz n ≤ fullBuffers bsz n' :=
  Nat.div_le_div_right (by omega)

theorem mul_succ_le_of_lt_fullBuffers {n j : ℕ} (h : j < fullBuffers bsz n) : bsz * j + bsz ≤ n := by
  have hle := (Nat.mul_le_mul_left bsz (Nat.succ_le_of_lt h)).trans (Nat.mul_div_le (n - 1) bsz)
  rw [Nat.mul_succ] at hle
  omega

theorem safeFrom_of_eq {D D' : List UInt8}
    (h : fullBuffers bsz D'.length = fullBuffers bsz D.length) : SafeFrom accept bsz D D' :=
  fun _ hle hlt ↦ by omega

/-- The full buffers up to a place, and those behind it. -/
theorem safeFrom_append (D x y : List UInt8) :
    SafeFrom accept bsz D (D ++ x ++ y) ↔
      SafeFrom accept bsz D (D ++ x) ∧ SafeFrom accept bsz (D ++ x) (D ++ x ++ y) := by
  have hmono : fullBuffers bsz D.length ≤ fullBuffers bsz (D ++ x).length :=
    fullBuffers_mono (List.sublist_append_left D x).length_le
  have hmono' : fullBuffers bsz (D ++ x).length ≤ fullBuffers bsz (D ++ x ++ y).length :=
    fullBuffers_mono (List.sublist_append_left (D ++ x) y).length_le
  have hblock : ∀ j < fullBuffers bsz (D ++ x).length,
      (D ++ x ++ y).take (bsz * j) = (D ++ x).take (bsz * j) ∧
        blockOf bsz (D ++ x ++ y) j = blockOf bsz (D ++ x) j := by
    intro j hj
    have hle := mul_succ_le_of_lt_fullBuffers hj
    refine ⟨List.take_append_of_le_length (by omega), ?_⟩
    rw [blockOf, List.drop_append_of_le_length (by omega),
      List.take_append_of_le_length (by rw [List.length_drop]; omega), blockOf]
  constructor
  · intro h
    refine ⟨fun j hle hlt ↦ ?_, fun j hle hlt ↦ h j (hmono.trans hle) hlt⟩
    rw [← (hblock j hlt).1, ← (hblock j hlt).2]
    exact h j hle (hlt.trans_le hmono')
  · rintro ⟨hx, hy⟩ j hle hlt
    rcases Nat.lt_or_ge j (fullBuffers bsz (D ++ x).length) with hj | hj
    · rw [(hblock j hj).1, (hblock j hj).2]
      exact hx j hle hj
    · exact hy j hj hlt

theorem BufferedIOWriter.Inv.init (bsz : ℕ) : (BufferedIOWriter.new bsz).Inv bsz [] where
  b0_le := Nat.zero_le bsz
  length_buffer := List.length_replicate
  bytes := rfl
  flushed := by
    rw [fullBuffers, List.length_nil, Nat.zero_sub, Nat.zero_div, Nat.mul_zero]
    rfl

section Writer

variable {D src : List UInt8} {w : BufferedIOWriter} {nb : ℕ}

theorem BufferedIOWriter.Inv.length_eq (h : w.Inv bsz D) :
    D.length = bsz * fullBuffers bsz D.length + w.b0 := by
  have hlen := congrArg List.length h.bytes
  rw [List.length_append, List.length_take, h.length_buffer, min_eq_left h.b0_le, h.flushed] at hlen
  exact hlen.symm

theorem BufferedIOWriter.Inv.copy (src : List UInt8) (h : w.Inv bsz D) (hroom : w.b0 + src.length ≤ bsz) :
    BufferedIOWriter.Inv bsz (D ++ src)
        { w with b0 := w.b0 + src.length, buffer := overwrite w.buffer w.b0 src } ∧
      fullBuffers bsz (D ++ src).length = fullBuffers bsz D.length := by
  have hfull : fullBuffers bsz (D ++ src).length = fullBuffers bsz D.length := by
    rcases Nat.eq_zero_or_pos src.length with hsrc | hsrc
    · rw [List.length_append, hsrc, Nat.add_zero]
    have hcount := fullBuffers_eq (m := fullBuffers bsz D.length) (by omega) hroom
    rwa [← Nat.add_assoc, ← h.length_eq, ← List.length_append] at hcount
  refine ⟨⟨hroom, ?_, ?_, ?_⟩, hfull⟩
  · change (overwrite w.buffer w.b0 src).length = bsz
    rw [length_overwrite, h.length_buffer]
  · change w.received ++ (overwrite w.buffer w.b0 src).take (w.b0 + src.length) = D ++ src
    rw [take_overwrite_end (by rw [h.length_buffer]; exact hroom), ← List.append_assoc, h.bytes]
  · rw [hfull]
    exact h.flushed

/-- A full buffer is handed over, and more bytes take its place. -/
theorem BufferedIOWriter.Inv.refill (accept : Accept) (src : List UInt8) (h : w.Inv bsz D) (hb0 : w.b0 = bsz) (hroom : src.length ≤ bsz)
    (hsrc : src ≠ []) :
    BufferedIOWriter.Inv bsz (D ++ src) { w with
        received := w.received ++ w.buffer, b0 := src.length, buffer := overwrite w.buffer 0 src } ∧
      (SafeFrom accept bsz D (D ++ src) ↔ StopsEarly accept w.received w.buffer) := by
  have hpos := List.length_pos_of_ne_nil hsrc
  have hbytes : w.received ++ w.buffer = D := by
    rw [← h.bytes, hb0, List.take_of_length_le h.length_buffer.le]
  have hfull : fullBuffers bsz (D ++ src).length = fullBuffers bsz D.length + 1 := by
    have hcount := fullBuffers_eq (m := fullBuffers bsz D.length + 1) hpos hroom
    have hlen := h.length_eq
    rw [hb0] at hlen
    rwa [Nat.mul_succ, ← hlen, ← List.length_append] at hcount
  refine ⟨⟨hroom, ?_, ?_, ?_⟩, ?_⟩
  · change (overwrite w.buffer 0 src).length = bsz
    rw [length_overwrite, h.length_buffer]
  · have htake : (overwrite w.buffer 0 src).take (0 + src.length) = w.buffer.take 0 ++ src :=
      take_overwrite_end (by rw [h.length_buffer]; omega)
    rw [Nat.zero_add, List.take_zero, List.nil_append] at htake
    change w.received ++ w.buffer ++ (overwrite w.buffer 0 src).take src.length = D ++ src
    rw [htake, hbytes]
  · change (w.received ++ w.buffer).length = bsz * fullBuffers bsz (D ++ src).length
    rw [hfull, List.length_append, h.flushed, h.length_buffer, Nat.mul_succ]
  · have htake : (D ++ src).take (bsz * fullBuffers bsz D.length) = w.received := by
      rw [← h.flushed, ← hbytes, List.append_assoc, List.take_left]
    have hblock : blockOf bsz (D ++ src) (fullBuffers bsz D.length) = w.buffer := by
      rw [blockOf, ← h.flushed, ← hbytes, List.append_assoc, List.drop_left, ← h.length_buffer,
        List.take_left]
    constructor
    · intro hsafe
      have hself := hsafe (fullBuffers bsz D.length) le_rfl (by omega)
      rwa [htake, hblock] at hself
    · intro hsafe j hle hlt
      obtain rfl : j = fullBuffers bsz D.length := by omega
      rwa [htake, hblock]

variable (ha : accept.Positive) (hbsz : 0 < bsz)
include ha hbsz

theorem writeLoop_returnsIff (fuel : ℕ) (src : List UInt8)
    (nb : ℕ) (h : w.Inv bsz D) (hb0 : src ≠ [] → w.b0 = bsz) (hfuel : src.length < fuel) :
    ReturnsIff (writeLoop accept bsz fuel src nb w) (SafeFrom accept bsz D (D ++ src))
      fun r ↦ r.1 = nb + src.length ∧ r.2.Inv bsz (D ++ src) := by
  induction fuel generalizing D src w nb with
  | zero => omega
  | succ fuel ih =>
      rw [writeLoop]
      by_cases hsrc : src = []
      · subst hsrc
        rw [List.length_nil, if_neg (Nat.lt_irrefl 0), List.append_nil]
        exact (ReturnsIff.of_some ⟨rfl, h⟩).congr (iff_true_intro (safeFrom_of_eq rfl))
      · have hpos := List.length_pos_of_ne_nil hsrc
        rw [if_pos hpos, if_pos (hb0 hsrc)]
        have hx : (src.take (min bsz src.length)).length = min bsz src.length := by
          rw [List.length_take]
          omega
        have hxne : src.take (min bsz src.length) ≠ [] := List.ne_nil_of_length_pos (by omega)
        obtain ⟨hinv, hsafe⟩ := h.refill accept (src.take (min bsz src.length)) (hb0 hsrc)
          (by omega) hxne
        have hflush := flushLoop_returnsIff ha w.received w.buffer (bsz + 1) 0
          (by rw [h.length_buffer]; exact hbsz) (by rw [h.length_buffer]; omega)
        rw [List.take_zero, List.append_nil, h.length_buffer] at hflush
        have hsplit : D ++ src = D ++ src.take (min bsz src.length) ++ src.drop (min bsz src.length) := by
          rw [List.append_assoc, List.take_append_drop]
        rw [hsplit, safeFrom_append, hsafe]
        refine (hflush.congr ?_).bind ?_
        · rw [StopsEarly, h.length_buffer]
        rintro received rfl
        have hrest := ih (src.drop (min bsz src.length)) (nb + min bsz src.length) hinv
          (fun hne ↦ ?_) (by rw [List.length_drop]; omega)
        · rw [hx] at hrest
          refine hrest.mono fun r hr ↦ ⟨?_, hr.2⟩
          rw [hr.1, List.length_drop]
          omega
        · change (src.take (min bsz src.length)).length = bsz
          have := List.length_pos_of_ne_nil hne
          rw [List.length_drop] at this
          omega

/-- A call hands over the full buffers that its bytes come behind. -/
theorem BufferedIOWriter.write_returnsIff (h : w.Inv bsz D)
    (call : WriteCall) :
    ReturnsIff (w.write accept bsz call) (SafeFrom accept bsz D (D ++ call.ptr))
      fun r ↦ r.1 = call.nitems ∧ r.2.Inv bsz (D ++ call.ptr) := by
  have hsize : sizeT (call.unitsize * call.nitems) = call.ptr.length := by
    rw [← call.length_ptr, sizeT_of_lt call.length_lt]
  rw [BufferedIOWriter.write, hsize]
  by_cases hzero : call.ptr.length = 0
  · have hnitems : call.nitems = 0 := by
      have hmul := call.length_ptr.symm.trans hzero
      exact (Nat.mul_eq_zero.mp hmul).resolve_left call.unitsize_pos.ne'
    rw [List.eq_nil_of_length_eq_zero hzero, List.append_nil]
    exact (ReturnsIff.of_some ⟨hnitems.symm, h⟩).congr (iff_true_intro (safeFrom_of_eq rfl))
  · rw [if_neg hzero]
    have hb0 := h.b0_le
    have hx : (call.ptr.take (min (bsz - w.b0) call.ptr.length)).length =
        min (bsz - w.b0) call.ptr.length := by
      rw [List.length_take]
      omega
    obtain ⟨hinv, hfull⟩ := h.copy (call.ptr.take (min (bsz - w.b0) call.ptr.length)) (by omega)
    rw [hx] at hinv
    have hsplit : D ++ call.ptr = D ++ call.ptr.take (min (bsz - w.b0) call.ptr.length) ++
        call.ptr.drop (min (bsz - w.b0) call.ptr.length) := by
      rw [List.append_assoc, List.take_append_drop]
    have hloop := writeLoop_returnsIff ha hbsz (call.ptr.length + 1)
      (call.ptr.drop (min (bsz - w.b0) call.ptr.length)) (min (bsz - w.b0) call.ptr.length) hinv (fun hne ↦ ?_) (by rw [List.length_drop]; omega)
    · have hsafe : SafeFrom accept bsz D (D ++ call.ptr) ↔
          SafeFrom accept bsz (D ++ call.ptr.take (min (bsz - w.b0) call.ptr.length))
            (D ++ call.ptr.take (min (bsz - w.b0) call.ptr.length) ++
              call.ptr.drop (min (bsz - w.b0) call.ptr.length)) ∧ True := by
        rw [hsplit, safeFrom_append, and_true, and_iff_right (safeFrom_of_eq hfull)]
      refine (hloop.bind fun r hr ↦ ReturnsIff.of_some ⟨?_, ?_⟩).congr hsafe
      · rw [hr.1, List.length_drop, show min (bsz - w.b0) call.ptr.length +
          (call.ptr.length - min (bsz - w.b0) call.ptr.length) = call.unitsize * call.nitems by
            rw [← call.length_ptr]; omega]
        exact Nat.mul_div_cancel_left _ call.unitsize_pos
      · rw [hsplit]
        exact ⟨hr.2.b0_le, hr.2.length_buffer, hr.2.bytes, hr.2.flushed⟩
    · have := List.length_pos_of_ne_nil hne
      rw [List.length_drop] at this
      change w.b0 + min (bsz - w.b0) call.ptr.length = bsz
      omega

/-- Some calls hand over the full buffers that their bytes come behind. -/
theorem writeAll_returnsIff (h : w.Inv bsz D)
    (calls : List WriteCall) :
    ReturnsIff (writeAll accept bsz calls w) (SafeFrom accept bsz D (D ++ allBytes calls))
      fun r ↦ r.1 = calls.map WriteCall.nitems ∧ r.2.Inv bsz (D ++ allBytes calls) := by
  induction calls generalizing D w with
  | nil =>
      rw [writeAll, allBytes, List.flatMap_nil, List.append_nil]
      exact (ReturnsIff.of_some ⟨rfl, h⟩).congr (iff_true_intro (safeFrom_of_eq rfl))
  | cons call calls ih =>
      have hsplit : D ++ allBytes (call :: calls) = D ++ call.ptr ++ allBytes calls := by
        rw [allBytes, List.flatMap_cons, ← List.append_assoc, allBytes]
      rw [writeAll, hsplit, safeFrom_append]
      refine (w.write_returnsIff ha hbsz h call).bind fun r hr ↦ ?_
      refine ((ih hr.2).bind fun r' hr' ↦ ReturnsIff.of_some ⟨?_, hr'.2⟩).congr (iff_of_eq (and_true _)).symm
      rw [List.map_cons, hr.1, hr'.1]

theorem writeThrough_returnsIff (calls : List WriteCall) :
    ReturnsIff (writeThrough accept bsz calls) (SafeFrom accept bsz [] (allBytes calls))
      fun r ↦ r = (calls.map WriteCall.nitems, allBytes calls) := by
  have hall := writeAll_returnsIff ha hbsz (.init bsz) calls
  rw [List.nil_append] at hall
  refine (hall.bind ?_).congr (iff_of_eq (and_true _)).symm
  rintro ⟨ns, w⟩ ⟨rfl, hinv⟩
  have hdestroy := destroyLoop_eq ha w (by rw [hinv.length_buffer]; exact hinv.b0_le) (w.b0 + 1) 0
    (Nat.zero_le _) (by omega)
  rw [List.take_zero, List.append_nil, hinv.bytes] at hdestroy
  refine ⟨fun _ ↦ ⟨(calls.map WriteCall.nitems, allBytes calls), ?_, rfl⟩, fun h ↦ absurd trivial h⟩
  simp only [hdestroy]
  rfl

end Writer

/-! ## The reader -/

/-- What holds when the first `p` bytes have been delivered. -/
structure BufferedIOReader.Inv (bsz : ℕ) (data : List UInt8) (p : ℕ) (r : BufferedIOReader) : Prop where
  b0_le : r.b0 ≤ r.b1
  b1_le : r.b1 ≤ bsz
  length_buffer : r.buffer.length = bsz
  bytes : (r.buffer.drop r.b0).take (r.b1 - r.b0) ++ data.drop r.given = data.drop p

theorem BufferedIOReader.Inv.init (bsz : ℕ) (data : List UInt8) :
    (BufferedIOReader.new bsz).Inv bsz data 0 where
  b0_le := le_rfl
  b1_le := Nat.zero_le bsz
  length_buffer := List.length_replicate
  bytes := rfl

section Reader

variable {give : Give} {data : List UInt8} {p size : ℕ} {dst : List UInt8} {r : BufferedIOReader}

theorem BufferedIOReader.Inv.drop_given (h : r.Inv bsz data p) (hempty : r.b0 = r.b1) :
    data.drop r.given = data.drop p := by
  have hbytes := h.bytes
  rwa [hempty, Nat.sub_self, List.take_zero, List.nil_append] at hbytes

theorem BufferedIOReader.Inv.take_buffer (h : r.Inv bsz data p) (size : ℕ) :
    (r.buffer.drop r.b0).take (min (r.b1 - r.b0) size) =
      (data.drop p).take (min (r.b1 - r.b0) size) := by
  have hlen : ((r.buffer.drop r.b0).take (r.b1 - r.b0)).length = r.b1 - r.b0 := by
    rw [List.length_take, List.length_drop, h.length_buffer]
    have := h.b1_le
    omega
  rw [← h.bytes, List.take_append_of_le_length (by omega), List.take_take]
  congr 1
  omega

theorem BufferedIOReader.Inv.skip (h : r.Inv bsz data p) (size : ℕ) :
    BufferedIOReader.Inv bsz data (p + min (r.b1 - r.b0) size)
      { r with b0 := r.b0 + min (r.b1 - r.b0) size } := by
  have hb0 := h.b0_le
  refine ⟨?_, h.b1_le, h.length_buffer, ?_⟩
  · change r.b0 + min (r.b1 - r.b0) size ≤ r.b1
    omega
  · have hlen : ((r.buffer.drop r.b0).take (r.b1 - r.b0)).length = r.b1 - r.b0 := by
      rw [List.length_take, List.length_drop, h.length_buffer]
      have := h.b1_le
      omega
    change (r.buffer.drop (r.b0 + min (r.b1 - r.b0) size)).take
      (r.b1 - (r.b0 + min (r.b1 - r.b0) size)) ++ data.drop r.given = _
    rw [← List.drop_drop, ← List.drop_drop, ← h.bytes, List.drop_append_of_le_length (by omega),
      List.drop_take]
    congr 2
    omega

theorem BufferedIOReader.Inv.fill (hg : give.Positive data) (h : r.Inv bsz data p)
    (hempty : r.b0 = r.b1) :
    BufferedIOReader.Inv bsz data p { r with
      given := r.given + give r.given bsz, ofs := r.ofs + give r.given bsz, b0 := 0,
      b1 := give r.given bsz,
      buffer := overwrite r.buffer 0 ((data.drop r.given).take (give r.given bsz)) } := by
  have hasked := hg.le_asked r.given bsz
  have hleft := hg.le_left r.given bsz
  have hx : ((data.drop r.given).take (give r.given bsz)).length = give r.given bsz := by
    rw [List.length_take, List.length_drop]
    omega
  refine ⟨Nat.zero_le _, hasked, ?_, ?_⟩
  · change (overwrite r.buffer 0 _).length = bsz
    rw [length_overwrite, h.length_buffer]
  · have htake : (overwrite r.buffer 0 ((data.drop r.given).take (give r.given bsz))).take
        (0 + ((data.drop r.given).take (give r.given bsz)).length) = _ :=
      take_overwrite_end (by rw [hx, h.length_buffer]; omega)
    rw [Nat.zero_add, List.take_zero, List.nil_append, hx] at htake
    change ((overwrite r.buffer 0 _).drop 0).take (give r.given bsz - 0) ++
      data.drop (r.given + give r.given bsz) = data.drop p
    rw [List.drop_zero, Nat.sub_zero, htake, ← List.drop_drop, List.take_append_drop,
      h.drop_given hempty]

theorem readLoop_eq (hg : give.Positive data) (hbsz : 0 < bsz) (fuel size : ℕ) (dst : List UInt8)
    (h : r.Inv bsz data p)
    (hempty : 0 < size → r.b0 = r.b1) (hfuel : size < fuel) :
    ∃ r', readLoop give data bsz fuel size dst r = some (dst ++ (data.drop p).take size, r') ∧
      r'.Inv bsz data (p + size) := by
  induction fuel generalizing p size dst r with
  | zero => omega
  | succ fuel ih =>
      rw [readLoop]
      rcases Nat.eq_zero_or_pos size with hsize | hsize
      · subst hsize
        exact ⟨r, by rw [if_neg (Nat.lt_irrefl 0), List.take_zero, List.append_nil], h⟩
      · rw [if_pos hsize, if_pos (hempty hsize)]
        by_cases hend : give r.given bsz = 0
        · have hdone : data.drop p = [] := by
            rw [← h.drop_given (hempty hsize)]
            refine List.drop_of_length_le (Nat.le_of_not_lt fun hlt ↦ ?_)
            have := hg.pos r.given bsz hbsz hlt
            omega
          have hdone' : data.drop (p + size) = [] := by rw [← List.drop_drop, hdone, List.drop_nil]
          simp only [hend, if_true]
          refine ⟨_, by rw [hdone, List.take_nil, List.append_nil], le_rfl, Nat.zero_le _, ?_, ?_⟩
          · change (overwrite r.buffer 0 _).length = bsz
            rw [length_overwrite, h.length_buffer]
          · change [] ++ data.drop r.given = _
            rw [h.drop_given (hempty hsize), hdone, hdone']
            rfl
        · simp only [if_neg hend]
          have hfill := h.fill hg (hempty hsize)
          have hskip := hfill.skip size
          have htake := hfill.take_buffer size
          simp only [Nat.sub_zero, Nat.zero_add, List.drop_zero] at hskip htake
          obtain ⟨r', hr', hinv⟩ := ih (size - min (give r.given bsz) size)
            (dst ++ (data.drop p).take (min (give r.given bsz) size)) hskip
            (fun hmore ↦ by change min (give r.given bsz) size = give r.given bsz; omega) (by omega)
          refine ⟨r', ?_, ?_⟩
          · rw [htake, hr', List.append_assoc, ← List.drop_drop, ← List.take_add]
            congr 4
            omega
          · rwa [Nat.add_assoc, Nat.add_sub_cancel' (min_le_right _ _)] at hinv

theorem BufferedIOReader.read_eq (hg : give.Positive data) (hbsz : 0 < bsz) (h : r.Inv bsz data p)
    (call : ReadCall) :
    ∃ r', r.read give data bsz call =
        some ((((data.drop p).take (call.unitsize * call.nitems)).length / call.unitsize,
          (data.drop p).take (call.unitsize * call.nitems)), r') ∧
      r'.Inv bsz data (p + call.unitsize * call.nitems) := by
  rw [BufferedIOReader.read, sizeT_of_lt call.bytes_lt]
  by_cases hzero : call.unitsize * call.nitems = 0
  · refine ⟨r, ?_, by rwa [hzero]⟩
    rw [if_pos hzero, hzero, List.take_zero, List.length_nil, Nat.zero_div]
  · rw [if_neg hzero]
    have hb0 := h.b0_le
    obtain ⟨r', hr', hinv⟩ := readLoop_eq hg hbsz (call.unitsize * call.nitems + 1)
      (call.unitsize * call.nitems - min (r.b1 - r.b0) (call.unitsize * call.nitems))
      ((r.buffer.drop r.b0).take (min (r.b1 - r.b0) (call.unitsize * call.nitems)))
      (h.skip (call.unitsize * call.nitems))
      (fun hmore ↦ by
        change r.b0 + min (r.b1 - r.b0) (call.unitsize * call.nitems) = r.b1
        omega) (by omega)
    have hbytes : (r.buffer.drop r.b0).take (min (r.b1 - r.b0) (call.unitsize * call.nitems)) ++
        (data.drop (p + min (r.b1 - r.b0) (call.unitsize * call.nitems))).take
          (call.unitsize * call.nitems - min (r.b1 - r.b0) (call.unitsize * call.nitems)) =
          (data.drop p).take (call.unitsize * call.nitems) := by
      rw [h.take_buffer, ← List.drop_drop, ← List.take_add, Nat.add_sub_cancel' (min_le_right _ _)]
    rw [hbytes] at hr'
    rw [Nat.add_assoc, Nat.add_sub_cancel' (min_le_right _ _)] at hinv
    refine ⟨{ r' with ofs2 := r'.ofs2 + ((data.drop p).take (call.unitsize * call.nitems)).length },
      ?_, hinv.b0_le, hinv.b1_le, hinv.length_buffer, hinv.bytes⟩
    simp only [hr']
    rfl

theorem readAll_eq (hg : give.Positive data) (hbsz : 0 < bsz) (h : r.Inv bsz data p)
    (calls : List ReadCall) :
    readAll give data bsz calls r = some (readDirectly (data.drop p) calls) := by
  induction calls generalizing p r with
  | nil => rfl
  | cons call calls ih =>
      obtain ⟨r', hr', hinv⟩ := r.read_eq hg hbsz h call
      rw [readAll, hr', readDirectly, List.drop_drop]
      change (readAll give data bsz calls r').bind _ = _
      rw [ih hinv]
      rfl

end Reader

/-! ## Both -/

/-- Whatever the sizes of the buffers and the cuts are, the bytes that are passed to a
`BufferedIOWriter` and those that a `BufferedIOReader` delivers are the ones that arrive, and the calls
return the numbers of whole items, if and only if the underlying writer, while it gets a full buffer that
more bytes come behind of, does not stop behind the first 10000000 bytes of it. -/
theorem bufferedIO_transparent_iff {bszW bszR : ℕ} (hW : 0 < bszW) (hR : 0 < bszR) {accept : Accept}
    (ha : accept.Positive) {give : Give} {data : List UInt8} (hg : give.Positive data)
    (writes : List WriteCall) (reads : List ReadCall) :
    (writeThrough accept bszW writes = some (writes.map WriteCall.nitems, allBytes writes) ∧
        readThrough give data bszR reads = some (readDirectly data reads)) ↔
      ∀ j < fullBuffers bszW (allBytes writes).length,
        StopsEarly accept ((allBytes writes).take (bszW * j)) (blockOf bszW (allBytes writes) j) := by
  have hwrite := writeThrough_returnsIff ha hW writes
  have hread : readThrough give data bszR reads = some (readDirectly data reads) :=
    readAll_eq hg hR (.init bszR data) reads
  have hsafe : SafeFrom accept bszW [] (allBytes writes) ↔
      ∀ j < fullBuffers bszW (allBytes writes).length,
        StopsEarly accept ((allBytes writes).take (bszW * j)) (blockOf bszW (allBytes writes) j) := by
    refine forall_congr' fun j ↦ ⟨fun h ↦ h ?_, fun h _ ↦ h⟩
    rw [fullBuffers, List.length_nil, Nat.zero_sub, Nat.zero_div]
    exact Nat.zero_le j
  rw [← hsafe, and_iff_left hread]
  constructor
  · intro heq
    by_contra hunsafe
    rw [hwrite.2 hunsafe] at heq
    exact absurd heq (Option.some_ne_none _).symm
  · intro h
    obtain ⟨x, hx, rfl⟩ := hwrite.1 h
    exact hx

theorem stopsEarly_of_le (accept : Accept) (before block : List UInt8) (h : block.length ≤ 10000000) :
    StopsEarly accept before block :=
  fun _ ho _ ↦ ho.trans_le h

/-- Five bytes through a buffer of three bytes, in parts of at most two, and back through a buffer of two
bytes, one at a time. -/
theorem bufferedIO_transparent_iff_five :
    writeThrough (fun _ offered ↦ min 2 offered.length) 3
        [⟨2, 2, [1, 2, 3, 4], by decide, rfl, by decide⟩, ⟨1, 1, [5], by decide, rfl, by decide⟩] =
          some ([2, 1], [1, 2, 3, 4, 5]) ∧
      readThrough (fun pos n ↦ min (min 1 n) (5 - pos)) [1, 2, 3, 4, 5] 2 [⟨3, 1, by decide, by decide⟩] =
        some [(1, [1, 2, 3])] := by
  refine (bufferedIO_transparent_iff (by decide) (by decide) (positive_min (by decide)) ?_ _ _).mpr ?_
  · refine ⟨fun pos n ↦ by omega, ?_, ?_⟩
    · intro pos n
      change min (min 1 n) (5 - pos) ≤ 5 - pos
      omega
    · intro pos n hn hpos
      change pos < 5 at hpos
      omega
  · refine fun j _ ↦ stopsEarly_of_le _ _ _ ?_
    rw [blockOf, List.length_take]
    omega

/-- A call that writes zeros. -/
def zerosCall (n : ℕ) (h : n < 2 ^ 64) : WriteCall where
  unitsize := 1
  nitems := n
  ptr := List.replicate n 0
  unitsize_pos := Nat.one_pos
  length_ptr := by rw [List.length_replicate, Nat.one_mul]
  length_lt := by rwa [List.length_replicate]

theorem length_allBytes_zerosCall (n : ℕ) (h : n < 2 ^ 64) :
    (allBytes [zerosCall n h]).length = n := by
  rw [allBytes, List.flatMap_singleton, zerosCall, List.length_replicate]

/-- The underlying writer accepts `m` bytes at a time, which are all but the last one of a buffer, and one
byte more comes behind the buffer: where `m` is 10000000 or more, the assertion fails. -/
theorem writeThrough_zerosCall {m : ℕ} (hm : 10000000 ≤ m) (h : m + 2 < 2 ^ 64) :
    writeThrough (fun _ offered ↦ min m offered.length) (m + 1) [zerosCall (m + 2) h] = none := by
  have hm0 : 0 < m := by omega
  have hbsz : 0 < m + 1 := Nat.succ_pos m
  refine (writeThrough_returnsIff (positive_min hm0) hbsz _).2 fun hsafe ↦ ?_
  have hlen := length_allBytes_zerosCall (m + 2) h
  have hblock : (blockOf (m + 1) (allBytes [zerosCall (m + 2) h]) 0).length = m + 1 := by
    rw [blockOf, List.length_take, List.length_drop, hlen]
    omega
  have hstop : StopsNext (fun _ offered ↦ min m offered.length)
      ((allBytes [zerosCall (m + 2) h]).take ((m + 1) * 0))
      (blockOf (m + 1) (allBytes [zerosCall (m + 2) h]) 0) 0 m := by
    refine ⟨by omega, ?_⟩
    change m = 0 + min m ((blockOf (m + 1) (allBytes [zerosCall (m + 2) h]) 0).drop 0).length
    rw [List.drop_zero, hblock]
    omega
  have hfull : fullBuffers (m + 1) (m + 2) = 1 := Nat.div_self (Nat.succ_pos m)
  have hnone : fullBuffers (m + 1) 0 = 0 := Nat.zero_div (m + 1)
  have hlate := hsafe 0 hnone.le (by rw [hlen, hfull]; exact Nat.one_pos) m (by omega) (.single hstop)
  omega

/-- A buffer of 10000001 bytes. -/
theorem writeThrough_stops_late :
    Accept.Positive (fun _ offered ↦ min 10000000 offered.length) ∧
      writeThrough (fun _ offered ↦ min 10000000 offered.length) (10000000 + 1)
        [zerosCall (10000000 + 2) (by omega)] = none :=
  ⟨positive_min (by omega), writeThrough_zerosCall le_rfl (by omega)⟩

end FaissNavix
