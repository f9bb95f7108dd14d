import FaissNavix.Lib.Loop
import Mathlib.Algebra.Order.Group.Nat

/-!
# Readers that do not copy

`ZeroCopyIOReader` and `MappedFileIOReader` of `faiss/impl/zerocopy_io.cpp` and `mapped_io.cpp` read
from bytes that are there already, like `VectorIOReader` of `faiss/impl/io.cpp`, and also give out
addresses of what is read.  The number of items that are left is computed in `size_t`.
-/

namespace FaissNavix

open Lib

/-! ## The readers -/

/-- What a `size_t` keeps of a number. -/
def sizeT (n : ℕ) : ℕ :=
  n % 2 ^ 64

/-- The bytes to read.  No array is longer than the difference of two addresses can say. -/
structure ByteArrayToRead where
  data : List UInt8
  length_lt : data.length < 2 ^ 63

/-- What a read delivers: the number of items, and their bytes. -/
structure Delivery where
  nitems : ℕ
  bytes : List UInt8
deriving DecidableEq, Repr

section
variable (data : List UInt8) (rp : ℕ)

/-- The bytes of `nitems` items from a position on, as far as there are any. -/
def deliver (pos size nitems : ℕ) : Delivery :=
  ⟨nitems, (data.drop pos).take (size * nitems)⟩

/-- `operator()` of a `VectorIOReader`: what is delivered, and the position after it. -/
def VectorIOReader.read (size nitems : ℕ) : Delivery × ℕ :=
  if data.length ≤ rp then (⟨0, []⟩, rp)
  else
    let nremain := (data.length - rp) / size
    let nitems := if nremain < nitems then nremain else nitems
    (deliver data rp size nitems, if 0 < size * nitems then rp + size * nitems else rp)

/-- `operator()` of a `ZeroCopyIOReader`. -/
def ZeroCopyIOReader.read (size nitems : ℕ) : Delivery × ℕ :=
  if size * nitems = 0 then (⟨0, []⟩, rp)
  else if data.length ≤ rp then (⟨0, []⟩, rp)
  else
    let nremain := (data.length - rp) / size
    let nitems := if nremain < nitems then nremain else nitems
    (deliver data rp size nitems, rp + size * nitems)

/-- The number of items in a view, of `total` bytes from `pos` on. -/
def actualNitems (total pos size nitems : ℕ) : ℕ :=
  let actualSize :=
    if total < sizeT (pos + sizeT (size * nitems)) then sizeT (total + 2 ^ 64 - pos)
    else sizeT (size * nitems)
  sizeT (actualSize + size - 1) / size

/-- What `get_data_view` and `mmap` do. -/
def dataView (pos size nitems : ℕ) : Delivery × ℕ :=
  if size = 0 then (⟨nitems, []⟩, pos)
  else
    let n := actualNitems data.length pos size nitems
    if n = 0 then (⟨0, []⟩, pos) else (deliver data pos size n, sizeT (pos + size * n))

/-- `get_data_view` -/
def ZeroCopyIOReader.getDataView (size nitems : ℕ) : Delivery × ℕ :=
  dataView data rp size nitems

/-- `mmap` -/
def MappedFileIOReader.mmap (pos size nitems : ℕ) : Delivery × ℕ :=
  dataView data pos size nitems

/-- `operator()` of a `MappedFileIOReader`. -/
def MappedFileIOReader.read (pos size nitems : ℕ) : Delivery × ℕ :=
  if size * nitems = 0 then (⟨0, []⟩, pos) else MappedFileIOReader.mmap data pos size nitems

end

/-- A read through `operator()`, or through `get_data_view` or `mmap`. -/
inductive Access where
  | copied
  | viewed
deriving DecidableEq, Repr

/-- A read of items that are not empty, of which a `size_t` can count the bytes. -/
structure Request where
  access : Access
  size : ℕ
  nitems : ℕ
  size_pos : 0 < size
  size_lt : size < 2 ^ 64
  bytes_lt : size * nitems < 2 ^ 64

/-- The readers that do not copy. -/
inductive Reader where
  | zeroCopy
  | mapped
deriving DecidableEq, Repr

/-- A read, at a position. -/
def Reader.read (r : Reader) (data : List UInt8) (pos : ℕ) (request : Request) : Delivery × ℕ :=
  match r, request.access with
  | .zeroCopy, .copied => ZeroCopyIOReader.read data pos request.size request.nitems
  | .zeroCopy, .viewed => ZeroCopyIOReader.getDataView data pos request.size request.nitems
  | .mapped, .copied => MappedFileIOReader.read data pos request.size request.nitems
  | .mapped, .viewed => MappedFileIOReader.mmap data pos request.size request.nitems

/-- The same read of a `VectorIOReader`. -/
def copyingRead (data : List UInt8) (pos : ℕ) (request : Request) : Delivery × ℕ :=
  VectorIOReader.read data pos request.size request.nitems

def positionAfter (read : ℕ → Request → Delivery × ℕ) (requests : List Request) : ℕ :=
  requests.foldl (fun pos request ↦ (read pos request).2) 0

/-! ## The number of items -/

/-- The items are all there, or no part of an item is left after those that are: unless `size_t`
overflows, where the size of an item is added to what is left, or what is asked for to the position. -/
def Whole (total pos size nitems : ℕ) : Prop :=
  size * nitems ≤ total - pos ∨
    pos + size * nitems < 2 ^ 64 ∧ (size ∣ total - pos ∨ 2 ^ 64 ≤ total - pos + size - 1) ∨
    2 ^ 64 ≤ pos + size * nitems ∧ 2 ^ 64 ≤ size * nitems + size - 1 ∧ total - pos < size

instance (total pos size nitems : ℕ) : Decidable (Whole total pos size nitems) :=
  inferInstanceAs (Decidable (_ ∨ _ ∧ _ ∨ _ ∧ _ ∧ _))

variable {total pos size nitems : ℕ}

theorem sizeT_of_lt {n : ℕ} (h : n < 2 ^ 64) : sizeT n = n :=
  Nat.mod_eq_of_lt h

theorem sizeT_of_le {n : ℕ} (h : 2 ^ 64 ≤ n) (h' : n < 2 ^ 65) : sizeT n = n - 2 ^ 64 := by
  unfold sizeT
  omega

theorem add_sub_one_div (hsize : 0 < size) (n : ℕ) : (size * n + size - 1) / size = n := by
  rw [Nat.add_sub_assoc (by omega), Nat.mul_add_div hsize, Nat.div_eq_of_lt (by omega), Nat.add_zero]

theorem add_sub_one_div_eq_iff (hsize : 0 < size) (n : ℕ) :
    (n + size - 1) / size = n / size ↔ size ∣ n := by
  constructor
  · intro h
    have hlt : n + size - 1 < (n / size + 1) * size := (Nat.div_lt_iff_lt_mul hsize).mp (by omega)
    have hmod := Nat.div_add_mod n size
    have hexpand : (n / size + 1) * size = size * (n / size) + size := by
      rw [Nat.add_mul, Nat.one_mul, Nat.mul_comm]
    exact Nat.dvd_of_mod_eq_zero (by omega)
  · rintro ⟨k, rfl⟩
    rw [add_sub_one_div hsize, Nat.mul_div_cancel_left k hsize]

/-- The number of items in a view, where the bytes are counted rightly. -/
theorem actualNitems_eq (hpos : pos ≤ total) (htotal : total < 2 ^ 63)
    (hbytes : size * nitems < 2 ^ 64) :
    actualNitems total pos size nitems =
      sizeT ((if total - pos < size * nitems ∧ pos + size * nitems < 2 ^ 64 then total - pos
        else size * nitems) + size - 1) / size := by
  have hrest : sizeT (total + 2 ^ 64 - pos) = total - pos := by
    rw [sizeT_of_le (by omega) (by omega)]
    omega
  unfold actualNitems
  rw [sizeT_of_lt hbytes, hrest]
  generalize size * nitems = m at hbytes ⊢
  by_cases hsum : pos + m < 2 ^ 64
  · rw [sizeT_of_lt hsum]
    exact congrArg (fun n ↦ sizeT (n + size - 1) / size) (if_congr (by omega) rfl rfl)
  · rw [sizeT_of_le (by omega) (by omega), if_neg (by omega), if_neg (by omega)]

theorem rounded_lt {rest : ℕ} (h : size * nitems ≤ rest) (hrest : rest < 2 ^ 63)
    (hlt : size < 2 ^ 64) : size * nitems + size - 1 < 2 ^ 64 := by
  rcases Nat.eq_zero_or_pos nitems with rfl | hn
  · rw [Nat.mul_zero]
    omega
  · have := Nat.le_mul_of_pos_right size hn
    omega

/-- The items of a view are those that a reader that copies would copy. -/
theorem actualNitems_eq_iff (hpos : pos ≤ total) (htotal : total < 2 ^ 63) (hsize : 0 < size)
    (hlt : size < 2 ^ 64) (hbytes : size * nitems < 2 ^ 64) :
    actualNitems total pos size nitems = min nitems ((total - pos) / size) ↔
      Whole total pos size nitems := by
  rw [actualNitems_eq hpos htotal hbytes]
  unfold Whole
  generalize hrest : total - pos = rest
  have hle : size * nitems ≤ rest ↔ nitems ≤ rest / size := by
    rw [Nat.le_div_iff_mul_le hsize, Nat.mul_comm]
  have hrest' : rest < 2 ^ 63 := by omega
  by_cases hall : size * nitems ≤ rest
  · rw [if_neg (by omega), sizeT_of_lt (rounded_lt hall hrest' hlt), add_sub_one_div hsize, min_eq_left (hle.mp hall)]
    exact iff_of_true rfl (Or.inl hall)
  · have hmin : min nitems (rest / size) = rest / size := min_eq_right (by omega)
    rw [hmin, or_iff_right hall]
    by_cases hsum : pos + size * nitems < 2 ^ 64
    · rw [if_pos ⟨by omega, hsum⟩, and_iff_right hsum, or_iff_left fun h ↦ absurd hsum (not_lt.mpr h.1)]
      by_cases hwrap : rest + size - 1 < 2 ^ 64
      · rw [sizeT_of_lt hwrap, add_sub_one_div_eq_iff hsize, or_iff_left (not_le.mpr hwrap)]
      · rw [sizeT_of_le (by omega) (by omega), Nat.div_eq_of_lt (by omega),
          Nat.div_eq_of_lt (by omega)]
        exact iff_of_true rfl (Or.inr (by omega))
    · rw [if_neg fun h ↦ hsum h.2, or_iff_right fun h ↦ hsum h.1, and_iff_right (by omega)]
      by_cases hwrap : size * nitems + size - 1 < 2 ^ 64
      · rw [sizeT_of_lt hwrap, add_sub_one_div hsize]
        exact iff_of_false (by omega) fun h ↦ absurd hwrap (not_lt.mpr h.1)
      · rw [sizeT_of_le (by omega) (by omega), Nat.div_eq_of_lt (by omega), and_iff_right (by omega),
          eq_comm, Nat.div_eq_zero_iff_lt hsize]

/-! ## One read -/

theorem deliver_zero (data : List UInt8) (pos size : ℕ) : deliver data pos size 0 = ⟨0, []⟩ := by
  rw [deliver, Nat.mul_zero, List.take_zero]

theorem VectorIOReader.read_eq (data : List UInt8) (pos size nitems : ℕ) :
    VectorIOReader.read data pos size nitems =
      (deliver data pos size (min nitems ((data.length - pos) / size)),
        pos + size * min nitems ((data.length - pos) / size)) := by
  have hmin : (if (data.length - pos) / size < nitems then (data.length - pos) / size else nitems) =
      min nitems ((data.length - pos) / size) := by
    split <;> omega
  unfold VectorIOReader.read
  by_cases hend : data.length ≤ pos
  · rw [if_pos hend, Nat.sub_eq_zero_of_le hend, Nat.zero_div, Nat.min_zero, deliver_zero,
      Nat.mul_zero, Nat.add_zero]
  · rw [if_neg hend]
    dsimp only
    rw [hmin]
    refine congrArg (Prod.mk _) ?_
    split <;> omega

theorem mul_min_le (total pos size nitems : ℕ) :
    size * min nitems ((total - pos) / size) ≤ total - pos :=
  (Nat.mul_le_mul_left size (min_le_right _ _)).trans (Nat.mul_div_le _ _)

/-- Copying from memory is what a reader of a vector does. -/
theorem ZeroCopyIOReader.read_eq (data : List UInt8) (pos size nitems : ℕ) :
    ZeroCopyIOReader.read data pos size nitems = VectorIOReader.read data pos size nitems := by
  unfold ZeroCopyIOReader.read VectorIOReader.read
  by_cases hend : data.length ≤ pos
  · rw [if_pos hend, if_pos hend, ite_self]
  · rw [if_neg hend, if_neg hend]
    dsimp only
    generalize hn : (if (data.length - pos) / size < nitems then (data.length - pos) / size
      else nitems) = n
    by_cases hzero : size * nitems = 0
    · have hn' : n = 0 := by
        rcases Nat.mul_eq_zero.mp hzero with rfl | rfl
        · rw [Nat.div_zero] at hn
          split at hn <;> omega
        · rw [if_neg (Nat.not_lt_zero _)] at hn
          exact hn.symm
      rw [if_pos hzero, hn', deliver_zero, Nat.mul_zero, if_neg (Nat.lt_irrefl 0)]
    · rw [if_neg hzero]
      refine congrArg (Prod.mk _) ?_
      split <;> omega

variable {b : ByteArrayToRead} {r : Reader} {request : Request} {before : List Request}

/-- A view is what would be copied, if and only if no part of an item is left over. -/
theorem dataView_fst_eq_iff (hpos : pos ≤ b.data.length) (request : Request) :
    (dataView b.data pos request.size request.nitems).1 =
        (VectorIOReader.read b.data pos request.size request.nitems).1 ↔
      Whole b.data.length pos request.size request.nitems := by
  rw [← actualNitems_eq_iff hpos b.length_lt request.size_pos request.size_lt request.bytes_lt,
    VectorIOReader.read_eq, dataView, if_neg request.size_pos.ne']
  dsimp only
  generalize actualNitems b.data.length pos request.size request.nitems = n
  have hcount : (if n = 0 then ((⟨0, []⟩ : Delivery), pos)
      else (deliver b.data pos request.size n, sizeT (pos + request.size * n))).1 =
        deliver b.data pos request.size n := by
    split
    · next h => rw [h, deliver_zero]
    · rfl
  rw [hcount]
  exact ⟨congrArg Delivery.nitems, congrArg (deliver b.data pos request.size)⟩

/-- A view of what would be copied leaves the reader where copying does. -/
theorem dataView_eq (hpos : pos ≤ b.data.length) (request : Request)
    (hwhole : Whole b.data.length pos request.size request.nitems) :
    dataView b.data pos request.size request.nitems =
      VectorIOReader.read b.data pos request.size request.nitems := by
  have hcount := (actualNitems_eq_iff hpos b.length_lt request.size_pos request.size_lt
    request.bytes_lt).mpr hwhole
  have hle := mul_min_le b.data.length pos request.size request.nitems
  have hlt := b.length_lt
  rw [VectorIOReader.read_eq, dataView, if_neg request.size_pos.ne']
  dsimp only
  rw [hcount]
  split
  · next h => rw [h, deliver_zero, Nat.mul_zero, Nat.add_zero]
  · rw [sizeT_of_lt (by omega)]

/-! ## Runs of reads -/

/-- A read after some others delivers what a reader that copies does, leaves the position within the
data, and gives out no address of anything after it. -/
def Faithful (r : Reader) (b : ByteArrayToRead) (before : List Request) (request : Request) : Prop :=
  let pos := positionAfter (r.read b.data) before
  let result := r.read b.data pos request
  result.1 = (copyingRead b.data (positionAfter (copyingRead b.data) before) request).1 ∧
    result.2 ≤ b.data.length ∧ pos + request.size * result.1.nitems ≤ b.data.length

/-- The read is a copy from memory, or it is for items that are whole, from where a reader that copies
is. -/
def Meets (r : Reader) (b : ByteArrayToRead) (before : List Request) (request : Request) : Prop :=
  r = .zeroCopy ∧ request.access = .copied ∨
    Whole b.data.length (positionAfter (copyingRead b.data) before) request.size request.nitems

theorem positionAfter_concat (read : ℕ → Request → Delivery × ℕ) (before : List Request)
    (request : Request) : positionAfter read (before ++ [request]) =
      (read (positionAfter read before) request).2 := by
  rw [positionAfter, List.foldl_append]
  rfl

theorem copying_within (data : List UInt8) (requests : List Request) :
    positionAfter (copyingRead data) requests ≤ data.length := by
  induction requests using List.reverseRecOn with
  | nil => exact Nat.zero_le _
  | append_singleton before request ih =>
      rw [positionAfter_concat, copyingRead, VectorIOReader.read_eq]
      have := mul_min_le data.length (positionAfter (copyingRead data) before) request.size
        request.nitems
      dsimp only
      omega

theorem whole_of_zero {size nitems : ℕ} (h : size * nitems = 0) (total pos : ℕ) :
    Whole total pos size nitems :=
  Or.inl (h ▸ Nat.zero_le _)

/-- A copy from memory, or a read of items that are whole, is what copying does. -/
theorem read_eq_copyingRead (hpos : pos ≤ b.data.length)
    (h : r = .zeroCopy ∧ request.access = .copied ∨
      Whole b.data.length pos request.size request.nitems) :
    r.read b.data pos request = copyingRead b.data pos request := by
  unfold Reader.read copyingRead
  cases r with
  | zeroCopy =>
      cases haccess : request.access with
      | copied => exact ZeroCopyIOReader.read_eq _ _ _ _
      | viewed =>
          refine dataView_eq hpos request (h.resolve_left fun hcopied ↦ ?_)
          rw [haccess] at hcopied
          cases hcopied.2
  | mapped =>
      have hwhole := h.resolve_left fun hcopied ↦ by cases hcopied.1
      cases request.access with
      | copied =>
          dsimp only
          unfold MappedFileIOReader.read
          by_cases hzero : request.size * request.nitems = 0
          · have hnone : request.nitems = 0 :=
              (Nat.mul_eq_zero.mp hzero).resolve_left request.size_pos.ne'
            rw [if_pos hzero, hnone, VectorIOReader.read_eq, Nat.zero_min, deliver_zero, Nat.mul_zero,
              Nat.add_zero]
          · rw [if_neg hzero]
            exact dataView_eq hpos request hwhole
      | viewed => exact dataView_eq hpos request hwhole

/-- A read that delivers what copying does is one of these. -/
theorem whole_of_read_eq (hpos : pos ≤ b.data.length)
    (h : (r.read b.data pos request).1 = (copyingRead b.data pos request).1) :
    r = .zeroCopy ∧ request.access = .copied ∨
      Whole b.data.length pos request.size request.nitems := by
  unfold Reader.read copyingRead at h
  cases r with
  | zeroCopy =>
      cases haccess : request.access with
      | copied => exact Or.inl ⟨rfl, rfl⟩
      | viewed =>
          rw [haccess] at h
          exact Or.inr ((dataView_fst_eq_iff hpos request).mp h)
  | mapped =>
      refine Or.inr ?_
      cases haccess : request.access with
      | copied =>
          rw [haccess] at h
          dsimp only at h
          unfold MappedFileIOReader.read at h
          by_cases hzero : request.size * request.nitems = 0
          · exact whole_of_zero hzero _ _
          · rw [if_neg hzero] at h
            exact (dataView_fst_eq_iff hpos request).mp h
      | viewed =>
          rw [haccess] at h
          exact (dataView_fst_eq_iff hpos request).mp h

theorem positionAfter_eq {requests : List Request} (h : EachStep (Meets r b) requests) :
    positionAfter (r.read b.data) requests = positionAfter (copyingRead b.data) requests := by
  induction requests using List.reverseRecOn with
  | nil => rfl
  | append_singleton before request ih =>
      obtain ⟨hbefore, hmeets⟩ := eachStep_concat.mp h
      rw [positionAfter_concat, positionAfter_concat, ih hbefore,
        read_eq_copyingRead (copying_within b.data before) hmeets]

theorem Meets.faithful (hbefore : EachStep (Meets r b) before) (h : Meets r b before request) :
    Faithful r b before request := by
  have hwithin := copying_within b.data before
  have hle := mul_min_le b.data.length (positionAfter (copyingRead b.data) before) request.size
    request.nitems
  unfold Faithful
  dsimp only
  rw [positionAfter_eq hbefore, read_eq_copyingRead hwithin h, copyingRead, VectorIOReader.read_eq]
  dsimp only [deliver]
  exact ⟨rfl, by omega, by omega⟩

theorem Faithful.meets (hbefore : EachStep (Meets r b) before) (h : Faithful r b before request) :
    Meets r b before request := by
  obtain ⟨hdelivers, -⟩ := h
  rw [positionAfter_eq hbefore] at hdelivers
  exact whole_of_read_eq (copying_within b.data before) hdelivers

/-! ## What `read_vector_base` accepts -/

/-- The end of `read_vector_base`, where the number of items is known: the bytes and the position, if
it does not throw. -/
def readVectorView (data : List UInt8) (pos valueSize size : ℕ) : Option (List UInt8 × ℕ) :=
  let result := dataView data pos valueSize size
  if result.1.nitems = size then some (result.1.bytes, result.2) else none

/-- `READANDCHECK` with a reader that copies. -/
def readAndCheck (data : List UInt8) (pos valueSize size : ℕ) : Option (List UInt8 × ℕ) :=
  let result := VectorIOReader.read data pos valueSize size
  if result.1.nitems = size then some (result.1.bytes, result.2) else none

/-- The items are all there, or at least one of them is missing as a whole: unless `size_t` overflows,
where the size of an item is added to what is left, or what is asked for to the position. -/
def NotCutOff (total pos size nitems : ℕ) : Prop :=
  size * nitems ≤ total - pos ∨
    pos + size * nitems < 2 ^ 64 ∧
      (total - pos + size ≤ size * nitems ∨ 2 ^ 64 ≤ total - pos + size - 1) ∨
    2 ^ 64 ≤ pos + size * nitems ∧ 2 ^ 64 ≤ size * nitems + size - 1

theorem isSome_readAndCheck (data : List UInt8) (pos : ℕ) (hsize : 0 < size) :
    (readAndCheck data pos size nitems).isSome = true ↔ size * nitems ≤ data.length - pos := by
  unfold readAndCheck
  rw [VectorIOReader.read_eq]
  dsimp only [deliver]
  rw [Nat.mul_comm size nitems, ← Nat.le_div_iff_mul_le hsize, ← min_eq_left_iff]
  split
  · next h => exact iff_of_true rfl h
  · next h => exact iff_of_false Bool.false_ne_true h

theorem isSome_readVectorView (data : List UInt8) (pos : ℕ) (hsize : 0 < size) :
    (readVectorView data pos size nitems).isSome = true ↔
      actualNitems data.length pos size nitems = nitems := by
  unfold readVectorView dataView
  rw [if_neg hsize.ne']
  dsimp only
  have hcount : (if actualNitems data.length pos size nitems = 0 then ((⟨0, []⟩ : Delivery), pos)
      else (deliver data pos size (actualNitems data.length pos size nitems),
        sizeT (pos + size * actualNitems data.length pos size nitems))).1.nitems =
          actualNitems data.length pos size nitems := by
    split
    · next h => exact h.symm
    · rfl
  rw [hcount]
  split
  · next h => exact iff_of_true rfl h
  · next h => exact iff_of_false Bool.false_ne_true h

/-- Both accept, or both reject. -/
theorem accepts_iff (hpos : pos ≤ b.data.length) (hsize : 0 < size) (hlt : size < 2 ^ 64)
    (hbytes : size * nitems < 2 ^ 64) :
    ((readVectorView b.data pos size nitems).isSome =
        (readAndCheck b.data pos size nitems).isSome) ↔
      NotCutOff b.data.length pos size nitems := by
  have htotal := b.length_lt
  rw [Bool.eq_iff_iff, isSome_readAndCheck _ _ hsize, isSome_readVectorView _ _ hsize,
    actualNitems_eq hpos htotal hbytes]
  unfold NotCutOff
  generalize hrest : b.data.length - pos = rest
  have hrest' : rest < 2 ^ 63 := by omega
  by_cases hall : size * nitems ≤ rest
  · rw [if_neg (by omega), sizeT_of_lt (rounded_lt hall hrest' hlt), add_sub_one_div hsize]
    exact iff_of_true (iff_of_true rfl hall) (Or.inl hall)
  · have hn : 0 < nitems := Nat.pos_of_ne_zero fun h ↦ by
      rw [h, Nat.mul_zero] at hall
      exact hall (Nat.zero_le _)
    rw [iff_false_right hall, or_iff_right hall]
    by_cases hsum : pos + size * nitems < 2 ^ 64
    · rw [if_pos ⟨by omega, hsum⟩, and_iff_right hsum, or_iff_left fun h ↦ absurd hsum (not_lt.mpr h.1)]
      by_cases hwrap : rest + size - 1 < 2 ^ 64
      · have hup : (rest + size - 1) / size = nitems ↔ size * nitems < rest + size := by
          rw [Nat.div_eq_iff hsize, Nat.mul_comm nitems]
          omega
        rw [sizeT_of_lt hwrap, or_iff_left (not_le.mpr hwrap), hup, not_lt]
      · rw [sizeT_of_le (by omega) (by omega), Nat.div_eq_of_lt (by omega)]
        exact iff_of_true (by omega) (Or.inr (by omega))
    · rw [if_neg fun h ↦ hsum h.2, or_iff_right fun h ↦ hsum h.1, and_iff_right (by omega)]
      by_cases hwrap : size * nitems + size - 1 < 2 ^ 64
      · rw [sizeT_of_lt hwrap, add_sub_one_div hsize]
        exact iff_of_false (fun h ↦ h rfl) (not_le.mpr hwrap)
      · rw [sizeT_of_le (by omega) (by omega), Nat.div_eq_of_lt (by omega)]
        exact iff_of_true (by omega) (by omega)

/-- In any sequence of reads, each one delivers what a reader that copies does and stays within the
data, if and only if each one is a copy from memory or is for items that are whole, from where the
reads before it lead.  And from anywhere in the data, `read_vector_base` accepts what a reader that
copies does if and only if no item is cut off. -/
theorem reads_faithful_iff (r : Reader) (b : ByteArrayToRead) (requests : List Request) :
    (EachStep (Faithful r b) requests ↔ EachStep (Meets r b) requests) ∧
    ∀ pos ≤ b.data.length, ∀ request : Request,
      ((readVectorView b.data pos request.size request.nitems).isSome =
          (readAndCheck b.data pos request.size request.nitems).isSome) ↔
        NotCutOff b.data.length pos request.size request.nitems := by
  refine ⟨?_, fun pos hpos request ↦
    accepts_iff hpos request.size_pos request.size_lt request.bytes_lt⟩
  induction requests using List.reverseRecOn with
  | nil => exact iff_of_true eachStep_nil eachStep_nil
  | append_singleton before request ih =>
      rw [eachStep_concat, eachStep_concat, ih]
      exact and_congr_right fun hbefore ↦
        ⟨fun h ↦ h.meets hbefore, fun h ↦ h.faithful hbefore⟩

/-- Of three bytes, a view of one item of four is given out, which a reader that copies does not
deliver; the position is then past the end, and a vector of that item is accepted. -/
theorem reads_faithful_iff_fails :
    let data : List UInt8 := [1, 2, 3]
    ZeroCopyIOReader.getDataView data 0 4 1 = (⟨1, [1, 2, 3]⟩, 4) ∧
    MappedFileIOReader.read data 0 4 1 = (⟨1, [1, 2, 3]⟩, 4) ∧
    VectorIOReader.read data 0 4 1 = (⟨0, []⟩, 0) ∧
    (readVectorView data 0 4 1).isSome = true ∧ (readAndCheck data 0 4 1).isSome = false := by
  decide

/-- Of six bytes, one item of four is mapped, and then the two bytes that are left. -/
theorem reads_faithful_iff_six :
    let b : ByteArrayToRead := ⟨[1, 2, 3, 4, 5, 6], by decide⟩
    EachStep (Faithful .mapped b) [⟨.viewed, 4, 1, by decide, by decide, by decide⟩,
      ⟨.copied, 1, 9, by decide, by decide, by decide⟩] ∧
    (readVectorView b.data 0 4 3).isSome = (readAndCheck b.data 0 4 3).isSome := by
  intro b
  have hboth := reads_faithful_iff .mapped b [⟨.viewed, 4, 1, by decide, by decide, by decide⟩,
    ⟨.copied, 1, 9, by decide, by decide, by decide⟩]
  refine ⟨hboth.1.mpr ?_, (hboth.2 0 (Nat.zero_le _)
    ⟨.viewed, 4, 3, by decide, by decide, by decide⟩).mpr (Or.inr (Or.inl ⟨by decide, by decide⟩))⟩
  refine eachStep_pair.mpr ⟨?_, ?_⟩
  · exact Or.inr (by decide)
  · exact Or.inr (by decide)

end FaissNavix
