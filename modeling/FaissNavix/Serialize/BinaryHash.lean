import FaissNavix.Bitstring
import FaissNavix.Invlists.OnDisk
import FaissNavix.Lib.Decoder
import FaissNavix.Lib.DefaultMap
import FaissNavix.Readers
import Mathlib.Data.Nat.Log

/-!
# Vectors in a file

`WRITE1`, `WRITEVECTOR`, `READ1` and `READVECTOR` of `faiss/impl/io_macros.h`.  A number of type
`size_t` is 8 bytes, and one of type `int` is 4.
-/

namespace FaissNavix

open Lib (Decoder Decodes decodes_check decodes_many decodes_nat length_of_many toBytes)

/-- `WRITEVECTOR`, where `enc` are the bytes of an element. -/
def writeVector {α : Type} (enc : α → List UInt8) (xs : List α) : List UInt8 :=
  toBytes 8 xs.length ++ xs.flatMap enc

/-- `READVECTOR`, which throws where the size makes no sense. -/
def readVector {α : Type} (dec : Decoder α) : Decoder (List α) := do
  let size ← .nat 8
  .check (decide (size < 2 ^ 40))
  dec.many size

def byteBytes (x : UInt8) : List UInt8 :=
  [x]

def readByte : Decoder UInt8 := do
  return (← Decoder.bytes 1).getD 0 0

variable {α : Type} {dec : Decoder α} {enc : α → List UInt8} {xs : List α}

theorem decodes_readByte (x : UInt8) : Decodes readByte (byteBytes x) x :=
  (Lib.decodes_bytes [x]).map fun bs ↦ bs.getD 0 0

theorem decodes_readVector (hlt : xs.length < 2 ^ 40) (h : ∀ x ∈ xs, Decodes dec (enc x) x) :
    Decodes (readVector dec) (writeVector enc xs) xs :=
  (decodes_nat (by omega)).bind ((decodes_check (decide_eq_true hlt)).bind (decodes_many h))

theorem readVector_of_le (hle : 2 ^ 40 ≤ xs.length) (hlt : xs.length < 2 ^ 64) (s : List UInt8) :
    (readVector dec).run (writeVector enc xs ++ s) = none := by
  unfold readVector writeVector
  have hsize : xs.length < 256 ^ 8 := by omega
  rw [List.append_assoc, (decodes_nat hsize).run_bind, StateT.run_bind]
  have hcheck : (Decoder.check (decide (xs.length < 2 ^ 40))).run (xs.flatMap enc ++ s) = none := by
    rw [decide_eq_false (not_lt.mpr hle)]
    rfl
  rw [hcheck]
  rfl

theorem length_of_readVector {s s' : List UInt8} (h : (readVector dec).run s = some (xs, s')) :
    xs.length < 2 ^ 40 := by
  unfold readVector at h
  rw [StateT.run_bind] at h
  obtain ⟨⟨size, s₁⟩, -, h⟩ := Option.bind_eq_some_iff.mp h
  rw [StateT.run_bind] at h
  obtain ⟨⟨_, s₂⟩, hcheck, h⟩ := Option.bind_eq_some_iff.mp h
  rw [length_of_many h]
  by_contra hle
  rw [decide_eq_false hle] at hcheck
  cases hcheck

end FaissNavix

/-!
# Binary hash indexes in a file

`IndexBinaryHash` and `IndexBinaryMultiHash` of `faiss/IndexBinaryHash.cpp`, with how their maps are
written and read in `faiss/impl/index_write.cpp` and `index_read.cpp`.  An `unordered_map` is iterated
over in an order that nothing is known about.
-/

namespace FaissNavix

open Lib (DefaultMap Decoder Decodes Keyed Turn iterate toBits toBytes)

/-! ## The indexes -/

/-- `*(uint64_t*)`, from an address on. -/
def loadUint64 (x : ℕ → UInt8) (address : ℕ) : ℕ :=
  Lib.ofBytes (Lib.read x address 8)

/-- `IndexBinaryHash::InvertedList` -/
structure BinaryInvertedList where
  ids : List Idx
  vecs : List UInt8
deriving DecidableEq, Repr

instance : Inhabited BinaryInvertedList :=
  ⟨⟨[], []⟩⟩

/-- `add` -/
def BinaryInvertedList.add (il : BinaryInvertedList) (id : Idx) (code : List UInt8) :
    BinaryInvertedList :=
  ⟨il.ids ++ [id], il.vecs ++ code⟩

/-- Vectors in memory, with ids of their own or without. -/
structure BinaryVectors where
  n : ℕ
  x : ℕ → UInt8
  xids : Option (List Idx)

/-- `IndexBinaryHash` -/
structure IndexBinaryHash where
  codeSize : ℕ
  b : ℕ
  ntotal : ℕ
  invlists : DefaultMap BinaryInvertedList

namespace IndexBinaryHash

variable (idx : IndexBinaryHash) (batch : BinaryVectors)

def new (codeSize b : ℕ) : IndexBinaryHash :=
  ⟨codeSize, b, 0, ∅⟩

/-- The id of vector `i` of a batch. -/
def batchId (i : ℕ) : Idx :=
  match batch.xids with
  | some xids => xids.getD i 0
  | none => Int64.ofNat (idx.ntotal + i)

/-- A turn of the loop of `add_with_ids`. -/
def addOne (invlists : DefaultMap BinaryInvertedList)
    (i : ℕ) : DefaultMap BinaryInvertedList :=
  let xi := i * idx.codeSize
  let hash := loadUint64 batch.x xi &&& 2 ^ idx.b - 1
  invlists.modify hash fun il ↦ il.add (idx.batchId batch i) (Lib.read batch.x xi idx.codeSize)

/-- `add_with_ids` -/
def addWithIds : IndexBinaryHash :=
  { idx with
    invlists := (List.range batch.n).foldl (idx.addOne batch) idx.invlists
    ntotal := idx.ntotal + batch.n }

end IndexBinaryHash

/-- `IndexBinaryMultiHash`, without the storage. -/
structure IndexBinaryMultiHash where
  codeSize : ℕ
  b : ℕ
  ntotal : ℕ
  maps : List (DefaultMap (List ℕ))

namespace IndexBinaryMultiHash

/-- The constructor, with `nhash` maps. -/
def new (codeSize nhash b : ℕ) : IndexBinaryMultiHash :=
  ⟨codeSize, b, 0, List.replicate nhash ∅⟩

/-- A vector gets into map `h`. -/
def addOne (idx : IndexBinaryMultiHash) (x : ℕ → UInt8) (h : ℕ) (map : DefaultMap (List ℕ)) (i : ℕ) :
    DefaultMap (List ℕ) :=
  let ho := h * idx.b
  let hash := loadUint64 x (i * idx.codeSize + ho / 8) >>> (ho % 8)
  map.modify (hash &&& 2 ^ idx.b - 1) (· ++ [i + idx.ntotal])

/-- `add` -/
def add (idx : IndexBinaryMultiHash) (batch : BinaryVectors) : IndexBinaryMultiHash :=
  { idx with
    maps := (List.range batch.n).foldl
      (fun maps i ↦ maps.mapIdx fun h map ↦ idx.addOne batch.x h map i) idx.maps
    ntotal := idx.ntotal + batch.n }

end IndexBinaryMultiHash

/-! ## Writing and reading -/

/-- A loop `while (more) nbit++`. -/
def whileBits (more : ℕ → Bool) (turns : ℕ) : Option ℕ :=
  iterate (fun nbit ↦ if more nbit then Turn.next (nbit + 1) else .done nbit) (turns + 1) 0

/-- The bytes for a number of bits that a `size_t` counts. -/
def bufferSize (nbit : ℕ) : ℕ :=
  sizeT (sizeT nbit + 7) / 8

/-- The size of a list with its key, as `write_binary_hash_invlists` writes them. -/
def writeListSize (b ilNbit : ℕ) (wr : BitstringWriter) (e : Keyed BinaryInvertedList) :
    Option BitstringWriter := do
  let wr ← wr.write e.1 b
  wr.write e.2.ids.length ilNbit

def writeList (e : Keyed BinaryInvertedList) : List UInt8 :=
  writeVector idBytes e.2.ids ++ writeVector byteBytes e.2.vecs

def maxListSize (order : List (Keyed BinaryInvertedList)) : ℕ :=
  order.foldl (fun maxil e ↦ max maxil e.2.ids.length) 0

/-- `write_binary_hash_invlists`, in an order in which the map is iterated over. -/
def writeBinaryHashInvlists (b : ℕ) (order : List (Keyed BinaryInvertedList)) :
    Option (List UInt8) := do
  let sz := order.length
  let maxil := maxListSize order
  let ilNbit ← whileBits (fun ilNbit ↦ decide (2 ^ ilNbit ≤ maxil)) maxil
  let wr ← order.foldlM (writeListSize b ilNbit) (.new (bufferSize ((b + ilNbit) * sz)))
  return toBytes 8 sz ++ (toBytes 4 ilNbit ++ (writeVector byteBytes wr.code ++
    order.flatMap writeList))

def readId : Decoder Idx := do
  return idOfBytes (← Decoder.bytes sizeofIdx)

/-- A turn of the loop of `read_binary_hash_invlists`. -/
def readList (b ilNbit : ℕ) (s : BitstringReader × DefaultMap BinaryInvertedList) :
    Decoder (BitstringReader × DefaultMap BinaryInvertedList) := do
  let (hash, rd) ← .ofOption (s.1.read b)
  let (ilsz, rd) ← .ofOption (rd.read ilNbit)
  let ids ← readVector readId
  .check (decide (ids.length = ilsz))
  let vecs ← readVector readByte
  return (rd, s.2.modify hash fun _ ↦ ⟨ids, vecs⟩)

/-- `read_binary_hash_invlists` -/
def readBinaryHashInvlists (b : ℕ) : Decoder (DefaultMap BinaryInvertedList) := do
  let sz ← .nat 8
  let ilNbit ← .nat 4
  let buf ← readVector readByte
  let s ← (List.range sz).foldlM (fun s _ ↦ readList b ilNbit s) (⟨buf, 0⟩, ∅)
  return s.2

/-- A turn of the loop of `write_binary_multi_hash_map`. -/
def writeIds (b idBits : ℕ) (wr : BitstringWriter) (e : Keyed (List ℕ)) : Option BitstringWriter := do
  let wr ← wr.write e.1 b
  let wr ← wr.write e.2.length idBits
  e.2.foldlM (fun wr id ↦ wr.write id idBits) wr

/-- `write_binary_multi_hash_map`, in an order in which the map is iterated over. -/
def writeBinaryMultiHashMap (b ntotal : ℕ) (order : List (Keyed (List ℕ))) : Option (List UInt8) := do
  let idBits ← whileBits (fun idBits ↦ decide (2 ^ idBits < ntotal)) ntotal
  let sz := order.length
  let nbit := (b + idBits) * sz + ntotal * idBits
  let wr ← order.foldlM (writeIds b idBits) (.new (bufferSize nbit))
  return toBytes 4 idBits ++ (toBytes 8 sz ++ writeVector byteBytes wr.code)

/-- The inner loop of `read_binary_multi_hash_map`. -/
def readIds (idBits : ℕ) : ℕ → BitstringReader → Option (List ℕ × BitstringReader)
  | 0, rd => some ([], rd)
  | ilsz + 1, rd => do
    let (id, rd) ← rd.read idBits
    let (ids, rd) ← readIds idBits ilsz rd
    return (id :: ids, rd)

/-- A turn of the loop of `read_binary_multi_hash_map`. -/
def readBucket (b idBits : ℕ) (s : BitstringReader × DefaultMap (List ℕ)) :
    Option (BitstringReader × DefaultMap (List ℕ)) := do
  let (hash, rd) ← s.1.read b
  let (ilsz, rd) ← rd.read idBits
  let (ids, rd) ← readIds idBits ilsz rd
  return (rd, s.2.modify hash (· ++ ids))

/-- `read_binary_multi_hash_map` -/
def readBinaryMultiHashMap (b ntotal : ℕ) : Decoder (DefaultMap (List ℕ)) := do
  let idBits ← .nat 4
  let sz ← .nat 8
  let buf ← readVector readByte
  let nbit := (b + idBits) * sz + ntotal * idBits
  .check (decide (buf.length = bufferSize nbit))
  let s ← .ofOption ((List.range sz).foldlM (fun s _ ↦ readBucket b idBits s) (⟨buf, 0⟩, ∅))
  return s.2

/-! ## What adding leaves -/

/-- The keys have `b` bits, and each has something, together `n` vectors. -/
def Counted {V : Type} (size : V → ℕ) (b n : ℕ) (entries : List (Keyed V)) : Prop :=
  (∀ e ∈ entries, e.1 < 2 ^ b ∧ 0 < size e.2) ∧ (entries.map fun e ↦ size e.2).sum = n

section Counted

variable {V : Type} {size : V → ℕ} {b n : ℕ} {entries order : List (Keyed V)}

theorem counted_nil (size : V → ℕ) (b : ℕ) : Counted size b 0 [] :=
  ⟨fun _ h ↦ absurd h List.not_mem_nil, rfl⟩

theorem counted_modify [Inhabited V] {m : DefaultMap V} (h : Counted size b n m.entries) {key : ℕ}
    {f : V → V} (hkey : key < 2 ^ b) (hdefault : size default = 0)
    (hsize : ∀ v, size (f v) = size v + 1) : Counted size b (n + 1) (m.modify key f).entries := by
  obtain ⟨hall, hsum⟩ := h
  refine ⟨DefaultMap.forall_entries_modify hall ⟨hkey, ?_⟩ fun v _ ↦ ⟨hkey, ?_⟩, ?_⟩
  · dsimp only
    rw [hsize]
    exact Nat.succ_pos _
  · dsimp only
    rw [hsize]
    exact Nat.succ_pos _
  · rw [DefaultMap.sum_modify hdefault hsize, hsum]

variable (h : Counted size b n entries) {e : Keyed V}
include h

theorem Counted.perm (hperm : order.Perm entries) :
    Counted size b n order := by
  obtain ⟨hall, hsum⟩ := h
  refine ⟨fun e he ↦ hall e (hperm.mem_iff.mp he), ?_⟩
  rw [← hsum]
  exact (hperm.map _).sum_eq

theorem Counted.size_le (he : e ∈ entries) :
    size e.2 ≤ n := by
  rw [← h.2]
  exact List.le_sum_of_mem (List.mem_map_of_mem he)

theorem Counted.length_le : entries.length ≤ n := by
  rw [← h.2, ← List.length_map fun e : Keyed V ↦ size e.2]
  refine List.length_le_sum_of_one_le _ fun k hk ↦ ?_
  obtain ⟨e, he, rfl⟩ := List.mem_map.mp hk
  exact (h.1 e he).2

/-- A key that has them all is the only one. -/
theorem Counted.eq_singleton (he : e ∈ entries)
    (hall : size e.2 = n) : entries = [e] := by
  obtain ⟨before, after, rfl⟩ := List.append_of_mem he
  have hsum := h.2
  rw [List.map_append, List.map_cons, List.sum_append, List.sum_cons, hall] at hsum
  have hnone : ∀ es : List (Keyed V), (∀ e' ∈ es, 0 < size e'.2) →
      (es.map fun e ↦ size e.2).sum = 0 → es = [] := by
    intro es hpos hzero
    cases es with
    | nil => rfl
    | cons e' es =>
        rw [List.map_cons, List.sum_cons] at hzero
        have := hpos e' List.mem_cons_self
        omega
  rw [hnone before (fun e' he' ↦ (h.1 e' (List.mem_append_left _ he')).2) (by omega),
    hnone after (fun e' he' ↦
      (h.1 e' (List.mem_append_right _ (List.mem_cons_of_mem _ he'))).2) (by omega)]
  rfl

end Counted

theorem and_mask_lt (x b : ℕ) : x &&& 2 ^ b - 1 < 2 ^ b := by
  rw [Nat.and_two_pow_sub_one_eq_mod]
  exact Nat.mod_lt _ (Nat.two_pow_pos b)

theorem IndexBinaryHash.counted_addWithIds {idx : IndexBinaryHash} (batch : BinaryVectors)
    (h : Counted (·.ids.length) idx.b idx.ntotal idx.invlists.entries) :
    Counted (·.ids.length) idx.b (idx.addWithIds batch).ntotal
      (idx.addWithIds batch).invlists.entries := by
  have hloop : ∀ k, Counted (·.ids.length) idx.b (idx.ntotal + k)
      ((List.range k).foldl (idx.addOne batch) idx.invlists).entries := by
    intro k
    induction k with
    | zero => exact h
    | succ k ih =>
        rw [List.range_succ, List.foldl_append, List.foldl_cons, List.foldl_nil,
          IndexBinaryHash.addOne]
        refine counted_modify ih (and_mask_lt _ _) rfl fun il ↦ ?_
        exact List.length_append
  exact hloop batch.n

/-- The same in each map, and the ids are the numbers of the vectors. -/
theorem IndexBinaryMultiHash.counted_add {idx : IndexBinaryMultiHash} (batch : BinaryVectors)
    (h : ∀ map ∈ idx.maps, Counted List.length idx.b idx.ntotal map.entries ∧
      ∀ e ∈ map.entries, ∀ id ∈ e.2, id < idx.ntotal) :
    ∀ map ∈ (idx.add batch).maps, Counted List.length idx.b (idx.add batch).ntotal map.entries ∧
      ∀ e ∈ map.entries, ∀ id ∈ e.2, id < (idx.add batch).ntotal := by
  have hloop : ∀ k, ∀ map ∈ (List.range k).foldl
      (fun maps i ↦ maps.mapIdx fun h map ↦ idx.addOne batch.x h map i) idx.maps,
      Counted List.length idx.b (idx.ntotal + k) map.entries ∧
        ∀ e ∈ map.entries, ∀ id ∈ e.2, id < idx.ntotal + k := by
    intro k
    induction k with
    | zero => exact h
    | succ k ih =>
        intro map hmap
        rw [List.range_succ, List.foldl_append] at hmap
        obtain ⟨i, hi, rfl⟩ := List.mem_mapIdx.mp hmap
        obtain ⟨hcounted, hids⟩ := ih _ (List.getElem_mem hi)
        refine ⟨counted_modify hcounted (and_mask_lt _ _) rfl fun ids ↦ List.length_append, ?_⟩
        refine DefaultMap.forall_entries_modify (fun e he id hid ↦ ?_) ?_ fun ids hold id hid ↦ ?_
        · exact (hids e he id hid).trans (Nat.lt_succ_self _)
        · intro id hid
          obtain rfl := List.mem_singleton.mp hid
          omega
        · rcases List.mem_append.mp hid with hid | hid
          · exact (hold id hid)
          · obtain rfl := List.mem_singleton.mp hid
            omega
  exact hloop batch.n

theorem IndexBinaryHash.counted_batches (codeSize b : ℕ) (batches : List BinaryVectors) :
    let idx := batches.foldl addWithIds (new codeSize b)
    idx.b = b ∧ Counted (·.ids.length) b idx.ntotal idx.invlists.entries := by
  induction batches using List.reverseRecOn with
  | nil => exact ⟨rfl, counted_nil _ b⟩
  | append_singleton batches batch ih =>
      rw [List.foldl_append]
      generalize batches.foldl addWithIds (new codeSize b) = idx at ih ⊢
      obtain ⟨rfl, hcounted⟩ := ih
      exact ⟨rfl, counted_addWithIds batch hcounted⟩

theorem IndexBinaryMultiHash.counted_batches (codeSize nhash b : ℕ) (batches : List BinaryVectors) :
    let idx := batches.foldl add (new codeSize nhash b)
    idx.b = b ∧ ∀ map ∈ idx.maps, Counted List.length b idx.ntotal map.entries ∧
      ∀ e ∈ map.entries, ∀ id ∈ e.2, id < idx.ntotal := by
  induction batches using List.reverseRecOn with
  | nil =>
      refine ⟨rfl, fun map hmap ↦ ?_⟩
      obtain rfl := List.eq_of_mem_replicate hmap
      exact ⟨counted_nil _ b, fun e he ↦ absurd he List.not_mem_nil⟩
  | append_singleton batches batch ih =>
      rw [List.foldl_append]
      generalize batches.foldl add (new codeSize nhash b) = idx at ih ⊢
      obtain ⟨rfl, hcounted⟩ := ih
      exact ⟨rfl, counted_add batch hcounted⟩

end FaissNavix
