import FaissNavix.Invlists.Block

/-!
# Direct maps

`faiss/invlists/DirectMap.cpp`, and the functions of `faiss/IndexIVF.cpp` that keep a direct map in
step with the lists: `add_core`, `set_direct_map_type` and `remove_ids`.

A direct map gives, for an id, the list and the offset of its entry in one number (`lo_build`).
Each list number is an `idx_t` before it goes into such a number, so that `-1`, which stands for no
list, does as well.
-/

namespace FaissNavix

open Function

/-! ## `DirectMap` -/

/-- `DirectMap::Type` -/
inductive DirectMapType where
  | noMap
  | array
  | hashtable
deriving DecidableEq, Repr

structure DirectMap where
  type : DirectMapType
  array : List Idx
  hashtable : Idx → Option Idx

namespace DirectMap

/-- The constructor. -/
def new : DirectMap where
  type := .noMap
  array := []
  hashtable := fun _ ↦ none

/-- `get` -/
def get (dm : DirectMap) (key : Idx) : Except Fault Idx :=
  match dm.type with
  | .array => do
      Fault.throwIfNotMsg (decide (0 ≤ key.toInt) && decide (key.toInt < dm.array.length))
        "key >= 0 && key < array.size()" "invalid key"
      let lo := dm.array.getD key.toInt.toNat 0
      Fault.throwIfNotMsg (decide (0 ≤ lo.toInt)) "lo >= 0" "-1 entry in direct_map"
      return lo
  | .hashtable =>
      match dm.hashtable key with
      | some lo => .ok lo
      | none => .error (.exception "Error: '!(res != hashtable.end())' failed: key not found")
  | .noMap => .error (.exception "direct map not initialized")

/-- The entries of the lists in the order of the loops of `set_type`: the list, the offset and the
id. -/
def located (il : ArrayInvertedLists) : List (ℕ × ℕ × Idx) :=
  (List.range il.nlist).flatMap fun key ↦
    (il.lists key).zipIdx.map fun x ↦ (key, x.2, x.1.id)

/-- The loops of `set_type` for an array, up to an id that is out of range. -/
def fillArray (ntotal : ℕ) : List Idx → List (ℕ × ℕ × Idx) → List Idx × Except Fault Unit
  | array, [] => (array, .ok ())
  | array, (key, ofs, id) :: rest =>
      if 0 ≤ id.toInt ∧ id.toInt < ntotal then
        fillArray ntotal (array.set id.toInt.toNat (loOf key ofs)) rest
      else (array, Fault.throwIfNotMsg false "0 <= idlist[ofs] && idlist[ofs] < ntotal"
        "direct map supported only for seuquential ids")

/-- The loops of `set_type` for a hash table. -/
def fillHashtable (table : Idx → Option Idx) (entries : List (ℕ × ℕ × Idx)) : Idx → Option Idx :=
  entries.foldl (fun table x ↦ update table x.2.2 (some (loOf x.1 x.2.1))) table

/-- `set_type`: the map that it leaves, and whether it returns. -/
def setType (dm : DirectMap) (newType : DirectMapType) (il : ArrayInvertedLists) (ntotal : ℕ) :
    DirectMap × Except Fault Unit :=
  if newType = dm.type then (dm, .ok ())
  else
    match newType with
    | .noMap => (new, .ok ())
    | .array =>
        let (array, result) := fillArray ntotal (List.replicate ntotal (-1)) (located il)
        ({ new with type := .array, array }, result)
    | .hashtable =>
        ({ new with type := .hashtable, hashtable := fillHashtable new.hashtable (located il) }, .ok ())

/-- `check_can_add` -/
def checkCanAdd (dm : DirectMap) (ids : Option (List Idx)) : Except Fault Unit :=
  if dm.type = .array ∧ ids.isSome then
    .error (.exception "cannot have array direct map and add with ids")
  else .ok ()

end DirectMap

/-! ## `DirectMapAdd` -/

/-- `DirectMapAdd`, with the map it refers to. -/
structure DirectMapAdd where
  directMap : DirectMap
  ntotal : ℕ
  n : ℕ
  xids : Option (List Idx)
  allOfs : List Idx

namespace DirectMapAdd

/-- The constructor.  Only for an array is `ntotal` set: otherwise it is `junk`, what the memory
happens to hold. -/
def new (dm : DirectMap) (n : ℕ) (xids : Option (List Idx)) (junk : ℕ) :
    Except Fault DirectMapAdd :=
  match dm.type with
  | .array => do
      Fault.throwIfNot xids.isNone "xids == nullptr"
      return ⟨{ dm with array := dm.array ++ List.replicate n (-1) }, dm.array.length, n, xids, []⟩
  | .hashtable => .ok ⟨dm, junk, n, xids, List.replicate n (-1)⟩
  | .noMap => .ok ⟨dm, junk, n, xids, []⟩

/-- `add` -/
def add (a : DirectMapAdd) (i : ℕ) (listNo : ℤ) (ofs : ℕ) : DirectMapAdd :=
  match a.directMap.type with
  | .array => { a with directMap := { a.directMap with
      array := a.directMap.array.set (a.ntotal + i) (loOf listNo ofs) } }
  | .hashtable => { a with allOfs := a.allOfs.set i (loOf listNo ofs) }
  | .noMap => a

/-- The id that the destructor takes vector `i` to have. -/
def id (a : DirectMapAdd) (i : ℕ) : Idx :=
  match a.xids with
  | some xids => xids.getD i 0
  | none => Int64.ofNat (a.ntotal + i)

/-- The destructor: the map that it leaves. -/
def finish (a : DirectMapAdd) : DirectMap :=
  match a.directMap.type with
  | .hashtable => { a.directMap with
      hashtable := (List.range a.n).foldl
        (fun table i ↦ update table (a.id i) (some (a.allOfs.getD i 0))) a.directMap.hashtable }
  | _ => a.directMap

end DirectMapAdd

/-! ## `DirectMap::remove_ids` -/

namespace ArrayInvertedLists

/-- `get_single_id` and `get_single_code` -/
def getSingle (il : ArrayInvertedLists) (listNo offset : ℕ) : Except Fault Entry :=
  match (il.lists listNo)[offset]? with
  | some e => .ok e
  | none => .error (.assertion "offset < list_size(list_no)")

/-- The loop of `remove_ids` over a list when there is no map, where `l` is the size that is
left. -/
def removeLoop (il : ArrayInvertedLists) (sel : IDSelector) (i j l : ℕ) :
    Except Fault (ArrayInvertedLists × ℕ) :=
  if j < l then
    if sel.isMember ((il.lists i).getD j (blank il.codeSize)).id then
      match il.getSingle i (l - 1) with
      | .ok e =>
          match il.updateEntries i j [e] with
          | .ok il => removeLoop il sel i j (l - 1)
          | .error e => .error e
      | .error e => .error e
    else removeLoop il sel i (j + 1) l
  else .ok (il, l)
termination_by l - j

/-- One turn of the first loop over the lists, on the lists and `toremove`. -/
def removeStep (sel : IDSelector) (s : ArrayInvertedLists × (ℕ → ℕ)) (i : ℕ) :
    Except Fault (ArrayInvertedLists × (ℕ → ℕ)) := do
  let l0 := s.1.listSize i
  let (il, l) ← s.1.removeLoop sel i 0 l0
  return (il, update s.2 i (l0 - l))

def removeAll (il : ArrayInvertedLists) (sel : IDSelector) :
    Except Fault (ArrayInvertedLists × (ℕ → ℕ)) :=
  (List.range il.nlist).foldlM (removeStep sel) (il, fun _ ↦ 0)

/-- One turn of the second loop over the lists, on the lists and `nremove`. -/
def shrinkStep (toremove : ℕ → ℕ) (s : ArrayInvertedLists × ℕ) (i : ℕ) : ArrayInvertedLists × ℕ :=
  if 0 < toremove i then
    (s.1.resize i (s.1.listSize i - toremove i), s.2 + toremove i)
  else s

end ArrayInvertedLists

namespace DirectMap

/-- One turn of the loop of `remove_ids` over the ids, on `nremove`, the hash table and the
lists. -/
def removeOne (s : ℕ × (Idx → Option Idx) × ArrayInvertedLists) (id : Idx) :
    Except Fault (ℕ × (Idx → Option Idx) × ArrayInvertedLists) :=
  match s.2.1 id with
  | none => .ok s
  | some lo => do
      let il := s.2.2
      let listNo := (loListno lo.toUInt64).toNat
      let offset := (loOffset lo.toUInt64).toNat
      Fault.assert (decide (listNo < il.nlist)) "list_no < nlist"
      -- the size of an empty list less one is the largest `size_t`, and there is no such entry
      Fault.assert (decide (0 < il.listSize listNo)) "offset < list_size(list_no)"
      let last := il.listSize listNo - 1
      let table := update s.2.1 id none
      if offset < last then
        let e ← il.getSingle listNo last
        let il ← il.updateEntries listNo offset [e]
        return (s.1 + 1, update table e.id (some (loOf listNo offset)), il.resize listNo last)
      else
        return (s.1 + 1, table, il.resize listNo last)

/-- `remove_ids`, when the lists are no `BlockInvertedLists`. -/
def removeIds (dm : DirectMap) (sel : IDSelector) (il : ArrayInvertedLists) :
    Except Fault (ℕ × DirectMap × ArrayInvertedLists) :=
  match dm.type with
  | .noMap => do
      let (il, toremove) ← il.removeAll sel
      let (il, nremove) := (List.range il.nlist).foldl (ArrayInvertedLists.shrinkStep toremove) (il, 0)
      return (nremove, dm, il)
  | .hashtable =>
      match sel with
      | .array ids => do
          let (nremove, hashtable, il) ← ids.foldlM removeOne (0, dm.hashtable, il)
          return (nremove, { dm with hashtable }, il)
      | _ => .error (.exception
          "Error: '!(sela)' failed: remove with hashtable works only with IDSelectorArray")
  | .array => .error (.exception "remove not supported with this direct_map format")

/-- `remove_ids`, when the lists are `BlockInvertedLists`. -/
def removeIdsBlock (dm : DirectMap) (sel : IDSelector) (il : BlockInvertedLists) :
    Except Fault (ℕ × DirectMap × BlockInvertedLists) :=
  match dm.type with
  | .noMap => .ok ((il.removeIds sel).2, dm, (il.removeIds sel).1)
  | .hashtable => .error (.exception
      "Error: 'block_invlists' failed: remove with hashtable is not supported with BlockInvertedLists")
  | .array => .error (.exception "remove not supported with this direct_map format")

end DirectMap

/-! ## `IndexIVF` -/

/-- `IndexIVF`, over lists of some kind. -/
structure IndexIVF (L : Type) where
  isTrained : Bool
  ntotal : ℤ
  directMap : DirectMap
  invlists : L

namespace IndexIVF

/-- `remove_ids` -/
def removeIds (ivf : IndexIVF ArrayInvertedLists) (sel : IDSelector) :
    Except Fault (ℕ × IndexIVF ArrayInvertedLists) := do
  let (nremove, directMap, invlists) ← ivf.directMap.removeIds sel ivf.invlists
  return (nremove, { ivf with directMap, invlists, ntotal := ivf.ntotal - nremove })

/-- `remove_ids`, when the lists are `BlockInvertedLists`. -/
def removeIdsBlock (ivf : IndexIVF BlockInvertedLists) (sel : IDSelector) :
    Except Fault (ℕ × IndexIVF BlockInvertedLists) := do
  let (nremove, directMap, invlists) ← ivf.directMap.removeIdsBlock sel ivf.invlists
  return (nremove, { ivf with directMap, invlists, ntotal := ivf.ntotal - nremove })

/-- `set_direct_map_type`: the index that it leaves, and whether it returns. -/
def setDirectMapType (ivf : IndexIVF ArrayInvertedLists) (type : DirectMapType) :
    IndexIVF ArrayInvertedLists × Except Fault Unit :=
  let (directMap, result) := ivf.directMap.setType type ivf.invlists ivf.ntotal.toNat
  ({ ivf with directMap }, result)

/-- A vector to add: its coarse assignment and the code it is encoded to. -/
structure Assigned where
  listNo : ℤ
  code : List UInt8

/-- The id that `add_core` gives vector `i`. -/
def newId (ntotal : ℤ) (xids : Option (List Idx)) (i : ℕ) : Idx :=
  match xids with
  | some xids => xids.getD i 0
  | none => Int64.ofInt (ntotal + i)

/-- A thread of `add_core` gets to vector `i`, on the lists and on the map. -/
def addVector (id : ℕ → Idx) (vectors : List Assigned) (s : ArrayInvertedLists × DirectMapAdd)
    (i : ℕ) : ArrayInvertedLists × DirectMapAdd :=
  match vectors[i]? with
  | none => s
  | some v =>
      if 0 ≤ v.listNo then
        let (il, ofs) := s.1.addEntries v.listNo.toNat [⟨id i, v.code⟩]
        (il, s.2.add i v.listNo ofs)
      else if v.listNo = -1 then (s.1, s.2.add i (-1) 0)
      else s

/-- `add_core` on at most 65536 vectors.  Each thread takes care of some of the lists, so that
`order` is the order in which the threads get to the vectors. -/
def addBlock (ivf : IndexIVF ArrayInvertedLists) (vectors : List Assigned)
    (xids : Option (List Idx)) (order : List ℕ) (junk : ℕ) :
    Except Fault (IndexIVF ArrayInvertedLists) := do
  Fault.throwIfNot ivf.isTrained "is_trained"
  ivf.directMap.checkCanAdd xids
  let adder ← DirectMapAdd.new ivf.directMap vectors.length xids junk
  let (invlists, adder) :=
    order.foldl (addVector (newId ivf.ntotal xids) vectors) (ivf.invlists, adder)
  return { ivf with invlists, directMap := adder.finish, ntotal := ivf.ntotal + vectors.length }

end IndexIVF

end FaissNavix
