import FaissNavix.Float32
import FaissNavix.Invlists.InvertedLists
import FaissNavix.Lib.Scatter
import Mathlib.Data.List.ReduceOption

/-!
# Merging partial range search results

`RangeSearchResult`, `BufferList` and `RangeSearchPartialResult` of
`faiss/impl/AuxIndexStructures.cpp`.  The tables `labels` and `distances`, and `ids` and `dis` of a
buffer, are one table of pairs, in which a cell that was not written yet is `none`.

A partial result keeps what was added, seen as linear data over its buffers, and cuts it at the
results that were begun.  Copying it to the tables is a scatter of these pieces over the rows of
the queries, with `lims` as the cursors.
-/

namespace FaissNavix

open Function
open Lib (read write row scatter Scattered RoomFor)

/-- A cell of the tables: the distance and the id. -/
abbrev Cell := Option (F32 × ℤ)

/-! ## `RangeSearchResult` -/

structure RangeSearchResult where
  nq : ℕ
  lims : ℕ → ℕ
  /-- `labels` and `distances`, or `none` for null pointers. -/
  labels : Option (ℕ → Cell)
  bufferSize : ℕ

namespace RangeSearchResult

/-- The constructor, and the size given to the buffers. -/
def new (nq bufferSize : ℕ) : RangeSearchResult where
  nq := nq
  lims := fun _ ↦ 0
  labels := none
  bufferSize := bufferSize

/-- One turn of the loop of `do_allocation`, on `lims` and `ofs`. -/
def allocationStep (s : (ℕ → ℕ) × ℕ) (i : ℕ) : (ℕ → ℕ) × ℕ :=
  (update s.1 i s.2, s.2 + s.1 i)

/-- `do_allocation` -/
def doAllocation (res : RangeSearchResult) : Except Fault RangeSearchResult := do
  Fault.throwIfNot res.labels.isNone "labels == nullptr && distances == nullptr"
  let (lims, ofs) := (List.range res.nq).foldl allocationStep (res.lims, 0)
  return { res with lims := update lims res.nq ofs, labels := some fun _ ↦ none }

/-- The tables, which are not read where they are null. -/
def table (res : RangeSearchResult) : ℕ → Cell :=
  res.labels.getD fun _ ↦ none

/-- `labels[lims[q]:lims[q+1]]` and the distances beside them. -/
def slice (res : RangeSearchResult) (q : ℕ) : List Cell :=
  read res.table (res.lims q) (res.lims (q + 1) - res.lims q)

end RangeSearchResult

/-! ## `BufferList` -/

structure BufferList where
  bufferSize : ℕ
  /-- `ids` and `dis` of the buffers. -/
  buffers : List (ℕ → Cell)
  wp : ℕ

namespace BufferList

/-- The constructor. -/
def new (bufferSize : ℕ) : BufferList where
  bufferSize := bufferSize
  buffers := []
  wp := bufferSize

/-- `append_buffer` -/
def appendBuffer (b : BufferList) : BufferList :=
  { b with buffers := b.buffers ++ [fun _ ↦ none], wp := 0 }

/-- The end of `add`: a write to the last buffer. -/
def store (b : BufferList) (id : ℤ) (dis : F32) : BufferList :=
  { b with
    buffers := b.buffers.modify (b.buffers.length - 1) fun buf ↦ update buf b.wp (some (dis, id))
    wp := b.wp + 1 }

/-- `add` -/
def add (b : BufferList) (id : ℤ) (dis : F32) : BufferList :=
  if b.wp = b.bufferSize then b.appendBuffer.store id dis else b.store id dis

/-- The loop of `copy_range`. -/
def copyLoop (b : BufferList) (hb : 0 < b.bufferSize) (bno : ℕ) (ofs : Fin b.bufferSize)
    (n : ℕ) (table : ℕ → Cell) (dest : ℕ) : ℕ → Cell :=
  if 0 < n then
    let ncopy := if ofs + n < b.bufferSize then n else b.bufferSize - ofs
    let buf := b.buffers.getD bno fun _ ↦ none
    b.copyLoop hb (bno + 1) ⟨0, hb⟩ (n - ncopy) (write table dest (read buf ofs ncopy))
      (dest + ncopy)
  else table
termination_by n
decreasing_by
  have := ofs.isLt
  split <;> omega

/-- `copy_range`, to the tables from position `dest` on. -/
def copyRange (b : BufferList) (ofs n : ℕ) (table : ℕ → Cell) (dest : ℕ) :
    Except Fault (ℕ → Cell) :=
  if hb : 0 < b.bufferSize then
    .ok (b.copyLoop hb (ofs / b.bufferSize) ⟨ofs % b.bufferSize, Nat.mod_lt _ hb⟩ n table dest)
  else .error .divisionByZero

end BufferList

/-! ## `RangeSearchPartialResult` -/

structure RangeQueryResult where
  qno : ℕ
  nres : ℕ

structure RangeSearchPartialResult extends BufferList where
  queries : List RangeQueryResult

namespace RangeSearchPartialResult

section
variable (pres : RangeSearchPartialResult) (incremental : Bool)

def new (bufferSize : ℕ) : RangeSearchPartialResult :=
  { BufferList.new bufferSize with queries := [] }

/-- `new_result` -/
def newResult (qno : ℕ) : RangeSearchPartialResult :=
  { pres with queries := pres.queries ++ [⟨qno, 0⟩] }

/-- `RangeQueryResult::add`, on the reference that `new_result` returned last.  There is no result
to add to before the first call of `new_result`. -/
def addResult (dis : F32) (id : ℤ) : RangeSearchPartialResult :=
  if pres.queries = [] then pres
  else
    { pres with
      toBufferList := pres.toBufferList.add id dis
      queries := pres.queries.modify (pres.queries.length - 1) fun q ↦ { q with nres := q.nres + 1 } }

/-- One turn of the loop of `copy_result`, on the tables, `lims` and `ofs`. -/
def copyStep (s : ((ℕ → Cell) × (ℕ → ℕ)) × ℕ) (qres : RangeQueryResult) :
    Except Fault (((ℕ → Cell) × (ℕ → ℕ)) × ℕ) := do
  let table ← pres.copyRange s.2 qres.nres s.1.1 (s.1.2 qres.qno)
  let lims := if incremental then update s.1.2 qres.qno (s.1.2 qres.qno + qres.nres) else s.1.2
  return ((table, lims), s.2 + qres.nres)

/-- `copy_result` -/
def copyResult (res : RangeSearchResult) :
    Except Fault RangeSearchResult := do
  let s ← pres.queries.foldlM (pres.copyStep incremental) ((res.table, res.lims), 0)
  return { res with labels := some s.1.1, lims := s.1.2 }

/-- The counting loop of `merge`, for one partial result. -/
def countInto (lims : ℕ → ℕ) : ℕ → ℕ :=
  pres.queries.foldl (fun lims q ↦ update lims q.qno (lims q.qno + q.nres)) lims

end

/-- The last loop of `merge`, and what follows it. -/
def resetLims (nx : ℕ) (lims : ℕ → ℕ) : ℕ → ℕ :=
  update ((List.range nx).reverse.foldl (fun lims i ↦ update lims (i + 1) (lims i)) lims) 0 0

/-- `merge`, on the partial results of `result`, of which those that are `none` are null pointers.
The result is that of the first one: `none` where this is a null pointer. -/
def merge (result : RangeSearchResult) :
    List (Option RangeSearchPartialResult) → Option (Except Fault RangeSearchResult)
  | [] => some (.ok result)
  | none :: _ => none
  | some pres :: rest => some do
      let partials := pres :: rest.reduceOption
      let lims := partials.foldl (fun lims pres ↦ pres.countInto lims) result.lims
      let result ← { result with lims }.doAllocation
      let result ← partials.foldlM (fun result pres ↦ pres.copyResult true result) result
      return { result with lims := resetLims result.nq result.lims }

/-- A call on a partial result, or on the result it has begun last. -/
inductive Call (nq : ℕ) where
  | newResult (qno : Fin nq)
  | add (dis : F32) (id : ℤ)

/-- A partial result after the calls. -/
def calls {nq : ℕ} (pres : RangeSearchPartialResult) (cs : List (Call nq)) :
    RangeSearchPartialResult :=
  cs.foldl (fun pres c ↦ match c with
    | .newResult qno => pres.newResult qno
    | .add dis id => pres.addResult dis id) pres

/-- The pairs that the calls add for query `q`, where `cur` is the query of the result begun
last. -/
def added {nq : ℕ} (q : ℕ) : Option ℕ → List (Call nq) → List (F32 × ℤ)
  | _, [] => []
  | _, .newResult qno :: cs => added q (some qno) cs
  | cur, .add dis id :: cs =>
      if cur = some q then (dis, id) :: added q cur cs else added q cur cs

end RangeSearchPartialResult

/-! ## What a buffer list holds -/

namespace BufferList

variable {b : BufferList} {data : List (F32 × ℤ)}

def linear (b : BufferList) (p : ℕ) : Cell :=
  b.buffers.getD (p / b.bufferSize) (fun _ ↦ none) (p % b.bufferSize)

/-- The buffers hold `data`, and the next entry goes behind it. -/
structure Has (b : BufferList) (data : List (F32 × ℤ)) : Prop where
  pos : 0 < b.bufferSize
  wp_le : b.wp ≤ b.bufferSize
  size : data.length + b.bufferSize = b.bufferSize * b.buffers.length + b.wp
  read_linear : read b.linear 0 data.length = data.map some

theorem has_new {bufferSize : ℕ} (h : 0 < bufferSize) : (new bufferSize).Has [] where
  pos := h
  wp_le := le_rfl
  size := rfl
  read_linear := rfl

theorem Has.read_eq (h : b.Has data) {ofs n : ℕ} (hn : ofs + n ≤ data.length) :
    read b.linear ofs n = ((data.drop ofs).take n).map some := by
  have := Lib.drop_take_read b.linear (o := 0) hn
  rw [Nat.zero_add] at this
  rw [← this, h.read_linear, List.map_take, List.map_drop]

theorem Has.appendBuffer (h : b.Has data) (hwp : b.wp = b.bufferSize) :
    b.appendBuffer.Has data := by
  have hsize := h.size
  refine ⟨h.pos, Nat.zero_le _, ?_, ?_⟩
  · change data.length + b.bufferSize =
      b.bufferSize * (b.buffers ++ [fun _ ↦ none]).length + 0
    rw [List.length_append, List.length_singleton, Nat.mul_add]
    omega
  · rw [← h.read_linear]
    refine Lib.read_congr fun i hi ↦ ?_
    have hlt : (0 + i) / b.bufferSize < b.buffers.length := Nat.div_lt_of_lt_mul (by omega)
    exact congrFun (List.getD_append b.buffers _ _ _ hlt) _

theorem Has.position (h : b.Has data) (hwp : b.wp < b.bufferSize) :
    data.length / b.bufferSize = b.buffers.length - 1 ∧ data.length % b.bufferSize = b.wp ∧
      b.buffers.length - 1 < b.buffers.length := by
  have hsize := h.size
  cases hlen : b.buffers.length with
  | zero =>
      rw [hlen, Nat.mul_zero] at hsize
      omega
  | succ m =>
      rw [hlen, Nat.mul_succ] at hsize
      have hdata : data.length = b.bufferSize * m + b.wp := by omega
      refine ⟨?_, ?_, by omega⟩
      · rw [hdata, Nat.mul_add_div h.pos, Nat.div_eq_of_lt hwp, Nat.add_zero, Nat.add_sub_cancel]
      · rw [hdata, Nat.mul_add_mod, Nat.mod_eq_of_lt hwp]

/-- An entry is put behind the data. -/
theorem Has.store (h : b.Has data) (hwp : b.wp < b.bufferSize) (id : ℤ) (dis : F32) :
    (b.store id dis).Has (data ++ [(dis, id)]) := by
  obtain ⟨hdiv, hmod, hlast⟩ := h.position hwp
  have hcell : ∀ p, (b.store id dis).linear p =
      if p = data.length then some (dis, id) else b.linear p := by
    intro p
    change (b.buffers.modify (b.buffers.length - 1) _).getD (p / b.bufferSize) _
      (p % b.bufferSize) = _
    rw [List.getD_eq_getElem?_getD, List.getElem?_modify]
    by_cases hp : b.buffers.length - 1 = p / b.bufferSize
    · simp only [if_pos hp]
      rw [← hp, List.getElem?_eq_getElem hlast]
      change update (b.buffers[b.buffers.length - 1]) b.wp (some (dis, id)) (p % b.bufferSize) = _
      by_cases hp' : p % b.bufferSize = b.wp
      · have hpos : p = data.length := by
          rw [← Nat.div_add_mod p b.bufferSize, ← hp, hp', ← hdiv, ← hmod, Nat.div_add_mod]
        rw [hp', update_self, if_pos hpos]
      · have hpos : p ≠ data.length := fun heq ↦ hp' (by rw [heq, hmod])
        rw [update_of_ne hp', if_neg hpos, linear, List.getD_eq_getElem?_getD, ← hp,
          List.getElem?_eq_getElem hlast]
        rfl
    · have hpos : p ≠ data.length := fun heq ↦ hp (by rw [heq, hdiv])
      simp only [if_neg hp]
      rw [if_neg hpos, linear, List.getD_eq_getElem?_getD]
      cases b.buffers[p / b.bufferSize]? with
      | none => rfl
      | some buf => rfl
  refine ⟨h.pos, hwp, ?_, ?_⟩
  · have := h.size
    change (data ++ [(dis, id)]).length + b.bufferSize =
      b.bufferSize * (b.buffers.modify _ _).length + (b.wp + 1)
    rw [List.length_modify, List.length_append, List.length_singleton]
    omega
  · rw [List.length_append, List.length_singleton, Lib.read_add, List.map_append]
    congr 1
    · rw [← h.read_linear]
      refine Lib.read_congr fun i hi ↦ ?_
      rw [hcell, if_neg (by omega)]
    · change [(b.store id dis).linear (0 + data.length + 0)] = _
      rw [hcell, if_pos (by omega)]
      rfl

theorem Has.add (h : b.Has data) (id : ℤ) (dis : F32) :
    (b.add id dis).Has (data ++ [(dis, id)]) := by
  unfold BufferList.add
  split
  · rename_i hwp
    exact (h.appendBuffer hwp).store h.pos id dis
  · rename_i hwp
    exact h.store (lt_of_le_of_ne h.wp_le hwp) id dis

theorem read_buffer (hb : 0 < b.bufferSize) (bno : ℕ) {ofs k : ℕ} (hk : ofs + k ≤ b.bufferSize) :
    read (b.buffers.getD bno fun _ ↦ none) ofs k =
      read b.linear (b.bufferSize * bno + ofs) k := by
  refine List.map_congr_left fun i hi ↦ ?_
  have hlt : ofs + i < b.bufferSize := by
    have := List.mem_range.mp hi
    omega
  rw [linear, Nat.add_assoc, Nat.mul_add_div hb, Nat.div_eq_of_lt hlt, Nat.add_zero,
    Nat.mul_add_mod, Nat.mod_eq_of_lt hlt]

/-- The loop of `copy_range` copies linear data, whatever buffers it is in. -/
theorem copyLoop_eq (hb : 0 < b.bufferSize) (bno : ℕ) (ofs : Fin b.bufferSize) (n : ℕ)
    (table : ℕ → Cell) (dest : ℕ) :
    b.copyLoop hb bno ofs n table dest =
      write table dest (read b.linear (b.bufferSize * bno + ofs) n) := by
  induction n using Nat.strongRecOn generalizing bno ofs table dest with
  | ind n ih =>
      have hofs := ofs.isLt
      rw [copyLoop]
      by_cases hn : 0 < n
      · rw [if_pos hn]
        by_cases hlt : ofs + n < b.bufferSize
        · simp only [if_pos hlt, Nat.sub_self]
          rw [copyLoop, if_neg (lt_irrefl 0), read_buffer hb bno hlt.le]
        · -- the rest of this buffer, and then the buffers behind it
          simp only [if_neg hlt]
          obtain ⟨k, hk⟩ : ∃ k, n = (b.bufferSize - ofs) + k := ⟨n - (b.bufferSize - ofs), by omega⟩
          have hk' : n - (b.bufferSize - ofs) = k := by omega
          have hnext : b.bufferSize * bno + ofs + (b.bufferSize - ofs) =
              b.bufferSize * (bno + 1) := by
            rw [Nat.mul_succ]
            omega
          rw [hk', ih k (by omega), read_buffer hb bno (by omega), hk, Lib.read_add,
            ← Lib.write_append, Lib.length_read, hnext]
          rfl
      · rw [if_neg hn, Nat.eq_zero_of_not_pos hn]
        exact (Lib.write_nil table dest).symm

theorem Has.copyRange (h : b.Has data) {ofs n : ℕ} (hn : ofs + n ≤ data.length)
    (table : ℕ → Cell) (dest : ℕ) :
    b.copyRange ofs n table dest =
      .ok (write table dest (((data.drop ofs).take n).map some)) := by
  rw [BufferList.copyRange, dif_pos h.pos, copyLoop_eq, ← h.read_eq hn]
  congr 3
  exact Nat.div_add_mod ofs b.bufferSize

end BufferList

/-! ## What a partial result holds -/

namespace RangeSearchPartialResult

variable {pres : RangeSearchPartialResult} {pieces : List (ℕ × List (F32 × ℤ))} {nq : ℕ}

/-- The buffers hold the pieces, one behind the other, and the results begun are these pieces. -/
structure Stores (pres : RangeSearchPartialResult) (pieces : List (ℕ × List (F32 × ℤ))) :
    Prop where
  queries : pres.queries = pieces.map fun p ↦ ⟨p.1, p.2.length⟩
  has : pres.toBufferList.Has (pieces.flatMap Prod.snd)

theorem stores_new {bufferSize : ℕ} (h : 0 < bufferSize) : (new bufferSize).Stores [] :=
  ⟨rfl, BufferList.has_new h⟩

theorem Stores.newResult (h : pres.Stores pieces) (qno : ℕ) :
    (pres.newResult qno).Stores (pieces ++ [(qno, [])]) where
  queries := by
    change pres.queries ++ [⟨qno, 0⟩] = _
    rw [h.queries, List.map_append]
    rfl
  has := by
    have hnil : (pieces ++ [(qno, [])]).flatMap Prod.snd = pieces.flatMap Prod.snd := by
      rw [List.flatMap_append]
      exact List.append_nil _
    rw [hnil]
    exact h.has

theorem Stores.addResult {q : ℕ} {xs : List (F32 × ℤ)} (h : pres.Stores (pieces ++ [(q, xs)]))
    (dis : F32) (id : ℤ) :
    (pres.addResult dis id).Stores (pieces ++ [(q, xs ++ [(dis, id)])]) := by
  have hqueries : pres.queries = pieces.map (fun p ↦ ⟨p.1, p.2.length⟩) ++ [⟨q, xs.length⟩] := by
    rw [h.queries, List.map_append]
    rfl
  have hne : pres.queries ≠ [] := by
    rw [hqueries]
    exact List.append_ne_nil_of_right_ne_nil _ (List.cons_ne_nil _ _)
  rw [RangeSearchPartialResult.addResult, if_neg hne]
  refine ⟨?_, ?_⟩
  · change pres.queries.modify (pres.queries.length - 1) _ = _
    rw [hqueries, List.length_append, List.length_singleton, Nat.add_sub_cancel, List.map_append]
    refine List.ext_getElem? fun j ↦ ?_
    rw [List.getElem?_modify]
    rcases lt_trichotomy j (pieces.map fun p : ℕ × List (F32 × ℤ) ↦
      (⟨p.1, p.2.length⟩ : RangeQueryResult)).length with hj | rfl | hj
    · rw [List.getElem?_append_left hj, List.getElem?_append_left hj]
      simp only [if_neg hj.ne', id_map']
    · simp
    · rw [List.getElem?_append_right hj.le, List.getElem?_append_right hj.le,
        List.getElem?_eq_none (by rw [List.length_singleton]; omega),
        List.getElem?_eq_none (by rw [List.map_singleton, List.length_singleton]; omega)]
      rfl
  · have := h.has.add id dis
    rw [List.flatMap_append] at this ⊢
    simpa using this

def current (pieces : List (ℕ × List (F32 × ℤ))) : Option ℕ :=
  pieces.getLast?.map Prod.fst

/-- Any calls: each row of the pieces has been extended with what was added for its query. -/
theorem Stores.calls (h : pres.Stores pieces) (hq : ∀ p ∈ pieces, p.1 < nq) (cs : List (Call nq)) :
    ∃ pieces', (pres.calls cs).Stores pieces' ∧ (∀ p ∈ pieces', p.1 < nq) ∧
      ∀ q, row pieces' q = row pieces q ++ added q (current pieces) cs := by
  induction cs generalizing pres pieces with
  | nil => exact ⟨pieces, h, hq, fun q ↦ (List.append_nil _).symm⟩
  | cons c cs ih =>
      cases c with
      | newResult qno =>
          have hq' : ∀ p ∈ pieces ++ [(qno.val, [])], p.1 < nq := by
            intro p hp
            rcases List.mem_append.mp hp with hp | hp
            · exact hq p hp
            · rw [List.mem_singleton.mp hp]
              exact qno.isLt
          obtain ⟨pieces', hstores, hlt, hrow⟩ := ih (h.newResult qno) hq'
          refine ⟨pieces', hstores, hlt, fun q ↦ ?_⟩
          rw [hrow, Lib.row_append, Lib.row_singleton, ite_self, List.append_nil, added, current,
            List.getLast?_concat]
          rfl
      | add dis id =>
          rcases pieces.eq_nil_or_concat' with rfl | ⟨init, last, rfl⟩
          · have hnil : pres.addResult dis id = pres := if_pos h.queries
            obtain ⟨pieces', hstores, hlt, hrow⟩ := ih h hq
            refine ⟨pieces', ?_, hlt, fun q ↦ ?_⟩
            · change ((pres.addResult dis id).calls cs).Stores pieces'
              rw [hnil]
              exact hstores
            · rw [hrow, added, if_neg (by rw [current]; exact fun h ↦ by cases h)]
          · obtain ⟨r, xs⟩ := last
            have hq' : ∀ p ∈ init ++ [(r, xs ++ [(dis, id)])], p.1 < nq := by
              intro p hp
              rcases List.mem_append.mp hp with hp | hp
              · exact hq p (List.mem_append_left _ hp)
              · rw [List.mem_singleton.mp hp]
                exact hq (r, xs) (List.mem_append_right _ (List.mem_singleton_self _))
            obtain ⟨pieces', hstores, hlt, hrow⟩ := ih (h.addResult dis id) hq'
            refine ⟨pieces', hstores, hlt, fun q ↦ ?_⟩
            have hcur : ∀ ys, current (init ++ [(r, ys)]) = some r := fun ys ↦ by
              rw [current, List.getLast?_concat]
              rfl
            rw [hrow, hcur, hcur, added, Lib.row_append, Lib.row_append, Lib.row_singleton,
              Lib.row_singleton]
            by_cases hr : r = q
            · rw [if_pos hr, if_pos hr, if_pos (congrArg some hr)]
              simp
            · rw [if_neg hr, if_neg hr, if_neg fun h ↦ hr (Option.some.inj h)]

/-! ## Copying and counting -/

def cells (p : ℕ × List (F32 × ℤ)) : ℕ × List Cell :=
  (p.1, p.2.map some)

theorem row_map_cells (pieces : List (ℕ × List (F32 × ℤ))) (q : ℕ) :
    row (pieces.map cells) q = (row pieces q).map some := by
  induction pieces with
  | nil => rfl
  | cons p pieces ih =>
      rw [List.map_cons, Lib.row_cons, Lib.row_cons, List.map_append, ih]
      congr 1
      change (if p.1 = q then p.2.map some else []) = _
      split <;> rfl

/-- The loop of `copy_result` from one of the results on. -/
theorem foldlM_copyStep (done rest : List (ℕ × List (F32 × ℤ)))
    (h : pres.toBufferList.Has ((done ++ rest).flatMap Prod.snd)) (s : (ℕ → Cell) × (ℕ → ℕ)) :
    (rest.map fun p ↦ (⟨p.1, p.2.length⟩ : RangeQueryResult)).foldlM (pres.copyStep true)
        (s, (done.flatMap Prod.snd).length) =
      .ok (scatter s (rest.map cells), ((done ++ rest).flatMap Prod.snd).length) := by
  induction rest generalizing done s with
  | nil =>
      rw [List.append_nil]
      rfl
  | cons p rest ih =>
      have hdata : (done ++ p :: rest).flatMap Prod.snd =
          done.flatMap Prod.snd ++ (p.2 ++ rest.flatMap Prod.snd) := by
        rw [List.flatMap_append, List.flatMap_cons]
      have hroom : (done.flatMap Prod.snd).length + p.2.length ≤
          ((done ++ p :: rest).flatMap Prod.snd).length := by
        rw [hdata, List.length_append, List.length_append]
        omega
      have hcopy := h.copyRange hroom s.1 (s.2 p.1)
      rw [hdata, List.drop_left, List.take_left] at hcopy
      have hstep : pres.copyStep true (s, (done.flatMap Prod.snd).length) ⟨p.1, p.2.length⟩ =
          .ok (Lib.scatterPiece s (cells p), ((done ++ [p]).flatMap Prod.snd).length) := by
        rw [copyStep, hcopy, List.flatMap_append, List.flatMap_singleton, List.length_append,
          Lib.scatterPiece, cells, List.length_map]
        rfl
      rw [List.append_cons] at h ⊢
      rw [List.map_cons, List.foldlM_cons, hstep]
      exact ih _ h _

theorem Stores.copyResult (h : pres.Stores pieces) (res : RangeSearchResult) :
    pres.copyResult true res = .ok { res with
      labels := some (scatter (res.table, res.lims) (pieces.map cells)).1
      lims := (scatter (res.table, res.lims) (pieces.map cells)).2 } := by
  have hfold := foldlM_copyStep [] pieces h.has (res.table, res.lims)
  rw [← h.queries] at hfold
  rw [RangeSearchPartialResult.copyResult]
  change (pres.queries.foldlM (pres.copyStep true) ((res.table, res.lims),
    (([] : List (ℕ × List (F32 × ℤ))).flatMap Prod.snd).length) >>= _) = _
  rw [hfold]
  rfl

theorem Stores.countInto (h : pres.Stores pieces) (lims : ℕ → ℕ) (q : ℕ) :
    pres.countInto lims q = lims q + (row pieces q).length := by
  rw [RangeSearchPartialResult.countInto, h.queries, List.foldl_map]
  clear h
  induction pieces generalizing lims with
  | nil => rfl
  | cons p pieces ih =>
      rw [List.foldl_cons, ih, Lib.row_cons, List.length_append, ← Nat.add_assoc]
      congr 1
      by_cases hp : p.1 = q
      · rw [if_pos hp, hp, update_self]
      · rw [if_neg hp, update_of_ne (Ne.symm hp)]
        rfl

section
variable {partials : List RangeSearchPartialResult} {piecess : List (List (ℕ × List (F32 × ℤ)))}
  (h : List.Forall₂ Stores partials piecess)
include h

theorem foldl_countInto (lims : ℕ → ℕ) (q : ℕ) :
    partials.foldl (fun lims pres ↦ pres.countInto lims) lims q =
      lims q + (row piecess.flatten q).length := by
  induction h generalizing lims with
  | nil => rfl
  | cons hp _ ih =>
      rw [List.foldl_cons, ih, hp.countInto, List.flatten_cons, Lib.row_append,
        List.length_append, Nat.add_assoc]

theorem foldlM_copyResult (res : RangeSearchResult) :
    ∃ res', partials.foldlM (fun res pres ↦ pres.copyResult true res) res = .ok res' ∧
      res'.nq = res.nq ∧
      (res'.table, res'.lims) = scatter (res.table, res.lims) (piecess.flatten.map cells) := by
  induction h generalizing res with
  | nil => exact ⟨res, rfl, rfl, rfl⟩
  | cons hp _ ih =>
      rw [List.foldlM_cons, hp.copyResult]
      obtain ⟨res', hres', hnq, hscatter⟩ := ih { res with
        labels := some (scatter (res.table, res.lims) (List.map cells _)).1
        lims := (scatter (res.table, res.lims) (List.map cells _)).2 }
      refine ⟨res', hres', hnq, ?_⟩
      rw [hscatter, List.flatten_cons, List.map_append, Lib.scatter_append]
      rfl

end

/-! ## The limits -/

/-- `do_allocation` replaces the counts by their sums. -/
theorem foldl_allocationStep (lims : ℕ → ℕ) (n : ℕ) :
    (List.range n).foldl RangeSearchResult.allocationStep (lims, 0) =
      (fun q ↦ if q < n then ∑ i ∈ Finset.range q, lims i else lims q,
        ∑ i ∈ Finset.range n, lims i) := by
  induction n with
  | zero => rfl
  | succ n ih =>
      rw [List.range_succ, List.foldl_append, ih, List.foldl_cons, List.foldl_nil,
        RangeSearchResult.allocationStep]
      refine Prod.ext ?_ ?_
      · funext q
        rcases lt_trichotomy q n with hq | rfl | hq
        · simp only [update_of_ne hq.ne, if_pos hq, if_pos (Nat.lt_succ_of_lt hq)]
        · simp only [update_self, if_pos (Nat.lt_succ_self q)]
        · simp only [update_of_ne hq.ne', if_neg hq.not_gt, if_neg (Nat.succ_le_of_lt hq).not_gt]
      · simp only [if_neg (lt_irrefl n), Finset.sum_range_succ]

/-- The last loop of `merge` moves the limits up by one. -/
theorem resetLims_eq (nx : ℕ) (lims : ℕ → ℕ) (q : ℕ) :
    resetLims nx lims q = if q = 0 then 0 else if q ≤ nx then lims (q - 1) else lims q := by
  have hshift : ∀ (n : ℕ) (f : ℕ → ℕ) (q : ℕ),
      (List.range n).reverse.foldl (fun f i ↦ update f (i + 1) (f i)) f q =
        if q ≠ 0 ∧ q ≤ n then f (q - 1) else f q := by
    intro n
    induction n with
    | zero =>
        intro f q
        rw [if_neg (by omega)]
        rfl
    | succ n ih =>
        intro f q
        rw [List.range_succ, List.reverse_append, List.reverse_singleton, List.singleton_append,
          List.foldl_cons, ih]
        by_cases hq : q = n + 1
        · rw [if_neg (by omega), if_pos (by omega), hq, update_self, Nat.add_sub_cancel]
        · by_cases hq' : q ≠ 0 ∧ q ≤ n
          · rw [if_pos hq', if_pos (by omega), update_of_ne (by omega)]
          · rw [if_neg hq', if_neg (by omega), update_of_ne hq]
  rw [resetLims]
  by_cases hq : q = 0
  · rw [hq, update_self, if_pos rfl]
  · rw [update_of_ne hq, if_neg hq, hshift]
    by_cases hle : q ≤ nx
    · rw [if_pos ⟨hq, hle⟩, if_pos hle]
    · rw [if_neg (fun h ↦ hle h.2), if_neg hle]

/-! ## The merged result -/

/-- Partial results that were filled by calls, with the pieces they hold. -/
theorem exists_pieces {bufferSize : ℕ} (hb : 0 < bufferSize) (fills : List (List (Call nq))) :
    ∃ piecess, List.Forall₂ Stores (fills.map fun cs ↦ (new bufferSize).calls cs) piecess ∧
      (∀ p ∈ piecess.flatten, p.1 < nq) ∧
      ∀ q, row piecess.flatten q = fills.flatMap fun cs ↦ added q none cs := by
  induction fills with
  | nil => exact ⟨[], .nil, fun _ hp ↦ absurd hp List.not_mem_nil, fun _ ↦ rfl⟩
  | cons cs fills ih =>
      obtain ⟨piecess, hstores, hlt, hrow⟩ := ih
      obtain ⟨pieces, hpieces, hlt', hrow'⟩ :=
        (stores_new hb).calls (fun _ hp ↦ absurd hp List.not_mem_nil) cs
      refine ⟨pieces :: piecess, .cons hpieces hstores, fun p hp ↦ ?_, fun q ↦ ?_⟩
      · rw [List.flatten_cons] at hp
        rcases List.mem_append.mp hp with hp | hp
        · exact hlt' p hp
        · exact hlt p hp
      · rw [List.flatten_cons, Lib.row_append, hrow, hrow', List.flatMap_cons]
        rfl

/-- After a merge of partial results, the limits rise from 0 and cut out, for each query, what was
added for it. -/
structure Merged (res : RangeSearchResult) (nq : ℕ) (rows : ℕ → List (F32 × ℤ)) : Prop where
  lims_zero : res.lims 0 = 0
  lims_le : ∀ q < nq, res.lims q ≤ res.lims (q + 1)
  slice : ∀ q < nq, res.slice q = (rows q).map some

/-- `do_allocation` on a result without tables. -/
theorem doAllocation_eq (nq bufferSize : ℕ) (counts : ℕ → ℕ) :
    ∃ lims, RangeSearchResult.doAllocation ⟨nq, counts, none, bufferSize⟩ =
        .ok ⟨nq, lims, some fun _ ↦ none, bufferSize⟩ ∧
      ∀ q ≤ nq, lims q = ∑ i ∈ Finset.range q, counts i := by
  refine ⟨update (fun q ↦ if q < nq then ∑ i ∈ Finset.range q, counts i else counts q) nq
    (∑ i ∈ Finset.range nq, counts i), ?_, fun q hq ↦ ?_⟩
  · rw [RangeSearchResult.doAllocation]
    dsimp only
    rw [foldl_allocationStep]
    rfl
  · rcases hq.lt_or_eq with hq | rfl
    · rw [update_of_ne hq.ne, if_pos hq]
    · rw [update_self]

/-- The merge of partial results that hold pieces. -/
theorem merge_of_stores {partials : List (Option RangeSearchPartialResult)}
    {piecess : List (List (ℕ × List (F32 × ℤ)))} (bufferSize : ℕ)
    (hfirst : partials.head? ≠ some none) (h : List.Forall₂ Stores partials.reduceOption piecess)
    (hlt : ∀ p ∈ piecess.flatten, p.1 < nq) :
    ∃ res, merge (.new nq bufferSize) partials = some (.ok res) ∧
      Merged res nq (row piecess.flatten) := by
  match partials with
  | [] =>
      cases h with
      | nil => exact ⟨_, rfl, rfl, fun _ _ ↦ le_rfl, fun _ _ ↦ rfl⟩
  | none :: rest => exact absurd rfl hfirst
  | some pres :: rest =>
      have hcounts : (pres :: rest.reduceOption).foldl (fun lims pres ↦ pres.countInto lims)
          (fun _ ↦ 0) = fun q ↦ (row piecess.flatten q).length :=
        funext fun q ↦ (foldl_countInto h (fun _ ↦ 0) q).trans (Nat.zero_add _)
      obtain ⟨lims, halloc, hlims⟩ :=
        doAllocation_eq nq bufferSize fun q ↦ (row piecess.flatten q).length
      obtain ⟨res, hcopy, hnq, hscatter⟩ := foldlM_copyResult h ⟨nq, lims, some fun _ ↦ none, bufferSize⟩
      refine ⟨{ res with lims := resetLims res.nq res.lims }, ?_, ?_⟩
      · refine congrArg some (Fault.bind_eq_ok.mpr ⟨_, ?_, Fault.bind_eq_ok.mpr ⟨res, hcopy, rfl⟩⟩)
        exact (congrArg (fun counts ↦ RangeSearchResult.doAllocation ⟨nq, counts, none, bufferSize⟩)
          hcounts).trans halloc
      -- the rows of the table start at the sums of the counts
      generalize hstart : (fun q ↦ ∑ i ∈ Finset.range q, (row piecess.flatten i).length) = start
        at *
      have hlims' : ∀ q ≤ nq, lims q = start q := fun q hq ↦ by rw [← hstart]; exact hlims q hq
      have hsucc : ∀ q, start (q + 1) = start q + (row piecess.flatten q).length := fun q ↦ by
        rw [← hstart]
        exact Finset.sum_range_succ _ _
      have hroom : RoomFor start nq (piecess.flatten.map cells) := fun q _ ↦ by
        rw [row_map_cells, List.length_map, hsucc]
      have hcells : ∀ p ∈ piecess.flatten.map cells, p.1 < nq := fun p hp ↦ by
        obtain ⟨p', hp', rfl⟩ := List.mem_map.mp hp
        exact hlt p' hp'
      have hempty : Scattered start nq ([] : List (ℕ × List Cell)) (fun _ ↦ none, lims) :=
        ⟨fun q hq ↦ hlims' q hq.le, fun _ _ ↦ rfl⟩
      have hfull : Scattered start nq ([] ++ piecess.flatten.map cells)
          (scatter (fun _ ↦ none, lims) (piecess.flatten.map cells)) :=
        hempty.scatter hroom hcells
      have hfull' : Scattered start nq (piecess.flatten.map cells) (res.table, res.lims) :=
        hscatter ▸ hfull
      have hreset : ∀ q ≤ nq, resetLims res.nq res.lims q = start q := by
        intro q hq
        replace hnq : res.nq = nq := hnq
        rw [resetLims_eq, hnq]
        cases q with
        | zero => rw [if_pos rfl, ← hstart]; rfl
        | succ q =>
            rw [if_neg (Nat.succ_ne_zero q), if_pos hq, Nat.add_sub_cancel, hsucc]
            have := hfull'.cursor q hq
            rwa [row_map_cells, List.length_map] at this
      refine ⟨?_, fun q hq ↦ ?_, fun q hq ↦ ?_⟩
      · refine (hreset 0 (Nat.zero_le _)).trans ?_
        rw [← hstart]
        rfl
      · change resetLims res.nq res.lims q ≤ resetLims res.nq res.lims (q + 1)
        rw [hreset q hq.le, hreset (q + 1) hq, hsucc]
        exact Nat.le_add_right _ _
      · have hread := hfull'.read q hq
        rw [row_map_cells, List.length_map] at hread
        change read res.table (resetLims res.nq res.lims q)
          (resetLims res.nq res.lims (q + 1) - resetLims res.nq res.lims q) = _
        rw [hreset q hq.le, hreset (q + 1) hq, hsucc, Nat.add_sub_cancel_left, hread]

/-- Merging partial results neither loses nor mixes results: each query gets what was added for
it, in the order of the partial results. -/
theorem merge_slices {bufferSize : ℕ} (hb : 1 ≤ bufferSize)
    (fills : List (Option (List (Call nq)))) (hfirst : fills.head? ≠ some none) :
    ∃ res, merge (.new nq bufferSize)
        (fills.map fun f ↦ f.map fun cs ↦ (new bufferSize).calls cs) = some (.ok res) ∧
      Merged res nq fun q ↦ fills.reduceOption.flatMap fun cs ↦ added q none cs := by
  obtain ⟨piecess, hstores, hlt, hrow⟩ := exists_pieces hb fills.reduceOption
  rw [← funext hrow]
  refine merge_of_stores bufferSize ?_ ?_ hlt
  · cases fills with
    | nil => exact fun h ↦ by cases h
    | cons f fills =>
        cases f with
        | none => exact absurd rfl hfirst
        | some cs => exact fun h ↦ by cases h
  · rw [List.reduceOption_map]
    exact hstores

/-- Two partial results with buffers of two entries. -/
theorem merge_slices_two :
    ∃ res, merge (.new 2 2)
        (([some [.newResult 1, .add ⟨0x3f800000#32⟩ 4, .newResult 0, .add ⟨0x00000000#32⟩ 7,
            .add ⟨0x3f000000#32⟩ 5], none, some [.newResult 1, .add ⟨0x40000000#32⟩ 6]] :
          List (Option (List (Call 2)))).map fun f ↦ f.map fun cs ↦ (new 2).calls cs) =
          some (.ok res) ∧
      Merged res 2 fun q ↦ ([some [.newResult 1, .add ⟨0x3f800000#32⟩ 4, .newResult 0,
        .add ⟨0x00000000#32⟩ 7, .add ⟨0x3f000000#32⟩ 5], none,
        some [.newResult 1, .add ⟨0x40000000#32⟩ 6]] :
          List (Option (List (Call 2)))).reduceOption.flatMap fun cs ↦ added q none cs :=
  merge_slices (by decide) _ fun h ↦ by cases h

end RangeSearchPartialResult

end FaissNavix
