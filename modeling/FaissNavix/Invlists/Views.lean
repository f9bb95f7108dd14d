import FaissNavix.Invlists.InvertedLists
import FaissNavix.Lib.Region
import Mathlib.Data.Fin.VecNotation

/-!
# Views of inverted lists

`HStackInvertedLists`, `SliceInvertedLists`, `VStackInvertedLists`, `MaskedInvertedLists` and
`StopWordsInvertedLists` of `faiss/invlists/InvertedLists.cpp`, over `ArrayInvertedLists` and over each
other.  A pointer that a view returns is what can be read at it, or `none` for the null pointer.
-/

namespace FaissNavix

open Fault (assert throwIfNot)

/-- An expression of views. -/
inductive View where
  | array (a : ArrayInvertedLists) (code_length : ∀ j, ∀ e ∈ a.lists j, e.code.length = a.codeSize)
  | hstack (nil : ℕ) (ils : Fin nil → View)
  | slice (il : View) (i0 i1 : ℕ)
  | vstack (nil : ℕ) (ils : Fin nil → View)
  | masked (il0 il1 : View)
  | stopWords (il0 : View) (maxsize : ℕ)

/-! ## List numbers -/

/-- `cumsz` of a `VStackInvertedLists`, whose parts have these numbers of lists. -/
def cumsz (nlists : List ℕ) (i : ℕ) : ℕ :=
  (nlists.take i).sum

/-- The loop of `translate_list_no`. -/
def bisectLists (cumsz : ℕ → ℕ) (listNo : ℕ) : ℕ → ℕ → ℕ → ℕ
  | 0, i0, _ => i0
  | turns + 1, i0, i1 =>
    if i0 + 1 < i1 then
      let imed := (i0 + i1) / 2
      if cumsz imed ≤ listNo then bisectLists cumsz listNo turns imed i1
      else bisectLists cumsz listNo turns i0 imed
    else i0

/-- `translate_list_no` of a `VStackInvertedLists`: the part that a list number belongs to. -/
def translateStacked (nlists : List ℕ) (listNo : ℕ) : Except Fault ℕ := do
  throwIfNot (decide (listNo < nlists.sum)) "list_no >= 0 && list_no < vil->nlist"
  let i0 := bisectLists (cumsz nlists) listNo nlists.length 0 nlists.length
  assert (decide (cumsz nlists i0 ≤ listNo ∧ listNo < cumsz nlists (i0 + 1)))
    "list_no >= cumsz[i0] && list_no < cumsz[i0 + 1]"
  return i0

/-- `translate_list_no` of a `SliceInvertedLists`. -/
def translateSliced (nlist i0 listNo : ℕ) : Except Fault ℕ := do
  throwIfNot (decide (listNo < nlist)) "list_no >= 0 && list_no < sil->nlist"
  return listNo + i0

/-- The loop that copies a list from all parts, if it is not empty in a part. -/
def copyParts {α : Type} {nil : ℕ} (size : Fin nil → Except Fault ℕ)
    (get : Fin nil → Except Fault (Option (List α))) : Except Fault (List α) :=
  (List.finRange nil).foldlM (fun c i ↦ do
    let sz ← size i
    if 0 < sz then
      match ← get i with
      | some xs => return c ++ xs.take sz
      | none => .error .nullPointer
    else return c) []

/-- The loop that looks for the part that an offset belongs to. -/
def findPart {α : Type} {nil : ℕ} (size : Fin nil → Except Fault ℕ)
    (get : Fin nil → ℕ → Except Fault α) : List (Fin nil) → ℕ → Except Fault α
  | [], offset => .error (.exception ("offset " ++ toString offset ++ " unknown"))
  | i :: is, offset => do
    let sz ← size i
    if offset < sz then get i offset else findPart size get is (offset - sz)

def ofPart {α : Type} {nil : ℕ} (get : Fin nil → Except Fault α) (i : ℕ) : Except Fault α :=
  if h : i < nil then get ⟨i, h⟩ else .error .nullPointer

namespace View

/-! ## Methods -/

/-- `nlist` -/
def nlist : View → ℕ
  | array a _ => a.nlist
  | hstack nil ils => if h : 0 < nil then (ils ⟨0, h⟩).nlist else 0
  | slice _ i0 i1 => i1 - i0
  | vstack nil ils => ((List.finRange nil).map fun i ↦ (ils i).nlist).sum
  | masked il0 _ => il0.nlist
  | stopWords il0 _ => il0.nlist

/-- `code_size` -/
def codeSize : View → ℕ
  | array a _ => a.codeSize
  | hstack nil ils => if h : 0 < nil then (ils ⟨0, h⟩).codeSize else 0
  | slice il _ _ => il.codeSize
  | vstack nil ils => if h : 0 < nil then (ils ⟨0, h⟩).codeSize else 0
  | masked il0 _ => il0.codeSize
  | stopWords il0 _ => il0.codeSize

def nlists {nil : ℕ} (ils : Fin nil → View) : List ℕ :=
  (List.finRange nil).map fun i ↦ (ils i).nlist

/-- The constructors, which check their arguments. -/
def construct : View → Except Fault Unit
  | array _ _ => return
  | hstack nil ils => do
    (List.finRange nil).forM fun i ↦ (ils i).construct
    throwIfNot (decide (0 < nil)) "nil > 0"
    (List.finRange nil).forM fun i ↦ throwIfNot
      (decide ((ils i).codeSize = (hstack nil ils).codeSize ∧ (ils i).nlist = (hstack nil ils).nlist))
      "ils_in[i]->code_size == code_size && ils_in[i]->nlist == nlist"
  | slice il _ _ => il.construct
  | vstack nil ils => do
    (List.finRange nil).forM fun i ↦ (ils i).construct
    throwIfNot (decide (0 < nil)) "nil > 0"
    (List.finRange nil).forM fun i ↦ throwIfNot
      (decide ((ils i).codeSize = (vstack nil ils).codeSize)) "ils_in[i]->code_size == code_size"
  | masked il0 il1 => do
    il0.construct
    il1.construct
    throwIfNot (decide (il1.nlist = il0.nlist)) "il1->nlist == nlist"
    throwIfNot (decide (il1.codeSize = il0.codeSize)) "il1->code_size == code_size"
  | stopWords il0 _ => il0.construct

/-- `list_size` -/
def listSize : View → ℕ → Except Fault ℕ
  | array a _, listNo => do
    assert (decide (listNo < a.nlist)) "list_no < nlist"
    return (a.lists listNo).length
  | hstack nil ils, listNo =>
    (List.finRange nil).foldlM (fun sz i ↦ return sz + (← (ils i).listSize listNo)) 0
  | slice il i0 i1, listNo => do
    il.listSize (← translateSliced (i1 - i0) i0 listNo)
  | vstack _ ils, listNo => do
    let i ← translateStacked (nlists ils) listNo
    ofPart (fun k ↦ (ils k).listSize (listNo - cumsz (nlists ils) i)) i
  | masked il0 il1, listNo => do
    let sz ← il0.listSize listNo
    if sz ≠ 0 then return sz else il1.listSize listNo
  | stopWords il0 maxsize, listNo => do
    let sz ← il0.listSize listNo
    return if sz < maxsize then sz else 0

/-- `get_ids` -/
def getIds : View → ℕ → Except Fault (Option (List Idx))
  | array a _, listNo => do
    assert (decide (listNo < a.nlist)) "list_no < nlist"
    return some ((a.lists listNo).map Entry.id)
  | hstack _ ils, listNo => do
    return some (← copyParts (fun i ↦ (ils i).listSize listNo) fun i ↦ (ils i).getIds listNo)
  | slice il i0 i1, listNo => do
    il.getIds (← translateSliced (i1 - i0) i0 listNo)
  | vstack _ ils, listNo => do
    let i ← translateStacked (nlists ils) listNo
    ofPart (fun k ↦ (ils k).getIds (listNo - cumsz (nlists ils) i)) i
  | masked il0 il1, listNo => do
    let sz ← il0.listSize listNo
    if sz ≠ 0 then il0.getIds listNo else il1.getIds listNo
  | stopWords il0 maxsize, listNo => do
    let sz ← il0.listSize listNo
    if sz < maxsize then il0.getIds listNo else return none

/-- `get_codes` -/
def getCodes : View → ℕ → Except Fault (Option (List UInt8))
  | array a _, listNo => do
    assert (decide (listNo < a.nlist)) "list_no < nlist"
    return some ((a.lists listNo).flatMap Entry.code)
  | hstack nil ils, listNo => do
    return some (← copyParts
      (fun i ↦ return (← (ils i).listSize listNo) * (hstack nil ils).codeSize)
      fun i ↦ (ils i).getCodes listNo)
  | slice il i0 i1, listNo => do
    il.getCodes (← translateSliced (i1 - i0) i0 listNo)
  | vstack _ ils, listNo => do
    let i ← translateStacked (nlists ils) listNo
    ofPart (fun k ↦ (ils k).getCodes (listNo - cumsz (nlists ils) i)) i
  | masked il0 il1, listNo => do
    let sz ← il0.listSize listNo
    if sz ≠ 0 then il0.getCodes listNo else il1.getCodes listNo
  | stopWords il0 maxsize, listNo => do
    let sz ← il0.listSize listNo
    if sz < maxsize then il0.getCodes listNo else return none

/-- `get_single_id` -/
def getSingleId : View → ℕ → ℕ → Except Fault Idx
  | array a _, listNo, offset => do
    assert (decide (listNo < a.nlist)) "list_no < nlist"
    match (a.lists listNo)[offset]? with
    | some e => return e.id
    | none => .error (.assertion "offset < list_size(list_no)")
  | hstack nil ils, listNo, offset =>
    findPart (fun i ↦ (ils i).listSize listNo) (fun i o ↦ (ils i).getSingleId listNo o)
      (List.finRange nil) offset
  | slice il i0 i1, listNo, offset => do
    il.getSingleId (← translateSliced (i1 - i0) i0 listNo) offset
  | vstack _ ils, listNo, offset => do
    let i ← translateStacked (nlists ils) listNo
    ofPart (fun k ↦ (ils k).getSingleId (listNo - cumsz (nlists ils) i) offset) i
  | masked il0 il1, listNo, offset => do
    let sz ← il0.listSize listNo
    if sz ≠ 0 then il0.getSingleId listNo offset else il1.getSingleId listNo offset
  | stopWords il0 maxsize, listNo, offset => do
    throwIfNot (decide ((← il0.listSize listNo) < maxsize)) "il0->list_size(list_no) < maxsize"
    il0.getSingleId listNo offset

/-- `get_single_code`: the bytes of the code. -/
def getSingleCode : View → ℕ → ℕ → Except Fault (List UInt8)
  | array a _, listNo, offset => do
    assert (decide (listNo < a.nlist)) "list_no < nlist"
    assert (decide (offset < (a.lists listNo).length)) "offset < list_size(list_no)"
    return (((a.lists listNo).flatMap Entry.code).drop (offset * a.codeSize)).take a.codeSize
  | hstack nil ils, listNo, offset =>
    findPart (fun i ↦ (ils i).listSize listNo)
      (fun i o ↦ return (← (ils i).getSingleCode listNo o).take (hstack nil ils).codeSize)
      (List.finRange nil) offset
  | slice il i0 i1, listNo, offset => do
    il.getSingleCode (← translateSliced (i1 - i0) i0 listNo) offset
  | vstack _ ils, listNo, offset => do
    let i ← translateStacked (nlists ils) listNo
    ofPart (fun k ↦ (ils k).getSingleCode (listNo - cumsz (nlists ils) i) offset) i
  | masked il0 il1, listNo, offset => do
    let sz ← il0.listSize listNo
    if sz ≠ 0 then il0.getSingleCode listNo offset else il1.getSingleCode listNo offset
  | stopWords il0 maxsize, listNo, offset => do
    throwIfNot (decide ((← il0.listSize listNo) < maxsize)) "il0->list_size(list_no) < maxsize"
    il0.getSingleCode listNo offset

/-! ## What a view denotes -/

/-- The lists that a view stands for, one after the other. -/
def materialise : View → List (List Entry)
  | array a _ => (List.range a.nlist).map a.lists
  | hstack nil ils => (List.range (hstack nil ils).nlist).map fun j ↦
      (List.finRange nil).flatMap fun i ↦ (ils i).materialise.getD j []
  | slice il i0 i1 => (il.materialise.drop i0).take (i1 - i0)
  | vstack nil ils => (List.finRange nil).flatMap fun i ↦ (ils i).materialise
  | masked il0 il1 =>
      List.zipWith (fun l0 l1 ↦ if l0 = [] then l1 else l0) il0.materialise il1.materialise
  | stopWords il0 maxsize => il0.materialise.map fun l ↦ if l.length < maxsize then l else []

/-- Slices lie within what they are slices of. -/
def InBounds : View → Prop
  | array _ _ => True
  | hstack nil ils => ∀ i : Fin nil, (ils i).InBounds
  | slice il i0 i1 => il.InBounds ∧ i0 ≤ i1 ∧ i1 ≤ il.nlist
  | vstack nil ils => ∀ i : Fin nil, (ils i).InBounds
  | masked il0 il1 => il0.InBounds ∧ il1.InBounds
  | stopWords il0 _ => il0.InBounds

/-- What a pointer that a method returns can be read as; nothing is read at the null pointer. -/
def PointsTo {α : Type} (r : Except Fault (Option (List α))) (xs : List α) : Prop :=
  r = .ok (some xs) ∨ (xs = [] ∧ r = .ok none)

/-- The methods of a view on a list give the size, the ids and the codes of the entries. -/
structure Shows (v : View) (listNo : ℕ) (l : List Entry) : Prop where
  code_length : ∀ e ∈ l, e.code.length = v.codeSize
  size : v.listSize listNo = .ok l.length
  ids : PointsTo (v.getIds listNo) (l.map Entry.id)
  codes : PointsTo (v.getCodes listNo) (l.flatMap Entry.code)
  single : ∀ o e, l[o]? = some e →
    v.getSingleId listNo o = .ok e.id ∧ v.getSingleCode listNo o = .ok e.code

end View

/-! ## Loops and list numbers -/

section Loops

variable {α β : Type} {nil : ℕ}

theorem forM_eq_ok {xs : List α} {f : α → Except Fault Unit} (h : xs.forM f = .ok ()) :
    ∀ x ∈ xs, f x = .ok () := by
  induction xs with
  | nil => exact fun _ hx ↦ absurd hx List.not_mem_nil
  | cons y xs ih =>
      change (f y >>= fun _ ↦ xs.forM f) = .ok () at h
      obtain ⟨⟨⟩, hy, hxs⟩ := Fault.bind_eq_ok.mp h
      intro x hx
      rcases List.mem_cons.mp hx with rfl | hx
      · exact hy
      · exact ih hxs x hx

/-- Copying from all parts. -/
theorem copyParts_eq {size : Fin nil → Except Fault ℕ} {get : Fin nil → Except Fault (Option (List α))}
    {f : Fin nil → List α} (hsize : ∀ i, size i = .ok (f i).length)
    (hget : ∀ i, View.PointsTo (get i) (f i)) :
    copyParts size get = .ok ((List.finRange nil).flatMap f) := by
  have hloop : ∀ (is : List (Fin nil)) (c : List α), is.foldlM (fun c i ↦ do
      let sz ← size i
      if 0 < sz then
        match ← get i with
        | some xs => return c ++ xs.take sz
        | none => .error .nullPointer
      else return c) c = .ok (c ++ is.flatMap f) := by
    intro is
    induction is with
    | nil => exact fun c ↦ congrArg _ (List.append_nil c).symm
    | cons i is ih =>
        intro c
        have hturn : (do
            let sz ← size i
            if 0 < sz then
              match ← get i with
              | some xs => return c ++ xs.take sz
              | none => .error .nullPointer
            else return c) = (.ok (c ++ f i) : Except Fault (List α)) := by
          rw [hsize i]
          change (if 0 < (f i).length then _ else _) = _
          by_cases hpos : 0 < (f i).length
          · rw [if_pos hpos]
            rcases hget i with h | ⟨h, -⟩
            · rw [h]
              change Except.ok (c ++ (f i).take (f i).length) = _
              rw [List.take_length]
            · rw [h] at hpos
              exact absurd hpos (Nat.lt_irrefl 0)
          · rw [if_neg hpos, List.eq_nil_of_length_eq_zero (Nat.eq_zero_of_not_pos hpos),
              List.append_nil]
            rfl
        rw [List.foldlM_cons, hturn, List.flatMap_cons, ← List.append_assoc]
        exact ih (c ++ f i)
  exact hloop (List.finRange nil) []

theorem findPart_eq {size : Fin nil → Except Fault ℕ} {get : Fin nil → ℕ → Except Fault β}
    {f : Fin nil → List α} {g : α → β} (hsize : ∀ i, size i = .ok (f i).length)
    (hget : ∀ i o x, (f i)[o]? = some x → get i o = .ok (g x)) :
    ∀ (is : List (Fin nil)) (o : ℕ) (x : α), (is.flatMap f)[o]? = some x →
      findPart size get is o = .ok (g x) := by
  intro is
  induction is with
  | nil => exact fun o x h ↦ nomatch h
  | cons i is ih =>
      intro o x h
      rw [findPart, hsize i]
      change (if o < (f i).length then _ else _) = _
      rw [List.flatMap_cons] at h
      by_cases ho : o < (f i).length
      · rw [List.getElem?_append_left ho] at h
        rw [if_pos ho]
        exact hget i o x h
      · rw [List.getElem?_append_right (not_lt.mp ho)] at h
        rw [if_neg ho]
        exact ih _ x h

/-- Where a bisection ends: the number is in the part, if it is in one between the ends. -/
theorem bisectLists_spec {cumsz : ℕ → ℕ} {listNo turns i0 i1 : ℕ} (hturns : i1 ≤ i0 + 1 + turns)
    (hlt : i0 < i1) (h0 : cumsz i0 ≤ listNo) (h1 : listNo < cumsz i1) :
    let i := bisectLists cumsz listNo turns i0 i1
    i < i1 ∧ cumsz i ≤ listNo ∧ listNo < cumsz (i + 1) := by
  fun_induction bisectLists cumsz listNo turns i0 i1 with
  | case1 i0 i1 =>
      obtain rfl : i1 = i0 + 1 := by omega
      exact ⟨hlt, h0, h1⟩
  | case2 turns i0 i1 hgap imed hmed ih => exact ih (by omega) (by omega) hmed h1
  | case3 turns i0 i1 hgap imed hmed ih =>
      obtain ⟨hi, h⟩ := ih (by omega) (by omega) h0 (not_le.mp hmed)
      exact ⟨by omega, h⟩
  | case4 turns i0 i1 hgap =>
      obtain rfl : i1 = i0 + 1 := by omega
      exact ⟨hlt, h0, h1⟩

theorem translateStacked_eq {nlists : List ℕ} {listNo : ℕ} (h : listNo < nlists.sum) :
    ∃ i < nlists.length, cumsz nlists i ≤ listNo ∧ listNo < cumsz nlists (i + 1) ∧
      translateStacked nlists listNo = .ok i := by
  have hpos : 0 < nlists.length := by
    cases nlists with
    | nil => exact absurd h (Nat.not_lt_zero _)
    | cons n nlists => exact Nat.succ_pos _
  have hend : listNo < cumsz nlists nlists.length := by
    rw [cumsz, List.take_length]
    exact h
  have hturns : nlists.length ≤ 0 + 1 + nlists.length := by omega
  obtain ⟨hi, hle, hlt⟩ := bisectLists_spec hturns hpos (Nat.zero_le listNo) hend
  refine ⟨_, hi, hle, hlt, ?_⟩
  unfold translateStacked
  dsimp only
  rw [decide_eq_true h, decide_eq_true ⟨hle, hlt⟩]
  rfl

theorem cumsz_succ {nlists : List ℕ} {i : ℕ} (h : i < nlists.length) :
    cumsz nlists (i + 1) = cumsz nlists i + nlists.get ⟨i, h⟩ := by
  rw [cumsz, cumsz, List.take_succ_eq_append_getElem h, List.sum_append, List.sum_singleton]
  rfl

theorem getElem?_flatten_of_cumsz {ls : List (List α)} {i j : ℕ} (hi : i < ls.length)
    (hle : cumsz (ls.map List.length) i ≤ j) (hlt : j < cumsz (ls.map List.length) (i + 1)) :
    ls.flatten[j]? = (ls.get ⟨i, hi⟩)[j - cumsz (ls.map List.length) i]? := by
  have hbefore : (ls.take i).flatten.length = cumsz (ls.map List.length) i := by
    rw [List.length_flatten, cumsz, List.map_take]
  have hsplit : ls.flatten = (ls.take i).flatten ++ (ls.get ⟨i, hi⟩ ++ (ls.drop (i + 1)).flatten) := by
    rw [← List.flatten_cons, ← List.flatten_append, List.get_eq_getElem, List.getElem_cons_drop,
      List.take_append_drop]
  rw [cumsz_succ (by rwa [List.length_map])] at hlt
  rw [hsplit, List.getElem?_append_right (by omega), hbefore, List.getElem?_append_left]
  simp only [List.get_eq_getElem, List.getElem_map] at hlt ⊢
  omega

end Loops

/-! ## What the methods give -/

namespace View

/-- A view has the lists that it denotes, and its methods show them. -/
structure Correct (v : View) : Prop where
  length : v.materialise.length = v.nlist
  shows : ∀ j l, v.materialise[j]? = some l → v.Shows j l

theorem correct_array {a : ArrayInvertedLists}
    (hlen : ∀ j, ∀ e ∈ a.lists j, e.code.length = a.codeSize) : (array a hlen).Correct where
  length := by rw [materialise, List.length_map, List.length_range]; rfl
  shows j l hl := by
    rw [materialise, List.getElem?_map] at hl
    obtain ⟨j', hj, rfl⟩ := Option.map_eq_some_iff.mp hl
    obtain ⟨hlt, rfl⟩ := List.getElem?_eq_some_iff.mp hj
    rw [List.getElem_range]
    rw [List.length_range] at hlt
    have hassert : assert (decide (j < a.nlist)) "list_no < nlist" = .ok () := by
      rw [decide_eq_true hlt]
      rfl
    refine ⟨hlen j, ?_, .inl ?_, .inl ?_, fun o e he ↦ ⟨?_, ?_⟩⟩
    · rw [listSize, hassert]
      rfl
    · rw [getIds, hassert]
      rfl
    · rw [getCodes, hassert]
      rfl
    · rw [getSingleId, hassert]
      change (match (a.lists j)[o]? with
        | some e => (.ok e.id : Except Fault Idx)
        | none => _) = _
      rw [he]
    · obtain ⟨ho, rfl⟩ := List.getElem?_eq_some_iff.mp he
      have hlens : ∀ x ∈ (a.lists j).map Entry.code, x.length = a.codeSize := fun x hx ↦ by
        obtain ⟨e, he, rfl⟩ := List.mem_map.mp hx
        exact hlen j e he
      have hcode := Lib.drop_take_flatten hlens (by rwa [List.length_map] : o < _)
      rw [getSingleCode, hassert, decide_eq_true ho, Nat.mul_comm, List.flatMap_def]
      exact congrArg Except.ok (hcode.trans (by rw [List.get_eq_getElem, List.getElem_map]))

theorem PointsTo.of_eq {α : Type} {r r' : Except Fault (Option (List α))} {xs : List α}
    (h : PointsTo r xs) (hr : r' = r) : PointsTo r' xs := by
  rwa [hr]

theorem Shows.congr {v v' : View} {j j' : ℕ} {l : List Entry} (h : v.Shows j l)
    (hcode : v'.codeSize = v.codeSize) (hsize : v'.listSize j' = v.listSize j)
    (hids : v'.getIds j' = v.getIds j) (hcodes : v'.getCodes j' = v.getCodes j)
    (hid : ∀ o, v'.getSingleId j' o = v.getSingleId j o)
    (hc : ∀ o, v'.getSingleCode j' o = v.getSingleCode j o) : v'.Shows j' l where
  code_length := hcode ▸ h.code_length
  size := hsize.trans h.size
  ids := h.ids.of_eq hids
  codes := h.codes.of_eq hcodes
  single o e he := ⟨(hid o).trans (h.single o e he).1, (hc o).trans (h.single o e he).2⟩

theorem correct_slice {il : View} {i0 i1 : ℕ} (h : il.Correct) (hle : i0 ≤ i1) (hi1 : i1 ≤ il.nlist) :
    (slice il i0 i1).Correct where
  length := by
    rw [materialise, List.length_take, List.length_drop, h.length, nlist]
    omega
  shows j l hl := by
    rw [materialise, List.getElem?_take] at hl
    split at hl
    · rename_i hj
      rw [List.getElem?_drop] at hl
      have htranslate : translateSliced (i1 - i0) i0 j = .ok (i0 + j) := by
        unfold translateSliced
        rw [decide_eq_true hj, Nat.add_comm]
        rfl
      refine (h.shows _ l hl).congr rfl ?_ ?_ ?_ (fun o ↦ ?_) fun o ↦ ?_
      · rw [listSize, htranslate]
        rfl
      · rw [getIds, htranslate]
        rfl
      · rw [getCodes, htranslate]
        rfl
      · rw [getSingleId, htranslate]
        rfl
      · rw [getSingleCode, htranslate]
        rfl
    · cases hl

theorem correct_vstack {nil : ℕ} {ils : Fin nil → View} (h : ∀ i, (ils i).Correct)
    (hcode : ∀ i, (ils i).codeSize = (vstack nil ils).codeSize) : (vstack nil ils).Correct where
  length := by
    rw [materialise, List.length_flatMap, nlist]
    exact congrArg List.sum (List.map_congr_left fun i _ ↦ (h i).length)
  shows j l hl := by
    have hlists : nlists ils = ((List.finRange nil).map fun i ↦ (ils i).materialise).map List.length := by
      rw [nlists, List.map_map]
      exact List.map_congr_left fun i _ ↦ (h i).length.symm
    rw [materialise, List.flatMap_def] at hl
    have hj : j < (nlists ils).sum := by
      rw [hlists, ← List.length_flatten]
      exact (List.getElem?_eq_some_iff.mp hl).1
    obtain ⟨i, hi, hle, hlt, htranslate⟩ := translateStacked_eq hj
    have hi' : i < nil := by rwa [nlists, List.length_map, List.length_finRange] at hi
    rw [getElem?_flatten_of_cumsz (by rwa [hlists, List.length_map] at hi) (hlists ▸ hle)
      (hlists ▸ hlt)] at hl
    simp only [List.get_eq_getElem, List.getElem_map, List.getElem_finRange] at hl
    have hlist : (ils ⟨i, hi'⟩).materialise[j - cumsz (nlists ils) i]? = some l := by
      rw [hlists]
      exact hl
    have hpart : ∀ {α : Type} (get : ℕ → Fin nil → Except Fault α),
        (do let i ← translateStacked (nlists ils) j; ofPart (get (j - cumsz (nlists ils) i)) i) =
          get (j - cumsz (nlists ils) i) ⟨i, hi'⟩ := by
      intro α get
      rw [htranslate]
      exact dif_pos hi'
    refine ((h ⟨i, hi'⟩).shows _ l hlist).congr (hcode _).symm ?_ ?_ ?_ (fun o ↦ ?_) fun o ↦ ?_
    · exact hpart fun j k ↦ (ils k).listSize j
    · exact hpart fun j k ↦ (ils k).getIds j
    · exact hpart fun j k ↦ (ils k).getCodes j
    · exact hpart fun j k ↦ (ils k).getSingleId j o
    · exact hpart fun j k ↦ (ils k).getSingleCode j o

theorem correct_masked {il0 il1 : View} (h0 : il0.Correct) (h1 : il1.Correct)
    (hnlist : il1.nlist = il0.nlist) (hcode : il1.codeSize = il0.codeSize) :
    (masked il0 il1).Correct where
  length := by
    rw [materialise, List.length_zipWith, h0.length, h1.length, hnlist, min_self]
    rfl
  shows j l hl := by
    rw [materialise, List.getElem?_zipWith] at hl
    cases hl0 : il0.materialise[j]? with
    | none =>
        rw [hl0] at hl
        cases hl
    | some l0 =>
        cases hl1 : il1.materialise[j]? with
        | none =>
            rw [hl0, hl1] at hl
            cases hl
        | some l1 =>
            rw [hl0, hl1] at hl
            obtain rfl := Option.some.inj hl
            have hsize := (h0.shows j l0 hl0).size
            by_cases hempty : l0 = []
            · rw [if_pos hempty]
              rw [hempty, List.length_nil] at hsize
              refine (h1.shows j l1 hl1).congr hcode.symm ?_ ?_ ?_ (fun o ↦ ?_) fun o ↦ ?_
              · rw [listSize, hsize]
                rfl
              · rw [getIds, hsize]
                rfl
              · rw [getCodes, hsize]
                rfl
              · rw [getSingleId, hsize]
                rfl
              · rw [getSingleCode, hsize]
                rfl
            · rw [if_neg hempty]
              have hne : l0.length ≠ 0 := fun h ↦ hempty (List.eq_nil_of_length_eq_zero h)
              refine (h0.shows j l0 hl0).congr rfl ?_ ?_ ?_ (fun o ↦ ?_) fun o ↦ ?_
              · rw [listSize, hsize]
                exact if_pos hne
              · rw [getIds, hsize]
                exact if_pos hne
              · rw [getCodes, hsize]
                exact if_pos hne
              · rw [getSingleId, hsize]
                exact if_pos hne
              · rw [getSingleCode, hsize]
                exact if_pos hne

theorem correct_stopWords {il0 : View} {maxsize : ℕ} (h : il0.Correct) :
    (stopWords il0 maxsize).Correct where
  length := by
    rw [materialise, List.length_map, h.length]
    rfl
  shows j l hl := by
    rw [materialise, List.getElem?_map] at hl
    obtain ⟨l0, hl0, rfl⟩ := Option.map_eq_some_iff.mp hl
    have hshows := h.shows j l0 hl0
    have hsize := hshows.size
    by_cases hlt : l0.length < maxsize
    · rw [if_pos hlt]
      refine hshows.congr rfl ?_ ?_ ?_ (fun o ↦ ?_) fun o ↦ ?_
      · rw [listSize, hsize]
        exact congrArg Except.ok (if_pos hlt)
      · rw [getIds, hsize]
        exact if_pos hlt
      · rw [getCodes, hsize]
        exact if_pos hlt
      · rw [getSingleId, hsize]
        change (throwIfNot (decide (l0.length < maxsize)) _ >>= fun _ ↦ il0.getSingleId j o) = _
        rw [decide_eq_true hlt]
        rfl
      · rw [getSingleCode, hsize]
        change (throwIfNot (decide (l0.length < maxsize)) _ >>= fun _ ↦ il0.getSingleCode j o) = _
        rw [decide_eq_true hlt]
        rfl
    · rw [if_neg hlt]
      refine ⟨fun _ h ↦ absurd h List.not_mem_nil, ?_, .inr ⟨rfl, ?_⟩, .inr ⟨rfl, ?_⟩, fun o e he ↦ ?_⟩
      · rw [listSize, hsize]
        exact congrArg Except.ok (if_neg hlt)
      · rw [getIds, hsize]
        exact if_neg hlt
      · rw [getCodes, hsize]
        exact if_neg hlt
      · cases he

theorem sumSizes_eq {nil : ℕ} {size : Fin nil → Except Fault ℕ} {f : Fin nil → List Entry}
    (hsize : ∀ i, size i = .ok (f i).length) :
    (List.finRange nil).foldlM (fun sz i ↦ return sz + (← size i)) 0 =
      .ok ((List.finRange nil).flatMap f).length := by
  have hloop : ∀ (is : List (Fin nil)) (sz : ℕ), is.foldlM (fun sz i ↦ return sz + (← size i)) sz =
      (.ok (sz + (is.flatMap f).length) : Except Fault ℕ) := by
    intro is
    induction is with
    | nil => exact fun sz ↦ rfl
    | cons i is ih =>
        intro sz
        rw [List.foldlM_cons, hsize i, List.flatMap_cons, List.length_append, ← Nat.add_assoc]
        exact ih _
  rw [hloop, Nat.zero_add]

theorem length_flatMap_code {l : List Entry} {n : ℕ} (h : ∀ e ∈ l, e.code.length = n) :
    (l.flatMap Entry.code).length = l.length * n := by
  rw [List.length_flatMap, List.map_congr_left h, List.map_const', List.sum_replicate_nat]

theorem correct_hstack {nil : ℕ} {ils : Fin nil → View} (h : ∀ i, (ils i).Correct)
    (hnlist : ∀ i, (ils i).nlist = (hstack nil ils).nlist)
    (hcode : ∀ i, (ils i).codeSize = (hstack nil ils).codeSize) : (hstack nil ils).Correct where
  length := by rw [materialise, List.length_map, List.length_range]
  shows j l hl := by
    rw [materialise, List.getElem?_map] at hl
    obtain ⟨j', hj, rfl⟩ := Option.map_eq_some_iff.mp hl
    obtain ⟨hlt, rfl⟩ := List.getElem?_eq_some_iff.mp hj
    rw [List.getElem_range]
    rw [List.length_range] at hlt
    -- the list of each part
    have hparts : ∀ i, (ils i).Shows j ((ils i).materialise.getD j []) := by
      intro i
      have hji : j < (ils i).materialise.length := by rwa [(h i).length, hnlist i]
      refine (h i).shows j _ ?_
      rw [List.getD_eq_getElem _ _ hji, List.getElem?_eq_getElem hji]
    refine ⟨fun e he ↦ ?_, ?_, .inl ?_, .inl ?_, fun o e he ↦ ⟨?_, ?_⟩⟩
    · obtain ⟨i, -, he⟩ := List.mem_flatMap.mp he
      exact ((hparts i).code_length e he).trans (hcode i)
    · rw [listSize]
      exact sumSizes_eq fun i ↦ (hparts i).size
    · rw [getIds, copyParts_eq (fun i ↦ ?_) fun i ↦ (hparts i).ids, List.map_flatMap]
      · rfl
      · rw [(hparts i).size, List.length_map]
    · rw [getCodes, copyParts_eq (fun i ↦ ?_) fun i ↦ (hparts i).codes, List.flatMap_assoc]
      · rfl
      · rw [(hparts i).size, length_flatMap_code (hparts i).code_length, hcode i]
        rfl
    · exact findPart_eq (fun i ↦ (hparts i).size) (fun i o x hx ↦ ((hparts i).single o x hx).1) _ o e he
    · refine findPart_eq (fun i ↦ (hparts i).size) (fun i o x hx ↦ ?_) _ o e he
      rw [((hparts i).single o x hx).2, ← hcode i,
        ← (hparts i).code_length x (List.mem_of_getElem? hx)]
      exact congrArg Except.ok List.take_length

/-- Every view that is constructed, with slices in bounds, shows the lists that it denotes. -/
theorem correct (v : View) (hconstruct : v.construct = .ok ()) (hbounds : v.InBounds) : v.Correct := by
  induction v with
  | array a hlen => exact correct_array hlen
  | hstack nil ils ih =>
      obtain ⟨⟨⟩, hils, h⟩ := Fault.bind_eq_ok.mp hconstruct
      obtain ⟨⟨⟩, -, hchecks⟩ := Fault.bind_eq_ok.mp h
      have hcheck := fun i ↦ of_decide_eq_true
        (Fault.throwIfNot_eq_ok.mp (forM_eq_ok hchecks i (List.mem_finRange i)))
      exact correct_hstack (fun i ↦ ih i (forM_eq_ok hils i (List.mem_finRange i)) (hbounds i))
        (fun i ↦ (hcheck i).2) fun i ↦ (hcheck i).1
  | slice il i0 i1 ih => exact correct_slice (ih hconstruct hbounds.1) hbounds.2.1 hbounds.2.2
  | vstack nil ils ih =>
      obtain ⟨⟨⟩, hils, h⟩ := Fault.bind_eq_ok.mp hconstruct
      obtain ⟨⟨⟩, -, hchecks⟩ := Fault.bind_eq_ok.mp h
      exact correct_vstack (fun i ↦ ih i (forM_eq_ok hils i (List.mem_finRange i)) (hbounds i))
        fun i ↦ of_decide_eq_true
          (Fault.throwIfNot_eq_ok.mp (forM_eq_ok hchecks i (List.mem_finRange i)))
  | masked il0 il1 ih0 ih1 =>
      obtain ⟨⟨⟩, h0, h⟩ := Fault.bind_eq_ok.mp hconstruct
      obtain ⟨⟨⟩, h1, h⟩ := Fault.bind_eq_ok.mp h
      obtain ⟨⟨⟩, hnlist, hcode⟩ := Fault.bind_eq_ok.mp h
      exact correct_masked (ih0 h0 hbounds.1) (ih1 h1 hbounds.2)
        (of_decide_eq_true (Fault.throwIfNot_eq_ok.mp hnlist))
        (of_decide_eq_true (Fault.throwIfNot_eq_ok.mp hcode))
  | stopWords il0 maxsize ih => exact correct_stopWords (ih hconstruct hbounds)

end View

/-- The methods of a view, on any of its lists and any offset in that list, give what is in the list when
the view is materialised. -/
theorem view_shows (v : View) (hconstruct : v.construct = .ok ()) (hbounds : v.InBounds) :
    v.materialise.length = v.nlist ∧
      ∀ j l, v.materialise[j]? = some l → v.Shows j l :=
  ⟨(v.correct hconstruct hbounds).length, (v.correct hconstruct hbounds).shows⟩

/-- Two lists with the ids 1 and 2. -/
def twoLists : ArrayInvertedLists where
  nlist := 2
  codeSize := 1
  lists j := if j = 0 then [⟨1, [10]⟩] else if j = 1 then [⟨2, [20]⟩] else []

theorem code_length_twoLists : ∀ j, ∀ e ∈ twoLists.lists j, e.code.length = twoLists.codeSize := by
  intro j e he
  unfold twoLists at he ⊢
  dsimp only at he ⊢
  split at he
  · obtain rfl := List.mem_singleton.mp he
    rfl
  · split at he
    · obtain rfl := List.mem_singleton.mp he
      rfl
    · exact absurd he List.not_mem_nil

/-- The second list on the first one's place, behind a stack with an empty slice. -/
def nestedView : View :=
  .vstack 2 ![.slice (.array twoLists code_length_twoLists) 1 1,
    .hstack 2 ![.slice (.array twoLists code_length_twoLists) 1 2,
      .stopWords (.slice (.array twoLists code_length_twoLists) 0 1) 5]]

theorem view_shows_nested :
    nestedView.materialise.length = nestedView.nlist ∧
      ∀ j l, nestedView.materialise[j]? = some l → nestedView.Shows j l :=
  view_shows nestedView rfl
    (Fin.forall_fin_two.mpr ⟨⟨trivial, by decide, by decide⟩,
      Fin.forall_fin_two.mpr ⟨⟨trivial, by decide, by decide⟩, trivial, by decide, by decide⟩⟩)

end FaissNavix
