import FaissNavix.Invlists.AddCore
import FaissNavix.Invlists.NoMapRemoval

/-!
# Updating entries through the direct map

`DirectMap::update_codes` moves the last entry of a list into the place of the one that is updated, and
adds the new one at the end of its list.  The array of the direct map follows both.

What the lists and the array say together is a partial map from ids to lists and codes, the *content*;
an update changes it at one id.
-/

namespace FaissNavix

open Function

/-- A vector that is updated: its id, the list it is assigned to now and the code it is encoded to. -/
structure Update where
  id : Idx
  assign : ℤ
  code : List UInt8

namespace DirectMap

/-- The first block of the loop of `update_codes`, on the array and on the lists. -/
def removeOld (array : List Idx) (il : ArrayInvertedLists) (id : Idx) :
    Except Fault (List Idx × ArrayInvertedLists) := do
  let dm := array.getD id.toInt.toNat 0
  let ofs := (loOffset dm.toUInt64).toNat
  let listNo := (loListno dm.toUInt64).toNat
  Fault.assert (decide (listNo < il.nlist)) "list_no < nlist"
  -- the size of an empty list less one is the largest `size_t`, and there is no such entry
  Fault.assert (decide (0 < il.listSize listNo)) "offset < list_size(list_no)"
  let last := il.listSize listNo - 1
  if ofs ≠ last then
    let e ← il.getSingle listNo last
    let il ← il.updateEntries listNo ofs [e]
    return (array.set e.id.toInt.toNat (loOf listNo ofs), il.resize listNo last)
  else return (array, il.resize listNo last)

/-- The second block. -/
def insertNew (array : List Idx) (il : ArrayInvertedLists) (u : Update) :
    Except Fault (List Idx × ArrayInvertedLists) := do
  Fault.assert (decide (0 ≤ u.assign ∧ u.assign < il.nlist)) "list_no < nlist"
  let dm := loOf u.assign (il.listSize u.assign.toNat)
  return (array.set u.id.toInt.toNat dm, il.addEntry u.assign.toNat ⟨u.id, u.code⟩)

/-- One turn of the loop of `update_codes`. -/
def updateCode (s : List Idx × ArrayInvertedLists) (u : Update) :
    Except Fault (List Idx × ArrayInvertedLists) := do
  Fault.throwIfNotMsg (decide (0 ≤ u.id.toInt) && decide (u.id.toInt < s.1.length))
    "0 <= id && id < array.size()" "id to update out of range"
  let (array, il) ← removeOld s.1 s.2 u.id
  insertNew array il u

/-- `update_codes` -/
def updateCodes (dm : DirectMap) (il : ArrayInvertedLists) (updates : List Update) :
    Except Fault (DirectMap × ArrayInvertedLists) := do
  Fault.throwIfNot (decide (dm.type = .array)) "type == Array"
  let (array, il) ← updates.foldlM updateCode (dm.array, il)
  return ({ dm with array }, il)

end DirectMap

namespace IndexIVF

/-- `add_core`, with the order in which the threads get to the vectors of each block. -/
def addCore (ivf : IndexIVF ArrayInvertedLists) (vectors : List Assigned) (xids : Option (List Idx))
    (orders : ℕ → List ℕ) (junk : ℕ → ℕ) : Except Fault (IndexIVF ArrayInvertedLists) :=
  let bs := 65536
  if bs < vectors.length then
    (List.range ((vectors.length + bs - 1) / bs)).foldlM (fun ivf b ↦
      ivf.addBlock ((vectors.drop (b * bs)).take bs) (xids.map fun xids ↦ (xids.drop (b * bs)).take bs)
        (orders b) (junk b)) ivf
  else ivf.addBlock vectors xids (orders 0) (junk 0)

/-- `update_vectors`, with the assignments and the codes that the quantizer and `encode_vectors` give. -/
def updateVectors (ivf : IndexIVF ArrayInvertedLists) (updates : List Update) (orders : ℕ → List ℕ)
    (junk : ℕ → ℕ) : Except Fault (IndexIVF ArrayInvertedLists) :=
  if ivf.directMap.type = .hashtable then do
    let ids := updates.map Update.id
    let (nremove, ivf) ← ivf.removeIds (.array ids)
    Fault.throwIfNotMsg (nremove == updates.length) "nremove == n" "did not find all entries to remove"
    ivf.addCore (updates.map fun u ↦ ⟨u.assign, u.code⟩) (some ids) orders junk
  else do
    Fault.throwIfNot (decide (ivf.directMap.type = .array)) "direct_map.type == DirectMap::Array"
    Fault.throwIfNot ivf.isTrained "is_trained"
    let (directMap, invlists) ← ivf.directMap.updateCodes ivf.invlists updates
    return { ivf with directMap, invlists }

end IndexIVF

/-! ## Places and contents -/

/-- Entry `e` is at offset `o` of list `l`. -/
def ArrayInvertedLists.At (il : ArrayInvertedLists) (l o : ℕ) (e : Entry) : Prop :=
  l < il.nlist ∧ (il.lists l)[o]? = some e

abbrev Content := ℕ → Option (ℕ × List UInt8)

/-- The lists hold the content, each id once, and the array says where. -/
structure Located (array : List Idx) (il : ArrayInvertedLists) (content : Content) : Prop where
  entry : ∀ {l o : ℕ} {e : Entry}, il.At l o e → ∃ id < array.length, e.id = Int64.ofNat id ∧
    array[id]? = some (loOf l o) ∧ content id = some (l, e.code)
  unique : ∀ {l o l' o' : ℕ} {e e' : Entry}, il.At l o e → il.At l' o' e' → e.id = e'.id → l = l' ∧ o = o'
  stored : ∀ {id l : ℕ} {c : List UInt8}, content id = some (l, c) →
    id < array.length ∧ ∃ o, il.At l o ⟨Int64.ofNat id, c⟩

/-- There is room for every place in a word. -/
structure HasRoom (array : List Idx) (il : ArrayInvertedLists) : Prop where
  nlist_le : il.nlist ≤ 2 ^ 31
  length_le : array.length ≤ 2 ^ 32

theorem toInt_ofNat_of_lt {n : ℕ} (h : n < 2 ^ 63) : (Int64.ofNat n).toInt = n :=
  Int64.toInt_ofNat_of_lt h

theorem ofNat_inj_of_lt {m n : ℕ} (hm : m < 2 ^ 63) (hn : n < 2 ^ 63) (h : Int64.ofNat m = Int64.ofNat n) :
    m = n := by
  have := congrArg Int64.toInt h
  rw [toInt_ofNat_of_lt hm, toInt_ofNat_of_lt hn] at this
  exact Int.ofNat.inj this

theorem DirectMap.get_of_array {dm : DirectMap} {id : ℕ} {lo : Idx} (htype : dm.type = .array)
    (hlen : dm.array.length < 2 ^ 63) (hlo : dm.array[id]? = some lo) (hpos : 0 ≤ lo.toInt) :
    dm.get (Int64.ofNat id) = .ok lo := by
  obtain ⟨hid, -⟩ := List.getElem?_eq_some_iff.mp hlo
  have htoInt : (Int64.ofNat id).toInt = id := toInt_ofNat_of_lt (by omega)
  have hin : (decide (0 ≤ (Int64.ofNat id).toInt) && decide ((Int64.ofNat id).toInt < dm.array.length)) =
      true := by
    rw [htoInt, Bool.and_eq_true, decide_eq_true_iff, decide_eq_true_iff]
    omega
  have hget : dm.array.getD (Int64.ofNat id).toInt.toNat 0 = lo := by
    rw [htoInt, Int.toNat_natCast, List.getD_eq_getElem?_getD, hlo, Option.getD_some]
  unfold DirectMap.get
  rw [htype]
  dsimp only
  rw [hin, hget, decide_eq_true hpos]
  rfl

variable {array : List Idx} {il : ArrayInvertedLists} {content : Content} {id l o : ℕ} {c : List UInt8}

theorem Located.length_le (h : Located array il content) (hl : l < il.nlist) :
    (il.lists l).length ≤ array.length := by
  have hat : ∀ o : Fin (il.lists l).length, il.At l o ((il.lists l).get o) := fun o ↦
    ⟨hl, List.getElem?_eq_getElem o.isLt⟩
  have hid : ∀ o : Fin (il.lists l).length, ∃ id : Fin array.length,
      ((il.lists l).get o).id = Int64.ofNat id := by
    intro o
    obtain ⟨id, hlt, heq, -⟩ := h.entry (hat o)
    exact ⟨⟨id, hlt⟩, heq⟩
  choose f hf using hid
  have hinj : Injective f := by
    intro o o' heq
    refine Fin.ext (h.unique (hat o) (hat o') ?_).2
    rw [hf, hf, heq]
  have hcard := Fintype.card_le_of_injective f hinj
  rwa [Fintype.card_fin, Fintype.card_fin] at hcard

theorem Located.lt_of_at (h : Located array il content) (hroom : HasRoom array il) {e : Entry}
    (hat : il.At l o e) : l < 2 ^ 32 ∧ o < 2 ^ 32 := by
  obtain ⟨hlt, -⟩ := List.getElem?_eq_some_iff.mp hat.2
  have hnlist := hroom.nlist_le
  have hlen := hroom.length_le
  have hsize := h.length_le hat.1
  have hl := hat.1
  omega

theorem Located.content_of_at (h : Located array il content) (hroom : HasRoom array il)
    (hid : id < array.length) (hat : il.At l o ⟨Int64.ofNat id, c⟩) :
    array[id]? = some (loOf l o) ∧ content id = some (l, c) := by
  obtain ⟨id', hlt, heq, hlo, hcontent⟩ := h.entry hat
  have hle := hroom.length_le
  obtain rfl : id = id' := ofNat_inj_of_lt (by omega) (by omega) heq
  exact ⟨hlo, hcontent⟩

/-! ## Removing the old entry -/

/-- Where the entries of list `l` are after the last one has been moved to offset `o`. -/
theorem at_removed {o₀ l' : ℕ} {e last : Entry} (hlast : (il.lists l)[(il.lists l).length - 1]? = some last) :
    (il.setList l (((il.lists l).set o last).take ((il.lists l).length - 1))).At l' o₀ e ↔
      ∃ o', il.At l' o' e ∧ if l' = l then o₀ < (il.lists l).length - 1 ∧
        o' = (if o₀ = o then (il.lists l).length - 1 else o₀) else o' = o₀ := by
  unfold ArrayInvertedLists.At
  rw [ArrayInvertedLists.setList_lists, ArrayInvertedLists.setList_nlist]
  by_cases hl : l' = l
  · subst hl
    simp only [if_true]
    rw [List.getElem?_take, List.getElem?_set]
    constructor
    · rintro ⟨hlt, he⟩
      split_ifs at he with hfront hoff hin
      · exact ⟨_, ⟨hlt, hlast.trans he⟩, hfront, (if_pos hoff.symm).symm⟩
      · exact ⟨_, ⟨hlt, he⟩, hfront, (if_neg fun h ↦ hoff h.symm).symm⟩
    · rintro ⟨o', ⟨hlt, he⟩, hfront, rfl⟩
      refine ⟨hlt, ?_⟩
      rw [if_pos hfront]
      split_ifs at he with hoff
      · rw [if_pos hoff.symm, if_pos (by omega), ← hlast, he]
      · rw [if_neg fun h ↦ hoff h.symm, he]
  · simp only [if_neg hl]
    constructor
    · exact fun h ↦ ⟨o₀, h, rfl⟩
    · rintro ⟨o', h, rfl⟩
      exact h

theorem ArrayInvertedLists.resize_of_le {n : ℕ} (h : n ≤ il.listSize l) :
    il.resize l n = il.setList l ((il.lists l).take n) := by
  rw [ArrayInvertedLists.resize, Nat.sub_eq_zero_of_le h, List.replicate_zero, List.append_nil]

/-- What the first block does, for an id at offset `o` of list `l`. -/
theorem removeOld_eq {id : Idx} {e last : Entry} (hl : l < 2 ^ 32) (ho : o < 2 ^ 32)
    (hlo : array.getD id.toInt.toNat 0 = loOf l o) (hat : il.At l o e)
    (hlast : (il.lists l)[(il.lists l).length - 1]? = some last) :
    DirectMap.removeOld array il id = .ok
      (if o = (il.lists l).length - 1 then array else array.set last.id.toInt.toNat (loOf l o),
        il.setList l (((il.lists l).set o last).take ((il.lists l).length - 1))) := by
  obtain ⟨hlen, -⟩ := List.getElem?_eq_some_iff.mp hat.2
  have hassert : decide (l < il.nlist) = true := decide_eq_true hat.1
  have hpos : decide (0 < il.listSize l) = true := decide_eq_true (Nat.zero_lt_of_lt hlen)
  have hsize : il.listSize l = (il.lists l).length := rfl
  have hshrink : (il.lists l).length - 1 ≤ il.listSize l := Nat.sub_le _ _
  unfold DirectMap.removeOld
  dsimp only
  rw [hlo, loListno_loOf hl ho, loOffset_loOf hl ho, hassert, hpos, hsize]
  by_cases hoff : o = (il.lists l).length - 1
  · rw [if_neg (not_not.mpr hoff), if_pos hoff, ArrayInvertedLists.resize_of_le hshrink]
    rw [List.take_set_of_le (Nat.le_of_eq hoff.symm)]
    rfl
  · have hget : il.getSingle l ((il.lists l).length - 1) = .ok last := by
      rw [ArrayInvertedLists.getSingle, hlast]
    rw [if_pos hoff, if_neg hoff, hget]
    change (il.updateEntries l o [last] >>= _) = _
    rw [ArrayInvertedLists.updateEntries_eq hlen]
    change Except.ok (_, (il.setList l _).resize l _) = _
    rw [ArrayInvertedLists.resize_of_le, ArrayInvertedLists.setList_setList,
      ArrayInvertedLists.setList_lists, if_pos rfl]
    rw [ArrayInvertedLists.listSize, ArrayInvertedLists.setList_lists, if_pos rfl, List.length_set]
    exact Nat.sub_le _ _

/-- The first block takes the id out of the content. -/
theorem Located.removeOld (h : Located array il content) (hroom : HasRoom array il)
    (hid : content id = some (l, c)) :
    ∃ array' il', DirectMap.removeOld array il (Int64.ofNat id) = .ok (array', il') ∧
      Located array' il' (update content id none) ∧ array'.length = array.length ∧
      il'.nlist = il.nlist ∧ ∀ id', content id' = none → array'[id']? = array[id']? := by
  obtain ⟨hlt, o, hat⟩ := h.stored hid
  obtain ⟨hlo, -⟩ := h.content_of_at hroom hlt hat
  obtain ⟨hl32, ho32⟩ := h.lt_of_at hroom hat
  have hle := hroom.length_le
  obtain ⟨hlen, -⟩ := List.getElem?_eq_some_iff.mp hat.2
  have hlastlt : (il.lists l).length - 1 < (il.lists l).length := by omega
  -- the last entry of the list and its id
  obtain ⟨last, hlast⟩ : ∃ last, (il.lists l)[(il.lists l).length - 1]? = some last :=
    ⟨_, List.getElem?_eq_getElem hlastlt⟩
  have hatlast : il.At l ((il.lists l).length - 1) last := ⟨hat.1, hlast⟩
  obtain ⟨id₂, hlt₂, hid₂, hlo₂, hcontent₂⟩ := h.entry hatlast
  have hnat : ∀ i < array.length, (Int64.ofNat i).toInt.toNat = i := fun i hi ↦ by
    rw [toInt_ofNat_of_lt (by omega), Int.toNat_natCast]
  have hgetD : array.getD (Int64.ofNat id).toInt.toNat 0 = loOf l o := by
    rw [hnat id hlt, List.getD_eq_getElem?_getD, hlo, Option.getD_some]
  refine ⟨_, _, removeOld_eq hl32 ho32 hgetD hat hlast, ⟨?_, ?_, ?_⟩, ?_, rfl, ?_⟩
  · intro l' o₀ e hat'
    obtain ⟨o', hold, hmoved⟩ := (at_removed hlast).mp hat'
    obtain ⟨id', hlt', heq, hlo', hcontent'⟩ := h.entry hold
    -- the entry that has been removed is gone
    have hne : id' ≠ id := by
      rintro rfl
      obtain ⟨rfl, rfl⟩ := h.unique hold hat heq
      rw [if_pos rfl] at hmoved
      split_ifs at hmoved <;> omega
    refine ⟨id', ?_, heq, ?_, by rw [update_of_ne hne, hcontent']⟩
    · split
      · exact hlt'
      · rwa [List.length_set]
    · by_cases hlast' : id' = id₂
      · subst hlast'
        obtain ⟨rfl, rfl⟩ := h.unique hold hatlast (heq.trans hid₂.symm)
        rw [if_pos rfl] at hmoved
        obtain ⟨hfront, hoff⟩ := hmoved
        have ho₀ : o₀ = o := by
          by_contra hne'
          rw [if_neg hne'] at hoff
          omega
        subst ho₀
        rw [if_neg (by omega), hid₂, hnat id' hlt₂, List.getElem?_set_self hlt₂]
      · have hsame : o' = o₀ := by
          by_cases hl' : l' = l
          · subst hl'
            rw [if_pos rfl] at hmoved
            obtain ⟨hfront, hoff⟩ := hmoved
            by_cases ho₀ : o₀ = o
            · rw [if_pos ho₀] at hoff
              subst hoff
              have hsame := Option.some.inj (hold.2.symm.trans hlast)
              exact absurd (ofNat_inj_of_lt (by omega) (by omega) (heq.symm.trans (hsame ▸ hid₂))) hlast'
            · rwa [if_neg ho₀] at hoff
          · rwa [if_neg hl'] at hmoved
        subst hsame
        split
        · exact hlo'
        · rw [hid₂, hnat id₂ hlt₂, List.getElem?_set_ne fun h ↦ hlast' h.symm, hlo']
  · intro l₁ o₁ l₂ o₂ e₁ e₂ hat₁ hat₂ heq
    obtain ⟨o₁', hold₁, hmoved₁⟩ := (at_removed hlast).mp hat₁
    obtain ⟨o₂', hold₂, hmoved₂⟩ := (at_removed hlast).mp hat₂
    obtain ⟨rfl, rfl⟩ := h.unique hold₁ hold₂ heq
    refine ⟨rfl, ?_⟩
    by_cases hl₁ : l₁ = l
    · rw [if_pos hl₁] at hmoved₁ hmoved₂
      obtain ⟨hfront₁, hoff₁⟩ := hmoved₁
      obtain ⟨hfront₂, hoff₂⟩ := hmoved₂
      split_ifs at hoff₁ hoff₂ <;> omega
    · rw [if_neg hl₁] at hmoved₁ hmoved₂
      exact hmoved₁.symm.trans hmoved₂
  · intro id' l' c' hcontent'
    have hne : id' ≠ id := by
      rintro rfl
      rw [update_self] at hcontent'
      cases hcontent'
    rw [update_of_ne hne] at hcontent'
    obtain ⟨hlt', o', hold⟩ := h.stored hcontent'
    refine ⟨?_, ?_⟩
    · split
      · exact hlt'
      · rwa [List.length_set]
    · by_cases hl' : l' = l
      · subst hl'
        have hoff : o' ≠ o := by
          rintro rfl
          have hsame := Option.some.inj (hold.2.symm.trans hat.2)
          exact hne (ofNat_inj_of_lt (by omega) (by omega) (congrArg Entry.id hsame))
        obtain ⟨hlen', -⟩ := List.getElem?_eq_some_iff.mp hold.2
        by_cases hend : o' = (il.lists l').length - 1
        · exact ⟨o, (at_removed hlast).mpr ⟨o', hold, by rw [if_pos rfl, if_pos rfl]; omega⟩⟩
        · exact ⟨o', (at_removed hlast).mpr ⟨o', hold, by rw [if_pos rfl, if_neg hoff]; omega⟩⟩
      · exact ⟨o', (at_removed hlast).mpr ⟨o', hold, by rw [if_neg hl']⟩⟩
  · split
    · rfl
    · exact List.length_set
  · intro id' hnone
    split
    · rfl
    · rw [hid₂, hnat id₂ hlt₂, List.getElem?_set_ne]
      rintro rfl
      rw [hcontent₂] at hnone
      cases hnone

/-! ## Inserting the new entry -/

/-- Where the entries are after one has been added to list `l`. -/
theorem at_added {e₀ e : Entry} {l' o' : ℕ} (hl : l < il.nlist) :
    (il.addEntry l e₀).At l' o' e ↔ il.At l' o' e ∨ l' = l ∧ o' = (il.lists l).length ∧ e = e₀ := by
  rw [ArrayInvertedLists.addEntry_eq]
  unfold ArrayInvertedLists.At
  rw [ArrayInvertedLists.setList_lists, ArrayInvertedLists.setList_nlist]
  by_cases hl' : l' = l
  · subst hl'
    rw [if_pos rfl]
    rcases Nat.lt_trichotomy o' (il.lists l').length with hlt | rfl | hgt
    · rw [List.getElem?_append_left hlt]
      constructor
      · exact Or.inl
      · rintro (h | ⟨-, rfl, -⟩)
        · exact h
        · exact absurd hlt (lt_irrefl _)
    · rw [List.getElem?_append_right le_rfl, Nat.sub_self, List.getElem?_cons_zero]
      constructor
      · rintro ⟨-, he⟩
        exact Or.inr ⟨rfl, rfl, (Option.some.inj he).symm⟩
      · rintro (⟨-, he⟩ | ⟨-, -, rfl⟩)
        · rw [List.getElem?_eq_none le_rfl] at he
          cases he
        · exact ⟨hl, rfl⟩
    · have hnone : (il.lists l')[o']? = none := List.getElem?_eq_none hgt.le
      have hnone' : (il.lists l' ++ [e₀])[o']? = none := by
        refine List.getElem?_eq_none ?_
        rw [List.length_append, List.length_singleton]
        exact hgt
      rw [hnone, hnone']
      constructor
      · rintro ⟨-, ⟨⟩⟩
      · rintro (⟨-, ⟨⟩⟩ | ⟨-, rfl, -⟩)
        exact absurd hgt (lt_irrefl _)
  · rw [if_neg hl']
    constructor
    · exact Or.inl
    · rintro (h | ⟨rfl, -⟩)
      · exact h
      · exact absurd rfl hl'

/-- The second block puts an id into the content. -/
theorem Located.insertNew (h : Located array il content) (hroom : HasRoom array il)
    (hid : id < array.length) (hnone : content id = none) (hl : l < il.nlist) :
    ∃ array' il', DirectMap.insertNew array il ⟨Int64.ofNat id, l, c⟩ = .ok (array', il') ∧
      Located array' il' (update content id (some (l, c))) ∧ array'.length = array.length ∧
      il'.nlist = il.nlist ∧ ∀ id' ≠ id, array'[id']? = array[id']? := by
  have hle := hroom.length_le
  have hnat : (Int64.ofNat id).toInt.toNat = id := by
    rw [toInt_ofNat_of_lt (by omega), Int.toNat_natCast]
  have hassert : decide ((0 : ℤ) ≤ l ∧ (l : ℤ) < il.nlist) = true := decide_eq_true (by omega)
  have hinsert : DirectMap.insertNew array il ⟨Int64.ofNat id, l, c⟩ =
      .ok (array.set id (loOf l (il.lists l).length), il.addEntry l ⟨Int64.ofNat id, c⟩) := by
    unfold DirectMap.insertNew
    rw [hassert, hnat, Int.toNat_natCast]
    rfl
  -- no entry has the id yet
  have hfresh : ∀ {l' o' : ℕ} {e : Entry}, il.At l' o' e → e.id ≠ Int64.ofNat id := by
    intro l' o' e hat heq
    obtain ⟨id', hlt', heq', -, hcontent'⟩ := h.entry hat
    obtain rfl : id' = id := ofNat_inj_of_lt (by omega) (by omega) (heq'.symm.trans heq)
    rw [hnone] at hcontent'
    cases hcontent'
  refine ⟨_, _, hinsert, ⟨?_, ?_, ?_⟩, List.length_set, ?_, ?_⟩
  · intro l' o' e hat
    rcases (at_added hl).mp hat with hold | ⟨rfl, rfl, rfl⟩
    · obtain ⟨id', hlt', heq', hlo', hcontent'⟩ := h.entry hold
      have hne : id' ≠ id := by
        rintro rfl
        exact hfresh hold heq'
      refine ⟨id', by rwa [List.length_set], heq', ?_, by rw [update_of_ne hne, hcontent']⟩
      rw [List.getElem?_set_ne hne.symm, hlo']
    · exact ⟨id, by rwa [List.length_set], rfl, List.getElem?_set_self hid, update_self _ _ _⟩
  · intro l₁ o₁ l₂ o₂ e₁ e₂ hat₁ hat₂ heq
    rcases (at_added hl).mp hat₁ with hold₁ | ⟨rfl, rfl, rfl⟩
    · rcases (at_added hl).mp hat₂ with hold₂ | ⟨rfl, rfl, rfl⟩
      · exact h.unique hold₁ hold₂ heq
      · exact absurd heq (hfresh hold₁)
    · rcases (at_added hl).mp hat₂ with hold₂ | ⟨rfl, rfl, -⟩
      · exact absurd heq.symm (hfresh hold₂)
      · exact ⟨rfl, rfl⟩
  · intro id' l' c' hcontent'
    rw [List.length_set]
    by_cases hne : id' = id
    · subst hne
      rw [update_self] at hcontent'
      cases hcontent'
      exact ⟨hid, _, (at_added hl).mpr (Or.inr ⟨rfl, rfl, rfl⟩)⟩
    · rw [update_of_ne hne] at hcontent'
      obtain ⟨hlt', o', hold⟩ := h.stored hcontent'
      exact ⟨hlt', o', (at_added hl).mpr (Or.inl hold)⟩
  · rw [ArrayInvertedLists.addEntry_eq, ArrayInvertedLists.setList_nlist]
  · exact fun id' hne ↦ List.getElem?_set_ne hne.symm

/-! ## Runs of updates -/

/-- The array has the word of no list for the ids that are not stored. -/
structure Represents (array : List Idx) (il : ArrayInvertedLists) (content : Content) : Prop
    extends Located array il content where
  missing : ∀ id < array.length, content id = none → array[id]? = some (loOf (-1) 0)

def Content.put (content : Content) (u : Update) : Content :=
  update content u.id.toInt.toNat (some (u.assign.toNat, u.code))

@[simp] theorem Content.put_self (content : Content) (u : Update) :
    content.put u u.id.toInt.toNat = some (u.assign.toNat, u.code) :=
  update_self _ _ _

theorem Content.put_of_ne (content : Content) {u : Update} {id : ℕ} (h : id ≠ u.id.toInt.toNat) :
    content.put u id = content id :=
  update_of_ne h _ _

/-- An update that passes the range check, to one of the lists. -/
structure Update.InRange (u : Update) (size nlist : ℕ) : Prop where
  id_nonneg : 0 ≤ u.id.toInt
  id_lt : u.id.toInt < size
  assign_nonneg : 0 ≤ u.assign
  assign_lt : u.assign < nlist

variable {u : Update} {updates : List Update}

theorem Update.InRange.check (h : u.InRange array.length il.nlist) :
    Fault.throwIfNotMsg (decide (0 ≤ u.id.toInt) && decide (u.id.toInt < array.length))
      "0 <= id && id < array.size()" "id to update out of range" = .ok () := by
  rw [decide_eq_true h.id_nonneg, decide_eq_true h.id_lt]
  rfl

theorem Update.ofNat_toInt_id (h : 0 ≤ u.id.toInt) : Int64.ofNat u.id.toInt.toNat = u.id := by
  have hofInt : Int64.ofNat u.id.toInt.toNat = Int64.ofInt (u.id.toInt.toNat : ℤ) := rfl
  rw [hofInt, Int.toNat_of_nonneg h, Int64.ofInt_toInt]

variable (h : Represents array il content) (hroom : HasRoom array il)
include h hroom

theorem Represents.updateCode
    (hu : u.InRange array.length il.nlist) (hstored : content u.id.toInt.toNat ≠ none) :
    ∃ array' il', DirectMap.updateCode (array, il) u = .ok (array', il') ∧
      Represents array' il' (content.put u) ∧ array'.length = array.length ∧ il'.nlist = il.nlist := by
  obtain ⟨⟨l, c⟩, hid⟩ := Option.ne_none_iff_exists'.mp hstored
  obtain ⟨array₁, il₁, hremove, hloc₁, hlen₁, hnlist₁, hkeep₁⟩ := h.toLocated.removeOld hroom hid
  have hlt : u.id.toInt.toNat < array.length := by
    have := hu.id_nonneg
    have := hu.id_lt
    omega
  have hassign : ((u.assign.toNat : ℕ) : ℤ) = u.assign := Int.toNat_of_nonneg hu.assign_nonneg
  have hassignlt : u.assign.toNat < il₁.nlist := by
    have := hu.assign_lt
    omega
  obtain ⟨array₂, il₂, hinsert, hloc₂, hlen₂, hnlist₂, hkeep₂⟩ := hloc₁.insertNew (c := u.code)
    ⟨hnlist₁ ▸ hroom.nlist_le, hlen₁ ▸ hroom.length_le⟩ (hlen₁ ▸ hlt) (update_self _ _ _) hassignlt
  rw [Update.ofNat_toInt_id hu.id_nonneg] at hremove hinsert
  rw [hassign] at hinsert
  rw [update_idem] at hloc₂
  refine ⟨array₂, il₂, ?_, ⟨hloc₂, fun id' hid' hnone ↦ ?_⟩, hlen₂.trans hlen₁, hnlist₂.trans hnlist₁⟩
  · exact Fault.bind_eq_ok.mpr ⟨(), hu.check, Fault.bind_eq_ok.mpr ⟨_, hremove, hinsert⟩⟩
  · have hne : id' ≠ u.id.toInt.toNat := by
      rintro rfl
      rw [Content.put_self] at hnone
      cases hnone
    rw [Content.put_of_ne content hne] at hnone
    rw [hkeep₂ id' hne, hkeep₁ id' hnone]
    exact h.missing id' (by omega) hnone

theorem Represents.updateCode_missing
    (hu : u.InRange array.length il.nlist) (hnone : content u.id.toInt.toNat = none) :
    DirectMap.updateCode (array, il) u = .error (.assertion "list_no < nlist") := by
  have hlt : u.id.toInt.toNat < array.length := by
    have := hu.id_nonneg
    have := hu.id_lt
    omega
  have hlo : array.getD u.id.toInt.toNat 0 = loOf (-1) 0 := by
    rw [List.getD_eq_getElem?_getD, h.missing _ hlt hnone, Option.getD_some]
  have hlistno : (loListno (loOf (-1) 0).toUInt64).toNat = 2 ^ 32 - 1 := by decide
  have hassert : decide (2 ^ 32 - 1 < il.nlist) = false := by
    have := hroom.nlist_le
    exact decide_eq_false (by omega)
  have hremove : DirectMap.removeOld array il u.id = .error (.assertion "list_no < nlist") := by
    unfold DirectMap.removeOld
    dsimp only
    rw [hlo, hlistno, hassert]
    rfl
  unfold DirectMap.updateCode
  dsimp only
  rw [hu.check, hremove]
  rfl

/-- The loop returns if all ids are stored, and then the lists hold the new content. -/
theorem Represents.foldlM_updateCode (hu : ∀ u ∈ updates, u.InRange array.length il.nlist)
    (hstored : ∀ u ∈ updates, content u.id.toInt.toNat ≠ none) :
    ∃ array' il', updates.foldlM DirectMap.updateCode (array, il) = .ok (array', il') ∧
      Represents array' il' (updates.foldl Content.put content) ∧ array'.length = array.length ∧
      il'.nlist = il.nlist := by
  induction updates generalizing array il content with
  | nil => exact ⟨array, il, rfl, h, rfl, rfl⟩
  | cons u updates ih =>
      obtain ⟨array₁, il₁, hone, hrep, hlen, hnlist⟩ :=
        h.updateCode hroom (hu u List.mem_cons_self) (hstored u List.mem_cons_self)
      have hput : ∀ v ∈ updates, content.put u v.id.toInt.toNat ≠ none := by
        intro v hv
        by_cases hne : v.id.toInt.toNat = u.id.toInt.toNat
        · rw [hne, Content.put_self]
          exact Option.some_ne_none _
        · rw [Content.put_of_ne content hne]
          exact hstored v (List.mem_cons_of_mem u hv)
      obtain ⟨array₂, il₂, hrest, hrep₂, hlen₂, hnlist₂⟩ := ih hrep
        ⟨hnlist ▸ hroom.nlist_le, hlen ▸ hroom.length_le⟩
        (fun v hv ↦ by rw [hlen, hnlist]; exact hu v (List.mem_cons_of_mem u hv)) hput
      exact ⟨array₂, il₂, by rw [List.foldlM_cons, hone]; exact hrest, hrep₂, hlen₂.trans hlen,
        hnlist₂.trans hnlist⟩

theorem Represents.foldlM_updateCode_missing (hu : ∀ u ∈ updates, u.InRange array.length il.nlist)
    (hmissing : ∃ u ∈ updates, content u.id.toInt.toNat = none) :
    updates.foldlM DirectMap.updateCode (array, il) = .error (.assertion "list_no < nlist") := by
  induction updates generalizing array il content with
  | nil =>
      obtain ⟨u, hu, -⟩ := hmissing
      exact absurd hu List.not_mem_nil
  | cons u updates ih =>
      have hu' := hu u List.mem_cons_self
      by_cases hid : content u.id.toInt.toNat = none
      · rw [List.foldlM_cons, h.updateCode_missing hroom hu' hid]
        rfl
      · obtain ⟨array₁, il₁, hone, hrep, hlen, hnlist⟩ := h.updateCode hroom hu' hid
        rw [List.foldlM_cons, hone]
        refine ih hrep ⟨hnlist ▸ hroom.nlist_le, hlen ▸ hroom.length_le⟩
          (fun v hv ↦ by rw [hlen, hnlist]; exact hu v (List.mem_cons_of_mem u hv)) ?_
        obtain ⟨v, hv, hnone⟩ := hmissing
        have hne : v.id.toInt.toNat ≠ u.id.toInt.toNat := fun heq ↦ hid (heq ▸ hnone)
        rcases List.mem_cons.mp hv with rfl | hv
        · exact absurd rfl hne
        · exact ⟨v, hv, by rw [Content.put_of_ne content hne, hnone]⟩

end FaissNavix
