import FaissNavix.Invlists.DirectMap

/-!
# What a block of vectors adds

The threads of `add_core` share the lists among them, and each of them gets to the vectors of its
lists in their order.  Whatever the order in which the threads get to them all, every list grows by its
vectors in their order, and the direct map learns where each of them is put.
-/

namespace FaissNavix

open Function

namespace IndexIVF

/-! ## Orders of the threads -/

/-- The assignment of vector `i`. -/
def listNoOf (vectors : List Assigned) (i : ℕ) : ℤ :=
  (vectors[i]?.map Assigned.listNo).getD (-1)

/-- The code of vector `i`. -/
def codeOf (vectors : List Assigned) (i : ℕ) : List UInt8 :=
  (vectors[i]?.map Assigned.code).getD []

/-- The threads get to every vector once, and to those of a list in their order. -/
structure ThreadOrder (vectors : List Assigned) (order : List ℕ) : Prop where
  perm : order.Perm (List.range vectors.length)
  ordered : order.Pairwise fun i j ↦ listNoOf vectors i = listNoOf vectors j → i < j

/-- Those of the first `m` vectors that go to list `l`. -/
def assignedTo (vectors : List Assigned) (l : ℤ) (m : ℕ) : List ℕ :=
  (List.range m).filter fun i ↦ listNoOf vectors i = l

/-- The offset at which vector `i` is put. -/
def offsetOf (il : ArrayInvertedLists) (vectors : List Assigned) (i : ℕ) : ℕ :=
  il.listSize (listNoOf vectors i).toNat + (assignedTo vectors (listNoOf vectors i) i).length

/-- The lists to which vectors are added. -/
def extend (il : ArrayInvertedLists) (id : ℕ → Idx) (vectors : List Assigned) (order : List ℕ) :
    ArrayInvertedLists :=
  { il with lists := fun l ↦ il.lists l ++
      (order.filter fun i ↦ listNoOf vectors i = l).map fun i ↦ ⟨id i, codeOf vectors i⟩ }

/-- What the direct map is told of vector `i`. -/
def addPlace (il : ArrayInvertedLists) (vectors : List Assigned) (a : DirectMapAdd) (i : ℕ) :
    DirectMapAdd :=
  if 0 ≤ listNoOf vectors i then a.add i (listNoOf vectors i) (offsetOf il vectors i)
  else a.add i (-1) 0

variable {il : ArrayInvertedLists} {id : ℕ → Idx} {vectors : List Assigned} {order : List ℕ}
  {a : DirectMapAdd}

theorem threadOrder_range (vectors : List Assigned) :
    ThreadOrder vectors (List.range vectors.length) :=
  ⟨List.Perm.refl _, List.pairwise_lt_range.imp fun h ↦ fun _ ↦ h⟩

theorem listNoOf_of_mem_filter {l : ℤ} {is : List ℕ} {i : ℕ}
    (h : i ∈ is.filter fun i ↦ listNoOf vectors i = l) : listNoOf vectors i = l :=
  of_decide_eq_true (List.mem_filter.mp h).2

theorem ThreadOrder.filter_eq (h : ThreadOrder vectors order) (l : ℤ) :
    order.filter (fun i ↦ listNoOf vectors i = l) = assignedTo vectors l vectors.length := by
  have hsorted : (order.filter fun i ↦ listNoOf vectors i = l).Pairwise (· < ·) := by
    refine List.Pairwise.imp_of_mem (fun {i j} hi hj hij ↦ hij ?_) (h.ordered.filter _)
    rw [listNoOf_of_mem_filter hi, listNoOf_of_mem_filter hj]
  exact (h.perm.filter _).eq_of_pairwise (fun i j _ _ hij hji ↦ absurd hij (Nat.lt_asymm hji)) hsorted
    (List.pairwise_lt_range.filter _)

/-- When a thread gets to vector `i`, its list has got the vectors before it. -/
theorem ThreadOrder.filter_before (h : ThreadOrder vectors order) {before after : List ℕ} {i : ℕ}
    (horder : order = before ++ i :: after) :
    before.filter (fun j ↦ listNoOf vectors j = listNoOf vectors i) =
      assignedTo vectors (listNoOf vectors i) i := by
  have hordered := h.ordered
  rw [horder, List.pairwise_append, List.pairwise_cons] at hordered
  obtain ⟨hbefore, ⟨hafter, -⟩, hcross⟩ := hordered
  have hsorted : (before.filter fun j ↦ listNoOf vectors j = listNoOf vectors i).Pairwise (· < ·) := by
    refine List.Pairwise.imp_of_mem (fun {j k} hj hk hjk ↦ hjk ?_) (hbefore.filter _)
    rw [listNoOf_of_mem_filter hj, listNoOf_of_mem_filter hk]
  have hi : i < vectors.length := by
    refine List.mem_range.mp (h.perm.mem_iff.mp ?_)
    rw [horder]
    exact List.mem_append_right _ List.mem_cons_self
  have hmem : ∀ j, j ∈ before.filter (fun j ↦ listNoOf vectors j = listNoOf vectors i) ↔
      j ∈ assignedTo vectors (listNoOf vectors i) i := by
    intro j
    rw [assignedTo, List.mem_filter, List.mem_filter, List.mem_range]
    refine and_congr_left fun hlist ↦ ?_
    have hlist := of_decide_eq_true hlist
    constructor
    · exact fun hj ↦ hcross j hj i List.mem_cons_self hlist
    · intro hj
      have hin : j ∈ order := h.perm.mem_iff.mpr (List.mem_range.mpr (hj.trans hi))
      rw [horder, List.mem_append, List.mem_cons] at hin
      rcases hin with hin | rfl | hin
      · exact hin
      · exact absurd hj (Nat.lt_irrefl j)
      · exact absurd (hafter j hin hlist.symm) (Nat.lt_asymm hj)
  have hnodup := hsorted.imp fun {j k} hjk ↦ Nat.ne_of_lt hjk
  have hsorted' : (assignedTo vectors (listNoOf vectors i) i).Pairwise (· < ·) :=
    List.pairwise_lt_range.filter _
  exact ((List.perm_ext_iff_of_nodup hnodup (hsorted'.imp fun {j k} hjk ↦ Nat.ne_of_lt hjk)).mpr
    hmem).eq_of_pairwise (fun i j _ _ hij hji ↦ absurd hij (Nat.lt_asymm hji)) hsorted hsorted'

/-! ## What the threads do -/

/-- What the map is told of two vectors, in either order. -/
theorem addPlace_comm (a : DirectMapAdd) (i j : ℕ) :
    addPlace il vectors (addPlace il vectors a i) j =
      addPlace il vectors (addPlace il vectors a j) i := by
  have hadd : ∀ (l l' : ℤ) (o o' : ℕ), (i = j → l = l' ∧ o = o') →
      (a.add i l o).add j l' o' = (a.add j l' o').add i l o := by
    intro l l' o o' hsame
    by_cases hij : i = j
    · obtain ⟨rfl, rfl⟩ := hsame hij
      subst hij
      rfl
    · unfold DirectMapAdd.add
      cases htype : a.directMap.type with
      | noMap => simp only [htype]
      | array =>
          simp only [htype]
          rw [List.set_comm _ _ (by omega)]
      | hashtable =>
          simp only [htype]
          rw [List.set_comm _ _ hij]
  unfold addPlace
  split_ifs with hj hi hi
  · exact hadd _ _ _ _ fun h ↦ by rw [h]; exact ⟨rfl, rfl⟩
  · exact hadd _ _ _ _ fun h ↦ absurd (h ▸ hj) hi
  · exact hadd _ _ _ _ fun h ↦ absurd (h ▸ hi) hj
  · exact hadd _ _ _ _ fun _ ↦ ⟨rfl, rfl⟩

theorem addVector_fst (id : ℕ → Idx) (vectors : List Assigned)
    (s : ArrayInvertedLists × DirectMapAdd) (i : ℕ) :
    (addVector id vectors s i).1.nlist = s.1.nlist ∧
      (addVector id vectors s i).1.codeSize = s.1.codeSize := by
  unfold addVector
  cases vectors[i]? with
  | none => exact ⟨rfl, rfl⟩
  | some v =>
      dsimp only
      split_ifs
      · exact ⟨rfl, rfl⟩
      · exact ⟨rfl, rfl⟩
      · exact ⟨rfl, rfl⟩

/-- A vector with an assignment is put where the vectors of its list before it end. -/
theorem addVector_extend (hassigned : ∀ v ∈ vectors, -1 ≤ v.listNo) {before after : List ℕ} {i : ℕ}
    (h : ThreadOrder vectors order) (horder : order = before ++ i :: after) (a : DirectMapAdd) :
    addVector id vectors (extend il id vectors before, a) i =
      (extend il id vectors (before ++ [i]), addPlace il vectors a i) := by
  have hi : i < vectors.length := by
    refine List.mem_range.mp (h.perm.mem_iff.mp ?_)
    rw [horder]
    exact List.mem_append_right _ List.mem_cons_self
  have hget : vectors[i]? = some vectors[i] := List.getElem?_eq_getElem hi
  have hlist : listNoOf vectors i = vectors[i].listNo := by rw [listNoOf, hget]; rfl
  have hcode : codeOf vectors i = vectors[i].code := by rw [codeOf, hget]; rfl
  have hge := hassigned _ (List.getElem_mem hi)
  unfold addVector addPlace
  rw [hget]
  dsimp only
  rw [← hlist, ← hcode] at *
  have hsnoc : ∀ l : ℕ, (extend il id vectors (before ++ [i])).lists l =
      (extend il id vectors before).lists l ++
        if listNoOf vectors i = l then [⟨id i, codeOf vectors i⟩] else [] := by
    intro l
    unfold extend
    dsimp only
    rw [List.filter_append, List.map_append, List.append_assoc]
    by_cases hl : listNoOf vectors i = l
    · have hone : [i].filter (fun i ↦ listNoOf vectors i = l) = [i] :=
        List.filter_cons_of_pos (decide_eq_true hl)
      rw [if_pos hl, hone]
      rfl
    · have hnone : [i].filter (fun i ↦ listNoOf vectors i = l) = [] :=
        List.filter_cons_of_neg (by rwa [decide_eq_true_iff])
      rw [if_neg hl, hnone]
      rfl
  by_cases hpos : 0 ≤ listNoOf vectors i
  · rw [if_pos hpos, if_pos hpos]
    have hnat : ((listNoOf vectors i).toNat : ℤ) = listNoOf vectors i := Int.toNat_of_nonneg hpos
    have hlists : ((extend il id vectors before).addEntries (listNoOf vectors i).toNat
        [⟨id i, codeOf vectors i⟩]).1 = extend il id vectors (before ++ [i]) := by
      rw [ArrayInvertedLists.addEntries_fst]
      refine congrArg (ArrayInvertedLists.mk il.nlist il.codeSize) (funext fun l ↦ ?_)
      change update (extend il id vectors before).lists _ _ l =
        (extend il id vectors (before ++ [i])).lists l
      rw [hsnoc, update_apply]
      by_cases hl : l = (listNoOf vectors i).toNat
      · rw [if_pos hl, if_pos (by omega), hl]
      · rw [if_neg hl, if_neg (by omega), List.append_nil]
    have hofs : ((extend il id vectors before).addEntries (listNoOf vectors i).toNat
        [⟨id i, codeOf vectors i⟩]).2 = offsetOf il vectors i := by
      change ((extend il id vectors before).lists _).length = _
      unfold extend
      dsimp only
      rw [List.length_append, List.length_map, hnat, h.filter_before horder]
      rfl
    rw [← hlists, ← hofs]
  · rw [if_neg hpos, if_neg hpos, if_pos (by omega)]
    refine congrArg (·, a.add i (-1) 0) ?_
    refine congrArg (ArrayInvertedLists.mk il.nlist il.codeSize) (funext fun l ↦ ?_)
    have hl := hsnoc l
    rw [if_neg (by omega), List.append_nil] at hl
    exact hl.symm

theorem foldl_addVector (hassigned : ∀ v ∈ vectors, -1 ≤ v.listNo)
    (h : ThreadOrder vectors order) (a : DirectMapAdd) :
    order.foldl (addVector id vectors) (il, a) =
      (extend il id vectors (List.range vectors.length),
        (List.range vectors.length).foldl (addPlace il vectors) a) := by
  have hahead : ∀ before after, order = before ++ after →
      before.foldl (addVector id vectors) (il, a) =
        (extend il id vectors before, before.foldl (addPlace il vectors) a) := by
    intro before
    induction before using List.reverseRecOn with
    | nil =>
        intro _ _
        refine congrArg (·, a) (congrArg (ArrayInvertedLists.mk il.nlist il.codeSize) ?_)
        exact funext fun l ↦ (List.append_nil _).symm
    | append_singleton before i ih =>
        intro after horder
        rw [List.append_assoc, List.singleton_append] at horder
        rw [List.foldl_append, List.foldl_append, ih (i :: after) horder]
        exact addVector_extend hassigned h horder _
  have hcomm : RightCommutative (addPlace il vectors) := ⟨addPlace_comm⟩
  rw [hahead order [] (List.append_nil _).symm, h.perm.foldl_eq a]
  refine congrArg (·, _) (congrArg (ArrayInvertedLists.mk il.nlist il.codeSize) (funext fun l ↦ ?_))
  rw [h.filter_eq l]
  rfl

/-! ## What the direct map learns -/

/-- The number that the direct map keeps for vector `i`. -/
def placeOf (il : ArrayInvertedLists) (vectors : List Assigned) (i : ℕ) : Idx :=
  if 0 ≤ listNoOf vectors i then loOf (listNoOf vectors i) (offsetOf il vectors i) else loOf (-1) 0

/-- The direct map after a block of vectors.  Without ids, what a hash table takes for theirs starts
at `junk`. -/
def addedMap (dm : DirectMap) (il : ArrayInvertedLists) (vectors : List Assigned)
    (xids : Option (List Idx)) (junk : ℕ) : DirectMap :=
  let places := (List.range vectors.length).map (placeOf il vectors)
  match dm.type with
  | .array => { dm with array := dm.array ++ places }
  | .hashtable => { dm with
      hashtable := (List.range vectors.length).foldl (fun table i ↦
        update table (match xids with
          | some xids => xids.getD i 0
          | none => Int64.ofNat (junk + i)) (some (placeOf il vectors i))) dm.hashtable }
  | .noMap => dm

theorem foldl_set_append {α : Type} (base : List α) (f : ℕ → α) (v : α) (n : ℕ) :
    (List.range n).foldl (fun l i ↦ l.set (base.length + i) (f i)) (base ++ List.replicate n v) =
      base ++ (List.range n).map f := by
  have hupto : ∀ m ≤ n, (List.range m).foldl (fun l i ↦ l.set (base.length + i) (f i))
      (base ++ List.replicate n v) = base ++ ((List.range m).map f ++ List.replicate (n - m) v) := by
    intro m
    induction m with
    | zero => exact fun _ ↦ rfl
    | succ m ih =>
        intro hm
        have hlen : ((List.range m).map f).length = m := by rw [List.length_map, List.length_range]
        have hrest : n - m = n - (m + 1) + 1 := by omega
        rw [List.range_succ, List.foldl_append, ih (by omega), List.foldl_cons, List.foldl_nil,
          List.set_append_right _ _ (Nat.le_add_right _ _), Nat.add_sub_cancel_left,
          List.set_append_right _ _ hlen.le, hlen, Nat.sub_self, hrest, List.replicate_succ,
          List.set_cons_zero, List.map_append, List.append_assoc]
        rfl
  rw [hupto n le_rfl, Nat.sub_self, List.replicate_zero, List.append_nil]

theorem addPlace_eq (a : DirectMapAdd) (i : ℕ) :
    addPlace il vectors a i = match a.directMap.type with
      | .array => { a with directMap := { a.directMap with
          array := a.directMap.array.set (a.ntotal + i) (placeOf il vectors i) } }
      | .hashtable => { a with allOfs := a.allOfs.set i (placeOf il vectors i) }
      | .noMap => a := by
  unfold addPlace placeOf DirectMapAdd.add
  split_ifs <;> rfl

theorem foldl_addPlace_array {is : List ℕ} (htype : a.directMap.type = .array) :
    is.foldl (addPlace il vectors) a = { a with directMap := { a.directMap with
      array := is.foldl (fun l i ↦ l.set (a.ntotal + i) (placeOf il vectors i))
        a.directMap.array } } := by
  induction is generalizing a with
  | nil => rfl
  | cons i is ih =>
      rw [List.foldl_cons, addPlace_eq, htype]
      exact ih htype

theorem foldl_addPlace_hashtable {is : List ℕ} (htype : a.directMap.type = .hashtable) :
    is.foldl (addPlace il vectors) a =
      { a with allOfs := is.foldl (fun l i ↦ l.set i (placeOf il vectors i)) a.allOfs } := by
  induction is generalizing a with
  | nil => rfl
  | cons i is ih =>
      rw [List.foldl_cons, addPlace_eq, htype]
      exact ih htype

theorem foldl_addPlace_noMap {is : List ℕ} (htype : a.directMap.type = .noMap) :
    is.foldl (addPlace il vectors) a = a := by
  induction is with
  | nil => rfl
  | cons i is ih =>
      rw [List.foldl_cons, addPlace_eq, htype]
      exact ih

theorem finish_foldl_addPlace {dm : DirectMap} {xids : Option (List Idx)} {junk : ℕ}
    (ha : DirectMapAdd.new dm vectors.length xids junk = .ok a) :
    ((List.range vectors.length).foldl (addPlace il vectors) a).finish =
      addedMap dm il vectors xids junk := by
  obtain ⟨type, array, hashtable⟩ := dm
  cases type with
  | noMap =>
      cases ha
      rw [foldl_addPlace_noMap rfl]
      rfl
  | array =>
      obtain ⟨_, -, ⟨⟩⟩ := Fault.bind_eq_ok.mp ha
      rw [foldl_addPlace_array rfl]
      exact congrArg (DirectMap.mk _ · _) (foldl_set_append array _ _ _)
  | hashtable =>
      cases ha
      have hofs := foldl_set_append [] (placeOf il vectors) (-1) vectors.length
      simp only [List.length_nil, Nat.zero_add, List.nil_append] at hofs
      rw [foldl_addPlace_hashtable rfl]
      refine congrArg (DirectMap.mk _ _) (List.foldl_ext _ _ _ fun table i hi ↦ ?_)
      have hplace : ((List.range vectors.length).map (placeOf il vectors)).getD i 0 =
          placeOf il vectors i := by
        rw [List.getD_eq_getElem?_getD, List.getElem?_map, List.getElem?_range (List.mem_range.mp hi)]
        rfl
      dsimp only
      rw [hofs, hplace]
      cases xids <;> rfl

theorem exists_directMapAdd {dm : DirectMap} {xids : Option (List Idx)} (n : ℕ)
    (hids : dm.type = .array → xids = none) (junk : ℕ) :
    ∃ a, DirectMapAdd.new dm n xids junk = .ok a := by
  unfold DirectMapAdd.new
  cases htype : dm.type with
  | noMap => exact ⟨_, rfl⟩
  | array => exact ⟨_, by rw [hids htype]; rfl⟩
  | hashtable => exact ⟨_, rfl⟩

theorem addBlock_eq {ivf : IndexIVF ArrayInvertedLists} {xids : Option (List Idx)}
    (htrained : ivf.isTrained = true) (hids : ivf.directMap.type = .array → xids = none)
    (hassigned : ∀ v ∈ vectors, -1 ≤ v.listNo) (h : ThreadOrder vectors order) (junk : ℕ) :
    ivf.addBlock vectors xids order junk = .ok { ivf with
      invlists := extend ivf.invlists (newId ivf.ntotal xids) vectors (List.range vectors.length)
      directMap := addedMap ivf.directMap ivf.invlists vectors xids junk
      ntotal := ivf.ntotal + vectors.length } := by
  have hcheck : ivf.directMap.checkCanAdd xids = .ok () := by
    refine if_neg fun ⟨htype, hsome⟩ ↦ ?_
    rw [hids htype] at hsome
    exact Bool.false_ne_true hsome
  obtain ⟨a, ha⟩ := exists_directMapAdd vectors.length hids junk
  rw [addBlock, htrained, hcheck, ha, ← finish_foldl_addPlace ha]
  change Except.ok _ = Except.ok _
  rw [foldl_addVector hassigned h]

end IndexIVF

end FaissNavix
