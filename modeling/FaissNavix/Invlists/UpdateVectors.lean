import FaissNavix.Invlists.UpdateCodes

/-!
# Updating vectors

The array map of an index to which vectors were only added says where each of them is, apart from those
that no list took.  `update_vectors` keeps this as long as it is called with ids that are stored; for the
others it looks for the old entry in list `2^32 - 1`.
-/

namespace FaissNavix

open Function

namespace IndexIVF

/-! ## Indexes that vectors were added to -/

/-- A trained index without vectors. -/
def new (nlist codeSize : ℕ) : IndexIVF ArrayInvertedLists where
  isTrained := true
  ntotal := 0
  directMap := .new
  invlists := .empty nlist codeSize

/-- An index with an array map, after some calls of `add_core` with assignments from `-1` on. -/
inductive Reached (nlist codeSize : ℕ) : IndexIVF ArrayInvertedLists → Prop where
  | start : Reached nlist codeSize ((new nlist codeSize).setDirectMapType .array).1
  | add {ivf ivf' : IndexIVF ArrayInvertedLists} {vectors : List Assigned} {orders : ℕ → List ℕ}
      {junk : ℕ → ℕ} (h : Reached nlist codeSize ivf)
      (hassigned : ∀ v ∈ vectors, -1 ≤ v.listNo ∧ v.listNo < nlist)
      (horders : ∀ b, ThreadOrder ((vectors.drop (b * 65536)).take 65536) (orders b))
      (hadd : ivf.addCore vectors none orders junk = .ok ivf') : Reached nlist codeSize ivf'

/-- The vectors of a block that go to a list, in their order. -/
theorem getElem?_assignedTo {vectors : List Assigned} {l : ℤ} {n k i : ℕ} :
    (assignedTo vectors l n)[k]? = some i ↔
      i < n ∧ listNoOf vectors i = l ∧ k = (assignedTo vectors l i).length := by
  have hsplit : ∀ i < n, listNoOf vectors i = l →
      (assignedTo vectors l n)[(assignedTo vectors l i).length]? = some i := by
    intro i hi hl
    obtain ⟨m, rfl⟩ := Nat.exists_eq_add_of_le (Nat.succ_le_of_lt hi)
    have hone : (i :: (List.range m).map (i + 1 + ·)).filter (fun i ↦ listNoOf vectors i = l) =
        i :: ((List.range m).map (i + 1 + ·)).filter fun i ↦ listNoOf vectors i = l :=
      List.filter_cons_of_pos (decide_eq_true hl)
    unfold assignedTo
    rw [List.range_add, List.range_succ, List.append_assoc, List.singleton_append, List.filter_append,
      List.getElem?_append_right le_rfl, Nat.sub_self, hone, List.getElem?_cons_zero]
  have hnodup : (assignedTo vectors l n).Nodup := List.nodup_range.filter _
  constructor
  · intro h
    have hmem := List.mem_of_getElem? h
    obtain ⟨hrange, hl⟩ := List.mem_filter.mp hmem
    have hi := List.mem_range.mp hrange
    refine ⟨hi, of_decide_eq_true hl, ?_⟩
    obtain ⟨hk, hget⟩ := List.getElem?_eq_some_iff.mp h
    obtain ⟨hk', hget'⟩ := List.getElem?_eq_some_iff.mp (hsplit i hi (of_decide_eq_true hl))
    exact hnodup.getElem_inj_iff.mp (hget.trans hget'.symm)
  · rintro ⟨hi, hl, rfl⟩
    exact hsplit i hi hl

/-- The content after a block of vectors. -/
def addedContent (size : ℕ) (content : Content) (vectors : List Assigned) : Content := fun id ↦
  if id < size then content id
  else if 0 ≤ listNoOf vectors (id - size) then
    some ((listNoOf vectors (id - size)).toNat, codeOf vectors (id - size))
  else none

variable {nlist codeSize : ℕ} {ivf ivf' : IndexIVF ArrayInvertedLists} {array : List Idx}
  {il : ArrayInvertedLists} {content : Content} {vectors : List Assigned}

/-- Where the entries are after a block of vectors. -/
theorem at_extend {id : ℕ → Idx} {l o : ℕ} {e : Entry} :
    (extend il id vectors (List.range vectors.length)).At l o e ↔ il.At l o e ∨
      l < il.nlist ∧ ∃ i < vectors.length, listNoOf vectors i = l ∧
        o = (il.lists l).length + (assignedTo vectors l i).length ∧ e = ⟨id i, codeOf vectors i⟩ := by
  unfold ArrayInvertedLists.At extend
  dsimp only
  change l < il.nlist ∧ (il.lists l ++ (assignedTo vectors l vectors.length).map _)[o]? = some e ↔ _
  rcases Nat.lt_or_ge o (il.lists l).length with hlt | hge
  · rw [List.getElem?_append_left hlt]
    constructor
    · exact Or.inl
    · rintro (h | ⟨-, i, -, -, rfl, -⟩)
      · exact h
      · omega
  · have hnone : (il.lists l)[o]? = none := List.getElem?_eq_none hge
    rw [List.getElem?_append_right hge, List.getElem?_map, hnone, Option.map_eq_some_iff]
    constructor
    · rintro ⟨hl, i, hi, rfl⟩
      obtain ⟨hlt, hlist, hk⟩ := getElem?_assignedTo.mp hi
      exact Or.inr ⟨hl, i, hlt, hlist, by omega, rfl⟩
    · rintro (⟨-, ⟨⟩⟩ | ⟨hl, i, hlt, hlist, rfl, rfl⟩)
      exact ⟨hl, i, getElem?_assignedTo.mpr ⟨hlt, hlist, by omega⟩, rfl⟩

/-- A block of vectors keeps the lists and the array together. -/
theorem represents_extend (h : Represents array il content)
    (hassigned : ∀ v ∈ vectors, -1 ≤ v.listNo ∧ v.listNo < il.nlist)
    (hsize : array.length + vectors.length ≤ 2 ^ 32) :
    Represents (array ++ (List.range vectors.length).map (placeOf il vectors))
      (extend il (newId array.length none) vectors (List.range vectors.length))
      (addedContent array.length content vectors) := by
  have hid : ∀ i, newId array.length none i = Int64.ofNat (array.length + i) := fun i ↦ rfl
  have hlist : ∀ i, listNoOf vectors i < il.nlist ∨ listNoOf vectors i = -1 := by
    intro i
    unfold listNoOf
    cases hi : vectors[i]? with
    | none => exact Or.inr rfl
    | some v => exact Or.inl (hassigned v (List.mem_of_getElem? hi)).2
  have hge : ∀ i, -1 ≤ listNoOf vectors i := by
    intro i
    unfold listNoOf
    cases hi : vectors[i]? with
    | none => exact le_rfl
    | some v => exact (hassigned v (List.mem_of_getElem? hi)).1
  have hplace : ∀ i < vectors.length,
      (array ++ (List.range vectors.length).map (placeOf il vectors))[array.length + i]? =
        some (placeOf il vectors i) := by
    intro i hi
    rw [List.getElem?_append_right (Nat.le_add_right _ _), Nat.add_sub_cancel_left, List.getElem?_map,
      List.getElem?_range hi]
    rfl
  have hold : ∀ id < array.length,
      (array ++ (List.range vectors.length).map (placeOf il vectors))[id]? = array[id]? :=
    fun id hid ↦ List.getElem?_append_left hid
  have hlen : (array ++ (List.range vectors.length).map (placeOf il vectors)).length =
      array.length + vectors.length := by
    rw [List.length_append, List.length_map, List.length_range]
  -- no entry has the id of a new vector
  have hfresh : ∀ {l o : ℕ} {e : Entry} {i : ℕ}, il.At l o e → i < vectors.length →
      e.id ≠ newId array.length none i := by
    intro l o e i hat hi heq
    obtain ⟨id, hlt, heq', -⟩ := h.entry hat
    have := ofNat_inj_of_lt (by omega) (by omega) (heq'.symm.trans (heq.trans (hid i)))
    omega
  refine ⟨⟨?_, ?_, ?_⟩, ?_⟩
  · intro l o e hat
    rw [hlen]
    rcases at_extend.mp hat with hat | ⟨hl, i, hi, hli, rfl, rfl⟩
    · obtain ⟨id, hlt, heq, hlo, hcontent⟩ := h.entry hat
      refine ⟨id, by omega, heq, (hold id hlt).trans hlo, ?_⟩
      rw [addedContent, if_pos hlt, hcontent]
    · refine ⟨array.length + i, by omega, rfl, ?_, ?_⟩
      · rw [hplace i hi, placeOf, if_pos (by omega), offsetOf, hli]
        rfl
      · rw [addedContent, if_neg (by omega), Nat.add_sub_cancel_left, if_pos (by omega), hli]
        rfl
  · intro l₁ o₁ l₂ o₂ e₁ e₂ hat₁ hat₂ heq
    rcases at_extend.mp hat₁ with hat₁ | ⟨hl₁, i₁, hi₁, hli₁, rfl, rfl⟩
    · rcases at_extend.mp hat₂ with hat₂ | ⟨hl₂, i₂, hi₂, hli₂, rfl, rfl⟩
      · exact h.unique hat₁ hat₂ heq
      · exact absurd heq (hfresh hat₁ hi₂)
    · rcases at_extend.mp hat₂ with hat₂ | ⟨hl₂, i₂, hi₂, hli₂, rfl, rfl⟩
      · exact absurd heq.symm (hfresh hat₂ hi₁)
      · have hi : array.length + i₁ = array.length + i₂ := ofNat_inj_of_lt (by omega) (by omega) heq
        obtain rfl : i₁ = i₂ := by omega
        obtain rfl : l₁ = l₂ := by omega
        exact ⟨rfl, rfl⟩
  · intro id l c hcontent
    rw [hlen]
    unfold addedContent at hcontent
    split_ifs at hcontent with hlt hpos
    · obtain ⟨-, o, hat⟩ := h.stored hcontent
      exact ⟨by omega, o, at_extend.mpr (Or.inl hat)⟩
    · obtain ⟨i, rfl⟩ := Nat.exists_eq_add_of_le (Nat.le_of_not_lt hlt)
      rw [Nat.add_sub_cancel_left] at hcontent hpos
      cases hcontent
      have hnat : ((listNoOf vectors i).toNat : ℤ) = listNoOf vectors i := Int.toNat_of_nonneg hpos
      have hi : i < vectors.length := by
        by_contra hi
        rw [listNoOf, List.getElem?_eq_none (Nat.le_of_not_lt hi)] at hpos
        exact absurd hpos (by decide)
      have hlt' := hlist i
      exact ⟨by omega, _, at_extend.mpr (Or.inr ⟨by omega, i, hi, hnat.symm, rfl, rfl⟩)⟩
  · intro id hlt hnone
    rw [hlen] at hlt
    unfold addedContent at hnone
    split_ifs at hnone with hin hpos
    · rw [hold id hin]
      exact h.missing id hin hnone
    · obtain ⟨i, rfl⟩ := Nat.exists_eq_add_of_le (Nat.le_of_not_lt hin)
      rw [Nat.add_sub_cancel_left] at hpos
      rw [hplace i (by omega), placeOf, if_neg hpos]

/-- An index whose array map says where the vectors are, as long as there is room in its words. -/
structure Kept (nlist : ℕ) (ivf : IndexIVF ArrayInvertedLists) : Prop where
  isTrained : ivf.isTrained = true
  type : ivf.directMap.type = .array
  ntotal : ivf.ntotal = ivf.directMap.array.length
  nlist_eq : ivf.invlists.nlist = nlist
  represents : ivf.directMap.array.length ≤ 2 ^ 32 →
    ∃ content, Represents ivf.directMap.array ivf.invlists content

theorem kept_start : Kept nlist ((new nlist codeSize).setDirectMapType .array).1 := by
  have hstart : (new nlist codeSize).setDirectMapType .array =
      ({ new nlist codeSize with directMap := { DirectMap.new with type := .array } }, .ok ()) := by
    have hnone : DirectMap.located (.empty nlist codeSize) = [] := by
      unfold DirectMap.located
      exact List.flatMap_eq_nil_iff.mpr fun l _ ↦ rfl
    simp [setDirectMapType, DirectMap.setType, new, DirectMap.new, hnone, DirectMap.fillArray]
  have hempty : ∀ {l o : ℕ} {e : Entry}, ¬ (ArrayInvertedLists.empty nlist codeSize).At l o e := by
    intro l o e h
    have hget : ([] : List Entry)[o]? = some e := h.2
    rw [List.getElem?_nil] at hget
    cases hget
  rw [hstart]
  refine ⟨rfl, rfl, rfl, rfl, fun _ ↦ ⟨fun _ ↦ none, ⟨?_, ?_, ?_⟩, ?_⟩⟩
  · exact fun h ↦ absurd h hempty
  · exact fun h ↦ absurd h hempty
  · intro id l c h
    cases h
  · exact fun id h ↦ absurd h (Nat.not_lt_zero id)

theorem Kept.addBlock {order : List ℕ} {junk : ℕ} (h : Kept nlist ivf)
    (hassigned : ∀ v ∈ vectors, -1 ≤ v.listNo ∧ v.listNo < nlist) (horder : ThreadOrder vectors order)
    (hadd : ivf.addBlock vectors none order junk = .ok ivf') : Kept nlist ivf' := by
  rw [addBlock_eq h.isTrained (fun _ ↦ rfl) (fun v hv ↦ (hassigned v hv).1) horder] at hadd
  have hmap : addedMap ivf.directMap ivf.invlists vectors none junk = { ivf.directMap with
      array := ivf.directMap.array ++ (List.range vectors.length).map (placeOf ivf.invlists vectors) } := by
    unfold addedMap
    rw [h.type]
    exact congrArg (DirectMap.mk · _ _) h.type.symm
  have hlen : (ivf.directMap.array ++
      (List.range vectors.length).map (placeOf ivf.invlists vectors)).length =
        ivf.directMap.array.length + vectors.length := by
    rw [List.length_append, List.length_map, List.length_range]
  rw [hmap] at hadd
  obtain rfl := Except.ok.inj hadd
  refine ⟨h.isTrained, h.type, ?_, h.nlist_eq, fun hroom ↦ ?_⟩
  · change ivf.ntotal + vectors.length = _
    rw [hlen, h.ntotal, Int.natCast_add]
  · change List.length (_ ++ _) ≤ _ at hroom
    rw [hlen] at hroom
    obtain ⟨content, hrep⟩ := h.represents (by omega)
    have hnew := represents_extend hrep (fun v hv ↦ h.nlist_eq ▸ hassigned v hv) hroom
    rw [← h.ntotal] at hnew
    exact ⟨addedContent ivf.directMap.array.length content vectors, hnew⟩

theorem Reached.kept (h : Reached nlist codeSize ivf) : Kept nlist ivf := by
  induction h with
  | start => exact kept_start
  | @add ivf ivf' vectors orders junk _ hassigned horders hadd ih =>
      unfold addCore at hadd
      dsimp only at hadd
      split_ifs at hadd with hbs
      · refine Lib.foldlM_except_invariant (Kept nlist) ih (fun b _ s s' hs hb ↦ ?_) hadd
        exact hs.addBlock (fun v hv ↦ hassigned v (List.mem_of_mem_drop (List.mem_of_mem_take hv)))
          (horders b) hb
      · have horder := horders 0
        rw [Nat.zero_mul, List.drop_zero, List.take_of_length_le (Nat.le_of_not_lt hbs)] at horder
        exact ih.addBlock hassigned horder hadd

/-! ## What an update does -/

/-- After the updates, each of their ids is stored once, as its last update says, the other ids are stored
as before, and the direct map gives the place of every entry. -/
structure UpdatesRight (before after : IndexIVF ArrayInvertedLists) (updates : List Update) : Prop where
  updated : ∀ {us : List Update} {u : Update} {vs : List Update}, updates = us ++ u :: vs →
    (∀ v ∈ vs, v.id ≠ u.id) → ∃ o, ∀ l o' c, after.invlists.At l o' ⟨u.id, c⟩ ↔
      (l : ℤ) = u.assign ∧ o' = o ∧ c = u.code
  others : ∀ {id : Idx}, (∀ u ∈ updates, u.id ≠ id) → ∀ l c,
    (∃ o, after.invlists.At l o ⟨id, c⟩) ↔ ∃ o, before.invlists.At l o ⟨id, c⟩
  directMap : ∀ {l o : ℕ} {e : Entry}, after.invlists.At l o e → after.directMap.get e.id = .ok (loOf l o)

theorem foldl_put {us vs : List Update} {u : Update} (content : Content)
    (h : ∀ v ∈ vs, v.id.toInt.toNat ≠ u.id.toInt.toNat) :
    (us ++ u :: vs).foldl Content.put content u.id.toInt.toNat = some (u.assign.toNat, u.code) := by
  rw [List.foldl_append, List.foldl_cons]
  refine Lib.foldl_invariant (fun content : Content ↦
    content u.id.toInt.toNat = some (u.assign.toNat, u.code)) (Content.put_self _ u) ?_
  intro v hv content hcontent
  rw [Content.put_of_ne content (h v hv).symm, hcontent]

theorem foldl_put_of_forall_ne {updates : List Update} {id : ℕ} (content : Content)
    (h : ∀ u ∈ updates, u.id.toInt.toNat ≠ id) : updates.foldl Content.put content id = content id :=
  Lib.foldl_invariant (fun content' : Content ↦ content' id = content id) rfl fun u hu content' hcontent' ↦
    (Content.put_of_ne content' (h u hu).symm).trans hcontent'

theorem get_of_at {dm : DirectMap} (htype : dm.type = .array) (h : Represents dm.array il content)
    (hroom : HasRoom dm.array il) {l o : ℕ} {e : Entry} (hat : il.At l o e) :
    dm.get e.id = .ok (loOf l o) := by
  obtain ⟨id, -, heq, hlo, -⟩ := h.entry hat
  have hle := hroom.length_le
  have hnlist := hroom.nlist_le
  have hl := hat.1
  obtain ⟨-, ho⟩ := h.toLocated.lt_of_at hroom hat
  rw [heq]
  exact DirectMap.get_of_array htype (by omega) hlo (loOf_nonneg (by omega) ho)

/-- New lists and a new array that hold the content after the updates. -/
theorem updatesRight_of_represents {updates : List Update} (htype : ivf'.directMap.type = .array)
    (h : Represents ivf.directMap.array ivf.invlists content)
    (h' : Represents ivf'.directMap.array ivf'.invlists (updates.foldl Content.put content))
    (hroom : HasRoom ivf.directMap.array ivf.invlists)
    (hlen : ivf'.directMap.array.length = ivf.directMap.array.length)
    (hnlist : ivf'.invlists.nlist = ivf.invlists.nlist)
    (hu : ∀ u ∈ updates, u.InRange ivf.directMap.array.length ivf.invlists.nlist) :
    UpdatesRight ivf ivf' updates := by
  have hroom' : HasRoom ivf'.directMap.array ivf'.invlists :=
    ⟨hnlist ▸ hroom.nlist_le, hlen ▸ hroom.length_le⟩
  refine ⟨?_, ?_, fun hat ↦ get_of_at htype h' hroom' hat⟩
  · intro us u vs hsplit hlast
    have hmem : u ∈ updates := hsplit ▸ List.mem_append_right us List.mem_cons_self
    have hofNat := Update.ofNat_toInt_id (hu u hmem).id_nonneg
    have hcontent : (us ++ u :: vs).foldl Content.put content u.id.toInt.toNat =
        some (u.assign.toNat, u.code) := foldl_put content fun v hv heq ↦ by
      have hv' : v ∈ updates := hsplit ▸ List.mem_append_right us (List.mem_cons_of_mem u hv)
      refine hlast v hv ?_
      rw [← hofNat, ← heq, Update.ofNat_toInt_id (hu v hv').id_nonneg]
    rw [← hsplit] at hcontent
    obtain ⟨hlt, o, hat⟩ := h'.stored hcontent
    have hassign : ((u.assign.toNat : ℕ) : ℤ) = u.assign :=
      Int.toNat_of_nonneg (hu u hmem).assign_nonneg
    refine ⟨o, fun l o' c ↦ ⟨fun hat' ↦ ?_, ?_⟩⟩
    · rw [hofNat] at hat
      obtain ⟨rfl, rfl⟩ := h'.unique hat hat' rfl
      have hc := Option.some.inj (hat.2.symm.trans hat'.2)
      exact ⟨hassign, rfl, (congrArg Entry.code hc).symm⟩
    · rintro ⟨hl, rfl, rfl⟩
      obtain rfl : l = u.assign.toNat := by omega
      rw [hofNat] at hat
      exact hat
  · intro id hid l c
    have hkeep : ∀ n : ℕ, id = Int64.ofNat n →
        updates.foldl Content.put content n = content n := by
      rintro n rfl
      refine foldl_put_of_forall_ne content fun u humem heq ↦ hid u humem ?_
      rw [← Update.ofNat_toInt_id (hu u humem).id_nonneg, heq]
    constructor
    · rintro ⟨o, hat⟩
      obtain ⟨n, hlt, hn, -, hcontent⟩ := h'.entry hat
      obtain rfl : id = Int64.ofNat n := hn
      rw [hkeep n rfl] at hcontent
      exact (h.stored hcontent).2
    · rintro ⟨o, hat⟩
      obtain ⟨n, hlt, hn, -, hcontent⟩ := h.entry hat
      obtain rfl : id = Int64.ofNat n := hn
      rw [← hkeep n rfl] at hcontent
      exact (h'.stored hcontent).2

/-- On an array map, `update_vectors` is `update_codes`. -/
theorem updateVectors_eq (htype : ivf.directMap.type = .array) (htrained : ivf.isTrained = true)
    (updates : List Update) (orders : ℕ → List ℕ) (junk : ℕ → ℕ) :
    ivf.updateVectors updates orders junk =
      updates.foldlM DirectMap.updateCode (ivf.directMap.array, ivf.invlists) >>= fun s ↦
        .ok { ivf with directMap := { ivf.directMap with array := s.1 }, invlists := s.2 } := by
  have hno : ¬ ivf.directMap.type = .hashtable := by rw [htype]; decide
  unfold updateVectors DirectMap.updateCodes
  rw [if_neg hno, htrained, decide_eq_true htype]
  change (updates.foldlM DirectMap.updateCode _ >>= _) >>= _ = _
  rw [bind_assoc]
  rfl

/-- An update is right exactly when every id of the call is stored, where the words of the map have room
for the lists and offsets. -/
theorem updateVectors_iff (h : Reached nlist codeSize ivf) (hnlist : nlist ≤ 2 ^ 31)
    (hsize : ivf.directMap.array.length ≤ 2 ^ 32) {updates : List Update}
    (hu : ∀ u ∈ updates, u.InRange ivf.directMap.array.length nlist) (orders : ℕ → List ℕ) (junk : ℕ → ℕ) :
    (∃ ivf', ivf.updateVectors updates orders junk = .ok ivf' ∧ UpdatesRight ivf ivf' updates) ↔
      ∀ u ∈ updates, ∃ l o c, ivf.invlists.At l o ⟨u.id, c⟩ := by
  have hkept := h.kept
  obtain ⟨content, hrep⟩ := hkept.represents hsize
  have hroom : HasRoom ivf.directMap.array ivf.invlists := ⟨hkept.nlist_eq ▸ hnlist, hsize⟩
  rw [updateVectors_eq hkept.type hkept.isTrained]
  have hu' : ∀ u ∈ updates, u.InRange ivf.directMap.array.length ivf.invlists.nlist :=
    hkept.nlist_eq ▸ hu
  -- an id is stored if the content has it
  have hstored : ∀ u ∈ updates, (∃ l o c, ivf.invlists.At l o ⟨u.id, c⟩) ↔
      content u.id.toInt.toNat ≠ none := by
    intro u humem
    have hrange := hu u humem
    have hlt : u.id.toInt.toNat < ivf.directMap.array.length := by
      have := hrange.id_nonneg
      have := hrange.id_lt
      omega
    have hofNat := Update.ofNat_toInt_id hrange.id_nonneg
    constructor
    · rintro ⟨l, o, c, hat⟩ hnone
      rw [← hofNat] at hat
      rw [(hrep.toLocated.content_of_at hroom hlt hat).2] at hnone
      cases hnone
    · intro hne
      obtain ⟨⟨l, c⟩, hid⟩ := Option.ne_none_iff_exists'.mp hne
      obtain ⟨-, o, hat⟩ := hrep.stored hid
      rw [hofNat] at hat
      exact ⟨l, o, c, hat⟩
  constructor
  · rintro ⟨ivf', hrun, -⟩ u humem
    by_contra hno
    have hnone : content u.id.toInt.toNat = none := by
      by_contra hne
      exact hno ((hstored u humem).mpr hne)
    rw [hrep.foldlM_updateCode_missing hroom hu' ⟨u, humem, hnone⟩] at hrun
    cases hrun
  · intro hall
    obtain ⟨array', il', hrun, hrep', hlen, hnl⟩ := hrep.foldlM_updateCode hroom hu'
      fun u humem ↦ (hstored u humem).mp (hall u humem)
    rw [hrun]
    exact ⟨_, rfl, updatesRight_of_represents hkept.type hrep hrep' hroom hlen hnl hu'⟩

/-! ## One vector that no list takes, and one that a list takes -/

/-- An index with one list, after a block of vectors was added to it. -/
def addedTo (vectors : List Assigned) : IndexIVF ArrayInvertedLists :=
  let ivf := ((new 1 1).setDirectMapType .array).1
  { ivf with
    invlists := extend ivf.invlists (newId ivf.ntotal none) vectors (List.range vectors.length)
    directMap := addedMap ivf.directMap ivf.invlists vectors none 0
    ntotal := ivf.ntotal + vectors.length }

theorem reached_addedTo (hassigned : ∀ v ∈ vectors, -1 ≤ v.listNo ∧ v.listNo < (1 : ℕ))
    (hlen : vectors.length ≤ 65536) : Reached 1 1 (addedTo vectors) := by
  have hstart : ((new 1 1).setDirectMapType .array).1.isTrained = true := kept_start.isTrained
  have hadd := addBlock_eq hstart (fun _ ↦ rfl) (fun v hv ↦ (hassigned v hv).1) (threadOrder_range vectors) 0
  have hcore : ((new 1 1).setDirectMapType .array).1.addCore vectors none
      (fun b ↦ List.range ((vectors.drop (b * 65536)).take 65536).length) (fun _ ↦ 0) =
        .ok (addedTo vectors) := by
    unfold addCore
    dsimp only
    rw [if_neg (Nat.not_lt.mpr hlen), Nat.zero_mul, List.drop_zero, List.take_of_length_le hlen]
    exact hadd
  exact .add .start hassigned (fun b ↦ threadOrder_range _) hcore

/-- Two updates of the same vector, with one of another vector of the list between them. -/
theorem updateVectors_iff_three :
    (∃ ivf', (addedTo [⟨0, [1]⟩, ⟨-1, [2]⟩, ⟨0, [3]⟩]).updateVectors
        [⟨0, 0, [7]⟩, ⟨2, 0, [8]⟩, ⟨0, 0, [9]⟩] (fun _ ↦ []) (fun _ ↦ 0) = .ok ivf' ∧
      UpdatesRight (addedTo [⟨0, [1]⟩, ⟨-1, [2]⟩, ⟨0, [3]⟩]) ivf'
        [⟨0, 0, [7]⟩, ⟨2, 0, [8]⟩, ⟨0, 0, [9]⟩]) ↔
      ∀ u ∈ ([⟨0, 0, [7]⟩, ⟨2, 0, [8]⟩, ⟨0, 0, [9]⟩] : List Update), ∃ l o c,
        (addedTo [⟨0, [1]⟩, ⟨-1, [2]⟩, ⟨0, [3]⟩]).invlists.At l o ⟨u.id, c⟩ :=
  updateVectors_iff (reached_addedTo (by decide) (by decide)) (by decide) (by decide)
    (by
      intro u hu
      simp only [List.mem_cons, List.not_mem_nil, or_false] at hu
      rcases hu with rfl | rfl | rfl
      · exact ⟨by decide, by decide, by decide, by decide⟩
      · exact ⟨by decide, by decide, by decide, by decide⟩
      · exact ⟨by decide, by decide, by decide, by decide⟩) _ _

/-- A vector that no list took is updated. -/
theorem not_updatesRight_unassigned :
    Reached 1 1 (addedTo [⟨-1, [1]⟩]) ∧
      (⟨0, 0, [7]⟩ : Update).InRange (addedTo [⟨-1, [1]⟩]).directMap.array.length 1 ∧
      ¬ ∃ ivf', (addedTo [⟨-1, [1]⟩]).updateVectors [⟨0, 0, [7]⟩] (fun _ ↦ []) (fun _ ↦ 0) = .ok ivf' ∧
        UpdatesRight (addedTo [⟨-1, [1]⟩]) ivf' [⟨0, 0, [7]⟩] := by
  refine ⟨reached_addedTo (by decide) (by decide), ⟨by decide, by decide, by decide, by decide⟩, ?_⟩
  rintro ⟨ivf', hrun, -⟩
  have hfault : (addedTo [⟨-1, [1]⟩]).updateVectors [⟨0, 0, [7]⟩] (fun _ ↦ []) (fun _ ↦ 0) =
      .error (.assertion "list_no < nlist") := rfl
  rw [hfault] at hrun
  cases hrun

end IndexIVF

end FaissNavix
