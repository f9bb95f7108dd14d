import FaissNavix.Serialize.MultiHashMap

/-!
# The lists of a binary hash index, written and read back

The number of bits for the size of a list comes from the longest one, so that all sizes fit.
-/

namespace FaissNavix

open Lib (DefaultMap Decoder Decodes Keyed decodes_check decodes_nat decodes_ofOption decodes_pure
  toBits toBytes)

/-! ## The longest list -/

variable {order : List (Keyed BinaryInvertedList)} {e : Keyed BinaryInvertedList} {b n ilNbit : ℕ}

theorem foldl_max_le {size : Keyed BinaryInvertedList → ℕ} {k bound : ℕ} :
    order.foldl (fun k e ↦ max k (size e)) k ≤ bound ↔ k ≤ bound ∧ ∀ e ∈ order, size e ≤ bound := by
  induction order generalizing k with
  | nil => exact ⟨fun h ↦ ⟨h, fun _ he ↦ absurd he List.not_mem_nil⟩, And.left⟩
  | cons e order ih => rw [List.foldl_cons, ih, max_le_iff, and_assoc, List.forall_mem_cons]

theorem maxListSize_le {bound : ℕ} :
    maxListSize order ≤ bound ↔ ∀ e ∈ order, e.2.ids.length ≤ bound :=
  foldl_max_le.trans (and_iff_right (Nat.zero_le bound))

theorem le_maxListSize (he : e ∈ order) : e.2.ids.length ≤ maxListSize order :=
  maxListSize_le.mp le_rfl e he

theorem maxListSize_perm {order' : List (Keyed BinaryInvertedList)} (h : order.Perm order') :
    maxListSize order = maxListSize order' :=
  Nat.le_antisymm (maxListSize_le.mpr fun _ he ↦ le_maxListSize (h.mem_iff.mp he))
    (maxListSize_le.mpr fun _ he ↦ le_maxListSize (h.mem_iff.mpr he))

theorem whileBits_maxil (maxil : ℕ) :
    whileBits (fun ilNbit ↦ decide (2 ^ ilNbit ≤ maxil)) maxil = some (Nat.clog 2 (maxil + 1)) :=
  whileBits_eq
    (fun nbit ↦ by
      rw [decide_eq_true_iff, Nat.lt_clog_iff_pow_lt (by decide), Nat.lt_succ_iff])
    (Nat.clog_le_of_le_pow Nat.lt_two_pow_self)

/-! ## A list -/

def listBits (b ilNbit : ℕ) (e : Keyed BinaryInvertedList) : List Bool :=
  toBits b e.1 ++ toBits ilNbit e.2.ids.length

theorem length_listBits (b ilNbit : ℕ) (e : Keyed BinaryInvertedList) :
    (listBits b ilNbit e).length = b + ilNbit := by
  rw [listBits, List.length_append, Lib.length_toBits, Lib.length_toBits]

theorem length_flatMap_listBits (b ilNbit : ℕ) (order : List (Keyed BinaryInvertedList)) :
    (order.flatMap (listBits b ilNbit)).length = (b + ilNbit) * order.length := by
  rw [List.length_flatMap]
  simp only [length_listBits, List.map_const', List.sum_replicate_nat]
  exact Nat.mul_comm _ _

theorem advances_writeListSize (e : Keyed BinaryInvertedList) (hb : b ≤ 63) (hil : ilNbit ≤ 63)
    {wr wr' : BitstringWriter} (h : writeListSize b ilNbit wr e = some wr') :
    wr.Advances wr' (b + ilNbit) := by
  unfold writeListSize at h
  obtain ⟨wr₁, hkey, hsize⟩ := Option.bind_eq_some_iff.mp h
  exact (BitstringWriter.advances_write hkey (by omega)).trans
    (BitstringWriter.advances_write hsize (by omega))

theorem writes_writeListSize (hkey : e.1 < 2 ^ b) (hsize : e.2.ids.length < 2 ^ ilNbit)
    (hpos : 0 < ilNbit) (hb : b ≤ 63) (hil : ilNbit ≤ 63) :
    BitstringWriter.Writes (writeListSize b ilNbit · e) (listBits b ilNbit e) 0 := by
  refine BitstringWriter.Writes.bind (BitstringWriter.writes_write hkey (by omega) ?_)
    (BitstringWriter.writes_write hsize (by omega) (by omega))
  rw [Lib.length_toBits]
  omega

theorem decodes_readId (id : Idx) : Decodes readId (idBytes id) id := by
  have hbytes := (Lib.decodes_bytes (idBytes id)).map idOfBytes
  rw [idOfBytes_idBytes, length_idBytes] at hbytes
  exact hbytes

def Short (il : BinaryInvertedList) : Prop :=
  il.ids.length < 2 ^ 40 ∧ il.vecs.length < 2 ^ 40

theorem decodes_readList (hkey : e.1 < 2 ^ b) (hsize : e.2.ids.length < 2 ^ ilNbit)
    (hpos : 0 < ilNbit) (hb : b ≤ 63) (hil : ilNbit ≤ 63) (hshort : Short e.2) {rd : BitstringReader}
    {after : List Bool} (hrd : rd.Sees (listBits b ilNbit e ++ after))
    (map : DefaultMap BinaryInvertedList) :
    ∃ rd', Decodes (readList b ilNbit (rd, map)) (writeList e) (rd', map.modify e.1 fun _ ↦ e.2) ∧
      rd'.Sees after := by
  rw [listBits, List.append_assoc] at hrd
  obtain ⟨rd₁, hread, hrd₁, -⟩ := hrd.read hkey (by omega) (by
    rw [List.length_append, Lib.length_toBits]
    omega)
  obtain ⟨rd₂, hread', hrd₂, -⟩ := hrd₁.read hsize (by omega) (by omega)
  refine ⟨rd₂, ?_, hrd₂⟩
  exact (decodes_ofOption hread).bind <| (decodes_ofOption hread').bind <|
    (decodes_readVector hshort.1 fun id _ ↦ decodes_readId id).bind <|
      (decodes_check (decide_eq_true rfl)).bind <|
        (decodes_readVector hshort.2 fun x _ ↦ decodes_readByte x).map fun vecs ↦
          (rd₂, map.modify e.1 fun _ ↦ ⟨e.2.ids, vecs⟩)

theorem decodes_foldlM_readList
    (h : ∀ e ∈ order, e.1 < 2 ^ b ∧ e.2.ids.length < 2 ^ ilNbit ∧ Short e.2) (hpos : 0 < ilNbit)
    (hb : b ≤ 63) (hil : ilNbit ≤ 63) {rd : BitstringReader} {after : List Bool}
    (hrd : rd.Sees (order.flatMap (listBits b ilNbit) ++ after))
    (map : DefaultMap BinaryInvertedList) :
    ∃ rd', Decodes ((List.range order.length).foldlM (fun s _ ↦ readList b ilNbit s) (rd, map))
      (order.flatMap writeList) (rd', order.foldl (fun map e ↦ map.modify e.1 fun _ ↦ e.2) map) := by
  induction order generalizing rd map with
  | nil => exact ⟨rd, decodes_pure _⟩
  | cons e order ih =>
      rw [List.flatMap_cons, List.append_assoc] at hrd
      obtain ⟨hkey, hsize, hshort⟩ := h e List.mem_cons_self
      obtain ⟨rd₁, hread, hrd₁⟩ := decodes_readList hkey hsize hpos hb hil hshort hrd map
      obtain ⟨rd₂, hrest⟩ := ih (fun e' he' ↦ h e' (List.mem_cons_of_mem e he')) hrd₁
        (map.modify e.1 fun _ ↦ e.2)
      refine ⟨rd₂, ?_⟩
      rw [List.length_cons, List.range_succ_eq_map, List.foldlM_cons, List.foldl_cons,
        List.flatMap_cons]
      simp only [List.foldlM_map]
      exact hread.bind hrest

theorem short_of_readList {s s' : BitstringReader × DefaultMap BinaryInvertedList}
    {input rest : List UInt8} (h : (readList b ilNbit s).run input = some (s', rest))
    (hs : ∀ e ∈ s.2.entries, Short e.2) : ∀ e ∈ s'.2.entries, Short e.2 := by
  unfold readList at h
  rw [StateT.run_bind] at h
  obtain ⟨⟨⟨hash, rd₁⟩, i₁⟩, -, h⟩ := Option.bind_eq_some_iff.mp h
  dsimp only at h
  rw [StateT.run_bind] at h
  obtain ⟨⟨⟨ilsz, rd₂⟩, i₂⟩, -, h⟩ := Option.bind_eq_some_iff.mp h
  dsimp only at h
  rw [StateT.run_bind] at h
  obtain ⟨⟨ids, i₃⟩, hids, h⟩ := Option.bind_eq_some_iff.mp h
  rw [StateT.run_bind] at h
  obtain ⟨⟨_, i₄⟩, -, h⟩ := Option.bind_eq_some_iff.mp h
  rw [StateT.run_bind] at h
  obtain ⟨⟨vecs, i₅⟩, hvecs, h⟩ := Option.bind_eq_some_iff.mp h
  cases h
  have hshort : Short ⟨ids, vecs⟩ := ⟨length_of_readVector hids, length_of_readVector hvecs⟩
  exact DefaultMap.forall_entries_modify hs hshort fun _ _ ↦ hshort

theorem short_of_foldlM {xs : List ℕ} {s s' : BitstringReader × DefaultMap BinaryInvertedList}
    {input rest : List UInt8}
    (h : (xs.foldlM (fun s _ ↦ readList b ilNbit s) s).run input = some (s', rest))
    (hs : ∀ e ∈ s.2.entries, Short e.2) : ∀ e ∈ s'.2.entries, Short e.2 := by
  induction xs generalizing s input with
  | nil =>
      cases h
      exact hs
  | cons x xs ih =>
      rw [List.foldlM_cons, StateT.run_bind] at h
      obtain ⟨⟨s₁, i₁⟩, hlist, h⟩ := Option.bind_eq_some_iff.mp h
      exact ih h (short_of_readList hlist hs)

theorem short_of_readBinaryHashInvlists {map : DefaultMap BinaryInvertedList}
    {input rest : List UInt8} (h : (readBinaryHashInvlists b).run input = some (map, rest)) :
    ∀ e ∈ map.entries, Short e.2 := by
  unfold readBinaryHashInvlists at h
  rw [StateT.run_bind] at h
  obtain ⟨⟨sz, i₁⟩, -, h⟩ := Option.bind_eq_some_iff.mp h
  rw [StateT.run_bind] at h
  obtain ⟨⟨ilNbit, i₂⟩, -, h⟩ := Option.bind_eq_some_iff.mp h
  rw [StateT.run_bind] at h
  obtain ⟨⟨buf, i₃⟩, -, h⟩ := Option.bind_eq_some_iff.mp h
  rw [StateT.run_bind] at h
  obtain ⟨⟨s, i₄⟩, hloop, h⟩ := Option.bind_eq_some_iff.mp h
  cases h
  exact short_of_foldlM hloop fun e he ↦ absurd he List.not_mem_nil

/-! ## When the lists are restored -/

def sizesBits (b : ℕ) (order : List (Keyed BinaryInvertedList)) : ℕ :=
  (b + Nat.clog 2 (maxListSize order + 1)) * order.length

def InvlistsFit (b : ℕ) (map : DefaultMap BinaryInvertedList) : Prop :=
  (∀ e ∈ map.entries, Short e.2) ∧ (sizesBits b map.entries + 7) / 8 < 2 ^ 40

variable {map : DefaultMap BinaryInvertedList}

theorem sizesBits_perm (b : ℕ) {order' : List (Keyed BinaryInvertedList)} (h : order.Perm order') :
    sizesBits b order = sizesBits b order' := by
  rw [sizesBits, sizesBits, maxListSize_perm h, h.length_eq]

theorem writeBinaryHashInvlists_eq (b : ℕ) (order : List (Keyed BinaryInvertedList)) :
    writeBinaryHashInvlists b order =
      (order.foldlM (writeListSize b (Nat.clog 2 (maxListSize order + 1)))
        (.new (bufferSize (sizesBits b order)))).map fun wr ↦
          toBytes 8 order.length ++ (toBytes 4 (Nat.clog 2 (maxListSize order + 1)) ++
            (writeVector byteBytes wr.code ++ order.flatMap writeList)) := by
  unfold writeBinaryHashInvlists
  dsimp only
  rw [whileBits_maxil, Option.map_eq_bind]
  rfl

theorem Counted.clog_le (h : Counted (·.ids.length) b n order) (hn : n < 2 ^ 63) :
    Nat.clog 2 (maxListSize order + 1) ≤ 63 := by
  refine Nat.clog_le_of_le_pow ?_
  have hle : maxListSize order ≤ n := maxListSize_le.mpr fun e he ↦ h.size_le he
  omega

/-- Lists that are short are restored. -/
theorem restores_invlists (hb : b ≤ 63) (hcounted : Counted (·.ids.length) b n map.entries)
    (hfit : InvlistsFit b map) (hperm : order.Perm map.entries) (hn : n < 2 ^ 63) :
    Restores (writeBinaryHashInvlists b order) (readBinaryHashInvlists b) map := by
  obtain ⟨hshort, hbits⟩ := hfit
  have hcounted' := hcounted.perm hperm
  have hil := hcounted'.clog_le hn
  have hsz := hcounted'.length_le
  rw [← sizesBits_perm b hperm] at hbits
  have hbuffer : bufferSize (sizesBits b order) = (sizesBits b order + 7) / 8 :=
    bufferSize_of_lt (by omega)
  have hnew : (BitstringWriter.new (bufferSize (sizesBits b order))).code.length =
      bufferSize (sizesBits b order) := List.length_replicate
  have htotal := length_flatMap_listBits b (Nat.clog 2 (maxListSize order + 1)) order
  change _ = sizesBits b order at htotal
  have hsize : ∀ e ∈ order, e.2.ids.length < 2 ^ Nat.clog 2 (maxListSize order + 1) := fun e he ↦
    (Nat.lt_succ_of_le (le_maxListSize he)).trans_le (Nat.le_pow_clog (by decide) _)
  have hpos : ∀ e ∈ order, 0 < Nat.clog 2 (maxListSize order + 1) := fun e he ↦
    Nat.clog_pos (by decide) (Nat.succ_lt_succ ((hcounted'.1 e he).2.trans_le (le_maxListSize he)))
  obtain ⟨wr, hwrite, hwrote, hcode⟩ := BitstringWriter.writes_foldlM
    (fun e he ↦ writes_writeListSize (hcounted'.1 e he).1 (hsize e he) (hpos e he) hb hil) _ _
    (BitstringWriter.wrote_new _) (by
      rw [hnew, htotal, hbuffer, List.length_nil]
      omega)
  rw [List.nil_append] at hwrote
  rw [hnew, hbuffer] at hcode
  have hsees := BitstringReader.sees_of_wrote hwrote (by
    rw [hcode, htotal]
    omega)
  rw [← List.append_nil (order.flatMap _)] at hsees
  have hlists : ∃ rd, Decodes ((List.range order.length).foldlM
      (fun s _ ↦ readList b (Nat.clog 2 (maxListSize order + 1)) s) (⟨wr.code, 0⟩, ∅))
      (order.flatMap writeList) (rd, order.foldl (fun map e ↦ map.modify e.1 fun _ ↦ e.2) ∅) := by
    rcases order.eq_nil_or_concat with rfl | ⟨_, e, rfl⟩
    · exact ⟨_, decodes_pure _⟩
    · refine decodes_foldlM_readList (fun e he ↦ ⟨(hcounted'.1 e he).1, hsize e he, ?_⟩)
        (hpos e ?_) hb hil hsees ∅
      · exact hshort e (hperm.mem_iff.mp he)
      · rw [List.concat_eq_append]
        exact List.mem_append_right _ List.mem_cons_self
  obtain ⟨rd, hread⟩ := hlists
  refine ⟨_, _, (writeBinaryHashInvlists_eq b order).trans (congrArg _ hwrite),
    (decodes_nat (by omega)).bind <| (decodes_nat (by omega)).bind <|
      (decodes_readVector (hcode ▸ hbits) fun x _ ↦ decodes_readByte x).bind <|
        hread.map Prod.snd, fun key ↦ ?_⟩
  exact DefaultMap.lookup_foldl_empty (fun e ↦ rfl) hperm key

theorem of_restores_invlists (hb : b ≤ 63) (hcounted : Counted (·.ids.length) b n map.entries)
    (hperm : order.Perm map.entries) (hn : n < 2 ^ 63)
    (h : Restores (writeBinaryHashInvlists b order) (readBinaryHashInvlists b) map) :
    InvlistsFit b map := by
  obtain ⟨file, map', hfile, hdecodes, hlookup⟩ := h
  rw [writeBinaryHashInvlists_eq] at hfile
  obtain ⟨wr, hwrite, rfl⟩ := Option.map_eq_some_iff.mp hfile
  have hcounted' := hcounted.perm hperm
  have hil := hcounted'.clog_le hn
  have hsz := hcounted'.length_le
  have hadv := BitstringWriter.advances_foldlM
    (fun e _ wr wr' hwr ↦ advances_writeListSize e hb hil hwr) (by exact Nat.zero_lt_succ _) hwrite
  rw [List.map_const', List.sum_replicate_nat, Nat.mul_comm] at hadv
  have hbuffer := bufferSize_of_lt (lt_of_advances hadv)
  have hcode : wr.code.length = bufferSize (sizesBits b order) :=
    hadv.2.1.trans List.length_replicate
  have hlt := bufferSize_lt (sizesBits b order)
  have hrun := hdecodes []
  refine ⟨fun e he ↦ ?_, ?_⟩
  · refine short_of_readBinaryHashInvlists hrun e (AList.mem_lookup_iff.mp ?_)
    exact (hlookup e.1).trans (AList.mem_lookup_iff.mpr he)
  · rw [← sizesBits_perm b hperm]
    by_contra hle
    unfold readBinaryHashInvlists at hrun
    rw [List.append_assoc, List.append_assoc, List.append_assoc,
      (decodes_nat (by omega)).run_bind, (decodes_nat (by omega)).run_bind, StateT.run_bind,
      readVector_of_le (by omega) (by omega)] at hrun
    cases hrun

/-! ## Binary hash indexes -/

/-- No bucket has all of the vectors where their number is a power of two, and the bits are short
enough to be read. -/
def MapFits (b n : ℕ) (map : DefaultMap (List ℕ)) : Prop :=
  (∀ e ∈ map.entries, e.2.length = n → ∀ w, n ≠ 2 ^ w) ∧
    (mapBits b n map.entries.length + 7) / 8 < 2 ^ 40

/-- Whatever was added and in whatever order the maps are iterated over: each map of a multi-hash
index is restored if and only if it fits, and the lists of a hash index are if and only if they are
short. -/
theorem binary_hash_restored_iff (codeSize b : ℕ) (hb : b ≤ 63) (batches : List BinaryVectors) :
    (∀ nhash, let idx := batches.foldl .add (IndexBinaryMultiHash.new codeSize nhash b);
      idx.ntotal < 2 ^ 63 → ∀ map ∈ idx.maps, ∀ order, List.Perm order map.entries →
        (Restores (writeBinaryMultiHashMap b idx.ntotal order)
          (readBinaryMultiHashMap b idx.ntotal) map ↔ MapFits b idx.ntotal map)) ∧
    (let idx := batches.foldl .addWithIds (IndexBinaryHash.new codeSize b);
      idx.ntotal < 2 ^ 63 → ∀ order, List.Perm order idx.invlists.entries →
        (Restores (writeBinaryHashInvlists b order) (readBinaryHashInvlists b) idx.invlists ↔
          InvlistsFit b idx.invlists)) := by
  constructor
  · intro nhash idx hn map hmap order hperm
    obtain ⟨-, hmaps⟩ := IndexBinaryMultiHash.counted_batches codeSize nhash b batches
    obtain ⟨hcounted, hids⟩ := hmaps map hmap
    constructor
    · exact of_restores_multi hb hcounted hperm hn
    · rintro ⟨hpow, hbits⟩
      exact restores_multi hb hcounted hids hpow hbits hperm hn
  · intro idx hn order hperm
    obtain ⟨-, hcounted⟩ := IndexBinaryHash.counted_batches codeSize b batches
    constructor
    · exact of_restores_invlists hb hcounted hperm hn
    · intro hfit
      exact restores_invlists hb hcounted hfit hperm hn

/-- Two vectors with one key are written as a bucket of no vectors. -/
theorem binary_hash_restored_iff_fails :
    let idx := (IndexBinaryMultiHash.new 8 1 4).add ⟨2, fun _ ↦ 0, none⟩
    ∃ map ∈ idx.maps, map.lookup 0 = some [0, 1] ∧
      ∃ file map', writeBinaryMultiHashMap 4 idx.ntotal map.entries = some file ∧
        (readBinaryMultiHashMap 4 idx.ntotal).run file = some (map', []) ∧
          map'.lookup 0 = some [] := by
  refine ⟨_, List.mem_singleton.mpr rfl, by decide,
    [1, 0, 0, 0, 1, 0, 0, 0, 0, 0, 0, 0, 1, 0, 0, 0, 0, 0, 0, 0, 0x60],
    ⟨[⟨0, []⟩], List.nodupKeys_singleton _⟩, by decide, ?_, rfl⟩
  rfl

/-- Three vectors: both maps of a multi-hash index are restored, and the lists of a hash index are. -/
theorem binary_hash_restored_iff_three :
    let batch : BinaryVectors := ⟨3, fun a ↦ UInt8.ofNat a, none⟩
    (∀ map ∈ ((IndexBinaryMultiHash.new 8 2 4).add batch).maps,
      Restores (writeBinaryMultiHashMap 4 3 map.entries) (readBinaryMultiHashMap 4 3) map) ∧
    Restores (writeBinaryHashInvlists 4 ((IndexBinaryHash.new 8 4).addWithIds batch).invlists.entries)
      (readBinaryHashInvlists 4) ((IndexBinaryHash.new 8 4).addWithIds batch).invlists := by
  intro batch
  obtain ⟨hmaps, hlists⟩ := binary_hash_restored_iff 8 4 (by decide) [batch]
  have hthree : ∀ w, 3 ≠ 2 ^ w := by
    intro w
    rcases w with _ | w
    · decide
    · rw [Nat.pow_succ]
      omega
  constructor
  · intro map hmap
    refine (hmaps 2 (by decide) map hmap _ (List.Perm.refl _)).mpr ⟨fun _ _ _ ↦ hthree, ?_⟩
    rcases List.mem_cons.mp hmap with rfl | hmap
    · decide
    · obtain rfl := List.mem_singleton.mp hmap
      decide
  · refine (hlists (by decide) _ (List.Perm.refl _)).mpr ⟨?_, by decide⟩
    unfold Short
    decide

end FaissNavix
