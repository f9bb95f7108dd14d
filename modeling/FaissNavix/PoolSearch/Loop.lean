import FaissNavix.HNSW.Search
import Mathlib.Data.List.GetD

/-!
# Inserting into a sorted pool

`insert_into_pool`, which `faiss/impl/NSG.cpp` and `faiss/impl/NNDescent.cpp` both have: a binary search
for the place, a look at the entries at the same distance for the same id, and a `memmove`.  The array
has a cell more than the pool.
-/

namespace FaissNavix

/-- `Neighbor` -/
structure Neighbor where
  id : ℕ
  distance : F32
  flag : Bool
deriving DecidableEq, Repr

instance : Inhabited Neighbor :=
  ⟨⟨0, ⟨0⟩, false⟩⟩

/-- The loop `while (left < right - 1)`, for at most `fuel` turns. -/
def searchPlace (addr : List Neighbor) (nn : Neighbor) : ℕ → ℕ → ℕ → ℕ × ℕ
  | 0, left, right => (left, right)
  | fuel + 1, left, right =>
      if left + 1 < right then
        let mid := (left + right) / 2
        if nn.distance < (addr.getD mid default).distance then searchPlace addr nn fuel left mid
        else searchPlace addr nn fuel mid right
      else (left, right)

/-- The loop `while (left > 0)`, which looks for the same id at the same distance. -/
def passEqual (addr : List Neighbor) (nn : Neighbor) : ℕ → Option ℕ
  | 0 => some 0
  | left + 1 =>
      if (addr.getD (left + 1) default).distance < nn.distance then some (left + 1)
      else if (addr.getD (left + 1) default).id = nn.id then none
      else passEqual addr nn left

/-- `memmove` from a place on, up to the end of the pool, and the new entry in this place. -/
def insertAt (addr : List Neighbor) (size place : ℕ) (nn : Neighbor) : List Neighbor :=
  addr.take place ++ nn :: (addr.drop place).take (size - place)

/-- `insert_into_pool`: the array, and the place, or `size + 1` where the id is there already. -/
def insertIntoPool (addr : List Neighbor) (size : ℕ) (nn : Neighbor) : List Neighbor × ℕ :=
  if nn.distance < (addr.getD 0 default).distance then (insertAt addr size 0 nn, 0)
  else if (addr.getD (size - 1) default).distance < nn.distance then (addr.set size nn, size)
  else
    let (left, right) := searchPlace addr nn size 0 (size - 1)
    match passEqual addr nn left with
    | none => (addr, size + 1)
    | some left =>
      if (addr.getD left default).id = nn.id ∨ (addr.getD right default).id = nn.id then
        (addr, size + 1)
      else (insertAt addr size right nn, right)

/-! ## The place -/

def Neighbor.key (nb : Neighbor) : ℤ :=
  nb.distance.key

def poolKey (addr : List Neighbor) (i : ℕ) : ℤ :=
  (addr.getD i default).key

/-- A pool: its entries compare, and are in order. -/
structure IsPool (addr : List Neighbor) (size : ℕ) : Prop where
  length_eq : addr.length = size + 1
  comparable : ∀ i < size, (addr.getD i default).distance.Comparable
  mono : ∀ i j, i ≤ j → j < size → poolKey addr i ≤ poolKey addr j

variable {addr : List Neighbor} {size : ℕ} {nn : Neighbor}

/-- The binary search ends between two neighbouring entries.  The right one has a property that all larger
entries have, if the search starts so. -/
theorem searchPlace_spec (h : IsPool addr size) (hn : nn.distance.Comparable) {Q : ℕ → Prop}
    (hQ : ∀ i < size, nn.key < poolKey addr i → Q i) {fuel left right : ℕ}
    (hlt : left < right) (hfuel : right ≤ left + 1 + fuel) (hright : right < size)
    (hl : poolKey addr left ≤ nn.key) (hr : Q right) :
    ∃ c, searchPlace addr nn fuel left right = (c, c + 1) ∧ c + 1 < size ∧
      poolKey addr c ≤ nn.key ∧ Q (c + 1) := by
  fun_induction searchPlace addr nn fuel left right with
  | case1 left right =>
      obtain rfl : right = left + 1 := by omega
      exact ⟨left, rfl, hright, hl, hr⟩
  | case2 fuel left right hgap mid hmid ih =>
      have hmidlt : mid < right := by omega
      refine ih (by omega) (by omega) (by omega) hl (hQ mid (by omega) ?_)
      exact (F32.lt_iff_key hn (h.comparable mid (by omega))).mp hmid
  | case3 fuel left right hgap mid hmid ih =>
      have hmidlt : mid < right := by omega
      refine ih (by omega) (by omega) hright ?_ hr
      exact (F32.not_lt_iff hn (h.comparable mid (by omega))).mp hmid
  | case4 fuel left right hgap =>
      obtain rfl : right = left + 1 := by omega
      exact ⟨left, rfl, hright, hl, hr⟩

/-- What is passed has another id, and what it ends at has a smaller distance, or is the first entry. -/
theorem passEqual_spec (h : IsPool addr size) (hn : nn.distance.Comparable) {left : ℕ}
    (hleft : left < size) :
    (passEqual addr nn left = none ∧ ∃ i ≤ left, (addr.getD i default).id = nn.id) ∨
      ∃ l ≤ left, passEqual addr nn left = some l ∧ (l = 0 ∨ poolKey addr l < nn.key) ∧
        ∀ i, l < i → i ≤ left → (addr.getD i default).id ≠ nn.id := by
  induction left with
  | zero => exact .inr ⟨0, le_rfl, rfl, .inl rfl, fun i hi hle ↦ by omega⟩
  | succ left ih =>
      rw [passEqual]
      split
      · rename_i hlt
        refine .inr ⟨left + 1, le_rfl, rfl, .inr ?_, fun i hi hle ↦ by omega⟩
        exact (F32.lt_iff_key (h.comparable _ hleft) hn).mp hlt
      · split
        · rename_i hid
          exact .inl ⟨rfl, left + 1, le_rfl, hid⟩
        · rename_i hid
          rcases ih (by omega) with ⟨hnone, i, hi, hid'⟩ | ⟨l, hl, hsome, hend, hpassed⟩
          · exact .inl ⟨hnone, i, by omega, hid'⟩
          · refine .inr ⟨l, by omega, hsome, hend, fun i hi hle ↦ ?_⟩
            rcases Nat.lt_or_eq_of_le hle with hle | rfl
            · exact hpassed i hi (by omega)
            · exact hid

/-- An entry is inserted behind entries that are not larger and in front of entries that are not smaller, unless
its id is in the pool. -/
theorem insertIntoPool_cases (h : IsPool addr size) (hsize : 1 ≤ size) (hn : nn.distance.Comparable)
    (hown : ∀ i < size, (addr.getD i default).id = nn.id → poolKey addr i = nn.key) :
    ((∃ i < size, (addr.getD i default).id = nn.id) ∧ insertIntoPool addr size nn = (addr, size + 1)) ∨
      ((∀ i < size, (addr.getD i default).id ≠ nn.id) ∧ ∃ place ≤ size,
        insertIntoPool addr size nn = (insertAt addr size place nn, place) ∧
          (∀ i < place, poolKey addr i ≤ nn.key) ∧ (∀ i, place ≤ i → i < size → nn.key ≤ poolKey addr i) ∧
          (nn.key < poolKey addr (size - 1) → place < size ∧ nn.key < poolKey addr place)) := by
  have hlen := h.length_eq
  unfold insertIntoPool
  by_cases hzero : nn.distance < (addr.getD 0 default).distance
  · rw [if_pos hzero]
    have hkey : nn.key < poolKey addr 0 := (F32.lt_iff_key hn (h.comparable 0 hsize)).mp hzero
    refine .inr ⟨fun i hi hid ↦ ?_, 0, Nat.zero_le size, rfl, fun i hi ↦ absurd hi (Nat.not_lt_zero i),
      fun i _ hi ↦ hkey.le.trans (h.mono 0 i (Nat.zero_le i) hi), fun _ ↦ ⟨hsize, hkey⟩⟩
    have hle := h.mono 0 i (Nat.zero_le i) hi
    rw [hown i hi hid] at hle
    exact absurd hkey (not_lt.mpr hle)
  have hfirst : poolKey addr 0 ≤ nn.key := (F32.not_lt_iff hn (h.comparable 0 hsize)).mp hzero
  rw [if_neg hzero]
  by_cases hend : (addr.getD (size - 1) default).distance < nn.distance
  · have hkey : poolKey addr (size - 1) < nn.key := (F32.lt_iff_key (h.comparable _ (by omega)) hn).mp hend
    have hset : addr.set size nn = insertAt addr size size nn := by
      rw [insertAt, Nat.sub_self, List.take_zero, List.set_eq_take_append_cons_drop, if_pos (by omega),
        List.drop_eq_nil_of_le hlen.le]
    rw [if_pos hend, hset]
    refine .inr ⟨fun i hi hid ↦ ?_, size, le_rfl, rfl,
      fun i hi ↦ (h.mono i (size - 1) (by omega) (by omega)).trans hkey.le, fun i hi hi' ↦ by omega,
      fun hlast ↦ absurd hlast hkey.not_gt⟩
    have hle := h.mono i (size - 1) (by omega) (by omega)
    rw [hown i hi hid] at hle
    exact absurd hkey (not_lt.mpr hle)
  have hlast : nn.key ≤ poolKey addr (size - 1) := (F32.not_lt_iff (h.comparable _ (by omega)) hn).mp hend
  rw [if_neg hend]
  -- where the search ends; with one entry it does not begin
  obtain ⟨left, right, hplace, hlr, hrs, hbelow, habove⟩ : ∃ left right,
      searchPlace addr nn size 0 (size - 1) = (left, right) ∧ (left + 1 = right ∨ left = right) ∧ right < size ∧
        poolKey addr left ≤ nn.key ∧ (nn.key < poolKey addr right ∨ right = size - 1) := by
    by_cases hone : size = 1
    · refine ⟨0, 0, ?_, .inr rfl, hsize, hfirst, .inr (by omega)⟩
      rw [hone]
      rfl
    · obtain ⟨place, hplace, hrs, hbelow, habove⟩ := searchPlace_spec h hn
        (Q := fun i ↦ nn.key < poolKey addr i ∨ i = size - 1) (fun i _ hi ↦ .inl hi)
        (show 0 < size - 1 by omega) (show size - 1 ≤ 0 + 1 + size by omega) (by omega) hfirst (.inr rfl)
      exact ⟨place, place + 1, hplace, .inl rfl, hrs, hbelow, habove⟩
  have hright : nn.key ≤ poolKey addr right := by
    rcases habove with hlt | rfl
    · exact hlt.le
    · exact hlast
  rw [hplace]
  dsimp only
  -- an entry with the id is at the same distance, so it does not come behind
  have hbehind : ∀ i < size, (addr.getD i default).id = nn.id → i ≤ right := by
    intro i hi hid
    rcases habove with hlt | rfl
    · by_contra hgt
      have hle := h.mono right i (by omega) hi
      rw [hown i hi hid] at hle
      exact absurd hlt (not_lt.mpr hle)
    · omega
  rcases passEqual_spec h hn (show left < size by omega) with ⟨hnone, i, hi, hid⟩ |
    ⟨l, hl, hsome, hstop, hpassed⟩
  · rw [hnone]
    exact .inl ⟨⟨i, by omega, hid⟩, rfl⟩
  · rw [hsome]
    dsimp only
    by_cases hids : (addr.getD l default).id = nn.id ∨ (addr.getD right default).id = nn.id
    · rw [if_pos hids]
      rcases hids with hid | hid
      · exact .inl ⟨⟨l, by omega, hid⟩, rfl⟩
      · exact .inl ⟨⟨right, hrs, hid⟩, rfl⟩
    · rw [if_neg hids]
      obtain ⟨hidl, hidr⟩ := not_or.mp hids
      refine .inr ⟨fun i hi hid ↦ ?_, right, hrs.le, rfl, fun i hi ↦ ?_,
        fun i hri hi ↦ hright.trans (h.mono right i hri hi), fun hlt ↦ ⟨hrs, ?_⟩⟩
      · have hir := hbehind i hi hid
        rcases Nat.lt_or_ge left i with hli | hil
        · obtain rfl : i = right := by omega
          exact hidr hid
        · rcases Nat.lt_or_ge l i with hli | hil'
          · exact hpassed i hli hil hid
          · rcases hstop with rfl | hstop
            · obtain rfl := Nat.le_zero.mp hil'
              exact hidl hid
            · have hle := h.mono i l hil' (by omega)
              rw [hown i hi hid] at hle
              exact absurd hstop (not_lt.mpr hle)
      · exact (h.mono i left (by omega) (by omega)).trans hbelow
      · rcases habove with habove | rfl
        · exact habove
        · exact hlt

/-- An entry that is better than the last one is inserted in its place, unless its id is in the pool. -/
theorem insertIntoPool_spec (h : IsPool addr size) (hsize : 1 ≤ size) (hn : nn.distance.Comparable)
    (hlast : nn.key < poolKey addr (size - 1))
    (hown : ∀ i < size, (addr.getD i default).id = nn.id → poolKey addr i = nn.key) :
    ((∃ i < size, (addr.getD i default).id = nn.id) ∧ insertIntoPool addr size nn = (addr, size + 1)) ∨
      ((∀ i < size, (addr.getD i default).id ≠ nn.id) ∧ ∃ place < size,
        insertIntoPool addr size nn = (insertAt addr size place nn, place) ∧
          (∀ i < place, poolKey addr i ≤ nn.key) ∧ nn.key < poolKey addr place) := by
  rcases insertIntoPool_cases h hsize hn hown with hdup | ⟨hfresh, place, -, heq, hbefore, -, hstrict⟩
  · exact .inl hdup
  · obtain ⟨hlt, hafter⟩ := hstrict hlast
    exact .inr ⟨hfresh, place, hlt, heq, hbefore, hafter⟩

/-! ## The array as a sorted set -/

/-- Entries in order, with different ids, whose distances are those of their ids. -/
structure IsSortedSet (dis : ℕ → F32) (entries : List Neighbor) : Prop where
  distance_eq : ∀ nb ∈ entries, nb.distance = dis nb.id
  sorted : entries.Pairwise fun a b ↦ a.distance ≤ b.distance
  nodup : (entries.map Neighbor.id).Nodup

section SortedSet

variable {dis : ℕ → F32} {before after : List Neighbor}

theorem IsSortedSet.isPool (h : IsSortedSet dis (addr.take size)) (hlen : addr.length = size + 1)
    (hcomp : ∀ nb ∈ addr.take size, nb.distance.Comparable) : IsPool addr size := by
  have hget : ∀ i (hi : i < size), addr.getD i default = (addr.take size).get ⟨i, by rw [List.length_take]; omega⟩ := by
    intro i hi
    rw [List.getD_eq_getElem _ _ (by omega)]
    simp only [List.get_eq_getElem, List.getElem_take]
  refine ⟨hlen, fun i hi ↦ ?_, fun i j hij hj ↦ ?_⟩
  · rw [hget i hi]
    exact hcomp _ (List.get_mem _ _)
  · rcases hij.eq_or_lt with rfl | hlt
    · exact le_rfl
    · have hle := List.pairwise_iff_get.mp h.sorted ⟨i, by rw [List.length_take]; omega⟩
        ⟨j, by rw [List.length_take]; omega⟩ hlt
      rw [poolKey, poolKey, hget i (by omega), hget j hj]
      exact (F32.le_iff.mp hle).2.2

/-- One more entry, between those that are not larger and those that are not smaller. -/
theorem IsSortedSet.insert (h : IsSortedSet dis (before ++ after)) (hnn : nn.distance = dis nn.id)
    (hbefore : ∀ nb ∈ before, nb.distance ≤ nn.distance) (hafter : ∀ nb ∈ after, nn.distance ≤ nb.distance)
    (hfresh : nn.id ∉ (before ++ after).map Neighbor.id) : IsSortedSet dis (before ++ nn :: after) := by
  have hperm : (before ++ nn :: after).Perm (nn :: (before ++ after)) := List.perm_middle
  obtain ⟨hb, ha, hba⟩ := List.pairwise_append.mp h.sorted
  refine ⟨fun nb hnb ↦ ?_, ?_, ?_⟩
  · rcases List.mem_cons.mp (hperm.mem_iff.mp hnb) with rfl | hnb
    · exact hnn
    · exact h.distance_eq nb hnb
  · refine List.pairwise_append.mpr ⟨hb, List.pairwise_cons.mpr ⟨hafter, ha⟩, fun x hx y hy ↦ ?_⟩
    rcases List.mem_cons.mp hy with rfl | hy
    · exact hbefore x hx
    · exact hba x hx y hy
  · rw [(hperm.map _).nodup_iff, List.map_cons, List.nodup_cons]
    exact ⟨hfresh, h.nodup⟩

/-- `insert_into_pool` keeps a sorted set: the new entry comes to its place between the others, or its id is there
already and nothing changes. -/
theorem insertIntoPool_isSortedSet (dis : ℕ → F32) (hdis : ∀ v, (dis v).Comparable) (addr : List Neighbor) (K : ℕ)
    (hK : 1 ≤ K) (hlen : addr.length = K + 1) (h : IsSortedSet dis (addr.take K)) (nn : Neighbor)
    (hnn : nn.distance = dis nn.id) :
    ((insertIntoPool addr K nn).2 ≤ K ∨ (insertIntoPool addr K nn).2 = K + 1) ∧
      ((insertIntoPool addr K nn).2 ≤ K → IsSortedSet dis (insertIntoPool addr K nn).1 ∧
        (insertIntoPool addr K nn).1 = (addr.take K).take (insertIntoPool addr K nn).2 ++
          nn :: (addr.take K).drop (insertIntoPool addr K nn).2) ∧
      (nn.id ∈ (addr.take K).map Neighbor.id → insertIntoPool addr K nn = (addr, K + 1)) := by
  have hcomp : ∀ nb ∈ addr.take K, nb.distance.Comparable := fun nb hnb ↦ h.distance_eq nb hnb ▸ hdis nb.id
  have hn : nn.distance.Comparable := hnn ▸ hdis nn.id
  have hpool := h.isPool hlen hcomp
  have hmem : ∀ nb, nb ∈ addr.take K ↔ ∃ i < K, addr.getD i default = nb := by
    intro nb
    rw [List.mem_take_iff_getElem]
    constructor
    · rintro ⟨i, hi, rfl⟩
      exact ⟨i, by omega, List.getD_eq_getElem _ _ (by omega)⟩
    · rintro ⟨i, hi, rfl⟩
      exact ⟨i, by omega, (List.getD_eq_getElem _ _ (by omega)).symm⟩
  have hids : nn.id ∈ (addr.take K).map Neighbor.id ↔ ∃ i < K, (addr.getD i default).id = nn.id := by
    rw [List.mem_map]
    constructor
    · rintro ⟨nb, hnb, hid⟩
      obtain ⟨i, hi, rfl⟩ := (hmem nb).mp hnb
      exact ⟨i, hi, hid⟩
    · rintro ⟨i, hi, hid⟩
      exact ⟨_, (hmem _).mpr ⟨i, hi, rfl⟩, hid⟩
  have hown : ∀ i < K, (addr.getD i default).id = nn.id → poolKey addr i = nn.key := by
    intro i hi hid
    rw [poolKey, Neighbor.key, h.distance_eq _ ((hmem _).mpr ⟨i, hi, rfl⟩), hid, ← hnn]
    rfl
  rcases insertIntoPool_cases hpool hK hn hown with ⟨-, heq⟩ | ⟨hfresh, place, hplace, heq, hbefore, hafter, -⟩
  · rw [heq]
    exact ⟨.inr rfl, fun hle ↦ absurd hle (Nat.not_succ_le_self K), fun _ ↦ rfl⟩
  · have hdup : nn.id ∉ (addr.take K).map Neighbor.id := fun hin ↦ by
      obtain ⟨i, hi, hid⟩ := hids.mp hin
      exact hfresh i hi hid
    have hinsert : insertAt addr K place nn = (addr.take K).take place ++ nn :: (addr.take K).drop place := by
      rw [insertAt, List.take_take, Nat.min_eq_left hplace, List.drop_take]
    rw [heq]
    refine ⟨.inl hplace, fun _ ↦ ⟨?_, hinsert⟩, fun hin ↦ absurd hin hdup⟩
    rw [hinsert]
    have hsplit : (addr.take K).take place ++ (addr.take K).drop place = addr.take K := List.take_append_drop _ _
    refine IsSortedSet.insert (by rwa [hsplit]) hnn (fun nb hnb ↦ ?_) (fun nb hnb ↦ ?_) (by rwa [hsplit])
    · obtain ⟨i, hi, rfl⟩ := List.mem_take_iff_getElem.mp hnb
      rw [List.length_take] at hi
      have hle := hbefore i (by omega)
      rw [poolKey, List.getD_eq_getElem _ _ (by omega)] at hle
      rw [List.getElem_take] at hnb ⊢
      exact F32.le_iff.mpr ⟨hcomp _ (List.mem_of_mem_take hnb), hn, hle⟩
    · obtain ⟨i, hi, rfl⟩ := List.mem_drop_iff_getElem.mp hnb
      rw [List.length_take] at hi
      have hle := hafter (place + i) (by omega) (by omega)
      rw [poolKey, List.getD_eq_getElem _ _ (by omega)] at hle
      rw [List.getElem_take] at hnb ⊢
      exact F32.le_iff.mpr ⟨hn, hcomp _ (List.mem_of_mem_drop hnb), hle⟩

/-- Two entries at the same distance, and a third one. -/
theorem insertIntoPool_isSortedSet_two :
    insertIntoPool [⟨4, ⟨0x3f800000⟩, true⟩, ⟨7, ⟨0x3f800000⟩, true⟩, default] 2 ⟨7, ⟨0x3f800000⟩, false⟩ =
      ([⟨4, ⟨0x3f800000⟩, true⟩, ⟨7, ⟨0x3f800000⟩, true⟩, default], 3) :=
  (insertIntoPool_isSortedSet (fun _ ↦ ⟨0x3f800000⟩) (fun _ ↦ by decide) _ 2 (by decide) rfl
    ⟨by decide, by decide, by decide⟩ ⟨7, ⟨0x3f800000⟩, false⟩ rfl).2.2 (by decide)

end SortedSet

end FaissNavix

/-!
# The loop over a sorted pool

The loop of `NSG::search_on_graph` and of `NNDescent::search`: the entry under the cursor is expanded
once, a neighbour that was not visited and beats the last entry is inserted, and the cursor goes back to
the smallest position updated.  A turn that does not move the cursor forward has marked a vertex.
-/

namespace FaissNavix

open Lib

/-- The array with the pool, the visited table, and what is collected. -/
structure PoolScan where
  retset : List Neighbor
  vt : VisitedTable
  fullset : List (ℕ × F32)

section Code

variable (refused : ℕ → Bool) (dis : ℕ → F32) (collect : Bool) (size : ℕ)

/-- The body of the loop over the neighbours, beside the smallest position updated. -/
def meetNeighbor (s : PoolScan × ℕ) (id : ℕ) : PoolScan × ℕ :=
  if refused id ∨ s.1.vt.get id = true then s
  else
    let dist := dis id
    let met := { s.1 with
      vt := s.1.vt.set id
      fullset := if collect then s.1.fullset ++ [(id, dist)] else s.1.fullset }
    if (met.retset.getD (size - 1) default).distance ≤ dist then (met, s.2)
    else
      let (retset, r) := insertIntoPool met.retset size ⟨id, dist, true⟩
      ({ met with retset }, min s.2 r)

/-- The expansion of the entry under the cursor, if its flag is set. -/
def expandEntry (neighbors : ℕ → List ℕ) (s : PoolScan) (k : ℕ) : PoolScan × ℕ :=
  let entry := s.retset.getD k default
  if entry.flag then
    (neighbors entry.id).foldl (meetNeighbor refused dis collect size)
      ({ s with retset := s.retset.set k { entry with flag := false } }, size)
  else (s, size)

/-- One turn of the loop. -/
def poolTurn (neighbors : ℕ → List ℕ) (s : PoolScan × ℕ) : Turn (PoolScan × ℕ) :=
  if s.2 < size then
    let (scan, updated) := expandEntry refused dis collect size neighbors s.1 s.2
    .next (scan, if updated ≤ s.2 then updated else s.2 + 1)
  else .done s

/-- The loop, for at most a number of turns. -/
def poolLoop (neighbors : ℕ → List ℕ) (turns : ℕ) (s : PoolScan) : Option PoolScan :=
  (iterate (poolTurn refused dis collect size neighbors) turns (s, 0)).map Prod.fst

end Code

/-! ## The array after an insertion -/

section InsertAt

variable {addr : List Neighbor} {size place : ℕ} {nn : Neighbor}

theorem insertAt_length (hl : addr.length = size + 1) (hp : place ≤ size) :
    (insertAt addr size place nn).length = size + 1 := by
  simp only [insertAt, List.length_append, List.length_cons, List.length_take, List.length_drop, hl]
  omega

/-- In front of the place nothing changes, and from there on everything moves by one. -/
theorem insertAt_getD (hl : addr.length = size + 1) (hp : place ≤ size) {i : ℕ} (hi : i ≤ size) :
    (insertAt addr size place nn).getD i default =
      if i < place then addr.getD i default else if i = place then nn else addr.getD (i - 1) default := by
  have htake : (addr.take place).length = place := by
    rw [List.length_take, hl]
    omega
  rw [insertAt]
  split
  · rename_i hlt
    rw [List.getD_append _ _ _ _ (by omega), List.getD_eq_getElem?_getD, List.getElem?_take_of_lt hlt,
      ← List.getD_eq_getElem?_getD]
  · rename_i hge
    rw [List.getD_append_right _ _ _ _ (by omega), htake]
    split
    · rename_i heq
      rw [heq, Nat.sub_self, List.getD_cons_zero]
    · rename_i hne
      obtain ⟨j, hj⟩ : ∃ j, i - place = j + 1 := ⟨i - place - 1, by omega⟩
      rw [hj, List.getD_cons_succ, List.getD_eq_getElem?_getD, List.getElem?_take_of_lt (by omega),
        List.getElem?_drop, ← List.getD_eq_getElem?_getD]
      congr 1
      omega

theorem insertAt_take (hl : addr.length = size + 1) (hp : place < size) :
    (insertAt addr size place nn).take size =
      addr.take place ++ nn :: (addr.drop place).take (size - 1 - place) := by
  have htake : (addr.take place).length = place := by
    rw [List.length_take, hl]
    omega
  rw [insertAt, List.take_append, htake, List.take_of_length_le (by omega)]
  obtain ⟨m, hm⟩ : ∃ m, size - place = m + 1 := ⟨size - place - 1, by omega⟩
  rw [hm, List.take_succ_cons, List.take_take, Nat.min_eq_left (Nat.le_succ m)]
  congr 4
  omega

theorem insertAt_take_sublist (hl : addr.length = size + 1) (hp : place < size) :
    ∃ kept, ((insertAt addr size place nn).take size).Perm (nn :: kept) ∧
      kept.Sublist (addr.take size) := by
  refine ⟨addr.take place ++ (addr.drop place).take (size - 1 - place), ?_, ?_⟩
  · rw [insertAt_take hl hp]
    exact List.perm_middle
  · have hsplit : addr.take size = addr.take place ++ (addr.drop place).take (size - place) := by
      conv_lhs => rw [← Nat.add_sub_cancel' hp.le, List.take_add]
    rw [hsplit]
    refine List.Sublist.append_left ?_ _
    exact List.take_sublist_take_left (by omega)

end InsertAt

/-! ## What a turn keeps -/

/-- A pool whose entries are vertices with their own distances. -/
structure SoundPool (n : ℕ) (dis : ℕ → F32) (size : ℕ) (retset : List Neighbor) : Prop where
  pool : IsPool retset size
  entry : ∀ nb ∈ retset.take size, nb.id < n ∧ nb.distance = dis nb.id

/-- What the loop does to a pool: no id comes in twice, and no place gets worse. -/
structure Improves (n : ℕ) (dis : ℕ → F32) (size : ℕ) (a b : List Neighbor) : Prop where
  sound : SoundPool n dis size b
  nodup : ((a.take size).map Neighbor.id).Nodup → ((b.take size).map Neighbor.id).Nodup
  key_le : ∀ i < size, poolKey b i ≤ poolKey a i

section Keeps

variable {n size : ℕ} {dis : ℕ → F32} {addr a b c : List Neighbor}

theorem SoundPool.improves (h : SoundPool n dis size a) : Improves n dis size a a :=
  ⟨h, id, fun _ _ ↦ le_rfl⟩

theorem Improves.trans (h : Improves n dis size a b) (h' : Improves n dis size b c) :
    Improves n dis size a c :=
  ⟨h'.sound, fun hnd ↦ h'.nodup (h.nodup hnd), fun i hi ↦ (h'.key_le i hi).trans (h.key_le i hi)⟩

section
variable (h : SoundPool n dis size addr) {i : ℕ}
include h

theorem SoundPool.getD_mem (hi : i < size) :
    addr.getD i default ∈ addr.take size := by
  have hl := h.pool.length_eq
  rw [List.mem_take_iff_getElem]
  exact ⟨i, by omega, (List.getD_eq_getElem _ _ (by omega)).symm⟩

theorem SoundPool.getD_entry (hi : i < size) :
    (addr.getD i default).id < n ∧ (addr.getD i default).distance = dis (addr.getD i default).id :=
  h.entry _ (h.getD_mem hi)

/-- Clearing a flag. -/
theorem SoundPool.clearFlag (k : ℕ) :
    Improves n dis size addr (addr.set k { addr.getD k default with flag := false }) := by
  have hget : ∀ i, ((addr.set k { addr.getD k default with flag := false }).getD i default).id =
        (addr.getD i default).id ∧
      ((addr.set k { addr.getD k default with flag := false }).getD i default).distance =
        (addr.getD i default).distance := by
    intro i
    rw [List.getD_eq_getElem?_getD, List.getElem?_set]
    by_cases hk : k = i
    · subst hk
      by_cases hlt : k < addr.length
      · rw [if_pos rfl, if_pos hlt]
        exact ⟨rfl, rfl⟩
      · rw [if_pos rfl, if_neg hlt, List.getD_eq_default _ _ (by omega)]
        exact ⟨rfl, rfl⟩
    · rw [if_neg hk, ← List.getD_eq_getElem?_getD]
      exact ⟨rfl, rfl⟩
  have hkey : ∀ i, poolKey (addr.set k { addr.getD k default with flag := false }) i =
      poolKey addr i := fun i ↦ by rw [poolKey, Neighbor.key, (hget i).2]; rfl
  have hl : (addr.set k { addr.getD k default with flag := false }).length = size + 1 := by
    rw [List.length_set, h.pool.length_eq]
  have hmap : ((addr.set k { addr.getD k default with flag := false }).take size).map Neighbor.id =
      (addr.take size).map Neighbor.id := by
    refine List.ext_getElem (by simp) fun i h1 h2 ↦ ?_
    rw [List.length_map, List.length_take] at h1 h2
    rw [List.getElem_map, List.getElem_map, List.getElem_take, List.getElem_take,
      ← List.getD_eq_getElem _ default (by omega), ← List.getD_eq_getElem _ default (by omega),
      (hget i).1]
  refine ⟨⟨⟨hl, fun i hi ↦ ?_, fun i j hij hj ↦ ?_⟩, fun nb hnb ↦ ?_⟩, fun hnd ↦ ?_,
    fun i _ ↦ (hkey i).le⟩
  · rw [(hget i).2]
    exact h.pool.comparable i hi
  · rw [hkey, hkey]
    exact h.pool.mono i j hij hj
  · obtain ⟨i, hi, rfl⟩ := List.mem_take_iff_getElem.mp hnb
    rw [← List.getD_eq_getElem _ default (by omega), (hget i).1, (hget i).2]
    exact h.getD_entry (by omega)
  · rwa [hmap]

/-- Inserting a vertex that beats the last entry. -/
theorem SoundPool.insert (hsize : 1 ≤ size)
    (hdis : ∀ v < n, (dis v).Comparable) {v : ℕ} (hv : v < n)
    (hlast : (dis v).key < poolKey addr (size - 1)) (flag : Bool) :
    Improves n dis size addr (insertIntoPool addr size ⟨v, dis v, flag⟩).1 := by
  have hown : ∀ i < size, (addr.getD i default).id = v → poolKey addr i = (dis v).key := by
    intro i hi hid
    rw [poolKey, Neighbor.key, (h.getD_entry hi).2, hid]
  have hl := h.pool.length_eq
  rcases @insertIntoPool_spec addr size ⟨v, dis v, flag⟩ h.pool hsize (hdis v hv) hlast hown with
    ⟨-, heq⟩ | ⟨hfresh, place, hp, heq, hbefore, hafter⟩
  · rw [heq]
    exact h.improves
  · rw [heq]
    have hget := fun i (hi : i < size) ↦ @insertAt_getD addr size place ⟨v, dis v, flag⟩ hl hp.le i hi.le
    have hkey : ∀ i < size, poolKey (insertAt addr size place ⟨v, dis v, flag⟩) i =
        if i < place then poolKey addr i else if i = place then (dis v).key
          else poolKey addr (i - 1) := by
      intro i hi
      rw [poolKey, hget i hi]
      split
      · rfl
      · split
        · rfl
        · rfl
    obtain ⟨kept, hperm, hsub⟩ := @insertAt_take_sublist addr size place ⟨v, dis v, flag⟩ hl hp
    refine ⟨⟨⟨insertAt_length hl hp.le, fun i hi ↦ ?_, fun i j hij hj ↦ ?_⟩, fun nb hnb ↦ ?_⟩,
      fun hnd ↦ ?_, fun i hi ↦ ?_⟩
    · rw [hget i hi]
      split
      · exact h.pool.comparable i hi
      · split
        · exact hdis v hv
        · exact h.pool.comparable (i - 1) (by omega)
    · rw [hkey i (by omega), hkey j hj]
      have hmono := h.pool.mono
      split
      · rename_i hi
        split
        · exact hmono i j hij hj
        · split
          · exact hbefore i hi
          · exact hmono i (j - 1) (by omega) (by omega)
      · split
        · rw [if_neg (by omega)]
          split
          · exact le_rfl
          · exact hafter.le.trans (hmono place (j - 1) (by omega) (by omega))
        · rw [if_neg (by omega), if_neg (by omega)]
          exact hmono (i - 1) (j - 1) (by omega) (by omega)
    · rcases List.mem_cons.mp (hperm.mem_iff.mp hnb) with rfl | hnb
      · exact ⟨hv, rfl⟩
      · exact h.entry nb (hsub.subset hnb)
    · rw [(hperm.map _).nodup_iff, List.map_cons, List.nodup_cons]
      refine ⟨fun hmem ↦ ?_, (hsub.map _).nodup hnd⟩
      obtain ⟨nb, hnb, hid⟩ := List.mem_map.mp hmem
      obtain ⟨i, hi, rfl⟩ := List.mem_take_iff_getElem.mp (hsub.subset hnb)
      refine hfresh i (by omega) ?_
      rw [List.getD_eq_getElem _ _ (by omega)]
      exact hid
    · rw [hkey i hi]
      have hmono := h.pool.mono
      split
      · exact le_rfl
      · split
        · rename_i heq
          rw [heq]
          exact hafter.le
        · exact hmono (i - 1) i (by omega) hi

end

theorem unvisited_set_lt {vt : VisitedTable} {v : ℕ} (hv : v < n) (hget : vt.get v = false) :
    unvisited (fun _ ↦ true) n (vt.set v) < unvisited (fun _ ↦ true) n vt := by
  have hvis : Visits (fun _ ↦ true) vt (vt.set v) [v] := Visits.mark rfl hget
  have := hvis.unvisited_add_length (n := n) (by simpa using hv)
  rw [List.length_singleton] at this
  omega

end Keeps

section Loop

variable (refused : ℕ → Bool) {dis : ℕ → F32} (collect : Bool) {size n : ℕ} {neighbors : ℕ → List ℕ}

variable (hsize : 1 ≤ size) (hdis : ∀ v < n, (dis v).Comparable)
include hsize hdis

/-- A neighbour either changes nothing, or marks a vertex. -/
theorem meetNeighbor_spec
    {s : PoolScan × ℕ} (h : SoundPool n dis size s.1.retset) {v : ℕ} (hv : v < n) :
    Improves n dis size s.1.retset (meetNeighbor refused dis collect size s v).1.retset ∧
      (meetNeighbor refused dis collect size s v = s ∨
        unvisited (fun _ ↦ true) n (meetNeighbor refused dis collect size s v).1.vt <
          unvisited (fun _ ↦ true) n s.1.vt) := by
  unfold meetNeighbor
  split
  · exact ⟨h.improves, .inl rfl⟩
  · rename_i hskip
    rw [not_or, Bool.not_eq_true (s.1.vt.get v)] at hskip
    have hlt := unvisited_set_lt hv hskip.2
    dsimp only
    split
    · exact ⟨h.improves, .inr hlt⟩
    · rename_i hnot
      have hcmp := h.pool.comparable (size - 1) (by omega)
      rw [F32.le_iff_key hcmp (hdis v hv), not_le] at hnot
      exact ⟨h.insert hsize hdis hv hnot true, .inr hlt⟩

theorem foldl_meetNeighbor {xs : List ℕ}
    (hxs : ∀ v ∈ xs, v < n) {s : PoolScan × ℕ} (h : SoundPool n dis size s.1.retset) :
    Improves n dis size s.1.retset (xs.foldl (meetNeighbor refused dis collect size) s).1.retset ∧
      (xs.foldl (meetNeighbor refused dis collect size) s = s ∨
        unvisited (fun _ ↦ true) n (xs.foldl (meetNeighbor refused dis collect size) s).1.vt <
          unvisited (fun _ ↦ true) n s.1.vt) := by
  induction xs generalizing s with
  | nil => exact ⟨h.improves, .inl rfl⟩
  | cons x xs ih =>
      obtain ⟨himp, hstep⟩ := meetNeighbor_spec refused collect hsize hdis h
        (hxs x List.mem_cons_self)
      obtain ⟨himp', hrest⟩ := ih (fun v hv ↦ hxs v (List.mem_cons_of_mem _ hv)) himp.sound
      rw [List.foldl_cons]
      refine ⟨himp.trans himp', ?_⟩
      rcases hstep with heq | hlt
      · rw [heq] at hrest ⊢
        exact hrest
      · rcases hrest with heq | hlt'
        · rw [heq]
          exact .inr hlt
        · exact .inr (hlt'.trans hlt)

/-- An expansion that updates a place of the pool has marked a vertex. -/
theorem expandEntry_spec
    (hnbr : ∀ u < n, ∀ v ∈ neighbors u, v < n) {s : PoolScan} (h : SoundPool n dis size s.retset)
    {k : ℕ} (hk : k < size) :
    Improves n dis size s.retset (expandEntry refused dis collect size neighbors s k).1.retset ∧
      ((expandEntry refused dis collect size neighbors s k).1.vt = s.vt ∧
          (expandEntry refused dis collect size neighbors s k).2 = size ∨
        unvisited (fun _ ↦ true) n (expandEntry refused dis collect size neighbors s k).1.vt <
          unvisited (fun _ ↦ true) n s.vt) := by
  unfold expandEntry
  dsimp only
  split
  · have hclear := h.clearFlag k
    obtain ⟨himp, hrest⟩ := @foldl_meetNeighbor refused dis collect size n hsize hdis
      (neighbors (s.retset.getD k default).id) (hnbr _ (h.getD_entry hk).1)
      ({ s with retset := s.retset.set k { s.retset.getD k default with flag := false } }, size)
      hclear.sound
    refine ⟨hclear.trans himp, ?_⟩
    rcases hrest with heq | hlt
    · rw [heq]
      exact .inl ⟨rfl, rfl⟩
    · exact .inr hlt
  · exact ⟨h.improves, .inl ⟨rfl, rfl⟩⟩

/-- The loop ends, whatever the distances are, and the pool is as good as before at every place. -/
theorem poolLoop_total
    (hnbr : ∀ u < n, ∀ v ∈ neighbors u, v < n) {s : PoolScan} (h : SoundPool n dis size s.retset) :
    ∃ turns s', poolLoop refused dis collect size neighbors turns s = some s' ∧
      Improves n dis size s.retset s'.retset := by
  have hstep : ∀ t : PoolScan × ℕ, t.2 ≤ size ∧ Improves n dis size s.retset t.1.retset →
      (∃ t', poolTurn refused dis collect size neighbors t = .done t' ∧
        Improves n dis size s.retset t'.1.retset) ∨
      ∃ t', poolTurn refused dis collect size neighbors t = .next t' ∧
        (t'.2 ≤ size ∧ Improves n dis size s.retset t'.1.retset) ∧
        unvisited (fun _ ↦ true) n t'.1.vt * (size + 1) + (size - t'.2) <
          unvisited (fun _ ↦ true) n t.1.vt * (size + 1) + (size - t.2) := by
    rintro t ⟨hle, himp⟩
    by_cases hk : t.2 < size
    · obtain ⟨himp', hor⟩ := expandEntry_spec refused collect hsize hdis hnbr himp.sound hk
      generalize he : expandEntry refused dis collect size neighbors t.1 t.2 = e at himp' hor
      refine .inr ⟨(e.1, if e.2 ≤ t.2 then e.2 else t.2 + 1), by rw [poolTurn, if_pos hk, he],
        ⟨?_, himp.trans himp'⟩, ?_⟩
      · dsimp only
        split
        · omega
        · omega
      · dsimp only
        rcases hor with ⟨hvt, hup⟩ | hlt
        · -- nothing is updated, and the cursor goes on
          rw [hvt, hup, if_neg (by omega)]
          omega
        · have hmul := Nat.mul_le_mul_right (size + 1) (Nat.succ_le_of_lt hlt)
          rw [Nat.succ_mul] at hmul
          omega
    · exact .inl ⟨t, by rw [poolTurn, if_neg hk], himp⟩
  obtain ⟨r, hr, hpost⟩ := iterate_total _ hstep _ (s, 0) ⟨Nat.zero_le _, h.improves⟩
    (Nat.lt_succ_self _)
  exact ⟨_, r.1, by rw [poolLoop, hr]; rfl, hpost⟩

end Loop

end FaissNavix
