import FaissNavix.Lib.Region
import FaissNavix.NNDescent.Search

/-!
# When NN-Descent gives valid rows

A pool starts with the random candidates of its vertex, without the vertex itself, and from then on it
only loses entries beyond the `L`-th.  With `K < S` it never has fewer than `K` entries.  With `S ≤ K` it
may never grow, because only candidates that are no worse than the worst one are inserted.
-/

namespace FaissNavix

open Lib

/-- A pool of different vertices, other than its own, with their distances. -/
structure GoodPool (n i K : ℕ) (dis : ℕ → ℕ → F32) (pool : List Neighbor) : Prop where
  size_le : K ≤ pool.length
  nodup : (pool.map Neighbor.id).Nodup
  entry : ∀ nb ∈ pool, nb.id < n ∧ nb.id ≠ i ∧ nb.distance = dis i nb.id

/-- A neighborhood with such a pool, and vertices to compare. -/
structure GoodNhood (n i K : ℕ) (dis : ℕ → ℕ → F32) (nh : Nhood) : Prop where
  pool : GoodPool n i K dis nh.pool
  nnNew_lt : ∀ v ∈ nh.nnNew, v < n
  nnOld_lt : ∀ v ∈ nh.nnOld, v < n
  rnnNew_lt : ∀ v ∈ nh.rnnNew, v < n
  rnnOld_lt : ∀ v ∈ nh.rnnOld, v < n

section Pool

variable {n i K L id : ℕ} {dis : ℕ → ℕ → F32} {pool pool' : List Neighbor}

theorem GoodPool.perm (h : GoodPool n i K dis pool) (hp : pool'.Perm pool) :
    GoodPool n i K dis pool' where
  size_le := hp.length_eq ▸ h.size_le
  nodup := (hp.map _).nodup_iff.mpr h.nodup
  entry := fun nb hnb ↦ h.entry nb (hp.mem_iff.mp hnb)

theorem GoodPool.take (h : GoodPool n i K dis pool) (hL : K ≤ L) : GoodPool n i K dis (pool.take L) where
  size_le := by
    rw [List.length_take]
    exact le_min hL h.size_le
  nodup := h.nodup.sublist ((List.take_sublist L pool).map _)
  entry := fun nb hnb ↦ h.entry nb (List.mem_of_mem_take hnb)

theorem GoodPool.concat (h : GoodPool n i K dis pool) (hid : id < n) (hne : id ≠ i)
    (hfresh : ¬ ∃ nb ∈ pool, nb.id = id) (hsub : pool'.Sublist pool) (hsize : K ≤ pool'.length + 1) :
    GoodPool n i K dis (pool' ++ [⟨id, dis i id, true⟩]) where
  size_le := by rwa [List.length_append, List.length_singleton]
  nodup := by
    rw [List.map_append, List.map_singleton, List.nodup_append]
    refine ⟨h.nodup.sublist (hsub.map _), List.nodup_singleton _, fun a ha b hb hab ↦ hfresh ?_⟩
    obtain ⟨nb, hnb, rfl⟩ := List.mem_map.mp ha
    exact ⟨nb, hsub.subset hnb, hab.trans (List.mem_singleton.mp hb)⟩
  entry := fun nb hnb ↦ by
    rcases List.mem_append.mp hnb with hnb | hnb
    · exact h.entry nb (hsub.subset hnb)
    · rw [List.mem_singleton.mp hnb]
      exact ⟨hid, hne, rfl⟩

theorem GoodPool.clearFlag (h : GoodPool n i K dis pool) {l : ℕ} {nn : Neighbor}
    (hl : pool[l]? = some nn) : GoodPool n i K dis (pool.set l { nn with flag := false }) where
  size_le := by rw [List.length_set]; exact h.size_le
  nodup := by
    have hmap : (pool.set l { nn with flag := false }).map Neighbor.id = pool.map Neighbor.id := by
      obtain ⟨hlt, rfl⟩ := List.getElem?_eq_some_iff.mp hl
      have hlt' : l < (pool.map Neighbor.id).length := by rwa [List.length_map]
      have hid : (pool.map Neighbor.id)[l] = pool[l].id := List.getElem_map _
      rw [List.map_set, ← hid, List.set_getElem_self hlt']
    rw [hmap]
    exact h.nodup
  entry := fun nb hnb ↦ by
    rcases List.mem_or_eq_of_mem_set hnb with hnb | rfl
    · exact h.entry nb hnb
    · exact h.entry nn (List.mem_of_getElem? hl)

end Pool

/-! ## Insertions -/

section Join

variable {O : Openings} {n i K : ℕ} {dis : ℕ → ℕ → F32} {nh : Nhood} {graph : KNNGraph}

def GoodGraph (n K : ℕ) (dis : ℕ → ℕ → F32) (graph : KNNGraph) : Prop :=
  ∀ v < n, GoodNhood n v K dis (graph v)

theorem GoodGraph.update (h : GoodGraph n K dis graph) {nh : Nhood} (hnh : GoodNhood n i K dis nh) :
    GoodGraph n K dis (Function.update graph i nh) := by
  intro v hv
  by_cases hvi : v = i
  · subst hvi
    rw [Function.update_self]
    exact hnh
  · rw [Function.update_of_ne hvi]
    exact h v hv

theorem GoodNhood.insert (h : GoodNhood n i K dis nh) (hK : 1 ≤ K) {id : ℕ} (hid : id < n)
    (hne : id ≠ i) : ∃ nh', nh.insert O id (dis i id) = some nh' ∧ GoodNhood n i K dis nh' := by
  have hgood : ∀ pool, GoodPool n i K dis pool → GoodNhood n i K dis { nh with pool } := fun pool hpool ↦
    ⟨hpool, h.nnNew_lt, h.nnOld_lt, h.rnnNew_lt, h.rnnOld_lt⟩
  unfold Nhood.insert
  split
  · rename_i hnil
    have := h.pool.size_le
    rw [hnil, List.length_nil] at this
    omega
  · split
    · exact ⟨nh, rfl, h⟩
    · split
      · exact ⟨nh, rfl, h⟩
      · rename_i hfresh
        have hsize := h.pool.size_le
        split
        · have hnew := h.pool.concat hid hne hfresh (List.Sublist.refl _) (by omega)
          exact ⟨_, rfl, hgood _ (hnew.perm (O.pushHeap_perm _))⟩
        · -- the worst entry is at the end, and is overwritten
          have hpop := h.pool.perm (O.popHeap_perm nh.pool)
          have hfresh' : ¬ ∃ nb ∈ O.popHeap nh.pool, nb.id = id := by
            rintro ⟨nb, hnb, heq⟩
            exact hfresh ⟨nb, (O.popHeap_perm _).mem_iff.mp hnb, heq⟩
          have hlen := (O.popHeap_perm nh.pool).length_eq
          have hnew := hpop.concat hid hne hfresh' (List.dropLast_sublist _)
            (by rw [List.length_dropLast, hlen]; omega)
          exact ⟨_, rfl, hgood _ (hnew.perm (O.pushHeap_perm _))⟩

/-- What is inserted: another vertex, with its distance. -/
theorem GoodGraph.mem_joinInsertions (h : GoodGraph n K dis graph)
    (hsymm : ∀ a < n, ∀ b < n, dis a b = dis b a) {ins : Insertion}
    (hins : ins ∈ joinInsertions dis n graph) :
    ins.1 < n ∧ ins.2.1 < n ∧ ins.2.1 ≠ ins.1 ∧ ins.2.2 = dis ins.1 ins.2.1 := by
  obtain ⟨v, hv, hins⟩ := List.mem_flatMap.mp hins
  obtain ⟨⟨a, b⟩, hp, hins⟩ := List.mem_flatMap.mp hins
  have hgood := h v (List.mem_range.mp hv)
  obtain ⟨a', ha, hp⟩ := List.mem_flatMap.mp hp
  obtain ⟨b', hb, heq⟩ := List.mem_map.mp hp
  obtain ⟨rfl, rfl⟩ := Prod.mk.inj heq
  have hlta : a' < n := hgood.nnNew_lt a' ha
  have hltb : b' < n := by
    rcases List.mem_append.mp hb with hb | hb
    · exact hgood.nnNew_lt b' (List.mem_of_mem_filter hb)
    · exact hgood.nnOld_lt b' hb
  dsimp only at hins
  split at hins
  · exact absurd hins List.not_mem_nil
  · rename_i hne
    rcases List.mem_cons.mp hins with rfl | hins
    · exact ⟨hlta, hltb, fun heq ↦ hne heq.symm, rfl⟩
    · rw [List.mem_singleton.mp hins]
      exact ⟨hltb, hlta, hne, hsymm a' hlta b' hltb⟩

/-- `join` keeps the neighborhoods good. -/
theorem GoodGraph.joinAll (h : GoodGraph n K dis graph) (hK : 1 ≤ K)
    (hsymm : ∀ a < n, ∀ b < n, dis a b = dis b a) (it : ℕ) :
    ∃ graph', joinAll O dis it n graph = some graph' ∧ GoodGraph n K dis graph' := by
  refine foldlM_total (GoodGraph n K dis) h fun ins hins g hg ↦ ?_
  obtain ⟨ht, hid, hne, hdist⟩ :=
    h.mem_joinInsertions hsymm ((O.joinOrder_perm it _).mem_iff.mp hins)
  obtain ⟨nh', hnh, hgood⟩ := (hg ins.1 ht).insert hK hid hne (O := O)
  refine ⟨Function.update g ins.1 nh', ?_, hg.update hgood⟩
  rw [insertInto, hdist, hnh]
  rfl

end Join

/-! ## The update -/

section Update

variable {O : Openings} {P : BuildParameters} {n : ℕ} {dis : ℕ → ℕ → F32} {graph : KNNGraph}

theorem countCandidates_le (pool : List Neighbor) (c : ℕ) : countCandidates pool c ≤ pool.length := by
  induction pool generalizing c with
  | nil => exact Nat.le_of_eq (by cases c <;> rfl)
  | cons nb rest ih =>
      cases c with
      | zero => exact Nat.zero_le _
      | succ c =>
          rw [countCandidates, List.length_cons]
          exact Nat.succ_le_succ (ih _)

theorem GoodNhood.sample {i : ℕ} {nh : Nhood} (h : GoodNhood n i P.K dis nh) (hL : P.K ≤ P.L) :
    GoodNhood n i P.K dis (nh.sample O P) ∧ (nh.sample O P).M ≤ (nh.sample O P).pool.length := by
  refine ⟨⟨(h.pool.perm (O.sort.perm _)).take hL, fun v hv ↦ absurd hv List.not_mem_nil,
    fun v hv ↦ absurd hv List.not_mem_nil, h.rnnNew_lt, h.rnnOld_lt⟩, ?_⟩
  refine (countCandidates_le _ _).trans ?_
  exact List.length_take_le' _ _

/-- What holds while reverse links are added: the numbers of candidates do not change. -/
structure Updating (n K : ℕ) (dis : ℕ → ℕ → F32) (M : ℕ → ℕ) (graph : KNNGraph) : Prop where
  good : GoodGraph n K dis graph
  M_le : ∀ v < n, M v ≤ (graph v).pool.length

variable {M : ℕ → ℕ}

theorem Updating.update (h : Updating n P.K dis M graph) {i : ℕ} {nh : Nhood}
    (hnh : GoodNhood n i P.K dis nh) (hlen : nh.pool.length = (graph i).pool.length) :
    Updating n P.K dis M (Function.update graph i nh) := by
  refine ⟨h.good.update hnh, fun v hv ↦ ?_⟩
  by_cases hvi : v = i
  · subst hvi
    rw [Function.update_self, hlen]
    exact h.M_le v hv
  · rw [Function.update_of_ne hvi]
    exact h.M_le v hv

theorem addReverse_spec (hR : 1 ≤ P.R) (draw : UInt32) {rnn : List ℕ} {v : ℕ} (hv : v < n)
    (hrnn : ∀ u ∈ rnn, u < n) :
    ∃ rnn', addReverse P draw rnn v = some rnn' ∧ ∀ u ∈ rnn', u < n := by
  unfold addReverse
  split
  · refine ⟨_, rfl, fun u hu ↦ ?_⟩
    rcases List.mem_append.mp hu with hu | hu
    · exact hrnn u hu
    · rw [List.mem_singleton.mp hu]
      exact hv
  · rw [if_neg (by omega)]
    refine ⟨_, rfl, fun u hu ↦ ?_⟩
    rcases List.mem_or_eq_of_mem_set hu with hu | rfl
    · exact hrnn u hu
    · exact hv

theorem Updating.linkReverse (h : Updating n P.K dis M graph) (hR : 1 ≤ P.R) (draws : BuildDraws)
    {v l : ℕ} {nn : Neighbor} (hv : v < n) (hid : nn.id < n) (back : Neighbor) :
    ∃ graph', linkReverse P draws graph v l nn back = some graph' ∧ Updating n P.K dis M graph' := by
  have hother := h.good nn.id hid
  unfold FaissNavix.linkReverse
  dsimp only
  split
  · split
    · obtain ⟨rnn, hrnn, hlt⟩ := addReverse_spec hR (draws.reverse v l 0) hv hother.rnnNew_lt
      rw [hrnn]
      exact ⟨_, rfl, h.update
        ⟨hother.pool, hother.nnNew_lt, hother.nnOld_lt, hlt, hother.rnnOld_lt⟩ rfl⟩
    · obtain ⟨rnn, hrnn, hlt⟩ := addReverse_spec hR (draws.reverse v l 1) hv hother.rnnOld_lt
      rw [hrnn]
      exact ⟨_, rfl, h.update
        ⟨hother.pool, hother.nnNew_lt, hother.nnOld_lt, hother.rnnNew_lt, hlt⟩ rfl⟩
  · exact ⟨_, rfl, h⟩

theorem Updating.visitCandidate (h : Updating n P.K dis M graph) (hK : 1 ≤ P.K) (hR : 1 ≤ P.R)
    (draws : BuildDraws) {v l : ℕ} (hv : v < n) (hl : l < M v) :
    ∃ graph', visitCandidate P draws graph v l = some graph' ∧ Updating n P.K dis M graph' := by
  have hgood := h.good v hv
  obtain ⟨nn, hnn⟩ : ∃ nn, (graph v).pool[l]? = some nn :=
    ⟨_, List.getElem?_eq_getElem (hl.trans_le (h.M_le v hv))⟩
  have hid := (hgood.pool.entry nn (List.mem_of_getElem? hnn)).1
  obtain ⟨back, hback⟩ : ∃ back, (graph nn.id).pool.getLast? = some back := by
    rw [← Option.isSome_iff_exists, List.getLast?_isSome]
    rintro hnil
    have := (h.good _ hid).pool.size_le
    rw [hnil, List.length_nil] at this
    omega
  have hconcat : ∀ xs : List ℕ, (∀ u ∈ xs, u < n) → ∀ u ∈ xs ++ [nn.id], u < n := by
    intro xs hxs u hu
    rcases List.mem_append.mp hu with hu | hu
    · exact hxs u hu
    · rw [List.mem_singleton.mp hu]
      exact hid
  unfold FaissNavix.visitCandidate
  dsimp only
  rw [hnn, Option.bind_eq_bind, Option.bind_some, hback, Option.bind_some]
  refine (h.update ?_ ?_).linkReverse hR draws hv hid back
  · split
    · exact ⟨hgood.pool.clearFlag hnn, hconcat _ hgood.nnNew_lt, hgood.nnOld_lt, hgood.rnnNew_lt,
        hgood.rnnOld_lt⟩
    · exact ⟨hgood.pool, hgood.nnNew_lt, hconcat _ hgood.nnOld_lt, hgood.rnnNew_lt, hgood.rnnOld_lt⟩
  · split
    · exact List.length_set
    · rfl

/-- `update` keeps the neighborhoods good. -/
theorem GoodGraph.updateAll (h : GoodGraph n P.K dis graph) (hK : 1 ≤ P.K) (hL : P.K ≤ P.L)
    (hR : 1 ≤ P.R) (draws : ℕ → BuildDraws) (it : ℕ) :
    ∃ graph', updateAll O P draws it n graph = some graph' ∧ GoodGraph n P.K dis graph' := by
  have hsampled : Updating n P.K dis (fun v ↦ ((graph v).sample O P).M)
      fun v ↦ (graph v).sample O P :=
    ⟨fun v hv ↦ ((h v hv).sample hL).1, fun v hv ↦ ((h v hv).sample hL).2⟩
  obtain ⟨graph', hgraph, hup⟩ := @foldlM_total _ _
    (O.updateOrder it (updateSteps n fun v ↦ (graph v).sample O P)) _ (updateStep O P (draws it))
    (Updating n P.K dis fun v ↦ ((graph v).sample O P).M) hsampled fun step hstep g hg ↦ by
      obtain ⟨v, hv, hstep⟩ := List.mem_flatMap.mp ((O.updateOrder_perm it _).mem_iff.mp hstep)
      rw [List.mem_range] at hv
      rcases List.mem_append.mp hstep with hstep | hstep
      · obtain ⟨l, hl, rfl⟩ := List.mem_map.mp hstep
        exact hg.visitCandidate hK hR (draws it) hv (List.mem_range.mp hl)
      · rw [List.mem_singleton.mp hstep]
        have hgood := hg.good v hv
        exact ⟨_, rfl, hg.update ⟨hgood.pool.perm (O.makeHeap_perm _), hgood.nnNew_lt, hgood.nnOld_lt,
          hgood.rnnNew_lt, hgood.rnnOld_lt⟩ (O.makeHeap_perm _).length_eq⟩
  refine ⟨fun v ↦ (graph' v).combine P, by rw [FaissNavix.updateAll, hgraph]; rfl, fun v hv ↦ ?_⟩
  have hgood := hup.good v hv
  refine ⟨hgood.pool, fun u hu ↦ ?_, fun u hu ↦ ?_, fun u hu ↦ absurd hu List.not_mem_nil,
    fun u hu ↦ absurd hu List.not_mem_nil⟩
  · rcases List.mem_append.mp hu with hu | hu
    · exact hgood.nnNew_lt u hu
    · exact hgood.rnnNew_lt u hu
  · rcases List.mem_append.mp (List.mem_of_mem_take hu) with hu | hu
    · exact hgood.nnOld_lt u hu
    · exact hgood.rnnOld_lt u hu

theorem GoodGraph.descend (h : GoodGraph n P.K dis graph) (hK : 1 ≤ P.K) (hL : P.K ≤ P.L)
    (hR : 1 ≤ P.R) (hsymm : ∀ a < n, ∀ b < n, dis a b = dis b a) (draws : ℕ → BuildDraws)
    (turns it : ℕ) :
    ∃ graph', descend O P dis draws n turns it graph = some graph' ∧ GoodGraph n P.K dis graph' := by
  induction turns generalizing it graph with
  | zero => exact ⟨graph, rfl, h⟩
  | succ turns ih =>
      obtain ⟨joined, hjoin, hjoined⟩ := h.joinAll hK hsymm it (O := O)
      obtain ⟨updated, hupdate, hupdated⟩ := hjoined.updateAll hK hL hR draws it (O := O)
      obtain ⟨graph', hrest, hgood⟩ := ih hupdated (it + 1)
      refine ⟨graph', ?_, hgood⟩
      rw [FaissNavix.descend, hjoin, Option.bind_eq_bind, Option.bind_some, hupdate, Option.bind_some]
      exact hrest

end Update

/-! ## The whole build -/

section Build

variable {O : Openings} {P : BuildParameters} {n : ℕ} {dis : ℕ → ℕ → F32}

theorem mem_toNat_lt {ids : List ℤ} (h : ∀ v ∈ ids, 0 ≤ v ∧ v < (n : ℤ)) :
    ∀ v ∈ ids.map Int.toNat, v < n := by
  intro v hv
  obtain ⟨id, hid, rfl⟩ := List.mem_map.mp hv
  have := h id hid
  omega

theorem nodup_toNat {ids : List ℤ} (hnd : ids.Nodup) (h : ∀ v ∈ ids, 0 ≤ v ∧ v < (n : ℤ)) :
    (ids.map Int.toNat).Nodup := by
  refine List.Nodup.map_on (fun a ha b hb hab ↦ ?_) hnd
  have := h a ha
  have := h b hb
  omega

theorem length_filter_ne {ids : List ℕ} (hnd : ids.Nodup) (i : ℕ) :
    ids.length ≤ (ids.filter fun id ↦ id ≠ i).length + 1 := by
  have herase : (ids.filter fun id ↦ id ≠ i) = ids.erase i := by
    rw [hnd.erase_eq_filter]
    exact List.filter_congr fun id _ ↦ by rw [Bool.eq_iff_iff]; simp
  rw [herase, List.length_erase]
  split
  · omega
  · omega

theorem goodNhood_init (hS : P.K < P.S) (hn : 2 * P.S < n) (hlarge : n ≤ 2 ^ 30 + 1) (draws : BuildDraws)
    (i : ℕ) : ∃ nh, initNhood O P dis draws n i = some nh ∧ GoodNhood n i P.K dis nh := by
  obtain ⟨new, hnew, -, -, hnewlt⟩ := genRandom_spec (draws.nhood i) (show P.S * 2 < n by omega) hlarge
  obtain ⟨tmp, htmp, hlen, hnd, htmplt⟩ := genRandom_spec (draws.pool i) (show P.S < n by omega) hlarge
  have hids := nodup_toNat hnd htmplt
  unfold initNhood
  rw [hnew, Option.bind_eq_bind, Option.bind_some, htmp, Option.bind_some]
  refine ⟨_, rfl, GoodPool.perm ⟨?_, ?_, fun nb hnb ↦ ?_⟩ (O.makeHeap_perm _), mem_toNat_lt hnewlt,
    fun v hv ↦ absurd hv List.not_mem_nil, fun v hv ↦ absurd hv List.not_mem_nil,
    fun v hv ↦ absurd hv List.not_mem_nil⟩
  · have := length_filter_ne hids i
    rw [List.length_map, hlen] at this
    rw [List.length_map]
    omega
  · rw [List.map_map]
    exact (List.map_id' _).symm ▸ hids.filter _
  · obtain ⟨id, hid, rfl⟩ := List.mem_map.mp hnb
    obtain ⟨hmem, hne⟩ := List.mem_filter.mp hid
    exact ⟨mem_toNat_lt htmplt id hmem, of_decide_eq_true hne, rfl⟩

/-- What a row is to be: different vertices, other than its own, nearest first. -/
structure GoodRow (n i K : ℕ) (dis : ℕ → ℕ → F32) (row : List ℕ) : Prop where
  length_eq : row.length = K
  nodup : row.Nodup
  entry : ∀ v ∈ row, v < n ∧ v ≠ i
  sorted : row.Pairwise fun a b ↦ dis i a ≤ dis i b

theorem GoodNhood.finalRow {i : ℕ} {nh : Nhood} (h : GoodNhood n i P.K dis nh)
    (hdis : ∀ v < n, (dis i v).Comparable) :
    ∃ row, finalRow O P n nh = some row ∧ GoodRow n i P.K dis row := by
  have hgood := (h.pool.perm (O.sort.perm nh.pool)).take le_rfl
  have hlen : ((O.sort.sort nh.pool).take P.K).length = P.K :=
    le_antisymm (List.length_take_le _ _) hgood.size_le
  have hsorted := O.sort.sorted nh.pool fun nb hnb ↦ by
    obtain ⟨hlt, -, heq⟩ := h.pool.entry nb hnb
    rw [heq]
    exact hdis _ hlt
  refine ⟨_, if_pos ⟨hlen, fun nb hnb ↦ (hgood.entry nb hnb).1⟩, by rw [List.length_map, hlen],
    hgood.nodup, fun v hv ↦ ?_, ?_⟩
  · obtain ⟨nb, hnb, rfl⟩ := List.mem_map.mp hv
    exact ⟨(hgood.entry nb hnb).1, (hgood.entry nb hnb).2.1⟩
  · rw [List.pairwise_map]
    refine (hsorted.sublist (List.take_sublist _ _)).imp_of_mem fun {a b} ha hb hab ↦ ?_
    obtain ⟨halt, -, hadist⟩ := hgood.entry a ha
    obtain ⟨hblt, -, hbdist⟩ := hgood.entry b hb
    rw [F32.le_iff_key (hdis _ halt) (hdis _ hblt), ← hadist, ← hbdist]
    exact hab

/-- With more random candidates than neighbours the build gives good rows. -/
theorem build_total (hK : 1 ≤ P.K) (hL : P.K ≤ P.L) (hR : 1 ≤ P.R) (hn : 100 < n)
    (hS : P.K < P.S) (hSn : 2 * P.S < n) (hlarge : n ≤ 2 ^ 30 + 1) (hint : n * P.K < 2 ^ 31)
    (hdis : ∀ a < n, ∀ b < n, (dis a b).Comparable) (hsymm : ∀ a < n, ∀ b < n, dis a b = dis b a)
    (draws : ℕ → BuildDraws) :
    ∃ nnd, build O P dis draws n = some nnd ∧ nnd.IsBuilt ∧ ∀ i < n, GoodRow n i P.K dis (nnd.row i) := by
  choose nh hnh hgood using fun i ↦ @goodNhood_init O P n dis hS hSn hlarge (draws 0) i
  have hhoods : (List.range n).mapM (initNhood O P dis (draws 0) n) = some ((List.range n).map nh) :=
    mapM_eq_some_map fun i _ ↦ hnh i
  obtain ⟨eval, heval, -⟩ := genRandom_spec (draws 0).eval hn hlarge
  have hstart : GoodGraph n P.K dis fun v ↦ ((List.range n).map nh).getD v default := by
    intro v hv
    have hget : ((List.range n).map nh).getD v default = nh v := by
      rw [List.getD_eq_getElem _ _ (by rw [List.length_map, List.length_range]; exact hv),
        List.getElem_map, List.getElem_range]
    dsimp only
    rw [hget]
    exact hgood v
  obtain ⟨graph, hgraph, hend⟩ := hstart.descend hK hL hR hsymm draws P.iter 0 (O := O)
  choose! row hrow hgoodrow using fun v (hv : v < n) ↦ (hend v hv).finalRow (O := O) (hdis v hv)
  have hrows : (List.range n).mapM (fun v ↦ finalRow O P n (graph v)) = some ((List.range n).map row) :=
    mapM_eq_some_map fun v hv ↦ hrow v (List.mem_range.mp hv)
  have hwidth : ∀ x ∈ (List.range n).map row, x.length = P.K := by
    intro x hx
    obtain ⟨v, hv, rfl⟩ := List.mem_map.mp hx
    exact (hgoodrow v (List.mem_range.mp hv)).length_eq
  have hlen : ((List.range n).map row).length = n := by rw [List.length_map, List.length_range]
  have hflat := length_flatten_records hwidth
  rw [hlen, Nat.mul_comm] at hflat
  have hbuilt : build O P dis draws n =
      some ⟨n, P.K, P.searchL, true, ((List.range n).map row).flatten⟩ := by
    rw [build, hhoods, heval]
    simp only [hL, hn, show P.K ≤ n - 1 by omega, hint, and_self, guard_true, Option.bind_eq_bind,
      Option.bind_some, Option.pure_def, hgraph, hrows]
  refine ⟨_, hbuilt, ⟨rfl, hflat, fun v hv ↦ ?_, hn, by dsimp only; omega, hint⟩, fun i hi ↦ ?_⟩
  · obtain ⟨x, hx, hvx⟩ := List.mem_flatten.mp hv
    obtain ⟨u, hu, rfl⟩ := List.mem_map.mp hx
    exact ((hgoodrow u (List.mem_range.mp hu)).entry v hvx).1
  · have hri : (NNDescent.row ⟨n, P.K, P.searchL, true, ((List.range n).map row).flatten⟩ i) = row i := by
      have hrec := drop_take_flatten hwidth (show i < ((List.range n).map row).length by omega)
      rw [List.get_eq_getElem, List.getElem_map, List.getElem_range] at hrec
      rw [← hrec]
      refine List.ext_getElem ?_ fun m h1 h2 ↦ ?_
      · have := Nat.mul_le_mul_left P.K (Nat.succ_le_of_lt hi)
        rw [Nat.mul_succ] at this
        rw [NNDescent.row, List.length_map, List.length_range, List.length_take, List.length_drop, hflat,
          Nat.mul_comm n]
        dsimp only
        omega
      · rw [List.length_take, List.length_drop] at h2
        simp only [NNDescent.row, List.getElem_map, List.getElem_range, List.getElem_take,
          List.getElem_drop]
        rw [Nat.mul_comm i, List.getD_eq_getElem _ _ (by omega)]
    rw [hri]
    exact hgoodrow i hi

end Build

end FaissNavix
