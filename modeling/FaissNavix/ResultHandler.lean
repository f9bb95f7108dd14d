import FaissNavix.HeapBlock

/-!
# Result handlers

`faiss/impl/ResultHandler.h`, as far as a search for one query uses it: the virtual interface
`ResultHandler<C>` with `C = CMax<float, int64_t>`, and the two single-query handlers that the
searches of an HNSW index are run with, the heap of the `k` best results and the list of results
within a radius.  The former is the heap handler of the order `CMax`.
-/

namespace FaissNavix

open Lib (KSmallest)

/-- `ResultHandler<C>`.  `heapK` is what a `dynamic_cast` to the single-query heap handler finds:
the number of results to keep, if the handler is one. -/
class ResultHandler (H : Type) where
  threshold : H → F32
  addResult : H → F32 → ℤ → H × Bool
  heapK : H → Option ℕ

open ResultHandler

/-- The answer of `add_result`: a handler that answers `false` has not moved its threshold. -/
class LawfulResultHandler (H : Type) [ResultHandler H] : Prop where
  threshold_of_false : ∀ (h : H) (dis : F32) (idx : ℤ),
    (addResult h dis idx).2 = false → threshold (addResult h dis idx).1 = threshold h

/-! ## The local copy of the threshold

The loops over the candidates of a search keep the threshold in a local variable, which they test
before every call and read again after every successful one. -/

/-- The handler of a search with the local variables that go with it. -/
structure Offering (H : Type) where
  res : H
  threshold : F32
  nres : ℕ

variable {H : Type} [ResultHandler H]

/-- The start of a loop: `threshold = res.threshold`. -/
def Offering.start (res : H) (nres : ℕ) : Offering H :=
  { res, threshold := ResultHandler.threshold res, nres }

/-- Call `add_result` if the distance is below the local threshold. -/
def Offering.offer (o : Offering H) (dis : F32) (idx : ℕ) : Offering H :=
  if dis < o.threshold then
    let r := addResult o.res dis idx
    if r.2 then { res := r.1, threshold := ResultHandler.threshold r.1, nres := o.nres + 1 }
    else { o with res := r.1 }
  else o

/-- The handler after one offer, the threshold being its own. -/
def offerTo (res : H) (dis : F32) (idx : ℕ) : H :=
  if dis < threshold res then (addResult res dis idx).1 else res

def Offering.Synced (o : Offering H) : Prop := o.threshold = ResultHandler.threshold o.res

theorem Offering.synced_start (res : H) (nres : ℕ) : (Offering.start res nres).Synced := rfl

theorem Offering.Synced.offer [LawfulResultHandler H] {o : Offering H} (h : o.Synced) (dis : F32)
    (idx : ℕ) : (o.offer dis idx).Synced := by
  unfold Offering.offer
  split
  · dsimp only
    split
    · rfl
    · rename_i hf
      exact h.trans (LawfulResultHandler.threshold_of_false _ _ _ (by simpa using hf)).symm
  · exact h

theorem Offering.Synced.offer_res {o : Offering H} (h : o.Synced) (dis : F32) (idx : ℕ) :
    (o.offer dis idx).res = offerTo o.res dis idx := by
  rw [Synced] at h
  rw [Offering.offer, offerTo, ← h]
  split
  · dsimp only
    split <;> rfl
  · rfl

/-! ## The heap handler -/

/-- `HeapBlockResultHandler<C>::SingleResultHandler` -/
structure HeapHandler where
  k : ℕ
  heap : ℕ → F32 × ℤ
  threshold : F32

namespace HeapHandler

/-- `begin`, on the part of the result tables that belongs to the query. -/
def begin (k : ℕ) (tab : ℕ → F32 × ℤ) : HeapHandler where
  k := k
  heap := heapHeapify CMax k tab
  threshold := (heapHeapify CMax k tab 0).1

def addResult (h : HeapHandler) (dis : F32) (idx : ℤ) : HeapHandler × Bool :=
  if CMax.cmp h.threshold dis then
    let heap := heapReplaceTop CMax h.k h.heap dis idx
    ({ h with heap, threshold := (heap 0).1 }, true)
  else (h, false)

/-- `end`: what it leaves in the tables. -/
def «end» (h : HeapHandler) : ℕ → F32 × ℤ := (heapReorder CMax h.k h.heap).2

/-- The results of the query after `end`. -/
def results (h : HeapHandler) : List (F32 × ℤ) := firstEntries h.k h.end

instance : ResultHandler HeapHandler where
  threshold := HeapHandler.threshold
  addResult := HeapHandler.addResult
  heapK h := some h.k

instance : LawfulResultHandler HeapHandler where
  threshold_of_false h dis idx hf := by
    change (h.addResult dis idx).1.threshold = h.threshold
    change (h.addResult dis idx).2 = false at hf
    unfold HeapHandler.addResult at *
    split at hf
    · exact absurd hf (by simp)
    · rename_i hcmp
      rw [if_neg hcmp]

def weight (x : F32 × ℤ) : ℤ := x.1.key

/-- The heap is a selection of the `k` best of `S`, filled up with the neutral value. -/
structure Holds (h : HeapHandler) (S : Multiset (F32 × ℤ)) : Prop where
  pos : 1 ≤ h.k
  threshold_eq : h.threshold = (h.heap 0).1
  heap : HeapOrdered F32.key h.k h.heap
  real : ∀ x ∈ S, isReal x
  below : ∀ x ∈ S, x.1 < F32.max
  smallest : KSmallest weight h.k (S + Multiset.replicate h.k (F32.max, -1)) (entries h.k h.heap)

/-- The handler is that of the order `CMax`. -/
def toTopK (h : HeapHandler) : TopK F32 where
  k := h.k
  heap := h.heap
  threshold := h.threshold

variable {h : HeapHandler} {S : Multiset (F32 × ℤ)}

theorem cmp_neutral_iff {d : F32} : CMax.cmp CMax.neutral d = true ↔ d < F32.max :=
  decide_eq_true_iff

theorem holds_iff : h.Holds S ↔ h.toTopK.Holds CMax F32.key S where
  mp hh := ⟨hh.pos, hh.threshold_eq, hh.heap, hh.real,
    fun x hx ↦ cmp_neutral_iff.mpr (hh.below x hx), hh.smallest⟩
  mpr hh := ⟨hh.pos, hh.threshold_eq, hh.heap, hh.real,
    fun x hx ↦ cmp_neutral_iff.mp (hh.below x hx), hh.smallest⟩

theorem toTopK_addResult (h : HeapHandler) (d : F32) (i : ℤ) :
    (h.addResult d i).1.toTopK = (h.toTopK.addResult CMax d i).1 := by
  unfold HeapHandler.addResult TopK.addResult
  change _ = (if CMax.cmp h.threshold d = true then _ else _ : TopK F32 × Bool).1
  split <;> rfl

theorem holds_begin {k : ℕ} (hk : 1 ≤ k) (tab : ℕ → F32 × ℤ) : (begin k tab).Holds 0 :=
  holds_iff.mpr (TopK.holds_begin hk tab)

theorem Holds.threshold_le_max (hh : h.Holds S) : h.threshold.key ≤ F32.max.key :=
  (holds_iff.mp hh).threshold_le_neutral CMax_keyed

theorem Holds.lt_threshold_iff (hh : h.Holds S) {d : F32} (hd : d < F32.max) :
    d < h.threshold ↔ S.countP (fun x ↦ weight x ≤ d.key) < h.k :=
  decide_eq_true_iff.symm.trans
    ((holds_iff.mp hh).cmp_threshold_iff CMax_keyed (cmp_neutral_iff.mpr hd))

theorem Holds.addResult (hh : h.Holds S) {d : F32} {i : ℤ} (hi : i ≠ -1) :
    (h.addResult d i).1.Holds (if d < F32.max then (d, i) ::ₘ S else S) ∧
      (h.addResult d i).1.k = h.k := by
  obtain ⟨hadd, hk⟩ := (holds_iff.mp hh).addResult CMax_keyed d hi
  rw [← toTopK_addResult] at hadd hk
  simp only [cmp_neutral_iff] at hadd
  exact ⟨holds_iff.mpr hadd, hk⟩

theorem Holds.results (hh : h.Holds S) :
    ∃ L : List (F32 × ℤ), KSmallest weight h.k S ↑L ∧
      L.Pairwise (fun x y ↦ x.1.key ≤ y.1.key) ∧
      h.results = L ++ List.replicate (h.k - L.length) (F32.max, -1) :=
  TopK.Holds.results CMax_keyed (holds_iff.mp hh)

end HeapHandler

/-! ## The range-search handler -/

/-- `RangeSearchBlockResultHandler<C>::SingleResultHandler`, with the results it has added for the
current query. -/
structure RangeHandler where
  threshold : F32
  results : List (F32 × ℤ)

namespace RangeHandler

/-- `begin` for a new query. -/
def begin (radius : F32) : RangeHandler := { threshold := radius, results := [] }

def addResult (h : RangeHandler) (dis : F32) (idx : ℤ) : RangeHandler × Bool :=
  if CMax.cmp h.threshold dis then ({ h with results := h.results ++ [(dis, idx)] }, false)
  else (h, false)

instance : ResultHandler RangeHandler where
  threshold := RangeHandler.threshold
  addResult := RangeHandler.addResult
  heapK _ := none

instance : LawfulResultHandler RangeHandler where
  threshold_of_false h dis idx _ := by
    change (h.addResult dis idx).1.threshold = h.threshold
    unfold RangeHandler.addResult
    split <;> rfl

end RangeHandler

end FaissNavix

/-!
# What a run of offers leaves behind

A search offers vertices to its result handler one after the other.  `offerAll` is such a run of
offers, and the results of the two handlers after it are a function of the vertices offered: the
heap handler is left with the `k` nearest of those whose distance is below the neutral value, the
range handler with those within the radius.

`Recorder` is any handler together with the ids that it was handed, for statements about the calls
and not only about the results.
-/

namespace FaissNavix

open Lib (KSmallest)
open ResultHandler (threshold)

variable {H : Type} [ResultHandler H] {qdis : ℕ → F32}

/-- A vertex with its distance, as it is pushed and offered. -/
def scored (qdis : ℕ → F32) (v : ℕ) : F32 × ℤ := (qdis v, v)

theorem scored_injective (qdis : ℕ → F32) : Function.Injective (scored qdis) := fun _ _ h ↦
  Int.ofNat_inj.mp (congrArg Prod.snd h)

theorem isReal_scored (qdis : ℕ → F32) (v : ℕ) : isReal (scored qdis v) := by
  simp only [isReal, scored]; omega

/-- The offers of a list of vertices, in order. -/
def offerAll (qdis : ℕ → F32) (res : H) (l : List ℕ) : H :=
  l.foldl (fun res v ↦ offerTo res (qdis v) v) res

@[simp] theorem offerAll_nil (res : H) : offerAll qdis res [] = res := rfl

@[simp] theorem offerAll_cons (res : H) (v : ℕ) (l : List ℕ) :
    offerAll qdis res (v :: l) = offerAll qdis (offerTo res (qdis v) v) l := rfl

theorem offerAll_append (res : H) (l l' : List ℕ) :
    offerAll qdis res (l ++ l') = offerAll qdis (offerAll qdis res l) l' := List.foldl_append

def Offering.offerEach (qdis : ℕ → F32) (o : Offering H) (l : List ℕ) : Offering H :=
  l.foldl (fun o v ↦ o.offer (qdis v) v) o

theorem Offering.Synced.offerEach [LawfulResultHandler H] {o : Offering H} (ho : o.Synced)
    (l : List ℕ) : (o.offerEach qdis l).Synced ∧ (o.offerEach qdis l).res = offerAll qdis o.res l := by
  induction l generalizing o with
  | nil => exact ⟨ho, rfl⟩
  | cons v l ih =>
      obtain ⟨hs, hr⟩ := ih (ho.offer (qdis v) v)
      rw [ho.offer_res] at hr
      exact ⟨hs, hr⟩

/-! ## The heap handler -/

namespace HeapHandler

variable {h : HeapHandler}

theorem offerTo_eq (h : HeapHandler) (d : F32) (i : ℕ) :
    offerTo h d i = (h.addResult d i).1 := by
  change (if d < h.threshold then (h.addResult d i).1 else h) = _
  split
  · rfl
  · rename_i hlt
    rw [HeapHandler.addResult, CMax, if_neg (by simpa using hlt)]

/-- The vertices whose distance is below the neutral value: the others are never kept. -/
def below (qdis : ℕ → F32) (l : List ℕ) : List ℕ := l.filter fun v ↦ decide (qdis v < F32.max)

theorem below_append (l l' : List ℕ) : below qdis (l ++ l') = below qdis l ++ below qdis l' :=
  List.filter_append _ _

theorem mem_below {l : List ℕ} {v : ℕ} : v ∈ below qdis l ↔ v ∈ l ∧ qdis v < F32.max := by
  simp [below]

theorem below_eq_self {l : List ℕ} (h : ∀ v ∈ l, qdis v < F32.max) : below qdis l = l :=
  List.filter_eq_self.mpr fun v hv ↦ decide_eq_true (h v hv)

/-- The handler has been offered the vertices of `l`. -/
def Offered (qdis : ℕ → F32) (h : HeapHandler) (l : List ℕ) : Prop :=
  h.Holds ↑((below qdis l).map (scored qdis))

theorem offered_begin (qdis : ℕ → F32) {k : ℕ} (hk : 1 ≤ k) (tab : ℕ → F32 × ℤ) :
    Offered qdis (begin k tab) [] :=
  holds_begin hk tab

variable {l : List ℕ}

theorem Offered.addResult (hh : Offered qdis h l) (v : ℕ) :
    Offered qdis (h.addResult (qdis v) v).1 (l ++ [v]) ∧ (h.addResult (qdis v) v).1.k = h.k := by
  obtain ⟨hold, hk⟩ := Holds.addResult hh (d := qdis v) (show (v : ℤ) ≠ -1 by omega)
  refine ⟨?_, hk⟩
  unfold Offered
  rw [below_append, List.map_append, ← Multiset.coe_add, add_comm]
  by_cases hd : qdis v < F32.max
  · rw [if_pos hd] at hold
    have hv : below qdis [v] = [v] := below_eq_self (by simpa using hd)
    rw [hv]
    exact hold
  · rw [if_neg hd] at hold
    have hv : below qdis [v] = [] := by simp [below, hd]
    rw [hv]
    simpa using hold

theorem Offered.offerAll (hh : Offered qdis h l) (l' : List ℕ) :
    Offered qdis (offerAll qdis h l') (l ++ l') ∧ (FaissNavix.offerAll qdis h l').k = h.k := by
  induction l' generalizing h l with
  | nil => simpa using hh
  | cons v l' ih =>
      obtain ⟨h', hk⟩ := hh.addResult v
      rw [← offerTo_eq] at h' hk
      obtain ⟨h'', hk'⟩ := ih h'
      rw [List.append_assoc] at h''
      exact ⟨h'', hk'.trans hk⟩

/-- A distance is below the threshold exactly when fewer than `k` of the vertices offered are as
near. -/
theorem Offered.lt_threshold_iff (hh : Offered qdis h l) {d : F32} :
    d < h.threshold ↔ d < F32.max ∧ (below qdis l).countP (fun v ↦ qdis v ≤ d) < h.k := by
  have hcount : d < F32.max → (below qdis l).countP (fun v ↦ decide (qdis v ≤ d)) =
      (↑((below qdis l).map (scored qdis)) : Multiset (F32 × ℤ)).countP fun x ↦ weight x ≤ d.key := by
    intro hd
    rw [Multiset.coe_countP, List.countP_map]
    refine List.countP_congr fun v hv ↦ ?_
    have hv := F32.Comparable.of_lt (mem_below.mp hv).2
    simp only [decide_eq_true_eq, Function.comp_apply]
    exact F32.le_iff_key hv (F32.Comparable.of_lt hd)
  constructor
  · intro hlt
    have hd : d < F32.max := F32.lt_iff.mpr ⟨F32.Comparable.of_lt hlt, F32.comparable_max,
      (F32.lt_iff.mp hlt).2.2.trans_le (Holds.threshold_le_max hh)⟩
    exact ⟨hd, by rw [hcount hd]; exact (Holds.lt_threshold_iff hh hd).mp hlt⟩
  · rintro ⟨hd, hlt⟩
    rw [hcount hd] at hlt
    exact (Holds.lt_threshold_iff hh hd).mpr hlt

/-- The results: the nearest of the vertices offered, in order, each with its own distance, and
then the filling. -/
theorem Offered.results (hh : Offered qdis h l) :
    ∃ L : List ℕ, KSmallest (fun v ↦ (qdis v).key) h.k ↑(below qdis l) ↑L ∧
      L.Pairwise (fun u v ↦ qdis u ≤ qdis v) ∧
      h.results = L.map (scored qdis) ++ List.replicate (h.k - L.length) (F32.max, -1) := by
  obtain ⟨R, hR, hsorted, hres⟩ := Holds.results hh
  rw [← Multiset.map_coe] at hR
  obtain ⟨T, hT, hTR⟩ := hR.of_map
  have hscored : ∀ x ∈ R, x = scored qdis x.2.toNat := by
    intro x hx
    rw [← Multiset.mem_coe, ← hTR] at hx
    obtain ⟨v, -, rfl⟩ := Multiset.mem_map.mp hx
    rfl
  have hmap : (R.map fun x ↦ x.2.toNat).map (scored qdis) = R := by
    rw [List.map_map]
    exact (List.map_congr_left fun x hx ↦ (hscored x hx).symm).trans (List.map_id _)
  have hTL : T = ↑(R.map fun x ↦ x.2.toNat) := by
    rw [← Multiset.map_coe, ← hTR, Multiset.map_map]
    exact (Multiset.map_id' T).symm
  rw [hTL] at hT
  refine ⟨R.map fun x : F32 × ℤ ↦ x.2.toNat, hT, ?_, by rw [hmap, List.length_map]; exact hres⟩
  have hcomp : ∀ v ∈ R.map fun x ↦ x.2.toNat, (qdis v).Comparable := fun v hv ↦
    F32.Comparable.of_lt (mem_below.mp
      (Multiset.mem_coe.mp (Multiset.mem_of_le hT.sub (Multiset.mem_coe.mpr hv)))).2
  rw [← hmap, List.pairwise_map] at hsorted
  exact hsorted.imp_of_mem fun hu hv hle ↦
    (F32.le_iff_key (hcomp _ hu) (hcomp _ hv)).mpr hle

theorem Offered.of_mem_results (hh : Offered qdis h l) {x : F32 × ℤ} (hx : x ∈ h.results)
    (hreal : isReal x) : ∃ v ∈ below qdis l, x = scored qdis v := by
  obtain ⟨L, hL, -, hres⟩ := hh.results
  rw [hres] at hx
  rcases List.mem_append.mp hx with hx | hx
  · obtain ⟨v, hv, rfl⟩ := List.mem_map.mp hx
    exact ⟨v, Multiset.mem_coe.mp (Multiset.mem_of_le hL.sub (Multiset.mem_coe.mpr hv)), rfl⟩
  · rw [List.eq_of_mem_replicate hx] at hreal
    exact absurd rfl hreal

theorem Offered.mem_results (hh : Offered qdis h l) (hk : l.length ≤ h.k) {v : ℕ}
    (hv : v ∈ below qdis l) : scored qdis v ∈ h.results := by
  obtain ⟨L, hL, -, hres⟩ := hh.results
  have hle : (below qdis l).length ≤ h.k := (List.length_filter_le _ _).trans hk
  have hall := hL.eq_of_card_le (by rw [Multiset.coe_card]; exact hle)
  rw [hres]
  refine List.mem_append_left _ (List.mem_map_of_mem ?_)
  rw [← Multiset.mem_coe, hall]
  exact Multiset.mem_coe.mpr hv

end HeapHandler

/-! ## The range handler -/

namespace RangeHandler

theorem offerTo_eq (h : RangeHandler) (d : F32) (i : ℕ) :
    offerTo h d i =
      { h with results := h.results ++ if d < h.threshold then [(d, (i : ℤ))] else [] } := by
  change (if d < h.threshold then (h.addResult d i).1 else h) = _
  split
  · rename_i hlt
    rw [RangeHandler.addResult, CMax, if_pos (by simpa using hlt)]
  · rw [List.append_nil]

theorem addResult_eq (h : RangeHandler) (d : F32) (i : ℕ) :
    (ResultHandler.addResult h d i).1 = offerTo h d i := by
  rw [offerTo_eq]
  change (h.addResult d i).1 = _
  unfold RangeHandler.addResult
  by_cases hd : d < h.threshold
  · rw [if_pos hd, if_pos (show CMax.cmp h.threshold d = true from decide_eq_true hd)]
  · rw [if_neg hd, if_neg (show ¬ CMax.cmp h.threshold d = true from fun hc ↦
      hd (of_decide_eq_true hc)), List.append_nil]

theorem offerAll_eq (h : RangeHandler) (l : List ℕ) :
    offerAll qdis h l = { h with
      results := h.results ++
        (l.filter fun v ↦ decide (qdis v < h.threshold)).map (scored qdis) } := by
  induction l generalizing h with
  | nil => simp
  | cons v l ih =>
      rw [offerAll_cons, offerTo_eq, ih, List.filter_cons]
      by_cases hv : qdis v < h.threshold
      · simp [hv, scored]
      · simp [hv]

end RangeHandler

/-! ## Recording the calls -/

/-- A handler, and the ids that `add_result` was called with. -/
structure Recorder (H : Type) where
  handler : H
  calls : List ℤ

namespace Recorder

instance : ResultHandler (Recorder H) where
  threshold r := threshold r.handler
  addResult r dis idx :=
    let a := ResultHandler.addResult r.handler dis idx
    ({ handler := a.1, calls := r.calls ++ [idx] }, a.2)
  heapK r := ResultHandler.heapK r.handler

instance [LawfulResultHandler H] : LawfulResultHandler (Recorder H) where
  threshold_of_false r := LawfulResultHandler.threshold_of_false r.handler

/-- The vertices of a list that `add_result` is called with when the list is offered. -/
def called (qdis : ℕ → F32) : H → List ℕ → List ℕ
  | _, [] => []
  | res, v :: l =>
    if qdis v < threshold res then v :: called qdis (offerTo res (qdis v) v) l
    else called qdis (offerTo res (qdis v) v) l

theorem called_sublist (qdis : ℕ → F32) (res : H) (l : List ℕ) :
    (called qdis res l).Sublist l := by
  induction l generalizing res with
  | nil => exact List.Sublist.slnil
  | cons v l ih =>
      rw [called]
      split
      · exact (ih _).cons_cons v
      · exact (ih _).cons v

theorem called_append (res : H) (l l' : List ℕ) :
    called qdis res (l ++ l') = called qdis res l ++ called qdis (offerAll qdis res l) l' := by
  induction l generalizing res with
  | nil => rfl
  | cons v l ih =>
      rw [List.cons_append, called, called, ih, offerAll_cons]
      split <;> rfl

theorem mem_called_iff {res : H} {l l' : List ℕ} {v : ℕ} (h : (l ++ v :: l').Nodup) :
    v ∈ called qdis res (l ++ v :: l') ↔ qdis v < threshold (offerAll qdis res l) := by
  obtain ⟨-, htail, hdisj⟩ := List.nodup_append.mp h
  have hl : v ∉ called qdis res l := fun hv ↦
    hdisj v ((called_sublist qdis res l).subset hv) v List.mem_cons_self rfl
  rw [called_append, List.mem_append, or_iff_right hl, called]
  split
  · rename_i hlt
    simp [hlt]
  · rename_i hlt
    exact ⟨fun hv ↦ absurd ((called_sublist qdis _ l').subset hv) (List.nodup_cons.mp htail).1,
      fun hv ↦ absurd hv hlt⟩

theorem offerAll_called (res : H) (l : List ℕ) :
    offerAll qdis res (called qdis res l) = offerAll qdis res l := by
  induction l generalizing res with
  | nil => rfl
  | cons v l ih =>
      rw [called, offerAll_cons]
      split
      · rw [offerAll_cons, ih]
      · rename_i hlt
        rw [offerTo, if_neg hlt, ih]

theorem offerAll_eq (r : Recorder H) (l : List ℕ) :
    offerAll qdis r l = {
      handler := offerAll qdis r.handler l
      calls := r.calls ++ (called qdis r.handler l).map fun v : ℕ ↦ (v : ℤ) } := by
  induction l generalizing r with
  | nil => simp [called]
  | cons v l ih =>
      have hoffer : offerTo r (qdis v) v = {
          handler := offerTo r.handler (qdis v) v
          calls := r.calls ++ if qdis v < threshold r.handler then [(v : ℤ)] else [] } := by
        change (if qdis v < threshold r.handler then _ else r) = _
        rw [offerTo]
        split
        · rfl
        · rw [List.append_nil]
      rw [offerAll_cons, hoffer, ih, offerAll_cons, called]
      split <;> simp

end Recorder

end FaissNavix
