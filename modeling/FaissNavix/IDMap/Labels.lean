import FaissNavix.IDMap.SubIndexes
import FaissNavix.Lib.Loop

/-!
# Labels and ids of an `IndexIDMap`

`add_with_ids`, `remove_ids` and `merge_from` of `faiss/IndexIDMap.cpp`, on any number of objects of
type `IndexIDMap` or `IndexIDMap2`.  The wrapper takes for granted that its sub-index numbers its
vectors anew; an `IndexFlat` does, and an inverted file does not.
-/

namespace FaissNavix

open Function
open Lib

/-! ## The objects -/

/-- The sub-index. -/
inductive MappedIndex (Q V : Type) where
  | flat (index : IndexFlat V)
  | ivfFlat (ivf : IvfFlat Q V)

namespace MappedIndex

variable {Q V : Type}

/-- `ntotal` -/
def ntotal : MappedIndex Q V → ℕ
  | .flat index => index.codes.length
  | .ivfFlat ivf => ivf.ntotal

def labels : MappedIndex Q V → List ℕ
  | .flat index => List.range index.codes.length
  | .ivfFlat ivf => (List.range ivf.nlist).flatMap fun i ↦ (ivf.lists i).map Labelled.label

/-- The type and the quantizer, which `check_compatible_for_merge` compares. -/
def quantizer : MappedIndex Q V → Option Q
  | .flat _ => none
  | .ivfFlat ivf => some ivf.quantizer

/-- `add` -/
def add (assign : Q → V → ℤ) (xs : List V) : MappedIndex Q V → MappedIndex Q V
  | .flat index => .flat (index.add xs)
  | .ivfFlat ivf => .ivfFlat (ivf.add assign xs)

/-- `remove_ids` -/
def removeIds (isMember : ℕ → Bool) : MappedIndex Q V → MappedIndex Q V
  | .flat index => .flat (index.removeIds isMember).2
  | .ivfFlat ivf => .ivfFlat (ivf.removeIds isMember).2

/-- `merge_from` of an index that is compatible. -/
def mergeFrom : MappedIndex Q V → MappedIndex Q V → MappedIndex Q V × MappedIndex Q V
  | .flat index, .flat other => (.flat (index.mergeFrom other).1, .flat (index.mergeFrom other).2)
  | .ivfFlat ivf, .ivfFlat other => (.ivfFlat (ivf.mergeFrom other).1, .ivfFlat (ivf.mergeFrom other).2)
  | index, other => (index, other)

end MappedIndex

/-- `IndexIDMap`, or `IndexIDMap2` if there is a `rev_map`. -/
structure IDMapped (Q V : Type) where
  index : MappedIndex Q V
  idMap : List ℤ
  ntotal : ℕ
  revMap : Option (ℤ → Option ℕ)

/-- A loop `rev_map[id_map[i]] = i`. -/
def reverse (idMap : List ℤ) (rev : ℤ → Option ℕ) (i : ℕ) : ℤ → Option ℕ :=
  match idMap[i]? with
  | some id => update rev id (some i)
  | none => rev

/-- The loop of `construct_rev_map`. -/
def constructRevMap (idMap : List ℤ) (ntotal : ℕ) : ℤ → Option ℕ :=
  (List.range ntotal).foldl (reverse idMap) fun _ ↦ none

namespace IDMapped

variable {Q V : Type} (assign : Q → V → ℤ) (map other : IDMapped Q V)

/-- What `IndexIDMap2` does after an addition to the map. -/
def extendRevMap (prevNtotal : ℕ) : IDMapped Q V :=
  { map with
    revMap := map.revMap.map ((List.range' prevNtotal (map.ntotal - prevNtotal)).foldl (reverse map.idMap)) }

/-- `add_with_ids` -/
def addWithIds (xs : List (V × ℤ)) : IDMapped Q V :=
  let index := map.index.add assign (xs.map Prod.fst)
  { map with index, idMap := map.idMap ++ xs.map Prod.snd, ntotal := index.ntotal }
    |>.extendRevMap map.ntotal

/-- `remove_ids`, unless a label is looked up past the end of the map or the assertion fails. -/
def removeIds (sel : ℤ → Bool) : Option (IDMapped Q V) :=
  if map.index.labels.all (· < map.idMap.length) then
    let index := map.index.removeIds fun label ↦ (map.idMap[label]?).any sel
    let idMap := compact (fun _ ↦ sel) (map.idMap.take map.ntotal)
    if idMap.length = index.ntotal then
      some ⟨index, idMap, idMap.length, map.revMap.map fun _ ↦ constructRevMap idMap idMap.length⟩
    else none
  else none

/-- `merge_from` of an object with a sub-index that is compatible, unless it is cast to
`IndexIDMap2` and is none. -/
def mergeFrom (addId : ℤ) : Option (IDMapped Q V × IDMapped Q V) :=
  let (index, otherIndex) := map.index.mergeFrom other.index
  let merged := { map with
    index, idMap := map.idMap ++ other.idMap.map (· + addId), ntotal := index.ntotal }
  let left := { other with index := otherIndex, idMap := [], ntotal := 0 }
  if map.revMap.isSome then
    if left.revMap.isSome then
      some (merged.extendRevMap map.ntotal, { left with revMap := some fun _ ↦ none })
    else none
  else some (merged, left)

end IDMapped

/-! ## Runs -/

/-- A call of one of the objects. -/
inductive MapCall (V : Type) where
  | addWithIds (o : ℕ) (xs : List (V × ℤ))
  | removeIds (o : ℕ) (sel : ℤ → Bool)
  | mergeFrom (o other : ℕ) (addId : ℤ)

variable {Q V : Type} (assign : Q → V → ℤ)

/-- What a call leaves of the objects, if the program goes on.  An object that is merged into itself
is added to without end, and one that is not compatible is left alone, as the other one is. -/
def callMap [DecidableEq Q] (objs : ℕ → IDMapped Q V) : MapCall V → Option (ℕ → IDMapped Q V)
  | .addWithIds o xs => some (update objs o ((objs o).addWithIds assign xs))
  | .removeIds o sel => ((objs o).removeIds sel).map (update objs o)
  | .mergeFrom o other addId =>
    if o = other then none
    else if (objs o).index.quantizer = (objs other).index.quantizer then
      ((objs o).mergeFrom (objs other) addId).map fun (merged, left) ↦
        update (update objs o merged) other left
    else some objs

/-- What an object is made as. -/
structure MapKind (Q : Type) where
  quantizer : Option Q
  hasRevMap : Bool

/-- An object without vectors. -/
def MapKind.fresh (nlist : Q → ℕ) (kind : MapKind Q) : IDMapped Q V where
  index :=
    match kind.quantizer with
    | none => .flat ⟨[]⟩
    | some quantizer => .ivfFlat ⟨quantizer, nlist quantizer, fun _ ↦ [], 0⟩
  idMap := []
  ntotal := 0
  revMap := if kind.hasRevMap then some fun _ ↦ none else none

/-- The calls, one after the other, of objects that are new. -/
def runMaps [DecidableEq Q] (nlist : Q → ℕ) (kinds : ℕ → MapKind Q) (calls : List (MapCall V)) :
    Option (ℕ → IDMapped Q V) :=
  calls.foldlM (callMap assign) fun o ↦ (kinds o).fresh nlist

/-- The vectors with their ids that a call is to leave in the objects. -/
def recordCall [DecidableEq Q] (kinds : ℕ → MapKind Q) (vecs : ℕ → List (V × ℤ)) :
    MapCall V → ℕ → List (V × ℤ)
  | .addWithIds o xs => update vecs o (vecs o ++ xs)
  | .removeIds o sel => update vecs o ((vecs o).filter fun x ↦ !sel x.2)
  | .mergeFrom o other addId =>
    if (kinds o).quantizer = (kinds other).quantizer then
      update (update vecs o (vecs o ++ (vecs other).map fun x ↦ (x.1, x.2 + addId))) other []
    else vecs

/-- The vectors with the ids that they were added with, plus what merges have added to these. -/
def recorded [DecidableEq Q] (kinds : ℕ → MapKind Q) (calls : List (MapCall V)) : ℕ → List (V × ℤ) :=
  calls.foldl (recordCall kinds) fun _ ↦ []

/-! ## What holds of an object -/

/-- The vectors of an inverted file are those that were added, and at its label the map has the id that
each was added with. -/
def IvfFlat.Attached (ivf : IvfFlat Q V) (idMap : List ℤ) (vecs : List (V × ℤ)) : Prop :=
  ∀ i < ivf.nlist, ((ivf.lists i).map fun e ↦ (e.vec, idMap[e.label]?)).Perm
    ((vecs.filter fun x ↦ assign ivf.quantizer x.1 = i).map fun x ↦ (x.1, some x.2))

/-- The vectors of the sub-index have labels for which the map has the ids that they were added with. -/
def LabelsAttached (map : IDMapped Q V) (vecs : List (V × ℤ)) : Prop :=
  match map.index with
  | .flat index => index.codes.length = map.idMap.length ∧ index.codes.zip map.idMap = vecs
  | .ivfFlat ivf => ivf.Attached assign map.idMap vecs

/-- The vectors of the sub-index, each with the id that a search finds it under. -/
def IDMapped.reported (map : IDMapped Q V) : List (V × Option ℤ) :=
  match map.index with
  | .flat index => index.codes.zipIdx.map fun (x, label) ↦ (x, map.idMap[label]?)
  | .ivfFlat ivf => (List.range ivf.nlist).flatMap fun i ↦
      (ivf.lists i).map fun e ↦ (e.vec, map.idMap[e.label]?)

/-- Of ids that are distinct, the `rev_map` has the positions, and no other key. -/
def RevMapInverse (map : IDMapped Q V) : Prop :=
  ∀ rev, map.revMap = some rev → map.idMap.Nodup →
    (∀ i id, map.idMap[i]? = some id → rev id = some i) ∧ ∀ id ∉ map.idMap, rev id = none

/-- The call does not rely on an inverted file to number its vectors anew, and a `rev_map` goes with
one: without either, an inverted file is left only with ids that come before those that are removed,
and is merged with one that is empty. -/
def CallAllowed (objs : ℕ → IDMapped Q V) : MapCall V → Prop
  | .addWithIds _ _ => True
  | .removeIds o sel => (objs o).index.quantizer.isSome →
      ((objs o).idMap.filter fun id ↦ !sel id) <+: (objs o).idMap
  | .mergeFrom o other _ => (objs o).index.quantizer = (objs other).index.quantizer →
      ((objs o).index.quantizer.isSome → (objs o).idMap = [] ∨ (objs other).idMap = []) ∧
        ((objs other).revMap.isSome → (objs o).revMap.isSome ∨ (objs other).idMap = [])

/-! ## An inverted file -/

namespace IvfFlat

variable {assign} {ivf : IvfFlat Q V} {idMap idMap' : List ℤ} {vecs vecs' : List (V × ℤ)}

theorem Attached.exists_id (h : ivf.Attached assign idMap vecs) {i : ℕ} (hi : i < ivf.nlist)
    {e : Labelled V} (he : e ∈ ivf.lists i) : ∃ id, idMap[e.label]? = some id := by
  have hmem := (h i hi).mem_iff.mp (List.mem_map.mpr ⟨e, he, rfl⟩)
  obtain ⟨x, -, hx⟩ := List.mem_map.mp hmem
  exact ⟨x.2, (Prod.mk.inj hx).2.symm⟩

theorem Attached.congr (h : ivf.Attached assign idMap vecs)
    (hmap : ∀ (label : ℕ) (id : ℤ), idMap[label]? = some id → idMap'[label]? = some id) :
    ivf.Attached assign idMap' vecs := by
  intro i hi
  have hsame : ∀ e ∈ ivf.lists i,
      (e.vec, idMap'[e.label]?) = (e.vec, idMap[e.label]?) := by
    intro e he
    obtain ⟨id, hid⟩ := h.exists_id hi he
    rw [hid, hmap _ _ hid]
  rw [List.map_congr_left hsame]
  exact h i hi

theorem Attached.addOne (h : ivf.Attached assign idMap vecs) (hntotal : ivf.ntotal = idMap.length)
    (x : V) (id : ℤ) :
    (ivf.addOne assign x).Attached assign (idMap ++ [id]) (vecs ++ [(x, id)]) := by
  have hold : ivf.Attached assign (idMap ++ [id]) vecs := h.congr fun label id' hid ↦ by
    rw [List.getElem?_append_left (List.getElem?_eq_some_iff.mp hid).1, hid]
  intro i hi
  have hlists : (ivf.addOne assign x).lists i =
      ivf.lists i ++ if assign ivf.quantizer x = i then [⟨ivf.ntotal, x⟩] else [] := by
    unfold IvfFlat.addOne
    dsimp only
    by_cases hlist : assign ivf.quantizer x = i
    · rw [if_pos hlist, hlist, if_pos (Int.natCast_nonneg i), Int.toNat_natCast, update_self]
    · rw [if_neg hlist, List.append_nil]
      split
      · next hpos => rw [update_of_ne fun heq ↦ hlist (by omega)]
      · rfl
  have hid : (idMap ++ [id])[ivf.ntotal]? = some id := by
    rw [hntotal, List.getElem?_append_right (Nat.le_refl _), Nat.sub_self]
    rfl
  rw [hlists, List.map_append, List.filter_append, List.map_append]
  refine (hold i hi).append (List.Perm.of_eq ?_)
  change _ = (List.filter (fun x ↦ assign ivf.quantizer x.1 = i) [(x, id)]).map _
  by_cases hlist : assign ivf.quantizer x = i
  · rw [if_pos hlist, List.filter_cons_of_pos (by exact decide_eq_true hlist), List.map_singleton, hid]
    rfl
  · rw [if_neg hlist, List.filter_cons_of_neg (by simpa using hlist)]
    rfl

theorem Attached.add (h : ivf.Attached assign idMap vecs) (hntotal : ivf.ntotal = idMap.length)
    (xs : List (V × ℤ)) :
    (ivf.add assign (xs.map Prod.fst)).Attached assign (idMap ++ xs.map Prod.snd) (vecs ++ xs) ∧
      (ivf.add assign (xs.map Prod.fst)).ntotal = (idMap ++ xs.map Prod.snd).length ∧
      (ivf.add assign (xs.map Prod.fst)).quantizer = ivf.quantizer ∧
      (ivf.add assign (xs.map Prod.fst)).nlist = ivf.nlist := by
  induction xs using List.reverseRecOn with
  | nil =>
      simp only [List.map_nil, List.append_nil]
      exact ⟨h, hntotal, rfl, rfl⟩
  | append_singleton xs x ih =>
      obtain ⟨hattached, hcount, hquantizer, hnlist⟩ := ih
      have hadd : ivf.add assign ((xs ++ [x]).map Prod.fst) =
          (ivf.add assign (xs.map Prod.fst)).addOne assign x.1 := by
        rw [List.map_append]
        exact List.foldl_append
      rw [hadd, List.map_append, ← List.append_assoc, ← List.append_assoc]
      refine ⟨hattached.addOne hcount x.1 x.2, ?_, hquantizer, hnlist⟩
      rw [List.length_append, ← hcount]
      rfl

/-- The selected vectors are removed, and labels stay. -/
theorem Attached.removeIds (h : ivf.Attached assign idMap vecs) (sel : ℤ → Bool)
    (hkept : (idMap.filter fun id ↦ !sel id) <+: idMap) :
    (ivf.removeIds fun label ↦ (idMap[label]?).any sel).2.Attached assign
      (idMap.filter fun id ↦ !sel id) (vecs.filter fun x ↦ !sel x.2) := by
  intro i hi
  have hi' : i < ivf.nlist := hi
  have hlists : (ivf.removeIds fun label ↦ (idMap[label]?).any sel).2.lists i =
      removeLabelled (fun label ↦ (idMap[label]?).any sel) (ivf.lists i) := if_pos hi'
  have hkept : ∀ (label : ℕ) (id : ℤ), idMap[label]? = some id → sel id = false →
      (idMap.filter fun id ↦ !sel id)[label]? = some id := by
    intro label id hid hsel
    obtain ⟨after, hafter⟩ := hkept
    have hnone : after.filter (fun id ↦ !sel id) = [] := by
      have htwice := congrArg (List.filter fun id ↦ !sel id) hafter
      rw [List.filter_append, List.filter_filter] at htwice
      simp only [Bool.and_self] at htwice
      exact List.append_right_eq_self.mp htwice
    rw [← hafter] at hid
    by_cases hlt : label < (idMap.filter fun id ↦ !sel id).length
    · rwa [List.getElem?_append_left hlt] at hid
    · rw [List.getElem?_append_right (not_lt.mp hlt)] at hid
      have hmem := List.mem_of_getElem? hid
      exact absurd (List.mem_filter.mpr ⟨hmem, by rw [hsel]; rfl⟩) (hnone ▸ List.not_mem_nil)
  have hsame : ∀ e ∈ (ivf.lists i).filter (fun e ↦ !(idMap[e.label]?).any sel),
      (e.vec, (idMap.filter fun id ↦ !sel id)[e.label]?) = (e.vec, idMap[e.label]?) := by
    intro e he
    obtain ⟨hmem, hnot⟩ := List.mem_filter.mp he
    obtain ⟨id, hid⟩ := h.exists_id hi' hmem
    rw [hid, Option.any_some, Bool.not_eq_true'] at hnot
    rw [hid, hkept _ _ hid hnot]
  rw [hlists]
  refine ((removeLabelled_perm _ _).map _).trans ?_
  rw [List.map_congr_left hsame]
  -- both sides are what is left of the pairs
  have hpairs := (h i hi').filter fun x ↦ !x.2.any sel
  rw [List.filter_map, List.filter_map, List.filter_filter] at hpairs
  rw [List.filter_filter]
  refine hpairs.trans (List.Perm.of_eq (congrArg _ (List.filter_congr fun x _ ↦ ?_)))
  exact Bool.and_comm _ _

theorem Attached.lists_eq_nil (h : ivf.Attached assign [] vecs) {i : ℕ} (hi : i < ivf.nlist) :
    ivf.lists i = [] := by
  refine List.eq_nil_iff_forall_not_mem.mpr fun e he ↦ ?_
  obtain ⟨id, hid⟩ := h.exists_id hi he
  cases hid

/-- An inverted file is merged with another one, of which one is empty. -/
theorem Attached.mergeFrom {other : IvfFlat Q V} (h : ivf.Attached assign idMap vecs)
    (hother : other.Attached assign idMap' vecs') (hquantizer : ivf.quantizer = other.quantizer)
    (hnlist : ivf.nlist = other.nlist) (hempty : idMap = [] ∨ idMap' = []) (addId : ℤ) :
    (ivf.mergeFrom other).1.Attached assign (idMap ++ idMap'.map (· + addId))
      (vecs ++ vecs'.map fun x ↦ (x.1, x.2 + addId)) := by
  intro i hi
  have hi' : i < ivf.nlist := hi
  have hlists : (ivf.mergeFrom other).1.lists i = ivf.lists i ++ other.lists i := if_pos hi'
  have hshift : ((other.lists i).map fun e ↦
      (e.vec, (idMap ++ idMap'.map (· + addId))[e.label]?)).Perm
      ((vecs'.filter fun x ↦ assign ivf.quantizer x.1 = i).map fun x ↦
        (x.1, some (x.2 + addId))) := by
    rcases hempty with rfl | rfl
    · have hmap := (hother i (hnlist ▸ hi')).map fun x : V × Option ℤ ↦ (x.1, x.2.map (· + addId))
      rw [List.map_map, List.map_map, ← hquantizer] at hmap
      simp only [List.nil_append, List.getElem?_map]
      exact hmap
    · have hnil := hother.lists_eq_nil (hnlist ▸ hi')
      have hpairs := hother i (hnlist ▸ hi')
      rw [hnil, List.map_nil, ← hquantizer] at hpairs
      rw [hnil, List.map_eq_nil_iff.mp hpairs.nil_eq.symm]
      exact List.Perm.nil
  have hold : ivf.Attached assign (idMap ++ idMap'.map (· + addId)) vecs := h.congr fun label id hid ↦ by
    rw [List.getElem?_append_left (List.getElem?_eq_some_iff.mp hid).1, hid]
  rw [hlists, List.map_append, List.filter_append, List.map_append]
  refine (hold i hi').append (hshift.trans (List.Perm.of_eq ?_))
  rw [List.filter_map, List.map_map]
  rfl

end IvfFlat

/-! ## The `rev_map` -/

variable {idMap : List ℤ} {n : ℕ}

theorem constructRevMap_append (idMap more : List ℤ) (hn : n ≤ idMap.length) :
    constructRevMap (idMap ++ more) n = constructRevMap idMap n := by
  refine List.foldl_ext _ _ _ fun rev i hi ↦ ?_
  unfold reverse
  rw [List.getElem?_append_left ((List.mem_range.mp hi).trans_le hn)]

theorem foldl_reverse_range' (idMap more : List ℤ) :
    (List.range' idMap.length more.length).foldl (reverse (idMap ++ more))
        (constructRevMap idMap idMap.length) =
      constructRevMap (idMap ++ more) (idMap ++ more).length := by
  rw [← constructRevMap_append idMap more (Nat.le_refl _), List.length_append]
  unfold constructRevMap
  rw [List.range_eq_range', List.range_eq_range', ← List.foldl_append]
  have hrange := @List.range'_append 0 idMap.length more.length 1
  rw [Nat.one_mul, Nat.zero_add] at hrange
  rw [hrange]

/-- A `rev_map` has the last position of each id, if there is one. -/
theorem constructRevMap_spec (idMap : List ℤ) (n : ℕ) (id : ℤ) :
    (constructRevMap idMap n id = none ∧ ∀ i < n, idMap[i]? ≠ some id) ∨
      ∃ i < n, constructRevMap idMap n id = some i ∧ idMap[i]? = some id := by
  induction n with
  | zero => exact Or.inl ⟨rfl, fun i hi ↦ absurd hi (Nat.not_lt_zero i)⟩
  | succ n ih =>
      have hstep : constructRevMap idMap (n + 1) = reverse idMap (constructRevMap idMap n) n := by
        unfold constructRevMap
        rw [List.range_succ, List.foldl_append]
        rfl
      rw [hstep]
      unfold reverse
      cases hget : idMap[n]? with
      | none =>
          obtain ⟨hnone, hall⟩ | ⟨i, hi, hrev, hid⟩ := ih
          · refine Or.inl ⟨hnone, fun i hi ↦ ?_⟩
            rcases Nat.lt_succ_iff_lt_or_eq.mp hi with hi | rfl
            · exact hall i hi
            · rw [hget]
              exact nofun
          · exact Or.inr ⟨i, Nat.lt_succ_of_lt hi, hrev, hid⟩
      | some last =>
          dsimp only
          by_cases heq : id = last
          · refine Or.inr ⟨n, Nat.lt_succ_self n, ?_, ?_⟩
            · rw [heq, update_self]
            · rw [hget, heq]
          · rw [update_of_ne heq]
            obtain ⟨hnone, hall⟩ | ⟨i, hi, hrev, hid⟩ := ih
            · refine Or.inl ⟨hnone, fun i hi ↦ ?_⟩
              rcases Nat.lt_succ_iff_lt_or_eq.mp hi with hi | rfl
              · exact hall i hi
              · rw [hget]
                exact fun h ↦ heq (Option.some.inj h).symm
            · exact Or.inr ⟨i, Nat.lt_succ_of_lt hi, hrev, hid⟩

/-! ## Steps -/

/-- What holds of an object of some kind to which these vectors were added. -/
structure MapInvariant (nlist : Q → ℕ) (kind : MapKind Q) (map : IDMapped Q V)
    (vecs : List (V × ℤ)) : Prop where
  attached : LabelsAttached assign map vecs
  quantizer : map.index.quantizer = kind.quantizer
  nlist : ∀ ivf, map.index = .ivfFlat ivf → ivf.nlist = nlist ivf.quantizer
  ntotal : map.ntotal = map.idMap.length
  indexNtotal : map.index.ntotal = map.idMap.length
  revMap : map.revMap =
    if kind.hasRevMap then some (constructRevMap map.idMap map.idMap.length) else none

variable {assign} {nlist : Q → ℕ} {kind kind' : MapKind Q} {map other : IDMapped Q V}
  {vecs vecs' : List (V × ℤ)}

theorem MapInvariant.fresh (assign : Q → V → ℤ) (nlist : Q → ℕ) (kind : MapKind Q) :
    MapInvariant assign nlist kind (kind.fresh nlist) [] := by
  obtain ⟨quantizer, hasRevMap⟩ := kind
  cases quantizer with
  | none =>
      refine ⟨⟨rfl, rfl⟩, rfl, ?_, rfl, rfl, rfl⟩
      rintro ivf ⟨⟩
  | some quantizer =>
      refine ⟨fun i _ ↦ List.Perm.nil, rfl, ?_, rfl, rfl, rfl⟩
      rintro ivf ⟨⟩
      rfl

theorem revMap_extend (map : IDMapped Q V) {hasRevMap : Bool} {idMap more : List ℤ}
    (hidMap : map.idMap = idMap ++ more) (hntotal : map.ntotal = map.idMap.length)
    (hrev : map.revMap = if hasRevMap then some (constructRevMap idMap idMap.length) else none) :
    (map.extendRevMap idMap.length).revMap =
      if hasRevMap then some (constructRevMap map.idMap map.idMap.length) else none := by
  unfold IDMapped.extendRevMap
  dsimp only
  rw [hrev, hntotal, hidMap]
  cases hasRevMap with
  | false => rfl
  | true =>
      rw [if_pos rfl, if_pos rfl, Option.map_some, List.length_append, Nat.add_sub_cancel_left,
        foldl_reverse_range', List.length_append]

theorem MapInvariant.addWithIds (h : MapInvariant assign nlist kind map vecs) (xs : List (V × ℤ)) :
    MapInvariant assign nlist kind (map.addWithIds assign xs) (vecs ++ xs) := by
  obtain ⟨hattached, hquantizer, hnlist, hntotal, hindex, hrev⟩ := h
  obtain ⟨index, idMap, ntotal, revMap⟩ := map
  dsimp only at hntotal hindex hrev hquantizer hnlist
  subst hntotal
  have hrev' : ∀ index' : MappedIndex Q V, index'.ntotal = (idMap ++ xs.map Prod.snd).length →
      (IDMapped.extendRevMap ⟨index', idMap ++ xs.map Prod.snd, index'.ntotal, revMap⟩
        idMap.length).revMap = if kind.hasRevMap then
          some (constructRevMap (idMap ++ xs.map Prod.snd) (idMap ++ xs.map Prod.snd).length)
            else none :=
    fun index' hcount ↦ revMap_extend _ rfl hcount hrev
  cases index with
  | flat index =>
      obtain ⟨hlen, hzip⟩ := hattached
      dsimp only at hlen hzip
      have hcount : (index.codes ++ xs.map Prod.fst).length = (idMap ++ xs.map Prod.snd).length := by
        rw [List.length_append, List.length_append, hlen, List.length_map, List.length_map]
      refine ⟨⟨hcount, ?_⟩, hquantizer, nofun, hcount, hcount, hrev' (.flat _) hcount⟩
      refine (List.zip_append hlen).trans ?_
      rw [hzip, ← List.zip_of_prod rfl rfl]
  | ivfFlat ivf =>
      obtain ⟨hattached, hcount, hq, hn⟩ := IvfFlat.Attached.add hattached hindex xs
      refine ⟨hattached, (congrArg some hq).trans hquantizer, ?_, hcount, hcount,
        hrev' (.ivfFlat _) hcount⟩
      rintro ivf' ⟨⟩
      rw [hq]
      exact hn.trans (hnlist ivf rfl)

theorem MapInvariant.removeIds (h : MapInvariant assign nlist kind map vecs) {sel : ℤ → Bool}
    (hkept : map.index.quantizer.isSome → (map.idMap.filter fun id ↦ !sel id) <+: map.idMap)
    {map' : IDMapped Q V} (hmap' : map.removeIds sel = some map') :
    MapInvariant assign nlist kind map' (vecs.filter fun x ↦ !sel x.2) := by
  obtain ⟨hattached, hquantizer, hnlist, hntotal, hindex, hrev⟩ := h
  obtain ⟨index, idMap, ntotal, revMap⟩ := map
  dsimp only at hntotal hindex hrev hquantizer hnlist hkept
  subst hntotal
  unfold IDMapped.removeIds at hmap'
  dsimp only at hmap'
  rw [List.take_length, compact_self] at hmap'
  split at hmap'
  · split at hmap'
    · next hcount =>
        obtain rfl := Option.some.inj hmap'
        have hrev' : (revMap.map fun _ ↦ constructRevMap (idMap.filter fun id ↦ !sel id)
            (idMap.filter fun id ↦ !sel id).length) = if kind.hasRevMap then
              some (constructRevMap (idMap.filter fun id ↦ !sel id)
                (idMap.filter fun id ↦ !sel id).length) else none := by
          rw [hrev]
          split
          · rfl
          · rfl
        cases index with
        | flat index =>
            obtain ⟨hlen, hzip⟩ := hattached
            dsimp only at hlen hzip
            refine ⟨⟨hcount.symm, ?_⟩, hquantizer, nofun, rfl, hcount.symm, hrev'⟩
            refine (zip_removeIds hlen.symm fun i id hid ↦ ?_).trans ?_
            · rw [hid, Option.any_some]
            · rw [hzip]
        | ivfFlat ivf =>
            refine ⟨IvfFlat.Attached.removeIds hattached sel (hkept rfl), hquantizer, ?_, rfl,
              hcount.symm, hrev'⟩
            rintro ivf' ⟨⟩
            exact hnlist ivf rfl
    · cases hmap'
  · cases hmap'

/-- What is left of an object that is merged into another one. -/
theorem MapInvariant.left (h : MapInvariant assign nlist kind other vecs) {index : MappedIndex Q V}
    (hindex : index = (map.index.mergeFrom other.index).2)
    (hquantizer : map.index.quantizer = other.index.quantizer)
    (hnlist : ∀ ivf ivf', map.index = .ivfFlat ivf → other.index = .ivfFlat ivf' →
      ivf.nlist = ivf'.nlist) {rev : Option (ℤ → Option ℕ)}
    (hrev : rev = if kind.hasRevMap then some fun _ ↦ none else none) :
    MapInvariant assign nlist kind ⟨index, [], 0, rev⟩ [] := by
  obtain ⟨-, hkind, hother, -, -, -⟩ := h
  subst hindex
  obtain ⟨mapIndex, mapIds, mapTotal, mapRev⟩ := map
  obtain ⟨otherIndex, otherIds, otherTotal, otherRev⟩ := other
  dsimp only at hkind hquantizer hnlist hother ⊢
  cases mapIndex with
  | flat index =>
      cases otherIndex with
      | flat index' => exact ⟨⟨rfl, rfl⟩, hkind, nofun, rfl, rfl, hrev⟩
      | ivfFlat ivf' => cases hquantizer
  | ivfFlat ivf =>
      cases otherIndex with
      | flat index' => cases hquantizer
      | ivfFlat ivf' =>
          refine ⟨fun i hi ↦ ?_, hkind, ?_, rfl, rfl, hrev⟩
          · have hlists : (ivf.mergeFrom ivf').2.lists i = [] :=
              if_pos (hnlist ivf ivf' rfl rfl ▸ hi)
            rw [hlists]
            exact List.Perm.nil
          · rintro ivf'' ⟨⟩
            exact hother ivf' rfl

theorem MapInvariant.mergeFrom (h : MapInvariant assign nlist kind map vecs)
    (hother : MapInvariant assign nlist kind' other vecs')
    (hquantizer : map.index.quantizer = other.index.quantizer)
    (hempty : map.index.quantizer.isSome → map.idMap = [] ∨ other.idMap = [])
    (hrevs : other.revMap.isSome → map.revMap.isSome ∨ other.idMap = []) {addId : ℤ}
    {result : IDMapped Q V × IDMapped Q V} (hresult : map.mergeFrom other addId = some result) :
    MapInvariant assign nlist kind result.1 (vecs ++ vecs'.map fun x ↦ (x.1, x.2 + addId)) ∧
      MapInvariant assign nlist kind' result.2 [] := by
  have hsame : ∀ ivf ivf', map.index = .ivfFlat ivf → other.index = .ivfFlat ivf' →
      ivf.nlist = ivf'.nlist := by
    intro ivf ivf' hivf hivf'
    rw [h.nlist ivf hivf, hother.nlist ivf' hivf']
    rw [hivf, hivf'] at hquantizer
    exact congrArg nlist (Option.some.inj hquantizer)
  -- the index and the map, whatever becomes of the `rev_map`
  have hmerged : ∀ rev : Option (ℤ → Option ℕ),
      rev = (if kind.hasRevMap then
        some (constructRevMap (map.idMap ++ other.idMap.map (· + addId))
          (map.idMap ++ other.idMap.map (· + addId)).length) else none) →
      MapInvariant assign nlist kind ⟨(map.index.mergeFrom other.index).1,
        map.idMap ++ other.idMap.map (· + addId), (map.index.mergeFrom other.index).1.ntotal, rev⟩
          (vecs ++ vecs'.map fun x ↦ (x.1, x.2 + addId)) ∧
        (map.index.mergeFrom other.index).1.ntotal =
          (map.idMap ++ other.idMap.map (· + addId)).length := by
    intro rev hrev
    obtain ⟨hattached, hkind, hnlist, -, hcount, -⟩ := h
    obtain ⟨hattached', -, -, -, hcount', -⟩ := hother
    obtain ⟨index, idMap, ntotal, revMap⟩ := map
    obtain ⟨index', idMap', ntotal', revMap'⟩ := other
    dsimp only at *
    have hlength : (idMap ++ idMap'.map (· + addId)).length = idMap.length + idMap'.length := by
      rw [List.length_append, List.length_map]
    cases index with
    | flat index =>
        cases index' with
        | flat index' =>
            obtain ⟨hlen, hzip⟩ := hattached
            obtain ⟨hlen', hzip'⟩ := hattached'
            dsimp only at hlen hzip hlen' hzip'
            have hntotal : (index.codes ++ index'.codes).length =
                (idMap ++ idMap'.map (· + addId)).length := by
              rw [hlength, List.length_append, hlen, hlen']
            refine ⟨⟨⟨hntotal, ?_⟩, hkind, nofun, hntotal, hntotal, hrev⟩, hntotal⟩
            refine (List.zip_append hlen).trans ?_
            rw [hzip, ← hzip', List.zip_map_right]
            rfl
        | ivfFlat ivf' => cases hquantizer
    | ivfFlat ivf =>
        cases index' with
        | flat index' => cases hquantizer
        | ivfFlat ivf' =>
            have hntotal : ivf.ntotal + ivf'.ntotal = (idMap ++ idMap'.map (· + addId)).length := by
              rw [hlength]
              exact congrArg₂ (· + ·) hcount hcount'
            refine ⟨⟨IvfFlat.Attached.mergeFrom hattached hattached' (Option.some.inj hquantizer)
              (hsame ivf ivf' rfl rfl) (hempty rfl) addId, hkind, ?_, hntotal, hntotal, hrev⟩, hntotal⟩
            rintro ivf'' ⟨⟩
            exact hnlist ivf rfl
  have hleft : ∀ rev : Option (ℤ → Option ℕ),
      rev = (if kind'.hasRevMap then some fun _ ↦ none else none) →
      MapInvariant assign nlist kind' ⟨(map.index.mergeFrom other.index).2, [], 0, rev⟩ [] :=
    fun rev hrev ↦ hother.left rfl hquantizer hsame hrev
  unfold IDMapped.mergeFrom at hresult
  dsimp only at hresult
  have hmap := h.revMap
  have hleft' := hother.revMap
  have hprev := h.ntotal
  split at hresult
  · next hsome =>
      have htrue : kind.hasRevMap = true := by
        rw [hmap] at hsome
        split at hsome
        · assumption
        · cases hsome
      split at hresult
      · next hsome' =>
          have htrue' : kind'.hasRevMap = true := by
            rw [hleft'] at hsome'
            split at hsome'
            · assumption
            · cases hsome'
          obtain rfl := Option.some.inj hresult
          obtain ⟨-, hntotal⟩ := hmerged _ rfl
          refine ⟨?_, hleft _ (by rw [if_pos htrue'])⟩
          rw [hprev]
          exact (hmerged _ (revMap_extend ⟨_, _, _, _⟩ rfl hntotal hmap)).1
      · cases hresult
  · next hnone =>
      have hfalse : kind.hasRevMap = false := by
        by_contra htrue
        rw [hmap, if_pos (Bool.not_eq_false _ ▸ htrue)] at hnone
        exact hnone rfl
      obtain rfl := Option.some.inj hresult
      refine ⟨(hmerged _ ?_).1, hleft _ ?_⟩
      · rw [hmap, hfalse]
        rfl
      · rw [hleft']
        split
        · next htrue' =>
            have hnil := (hrevs (by rw [hleft', if_pos htrue']; rfl)).resolve_left hnone
            rw [hnil]
            rfl
        · rfl

/-! ## Runs of calls -/

/-- The `rev_map` of ids that are distinct. -/
theorem MapInvariant.revMapInverse (h : MapInvariant assign nlist kind map vecs) :
    RevMapInverse map := by
  intro rev hrev hnodup
  have hconstruct : rev = constructRevMap map.idMap map.idMap.length := by
    have hmap := h.revMap
    rw [hrev] at hmap
    split at hmap
    · exact Option.some.inj hmap
    · cases hmap
  rw [hconstruct]
  constructor
  · intro i id hid
    have hi := (List.getElem?_eq_some_iff.mp hid).1
    obtain ⟨-, hall⟩ | ⟨j, hj, hrev, hid'⟩ := constructRevMap_spec map.idMap map.idMap.length id
    · exact absurd hid (hall i hi)
    · rw [hrev, (List.getElem?_inj hj hnodup).mp (hid'.trans hid.symm)]
  · intro id hmem
    obtain ⟨hnone, -⟩ | ⟨j, hj, hrev, hid'⟩ := constructRevMap_spec map.idMap map.idMap.length id
    · exact hnone
    · exact absurd (List.mem_of_getElem? hid') hmem

variable [DecidableEq Q] {kinds : ℕ → MapKind Q} {objs objs' : ℕ → IDMapped Q V}
  {allVecs : ℕ → List (V × ℤ)} {call : MapCall V}

/-- A call that is allowed keeps the invariant of all objects. -/
theorem MapInvariant.callMap
    (h : ∀ o, MapInvariant assign nlist (kinds o) (objs o) (allVecs o)) (hallowed : CallAllowed objs call)
    (hcall : callMap assign objs call = some objs') (o : ℕ) :
    MapInvariant assign nlist (kinds o) (objs' o) (recordCall kinds allVecs call o) := by
  cases call with
  | addWithIds o' xs =>
      obtain rfl := Option.some.inj hcall
      unfold recordCall
      dsimp only
      rcases eq_or_ne o o' with rfl | hne
      · rw [update_self, update_self]
        exact (h o).addWithIds xs
      · rw [update_of_ne hne, update_of_ne hne]
        exact h o
  | removeIds o' sel =>
      obtain ⟨map', hmap', rfl⟩ := Option.map_eq_some_iff.mp hcall
      unfold recordCall
      dsimp only
      rcases eq_or_ne o o' with rfl | hne
      · rw [update_self, update_self]
        exact (h o).removeIds hallowed hmap'
      · rw [update_of_ne hne, update_of_ne hne]
        exact h o
  | mergeFrom o' other addId =>
      unfold FaissNavix.callMap at hcall
      unfold recordCall
      dsimp only at hcall ⊢
      rw [← (h o').quantizer, ← (h other).quantizer]
      split at hcall
      · cases hcall
      · next hne =>
          split at hcall
          · next hsame =>
              obtain ⟨⟨merged, left⟩, hresult, rfl⟩ := Option.map_eq_some_iff.mp hcall
              obtain ⟨hempty, hrevs⟩ := hallowed hsame
              obtain ⟨hmerged, hleft⟩ := (h o').mergeFrom (h other) hsame hempty hrevs hresult
              rw [if_pos hsame]
              rcases eq_or_ne o other with rfl | hother
              · rw [update_self, update_self]
                exact hleft
              · rw [update_of_ne hother, update_of_ne hother]
                rcases eq_or_ne o o' with rfl | ho
                · rw [update_self, update_self]
                  exact hmerged
                · rw [update_of_ne ho, update_of_ne ho]
                  exact h o
          · next hdiffer =>
              obtain rfl := Option.some.inj hcall
              rw [if_neg hdiffer]
              exact h o

/-- In every run of calls that are allowed, each vector has a label for which the map has the id that
the vector was added with, and the `rev_map` is the inverse of ids that are distinct. -/
theorem labels_attached (assign : Q → V → ℤ) (nlist : Q → ℕ) (kinds : ℕ → MapKind Q)
    (calls : List (MapCall V))
    (hallowed : EachStep (fun before call ↦ ∀ objs, runMaps assign nlist kinds before = some objs →
      CallAllowed objs call) calls)
    (hrun : runMaps assign nlist kinds calls = some objs) (o : ℕ) :
    LabelsAttached assign (objs o) (recorded kinds calls o) ∧ RevMapInverse (objs o) := by
  suffices hinv : ∀ o, MapInvariant assign nlist (kinds o) (objs o) (recorded kinds calls o) from
    ⟨(hinv o).attached, (hinv o).revMapInverse⟩
  clear o
  induction calls using List.reverseRecOn generalizing objs with
  | nil =>
      obtain rfl := Option.some.inj hrun
      exact fun o ↦ MapInvariant.fresh assign nlist (kinds o)
  | append_singleton calls call ih =>
      obtain ⟨hbefore, hcall⟩ := eachStep_concat.mp hallowed
      unfold runMaps at hrun
      rw [foldlM_concat] at hrun
      obtain ⟨objs₁, hrun₁, hstep⟩ := Option.bind_eq_some_iff.mp hrun
      intro o
      unfold recorded
      rw [List.foldl_append]
      exact MapInvariant.callMap (ih hbefore hrun₁) (hcall objs₁ hrun₁) hstep o

/-- An inverted file with one list.  After the first vector is removed, the second one is reported
under an id from past the end of the map; and the vector of another index that is merged into it is
reported under the id of the vector that was there. -/
theorem labels_attached_fails :
    let kinds : ℕ → MapKind Unit := fun _ ↦ ⟨some (), false⟩
    let removed : List (MapCall ℕ) := [.addWithIds 0 [(7, 100), (8, 101)], .removeIds 0 (· == 100)]
    let merged : List (MapCall ℕ) :=
      [.addWithIds 0 [(7, 100)], .addWithIds 1 [(8, 200)], .mergeFrom 0 1 0]
    ((runMaps (fun _ _ ↦ 0) (fun _ ↦ 1) kinds removed).map fun objs ↦ (objs 0).reported) =
      some [(8, none)] ∧ recorded kinds removed 0 = [(8, 101)] ∧
    ((runMaps (fun _ _ ↦ 0) (fun _ ↦ 1) kinds merged).map fun objs ↦ (objs 0).reported) =
      some [(7, some 100), (8, some 100)] ∧ recorded kinds merged 0 = [(7, 100), (8, 200)] := by
  decide +kernel

/-- An inverted file from which the last vector is removed. -/
theorem labels_attached_last :
    let kinds : ℕ → MapKind Unit := fun _ ↦ ⟨some (), true⟩
    let calls : List (MapCall ℕ) := [.addWithIds 0 [(7, 100), (8, 101)], .removeIds 0 (· == 101)]
    ∃ objs, runMaps (fun _ _ ↦ 0) (fun _ ↦ 1) kinds calls = some objs ∧
      LabelsAttached (fun _ _ ↦ 0) (objs 0) (recorded kinds calls 0) ∧ RevMapInverse (objs 0) := by
  intro kinds calls
  have hruns : (runMaps (fun _ _ ↦ 0) (fun _ ↦ 1) kinds calls).isSome = true := by decide +kernel
  obtain ⟨objs, hrun⟩ := Option.isSome_iff_exists.mp hruns
  refine ⟨objs, hrun, labels_attached _ _ kinds calls ?_ hrun 0⟩
  refine eachStep_pair.mpr ⟨fun _ _ ↦ trivial, ?_⟩
  rintro before ⟨⟩
  exact fun _ ↦ ⟨[101], rfl⟩

end FaissNavix
