import Mathlib.Data.Int.Notation
import Mathlib.Data.List.Basic

/-!
# Search parameters of an `IndexIDMap`

`search` and `range_search` of `faiss/IndexIDMap.cpp`.  The caller selects by the ids that the map
gives out, and the sub-index asks for its own labels.  `search` changes the parameters of the caller
for the time of the call; `range_search` makes parameters of its own.
-/

namespace FaissNavix

/-- Why a call does not return. -/
inductive Abort where
  /-- An exception, with its message. -/
  | exception (msg : String)
  /-- A null pointer is read through. -/
  | nullPointer
  /-- A vector is read past its end. -/
  | outOfRange
deriving DecidableEq, Repr

/-! ## Selectors and parameters -/

/-- `IDSelector`: one of the caller, or an `IDSelectorTranslated`, of which the pointer may be null. -/
inductive MapSelector where
  | external (isMember : ℤ → Bool)
  | translated (idMap : List ℤ) (sel : Option MapSelector)

/-- `id_map[label]` -/
def idAt (idMap : List ℤ) (label : ℤ) : Except Abort ℤ :=
  if label < 0 then .error .outOfRange
  else
    match idMap[label.toNat]? with
    | some id => .ok id
    | none => .error .outOfRange

namespace MapSelector

/-- `is_member` -/
def isMember : MapSelector → ℤ → Except Abort Bool
  | .external isMember, id => .ok (isMember id)
  | .translated idMap sel, id => do
    let id ← idAt idMap id
    match sel with
    | some sel => sel.isMember id
    | none => .error .nullPointer

/-- `dynamic_cast<const IDSelectorTranslated*>` -/
def isTranslated : MapSelector → Bool
  | .external _ => false
  | .translated _ _ => true

end MapSelector

/-- `SearchParameters`, with the fields of its class, or none for an object of `SearchParameters`
itself. -/
structure MapSearchParameters (F : Type) where
  fields : Option F
  sel : Option MapSelector

/-- What a sub-index can see of its parameters: it asks the selector for its own labels. -/
@[ext] structure ParametersSeen (n : ℕ) (F : Type) where
  fields : Option F
  isMember : Option (Fin n → Except Abort Bool)

/-- The parameters as a sub-index of `n` vectors sees them. -/
def MapSearchParameters.seen {F : Type} (n : ℕ) (params : MapSearchParameters F) :
    ParametersSeen n F :=
  ⟨params.fields, params.sel.map fun sel i ↦ sel.isMember (i : ℕ)⟩

/-! ## Searching -/

/-- A sub-index of `n` vectors: what it makes of queries of type `Q`, distances of type `D` and
labels, or an exception. -/
structure SubIndex (n : ℕ) (Q F D : Type) where
  search : Q → Option (ParametersSeen n F) → Except Abort (D × List ℤ)
  rangeSearch : Q → Option (ParametersSeen n F) → Except Abort (D × List ℤ)

/-- `ScopedSelChange`, with the selector to go back to once it is set. -/
structure ScopedSelChange where
  oldSel : Option (Option MapSelector)

namespace ScopedSelChange

variable {F : Type}

/-- `set`, which also changes the parameters. -/
def set (params : MapSearchParameters F) (newSel : MapSelector) :
    ScopedSelChange × MapSearchParameters F :=
  (⟨some params.sel⟩, { params with sel := some newSel })

/-- The destructor, which runs however the scope is left. -/
def destroy (change : ScopedSelChange) (params : MapSearchParameters F) : MapSearchParameters F :=
  match change.oldSel with
  | some oldSel => { params with sel := oldSel }
  | none => params

end ScopedSelChange

/-- `IndexIDMap` -/
structure IndexIDMap (n : ℕ) (Q F D : Type) where
  index : SubIndex n Q F D
  idMap : List ℤ

def idOfLabel (idMap : List ℤ) (label : ℤ) : Except Abort ℤ :=
  if label < 0 then .ok label else idAt idMap label

/-- The loop over the labels after the call. -/
def mapLabels {D : Type} (idMap : List ℤ) (result : Except Abort (D × List ℤ)) :
    Except Abort (D × List ℤ) := do
  let (distances, labels) ← result
  return (distances, ← labels.mapM (idOfLabel idMap))

namespace IndexIDMap

variable {n : ℕ} {Q F D : Type} (idx : IndexIDMap n Q F D)

/-- The selector is translated, unless there is none or it is already. -/
def changeSel (params : MapSearchParameters F) : ScopedSelChange × MapSearchParameters F :=
  match params.sel with
  | some sel =>
    if sel.isTranslated then (⟨none⟩, params)
    else ScopedSelChange.set params (.translated idx.idMap (some sel))
  | none => (⟨none⟩, params)

/-- `search`, and the parameters of the caller after it. -/
def search (q : Q) (params : Option (MapSearchParameters F)) :
    Except Abort (D × List ℤ) × Option (MapSearchParameters F) :=
  match params with
  | some params =>
    let (change, params) := idx.changeSel params
    let result := mapLabels idx.idMap (idx.index.search q (some (params.seen n)))
    (result, some (change.destroy params))
  | none => (mapLabels idx.idMap (idx.index.search q none), none)

/-- `range_search`, and the parameters of the caller after it. -/
def rangeSearch (q : Q) (params : Option (MapSearchParameters F)) :
    Except Abort (D × List ℤ) × Option (MapSearchParameters F) :=
  match params with
  | some params =>
    let internal : MapSearchParameters F := ⟨none, some (.translated idx.idMap params.sel)⟩
    (mapLabels idx.idMap (idx.index.rangeSearch q (some (internal.seen n))), some params)
  | none => (mapLabels idx.idMap (idx.index.rangeSearch q none), none)

end IndexIDMap

/-! ## What the sub-index should see -/

variable {n : ℕ} {Q F D : Type}

/-- A selector of ids selects the labels that have them; one that is translated stays. -/
def MapSelector.ofLabels (idMap : List ℤ) (sel : MapSelector) (label : ℤ) : Except Abort Bool :=
  match sel with
  | .external isMember => isMember <$> idAt idMap label
  | .translated _ _ => sel.isMember label

/-- The same parameters, with a selector of labels. -/
def MapSearchParameters.translated (n : ℕ) (idMap : List ℤ) (params : MapSearchParameters F) :
    ParametersSeen n F :=
  ⟨params.fields, params.sel.map fun sel i ↦ sel.ofLabels idMap (i : ℕ)⟩

/-- `search` is the search of the sub-index with these parameters, and the caller finds its own as
they were. -/
def SearchFaithful (idx : IndexIDMap n Q F D) (q : Q) (params : Option (MapSearchParameters F)) :
    Prop :=
  idx.search q params =
    (mapLabels idx.idMap (idx.index.search q (params.map (·.translated n idx.idMap))), params)

/-- The same of `range_search`. -/
def RangeSearchFaithful (idx : IndexIDMap n Q F D) (q : Q) (params : Option (MapSearchParameters F)) :
    Prop :=
  idx.rangeSearch q params =
    (mapLabels idx.idMap (idx.index.rangeSearch q (params.map (·.translated n idx.idMap))), params)

/-- Translated once more, the selector says the same of all labels. -/
def TranslatesAgain (n : ℕ) (idMap : List ℤ) (sel : MapSelector) : Prop :=
  match sel with
  | .external _ => True
  | .translated _ _ => ∀ i : Fin n,
      (MapSelector.translated idMap (some sel)).isMember (i : ℕ) = sel.isMember (i : ℕ)

/-- The parameters have no fields but the selector, and there is one that can be translated. -/
def OnlySelects (n : ℕ) (idMap : List ℤ) (params : MapSearchParameters F) : Prop :=
  params.fields = none ∧ ∃ sel, params.sel = some sel ∧ TranslatesAgain n idMap sel

/-! ## What it sees -/

variable {idMap : List ℤ} {sel : MapSelector} {params : MapSearchParameters F}

theorem isMember_translated_external (idMap : List ℤ) (isMember : ℤ → Bool) (label : ℤ) :
    (MapSelector.translated idMap (some (.external isMember))).isMember label =
      (MapSelector.external isMember).ofLabels idMap label := by
  unfold MapSelector.isMember MapSelector.ofLabels
  cases idAt idMap label with
  | error e => rfl
  | ok id => rfl

theorem seen_changeSel (idx : IndexIDMap n Q F D) (params : MapSearchParameters F) :
    (idx.changeSel params).2.seen n = params.translated n idx.idMap := by
  obtain ⟨fields, sel⟩ := params
  cases sel with
  | none => rfl
  | some sel =>
      cases sel with
      | external isMember =>
          refine ParametersSeen.ext rfl (congrArg some (funext fun i ↦ ?_))
          exact isMember_translated_external idx.idMap isMember (i : ℕ)
      | translated idMap sel => rfl

theorem destroy_changeSel (idx : IndexIDMap n Q F D) (params : MapSearchParameters F) :
    (idx.changeSel params).1.destroy (idx.changeSel params).2 = params := by
  obtain ⟨fields, sel⟩ := params
  cases sel with
  | none => rfl
  | some sel =>
      cases sel with
      | external isMember => rfl
      | translated idMap sel => rfl

theorem search_faithful (idx : IndexIDMap n Q F D) (q : Q)
    (params : Option (MapSearchParameters F)) : SearchFaithful idx q params := by
  unfold SearchFaithful
  cases params with
  | none => rfl
  | some params =>
      refine Prod.ext ?_ (congrArg some (destroy_changeSel idx params))
      exact congrArg (fun seen ↦ mapLabels idx.idMap (idx.index.search q (some seen)))
        (seen_changeSel idx params)

/-- The parameters that `range_search` makes are seen as those of the caller should be, if and only
if these have no fields and a selector that can be translated. -/
theorem seen_internal_iff :
    (⟨none, some (.translated idMap params.sel)⟩ : MapSearchParameters F).seen n =
      params.translated n idMap ↔ OnlySelects n idMap params := by
  obtain ⟨fields, sel⟩ := params
  unfold OnlySelects MapSearchParameters.seen MapSearchParameters.translated
  dsimp only
  rw [ParametersSeen.ext_iff, eq_comm]
  refine and_congr_right fun _ ↦ ?_
  dsimp only
  cases sel with
  | none => exact iff_of_false nofun fun ⟨_, h, _⟩ ↦ nomatch h
  | some sel =>
      have hmember : (∃ sel', some sel = some sel' ∧ TranslatesAgain n idMap sel') ↔
          TranslatesAgain n idMap sel := by
        constructor
        · rintro ⟨_, ⟨⟩, h⟩
          exact h
        · exact fun h ↦ ⟨sel, rfl, h⟩
      rw [hmember, Option.map_some, Option.map_some, Option.some.injEq, funext_iff]
      cases sel with
      | external isMember =>
          exact iff_of_true (fun i ↦ isMember_translated_external idMap isMember (i : ℕ)) trivial
      | translated idMap' sel => exact Iff.rfl

/-! ## Faithful searches -/

open Classical in
/-- A sub-index that does something of its own when it sees these parameters. -/
noncomputable def SubIndex.watching (Q D : Type) (seen : ParametersSeen n F) : SubIndex n Q F D where
  search _ _ := .error .outOfRange
  rangeSearch _ seen' := .error (if seen' = some seen then .nullPointer else .outOfRange)

open Classical in
/-- A sub-index that watches for what it should see finds out if it sees something else. -/
theorem seen_of_watching {q : Q} (h : RangeSearchFaithful
      (⟨.watching Q D (params.translated n idMap), idMap⟩ : IndexIDMap n Q F D) q (some params)) :
    (⟨none, some (.translated idMap params.sel)⟩ : MapSearchParameters F).seen n =
      params.translated n idMap := by
  have herror : (Except.error (if some
      ((⟨none, some (.translated idMap params.sel)⟩ : MapSearchParameters F).seen n) =
        some (params.translated n idMap) then Abort.nullPointer else .outOfRange) :
          Except Abort (D × List ℤ)) =
      .error (if some (params.translated n idMap) = some (params.translated n idMap) then
        Abort.nullPointer else .outOfRange) := (Prod.mk.inj h).1
  by_contra hne
  rw [if_pos rfl, if_neg fun heq ↦ hne (Option.some.inj heq)] at herror
  cases herror

/-- With any sub-index, `search` passes the parameters on and leaves those of the caller as they were;
and `range_search` does with any sub-index if and only if there are no parameters, or they have no
fields and a selector that can be translated. -/
theorem passes_parameters_iff (n : ℕ) (idMap : List ℤ) (q : Q)
    (params : Option (MapSearchParameters F)) :
    (∀ index : SubIndex n Q F D, SearchFaithful ⟨index, idMap⟩ q params) ∧
    ((∀ index : SubIndex n Q F D, RangeSearchFaithful ⟨index, idMap⟩ q params) ↔
      ∀ given, params = some given → OnlySelects n idMap given) := by
  refine ⟨fun index ↦ search_faithful _ q params, ?_⟩
  constructor
  · rintro h given rfl
    exact seen_internal_iff.mp (seen_of_watching (h (.watching Q D (given.translated n idMap))))
  · intro h index
    unfold RangeSearchFaithful
    cases params with
    | none => rfl
    | some given =>
        refine Prod.ext ?_ rfl
        exact congrArg (fun seen ↦ mapLabels idMap (index.rangeSearch q (some seen)))
          (seen_internal_iff.mpr (h given rfl))

/-- A sub-index of one vector, which is found if two lists are probed and it is selected.  Its range
search by way of the map probes one list, reads through a null pointer where nothing is selected, and
reads past the end of the map with a selector that is translated. -/
theorem passes_parameters_iff_fails :
    let find : Unit → Option (ParametersSeen 1 ℕ) → Except Abort (Unit × List ℤ) := fun _ seen ↦ do
      let selected ← ((seen.bind ParametersSeen.isMember).map (· 0)).getD (.ok true)
      return ((), if selected && (seen.bind ParametersSeen.fields).getD 1 == 2 then [0] else [])
    let idx : IndexIDMap 1 Unit ℕ Unit := ⟨⟨find, find⟩, [100]⟩
    let all : MapSelector := .external fun _ ↦ true
    ((idx.rangeSearch () (some ⟨some 2, some all⟩)).1 = .ok ((), []) ∧
      ¬ RangeSearchFaithful idx () (some ⟨some 2, some all⟩)) ∧
    ((idx.rangeSearch () (some ⟨some 2, none⟩)).1 = .error .nullPointer ∧
      ¬ RangeSearchFaithful idx () (some ⟨some 2, none⟩)) ∧
    ((idx.rangeSearch () (some ⟨some 2, some (.translated [100] (some all))⟩)).1 =
        .error .outOfRange ∧
      ¬ RangeSearchFaithful idx () (some ⟨some 2, some (.translated [100] (some all))⟩)) := by
  intro find idx all
  refine ⟨⟨rfl, fun h ↦ ?_⟩, ⟨rfl, fun h ↦ ?_⟩, rfl, fun h ↦ ?_⟩
  · have hfound : (.ok ((), []) : Except Abort (Unit × List ℤ)) = .ok ((), [100]) :=
      congrArg Prod.fst h
    cases hfound
  · have hfound : (.error .nullPointer : Except Abort (Unit × List ℤ)) = .ok ((), [100]) :=
      congrArg Prod.fst h
    cases hfound
  · have hfound : (.error .outOfRange : Except Abort (Unit × List ℤ)) = .ok ((), [100]) :=
      congrArg Prod.fst h
    cases hfound

end FaissNavix
