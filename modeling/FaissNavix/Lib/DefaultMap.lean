import Mathlib.Algebra.BigOperators.Group.List.Basic
import Mathlib.Algebra.Order.Ring.Nat
import Mathlib.Data.List.AList

/-!
# Maps that make what they do not have

A map with finitely many keys, where a key that is missing is added with a default before what it has
is changed.  The entries stand in some order, of which only the map made of them is used.
-/

namespace Lib

universe u

abbrev Keyed (V : Type u) :=
  Σ _ : ℕ, V

abbrev DefaultMap (V : Type u) :=
  AList fun _ : ℕ ↦ V

namespace DefaultMap

variable {V : Type u} [Inhabited V] {m : DefaultMap V} {key key' : ℕ} {f : V → V}
  {order : List (Keyed V)}

def modify (m : DefaultMap V) (key : ℕ) (f : V → V) : DefaultMap V :=
  m.insert key (f ((m.lookup key).getD default))

theorem lookup_modify_self : (m.modify key f).lookup key = some (f ((m.lookup key).getD default)) :=
  AList.lookup_insert m

theorem lookup_modify_of_ne (h : key' ≠ key) : (m.modify key f).lookup key' = m.lookup key' :=
  AList.lookup_insert_ne h

/-- Either the key is new, or what it has is changed in its place. -/
theorem entries_modify (m : DefaultMap V) (key : ℕ) (f : V → V) :
    (key ∉ m ∧ (m.modify key f).entries = ⟨key, f default⟩ :: m.entries) ∨
      ∃ v before after, m.entries = before ++ ⟨key, v⟩ :: after ∧
        (m.modify key f).entries = ⟨key, f v⟩ :: (before ++ after) := by
  by_cases hkey : key ∈ m
  · obtain ⟨v, before, after, -, hentries, herase⟩ := List.exists_of_kerase (AList.mem_keys.mp hkey)
    have hlookup : m.lookup key = some v := by
      refine AList.mem_lookup_iff.mpr ?_
      rw [hentries]
      exact List.mem_append_right _ List.mem_cons_self
    refine Or.inr ⟨v, before, after, hentries, ?_⟩
    rw [modify, hlookup, AList.entries_insert, herase]
    rfl
  · refine Or.inl ⟨hkey, ?_⟩
    rw [modify, AList.lookup_eq_none.mpr hkey, AList.entries_insert_of_notMem hkey]
    rfl

/-- A condition on the entries that the one that is changed keeps. -/
theorem forall_entries_modify {P : Keyed V → Prop} (h : ∀ e ∈ m.entries, P e)
    (hdefault : P ⟨key, f default⟩) (hchanged : ∀ v, P ⟨key, v⟩ → P ⟨key, f v⟩) :
    ∀ e ∈ (m.modify key f).entries, P e := by
  intro e he
  obtain ⟨-, hnew⟩ | ⟨v, before, after, hold, hnew⟩ := entries_modify m key f
  · rw [hnew] at he
    rcases List.mem_cons.mp he with rfl | he
    · exact hdefault
    · exact h e he
  · rw [hnew] at he
    rw [hold] at h
    rcases List.mem_cons.mp he with rfl | he
    · exact hchanged v (h _ (List.mem_append_right _ List.mem_cons_self))
    · refine h e ?_
      rcases List.mem_append.mp he with hbefore | hafter
      · exact List.mem_append_left _ hbefore
      · exact List.mem_append_right _ (List.mem_cons_of_mem _ hafter)

/-- A sum over what the keys have, where what is added does not depend on what there was. -/
theorem sum_modify {size : V → ℕ} {n : ℕ} (hdefault : size default = 0)
    (hsize : ∀ v, size (f v) = size v + n) :
    ((m.modify key f).entries.map fun e ↦ size e.2).sum =
      (m.entries.map fun e ↦ size e.2).sum + n := by
  obtain ⟨-, hnew⟩ | ⟨v, before, after, hold, hnew⟩ := entries_modify m key f
  · rw [hnew, List.map_cons, List.sum_cons, hsize, hdefault, Nat.zero_add, Nat.add_comm]
  · rw [hnew, hold]
    simp only [List.map_cons, List.map_append, List.sum_cons, List.sum_append, hsize]
    omega

/-- The entries one after the other, each with a key that is new, put what they have into the map. -/
theorem lookup_foldl {g : Keyed V → V → V} (hg : ∀ e, g e default = e.2)
    (hkeys : order.NodupKeys) (hnew : ∀ e ∈ order, e.1 ∉ m) (key : ℕ) :
    (order.foldl (fun m e ↦ m.modify e.1 (g e)) m).lookup key =
      (order.dlookup key).or (m.lookup key) := by
  induction order generalizing m with
  | nil => rfl
  | cons e order ih =>
      obtain ⟨k, v⟩ := e
      obtain ⟨hk, hkeys⟩ := List.nodupKeys_cons.mp hkeys
      have hmissing : m.lookup k = none :=
        AList.lookup_eq_none.mpr (hnew ⟨k, v⟩ List.mem_cons_self)
      have hrest : ∀ e ∈ order, e.1 ∉ m.modify k (g ⟨k, v⟩) := by
        intro e he
        rw [← AList.lookup_eq_none, lookup_modify_of_ne]
        · exact AList.lookup_eq_none.mpr (hnew e (List.mem_cons_of_mem _ he))
        · rintro rfl
          exact hk (List.mem_map.mpr ⟨e, he, rfl⟩)
      rw [List.foldl_cons, ih hkeys hrest]
      rcases eq_or_ne key k with rfl | hne
      · rw [lookup_modify_self, hmissing, List.dlookup_eq_none.mpr hk, List.dlookup_cons_eq]
        exact congrArg some (hg _)
      · rw [lookup_modify_of_ne hne, List.dlookup_cons_ne _ _ hne]

theorem lookup_foldl_empty {g : Keyed V → V → V} (hg : ∀ e, g e default = e.2)
    (h : order.Perm m.entries) (key : ℕ) :
    (order.foldl (fun m e ↦ m.modify e.1 (g e)) (∅ : DefaultMap V)).lookup key = m.lookup key := by
  have hkeys : order.NodupKeys := (List.perm_nodupKeys h).mpr m.nodupKeys
  rw [lookup_foldl hg hkeys fun e _ ↦ AList.notMem_empty e.1, AList.lookup_empty, Option.or_none,
    List.perm_dlookup key hkeys h]
  rfl

end DefaultMap

end Lib

/-!
# Grouping

A map that collects what has the same key, one element after the other.
-/

namespace Lib.DefaultMap

variable {V E : Type} [Inhabited V] {key : E → ℕ} {build : V → E → V} {m : DefaultMap V} {es : List E}

/-- Each key has what is built of the elements with this key, if there are any. -/
def Groups (key : E → ℕ) (build : V → E → V) (m : DefaultMap V) (es : List E) : Prop :=
  ∀ k, m.lookup k =
    if (es.filter fun e ↦ key e = k) = [] then none
    else some ((es.filter fun e ↦ key e = k).foldl build default)

theorem groups_nil (key : E → ℕ) (build : V → E → V) : Groups key build ∅ [] := fun k ↦ by
  rw [List.filter_nil, if_pos rfl]
  exact AList.lookup_empty k

theorem Groups.append (h : Groups key build m es) (e : E) :
    Groups key build (m.modify (key e) (build · e)) (es ++ [e]) := by
  intro k
  rw [List.filter_append, List.filter_singleton]
  by_cases hk : key e = k
  · subst hk
    rw [decide_eq_true rfl, cond_true, if_neg (List.append_ne_nil_of_right_ne_nil _ (by simp)),
      lookup_modify_self, h (key e), List.foldl_append]
    split
    · rename_i hnil
      rw [hnil]
      rfl
    · rfl
  · rw [decide_eq_false hk, cond_false, List.append_nil, lookup_modify_of_ne (Ne.symm hk), h k]

theorem Groups.lookup_cases (h : Groups key build m es) (k : ℕ) :
    (m.lookup k = none ∧ (es.filter fun e ↦ key e = k) = []) ∨
      m.lookup k = some ((es.filter fun e ↦ key e = k).foldl build default) := by
  rw [h k]
  split
  · rename_i hempty
    exact .inl ⟨rfl, hempty⟩
  · exact .inr rfl

end Lib.DefaultMap
