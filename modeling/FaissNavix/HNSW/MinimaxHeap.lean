import FaissNavix.Heap

/-!
# The candidate heap

`HNSW::MinimaxHeap`: a max-heap of at most `n` distances with ids.  The nearest candidate is taken
out by overwriting its id with `-1`; its distance stays in the heap, where it counts for
`count_below` and takes up room.
-/

namespace FaissNavix

open Function

/-- Of `n`, `k` and `nvalid`, only the first is fixed; the first `k` entries of the arrays are in
use. -/
structure MinimaxHeap where
  n : ℕ
  k : ℕ
  nvalid : ℕ
  heap : ℕ → F32 × ℤ

namespace MinimaxHeap

section
variable (h : MinimaxHeap)

def new (n : ℕ) : MinimaxHeap := { n, k := 0, nvalid := 0, heap := fun _ ↦ (⟨0⟩, 0) }

/-- The last lines of `push`, which put the new entry in. -/
def insert (i : ℕ) (v : F32) : MinimaxHeap :=
  { h with k := h.k + 1, nvalid := h.nvalid + 1, heap := heapPush CMax (h.k + 1) h.heap v i }

/-- The branch of `push` that makes room. -/
def evict : MinimaxHeap :=
  { h with
    k := h.k - 1
    nvalid := if (h.heap 0).2 ≠ -1 then h.nvalid - 1 else h.nvalid
    heap := heapPop CMax h.k h.heap }

def push (i : ℕ) (v : F32) : MinimaxHeap :=
  if h.k = h.n then
    if (h.heap 0).1 ≤ v then h else h.evict.insert i v
  else h.insert i v

def max : F32 := (h.heap 0).1

def size : ℕ := h.nvalid

def clear : MinimaxHeap := { h with nvalid := 0, k := 0 }

/-- One turn of the scans of `pop_min`, which go down from the last entry: `imin` is the position
of the smallest distance met so far among the entries that are not taken out. -/
def popMinStep (imin : Option ℕ) (i : ℕ) : Option ℕ :=
  if (h.heap i).2 = -1 then imin
  else
    match imin with
    | none => some i
    | some m => if (h.heap i).1 < (h.heap m).1 then some i else some m

/-- The last lines of `pop_min`: the entry at `imin` is taken out. -/
def takeOut (imin : ℕ) : MinimaxHeap :=
  { h with nvalid := h.nvalid - 1, heap := update h.heap imin ((h.heap imin).1, -1) }

/-- `pop_min`: the id, its distance, and the heap afterwards; `none` for the answer `-1`. -/
def popMin : Option (ℤ × F32 × MinimaxHeap) :=
  ((List.range h.k).reverse.foldl h.popMinStep none).map fun imin ↦
    ((h.heap imin).2, (h.heap imin).1, h.takeOut imin)

/-- `count_below` -/
def countBelow (thresh : F32) : ℕ :=
  ((List.range h.k).filter fun i ↦ decide ((h.heap i).1 < thresh)).length

/-- The entries in use, taken out or not. -/
def content : Multiset (F32 × ℤ) := entries h.k h.heap

end

/-- The bookkeeping of the sizes. -/
structure Valid (h : MinimaxHeap) : Prop where
  le : h.k ≤ h.n
  nvalid_eq : h.nvalid = h.content.countP isReal

@[simp] theorem content_new (n : ℕ) : (new n).content = 0 := rfl

@[simp] theorem card_content (h : MinimaxHeap) : h.content.card = h.k := card_entries _

theorem valid_new (n : ℕ) : (new n).Valid := ⟨Nat.zero_le _, by rw [content_new]; rfl⟩

variable {h h' : MinimaxHeap}

/-! ## push -/

theorem isReal_natCast {v : F32} (i : ℕ) : isReal (v, (i : ℤ)) := by
  simp only [isReal]; omega

theorem content_insert (h : MinimaxHeap) (i : ℕ) (v : F32) :
    (h.insert i v).content = (v, (i : ℤ)) ::ₘ h.content :=
  entries_heapPush _ _ _

theorem cons_content_evict (hk : 1 ≤ h.k) : h.heap 0 ::ₘ h.evict.content = h.content := by
  obtain ⟨m, hm⟩ : ∃ m, h.k = m + 1 := ⟨h.k - 1, by omega⟩
  simp only [content, evict, hm, Nat.add_sub_cancel]
  exact cons_entries_heapPop h.heap

theorem Valid.insert (hv : h.Valid) (hk : h.k < h.n) (i : ℕ) (v : F32) : (h.insert i v).Valid where
  le := hk
  nvalid_eq := by
    rw [content_insert, Multiset.countP_cons_of_pos _ (isReal_natCast i), ← hv.nvalid_eq]
    rfl

theorem Valid.evict (hv : h.Valid) (hk : 1 ≤ h.k) : h.evict.Valid where
  le := (Nat.sub_le _ _).trans hv.le
  nvalid_eq := by
    have hc := congrArg (Multiset.countP isReal) (cons_content_evict hk)
    rw [← hv.nvalid_eq, Multiset.countP_cons] at hc
    have hr : isReal (h.heap 0) ↔ (h.heap 0).2 ≠ -1 := Iff.rfl
    by_cases h0 : (h.heap 0).2 ≠ -1
    · rw [if_pos (hr.mpr h0)] at hc
      simp only [MinimaxHeap.evict, if_pos h0] at hc ⊢
      omega
    · rw [if_neg (mt hr.mp h0)] at hc
      simp only [MinimaxHeap.evict, if_neg h0] at hc ⊢
      omega

theorem push_of_lt (hk : h.k < h.n) (i : ℕ) (v : F32) : h.push i v = h.insert i v := by
  rw [push, if_neg (by omega)]

/-- What a push does to the entries: it adds one, or leaves the full heap as it is, or replaces
the largest entry of the full heap. -/
theorem push_cases (hv : h.Valid) (hn : 1 ≤ h.n) (i : ℕ) (v : F32) :
    (h.k < h.n ∧ (h.push i v).content = (v, (i : ℤ)) ::ₘ h.content) ∨
      (h.k = h.n ∧ (h.heap 0).1 ≤ v ∧ h.push i v = h) ∨
      (h.k = h.n ∧ ¬ (h.heap 0).1 ≤ v ∧
        h.heap 0 ::ₘ (h.push i v).content = (v, (i : ℤ)) ::ₘ h.content) := by
  have hle := hv.le
  by_cases hk : h.k = h.n
  · by_cases hle : (h.heap 0).1 ≤ v
    · exact Or.inr (Or.inl ⟨hk, hle, by rw [push, if_pos hk, if_pos hle]⟩)
    · refine Or.inr (Or.inr ⟨hk, hle, ?_⟩)
      rw [push, if_pos hk, if_neg hle, content_insert, Multiset.cons_swap,
        cons_content_evict (by omega)]
  · exact Or.inl ⟨by omega, by rw [push_of_lt (by omega), content_insert]⟩

theorem Valid.push (hv : h.Valid) (hn : 1 ≤ h.n) (i : ℕ) (v : F32) : (h.push i v).Valid := by
  have hle := hv.le
  unfold MinimaxHeap.push
  split
  · split
    · exact hv
    · exact (hv.evict (by omega)).insert (by simp only [MinimaxHeap.evict]; omega) i v
  · exact hv.insert (by omega) i v

@[simp] theorem n_push (h : MinimaxHeap) (i : ℕ) (v : F32) : (h.push i v).n = h.n := by
  unfold push
  split
  · split <;> rfl
  · rfl

/-! ## pop_min -/

/-- The scan finds a smallest valid entry, if there is a valid one. -/
theorem popMinStep_foldl (h : MinimaxHeap) (l : List ℕ) :
    (l.foldl h.popMinStep none = none ∧ ∀ i ∈ l, (h.heap i).2 = -1) ∨
      ∃ m ∈ l, l.foldl h.popMinStep none = some m ∧ (h.heap m).2 ≠ -1 ∧
        ∀ i ∈ l, (h.heap i).2 ≠ -1 → ¬ (h.heap i).1 < (h.heap m).1 := by
  induction l using List.reverseRecOn with
  | nil => exact Or.inl ⟨rfl, by simp⟩
  | append_singleton l i ih =>
      rw [List.foldl_append]
      rcases ih with ⟨hnone, hall⟩ | ⟨m, hm, hsome, hreal, hmin⟩
      · rw [hnone]
        by_cases hi : (h.heap i).2 = -1
        · refine Or.inl ⟨by simp [popMinStep, hi], fun j hj ↦ ?_⟩
          rcases List.mem_append.mp hj with hj | hj
          · exact hall j hj
          · rw [List.mem_singleton.mp hj]; exact hi
        · refine Or.inr ⟨i, by simp, by simp [popMinStep, hi], hi, fun j hj hjr ↦ ?_⟩
          rcases List.mem_append.mp hj with hj | hj
          · exact absurd (hall j hj) hjr
          · rw [List.mem_singleton.mp hj]; exact F32.lt_irrefl _
      · rw [hsome]
        by_cases hi : (h.heap i).2 = -1
        · refine Or.inr ⟨m, by simp [hm], by simp [popMinStep, hi], hreal, fun j hj hjr ↦ ?_⟩
          rcases List.mem_append.mp hj with hj | hj
          · exact hmin j hj hjr
          · rw [List.mem_singleton.mp hj] at hjr; exact absurd hi hjr
        · by_cases hlt : (h.heap i).1 < (h.heap m).1
          · refine Or.inr ⟨i, by simp, by simp [popMinStep, hi, hlt], hi, fun j hj hjr hji ↦ ?_⟩
            rcases List.mem_append.mp hj with hj | hj
            · refine hmin j hj hjr ?_
              rw [F32.lt_iff] at *
              exact ⟨hji.1, hlt.2.1, hji.2.2.trans hlt.2.2⟩
            · rw [List.mem_singleton.mp hj] at hji; exact F32.lt_irrefl _ hji
          · refine Or.inr ⟨m, by simp [hm], by simp [popMinStep, hi, hlt], hreal, fun j hj hjr ↦ ?_⟩
            rcases List.mem_append.mp hj with hj | hj
            · exact hmin j hj hjr
            · rw [List.mem_singleton.mp hj]; exact hlt

/-- What `pop_min` does: it takes out a nearest valid entry, whose distance stays. -/
structure Popped (h : MinimaxHeap) (id : ℤ) (d : F32) (h' : MinimaxHeap) : Prop where
  n_eq : h'.n = h.n
  k_eq : h'.k = h.k
  nvalid_eq : h'.nvalid + 1 = h.nvalid
  real : id ≠ -1
  content : ∃ R, h.content = (d, id) ::ₘ R ∧ h'.content = (d, -1) ::ₘ R
  min : ∀ x ∈ h.content, isReal x → ¬ x.1 < d
  values : ∀ i, (h'.heap i).1 = (h.heap i).1

theorem popMin_spec (hv : h.Valid) (hsize : 0 < h.size) :
    ∃ id d h', h.popMin = some (id, d, h') ∧ Popped h id d h' := by
  have hpos : 0 < h.content.countP isReal := by rw [← hv.nvalid_eq]; exact hsize
  obtain ⟨x, hx, hxr⟩ := Multiset.countP_pos.mp hpos
  obtain ⟨j, hj, rfl⟩ := mem_entries.mp hx
  rcases popMinStep_foldl h (List.range h.k).reverse with ⟨-, hall⟩ | ⟨m, hm, hsome, hreal, hmin⟩
  · exact absurd (hall j (by simpa using hj)) hxr
  · have hmk : m < h.k := by simpa using hm
    refine ⟨_, _, h.takeOut m, by rw [popMin, hsome]; rfl, rfl, rfl, ?_, hreal, ?_, ?_, ?_⟩
    · change h.nvalid - 1 + 1 = h.nvalid
      have : 0 < h.nvalid := hsize
      omega
    · obtain ⟨R, hR⟩ : ∃ R, h.content = h.heap m ::ₘ R :=
        Multiset.exists_cons_of_mem (mem_entries.mpr ⟨m, hmk, rfl⟩)
      refine ⟨R, hR, ?_⟩
      have hupd := cons_entries_update hmk h.heap ((h.heap m).1, (-1 : ℤ))
      change h.heap m ::ₘ (h.takeOut m).content = _ ::ₘ h.content at hupd
      rw [hR, Multiset.cons_swap] at hupd
      exact (Multiset.cons_inj_right _).mp hupd
    · intro x hx hxr
      obtain ⟨i, hi, rfl⟩ := mem_entries.mp hx
      exact hmin i (by simpa using hi) hxr
    · intro i
      by_cases him : i = m
      · subst him; simp [takeOut]
      · simp [takeOut, update_of_ne him]

theorem Popped.valid {id : ℤ} {d : F32} (hp : Popped h id d h') (hv : h.Valid) : h'.Valid where
  le := by rw [hp.k_eq, hp.n_eq]; exact hv.le
  nvalid_eq := by
    obtain ⟨R, hR, hR'⟩ := hp.content
    have h1 := hv.nvalid_eq
    rw [hR, Multiset.countP_cons_of_pos _ (show isReal (d, id) from hp.real), ← hp.nvalid_eq] at h1
    rw [hR', Multiset.countP_cons_of_neg _ (show ¬ isReal (d, -1) from fun hc ↦ hc rfl)]
    omega

/-! ## count_below -/

theorem countBelow_eq (h : MinimaxHeap) (thresh : F32) :
    h.countBelow thresh = h.content.countP fun x ↦ x.1 < thresh := by
  rw [content, entries_eq_coe_range, Multiset.coe_countP, List.countP_map,
    List.countP_eq_length_filter, countBelow]
  rfl

end MinimaxHeap

end FaissNavix
