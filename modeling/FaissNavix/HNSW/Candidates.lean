import FaissNavix.HNSW.MinimaxHeap
import FaissNavix.ResultHandler

/-!
# What the candidate heap holds

Seen from a search, the candidate heap holds vertices with their distances to the query: those that
are `waiting` to be expanded and those that are `taken` out already, whose distances still count and
still take up room.  `Tracks` says so, and what a push and a pop do to the two.

As long as there is room, nothing is lost.  On a full heap the farthest entry, waiting or taken,
makes way for a nearer one, so that the heap holds the `n` nearest of all the vertices pushed
(`Selects`).
-/

namespace FaissNavix

open Lib

variable {qdis : ℕ → F32}

def takenOut (qdis : ℕ → F32) (v : ℕ) : F32 × ℤ := (qdis v, -1)

theorem not_isReal_takenOut (qdis : ℕ → F32) (v : ℕ) : ¬ isReal (takenOut qdis v) := fun h ↦ h rfl

namespace MinimaxHeap

/-- The heap holds the vertices `waiting`, and the distances of the vertices `taken`. -/
structure Tracks (qdis : ℕ → F32) (h : MinimaxHeap) (waiting taken : Multiset ℕ) : Prop where
  valid : h.Valid
  pos : 1 ≤ h.n
  content : h.content = waiting.map (scored qdis) + taken.map (takenOut qdis)

variable {h : MinimaxHeap} {waiting taken pushed : Multiset ℕ}

theorem tracks_new (qdis : ℕ → F32) {n : ℕ} (hn : 1 ≤ n) : Tracks qdis (new n) 0 0 where
  valid := valid_new n
  pos := hn
  content := rfl

theorem Tracks.k_eq (ht : Tracks qdis h waiting taken) : h.k = waiting.card + taken.card := by
  rw [← card_content, ht.content, Multiset.card_add, Multiset.card_map, Multiset.card_map]

theorem Tracks.size_eq (ht : Tracks qdis h waiting taken) : h.size = waiting.card := by
  have h1 : (waiting.map (scored qdis)).countP isReal = waiting.card := by
    rw [Multiset.countP_eq_card.mpr fun x hx ↦ by
      obtain ⟨v, -, rfl⟩ := Multiset.mem_map.mp hx; exact isReal_scored qdis v, Multiset.card_map]
  have h2 : (taken.map (takenOut qdis)).countP isReal = 0 :=
    Multiset.countP_eq_zero.mpr fun x hx ↦ by
      obtain ⟨v, -, rfl⟩ := Multiset.mem_map.mp hx; exact not_isReal_takenOut qdis v
  rw [size, ht.valid.nvalid_eq, ht.content, Multiset.countP_add, h1, h2, add_zero]

theorem Tracks.countBelow_eq (ht : Tracks qdis h waiting taken) (d : F32) :
    h.countBelow d = (waiting + taken).countP fun v ↦ qdis v < d := by
  rw [MinimaxHeap.countBelow_eq, ht.content, Multiset.countP_add, Multiset.countP_add,
    Multiset.countP_map, Multiset.countP_map, Multiset.countP_eq_card_filter,
    Multiset.countP_eq_card_filter]
  rfl

theorem Tracks.top_cases (ht : Tracks qdis h waiting taken) (hk : 1 ≤ h.k) :
    (∃ t ∈ waiting, scored qdis t = h.heap 0) ∨ ∃ t ∈ taken, takenOut qdis t = h.heap 0 := by
  have htop : h.heap 0 ∈ h.content := mem_entries.mpr ⟨0, hk, rfl⟩
  rw [ht.content] at htop
  rcases Multiset.mem_add.mp htop with hx | hx
  · exact Or.inl (Multiset.mem_map.mp hx)
  · exact Or.inr (Multiset.mem_map.mp hx)

/-! ## Pushing -/

/-- A push adds the vertex while there is room; on a full heap it does nothing, or it drops the
entry on top, which was waiting or taken. -/
theorem Tracks.push_cases (ht : Tracks qdis h waiting taken) (v : ℕ) :
    (h.k < h.n ∧ Tracks qdis (h.push v (qdis v)) (v ::ₘ waiting) taken) ∨
      (h.k = h.n ∧ (h.heap 0).1 ≤ qdis v ∧ h.push v (qdis v) = h) ∨
      (h.k = h.n ∧ ¬ (h.heap 0).1 ≤ qdis v ∧
        ((∃ t waiting', waiting = t ::ₘ waiting' ∧ qdis t = (h.heap 0).1 ∧
            Tracks qdis (h.push v (qdis v)) (v ::ₘ waiting') taken) ∨
          ∃ t taken', taken = t ::ₘ taken' ∧ qdis t = (h.heap 0).1 ∧
            Tracks qdis (h.push v (qdis v)) (v ::ₘ waiting) taken')) := by
  have hvalid := ht.valid.push ht.pos v (qdis v)
  have hpos : 1 ≤ (h.push v (qdis v)).n := by rw [n_push]; exact ht.pos
  rcases MinimaxHeap.push_cases ht.valid ht.pos v (qdis v) with ⟨hk, hc⟩ | hkeep | ⟨hk, hle, hc⟩
  · refine Or.inl ⟨hk, hvalid, hpos, ?_⟩
    rw [hc, ht.content, Multiset.map_cons, Multiset.cons_add]
    rfl
  · exact Or.inr (Or.inl hkeep)
  · refine Or.inr (Or.inr ⟨hk, hle, ?_⟩)
    have hk1 : 1 ≤ h.k := by have := ht.pos; omega
    rw [ht.content] at hc
    rcases ht.top_cases hk1 with ⟨t, hmem, htop⟩ | ⟨t, hmem, htop⟩
    · obtain ⟨waiting', rfl⟩ := Multiset.exists_cons_of_mem hmem
      refine Or.inl ⟨t, waiting', rfl, by rw [← htop]; rfl, hvalid, hpos, ?_⟩
      rw [← htop, Multiset.map_cons, Multiset.cons_add, Multiset.cons_swap] at hc
      rw [Multiset.map_cons, Multiset.cons_add]
      exact (Multiset.cons_inj_right _).mp hc
    · obtain ⟨taken', rfl⟩ := Multiset.exists_cons_of_mem hmem
      refine Or.inr ⟨t, taken', rfl, by rw [← htop]; rfl, hvalid, hpos, ?_⟩
      rw [← htop, Multiset.map_cons, Multiset.add_cons, Multiset.cons_swap] at hc
      rw [Multiset.map_cons, Multiset.cons_add]
      exact (Multiset.cons_inj_right _).mp hc

theorem Tracks.push (ht : Tracks qdis h waiting taken) (v : ℕ) :
    ∃ waiting' taken', Tracks qdis (h.push v (qdis v)) waiting' taken' ∧
      waiting' ≤ v ::ₘ waiting ∧ taken' ≤ taken := by
  rcases ht.push_cases v with ⟨-, h'⟩ | ⟨-, -, h'⟩ | ⟨-, -, ⟨t, w, rfl, -, h'⟩ | ⟨t, w, rfl, -, h'⟩⟩
  · exact ⟨_, _, h', le_rfl, le_rfl⟩
  · exact ⟨waiting, taken, by rw [h']; exact ht, Multiset.le_cons_self _ _, le_rfl⟩
  · exact ⟨_, _, h', (Multiset.cons_le_cons_iff v).mpr (Multiset.le_cons_self _ _), le_rfl⟩
  · exact ⟨_, _, h', le_rfl, Multiset.le_cons_self _ _⟩

/-- The pushes of a list of vertices, in order. -/
def pushAll (qdis : ℕ → F32) (h : MinimaxHeap) (l : List ℕ) : MinimaxHeap :=
  l.foldl (fun h v ↦ h.push v (qdis v)) h

@[simp] theorem pushAll_nil (h : MinimaxHeap) : pushAll qdis h [] = h := rfl

@[simp] theorem pushAll_cons (h : MinimaxHeap) (v : ℕ) (l : List ℕ) :
    pushAll qdis h (v :: l) = pushAll qdis (h.push v (qdis v)) l := rfl

theorem pushAll_append (h : MinimaxHeap) (l l' : List ℕ) :
    pushAll qdis h (l ++ l') = pushAll qdis (pushAll qdis h l) l' := List.foldl_append

@[simp] theorem n_pushAll (h : MinimaxHeap) (l : List ℕ) : (pushAll qdis h l).n = h.n := by
  induction l generalizing h with
  | nil => rfl
  | cons v l ih => rw [pushAll_cons, ih, n_push]

theorem Tracks.pushAll (ht : Tracks qdis h waiting taken) (l : List ℕ) :
    ∃ waiting' taken', Tracks qdis (pushAll qdis h l) waiting' taken' ∧
      waiting' ≤ ↑l + waiting ∧ taken' ≤ taken := by
  induction l generalizing h waiting taken with
  | nil => exact ⟨waiting, taken, ht, by simp, le_rfl⟩
  | cons v l ih =>
      obtain ⟨w, t, ht', hw, htk⟩ := ht.push v
      obtain ⟨w', t', ht'', hw', htk'⟩ := ih ht'
      refine ⟨w', t', ht'', hw'.trans ?_, htk'.trans htk⟩
      rw [← Multiset.cons_coe, Multiset.cons_add, ← Multiset.add_cons]
      exact add_le_add_right hw _

theorem Tracks.pushAll_of_le (ht : Tracks qdis h waiting taken) {l : List ℕ}
    (hl : h.k + l.length ≤ h.n) : Tracks qdis (MinimaxHeap.pushAll qdis h l) (↑l + waiting) taken := by
  induction l generalizing h waiting with
  | nil => simpa using ht
  | cons v l ih =>
      rw [List.length_cons] at hl
      rcases ht.push_cases v with ⟨-, h'⟩ | ⟨hk, -⟩ | ⟨hk, -⟩
      · have hk' : (h.push v (qdis v)).k = h.k + 1 := by
          rw [h'.k_eq, ht.k_eq, Multiset.card_cons]; omega
        have := ih h' (by rw [hk', n_push]; omega)
        rw [pushAll_cons, ← Multiset.cons_coe, Multiset.cons_add, ← Multiset.add_cons]
        exact this
      · omega
      · omega

/-! ## Taking out -/

/-- `pop_min` takes out a nearest waiting vertex. -/
theorem Tracks.popMin (ht : Tracks qdis h waiting taken) (hw : waiting ≠ 0) :
    ∃ (v : ℕ) (waiting' : Multiset ℕ) (h' : MinimaxHeap),
      h.popMin = some ((v : ℤ), qdis v, h') ∧ waiting = v ::ₘ waiting' ∧
      Tracks qdis h' waiting' (v ::ₘ taken) ∧ (∀ u ∈ waiting, ¬ qdis u < qdis v) ∧
      h'.n = h.n ∧ h'.k = h.k ∧ ∀ i, (h'.heap i).1 = (h.heap i).1 := by
  have hsize : 0 < h.size := by rw [ht.size_eq]; exact Multiset.card_pos.mpr hw
  obtain ⟨id, d, h', hpop, hp⟩ := popMin_spec ht.valid hsize
  obtain ⟨R, hR, hR'⟩ := hp.content
  have hmem : (d, id) ∈ waiting.map (scored qdis) + taken.map (takenOut qdis) := by
    rw [← ht.content, hR]; exact Multiset.mem_cons_self _ _
  obtain ⟨v, hv, hvd⟩ : ∃ v ∈ waiting, scored qdis v = (d, id) := by
    rcases Multiset.mem_add.mp hmem with hx | hx
    · exact Multiset.mem_map.mp hx
    · obtain ⟨u, -, hu⟩ := Multiset.mem_map.mp hx
      exact absurd (congrArg Prod.snd hu).symm hp.real
  obtain ⟨waiting', hw'⟩ := Multiset.exists_cons_of_mem hv
  obtain ⟨rfl, rfl⟩ : qdis v = d ∧ (v : ℤ) = id := Prod.mk.inj hvd
  refine ⟨v, waiting', h', hpop, hw', ⟨hp.valid ht.valid, by rw [hp.n_eq]; exact ht.pos, ?_⟩, ?_,
    hp.n_eq, hp.k_eq, hp.values⟩
  · have hRe := ht.content
    rw [hR, hw', Multiset.map_cons, Multiset.cons_add] at hRe
    rw [hR', (Multiset.cons_inj_right _).mp hRe, Multiset.map_cons, Multiset.add_cons]
    rfl
  · intro u hu
    refine hp.min (scored qdis u) ?_ (isReal_scored qdis u)
    rw [ht.content]
    exact Multiset.mem_add.mpr (Or.inl (Multiset.mem_map_of_mem _ hu))

theorem Tracks.countBelow_lt {v : ℕ} (ht : Tracks qdis h waiting (v ::ₘ taken)) :
    h.countBelow (qdis v) < h.k := by
  have hle := Multiset.countP_le_card (fun u ↦ qdis u < qdis v) (waiting + taken)
  rw [ht.countBelow_eq, ht.k_eq, Multiset.add_cons, Multiset.countP_cons,
    if_neg (F32.lt_irrefl (qdis v)), Multiset.card_cons]
  rw [Multiset.card_add] at hle
  omega

/-! ## The nearest of all the vertices pushed -/

/-- The heap holds the `n` nearest of the vertices `pushed`. -/
structure Selects (qdis : ℕ → F32) (h : MinimaxHeap) (pushed waiting taken : Multiset ℕ) : Prop
    extends Tracks qdis h waiting taken where
  comparable : ∀ v ∈ pushed, (qdis v).Comparable
  ordered : HeapOrdered F32.key h.k h.heap
  smallest : KSmallest (fun v ↦ (qdis v).key) h.n pushed (waiting + taken)

theorem selects_new (qdis : ℕ → F32) {n : ℕ} (hn : 1 ≤ n) : Selects qdis (new n) 0 0 0 where
  toTracks := tracks_new qdis hn
  comparable := fun _ hv ↦ absurd hv (Multiset.notMem_zero _)
  ordered := fun i h1 h2 ↦ absurd h2 (by simp only [new]; omega)
  smallest := KSmallest.self (by simp)

theorem heapOrdered_push (ho : HeapOrdered F32.key h.k h.heap) (hn : 1 ≤ h.n)
    (hc : ∀ x ∈ h.content, x.1.Comparable) {d : F32} (hd : d.Comparable) (i : ℕ) :
    HeapOrdered F32.key (h.push i d).k (h.push i d).heap := by
  unfold MinimaxHeap.push
  split
  · rename_i hk
    split
    · exact ho
    · obtain ⟨m, hm⟩ : ∃ m, h.k = m + 1 := ⟨h.k - 1, by omega⟩
      simp only [insert, evict, content, hm, Nat.add_sub_cancel] at ho hc ⊢
      refine (ho.heapPop CMax_keyed hc).heapPush CMax_keyed _ hd fun x hx ↦ hc x ?_
      rw [← cons_entries_heapPop (C := CMax) h.heap]
      exact Multiset.mem_cons_of_mem hx
  · exact ho.heapPush CMax_keyed _ hd hc

theorem Selects.comparable_of_mem (hs : Selects qdis h pushed waiting taken) {x : F32 × ℤ}
    (hx : x ∈ h.content) : x.1.Comparable := by
  have hle : ∀ v ∈ waiting + taken, (qdis v).Comparable := fun v hv ↦
    hs.comparable v (Multiset.mem_of_le hs.smallest.sub hv)
  rw [hs.content] at hx
  rcases Multiset.mem_add.mp hx with hx | hx
  · obtain ⟨v, hv, rfl⟩ := Multiset.mem_map.mp hx
    exact hle v (Multiset.mem_add.mpr (Or.inl hv))
  · obtain ⟨v, hv, rfl⟩ := Multiset.mem_map.mp hx
    exact hle v (Multiset.mem_add.mpr (Or.inr hv))

theorem Selects.le_top (hs : Selects qdis h pushed waiting taken) {v : ℕ}
    (hv : v ∈ waiting + taken) : (qdis v).key ≤ (h.heap 0).1.key := by
  rcases Multiset.mem_add.mp hv with hv | hv
  · refine hs.ordered.le_top (x := scored qdis v) ?_
    change _ ∈ h.content
    rw [hs.content]
    exact Multiset.mem_add.mpr (Or.inl (Multiset.mem_map_of_mem _ hv))
  · refine hs.ordered.le_top (x := takenOut qdis v) ?_
    change _ ∈ h.content
    rw [hs.content]
    exact Multiset.mem_add.mpr (Or.inr (Multiset.mem_map_of_mem _ hv))

theorem Selects.push (hs : Selects qdis h pushed waiting taken) {v : ℕ}
    (hv : (qdis v).Comparable) :
    ∃ waiting' taken', Selects qdis (h.push v (qdis v)) (v ::ₘ pushed) waiting' taken' ∧
      waiting' ≤ v ::ₘ waiting ∧ taken' ≤ taken := by
  have hcomp : ∀ u ∈ v ::ₘ pushed, (qdis u).Comparable :=
    Multiset.forall_mem_cons.mpr ⟨hv, hs.comparable⟩
  have hord := heapOrdered_push hs.ordered hs.pos (fun x hx ↦ hs.comparable_of_mem hx) hv v
  have hcard : (waiting + taken).card = h.k := by rw [Multiset.card_add, hs.k_eq]
  have hsm := hs.smallest
  rcases hs.push_cases v with ⟨hk, h'⟩ | ⟨hk, hle, h'⟩ | ⟨hk, hle, hdrop⟩
  · refine ⟨_, _, ⟨h', hcomp, hord, ?_⟩, le_rfl, le_rfl⟩
    rw [n_push, Multiset.cons_add]
    refine hsm.cons_of_card_lt ?_
    have := hsm.card_eq
    omega
  · refine ⟨waiting, taken, ⟨by rw [h']; exact hs.toTracks, hcomp, hord, ?_⟩,
      Multiset.le_cons_self _ _, le_rfl⟩
    rw [n_push]
    exact hsm.cons_of_le (hcard.trans hk) fun y hy ↦ (hs.le_top hy).trans (F32.le_iff.mp hle).2.2
  · have htop : (h.heap 0).1.Comparable := hs.comparable_of_mem
      (mem_entries.mpr ⟨0, by have := hs.pos; omega, rfl⟩)
    have hlt : (qdis v).key ≤ (h.heap 0).1.key := by
      rw [F32.le_iff_key htop hv, not_le] at hle
      exact hle.le
    -- the entry dropped is one of the farthest in the heap
    have hreplace : ∀ {t : ℕ} {T : Multiset ℕ}, waiting + taken = t ::ₘ T →
        qdis t = (h.heap 0).1 → KSmallest (fun v ↦ (qdis v).key) h.n (v ::ₘ pushed) (v ::ₘ T) := by
      intro t T hT ht
      rw [hT] at hsm hcard
      refine hsm.cons_replace (hcard.trans hk) (fun y hy ↦ ?_) ?_
      · rw [ht]
        exact hs.le_top (by rw [hT]; exact Multiset.mem_cons_of_mem hy)
      · rw [ht]
        exact hlt
    rcases hdrop with ⟨t, w, rfl, ht, h'⟩ | ⟨t, w, rfl, ht, h'⟩
    · refine ⟨_, _, ⟨h', hcomp, hord, ?_⟩, (Multiset.cons_le_cons_iff v).mpr
        (Multiset.le_cons_self _ _), le_rfl⟩
      rw [n_push, Multiset.cons_add]
      exact hreplace (Multiset.cons_add _ _ _) ht
    · refine ⟨_, _, ⟨h', hcomp, hord, ?_⟩, le_rfl, Multiset.le_cons_self _ _⟩
      rw [n_push, Multiset.cons_add]
      exact hreplace (Multiset.add_cons _ _ _) ht

theorem Selects.pushAll (hs : Selects qdis h pushed waiting taken) {l : List ℕ}
    (hl : ∀ v ∈ l, (qdis v).Comparable) :
    ∃ waiting' taken', Selects qdis (MinimaxHeap.pushAll qdis h l) (↑l + pushed) waiting' taken' ∧
      waiting' ≤ ↑l + waiting ∧ taken' ≤ taken := by
  induction l generalizing h pushed waiting taken with
  | nil => exact ⟨waiting, taken, by simpa using hs, by simp, le_rfl⟩
  | cons v l ih =>
      have hshift : ∀ M : Multiset ℕ, (↑(v :: l) : Multiset ℕ) + M = ↑l + v ::ₘ M := fun M ↦ by
        rw [← Multiset.cons_coe, Multiset.cons_add, ← Multiset.add_cons]
      obtain ⟨w, t, hs', hw, htk⟩ := hs.push (hl v List.mem_cons_self)
      obtain ⟨w', t', hs'', hw', htk'⟩ := ih hs' fun u hu ↦ hl u (List.mem_cons_of_mem _ hu)
      rw [hshift, hshift]
      exact ⟨w', t', hs'', hw'.trans (add_le_add_right hw _), htk'.trans htk⟩

theorem Selects.popMin (hs : Selects qdis h pushed waiting taken) (hw : waiting ≠ 0) :
    ∃ (v : ℕ) (waiting' : Multiset ℕ) (h' : MinimaxHeap),
      h.popMin = some ((v : ℤ), qdis v, h') ∧ waiting = v ::ₘ waiting' ∧
      Selects qdis h' pushed waiting' (v ::ₘ taken) ∧ (∀ u ∈ waiting, (qdis v).key ≤ (qdis u).key) ∧
      h'.n = h.n := by
  obtain ⟨v, w, h', hpop, rfl, ht, hmin, hn, hk, hvals⟩ := hs.toTracks.popMin hw
  have hcomp : ∀ u ∈ v ::ₘ w, (qdis u).Comparable := fun u hu ↦
    hs.comparable u (Multiset.mem_of_le hs.smallest.sub (Multiset.mem_add.mpr (Or.inl hu)))
  refine ⟨v, w, h', hpop, rfl, ⟨ht, hs.comparable, ?_, ?_⟩, fun u hu ↦ ?_, hn⟩
  · rw [hk]
    exact hs.ordered.congr fun i _ ↦ (hvals i).symm
  · rw [hn, Multiset.add_cons, ← Multiset.cons_add]
    exact hs.smallest
  · exact (F32.not_lt_iff (hcomp u hu) (hcomp v (Multiset.mem_cons_self _ _))).mp (hmin u hu)

theorem Selects.le_countBelow_iff (hs : Selects qdis h pushed waiting taken) {v m : ℕ}
    (hv : v ∈ pushed) (hm : m ≤ h.n) :
    m ≤ h.countBelow (qdis v) ↔ m ≤ pushed.countP fun u ↦ (qdis u).key < (qdis v).key := by
  have hcount : ∀ {M : Multiset ℕ}, M ≤ pushed →
      M.countP (fun u ↦ qdis u < qdis v) = M.countP fun u ↦ (qdis u).key < (qdis v).key :=
    fun hM ↦ Multiset.countP_congr rfl fun u hu ↦ by
      rw [F32.lt_iff_key (hs.comparable u (Multiset.mem_of_le hM hu)) (hs.comparable v hv)]
  rw [hs.countBelow_eq, hcount hs.smallest.sub,
    hs.smallest.countP_eq (· < (qdis v).key) fun _ _ ↦ lt_of_le_of_lt]
  exact ⟨fun h ↦ h.trans (min_le_right _ _), fun h ↦ le_min hm h⟩

end MinimaxHeap

end FaissNavix
