import FaissNavix.HNSW.Candidates
import FaissNavix.Lib.Loop

/-!
# The candidate heap as a double-ended queue

Over any sequence of calls, the candidate heap keeps the `n` smallest of the values pushed since it
was last cleared, whether their entries are taken out or not, as a max-heap.  The entries taken out
no longer have their ids, so that the order by distance and id that `heap_push` and `heap_pop` use
is lost; the order by distance alone survives.
-/

namespace FaissNavix

open Function
open Lib

namespace MinimaxHeap

/-- The calls that change the heap. -/
inductive HeapOp where
  | push (i : ℕ) (v : F32)
  | popMin
  | clear

/-- The heap after a call.  `pop_min` is called when `size()` is positive. -/
def apply (h : MinimaxHeap) : HeapOp → Option MinimaxHeap
  | .push i v => some (h.push i v)
  | .popMin => if 0 < h.size then h.popMin.map fun r ↦ r.2.2 else none
  | .clear => some h.clear

/-- The values pushed since the last `clear`. -/
def pushed : List HeapOp → Multiset F32 :=
  List.foldl (fun values op ↦
    match op with
    | .push _ v => v ::ₘ values
    | .popMin => values
    | .clear => 0) 0

def values (h : MinimaxHeap) : Multiset F32 := h.content.map Prod.fst

def live (h : MinimaxHeap) : Finset ℕ := (Finset.range h.k).filter fun i ↦ (h.heap i).2 ≠ -1

/-- The heap holds the `n` smallest of the values in `S`. -/
structure Best (n : ℕ) (h : MinimaxHeap) (S : Multiset F32) : Prop where
  valid : h.Valid
  n_eq : h.n = n
  ordered : HeapOrdered F32.key h.k h.heap
  smallest : KSmallest F32.key n S h.values

variable {n : ℕ} {h h' : MinimaxHeap} {S : Multiset F32}

@[simp] theorem pushed_append_push (ops : List HeapOp) (i : ℕ) (v : F32) :
    pushed (ops ++ [.push i v]) = v ::ₘ pushed ops := by
  simp [pushed]

@[simp] theorem pushed_append_popMin (ops : List HeapOp) :
    pushed (ops ++ [.popMin]) = pushed ops := by
  simp [pushed]

@[simp] theorem pushed_append_clear (ops : List HeapOp) : pushed (ops ++ [.clear]) = 0 := by
  simp [pushed]

theorem mem_live {i : ℕ} : i ∈ h.live ↔ i < h.k ∧ (h.heap i).2 ≠ -1 := by
  simp [live]

theorem Valid.nvalid_eq_card (hv : h.Valid) : h.nvalid = h.live.card := by
  rw [hv.nvalid_eq, content, entries_eq_coe_range, Multiset.coe_countP, List.countP_map,
    List.countP_eq_length_filter, live]
  rfl

theorem best_new (n : ℕ) : Best n (new n) 0 where
  valid := valid_new n
  n_eq := rfl
  ordered := fun i h1 h2 ↦ absurd h2 (by simp only [new]; omega)
  smallest := KSmallest.self (Nat.zero_le _)

/-! ## One call -/

@[simp] theorem card_values (h : MinimaxHeap) : h.values.card = h.k := by
  rw [values, Multiset.card_map, card_content]

theorem Best.comparable (hb : Best n h S) (hS : ∀ v ∈ S, v.Comparable) {x : F32 × ℤ}
    (hx : x ∈ h.content) : x.1.Comparable :=
  hS _ (Multiset.mem_of_le hb.smallest.sub (Multiset.mem_map_of_mem _ hx))

/-- A push on a full heap drops a largest value, the new one or the one on top. -/
theorem Best.push (hb : Best n h S) (hn : 1 ≤ n) (hS : ∀ v ∈ S, v.Comparable) (i : ℕ) {v : F32}
    (hv : v.Comparable) : Best n (h.push i v) (v ::ₘ S) := by
  have hcontent := fun x ↦ hb.comparable hS (x := x)
  have hpos : 1 ≤ h.n := by rw [hb.n_eq]; exact hn
  have hsmallest := hb.smallest
  have hcard := h.card_values
  have hle := hb.valid.le
  have hnh := hb.n_eq
  refine ⟨hb.valid.push hpos i v, by rw [n_push, hb.n_eq],
    heapOrdered_push hb.ordered hpos hcontent hv i, ?_⟩
  have htop : ∀ y ∈ h.values, y.key ≤ (h.heap 0).1.key := by
    intro y hy
    obtain ⟨x, hx, rfl⟩ := Multiset.mem_map.mp hy
    exact hb.ordered.le_top hx
  rcases push_cases hb.valid hpos i v with ⟨hk, hc⟩ | ⟨hk, hlev, hkeep⟩ | ⟨hk, hlev, hc⟩
  · -- there is room
    rw [values, hc, Multiset.map_cons]
    refine hsmallest.cons_of_card_lt ?_
    have := hsmallest.card_eq
    omega
  · -- the new value is no smaller than the largest one
    rw [hkeep]
    exact hsmallest.cons_of_le (by omega) fun y hy ↦
      (htop y hy).trans (F32.le_iff.mp hlev).2.2
  · -- the entry on top makes way
    have h0 : (h.heap 0).1.Comparable := hcontent _ (mem_entries.mpr ⟨0, by omega, rfl⟩)
    have hvals := congrArg (Multiset.map Prod.fst) hc
    rw [Multiset.map_cons, Multiset.map_cons] at hvals
    refine hsmallest.cons_drop (by omega) hvals.symm fun y hy ↦ ?_
    rcases Multiset.mem_cons.mp hy with rfl | hy
    · rw [F32.le_iff_key h0 hv, not_le] at hlev
      exact hlev.le
    · exact htop y hy

/-- `pop_min` takes out a live entry whose distance is minimal, and nothing else. -/
theorem Valid.popMin_eq (hv : h.Valid) (hsize : 0 < h.size) :
    ∃ imin ∈ h.live, (∀ i ∈ h.live, ¬ (h.heap i).1 < (h.heap imin).1) ∧
      h.popMin = some ((h.heap imin).2, (h.heap imin).1, h.takeOut imin) := by
  have hpos : 0 < h.live.card := by rw [← hv.nvalid_eq_card]; exact hsize
  obtain ⟨j, hj⟩ := Finset.card_pos.mp hpos
  obtain ⟨hjk, hjr⟩ := mem_live.mp hj
  rcases popMinStep_foldl h (List.range h.k).reverse with ⟨-, hall⟩ | ⟨m, hm, hsome, hreal, hmin⟩
  · exact absurd (hall j (by simpa using hjk)) hjr
  · refine ⟨m, mem_live.mpr ⟨by simpa using hm, hreal⟩, fun i hi ↦ ?_, by rw [popMin, hsome]; rfl⟩
    exact hmin i (by simpa using (mem_live.mp hi).1) (mem_live.mp hi).2

theorem Best.popped {id : ℤ} {d : F32} (hb : Best n h S) (hp : Popped h id d h') :
    Best n h' S where
  valid := hp.valid hb.valid
  n_eq := by rw [hp.n_eq, hb.n_eq]
  ordered := by
    rw [hp.k_eq]
    exact hb.ordered.congr fun i _ ↦ (hp.values i).symm
  smallest := by
    obtain ⟨R, hR, hR'⟩ := hp.content
    have hvalues : h'.values = h.values := by
      rw [values, values, hR, hR', Multiset.map_cons, Multiset.map_cons]
    rw [hvalues]
    exact hb.smallest

theorem Best.clear (hb : Best n h S) : Best n h.clear 0 where
  valid := ⟨Nat.zero_le _, rfl⟩
  n_eq := hb.n_eq
  ordered := fun i h1 h2 ↦ absurd h2 (by simp only [MinimaxHeap.clear]; omega)
  smallest := KSmallest.self (Nat.zero_le _)

/-! ## A run -/

/-- The heap after any calls holds the best of the values pushed. -/
theorem best_of_run (hn : 1 ≤ n) {ops : List HeapOp}
    (hops : ∀ i v, HeapOp.push i v ∈ ops → v.Comparable)
    (hrun : ops.foldlM apply (new n) = some h) :
    Best n h (pushed ops) ∧ ∀ v ∈ pushed ops, v.Comparable := by
  induction ops using List.reverseRecOn generalizing h with
  | nil =>
      obtain rfl := Option.some.inj hrun
      exact ⟨best_new n, fun v hv ↦ absurd hv (Multiset.notMem_zero v)⟩
  | append_singleton ops op ih =>
      rw [List.foldlM_append] at hrun
      obtain ⟨h₁, hrun₁, hlast⟩ := Option.bind_eq_some_iff.mp hrun
      obtain ⟨h₂, hop, hend⟩ := Option.bind_eq_some_iff.mp hlast
      obtain rfl := Option.some.inj hend
      obtain ⟨hb, hc⟩ := ih (fun i v hmem ↦ hops i v (List.mem_append_left _ hmem)) hrun₁
      cases op with
      | push i v =>
          obtain rfl := Option.some.inj hop
          have hv : v.Comparable := hops i v (by simp)
          rw [pushed_append_push]
          exact ⟨hb.push hn hc i hv, Multiset.forall_mem_cons.mpr ⟨hv, hc⟩⟩
      | popMin =>
          rw [apply] at hop
          split at hop
          · rename_i hsize
            obtain ⟨id, d, h', hpop, hp⟩ := popMin_spec hb.valid hsize
            rw [hpop] at hop
            obtain rfl := Option.some.inj hop
            rw [pushed_append_popMin]
            exact ⟨hb.popped hp, hc⟩
          · exact absurd hop (by simp)
      | clear =>
          obtain rfl := Option.some.inj hop
          rw [pushed_append_clear]
          exact ⟨hb.clear, fun v hv ↦ absurd hv (Multiset.notMem_zero v)⟩

/-- After any calls the distances are a max-heap, they are the `n` smallest values pushed since the
last `clear`, and `nvalid` is the number of the entries that are not taken out.  If there is one,
`pop_min` takes out one of the smallest of them, and changes nothing else. -/
theorem doubleEnded_of_run (hn : 1 ≤ n) {ops : List HeapOp}
    (hops : ∀ i v, HeapOp.push i v ∈ ops → v.Comparable)
    (hrun : ops.foldlM apply (new n) = some h) :
    HeapOrdered F32.key h.k h.heap ∧
      KSmallest F32.key n (pushed ops) h.values ∧
      h.values.card = min n (pushed ops).card ∧
      h.nvalid = h.live.card ∧
      (0 < h.size → ∃ imin ∈ h.live, (∀ i ∈ h.live, ¬ (h.heap i).1 < (h.heap imin).1) ∧
        h.popMin = some ((h.heap imin).2, (h.heap imin).1,
          { h with
            nvalid := h.nvalid - 1
            heap := update h.heap imin ((h.heap imin).1, -1) })) := by
  obtain ⟨hb, -⟩ := best_of_run hn hops hrun
  exact ⟨hb.ordered, hb.smallest, hb.smallest.card_eq, hb.valid.nvalid_eq_card, hb.valid.popMin_eq⟩

/-- Room for two: the smallest value is taken out, still counts, and the second one is dropped. -/
theorem doubleEnded_of_run_two :
    ∃ h, [HeapOp.push 5 ⟨3⟩, .push 6 ⟨1⟩, .popMin, .push 7 ⟨2⟩].foldlM apply (new 2) = some h ∧
      h.values.card = 2 ∧ h.nvalid = h.live.card := by
  have hops : ∀ i v, HeapOp.push i v ∈ [HeapOp.push 5 ⟨3⟩, .push 6 ⟨1⟩, .popMin, .push 7 ⟨2⟩] →
      v.Comparable := by
    intro i v hv
    simp only [List.mem_cons, HeapOp.push.injEq, reduceCtorEq, false_or, List.not_mem_nil,
      or_false] at hv
    rcases hv with ⟨-, rfl⟩ | ⟨-, rfl⟩ | ⟨-, rfl⟩ <;> rfl
  have hrun := doubleEnded_of_run (by decide : 1 ≤ 2) hops rfl
  exact ⟨_, rfl, hrun.2.2.1, hrun.2.2.2.1⟩

end MinimaxHeap

end FaissNavix
