import FaissNavix.Invlists.InvertedLists
import FaissNavix.Lib.Ownership

/-!
# Lock levels

`LockLevels` guards the file of `OnDiskInvertedLists`.  A thread that works on a list holds the
level-1 lock of the list; to move the list it takes level 2, which one thread can hold; and to remap
the file it takes level 3, for which it waits until all other threads with a level-1 lock wait for
level 2.  A step of the system is a section of code that holds the mutex.  A wait for a condition
variable ends with its loop condition checked under the mutex, so a thread that waits takes its next
step only in a state where the condition is false.
-/

namespace FaissNavix

open Lib

/-- The variables of `LockLevels`. -/
structure LockLevels where
  level1Holders : Finset Int32
  nLevel2 : ℕ
  level3InUse : Bool
  level2InUse : Bool

namespace LockLevels

/-- The constructor. -/
def init : LockLevels where
  level1Holders := ∅
  nLevel2 := 0
  level3InUse := false
  level2InUse := false

variable (l : LockLevels)

/-- The condition of the loop in `lock_1`. -/
def Waits1 (no : Int32) : Prop :=
  l.level3InUse = true ∨ no ∈ l.level1Holders

/-- `lock_1` after its loop. -/
def lock1 (no : Int32) : LockLevels :=
  { l with level1Holders := insert no l.level1Holders }

/-- `unlock_1` -/
def unlock1 (no : Int32) : Except Fault LockLevels := do
  Fault.assert (no ∈ l.level1Holders) "level1_holders.count(no) == 1"
  return { l with level1Holders := l.level1Holders.erase no }

/-- `lock_2` before its loop. -/
def enter2 : LockLevels :=
  { l with nLevel2 := l.nLevel2 + 1 }

/-- The condition of the loop in `lock_2`. -/
def Waits2 : Prop :=
  l.level2InUse = true

/-- `lock_2` after its loop. -/
def lock2 : LockLevels :=
  { l with level2InUse := true }

/-- `unlock_2` -/
def unlock2 : LockLevels :=
  { l with level2InUse := false, nLevel2 := l.nLevel2 - 1 }

/-- `lock_3` before its loop. -/
def enter3 : LockLevels :=
  { l with level3InUse := true }

/-- The condition of the loop in `lock_3`. -/
def Waits3 : Prop :=
  l.nLevel2 < l.level1Holders.card

/-- `unlock_3` -/
def unlock3 : LockLevels :=
  { l with level3InUse := false }

instance (no : Int32) : Decidable (l.Waits1 no) :=
  inferInstanceAs (Decidable (_ ∨ _))

instance : Decidable l.Waits2 :=
  inferInstanceAs (Decidable (_ = _))

instance : Decidable l.Waits3 :=
  inferInstanceAs (Decidable (_ < _))

end LockLevels

/-! ## Threads -/

/-- What a thread is at: `waiting2` and `waiting3` are in the loops of `lock_2` and `lock_3`, and
`level3` is between the return of `lock_3` and `unlock_3`. -/
inductive ThreadState where
  | idle
  | level1 (no : Int32)
  | waiting2 (no : Int32)
  | level2 (no : Int32)
  | waiting3 (no : Int32)
  | level3 (no : Int32)
deriving DecidableEq

namespace ThreadState

/-- The list whose level-1 lock the thread holds. -/
def list : ThreadState → Option Int32
  | idle => none
  | level1 no | waiting2 no | level2 no | waiting3 no | level3 no => some no

/-- The list of a thread that holds level 2 or waits for it. -/
def list2 : ThreadState → Option Int32
  | idle | level1 _ => none
  | waiting2 no | level2 no | waiting3 no | level3 no => some no

/-- The lock of level 2, if the thread holds it. -/
def level2Lock : ThreadState → Option Unit
  | idle | level1 _ | waiting2 _ => none
  | level2 _ | waiting3 _ | level3 _ => some ()

/-- The thread is between the return of `lock_3` and `unlock_3`. -/
def AtLevel3 : ThreadState → Prop
  | idle | level1 _ | waiting2 _ | level2 _ | waiting3 _ => False
  | level3 _ => True

theorem list_eq_of_list2 {st : ThreadState} {no : Int32} (h : st.list2 = some no) :
    st.list = some no := by
  cases st with
  | idle => cases h
  | level1 no => cases h
  | waiting2 no => exact h
  | level2 no => exact h
  | waiting3 no => exact h
  | level3 no => exact h

theorem level2Lock_of_atLevel3 {st : ThreadState} (h : st.AtLevel3) :
    st.level2Lock = some () := by
  cases st with
  | idle => cases h
  | level1 no => cases h
  | waiting2 no => cases h
  | level2 no => cases h
  | waiting3 no => cases h
  | level3 no => rfl

theorem eq_waiting2 {st : ThreadState} {no : Int32} (h : st.list2 = some no)
    (h' : st.level2Lock = none) : st = waiting2 no := by
  cases st with
  | idle => cases h
  | level1 no => cases h
  | waiting2 no =>
      cases h
      rfl
  | level2 no => cases h'
  | waiting3 no => cases h'
  | level3 no => cases h'

end ThreadState

universe u

/-- The locks and the threads.  `mutex` is the thread that holds the mutex between two steps. -/
structure LockSystem (T : Type u) where
  levels : LockLevels
  threads : T → ThreadState
  mutex : Option T

namespace LockSystem

variable {T : Type u}

/-- No thread has called anything. -/
def init : LockSystem T where
  levels := .init
  threads _ := .idle
  mutex := none

variable [DecidableEq T]

section
variable (s : LockSystem T) (t : T) (st : ThreadState) (levels : LockLevels) (mutex : Option T)

/-- Thread `t` moves on. -/
def move :
    LockSystem T where
  levels := levels
  threads := Function.update s.threads t st
  mutex := mutex

theorem move_threads_self : (s.move t st levels mutex).threads t = st :=
  Function.update_self _ _ _

end

theorem move_threads_of_ne (s : LockSystem T) {t t' : T} (h : t' ≠ t) (st : ThreadState)
    (levels : LockLevels) (mutex : Option T) :
    (s.move t st levels mutex).threads t' = s.threads t' :=
  Function.update_of_ne h _ _

/-- A section of code that holds the mutex.  Only `lock_3` returns with the mutex. -/
inductive Step (s : LockSystem T) : LockSystem T → Prop
  | lock1 (t no) : s.mutex = none → s.threads t = .idle → ¬ s.levels.Waits1 no →
      Step s (s.move t (.level1 no) (s.levels.lock1 no) none)
  | unlock1 (t no l) : s.mutex = none → s.threads t = .level1 no → s.levels.unlock1 no = .ok l →
      Step s (s.move t .idle l none)
  | lock2 (t no) : s.mutex = none → s.threads t = .level1 no → ¬ s.levels.enter2.Waits2 →
      Step s (s.move t (.level2 no) s.levels.enter2.lock2 none)
  | wait2 (t no) : s.mutex = none → s.threads t = .level1 no → s.levels.enter2.Waits2 →
      Step s (s.move t (.waiting2 no) s.levels.enter2 none)
  | wake2 (t no) : s.mutex = none → s.threads t = .waiting2 no → ¬ s.levels.Waits2 →
      Step s (s.move t (.level2 no) s.levels.lock2 none)
  | unlock2 (t no) : s.mutex = none → s.threads t = .level2 no →
      Step s (s.move t (.level1 no) s.levels.unlock2 none)
  | lock3 (t no) : s.mutex = none → s.threads t = .level2 no → ¬ s.levels.enter3.Waits3 →
      Step s (s.move t (.level3 no) s.levels.enter3 (some t))
  | wait3 (t no) : s.mutex = none → s.threads t = .level2 no → s.levels.enter3.Waits3 →
      Step s (s.move t (.waiting3 no) s.levels.enter3 none)
  | wake3 (t no) : s.mutex = none → s.threads t = .waiting3 no → ¬ s.levels.Waits3 →
      Step s (s.move t (.level3 no) s.levels (some t))
  | unlock3 (t no) : s.mutex = some t → s.threads t = .level3 no →
      Step s (s.move t (.level2 no) s.levels.unlock3 none)

def Reachable (s : LockSystem T) : Prop :=
  Relation.ReflTransGen Step init s

/-! ## The invariant -/

/-- The locks belong to the threads: level-1 locks, the count of level 2, level 2 itself; and the
mutex is held between two steps by a thread at level 3, which found no level-1 holder that is not
counted. -/
structure Ok (s : LockSystem T) : Prop where
  level1 : Owned (fun t ↦ (s.threads t).list) s.levels.level1Holders
  counted : ∃ held, Owned (fun t ↦ (s.threads t).list2) held ∧ held.card = s.levels.nLevel2
  level2 : Owned (fun t ↦ (s.threads t).level2Lock) (if s.levels.level2InUse then {()} else ∅)
  level3 : ∀ t, (s.threads t).AtLevel3 → s.mutex = some t ∧ ¬ s.levels.Waits3

omit [DecidableEq T] in
theorem ok_init : Ok (init : LockSystem T) where
  level1 := owned_empty
  counted := ⟨∅, owned_empty, rfl⟩
  level2 := owned_empty
  level3 _ := False.elim

variable {s s' : LockSystem T}

theorem update_field {β : Type} (f : ThreadState → β) (s : LockSystem T) (t : T)
    (st : ThreadState) (levels : LockLevels) (mutex : Option T) :
    (fun t' ↦ f ((s.move t st levels mutex).threads t')) =
      Function.update (fun t' ↦ f (s.threads t')) t (f st) := by
  funext t'
  by_cases h : t' = t
  · rw [h, Function.update_self, move_threads_self]
  · rw [Function.update_of_ne h, move_threads_of_ne s h]

theorem Ok.level3_move (h : s.Ok) (hm : s.mutex = none) {t : T} {st : ThreadState}
    (hst : ¬ st.AtLevel3) {levels : LockLevels} :
    ∀ t', ((s.move t st levels none).threads t').AtLevel3 →
      (s.move t st levels none).mutex = some t' ∧ ¬ levels.Waits3 := by
  intro t' ht'
  by_cases htt : t' = t
  · rw [htt, move_threads_self] at ht'
    exact absurd ht' hst
  · rw [move_threads_of_ne s htt] at ht'
    have hmutex := (h.level3 t' ht').1
    rw [hm] at hmutex
    cases hmutex

theorem Ok.level3_lock3 (h : s.Ok) (hm : s.mutex = none) {t : T} {st : ThreadState}
    {levels : LockLevels} (hw : ¬ levels.Waits3) :
    ∀ t', ((s.move t st levels (some t)).threads t').AtLevel3 →
      (s.move t st levels (some t)).mutex = some t' ∧ ¬ levels.Waits3 := by
  intro t' ht'
  by_cases htt : t' = t
  · exact ⟨congrArg some htt.symm, hw⟩
  · rw [move_threads_of_ne s htt] at ht'
    have hmutex := (h.level3 t' ht').1
    rw [hm] at hmutex
    cases hmutex

theorem Ok.move_of_eq (h : s.Ok) {t : T} {st : ThreadState} {levels : LockLevels}
    {mutex : Option T} (hlist : (s.threads t).list = st.list)
    (hlist2 : (s.threads t).list2 = st.list2)
    (hlock : (s.threads t).level2Lock = st.level2Lock)
    (hlevels : levels = { s.levels with level3InUse := levels.level3InUse })
    (hlevel3 : ∀ t', ((s.move t st levels mutex).threads t').AtLevel3 →
      mutex = some t' ∧ ¬ levels.Waits3) : (s.move t st levels mutex).Ok := by
  obtain ⟨held, hheld, hcard⟩ := h.counted
  refine ⟨?_, ⟨held, ?_, ?_⟩, ?_, hlevel3⟩
  · rw [update_field, move, hlevels]
    exact h.level1.keep hlist
  · rw [update_field]
    exact hheld.keep hlist2
  · rw [move, hlevels]
    exact hcard
  · rw [update_field, move, hlevels]
    exact h.level2.keep hlock

theorem Ok.count (h : s.Ok) {t : T} {no : Int32} (ht : s.threads t = .level1 no) :
    ∃ held, Owned (Function.update (fun t ↦ (s.threads t).list2) t (some no)) held ∧
      held.card = s.levels.nLevel2 + 1 := by
  obtain ⟨held, hheld, hcard⟩ := h.counted
  have hlist2 : (s.threads t).list2 = none := by rw [ht, ThreadState.list2]
  have hno : no ∉ held := by
    intro hmem
    obtain ⟨t', ht'⟩ := (hheld.mem_iff no).1 hmem
    have hlist : (s.threads t).list = some no := by rw [ht, ThreadState.list]
    obtain rfl := h.level1.inj t' t no (ThreadState.list_eq_of_list2 ht') hlist
    rw [hlist2] at ht'
    cases ht'
  exact ⟨insert no held, hheld.acquire hlist2 hno, by rw [Finset.card_insert_of_notMem hno, hcard]⟩

theorem Ok.take2 (h : s.Ok) {t : T} (ht : (s.threads t).level2Lock = none)
    (hw : s.levels.level2InUse ≠ true) :
    Owned (Function.update (fun t ↦ (s.threads t).level2Lock) t (some ())) {()} := by
  have hlevel2 := h.level2
  rw [if_neg hw] at hlevel2
  exact hlevel2.acquire ht (Finset.notMem_empty ())

/-- A step keeps the invariant. -/
theorem Ok.step (h : s.Ok) (hs : Step s s') : s'.Ok := by
  obtain ⟨held, hheld, hcard⟩ := h.counted
  cases hs with
  | lock1 t no hm ht hw =>
      refine ⟨?_, ⟨held, ?_, hcard⟩, ?_, h.level3_move hm (by rintro ⟨⟩)⟩
      · rw [update_field]
        exact h.level1.acquire (by rw [ht, ThreadState.list]) fun hno ↦ hw (.inr hno)
      · rw [update_field]
        exact hheld.keep (by rw [ht]; rfl)
      · rw [update_field]
        exact h.level2.keep (by rw [ht]; rfl)
  | unlock1 t no l hm ht hl =>
      obtain ⟨-, -, hl⟩ := Fault.bind_eq_ok.1 hl
      cases hl
      refine ⟨?_, ⟨held, ?_, hcard⟩, ?_, h.level3_move hm (by rintro ⟨⟩)⟩
      · rw [update_field]
        exact h.level1.release (by rw [ht, ThreadState.list])
      · rw [update_field]
        exact hheld.keep (by rw [ht]; rfl)
      · rw [update_field]
        exact h.level2.keep (by rw [ht]; rfl)
  | lock2 t no hm ht hw =>
      refine ⟨?_, ?_, ?_, h.level3_move hm (by rintro ⟨⟩)⟩
      · rw [update_field]
        exact h.level1.keep (by rw [ht]; rfl)
      · rw [update_field]
        exact h.count ht
      · rw [update_field]
        exact h.take2 (by rw [ht]; rfl) hw
  | wait2 t no hm ht hw =>
      refine ⟨?_, ?_, ?_, h.level3_move hm (by rintro ⟨⟩)⟩
      · rw [update_field]
        exact h.level1.keep (by rw [ht]; rfl)
      · rw [update_field]
        exact h.count ht
      · rw [update_field]
        exact h.level2.keep (by rw [ht]; rfl)
  | wake2 t no hm ht hw =>
      refine ⟨?_, ⟨held, ?_, hcard⟩, ?_, h.level3_move hm (by rintro ⟨⟩)⟩
      · rw [update_field]
        exact h.level1.keep (by rw [ht]; rfl)
      · rw [update_field]
        exact hheld.keep (by rw [ht]; rfl)
      · rw [update_field]
        exact h.take2 (by rw [ht]; rfl) hw
  | unlock2 t no hm ht =>
      have hlist2 : (s.threads t).list2 = some no := by rw [ht, ThreadState.list2]
      have hlock : (s.threads t).level2Lock = some () := by rw [ht, ThreadState.level2Lock]
      refine ⟨?_, ⟨held.erase no, ?_, ?_⟩, ?_, h.level3_move hm (by rintro ⟨⟩)⟩
      · rw [update_field]
        exact h.level1.keep (by rw [ht]; rfl)
      · rw [update_field]
        exact hheld.release hlist2
      · rw [Finset.card_erase_of_mem ((hheld.mem_iff no).2 ⟨t, hlist2⟩), hcard]
        rfl
      · rw [update_field]
        have hnone : (if s.levels.level2InUse then {()} else ∅ : Finset Unit).erase () = ∅ := by
          split
          · exact Finset.erase_singleton ()
          · exact Finset.erase_empty ()
        exact hnone ▸ h.level2.release hlock
  | lock3 t no hm ht hw =>
      exact h.move_of_eq (by rw [ht]; rfl) (by rw [ht]; rfl) (by rw [ht]; rfl) rfl
        (h.level3_lock3 hm hw)
  | wait3 t no hm ht hw =>
      exact h.move_of_eq (by rw [ht]; rfl) (by rw [ht]; rfl) (by rw [ht]; rfl) rfl
        (h.level3_move hm (by rintro ⟨⟩))
  | wake3 t no hm ht hw =>
      exact h.move_of_eq (by rw [ht]; rfl) (by rw [ht]; rfl) (by rw [ht]; rfl) rfl
        (h.level3_lock3 hm hw)
  | unlock3 t no hm ht =>
      refine h.move_of_eq (by rw [ht]; rfl) (by rw [ht]; rfl) (by rw [ht]; rfl) rfl fun t' ht' ↦ ?_
      -- the thread with the mutex was the only one at level 3
      by_cases htt : t' = t
      · rw [htt, move_threads_self] at ht'
        exact ht'.elim
      · rw [move_threads_of_ne s htt] at ht'
        exact absurd (Option.some.inj ((h.level3 t' ht').1.symm.trans hm)) htt

theorem Reachable.ok (h : Reachable s) : s.Ok := by
  induction h with
  | refl => exact ok_init
  | tail _ hs ih => exact ih.step hs

/-! ## Exclusion -/

/-- The level-1 lock of a list and level 2 have one holder each, and while a thread may remap the
file all others with a level-1 lock are blocked in `lock_2`. -/
structure Excludes (s : LockSystem T) : Prop where
  level1 : ∀ t t' no, (s.threads t).list = some no → (s.threads t').list = some no → t = t'
  level2 : ∀ t t', (s.threads t).level2Lock = some () → (s.threads t').level2Lock = some () → t = t'
  level3 : ∀ t, (s.threads t).AtLevel3 → ∀ t' ≠ t, ∀ no, (s.threads t').list = some no →
    s.threads t' = .waiting2 no ∧ s.levels.Waits2 ∧ ∀ s', Step s s' → s'.threads t' = s.threads t'

/-- While a thread has the mutex, the others stay where they are. -/
theorem Step.threads_eq (hs : Step s s') {t : T} (hm : s.mutex = some t) {t' : T} (ht' : t' ≠ t) :
    s'.threads t' = s.threads t' := by
  have hlocked : s.mutex ≠ none := fun hnone ↦ by
    rw [hm] at hnone
    cases hnone
  cases hs with
  | lock1 _ _ hnone => exact absurd hnone hlocked
  | unlock1 _ _ _ hnone => exact absurd hnone hlocked
  | lock2 _ _ hnone => exact absurd hnone hlocked
  | wait2 _ _ hnone => exact absurd hnone hlocked
  | wake2 _ _ hnone => exact absurd hnone hlocked
  | unlock2 _ _ hnone => exact absurd hnone hlocked
  | lock3 _ _ hnone => exact absurd hnone hlocked
  | wait3 _ _ hnone => exact absurd hnone hlocked
  | wake3 _ _ hnone => exact absurd hnone hlocked
  | unlock3 _ _ hsome =>
      obtain rfl := Option.some.inj (hm.symm.trans hsome)
      exact move_threads_of_ne s ht' _ _ _

/-- In every state of every interleaving the locks exclude each other. -/
theorem excludes_of_reachable (h : Reachable s) : s.Excludes := by
  have hok := h.ok
  refine ⟨hok.level1.inj, fun t t' ↦ hok.level2.inj t t' (), fun t ht t' htt no hno ↦ ?_⟩
  obtain ⟨hmutex, hw⟩ := hok.level3 t ht
  obtain ⟨held, hheld, hcard⟩ := hok.counted
  have hlock := ThreadState.level2Lock_of_atLevel3 ht
  -- all level-1 holders are counted
  have hlist2 : (s.threads t').list2 = some no :=
    hok.level1.eq_some_of_card_le hheld (fun _ _ ↦ ThreadState.list_eq_of_list2)
      (hcard ▸ not_lt.1 hw) hno
  -- and only `t` has level 2
  have hnone : (s.threads t').level2Lock = none :=
    Option.eq_none_iff_forall_ne_some.2 fun _ hsome ↦ htt (hok.level2.inj t' t () hsome hlock)
  have huse : s.levels.level2InUse = true := by
    by_contra hfree
    have hmem := (hok.level2.mem_iff ()).2 ⟨t, hlock⟩
    rw [if_neg hfree] at hmem
    exact Finset.notMem_empty () hmem
  exact ⟨ThreadState.eq_waiting2 hlist2 hnone, huse, fun _ hs ↦ hs.threads_eq hmutex htt⟩

/-- Threads 0 and 1 lock two lists and call `lock_2`, and thread 0 calls `lock_3`. -/
theorem excludes_of_reachable_two :
    ∃ s : LockSystem ℕ, (s.threads 0).AtLevel3 ∧ s.threads 1 = .waiting2 1 ∧ s.Excludes := by
  have h₀ : Reachable (init : LockSystem ℕ) := .refl
  have h₁ := h₀.tail (.lock1 0 0 rfl rfl (by decide))
  have h₂ := h₁.tail (.lock1 1 1 rfl rfl (by decide))
  have h₃ := h₂.tail (.lock2 0 0 rfl rfl (by decide))
  have h₄ := h₃.tail (.wait2 1 1 rfl rfl (by decide))
  have h₅ := h₄.tail (.lock3 0 0 rfl rfl (by decide))
  refine ⟨_, ?_, ?_, excludes_of_reachable h₅⟩
  · exact trivial
  · rfl

/-! ## Release -/

/-- Between two steps the mutex is held at level 3. -/
theorem Reachable.level3_of_mutex (h : Reachable s) {t : T} (hm : s.mutex = some t) :
    ∃ no, s.threads t = .level3 no := by
  induction h with
  | refl => cases hm
  | tail _ hs _ =>
      cases hs with
      | lock3 t' no =>
          obtain rfl := Option.some.inj hm
          exact ⟨no, move_threads_self ..⟩
      | wake3 t' no =>
          obtain rfl := Option.some.inj hm
          exact ⟨no, move_threads_self ..⟩
      | lock1 => cases hm
      | unlock1 => cases hm
      | lock2 => cases hm
      | wait2 => cases hm
      | wake2 => cases hm
      | unlock2 => cases hm
      | wait3 => cases hm
      | unlock3 => cases hm

/-- The locks of level 1, and the threads counted for level 2. -/
def pending (s : LockSystem T) : ℕ := s.levels.level1Holders.card + s.levels.nLevel2

theorem Ok.unlock2_lt (h : s.Ok) (hm : s.mutex = none) {t : T} {no : Int32} (ht : s.threads t = .level2 no) :
    ∃ s', Step s s' ∧ s'.pending < s.pending := by
  refine ⟨_, .unlock2 t no hm ht, ?_⟩
  obtain ⟨held, hheld, hcard⟩ := h.counted
  have hpos := Finset.card_pos.mpr ⟨no, (hheld.mem_iff no).mpr ⟨t, by rw [ht, ThreadState.list2]⟩⟩
  change s.levels.level1Holders.card + (s.levels.nLevel2 - 1) < s.levels.level1Holders.card + s.levels.nLevel2
  omega

theorem Reachable.unlock3_lt (h : Reachable s) {t : T} {no : Int32} (hm : s.mutex = some t)
    (ht : s.threads t = .level3 no) : ∃ s', Relation.ReflTransGen Step s s' ∧ s'.pending < s.pending := by
  have hstep := Step.unlock3 t no hm ht
  obtain ⟨s', hs', hlt⟩ := (h.ok.step hstep).unlock2_lt rfl (move_threads_self ..)
  exact ⟨s', (Relation.ReflTransGen.single hstep).tail hs', hlt⟩

/-- Some thread can go on until fewer locks are held. -/
theorem Reachable.exists_fewer (h : Reachable s) (hbusy : ∃ t, s.threads t ≠ .idle) :
    ∃ s', Relation.ReflTransGen Step s s' ∧ s'.pending < s.pending := by
  have hok := h.ok
  cases hm : s.mutex with
  | some t =>
      obtain ⟨no, ht⟩ := h.level3_of_mutex hm
      exact h.unlock3_lt hm ht
  | none =>
      by_cases h1 : ∃ t no, s.threads t = .level1 no
      · obtain ⟨t, no, ht⟩ := h1
        have hmem := (hok.level1.mem_iff no).mpr ⟨t, by rw [ht, ThreadState.list]⟩
        refine ⟨_, .single (.unlock1 t no { s.levels with level1Holders := s.levels.level1Holders.erase no } hm ht
          (Fault.bind_eq_ok.mpr ⟨(), if_pos (decide_eq_true hmem), rfl⟩)), ?_⟩
        exact Nat.add_lt_add_right (Finset.card_erase_lt_of_mem hmem) _
      by_cases h2 : ∃ t no, s.threads t = .level2 no
      · obtain ⟨t, no, ht⟩ := h2
        obtain ⟨s', hs', hlt⟩ := hok.unlock2_lt hm ht
        exact ⟨s', .single hs', hlt⟩
      -- all other threads wait
      have hwaits : ∀ t, s.threads t = .idle ∨ (∃ no, s.threads t = .waiting2 no) ∨
          ∃ no, s.threads t = .waiting3 no := fun t ↦ by
        cases ht : s.threads t with
        | idle => exact .inl rfl
        | level1 no => exact absurd ⟨t, no, ht⟩ h1
        | waiting2 no => exact .inr (.inl ⟨no, rfl⟩)
        | level2 no => exact absurd ⟨t, no, ht⟩ h2
        | waiting3 no => exact .inr (.inr ⟨no, rfl⟩)
        | level3 no =>
            have hmutex := (hok.level3 t (by rw [ht]; trivial)).1
            rw [hm] at hmutex
            cases hmutex
      by_cases h3 : ∃ t no, s.threads t = .waiting3 no
      · -- the threads with a lock of level 1 are all counted for level 2
        obtain ⟨t, no, ht⟩ := h3
        obtain ⟨held, hheld, hcard⟩ := hok.counted
        have hsub : s.levels.level1Holders ⊆ held := fun k hk ↦ by
          obtain ⟨t', ht'⟩ := (hok.level1.mem_iff k).mp hk
          refine (hheld.mem_iff k).mpr ⟨t', ?_⟩
          obtain hidle | ⟨no', hno⟩ | ⟨no', hno⟩ := hwaits t'
          · rw [hidle, ThreadState.list] at ht'
            cases ht'
          · rwa [hno] at ht' ⊢
          · rwa [hno] at ht' ⊢
        have hstep := Step.wake3 t no hm ht (not_lt.mpr (hcard ▸ Finset.card_le_card hsub))
        obtain ⟨s', hs', hlt⟩ := Reachable.unlock3_lt (h.tail hstep) rfl (move_threads_self ..)
        exact ⟨s', hs'.head hstep, hlt⟩
      · -- no thread has level 2
        have hfree : ¬ s.levels.Waits2 := fun huse ↦ by
          have howned := hok.level2
          rw [if_pos (id huse : s.levels.level2InUse = true)] at howned
          obtain ⟨t, ht⟩ := (howned.mem_iff ()).mp (Finset.mem_singleton_self ())
          obtain hidle | ⟨no, hno⟩ | ⟨no, hno⟩ := hwaits t
          · rw [hidle] at ht
            cases ht
          · rw [hno] at ht
            cases ht
          · exact h3 ⟨t, no, hno⟩
        obtain ⟨t, ht⟩ := hbusy
        obtain hidle | ⟨no, hno⟩ | hno := hwaits t
        · exact absurd hidle ht
        · have hstep := Step.wake2 t no hm hno hfree
          obtain ⟨s', hs', hlt⟩ := (hok.step hstep).unlock2_lt rfl (move_threads_self ..)
          exact ⟨s', (Relation.ReflTransGen.single hstep).tail hs', hlt⟩
        · exact absurd ⟨t, hno⟩ h3

end LockSystem

end FaissNavix
