import FaissNavix.Invlists.Conserve
import FaissNavix.Lib.Known

/-!
# Lists in a file refine lists in memory

What is known of the lists after some calls are their sizes and the entries that were written and
are still there.  Both kinds of lists have these sizes and entries, the lists in the file as long as
no list lands on itself: a smaller extent is then given to it at the same offset, nothing is copied,
and the ids are read where the codes of removed entries are.
-/

namespace FaissNavix

open Lib

/-- A call that changes the size or the entries of a list. -/
inductive ListCall (nlist codeSize : ℕ) where
  | size (c : SizeCall nlist codeSize)
  | updateEntries (j : Fin nlist) (offset : ℕ) (es : List Entry)
      (codes : ∀ e ∈ es, e.code.length = codeSize)

variable {nlist codeSize : ℕ}

namespace ListCall

/-- What is known of the lists after the call. -/
def write (w : ℕ → List (Option Entry)) : ListCall nlist codeSize → ℕ → List (Option Entry)
  | size (.addEntries j es _) => Function.update w j (w j ++ es.map some)
  | size (.resize j n) => Function.update w j (Lib.resize n (w j))
  | updateEntries j offset es _ => Function.update w j (Lib.put offset es (w j))

def Within (w : ℕ → List (Option Entry)) : ListCall nlist codeSize → Prop
  | size _ => True
  | updateEntries j offset es _ => es.length + offset ≤ (w j).length

/-- The call on lists in memory. -/
def runArray (a : ArrayInvertedLists) : ListCall nlist codeSize → Except Fault ArrayInvertedLists
  | size (.addEntries j es _) => .ok (a.addEntries j es).1
  | size (.resize j n) => .ok (a.resize j n)
  | updateEntries j offset es _ => a.updateEntries j offset es

/-- The call on lists in a file. -/
def runOnDisk (s : OnDiskInvertedLists) :
    ListCall nlist codeSize → Except Fault OnDiskInvertedLists
  | size c => c.run s
  | updateEntries j offset es _ => s.updateEntries j offset es

def LandsOnItself (s : OnDiskInvertedLists) : ListCall nlist codeSize → Prop
  | size c => s.LandsOnItself c.list (c.newSize s)
  | updateEntries _ _ _ _ => False

end ListCall

theorem known_update {w : ℕ → List (Option Entry)} {size size' : ℕ → ℕ}
    {entry entry' : ℕ → ℕ → Entry} (h : ∀ k, Known (w k) (size k) (entry k)) {j : ℕ}
    {xs : List (Option Entry)} (hj : Known xs (size' j) (entry' j))
    (hsize : ∀ k ≠ j, size' k = size k) (hentry : ∀ k ≠ j, ∀ i < size k, entry' k i = entry k i) :
    ∀ k, Known (Function.update w j xs k) (size' k) (entry' k) := by
  intro k
  by_cases hk : k = j
  · rw [hk, Function.update_self]
    exact hj
  · rw [Function.update_of_ne hk, hsize k hk]
    exact (h k).congr (hentry k hk)

/-! ## Lists in memory -/

namespace ArrayInvertedLists

variable {a : ArrayInvertedLists} {w : ℕ → List (Option Entry)}

/-- Entry `i` of list `j`. -/
def entry (a : ArrayInvertedLists) (j i : ℕ) : Entry :=
  (a.lists j).getD i (blank a.codeSize)

def Refines (w : ℕ → List (Option Entry)) (a : ArrayInvertedLists) : Prop :=
  ∀ j, Known (w j) (a.listSize j) (a.entry j)

theorem refines_empty (nlist codeSize : ℕ) : Refines (fun _ ↦ []) (empty nlist codeSize) :=
  fun _ ↦ known_nil _

theorem Refines.setList (h : Refines w a) {j : ℕ} {xs : List (Option Entry)} {es : List Entry}
    (hj : Known xs es.length fun i ↦ es.getD i (blank a.codeSize)) :
    Refines (Function.update w j xs) (a.setList j es) := by
  have hself : (a.setList j es).lists j = es := by rw [setList_lists, if_pos rfl]
  refine known_update h ?_ (fun k hk ↦ ?_) fun k hk i _ ↦ ?_
  · have hentry : (a.setList j es).entry j = fun i ↦ es.getD i (blank a.codeSize) := by
      funext i
      rw [entry, hself, setList_codeSize]
    rw [listSize, hself, hentry]
    exact hj
  · rw [listSize, setList_lists, if_neg hk, listSize]
  · rw [entry, setList_lists, if_neg hk, setList_codeSize, entry]

/-- A call keeps what is known. -/
theorem Refines.run (h : Refines w a) {c : ListCall nlist codeSize} (hc : c.Within w) :
    ∃ a', c.runArray a = .ok a' ∧ Refines (c.write w) a' := by
  cases c with
  | size c =>
      cases c with
      | addEntries j es codes =>
          refine ⟨_, rfl, ?_⟩
          rw [addEntries_fst]
          refine h.setList ?_
          rw [List.length_append, Nat.add_comm]
          refine (h j).append (fun i hi ↦ List.getD_append _ _ _ _ hi) fun i hi ↦ ?_
          rw [listSize, List.getD_append_right _ _ _ _ (Nat.le_add_right _ _),
            Nat.add_sub_cancel_left, List.getD_eq_getElem _ _ hi]
          rfl
      | resize j n =>
          refine ⟨_, rfl, h.setList ?_⟩
          rw [List.length_append, List.length_take, List.length_replicate]
          have hlen : min n (a.lists j).length + (n - a.listSize j) = n := by
            rw [listSize]
            omega
          rw [hlen]
          refine (h j).resize fun i hi ↦ ?_
          rw [listSize] at hi
          rw [List.getD_append _ _ _ _ (by rwa [List.length_take]), entry,
            List.getD_eq_getElem?_getD,
            List.getElem?_take_of_lt (hi.trans_le (Nat.min_le_left _ _)),
            List.getD_eq_getElem?_getD]
  | updateEntries j offset es codes =>
      have hle : es.length + offset ≤ a.listSize j := (h j).size_eq.symm ▸ hc
      refine ⟨a.setList j ((a.lists j).take offset ++ es ++ (a.lists j).drop (offset + es.length)),
        ?_, h.setList ?_⟩
      · rw [ListCall.runArray, ArrayInvertedLists.updateEntries, decide_eq_true hle]
        rfl
      · have htake : ((a.lists j).take offset).length = offset := by
          rw [List.length_take]
          rw [listSize] at hle
          omega
        have hfront : ((a.lists j).take offset ++ es).length = offset + es.length := by
          rw [List.length_append, htake]
        have hlen : ((a.lists j).take offset ++ es ++
            (a.lists j).drop (offset + es.length)).length = a.listSize j := by
          rw [List.length_append, hfront, List.length_drop, listSize]
          rw [listSize] at hle
          omega
        rw [hlen]
        refine (h j).put (by omega) (fun i hi ↦ ?_) fun i hi hout ↦ ?_
        · rw [List.getD_append _ _ _ _ (by omega), List.getD_append_right _ _ _ _ (by omega), htake,
            Nat.add_sub_cancel_left, List.getD_eq_getElem _ _ hi]
          rfl
        · rw [entry]
          obtain hlt | hge := hout
          · rw [List.getD_append _ _ _ _ (by omega), List.getD_append _ _ _ _ (by omega),
              List.getD_eq_getElem?_getD, List.getElem?_take_of_lt hlt,
              List.getD_eq_getElem?_getD]
          · rw [List.getD_append_right _ _ _ _ (by omega), hfront, List.getD_eq_getElem?_getD,
              List.getElem?_drop, Nat.add_sub_cancel' hge, List.getD_eq_getElem?_getD]

end ArrayInvertedLists

/-! ## Lists in a file -/

namespace OnDiskInvertedLists

variable {s s' : OnDiskInvertedLists} {w : ℕ → List (Option Entry)}

/-- What is known of the lists, in a well-formed layout. -/
structure Refines (codeSize : ℕ) (w : ℕ → List (Option Entry)) (s : OnDiskInvertedLists) :
    Prop where
  wellFormed : s.WellFormed
  codeSize_eq : s.codeSize = codeSize
  known : ∀ j, Known (w j) (s.listSize j) (s.entry j)

theorem refines_empty (nlist codeSize : ℕ) :
    Refines codeSize (fun _ ↦ []) (empty nlist codeSize) :=
  ⟨wellFormed_empty nlist codeSize, rfl, fun _ ↦ known_nil _⟩

theorem Refines.resized (h : Refines codeSize w s) {j n : ℕ} (hr : Resized s s' j n) :
    Refines codeSize (Function.update w j (Lib.resize n (w j))) s' where
  wellFormed := hr.wellFormed
  codeSize_eq := hr.codeSize_eq.trans h.codeSize_eq
  known := by
    refine known_update h.known ?_ hr.size_of_ne hr.entry_of_ne
    rw [hr.size_eq]
    exact (h.known j).resize hr.entry_eq

/-- Entries are written within the size of a list. -/
theorem Refines.writeEntries (h : Refines codeSize w s) {j offset : ℕ} {es : List Entry}
    (hcodes : ∀ e ∈ es, e.code.length = codeSize) (hle : es.length + offset ≤ s.listSize j) :
    Refines codeSize (Function.update w j (Lib.put offset es (w j)))
      (s.setPtr (FaissNavix.writeEntries s.codeSize s.ptr ((s.lists j).offset.getD 0)
        (s.lists j).capacity offset es)) := by
  rw [← h.codeSize_eq] at hcodes
  by_cases hes : es = []
  · rw [hes, writeEntries_nil, Lib.put_nil, Function.update_eq_self]
    exact h
  · have hsize := (h.wellFormed.lists j).size_le
    have hlen := List.length_pos_of_ne_nil hes
    have hcap : offset + es.length ≤ (s.lists j).capacity := by
      rw [listSize] at hle
      omega
    obtain ⟨o, ho⟩ := Option.ne_none_iff_exists'.1 fun hnone ↦ by
      have := (h.wellFormed.lists j).offset_eq_none.1 hnone
      omega
    have hentry : ∀ m i, (s.setPtr m).entry j i =
        extentEntry s.codeSize m o (s.lists j).capacity i := fun m i ↦
      entry_eq (s := s.setPtr m) rfl ho i
    rw [ho, Option.getD_some]
    refine ⟨h.wellFormed.setPtr _, h.codeSize_eq, ?_⟩
    refine known_update h.known ?_ (fun k _ ↦ rfl) fun k hk i hi ↦ ?_
    · refine (h.known j).put (by omega) (fun i hi ↦ ?_) fun i hi hout ↦ ?_
      · rw [hentry]
        exact extentEntry_writeEntries hcodes hcap hi
      · rw [hentry, entry_eq rfl ho]
        exact extentEntry_writeEntries_of_not hcodes hcap (hi.trans_le hsize) hout
    · refine h.wellFormed.entry_congr rfl rfl (hi.trans_le (h.wellFormed.lists k).size_le)
        fun a ha ↦ writeEntries_of_outside hcodes hcap ?_
      by_contra hin
      exact hk (h.wellFormed.disjoint k j a ha ⟨o, ho, by omega, by omega⟩)

/-- A call that gives no list a smaller extent at its own offset keeps what is known. -/
theorem Refines.run (h : Refines codeSize w s) (hcs : 0 < codeSize)
    {c : ListCall nlist codeSize} (hc : c.Within w) (hland : ¬ c.LandsOnItself s) :
    ∃ s', c.runOnDisk s = .ok s' ∧ Refines codeSize (c.write w) s' := by
  cases c with
  | size c =>
      obtain ⟨s', hs', hr⟩ := h.wellFormed.resizeLocked (h.codeSize_eq.symm ▸ hcs) hland
      refine ⟨_, SizeCall.run_eq h.wellFormed hs' hr.wellFormed hr.size_eq, ?_⟩
      cases c with
      | addEntries j es codes =>
          have h' : Refines codeSize (Function.update w j
              (Lib.resize (es.length + s.listSize j) (w j))) s' := h.resized hr
          have hfits : es.length + s.listSize j ≤ s'.listSize j := hr.size_eq.ge
          have hput := h'.writeEntries codes hfits
          rw [Function.update_self, Function.update_idem] at hput
          have heq : Lib.put (s.listSize j) es (Lib.resize (es.length + s.listSize j) (w j)) =
              w j ++ es.map some := by
            rw [(h.known j).size_eq, put_resize]
          rw [ListCall.write, ← heq]
          exact hput
      | resize j n =>
          rw [SizeCall.entries, writeEntries_nil]
          exact h.resized hr
  | updateEntries j offset es codes =>
      have hle : es.length + offset ≤ s.listSize j := (h.known j).size_eq.symm ▸ hc
      exact ⟨_, h.wellFormed.updateEntries hle, h.writeEntries codes hle⟩

end OnDiskInvertedLists

/-! ## Runs -/

section
variable (calls : List (ListCall nlist codeSize))

def written : ℕ → List (Option Entry) :=
  calls.foldl ListCall.write fun _ ↦ []

def runArrayCalls : Except Fault ArrayInvertedLists :=
  calls.foldlM ListCall.runArray (.empty nlist codeSize)

def runOnDiskCalls : Except Fault OnDiskInvertedLists :=
  calls.foldlM ListCall.runOnDisk (.empty nlist codeSize)

def WithinSizes : Prop :=
  EachStep (fun before c ↦ c.Within (written before)) calls

def NeverLandsOnItself : Prop :=
  EachStep (fun before c ↦ ∀ s, runOnDiskCalls before = .ok s → ¬ c.LandsOnItself s) calls

/-- The lists of both kinds have the same sizes, and the entries that were written and are still
there. -/
def Agree : Prop :=
  ∃ a s, runArrayCalls calls = .ok a ∧ runOnDiskCalls calls = .ok s ∧ ∀ j < nlist,
    s.listSize j = a.listSize j ∧
      ∀ i e, (written calls j)[i]? = some (some e) → (a.lists j)[i]? = some e ∧ s.entry j i = e

theorem written_concat (c : ListCall nlist codeSize) :
    written (calls ++ [c]) = c.write (written calls) := by
  rw [written, List.foldl_append]
  rfl

end

/-- Both runs return and refine what is known. -/
theorem exists_refines {nlist codeSize : ℕ} (hcs : 0 < codeSize)
    {calls : List (ListCall nlist codeSize)} (hwithin : WithinSizes calls)
    (hland : NeverLandsOnItself calls) :
    ∃ a s, runArrayCalls calls = .ok a ∧ runOnDiskCalls calls = .ok s ∧
      a.Refines (written calls) ∧ s.Refines codeSize (written calls) := by
  refine EachStep.induct (motive := fun calls ↦ ∃ a s, runArrayCalls calls = .ok a ∧
    runOnDiskCalls calls = .ok s ∧ a.Refines (written calls) ∧
      s.Refines codeSize (written calls)) (hwithin.and hland) ?_ ?_
  · exact ⟨_, _, rfl, rfl, ArrayInvertedLists.refines_empty _ _,
      OnDiskInvertedLists.refines_empty _ _⟩
  · rintro calls c ⟨a, s, ha, hs, hra, hrs⟩ ⟨hc, hland⟩
    obtain ⟨a', ha', hra'⟩ := hra.run hc
    obtain ⟨s', hs', hrs'⟩ := hrs.run hcs hc (hland s hs)
    refine ⟨a', s', ?_, ?_, ?_, ?_⟩
    · rw [runArrayCalls, foldlM_concat, ← runArrayCalls, ha]
      exact ha'
    · rw [runOnDiskCalls, foldlM_concat, ← runOnDiskCalls, hs]
      exact hs'
    · rw [written_concat]
      exact hra'
    · rw [written_concat]
      exact hrs'

/-- As long as no call gives a list a smaller extent at its own offset, both runs return, with the
same sizes and the entries that were written. -/
theorem agree_of_neverLandsOnItself {nlist codeSize : ℕ} (hcs : 0 < codeSize)
    {calls : List (ListCall nlist codeSize)} (hwithin : WithinSizes calls)
    (hland : NeverLandsOnItself calls) : Agree calls := by
  obtain ⟨a, s, ha, hs, hra, hrs⟩ := exists_refines hcs hwithin hland
  refine ⟨a, s, ha, hs, fun j _ ↦ ⟨(hrs.known j).size_eq.trans (hra j).size_eq.symm,
    fun i e he ↦ ⟨?_, (hrs.known j).eq_of_some i e he⟩⟩⟩
  have hi : i < (a.lists j).length :=
    (List.getElem?_eq_some_iff.1 he).1.trans_eq (hra j).size_eq.symm
  have hentry : (a.lists j).getD i (ArrayInvertedLists.blank a.codeSize) = e :=
    (hra j).eq_of_some i e he
  rw [List.getD_eq_getElem _ _ hi] at hentry
  rw [List.getElem?_eq_getElem hi, hentry]

/-- `n` equal entries are added to the only list. -/
def addOnes (n : ℕ) : ListCall 1 1 :=
  .size (.addEntries 0 (List.replicate n ⟨1, [0]⟩) fun e he ↦ by
    rw [List.eq_of_mem_replicate he]
    rfl)

theorem withinSizes_of_size {calls : List (ListCall nlist codeSize)}
    (h : ∀ c ∈ calls, ∃ d, c = .size d) : WithinSizes calls := by
  refine EachStep.of_forall_mem fun c hc before ↦ ?_
  obtain ⟨d, rfl⟩ := h c hc
  exact trivial

theorem not_landsOnItself_addOnes {before : List (ListCall 1 1)} {n : ℕ}
    (h : (runOnDiskCalls before).map (fun s ↦ decide ((s.lists 0).capacity <
      s.extentSize (doubleTo (n + s.listSize 0) (n + s.listSize 0) 1))) = .ok true) :
    ∀ s, runOnDiskCalls before = .ok s → ¬ (addOnes n).LandsOnItself s := by
  rintro s hs ⟨o, -, -, -, hle, -⟩
  rw [hs] at h
  have hlt := of_decide_eq_true (Except.ok.inj h)
  rw [SizeCall.newSize, List.length_replicate] at hle
  exact absurd hlt hle.not_gt

theorem agree_of_neverLandsOnItself_addOnes : Agree [addOnes 1, addOnes 1] := by
  refine agree_of_neverLandsOnItself Nat.one_pos (withinSizes_of_size fun c hc ↦ ?_) ?_
  · obtain rfl | hc := List.mem_cons.1 hc
    · exact ⟨_, rfl⟩
    · rw [List.eq_of_mem_singleton hc]
      exact ⟨_, rfl⟩
  · change EachStep _ (([] ++ [addOnes 1]) ++ [addOnes 1])
    refine eachStep_concat.2 ⟨?_, not_landsOnItself_addOnes rfl⟩
    exact eachStep_concat.2 ⟨eachStep_nil, not_landsOnItself_addOnes rfl⟩

/-- Nine entries are added to a list, and all but one removed: the first byte of the ids is then
that of the second code. -/
theorem not_forall_agree :
    ¬ ∀ (nlist codeSize : ℕ) (calls : List (ListCall nlist codeSize)),
      0 < codeSize → WithinSizes calls → Agree calls := by
  intro h
  have hwithin : WithinSizes [addOnes 9, .size (.resize 0 1)] := withinSizes_of_size fun c hc ↦ by
    obtain rfl | hc := List.mem_cons.1 hc
    · exact ⟨_, rfl⟩
    · rw [List.eq_of_mem_singleton hc]
      exact ⟨_, rfl⟩
  obtain ⟨a, s, -, hs, hagree⟩ := h 1 1 _ Nat.one_pos hwithin
  have hentry : (runOnDiskCalls [addOnes 9, .size (.resize 0 1)]).map (fun s ↦ s.entry 0 0) =
      .ok ⟨0, [0]⟩ := rfl
  have hwritten : (written [addOnes 9, .size (.resize 0 1)] 0)[0]? = some (some ⟨1, [0]⟩) := rfl
  rw [hs] at hentry
  have hid : (⟨1, [0]⟩ : Entry) = ⟨0, [0]⟩ :=
    ((hagree 0 Nat.one_pos).2 0 _ hwritten).2.symm.trans (Except.ok.inj hentry)
  exact absurd hid (by decide)

end FaissNavix
