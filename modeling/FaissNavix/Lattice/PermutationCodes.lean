import FaissNavix.Lattice.Arrangements
import Mathlib.Data.Nat.ModEq

/-!
# Permutation codes are a bijection

The loops of `Repeats` over the slots compute one digit of a code: upwards with `comb(rank, occ + 1)` for the slots of
a value, and downwards by looking for the largest `comb(next_rank, n - occ)` that is left.  Both versions of the loops
go through the same slots, those that are free.
-/

namespace FaissNavix

open Lib (rankOf ofRank rankUp scanList scanBits)

variable {α γ : Type} [DecidableEq α] {cs : List α} {r : Repeat α} {rs : List (Repeat α)}

/-! ## Binomial coefficients -/

theorem combTab_eq (n p : ℕ) : combTab n p = n.choose p % 2 ^ 64 := by
  induction n generalizing p with
  | zero =>
      cases p with
      | zero => rfl
      | succ p => rfl
  | succ n ih =>
      cases p with
      | zero =>
          rw [combTab, Nat.choose_zero_right]
          rfl
      | succ p => rw [combTab, ih, ih, ← Nat.add_mod, Nat.choose_succ_succ, Nat.add_comm]

theorem comb_eq {n p : ℕ} (hn : n < 100) (hp : p < 100) : comb n p = some (n.choose p % 2 ^ 64) := by
  rw [comb, if_pos ⟨hn, hp⟩]
  split
  · next hlt =>
      rw [Nat.choose_eq_zero_of_lt hlt]
      rfl
  · rw [combTab_eq]

theorem comb_eq_choose {n p : ℕ} (hn : n < 100) (hp : p < 100) (h : n.choose p < 2 ^ 64) :
    comb n p = some (n.choose p) := by
  rw [comb_eq hn hp, Nat.mod_eq_of_lt h]

/-- `decode_comb_1` finds the largest coefficient that is not above the code. -/
theorem decodeComb1_eq {code k m : ℕ} (hm : m < 100) (hk : k < 100) (hfit : m.choose k < 2 ^ 64)
    (hpos : 0 < k) (hcode : code < m.choose k) :
    ∃ next, decodeComb1 code k m = some next ∧ next.1 < m ∧ next.2 + next.1.choose k = code ∧
      code < (next.1 + 1).choose k := by
  induction m with
  | zero =>
      rw [Nat.choose_eq_zero_of_lt hpos] at hcode
      exact absurd hcode (Nat.not_lt_zero code)
  | succ m ih =>
      have hle : m.choose k ≤ (m + 1).choose k := Nat.choose_le_choose k (Nat.le_succ m)
      rw [decodeComb1, comb_eq_choose hm hk hfit, Option.bind_some, if_pos hcode]
      rcases Nat.lt_or_ge code (m.choose k) with hlt | hge
      · obtain ⟨next, hnext, hm', hrest⟩ := ih (Nat.lt_of_succ_lt hm) (hle.trans_lt hfit) hlt
        exact ⟨next, hnext, Nat.lt_succ_of_lt hm', hrest⟩
      · refine ⟨(m, code - m.choose k), ?_, Nat.lt_succ_self m, Nat.sub_add_cancel hge, hcode⟩
        have hcomb := comb_eq_choose (Nat.lt_of_succ_lt hm) hk (hle.trans_lt hfit)
        cases m with
        | zero => rw [decodeComb1, hcomb, Option.bind_some, if_neg (not_lt.mpr hge)]
        | succ m => rw [decodeComb1, hcomb, Option.bind_some, if_neg (not_lt.mpr hge)]

/-! ## Scanning the slots -/

/-- The slots of a set, after one of them is added. -/
def InsertsSlot (insert : γ → ℕ → γ) (mem : γ → ℕ → Bool) (dim : ℕ) : Prop :=
  ∀ set i, i < dim → ∀ j, mem (insert set i) j = (mem set j || decide (j = i))

variable {insert : γ → ℕ → γ} {mem : γ → ℕ → Bool} {dim : ℕ}

/-- The loop over the free slots adds up the digit. -/
theorem scanList_encodeSlot (hslots : InsertsSlot insert mem dim) {F : List ℕ} {s : EncodeSlots γ} (hF : ∀ i ∈ F, i < dim)
    (hdim : dim = cs.length) (hrank : s.rank + F.length < 100) (hocc : s.occ ≤ s.rank) (hcode : s.codeComb < 2 ^ 64)
    (hcount : s.occ + F.countP (isVal cs r.val) = r.n) (hleft : s.occ < r.n) :
    ∃ t, scanList (encodeSlot insert cs r) F s = some (t, true) ∧
      t.codeComb = (s.codeComb + rankUp s.rank s.occ (F.map (isVal cs r.val))) % 2 ^ 64 ∧
      ∀ j, mem t.coded j = (mem s.coded j || (decide (j ∈ F) && isVal cs r.val j)) := by
  induction F generalizing s with
  | nil =>
      rw [List.countP_nil, Nat.add_zero] at hcount
      exact absurd hcount hleft.ne
  | cons i F ih =>
      rw [List.length_cons] at hrank
      have hi := hF i List.mem_cons_self
      have hmem : ∀ j, (decide (j ∈ i :: F) && isVal cs r.val j) =
          ((decide (j = i) && isVal cs r.val i) || (decide (j ∈ F) && isVal cs r.val j)) := by
        intro j
        by_cases hji : j = i
        · subst hji
          simp
        · simp [hji]
      have hget : cs[i]? = some (cs.get ⟨i, hdim ▸ hi⟩) := List.getElem?_eq_getElem (hdim ▸ hi)
      have hF' : ∀ j ∈ F, j < dim := fun j hj ↦ hF j (List.mem_cons_of_mem i hj)
      rw [scanList, encodeSlot, hget, Option.bind_some]
      by_cases hval : cs.get ⟨i, hdim ▸ hi⟩ = r.val
      · have hisVal : isVal cs r.val i = true := decide_eq_true (hget.trans (congrArg some hval))
        rw [List.countP_cons_of_pos hisVal] at hcount
        rw [if_pos hval, comb_eq (by omega) (by omega), Option.map_some, Option.bind_some, List.map_cons, hisVal,
          rankUp]
        dsimp only
        by_cases hlast : s.occ + 1 = r.n
        · -- none of the slots behind has the value
          have hzero : (F.map (isVal cs r.val)).count true = 0 := by
            rw [count_map]
            omega
          have hnone : ∀ j, (decide (j ∈ F) && isVal cs r.val j) = false := by
            intro j
            have hcountP : F.countP (isVal cs r.val) = 0 := by omega
            by_cases hj : j ∈ F
            · rw [Bool.eq_false_iff.mpr (List.countP_eq_zero.mp hcountP j hj), Bool.and_false]
            · rw [decide_eq_false hj, Bool.false_and]
          rw [if_pos hlast, if_pos rfl]
          refine ⟨_, rfl, ?_, fun j ↦ ?_⟩
          · dsimp only
            rw [Lib.rankUp_of_count_eq_zero hzero, Nat.add_mod_mod]
            rfl
          · dsimp only
            rw [hslots _ _ hi, hmem, hnone, hisVal, Bool.and_true, Bool.or_false]
        · rw [if_neg hlast, if_neg Bool.false_ne_true]
          obtain ⟨t, ht, hcomb, hset⟩ := ih (s := ⟨s.rank + 1, s.occ + 1,
            (s.codeComb + s.rank.choose (s.occ + 1) % 2 ^ 64) % 2 ^ 64, insert s.coded i⟩) hF' (by dsimp only; omega)
            (by dsimp only; omega) (Nat.mod_lt _ (by decide)) (by dsimp only; omega) (by dsimp only; omega)
          refine ⟨t, ht, ?_, fun j ↦ ?_⟩
          · rw [hcomb]
            dsimp only
            rw [Nat.add_mod_mod, Nat.mod_add_mod, Nat.add_assoc]
          · rw [hset, hslots _ _ hi, hmem, hisVal, Bool.and_true, Bool.or_assoc]
      · have hisVal : isVal cs r.val i = false := decide_eq_false fun h ↦ hval (Option.some.inj (hget.symm.trans h))
        rw [List.countP_cons_of_neg (by rw [hisVal]; exact Bool.false_ne_true)] at hcount
        rw [if_neg hval, Option.bind_some, if_neg Bool.false_ne_true, List.map_cons, hisVal, rankUp]
        obtain ⟨t, ht, hcomb, hset⟩ := ih (s := ⟨s.rank + 1, s.occ, s.codeComb, s.coded⟩) hF' (by dsimp only; omega)
          (by dsimp only; omega) hcode hcount hleft
        refine ⟨t, ht, hcomb, fun j ↦ ?_⟩
        rw [hset, hmem, hisVal, Bool.and_false, Bool.false_or]

omit [DecidableEq α] in
/-- The loop over the free slots, from the last one on, finds the slots of the digit: the next one that is selected
has `nextRank` slots before it. -/
theorem scanList_decodeSlot (hslots : InsertsSlot insert mem dim) {D : List ℕ} {s : DecodeSlots α γ} {p : ℕ → Bool}
    {k digit : ℕ} (hD : ∀ i ∈ D, i < dim) (hdim : dim = s.c.length) (hrank : s.rank = D.length)
    (hlen : D.length < 100) (hk : k < 100) (hocc : s.occ + (k + 1) = r.n) (hnext : s.nextRank < D.length)
    (hcomb : s.codeComb + s.nextRank.choose (k + 1) = digit) (hdigit : digit < (s.nextRank + 1).choose (k + 1))
    (hfit : (s.nextRank + 1).choose (k + 1) < 2 ^ 64) (hp : D.map p = ofRank D.length (k + 1) digit) :
    ∃ t, scanList (decodeSlot insert r) D s = some (t, true) ∧ t.c = setAll s.c r.val (D.filter p) ∧
      ∀ j, mem t.decoded j = (mem s.decoded j || (decide (j ∈ D) && p j)) := by
  induction D generalizing s k digit with
  | nil => exact absurd hnext (Nat.not_lt_zero _)
  | cons i D ih =>
      rw [List.length_cons] at hrank hlen hnext hp
      have hi := hD i List.mem_cons_self
      have hD' : ∀ j ∈ D, j < dim := fun j hj ↦ hD j (List.mem_cons_of_mem i hj)
      have hmem : ∀ j, (decide (j ∈ i :: D) && p j) = ((decide (j = i) && p i) || (decide (j ∈ D) && p j)) := by
        intro j
        by_cases hji : j = i
        · subst hji
          simp
        · simp [hji]
      rw [scanList, decodeSlot]
      dsimp only
      rw [hrank, Nat.add_sub_cancel]
      rw [List.map_cons, ofRank] at hp
      by_cases hhere : D.length = s.nextRank
      · -- the slot is selected
        rw [if_pos (by rw [hhere]; omega)] at hp
        obtain ⟨hpi, hrest⟩ := List.cons.inj hp
        rw [Nat.add_sub_cancel, show digit - D.length.choose (k + 1) = s.codeComb by rw [hhere]; omega] at hrest
        have hlt : s.codeComb < D.length.choose k := by
          rw [Nat.choose_succ_succ', ← hcomb, ← hhere] at hdigit
          omega
        rw [if_pos hhere, if_pos (hdim ▸ hi), List.filter_cons_of_pos hpi]
        by_cases hlast : s.occ + 1 = r.n
        · obtain rfl : k = 0 := by omega
          rw [if_pos hlast, Option.bind_some, if_pos rfl]
          have hzero : D.countP p = 0 := by rw [← count_map, hrest, Lib.count_ofRank hlt]
          refine ⟨_, rfl, ?_, fun j ↦ ?_⟩
          · rw [List.filter_eq_nil_iff.mpr (List.countP_eq_zero.mp hzero)]
            rfl
          · have hnone : (decide (j ∈ D) && p j) = false := by
              by_cases hj : j ∈ D
              · rw [Bool.eq_false_iff.mpr (List.countP_eq_zero.mp hzero j hj), Bool.and_false]
              · rw [decide_eq_false hj, Bool.false_and]
            dsimp only
            rw [hslots _ _ hi, hmem, hnone, hpi, Bool.and_true, Bool.or_false]
        · obtain ⟨k, rfl⟩ := Nat.exists_eq_succ_of_ne_zero (show k ≠ 0 by omega)
          have hle : s.nextRank.choose (k + 1) ≤ (s.nextRank + 1).choose (k + 1 + 1) := by
            rw [Nat.choose_succ_succ']
            exact Nat.le_add_right _ _
          obtain ⟨next, hdecode, hlow, hsum, hhigh⟩ := decodeComb1_eq (by omega : s.nextRank < 100)
            (by omega : k + 1 < 100) (hle.trans_lt hfit) (Nat.succ_pos k) (hhere ▸ hlt)
          rw [if_neg hlast, show r.n - (s.occ + 1) = k + 1 by omega, hdecode, Option.map_some, Option.bind_some,
            if_neg Bool.false_ne_true]
          have hfit' : (next.1 + 1).choose (k + 1) < 2 ^ 64 :=
            ((Nat.choose_le_choose (k + 1) hlow).trans hle).trans_lt hfit
          obtain ⟨t, ht, hc, hset⟩ := ih (s := ⟨D.length, s.occ + 1, next.1, next.2, insert s.decoded i,
            s.c.set i r.val⟩) hD' (by rw [List.length_set, hdim]) rfl (by omega) (by omega) (by dsimp only; omega)
            (hhere ▸ hlow) hsum hhigh hfit' hrest
          refine ⟨t, ht, hc, fun j ↦ ?_⟩
          rw [hset, hslots _ _ hi, hmem, hpi, Bool.and_true, Bool.or_assoc]
      · -- the slot is not selected
        have hmore : digit < D.length.choose (k + 1) :=
          hdigit.trans_le (Nat.choose_le_choose (k + 1) (show s.nextRank + 1 ≤ D.length by omega))
        rw [if_neg (not_le.mpr hmore)] at hp
        obtain ⟨hpi, hrest⟩ := List.cons.inj hp
        rw [if_neg hhere, Option.bind_some, if_neg Bool.false_ne_true,
          List.filter_cons_of_neg (by rw [hpi]; exact Bool.false_ne_true)]
        obtain ⟨t, ht, hc, hset⟩ := ih (s := ⟨D.length, s.occ, s.nextRank, s.codeComb, s.decoded, s.c⟩) hD' hdim rfl
          (by omega) hk hocc (show s.nextRank < D.length by omega) hcomb hdigit hfit hrest
        refine ⟨t, ht, hc, fun j ↦ ?_⟩
        rw [hset, hmem, hpi, Bool.and_false, Bool.false_or]

/-! ## The loop over the values -/

def freeSlots (mem : γ → ℕ → Bool) (dim : ℕ) (set : γ) : List ℕ := (List.range dim).filter fun i ↦ !mem set i

theorem lt_of_mem_freeSlots {set : γ} {i : ℕ} (hi : i ∈ freeSlots mem dim set) : i < dim :=
  List.mem_range.mp (List.mem_of_mem_filter hi)

theorem freeSlots_eq_filter {set set' : γ} {p : ℕ → Bool}
    (h : ∀ j, mem set' j = (mem set j || (decide (j ∈ freeSlots mem dim set) && p j))) :
    freeSlots mem dim set' = (freeSlots mem dim set).filter fun i ↦ !p i := by
  rw [freeSlots, freeSlots, List.filter_filter]
  refine List.filter_congr fun j hj ↦ ?_
  rw [h j]
  cases hset : mem set j with
  | true => rw [Bool.true_or, Bool.not_true, Bool.and_false]
  | false =>
      have hfree : j ∈ freeSlots mem dim set := List.mem_filter.mpr ⟨hj, by rw [hset]; rfl⟩
      rw [decide_eq_true hfree, Bool.true_and, Bool.false_or, Bool.not_false, Bool.and_true]

/-- What the loop over the slots does when it encodes. -/
def ScansEncode (mem : γ → ℕ → Bool) (dim : ℕ) (cs : List α) (scan : Repeat α → γ → Option (EncodeSlots γ)) : Prop :=
  ∀ r coded, 0 < r.n → (freeSlots mem dim coded).countP (isVal cs r.val) = r.n →
    ∃ t, scan r coded = some t ∧
      t.codeComb = rankOf ((freeSlots mem dim coded).map (isVal cs r.val)).reverse % 2 ^ 64 ∧
      ∀ j, mem t.coded j = (mem coded j || (decide (j ∈ freeSlots mem dim coded) && isVal cs r.val j))

/-- The loop over the values puts the digits together. -/
theorem foldlM_encodeValue {scan : Repeat α → γ → Option (EncodeSlots γ)} (hscan : ScansEncode mem dim cs scan)
    {s : EncodeValues γ} (h : Arranged cs rs (freeSlots mem dim s.coded))
    (hnfree : s.nfree = (freeSlots mem dim s.coded).length) (hlen : s.nfree < 100) (hcode : s.code < 2 ^ 64) :
    ∃ t, rs.foldlM (encodeValue scan) s = some t ∧
      t.code = (s.code + s.shift * codeOf cs rs (freeSlots mem dim s.coded)) % 2 ^ 64 := by
  induction rs generalizing s with
  | nil => exact ⟨s, rfl, by rw [codeOf, Nat.mul_zero, Nat.add_zero, Nat.mod_eq_of_lt hcode]⟩
  | cons r rs ih =>
      obtain ⟨hpos, hcount, hrest⟩ := h
      have hle : r.n ≤ s.nfree := by
        rw [hnfree, ← hcount]
        exact List.countP_le_length
      obtain ⟨t, ht, hcomb, hset⟩ := hscan r s.coded hpos hcount
      have hfree := freeSlots_eq_filter hset
      have hstep : encodeValue scan s r = some ⟨t.coded, s.nfree - r.n, (s.code + s.shift * t.codeComb) % 2 ^ 64,
          s.shift * (s.nfree.choose r.n % 2 ^ 64) % 2 ^ 64⟩ := by
        rw [encodeValue, ht, Option.bind_some, comb_eq hlen (hle.trans_lt hlen), Option.map_some]
      have hleft : s.nfree - r.n = (freeSlots mem dim t.coded).length := by
        rw [hfree, length_filter_not, hcount, hnfree]
      obtain ⟨t', ht', hcode'⟩ := ih (s := ⟨t.coded, s.nfree - r.n, (s.code + s.shift * t.codeComb) % 2 ^ 64,
        s.shift * (s.nfree.choose r.n % 2 ^ 64) % 2 ^ 64⟩) (hfree ▸ hrest) hleft (by dsimp only; omega)
        (Nat.mod_lt _ (by decide))
      refine ⟨t', ?_, ?_⟩
      · rw [List.foldlM_cons, hstep]
        exact ht'
      · rw [hcode', codeOf, hcomb, hfree, ← hnfree, Nat.mul_add, ← Nat.mul_assoc, ← Nat.add_assoc]
        exact Nat.ModEq.add ((Nat.mod_modEq _ _).trans (((Nat.mod_modEq _ _).mul_left _).add_left _))
          (((Nat.mod_modEq _ _).trans ((Nat.mod_modEq _ _).mul_left _)).mul_right _)

/-- What the loop over the slots does when it decodes a digit. -/
def ScansDecode (mem : γ → ℕ → Bool) (dim : ℕ)
    (scan : Repeat α → DecodeSlots α γ → Option (DecodeSlots α γ)) : Prop :=
  ∀ r s digit, dim = s.c.length → s.rank = (freeSlots mem dim s.decoded).length → s.rank < 100 → 0 < r.n →
    r.n ≤ s.rank → s.occ = 0 → s.nextRank < s.rank → s.codeComb + s.nextRank.choose r.n = digit →
    digit < (s.nextRank + 1).choose r.n → s.rank.choose r.n < 2 ^ 64 → (∀ j, dim ≤ j → mem s.decoded j = false) →
    ∃ t, scan r s = some t ∧
      t.c = setAll s.c r.val ((freeSlots mem dim s.decoded).filter
        (inDigit (freeSlots mem dim s.decoded) r.n digit)).reverse ∧
      ∀ j, mem t.decoded j = (mem s.decoded j ||
        (decide (j ∈ freeSlots mem dim s.decoded) && inDigit (freeSlots mem dim s.decoded) r.n digit j))

omit [DecidableEq α] in
/-- The loop over the values takes the digits apart. -/
theorem foldlM_decodeValue {scan : Repeat α → DecodeSlots α γ → Option (DecodeSlots α γ)}
    (hscan : ScansDecode mem dim scan) {s : DecodeValues α γ} (hpos : ∀ r ∈ rs, 0 < r.n)
    (hsum : (rs.map Repeat.n).sum = s.nfree) (hdim : dim = s.c.length)
    (hnfree : s.nfree = (freeSlots mem dim s.decoded).length) (hlen : s.nfree < 100)
    (hfit : arrangements rs s.nfree < 2 ^ 64) (hout : ∀ j, dim ≤ j → mem s.decoded j = false) :
    ∃ t, rs.foldlM (decodeValue scan) s = some t ∧
      t.c = vectorOf rs (freeSlots mem dim s.decoded) s.code s.c := by
  induction rs generalizing s with
  | nil => exact ⟨s, rfl, rfl⟩
  | cons r rs ih =>
      rw [List.map_cons, List.sum_cons] at hsum
      rw [arrangements] at hfit
      have hrest : 0 < arrangements rs (s.nfree - r.n) := arrangements_pos (by omega)
      have hchoose : 0 < s.nfree.choose r.n := Nat.choose_pos (by omega)
      have hfitChoose : s.nfree.choose r.n < 2 ^ 64 := (Nat.le_mul_of_pos_right _ hrest).trans_lt hfit
      have hfitRest : arrangements rs (s.nfree - r.n) < 2 ^ 64 := (Nat.le_mul_of_pos_left _ hchoose).trans_lt hfit
      have hdigit := Nat.mod_lt s.code hchoose
      obtain ⟨next, hdecode, hlow, hdigitSum, hhigh⟩ := decodeComb1_eq hlen (by omega : r.n < 100) hfitChoose
        (hpos r List.mem_cons_self) hdigit
      obtain ⟨t, ht, hc, hset⟩ := hscan r ⟨s.nfree, 0, next.1, next.2, s.decoded, s.c⟩ _ hdim hnfree hlen
        (hpos r List.mem_cons_self) (show r.n ≤ s.nfree by omega) rfl hlow hdigitSum hhigh hfitChoose hout
      dsimp only at hc hset
      have hfree := freeSlots_eq_filter hset
      have hstep : decodeValue scan s r = some ⟨t.decoded, s.nfree - r.n, s.code / s.nfree.choose r.n, t.c⟩ := by
        rw [decodeValue, comb_eq_choose hlen (by omega) hfitChoose, Option.bind_some, if_neg hchoose.ne', hdecode,
          Option.bind_some, ht, Option.map_some]
      have hnodup : (freeSlots mem dim s.decoded).Nodup := List.nodup_range.filter _
      have hleft : s.nfree - r.n = (freeSlots mem dim t.decoded).length := by
        rw [hfree, length_filter_not, countP_inDigit hnodup (hnfree ▸ hdigit), hnfree]
      have hout' : ∀ j, dim ≤ j → mem t.decoded j = false := by
        intro j hj
        have hnot : j ∉ freeSlots mem dim s.decoded := fun h ↦
          absurd (lt_of_mem_freeSlots h) (not_lt.mpr hj)
        rw [hset, hout j hj, decide_eq_false hnot, Bool.false_and, Bool.or_false]
      obtain ⟨t', ht', hc'⟩ := ih (s := ⟨t.decoded, s.nfree - r.n, s.code / s.nfree.choose r.n, t.c⟩)
        (fun r' hr' ↦ hpos r' (List.mem_cons_of_mem r hr')) (by dsimp only; omega)
        (by rw [hc, length_setAll, hdim]) hleft (by dsimp only; omega) hfitRest hout'
      refine ⟨t', ?_, ?_⟩
      · rw [List.foldlM_cons, hstep]
        exact ht'
      · rw [hc', vectorOf, hfree, hc, ← hnfree]

/-! ## The slots in a `std::vector<bool>` -/

theorem insertsSlot_bool : InsertsSlot insertBool (fun (set : ℕ → Bool) j ↦ set j) dim := by
  intro set i _ j
  dsimp only
  by_cases hji : j = i
  · subst hji
    rw [insertBool, Function.update_self, decide_eq_true rfl, Bool.or_true]
  · rw [insertBool, Function.update_of_ne hji, decide_eq_false hji, Bool.or_false]

theorem encodeSlot_coded {s : EncodeSlots γ} {i : ℕ} {t : EncodeSlots γ × Bool}
    (h : encodeSlot insert cs r s i = some t) : t.1.coded = s.coded ∨ t.1.coded = insert s.coded i := by
  obtain ⟨v, -, h⟩ := Option.bind_eq_some_iff.mp h
  split at h
  · obtain ⟨k, -, h⟩ := Option.map_eq_some_iff.mp h
    dsimp only at h
    split at h
    · exact Or.inr (h ▸ rfl)
    · exact Or.inr (h ▸ rfl)
  · exact Or.inl (Option.some.inj h ▸ rfl)

omit [DecidableEq α] in
theorem decodeSlot_decoded {s : DecodeSlots α γ} {i : ℕ} {t : DecodeSlots α γ × Bool}
    (h : decodeSlot insert r s i = some t) : t.1.decoded = s.decoded ∨ t.1.decoded = insert s.decoded i := by
  rw [decodeSlot] at h
  dsimp only at h
  split at h
  · split at h
    · split at h
      · exact Or.inr (Option.some.inj h ▸ rfl)
      · obtain ⟨next, -, h⟩ := Option.map_eq_some_iff.mp h
        exact Or.inr (h ▸ rfl)
    · cases h
  · exact Or.inl (Option.some.inj h ▸ rfl)

/-- A loop that starts with no slot of the value has the digit in the end. -/
theorem exists_encodeSlots (hslots : InsertsSlot insert mem dim) (hdim : dim = cs.length) (hlt : dim < 100)
    {coded : γ} (hpos : 0 < r.n) (hcount : (freeSlots mem dim coded).countP (isVal cs r.val) = r.n) :
    ∃ t, scanList (encodeSlot insert cs r) (freeSlots mem dim coded) ⟨0, 0, 0, coded⟩ = some (t, true) ∧
      t.codeComb = rankOf ((freeSlots mem dim coded).map (isVal cs r.val)).reverse % 2 ^ 64 ∧
      ∀ j, mem t.coded j = (mem coded j || (decide (j ∈ freeSlots mem dim coded) && isVal cs r.val j)) := by
  have hlen : (freeSlots mem dim coded).length ≤ dim := by
    have hle := List.length_filter_le (fun i ↦ !mem coded i) (List.range dim)
    rwa [List.length_range] at hle
  have hF : ∀ i ∈ freeSlots mem dim coded, i < dim := fun i hi ↦ lt_of_mem_freeSlots hi
  obtain ⟨t, ht, hcomb, hset⟩ := scanList_encodeSlot (r := r) (s := ⟨0, 0, 0, coded⟩) hslots hF hdim
    (by dsimp only; omega) (Nat.le_refl 0) (Nat.two_pow_pos 64) (by rw [hcount, Nat.zero_add]) hpos
  refine ⟨t, ht, ?_, hset⟩
  rw [hcomb, Nat.zero_add, Lib.rankUp_zero]

omit [DecidableEq α] in
/-- A loop that starts with the first step of a digit finds its slots. -/
theorem exists_decodeSlots (hslots : InsertsSlot insert mem dim) {s : DecodeSlots α γ} {digit : ℕ}
    (hdim : dim = s.c.length) (hrank : s.rank = (freeSlots mem dim s.decoded).length) (hlen : s.rank < 100)
    (hpos : 0 < r.n) (hle : r.n ≤ s.rank) (hocc : s.occ = 0) (hnext : s.nextRank < s.rank)
    (hcomb : s.codeComb + s.nextRank.choose r.n = digit) (hdigit : digit < (s.nextRank + 1).choose r.n)
    (hfit : s.rank.choose r.n < 2 ^ 64) :
    ∃ t, scanList (decodeSlot insert r) (freeSlots mem dim s.decoded).reverse s = some (t, true) ∧
      t.c = setAll s.c r.val ((freeSlots mem dim s.decoded).filter
        (inDigit (freeSlots mem dim s.decoded) r.n digit)).reverse ∧
      ∀ j, mem t.decoded j = (mem s.decoded j ||
        (decide (j ∈ freeSlots mem dim s.decoded) && inDigit (freeSlots mem dim s.decoded) r.n digit j)) := by
  have hnodup : (freeSlots mem dim s.decoded).Nodup := List.nodup_range.filter _
  obtain ⟨k, hk⟩ := Nat.exists_eq_succ_of_ne_zero hpos.ne'
  have hp : (freeSlots mem dim s.decoded).reverse.map (inDigit (freeSlots mem dim s.decoded) r.n digit) =
      ofRank (freeSlots mem dim s.decoded).reverse.length (k + 1) digit := by
    rw [List.map_reverse, map_inDigit hnodup, List.reverse_reverse, List.length_reverse, hk]
  rw [hk] at hcomb hdigit hfit
  obtain ⟨t, ht, hc, hset⟩ := scanList_decodeSlot hslots
    (fun i hi ↦ lt_of_mem_freeSlots (List.mem_reverse.mp hi)) hdim
    (by rw [List.length_reverse, hrank]) (by rw [List.length_reverse, ← hrank]; exact hlen) (by omega)
    (by rw [hocc, hk, Nat.zero_add]) (by rwa [List.length_reverse, ← hrank]) hcomb hdigit
    ((Nat.choose_le_choose (k + 1) hnext).trans_lt hfit) hp
  refine ⟨t, ht, ?_, fun j ↦ ?_⟩
  · rw [hc, List.filter_reverse]
  · rw [hset]
    simp only [List.mem_reverse]

theorem scansEncode_bool (hdim : dim = cs.length) (hlt : dim < 100) :
    ScansEncode (fun (set : ℕ → Bool) j ↦ set j) dim cs (encodeBoolSlots dim cs) := by
  intro r coded hpos hcount
  obtain ⟨t, ht, hrest⟩ := exists_encodeSlots insertsSlot_bool hdim hlt hpos hcount
  refine ⟨t, ?_, hrest⟩
  have hkeep : ∀ (s : EncodeSlots (ℕ → Bool)) i t, encodeSlot insertBool cs r s i = some t →
      ∀ j, j ≠ i → t.1.coded j = s.coded j := by
    intro s i t ht j hji
    rcases encodeSlot_coded ht with h | h
    · rw [h]
    · rw [h, insertBool, Function.update_of_ne hji]
  have hskip : scanList (fun (s : EncodeSlots (ℕ → Bool)) i ↦
      if s.coded i then some (s, false) else encodeSlot insertBool cs r s i) (List.range dim) ⟨0, 0, 0, coded⟩ =
      scanList (encodeSlot insertBool cs r) (freeSlots (fun (set : ℕ → Bool) j ↦ set j) dim coded)
        ⟨0, 0, 0, coded⟩ :=
    Lib.scanList_skip (fun s i ↦ s.coded i) coded List.nodup_range (fun s i ↦ rfl) hkeep fun i _ ↦ rfl
  rw [encodeBoolSlots, hskip, ht]
  rfl

omit [DecidableEq α] in
theorem scansDecode_bool :
    ScansDecode (fun (set : ℕ → Bool) j ↦ set j) dim
      (decodeBoolSlots dim : Repeat α → DecodeSlots α (ℕ → Bool) → Option (DecodeSlots α (ℕ → Bool))) := by
  intro r s digit hdim hrank hlen hpos hle hocc hnext hcomb hdigit hfit _
  obtain ⟨t, ht, hrest⟩ := exists_decodeSlots insertsSlot_bool hdim hrank hlen hpos hle hocc hnext hcomb hdigit hfit
  refine ⟨t, ?_, hrest⟩
  have hkeep : ∀ (s : DecodeSlots α (ℕ → Bool)) i t, decodeSlot insertBool r s i = some t →
      ∀ j, j ≠ i → t.1.decoded j = s.decoded j := by
    intro s i t ht j hji
    rcases decodeSlot_decoded ht with h | h
    · rw [h]
    · rw [h, insertBool, Function.update_of_ne hji]
  have hskip : scanList (fun (s : DecodeSlots α (ℕ → Bool)) i ↦
      if s.decoded i then some (s, false) else decodeSlot insertBool r s i) (List.range dim).reverse s =
      scanList (decodeSlot insertBool r) ((List.range dim).reverse.filter fun i ↦ !s.decoded i) s :=
    Lib.scanList_skip (fun s i ↦ s.decoded i) s.decoded (List.nodup_reverse.mpr List.nodup_range) (fun s i ↦ rfl)
      hkeep fun i _ ↦ rfl
  rw [decodeBoolSlots, hskip, List.filter_reverse]
  exact congrArg (Option.map Prod.fst) ht

/-! ## The slots in a word -/

theorem insertsSlot_bit (hdim : dim ≤ 64) : InsertsSlot insertBit BitVec.getLsbD dim := fun set _ hi j ↦
  Lib.getLsbD_insert set (hi.trans_le hdim) j

theorem filter_range_of_le {m : ℕ} (hdim : dim ≤ m) (p : ℕ → Bool) :
    ∃ js, (List.range m).filter p = (List.range dim).filter p ++ js ∧ ∀ j ∈ js, dim ≤ j ∧ p j = true := by
  obtain ⟨k, rfl⟩ := Nat.exists_eq_add_of_le hdim
  refine ⟨((List.range k).map (dim + ·)).filter p, ?_, fun j hj ↦ ?_⟩
  · rw [List.range_add, List.filter_append]
  · obtain ⟨hj, hp⟩ := List.mem_filter.mp hj
    obtain ⟨i, -, rfl⟩ := List.mem_map.mp hj
    exact ⟨Nat.le_add_right dim i, hp⟩

theorem scansEncode_bit (hdim : dim = cs.length) (hlt : dim < 64) :
    ScansEncode BitVec.getLsbD dim cs (encodeBitSlots cs) := by
  intro r coded hpos hcount
  obtain ⟨t, ht, hrest⟩ := exists_encodeSlots (insertsSlot_bit hlt.le) hdim (by omega) hpos hcount
  refine ⟨t, ?_, hrest⟩
  obtain ⟨js, hjs, -⟩ := filter_range_of_le hlt.le fun i ↦ !coded.getLsbD i
  have hfree : ((List.range 64).filter fun i ↦ (~~~coded).getLsbD i) = freeSlots BitVec.getLsbD dim coded ++ js := by
    refine Eq.trans (List.filter_congr fun i hi ↦ ?_) hjs
    rw [BitVec.getLsbD_not, decide_eq_true (List.mem_range.mp hi), Bool.true_and]
  refine Lib.scanBits_eq List.nodup_range ?_ ((List.length_filter_le _ _).trans_eq List.length_range)
  rw [hfree]
  exact Lib.scanList_append ht js

omit [DecidableEq α] in
theorem scansDecode_bit (hlt : dim < 64) :
    ScansDecode BitVec.getLsbD dim
      (decodeBitSlots dim : Repeat α → DecodeSlots α (BitVec 64) → Option (DecodeSlots α (BitVec 64))) := by
  intro r s digit hdim hrank hlen hpos hle hocc hnext hcomb hdigit hfit hout
  obtain ⟨t, ht, hrest⟩ := exists_decodeSlots (insertsSlot_bit hlt.le) hdim hrank hlen hpos hle hocc hnext hcomb
    hdigit hfit
  refine ⟨t, ?_, hrest⟩
  have hbit : ∀ i, (((1#64 <<< dim) - 1#64) ^^^ s.decoded).getLsbD i = (decide (i < dim) && !s.decoded.getLsbD i) := by
    intro i
    rw [BitVec.getLsbD_xor, Lib.getLsbD_low hlt]
    by_cases hi : i < dim
    · rw [decide_eq_true hi, Bool.true_xor, Bool.true_and]
    · rw [decide_eq_false hi, hout i (not_lt.mp hi)]
      rfl
  obtain ⟨js, hjs, hlate⟩ := filter_range_of_le hlt.le fun i ↦ decide (i < dim) && !s.decoded.getLsbD i
  obtain rfl : js = [] := List.eq_nil_iff_forall_not_mem.mpr fun j hj ↦ by
    obtain ⟨hge, hp⟩ := hlate j hj
    rw [decide_eq_false (not_lt.mpr hge)] at hp
    exact Bool.false_ne_true hp
  have hfree : ((List.range 64).reverse.filter fun i ↦ (((1#64 <<< dim) - 1#64) ^^^ s.decoded).getLsbD i) =
      (freeSlots BitVec.getLsbD dim s.decoded).reverse := by
    rw [funext hbit, List.filter_reverse, hjs, List.append_nil]
    refine congrArg List.reverse (List.filter_congr fun i hi ↦ ?_)
    rw [decide_eq_true (List.mem_range.mp hi), Bool.true_and]
  refine Lib.scanBits_eq (List.nodup_reverse.mpr List.nodup_range) (hfree.symm ▸ ht) ?_
  refine (List.length_filter_le _ _).trans_eq ?_
  rw [List.length_reverse, List.length_range]

/-! ## Codes and permutations -/

section Template

variable {t : List α}

omit [DecidableEq α] in
/-- The loop of `count` multiplies the numbers of selections. -/
theorem foldlM_count {s : ℕ × ℕ} (hlen : s.2 < 100) (hsum : (rs.map Repeat.n).sum ≤ s.2) (hcount : s.1 < 2 ^ 64) :
    (rs.foldlM (fun (s : ℕ × ℕ) r ↦ (comb s.2 r.n).map fun k ↦ (s.1 * k % 2 ^ 64, s.2 - r.n)) s).map Prod.fst =
      some (s.1 * arrangements rs s.2 % 2 ^ 64) := by
  induction rs generalizing s with
  | nil =>
      rw [arrangements, Nat.mul_one, Nat.mod_eq_of_lt hcount]
      rfl
  | cons r rs ih =>
      rw [List.map_cons, List.sum_cons] at hsum
      rw [List.foldlM_cons, comb_eq hlen (by omega), Option.map_some, Option.bind_eq_bind, Option.bind_some,
        ih (by dsimp only; omega) (by dsimp only; omega) (Nat.mod_lt _ (Nat.two_pow_pos 64)), arrangements]
      dsimp only
      rw [Nat.mul_mod_mod, Nat.mod_mul_mod, Nat.mul_assoc]

theorem freeSlots_empty {empty : γ} (hempty : ∀ j, mem empty j = false) : freeSlots mem dim empty = List.range dim :=
  List.filter_eq_self.mpr fun i _ ↦ by rw [hempty i]; rfl

theorem encodeValues_eq {scan : Repeat α → γ → Option (EncodeSlots γ)} {empty : γ}
    (hscan : ScansEncode mem t.length cs scan) (hempty : ∀ j, mem empty j = false) (hlen : t.length < 100)
    (hfit : arrangements (Repeats.new t).repeats t.length < 2 ^ 64) (hc : cs.Perm t) :
    encodeValues scan (Repeats.new t) empty =
      some (codeOf cs (Repeats.new t).repeats (List.range t.length)) := by
  have hrepeats := Repeats.new_repeatsOf t
  have hfree : freeSlots mem t.length empty = List.range t.length := freeSlots_empty hempty
  obtain ⟨s, hs, hcode⟩ := foldlM_encodeValue (s := ⟨empty, t.length, 0, 1⟩) hscan
    (by rw [hfree]; exact hrepeats.arranged hc) (by rw [hfree, List.length_range]) hlen (Nat.two_pow_pos 64)
  rw [hfree, Nat.zero_add, Nat.one_mul, Nat.mod_eq_of_lt ((hrepeats.codeOf_lt hc).trans hfit)] at hcode
  exact (congrArg (Option.map EncodeValues.code) hs).trans (congrArg some hcode)

theorem decodeValues_eq {scan : Repeat α → DecodeSlots α γ → Option (DecodeSlots α γ)} {empty : γ} {out : List α}
    (hscan : ScansDecode mem t.length scan) (hempty : ∀ j, mem empty j = false) (hlen : t.length < 100)
    (hfit : arrangements (Repeats.new t).repeats t.length < 2 ^ 64) (hout : out.length = t.length) (code : ℕ) :
    decodeValues scan (Repeats.new t) empty code out =
      some (vectorOf (Repeats.new t).repeats (List.range t.length) code out) := by
  have hrepeats := Repeats.new_repeatsOf t
  have hfree : freeSlots mem t.length empty = List.range t.length := freeSlots_empty hempty
  obtain ⟨s, hs, hc⟩ := foldlM_decodeValue (s := ⟨empty, t.length, code, out⟩) hscan hrepeats.pos
    hrepeats.sum_eq hout.symm (by rw [hfree, List.length_range]) hlen hfit fun j _ ↦ hempty j
  rw [hfree] at hc
  exact (congrArg (Option.map DecodeValues.c) hs).trans (congrArg some hc)

theorem Repeats.count_new (hlen : t.length < 100) :
    (Repeats.new t).count = some (t.permutations.toFinset.card % 2 ^ 64) := by
  have hrepeats := Repeats.new_repeatsOf t
  have hcount := foldlM_count (s := (1, t.length)) hlen hrepeats.sum_eq.le (Nat.one_lt_two_pow (by decide))
  rw [Nat.one_mul, hrepeats.arrangements_eq_card] at hcount
  exact hcount

theorem mem_bools_empty (j : ℕ) : (fun (set : ℕ → Bool) j ↦ set j) (fun _ ↦ false) j = false := rfl

theorem getLsbD_empty (j : ℕ) : (0 : BitVec 64).getLsbD j = false := BitVec.getLsbD_zero

theorem encode_eq (hlen : t.length < 100) (hfit : arrangements (Repeats.new t).repeats t.length < 2 ^ 64)
    (hc : cs.Perm t) :
    (Repeats.new t).encode cs = some (codeOf cs (Repeats.new t).repeats (List.range t.length)) ∧
      (t.length < 64 → repeatsEncode64 (Repeats.new t) cs = (Repeats.new t).encodeBools cs) := by
  have hbools : (Repeats.new t).encodeBools cs = _ :=
    encodeValues_eq (scansEncode_bool hc.length_eq.symm hlen) mem_bools_empty hlen hfit hc
  have hbits : t.length < 64 → repeatsEncode64 (Repeats.new t) cs = _ := fun hlt ↦
    encodeValues_eq (scansEncode_bit hc.length_eq.symm hlt) getLsbD_empty hlen hfit hc
  refine ⟨?_, fun hlt ↦ (hbits hlt).trans hbools.symm⟩
  rw [Repeats.encode]
  split
  · next hlt => exact hbits hlt
  · exact hbools

theorem decode_eq {out : List α} (hlen : t.length < 100)
    (hfit : arrangements (Repeats.new t).repeats t.length < 2 ^ 64) (hout : out.length = t.length) (code : ℕ) :
    (Repeats.new t).decode code out = some (vectorOf (Repeats.new t).repeats (List.range t.length) code out) ∧
      (t.length < 64 → repeatsDecode64 (Repeats.new t) code out = (Repeats.new t).decodeBools code out) := by
  have hbools : (Repeats.new t).decodeBools code out = _ :=
    decodeValues_eq scansDecode_bool mem_bools_empty hlen hfit hout code
  have hbits : t.length < 64 → repeatsDecode64 (Repeats.new t) code out = _ := fun hlt ↦
    decodeValues_eq (scansDecode_bit hlt) getLsbD_empty hlen hfit hout code
  refine ⟨?_, fun hlt ↦ (hbits hlt).trans hbools.symm⟩
  rw [Repeats.decode]
  split
  · next hlt => exact hbits hlt
  · exact hbools

/-- Codes and arrangements are in bijection: `count` is the number of arrangements, an arrangement has a code below
it that is decoded to the arrangement, and a code below it is decoded to an arrangement that has the code.  Both
versions of the loops, for words of 64 bits and for vectors of bools, agree where there are less than 64 slots. -/
theorem permutationCodes_bijection (t : List α) (hlen : t.length < 100)
    (hfit : t.permutations.toFinset.card < 2 ^ 64) :
    (Repeats.new t).count = some t.permutations.toFinset.card ∧
      (∀ cs : List α, cs.Perm t → ∃ code < t.permutations.toFinset.card, (Repeats.new t).encode cs = some code ∧
        ∀ out : List α, out.length = t.length → (Repeats.new t).decode code out = some cs) ∧
      (∀ code < t.permutations.toFinset.card, ∀ out : List α, out.length = t.length →
        ∃ cs : List α, cs.Perm t ∧ (Repeats.new t).decode code out = some cs ∧ (Repeats.new t).encode cs = some code) ∧
      (t.length < 64 →
        (∀ cs : List α, cs.Perm t → repeatsEncode64 (Repeats.new t) cs = (Repeats.new t).encodeBools cs) ∧
        ∀ code < t.permutations.toFinset.card, ∀ out : List α, out.length = t.length →
          repeatsDecode64 (Repeats.new t) code out = (Repeats.new t).decodeBools code out) := by
  have hrepeats := Repeats.new_repeatsOf t
  have hcount := Repeats.count_new hlen
  rw [Nat.mod_eq_of_lt hfit] at hcount
  refine ⟨hcount, ?_⟩
  rw [← hrepeats.arrangements_eq_card] at hfit ⊢
  refine ⟨fun cs hc ↦ ?_, fun code hcode out hout ↦ ?_, fun hlt ↦ ⟨fun cs hc ↦ ?_, fun code _ out hout ↦ ?_⟩⟩
  · refine ⟨_, hrepeats.codeOf_lt hc, (encode_eq hlen hfit hc).1, fun out hout ↦ ?_⟩
    rw [(decode_eq hlen hfit hout _).1, hrepeats.vectorOf_codeOf hc hout]
  · obtain ⟨hperm, hcodeOf⟩ := hrepeats.perm_vectorOf hcode hout
    refine ⟨_, hperm, (decode_eq hlen hfit hout code).1, ?_⟩
    rw [(encode_eq hlen hfit hperm).1, hcodeOf]
  · exact (encode_eq hlen hfit hc).2 hlt
  · exact (decode_eq hlen hfit hout code).2 hlt

/-- The 30 arrangements of five values of which two are there twice. -/
theorem permutationCodes_bijection_five :
    [2, 1, 2, 3, 1].Perm [1, 2, 2, 3, 1] ∧
      ∃ code < [1, 2, 2, 3, 1].permutations.toFinset.card, (Repeats.new [1, 2, 2, 3, 1]).encode [2, 1, 2, 3, 1] = some code ∧
        ∀ out : List ℕ, out.length = 5 → (Repeats.new [1, 2, 2, 3, 1]).decode code out = some [2, 1, 2, 3, 1] := by
  have hcard : [1, 2, 2, 3, 1].permutations.toFinset.card < 2 ^ 64 := by
    rw [← (Repeats.new_repeatsOf [1, 2, 2, 3, 1]).arrangements_eq_card]
    decide
  have hperm : [2, 1, 2, 3, 1].Perm [1, 2, 2, 3, 1] := by decide
  exact ⟨hperm, (permutationCodes_bijection [1, 2, 2, 3, 1] (by decide) hcard).2.1 _ hperm⟩

end Template

end FaissNavix
