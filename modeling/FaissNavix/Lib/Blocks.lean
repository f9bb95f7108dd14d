import Mathlib.Algebra.BigOperators.Group.List.Basic
import Mathlib.Algebra.Ring.Nat
import Mathlib.Data.List.Basic
import Mathlib.Data.Nat.Basic

/-!
# Free lists

A list of blocks of cells, in the order of their addresses, with a gap between any two of them.
Blocks are added with those that they touch joined to them, taken from the first block that is
large enough, and the list grows at its end.
-/

namespace Lib

/-- The cells from `offset` to `offset + capacity`. -/
structure Block where
  offset : ℕ
  capacity : ℕ
deriving DecidableEq, Repr

def Block.stop (b : Block) : ℕ :=
  b.offset + b.capacity

/-- The blocks hold the cell at `a`. -/
def Holds (bs : List Block) (a : ℕ) : Prop :=
  ∃ b ∈ bs, b.offset ≤ a ∧ a < b.stop

def total (bs : List Block) : ℕ :=
  (bs.map Block.capacity).sum

/-- No block is empty, and between two blocks there is a gap. -/
structure Separated (bs : List Block) : Prop where
  pos : ∀ b ∈ bs, 0 < b.capacity
  gap : bs.Pairwise fun b c ↦ b.stop < c.offset

@[simp] theorem total_nil : total [] = 0 := rfl

@[simp] theorem total_cons (b : Block) (bs : List Block) :
    total (b :: bs) = b.capacity + total bs := rfl

@[simp] theorem total_append (bs cs : List Block) : total (bs ++ cs) = total bs + total cs := by
  rw [total, List.map_append, List.sum_append]
  rfl

@[simp] theorem not_holds_nil (a : ℕ) : ¬ Holds [] a := by
  rintro ⟨b, hb, -⟩
  exact List.not_mem_nil hb

@[simp] theorem holds_cons (b : Block) (bs : List Block) (a : ℕ) :
    Holds (b :: bs) a ↔ (b.offset ≤ a ∧ a < b.stop) ∨ Holds bs a := by
  simp only [Holds, List.mem_cons, or_and_right, exists_or, exists_eq_left]

@[simp] theorem holds_append (bs cs : List Block) (a : ℕ) :
    Holds (bs ++ cs) a ↔ Holds bs a ∨ Holds cs a := by
  induction bs with
  | nil => rw [List.nil_append, or_iff_right (not_holds_nil a)]
  | cons b bs ih => rw [List.cons_append, holds_cons, holds_cons, ih, or_assoc]

theorem separated_nil : Separated [] :=
  ⟨fun _ h ↦ absurd h List.not_mem_nil, .nil⟩

theorem separated_cons {b : Block} {bs : List Block} :
    Separated (b :: bs) ↔
      0 < b.capacity ∧ (∀ c ∈ bs, b.stop < c.offset) ∧ Separated bs := by
  constructor
  · rintro ⟨hpos, hgap⟩
    rw [List.pairwise_cons] at hgap
    exact ⟨hpos b List.mem_cons_self, hgap.1, fun c hc ↦ hpos c (List.mem_cons_of_mem _ hc), hgap.2⟩
  · rintro ⟨hb, hgap, hbs⟩
    refine ⟨fun c hc ↦ ?_, List.pairwise_cons.2 ⟨hgap, hbs.gap⟩⟩
    obtain rfl | hc := List.mem_cons.1 hc
    · exact hb
    · exact hbs.pos c hc

theorem separated_append {bs cs : List Block} :
    Separated (bs ++ cs) ↔
      Separated bs ∧ Separated cs ∧ ∀ b ∈ bs, ∀ c ∈ cs, b.stop < c.offset := by
  constructor
  · rintro ⟨hpos, hgap⟩
    obtain ⟨hb, hc, hbc⟩ := List.pairwise_append.1 hgap
    exact ⟨⟨fun b h ↦ hpos b (List.mem_append_left _ h), hb⟩,
      ⟨fun c h ↦ hpos c (List.mem_append_right _ h), hc⟩, hbc⟩
  · rintro ⟨hb, hc, hbc⟩
    refine ⟨fun d hd ↦ ?_, List.pairwise_append.2 ⟨hb.gap, hc.gap, hbc⟩⟩
    obtain hd | hd := List.mem_append.1 hd
    · exact hb.pos d hd
    · exact hc.pos d hd

/-! ## Joining -/

/-- A block in front of the blocks, joined with the first of them if it touches it. -/
def consJoin (b : Block) : List Block → List Block
  | [] => [b]
  | c :: bs =>
      if b.stop = c.offset then ⟨b.offset, b.capacity + c.capacity⟩ :: bs else b :: c :: bs

theorem consJoin_of_touch {b c : Block} (h : b.stop = c.offset) (bs : List Block) :
    consJoin b (c :: bs) = ⟨b.offset, b.capacity + c.capacity⟩ :: bs :=
  if_pos h

theorem consJoin_of_not_touch {b c : Block} (h : b.stop ≠ c.offset) (bs : List Block) :
    consJoin b (c :: bs) = b :: c :: bs :=
  if_neg h

@[simp] theorem total_consJoin (b : Block) (bs : List Block) :
    total (consJoin b bs) = b.capacity + total bs := by
  cases bs with
  | nil => rfl
  | cons c bs =>
      rw [consJoin]
      split
      · rw [total_cons, total_cons, Nat.add_assoc]
      · rfl

theorem holds_consJoin {b : Block} {bs : List Block} (a : ℕ) :
    Holds (consJoin b bs) a ↔ (b.offset ≤ a ∧ a < b.stop) ∨ Holds bs a := by
  cases bs with
  | nil => rw [consJoin, holds_cons]
  | cons c bs =>
      rw [consJoin]
      split
      · next h =>
          rw [holds_cons, holds_cons, ← or_assoc]
          refine or_congr_left ?_
          simp only [Block.stop] at h ⊢
          omega
      · rw [holds_cons]

theorem le_offset_of_mem_consJoin {b c : Block} {bs : List Block}
    (h : ∀ d ∈ bs, b.stop ≤ d.offset) (hc : c ∈ consJoin b bs) : b.offset ≤ c.offset := by
  have hb : b.offset ≤ b.stop := Nat.le_add_right _ _
  cases bs with
  | nil => rw [List.eq_of_mem_singleton hc]
  | cons d bs =>
      rw [consJoin] at hc
      split at hc
      · obtain rfl | hc := List.mem_cons.1 hc
        · exact le_rfl
        · exact hb.trans (h c (List.mem_cons_of_mem _ hc))
      · obtain rfl | hc := List.mem_cons.1 hc
        · exact le_rfl
        · exact hb.trans (h c hc)

/-- A block before separated blocks. -/
theorem Separated.consJoin {b : Block} {bs : List Block} (hb : 0 < b.capacity)
    (hbs : Separated bs) (h : ∀ d ∈ bs, b.stop ≤ d.offset) : Separated (consJoin b bs) := by
  cases bs with
  | nil => exact separated_cons.2 ⟨hb, fun _ hc ↦ absurd hc List.not_mem_nil, hbs⟩
  | cons c bs =>
      obtain ⟨hc, hcb, hbs'⟩ := separated_cons.1 hbs
      rw [Lib.consJoin]
      split
      · next htouch =>
          refine separated_cons.2 ⟨Nat.add_pos_left hb _, fun d hd ↦ ?_, hbs'⟩
          have := hcb d hd
          simp only [Block.stop] at htouch this ⊢
          omega
      · next htouch =>
          have hbc : b.stop < c.offset := lt_of_le_of_ne (h c List.mem_cons_self) htouch
          refine separated_cons.2 ⟨hb, fun d hd ↦ ?_, hbs⟩
          obtain rfl | hd := List.mem_cons.1 hd
          · exact hbc
          · have := hcb d hd
            rw [Block.stop] at this
            omega

theorem Separated.insert {pre post : List Block} {b p : Block}
    (hsep : Separated (pre ++ [p] ++ post)) (hb : 0 < b.capacity) (hp : p.stop ≤ b.offset)
    (hpost : ∀ d ∈ post, b.stop ≤ d.offset) :
    Separated (pre ++ Lib.consJoin p (Lib.consJoin b post)) := by
  rw [List.append_assoc, List.singleton_append, separated_append, separated_cons] at hsep
  obtain ⟨hpre, ⟨hp0, -, hpost'⟩, hcross⟩ := hsep
  have hle : ∀ d ∈ Lib.consJoin b post, p.stop ≤ d.offset := fun d hd ↦
    hp.trans (le_offset_of_mem_consJoin hpost hd)
  refine separated_append.2 ⟨hpre, (hpost'.consJoin hb hpost).consJoin hp0 hle, fun c hc d hd ↦ ?_⟩
  exact (hcross c hc p List.mem_cons_self).trans_le (le_offset_of_mem_consJoin hle hd)

/-- The blocks that start after `a`. -/
theorem Separated.lt_offset_of_mem_dropWhile {bs : List Block} (hbs : Separated bs) {a : ℕ}
    {b : Block} (hb : b ∈ bs.dropWhile fun c ↦ c.offset ≤ a) : a < b.offset := by
  induction bs with
  | nil => exact absurd hb List.not_mem_nil
  | cons c bs ih =>
      obtain ⟨-, hgap, hbs⟩ := separated_cons.1 hbs
      rw [List.dropWhile_cons] at hb
      split at hb
      · exact ih hbs hb
      · next hc =>
          have hac : a < c.offset := by simpa using hc
          obtain rfl | hb := List.mem_cons.1 hb
          · exact hac
          · have hco : c.offset ≤ c.stop := Nat.le_add_right _ _
            exact hac.trans_le (hco.trans (hgap b hb).le)

/-! ## Taking -/

/-- `n` cells at the start of the first block that has as many. -/
def firstFit (n : ℕ) : List Block → Option (ℕ × List Block)
  | [] => none
  | b :: bs =>
      if b.capacity < n then (firstFit n bs).map fun r ↦ (r.1, b :: r.2)
      else if b.capacity = n then some (b.offset, bs)
      else some (b.offset, ⟨b.offset + n, b.capacity - n⟩ :: bs)

/-- There is a first fit if a block is large enough. -/
theorem firstFit_isSome {n : ℕ} {bs : List Block} (h : ∃ b ∈ bs, n ≤ b.capacity) :
    (firstFit n bs).isSome := by
  induction bs with
  | nil =>
      obtain ⟨b, hb, -⟩ := h
      exact absurd hb List.not_mem_nil
  | cons b bs ih =>
      rw [firstFit]
      split
      · next hlt =>
          obtain ⟨c, hc, hn⟩ := h
          obtain rfl | hc := List.mem_cons.1 hc
          · exact absurd hlt hn.not_gt
          · rw [Option.isSome_map]
            exact ih ⟨c, hc, hn⟩
      · split
        · rfl
        · rfl

/-- What is taken is the start of a block, and the blocks before it are too small. -/
theorem firstFit_eq_some {n : ℕ} {bs bs' : List Block} {o : ℕ}
    (h : firstFit n bs = some (o, bs')) :
    ∃ pre b post, bs = pre ++ b :: post ∧ (∀ c ∈ pre, c.capacity < n) ∧ n ≤ b.capacity ∧
      o = b.offset ∧
      bs' = pre ++ (if b.capacity = n then [] else [⟨b.offset + n, b.capacity - n⟩]) ++ post := by
  induction bs generalizing bs' with
  | nil => cases h
  | cons b bs ih =>
      rw [firstFit] at h
      split at h
      · next hlt =>
          obtain ⟨⟨o', r⟩, hr, heq⟩ := Option.map_eq_some_iff.1 h
          cases heq
          obtain ⟨pre, c, post, rfl, hpre, hc, rfl, rfl⟩ := ih hr
          refine ⟨b :: pre, c, post, rfl, fun d hd ↦ ?_, hc, rfl, rfl⟩
          obtain rfl | hd := List.mem_cons.1 hd
          · exact hlt
          · exact hpre d hd
      · next hge =>
          refine ⟨[], b, bs, rfl, fun c hc ↦ absurd hc List.not_mem_nil, not_lt.1 hge, ?_⟩
          split at h
          · next heq =>
              cases h
              exact ⟨rfl, by rw [if_pos heq]; rfl⟩
          · next hne =>
              cases h
              exact ⟨rfl, by rw [if_neg hne]; rfl⟩

/-- `n` cells from address `o` on are taken. -/
structure Taken (bs bs' : List Block) (o n : ℕ) : Prop where
  separated : Separated bs'
  total_eq : total bs = n + total bs'
  holds_iff : ∀ a, Holds bs a ↔ (o ≤ a ∧ a < o + n) ∨ Holds bs' a
  not_holds : ∀ a, o ≤ a → a < o + n → ¬ Holds bs' a

section
variable {n : ℕ} {bs bs' : List Block} {o : ℕ}

/-- What is left after the first fit is taken. -/
theorem Separated.firstFit (hbs : Separated bs)
    (h : firstFit n bs = some (o, bs')) : Taken bs bs' o n := by
  obtain ⟨pre, b, post, rfl, -, hn, rfl, rfl⟩ := firstFit_eq_some h
  obtain ⟨hpre, hb, hcross⟩ := separated_append.1 hbs
  obtain ⟨hb0, hbpost, hpost⟩ := separated_cons.1 hb
  have hprestop : ∀ c ∈ pre, c.stop < b.offset := fun c hc ↦ hcross c hc b List.mem_cons_self
  by_cases heq : b.capacity = n
  · rw [if_pos heq, List.append_nil]
    refine ⟨separated_append.2 ⟨hpre, hpost, fun c hc d hd ↦
      hcross c hc d (List.mem_cons_of_mem _ hd)⟩, ?_, fun a ↦ ?_, fun a ha ha' ↦ ?_⟩
    · rw [total_append, total_append, total_cons, heq, Nat.add_left_comm]
    · rw [holds_append, holds_append, holds_cons, Block.stop, heq, or_left_comm]
    · rintro ⟨c, hc, hca, hca'⟩
      obtain hc | hc := List.mem_append.1 hc
      · have := hprestop c hc
        omega
      · have := hbpost c hc
        rw [Block.stop] at this
        omega
  · rw [if_neg heq, List.append_assoc, List.singleton_append]
    refine ⟨separated_append.2 ⟨hpre, separated_cons.2 ⟨?_, fun d hd ↦ ?_, hpost⟩,
      fun c hc d hd ↦ ?_⟩, ?_, fun a ↦ ?_, fun a ha ha' ↦ ?_⟩
    · exact Nat.sub_pos_of_lt (lt_of_le_of_ne hn (Ne.symm heq))
    · have := hbpost d hd
      simp only [Block.stop] at this ⊢
      omega
    · obtain rfl | hd := List.mem_cons.1 hd
      · exact (hprestop c hc).trans_le (Nat.le_add_right _ _)
      · exact hcross c hc d (List.mem_cons_of_mem _ hd)
    · rw [total_append, total_append, total_cons, total_cons]
      simp only
      omega
    · have hsplit : b.offset ≤ a ∧ a < b.stop ↔ (b.offset ≤ a ∧ a < b.offset + n) ∨
          (b.offset + n ≤ a ∧ a < b.offset + n + (b.capacity - n)) := by
        rw [Block.stop]
        omega
      rw [holds_append, holds_append, holds_cons, holds_cons, hsplit, or_assoc, or_left_comm]
      rfl
    · rintro ⟨c, hc, hca, hca'⟩
      obtain hc | hc := List.mem_append.1 hc
      · have := hprestop c hc
        omega
      · obtain rfl | hc := List.mem_cons.1 hc
        · exact absurd ha' hca.not_gt
        · have := hbpost c hc
          rw [Block.stop] at this
          omega

theorem exists_offset_of_firstFit (h : firstFit n bs = some (o, bs')) : ∃ b ∈ bs, b.offset = o := by
  obtain ⟨pre, b, post, rfl, -, -, rfl, -⟩ := firstFit_eq_some h
  exact ⟨b, List.mem_append_right pre List.mem_cons_self, rfl⟩

theorem Separated.lt_of_firstFit (hbs : Separated bs)
    (h : Lib.firstFit n bs = some (o, bs')) {c : Block} (hc : c ∈ bs) (hco : c.offset < o) :
    c.capacity < n := by
  obtain ⟨pre, b, post, rfl, hpre, -, rfl, -⟩ := firstFit_eq_some h
  obtain ⟨-, hb, -⟩ := separated_append.1 hbs
  obtain ⟨-, hbpost, -⟩ := separated_cons.1 hb
  obtain hc | hc := List.mem_append.1 hc
  · exact hpre c hc
  · obtain rfl | hc := List.mem_cons.1 hc
    · exact absurd hco (lt_irrefl _)
    · have := hbpost c hc
      rw [Block.stop] at this
      omega

end

/-! ## Growing -/

/-- The cells from `stop` to `stop'` are added at the end. -/
def extend (bs : List Block) (stop stop' : ℕ) : List Block :=
  match bs.getLast? with
  | some b =>
      if b.stop = stop then bs.dropLast ++ [⟨b.offset, b.capacity + (stop' - stop)⟩]
      else bs ++ [⟨stop, stop' - stop⟩]
  | none => bs ++ [⟨stop, stop' - stop⟩]

theorem Separated.concat {bs : List Block} {b : Block} (hbs : Separated bs) (hb : 0 < b.capacity)
    (h : ∀ c ∈ bs, c.stop < b.offset) : Separated (bs ++ [b]) := by
  refine separated_append.2 ⟨hbs, separated_cons.2 ⟨hb, fun _ h ↦ absurd h List.not_mem_nil,
    separated_nil⟩, fun c hc d hd ↦ ?_⟩
  rw [List.eq_of_mem_singleton hd]
  exact h c hc

/-- The list grows by cells after the last block. -/
structure Extends (bs bs' : List Block) (stop stop' : ℕ) : Prop where
  separated : Separated bs'
  total_eq : total bs' = total bs + (stop' - stop)
  holds_iff : ∀ a, Holds bs' a ↔ Holds bs a ∨ (stop ≤ a ∧ a < stop')
  large : ∃ b ∈ bs', stop' - stop ≤ b.capacity

theorem Separated.extends_concat {bs : List Block} {stop stop' : ℕ} (hbs : Separated bs)
    (hlt : stop < stop') (h : ∀ b ∈ bs, b.stop < stop) :
    Extends bs (bs ++ [⟨stop, stop' - stop⟩]) stop stop' where
  separated := hbs.concat (Nat.sub_pos_of_lt hlt) h
  total_eq := by
    rw [total_append, total_cons, total_nil, Nat.add_zero]
  holds_iff a := by
    rw [holds_append, holds_cons, Block.stop, or_iff_left (not_holds_nil a),
      Nat.add_sub_cancel' hlt.le]
  large := ⟨_, List.mem_append_right _ List.mem_cons_self, le_rfl⟩

/-- Cells after the last block are added to it if it ends there. -/
theorem Separated.extend {bs : List Block} {stop stop' : ℕ} (hbs : Separated bs)
    (hle : ∀ b ∈ bs, b.stop ≤ stop) (hlt : stop < stop') :
    Extends bs (extend bs stop stop') stop stop' := by
  obtain rfl | ⟨pre, b, rfl⟩ := List.eq_nil_or_concat' bs
  · exact hbs.extends_concat hlt fun _ h ↦ absurd h List.not_mem_nil
  · obtain ⟨hpre, hb, hcross⟩ := separated_append.1 hbs
    have hb0 : 0 < b.capacity := hb.pos b List.mem_cons_self
    have hbstop : b.stop ≤ stop := hle b (List.mem_append_right _ List.mem_cons_self)
    rw [Lib.extend, List.getLast?_concat]
    simp only [List.dropLast_concat]
    split
    · next h =>
        refine ⟨hpre.concat (Nat.add_pos_left hb0 _) fun c hc ↦ hcross c hc b List.mem_cons_self,
          ?_, fun a ↦ ?_, _, List.mem_append_right _ List.mem_cons_self, Nat.le_add_left _ _⟩
        · simp only [total_append, total_cons, total_nil]
          omega
        · simp only [holds_append, holds_cons, not_holds_nil, or_false, or_assoc]
          refine or_congr_right ?_
          simp only [Block.stop] at h ⊢
          omega
    · next h =>
        refine hbs.extends_concat hlt fun c hc ↦ ?_
        obtain hc | hc := List.mem_append.1 hc
        · have hcb : c.stop < b.offset := hcross c hc b List.mem_cons_self
          have hbo : b.offset ≤ b.stop := Nat.le_add_right _ _
          omega
        · rw [List.eq_of_mem_singleton hc]
          exact lt_of_le_of_ne hbstop h

/-! ## Blocks by their cells -/

section
variable {bs : List Block} (hbs : Separated bs) {b : Block}
include hbs

theorem Separated.eq_or_gap {c : Block} (hb : b ∈ bs)
    (hc : c ∈ bs) : b = c ∨ b.stop < c.offset ∨ c.stop < b.offset := by
  induction bs with
  | nil => exact absurd hb List.not_mem_nil
  | cons d bs ih =>
      obtain ⟨-, hgap, hbs⟩ := separated_cons.1 hbs
      obtain rfl | hb' := List.mem_cons.1 hb
      · obtain rfl | hc' := List.mem_cons.1 hc
        · exact .inl rfl
        · exact .inr (.inl (hgap c hc'))
      · obtain rfl | hc' := List.mem_cons.1 hc
        · exact .inr (.inr (hgap b hb'))
        · exact ih hbs hb' hc'

theorem Separated.not_holds_of_succ_eq
    (hb : b ∈ bs) {a : ℕ} (ha : a + 1 = b.offset) : ¬ Holds bs a := by
  rintro ⟨c, hc, hca, hca'⟩
  have hbo : b.offset ≤ b.stop := Nat.le_add_right _ _
  obtain rfl | h | h := hbs.eq_or_gap hb hc
  · omega
  · omega
  · omega

theorem Separated.not_holds_stop (hb : b ∈ bs) : ¬ Holds bs b.stop := by
  rintro ⟨c, hc, hca, hca'⟩
  have hbo : b.offset ≤ b.stop := Nat.le_add_right _ _
  obtain rfl | h | h := hbs.eq_or_gap hb hc
  · omega
  · omega
  · omega

end

/-- Where two lists hold the same cells, up to the cells around a block of the first, this block is
one of the second. -/
theorem Separated.mem_of_holds_iff {bs cs : List Block} (hbs : Separated bs) (hcs : Separated cs)
    {b : Block} (hb : b ∈ bs) (h : ∀ a ≤ b.stop, Holds bs a ↔ Holds cs a) : b ∈ cs := by
  have hpos := hbs.pos b hb
  have hstop : b.stop = b.offset + b.capacity := rfl
  have hheld : ∀ a, b.offset ≤ a → a < b.stop → Holds cs a := fun a ha ha' ↦
    (h a ha'.le).1 ⟨b, hb, ha, ha'⟩
  obtain ⟨c, hc, hco, hcs'⟩ := hheld b.offset le_rfl (by omega)
  -- `c` starts where `b` starts, since the cell before `b` is not held
  have hstart : c.offset = b.offset := by
    by_contra hne
    refine hbs.not_holds_of_succ_eq hb (Nat.sub_add_cancel (by omega : 1 ≤ b.offset)) ?_
    exact (h _ (by omega)).2 ⟨c, hc, by omega, by omega⟩
  -- and ends where `b` ends
  have hend : c.stop = b.stop := by
    by_contra hne
    obtain hlt | hgt := Nat.lt_or_gt_of_ne hne
    · exact hcs.not_holds_stop hc (hheld c.stop (by omega) hlt)
    · exact hbs.not_holds_stop hb ((h _ le_rfl).2 ⟨c, hc, by omega, hgt⟩)
  have heq : c = b := by
    cases b
    cases c
    simp only [Block.stop, Block.mk.injEq] at *
    omega
  exact heq ▸ hc

end Lib
