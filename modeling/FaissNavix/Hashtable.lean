import FaissNavix.BucketSortParallel
import FaissNavix.Invlists.InvertedLists
import FaissNavix.Lib.CyclicScan

/-!
# The hash table

`hashtable_int64_to_int64_init`, `_add` and `_lookup` of `faiss/utils/sorting.cpp`.  The slots are divided into
buckets, each of them a ring: a key is at the first free slot from the one that its hash gives, in the bucket of
that slot.  An addition sorts its keys by their buckets, which are then filled independently of each other.
-/

namespace FaissNavix

open Function
open Lib (scanRing slotAt slotAt_zero slotAt_bounds slotAt_inj scanRing_total read)

/-! ## The model -/

section
variable (log2Capacity : ℕ) (key : Idx)

/-- `log2_capacity_to_log2_nbucket` -/
def log2Nbucket : ℕ :=
  if log2Capacity < 12 then 0 else if log2Capacity < 20 then log2Capacity - 12 else 10

/-- `bigprime` -/
def bigprime : Int64 := 8955327411143

/-- `hash_function`, where the product wraps around. -/
def hashFunction (x : Idx) : Int64 :=
  (x * 1000003) % bigprime

/-- `hk`, the slot that the hash of a key gives. -/
def homeOf : ℕ :=
  let mask := Int64.ofNat (2 ^ log2Capacity) - 1
  (hashFunction key &&& mask).toInt.toNat

/-- `k1 - k0`, the number of slots of a bucket. -/
def bucketWidth : ℕ :=
  2 ^ (log2Capacity - log2Nbucket log2Capacity)

/-- The bucket of a key: `hk >> (log2_capacity - log2_nbucket)`. -/
def bucketNoOf : ℕ :=
  homeOf log2Capacity key / bucketWidth log2Capacity

/-- The key and the value of slot `i`, which are `tab[2 * i]` and `tab[2 * i + 1]`. -/
abbrev HashTab := ℕ → Idx × Idx

/-- `hashtable_int64_to_int64_init` -/
def hashtableInit (tab : HashTab) : HashTab :=
  fun i ↦ if i < 2 ^ log2Capacity then (-1, -1) else tab i

end

section
variable (assertions : Bool) (log2Capacity turns : ℕ) (entries : HashEntries)

/-- The loop that adds a key to a bucket: the table, and whether there was a slot. -/
def addKey (bucket : ℕ) (tab : HashTab) (key val : Idx) : Option (HashTab × Bool) := do
  let k0 := bucket * bucketWidth log2Capacity
  let k1 := (bucket + 1) * bucketWidth log2Capacity
  let (slot, found) ← scanRing (fun slot ↦ decide ((tab slot).1 = -1 ∨ (tab slot).1 = key)) k0 k1
    (homeOf log2Capacity key) turns
  if found then
    if (tab slot).1 = -1 then some (update tab slot (key, val), true)
    else some (update tab slot ((tab slot).1, val), true)
  else some (tab, false)

abbrev HashEntries := List (Idx × Idx)

/-- `keys[j]` and `vals[j]` -/
def entryOf (j : ℕ) : Idx × Idx :=
  entries.getD j (0, 0)

/-- A turn of the loop over the entries of a bucket, which is left after an error. -/
def addEntryTurn (bucket : ℕ)
    (s : HashTab × Bool) (j : ℕ) : Option (HashTab × Bool) :=
  let key := (entryOf entries j).1
  let k0 := bucket * bucketWidth log2Capacity
  let k1 := (bucket + 1) * bucketWidth log2Capacity
  if s.2 = false then some s
  else if assertions ∧ bucketNoOf log2Capacity key ≠ bucket then none
  else if assertions ∧ ¬ (k0 ≤ homeOf log2Capacity key ∧ homeOf log2Capacity key < k1) then none
  else addKey log2Capacity turns bucket s.1 key (entryOf entries j).2

/-- The loop over the entries of a bucket.  Errors are counted for each bucket by itself, as if it had a thread of
its own. -/
def addBucket (lims perm : ℕ → ℕ)
    (s : HashTab × Bool) (bucket : ℕ) : Option (HashTab × Bool) := do
  let (tab, ok) ← (read perm (lims bucket) (lims (bucket + 1) - lims bucket)).foldlM
    (addEntryTurn assertions log2Capacity turns entries bucket) (s.1, true)
  return (tab, s.2 && ok)

end

/-- What the threads of an addition do: how they sort, and in which order the buckets are filled. -/
structure AddThreads where
  nt : ℕ
  counting : List ℕ
  grabbing : List ℕ
  placing : List (ℕ × ℕ)
  buckets : List ℕ

/-- `hashtable_int64_to_int64_add`.  It has no result if a loop does not end in `turns` turns, or if an assertion
fails. -/
def hashtableAdd (assertions : Bool) (log2Capacity turns : ℕ) (tab : HashTab) (entries : HashEntries)
    (threads : AddThreads) : Option (Except Fault HashTab) := do
  let bucketNo := fun i ↦ bucketNoOf log2Capacity (entryOf entries i).1
  match bucketSortParallel entries.length bucketNo (2 ^ log2Nbucket log2Capacity) threads.nt threads.counting
    threads.grabbing threads.placing fun _ ↦ 0 with
  | none => some (.error (.exception "Error: 'lims[vmax] == nval' failed"))
  | some (lims, perm) =>
      let (tab, ok) ← threads.buckets.foldlM (addBucket assertions log2Capacity turns entries lims perm) (tab, true)
      if ok then some (.ok tab)
      else some (.error (.exception "Error: '!(num_errors == 0)' failed: hashtable capacity exhausted"))

/-- The value of a key: a turn of the loop of `hashtable_int64_to_int64_lookup`. -/
def lookupKey (log2Capacity turns : ℕ) (tab : HashTab) (key : Idx) : Option Idx :=
  let slot := homeOf log2Capacity key
  if (tab slot).1 = -1 then some (-1)
  else if (tab slot).1 = key then some (tab slot).2
  else do
    let bucket := bucketNoOf log2Capacity key
    let k0 := bucket * bucketWidth log2Capacity
    let k1 := (bucket + 1) * bucketWidth log2Capacity
    let (slot, found) ← scanRing (fun slot ↦ decide ((tab slot).1 = key)) k0 k1 slot turns
    return if found then (tab slot).2 else -1

/-- `hashtable_int64_to_int64_lookup` -/
def hashtableLookup (log2Capacity turns : ℕ) (tab : HashTab) (keys : List Idx) : Option (List Idx) :=
  keys.mapM (lookupKey log2Capacity turns tab)

/-- What the threads of an addition of `n` entries may do. -/
structure AddThreads.Valid (threads : AddThreads) (log2Capacity n : ℕ) : Prop where
  nt_pos : 0 < threads.nt
  counting : EachOnce threads.nt threads.counting
  grabbing : EachOnce threads.nt threads.grabbing
  placing : Interleaved n threads.nt threads.placing
  buckets : threads.buckets.Perm (List.range (2 ^ log2Nbucket log2Capacity))

/-- A new table, and what calls that do not throw make of it. -/
inductive HashtableReached (log2Capacity : ℕ) : List HashEntries → HashTab → Prop where
  | init (tab : HashTab) : HashtableReached log2Capacity [] (hashtableInit log2Capacity tab)
  | add {calls : List HashEntries} {tab tab' : HashTab} {entries : HashEntries} {threads : AddThreads}
      {assertions : Bool} {turns : ℕ} (hreached : HashtableReached log2Capacity calls tab)
      (hkeys : ∀ e ∈ entries, e.1 ≠ -1) (hdistinct : (entries.map Prod.fst).Nodup)
      (hthreads : threads.Valid log2Capacity entries.length)
      (hadd : hashtableAdd assertions log2Capacity turns tab entries threads = some (.ok tab')) :
      HashtableReached log2Capacity (calls ++ [entries]) tab'

def lastAdded (calls : List HashEntries) (key : Idx) : Option Idx :=
  calls.foldl (fun last entries ↦ ((entries.find? (·.1 = key)).map Prod.snd).or last) none

/-! ## Slots and buckets -/

section Slots

variable {log2Capacity : ℕ} {key : Idx}

section
variable (log2Capacity : ℕ) (key : Idx)

theorem log2Nbucket_le : log2Nbucket log2Capacity ≤ log2Capacity := by
  unfold log2Nbucket
  split_ifs <;> omega

theorem bucketWidth_pos : 0 < bucketWidth log2Capacity :=
  Nat.two_pow_pos _

theorem nbucket_mul_bucketWidth :
    2 ^ log2Nbucket log2Capacity * bucketWidth log2Capacity = 2 ^ log2Capacity := by
  rw [bucketWidth, ← Nat.pow_add, Nat.add_sub_cancel' (log2Nbucket_le log2Capacity)]

theorem homeOf_lt : homeOf log2Capacity key < 2 ^ log2Capacity := by
  unfold homeOf
  by_cases hbig : 63 ≤ log2Capacity
  · have hlt := Int64.toInt_lt (hashFunction key &&& (Int64.ofNat (2 ^ log2Capacity) - 1))
    have hpow : 2 ^ 63 ≤ 2 ^ log2Capacity := Nat.pow_le_pow_right Nat.two_pos hbig
    dsimp only
    omega
  · have hpow : 2 ^ log2Capacity < 2 ^ 63 := Nat.pow_lt_pow_right Nat.one_lt_two (by omega)
    have hpos := Nat.two_pow_pos log2Capacity
    have hmask : (Int64.ofNat (2 ^ log2Capacity) - 1).toBitVec.toNat = 2 ^ log2Capacity - 1 := by
      rw [Int64.toBitVec_sub, BitVec.toNat_sub]
      change (2 ^ 64 - 1 + 2 ^ log2Capacity % 2 ^ 64) % 2 ^ 64 = _
      omega
    have hand : (hashFunction key &&& (Int64.ofNat (2 ^ log2Capacity) - 1)).toBitVec.toNat ≤
        2 ^ log2Capacity - 1 := by
      rw [Int64.toBitVec_and, BitVec.toNat_and, ← hmask]
      exact Nat.and_le_right
    dsimp only
    rw [← Int64.toInt_toBitVec, BitVec.toInt_eq_toNat_of_lt (by omega), Int.toNat_natCast]
    omega

theorem bucketNoOf_lt :
    bucketNoOf log2Capacity key < 2 ^ log2Nbucket log2Capacity := by
  refine Nat.div_lt_of_lt_mul ?_
  rw [Nat.mul_comm, nbucket_mul_bucketWidth]
  exact homeOf_lt log2Capacity key

theorem home_bounds :
    bucketNoOf log2Capacity key * bucketWidth log2Capacity ≤ homeOf log2Capacity key ∧
      homeOf log2Capacity key < (bucketNoOf log2Capacity key + 1) * bucketWidth log2Capacity := by
  have hpos := bucketWidth_pos log2Capacity
  exact ⟨Nat.div_mul_le_self _ _, Nat.lt_mul_of_div_lt (Nat.lt_succ_self _) hpos⟩

/-- The slots of a key, in the order of the probes. -/
def probe (d : ℕ) : ℕ :=
  slotAt (bucketNoOf log2Capacity key * bucketWidth log2Capacity)
    ((bucketNoOf log2Capacity key + 1) * bucketWidth log2Capacity) (homeOf log2Capacity key) d

theorem bucket_width (b : ℕ) :
    (b + 1) * bucketWidth log2Capacity - b * bucketWidth log2Capacity = bucketWidth log2Capacity := by
  rw [Nat.add_mul, Nat.one_mul, Nat.add_sub_cancel_left]

theorem probe_zero : probe log2Capacity key 0 = homeOf log2Capacity key :=
  slotAt_zero (home_bounds log2Capacity key).1 (home_bounds log2Capacity key).2

end

theorem probe_inj {d e : ℕ} (hd : d < bucketWidth log2Capacity) (he : e < bucketWidth log2Capacity)
    (h : probe log2Capacity key d = probe log2Capacity key e) : d = e :=
  slotAt_inj (by rwa [bucket_width]) (by rwa [bucket_width]) h

theorem probe_lt (log2Capacity : ℕ) (key : Idx) (d : ℕ) : probe log2Capacity key d < 2 ^ log2Capacity := by
  have hhome := home_bounds log2Capacity key
  have hbounds := slotAt_bounds (hhome.1.trans_lt hhome.2) (homeOf log2Capacity key) d
  have hbucket : (bucketNoOf log2Capacity key + 1) * bucketWidth log2Capacity ≤ 2 ^ log2Capacity := by
    rw [← nbucket_mul_bucketWidth]
    exact Nat.mul_le_mul_right _ (bucketNoOf_lt log2Capacity key)
  exact hbounds.2.trans_le hbucket

theorem scan_probe (stop : ℕ → Bool) (key : Idx) {turns : ℕ} (hturns : bucketWidth log2Capacity ≤ turns) :
    (∃ d < bucketWidth log2Capacity, scanRing stop (bucketNoOf log2Capacity key * bucketWidth log2Capacity)
        ((bucketNoOf log2Capacity key + 1) * bucketWidth log2Capacity) (homeOf log2Capacity key) turns =
          some (probe log2Capacity key d, true) ∧
      stop (probe log2Capacity key d) = true ∧ ∀ i < d, stop (probe log2Capacity key i) = false) ∨
    (scanRing stop (bucketNoOf log2Capacity key * bucketWidth log2Capacity)
        ((bucketNoOf log2Capacity key + 1) * bucketWidth log2Capacity) (homeOf log2Capacity key) turns =
          some (homeOf log2Capacity key, false) ∧
      ∀ i < bucketWidth log2Capacity, stop (probe log2Capacity key i) = false) := by
  have hhome := home_bounds log2Capacity key
  have htotal := scanRing_total stop hhome.1 hhome.2 ((bucket_width log2Capacity _).le.trans hturns)
  rwa [bucket_width] at htotal

end Slots

/-! ## What the table holds -/

section Content

variable {log2Capacity turns : ℕ} {key val : Idx} {tab tab' : HashTab} {held : Idx → Option Idx} {d : ℕ}

/-- The key is at probe `d`, and other keys are at all probes before. -/
structure FoundAt (log2Capacity : ℕ) (tab : HashTab) (key : Idx) (d : ℕ) : Prop where
  lt : d < bucketWidth log2Capacity
  key_eq : (tab (probe log2Capacity key d)).1 = key
  before : ∀ i < d, (tab (probe log2Capacity key i)).1 ≠ -1 ∧ (tab (probe log2Capacity key i)).1 ≠ key

/-- Each key of the table is found by its probes, and the table holds these keys with these values. -/
structure Holding (log2Capacity : ℕ) (tab : HashTab) (held : Idx → Option Idx) : Prop where
  found : ∀ slot < 2 ^ log2Capacity, (tab slot).1 ≠ -1 →
    ∃ d, FoundAt log2Capacity tab (tab slot).1 d ∧ probe log2Capacity (tab slot).1 d = slot
  content : ∀ key val, key ≠ -1 → (held key = some val ↔ ∃ slot < 2 ^ log2Capacity, tab slot = (key, val))

theorem holding_init (log2Capacity : ℕ) (tab : HashTab) :
    Holding log2Capacity (hashtableInit log2Capacity tab) fun _ ↦ none where
  found slot hslot hne := absurd (congrArg Prod.fst (if_pos hslot)) hne
  content key val hkey := by
    refine iff_of_false (Option.some_ne_none val).symm ?_
    rintro ⟨slot, hslot, heq⟩
    have hinit : hashtableInit log2Capacity tab slot = (-1, -1) := if_pos hslot
    rw [hinit] at heq
    exact hkey (congrArg Prod.fst heq).symm

theorem Holding.foundAt (h : Holding log2Capacity tab held) (hkey : key ≠ -1) (hheld : held key = some val) :
    ∃ d, FoundAt log2Capacity tab key d ∧ tab (probe log2Capacity key d) = (key, val) := by
  obtain ⟨slot, hslot, heq⟩ := (h.content key val hkey).mp hheld
  have hfst : (tab slot).1 = key := congrArg Prod.fst heq
  obtain ⟨d, hfound, hprobe⟩ := h.found slot hslot (by rwa [hfst])
  rw [hfst] at hfound hprobe
  exact ⟨d, hfound, by rw [hprobe, heq]⟩

variable (h : Holding log2Capacity tab held) (hkey : key ≠ -1) (hd : d < bucketWidth log2Capacity)
  (hstop : (tab (probe log2Capacity key d)).1 = -1 ∨ (tab (probe log2Capacity key d)).1 = key)
include h hkey hd hstop

theorem Holding.held_of_probe
    (hbefore : ∀ i < d, (tab (probe log2Capacity key i)).1 ≠ key) {slot : ℕ} (hslot : slot < 2 ^ log2Capacity)
    (hat : (tab slot).1 = key) : slot = probe log2Capacity key d := by
  obtain ⟨e, hfound, hprobe⟩ := h.found slot hslot (by rwa [hat])
  rw [hat] at hfound hprobe
  rcases Nat.lt_trichotomy e d with hlt | rfl | hgt
  · exact absurd hfound.key_eq (hbefore e hlt)
  · exact hprobe.symm
  · rcases hstop with hfree | hthere
    · exact absurd hfree (hfound.before d hgt).1
    · exact absurd hthere (hfound.before d hgt).2

/-- A key is written to the first probe that is free or has the key. -/
theorem Holding.write
    (hbefore : ∀ i < d, (tab (probe log2Capacity key i)).1 ≠ -1 ∧ (tab (probe log2Capacity key i)).1 ≠ key)
    (val : Idx) : Holding log2Capacity (update tab (probe log2Capacity key d) (key, val))
      (update held key (some val)) := by
  have hunique : ∀ slot < 2 ^ log2Capacity, (tab slot).1 = key → slot = probe log2Capacity key d :=
    fun slot hslot hat ↦ h.held_of_probe hkey hd hstop (fun i hi ↦ (hbefore i hi).2) hslot hat
  refine ⟨fun slot hslot hne ↦ ?_, fun key' val' hkey' ↦ ?_⟩
  · by_cases hself : slot = probe log2Capacity key d
    · subst hself
      rw [update_self]
      refine ⟨d, ⟨hd, by rw [update_self], fun i hi ↦ ?_⟩, rfl⟩
      rw [update_of_ne fun heq ↦ hi.ne (probe_inj (hi.trans hd) hd heq)]
      exact hbefore i hi
    · rw [update_of_ne hself] at hne ⊢
      obtain ⟨e, hfound, hprobe⟩ := h.found slot hslot hne
      have hother : (tab slot).1 ≠ key := fun heq ↦ hself (hunique slot hslot heq)
      refine ⟨e, ⟨hfound.lt, ?_, fun i hi ↦ ?_⟩, hprobe⟩
      · rw [hprobe, update_of_ne hself]
      · by_cases hpath : probe log2Capacity (tab slot).1 i = probe log2Capacity key d
        · rw [hpath, update_self]
          exact ⟨hkey, hother.symm⟩
        · rw [update_of_ne hpath]
          exact hfound.before i hi
  · by_cases hself : key' = key
    · subst hself
      rw [update_self, Option.some.injEq]
      constructor
      · rintro rfl
        exact ⟨_, probe_lt log2Capacity key' d, update_self _ _ _⟩
      · rintro ⟨slot, hslot, heq⟩
        by_cases hat : slot = probe log2Capacity key' d
        · rw [hat, update_self] at heq
          exact congrArg Prod.snd heq
        · rw [update_of_ne hat] at heq
          exact absurd (hunique slot hslot (congrArg Prod.fst heq)) hat
    · rw [update_of_ne hself, h.content key' val' hkey']
      refine exists_congr fun slot ↦ and_congr_right fun hslot ↦ ?_
      by_cases hat : slot = probe log2Capacity key d
      · rw [hat, update_self]
        refine iff_of_false (fun heq ↦ ?_) fun heq ↦ hself (congrArg Prod.fst heq).symm
        have hfst : (tab (probe log2Capacity key d)).1 = key' := congrArg Prod.fst heq
        rcases hstop with hfree | hthere
        · exact hkey' (hfst.symm.trans hfree)
        · exact hself (hfst.symm.trans hthere)
      · rw [update_of_ne hat]

end Content

/-! ## Adding and looking up -/

section Operations

variable {log2Capacity turns : ℕ} {key val : Idx} {tab tab' : HashTab} {held : Idx → Option Idx}

theorem Holding.addKey (h : Holding log2Capacity tab held) (hkey : key ≠ -1)
    (hadd : addKey log2Capacity turns (bucketNoOf log2Capacity key) tab key val = some (tab', true)) :
    Holding log2Capacity tab' (update held key (some val)) := by
  unfold FaissNavix.addKey at hadd
  dsimp only at hadd
  obtain ⟨⟨slot, found⟩, hscan, hadd⟩ := Option.bind_eq_some_iff.mp hadd
  dsimp only at hadd
  -- with more turns, the loop ends at the same slot
  have hmore := Lib.iterate_mono hscan (Nat.le_add_right turns (bucketWidth log2Capacity))
  rcases scan_probe (fun slot ↦ decide ((tab slot).1 = -1 ∨ (tab slot).1 = key)) key
      (Nat.le_add_left (bucketWidth log2Capacity) turns) with ⟨d, hd, hstopped, hstop, hgo⟩ | ⟨hround, -⟩
  · obtain ⟨rfl, rfl⟩ := Prod.mk.inj (Option.some.inj (hstopped.symm.trans hmore))
    have hstop := of_decide_eq_true hstop
    have hbefore : ∀ i < d, (tab (probe log2Capacity key i)).1 ≠ -1 ∧ (tab (probe log2Capacity key i)).1 ≠ key :=
      fun i hi ↦ not_or.mp (of_decide_eq_false (hgo i hi))
    rw [if_pos rfl] at hadd
    have hwrite := h.write hkey hd hstop hbefore val
    split at hadd
    · obtain ⟨rfl, -⟩ := Prod.mk.inj (Option.some.inj hadd)
      exact hwrite
    · rename_i hused
      obtain ⟨rfl, -⟩ := Prod.mk.inj (Option.some.inj hadd)
      rw [hstop.resolve_left hused]
      exact hwrite
  · obtain ⟨-, rfl⟩ := Prod.mk.inj (Option.some.inj (hround.symm.trans hmore))
    rw [if_neg Bool.false_ne_true] at hadd
    exact absurd (Prod.mk.inj (Option.some.inj hadd)).2 Bool.false_ne_true

/-- The loop that looks a key up ends, with its value. -/
theorem Holding.lookupKey_eq (h : Holding log2Capacity tab held) (hkey : key ≠ -1)
    (hturns : bucketWidth log2Capacity ≤ turns) :
    lookupKey log2Capacity turns tab key = some ((held key).getD (-1)) := by
  have hzero := probe_zero log2Capacity key
  have hfirst : 0 < bucketWidth log2Capacity := bucketWidth_pos log2Capacity
  -- a key that is not at any of its probes is not stored
  have hnone : (∀ i < bucketWidth log2Capacity, (tab (probe log2Capacity key i)).1 ≠ key) → held key = none := by
    intro hgo
    cases hheld : held key with
    | none => rfl
    | some val =>
        obtain ⟨d, hfound, -⟩ := h.foundAt hkey hheld
        exact absurd hfound.key_eq (hgo d hfound.lt)
  have hsome : ∀ slot < 2 ^ log2Capacity, (tab slot).1 = key → held key = some (tab slot).2 := fun slot hslot hat ↦
    (h.content key _ hkey).mpr ⟨slot, hslot, Prod.ext hat rfl⟩
  unfold lookupKey
  dsimp only
  by_cases hfree : (tab (homeOf log2Capacity key)).1 = -1
  · rw [if_pos hfree]
    cases hheld : held key with
    | none => rfl
    | some val =>
        obtain ⟨d, hfound, -⟩ := h.foundAt hkey hheld
        rcases Nat.eq_zero_or_pos d with rfl | hpos
        · rw [← hzero] at hfree
          exact absurd (hfound.key_eq.symm.trans hfree) hkey
        · have hbefore := (hfound.before 0 hpos).1
          rw [hzero] at hbefore
          exact absurd hfree hbefore
  · rw [if_neg hfree]
    by_cases hthere : (tab (homeOf log2Capacity key)).1 = key
    · rw [if_pos hthere, hsome _ (homeOf_lt log2Capacity key) hthere, Option.getD_some]
    · rw [if_neg hthere]
      rcases scan_probe (fun slot ↦ decide ((tab slot).1 = key)) key hturns with
        ⟨d, -, hstopped, hstop, -⟩ | ⟨hround, hgo⟩
      · rw [hstopped, hsome _ (probe_lt log2Capacity key d) (of_decide_eq_true hstop)]
        rfl
      · rw [hround, hnone fun i hi ↦ of_decide_eq_false (hgo i hi)]
        rfl

/-! ## One call -/

variable {assertions : Bool} {entries : HashEntries} {bucket : ℕ} {js : List ℕ}

/-- What the entries `js` make of the content. -/
def heldAfter (entries : HashEntries) (held : Idx → Option Idx) (js : List ℕ) : Idx → Option Idx :=
  js.foldl (fun held j ↦ update held (entryOf entries j).1 (some (entryOf entries j).2)) held

theorem foldlM_addEntryTurn_false (tab : HashTab) :
    js.foldlM (addEntryTurn assertions log2Capacity turns entries bucket) (tab, false) = some (tab, false) := by
  induction js with
  | nil => rfl
  | cons j js ih =>
      rw [List.foldlM_cons]
      exact ih

theorem Holding.foldlM_addEntryTurn (h : Holding log2Capacity tab held)
    (hjs : ∀ j ∈ js, (entryOf entries j).1 ≠ -1 ∧ bucketNoOf log2Capacity (entryOf entries j).1 = bucket)
    (hrun : js.foldlM (addEntryTurn assertions log2Capacity turns entries bucket) (tab, true) = some (tab', true)) :
    Holding log2Capacity tab' (heldAfter entries held js) := by
  induction js generalizing tab held with
  | nil =>
      obtain ⟨rfl, -⟩ := Prod.mk.inj (Option.some.inj hrun)
      exact h
  | cons j js ih =>
      rw [List.foldlM_cons] at hrun
      obtain ⟨⟨tab₁, ok⟩, hturn, hrest⟩ := Option.bind_eq_some_iff.mp hrun
      obtain ⟨hkey, hbucket⟩ := hjs j List.mem_cons_self
      cases ok with
      | false =>
          rw [foldlM_addEntryTurn_false] at hrest
          exact absurd (Prod.mk.inj (Option.some.inj hrest)).2 Bool.false_ne_true
      | true =>
          have hadd : FaissNavix.addKey log2Capacity turns bucket tab (entryOf entries j).1 (entryOf entries j).2 =
              some (tab₁, true) := by
            unfold addEntryTurn at hturn
            dsimp only at hturn
            rw [if_neg (by decide)] at hturn
            split at hturn
            · cases hturn
            · split at hturn
              · cases hturn
              · exact hturn
          subst hbucket
          exact ih (h.addKey hkey hadd) (fun i hi ↦ hjs i (List.mem_cons_of_mem j hi)) hrest

def entriesOf (lims perm : ℕ → ℕ) (bucket : ℕ) : List ℕ :=
  read perm (lims bucket) (lims (bucket + 1) - lims bucket)

theorem foldlM_addBucket_false {lims perm : ℕ → ℕ} {buckets : List ℕ} {tab : HashTab} {s : HashTab × Bool}
    (hrun : buckets.foldlM (addBucket assertions log2Capacity turns entries lims perm) (tab, false) = some s) :
    s.2 = false := by
  induction buckets generalizing tab with
  | nil => exact Option.some.inj hrun ▸ rfl
  | cons bucket buckets ih =>
      rw [List.foldlM_cons] at hrun
      obtain ⟨⟨tab₁, ok⟩, hbucket, hrest⟩ := Option.bind_eq_some_iff.mp hrun
      obtain ⟨⟨tab₂, ok₂⟩, -, hpair⟩ := Option.bind_eq_some_iff.mp hbucket
      obtain ⟨rfl, rfl⟩ := Prod.mk.inj (Option.some.inj hpair)
      exact ih hrest

theorem Holding.foldlM_addBucket (h : Holding log2Capacity tab held) {lims perm : ℕ → ℕ} {buckets : List ℕ}
    (hjs : ∀ bucket ∈ buckets, ∀ j ∈ entriesOf lims perm bucket,
      (entryOf entries j).1 ≠ -1 ∧ bucketNoOf log2Capacity (entryOf entries j).1 = bucket)
    (hrun : buckets.foldlM (addBucket assertions log2Capacity turns entries lims perm) (tab, true) =
      some (tab', true)) :
    Holding log2Capacity tab' (heldAfter entries held (buckets.flatMap (entriesOf lims perm))) := by
  induction buckets generalizing tab held with
  | nil =>
      obtain ⟨rfl, -⟩ := Prod.mk.inj (Option.some.inj hrun)
      exact h
  | cons bucket buckets ih =>
      rw [List.foldlM_cons] at hrun
      obtain ⟨⟨tab₁, ok⟩, hbucket, hrest⟩ := Option.bind_eq_some_iff.mp hrun
      obtain ⟨⟨tab₂, ok₂⟩, hturns, hpair⟩ := Option.bind_eq_some_iff.mp hbucket
      obtain ⟨rfl, rfl⟩ := Prod.mk.inj (Option.some.inj hpair)
      cases ok₂ with
      | false => exact absurd (foldlM_addBucket_false hrest) (Ne.symm Bool.false_ne_true)
      | true =>
          have hfirst := h.foldlM_addEntryTurn (hjs bucket List.mem_cons_self) hturns
          have hall := ih hfirst (fun b hb ↦ hjs b (List.mem_cons_of_mem bucket hb)) hrest
          rwa [heldAfter, heldAfter, ← List.foldl_append] at hall

end Operations

/-! ## Whole runs -/

section Runs

variable {log2Capacity turns : ℕ} {key : Idx} {tab tab' : HashTab} {held : Idx → Option Idx} {calls : List HashEntries}
variable {assertions : Bool} {entries : HashEntries} {js : List ℕ} {threads : AddThreads}

theorem heldAfter_of_ne (h : ∀ j ∈ js, (entryOf entries j).1 ≠ key) :
    heldAfter entries held js key = held key := by
  unfold heldAfter
  induction js generalizing held with
  | nil => rfl
  | cons j js ih =>
      rw [List.foldl_cons, ih fun i hi ↦ h i (List.mem_cons_of_mem j hi),
        update_of_ne (Ne.symm (h j List.mem_cons_self))]

/-- Where each key is there once, the order of the entries does not matter. -/
theorem heldAfter_of_mem (entries : HashEntries) (held : Idx → Option Idx) {j : ℕ} (hj : j ∈ js)
    (hunique : ∀ i ∈ js, (entryOf entries i).1 = (entryOf entries j).1 → i = j) :
    heldAfter entries held js (entryOf entries j).1 = some (entryOf entries j).2 := by
  induction js using List.reverseRecOn with
  | nil => exact absurd hj List.not_mem_nil
  | append_singleton js i ih =>
      unfold heldAfter at ih ⊢
      rw [List.foldl_append]
      change update _ (entryOf entries i).1 _ _ = _
      by_cases hi : (entryOf entries i).1 = (entryOf entries j).1
      · rw [hunique i (List.mem_append_right js List.mem_cons_self) hi, update_self]
      · rw [update_of_ne (Ne.symm hi)]
        refine ih ?_ fun k hk ↦ hunique k (List.mem_append_left _ hk)
        rcases List.mem_append.mp hj with hj | hj
        · exact hj
        · exact absurd (congrArg (fun i ↦ (entryOf entries i).1) (List.mem_singleton.mp hj).symm) hi

theorem entryOf_mem {j : ℕ} (hj : j < entries.length) : entryOf entries j ∈ entries := by
  rw [entryOf, List.getD_eq_getElem _ _ hj]
  exact List.getElem_mem hj

theorem heldAfter_perm (hjs : js.Perm (List.range entries.length)) (hdistinct : (entries.map Prod.fst).Nodup)
    (held : Idx → Option Idx) (key : Idx) :
    heldAfter entries held js key = ((entries.find? (·.1 = key)).map Prod.snd).or (held key) := by
  cases hfind : entries.find? (·.1 = key) with
  | none =>
      refine heldAfter_of_ne fun j hj heq ↦ ?_
      have hlt := List.mem_range.mp (hjs.mem_iff.mp hj)
      exact List.find?_eq_none.mp hfind _ (entryOf_mem hlt) (decide_eq_true heq)
  | some e =>
      obtain ⟨j, hj, rfl⟩ := List.mem_iff_getElem.mp (List.mem_of_find?_eq_some hfind)
      have hkey : entries[j].1 = key := by simpa using List.find?_some hfind
      have hget : ∀ i (hi : i < entries.length), entryOf entries i = entries[i] := fun i hi ↦
        List.getD_eq_getElem _ _ hi
      have hmem := heldAfter_of_mem entries held (hjs.mem_iff.mpr (List.mem_range.mpr hj))
        fun i hi heq ↦ by
          have hi := List.mem_range.mp (hjs.mem_iff.mp hi)
          rw [hget i hi, hget j hj] at heq
          have hentry : entries[i] = entries[j] :=
            List.inj_on_of_nodup_map hdistinct (List.getElem_mem hi) (List.getElem_mem hj) heq
          exact (List.Nodup.getElem_inj_iff hdistinct.of_map).mp hentry
      rw [hget j hj, hkey] at hmem
      exact hmem

/-- A call that does not throw. -/
theorem Holding.hashtableAdd (h : Holding log2Capacity tab held) (hkeys : ∀ e ∈ entries, e.1 ≠ -1)
    (hdistinct : (entries.map Prod.fst).Nodup) (hthreads : threads.Valid log2Capacity entries.length)
    (hadd : hashtableAdd assertions log2Capacity turns tab entries threads = some (.ok tab')) :
    Holding log2Capacity tab' fun key ↦ ((entries.find? (·.1 = key)).map Prod.snd).or (held key) := by
  obtain ⟨lims, perm, hsort, hsorted⟩ := bucketSortParallel_sorted
    (fun i (_ : i < entries.length) ↦ bucketNoOf_lt log2Capacity (entryOf entries i).1)
    hthreads.nt_pos hthreads.counting hthreads.grabbing hthreads.placing fun _ ↦ 0
  unfold FaissNavix.hashtableAdd at hadd
  dsimp only at hadd
  rw [hsort] at hadd
  obtain ⟨⟨tab₁, ok⟩, hrun, hadd⟩ := Option.bind_eq_some_iff.mp hadd
  cases ok with
  | false => cases Option.some.inj hadd
  | true =>
      obtain rfl := Except.ok.inj (Option.some.inj hadd)
      have hslice : ∀ b < 2 ^ log2Nbucket log2Capacity, ∀ j ∈ entriesOf lims perm b,
          j < entries.length ∧ bucketNoOf log2Capacity (entryOf entries j).1 = b := by
        intro b hb j hj
        obtain ⟨hlt, heq⟩ := List.mem_filter.mp ((hsorted.slice b hb).mem_iff.mp hj)
        exact ⟨List.mem_range.mp hlt, of_decide_eq_true heq⟩
      have hholding := h.foldlM_addBucket (fun b hb j hj ↦ by
        have hb := List.mem_range.mp (hthreads.buckets.mem_iff.mp hb)
        obtain ⟨hlt, heq⟩ := hslice b hb j hj
        exact ⟨hkeys _ (entryOf_mem hlt), heq⟩) hrun
      have hall : (threads.buckets.flatMap (entriesOf lims perm)).Perm (List.range entries.length) := by
        refine (List.Perm.flatMap_right _ hthreads.buckets).trans ?_
        rw [show (List.range _).flatMap (entriesOf lims perm) = _ from
          hsorted.flatMap_slice fun i _ ↦ bucketNoOf_lt log2Capacity _]
        exact hsorted.perm_range fun i _ ↦ bucketNoOf_lt log2Capacity _
      have hpointwise := fun key ↦ heldAfter_perm hall hdistinct held key
      rwa [funext hpointwise] at hholding

theorem HashtableReached.holding (h : HashtableReached log2Capacity calls tab) :
    Holding log2Capacity tab (lastAdded calls) := by
  induction h with
  | init tab => exact holding_init log2Capacity tab
  | @add calls tab tab' entries threads assertions turns hreached hkeys hdistinct hthreads hadd ih =>
      have hnext := ih.hashtableAdd hkeys hdistinct hthreads hadd
      have hlast : lastAdded (calls ++ [entries]) =
          fun key ↦ ((entries.find? (·.1 = key)).map Prod.snd).or (lastAdded calls key) := by
        funext key
        rw [lastAdded, List.foldl_append]
        rfl
      rwa [hlast]

/-- After any calls that do not throw, each key is looked up with the value of the last call that contains it. -/
theorem hashtableLookup_eq (h : HashtableReached log2Capacity calls tab) {keys : List Idx}
    (hkeys : ∀ key ∈ keys, key ≠ -1) (hturns : 2 ^ log2Capacity ≤ turns) :
    hashtableLookup log2Capacity turns tab keys = some (keys.map fun key ↦ (lastAdded calls key).getD (-1)) := by
  have hwidth : bucketWidth log2Capacity ≤ turns := by
    refine le_trans ?_ hturns
    exact Nat.pow_le_pow_right Nat.two_pos (Nat.sub_le _ _)
  exact Lib.mapM_eq_some_map fun key hkey ↦ h.holding.lookupKey_eq (hkeys key hkey) hwidth

/-- A thread by itself, with one entry and one bucket. -/
def oneThread : AddThreads :=
  ⟨1, [0], [0], [(0, 0)], [0]⟩

/-- A table of two slots with one key, whose value was added twice. -/
theorem hashtableLookup_eq_two : ∃ tab, HashtableReached 1 [[(5, 7)], [(5, 8)]] tab ∧
    hashtableLookup 1 2 tab [5, 6] = some ([5, 6].map fun key ↦ (lastAdded [[(5, 7)], [(5, 8)]] key).getD (-1)) := by
  have hthreads : oneThread.Valid 1 1 :=
    ⟨Nat.one_pos, List.Perm.refl _, List.Perm.refl _, ⟨by decide, by decide⟩, List.Perm.refl _⟩
  have hfirst : hashtableAdd true 1 2 (hashtableInit 1 fun _ ↦ (0, 0)) [(5, 7)] oneThread =
      some (.ok (update (hashtableInit 1 fun _ ↦ (0, 0)) 1 (5, 7))) := rfl
  have hsecond : hashtableAdd true 1 2 (update (hashtableInit 1 fun _ ↦ (0, 0)) 1 (5, 7)) [(5, 8)] oneThread =
      some (.ok (update (update (hashtableInit 1 fun _ ↦ (0, 0)) 1 (5, 7)) 1 (5, 8))) := rfl
  have hreached : HashtableReached 1 [[(5, 7)], [(5, 8)]] _ :=
    .add (.add (.init fun _ ↦ (0, 0)) (List.forall_mem_singleton.mpr (by decide)) (List.nodup_singleton _) hthreads
      hfirst) (List.forall_mem_singleton.mpr (by decide)) (List.nodup_singleton _) hthreads hsecond
  have hkeys : ∀ key ∈ ([5, 6] : List Idx), key ≠ -1 :=
    List.forall_mem_cons.mpr ⟨by decide, List.forall_mem_singleton.mpr (by decide)⟩
  exact ⟨_, hreached, hashtableLookup_eq hreached hkeys (by decide)⟩

end Runs

end FaissNavix
