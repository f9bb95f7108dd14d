import FaissNavix.Serialize.BinaryHash
import Mathlib.Tactic.Ring

/-!
# A map of a multi-hash index, written and read back

The number of bits for an id is also the number of bits for the size of a bucket, which does not fit
where one bucket has all of the vectors and their number is a power of two.
-/

namespace FaissNavix

open Lib (DefaultMap Decoder Decodes Keyed Turn bitAt decodes_check decodes_nat decodes_ofOption
  decodes_pure iterate_total toBits toBytes)

/-! ## Numbers of bits -/

/-- The loop stops at the first number of bits that it does not go on from. -/
theorem whileBits_eq {more : ℕ → Bool} {turns w : ℕ} (h : ∀ nbit, more nbit = true ↔ nbit < w)
    (hw : w ≤ turns) : whileBits more turns = some w := by
  have hturn : ∀ nbit, nbit ≤ w →
      (∃ s, (if more nbit then Turn.next (nbit + 1) else .done nbit) = .done s ∧ s = w) ∨
        ∃ s, (if more nbit then Turn.next (nbit + 1) else .done nbit) = .next s ∧ s ≤ w ∧
          w - s < w - nbit := by
    intro nbit hnbit
    rcases Nat.lt_or_ge nbit w with hlt | hge
    · exact Or.inr ⟨nbit + 1, if_pos ((h nbit).mpr hlt), hlt, by omega⟩
    · refine Or.inl ⟨nbit, if_neg fun hmore ↦ ?_, Nat.le_antisymm hnbit hge⟩
      exact absurd ((h nbit).mp hmore) (not_lt.mpr hge)
  obtain ⟨r, hr, rfl⟩ := iterate_total (w - ·) hturn (turns + 1) 0 (Nat.zero_le w) (by omega)
  exact hr

theorem clog_le_self (n : ℕ) : Nat.clog 2 n ≤ n :=
  Nat.clog_le_of_le_pow Nat.lt_two_pow_self.le

theorem clog_le_of_lt {n : ℕ} (h : n < 2 ^ 63) : Nat.clog 2 n ≤ 63 :=
  Nat.clog_le_of_le_pow h.le

theorem bufferSize_of_lt {nbit : ℕ} (h : nbit + 7 < 2 ^ 64) : bufferSize nbit = (nbit + 7) / 8 := by
  unfold bufferSize
  rw [sizeT_of_lt (by omega : nbit < 2 ^ 64), sizeT_of_lt h]

theorem bufferSize_of_le {nbit : ℕ} (h : 2 ^ 64 ≤ nbit + 7) :
    8 * bufferSize nbit + 2 ^ 64 ≤ nbit + 7 := by
  unfold bufferSize sizeT
  omega

theorem bufferSize_lt (nbit : ℕ) : bufferSize nbit < 2 ^ 61 := by
  unfold bufferSize sizeT
  omega

theorem lt_of_advances {wr : BitstringWriter} {nbit : ℕ}
    (h : (BitstringWriter.new (bufferSize nbit)).Advances wr nbit) : nbit + 7 < 2 ^ 64 := by
  by_contra hle
  have hfew := bufferSize_of_le (not_lt.mp hle)
  obtain ⟨hi, -, hlt⟩ := h
  have hlen : (BitstringWriter.new (bufferSize nbit)).code.length = bufferSize nbit :=
    List.length_replicate
  have hstart : (BitstringWriter.new (bufferSize nbit)).i = 0 := rfl
  omega

/-- The file that is written is read from, and what comes after it is left: a map with the same keys,
and the same for each of them. -/
def Restores {V : Type} (written : Option (List UInt8)) (reader : Decoder (DefaultMap V))
    (map : DefaultMap V) : Prop :=
  ∃ file map', written = some file ∧ Decodes reader file map' ∧
    ∀ key, map'.lookup key = map.lookup key

/-! ## A bucket -/

variable {b idBits n : ℕ} {e : Keyed (List ℕ)}

def bucketBits (b idBits : ℕ) (e : Keyed (List ℕ)) : List Bool :=
  toBits b e.1 ++ (toBits idBits e.2.length ++ e.2.flatMap (toBits idBits))

theorem length_bucketBits (b idBits : ℕ) (e : Keyed (List ℕ)) :
    (bucketBits b idBits e).length = b + idBits + e.2.length * idBits := by
  rw [bucketBits, List.length_append, List.length_append, Lib.length_toBits, Lib.length_toBits,
    Lib.length_flatMap_toBits, Nat.add_assoc]

theorem Counted.sum_bits {order : List (Keyed (List ℕ))} (h : Counted List.length b n order)
    (idBits : ℕ) : (order.map fun e ↦ b + idBits + e.2.length * idBits).sum =
      (b + idBits) * order.length + n * idBits := by
  rw [← h.2]
  clear h
  induction order with
  | nil => simp only [List.map_nil, List.sum_nil, List.length_nil, Nat.mul_zero, Nat.zero_mul,
      Nat.add_zero]
  | cons e order ih =>
      rw [List.map_cons, List.sum_cons, ih, List.length_cons, List.map_cons, List.sum_cons]
      ring

/-- The key, the size and the ids have as many bits as they are written with. -/
structure Fits (b idBits : ℕ) (e : Keyed (List ℕ)) : Prop where
  key_lt : e.1 < 2 ^ b
  size_lt : e.2.length < 2 ^ idBits
  id_lt : ∀ id ∈ e.2, id < 2 ^ idBits
  pos : 0 < idBits

theorem Fits.writes (h : Fits b idBits e) (hb : b ≤ 63) (hid : idBits ≤ 63) :
    BitstringWriter.Writes (writeIds b idBits · e) (bucketBits b idBits e) 0 := by
  have hpos := h.pos
  refine BitstringWriter.Writes.bind (BitstringWriter.writes_write h.key_lt (by omega) ?_) ?_
  · rw [List.length_append, Lib.length_toBits]
    omega
  · refine BitstringWriter.Writes.bind
      (BitstringWriter.writes_write h.size_lt (by omega) (by omega)) ?_
    exact BitstringWriter.writes_foldlM fun id hmem ↦
      BitstringWriter.writes_write (h.id_lt id hmem) (by omega) (by omega)

theorem reads_readIds {ids : List ℕ} (h : ∀ id ∈ ids, id < 2 ^ idBits) (hpos : 0 < idBits)
    (hid : idBits ≤ 63) :
    BitstringReader.Reads (readIds idBits ids.length) (ids.flatMap (toBits idBits)) ids 0 := by
  induction ids with
  | nil => exact fun rd after hrd _ ↦ ⟨rd, rfl, hrd⟩
  | cons id ids ih =>
      intro rd after hrd hafter
      rw [List.flatMap_cons, List.append_assoc] at hrd
      obtain ⟨rd₁, hread, hrd₁⟩ := BitstringReader.reads_read (h id List.mem_cons_self)
        (by omega) (by omega) rd _ hrd (Nat.zero_le _)
      obtain ⟨rd₂, hreads, hrd₂⟩ :=
        ih (fun id' hmem ↦ h id' (List.mem_cons_of_mem id hmem)) rd₁ after hrd₁ hafter
      refine ⟨rd₂, ?_, hrd₂⟩
      rw [List.length_cons, readIds]
      dsimp only at hread
      rw [hread, Option.bind_eq_bind, Option.bind_some]
      dsimp only
      rw [hreads]
      rfl

theorem Fits.reads (h : Fits b idBits e) (hb : b ≤ 63) (hid : idBits ≤ 63) {rd : BitstringReader}
    {after : List Bool} (hrd : rd.Sees (bucketBits b idBits e ++ after)) (map : DefaultMap (List ℕ)) :
    ∃ rd', readBucket b idBits (rd, map) = some (rd', map.modify e.1 (· ++ e.2)) ∧
      rd'.Sees after := by
  have hpos := h.pos
  rw [bucketBits, List.append_assoc, List.append_assoc] at hrd
  obtain ⟨rd₁, hkey, hrd₁, -⟩ := hrd.read h.key_lt (by omega) (by
    rw [List.length_append, Lib.length_toBits]
    omega)
  obtain ⟨rd₂, hsize, hrd₂, -⟩ := hrd₁.read h.size_lt (by omega) (by omega)
  obtain ⟨rd₃, hids, hrd₃⟩ := reads_readIds h.id_lt hpos hid rd₂ after hrd₂ (Nat.zero_le _)
  refine ⟨rd₃, ?_, hrd₃⟩
  unfold readBucket
  dsimp only
  rw [hkey, Option.bind_eq_bind, Option.bind_some]
  dsimp only
  rw [hsize, Option.bind_some]
  dsimp only
  rw [hids]
  rfl

theorem foldlM_readBucket {order : List (Keyed (List ℕ))} (h : ∀ e ∈ order, Fits b idBits e)
    (hb : b ≤ 63) (hid : idBits ≤ 63) {rd : BitstringReader} {after : List Bool}
    (hrd : rd.Sees (order.flatMap (bucketBits b idBits) ++ after)) (map : DefaultMap (List ℕ)) :
    ∃ rd', (List.range order.length).foldlM (fun s _ ↦ readBucket b idBits s) (rd, map) =
      some (rd', order.foldl (fun map e ↦ map.modify e.1 (· ++ e.2)) map) := by
  induction order generalizing rd map with
  | nil => exact ⟨rd, rfl⟩
  | cons e order ih =>
      rw [List.flatMap_cons, List.append_assoc] at hrd
      obtain ⟨rd₁, hread, hrd₁⟩ := (h e List.mem_cons_self).reads hb hid hrd map
      obtain ⟨rd₂, hrest⟩ := ih (fun e' he' ↦ h e' (List.mem_cons_of_mem e he')) hrd₁
        (map.modify e.1 (· ++ e.2))
      refine ⟨rd₂, ?_⟩
      rw [List.length_cons, List.range_succ_eq_map, List.foldlM_cons, hread, Option.bind_eq_bind,
        Option.bind_some, List.foldlM_map, List.foldl_cons]
      exact hrest

/-! ## What the file says -/

theorem advances_writeIds (e : Keyed (List ℕ)) (hb : b ≤ 63) (hid : idBits ≤ 63)
    {wr wr' : BitstringWriter} (h : writeIds b idBits wr e = some wr') :
    wr.Advances wr' (b + idBits + e.2.length * idBits) := by
  unfold writeIds at h
  obtain ⟨wr₁, hkey, h⟩ := Option.bind_eq_some_iff.mp h
  obtain ⟨wr₂, hsize, hids⟩ := Option.bind_eq_some_iff.mp h
  have hadv := (BitstringWriter.advances_write hkey (by omega)).trans
    (BitstringWriter.advances_write hsize (by omega))
  have hlist : wr₂.Advances wr' (e.2.map fun _ ↦ idBits).sum :=
    BitstringWriter.advances_foldlM
      (fun id _ wr wr' hwr ↦ BitstringWriter.advances_write hwr (by omega))
      (by rw [hadv.2.1]; exact hadv.2.2) hids
  rw [List.map_const', List.sum_replicate_nat] at hlist
  exact hadv.trans hlist

theorem whileBits_ntotal (n : ℕ) :
    whileBits (fun idBits ↦ decide (2 ^ idBits < n)) n = some (Nat.clog 2 n) :=
  whileBits_eq (fun nbit ↦ decide_eq_true_iff.trans (Nat.lt_clog_iff_pow_lt (by decide)).symm)
    (clog_le_self n)

/-- What is read from a file with as many bytes as there should be, if they are not too many. -/
theorem run_readBinaryMultiHashMap (b n : ℕ) {sz : ℕ} (hid : idBits < 256 ^ 4) (hsz : sz < 256 ^ 8)
    {code : List UInt8} (hcode : code.length < 2 ^ 40)
    (hlen : code.length = bufferSize ((b + idBits) * sz + n * idBits)) (s : List UInt8) :
    (readBinaryMultiHashMap b n).run
        (toBytes 4 idBits ++ (toBytes 8 sz ++ writeVector byteBytes code) ++ s) =
      ((List.range sz).foldlM (fun s _ ↦ readBucket b idBits s)
        (⟨code, 0⟩, (∅ : DefaultMap (List ℕ)))).map fun r ↦ (r.2, s) := by
  have hvector := decodes_readVector hcode fun x _ ↦ decodes_readByte x
  have hcheck := decodes_check (decide_eq_true hlen)
  unfold readBinaryMultiHashMap
  rw [List.append_assoc, List.append_assoc, (decodes_nat hid).run_bind, (decodes_nat hsz).run_bind,
    hvector.run_bind, ← List.nil_append s, hcheck.run_bind]
  cases (List.range sz).foldlM (fun s _ ↦ readBucket b idBits s)
      (⟨code, 0⟩, (∅ : DefaultMap (List ℕ))) with
  | none => rfl
  | some r => rfl

theorem run_readBinaryMultiHashMap_of_le (b n : ℕ) {sz : ℕ} (hid : idBits < 256 ^ 4)
    (hsz : sz < 256 ^ 8) {code : List UInt8} (hle : 2 ^ 40 ≤ code.length)
    (hlt : code.length < 2 ^ 64) (s : List UInt8) :
    (readBinaryMultiHashMap b n).run
      (toBytes 4 idBits ++ (toBytes 8 sz ++ writeVector byteBytes code) ++ s) = none := by
  unfold readBinaryMultiHashMap
  rw [List.append_assoc, List.append_assoc, (decodes_nat hid).run_bind, (decodes_nat hsz).run_bind,
    StateT.run_bind, readVector_of_le hle hlt]
  rfl

theorem bitAt_of_foldlM_write {ids : List ℕ} {wr wr' : BitstringWriter}
    (h : ids.foldlM (fun wr id ↦ wr.write id idBits) wr = some wr') {p : ℕ} (hp : p < wr.i) :
    bitAt wr'.code p = bitAt wr.code p := by
  induction ids generalizing wr with
  | nil =>
      obtain rfl := Option.some.inj h
      rfl
  | cons id ids ih =>
      rw [List.foldlM_cons] at h
      obtain ⟨wr₁, hwrite, h⟩ := Option.bind_eq_some_iff.mp h
      obtain ⟨hi, -, -, hbelow, -⟩ := BitstringWriter.of_write hwrite
      rw [ih h (by omega), hbelow p (by omega), decide_eq_false (not_le.mpr hp), Bool.false_and,
        Bool.or_false]

/-- A size that is a power of two too large leaves no bit where it should be. -/
theorem bitAt_of_writeIds {size : ℕ} {wr : BitstringWriter} (hkey : e.1 < 2 ^ b)
    (hsize : e.2.length = 2 ^ idBits)
    (h : writeIds b idBits (BitstringWriter.new size) e = some wr) {q : ℕ} (hq : q < idBits) :
    bitAt wr.code (b + q) = false := by
  unfold writeIds at h
  obtain ⟨wr₁, hwrite₁, h⟩ := Option.bind_eq_some_iff.mp h
  obtain ⟨wr₂, hwrite₂, hids⟩ := Option.bind_eq_some_iff.mp h
  obtain ⟨hi₁, -, -, -, habove₁⟩ := BitstringWriter.of_write hwrite₁
  obtain ⟨hi₂, -, -, hbelow₂, -⟩ := BitstringWriter.of_write hwrite₂
  have hstart : wr₁.i = b := hi₁.trans (Nat.zero_add b)
  have hclear : bitAt wr₁.code (b + q) = false := by
    rw [habove₁ hkey (b + q) (by
      rw [← hi₁, hstart]
      exact Nat.le_add_right b q)]
    exact Lib.bitAt_replicate_zero size (b + q)
  rw [bitAt_of_foldlM_write hids (by omega), hbelow₂ (b + q) (by omega), hclear, hstart, hsize,
    Nat.add_sub_cancel_left, Nat.testBit_two_pow_of_ne (by omega), Bool.and_false, Bool.or_false]

/-- Such a bucket is read as one without ids. -/
theorem ids_of_readBucket {code : List UInt8} (h : ∀ q < idBits, bitAt code (b + q) = false)
    {map : DefaultMap (List ℕ)} {r : BitstringReader × DefaultMap (List ℕ)}
    (hr : readBucket b idBits (⟨code, 0⟩, map) = some r) :
    ∃ hash, r.2 = map.modify hash (· ++ []) := by
  unfold readBucket at hr
  dsimp only at hr
  obtain ⟨⟨hash, rd₁⟩, hkey, hr⟩ := Option.bind_eq_some_iff.mp hr
  obtain ⟨⟨ilsz, rd₂⟩, hsize, hr⟩ := Option.bind_eq_some_iff.mp hr
  obtain ⟨rfl, -⟩ := BitstringReader.of_read hkey
  obtain ⟨-, hbits⟩ := BitstringReader.of_read hsize
  obtain rfl : ilsz = 0 := by
    refine Nat.zero_of_testBit_eq_false fun q ↦ ?_
    rw [hbits]
    by_cases hq : q < idBits
    · dsimp only
      rw [Nat.zero_add, h q hq, Bool.and_false]
    · rw [decide_eq_false hq, Bool.false_and]
  refine ⟨hash, ?_⟩
  cases hr
  rfl

/-! ## When a map is restored -/

def mapBits (b n sz : ℕ) : ℕ :=
  (b + Nat.clog 2 n) * sz + n * Nat.clog 2 n

variable {map : DefaultMap (List ℕ)} {order : List (Keyed (List ℕ))}

theorem writeBinaryMultiHashMap_eq (b n : ℕ) (order : List (Keyed (List ℕ))) :
    writeBinaryMultiHashMap b n order =
      (order.foldlM (writeIds b (Nat.clog 2 n)) (.new (bufferSize (mapBits b n order.length)))).map
        fun wr ↦ toBytes 4 (Nat.clog 2 n) ++
          (toBytes 8 order.length ++ writeVector byteBytes wr.code) := by
  unfold writeBinaryMultiHashMap
  rw [whileBits_ntotal, Option.map_eq_bind]
  rfl

/-- The buckets of a map that has no bucket of a power of two with all of the vectors. -/
theorem fits_of_counted (hcounted : Counted List.length b n order)
    (hids : ∀ e ∈ order, ∀ id ∈ e.2, id < n)
    (hpow : ∀ e ∈ order, e.2.length = n → ∀ w, n ≠ 2 ^ w) (he : e ∈ order) :
    Fits b (Nat.clog 2 n) e := by
  have hle : n ≤ 2 ^ Nat.clog 2 n := Nat.le_pow_clog (by decide) n
  have hsize := hcounted.size_le he
  have hlt : e.2.length < 2 ^ Nat.clog 2 n := by
    refine lt_of_le_of_ne (hsize.trans hle) fun heq ↦ ?_
    exact hpow e he (by omega) (Nat.clog 2 n) (by omega)
  obtain ⟨hkey, hpos⟩ := hcounted.1 e he
  refine ⟨hkey, hlt, fun id hid ↦ (hids e he id hid).trans_le hle, Nat.pos_of_ne_zero fun hzero ↦ ?_⟩
  rw [hzero] at hlt
  omega

/-- A map that fits is restored. -/
theorem restores_multi (hb : b ≤ 63) (hcounted : Counted List.length b n map.entries)
    (hids : ∀ e ∈ map.entries, ∀ id ∈ e.2, id < n)
    (hpow : ∀ e ∈ map.entries, e.2.length = n → ∀ w, n ≠ 2 ^ w)
    (hbits : (mapBits b n map.entries.length + 7) / 8 < 2 ^ 40) (hperm : order.Perm map.entries)
    (hn : n < 2 ^ 63) :
    Restores (writeBinaryMultiHashMap b n order) (readBinaryMultiHashMap b n) map := by
  have hfits : ∀ e ∈ order, Fits b (Nat.clog 2 n) e := fun e he ↦
    fits_of_counted hcounted hids hpow (hperm.mem_iff.mp he)
  have hid := clog_le_of_lt hn
  have hlen := hperm.length_eq
  have hcounted' := hcounted.perm hperm
  have hsz := hcounted'.length_le
  have hbuffer : bufferSize (mapBits b n order.length) = (mapBits b n order.length + 7) / 8 :=
    bufferSize_of_lt (by rw [hlen]; omega)
  have hnew : (BitstringWriter.new (bufferSize (mapBits b n order.length))).code.length =
      bufferSize (mapBits b n order.length) := List.length_replicate
  have htotal : (order.flatMap (bucketBits b (Nat.clog 2 n))).length = mapBits b n order.length := by
    rw [List.length_flatMap]
    simp only [length_bucketBits]
    exact hcounted'.sum_bits _
  obtain ⟨wr, hwrite, hwrote, hcode⟩ := BitstringWriter.writes_foldlM
    (fun e he ↦ (hfits e he).writes hb hid) _ _ (BitstringWriter.wrote_new _) (by
      rw [hnew, htotal, hbuffer, List.length_nil]
      omega)
  rw [List.nil_append] at hwrote
  rw [hnew] at hcode
  have hsees := BitstringReader.sees_of_wrote hwrote (by
    rw [hcode, htotal, hbuffer]
    omega)
  rw [← List.append_nil (order.flatMap _)] at hsees
  obtain ⟨rd, hread⟩ := foldlM_readBucket hfits hb hid hsees ∅
  refine ⟨_, order.foldl (fun map e ↦ map.modify e.1 (· ++ e.2)) ∅,
    (writeBinaryMultiHashMap_eq b n order).trans (congrArg _ hwrite), fun s ↦ ?_, fun key ↦ ?_⟩
  · have hshort : wr.code.length < 2 ^ 40 := by
      rw [hcode, hbuffer, hlen]
      exact hbits
    rw [run_readBinaryMultiHashMap b n (by omega) (by omega) hshort hcode, hread]
    rfl
  · exact DefaultMap.lookup_foldl_empty (fun e ↦ List.nil_append e.2) hperm key

/-- A map that is restored fits. -/
theorem of_restores_multi (hb : b ≤ 63) (hcounted : Counted List.length b n map.entries)
    (hperm : order.Perm map.entries) (hn : n < 2 ^ 63)
    (h : Restores (writeBinaryMultiHashMap b n order) (readBinaryMultiHashMap b n) map) :
    (∀ e ∈ map.entries, e.2.length = n → ∀ w, n ≠ 2 ^ w) ∧
      (mapBits b n map.entries.length + 7) / 8 < 2 ^ 40 := by
  obtain ⟨file, map', hfile, hdecodes, hlookup⟩ := h
  rw [writeBinaryMultiHashMap_eq] at hfile
  obtain ⟨wr, hwrite, rfl⟩ := Option.map_eq_some_iff.mp hfile
  have hid := clog_le_of_lt hn
  have hcounted' := hcounted.perm hperm
  have hsz := hcounted'.length_le
  have hadv := BitstringWriter.advances_foldlM
    (fun e _ wr wr' hwr ↦ advances_writeIds e hb hid hwr) (by exact Nat.zero_lt_succ _) hwrite
  rw [hcounted'.sum_bits] at hadv
  have hbuffer := bufferSize_of_lt (lt_of_advances hadv)
  have hcode : wr.code.length = bufferSize (mapBits b n order.length) :=
    hadv.2.1.trans List.length_replicate
  have hlt := bufferSize_lt (mapBits b n order.length)
  have hrun := hdecodes []
  have hshort : wr.code.length < 2 ^ 40 := by
    by_contra hle
    rw [run_readBinaryMultiHashMap_of_le b n (by omega) (by omega) (not_lt.mp hle) (by omega)] at hrun
    cases hrun
  refine ⟨fun e he hall w hpow ↦ ?_, ?_⟩
  · -- the only bucket is read as one without ids
    obtain rfl := hcounted'.eq_singleton (hperm.mem_iff.mpr he) hall
    have hw : Nat.clog 2 n = w := hpow ▸ Nat.clog_pow 2 w (by decide)
    rw [run_readBinaryMultiHashMap b n (by omega) (by omega) hshort hcode] at hrun
    obtain ⟨r, hr, heq⟩ := Option.map_eq_some_iff.mp hrun
    obtain ⟨r₁, hbucket, hr⟩ := Option.bind_eq_some_iff.mp hr
    obtain ⟨hkey, hpos⟩ := hcounted.1 e he
    obtain ⟨wr₁, hone, hwr⟩ := Option.bind_eq_some_iff.mp hwrite
    cases hwr
    cases hr
    obtain ⟨hash, hmap⟩ := ids_of_readBucket (fun q hq ↦
      bitAt_of_writeIds hkey (by rw [hw, hall, hpow]) hone hq) hbucket
    have hentry : map.lookup e.1 = some e.2 := AList.mem_lookup_iff.mpr he
    have hread := hlookup e.1
    rw [← (Prod.mk.inj heq).1, hmap, hentry] at hread
    rcases eq_or_ne e.1 hash with heq | hne
    · rw [heq, DefaultMap.lookup_modify_self] at hread
      rw [← Option.some.inj hread] at hpos
      exact absurd hpos (Nat.lt_irrefl 0)
    · rw [DefaultMap.lookup_modify_of_ne hne] at hread
      cases hread
  · rw [← hperm.length_eq, ← hbuffer]
    omega

end FaissNavix
