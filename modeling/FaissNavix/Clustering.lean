import FaissNavix.Lib.Loop
import FaissNavix.Lib.Region
import FaissNavix.Lib.Segments
import FaissNavix.MetricType

/-!
# Clustering

`Clustering::train_encoded` of `faiss/Clustering.cpp`: k-means with centroids that may be given as input
and frozen.  The index only answers searches, and its answers are part of the input; so are the random
choices.  The arithmetic of floats is a parameter, since centroids are only copied where it matters.
-/

namespace FaissNavix

open Lib (overwrite segment regrow foldl_invariant foldlM_invariant)

/-- `std::isfinite` -/
def F32.isFinite (x : F32) : Bool := decide (x.magnitude < 0x7f800000)

/-- The arithmetic on floats that k-means needs. -/
structure FloatArith where
  add : F32 → F32 → F32
  sub : F32 → F32 → F32
  mul : F32 → F32 → F32
  /-- `1.0f` -/
  one : F32
  /-- `1 / x` -/
  inverse : F32 → F32
  /-- `x / 2` -/
  half : F32 → F32
  /-- `x * (1 + EPS)` -/
  scaleUp : F32 → F32
  /-- `x * (1 - EPS)` -/
  scaleDown : F32 → F32
  /-- `(hassign - 1.0) / (float)n` -/
  splitProbability : F32 → ℕ → F32
  /-- `fvec_renorm_L2` -/
  renorm : ℕ → ℕ → List F32 → List F32
  /-- `roundf` -/
  round : F32 → F32

/-- An index as a codec of vectors: `sa_decode` of one vector writes `d` floats. -/
structure VectorCodec where
  d : ℕ
  decode : List UInt8 → List F32
  length_decode : ∀ code, (decode code).length = d

/-- `ClusteringParameters` -/
structure ClusteringParameters where
  niter : ℤ
  nredo : ℤ
  spherical : Bool
  intCentroids : Bool
  frozenCentroids : Bool
  maxPointsPerCentroid : ℤ
  checkInputDataForNaNs : Bool

/-- `Clustering`, as far as it has an effect on the centroids. -/
structure Clustering extends ClusteringParameters where
  d : ℕ
  k : ℕ
  centroids : List F32

/-- The arguments of `train_encoded`: the rows of the training set, the codec and the weights, if there
are any, and the dimension and the metric of the index. -/
structure TrainingSet where
  nx : ℕ
  x : ℕ → List UInt8
  codec : Option VectorCodec
  weights : Option (ℕ → F32)
  indexD : ℕ
  indexMetric : MetricType

/-- What the search of an iteration returns: distances and assignments. -/
structure Assignment where
  dis : ℕ → F32
  assign : ℕ → ℤ

/-- What is left open by the arguments: the answers of the index in each iteration of each restart, the
random choices, the number of threads, and how many turns an endless loop is watched for. -/
structure Surroundings where
  answers : ℕ → ℕ → Assignment
  subsample : ℕ → ℕ
  perm : ℕ → ℕ → ℕ
  uniform : ℕ → F32
  threads : ℕ
  turns : ℕ

def floatsOf : List UInt8 → List F32
  | b0 :: b1 :: b2 :: b3 :: bytes => ⟨BitVec.ofNat 32 (Lib.ofBytes [b0, b1, b2, b3])⟩ :: floatsOf bytes
  | _ => []

/-- A vector of the training set. -/
def decodeVector (codec : Option VectorCodec) (code : List UInt8) : List F32 :=
  match codec with
  | none => floatsOf code
  | some codec => codec.decode code

section Steps

variable (arith : FloatArith) (d : ℕ)

/-- `compute_centroids`, for a vector and the thread that takes care of the centroids from `c0` on and
before `c1`.  A difference that is negative is no number below `c1` when it is taken as a `size_t`. -/
def accumulate (kFrozen c0 c1 : ℕ) (assign : ℕ → ℤ) (vector : ℕ → List F32) (weights : Option (ℕ → F32))
    (s : List F32 × List F32) (i : ℕ) : List F32 × List F32 :=
  let ci := assign i - kFrozen
  if c0 ≤ ci ∧ ci < c1 then
    let c := (kFrozen + ci.toNat) * d
    let xi := vector i
    match weights with
    | some weights =>
      (s.1.set ci.toNat (arith.add (s.1.getD ci.toNat .zero) (weights i)),
        (List.range d).foldl (fun centroids j ↦ centroids.set (c + j)
          (arith.add (centroids.getD (c + j) .zero) (arith.mul (xi.getD j .zero) (weights i)))) s.2)
    | none =>
      (s.1.set ci.toNat (arith.add (s.1.getD ci.toNat .zero) arith.one),
        (List.range d).foldl (fun centroids j ↦ centroids.set (c + j)
          (arith.add (centroids.getD (c + j) .zero) (xi.getD j .zero))) s.2)
  else s

/-- The loop of `compute_centroids` that divides by the numbers of points. -/
def normalise (kFrozen : ℕ) (hassign : List F32) (centroids : List F32) (ci : ℕ) : List F32 :=
  let h := hassign.getD ci .zero
  if h.feq .zero then centroids
  else
    let c := (kFrozen + ci) * d
    (List.range d).foldl (fun centroids j ↦
      centroids.set (c + j) (arith.mul (centroids.getD (c + j) .zero) (arith.inverse h))) centroids

/-- `compute_centroids`, unless an assertion fails: `hassign` and the centroids. -/
def computeCentroids (k n kFrozen threads : ℕ) (vector : ℕ → List F32) (assign : ℕ → ℤ)
    (weights : Option (ℕ → F32)) (hassign centroids : List F32) : Option (List F32 × List F32) :=
  if (List.range n).all fun i ↦ decide (0 ≤ assign i ∧ assign i < k) then
    let k := k - kFrozen
    let cleared := overwrite centroids (kFrozen * d) (List.replicate (d * k) .zero)
    let s := (List.range threads).foldl (fun s rank ↦
      (List.range n).foldl (accumulate arith d kFrozen (k * rank / threads) (k * (rank + 1) / threads)
        assign vector weights) s) (hassign, cleared)
    some (s.1, (List.range k).foldl (normalise arith d kFrozen s.1) s.2)
  else none

/-- The loop over `cj`, which may be endless: the cluster to be split, and the number of random floats
drawn. -/
def pickCluster (k n : ℕ) (uniform : ℕ → F32) (hassign : List F32) : ℕ → ℕ → ℕ → Option (ℕ × ℕ)
  | 0, _, _ => none
  | turns + 1, cj, drawn =>
    if uniform drawn < arith.splitProbability (hassign.getD cj .zero) (n - k) then some (cj, drawn + 1)
    else pickCluster k n uniform hassign turns ((cj + 1) % k) (drawn + 1)

/-- The small perturbation of two centroids. -/
def perturb (c c' : ℕ) (centroids : List F32) (j : ℕ) : List F32 :=
  let (scale, scale') :=
    if j % 2 = 0 then (arith.scaleUp, arith.scaleDown) else (arith.scaleDown, arith.scaleUp)
  let centroids := centroids.set (c + j) (scale (centroids.getD (c + j) .zero))
  centroids.set (c' + j) (scale' (centroids.getD (c' + j) .zero))

/-- What `split_clusters` works on. -/
structure Splitting where
  hassign : List F32
  centroids : List F32
  drawn : ℕ

/-- A turn of the loop of `split_clusters`. -/
def splitCluster (k n kFrozen : ℕ) (around : Surroundings) (s : Splitting) (ci : ℕ) : Option Splitting :=
  if (s.hassign.getD ci .zero).feq .zero then do
    let (cj, drawn) ← pickCluster arith k n around.uniform s.hassign around.turns 0 s.drawn
    let c := (kFrozen + ci) * d
    let c' := (kFrozen + cj) * d
    let centroids := overwrite s.centroids c (segment .zero s.centroids c' d)
    let half := arith.half (s.hassign.getD cj .zero)
    let hassign := s.hassign.set ci half
    some ⟨hassign.set cj (arith.sub (hassign.getD cj .zero) half),
      (List.range d).foldl (perturb arith c c') centroids, drawn⟩
  else some s

/-- `split_clusters` -/
def splitClusters (k n kFrozen : ℕ) (around : Surroundings) (hassign centroids : List F32) :
    Option (List F32) :=
  let k := k - kFrozen
  ((List.range k).foldlM (splitCluster arith d k n kFrozen around) ⟨hassign, centroids, 0⟩).map
    Splitting.centroids

end Steps

namespace Clustering

variable (clus : Clustering) (arith : FloatArith)

/-- `post_process_centroids` -/
def postProcessCentroids (centroids : List F32) : List F32 :=
  let centroids := if clus.spherical then arith.renorm clus.d clus.k centroids else centroids
  if clus.intCentroids then centroids.map arith.round else centroids

/-- `n_input_centroids` -/
def nInputCentroids : ℕ := clus.centroids.length / clus.d

/-- The centroids of a restart at first. -/
def initCentroids (t : TrainingSet) (perm : ℕ → ℕ) (centroids : List F32) : List F32 :=
  clus.postProcessCentroids arith
    ((List.range' clus.nInputCentroids (clus.k - clus.nInputCentroids)).foldl
      (fun centroids i ↦ overwrite centroids (i * clus.d) (decodeVector t.codec (t.x (perm i))))
      (regrow .zero centroids (clus.d * clus.k)))

/-- An iteration: the centroids, and the objective. -/
def iteration (t : TrainingSet) (around : Surroundings) (redo : ℕ) (s : List F32 × F32) (i : ℕ) :
    Option (List F32 × F32) := do
  let answer := around.answers redo i
  let obj := (List.range t.nx).foldl (fun obj j ↦ arith.add obj (answer.dis j)) .zero
  let kFrozen := if clus.frozenCentroids then clus.nInputCentroids else 0
  let (hassign, centroids) ← computeCentroids arith clus.d clus.k t.nx kFrozen around.threads
    (fun i ↦ decodeVector t.codec (t.x i)) answer.assign t.weights (List.replicate clus.k .zero) s.1
  let centroids ← splitClusters arith clus.d clus.k t.nx kFrozen around hassign centroids
  return (clus.postProcessCentroids arith centroids, obj)

/-- The centroids, the best ones so far, and their objective. -/
structure Restarts where
  centroids : List F32
  bestCentroids : List F32
  bestObj : F32

/-- A restart. -/
def restart (t : TrainingSet) (around : Surroundings) (s : Restarts) (redo : ℕ) : Option Restarts := do
  let centroids := clus.initCentroids arith t (around.perm redo) s.centroids
  let (centroids, obj) ← (List.range clus.niter.toNat).foldlM (clus.iteration arith t around redo)
    (centroids, .zero)
  let improved := if t.indexMetric.isSimilarity then decide (s.bestObj < obj) else decide (obj < s.bestObj)
  return if 1 < clus.nredo && improved then ⟨centroids, centroids, obj⟩ else { s with centroids }

/-- The rows after `subsample_training_set`, if there are too many. -/
def subsampled (t : TrainingSet) (subsample : ℕ → ℕ) : TrainingSet :=
  let limit := ((clus.k : ℤ) * clus.maxPointsPerCentroid % 2 ^ 64).toNat
  if limit < t.nx then
    { t with
      nx := limit
      x := fun i ↦ t.x (subsample i)
      weights := t.weights.map fun weights i ↦ weights (subsample i) }
  else t

/-- The checks at the beginning of `train_encoded`. -/
def accepts (t : TrainingSet) : Bool :=
  decide (clus.k ≤ t.nx) && t.codec.all (fun codec ↦ decide (codec.d = clus.d)) &&
    decide (t.indexD = clus.d) &&
    !(t.codec.isNone && clus.checkInputDataForNaNs &&
      (List.range t.nx).any fun i ↦ (floatsOf (t.x i)).any fun x ↦ !x.isFinite)

/-- `train_encoded`: the centroids, unless it throws, crashes or does not end. -/
def trainEncoded (t : TrainingSet) (around : Surroundings) : Option (List F32) :=
  if clus.accepts t then
    let sub := clus.subsampled t around.subsample
    if sub.nx = clus.k then
      -- the training set that was passed is copied, not the subset
      some ((List.range clus.k).foldl (fun centroids i ↦
        overwrite centroids (i * clus.d) (decodeVector t.codec (t.x i)))
        (regrow .zero clus.centroids (clus.d * clus.k)))
    else if clus.d = 0 then none
    else if clus.centroids.length % clus.d ≠ 0 then none
    else do
      let best := if t.indexMetric.isSimilarity then F32.inf.neg else .inf
      let s ← (List.range clus.nredo.toNat).foldlM (clus.restart arith sub around)
        ⟨clus.centroids, [], best⟩
      if 1 < clus.nredo then
        -- the index reads the centroids that are kept
        if clus.k * clus.d ≤ s.bestCentroids.length then some s.bestCentroids else none
      else some s.centroids
  else none

end Clustering

/-! ## What is not written -/

def Starts (input centroids : List F32) : Prop :=
  centroids.take input.length = input

section Frame

variable {arith : FloatArith} {d n kFrozen : ℕ} {input centroids : List F32}

theorem Starts.self (input : List F32) : Starts input input :=
  List.take_length

theorem Starts.length_le (h : Starts input centroids) : input.length ≤ centroids.length := by
  have hlen := congrArg List.length h
  rw [List.length_take] at hlen
  omega

theorem Starts.set (h : Starts input centroids) {i : ℕ} (hi : input.length ≤ i) (x : F32) :
    Starts input (centroids.set i x) :=
  (List.take_set_of_le hi).trans h

theorem Starts.overwrite (h : Starts input centroids) {b : ℕ} (hb : input.length ≤ b) (xs : List F32) :
    Starts input (overwrite centroids b xs) :=
  (Lib.take_overwrite hb xs).trans h

theorem Starts.regrow (h : Starts input centroids) {size : ℕ} (hsize : input.length ≤ size) :
    Starts input (regrow .zero centroids size) := by
  have hle := h.length_le
  unfold Starts Lib.regrow
  rw [List.take_append_of_le_length (by rw [List.length_take]; omega), List.take_take,
    min_eq_left hsize]
  exact h

theorem Starts.setEach (h : Starts input centroids) {c : ℕ} (hc : input.length ≤ c)
    (f : List F32 → ℕ → F32) (l : List ℕ) :
    Starts input (l.foldl (fun centroids j ↦ centroids.set (c + j) (f centroids j)) centroids) :=
  foldl_invariant (Starts input) h fun _ _ _ hs ↦ hs.set (hc.trans (Nat.le_add_right c _)) _

theorem Starts.accumulate (h : Starts input centroids) (hinput : input.length = kFrozen * d)
    (hassign : List F32) (c0 c1 : ℕ) (assign : ℕ → ℤ) (vector : ℕ → List F32)
    (weights : Option (ℕ → F32)) (i : ℕ) :
    Starts input
      (accumulate arith d kFrozen c0 c1 assign vector weights (hassign, centroids) i).2 := by
  have hc : ∀ ci, input.length ≤ (kFrozen + ci) * d := fun ci ↦
    hinput.trans_le (Nat.mul_le_mul_right d (Nat.le_add_right kFrozen ci))
  unfold FaissNavix.accumulate
  dsimp only
  split
  · cases weights with
    | some weights => exact h.setEach (hc _) _ _
    | none => exact h.setEach (hc _) _ _
  · exact h

theorem Starts.computeCentroids (h : Starts input centroids) (hinput : input.length = kFrozen * d)
    {k threads : ℕ} {vector : ℕ → List F32} {assign : ℕ → ℤ} {weights : Option (ℕ → F32)}
    {hassign : List F32} {s : List F32 × List F32}
    (hs : computeCentroids arith d k n kFrozen threads vector assign weights hassign centroids = some s) :
    Starts input s.2 := by
  unfold FaissNavix.computeCentroids at hs
  split at hs
  · obtain rfl := Option.some.inj hs
    refine foldl_invariant (Starts input) ?_ fun ci _ centroids hcentroids ↦ ?_
    · refine foldl_invariant (fun s : List F32 × List F32 ↦ Starts input s.2) (h.overwrite hinput.le _) fun rank _ s hs ↦ ?_
      exact foldl_invariant (fun s : List F32 × List F32 ↦ Starts input s.2) hs fun i _ s hs ↦
        Starts.accumulate hs hinput s.1 _ _ _ _ _ i
    · unfold normalise
      dsimp only
      split
      · exact hcentroids
      · exact hcentroids.setEach (hinput.trans_le
          (Nat.mul_le_mul_right d (Nat.le_add_right kFrozen ci))) _ _
  · cases hs

theorem Starts.splitClusters (h : Starts input centroids) (hinput : input.length = kFrozen * d)
    {k : ℕ} {around : Surroundings} {hassign centroids' : List F32}
    (hs : splitClusters arith d k n kFrozen around hassign centroids = some centroids') :
    Starts input centroids' := by
  have hc : ∀ ci, input.length ≤ (kFrozen + ci) * d := fun ci ↦
    hinput.trans_le (Nat.mul_le_mul_right d (Nat.le_add_right kFrozen ci))
  obtain ⟨s, hloop, rfl⟩ := Option.map_eq_some_iff.mp hs
  refine foldlM_invariant (fun s ↦ Starts input s.centroids) h (fun ci _ s s' hs hturn ↦ ?_) hloop
  unfold splitCluster at hturn
  split at hturn
  · obtain ⟨⟨cj, drawn⟩, -, hturn⟩ := Option.bind_eq_some_iff.mp hturn
    obtain rfl := Option.some.inj hturn
    refine foldl_invariant (Starts input) (hs.overwrite (hc ci) _) fun j _ centroids hcentroids ↦ ?_
    unfold perturb
    dsimp only
    exact (hcentroids.set ((hc ci).trans (Nat.le_add_right _ j)) _).set
      ((hc cj).trans (Nat.le_add_right _ j)) _
  · obtain rfl := Option.some.inj hturn
    exact hs

end Frame

/-! ## Frozen centroids -/

/-- The rows of the training set have `line_size` bytes. -/
def TrainingSet.Rows (t : TrainingSet) (d : ℕ) : Prop :=
  t.codec = none → ∀ i < t.nx, (t.x i).length = 4 * d

namespace Clustering

/-- The input centroids are frozen, whole, and not too many, and no other step changes centroids. -/
structure Frozen (clus : Clustering) : Prop where
  frozen : clus.frozenCentroids = true
  spherical : clus.spherical = false
  intCentroids : clus.intCentroids = false
  whole : clus.centroids.length = clus.nInputCentroids * clus.d
  le : clus.nInputCentroids ≤ clus.k

variable {clus : Clustering} {arith : FloatArith} {t : TrainingSet} {around : Surroundings}
  {centroids : List F32}

theorem Frozen.postProcess (h : clus.Frozen) (centroids : List F32) :
    clus.postProcessCentroids arith centroids = centroids := by
  unfold postProcessCentroids
  rw [h.spherical, h.intCentroids]
  rfl

theorem Frozen.length_le (h : clus.Frozen) : clus.centroids.length ≤ clus.d * clus.k := by
  rw [h.whole, Nat.mul_comm]
  exact Nat.mul_le_mul_left clus.d h.le

theorem Frozen.initCentroids (h : clus.Frozen) (hs : Starts clus.centroids centroids)
    (perm : ℕ → ℕ) : Starts clus.centroids (clus.initCentroids arith t perm centroids) := by
  unfold Clustering.initCentroids
  rw [h.postProcess]
  refine foldl_invariant (Starts clus.centroids) (hs.regrow h.length_le) fun i hi _ hs ↦ ?_
  refine hs.overwrite ?_ _
  rw [h.whole]
  exact Nat.mul_le_mul_right clus.d (List.mem_range'_1.mp hi).1

theorem Frozen.iteration (h : clus.Frozen) {redo i : ℕ} {s s' : List F32 × F32}
    (hs : Starts clus.centroids s.1) (hi : clus.iteration arith t around redo s i = some s') :
    Starts clus.centroids s'.1 := by
  unfold Clustering.iteration at hi
  rw [h.frozen, if_pos rfl] at hi
  obtain ⟨⟨hassign, computed⟩, hcompute, hi⟩ := Option.bind_eq_some_iff.mp hi
  obtain ⟨split, hsplit, hi⟩ := Option.bind_eq_some_iff.mp hi
  obtain rfl := Option.some.inj hi
  rw [h.postProcess]
  exact (hs.computeCentroids h.whole hcompute).splitClusters h.whole hsplit

/-- The best centroids so far are frozen as well, once there are some. -/
def KeepsInput (clus : Clustering) (s : Restarts) : Prop :=
  Starts clus.centroids s.centroids ∧ (s.bestCentroids = [] ∨ Starts clus.centroids s.bestCentroids)

theorem Frozen.restart (h : clus.Frozen) {redo : ℕ} {s s' : Restarts} (hs : clus.KeepsInput s)
    (hr : clus.restart arith t around s redo = some s') : clus.KeepsInput s' := by
  obtain ⟨⟨last, obj⟩, hloop, hr⟩ := Option.bind_eq_some_iff.mp hr
  have hlast : Starts clus.centroids last :=
    foldlM_invariant (fun s : List F32 × F32 ↦ Starts clus.centroids s.1)
      (h.initCentroids hs.1 (around.perm redo)) (fun i _ s s' hs hi ↦ h.iteration hs hi) hloop
  obtain rfl := Option.some.inj hr
  -- the direction of the comparison depends on the metric
  split
  all_goals
    split
    · exact ⟨hlast, .inr hlast⟩
    · exact ⟨hlast, hs.2⟩

/-- The training vectors are copied, since there are as many of them as clusters. -/
def JustCopies (clus : Clustering) (t : TrainingSet) (around : Surroundings) : Prop :=
  clus.accepts t = true ∧ (clus.subsampled t around.subsample).nx = clus.k

/-- Iterations, if there are any, do not change input centroids. -/
theorem Frozen.trainEncoded (h : clus.Frozen) (hiter : ¬ clus.JustCopies t around)
    (hout : clus.trainEncoded arith t around = some centroids) :
    Starts clus.centroids centroids := by
  unfold Clustering.trainEncoded at hout
  split at hout
  · rename_i haccepts
    rw [if_neg fun hnx ↦ hiter ⟨haccepts, hnx⟩] at hout
    split at hout
    · cases hout
    split at hout
    · cases hout
    obtain ⟨s, hloop, hout⟩ := Option.bind_eq_some_iff.mp hout
    have hs : clus.KeepsInput s :=
      foldlM_invariant clus.KeepsInput ⟨.self _, .inl rfl⟩ (fun redo _ s s' hs hr ↦ h.restart hs hr)
        hloop
    split at hout
    · split at hout
      · rename_i hread
        obtain rfl := Option.some.inj hout
        rcases hs.2 with hempty | hbest
        · -- no restart has improved the objective, and there is nothing to read
          have hzero : clus.centroids.length = 0 := by
            have hle := h.length_le
            rw [hempty, List.length_nil, Nat.mul_comm] at hread
            omega
          rw [hempty, List.eq_nil_of_length_eq_zero hzero]
          rfl
        · exact hbest
      · cases hout
    · obtain rfl := Option.some.inj hout
      exact hs.1
  · cases hout

theorem take_foldl_overwrite {d k n : ℕ} {rows : ℕ → List F32} (hrows : ∀ i < k, (rows i).length = d)
    (hn : n ≤ k) {centroids : List F32} (hlen : k * d ≤ centroids.length) :
    ((List.range k).foldl (fun centroids i ↦ overwrite centroids (i * d) (rows i)) centroids).take
      (n * d) = (List.range n).flatMap rows := by
  induction k generalizing n with
  | zero =>
      obtain rfl := Nat.le_zero.mp hn
      rw [Nat.zero_mul, List.take_zero]
      rfl
  | succ k ih =>
      have hle : k * d ≤ (k + 1) * d := Nat.mul_le_mul_right d (Nat.le_succ k)
      have hfirst := fun n (hn : n ≤ k) ↦
        @ih n (fun i hi ↦ hrows i (Nat.lt_succ_of_lt hi)) hn (hle.trans hlen)
      have hlength : ((List.range k).foldl (fun centroids i ↦ overwrite centroids (i * d) (rows i))
          centroids).length = centroids.length :=
        foldl_invariant (fun l : List F32 ↦ l.length = centroids.length) rfl fun i _ l hl ↦
          (Lib.length_overwrite _ _ _).trans hl
      rw [List.range_succ, List.foldl_append, List.foldl_cons, List.foldl_nil]
      rcases Nat.le_succ_iff.mp hn with hnk | rfl
      · rw [Lib.take_overwrite (Nat.mul_le_mul_right d hnk), hfirst n hnk]
      · have hk := hrows k (Nat.lt_succ_self k)
        have hroom : k * d + (rows k).length ≤ ((List.range k).foldl (fun centroids i ↦
            overwrite centroids (i * d) (rows i)) centroids).length := by
          rw [hlength, hk, ← Nat.succ_mul]
          exact hlen
        have hend := Lib.take_overwrite_end hroom
        rw [hk, ← Nat.succ_mul] at hend
        rw [hend, hfirst k le_rfl, List.range_succ, List.flatMap_append, List.flatMap_singleton]

theorem length_floatsOf {d : ℕ} {bytes : List UInt8} (h : bytes.length = 4 * d) :
    (floatsOf bytes).length = d := by
  induction d generalizing bytes with
  | zero =>
      rw [List.eq_nil_of_length_eq_zero h]
      rfl
  | succ d ih =>
      match bytes, h with
      | b0 :: b1 :: b2 :: b3 :: bytes, h =>
          simp only [List.length_cons] at h
          rw [floatsOf, List.length_cons, ih (by omega)]
      | [], h => exact absurd h (by simp)
      | [_], h => exact absurd h (by simp only [List.length_cons, List.length_nil]; omega)
      | [_, _], h => exact absurd h (by simp only [List.length_cons, List.length_nil]; omega)
      | [_, _, _], h => exact absurd h (by simp only [List.length_cons, List.length_nil]; omega)

theorem length_decodeVector (hrows : t.Rows clus.d) (haccepts : clus.accepts t = true) :
    ∀ i < t.nx, (decodeVector t.codec (t.x i)).length = clus.d := by
  intro i hi
  cases hcodec : t.codec with
  | none => exact length_floatsOf (hrows hcodec i hi)
  | some codec =>
      unfold accepts at haccepts
      rw [hcodec] at haccepts
      simp only [Option.all_some, Bool.and_eq_true, decide_eq_true_eq] at haccepts
      exact (codec.length_decode _).trans haccepts.1.1.2

/-- Frozen centroids are as they were exactly if the training set is not just copied over them, or begins
with the same vectors. -/
theorem frozen_kept_iff (clus : Clustering) (arith : FloatArith) (t : TrainingSet)
    (around : Surroundings) (h : clus.Frozen) (hrows : t.Rows clus.d) :
    (∀ centroids, clus.trainEncoded arith t around = some centroids →
      centroids.take clus.centroids.length = clus.centroids) ↔
    ¬ clus.JustCopies t around ∨
      ((List.range clus.nInputCentroids).flatMap fun i ↦ decodeVector t.codec (t.x i)) =
        clus.centroids := by
  by_cases hcopies : clus.JustCopies t around
  · rw [or_iff_right (not_not.mpr hcopies)]
    obtain ⟨haccepts, hnx⟩ := hcopies
    have hk : clus.k ≤ t.nx := by
      unfold accepts at haccepts
      simp only [Bool.and_eq_true, decide_eq_true_eq] at haccepts
      exact haccepts.1.1.1
    have hlen := length_decodeVector hrows haccepts
    have hout : clus.trainEncoded arith t around = some ((List.range clus.k).foldl
        (fun centroids i ↦ overwrite centroids (i * clus.d) (decodeVector t.codec (t.x i)))
        (regrow .zero clus.centroids (clus.d * clus.k))) := by
      unfold Clustering.trainEncoded
      rw [if_pos haccepts]
      dsimp only
      rw [if_pos hnx]
    have hsize : clus.k * clus.d ≤ (regrow F32.zero clus.centroids (clus.d * clus.k)).length := by
      unfold Lib.regrow
      rw [List.length_append, List.length_take, List.length_replicate, Nat.mul_comm]
      omega
    have hcopied := take_foldl_overwrite
      (fun i (hi : i < clus.k) ↦ hlen i (hi.trans_le hk)) h.le hsize
    rw [← h.whole] at hcopied
    rw [hout]
    constructor
    · intro hkept
      rw [← hcopied]
      exact hkept _ rfl
    · rintro heq centroids hc
      obtain rfl := Option.some.inj hc
      rw [hcopied]
      exact heq
  · exact iff_of_true (fun centroids hout ↦ h.trainEncoded hcopies hout) (.inl hcopies)

/-- One cluster, in one dimension, with the frozen centroid 0. -/
def frozenZero : Clustering where
  niter := 25
  nredo := 1
  spherical := false
  intCentroids := false
  frozenCentroids := true
  maxPointsPerCentroid := 256
  checkInputDataForNaNs := true
  d := 1
  k := 1
  centroids := [.zero]

/-- One training vector, 1. -/
def trainingOne : TrainingSet where
  nx := 1
  x _ := [0x00, 0x00, 0x80, 0x3f]
  codec := none
  weights := none
  indexD := 1
  indexMetric := .l2

/-- Surroundings in which nothing is asked for. -/
def quiet : Surroundings where
  answers _ _ := ⟨fun _ ↦ .zero, fun _ ↦ 0⟩
  subsample i := i
  perm _ i := i
  uniform _ := .zero
  threads := 1
  turns := 0

/-- Operations on floats, none of which is used for `trainingOne`. -/
def anyArith : FloatArith where
  add a _ := a
  sub a _ := a
  mul a _ := a
  one := .zero
  inverse a := a
  half a := a
  scaleUp a := a
  scaleDown a := a
  splitProbability a _ := a
  renorm _ _ centroids := centroids
  round a := a

theorem frozen_kept_iff_one :
    (∀ centroids, frozenZero.trainEncoded anyArith trainingOne quiet = some centroids →
      centroids.take frozenZero.centroids.length = frozenZero.centroids) ↔
    ¬ frozenZero.JustCopies trainingOne quiet ∨
      ((List.range frozenZero.nInputCentroids).flatMap fun i ↦
        decodeVector trainingOne.codec (trainingOne.x i)) = frozenZero.centroids :=
  frozen_kept_iff frozenZero anyArith trainingOne quiet ⟨rfl, rfl, rfl, rfl, le_rfl⟩ fun _ _ _ ↦ rfl

/-- The frozen centroid 0 becomes 1. -/
theorem frozen_not_kept :
    ¬ ∀ centroids, frozenZero.trainEncoded anyArith trainingOne quiet = some centroids →
      centroids.take frozenZero.centroids.length = frozenZero.centroids := by
  intro h
  have hout : frozenZero.trainEncoded anyArith trainingOne quiet = some [⟨0x3f800000#32⟩] := by
    decide +kernel
  exact absurd (h _ hout) (by decide)

end Clustering

end FaissNavix
