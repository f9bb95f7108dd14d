import FaissNavix.Heap

/-!
# Metrics

`faiss/MetricType.h`, and the order of the heaps of results that an inverted file keeps for a
metric.
-/

namespace FaissNavix

/-- `MetricType` -/
inductive MetricType where
  | innerProduct
  | l2
  | l1
  | linf
  | lp
  | canberra
  | brayCurtis
  | jensenShannon
  | jaccard
  | naNEuclidean
  | absInnerProduct
deriving DecidableEq, Repr

namespace MetricType

/-- `is_similarity_metric` -/
def isSimilarity : MetricType → Bool
  | .innerProduct | .jaccard => true
  | _ => false

/-- `HeapForIP` for inner products, and `HeapForL2` for any other metric. -/
def order : MetricType → KeyValueOrder F32
  | .innerProduct => CMin
  | _ => CMax

/-- The integer that results are ordered by, the best ones first. -/
def key : MetricType → F32 → ℤ
  | .innerProduct => fun x ↦ -x.key
  | _ => F32.key

theorem keyed (metricType : MetricType) :
    metricType.order.Keyed metricType.key F32.Comparable := by
  cases metricType with
  | innerProduct => exact CMin_keyed
  | _ => exact CMax_keyed

end MetricType

end FaissNavix
