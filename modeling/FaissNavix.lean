import FaissNavix.HNSW.Modes
import FaissNavix.HNSW.AddAndSearch
import FaissNavix.HNSW.NavixBuffer
import FaissNavix.IndexResults
import FaissNavix.Invlists.SubsetPartition
import FaissNavix.Invlists.MergedIds
import FaissNavix.Invlists.Refinement
import FaissNavix.Invlists.LockLevels
import FaissNavix.Argsort
import FaissNavix.HNSW.Reference
import FaissNavix.Reservoir
import FaissNavix.RangeSearch
import FaissNavix.IVF.IVFlib
import FaissNavix.IVF.SlidingWindow
import FaissNavix.IVF.StandaloneCodec
import FaissNavix.IVF.AllLists
import FaissNavix.Serialize.HashInvlists
import FaissNavix.IDMap.Parameters
import FaissNavix.IDMap.Labels
import FaissNavix.Shards.Searches
import FaissNavix.Invlists.Views
import FaissNavix.BinaryHash.Reset
import FaissNavix.NNDescent.SmallSample
import FaissNavix.NSG.Connected
import FaissNavix.BinaryIVF.Agree
import FaissNavix.AutoTune.Optimum
import FaissNavix.IVFPQ.Polysemous
import FaissNavix.HNSW.Permute
import FaissNavix.HNSW.VectorPopMin
import FaissNavix.Partitioning.SimdPartition
import FaissNavix.Partitioning.Median3
import FaissNavix.IVF.EncodeVectors
import FaissNavix.ResidualQuantizer.TableAgreement
import FaissNavix.ResidualQuantizer.RowsAlone
import FaissNavix.Invlists.UpdateVectors
import FaissNavix.BinaryIVF.SearchReconstruct
import FaissNavix.BinaryIVF.Merge
import FaissNavix.Hashtable
import FaissNavix.PQCode
import FaissNavix.Invlists.PQ4Pack
import FaissNavix.Lattice.PermutationCodes
import FaissNavix.Lattice.EnumeratedVectors
import FaissNavix.HNSW.CheckPeriod
import FaissNavix.AutoTune.Intersection
import FaissNavix.AutoTune.OptimalPoints
import FaissNavix.ClusterSplits
import FaissNavix.Shards.MergeTables
import FaissNavix.BufferedIO
import FaissNavix.Kmeans1d.Optimal
import FaissNavix.Lattice.RecursiveBijection
import FaissNavix.BinaryIVF.Counters
import FaissNavix.Lib.Rounding
import FaissNavix.QuantizeLUT
import FaissNavix.QuantizedSums
import FaissNavix.ResidualQuantizer.Train
