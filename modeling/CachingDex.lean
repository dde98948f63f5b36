import CachingDex.StructuralInvariant
import CachingDex.PageTableMap
import CachingDex.NodeOperations
import CachingDex.CoolingTableSpec
import CachingDex.PoolReset
import CachingDex.LeafChain
import CachingDex.BackendCalls
import CachingDex.IndexBounds
import CachingDex.MemoryNodes
import CachingDex.Admission
import CachingDex.ObsoletePages
import CachingDex.LoadExits
import CachingDex.TreeReset
import CachingDex.BulkLoad
import CachingDex.Pushdown
import CachingDex.Benchmark
import CachingDex.ChildWords
import CachingDex.OrderlyRuns
import CachingDex.InnerSplits
