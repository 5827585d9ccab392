import SqliteGraph.ShortestPaths
import SqliteGraph.V3.EdgeDurability
import SqliteGraph.V3.KvAtomicity
import SqliteGraph.V3.NodePageSearch
import SqliteGraph.V3.PageLayout
import SqliteGraph.V3.AllocatorRun
import SqliteGraph.TypedDigraphCycles
import SqliteGraph.Sqlite.Connections
import SqliteGraph.Sqlite.BatchAgreement
import SqliteGraph.Sqlite.DumpLoad
import SqliteGraph.Sqlite.PatternAgreement
import SqliteGraph.Sqlite.LabelRun
import SqliteGraph.Sqlite.CacheRun
import SqliteGraph.V3.InsertFailure
import SqliteGraph.Hnsw.MappingsRun
import SqliteGraph.V3.EdgeClusterCodec
import SqliteGraph.V3.PageCorruption
import SqliteGraph.Cypher.WhereGrammar
import SqliteGraph.Cypher.VariableDepth
import SqliteGraph.Cypher.MultiHopMatch
import SqliteGraph.TypedDigraphScc
import SqliteGraph.Algo.FrontierTermination
import SqliteGraph.Algo.IteratedFrontiers
import SqliteGraph.Algo.PostDominatorAgreement
import SqliteGraph.Algo.ControlDependence
import SqliteGraph.Algo.NaturalLoops
import SqliteGraph.Algo.TransitiveReduction
import SqliteGraph.Algo.TopologicalSort
import SqliteGraph.Hnsw.DeltaCodec
import SqliteGraph.Algo.ProgramSlicing
import SqliteGraph.Sqlite.PatternQuery
import SqliteGraph.Hnsw.SingleLayer
import SqliteGraph.Hnsw.Deletion
import SqliteGraph.V3.EdgeKeys
import SqliteGraph.V3.TraversalCache
import SqliteGraph.V3.NodeRecordCodec
import SqliteGraph.V3.IndexPersistence
import SqliteGraph.V3.StringTableCodec
import SqliteGraph.Sqlite.KvTable
import SqliteGraph.Sqlite.EntityDeletion
import SqliteGraph.Algo.Iterators
import SqliteGraph.Algo.SearchIterators
import SqliteGraph.Algo.TopologicalIterator
import SqliteGraph.Algo.CriticalPath
import SqliteGraph.Algo.CompletePaths
import SqliteGraph.Algo.FindCycles
import SqliteGraph.Algo.KwayPartition
import SqliteGraph.V3.NodeSession
