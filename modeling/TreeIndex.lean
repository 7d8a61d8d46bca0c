import TreeIndex.Distinct
import TreeIndex.Document
import TreeIndex.Export
import TreeIndex.Structural
import TreeIndex.JsonReader
import TreeIndex.Edit
import TreeIndex.Command
import TreeIndex.FieldEvent
import TreeIndex.Operation
import TreeIndex.OpenIndex
import TreeIndex.Session
import TreeIndex.Script
import TreeIndex.Comparison
import TreeIndex.Position
import TreeIndex.Heap
import TreeIndex.NestedDrops
import TreeIndex.Inspect
import TreeIndex.Paths
import TreeIndex.Calls
import TreeIndex.Proofs.WalkRecursion
import TreeIndex.Proofs.IndexHistory
import TreeIndex.Proofs.ExactNumbers
import TreeIndex.Proofs.GroundedPaths
import TreeIndex.Proofs.TreeRecursion
import TreeIndex.Proofs.ImportedTree
import TreeIndex.Proofs.JsonLaws
import TreeIndex.Proofs.EqualContents
import TreeIndex.Proofs.NodeObject
import TreeIndex.Proofs.RoundTrip
import TreeIndex.Proofs.NormalForm
import TreeIndex.Proofs.PreOrder
import TreeIndex.Proofs.Grouping
import TreeIndex.Proofs.EditLaws
import TreeIndex.Proofs.Synchronization
import TreeIndex.Proofs.ChildrenField
import TreeIndex.Proofs.StructuralEquality
import TreeIndex.Proofs.EqualExports
import TreeIndex.Proofs.WalkPositions
import TreeIndex.Proofs.JsonPointer
import TreeIndex.Proofs.NodeGrammar
import TreeIndex.Proofs.TestMeaning
import TreeIndex.Proofs.TraversalOrder
import TreeIndex.Proofs.FreshNumbers
import TreeIndex.Proofs.DocumentIndex
import TreeIndex.Proofs.InPlace
import TreeIndex.Proofs.Interruption
import TreeIndex.Proofs.IndexAlgebra
import TreeIndex.Proofs.PrunedWalk
import TreeIndex.Proofs.PostOrder
import TreeIndex.Proofs.JsonTests
import TreeIndex.Proofs.NumberValues
import TreeIndex.Proofs.NearestNumbers
import TreeIndex.Proofs.Counting
import TreeIndex.Proofs.EqualityClasses
import TreeIndex.Proofs.ExportLoop
import TreeIndex.Proofs.DownwardPaths
import TreeIndex.Proofs.WalkTermination
import TreeIndex.Proofs.HandleCounts
import TreeIndex.Proofs.Release
import TreeIndex.Proofs.NodeOrigins
import TreeIndex.Proofs.FieldHistory
