import Dwarfpp.Lib.OrderedMap
import Dwarfpp.Lib.IntervalMap
import Dwarfpp.Frame.RoundTrip
import Dwarfpp.Frame.Interpret
import Dwarfpp.Frame.Table
import Dwarfpp.Frame.Agreement
import Dwarfpp.Expr.Evaluator
import Dwarfpp.Expr.StackMachine
import Dwarfpp.Expr.EvaluatorSafety
import Dwarfpp.Expr.Resumption
import Dwarfpp.Expr.Pieces
import Dwarfpp.Expr.LocForVaddr
import Dwarfpp.Expr.AdditiveLoclist
import Dwarfpp.Lib.Coinduction
import Dwarfpp.Types.Equivalence
import Dwarfpp.Types.CacheTransparency
import Dwarfpp.Types.TypeOrder
import Dwarfpp.Types.Roots
import Dwarfpp.Types.Edges
import Dwarfpp.Dies.Attributes
import Dwarfpp.Dies.Topology
import Dwarfpp.Dies.ReferenceRuns
import Dwarfpp.Dies.VisibleNameRuns
import Dwarfpp.Types.EdgeIterator
import Dwarfpp.Types.WalkType
import Dwarfpp.Types.SummaryAbsence
import Dwarfpp.Types.SummaryTermination
import Dwarfpp.Types.GetScc
import Dwarfpp.Frame.Coverage
import Dwarfpp.Frame.RowMap
import Dwarfpp.Frame.RewriteAlike
import Dwarfpp.Dies.DynamicLocation
import Dwarfpp.Frame.ReadBounds
import Dwarfpp.Frame.PointerEncoding
import Dwarfpp.Frame.HdrTable
import Dwarfpp.Frame.Augmentation
import Dwarfpp.Dies.FindAddr
import Dwarfpp.Dies.FrameLocals
import Dwarfpp.Frame.LebInverse
import Dwarfpp.Dies.NamePath
import Dwarfpp.Encap.AttributeValue
import Dwarfpp.Dies.RangeList
import Dwarfpp.Dies.MemberOffset
import Dwarfpp.Dies.Traversals
import Dwarfpp.Dies.CuCursor
import Dwarfpp.Lib.Settles
import Dwarfpp.Lib.Simulation
import Dwarfpp.Lib.Conjunction
import Dwarfpp.Types.AbstractlyEqual
import Dwarfpp.Types.Forms
import Dwarfpp.Types.EqualNames
import Dwarfpp.Lib.FindOrCreate
import Dwarfpp.Dies.BitfieldTypes
import Dwarfpp.Dies.BitfieldCalls
import Dwarfpp.Dies.BitfieldRuns
import Dwarfpp.Types.ByteSize
import Dwarfpp.Dies.ParentCache
import Dwarfpp.Dies.MakeNewSettled
import Dwarfpp.Dies.Ancestors
import Dwarfpp.Dies.RootRuns
import Dwarfpp.Lib.Ancestors
import Dwarfpp.Dies.Resolve
import Dwarfpp.Dies.VisiblePaths
import Dwarfpp.Dies.ScopedResolve
import Dwarfpp.Dies.NameRuns
