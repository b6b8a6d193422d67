import BoaLigero.Builtins.ArrayBuffer.Copy
import BoaLigero.Builtins.AsyncGenerator.RequestQueue
import BoaLigero.Builtins.AsyncGenerator.RequestRuns
import BoaLigero.Builtins.AsyncGenerator.Requests
import BoaLigero.Builtins.AsyncGenerator.Resumption
import BoaLigero.Builtins.Atomics.Futex
import BoaLigero.Builtins.Atomics.FutexRun
import BoaLigero.Builtins.BigInt.FromString
import BoaLigero.Builtins.BigInt.Shift
import BoaLigero.Builtins.BigInt.StringComparison
import BoaLigero.Builtins.Collection
import BoaLigero.Builtins.Date.RoundTrip
import BoaLigero.Builtins.Date.Time
import BoaLigero.Builtins.Escape
import BoaLigero.Builtins.LiveIteration
import BoaLigero.Builtins.MapKey
import BoaLigero.Builtins.Number.Conversions
import BoaLigero.Builtins.Number.ToPrecision
import BoaLigero.Builtins.OrderedMap
import BoaLigero.Builtins.OrderedSet
import BoaLigero.Builtins.Promise.Combinator
import BoaLigero.Builtins.Promise.Settlement
import BoaLigero.Builtins.Promise.System
import BoaLigero.Builtins.Set.Agreement
import BoaLigero.Builtins.Set.Conformance
import BoaLigero.Builtins.Set.Methods
import BoaLigero.Builtins.Set.Table
import BoaLigero.Builtins.Set.WellBehaved
import BoaLigero.Builtins.TypedArray.Access
import BoaLigero.Builtins.TypedArray.Exotic
import BoaLigero.Builtins.Uri
import BoaLigero.Bytecompiler.Emission
import BoaLigero.Bytecompiler.Evaluation
import BoaLigero.Bytecompiler.EvaluationOrder
import BoaLigero.Bytecompiler.Expression
import BoaLigero.Bytecompiler.ExpressionCode
import BoaLigero.Bytecompiler.Instruction
import BoaLigero.Bytecompiler.Register
import BoaLigero.Bytecompiler.RegisterAllocation
import BoaLigero.Gc.Collect
import BoaLigero.Gc.Finalization
import BoaLigero.Gc.Header
import BoaLigero.Gc.Heap
import BoaLigero.Gc.MarkHeap
import BoaLigero.Gc.Marking
import BoaLigero.Gc.MemorySafety
import BoaLigero.Gc.Mutator
import BoaLigero.Gc.MutatorRuns
import BoaLigero.Gc.ReferenceCounts
import BoaLigero.Gc.Roots
import BoaLigero.Gc.Sweep
import BoaLigero.Interner.Interner
import BoaLigero.Interner.RawInterner
import BoaLigero.Module.AllOrNothing
import BoaLigero.Module.Linking
import BoaLigero.Module.ResolveExport
import BoaLigero.Module.Source
import BoaLigero.Object.EssentialInvariants
import BoaLigero.Object.IndexOf
import BoaLigero.Object.IndexedProperties
import BoaLigero.Object.IndexedPropertiesRun
import BoaLigero.Object.InternalMethods
import BoaLigero.Object.ObjectHeap
import BoaLigero.Object.OrdinaryObject
import BoaLigero.Object.PropertyMap
import BoaLigero.Object.PropertyMapRun
import BoaLigero.Object.PropertyTable
import BoaLigero.Object.PrototypeChain
import BoaLigero.Object.PrototypeForest
import BoaLigero.Object.Rollback
import BoaLigero.Object.Shape
import BoaLigero.Object.ShapeAttributes
import BoaLigero.Object.ShapeHeap
import BoaLigero.Object.ShapeRun
import BoaLigero.Object.SharedShape
import BoaLigero.Object.UniqueShape
import BoaLigero.Parser.BufferedLexer
import BoaLigero.Parser.LiteralEscapes
import BoaLigero.Parser.NumberLiteral
import BoaLigero.Parser.NumericBeginning
import BoaLigero.Parser.NumericGrammar
import BoaLigero.Parser.NumericLiterals
import BoaLigero.Parser.NumericSuffix
import BoaLigero.Runtime.Text.Encodings
import BoaLigero.Runtime.Text.Standard
import BoaLigero.SmallBTree.Coherence
import BoaLigero.SmallBTree.Map
import BoaLigero.String.CodePoint
import BoaLigero.String.DecimalLiteral
import BoaLigero.String.FixedDigits
import BoaLigero.String.FromStrRadix
import BoaLigero.String.HexDigit
import BoaLigero.String.JsStr
import BoaLigero.String.JsString
import BoaLigero.String.Representation
import BoaLigero.String.ToNumber
import BoaLigero.String.Utf8
import BoaLigero.Util.Assembler
import BoaLigero.Util.ByteFormat
import BoaLigero.Util.DepthFirst
import BoaLigero.Util.Digits
import BoaLigero.Util.Double
import BoaLigero.Util.DoubleArithmetic
import BoaLigero.Util.DoubleOrder
import BoaLigero.Util.DoubleValue
import BoaLigero.Util.ExactDouble
import BoaLigero.Util.Gregorian
import BoaLigero.Util.IntegerDouble
import BoaLigero.Util.Liveness
import BoaLigero.Util.Machine
import BoaLigero.Util.MergeSearch
import BoaLigero.Util.NaturalDouble
import BoaLigero.Util.NaturalIndex
import BoaLigero.Util.NearestIn
import BoaLigero.Util.NestedRanges
import BoaLigero.Util.OrderedMap
import BoaLigero.Util.OverlappingCopy
import BoaLigero.Util.Overwrite
import BoaLigero.Util.ParentChain
import BoaLigero.Util.PeriodicSum
import BoaLigero.Util.Progression
import BoaLigero.Util.RingWindow
import BoaLigero.Util.RoundedDigits
import BoaLigero.Util.Run
import BoaLigero.Util.Scan
import BoaLigero.Util.Sequence
import BoaLigero.Util.SignificantDigits
import BoaLigero.Util.SkippingLoop
import BoaLigero.Util.SortedMap
import BoaLigero.Util.SquareMultiply
import BoaLigero.Util.Tombstone
import BoaLigero.Value.Comparison
import BoaLigero.Value.Equality
import BoaLigero.Value.NanBoxed
import BoaLigero.Value.Operations
import BoaLigero.Value.Relation
import BoaLigero.Value.ValueOwnership
import BoaLigero.Vm.InlineCache
import BoaLigero.Vm.InlineCacheRun
import BoaLigero.Vm.Opcode.Args
import BoaLigero.Vm.Opcode.Emitter
import BoaLigero.Vm.Opcode.Instruction
import BoaLigero.Vm.PureReader.AffineRecurrence
import BoaLigero.Vm.PureReader.ClosureAffine
import BoaLigero.Vm.PureReader.ClosureAffineLoop
import BoaLigero.Vm.PureReader.Decline
import BoaLigero.Vm.PureReader.LoopFrame
import BoaLigero.Vm.PureReader.Number
import BoaLigero.Vm.PureReader.PeriodicSum
import BoaLigero.Vm.PureReader.PropertyWrite
import BoaLigero.Vm.PureReader.PropertyWriteLoop
import BoaLigero.Vm.PureReader.PropertyWriteSummary
import BoaLigero.Vm.PureReader.WriteLoopBody
import BoaLigero.Vm.PureReader.WriteLoopShape
import BoaLigero.Vm.PureReader.WriteMachine
import BoaLigero.Vm.SourceInfo.Flattening
import BoaLigero.Vm.SourceInfo.SourceMap
import BoaLigero.Wintertc.TimerConformance
import BoaLigero.Wintertc.TimerRuns
import BoaLigero.Wintertc.Timers
