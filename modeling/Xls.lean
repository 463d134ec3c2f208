import Xls.BinaryDecisionDiagram.Calls
import Xls.TernaryQueryEngine.Populate
import Xls.BddQueryEngine
import Xls.BddFunction.Evaluate
import Xls.PassBase
import Xls.Interpreter.DynamicCountedFor
import Xls.NumberParser.Print
import Xls.MinCutScheduler.Legal
import Xls.ByteQueue.Fifo
import Xls.RegisterChains.WellFormed
import Xls.TypeLayout.RoundTrip
import Xls.Canonicalization.FixedPoint
import Xls.ArithSimplification.Divide
import Xls.Flattening.Verilog
import Xls.SerialProcRuntime.Suspended
import Xls.SelectSimplification.Sound
import Xls.ProcInterpreter.Determinacy
import Xls.BitEvaluator
import Xls.Narrowing.PartialMultiply
import Xls.IntervalSet.Observers
import Xls.Ternary.RealizedIterator
import Xls.InlineBitmap.Observers
import Xls.BooleanSimplification.Pass
import Xls.FormatStrings.RoundTrip
import Xls.PipelineSchedule
import Xls.LeafTypeTree.Iterator
import Xls.PathCut
import Xls.GraphContraction.LongestNodePaths
import Xls.StronglyConnectedComponents
import Xls.SparsifySelect
import Xls.PostDominatorAnalysis
import Xls.Predicates
import Xls.ReceiveDefaultValueSimplification
import Xls.ProcState.Failures
import Xls.MixedRadix
import Xls.GraphColoring
import Xls.FifoModel
import Xls.BlockEvaluator
import Xls.BlockConversion.Buffers
import Xls.BlockConversion.Combinational
import Xls.BlockConversion.OneShot
