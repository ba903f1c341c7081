import TraceFlow.Proofs.AvailableNames
import TraceFlow.Proofs.CopiedOutputs
import TraceFlow.Proofs.CopiedSubsets
import TraceFlow.Proofs.ElementwiseIntegers
import TraceFlow.Proofs.FramedEncodings
import TraceFlow.Proofs.GatheredArrays
import TraceFlow.Proofs.IndexedEquations
import TraceFlow.Proofs.KeptMappings
import TraceFlow.Proofs.ParallelMaps
import TraceFlow.Proofs.SelectedCases
import TraceFlow.Proofs.SettledGraphs
import TraceFlow.Proofs.UntouchedArrays
