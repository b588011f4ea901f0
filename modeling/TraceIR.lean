import TraceIR.Main
import TraceIR.Workspace
import TraceIR.Proofs.Buffer
import TraceIR.Proofs.Run
import TraceIR.Proofs.View
import TraceIR.Proofs.Chain
import TraceIR.Proofs.Growth
import TraceIR.Proofs.Recording
import TraceIR.Proofs.BitSet
import TraceIR.Proofs.Relink
import TraceIR.Proofs.Liveness
import TraceIR.Proofs.Survival
import TraceIR.Proofs.DeadCode
import TraceIR.Proofs.Emission
import TraceIR.Proofs.Pool
import TraceIR.Proofs.Agreement
import TraceIR.Proofs.Refinement
import TraceIR.Proofs.Room
import TraceIR.Proofs.CleanGrowth
import TraceIR.Proofs.Safety
import TraceIR.Proofs.Building
import TraceIR.Proofs.History
import TraceIR.Proofs.SingleAssignment
import TraceIR.Proofs.Parsing
import TraceIR.Proofs.Answering
import TraceIR.Proofs.Guards
import TraceIR.Proofs.Lockstep
import TraceIR.Proofs.Interning
import TraceIR.Proofs.Capacity
import TraceIR.Proofs.Canonicity
import TraceIR.Proofs.Threads
import TraceIR.Proofs.Passes
import TraceIR.Proofs.Twins
import TraceIR.Proofs.BufferSize
import TraceIR.Proofs.Sharing
import TraceIR.Proofs.Scanning
import TraceIR.Proofs.Margins
import TraceIR.Proofs.Coverage
import TraceIR.Proofs.Characters
import TraceIR.Proofs.Delimiters
import TraceIR.Proofs.Spelling
import TraceIR.Proofs.Layout
import TraceIR.Proofs.Splicing
import TraceIR.Proofs.Replay
import TraceIR.Proofs.FreshStart
import TraceIR.Proofs.Limits
import TraceIR.Proofs.Binding
import TraceIR.Proofs.Denotation
import TraceIR.Proofs.Refusals
import TraceIR.Proofs.SecondPass
import TraceIR.Proofs.SharedPool
import TraceIR.Proofs.Digits
import TraceIR.Proofs.Quoting
import TraceIR.Proofs.Nearest
import TraceIR.Proofs.Shortest
import TraceIR.Proofs.NumberText
import TraceIR.Proofs.DumpLines
import TraceIR.Proofs.Legibility
import TraceIR.Proofs.PrintedForm
import TraceIR.Proofs.Leftovers
import TraceIR.Proofs.Comparisons
import TraceIR.Proofs.Placement
import TraceIR.Proofs.ErrorPlaces
import TraceIR.Proofs.WholeNumbers
import TraceIR.Proofs.KeySets
import TraceIR.Proofs.WordArray
import TraceIR.Proofs.Onward
import TraceIR.Proofs.Offsets
import TraceIR.Proofs.Containment
import TraceIR.Proofs.Progress
import TraceIR.Proofs.LineMap
import TraceIR.Proofs.Manipulations
import TraceIR.Proofs.Histogram
