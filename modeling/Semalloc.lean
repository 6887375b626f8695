import Semalloc.Library.Effect
import Semalloc.Library.ByteMemory
import Semalloc.Library.Chain
import Semalloc.Library.Region
import Semalloc.Library.PathNumbering
import Semalloc.Library.Probing
import Semalloc.Library.Container
import Semalloc.Library.Transition
import Semalloc.Library.DepthFirst
import Semalloc.Library.Refinement
import Semalloc.Library.ObjectStore
import Semalloc.Library.Worklist
import Semalloc.Library.Folding
import Semalloc.Backend.Defines
import Semalloc.Backend.Heap
import Semalloc.Backend.MemoryManager
import Semalloc.Backend.Entry
import Semalloc.Backend.Housekeeping
import Semalloc.Backend.Run
import Semalloc.Backend.Invariant
import Semalloc.Backend.SlotMoves
import Semalloc.Backend.LayoutMoves
import Semalloc.Backend.BIBOPSpec
import Semalloc.Backend.ManagerSpec
import Semalloc.Backend.AllocationSpec
import Semalloc.Backend.CreationSpec
import Semalloc.Backend.ReleaseSpec
import Semalloc.Backend.EntrySpec
import Semalloc.Backend.AlignmentSpec
import Semalloc.Backend.RunSpec
import Semalloc.Backend.Integrity
import Semalloc.Backend.Isolation
import Semalloc.Backend.Dispatch
import Semalloc.Backend.Threads
import Semalloc.Backend.Aligned
import Semalloc.Backend.Realloc
import Semalloc.Backend.ReallocSpec
import Semalloc.Backend.RemoteListSpec
import Semalloc.Backend.LazyPool
import Semalloc.Backend.ContextTable
import Semalloc.Backend.FreePaths
import Semalloc.Backend.Overloads
import Semalloc.Backend.AlignmentArithmetic
import Semalloc.Backend.MmapFailure
import Semalloc.Backend.ControlByte
import Semalloc.Backend.DoubleFree
import Semalloc.Frontend.CarryWeights
import Semalloc.Frontend.RecursionHash
import Semalloc.Frontend.LoopBit
import Semalloc.Frontend.LoopLayer
import Semalloc.Frontend.LoopFunctions
import Semalloc.Frontend.TagWord
import Semalloc.Frontend.HeapInterface
import Semalloc.Frontend.ContextWidth
import Semalloc.Frontend.PathTrack
import Semalloc.Frontend.ConstructCG
import Semalloc.Frontend.InvokeUnwinds
import Semalloc.Frontend.Kosaraju
import Semalloc.Frontend.InvokeCalls
import Semalloc.Frontend.TypeLayers
import Semalloc.Frontend.MLTA
import Semalloc.Frontend.Resolving
import Semalloc.Frontend.CallGraph
import Semalloc.Frontend.StructPointers
import Semalloc.Frontend.Notes
import Semalloc.Frontend.Initializers
import Semalloc.Frontend.Recording
import Semalloc.Frontend.CallTargets
import Semalloc.Frontend.PathLists
import Semalloc.Frontend.WholeProgram
import Semalloc.Backend.StoreRefinement
import Semalloc.Backend.Provenance
import Semalloc.System.Separation
import Semalloc.System.ProgramContexts
