import Reverse.DebugHelper.CallCosts
import Reverse.DebugHelper.CallDepth
import Reverse.DebugHelper.OpenFunctions
import Reverse.Decopus.AvlMap
import Reverse.Decopus.Buffer
import Reverse.Decopus.Chunks
import Reverse.Decopus.MemTiles
import Reverse.Decopus.ParRuns
import Reverse.Decopus.ReaderDelivery
import Reverse.Decopus.Recycling
import Reverse.Decopus.ReferenceList
import Reverse.Decopus.References
import Reverse.Delorean.Attribution
import Reverse.Delorean.BreakTables
import Reverse.Delorean.Framing
import Reverse.Delorean.MemoryBytes
import Reverse.Delorean.Stepping
import Reverse.Delorean.Undo
import Reverse.Dnaos.HeapSteps
import Reverse.Rabbits.CacheTransparency
import Reverse.Rabbits.EventRing
import Reverse.Rabbits.MemAccess
import Reverse.Rabbits.TraceRuns
import Reverse.Sherlock.RegisterFile
import Reverse.Watson.Coherence
import Reverse.Watson.Order
import Reverse.Watson.Statistics
import Reverse.Watson.WriteThrough
