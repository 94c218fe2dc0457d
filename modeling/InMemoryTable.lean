import InMemoryTable.Alignment
import InMemoryTable.BlockSizes
import InMemoryTable.Capabilities
import InMemoryTable.Client
import InMemoryTable.CompleteIteration
import InMemoryTable.ConstructorSteps
import InMemoryTable.Constructors
import InMemoryTable.CreateFailure
import InMemoryTable.DeadInserters
import InMemoryTable.DeadRemover
import InMemoryTable.Deaths
import InMemoryTable.DeathsLinearized
import InMemoryTable.Effect
import InMemoryTable.Error
import InMemoryTable.FailedCalls
import InMemoryTable.GrowingIteration
import InMemoryTable.Index
import InMemoryTable.IndexChains
import InMemoryTable.IndexInvariant
import InMemoryTable.IndexLock
import InMemoryTable.IndexRun
import InMemoryTable.IndexWalks
import InMemoryTable.InsertsInterleaved
import InMemoryTable.InsertsRace
import InMemoryTable.Instants
import InMemoryTable.Isolation
import InMemoryTable.Kernel
import InMemoryTable.Layout
import InMemoryTable.Library.ByteMemory
import InMemoryTable.Library.Chain
import InMemoryTable.Library.Contract
import InMemoryTable.Library.FifoMultimap
import InMemoryTable.Library.Interleaving
import InMemoryTable.Library.Iteration
import InMemoryTable.Library.Ledger
import InMemoryTable.Library.Linearization
import InMemoryTable.Library.Ownership
import InMemoryTable.Library.Program
import InMemoryTable.Library.RollingHash
import InMemoryTable.Library.RoundToEven
import InMemoryTable.Library.Simulation
import InMemoryTable.Library.Transition
import InMemoryTable.Lifecycle
import InMemoryTable.Lifetimes
import InMemoryTable.Linearized
import InMemoryTable.Linkage
import InMemoryTable.Lockstep
import InMemoryTable.LookupsInterleaved
import InMemoryTable.LostNodes
import InMemoryTable.MemoryArray
import InMemoryTable.NestedLocks
import InMemoryTable.Offset
import InMemoryTable.OpenWhileCreating
import InMemoryTable.RawIndex
import InMemoryTable.RawIndexRun
import InMemoryTable.RawSlots
import InMemoryTable.RawSlotsRun
import InMemoryTable.RawTable
import InMemoryTable.RawTableRun
import InMemoryTable.ReachedRecords
import InMemoryTable.ReadersInterleaved
import InMemoryTable.Record
import InMemoryTable.RecordKeys
import InMemoryTable.Records
import InMemoryTable.Registry
import InMemoryTable.RegistryRun
import InMemoryTable.Reload
import InMemoryTable.Resources
import InMemoryTable.Semaphore
import InMemoryTable.SemaphoreKeys
import InMemoryTable.Slots
import InMemoryTable.SlotsExclusion
import InMemoryTable.SlotsInterleaved
import InMemoryTable.SlotsInvariant
import InMemoryTable.SlotsIterator
import InMemoryTable.SlotsRun
import InMemoryTable.Start
import InMemoryTable.Stock
import InMemoryTable.StoreSteps
import InMemoryTable.StrewnNodes
import InMemoryTable.StuckNames
import InMemoryTable.Table
import InMemoryTable.TableInvariant
import InMemoryTable.TableIteration
import InMemoryTable.TableRun
import InMemoryTable.Termination
import InMemoryTable.TornWrites
import InMemoryTable.Uncontended
import InMemoryTable.UpdateEach
import InMemoryTable.UpdateMany
import InMemoryTable.UpdatesInterleaved
