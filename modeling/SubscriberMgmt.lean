import SubscriberMgmt.Lib.Lists
import SubscriberMgmt.Lib.Machine
import SubscriberMgmt.Lib.KeyMap
import SubscriberMgmt.Lib.UniqueMap
import SubscriberMgmt.Lib.CText
import SubscriberMgmt.Lib.FileLines
import SubscriberMgmt.Lib.RingBuffer
import SubscriberMgmt.Lib.TrialDivision
import SubscriberMgmt.Lib.Disk
import SubscriberMgmt.Lib.Sha2
import SubscriberMgmt.Lib.StableSort
import SubscriberMgmt.Lib.CasRegister
import SubscriberMgmt.Lib.StateHoare
import SubscriberMgmt.Lib.LinearPeriod
import SubscriberMgmt.Common
import SubscriberMgmt.HashTable
import SubscriberMgmt.HashTableMap
import SubscriberMgmt.NextPrime
import SubscriberMgmt.HashTableSizing
import SubscriberMgmt.HashTableOwnership
import SubscriberMgmt.FieldIndex
import SubscriberMgmt.MemoryPool
import SubscriberMgmt.Lib.ByteMemory
import SubscriberMgmt.MemoryPoolHeap
import SubscriberMgmt.MemoryPoolSlabs
import SubscriberMgmt.MemoryPoolRuns
import SubscriberMgmt.SharedString
import SubscriberMgmt.SharedStringRefs
import SubscriberMgmt.Subscriber
import SubscriberMgmt.SubscriberCsv
import SubscriberMgmt.SubscriberTexts
import SubscriberMgmt.SubscriberIndex
import SubscriberMgmt.SubscriberRuns
import SubscriberMgmt.SubscriberRefs
import SubscriberMgmt.SubscriberStore
import SubscriberMgmt.SubscriberSearch
import SubscriberMgmt.SubscriberFailedAdd
import SubscriberMgmt.SubscriberUpdate
import SubscriberMgmt.HexDecode
import SubscriberMgmt.Auth
import SubscriberMgmt.Sha256Digest
import SubscriberMgmt.SubscriberSort
import SubscriberMgmt.SubscriberQuickSort
import SubscriberMgmt.SubscriberSortOrder
import SubscriberMgmt.SubscriberQuickSortLevels
import SubscriberMgmt.AuthSteps
import SubscriberMgmt.AuthAccounts
import SubscriberMgmt.AuthReload
import SubscriberMgmt.AuthRandom
import SubscriberMgmt.AuthTokens
import SubscriberMgmt.AuthGenerator
import SubscriberMgmt.AuthFile
import SubscriberMgmt.AuthCapacity
import SubscriberMgmt.AuthDeletion
import SubscriberMgmt.AuthLockout
import SubscriberMgmt.AuthCalls
import SubscriberMgmt.AuthPasswords
import SubscriberMgmt.AuthPasswordCap
import SubscriberMgmt.AuthDeleted
import SubscriberMgmt.CsvLine
import SubscriberMgmt.CsvRoundTrip
import SubscriberMgmt.SubscriberContents
import SubscriberMgmt.CsvRestart
import SubscriberMgmt.SubscriberReload
import SubscriberMgmt.SubscriberRegistry
import SubscriberMgmt.SubscriberRefinement
import SubscriberMgmt.LoadedLines
import SubscriberMgmt.AuthBootstrap
import SubscriberMgmt.Server
import SubscriberMgmt.ServerAuthorization
import SubscriberMgmt.ServerSessions
import SubscriberMgmt.ServerShutdown
import SubscriberMgmt.ServerSlots
import SubscriberMgmt.ServerFields
import SubscriberMgmt.ServerLoop
import SubscriberMgmt.ServerRegistry
import SubscriberMgmt.ServerWire
import SubscriberMgmt.CliInput
import SubscriberMgmt.CliPrompts
import SubscriberMgmt.Cli
import SubscriberMgmt.CliSessions
import SubscriberMgmt.CliLogs
import SubscriberMgmt.CliStore
import SubscriberMgmt.CliResources
import SubscriberMgmt.Logger
import SubscriberMgmt.LoggerRuns
import SubscriberMgmt.TypedIds
import SubscriberMgmt.SubscriberStatuses
import SubscriberMgmt.SavedAccounts
import SubscriberMgmt.ServerRestart
import SubscriberMgmt.RuntimePath
import SubscriberMgmt.CliMain
