import ChamberSpo.Transition
import ChamberSpo.Ownership
import ChamberSpo.Bitmap
import ChamberSpo.Buffer
import ChamberSpo.Layout
import ChamberSpo.LbaLock
import ChamberSpo.LbaLockCas
import ChamberSpo.CrcT10dif
import ChamberSpo.Datagen
import ChamberSpo.Types
import ChamberSpo.Verify
import ChamberSpo.Submit
import ChamberSpo.NamespaceRun
import ChamberSpo.ReferenceDevice
import ChamberSpo.StaleData
import ChamberSpo.Iogen
import ChamberSpo.InflightLock
import ChamberSpo.Journal
import ChamberSpo.History
import ChamberSpo.Replay
import ChamberSpo.RunningJobs
import ChamberSpo.Params
import ChamberSpo.Validate
import ChamberSpo.Dependency
import ChamberSpo.JobInit
import ChamberSpo.SizeTable
import ChamberSpo.CrashConsistency
import ChamberSpo.LineParser
import ChamberSpo.LineGrammar
import ChamberSpo.FileLines
import ChamberSpo.Sections
import ChamberSpo.Jesd219
import ChamberSpo.LbaRange
import ChamberSpo.BlockCodec
import ChamberSpo.ConstantBlocks
import ChamberSpo.TimestampWindow
import ChamberSpo.UnexpectedResult
import ChamberSpo.ReadPolicy
import ChamberSpo.RingWrite
import ChamberSpo.HistRecords
import ChamberSpo.ReplayCheck
import ChamberSpo.FtlChecker
import ChamberSpo.Outline
import ChamberSpo.TestSuite
import ChamberSpo.WriteTimestamps
import ChamberSpo.RingQueue
import ChamberSpo.Engines
import ChamberSpo.BioPool
import ChamberSpo.NumberLiterals
import ChamberSpo.Rng
import ChamberSpo.ProtectionInfo
import ChamberSpo.Jesd219Groups
import ChamberSpo.Amount
import ChamberSpo.StructLayout
import ChamberSpo.ParamBytes
import ChamberSpo.LineFrame
import ChamberSpo.BioBuffers
import ChamberSpo.SeqStream
import ChamberSpo.FreshStart
import ChamberSpo.BioSizes
import ChamberSpo.LibaioRing
import ChamberSpo.SglEntries
import ChamberSpo.Acct
import ChamberSpo.Report
import ChamberSpo.Eta
import ChamberSpo.IdentifyCompare
import ChamberSpo.JournalTransfer
import ChamberSpo.NamespaceIdentity
import ChamberSpo.OperationMix
import ChamberSpo.Dealloc
import ChamberSpo.EngineParam
import ChamberSpo.FtlTableBuild
import ChamberSpo.TestNumbers
import ChamberSpo.TestSafety
import ChamberSpo.ShmAlloc
import ChamberSpo.Mempool
import ChamberSpo.PcieBoot
import ChamberSpo.ShellExec
import ChamberSpo.TokenSplit
import ChamberSpo.NullRing
import ChamberSpo.SharedDevice
import ChamberSpo.Sessions
import ChamberSpo.LinkedList
import ChamberSpo.BioLists
import ChamberSpo.Crc
import ChamberSpo.GuardTag
import ChamberSpo.TornBlock
import ChamberSpo.AmountRun
import ChamberSpo.PowerCut
import ChamberSpo.WellRng
import ChamberSpo.Lcg
import ChamberSpo.Nrand48
import ChamberSpo.Sampling
import ChamberSpo.DisplayRun
import ChamberSpo.Faults
