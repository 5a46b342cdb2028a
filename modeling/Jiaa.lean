import Jiaa.Architecture.BatchWalk
import Jiaa.Architecture.CanonicalFilter
import Jiaa.Architecture.CheckedWalk
import Jiaa.Architecture.ChunkPages
import Jiaa.Architecture.Conservation
import Jiaa.Architecture.FilterParts
import Jiaa.Architecture.LargePages
import Jiaa.Architecture.MmuSpec
import Jiaa.Architecture.SelfMap
import Jiaa.Architecture.TranslateData
import Jiaa.Architecture.Translation
import Jiaa.Architecture.UnmappedTables
import Jiaa.Architecture.VirtToPhys
import Jiaa.Architecture.Walk
import Jiaa.Connector.Args
import Jiaa.Connector.FileIO
import Jiaa.Connector.FileMap
import Jiaa.Connector.Mmap
import Jiaa.Game.Entities
import Jiaa.Game.InputSystem
import Jiaa.Game.LostUpdates
import Jiaa.Game.MainLoop
import Jiaa.Game.Pattern
import Jiaa.Game.Resolve
import Jiaa.Game.Sigscanner
import Jiaa.Iter.DoubleBuffered
import Jiaa.Iter.PageChunks
import Jiaa.Iter.RefusedCuts
import Jiaa.Iter.SplitAtIndex
import Jiaa.Lib.Addressed
import Jiaa.Lib.BinarySearch
import Jiaa.Lib.Bits
import Jiaa.Lib.Coalesce
import Jiaa.Lib.First
import Jiaa.Lib.Fuel
import Jiaa.Lib.LastWrite
import Jiaa.Lib.RevLoop
import Jiaa.Lib.Ring
import Jiaa.Lib.Runs
import Jiaa.Lib.Text
import Jiaa.Lib.Worklist
import Jiaa.Mem.Alike
import Jiaa.Mem.Batcher
import Jiaa.Mem.Buffers
import Jiaa.Mem.Cache.Coherence
import Jiaa.Mem.Cache.FailedWrite
import Jiaa.Mem.Cache.Freshness
import Jiaa.Mem.Cache.PageCache
import Jiaa.Mem.Cache.Slots
import Jiaa.Mem.Cache.Staleness
import Jiaa.Mem.Cache.Tlb
import Jiaa.Mem.Cache.TlbCalls
import Jiaa.Mem.Cache.TlbEntries
import Jiaa.Mem.Cache.TlbFreshness
import Jiaa.Mem.Cache.TlbIsolation
import Jiaa.Mem.Cache.Transparency
import Jiaa.Mem.Cache.Unmapped
import Jiaa.Mem.Cache.Unseen
import Jiaa.Mem.Cache.Validator
import Jiaa.Mem.Cache.ValidatorRuns
import Jiaa.Mem.Cache.WriteBack
import Jiaa.Mem.Deliveries
import Jiaa.Mem.Dummy
import Jiaa.Mem.GuestMemory
import Jiaa.Mem.MapLookup
import Jiaa.Mem.MapOrder
import Jiaa.Mem.MapPush
import Jiaa.Mem.MapTop
import Jiaa.Mem.MemMap
import Jiaa.Mem.PagedMemory
import Jiaa.Mem.PhysMem
import Jiaa.Mem.TranslationMap
import Jiaa.Mem.VirtMem
import Jiaa.Mem.VirtTransfer
import Jiaa.Mem.VirtTranslate
import Jiaa.Types.Address
import Jiaa.Win32.KernelScan
import Jiaa.Win32.Keyboard
import Jiaa.Win32.ModuleList
import Jiaa.Win32.Ntos
import Jiaa.Win32.Offsets
import Jiaa.Win32.PdbData
import Jiaa.Win32.PdbFields
import Jiaa.Win32.PdbStruct
import Jiaa.Win32.PdbUses
import Jiaa.Win32.ProcessInfo
import Jiaa.Win32.ProcessList
import Jiaa.Win32.Queries
import Jiaa.Win32.Reading
import Jiaa.Win32.StartBlock
import Jiaa.Win32.StartTables
import Jiaa.Win32.SymbolStore
import Jiaa.Win32.UnicodeString
import Jiaa.Win32.VersionOrder
import Jiaa.Win32.WindowsVersion
