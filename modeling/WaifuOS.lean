import WaifuOS.Commands
import WaifuOS.Mounts
import WaifuOS.PathClusters
import WaifuOS.RefCounts
import WaifuOS.EfiMap
import WaifuOS.FrameAccounts
import WaifuOS.HeapBytes
import WaifuOS.EarlyHeap
import WaifuOS.HeapPages
import WaifuOS.ListRuns
import WaifuOS.MemoryLock
import WaifuOS.PageWalks
import WaifuOS.RegisterDump
import WaifuOS.SchedulerRuns
import WaifuOS.StringRuns
import WaifuOS.ThreadStacks
import WaifuOS.TimerRuns
import WaifuOS.Polling
import WaifuOS.PCI
import WaifuOS.Redirection
import WaifuOS.Typing
import WaifuOS.Cursors
import WaifuOS.PageShortage
import WaifuOS.Transfers
import WaifuOS.ShortNames
import WaifuOS.NameSearch
import WaifuOS.LongNameOwners
import WaifuOS.DriveProbes
import WaifuOS.PathFailures
import WaifuOS.RootListing
import WaifuOS.ConfigurationTables
import WaifuOS.Controllers
import WaifuOS.KeyboardCommands
import WaifuOS.Overlays
import WaifuOS.RecordReads
import WaifuOS.TimerTables
import WaifuOS.ElfSegments
import WaifuOS.NumberTexts
import WaifuOS.DriveNames
import WaifuOS.Formats
import WaifuOS.Substrings
import WaifuOS.Narrowing
import WaifuOS.ThreadNames
import WaifuOS.BitBounds
import WaifuOS.BitRuns
import WaifuOS.CommandTables
import WaifuOS.XHCI
import WaifuOS.AddressSpace
import WaifuOS.X86
import WaifuOS.AsmRoutines
import WaifuOS.MutexTurns
import WaifuOS.Gates
import WaifuOS.PIC
import WaifuOS.Processors
import WaifuOS.BootPaging
import WaifuOS.Keystrokes
import WaifuOS.FileTrees
import WaifuOS.Routing
import WaifuOS.AttachedDrives
import WaifuOS.FirmwareTables
import WaifuOS.ListOwners
