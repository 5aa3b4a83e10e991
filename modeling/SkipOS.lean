import SkipOS.IsrStub
import SkipOS.PoolPartition
import SkipOS.FrameOwners
import SkipOS.NullFrame
import SkipOS.IdentityMap
import SkipOS.Shootdown
import SkipOS.FreeExact
import SkipOS.SectionPages
import SkipOS.Critical
import SkipOS.KmallocBlocks
import SkipOS.SerialOutput
import SkipOS.SerialBoot
import SkipOS.Sheet
import SkipOS.Rendering
import SkipOS.ShiftState
import SkipOS.KbdHandshake
import SkipOS.Attributes
import SkipOS.PageStatus
import SkipOS.PrevEntry
import SkipOS.KmallocFits
import SkipOS.WalkAgrees
import SkipOS.KfreeExact
import SkipOS.PoolLifo
import SkipOS.TagFormat
import SkipOS.EntryIndices
import SkipOS.DisplayStr
import SkipOS.KeyEvents
import SkipOS.ScodeTable
import SkipOS.KbdAck
import SkipOS.PicMask
import SkipOS.Strcpy
import SkipOS.Strchr
import SkipOS.Strcmp
import SkipOS.TmpBuff
import SkipOS.Descriptors
import SkipOS.BootTables
import SkipOS.LineRequests
import SkipOS.InterruptEntry
import SkipOS.BootEntry
import SkipOS.Terminal
import SkipOS.VmTests
import SkipOS.HeapContents
import SkipOS.PoolTests
import SkipOS.Untouched
import SkipOS.KmallocGrowth
import SkipOS.Ps2
import SkipOS.Typing
import SkipOS.Lifetime
import SkipOS.Overlap
