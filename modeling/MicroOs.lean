import MicroOs.Tasks.Admission
import MicroOs.Tasks.Sleeping
import MicroOs.Paging.Isolation
import MicroOs.Paging.ReverseMap
import MicroOs.Paging.Clearing
import MicroOs.Paging.ImageTable
import MicroOs.Paging.TranslationCache
import MicroOs.Paging.FailedWriteBack
import MicroOs.Paging.VictimSafety
import MicroOs.Paging.SharedRelease
import MicroOs.Ipc.Delivery
import MicroOs.Ipc.KeyboardQueue
import MicroOs.Ipc.TurnTaking
import MicroOs.Sync.Barrier
import MicroOs.Sync.CriticalSection
import MicroOs.Sync.Monitor
import MicroOs.Sync.Philosophers
import MicroOs.Disk.Agreement
import MicroOs.Libc.Float
import MicroOs.Libc.Arguments
import MicroOs.Libc.Scan
import MicroOs.Libc.Unbounded
import MicroOs.Libc.StringCore
import MicroOs.Libc.StringCopy
import MicroOs.Terminal.ControlSequences
import MicroOs.Terminal.Growing
import MicroOs.Terminal.Scrolling
import MicroOs.Usb.Schedule
import MicroOs.Usb.CommandBlocks
import MicroOs.Usb.HeapBounds
import MicroOs.Usb.Endpoints
import MicroOs.Usb.Addresses
import MicroOs.Usb.InterruptTransfers
import MicroOs.Shell.CommandLine
