import CometOS.ArrayList
import CometOS.BootLayout
import CometOS.Ext2Read
import CometOS.HeapFree
import CometOS.Lib.ByteMemory
import CometOS.Lib.LinkedList
import CometOS.Lib.Loop
import CometOS.Lib.Run
import CometOS.LiballocLists
import CometOS.Lib.Tiling
import CometOS.Multiboot
import CometOS.Terminal
import CometOS.BootAlloc
import CometOS.LiballocRuns
import CometOS.LiballocShape
import CometOS.LiballocMalloc
import CometOS.LiballocFree
import CometOS.LiballocRun
import CometOS.Lib.TextPage
import CometOS.TerminalPage
import CometOS.Lib.ByteCopy
import CometOS.Lib.CString
import CometOS.Lib.Numeral
import CometOS.Printf
import CometOS.PrintfOutput
import CometOS.Log
import CometOS.LogOutput
import CometOS.LogInside
import CometOS.LibcString
import CometOS.Lib.Tokens
import CometOS.Strtok
import CometOS.Tree
import CometOS.TreeShape
import CometOS.PageMap
import CometOS.PagingTables
import CometOS.HeapFrames
import CometOS.Lib.Critical
import CometOS.LiballocLock
import CometOS.Ext2Access
import CometOS.Ext2Return
import CometOS.Ext2Inside
import CometOS.Keyboard
import CometOS.PageWalk
import CometOS.Ext2Block
import CometOS.BitmapFind
import CometOS.FrameAlloc
import CometOS.TableCreate
import CometOS.Ext2Directory
import CometOS.Ext2Finddir
import CometOS.InitrdName
import CometOS.VfsNull
import CometOS.LiballocBytes
import CometOS.LiballocRelease
import CometOS.PrintfPieces
import CometOS.PrintfCount
import CometOS.PrintfReads
import CometOS.TerminalColor
import CometOS.KeyboardFlags
import CometOS.Rtc
import CometOS.RtcDate
import CometOS.Fdc
import CometOS.FdcRead
import CometOS.Dma
import CometOS.Pit
import CometOS.PrintfInteger
import CometOS.LogHex
import CometOS.BootRegions
import CometOS.InterruptService
import CometOS.Idt
import CometOS.InterruptEntry
import CometOS.TaskSwitch
import CometOS.AddressSpaces
import CometOS.Gdt
import CometOS.KeyboardPort
import CometOS.Console
import CometOS.Lib.Paged
import CometOS.Computer
import CometOS.ComputerBitmap
import CometOS.ComputerFrames
import CometOS.ComputerBoot
import CometOS.ComputerPaging
import CometOS.BootMapped
import CometOS.KernelMemory
import CometOS.KernelHeap
import CometOS.KernelBoot
import CometOS.KernelRun
import CometOS.KernelRanges
import CometOS.KernelFree
import CometOS.KernelIdentity
import CometOS.KernelAllOrNothing
import CometOS.LibcMemory
import CometOS.VfsRun
