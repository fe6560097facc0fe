import IdaSdk.LibRedBlack
import IdaSdk.QtreeNode
import IdaSdk.QtreeShape
import IdaSdk.QtreeRotate
import IdaSdk.QtreeInsert
import IdaSdk.LibSortedList
import IdaSdk.QtreeRepr
import IdaSdk.QtreeIterate
import IdaSdk.QtreeEraseFixup
import IdaSdk.QtreeErase
import IdaSdk.QtreeLookup
import IdaSdk.QtreeEmplace
import IdaSdk.QtreeCopy
import IdaSdk.QtreeInterface
import IdaSdk.QtreeWorld
import IdaSdk.QtreeMap
import IdaSdk.QtreeContract
import IdaSdk.QtreeIterators
import IdaSdk.BinSearchModel
import IdaSdk.BinSearchScan
import IdaSdk.BinSearchForward
import IdaSdk.BinSearchLowest
import IdaSdk.BinSearchBackward
import IdaSdk.BinSearchHighest
import IdaSdk.ConnstrOutcome
import IdaSdk.PoolAllocator
import IdaSdk.QtreePacked
import IdaSdk.RemoteFiles
import IdaSdk.RemoteTransfers
import IdaSdk.RpcSession
import IdaSdk.LibStep
import IdaSdk.PefModel
import IdaSdk.PefReloc
import IdaSdk.PefPattern
import IdaSdk.LibLinked
import IdaSdk.MicroModel
import IdaSdk.MicroSound
import IdaSdk.MicroInsn
import IdaSdk.MicroRobust
import IdaSdk.JavaSigGrammar
import IdaSdk.JavaSigCorrect
import IdaSdk.JavaSigAccept
import IdaSdk.HwBreakpoints
import IdaSdk.LibKeyedLog
import IdaSdk.LibMailbox
import IdaSdk.LibTable
import IdaSdk.LinuxFreeze
import IdaSdk.LinuxModules
import IdaSdk.LinuxModulesTrack
import IdaSdk.LinuxSignals
import IdaSdk.ClassFileLoader
import IdaSdk.PageBpts
import IdaSdk.ThreadBpts
import IdaSdk.PdbSymbolsReply
import IdaSdk.PdbVariants
import IdaSdk.PdbSession
import IdaSdk.PdbOverlap
import IdaSdk.Bitrange
import IdaSdk.QstringSplit
import IdaSdk.QstringReplace
import IdaSdk.QstringEdits
import IdaSdk.Int128
import IdaSdk.RegValueSound
import IdaSdk.QtreeFixups
import IdaSdk.QtreeThrowingWorld
import IdaSdk.Eavec
import IdaSdk.QstringHash
import IdaSdk.BytevecHex
import IdaSdk.ProbeFileSize
import IdaSdk.MicroCases
import IdaSdk.Lowcnd
import IdaSdk.Appcall
import IdaSdk.HexLoader
import IdaSdk.Qvector
import IdaSdk.Qlist
import IdaSdk.ElfRelr
import IdaSdk.ElfMapping
import IdaSdk.ElfPspRelb
import IdaSdk.ElfAps2
import IdaSdk.ElfRela
import IdaSdk.JavaString
import IdaSdk.SnesFolds
import IdaSdk.ElfEhFrame
import IdaSdk.LinuxPriority
import IdaSdk.LinuxMemoryAccess
import IdaSdk.LinuxSoftBpts
import IdaSdk.JavaUtf8
import IdaSdk.JavaXtrn
import IdaSdk.Tms6Packets
import IdaSdk.BackwardFlow
import IdaSdk.JavaBlob
import IdaSdk.LcsDiff
import IdaSdk.PdbBitfields
import IdaSdk.PdbClamp
import IdaSdk.ArcArgs
import IdaSdk.NecArgs
import IdaSdk.ArmHwbpt
