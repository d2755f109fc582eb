import MiniHaywire.Bytes
import MiniHaywire.Checksum
import MiniHaywire.Marker
import MiniHaywire.ProxyOp
import MiniHaywire.Proxy
import MiniHaywire.UartProxy
import MiniHaywire.Accounting
import MiniHaywire.Links
import MiniHaywire.Framing
import MiniHaywire.HostReply
import MiniHaywire.Transfer
import MiniHaywire.Adt
import MiniHaywire.AdtTree
import MiniHaywire.AdtPath
import MiniHaywire.AdtReg
import MiniHaywire.AdtRanges
import MiniHaywire.AdtSetprop
import MiniHaywire.UartInit
import MiniHaywire.Timer
import MiniHaywire.Fifo
import MiniHaywire.Region
import MiniHaywire.Ringbuffer
import MiniHaywire.TopOfMemory
import MiniHaywire.Kboot
import MiniHaywire.ReservedMemory
import MiniHaywire.MemMove
import MiniHaywire.Mmu
import MiniHaywire.CacheRange
import MiniHaywire.BlockCopy
import MiniHaywire.Dwc2
import MiniHaywire.Dwc2Frame
import MiniHaywire.Dwc2Calls
import MiniHaywire.Dwc2Bulk
import MiniHaywire.Dwc2Dma
import MiniHaywire.Dwc2Ep0
import MiniHaywire.Dwc2Requests
import MiniHaywire.Dwc2Flush
import MiniHaywire.Dwc2Fifo
import MiniHaywire.Dwc2Transfer
import MiniHaywire.Console
import MiniHaywire.FanOut
import MiniHaywire.LogBuffer
import MiniHaywire.Malloc
import MiniHaywire.HeapFill
import MiniHaywire.ProxyRequest
import MiniHaywire.Intervals
import MiniHaywire.RangeMap
import MiniHaywire.RangeMapPoints
import MiniHaywire.RangeMapCompact
import MiniHaywire.RangeMapCalls
import MiniHaywire.AddrLookup
import MiniHaywire.ContainerMaps
import MiniHaywire.Payload
import MiniHaywire.PayloadBounds
import MiniHaywire.PayloadVars
import MiniHaywire.Bump
import MiniHaywire.Heapblock
import MiniHaywire.PayloadReserve
import MiniHaywire.AdtStruct
import MiniHaywire.AdtProps
import MiniHaywire.AdtLoad
import MiniHaywire.AdtGetReg
import MiniHaywire.AdtBusAddr
import MiniHaywire.AdtAgree
import MiniHaywire.AdtWalk
import MiniHaywire.SlotMap
import MiniHaywire.ChosenParams
import MiniHaywire.DtChosen
import MiniHaywire.Chunks
import MiniHaywire.GraphWalk
import MiniHaywire.DeviceTree
import MiniHaywire.UbootPreloc
import MiniHaywire.KbootHeap
import MiniHaywire.IntBits
import MiniHaywire.Numeral
import MiniHaywire.Printf
import MiniHaywire.PrintfOutput
import MiniHaywire.PrintfInt
import MiniHaywire.DeviceInfo
import MiniHaywire.Register
import MiniHaywire.HexDump
import MiniHaywire.TinfBlocks
