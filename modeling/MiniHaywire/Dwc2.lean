import MiniHaywire.Ringbuffer

/-!
# The USB device controller driver

`usb_dwc2.c`: two serial pipes and the control endpoint on a DWC2 controller.  The
driver is polled.  A register read is an argument here, a register write is an entry
of the log, and the enable bit and the size field of an endpoint, which the controller
changes too, are part of the state.

The transfer buffers are places in one byte memory.  What the driver writes to them is
logged with the endpoint whose pointer it went through.
-/

namespace MiniHaywire.Dwc2

/-! ### Endpoints, pipes and packets -/

inductive Ep0State
  | idle
  | setupPending
  | setupHandle
  | dataSend
  | dataRecv
  | dataSendDone
  | dataRecvDone
  | dataRecvStatus
  | dataRecvStatusDone
  | dataSendStatus
  | dataSendStatusDone
deriving DecidableEq

abbrev Lep := Fin 8

def CTRL_OUT : Lep := 0
def CTRL_IN : Lep := 1

def phyEndpoints : Lep → Byte
  | 0 => 0x0
  | 1 => 0x80
  | 2 => 0x81
  | 3 => 0x2
  | 4 => 0x83
  | 5 => 0x84
  | 6 => 0x05
  | 7 => 0x86

def dirIn (ep : Lep) : Bool := phyEndpoints ep &&& 0x80 != 0

/-- `ep_to_num`; 0xff where the table has no such address. -/
def epToNum (epno : Byte) : Byte :=
  match (List.finRange 8).find? (phyEndpoints · = epno) with
  | some ep => BitVec.ofNat 8 ep.val
  | none => 0xff

/-- `CDC_ACM_PIPE_0` and `CDC_ACM_PIPE_1`, with the endpoints `usb_dwc2_init` gives them. -/
abbrev PipeId := Fin 2

/-- A pipe may be written as a numeral. -/
instance neZero_pipeCount : NeZero 2 := ⟨by decide⟩

def epIntr : PipeId → Lep
  | 0 => 2
  | 1 => 5

def epIn : PipeId → Lep
  | 0 => 4
  | 1 => 7

def epOut : PipeId → Lep
  | 0 => 3
  | 1 => 6

def XFER_SIZE : Nat := 0x4000
def CDC_BUFFER_SIZE : U32 := 0x100000
def DMA_BUFFER_SIZE : Nat := 0x1000
def TX_FIFO_SIZE : U32 := 0x100
def RX_FIFO_SIZE : U32 := 0x11b

def EP_TYPE_CONTROL : Nat := 0
def EP_TYPE_BULK : Nat := 2
def EP_TYPE_INTR : Nat := 3

/-- `struct usb_setup_packet_raw`; the other views of the union are fields of it. -/
structure Setup where
  bmRequestType : Byte
  bRequest : Byte
  wValue : U16
  wIndex : U16
  wLength : U16
deriving DecidableEq

def Setup.ofBytes (bs : List Byte) : Setup where
  bmRequestType := BitVec.ofNat 8 (field bs 0 1)
  bRequest := BitVec.ofNat 8 (field bs 1 1)
  wValue := BitVec.ofNat 16 (field bs 2 2)
  wIndex := BitVec.ofNat 16 (field bs 4 2)
  wLength := BitVec.ofNat 16 (field bs 6 2)

/-- The descriptors that `GET_DESCRIPTOR` hands out.  The length of each is a `u8`, or the
    97 of the configuration. -/
structure Descriptors where
  device : List Byte
  configuration : List Byte
  qualifier : List Byte
  languages : List Byte
  manufacturer : List Byte
  product : List Byte
  serial : List Byte
  length_lt : ∀ x ∈ [device, configuration, qualifier, languages, manufacturer, product, serial],
    x.length < 256

/-! ### The state -/

/-- What the driver does, in order. -/
inductive Action
  /-- `usb_dwc2_ep_hw_recv` enables an OUT endpoint. -/
  | recv (ep : Lep) (size packets : Nat)
  /-- `usb_dwc2_ep_hw_send` enables an IN endpoint, which may be `busy` already. -/
  | send (ep : Lep) (size packets : Nat) (busy : Bool)
  | setStall (ep : Byte) (stall : Bool)
  /-- `usb_dwc2_ep_activate`; an IN endpoint also gets a value for its `DTXFSIZ`. -/
  | activate (ep : Lep) (type maxPacketLen : Nat) (txFifo : Option U32)
  | setAddress (address : Byte)
  /-- `len` bytes from `start` on are written through `endpoints[ep].xfer_buffer`. -/
  | cpuWrite (ep : Lep) (start len : Nat)
  /-- The "invalid state" branch of one of the two EP0 handlers. -/
  | invalidState (state : Ep0State)
  | badStatus (state : Ep0State)
  /-- `usb_dwc2_ep0_handle_setup` is called. -/
  | handleSetup (setup : Setup)
  /-- The "size overflow" branch at the end of an OUT transfer. -/
  | truncated (ep : Lep)
deriving DecidableEq

/-- `dwc2_dev_t`, with the controller's registers as far as they are read back.  A ring is
    found by the endpoint it belongs to: `host2device` of a pipe by `epOut`, `device2host`
    by `epIn`. -/
structure Dev where
  ep0State : Ep0State
  ep0Buffer : List Byte
  ep0BufferLen : Nat
  ep0ReadBufferLen : Nat
  xferInProgress : Lep → Bool
  zlpPending : Lep → Bool
  xferBuffer : Lep → Nat
  ring : Lep → Ringbuffer
  ready : PipeId → Bool
  cdcLineCoding : PipeId → List Byte
  desc : Descriptors
  nextTxFifoAddr : U32
  memory : Nat → Byte
  enabled : Lep → Bool
  xferSize : Lep → Nat
  log : List Action

namespace Dev

def note (a : Action) (d : Dev) : Dev := { d with log := d.log ++ [a] }

def setState (s : Ep0State) (d : Dev) : Dev := { d with ep0State := s }

def setInProgress (ep : Lep) (b : Bool) (d : Dev) : Dev :=
  { d with xferInProgress := Function.update d.xferInProgress ep b }

def setRing (ep : Lep) (r : Ringbuffer) (d : Dev) : Dev :=
  { d with ring := Function.update d.ring ep r }

def memset (ep : Lep) (v : Byte) (n : Nat) (d : Dev) : Dev :=
  let start := d.xferBuffer ep
  { d with
    memory := fun a => if start ≤ a ∧ a < start + n then v else d.memory a
    log := d.log ++ [.cpuWrite ep start n] }

def memcpy (ep : Lep) (bs : List Byte) (d : Dev) : Dev :=
  let start := d.xferBuffer ep
  { d with
    memory := fun a =>
      if start ≤ a ∧ a < start + bs.length then bs.getD (a - start) 0 else d.memory a
    log := d.log ++ [.cpuWrite ep start bs.length] }

def loadBuffer (d : Dev) (ep : Lep) (n : Nat) : List Byte :=
  (List.range n).map fun i => d.memory (d.xferBuffer ep + i)

/-! ### Programming the controller -/

def epHwRecv (ep : Lep) (hwXferSize packetCount : Nat) (d : Dev) : Dev :=
  if dirIn ep then d
  else
    { d with
      enabled := Function.update d.enabled ep true
      xferSize := Function.update d.xferSize ep hwXferSize
      log := d.log ++ [.recv ep hwXferSize packetCount] }

def epHwSend (ep : Lep) (hwXferSize packetCount : Nat) (d : Dev) : Dev :=
  if !dirIn ep then d
  else
    { d with
      enabled := Function.update d.enabled ep true
      xferSize := Function.update d.xferSize ep hwXferSize
      log := d.log ++ [.send ep hwXferSize packetCount (d.enabled ep)] }

def epActivate (ep : Lep) (type maxPacketLen : Nat) (d : Dev) : Dev :=
  if type ≠ EP_TYPE_CONTROL ∧ type ≠ EP_TYPE_BULK ∧ type ≠ EP_TYPE_INTR then d
  else if dirIn ep then
    { d with
      nextTxFifoAddr := d.nextTxFifoAddr + TX_FIFO_SIZE
      log := d.log ++
        [.activate ep type maxPacketLen (some (TX_FIFO_SIZE <<< 16 ||| d.nextTxFifoAddr))] }
  else d.note (.activate ep type maxPacketLen none)

def startSetupPhase (d : Dev) : Dev := d.epHwRecv CTRL_OUT 64 1

def startStatusPhase (ep : Lep) (d : Dev) : Dev :=
  if dirIn ep then d.epHwSend ep 0 1 else d.epHwRecv ep 64 1

/-- `usb_dwc2_ep_set_stall(dev, 0, 1)` and the state that goes with it. -/
def stallEp0 (d : Dev) : Dev := (d.note (.setStall 0 true)).setState .idle

/-! ### Bulk transfers -/

def cdcGetRingbuffer (d : Dev) (ep : Lep) : Option Ringbuffer :=
  if ep = 3 ∨ ep = 4 ∨ ep = 6 ∨ ep = 7 then some (d.ring ep) else none

def cdcStartBulkOutXfer (ep : Lep) (d : Dev) : Dev :=
  if d.xferInProgress ep then d
  else
    match d.cdcGetRingbuffer ep with
    | none => d
    | some host2device =>
      if (ringbufferGetFree host2device).toNat < XFER_SIZE then d
      else ((d.memset ep 0xaa XFER_SIZE).epHwRecv ep 512 1).setInProgress ep true

/-- `usb_dwc2_cdc_start_bulk_in_xfer`.  The extra packet hangs on `ep0_buffer_len`, not on
    the length sent. -/
def cdcStartBulkInXfer (ep : Lep) (d : Dev) : Dev :=
  if d.xferInProgress ep then d
  else
    match d.cdcGetRingbuffer ep with
    | none => d
    | some device2host =>
      let read := ringbufferRead XFER_SIZE device2host
      let len := read.1.length
      let d := (d.setRing ep read.2).memcpy ep read.1
      if len = 0 ∧ d.zlpPending ep = false then d
      else
        let pktCount := (len + 511) / 512
        if d.ep0BufferLen % 512 = 0 then
          let d := { d with zlpPending := Function.update d.zlpPending ep true }
          (d.epHwSend ep len (pktCount + 1)).setInProgress ep true
        else (d.epHwSend ep len pktCount).setInProgress ep true

/-- `usb_dwc2_cdc_handle_bulk_out_xfer_done`, with what `DOEPTSIZ` reads as. -/
def cdcHandleBulkOutXferDone (ep : Lep) (doeptsiz : U32) (d : Dev) : Dev :=
  match d.cdcGetRingbuffer ep with
  | none => d
  | some host2device =>
    let xferSiz := 0x200 - (doeptsiz &&& 0x7fff)
    let free := ringbufferGetFree host2device
    let d := if free < xferSiz then d.note (.truncated ep) else d
    let xferSiz := if free < xferSiz then free else xferSiz
    let host2device := (ringbufferWrite (d.loadBuffer ep xferSiz.toNat) host2device).2
    (d.setRing ep host2device).setInProgress ep false

/-! ### Setup requests -/

def cdcGetStringDescriptor (d : Dev) (index : Nat) : Option (List Byte) :=
  match index with
  | 0 => some d.desc.languages
  | 1 => some d.desc.manufacturer
  | 2 => some d.desc.product
  | 3 => some d.desc.serial
  | _ => none

/-- The switch of `usb_dwc2_handle_ep0_get_descriptor`: `type` is the high byte of `wValue`
    and `index` the low one. -/
def findDescriptor (d : Dev) (setup : Setup) : Option (List Byte) :=
  match setup.wValue.toNat / 256 with
  | 1 => some d.desc.device
  | 2 => some d.desc.configuration
  | 3 => d.cdcGetStringDescriptor (setup.wValue.toNat % 256)
  | 6 => some d.desc.qualifier
  | _ => none

/-- The answer of the data stage is `bs`, of which `len` bytes are sent. -/
def answer (bs : List Byte) (len : Nat) (d : Dev) : Dev :=
  { d with ep0Buffer := bs, ep0BufferLen := len, ep0State := .dataSend }

def ep0HandleStandardDevice (setup : Setup) (d : Dev) : Dev :=
  if setup.bRequest = 0x05 then
    (d.note (.setAddress (setup.wValue.setWidth 8))).setState .dataSendStatus
  else if setup.bRequest = 0x09 then
    if setup.wValue = 0 then Dev.setState .dataSendStatus { d with ready := fun _ => false }
    else if setup.wValue = 1 then
      ((List.finRange 2).foldl (fun d p =>
        ((d.epActivate (epIntr p) EP_TYPE_INTR 64).epActivate (epIn p) EP_TYPE_BULK 512).epActivate
          (epOut p) EP_TYPE_BULK 512) d).setState .dataSendStatus
    else d.stallEp0
  else if setup.bRequest = 0x06 then
    match d.findDescriptor setup with
    | some bs => d.answer bs (min setup.wLength.toNat bs.length)
    | none => d.stallEp0
  else if setup.bRequest = 0x00 then d.answer [0x01, 0x00] 2
  else d.stallEp0

def ep0HandleStandardInterface (setup : Setup) (d : Dev) : Dev :=
  if setup.bRequest = 0x00 then d.answer [0x00, 0x00] 2 else d.stallEp0

def ep0HandleStandardEndpoint (setup : Setup) (d : Dev) : Dev :=
  if setup.bRequest = 0x00 then d.answer [0x00, 0x00] 2
  else if setup.bRequest = 0x01 then
    if setup.wValue = 0 then
      ((d.note (.setStall (epToNum (setup.wIndex.setWidth 8)) false)).startStatusPhase
        CTRL_IN).setState .dataSendStatusDone
    else d.stallEp0
  else d.stallEp0

def ep0HandleStandard (setup : Setup) (d : Dev) : Dev :=
  if setup.bmRequestType &&& 3 = 0 then d.ep0HandleStandardDevice setup
  else if setup.bmRequestType &&& 3 = 1 then d.ep0HandleStandardInterface setup
  else if setup.bmRequestType &&& 3 = 2 then d.ep0HandleStandardEndpoint setup
  else d.stallEp0

/-- `SET_CTRL_LINE_STATE`: DTR opens or closes the pipe.  The status stage is started here
    and not left to the next handler. -/
def setCtrlLineState (p : PipeId) (setup : Setup) (d : Dev) : Dev :=
  let opened :=
    if setup.wValue &&& 1 ≠ 0 then
      Dev.cdcStartBulkOutXfer (epOut p) { d with ready := Function.update d.ready p true }
    else { d with ready := Function.update d.ready p false }
  (opened.startStatusPhase CTRL_IN).setState .dataSendStatusDone

def ep0HandleClass (setup : Setup) (d : Dev) : Dev :=
  if h : setup.wIndex.toNat / 2 < 2 then
    let p : PipeId := ⟨setup.wIndex.toNat / 2, h⟩
    if setup.bRequest = 0x21 then
      d.answer (d.cdcLineCoding p) (min setup.wLength.toNat 7)
    else if setup.bRequest = 0x22 then d.setCtrlLineState p setup
    -- `SET_LINE_CODING` (0x20) is stalled on purpose, like what is unknown
    else d.stallEp0
  else d.stallEp0

/-- `usb_dwc2_ep0_handle_setup`: the packet is what the controller left in the buffer of
    the control OUT endpoint. -/
def ep0HandleSetup (d : Dev) : Dev :=
  let setup := Setup.ofBytes (d.loadBuffer CTRL_OUT 8)
  let d := d.note (.handleSetup setup)
  if setup.bmRequestType &&& 0x60 = 0 then d.ep0HandleStandard setup
  else if setup.bmRequestType &&& 0x60 = 0x20 then d.ep0HandleClass setup
  else d.stallEp0

/-! ### The control endpoint -/

def ep0StartDataSendPhase (d : Dev) : Dev :=
  let len := d.ep0BufferLen
  let pktCount := (len + 63) / 64
  let pktCount := if len % 64 = 0 then pktCount + 1 else pktCount
  ((d.memset CTRL_IN 0 64).memcpy CTRL_IN (d.ep0Buffer.take len)).epHwSend CTRL_IN len pktCount

def ep0StartDataRecvPhase (d : Dev) : Dev :=
  (d.memset CTRL_OUT 0xbb d.ep0ReadBufferLen).epHwRecv CTRL_OUT d.ep0ReadBufferLen 1

def ep0HandleXferDone (d : Dev) : Dev :=
  match d.ep0State with
  | .setupHandle => d.ep0HandleSetup
  | .dataRecvStatusDone | .dataSendStatusDone => d.startSetupPhase.setState .setupHandle
  | .dataSendDone => d.setState .dataRecvStatus
  -- nothing reads `ep0_read_buffer`, so the copy to it has no place here
  | .dataRecvDone => d.setState .dataSendStatus
  | s => (d.note (.invalidState s)).stallEp0

def ep0HandleXferNotReady (d : Dev) : Dev :=
  match d.ep0State with
  | .setupHandle | .dataSendStatusDone | .dataRecvStatusDone => d
  | .idle => d.startSetupPhase.setState .setupHandle
  | .dataSend => d.ep0StartDataSendPhase.setState .dataSendDone
  | .dataRecv => d.ep0StartDataRecvPhase.setState .dataRecvDone
  | .dataRecvStatus => (d.startStatusPhase CTRL_OUT).setState .dataRecvStatusDone
  | .dataSendStatus => (d.startStatusPhase CTRL_IN).setState .dataSendStatusDone
  | s => (d.note (.invalidState s)).stallEp0

/-! ### Interrupts -/

def XFER_COMPL : U32 := 0x1
def SETUP : U32 := 0x8
def STUP_PKT_RCVD : U32 := 0x8000

/-- EP0-IN in `usb_dwc2_handle_interrupts_ep`. -/
def serveEp0In (diepint : U32) (d : Dev) : Dev :=
  if diepint &&& XFER_COMPL ≠ 0 then d.ep0HandleXferDone.ep0HandleXferNotReady else d

/-- EP0-OUT in `usb_dwc2_handle_interrupts_ep`; `none` is the failed assertion. -/
def serveEp0Out (doepint : U32) (d : Dev) : Option Dev :=
  let recvd := doepint &&& STUP_PKT_RCVD ≠ 0
  let phaseDone := doepint &&& SETUP ≠ 0
  let d := if (recvd ∨ phaseDone) ∧ d.ep0State = .setupHandle then d.setState .setupPending else d
  if phaseDone then
    if d.ep0State = .setupPending then
      some (d.setState .setupHandle).ep0HandleXferDone.ep0HandleXferNotReady
    else none
  else if doepint &&& XFER_COMPL ≠ 0 then
    if d.ep0State = .dataRecvStatusDone then some d.ep0HandleXferDone
    else if d.ep0State = .dataRecvDone then some d.ep0HandleXferDone.ep0HandleXferNotReady
    else if ¬recvd then
      some ((d.note (.badStatus d.ep0State)).setState .dataSendStatus).ep0HandleXferNotReady
    else some d
  else some d

/-- The bulk OUT endpoint of a pipe in `usb_dwc2_handle_interrupts_ep`. -/
def serveBulkOut (p : PipeId) (doepint doeptsiz : U32) (d : Dev) : Dev :=
  if doepint &&& XFER_COMPL ≠ 0 then
    (d.cdcHandleBulkOutXferDone (epOut p) doeptsiz).cdcStartBulkOutXfer (epOut p)
  else d

/-- The bulk IN endpoint of a pipe in `usb_dwc2_handle_interrupts_ep`: `DIEPINT` is cleared
    and not looked at. -/
def serveBulkIn (p : PipeId) (d : Dev) : Dev :=
  let d := d.setInProgress (epIn p) false
  if ringbufferGetUsed (d.ring (epIn p)) ≠ 0 then d.cdcStartBulkInXfer (epIn p) else d

end Dev

/-- One endpoint's share of `usb_dwc2_handle_interrupts_ep`, with the registers it reads. -/
inductive Part
  | ep0In (diepint : U32)
  | ep0Out (doepint : U32)
  | bulkOut (p : PipeId) (doepint doeptsiz : U32)
  | bulkIn (p : PipeId) (diepint : U32)

def Dev.serve (d : Dev) : Part → Option Dev
  | .ep0In diepint => some (d.serveEp0In diepint)
  | .ep0Out doepint => d.serveEp0Out doepint
  | .bulkOut p doepint doeptsiz => some (d.serveBulkOut p doepint doeptsiz)
  | .bulkIn p _ => some (d.serveBulkIn p)

/-- What one call of `usb_dwc2_handle_interrupts_ep` reads. -/
structure EpRegs where
  daint : U32
  diepint : Fin 7 → U32
  doepint : Fin 7 → U32
  doeptsiz : Fin 7 → U32

/-- The endpoints with their bit set in `DAINT`, in the order of the source. -/
def EpRegs.parts (r : EpRegs) : List Part :=
  (if r.daint &&& 0x1 ≠ 0 then [.ep0In (r.diepint 0)] else []) ++
  (if r.daint &&& 0x10000 ≠ 0 then [.ep0Out (r.doepint 0)] else []) ++
  (if r.daint &&& 0x40000 ≠ 0 then [.bulkOut 0 (r.doepint 2) (r.doeptsiz 2)] else []) ++
  (if r.daint &&& 0x8 ≠ 0 then [.bulkIn 0 (r.diepint 3)] else []) ++
  (if r.daint &&& 0x200000 ≠ 0 then [.bulkOut 1 (r.doepint 5) (r.doeptsiz 5)] else []) ++
  (if r.daint &&& 0x40 ≠ 0 then [.bulkIn 1 (r.diepint 6)] else [])

namespace Dev

def handleInterruptsEp (r : EpRegs) (d : Dev) : Option Dev := r.parts.foldlM serve d

/-- `usb_dwc2_handle_usbrst`: every transfer is aborted.  `ep0_state` stays as it is. -/
def handleUsbrst (d : Dev) : Dev :=
  { d with
    nextTxFifoAddr := TX_FIFO_SIZE + RX_FIFO_SIZE
    xferInProgress := fun _ => false
    enabled := fun _ => false
    log := d.log ++ [.setAddress 0] }

def handleEventConnectDone (highSpeed : Bool) (d : Dev) : Dev :=
  if highSpeed then
    let d := (d.epActivate CTRL_OUT EP_TYPE_CONTROL 64).epActivate CTRL_IN EP_TYPE_CONTROL 64
    { d.startSetupPhase with ep0State := .setupHandle, ep0ReadBufferLen := 0 }
  else d

end Dev

/-- One round of the loop of `usb_dwc2_handle_interrupts`: the bits of `GINTSTS`, the speed in
    `DSTS` and the endpoint registers. -/
structure GintRound where
  usbRst : Bool
  enumDone : Bool
  usbSuspend : Bool
  epInt : Bool
  highSpeed : Bool
  regs : EpRegs

namespace Dev

def handleInterruptsRound (r : GintRound) (d : Dev) : Option Dev :=
  let d := if r.usbRst then d.handleUsbrst else d
  let d := if r.enumDone ∧ ¬r.usbSuspend then d.handleEventConnectDone r.highSpeed else d
  if r.epInt then d.handleInterruptsEp r.regs else some d

/-- `usb_dwc2_handle_interrupts`: round after round until no supported bit is set. -/
def handleInterrupts (rounds : List GintRound) (d : Dev) : Option Dev :=
  rounds.foldlM (fun d r => d.handleInterruptsRound r) d

/-- `usb_dwc2_init`, with its rings empty and endpoint `i` at `i * DMA_BUFFER_SIZE` of the
    cleared DMA page. -/
def init (desc : Descriptors) (ring : Lep → Ringbuffer) : Dev :=
  let d : Dev :=
    { ep0State := .idle
      ep0Buffer := []
      ep0BufferLen := 0
      ep0ReadBufferLen := 0
      xferInProgress := fun _ => false
      zlpPending := fun _ => false
      xferBuffer := fun i => i.val * DMA_BUFFER_SIZE
      ring
      ready := fun _ => false
      cdcLineCoding := fun _ => [0x80, 0x25, 0x00, 0x00, 0x00, 0x00, 0x08]
      desc
      nextTxFifoAddr := 0
      memory := fun _ => 0
      enabled := fun _ => false
      xferSize := fun _ => 0
      log := [] }
  (d.epActivate CTRL_IN EP_TYPE_CONTROL 64).epActivate CTRL_OUT EP_TYPE_CONTROL 64

end Dev

end MiniHaywire.Dwc2
