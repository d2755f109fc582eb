import MiniHaywire.Checksum
import MiniHaywire.Marker

/-!
# The wire format of the proxy link

Requests are 64 bytes (type word, 56 bytes of payload, checksum), replies are
36 bytes (type word, status, 24 bytes of payload, checksum), events carry their
own length.  All three start with the marker `FF 55 AA`, which is the low
24 bits of every type word.

The C unions are kept as the bytes they occupy: a request's payload is read
through the accessors `features`, `mrequest` and `prequest`, and a reply's
payload is one member of the union written into zeroed memory
(`ReplyUnion.bytes`).
-/

namespace MiniHaywire

/-! ### Type words, status codes, features -/

def REQ_NOP : U32 := 0x00AA55FF
def REQ_PROXY : U32 := 0x01AA55FF
def REQ_MEMREAD : U32 := 0x02AA55FF
def REQ_MEMWRITE : U32 := 0x03AA55FF
def REQ_BOOT : U32 := 0x04AA55FF
def REQ_EVENT : U32 := 0x05AA55FF

def ST_OK : U32 := 0
def ST_BADCMD : U32 := -1
def ST_XFRERR : U32 := -3
def ST_CSUMERR : U32 := -4

def PROXY_FEAT_DISABLE_DATA_CSUMS : U64 := 0x01
def PROXY_FEAT_ALL : U64 := PROXY_FEAT_DISABLE_DATA_CSUMS

/-- The three bytes every frame starts with. -/
def marker : List Byte := [0xFF, 0x55, 0xAA]

theorem marker_unbordered : Marker.Unbordered marker := by decide

/-- The type word whose distinguishing byte is `t`. -/
def typeWord (t : Byte) : U32 := t ++ (0xAA55FF : BitVec 24)

theorem leWord_typeWord (t : Byte) : leWord (typeWord t) = marker ++ [t] := by
  revert t
  decide

theorem typeWord_injective : Function.Injective typeWord := by
  intro a b h
  have hlast := congrArg (fun x => (leWord x).getLast?) h
  simpa [leWord_typeWord] using hlast

/-! ### Requests -/

/-- `UartRequest`, from the type word on. -/
structure UartRequest where
  type : U32
  payload : List Byte
  checksum : U32
  payload_length : payload.length = 56
deriving DecidableEq

structure MemRequest where
  addr : U64
  size : U64
  dchecksum : U32
deriving DecidableEq

/-- An index of the arguments may be written as a numeral. -/
instance neZero_argCount : NeZero 6 := ⟨by decide⟩

structure ProxyRequest where
  opcode : U64
  args : Fin 6 → U64

namespace UartRequest

theorem length_take_ljust (rest : List Byte) : ((ljust 60 rest).take 56).length = 56 := by
  simp only [List.length_take, ljust, List.length_append, List.length_replicate]
  omega

/-- The zeroed struct after `type` was set and the bytes `rest` were read behind it. -/
def ofBytes (type : U32) (rest : List Byte) : UartRequest where
  type := type
  payload := (ljust 60 rest).take 56
  checksum := BitVec.ofNat 32 (field (ljust 60 rest) 56 4)
  payload_length := length_take_ljust rest

def covered (r : UartRequest) : List Byte := leWord r.type ++ r.payload

/-- `checksum(&request.type, REQ_SIZE - 4) == request.checksum`. -/
def checksumOk (r : UartRequest) : Bool := MiniHaywire.checksum r.covered == r.checksum

def features (r : UartRequest) : U64 := BitVec.ofNat 64 (field r.payload 0 8)

def mrequest (r : UartRequest) : MemRequest where
  addr := BitVec.ofNat 64 (field r.payload 0 8)
  size := BitVec.ofNat 64 (field r.payload 8 8)
  dchecksum := BitVec.ofNat 32 (field r.payload 16 4)

def prequest (r : UartRequest) : ProxyRequest where
  opcode := BitVec.ofNat 64 (field r.payload 0 8)
  args i := BitVec.ofNat 64 (field r.payload (8 * (i.val + 1)) 8)

end UartRequest

/-! ### Replies -/

structure ProxyReply where
  opcode : U64
  status : U64
  retval : U64
deriving DecidableEq

/-- `struct uartproxy_msg_start`; pointers are 32 bits wide on this target. -/
structure MsgStart where
  reason : U32
  code : U32
  info : U32
  reserved : U32
deriving DecidableEq

/-- Which member of the reply union was written after the reply was zeroed. -/
inductive ReplyUnion where
  | zero
  | preply (p : ProxyReply)
  | mreply (dchecksum : U32)
  | start (m : MsgStart)
  | features (f : U64)
deriving DecidableEq

def ReplyUnion.bytes : ReplyUnion → List Byte
  | .zero => ljust 24 []
  | .preply p => ljust 24 (leWord p.opcode ++ leWord p.status ++ leWord p.retval)
  | .mreply c => ljust 24 (leWord c)
  | .start m => ljust 24 (leWord m.reason ++ leWord m.code ++ leWord m.info ++ leWord m.reserved)
  | .features f => ljust 24 (leWord f)

@[simp] theorem ReplyUnion.length_bytes (u : ReplyUnion) : u.bytes.length = 24 := by
  cases u <;> simp [ReplyUnion.bytes, ljust]

/-- `UartReply`, without the checksum that is filled in when it is sent. -/
structure UartReply where
  type : U32
  status : U32
  body : ReplyUnion
deriving DecidableEq

namespace UartReply

def covered (r : UartReply) : List Byte := leWord r.type ++ leWord r.status ++ r.body.bytes

def bytes (r : UartReply) : List Byte := r.covered ++ leWord (checksum r.covered)

@[simp] theorem length_covered (r : UartReply) : r.covered.length = 32 := by
  simp [covered]

@[simp] theorem length_bytes (r : UartReply) : r.bytes.length = 36 := by
  simp [bytes]

end UartReply

/-! ### Events -/

def eventHdr (eventType length : U16) : List Byte :=
  leWord REQ_EVENT ++ leWord length ++ leWord eventType

@[simp] theorem length_eventHdr (eventType length : U16) :
    (eventHdr eventType length).length = 8 := by
  simp [eventHdr]

/-- The bytes `uartproxy_send_event` queues: header, data, checksum.  The C
    function is handed the length as a `u16`, so the data is that long. -/
def uartproxySendEvent (disableDataCsums : Bool) (eventType : U16) (data : List Byte) :
    List Byte :=
  let hdr := eventHdr eventType (BitVec.ofNat 16 data.length)
  let csum :=
    if disableDataCsums then CHECKSUM_SENTINEL
    else checksumFinish (checksumAdd data (checksumStart hdr))
  hdr ++ data ++ leWord csum

theorem uartproxySendEvent_eq (dis : Bool) (eventType : U16) (data : List Byte) :
    uartproxySendEvent dis eventType data =
      eventHdr eventType (BitVec.ofNat 16 data.length) ++ data ++
        leWord (dataChecksum dis (eventHdr eventType (BitVec.ofNat 16 data.length) ++ data)) := by
  simp only [uartproxySendEvent, dataChecksum, checksumFinish_add_start]

/-! ### The host encoder -/

namespace Host

/-- The exceptions the host code raises. -/
inductive Error where
  | valueError
  | structError
  | uartTimeout
  | uartChecksumError
  | uartCMDError (expected got : Nat)
  | uartRemoteError (status : Int)
  | outOfFuel
deriving DecidableEq

def CMD_LEN : Nat := 56

/-- `UartInterface.cmd`: the bytes written to the link. -/
def cmd (cmd : Nat) (payload : List Byte) : Except Error (List Byte) :=
  if payload.length > CMD_LEN then .error .valueError
  else
    let command := leBytes 4 cmd ++ ljust CMD_LEN payload
    .ok (command ++ leBytes 4 (checksum command))

/-- The 64 bytes `cmd` writes for a type word and a payload that fits. -/
def cmdBytes (type : U32) (payload : List Byte) : List Byte :=
  let command := leWord type ++ ljust 56 payload
  command ++ leWord (MiniHaywire.checksum command)

theorem cmd_eq {type : U32} {payload : List Byte} (h : payload.length ≤ 56) :
    cmd type.toNat payload = .ok (cmdBytes type payload) := by
  have hn : ¬ payload.length > CMD_LEN := by simp [CMD_LEN]; omega
  simp only [cmd, if_neg hn, cmdBytes, checksum_eq]
  rfl

theorem cmd_eq_ok {type : U32} {payload bytes : List Byte}
    (h : cmd type.toNat payload = .ok bytes) :
    payload.length ≤ 56 ∧ bytes = cmdBytes type payload := by
  by_cases hlen : payload.length ≤ 56
  · rw [cmd_eq hlen] at h
    cases h
    exact ⟨hlen, rfl⟩
  · have hgt : payload.length > CMD_LEN := by
      simp only [CMD_LEN]
      omega
    simp only [cmd, if_pos hgt] at h
    cases h

theorem length_cmdBytes {type : U32} {payload : List Byte} (h : payload.length ≤ 56) :
    (cmdBytes type payload).length = 64 := by
  simp [cmdBytes, length_ljust h]

def packMem (addr size checksum : Nat) : Except Error (List Byte) :=
  if addr < 2 ^ 64 ∧ size < 2 ^ 64 ∧ checksum < 2 ^ 32 then
    .ok (leBytes 8 addr ++ leBytes 8 size ++ leBytes 4 checksum)
  else .error .structError

/-- The slices `data[i:i + 8192]` that `writemem` passes to the device one by one. -/
def blocks (data : List Byte) : List (List Byte) :=
  (List.range ((data.length + 8191) / 8192)).map (fun i => (data.drop (8192 * i)).take 8192)

/-- What `UartInterface.writemem` writes to the link. -/
def writememSend (enabledFeatures addr : Nat) (data : List Byte) : Except Error (List Byte) := do
  let req ← packMem addr data.length (dataChecksum enabledFeatures data)
  let command ← cmd 0x03AA55FF req
  .ok (command ++ (blocks data).flatten ++
    if csumsDisabled enabledFeatures then leBytes 4 0xB0CACC10 else [])

theorem flatten_blocks (data : List Byte) : (blocks data).flatten = data := by
  have htake : ∀ n, ((List.range n).map (fun i => (data.drop (8192 * i)).take 8192)).flatten =
      data.take (8192 * n) := by
    intro n
    induction n with
    | zero => simp
    | succ n ih =>
      rw [List.range_succ, List.map_append, List.flatten_append, ih, Nat.mul_succ, List.take_add]
      simp
  rw [blocks, htake]
  exact List.take_of_length_le (by omega)

/-- The payload of a `REQ_MEMWRITE` for `data`. -/
def memwritePayload (disabled : Bool) (addr : U64) (data : List Byte) : List Byte :=
  leWord addr ++ leWord (BitVec.ofNat 64 data.length) ++
    leWord (MiniHaywire.dataChecksum disabled data)

theorem length_memwritePayload (disabled : Bool) (addr : U64) (data : List Byte) :
    (memwritePayload disabled addr data).length = 20 := by
  simp [memwritePayload]

/-- What follows the 64 bytes of a `REQ_MEMWRITE`. -/
def memwriteTrailer (disabled : Bool) (data : List Byte) : List Byte :=
  data ++ if disabled then leWord DATA_END_SENTINEL else []

theorem packMem_eq (addr : U64) {size : Nat} (hsize : size < 2 ^ 64) (c : U32) :
    packMem addr.toNat size c.toNat =
      .ok (leWord addr ++ leWord (BitVec.ofNat 64 size) ++ leWord c) := by
  have hmod : (BitVec.ofNat 64 size).toNat = size := by
    rw [BitVec.toNat_ofNat, Nat.mod_eq_of_lt hsize]
  rw [packMem, if_pos ⟨addr.isLt, hsize, c.isLt⟩]
  simp only [leWord, hmod]

theorem writememSend_eq (features : Nat) (addr : U64) {data : List Byte}
    (hsize : data.length < 2 ^ 64) :
    writememSend features addr.toNat data =
      .ok (cmdBytes REQ_MEMWRITE (memwritePayload (csumsDisabled features) addr data) ++
        memwriteTrailer (csumsDisabled features) data) := by
  have hcmd : cmd REQ_MEMWRITE.toNat (memwritePayload (csumsDisabled features) addr data) =
      .ok (cmdBytes REQ_MEMWRITE (memwritePayload (csumsDisabled features) addr data)) :=
    cmd_eq (by rw [length_memwritePayload]; omega)
  have hpack := packMem_eq addr hsize (MiniHaywire.dataChecksum (csumsDisabled features) data)
  rw [← dataChecksum_eq] at hpack
  unfold writememSend
  rw [hpack]
  change (do
    let command ← cmd REQ_MEMWRITE.toNat (memwritePayload (csumsDisabled features) addr data)
    Except.ok (command ++ (blocks data).flatten ++ _)) = _
  rw [hcmd, flatten_blocks]
  simp only [memwriteTrailer, ← List.append_assoc]
  rfl

theorem writememSend_ofNat (features : Nat) {addr : Nat} (haddr : addr < 2 ^ 64) {data : List Byte}
    (hsize : data.length < 2 ^ 64) :
    writememSend features addr data =
      .ok (cmdBytes REQ_MEMWRITE
          (memwritePayload (csumsDisabled features) (BitVec.ofNat 64 addr) data) ++
        memwriteTrailer (csumsDisabled features) data) := by
  have hsend := writememSend_eq features (BitVec.ofNat 64 addr) hsize
  rw [BitVec.toNat_ofNat, Nat.mod_eq_of_lt haddr] at hsend
  exact hsend

end Host

/-! ### What the device reads is what the host wrote -/

/-- The request a host command denotes. -/
def UartRequest.ofCmd (type : U32) (payload : List Byte) (h : payload.length ≤ 56) :
    UartRequest where
  type := type
  payload := ljust 56 payload
  checksum := MiniHaywire.checksum (leWord type ++ ljust 56 payload)
  payload_length := length_ljust h

theorem UartRequest.checksumOk_ofCmd (type : U32) (payload : List Byte)
    (h : payload.length ≤ 56) : (UartRequest.ofCmd type payload h).checksumOk = true := by
  simp [checksumOk, covered, ofCmd]

/-- **Decoding inverts encoding**: the 60 bytes behind the type word of a host
    command are read as the request it denotes. -/
theorem UartRequest.ofBytes_cmdBytes (type : U32) (payload : List Byte)
    (h : payload.length ≤ 56) :
    UartRequest.ofBytes type ((Host.cmdBytes type payload).drop 4) =
      UartRequest.ofCmd type payload h := by
  have hdrop : (Host.cmdBytes type payload).drop 4 =
      ljust 56 payload ++ leWord (MiniHaywire.checksum (leWord type ++ ljust 56 payload)) := by
    simp only [Host.cmdBytes, List.append_assoc]
    exact List.drop_left' (by simp)
  have hlen : (ljust 56 payload).length = 56 := length_ljust h
  have hpad : ljust 60 (ljust 56 payload ++
      leWord (MiniHaywire.checksum (leWord type ++ ljust 56 payload))) =
      ljust 56 payload ++ leWord (MiniHaywire.checksum (leWord type ++ ljust 56 payload)) :=
    ljust_of_length (by simp [hlen])
  have hfield := ofNat_field_leWord (w := 32) rfl (ljust 56 payload) []
    (MiniHaywire.checksum (leWord type ++ ljust 56 payload))
  rw [hlen, List.append_nil] at hfield
  rw [hdrop]
  simp only [ofBytes, ofCmd, UartRequest.mk.injEq, true_and]
  rw [hpad]
  exact ⟨List.take_left' hlen, hfield⟩

theorem UartRequest.mrequest_eq {r : UartRequest} {addr size : U64} {c : U32} {rest : List Byte}
    (h : r.payload = leWord addr ++ leWord size ++ leWord c ++ rest) :
    r.mrequest = ⟨addr, size, c⟩ := by
  have haddr := ofNat_field_leWord (w := 64) rfl [] (leWord size ++ (leWord c ++ rest)) addr
  have hsize := ofNat_field_leWord (w := 64) rfl (leWord addr) (leWord c ++ rest) size
  have hsum := ofNat_field_leWord (w := 32) rfl (leWord addr ++ leWord size) rest c
  simp only [List.append_assoc] at h hsum
  rw [mrequest, h]
  simp only [List.length_append, length_leWord, List.length_nil,
    List.nil_append] at haddr hsize hsum
  rw [haddr, hsize, hsum]

end MiniHaywire
