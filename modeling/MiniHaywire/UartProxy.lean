import MiniHaywire.Proxy

/-!
# `uartproxy_run`

The loop that turns bytes arriving on the iodevs into requests and answers them.
The loop is a step function on its state: `poll` is one pass of the inner `for`
loop (one look at one iodev), together with the rest of the `while` body when
that look completes a marker.  A run is any number of polls.

What the iodevs deliver is a parameter (`Platform`), so one statement about runs
covers every interleaving of arriving bytes, short reads and failing reads
included.  `iodev_lock` and `iodev_unlock` are left out: nothing else runs.

`State.trace` records what the loop did, for the statements about whole runs:
requests read completely, reply frames, data behind a `MEMREAD` reply, and every
look at `disable_data_csums` on behalf of a transfer.
-/

namespace MiniHaywire

/-! ### Iodevs -/

/-- An `iodev_id_t` below `IODEV_MAX`. -/
abbrev IodevId := Fin 10

def IODEV_UART : IodevId := 0
def IODEV_USB0 : IodevId := 2

def USAGE_UARTPROXY : U32 := 2

/-- What an `iodev_read` returned and what it stored in the buffer. -/
structure ReadResult (ρ : Type) where
  ret : U64
  data : List Byte
  env : ρ

/-- The firmware together with its iodevs. -/
structure Platform (ρ : Type) extends Firmware ρ where
  getUsage : IodevId → ρ → U32
  handleEvents : IodevId → ρ → ρ
  canRead : IodevId → ρ → U64 × ρ
  read : IodevId → U32 → ρ → ReadResult ρ
  write : IodevId → List Byte → ρ → ρ
  queue : IodevId → List Byte → ρ → ρ
  flush : IodevId → ρ → ρ

namespace UartProxy

/-! ### State -/

/-- What the loop was seen to do. -/
inductive Event where
  | boot (d : IodevId) (frame : List Byte)
  | request (d : IodevId) (r : UartRequest)
  | reply (d : IodevId) (frame : List Byte)
  | data (d : IodevId) (bytes : List Byte)
  | dataMode (d : IodevId) (disabled : Bool)
deriving DecidableEq

/-- The machine and the static variables of `uartproxy.c`. -/
structure State (ρ : Type) where
  dev : Device ρ
  iodevProxyBuffer : IodevId → U32
  disableDataCsums : Bool
  uartproxyIodev : IodevId
  trace : List Event

/-- Whether the `while` loop goes on, or how it was left. -/
inductive Phase where
  | running
  | stopped (ret : U32)
  | rebooted
deriving DecidableEq

variable {ρ : Type} (P : Platform ρ)

namespace State

def emit (s : State ρ) (e : Event) : State ρ := { s with trace := s.trace ++ [e] }

def setEnv (s : State ρ) (env : ρ) : State ρ := { s with dev := { s.dev with env := env } }

def guard (s : State ρ) (g : U32) : State ρ := { s with dev := { s.dev with excGuard := g } }

def clearExcCount (s : State ρ) : State ρ := { s with dev := { s.dev with excCount := 0 } }

def write8 (s : State ρ) (addr : U32) (val : Byte) : State ρ :=
  { s with dev := s.dev.write 1 addr val }

def store (s : State ρ) (addr : U32) (bs : List Byte) : State ρ :=
  { s with dev := { s.dev with mem := s.dev.mem.store addr bs } }

def printf (s : State ρ) : State ρ := { s with dev := s.dev.call P.toFirmware .printf }

/-- `iodev_read`; it never stores more than it was asked for. -/
def iodevRead (s : State ρ) (d : IodevId) (length : U32) : ReadResult ρ :=
  let r := P.read d length s.dev.env
  { r with data := r.data.take length.toNat }

def iodevWrite (s : State ρ) (d : IodevId) (bs : List Byte) : State ρ :=
  s.setEnv (P.write d bs s.dev.env)

def iodevQueue (s : State ρ) (d : IodevId) (bs : List Byte) : State ρ :=
  s.setEnv (P.queue d bs s.dev.env)

def iodevFlush (s : State ρ) (d : IodevId) : State ρ := s.setEnv (P.flush d s.dev.env)

/-- `data_checksum` over memory, on behalf of a transfer on `d`. -/
def dataChecksum (s : State ρ) (addr size : U32) : U32 :=
  MiniHaywire.dataChecksum s.disableDataCsums (s.dev.mem.load addr size.toNat)

/-- `disable_data_csums` was consulted for a transfer on `d`. -/
def noteMode (s : State ρ) (d : IodevId) : State ρ := s.emit (.dataMode d s.disableDataCsums)

end State

/-! ### The request handlers -/

/-- The variables a handler leaves for the end of the loop body. -/
structure Handled (ρ : Type) where
  state : State ρ
  phase : Phase
  status : U32
  body : ReplyUnion

/-- `enabled_features` after `REQ_NOP`. -/
def enabledFeatures (d : IodevId) (features : U64) : U64 :=
  let enabled := features &&& PROXY_FEAT_ALL
  if d = IODEV_UART then enabled &&& ~~~PROXY_FEAT_DISABLE_DATA_CSUMS else enabled

def reqNop (d : IodevId) (features : U64) (s : State ρ) : Handled ρ :=
  let enabled := enabledFeatures d features
  { state := { s with disableDataCsums := enabled &&& PROXY_FEAT_DISABLE_DATA_CSUMS != 0 }
    phase := .running
    status := ST_OK
    body := .features enabled }

def reqProxy (d : IodevId) (request : ProxyRequest) (s : State ρ) : Handled ρ :=
  match proxyProcess P.toFirmware (BitVec.ofNat 32 d.val) request s.dev with
  | .rebooted dev => ⟨{ s with dev := dev }, .rebooted, ST_OK, .zero⟩
  | .returned ret reply dev =>
      let s := { s with dev := dev }
      { state := if ret.slt 0 then s.printf P else s
        phase := if ret ≠ 0 then .stopped ret else .running
        status := ST_OK
        body := .preply reply }

def reqMemread (d : IodevId) (m : MemRequest) (s : State ρ) : Handled ρ :=
  if m.size = 0 then ⟨s, .running, ST_OK, .zero⟩
  else
    let s := s.clearExcCount.guard GUARD_RETURN
    let checksumVal := s.dataChecksum (lo32 m.addr) (lo32 m.size)
    let s := (s.noteMode d).guard GUARD_OFF
    ⟨s, .running, if s.dev.excCount ≠ 0 then ST_XFRERR else ST_OK, .mreply checksumVal⟩

/-- The two probing writes of `REQ_MEMWRITE`, under `GUARD_SKIP`. -/
def probe (m : MemRequest) (s : State ρ) : State ρ :=
  let s := s.clearExcCount.guard GUARD_SKIP
  let s :=
    if m.size ≠ 0 then (s.write8 (lo32 m.addr) 0).write8 (lo32 (m.addr + m.size - 1)) 0 else s
  s.guard GUARD_OFF

/-- The end sentinel behind the data of a write without checksum. -/
def checkSentinel (d : IodevId) (checksumVal : U32) (s : State ρ) : Handled ρ :=
  let r := s.iodevRead P d 4
  let sentinel : U32 := BitVec.ofNat 32 (leNat (ljust 4 r.data))
  ⟨s.setEnv r.env, .running,
    if lo32 r.ret ≠ 4 ∨ sentinel ≠ DATA_END_SENTINEL then ST_XFRERR else ST_OK,
    .mreply checksumVal⟩

/-- `case REQ_MEMWRITE` once the data is in memory. -/
def verifyWrite (d : IodevId) (m : MemRequest) (s : State ρ) : Handled ρ :=
  let checksumVal := s.dataChecksum (lo32 m.addr) (lo32 m.size)
  let s := s.noteMode d
  if checksumVal ≠ m.dchecksum then ⟨s, .running, ST_XFRERR, .mreply checksumVal⟩
  else if s.disableDataCsums then checkSentinel P d checksumVal s
  else ⟨s, .running, ST_OK, .mreply checksumVal⟩

def reqMemwrite (d : IodevId) (m : MemRequest) (s : State ρ) : Handled ρ :=
  let s := probe m s
  if s.dev.excCount ≠ 0 then ⟨s, .running, ST_XFRERR, .zero⟩
  else
    let r := s.iodevRead P d (lo32 m.size)
    let s := (s.setEnv r.env).store (lo32 m.addr) r.data
    if (lo32 r.ret).setWidth 64 ≠ m.size then ⟨s, .running, ST_XFRERR, .zero⟩
    else verifyWrite P d m s

def dispatch (d : IodevId) (r : UartRequest) (s : State ρ) : Handled ρ :=
  if r.type = REQ_NOP then reqNop d r.features s
  else if r.type = REQ_PROXY then reqProxy P d r.prequest s
  else if r.type = REQ_MEMREAD then reqMemread d r.mrequest s
  else if r.type = REQ_MEMWRITE then reqMemwrite P d r.mrequest s
  else ⟨s, .running, ST_BADCMD, .zero⟩

/-! ### Replies -/

/-- What `REQ_MEMREAD` sends behind an `ST_OK` reply. -/
def sendData (d : IodevId) (m : MemRequest) (s : State ρ) : State ρ :=
  let bytes := s.dev.mem.load (lo32 m.addr) (lo32 m.size).toNat
  let s := ((s.iodevQueue P d bytes).emit (.data d bytes)).noteMode d
  if s.disableDataCsums then
    (s.iodevQueue P d (leWord DATA_END_SENTINEL)).emit (.data d (leWord DATA_END_SENTINEL))
  else s

/-- The end of the loop body: the reply, the data of a successful `REQ_MEMREAD`,
    and the flush. -/
def answer (d : IodevId) (r : UartRequest) (h : Handled ρ) : State ρ :=
  let frame := (UartReply.mk r.type h.status h.body).bytes
  let s := (h.state.iodevQueue P d frame).emit (.reply d frame)
  let s := if r.type = REQ_MEMREAD ∧ h.status = ST_OK then sendData P d r.mrequest s else s
  (s.iodevWrite P d []).iodevFlush P d

/-- The loop body once the checksum was found right. -/
def handle (d : IodevId) (r : UartRequest) (s : State ρ) : State ρ × Phase :=
  let h := dispatch P d r { s with uartproxyIodev := d }
  (if h.phase = .rebooted then h.state else answer P d r h, h.phase)

def refuse (d : IodevId) (r : UartRequest) (s : State ρ) : State ρ :=
  let frame := (UartReply.mk r.type ST_CSUMERR .zero).bytes
  (s.iodevWrite P d frame).emit (.reply d frame)

/-- The loop body from the read of the request on. -/
def serve (d : IodevId) (s : State ρ) : State ρ × Phase :=
  let r := s.iodevRead P d 60
  let request := UartRequest.ofBytes (s.iodevProxyBuffer d) r.data
  let s := s.setEnv r.env
  if lo32 r.ret ≠ 60 then (s, .running)
  else
    let s := s.emit (.request d request)
    if request.checksumOk then handle P d request s else (refuse P d request s, .running)

/-! ### The hunt for a marker -/

def shiftIn (window : U32) (b : Byte) : U32 := (window >>> 8) ||| (b.setWidth 32 <<< 24)

/-- `(iodev_proxy_buffer[iodev] & 0xffffff) == 0xAA55FF`. -/
def markerSeen (window : U32) : Bool := window &&& 0xffffff == 0xAA55FF

def State.shift (s : State ρ) (d : IodevId) (b : Byte) : State ρ :=
  { s with
    iodevProxyBuffer :=
      Function.update s.iodevProxyBuffer d (shiftIn (s.iodevProxyBuffer d) b) }

/-- One look at an iodev, in the loop over all of them. -/
def look (d : IodevId) (s : State ρ) : Bool × State ρ :=
  if P.getUsage d s.dev.env &&& USAGE_UARTPROXY = 0 then (false, s)
  else
    let s := s.setEnv (P.handleEvents d s.dev.env)
    let (ready, env) := P.canRead d s.dev.env
    let s := s.setEnv env
    if ready = 0 then (false, s)
    else
      let r := s.iodevRead P d 1
      let s := s.setEnv r.env
      if r.ret = 1 then
        let s := s.shift d (r.data.headD 0)
        (markerSeen (s.iodevProxyBuffer d), s)
      else (false, s)

/-- The state of the `while` loop; `iodev` is the variable of the inner loop. -/
structure Loop (ρ : Type) where
  state : State ρ
  iodev : IodevId
  phase : Phase

/-- One step of the loop as it runs with `start == NULL`. -/
def poll (c : Loop ρ) : Loop ρ :=
  match c.phase with
  | .running =>
      let (found, s) := look P c.iodev c.state
      if found then
        let (s, phase) := serve P c.iodev s
        ⟨s, 0, phase⟩
      else ⟨s, c.iodev + 1, .running⟩
  | _ => c

/-- One step of the loop as it runs with `start != NULL`: it keeps to one iodev
    and gives up when a read fails. -/
def pollHeld (c : Loop ρ) : Loop ρ :=
  match c.phase with
  | .running =>
      let s := c.state.setEnv (P.handleEvents c.iodev c.state.dev.env)
      let r := s.iodevRead P c.iodev 1
      let s := s.setEnv r.env
      if r.ret ≠ 1 then ⟨s.printf P, c.iodev, .stopped (-1)⟩
      else
        let s := s.shift c.iodev (r.data.headD 0)
        if markerSeen (s.iodevProxyBuffer c.iodev) then
          let (s, phase) := serve P c.iodev s
          ⟨s, c.iodev, phase⟩
        else ⟨s, c.iodev, .running⟩
  | _ => c

def notify (d : IodevId) (body : ReplyUnion) (s : State ρ) : State ρ :=
  let frame := (UartReply.mk REQ_BOOT ST_OK body).bytes
  (s.iodevWrite P d frame).emit (.boot d frame)

/-- `uartproxy_run`, stopped after `n` steps of the loop. -/
def uartproxyRun (start : Option MsgStart) (s : State ρ) (n : Nat) : Loop ρ :=
  match start with
  | none => (poll P)^[n] ⟨notify P IODEV_UART .zero s, 0, .running⟩
  | some m => (pollHeld P)^[n] ⟨notify P s.uartproxyIodev (.start m) s, s.uartproxyIodev, .running⟩

/-- What holds when the loop is entered and is kept by a poll holds throughout. -/
theorem run_induction {I : Loop ρ → Prop} {s : State ρ}
    (hinit : I ⟨notify P IODEV_UART .zero s, 0, .running⟩) (hstep : ∀ c, I c → I (poll P c))
    (n : Nat) : I (uartproxyRun P none s n) := by
  induction n with
  | zero => exact hinit
  | succ n ih =>
    unfold uartproxyRun at ih ⊢
    rw [Function.iterate_succ_apply']
    exact hstep _ ih

end UartProxy

/-! ### A concrete platform -/

/-- Iodevs that are queues of bytes waiting to be read, all of them in use by the
    proxy, on a firmware that does nothing else. -/
def Platform.fifo : Platform (IodevId → List Byte) where
  toFirmware := Firmware.idle _
  getUsage := fun _ _ => USAGE_UARTPROXY
  handleEvents := fun _ env => env
  canRead := fun d env => (if (env d).isEmpty then 0 else 1, env)
  read := fun d n env =>
    ⟨BitVec.ofNat 64 ((env d).take n.toNat).length, (env d).take n.toNat,
      Function.update env d ((env d).drop n.toNat)⟩
  write := fun _ _ env => env
  queue := fun _ _ env => env
  flush := fun _ env => env

/-- Bytes waiting on one iodev only. -/
def pendingOn (d : IodevId) (bs : List Byte) : IodevId → List Byte :=
  Function.update (fun _ => []) d bs

/-- The proxy as it starts, with these bytes on their way. -/
def UartProxy.State.initial (env : IodevId → List Byte) :
    UartProxy.State (IodevId → List Byte) where
  dev := Device.cleared env
  iodevProxyBuffer := fun _ => 0
  disableDataCsums := false
  uartproxyIodev := IODEV_UART
  trace := []

end MiniHaywire
