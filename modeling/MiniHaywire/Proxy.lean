import MiniHaywire.ProxyOp

/-!
# `proxy_process`

The command interpreter of `proxy.c`, as the C code runs: one `switch` over the
opcode, bodies shared by several labels, and the places where one body falls
through into the next (`P_SLEEP` and `P_EL3_CALL` into `P_WRITE64`,
`P_KBOOT_BOOT` into `P_KBOOT_SET_CHOSEN`).

The functions `proxy.c` calls are parameters of the model (`Firmware.callee`);
they act on memory and on everything else the firmware keeps (`env`), but not on
`exc_guard` and `exc_count`, which no other file assigns.  A function called
through `P_CALL` is host-supplied code and may do anything (`Firmware.func`).
Memory is total: an access never aborts here, while on the hardware an abort
ends in `exc_handler`, which reboots.

Every access and every call is recorded in `Device.log`, so that "the command
did nothing" can be said about what was done and not only about what changed.
-/

namespace MiniHaywire

/-! ### Machine state -/

def GUARD_OFF : U32 := 0
def GUARD_SKIP : U32 := 1
def GUARD_MARK : U32 := 2
def GUARD_RETURN : U32 := 3

def S_OK : U64 := 0
def S_BADCMD : U64 := -1

structure VectorArgs where
  entry : U32
  args : Fin 4 → U32
  restoreLogo : Bool

/-- What the running firmware can change.  `env` is the state of everything
    outside `proxy.c` and `uartproxy.c`: allocator, devices, boot settings. -/
structure Machine (ρ : Type) where
  mem : Mem 32
  excGuard : U32
  excCount : U32
  nextStage : VectorArgs
  env : ρ

/-- A call out of `proxy.c`, with the arguments as converted to the parameter
    types of the callee. -/
inductive Call where
  | func (f a b c d : U32)
  | printf
  | uartSetbaud (baudrate : U32) | uartPutbyte (c : Byte) | udelay (d : U32) | reboot
  | memcpy (width : Nat) (dst src size : U32)
  | memset (width : Nat) (dst : U32) (value : BitVec (8 * width)) (size : U32)
  | icIalluis | icIallu | dcIsw (p : U32) | dcCsw (p : U32) | dcCisw (p : U32)
  | icIvauRange (addr length : U32) | dcIvacRange (addr length : U32)
  | dcCvacRange (addr length : U32) | dcCvauRange (addr length : U32)
  | dcCivacRange (addr length : U32)
  | mmuShutdown | mmuInit | mmuDisable | mmuRestore (state : U32)
  | xzDecode (src srclen dst destlen : U32) | tinfGzipUncompress (dst destlen src srclen : U32)
  | smpStartSecondaries | smpStopSecondaries
  | heapblockAlloc (size : U32) | malloc (size : U32) | topOfMemoryAlloc (size : U32)
  | memalign (align size : U32) | free (p : U32)
  | usbInit | kbootSetChosen (name value : U32) | kbootSetInitrd (start size : U32)
  | kbootPrepareDt (fdt : U32)
  | iodevSetUsage (id usage : U32) | iodevCanRead (id : U32) | iodevCanWrite (id : U32)
  | iodevRead (id buf length : U32) | iodevWrite (id buf length : U32)
deriving DecidableEq

/-- What the interpreter did to the machine. -/
inductive Effect where
  | read (width : Nat) (addr : U32)
  | write (width : Nat) (addr : U32) (value : Nat)
  | call (c : Call)
deriving DecidableEq

/-- The result of a call: the return value as the callee's register holds it, and
    the value left in an output length where the callee has one. -/
structure CallResult (ρ : Type) where
  ret : U64
  outLen : U32
  mem : Mem 32
  env : ρ

/-- The machine together with the record of what was done to it. -/
structure Device (ρ : Type) extends Machine ρ where
  log : List Effect

/-- The rest of the firmware, as `proxy.c` sees it. -/
structure Firmware (ρ : Type) where
  callee : Call → Mem 32 → ρ → CallResult ρ
  func : U32 → U32 → U32 → U32 → U32 → Machine ρ → U32 × Machine ρ
  bootArgsAddr : U32
  base : U32
  dt : ρ → U32

/-! ### Register accesses (`utils.h`) -/

namespace Device

variable {ρ : Type}

def read (n : Nat) (addr : U32) (d : Device ρ) : BitVec (8 * n) × Device ρ :=
  (BitVec.ofNat (8 * n) (leNat (d.mem.load addr n)), { d with log := d.log ++ [.read n addr] })

def write (n : Nat) (addr : U32) (val : BitVec (8 * n)) (d : Device ρ) : Device ρ :=
  { d with
    mem := d.mem.store addr (leBytes n val.toNat)
    log := d.log ++ [.write n addr val.toNat] }

/-- The shape of `setN`, `clearN` and `maskN`: read, change, write, return what
    was written. -/
def modify (n : Nat) (addr : U32) (f : BitVec (8 * n) → BitVec (8 * n)) (d : Device ρ) :
    BitVec (8 * n) × Device ρ :=
  let (reg, d) := d.read n addr
  (f reg, d.write n addr (f reg))

def set (n : Nat) (addr : U32) (val : BitVec (8 * n)) (d : Device ρ) :
    BitVec (8 * n) × Device ρ :=
  d.modify n addr (fun reg => reg ||| val)

def clear (n : Nat) (addr : U32) (val : BitVec (8 * n)) (d : Device ρ) :
    BitVec (8 * n) × Device ρ :=
  d.modify n addr (fun reg => reg &&& ~~~val)

def mask (n : Nat) (addr : U32) (clear set : BitVec (8 * n)) (d : Device ρ) :
    BitVec (8 * n) × Device ρ :=
  d.modify n addr (fun reg => (reg &&& ~~~clear) ||| set)

def writeread (n : Nat) (addr : U32) (data : BitVec (8 * n)) (d : Device ρ) :
    BitVec (8 * n) × Device ρ :=
  (d.write n addr data).read n addr

/-- The machine after a call into the rest of the firmware. -/
def call (P : Firmware ρ) (c : Call) (d : Device ρ) : Device ρ :=
  let r := P.callee c d.mem d.env
  { d with mem := r.mem, env := r.env, log := d.log ++ [.call c] }

end Device

/-! ### Local variables of `proxy_process` -/

/-- The variables the `switch` works on. -/
structure Locals (ρ : Type) where
  dev : Device ρ
  status : U64
  retval : U64
  guardSave : U32

namespace Locals

variable {ρ : Type}

def setStatus (l : Locals ρ) (s : U64) : Locals ρ := { l with status := s }

def setRetval (l : Locals ρ) (v : U64) : Locals ρ := { l with retval := v }

def guard (l : Locals ρ) (g : U32) : Locals ρ :=
  { l with dev := { l.dev with excGuard := g } }

def write (l : Locals ρ) (n : Nat) (addr : U32) (val : BitVec (8 * n)) : Locals ρ :=
  { l with dev := l.dev.write n addr val }

/-- `reply->retval = f(...)` for a register access. -/
def access (l : Locals ρ) {n : Nat} (f : Device ρ → BitVec (8 * n) × Device ρ) : Locals ρ :=
  { l with dev := (f l.dev).2, retval := (f l.dev).1.setWidth 64 }

/-- A call whose result is not used. -/
def call (P : Firmware ρ) (l : Locals ρ) (c : Call) : Locals ρ :=
  { l with dev := l.dev.call P c }

/-- `reply->retval = f(...)`, with the conversion from the callee's return type. -/
def callRet (P : Firmware ρ) (l : Locals ρ) (c : Call) (conv : CallResult ρ → U64) :
    Locals ρ :=
  (l.call P c).setRetval (conv (P.callee c l.dev.mem l.dev.env))

/-- `while (cnt--)` of `P_SET_BAUD`: four bytes to the UART each time. -/
def putPattern (P : Firmware ρ) (pattern : U64) : Nat → Locals ρ → Locals ρ
  | 0, l => l
  | cnt + 1, l =>
      putPattern P pattern cnt
        ((((l.call P (.uartPutbyte (pattern.setWidth 8))).call P
          (.uartPutbyte ((pattern >>> 8).setWidth 8))).call P
          (.uartPutbyte ((pattern >>> 16).setWidth 8))).call P
          (.uartPutbyte ((pattern >>> 24).setWidth 8)))

end Locals

/-! ### Conversions between the 64-bit request and the 32-bit machine -/

/-- A returned pointer or unsigned 32-bit value stored in a `u64`. -/
def CallResult.zext {ρ : Type} (r : CallResult ρ) : U64 := (lo32 r.ret).setWidth 64

/-- A returned `int` stored in a `u64`. -/
def CallResult.sext {ρ : Type} (r : CallResult ρ) : U64 := (lo32 r.ret).signExtend 64

/-- A returned `ssize_t`, which is 64 bits wide here. -/
def CallResult.full {ρ : Type} (r : CallResult ρ) : U64 := r.ret

/-! ### The `switch` -/

/-- How the `switch` is left: by `break`, by a `return`, or not at all because
    the callee does not return. -/
inductive Flow (ρ : Type) where
  | brk (l : Locals ρ)
  | ret (v : U32) (l : Locals ρ)
  | halt (l : Locals ρ)

section Switch

variable {ρ : Type} (P : Firmware ρ)

/-- `kboot_boot`: it stores the next stage and returns 0. -/
def kbootBoot (kernel : U32) (l : Locals ρ) : U32 × Locals ρ :=
  let l := (l.call P .usbInit).call P .printf
  let stage : VectorArgs :=
    { entry := kernel
      args := fun i => if i = 1 then ~~~0 else if i = 2 then P.dt l.dev.env else 0
      restoreLogo := false }
  (0, { l with dev := { l.dev with nextStage := stage } })

/-- The value `P_EXIT` returns, which C converts from `u64` to `int`. -/
def exitValue (arg : U64) : U32 := if arg ≠ 0 then lo32 arg else 1

def write64Body (args : Fin 6 → U64) (l : Locals ρ) : Flow ρ :=
  .brk ((l.guard GUARD_SKIP).write 8 (lo32 (args 0)) (args 1))

def kbootSetChosenBody (args : Fin 6 → U64) (l : Locals ρ) : Flow ρ :=
  .brk (l.callRet P (.kbootSetChosen (lo32 (args 0)) (lo32 (args 1))) CallResult.sext)

/-- The `switch` of `proxy_process`; `iodev` is the global `uartproxy_iodev`. -/
def proxySwitch (iodev : U32) (args : Fin 6 → U64) (l : Locals ρ) : Option ProxyOp → Flow ρ
  | some .P_NOP => .brk l
  | some .P_EXIT => .ret (exitValue (args 0)) l
  | some .P_CALL =>
      let (v, m) := P.func (lo32 (args 0)) (lo32 (args 1)) (lo32 (args 2)) (lo32 (args 3))
        (lo32 (args 4)) l.dev.toMachine
      let c := Call.func (lo32 (args 0)) (lo32 (args 1)) (lo32 (args 2)) (lo32 (args 3))
        (lo32 (args 4))
      .brk { l with
        dev := { m with log := l.dev.log ++ [.call c] }
        retval := v.setWidth 64 }
  | some .P_GET_BOOTARGS => .brk (l.setRetval (P.bootArgsAddr.setWidth 64))
  | some .P_GET_BASE => .brk (l.setRetval (P.base.setWidth 64))
  | some .P_SET_BAUD =>
      .brk (((l.call P .printf).call P (.uartSetbaud (lo32 (args 0)))).putPattern P (args 2)
        (lo32 (args 1)).toNat)
  | some .P_UDELAY => .brk (l.call P (.udelay (lo32 (args 0))))
  | some .P_SET_EXC_GUARD =>
      .brk { l with dev := { l.dev with excCount := 0 }, guardSave := lo32 (args 0) }
  | some .P_GET_EXC_COUNT =>
      .brk { l with
        dev := { l.dev with excCount := 0 }
        retval := l.dev.excCount.signExtend 64 }
  | some .P_EL0_CALL | some .P_EL1_CALL | some .P_VECTOR | some .P_GL1_CALL
  | some .P_GL2_CALL | some .P_GET_SIMD_STATE | some .P_PUT_SIMD_STATE =>
      .brk (l.setStatus S_BADCMD)
  | some .P_REBOOT => .halt (l.call P .reboot)
  -- no `break` after the status: the request runs into the body of `P_WRITE64`
  | some .P_SLEEP | some .P_EL3_CALL => write64Body args (l.setStatus S_BADCMD)
  | some .P_WRITE64 => write64Body args l
  | some .P_WRITE32 =>
      .brk ((l.guard GUARD_SKIP).write 4 (lo32 (args 0)) ((args 1).setWidth _))
  | some .P_WRITE16 =>
      .brk ((l.guard GUARD_SKIP).write 2 (lo32 (args 0)) ((args 1).setWidth _))
  | some .P_WRITE8 =>
      .brk ((l.guard GUARD_SKIP).write 1 (lo32 (args 0)) ((args 1).setWidth _))
  | some .P_READ64 => .brk ((l.guard GUARD_MARK).access (Device.read 8 (lo32 (args 0))))
  | some .P_READ32 => .brk ((l.guard GUARD_MARK).access (Device.read 4 (lo32 (args 0))))
  | some .P_READ16 => .brk ((l.guard GUARD_MARK).access (Device.read 2 (lo32 (args 0))))
  | some .P_READ8 => .brk ((l.guard GUARD_MARK).access (Device.read 1 (lo32 (args 0))))
  | some .P_SET64 =>
      .brk ((l.guard GUARD_MARK).access (Device.set 8 (lo32 (args 0)) ((args 1).setWidth _)))
  | some .P_SET32 =>
      .brk ((l.guard GUARD_MARK).access (Device.set 4 (lo32 (args 0)) ((args 1).setWidth _)))
  | some .P_SET16 =>
      .brk ((l.guard GUARD_MARK).access (Device.set 2 (lo32 (args 0)) ((args 1).setWidth _)))
  | some .P_SET8 =>
      .brk ((l.guard GUARD_MARK).access (Device.set 1 (lo32 (args 0)) ((args 1).setWidth _)))
  | some .P_CLEAR64 =>
      .brk ((l.guard GUARD_MARK).access (Device.clear 8 (lo32 (args 0)) ((args 1).setWidth _)))
  | some .P_CLEAR32 =>
      .brk ((l.guard GUARD_MARK).access (Device.clear 4 (lo32 (args 0)) ((args 1).setWidth _)))
  | some .P_CLEAR16 =>
      .brk ((l.guard GUARD_MARK).access (Device.clear 2 (lo32 (args 0)) ((args 1).setWidth _)))
  | some .P_CLEAR8 =>
      .brk ((l.guard GUARD_MARK).access (Device.clear 1 (lo32 (args 0)) ((args 1).setWidth _)))
  | some .P_MASK64 =>
      .brk ((l.guard GUARD_MARK).access
        (Device.mask 8 (lo32 (args 0)) ((args 1).setWidth _) ((args 2).setWidth _)))
  | some .P_MASK32 =>
      .brk ((l.guard GUARD_MARK).access
        (Device.mask 4 (lo32 (args 0)) ((args 1).setWidth _) ((args 2).setWidth _)))
  | some .P_MASK16 =>
      .brk ((l.guard GUARD_MARK).access
        (Device.mask 2 (lo32 (args 0)) ((args 1).setWidth _) ((args 2).setWidth _)))
  | some .P_MASK8 =>
      .brk ((l.guard GUARD_MARK).access
        (Device.mask 1 (lo32 (args 0)) ((args 1).setWidth _) ((args 2).setWidth _)))
  | some .P_WRITEREAD64 =>
      .brk ((l.guard GUARD_MARK).access
        (Device.writeread 8 (lo32 (args 0)) ((args 1).setWidth _)))
  | some .P_WRITEREAD32 =>
      .brk ((l.guard GUARD_MARK).access
        (Device.writeread 4 (lo32 (args 0)) ((args 1).setWidth _)))
  | some .P_WRITEREAD16 =>
      .brk ((l.guard GUARD_MARK).access
        (Device.writeread 2 (lo32 (args 0)) ((args 1).setWidth _)))
  | some .P_WRITEREAD8 =>
      .brk ((l.guard GUARD_MARK).access
        (Device.writeread 1 (lo32 (args 0)) ((args 1).setWidth _)))
  | some .P_MEMCPY64 =>
      .brk ((l.guard GUARD_RETURN).call P
        (.memcpy 8 (lo32 (args 0)) (lo32 (args 1)) (lo32 (args 2))))
  | some .P_MEMCPY32 =>
      .brk ((l.guard GUARD_RETURN).call P
        (.memcpy 4 (lo32 (args 0)) (lo32 (args 1)) (lo32 (args 2))))
  | some .P_MEMCPY16 =>
      .brk ((l.guard GUARD_RETURN).call P
        (.memcpy 2 (lo32 (args 0)) (lo32 (args 1)) (lo32 (args 2))))
  | some .P_MEMCPY8 =>
      .brk ((l.guard GUARD_RETURN).call P
        (.memcpy 1 (lo32 (args 0)) (lo32 (args 1)) (lo32 (args 2))))
  | some .P_MEMSET64 =>
      .brk ((l.guard GUARD_RETURN).call P
        (.memset 8 (lo32 (args 0)) ((args 1).setWidth _) (lo32 (args 2))))
  | some .P_MEMSET32 =>
      .brk ((l.guard GUARD_RETURN).call P
        (.memset 4 (lo32 (args 0)) ((args 1).setWidth _) (lo32 (args 2))))
  | some .P_MEMSET16 =>
      .brk ((l.guard GUARD_RETURN).call P
        (.memset 2 (lo32 (args 0)) ((args 1).setWidth _) (lo32 (args 2))))
  | some .P_MEMSET8 =>
      .brk ((l.guard GUARD_RETURN).call P
        (.memset 1 (lo32 (args 0)) ((args 1).setWidth _) (lo32 (args 2))))
  | some .P_IC_IALLUIS => .brk (l.call P .icIalluis)
  | some .P_IC_IALLU => .brk (l.call P .icIallu)
  | some .P_IC_IVAU => .brk (l.call P (.icIvauRange (lo32 (args 0)) (lo32 (args 1))))
  | some .P_DC_IVAC => .brk (l.call P (.dcIvacRange (lo32 (args 0)) (lo32 (args 1))))
  | some .P_DC_ISW => .brk (l.call P (.dcIsw (lo32 (args 0))))
  | some .P_DC_CSW => .brk (l.call P (.dcCsw (lo32 (args 0))))
  | some .P_DC_CISW => .brk (l.call P (.dcCisw (lo32 (args 0))))
  | some .P_DC_ZVA => .brk (l.setStatus S_BADCMD)
  | some .P_DC_CVAC => .brk (l.call P (.dcCvacRange (lo32 (args 0)) (lo32 (args 1))))
  | some .P_DC_CVAU => .brk (l.call P (.dcCvauRange (lo32 (args 0)) (lo32 (args 1))))
  | some .P_DC_CIVAC => .brk (l.call P (.dcCivacRange (lo32 (args 0)) (lo32 (args 1))))
  | some .P_MMU_SHUTDOWN => .brk (l.call P .mmuShutdown)
  | some .P_MMU_INIT => .brk (l.call P .mmuInit)
  | some .P_MMU_DISABLE => .brk (l.callRet P .mmuDisable CallResult.zext)
  | some .P_MMU_RESTORE => .brk (l.call P (.mmuRestore (lo32 (args 0))))
  | some .P_MMU_INIT_SECONDARY => .brk l
  | some .P_XZDEC =>
      .brk (l.callRet P
        (.xzDecode (lo32 (args 0)) (lo32 (args 1)) (lo32 (args 2)) (lo32 (args 3)))
        (fun r => if r.ret ≠ 0 then r.outLen.setWidth 64 else ~~~0))
  | some .P_GZDEC =>
      .brk (l.callRet P
        (.tinfGzipUncompress (lo32 (args 2)) (lo32 (args 3)) (lo32 (args 0)) (lo32 (args 1)))
        (fun r => if lo32 r.ret ≠ 0 then (lo32 r.ret).setWidth 64 else r.outLen.setWidth 64))
  | some .P_SMP_START_SECONDARIES => .brk (l.call P .smpStartSecondaries)
  | some .P_SMP_STOP_SECONDARIES => .brk (l.call P .smpStopSecondaries)
  | some .P_SMP_CALL | some .P_SMP_CALL_SYNC | some .P_SMP_WAIT | some .P_SMP_SET_WFE_MODE
  | some .P_SMP_IS_ALIVE | some .P_SMP_CALL_EL1 | some .P_SMP_CALL_EL1_SYNC
  | some .P_SMP_CALL_EL0 | some .P_SMP_CALL_EL0_SYNC => .brk (l.setStatus S_BADCMD)
  | some .P_HEAPBLOCK_ALLOC =>
      .brk (l.callRet P (.heapblockAlloc (lo32 (args 0))) CallResult.zext)
  | some .P_MALLOC => .brk (l.callRet P (.malloc (lo32 (args 0))) CallResult.zext)
  | some .P_TOP_OF_MEMORY_ALLOC =>
      .brk (l.callRet P (.topOfMemoryAlloc (lo32 (args 0))) CallResult.zext)
  | some .P_MEMALIGN =>
      .brk (l.callRet P (.memalign (lo32 (args 0)) (lo32 (args 1))) CallResult.zext)
  | some .P_FREE => .brk (l.call P (.free (lo32 (args 0))))
  | some .P_KBOOT_BOOT =>
      let (v, l) := kbootBoot P (lo32 (args 0)) l
      if v = 0 then .ret 1 l else kbootSetChosenBody P args l
  | some .P_KBOOT_SET_CHOSEN => kbootSetChosenBody P args l
  | some .P_KBOOT_SET_INITRD =>
      .brk (l.call P (.kbootSetInitrd (lo32 (args 0)) (lo32 (args 1))))
  | some .P_KBOOT_PREPARE_DT =>
      .brk (l.callRet P (.kbootPrepareDt (lo32 (args 0))) CallResult.sext)
  | some .P_KBOOT_GET_DT => .brk (l.setRetval ((P.dt l.dev.env).setWidth 64))
  | some .P_PMGR_POWER_ENABLE | some .P_PMGR_POWER_DISABLE | some .P_PMGR_ADT_POWER_ENABLE
  | some .P_PMGR_ADT_POWER_DISABLE | some .P_PMGR_RESET => .brk (l.setStatus S_BADCMD)
  | some .P_IODEV_SET_USAGE =>
      .brk (l.call P (.iodevSetUsage (lo32 (args 0)) (lo32 (args 1))))
  | some .P_IODEV_CAN_READ =>
      .brk (l.callRet P (.iodevCanRead (lo32 (args 0))) CallResult.full)
  | some .P_IODEV_CAN_WRITE =>
      .brk (l.callRet P (.iodevCanWrite (lo32 (args 0))) CallResult.zext)
  | some .P_IODEV_READ =>
      .brk (l.callRet P (.iodevRead (lo32 (args 0)) (lo32 (args 1)) (lo32 (args 2)))
        CallResult.full)
  | some .P_IODEV_WRITE =>
      .brk (l.callRet P (.iodevWrite (lo32 (args 0)) (lo32 (args 1)) (lo32 (args 2)))
        CallResult.full)
  | some .P_IODEV_WHOAMI => .brk (l.setRetval (iodev.setWidth 64))
  -- the remaining labels stand directly before `default`
  | _ => .brk (l.setStatus S_BADCMD)

/-- What a call of `proxy_process` leaves behind. -/
inductive ProcessResult (ρ : Type) where
  | returned (ret : U32) (reply : ProxyReply) (dev : Device ρ)
  | rebooted (dev : Device ρ)

/-- The variables as `proxy_process` sets them up. -/
def Locals.init (dev : Device ρ) : Locals ρ :=
  { dev := dev, status := S_OK, retval := 0, guardSave := dev.excGuard }

/-- The end of `proxy_process`: a `break` reaches the line that restores
    `exc_guard`, a `return` does not. -/
def Flow.finish (opcode : U64) : Flow ρ → ProcessResult ρ
  | .brk l => .returned 0 ⟨opcode, l.status, l.retval⟩ { l.dev with excGuard := l.guardSave }
  | .ret v l => .returned v ⟨opcode, l.status, l.retval⟩ l.dev
  | .halt l => .rebooted l.dev

def proxyProcess (iodev : U32) (request : ProxyRequest) (dev : Device ρ) : ProcessResult ρ :=
  (proxySwitch P iodev request.args (Locals.init dev)
    (ProxyOp.ofOpcode request.opcode)).finish request.opcode

/-! ### What each label can do -/

namespace Locals

variable (l : Locals ρ)

theorem status_putPattern (pattern : U64) (cnt : Nat) :
    (l.putPattern P pattern cnt).status = l.status := by
  induction cnt generalizing l with
  | zero => rfl
  | succ cnt ih => rw [putPattern, ih]; rfl

theorem guardSave_putPattern (pattern : U64) (cnt : Nat) :
    (l.putPattern P pattern cnt).guardSave = l.guardSave := by
  induction cnt generalizing l with
  | zero => rfl
  | succ cnt ih => rw [putPattern, ih]; rfl

end Locals

/-- The ways through the `switch` for a label other than the five whose bodies
    return, halt or fall through. -/
inductive Switched (l : Locals ρ) (op : Option ProxyOp) : Flow ρ → Prop
  | accepted {l' : Locals ρ} (hstatus : l'.status = l.status)
      (hguard : op ≠ some .P_SET_EXC_GUARD → l'.guardSave = l.guardSave) :
      Switched l op (.brk l')
  | rejected : Switched l op (.brk (l.setStatus S_BADCMD))

variable (iodev : U32) (args : Fin 6 → U64) (l : Locals ρ)

theorem proxySwitch_exit :
    proxySwitch P iodev args l (some .P_EXIT) = .ret (exitValue (args 0)) l := rfl

theorem proxySwitch_kbootBoot :
    proxySwitch P iodev args l (some .P_KBOOT_BOOT) =
      .ret 1 (kbootBoot P (lo32 (args 0)) l).2 := rfl

theorem proxySwitch_fallThrough {op : ProxyOp} (hop : op = .P_SLEEP ∨ op = .P_EL3_CALL) :
    proxySwitch P iodev args l (some op) = write64Body args (l.setStatus S_BADCMD) := by
  rcases hop with rfl | rfl <;> rfl

theorem proxySwitch_switched (op : Option ProxyOp) (hexit : op ≠ some .P_EXIT)
    (hboot : op ≠ some .P_KBOOT_BOOT) (hreboot : op ≠ some .P_REBOOT)
    (hsleep : op ≠ some .P_SLEEP) (hel3 : op ≠ some .P_EL3_CALL) :
    Switched l op (proxySwitch P iodev args l op) := by
  rcases op with _ | op
  · exact .rejected
  cases op with
  | P_EXIT => exact absurd rfl hexit
  | P_KBOOT_BOOT => exact absurd rfl hboot
  | P_REBOOT => exact absurd rfl hreboot
  | P_SLEEP => exact absurd rfl hsleep
  | P_EL3_CALL => exact absurd rfl hel3
  | P_SET_EXC_GUARD => exact .accepted rfl (fun h => absurd rfl h)
  | P_SET_BAUD =>
    exact .accepted (Locals.status_putPattern ..) fun _ => Locals.guardSave_putPattern ..
  | _ => first | exact .accepted rfl (fun _ => rfl) | exact .rejected

/-! ### The return value -/

/-- What `proxy_process` returns, by opcode. -/
def processRet (request : ProxyRequest) : U32 :=
  if ProxyOp.ofOpcode request.opcode = some .P_EXIT then exitValue (request.args 0)
  else if ProxyOp.ofOpcode request.opcode = some .P_KBOOT_BOOT then 1
  else 0

theorem exitValue_ne_zero_iff (arg : U64) : exitValue arg ≠ 0 ↔ arg = 0 ∨ lo32 arg ≠ 0 := by
  unfold exitValue
  by_cases harg : arg = 0
  · rw [if_neg (not_not.mpr harg)]
    exact ⟨fun _ => .inl harg, fun _ => by decide⟩
  · rw [if_pos harg]
    exact ⟨.inr, fun h => h.resolve_left harg⟩

theorem proxyProcess_returned (request : ProxyRequest) (dev : Device ρ)
    (hreboot : ProxyOp.ofOpcode request.opcode ≠ some .P_REBOOT) :
    ∃ reply dev',
      proxyProcess P iodev request dev = .returned (processRet request) reply dev' := by
  unfold proxyProcess processRet
  by_cases hexit : ProxyOp.ofOpcode request.opcode = some .P_EXIT
  · rw [hexit, proxySwitch_exit, if_pos rfl]
    exact ⟨_, _, rfl⟩
  rw [if_neg hexit]
  by_cases hboot : ProxyOp.ofOpcode request.opcode = some .P_KBOOT_BOOT
  · rw [hboot, proxySwitch_kbootBoot, if_pos rfl]
    exact ⟨_, _, rfl⟩
  rw [if_neg hboot]
  by_cases hsleep : ProxyOp.ofOpcode request.opcode = some .P_SLEEP
  · rw [hsleep, proxySwitch_fallThrough P iodev request.args _ (.inl rfl)]
    exact ⟨_, _, rfl⟩
  by_cases hel3 : ProxyOp.ofOpcode request.opcode = some .P_EL3_CALL
  · rw [hel3, proxySwitch_fallThrough P iodev request.args _ (.inr rfl)]
    exact ⟨_, _, rfl⟩
  have hsw := proxySwitch_switched P iodev request.args (Locals.init dev) _
    hexit hboot hreboot hsleep hel3
  generalize proxySwitch P iodev request.args (Locals.init dev)
    (ProxyOp.ofOpcode request.opcode) = flow at hsw ⊢
  cases hsw with
  | accepted => exact ⟨_, _, rfl⟩
  | rejected => exact ⟨_, _, rfl⟩

/-! ### What the callees keep, the interpreter keeps -/

/-- No function outside the proxy changes the part `rx` of the firmware state. -/
structure Firmware.Keeps {α : Type} (P : Firmware ρ) (rx : ρ → α) : Prop where
  callee : ∀ c mem env, rx (P.callee c mem env).env = rx env
  func : ∀ f a b c d m, rx (P.func f a b c d m).2.env = rx m.env

def Flow.locals : Flow ρ → Locals ρ
  | .brk l => l
  | .ret _ l => l
  | .halt l => l

def ProcessResult.dev : ProcessResult ρ → Device ρ
  | .returned _ _ dev => dev
  | .rebooted dev => dev

theorem Firmware.Keeps.putPattern {α : Type} {P : Firmware ρ} {rx : ρ → α} (h : P.Keeps rx)
    (pattern : U64) (cnt : Nat) (l : Locals ρ) :
    rx (l.putPattern P pattern cnt).dev.env = rx l.dev.env := by
  induction cnt generalizing l with
  | zero => rfl
  | succ cnt ih =>
    rw [Locals.putPattern, ih]
    exact (h.callee _ _ _).trans ((h.callee _ _ _).trans ((h.callee _ _ _).trans (h.callee _ _ _)))

theorem Firmware.Keeps.proxySwitch {α : Type} {P : Firmware ρ} {rx : ρ → α} (h : P.Keeps rx)
    (iodev : U32) (args : Fin 6 → U64) (l : Locals ρ) (op : Option ProxyOp) :
    rx (proxySwitch P iodev args l op).locals.dev.env = rx l.dev.env := by
  rcases op with _ | op
  · rfl
  cases op with
  | P_SET_BAUD =>
    exact (h.putPattern _ _ _).trans ((h.callee _ _ _).trans (h.callee _ _ _))
  | P_CALL => exact h.func _ _ _ _ _ _
  | P_KBOOT_BOOT => exact (h.callee _ _ _).trans (h.callee _ _ _)
  | _ => first | rfl | exact h.callee _ _ _

theorem Firmware.Keeps.proxyProcess {α : Type} {P : Firmware ρ} {rx : ρ → α} (h : P.Keeps rx)
    (iodev : U32) (request : ProxyRequest) (dev : Device ρ) :
    rx (proxyProcess P iodev request dev).dev.env = rx dev.env := by
  have hsw := h.proxySwitch iodev request.args (Locals.init dev)
    (ProxyOp.ofOpcode request.opcode)
  unfold MiniHaywire.proxyProcess
  cases hflow : MiniHaywire.proxySwitch P iodev request.args (Locals.init dev)
    (ProxyOp.ofOpcode request.opcode) with
  | brk l => rw [hflow] at hsw; exact hsw
  | ret v l => rw [hflow] at hsw; exact hsw
  | halt l => rw [hflow] at hsw; exact hsw

/-! ### Rejected commands -/

/-- A request that is answered with `S_BADCMD` leaves the machine as it was and
    is not seen to touch it, and `exc_guard` survives every request but the one
    that sets it. -/
def RejectionInert (iodev : U32) (request : ProxyRequest) (dev : Device ρ) : Prop :=
  ∀ ret reply dev', proxyProcess P iodev request dev = .returned ret reply dev' →
    (reply.status = S_BADCMD → dev' = dev) ∧
    (ProxyOp.ofOpcode request.opcode ≠ some .P_SET_EXC_GUARD → dev'.excGuard = dev.excGuard)

/-- A request that runs into `P_WRITE64` is rejected and writes all the same. -/
theorem proxyProcess_fallThrough {request : ProxyRequest} {op : ProxyOp}
    (hcode : ProxyOp.ofOpcode request.opcode = some op)
    (hop : op = .P_SLEEP ∨ op = .P_EL3_CALL) (dev : Device ρ) :
    proxyProcess P iodev request dev =
      .returned 0 ⟨request.opcode, S_BADCMD, 0⟩
        (dev.write 8 (lo32 (request.args 0)) (request.args 1)) := by
  unfold proxyProcess
  rw [hcode, proxySwitch_fallThrough P iodev request.args _ hop]
  simp only [write64Body, Flow.finish, Locals.write, Locals.guard, Locals.setStatus, Locals.init,
    Device.write]

theorem not_rejectionInert_of_fallThrough {request : ProxyRequest} {op : ProxyOp}
    (hcode : ProxyOp.ofOpcode request.opcode = some op)
    (hop : op = .P_SLEEP ∨ op = .P_EL3_CALL) (dev : Device ρ) :
    ¬ RejectionInert P iodev request dev := by
  intro h
  have hsame := (h _ _ _ (proxyProcess_fallThrough P iodev hcode hop dev)).1 rfl
  have hlog := congrArg (fun d : Device ρ => d.log.length) hsame
  simp [Device.write] at hlog

theorem S_OK_ne_S_BADCMD : S_OK ≠ S_BADCMD := by decide

/-- **A rejected command has no effect.** If a request is answered with `S_BADCMD` the machine is
    as it was, and only `P_SET_EXC_GUARD` changes `exc_guard`: for every machine and every request
    except `P_SLEEP` and `P_EL3_CALL`, the two labels that lack their `break`. -/
theorem rejectionInert_iff (iodev : U32) (request : ProxyRequest) (dev : Device ρ) :
    RejectionInert P iodev request dev ↔
      ProxyOp.ofOpcode request.opcode ≠ some .P_SLEEP ∧
      ProxyOp.ofOpcode request.opcode ≠ some .P_EL3_CALL := by
  constructor
  · intro h
    exact ⟨fun hop => not_rejectionInert_of_fallThrough P iodev hop (.inl rfl) dev h,
      fun hop => not_rejectionInert_of_fallThrough P iodev hop (.inr rfl) dev h⟩
  · rintro ⟨hsleep, hel3⟩ ret reply dev' hres
    unfold proxyProcess at hres
    by_cases hexit : ProxyOp.ofOpcode request.opcode = some .P_EXIT
    · rw [hexit, proxySwitch_exit] at hres
      cases hres
      exact ⟨fun hbad => absurd hbad S_OK_ne_S_BADCMD, fun _ => rfl⟩
    by_cases hboot : ProxyOp.ofOpcode request.opcode = some .P_KBOOT_BOOT
    · rw [hboot, proxySwitch_kbootBoot] at hres
      cases hres
      exact ⟨fun hbad => absurd hbad S_OK_ne_S_BADCMD, fun _ => rfl⟩
    by_cases hreboot : ProxyOp.ofOpcode request.opcode = some .P_REBOOT
    · rw [hreboot] at hres
      cases hres
    have hsw := proxySwitch_switched P iodev request.args (Locals.init dev) _
      hexit hboot hreboot hsleep hel3
    generalize proxySwitch P iodev request.args (Locals.init dev)
      (ProxyOp.ofOpcode request.opcode) = flow at hres hsw
    cases hsw with
    | accepted hstatus hguard =>
      cases hres
      refine ⟨fun hbad => ?_, fun hop => hguard hop⟩
      exact absurd (hstatus.symm.trans hbad) S_OK_ne_S_BADCMD
    | rejected =>
      cases hres
      exact ⟨fun _ => rfl, fun _ => rfl⟩

end Switch

def Firmware.idle (ρ : Type) : Firmware ρ where
  callee := fun _ mem env => ⟨0, 0, mem, env⟩
  func := fun _ _ _ _ _ m => (0, m)
  bootArgsAddr := 0
  base := 0
  dt := fun _ => 0

def Device.cleared {ρ : Type} (env : ρ) : Device ρ where
  mem := fun _ => 0
  excGuard := GUARD_OFF
  excCount := 0
  nextStage := ⟨0, fun _ => 0, false⟩
  env := env
  log := []

/-- `P_SLEEP` is answered with `S_BADCMD` after its first argument was used as
    the address of a 64-bit write. -/
theorem sleep_rejected_and_writes :
    ∃ dev' : Device Unit,
      proxyProcess (Firmware.idle Unit) 0
          ⟨0x11, fun i => if i = 0 then 0x80001000 else if i = 1 then 0x55 else 0⟩
          (Device.cleared ()) = .returned 0 ⟨0x11, S_BADCMD, 0⟩ dev' ∧
      dev'.mem 0x80001000 = 0x55 ∧ (Device.cleared ()).mem 0x80001000 = 0 ∧
      dev'.log = [.write 8 0x80001000 0x55] := by
  have hcode : ProxyOp.ofOpcode 0x11 = some .P_SLEEP := by decide +kernel
  exact ⟨_, proxyProcess_fallThrough (Firmware.idle Unit) 0 hcode (.inl rfl) _,
    by decide +kernel, rfl, rfl⟩

end MiniHaywire
