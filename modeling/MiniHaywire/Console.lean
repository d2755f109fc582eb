import MiniHaywire.Bytes
import MiniHaywire.Stream

/-!
# The console: one text, several devices

Model of `iodev_console_write` and of the functions of `iodev.c` that lead to it.
A console write offers the text to every registered device with `USAGE_CONSOLE`,
after what the device has not taken of the earlier text, and then keeps the end of
the text in `con_buf`, a ring of `CONSOLE_BUFFER_SIZE` bytes.  `con_wp` counts the
bytes printed so far and `con_rp[id]` is the position the device has come to; both
are `size_t`, 32 bits wide.

The devices are the environment.  What a callback does in one call is a
`Callback`: it may register devices, change their usage and print, and ends in an
`Outcome`.  A text printed from inside a callback finds `in_iodev` set and goes
straight to the UART behind a `+`.
-/

namespace MiniHaywire.Console

/-- `iodev_id_t`: the UART, the virtual UART, the USB devices, the hidden log. -/
abbrev IodevId := Fin 11

def IODEV_UART : IodevId := 0
def IODEV_USB0 : IodevId := 2
def IODEV_MAX : IodevId := 10

def consoleBufferSize : Nat := 8192

def usageConsole : U32 := 1

structure Ops where
  canWrite : Bool
  write : Bool
  handleEvents : Bool

structure Iodev where
  ops : Ops
  usage : U32

def Iodev.isConsole (d : Iodev) : Bool := d.usage &&& usageConsole != 0

structure Iodevs where
  dev : IodevId → Option Iodev
  uart : (dev IODEV_UART).isSome

def iodevRegisterDevice (id : IodevId) (d : Iodev) (t : Iodevs) : Iodevs :=
  if IODEV_MAX ≤ id then t
  else
    { dev := Function.update t.dev id (some d)
      uart := by
        rw [Function.update_apply]
        split
        · rfl
        · exact t.uart }

def iodevUnregisterDevice (id : IodevId) (t : Iodevs) : Option Iodev × Iodevs :=
  if h : id < IODEV_USB0 ∨ IODEV_MAX ≤ id then (none, t)
  else
    (t.dev id,
      { dev := Function.update t.dev id none
        uart := by
          rw [Function.update_of_ne]
          · exact t.uart
          · rintro rfl
            exact h (Or.inl (by decide)) })

def iodevSetUsage (id : IodevId) (usage : U32) (t : Iodevs) : Iodevs :=
  match t.dev id with
  | none => t
  | some d =>
    { dev := Function.update t.dev id (some { d with usage := usage })
      uart := by
        rw [Function.update_apply]
        split
        · rfl
        · exact t.uart }

/-- What a device makes of `n` bytes: it fails, or takes one byte or more of them. -/
inductive Outcome where
  | fails (code : Nat)
  | accepts (more : Nat)

/-- The result of the write callback for `n` bytes, between one and `n` unless it fails. -/
def Outcome.ret (n : Nat) : Outcome → Int
  | fails code => -(code : Int)
  | accepts more => (min (more + 1) n : Nat)

/-- What a callback does until it returns.  `print` is a call of `iodev_console_write`,
`plus` and `body` are what the UART's write callback does in it, for the `+` and for the
text. -/
inductive Callback where
  | done (o : Outcome)
  | register (id : IodevId) (d : Iodev) (k : Callback)
  | unregister (id : IodevId) (k : Callback)
  | setUsage (id : IodevId) (usage : U32) (k : Callback)
  | print (text : List Byte) (plus body k : Callback)

/-- What can be seen of the console's work.  `lacking` and `flushing` record `con_wp` when a
device came up in a console write of `len` bytes: without `USAGE_CONSOLE`, or ready to write.
`sent` is a call of the device's write callback, `direct` a write past the account. -/
inductive Event where
  | lacking (id : IodevId) (wp len : Nat)
  | flushing (id : IodevId) (wp : Nat)
  | sent (id : IodevId) (bytes : List Byte) (ret : Int)
  | direct (bytes : List Byte)

structure State where
  conBuf : Nat → Byte
  conWp : Nat
  conRp : IodevId → Nat
  inIodev : Nat
  iodevs : Iodevs
  log : List Event

namespace State

def record (e : Event) (s : State) : State := { s with log := s.log ++ [e] }

def uartIsConsole (s : State) : Bool := ((s.iodevs.dev IODEV_UART).get s.iodevs.uart).isConsole

def setRp (id : IodevId) (rp : Nat) (s : State) : State :=
  { s with conRp := Function.update s.conRp id (rp % 2 ^ 32) }

@[simp] theorem conRp_record (e : Event) (s : State) : (s.record e).conRp = s.conRp := rfl

theorem conRp_setRp (id : IodevId) (rp : Nat) (s : State) :
    (s.setRp id rp).conRp id = rp % 2 ^ 32 := Function.update_self ..

def advance (id : IodevId) (ret : Int) (s : State) : State := s.setRp id (s.conRp id + ret.toNat)

end State

/-- `iodev_console_write` with `in_iodev` set. -/
def consoleWriteNested (text : List Byte) (plus body : State → State) (s : State) : State :=
  if text ≠ [] ∧ s.uartIsConsole then
    body ((plus (s.record (.direct [0x2b]))).record (.direct text))
  else s

def Callback.run : Callback → State → Outcome × State
  | done o, s => (o, s)
  | register id d k, s => k.run { s with iodevs := iodevRegisterDevice id d s.iodevs }
  | unregister id k, s => k.run { s with iodevs := (iodevUnregisterDevice id s.iodevs).2 }
  | setUsage id usage k, s => k.run { s with iodevs := iodevSetUsage id usage s.iodevs }
  | print text plus body k, s =>
    k.run (consoleWriteNested text (fun s => (plus.run s).2) (fun s => (body.run s).2) s)

/-- `iodev_can_write`, for a device whose callback answers `answer`. -/
def iodevCanWrite (id : IodevId) (answer : Bool) (s : State) : Bool :=
  match s.iodevs.dev id with
  | none => false
  | some d => d.ops.canWrite && answer

def iodevWrite (id : IodevId) (bytes : List Byte) (cb : Callback) (s : State) : Int × State :=
  match s.iodevs.dev id with
  | none => (-1, s)
  | some d =>
    if d.ops.write then
      let r := cb.run s
      let ret := r.1.ret bytes.length
      (ret, r.2.record (.sent id bytes ret))
    else (-1, s)

/-! ### One device in a console write

The callbacks of the write loops are given in the order in which they are called; a
device that has no further one fails. -/

def pendingBlock (id : IodevId) (s : State) : List Byte :=
  let bufRp := s.conRp id % consoleBufferSize
  peek s.conBuf bufRp (min (s.conWp - s.conRp id) (consoleBufferSize - bufRp))

/-- "Flush existing buffer to device if possible".  `none`: on to the next device. -/
def flushBuffer (id : IodevId) : List Callback → State → Option (List Callback) × State
  | [], s => (if s.conRp id < s.conWp then none else some [], s)
  | cb :: cbs, s =>
    if s.conRp id < s.conWp then
      let r := iodevWrite id (pendingBlock id s) cb s
      if r.1 ≤ 0 then (none, r.2)
      else flushBuffer id cbs (r.2.advance id r.1)
    else (some (cb :: cbs), s)

/-- "Write the current buffer". -/
def writeText (id : IodevId) (text : List Byte) : List Callback → Nat → State → State
  | [], _, s => s
  | cb :: cbs, wrote, s =>
    if wrote < text.length then
      let r := iodevWrite id (text.drop wrote) cb s
      if r.1 ≤ 0 then r.2
      else writeText id text cbs ((wrote + r.1.toNat) % 2 ^ 32) (r.2.advance id r.1)
    else s

/-- What the device's callbacks do in one console write. -/
structure Answers where
  canWrite : Bool
  writes : List Callback

/-- What lies further behind than the ring is long is given up. -/
def catchUp (id : IodevId) (s : State) : State :=
  if s.conWp > consoleBufferSize then s.setRp id (max (s.conWp - consoleBufferSize) (s.conRp id))
  else s

def serveDevice (text : List Byte) (answers : IodevId → Answers) (s : State) (id : IodevId) :
    State :=
  match s.iodevs.dev id with
  | none => s
  | some d =>
    if !d.isConsole then
      -- "Drop buffer"
      (s.setRp id (s.conWp + text.length)).record (.lacking id s.conWp text.length)
    else if !iodevCanWrite id (answers id).canWrite s then s
    else
      let r := flushBuffer id (answers id).writes ((catchUp id s).record (.flushing id s.conWp))
      match r.1 with
      | none => r.2
      | some cbs => writeText id text cbs 0 r.2

/-! ### The console write -/

/-- The copy loop of "Update console buffer"; every round copies at least a byte, so there are
no more rounds than bytes. -/
def copyText : Nat → List Byte → State → State
  | 0, _, s => s
  | rounds + 1, text, s =>
    if text.length ≠ 0 then
      let bufWp := s.conWp % consoleBufferSize
      let block := min text.length (consoleBufferSize - bufWp)
      copyText rounds (text.drop block)
        { s with
          conBuf := blit s.conBuf bufWp (text.take block)
          conWp := (s.conWp + block) % 2 ^ 32 }
    else s

/-- "Update console buffer". -/
def updateBuffer (text : List Byte) (s : State) : State :=
  if text.length > consoleBufferSize then
    let excess := text.length - consoleBufferSize
    copyText consoleBufferSize (text.drop excess) { s with conWp := (s.conWp + excess) % 2 ^ 32 }
  else copyText text.length text s

def iodevConsoleWrite (text : List Byte) (answers : IodevId → Answers) (s : State) : State :=
  if s.inIodev ≠ 0 then
    let uart := fun i s => (((answers IODEV_UART).writes.getD i (.done (.fails 1))).run s).2
    consoleWriteNested text (uart 0) (uart 1) s
  else
    let s := (List.finRange 11).foldl (serveDevice text answers) { s with inIodev := s.inIodev + 1 }
    let s := updateBuffer text s
    { s with inIodev := s.inIodev - 1 }

/-- What happens in one `iodev_handle_events`: the handler, and the callbacks of the console
write that follows if the device can write. -/
structure EventAnswers where
  handler : Callback
  canWrite : Bool
  console : IodevId → Answers

/-- The source reads `iodevs[id]` unchecked: its callers pass devices that are there. -/
def iodevHandleEvents (id : IodevId) (a : EventAnswers) (s : State) : State :=
  if s.inIodev ≠ 0 then s
  else
    let s := { s with inIodev := s.inIodev + 1 }
    let s := if (s.iodevs.dev id).any (·.ops.handleEvents) then (a.handler.run s).2 else s
    let s := { s with inIodev := s.inIodev - 1 }
    if iodevCanWrite id a.canWrite s then iodevConsoleWrite [] a.console s else s

def iodevConsoleKick (first : IodevId → Answers) (each : IodevId → EventAnswers) (s : State) :
    State :=
  (List.finRange 11).foldl
    (fun s id =>
      if (s.iodevs.dev id).any (·.isConsole) then iodevHandleEvents id (each id) s else s)
    (iodevConsoleWrite [] first s)

/-! ### Runs -/

/-- A call from outside the callbacks. -/
inductive Call where
  | consoleWrite (text : List Byte) (answers : IodevId → Answers)
  | handleEvents (id : IodevId) (a : EventAnswers)
  | consoleKick (first : IodevId → Answers) (each : IodevId → EventAnswers)
  | registerDevice (id : IodevId) (d : Iodev)
  | unregisterDevice (id : IodevId)
  | setUsage (id : IodevId) (usage : U32)

def call (s : State) : Call → State
  | .consoleWrite text answers => iodevConsoleWrite text answers s
  | .handleEvents id a => iodevHandleEvents id a s
  | .consoleKick first each => iodevConsoleKick first each s
  | .registerDevice id d => { s with iodevs := iodevRegisterDevice id d s.iodevs }
  | .unregisterDevice id => { s with iodevs := (iodevUnregisterDevice id s.iodevs).2 }
  | .setUsage id usage => { s with iodevs := iodevSetUsage id usage s.iodevs }

def calls (cs : List Call) (s : State) : State := cs.foldl call s

def State.start (t : Iodevs) : State where
  conBuf := fun _ => 0
  conWp := 0
  conRp := fun _ => 0
  inIodev := 0
  iodevs := t
  log := []

def Call.text : Call → List Byte
  | consoleWrite text _ => text
  | _ => []

/-- All text that was printed, from outside the callbacks. -/
def printed (cs : List Call) : List Byte := cs.flatMap Call.text

end MiniHaywire.Console
