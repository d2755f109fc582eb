import MiniHaywire.Dwc2Frame
import MiniHaywire.Run

/-!
# Callers, driver and controller

The driver together with the controller it programs and the callers of its serial pipes.
The callers poll: while one waits for its bytes, `usb_dwc2_handle_events` runs, and in it
the host and the controller move.  `Moment` is one such move, with the driver's answer to
it where there is one.

The account of the bytes is kept beside the driver and read by nothing in it.
-/

namespace MiniHaywire.Dwc2

/-- A move of the host or the controller, or a piece of `usb_dwc2_handle_interrupts`. -/
inductive Moment
  /-- A setup packet arrives in the buffer of the control endpoint. -/
  | setupPacket (bytes : List Byte)
  /-- A packet arrives on the OUT endpoint of a pipe. -/
  | outPacket (p : PipeId) (bytes : List Byte)
  | usbReset
  | enumDone (highSpeed : Bool)
  /-- An endpoint's interrupt is served. -/
  | part (part : Part)

namespace Dev

def respond : Moment → Dev → Option Dev
  | .setupPacket _, d | .outPacket _ _, d => some d
  | .usbReset, d => some d.handleUsbrst
  | .enumDone highSpeed, d => some (d.handleEventConnectDone highSpeed)
  | .part part, d => d.serve part

end Dev

/-- The pieces of one round of `usb_dwc2_handle_interrupts`. -/
def GintRound.moments (r : GintRound) : List Moment :=
  (if r.usbRst then [.usbReset] else []) ++
  (if r.enumDone ∧ ¬r.usbSuspend then [.enumDone r.highSpeed] else []) ++
  (if r.epInt then r.regs.parts.map .part else [])

theorem Dev.handleInterruptsRound_eq_moves (r : GintRound) (d : Dev) :
    d.handleInterruptsRound r = moves Dev.respond r.moments d := by
  have hparts : ∀ (ps : List Part) (d : Dev),
      ps.foldlM Dev.serve d = moves Dev.respond (ps.map .part) d := by
    intro ps d
    simp only [moves, List.foldlM_map]
    rfl
  simp only [Dev.handleInterruptsRound, GintRound.moments, moves_append, Dev.handleInterruptsEp,
    hparts]
  split <;> split <;> split <;> rfl

/-- `usb_dwc2_handle_interrupts` is the driver's answer to the moments of its rounds. -/
theorem Dev.handleInterrupts_eq_moves (rounds : List GintRound) (d : Dev) :
    d.handleInterrupts rounds = moves Dev.respond (rounds.flatMap GintRound.moments) d := by
  induction rounds generalizing d with
  | nil => rfl
  | cons r rounds ih =>
    rw [List.flatMap_cons, moves_append, ← Dev.handleInterruptsRound_eq_moves]
    exact congrArg _ (funext ih)

/-! ### The world around the driver -/

structure World where
  dev : Dev
  /-- The packet an OUT endpoint took and did not report yet. -/
  pending : PipeId → Option (List Byte)
  /-- What the rings held at the last USB reset. -/
  heldOut : PipeId → List Byte
  heldIn : PipeId → List Byte
  /-- Since then: the packets an OUT endpoint took, the bytes handed to readers, those taken
      from writers, and those of the IN transfers that completed. -/
  packets : PipeId → List (List Byte)
  delivered : PipeId → List Byte
  accepted : PipeId → List Byte
  transmitted : PipeId → List Byte

namespace Dev

/-- The controller stores `bs` in the buffer of an endpoint. -/
def dma (ep : Lep) (bs : List Byte) (d : Dev) : Dev :=
  let start := d.xferBuffer ep
  { d with
    memory := fun a =>
      if start ≤ a ∧ a < start + bs.length then bs.getD (a - start) 0 else d.memory a }

/-- The controller clears the enable bit of an endpoint whose transfer is over. -/
def complete (ep : Lep) (d : Dev) : Dev := { d with enabled := Function.update d.enabled ep false }

end Dev

namespace World

/-- After `usb_dwc2_init`, before any transfer.  Where the transfer buffers are is left open. -/
def start (desc : Descriptors) (ring : Lep → Ringbuffer) (xferBuffer : Lep → Nat) : World where
  dev := { Dev.init desc ring with xferBuffer }
  pending := fun _ => none
  heldOut := fun _ => []
  heldIn := fun _ => []
  packets := fun _ => []
  delivered := fun _ => []
  accepted := fun _ => []
  transmitted := fun _ => []

def mapDev (f : Dev → Dev) (w : World) : World := { w with dev := f w.dev }

/-- The controller's side of a moment, `none` where there is no such move: it takes a packet
    only on an enabled endpoint, and reports the completion of a transfer once, with the bytes
    it did not get as the residual count. -/
def controller : Moment → World → Option World
  | .setupPacket bytes, w =>
    if bytes.length = 8 then some (w.mapDev (Dev.dma CTRL_OUT bytes)) else none
  | .outPacket p bytes, w =>
    if w.dev.enabled (epOut p) ∧ w.pending p = none ∧ bytes.length ≤ 512 then
      some { w with
        dev := w.dev.dma (epOut p) bytes
        pending := Function.update w.pending p (some bytes)
        packets := Function.update w.packets p (w.packets p ++ [bytes]) }
    else none
  -- the account starts anew
  | .usbReset, w =>
    some { w with
      pending := fun _ => none
      heldOut := fun p => (w.dev.ring (epOut p)).contents
      heldIn := fun p => (w.dev.ring (epIn p)).contents
      packets := fun _ => []
      delivered := fun _ => []
      accepted := fun _ => []
      transmitted := fun _ => [] }
  | .part (.bulkOut p doepint doeptsiz), w =>
    if doepint &&& Dev.XFER_COMPL ≠ 0 then
      match w.pending p with
      | none => none
      | some bytes =>
        if (doeptsiz &&& 0x7fff).toNat + bytes.length = 512 then
          some { w with
            dev := w.dev.complete (epOut p)
            pending := Function.update w.pending p none }
        else none
    else some w
  | .part (.bulkIn p diepint), w =>
    if diepint &&& Dev.XFER_COMPL ≠ 0 then
      if w.dev.enabled (epIn p) then
        some { w with
          dev := w.dev.complete (epIn p)
          transmitted := Function.update w.transmitted p
            (w.transmitted p ++ w.dev.loadBuffer (epIn p) (w.dev.xferSize (epIn p))) }
      else none
    else some w
  | _, w => some w

/-- A moment that `ok` admits: the controller moves, then the driver answers. -/
def moment (ok : Moment → World → Bool) (m : Moment) (w : World) : Option World :=
  if ok m w then
    (w.controller m).bind fun w => (w.dev.respond m).map fun dev => { w with dev }
  else none

theorem moment_eq_some {ok : Moment → World → Bool} {m : Moment} {w w' : World}
    (h : w.moment ok m = some w') : ok m w = true ∧ ∃ mid d', w.controller m = some mid ∧
      mid.dev.respond m = some d' ∧ w' = { mid with dev := d' } := by
  unfold moment at h
  split at h
  · rename_i hok
    obtain ⟨mid, hmid, hrest⟩ := Option.bind_eq_some_iff.mp h
    obtain ⟨d', hd', rfl⟩ := Option.map_eq_some_iff.mp hrest
    exact ⟨hok, mid, d', hmid, hd', rfl⟩
  · cases h

theorem controller_setupPacket {bytes : List Byte} {w w' : World}
    (h : w.controller (.setupPacket bytes) = some w') :
    bytes.length = 8 ∧ w' = w.mapDev (Dev.dma CTRL_OUT bytes) := by
  simp only [controller] at h
  split at h
  · rename_i hlen
    exact ⟨hlen, (Option.some.inj h).symm⟩
  · cases h

theorem controller_outPacket {p : PipeId} {bytes : List Byte} {w w' : World}
    (h : w.controller (.outPacket p bytes) = some w') :
    w.dev.enabled (epOut p) = true ∧ w.pending p = none ∧ bytes.length ≤ 512 ∧
      w' = { w with
        dev := w.dev.dma (epOut p) bytes
        pending := Function.update w.pending p (some bytes)
        packets := Function.update w.packets p (w.packets p ++ [bytes]) } := by
  simp only [controller] at h
  split at h
  · rename_i hguard
    exact ⟨hguard.1, hguard.2.1, hguard.2.2, (Option.some.inj h).symm⟩
  · cases h

theorem controller_bulkOut {p : PipeId} {doepint doeptsiz : U32} {w w' : World}
    (h : w.controller (.part (.bulkOut p doepint doeptsiz)) = some w') :
    (doepint &&& Dev.XFER_COMPL ≠ 0 ∧ ∃ bytes, w.pending p = some bytes ∧
        (doeptsiz &&& 0x7fff).toNat + bytes.length = 512 ∧
        w' = { w with
          dev := w.dev.complete (epOut p)
          pending := Function.update w.pending p none }) ∨
      (¬ doepint &&& Dev.XFER_COMPL ≠ 0 ∧ w' = w) := by
  simp only [controller] at h
  split at h
  · rename_i hcompl
    split at h
    · cases h
    rename_i bytes hbytes
    split at h
    · rename_i hlen
      exact .inl ⟨hcompl, bytes, hbytes, hlen, (Option.some.inj h).symm⟩
    · cases h
  · rename_i hcompl
    exact .inr ⟨hcompl, (Option.some.inj h).symm⟩

theorem controller_bulkIn {p : PipeId} {diepint : U32} {w w' : World}
    (h : w.controller (.part (.bulkIn p diepint)) = some w') :
    (diepint &&& Dev.XFER_COMPL ≠ 0 ∧ w.dev.enabled (epIn p) = true ∧
        w' = { w with
          dev := w.dev.complete (epIn p)
          transmitted := Function.update w.transmitted p
            (w.transmitted p ++ w.dev.loadBuffer (epIn p) (w.dev.xferSize (epIn p))) }) ∨
      (¬ diepint &&& Dev.XFER_COMPL ≠ 0 ∧ w' = w) := by
  simp only [controller] at h
  split at h
  · rename_i hcompl
    split at h
    · rename_i hen
      exact .inl ⟨hcompl, hen, (Option.some.inj h).symm⟩
    · cases h
  · rename_i hcompl
    exact .inr ⟨hcompl, (Option.some.inj h).symm⟩

/-! ### The calls -/

/-- `ringbuffer_read` from the ring of received bytes, for a reader. -/
def take (p : PipeId) (n : Nat) (w : World) : List Byte × World :=
  let read := ringbufferRead n (w.dev.ring (epOut p))
  (read.1, { w with
    dev := w.dev.setRing (epOut p) read.2
    delivered := Function.update w.delivered p (w.delivered p ++ read.1) })

/-- `ringbuffer_write` to the ring of bytes to send, for a writer. -/
def give (p : PipeId) (bs : List Byte) (w : World) : Nat × World :=
  let wrote := ringbufferWrite bs (w.dev.ring (epIn p))
  (wrote.1, { w with
    dev := w.dev.setRing (epIn p) wrote.2
    accepted := Function.update w.accepted p (w.accepted p ++ bs.take wrote.1) })

def armOut (p : PipeId) : World → World := mapDev (Dev.cdcStartBulkOutXfer (epOut p))

def stageIn (p : PipeId) : World → World := mapDev (Dev.cdcStartBulkInXfer (epIn p))

/-- The loop of `usb_dwc2_read`, over the bytes still wanted. -/
def readLoop (p : PipeId) : Poll Nat World where
  more := fun count _ => count ≠ 0
  chunk := fun count w => (count - (w.take p count).1.length, (w.take p count).2)
  stop := fun _ => false
  kick := armOut p

/-- The loop of `usb_dwc2_getbyte`, over whether the byte has been read. -/
def getbyteLoop (p : PipeId) : Poll Bool World where
  more := fun _ _ => true
  chunk := fun _ w => (decide (1 ≤ (w.take p 1).1.length), (w.take p 1).2)
  stop := id
  kick := armOut p

/-- The loop of `usb_dwc2_queue`, over the bytes still to be queued. -/
def queueLoop (p : PipeId) : Poll (List Byte) World where
  more := fun bs _ => !bs.isEmpty
  chunk := fun bs w => (bs.drop (w.give p bs).1, (w.give p bs).2)
  stop := List.isEmpty
  kick := stageIn p

/-- The loop of `usb_dwc2_putbyte`, over whether the byte has been written. -/
def putbyteLoop (p : PipeId) (byte : Byte) : Poll Bool World where
  more := fun _ _ => true
  chunk := fun _ w => (decide (1 ≤ (w.give p [byte]).1), (w.give p [byte]).2)
  stop := id
  kick := stageIn p

def flushLoop (p : PipeId) : Poll Unit World where
  more := fun _ w =>
    ringbufferGetUsed (w.dev.ring (epIn p)) ≠ 0 || w.dev.xferInProgress (epIn p)
  chunk := fun s w => (s, w)
  stop := fun _ => false
  kick := id

end World

/-- A call into the driver, with what happens while it polls. -/
inductive Call
  | handleEvents (ms : List Moment)
  | read (p : PipeId) (count : Nat) (sched : Schedule Moment)
  | getbyte (p : PipeId) (sched : Schedule Moment)
  | queue (p : PipeId) (buf : List Byte) (sched : Schedule Moment)
  | write (p : PipeId) (buf : List Byte) (sched : Schedule Moment)
  | putbyte (p : PipeId) (byte : Byte) (sched : Schedule Moment)
  | flush (p : PipeId) (sched : Schedule Moment)

namespace World

variable (ok : Moment → World → Bool)

def usbQueue (p : PipeId) (buf : List Byte) (sched : Schedule Moment) (w : World) :
    Option (Bool × World) :=
  if w.dev.ready p then (queueLoop p).run (moment ok) sched buf w else some (true, w)

def call : Call → World → Option (Bool × World)
  | .handleEvents ms, w => (moves (moment ok) ms w).map (true, ·)
  | .read p count sched, w =>
    if w.dev.ready p then (readLoop p).run (moment ok) sched count w else some (true, w)
  | .getbyte p sched, w => (getbyteLoop p).run (moment ok) sched false w
  | .queue p buf sched, w => w.usbQueue ok p buf sched
  | .write p buf sched, w =>
    (w.usbQueue ok p buf sched).map fun r => (r.1, if r.1 then r.2.stageIn p else r.2)
  | .putbyte p byte sched, w => (putbyteLoop p byte).run (moment ok) sched false w
  | .flush p sched, w =>
    if w.dev.ready p then (flushLoop p).run (moment ok) sched () w else some (true, w)

/-- Call after call; after one that has not returned there is no next. -/
def calls : List Call → World → Option World
  | [], w => some w
  | c :: cs, w => (w.call ok c).bind fun r => if r.1 then r.2.calls cs else some r.2

/-- What is kept by everything that can happen in a run. -/
structure Invariant (I : World → Prop) : Prop where
  moment : ∀ m w w', I w → w.moment ok m = some w' → I w'
  take : ∀ p n w, I w → I (w.take p n).2
  give : ∀ p bs w, I w → I (w.give p bs).2
  armOut : ∀ p w, I w → I (w.armOut p)
  stageIn : ∀ p w, I w → I (w.stageIn p)

namespace Invariant

variable {ok} {I : World → Prop} (h : Invariant ok I)
include h

theorem usbQueue {p : PipeId} {buf : List Byte} {sched : Schedule Moment} {w : World}
    {r : Bool × World} (hw : I w) (hr : w.usbQueue ok p buf sched = some r) : I r.2 := by
  unfold World.usbQueue at hr
  split at hr
  · exact (queueLoop p).loop_preserves h.moment (fun bs w => h.give p bs w) (h.stageIn p) _ _ _ _ _
      hw hr
  · cases hr
    exact hw

theorem call {c : Call} {w : World} {r : Bool × World} (hw : I w)
    (hr : w.call ok c = some r) : I r.2 := by
  cases c with
  | handleEvents ms =>
    obtain ⟨w', hw', rfl⟩ := Option.map_eq_some_iff.mp hr
    exact moves_preserves h.moment _ _ _ hw hw'
  | read p count sched =>
    simp only [World.call] at hr
    split at hr
    · exact (readLoop p).loop_preserves h.moment (fun n w => h.take p n w) (h.armOut p) _ _ _ _ _
        hw hr
    · cases hr
      exact hw
  | getbyte p sched =>
    exact (getbyteLoop p).loop_preserves h.moment (fun _ w => h.take p 1 w) (h.armOut p) _ _ _ _ _
      hw hr
  | queue p buf sched => exact h.usbQueue hw hr
  | write p buf sched =>
    obtain ⟨r', hr', rfl⟩ := Option.map_eq_some_iff.mp hr
    have hqueued := h.usbQueue hw hr'
    dsimp only
    split
    · exact h.stageIn p _ hqueued
    · exact hqueued
  | putbyte p byte sched =>
    exact (putbyteLoop p byte).loop_preserves h.moment (fun _ w => h.give p [byte] w) (h.stageIn p)
      _ _ _ _ _ hw hr
  | flush p sched =>
    simp only [World.call] at hr
    split at hr
    · exact (flushLoop p).loop_preserves h.moment (fun _ _ hw => hw) (fun _ hw => hw) _ _ _ _ _
        hw hr
    · cases hr
      exact hw

theorem calls : ∀ (cs : List Call) (w w' : World), I w → w.calls ok cs = some w' → I w' := by
  intro cs
  induction cs with
  | nil =>
    intro w w' hw hrun
    cases hrun
    exact hw
  | cons c cs ih =>
    intro w w' hw hrun
    obtain ⟨r, hr, hrest⟩ := Option.bind_eq_some_iff.mp hrun
    have hmid := h.call hw hr
    split at hrest
    · exact ih r.2 w' hmid hrest
    · cases hrest
      exact hmid

end Invariant

end World

end MiniHaywire.Dwc2
