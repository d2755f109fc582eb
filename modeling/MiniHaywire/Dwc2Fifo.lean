import MiniHaywire.Dwc2Requests

/-!
# The transmit FIFOs

Every activation of an IN endpoint programs a register `DTXFSIZ` with an area of the FIFO
memory: its depth in the upper half and its start in the lower one.  The start is
`next_tx_fifo_addr`, a cursor that each activation moves on by the depth of an area and that
only a bus reset takes back, to the end of the receive FIFO and of the FIFO of endpoint 0.

`Fifos` is the allocation by itself, and `Dev.Refifo` says which of its operations a part of
the driver performs.  `Bus` is the driver under resets, enumerations and `SET_CONFIGURATION`
requests of a host.  As long as the areas were allocated above one another and below the
cursor (`Fifos.Packed`), what the next event does to the layout hangs on the cursor and on
whether the pipes have areas already.
-/

namespace MiniHaywire.Dwc2

/-! ### Areas -/

def fifoValue (addr : U32) : U32 := TX_FIFO_SIZE <<< 16 ||| addr

def fifoStart (v : U32) : Nat := v.toNat % 2 ^ 16

def fifoDepth (v : U32) : Nat := v.toNat / 2 ^ 16

/-- The end of the FIFO of endpoint 0, which is behind that for reception. -/
def fifoBase : Nat := (TX_FIFO_SIZE + RX_FIFO_SIZE).toNat

theorem toNat_fifoValue {addr : U32} (h : addr.toNat < 2 ^ 24) :
    (fifoValue addr).toNat = 2 ^ 24 + addr.toNat := by
  have hdepth : (TX_FIFO_SIZE <<< 16 : U32).toNat = 2 ^ 24 := rfl
  have hor := Nat.two_pow_add_eq_or_of_lt h 1
  rw [Nat.mul_one] at hor
  rw [fifoValue, BitVec.toNat_or, hdepth]
  exact hor.symm

theorem fifoStart_fifoValue {addr : U32} (h : addr.toNat < 2 ^ 16) :
    fifoStart (fifoValue addr) = addr.toNat := by
  rw [fifoStart, toNat_fifoValue (by omega)]
  omega

theorem fifoDepth_fifoValue {addr : U32} (h : addr.toNat < 2 ^ 24) :
    fifoDepth (fifoValue addr) = 0x100 + addr.toNat / 2 ^ 16 := by
  rw [fifoDepth, toNat_fifoValue h]
  omega

/-- The areas of the IN endpoints, as they were programmed last. -/
abbrev Areas := Lep → Option U32

/-- The areas after one more action of the driver. -/
def program (f : Areas) : Action → Areas
  | .activate ep _ _ (some v) => Function.update f ep (some v)
  | _ => f

/-- Areas with the depth that was meant for them, above the other two FIFOs and apart. -/
structure Layout (f : Areas) : Prop where
  area : ∀ ep v, f ep = some v → fifoDepth v = TX_FIFO_SIZE.toNat ∧ fifoBase ≤ fifoStart v
  apart : ∀ ep ep' v v', ep ≠ ep' → f ep = some v → f ep' = some v' →
    fifoStart v + fifoDepth v ≤ fifoStart v' ∨ fifoStart v' + fifoDepth v' ≤ fifoStart v

theorem Layout.bounds {f : Areas} (h : Layout f) {ep : Lep} {addr : U32}
    (hep : f ep = some (fifoValue addr)) (hlt : addr.toNat < 2 ^ 24) :
    fifoBase ≤ addr.toNat ∧ addr.toNat < 2 ^ 16 := by
  obtain ⟨hdepth, hstart⟩ := h.area ep _ hep
  have hsize : TX_FIFO_SIZE.toNat = 0x100 := rfl
  rw [fifoDepth_fifoValue hlt, hsize] at hdepth
  have hsmall : addr.toNat < 2 ^ 16 := by omega
  rw [fifoStart_fifoValue hsmall] at hstart
  exact ⟨hstart, hsmall⟩

structure Fifos where
  areas : Areas
  cursor : U32

namespace Fifos

def allocate (ep : Lep) (s : Fifos) : Fifos where
  areas := Function.update s.areas ep (some (fifoValue s.cursor))
  cursor := s.cursor + TX_FIFO_SIZE

def configure (s : Fifos) : Fifos :=
  (((s.allocate (epIntr 0)).allocate (epIn 0)).allocate (epIntr 1)).allocate (epIn 1)

/-- No endpoint is active after a bus reset. -/
def cleared : Fifos where
  areas := fun _ => none
  cursor := TX_FIFO_SIZE + RX_FIFO_SIZE

theorem areas_allocate_self (ep : Lep) (s : Fifos) :
    (s.allocate ep).areas ep = some (fifoValue s.cursor) :=
  Function.update_self ..

theorem areas_allocate_of_ne {ep e : Lep} (h : e ≠ ep) (s : Fifos) :
    (s.allocate ep).areas e = s.areas e :=
  Function.update_of_ne h ..

theorem allocate_cases {ep e : Lep} {s : Fifos} {v : U32}
    (h : (s.allocate ep).areas e = some v) :
    (e = ep ∧ v = fifoValue s.cursor) ∨ (e ≠ ep ∧ s.areas e = some v) := by
  by_cases he : e = ep
  · subst he
    rw [areas_allocate_self] at h
    exact .inl ⟨rfl, (Option.some.inj h).symm⟩
  · rw [areas_allocate_of_ne he] at h
    exact .inr ⟨he, h⟩

theorem toNat_cursor_allocate {s : Fifos} (h : s.cursor.toNat < 2 ^ 24) (ep : Lep) :
    (s.allocate ep).cursor.toNat = s.cursor.toNat + 0x100 := by
  have hsize : TX_FIFO_SIZE.toNat = 0x100 := rfl
  rw [allocate, BitVec.toNat_add, hsize, Nat.mod_eq_of_lt (by omega)]

/-- A layout between the FIFO of endpoint 0 and the cursor. -/
structure Packed (s : Fifos) : Prop where
  layout : Layout s.areas
  below : ∀ ep v, s.areas ep = some v → fifoStart v + 0x100 ≤ s.cursor.toNat
  base : fifoBase ≤ s.cursor.toNat
  bound : s.cursor.toNat < 2 ^ 16 + 0x100

theorem Packed.allocate {s : Fifos} (h : s.Packed) (hroom : s.cursor.toNat < 2 ^ 16) (ep : Lep) :
    (s.allocate ep).Packed := by
  have hstart := fifoStart_fifoValue hroom
  have hdepth : fifoDepth (fifoValue s.cursor) = 0x100 := by
    rw [fifoDepth_fifoValue (by omega)]
    omega
  have hnext := toNat_cursor_allocate (s := s) (by omega) ep
  have hbase := h.base
  refine ⟨⟨?_, ?_⟩, ?_, by omega, by omega⟩
  · intro e v hv
    rcases allocate_cases hv with ⟨-, rfl⟩ | ⟨-, hold⟩
    · rw [hdepth, hstart]
      exact ⟨rfl, hbase⟩
    · exact h.layout.area e v hold
  · intro e e' v v' hne hv hv'
    rcases allocate_cases hv with ⟨rfl, rfl⟩ | ⟨-, hold⟩
    · rcases allocate_cases hv' with ⟨rfl, -⟩ | ⟨-, hold'⟩
      · exact absurd rfl hne
      · rw [hstart, (h.layout.area e' v' hold').1]
        exact .inr (h.below e' v' hold')
    · rcases allocate_cases hv' with ⟨-, rfl⟩ | ⟨-, hold'⟩
      · rw [hstart, (h.layout.area e v hold).1]
        exact .inl (h.below e v hold)
      · exact h.layout.apart e e' v v' hne hold hold'
  · intro e v hv
    rw [hnext]
    rcases allocate_cases hv with ⟨-, rfl⟩ | ⟨-, hold⟩
    · rw [hstart]
    · exact (h.below e v hold).trans (Nat.le_add_right _ _)

theorem toNat_cursor_three {s : Fifos} (h : s.cursor.toNat < 2 ^ 23) (ep ep' ep'' : Lep) :
    (((s.allocate ep).allocate ep').allocate ep'').cursor.toNat = s.cursor.toNat + 0x300 := by
  have h₁ := toNat_cursor_allocate (s := s) (by omega) ep
  have h₂ := toNat_cursor_allocate (s := s.allocate ep) (by omega) ep'
  have h₃ := toNat_cursor_allocate (s := (s.allocate ep).allocate ep') (by omega) ep''
  omega

theorem Packed.configure {s : Fifos} (h : s.Packed) (hroom : s.cursor.toNat + 0x300 < 2 ^ 16) :
    s.configure.Packed := by
  have h₁ := toNat_cursor_allocate (s := s) (by omega) (epIntr 0)
  have h₂ := toNat_cursor_allocate (s := s.allocate (epIntr 0)) (by omega) (epIn 0)
  have h₃ := toNat_cursor_three (s := s) (by omega) (epIntr 0) (epIn 0) (epIntr 1)
  exact (((h.allocate (by omega) _).allocate (by omega) _).allocate (by omega) _).allocate
    (by omega) _

/-- As `usb_dwc2_init` leaves them: the area of endpoint 0 is at the address 0. -/
structure Fresh (s : Fifos) : Prop where
  control : s.areas CTRL_IN = some (fifoValue 0)
  cursor : s.cursor = TX_FIFO_SIZE

end Fifos

/-! ### What the driver does to the FIFOs -/

structure ConfigRequest where
  bytes : List Byte
  length_eq : bytes.length = 8
  standard : (Setup.ofBytes bytes).bmRequestType &&& 0x60 = 0
  device : (Setup.ofBytes bytes).bmRequestType &&& 3 = 0
  request : (Setup.ofBytes bytes).bRequest = 0x09

def ConfigRequest.configuration (r : ConfigRequest) : U16 := (Setup.ofBytes r.bytes).wValue

namespace Dev

/-- What the log from `mark` on and the cursor say about the FIFOs. -/
def fifosSince (mark : Nat) (d : Dev) : Fifos where
  areas := (d.log.drop mark).foldl program (fun _ => none)
  cursor := d.nextTxFifoAddr

/-- From `d` to `d'` the FIFOs change by `f`. -/
def Refifo (f : Fifos → Fifos) (d d' : Dev) : Prop :=
  ∃ new, d'.log = d.log ++ new ∧
    ∀ g, (⟨new.foldl program g, d'.nextTxFifoAddr⟩ : Fifos) = f ⟨g, d.nextTxFifoAddr⟩

namespace Refifo

variable {d d' d'' : Dev}

theorem trans {f f' : Fifos → Fifos} (h : Refifo f d d') (h' : Refifo f' d' d'') :
    Refifo (f' ∘ f) d d'' := by
  obtain ⟨new, hnew, hf⟩ := h
  obtain ⟨new', hnew', hf'⟩ := h'
  refine ⟨new ++ new', by rw [hnew', hnew, List.append_assoc], ?_⟩
  intro g
  rw [List.foldl_append, hf', hf]
  rfl

theorem same (hlog : d'.log = d.log) (hcursor : d'.nextTxFifoAddr = d.nextTxFifoAddr) :
    Refifo id d d' :=
  ⟨[], by rw [hlog, List.append_nil], fun g => by rw [hcursor]; rfl⟩

theorem one {a : Action} (ha : ∀ g, program g a = g) (hlog : d'.log = d.log ++ [a])
    (hcursor : d'.nextTxFifoAddr = d.nextTxFifoAddr) : Refifo id d d' := by
  refine ⟨[a], hlog, ?_⟩
  intro g
  rw [List.foldl_cons, List.foldl_nil, ha, hcursor]
  rfl

theorem activateIn {ep : Lep} (hdir : dirIn ep = true) {type : Nat}
    (htype : ¬(type ≠ EP_TYPE_CONTROL ∧ type ≠ EP_TYPE_BULK ∧ type ≠ EP_TYPE_INTR)) (len : Nat)
    (d : Dev) : Refifo (Fifos.allocate ep) d (d.epActivate ep type len) := by
  unfold Dev.epActivate
  rw [if_neg htype, if_pos hdir]
  exact ⟨[_], rfl, fun _ => rfl⟩

theorem activateOut {ep : Lep} (hdir : dirIn ep = false) (type len : Nat) (d : Dev) :
    Refifo id d (d.epActivate ep type len) := by
  unfold Dev.epActivate
  split
  · exact same rfl rfl
  · rw [if_neg (by rw [hdir]; exact Bool.false_ne_true)]
    exact one (a := .activate ep type len none) (fun _ => rfl) rfl rfl

theorem activatePipe (p : PipeId) (d : Dev) :
    Refifo (Fifos.allocate (epIn p) ∘ Fifos.allocate (epIntr p)) d
      (((d.epActivate (epIntr p) EP_TYPE_INTR 64).epActivate (epIn p) EP_TYPE_BULK 512).epActivate
        (epOut p) EP_TYPE_BULK 512) := by
  have hintr := dirIn_epIntr p
  have hin := dirIn_epIn p
  have hout := dirIn_epOut p
  exact ((activateIn hintr (by decide) 64 d).trans
    (activateIn hin (by decide) 512 _)).trans (activateOut hout EP_TYPE_BULK 512 _)

theorem arrive (r : ConfigRequest) (d : Dev) :
    Refifo id d ((d.dma CTRL_OUT r.bytes).note (.handleSetup (Setup.ofBytes r.bytes))) :=
  one (a := .handleSetup (Setup.ofBytes r.bytes)) (fun _ => rfl) rfl rfl

theorem acknowledge (d : Dev) :
    Refifo id d (d.setState .dataSendStatus).ep0HandleXferNotReady :=
  one (a := .send CTRL_IN 0 1 (d.enabled CTRL_IN)) (fun _ => rfl) rfl rfl

theorem refuse (d : Dev) : Refifo id d d.stallEp0.ep0HandleXferNotReady := by
  have hstall : Refifo id d d.stallEp0 := one (a := .setStall 0 true) (fun _ => rfl) rfl rfl
  have hsetup : Refifo id d.stallEp0 d.stallEp0.ep0HandleXferNotReady :=
    one (a := .recv CTRL_OUT 64 1) (fun _ => rfl) rfl rfl
  exact hstall.trans hsetup

theorem length_le {f : Fifos → Fifos} (h : Refifo f d d') : d.log.length ≤ d'.log.length := by
  obtain ⟨new, hnew, -⟩ := h
  rw [hnew, List.length_append]
  exact Nat.le_add_right _ _

theorem fifosSince {f : Fifos → Fifos} (h : Refifo f d d') {mark : Nat}
    (hmark : mark ≤ d.log.length) : d'.fifosSince mark = f (d.fifosSince mark) := by
  obtain ⟨new, hnew, hf⟩ := h
  rw [Dev.fifosSince, hnew, List.drop_append_of_le_length hmark, List.foldl_append, hf]
  rfl

end Refifo

def setConfiguration (r : ConfigRequest) (d : Dev) : Dev :=
  (d.dma CTRL_OUT r.bytes).ep0HandleSetup.ep0HandleXferNotReady

theorem ep0HandleSetup_config (r : ConfigRequest) (d : Dev) :
    (d.dma CTRL_OUT r.bytes).ep0HandleSetup =
      ((d.dma CTRL_OUT r.bytes).note (.handleSetup (Setup.ofBytes r.bytes))).ep0HandleStandardDevice
        (Setup.ofBytes r.bytes) := by
  have hpacket : Setup.ofBytes ((d.dma CTRL_OUT r.bytes).loadBuffer CTRL_OUT 8) =
      Setup.ofBytes r.bytes := d.setupPacket_dma r.length_eq
  rw [Dev.ep0HandleSetup, hpacket, if_pos r.standard, Dev.ep0HandleStandard, if_pos r.device]

theorem refifo_setConfiguration (r : ConfigRequest) (d : Dev) :
    Refifo (if r.configuration = 1 then Fifos.configure else id) d (d.setConfiguration r) := by
  have haddress : ¬(Setup.ofBytes r.bytes).bRequest = 5 := by
    rw [r.request]
    decide
  rw [Dev.setConfiguration, ep0HandleSetup_config, Dev.ep0HandleStandardDevice, if_neg haddress,
    if_pos r.request, ConfigRequest.configuration]
  have harrive := Refifo.arrive r d
  by_cases hzero : (Setup.ofBytes r.bytes).wValue = 0
  · rw [if_pos hzero, hzero, if_neg (by decide)]
    exact (harrive.trans (Refifo.same rfl rfl)).trans (Refifo.acknowledge _)
  · rw [if_neg hzero]
    by_cases hone : (Setup.ofBytes r.bytes).wValue = 1
    · rw [if_pos hone, if_pos hone]
      exact ((harrive.trans (Refifo.activatePipe 0 _)).trans (Refifo.activatePipe 1 _)).trans
        (Refifo.acknowledge _)
    · rw [if_neg hone, if_neg hone]
      exact harrive.trans (Refifo.refuse _)

theorem refifo_handleEventConnectDone (highSpeed : Bool) (d : Dev) :
    Refifo (if highSpeed then Fifos.allocate CTRL_IN else id) d
      (d.handleEventConnectDone highSpeed) := by
  cases highSpeed with
  | false => exact Refifo.same rfl rfl
  | true =>
    let out := d.epActivate CTRL_OUT EP_TYPE_CONTROL 64
    have hout : Refifo id d out := Refifo.activateOut rfl EP_TYPE_CONTROL 64 d
    have hin : Refifo (Fifos.allocate CTRL_IN) out (out.epActivate CTRL_IN EP_TYPE_CONTROL 64) :=
      Refifo.activateIn rfl (by decide) 64 _
    have hsetup : Refifo id (out.epActivate CTRL_IN EP_TYPE_CONTROL 64)
        (d.handleEventConnectDone true) :=
      Refifo.one (a := .recv CTRL_OUT 64 1) (fun _ => rfl) rfl rfl
    exact (hout.trans hin).trans hsetup

end Dev

/-! ### The bus -/

inductive BusEvent
  | reset
  | enumDone (highSpeed : Bool)
  | setConfiguration (r : ConfigRequest)

/-- The device, with the length of its log after the last reset. -/
structure Bus where
  dev : Dev
  mark : Nat
  mark_le : mark ≤ dev.log.length

namespace Bus

/-- The FIFOs of the endpoints that were activated since the last reset. -/
def fifos (b : Bus) : Fifos := b.dev.fifosSince b.mark

def init (desc : Descriptors) (ring : Lep → Ringbuffer) : Bus where
  dev := Dev.init desc ring
  mark := 0
  mark_le := Nat.zero_le _

def step (b : Bus) : BusEvent → Bus
  | .reset => ⟨b.dev.handleUsbrst, _, Nat.le_refl b.dev.handleUsbrst.log.length⟩
  | .enumDone highSpeed =>
    ⟨b.dev.handleEventConnectDone highSpeed, b.mark,
      b.mark_le.trans (b.dev.refifo_handleEventConnectDone highSpeed).length_le⟩
  | .setConfiguration r =>
    ⟨b.dev.setConfiguration r, b.mark,
      b.mark_le.trans (b.dev.refifo_setConfiguration r).length_le⟩

/-- `P` at every event of a run, and `Q` at its end. -/
def Always (P : Bus → BusEvent → Prop) (Q : Bus → Prop) : Bus → List BusEvent → Prop
  | b, [] => Q b
  | b, e :: es => P b e ∧ Always P Q (b.step e) es

/-- Fresh up to the first reset, packed from there on. -/
def Sound (b : Bus) : Prop := b.fifos.Fresh ∨ b.fifos.Packed

end Bus

end MiniHaywire.Dwc2
