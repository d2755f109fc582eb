import MiniHaywire.Dwc2Dma

/-!
# The control endpoint

The control endpoint between the host and the driver.  A transfer is a SETUP packet, a data
stage in one direction or none, and a status stage in the other direction; what stages it has
is in the packet.  The driver answers by request and does not look at `wLength` or the
direction bit for it.

`Ctrl` has the driver and the controller, with a host that may send anything the controller
takes.
-/

namespace MiniHaywire.Dwc2

/-! ### How a request is answered -/

inductive Reply
  | stall
  | data
  | noData
deriving DecidableEq

/-- A descriptor type and index that `GET_DESCRIPTOR` knows. -/
def Setup.knownDescriptor (s : Setup) : Bool :=
  match s.wValue.toNat / 256 with
  | 1 | 2 | 6 => true
  | 3 => s.wValue.toNat % 256 ≤ 3
  | _ => false

/-- Whether a request to the device is stalled, sent data for, or only acknowledged. -/
def Setup.deviceReply (s : Setup) : Reply :=
  if s.bRequest = 0x05 then .noData
  else if s.bRequest = 0x09 then
    if s.wValue = 0 then .noData else if s.wValue = 1 then .noData else .stall
  else if s.bRequest = 0x06 then if s.knownDescriptor then .data else .stall
  else if s.bRequest = 0x00 then .data
  else .stall

def Setup.endpointReply (s : Setup) : Reply :=
  if s.bRequest = 0x00 then .data
  else if s.bRequest = 0x01 then if s.wValue = 0 then .noData else .stall
  else .stall

def Setup.classReply (s : Setup) : Reply :=
  if s.wIndex.toNat / 2 < 2 then
    if s.bRequest = 0x21 then .data else if s.bRequest = 0x22 then .noData else .stall
  else .stall

def Setup.standardReply (s : Setup) : Reply :=
  if s.bmRequestType &&& 3 = 0 then s.deviceReply
  else if s.bmRequestType &&& 3 = 1 then if s.bRequest = 0x00 then .data else .stall
  else if s.bmRequestType &&& 3 = 2 then s.endpointReply
  else .stall

def Setup.reply (s : Setup) : Reply :=
  if s.bmRequestType &&& 0x60 = 0 then s.standardReply
  else if s.bmRequestType &&& 0x60 = 0x20 then s.classReply
  else .stall

/-- The branches of the handlers that report an error. -/
def Action.fault : Action → Bool
  | .invalidState _ | .badStatus _ => true
  | _ => false

/-- What is logged for an error, or for a request that is stalled. -/
def Action.alarm (a : Action) : Bool := a.fault || a = .setStall 0 true

namespace Dev

/-- Work that leaves the control endpoint as it is. -/
structure Aside (d d' : Dev) : Prop where
  ep0State : d'.ep0State = d.ep0State
  enabled : ∀ ep, ep = CTRL_OUT ∨ ep = CTRL_IN → d'.enabled ep = d.enabled ep
  log : ∃ new, d'.log = d.log ++ new ∧ ∀ a ∈ new, a.alarm = false

namespace Aside

variable {d d' d'' : Dev}

theorem refl (d : Dev) : Aside d d := ⟨rfl, fun _ _ => rfl, [], by simp⟩

theorem trans (h : Aside d d') (h' : Aside d' d'') : Aside d d'' where
  ep0State := h'.ep0State.trans h.ep0State
  enabled ep hep := (h'.enabled ep hep).trans (h.enabled ep hep)
  log := added_trans h.log h'.log

theorem note (a : Action) (ha : a.alarm = false) : Aside d (d.note a) :=
  ⟨rfl, fun _ _ => rfl, [a], rfl, by simp [ha]⟩

theorem setReady (ready : PipeId → Bool) : Aside d { d with ready } :=
  ⟨rfl, fun _ _ => rfl, [], by simp⟩

theorem epActivate (ep : Lep) (type len : Nat) : Aside d (d.epActivate ep type len) := by
  unfold Dev.epActivate
  split
  · exact refl d
  split
  · exact ⟨rfl, fun _ _ => rfl, _, rfl, by simp [Action.alarm, Action.fault]⟩
  · exact note _ rfl

theorem cdcStartBulkOutXfer (p : PipeId) : Aside d (d.cdcStartBulkOutXfer (epOut p)) := by
  rcases cdcStartBulkOutXfer_cases p d with ⟨-, hsame⟩ | ⟨-, -, harmed⟩
  · rw [hsame]
    exact refl d
  · rw [harmed, epHwRecv_of_out (dirIn_epOut p)]
    refine ⟨rfl, ?_, [_, _], List.append_assoc _ [_] [_], by simp [Action.alarm, Action.fault]⟩
    rintro ep (rfl | rfl)
    · exact Function.update_of_ne (ctrlOut_ne_epOut p) _ _
    · exact Function.update_of_ne (ctrlIn_ne_epOut p) _ _

end Aside

def setupPacket (d : Dev) : Setup := Setup.ofBytes (d.loadBuffer CTRL_OUT 8)

/-- What `usb_dwc2_ep0_handle_setup` comes to, by the reply. -/
inductive Handled (d : Dev) : Reply → Dev → Prop
  | stall : Handled d .stall d.stallEp0
  | data (bs : List Byte) (len : Nat) : Handled d .data (d.answer bs len)
  | status (d' : Dev) (h : Aside d d') : Handled d .noData (d'.setState .dataSendStatus)
  | statusStarted (d' : Dev) (h : Aside d d') :
      Handled d .noData ((d'.startStatusPhase CTRL_IN).setState .dataSendStatusDone)

theorem findDescriptor_isSome (d : Dev) (s : Setup) :
    (d.findDescriptor s).isSome = s.knownDescriptor := by
  unfold findDescriptor Setup.knownDescriptor cdcGetStringDescriptor
  split <;> simp_all
  split <;> simp_all
  omega

namespace Handled

theorem standardDevice (s : Setup) (d : Dev) :
    Handled d s.deviceReply (d.ep0HandleStandardDevice s) := by
  have hknown := d.findDescriptor_isSome s
  unfold Dev.ep0HandleStandardDevice Setup.deviceReply
  split
  · exact .status _ (Aside.note _ rfl)
  split
  · split
    · exact .status _ (Aside.setReady _)
    split
    · refine .status _ ?_
      simp only [List.finRange_succ, List.finRange_zero, List.map_nil, List.map_cons,
        List.foldl_cons, List.foldl_nil]
      exact (((((Aside.epActivate _ _ _).trans (Aside.epActivate _ _ _)).trans
        (Aside.epActivate _ _ _)).trans (Aside.epActivate _ _ _)).trans
        (Aside.epActivate _ _ _)).trans (Aside.epActivate _ _ _)
    · exact .stall
  split
  · rw [← hknown]
    cases d.findDescriptor s with
    | some bs => exact .data bs _
    | none => exact .stall
  split
  · exact .data _ _
  · exact .stall

theorem standardEndpoint (s : Setup) (d : Dev) :
    Handled d s.endpointReply (d.ep0HandleStandardEndpoint s) := by
  unfold Dev.ep0HandleStandardEndpoint Setup.endpointReply
  split
  · exact .data _ _
  split
  · split
    · exact .statusStarted _ (Aside.note _ (by simp [Action.alarm, Action.fault]))
    · exact .stall
  · exact .stall

theorem cdc (s : Setup) (d : Dev) : Handled d s.classReply (d.ep0HandleClass s) := by
  unfold Dev.ep0HandleClass Setup.classReply
  split
  · dsimp only
    split
    · exact .data _ _
    split
    · refine .statusStarted _ ?_
      split
      · exact (Aside.setReady _).trans (Aside.cdcStartBulkOutXfer _)
      · exact Aside.setReady _
    · exact .stall
  · exact .stall

theorem standard (s : Setup) (d : Dev) : Handled d s.standardReply (d.ep0HandleStandard s) := by
  unfold Dev.ep0HandleStandard Setup.standardReply Dev.ep0HandleStandardInterface
  split
  · exact standardDevice s d
  split
  · split
    · exact .data _ _
    · exact .stall
  split
  · exact standardEndpoint s d
  · exact .stall

theorem ep0HandleSetup (d : Dev) :
    Handled (d.note (.handleSetup d.setupPacket)) d.setupPacket.reply d.ep0HandleSetup := by
  unfold Dev.ep0HandleSetup Setup.reply Dev.setupPacket
  generalize Setup.ofBytes (d.loadBuffer CTRL_OUT 8) = s
  dsimp only
  split
  · exact standard s _
  split
  · exact cdc s _
  · exact .stall

end Handled

/-! ### Between two interrupts -/

/-- The control endpoint in state `s`, with the enable bits of its two directions. -/
structure At (d : Dev) (s : Ep0State) (out inn : Bool) : Prop where
  state : d.ep0State = s
  out : d.enabled CTRL_OUT = out
  inn : d.enabled CTRL_IN = inn

namespace At

variable {d : Dev} {s : Ep0State} {out inn : Bool}

theorem setState (h : d.At s out inn) (s' : Ep0State) : (d.setState s').At s' out inn :=
  ⟨rfl, h.out, h.inn⟩

theorem note (h : d.At s out inn) (a : Action) : (d.note a).At s out inn := ⟨h.state, h.out, h.inn⟩

theorem completeOut (h : d.At s out inn) : (d.complete CTRL_OUT).At s false inn :=
  ⟨h.state, rfl, h.inn⟩

theorem completeIn (h : d.At s out inn) : (d.complete CTRL_IN).At s out false :=
  ⟨h.state, h.out, rfl⟩

theorem startSetup (h : d.At s out inn) : d.startSetupPhase.At s true inn := ⟨h.state, rfl, h.inn⟩

theorem startStatusOut (h : d.At s out inn) : (d.startStatusPhase CTRL_OUT).At s true inn :=
  ⟨h.state, rfl, h.inn⟩

theorem startStatusIn (h : d.At s out inn) : (d.startStatusPhase CTRL_IN).At s out true :=
  ⟨h.state, h.out, rfl⟩

end At

/-- The log of `d'` is that of `d` and then `new`, which has no error in it, and a stall if
    `stalled`. -/
structure LogsFor (d d' : Dev) (stalled : Bool) (new : List Action) : Prop where
  log : d'.log = d.log ++ new
  fault : ∀ a ∈ new, a.fault = false
  stall : .setStall 0 true ∈ new ↔ stalled = true

/-- Where a setup packet leaves the control endpoint. -/
def AfterSetup (d : Dev) : Reply → Prop
  | .stall => d.At .setupHandle true false
  | .data => d.At .dataSendDone false true
  | .noData => d.At .dataSendStatusDone false true

theorem alarm_eq_false {a : Action} (h : a.alarm = false) :
    a.fault = false ∧ a ≠ .setStall 0 true := by
  simpa [Action.alarm] using h

theorem LogsFor.of_quiet {d d' : Dev} {new : List Action} (hlog : d'.log = d.log ++ new)
    (hquiet : ∀ a ∈ new, a.alarm = false) : LogsFor d d' false new where
  log := hlog
  fault := fun a ha => (alarm_eq_false (hquiet a ha)).1
  stall := by
    constructor
    · intro hmem
      exact absurd rfl (alarm_eq_false (hquiet _ hmem)).2
    · intro h
      cases h

theorem log_ep0StartDataSendPhase (d : Dev) :
    ∃ new, d.ep0StartDataSendPhase.log = d.log ++ new ∧ ∀ a ∈ new, a.alarm = false := by
  simp only [ep0StartDataSendPhase, epHwSend_of_in (rfl : dirIn CTRL_IN = true), memset, memcpy,
    List.append_assoc]
  refine ⟨_, rfl, ?_⟩
  simp [Action.alarm, Action.fault]

theorem statusLogged {d d' e : Dev} {s : Setup} (haside : Aside (d.note (.handleSetup s)) d')
    (hlog : e.log = d'.log ++ [.send CTRL_IN 0 1 (d'.enabled CTRL_IN)]) :
    ∃ new, .handleSetup s ∈ new ∧ LogsFor d e false new := by
  obtain ⟨new, hnew, hquiet⟩ := haside.log
  refine ⟨.handleSetup s :: new ++ [.send CTRL_IN 0 1 (d'.enabled CTRL_IN)], by simp, ?_⟩
  apply LogsFor.of_quiet
  · rw [hlog, hnew]
    simp [note]
  · intro a ha
    simp only [List.cons_append, List.mem_cons, List.mem_append, List.not_mem_nil, or_false] at ha
    rcases ha with rfl | ha | rfl
    · rfl
    · exact hquiet a ha
    · rfl

theorem setupHandled {d : Dev} (hat : d.At .setupHandle false false) :
    d.ep0HandleSetup.ep0HandleXferNotReady.AfterSetup d.setupPacket.reply ∧
      ∃ new, .handleSetup d.setupPacket ∈ new ∧
        LogsFor d d.ep0HandleSetup.ep0HandleXferNotReady (d.setupPacket.reply = .stall) new := by
  have hhandled := Handled.ep0HandleSetup d
  generalize d.setupPacket.reply = reply at hhandled ⊢
  generalize d.ep0HandleSetup = d' at hhandled ⊢
  cases hhandled with
  | stall =>
    refine ⟨⟨rfl, rfl, hat.inn⟩,
      [.handleSetup d.setupPacket, .setStall 0 true, .recv CTRL_OUT 64 1], by simp, ?_⟩
    refine ⟨?_, ?_, ?_⟩
    · simp [ep0HandleXferNotReady, stallEp0, note, setState, startSetupPhase, epHwRecv, dirIn,
        phyEndpoints, CTRL_OUT]
    · simp [Action.fault]
    · simp
  | data bs len =>
    obtain ⟨new, hnew, hquiet⟩ :=
      log_ep0StartDataSendPhase ((d.note (.handleSetup d.setupPacket)).answer bs len)
    refine ⟨⟨rfl, hat.out, rfl⟩, .handleSetup d.setupPacket :: new, by simp, ?_⟩
    apply LogsFor.of_quiet
    · have hlog : ((d.note (.handleSetup d.setupPacket)).answer bs len).log =
          d.log ++ [.handleSetup d.setupPacket] := rfl
      rw [hlog, List.append_assoc] at hnew
      exact hnew
    · intro a ha
      rcases List.mem_cons.mp ha with rfl | ha
      · rfl
      · exact hquiet a ha
  | status d' haside =>
    have hout := haside.enabled CTRL_OUT (.inl rfl)
    exact ⟨⟨rfl, hout.trans hat.out, rfl⟩, statusLogged haside rfl⟩
  | statusStarted d' haside =>
    have hout := haside.enabled CTRL_OUT (.inl rfl)
    exact ⟨⟨rfl, hout.trans hat.out, rfl⟩, statusLogged haside rfl⟩

/-! ### Serving an interrupt -/

section Serve

variable {d : Dev} {doepint diepint : U32}

theorem serveEp0Out_setup (hdone : doepint &&& SETUP ≠ 0)
    (hstate : d.ep0State = .setupHandle ∨ d.ep0State = .setupPending) :
    d.serveEp0Out doepint =
      some (d.setState .setupHandle).ep0HandleSetup.ep0HandleXferNotReady := by
  rcases hstate with hstate | hstate
  · simp only [serveEp0Out, hdone, hstate, ne_eq, not_false_iff, or_true, and_self, if_true]
    rfl
  · simp only [serveEp0Out, hdone, hstate, ne_eq, not_false_iff, if_true, reduceCtorEq, and_false,
      if_false]
    rfl

theorem serveEp0Out_setup_eq_none (hdone : doepint &&& SETUP ≠ 0)
    (hhandle : d.ep0State ≠ .setupHandle)
    (hpending : d.ep0State ≠ .setupPending) : d.serveEp0Out doepint = none := by
  simp only [serveEp0Out, hdone, hhandle, hpending, ne_eq, not_false_iff, if_true, and_false,
    if_false]

theorem serveEp0Out_received (hdone : doepint &&& SETUP = 0) (hrcvd : doepint &&& STUP_PKT_RCVD ≠ 0)
    (hstate : d.ep0State = .setupHandle ∨ d.ep0State = .setupPending) :
    d.serveEp0Out doepint = some (d.setState .setupPending) := by
  rcases hstate with hstate | hstate
  · by_cases hcompl : doepint &&& XFER_COMPL = 0 <;>
      simp only [serveEp0Out, hdone, hrcvd, hstate, hcompl, setState, ne_eq, not_true,
        not_false_iff, or_false, and_self, reduceCtorEq, if_true, if_false]
  · have hsame : d.setState .setupPending = d := by rw [← hstate]; rfl
    by_cases hcompl : doepint &&& XFER_COMPL = 0 <;>
      simp only [serveEp0Out, hdone, hrcvd, hstate, hcompl, hsame, ne_eq, not_true, not_false_iff,
        or_false, and_false, reduceCtorEq, if_false, if_true]

/-- Together with `XFER_COMPL`, a received setup packet passes for the status packet. -/
theorem serveEp0Out_received_status (hdone : doepint &&& SETUP = 0)
    (hrcvd : doepint &&& STUP_PKT_RCVD ≠ 0) (hstate : d.ep0State = .dataRecvStatusDone) :
    d.serveEp0Out doepint =
      some (if doepint &&& XFER_COMPL ≠ 0 then d.startSetupPhase.setState .setupHandle else d) := by
  have hxfer : d.ep0HandleXferDone = d.startSetupPhase.setState .setupHandle := by
    simp [ep0HandleXferDone, hstate]
  by_cases hcompl : doepint &&& XFER_COMPL = 0 <;>
    simp only [serveEp0Out, hdone, hrcvd, hstate, hcompl, hxfer, ne_eq, not_true, not_false_iff,
      and_false, reduceCtorEq, if_true, if_false]

theorem serveEp0Out_status (hdone : doepint &&& SETUP = 0) (hrcvd : doepint &&& STUP_PKT_RCVD = 0)
    (hcompl : doepint &&& XFER_COMPL ≠ 0) (hstate : d.ep0State = .dataRecvStatusDone) :
    d.serveEp0Out doepint = some (d.startSetupPhase.setState .setupHandle) := by
  have hxfer : d.ep0HandleXferDone = d.startSetupPhase.setState .setupHandle := by
    simp [ep0HandleXferDone, hstate]
  simp only [serveEp0Out, hdone, hrcvd, hcompl, hstate, hxfer, ne_eq, not_true, not_false_iff,
    or_self, and_false, reduceCtorEq, if_true, if_false]

theorem serveEp0Out_badStatus (hdone : doepint &&& SETUP = 0)
    (hrcvd : doepint &&& STUP_PKT_RCVD = 0)
    (hcompl : doepint &&& XFER_COMPL ≠ 0) (hstate : d.ep0State = .setupHandle) :
    d.serveEp0Out doepint =
      some ((((d.note (.badStatus .setupHandle)).setState .dataSendStatus).startStatusPhase
        CTRL_IN).setState .dataSendStatusDone) := by
  simp only [serveEp0Out, hdone, hrcvd, hcompl, hstate, ne_eq, not_true, not_false_iff, or_self,
    false_and, reduceCtorEq, if_true, if_false]
  rfl

theorem serveEp0Out_other (hdone : doepint &&& SETUP = 0) (hrcvd : doepint &&& STUP_PKT_RCVD = 0)
    (hcompl : doepint &&& XFER_COMPL = 0) : d.serveEp0Out doepint = some d := by
  simp only [serveEp0Out, hdone, hrcvd, hcompl, ne_eq, not_true, or_self, false_and, if_false]

theorem serveEp0In_data (hcompl : diepint &&& XFER_COMPL ≠ 0)
    (hstate : d.ep0State = .dataSendDone) : d.serveEp0In diepint =
      ((d.setState .dataRecvStatus).startStatusPhase CTRL_OUT).setState .dataRecvStatusDone := by
  have hxfer : d.ep0HandleXferDone = d.setState .dataRecvStatus := by
    simp [ep0HandleXferDone, hstate]
  rw [serveEp0In, if_pos hcompl, hxfer]
  rfl

theorem serveEp0In_status (hcompl : diepint &&& XFER_COMPL ≠ 0)
    (hstate : d.ep0State = .dataSendStatusDone) :
    d.serveEp0In diepint = d.startSetupPhase.setState .setupHandle := by
  have hxfer : d.ep0HandleXferDone = d.startSetupPhase.setState .setupHandle := by
    simp [ep0HandleXferDone, hstate]
  rw [serveEp0In, if_pos hcompl, hxfer]
  rfl

theorem serveEp0In_other (hcompl : diepint &&& XFER_COMPL = 0) : d.serveEp0In diepint = d :=
  if_neg (not_not.mpr hcompl)

end Serve

theorem setupPacket_dma (d : Dev) {bytes : List Byte} (hlen : bytes.length = 8) :
    (d.dma CTRL_OUT bytes).setupPacket = Setup.ofBytes bytes := by
  have hload := loadBuffer_dma CTRL_OUT bytes d
  rw [hlen] at hload
  exact congrArg Setup.ofBytes hload

end Dev

/-! ### Any host -/

/-- The driver and the controller, as far as the control endpoint goes. -/
structure Ctrl where
  dev : Dev
  /-- The packet of a setup phase that is not reported to be over. -/
  arrived : Option Setup
  /-- The assertion of `usb_dwc2_handle_interrupts_ep` has failed. -/
  crashed : Bool

inductive CtrlEvent
  | setup (bytes : List Byte)
  | ep0Out (doepint : U32)
  | ep0In (diepint : U32)

namespace Ctrl

def enumerated (d : Dev) : Ctrl where
  dev := d.handleUsbrst.handleEventConnectDone true
  arrived := none
  crashed := false

def serveOut (doepint : U32) (arrived : Option Setup) (d : Dev) : Ctrl :=
  match d.serveEp0Out doepint with
  | some dev => { dev, arrived, crashed := false }
  | none => { dev := d, arrived, crashed := true }

/-- One event, `none` where the controller has none such.  A setup packet is taken while EP0-OUT
    is enabled, and its reception and the end of its phase are reported after it; a completion
    is reported for an enabled direction, on EP0-OUT for a packet other than a setup packet. -/
def step (e : CtrlEvent) (c : Ctrl) : Option Ctrl :=
  if c.crashed then none
  else
    match e with
    | .setup bytes =>
      if bytes.length = 8 ∧ c.dev.enabled CTRL_OUT then
        some { c with dev := c.dev.dma CTRL_OUT bytes, arrived := some (Setup.ofBytes bytes) }
      else none
    | .ep0Out doepint =>
      if doepint &&& Dev.SETUP ≠ 0 then
        if c.arrived.isSome then some (serveOut doepint none (c.dev.complete CTRL_OUT)) else none
      else if doepint &&& Dev.STUP_PKT_RCVD ≠ 0 then
        if c.arrived.isSome then some (serveOut doepint c.arrived c.dev) else none
      else if doepint &&& Dev.XFER_COMPL ≠ 0 then
        if c.dev.enabled CTRL_OUT ∧ c.arrived.isNone then
          some (serveOut doepint none (c.dev.complete CTRL_OUT))
        else none
      else some (serveOut doepint c.arrived c.dev)
    | .ep0In diepint =>
      if diepint &&& Dev.XFER_COMPL ≠ 0 then
        if c.dev.enabled CTRL_IN then
          some { c with dev := (c.dev.complete CTRL_IN).serveEp0In diepint }
        else none
      else some { c with dev := c.dev.serveEp0In diepint }

theorem serveOut_eq {doepint : U32} {arrived : Option Setup} {d d' : Dev}
    (h : d.serveEp0Out doepint = some d') :
    serveOut doepint arrived d = { dev := d', arrived, crashed := false } := by
  unfold serveOut
  rw [h]

end Ctrl

/-- The states between interrupts, each with the direction that is armed in it. -/
inductive Armed (d : Dev) : Prop
  | listening (h : d.At .setupHandle true false)
  | pending (h : d.At .setupPending true false)
  | statusOut (h : d.At .dataRecvStatusDone true false)
  | dataIn (h : d.At .dataSendDone false true)
  | statusIn (h : d.At .dataSendStatusDone false true)

theorem Dev.AfterSetup.armed {d : Dev} {r : Reply} (h : d.AfterSetup r) : Armed d := by
  cases r with
  | stall => exact .listening h
  | data => exact .dataIn h
  | noData => exact .statusIn h

/-- What holds after every event that did not crash the driver. -/
structure CtrlLaw (c : Ctrl) : Prop where
  running : c.crashed = false
  armed : Armed c.dev
  waiting : ∀ s, c.arrived = some s → c.dev.enabled CTRL_OUT = true ∧ c.dev.setupPacket = s
  pending : c.dev.ep0State = .setupPending → c.arrived.isSome

/-- The setup phase of the packet that arrived is over. -/
def CtrlEvent.setupDone : CtrlEvent → Bool
  | .ep0Out doepint => doepint &&& Dev.SETUP ≠ 0
  | _ => false

theorem Armed.of_out {d : Dev} (h : Armed d) (hout : d.enabled CTRL_OUT = true) :
    d.At .setupHandle true false ∨ d.At .setupPending true false ∨
      d.At .dataRecvStatusDone true false := by
  cases h with
  | listening h => exact .inl h
  | pending h => exact .inr (.inl h)
  | statusOut h => exact .inr (.inr h)
  | dataIn h => exact absurd (h.out.symm.trans hout) (by simp)
  | statusIn h => exact absurd (h.out.symm.trans hout) (by simp)

theorem Armed.of_in {d : Dev} (h : Armed d) (hin : d.enabled CTRL_IN = true) :
    d.At .dataSendDone false true ∨ d.At .dataSendStatusDone false true := by
  cases h with
  | listening h => exact absurd (h.inn.symm.trans hin) (by simp)
  | pending h => exact absurd (h.inn.symm.trans hin) (by simp)
  | statusOut h => exact absurd (h.inn.symm.trans hin) (by simp)
  | dataIn h => exact .inl h
  | statusIn h => exact .inr h

namespace CtrlLaw

variable {c c' : Ctrl}

theorem of_armed {d : Dev} (h : Armed d) (hstate : d.ep0State ≠ .setupPending) :
    CtrlLaw { dev := d, arrived := none, crashed := false } where
  running := rfl
  armed := h
  waiting := fun _ hs => nomatch hs
  pending := fun hpending => absurd hpending hstate

theorem setupDone (h : CtrlLaw c) {doepint : U32} (hdone : doepint &&& Dev.SETUP ≠ 0) {s : Setup}
    (hs : c.arrived = some s)
    (hstate : c.dev.At .setupHandle true false ∨ c.dev.At .setupPending true false) :
    ∃ d', Ctrl.serveOut doepint none (c.dev.complete CTRL_OUT) =
        { dev := d', arrived := none, crashed := false } ∧
      d'.AfterSetup s.reply ∧
      ∃ new, .handleSetup s ∈ new ∧ Dev.LogsFor c.dev d' (s.reply = .stall) new := by
  have hat : ((c.dev.complete CTRL_OUT).setState .setupHandle).At .setupHandle false false := by
    rcases hstate with hat | hat
    · exact hat.completeOut.setState _
    · exact hat.completeOut.setState _
  have hserve := Dev.serveEp0Out_setup (d := c.dev.complete CTRL_OUT) hdone (by
    rcases hstate with hat | hat
    · exact .inl hat.state
    · exact .inr hat.state)
  have hpacket : ((c.dev.complete CTRL_OUT).setState .setupHandle).setupPacket = s :=
    (h.waiting s hs).2
  obtain ⟨hafter, new, hmem, hlogs⟩ := Dev.setupHandled hat
  rw [hpacket] at hafter hmem hlogs
  exact ⟨_, Ctrl.serveOut_eq hserve, hafter, new, hmem, hlogs.log, hlogs.fault, hlogs.stall⟩

theorem received (h : CtrlLaw c) {doepint : U32} (hdone : doepint &&& Dev.SETUP = 0)
    (hrcvd : doepint &&& Dev.STUP_PKT_RCVD ≠ 0) {s : Setup} (hs : c.arrived = some s) :
    CtrlLaw (Ctrl.serveOut doepint c.arrived c.dev) := by
  obtain ⟨hout, hpacket⟩ := h.waiting s hs
  have hlistening : c.dev.At .setupHandle true false ∨ c.dev.At .setupPending true false →
      CtrlLaw (Ctrl.serveOut doepint c.arrived c.dev) := by
    intro hat
    rw [Ctrl.serveOut_eq (Dev.serveEp0Out_received hdone hrcvd (by
      rcases hat with hat | hat
      · exact .inl hat.state
      · exact .inr hat.state))]
    have hpending : (c.dev.setState .setupPending).At .setupPending true false := by
      rcases hat with hat | hat
      · exact hat.setState _
      · exact hat.setState _
    exact ⟨rfl, .pending hpending, h.waiting, fun _ => by simp [hs]⟩
  rcases h.armed.of_out hout with hat | hat | hat
  · exact hlistening (.inl hat)
  · exact hlistening (.inr hat)
  · rw [Ctrl.serveOut_eq (Dev.serveEp0Out_received_status hdone hrcvd hat.state)]
    split
    · -- taken for the status packet: the endpoint is enabled anew, its buffer keeps the packet
      have hlisten := hat.startSetup.setState .setupHandle
      refine ⟨rfl, .listening hlisten, ?_, fun hp => nomatch hp⟩
      intro s' hs'
      exact ⟨hlisten.out, (h.waiting s' hs').2⟩
    · refine ⟨rfl, .statusOut hat, h.waiting, ?_⟩
      intro hp
      rw [hat.state] at hp
      cases hp

theorem completedOut (h : CtrlLaw c) {doepint : U32} (hdone : doepint &&& Dev.SETUP = 0)
    (hrcvd : doepint &&& Dev.STUP_PKT_RCVD = 0) (hcompl : doepint &&& Dev.XFER_COMPL ≠ 0)
    (hout : c.dev.enabled CTRL_OUT = true) (hnone : c.arrived.isNone = true) :
    CtrlLaw (Ctrl.serveOut doepint none (c.dev.complete CTRL_OUT)) := by
  rcases h.armed.of_out hout with hat | hat | hat
  · have hdone' := hat.completeOut
    rw [Ctrl.serveOut_eq (Dev.serveEp0Out_badStatus hdone hrcvd hcompl hdone'.state)]
    exact of_armed (.statusIn (((hdone'.note _).setState _).startStatusIn.setState _))
      (fun hp => nomatch hp)
  · have hsome := h.pending hat.state
    rw [Option.isNone_iff_eq_none.mp hnone] at hsome
    cases hsome
  · have hdone' := hat.completeOut
    rw [Ctrl.serveOut_eq (Dev.serveEp0Out_status hdone hrcvd hcompl hdone'.state)]
    exact of_armed (.listening (hdone'.startSetup.setState _)) (fun hp => nomatch hp)

theorem completedIn (h : CtrlLaw c) {diepint : U32} (hcompl : diepint &&& Dev.XFER_COMPL ≠ 0)
    (hin : c.dev.enabled CTRL_IN = true) :
    CtrlLaw { c with dev := (c.dev.complete CTRL_IN).serveEp0In diepint } := by
  have hnone : c.dev.enabled CTRL_OUT = false → c.arrived = none := by
    intro hout
    cases hs : c.arrived with
    | none => rfl
    | some s => exact absurd (hout.symm.trans (h.waiting s hs).1) (by simp)
  rcases h.armed.of_in hin with hat | hat
  · have hdone := hat.completeIn
    rw [Dev.serveEp0In_data hcompl hdone.state, hnone hat.out, h.running]
    exact of_armed (.statusOut ((hdone.setState _).startStatusOut.setState _))
      (fun hp => nomatch hp)
  · have hdone := hat.completeIn
    rw [Dev.serveEp0In_status hcompl hdone.state, hnone hat.out, h.running]
    exact of_armed (.listening (hdone.startSetup.setState _)) (fun hp => nomatch hp)

theorem ep0Out (h : CtrlLaw c) {doepint : U32} (hstep : c.step (.ep0Out doepint) = some c') :
    (doepint &&& Dev.SETUP ≠ 0 ∧ c.dev.ep0State = .dataRecvStatusDone ∧ c'.crashed = true) ∨
    (¬(doepint &&& Dev.SETUP ≠ 0 ∧ c.dev.ep0State = .dataRecvStatusDone) ∧ CtrlLaw c' ∧
      (doepint &&& Dev.SETUP ≠ 0 → ∀ s, c.arrived = some s →
        .handleSetup s ∈ c'.dev.log.drop c.dev.log.length)) := by
  simp only [Ctrl.step, h.running, Bool.false_eq_true, if_false] at hstep
  split at hstep
  · rename_i hdone
    split at hstep
    · rename_i harrived
      cases hstep
      obtain ⟨s, hs⟩ := Option.isSome_iff_exists.mp harrived
      have hlistening : c.dev.At .setupHandle true false ∨ c.dev.At .setupPending true false →
          CtrlLaw (Ctrl.serveOut doepint none (c.dev.complete CTRL_OUT)) ∧
            (doepint &&& Dev.SETUP ≠ 0 → ∀ s, c.arrived = some s →
              .handleSetup s ∈ (Ctrl.serveOut doepint none
                (c.dev.complete CTRL_OUT)).dev.log.drop c.dev.log.length) := by
        intro hat
        obtain ⟨d', hd', hafter, new, hmem, hlogs⟩ := h.setupDone hdone hs hat
        rw [hd']
        refine ⟨of_armed hafter.armed ?_, ?_⟩
        · cases hreply : s.reply with
          | stall => rw [hreply] at hafter; rw [hafter.state]; simp
          | data => rw [hreply] at hafter; rw [hafter.state]; simp
          | noData => rw [hreply] at hafter; rw [hafter.state]; simp
        · intro _ s' hs'
          obtain rfl := Option.some.inj (hs.symm.trans hs')
          rw [hlogs.log, List.drop_left]
          exact hmem
      rcases h.armed.of_out (h.waiting s hs).1 with hat | hat | hat
      · refine .inr ⟨fun hbad => ?_, hlistening (.inl hat)⟩
        exact absurd (hat.state.symm.trans hbad.2) (by simp)
      · refine .inr ⟨fun hbad => ?_, hlistening (.inr hat)⟩
        exact absurd (hat.state.symm.trans hbad.2) (by simp)
      · refine .inl ⟨hdone, hat.state, ?_⟩
        have hcrash := Dev.serveEp0Out_setup_eq_none (d := c.dev.complete CTRL_OUT) hdone
          (by rw [hat.completeOut.state]; simp) (by rw [hat.completeOut.state]; simp)
        unfold Ctrl.serveOut
        rw [hcrash]
    · cases hstep
  · rename_i hdone
    refine .inr ⟨fun hbad => hdone hbad.1, ?_, fun hbad => absurd hbad hdone⟩
    rw [ne_eq, not_not] at hdone
    split at hstep
    · rename_i hrcvd
      split at hstep
      · rename_i harrived
        cases hstep
        obtain ⟨s, hs⟩ := Option.isSome_iff_exists.mp harrived
        exact h.received hdone hrcvd hs
      · cases hstep
    · rename_i hrcvd
      rw [ne_eq, not_not] at hrcvd
      split at hstep
      · rename_i hcompl
        split at hstep
        · rename_i hguard
          cases hstep
          exact h.completedOut hdone hrcvd hcompl hguard.1 hguard.2
        · cases hstep
      · rename_i hcompl
        rw [ne_eq, not_not] at hcompl
        cases hstep
        rw [Ctrl.serveOut_eq (Dev.serveEp0Out_other hdone hrcvd hcompl)]
        exact ⟨rfl, h.armed, h.waiting, h.pending⟩

/-- One event: the driver crashes, at the end of a setup phase in place of a status stage, or all
    is as before and a setup packet is handled. -/
theorem step (h : CtrlLaw c) {e : CtrlEvent} (hstep : c.step e = some c') :
    (e.setupDone = true ∧ c.dev.ep0State = .dataRecvStatusDone ∧ c'.crashed = true) ∨
    (¬(e.setupDone = true ∧ c.dev.ep0State = .dataRecvStatusDone) ∧ CtrlLaw c' ∧
      (e.setupDone = true → ∀ s, c.arrived = some s →
        .handleSetup s ∈ c'.dev.log.drop c.dev.log.length)) := by
  cases e with
  | setup bytes =>
    refine .inr ⟨(fun hbad => nomatch hbad.1), ?_, (fun hbad => nomatch hbad)⟩
    simp only [Ctrl.step, h.running, Bool.false_eq_true, if_false] at hstep
    split at hstep
    · rename_i hguard
      cases hstep
      refine ⟨rfl, ?_, ?_, fun _ => rfl⟩
      · cases h.armed with
        | listening hat => exact .listening ⟨hat.state, hat.out, hat.inn⟩
        | pending hat => exact .pending ⟨hat.state, hat.out, hat.inn⟩
        | statusOut hat => exact .statusOut ⟨hat.state, hat.out, hat.inn⟩
        | dataIn hat => exact .dataIn ⟨hat.state, hat.out, hat.inn⟩
        | statusIn hat => exact .statusIn ⟨hat.state, hat.out, hat.inn⟩
      · intro s hs
        cases hs
        exact ⟨hguard.2, Dev.setupPacket_dma c.dev hguard.1⟩
    · cases hstep
  | ep0Out doepint => simpa only [CtrlEvent.setupDone, decide_eq_true_eq] using h.ep0Out hstep
  | ep0In diepint =>
    refine .inr ⟨(fun hbad => nomatch hbad.1), ?_, (fun hbad => nomatch hbad)⟩
    simp only [Ctrl.step, h.running, Bool.false_eq_true, if_false] at hstep
    split at hstep
    · rename_i hcompl
      split at hstep
      · rename_i hin
        cases hstep
        have hlaw := h.completedIn hcompl hin
        rw [h.running] at hlaw
        exact hlaw
      · cases hstep
    · rename_i hcompl
      rw [ne_eq, not_not] at hcompl
      cases hstep
      rw [Dev.serveEp0In_other hcompl]
      exact ⟨rfl, h.armed, h.waiting, h.pending⟩

theorem enumerated (d : Dev) : CtrlLaw (Ctrl.enumerated d) :=
  of_armed (.listening ⟨rfl, rfl, rfl⟩) (fun hp => nomatch hp)

theorem of_run {d : Dev} {events : List CtrlEvent}
    (hrun : moves Ctrl.step events (Ctrl.enumerated d) = some c) :
    c.crashed = true ∨ CtrlLaw c := by
  refine moves_preserves (I := fun c => c.crashed = true ∨ CtrlLaw c) ?_ events _ c
    (.inr (enumerated d)) hrun
  rintro e c c' (hcrashed | hlaw) hstep
  · simp [Ctrl.step, hcrashed] at hstep
  · rcases hlaw.step hstep with ⟨-, -, hcrash⟩ | ⟨-, hnext, -⟩
    · exact .inl hcrash
    · exact .inr hnext

end CtrlLaw

/-- **Setup packets.** Whatever the host sends after enumeration, an event leaves the driver
    running, with the setup packet handled where it ends a setup phase, exactly if it is not the
    end of a setup phase in place of the status packet of a transfer with an IN data stage. -/
theorem setup_handled_iff (d : Dev) (events : List CtrlEvent) (c c' : Ctrl) (e : CtrlEvent)
    (hrun : moves Ctrl.step events (Ctrl.enumerated d) = some c) (hstep : c.step e = some c') :
    (c'.crashed = false ∧ (e.setupDone = true → ∀ s, c.arrived = some s →
        .handleSetup s ∈ c'.dev.log.drop c.dev.log.length)) ↔
      ¬(e.setupDone = true ∧ c.dev.ep0State = .dataRecvStatusDone) := by
  rcases CtrlLaw.of_run hrun with hcrashed | hlaw
  · simp [Ctrl.step, hcrashed] at hstep
  · rcases hlaw.step hstep with ⟨hdone, hstate, hcrash⟩ | ⟨hgood, hnext, hhandled⟩
    · constructor
      · rintro ⟨hrunning, -⟩
        exact absurd (hcrash.symm.trans hrunning) (by simp)
      · intro hgood
        exact absurd ⟨hdone, hstate⟩ hgood
    · exact ⟨fun _ => hgood, fun _ => ⟨hnext.running, hhandled⟩⟩

def getDeviceDescriptor : List Byte := [0x80, 0x06, 0x00, 0x01, 0, 0, 0x12, 0]

def sampleDev : Dev := Dev.init sampleDesc fun _ => sampleRing

theorem setup_handled_sample :
    ∃ c c', moves Ctrl.step [.setup getDeviceDescriptor] (Ctrl.enumerated sampleDev) = some c ∧
      c.step (.ep0Out 0x8) = some c' ∧ c.arrived = some (Setup.ofBytes getDeviceDescriptor) ∧
      ((c'.crashed = false ∧ (CtrlEvent.setupDone (.ep0Out 0x8) = true → ∀ s, c.arrived = some s →
          .handleSetup s ∈ c'.dev.log.drop c.dev.log.length)) ↔
        ¬(CtrlEvent.setupDone (.ep0Out 0x8) = true ∧ c.dev.ep0State = .dataRecvStatusDone)) := by
  have hsome : ((moves Ctrl.step [.setup getDeviceDescriptor] (Ctrl.enumerated sampleDev)).bind
      fun c => (c.step (.ep0Out 0x8)).map fun _ => c.arrived) =
      some (some (Setup.ofBytes getDeviceDescriptor)) := by decide +kernel
  obtain ⟨c, hc, hrest⟩ := Option.bind_eq_some_iff.mp hsome
  obtain ⟨c', hc', harrived⟩ := Option.map_eq_some_iff.mp hrest
  exact ⟨c, c', hc, hc', harrived, setup_handled_iff sampleDev _ c c' _ hc hc'⟩

/-- A setup packet in place of the status packet, after the data stage of another request. -/
theorem setup_in_place_of_status_crashes :
    ∃ c, moves Ctrl.step [.setup getDeviceDescriptor, .ep0Out 0x8, .ep0In 0x1,
        .setup getDeviceDescriptor, .ep0Out 0x8] (Ctrl.enumerated sampleDev) = some c ∧
      c.crashed = true := by
  have hrun : (moves Ctrl.step [.setup getDeviceDescriptor, .ep0Out 0x8, .ep0In 0x1,
      .setup getDeviceDescriptor, .ep0Out 0x8] (Ctrl.enumerated sampleDev)).map Ctrl.crashed =
      some true := by decide +kernel
  exact Option.map_eq_some_iff.mp hrun

end MiniHaywire.Dwc2
