import MiniHaywire.Dwc2Ep0

/-!
# Control transfers

A host that carries each control transfer through before it starts the next.  What stages a
transfer has is in its setup packet, and the host goes by that; the driver goes by the request.
As long as the two agree, the driver is at every stage where the host takes it to be.
-/

namespace MiniHaywire.Dwc2

inductive Stage
  | idle
  | setup (s : Setup)
  | dataIn
  | dataOut
  | statusIn
  | statusOut
deriving DecidableEq

/-- The stage after the setup stage: by the length and the direction in the packet. -/
def Setup.firstStage (s : Setup) : Stage :=
  if s.wLength = 0 then .statusIn else if s.bmRequestType &&& 0x80 ≠ 0 then .dataIn else .dataOut

/-- Where an event takes the host, `none` if it does not belong there.  A stalled request is
    over. -/
def Stage.next (stalled : Bool) : CtrlEvent → Stage → Option Stage
  | .setup bytes, stage => if stage = .idle then some (.setup (Setup.ofBytes bytes)) else none
  | .ep0Out doepint, stage =>
    if doepint &&& Dev.SETUP ≠ 0 then
      match stage with
      | .setup s => some (if stalled then .idle else s.firstStage)
      | _ => none
    else if doepint &&& Dev.STUP_PKT_RCVD ≠ 0 then
      match stage with
      | .setup s => some (.setup s)
      | _ => none
    else if doepint &&& Dev.XFER_COMPL ≠ 0 then
      match stage with
      | .statusOut => some .idle
      | .dataOut => some .statusIn
      | _ => none
    else some stage
  | .ep0In diepint, stage =>
    if diepint &&& Dev.XFER_COMPL ≠ 0 then
      match stage with
      | .dataIn => some .statusOut
      | .statusIn => some .idle
      | _ => none
    else some stage

/-- A `CLEAR_FEATURE` of an endpoint names one of the table. -/
def Setup.listed (s : Setup) : Bool :=
  s.bmRequestType &&& 0x63 ≠ 2 || s.bRequest ≠ 0x01 || epToNum (s.wIndex.setWidth 8) ≠ 0xff

/-- The stages the driver runs for a request are those its packet asks for, or it is stalled. -/
def Setup.agrees (s : Setup) : Bool :=
  match s.reply with
  | .stall => true
  | .data => s.firstStage = .dataIn
  | .noData => s.firstStage = .statusIn

structure Transfer where
  ctrl : Ctrl
  stage : Stage

namespace Transfer

def enumerated (d : Dev) : Transfer := ⟨Ctrl.enumerated d, .idle⟩

/-- The control endpoint has been stalled on the way from `d` to `d'`. -/
def stalled (d d' : Dev) : Bool := .setStall 0 true ∈ d'.log.drop d.log.length

/-- The setup packets that `ok` admits, and every other event. -/
def admits (ok : Setup → Bool) : CtrlEvent → Bool
  | .setup bytes => ok (Setup.ofBytes bytes)
  | _ => true

def step (ok : Setup → Bool) (e : CtrlEvent) (t : Transfer) : Option Transfer :=
  if admits ok e then
    (t.ctrl.step e).bind fun c =>
      (t.stage.next (stalled t.ctrl.dev c.dev) e).map fun stage => ⟨c, stage⟩
  else none

end Transfer

/-- What the driver is at, by the stage of the host. -/
def StageLaw (c : Ctrl) : Stage → Prop
  | .idle => c.dev.At .setupHandle true false ∧ c.arrived = none
  | .setup s =>
    (c.dev.At .setupHandle true false ∨ c.dev.At .setupPending true false) ∧
      c.arrived = some s ∧ s.agrees = true
  | .dataIn => c.dev.At .dataSendDone false true ∧ c.arrived = none
  | .dataOut => False
  | .statusIn => c.dev.At .dataSendStatusDone false true ∧ c.arrived = none
  | .statusOut => c.dev.At .dataRecvStatusDone true false ∧ c.arrived = none

/-- The driver is where the host takes it to be, and no error branch was taken on the way. -/
structure TransferLaw (t : Transfer) : Prop where
  ctrl : CtrlLaw t.ctrl
  fault : ∀ a ∈ t.ctrl.dev.log, a.fault = false
  stage : StageLaw t.ctrl t.stage

namespace TransferLaw

variable {t : Transfer} {c : Ctrl}

theorem fault_append {d d' : Dev} {new : List Action} (hold : ∀ a ∈ d.log, a.fault = false)
    (hlog : d'.log = d.log ++ new) (hnew : ∀ a ∈ new, a.fault = false) :
    ∀ a ∈ d'.log, a.fault = false := by
  rw [hlog]
  exact List.forall_mem_append.mpr ⟨hold, hnew⟩

theorem setupDone (h : TransferLaw t) {s : Setup} (hs : t.stage = .setup s) {doepint : U32}
    (hdone : doepint &&& Dev.SETUP ≠ 0) (hc : t.ctrl.step (.ep0Out doepint) = some c) :
    TransferLaw ⟨c, if Transfer.stalled t.ctrl.dev c.dev then .idle else s.firstStage⟩ := by
  have hstage := h.stage
  rw [hs] at hstage
  obtain ⟨hat, harrived, hagrees⟩ := hstage
  obtain ⟨d', hd', hafter, new, -, hlogs⟩ := h.ctrl.setupDone hdone harrived hat
  obtain rfl : { dev := d', arrived := none, crashed := false } = c := by
    simp only [Ctrl.step, h.ctrl.running, Bool.false_eq_true, if_false, if_pos hdone, harrived,
      Option.isSome_some, if_true, hd'] at hc
    exact Option.some.inj hc
  have hstalled : Transfer.stalled t.ctrl.dev d' = decide (s.reply = .stall) := by
    unfold Transfer.stalled
    rw [hlogs.log, List.drop_left]
    exact decide_eq_decide.mpr (by simpa using hlogs.stall)
  have hfault := fault_append h.fault hlogs.log hlogs.fault
  rw [hstalled]
  cases hreply : s.reply with
  | stall =>
    rw [hreply] at hafter
    exact ⟨CtrlLaw.of_armed hafter.armed (by rw [hafter.state]; simp), hfault, hafter, rfl⟩
  | data =>
    rw [hreply] at hafter
    have hfirst : s.firstStage = .dataIn := by simpa [Setup.agrees, hreply] using hagrees
    rw [hfirst]
    exact ⟨CtrlLaw.of_armed hafter.armed (by rw [hafter.state]; simp), hfault, hafter, rfl⟩
  | noData =>
    rw [hreply] at hafter
    have hfirst : s.firstStage = .statusIn := by simpa [Setup.agrees, hreply] using hagrees
    rw [hfirst]
    exact ⟨CtrlLaw.of_armed hafter.armed (by rw [hafter.state]; simp), hfault, hafter, rfl⟩

theorem received (h : TransferLaw t) {s : Setup} (hs : t.stage = .setup s) {doepint : U32}
    (hdone : doepint &&& Dev.SETUP = 0) (hrcvd : doepint &&& Dev.STUP_PKT_RCVD ≠ 0)
    (hc : t.ctrl.step (.ep0Out doepint) = some c) : TransferLaw ⟨c, .setup s⟩ := by
  have hstage := h.stage
  rw [hs] at hstage
  obtain ⟨hat, harrived, hagrees⟩ := hstage
  have hserve := Dev.serveEp0Out_received hdone hrcvd (by
    rcases hat with hat | hat
    · exact .inl hat.state
    · exact .inr hat.state)
  have hpending : (t.ctrl.dev.setState .setupPending).At .setupPending true false := by
    rcases hat with hat | hat
    · exact hat.setState _
    · exact hat.setState _
  have hlaw := h.ctrl.received hdone hrcvd harrived
  rw [Ctrl.serveOut_eq hserve] at hlaw
  obtain rfl : Ctrl.mk (t.ctrl.dev.setState .setupPending) t.ctrl.arrived false = c := by
    simp only [Ctrl.step, h.ctrl.running, Bool.false_eq_true, if_false, hdone, ne_eq, not_true,
      if_pos hrcvd, harrived, Option.isSome_some, if_true, Ctrl.serveOut_eq hserve] at hc
    rw [harrived]
    exact Option.some.inj hc
  exact ⟨hlaw, h.fault, .inr hpending, harrived, hagrees⟩

theorem ep0Out (h : TransferLaw t) {doepint : U32} {stage : Stage}
    (hc : t.ctrl.step (.ep0Out doepint) = some c)
    (hstage : t.stage.next (Transfer.stalled t.ctrl.dev c.dev) (.ep0Out doepint) = some stage) :
    TransferLaw ⟨c, stage⟩ := by
  simp only [Stage.next] at hstage
  split at hstage
  · rename_i hdone
    split at hstage
    · rename_i s hs
      cases hstage
      exact h.setupDone hs hdone hc
    · cases hstage
  rename_i hdone
  rw [ne_eq, not_not] at hdone
  split at hstage
  · rename_i hrcvd
    split at hstage
    · rename_i s hs
      cases hstage
      exact h.received hs hdone hrcvd hc
    · cases hstage
  rename_i hrcvd
  rw [ne_eq, not_not] at hrcvd
  have hlaw := h.stage
  split at hstage
  · rename_i hcompl
    split at hstage
    · -- the status packet of a transfer with an IN data stage
      rename_i hs
      cases hstage
      rw [hs] at hlaw
      obtain ⟨hat, harrived⟩ := hlaw
      have hdone' := hat.completeOut
      have hserve := Dev.serveEp0Out_status hdone hrcvd hcompl hdone'.state
      have hlisten := hdone'.startSetup.setState .setupHandle
      simp only [Ctrl.step, h.ctrl.running, Bool.false_eq_true, if_false, hdone, hrcvd, ne_eq,
        not_true, if_pos hcompl, hat.out, harrived, Option.isNone_none, and_self, if_true,
        Ctrl.serveOut_eq hserve] at hc
      cases hc
      exact ⟨CtrlLaw.of_armed (.listening hlisten) (by rintro ⟨⟩),
        fault_append h.fault rfl (by simp [Action.fault]), hlisten, rfl⟩
    · rename_i hs
      rw [hs] at hlaw
      exact hlaw.elim
    · cases hstage
  · rename_i hcompl
    rw [ne_eq, not_not] at hcompl
    cases hstage
    simp only [Ctrl.step, h.ctrl.running, Bool.false_eq_true, if_false, hdone, hrcvd, hcompl, ne_eq,
      not_true, Ctrl.serveOut_eq (Dev.serveEp0Out_other hdone hrcvd hcompl)] at hc
    cases hc
    have hsame : t.ctrl = { dev := t.ctrl.dev, arrived := t.ctrl.arrived, crashed := false } := by
      rw [← h.ctrl.running]
    rw [← hsame]
    exact h

theorem ep0In (h : TransferLaw t) {diepint : U32} {stage : Stage}
    (hc : t.ctrl.step (.ep0In diepint) = some c)
    (hstage : t.stage.next (Transfer.stalled t.ctrl.dev c.dev) (.ep0In diepint) = some stage) :
    TransferLaw ⟨c, stage⟩ := by
  have hlaw := h.stage
  simp only [Stage.next] at hstage
  split at hstage
  · rename_i hcompl
    split at hstage
    · rename_i hs
      cases hstage
      rw [hs] at hlaw
      obtain ⟨hat, harrived⟩ := hlaw
      have hdone := hat.completeIn
      have hstatus := (hdone.setState .dataRecvStatus).startStatusOut.setState .dataRecvStatusDone
      simp only [Ctrl.step, h.ctrl.running, Bool.false_eq_true, if_false, if_pos hcompl, hat.inn,
        if_true, Dev.serveEp0In_data hcompl hdone.state, harrived] at hc
      cases hc
      exact ⟨CtrlLaw.of_armed (.statusOut hstatus) (by rintro ⟨⟩),
        fault_append h.fault rfl (by simp [Action.fault]), hstatus, rfl⟩
    · rename_i hs
      cases hstage
      rw [hs] at hlaw
      obtain ⟨hat, harrived⟩ := hlaw
      have hdone := hat.completeIn
      have hlisten := hdone.startSetup.setState .setupHandle
      simp only [Ctrl.step, h.ctrl.running, Bool.false_eq_true, if_false, if_pos hcompl, hat.inn,
        if_true, Dev.serveEp0In_status hcompl hdone.state, harrived] at hc
      cases hc
      exact ⟨CtrlLaw.of_armed (.listening hlisten) (by rintro ⟨⟩),
        fault_append h.fault rfl (by simp [Action.fault]), hlisten, rfl⟩
    · cases hstage
  · rename_i hcompl
    rw [ne_eq, not_not] at hcompl
    cases hstage
    simp only [Ctrl.step, h.ctrl.running, Bool.false_eq_true, if_false, hcompl, ne_eq, not_true,
      Dev.serveEp0In_other hcompl] at hc
    cases hc
    have hsame : t.ctrl = { dev := t.ctrl.dev, arrived := t.ctrl.arrived, crashed := false } := by
      rw [← h.ctrl.running]
    rw [← hsame]
    exact h

theorem setup (h : TransferLaw t) {bytes : List Byte} {stage : Stage}
    (hagrees : (Setup.ofBytes bytes).agrees = true) (hc : t.ctrl.step (.setup bytes) = some c)
    (hstage : t.stage.next (Transfer.stalled t.ctrl.dev c.dev) (.setup bytes) = some stage) :
    TransferLaw ⟨c, stage⟩ := by
  simp only [Stage.next] at hstage
  split at hstage
  · rename_i hs
    cases hstage
    have hlaw := h.stage
    rw [hs] at hlaw
    obtain ⟨hat, -⟩ := hlaw
    rcases h.ctrl.step hc with ⟨hdone, -⟩ | ⟨-, hnext, -⟩
    · cases hdone
    · simp only [Ctrl.step, h.ctrl.running, Bool.false_eq_true, if_false] at hc
      split at hc
      · cases hc
        exact ⟨hnext, h.fault, .inl ⟨hat.state, hat.out, hat.inn⟩, rfl, hagrees⟩
      · cases hc
  · cases hstage

theorem step (h : TransferLaw t) {ok : Setup → Bool} (hok : ∀ s, ok s = true → s.agrees = true)
    {e : CtrlEvent} {t' : Transfer} (hstep : t.step ok e = some t') : TransferLaw t' := by
  unfold Transfer.step at hstep
  split at hstep
  · rename_i hguard
    obtain ⟨c, hc, hrest⟩ := Option.bind_eq_some_iff.mp hstep
    obtain ⟨stage, hstage, rfl⟩ := Option.map_eq_some_iff.mp hrest
    cases e with
    | setup bytes => exact h.setup (hok _ hguard) hc hstage
    | ep0Out doepint => exact h.ep0Out hc hstage
    | ep0In diepint => exact h.ep0In hc hstage
  · cases hstep

end TransferLaw

/-- The direction that a state of the driver, between two interrupts, needs armed. -/
def Ep0State.requires : Ep0State → Option Lep
  | .setupHandle | .setupPending | .dataRecvStatusDone | .dataRecvDone => some CTRL_OUT
  | .dataSendDone | .dataSendStatusDone => some CTRL_IN
  | _ => none

/-- The direction the next packet of the host goes, once its setup phase is over. -/
def Stage.direction : Stage → Lep
  | .idle | .setup _ | .dataOut | .statusOut => CTRL_OUT
  | .dataIn | .statusIn => CTRL_IN

/-- Exactly the direction `ep` is armed, and the state requires it. -/
def Dev.ArmedOnly (d : Dev) (ep : Lep) : Prop :=
  d.ep0State.requires = some ep ∧ ∀ e, e = CTRL_OUT ∨ e = CTRL_IN → (d.enabled e = true ↔ e = ep)

theorem Dev.At.armedOnly {d : Dev} {s : Ep0State} {out inn : Bool} (h : d.At s out inn) (ep : Lep)
    (hs : s.requires = some ep) (hout : out = decide (CTRL_OUT = ep))
    (hin : inn = decide (CTRL_IN = ep)) : d.ArmedOnly ep := by
  refine ⟨h.state.symm ▸ hs, ?_⟩
  rintro e (rfl | rfl)
  · rw [h.out, hout, decide_eq_true_eq]
  · rw [h.inn, hin, decide_eq_true_eq]

theorem StageLaw.armedOnly {c : Ctrl} {stage : Stage} (h : StageLaw c stage) :
    c.dev.ArmedOnly stage.direction := by
  cases stage with
  | idle => exact h.1.armedOnly _ rfl rfl rfl
  | setup s =>
    rcases h.1 with hat | hat
    · exact hat.armedOnly _ rfl rfl rfl
    · exact hat.armedOnly _ rfl rfl rfl
  | dataIn => exact h.1.armedOnly _ rfl rfl rfl
  | dataOut => exact h.elim
  | statusIn => exact h.1.armedOnly _ rfl rfl rfl
  | statusOut => exact h.1.armedOnly _ rfl rfl rfl

/-- **Control transfers.** For a host that finishes each of them, with requests whose packets ask
    for the stages that the driver runs: the driver never fails its assertion and never gets into
    one of its error branches; exactly one direction is armed, the one its state requires and the
    host turns to next; and at the end of a transfer it waits for a setup packet. -/
theorem controlTransfers_of_agrees (d : Dev) (hlog : ∀ a ∈ d.log, a.fault = false)
    (events : List CtrlEvent) (t : Transfer)
    (hrun : moves (Transfer.step fun s => s.listed && s.agrees) events (Transfer.enumerated d) =
      some t) :
    t.ctrl.crashed = false ∧ (∀ a ∈ t.ctrl.dev.log, a.fault = false) ∧
      t.ctrl.dev.ArmedOnly t.stage.direction ∧
      (t.stage = .idle →
        t.ctrl.dev.ep0State = .setupHandle ∧ t.ctrl.dev.enabled CTRL_OUT = true) := by
  have hstart : TransferLaw (Transfer.enumerated d) := by
    refine ⟨CtrlLaw.enumerated d, ?_, ⟨rfl, rfl, rfl⟩, rfl⟩
    have hfault : ∀ a ∈ [Action.setAddress 0, .activate CTRL_OUT EP_TYPE_CONTROL 64 none,
        .activate CTRL_IN EP_TYPE_CONTROL 64
          (some (TX_FIFO_SIZE <<< 16 ||| (TX_FIFO_SIZE + RX_FIFO_SIZE))),
        .recv CTRL_OUT 64 1], a.fault = false := by simp [Action.fault]
    refine TransferLaw.fault_append hlog ?_ hfault
    simp [Transfer.enumerated, Ctrl.enumerated, Dev.handleEventConnectDone, Dev.handleUsbrst,
      Dev.epActivate, Dev.note, Dev.startSetupPhase, Dev.epHwRecv, dirIn, phyEndpoints, CTRL_OUT,
      CTRL_IN, EP_TYPE_CONTROL]
  have hlaw : TransferLaw t := by
    refine moves_preserves (fun e t t' h hstep => h.step (fun s hs => ?_) hstep)
      events _ t hstart hrun
    exact (Bool.and_eq_true_iff.mp hs).2
  refine ⟨hlaw.ctrl.running, hlaw.fault, hlaw.stage.armedOnly, ?_⟩
  intro hidle
  have hstage := hlaw.stage
  rw [hidle] at hstage
  exact ⟨hstage.1.state, hstage.1.out⟩

def sampleTransfers : List CtrlEvent :=
  [.setup getDeviceDescriptor, .ep0Out 0x8000, .ep0Out 0x9, .ep0In 0x1, .ep0Out 0x1,
    .setup [0x00, 0x05, 0x07, 0, 0, 0, 0, 0], .ep0Out 0x8008, .ep0In 0x1]

theorem controlTransfers_of_agrees_sample :
    ∃ t, moves (Transfer.step fun s => s.listed && s.agrees) sampleTransfers
        (Transfer.enumerated sampleDev) = some t ∧ t.stage = .idle ∧
      (t.ctrl.crashed = false ∧ (∀ a ∈ t.ctrl.dev.log, a.fault = false) ∧
        t.ctrl.dev.ArmedOnly t.stage.direction ∧
        (t.stage = .idle →
          t.ctrl.dev.ep0State = .setupHandle ∧ t.ctrl.dev.enabled CTRL_OUT = true)) := by
  have hrun : (moves (Transfer.step fun s => s.listed && s.agrees) sampleTransfers
      (Transfer.enumerated sampleDev)).map Transfer.stage = some .idle := by decide +kernel
  obtain ⟨t, ht, hidle⟩ := Option.map_eq_some_iff.mp hrun
  exact ⟨t, ht, hidle, controlTransfers_of_agrees sampleDev (by decide) sampleTransfers t ht⟩

/-- The host asks for no byte of the device descriptor, takes the empty packet for the status
    stage and goes on to its next request. -/
def emptyDescriptor : List CtrlEvent :=
  [.setup [0x80, 0x06, 0x00, 0x01, 0, 0, 0, 0], .ep0Out 0x8, .ep0In 0x1]

/-- The driver takes it for the data stage and waits for a status packet that does not come. -/
theorem emptyDescriptor_crashes :
    ∃ t t', moves (Transfer.step Setup.listed) emptyDescriptor (Transfer.enumerated sampleDev) =
        some t ∧
      t.stage = .idle ∧ t.ctrl.dev.ep0State = .dataRecvStatusDone ∧
      moves (Transfer.step Setup.listed) [.setup getDeviceDescriptor, .ep0Out 0x8] t = some t' ∧
      t'.ctrl.crashed = true := by
  have hrun : ((moves (Transfer.step Setup.listed) emptyDescriptor
      (Transfer.enumerated sampleDev)).bind
      fun t => (moves (Transfer.step Setup.listed) [.setup getDeviceDescriptor, .ep0Out 0x8] t).map
        fun t' => (t.stage, t.ctrl.dev.ep0State, t'.ctrl.crashed)) =
      some (.idle, .dataRecvStatusDone, true) := by decide +kernel
  obtain ⟨t, ht, hrest⟩ := Option.bind_eq_some_iff.mp hrun
  obtain ⟨t', ht', hresult⟩ := Option.map_eq_some_iff.mp hrest
  simp only [Prod.mk.injEq] at hresult
  exact ⟨t, t', ht, hresult.1, hresult.2.1, ht', hresult.2.2⟩

end MiniHaywire.Dwc2
