import MiniHaywire.UartProxy

/-!
# One reply per request

What a poll can add to the trace of the loop, said once: nothing, or a request
and its reply, with the transfer events of that request around the reply
(`poll_polled` and `handled_trace`).  From this follow the statements about whole runs, over every
platform and so over every way in which bytes can arrive: here the accounting of
requests, replies and the end of the loop.
-/

namespace MiniHaywire.UartProxy

variable {ρ : Type} (P : Platform ρ)

/-! ### What a handler leaves in the trace -/

/-- `disable_data_csums` after a request with a right checksum on `d`. -/
def nextMode (d : IodevId) (r : UartRequest) (mode : Bool) : Bool :=
  if r.type = REQ_NOP then enabledFeatures d r.features &&& PROXY_FEAT_DISABLE_DATA_CSUMS != 0
  else mode

/-- `MEMREAD` or `MEMWRITE`. -/
def IsTransfer (r : UartRequest) : Prop := r.type = REQ_MEMREAD ∨ r.type = REQ_MEMWRITE

/-- The events of a transfer on `d` made with the flag at `mode`. -/
def TransferEvents (d : IodevId) (mode : Bool) (es : List Event) : Prop :=
  ∀ e ∈ es, e = .dataMode d mode ∨ ∃ bs, e = .data d bs

theorem TransferEvents.nil (d : IodevId) (mode : Bool) : TransferEvents d mode [] := by
  intro e he
  cases he

theorem TransferEvents.cons_mode {d : IodevId} {mode : Bool} {es : List Event}
    (h : TransferEvents d mode es) : TransferEvents d mode (.dataMode d mode :: es) := by
  intro e he
  rcases List.mem_cons.mp he with rfl | he
  · exact .inl rfl
  · exact h e he

theorem TransferEvents.cons_data {d : IodevId} {mode : Bool} {es : List Event}
    (bs : List Byte) (h : TransferEvents d mode es) :
    TransferEvents d mode (.data d bs :: es) := by
  intro e he
  rcases List.mem_cons.mp he with rfl | he
  · exact .inr ⟨bs, rfl⟩
  · exact h e he

/-- A step that leaves `s'` after `s` and recorded `es`, with the flag at `mode`. -/
structure Recorded (s s' : State ρ) (es : List Event) (mode : Bool) : Prop where
  trace : s'.trace = s.trace ++ es
  mode : s'.disableDataCsums = mode

theorem Recorded.none {s s' : State ρ} (ht : s'.trace = s.trace)
    (hm : s'.disableDataCsums = s.disableDataCsums) : Recorded s s' [] s.disableDataCsums :=
  ⟨by rw [ht, List.append_nil], hm⟩

theorem Recorded.append {s s' s'' : State ρ} {es es' : List Event} {mode mode' : Bool}
    (h : Recorded s s' es mode) (h' : Recorded s' s'' es' mode') :
    Recorded s s'' (es ++ es') mode' :=
  ⟨by rw [h'.trace, h.trace, List.append_assoc], h'.mode⟩

theorem reqProxy_recorded (d : IodevId) (request : ProxyRequest) (s : State ρ) :
    Recorded s (reqProxy P d request s).state [] s.disableDataCsums := by
  unfold reqProxy
  cases proxyProcess P.toFirmware (BitVec.ofNat 32 d.val) request s.dev with
  | rebooted dev => exact .none rfl rfl
  | returned ret reply dev =>
    dsimp only
    split
    · exact .none rfl rfl
    · exact .none rfl rfl

theorem reqMemread_recorded (d : IodevId) (m : MemRequest) (s : State ρ) :
    ∃ es, Recorded s (reqMemread d m s).state es s.disableDataCsums ∧
      TransferEvents d s.disableDataCsums es := by
  unfold reqMemread
  split
  · exact ⟨[], .none rfl rfl, .nil _ _⟩
  · exact ⟨[.dataMode d s.disableDataCsums], ⟨rfl, rfl⟩, (TransferEvents.nil _ _).cons_mode⟩

theorem probe_recorded (m : MemRequest) (s : State ρ) :
    Recorded s (probe m s) [] s.disableDataCsums := by
  unfold probe
  dsimp only
  split
  · exact .none rfl rfl
  · exact .none rfl rfl

@[simp] theorem excCount_probe (m : MemRequest) (s : State ρ) :
    (probe m s).dev.excCount = 0 := by
  unfold probe
  dsimp only
  split <;> rfl

@[simp] theorem env_probe (m : MemRequest) (s : State ρ) : (probe m s).dev.env = s.dev.env := by
  unfold probe
  dsimp only
  split <;> rfl

theorem verifyWrite_recorded (d : IodevId) (m : MemRequest) (s : State ρ) :
    Recorded s (verifyWrite P d m s).state [.dataMode d s.disableDataCsums]
      s.disableDataCsums := by
  unfold verifyWrite
  dsimp only
  split
  · exact ⟨rfl, rfl⟩
  split
  · exact ⟨rfl, rfl⟩
  · exact ⟨rfl, rfl⟩

theorem reqMemwrite_recorded (d : IodevId) (m : MemRequest) (s : State ρ) :
    ∃ es, Recorded s (reqMemwrite P d m s).state es s.disableDataCsums ∧
      TransferEvents d s.disableDataCsums es := by
  have hprobe := probe_recorded m s
  unfold reqMemwrite
  generalize probe m s = p at hprobe
  dsimp only
  split
  · exact ⟨[], hprobe, .nil _ _⟩
  have hread : Recorded s ((p.setEnv (p.iodevRead P d (lo32 m.size)).env).store (lo32 m.addr)
      (p.iodevRead P d (lo32 m.size)).data) [] s.disableDataCsums := ⟨hprobe.trace, hprobe.mode⟩
  split
  · exact ⟨[], hread, .nil _ _⟩
  · have hverify := hread.append (verifyWrite_recorded P d m _)
    rw [hread.mode] at hverify
    exact ⟨_, hverify, (TransferEvents.nil _ _).cons_mode⟩

theorem dispatch_recorded (d : IodevId) (r : UartRequest) (s : State ρ) :
    ∃ es, Recorded s (dispatch P d r s).state es (nextMode d r s.disableDataCsums) ∧
      TransferEvents d s.disableDataCsums es ∧ (¬ IsTransfer r → es = []) := by
  unfold dispatch nextMode
  by_cases hnop : r.type = REQ_NOP
  · rw [if_pos hnop, if_pos hnop]
    exact ⟨[], ⟨(List.append_nil _).symm, rfl⟩, .nil _ _, fun _ => rfl⟩
  rw [if_neg hnop, if_neg hnop]
  by_cases hproxy : r.type = REQ_PROXY
  · rw [if_pos hproxy]
    exact ⟨[], reqProxy_recorded P d _ s, .nil _ _, fun _ => rfl⟩
  rw [if_neg hproxy]
  by_cases hread : r.type = REQ_MEMREAD
  · rw [if_pos hread]
    obtain ⟨es, hrec, hes⟩ := reqMemread_recorded d r.mrequest s
    exact ⟨es, hrec, hes, fun h => absurd (.inl hread) h⟩
  rw [if_neg hread]
  by_cases hwrite : r.type = REQ_MEMWRITE
  · rw [if_pos hwrite]
    obtain ⟨es, hrec, hes⟩ := reqMemwrite_recorded P d r.mrequest s
    exact ⟨es, hrec, hes, fun h => absurd (.inr hwrite) h⟩
  · rw [if_neg hwrite]
    exact ⟨[], .none rfl rfl, .nil _ _, fun _ => rfl⟩

theorem sendData_recorded (d : IodevId) (m : MemRequest) (s : State ρ) :
    ∃ es, Recorded s (sendData P d m s) es s.disableDataCsums ∧
      TransferEvents d s.disableDataCsums es := by
  unfold sendData
  generalize s.dev.mem.load (lo32 m.addr) (lo32 m.size).toNat = bytes
  dsimp only
  have hdata : Recorded s (((s.iodevQueue P d bytes).emit (.data d bytes)).noteMode d)
      ([.data d bytes] ++ [.dataMode d s.disableDataCsums]) s.disableDataCsums :=
    ⟨List.append_assoc .., rfl⟩
  split
  · refine ⟨_, hdata.append ⟨rfl, rfl⟩, ?_⟩
    exact (((TransferEvents.nil _ _).cons_data _).cons_mode).cons_data _
  · exact ⟨_, hdata, ((TransferEvents.nil _ _).cons_mode).cons_data _⟩

theorem answer_recorded (d : IodevId) (r : UartRequest) (h : Handled ρ) :
    ∃ es, Recorded h.state (answer P d r h)
        (.reply d (UartReply.mk r.type h.status h.body).bytes :: es)
        h.state.disableDataCsums ∧
      TransferEvents d h.state.disableDataCsums es ∧ (¬ IsTransfer r → es = []) := by
  unfold answer
  dsimp only
  have hreply : Recorded h.state
      ((h.state.iodevQueue P d (UartReply.mk r.type h.status h.body).bytes).emit
        (.reply d (UartReply.mk r.type h.status h.body).bytes))
      [.reply d (UartReply.mk r.type h.status h.body).bytes] h.state.disableDataCsums := ⟨rfl, rfl⟩
  split
  · rename_i hread
    obtain ⟨es, hrec, hes⟩ := sendData_recorded P d r.mrequest
      ((h.state.iodevQueue P d (UartReply.mk r.type h.status h.body).bytes).emit
        (.reply d (UartReply.mk r.type h.status h.body).bytes))
    exact ⟨es, ⟨(hreply.append hrec).trace, hrec.mode⟩, hes, fun hn => absurd (.inl hread.1) hn⟩
  · exact ⟨[], ⟨hreply.trace, hreply.mode⟩, .nil _ _, fun _ => rfl⟩

/-! ### What a poll leaves in the trace -/

/-- What answering the request `r` on `d` records: one reply with the events of
    the transfer around it, or nothing when the machine was rebooted. -/
inductive Exchange (d : IodevId) (r : UartRequest) (mode : Bool) : Phase → List Event → Prop
  | replied {phase : Phase} (hphase : phase ≠ .rebooted) (status : U32) (body : ReplyUnion)
      {pre post : List Event} (hpre : TransferEvents d mode pre)
      (hpost : TransferEvents d mode post) (hnone : ¬ IsTransfer r → pre = [] ∧ post = []) :
      Exchange d r mode phase (pre ++ .reply d (UartReply.mk r.type status body).bytes :: post)
  | cut : Exchange d r mode .rebooted []

theorem nextMode_of_isTransfer {d : IodevId} {r : UartRequest} {mode : Bool}
    (h : IsTransfer r) : nextMode d r mode = mode := by
  have hne : r.type ≠ REQ_NOP := by
    rcases h with h | h <;> rw [h] <;> decide
  rw [nextMode, if_neg hne]

theorem reqMemread_phase (d : IodevId) (m : MemRequest) (s : State ρ) :
    (reqMemread d m s).phase = .running := by
  unfold reqMemread
  split <;> rfl

theorem reqMemwrite_phase (d : IodevId) (m : MemRequest) (s : State ρ) :
    (reqMemwrite P d m s).phase = .running := by
  unfold reqMemwrite
  dsimp only
  split
  · rfl
  split
  · rfl
  unfold verifyWrite
  dsimp only
  split
  · rfl
  split <;> rfl

theorem dispatch_phase (d : IodevId) (r : UartRequest) (s : State ρ) :
    (dispatch P d r s).phase =
      if r.type = REQ_PROXY then (reqProxy P d r.prequest s).phase else .running := by
  unfold dispatch
  by_cases hnop : r.type = REQ_NOP
  · have hproxy : r.type ≠ REQ_PROXY := by rw [hnop]; decide
    rw [if_pos hnop, if_neg hproxy]
    rfl
  rw [if_neg hnop]
  by_cases hproxy : r.type = REQ_PROXY
  · rw [if_pos hproxy, if_pos hproxy]
  rw [if_neg hproxy, if_neg hproxy]
  split
  · exact reqMemread_phase d _ s
  split
  · exact reqMemwrite_phase P d _ s
  · rfl

theorem not_isTransfer_of_rebooted {d : IodevId} {r : UartRequest} {s : State ρ}
    (h : (dispatch P d r s).phase = .rebooted) : ¬ IsTransfer r := by
  intro htransfer
  have hne : r.type ≠ REQ_PROXY := by
    rcases htransfer with ht | ht <;> rw [ht] <;> decide
  rw [dispatch_phase, if_neg hne] at h
  cases h

theorem handle_exchange (d : IodevId) (r : UartRequest) (s : State ρ) :
    ∃ es, Recorded s (handle P d r s).1 es (nextMode d r s.disableDataCsums) ∧
      Exchange d r s.disableDataCsums (handle P d r s).2 es := by
  obtain ⟨pre, hrec, hpre, hnone⟩ := dispatch_recorded P d r { s with uartproxyIodev := d }
  unfold handle
  dsimp only
  by_cases hreb : (dispatch P d r { s with uartproxyIodev := d }).phase = .rebooted
  · have hnil := hnone (not_isTransfer_of_rebooted P hreb)
    subst hnil
    rw [if_pos hreb, hreb]
    exact ⟨[], ⟨hrec.trace, hrec.mode⟩, .cut⟩
  · rw [if_neg hreb]
    generalize dispatch P d r { s with uartproxyIodev := d } = h at hrec hreb ⊢
    obtain ⟨post, hrec', hpost, hnone'⟩ := answer_recorded P d r h
    rw [hrec.mode] at hpost hrec'
    refine ⟨_, ⟨(hrec.append hrec').trace, hrec'.mode⟩, ?_⟩
    refine .replied hreb h.status h.body hpre ?_ (fun hn => ⟨hnone hn, hnone' hn⟩)
    by_cases htransfer : IsTransfer r
    · rw [nextMode_of_isTransfer htransfer] at hpost
      exact hpost
    · rw [hnone' htransfer]
      exact .nil _ _

theorem look_recorded (d : IodevId) (s : State ρ) :
    Recorded s (look P d s).2 [] s.disableDataCsums := by
  unfold look
  split
  · exact .none rfl rfl
  dsimp only
  split
  · exact .none rfl rfl
  split
  · exact .none rfl rfl
  · exact .none rfl rfl

/-- The ways in which a poll can go, as far as the trace shows. -/
inductive Polled (c : Loop ρ) : Loop ρ → Prop
  | quiet {s : State ρ} {d : IodevId} (h : Recorded c.state s [] c.state.disableDataCsums) :
      Polled c ⟨s, d, .running⟩
  | refused (s : State ρ) (h : Recorded c.state s [] c.state.disableDataCsums)
      (r : UartRequest) (hbad : r.checksumOk = false) :
      Polled c ⟨refuse P c.iodev r (s.emit (.request c.iodev r)), 0, .running⟩
  | handled (s : State ρ) (h : Recorded c.state s [] c.state.disableDataCsums)
      (r : UartRequest) (hok : r.checksumOk = true) :
      Polled c ⟨(handle P c.iodev r (s.emit (.request c.iodev r))).1, 0,
        (handle P c.iodev r (s.emit (.request c.iodev r))).2⟩

theorem poll_polled {c : Loop ρ} (hrun : c.phase = .running) : Polled P c (poll P c) := by
  have hlook := look_recorded P c.iodev c.state
  unfold poll
  rw [hrun]
  dsimp only
  split
  · generalize (look P c.iodev c.state).2 = s at hlook
    have hread : Recorded c.state (s.setEnv (s.iodevRead P c.iodev 60).env) []
        c.state.disableDataCsums := ⟨hlook.trace, hlook.mode⟩
    unfold serve
    dsimp only
    split
    · exact .quiet hread
    split
    · rename_i hok
      exact .handled _ hread _ hok
    · rename_i hbad
      exact .refused _ hread _ (by simpa using hbad)
  · exact .quiet hlook

theorem poll_of_not_running {c : Loop ρ} (h : c.phase ≠ .running) : poll P c = c := by
  unfold poll
  cases hphase : c.phase with
  | running => exact absurd hphase h
  | stopped ret => rfl
  | rebooted => rfl

/-! ### Requests and replies of a run -/

def requests (es : List Event) : List (IodevId × UartRequest) :=
  es.filterMap fun
    | .request d r => some (d, r)
    | _ => none

def replies (es : List Event) : List (IodevId × List Byte) :=
  es.filterMap fun
    | .reply d frame => some (d, frame)
    | _ => none

@[simp] theorem requests_append (es es' : List Event) :
    requests (es ++ es') = requests es ++ requests es' := List.filterMap_append ..

@[simp] theorem replies_append (es es' : List Event) :
    replies (es ++ es') = replies es ++ replies es' := List.filterMap_append ..

theorem TransferEvents.requests_eq {d : IodevId} {mode : Bool} {es : List Event}
    (h : TransferEvents d mode es) : requests es = [] := by
  apply List.filterMap_eq_nil_iff.mpr
  intro e he
  rcases h e he with rfl | ⟨bs, rfl⟩ <;> rfl

theorem TransferEvents.replies_eq {d : IodevId} {mode : Bool} {es : List Event}
    (h : TransferEvents d mode es) : replies es = [] := by
  apply List.filterMap_eq_nil_iff.mpr
  intro e he
  rcases h e he with rfl | ⟨bs, rfl⟩ <;> rfl

/-- The frame `a` answers the request `q`: it goes back where `q` came from, has
    the length of a reply, echoes the type, and the host accepts its checksum. -/
def Echoes (q : IodevId × UartRequest) (a : IodevId × List Byte) : Prop :=
  a.1 = q.1 ∧ a.2.length = 36 ∧ a.2.take 4 = leWord q.2.type ∧
    Host.checksum (a.2.take 32) = leNat (a.2.drop 32)

theorem echoes_bytes (d : IodevId) (r : UartRequest) (status : U32) (body : ReplyUnion) :
    Echoes (d, r) (d, (UartReply.mk r.type status body).bytes) := by
  have hcov := UartReply.length_covered (UartReply.mk r.type status body)
  refine ⟨rfl, by simp, ?_, ?_⟩
  · simp only [UartReply.bytes, UartReply.covered, List.append_assoc]
    exact List.take_left' (by simp)
  · simp only [UartReply.bytes]
    rw [List.take_left' hcov, List.drop_left' hcov, Host.checksum_eq, leWord,
      leNat_leBytes_of_lt (checksum _).isLt]

/-- One reply for each request, and the loop over exactly after the first request
    with the property `Last`. -/
structure Accounted (Last : UartRequest → Prop) (c : Loop ρ) : Prop where
  replied : List.Forall₂ Echoes (requests c.state.trace) (replies c.state.trace)
  running : c.phase = .running → ∀ q ∈ requests c.state.trace, ¬ Last q.2
  ended : c.phase ≠ .running → ∃ qs q, requests c.state.trace = qs ++ [q] ∧ Last q.2 ∧
    ∀ q' ∈ qs, ¬ Last q'.2

/-- `P_EXIT` or `P_KBOOT_BOOT`, whatever the arguments. -/
def Stops (r : UartRequest) : Prop :=
  r.type = REQ_PROXY ∧ (ProxyOp.ofOpcode r.prequest.opcode = some .P_EXIT ∨
    ProxyOp.ofOpcode r.prequest.opcode = some .P_KBOOT_BOOT)

/-- The requests that leave the proxy: `P_REBOOT`, and `P_CALL` with its
    host-supplied code. -/
def Leaves (r : UartRequest) : Prop :=
  r.type = REQ_PROXY ∧ (ProxyOp.ofOpcode r.prequest.opcode = some .P_REBOOT ∨
    ProxyOp.ofOpcode r.prequest.opcode = some .P_CALL)

def Ends (r : UartRequest) : Prop := r.type = REQ_PROXY ∧ processRet r.prequest ≠ 0

instance (r : UartRequest) : Decidable (Stops r) := inferInstanceAs (Decidable (_ ∧ _))

instance (r : UartRequest) : Decidable (Leaves r) := inferInstanceAs (Decidable (_ ∧ _))

instance (r : UartRequest) : Decidable (Ends r) := inferInstanceAs (Decidable (_ ∧ _))

def ExitArgKept (r : UartRequest) : Prop :=
  r.type = REQ_PROXY → ProxyOp.ofOpcode r.prequest.opcode = some .P_EXIT →
    r.prequest.args 0 = 0 ∨ lo32 (r.prequest.args 0) ≠ 0

instance (r : UartRequest) : Decidable (ExitArgKept r) := inferInstanceAs (Decidable (_ → _))

theorem processRet_ne_zero_iff (request : ProxyRequest) :
    processRet request ≠ 0 ↔
      (ProxyOp.ofOpcode request.opcode = some .P_EXIT ∧
        (request.args 0 = 0 ∨ lo32 (request.args 0) ≠ 0)) ∨
      ProxyOp.ofOpcode request.opcode = some .P_KBOOT_BOOT := by
  unfold processRet
  by_cases hexit : ProxyOp.ofOpcode request.opcode = some .P_EXIT
  · rw [if_pos hexit, exitValue_ne_zero_iff, hexit]
    simp
  rw [if_neg hexit]
  by_cases hboot : ProxyOp.ofOpcode request.opcode = some .P_KBOOT_BOOT
  · rw [if_pos hboot, hboot]
    simp
  · rw [if_neg hboot]
    simp [hexit, hboot]

/-- The loop ends after the requests that ask for it, unless the conversion of the
    exit argument got in the way. -/
theorem ends_iff (r : UartRequest) : Ends r ↔ Stops r ∧ ExitArgKept r := by
  unfold Ends Stops ExitArgKept
  rw [processRet_ne_zero_iff]
  constructor
  · rintro ⟨htype, ⟨hexit, harg⟩ | hboot⟩
    · exact ⟨⟨htype, .inl hexit⟩, fun _ _ => harg⟩
    · refine ⟨⟨htype, .inr hboot⟩, fun _ hexit => ?_⟩
      rw [hboot] at hexit
      cases hexit
  · rintro ⟨⟨htype, hexit | hboot⟩, hkept⟩
    · exact ⟨htype, .inl ⟨hexit, hkept htype hexit⟩⟩
    · exact ⟨htype, .inr hboot⟩

/-! ### Accounting over a whole run -/

theorem handle_phase {d : IodevId} {r : UartRequest} (hstay : ¬ Leaves r) (s : State ρ) :
    (handle P d r s).2 = if Ends r then .stopped (processRet r.prequest) else .running := by
  change (dispatch P d r _).phase = _
  rw [dispatch_phase]
  by_cases hproxy : r.type = REQ_PROXY
  · have hreboot : ProxyOp.ofOpcode r.prequest.opcode ≠ some .P_REBOOT :=
      fun h => hstay ⟨hproxy, .inl h⟩
    obtain ⟨reply, dev', hres⟩ := proxyProcess_returned P.toFirmware (BitVec.ofNat 32 d.val)
      r.prequest s.dev hreboot
    rw [if_pos hproxy]
    simp only [reqProxy, hres, Ends, hproxy, true_and]
  · rw [if_neg hproxy, if_neg (fun h => hproxy h.1)]

def Clean (c : Loop ρ) : Prop :=
  ∀ q ∈ requests c.state.trace, q.2.checksumOk = true ∧ ¬ Leaves q.2

theorem Exchange.requests_eq {d : IodevId} {r : UartRequest} {mode : Bool} {phase : Phase}
    {es : List Event} (h : Exchange d r mode phase es) : requests es = [] := by
  cases h with
  | replied hphase status body hpre hpost hnone =>
    simp only [requests_append, hpre.requests_eq, List.nil_append]
    exact hpost.requests_eq
  | cut => rfl

theorem Exchange.replies_eq {d : IodevId} {r : UartRequest} {mode : Bool} {phase : Phase}
    {es : List Event} (h : Exchange d r mode phase es) (hphase : phase ≠ .rebooted) :
    ∃ status body, replies es = [(d, (UartReply.mk r.type status body).bytes)] := by
  cases h with
  | replied _ status body hpre hpost hnone =>
    refine ⟨status, body, ?_⟩
    simp only [replies_append, hpre.replies_eq, List.nil_append]
    exact congrArg (List.cons _) hpost.replies_eq
  | cut => exact absurd rfl hphase

theorem handled_trace {c : Loop ρ} {s : State ρ}
    (h : Recorded c.state s [] c.state.disableDataCsums) (d : IodevId) (r : UartRequest) :
    ∃ es, (handle P d r (s.emit (.request d r))).1.trace =
        c.state.trace ++ (.request d r :: es) ∧
      Exchange d r c.state.disableDataCsums (handle P d r (s.emit (.request d r))).2 es ∧
      (handle P d r (s.emit (.request d r))).1.disableDataCsums =
        nextMode d r c.state.disableDataCsums := by
  obtain ⟨es, hrec, hex⟩ := handle_exchange P d r (s.emit (.request d r))
  have hmode : (s.emit (.request d r)).disableDataCsums = c.state.disableDataCsums := h.mode
  have htrace : (s.emit (.request d r)).trace = c.state.trace ++ [.request d r] := by
    change s.trace ++ _ = _
    rw [h.trace, List.append_nil]
  rw [hmode] at hex hrec
  refine ⟨es, ?_, hex, hrec.mode⟩
  rw [hrec.trace, htrace, List.append_assoc]
  rfl

theorem refused_trace {c : Loop ρ} {s : State ρ}
    (h : Recorded c.state s [] c.state.disableDataCsums) (d : IodevId) (r : UartRequest) :
    (refuse P d r (s.emit (.request d r))).trace = c.state.trace ++
      [.request d r, .reply d (UartReply.mk r.type ST_CSUMERR .zero).bytes] := by
  change s.trace ++ _ ++ _ = _
  rw [h.trace, List.append_nil, List.append_assoc]
  rfl

theorem poll_accounted {c : Loop ρ} (hc : Clean c → Accounted Ends c) (hclean : Clean (poll P c)) :
    Accounted Ends (poll P c) := by
  by_cases hrun : c.phase = .running
  swap
  · rw [poll_of_not_running P hrun] at hclean ⊢
    exact hc hclean
  have hstep := poll_polled P hrun
  generalize poll P c = c' at hclean hstep
  cases hstep with
  | quiet h =>
    have htrace := h.trace
    rw [List.append_nil] at htrace
    have hold := hc (by unfold Clean at hclean ⊢; rwa [htrace] at hclean)
    refine ⟨?_, ?_, fun hphase => absurd rfl hphase⟩
    · rw [htrace]
      exact hold.replied
    · rw [htrace]
      exact fun _ => hold.running hrun
  | refused s h r hbad =>
    -- a request with a wrong checksum is not one the statement is about
    have hmem : (c.iodev, r) ∈ requests (refuse P c.iodev r
        (s.emit (.request c.iodev r))).trace := by
      rw [refused_trace P h]
      simp [requests]
    have hok := (hclean _ hmem).1
    rw [hbad] at hok
    cases hok
  | handled s h r hok =>
    obtain ⟨es, htrace, hex, -⟩ := handled_trace P h c.iodev r
    have hreq : requests (c.state.trace ++ (Event.request c.iodev r :: es)) =
        requests c.state.trace ++ [(c.iodev, r)] := by
      rw [requests_append]
      exact congrArg (fun l => _ ++ (_ :: l)) hex.requests_eq
    have hrep : replies (c.state.trace ++ (Event.request c.iodev r :: es)) =
        replies c.state.trace ++ replies es := by
      rw [replies_append]
      rfl
    unfold Clean at hclean
    rw [htrace, hreq] at hclean
    have hold := hc (fun q hq => hclean q (by simp [hq]))
    have hstay := (hclean (c.iodev, r) (by simp)).2
    have hphase := handle_phase P (d := c.iodev) hstay (s.emit (.request c.iodev r))
    have hne : (handle P c.iodev r (s.emit (.request c.iodev r))).2 ≠ .rebooted := by
      rw [hphase]
      split <;> simp
    obtain ⟨status, body, hframe⟩ := hex.replies_eq hne
    refine ⟨?_, ?_, ?_⟩
    · rw [htrace, hreq, hrep, hframe]
      exact List.rel_append hold.replied (.cons (echoes_bytes _ _ _ _) .nil)
    · rw [htrace, hreq, hphase]
      intro hrunning q hq
      have hnot : ¬ Ends r := by
        intro hends
        rw [if_pos hends] at hrunning
        cases hrunning
      rcases List.mem_append.mp hq with hq | hq
      · exact hold.running hrun q hq
      · rw [List.mem_singleton.mp hq]
        exact hnot
    · rw [htrace, hreq, hphase]
      intro hstopped
      have hends : Ends r := by
        by_contra hnot
        exact hstopped (if_neg hnot)
      exact ⟨_, _, rfl, hends, hold.running hrun⟩

theorem run_accounted (s : State ρ) (hs : s.trace = []) (n : Nat)
    (hclean : Clean (uartproxyRun P none s n)) : Accounted Ends (uartproxyRun P none s n) := by
  revert hclean
  refine run_induction P (I := fun c => Clean c → Accounted Ends c) ?_
    (fun c hc hclean => poll_accounted P hc hclean) n
  · have htrace : requests (notify P IODEV_UART .zero s).trace = [] := by
      simp [notify, State.emit, State.iodevWrite, State.setEnv, hs, requests]
    have hrep : replies (notify P IODEV_UART .zero s).trace = [] := by
      simp [notify, State.emit, State.iodevWrite, State.setEnv, hs, replies]
    intro _
    refine ⟨?_, ?_, fun hphase => absurd rfl hphase⟩
    · rw [htrace, hrep]
      exact .nil
    · rw [htrace]
      exact fun _ q hq => absurd hq List.not_mem_nil

/-- **Loop accounting.**  In every run, over requests with right checksums that
    stay in the proxy, the loop sends one reply for each request and ends exactly
    after the first `P_EXIT` or `P_KBOOT_BOOT`, if and only if no `P_EXIT` carries
    a non-zero argument whose low half is zero. -/
theorem accounted_iff_exitArgKept (s : State ρ) (hs : s.trace = []) (n : Nat)
    (hclean : Clean (uartproxyRun P none s n)) :
    Accounted Stops (uartproxyRun P none s n) ↔
      ∀ q ∈ requests (uartproxyRun P none s n).state.trace, ExitArgKept q.2 := by
  have hends := run_accounted P s hs n hclean
  generalize uartproxyRun P none s n = c at hends
  constructor
  · intro h q hq
    by_contra hlost
    have hstops : Stops q.2 := by
      unfold ExitArgKept at hlost
      push Not at hlost
      exact ⟨hlost.1, .inl hlost.2.1⟩
    by_cases hrun : c.phase = .running
    · exact h.running hrun q hq hstops
    · -- `q` can only be the last request, and the last request did end the loop
      obtain ⟨qs, last, hlist, -, hinit⟩ := h.ended hrun
      obtain ⟨qs', last', hlist', hlast', -⟩ := hends.ended hrun
      have hsame := (List.append_inj' (hlist.symm.trans hlist') rfl).2
      rw [hlist] at hq
      rcases List.mem_append.mp hq with hq | hq
      · exact hinit q hq hstops
      · rw [List.mem_singleton.mp hq] at hlost
        rw [← List.singleton_inj.mp hsame] at hlast'
        exact hlost ((ends_iff _).mp hlast').2
  · intro hkept
    have hiff : ∀ q ∈ requests c.state.trace, (Ends q.2 ↔ Stops q.2) := fun q hq =>
      ⟨fun h => ((ends_iff _).mp h).1, fun h => (ends_iff _).mpr ⟨h, hkept q hq⟩⟩
    refine ⟨hends.replied, fun hrun q hq hstops => ?_, fun hrun => ?_⟩
    · exact hends.running hrun q hq ((hiff q hq).mpr hstops)
    · obtain ⟨qs, last, hlist, hlast, hinit⟩ := hends.ended hrun
      refine ⟨qs, last, hlist, ?_, fun q hq hstops => ?_⟩
      · exact (hiff last (by rw [hlist]; simp)).mp hlast
      · exact hinit q hq ((hiff q (by rw [hlist]; simp [hq])).mpr hstops)

/-- The run in which the host sends `P_EXIT` with a 64-bit argument over the UART. -/
def exitRun (arg : U64) : Loop (IodevId → List Byte) :=
  uartproxyRun Platform.fifo none
    (.initial (pendingOn IODEV_UART (Host.cmdBytes REQ_PROXY (leWord (1 : U64) ++ leWord arg)))) 31

theorem accounted_exit_seven : Accounted Stops (exitRun 7) ∧ (exitRun 7).phase = .stopped 7 := by
  refine ⟨(accounted_iff_exitArgKept Platform.fifo _ rfl 31 ?_).mpr ?_, ?_⟩
  · unfold Clean
    decide +kernel
  · decide +kernel
  · decide +kernel

/-- The argument `2^32` becomes 0 on its way into `ret`, and the loop goes on. -/
theorem exit_ignored :
    ∃ q, requests (exitRun (2 ^ 32)).state.trace = [q] ∧ q.2.checksumOk = true ∧
      ¬ Leaves q.2 ∧ Stops q.2 ∧ (exitRun (2 ^ 32)).phase = .running := by
  refine ⟨(IODEV_UART, UartRequest.ofCmd REQ_PROXY (leWord (1 : U64) ++ leWord (2 ^ 32 : U64))
    (by simp)), ?_, ?_, ?_, ?_, ?_⟩
  · decide +kernel
  · decide +kernel
  · decide +kernel
  · decide +kernel
  · decide +kernel

end MiniHaywire.UartProxy
