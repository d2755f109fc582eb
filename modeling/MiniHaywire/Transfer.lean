import MiniHaywire.Framing
import MiniHaywire.HostReply

/-!
# Memory transfers end to end

`writemem` and `readmem` of the host against the loop of the device, over a link
that loses nothing in either direction (`Cable`).  The host writes everything it
has to say and then waits, so one call is one exchange: bytes arrive at the
device, the device polls for a while, and what it sent is what the host reads.

On the device, four bytes are hunted, the request behind them is served, and the
loop goes back to waiting with nothing left over (`Cable.Idle`).
-/

namespace MiniHaywire

/-! ### The host -/

namespace Host

/-- The other end of the link: it gets what the host wrote and sends something back. -/
abbrev Peer (σ : Type) := List Byte → σ → List Byte × σ

/-- How a call ended, what it left unread, and the state it left the peer in. -/
structure Session (σ α : Type) where
  result : Except Error α
  rest : List Byte
  peer : σ

def writemem {σ : Type} (peer : Peer σ) (enabledFeatures addr : Nat) (data : List Byte) (s : σ) :
    Session σ Unit :=
  match writememSend enabledFeatures addr data with
  | .error e => ⟨.error e, [], s⟩
  | .ok bytes =>
    let (stream, s) := peer bytes s
    let o := reply enabledFeatures 0x03AA55FF stream
    ⟨o.result.map fun _ => (), o.rest, s⟩

/-- What `readmem` writes to the link, for a size other than zero. -/
def readmemSend (addr size : Nat) : Except Error (List Byte) := do
  let req ← if addr < 2 ^ 64 ∧ size < 2 ^ 64 then Except.ok (leBytes 8 addr ++ leBytes 8 size)
    else .error .structError
  cmd 0x02AA55FF req

/-- `readmem` from the reply on: data, checksum, sentinel. -/
def readmemData (enabledFeatures size : Nat) (reply stream : List Byte) :
    Except Error (List Byte × List Byte) := do
  let checksum := field (reply.take 4) 0 4
  let (data, stream) ← readfull size stream
  let ccsum := dataChecksum enabledFeatures data
  if checksum ≠ ccsum then .error .uartChecksumError
  else if csumsDisabled enabledFeatures then do
    let (sentinel, stream) ← readfull 4 stream
    if leNat sentinel ≠ 0xB0CACC10 then .error .uartChecksumError else .ok (data, stream)
  else .ok (data, stream)

def readmem {σ : Type} (peer : Peer σ) (enabledFeatures addr size : Nat) (s : σ) :
    Session σ (List Byte) :=
  if size = 0 then ⟨.ok [], [], s⟩
  else
    match readmemSend addr size with
    | .error e => ⟨.error e, [], s⟩
    | .ok bytes =>
      let (stream, s) := peer bytes s
      let o := reply enabledFeatures 0x02AA55FF stream
      match o.result.bind (readmemData enabledFeatures size · o.rest) with
      | .error e => ⟨.error e, o.rest, s⟩
      | .ok (data, rest) => ⟨.ok data, rest, s⟩

def memreadPayload (addr size : U64) : List Byte := leWord addr ++ leWord size

theorem length_memreadPayload (addr size : U64) : (memreadPayload addr size).length ≤ 56 := by
  simp [memreadPayload]

theorem readmemSend_eq (addr size : U64) :
    readmemSend addr.toNat size.toNat = .ok (cmdBytes REQ_MEMREAD (memreadPayload addr size)) := by
  have hcmd : cmd REQ_MEMREAD.toNat (memreadPayload addr size) =
      .ok (cmdBytes REQ_MEMREAD (memreadPayload addr size)) :=
    cmd_eq (length_memreadPayload addr size)
  rw [readmemSend, if_pos ⟨addr.isLt, size.isLt⟩]
  exact hcmd

theorem reply_at (features : Nat) {t : Byte} (hboot : t ≠ 4) (hevent : t ≠ 5) (body : ReplyUnion)
    (after : List Byte) :
    ∃ log, reply features (typeWord t).toNat
      ((UartReply.mk (typeWord t) ST_OK body).bytes ++ after) = ⟨.ok body.bytes, after, log⟩ := by
  have htext : DeviceStream (csumsDisabled features) [] [] := .text (by decide)
  obtain ⟨log, -, heq⟩ := reply_stream rfl hboot hevent body after htext
  exact ⟨log, heq⟩

theorem reply_refused (features : Nat) {t : Byte} (hevent : t ≠ 5) {status : U32}
    (hstatus : status.toInt ≠ 0) (body : ReplyUnion) :
    (reply features (typeWord t).toNat (UartReply.mk (typeWord t) status body).bytes).result =
      .error (.uartRemoteError status.toInt) := by
  rw [← List.append_nil (UartReply.mk (typeWord t) status body).bytes]
  have hsync : sync [] ((UartReply.mk (typeWord t) status body).bytes ++ []) =
      .found (((UartReply.mk (typeWord t) status body).bytes ++ []).drop 3) := by
    conv_lhs => rw [marker_append_drop_bytes]
    rfl
  have hframe := frame_reply features (typeWord t).toNat hevent status body []
  have hbytes := replyFrame_bytes (typeWord t).toNat (typeWord t).toNat
    (UartReply.mk (typeWord t) status body) []
  rw [if_neg (not_not.mpr rfl), if_pos hstatus] at hbytes
  unfold reply
  rw [replyLoop, pass, hsync]
  dsimp only
  rw [hframe, hbytes]

theorem readmemData_ok {features : Nat} {dis : Bool} (hdis : csumsDisabled features = dis)
    (data : List Byte) :
    readmemData features data.length (ReplyUnion.mreply (MiniHaywire.dataChecksum dis data)).bytes
        (memwriteTrailer dis data) = .ok (data, []) := by
  have hsum : field ((ReplyUnion.mreply (MiniHaywire.dataChecksum dis data)).bytes.take 4) 0 4 =
      dataChecksum features data := by
    have htake : (ReplyUnion.mreply (MiniHaywire.dataChecksum dis data)).bytes.take 4 =
        leWord (MiniHaywire.dataChecksum dis data) := List.take_left' (by simp)
    have h := field_leWord (w := 32) rfl [] [] (MiniHaywire.dataChecksum dis data)
    rw [List.nil_append, List.append_nil] at h
    rw [htake, dataChecksum_eq, hdis]
    exact h
  have hread : ∀ rest, readfull data.length (data ++ rest) = .ok (data, rest) :=
    fun rest => readfull_append rfl
  unfold readmemData memwriteTrailer
  rw [hsum, hread]
  simp only [bind, Except.bind]
  rw [if_neg (not_not.mpr rfl), hdis]
  cases dis with
  | false => rfl
  | true => rfl

end Host

namespace UartProxy

open Marker

/-! ### The link -/

/-- A link that loses nothing in either direction, the only one in use.  What is
    queued goes out, in order, with the next write. -/
structure Cable {ρ : Type} (P : Platform ρ) (d : IodevId) where
  rx : ρ → List Byte
  sent : ρ → List Byte
  queued : ρ → List Byte
  arrive : List Byte → ρ → ρ
  lossless : Lossless P d rx
  alone : ∀ i env, i ≠ d → P.getUsage i env &&& USAGE_UARTPROXY = 0
  prompt : ∀ env, rx env ≠ [] → Ready P d env
  rx_arrive : ∀ bs env, rx (arrive bs env) = rx env ++ bs
  out_arrive : ∀ bs env, (sent (arrive bs env), queued (arrive bs env)) = (sent env, queued env)
  out_handleEvents : ∀ env,
    (sent (P.handleEvents d env), queued (P.handleEvents d env)) = (sent env, queued env)
  out_canRead : ∀ env,
    (sent (P.canRead d env).2, queued (P.canRead d env).2) = (sent env, queued env)
  out_read : ∀ n env,
    (sent (P.read d n env).env, queued (P.read d n env).env) = (sent env, queued env)
  out_queue : ∀ bs env, sent (P.queue d bs env) ++ queued (P.queue d bs env) =
    sent env ++ queued env ++ bs
  out_write : ∀ bs env, (sent (P.write d bs env), queued (P.write d bs env)) =
    (sent env ++ queued env ++ bs, [])
  out_flush : ∀ env, (sent (P.flush d env), queued (P.flush d env)) = (sent env, queued env)

namespace Cable

variable {ρ : Type} {P : Platform ρ} {d : IodevId} (C : Cable P d)

def out (s : State ρ) : List Byte × List Byte := (C.sent s.dev.env, C.queued s.dev.env)

def deliver (bs : List Byte) (c : Loop ρ) : Loop ρ :=
  { c with state := c.state.setEnv (C.arrive bs c.state.dev.env) }

/-- The device as the host sees it, given `n` polls to answer. -/
def peer (n : Nat) : Host.Peer (Loop ρ) := fun bs c =>
  let c' := (poll P)^[n] (C.deliver bs c)
  ((C.sent c'.state.dev.env).drop (C.sent c.state.dev.env).length, c')

/-- The device waits for a request, and everything sent so far was read. -/
structure Idle (c : Loop ρ) : Prop where
  running : c.phase = .running
  window : tail (c.state.iodevProxyBuffer d) ≠ marker
  rx : C.rx c.state.dev.env = []
  queued : C.queued c.state.dev.env = []

/-! ### The hunt -/

include C in
theorem poll_other {c : Loop ρ} (hrun : c.phase = .running) (hd : c.iodev ≠ d) :
    poll P c = { c with iodev := c.iodev + 1 } := by
  have hlook : look P c.iodev c.state = (false, c.state) := if_pos (C.alone _ _ hd)
  rw [poll_running hrun, hlook, ← hrun]
  rfl

include C in
theorem reach {c : Loop ρ} (hrun : c.phase = .running) :
    ∃ n, (poll P)^[n] c = { c with iodev := d } := by
  have hall : ∀ k i, (d - i).val = k → ∃ n, (poll P)^[n] { c with iodev := i } =
      { c with iodev := d } := by
    intro k
    induction k with
    | zero =>
      intro i hk
      have hi : i = d := (sub_eq_zero.mp (Fin.ext hk)).symm
      exact ⟨0, by rw [hi]; rfl⟩
    | succ k ih =>
      intro i hk
      have hi : i ≠ d := by
        rintro rfl
        simp at hk
      obtain ⟨n, hn⟩ := ih (i + 1) (by omega)
      refine ⟨n + 1, ?_⟩
      rw [Function.iterate_succ_apply, C.poll_other (c := { c with iodev := i }) hrun hi]
      exact hn
  exact hall _ c.iodev rfl

theorem look_byte {s : State ρ} {b : Byte} {rest : List Byte}
    (hrx : C.rx s.dev.env = b :: rest) :
    ∃ env, C.rx env = rest ∧ (C.sent env, C.queued env) = C.out s ∧
      look P d s = (markerSeen (shiftIn (s.iodevProxyBuffer d) b), (s.setEnv env).shift d b) := by
  obtain ⟨b', hrx', heq⟩ := C.lossless.look_eq (C.prompt s.dev.env (by rw [hrx]; simp))
  rw [hrx] at hrx'
  obtain ⟨rfl, hrest⟩ := List.cons.inj hrx'
  refine ⟨_, hrest.symm, ?_, heq⟩
  exact ((C.out_read _ _).trans (C.out_canRead _)).trans (C.out_handleEvents _)

theorem look_none {s : State ρ} (hrx : C.rx s.dev.env = []) :
    ∃ env, C.rx env = [] ∧ (C.sent env, C.queued env) = C.out s ∧
      look P d s = (false, s.setEnv env) := by
  by_cases husage : P.getUsage d s.dev.env &&& USAGE_UARTPROXY = 0
  · exact ⟨s.dev.env, hrx, rfl, if_pos husage⟩
  have hnot : (P.canRead d (P.handleEvents d s.dev.env)).1 = 0 := by
    by_contra hready
    apply C.lossless.ready _ hready
    rw [C.lossless.handleEvents, hrx]
  refine ⟨(P.canRead d (P.handleEvents d s.dev.env)).2, ?_, ?_, ?_⟩
  · rw [C.lossless.canRead, C.lossless.handleEvents, hrx]
  · exact (C.out_canRead _).trans (C.out_handleEvents _)
  · unfold look
    rw [if_neg husage]
    exact if_pos hnot

/-- The next byte enters the window, and a request is read if the marker was in it. -/
theorem next_byte {c : Loop ρ} {b : Byte} {rest : List Byte} (hrun : c.phase = .running)
    (hrx : C.rx c.state.dev.env = b :: rest) :
    ∃ n env, C.rx env = rest ∧ (C.sent env, C.queued env) = C.out c.state ∧
      (poll P)^[n] c =
        if tail (c.state.iodevProxyBuffer d) = marker then
          ⟨(serve P d ((c.state.setEnv env).shift d b)).1, 0,
            (serve P d ((c.state.setEnv env).shift d b)).2⟩
        else ⟨(c.state.setEnv env).shift d b, d + 1, .running⟩ := by
  obtain ⟨n, hn⟩ := C.reach hrun
  obtain ⟨env, henv, hout, hlook⟩ := C.look_byte hrx
  refine ⟨n + 1, env, henv, hout, ?_⟩
  rw [Function.iterate_succ_apply', hn, poll_running (c := { c with iodev := d }) hrun, hlook]
  simp only [markerSeen_shiftIn]

/-- The parts of the state the hunt leaves alone. -/
structure Unmoved (s s' : State ρ) : Prop where
  mem : s'.dev.mem = s.dev.mem
  mode : s'.disableDataCsums = s.disableDataCsums
  out : C.out s' = C.out s

theorem hunt {c : Loop ρ} {t : Byte} {rest : List Byte} (hrun : c.phase = .running)
    (hwin : tail (c.state.iodevProxyBuffer d) ≠ marker)
    (hrx : C.rx c.state.dev.env = marker ++ (t :: rest)) :
    ∃ n s, C.Unmoved c.state s ∧ s.iodevProxyBuffer d = typeWord t ∧ C.rx s.dev.env = rest ∧
      (poll P)^[n] c = ⟨(serve P d s).1, 0, (serve P d s).2⟩ := by
  have hshift : ∀ (s : State ρ) env b, ((s.setEnv env).shift d b).iodevProxyBuffer d =
      shiftIn (s.iodevProxyBuffer d) b := fun _ _ _ => Function.update_self _ _ _
  obtain ⟨a₀, a₁, a₂, htail⟩ := tail_cons (c.state.iodevProxyBuffer d)
  obtain ⟨n₀, e₀, hrx₀, hout₀, hn₀⟩ := C.next_byte hrun hrx
  rw [if_neg hwin] at hn₀
  have ht₀ : tail (((c.state.setEnv e₀).shift d 0xFF).iodevProxyBuffer d) = [a₁, a₂, 0xFF] := by
    rw [hshift, tail_shiftIn, htail]
    rfl
  generalize hs₀ : (c.state.setEnv e₀).shift d 0xFF = s₀ at hn₀ ht₀
  obtain ⟨n₁, e₁, hrx₁, hout₁, hn₁⟩ := C.next_byte (c := ⟨s₀, d + 1, .running⟩) rfl
    (by rw [← hs₀]; exact hrx₀)
  rw [if_neg (by rw [ht₀]; simp [marker])] at hn₁
  have ht₁ : tail (((s₀.setEnv e₁).shift d 0x55).iodevProxyBuffer d) = [a₂, 0xFF, 0x55] := by
    rw [hshift, tail_shiftIn, ht₀]
    rfl
  generalize hs₁ : (s₀.setEnv e₁).shift d 0x55 = s₁ at hn₁ ht₁
  obtain ⟨n₂, e₂, hrx₂, hout₂, hn₂⟩ := C.next_byte (c := ⟨s₁, d + 1, .running⟩) rfl
    (by rw [← hs₁]; exact hrx₁)
  rw [if_neg (by rw [ht₁]; simp [marker])] at hn₂
  have ht₂ : tail (((s₁.setEnv e₂).shift d 0xAA).iodevProxyBuffer d) = marker := by
    rw [hshift, tail_shiftIn, ht₁]
    rfl
  generalize hs₂ : (s₁.setEnv e₂).shift d 0xAA = s₂ at hn₂ ht₂
  obtain ⟨n₃, e₃, hrx₃, hout₃, hn₃⟩ := C.next_byte (c := ⟨s₂, d + 1, .running⟩) rfl
    (by rw [← hs₂]; exact hrx₂)
  rw [if_pos ht₂] at hn₃
  refine ⟨n₃ + (n₂ + (n₁ + n₀)), (s₂.setEnv e₃).shift d t, ⟨?_, ?_, ?_⟩, ?_, hrx₃, ?_⟩
  · subst hs₂ hs₁ hs₀
    rfl
  · subst hs₂ hs₁ hs₀
    rfl
  · subst hs₂ hs₁ hs₀
    exact hout₃.trans (hout₂.trans (hout₁.trans hout₀))
  · rw [hshift]
    exact shiftIn_of_marker ht₂ t
  · rw [Function.iterate_add_apply, Function.iterate_add_apply, Function.iterate_add_apply, hn₀,
      hn₁, hn₂, hn₃]

/-- No request is under way or on its way. -/
structure Quiet (c : Loop ρ) : Prop where
  running : c.phase = .running
  free : Free marker (tail (c.state.iodevProxyBuffer d) ++ C.rx c.state.dev.env)

/-- A poll of a quiet device at most takes a byte; the host sees nothing of it. -/
theorem quiet_poll {c : Loop ρ} (h : C.Quiet c) :
    C.Quiet (poll P c) ∧ C.Unmoved c.state (poll P c).state ∧
      (C.Idle c → C.Idle (poll P c)) := by
  by_cases hd : c.iodev = d
  swap
  · rw [C.poll_other h.running hd]
    exact ⟨⟨h.running, h.free⟩, ⟨rfl, rfl, rfl⟩,
      fun hi => ⟨hi.running, hi.window, hi.rx, hi.queued⟩⟩
  obtain ⟨s, i, phase⟩ := c
  obtain rfl : i = d := hd
  rw [poll_running h.running]
  dsimp only
  cases hrx : C.rx s.dev.env with
  | cons b rest =>
    obtain ⟨env, henv, hout, hlook⟩ := C.look_byte hrx
    have hfree := h.free
    rw [hrx] at hfree
    have hnot : ¬ markerSeen (shiftIn (s.iodevProxyBuffer i) b) = true := by
      rw [markerSeen_shiftIn]
      intro heq
      rw [heq] at hfree
      exact hfree.not_prefix (List.prefix_append _ _)
    rw [hlook, if_neg hnot]
    refine ⟨⟨rfl, ?_⟩, ⟨rfl, rfl, hout⟩, fun hi => absurd (hi.rx.symm.trans hrx) (by simp)⟩
    have hwin : ((s.setEnv env).shift i b).iodevProxyBuffer i = shiftIn (s.iodevProxyBuffer i) b :=
      Function.update_self _ _ _
    have hrest : C.rx ((s.setEnv env).shift i b).dev.env = rest := henv
    rw [hwin, hrest, tail_shiftIn]
    obtain ⟨a₀, a₁, a₂, htail⟩ := tail_cons (s.iodevProxyBuffer i)
    rw [htail] at hfree ⊢
    exact hfree.of_cons
  | nil =>
    obtain ⟨env, henv, hout, hlook⟩ := C.look_none hrx
    rw [hlook]
    refine ⟨⟨rfl, ?_⟩, ⟨rfl, rfl, hout⟩, fun hi => ⟨rfl, hi.window, henv, ?_⟩⟩
    · have hfree := h.free
      rw [hrx, ← henv] at hfree
      exact hfree
    · exact (Prod.mk.inj hout).2.trans hi.queued

theorem quiet_polls {c : Loop ρ} (h : C.Quiet c) (n : Nat) :
    C.Quiet ((poll P)^[n] c) ∧ C.Unmoved c.state ((poll P)^[n] c).state ∧
      (C.Idle c → C.Idle ((poll P)^[n] c)) := by
  induction n with
  | zero => exact ⟨h, ⟨rfl, rfl, rfl⟩, id⟩
  | succ n ih =>
    obtain ⟨hquiet, hsame, hidle⟩ := ih
    obtain ⟨hquiet', hsame', hidle'⟩ := C.quiet_poll hquiet
    rw [Function.iterate_succ_apply']
    exact ⟨hquiet', ⟨hsame'.mem.trans hsame.mem, hsame'.mode.trans hsame.mode,
      hsame'.out.trans hsame.out⟩, fun hi => hidle' (hidle hi)⟩

/-! ### Serving a transfer -/

/-- What a served transfer leaves behind: this memory, these bytes unread, and
    these bytes sent. -/
structure Served (s s' : State ρ) (mem : Mem 32) (rest bytes : List Byte) : Prop where
  mem : s'.dev.mem = mem
  mode : s'.disableDataCsums = s.disableDataCsums
  rx : C.rx s'.dev.env = rest
  out : C.out s' = (C.sent s.dev.env ++ C.queued s.dev.env ++ bytes, [])

theorem Served.of_unmoved {s s₁ s' : State ρ} {mem : Mem 32} {rest bytes : List Byte}
    (h : C.Served s₁ s' mem rest bytes) (hsame : C.Unmoved s s₁) :
    C.Served s s' mem rest bytes := by
  obtain ⟨hsent, hqueued⟩ := Prod.mk.inj hsame.out
  refine ⟨h.mem, h.mode.trans hsame.mode, h.rx, ?_⟩
  rw [h.out, hsent, hqueued]

def replyTrailer (r : UartRequest) (h : Handled ρ) : List Byte :=
  if r.type = REQ_MEMREAD ∧ h.status = ST_OK then
    Host.memwriteTrailer h.state.disableDataCsums
      (h.state.dev.mem.load (lo32 r.mrequest.addr) (lo32 r.mrequest.size).toNat)
  else []

theorem answer_out (r : UartRequest) (h : Handled ρ) :
    C.out (answer P d r h) = (C.sent h.state.dev.env ++ C.queued h.state.dev.env ++
      ((UartReply.mk r.type h.status h.body).bytes ++ replyTrailer r h), []) := by
  have hend : ∀ s : State ρ, C.out ((s.iodevWrite P d []).iodevFlush P d) =
      (C.sent s.dev.env ++ C.queued s.dev.env, []) := by
    intro s
    have hwrite := C.out_write [] s.dev.env
    rw [List.append_nil] at hwrite
    exact (C.out_flush _).trans hwrite
  have hdata : ∀ (m : MemRequest) (s : State ρ), C.sent (sendData P d m s).dev.env ++
      C.queued (sendData P d m s).dev.env = C.sent s.dev.env ++ C.queued s.dev.env ++
        Host.memwriteTrailer s.disableDataCsums
          (s.dev.mem.load (lo32 m.addr) (lo32 m.size).toNat) := by
    intro m s
    unfold sendData Host.memwriteTrailer
    dsimp only
    by_cases hdis : s.disableDataCsums = true
    · rw [if_pos hdis, if_pos (by exact hdis), ← List.append_assoc]
      exact (C.out_queue _ _).trans (congrArg (· ++ _) (C.out_queue _ _))
    · rw [if_neg hdis, if_neg (by exact hdis), List.append_nil]
      exact C.out_queue _ _
  unfold answer replyTrailer
  dsimp only
  rw [hend]
  split
  · rw [hdata, ← List.append_assoc]
    exact congrArg (fun l => (l ++ _, _)) (C.out_queue _ _)
  · rw [List.append_nil]
    exact congrArg (fun l => (l, _)) (C.out_queue _ _)

theorem answer_same (r : UartRequest) (h : Handled ρ) :
    (answer P d r h).dev.mem = h.state.dev.mem ∧
      (answer P d r h).disableDataCsums = h.state.disableDataCsums := by
  unfold answer
  dsimp only
  split
  · unfold sendData
    dsimp only
    split <;> exact ⟨rfl, rfl⟩
  · exact ⟨rfl, rfl⟩

/-- A request is read as the host sent it, and if it is handled to the end it is answered in
    full. -/
theorem serve_handled {q : HostRequest} {bytes : List Byte} {s : State ρ}
    (hq : q.send = .ok bytes) (hwin : s.iodevProxyBuffer d = q.type)
    (hrx : C.rx s.dev.env = bytes.drop 4) :
    ∃ r s₁, Decodes q r ∧ C.Unmoved s s₁ ∧ C.rx s₁.dev.env = q.trailer ∧
      ∀ {h : Handled ρ} {mem : Mem 32} {rest : List Byte}, dispatch P d r s₁ = h →
        h.phase = .running → h.state.dev.mem = mem →
        h.state.disableDataCsums = s₁.disableDataCsums → C.rx h.state.dev.env = rest →
        C.out h.state = C.out s₁ →
        (serve P d s).2 = .running ∧ C.Served s (serve P d s).1 mem rest
          ((UartReply.mk r.type h.status h.body).bytes ++ replyTrailer r h) := by
  rw [← List.append_nil (List.drop 4 _)] at hrx
  obtain ⟨r, hr, henv, heq⟩ := C.lossless.serve_request hq hwin hrx
  have hread := C.out_read 60 s.dev.env
  refine ⟨r, { (s.setEnv (P.read d 60 s.dev.env).env).emit (.request d r) with
    uartproxyIodev := d }, hr, ⟨rfl, rfl, hread⟩, by rw [List.append_nil] at henv; exact henv, ?_⟩
  intro h mem rest hdisp hphase hmem hmode hrest hout
  obtain ⟨hmem', hmode'⟩ := answer_same (P := P) (d := d) r h
  obtain ⟨hsent, hqueued⟩ := Prod.mk.inj (hout.trans hread)
  have hhandle : serve P d s = (answer P d r h, .running) := by
    rw [heq]
    unfold handle
    dsimp only
    rw [hdisp, hphase, if_neg (by decide)]
  rw [hhandle]
  refine ⟨rfl, hmem'.trans hmem, hmode'.trans hmode, (C.lossless.answer d r h).trans hrest, ?_⟩
  rw [C.answer_out, hsent, hqueued]

theorem store_probe {m : MemRequest} {data : List Byte} (hsize : m.size.toNat = data.length)
    (hshort : data.length < 2 ^ 32) (s : State ρ) :
    (probe m s).dev.mem.store (lo32 m.addr) data = s.dev.mem.store (lo32 m.addr) data := by
  funext x
  rw [Mem.store_apply (by omega), Mem.store_apply (by omega)]
  by_cases hin : (x - lo32 m.addr).toNat < data.length
  · rw [if_pos hin, if_pos hin]
  rw [if_neg hin, if_neg hin]
  unfold probe
  dsimp only
  by_cases hzero : m.size = 0
  · rw [if_neg (not_not.mpr hzero)]
    rfl
  rw [if_pos hzero]
  have hpos : 0 < m.size.toNat := by
    rcases Nat.eq_zero_or_pos m.size.toNat with h | h
    · exact absurd (BitVec.eq_of_toNat_eq h) hzero
    · exact h
  have hfirst : x ≠ lo32 m.addr := by
    rintro rfl
    apply hin
    rw [BitVec.sub_self]
    exact hpos.trans_eq hsize
  have hlast : x ≠ lo32 (m.addr + m.size - 1) := by
    rintro rfl
    apply hin
    simp only [lo32, BitVec.toNat_sub, BitVec.toNat_add, BitVec.toNat_setWidth]
    have haddr := m.addr.isLt
    have hone : (1 : U64).toNat = 1 := rfl
    omega
  exact (Function.update_of_ne hlast _ _).trans (Function.update_of_ne hfirst _ _)

/-- Data that is in memory with the right checksum, and followed by the sentinel
    where there is one, is acknowledged. -/
theorem verifyWrite_ok {m : MemRequest} {s : State ρ} {data : List Byte}
    (hload : s.dev.mem.load (lo32 m.addr) (lo32 m.size).toNat = data)
    (hsum : m.dchecksum = dataChecksum s.disableDataCsums data)
    (hrx : C.rx s.dev.env = if s.disableDataCsums then leWord DATA_END_SENTINEL else []) :
    ∃ env, C.rx env = [] ∧ (C.sent env, C.queued env) = C.out s ∧ verifyWrite P d m s =
      ⟨(s.noteMode d).setEnv env, .running, ST_OK, .mreply m.dchecksum⟩ := by
  have hval : s.dataChecksum (lo32 m.addr) (lo32 m.size) = m.dchecksum := by
    rw [State.dataChecksum, hload, hsum]
  unfold verifyWrite
  dsimp only
  rw [hval, if_neg (not_not.mpr rfl)]
  by_cases hdis : s.disableDataCsums = true
  · rw [if_pos hdis, ← List.append_nil (leWord DATA_END_SENTINEL)] at hrx
    obtain ⟨hret, hdata, hrest⟩ := C.lossless.iodevRead (s := s.noteMode d) (n := 4) hrx rfl
    have hfour : ¬ (lo32 ((4 : U32).setWidth 64) ≠ 4 ∨
        BitVec.ofNat 32 (leNat (ljust 4 (leWord DATA_END_SENTINEL))) ≠ DATA_END_SENTINEL) := by
      decide
    refine ⟨_, hrest, C.out_read _ _, ?_⟩
    rw [if_pos (by exact hdis)]
    unfold checkSentinel
    dsimp only
    rw [hret, hdata, if_neg hfour]
  · rw [if_neg hdis] at hrx
    refine ⟨s.dev.env, hrx, rfl, ?_⟩
    rw [if_neg (by exact hdis)]
    rfl

theorem reqMemwrite_ok {m : MemRequest} {s : State ρ} {data : List Byte}
    (hsize : m.size.toNat = data.length) (hshort : data.length < 2 ^ 32)
    (hsum : m.dchecksum = dataChecksum s.disableDataCsums data)
    (hrx : C.rx s.dev.env = Host.memwriteTrailer s.disableDataCsums data) :
    ∃ s', reqMemwrite P d m s = ⟨s', .running, ST_OK, .mreply m.dchecksum⟩ ∧
      s'.dev.mem = s.dev.mem.store (lo32 m.addr) data ∧
      s'.disableDataCsums = s.disableDataCsums ∧ C.rx s'.dev.env = [] ∧ C.out s' = C.out s := by
  obtain ⟨hrest, hwrite⟩ := C.lossless.reqMemwrite_eq hrx hsize hshort
  have hmode : (probe m s).disableDataCsums = s.disableDataCsums := (probe_recorded m s).mode
  have hlo : (lo32 m.size).toNat = data.length := by
    rw [lo32, BitVec.toNat_setWidth, hsize, Nat.mod_eq_of_lt hshort]
  have hout := C.out_read (lo32 m.size) s.dev.env
  generalize (P.read d (lo32 m.size) s.dev.env).env = env at hrest hwrite hout
  generalize hs₁ : ((probe m s).setEnv env).store (lo32 m.addr) data = s₁ at hwrite
  have hmem₁ : s₁.dev.mem = (probe m s).dev.mem.store (lo32 m.addr) data := by rw [← hs₁]; rfl
  have hmode₁ : s₁.disableDataCsums = s.disableDataCsums := by rw [← hs₁]; exact hmode
  have henv₁ : s₁.dev.env = env := by rw [← hs₁]; rfl
  have hload : s₁.dev.mem.load (lo32 m.addr) (lo32 m.size).toNat = data := by
    rw [hmem₁, hlo]
    exact Mem.load_store (by omega) _ _
  obtain ⟨env', hrx', hout', hverify⟩ := C.verifyWrite_ok (m := m) hload
    (by rw [hmode₁]; exact hsum) (by rw [henv₁, hmode₁]; exact hrest)
  refine ⟨(s₁.noteMode d).setEnv env', hwrite.trans hverify, ?_, hmode₁, hrx', ?_⟩
  · exact hmem₁.trans (store_probe hsize hshort s)
  · refine hout'.trans ?_
    rw [out, henv₁]
    exact hout

theorem serve_write {features addr : Nat} {data bytes : List Byte} {s : State ρ}
    (hq : (HostRequest.memwrite features addr data).send = .ok bytes)
    (hshort : data.length < 2 ^ 32) (hmode : Host.csumsDisabled features = s.disableDataCsums)
    (hwin : s.iodevProxyBuffer d = REQ_MEMWRITE) (hrx : C.rx s.dev.env = bytes.drop 4) :
    (serve P d s).2 = .running ∧ C.Served s (serve P d s).1
      (s.dev.mem.store (lo32 (BitVec.ofNat 64 addr)) data) []
      (UartReply.mk REQ_MEMWRITE ST_OK (.mreply (dataChecksum s.disableDataCsums data))).bytes := by
  obtain ⟨r, s₁, hr, hsame, htrailer, hserve⟩ := C.serve_handled hq hwin hrx
  rw [← hsame.mode] at hmode
  have hm : r.mrequest = ⟨BitVec.ofNat 64 addr, BitVec.ofNat 64 data.length,
      dataChecksum s₁.disableDataCsums data⟩ := by
    rw [← hmode]
    exact UartRequest.mrequest_eq hr.2.1
  have hlen : r.mrequest.size.toNat = data.length := by
    rw [hm]
    exact Nat.mod_eq_of_lt (by omega)
  have hdata : C.rx s₁.dev.env = Host.memwriteTrailer s₁.disableDataCsums data := by
    rw [htrailer, ← hmode]
    rfl
  obtain ⟨s', hdisp, hmem', hmode', hrx', hout'⟩ := C.reqMemwrite_ok (m := r.mrequest)
    hlen hshort (by rw [hm]) hdata
  rw [← dispatch_memwrite hr.1] at hdisp
  have hnone : replyTrailer r ⟨s', .running, ST_OK, .mreply r.mrequest.dchecksum⟩ = [] := by
    refine if_neg (fun hread => ?_)
    rw [hr.1] at hread
    exact absurd hread.1 (by decide : REQ_MEMWRITE ≠ REQ_MEMREAD)
  have hserved := hserve hdisp rfl hmem' hmode' hrx' hout'
  rw [hnone, List.append_nil, hr.1, hm, hsame.mem, hsame.mode] at hserved
  exact hserved

theorem reqMemread_ok {m : MemRequest} (hsize : m.size ≠ 0) (s : State ρ) :
    ∃ s', reqMemread d m s = ⟨s', .running, ST_OK,
        .mreply (s.dataChecksum (lo32 m.addr) (lo32 m.size))⟩ ∧
      s'.dev.mem = s.dev.mem ∧ s'.disableDataCsums = s.disableDataCsums ∧
      s'.dev.env = s.dev.env := by
  refine ⟨((s.clearExcCount.guard GUARD_RETURN).noteMode d).guard GUARD_OFF, ?_, rfl, rfl, rfl⟩
  exact if_neg hsize

theorem serve_read {addr size : U64} (hsize : size ≠ 0) (hshort : size.toNat < 2 ^ 32)
    {s : State ρ} (hwin : s.iodevProxyBuffer d = REQ_MEMREAD)
    (hrx : C.rx s.dev.env =
      (Host.cmdBytes REQ_MEMREAD (Host.memreadPayload addr size)).drop 4) :
    (serve P d s).2 = .running ∧ C.Served s (serve P d s).1 s.dev.mem []
      ((UartReply.mk REQ_MEMREAD ST_OK (.mreply (dataChecksum s.disableDataCsums
          (s.dev.mem.load (lo32 addr) size.toNat)))).bytes ++
        Host.memwriteTrailer s.disableDataCsums (s.dev.mem.load (lo32 addr) size.toNat)) := by
  have hq : (HostRequest.memread (Host.memreadPayload addr size)).send =
      .ok (Host.cmdBytes REQ_MEMREAD (Host.memreadPayload addr size)) :=
    Host.cmd_eq (Host.length_memreadPayload addr size)
  obtain ⟨r, s₁, hr, hsame, hrx₁, hserve⟩ := C.serve_handled hq hwin hrx
  have htype : r.type = REQ_MEMREAD := hr.1
  have hpayload : r.payload = leWord addr ++ leWord size ++ leWord (0 : U32) ++
      List.replicate 36 0 := by
    rw [hr.2.1]
    simp only [HostRequest.payload, Host.memreadPayload, ljust, List.length_append, length_leWord,
      List.append_assoc]
    rfl
  have hm : r.mrequest = ⟨addr, size, 0⟩ := UartRequest.mrequest_eq hpayload
  have hlo : (lo32 r.mrequest.size).toNat = size.toNat := by
    rw [hm]
    exact (BitVec.toNat_setWidth ..).trans (Nat.mod_eq_of_lt hshort)
  obtain ⟨s', hdisp, hmem', hmode', henv'⟩ := reqMemread_ok (d := d) (m := r.mrequest)
    (by rw [hm]; exact hsize) s₁
  have hbranch : dispatch P d r s₁ = reqMemread d r.mrequest s₁ := by
    rw [dispatch, htype, if_neg (by decide), if_neg (by decide), if_pos rfl]
  have hrx' : C.rx s'.dev.env = [] := by
    rw [henv', hrx₁]
    rfl
  have hserved := hserve (hbranch.trans hdisp) rfl (hmem'.trans hsame.mem) hmode' hrx'
    (by rw [out, henv', out])
  have htrailer : replyTrailer r ⟨s', .running, ST_OK,
      .mreply (s₁.dataChecksum (lo32 r.mrequest.addr) (lo32 r.mrequest.size))⟩ =
      Host.memwriteTrailer s.disableDataCsums (s.dev.mem.load (lo32 addr) size.toNat) := by
    refine (if_pos ⟨htype, rfl⟩).trans ?_
    dsimp only
    rw [hmode', hmem', hlo, hm, hsame.mem, hsame.mode]
  have hsum : s₁.dataChecksum (lo32 r.mrequest.addr) (lo32 r.mrequest.size) =
      dataChecksum s.disableDataCsums (s.dev.mem.load (lo32 addr) size.toNat) := by
    rw [State.dataChecksum, hlo, hm, hsame.mem, hsame.mode]
  rw [htrailer, htype, hsum] at hserved
  exact hserved

/-! ### One exchange -/

/-- A request to a waiting device is served.  With nothing left of it that looks
    like a request, that is all that happens. -/
theorem exchange {c : Loop ρ} (hidle : C.Idle c) {q : HostRequest} {bytes : List Byte}
    (mem : Mem 32) (rest answer : List Byte) (hq : q.send = .ok bytes)
    (hfree : Free marker ([0x55, 0xAA, q.code] ++ rest))
    (hserve : ∀ s, C.Unmoved c.state s → s.iodevProxyBuffer d = q.type →
      C.rx s.dev.env = bytes.drop 4 →
      (serve P d s).2 = .running ∧ C.Served s (serve P d s).1 mem rest answer) :
    ∃ N, ∀ n, N ≤ n → (C.peer n bytes c).1 = answer ∧
      (rest = [] → C.Idle (C.peer n bytes c).2) ∧
      (C.peer n bytes c).2.state.dev.mem = mem ∧
      (C.peer n bytes c).2.state.disableDataCsums = c.state.disableDataCsums := by
  have hout : C.out (C.deliver bytes c).state = C.out c.state := C.out_arrive _ _
  have hrx : C.rx (C.deliver bytes c).state.dev.env = marker ++ (q.code :: bytes.drop 4) := by
    refine (C.rx_arrive _ _).trans ?_
    rw [hidle.rx, List.nil_append]
    exact (send_drop hq).1
  obtain ⟨N, s, hsame, hwin, hrest, hN⟩ :=
    C.hunt (c := C.deliver bytes c) hidle.running hidle.window hrx
  have hsame' : C.Unmoved c.state s := ⟨hsame.mem, hsame.mode, hsame.out.trans hout⟩
  obtain ⟨hphase, hserved⟩ := hserve s hsame' (by rw [hwin, q.type_eq]) hrest
  have hserved' := hserved.of_unmoved C hsame'
  have htail : tail ((serve P d s).1.iodevProxyBuffer d) = [0x55, 0xAA, q.code] := by
    rw [window_serve, hwin, tail_typeWord]
  have hquiet : C.Quiet ⟨(serve P d s).1, 0, (serve P d s).2⟩ := by
    refine ⟨hphase, ?_⟩
    dsimp only
    rw [htail, hserved.rx]
    exact hfree
  have hdone : rest = [] → C.Idle ⟨(serve P d s).1, 0, (serve P d s).2⟩ := by
    intro hnil
    refine ⟨hphase, ?_, hserved.rx.trans hnil, (Prod.mk.inj hserved.out).2⟩
    dsimp only
    rw [htail]
    simp [marker]
  refine ⟨N, fun n hn => ?_⟩
  obtain ⟨k, rfl⟩ := Nat.exists_eq_add_of_le' hn
  obtain ⟨-, hkept, hidle'⟩ := C.quiet_polls hquiet k
  have hpolls : (poll P)^[k + N] (C.deliver bytes c) =
      (poll P)^[k] ⟨(serve P d s).1, 0, (serve P d s).2⟩ := by
    rw [Function.iterate_add_apply, hN]
  have hsent := (Prod.mk.inj (hkept.out.trans hserved'.out)).1
  unfold peer
  dsimp only
  rw [hpolls]
  refine ⟨?_, fun hnil => hidle' (hdone hnil), hkept.mem.trans hserved.mem,
    hkept.mode.trans hserved'.mode⟩
  rw [hsent, hidle.queued, List.append_nil, List.drop_left]

theorem writemem_ok {c : Loop ρ} (hidle : C.Idle c) {features addr : Nat} {data : List Byte}
    (hmode : Host.csumsDisabled features = c.state.disableDataCsums) (haddr : addr < 2 ^ 64)
    (hshort : data.length < 2 ^ 32) :
    ∃ N, ∀ n, N ≤ n →
      (Host.writemem (C.peer n) features addr data c).result = .ok () ∧
      (Host.writemem (C.peer n) features addr data c).rest = [] ∧
      C.Idle (Host.writemem (C.peer n) features addr data c).peer ∧
      (Host.writemem (C.peer n) features addr data c).peer.state.dev.mem =
        c.state.dev.mem.store (lo32 (BitVec.ofNat 64 addr)) data ∧
      (Host.writemem (C.peer n) features addr data c).peer.state.disableDataCsums =
        c.state.disableDataCsums := by
  have hsize : data.length < 2 ^ 64 := by omega
  have hsend := Host.writememSend_ofNat features haddr hsize
  have hq : (HostRequest.memwrite features addr data).send = .ok _ := hsend
  obtain ⟨N, hN⟩ := C.exchange hidle (c.state.dev.mem.store (lo32 (BitVec.ofNat 64 addr)) data) []
    (UartReply.mk REQ_MEMWRITE ST_OK (.mreply (dataChecksum c.state.disableDataCsums data))).bytes
      hq (by decide : Free marker [0x55, 0xAA, 3]) (by
    intro s hsame hwin hrx
    rw [← hsame.mem, ← hsame.mode]
    exact C.serve_write hq hshort (hmode.trans hsame.mode.symm) hwin hrx)
  refine ⟨N, fun n hn => ?_⟩
  obtain ⟨hstream, hidle', hmem', hmode'⟩ := hN n hn
  obtain ⟨log, hreply⟩ := Host.reply_at features (t := 3) (by decide) (by decide)
    (.mreply (dataChecksum c.state.disableDataCsums data)) []
  have htype : typeWord 3 = REQ_MEMWRITE := by decide
  rw [htype, List.append_nil, ← hstream] at hreply
  have hcmd : Host.reply features 0x03AA55FF _ = _ := hreply
  unfold Host.writemem
  rw [hsend]
  dsimp only
  rw [hcmd]
  exact ⟨rfl, rfl, hidle' rfl, hmem', hmode'⟩

theorem readmem_ok {c : Loop ρ} (hidle : C.Idle c) {features addr size : Nat}
    (hmode : Host.csumsDisabled features = c.state.disableDataCsums) (haddr : addr < 2 ^ 64)
    (hshort : size < 2 ^ 32) :
    ∃ N, ∀ n, N ≤ n →
      (Host.readmem (C.peer n) features addr size c).result =
        .ok (c.state.dev.mem.load (lo32 (BitVec.ofNat 64 addr)) size) ∧
      (Host.readmem (C.peer n) features addr size c).rest = [] ∧
      C.Idle (Host.readmem (C.peer n) features addr size c).peer ∧
      (Host.readmem (C.peer n) features addr size c).peer.state.dev.mem = c.state.dev.mem := by
  by_cases hzero : size = 0
  · -- the host does not even ask
    refine ⟨0, fun n _ => ?_⟩
    rw [Host.readmem, if_pos hzero, hzero]
    exact ⟨rfl, rfl, hidle, rfl⟩
  obtain ⟨a, rfl⟩ : ∃ a : U64, a.toNat = addr := ⟨.ofNat 64 addr, Nat.mod_eq_of_lt haddr⟩
  obtain ⟨k, rfl⟩ : ∃ k : U64, k.toNat = size := ⟨.ofNat 64 size, Nat.mod_eq_of_lt (by omega)⟩
  have ha : BitVec.ofNat 64 a.toNat = a := by simp
  have hk : k ≠ 0 := by
    rintro rfl
    exact hzero rfl
  have hsend := Host.readmemSend_eq a k
  have hq : (HostRequest.memread (Host.memreadPayload a k)).send =
      .ok (Host.cmdBytes REQ_MEMREAD (Host.memreadPayload a k)) :=
    Host.cmd_eq (Host.length_memreadPayload a k)
  obtain ⟨N, hN⟩ := C.exchange hidle c.state.dev.mem []
    ((UartReply.mk REQ_MEMREAD ST_OK (.mreply (dataChecksum c.state.disableDataCsums
          (c.state.dev.mem.load (lo32 a) k.toNat)))).bytes ++
        Host.memwriteTrailer c.state.disableDataCsums (c.state.dev.mem.load (lo32 a) k.toNat)) hq
      (by decide : Free marker [0x55, 0xAA, 2]) (by
    intro s hsame hwin hrx
    rw [← hsame.mem, ← hsame.mode]
    exact C.serve_read hk hshort hwin hrx)
  refine ⟨N, fun n hn => ?_⟩
  obtain ⟨hstream, hidle', hmem', -⟩ := hN n hn
  rw [ha]
  generalize hdata : c.state.dev.mem.load (lo32 a) k.toNat = data at hstream
  have hlen : data.length = k.toNat := by rw [← hdata, Mem.length_load]
  obtain ⟨log, hreply⟩ := Host.reply_at features (t := 2) (by decide) (by decide)
    (.mreply (dataChecksum c.state.disableDataCsums data))
    (Host.memwriteTrailer c.state.disableDataCsums data)
  have htype : typeWord 2 = REQ_MEMREAD := by decide
  rw [htype, ← hstream] at hreply
  have hcmd : Host.reply features 0x02AA55FF _ = _ := hreply
  have hread := Host.readmemData_ok hmode data
  rw [hlen] at hread
  unfold Host.readmem
  rw [if_neg hzero, hsend]
  dsimp only
  rw [hcmd]
  dsimp only [Except.bind]
  rw [hread]
  exact ⟨rfl, rfl, hidle' rfl, hmem'⟩

/-- **Memory transfer.**  A write to a waiting device puts the data where it
    belongs and nothing anywhere else, and reading it back returns it.  After
    either call both ends have read everything the other one sent. -/
theorem memory_transfer {c : Loop ρ} (hidle : C.Idle c) {features addr : Nat} {data : List Byte}
    (hmode : Host.csumsDisabled features = c.state.disableDataCsums)
    (hend : addr + data.length ≤ 2 ^ 32) (hshort : data.length < 2 ^ 32) :
    ∃ N, ∀ n, N ≤ n →
      (Host.writemem (C.peer n) features addr data c).result = .ok () ∧
      (Host.writemem (C.peer n) features addr data c).rest = [] ∧
      C.Idle (Host.writemem (C.peer n) features addr data c).peer ∧
      (∀ x : U32, (Host.writemem (C.peer n) features addr data c).peer.state.dev.mem x =
        if addr ≤ x.toNat ∧ x.toNat < addr + data.length then data.getD (x.toNat - addr) 0
        else c.state.dev.mem x) ∧
      ∃ M, ∀ m, M ≤ m →
        (Host.readmem (C.peer m) features addr data.length
          (Host.writemem (C.peer n) features addr data c).peer).result = .ok data ∧
        (Host.readmem (C.peer m) features addr data.length
          (Host.writemem (C.peer n) features addr data c).peer).rest = [] ∧
        C.Idle (Host.readmem (C.peer m) features addr data.length
          (Host.writemem (C.peer n) features addr data c).peer).peer := by
  have haddr : addr < 2 ^ 64 := by omega
  obtain ⟨N, hN⟩ := C.writemem_ok hidle hmode haddr hshort
  refine ⟨N, fun n hn => ?_⟩
  obtain ⟨hresult, hrest, hidle', hmem, hmode'⟩ := hN n hn
  refine ⟨hresult, hrest, hidle', ?_, ?_⟩
  · intro x
    have hx := x.isLt
    have hsub : (lo32 (BitVec.ofNat 64 addr)).toNat = addr % 2 ^ 32 := by
      simp only [lo32, BitVec.toNat_setWidth, BitVec.toNat_ofNat]
      omega
    rw [hmem, Mem.store_apply (by omega), BitVec.toNat_sub, hsub]
    by_cases hin : addr ≤ x.toNat ∧ x.toNat < addr + data.length
    · have hoff : (2 ^ 32 - addr % 2 ^ 32 + x.toNat) % 2 ^ 32 = x.toNat - addr := by omega
      rw [hoff, if_pos hin, if_pos (by omega)]
    · have hoff : ¬ (2 ^ 32 - addr % 2 ^ 32 + x.toNat) % 2 ^ 32 < data.length := by omega
      rw [if_neg hin, if_neg hoff]
  · obtain ⟨M, hM⟩ := C.readmem_ok hidle' (hmode.trans hmode'.symm) haddr hshort
    refine ⟨M, fun m hm => ?_⟩
    obtain ⟨hresult', hrest', hidle'', -⟩ := hM m hm
    rw [hmem, Mem.load_store (by omega)] at hresult'
    exact ⟨hresult', hrest', hidle''⟩

/-- A size that is zero as a `size_t` but not as the `u64` it is compared with. -/
theorem reqMemwrite_truncated {m : MemRequest} (hlo : lo32 m.size = 0) (hsize : m.size ≠ 0)
    (s : State ρ) :
    ∃ s', reqMemwrite P d m s = ⟨s', .running, ST_XFRERR, .zero⟩ ∧
      s'.dev.mem = (s.dev.mem.store (lo32 m.addr) [0]).store (lo32 (m.addr + m.size - 1)) [0] ∧
      s'.disableDataCsums = s.disableDataCsums ∧
      C.rx s'.dev.env = C.rx s.dev.env ∧ C.out s' = C.out s := by
  have hrx : C.rx (probe m s).dev.env = [] ++ C.rx s.dev.env := by
    rw [env_probe]
    rfl
  obtain ⟨hret, hdata, hrest⟩ := C.lossless.iodevRead (n := 0) hrx rfl
  have hmem : (probe m s).dev.mem =
      (s.dev.mem.store (lo32 m.addr) [0]).store (lo32 (m.addr + m.size - 1)) [0] := by
    unfold probe
    dsimp only
    rw [if_pos hsize]
    rfl
  have hshort : (lo32 ((0 : U32).setWidth 64)).setWidth 64 ≠ m.size := by
    intro heq
    exact hsize (heq.symm.trans (by decide))
  have hmode : (probe m s).disableDataCsums = s.disableDataCsums := (probe_recorded m s).mode
  have hout : C.out ((probe m s).setEnv ((probe m s).iodevRead P d 0).env) = C.out s := by
    refine (C.out_read 0 (probe m s).dev.env).trans ?_
    rw [env_probe]
    rfl
  refine ⟨((probe m s).setEnv ((probe m s).iodevRead P d 0).env).store (lo32 m.addr) [], ?_, hmem,
    hmode, hrest, hout⟩
  unfold reqMemwrite
  rw [if_neg (by rw [excCount_probe]; exact not_not.mpr rfl), hlo]
  dsimp only
  rw [hret, hdata, if_pos hshort]

theorem serve_truncated {features addr : Nat} {data bytes : List Byte} {s : State ρ}
    (hq : (HostRequest.memwrite features addr data).send = .ok bytes)
    (hlen : data.length = 2 ^ 32) (hwin : s.iodevProxyBuffer d = REQ_MEMWRITE)
    (hrx : C.rx s.dev.env = bytes.drop 4) :
    (serve P d s).2 = .running ∧ C.Served s (serve P d s).1
      ((s.dev.mem.store (lo32 (BitVec.ofNat 64 addr)) [0]).store
        (lo32 (BitVec.ofNat 64 addr + BitVec.ofNat 64 (2 ^ 32) - 1)) [0])
      (Host.memwriteTrailer (Host.csumsDisabled features) data)
      (UartReply.mk REQ_MEMWRITE ST_XFRERR .zero).bytes := by
  obtain ⟨r, s₁, hr, hsame, hrx₁, hserve⟩ := C.serve_handled hq hwin hrx
  have hm : r.mrequest = ⟨BitVec.ofNat 64 addr, BitVec.ofNat 64 (2 ^ 32),
      dataChecksum (Host.csumsDisabled features) data⟩ := by
    rw [← hlen]
    exact UartRequest.mrequest_eq hr.2.1
  have hlo : lo32 r.mrequest.size = 0 := by
    rw [hm]
    exact (by decide : lo32 (BitVec.ofNat 64 (2 ^ 32)) = 0)
  have hne : r.mrequest.size ≠ 0 := by
    rw [hm]
    exact (by decide : BitVec.ofNat 64 (2 ^ 32) ≠ 0)
  obtain ⟨s', hdisp, hmem', hmode', hrx', hout'⟩ := C.reqMemwrite_truncated hlo hne s₁
  rw [← dispatch_memwrite hr.1] at hdisp
  have hserved := hserve hdisp rfl hmem' hmode' (hrx'.trans hrx₁) hout'
  have hnone : replyTrailer r ⟨s', .running, ST_XFRERR, .zero⟩ = [] :=
    if_neg (fun hread => absurd hread.2 (by decide : ST_XFRERR ≠ ST_OK))
  rw [hnone, List.append_nil, hr.1, hm, hsame.mem] at hserved
  exact hserved

/-- `2^32` bytes are not written: the device refuses the transfer, and then looks
    for requests in the data. -/
theorem writemem_truncated {c : Loop ρ} (hidle : C.Idle c) (features : Nat) {addr : Nat}
    {data : List Byte} (haddr : addr < 2 ^ 64) (hlen : data.length = 2 ^ 32)
    (hdata : ∀ b ∈ data, b ≠ 0xFF) :
    ∃ N, ∀ n, N ≤ n → (Host.writemem (C.peer n) features addr data c).result =
      .error (.uartRemoteError (-3)) := by
  have hsize : data.length < 2 ^ 64 := by omega
  have hsend := Host.writememSend_ofNat features haddr hsize
  have hq : (HostRequest.memwrite features addr data).send = .ok _ := hsend
  have hfree : Free marker ([0x55, 0xAA, (3 : Byte)] ++
      Host.memwriteTrailer (Host.csumsDisabled features) data) := by
    have hend : Free marker (if Host.csumsDisabled features then leWord DATA_END_SENTINEL
        else []) := by
      split
      · decide
      · decide
    refine Free.append_of_forall_ne ?_ (Free.append_of_forall_ne hdata hend)
    decide
  obtain ⟨N, hN⟩ := C.exchange hidle
    ((c.state.dev.mem.store (lo32 (BitVec.ofNat 64 addr)) [0]).store
      (lo32 (BitVec.ofNat 64 addr + BitVec.ofNat 64 (2 ^ 32) - 1)) [0]) _
    (UartReply.mk REQ_MEMWRITE ST_XFRERR .zero).bytes hq hfree (by
    intro s hsame hwin hrx
    rw [← hsame.mem]
    exact C.serve_truncated hq hlen hwin hrx)
  have hreply := Host.reply_refused features (t := 3) (by decide)
    (by decide : ST_XFRERR.toInt ≠ 0) .zero
  have htype : typeWord 3 = REQ_MEMWRITE := by decide
  refine ⟨N, fun n hn => ?_⟩
  rw [htype, ← (hN n hn).1] at hreply
  have hcmd : (Host.reply features 0x03AA55FF _).result = _ := hreply
  unfold Host.writemem
  rw [hsend]
  dsimp only
  rw [hcmd]
  rfl

end Cable

end UartProxy

/-! ### A concrete link -/

/-- The bytes on their way to the device, those it sent, and those it queued. -/
structure Wires where
  rx : List Byte
  sent : List Byte
  queued : List Byte

/-- One iodev connected to a host, on a firmware that does nothing else. -/
def Platform.serial (d : IodevId) : Platform Wires where
  toFirmware := Firmware.idle _
  getUsage := fun i _ => if i = d then USAGE_UARTPROXY else 0
  handleEvents := fun _ w => w
  canRead := fun _ w => (if w.rx.isEmpty then 0 else 1, w)
  read := fun i n w =>
    if i = d then ⟨BitVec.ofNat 64 (w.rx.take n.toNat).length, w.rx.take n.toNat,
      { w with rx := w.rx.drop n.toNat }⟩
    else ⟨0, [], w⟩
  write := fun i bs w =>
    if i = d then { w with sent := w.sent ++ w.queued ++ bs, queued := [] } else w
  queue := fun i bs w => if i = d then { w with queued := w.queued ++ bs } else w
  flush := fun _ w => w

namespace UartProxy

theorem serial_lossless (d : IodevId) : Lossless (Platform.serial d) d Wires.rx where
  keeps := ⟨fun _ _ _ => rfl, fun _ _ _ _ _ _ => rfl⟩
  handleEvents := fun _ _ => rfl
  canRead := fun _ _ => rfl
  ready := by
    intro w hready hempty
    simp only [Platform.serial, hempty, List.isEmpty_nil, if_true] at hready
    exact hready rfl
  read := by
    intro n w hn
    simp only [Platform.serial, if_true, List.length_take, Nat.min_eq_left hn, and_true]
    exact BitVec.ofNat_toNat 64 n
  readOther := by
    intro i n w hi
    simp only [Platform.serial, if_neg hi]
  write := by
    intro i bs w
    simp only [Platform.serial]
    split <;> rfl
  queue := by
    intro i bs w
    simp only [Platform.serial]
    split <;> rfl
  flush := fun _ _ => rfl

def serialCable (d : IodevId) : Cable (Platform.serial d) d where
  rx := Wires.rx
  sent := Wires.sent
  queued := Wires.queued
  arrive := fun bs w => { w with rx := w.rx ++ bs }
  lossless := serial_lossless d
  alone := by
    intro i w hi
    simp only [Platform.serial, if_neg hi]
    decide
  prompt := by
    intro w hne
    have hready : w.rx.isEmpty = false := by simpa using hne
    simp only [Ready, Platform.serial, if_true, hready]
    decide
  rx_arrive := fun _ _ => rfl
  out_arrive := fun _ _ => rfl
  out_handleEvents := fun _ => rfl
  out_canRead := fun _ => rfl
  out_read := by
    intro n w
    simp only [Platform.serial, if_true]
  out_queue := by
    intro bs w
    simp only [Platform.serial, if_true, List.append_assoc]
  out_write := by
    intro bs w
    simp only [Platform.serial, if_true]
  out_flush := fun _ => rfl

def waiting (disabled : Bool) : Loop Wires :=
  ⟨{ dev := Device.cleared ⟨[], [], []⟩
     iodevProxyBuffer := fun _ => 0
     disableDataCsums := disabled
     uartproxyIodev := IODEV_UART
     trace := [] }, IODEV_UART, .running⟩

theorem idle_waiting (d : IodevId) (disabled : Bool) : (serialCable d).Idle (waiting disabled) :=
  ⟨rfl, (by decide : tail 0 ≠ marker), rfl, rfl⟩

/-- Data that looks like a request, over USB without checksums. -/
theorem memory_transfer_marker :
    ∃ n, (Host.writemem ((serialCable IODEV_USB0).peer n) 1 0x1000 [0xFF, 0x55, 0xAA, 0x03]
        (waiting true)).result = .ok () ∧
      ∃ m, (Host.readmem ((serialCable IODEV_USB0).peer m) 1 0x1000 4
        (Host.writemem ((serialCable IODEV_USB0).peer n) 1 0x1000 [0xFF, 0x55, 0xAA, 0x03]
          (waiting true)).peer).result = .ok [0xFF, 0x55, 0xAA, 0x03] := by
  have hmode : Host.csumsDisabled 1 = (waiting true).state.disableDataCsums := rfl
  have hend : 0x1000 + ([0xFF, 0x55, 0xAA, 0x03] : List Byte).length ≤ 2 ^ 32 := by decide
  obtain ⟨n, hn⟩ := (serialCable IODEV_USB0).memory_transfer (idle_waiting IODEV_USB0 true) hmode
    hend (by decide)
  obtain ⟨hwrite, -, -, -, m, hm⟩ := hn n le_rfl
  exact ⟨n, hwrite, m, (hm m le_rfl).1⟩

/-- Writing the whole address space fails, however long the host waits. -/
theorem writemem_whole_space :
    0 + (List.replicate (2 ^ 32) (0 : Byte)).length ≤ 2 ^ 32 ∧
    ∃ N, ∀ n, N ≤ n → (Host.writemem ((serialCable IODEV_USB0).peer n) 1 0
      (List.replicate (2 ^ 32) 0) (waiting true)).result = .error (.uartRemoteError (-3)) := by
  refine ⟨by rw [List.length_replicate]; norm_num, ?_⟩
  refine (serialCable IODEV_USB0).writemem_truncated (idle_waiting IODEV_USB0 true) 1 (by decide)
    List.length_replicate ?_
  intro b hb
  rw [List.eq_of_mem_replicate hb]
  decide

end UartProxy

end MiniHaywire
