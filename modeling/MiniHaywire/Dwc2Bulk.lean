import MiniHaywire.Dwc2Calls

/-!
# No byte lost on the bulk pipes

On the way in, a transfer is armed only with `XFER_SIZE` bytes free in its ring.  Until it
completes nothing is added to that ring and readers only take from it, so the packet that
ends it still fits.

On the way out, the bytes of a transfer leave the ring when it is staged and are in the
transfer buffer alone until it completes.  They are sent as long as the driver does not
stage the next transfer over them.
-/

namespace MiniHaywire.Dwc2

theorem epOut_injective : Function.Injective epOut := by decide

theorem epIn_injective : Function.Injective epIn := by decide

theorem epIn_ne_epOut : ∀ p q, epIn p ≠ epOut q := by decide

theorem ctrlOut_ne_epOut : ∀ p, CTRL_OUT ≠ epOut p := by decide

theorem ctrlIn_ne_epOut : ∀ p, CTRL_IN ≠ epOut p := by decide

theorem ctrlOut_ne_epIn : ∀ p, CTRL_OUT ≠ epIn p := by decide

theorem ctrlIn_ne_epIn : ∀ p, CTRL_IN ≠ epIn p := by decide

namespace Dev

variable {ep e : Lep} {d : Dev}

theorem Keeps.dma (hne : e ≠ ep) (bs : List Byte) (hbs : bs.length ≤ XFER_SIZE) :
    Keeps ep d (d.dma e bs) where
  xferBuffer := rfl
  sound := fun s => ⟨s.apart, s.bufferLen, s.readBufferLen⟩
  ring := rfl
  xferInProgress := rfl
  enabled := rfl
  xferSize := rfl
  window := fun s _ hi => if_neg (Keeps.outside s hne hbs hi)
  log := ⟨[], by simp [Dev.dma]⟩

theorem Keeps.complete (hne : e ≠ ep) : Keeps ep d (d.complete e) where
  xferBuffer := rfl
  sound := fun s => ⟨s.apart, s.bufferLen, s.readBufferLen⟩
  ring := rfl
  xferInProgress := rfl
  enabled := Function.update_of_ne hne.symm _ _
  xferSize := rfl
  window := fun _ _ _ => rfl
  log := ⟨[], by simp [Dev.complete]⟩

end Dev

/-- The moments of the control endpoint. -/
def Moment.isControl : Moment → Bool
  | .setupPacket _ | .enumDone _ | .part (.ep0In _) | .part (.ep0Out _) => true
  | _ => false

theorem World.control_rearms {ep : Lep} (hout : CTRL_OUT ≠ ep) (hin : CTRL_IN ≠ ep) {m : Moment}
    {w mid : World} {d' : Dev} (hm : m.isControl = true) (hmid : w.controller m = some mid)
    (hd' : mid.dev.respond m = some d') :
    Dev.Rearms ep w.dev d' ∧ mid = { w with dev := mid.dev } := by
  cases m with
  | setupPacket bytes =>
    cases hd'
    obtain ⟨hlen, rfl⟩ := World.controller_setupPacket hmid
    exact ⟨(Dev.Keeps.dma hout bytes (hlen.trans_le (by decide))).rearms, rfl⟩
  | outPacket q bytes => cases hm
  | usbReset => cases hm
  | enumDone highSpeed =>
    cases hd'
    cases hmid
    exact ⟨(Dev.Ep0Steps.handleEventConnectDone highSpeed w.dev).rearms hout hin, rfl⟩
  | part part =>
    cases part with
    | ep0In diepint =>
      cases hd'
      cases hmid
      exact ⟨(Dev.Ep0Steps.serveEp0In diepint w.dev).rearms hout hin, rfl⟩
    | ep0Out doepint =>
      cases hmid
      exact ⟨(Dev.Ep0Steps.serveEp0Out hd').rearms hout hin, rfl⟩
    | bulkOut q doepint doeptsiz => cases hm
    | bulkIn q diepint => cases hm

namespace Dev

variable {ep : Lep} {d : Dev}

theorem loadBuffer_of_memory {bs : List Byte} {d' : Dev}
    (hmem : ∀ i < bs.length, d'.memory (d'.xferBuffer ep + i) = bs.getD i 0) :
    d'.loadBuffer ep bs.length = bs := by
  apply List.ext_getElem
  · simp [loadBuffer]
  · intro i hi hi'
    have hbyte := hmem i hi'
    simp [loadBuffer, hbyte, hi']

theorem loadBuffer_dma (ep : Lep) (bs : List Byte) (d : Dev) :
    (d.dma ep bs).loadBuffer ep bs.length = bs := by
  apply loadBuffer_of_memory
  intro i hi
  simp [dma, hi]

/-- The end of an OUT transfer of `bs` with room for it: all of it goes to the ring. -/
theorem cdcHandleBulkOutXferDone_eq {p : PipeId} {bs : List Byte} {doeptsiz : U32}
    (hlen : (doeptsiz &&& 0x7fff).toNat + bs.length = 512)
    (hfree : XFER_SIZE ≤ (ringbufferGetFree (d.ring (epOut p))).toNat)
    (hbuf : d.loadBuffer (epOut p) bs.length = bs) :
    d.cdcHandleBulkOutXferDone (epOut p) doeptsiz =
      (d.setRing (epOut p) (ringbufferWrite bs (d.ring (epOut p))).2).setInProgress
        (epOut p) false := by
  have hring := d.cdcGetRingbuffer_epOut p
  have hsize : (0x200 - (doeptsiz &&& 0x7fff) : U32).toNat = bs.length := by
    have hle : (doeptsiz &&& 0x7fff) ≤ (0x200 : U32) := BitVec.le_def.mpr (by
      change _ ≤ 512
      omega)
    rw [BitVec.toNat_sub_of_le hle]
    change 512 - _ = _
    omega
  have hfits : ¬ringbufferGetFree (d.ring (epOut p)) < 0x200 - (doeptsiz &&& 0x7fff) := by
    rw [BitVec.lt_def, hsize]
    have : bs.length ≤ XFER_SIZE := by
      unfold XFER_SIZE
      omega
    omega
  simp only [cdcHandleBulkOutXferDone, hring, if_neg hfits, hsize, hbuf]

end Dev

/-! ### OUT -/

/-- The account of an OUT pipe: every byte of the packets is with the readers, in the ring or in
    the buffer behind a completion not reported yet, and an armed endpoint has room for a packet.
    -/
structure OutLaw (p : PipeId) (w : World) : Prop where
  sound : w.dev.Sound
  account : ∃ q, (w.dev.ring (epOut p)).Holds CDC_BUFFER_SIZE q ∧
    w.delivered p ++ q ++ (w.pending p).getD [] = w.heldOut p ++ (w.packets p).flatten
  enabled : w.dev.enabled (epOut p) = w.dev.xferInProgress (epOut p)
  room : w.dev.enabled (epOut p) = true →
    XFER_SIZE ≤ (ringbufferGetFree (w.dev.ring (epOut p))).toNat
  buffered : ∀ bs, w.pending p = some bs →
    w.dev.enabled (epOut p) = true ∧ bs.length ≤ 512 ∧ w.dev.loadBuffer (epOut p) bs.length = bs
  complete : .truncated (epOut p) ∉ w.dev.log

namespace OutLaw

variable {p : PipeId} {w w' : World}

theorem rearms (h : OutLaw p w) (hdev : Dev.Rearms (epOut p) w.dev w'.dev)
    (hpending : w'.pending p = w.pending p) (hheld : w'.heldOut p = w.heldOut p)
    (hpackets : w'.packets p = w.packets p) (hdelivered : w'.delivered p = w.delivered p) :
    OutLaw p w' := by
  obtain ⟨q, hq, haccount⟩ := h.account
  rcases hdev with hdev | hdev
  · refine ⟨hdev.sound h.sound, ⟨q, hdev.ring ▸ hq, ?_⟩, ?_, ?_, ?_, ?_⟩
    · rw [hdelivered, hpending, hheld, hpackets]
      exact haccount
    · rw [hdev.enabled, hdev.xferInProgress]
      exact h.enabled
    · rw [hdev.enabled, hdev.ring]
      exact h.room
    · intro bs hbs
      obtain ⟨hen, hlen, hload⟩ := h.buffered bs (hpending ▸ hbs)
      have hwindow : bs.length ≤ XFER_SIZE := hlen.trans (by decide)
      exact ⟨hdev.enabled.trans hen, hlen, (hdev.loadBuffer h.sound hwindow).trans hload⟩
    · obtain ⟨new, hnew, hon⟩ := hdev.log_truncated
      rw [hnew, List.mem_append]
      rintro (hold | hin)
      · exact h.complete hold
      · exact hon _ hin rfl
  · -- an endpoint that was idle has no packet waiting behind it
    have hidle : w.dev.enabled (epOut p) = false := h.enabled.trans hdev.idle
    have hnone : w.pending p = none := by
      cases hp : w.pending p with
      | none => rfl
      | some bs => exact absurd (hidle.symm.trans (h.buffered bs hp).1) (by simp)
    refine ⟨hdev.sound h.sound, ⟨q, hdev.ring ▸ hq, ?_⟩, ?_, ?_, ?_, ?_⟩
    · rw [hdelivered, hpending, hheld, hpackets]
      exact haccount
    · rw [hdev.enabled, hdev.armed]
    · intro _
      rw [hdev.ring]
      exact hdev.room
    · intro bs hbs
      rw [hpending, hnone] at hbs
      cases hbs
    · obtain ⟨new, hnew, hon⟩ := hdev.log
      rw [hnew, List.mem_append]
      rintro (hold | hin)
      · exact h.complete hold
      · exact hon _ hin rfl

theorem keeps (h : OutLaw p w) {d' : Dev} (hdev : Dev.Keeps (epOut p) w.dev d') :
    OutLaw p { w with dev := d' } :=
  h.rearms hdev.rearms rfl rfl rfl rfl

theorem take (h : OutLaw p w) (q : PipeId) (n : Nat) : OutLaw p (w.take q n).2 := by
  by_cases hqp : q = p
  · subst hqp
    obtain ⟨bytes, hring, haccount⟩ := h.account
    obtain ⟨hread, hrest⟩ := hring.read n
    have hset : (w.take q n).2.dev.ring (epOut q) = (ringbufferRead n (w.dev.ring (epOut q))).2 :=
      Function.update_self _ _ _
    refine ⟨⟨h.sound.apart, h.sound.bufferLen, h.sound.readBufferLen⟩, ⟨bytes.drop n, ?_, ?_⟩,
      h.enabled, ?_, h.buffered, h.complete⟩
    · rw [hset]
      exact hrest
    · have hdelivered : (w.take q n).2.delivered q = w.delivered q ++ bytes.take n := by
        rw [← hread]
        exact Function.update_self _ _ _
      rw [hdelivered, List.append_assoc (w.delivered q), List.take_append_drop]
      exact haccount
    · intro hen
      have hroom := h.room hen
      rw [hset, hrest.valid.toNat_getFree, hrest.len_eq, hrest.used_eq]
      rw [hring.valid.toNat_getFree, hring.len_eq, hring.used_eq] at hroom
      have hdrop : (bytes.drop n).length ≤ bytes.length := by simp
      omega
  · refine h.rearms (Dev.Keeps.setRing (epOut_injective.ne hqp) _).rearms rfl rfl rfl ?_
    exact Function.update_of_ne (Ne.symm hqp) _ _

theorem give (h : OutLaw p w) (q : PipeId) (bs : List Byte) : OutLaw p (w.give q bs).2 :=
  h.rearms (Dev.Keeps.setRing (epIn_ne_epOut q p) _).rearms rfl rfl rfl rfl

theorem outPacket (h : OutLaw p w) {q : PipeId} {bytes : List Byte}
    (hw : w.controller (.outPacket q bytes) = some w') : OutLaw p w' := by
  obtain ⟨hen, hnone, hlen, rfl⟩ := World.controller_outPacket hw
  by_cases hqp : q = p
  · subst hqp
    obtain ⟨held, hring, haccount⟩ := h.account
    refine ⟨⟨h.sound.apart, h.sound.bufferLen, h.sound.readBufferLen⟩, ⟨held, hring, ?_⟩,
      h.enabled, h.room, ?_, h.complete⟩
    · rw [hnone, Option.getD_none, List.append_nil] at haccount
      simp [haccount]
    · intro bs hbs
      simp only [Function.update_self, Option.some.injEq] at hbs
      subst hbs
      exact ⟨hen, hlen, Dev.loadBuffer_dma _ _ _⟩
  · refine h.rearms (Dev.Keeps.dma (epOut_injective.ne hqp) _ (hlen.trans (by decide))).rearms
      ?_ rfl ?_ rfl
    · exact Function.update_of_ne (Ne.symm hqp) _ _
    · exact Function.update_of_ne (Ne.symm hqp) _ _

theorem usbReset (h : OutLaw p w) (hw : w.controller .usbReset = some w') :
    OutLaw p { w' with dev := w'.dev.handleUsbrst } := by
  cases hw
  obtain ⟨held, hring, -⟩ := h.account
  refine ⟨⟨h.sound.apart, h.sound.bufferLen, h.sound.readBufferLen⟩, ⟨held, hring, ?_⟩,
    rfl, ?_, ?_, ?_⟩
  · simp [hring.contents_eq]
  · intro hen
    cases hen
  · intro bs hbs
    cases hbs
  · simpa [Dev.handleUsbrst] using h.complete

theorem xferDone (h : OutLaw p w) {bytes : List Byte} {doeptsiz : U32}
    (hbytes : w.pending p = some bytes) (hlen : (doeptsiz &&& 0x7fff).toNat + bytes.length = 512) :
    OutLaw p
      { w with
        dev := (w.dev.complete (epOut p)).cdcHandleBulkOutXferDone (epOut p) doeptsiz
        pending := Function.update w.pending p none } := by
  obtain ⟨hen, -, hload⟩ := h.buffered bytes hbytes
  obtain ⟨held, hring, haccount⟩ := h.account
  have hroom := h.room hen
  rw [Dev.cdcHandleBulkOutXferDone_eq (d := w.dev.complete (epOut p)) hlen hroom hload]
  rw [hring.valid.toNat_getFree, hring.len_eq, hring.used_eq] at hroom
  have hfit : min bytes.length (CDC_BUFFER_SIZE.toNat - 1 - held.length) = bytes.length := by
    unfold XFER_SIZE at hroom
    omega
  obtain ⟨-, hwritten⟩ := hring.write bytes
  rw [hfit, List.take_length] at hwritten
  refine ⟨⟨h.sound.apart, h.sound.bufferLen, h.sound.readBufferLen⟩, ⟨held ++ bytes, ?_, ?_⟩,
    ?_, ?_, ?_, h.complete⟩
  · simpa [Dev.setInProgress, Dev.setRing, Dev.complete] using hwritten
  · rw [hbytes] at haccount
    simpa using haccount
  · simp [Dev.setInProgress, Dev.setRing, Dev.complete]
  · simp [Dev.setInProgress, Dev.setRing, Dev.complete]
  · simp

theorem bulkOut (h : OutLaw p w) {q : PipeId} {doepint doeptsiz : U32}
    (hw : w.controller (.part (.bulkOut q doepint doeptsiz)) = some w') :
    OutLaw p { w' with dev := w'.dev.serveBulkOut q doepint doeptsiz } := by
  rcases World.controller_bulkOut hw with ⟨hcompl, bytes, hbytes, hlen, rfl⟩ | ⟨hcompl, rfl⟩
  · by_cases hqp : q = p
    · subst hqp
      have hserve : ∀ d : Dev, d.serveBulkOut q doepint doeptsiz =
          (d.cdcHandleBulkOutXferDone (epOut q) doeptsiz).cdcStartBulkOutXfer (epOut q) :=
        fun d => if_pos hcompl
      rw [hserve]
      exact (h.xferDone hbytes hlen).rearms (Dev.Rearms.cdcStartBulkOutXfer q) rfl rfl rfl rfl
    · have hne := epOut_injective.ne hqp
      refine h.rearms ((Dev.Keeps.complete hne).trans
        (Dev.Keeps.serveBulkOut hne doepint doeptsiz)).rearms ?_ rfl rfl rfl
      exact Function.update_of_ne (Ne.symm hqp) _ _
  · -- other causes are cleared and nothing is done about them
    have hserve : w'.dev.serveBulkOut q doepint doeptsiz = w'.dev := if_neg hcompl
    rw [hserve]
    exact h

theorem bulkIn (h : OutLaw p w) {q : PipeId} {diepint : U32}
    (hw : w.controller (.part (.bulkIn q diepint)) = some w') :
    OutLaw p { w' with dev := w'.dev.serveBulkIn q } := by
  have hne := epIn_ne_epOut q p
  rcases World.controller_bulkIn hw with ⟨-, -, rfl⟩ | ⟨-, rfl⟩
  · exact h.rearms ((Dev.Keeps.complete hne).trans (Dev.Keeps.serveBulkIn hne)).rearms
      rfl rfl rfl rfl
  · exact h.keeps (Dev.Keeps.serveBulkIn hne)

theorem moment (h : OutLaw p w) {ok : Moment → World → Bool} {m : Moment}
    (hw : w.moment ok m = some w') : OutLaw p w' := by
  obtain ⟨-, mid, d', hmid, hd', rfl⟩ := World.moment_eq_some hw
  have hcontrol : m.isControl = true → OutLaw p { mid with dev := d' } := by
    intro hm
    obtain ⟨hrearms, hsame⟩ :=
      World.control_rearms (ctrlOut_ne_epOut p) (ctrlIn_ne_epOut p) hm hmid hd'
    rw [hsame]
    exact h.rearms hrearms rfl rfl rfl rfl
  cases m with
  | setupPacket bytes => exact hcontrol rfl
  | outPacket q bytes =>
    cases hd'
    exact h.outPacket hmid
  | usbReset =>
    cases hd'
    exact h.usbReset hmid
  | enumDone highSpeed => exact hcontrol rfl
  | part part =>
    cases part with
    | ep0In diepint => exact hcontrol rfl
    | ep0Out doepint => exact hcontrol rfl
    | bulkOut q doepint doeptsiz =>
      cases hd'
      exact h.bulkOut hmid
    | bulkIn q diepint =>
      cases hd'
      exact h.bulkIn hmid

theorem invariant (p : PipeId) (ok : Moment → World → Bool) : World.Invariant ok (OutLaw p) where
  moment := fun _ _ _ h hw => h.moment hw
  take := fun q n _ h => h.take q n
  give := fun q bs _ h => h.give q bs
  armOut := fun q _ h => h.rearms (Dev.Rearms.cdcStartBulkOutXfer q) rfl rfl rfl rfl
  stageIn := fun q _ h => h.keeps (Dev.Keeps.cdcStartBulkInXfer (epIn_ne_epOut q p))

end OutLaw

/-- Transfer buffers of `XFER_SIZE` bytes at `xferBuffer` do not meet. -/
def Private (xferBuffer : Lep → Nat) : Prop :=
  ∀ i j, i ≠ j → ∀ a < XFER_SIZE, ∀ b < XFER_SIZE, xferBuffer i + a ≠ xferBuffer j + b

section Start

variable {desc : Descriptors} {ring : Lep → Ringbuffer} {xferBuffer : Lep → Nat}

theorem sound_start (hbuf : Private xferBuffer) : (World.start desc ring xferBuffer).dev.Sound :=
  ⟨hbuf, Nat.zero_le _, rfl⟩

theorem outLaw_start (hring : ∀ p, (ring (epOut p)).Holds CDC_BUFFER_SIZE [])
    (hbuf : Private xferBuffer) (p : PipeId) : OutLaw p (World.start desc ring xferBuffer) where
  sound := sound_start hbuf
  account := ⟨[], hring p, rfl⟩
  enabled := rfl
  room := fun h => nomatch h
  buffered := fun _ h => nomatch h
  complete := by simp [World.start, Dev.init, Dev.epActivate, Dev.note, dirIn, phyEndpoints,
    CTRL_IN, CTRL_OUT, EP_TYPE_CONTROL]

end Start

/-- **No byte is lost on an OUT pipe.** In every run, what the readers got, the ring and the
    packet behind a completion not reported yet are, in order, the packets since the last reset
    after what the ring held then; and no packet is ever cut short. -/
theorem bulkOut_lossless (desc : Descriptors) (ring : Lep → Ringbuffer) (xferBuffer : Lep → Nat)
    (hring : ∀ p, (ring (epOut p)).Holds CDC_BUFFER_SIZE []) (hbuf : Private xferBuffer)
    (cs : List Call) (w : World)
    (hrun : (World.start desc ring xferBuffer).calls (fun _ _ => true) cs = some w) (p : PipeId) :
    w.delivered p ++ (w.dev.ring (epOut p)).contents ++ (w.pending p).getD [] =
        w.heldOut p ++ (w.packets p).flatten ∧
      .truncated (epOut p) ∉ w.dev.log := by
  have hlaw := (OutLaw.invariant p _).calls cs _ w (outLaw_start hring hbuf p) hrun
  obtain ⟨held, hheld, haccount⟩ := hlaw.account
  rw [hheld.contents_eq]
  exact ⟨haccount, hlaw.complete⟩

/-! A driver with empty rings and buffers one after the other. -/

def sampleDesc : Descriptors where
  device := [0x12, 0x01]
  configuration := [0x09, 0x02]
  qualifier := []
  languages := []
  manufacturer := []
  product := []
  serial := []
  length_lt := by decide

def sampleRing : Ringbuffer :=
  { buffer := fun _ => 0, len := CDC_BUFFER_SIZE, read := 0, write := 0 }

def sampleStart : World := World.start sampleDesc (fun _ => sampleRing) (fun i => i.val * XFER_SIZE)

theorem holds_sampleRing : sampleRing.Holds CDC_BUFFER_SIZE [] :=
  ⟨⟨by decide, by decide⟩, rfl, rfl⟩

theorem private_sample : Private (fun i => i.val * XFER_SIZE) := by
  intro i j hij a ha b hb
  have hne : i.val ≠ j.val := fun h => hij (Fin.ext h)
  dsimp only [XFER_SIZE] at ha hb ⊢
  omega

def openPipe : List Moment :=
  [.enumDone true, .setupPacket [0x21, 0x22, 1, 0, 0, 0, 0, 0], .part (.ep0Out 0x8),
    .part (.ep0In 0x1)]

def sampleRead : List Call :=
  [.handleEvents (openPipe ++ [.outPacket 0 [0x61, 0x62], .part (.bulkOut 0 0x1 510)]),
    .read 0 2 { rounds := [[]], last := none }]

theorem bulkOut_lossless_sample :
    ∃ w, sampleStart.calls (fun _ _ => true) sampleRead = some w ∧ w.delivered 0 = [0x61, 0x62] ∧
      (w.delivered 0 ++ (w.dev.ring (epOut 0)).contents ++ (w.pending 0).getD [] =
          w.heldOut 0 ++ (w.packets 0).flatten ∧
        .truncated (epOut 0) ∉ w.dev.log) := by
  have hread : (sampleStart.calls (fun _ _ => true) sampleRead).map (·.delivered 0) =
      some [0x61, 0x62] := by decide +kernel
  obtain ⟨w, hw, hdelivered⟩ := Option.map_eq_some_iff.mp hread
  exact ⟨w, hw, hdelivered, bulkOut_lossless sampleDesc (fun _ => sampleRing) _
    (fun _ => holds_sampleRing) private_sample sampleRead w hw 0⟩

/-! ### IN -/

/-- The bytes of the transfer in flight on an IN endpoint. -/
def World.inFlight (w : World) (p : PipeId) : List Byte :=
  if w.dev.enabled (epIn p) then w.dev.loadBuffer (epIn p) (w.dev.xferSize (epIn p)) else []

def Moment.servesIn (p : PipeId) : Moment → Bool
  | .part (.bulkIn q _) => q = p
  | _ => false

/-- From `w` to `w'` nothing happens to the IN endpoint of `p`. -/
structure World.KeepsIn (p : PipeId) (w w' : World) : Prop where
  dev : Dev.Keeps (epIn p) w.dev w'.dev
  heldIn : w'.heldIn p = w.heldIn p
  accepted : w'.accepted p = w.accepted p
  transmitted : w'.transmitted p = w.transmitted p

/-- The moments that mean something to an IN endpoint are a reset and an interrupt of its own. -/
theorem World.moment_cases {ok : Moment → World → Bool} {m : Moment} {w w' : World} (p : PipeId)
    (h : w.moment ok m = some w') :
    m = .usbReset ∨ (∃ diepint, m = .part (.bulkIn p diepint)) ∨
      (m ≠ .usbReset ∧ m.servesIn p = false) ∧ w.KeepsIn p w' := by
  obtain ⟨-, mid, d', hmid, hd', rfl⟩ := World.moment_eq_some h
  have hcontrol : m.isControl = true → w.KeepsIn p { mid with dev := d' } := by
    intro hm
    obtain ⟨hrearms, hsame⟩ :=
      World.control_rearms (ctrlOut_ne_epIn p) (ctrlIn_ne_epIn p) hm hmid hd'
    rw [hsame]
    exact ⟨hrearms.keeps fun q => epIn_ne_epOut p q, rfl, rfl, rfl⟩
  cases m with
  | setupPacket bytes => exact .inr (.inr ⟨⟨Moment.noConfusion, rfl⟩, hcontrol rfl⟩)
  | outPacket q bytes =>
    cases hd'
    obtain ⟨-, -, hlen, rfl⟩ := World.controller_outPacket hmid
    exact .inr (.inr ⟨⟨Moment.noConfusion, rfl⟩,
      Dev.Keeps.dma (epIn_ne_epOut p q).symm bytes (hlen.trans (by decide)), rfl, rfl, rfl⟩)
  | usbReset => exact .inl rfl
  | enumDone highSpeed => exact .inr (.inr ⟨⟨Moment.noConfusion, rfl⟩, hcontrol rfl⟩)
  | part part =>
    cases part with
    | ep0In diepint => exact .inr (.inr ⟨⟨Moment.noConfusion, rfl⟩, hcontrol rfl⟩)
    | ep0Out doepint => exact .inr (.inr ⟨⟨Moment.noConfusion, rfl⟩, hcontrol rfl⟩)
    | bulkOut q doepint doeptsiz =>
      cases hd'
      have hne := (epIn_ne_epOut p q).symm
      have hserve {d : Dev} := Dev.Keeps.serveBulkOut (d := d) hne doepint doeptsiz
      refine .inr (.inr ⟨⟨Moment.noConfusion, rfl⟩, ?_⟩)
      rcases World.controller_bulkOut hmid with ⟨-, bytes, -, -, rfl⟩ | ⟨-, rfl⟩
      · exact ⟨(Dev.Keeps.complete hne).trans hserve, rfl, rfl, rfl⟩
      · exact ⟨hserve, rfl, rfl, rfl⟩
    | bulkIn q diepint =>
      cases hd'
      by_cases hqp : q = p
      · exact .inr (.inl ⟨diepint, by rw [hqp]⟩)
      have hne := epIn_injective.ne hqp
      refine .inr (.inr ⟨⟨Moment.noConfusion, decide_eq_false hqp⟩, ?_⟩)
      rcases World.controller_bulkIn hmid with ⟨-, -, rfl⟩ | ⟨-, rfl⟩
      · exact ⟨(Dev.Keeps.complete hne).trans (Dev.Keeps.serveBulkIn hne), rfl, rfl,
          Function.update_of_ne (Ne.symm hqp) _ _⟩
      · exact ⟨Dev.Keeps.serveBulkIn hne, rfl, rfl, rfl⟩

/-- The account of an IN pipe: every byte handed over is transmitted, in flight or in the ring,
    and a transfer is in flight exactly while the driver takes it to be in progress. -/
structure InLaw (p : PipeId) (w : World) : Prop where
  sound : w.dev.Sound
  account : ∃ q, (w.dev.ring (epIn p)).Holds CDC_BUFFER_SIZE q ∧
    w.transmitted p ++ w.inFlight p ++ q = w.heldIn p ++ w.accepted p
  enabled : w.dev.enabled (epIn p) = w.dev.xferInProgress (epIn p)
  xferSize : w.dev.xferSize (epIn p) ≤ XFER_SIZE
  alone : ∀ size packets, .send (epIn p) size packets true ∉ w.dev.log

namespace InLaw

variable {p : PipeId} {w w' : World}

theorem of_keeps (h : InLaw p w) (hkeeps : w.KeepsIn p w') : InLaw p w' := by
  obtain ⟨q, hq, haccount⟩ := h.account
  have hdev := hkeeps.dev
  have hflight : w'.inFlight p = w.inFlight p := by
    unfold World.inFlight
    rw [hdev.enabled, hdev.xferSize, hdev.loadBuffer h.sound h.xferSize]
  refine ⟨hdev.sound h.sound, ⟨q, hdev.ring ▸ hq, ?_⟩, ?_, ?_, ?_⟩
  · rw [hkeeps.transmitted, hflight, hkeeps.heldIn, hkeeps.accepted]
    exact haccount
  · rw [hdev.enabled, hdev.xferInProgress]
    exact h.enabled
  · rw [hdev.xferSize]
    exact h.xferSize
  · intro size packets
    obtain ⟨new, hnew, hon⟩ := hdev.log
    rw [hnew, List.mem_append]
    rintro (hold | hin)
    · exact h.alone _ _ hold
    · exact hon _ hin rfl

theorem keeps (h : InLaw p w) {d' : Dev} (hdev : Dev.Keeps (epIn p) w.dev d') :
    InLaw p { w with dev := d' } :=
  h.of_keeps ⟨hdev, rfl, rfl, rfl⟩

theorem rearms (h : InLaw p w) {d' : Dev} (hdev : Dev.Rearms (epIn p) w.dev d') :
    InLaw p { w with dev := d' } :=
  h.keeps (hdev.keeps fun q => epIn_ne_epOut p q)

theorem take (h : InLaw p w) (q : PipeId) (n : Nat) : InLaw p (w.take q n).2 :=
  h.of_keeps ⟨Dev.Keeps.setRing (epIn_ne_epOut p q).symm _, rfl, rfl, rfl⟩

theorem give (h : InLaw p w) (q : PipeId) (bs : List Byte) : InLaw p (w.give q bs).2 := by
  by_cases hqp : q = p
  · subst hqp
    obtain ⟨bytes, hring, haccount⟩ := h.account
    obtain ⟨hcount, hwritten⟩ := hring.write bs
    refine ⟨⟨h.sound.apart, h.sound.bufferLen, h.sound.readBufferLen⟩,
      ⟨bytes ++ bs.take (ringbufferWrite bs (w.dev.ring (epIn q))).1, ?_, ?_⟩,
      h.enabled, h.xferSize, h.alone⟩
    · have hset : (w.give q bs).2.dev.ring (epIn q) =
          (ringbufferWrite bs (w.dev.ring (epIn q))).2 :=
        Function.update_self _ _ _
      rw [hset, hcount]
      exact hwritten
    · have haccepted : (w.give q bs).2.accepted q =
          w.accepted q ++ bs.take (ringbufferWrite bs (w.dev.ring (epIn q))).1 :=
        Function.update_self _ _ _
      rw [haccepted, ← List.append_assoc, ← List.append_assoc]
      exact congrArg (· ++ _) haccount
  · exact h.of_keeps ⟨Dev.Keeps.setRing (epIn_injective.ne hqp) _, rfl,
      Function.update_of_ne (Ne.symm hqp) _ _, rfl⟩

theorem usbReset (h : InLaw p w) (hw : w.controller .usbReset = some w') :
    InLaw p { w' with dev := w'.dev.handleUsbrst } := by
  cases hw
  obtain ⟨held, hring, -⟩ := h.account
  refine ⟨⟨h.sound.apart, h.sound.bufferLen, h.sound.readBufferLen⟩, ⟨held, hring, ?_⟩,
    rfl, h.xferSize, ?_⟩
  · simp [World.inFlight, Dev.handleUsbrst, hring.contents_eq]
  · intro size packets
    simpa [Dev.handleUsbrst] using h.alone size packets

theorem staged (h : InLaw p w) (hidle : w.dev.xferInProgress (epIn p) = false) {bytes : List Byte}
    (hbytes : (ringbufferRead XFER_SIZE (w.dev.ring (epIn p))).1 = bytes) :
    (w.dev.stagedIn p).Sound ∧ (w.dev.stagedIn p).loadBuffer (epIn p) bytes.length = bytes ∧
      (w.dev.stagedIn p).enabled (epIn p) = false ∧
      (∀ size packets, .send (epIn p) size packets true ∉ (w.dev.stagedIn p).log) ∧
      ∃ q, ((w.dev.stagedIn p).ring (epIn p)).Holds CDC_BUFFER_SIZE q ∧
        w.transmitted p ++ bytes ++ q = w.heldIn p ++ w.accepted p := by
  obtain ⟨held, hring, haccount⟩ := h.account
  obtain ⟨hread, hrest⟩ := hring.read XFER_SIZE
  have hoff : w.dev.enabled (epIn p) = false := h.enabled.trans hidle
  subst hbytes
  refine ⟨⟨h.sound.apart, h.sound.bufferLen, h.sound.readBufferLen⟩, ?_, hoff, ?_,
    held.drop XFER_SIZE, ?_, ?_⟩
  · apply Dev.loadBuffer_of_memory
    intro i hi
    simp [Dev.stagedIn, Dev.memcpy, hi]
  · intro size packets
    simpa [Dev.stagedIn, Dev.memcpy, Dev.setRing] using h.alone size packets
  · simpa [Dev.stagedIn, Dev.memcpy, Dev.setRing] using hrest
  · have hflight : w.inFlight p = [] := if_neg (by simp [hoff])
    rw [hflight, List.append_nil] at haccount
    rw [hread, List.append_assoc, List.take_append_drop]
    exact haccount

theorem sent {d : Dev} {bytes : List Byte} (packets : Nat) (hsound : d.Sound)
    (hload : d.loadBuffer (epIn p) bytes.length = bytes) (hoff : d.enabled (epIn p) = false)
    (hlen : bytes.length ≤ XFER_SIZE) (halone : ∀ size packets,
      .send (epIn p) size packets true ∉ d.log)
    (haccount : ∃ q, (d.ring (epIn p)).Holds CDC_BUFFER_SIZE q ∧
      w.transmitted p ++ bytes ++ q = w.heldIn p ++ w.accepted p) :
    InLaw p { w with
      dev := (d.epHwSend (epIn p) bytes.length packets).setInProgress (epIn p) true } := by
  obtain ⟨q, hring, hbytes⟩ := haccount
  simp only [Dev.epHwSend_of_in (dirIn_epIn p)]
  refine ⟨⟨hsound.apart, hsound.bufferLen, hsound.readBufferLen⟩, ⟨q, hring, ?_⟩, ?_, ?_, ?_⟩
  · have hflight : d.loadBuffer (epIn p) bytes.length = bytes := hload
    simp only [World.inFlight, Dev.setInProgress, Function.update_self, if_true]
    rw [← hflight] at hbytes
    simpa [Dev.loadBuffer] using hbytes
  · simp [Dev.setInProgress]
  · simpa [Dev.setInProgress] using hlen
  · intro size packets
    simp [Dev.setInProgress, hoff, halone]

theorem stageIn (h : InLaw p w) (q : PipeId) : InLaw p (w.stageIn q) := by
  by_cases hqp : q = p
  · subst hqp
    unfold World.stageIn World.mapDev
    rcases Dev.cdcStartBulkInXfer_cases q w.dev with
      ⟨-, hsame⟩ | ⟨hidle, hempty, hstaged⟩ | ⟨hidle, zlpPending, packets, hsent⟩
    · rw [hsame]
      exact h
    · obtain ⟨hsound, -, hoff, halone, left, hleft, hsum⟩ := h.staged hidle hempty
      rw [hstaged]
      refine ⟨hsound, ⟨left, hleft, ?_⟩, hoff.trans hidle.symm, h.xferSize, halone⟩
      simpa [World.inFlight, hoff] using hsum
    · obtain ⟨hsound, hload, hoff, halone, haccount⟩ := h.staged hidle rfl
      rw [hsent]
      exact sent packets ⟨hsound.apart, hsound.bufferLen, hsound.readBufferLen⟩ hload hoff
        (Ringbuffer.length_ringbufferRead_le _ _) halone haccount
  · exact h.keeps (Dev.Keeps.cdcStartBulkInXfer (epIn_injective.ne hqp))

theorem serveBulkIn (h : InLaw p { w with dev := w.dev.setInProgress (epIn p) false }) :
    InLaw p { w with dev := w.dev.serveBulkIn p } := by
  unfold Dev.serveBulkIn
  dsimp only
  split
  · exact h.stageIn p
  · exact h

/-- In every interrupt of the IN endpoint of `p` that is served during a transfer, `XferCompl`
    is among the causes. -/
def reportsCompl (p : PipeId) : Moment → World → Bool
  | .part (.bulkIn q diepint), w =>
    q ≠ p || diepint &&& Dev.XFER_COMPL ≠ 0 || !w.dev.enabled (epIn p)
  | _, _ => true

theorem bulkIn (h : InLaw p w) {diepint : U32}
    (hok : reportsCompl p (.part (.bulkIn p diepint)) w = true)
    (hw : w.controller (.part (.bulkIn p diepint)) = some w') :
    InLaw p { w' with dev := w'.dev.serveBulkIn p } := by
  apply serveBulkIn
  rcases World.controller_bulkIn hw with ⟨-, hen, rfl⟩ | ⟨hcompl, rfl⟩
  · obtain ⟨held, hring, haccount⟩ := h.account
    have hflight : w.inFlight p = w.dev.loadBuffer (epIn p) (w.dev.xferSize (epIn p)) := if_pos hen
    refine ⟨⟨h.sound.apart, h.sound.bufferLen, h.sound.readBufferLen⟩, ⟨held, hring, ?_⟩, ?_,
      h.xferSize, h.alone⟩
    · rw [hflight] at haccount
      simpa [World.inFlight, Dev.setInProgress, Dev.complete] using haccount
    · simp [Dev.setInProgress, Dev.complete]
  · -- another cause, which the condition admits only while nothing is in flight
    have hoff : w'.dev.enabled (epIn p) = false := by
      have hcases : diepint &&& Dev.XFER_COMPL ≠ 0 ∨ w'.dev.enabled (epIn p) = false := by
        simpa [reportsCompl] using hok
      exact hcases.resolve_left hcompl
    have hsame : w'.dev.setInProgress (epIn p) false = w'.dev := by
      have hprog : w'.dev.xferInProgress (epIn p) = false := h.enabled.symm.trans hoff
      simp only [Dev.setInProgress, ← hprog, Function.update_eq_self]
    rw [hsame]
    exact h

theorem moment (h : InLaw p w) {m : Moment} (hw : w.moment (reportsCompl p) m = some w') :
    InLaw p w' := by
  rcases World.moment_cases p hw with rfl | ⟨diepint, rfl⟩ | ⟨-, hkeeps⟩
  · obtain ⟨-, mid, d', hmid, hd', rfl⟩ := World.moment_eq_some hw
    cases hd'
    exact h.usbReset hmid
  · obtain ⟨hok, mid, d', hmid, hd', rfl⟩ := World.moment_eq_some hw
    cases hd'
    exact h.bulkIn hok hmid
  · exact h.of_keeps hkeeps

theorem invariant (p : PipeId) : World.Invariant (reportsCompl p) (InLaw p) where
  moment := fun _ _ _ h hw => h.moment hw
  take := fun q n _ h => h.take q n
  give := fun q bs _ h => h.give q bs
  armOut := fun q _ h => h.rearms (Dev.Rearms.cdcStartBulkOutXfer q)
  stageIn := fun q _ h => h.stageIn q

end InLaw

theorem inLaw_start {desc : Descriptors} {ring : Lep → Ringbuffer} {xferBuffer : Lep → Nat}
    (hring : ∀ p, (ring (epIn p)).Holds CDC_BUFFER_SIZE [])
    (hbuf : Private xferBuffer) (p : PipeId) : InLaw p (World.start desc ring xferBuffer) where
  sound := sound_start hbuf
  account := ⟨[], hring p, rfl⟩
  enabled := rfl
  xferSize := Nat.zero_le _
  alone := by simp [World.start, Dev.init, Dev.epActivate, Dev.note, dirIn, phyEndpoints,
    CTRL_IN, CTRL_OUT, EP_TYPE_CONTROL]

/-- **Every byte goes out once on an IN pipe.** What was transmitted, the transfer in flight and
    the ring are, in order, what the callers handed over, and no transfer is staged over one in
    flight: along every run in which an interrupt of the endpoint during a transfer reports its
    completion. -/
theorem bulkIn_exactlyOnce_of_compl (desc : Descriptors) (ring : Lep → Ringbuffer)
    (xferBuffer : Lep → Nat) (hring : ∀ p, (ring (epIn p)).Holds CDC_BUFFER_SIZE [])
    (hbuf : Private xferBuffer) (cs : List Call) (w : World) (p : PipeId)
    (hrun : (World.start desc ring xferBuffer).calls (InLaw.reportsCompl p) cs = some w) :
    w.transmitted p ++ w.inFlight p ++ (w.dev.ring (epIn p)).contents =
        w.heldIn p ++ w.accepted p ∧
      ∀ size packets, .send (epIn p) size packets true ∉ w.dev.log := by
  have hlaw := (InLaw.invariant p).calls cs _ w (inLaw_start hring hbuf p) hrun
  obtain ⟨held, hheld, haccount⟩ := hlaw.account
  rw [hheld.contents_eq]
  exact ⟨haccount, hlaw.alone⟩

def sampleWrite (diepint : U32) : List Call :=
  [.handleEvents openPipe, .write 0 [0x61] ⟨[], some []⟩, .queue 0 [0x62] ⟨[], some []⟩,
    .handleEvents [.part (.bulkIn 0 diepint)]]

theorem bulkIn_exactlyOnce_sample :
    ∃ w, sampleStart.calls (InLaw.reportsCompl 0) (sampleWrite 0x1) = some w ∧
      w.transmitted 0 = [0x61] ∧ w.inFlight 0 = [0x62] ∧
      (w.transmitted 0 ++ w.inFlight 0 ++ (w.dev.ring (epIn 0)).contents =
          w.heldIn 0 ++ w.accepted 0 ∧
        ∀ size packets, .send (epIn 0) size packets true ∉ w.dev.log) := by
  have hwrite : (sampleStart.calls (InLaw.reportsCompl 0) (sampleWrite 0x1)).map
      (fun w => (w.transmitted 0, w.inFlight 0)) = some ([0x61], [0x62]) := by decide +kernel
  obtain ⟨w, hw, hsent⟩ := Option.map_eq_some_iff.mp hwrite
  injection hsent with hfirst hsecond
  exact ⟨w, hw, hfirst, hsecond, bulkIn_exactlyOnce_of_compl sampleDesc (fun _ => sampleRing) _
    (fun _ => holds_sampleRing) private_sample (sampleWrite 0x1) w 0 hw⟩

/-- The same with `TimeOUT` (0x8) as the only cause: the second byte is staged over the first. -/
theorem bulkIn_timeout_loses_byte :
    ∃ w, sampleStart.calls (fun _ _ => true) (sampleWrite 0x8) = some w ∧
      w.transmitted 0 = [] ∧ w.inFlight 0 = [0x62] ∧ (w.dev.ring (epIn 0)).contents = [] ∧
      w.heldIn 0 ++ w.accepted 0 = [0x61, 0x62] ∧
      .send (epIn 0) 1 2 true ∈ w.dev.log := by
  have hwrite : (sampleStart.calls (fun _ _ => true) (sampleWrite 0x8)).map
      (fun w => (w.transmitted 0, w.inFlight 0, (w.dev.ring (epIn 0)).contents,
        w.heldIn 0 ++ w.accepted 0, decide (.send (epIn 0) 1 2 true ∈ w.dev.log))) =
      some ([], [0x62], [], [0x61, 0x62], true) := by decide +kernel
  obtain ⟨w, hw, hsent⟩ := Option.map_eq_some_iff.mp hwrite
  simp only [Prod.mk.injEq, decide_eq_true_eq] at hsent
  exact ⟨w, hw, hsent⟩

end MiniHaywire.Dwc2
