import MiniHaywire.Dwc2

/-!
# What the driver leaves alone

Every function of the driver works on one endpoint, or on the two directions of the control
endpoint.  `Keeps ep` says that the rest of the driver's work does not show at endpoint `ep`;
`Rearms ep` allows for the one way around, a DTR request that arms an idle OUT endpoint.
-/

namespace MiniHaywire.Dwc2

/-- The endpoint an action is about, for the actions that belong to a transfer. -/
def Action.endpoint : Action → Option Lep
  | .recv ep _ _ | .send ep _ _ _ | .cpuWrite ep _ _ | .truncated ep => some ep
  | _ => none

theorem dirIn_epIntr (p : PipeId) : dirIn (epIntr p) = true := by fin_cases p <;> rfl

theorem dirIn_epIn (p : PipeId) : dirIn (epIn p) = true := by fin_cases p <;> rfl

theorem dirIn_epOut (p : PipeId) : dirIn (epOut p) = false := by fin_cases p <;> rfl

namespace Dev

theorem cdcGetRingbuffer_epIn (d : Dev) (p : PipeId) :
    d.cdcGetRingbuffer (epIn p) = some (d.ring (epIn p)) := by fin_cases p <;> rfl

theorem cdcGetRingbuffer_epOut (d : Dev) (p : PipeId) :
    d.cdcGetRingbuffer (epOut p) = some (d.ring (epOut p)) := by fin_cases p <;> rfl

theorem epHwRecv_of_out {ep : Lep} (h : dirIn ep = false) (hwXferSize packetCount : Nat) (d : Dev) :
    d.epHwRecv ep hwXferSize packetCount =
      { d with
        enabled := Function.update d.enabled ep true
        xferSize := Function.update d.xferSize ep hwXferSize
        log := d.log ++ [.recv ep hwXferSize packetCount] } :=
  if_neg (by rw [h]; exact Bool.false_ne_true)

theorem epHwSend_of_in {ep : Lep} (h : dirIn ep = true) (hwXferSize packetCount : Nat) (d : Dev) :
    d.epHwSend ep hwXferSize packetCount =
      { d with
        enabled := Function.update d.enabled ep true
        xferSize := Function.update d.xferSize ep hwXferSize
        log := d.log ++ [.send ep hwXferSize packetCount (d.enabled ep)] } :=
  if_neg (by rw [h]; exact Bool.false_ne_true)

theorem added_trans {P : Action → Prop} {l l' l'' : List Action}
    (h : ∃ new, l' = l ++ new ∧ ∀ a ∈ new, P a) (h' : ∃ new, l'' = l' ++ new ∧ ∀ a ∈ new, P a) :
    ∃ new, l'' = l ++ new ∧ ∀ a ∈ new, P a := by
  obtain ⟨new, rfl, hnew⟩ := h
  obtain ⟨new', rfl, hnew'⟩ := h'
  exact ⟨new ++ new', List.append_assoc _ _ _, List.forall_mem_append.mpr ⟨hnew, hnew'⟩⟩

/-- Transfer buffers of `XFER_SIZE` bytes that do not meet, and lengths of the control
    endpoint that fit into any of them. -/
structure Sound (d : Dev) : Prop where
  apart : ∀ i j, i ≠ j → ∀ a < XFER_SIZE, ∀ b < XFER_SIZE, d.xferBuffer i + a ≠ d.xferBuffer j + b
  bufferLen : d.ep0BufferLen ≤ 255
  readBufferLen : d.ep0ReadBufferLen = 0

structure Keeps (ep : Lep) (d d' : Dev) : Prop where
  xferBuffer : d'.xferBuffer = d.xferBuffer
  sound : d.Sound → d'.Sound
  ring : d'.ring ep = d.ring ep
  xferInProgress : d'.xferInProgress ep = d.xferInProgress ep
  enabled : d'.enabled ep = d.enabled ep
  xferSize : d'.xferSize ep = d.xferSize ep
  window : d.Sound → ∀ i < XFER_SIZE,
    d'.memory (d.xferBuffer ep + i) = d.memory (d.xferBuffer ep + i)
  log : ∃ new, d'.log = d.log ++ new ∧ ∀ a ∈ new, a.endpoint ≠ some ep

namespace Keeps

variable {ep e : Lep} {d d' d'' : Dev}

theorem refl (ep : Lep) (d : Dev) : Keeps ep d d where
  xferBuffer := rfl
  sound := id
  ring := rfl
  xferInProgress := rfl
  enabled := rfl
  xferSize := rfl
  window := fun _ _ _ => rfl
  log := ⟨[], by simp⟩

theorem trans (h : Keeps ep d d') (h' : Keeps ep d' d'') : Keeps ep d d'' where
  xferBuffer := h'.xferBuffer.trans h.xferBuffer
  sound := fun s => h'.sound (h.sound s)
  ring := h'.ring.trans h.ring
  xferInProgress := h'.xferInProgress.trans h.xferInProgress
  enabled := h'.enabled.trans h.enabled
  xferSize := h'.xferSize.trans h.xferSize
  window := by
    intro s i hi
    have late := h'.window (h.sound s) i hi
    rw [h.xferBuffer] at late
    exact late.trans (h.window s i hi)
  log := added_trans h.log h'.log

theorem loadBuffer (h : Keeps ep d d') (s : d.Sound) {n : Nat} (hn : n ≤ XFER_SIZE) :
    d'.loadBuffer ep n = d.loadBuffer ep n := by
  apply List.map_congr_left
  intro i hi
  rw [h.xferBuffer]
  exact h.window s i (lt_of_lt_of_le (List.mem_range.mp hi) hn)

theorem of_fields (a : Action) (ha : a.endpoint = none) (hbuf : d'.xferBuffer = d.xferBuffer)
    (hlen : d'.ep0BufferLen = d.ep0BufferLen) (hread : d'.ep0ReadBufferLen = d.ep0ReadBufferLen)
    (hring : d'.ring = d.ring) (hprog : d'.xferInProgress = d.xferInProgress)
    (hen : d'.enabled = d.enabled) (hsize : d'.xferSize = d.xferSize)
    (hmem : d'.memory = d.memory) (hlog : d'.log = d.log ∨ d'.log = d.log ++ [a]) :
    Keeps ep d d' where
  xferBuffer := hbuf
  sound := fun s => ⟨hbuf ▸ s.apart, hlen ▸ s.bufferLen, hread ▸ s.readBufferLen⟩
  ring := congrFun hring ep
  xferInProgress := congrFun hprog ep
  enabled := congrFun hen ep
  xferSize := congrFun hsize ep
  window := fun _ _ _ => congrFun hmem _
  log := by
    rcases hlog with hlog | hlog
    · exact ⟨[], by simpa using hlog, by simp⟩
    · exact ⟨[a], hlog, by simp [ha]⟩

theorem note (a : Action) (ha : a.endpoint = none) : Keeps ep d (d.note a) :=
  of_fields a ha rfl rfl rfl rfl rfl rfl rfl rfl (.inr rfl)

theorem setState (s : Ep0State) : Keeps ep d (d.setState s) :=
  of_fields (.setAddress 0) rfl rfl rfl rfl rfl rfl rfl rfl rfl (.inl rfl)

theorem setReady (ready : PipeId → Bool) : Keeps ep d { d with ready } :=
  of_fields (.setAddress 0) rfl rfl rfl rfl rfl rfl rfl rfl rfl (.inl rfl)

theorem epActivate (e : Lep) (type len : Nat) : Keeps ep d (d.epActivate e type len) := by
  unfold Dev.epActivate
  split
  · exact refl ep d
  · split
    · exact of_fields (.activate _ _ _ _) rfl rfl rfl rfl rfl rfl rfl rfl rfl (.inr rfl)
    · exact note _ rfl

theorem setInProgress (hne : e ≠ ep) (b : Bool) : Keeps ep d (d.setInProgress e b) where
  xferBuffer := rfl
  sound := fun s => ⟨s.apart, s.bufferLen, s.readBufferLen⟩
  ring := rfl
  xferInProgress := Function.update_of_ne hne.symm _ _
  enabled := rfl
  xferSize := rfl
  window := fun _ _ _ => rfl
  log := ⟨[], by simp [Dev.setInProgress]⟩

theorem setRing (hne : e ≠ ep) (r : Ringbuffer) : Keeps ep d (d.setRing e r) where
  xferBuffer := rfl
  sound := fun s => ⟨s.apart, s.bufferLen, s.readBufferLen⟩
  ring := Function.update_of_ne hne.symm _ _
  xferInProgress := rfl
  enabled := rfl
  xferSize := rfl
  window := fun _ _ _ => rfl
  log := ⟨[], by simp [Dev.setRing]⟩

theorem noteTruncated (hne : e ≠ ep) : Keeps ep d (d.note (.truncated e)) where
  xferBuffer := rfl
  sound := fun s => ⟨s.apart, s.bufferLen, s.readBufferLen⟩
  ring := rfl
  xferInProgress := rfl
  enabled := rfl
  xferSize := rfl
  window := fun _ _ _ => rfl
  log := ⟨[.truncated e], rfl, by simp [Action.endpoint, hne]⟩

theorem outside (s : d.Sound) (hne : e ≠ ep) {n i : Nat} (hn : n ≤ XFER_SIZE) (hi : i < XFER_SIZE) :
    ¬(d.xferBuffer e ≤ d.xferBuffer ep + i ∧ d.xferBuffer ep + i < d.xferBuffer e + n) := by
  rintro ⟨hlo, hhi⟩
  obtain ⟨a, ha⟩ := Nat.exists_eq_add_of_le hlo
  exact s.apart ep e hne.symm i hi a (by omega) ha

theorem store (hne : e ≠ ep) (f : Nat → Byte) (n : Nat) (hn : d.Sound → n ≤ XFER_SIZE) :
    Keeps ep d { d with
      memory := fun a =>
        if d.xferBuffer e ≤ a ∧ a < d.xferBuffer e + n then f a else d.memory a
      log := d.log ++ [.cpuWrite e (d.xferBuffer e) n] } where
  xferBuffer := rfl
  sound := fun s => ⟨s.apart, s.bufferLen, s.readBufferLen⟩
  ring := rfl
  xferInProgress := rfl
  enabled := rfl
  xferSize := rfl
  window := fun s _ hi => if_neg (outside s hne (hn s) hi)
  log := ⟨_, rfl, by simp [Action.endpoint, hne]⟩

theorem memset (hne : e ≠ ep) (v : Byte) (n : Nat) (hn : d.Sound → n ≤ XFER_SIZE) :
    Keeps ep d (d.memset e v n) :=
  store hne (fun _ => v) n hn

theorem memcpy (hne : e ≠ ep) (bs : List Byte) (hn : d.Sound → bs.length ≤ XFER_SIZE) :
    Keeps ep d (d.memcpy e bs) :=
  store hne (fun a => bs.getD (a - d.xferBuffer e) 0) bs.length hn

theorem program (hne : e ≠ ep) (size : Nat) (a : Action) (ha : a.endpoint = some e) :
    Keeps ep d { d with enabled := Function.update d.enabled e true
                        xferSize := Function.update d.xferSize e size
                        log := d.log ++ [a] } where
  xferBuffer := rfl
  sound := fun s => ⟨s.apart, s.bufferLen, s.readBufferLen⟩
  ring := rfl
  xferInProgress := rfl
  enabled := Function.update_of_ne hne.symm _ _
  xferSize := Function.update_of_ne hne.symm _ _
  window := fun _ _ _ => rfl
  log := ⟨[a], rfl, by simp [ha, hne]⟩

theorem epHwRecv (hne : e ≠ ep) (size packets : Nat) : Keeps ep d (d.epHwRecv e size packets) := by
  unfold Dev.epHwRecv
  split
  · exact refl ep d
  · exact program hne size _ rfl

theorem epHwSend (hne : e ≠ ep) (size packets : Nat) : Keeps ep d (d.epHwSend e size packets) := by
  unfold Dev.epHwSend
  split
  · exact refl ep d
  · exact program hne size _ rfl

theorem answer (bs : List Byte) {len : Nat} (hlen : len ≤ 255) : Keeps ep d (d.answer bs len) where
  xferBuffer := rfl
  sound := fun s => ⟨s.apart, hlen, s.readBufferLen⟩
  ring := rfl
  xferInProgress := rfl
  enabled := rfl
  xferSize := rfl
  window := fun _ _ _ => rfl
  log := ⟨[], by simp [Dev.answer]⟩

/-! ### Bulk transfers on another endpoint -/

theorem cdcStartBulkOutXfer (hne : e ≠ ep) : Keeps ep d (d.cdcStartBulkOutXfer e) := by
  unfold Dev.cdcStartBulkOutXfer
  split
  · exact refl ep d
  · split
    · exact refl ep d
    · split
      · exact refl ep d
      · exact ((memset hne 0xaa XFER_SIZE fun _ => le_rfl).trans (epHwRecv hne 512 1)).trans
          (setInProgress hne true)

theorem setZlpPending (zlpPending : Lep → Bool) : Keeps ep d { d with zlpPending } :=
  of_fields (.setAddress 0) rfl rfl rfl rfl rfl rfl rfl rfl rfl (.inl rfl)

theorem cdcStartBulkInXfer (hne : e ≠ ep) : Keeps ep d (d.cdcStartBulkInXfer e) := by
  unfold Dev.cdcStartBulkInXfer
  split
  · exact refl ep d
  · split
    · exact refl ep d
    · rename_i ring _
      have staged : Keeps ep d
          ((d.setRing e (ringbufferRead XFER_SIZE ring).2).memcpy e
            (ringbufferRead XFER_SIZE ring).1) :=
        (setRing hne _).trans (memcpy hne _ fun _ => Ringbuffer.length_ringbufferRead_le _ _)
      dsimp only
      split
      · exact staged
      · split
        · exact ((staged.trans (setZlpPending _)).trans (epHwSend hne _ _)).trans
            (setInProgress hne _)
        · exact (staged.trans (epHwSend hne _ _)).trans (setInProgress hne _)

theorem cdcHandleBulkOutXferDone (hne : e ≠ ep) (doeptsiz : U32) :
    Keeps ep d (d.cdcHandleBulkOutXferDone e doeptsiz) := by
  unfold Dev.cdcHandleBulkOutXferDone
  split
  · exact refl ep d
  · rename_i ring _
    have hwarned : Keeps ep d (if ringbufferGetFree ring < 0x200 - (doeptsiz &&& 0x7fff)
        then d.note (.truncated e) else d) := by
      split
      · exact noteTruncated hne
      · exact refl ep d
    exact hwarned.trans ((setRing hne _).trans (setInProgress hne _))

theorem serveBulkOut {p : PipeId} (hne : epOut p ≠ ep) (doepint doeptsiz : U32) :
    Keeps ep d (d.serveBulkOut p doepint doeptsiz) := by
  unfold Dev.serveBulkOut
  split
  · exact (cdcHandleBulkOutXferDone hne doeptsiz).trans (cdcStartBulkOutXfer hne)
  · exact refl ep d

theorem serveBulkIn {p : PipeId} (hne : epIn p ≠ ep) : Keeps ep d (d.serveBulkIn p) := by
  unfold Dev.serveBulkIn
  dsimp only
  split
  · exact (setInProgress hne false).trans (cdcStartBulkInXfer hne)
  · exact setInProgress hne false

end Keeps

/-! ### The control endpoint -/

/-- Endpoint `ep`, an idle OUT endpoint with `XFER_SIZE` bytes free in its ring, is armed. -/
structure Arms (ep : Lep) (d d' : Dev) : Prop where
  out : ∃ p, ep = epOut p
  xferBuffer : d'.xferBuffer = d.xferBuffer
  sound : d.Sound → d'.Sound
  ring : d'.ring ep = d.ring ep
  idle : d.xferInProgress ep = false
  armed : d'.xferInProgress ep = true
  enabled : d'.enabled ep = true
  room : XFER_SIZE ≤ (ringbufferGetFree (d.ring ep)).toNat
  log : ∃ new, d'.log = d.log ++ new ∧ ∀ a ∈ new, a ≠ .truncated ep

def Rearms (ep : Lep) (d d' : Dev) : Prop := Keeps ep d d' ∨ Arms ep d d'

theorem Keeps.rearms {ep : Lep} {d d' : Dev} (h : Keeps ep d d') : Rearms ep d d' := .inl h

theorem Keeps.log_truncated {ep : Lep} {d d' : Dev} (h : Keeps ep d d') :
    ∃ new, d'.log = d.log ++ new ∧ ∀ a ∈ new, a ≠ .truncated ep := by
  obtain ⟨new, hnew, hon⟩ := h.log
  refine ⟨new, hnew, ?_⟩
  rintro a ha rfl
  exact hon _ ha rfl

/-- `usb_dwc2_cdc_start_bulk_out_xfer` arms an idle endpoint if its ring has the room, and else
    does nothing. -/
theorem cdcStartBulkOutXfer_cases (p : PipeId) (d : Dev) :
    ((d.xferInProgress (epOut p) = true ∨
        (ringbufferGetFree (d.ring (epOut p))).toNat < XFER_SIZE) ∧
      d.cdcStartBulkOutXfer (epOut p) = d) ∨
    (d.xferInProgress (epOut p) = false ∧ XFER_SIZE ≤ (ringbufferGetFree (d.ring (epOut p))).toNat ∧
      d.cdcStartBulkOutXfer (epOut p) =
        ((d.memset (epOut p) 0xaa XFER_SIZE).epHwRecv (epOut p) 512 1).setInProgress
          (epOut p) true) := by
  have hring := d.cdcGetRingbuffer_epOut p
  by_cases hprog : d.xferInProgress (epOut p) = true
  · exact .inl ⟨.inl hprog, if_pos hprog⟩
  · by_cases hroom : (ringbufferGetFree (d.ring (epOut p))).toNat < XFER_SIZE
    · refine .inl ⟨.inr hroom, ?_⟩
      simp only [Dev.cdcStartBulkOutXfer, hprog, hring, hroom, if_true]
      rfl
    · refine .inr ⟨by simpa using hprog, not_lt.mp hroom, ?_⟩
      simp only [Dev.cdcStartBulkOutXfer, hprog, hring, hroom, if_false]
      rfl

/-- The bytes `usb_dwc2_cdc_start_bulk_in_xfer` takes out of the ring are in the transfer buffer. -/
def stagedIn (p : PipeId) (d : Dev) : Dev :=
  (d.setRing (epIn p) (ringbufferRead XFER_SIZE (d.ring (epIn p))).2).memcpy (epIn p)
    (ringbufferRead XFER_SIZE (d.ring (epIn p))).1

/-- `usb_dwc2_cdc_start_bulk_in_xfer` leaves an endpoint in progress alone.  For an idle one it
    takes the next bytes, and sends them unless there are none and no packet is owed. -/
theorem cdcStartBulkInXfer_cases (p : PipeId) (d : Dev) :
    (d.xferInProgress (epIn p) = true ∧ d.cdcStartBulkInXfer (epIn p) = d) ∨
    (d.xferInProgress (epIn p) = false ∧ (ringbufferRead XFER_SIZE (d.ring (epIn p))).1 = [] ∧
      d.cdcStartBulkInXfer (epIn p) = d.stagedIn p) ∨
    (d.xferInProgress (epIn p) = false ∧ ∃ zlpPending packets, d.cdcStartBulkInXfer (epIn p) =
      (Dev.epHwSend (epIn p) (ringbufferRead XFER_SIZE (d.ring (epIn p))).1.length packets
        { d.stagedIn p with zlpPending }).setInProgress (epIn p) true) := by
  have hring := d.cdcGetRingbuffer_epIn p
  by_cases hprog : d.xferInProgress (epIn p) = true
  · exact .inl ⟨hprog, if_pos hprog⟩
  · have hidle : d.xferInProgress (epIn p) = false := by simpa using hprog
    refine .inr ?_
    simp only [Dev.cdcStartBulkInXfer, hidle, Bool.false_eq_true, if_false, hring]
    split
    · rename_i hempty
      exact .inl ⟨trivial, List.length_eq_zero_iff.mp hempty.1, rfl⟩
    · split
      · exact .inr ⟨trivial, _, _, rfl⟩
      · exact .inr ⟨trivial, (d.stagedIn p).zlpPending, _, rfl⟩

namespace Rearms

variable {ep : Lep} {d d' d'' : Dev}

theorem trans (h : Rearms ep d d') (h' : Rearms ep d' d'') : Rearms ep d d'' := by
  rcases h with h | h <;> rcases h' with h' | h'
  · exact .inl (h.trans h')
  · exact .inr
      { out := h'.out
        xferBuffer := h'.xferBuffer.trans h.xferBuffer
        sound := fun s => h'.sound (h.sound s)
        ring := h'.ring.trans h.ring
        idle := h.xferInProgress ▸ h'.idle
        armed := h'.armed
        enabled := h'.enabled
        room := h.ring ▸ h'.room
        log := added_trans h.log_truncated h'.log }
  · exact .inr
      { out := h.out
        xferBuffer := h'.xferBuffer.trans h.xferBuffer
        sound := fun s => h'.sound (h.sound s)
        ring := h'.ring.trans h.ring
        idle := h.idle
        armed := h'.xferInProgress.trans h.armed
        enabled := h'.enabled.trans h.enabled
        room := h.room
        log := added_trans h.log h'.log_truncated }
  -- once armed the endpoint is in progress, and is not armed again
  · exact absurd (h.armed.symm.trans h'.idle) (by simp)

/-- An endpoint that is not the OUT endpoint of a pipe is never armed by the rest. -/
theorem keeps (h : Rearms ep d d') (hep : ∀ p, ep ≠ epOut p) : Keeps ep d d' := by
  rcases h with h | h
  · exact h
  · obtain ⟨p, rfl⟩ := h.out
    exact absurd rfl (hep p)

theorem cdcStartBulkOutXfer (p : PipeId) : Rearms ep d (d.cdcStartBulkOutXfer (epOut p)) := by
  by_cases hne : epOut p = ep
  · subst hne
    rcases cdcStartBulkOutXfer_cases p d with ⟨-, hsame⟩ | ⟨hidle, hroom, harmed⟩
    · rw [hsame]
      exact (Keeps.refl _ _).rearms
    · rw [harmed, epHwRecv_of_out (dirIn_epOut p)]
      exact .inr
        { out := ⟨p, rfl⟩
          xferBuffer := rfl
          sound := fun s => ⟨s.apart, s.bufferLen, s.readBufferLen⟩
          ring := rfl
          idle := hidle
          armed := Function.update_self _ _ _
          enabled := Function.update_self _ _ _
          room := hroom
          log := ⟨[.cpuWrite _ _ _, .recv _ _ _], List.append_assoc _ [_] [_], by simp⟩ }
  · exact (Keeps.cdcStartBulkOutXfer hne).rearms

end Rearms

theorem length_findDescriptor {d : Dev} {setup : Setup} {bs : List Byte}
    (h : d.findDescriptor setup = some bs) : bs.length ≤ 255 := by
  have hlt := d.desc.length_lt
  have hmem : bs ∈ [d.desc.device, d.desc.configuration, d.desc.qualifier, d.desc.languages,
      d.desc.manufacturer, d.desc.product, d.desc.serial] := by
    unfold findDescriptor cdcGetStringDescriptor at h
    split at h
    · simp [← Option.some.inj h]
    · simp [← Option.some.inj h]
    · split at h
      · simp [← Option.some.inj h]
      · simp [← Option.some.inj h]
      · simp [← Option.some.inj h]
      · simp [← Option.some.inj h]
      · cases h
    · simp [← Option.some.inj h]
    · cases h
  exact Nat.le_of_lt_succ (hlt bs hmem)

/-! ### What the control endpoint's handlers are made of -/

/-- The steps that the handlers of the control endpoint consist of. -/
inductive Ep0Step : Dev → Dev → Prop
  | note (d : Dev) (a : Action) (ha : a.endpoint = none) : Ep0Step d (d.note a)
  | state (d : Dev) (s : Ep0State) : Ep0Step d (d.setState s)
  | ready (d : Dev) (ready : PipeId → Bool) : Ep0Step d { d with ready }
  | activate (d : Dev) (ep : Lep) (type len : Nat) : Ep0Step d (d.epActivate ep type len)
  | answer (d : Dev) (bs : List Byte) (len : Nat) (hlen : len ≤ 255) : Ep0Step d (d.answer bs len)
  | recv (d : Dev) (size packets : Nat) : Ep0Step d (d.epHwRecv CTRL_OUT size packets)
  | send (d : Dev) (size packets : Nat) : Ep0Step d (d.epHwSend CTRL_IN size packets)
  | dataSend (d : Dev) : Ep0Step d d.ep0StartDataSendPhase
  | dataRecv (d : Dev) : Ep0Step d d.ep0StartDataRecvPhase
  | dropRead (d : Dev) : Ep0Step d { d with ep0ReadBufferLen := 0 }
  | arm (d : Dev) (p : PipeId) : Ep0Step d (d.cdcStartBulkOutXfer (epOut p))

def Ep0Steps : Dev → Dev → Prop := Relation.ReflTransGen Ep0Step

namespace Ep0Steps

variable {d d' d'' : Dev}

theorem refl (d : Dev) : Ep0Steps d d := Relation.ReflTransGen.refl

theorem one (h : Ep0Step d d') : Ep0Steps d d' := .single h

theorem trans (h : Ep0Steps d d') (h' : Ep0Steps d' d'') : Ep0Steps d d'' :=
  Relation.ReflTransGen.trans h h'

theorem andThen (h : Ep0Steps d d') (h' : Ep0Step d' d'') : Ep0Steps d d'' := h.tail h'

theorem stallEp0 (d : Dev) : Ep0Steps d d.stallEp0 :=
  (one (.note d (.setStall 0 true) rfl)).andThen (.state _ .idle)

theorem startStatusIn (d : Dev) : Ep0Steps d (d.startStatusPhase CTRL_IN) := one (.send d 0 1)

theorem startStatusOut (d : Dev) : Ep0Steps d (d.startStatusPhase CTRL_OUT) := one (.recv d 64 1)

theorem ep0HandleStandardDevice (setup : Setup) (d : Dev) :
    Ep0Steps d (d.ep0HandleStandardDevice setup) := by
  unfold Dev.ep0HandleStandardDevice
  split
  · exact (one (.note d _ rfl)).andThen (.state _ _)
  split
  · split
    · exact (one (.ready d _)).andThen (.state _ _)
    split
    · refine andThen ?_ (.state _ _)
      simp only [List.finRange_succ, List.finRange_zero, List.map_nil, List.map_cons,
        List.foldl_cons, List.foldl_nil]
      exact (((((one (.activate d _ _ _)).andThen (.activate _ _ _ _)).andThen
        (.activate _ _ _ _)).andThen (.activate _ _ _ _)).andThen (.activate _ _ _ _)).andThen
        (.activate _ _ _ _)
    · exact stallEp0 d
  split
  · split
    · rename_i bs hbs
      exact one (.answer d bs _ ((min_le_right _ _).trans (length_findDescriptor hbs)))
    · exact stallEp0 d
  split
  · exact one (.answer d _ _ (by decide))
  · exact stallEp0 d

theorem ep0HandleStandard (setup : Setup) (d : Dev) : Ep0Steps d (d.ep0HandleStandard setup) := by
  unfold Dev.ep0HandleStandard
  split
  · exact ep0HandleStandardDevice setup d
  split
  · unfold Dev.ep0HandleStandardInterface
    split
    · exact one (.answer d _ _ (by decide))
    · exact stallEp0 d
  split
  · unfold Dev.ep0HandleStandardEndpoint
    split
    · exact one (.answer d _ _ (by decide))
    split
    · split
      · exact ((one (.note d _ rfl)).trans (startStatusIn _)).andThen (.state _ _)
      · exact stallEp0 d
    · exact stallEp0 d
  · exact stallEp0 d

theorem setCtrlLineState (p : PipeId) (setup : Setup) (d : Dev) :
    Ep0Steps d (d.setCtrlLineState p setup) := by
  unfold Dev.setCtrlLineState
  refine trans ?_ ((startStatusIn _).andThen (.state _ _))
  split
  · exact (one (.ready d _)).andThen (.arm _ p)
  · exact one (.ready d _)

theorem ep0HandleSetup (d : Dev) : Ep0Steps d d.ep0HandleSetup := by
  unfold Dev.ep0HandleSetup
  dsimp only
  refine trans (one (.note d (.handleSetup (Setup.ofBytes (d.loadBuffer CTRL_OUT 8))) rfl)) ?_
  split
  · exact ep0HandleStandard _ _
  split
  · unfold Dev.ep0HandleClass
    split
    · dsimp only
      split
      · exact one (.answer _ _ _ (by omega))
      split
      · exact setCtrlLineState _ _ _
      · exact stallEp0 _
    · exact stallEp0 _
  · exact stallEp0 _

theorem ep0HandleXferDone (d : Dev) : Ep0Steps d d.ep0HandleXferDone := by
  unfold Dev.ep0HandleXferDone
  split
  · exact ep0HandleSetup d
  · exact (one (.recv d 64 1)).andThen (.state _ _)
  · exact (one (.recv d 64 1)).andThen (.state _ _)
  · exact one (.state d _)
  · exact one (.state d _)
  · exact (one (.note d _ rfl)).trans (stallEp0 _)

theorem ep0HandleXferNotReady (d : Dev) : Ep0Steps d d.ep0HandleXferNotReady := by
  unfold Dev.ep0HandleXferNotReady
  split
  · exact refl d
  · exact refl d
  · exact refl d
  · exact (one (.recv d 64 1)).andThen (.state _ _)
  · exact (one (.dataSend d)).andThen (.state _ _)
  · exact (one (.dataRecv d)).andThen (.state _ _)
  · exact (startStatusOut d).andThen (.state _ _)
  · exact (startStatusIn d).andThen (.state _ _)
  · exact (one (.note d _ rfl)).trans (stallEp0 _)

theorem ep0Handlers (d : Dev) : Ep0Steps d d.ep0HandleXferDone.ep0HandleXferNotReady :=
  (ep0HandleXferDone d).trans (ep0HandleXferNotReady _)

theorem serveEp0In (diepint : U32) (d : Dev) : Ep0Steps d (d.serveEp0In diepint) := by
  unfold Dev.serveEp0In
  split
  · exact ep0Handlers d
  · exact refl d

theorem serveEp0Out {doepint : U32} (h : d.serveEp0Out doepint = some d') : Ep0Steps d d' := by
  unfold Dev.serveEp0Out at h
  dsimp only at h
  generalize hpend : (if (doepint &&& STUP_PKT_RCVD ≠ 0 ∨ doepint &&& SETUP ≠ 0) ∧
    d.ep0State = .setupHandle then d.setState .setupPending else d) = pend at h
  have hsteps : Ep0Steps d pend := by
    rw [← hpend]
    split
    · exact one (.state d _)
    · exact refl d
  refine hsteps.trans ?_
  split at h
  · split at h
    · cases h
      exact (one (.state pend _)).trans (ep0Handlers _)
    · cases h
  split at h
  · split at h
    · cases h
      exact ep0HandleXferDone pend
    split at h
    · cases h
      exact ep0Handlers pend
    split at h
    · cases h
      exact ((one (.note pend _ rfl)).andThen (.state _ _)).trans (ep0HandleXferNotReady _)
    · obtain rfl := Option.some.inj h
      exact refl pend
  · obtain rfl := Option.some.inj h
    exact refl pend

theorem handleEventConnectDone (highSpeed : Bool) (d : Dev) :
    Ep0Steps d (d.handleEventConnectDone highSpeed) := by
  unfold Dev.handleEventConnectDone
  split
  · exact (((((one (.activate d CTRL_OUT EP_TYPE_CONTROL 64)).andThen
      (.activate _ CTRL_IN EP_TYPE_CONTROL 64)).andThen (.recv _ 64 1)).andThen
      (.state _ .setupHandle)).andThen (.dropRead _))
  · exact refl d

end Ep0Steps

variable {ep : Lep} {d d' : Dev}

theorem Ep0Step.rearms (hout : CTRL_OUT ≠ ep) (hin : CTRL_IN ≠ ep) (h : Ep0Step d d') :
    Rearms ep d d' := by
  cases h with
  | note a ha => exact (Keeps.note a ha).rearms
  | state s => exact (Keeps.setState s).rearms
  | ready r => exact (Keeps.setReady r).rearms
  | activate e type len => exact (Keeps.epActivate e type len).rearms
  | answer bs len hlen => exact (Keeps.answer bs hlen).rearms
  | recv size packets => exact (Keeps.epHwRecv hout size packets).rearms
  | send size packets => exact (Keeps.epHwSend hin size packets).rearms
  | dataSend =>
    refine (((Keeps.memset hin 0 64 fun _ => by decide).trans
      (Keeps.memcpy hin _ fun s => ?_)).trans (Keeps.epHwSend hin _ _)).rearms
    have hlen : d.ep0BufferLen ≤ 255 := s.bufferLen
    simp only [List.length_take, XFER_SIZE]
    omega
  | dataRecv =>
    exact ((Keeps.memset hout _ _ fun s => by rw [s.readBufferLen]; exact Nat.zero_le _).trans
      (Keeps.epHwRecv hout _ _)).rearms
  | dropRead =>
    have hkeeps : Keeps ep d { d with ep0ReadBufferLen := 0 } :=
      ⟨rfl, fun s => ⟨s.apart, s.bufferLen, rfl⟩, rfl, rfl, rfl, rfl, fun _ _ _ => rfl, [], by simp⟩
    exact hkeeps.rearms
  | arm p => exact Rearms.cdcStartBulkOutXfer p

theorem Ep0Steps.rearms (hout : CTRL_OUT ≠ ep) (hin : CTRL_IN ≠ ep) (h : Ep0Steps d d') :
    Rearms ep d d' := by
  induction h with
  | refl => exact (Keeps.refl ep d).rearms
  | tail _ hstep ih => exact ih.trans (hstep.rearms hout hin)

end Dev

end MiniHaywire.Dwc2
