import MiniHaywire.Dwc2Bulk

/-!
# Who writes where in the DMA page

`usb_dwc2_init` gives endpoint `i` the slice of `DMA_BUFFER_SIZE` bytes at
`i * DMA_BUFFER_SIZE`.  The control endpoint stays inside of its slices.  Arming a bulk OUT
transfer clears `XFER_SIZE` bytes, four slices, and staging a bulk IN transfer copies up to
as many.
-/

namespace MiniHaywire.Dwc2

/-- The bytes an action writes through a buffer pointer lie in the slice of its endpoint. -/
def Action.Inside : Action → Prop
  | .cpuWrite ep start len =>
    ep.val * DMA_BUFFER_SIZE ≤ start ∧ start + len ≤ (ep.val + 1) * DMA_BUFFER_SIZE
  | _ => True

/-- Why an action is in the log `l`: a write is short, as all of the control endpoint are, or
    goes with the bulk transfer it prepares, and every bulk transfer has its write. -/
def Action.Explained (l : List Action) : Action → Prop
  | .cpuWrite ep start len =>
    start = ep.val * DMA_BUFFER_SIZE ∧
      (len ≤ 255 ∨
        (∃ p size packets, ep = epOut p ∧ len = XFER_SIZE ∧ .recv ep size packets ∈ l) ∨
        ∃ p packets busy, ep = epIn p ∧ .send ep len packets busy ∈ l)
  | .recv ep _ _ => ∀ p, ep = epOut p → .cpuWrite ep (ep.val * DMA_BUFFER_SIZE) XFER_SIZE ∈ l
  | .send ep size _ _ => ∀ p, ep = epIn p → .cpuWrite ep (ep.val * DMA_BUFFER_SIZE) size ∈ l
  | _ => True

theorem Action.Explained.mono {l l' : List Action} (hsub : l ⊆ l') {a : Action}
    (h : a.Explained l) : a.Explained l' := by
  cases a with
  | cpuWrite ep start len =>
    obtain ⟨hstart, hsmall | ⟨p, size, packets, hep, hlen, hrecv⟩ | ⟨p, packets, busy, hep,
        hsend⟩⟩ := h
    · exact ⟨hstart, .inl hsmall⟩
    · exact ⟨hstart, .inr (.inl ⟨p, size, packets, hep, hlen, hsub hrecv⟩)⟩
    · exact ⟨hstart, .inr (.inr ⟨p, packets, busy, hep, hsub hsend⟩)⟩
  | recv ep size packets => exact fun p hep => hsub (h p hep)
  | send ep size packets busy => exact fun p hep => hsub (h p hep)
  | _ => trivial

def Paired (l : List Action) : Prop := ∀ a ∈ l, a.Explained l

theorem Paired.append {l l' : List Action} (h : Paired l) (h' : Paired l') : Paired (l ++ l') := by
  intro a ha
  rcases List.mem_append.mp ha with ha | ha
  · exact (h a ha).mono (List.subset_append_left _ _)
  · exact (h' a ha).mono (List.subset_append_right _ _)

theorem Paired.nil : Paired [] := by
  intro a ha
  cases ha

theorem Paired.of_endpoint {a : Action} (ha : a.endpoint = none) : Paired [a] := by
  intro b hb
  obtain rfl := List.mem_singleton.mp hb
  cases b with
  | recv | send | cpuWrite | truncated => cases ha
  | _ => trivial

/-- All writes of a log are inside of their slices exactly when no bulk OUT transfer was armed
    and no bulk IN transfer was longer than a slice. -/
theorem Paired.inside_iff {l : List Action} (h : Paired l) :
    (∀ a ∈ l, a.Inside) ↔
      (∀ p size packets, .recv (epOut p) size packets ∉ l) ∧
      ∀ p size packets busy, .send (epIn p) size packets busy ∈ l → size ≤ DMA_BUFFER_SIZE := by
  constructor
  · intro hinside
    constructor
    · intro p size packets hrecv
      have hwrite := hinside _ (h _ hrecv p rfl)
      simp only [Action.Inside, DMA_BUFFER_SIZE, XFER_SIZE] at hwrite
      omega
    · intro p size packets busy hsend
      have hwrite := hinside _ (h _ hsend p rfl)
      simp only [Action.Inside, DMA_BUFFER_SIZE] at hwrite ⊢
      omega
  · rintro ⟨hrecv, hsend⟩ a ha
    cases a with
    | cpuWrite ep start len =>
      obtain ⟨hstart, hwhy⟩ := h _ ha
      have hlen : len ≤ DMA_BUFFER_SIZE := by
        rcases hwhy with hsmall | ⟨p, size, packets, rfl, -, hmem⟩ | ⟨p, packets, busy, rfl, hmem⟩
        · exact hsmall.trans (by decide)
        · exact absurd hmem (hrecv p size packets)
        · exact hsend p len packets busy hmem
      refine ⟨hstart.ge, ?_⟩
      rw [hstart, Nat.succ_mul]
      exact Nat.add_le_add_left hlen _
    | _ => trivial

namespace Dev

/-- The layout of `usb_dwc2_init`, and what the lengths written depend on. -/
structure Layout (d : Dev) : Prop where
  xferBuffer : ∀ i, d.xferBuffer i = i.val * DMA_BUFFER_SIZE
  bufferLen : d.ep0BufferLen ≤ 255
  readBufferLen : d.ep0ReadBufferLen = 0
  rings : ∀ ep, (d.ring ep).Valid

/-- From `d` to `d'` the layout stays and the log grows by explained actions. -/
def Logs (d d' : Dev) : Prop :=
  d.Layout → d'.Layout ∧ ∃ new, d'.log = d.log ++ new ∧ Paired new

namespace Logs

variable {d d' d'' : Dev}

theorem trans (h : Logs d d') (h' : Logs d' d'') : Logs d d'' := by
  intro hd
  obtain ⟨hd', new, hnew, hpair⟩ := h hd
  obtain ⟨hd'', new', hnew', hpair'⟩ := h' hd'
  refine ⟨hd'', new ++ new', ?_, hpair.append hpair'⟩
  rw [hnew', hnew, List.append_assoc]

theorem silent (hbuf : d'.xferBuffer = d.xferBuffer)
    (hlen : d.ep0BufferLen ≤ 255 → d'.ep0BufferLen ≤ 255)
    (hread : d.ep0ReadBufferLen = 0 → d'.ep0ReadBufferLen = 0)
    (hring : (∀ ep, (d.ring ep).Valid) → ∀ ep, (d'.ring ep).Valid) (hlog : d'.log = d.log) :
    Logs d d' := by
  intro hd
  refine ⟨⟨fun i => hbuf ▸ hd.xferBuffer i, hlen hd.bufferLen, hread hd.readBufferLen,
    hring hd.rings⟩, [], ?_, Paired.nil⟩
  rw [hlog, List.append_nil]

theorem refl (d : Dev) : Logs d d := silent rfl id id id rfl

theorem note (a : Action) (ha : a.endpoint = none) : Logs d (d.note a) := fun hd =>
  ⟨⟨hd.xferBuffer, hd.bufferLen, hd.readBufferLen, hd.rings⟩, [a], rfl, Paired.of_endpoint ha⟩

theorem setInProgress (ep : Lep) (b : Bool) : Logs d (d.setInProgress ep b) :=
  silent rfl id id id rfl

theorem setRing (ep : Lep) {r : Ringbuffer} (hr : (∀ ep, (d.ring ep).Valid) → r.Valid) :
    Logs d (d.setRing ep r) := by
  refine silent rfl id id (fun hrings e => ?_) rfl
  by_cases he : e = ep
  · subst he
    simpa [Dev.setRing] using hr hrings
  · simpa [Dev.setRing, he] using hrings e

theorem recvCtrl (size packets : Nat) : Logs d (d.epHwRecv CTRL_OUT size packets) := by
  intro hd
  refine ⟨⟨hd.xferBuffer, hd.bufferLen, hd.readBufferLen, hd.rings⟩, [.recv CTRL_OUT size packets],
    rfl, ?_⟩
  intro a ha
  obtain rfl := List.mem_singleton.mp ha
  exact fun p hep => absurd hep (ctrlOut_ne_epOut p)

theorem sendCtrl (size packets : Nat) : Logs d (d.epHwSend CTRL_IN size packets) := by
  intro hd
  refine ⟨⟨hd.xferBuffer, hd.bufferLen, hd.readBufferLen, hd.rings⟩,
    [.send CTRL_IN size packets (d.enabled CTRL_IN)], rfl, ?_⟩
  intro a ha
  obtain rfl := List.mem_singleton.mp ha
  exact fun p hep => absurd hep (ctrlIn_ne_epIn p)

theorem shortWrite {ep : Lep} {len : Nat} (hd : d.Layout) (hlen : len ≤ 255) :
    Paired [.cpuWrite ep (d.xferBuffer ep) len] := by
  intro a ha
  obtain rfl := List.mem_singleton.mp ha
  exact ⟨hd.xferBuffer ep, .inl hlen⟩

theorem memset (ep : Lep) (v : Byte) (n : Nat) (hn : d.Layout → n ≤ 255) :
    Logs d (d.memset ep v n) := fun hd =>
  ⟨⟨hd.xferBuffer, hd.bufferLen, hd.readBufferLen, hd.rings⟩, _, rfl, shortWrite hd (hn hd)⟩

theorem memcpy (ep : Lep) (bs : List Byte) (hbs : d.Layout → bs.length ≤ 255) :
    Logs d (d.memcpy ep bs) := fun hd =>
  ⟨⟨hd.xferBuffer, hd.bufferLen, hd.readBufferLen, hd.rings⟩, _, rfl, shortWrite hd (hbs hd)⟩

theorem epActivate (ep : Lep) (type len : Nat) : Logs d (d.epActivate ep type len) := by
  unfold Dev.epActivate
  split
  · exact refl d
  split
  · intro hd
    exact ⟨⟨hd.xferBuffer, hd.bufferLen, hd.readBufferLen, hd.rings⟩, _, rfl,
      Paired.of_endpoint rfl⟩
  · exact note _ rfl

theorem cdcStartBulkOutXfer (p : PipeId) : Logs d (d.cdcStartBulkOutXfer (epOut p)) := by
  rcases cdcStartBulkOutXfer_cases p d with ⟨-, hsame⟩ | ⟨-, -, harmed⟩
  · rw [hsame]
    exact refl d
  · rw [harmed, epHwRecv_of_out (dirIn_epOut p)]
    intro hd
    refine ⟨⟨hd.xferBuffer, hd.bufferLen, hd.readBufferLen, hd.rings⟩,
      [.cpuWrite (epOut p) (d.xferBuffer (epOut p)) XFER_SIZE, .recv (epOut p) 512 1],
      List.append_assoc _ [_] [_], ?_⟩
    rw [hd.xferBuffer]
    refine List.forall_mem_cons.mpr ⟨?_, List.forall_mem_singleton.mpr ?_⟩
    · exact ⟨rfl, .inr (.inl ⟨p, 512, 1, rfl, rfl, by simp⟩)⟩
    · exact fun _ _ => by simp

theorem cdcStartBulkInXfer (p : PipeId) : Logs d (d.cdcStartBulkInXfer (epIn p)) := by
  have hrings : d.Layout → ∀ ep, ((d.stagedIn p).ring ep).Valid := by
    intro hd ep
    have hread : (ringbufferRead XFER_SIZE (d.ring (epIn p))).2.Valid :=
      (Ringbuffer.Holds.read ⟨hd.rings _, rfl, rfl⟩ XFER_SIZE).2.valid
    by_cases hep : ep = epIn p
    · subst hep
      simpa [Dev.stagedIn, Dev.memcpy, Dev.setRing] using hread
    · simpa [Dev.stagedIn, Dev.memcpy, Dev.setRing, hep] using hd.rings ep
  rcases cdcStartBulkInXfer_cases p d with
    ⟨-, hsame⟩ | ⟨-, hempty, hstaged⟩ | ⟨-, zlpPending, packets, hsent⟩
  · rw [hsame]
    exact refl d
  · rw [hstaged]
    intro hd
    refine ⟨⟨hd.xferBuffer, hd.bufferLen, hd.readBufferLen, hrings hd⟩,
      [.cpuWrite (epIn p) (d.xferBuffer (epIn p)) 0], ?_, ?_⟩
    · simp [Dev.stagedIn, Dev.memcpy, Dev.setRing, hempty]
    · intro a ha
      obtain rfl := List.mem_singleton.mp ha
      exact ⟨hd.xferBuffer _, .inl (Nat.zero_le _)⟩
  · rw [hsent]
    simp only [Dev.epHwSend_of_in (dirIn_epIn p)]
    intro hd
    refine ⟨⟨hd.xferBuffer, hd.bufferLen, hd.readBufferLen, hrings hd⟩,
      [.cpuWrite (epIn p) (d.xferBuffer (epIn p)) _, .send (epIn p) _ packets _],
      List.append_assoc _ [_] [_], ?_⟩
    rw [hd.xferBuffer]
    refine List.forall_mem_cons.mpr ⟨?_, List.forall_mem_singleton.mpr ?_⟩
    · exact ⟨rfl, .inr (.inr ⟨p, packets, _, rfl,
        List.mem_cons_of_mem _ (List.mem_singleton.mpr rfl)⟩)⟩
    · exact fun _ _ => List.mem_cons_self

theorem cdcHandleBulkOutXferDone (ep : Lep) (doeptsiz : U32) :
    Logs d (d.cdcHandleBulkOutXferDone ep doeptsiz) := by
  unfold Dev.cdcHandleBulkOutXferDone Dev.cdcGetRingbuffer
  split
  · exact refl d
  · rename_i ring hring
    obtain rfl : d.ring ep = ring := by
      split at hring
      · exact Option.some.inj hring
      · cases hring
    dsimp only
    have hwarned : Logs d (if ringbufferGetFree (d.ring ep) < 0x200 - (doeptsiz &&& 0x7fff)
        then d.note (.truncated ep) else d) := by
      split
      · intro hd
        refine ⟨⟨hd.xferBuffer, hd.bufferLen, hd.readBufferLen, hd.rings⟩, [.truncated ep], rfl, ?_⟩
        intro a ha
        obtain rfl := List.mem_singleton.mp ha
        trivial
      · exact refl d
    apply hwarned.trans
    refine trans (setRing ep fun hrings => ?_) (setInProgress ep false)
    have hvalid : (d.ring ep).Valid := by
      have hkept := hrings ep
      split at hkept
      · exact hkept
      · exact hkept
    exact (Ringbuffer.Holds.write ⟨hvalid, rfl, rfl⟩ _).2.valid

theorem serveBulkOut (p : PipeId) (doepint doeptsiz : U32) :
    Logs d (d.serveBulkOut p doepint doeptsiz) := by
  unfold Dev.serveBulkOut
  split
  · exact (cdcHandleBulkOutXferDone _ doeptsiz).trans (cdcStartBulkOutXfer p)
  · exact refl d

theorem serveBulkIn (p : PipeId) : Logs d (d.serveBulkIn p) := by
  unfold Dev.serveBulkIn
  dsimp only
  split
  · exact (setInProgress _ false).trans (cdcStartBulkInXfer p)
  · exact setInProgress _ false

theorem of_ep0Step (h : Ep0Step d d') : Logs d d' := by
  cases h with
  | note a ha => exact note a ha
  | state s => exact silent rfl id id id rfl
  | ready r => exact silent rfl id id id rfl
  | activate e type len => exact epActivate e type len
  | answer bs len hlen => exact silent rfl (fun _ => hlen) id id rfl
  | recv size packets => exact recvCtrl size packets
  | send size packets => exact sendCtrl size packets
  | dataSend =>
    refine ((memset CTRL_IN 0 64 fun _ => by decide).trans
      (memcpy CTRL_IN (d.ep0Buffer.take d.ep0BufferLen) fun hd => ?_)).trans (sendCtrl _ _)
    exact (List.length_take_le _ _).trans hd.bufferLen
  | dataRecv =>
    refine (memset CTRL_OUT 0xbb d.ep0ReadBufferLen fun hd => ?_).trans (recvCtrl _ _)
    exact hd.readBufferLen.trans_le (Nat.zero_le _)
  | dropRead => exact silent rfl id (fun _ => rfl) id rfl
  | arm p => exact cdcStartBulkOutXfer p

theorem of_ep0Steps (h : Ep0Steps d d') : Logs d d' := by
  induction h with
  | refl => exact refl d
  | tail _ hstep ih => exact ih.trans (of_ep0Step hstep)

theorem respond {m : Moment} (h : d.respond m = some d') : Logs d d' := by
  cases m with
  | setupPacket bytes =>
    cases h
    exact refl d
  | outPacket p bytes =>
    cases h
    exact refl d
  | usbReset =>
    cases h
    intro hd
    exact ⟨⟨hd.xferBuffer, hd.bufferLen, hd.readBufferLen, hd.rings⟩, [.setAddress 0], rfl,
      Paired.of_endpoint rfl⟩
  | enumDone highSpeed =>
    cases h
    exact of_ep0Steps (Ep0Steps.handleEventConnectDone highSpeed d)
  | part part =>
    cases part with
    | ep0In diepint =>
      cases h
      exact of_ep0Steps (Ep0Steps.serveEp0In diepint d)
    | ep0Out doepint => exact of_ep0Steps (Ep0Steps.serveEp0Out h)
    | bulkOut p doepint doeptsiz =>
      cases h
      exact serveBulkOut p doepint doeptsiz
    | bulkIn p diepint =>
      cases h
      exact serveBulkIn p

theorem controller {m : Moment} {w mid : World} (h : w.controller m = some mid) :
    Logs w.dev mid.dev := by
  cases m with
  | setupPacket bytes =>
    obtain ⟨-, rfl⟩ := World.controller_setupPacket h
    exact silent rfl id id id rfl
  | outPacket p bytes =>
    obtain ⟨-, -, -, rfl⟩ := World.controller_outPacket h
    exact silent rfl id id id rfl
  | usbReset =>
    cases h
    exact refl _
  | enumDone highSpeed =>
    cases h
    exact refl _
  | part part =>
    cases part with
    | ep0In diepint =>
      cases h
      exact refl _
    | ep0Out doepint =>
      cases h
      exact refl _
    | bulkOut p doepint doeptsiz =>
      rcases World.controller_bulkOut h with ⟨-, bytes, -, -, rfl⟩ | ⟨-, rfl⟩
      · exact silent rfl id id id rfl
      · exact refl _
    | bulkIn p diepint =>
      rcases World.controller_bulkIn h with ⟨-, -, rfl⟩ | ⟨-, rfl⟩
      · exact silent rfl id id id rfl
      · exact refl _

end Logs

end Dev

structure DmaLaw (w : World) : Prop where
  layout : w.dev.Layout
  paired : Paired w.dev.log

namespace DmaLaw

variable {w w' : World}

theorem logs (h : DmaLaw w) (hlogs : Dev.Logs w.dev w'.dev) : DmaLaw w' := by
  obtain ⟨hlayout, new, hnew, hpair⟩ := hlogs h.layout
  refine ⟨hlayout, ?_⟩
  rw [hnew]
  exact h.paired.append hpair

theorem invariant (ok : Moment → World → Bool) : World.Invariant ok DmaLaw where
  moment := by
    intro m w w' h hw
    obtain ⟨-, mid, d', hmid, hd', rfl⟩ := World.moment_eq_some hw
    exact h.logs ((Dev.Logs.controller hmid).trans (Dev.Logs.respond hd'))
  take := by
    intro p n w h
    refine h.logs (Dev.Logs.setRing (epOut p) fun hrings => ?_)
    exact (Ringbuffer.Holds.read ⟨hrings _, rfl, rfl⟩ n).2.valid
  give := by
    intro p bs w h
    refine h.logs (Dev.Logs.setRing (epIn p) fun hrings => ?_)
    exact (Ringbuffer.Holds.write ⟨hrings _, rfl, rfl⟩ bs).2.valid
  armOut := fun p _ h => h.logs (Dev.Logs.cdcStartBulkOutXfer p)
  stageIn := fun p _ h => h.logs (Dev.Logs.cdcStartBulkInXfer p)

end DmaLaw

def World.initial (desc : Descriptors) (ring : Lep → Ringbuffer) : World :=
  World.start desc ring fun i => i.val * DMA_BUFFER_SIZE

theorem dmaLaw_initial {desc : Descriptors} {ring : Lep → Ringbuffer}
    (hring : ∀ ep, (ring ep).Valid) : DmaLaw (World.initial desc ring) where
  layout := ⟨fun _ => rfl, Nat.zero_le _, rfl, hring⟩
  paired := by
    have hlog : (World.initial desc ring).dev.log =
        [.activate CTRL_IN EP_TYPE_CONTROL 64 (some (TX_FIFO_SIZE <<< 16 ||| 0))] ++
          [.activate CTRL_OUT EP_TYPE_CONTROL 64 none] := rfl
    rw [hlog]
    exact (Paired.of_endpoint rfl).append (Paired.of_endpoint rfl)

/-- What the driver writes on the way from `d` to `d'`, through the buffer pointer of `e`, is
    inside of the slice of `e`, and the slices of the other endpoints stay as they are. -/
def PrivateWrites (e : Lep) (d d' : Dev) : Prop :=
  (∀ a ∈ d'.log.drop d.log.length, a.Inside) ∧
    ∀ ep, ep ≠ e → ∀ i < DMA_BUFFER_SIZE,
      d'.memory (ep.val * DMA_BUFFER_SIZE + i) = d.memory (ep.val * DMA_BUFFER_SIZE + i)

namespace PrivateWrites

variable {d : Dev} {p : PipeId}

theorem refl (e : Lep) (d : Dev) : PrivateWrites e d d := by
  refine ⟨?_, fun _ _ _ _ => rfl⟩
  rw [List.drop_length]
  intro a ha
  cases ha

/-- Arming writes four slices: nothing is private about it unless nothing is armed. -/
theorem armOut_iff (hd : d.Layout) :
    PrivateWrites (epOut p) d (d.cdcStartBulkOutXfer (epOut p)) ↔
      d.xferInProgress (epOut p) = true ∨
        (ringbufferGetFree (d.ring (epOut p))).toNat < XFER_SIZE := by
  rcases Dev.cdcStartBulkOutXfer_cases p d with ⟨hskip, hsame⟩ | ⟨hidle, hroom, harmed⟩
  · rw [hsame]
    exact ⟨fun _ => hskip, fun _ => refl _ d⟩
  · constructor
    · rintro ⟨hinside, -⟩
      have hwrite : Action.Inside (.cpuWrite (epOut p) (d.xferBuffer (epOut p)) XFER_SIZE) := by
        apply hinside
        rw [harmed]
        simp [Dev.epHwRecv_of_out (dirIn_epOut p), Dev.memset, Dev.setInProgress]
      rw [hd.xferBuffer] at hwrite
      simp only [Action.Inside, DMA_BUFFER_SIZE, XFER_SIZE] at hwrite
      omega
    · rintro (hprog | hsmall)
      · exact absurd (hidle.symm.trans hprog) (by simp)
      · exact absurd hroom (not_le.mpr hsmall)

theorem stagedIn_slices (hd : d.Layout)
    (hlen : (ringbufferRead XFER_SIZE (d.ring (epIn p))).1.length ≤ DMA_BUFFER_SIZE) {ep : Lep}
    (hep : ep ≠ epIn p) {i : Nat} (hi : i < DMA_BUFFER_SIZE) :
    (d.stagedIn p).memory (ep.val * DMA_BUFFER_SIZE + i) =
      d.memory (ep.val * DMA_BUFFER_SIZE + i) := by
  have hne : ep.val ≠ (epIn p).val := fun h => hep (Fin.ext h)
  apply if_neg
  change ¬(d.xferBuffer (epIn p) ≤ _ ∧ _ < d.xferBuffer (epIn p) + _)
  rw [hd.xferBuffer]
  simp only [DMA_BUFFER_SIZE] at hi hlen ⊢
  omega

/-- Staging is private exactly if what the ring holds fits into a slice. -/
theorem stageIn_iff (hd : d.Layout) :
    PrivateWrites (epIn p) d (d.cdcStartBulkInXfer (epIn p)) ↔
      d.xferInProgress (epIn p) = true ∨
        (ringbufferGetUsed (d.ring (epIn p))).toNat ≤ DMA_BUFFER_SIZE := by
  have hvalid := hd.rings (epIn p)
  have hread : (ringbufferRead XFER_SIZE (d.ring (epIn p))).1.length =
      min XFER_SIZE (ringbufferGetUsed (d.ring (epIn p))).toNat := by
    rw [(Ringbuffer.Holds.read ⟨hvalid, rfl, rfl⟩ XFER_SIZE).1, List.length_take,
      Ringbuffer.length_contents, hvalid.toNat_getUsed]
  have hfits : (ringbufferRead XFER_SIZE (d.ring (epIn p))).1.length ≤ DMA_BUFFER_SIZE ↔
      (ringbufferGetUsed (d.ring (epIn p))).toNat ≤ DMA_BUFFER_SIZE := by
    rw [hread]
    simp only [XFER_SIZE, DMA_BUFFER_SIZE]
    omega
  rcases Dev.cdcStartBulkInXfer_cases p d with
    ⟨hprog, hsame⟩ | ⟨hidle, hempty, hstaged⟩ | ⟨hidle, zlpPending, packets, hsent⟩
  · rw [hsame]
    exact ⟨fun _ => .inl hprog, fun _ => refl _ d⟩
  · have hlen : (ringbufferRead XFER_SIZE (d.ring (epIn p))).1.length ≤ DMA_BUFFER_SIZE := by
      rw [hempty]
      exact Nat.zero_le _
    refine ⟨fun _ => .inr (hfits.mp hlen), fun _ => ?_⟩
    rw [hstaged]
    refine ⟨?_, fun ep hep i hi => stagedIn_slices hd hlen hep hi⟩
    simp [Dev.stagedIn, Dev.memcpy, Dev.setRing, hempty, Action.Inside, hd.xferBuffer, Nat.succ_mul]
  · have hlog : ((Dev.epHwSend (epIn p) (ringbufferRead XFER_SIZE (d.ring (epIn p))).1.length
        packets
          { d.stagedIn p with zlpPending }).setInProgress (epIn p) true).log.drop d.log.length =
        [.cpuWrite (epIn p) ((epIn p).val * DMA_BUFFER_SIZE)
            (ringbufferRead XFER_SIZE (d.ring (epIn p))).1.length,
          .send (epIn p) (ringbufferRead XFER_SIZE (d.ring (epIn p))).1.length packets
            (d.enabled (epIn p))] := by
      simp [Dev.epHwSend_of_in (dirIn_epIn p), Dev.setInProgress, Dev.stagedIn, Dev.memcpy,
        Dev.setRing, hd.xferBuffer]
    constructor
    · rintro ⟨hinside, -⟩
      rw [hsent, hlog] at hinside
      have hwrite := hinside _ List.mem_cons_self
      refine .inr (hfits.mp ?_)
      have hend := hwrite.2
      rw [Nat.succ_mul] at hend
      exact Nat.le_of_add_le_add_left hend
    · rintro (hprog | hused)
      · exact absurd (hidle.symm.trans hprog) (by simp)
      · have hlen := hfits.mpr hused
        rw [hsent]
        constructor
        · rw [hlog]
          simpa [Action.Inside, Nat.succ_mul] using hlen
        · intro ep hep i hi
          simp only [Dev.epHwSend_of_in (dirIn_epIn p)]
          exact stagedIn_slices hd hlen hep hi

end PrivateWrites

/-- Where the transfer buffers are private, for every state reached from `usb_dwc2_init`.  All
    writes so far were, exactly if no bulk OUT transfer has been armed and no bulk IN transfer
    of more than a slice has been sent; the next arming is, exactly if it does nothing; the
    next staging is, exactly if it does nothing or the ring holds at most a slice. -/
theorem privateWrites_iff (desc : Descriptors) (ring : Lep → Ringbuffer)
    (hring : ∀ ep, (ring ep).Valid) (cs : List Call) (w : World)
    (hrun : (World.initial desc ring).calls (fun _ _ => true) cs = some w) :
    ((∀ a ∈ w.dev.log, a.Inside) ↔
      (∀ p size packets, .recv (epOut p) size packets ∉ w.dev.log) ∧
      ∀ p size packets busy, .send (epIn p) size packets busy ∈ w.dev.log →
        size ≤ DMA_BUFFER_SIZE) ∧
    (∀ p, PrivateWrites (epOut p) w.dev (w.armOut p).dev ↔
      w.dev.xferInProgress (epOut p) = true ∨
        (ringbufferGetFree (w.dev.ring (epOut p))).toNat < XFER_SIZE) ∧
    ∀ p, PrivateWrites (epIn p) w.dev (w.stageIn p).dev ↔
      w.dev.xferInProgress (epIn p) = true ∨
        (ringbufferGetUsed (w.dev.ring (epIn p))).toNat ≤ DMA_BUFFER_SIZE := by
  have hlaw := (DmaLaw.invariant _).calls cs _ w (dmaLaw_initial hring) hrun
  refine ⟨hlaw.paired.inside_iff, ?_, ?_⟩
  · intro p
    exact PrivateWrites.armOut_iff hlaw.layout
  · intro p
    exact PrivateWrites.stageIn_iff hlaw.layout

/-- The host reads the device descriptor, and a byte is sent on pipe 0. -/
def sampleEnumerate : List Call :=
  [.handleEvents [.enumDone true, .setupPacket [0x80, 0x06, 0x00, 0x01, 0, 0, 0x12, 0],
      .part (.ep0Out 0x8), .part (.ep0In 0x1), .part (.ep0Out 0x1)],
    .putbyte 0 0x61 ⟨[], some []⟩, .write 0 [] ⟨[], none⟩]

theorem privateWrites_iff_sample :
    ∃ w, (World.initial sampleDesc fun _ => sampleRing).calls (fun _ _ => true) sampleEnumerate =
        some w ∧
      (((∀ a ∈ w.dev.log, a.Inside) ↔
        (∀ p size packets, .recv (epOut p) size packets ∉ w.dev.log) ∧
        ∀ p size packets busy, .send (epIn p) size packets busy ∈ w.dev.log →
          size ≤ DMA_BUFFER_SIZE) ∧
      (∀ p, PrivateWrites (epOut p) w.dev (w.armOut p).dev ↔
        w.dev.xferInProgress (epOut p) = true ∨
          (ringbufferGetFree (w.dev.ring (epOut p))).toNat < XFER_SIZE) ∧
      ∀ p, PrivateWrites (epIn p) w.dev (w.stageIn p).dev ↔
        w.dev.xferInProgress (epIn p) = true ∨
          (ringbufferGetUsed (w.dev.ring (epIn p))).toNat ≤ DMA_BUFFER_SIZE) := by
  have hrun : ((World.initial sampleDesc fun _ => sampleRing).calls (fun _ _ => true)
      sampleEnumerate).map (·.inFlight 0) = some [0x61] := by decide +kernel
  obtain ⟨w, hw, -⟩ := Option.map_eq_some_iff.mp hrun
  exact ⟨w, hw, privateWrites_iff sampleDesc (fun _ => sampleRing)
    (fun _ => holds_sampleRing.valid) sampleEnumerate w hw⟩

/-- A byte is sent on pipe 0 while a packet waits on its OUT endpoint, which is then armed
    again. -/
def sampleRearm : List Call :=
  [.handleEvents (openPipe ++ [.outPacket 0 [0x62]]), .write 0 [0x61] ⟨[], some []⟩,
    .handleEvents [.part (.bulkOut 0 0x1 511)]]

/-- The byte in flight is 0xaa in the end: endpoint 3 is armed by clearing what is from 0x3000 to
    0x7000, and the slice of endpoint 4 with it. -/
theorem rearm_changes_byte_in_flight :
    ∃ w, (World.initial sampleDesc fun _ => sampleRing).calls (fun _ _ => true) sampleRearm =
        some w ∧
      .cpuWrite 3 0x3000 0x4000 ∈ w.dev.log ∧ ¬Action.Inside (.cpuWrite 3 0x3000 0x4000) ∧
      w.accepted 0 = [0x61] ∧ w.transmitted 0 = [] ∧ w.inFlight 0 = [0xaa] := by
  have hrun : ((World.initial sampleDesc fun _ => sampleRing).calls (fun _ _ => true)
      sampleRearm).map (fun w => (decide (.cpuWrite 3 0x3000 0x4000 ∈ w.dev.log),
        w.accepted 0, w.transmitted 0, w.inFlight 0)) = some (true, [0x61], [], [0xaa]) := by
    decide +kernel
  obtain ⟨w, hw, hresult⟩ := Option.map_eq_some_iff.mp hrun
  simp only [Prod.mk.injEq, decide_eq_true_eq] at hresult
  refine ⟨w, hw, hresult.1, ?_, hresult.2⟩
  rintro ⟨-, hend⟩
  exact absurd hend (by decide)

end MiniHaywire.Dwc2
