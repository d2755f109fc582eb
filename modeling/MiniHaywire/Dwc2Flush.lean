import MiniHaywire.Dwc2Requests

/-!
# Sending what is queued

The IN endpoint of a pipe sends what its ring holds, transfer after transfer.  The first part
is about one transfer: how many packets it has.  The second is about `usb_dwc2_flush`, which
only polls and leaves it to the end of each transfer to start the next one.

A pipe is `stranded` when its ring has bytes and no transfer is in progress: nothing in the
loop of `usb_dwc2_flush` starts one then.  The interrupts keep a pipe from being stranded,
except for a USB reset, which takes the transfer away and leaves the ring as it is.
-/

namespace MiniHaywire.Dwc2

/-! ### The packets of a transfer -/

namespace Dev

def staged (d : Dev) (p : PipeId) : List Byte := (ringbufferRead XFER_SIZE (d.ring (epIn p))).1

/-- States that look the same to the IN endpoint of a pipe. -/
structure SameIn (p : PipeId) (d d' : Dev) : Prop where
  ring : d'.ring (epIn p) = d.ring (epIn p)
  xferInProgress : d'.xferInProgress (epIn p) = d.xferInProgress (epIn p)
  enabled : d'.enabled (epIn p) = d.enabled (epIn p)

theorem send_staged (p : PipeId) (zlpPending : Lep → Bool) (packets : Nat) (d : Dev) :
    let d' := (Dev.epHwSend (epIn p) (d.staged p).length packets
      { d.stagedIn p with zlpPending }).setInProgress (epIn p) true
    d'.log.getLast? = some (.send (epIn p) (d.staged p).length packets (d.enabled (epIn p))) ∧
      d'.loadBuffer (epIn p) (d.staged p).length = d.staged p := by
  simp only [epHwSend_of_in (dirIn_epIn p), setInProgress, List.getLast?_concat]
  refine ⟨rfl, ?_⟩
  apply loadBuffer_of_memory
  intro i hi
  unfold staged at hi
  simp [stagedIn, staged, memcpy, setRing, hi]

theorem cdcStartBulkInXfer_programs {p : PipeId} {d : Dev}
    (hidle : d.xferInProgress (epIn p) = false) (hdata : d.staged p ≠ []) :
    (d.cdcStartBulkInXfer (epIn p)).log.getLast? = some (.send (epIn p) (d.staged p).length
        (((d.staged p).length + 511) / 512 + if d.ep0BufferLen % 512 = 0 then 1 else 0)
        (d.enabled (epIn p))) ∧
      (d.cdcStartBulkInXfer (epIn p)).loadBuffer (epIn p) (d.staged p).length = d.staged p := by
  have hring := d.cdcGetRingbuffer_epIn p
  have hlen : (ringbufferRead XFER_SIZE (d.ring (epIn p))).1.length ≠ 0 :=
    fun h => hdata (List.length_eq_zero_iff.mp h)
  simp only [cdcStartBulkInXfer, hidle, Bool.false_eq_true, if_false, hring, hlen, false_and]
  split
  · rename_i hmod
    have hmod' : d.ep0BufferLen % 512 = 0 := hmod
    rw [if_pos hmod']
    exact d.send_staged p _ _
  · rename_i hmod
    have hmod' : ¬ d.ep0BufferLen % 512 = 0 := hmod
    rw [if_neg hmod']
    exact d.send_staged p (d.stagedIn p).zlpPending _

end Dev

/-- The packets of a bulk transfer: a last packet that is full is followed by an empty one. -/
def bulkPackets (len : Nat) : Nat := (len + 511) / 512 + if len % 512 = 0 then 1 else 0

theorem extra_packet_inj {P Q : Prop} [Decidable P] [Decidable Q] :
    (if P then 1 else 0) = (if Q then 1 else 0) ↔ (P ↔ Q) := by
  by_cases hP : P
  · by_cases hQ : Q
    · simp [hP, hQ]
    · simp [hP, hQ]
  · by_cases hQ : Q
    · simp [hP, hQ]
    · simp [hP, hQ]

/-- **The packets of a transfer hang on the last control request.**  The count is that of the
    bytes sent exactly if `ep0_buffer_len` is a multiple of 512 along with their number, and two
    states that differ only for other endpoints program the same transfer exactly if this holds
    of both lengths or of neither. -/
theorem bulkIn_packets_iff (p : PipeId) (d d' : Dev) (hidle : d.xferInProgress (epIn p) = false)
    (hdata : d.staged p ≠ []) (hsame : Dev.SameIn p d d') :
    ((d.cdcStartBulkInXfer (epIn p)).log.getLast? = some (.send (epIn p) (d.staged p).length
        (bulkPackets (d.staged p).length) (d.enabled (epIn p))) ↔
      (d.ep0BufferLen % 512 = 0 ↔ (d.staged p).length % 512 = 0)) ∧
    ((d'.cdcStartBulkInXfer (epIn p)).log.getLast? =
        (d.cdcStartBulkInXfer (epIn p)).log.getLast? ↔
      (d'.ep0BufferLen % 512 = 0 ↔ d.ep0BufferLen % 512 = 0)) := by
  have hstaged : d'.staged p = d.staged p := by rw [Dev.staged, hsame.ring, Dev.staged]
  obtain ⟨hlog, -⟩ := Dev.cdcStartBulkInXfer_programs hidle hdata
  obtain ⟨hlog', -⟩ := Dev.cdcStartBulkInXfer_programs (p := p) (d := d')
    (hsame.xferInProgress.trans hidle) (by rw [hstaged]; exact hdata)
  rw [hstaged, hsame.enabled] at hlog'
  rw [hlog, hlog']
  simp only [Option.some.injEq, Action.send.injEq, true_and, and_true, bulkPackets,
    Nat.add_left_cancel_iff, extra_packet_inj]

/-- A byte waits in each ring, and `n` bytes were sent for the last control request. -/
def oneQueued (n : Nat) : Dev :=
  { sampleDev with
    ring := fun _ => (ringbufferWrite [0x61] sampleRing).2
    ep0BufferLen := n }

/-- One byte is one packet after a device descriptor, of 18 bytes, has been sent. -/
theorem bulkIn_packets_eighteen :
    (oneQueued 18).staged 0 = [0x61] ∧
      ((oneQueued 18).cdcStartBulkInXfer (epIn 0)).log.getLast? =
        some (.send (epIn 0) 1 (bulkPackets 1) false) := by
  have hstaged : (oneQueued 18).staged 0 = [0x61] := by decide +kernel
  have hiff := (bulkIn_packets_iff 0 (oneQueued 18) (oneQueued 18) rfl
    (by rw [hstaged]; exact List.cons_ne_nil _ _) ⟨rfl, rfl, rfl⟩).1
  rw [hstaged] at hiff
  exact ⟨hstaged, hiff.mpr (by decide)⟩

/-- Before any such request it is sent with an empty packet behind it. -/
theorem bulkIn_empty_packet :
    (oneQueued 0).staged 0 = [0x61] ∧ bulkPackets 1 = 1 ∧
      ((oneQueued 0).cdcStartBulkInXfer (epIn 0)).log.getLast? = some (.send (epIn 0) 1 2 false) ∧
      ((oneQueued 18).cdcStartBulkInXfer (epIn 0)).log.getLast? =
        some (.send (epIn 0) 1 1 false) := by
  decide +kernel

/-! ### Stranded bytes -/

namespace Dev

def inEmpty (d : Dev) (p : PipeId) : Prop := ringbufferGetUsed (d.ring (epIn p)) = 0

/-- Bytes are left, and no transfer is in progress whose end would start the next. -/
def stranded (d : Dev) (p : PipeId) : Prop := ¬d.inEmpty p ∧ d.xferInProgress (epIn p) = false

theorem staged_ne_nil {d : Dev} {p : PipeId} (h : ¬d.inEmpty p) : d.staged p ≠ [] := by
  have hne : (d.ring (epIn p)).read ≠ (d.ring (epIn p)).write := by
    intro heq
    apply h
    rw [inEmpty, ringbufferGetUsed, heq]
    simp
  rw [staged, XFER_SIZE, ringbufferRead, if_neg hne]
  exact List.cons_ne_nil _ _

theorem not_stranded_start (d : Dev) (p : PipeId) :
    ¬(d.cdcStartBulkInXfer (epIn p)).stranded p := by
  rintro ⟨hbytes, hidle⟩
  rcases cdcStartBulkInXfer_cases p d with ⟨hprog, hsame⟩ | ⟨-, hnone, hstaged⟩ | ⟨-, _, _, hsent⟩
  · rw [hsame, hprog] at hidle
    contradiction
  · -- nothing was read from the ring, so there was nothing in it
    have hread : (ringbufferRead XFER_SIZE (d.ring (epIn p))).2 = d.ring (epIn p) := by
      by_cases hempty : (d.ring (epIn p)).read = (d.ring (epIn p)).write
      · rw [XFER_SIZE, ringbufferRead, if_pos hempty]
      · rw [XFER_SIZE, ringbufferRead, if_neg hempty] at hnone
        contradiction
    have hring : (d.stagedIn p).ring (epIn p) = d.ring (epIn p) := by
      rw [stagedIn, hread]
      exact Function.update_self ..
    rw [hstaged, inEmpty, hring] at hbytes
    exact staged_ne_nil hbytes hnone
  · rw [hsent] at hidle
    have htrue : ∀ e : Dev, (e.setInProgress (epIn p) true).xferInProgress (epIn p) = true := by
      intro e
      exact Function.update_self ..
    rw [htrue] at hidle
    contradiction

theorem not_stranded_serveBulkIn (d : Dev) (p : PipeId) : ¬(d.serveBulkIn p).stranded p := by
  unfold serveBulkIn
  dsimp only
  split
  · exact not_stranded_start _ p
  · rename_i hempty
    exact fun h => h.1 (not_not.mp hempty)

theorem stranded_handleUsbrst (d : Dev) (p : PipeId) : d.handleUsbrst.stranded p ↔ ¬d.inEmpty p :=
  and_iff_left rfl

theorem Keeps.stranded_iff {d d' : Dev} {p : PipeId} (h : Keeps (epIn p) d d') :
    d'.stranded p ↔ d.stranded p := by
  rw [stranded, stranded, inEmpty, inEmpty, h.ring, h.xferInProgress]

end Dev

/-! ### The polls of a flush -/

/-- What a moment does to a pipe that may be stranded. -/
theorem World.moment_stranded {ok : Moment → World → Bool} {m : Moment} {w w' : World}
    (p : PipeId) (h : w.moment ok m = some w') :
    (m = .usbReset ∧ (w'.dev.stranded p ↔ ¬w.dev.inEmpty p)) ∨
      (m ≠ .usbReset ∧ m.servesIn p = true ∧ ¬w'.dev.stranded p) ∨
      (m ≠ .usbReset ∧ m.servesIn p = false ∧ (w'.dev.stranded p ↔ w.dev.stranded p)) := by
  rcases World.moment_cases p h with rfl | ⟨diepint, rfl⟩ | ⟨⟨hne, hserve⟩, hkeeps⟩
  · obtain ⟨-, mid, d', hmid, hd', rfl⟩ := World.moment_eq_some h
    cases hd'
    cases hmid
    exact .inl ⟨rfl, w.dev.stranded_handleUsbrst p⟩
  · obtain ⟨-, mid, d', -, hd', rfl⟩ := World.moment_eq_some h
    cases hd'
    exact .inr (.inl ⟨Moment.noConfusion, decide_eq_true rfl, mid.dev.not_stranded_serveBulkIn p⟩)
  · exact .inr (.inr ⟨hne, hserve, hkeeps.dev.stranded_iff⟩)

namespace World

variable (ok : Moment → World → Bool) (p : PipeId)

/-- The moments of a poll: a reset comes when the ring is empty, or an interrupt of the IN
    endpoint is served behind it. -/
def Safe : List Moment → World → Prop
  | [], _ => True
  | m :: ms, w =>
    (m = .usbReset → w.dev.inEmpty p ∨ ms.any (·.servesIn p) = true) ∧
      ∀ w', w.moment ok m = some w' → w'.Safe ms

theorem stranded_moves_iff (ms : List Moment) : ∀ (w w' : World), moves (moment ok) ms w = some w' →
    (¬w'.dev.stranded p ↔
      (ms.any (·.servesIn p) = true ∨ ¬w.dev.stranded p) ∧ w.Safe ok p ms) := by
  induction ms with
  | nil =>
    intro w w' h
    cases h
    simp [Safe]
  | cons m ms ih =>
    intro w w' h
    obtain ⟨mid, hmid, hrest⟩ := Option.bind_eq_some_iff.mp h
    have hlater := ih mid w' hrest
    have hsafe : (∀ w', w.moment ok m = some w' → w'.Safe ok p ms) ↔ mid.Safe ok p ms := by
      constructor
      · intro hall
        exact hall mid hmid
      · intro hms w'' hw''
        obtain rfl := Option.some.inj (hmid.symm.trans hw'')
        exact hms
    rw [hlater, Safe, hsafe, List.any_cons, Bool.or_eq_true]
    rcases moment_stranded p hmid with ⟨rfl, hreset⟩ | ⟨hne, hserve, hnot⟩ | ⟨hne, hserve, hsame⟩
    · -- before the reset the pipe may have been in any state
      rw [hreset, not_not]
      constructor
      · rintro ⟨hends, hmid⟩
        refine ⟨?_, fun _ => hends.symm, hmid⟩
        rcases hends with hserved | hempty
        · exact .inl (.inr hserved)
        · exact .inr fun hs => hs.1 hempty
      · rintro ⟨-, hends, hmid⟩
        exact ⟨(hends rfl).symm, hmid⟩
    · constructor
      · rintro ⟨-, hmid⟩
        exact ⟨.inl (.inl hserve), fun heq => absurd heq hne, hmid⟩
      · rintro ⟨-, -, hmid⟩
        exact ⟨.inr hnot, hmid⟩
    · rw [hsame]
      constructor
      · rintro ⟨hends, hmid⟩
        refine ⟨?_, fun heq => absurd heq hne, hmid⟩
        rcases hends with hserved | hw
        · exact .inl (.inr hserved)
        · exact .inr hw
      · rintro ⟨(hserved | hserved) | hw, -, hmid⟩
        · rw [hserve] at hserved
          contradiction
        · exact ⟨.inl hserved, hmid⟩
        · exact ⟨.inr hw, hmid⟩

/-- The states at the head of the loop of `usb_dwc2_flush`. -/
def flushHeads : List (List Moment) → World → List World
  | [], w => [w]
  | ms :: polls, w =>
    w :: if (flushLoop p).more () w then
      match moves (moment ok) ms w with
      | some w' => w'.flushHeads polls
      | none => []
    else []

def SafePolls : List (List Moment) → World → Prop
  | [], _ => True
  | ms :: polls, w => (flushLoop p).more () w = true → ∀ w', moves (moment ok) ms w = some w' →
      w.Safe ok p ms ∧ w'.SafePolls polls

theorem mem_flushHeads_iff {h : World} (polls : List (List Moment)) : ∀ w : World,
    h ∈ w.flushHeads ok p polls ↔
      ∃ n ended, (flushLoop p).run (moment ok) ⟨polls.take n, none⟩ () w = some (ended, h) := by
  have hstart : ∀ w : World,
      (flushLoop p).run (moment ok) ⟨[], none⟩ () w = some (!(flushLoop p).more () w, w) := by
    intro w
    rw [Poll.run, Poll.loop]
    cases (flushLoop p).more () w with
    | true => rfl
    | false => rfl
  induction polls with
  | nil =>
    intro w
    simp only [flushHeads, List.mem_singleton, List.take_nil, hstart, Option.some.injEq,
      Prod.mk.injEq]
    constructor
    · rintro rfl
      exact ⟨0, _, rfl, rfl⟩
    · rintro ⟨-, -, -, rfl⟩
      rfl
  | cons ms polls ih =>
    intro w
    rw [flushHeads, List.mem_cons]
    have hstep : ∀ n, (flushLoop p).run (moment ok) ⟨(ms :: polls).take (n + 1), none⟩ () w =
        if (flushLoop p).more () w then
          (moves (moment ok) ms w).bind ((flushLoop p).run (moment ok) ⟨polls.take n, none⟩ ())
        else some (true, w) := fun _ => rfl
    constructor
    · rintro (rfl | hmem)
      · exact ⟨0, _, hstart h⟩
      · split at hmem
        · rename_i hmore
          split at hmem
          · rename_i w' hmoves
            obtain ⟨n, ended, hrun⟩ := (ih w').mp hmem
            refine ⟨n + 1, ended, ?_⟩
            rw [hstep, if_pos hmore, hmoves]
            exact hrun
          · contradiction
        · contradiction
    · rintro ⟨n, ended, hrun⟩
      cases n with
      | zero =>
        rw [List.take_zero, hstart] at hrun
        exact .inl (Prod.mk.inj (Option.some.inj hrun)).2.symm
      | succ n =>
        rw [hstep] at hrun
        split at hrun
        · rename_i hmore
          obtain ⟨w', hmoves, hrest⟩ := Option.bind_eq_some_iff.mp hrun
          rw [if_pos hmore, hmoves]
          exact .inr ((ih w').mpr ⟨n, ended, hrest⟩)
        · exact .inl (Prod.mk.inj (Option.some.inj hrun)).2.symm

theorem heads_stranded_iff (polls : List (List Moment)) : ∀ w : World, ¬w.dev.stranded p →
    ((∀ h ∈ w.flushHeads ok p polls, ¬h.dev.stranded p) ↔ w.SafePolls ok p polls) := by
  induction polls with
  | nil =>
    intro w hw
    simp [flushHeads, SafePolls, hw]
  | cons ms polls ih =>
    intro w hw
    rw [flushHeads, SafePolls]
    by_cases hmore : (flushLoop p).more () w = true
    · rw [if_pos hmore]
      cases hmoves : moves (moment ok) ms w with
      | none => simp [hw]
      | some w' =>
        have hpoll := stranded_moves_iff ok p ms w w' hmoves
        rw [and_iff_right (Or.inr hw)] at hpoll
        have hhead : w' ∈ w'.flushHeads ok p polls := by
          cases polls with
          | nil => exact List.mem_singleton.mpr rfl
          | cons ms' polls => exact List.mem_cons_self
        simp only [List.forall_mem_cons, hw, not_false_eq_true, true_and, hmore, Option.some.injEq,
          forall_eq', forall_const]
        constructor
        · intro hall
          have hw' := hall w' hhead
          exact ⟨hpoll.mp hw', (ih w' hw').mp hall⟩
        · rintro ⟨hsafe, hrest⟩
          exact (ih w' (hpoll.mpr hsafe)).mpr hrest
    · simp [hmore, hw]

end World

/-- **`usb_dwc2_flush` after `usb_dwc2_write`.**  However many polls the loop has made, it is not at
    a head with bytes in the ring and no transfer in progress: exactly if in every poll of it a
    reset comes with the ring empty or before an interrupt of the endpoint. -/
theorem flush_stranded_iff (ok : Moment → World → Bool) (p : PipeId) (w₀ w : World)
    (buf : List Byte)
    (sched : Schedule Moment) (hwrite : w₀.call ok (.write p buf sched) = some (true, w))
    (polls : List (List Moment)) :
    (∀ n ended h, w.call ok (.flush p ⟨polls.take n, none⟩) = some (ended, h) →
        ¬h.dev.stranded p) ↔
      (w.dev.ready p = true → w.SafePolls ok p polls) := by
  have hw : ¬w.dev.stranded p := by
    obtain ⟨⟨returned, w₁⟩, -, hboth⟩ := Option.map_eq_some_iff.mp hwrite
    obtain ⟨hreturned, rfl⟩ := Prod.mk.inj hboth
    rw [if_pos hreturned]
    exact w₁.dev.not_stranded_start p
  simp only [World.call]
  by_cases hready : w.dev.ready p = true
  · simp only [hready, if_true, forall_const]
    rw [← World.heads_stranded_iff ok p polls w hw]
    constructor
    · intro hall h hmem
      obtain ⟨n, ended, hrun⟩ := (World.mem_flushHeads_iff ok p polls w).mp hmem
      exact hall n ended h hrun
    · intro hall n ended h hrun
      exact hall h ((World.mem_flushHeads_iff ok p polls w).mpr ⟨n, ended, hrun⟩)
  · -- a pipe that is not open is not waited for
    simp only [hready]
    constructor
    · intro _ htrue
      contradiction
    · intro _ n ended h hsame
      obtain rfl := (Prod.mk.inj (Option.some.inj hsame)).2
      exact hw

def twoWritten : List Call :=
  [.handleEvents openPipe, .write 0 [0x61] ⟨[], some []⟩, .queue 0 [0x62] ⟨[], some []⟩]

def twoCompletions : List (List Moment) := [[.part (.bulkIn 0 0x1)], [.part (.bulkIn 0 0x1)]]

theorem flush_two_completions :
    ∃ w₀ w, sampleStart.calls (fun _ _ => true) twoWritten = some w₀ ∧
      w₀.call (fun _ _ => true) (.write 0 [] ⟨[], none⟩) = some (true, w) ∧
      w.dev.ready 0 = true ∧
      ∀ n ended h, w.call (fun _ _ => true) (.flush 0 ⟨twoCompletions.take n, none⟩) =
        some (ended, h) → ¬h.dev.stranded 0 := by
  have hsome : ((sampleStart.calls (fun _ _ => true) twoWritten).bind fun w₀ =>
      (w₀.call (fun _ _ => true) (.write 0 [] ⟨[], none⟩)).map fun r => (r.1, r.2.dev.ready 0)) =
      some (true, true) := by decide +kernel
  obtain ⟨w₀, hw₀, hrest⟩ := Option.bind_eq_some_iff.mp hsome
  obtain ⟨⟨returned, w⟩, hw, hboth⟩ := Option.map_eq_some_iff.mp hrest
  obtain ⟨hreturned, hready⟩ := Prod.mk.inj hboth
  obtain rfl : returned = true := hreturned
  refine ⟨w₀, w, hw₀, hw, hready, ?_⟩
  refine (flush_stranded_iff (fun _ _ => true) 0 w₀ w [] ⟨[], none⟩ hw twoCompletions).mpr ?_
  have hsafe : ∀ w : World, w.Safe (fun _ _ => true) 0 [.part (.bulkIn 0 0x1)] :=
    fun w => ⟨fun h => Moment.noConfusion h, fun _ _ => trivial⟩
  exact fun _ _ w₁ _ => ⟨hsafe w, fun _ w₂ _ => ⟨hsafe w₁, trivial⟩⟩

/-- The bytes in the ring of pipe 0 and whether a transfer is in progress. -/
def World.waiting (w : World) : U32 × Bool :=
  (ringbufferGetUsed (w.dev.ring (epIn 0)), w.dev.xferInProgress (epIn 0))

theorem World.stranded_of_waiting {w : World} (h : w.waiting = (1, false)) : w.dev.stranded 0 := by
  obtain ⟨hused, hidle⟩ := Prod.mk.inj h
  refine ⟨?_, hidle⟩
  rw [Dev.inEmpty, hused]
  decide

/-- A reset in the flush, and then nothing: the second byte stays where it is, poll after poll. -/
theorem flush_stranded_by_reset :
    ∃ w₀ w w₁ w₂, sampleStart.calls (fun _ _ => true) twoWritten = some w₀ ∧
      w₀.call (fun _ _ => true) (.write 0 [] ⟨[], none⟩) = some (true, w) ∧
      w.call (fun _ _ => true) (.flush 0 ⟨[[.usbReset]], none⟩) = some (false, w₁) ∧
      w₁.dev.stranded 0 ∧
      w.call (fun _ _ => true) (.flush 0 ⟨[[.usbReset], [], []], none⟩) = some (false, w₂) ∧
      w₂.dev.stranded 0 := by
  have hrun : ((sampleStart.calls (fun _ _ => true) twoWritten).bind fun w₀ =>
      (w₀.call (fun _ _ => true) (.write 0 [] ⟨[], none⟩)).bind fun r =>
      (r.2.call (fun _ _ => true) (.flush 0 ⟨[[.usbReset]], none⟩)).bind fun r₁ =>
      (r.2.call (fun _ _ => true) (.flush 0 ⟨[[.usbReset], [], []], none⟩)).map fun r₂ =>
        (r.1, (r₁.1, r₁.2.waiting), (r₂.1, r₂.2.waiting))) =
      some (true, (false, (1, false)), (false, (1, false))) := by decide +kernel
  obtain ⟨w₀, hw₀, hrun⟩ := Option.bind_eq_some_iff.mp hrun
  obtain ⟨⟨returned, w⟩, hw, hrun⟩ := Option.bind_eq_some_iff.mp hrun
  obtain ⟨⟨returned₁, w₁⟩, hw₁, hrun⟩ := Option.bind_eq_some_iff.mp hrun
  obtain ⟨⟨returned₂, w₂⟩, hw₂, hrun⟩ := Option.map_eq_some_iff.mp hrun
  simp only [Prod.mk.injEq] at hrun
  obtain ⟨rfl, ⟨rfl, hwaiting₁⟩, rfl, hwaiting₂⟩ := hrun
  exact ⟨w₀, w, w₁, w₂, hw₀, hw, hw₁, World.stranded_of_waiting hwaiting₁, hw₂,
    World.stranded_of_waiting hwaiting₂⟩

end MiniHaywire.Dwc2
