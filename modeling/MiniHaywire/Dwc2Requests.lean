import MiniHaywire.Dwc2Ep0

/-!
# Requests of the host

What `usb_dwc2_ep0_handle_setup` makes of the eight bytes of a setup packet, for any bytes
and any state of the driver: which endpoint or pipe a request is for, and what is sent in
the data stage.

An endpoint is named by the 16 bits of `wIndex`.  The driver takes their low byte, looks it
up in `phyEndpoints` and does not look whether it was found; and `GET_STATUS` of an endpoint
or an interface does not look at `wIndex` at all.
-/

namespace MiniHaywire.Dwc2

/-! ### What a request names -/

namespace Setup

def namesEndpoint (s : Setup) : Prop := s.bmRequestType &&& 0x60 = 0 ∧ s.bmRequestType &&& 3 = 2

/-- `wIndex` is the address of an endpoint of the driver. -/
def endpointKnown (s : Setup) : Prop := ∃ ep : Lep, s.wIndex = (phyEndpoints ep).setWidth 16

/-- The requests to an endpoint that the driver serves: `GET_STATUS`, and `CLEAR_FEATURE` with
    the selector `ENDPOINT_HALT`. -/
def endpointRequest (s : Setup) : Prop :=
  s.namesEndpoint ∧ (s.bRequest = 0x00 ∨ (s.bRequest = 0x01 ∧ s.wValue = 0))

end Setup

/-- The number of an endpoint is looked up in `phyEndpoints` only if it is an index of it. -/
def Action.InTable : Action → Prop
  | .setStall ep _ => ep.toNat < 8
  | _ => True

theorem epToNum_lt {epno : Byte} (h : ∃ ep, phyEndpoints ep = epno) : (epToNum epno).toNat < 8 := by
  obtain ⟨ep, rfl⟩ := h
  fin_cases ep <;> decide

namespace Dev

/-- `d'` comes after `d` with actions of one kind. -/
def Adds (P : Action → Prop) (d d' : Dev) : Prop := ∃ new, d'.log = d.log ++ new ∧ ∀ a ∈ new, P a

namespace Adds

variable {P : Action → Prop} {d d' d'' : Dev}

theorem of_log_eq (h : d'.log = d.log) : Adds P d d' := ⟨[], by rw [h, List.append_nil], by simp⟩

theorem one {a : Action} (h : d'.log = d.log ++ [a]) (ha : P a) : Adds P d d' :=
  ⟨[a], h, by simpa using ha⟩

theorem trans (h : Adds P d d') (h' : Adds P d' d'') : Adds P d d'' := Dev.added_trans h h'

theorem stallEp0 (d : Dev) : Adds Action.InTable d d.stallEp0 :=
  one rfl (by decide : (0 : Byte).toNat < 8)

theorem epActivate (ep : Lep) (type len : Nat) (d : Dev) :
    Adds Action.InTable d (d.epActivate ep type len) := by
  unfold Dev.epActivate
  split
  · exact of_log_eq rfl
  split
  · exact one rfl trivial
  · exact one rfl trivial

theorem startStatusIn (d : Dev) : Adds Action.InTable d (d.startStatusPhase CTRL_IN) :=
  one (a := .send CTRL_IN 0 1 (d.enabled CTRL_IN)) rfl trivial

theorem cdcStartBulkOutXfer (p : PipeId) (d : Dev) :
    Adds Action.InTable d (d.cdcStartBulkOutXfer (epOut p)) := by
  rcases cdcStartBulkOutXfer_cases p d with ⟨-, hsame⟩ | ⟨-, -, harmed⟩
  · exact of_log_eq (by rw [hsame])
  · rw [harmed, epHwRecv_of_out (dirIn_epOut p)]
    refine ⟨[_, _], List.append_assoc _ [_] [_], ?_⟩
    intro a ha
    rcases List.mem_cons.mp ha with rfl | ha
    · trivial
    · obtain rfl := List.mem_singleton.mp ha
      trivial

theorem ep0HandleStandardDevice (s : Setup) (d : Dev) :
    Adds Action.InTable d (d.ep0HandleStandardDevice s) := by
  unfold Dev.ep0HandleStandardDevice
  split
  · exact one (a := .setAddress _) rfl trivial
  split
  · split
    · exact of_log_eq rfl
    split
    · refine trans ?_ (of_log_eq rfl)
      simp only [List.finRange_succ, List.finRange_zero, List.map_nil, List.map_cons,
        List.foldl_cons, List.foldl_nil]
      exact (((((epActivate _ _ _ _).trans (epActivate _ _ _ _)).trans
        (epActivate _ _ _ _)).trans (epActivate _ _ _ _)).trans (epActivate _ _ _ _)).trans
        (epActivate _ _ _ _)
    · exact stallEp0 d
  split
  · split
    · exact of_log_eq rfl
    · exact stallEp0 d
  split
  · exact of_log_eq rfl
  · exact stallEp0 d

theorem ep0HandleStandardEndpoint (s : Setup)
    (hknown : s.bRequest = 0x01 → s.wValue = 0 → s.endpointKnown) (d : Dev) :
    Adds Action.InTable d (d.ep0HandleStandardEndpoint s) := by
  unfold Dev.ep0HandleStandardEndpoint
  split
  · exact of_log_eq rfl
  split
  · rename_i hclear
    split
    · rename_i hhalt
      obtain ⟨ep, hep⟩ := hknown hclear hhalt
      have hlow : phyEndpoints ep = s.wIndex.setWidth 8 := by
        rw [hep]
        fin_cases ep <;> rfl
      have hstall : Adds Action.InTable d
          (d.note (.setStall (epToNum (s.wIndex.setWidth 8)) false)) :=
        one rfl (epToNum_lt ⟨ep, hlow⟩)
      exact (hstall.trans (startStatusIn _)).trans (of_log_eq rfl)
    · exact stallEp0 d
  · exact stallEp0 d

theorem ep0HandleStandard (s : Setup) (hstd : s.bmRequestType &&& 0x60 = 0)
    (hknown : s.endpointRequest → s.endpointKnown) (d : Dev) :
    Adds Action.InTable d (d.ep0HandleStandard s) := by
  unfold Dev.ep0HandleStandard Dev.ep0HandleStandardInterface
  split
  · exact ep0HandleStandardDevice s d
  split
  · split
    · exact of_log_eq rfl
    · exact stallEp0 d
  split
  · rename_i hrecipient
    refine ep0HandleStandardEndpoint s ?_ d
    intro hclear hhalt
    exact hknown ⟨⟨hstd, hrecipient⟩, .inr ⟨hclear, hhalt⟩⟩
  · exact stallEp0 d

theorem ep0HandleClass (s : Setup) (d : Dev) : Adds Action.InTable d (d.ep0HandleClass s) := by
  unfold Dev.ep0HandleClass
  split
  · dsimp only
    split
    · exact of_log_eq rfl
    split
    · unfold Dev.setCtrlLineState
      dsimp only
      refine trans (trans ?_ (startStatusIn _)) (of_log_eq rfl)
      split
      · exact trans (of_log_eq rfl) (cdcStartBulkOutXfer _ _)
      · exact of_log_eq rfl
    · exact stallEp0 d
  · exact stallEp0 d

theorem ep0HandleSetup {d : Dev}
    (hknown : d.setupPacket.endpointRequest → d.setupPacket.endpointKnown) :
    Adds Action.InTable d d.ep0HandleSetup := by
  have hnote : Adds Action.InTable d (d.note (.handleSetup d.setupPacket)) := one rfl trivial
  unfold Dev.ep0HandleSetup
  unfold Dev.setupPacket at hknown hnote
  dsimp only
  refine hnote.trans ?_
  split
  · rename_i hstd
    exact ep0HandleStandard _ hstd hknown _
  split
  · exact ep0HandleClass _ _
  · exact stallEp0 _

end Adds

/-! ### Stalled or served -/

end Dev

/-! Which requests to endpoints, interfaces and pipes are not stalled. -/

namespace Dev

/-- The data there is for a request to the device. -/
def deviceData (d : Dev) (s : Setup) : Option (List Byte) :=
  if s.bRequest = 0x06 then d.findDescriptor s
  else if s.bRequest = 0x00 then some [0x01, 0x00]
  else none

/-- The status of an interface or an endpoint. -/
def statusData (s : Setup) : Option (List Byte) :=
  if s.bRequest = 0x00 then some [0x00, 0x00] else none

def classData (d : Dev) (s : Setup) : Option (List Byte) :=
  if h : s.wIndex.toNat / 2 < 2 then
    if s.bRequest = 0x21 then some (d.cdcLineCoding ⟨s.wIndex.toNat / 2, h⟩) else none
  else none

/-- The data there is for a request, all of it. -/
def available (d : Dev) (s : Setup) : Option (List Byte) :=
  if s.bmRequestType &&& 0x60 = 0 then
    if s.bmRequestType &&& 3 = 0 then d.deviceData s
    else if s.bmRequestType &&& 3 = 1 ∨ s.bmRequestType &&& 3 = 2 then statusData s
    else none
  else if s.bmRequestType &&& 0x60 = 0x20 then d.classData s
  else none

/-- `GET_STATUS` sends its two bytes whatever `wLength` is. -/
def sentLength (s : Setup) (bs : List Byte) : Nat :=
  if s.bRequest = 0x00 then 2 else min s.wLength.toNat bs.length

section Answered

variable {d : Dev} {s : Setup} {bs : List Byte}

theorem ep0HandleStandardDevice_of_data (h : d.deviceData s = some bs) :
    d.ep0HandleStandardDevice s = d.answer bs (sentLength s bs) := by
  unfold deviceData at h
  unfold Dev.ep0HandleStandardDevice sentLength
  by_cases hdesc : s.bRequest = 0x06
  · rw [if_pos hdesc] at h
    rw [if_neg (by rw [hdesc]; decide), if_neg (by rw [hdesc]; decide), if_pos hdesc, h,
      if_neg (by rw [hdesc]; decide)]
  · rw [if_neg hdesc] at h
    by_cases hstatus : s.bRequest = 0x00
    · rw [if_pos hstatus] at h
      cases h
      rw [if_neg (by rw [hstatus]; decide), if_neg (by rw [hstatus]; decide), if_neg hdesc,
        if_pos hstatus, if_pos hstatus]
    · rw [if_neg hstatus] at h
      contradiction

theorem statusData_eq_some (h : statusData s = some bs) :
    s.bRequest = 0x00 ∧ bs = [0x00, 0x00] := by
  unfold statusData at h
  split at h
  · rename_i hstatus
    exact ⟨hstatus, (Option.some.inj h).symm⟩
  · contradiction

theorem ep0HandleStandardInterface_of_data (h : statusData s = some bs) :
    d.ep0HandleStandardInterface s = d.answer bs (sentLength s bs) := by
  obtain ⟨hstatus, rfl⟩ := statusData_eq_some h
  rw [Dev.ep0HandleStandardInterface, if_pos hstatus, sentLength, if_pos hstatus]

theorem ep0HandleStandardEndpoint_of_data (h : statusData s = some bs) :
    d.ep0HandleStandardEndpoint s = d.answer bs (sentLength s bs) := by
  obtain ⟨hstatus, rfl⟩ := statusData_eq_some h
  rw [Dev.ep0HandleStandardEndpoint, if_pos hstatus, sentLength, if_pos hstatus]

theorem ep0HandleClass_of_data (hcoding : ∀ p, (d.cdcLineCoding p).length = 7)
    (h : d.classData s = some bs) : d.ep0HandleClass s = d.answer bs (sentLength s bs) := by
  unfold classData at h
  by_cases hpipe : s.wIndex.toNat / 2 < 2
  · rw [dif_pos hpipe] at h
    by_cases hget : s.bRequest = 0x21
    · rw [if_pos hget] at h
      cases h
      rw [Dev.ep0HandleClass, dif_pos hpipe]
      dsimp only
      rw [if_pos hget, sentLength, if_neg (by rw [hget]; decide), hcoding]
    · rw [if_neg hget] at h
      contradiction
  · rw [dif_neg hpipe] at h
    contradiction

theorem ep0HandleSetup_of_available (hcoding : ∀ p, (d.cdcLineCoding p).length = 7)
    (h : d.available d.setupPacket = some bs) :
    d.ep0HandleSetup =
      (d.note (.handleSetup d.setupPacket)).answer bs (sentLength d.setupPacket bs) := by
  unfold Dev.ep0HandleSetup
  change (if d.setupPacket.bmRequestType &&& 0x60 = 0 then
      (d.note (.handleSetup d.setupPacket)).ep0HandleStandard d.setupPacket
    else if d.setupPacket.bmRequestType &&& 0x60 = 0x20 then
      (d.note (.handleSetup d.setupPacket)).ep0HandleClass d.setupPacket
    else _) = _
  generalize d.setupPacket = s at h ⊢
  unfold available at h
  by_cases hstd : s.bmRequestType &&& 0x60 = 0
  · rw [if_pos hstd] at h ⊢
    unfold Dev.ep0HandleStandard
    by_cases hdev : s.bmRequestType &&& 3 = 0
    · rw [if_pos hdev] at h ⊢
      exact ep0HandleStandardDevice_of_data h
    · rw [if_neg hdev] at h ⊢
      by_cases hif : s.bmRequestType &&& 3 = 1
      · rw [if_pos (.inl hif)] at h
        rw [if_pos hif]
        exact ep0HandleStandardInterface_of_data h
      · rw [if_neg hif]
        by_cases hep : s.bmRequestType &&& 3 = 2
        · rw [if_pos (.inr hep)] at h
          rw [if_pos hep]
          exact ep0HandleStandardEndpoint_of_data h
        · rw [if_neg (not_or.mpr ⟨hif, hep⟩)] at h
          contradiction
  · rw [if_neg hstd] at h ⊢
    by_cases hclass : s.bmRequestType &&& 0x60 = 0x20
    · rw [if_pos hclass] at h ⊢
      exact ep0HandleClass_of_data hcoding h
    · rw [if_neg hclass] at h
      contradiction

theorem length_of_available_status (hstatus : s.bRequest = 0x00) (h : d.available s = some bs) :
    bs.length = 2 := by
  unfold available deviceData statusData classData at h
  rw [hstatus] at h
  split at h
  · split at h
    · cases h
      rfl
    · split at h
      · cases h
        rfl
      · contradiction
  · split at h
    · split at h
      · contradiction
      · contradiction
    · contradiction

end Answered

/-! The transfer that is programmed for it. -/

theorem ep0StartDataSendPhase_log (d : Dev) :
    d.ep0StartDataSendPhase.log.getLast? = some (.send CTRL_IN d.ep0BufferLen
      ((d.ep0BufferLen + 63) / 64 + if d.ep0BufferLen % 64 = 0 then 1 else 0)
      (d.enabled CTRL_IN)) := by
  unfold Dev.ep0StartDataSendPhase
  simp only [epHwSend_of_in (rfl : dirIn CTRL_IN = true), List.getLast?_concat]
  split
  · rfl
  · rfl

theorem ep0StartDataSendPhase_buffer (d : Dev) {n : Nat}
    (hn : n ≤ (d.ep0Buffer.take d.ep0BufferLen).length) :
    d.ep0StartDataSendPhase.loadBuffer CTRL_IN n = d.ep0Buffer.take n := by
  unfold Dev.ep0StartDataSendPhase
  simp only [epHwSend_of_in (rfl : dirIn CTRL_IN = true), memset, memcpy]
  rw [List.length_take] at hn
  apply List.ext_getElem
  · simp [loadBuffer]
    omega
  · intro i hi hi'
    simp only [loadBuffer, List.length_map, List.length_range] at hi
    have hlt : i < d.ep0BufferLen ∧ i < d.ep0Buffer.length := by omega
    simp [loadBuffer, hlt]

theorem answer_sent (d : Dev) (bs : List Byte) (len : Nat) :
    (d.answer bs len).ep0HandleXferNotReady.log.getLast? = some (.send CTRL_IN len
        ((len + 63) / 64 + if len % 64 = 0 then 1 else 0) (d.enabled CTRL_IN)) ∧
      ∀ n ≤ (bs.take len).length,
        (d.answer bs len).ep0HandleXferNotReady.loadBuffer CTRL_IN n = bs.take n :=
  ⟨ep0StartDataSendPhase_log (d.answer bs len),
    fun _ hn => ep0StartDataSendPhase_buffer (d.answer bs len) hn⟩

end Dev

/-- The packets that a host fetches of `m` bytes when it has asked for `w`: a last packet that is
    full is followed by an empty one if the host expects more. -/
def packetsFetched (w m : Nat) : Nat := (m + 63) / 64 + if m % 64 = 0 ∧ m < w then 1 else 0

/-- The driver adds the empty packet to every transfer of full packets. -/
theorem packetsFetched_eq_iff (w l : Nat) :
    (min w l + 63) / 64 + (if min w l % 64 = 0 then 1 else 0) = packetsFetched w (min w l) ↔
      ¬(w % 64 = 0 ∧ w ≤ l) := by
  rw [packetsFetched, Nat.add_left_cancel_iff]
  by_cases hle : w ≤ l
  · simp [hle]
  · have hmore : l < w := by omega
    simp [min_eq_right hmore.le, hle, hmore]

/-- The data stage of a request for `w` bytes, of those in `bs`: the transfer has the first of
    them, and the packets that the host fetches. -/
def Dev.DataStage (d : Dev) (w : Nat) (bs : List Byte) : Prop :=
  (∃ busy, d.log.getLast? =
    some (.send CTRL_IN (min w bs.length) (packetsFetched w (min w bs.length)) busy)) ∧
  d.loadBuffer CTRL_IN (min w bs.length) = bs.take (min w bs.length)

/-- **The data stage.**  It conforms to the request unless `GET_STATUS` asks for one byte, or
    `wLength` is a multiple of 64 that the data reaches: then there is an empty packet too many. -/
theorem dataStage_iff (d : Dev) (bs : List Byte) (hcoding : ∀ p, (d.cdcLineCoding p).length = 7)
    (havailable : d.available d.setupPacket = some bs) (hw : 0 < d.setupPacket.wLength.toNat) :
    d.ep0HandleSetup.ep0HandleXferNotReady.DataStage d.setupPacket.wLength.toNat bs ↔
      if d.setupPacket.bRequest = 0x00 then 2 ≤ d.setupPacket.wLength.toNat
      else ¬(d.setupPacket.wLength.toNat % 64 = 0 ∧ d.setupPacket.wLength.toNat ≤ bs.length) := by
  have hhandled := Dev.ep0HandleSetup_of_available hcoding havailable
  have hstatus := fun h => Dev.length_of_available_status h havailable
  obtain ⟨hlog, hbuffer⟩ := (d.note (.handleSetup d.setupPacket)).answer_sent bs
    (Dev.sentLength d.setupPacket bs)
  rw [← hhandled] at hlog hbuffer
  generalize d.setupPacket = s at *
  unfold Dev.DataStage
  rw [hlog]
  by_cases hget : s.bRequest = 0x00
  · have hlen := hstatus hget
    have hsent : Dev.sentLength s bs = 2 := if_pos hget
    rw [hsent] at hbuffer ⊢
    rw [if_pos hget, hlen]
    constructor
    · rintro ⟨⟨busy, hsend⟩, -⟩
      have hsize := (Action.send.inj (Option.some.inj hsend)).2.1
      omega
    · intro hle
      rw [min_eq_right hle]
      refine ⟨⟨_, rfl⟩, hbuffer 2 ?_⟩
      rw [List.length_take]
      omega
  · have hsent : Dev.sentLength s bs = min s.wLength.toNat bs.length := if_neg hget
    rw [hsent] at hbuffer ⊢
    have hload := hbuffer (min s.wLength.toNat bs.length) (by rw [List.length_take]; omega)
    rw [if_neg hget, and_iff_left hload, ← packetsFetched_eq_iff]
    constructor
    · rintro ⟨busy, hsend⟩
      exact (Action.send.inj (Option.some.inj hsend)).2.2.1
    · intro hcount
      rw [← hcount]
      exact ⟨_, rfl⟩

def fullDesc : Descriptors where
  device := sampleDesc.device
  configuration := [0x09, 0x02, 97, 0] ++ List.replicate 93 0
  qualifier := []
  languages := []
  manufacturer := []
  product := []
  serial := []
  length_lt := by decide

def getConfiguration (length : Byte) : List Byte := [0x80, 0x06, 0, 0x02, 0, 0, length, 0]

def fullDev (length : Byte) : Dev :=
  (Dev.init fullDesc fun _ => sampleRing).dma CTRL_OUT (getConfiguration length)

theorem available_fullDev :
    (fullDev 9).available (fullDev 9).setupPacket = some fullDesc.configuration := by decide +kernel

/-- The first nine bytes, as hosts ask for them to begin with. -/
theorem dataStage_nine :
    (fullDev 9).available (fullDev 9).setupPacket = some fullDesc.configuration ∧
      0 < (fullDev 9).setupPacket.wLength.toNat ∧
      (fullDev 9).ep0HandleSetup.ep0HandleXferNotReady.DataStage 9 fullDesc.configuration := by
  have hlength : (fullDev 9).setupPacket.wLength.toNat = 9 := by decide +kernel
  have hrequest : (fullDev 9).setupPacket.bRequest = 0x06 := by decide +kernel
  have hiff := dataStage_iff (fullDev 9) fullDesc.configuration (fun _ => rfl) available_fullDev
    (by rw [hlength]; decide)
  rw [hlength, hrequest] at hiff
  exact ⟨available_fullDev, by rw [hlength]; decide, hiff.mpr (by decide)⟩

/-- The first 64 bytes: two packets are programmed, the host fetches one. -/
theorem dataStage_sixtyFour :
    (fullDev 64).setupPacket.wLength = 64 ∧
      (fullDev 64).available (fullDev 64).setupPacket = some fullDesc.configuration ∧
      (fullDev 64).ep0HandleSetup.ep0HandleXferNotReady.log.getLast? =
        some (.send CTRL_IN 64 2 false) ∧
      packetsFetched 64 (min 64 fullDesc.configuration.length) = 1 := by
  decide +kernel

end MiniHaywire.Dwc2
