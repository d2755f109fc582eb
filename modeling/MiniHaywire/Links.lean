import MiniHaywire.Accounting

/-!
# Checksum modes of the links

A host negotiates with `REQ_NOP` whether data transfers on its link carry a
checksum.  The answer is computed per link (`enabledFeatures` never grants the
feature on the UART) but stored in the one variable `disable_data_csums`.  So a
transfer uses the mode of the last negotiation on any link (`run_global`),
and the links are served as negotiated exactly in the runs where this makes no
difference.
-/

namespace MiniHaywire.UartProxy

variable {ρ : Type} (P : Platform ρ)

/-- The mode that a sequence of requests leaves behind: the answer to the last
    `REQ_NOP`, and checksums on if there was none. -/
def lastMode (qs : List (IodevId × UartRequest)) : Bool :=
  qs.foldl (fun mode q => if q.2.checksumOk then nextMode q.1 q.2 mode else mode) false

def onLink (d : IodevId) (qs : List (IodevId × UartRequest)) : List (IodevId × UartRequest) :=
  qs.filter (fun q => q.1 = d)

/-- Each transfer uses the mode its own link negotiated, and those on the UART
    are checksummed. -/
def LinksAgree (es : List Event) : Prop :=
  (∀ pre d mode post, es = pre ++ .dataMode d mode :: post →
    mode = lastMode (onLink d (requests pre))) ∧
  ∀ mode, .dataMode IODEV_UART mode ∈ es → mode = false

/-- At each transfer, the last negotiation on any link and the last one on the
    link of the transfer had the same answer. -/
def NegotiationsAgree (es : List Event) : Prop :=
  ∀ pre d mode post, es = pre ++ .dataMode d mode :: post →
    lastMode (requests pre) = lastMode (onLink d (requests pre))

/-! ### The mode of a transfer -/

theorem lastMode_concat {qs : List (IodevId × UartRequest)} {d : IodevId} {r : UartRequest}
    (hok : r.checksumOk = true) : lastMode (qs ++ [(d, r)]) = nextMode d r (lastMode qs) := by
  simp [lastMode, hok]

theorem lastMode_concat_bad {qs : List (IodevId × UartRequest)} {d : IodevId} {r : UartRequest}
    (hbad : r.checksumOk = false) : lastMode (qs ++ [(d, r)]) = lastMode qs := by
  simp [lastMode, hbad]

theorem enabledFeatures_uart (features : U64) :
    enabledFeatures IODEV_UART features &&& PROXY_FEAT_DISABLE_DATA_CSUMS = 0 := by
  unfold enabledFeatures
  rw [if_pos rfl, BitVec.and_assoc]
  have hdisjoint : ~~~PROXY_FEAT_DISABLE_DATA_CSUMS &&& PROXY_FEAT_DISABLE_DATA_CSUMS = 0 := by
    decide
  rw [hdisjoint]
  exact BitVec.and_zero

theorem lastMode_onLink_uart (qs : List (IodevId × UartRequest)) :
    lastMode (onLink IODEV_UART qs) = false := by
  induction qs using List.reverseRecOn with
  | nil => rfl
  | append_singleton qs q ih =>
    obtain ⟨d, r⟩ := q
    by_cases hd : d = IODEV_UART
    · subst hd
      have hlink : onLink IODEV_UART (qs ++ [(IODEV_UART, r)]) =
          onLink IODEV_UART qs ++ [(IODEV_UART, r)] := by
        simp [onLink]
      rw [hlink]
      cases hok : r.checksumOk with
      | false => rw [lastMode_concat_bad hok, ih]
      | true =>
        rw [lastMode_concat hok, ih, nextMode, enabledFeatures_uart]
        split <;> rfl
    · have hlink : onLink IODEV_UART (qs ++ [(d, r)]) = onLink IODEV_UART qs := by
        simp [onLink, hd]
      rw [hlink, ih]

theorem split_append {α : Type*} {xs ys pre post : List α} {e : α}
    (h : xs ++ ys = pre ++ e :: post) :
    (∃ t, xs = pre ++ e :: t) ∨ ∃ t, pre = xs ++ t ∧ ys = t ++ e :: post := by
  rcases List.append_eq_append_iff.mp h with ⟨t, hpre, hys⟩ | ⟨t, hxs, hpost⟩
  · exact .inr ⟨t, hpre, hys⟩
  · cases t with
    | nil => exact .inr ⟨[], by simpa using hxs.symm, by simpa using hpost.symm⟩
    | cons a t =>
      rw [List.cons_append, List.cons.injEq] at hpost
      rw [← hpost.1] at hxs
      exact .inl ⟨t, hxs⟩

theorem Exchange.of_dataMode_mem {d d' : IodevId} {r : UartRequest} {mode mode' : Bool}
    {phase : Phase} {es : List Event} (h : Exchange d r mode phase es)
    (hmem : .dataMode d' mode' ∈ es) : d' = d ∧ mode' = mode ∧ IsTransfer r := by
  cases h with
  | cut => cases hmem
  | replied hphase status body hpre hpost hnone =>
    have hboth : IsTransfer r := by
      by_contra hn
      obtain ⟨rfl, rfl⟩ := hnone hn
      simp at hmem
    rcases List.mem_append.mp hmem with hmem | hmem
    · rcases hpre _ hmem with heq | ⟨bs, heq⟩ <;> cases heq
      exact ⟨rfl, rfl, hboth⟩
    rcases List.mem_cons.mp hmem with heq | hmem
    · cases heq
    · rcases hpost _ hmem with heq | ⟨bs, heq⟩ <;> cases heq
      exact ⟨rfl, rfl, hboth⟩

/-- The variable holds the last answer, and so did each transfer. -/
structure Global (s : State ρ) : Prop where
  flag : s.disableDataCsums = lastMode (requests s.trace)
  modes : ∀ pre d mode post, s.trace = pre ++ .dataMode d mode :: post →
    mode = lastMode (requests pre)

theorem Global.extend {s s' : State ρ} {es : List Event} (h : Global s)
    (htrace : s'.trace = s.trace ++ es)
    (hflag : s'.disableDataCsums = lastMode (requests s.trace ++ requests es))
    (hmodes : ∀ t d mode post, es = t ++ .dataMode d mode :: post →
      mode = lastMode (requests s.trace ++ requests t)) : Global s' := by
  constructor
  · rw [htrace, requests_append]
    exact hflag
  · intro pre d mode post hsplit
    rw [htrace] at hsplit
    rcases split_append hsplit with ⟨t, hs⟩ | ⟨t, rfl, hes⟩
    · exact h.modes pre d mode t hs
    · rw [requests_append]
      exact hmodes t d mode post hes

theorem poll_global {c : Loop ρ} (hc : Global c.state) : Global (poll P c).state := by
  by_cases hrun : c.phase = .running
  swap
  · rw [poll_of_not_running P hrun]
    exact hc
  have hstep := poll_polled P hrun
  generalize poll P c = c' at hstep
  cases hstep with
  | quiet h =>
    refine hc.extend h.trace ?_ (fun t d mode post hsplit => ?_)
    · rw [h.mode, hc.flag]
      exact congrArg lastMode (List.append_nil _).symm
    · simp at hsplit
  | refused s h r hbad =>
    refine hc.extend (refused_trace P h c.iodev r) ?_ (fun t d mode post hsplit => ?_)
    · have hflag : (refuse P c.iodev r (s.emit (.request c.iodev r))).disableDataCsums =
          c.state.disableDataCsums := h.mode
      rw [hflag, hc.flag]
      exact (lastMode_concat_bad hbad).symm
    · have hmem : Event.dataMode d mode ∈ t ++ .dataMode d mode :: post := by simp
      rw [← hsplit] at hmem
      simp at hmem
  | handled s h r hok =>
    obtain ⟨es, htrace, hex, hflag⟩ := handled_trace P h c.iodev r
    refine hc.extend htrace ?_ (fun t d mode post hsplit => ?_)
    · have hreq : requests (Event.request c.iodev r :: es) = [(c.iodev, r)] :=
        congrArg (List.cons _) hex.requests_eq
      rw [hflag, hc.flag, hreq, lastMode_concat hok]
    · cases t with
      | nil => cases hsplit
      | cons e t =>
        rw [List.cons_append, List.cons.injEq] at hsplit
        obtain ⟨rfl, hes⟩ := hsplit
        have hmem : Event.dataMode d mode ∈ es := by rw [hes]; simp
        obtain ⟨rfl, rfl, htransfer⟩ := hex.of_dataMode_mem hmem
        have hnil : requests es = [] := hex.requests_eq
        rw [hes, requests_append] at hnil
        have hreq : requests (Event.request c.iodev r :: t) = [(c.iodev, r)] :=
          congrArg (List.cons _) (List.append_eq_nil_iff.mp hnil).1
        rw [hreq, lastMode_concat hok, nextMode_of_isTransfer htransfer, hc.flag]

theorem run_global (s : State ρ) (hs : s.trace = []) (hflag : s.disableDataCsums = false)
    (n : Nat) : Global (uartproxyRun P none s n).state := by
  refine run_induction P (I := fun c => Global c.state) ?_ (fun c hc => poll_global P hc) n
  have htrace : (notify P IODEV_UART .zero s).trace = s.trace ++
      [.boot IODEV_UART (UartReply.mk REQ_BOOT ST_OK .zero).bytes] := rfl
  rw [hs] at htrace
  constructor
  · rw [htrace]
    exact hflag
  · intro pre d mode post hsplit
    have hmem : Event.dataMode d mode ∈ pre ++ .dataMode d mode :: post := by simp
    rw [← hsplit, htrace] at hmem
    simp at hmem

/-- **The links are served as negotiated.** Each transfer of a run uses the mode its own link
    negotiated last, with checksums on the UART, exactly if at each transfer no other link has
    negotiated another mode in between. -/
theorem linksAgree_iff (s : State ρ) (hs : s.trace = []) (hflag : s.disableDataCsums = false)
    (n : Nat) :
    LinksAgree (uartproxyRun P none s n).state.trace ↔
      NegotiationsAgree (uartproxyRun P none s n).state.trace := by
  have hglobal := run_global P s hs hflag n
  generalize (uartproxyRun P none s n).state = s' at hglobal
  constructor
  · intro h pre d mode post hsplit
    rw [← hglobal.modes pre d mode post hsplit]
    exact h.1 pre d mode post hsplit
  · intro h
    have hown : ∀ pre d mode post, s'.trace = pre ++ .dataMode d mode :: post →
        mode = lastMode (onLink d (requests pre)) := by
      intro pre d mode post hsplit
      rw [hglobal.modes pre d mode post hsplit]
      exact h pre d mode post hsplit
    refine ⟨hown, fun mode hmem => ?_⟩
    obtain ⟨pre, post, hsplit⟩ := List.append_of_mem hmem
    rw [hown pre _ mode post hsplit]
    exact lastMode_onLink_uart _

theorem negotiationsAgree_of_one_link {es : List Event} {d : IodevId}
    (hreq : ∀ q ∈ requests es, q.1 = d) (hmode : ∀ d' mode, .dataMode d' mode ∈ es → d' = d) :
    NegotiationsAgree es := by
  intro pre d' mode post hsplit
  have hd : d' = d := hmode d' mode (by rw [hsplit]; simp)
  have hall : onLink d' (requests pre) = requests pre := by
    apply List.filter_eq_self.mpr
    intro q hq
    have hq' : q ∈ requests es := by
      rw [hsplit, requests_append]
      exact List.mem_append_left _ hq
    simp [hd, hreq q hq']
  rw [hall]

/-- `REQ_NOP` as a host sends it that asks for transfers without checksums. -/
def nopBytes : List Byte := Host.cmdBytes REQ_NOP (leWord PROXY_FEAT_DISABLE_DATA_CSUMS)

def memreadBytes : List Byte := Host.cmdBytes REQ_MEMREAD
  (leWord (0x1000 : U64) ++ leWord (16 : U64))

theorem linksAgree_one_usb_host :
    LinksAgree (uartproxyRun Platform.fifo none
      (.initial (pendingOn IODEV_USB0 (nopBytes ++ memreadBytes))) 70).state.trace := by
  refine (linksAgree_iff Platform.fifo _ rfl rfl 70).mpr
    (negotiationsAgree_of_one_link (d := IODEV_USB0) ?_ ?_)
  · decide +kernel
  · decide +kernel

/-- A USB host turns checksums off, and the next read over the UART is answered
    with the sentinel in place of its checksum and an end sentinel behind the data. -/
theorem uart_read_unchecked :
    (uartproxyRun Platform.fifo none
      (.initial (Function.update (pendingOn IODEV_USB0 nopBytes) IODEV_UART
        (List.replicate 4 0 ++ memreadBytes))) 80).state.trace =
      [.boot IODEV_UART (UartReply.mk REQ_BOOT ST_OK .zero).bytes,
       .request IODEV_USB0
         (.ofCmd REQ_NOP (leWord PROXY_FEAT_DISABLE_DATA_CSUMS) (by simp)),
       .reply IODEV_USB0 (UartReply.mk REQ_NOP ST_OK (.features 1)).bytes,
       .request IODEV_UART
         (.ofCmd REQ_MEMREAD (leWord (0x1000 : U64) ++ leWord (16 : U64)) (by simp)),
       .dataMode IODEV_UART true,
       .reply IODEV_UART (UartReply.mk REQ_MEMREAD ST_OK (.mreply CHECKSUM_SENTINEL)).bytes,
       .data IODEV_UART (List.replicate 16 0),
       .dataMode IODEV_UART true,
       .data IODEV_UART (leWord DATA_END_SENTINEL)] := by
  decide +kernel

end MiniHaywire.UartProxy
