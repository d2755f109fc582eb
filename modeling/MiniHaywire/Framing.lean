import MiniHaywire.Links

/-!
# Request framing

The device finds requests by sliding a window of four bytes over everything that
arrives.  The window is never reset, so what it holds is always the end of what
was consumed, and the invariant of the hunt is about the last three bytes in the
window followed by the bytes still to come: this string is a stream of host
requests with marker-free text between them (`Stream`).  Reading a byte takes
the first byte off it; a marker in the window means that the text in front of
the next request is used up, because the marker does not overlap itself
(`Marker.Free.eq_nil_of_prefix`).

What the handler of a `MEMWRITE` reads is not always what the host sent behind
it.  Where it leaves the end sentinel unread this does no harm, since the
sentinel has no `FF` in it.
-/

namespace MiniHaywire.UartProxy

open Marker

/-! ### The window -/

def tail (window : U32) : List Byte := (leWord window).drop 1

theorem toNat_shiftIn (w : U32) (b : Byte) :
    (shiftIn w b).toNat = w.toNat / 256 + b.toNat * 2 ^ 24 := by
  have hw := w.isLt
  have hb := b.isLt
  have hor := Nat.shiftLeft_add_eq_or_of_lt (show w.toNat / 2 ^ 8 < 2 ^ 24 by omega) b.toNat
  rw [shiftIn, BitVec.toNat_or, BitVec.toNat_ushiftRight, BitVec.toNat_shiftLeft,
    BitVec.toNat_setWidth, Nat.shiftRight_eq_div_pow,
    Nat.mod_eq_of_lt (show b.toNat < 2 ^ 32 by omega),
    Nat.mod_eq_of_lt (by rw [Nat.shiftLeft_eq]; omega), Nat.or_comm, ← hor, Nat.shiftLeft_eq]
  omega

theorem tail_eq (w : U32) : tail w =
    [BitVec.ofNat 8 (w.toNat / 256), BitVec.ofNat 8 (w.toNat / 256 / 256),
      BitVec.ofNat 8 (w.toNat / 256 / 256 / 256)] := rfl

theorem tail_shiftIn (w : U32) (b : Byte) : tail (shiftIn w b) = (tail w).drop 1 ++ [b] := by
  have hw := w.isLt
  have hb := b.isLt
  simp only [tail_eq, toNat_shiftIn, List.drop_succ_cons, List.drop_zero, List.cons_append,
    List.nil_append, List.cons.injEq, and_true]
  refine ⟨?_, ?_, ?_⟩
  · apply BitVec.eq_of_toNat_eq
    simp only [BitVec.toNat_ofNat]
    omega
  · apply BitVec.eq_of_toNat_eq
    simp only [BitVec.toNat_ofNat]
    omega
  · apply BitVec.eq_of_toNat_eq
    simp only [BitVec.toNat_ofNat]
    omega

theorem tail_eq_marker_iff (w : U32) : tail w = marker ↔ w.toNat / 256 = 0xAA55FF := by
  have hw := w.isLt
  have h0 : (0xFF : Byte).toNat = 255 := rfl
  have h1 : (0x55 : Byte).toNat = 85 := rfl
  have h2 : (0xAA : Byte).toNat = 170 := rfl
  simp only [tail_eq, marker, List.cons.injEq, and_true, ← BitVec.toNat_inj, BitVec.toNat_ofNat,
    h0, h1, h2]
  constructor
  · rintro ⟨h0, h1, h2⟩
    omega
  · intro h
    omega

theorem markerSeen_shiftIn (w : U32) (b : Byte) :
    markerSeen (shiftIn w b) = true ↔ tail w = marker := by
  have hw := w.isLt
  have hb := b.isLt
  have hmask : (0xffffff : U32).toNat = 2 ^ 24 - 1 := rfl
  have hword : (0xAA55FF : U32).toNat = 0xAA55FF := rfl
  rw [tail_eq_marker_iff, markerSeen, beq_iff_eq, ← BitVec.toNat_inj, BitVec.toNat_and, hmask,
    Nat.and_two_pow_sub_one_eq_mod, toNat_shiftIn, hword]
  omega

theorem shiftIn_of_marker {w : U32} (h : tail w = marker) (b : Byte) :
    shiftIn w b = typeWord b := by
  rw [tail_eq_marker_iff] at h
  have hor := Nat.shiftLeft_add_eq_or_of_lt (show 0xAA55FF < 2 ^ 24 by omega) b.toNat
  have hword : (0xAA55FF : BitVec 24).toNat = 0xAA55FF := rfl
  apply BitVec.eq_of_toNat_eq
  rw [toNat_shiftIn, h, typeWord, BitVec.toNat_append, hword, ← hor, Nat.shiftLeft_eq]
  omega

theorem tail_typeWord (t : Byte) : tail (typeWord t) = [0x55, 0xAA, t] := by
  rw [tail, leWord_typeWord]
  rfl

/-! ### Lossless links -/

/-- The iodev `d` delivers the bytes `rx`, those that arrived and those still on
    their way, in order and without loss, and nothing but a read of `d` takes
    from them. -/
structure Lossless {ρ : Type} (P : Platform ρ) (d : IodevId) (rx : ρ → List Byte) : Prop where
  keeps : P.toFirmware.Keeps rx
  handleEvents : ∀ i env, rx (P.handleEvents i env) = rx env
  canRead : ∀ i env, rx (P.canRead i env).2 = rx env
  ready : ∀ env, (P.canRead d env).1 ≠ 0 → rx env ≠ []
  read : ∀ n env, n.toNat ≤ (rx env).length →
    (P.read d n env).ret = n.setWidth 64 ∧ (P.read d n env).data = (rx env).take n.toNat ∧
      rx (P.read d n env).env = (rx env).drop n.toNat
  readOther : ∀ i n env, i ≠ d → rx (P.read i n env).env = rx env
  write : ∀ i bs env, rx (P.write i bs env) = rx env
  queue : ∀ i bs env, rx (P.queue i bs env) = rx env
  flush : ∀ i env, rx (P.flush i env) = rx env

theorem env_verifyWrite {ρ : Type} (P : Platform ρ) {d : IodevId} {m : MemRequest} {s : State ρ}
    (h : s.disableDataCsums = true → m.dchecksum ≠ CHECKSUM_SENTINEL) :
    (verifyWrite P d m s).state.dev.env = s.dev.env := by
  unfold verifyWrite
  dsimp only
  split
  · rfl
  split
  · rename_i heq hflag
    have hdis : s.disableDataCsums = true := hflag
    simp only [State.dataChecksum, dataChecksum, hdis, if_true, not_not] at heq
    exact absurd heq.symm (h hdis)
  · rfl

section Frame

variable {ρ : Type} {P : Platform ρ} {d : IodevId} {rx : ρ → List Byte} (hL : Lossless P d rx)

include hL

theorem Lossless.reqProxy (i : IodevId) (request : ProxyRequest) (s : State ρ) :
    rx (reqProxy P i request s).state.dev.env = rx s.dev.env := by
  have hkeep := hL.keeps.proxyProcess (BitVec.ofNat 32 i.val) request s.dev
  unfold UartProxy.reqProxy
  cases hres : proxyProcess P.toFirmware (BitVec.ofNat 32 i.val) request s.dev with
  | rebooted dev =>
    rw [hres] at hkeep
    exact hkeep
  | returned ret reply dev =>
    rw [hres] at hkeep
    dsimp only
    split
    · exact (hL.keeps.callee _ _ _).trans hkeep
    · exact hkeep

theorem Lossless.reqMemwrite_other {i : IodevId} (hi : i ≠ d) (m : MemRequest) (s : State ρ) :
    rx (reqMemwrite P i m s).state.dev.env = rx s.dev.env := by
  rw [← env_probe m s]
  unfold reqMemwrite
  generalize probe m s = p
  dsimp only
  split
  · rfl
  split
  · exact hL.readOther _ _ _ hi
  unfold verifyWrite
  dsimp only
  split
  · exact hL.readOther _ _ _ hi
  split
  · exact (hL.readOther _ _ _ hi).trans (hL.readOther _ _ _ hi)
  · exact hL.readOther _ _ _ hi

theorem Lossless.dispatch {i : IodevId} {r : UartRequest} (h : i ≠ d ∨ r.type ≠ REQ_MEMWRITE)
    (s : State ρ) : rx (dispatch P i r s).state.dev.env = rx s.dev.env := by
  unfold UartProxy.dispatch
  split
  · rfl
  split
  · exact hL.reqProxy i _ s
  split
  · unfold reqMemread
    split <;> rfl
  split
  · rename_i hwrite
    exact hL.reqMemwrite_other (h.resolve_right (not_not.mpr hwrite)) _ s
  · rfl

theorem Lossless.answer (i : IodevId) (r : UartRequest) (h : Handled ρ) :
    rx (answer P i r h).dev.env = rx h.state.dev.env := by
  have hdata : ∀ s : State ρ, rx (sendData P i r.mrequest s).dev.env = rx s.dev.env := by
    intro s
    unfold sendData
    dsimp only
    split
    · exact (hL.queue _ _ _).trans (hL.queue _ _ _)
    · exact hL.queue _ _ _
  unfold UartProxy.answer
  dsimp only
  refine (hL.flush _ _).trans ((hL.write _ _ _).trans ?_)
  split
  · exact (hdata _).trans (hL.queue _ _ _)
  · exact hL.queue _ _ _

theorem Lossless.handle (i : IodevId) (r : UartRequest) (s : State ρ) :
    rx (handle P i r s).1.dev.env =
      rx (UartProxy.dispatch P i r { s with uartproxyIodev := i }).state.dev.env := by
  unfold UartProxy.handle
  dsimp only
  split
  · rfl
  · exact hL.answer i r _

theorem Lossless.iodevRead {s : State ρ} {n : U32} {bs rest : List Byte}
    (hrx : rx s.dev.env = bs ++ rest) (hn : n.toNat = bs.length) :
    (s.iodevRead P d n).ret = n.setWidth 64 ∧ (s.iodevRead P d n).data = bs ∧
      rx (s.iodevRead P d n).env = rest := by
  obtain ⟨hret, hdata, henv⟩ := hL.read n s.dev.env (by rw [hrx, hn]; simp)
  rw [hrx, hn, List.take_left] at hdata
  rw [hrx, hn, List.drop_left] at henv
  refine ⟨hret, ?_, henv⟩
  simp only [State.iodevRead, hdata, hn, List.take_length]

theorem Lossless.reqMemwrite_eq {m : MemRequest} {s : State ρ} {data rest : List Byte}
    (hrx : rx s.dev.env = data ++ rest) (hsize : m.size.toNat = data.length)
    (hshort : data.length < 2 ^ 32) :
    rx (P.read d (lo32 m.size) s.dev.env).env = rest ∧ reqMemwrite P d m s =
      verifyWrite P d m
        (((probe m s).setEnv (P.read d (lo32 m.size) s.dev.env).env).store (lo32 m.addr) data) := by
  have hlo : (lo32 m.size).toNat = data.length := by
    rw [lo32, BitVec.toNat_setWidth, hsize, Nat.mod_eq_of_lt hshort]
  obtain ⟨hret, hdata, henv⟩ := hL.iodevRead (s := probe m s) (by rw [env_probe, hrx]) hlo
  have hfull : (lo32 ((lo32 m.size).setWidth 64)).setWidth 64 = m.size := by
    apply BitVec.eq_of_toNat_eq
    simp only [lo32, BitVec.toNat_setWidth]
    omega
  have hsame : ((probe m s).iodevRead P d (lo32 m.size)).env =
      (P.read d (lo32 m.size) s.dev.env).env := by
    rw [State.iodevRead, env_probe]
  rw [hsame] at henv
  refine ⟨henv, ?_⟩
  unfold reqMemwrite
  rw [if_neg (by rw [excCount_probe]; exact not_not.mpr rfl)]
  dsimp only
  rw [hret, hdata, hsame, if_neg (not_not.mpr hfull)]

theorem Lossless.verifyWrite_sentinel {m : MemRequest} {s : State ρ} {bs rest : List Byte}
    (hflag : s.disableDataCsums = true) (hsum : m.dchecksum = CHECKSUM_SENTINEL)
    (hrx : rx s.dev.env = bs ++ rest) (hbs : bs.length = 4) :
    rx (verifyWrite P d m s).state.dev.env = rest := by
  have hval : s.dataChecksum (lo32 m.addr) (lo32 m.size) = m.dchecksum := by
    rw [State.dataChecksum, dataChecksum, if_pos hflag, hsum]
  have hnote : (s.noteMode d).disableDataCsums = true := hflag
  unfold verifyWrite
  dsimp only
  rw [if_neg (not_not.mpr hval), if_pos hnote]
  exact (hL.iodevRead (s := s.noteMode d) (n := 4) hrx hbs.symm).2.2

end Frame

/-! ### What the host sends -/

/-- A request with the arguments its sender in `UartInterface` gets. -/
inductive HostRequest where
  | nop (payload : List Byte)
  | proxy (payload : List Byte)
  | memread (payload : List Byte)
  | memwrite (enabledFeatures addr : Nat) (data : List Byte)

namespace HostRequest

/-- What the sender writes to the link, if it does not raise. -/
def send : HostRequest → Except Host.Error (List Byte)
  | .nop payload => Host.cmd REQ_NOP.toNat payload
  | .proxy payload => Host.cmd REQ_PROXY.toNat payload
  | .memread payload => Host.cmd REQ_MEMREAD.toNat payload
  | .memwrite features addr data => Host.writememSend features addr data

def type : HostRequest → U32
  | .nop _ => REQ_NOP
  | .proxy _ => REQ_PROXY
  | .memread _ => REQ_MEMREAD
  | .memwrite _ _ _ => REQ_MEMWRITE

def code : HostRequest → Byte
  | .nop _ => 0
  | .proxy _ => 1
  | .memread _ => 2
  | .memwrite _ _ _ => 3

def payload : HostRequest → List Byte
  | .nop payload | .proxy payload | .memread payload => payload
  | .memwrite features addr data =>
      Host.memwritePayload (Host.csumsDisabled features) (BitVec.ofNat 64 addr) data

def trailer : HostRequest → List Byte
  | .nop _ | .proxy _ | .memread _ => []
  | .memwrite features _ data => Host.memwriteTrailer (Host.csumsDisabled features) data

/-- Data short enough for the `size_t` of the device. -/
def Short : HostRequest → Prop
  | .memwrite _ _ data => data.length < 2 ^ 32
  | _ => True

/-- A write sent with a checksum that happens to be the sentinel. -/
def Collides : HostRequest → Prop
  | .memwrite features _ data =>
      Host.csumsDisabled features = false ∧ checksum data = CHECKSUM_SENTINEL
  | _ => False

theorem type_eq (q : HostRequest) : q.type = typeWord q.code := by
  cases q with
  | nop _ => exact (by decide : REQ_NOP = typeWord 0)
  | proxy _ => exact (by decide : REQ_PROXY = typeWord 1)
  | memread _ => exact (by decide : REQ_MEMREAD = typeWord 2)
  | memwrite _ _ _ => exact (by decide : REQ_MEMWRITE = typeWord 3)

theorem memwrite_or (q : HostRequest) :
    (q.type ≠ REQ_MEMWRITE ∧ q.trailer = []) ∨
      ∃ features addr data, q = .memwrite features addr data := by
  cases q with
  | nop _ => exact .inl ⟨(by decide : REQ_NOP ≠ REQ_MEMWRITE), rfl⟩
  | proxy _ => exact .inl ⟨(by decide : REQ_PROXY ≠ REQ_MEMWRITE), rfl⟩
  | memread _ => exact .inl ⟨(by decide : REQ_MEMREAD ≠ REQ_MEMWRITE), rfl⟩
  | memwrite features addr data => exact .inr ⟨features, addr, data, rfl⟩

theorem code_ne (q : HostRequest) : q.code ≠ 0xFF := by
  cases q <;> simp [code]

theorem writememSend_ok {features addr : Nat} {data bytes : List Byte}
    (h : Host.writememSend features addr data = .ok bytes) :
    addr < 2 ^ 64 ∧ data.length < 2 ^ 64 := by
  by_contra hno
  have hpack : Host.packMem addr data.length (Host.dataChecksum features data) =
      .error .structError := by
    rw [Host.packMem, if_neg (fun hb => hno ⟨hb.1, hb.2.1⟩)]
  unfold Host.writememSend at h
  rw [hpack] at h
  cases h

theorem send_ok {q : HostRequest} {bytes : List Byte} (h : q.send = .ok bytes) :
    q.payload.length ≤ 56 ∧
      bytes = Host.cmdBytes q.type q.payload ++ q.trailer := by
  cases q with
  | nop payload =>
    obtain ⟨hlen, rfl⟩ := Host.cmd_eq_ok h
    exact ⟨hlen, (List.append_nil _).symm⟩
  | proxy payload =>
    obtain ⟨hlen, rfl⟩ := Host.cmd_eq_ok h
    exact ⟨hlen, (List.append_nil _).symm⟩
  | memread payload =>
    obtain ⟨hlen, rfl⟩ := Host.cmd_eq_ok h
    exact ⟨hlen, (List.append_nil _).symm⟩
  | memwrite features addr data =>
    obtain ⟨haddr, hsize⟩ := writememSend_ok h
    rw [send, Host.writememSend_ofNat features haddr hsize] at h
    cases h
    refine ⟨?_, rfl⟩
    rw [payload, Host.length_memwritePayload]
    omega

end HostRequest

/-- The stream `g0 R1 g1 R2 g2 …`: requests as the host sends them, with text
    between them that does not contain the marker. -/
inductive Stream : List HostRequest → List Byte → Prop
  | done {g : List Byte} (hg : Free marker g) : Stream [] g
  | sent {g bytes rest : List Byte} {q : HostRequest} {qs : List HostRequest}
      (hg : Free marker g) (hq : q.send = .ok bytes) (h : Stream qs rest) :
      Stream (q :: qs) (g ++ (bytes ++ rest))

theorem Stream.prepend {qs : List HostRequest} {l x : List Byte} (hx : ∀ b ∈ x, b ≠ 0xFF)
    (h : Stream qs l) : Stream qs (x ++ l) := by
  cases h with
  | done hg => exact .done (Free.append_of_forall_ne hx hg)
  | sent hg hq h =>
    rw [← List.append_assoc]
    exact .sent (Free.append_of_forall_ne hx hg) hq h

def Decodes (q : HostRequest) (r : UartRequest) : Prop :=
  r.type = q.type ∧ r.payload = ljust 56 q.payload ∧ r.checksumOk = true

/-! ### One look, one request -/

/-- The iodev is in use by the proxy and has something to read. -/
def Ready {ρ : Type} (P : Platform ρ) (d : IodevId) (env : ρ) : Prop :=
  P.getUsage d env &&& USAGE_UARTPROXY ≠ 0 ∧ (P.canRead d (P.handleEvents d env)).1 ≠ 0

section Step

variable {ρ : Type} {P : Platform ρ} {d : IodevId} {rx : ρ → List Byte} (hL : Lossless P d rx)

include hL

theorem Lossless.look_other {i : IodevId} (hi : i ≠ d) (s : State ρ) :
    (look P i s).2.iodevProxyBuffer d = s.iodevProxyBuffer d ∧
      rx (look P i s).2.dev.env = rx s.dev.env := by
  have henv : rx (P.canRead i (P.handleEvents i s.dev.env)).2 = rx s.dev.env :=
    (hL.canRead _ _).trans (hL.handleEvents _ _)
  unfold look
  split
  · exact ⟨rfl, rfl⟩
  dsimp only
  split
  · exact ⟨rfl, henv⟩
  split
  · exact ⟨Function.update_of_ne hi.symm _ _, (hL.readOther _ _ _ hi).trans henv⟩
  · exact ⟨rfl, (hL.readOther _ _ _ hi).trans henv⟩

theorem Lossless.look_idle {s : State ρ} (h : ¬ Ready P d s.dev.env) :
    (look P d s).1 = false ∧ (look P d s).2.iodevProxyBuffer = s.iodevProxyBuffer ∧
      rx (look P d s).2.dev.env = rx s.dev.env := by
  unfold look
  split
  · exact ⟨rfl, rfl, rfl⟩
  rename_i husage
  dsimp only
  split
  · exact ⟨rfl, rfl, (hL.canRead _ _).trans (hL.handleEvents _ _)⟩
  · rename_i hready
    exact absurd ⟨husage, hready⟩ h

theorem Lossless.look_eq {s : State ρ} (h : Ready P d s.dev.env) :
    ∃ b, rx s.dev.env =
        b :: rx (P.read d 1 (P.canRead d (P.handleEvents d s.dev.env)).2).env ∧
      look P d s = (markerSeen (shiftIn (s.iodevProxyBuffer d) b),
        (s.setEnv (P.read d 1 (P.canRead d (P.handleEvents d s.dev.env)).2).env).shift d b) := by
  obtain ⟨husage, hready⟩ := h
  have henv : rx (P.canRead d (P.handleEvents d s.dev.env)).2 = rx s.dev.env :=
    (hL.canRead _ _).trans (hL.handleEvents _ _)
  have hne : rx s.dev.env ≠ [] := by
    have := hL.ready _ hready
    rwa [hL.handleEvents] at this
  obtain ⟨b, rest, hrx⟩ := List.exists_cons_of_ne_nil hne
  have hrx' : rx ((s.setEnv (P.handleEvents d s.dev.env)).setEnv
      (P.canRead d (P.handleEvents d s.dev.env)).2).dev.env = [b] ++ rest := henv.trans hrx
  obtain ⟨hret, hdata, hrest⟩ := hL.iodevRead (n := 1) hrx' rfl
  have hone : (1 : U32).setWidth 64 = (1 : U64) := by decide
  rw [hone] at hret
  have hwin : ∀ env, ((s.setEnv env).shift d b).iodevProxyBuffer d =
      shiftIn (s.iodevProxyBuffer d) b := fun _ => Function.update_self _ _ _
  refine ⟨b, ?_, ?_⟩
  · rw [hrx]
    exact congrArg _ hrest.symm
  unfold look
  rw [if_neg husage]
  dsimp only [State.setEnv] at hret hdata hwin ⊢
  rw [if_neg hready, if_pos hret, hdata]
  exact congrArg (fun w => (markerSeen w, _)) (hwin _)

theorem Lossless.look_ready {s : State ρ} (h : Ready P d s.dev.env) :
    ∃ b, rx s.dev.env = b :: rx (look P d s).2.dev.env ∧
      (look P d s).2.iodevProxyBuffer d = shiftIn (s.iodevProxyBuffer d) b ∧
      (look P d s).1 = markerSeen (shiftIn (s.iodevProxyBuffer d) b) := by
  obtain ⟨b, hrx, heq⟩ := hL.look_eq h
  rw [heq]
  exact ⟨b, hrx, Function.update_self _ _ _, rfl⟩

theorem Lossless.reqMemwrite_trailer {disabled : Bool} {addr : U64} {data rest : List Byte}
    {s : State ρ} (hshort : data.length < 2 ^ 32)
    (hrx : rx s.dev.env = Host.memwriteTrailer disabled data ++ rest)
    (hmode : disabled = false → checksum data = CHECKSUM_SENTINEL → s.disableDataCsums = false) :
    ∃ x, (∀ b ∈ x, b ≠ 0xFF) ∧ x.length ≤ (Host.memwriteTrailer disabled data).length ∧
      rx (reqMemwrite P d ⟨addr, BitVec.ofNat 64 data.length, dataChecksum disabled data⟩
        s).state.dev.env = x ++ rest := by
  have hsize : (BitVec.ofNat 64 data.length).toNat = data.length := by
    rw [BitVec.toNat_ofNat]
    omega
  rw [Host.memwriteTrailer, List.append_assoc] at hrx
  obtain ⟨henv, heq⟩ := hL.reqMemwrite_eq
    (m := ⟨addr, BitVec.ofNat 64 data.length, dataChecksum disabled data⟩) hrx hsize hshort
  rw [heq]
  have hflag := (probe_recorded ⟨addr, BitVec.ofNat 64 data.length, dataChecksum disabled data⟩
    s).mode
  cases disabled with
  | false =>
    -- no sentinel was sent, and none is read unless the checksum looks like one
    refine ⟨[], by simp, by simp, ?_⟩
    rw [env_verifyWrite P]
    · exact henv
    · intro hset hsum
      have hclear := hmode rfl hsum
      rw [← hflag] at hclear
      exact absurd (hset.symm.trans hclear) (by decide)
  | true =>
    cases hdis : s.disableDataCsums with
    | true =>
      refine ⟨[], by simp, by simp, ?_⟩
      exact hL.verifyWrite_sentinel (hflag.trans hdis) rfl henv rfl
    | false =>
      refine ⟨leWord DATA_END_SENTINEL, by decide, by simp [Host.memwriteTrailer], ?_⟩
      rw [env_verifyWrite P]
      · exact henv
      · intro hset
        exact absurd (hset.symm.trans (hflag.trans hdis)) (by decide)

omit hL in
theorem dispatch_memwrite {r : UartRequest} (h : r.type = REQ_MEMWRITE) (s : State ρ) :
    dispatch P d r s = reqMemwrite P d r.mrequest s := by
  rw [dispatch, h, if_neg (by decide), if_neg (by decide), if_neg (by decide), if_pos rfl]

/-- Whatever a handler leaves unread of what the host sent with a request has no
    `FF` in it. -/
theorem Lossless.dispatch_trailer {q : HostRequest} {rest : List Byte} {r : UartRequest}
    {s : State ρ} (hshort : q.Short) (hr : Decodes q r)
    (hrx : rx s.dev.env = q.trailer ++ rest)
    (hmode : q.Collides → s.disableDataCsums = false) :
    ∃ x, (∀ b ∈ x, b ≠ 0xFF) ∧ x.length ≤ q.trailer.length ∧
      rx (UartProxy.dispatch P d r s).state.dev.env = x ++ rest := by
  rcases q.memwrite_or with ⟨htype, htrailer⟩ | ⟨features, addr, data, rfl⟩
  · refine ⟨[], by simp, by simp, ?_⟩
    rw [hL.dispatch (.inr (by rw [hr.1]; exact htype)), hrx, htrailer]
  · have hm : r.mrequest = ⟨BitVec.ofNat 64 addr, BitVec.ofNat 64 data.length,
        dataChecksum (Host.csumsDisabled features) data⟩ := UartRequest.mrequest_eq hr.2.1
    rw [dispatch_memwrite hr.1, hm]
    exact hL.reqMemwrite_trailer hshort hrx (fun hdis hsum => hmode ⟨hdis, hsum⟩)

/-- A request of the host, found at its marker, is decoded as it was sent. -/
theorem Lossless.serve_request {q : HostRequest} {bytes rest : List Byte} {s : State ρ}
    (hq : q.send = .ok bytes) (hwin : s.iodevProxyBuffer d = q.type)
    (hrx : rx s.dev.env = bytes.drop 4 ++ rest) :
    ∃ r, Decodes q r ∧ rx (P.read d 60 s.dev.env).env = q.trailer ++ rest ∧
      serve P d s = UartProxy.handle P d r
        ((s.setEnv (P.read d 60 s.dev.env).env).emit (.request d r)) := by
  obtain ⟨hlen, rfl⟩ := HostRequest.send_ok hq
  have h64 : (Host.cmdBytes q.type q.payload).length = 64 := Host.length_cmdBytes hlen
  have h60 : ((Host.cmdBytes q.type q.payload).drop 4).length = 60 := by
    rw [List.length_drop, h64]
  rw [List.drop_append_of_le_length (by omega), List.append_assoc] at hrx
  obtain ⟨hret, hdata, henv⟩ := hL.iodevRead (n := 60) hrx h60.symm
  have hr : Decodes q (UartRequest.ofCmd q.type q.payload hlen) :=
    ⟨rfl, rfl, UartRequest.checksumOk_ofCmd _ _ _⟩
  have hret' : ¬ lo32 ((60 : U32).setWidth 64) ≠ 60 := by decide
  refine ⟨_, hr, henv, ?_⟩
  unfold serve
  dsimp only
  rw [hret, hdata, hwin, UartRequest.ofBytes_cmdBytes q.type q.payload hlen, if_neg hret',
    if_pos hr.2.2]
  rfl

theorem Lossless.serve_other {i : IodevId} (hi : i ≠ d) (s : State ρ) :
    rx (serve P i s).1.dev.env = rx s.dev.env := by
  unfold serve
  dsimp only
  split
  · exact hL.readOther _ _ _ hi
  split
  · exact (hL.handle i _ _).trans ((hL.dispatch (.inl hi) _).trans (hL.readOther _ _ _ hi))
  · exact (hL.write _ _ _).trans (hL.readOther _ _ _ hi)

end Step

/-! ### Windows and traces, for any platform -/

section Unframed

variable {ρ : Type} (P : Platform ρ)

theorem window_dispatch (i : IodevId) (r : UartRequest) (s : State ρ) :
    (dispatch P i r s).state.iodevProxyBuffer = s.iodevProxyBuffer := by
  have hprobe : ∀ m : MemRequest, (probe m s).iodevProxyBuffer = s.iodevProxyBuffer := by
    intro m
    unfold probe
    dsimp only
    split <;> rfl
  have hverify : ∀ (m : MemRequest) (s : State ρ),
      (verifyWrite P i m s).state.iodevProxyBuffer = s.iodevProxyBuffer := by
    intro m s
    unfold verifyWrite
    dsimp only
    split
    · rfl
    split <;> rfl
  unfold dispatch
  split
  · rfl
  split
  · unfold reqProxy
    cases proxyProcess P.toFirmware (BitVec.ofNat 32 i.val) r.prequest s.dev with
    | rebooted dev => rfl
    | returned ret reply dev =>
      dsimp only
      split <;> rfl
  split
  · unfold reqMemread
    split <;> rfl
  split
  · unfold reqMemwrite
    dsimp only
    split
    · exact hprobe _
    split
    · exact hprobe _
    · exact (hverify _ _).trans (hprobe _)
  · rfl

theorem window_serve (i : IodevId) (s : State ρ) :
    (serve P i s).1.iodevProxyBuffer = s.iodevProxyBuffer := by
  have hdata : ∀ (m : MemRequest) (s : State ρ),
      (sendData P i m s).iodevProxyBuffer = s.iodevProxyBuffer := by
    intro m s
    unfold sendData
    dsimp only
    split <;> rfl
  have hanswer : ∀ (r : UartRequest) (h : Handled ρ),
      (answer P i r h).iodevProxyBuffer = h.state.iodevProxyBuffer := by
    intro r h
    unfold answer
    dsimp only
    split
    · exact hdata _ _
    · rfl
  unfold serve
  dsimp only
  split
  · rfl
  split
  · unfold handle
    dsimp only
    split
    · exact window_dispatch P i _ _
    · exact (hanswer _ _).trans (window_dispatch P i _ _)
  · rfl

theorem serve_trace (i : IodevId) (s : State ρ) :
    (serve P i s).1.trace = s.trace ∨
      ∃ r es, (serve P i s).1.trace = s.trace ++ .request i r :: es ∧ requests es = [] := by
  unfold serve
  dsimp only
  generalize UartRequest.ofBytes (s.iodevProxyBuffer i) (s.iodevRead P i 60).data = r
  split
  · exact .inl rfl
  split
  · obtain ⟨es, hrec, hex⟩ := handle_exchange P i r
      ((s.setEnv (s.iodevRead P i 60).env).emit (.request i r))
    refine .inr ⟨r, es, ?_, hex.requests_eq⟩
    rw [hrec.trace]
    exact List.append_assoc ..
  · exact .inr ⟨r, [_], List.append_assoc .., rfl⟩

end Unframed

/-! ### The invariant of the hunt -/

def decoded (d : IodevId) (es : List Event) : List UartRequest :=
  (onLink d (requests es)).map Prod.snd

/-- Writes whose checksum looks like the sentinel are only handled while the last
    negotiation, on whatever link, left checksums on. -/
def ModeFits (d : IodevId) (qs : List HostRequest) (es : List Event) : Prop :=
  ∀ pre r post q, es = pre ++ .request d r :: post → qs[(decoded d pre).length]? = some q →
    q.Collides → lastMode (requests pre) = false

/-- Some requests are decoded, and the window with what is to come holds the rest. -/
def Framed {ρ : Type} (d : IodevId) (rx : ρ → List Byte) (qs : List HostRequest) (s : State ρ) :
    Prop :=
  ∃ done todo, qs = done ++ todo ∧ List.Forall₂ Decodes done (decoded d s.trace) ∧
    Stream todo (tail (s.iodevProxyBuffer d) ++ rx s.dev.env)

theorem decoded_other {d i : IodevId} (hi : i ≠ d) (es es' : List Event) (r : UartRequest)
    (hes : requests es' = []) : decoded d (es ++ .request i r :: es') = decoded d es := by
  have hreq : requests (es ++ .request i r :: es') = requests es ++ [(i, r)] := by
    rw [requests_append]
    exact congrArg (fun l => _ ++ (_ :: l)) hes
  rw [decoded, hreq]
  simp [decoded, onLink, hi]

theorem decoded_self {d : IodevId} (es es' : List Event) (r : UartRequest)
    (hes : requests es' = []) : decoded d (es ++ .request d r :: es') = decoded d es ++ [r] := by
  have hreq : requests (es ++ .request d r :: es') = requests es ++ [(d, r)] := by
    rw [requests_append]
    exact congrArg (fun l => _ ++ (_ :: l)) hes
  rw [decoded, hreq]
  simp [decoded, onLink]

theorem ModeFits.of_append {d : IodevId} {qs : List HostRequest} {es es' : List Event}
    (h : ModeFits d qs (es ++ es')) : ModeFits d qs es := by
  intro pre r post q hsplit
  refine h pre r (post ++ es') q ?_
  rw [hsplit, List.append_assoc, List.cons_append]

theorem send_drop {q : HostRequest} {bytes : List Byte} (hq : q.send = .ok bytes) :
    bytes = marker ++ (q.code :: bytes.drop 4) ∧ 64 ≤ bytes.length := by
  obtain ⟨hlen, rfl⟩ := HostRequest.send_ok hq
  have h64 : (Host.cmdBytes q.type q.payload).length = 64 := Host.length_cmdBytes hlen
  refine ⟨?_, by rw [List.length_append]; omega⟩
  have htake : (Host.cmdBytes q.type q.payload ++ q.trailer).take 4 = marker ++ [q.code] := by
    simp only [Host.cmdBytes, List.append_assoc]
    rw [q.type_eq, leWord_typeWord]
    exact List.take_left' rfl
  conv_lhs => rw [← List.take_append_drop 4 (Host.cmdBytes q.type q.payload ++ q.trailer), htake]
  rw [List.append_assoc]
  rfl

theorem tail_cons (w : U32) : ∃ a b c, tail w = [a, b, c] := ⟨_, _, _, tail_eq w⟩

theorem Stream.shift {qs : List HostRequest} {w : U32} {b : Byte} {l : List Byte}
    (h : Stream qs (tail w ++ b :: l)) (hw : tail w ≠ marker) :
    Stream qs (tail (shiftIn w b) ++ l) := by
  obtain ⟨a₀, a₁, a₂, htail⟩ := tail_cons w
  have hnext : tail (shiftIn w b) ++ l = [a₁, a₂, b] ++ l := by
    rw [tail_shiftIn, htail]
    rfl
  rw [hnext]
  rw [htail] at h hw
  generalize hall : [a₀, a₁, a₂] ++ b :: l = all at h
  cases h with
  | done hg =>
    rw [← hall] at hg
    exact .done hg.of_cons
  | sent hg hq h =>
    rename_i g bytes rest q qs
    cases g with
    | nil =>
      -- the next request would start at the front of the window
      obtain ⟨hbytes, -⟩ := send_drop hq
      rw [List.nil_append, hbytes, marker] at hall
      simp only [List.cons_append, List.nil_append, List.cons.injEq] at hall
      rw [hall.1, hall.2.1, hall.2.2.1] at hw
      exact absurd rfl hw
    | cons a g =>
      simp only [List.cons_append, List.nil_append, List.cons.injEq] at hall
      have hrest : [a₁, a₂, b] ++ l = g ++ (bytes ++ rest) := hall.2
      rw [hrest]
      exact .sent hg.of_cons hq h

theorem Stream.found {qs : List HostRequest} {l : List Byte} (h : Stream qs (marker ++ l)) :
    ∃ q qs' bytes rest, qs = q :: qs' ∧ q.send = .ok bytes ∧ Stream qs' rest ∧
      l = q.code :: (bytes.drop 4 ++ rest) := by
  generalize hall : marker ++ l = all at h
  cases h with
  | done hg =>
    rw [← hall] at hg
    exact absurd (List.prefix_append _ _) hg.not_prefix
  | sent hg hq h =>
    rename_i g bytes rest q qs
    obtain ⟨hbytes, -⟩ := send_drop hq
    have hpre : marker <+: g ++ (marker ++ (q.code :: bytes.drop 4 ++ rest)) := by
      rw [← List.append_assoc marker, ← hbytes, ← hall]
      exact List.prefix_append _ _
    have hnil := hg.eq_nil_of_prefix marker_unbordered hpre
    subst hnil
    refine ⟨q, qs, bytes, rest, rfl, hq, h, ?_⟩
    rw [List.nil_append, hbytes, List.append_assoc] at hall
    exact List.append_cancel_left hall

/-! ### Polls and runs -/

section Run

variable {ρ : Type} {P : Platform ρ} {d : IodevId} {rx : ρ → List Byte}

theorem poll_running {c : Loop ρ} (hrun : c.phase = .running) :
    poll P c = if (look P c.iodev c.state).1 then
        ⟨(serve P c.iodev (look P c.iodev c.state).2).1, 0,
          (serve P c.iodev (look P c.iodev c.state).2).2⟩
      else ⟨(look P c.iodev c.state).2, c.iodev + 1, .running⟩ := by
  unfold poll
  rw [hrun]

theorem look_trace (i : IodevId) (s : State ρ) : (look P i s).2.trace = s.trace := by
  have h := (look_recorded P i s).trace
  rwa [List.append_nil] at h

theorem poll_trace_append (c : Loop ρ) : ∃ es, (poll P c).state.trace = c.state.trace ++ es := by
  by_cases hrun : c.phase = .running
  · rw [poll_running hrun]
    split
    · rcases serve_trace P c.iodev (look P c.iodev c.state).2 with h | ⟨r, es, h, -⟩
      · exact ⟨[], by rw [h, look_trace, List.append_nil]⟩
      · exact ⟨_, by rw [h, look_trace]⟩
    · exact ⟨[], by rw [look_trace, List.append_nil]⟩
  · exact ⟨[], by rw [poll_of_not_running P hrun, List.append_nil]⟩

variable (hL : Lossless P d rx)

include hL

theorem Lossless.poll_other {qs : List HostRequest} {c : Loop ρ} (hrun : c.phase = .running)
    (hd : c.iodev ≠ d) (hc : Framed d rx qs c.state) : Framed d rx qs (poll P c).state := by
  obtain ⟨done, todo, hqs, hdone, htodo⟩ := hc
  obtain ⟨hwin, hrx⟩ := hL.look_other hd c.state
  rw [← hwin, ← hrx] at htodo
  rw [← look_trace (P := P) c.iodev c.state] at hdone
  rw [poll_running hrun]
  generalize (look P c.iodev c.state).2 = s at hdone htodo
  split
  · refine ⟨done, todo, hqs, ?_, ?_⟩
    · rcases serve_trace P c.iodev s with h | ⟨r, es, h, hes⟩
      · rw [h]
        exact hdone
      · rw [h, decoded_other hd _ _ _ hes]
        exact hdone
    · rw [window_serve, hL.serve_other hd]
      exact htodo
  · exact ⟨done, todo, hqs, hdone, htodo⟩

theorem Lossless.poll_idle {qs : List HostRequest} {c : Loop ρ} (hrun : c.phase = .running)
    (hd : c.iodev = d) (hidle : ¬ Ready P d c.state.dev.env) (hc : Framed d rx qs c.state) :
    Framed d rx qs (poll P c).state := by
  obtain ⟨done, todo, hqs, hdone, htodo⟩ := hc
  obtain ⟨hfound, hwin, hrx⟩ := hL.look_idle hidle
  rw [poll_running hrun, hd, hfound]
  refine ⟨done, todo, hqs, ?_, ?_⟩
  · rw [if_neg (by decide), look_trace]
    exact hdone
  · rw [if_neg (by decide), hwin, hrx]
    exact htodo

/-- A byte read from `d` goes into the window or, with a marker there, starts the
    next request.  Either way the stream gets shorter. -/
theorem Lossless.poll_ready {qs : List HostRequest} (hshort : ∀ q ∈ qs, q.Short) {c : Loop ρ}
    (hrun : c.phase = .running) (hd : c.iodev = d) (hready : Ready P d c.state.dev.env)
    (hglobal : Global c.state) (hc : Framed d rx qs c.state)
    (hfits : ModeFits d qs (poll P c).state.trace) :
    Framed d rx qs (poll P c).state ∧
      (rx (poll P c).state.dev.env).length < (rx c.state.dev.env).length := by
  obtain ⟨done, todo, rfl, hdone, htodo⟩ := hc
  obtain ⟨b, hrx, hwin, hfound⟩ := hL.look_ready hready
  have hmodeLook := (look_recorded P d c.state).mode
  have htraceLook := look_trace (P := P) d c.state
  rw [poll_running hrun, hd] at hfits ⊢
  generalize (look P d c.state).2 = s at hrx hwin hmodeLook htraceLook hfits ⊢
  generalize (look P d c.state).1 = found at hfound hfits ⊢
  rw [hrx] at htodo ⊢
  by_cases hmark : tail (c.state.iodevProxyBuffer d) = marker
  swap
  · have hnone : ¬ found = true := by
      rw [hfound, markerSeen_shiftIn]
      exact hmark
    rw [if_neg hnone]
    refine ⟨⟨done, todo, rfl, ?_, ?_⟩, by simp⟩
    · rw [htraceLook]
      exact hdone
    · rw [hwin]
      exact htodo.shift hmark
  · rw [hmark] at htodo
    obtain ⟨q, todo', bytes, rest, rfl, hq, hrest, hcons⟩ := htodo.found
    obtain ⟨rfl, hl⟩ := List.cons.inj hcons
    have hsome : found = true := by
      rw [hfound, markerSeen_shiftIn]
      exact hmark
    rw [if_pos hsome] at hfits ⊢
    rw [shiftIn_of_marker hmark, ← q.type_eq] at hwin
    obtain ⟨r, hr, henv, heq⟩ := hL.serve_request hq hwin hl
    generalize (P.read d 60 s.dev.env).env = env at henv heq
    obtain ⟨es, hrec, hex⟩ := handle_exchange P d r ((s.setEnv env).emit (.request d r))
    have htrace : (serve P d s).1.trace = c.state.trace ++ .request d r :: es := by
      rw [heq, hrec.trace, ← htraceLook]
      exact List.append_assoc ..
    have hmode : q.Collides → s.disableDataCsums = false := by
      intro hcol
      rw [hmodeLook, hglobal.flag]
      refine hfits _ r es q htrace ?_ hcol
      rw [← hdone.length_eq]
      simp
    obtain ⟨x, hx, hxlen, hxrest⟩ := hL.dispatch_trailer
      (s := { (s.setEnv env).emit (.request d r) with uartproxyIodev := d })
      (hshort q (by simp)) hr henv hmode
    have hafter : rx (serve P d s).1.dev.env = x ++ rest := by
      rw [heq]
      exact (hL.handle d r _).trans hxrest
    refine ⟨⟨done ++ [q], todo', by simp, ?_, ?_⟩, ?_⟩
    · rw [htrace, decoded_self _ _ _ hex.requests_eq]
      exact List.rel_append hdone (.cons hr .nil)
    · rw [window_serve, hwin, hafter, q.type_eq, tail_typeWord]
      refine Stream.prepend (fun b hb => ?_) (hrest.prepend hx)
      simp only [List.mem_cons, List.not_mem_nil, or_false] at hb
      rcases hb with rfl | rfl | rfl
      · decide
      · decide
      · exact q.code_ne
    · obtain ⟨-, hbytes⟩ := HostRequest.send_ok hq
      obtain ⟨-, h64⟩ := send_drop hq
      have hcmd : (Host.cmdBytes q.type q.payload).length = 64 :=
        Host.length_cmdBytes (HostRequest.send_ok hq).1
      have hlen : bytes.length = 64 + q.trailer.length := by
        rw [hbytes, List.length_append, hcmd]
      rw [hafter, hl]
      simp only [List.length_append, List.length_cons, List.length_drop]
      omega

/-- The invariant of the hunt over a whole run. -/
theorem Lossless.run_framed {qs : List HostRequest} (hshort : ∀ q ∈ qs, q.Short) {s : State ρ}
    (hwin : s.iodevProxyBuffer d = 0) (htrace : s.trace = [])
    (hflag : s.disableDataCsums = false) (hstream : Stream qs (rx s.dev.env)) (n : Nat)
    (hfits : ModeFits d qs (uartproxyRun P none s n).state.trace) :
    Framed d rx qs (uartproxyRun P none s n).state := by
  have hboth : Global (uartproxyRun P none s n).state ∧
      (ModeFits d qs (uartproxyRun P none s n).state.trace →
        Framed d rx qs (uartproxyRun P none s n).state) := by
    refine run_induction P (I := fun c => Global c.state ∧
      (ModeFits d qs c.state.trace → Framed d rx qs c.state)) ?_ ?_ n
    · refine ⟨run_global P s htrace hflag 0, fun _ => ⟨[], qs, rfl, ?_, ?_⟩⟩
      · have hnone : decoded d (notify P IODEV_UART .zero s).trace = [] := by
          simp [notify, State.emit, State.iodevWrite, State.setEnv, htrace, decoded, onLink,
            requests]
        rw [hnone]
        exact .nil
      · have hrx : rx (notify P IODEV_UART .zero s).dev.env = rx s.dev.env := hL.write _ _ _
        have hzero : (notify P IODEV_UART .zero s).iodevProxyBuffer d = 0 := hwin
        rw [hrx, hzero]
        exact hstream.prepend (by decide)
    · rintro c ⟨hglobal, hc⟩
      refine ⟨poll_global P hglobal, fun hfits => ?_⟩
      obtain ⟨es, happ⟩ := poll_trace_append (P := P) c
      have hframed := hc (by rw [happ] at hfits; exact hfits.of_append)
      by_cases hrun : c.phase = .running
      swap
      · rw [poll_of_not_running P hrun]
        exact hframed
      by_cases hd : c.iodev = d
      swap
      · exact hL.poll_other hrun hd hframed
      by_cases hready : Ready P d c.state.dev.env
      · exact (hL.poll_ready hshort hrun hd hready hglobal hframed hfits).1
      · exact hL.poll_idle hrun hd hready hframed
  exact hboth.2 hfits

/-- **Request framing.**  Whatever happens on the other links, the requests decoded
    on `d` are the host's, in order and unaltered, up to where the stream has been
    read; at its end they are all of them, and while bytes are ready on `d` each
    poll of `d` reads on. -/
theorem Lossless.framing {qs : List HostRequest} (hshort : ∀ q ∈ qs, q.Short) {s : State ρ}
    (hwin : s.iodevProxyBuffer d = 0) (htrace : s.trace = [])
    (hflag : s.disableDataCsums = false) (hstream : Stream qs (rx s.dev.env))
    (hfits : ∀ n, ModeFits d qs (uartproxyRun P none s n).state.trace) (n : Nat) :
    ∃ done todo, qs = done ++ todo ∧
      List.Forall₂ Decodes done (decoded d (uartproxyRun P none s n).state.trace) ∧
      (rx (uartproxyRun P none s n).state.dev.env = [] → todo = []) ∧
      ((uartproxyRun P none s n).phase = .running → (uartproxyRun P none s n).iodev = d →
        Ready P d (uartproxyRun P none s n).state.dev.env →
        (rx (uartproxyRun P none s (n + 1)).state.dev.env).length <
          (rx (uartproxyRun P none s n).state.dev.env).length) := by
  have hframed := hL.run_framed hshort hwin htrace hflag hstream n (hfits n)
  have hglobal := run_global P s htrace hflag n
  have hnext : uartproxyRun P none s (n + 1) = poll P (uartproxyRun P none s n) :=
    Function.iterate_succ_apply' ..
  have hfits' := hfits (n + 1)
  rw [hnext] at hfits'
  obtain ⟨done, todo, hqs, hdone, htodo⟩ := id hframed
  refine ⟨done, todo, hqs, hdone, ?_, ?_⟩
  · intro hempty
    rw [hempty, List.append_nil] at htodo
    generalize hall : tail _ = all at htodo
    cases htodo with
    | done => rfl
    | sent hg hq h =>
      have h64 := (send_drop hq).2
      have hlen := congrArg List.length hall
      simp only [tail_eq, List.length_append, List.length_cons, List.length_nil] at hlen
      omega
  · intro hrun hd hready
    rw [hnext]
    exact (hL.poll_ready hshort hrun hd hready hglobal hframed hfits').2

end Run

/-! ### Instances -/

theorem fifo_lossless (d : IodevId) : Lossless Platform.fifo d (fun env => env d) where
  keeps := ⟨fun _ _ _ => rfl, fun _ _ _ _ _ _ => rfl⟩
  handleEvents := fun _ _ => rfl
  canRead := fun _ _ => rfl
  ready := by
    intro env hready hempty
    simp only [Platform.fifo, hempty, List.isEmpty_nil, if_true] at hready
    exact hready rfl
  read := by
    intro n env hn
    refine ⟨?_, rfl, Function.update_self ..⟩
    simp only [Platform.fifo, List.length_take, Nat.min_eq_left hn]
    exact BitVec.ofNat_toNat 64 n
  readOther := fun i n env hi => Function.update_of_ne hi.symm _ _
  write := fun _ _ _ => rfl
  queue := fun _ _ _ => rfl
  flush := fun _ _ => rfl

theorem ModeFits.of_not_collides {d : IodevId} {qs : List HostRequest}
    (h : ∀ q ∈ qs, ¬ q.Collides) (es : List Event) : ModeFits d qs es := by
  intro pre r post q _ hget hcol
  exact absurd hcol (h q (List.mem_of_getElem? hget))

/-- Noise that ends in half a marker, a `NOP`, more noise, and a write. -/
def noisyStream : List Byte :=
  [0xFF, 0x55] ++ (Host.cmdBytes REQ_NOP [] ++ ([0xFF] ++
    (Host.cmdBytes REQ_MEMWRITE (Host.memwritePayload false 0x1000 [1, 2, 3]) ++ [1, 2, 3] ++ [])))

theorem framing_noisyStream :
    List.Forall₂ Decodes [.nop [], .memwrite 0 0x1000 [1, 2, 3]]
      (decoded IODEV_UART (uartproxyRun Platform.fifo none
        (.initial (pendingOn IODEV_UART noisyStream)) 92).state.trace) := by
  have hstream : Stream [.nop [], .memwrite 0 0x1000 [1, 2, 3]] noisyStream := by
    refine .sent (by decide) (Host.cmd_eq (by simp)) (.sent (by decide) ?_ (.done (by decide)))
    exact Host.writememSend_eq 0 0x1000 (by simp)
  have hcollides : ∀ q ∈ [HostRequest.nop [], .memwrite 0 0x1000 [1, 2, 3]], ¬ q.Collides := by
    simp only [List.mem_cons, List.not_mem_nil, or_false, forall_eq_or_imp, forall_eq]
    refine ⟨fun h => h, fun h => absurd h.2 ?_⟩
    decide +kernel
  have hshort : ∀ q ∈ [HostRequest.nop [], .memwrite 0 0x1000 [1, 2, 3]], q.Short := by
    simp [HostRequest.Short]
  obtain ⟨done, todo, hqs, hdone, hend, -⟩ := (fifo_lossless IODEV_UART).framing hshort
    (s := .initial (pendingOn IODEV_UART noisyStream)) rfl rfl rfl hstream
    (fun n => .of_not_collides hcollides _) 92
  have hnil := hend (by decide +kernel)
  rw [hnil, List.append_nil] at hqs
  rw [hqs]
  exact hdone

def collidingData : List Byte := [0x02, 0xbe, 0x00, 0x50, 0x06]

/-- Data that is too long for a `size_t` and starts like a request. -/
def longData : List Byte := Host.cmdBytes REQ_NOP [] ++ List.replicate (2 ^ 32 - 64) 0

theorem length_longData : longData.length = 2 ^ 32 := by
  have h64 : (Host.cmdBytes REQ_NOP []).length = 64 := Host.length_cmdBytes (by simp)
  rw [longData, List.length_append, h64, List.length_replicate]
  norm_num

def collidingStream : List Byte :=
  [] ++ (Host.cmdBytes REQ_NOP (leWord (1 : U64)) ++ ([] ++
    (Host.cmdBytes REQ_MEMWRITE (Host.memwritePayload false 0x1000 collidingData) ++
      Host.memwriteTrailer false collidingData ++
      ([] ++ (Host.cmdBytes REQ_NOP [] ++ [])))))

/-- Two ways to lose the framing.  A write whose checksum is the sentinel, handled
    with checksums off, swallows the first four bytes of the next request.  A write
    of `2^32` bytes is handled as one of no bytes, and its data is searched for
    requests. -/
theorem framing_lost :
    (Stream [.nop (leWord (1 : U64)), .memwrite 0 0x1000 collidingData, .nop []] collidingStream ∧
      (uartproxyRun Platform.fifo none
        (.initial (pendingOn IODEV_USB0 collidingStream)) 700).state.dev.env IODEV_USB0 = [] ∧
      (decoded IODEV_USB0 (uartproxyRun Platform.fifo none
        (.initial (pendingOn IODEV_USB0 collidingStream)) 700).state.trace).map
          UartRequest.type = [REQ_NOP, REQ_MEMWRITE]) ∧
    ∃ l, Stream [.memwrite 1 0x1000 longData] l ∧
      (decoded IODEV_UART (uartproxyRun Platform.fifo none
        (.initial (pendingOn IODEV_UART l)) 62).state.trace).map
          UartRequest.type = [REQ_MEMWRITE, REQ_NOP] := by
  refine ⟨⟨?_, ?_⟩, ?_⟩
  · refine .sent (by decide) (Host.cmd_eq (by simp)) (.sent (by decide) ?_
      (.sent (by decide) (Host.cmd_eq (by simp)) (.done (by decide))))
    exact Host.writememSend_eq 0 0x1000 (by simp [collidingData])
  · decide +kernel
  · have hsize : longData.length < 2 ^ 64 := by
      rw [length_longData]
      norm_num
    have hsend := Host.writememSend_eq 1 0x1000 hsize
    refine ⟨_, .sent (g := []) (by decide) hsend (.done (g := []) (by decide)), ?_⟩
    have hpayload : Host.memwritePayload (Host.csumsDisabled 1) 0x1000 longData =
        leWord (0x1000 : U64) ++ leWord (2 ^ 32 : U64) ++ leWord CHECKSUM_SENTINEL := by
      rw [Host.memwritePayload, length_longData]
      rfl
    rw [hpayload]
    decide +kernel

end MiniHaywire.UartProxy
