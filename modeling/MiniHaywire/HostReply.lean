import MiniHaywire.Wire

/-!
# Decoding the device's stream

`UartInterface.reply` looks for the marker byte by byte, in text the console
prints around the frames, and takes apart the three kinds of frames behind it.
`sync` is the part of its loop that looks for the marker: after a mismatch the
buffer keeps its last byte if that is `FF`, since it may be the first byte of
the next marker.

The loop is modelled with fuel; every pass reads at least one byte, so the
length of the stream is enough (`reply_ne_outOfFuel`).  Calls of the registered
handlers are recorded in the order they are made.
-/

namespace MiniHaywire.Host

open Marker

/-! ### Enumerations -/

inductive EventId where
  | MMIOTRACE
  | IRQTRACE
deriving DecidableEq

inductive Start where
  | BOOT
  | EXCEPTION
  | EXCEPTION_LOWER
  | HV
deriving DecidableEq

/-- `EVENT(n)`; `none` is the `ValueError`. -/
def EventId.ofNat? : Nat → Option EventId
  | 1 => some .MMIOTRACE
  | 2 => some .IRQTRACE
  | _ => none

def EventId.code : EventId → U16
  | .MMIOTRACE => 1
  | .IRQTRACE => 2

def Start.ofNat? : Nat → Option Start
  | 0 => some .BOOT
  | 1 => some .EXCEPTION
  | 2 => some .EXCEPTION_LOWER
  | 3 => some .HV
  | _ => none

/-- `EXC(n)` does not raise. -/
def isExc (n : Nat) : Bool := n < 4

/-! ### The loop of `reply` -/

/-- What the host did while waiting: text shown, handlers called. -/
inductive Action where
  | tty (s : List Byte)
  | event (id : EventId) (data : List Byte)
  | boot (reason : Start) (code info : Nat)
deriving DecidableEq

/-- The outcome of looking for the marker once. -/
inductive Sync where
  | raised (e : Error)
  | text (reply rest : List Byte)
  | found (rest : List Byte)
deriving DecidableEq

/-- The second and third byte of the marker. -/
def syncTail : List Byte → Sync
  | [] => .raised .uartTimeout
  | b :: rest =>
    if b ≠ 0x55 then .text [0xFF, b] rest
    else
      match rest with
      | [] => .raised .uartTimeout
      | b' :: rest => if b' ≠ 0xAA then .text [0xFF, 0x55, b'] rest else .found rest

def syncHead : List Byte → Sync
  | [] => .raised .uartTimeout
  | b :: rest => if b ≠ 0xFF then .text [b] rest else syncTail rest

/-- The three bytes of the marker; the first one may be in the buffer already. -/
def sync (reply stream : List Byte) : Sync :=
  if reply.getLast? = some 0xFF then syncTail stream else syncHead stream

def readfull (n : Nat) (stream : List Byte) : Except Error (List Byte × List Byte) :=
  if stream.length < n then .error .uartTimeout else .ok (stream.take n, stream.drop n)

def handleBoot (data : List Byte) : Except Error Action :=
  match Start.ofNat? (field data 0 4) with
  | none => .error .valueError
  | some reason =>
      if (reason = .EXCEPTION ∨ reason = .EXCEPTION_LOWER) ∧ ¬ isExc (field data 4 4) then
        .error .valueError
      else .ok (.boot reason (field data 4 4) (field data 8 8))

/-- How a pass through the loop ends, other than by an exception. -/
inductive Pass where
  | again (reply rest : List Byte) (a : Action)
  | returned (data rest : List Byte)

def REPLY_LEN : Nat := 36
def EVENT_HDR_LEN : Nat := 8

def eventFrame (features : Nat) (reply stream : List Byte) : Except Error Pass := do
  let (hdr, stream) ← readfull (EVENT_HDR_LEN - 4) stream
  let reply := reply ++ hdr
  let dataLen := field reply 4 2
  let eventType := field reply 6 2
  let (body, stream) ← readfull (dataLen + 4) stream
  let reply := reply ++ body
  let checksum := field reply (reply.length - 4) 4
  let ccsum := dataChecksum features (reply.take (reply.length - 4))
  if checksum ≠ ccsum then .error .uartChecksumError
  else
    match EventId.ofNat? eventType with
    | none => .error .valueError
    | some id =>
        .ok (.again [] stream (.event id ((reply.take (reply.length - 4)).drop EVENT_HDR_LEN)))

/-- A reply or boot frame, from behind its type word. -/
def replyFrame (cmd cmdin : Nat) (reply stream : List Byte) : Except Error Pass := do
  let (body, stream) ← readfull (REPLY_LEN - 4) stream
  let reply := reply ++ body
  let status := (BitVec.ofNat 32 (field reply 4 4)).toInt
  let data := (reply.drop 8).take 24
  let checksum := field reply 32 4
  let ccsum := Host.checksum (reply.take (reply.length - 4))
  if checksum ≠ ccsum then .error .uartChecksumError
  else if cmdin ≠ cmd then
    if cmdin = 0x04AA55FF ∧ status = 0 then do
      let a ← handleBoot data
      .ok (.again [] stream a)
    else .error (.uartCMDError cmd cmdin)
  else if status ≠ 0 then .error (.uartRemoteError status)
  else .ok (.returned data stream)

/-- The part of the loop behind the marker. -/
def frame (features cmd : Nat) (stream : List Byte) : Except Error Pass := do
  let (t, stream) ← readfull 1 stream
  let reply := marker ++ t
  let cmdin := leNat reply
  if cmdin = 0x05AA55FF then eventFrame features reply stream
  else replyFrame cmd cmdin reply stream

def pass (features cmd : Nat) (reply stream : List Byte) : Except Error Pass :=
  match sync reply stream with
  | .raised e => .error e
  | .text reply rest => .ok (.again reply rest (.tty reply))
  | .found rest => frame features cmd rest

/-- The result of `reply`, what is left of the stream, and what was done meanwhile.
    After an exception, `rest` is where the pass that raised it began. -/
structure Outcome where
  result : Except Error (List Byte)
  rest : List Byte
  log : List Action

def replyLoop (features cmd : Nat) : Nat → List Byte → List Byte → List Action → Outcome
  | 0, _, stream, log => ⟨.error .outOfFuel, stream, log⟩
  | fuel + 1, reply, stream, log =>
    match pass features cmd reply stream with
    | .error e => ⟨.error e, stream, log⟩
    | .ok (.again reply rest a) => replyLoop features cmd fuel reply rest (log ++ [a])
    | .ok (.returned data rest) => ⟨.ok data, rest, log⟩

def reply (features cmd : Nat) (stream : List Byte) : Outcome :=
  replyLoop features cmd (stream.length + 1) [] stream []

/-! ### The search for the marker -/

/-- The part of the buffer that still counts. -/
def held (reply : List Byte) : List Byte := if reply.getLast? = some 0xFF then [0xFF] else []

theorem sync_eq (reply stream : List Byte) :
    sync reply stream = syncHead (held reply ++ stream) := by
  unfold sync held
  split <;> rfl

theorem syncTail_cases (stream : List Byte) :
    syncTail stream = .raised .uartTimeout ∨
      ∃ rest, rest.length < stream.length ∧
        ((∃ reply, syncTail stream = .text reply rest) ∨ syncTail stream = .found rest) := by
  cases stream with
  | nil => exact .inl rfl
  | cons b stream =>
    by_cases hb : b = 0x55
    swap
    · exact .inr ⟨stream, by simp, .inl ⟨_, if_pos hb⟩⟩
    subst hb
    cases stream with
    | nil => exact .inl rfl
    | cons c stream =>
      refine .inr ⟨stream, by simp only [List.length_cons]; omega, ?_⟩
      by_cases hc : c = 0xAA
      · subst hc
        exact .inr rfl
      · exact .inl ⟨_, if_pos hc⟩

theorem sync_cases (reply stream : List Byte) :
    sync reply stream = .raised .uartTimeout ∨
      ∃ rest, rest.length < stream.length ∧
        ((∃ reply', sync reply stream = .text reply' rest) ∨ sync reply stream = .found rest) := by
  by_cases hlast : reply.getLast? = some 0xFF
  · rw [sync, if_pos hlast]
    exact syncTail_cases stream
  rw [sync, if_neg hlast]
  cases stream with
  | nil => exact .inl rfl
  | cons b stream =>
    by_cases hb : b = 0xFF
    · subst hb
      rcases syncTail_cases stream with h | ⟨rest, hlen, h⟩
      · exact .inl h
      · exact .inr ⟨rest, Nat.lt_succ_of_lt hlen, h⟩
    · exact .inr ⟨stream, by simp, .inl ⟨_, if_pos hb⟩⟩

theorem sync_text_length {reply stream reply' rest : List Byte}
    (h : sync reply stream = .text reply' rest) : rest.length < stream.length := by
  rcases sync_cases reply stream with h' | ⟨rest', hlen, ⟨reply'', h'⟩ | h'⟩
  · cases h.symm.trans h'
  · cases h.symm.trans h'
    exact hlen
  · cases h.symm.trans h'

theorem held_of_ne (reply : List Byte) {b : Byte} (h : b ≠ 0xFF) : held (reply ++ [b]) = [] := by
  simp only [held, List.getLast?_append, List.getLast?_singleton, Option.some_or, Option.some.injEq]
  rw [if_neg h]

/-- Looking at marker-free text in front of a marker takes something off the text
    and does not reach into the marker. -/
theorem syncHead_text {g r : List Byte} (hg : Free marker g) (hne : g ≠ []) :
    ∃ reply rest g', syncHead (g ++ (marker ++ r)) = .text reply rest ∧
      held reply ++ rest = g' ++ (marker ++ r) ∧ Free marker g' := by
  obtain ⟨a, g, rfl⟩ := List.exists_cons_of_ne_nil hne
  by_cases ha : a = 0xFF
  swap
  · exact ⟨[a], g ++ (marker ++ r), g, if_pos ha, congrArg (· ++ _) (held_of_ne [] ha),
      hg.of_cons⟩
  subst ha
  cases g with
  | nil =>
    -- `FF` directly before the marker is kept and turns out to be noise
    exact ⟨[0xFF, 0xFF], [0x55, 0xAA] ++ r, [], rfl, rfl, hg.of_cons⟩
  | cons b g =>
    by_cases hb : b = 0x55
    swap
    · by_cases hff : b = 0xFF
      · subst hff
        exact ⟨[0xFF, 0xFF], g ++ (marker ++ r), 0xFF :: g, rfl, rfl, hg.of_cons⟩
      · exact ⟨[0xFF, b], g ++ (marker ++ r), g, if_pos hb,
          congrArg (· ++ _) (held_of_ne [0xFF] hff), hg.of_cons.of_cons⟩
    subst hb
    cases g with
    | nil => exact ⟨[0xFF, 0x55, 0xFF], [0x55, 0xAA] ++ r, [], rfl, rfl, by decide⟩
    | cons c g =>
      have hc : c ≠ 0xAA := by
        rintro rfl
        exact hg.not_prefix (List.prefix_append marker g)
      by_cases hff : c = 0xFF
      · subst hff
        exact ⟨[0xFF, 0x55, 0xFF], g ++ (marker ++ r), 0xFF :: g, rfl, rfl, hg.of_cons.of_cons⟩
      · exact ⟨[0xFF, 0x55, c], g ++ (marker ++ r), g, if_pos hc,
          congrArg (· ++ _) (held_of_ne [0xFF, 0x55] hff), hg.of_cons.of_cons.of_cons⟩

theorem length_held_le (reply : List Byte) : (held reply).length ≤ 1 := by
  unfold held
  split <;> simp

/-- The text in front of a frame is shown, and the frame is found. -/
theorem replyLoop_text (features cmd : Nat) {r : List Byte} (fuel : Nat) :
    ∀ g reply stream log, Free marker g → held reply ++ stream = g ++ (marker ++ r) →
      stream.length < fuel →
      ∃ n reply' stream' ttys, r.length < n ∧ sync reply' stream' = .found r ∧
        (∀ a ∈ ttys, ∃ s, a = Action.tty s) ∧
        replyLoop features cmd fuel reply stream log =
          replyLoop features cmd (n + 1) reply' stream' (log ++ ttys) := by
  induction fuel with
  | zero =>
    intro g reply stream log _ _ hfuel
    exact absurd hfuel (Nat.not_lt_zero _)
  | succ fuel ih =>
    intro g reply stream log hg hall hfuel
    have hlen := congrArg List.length hall
    simp only [List.length_append] at hlen
    have hheld := length_held_le reply
    by_cases hne : g = []
    · subst hne
      refine ⟨fuel, reply, stream, [], ?_, ?_, by simp, by rw [List.append_nil]⟩
      · simp only [marker, List.length_cons, List.length_nil] at hlen
        omega
      · rw [sync_eq, hall]
        rfl
    · obtain ⟨reply', rest, g', hsync, hall', hg'⟩ := syncHead_text (r := r) hg hne
      rw [← hall, ← sync_eq] at hsync
      have hstream := sync_text_length hsync
      obtain ⟨n, reply'', stream', ttys, hn, hfound, htty, heq⟩ :=
        ih g' reply' rest (log ++ [.tty reply']) hg' hall' (by omega)
      refine ⟨n, reply'', stream', .tty reply' :: ttys, hn, hfound, ?_, ?_⟩
      · intro a ha
        rcases List.mem_cons.mp ha with rfl | ha
        · exact ⟨_, rfl⟩
        · exact htty a ha
      · rw [List.append_assoc] at heq
        rw [replyLoop, pass, hsync]
        exact heq

/-! ### The fuel is enough -/

/-- An ending of a pass that is not for lack of fuel and leaves at most `k` bytes. -/
def Ends (k : Nat) : Except Error Pass → Prop
  | .error e => e ≠ .outOfFuel
  | .ok (.again _ rest _) => rest.length ≤ k
  | .ok (.returned _ rest) => rest.length ≤ k

section

variable {k : Nat} {stream : List Byte}

theorem ends_readfull {n : Nat} {f : List Byte × List Byte → Except Error Pass}
    (hk : stream.length ≤ k) (h : ∀ bs rest, rest.length ≤ k → Ends k (f (bs, rest))) :
    Ends k (readfull n stream >>= f) := by
  unfold readfull
  split
  · exact nofun
  · exact h _ _ (by rw [List.length_drop]; omega)

theorem eventFrame_ends (features : Nat) (reply : List Byte) (hk : stream.length ≤ k) :
    Ends k (eventFrame features reply stream) := by
  unfold eventFrame
  refine ends_readfull hk fun hdr rest hrest => ends_readfull hrest fun body rest' hrest' => ?_
  dsimp only
  split
  · exact nofun
  split
  · exact nofun
  · exact hrest'

theorem replyFrame_ends (cmd cmdin : Nat) (reply : List Byte) (hk : stream.length ≤ k) :
    Ends k (replyFrame cmd cmdin reply stream) := by
  unfold replyFrame
  refine ends_readfull hk fun body rest hrest => ?_
  dsimp only
  split
  · exact nofun
  split
  · split
    · unfold handleBoot
      split
      · exact nofun
      split
      · exact nofun
      · exact hrest
    · exact nofun
  split
  · exact nofun
  · exact hrest

theorem frame_ends (features cmd : Nat) (stream : List Byte) :
    Ends stream.length (frame features cmd stream) := by
  unfold frame
  refine ends_readfull le_rfl fun t rest hrest => ?_
  dsimp only
  split
  · exact eventFrame_ends _ _ hrest
  · exact replyFrame_ends _ _ _ hrest

end

theorem replyLoop_ne_outOfFuel (features cmd fuel : Nat) :
    ∀ reply stream log, stream.length < fuel →
      (replyLoop features cmd fuel reply stream log).result ≠ .error .outOfFuel := by
  induction fuel with
  | zero =>
    intro reply stream log h
    exact absurd h (Nat.not_lt_zero _)
  | succ fuel ih =>
    intro reply stream log hfuel
    rw [replyLoop, pass]
    rcases sync_cases reply stream with hsync | ⟨rest, hlen, ⟨reply', hsync⟩ | hsync⟩ <;> rw [hsync]
    · exact nofun
    · exact ih _ _ _ (by omega)
    have hends := frame_ends features cmd rest
    dsimp only
    cases hframe : frame features cmd rest with
    | error e =>
      rw [hframe] at hends
      intro heq
      cases heq
      exact hends rfl
    | ok p =>
      rw [hframe] at hends
      cases p with
      | again reply' rest' a => exact ih _ _ _ (by simp only [Ends] at hends; omega)
      | returned data rest' => exact nofun

/-- `reply` returns or raises on every stream. -/
theorem reply_ne_outOfFuel (features cmd : Nat) (stream : List Byte) :
    (reply features cmd stream).result ≠ .error .outOfFuel :=
  replyLoop_ne_outOfFuel features cmd _ _ _ _ (Nat.lt_succ_self _)

/-! ### Frames -/

theorem readfull_append {n : Nat} {bs rest : List Byte} (h : bs.length = n) :
    readfull n (bs ++ rest) = .ok (bs, rest) := by
  have hlen : ¬ (bs ++ rest).length < n := by
    rw [List.length_append]
    omega
  rw [readfull, if_neg hlen, List.take_left' h, List.drop_left' h]

/-- A reply frame is accepted, and its status and data are what the device put in. -/
theorem replyFrame_bytes (cmd cmdin : Nat) (r : UartReply) (rest : List Byte) :
    replyFrame cmd cmdin (leWord r.type)
        (leWord r.status ++ r.body.bytes ++ leWord (MiniHaywire.checksum r.covered) ++ rest) =
      if cmdin ≠ cmd then
        if cmdin = 0x04AA55FF ∧ r.status.toInt = 0 then do
          let a ← handleBoot r.body.bytes
          .ok (.again [] rest a)
        else .error (.uartCMDError cmd cmdin)
      else if r.status.toInt ≠ 0 then .error (.uartRemoteError r.status.toInt)
      else .ok (.returned r.body.bytes rest) := by
  have hread : readfull (REPLY_LEN - 4)
      (leWord r.status ++ r.body.bytes ++ leWord (MiniHaywire.checksum r.covered) ++ rest) =
      .ok (leWord r.status ++ r.body.bytes ++ leWord (MiniHaywire.checksum r.covered), rest) :=
    readfull_append (by simp [REPLY_LEN])
  have hbytes : leWord r.type ++ (leWord r.status ++ r.body.bytes ++
      leWord (MiniHaywire.checksum r.covered)) = r.bytes := by
    simp only [UartReply.bytes, UartReply.covered, List.append_assoc]
  have hstatus : BitVec.ofNat 32 (field r.bytes 4 4) = r.status := by
    have h := ofNat_field_leWord (w := 32) rfl (leWord r.type)
      (r.body.bytes ++ leWord (MiniHaywire.checksum r.covered)) r.status
    rw [length_leWord] at h
    simp only [UartReply.bytes, UartReply.covered, List.append_assoc] at h ⊢
    exact h
  have hdata : (r.bytes.drop 8).take 24 = r.body.bytes := by
    simp only [UartReply.bytes, UartReply.covered]
    rw [List.append_assoc, List.drop_left' (by simp), List.take_left' (by simp)]
  have hsum : field r.bytes 32 4 = checksum (r.bytes.take (r.bytes.length - 4)) := by
    have h := field_leWord (w := 32) rfl r.covered [] (MiniHaywire.checksum r.covered)
    rw [r.length_covered, List.append_nil] at h
    rw [r.length_bytes, UartReply.bytes, List.take_left' r.length_covered, checksum_eq]
    exact h
  unfold replyFrame
  rw [hread]
  simp only [bind, Except.bind]
  rw [hbytes, hstatus, hdata, hsum, if_neg (not_not.mpr rfl)]

theorem EventId.ofNat?_code (id : EventId) : EventId.ofNat? id.code.toNat = some id := by
  cases id <;> rfl

theorem eventFrame_bytes {features : Nat} {dis : Bool} (hdis : csumsDisabled features = dis)
    (id : EventId) {data : List Byte} (hdata : data.length < 2 ^ 16) (rest : List Byte) :
    eventFrame features (leWord REQ_EVENT)
        (leWord (BitVec.ofNat 16 data.length) ++ leWord id.code ++ (data ++
          leWord (MiniHaywire.dataChecksum dis
            (eventHdr id.code (BitVec.ofNat 16 data.length) ++ data)) ++ rest)) =
      .ok (.again [] rest (.event id data)) := by
  have hlen : (BitVec.ofNat 16 data.length).toNat = data.length := by
    rw [BitVec.toNat_ofNat, Nat.mod_eq_of_lt hdata]
  have hread : ∀ tail, readfull (EVENT_HDR_LEN - 4)
      (leWord (BitVec.ofNat 16 data.length) ++ leWord id.code ++ tail) =
      .ok (leWord (BitVec.ofNat 16 data.length) ++ leWord id.code, tail) :=
    fun tail => readfull_append (by simp [EVENT_HDR_LEN])
  have hhdr : leWord REQ_EVENT ++ (leWord (BitVec.ofNat 16 data.length) ++ leWord id.code) =
      eventHdr id.code (BitVec.ofNat 16 data.length) := (List.append_assoc ..).symm
  have hsize : field (eventHdr id.code (BitVec.ofNat 16 data.length)) 4 2 = data.length := by
    have h := field_leWord (w := 16) rfl (leWord REQ_EVENT) (leWord id.code)
      (BitVec.ofNat 16 data.length)
    rw [hhdr, hlen] at h
    exact h
  have htype : field (eventHdr id.code (BitVec.ofNat 16 data.length)) 6 2 = id.code.toNat := by
    have h := field_leWord (w := 16) rfl
      (leWord REQ_EVENT ++ leWord (BitVec.ofNat 16 data.length)) [] id.code
    rw [List.append_nil] at h
    exact h
  generalize hcsum : MiniHaywire.dataChecksum dis
    (eventHdr id.code (BitVec.ofNat 16 data.length) ++ data) = csum
  have hread' : readfull (data.length + 4) (data ++ leWord csum ++ rest) =
      .ok (data ++ leWord csum, rest) := readfull_append (by simp)
  have hcover : (eventHdr id.code (BitVec.ofNat 16 data.length) ++ data).length =
      (eventHdr id.code (BitVec.ofNat 16 data.length) ++ (data ++ leWord csum)).length - 4 := by
    simp only [List.length_append, length_leWord]
    omega
  have htake : (eventHdr id.code (BitVec.ofNat 16 data.length) ++ (data ++ leWord csum)).take
      ((eventHdr id.code (BitVec.ofNat 16 data.length) ++ (data ++ leWord csum)).length - 4) =
      eventHdr id.code (BitVec.ofNat 16 data.length) ++ data := by
    rw [← hcover, ← List.append_assoc]
    exact List.take_left' rfl
  have hfield : field (eventHdr id.code (BitVec.ofNat 16 data.length) ++ (data ++ leWord csum))
      ((eventHdr id.code (BitVec.ofNat 16 data.length) ++ (data ++ leWord csum)).length - 4) 4 =
      csum.toNat := by
    have h := field_leWord (w := 32) rfl
      (eventHdr id.code (BitVec.ofNat 16 data.length) ++ data) [] csum
    rw [← hcover, ← List.append_assoc]
    rw [List.append_nil] at h
    exact h
  unfold eventFrame
  rw [hread]
  simp only [bind, Except.bind]
  rw [hhdr, hsize, htype, hread']
  dsimp only
  rw [htake, hfield, dataChecksum_eq, hdis, hcsum, if_neg (not_not.mpr rfl), EventId.ofNat?_code]
  dsimp only
  rw [List.drop_left' (by simp [EVENT_HDR_LEN])]

theorem toInt_ST_OK : ST_OK.toInt = 0 := by decide

theorem frame_cons (features cmd : Nat) (t : Byte) (l : List Byte) :
    frame features cmd ([t] ++ l) =
      if (typeWord t).toNat = 0x05AA55FF then eventFrame features (leWord (typeWord t)) l
      else replyFrame cmd (typeWord t).toNat (leWord (typeWord t)) l := by
  have hread : readfull 1 ([t] ++ l) = .ok ([t], l) := readfull_append rfl
  have hcode : leNat (marker ++ [t]) = (typeWord t).toNat := by
    rw [← leWord_typeWord, leNat_leWord rfl]
  unfold frame
  rw [hread]
  simp only [bind, Except.bind]
  rw [hcode, leWord_typeWord]

theorem frame_reply (features cmd : Nat) {t : Byte} (ht : t ≠ 5) (status : U32) (body : ReplyUnion)
    (rest : List Byte) :
    frame features cmd (((UartReply.mk (typeWord t) status body).bytes ++ rest).drop 3) =
      replyFrame cmd (typeWord t).toNat (leWord (typeWord t))
        (leWord status ++ body.bytes ++
          leWord (MiniHaywire.checksum (UartReply.mk (typeWord t) status body).covered) ++
            rest) := by
  have hdrop : ((UartReply.mk (typeWord t) status body).bytes ++ rest).drop 3 =
      [t] ++ (leWord status ++ body.bytes ++
        leWord (MiniHaywire.checksum (UartReply.mk (typeWord t) status body).covered) ++ rest) := by
    simp only [UartReply.bytes, UartReply.covered, leWord_typeWord, marker, List.append_assoc]
    rfl
  have hevent : (typeWord t).toNat ≠ 0x05AA55FF := by
    intro h
    exact ht (typeWord_injective (BitVec.eq_of_toNat_eq (h.trans (by decide))))
  rw [hdrop, frame_cons, if_neg hevent]

theorem frame_event {features : Nat} {dis : Bool} (hdis : csumsDisabled features = dis) (cmd : Nat)
    (id : EventId) {data : List Byte} (hdata : data.length < 2 ^ 16) (rest : List Byte) :
    frame features cmd ((uartproxySendEvent dis id.code data ++ rest).drop 3) =
      .ok (.again [] rest (.event id data)) := by
  have hdrop : (uartproxySendEvent dis id.code data ++ rest).drop 3 =
      [5] ++ (leWord (BitVec.ofNat 16 data.length) ++ leWord id.code ++ (data ++
          leWord (MiniHaywire.dataChecksum dis
            (eventHdr id.code (BitVec.ofNat 16 data.length) ++ data)) ++ rest)) := by
    rw [uartproxySendEvent_eq]
    generalize MiniHaywire.dataChecksum dis
      (eventHdr id.code (BitVec.ofNat 16 data.length) ++ data) = csum
    simp only [eventHdr, List.append_assoc]
    rfl
  have htype : typeWord 5 = REQ_EVENT := by decide
  rw [hdrop, frame_cons, htype, if_pos (by decide)]
  exact eventFrame_bytes hdis id hdata rest

/-! ### Whole streams -/

/-- The boot notifications the host has names for. -/
def bootAction (m : MsgStart) : Option Action :=
  match Start.ofNat? m.reason.toNat with
  | none => none
  | some reason =>
      if (reason = .EXCEPTION ∨ reason = .EXCEPTION_LOWER) ∧ ¬ isExc m.code.toNat then none
      else some (.boot reason m.code.toNat (leNat (leWord m.info ++ leWord m.reserved)))

theorem handleBoot_start {m : MsgStart} {a : Action} (h : bootAction m = some a) :
    handleBoot (ReplyUnion.start m).bytes = .ok a := by
  have hbytes : (ReplyUnion.start m).bytes = leWord m.reason ++ (leWord m.code ++
      (leWord m.info ++ leWord m.reserved ++ List.replicate 8 0)) := by
    simp [ReplyUnion.bytes, ljust]
  have hreason : field (ReplyUnion.start m).bytes 0 4 = m.reason.toNat := by
    rw [hbytes]
    exact field_leWord (w := 32) rfl [] _ m.reason
  have hcode : field (ReplyUnion.start m).bytes 4 4 = m.code.toNat := by
    rw [hbytes]
    exact field_leWord (w := 32) rfl (leWord m.reason) _ m.code
  have hinfo : field (ReplyUnion.start m).bytes 8 8 =
      leNat (leWord m.info ++ leWord m.reserved) := by
    rw [hbytes, field, ← List.append_assoc, List.drop_left' (by simp), List.take_left' (by simp)]
  unfold bootAction at h
  unfold handleBoot
  rw [hreason, hcode, hinfo]
  cases hstart : Start.ofNat? m.reason.toNat with
  | none =>
    rw [hstart] at h
    cases h
  | some reason =>
    rw [hstart] at h
    dsimp only at h ⊢
    by_cases hexc : (reason = .EXCEPTION ∨ reason = .EXCEPTION_LOWER) ∧ ¬ isExc m.code.toNat
    · rw [if_pos hexc] at h
      cases h
    · rw [if_neg hexc] at h ⊢
      cases h
      rfl

/-- What the device sends before the reply: event frames and boot notifications,
    with console text between them.  The first argument is what the host is to
    dispatch. -/
inductive DeviceStream (dis : Bool) : List Action → List Byte → Prop
  | text {g : List Byte} (hg : Free marker g) : DeviceStream dis [] g
  | event {g rest data : List Byte} {acts : List Action} (hg : Free marker g) (id : EventId)
      (hdata : data.length < 2 ^ 16) (h : DeviceStream dis acts rest) :
      DeviceStream dis (.event id data :: acts)
        (g ++ (uartproxySendEvent dis id.code data ++ rest))
  | boot {g rest : List Byte} {acts : List Action} {m : MsgStart} {a : Action}
      (hg : Free marker g) (hm : bootAction m = some a) (h : DeviceStream dis acts rest) :
      DeviceStream dis (a :: acts) (g ++ ((UartReply.mk REQ_BOOT ST_OK (.start m)).bytes ++ rest))

/-- The handler calls of a log, without the text. -/
def dispatched (log : List Action) : List Action :=
  log.filter fun
    | .tty _ => false
    | _ => true

theorem dispatched_append (log log' : List Action) :
    dispatched (log ++ log') = dispatched log ++ dispatched log' := List.filter_append ..

theorem dispatched_ttys {ttys : List Action} (h : ∀ a ∈ ttys, ∃ s, a = Action.tty s) :
    dispatched ttys = [] := by
  apply List.filter_eq_nil_iff.mpr
  intro a ha
  obtain ⟨s, rfl⟩ := h a ha
  simp

theorem replyLoop_again {features cmd fuel : Nat} {g r rest : List Byte} {a : Action}
    (hg : Free marker g) (hframe : frame features cmd r = .ok (.again [] rest a))
    (hrest : rest.length ≤ r.length) (hfuel : (g ++ (marker ++ r)).length < fuel)
    (log : List Action) :
    ∃ n ttys, rest.length < n ∧ dispatched ttys = [] ∧
      replyLoop features cmd fuel [] (g ++ (marker ++ r)) log =
        replyLoop features cmd n [] rest (log ++ (ttys ++ [a])) := by
  obtain ⟨n, reply, stream, ttys, hn, hfound, htty, heq⟩ :=
    replyLoop_text features cmd fuel g [] (g ++ (marker ++ r)) log hg rfl hfuel
  refine ⟨n, ttys, by omega, dispatched_ttys htty, ?_⟩
  rw [heq, replyLoop, pass, hfound]
  dsimp only
  rw [hframe, ← List.append_assoc]

theorem marker_append_drop_bytes (t : Byte) (status : U32) (body : ReplyUnion) (rest : List Byte) :
    (UartReply.mk (typeWord t) status body).bytes ++ rest =
      marker ++ ((UartReply.mk (typeWord t) status body).bytes ++ rest).drop 3 := by
  simp only [UartReply.bytes, UartReply.covered, leWord_typeWord, marker, List.append_assoc]
  rfl

theorem marker_append_drop_event (dis : Bool) (eventType : U16) (data rest : List Byte) :
    uartproxySendEvent dis eventType data ++ rest =
      marker ++ (uartproxySendEvent dis eventType data ++ rest).drop 3 := by
  rw [uartproxySendEvent_eq]
  generalize MiniHaywire.dataChecksum dis
    (eventHdr eventType (BitVec.ofNat 16 data.length) ++ data) = csum
  simp only [eventHdr, List.append_assoc]
  rfl

theorem dispatched_boot {m : MsgStart} {a : Action} (h : bootAction m = some a) :
    dispatched [a] = [a] := by
  unfold bootAction at h
  split at h
  · cases h
  split at h
  · cases h
  · cases h
    rfl

theorem frame_boot {features cmd : Nat} {m : MsgStart} {a : Action} (hm : bootAction m = some a)
    (hcmd : REQ_BOOT.toNat ≠ cmd) (rest : List Byte) :
    frame features cmd (((UartReply.mk (typeWord 4) ST_OK (.start m)).bytes ++ rest).drop 3) =
      .ok (.again [] rest a) := by
  have htype : (typeWord 4).toNat = REQ_BOOT.toNat := by decide
  rw [frame_reply features cmd (by decide)]
  have hbytes := replyFrame_bytes cmd (typeWord 4).toNat
    (UartReply.mk (typeWord 4) ST_OK (.start m)) rest
  rw [hbytes, if_pos (by rw [htype]; exact hcmd), if_pos ⟨htype, toInt_ST_OK⟩,
    handleBoot_start hm]
  rfl

theorem replyLoop_stream {features : Nat} {dis : Bool} (hdis : csumsDisabled features = dis)
    {t : Byte} (hboot : t ≠ 4) (hevent : t ≠ 5) (body : ReplyUnion) (after : List Byte)
    {acts : List Action} {l : List Byte} (h : DeviceStream dis acts l) :
    ∀ fuel log,
      (l ++ ((UartReply.mk (typeWord t) ST_OK body).bytes ++ after)).length < fuel →
      ∃ log', dispatched log' = acts ∧
        replyLoop features (typeWord t).toNat fuel []
          (l ++ ((UartReply.mk (typeWord t) ST_OK body).bytes ++ after)) log =
          ⟨.ok body.bytes, after, log ++ log'⟩ := by
  have hcmd : REQ_BOOT.toNat ≠ (typeWord t).toNat := by
    intro heq
    have htype : (typeWord 4).toNat = REQ_BOOT.toNat := by decide
    exact hboot (typeWord_injective (BitVec.eq_of_toNat_eq (htype.trans heq))).symm
  induction h with
  | @text g hg =>
    intro fuel log hfuel
    rw [marker_append_drop_bytes] at hfuel ⊢
    obtain ⟨n, reply, stream, ttys, -, hfound, htty, heq⟩ :=
      replyLoop_text features (typeWord t).toNat fuel g [] (g ++ (marker ++ _)) log hg rfl hfuel
    refine ⟨ttys, dispatched_ttys htty, ?_⟩
    have hbytes := replyFrame_bytes (typeWord t).toNat (typeWord t).toNat
      (UartReply.mk (typeWord t) ST_OK body) after
    rw [if_neg (not_not.mpr rfl), if_neg (not_not.mpr toInt_ST_OK)] at hbytes
    rw [heq, replyLoop, pass, hfound]
    dsimp only
    rw [frame_reply features _ hevent, hbytes]
  | @event g rest data acts hg id hdata h ih =>
    intro fuel log hfuel
    rw [List.append_assoc, List.append_assoc, marker_append_drop_event] at hfuel ⊢
    obtain ⟨n, ttys, hn, htty, heq⟩ := replyLoop_again hg
      (frame_event hdis (typeWord t).toNat id hdata _) (by simp [uartproxySendEvent]; omega)
      hfuel log
    obtain ⟨log', hlog', heq'⟩ := ih n (log ++ (ttys ++ [.event id data])) hn
    refine ⟨ttys ++ [.event id data] ++ log', ?_, ?_⟩
    · rw [dispatched_append, dispatched_append, htty, hlog']
      rfl
    · rw [heq, heq', List.append_assoc]
  | @boot g rest acts m a hg hm h ih =>
    intro fuel log hfuel
    have htype : REQ_BOOT = typeWord 4 := by decide
    rw [List.append_assoc, List.append_assoc, htype, marker_append_drop_bytes] at hfuel ⊢
    obtain ⟨n, ttys, hn, htty, heq⟩ := replyLoop_again hg
      (frame_boot hm hcmd _) (by simp; omega) hfuel log
    obtain ⟨log', hlog', heq'⟩ := ih n (log ++ (ttys ++ [a])) hn
    refine ⟨ttys ++ [a] ++ log', ?_, ?_⟩
    · rw [dispatched_append, dispatched_append, htty, hlog', dispatched_boot hm]
      rfl
    · rw [heq, heq', List.append_assoc]

theorem reply_stream {features : Nat} {dis : Bool} (hdis : csumsDisabled features = dis)
    {t : Byte} (hboot : t ≠ 4) (hevent : t ≠ 5) (body : ReplyUnion) (after : List Byte)
    {acts : List Action} {l : List Byte} (h : DeviceStream dis acts l) :
    ∃ log, dispatched log = acts ∧
      reply features (typeWord t).toNat
        (l ++ ((UartReply.mk (typeWord t) ST_OK body).bytes ++ after)) =
          ⟨.ok body.bytes, after, log⟩ :=
  replyLoop_stream hdis hboot hevent body after h _ [] (Nat.lt_succ_self _)

/-- **Host decoding.**  Whatever text, events and boot notifications come first,
    `reply` returns the data of the reply frame, stops right behind it, and has
    called the handlers once for each event and notification, in order. -/
theorem reply_decodes {features : Nat} {dis : Bool} (hdis : csumsDisabled features = dis)
    {t : Byte} (hboot : t ≠ 4) (hevent : t ≠ 5) (body : ReplyUnion) (after : List Byte)
    {acts : List Action} {l : List Byte} (h : DeviceStream dis acts l) :
    (reply features (typeWord t).toNat
        (l ++ ((UartReply.mk (typeWord t) ST_OK body).bytes ++ after))).result = .ok body.bytes ∧
      (reply features (typeWord t).toNat
        (l ++ ((UartReply.mk (typeWord t) ST_OK body).bytes ++ after))).rest = after ∧
      dispatched (reply features (typeWord t).toNat
        (l ++ ((UartReply.mk (typeWord t) ST_OK body).bytes ++ after))).log = acts := by
  obtain ⟨log, hlog, heq⟩ := reply_stream hdis hboot hevent body after h
  rw [heq]
  exact ⟨rfl, rfl, hlog⟩

/-- The notification `uartproxy_run(NULL)` sends is one with all fields zero. -/
example : ReplyUnion.zero.bytes = (ReplyUnion.start ⟨0, 0, 0, 0⟩).bytes := by decide

/-- Text that ends in half a marker, an event, a boot notification, then the reply. -/
theorem reply_decodes_mixed :
    dispatched (reply 0 (typeWord 1).toNat
      ([0x41, 0xFF, 0x55] ++ (uartproxySendEvent false EventId.IRQTRACE.code [0xFF, 0x55, 0xAA] ++
        ([0xFF] ++ ((UartReply.mk REQ_BOOT ST_OK (.start ⟨0, 0, 0, 0⟩)).bytes ++ [0x0A]))) ++
        ((UartReply.mk (typeWord 1) ST_OK (.preply ⟨0, 0, 7⟩)).bytes ++ [0x42]))).log =
      [.event .IRQTRACE [0xFF, 0x55, 0xAA], .boot .BOOT 0 0] :=
  (reply_decodes rfl (by decide) (by decide) (.preply ⟨0, 0, 7⟩) [0x42]
    (.event (by decide) .IRQTRACE (by decide)
      (.boot (g := [0xFF]) (by decide) (m := ⟨0, 0, 0, 0⟩) rfl (.text (by decide))))).2.2

/-- Where the decoding ends in an exception: two text chunks that are marker-free
    only one by one, a boot notification with a reason the host has no name for,
    a reply whose type word is that of an event, and one without a marker. -/
theorem reply_raises :
    (Free marker [0xFF, 0x55] ∧ Free marker (0xAA :: List.replicate 33 0x41) ∧
      (reply 0 REQ_NOP.toNat ([0xFF, 0x55] ++ (0xAA :: List.replicate 33 0x41) ++
        (UartReply.mk REQ_NOP ST_OK .zero).bytes)).result = .error .uartChecksumError) ∧
    (reply 0 REQ_NOP.toNat ((UartReply.mk REQ_BOOT ST_OK (.start ⟨7, 0, 0, 0⟩)).bytes ++
      (UartReply.mk REQ_NOP ST_OK .zero).bytes)).result = .error .valueError ∧
    (reply 0 REQ_EVENT.toNat (UartReply.mk REQ_EVENT ST_OK .zero).bytes).result =
      .error .uartChecksumError ∧
    (reply 0 0 (UartReply.mk 0 ST_OK .zero).bytes).result = .error .uartTimeout := by
  refine ⟨⟨by decide, by decide, ?_⟩, ?_, ?_, ?_⟩
  · decide +kernel
  · decide +kernel
  · decide +kernel
  · decide +kernel

end MiniHaywire.Host
