import MiniHaywire.Kboot
import MiniHaywire.Stream

/-!
# The console log in memory

`log_console_iodev_write` of `kboot.c` keeps the end of the console text in a ring
of `LOGBUF_SIZE` bytes.  A text that does not fit behind `logbuf.wp` is written in
laps: the `while` loop fills the ring up to its end and starts over at its
beginning, and what is left at last goes behind it.

All bytes ever written are one stream.  The ring is a window on its end
(`Window`), and a slot that the stream has not come to is as it was found.
-/

namespace MiniHaywire.Kboot

def logbufSize : Nat := LOGBUF_SIZE.toNat

/-- `logbuf`: the buffer, once there is one, and the place of the next byte.  The bytes of the
    buffer are numbered from its start. -/
structure LogBuf where
  buffer : Option (Nat → Byte)
  wp : Nat

/-- The `while` loop of `log_console_iodev_write` and what stands behind it.  `none` if it takes
    `fuel` rounds or more. -/
def logLoop : Nat → (Nat → Byte) → Nat → Nat → List Byte → Nat → Option (Nat × LogBuf)
  | 0, _, _, _, _, _ => none
  | fuel + 1, buffer, wp, remain, buf, wrote =>
    if remain < buf.length then
      logLoop fuel (blit buffer wp (buf.take remain)) 0 logbufSize (buf.drop remain)
        (wrote + remain)
    else
      some (wrote + buf.length,
        { buffer := some (blit buffer wp buf)
          wp := (wp + buf.length) % logbufSize })

/-- `log_console_iodev_write`; `buf` are the `len` bytes at the pointer of that name. -/
def logConsoleIodevWrite (fuel : Nat) (buf : List Byte) (s : LogBuf) : Option (Nat × LogBuf) :=
  match s.buffer with
  | none => some (0, s)
  | some buffer => logLoop fuel buffer s.wp (logbufSize - s.wp) buf 0

/-- A sequence of writes: what each returned, and the state after the last one. -/
def logWrites (fuel : Nat) : List (List Byte) → LogBuf → Option (List Nat × LogBuf)
  | [], s => some ([], s)
  | buf :: bufs, s => do
    let (wrote, s) ← logConsoleIodevWrite fuel buf s
    let (rest, s) ← logWrites fuel bufs s
    pure (wrote :: rest, s)

/-! ### What the ring holds -/

/-- The ring after the stream was written over `before`: the last byte of every residue stands
    in its slot, and what no byte of the stream was written to is as before. -/
structure Holds (before mem : Nat → Byte) (stream : List Byte) : Prop where
  latest : ∀ p b, stream[p]? = some b →
    (∀ q, p < q → q < stream.length → q % logbufSize ≠ p % logbufSize) →
      mem (p % logbufSize) = b
  unchanged : ∀ i, (∀ p < stream.length, p % logbufSize ≠ i) → mem i = before i

/-- The same, position by position: a window on the end of the stream, and the slots behind its
    end on the first lap. -/
structure Logged (before mem : Nat → Byte) (stream : List Byte) : Prop where
  window : Window logbufSize mem stream 0
  ahead : ∀ i, stream.length ≤ i ∨ logbufSize ≤ i → mem i = before i

theorem logbufSize_pos : 0 < logbufSize := by decide

theorem Logged.nil (mem : Nat → Byte) : Logged mem mem [] :=
  ⟨Window.nil mem, fun _ _ => rfl⟩

theorem Logged.append {before mem : Nat → Byte} {stream : List Byte}
    (h : Logged before mem stream) (bs : List Byte)
    (hbs : stream.length % logbufSize + bs.length ≤ logbufSize) :
    Logged before (blit mem (stream.length % logbufSize) bs) (stream ++ bs) := by
  refine ⟨h.window.append hbs, ?_⟩
  intro i hi
  rw [List.length_append] at hi
  have hmod := Nat.mod_le stream.length logbufSize
  rw [blit_of_ge (by omega)]
  exact h.ahead i (by omega)

theorem Logged.holds {before mem : Nat → Byte} {stream : List Byte}
    (h : Logged before mem stream) : Holds before mem stream := by
  constructor
  · intro p b hp hlast
    apply h.window p b hp (Nat.zero_le p)
    -- one lap on, the same slot would be written again
    by_contra hlap
    have hagain := hlast (p + logbufSize) (Nat.lt_add_of_pos_right logbufSize_pos) (by omega)
    rw [Nat.add_mod_right] at hagain
    exact hagain rfl
  · intro i hnone
    apply h.ahead
    by_contra hin
    rw [not_or, Nat.not_le, Nat.not_le] at hin
    exact hnone i hin.1 (Nat.mod_eq_of_lt hin.2)

/-! ### The writes -/

/-- The loop writes the text behind the stream, however many laps that takes. -/
theorem logLoop_eq {before mem : Nat → Byte} {stream buf : List Byte} {fuel : Nat} (wrote : Nat)
    (h : Logged before mem stream) (hfuel : buf.length < fuel) :
    ∃ mem', logLoop fuel mem (stream.length % logbufSize)
        (logbufSize - stream.length % logbufSize) buf wrote =
          some (wrote + buf.length, ⟨some mem', (stream ++ buf).length % logbufSize⟩) ∧
      Logged before mem' (stream ++ buf) := by
  induction fuel generalizing mem stream buf wrote with
  | zero => exact absurd hfuel (Nat.not_lt_zero _)
  | succ fuel ih =>
    have hwp : stream.length % logbufSize < logbufSize := Nat.mod_lt _ logbufSize_pos
    rw [logLoop]
    by_cases hlap : logbufSize - stream.length % logbufSize < buf.length
    · -- the rest of the lap; the stream then ends at the end of the ring
      have htake : (buf.take (logbufSize - stream.length % logbufSize)).length =
          logbufSize - stream.length % logbufSize := List.length_take_of_le hlap.le
      have hfirst := h.append (buf.take (logbufSize - stream.length % logbufSize))
        (by rw [htake]; omega)
      have hend : (stream ++ buf.take (logbufSize - stream.length % logbufSize)).length %
          logbufSize = 0 := by
        rw [List.length_append, htake, ← Nat.mod_add_mod,
          Nat.add_sub_cancel' hwp.le, Nat.mod_self]
      have hrest : (buf.drop (logbufSize - stream.length % logbufSize)).length < fuel := by
        rw [List.length_drop]
        omega
      obtain ⟨mem', hrun, hlogged⟩ := ih (wrote + (logbufSize - stream.length % logbufSize))
        hfirst hrest
      rw [hend, Nat.sub_zero, List.append_assoc, List.take_append_drop, List.length_drop,
        Nat.add_assoc, Nat.add_sub_cancel' hlap.le] at hrun
      rw [List.append_assoc, List.take_append_drop] at hlogged
      refine ⟨mem', ?_, hlogged⟩
      rw [if_pos hlap]
      exact hrun
    · refine ⟨_, ?_, h.append buf (by omega)⟩
      rw [if_neg hlap, List.length_append, Nat.mod_add_mod]

theorem logWrites_eq {before mem : Nat → Byte} {fuel : Nat} (bufs : List (List Byte))
    (hfuel : ∀ buf ∈ bufs, buf.length < fuel) {stream : List Byte}
    (h : Logged before mem stream) :
    ∃ mem', logWrites fuel bufs ⟨some mem, stream.length % logbufSize⟩ =
        some (bufs.map List.length, ⟨some mem', (stream ++ bufs.flatten).length % logbufSize⟩) ∧
      Logged before mem' (stream ++ bufs.flatten) := by
  induction bufs generalizing mem stream with
  | nil =>
    refine ⟨mem, ?_, ?_⟩
    · rw [List.flatten_nil, List.append_nil]
      rfl
    · rwa [List.flatten_nil, List.append_nil]
  | cons buf bufs ih =>
    obtain ⟨mem₁, hwrite, hlogged₁⟩ := logLoop_eq 0 h (hfuel buf (by simp))
    obtain ⟨mem₂, hrest, hlogged₂⟩ := ih (fun b hb => hfuel b (List.mem_cons_of_mem _ hb)) hlogged₁
    rw [List.append_assoc, ← List.flatten_cons] at hrest hlogged₂
    refine ⟨mem₂, ?_, hlogged₂⟩
    rw [logWrites, logConsoleIodevWrite]
    dsimp only
    rw [hwrite, Option.bind_eq_bind, Option.bind_some]
    dsimp only
    rw [hrest, Nat.zero_add]
    rfl

theorem logWrites_null (fuel : Nat) (bufs : List (List Byte)) (wp : Nat) :
    logWrites fuel bufs ⟨none, wp⟩ = some (bufs.map fun _ => 0, ⟨none, wp⟩) := by
  induction bufs with
  | nil => rfl
  | cons buf bufs ih =>
    rw [logWrites, logConsoleIodevWrite]
    dsimp only
    rw [Option.bind_eq_bind, Option.bind_some]
    dsimp only
    rw [ih]
    rfl

/-- Every sequence of writes returns; once there is a buffer, each write returns its length,
    `logbuf.wp` is the number of bytes written so far modulo the size of the buffer, and every
    slot holds the last byte of the stream that falls on it.  Before there is one, the writes
    return zero and leave everything as it is. -/
theorem log_writes_hold_stream (bufs : List (List Byte)) {fuel : Nat}
    (hfuel : ∀ buf ∈ bufs, buf.length < fuel) (before : Nat → Byte) :
    (∃ mem wp, logWrites fuel bufs ⟨some before, 0⟩ =
        some (bufs.map List.length, ⟨some mem, wp⟩) ∧
      wp < 16384 ∧ wp = (bufs.map List.length).sum % 16384 ∧ Holds before mem bufs.flatten) ∧
    ∀ wp, logWrites fuel bufs ⟨none, wp⟩ = some (bufs.map fun _ => 0, ⟨none, wp⟩) := by
  refine ⟨?_, logWrites_null fuel bufs⟩
  obtain ⟨mem, hrun, hlogged⟩ := logWrites_eq bufs hfuel (Logged.nil before)
  refine ⟨mem, _, hrun, Nat.mod_lt _ logbufSize_pos, ?_, hlogged.holds⟩
  rw [List.nil_append, List.length_flatten]
  rfl

/-- A text of two laps and a bit, on top of a short one. -/
theorem log_writes_two_laps :
    (∀ buf ∈ [[1, 2, 3], List.replicate 32769 (7 : Byte)], buf.length < 32770) ∧
      ∃ mem wp, logWrites 32770 [[1, 2, 3], List.replicate 32769 7] ⟨some fun _ => 0, 0⟩ =
          some ([3, 32769], ⟨some mem, wp⟩) ∧
        wp < 16384 ∧ wp = 4 ∧
        Holds (fun _ => 0) mem ([1, 2, 3] ++ List.replicate 32769 7) := by
  have hfuel : ∀ buf ∈ [[1, 2, 3], List.replicate 32769 (7 : Byte)], buf.length < 32770 := by
    simp only [List.forall_mem_cons, List.length_replicate]
    exact ⟨by decide, by decide, List.forall_mem_nil _⟩
  have hlens : [[1, 2, 3], List.replicate 32769 (7 : Byte)].map List.length = [3, 32769] := by
    rw [List.map_cons, List.map_cons, List.map_nil, List.length_replicate]
    rfl
  obtain ⟨⟨mem, wp, hrun, hlt, hwp, hholds⟩, -⟩ := log_writes_hold_stream _ hfuel fun _ => 0
  rw [hlens] at hrun hwp
  refine ⟨hfuel, mem, wp, hrun, hlt, hwp.trans rfl, ?_⟩
  rwa [List.flatten_cons, List.flatten_cons, List.flatten_nil, List.append_nil] at hholds

end MiniHaywire.Kboot
