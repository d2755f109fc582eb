import MiniHaywire.Bytes
import MiniHaywire.Fifo

/-!
# The ring buffer

`ringbuffer.c`: a byte array with two indices that chase each other.  One slot
is given up so that equal indices mean an empty ring, and a ring of `len` bytes
holds at most `len - 1`.

`contents` reads the ring as the list of its bytes, oldest first.  A byte written
lands in the first slot outside of that list (`contents_put`), a byte read is the
head of it (`contents_get`), and from there the two loops follow the bounded
queue of `Fifo`.
-/

namespace MiniHaywire

/-- `ringbuffer_t`.  The bytes behind the `buffer` pointer, by their offset. -/
structure Ringbuffer where
  buffer : Mem 32
  len : U32
  read : U32
  write : U32

/-! ### The functions of `ringbuffer.c` -/

/-- `ringbuffer_alloc`, over what `calloc` does: the struct, then `len` bytes. -/
def ringbufferAlloc (calloc : Nat → Nat → Option (Mem 32)) (len : U32) : Option Ringbuffer := do
  let _ ← calloc 1 16
  let buffer ← calloc len.toNat 1
  some { buffer, len, read := 0, write := 0 }

/-- `ringbuffer_read`: at most `n` iterations.  The bytes are those stored through
    `target`; their number is the return value. -/
def ringbufferRead : Nat → Ringbuffer → List Byte × Ringbuffer
  | 0, r => ([], r)
  | n + 1, r =>
    if r.read = r.write then ([], r)
    else
      let b := r.buffer r.read
      let (bs, r) := ringbufferRead n { r with read := (r.read + 1) % r.len }
      (b :: bs, r)

/-- `ringbuffer_write` of the bytes at `src`: the number written. -/
def ringbufferWrite : List Byte → Ringbuffer → Nat × Ringbuffer
  | [], r => (0, r)
  | b :: src, r =>
    if (r.write + 1) % r.len = r.read then (0, r)
    else
      let (n, r) := ringbufferWrite src
        { r with
          buffer := Function.update r.buffer r.write b
          write := (r.write + 1) % r.len }
      (n + 1, r)

def ringbufferGetUsed (r : Ringbuffer) : U32 :=
  let write := if r.write < r.read then r.write + r.len else r.write
  write - r.read

/-- `ringbuffer_get_free`: the length less the bytes used, the spare slot included. -/
def ringbufferGetFree (r : Ringbuffer) : U32 := r.len - ringbufferGetUsed r

namespace Ringbuffer

/-! ### The bytes in the ring -/

structure Valid (r : Ringbuffer) : Prop where
  read_lt : r.read.toNat < r.len.toNat
  write_lt : r.write.toNat < r.len.toNat

/-- The index `i` slots after the read index. -/
def slot (r : Ringbuffer) (i : Nat) : Nat :=
  if r.read.toNat + i < r.len.toNat then r.read.toNat + i else r.read.toNat + i - r.len.toNat

/-- The number of bytes from the read index up to the write index. -/
def used (r : Ringbuffer) : Nat :=
  if r.write.toNat < r.read.toNat then r.write.toNat + r.len.toNat - r.read.toNat
  else r.write.toNat - r.read.toNat

def contents (r : Ringbuffer) : List Byte :=
  (List.range r.used).map fun i => r.buffer (BitVec.ofNat 32 (r.slot i))

def get (r : Ringbuffer) : Ringbuffer := { r with read := (r.read + 1) % r.len }

def put (r : Ringbuffer) (b : Byte) : Ringbuffer :=
  { r with
    buffer := Function.update r.buffer r.write b
    write := (r.write + 1) % r.len }

@[simp] theorem length_contents (r : Ringbuffer) : r.contents.length = r.used := by
  simp [contents]

theorem toNat_next {i len : U32} (h : i.toNat < len.toNat) :
    ((i + 1) % len).toNat = if i.toNat + 1 < len.toNat then i.toNat + 1 else 0 := by
  have hlen := len.isLt
  have hsucc : (i + 1).toNat = i.toNat + 1 := by
    rw [BitVec.toNat_add, show (1 : U32).toNat = 1 from rfl, Nat.mod_eq_of_lt (by omega)]
  rw [BitVec.toNat_umod, hsucc]
  split
  · exact Nat.mod_eq_of_lt (by assumption)
  · rw [show i.toNat + 1 = len.toNat by omega, Nat.mod_self]

theorem next_lt {i len : U32} (h : i.toNat < len.toNat) : ((i + 1) % len).toNat < len.toNat := by
  rw [toNat_next h]
  split <;> omega

namespace Valid

variable {r : Ringbuffer}

theorem get (hr : r.Valid) : r.get.Valid := ⟨next_lt hr.read_lt, hr.write_lt⟩

theorem put (hr : r.Valid) (b : Byte) : (r.put b).Valid := ⟨hr.read_lt, next_lt hr.write_lt⟩

theorem used_lt (hr : r.Valid) : r.used < r.len.toNat := by
  obtain ⟨hread, hwrite⟩ := hr
  unfold used
  split <;> omega

/-- `ringbuffer_get_used` adds the length in machine arithmetic; the subtraction
    undoes a wrap-around of that sum. -/
theorem getUsed (hr : r.Valid) : ringbufferGetUsed r = BitVec.ofNat 32 r.used := by
  obtain ⟨hread, hwrite⟩ := hr
  apply BitVec.eq_of_toNat_eq
  have hlen := r.len.isLt
  simp only [ringbufferGetUsed, used, BitVec.lt_def]
  split
  · rw [BitVec.toNat_sub, BitVec.toNat_add, BitVec.toNat_ofNat]
    omega
  · rw [BitVec.toNat_sub, BitVec.toNat_ofNat]
    omega

theorem toNat_getUsed (hr : r.Valid) : (ringbufferGetUsed r).toNat = r.used := by
  rw [hr.getUsed, BitVec.toNat_ofNat]
  exact Nat.mod_eq_of_lt (hr.used_lt.trans r.len.isLt)

theorem toNat_getFree (hr : r.Valid) : (ringbufferGetFree r).toNat = r.len.toNat - r.used := by
  have hused := hr.used_lt
  rw [ringbufferGetFree, BitVec.toNat_sub_of_le, hr.toNat_getUsed]
  rw [BitVec.le_def, hr.toNat_getUsed]
  omega

theorem read_eq_write_iff (hr : r.Valid) : r.read = r.write ↔ r.used = 0 := by
  obtain ⟨hread, hwrite⟩ := hr
  rw [BitVec.toNat_eq]
  unfold used
  split <;> omega

theorem next_write_eq_read_iff (hr : r.Valid) :
    (r.write + 1) % r.len = r.read ↔ r.used + 1 = r.len.toNat := by
  obtain ⟨hread, hwrite⟩ := hr
  rw [BitVec.toNat_eq, toNat_next hwrite]
  unfold used
  split <;> split <;> omega

theorem used_get (hr : r.Valid) (hne : r.used ≠ 0) : r.used = r.get.used + 1 := by
  obtain ⟨hread, hwrite⟩ := hr
  have hnext := toNat_next hread
  revert hne
  simp only [used, Ringbuffer.get, hnext]
  split_ifs <;> omega

theorem used_put (hr : r.Valid) (b : Byte) (hroom : r.used + 1 ≠ r.len.toNat) :
    (r.put b).used = r.used + 1 := by
  obtain ⟨hread, hwrite⟩ := hr
  have hnext := toNat_next hwrite
  revert hroom
  simp only [used, Ringbuffer.put, hnext]
  split_ifs <;> omega

theorem slot_get (hr : r.Valid) {i : Nat} (hi : i + 1 < r.len.toNat) :
    r.get.slot i = r.slot (i + 1) := by
  have hread := hr.read_lt
  have hnext := toNat_next hread
  simp only [slot, Ringbuffer.get, hnext]
  split_ifs <;> omega

theorem slot_used (hr : r.Valid) : r.slot r.used = r.write.toNat := by
  obtain ⟨hread, hwrite⟩ := hr
  simp only [slot, used]
  split_ifs <;> omega

theorem slot_ne_write (hr : r.Valid) {i : Nat} (hi : i < r.used) : r.slot i ≠ r.write.toNat := by
  obtain ⟨hread, hwrite⟩ := hr
  revert hi
  simp only [slot, used]
  split_ifs <;> omega

theorem slot_lt (hr : r.Valid) {i : Nat} (hi : i < r.len.toNat) : r.slot i < r.len.toNat := by
  have hread := hr.read_lt
  unfold slot
  split <;> omega

theorem contents_get (hr : r.Valid) (hne : r.used ≠ 0) :
    r.contents = r.buffer r.read :: r.get.contents := by
  have hzero : r.slot 0 = r.read.toNat := by simp [slot, hr.read_lt]
  simp only [contents]
  rw [hr.used_get hne, List.range_succ_eq_map, List.map_cons, hzero, BitVec.ofNat_toNat,
    BitVec.setWidth_eq, List.map_map]
  congr 1
  apply List.map_congr_left
  intro i hi
  have hlt : i + 1 < r.len.toNat := by
    have := hr.used_get hne
    have := hr.used_lt
    have := List.mem_range.mp hi
    omega
  rw [Function.comp_apply, hr.slot_get hlt]
  rfl

theorem contents_put (hr : r.Valid) (b : Byte) (hroom : r.used + 1 ≠ r.len.toNat) :
    (r.put b).contents = r.contents ++ [b] := by
  have hat : BitVec.ofNat 32 r.write.toNat = r.write := by simp
  simp only [contents]
  rw [hr.used_put b hroom, List.range_succ, List.map_append, List.map_singleton]
  congr 1
  · -- the slots in use are not written to
    apply List.map_congr_left
    intro i hi
    have hi := List.mem_range.mp hi
    have hslot := hr.slot_lt (hi.trans hr.used_lt)
    apply Function.update_of_ne
    intro heq
    apply hr.slot_ne_write hi
    rw [← heq, BitVec.toNat_ofNat]
    exact (Nat.mod_eq_of_lt (hslot.trans r.len.isLt)).symm
  · rw [show (r.put b).slot r.used = r.write.toNat from hr.slot_used, hat]
    simp [Ringbuffer.put]

end Valid

/-! ### The loops -/

theorem ringbufferRead_of_used {r : Ringbuffer} (hr : r.Valid) (hne : r.used ≠ 0) (n : Nat) :
    ringbufferRead (n + 1) r =
      (r.buffer r.read :: (ringbufferRead n r.get).1, (ringbufferRead n r.get).2) := by
  rw [ringbufferRead, if_neg (mt hr.read_eq_write_iff.mp hne)]
  rfl

theorem length_ringbufferRead_le (n : Nat) (r : Ringbuffer) :
    (ringbufferRead n r).1.length ≤ n := by
  induction n generalizing r with
  | zero => exact le_rfl
  | succ n ih =>
    rw [ringbufferRead]
    split
    · exact Nat.zero_le _
    · exact Nat.succ_le_succ (ih _)

theorem ringbufferRead_of_empty {r : Ringbuffer} (hr : r.Valid) (hempty : r.used = 0) (n : Nat) :
    ringbufferRead n r = ([], r) := by
  cases n with
  | zero => rfl
  | succ n => rw [ringbufferRead, if_pos (hr.read_eq_write_iff.mpr hempty)]

theorem ringbufferWrite_of_room {r : Ringbuffer} (hr : r.Valid)
    (hroom : r.used + 1 ≠ r.len.toNat) (b : Byte) (src : List Byte) :
    ringbufferWrite (b :: src) r =
      ((ringbufferWrite src (r.put b)).1 + 1, (ringbufferWrite src (r.put b)).2) := by
  rw [ringbufferWrite, if_neg (mt hr.next_write_eq_read_iff.mp hroom)]
  rfl

theorem ringbufferWrite_of_full {r : Ringbuffer} (hr : r.Valid)
    (hfull : r.used + 1 = r.len.toNat) (src : List Byte) : ringbufferWrite src r = (0, r) := by
  cases src with
  | nil => rfl
  | cons b src => rw [ringbufferWrite, if_pos (hr.next_write_eq_read_iff.mpr hfull)]

/-- The ring `r` of length `len` holds the bytes `q`. -/
structure Holds (r : Ringbuffer) (len : U32) (q : List Byte) : Prop where
  valid : r.Valid
  len_eq : r.len = len
  contents_eq : r.contents = q

namespace Holds

variable {r : Ringbuffer} {len : U32} {q : List Byte}

theorem used_eq (h : r.Holds len q) : r.used = q.length := by
  rw [← length_contents, h.contents_eq]

theorem length_lt (h : r.Holds len q) : q.length < len.toNat := by
  rw [← h.used_eq, ← h.len_eq]
  exact h.valid.used_lt

theorem read (h : r.Holds len q) (n : Nat) :
    (ringbufferRead n r).1 = q.take n ∧ (ringbufferRead n r).2.Holds len (q.drop n) := by
  induction n generalizing r q with
  | zero => exact ⟨rfl, h⟩
  | succ n ih =>
    cases q with
    | nil =>
      rw [ringbufferRead_of_empty h.valid h.used_eq]
      exact ⟨rfl, h⟩
    | cons b q =>
      have hne : r.used ≠ 0 := by
        rw [h.used_eq]
        exact Nat.succ_ne_zero _
      have hcontents := h.valid.contents_get hne
      rw [h.contents_eq] at hcontents
      injection hcontents with hb hq
      have hget : r.get.Holds len q := ⟨h.valid.get, h.len_eq, hq.symm⟩
      obtain ⟨hread, hrest⟩ := ih hget
      rw [ringbufferRead_of_used h.valid hne, hread, hb]
      exact ⟨rfl, hrest⟩

theorem write (h : r.Holds len q) (src : List Byte) :
    (ringbufferWrite src r).1 = min src.length (len.toNat - 1 - q.length) ∧
      (ringbufferWrite src r).2.Holds len
        (q ++ src.take (min src.length (len.toNat - 1 - q.length))) := by
  induction src generalizing r q with
  | nil => simpa [ringbufferWrite] using h
  | cons b src ih =>
    have hlt := h.length_lt
    have hused := h.used_eq
    by_cases hfull : r.used + 1 = r.len.toNat
    · have hnone : min (b :: src).length (len.toNat - 1 - q.length) = 0 := by
        rw [← h.len_eq]
        omega
      rw [ringbufferWrite_of_full h.valid hfull, hnone]
      simpa using h
    · have hput : (r.put b).Holds len (q ++ [b]) := by
        refine ⟨h.valid.put b, h.len_eq, ?_⟩
        rw [h.valid.contents_put b hfull, h.contents_eq]
      have hcount : min (b :: src).length (len.toNat - 1 - q.length) =
          min src.length (len.toNat - 1 - (q ++ [b]).length) + 1 := by
        rw [← h.len_eq] at hlt ⊢
        simp only [List.length_cons, List.length_append, List.length_nil]
        omega
      obtain ⟨hwritten, hrest⟩ := ih hput
      rw [ringbufferWrite_of_room h.valid hfull, hwritten, hcount]
      refine ⟨rfl, ?_⟩
      simpa using hrest

end Holds

theorem Holds.alloc {calloc : Nat → Nat → Option (Mem 32)} {len : U32} {r : Ringbuffer}
    (hlen : 1 ≤ len) (halloc : ringbufferAlloc calloc len = some r) : r.Holds len [] := by
  obtain ⟨_, _, buffer, _, hr⟩ : ∃ m, calloc 1 16 = some m ∧ ∃ buffer,
      calloc len.toNat 1 = some buffer ∧ some ⟨buffer, len, 0, 0⟩ = some r := by
    simpa [ringbufferAlloc, Option.bind_eq_some_iff] using halloc
  cases hr
  have hpos : (0 : U32).toNat < len.toNat := hlen
  exact ⟨⟨hpos, hpos⟩, rfl, rfl⟩

/-! ### Refinement of the bounded queue -/

def step : Fifo.Call Byte → Ringbuffer → Fifo.Reply Byte × Ringbuffer
  | .write src, r => (.wrote (ringbufferWrite src r).1, (ringbufferWrite src r).2)
  | .read n, r => (.got (ringbufferRead n r).1, (ringbufferRead n r).2)

theorem Holds.step {r : Ringbuffer} {len : U32} (c : Fifo.Call Byte)
    (q : Fifo Byte (len.toNat - 1)) (h : r.Holds len q.items) :
    (Ringbuffer.step c r).1 = (Fifo.step c q).1 ∧
      (Ringbuffer.step c r).2.Holds len (Fifo.step c q).2.items := by
  cases c with
  | write src =>
    obtain ⟨hwritten, hrest⟩ := h.write src
    exact ⟨congrArg Fifo.Reply.wrote hwritten, hrest⟩
  | read n =>
    obtain ⟨hread, hrest⟩ := h.read n
    have hmin : q.items.take n = q.items.take (min n q.items.length) := by
      rw [List.take_eq_take_min]
    have hdrop : q.items.drop n = q.items.drop (min n q.items.length) := by
      rw [List.drop_eq_drop_min]
    rw [hdrop] at hrest
    exact ⟨congrArg Fifo.Reply.got (hread.trans hmin), hrest⟩

/-- Over a run the ring holds what the queue holds. -/
theorem holds_run {calloc : Nat → Nat → Option (Mem 32)} {len : U32} {fresh : Ringbuffer}
    (hlen : 1 ≤ len) (halloc : ringbufferAlloc calloc len = some fresh)
    (calls : List (Fifo.Call Byte)) :
    (run step calls fresh).1 = (run Fifo.step calls (Fifo.empty (len.toNat - 1))).1 ∧
      (run step calls fresh).2.Holds len
        (run Fifo.step calls (Fifo.empty (len.toNat - 1))).2.items :=
  run_simulates
    (fun c r (q : Fifo Byte (len.toNat - 1)) (h : r.Holds len q.items) => Holds.step c q h)
    calls fresh (Fifo.empty (len.toNat - 1)) (Holds.alloc hlen halloc)

/-- A ring fresh from `ringbuffer_alloc` is a bounded queue of `len - 1` bytes: over any
    run of reads and writes it gives the queue's answers and holds the queue's bytes,
    whatever it is asked next it does as the queue would, and the bytes it accepted are
    those it gave back followed by those it holds. -/
theorem ringbuffer_refines_fifo {calloc : Nat → Nat → Option (Mem 32)} (len : U32)
    {fresh : Ringbuffer} (hlen : 1 ≤ len) (halloc : ringbufferAlloc calloc len = some fresh)
    (calls : List (Fifo.Call Byte)) :
    let replies := (run step calls fresh).1
    let r := (run step calls fresh).2
    let queue := run Fifo.step calls (Fifo.empty (len.toNat - 1))
    let q := queue.2.items
    replies = queue.1 ∧ r.contents = q ∧
      r.read < len ∧ r.write < len ∧ (ringbufferGetUsed r).toNat = q.length ∧
      (∀ src, (ringbufferWrite src r).1 = min src.length (len.toNat - 1 - q.length) ∧
        (ringbufferWrite src r).2.contents =
          q ++ src.take (min src.length (len.toNat - 1 - q.length))) ∧
      (∀ n, (ringbufferRead n r).1 = q.take (min n q.length) ∧
        (ringbufferRead n r).2.contents = q.drop (min n q.length)) ∧
      Fifo.accepted calls replies = Fifo.returned replies ++ q := by
  intro replies r queue q
  obtain ⟨hreplies, hr⟩ : replies = queue.1 ∧ r.Holds len q := holds_run hlen halloc calls
  have hread_lt := hr.valid.read_lt
  have hwrite_lt := hr.valid.write_lt
  rw [hr.len_eq] at hread_lt hwrite_lt
  refine ⟨hreplies, hr.contents_eq, hread_lt, hwrite_lt, ?_, ?_, ?_, ?_⟩
  · rw [hr.valid.toNat_getUsed, hr.used_eq]
  · intro src
    obtain ⟨hwritten, hrest⟩ := hr.write src
    exact ⟨hwritten, hrest.contents_eq⟩
  · intro n
    obtain ⟨hread, hrest⟩ := hr.read n
    rw [← List.take_eq_take_min, ← List.drop_eq_drop_min]
    exact ⟨hread, hrest.contents_eq⟩
  · rw [hreplies]
    exact Fifo.run_conserves calls (Fifo.empty (len.toNat - 1))

/-- A ring of four bytes holds three; the last write goes over the end of the buffer. -/
theorem ringbuffer_refines_fifo_four :
    (1 : U32) ≤ 4 ∧
      ringbufferAlloc (fun _ _ => some fun _ => 0) 4 = some ⟨fun _ => 0, 4, 0, 0⟩ ∧
      (run step [.write [1, 2, 3, 4, 5], .read 2, .write [6, 7], .read 9]
          ⟨fun _ => 0, 4, 0, 0⟩).1 =
        [.wrote 3, .got [1, 2], .wrote 2, .got [3, 6, 7]] :=
  ⟨by decide, rfl,
    (ringbuffer_refines_fifo 4 (by decide)
      (rfl : ringbufferAlloc (fun _ _ => some fun _ => 0) 4 = _) _).1.trans (by decide)⟩

/-! ### The room that is left -/

/-- `ringbuffer_get_free` counts the spare slot, which a write never fills. -/
theorem Holds.toNat_getFree {r : Ringbuffer} {len : U32} {q : List Byte} (h : r.Holds len q) :
    (ringbufferGetFree r).toNat = len.toNat - q.length := by
  rw [h.valid.toNat_getFree, h.len_eq, h.used_eq]

/-- After any run of reads and writes, `ringbuffer_get_free` tells whether a write will accept all
    of its bytes, unless these would just fill all slots of the ring: then it says yes, and the
    write comes one byte short. -/
theorem getFree_exact_iff {calloc : Nat → Nat → Option (Mem 32)} (len : U32) {fresh : Ringbuffer}
    (hlen : 1 ≤ len) (halloc : ringbufferAlloc calloc len = some fresh)
    (calls : List (Fifo.Call Byte)) (src : List Byte) :
    let r := (run step calls fresh).2
    ((ringbufferWrite src r).1 = src.length ↔ src.length ≤ (ringbufferGetFree r).toNat) ↔
      src.length ≠ len.toNat - r.contents.length := by
  intro r
  have hr := (holds_run hlen halloc calls).2
  have hlt := hr.length_lt
  rw [(hr.write src).1, hr.toNat_getFree, length_contents, hr.used_eq]
  omega

theorem getFree_exact_three :
    ((ringbufferWrite [1, 2, 3] ⟨fun _ => 0, 4, 0, 0⟩).1 = 3 ↔
      3 ≤ (ringbufferGetFree ⟨fun _ => 0, 4, 0, 0⟩).toNat) :=
  (getFree_exact_iff 4 (by decide) (rfl : ringbufferAlloc (fun _ _ => some fun _ => 0) 4 = _) []
    [1, 2, 3]).mpr (by decide)

/-- An empty ring of four bytes reports room for four and takes three. -/
theorem getFree_one_too_many :
    ringbufferAlloc (fun _ _ => some fun _ => 0) 4 = some ⟨fun _ => 0, 4, 0, 0⟩ ∧
      (ringbufferGetFree ⟨fun _ => 0, 4, 0, 0⟩).toNat = 4 ∧
      (ringbufferWrite [1, 2, 3, 4] ⟨fun _ => 0, 4, 0, 0⟩).1 = 3 :=
  ⟨rfl, by decide, by decide⟩

end Ringbuffer

end MiniHaywire
