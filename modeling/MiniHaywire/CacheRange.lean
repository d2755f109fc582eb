import MiniHaywire.Bytes

/-!
# Cache maintenance over a range

`CACHE_RANGE_OP` of `memory.c` generates one loop for each of five maintenance
operations.  The loop starts at the address it is given, not at the line that
address lies in, and steps by the line size until it is past the end.  It issues
one operation per line it steps on (`rangeLoop_eq`); the line of the last byte is
missed when the start lies further into its line than the last byte does.
-/

namespace MiniHaywire.Memory

/-- The operands `c<crm>, <opc2>` of `mcr p15, 0, %0, c7, c<crm>, <opc2>`. -/
structure CacheOp where
  crm : Nat
  opc2 : Nat
deriving DecidableEq

def CACHE_LINE_SIZE : U64 := 64

/-- `while (p < end) { cacheop(op, p); p += CACHE_LINE_SIZE; }`: the operations issued, each
    with the address in its register, or `none` if the loop takes `fuel` rounds or more. -/
def rangeLoop (op : CacheOp) (stop : U64) : Nat → U64 → Option (List (CacheOp × U32))
  | 0, _ => none
  | fuel + 1, p =>
    if p < stop then
      -- the register is 32 bits wide
      (rangeLoop op stop fuel (p + CACHE_LINE_SIZE)).map ((op, p.setWidth 32) :: ·)
    else some []

/-- `CACHE_RANGE_OP(func, op)`.  The pointer is converted to `u64` without its sign, as the
    compiler of the build does. -/
def cacheRangeOp (op : CacheOp) (addr length : U32) (fuel : Nat) :
    Option (List (CacheOp × U32)) :=
  rangeLoop op (addr.setWidth 64 + length.setWidth 64) fuel (addr.setWidth 64)

def icIvauRange : U32 → U32 → Nat → Option (List (CacheOp × U32)) := cacheRangeOp ⟨5, 1⟩

def dcIvacRange : U32 → U32 → Nat → Option (List (CacheOp × U32)) := cacheRangeOp ⟨6, 1⟩

def dcCvacRange : U32 → U32 → Nat → Option (List (CacheOp × U32)) := cacheRangeOp ⟨10, 1⟩

def dcCvauRange : U32 → U32 → Nat → Option (List (CacheOp × U32)) := cacheRangeOp ⟨11, 1⟩

def dcCivacRange : U32 → U32 → Nat → Option (List (CacheOp × U32)) := cacheRangeOp ⟨14, 1⟩

/-- The five functions, each with the operation it is there for. -/
def rangeOps : List ((U32 → U32 → Nat → Option (List (CacheOp × U32))) × CacheOp) :=
  [(icIvauRange, ⟨5, 1⟩), (dcIvacRange, ⟨6, 1⟩), (dcCvacRange, ⟨10, 1⟩), (dcCvauRange, ⟨11, 1⟩),
    (dcCivacRange, ⟨14, 1⟩)]

/-! ### What is issued -/

def line (x : Nat) : Nat := x / CACHE_LINE_SIZE.toNat

/-- The line has a byte in `[addr, addr + length)`. -/
def Meets (addr length : U32) (l : Nat) : Prop :=
  ∃ x, addr.toNat ≤ x ∧ x < addr.toNat + length.toNat ∧ line x = l

/-- The operation, and no other, is issued in every line that meets the range and in no line
    that does not. -/
structure Covers (op : CacheOp) (addr length : U32) (issued : List (CacheOp × U32)) : Prop where
  only : ∀ i ∈ issued, i.1 = op
  every : ∀ l, Meets addr length l → ∃ i ∈ issued, line i.2.toNat = l
  inside : ∀ i ∈ issued, Meets addr length (line i.2.toNat)

/-- One operation per line size from `p` on, `n` of them. -/
def strided (op : CacheOp) (p n : Nat) : List (CacheOp × U32) :=
  (List.range n).map fun i => (op, BitVec.ofNat 32 (p + 64 * i))

theorem strided_succ (op : CacheOp) (p n : Nat) :
    strided op p (n + 1) = (op, BitVec.ofNat 32 p) :: strided op (p + 64) n := by
  rw [strided, List.range_succ_eq_map, List.map_cons, List.map_map, strided, Nat.mul_zero,
    Nat.add_zero]
  congr 1
  apply List.map_congr_left
  intro i _
  rw [Function.comp_apply, Nat.mul_succ, Nat.add_comm (64 * i), Nat.add_assoc]

/-- Below the end of the 32-bit addresses the loop makes as many rounds as there are line sizes
    in what is left, the last one begun included. -/
theorem rangeLoop_eq (op : CacheOp) {stop : U64} (hstop : stop.toNat ≤ 2 ^ 32) (fuel : Nat)
    (p : U64) :
    rangeLoop op stop fuel p =
      if (stop.toNat - p.toNat + 63) / 64 < fuel then
        some (strided op p.toNat ((stop.toNat - p.toNat + 63) / 64))
      else none := by
  induction fuel generalizing p with
  | zero => rfl
  | succ fuel ih =>
    rw [rangeLoop]
    by_cases hlt : p < stop
    · rw [if_pos hlt]
      rw [BitVec.lt_def] at hlt
      have hnext : (p + CACHE_LINE_SIZE).toNat = p.toNat + 64 := by
        rw [BitVec.toNat_add, show CACHE_LINE_SIZE.toNat = 64 from rfl]
        omega
      have hrounds : (stop.toNat - p.toNat + 63) / 64 =
          (stop.toNat - (p.toNat + 64) + 63) / 64 + 1 := by omega
      rw [ih, hnext, hrounds, strided_succ]
      have haddr : p.setWidth 32 = BitVec.ofNat 32 p.toNat := BitVec.eq_of_toNat_eq (by simp)
      split
      · rw [if_pos (by omega), haddr, Option.map_some]
      · rw [if_neg (by omega), Option.map_none]
    · have hrounds : (stop.toNat - p.toNat + 63) / 64 = 0 := by
        rw [BitVec.lt_def] at hlt
        omega
      rw [if_neg hlt, hrounds, if_pos (Nat.succ_pos fuel)]
      rfl

theorem cacheRangeOp_eq (op : CacheOp) {addr length : U32}
    (h : addr.toNat + length.toNat < 2 ^ 32) (fuel : Nat) :
    cacheRangeOp op addr length fuel =
      if (length.toNat + 63) / 64 < fuel then
        some (strided op addr.toNat ((length.toNat + 63) / 64))
      else none := by
  have hstop : (addr.setWidth 64 + length.setWidth 64 : U64).toNat =
      addr.toNat + length.toNat := by
    simp only [BitVec.toNat_add, BitVec.toNat_setWidth]
    omega
  have hstart : (addr.setWidth 64 : U64).toNat = addr.toNat := by
    simp only [BitVec.toNat_setWidth]
    omega
  rw [cacheRangeOp, rangeLoop_eq op (by omega), hstop, hstart, Nat.add_sub_cancel_left]

theorem mem_strided {op : CacheOp} {p n : Nat} (h : p + 64 * n ≤ 2 ^ 32 + 63) {i : CacheOp × U32}
    (hi : i ∈ strided op p n) : i.1 = op ∧ ∃ k < n, i.2.toNat = p + 64 * k := by
  obtain ⟨k, hk, rfl⟩ := List.mem_map.mp hi
  rw [List.mem_range] at hk
  refine ⟨rfl, k, hk, ?_⟩
  rw [BitVec.toNat_ofNat, Nat.mod_eq_of_lt]
  omega

/-- No line outside of the range is touched; all lines in it are if the first operation stands
    no further into its line than the last byte into its own. -/
theorem covers_strided_iff (op : CacheOp) {addr length : U32} (hpos : 0 < length.toNat)
    (h : addr.toNat + length.toNat < 2 ^ 32) :
    Covers op addr length (strided op addr.toNat ((length.toNat + 63) / 64)) ↔
      addr.toNat % 64 + (length.toNat - 1) % 64 < 64 := by
  have hmem : ∀ i ∈ strided op addr.toNat ((length.toNat + 63) / 64),
      i.1 = op ∧ ∃ k < (length.toNat + 63) / 64, i.2.toNat = addr.toNat + 64 * k :=
    fun i hi => mem_strided (by omega) hi
  constructor
  · intro hcov
    -- the line of the last byte
    have hlast : Meets addr length (line (addr.toNat + length.toNat - 1)) :=
      ⟨addr.toNat + length.toNat - 1, by omega, by omega, rfl⟩
    obtain ⟨i, hi, hline⟩ := hcov.every _ hlast
    obtain ⟨-, k, hk, haddr⟩ := hmem i hi
    rw [haddr] at hline
    simp only [line, show CACHE_LINE_SIZE.toNat = 64 from rfl] at hline
    omega
  · intro hres
    refine ⟨fun i hi => (hmem i hi).1, ?_, ?_⟩
    · rintro l ⟨x, hlo, hhi, rfl⟩
      simp only [line, show CACHE_LINE_SIZE.toNat = 64 from rfl]
      refine ⟨(op, BitVec.ofNat 32 (addr.toNat + 64 * (x / 64 - addr.toNat / 64))), ?_, ?_⟩
      · refine List.mem_map.mpr ⟨x / 64 - addr.toNat / 64, ?_, rfl⟩
        rw [List.mem_range]
        omega
      · rw [BitVec.toNat_ofNat, Nat.mod_eq_of_lt (by omega)]
        omega
    · intro i hi
      obtain ⟨-, k, hk, haddr⟩ := hmem i hi
      exact ⟨i.2.toNat, by omega, by omega, rfl⟩

/-- **Cache maintenance by range.** Each of the five functions returns, having issued its
    operation for exactly the lines that meet the range, if and only if the first address stands
    no further into its line than the last byte of a range that starts at a line would. -/
theorem range_op_covers_iff {f : U32 → U32 → Nat → Option (List (CacheOp × U32))} {op : CacheOp}
    (hf : (f, op) ∈ rangeOps) {addr length : U32} (hpos : 0 < length.toNat)
    (hlt : addr.toNat + length.toNat < 2 ^ 32) :
    (∃ fuel issued, f addr length fuel = some issued ∧ Covers op addr length issued) ↔
      addr.toNat % 64 + (length.toNat - 1) % 64 < 64 := by
  have hfun : f = cacheRangeOp op := by
    simp only [rangeOps, List.mem_cons, List.not_mem_nil, or_false, Prod.mk.injEq] at hf
    obtain ⟨rfl, rfl⟩ | ⟨rfl, rfl⟩ | ⟨rfl, rfl⟩ | ⟨rfl, rfl⟩ | ⟨rfl, rfl⟩ := hf <;> rfl
  subst hfun
  rw [← covers_strided_iff op hpos hlt]
  constructor
  · rintro ⟨fuel, issued, hrun, hcov⟩
    rw [cacheRangeOp_eq op hlt] at hrun
    split at hrun
    · rwa [Option.some.inj hrun]
    · contradiction
  · intro hcov
    exact ⟨(length.toNat + 63) / 64 + 1, _,
      (cacheRangeOp_eq op hlt _).trans (if_pos (Nat.lt_succ_self _)), hcov⟩

theorem range_op_covers_two_lines :
    ((dcCvacRange, ⟨10, 1⟩) ∈ rangeOps ∧ 0 < (128 : U32).toNat ∧
        (0x40 : U32).toNat + (128 : U32).toNat < 2 ^ 32) ∧
      ((∃ fuel issued, dcCvacRange 0x40 128 fuel = some issued ∧
          Covers ⟨10, 1⟩ 0x40 128 issued) ↔
        (0x40 : U32).toNat % 64 + ((128 : U32).toNat - 1) % 64 < 64) := by
  have hmem : (dcCvacRange, (⟨10, 1⟩ : CacheOp)) ∈ rangeOps := by simp [rangeOps]
  exact ⟨⟨hmem, by decide, by decide⟩, range_op_covers_iff hmem (by decide) (by decide)⟩

/-- Two bytes on both sides of a line boundary: one operation is issued, and the line of the
    second byte is left out. -/
theorem dcCvacRange_misses_line :
    dcCvacRange 63 2 2 = some [(⟨10, 1⟩, 63)] ∧ (63 : U32).toNat ≤ 64 ∧
      64 < (63 : U32).toNat + (2 : U32).toNat ∧ line (63 : U32).toNat ≠ line 64 := by
  decide

end MiniHaywire.Memory
