import MiniHaywire.Bytes
import MiniHaywire.Region

/-!
# Sized block copies

The four `memset<n>` and four `memcpy<n>` of `utils.c`.  Seven of them walk over
`size / (n / 8)` elements of their own width.  `memcpy8` counts bytes and moves
16-bit elements, so it moves twice as many bytes as it was asked to.

All eight are one loop over elements (`elements`).  What a loop leaves at an
address is the part of the one element that covers it (`elements_apply`), and for
a copy this says exactly when the loop comes to a copy of the first `n` bytes
(`copyElements_eq_copied_iff`), however many more it writes.
-/

namespace MiniHaywire.Utils

/-! ### The loops -/

/-- `for (i = 0; i < count; i++) buf[i] = …`, on elements of `w` bytes: the memory after
    `count` rounds. -/
def elements (w : Nat) (dst : U32) (elem : Nat → Mem 32 → List Byte) : Nat → Mem 32 → Mem 32
  | 0, m => m
  | i + 1, m =>
    let m := elements w dst elem i m
    m.store (dst + BitVec.ofNat 32 (w * i)) (elem i m)

def setElements (w : Nat) (dst : U32) (value : List Byte) (count : Nat) (m : Mem 32) : Mem 32 :=
  elements w dst (fun _ _ => value) count m

def copyElements (w : Nat) (dst src : U32) (count : Nat) (m : Mem 32) : Mem 32 :=
  elements w dst (fun i m => m.load (src + BitVec.ofNat 32 (w * i)) w) count m

def memset64 (dst : U32) (value : BitVec 64) (size : U32) (m : Mem 32) : Mem 32 :=
  setElements 8 dst (leWord value) (size / 8).toNat m

def memcpy64 (dst src size : U32) (m : Mem 32) : Mem 32 :=
  copyElements 8 dst src (size / 8).toNat m

def memset32 (dst : U32) (value : BitVec 32) (size : U32) (m : Mem 32) : Mem 32 :=
  setElements 4 dst (leWord value) (size / 4).toNat m

def memcpy32 (dst src size : U32) (m : Mem 32) : Mem 32 :=
  copyElements 4 dst src (size / 4).toNat m

def memset16 (dst : U32) (value : BitVec 16) (size : U32) (m : Mem 32) : Mem 32 :=
  setElements 2 dst (leWord value) (size / 2).toNat m

def memcpy16 (dst src size : U32) (m : Mem 32) : Mem 32 :=
  copyElements 2 dst src (size / 2).toNat m

def memset8 (dst : U32) (value : BitVec 8) (size : U32) (m : Mem 32) : Mem 32 :=
  setElements 1 dst (leWord value) size.toNat m

/-- The count is in bytes, but `buf` and `source` point to `u16`. -/
def memcpy8 (dst src size : U32) (m : Mem 32) : Mem 32 :=
  copyElements 2 dst src size.toNat m

/-! ### The family by its width -/

inductive Width where
  | w8
  | w16
  | w32
  | w64
deriving DecidableEq

namespace Width

def bytes : Width → Nat
  | w8 => 1
  | w16 => 2
  | w32 => 4
  | w64 => 8

def whole (n : Width) (size : U32) : Nat := size.toNat / n.bytes * n.bytes

def memset : (n : Width) → U32 → BitVec (8 * n.bytes) → U32 → Mem 32 → Mem 32
  | w8 => memset8
  | w16 => memset16
  | w32 => memset32
  | w64 => memset64

def memcpy : Width → U32 → U32 → U32 → Mem 32 → Mem 32
  | w8 => memcpy8
  | w16 => memcpy16
  | w32 => memcpy32
  | w64 => memcpy64

theorem bytes_pos (n : Width) : 0 < n.bytes := by
  cases n <;> decide

theorem whole_le (n : Width) (size : U32) : n.whole size ≤ size.toNat := Nat.div_mul_le_self _ _

end Width

/-! ### What the header promises -/

/-- The first `n` bytes behind `src` stand behind `dst`, and every other byte is as it was. -/
def copied (m : Mem 32) (dst src : U32) (n : Nat) : Mem 32 :=
  fun x => if (x - dst).toNat < n then m (src + (x - dst)) else m x

/-- The first `n` bytes behind `dst` are the bytes `value` over and over, and every other byte
    is as it was. -/
def filled (m : Mem 32) (dst : U32) (value : List Byte) (n : Nat) : Mem 32 :=
  fun x => if (x - dst).toNat < n then value.getD ((x - dst).toNat % value.length) 0 else m x

/-! ### What a loop leaves at an address -/

section Elements

variable {w : Nat} {dst : U32} {elem : Nat → Mem 32 → List Byte}

theorem elements_succ_apply (hw : ∀ i m, (elem i m).length = w) {i : Nat}
    (hi : w * (i + 1) ≤ 2 ^ 32) (m : Mem 32) (x : U32) :
    elements w dst elem (i + 1) m x =
      if w * i ≤ (x - dst).toNat ∧ (x - dst).toNat < w * (i + 1) then
        (elem i (elements w dst elem i m)).getD ((x - dst).toNat - w * i) 0
      else elements w dst elem i m x := by
  have hlt := (x - dst).isLt
  rw [Nat.mul_succ] at hi ⊢
  rw [elements, Mem.store_apply (by rw [hw]; omega), hw,
    Region.toNat_sub_add (show w * i ≤ 2 ^ 32 by omega)]
  by_cases hge : w * i ≤ (x - dst).toNat
  · rw [if_pos hge]
    apply if_congr _ rfl rfl
    omega
  · rw [if_neg hge, if_neg (by omega), if_neg (by omega)]

theorem elements_apply (hw : ∀ i m, (elem i m).length = w) {count : Nat}
    (hcount : w * count ≤ 2 ^ 32) (m : Mem 32) (x : U32) :
    elements w dst elem count m x =
      if (x - dst).toNat < w * count then
        (elem ((x - dst).toNat / w) (elements w dst elem ((x - dst).toNat / w) m)).getD
          ((x - dst).toNat % w) 0
      else m x := by
  induction count with
  | zero => simp [elements]
  | succ i ih =>
    rw [Nat.mul_succ] at hcount
    rw [elements_succ_apply hw (by rw [Nat.mul_succ]; omega), Nat.mul_succ, ih (by omega)]
    by_cases hround : w * i ≤ (x - dst).toNat ∧ (x - dst).toNat < w * i + w
    · -- the last round: the address lies in element `i`
      have hdiv : (x - dst).toNat / w = i :=
        Nat.div_eq_of_lt_le (by rw [Nat.mul_comm]; exact hround.1)
          (by rw [Nat.mul_comm, Nat.mul_succ]; exact hround.2)
      have hmod : (x - dst).toNat % w = (x - dst).toNat - w * i := by
        rw [Nat.mod_eq_sub_mul_div, hdiv]
      rw [if_pos hround, if_pos hround.2, hdiv, hmod]
    · rw [if_neg hround]
      apply if_congr _ rfl rfl
      omega

end Elements

section Copy

variable {w : Nat} {dst src : U32} {m : Mem 32}

/-- A byte of the copy is the byte that stood in its place behind `src` when its round came. -/
theorem copyElements_apply (hw : 0 < w) {count : Nat} (hcount : w * count ≤ 2 ^ 32) (m : Mem 32)
    (x : U32) :
    copyElements w dst src count m x =
      if (x - dst).toNat < w * count then
        copyElements w dst src ((x - dst).toNat / w) m (src + (x - dst))
      else m x := by
  rw [copyElements, elements_apply (fun _ _ => Mem.length_load ..) hcount]
  apply if_congr Iff.rfl _ rfl
  have hplace : src + BitVec.ofNat 32 (w * ((x - dst).toNat / w)) +
      BitVec.ofNat 32 ((x - dst).toNat % w) = src + (x - dst) := by
    rw [BitVec.add_assoc, ← BitVec.ofNat_add, Nat.div_add_mod, BitVec.ofNat_toNat,
      BitVec.setWidth_eq]
  rw [← hplace]
  exact Mem.getD_load _ _ (Nat.mod_lt _ hw)

theorem copyElements_of_le (hw : 0 < w) {i count : Nat} (hi : i ≤ count)
    (hcount : w * count ≤ 2 ^ 32) (x : U32) :
    copyElements w dst src i m x =
      if (x - dst).toNat < w * i then copyElements w dst src count m x else m x := by
  have hle : w * i ≤ w * count := Nat.mul_le_mul_left w hi
  rw [copyElements_apply hw (hle.trans hcount), copyElements_apply hw hcount]
  split
  · rw [if_pos (by omega)]
  · rfl

theorem copied_of_le {n k : Nat} (x : U32) :
    copied m dst src (min n k) x =
      if (x - dst).toNat < k then copied m dst src n x else m x := by
  unfold copied
  split_ifs <;> first | rfl | omega

/-- In front of two disjoint areas nothing that is read has been overwritten. -/
theorem copied_source {n : Nat} (hdisj : Region.Disjoint ⟨dst, n⟩ ⟨src, n⟩) {x : U32}
    (hx : (x - dst).toNat < n) (k : Nat) :
    copied m dst src (min n k) (src + (x - dst)) = m (src + (x - dst)) := by
  apply if_neg
  intro hmem
  refine hdisj (src + (x - dst)) (Nat.lt_of_lt_of_le hmem (Nat.min_le_left n k)) ?_
  rw [Region.mem_iff, add_sub_cancel_left]
  exact hx

/-- The loop copies the first `n` bytes and changes nothing else exactly if every further byte
    it writes is there already: behind `dst` stands what its round finds behind `src`, the
    first bytes having been copied. -/
theorem copyElements_eq_copied_iff (hw : 0 < w) {n count : Nat} (hcount : w * count ≤ 2 ^ 32)
    (hn : n ≤ w * count) (hdisj : Region.Disjoint ⟨dst, n⟩ ⟨src, n⟩) :
    copyElements w dst src count m = copied m dst src n ↔
      ∀ x : U32, n ≤ (x - dst).toNat → (x - dst).toNat < w * count →
        m x = copied m dst src (min n (w * ((x - dst).toNat / w))) (src + (x - dst)) := by
  have hround : ∀ x : U32, (x - dst).toNat < w * count → (x - dst).toNat / w < count :=
    fun x hx => Nat.div_lt_of_lt_mul hx
  constructor
  · intro h x hge hlt
    have hfirst : copyElements w dst src ((x - dst).toNat / w) m =
        copied m dst src (min n (w * ((x - dst).toNat / w))) := by
      funext y
      rw [copyElements_of_le hw (hround x hlt).le hcount, h, copied_of_le]
    have hx := congrFun h x
    rw [copyElements_apply hw hcount, if_pos hlt, hfirst] at hx
    exact (hx.trans (if_neg (Nat.not_lt.mpr hge))).symm
  · intro h
    -- round by round: so far the copy is the promised one, as far as it goes
    have hrounds : ∀ i ≤ count,
        copyElements w dst src i m = copied m dst src (min n (w * i)) := by
      intro i hi
      induction i using Nat.strong_induction_on with
      | _ i ih =>
        have hle : w * i ≤ w * count := Nat.mul_le_mul_left w hi
        funext x
        rw [copyElements_apply hw (hle.trans hcount), copied_of_le]
        split
        · rename_i hx
          have hlast : (x - dst).toNat / w < i := Nat.div_lt_of_lt_mul hx
          rw [ih _ hlast (hlast.le.trans hi)]
          rcases Nat.lt_or_ge (x - dst).toNat n with hin | hout
          · rw [copied_source hdisj hin, copied, if_pos hin]
          · rw [← h x hout (hx.trans_le hle), copied, if_neg (by omega)]
        · rfl
    rw [hrounds count le_rfl, Nat.min_eq_left hn]

end Copy

theorem setElements_eq_filled {w : Nat} {dst : U32} {value : List Byte} {count : Nat}
    (hvalue : value.length = w) (hcount : w * count ≤ 2 ^ 32) (m : Mem 32) :
    setElements w dst value count m = filled m dst value (w * count) := by
  funext x
  rw [setElements, elements_apply (fun _ _ => hvalue) hcount, filled, hvalue]

/-! ### The eight functions -/

namespace Width

theorem bytes_mul_count (n : Width) (size k : U32) (hk : k.toNat = n.bytes) :
    n.bytes * (size / k).toNat = n.whole size := by
  rw [BitVec.toNat_udiv, hk, whole, Nat.mul_comm]

theorem memset_eq_filled (n : Width) (dst : U32) (value : BitVec (8 * n.bytes)) (size : U32)
    (m : Mem 32) : n.memset dst value size m = filled m dst (leWord value) (n.whole size) := by
  have hle : n.whole size ≤ 2 ^ 32 := (n.whole_le size).trans size.isLt.le
  cases n with
  | w8 =>
    have hcount : 1 * size.toNat = w8.whole size := by
      rw [whole, bytes, Nat.div_one, Nat.mul_comm]
    rw [← hcount] at hle ⊢
    exact setElements_eq_filled (length_leBytes ..) hle m
  | w16 =>
    rw [← w16.bytes_mul_count size 2 rfl] at hle ⊢
    exact setElements_eq_filled (length_leBytes ..) hle m
  | w32 =>
    rw [← w32.bytes_mul_count size 4 rfl] at hle ⊢
    exact setElements_eq_filled (length_leBytes ..) hle m
  | w64 =>
    rw [← w64.bytes_mul_count size 8 rfl] at hle ⊢
    exact setElements_eq_filled (length_leBytes ..) hle m

theorem copyElements_whole (n : Width) {dst src size k : U32} (hk : k.toNat = n.bytes)
    (hdisj : Region.Disjoint ⟨dst, size.toNat⟩ ⟨src, size.toNat⟩) (m : Mem 32) :
    copyElements n.bytes dst src (size / k).toNat m = copied m dst src (n.whole size) := by
  have hcount := n.bytes_mul_count size k hk
  have hle : n.whole size ≤ size.toNat := n.whole_le size
  rw [← hcount] at hle ⊢
  refine (copyElements_eq_copied_iff n.bytes_pos (hle.trans size.isLt.le) le_rfl ?_).mpr ?_
  · exact (hdisj.mono_size hle).symm.mono_size hle |>.symm
  · intro x hge hlt
    omega

end Width

/-- `memcpy8` writes `2 * size` bytes; it is the promised copy exactly if the second half of
    them was there before. -/
theorem memcpy8_eq_copied_iff {dst src size : U32}
    (hdisj : Region.Disjoint ⟨dst, size.toNat⟩ ⟨src, size.toNat⟩) (m : Mem 32) :
    memcpy8 dst src size m = copied m dst src size.toNat ↔
      ∀ x : U32, size.toNat ≤ (x - dst).toNat → (x - dst).toNat < 2 * size.toNat →
        m x = copied m dst src (min size.toNat (2 * ((x - dst).toNat / 2))) (src + (x - dst)) := by
  apply copyElements_eq_copied_iff (by decide) _ (by omega) hdisj
  -- two disjoint areas of `size` bytes leave no room for more
  rcases Nat.eq_zero_or_pos size.toNat with hzero | hpos
  · rw [hzero]
    decide
  · have hfit := hdisj.add_size_le hpos hpos
    dsimp only at hfit
    omega

/-- On every pair of disjoint areas the copies and fills are the promised ones, with one
    exception: `memcpy8`, which also writes the `size` bytes behind its destination.  Its copy is
    the promised one exactly if each of these bytes already is what the loop finds in its place
    behind the source. -/
theorem sized_copies_iff (n : Width) (dst src size : U32) (value : BitVec (8 * n.bytes))
    (m : Mem 32) :
    ((Region.Disjoint ⟨dst, size.toNat⟩ ⟨src, size.toNat⟩ →
        n.memcpy dst src size m = copied m dst src (n.whole size)) ∧
      n.memset dst value size m = filled m dst (leWord value) (n.whole size)) ↔
    (n = .w8 → Region.Disjoint ⟨dst, size.toNat⟩ ⟨src, size.toNat⟩ →
      ∀ x : U32, size.toNat ≤ (x - dst).toNat → (x - dst).toNat < 2 * size.toNat →
        m x = copied m dst src (min size.toNat (2 * ((x - dst).toNat / 2)))
          (src + (x - dst))) := by
  rw [and_iff_left (n.memset_eq_filled dst value size m)]
  cases n with
  | w8 =>
    have hwhole : Width.w8.whole size = size.toNat := by
      rw [Width.whole, Width.bytes, Nat.div_one, Nat.mul_one]
    rw [hwhole, forall_prop_of_true rfl]
    exact forall_congr' fun hdisj => memcpy8_eq_copied_iff hdisj m
  | w16 =>
    exact iff_of_true (fun hdisj => Width.w16.copyElements_whole rfl hdisj m) (absurd · (by decide))
  | w32 =>
    exact iff_of_true (fun hdisj => Width.w32.copyElements_whole rfl hdisj m) (absurd · (by decide))
  | w64 =>
    exact iff_of_true (fun hdisj => Width.w64.copyElements_whole rfl hdisj m) (absurd · (by decide))

def oneByte : Mem 32 := fun x => if x = 0x201 then 0xAA else 0

/-- Asked to copy one byte, `memcpy8` copies two: the byte behind the destination changes. -/
theorem memcpy8_overruns :
    Region.Disjoint (⟨0x100, 1⟩ : Region 32) ⟨0x200, 1⟩ ∧
      memcpy8 0x100 0x200 1 oneByte 0x101 ≠ oneByte 0x101 := by
  decide +kernel

end MiniHaywire.Utils
