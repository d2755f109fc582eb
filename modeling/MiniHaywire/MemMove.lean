import MiniHaywire.BlockCopy

/-!
# Moving blocks

`memcpy` and `memmove` of `string.c`: loops that move one byte a round.  `memcpy`
goes up from the start.  `memmove` goes up if the destination does not lie behind the
source, and down from the end otherwise.

A loop does what it should if no byte is overwritten before it has been read
(`ReadFirstUp`, `ReadFirstDown`).  With both areas inside the address space, the
comparison of the two pointers picks a direction that is right, whether the areas
overlap or not.
-/

namespace MiniHaywire.Str

open Utils

/-! ### The loops -/

def copyUp : Nat → U32 → U32 → Mem 32 → Mem 32
  | 0, _, _, m => m
  | n + 1, dest, src, m => copyUp n (dest + 1) (src + 1) (Function.update m dest (m src))

def copyDown : Nat → U32 → U32 → Mem 32 → Mem 32
  | 0, _, _, m => m
  | n + 1, dest, src, m =>
    copyDown n (dest - 1) (src - 1) (Function.update m (dest - 1) (m (src - 1)))

def memcpy (s1 s2 n : U32) (m : Mem 32) : U32 × Mem 32 := (s1, copyUp n.toNat s1 s2 m)

def memmove (s1 s2 n : U32) (m : Mem 32) : U32 × Mem 32 :=
  if s1 ≤ s2 then (s1, copyUp n.toNat s1 s2 m)
  else (s1, copyDown n.toNat (s1 + n) (s2 + n) m)

/-! ### Reading before writing -/

/-- Going up, no byte of the source is written before it is read. -/
def ReadFirstUp (dest src : U32) (n : Nat) : Prop :=
  ∀ i j, i < j → j < n → src + BitVec.ofNat 32 j ≠ dest + BitVec.ofNat 32 i

/-- Going down, no byte of the source is written before it is read. -/
def ReadFirstDown (dest src : U32) (n : Nat) : Prop :=
  ∀ i j, j < i → i < n → src + BitVec.ofNat 32 j ≠ dest + BitVec.ofNat 32 i

variable {dest src : U32} {n : Nat} {m : Mem 32}

theorem readFirstUp_of_le (hle : dest ≤ src) (hsrc : src.toNat + n ≤ 2 ^ 32) :
    ReadFirstUp dest src n := by
  intro i j hij hj heq
  have hle' : dest.toNat ≤ src.toNat := hle
  have hnat := congrArg BitVec.toNat heq
  rw [toNat_add_ofNat (by omega), toNat_add_ofNat (by omega)] at hnat
  omega

theorem readFirstDown_of_le (hle : src ≤ dest) (hdest : dest.toNat + n ≤ 2 ^ 32) :
    ReadFirstDown dest src n := by
  intro i j hji hi heq
  have hle' : src.toNat ≤ dest.toNat := hle
  have hnat := congrArg BitVec.toNat heq
  rw [toNat_add_ofNat (by omega), toNat_add_ofNat (by omega)] at hnat
  omega

theorem readFirstUp_of_disjoint (hn : n ≤ 2 ^ 32) (h : Region.Disjoint ⟨dest, n⟩ ⟨src, n⟩) :
    ReadFirstUp dest src n := by
  intro i j hij hj heq
  refine h (dest + BitVec.ofNat 32 i) ?_ ?_
  · rw [Region.mem_iff, Mem.toNat_add_ofNat_sub dest (by omega)]
    dsimp only
    omega
  · rw [Region.mem_iff, ← heq, Mem.toNat_add_ofNat_sub src (by omega)]
    exact hj

theorem ReadFirstUp.tail (h : ReadFirstUp dest src (n + 1)) :
    ReadFirstUp (dest + 1) (src + 1) n := by
  intro i j hij hj
  rw [add_one_add_ofNat, add_one_add_ofNat]
  exact h (i + 1) (j + 1) (by omega) (by omega)

theorem ReadFirstDown.init (h : ReadFirstDown dest src (n + 1)) : ReadFirstDown dest src n :=
  fun i j hji hi => h i j hji (by omega)

/-! ### One round -/

theorem copied_zero (m : Mem 32) (dest src : U32) : copied m dest src 0 = m := by
  funext x
  exact if_neg (Nat.not_lt_zero _)

theorem copied_front (hn : n + 1 ≤ 2 ^ 32) (h : ReadFirstUp dest src (n + 1)) :
    copied (Function.update m dest (m src)) (dest + 1) (src + 1) n = copied m dest src (n + 1) := by
  funext x
  unfold copied
  by_cases hx : x = dest
  · have hlast := toNat_sub_succ_self dest
    rw [hx, if_neg (by omega), Function.update_self, BitVec.sub_self, BitVec.add_zero]
    rfl
  · have hnext := toNat_sub_of_ne hx
    have hsource : src + 1 + (x - (dest + 1)) = src + (x - dest) := by ring
    rw [hsource, Function.update_of_ne hx, hnext]
    by_cases hin : (x - (dest + 1)).toNat < n
    · have hread := h 0 (x - dest).toNat (by omega) (by omega)
      rw [BitVec.ofNat_toNat, BitVec.setWidth_eq, BitVec.add_zero] at hread
      rw [if_pos hin, if_pos (by omega), Function.update_of_ne hread]
    · rw [if_neg hin, if_neg (by omega)]

theorem copied_back (hn : n + 1 ≤ 2 ^ 32) (h : ReadFirstDown dest src (n + 1)) :
    copied (Function.update m (dest + BitVec.ofNat 32 n) (m (src + BitVec.ofNat 32 n))) dest src n =
      copied m dest src (n + 1) := by
  have hlast := Mem.toNat_add_ofNat_sub dest (show n < 2 ^ 32 by omega)
  funext x
  unfold copied
  by_cases hx : x = dest + BitVec.ofNat 32 n
  · rw [hx, hlast, if_neg (lt_irrefl n), if_pos (Nat.lt_succ_self n), Function.update_self,
      add_sub_cancel_left]
  · have hne : (x - dest).toNat ≠ n := by
      intro heq
      apply hx
      rw [← heq, BitVec.ofNat_toNat, BitVec.setWidth_eq]
      ring
    rw [Function.update_of_ne hx]
    by_cases hin : (x - dest).toNat < n
    · have hread := h n (x - dest).toNat hin (Nat.lt_succ_self n)
      rw [BitVec.ofNat_toNat, BitVec.setWidth_eq] at hread
      rw [if_pos hin, if_pos (by omega), Function.update_of_ne hread]
    · rw [if_neg hin, if_neg (by omega)]

/-! ### The whole loop -/

theorem copyUp_eq_copied (hn : n ≤ 2 ^ 32) (h : ReadFirstUp dest src n) :
    copyUp n dest src m = copied m dest src n := by
  induction n generalizing dest src m with
  | zero => rw [copyUp, copied_zero]
  | succ n ih => rw [copyUp, ih (by omega) h.tail, copied_front hn h]

/-- The pointers start behind the ends of the areas, which may be the end of the address space. -/
theorem copyDown_eq_copied (hn : n ≤ 2 ^ 32) (h : ReadFirstDown dest src n) :
    copyDown n (dest + BitVec.ofNat 32 n) (src + BitVec.ofNat 32 n) m = copied m dest src n := by
  induction n generalizing m with
  | zero => rw [copyDown, copied_zero]
  | succ n ih =>
    have hstep : ∀ a : U32, a + BitVec.ofNat 32 (n + 1) - 1 = a + BitVec.ofNat 32 n := by
      intro a
      rw [← add_one_add_ofNat]
      ring
    rw [copyDown, hstep, hstep, ih (by omega) h.init, copied_back hn h]

theorem memmove_eq_copied {n : U32} (hdest : dest.toNat + n.toNat ≤ 2 ^ 32)
    (hsrc : src.toNat + n.toNat ≤ 2 ^ 32) :
    memmove dest src n m = (dest, copied m dest src n.toNat) := by
  unfold memmove
  split
  · next hle =>
    rw [copyUp_eq_copied n.isLt.le (readFirstUp_of_le hle hsrc)]
  · next hgt =>
    have hle : src ≤ dest := (BitVec.le_total src dest).resolve_right hgt
    have hdown := copyDown_eq_copied (m := m) n.isLt.le (readFirstDown_of_le hle hdest)
    rw [BitVec.ofNat_toNat, BitVec.setWidth_eq] at hdown
    rw [hdown]

/-! ### What is in the destination afterwards -/

theorem load_copied (hn : n ≤ 2 ^ 32) : (copied m dest src n).load dest n = m.load src n := by
  apply List.ext_getElem (by simp)
  intro i hi hi'
  rw [Mem.length_load] at hi
  rw [Mem.getElem_load, Mem.getElem_load, copied, Mem.toNat_add_ofNat_sub dest (by omega),
    if_pos hi, add_sub_cancel_left]

theorem copied_outside {x : U32} (hdest : dest.toNat + n ≤ 2 ^ 32)
    (hx : x.toNat < dest.toNat ∨ dest.toNat + n ≤ x.toNat) : copied m dest src n x = m x := by
  apply if_neg
  have hlt := x.isLt
  rw [BitVec.toNat_sub]
  rcases hx with hbelow | habove
  · rw [Nat.mod_eq_of_lt (by omega)]
    omega
  · rw [show 2 ^ 32 - dest.toNat + x.toNat = x.toNat - dest.toNat + 2 ^ 32 by omega,
      Nat.add_mod_right, Nat.mod_eq_of_lt (by omega)]
    omega

/-- **`memmove`.** Wherever the two areas lie in the address space, overlapping or not: the
    destination holds what the source held before the call, and no byte outside of it has changed.
    -/
theorem memmove_moves (dest src n : U32) (m : Mem 32) (hdest : dest.toNat + n.toNat ≤ 2 ^ 32)
    (hsrc : src.toNat + n.toNat ≤ 2 ^ 32) :
    (memmove dest src n m).1 = dest ∧
      (memmove dest src n m).2.load dest n.toNat = m.load src n.toNat ∧
      ∀ x : U32, x.toNat < dest.toNat ∨ dest.toNat + n.toNat ≤ x.toNat →
        (memmove dest src n m).2 x = m x := by
  rw [memmove_eq_copied hdest hsrc]
  exact ⟨rfl, load_copied n.isLt.le, fun x hx => copied_outside hdest hx⟩

/-- Three bytes one place up, and three bytes one place down. -/
theorem memmove_moves_overlap :
    (memmove 2 1 3 fun x => x.setWidth 8).2.load 2 3 = [1, 2, 3] ∧
      (memmove 1 2 3 fun x => x.setWidth 8).2.load 1 3 = [2, 3, 4] :=
  ⟨(memmove_moves 2 1 3 (fun x => x.setWidth 8) (by decide) (by decide)).2.1,
    (memmove_moves 1 2 3 (fun x => x.setWidth 8) (by decide) (by decide)).2.1⟩

/-- On areas that do not meet, `memcpy` stores the block that stands at the source. -/
theorem memcpy_eq_store {n : U32} (h : Region.Disjoint ⟨dest, n.toNat⟩ ⟨src, n.toNat⟩) :
    memcpy dest src n m = (dest, m.store dest (m.load src n.toNat)) := by
  have hn := n.isLt.le
  rw [memcpy, copyUp_eq_copied hn (readFirstUp_of_disjoint hn h)]
  congr 1
  funext x
  rw [Mem.store_apply (by rwa [Mem.length_load]), Mem.length_load, copied]
  split
  · next hin => rw [Mem.getD_load _ _ hin, BitVec.ofNat_toNat, BitVec.setWidth_eq]
  · rfl

theorem memcpy_eq_store_apart :
    memcpy 8 0 3 (fun x => x.setWidth 8) = (8, Mem.store (fun x => x.setWidth 8) 8 [0, 1, 2]) :=
  memcpy_eq_store (n := 3) fun x hdest hsrc => by
    rw [Region.mem_iff] at hdest hsrc
    bv_omega

end MiniHaywire.Str
