import Mathlib.Data.BitVec
import Mathlib.Tactic

/-!
# Address regions

A region is a number of bytes from a start address on; addresses are bit vectors,
so a region that runs over the end of the address space goes on at zero.  Regions
laid out one behind the other, no more of them than the address space holds, cut
up the region they span (`partition_layout`).

`alignUp` is the usual mask expression; below the top of the address space it
rounds up to a multiple.
-/

namespace MiniHaywire

variable {w : Nat}

/-! ### Alignment -/

def alignUp (x a : BitVec w) : BitVec w := (x + (a - 1)) &&& ~~~(a - 1)

/-- `n` rounded up to a multiple of `a`. -/
def roundUp (a n : Nat) : Nat := (n + (a - 1)) / a * a

theorem dvd_roundUp (a n : Nat) : a ∣ roundUp a n := Dvd.intro_left _ rfl

theorem le_roundUp {a : Nat} (ha : 0 < a) (n : Nat) : n ≤ roundUp a n := by
  have hdiv := Nat.div_add_mod (n + (a - 1)) a
  have hmod := Nat.mod_lt (n + (a - 1)) ha
  rw [roundUp, Nat.mul_comm]
  omega

theorem roundUp_of_dvd {a n : Nat} (ha : 0 < a) (h : a ∣ n) : roundUp a n = n := by
  obtain ⟨m, rfl⟩ := h
  rw [roundUp, Nat.mul_add_div ha, Nat.div_eq_of_lt (by omega), Nat.add_zero, Nat.mul_comm]

theorem and_not_low (x : BitVec w) (k : Nat) :
    x &&& ~~~(BitVec.ofNat w (2 ^ k - 1)) = x >>> k <<< k := by
  apply BitVec.eq_of_getLsbD_eq
  intro i hi
  simp only [BitVec.getLsbD_and, BitVec.getLsbD_not, BitVec.getLsbD_ofNat,
    Nat.testBit_two_pow_sub_one, BitVec.getLsbD_shiftLeft, BitVec.getLsbD_ushiftRight, hi]
  by_cases hk : i < k
  · simp [hk]
  · simp [hk, Nat.add_sub_cancel' (Nat.le_of_not_lt hk)]

theorem alignUp_eq {k : Nat} (hk : k < w) (x : BitVec w) :
    alignUp x (BitVec.ofNat w (2 ^ k)) = BitVec.ofNat w (roundUp (2 ^ k) x.toNat) := by
  have hpow : 2 ^ k < 2 ^ w := Nat.pow_lt_pow_right (by omega) hk
  have hpos : 0 < 2 ^ k := Nat.two_pow_pos k
  have hsplit : 2 ^ w = 2 ^ k * 2 ^ (w - k) := by rw [← pow_add, Nat.add_sub_cancel' hk.le]
  have hmask : BitVec.ofNat w (2 ^ k) - 1 = BitVec.ofNat w (2 ^ k - 1) := by
    rw [← BitVec.ofNat_sub_ofNat_of_le _ _ (by omega) (by omega)]
    rfl
  apply BitVec.eq_of_toNat_eq
  rw [alignUp, hmask, and_not_low, BitVec.toNat_shiftLeft, BitVec.toNat_ushiftRight,
    BitVec.toNat_add, BitVec.toNat_ofNat, BitVec.toNat_ofNat,
    Nat.mod_eq_of_lt (by omega : 2 ^ k - 1 < 2 ^ w), Nat.shiftLeft_eq,
    Nat.shiftRight_eq_div_pow, roundUp, hsplit, Nat.mod_mul_right_div_self,
    Nat.mul_comm (2 ^ k) (2 ^ (w - k)), Nat.mul_mod_mul_right, Nat.mul_mod_mul_right, Nat.mod_mod]

theorem alignUp_of_dvd {k : Nat} (hk : k < w) {x : BitVec w} (h : 2 ^ k ∣ x.toNat) :
    alignUp x (BitVec.ofNat w (2 ^ k)) = x := by
  rw [alignUp_eq hk, roundUp_of_dvd (Nat.two_pow_pos k) h, BitVec.ofNat_toNat, BitVec.setWidth_eq]

/-! ### Regions -/

structure Region (w : Nat) where
  start : BitVec w
  size : Nat
deriving DecidableEq

namespace Region

instance : Membership (BitVec w) (Region w) where
  mem r x := (x - r.start).toNat < r.size

theorem mem_iff {x : BitVec w} {r : Region w} : x ∈ r ↔ (x - r.start).toNat < r.size := Iff.rfl

instance (x : BitVec w) (r : Region w) : Decidable (x ∈ r) := decidable_of_iff _ mem_iff.symm

protected def Disjoint (r s : Region w) : Prop := ∀ x, x ∈ r → x ∉ s

protected theorem Disjoint.symm {r s : Region w} (h : r.Disjoint s) : s.Disjoint r :=
  fun x hs hr => h x hr hs

theorem toNat_sub_add {m : Nat} (h : m ≤ 2 ^ w) (a x : BitVec w) :
    (x - (a + BitVec.ofNat w m)).toNat =
      if m ≤ (x - a).toNat then (x - a).toNat - m else (x - a).toNat + 2 ^ w - m := by
  have hlt := (x - a).isLt
  have hsub : x - (a + BitVec.ofNat w m) = x - a - BitVec.ofNat w m := by ring
  rw [hsub, BitVec.toNat_sub, BitVec.toNat_ofNat]
  rcases Nat.lt_or_eq_of_le h with hm | rfl
  · rw [Nat.mod_eq_of_lt hm]
    split
    · rw [show 2 ^ w - m + (x - a).toNat = (x - a).toNat - m + 2 ^ w by omega, Nat.add_mod_right,
        Nat.mod_eq_of_lt (by omega)]
    · rw [Nat.mod_eq_of_lt (by omega)]
      omega
  · rw [Nat.mod_self, if_neg (by omega), Nat.sub_zero, Nat.add_mod_left, Nat.mod_eq_of_lt hlt]
    omega

theorem start_mem {r : Region w} (h : 0 < r.size) : r.start ∈ r := by
  rw [mem_iff, BitVec.sub_self]
  simpa using h

theorem not_disjoint_self {r : Region w} (h : 0 < r.size) : ¬ r.Disjoint r :=
  fun hr => hr _ (start_mem h) (start_mem h)

/-- Two regions are disjoint if one is empty, or if neither starts inside the other. -/
theorem disjoint_iff {r s : Region w} :
    r.Disjoint s ↔ r.size = 0 ∨ s.size = 0 ∨ (s.start ∉ r ∧ r.start ∉ s) := by
  constructor
  · intro h
    rcases Nat.eq_zero_or_pos r.size with hr | hr
    · exact Or.inl hr
    rcases Nat.eq_zero_or_pos s.size with hs | hs
    · exact Or.inr (Or.inl hs)
    exact Or.inr (Or.inr ⟨h.symm _ (start_mem hs), h _ (start_mem hr)⟩)
  · intro h x hr hs
    simp only [mem_iff] at h hr hs
    have hlt := (s.start - r.start).isLt
    rcases Nat.le_total (x - s.start).toNat (x - r.start).toNat with hle | hle
    · -- `x` is further into `r` than into `s`, so `s` starts inside `r`
      have hsub : s.start - r.start = x - r.start - (x - s.start) := by ring
      rw [hsub, BitVec.toNat_sub_of_le hle] at h
      omega
    · have hsub : r.start - s.start = x - s.start - (x - r.start) := by ring
      rw [hsub, BitVec.toNat_sub_of_le hle] at h
      omega

instance (r s : Region w) : Decidable (r.Disjoint s) := decidable_of_iff _ disjoint_iff.symm

theorem Disjoint.add_size_le {r s : Region w} (h : r.Disjoint s) (hr : 0 < r.size)
    (hs : 0 < s.size) : r.size + s.size ≤ 2 ^ w := by
  have hin : s.start ∉ r := h.symm _ (start_mem hs)
  have hin' : r.start ∉ s := h _ (start_mem hr)
  rw [mem_iff, Nat.not_lt] at hin hin'
  have hsum : (s.start - r.start).toNat + (r.start - s.start).toNat ≤ 2 ^ w := by
    rw [BitVec.toNat_sub, BitVec.toNat_sub]
    have hlt := r.start.isLt
    have hlt' := s.start.isLt
    rcases Nat.lt_trichotomy r.start.toNat s.start.toNat with hlt | heq | hgt
    · rw [Nat.mod_eq_of_lt (show 2 ^ w - s.start.toNat + r.start.toNat < 2 ^ w by omega),
        show 2 ^ w - r.start.toNat + s.start.toNat =
          s.start.toNat - r.start.toNat + 2 ^ w by omega, Nat.add_mod_right,
        Nat.mod_eq_of_lt (by omega)]
      omega
    · rw [heq, Nat.sub_add_cancel hlt'.le, Nat.mod_self]
      exact Nat.zero_le _
    · rw [Nat.mod_eq_of_lt (show 2 ^ w - r.start.toNat + s.start.toNat < 2 ^ w by omega),
        show 2 ^ w - s.start.toNat + r.start.toNat =
          r.start.toNat - s.start.toNat + 2 ^ w by omega, Nat.add_mod_right,
        Nat.mod_eq_of_lt (by omega)]
      omega
  omega

theorem Disjoint.mono_size {r : Region w} {a : BitVec w} {m n : Nat} (h : r.Disjoint ⟨a, n⟩)
    (hle : m ≤ n) : r.Disjoint ⟨a, m⟩ :=
  fun x hx hm => h x hx (Nat.lt_of_lt_of_le hm hle)

theorem mem_append {a x : BitVec w} {m n : Nat} (h : m + n ≤ 2 ^ w) :
    x ∈ (⟨a, m + n⟩ : Region w) ↔
      x ∈ (⟨a, m⟩ : Region w) ∨ x ∈ (⟨a + BitVec.ofNat w m, n⟩ : Region w) := by
  have hlt := (x - a).isLt
  simp only [mem_iff]
  rw [toNat_sub_add (by omega)]
  split <;> omega

theorem disjoint_append {a : BitVec w} {m n : Nat} (h : m + n ≤ 2 ^ w) :
    Region.Disjoint ⟨a, m⟩ ⟨a + BitVec.ofNat w m, n⟩ := by
  intro x hx hx'
  simp only [mem_iff] at hx hx'
  rw [toNat_sub_add (by omega)] at hx'
  split at hx' <;> omega

/-- The pieces cut the region up: they cover it, they cover nothing else, and no two of
    them meet. -/
structure Partition (r : Region w) (pieces : List (Region w)) : Prop where
  cover : ∀ x, x ∈ r ↔ ∃ p ∈ pieces, x ∈ p
  disjoint : pieces.Pairwise Region.Disjoint

/-- Regions of the given sizes, one behind the other from `a` on. -/
def layout : BitVec w → List Nat → List (Region w)
  | _, [] => []
  | a, n :: ns => ⟨a, n⟩ :: layout (a + BitVec.ofNat w n) ns

theorem partition_layout (a : BitVec w) (ns : List Nat) (h : ns.sum ≤ 2 ^ w) :
    Partition ⟨a, ns.sum⟩ (layout a ns) := by
  induction ns generalizing a with
  | nil =>
    refine ⟨?_, List.Pairwise.nil⟩
    intro x
    simp [mem_iff, layout]
  | cons n ns ih =>
    rw [List.sum_cons] at h ⊢
    have htail := ih (a + BitVec.ofNat w n) (by omega)
    constructor
    · intro x
      rw [mem_append h, htail.cover]
      simp only [layout, List.exists_mem_cons_iff]
    · refine List.Pairwise.cons ?_ htail.disjoint
      intro p hp x hx hxp
      exact disjoint_append h x hx ((htail.cover x).mpr ⟨p, hp, hxp⟩)

theorem layout_append (a : BitVec w) (ms ns : List Nat) :
    layout a (ms ++ ns) = layout a ms ++ layout (a + BitVec.ofNat w ms.sum) ns := by
  induction ms generalizing a with
  | nil => simp [layout]
  | cons m ms ih =>
    rw [List.cons_append, layout, ih, layout, List.sum_cons, List.cons_append, BitVec.ofNat_add,
      BitVec.add_assoc]

/-- Each region ends where the one before it in the list starts, the first one at `top`. -/
def Descending : BitVec w → List (Region w) → Prop
  | _, [] => True
  | top, r :: rs => r.start + BitVec.ofNat w r.size = top ∧ Descending r.start rs

theorem Descending.reverse {top : BitVec w} {rs : List (Region w)} (h : Descending top rs) :
    rs.reverse =
      layout (top - BitVec.ofNat w (rs.map size).sum) (rs.map size).reverse := by
  induction rs generalizing top with
  | nil => rfl
  | cons r rs ih =>
    obtain ⟨htop, hrest⟩ := h
    have hstart : top - BitVec.ofNat w ((r :: rs).map size).sum =
        r.start - BitVec.ofNat w (rs.map size).sum := by
      rw [List.map_cons, List.sum_cons, BitVec.ofNat_add, ← htop]
      ring
    have hend : r.start - BitVec.ofNat w (rs.map size).sum +
        BitVec.ofNat w (rs.map size).reverse.sum = r.start := by
      rw [List.sum_reverse]
      ring
    rw [hstart, List.reverse_cons, List.map_cons, List.reverse_cons, layout_append, ← ih hrest,
      hend]
    rfl

theorem Descending.aligned {k : Nat} (hk : k ∣ 2 ^ w) {top : BitVec w} {rs : List (Region w)}
    (h : Descending top rs) (htop : k ∣ top.toNat) (hsize : ∀ r ∈ rs, k ∣ r.size) :
    ∀ r ∈ rs, k ∣ r.start.toNat := by
  induction rs generalizing top with
  | nil => simp
  | cons r rs ih =>
    obtain ⟨hr, hrest⟩ := h
    have hstart : k ∣ r.start.toNat := by
      have hsum : (r.start.toNat + r.size) % 2 ^ w = top.toNat := by
        rw [← hr, BitVec.toNat_add, BitVec.toNat_ofNat, Nat.add_mod_mod]
      have hdvd : k ∣ r.start.toNat + r.size := by
        rw [← Nat.div_add_mod (r.start.toNat + r.size) (2 ^ w), hsum]
        exact Nat.dvd_add (Dvd.dvd.mul_right hk _) htop
      exact (Nat.dvd_add_left (hsize r (by simp))).mp hdvd
    intro s hs
    rcases List.mem_cons.mp hs with rfl | hs
    · exact hstart
    · exact ih hrest hstart (fun t ht => hsize t (List.mem_cons_of_mem _ ht)) s hs

end Region

end MiniHaywire
