import Mathlib.Data.BitVec
import Mathlib.Tactic

/-!
# Bytes, little-endian words and byte memories

The vocabulary every wire format and every memory model of the development is
built from.  A word travels as `w` bytes, least significant first (`leBytes`),
and is read back by `leNat`; a memory is a total function from addresses to
bytes, and a block transfer is `Mem.load` / `Mem.store`.  Addresses are bit
vectors, so a block that runs over the end of the address space wraps around
exactly as a pointer does.

`Mem.At m o bs` is the layout predicate: the bytes `bs` stand in `m` from
offset `o` on.  It splits over `++` (`Mem.at_append`), which is how a flat
format is taken apart field by field, and a store into the middle of it replaces
the middle (`Mem.at_store`).
-/

namespace MiniHaywire

abbrev Byte := BitVec 8
abbrev U16 := BitVec 16
abbrev U32 := BitVec 32
abbrev U64 := BitVec 64

instance lawfulBEq_byte : LawfulBEq Byte := inferInstance

/-- The conversion of a 64-bit value to a 32-bit type. -/
def lo32 (v : U64) : U32 := v.setWidth 32

theorem slt_zero_ofNat {o : Nat} (h : o < 2 ^ 31) : (BitVec.ofNat 32 o).slt 0 = false := by
  have hnat : (BitVec.ofNat 32 o).toNat = o := Nat.mod_eq_of_lt (by omega)
  have hint : (BitVec.ofNat 32 o).toInt = o := by
    rw [BitVec.toInt_eq_toNat_of_lt (by omega), hnat]
  have hzero : (0 : U32).toInt = 0 := by decide
  rw [BitVec.slt_eq_decide, hint, hzero]
  exact decide_eq_false (by omega)

/-! ### Little-endian words -/

/-- The `w` little-endian bytes of `n`; bits above `8 * w` are dropped. -/
def leBytes : Nat → Nat → List Byte
  | 0, _ => []
  | w + 1, n => BitVec.ofNat 8 n :: leBytes w (n / 256)

/-- The natural number with the given little-endian bytes. -/
def leNat : List Byte → Nat
  | [] => 0
  | b :: bs => b.toNat + 256 * leNat bs

@[simp] theorem length_leBytes (w n : Nat) : (leBytes w n).length = w := by
  induction w generalizing n with
  | zero => rfl
  | succ w ih => simp only [leBytes, List.length_cons, ih]

theorem leNat_leBytes (w n : Nat) : leNat (leBytes w n) = n % 256 ^ w := by
  induction w generalizing n with
  | zero => simp only [leBytes, leNat, pow_zero, Nat.mod_one]
  | succ w ih =>
    have hb : (BitVec.ofNat 8 n).toNat = n % 256 := BitVec.toNat_ofNat n 8
    simp only [leBytes, leNat, ih]
    rw [hb, pow_succ', Nat.mod_mul]

theorem leNat_leBytes_of_lt {w n : Nat} (h : n < 256 ^ w) : leNat (leBytes w n) = n := by
  rw [leNat_leBytes, Nat.mod_eq_of_lt h]

theorem leNat_lt (bs : List Byte) : leNat bs < 256 ^ bs.length := by
  induction bs with
  | nil => simp [leNat]
  | cons b bs ih =>
    have hb : b.toNat < 256 := b.isLt
    simp only [leNat, List.length_cons, pow_succ]
    omega

theorem leNat_append (bs cs : List Byte) :
    leNat (bs ++ cs) = leNat bs + 256 ^ bs.length * leNat cs := by
  induction bs with
  | nil => simp [leNat]
  | cons b bs ih =>
    rw [List.cons_append, leNat, leNat, ih, List.length_cons, pow_succ]
    ring

/-- A fixed-width word as its little-endian bytes. -/
def leWord {w : Nat} (x : BitVec w) : List Byte := leBytes (w / 8) x.toNat

@[simp] theorem length_leWord {w : Nat} (x : BitVec w) : (leWord x).length = w / 8 := by
  simp [leWord]

/-- Reading a word back from the bytes it was written as.  The width has to be
    a whole number of bytes. -/
theorem leNat_leWord {w : Nat} (hw : 8 * (w / 8) = w) (x : BitVec w) :
    leNat (leWord x) = x.toNat := by
  have h256 : (256 : Nat) ^ (w / 8) = 2 ^ w := by
    rw [show (256 : Nat) = 2 ^ 8 from rfl, ← pow_mul, hw]
  apply leNat_leBytes_of_lt
  rw [h256]
  exact x.isLt

/-! ### Fields -/

/-- A struct field: `len` bytes at byte offset `off`, as a little-endian number. -/
def field (bs : List Byte) (off len : Nat) : Nat := leNat ((bs.drop off).take len)

theorem field_leWord {w : Nat} (hw : 8 * (w / 8) = w) (pre post : List Byte) (x : BitVec w) :
    field (pre ++ (leWord x ++ post)) pre.length (w / 8) = x.toNat := by
  rw [field, List.drop_left, List.take_left' (length_leWord x), leNat_leWord hw]

theorem ofNat_field_leWord {w : Nat} (hw : 8 * (w / 8) = w) (pre post : List Byte)
    (x : BitVec w) :
    BitVec.ofNat w (field (pre ++ (leWord x ++ post)) pre.length (w / 8)) = x := by
  rw [field_leWord hw, BitVec.ofNat_toNat, BitVec.setWidth_eq]

/-! ### Padding -/

/-- Python's `ljust` with NUL bytes: pad on the right up to `n` bytes. -/
def ljust (n : Nat) (bs : List Byte) : List Byte := bs ++ List.replicate (n - bs.length) 0

theorem length_ljust {n : Nat} {bs : List Byte} (h : bs.length ≤ n) :
    (ljust n bs).length = n := by
  simp only [ljust, List.length_append, List.length_replicate]
  omega

theorem ljust_of_length {n : Nat} {bs : List Byte} (h : bs.length = n) : ljust n bs = bs := by
  simp [ljust, h]

/-! ### Byte memories -/

/-- A byte-addressed memory with `w`-bit addresses. -/
abbrev Mem (w : Nat) := BitVec w → Byte

variable {w : Nat}

theorem ofNat_ne_zero {n : Nat} (hpos : 0 < n) (hlt : n < 2 ^ w) : BitVec.ofNat w n ≠ 0 := by
  intro hzero
  have hnat := congrArg BitVec.toNat hzero
  rw [BitVec.toNat_ofNat, Nat.mod_eq_of_lt hlt, BitVec.ofNat_eq_ofNat, BitVec.toNat_ofNat,
    Nat.zero_mod] at hnat
  omega

theorem toNat_add_ofNat {a : BitVec w} {i : Nat} (h : a.toNat + i < 2 ^ w) :
    (a + BitVec.ofNat w i).toNat = a.toNat + i := by
  rw [BitVec.toNat_add, BitVec.toNat_ofNat, Nat.mod_eq_of_lt (show i < 2 ^ w by omega),
    Nat.mod_eq_of_lt h]

theorem add_one_add_ofNat (a : BitVec w) (i : Nat) :
    a + 1 + BitVec.ofNat w i = a + BitVec.ofNat w (i + 1) := by
  rw [BitVec.ofNat_add, BitVec.add_assoc, BitVec.add_comm 1]
  rfl

theorem toNat_sub_succ_self (x : BitVec w) : (x - (x + 1)).toNat + 1 = 2 ^ w := by
  have hone : 0 < 2 ^ w := Nat.two_pow_pos w
  rw [show x - (x + 1) = -BitVec.ofNat w 1 by
    rw [show BitVec.ofNat w 1 = (1 : BitVec w) from rfl]; ring]
  rw [BitVec.toNat_neg, BitVec.toNat_ofNat]
  rcases Nat.lt_or_ge 1 (2 ^ w) with h | h
  · rw [Nat.mod_eq_of_lt h, Nat.mod_eq_of_lt (by omega)]
    omega
  · rw [show 2 ^ w = 1 by omega]

theorem toNat_sub_of_ne {a x : BitVec w} (h : x ≠ a) :
    (x - a).toNat = (x - (a + 1)).toNat + 1 := by
  have hd : x - a = (x - (a + 1)) + BitVec.ofNat w 1 := by
    rw [show BitVec.ofNat w 1 = (1 : BitVec w) from rfl]; ring
  have hlast := (x - (a + 1)).isLt
  have hne : (x - (a + 1)).toNat + 1 ≠ 2 ^ w := by
    intro heq
    apply h
    have hself := toNat_sub_succ_self a
    have hsame : x - (a + 1) = a - (a + 1) := BitVec.eq_of_toNat_eq (by omega)
    exact sub_left_injective hsame
  rw [hd, BitVec.toNat_add, BitVec.toNat_ofNat]
  rw [Nat.mod_eq_of_lt (show 1 < 2 ^ w by omega), Nat.mod_eq_of_lt (by omega)]

namespace Mem

def load (m : Mem w) : BitVec w → Nat → List Byte
  | _, 0 => []
  | a, n + 1 => m a :: load m (a + 1) n

def store (m : Mem w) : BitVec w → List Byte → Mem w
  | _, [] => m
  | a, b :: bs => store (Function.update m a b) (a + 1) bs

@[simp] theorem load_zero (m : Mem w) (a : BitVec w) : m.load a 0 = [] := rfl

@[simp] theorem store_nil (m : Mem w) (a : BitVec w) : m.store a [] = m := rfl

@[simp] theorem length_load (m : Mem w) (a : BitVec w) (n : Nat) : (m.load a n).length = n := by
  induction n generalizing a with
  | zero => rfl
  | succ n ih => simp only [load, List.length_cons, ih]

theorem load_succ (m : Mem w) (a : BitVec w) (n : Nat) :
    m.load a (n + 1) = m a :: m.load (a + 1) n := rfl

theorem load_add (m : Mem w) (a : BitVec w) (n k : Nat) :
    m.load a (n + k) = m.load a n ++ m.load (a + BitVec.ofNat w n) k := by
  induction n generalizing a with
  | zero => simp
  | succ n ih =>
    rw [Nat.succ_add, load_succ, load_succ, ih, List.cons_append, add_one_add_ofNat]

theorem getElem_load (m : Mem w) (a : BitVec w) (n i : Nat) (h : i < (m.load a n).length) :
    (m.load a n)[i] = m (a + BitVec.ofNat w i) := by
  induction n generalizing a i with
  | zero => simp at h
  | succ n ih =>
    cases i with
    | zero => simp [load]
    | succ i =>
      simp only [load, List.getElem_cons_succ]
      rw [ih, add_one_add_ofNat]

theorem getD_load (m : Mem w) (a : BitVec w) {n i : Nat} (hi : i < n) :
    (m.load a n).getD i 0 = m (a + BitVec.ofNat w i) := by
  have hlen : i < (m.load a n).length := by rwa [length_load]
  rw [List.getD_eq_getElem?_getD, List.getElem?_eq_getElem hlen, Option.getD_some, getElem_load]

/-- Inside a stored block the new bytes are read, everything else is as it was. -/
theorem store_apply {bs : List Byte} (hbs : bs.length ≤ 2 ^ w) (m : Mem w) (a x : BitVec w) :
    m.store a bs x = if (x - a).toNat < bs.length then bs.getD (x - a).toNat 0 else m x := by
  induction bs generalizing m a with
  | nil => simp [store]
  | cons b bs ih =>
    simp only [List.length_cons] at hbs ⊢
    rw [store, ih (by omega)]
    by_cases hxa : x = a
    · -- the first byte: the rest of the block would have to wrap all the way round
      subst hxa
      have hlast := toNat_sub_succ_self x
      rw [if_neg (by omega), Function.update_self]
      simp
    · rw [toNat_sub_of_ne hxa, Function.update_of_ne hxa]
      simp only [List.getD_cons_succ, Nat.add_lt_add_iff_right]

@[simp] theorem load_store {bs : List Byte} (hbs : bs.length ≤ 2 ^ w) (m : Mem w)
    (a : BitVec w) : (m.store a bs).load a bs.length = bs := by
  apply List.ext_getElem (by simp)
  intro i hi hi'
  have hsub : (a + BitVec.ofNat w i - a).toNat = i := by
    rw [show a + BitVec.ofNat w i - a = BitVec.ofNat w i by ring, BitVec.toNat_ofNat]
    exact Nat.mod_eq_of_lt (by omega)
  rw [getElem_load, store_apply hbs, hsub, if_pos hi']
  simp [hi']

/-- The bytes `bs` stand in `m` from address `a` on. -/
def At (m : Mem w) (a : BitVec w) (bs : List Byte) : Prop := m.load a bs.length = bs

theorem at_append {m : Mem w} {a : BitVec w} {xs ys : List Byte} :
    m.At a (xs ++ ys) ↔ m.At a xs ∧ m.At (a + BitVec.ofNat w xs.length) ys := by
  unfold At
  rw [List.length_append, load_add]
  constructor
  · intro h
    exact List.append_inj h (by simp)
  · rintro ⟨hx, hy⟩
    rw [hx, hy]

theorem at_cons {m : Mem w} {a : BitVec w} {b : Byte} {bs : List Byte} :
    m.At a (b :: bs) ↔ m a = b ∧ m.At (a + 1) bs := by
  simp only [At, List.length_cons, load_succ, List.cons.injEq]

theorem isPrefix_of_at {m : Mem w} {a : BitVec w} {xs ys : List Byte} (hx : m.At a xs)
    (hy : m.At a ys) (hlen : xs.length ≤ ys.length) : xs <+: ys := by
  obtain ⟨k, hk⟩ := Nat.exists_eq_add_of_le hlen
  unfold At at hx hy
  rw [hk, load_add, hx] at hy
  exact ⟨_, hy⟩

theorem getElem_of_at {m : Mem w} {a : BitVec w} {bs : List Byte} (h : m.At a bs) {i : Nat}
    (hi : i < bs.length) : m (a + BitVec.ofNat w i) = bs[i] := by
  rw [← getElem_load m a bs.length i (by rw [length_load]; exact hi)]
  exact List.getElem_of_eq h _

theorem at_of_getElem {m : Mem w} {a : BitVec w} {bs : List Byte}
    (h : ∀ i (hi : i < bs.length), m (a + BitVec.ofNat w i) = bs[i]) : m.At a bs := by
  apply List.ext_getElem (length_load ..)
  intro i hi hi'
  rw [getElem_load]
  exact h i hi'

theorem at_congr {m m' : Mem w} {a : BitVec w} {bs : List Byte} (h : m.At a bs)
    (hsame : ∀ i < bs.length, m' (a + BitVec.ofNat w i) = m (a + BitVec.ofNat w i)) : m'.At a bs :=
  at_of_getElem fun i hi => (hsame i hi).trans (getElem_of_at h hi)

theorem toNat_sub_add_ofNat {a x : BitVec w} {n : Nat} (h : n ≤ (x - a).toNat) :
    (x - (a + BitVec.ofNat w n)).toNat = (x - a).toNat - n := by
  have hlt := (x - a).isLt
  rw [sub_add_eq_sub_sub, BitVec.toNat_sub_of_le, BitVec.toNat_ofNat, Nat.mod_eq_of_lt (by omega)]
  rw [BitVec.le_def, BitVec.toNat_ofNat, Nat.mod_eq_of_lt (by omega)]
  exact h

theorem toNat_add_ofNat_sub (a : BitVec w) {i : Nat} (hi : i < 2 ^ w) :
    (a + BitVec.ofNat w i - a).toNat = i := by
  rw [add_sub_cancel_left, BitVec.toNat_ofNat, Nat.mod_eq_of_lt hi]

theorem store_of_outside {bs : List Byte} (m : Mem w) {a x : BitVec w} {n : Nat}
    (h : n + bs.length ≤ (x - a).toNat) : m.store (a + BitVec.ofNat w n) bs x = m x := by
  have hlt := (x - a).isLt
  have hoff := toNat_sub_add_ofNat (show n ≤ (x - a).toNat by omega)
  rw [store_apply (by omega), if_neg (by omega)]

theorem at_store {m : Mem w} {a : BitVec w} {xs old ys : List Byte} (new : List Byte)
    (hnew : new.length = old.length) (h : m.At a (xs ++ (old ++ ys)))
    (hlen : (xs ++ (old ++ ys)).length ≤ 2 ^ w) :
    (m.store (a + BitVec.ofNat w xs.length) new).At a (xs ++ (new ++ ys)) := by
  simp only [List.length_append] at hlen
  apply at_of_getElem
  intro i hi
  simp only [List.length_append] at hi
  have hoff := toNat_add_ofNat_sub a (show i < 2 ^ w by omega)
  have hsame := getElem_of_at h (i := i) (by simp only [List.length_append]; omega)
  rw [store_apply (by omega)]
  by_cases hbefore : i < xs.length
  · have hfar : ¬ (a + BitVec.ofNat w i - (a + BitVec.ofNat w xs.length)).toNat < new.length := by
      rcases Nat.eq_zero_or_pos new.length with hzero | hpos
      · omega
      · -- the distance is taken around the end of the address space
        rw [add_sub_add_left_eq_sub, BitVec.toNat_sub, BitVec.toNat_ofNat, BitVec.toNat_ofNat,
          Nat.mod_eq_of_lt (show xs.length < 2 ^ w by omega),
          Nat.mod_eq_of_lt (show i < 2 ^ w by omega), Nat.mod_eq_of_lt (by omega)]
        omega
    rw [if_neg hfar, hsame, List.getElem_append_left hbefore, List.getElem_append_left hbefore]
  · have hinside := toNat_sub_add_ofNat (n := xs.length)
      (show xs.length ≤ (a + BitVec.ofNat w i - a).toNat by omega)
    rw [hoff] at hinside
    rw [hinside, List.getElem_append_right (by omega)]
    by_cases hin : i - xs.length < new.length
    · rw [if_pos hin, List.getElem_append_left hin, List.getD_eq_getElem?_getD,
        List.getElem?_eq_getElem hin, Option.getD_some]
    · rw [if_neg hin, hsame, List.getElem_append_right (by omega),
        List.getElem_append_right (by omega), List.getElem_append_right (by omega)]
      simp only [hnew]

/-! ### Strings in memory -/

/-- The bytes before the first NUL among the next `n`. -/
def strlenFrom (m : Mem w) : Nat → BitVec w → Nat
  | 0, _ => 0
  | n + 1, a => if m a = 0 then 0 else strlenFrom m n (a + 1) + 1

def strlen (m : Mem w) (a : BitVec w) : Nat := strlenFrom m (2 ^ w) a

theorem strlenFrom_eq {m : Mem w} {s : List Byte} (hs : ∀ b ∈ s, b ≠ 0) :
    ∀ {n a}, m.At a (s ++ [0]) → s.length < n → strlenFrom m n a = s.length := by
  induction s with
  | nil =>
    intro n a hat hn
    obtain ⟨n, rfl⟩ := Nat.exists_eq_succ_of_ne_zero (Nat.ne_of_gt hn)
    exact if_pos (at_cons.mp hat).1
  | cons b s ih =>
    intro n a hat hn
    obtain ⟨n, rfl⟩ := Nat.exists_eq_succ_of_ne_zero (Nat.ne_of_gt (Nat.zero_lt_of_lt hn))
    obtain ⟨hb, hrest⟩ := at_cons.mp hat
    have hne : m a ≠ 0 := by
      rw [hb]
      exact hs b (by simp)
    rw [strlenFrom, if_neg hne, ih (fun c hc => hs c (by simp [hc])) hrest (by simpa using hn)]
    rfl

theorem strlen_eq {m : Mem w} {s : List Byte} {a : BitVec w} (hs : ∀ b ∈ s, b ≠ 0)
    (hat : m.At a (s ++ [0])) (hlen : s.length < 2 ^ w) : m.strlen a = s.length :=
  strlenFrom_eq hs hat hlen

/-- The characters of the C string at an address. -/
def cstring (m : Mem w) (a : BitVec w) : List Byte := m.load a (m.strlen a)

theorem cstring_eq {m : Mem w} {s : List Byte} {a : BitVec w} (hs : ∀ b ∈ s, b ≠ 0)
    (hat : m.At a (s ++ [0])) (hlen : s.length < 2 ^ w) : m.cstring a = s := by
  rw [cstring, strlen_eq hs hat hlen]
  exact (at_append.mp hat).1

theorem length_le_strlenFrom {m : Mem w} {s : List Byte} (hs : ∀ b ∈ s, b ≠ 0) :
    ∀ {n a}, m.At a s → s.length ≤ n → s.length ≤ strlenFrom m n a := by
  induction s with
  | nil =>
    intro n a _ _
    exact Nat.zero_le _
  | cons b s ih =>
    intro n a hat hn
    obtain ⟨n, rfl⟩ := Nat.exists_eq_succ_of_ne_zero (Nat.ne_of_gt (Nat.zero_lt_of_lt hn))
    obtain ⟨hb, hrest⟩ := at_cons.mp hat
    have hne : m a ≠ 0 := by
      rw [hb]
      exact hs b (by simp)
    rw [strlenFrom, if_neg hne]
    exact Nat.succ_le_succ (ih (fun c hc => hs c (by simp [hc])) hrest (Nat.le_of_succ_le_succ hn))

theorem findIdx?_load {m : Mem w} {a : BitVec w} {xs : List Byte} {b : Byte} (hxs : b ∉ xs)
    (hat : m.At a (xs ++ [b])) {n : Nat} (hn : xs.length < n) :
    (m.load a n).findIdx? (· == b) = some xs.length := by
  obtain ⟨k, rfl⟩ := Nat.exists_eq_add_of_le (Nat.succ_le_of_lt hn)
  have hblock : m.load a (xs.length + 1) = xs ++ [b] := by
    have hload := hat
    rw [At, List.length_append, List.length_singleton] at hload
    exact hload
  rw [load_add, Nat.succ_eq_add_one, hblock, List.findIdx?_append, List.findIdx?_append]
  have hnone : xs.findIdx? (· == b) = none := by
    rw [List.findIdx?_eq_none_iff]
    intro x hx
    have hne : x ≠ b := fun h => hxs (h ▸ hx)
    simpa using hne
  simp [hnone]

end Mem

end MiniHaywire
