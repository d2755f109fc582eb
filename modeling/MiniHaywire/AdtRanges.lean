import MiniHaywire.AdtPath

/-!
# Register addresses

`adt_get_reg` reads an entry of a node's `reg` property and translates its address
through the `ranges` of the ancestors.  Three widths meet in one `ranges` entry: the
address cells of the bus, those of its parent, and the size cells of the bus.

Over trees the translation is a fold in natural numbers.  The theorem is that the
loop computes it in 64 bits, as long as every entry ends below `2^64`.
-/

namespace MiniHaywire.Adt

/-! ### The translation -/

/-- A node that declares the widths of its children's addresses and sizes. -/
structure Bus where
  tree : AdtTree
  addr : Nat
  size : Nat
  addr_pos : 1 ≤ addr
  addr_le : addr ≤ 2
  size_le : size ≤ 2
  addr_value : tree.value? addressCells = some (leWord (BitVec.ofNat 32 addr))
  size_value : tree.value? sizeCells = some (leWord (BitVec.ofNat 32 size))

/-- The address and the size in entry `idx` of a `reg` property below a bus. -/
def Bus.reg (b : Bus) (value : List Byte) (idx : Nat) : Nat × Nat :=
  let off := 4 * (idx * (b.addr + b.size))
  (field value off (4 * b.addr), field value (off + 4 * b.addr) (4 * b.size))

structure RangeEntry where
  child : Nat
  parent : Nat
  size : Nat
deriving DecidableEq

/-- Neither side of the entry reaches the end of the 64-bit addresses. -/
def RangeEntry.Fits (e : RangeEntry) : Prop :=
  e.child + e.size < 2 ^ 64 ∧ e.parent + e.size < 2 ^ 64

def RangeEntry.contains (e : RangeEntry) (addr size : Nat) : Bool :=
  e.child ≤ addr ∧ addr + size ≤ e.child + e.size

def Bus.entryCells (b parent : Bus) : Nat := b.addr + parent.addr + b.size

def Bus.entry (b parent : Bus) (value : List Byte) (i : Nat) : RangeEntry :=
  let off := 4 * (i * b.entryCells parent)
  { child := field value off (4 * b.addr)
    parent := field value (off + 4 * b.addr) (4 * parent.addr)
    size := field value (off + 4 * (b.addr + parent.addr)) (4 * b.size) }

def Bus.ranges (b parent : Bus) : Option (List RangeEntry) :=
  (b.tree.value? rangesName).map fun value =>
    (List.range (value.length / (4 * b.entryCells parent))).map (b.entry parent value)

/-- The first entry that contains the block moves it. -/
def translate (size : Nat) (es : List RangeEntry) (addr : Nat) : Nat :=
  match es.find? (·.contains addr size) with
  | none => addr
  | some e => addr - e.child + e.parent

/-- The translation on the way up, up to the first bus without `ranges`. -/
def translateUp (root : Bus) (size : Nat) : List Bus → Nat → Nat
  | [], addr => addr
  | b :: up, addr =>
    match b.ranges (up.headD root) with
    | none => addr
    | some es => translateUp root size up (translate size es addr)

/-- The test of the loop, in 64 bits. -/
def RangeEntry.covers (e : RangeEntry) (addr size : U64) : Bool :=
  BitVec.ofNat 64 e.child ≤ addr ∧
    addr + size ≤ BitVec.ofNat 64 e.child + BitVec.ofNat 64 e.size

def translate64 (size : U64) (es : List RangeEntry) (addr : U64) : U64 :=
  match es.find? (·.covers addr size) with
  | none => addr
  | some e => addr - BitVec.ofNat 64 e.child + BitVec.ofNat 64 e.parent

def translateUp64 (root : Bus) (size : U64) : List Bus → U64 → U64
  | [], addr => addr
  | b :: up, addr =>
    match b.ranges (up.headD root) with
    | none => addr
    | some es => translateUp64 root size up (translate64 size es addr)

def RangesFit (root : Bus) : List Bus → Prop
  | [] => True
  | b :: up => (∀ es, b.ranges (up.headD root) = some es → ∀ e ∈ es, e.Fits) ∧ RangesFit root up

/-! ### Cells in memory -/

theorem getCells_succ (adt : Blob) (src : U32) (k : Nat) :
    getCells adt src (k + 1) = getCells adt src k |||
      (read32 adt (src + BitVec.ofNat 32 (4 * k))).setWidth 64 <<< (32 * k) := by
  rw [getCells, List.range_succ, List.foldl_append]
  rfl

theorem toNat_getCells (adt : Blob) (src : U32) {k : Nat} (hk : k ≤ 2) :
    (getCells adt src k).toNat = leNat (adt.load src (4 * k)) := by
  induction k with
  | zero => rfl
  | succ k ih =>
    have hlow := leNat_lt (adt.load src (4 * k))
    have hhigh := leNat_lt (adt.load (src + BitVec.ofNat 32 (4 * k)) 4)
    rw [Mem.length_load] at hlow hhigh
    rw [show (256 : Nat) ^ 4 = 2 ^ 32 by norm_num] at hhigh
    have hpow : (256 : Nat) ^ (4 * k) = 2 ^ (32 * k) := by
      rw [show (256 : Nat) = 2 ^ 8 from rfl, ← pow_mul, ← Nat.mul_assoc]
    rw [hpow] at hlow
    have hword : ((read32 adt (src + BitVec.ofNat 32 (4 * k))).setWidth 64).toNat =
        leNat (adt.load (src + BitVec.ofNat 32 (4 * k)) 4) := by
      rw [read32, BitVec.toNat_setWidth, BitVec.toNat_ofNat, Nat.mod_eq_of_lt hhigh]
      exact Nat.mod_eq_of_lt (by omega)
    have hshift : leNat (adt.load (src + BitVec.ofNat 32 (4 * k)) 4) * 2 ^ (32 * k) < 2 ^ 64 := by
      obtain rfl | rfl : k = 0 ∨ k = 1 := by omega
      · omega
      · omega
    rw [getCells_succ, BitVec.toNat_or, BitVec.toNat_shiftLeft, ih (by omega), hword,
      Nat.shiftLeft_eq, Nat.mod_eq_of_lt hshift, ← Nat.shiftLeft_eq, Nat.or_comm,
      ← Nat.shiftLeft_add_eq_or_of_lt hlow, Nat.shiftLeft_eq, Nat.mul_succ, Mem.load_add,
      leNat_append, Mem.length_load, hpow]
    ring

theorem load_field {adt : Blob} {v : Nat} {value : List Byte} (h : Holds adt v value)
    {off len : Nat} (hlen : off + len ≤ value.length) :
    adt.load (BitVec.ofNat 32 (v + off)) len = (value.drop off).take len := by
  rw [← List.take_append_drop off value, ← List.take_append_drop len (value.drop off)] at h
  have hmid := (holds_append.mp (holds_append.mp h).2).1
  rw [List.length_take, Nat.min_eq_left (by omega)] at hmid
  have hload : adt.load (BitVec.ofNat 32 (v + off)) ((value.drop off).take len).length =
      (value.drop off).take len := hmid
  rw [List.length_take, List.length_drop, Nat.min_eq_left (by omega)] at hload
  exact hload

theorem getCells_field {adt : Blob} {v : Nat} {value : List Byte} (h : Holds adt v value)
    {off k : Nat} (hk : k ≤ 2) (hlen : off + 4 * k ≤ value.length) :
    getCells adt (BitVec.ofNat 32 (v + off)) k = BitVec.ofNat 64 (field value off (4 * k)) := by
  have hcells := toNat_getCells adt (BitVec.ofNat 32 (v + off)) hk
  rw [load_field h hlen] at hcells
  rw [field, ← hcells, BitVec.ofNat_toNat, BitVec.setWidth_eq]

/-! ### One bus -/

theorem Bus.toNat_addr (b : Bus) : (BitVec.ofNat 32 b.addr).toNat = b.addr := by
  have hle := b.addr_le
  exact Nat.mod_eq_of_lt (by omega)

theorem Bus.toNat_size (b : Bus) : (BitVec.ofNat 32 b.size).toNat = b.size := by
  have hle := b.size_le
  exact Nat.mod_eq_of_lt (by omega)

theorem Bus.badCells_eq (b parent : Bus) :
    badCells (BitVec.ofNat 32 parent.addr) (BitVec.ofNat 32 b.size) = false := by
  have haddr : parent.addr = 1 ∨ parent.addr = 2 := by
    have hpos := parent.addr_pos
    have hle := parent.addr_le
    omega
  have hsize : b.size = 0 ∨ b.size = 1 ∨ b.size = 2 := by
    have hle := b.size_le
    omega
  rcases haddr with haddr | haddr <;> rcases hsize with hsize | hsize | hsize <;>
    rw [haddr, hsize] <;> decide

theorem ofNat_add_cells (x n : Nat) :
    BitVec.ofNat 32 x + 4 * BitVec.ofNat 32 n = BitVec.ofNat 32 (x + 4 * n) := by
  rw [BitVec.ofNat_add, BitVec.ofNat_mul]
  rfl

theorem ofNat_le_ofNat {x y : Nat} (hx : x < 2 ^ 64) (hy : y < 2 ^ 64) :
    BitVec.ofNat 64 x ≤ BitVec.ofNat 64 y ↔ x ≤ y := by
  rw [BitVec.le_def, BitVec.toNat_ofNat, BitVec.toNat_ofNat, Nat.mod_eq_of_lt hx,
    Nat.mod_eq_of_lt hy]

/-- The comparison in 64 bits is the one in the natural numbers, where nothing wraps. -/
theorem RangeEntry.contains_iff {e : RangeEntry} (he : e.Fits) {addr size : Nat}
    (hfit : addr + size < 2 ^ 64) :
    (BitVec.ofNat 64 e.child ≤ BitVec.ofNat 64 addr ∧
      BitVec.ofNat 64 addr + BitVec.ofNat 64 size ≤
        BitVec.ofNat 64 e.child + BitVec.ofNat 64 e.size) ↔ e.contains addr size = true := by
  obtain ⟨hchild, -⟩ := he
  rw [← BitVec.ofNat_add, ← BitVec.ofNat_add, ofNat_le_ofNat (by omega) (by omega),
    ofNat_le_ofNat hfit hchild, RangeEntry.contains, decide_eq_true_iff]

theorem RangeEntry.covers_eq {e : RangeEntry} (he : e.Fits) {addr size : Nat}
    (hfit : addr + size < 2 ^ 64) :
    e.covers (BitVec.ofNat 64 addr) (BitVec.ofNat 64 size) = e.contains addr size := by
  rw [Bool.eq_iff_iff, ← RangeEntry.contains_iff he hfit, RangeEntry.covers, decide_eq_true_iff]

theorem translate_cons (size : Nat) (e : RangeEntry) (es : List RangeEntry) (addr : Nat) :
    translate size (e :: es) addr =
      if e.contains addr size then addr - e.child + e.parent else translate size es addr := by
  unfold translate
  by_cases hin : e.contains addr size = true
  · rw [if_pos hin, List.find?_cons_of_pos (by exact hin)]
  · rw [if_neg hin, List.find?_cons_of_neg (by exact hin)]

theorem translate64_cons (size : U64) (e : RangeEntry) (es : List RangeEntry) (addr : U64) :
    translate64 size (e :: es) addr =
      if e.covers addr size then addr - BitVec.ofNat 64 e.child + BitVec.ofNat 64 e.parent
      else translate64 size es addr := by
  unfold translate64
  by_cases hin : e.covers addr size = true
  · rw [if_pos hin, List.find?_cons_of_pos (by exact hin)]
  · rw [if_neg hin, List.find?_cons_of_neg (by exact hin)]

theorem translate64_eq {size : Nat} {es : List RangeEntry} {addr : Nat} (hes : ∀ e ∈ es, e.Fits)
    (hfit : addr + size < 2 ^ 64) :
    translate64 (BitVec.ofNat 64 size) es (BitVec.ofNat 64 addr) =
      BitVec.ofNat 64 (translate size es addr) := by
  induction es with
  | nil => rfl
  | cons e es ih =>
    obtain ⟨he, hes⟩ := List.forall_mem_cons.mp hes
    rw [translate64_cons, translate_cons, RangeEntry.covers_eq he hfit]
    by_cases hin : e.contains addr size = true
    · have hlow := (of_decide_eq_true hin).1
      rw [if_pos hin, if_pos hin, BitVec.ofNat_sub_ofNat_of_le _ _ (by omega) hlow,
        ← BitVec.ofNat_add]
    · rw [if_neg hin, if_neg hin, ih hes]

theorem translate_fits {size : Nat} {es : List RangeEntry} {addr : Nat} (hes : ∀ e ∈ es, e.Fits)
    (hfit : addr + size < 2 ^ 64) : translate size es addr + size < 2 ^ 64 := by
  induction es with
  | nil => exact hfit
  | cons e es ih =>
    rw [translate_cons]
    by_cases hin : e.contains addr size = true
    · rw [if_pos hin]
      obtain ⟨hlow, hhigh⟩ := of_decide_eq_true hin
      obtain ⟨-, hparent⟩ := hes e (List.mem_cons_self ..)
      omega
    · rw [if_neg hin]
      exact ih (fun e he => hes e (List.mem_cons_of_mem _ he))

section Ranges

variable {adt : Blob} {v : Nat} {value : List Byte} (hvalue : Holds adt v value) (b parent : Bus)

include hvalue

theorem getCells_entry {i : Nat} (hi : 4 * ((i + 1) * b.entryCells parent) ≤ value.length) :
    getCells adt (BitVec.ofNat 32 (v + 4 * (i * b.entryCells parent))) b.addr =
        BitVec.ofNat 64 (b.entry parent value i).child ∧
      getCells adt (BitVec.ofNat 32 (v + 4 * (i * b.entryCells parent) + 4 * b.addr)) parent.addr =
        BitVec.ofNat 64 (b.entry parent value i).parent ∧
      getCells adt (BitVec.ofNat 32 (v + 4 * (i * b.entryCells parent) +
          4 * (b.addr + parent.addr))) b.size =
        BitVec.ofNat 64 (b.entry parent value i).size := by
  have hcells : b.entryCells parent = b.addr + parent.addr + b.size := rfl
  rw [Nat.add_mul, Nat.one_mul] at hi
  refine ⟨getCells_field hvalue b.addr_le (by omega), ?_, ?_⟩
  · rw [Nat.add_assoc]
    exact getCells_field hvalue parent.addr_le (by omega)
  · rw [Nat.add_assoc]
    exact getCells_field hvalue b.size_le (by omega)

theorem rangeLoop_entries (addr size : U64) (n : Nat) :
    ∀ i, 4 * ((i + n) * b.entryCells parent) ≤ value.length →
      rangeLoop adt (BitVec.ofNat 32 b.addr) (BitVec.ofNat 32 parent.addr)
          (BitVec.ofNat 32 b.size) addr size n
          (BitVec.ofNat 32 (v + 4 * (i * b.entryCells parent))) =
        translate64 size ((List.range' i n).map (b.entry parent value)) addr := by
  induction n with
  | zero =>
    intro i _
    rfl
  | succ n ih =>
    intro i hlen
    have hle : (i + 1) * b.entryCells parent ≤ (i + (n + 1)) * b.entryCells parent :=
      Nat.mul_le_mul_right _ (by omega)
    obtain ⟨hchild, hparent, hsize⟩ := getCells_entry hvalue b parent (i := i) (by omega)
    have hrest := ih (i + 1) (by rw [Nat.add_right_comm, Nat.add_assoc]; exact hlen)
    -- the pointer moves past the three fields
    have hsum : BitVec.ofNat 32 b.addr + BitVec.ofNat 32 parent.addr =
        BitVec.ofNat 32 (b.addr + parent.addr) := (BitVec.ofNat_add ..).symm
    have hnext : BitVec.ofNat 32 (v + 4 * (i * b.entryCells parent)) +
        4 * (BitVec.ofNat 32 (b.addr + parent.addr) + BitVec.ofNat 32 b.size) =
          BitVec.ofNat 32 (v + 4 * ((i + 1) * b.entryCells parent)) := by
      rw [← BitVec.ofNat_add, ofNat_add_cells, Nat.add_assoc, ← Nat.mul_add, Nat.add_mul,
        Nat.one_mul]
      rfl
    unfold rangeLoop
    rw [b.toNat_addr, parent.toNat_addr, b.toNat_size, hsum, hnext, ofNat_add_cells,
      ofNat_add_cells, hchild, hparent, hsize, List.range'_succ, List.map_cons, translate64_cons,
      hrest]
    dsimp only
    by_cases hin : (b.entry parent value i).covers addr size = true
    · rw [if_pos hin, if_pos (of_decide_eq_true hin)]
    · rw [if_neg hin, if_neg (fun h => hin (decide_eq_true h))]

end Ranges

theorem toNat_rangeCnt (b parent : Bus) {len : Nat} (hlen : len < 2 ^ 20) :
    (BitVec.ofNat 32 len / (4 * (BitVec.ofNat 32 parent.addr + BitVec.ofNat 32 b.addr +
      BitVec.ofNat 32 b.size))).toNat = len / (4 * b.entryCells parent) := by
  have haddr := b.addr_le
  have hparent := parent.addr_le
  have hsize := b.size_le
  have hcells : b.entryCells parent = parent.addr + b.addr + b.size := by
    rw [Bus.entryCells, Nat.add_comm b.addr]
  have hwidth : 4 * (BitVec.ofNat 32 parent.addr + BitVec.ofNat 32 b.addr +
      BitVec.ofNat 32 b.size) = BitVec.ofNat 32 (4 * b.entryCells parent) := by
    rw [← BitVec.ofNat_add, ← BitVec.ofNat_add, ← hcells, BitVec.ofNat_mul]
    rfl
  rw [hwidth, BitVec.toNat_udiv, BitVec.toNat_ofNat, BitVec.toNat_ofNat,
    Nat.mod_eq_of_lt (by omega), Nat.mod_eq_of_lt (by omega)]

/-! ### The way up -/

section Climb

variable {adt : Blob} {root : Bus} (hroot : Stored adt 0 root.tree)

include hroot

theorem stored_headD {offs : List Nat} {up : List Bus}
    (hup : List.Forall₂ (fun o (b : Bus) => Stored adt o b.tree) offs up) :
    ∃ o, (offs.map (BitVec.ofNat 32)).headD 0 = BitVec.ofNat 32 o ∧
      Stored adt o (up.headD root).tree := by
  cases hup with
  | nil => exact ⟨0, rfl, hroot⟩
  | cons hb _ => exact ⟨_, rfl, hb⟩

theorem climb_translateUp64 {size : U64} {offs : List Nat} {up : List Bus}
    (hup : List.Forall₂ (fun o (b : Bus) => Stored adt o b.tree) offs up) :
    ∀ addr, climb adt size (offs.map (BitVec.ofNat 32))
          (BitVec.ofNat 32 (up.headD root).addr) (BitVec.ofNat 32 (up.headD root).size) addr =
        .ok (translateUp64 root size up addr) := by
  induction hup with
  | nil =>
    intro addr
    rfl
  | @cons o b offs up hb hup ih =>
    intro addr
    obtain ⟨o', hhead, hparent⟩ := stored_headD hroot hup
    rw [List.map_cons, List.headD_cons, climb, hhead, hparent.getpropU32 (up.headD root).addr_value,
      hparent.getpropU32 (up.headD root).size_value, translateUp64]
    cases hvalue : b.tree.value? rangesName with
    | none =>
      have hranges : b.ranges (up.headD root) = none := by rw [Bus.ranges, hvalue, Option.map_none]
      rw [hb.getprop_value_none hvalue, hranges]
    | some value =>
      obtain ⟨v, hget, hholds, hlen⟩ := hb.getprop_value hvalue
      have hranges : b.ranges (up.headD root) =
          some ((List.range (value.length / (4 * b.entryCells (up.headD root)))).map
            (b.entry (up.headD root) value)) := by
        rw [Bus.ranges, hvalue, Option.map_some]
      rw [hget, hranges]
      dsimp only
      rw [Bus.badCells_eq, if_neg (by decide), toNat_rangeCnt b _ hlen, List.range_eq_range']
      have hcount : 4 * ((0 + value.length / (4 * b.entryCells (up.headD root))) *
          b.entryCells (up.headD root)) ≤ value.length := by
        rw [Nat.zero_add, Nat.mul_left_comm]
        exact Nat.div_mul_le_self _ _
      have hloop := rangeLoop_entries hholds b (up.headD root) addr size _ 0 hcount
      rw [Nat.zero_mul, Nat.mul_zero, Nat.add_zero] at hloop
      rw [hloop]
      exact ih _

end Climb

theorem translateUp64_eq {root : Bus} {size : Nat} {up : List Bus} :
    ∀ {addr : Nat}, RangesFit root up → addr + size < 2 ^ 64 →
      translateUp64 root (BitVec.ofNat 64 size) up (BitVec.ofNat 64 addr) =
        BitVec.ofNat 64 (translateUp root size up addr) := by
  induction up with
  | nil =>
    intro addr _ _
    rfl
  | cons b up ih =>
    rintro addr ⟨hfits, hrest⟩ hfit
    rw [translateUp64, translateUp]
    cases hranges : b.ranges (up.headD root) with
    | none => rfl
    | some es =>
      have hes := hfits es hranges
      dsimp only
      rw [translate64_eq hes hfit]
      exact ih hrest (translate_fits hes hfit)

/-! ### The path -/

theorem le_of_mem_childOffsets {ts : List AdtTree} :
    ∀ {o o' : Nat}, o' ∈ childOffsets o ts → o ≤ o' := by
  induction ts with
  | nil =>
    intro o o' hmem
    cases hmem
  | cons t ts ih =>
    intro o o' hmem
    rcases List.mem_cons.mp hmem with rfl | hmem
    · exact Nat.le_refl _
    · exact (Nat.le_add_right _ _).trans (ih hmem)

theorem Node.reached {adt : Blob} {fuel : Nat} {cs : List (List Byte)} :
    ∀ {n m : Nat × AdtTree}, Node adt fuel n → m ∈ Adt.reached cs n →
      Node adt fuel m ∧ BitVec.ofNat 32 m.1 ≠ 0 := by
  induction cs with
  | nil =>
    intro n m _ hmem
    cases hmem
  | cons c cs ih =>
    intro n m hn hmem
    rw [Adt.reached] at hmem
    cases hchild : childNamed c n with
    | none =>
      rw [hchild] at hmem
      cases hmem
    | some n' =>
      rw [hchild] at hmem
      have hplaced : n' ∈ placed n := List.mem_of_find?_eq_some hchild
      have hn' := hn.child hplaced
      rcases List.mem_cons.mp hmem with rfl | hmem
      · refine ⟨hn', ?_⟩
        have hle := le_of_mem_childOffsets (List.of_mem_zip hplaced).1
        have hsmall := hn'.stored.small
        rw [childrenAt] at hle
        exact ofNat_ne_zero (by omega) (by omega)
      · exact ih hn' hmem

theorem forall₂_stored {adt : Blob} {ns : List (Nat × AdtTree)} :
    ∀ {up : List Bus}, ns.map Prod.snd = up.map Bus.tree → (∀ n ∈ ns, Stored adt n.1 n.2) →
      List.Forall₂ (fun o (b : Bus) => Stored adt o b.tree) (ns.map Prod.fst) up := by
  induction ns with
  | nil =>
    intro up heq _
    rw [List.map_nil, eq_comm, List.map_eq_nil_iff] at heq
    rw [heq]
    exact .nil
  | cons n ns ih =>
    intro up heq hn
    cases up with
    | nil => cases heq
    | cons b up =>
      rw [List.map_cons, List.map_cons, List.cons.injEq] at heq
      have hfirst := hn n (List.mem_cons_self ..)
      rw [heq.1] at hfirst
      exact .cons hfirst (ih heq.2 (fun m hm => hn m (List.mem_cons_of_mem _ hm)))

/-- The nodes on the way to a leaf are in their places, and no offset of them is the zero
    that ends the array. -/
theorem way_stored {adt : Blob} {ns : List (Nat × AdtTree)} {up : List Bus} {leaf : AdtTree}
    (hup : ns.map Prod.snd = (up.map Bus.tree).reverse ++ [leaf])
    (hns : ∀ m ∈ ns, Stored adt m.1 m.2 ∧ BitVec.ofNat 32 m.1 ≠ 0) :
    ∃ o offs, Stored adt o leaf ∧
      List.Forall₂ (fun o (b : Bus) => Stored adt o b.tree) offs up ∧
      (((ns.map fun n : Nat × AdtTree => BitVec.ofNat 32 n.1) ++ [0]).takeWhile (· ≠ 0)).reverse =
        (o :: offs).map (BitVec.ofNat 32) := by
  obtain ⟨above, last, rfl, habove, hlast⟩ := List.map_eq_append_iff.mp hup
  obtain ⟨n, rfl, rfl⟩ := List.map_eq_singleton_iff.mp hlast
  refine ⟨n.1, above.reverse.map Prod.fst, (hns n (by simp)).1, forall₂_stored ?_ ?_, ?_⟩
  · rw [List.map_reverse, habove, List.reverse_reverse]
  · intro m hm
    exact (hns m (by simp [List.mem_reverse.mp hm])).1
  · rw [List.takeWhile_append_of_pos]
    · simp [Function.comp_def]
    · intro x hx
      obtain ⟨m, hm, rfl⟩ := List.mem_map.mp hx
      exact decide_eq_true (hns m hm).2

/-! ### The register -/

theorem lo32_ofNat (x : Nat) : lo32 (BitVec.ofNat 64 x) = BitVec.ofNat 32 x :=
  BitVec.setWidth_ofNat_of_le (by decide) x

theorem Bus.ofNat_cells (b : Bus) (n : Nat) :
    BitVec.ofNat 32 n * (BitVec.ofNat 32 b.addr + BitVec.ofNat 32 b.size) =
      BitVec.ofNat 32 (n * (b.addr + b.size)) := by
  rw [← BitVec.ofNat_add, ← BitVec.ofNat_mul]

theorem Bus.ofNat_end (b : Bus) (idx : Nat) :
    (BitVec.ofNat 32 idx + 1) * (BitVec.ofNat 32 b.addr + BitVec.ofNat 32 b.size) * 4 =
      BitVec.ofNat 32 (4 * ((idx + 1) * (b.addr + b.size))) := by
  have hone : BitVec.ofNat 32 idx + 1 = BitVec.ofNat 32 (idx + 1) := (BitVec.ofNat_add ..).symm
  rw [hone, b.ofNat_cells, Nat.mul_comm 4, BitVec.ofNat_mul _ 4]
  rfl

theorem Bus.length_check (b : Bus) {len idx : Nat} (hlen : len < 2 ^ 20)
    (hsmall : 4 * ((idx + 1) * (b.addr + b.size)) < 2 ^ 32) :
    BitVec.ofNat 32 len < (BitVec.ofNat 32 idx + 1) *
        (BitVec.ofNat 32 b.addr + BitVec.ofNat 32 b.size) * 4 ↔
      len < 4 * ((idx + 1) * (b.addr + b.size)) := by
  rw [b.ofNat_end, BitVec.lt_def, BitVec.toNat_ofNat, BitVec.toNat_ofNat,
    Nat.mod_eq_of_lt (by omega), Nat.mod_eq_of_lt hsmall]

theorem Bus.reg_length (b : Bus) {len idx : Nat} (hlen : len < 2 ^ 20)
    (hidx : 4 * ((idx + 1) * (b.addr + b.size)) ≤ len) :
    BitVec.ofNat 32 len ≠ 0 ∧
      ¬ BitVec.ofNat 32 len < (BitVec.ofNat 32 idx + 1) *
        (BitVec.ofNat 32 b.addr + BitVec.ofNat 32 b.size) * 4 := by
  have hpos : 1 * 1 ≤ (idx + 1) * (b.addr + b.size) :=
    Nat.mul_le_mul (Nat.le_add_left _ _) (b.addr_pos.trans (Nat.le_add_right _ _))
  constructor
  · exact ofNat_ne_zero (by omega) (by omega)
  · rw [b.length_check hlen (by omega)]
    omega

theorem getCells_reg {adt : Blob} {v : Nat} {value : List Byte} (hvalue : Holds adt v value)
    (b : Bus) {idx : Nat} (hidx : 4 * ((idx + 1) * (b.addr + b.size)) ≤ value.length) :
    getCells adt (BitVec.ofNat 32 v + 4 * (BitVec.ofNat 32 idx *
        (BitVec.ofNat 32 b.addr + BitVec.ofNat 32 b.size))) b.addr =
        BitVec.ofNat 64 (b.reg value idx).1 ∧
      getCells adt (BitVec.ofNat 32 v + 4 * (BitVec.ofNat 32 idx *
        (BitVec.ofNat 32 b.addr + BitVec.ofNat 32 b.size)) + 4 * BitVec.ofNat 32 b.addr) b.size =
        BitVec.ofNat 64 (b.reg value idx).2 := by
  rw [Nat.add_mul, Nat.one_mul] at hidx
  rw [b.ofNat_cells, ofNat_add_cells, ofNat_add_cells, Nat.add_assoc]
  constructor
  · exact getCells_field hvalue b.addr_le (by omega)
  · exact getCells_field hvalue b.size_le (by omega)

/-- `adt_get_reg` for a node at `o` below the buses `up`. -/
theorem adtGetReg_stored {adt : Blob} {root : Bus} {up : List Bus} {leaf : AdtTree} {o : Nat}
    {offs : List Nat} {offsets : List U32} {prop value : List Byte} {idx : Nat}
    (hroot : Stored adt 0 root.tree) (hleaf : Stored adt o leaf)
    (hup : List.Forall₂ (fun o (b : Bus) => Stored adt o b.tree) offs up)
    (hpath : (offsets.takeWhile (· ≠ 0)).reverse = (o :: offs).map (BitVec.ofNat 32))
    (hvalue : leaf.value? prop = some value)
    (hidx : 4 * ((idx + 1) * ((up.headD root).addr + (up.headD root).size)) ≤ value.length)
    (paddr psize : Bool) :
    adtGetReg adt offsets prop (BitVec.ofNat 32 idx) paddr psize =
      let (addr, size) := (up.headD root).reg value idx
      ⟨0, if paddr then some (lo32 (translateUp64 root (BitVec.ofNat 64 size) up
          (BitVec.ofNat 64 addr))) else none,
        if psize then some (BitVec.ofNat 32 size) else none⟩ := by
  obtain ⟨o', hhead, hparent⟩ := stored_headD hroot hup
  obtain ⟨v, hget, hholds, hlen⟩ := hleaf.getprop_value hvalue
  obtain ⟨hzero, hshort⟩ := (up.headD root).reg_length hlen hidx
  obtain ⟨haddr, hsize⟩ := getCells_reg hholds (up.headD root) hidx
  rw [adtGetReg, hpath, List.map_cons]
  dsimp only
  rw [hhead, hparent.getpropU32 (up.headD root).addr_value,
    hparent.getpropU32 (up.headD root).size_value, Bus.badCells_eq, if_neg (by decide), hget]
  dsimp only
  rw [if_neg hzero, if_neg hshort, Bus.toNat_addr, Bus.toNat_size, haddr, hsize,
    climb_translateUp64 hroot hup]
  dsimp only
  rw [lo32_ofNat]

/-- **Register translation.** For a node below the root, with every ancestor declaring its widths
    and every entry ending below `2^64`, `adt_get_reg` returns 0 and stores the size of the entry
    and its address, translated by the `ranges` of each ancestor in turn. -/
theorem register_translation {adt : Blob} {fuel : Nat} {root : Bus} {up : List Bus}
    {leaf : Nat × AdtTree} {path prop value : List Byte} {idx : Nat}
    (hstored : Stored adt 0 root.tree) (hnamed : root.tree.named = true)
    (hheader : adtCheckHeader adt = 0) (hfuel : root.tree.depth ≤ fuel)
    (hpath : ∀ b ∈ path, b ≠ 0) (hresolve : resolve (components path) (0, root.tree) = some leaf)
    (hup : (reached (components path) (0, root.tree)).map Prod.snd =
      (up.map Bus.tree).reverse ++ [leaf.2])
    (hvalue : leaf.2.value? prop = some value)
    (hidx : 4 * ((idx + 1) * ((up.headD root).addr + (up.headD root).size)) ≤ value.length)
    (hreg : ((up.headD root).reg value idx).1 + ((up.headD root).reg value idx).2 < 2 ^ 64)
    (hranges : RangesFit root up) (paddr psize : Bool) :
    ∃ offsets, adtPathOffsetTrace adt fuel path = some (BitVec.ofNat 32 leaf.1, offsets) ∧
      adtGetReg adt offsets prop (BitVec.ofNat 32 idx) paddr psize =
        let (addr, size) := (up.headD root).reg value idx
        ⟨0, if paddr then some (BitVec.ofNat 32 (translateUp root size up addr)) else none,
          if psize then some (BitVec.ofNat 32 size) else none⟩ := by
  have hroot : Node adt fuel (0, root.tree) := ⟨hstored, hnamed, hfuel⟩
  have htrace := pathOffsetTrace_eq hheader hroot hpath
  rw [hresolve] at htrace
  refine ⟨_, htrace, ?_⟩
  obtain ⟨o, offs, hleaf, hbuses, hend⟩ := way_stored hup fun m hm =>
    ⟨(hroot.reached hm).1.stored, (hroot.reached hm).2⟩
  rw [adtGetReg_stored hstored hleaf hbuses hend hvalue hidx paddr psize]
  dsimp only
  rw [translateUp64_eq hranges hreg, lo32_ofNat]

/-! ### A device below a bus -/

def sampleRoot : Bus := ⟨sampleTree, 1, 1, by decide, by decide, by decide, rfl, rfl⟩

def sampleBus : Bus := ⟨firstChild sampleTree, 1, 1, by decide, by decide, by decide, rfl, rfl⟩

theorem register_translation_sampleTree :
    ∃ offsets, adtPathOffsetTrace (blobOf sampleTree.enc) 3 uartPath = some (312, offsets) ∧
      adtGetReg (blobOf sampleTree.enc) offsets (cstr ['r', 'e', 'g']) 0 true true =
        ⟨0, some 0x3A500000, some 0x1000⟩ := by
  let ranges := leWord (0 : U32) ++ leWord (0x38000000 : U32) ++ leWord (0x8000000 : U32)
  let reg := leWord (0x2500000 : U32) ++ leWord (0x1000 : U32)
  have hroot := node_busTree 1 1 ranges reg (by decide) (by decide)
  have hheader := header_busTree 1 1 ranges reg (by decide) (by decide)
  obtain ⟨hresolve, hreached⟩ := walk_busTree 1 1 ranges reg (by decide) (by decide)
  have hup : (reached (components uartPath) (0, sampleRoot.tree)).map Prod.snd =
      ([sampleBus].map Bus.tree).reverse ++ [firstChild (firstChild sampleTree)] :=
    congrArg (List.map Prod.snd) hreached
  have hranges : RangesFit sampleRoot [sampleBus] := by
    refine ⟨?_, trivial⟩
    intro es hes e he
    have hentries : sampleBus.ranges sampleRoot = some [⟨0, 0x38000000, 0x8000000⟩] := by
      decide +kernel
    rw [List.headD_nil, hentries] at hes
    cases hes
    rw [List.mem_singleton.mp he]
    exact ⟨by decide, by decide⟩
  have hentry : ([sampleBus].headD sampleRoot).reg reg 0 = (0x2500000, 0x1000) := by decide +kernel
  have hresult : translateUp sampleRoot 0x1000 [sampleBus] 0x2500000 = 0x3A500000 := by
    decide +kernel
  have hvalue : (firstChild (firstChild sampleTree)).value? (cstr ['r', 'e', 'g']) = some reg := rfl
  have hidx : 4 * ((0 + 1) * (sampleBus.addr + sampleBus.size)) ≤ reg.length := by decide
  obtain ⟨offsets, htrace, hget⟩ := register_translation hroot.stored hroot.named hheader
    hroot.depth (by decide) hresolve hup hvalue hidx (by rw [hentry]; decide) hranges true true
  have hoffset : BitVec.ofNat 32 (300 + 4 * ((ranges.length + 3) / 4)) = 312 := by decide
  rw [hoffset] at htrace
  refine ⟨offsets, htrace, ?_⟩
  rw [hentry] at hget
  dsimp only at hget
  rw [hresult] at hget
  exact hget

def edgeTree : AdtTree :=
  busTree 1 2
    (leWord (0xFFFFFFFFFFFFF000 : U64) ++ leWord (0x30000000 : U32) ++ leWord (0x1000 : U32))
    (leWord (0xFFFFFFFFFFFFF000 : U64) ++ leWord (0x800 : U32)) (by decide) (by decide)

def edgeRoot : Bus := ⟨edgeTree, 1, 1, by decide, by decide, by decide, rfl, rfl⟩

def edgeBus : Bus := ⟨firstChild edgeTree, 2, 1, by decide, by decide, by decide, rfl, rfl⟩

/-- A `ranges` entry may end at `2^64` itself: its end wraps to zero, the entry is
    passed over and the address stays what it was.  And the path of the root is
    refused, whatever registers the root has. -/
theorem register_translation_edge :
    (adtPathOffsetTrace (blobOf edgeTree.enc) 3 uartPath = some (316, [128, 316, 0]) ∧
      (firstChild (firstChild edgeTree)).value? (cstr ['r', 'e', 'g']) =
        some (leWord (0xFFFFFFFFFFFFF000 : U64) ++ leWord (0x800 : U32)) ∧
      edgeBus.reg (leWord (0xFFFFFFFFFFFFF000 : U64) ++ leWord (0x800 : U32)) 0 =
        (2 ^ 64 - 0x1000, 0x800) ∧
      edgeBus.ranges edgeRoot = some [⟨2 ^ 64 - 0x1000, 0x30000000, 0x1000⟩] ∧
      translateUp edgeRoot 0x800 [edgeBus] (2 ^ 64 - 0x1000) = 0x30000000 ∧
      adtGetReg (blobOf edgeTree.enc) [128, 316, 0] (cstr ['r', 'e', 'g']) 0 true true =
        ⟨0, some 0xFFFFF000, some 0x800⟩) ∧
    (adtPathOffsetTrace (blobOf regRoot.enc) 1 [0x2f] = some (0, [0]) ∧
      adtGetReg (blobOf regRoot.enc) [0] (cstr ['r', 'e', 'g']) 0 true true =
        ⟨-ADT_ERR_BADOFFSET, none, none⟩) := by
  refine ⟨⟨trace_busTree 1 2 _ _ (by decide) (by decide), rfl, ?_, ?_, ?_, ?_⟩, ?_, rfl⟩
  · decide +kernel
  · decide +kernel
  · decide +kernel
  · decide +kernel
  · decide +kernel

end MiniHaywire.Adt
