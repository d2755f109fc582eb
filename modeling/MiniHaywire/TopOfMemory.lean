import MiniHaywire.Bytes
import MiniHaywire.Region
import MiniHaywire.Run

/-!
# Allocation from the top of memory

`top_of_memory_alloc` shrinks `mem_size` and hands out what it cut off, with one
guard page kept between the usable memory and the blocks.  The first call also
cuts the guard page off; every later call lets it slide down by returning an
address one page up.

Both branches come to the same: the block ends where the last one started
(`BootMem.lowest`), and the guard page is the page below it.
-/

namespace MiniHaywire.Kboot

def pageSize : U32 := 0x1000

/-- The two fields of `cur_boot_args` that describe memory, and the static flag of
    `top_of_memory_alloc`. -/
structure BootMem where
  physBase : U32
  memSize : U32
  guardPageInserted : Bool
deriving DecidableEq

def topOfMemoryAlloc (size : U32) (s : BootMem) : U32 × BootMem :=
  let memSize := s.memSize - alignUp size pageSize
  let ret := s.physBase + memSize
  if !s.guardPageInserted then
    (ret, { s with memSize := memSize - pageSize, guardPageInserted := true })
  else
    -- the guard page is already there: it moves down, and the block is above it
    (ret + pageSize, { s with memSize := memSize })

def blockSize (size : U32) : Nat := roundUp 0x1000 size.toNat

def BootMem.usable (s : BootMem) : Region 32 := ⟨s.physBase, s.memSize.toNat⟩

/-- The page behind the usable RAM. -/
def BootMem.guardPage (s : BootMem) : Region 32 := ⟨s.physBase + s.memSize, 0x1000⟩

/-- Where the blocks start: the end of the memory, or of the guard page once there is one. -/
def BootMem.lowest (s : BootMem) : U32 :=
  s.physBase + s.memSize + if s.guardPageInserted then pageSize else 0

theorem alignUp_pageSize (size : U32) :
    alignUp size pageSize = BitVec.ofNat 32 (blockSize size) :=
  alignUp_eq (k := 12) (by decide) size

/-- One call: the block is right below the last one, whichever branch was taken. -/
theorem topOfMemoryAlloc_spec (size : U32) (s : BootMem) :
    (topOfMemoryAlloc size s).1 + BitVec.ofNat 32 (blockSize size) = s.lowest ∧
      (topOfMemoryAlloc size s).2.lowest = (topOfMemoryAlloc size s).1 ∧
      (topOfMemoryAlloc size s).2.physBase = s.physBase ∧
      (topOfMemoryAlloc size s).2.guardPageInserted = true := by
  obtain ⟨physBase, memSize, guard⟩ := s
  rw [← alignUp_pageSize]
  cases guard with
  | false =>
    refine ⟨?_, ?_, rfl, rfl⟩
    · change physBase + (memSize - alignUp size pageSize) + alignUp size pageSize =
        physBase + memSize + 0
      ring
    · change physBase + (memSize - alignUp size pageSize - pageSize) + pageSize =
        physBase + (memSize - alignUp size pageSize)
      ring
  | true =>
    refine ⟨?_, rfl, rfl, rfl⟩
    change physBase + (memSize - alignUp size pageSize) + pageSize + alignUp size pageSize =
      physBase + memSize + pageSize
    ring

def blocks (sizes : List U32) (s : BootMem) : List (Region 32) :=
  List.zipWith Region.mk (run topOfMemoryAlloc sizes s).1 (sizes.map blockSize)

theorem blocks_cons (size : U32) (sizes : List U32) (s : BootMem) :
    blocks (size :: sizes) s =
      ⟨(topOfMemoryAlloc size s).1, blockSize size⟩ ::
        blocks sizes (topOfMemoryAlloc size s).2 := rfl

@[simp] theorem map_size_blocks (sizes : List U32) (s : BootMem) :
    (blocks sizes s).map Region.size = sizes.map blockSize := by
  induction sizes generalizing s with
  | nil => rfl
  | cons size sizes ih => rw [blocks_cons, List.map_cons, ih, List.map_cons]

/-- A whole run: the blocks go down without a gap from where they started. -/
theorem blocks_descending (sizes : List U32) (s : BootMem) :
    Region.Descending s.lowest (blocks sizes s) ∧
      (run topOfMemoryAlloc sizes s).2.lowest +
        BitVec.ofNat 32 (sizes.map blockSize).sum = s.lowest ∧
      (run topOfMemoryAlloc sizes s).2.physBase = s.physBase ∧
      (sizes ≠ [] → (run topOfMemoryAlloc sizes s).2.guardPageInserted = true) := by
  suffices h : Region.Descending s.lowest (blocks sizes s) ∧
      (run topOfMemoryAlloc sizes s).2.lowest +
        BitVec.ofNat 32 (sizes.map blockSize).sum = s.lowest ∧
      (run topOfMemoryAlloc sizes s).2.physBase = s.physBase ∧
      ((s.guardPageInserted = true ∨ sizes ≠ []) →
        (run topOfMemoryAlloc sizes s).2.guardPageInserted = true) by
    obtain ⟨hdesc, hlow, hbase, hguard⟩ := h
    exact ⟨hdesc, hlow, hbase, fun hne => hguard (Or.inr hne)⟩
  induction sizes generalizing s with
  | nil => exact ⟨trivial, BitVec.add_zero _, rfl, fun h => h.resolve_right (by simp)⟩
  | cons size sizes ih =>
    obtain ⟨hend, hlowest, hbase, hguard⟩ := topOfMemoryAlloc_spec size s
    obtain ⟨hdesc, hsum, hbase', hguard'⟩ := ih (topOfMemoryAlloc size s).2
    rw [hlowest] at hdesc hsum
    rw [run_cons, blocks_cons]
    refine ⟨⟨hend, hdesc⟩, ?_, hbase'.trans hbase, fun _ => hguard' (Or.inl hguard)⟩
    rw [List.map_cons, List.sum_cons, BitVec.ofNat_add, ← hend, ← hsum]
    ring

/-! ### The layout of the memory -/

section Layout

variable (base : U32) {memSize : U32} {sizes : List U32}

theorem memSize_run (hfit : (sizes.map blockSize).sum + 0x1000 ≤ memSize.toNat)
    (hne : sizes ≠ []) :
    (run topOfMemoryAlloc sizes ⟨base, memSize, false⟩).2.memSize.toNat +
      (0x1000 + (sizes.map blockSize).sum) = memSize.toNat := by
  obtain ⟨-, hlow, hbase, hguard⟩ := blocks_descending sizes ⟨base, memSize, false⟩
  have hlt := memSize.isLt
  simp only [BootMem.lowest, hbase, hguard hne, if_true, Bool.false_eq_true, if_false] at hlow
  have hleft : (run topOfMemoryAlloc sizes ⟨base, memSize, false⟩).2.memSize =
      memSize - BitVec.ofNat 32 (0x1000 + (sizes.map blockSize).sum) := by
    rw [BitVec.ofNat_add, show BitVec.ofNat 32 0x1000 = pageSize from rfl]
    have hcancel := congrArg (· - base - pageSize - BitVec.ofNat 32 (sizes.map blockSize).sum) hlow
    ring_nf at hcancel ⊢
    exact hcancel
  rw [hleft, BitVec.toNat_sub_of_le, BitVec.toNat_ofNat, Nat.mod_eq_of_lt (by omega)]
  · omega
  · rw [BitVec.le_def, BitVec.toNat_ofNat, Nat.mod_eq_of_lt (by omega)]
    omega

/-- The usable RAM, the guard page and the blocks, in ascending order, cut up the memory
    there was. -/
theorem partition_run (hfit : (sizes.map blockSize).sum + 0x1000 ≤ memSize.toNat)
    (hne : sizes ≠ []) :
    Region.Partition ⟨base, memSize.toNat⟩
      ((run topOfMemoryAlloc sizes ⟨base, memSize, false⟩).2.usable ::
        (run topOfMemoryAlloc sizes ⟨base, memSize, false⟩).2.guardPage ::
          (blocks sizes ⟨base, memSize, false⟩).reverse) := by
  obtain ⟨hdesc, hlow, hbase, hguard⟩ := blocks_descending sizes ⟨base, memSize, false⟩
  have hleft := memSize_run base hfit hne
  have hlt := memSize.isLt
  set left := (run topOfMemoryAlloc sizes ⟨base, memSize, false⟩).2 with hleft_def
  have hpieces : left.usable :: left.guardPage :: (blocks sizes ⟨base, memSize, false⟩).reverse =
      Region.layout base (left.memSize.toNat :: 0x1000 :: (sizes.map blockSize).reverse) := by
    have hstart : base + left.memSize + BitVec.ofNat 32 0x1000 =
        BootMem.lowest ⟨base, memSize, false⟩ - BitVec.ofNat 32 (sizes.map blockSize).sum := by
      rw [← hlow, BootMem.lowest, hbase, hguard hne, if_pos rfl]
      exact (add_sub_cancel_right _ _).symm
    rw [hdesc.reverse, map_size_blocks, ← hstart, BootMem.usable, BootMem.guardPage, hbase]
    simp only [Region.layout, BitVec.ofNat_toNat, BitVec.setWidth_eq]
  have hsum : (left.memSize.toNat :: 0x1000 :: (sizes.map blockSize).reverse).sum =
      memSize.toNat := by
    rw [List.sum_cons, List.sum_cons, List.sum_reverse]
    exact hleft
  rw [hpieces, ← hsum]
  apply Region.partition_layout
  omega

end Layout

end MiniHaywire.Kboot
