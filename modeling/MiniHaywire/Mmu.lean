import MiniHaywire.AdtRanges
import MiniHaywire.Region

/-!
# The page table

`mmu_init` fills a table of 1 MiB sections, one word for each, with identity
mappings: the windows of `/arm-io`, as its `ranges` property lists them, and the
RAM.  It reads `ranges` as triples of words; `adt_get_reg` reads the same property
by the cell counts of the nodes.  With one-cell addresses and sizes the two agree
(`windows`), so that a register the second finds in a window is in a section the
first has mapped.
-/

namespace MiniHaywire.Adt

/-! ### `mmu_add_mapping` -/

/-- The words from `__pgtables` on, by their index.  The table is the first 4096 of them. -/
abbrev Table := U32 → U32

def ATTR_SECTION : U32 := 0x2
def ATTR_BUFFERABLE : U32 := 0x4
def ATTR_CACHEABLE : U32 := 0x8
def ATTR_SHARABLE : U32 := 0x10000
def ATTR_NS : U32 := 0x80000

def AP_RW_ALL : U32 := 0b11

def SZ_1M : U32 := 0x100000

def putBit (descriptor : U32) (bit : Nat) (b : Bool) : U32 :=
  if b then descriptor ||| (1 : U32) <<< bit else descriptor &&& ~~~((1 : U32) <<< bit)

def mmuAddAp (descriptor perms : U32) : U32 :=
  let descriptor := putBit descriptor 10 (perms.getLsbD 0)
  let descriptor := putBit descriptor 11 (perms.getLsbD 1)
  putBit descriptor 15 (perms.getLsbD 2)

/-- The attribute bits that `mmu_add_mapping` gives every section. -/
def sectionAttr (perms attr : U32) : U32 :=
  mmuAddAp (attr &&& ~~~3) perms ||| (ATTR_SECTION ||| ATTR_NS)

/-- `while (index--) __pgtables[from_off++] = ((to_off++) << 20) | attr`. -/
def mapLoop (attr : U32) : Nat → U32 → U32 → Table → Table
  | 0, _, _, table => table
  | index + 1, fromOff, toOff, table =>
    mapLoop attr index (fromOff + 1) (toOff + 1)
      (Function.update table fromOff ((toOff <<< 20) ||| attr))

/-- `mmu_add_mapping`; a failed assertion is no result. -/
def mmuAddMapping (from_ to_ size perms attr : U32) (table : Table) : Option Table :=
  if to_ ≠ alignUp to_ SZ_1M then none
  else if from_ ≠ alignUp from_ SZ_1M then none
  else if size ≠ alignUp size SZ_1M then none
  else
    some (mapLoop (sectionAttr perms attr) (size >>> 20).toNat (from_ >>> 20) (to_ >>> 20) table)

/-! ### `mmu_init` -/

def armIo : List Byte := cstr ['/', 'a', 'r', 'm', '-', 'i', 'o']

def SCTLR_M : U32 := 0x1
def SCTLR_A : U32 := 0x2
def SCTLR_Z : U32 := 0x800
def SCTLR_I : U32 := 0x1000

structure Mmu where
  table : Table
  dacr : U32
  ttbr0 : U32
  ttbcr : U32
  sctlr : U32

def Mmu.active (m : Mmu) : Bool := m.sctlr &&& SCTLR_M != 0

/-- The end of `mmu_init`: client access for all domains, the table, and the control bits. -/
def Mmu.enable (m : Mmu) (pgtables : U32) (table : Table) : Mmu where
  table := table
  dacr := 0x55555555
  ttbr0 := pgtables
  ttbcr := 0
  sctlr := (m.sctlr &&& ~~~SCTLR_A) ||| (SCTLR_Z ||| SCTLR_M ||| SCTLR_I)

/-- The loop over the `ranges` of `/arm-io`, three words an entry. -/
def mapRanges (adt : Blob) : Nat → U32 → Table → Option Table
  | 0, _, table => some table
  | rangeCnt + 1, ranges, table => do
    let bus := read32 adt (ranges + 4)
    let size := read32 adt (ranges + 8)
    let table ← mmuAddMapping bus bus size AP_RW_ALL ATTR_BUFFERABLE table
    mapRanges adt rangeCnt (ranges + 12) table

/-- `mmu_init`, with the table at `pgtables` and the memory of the boot arguments. -/
def mmuInit (adt : Blob) (fuel : Nat) (pgtables physBase memSize : U32) (m : Mmu) :
    Option Mmu := do
  let node ← adtPathOffset adt fuel armIo
  if node.slt 0 then some m
  else
    match adtGetprop adt node rangesName with
    | none => some m
    | some (ranges, rangesLen) => do
      let table : Table := fun i => if i < 4096 then 0 else m.table i
      let table ← mapRanges adt (rangesLen / 12).toNat ranges table
      let table ← mmuAddMapping physBase physBase (alignUp memSize 0x1000000) AP_RW_ALL
        (ATTR_BUFFERABLE ||| ATTR_CACHEABLE ||| ATTR_SHARABLE) table
      some (m.enable pgtables table)

/-! ### Sections -/

/-- `d` maps section `i` to itself: a section descriptor with the base `i << 20`. -/
def IsSection (i d : U32) : Prop := d >>> 20 = i ∧ d &&& 3 = ATTR_SECTION

/-- Every entry of the table is empty or maps its own section. -/
def Identity (table : Table) : Prop := ∀ i, i < 4096 → table i = 0 ∨ IsSection i (table i)

theorem IsSection.ne_zero {i d : U32} (h : IsSection i d) : d ≠ 0 := by
  rintro rfl
  exact absurd h.2 (by decide)

theorem isSection_or {i attr : U32} (hi : i < 4096) (hbase : attr >>> 20 = 0)
    (htype : attr &&& 3 = ATTR_SECTION) : IsSection i ((i <<< 20) ||| attr) := by
  have hlt : i.toNat < 4096 := hi
  have hshift : (i <<< 20).toNat = i.toNat * 2 ^ 20 := by
    rw [BitVec.toNat_shiftLeft, Nat.shiftLeft_eq]
    exact Nat.mod_eq_of_lt (by omega)
  constructor
  · rw [BitVec.ushiftRight_or_distrib, hbase]
    apply Eq.trans BitVec.or_zero
    apply BitVec.eq_of_toNat_eq
    rw [BitVec.toNat_ushiftRight, hshift, Nat.shiftRight_eq_div_pow]
    omega
  · have hlow : (i <<< 20) &&& 3 = 0 := by
      apply BitVec.eq_of_toNat_eq
      rw [BitVec.toNat_and, hshift, show (3 : U32).toNat = 2 ^ 2 - 1 from rfl,
        Nat.and_two_pow_sub_one_eq_mod]
      change i.toNat * 2 ^ 20 % 2 ^ 2 = 0
      omega
    rw [BitVec.and_comm, BitVec.and_or_distrib_left, BitVec.and_comm 3, BitVec.and_comm 3, hlow,
      htype]
    exact BitVec.zero_or

theorem mapLoop_apply (attr : U32) {n : Nat} (hn : n < 2 ^ 32) (off : U32) (table : Table)
    (i : U32) :
    mapLoop attr n off off table i =
      if (i - off).toNat < n then (i <<< 20) ||| attr else table i := by
  induction n generalizing off table with
  | zero => simp [mapLoop]
  | succ n ih =>
    rw [mapLoop, ih (by omega)]
    by_cases hi : i = off
    · subst hi
      have hlast := toNat_sub_succ_self i
      rw [if_neg (by omega), Function.update_self, BitVec.sub_self]
      simp
    · rw [toNat_sub_of_ne hi, Function.update_of_ne hi]
      simp only [Nat.add_lt_add_iff_right]

theorem eq_alignUp {x : U32} (h : 2 ^ 20 ∣ x.toNat) : x = alignUp x SZ_1M :=
  (alignUp_of_dvd (k := 20) (by decide) h).symm

theorem mem_window {p size i : U32} (hp : 2 ^ 20 ∣ p.toNat) (hlow : p.toNat ≤ i.toNat * 2 ^ 20)
    (hhigh : i.toNat * 2 ^ 20 < p.toNat + size.toNat) (hsize : 2 ^ 20 ∣ size.toNat) :
    (i - p >>> 20).toNat < (size >>> 20).toNat := by
  have hstart : (p >>> 20).toNat = p.toNat / 2 ^ 20 := by
    rw [BitVec.toNat_ushiftRight, Nat.shiftRight_eq_div_pow]
  have hcount : (size >>> 20).toNat = size.toNat / 2 ^ 20 := by
    rw [BitVec.toNat_ushiftRight, Nat.shiftRight_eq_div_pow]
  have hle : p >>> 20 ≤ i := by
    rw [BitVec.le_def, hstart]
    omega
  rw [BitVec.toNat_sub_of_le hle, hstart, hcount]
  omega

/-! ### Filling the table -/

/-- Later tables keep what earlier ones map, and stay identity mappings. -/
structure Grown (old new : Table) : Prop where
  identity : Identity old → Identity new
  kept : ∀ i, i < 4096 → old i ≠ 0 → new i ≠ 0

/-- Every section that starts in the stretch is mapped. -/
def Covers (table : Table) (p size : Nat) : Prop :=
  ∀ i : U32, i < 4096 → p ≤ i.toNat * 2 ^ 20 → i.toNat * 2 ^ 20 < p + size → table i ≠ 0

theorem Grown.refl (table : Table) : Grown table table := ⟨id, fun _ _ h => h⟩

theorem Grown.trans {a b c : Table} (hab : Grown a b) (hbc : Grown b c) : Grown a c :=
  ⟨fun h => hbc.identity (hab.identity h), fun i hi h => hbc.kept i hi (hab.kept i hi h)⟩

theorem Covers.grown {old new : Table} {p size : Nat} (h : Covers old p size)
    (hgrown : Grown old new) : Covers new p size :=
  fun i hi hlow hhigh => hgrown.kept i hi (h i hi hlow hhigh)

theorem mmuAddMapping_grown (perms attr : U32) {p size : U32} (hp : 2 ^ 20 ∣ p.toNat)
    (hsize : 2 ^ 20 ∣ size.toNat) (hbase : sectionAttr perms attr >>> 20 = 0)
    (htype : sectionAttr perms attr &&& 3 = ATTR_SECTION) (table : Table) :
    ∃ new, mmuAddMapping p p size perms attr table = some new ∧
      Grown table new ∧ Covers new p.toNat size.toNat := by
  have happly := mapLoop_apply (sectionAttr perms attr) (size >>> 20).isLt (p >>> 20) table
  refine ⟨mapLoop (sectionAttr perms attr) (size >>> 20).toNat (p >>> 20) (p >>> 20) table, ?_,
    ⟨?_, ?_⟩, ?_⟩
  · rw [mmuAddMapping, if_neg (not_not.mpr (eq_alignUp hp)), if_neg (not_not.mpr (eq_alignUp hp)),
      if_neg (not_not.mpr (eq_alignUp hsize))]
  · intro hold i hi
    rw [happly]
    split
    · exact Or.inr (isSection_or hi hbase htype)
    · exact hold i hi
  · intro i hi hne
    rw [happly]
    split
    · exact (isSection_or hi hbase htype).ne_zero
    · exact hne
  · intro i hi hlow hhigh
    rw [happly, if_pos (mem_window hp hlow hhigh hsize)]
    exact (isSection_or hi hbase htype).ne_zero

/-- The entries of a `ranges` property of three words each. -/
def windows (adt : Blob) : Nat → U32 → List RangeEntry
  | 0, _ => []
  | n + 1, ranges =>
    ⟨(read32 adt ranges).toNat, (read32 adt (ranges + 4)).toNat, (read32 adt (ranges + 8)).toNat⟩ ::
      windows adt n (ranges + 12)

/-- A window of whole sections below the end of the address space. -/
def RangeEntry.Aligned (e : RangeEntry) : Prop :=
  2 ^ 20 ∣ e.parent ∧ 2 ^ 20 ∣ e.size ∧ e.parent + e.size ≤ 2 ^ 32

theorem mapRanges_grown {adt : Blob} (n : Nat) :
    ∀ (ranges : U32) (table : Table), (∀ e ∈ windows adt n ranges, e.Aligned) →
      ∃ new, mapRanges adt n ranges table = some new ∧ Grown table new ∧
        ∀ e ∈ windows adt n ranges, Covers new e.parent e.size := by
  induction n with
  | zero =>
    intro ranges table _
    refine ⟨table, rfl, Grown.refl table, ?_⟩
    intro e he
    cases he
  | succ n ih =>
    intro ranges table haligned
    obtain ⟨⟨hparent, hsize, -⟩, hrest⟩ := List.forall_mem_cons.mp haligned
    obtain ⟨first, hfirst, hgrown, hcovers⟩ :=
      mmuAddMapping_grown AP_RW_ALL ATTR_BUFFERABLE hparent hsize (by decide) (by decide) table
    obtain ⟨last, hlast, hlater, hmore⟩ := ih (ranges + 12) first hrest
    refine ⟨last, ?_, hgrown.trans hlater, ?_⟩
    · rw [mapRanges, hfirst]
      exact hlast
    · intro e he
      rcases List.mem_cons.mp he with rfl | he
      · exact hcovers.grown hlater
      · exact hmore e he

theorem Mmu.active_enable (m : Mmu) (pgtables : U32) (table : Table) :
    (m.enable pgtables table).active = true := by
  rw [Mmu.active, bne_iff_ne]
  intro hzero
  have hbit := congrArg (·.getLsbD 0) hzero
  simp [Mmu.enable, SCTLR_M, SCTLR_Z, SCTLR_I] at hbit

/-- `mmu_init` on an ADT whose windows are aligned. -/
theorem mmuInit_grown {adt : Blob} {fuel : Nat} {io ranges rangesLen physBase : U32}
    (pgtables memSize : U32) (m : Mmu) (hpath : adtPathOffset adt fuel armIo = some io)
    (hio : io.slt 0 = false) (hranges : adtGetprop adt io rangesName = some (ranges, rangesLen))
    (haligned : ∀ e ∈ windows adt (rangesLen / 12).toNat ranges, e.Aligned)
    (hram : 2 ^ 20 ∣ physBase.toNat) :
    ∃ m', mmuInit adt fuel pgtables physBase memSize m = some m' ∧ m'.active = true ∧
      m'.ttbr0 = pgtables ∧ Identity m'.table ∧
      ∀ e ∈ windows adt (rangesLen / 12).toNat ranges, Covers m'.table e.parent e.size := by
  obtain ⟨devices, hdevices, hgrown, hcovers⟩ := mapRanges_grown (rangesLen / 12).toNat ranges
    (fun i => if i < 4096 then 0 else m.table i) haligned
  have hsize : 2 ^ 20 ∣ (alignUp memSize 0x1000000).toNat := by
    rw [show (0x1000000 : U32) = BitVec.ofNat 32 (2 ^ 24) from rfl, alignUp_eq (by decide),
      BitVec.toNat_ofNat]
    have hround := dvd_roundUp (2 ^ 24) memSize.toNat
    omega
  obtain ⟨table, htable, hgrown', -⟩ := mmuAddMapping_grown AP_RW_ALL
    (ATTR_BUFFERABLE ||| ATTR_CACHEABLE ||| ATTR_SHARABLE) hram hsize (by decide) (by decide)
    devices
  refine ⟨m.enable pgtables table, ?_, m.active_enable pgtables table, rfl, ?_, ?_⟩
  · rw [mmuInit, hpath]
    simp only [Option.bind_eq_bind, Option.bind_some, hio, hranges, hdevices, htable]
    rfl
  · apply (hgrown.trans hgrown').identity
    intro i hi
    exact Or.inl (if_pos hi)
  · intro e he
    exact (hcovers e he).grown hgrown'

/-! ### Registers in a window -/

/-- The words `adt_get_reg` reads for entry `idx` of a property, address and size one cell
    each. -/
def regEntry (adt : Blob) (node : U32) (prop : List Byte) (idx : U32) : Option (U32 × U32) :=
  (adtGetprop adt node prop).map fun p =>
    (read32 adt (p.1 + 8 * idx), read32 adt (p.1 + 8 * idx + 4))

theorem getCells_one (adt : Blob) (src : U32) :
    getCells adt src 1 = BitVec.ofNat 64 (read32 adt src).toNat := by
  rw [getCells_succ, BitVec.ofNat_toNat]
  simp [getCells]

theorem fits_window {adt : Blob} {n : Nat} :
    ∀ {ranges : U32} {e : RangeEntry}, e ∈ windows adt n ranges → e.Fits := by
  induction n with
  | zero =>
    intro ranges e he
    cases he
  | succ n ih =>
    intro ranges e he
    rcases List.mem_cons.mp he with rfl | he
    · have hchild := (read32 adt ranges).isLt
      have hparent := (read32 adt (ranges + 4)).isLt
      have hsize := (read32 adt (ranges + 8)).isLt
      constructor
      · simp only
        omega
      · simp only
        omega
    · exact ih he

theorem rangeLoop_windows (adt : Blob) {addr size : Nat} (hfit : addr + size < 2 ^ 64) (n : Nat) :
    ∀ ranges : U32, rangeLoop adt 1 1 1 (BitVec.ofNat 64 addr) (BitVec.ofNat 64 size) n ranges =
      BitVec.ofNat 64 (translate size (windows adt n ranges) addr) := by
  induction n with
  | zero =>
    intro ranges
    rfl
  | succ n ih =>
    intro ranges
    have hfits : RangeEntry.Fits ⟨(read32 adt ranges).toNat, (read32 adt (ranges + 4)).toNat,
        (read32 adt (ranges + 8)).toNat⟩ := fits_window (n := n + 1) List.mem_cons_self
    rw [windows, translate_cons, rangeLoop, show (1 : U32).toNat = 1 from rfl,
      show (4 : U32) * 1 = 4 from rfl, show (4 : U32) * (1 + 1) = 8 from rfl,
      show (4 : U32) * (1 + 1 + 1) = 12 from rfl, getCells_one, getCells_one, getCells_one, ih]
    dsimp only
    by_cases hin : RangeEntry.contains ⟨(read32 adt ranges).toNat,
        (read32 adt (ranges + 4)).toNat, (read32 adt (ranges + 8)).toNat⟩ addr size = true
    · have hlow := (of_decide_eq_true hin).1
      rw [if_pos ((RangeEntry.contains_iff hfits hfit).mpr hin), if_pos hin,
        BitVec.ofNat_sub_ofNat_of_le _ _ (by omega) hlow, ← BitVec.ofNat_add]
    · rw [if_neg (fun h => hin ((RangeEntry.contains_iff hfits hfit).mp h)), if_neg hin]

theorem adtGetReg_oneCell {adt : Blob} {io child ranges rangesLen : U32} {prop : List Byte}
    {idx addr size : U32} (hio : io ≠ 0) (hchild : child ≠ 0)
    (hroot : adtGetpropU32 adt 0 addressCells 2 = 1)
    (haddr : adtGetpropU32 adt io addressCells 2 = 1)
    (hsize : adtGetpropU32 adt io sizeCells 1 = 1)
    (hranges : adtGetprop adt io rangesName = some (ranges, rangesLen))
    (h : adtGetReg adt [io, child, 0] prop idx true true = ⟨0, some addr, some size⟩) :
    ∃ a s, regEntry adt child prop idx = some (a, s) ∧ size = s ∧
      addr = BitVec.ofNat 32
        (translate s.toNat (windows adt (rangesLen / 12).toNat ranges) a.toNat) := by
  have hpath : (([io, child, 0] : List U32).takeWhile (· ≠ 0)).reverse = [child, io] := by
    have hio : io ≠ 0#32 := hio
    have hchild : child ≠ 0#32 := hchild
    simp [List.takeWhile, hio, hchild]
  rw [adtGetReg, hpath] at h
  simp only [List.headD_cons, haddr, hsize] at h
  rw [if_neg (by decide)] at h
  cases hprop : adtGetprop adt child prop with
  | none =>
    rw [hprop] at h
    exact absurd (show -ADT_ERR_NOTFOUND = 0 from congrArg RegResult.ret h) (by decide)
  | some p =>
    obtain ⟨reg, regLen⟩ := p
    rw [hprop] at h
    dsimp only at h
    split_ifs at h with hempty hshort
    · exact absurd (show -ADT_ERR_NOTFOUND = 0 from congrArg RegResult.ret h) (by decide)
    · exact absurd (show -ADT_ERR_BADVALUE = 0 from congrArg RegResult.ret h) (by decide)
    have hoff : (4 : U32) * (idx * (1 + 1)) = 8 * idx := by
      rw [show (8 : U32) = 4 * (1 + 1) from rfl]
      ring
    rw [hoff, show (4 : U32) * 1 = 4 from rfl, show (1 : U32).toNat = 1 from rfl, getCells_one,
      getCells_one] at h
    have ha := (read32 adt (reg + 8 * idx)).isLt
    have hs := (read32 adt (reg + 8 * idx + 4)).isLt
    have hclimb : climb adt (BitVec.ofNat 64 (read32 adt (reg + 8 * idx + 4)).toNat) [io] 1 1
        (BitVec.ofNat 64 (read32 adt (reg + 8 * idx)).toNat) =
          .ok (BitVec.ofNat 64 (translate (read32 adt (reg + 8 * idx + 4)).toNat
            (windows adt (rangesLen / 12).toNat ranges) (read32 adt (reg + 8 * idx)).toNat)) := by
      rw [climb, hranges]
      simp only [List.headD_nil, hroot]
      rw [if_neg (by decide), show (4 : U32) * (1 + 1 + 1) = 12 from rfl,
        rangeLoop_windows adt (by omega)]
      rfl
    rw [hclimb] at h
    simp only [RegResult.mk.injEq, Option.some.injEq, true_and] at h
    obtain ⟨rfl, rfl⟩ := h
    refine ⟨_, _, by rw [regEntry, hprop]; rfl, ?_, lo32_ofNat _⟩
    rw [lo32_ofNat, BitVec.ofNat_toNat, BitVec.setWidth_eq]

theorem translate_contained {size addr : Nat} {es : List RangeEntry}
    (h : ∃ e ∈ es, e.contains addr size = true) :
    ∃ e ∈ es, e.parent ≤ translate size es addr ∧
      translate size es addr + size ≤ e.parent + e.size := by
  obtain ⟨e, he, hin⟩ := h
  unfold translate
  cases hfind : es.find? (·.contains addr size) with
  | none => exact absurd hin (List.find?_eq_none.mp hfind e he)
  | some first =>
    have hfirst : first.contains addr size = true :=
      List.find?_some (p := fun e : RangeEntry => e.contains addr size) hfind
    obtain ⟨hlow, hhigh⟩ := of_decide_eq_true hfirst
    refine ⟨first, List.mem_of_find?_eq_some hfind, ?_, ?_⟩
    · dsimp only
      omega
    · dsimp only
      omega

theorem section_in_window {p size a n k : Nat} (hp : 2 ^ 20 ∣ p) (hsize : 2 ^ 20 ∣ size)
    (hlow : p ≤ a) (hhigh : a + n ≤ p + size) (hk : k * 2 ^ 20 < a + n)
    (hk' : a < (k + 1) * 2 ^ 20) : p ≤ k * 2 ^ 20 ∧ k * 2 ^ 20 < p + size := by
  omega

/-- **Device registers stay reachable.**  On an ADT with one-cell addresses and sizes and
    aligned windows, `mmu_init` turns the MMU on with a table of identity mappings, in which
    every section is mapped that meets a register block which `adt_get_reg` found in a
    window. -/
theorem mmuInit_keeps_registers (adt : Blob) (fuel : Nat)
    (io ranges rangesLen pgtables physBase memSize : U32) (m : Mmu)
    (hpath : adtPathOffset adt fuel armIo = some io) (hpos : io.slt 0 = false) (hio : io ≠ 0)
    (hranges : adtGetprop adt io rangesName = some (ranges, rangesLen))
    (hroot : adtGetpropU32 adt 0 addressCells 2 = 1)
    (haddr : adtGetpropU32 adt io addressCells 2 = 1)
    (hsize : adtGetpropU32 adt io sizeCells 1 = 1)
    (haligned : ∀ e ∈ windows adt (rangesLen / 12).toNat ranges, e.Aligned)
    (hram : 2 ^ 20 ∣ physBase.toNat) :
    ∃ m', mmuInit adt fuel pgtables physBase memSize m = some m' ∧ m'.active = true ∧
      m'.ttbr0 = pgtables ∧ Identity m'.table ∧
      ∀ (child : U32) (prop : List Byte) (idx addr size a s : U32), child ≠ 0 →
        adtGetReg adt [io, child, 0] prop idx true true = ⟨0, some addr, some size⟩ →
        regEntry adt child prop idx = some (a, s) →
        (∃ e ∈ windows adt (rangesLen / 12).toNat ranges, e.contains a.toNat s.toNat = true) →
        0 < size →
        ∀ k : Nat, k * 2 ^ 20 < addr.toNat + size.toNat → addr.toNat < (k + 1) * 2 ^ 20 →
          m'.table (BitVec.ofNat 32 k) ≠ 0 := by
  obtain ⟨m', hinit, hactive, httbr, hidentity, hcovers⟩ :=
    mmuInit_grown pgtables memSize m hpath hpos hranges haligned hram
  refine ⟨m', hinit, hactive, httbr, hidentity, ?_⟩
  intro child prop idx addr size a s hchild hreg hentry hcontained hnonempty k hk hk'
  obtain ⟨a', s', hentry', hsame, htranslated⟩ :=
    adtGetReg_oneCell hio hchild hroot haddr hsize hranges hreg
  rw [hentry] at hentry'
  obtain ⟨rfl, rfl⟩ : a = a' ∧ s = s' := by simpa using hentry'
  subst hsame htranslated
  obtain ⟨e, he, hlow, hhigh⟩ := translate_contained hcontained
  obtain ⟨hp, hs, hend⟩ := haligned e he
  have hpositive : 0 < size.toNat := hnonempty
  rw [BitVec.toNat_ofNat, Nat.mod_eq_of_lt (by omega)] at hk hk'
  obtain ⟨hstart, hstop⟩ := section_in_window hp hs hlow hhigh hk hk'
  have hindex : (BitVec.ofNat 32 k).toNat = k := by
    rw [BitVec.toNat_ofNat]
    exact Nat.mod_eq_of_lt (by omega)
  apply hcovers e he
  · rw [BitVec.lt_def, hindex]
    change k < 4096
    omega
  · rw [hindex]
    exact hstart
  · rw [hindex]
    exact hstop

/-- The UART of the sample tree is in section 0x3A5. -/
theorem mmuInit_keeps_registers_sampleTree :
    ∃ m', mmuInit (blobOf sampleTree.enc) 3 0x8004000 0x8000000 0xff00000
        ⟨fun _ => 0, 0, 0, 0, 0⟩ = some m' ∧
      m'.active = true ∧ Identity m'.table ∧ m'.table 0x3A5 ≠ 0 := by
  have hwindows : windows (blobOf sampleTree.enc) ((12 : U32) / 12).toNat 300 =
      [⟨0, 0x38000000, 0x8000000⟩] := by decide +kernel
  obtain ⟨m', hinit, hactive, -, hidentity, hregs⟩ :=
    mmuInit_keeps_registers (blobOf sampleTree.enc) 3 128 300 12 0x8004000 0x8000000 0xff00000
      ⟨fun _ => 0, 0, 0, 0, 0⟩ (by decide +kernel) (by decide) (by decide) (by decide +kernel)
      (by decide +kernel) (by decide +kernel) (by decide +kernel)
      (by
        rw [hwindows]
        intro e he
        rw [List.mem_singleton.mp he]
        exact ⟨by decide, by decide, by decide⟩)
      (by decide)
  refine ⟨m', hinit, hactive, hidentity, ?_⟩
  exact hregs 312 (cstr ['r', 'e', 'g']) 0 0x3A500000 0x1000 0x2500000 0x1000 (by decide)
    (by decide +kernel) (by decide +kernel) (by rw [hwindows]; decide) (by decide) 0x3A5
    (by decide) (by decide)

end MiniHaywire.Adt
