import MiniHaywire.TopOfMemory

/-!
# The memory map for the kernel

`dt_set_memory` lists the memory the kernel may use: the usable RAM, reserved
regions outside of it, the initrd and the device tree itself, and stores the list
as the `reg` property of `/memory`.  The list is built in an array of eight
entries; everything that does not fit the picture ends the function with -1.

The device tree is seen through what libfdt answers about it (`Fdt`).
-/

namespace MiniHaywire.Kboot

/-! ### `dt_set_memory` -/

abbrev Entry := U32 × U32

/-- A subnode of `/reserved-memory`, as far as it is read. -/
structure ReservedNode where
  name : String
  status : Option String
  noMap : Bool
  reg : Option Entry
deriving DecidableEq

/-- The device tree, as libfdt answers for it. -/
structure Fdt where
  /-- The subnodes of `/reserved-memory`, if there is such a node. -/
  reservedMemory : Option (List ReservedNode)
  /-- Whether there is a `/memory` node. -/
  memory : Bool
  /-- Whether `fdt_setprop` finds room for a property of that many bytes. -/
  setprop : Nat → Bool

structure Env where
  /-- Whether the ADT has a `/chosen` node. -/
  chosen : Bool
  mem : BootMem
  fdt : Fdt
  initrdStart : U32
  initrdSize : U32
  dt : U32
  dtBufsize : U32

/-- The ways `dt_set_memory` bails out. -/
inductive MemoryError
  | chosenNotFound
  | intersectsStart (name : String) (start stop : U32)
  | intersectsEnd (name : String) (start stop : U32)
  | reservedNotAligned (name : String) (start stop : U32)
  | outOfRegionsReserved
  | outOfRegionsInitrd
  | initrdNotAligned
  | outOfRegionsFdt
  | fdtNotAligned
  | memoryNotFound
  | setpropFailed
deriving DecidableEq

def MAX_MEM_REGIONS : Nat := 8

def misaligned (e : Entry) : Bool := (e.1 ||| e.2) &&& (pageSize - 1) != 0

/-- The end of the loop body: a reserved region outside of the RAM is added. -/
def addReserved (memreg : List Entry) (name : String) (start len : U32) :
    Except MemoryError (List Entry) :=
  if misaligned (start, len) then .error (.reservedNotAligned name start (start + len))
  else if MAX_MEM_REGIONS ≤ memreg.length then .error .outOfRegionsReserved
  else .ok (memreg ++ [(start, len)])

/-- The body of the loop over the subnodes of `/reserved-memory`. -/
def visitReserved (dramMin dramMax : U32) (memreg : List Entry) (n : ReservedNode) :
    Except MemoryError (List Entry) :=
  if n.status = some "disabled" then .ok memreg
  else if n.noMap then .ok memreg
  else
    match n.reg with
    | none => .ok memreg
    | some (start, len) =>
      let stop := start + len
      if start < dramMin then
        if stop > dramMin then .error (.intersectsStart n.name start stop)
        else addReserved memreg n.name start len
      else if stop > dramMax then
        if start < dramMax then .error (.intersectsEnd n.name start stop)
        else addReserved memreg n.name start len
      else .ok memreg

/-- The two static variables hold an initrd. -/
def Env.initrdSet (e : Env) : Bool := e.initrdStart != 0 && e.initrdSize != 0

def addInitrd (e : Env) (memreg : List Entry) : Except MemoryError (List Entry) :=
  if e.initrdSet then
    if MAX_MEM_REGIONS ≤ memreg.length then .error .outOfRegionsInitrd
    else if misaligned (e.initrdStart, e.initrdSize) then .error .initrdNotAligned
    else .ok (memreg ++ [(e.initrdStart, e.initrdSize)])
  else .ok memreg

/-- The part that the messages call "Adding FDT": the checks are on `dt` and `dt_bufsize`,
    the entry stored is `initrd_start` and `initrd_size`. -/
def addFdt (e : Env) (memreg : List Entry) : Except MemoryError (List Entry) :=
  if MAX_MEM_REGIONS ≤ memreg.length then .error .outOfRegionsFdt
  else if misaligned (e.dt, e.dtBufsize) then .error .fdtNotAligned
  else .ok (memreg ++ [(e.initrdStart, e.initrdSize)])

/-- The last part: `fdt_setprop(dt, node, "reg", memreg, sizeof(memreg[0]) * num_regions)`. -/
def writeMemory (e : Env) (memreg : List Entry) : Except MemoryError (List Entry) :=
  if !e.fdt.memory then .error .memoryNotFound
  else if !e.fdt.setprop (8 * memreg.length) then .error .setpropFailed
  else .ok memreg

/-- `dt_set_memory`: the entries written to `/memory`, or the reason for returning -1. -/
def dtSetMemory (e : Env) : Except MemoryError (List Entry) :=
  if !e.chosen then .error .chosenNotFound
  else do
    let dramMin := e.mem.physBase
    let dramMax := e.mem.physBase + e.mem.memSize
    let memreg := [(dramMin, dramMax - dramMin)]
    let memreg ← (e.fdt.reservedMemory.getD []).foldlM (visitReserved dramMin dramMax) memreg
    let memreg ← addInitrd e memreg
    let memreg ← addFdt e memreg
    writeMemory e memreg

/-! ### What a success says -/

/-- An enabled node whose region may be mapped, and that region. -/
def ReservedNode.mappable (n : ReservedNode) : Option Entry :=
  if n.status = some "disabled" ∨ n.noMap = true then none else n.reg

theorem addReserved_ok {memreg memreg' : List Entry} {name : String} {start len : U32}
    (h : addReserved memreg name start len = .ok memreg') : memreg' = memreg ++ [(start, len)] := by
  unfold addReserved at h
  split_ifs at h
  exact (Except.ok.inj h).symm

theorem visitReserved_ok {dramMin dramMax : U32} {memreg memreg' : List Entry}
    {n : ReservedNode} (h : visitReserved dramMin dramMax memreg n = .ok memreg') :
    memreg' = memreg ∨ ∃ p, n.mappable = some p ∧ memreg' = memreg ++ [p] := by
  unfold visitReserved at h
  split_ifs at h with hstatus hmap
  · exact Or.inl (Except.ok.inj h).symm
  · exact Or.inl (Except.ok.inj h).symm
  have hmappable : n.mappable = n.reg := if_neg (not_or.mpr ⟨hstatus, hmap⟩)
  cases hreg : n.reg with
  | none =>
    rw [hreg] at h
    exact Or.inl (Except.ok.inj h).symm
  | some p =>
    rw [hreg] at h
    simp only at h
    split_ifs at h
    · exact Or.inr ⟨p, hmappable.trans hreg, addReserved_ok h⟩
    · exact Or.inr ⟨p, hmappable.trans hreg, addReserved_ok h⟩
    · exact Or.inl (Except.ok.inj h).symm

theorem foldlM_visitReserved_ok {dramMin dramMax : U32} {nodes : List ReservedNode}
    {memreg memreg' : List Entry}
    (h : nodes.foldlM (visitReserved dramMin dramMax) memreg = .ok memreg') :
    ∃ added, memreg' = memreg ++ added ∧
      ∀ p ∈ added, ∃ n ∈ nodes, n.mappable = some p := by
  induction nodes generalizing memreg with
  | nil => exact ⟨[], by simpa using (Except.ok.inj h).symm, by simp⟩
  | cons n nodes ih =>
    rw [List.foldlM_cons] at h
    obtain ⟨next, hn, h⟩ := except_bind_eq_ok h
    obtain ⟨added, hadded, hfrom⟩ := ih h
    have htail : ∀ p ∈ added, ∃ m ∈ n :: nodes, m.mappable = some p := by
      intro p hp
      obtain ⟨m, hm, hmp⟩ := hfrom p hp
      exact ⟨m, List.mem_cons_of_mem _ hm, hmp⟩
    rcases visitReserved_ok hn with rfl | ⟨p, hp, rfl⟩
    · exact ⟨added, hadded, htail⟩
    · refine ⟨p :: added, by rw [hadded, List.append_assoc]; rfl, ?_⟩
      intro q hq
      rcases List.mem_cons.mp hq with rfl | hq
      · exact ⟨n, List.mem_cons_self, hp⟩
      · exact htail q hq

/-- The initrd entry, if there is an initrd. -/
def Env.initrdEntries (e : Env) : List Entry :=
  if e.initrdSet then [(e.initrdStart, e.initrdSize)] else []

theorem addInitrd_ok {e : Env} {memreg memreg' : List Entry}
    (h : addInitrd e memreg = .ok memreg') : memreg' = memreg ++ e.initrdEntries := by
  unfold addInitrd at h
  unfold Env.initrdEntries
  split_ifs at h ⊢
  · exact (Except.ok.inj h).symm
  · simpa using (Except.ok.inj h).symm

theorem addFdt_ok {e : Env} {memreg memreg' : List Entry} (h : addFdt e memreg = .ok memreg') :
    memreg' = memreg ++ [(e.initrdStart, e.initrdSize)] := by
  unfold addFdt at h
  split_ifs at h
  exact (Except.ok.inj h).symm

theorem writeMemory_ok {e : Env} {memreg memreg' : List Entry}
    (h : writeMemory e memreg = .ok memreg') : memreg' = memreg := by
  unfold writeMemory at h
  split_ifs at h
  exact (Except.ok.inj h).symm

theorem dtSetMemory_ok {e : Env} {memreg : List Entry} (h : dtSetMemory e = .ok memreg) :
    ∃ added, (∀ p ∈ added, ∃ n ∈ e.fdt.reservedMemory.getD [], n.mappable = some p) ∧
      memreg = (e.mem.physBase, e.mem.memSize) ::
        (added ++ e.initrdEntries ++ [(e.initrdStart, e.initrdSize)]) := by
  unfold dtSetMemory at h
  split at h
  · contradiction
  obtain ⟨reserved, hreserved, h⟩ := except_bind_eq_ok h
  obtain ⟨withInitrd, hinitrd, h⟩ := except_bind_eq_ok h
  obtain ⟨withFdt, hfdt, h⟩ := except_bind_eq_ok h
  obtain ⟨added, hadded, hfrom⟩ := foldlM_visitReserved_ok hreserved
  refine ⟨added, hfrom, ?_⟩
  have hsize : e.mem.physBase + e.mem.memSize - e.mem.physBase = e.mem.memSize := by ring
  rw [writeMemory_ok h, addFdt_ok hfdt, addInitrd_ok hinitrd, hadded, hsize]
  simp

/-! ### The map that was meant -/

def region (p : Entry) : Region 32 := ⟨p.1, p.2.toNat⟩

/-- The mappable reserved regions that do not touch the usable RAM. -/
def Env.outside (e : Env) : List Entry :=
  ((e.fdt.reservedMemory.getD []).filterMap ReservedNode.mappable).filter
    fun p => (region p).Disjoint e.mem.usable

/-- The map is complete: its entries are the usable RAM, the reserved regions outside of it,
    the initrd if there is one and the device tree, each once and no two of them meeting. -/
structure MapComplete (e : Env) (memreg : List Entry) : Prop where
  entries : memreg.Perm ((e.mem.physBase, e.mem.memSize) ::
    (e.outside ++ e.initrdEntries ++ [(e.dt, e.dtBufsize)]))
  disjoint : (memreg.map region).Pairwise Region.Disjoint

theorem size_region_pos {p : Entry} (h : p.2 ≠ 0) : 0 < (region p).size := by
  rw [region, Nat.pos_iff_ne_zero]
  intro hzero
  exact h (BitVec.eq_of_toNat_eq hzero)

theorem not_disjoint_region_self {p : Entry} (h : p.2 ≠ 0) :
    ¬ (region p).Disjoint (region p) :=
  Region.not_disjoint_self (size_region_pos h)

theorem not_pairwise_of_initrdSet {e : Env} (hset : e.initrdSet = true) (p : Entry)
    (added : List Entry) :
    ¬ ((p :: (added ++ e.initrdEntries ++ [(e.initrdStart, e.initrdSize)])).map
      region).Pairwise Region.Disjoint := by
  intro hpair
  have hsize : e.initrdSize ≠ 0 := by
    simp only [Env.initrdSet, Bool.and_eq_true, bne_iff_ne] at hset
    exact hset.2
  rw [Env.initrdEntries, if_pos hset] at hpair
  simp only [List.map_cons, List.map_append, List.map_nil, List.pairwise_cons,
    List.pairwise_append] at hpair
  obtain ⟨-, -, -, hlast⟩ := hpair
  exact not_disjoint_region_self (p := (e.initrdStart, e.initrdSize)) hsize
    (hlast _ (by simp) _ (by simp))

/-- The map is never complete: the entry for the device tree holds the initrd variables.
    With an initrd that entry is there twice; without one the device tree is missing. -/
theorem dtSetMemory_never_complete (e : Env) (memreg : List Entry) (hdt : e.dt ≠ 0)
    (hsize : e.dtBufsize ≠ 0) (h : dtSetMemory e = .ok memreg) : ¬ MapComplete e memreg := by
  intro hmap
  obtain ⟨added, hfrom, rfl⟩ := dtSetMemory_ok h
  cases hset : e.initrdSet with
  | true => exact not_pairwise_of_initrdSet hset _ _ hmap.disjoint
  | false =>
    have hnone : e.initrdEntries = [] := by simp [Env.initrdEntries, hset]
    obtain ⟨hentries, hdisjoint⟩ := hmap
    have hmeant := ((hentries.map region).pairwise_iff Region.Disjoint.symm).mp hdisjoint
    simp only [hnone, List.append_nil] at hentries hdisjoint hmeant
    have hmem : (e.dt, e.dtBufsize) ∈ added ++ [(e.initrdStart, e.initrdSize)] :=
      (hentries.cons_inv.mem_iff).mpr (by simp)
    rcases List.mem_append.mp hmem with hadded | hlast
    · -- a reserved node for the device tree's buffer: it would be in the map twice
      obtain ⟨n, hn, hmappable⟩ := hfrom _ hadded
      have hout : (region (e.dt, e.dtBufsize)).Disjoint e.mem.usable := by
        apply Region.Disjoint.symm
        exact List.rel_of_pairwise_cons hdisjoint
          (List.mem_map_of_mem (List.mem_append_left _ hadded))
      have houtside : (e.dt, e.dtBufsize) ∈ e.outside := by
        apply List.mem_filter.mpr
        exact ⟨List.mem_filterMap.mpr ⟨n, hn, hmappable⟩, by simpa using hout⟩
      simp only [List.map_cons, List.map_append, List.map_nil, List.pairwise_cons,
        List.pairwise_append] at hmeant
      obtain ⟨-, -, -, htwice⟩ := hmeant
      exact not_disjoint_region_self (p := (e.dt, e.dtBufsize)) hsize
        (htwice _ (List.mem_map_of_mem houtside) _ (by simp))
    · -- the entry is the device tree's only if the initrd variables are not both zero
      have heq := List.mem_singleton.mp hlast
      simp only [Prod.mk.injEq] at heq
      rw [Env.initrdSet, ← heq.1, ← heq.2] at hset
      rcases Bool.and_eq_false_iff.mp hset with hzero | hzero
      · exact hdt (bne_eq_false_iff_eq.mp hzero)
      · exact hsize (bne_eq_false_iff_eq.mp hzero)

/-- 256 MiB from 0x8000000 on, with the device tree's buffer just below the end. -/
def sampleEnv (initrdStart initrdSize : U32) : Env where
  chosen := true
  mem := ⟨0x8000000, 0xff00000, true⟩
  fdt := ⟨some [⟨"flash", none, false, some (0x17ff0000, 0x4000)⟩], true, fun _ => true⟩
  initrdStart := initrdStart
  initrdSize := initrdSize
  dt := 0x17f80000
  dtBufsize := 0x20000

theorem dtSetMemory_never_complete_sample :
    (sampleEnv 0 0).dt ≠ 0 ∧ (sampleEnv 0 0).dtBufsize ≠ 0 ∧
      dtSetMemory (sampleEnv 0 0) =
        .ok [(0x8000000, 0xff00000), (0x17ff0000, 0x4000), (0, 0)] ∧
      ¬ MapComplete (sampleEnv 0 0)
        [(0x8000000, 0xff00000), (0x17ff0000, 0x4000), (0, 0)] :=
  ⟨by decide, by decide, rfl,
    dtSetMemory_never_complete (sampleEnv 0 0) _ (by decide) (by decide) rfl⟩

/-- Without an initrd the device tree is not in the map; with one, the initrd is there twice. -/
theorem dtSetMemory_without_fdt :
    dtSetMemory (sampleEnv 0 0) =
        .ok [(0x8000000, 0xff00000), (0x17ff0000, 0x4000), (0, 0)] ∧
      ¬ MapComplete (sampleEnv 0 0)
        [(0x8000000, 0xff00000), (0x17ff0000, 0x4000), (0, 0)] ∧
      dtSetMemory (sampleEnv 0x17fa0000 0x1000) =
        .ok [(0x8000000, 0xff00000), (0x17ff0000, 0x4000), (0x17fa0000, 0x1000),
          (0x17fa0000, 0x1000)] ∧
      ¬ MapComplete (sampleEnv 0x17fa0000 0x1000)
        [(0x8000000, 0xff00000), (0x17ff0000, 0x4000), (0x17fa0000, 0x1000),
          (0x17fa0000, 0x1000)] := by
  refine ⟨rfl, ?_, rfl, ?_⟩
  · intro hmap
    have hmem := hmap.entries.mem_iff (a := (0x17f80000, 0x20000))
    revert hmem
    decide
  · intro hmap
    have hpair := hmap.disjoint
    revert hpair
    decide

/-! ### The usable RAM and the blocks above it -/

def LOGBUF_SIZE : U32 := 0x4000

inductive Caller
  /-- `mini_start` moves the ADT, which is that large. -/
  | adtCopy (devtreeSize : U32)
  /-- `kboot_set_initrd`. -/
  | initrd (size : U32)
  /-- `kboot_prepare_dt`, for a device tree of that `fdt_totalsize`. -/
  | fdt (totalsize : U32)
  /-- `dt_setup_mtd_phram`. -/
  | log
  /-- `P_TOP_OF_MEMORY_ALLOC`. -/
  | proxy (size : U32)

/-- `dt_bufsize`: 64K more than the device tree, rounded up to pages. -/
def dtBufsizeFor (totalsize : U32) : U32 := alignUp (totalsize + 4 * 0x4000) pageSize

def Caller.size : Caller → U32
  | .adtCopy devtreeSize => devtreeSize
  | .initrd size => size
  | .fdt totalsize => dtBufsizeFor totalsize
  | .log => LOGBUF_SIZE
  | .proxy size => size

/-- The size a caller then takes its block to have. -/
def Caller.extent : Caller → Nat
  | .adtCopy devtreeSize => devtreeSize.toNat
  | .initrd size => (alignUp size pageSize).toNat
  | .fdt totalsize => (dtBufsizeFor totalsize).toNat
  | .log => LOGBUF_SIZE.toNat
  | .proxy size => size.toNat

theorem le_blockSize (size : U32) : size.toNat ≤ blockSize size := le_roundUp (by decide) _

theorem Caller.extent_le (c : Caller) : c.extent ≤ blockSize c.size := by
  cases c with
  | initrd size =>
    rw [Caller.extent, alignUp_pageSize, BitVec.toNat_ofNat]
    exact Nat.mod_le _ _
  | adtCopy size => exact le_blockSize _
  | fdt totalsize => exact le_blockSize _
  | log => exact le_blockSize _
  | proxy size => exact le_blockSize _

theorem blocks_callers (callers : List Caller) (s : BootMem) :
    blocks (callers.map Caller.size) s =
      ((run topOfMemoryAlloc (callers.map Caller.size) s).1.zip callers).map
        fun p => ⟨p.1, blockSize p.2.size⟩ := by
  induction callers generalizing s with
  | nil => rfl
  | cons c callers ih =>
    rw [List.map_cons, blocks_cons, ih]
    rfl

/-- Allocation from the top of memory, after any number of calls that fit: the blocks are
    page-aligned, disjoint and adjacent, going down from the end of the memory, and together
    with the guard page and the usable RAM they are the whole of it.  So the entry for the
    usable RAM that `dt_set_memory` writes at that point meets none of the callers' data. -/
theorem topOfMemory_partition (base memSize : U32) (callers : List Caller)
    (hbase : 0x1000 ∣ base.toNat) (hmem : 0x1000 ∣ memSize.toNat)
    (hfit : (callers.map fun c => blockSize c.size).sum + 0x1000 ≤ memSize.toNat)
    (done : List Caller) (hdone : done <+: callers) :
    let initial : BootMem := ⟨base, memSize, false⟩
    let sizes := done.map Caller.size
    let rets := (run topOfMemoryAlloc sizes initial).1
    let s := (run topOfMemoryAlloc sizes initial).2
    s.physBase = base ∧
      (∀ b ∈ blocks sizes initial, 0x1000 ∣ b.start.toNat) ∧
      (blocks sizes initial).Pairwise Region.Disjoint ∧
      Region.Descending (base + memSize) (blocks sizes initial) ∧
      (done ≠ [] → Region.Partition ⟨base, memSize.toNat⟩
        (s.usable :: s.guardPage :: (blocks sizes initial).reverse)) ∧
      ∀ e memreg, e.mem = s → dtSetMemory e = .ok memreg →
        ∃ rest, memreg = (base, s.memSize) :: rest ∧
          ∀ p ∈ rets.zip done, (region (base, s.memSize)).Disjoint ⟨p.1, p.2.extent⟩ := by
  intro initial sizes rets s
  have hsum : (sizes.map blockSize).sum + 0x1000 ≤ memSize.toNat := by
    have hmap : sizes.map blockSize = done.map fun c => blockSize c.size := List.map_map
    obtain ⟨later, rfl⟩ := hdone
    rw [List.map_append, List.sum_append] at hfit
    rw [hmap]
    omega
  obtain ⟨hdesc, -, hphys, -⟩ := blocks_descending sizes initial
  have htop : initial.lowest = base + memSize := BitVec.add_zero _
  rw [htop] at hdesc
  have hpart : done ≠ [] → Region.Partition ⟨base, memSize.toNat⟩
      (s.usable :: s.guardPage :: (blocks sizes initial).reverse) :=
    fun hne => partition_run base hsum (by simpa [sizes] using hne)
  have haligned : 0x1000 ∣ (base + memSize).toNat := by
    rw [BitVec.toNat_add]
    omega
  refine ⟨hphys, ?_, ?_, hdesc, hpart, ?_⟩
  · apply hdesc.aligned (by decide) haligned
    intro b hb
    have hsize : b.size ∈ (blocks sizes initial).map Region.size := List.mem_map_of_mem hb
    rw [map_size_blocks] at hsize
    obtain ⟨n, -, hn⟩ := List.mem_map.mp hsize
    rw [← hn]
    exact dvd_roundUp _ _
  · rcases eq_or_ne done [] with rfl | hne
    · exact List.Pairwise.nil
    · have hpair := (hpart hne).disjoint
      simp only [List.pairwise_cons, List.pairwise_reverse] at hpair
      exact hpair.2.2.imp Region.Disjoint.symm
  · intro e memreg he hmemreg
    obtain ⟨added, -, hlist⟩ := dtSetMemory_ok hmemreg
    rw [he, hphys] at hlist
    refine ⟨_, hlist, ?_⟩
    intro p hp
    have hne : done ≠ [] := by
      rintro rfl
      simp at hp
    have hblock : (⟨p.1, blockSize p.2.size⟩ : Region 32) ∈ blocks sizes initial := by
      rw [blocks_callers]
      exact List.mem_map.mpr ⟨p, hp, rfl⟩
    have husable : region (base, s.memSize) = s.usable := by
      rw [region, BootMem.usable, hphys]
    have hdisjoint := List.rel_of_pairwise_cons (hpart hne).disjoint
      (List.mem_cons_of_mem _ (List.mem_reverse.mpr hblock))
    rw [husable]
    exact hdisjoint.mono_size p.2.extent_le

/-- The ADT, an initrd, the device tree and the log, on 256 MiB of RAM. -/
theorem topOfMemory_partition_boot :
    (0x1000 ∣ (0x8000000 : U32).toNat) ∧ (0x1000 ∣ (0x10000000 : U32).toNat) ∧
      (([.adtCopy 0x23456, .initrd 0x500001, .fdt 0x9000, .log] : List Caller).map
        fun c => blockSize c.size).sum + 0x1000 ≤ (0x10000000 : U32).toNat ∧
      Region.Descending 0x18000000
        (blocks ([.adtCopy 0x23456, .initrd 0x500001, .fdt 0x9000, .log].map Caller.size)
          ⟨0x8000000, 0x10000000, false⟩) :=
  ⟨by decide, by decide, by decide,
    (topOfMemory_partition 0x8000000 0x10000000
      [.adtCopy 0x23456, .initrd 0x500001, .fdt 0x9000, .log] (by decide) (by decide) (by decide)
      _ List.prefix_rfl).2.2.2.1⟩

end MiniHaywire.Kboot
