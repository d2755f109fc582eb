import MiniHaywire.Bytes
import MiniHaywire.Region
import MiniHaywire.Run
import MiniHaywire.TopOfMemory

/-!
# The payload scan

`payload_run` walks the RAM disk from one payload to the next.  What stands at the
cursor is told by its first bytes (`itemAt`), `load_one_payload` handles it and
returns the cursor for the next item, or `NULL` to stop.  A compressed payload is
unpacked to the end of the heap and handled there by a call of the same function,
so the model takes fuel for the depth of that nesting; a failed assertion reboots
the machine and is an error.

The decoders and the `compatible` check of libfdt are parameters (`Libs`).  The
model keeps a log of the blocks that are copied out of a payload, with the nesting
level of the call that copied them.
-/

namespace MiniHaywire.Payload

open MiniHaywire.Kboot (BootMem topOfMemoryAlloc pageSize)

/-! ### Magic numbers -/

def kernelAlign : U32 := 0x40000

def gzMagic : List Byte := [0x1f, 0x8b]

def xzMagic : List Byte := [0xfd, 0x37, 0x7a, 0x58, 0x5a, 0x00]

def fdtMagic : List Byte := [0xd0, 0x0d, 0xfe, 0xed]

def kernelMagic : List Byte := [0x00, 0x00, 0xa0, 0xe1, 0x00, 0x00, 0xa0, 0xe1]

def cpioMagic : List Byte := [0x30, 0x37, 0x30, 0x37, 0x30]

def img4Magic : List Byte := [0x16, 0x04, 0x49, 0x4d, 0x47, 0x34]

def sigMagic : List Byte := [0x6d, 0x31, 0x6e, 0x31, 0x5f, 0x73, 0x69, 0x67]

def initramfsMagic : List Byte :=
  [0x6d, 0x31, 0x6e, 0x31, 0x5f, 0x69, 0x6e, 0x69, 0x74, 0x72, 0x61, 0x6d, 0x66, 0x73]

def emptyMagic : List Byte := [0, 0, 0, 0]

def chosenName : List Byte := [0x63, 0x68, 0x6f, 0x73, 0x65, 0x6e, 0x2e]

/-! ### State -/

/-- A block copied out of a payload, and how deep in compressed payloads that was. -/
structure Copy where
  level : Nat
  src : U32
  len : U32
deriving DecidableEq

/-- Memory, the end of the heap, the boot arguments and the static variables of
    `payload.c` and `kboot.c`. -/
structure World where
  mem : Mem 32
  heapBase : U32
  boot : BootMem
  kernel : U32
  fdt : U32
  chosen : List U32
  initrdStart : U32
  initrdSize : U32
  copies : List Copy

/-- The libraries.  A decoder gets the memory, the destination and the source; it
    leaves a memory and, if it succeeds, the consumed and the unpacked length. -/
structure Libs where
  tinfGzipUncompress : Mem 32 → U32 → U32 → Mem 32 × Option (U32 × U32)
  xzDecode : Mem 32 → U32 → U32 → Mem 32 × Option (U32 × U32)
  fdtNodeCheckCompatible : Mem 32 → U32 → Bool

inductive Stop where
  | assertion
  | fuel
deriving DecidableEq

/-! ### The handlers -/

def heapblockAllocAligned (size align : U32) (w : World) : Except Stop (U32 × World) :=
  if align &&& (align - 1) ≠ 0 then .error .assertion
  else if w.heapBase = 0 then .error .assertion
  else
    let block := alignUp w.heapBase align
    .ok (block, { w with heapBase := block + size })

/-- `fdt_totalsize`: a big-endian word. -/
def fdtTotalsize (m : Mem 32) (p : U32) : U32 :=
  BitVec.ofNat 32 (leNat (m.load (p + 4) 4).reverse)

def readLe32 (m : Mem 32) (p : U32) : U32 := BitVec.ofNat 32 (leNat (m.load p 4))

def loadFdt (L : Libs) (p : U32) (w : World) : U32 × World :=
  (p + fdtTotalsize w.mem p,
    if L.fdtNodeCheckCompatible w.mem p then { w with fdt := p } else w)

def kbootSetInitrd (level : Nat) (start size : U32) (w : World) : World :=
  let (initrd, boot) := topOfMemoryAlloc size w.boot
  { w with
    boot := boot
    mem := w.mem.store initrd (w.mem.load start size.toNat)
    initrdStart := initrd
    initrdSize := alignUp size pageSize
    copies := w.copies ++ [⟨level, start, size⟩] }

def loadCpio (level : Nat) (p size : U32) (w : World) : U32 × World :=
  if size = 0 then (0, w) else (p + size, kbootSetInitrd level p size w)

/-- What `load_kernel` adds to the address of the kernel, 20 MB. -/
def kernelRoom : U32 := 0x1400000

def loadKernel (level : Nat) (p size : U32) (w : World) : Except Stop (U32 × World) :=
  if p &&& (kernelAlign - 1) ≠ 0 then do
    let (newAddr, w) ← heapblockAllocAligned size kernelAlign w
    .ok (newAddr + kernelRoom,
      { w with
        kernel := newAddr
        mem := w.mem.store newAddr (w.mem.load p size.toNat)
        copies := w.copies ++ [⟨level, p, size⟩] })
  else .ok (p + kernelRoom, { w with kernel := p })

/-- Where the line of a variable ends: the offset of the newline from `p`, if `p` is
    the start of `name=value` with a name and a value that are short enough. -/
def varEnd (m : Mem 32) (p : U32) : Option Nat := do
  let eq ← (m.load p (m.strlenFrom 65 p)).findIdx? (· == 0x3d)
  let val := p + BitVec.ofNat 32 (eq + 1)
  let nl ← (m.load val (m.strlenFrom 1025 val)).findIdx? (· == 0x0a)
  some (eq + 1 + nl)

/-- `check_var` on a variable whose line ends at offset `stop`. -/
def takeVar (stop : Nat) (p : U32) (w : World) : U32 × World :=
  let mem : Mem 32 := Function.update w.mem (p + BitVec.ofNat 32 stop) 0
  (p + BitVec.ofNat 32 (stop + 1),
    { w with
      mem := mem
      chosen :=
        if mem.load p chosenName.length = chosenName ∧ w.chosen.length < 16 then w.chosen ++ [p]
        else w.chosen })

/-- `finalize_uncompression`; `load` is the nested call of `load_one_payload`. -/
def finalizeUncompression (load : World → U32 → U32 → Except Stop (U32 × World))
    (dest destLen : U32) (w : World) : Except Stop World := do
  let (block, w) ← heapblockAllocAligned destLen kernelAlign w
  if dest ≠ block then .error .assertion
  else do
    let stop := dest + destLen
    let (next, w) ← load w dest destLen
    if ¬(next = 0 ∨ dest ≤ next) then .error .assertion
    else if stop < next then do
      let (block, w) ← heapblockAllocAligned (next - stop) 1 w
      if stop ≠ block then .error .assertion else .ok w
    else .ok w

def decompress (decode : Mem 32 → U32 → U32 → Mem 32 × Option (U32 × U32))
    (load : World → U32 → U32 → Except Stop (U32 × World)) (p : U32) (w : World) :
    Except Stop (U32 × World) := do
  let (dest, w) ← heapblockAllocAligned 0 kernelAlign w
  match decode w.mem dest p with
  | (mem, none) => .ok (0, { w with mem := mem })
  | (mem, some (sourceLen, destLen)) => do
    let w ← finalizeUncompression load dest destLen { w with mem := mem }
    .ok (p + sourceLen, w)

/-! ### The scan -/

/-- What `load_one_payload` takes the bytes at the cursor for. -/
inductive Item where
  | gzip
  | xz
  | fdt
  | cpio
  | kernel
  | signature
  | initramfs
  | var (stop : Nat)
  | nothing
  | unknown
deriving DecidableEq

def starts (m : Mem 32) (p : U32) (magic : List Byte) : Bool := m.load p magic.length == magic

/-- The tests of `load_one_payload`, in their order. -/
def itemAt (m : Mem 32) (p : U32) : Item :=
  if starts m p gzMagic then .gzip
  else if starts m p xzMagic then .xz
  else if starts m p fdtMagic then .fdt
  else if starts m p cpioMagic then .cpio
  else if starts m p kernelMagic then .kernel
  else if starts m p sigMagic then .signature
  else if starts m p initramfsMagic then .initramfs
  else match varEnd m p with
    | some stop => .var stop
    | none =>
      if starts m p emptyMagic || starts m (p + 5) img4Magic then .nothing else .unknown

/-- The branches of `load_one_payload`, `level` compressed payloads deep; `load` is the
    nested call. -/
def loadItem (L : Libs) (load : World → U32 → U32 → Except Stop (U32 × World)) (level : Nat)
    (w : World) (p size : U32) : Item → Except Stop (U32 × World)
  | .gzip => decompress L.tinfGzipUncompress load p w
  | .xz => decompress L.xzDecode load p w
  | .fdt => .ok (loadFdt L p w)
  | .cpio => .ok (loadCpio level p size w)
  | .kernel => loadKernel level p size w
  | .signature => .ok (p + readLe32 w.mem (p + 8), w)
  | .initramfs => .ok (loadCpio level (p + 18) (readLe32 w.mem (p + 14)) w)
  | .var stop => .ok (takeVar stop p w)
  | .nothing => .ok (0, w)
  | .unknown => if w.fdt ≠ 0 then loadKernel level p size w else .ok (0, w)

def loadOnePayload (L : Libs) : Nat → Nat → World → U32 → U32 → Except Stop (U32 × World)
  | 0, _, _, _, _ => .error .fuel
  | fuel + 1, level, w, p, size =>
    if p = 0 then .ok (0, w)
    else loadItem L (loadOnePayload L fuel (level + 1)) level w p size (itemAt w.mem p)

/-- The loop of `payload_run`, at most `n` rounds of it. -/
def payloadLoop (L : Libs) (fuel : Nat) (start stop : U32) :
    Nat → World → U32 → Except Stop (U32 × World)
  | 0, _, _ => .error .fuel
  | n + 1, w, p =>
    if p ≠ 0 ∧ p < stop then do
      let (p, w) ← loadOnePayload L fuel 0 w p (stop - start)
      payloadLoop L fuel start stop n w p
    else .ok (p, w)

/-! ### What a call returns -/

section Calls

variable {L : Libs} {w w' : World} {p r size : U32}
  {load load' : World → U32 → U32 → Except Stop (U32 × World)}
  {decode : Mem 32 → U32 → U32 → Mem 32 × Option (U32 × U32)}

theorem heapblockAllocAligned_kernel (size : U32) (w : World) :
    heapblockAllocAligned size kernelAlign w =
      if w.heapBase = 0 then .error .assertion
      else .ok (alignUp w.heapBase kernelAlign,
        { w with heapBase := alignUp w.heapBase kernelAlign + size }) := by
  have hpow : ¬(kernelAlign &&& (kernelAlign - 1) ≠ 0) := by decide
  rw [heapblockAllocAligned, if_neg hpow]

theorem heapblockAllocAligned_copies {align block : U32}
    (h : heapblockAllocAligned size align w = .ok (block, w')) : w'.copies = w.copies := by
  unfold heapblockAllocAligned at h
  split at h
  · contradiction
  · split at h
    · contradiction
    · cases h
      rfl

def World.unpackTo (w : World) : U32 := alignUp w.heapBase kernelAlign

/-- The state a decoder leaves, with what it made of the memory. -/
def World.unpacked (w : World) (mem : Mem 32) : World :=
  { w with heapBase := w.unpackTo, mem := mem }

theorem heapblockAllocAligned_none (hheap : w.heapBase ≠ 0) :
    heapblockAllocAligned 0 kernelAlign w =
      .ok (w.unpackTo, { w with heapBase := w.unpackTo }) := by
  rw [heapblockAllocAligned_kernel, if_neg hheap, World.unpackTo, BitVec.ofNat_eq_ofNat,
    BitVec.add_zero]

/-- A decompression that returns: the decoder gave up, or what it has unpacked was
    handled. -/
theorem decompress_eq_ok :
    decompress decode load p w = .ok (r, w') ↔
      w.heapBase ≠ 0 ∧
        (((decode w.mem w.unpackTo p).2 = none ∧ r = 0 ∧
            w' = w.unpacked (decode w.mem w.unpackTo p).1) ∨
          ∃ sourceLen destLen, (decode w.mem w.unpackTo p).2 = some (sourceLen, destLen) ∧
            r = p + sourceLen ∧
            finalizeUncompression load w.unpackTo destLen
              (w.unpacked (decode w.mem w.unpackTo p).1) = .ok w') := by
  by_cases hheap : w.heapBase = 0
  · rw [decompress, heapblockAllocAligned_kernel, if_pos hheap]
    constructor
    · intro h
      contradiction
    · rintro ⟨h, -⟩
      contradiction
  · rw [decompress, heapblockAllocAligned_none hheap, and_iff_right hheap, except_ok_bind]
    dsimp only
    rcases decode w.mem w.unpackTo p with ⟨mem, _ | ⟨sourceLen, destLen⟩⟩
    · dsimp only
      constructor
      · intro h
        cases h
        exact .inl ⟨rfl, rfl, rfl⟩
      · rintro (⟨-, rfl, rfl⟩ | ⟨_, _, h, -⟩)
        · rfl
        · contradiction
    · dsimp only
      constructor
      · intro h
        obtain ⟨w₁, hfin, h⟩ := except_bind_eq_ok h
        cases h
        exact .inr ⟨sourceLen, destLen, rfl, rfl, hfin⟩
      · rintro (⟨h, -⟩ | ⟨_, _, heq, rfl, hfin⟩)
        · contradiction
        · cases heq
          have hfin' : finalizeUncompression load w.unpackTo destLen
            { w with heapBase := w.unpackTo, mem := mem } = .ok w' := hfin
          rw [hfin', except_ok_bind]

/-- A nested call that returns is all that the handling of an unpacked payload takes
    from the function it is given. -/
theorem finalizeUncompression_mono (hload : ∀ w p size x, load w p size = .ok x →
      load' w p size = .ok x) {dest destLen : U32}
    (h : finalizeUncompression load dest destLen w = .ok w') :
    finalizeUncompression load' dest destLen w = .ok w' := by
  unfold finalizeUncompression at h ⊢
  obtain ⟨⟨block, w₁⟩, halloc, h⟩ := except_bind_eq_ok h
  rw [halloc]
  change (if dest ≠ block then _ else _) = _ at h
  change (if dest ≠ block then _ else _) = _
  split at h
  · contradiction
  · rename_i hblock
    rw [if_neg hblock]
    obtain ⟨⟨next, w₂⟩, hnext, h⟩ := except_bind_eq_ok h
    rw [hload _ _ _ _ hnext]
    exact h

theorem decompress_mono (hload : ∀ w p size x, load w p size = .ok x → load' w p size = .ok x)
    (h : decompress decode load p w = .ok (r, w')) :
    decompress decode load' p w = .ok (r, w') := by
  rw [decompress_eq_ok] at h ⊢
  obtain ⟨hheap, hnone | ⟨sourceLen, destLen, hd, hr, hfin⟩⟩ := h
  · exact ⟨hheap, .inl hnone⟩
  · exact ⟨hheap, .inr ⟨sourceLen, destLen, hd, hr, finalizeUncompression_mono hload hfin⟩⟩

theorem loadItem_mono (hload : ∀ w p size x, load w p size = .ok x → load' w p size = .ok x)
    {level : Nat} {item : Item} (h : loadItem L load level w p size item = .ok (r, w')) :
    loadItem L load' level w p size item = .ok (r, w') := by
  cases item with
  | gzip => exact decompress_mono hload h
  | xz => exact decompress_mono hload h
  | fdt | cpio | kernel | signature | initramfs | var | nothing | unknown => exact h

/-- More fuel does not change what is returned. -/
theorem loadOnePayload_succ (L : Libs) (fuel level : Nat) (w : World) (p size : U32)
    (x : U32 × World) (h : loadOnePayload L fuel level w p size = .ok x) :
    loadOnePayload L (fuel + 1) level w p size = .ok x := by
  induction fuel generalizing level w p size x with
  | zero => contradiction
  | succ fuel ih =>
    rw [loadOnePayload] at h ⊢
    split at h
    · rename_i hp
      rw [if_pos hp]
      exact h
    · rename_i hp
      rw [if_neg hp]
      exact loadItem_mono (ih (level + 1)) h

theorem loadOnePayload_mono (L : Libs) {fuel fuel' level : Nat} {x : U32 × World}
    (hle : fuel ≤ fuel') (h : loadOnePayload L fuel level w p size = .ok x) :
    loadOnePayload L fuel' level w p size = .ok x := by
  induction hle with
  | refl => exact h
  | step _ ih => exact loadOnePayload_succ L _ level w p size x ih

end Calls

/-! ### What was unpacked

The nested calls for a compressed payload follow a chain of buffers, each of which holds the
payload for the next one, up to an item that is not compressed.  `Opens` says when all of them
return, by the items and the lengths of the buffers. -/

def Libs.decoder (L : Libs) : Item → Option (Mem 32 → U32 → U32 → Mem 32 × Option (U32 × U32))
  | .gzip => some L.tinfGzipUncompress
  | .xz => some L.xzDecode
  | _ => none

/-- The cursor behind an item that is not compressed and, as a kernel, need not be moved. -/
def plainCursor (m : Mem 32) (fdt p size : U32) : Item → U32
  | .fdt => p + fdtTotalsize m p
  | .cpio => if size = 0 then 0 else p + size
  | .kernel => p + kernelRoom
  | .signature => p + readLe32 m (p + 8)
  | .initramfs => if readLe32 m (p + 14) = 0 then 0 else p + 18 + readLe32 m (p + 14)
  | .var stop => p + BitVec.ofNat 32 (stop + 1)
  | .unknown => if fdt ≠ 0 then p + kernelRoom else 0
  | _ => 0

/-- The cursor `next` behind the item in a buffer does not go back; if it leaves the buffer, the
    heap still ends with the buffer and is extended up to the cursor. -/
def Ends (dest len next heap heap' : U32) : Prop :=
  (next = 0 ∨ dest ≤ next) ∧
    if dest + len < next then heap = dest + len ∧ heap ≠ 0 ∧ heap' = next else heap' = heap

/-- The item in the buffer of `len` bytes at `dest`, where the heap ended before, is handled, and
    then the heap ends at the last argument. -/
inductive Opens (L : Libs) (fdt : U32) : Mem 32 → U32 → U32 → U32 → Prop where
  | plain {m : Mem 32} {dest len heap : U32} : dest ≠ 0 → L.decoder (itemAt m dest) = none →
      Ends dest len (plainCursor m fdt dest len (itemAt m dest)) (dest + len) heap →
      Opens L fdt m dest len heap
  | rejected {m : Mem 32} {dest len : U32} {decode} : dest ≠ 0 →
      L.decoder (itemAt m dest) = some decode → dest + len ≠ 0 →
      (decode m (alignUp (dest + len) kernelAlign) dest).2 = none →
      Opens L fdt m dest len (alignUp (dest + len) kernelAlign)
  | nested {m : Mem 32} {dest len sourceLen destLen heap heap' : U32} {decode} : dest ≠ 0 →
      L.decoder (itemAt m dest) = some decode → dest + len ≠ 0 →
      (decode m (alignUp (dest + len) kernelAlign) dest).2 = some (sourceLen, destLen) →
      Opens L fdt (decode m (alignUp (dest + len) kernelAlign) dest).1
        (alignUp (dest + len) kernelAlign) destLen heap →
      Ends dest len (dest + sourceLen) heap heap' → Opens L fdt m dest len heap'

section Unpacked

variable {L : Libs} {w w' : World} {p r size dest len : U32} {item : Item} {level : Nat}
  {load : World → U32 → U32 → Except Stop (U32 × World)}
  {decode : Mem 32 → U32 → U32 → Mem 32 × Option (U32 × U32)}

theorem dvd_unpackTo (w : World) : 2 ^ 18 ∣ w.unpackTo.toNat := by
  have hround := dvd_roundUp (2 ^ 18) w.heapBase.toNat
  rw [World.unpackTo, show kernelAlign = BitVec.ofNat 32 (2 ^ 18) from rfl,
    alignUp_eq (by decide), BitVec.toNat_ofNat]
  omega

theorem and_kernelAlign (h : 2 ^ 18 ∣ p.toNat) : p &&& (kernelAlign - 1) = 0 := by
  apply BitVec.eq_of_toNat_eq
  change p.toNat &&& (2 ^ 18 - 1) = 0
  rw [Nat.and_two_pow_sub_one_eq_mod]
  exact Nat.mod_eq_zero_of_dvd h

theorem loadItem_compressed (h : L.decoder item = some decode) :
    loadItem L load level w p size item = decompress decode load p w := by
  cases item with
  | gzip =>
    cases h
    rfl
  | xz =>
    cases h
    rfl
  | _ => contradiction

/-- In an aligned buffer an item that is not compressed takes nothing from the heap. -/
theorem loadItem_plain (hplain : L.decoder item = none) (haligned : 2 ^ 18 ∣ p.toNat) :
    ∃ w', loadItem L load level w p size item = .ok (plainCursor w.mem w.fdt p size item, w') ∧
      w'.heapBase = w.heapBase := by
  have hkernel : loadKernel level p size w = .ok (p + kernelRoom, { w with kernel := p }) :=
    if_neg (not_not.mpr (and_kernelAlign haligned))
  have hcpio : ∀ q n, ∃ w', loadCpio level q n w = (if n = 0 then 0 else q + n, w') ∧
      w'.heapBase = w.heapBase := by
    intro q n
    unfold loadCpio
    split_ifs
    · exact ⟨w, rfl, rfl⟩
    · exact ⟨_, rfl, rfl⟩
  cases item with
  | gzip | xz => contradiction
  | fdt =>
    refine ⟨_, rfl, ?_⟩
    split <;> rfl
  | cpio =>
    obtain ⟨w', hw', hbase⟩ := hcpio p size
    exact ⟨w', congrArg _ hw', hbase⟩
  | initramfs =>
    obtain ⟨w', hw', hbase⟩ := hcpio (p + 18) (readLe32 w.mem (p + 14))
    exact ⟨w', congrArg _ hw', hbase⟩
  | kernel => exact ⟨_, hkernel, rfl⟩
  | unknown =>
    rw [loadItem, plainCursor]
    by_cases hfdt : w.fdt = 0
    · rw [if_neg (not_not.mpr hfdt), if_neg (not_not.mpr hfdt)]
      exact ⟨w, rfl, rfl⟩
    · rw [if_pos hfdt, if_pos hfdt]
      exact ⟨_, hkernel, rfl⟩
  | signature | var | nothing => exact ⟨_, rfl, rfl⟩

theorem extend_eq_ok {stop next : U32} :
    (heapblockAllocAligned (next - stop) 1 w >>= fun x =>
        if stop ≠ x.1 then .error .assertion else .ok x.2) = .ok w' ↔
      w.heapBase = stop ∧ w.heapBase ≠ 0 ∧ w' = { w with heapBase := next } := by
  have hone : alignUp w.heapBase 1 = w.heapBase :=
    alignUp_of_dvd (k := 0) (by decide) (Nat.one_dvd _)
  rw [heapblockAllocAligned, if_neg (by decide), hone]
  by_cases hzero : w.heapBase = 0
  · rw [if_pos hzero]
    exact iff_of_false nofun fun h => h.2.1 hzero
  · rw [if_neg hzero, except_ok_bind]
    dsimp only
    by_cases hstop : w.heapBase = stop
    · have hnext : stop + (next - stop) = next := by ring
      rw [if_neg (not_not.mpr hstop.symm), hstop, hnext]
      exact ⟨fun h => ⟨rfl, hstop ▸ hzero, (Except.ok.inj h).symm⟩, fun h => by rw [h.2.2]⟩
    · rw [if_pos (Ne.symm hstop)]
      exact iff_of_false nofun fun h => hstop h.1

theorem finalizeUncompression_eq_ok (hheap : w.heapBase = dest) (haligned : 2 ^ 18 ∣ dest.toNat) :
    finalizeUncompression load dest len w = .ok w' ↔
      dest ≠ 0 ∧ ∃ next w₂ heap, load { w with heapBase := dest + len } dest len = .ok (next, w₂) ∧
        Ends dest len next w₂.heapBase heap ∧ w' = { w₂ with heapBase := heap } := by
  have hblock : alignUp dest kernelAlign = dest := alignUp_of_dvd (k := 18) (by decide) haligned
  rw [finalizeUncompression, heapblockAllocAligned_kernel, hheap, hblock]
  by_cases hdest : dest = 0
  · rw [if_pos hdest]
    exact iff_of_false nofun fun h => h.1 hdest
  rw [if_neg hdest, except_ok_bind, and_iff_right hdest]
  dsimp only
  rw [if_neg (not_not.mpr rfl)]
  cases load { w with heapBase := dest + len } dest len with
  | error e => exact iff_of_false nofun nofun
  | ok x =>
    obtain ⟨next, w₂⟩ := x
    rw [except_ok_bind]
    dsimp only
    have hends : (∃ next' w₂' heap, (.ok (next, w₂) : Except Stop _) = .ok (next', w₂') ∧
        Ends dest len next' w₂'.heapBase heap ∧ w' = { w₂' with heapBase := heap }) ↔
        ∃ heap, Ends dest len next w₂.heapBase heap ∧ w' = { w₂ with heapBase := heap } := by
      constructor
      · rintro ⟨_, _, heap, ⟨⟩, h⟩
        exact ⟨heap, h⟩
      · rintro ⟨heap, h⟩
        exact ⟨next, w₂, heap, rfl, h⟩
    rw [hends]
    unfold Ends
    by_cases hback : next = 0 ∨ dest ≤ next
    · rw [if_neg (not_not.mpr hback)]
      by_cases hout : dest + len < next
      · simp only [if_pos hout, extend_eq_ok]
        constructor
        · rintro ⟨hstop, hzero, hw'⟩
          exact ⟨next, ⟨hback, hstop, hzero, rfl⟩, hw'⟩
        · rintro ⟨heap, ⟨-, hstop, hzero, rfl⟩, hw'⟩
          exact ⟨hstop, hzero, hw'⟩
      · simp only [if_neg hout]
        constructor
        · rintro ⟨⟩
          exact ⟨_, ⟨hback, rfl⟩, rfl⟩
        · rintro ⟨heap, ⟨-, rfl⟩, rfl⟩
          rfl
    · rw [if_pos hback]
      exact iff_of_false nofun fun ⟨_, h, _⟩ => hback h.1

theorem ends_zero {heap heap' : U32} : Ends dest len 0 heap heap' ↔ heap' = heap := by
  have hnot : ¬dest + len < 0 := BitVec.not_lt_zero
  rw [Ends, if_neg hnot, and_iff_right (.inl rfl)]

theorem opens_of_finalize {fuel : Nat} (hheap : w.heapBase = dest) (haligned : 2 ^ 18 ∣ dest.toNat)
    (h : finalizeUncompression (loadOnePayload L fuel level) dest len w = .ok w') :
    Opens L w.fdt w.mem dest len w'.heapBase := by
  induction fuel generalizing level w dest len w' with
  | zero =>
    obtain ⟨-, _, _, _, hload, -⟩ := (finalizeUncompression_eq_ok hheap haligned).mp h
    contradiction
  | succ fuel ih =>
    obtain ⟨hdest, next, w₂, heap, hload, hends, rfl⟩ :=
      (finalizeUncompression_eq_ok hheap haligned).mp h
    rw [loadOnePayload, if_neg hdest] at hload
    dsimp only at hload ⊢
    cases hitem : L.decoder (itemAt w.mem dest) with
    | none =>
      obtain ⟨w₃, hplain, hbase⟩ := loadItem_plain (p := dest) hitem haligned
      obtain ⟨rfl, rfl⟩ := Prod.mk.inj (Except.ok.inj (hload.symm.trans hplain))
      rw [hbase] at hends
      exact .plain hdest hitem hends
    | some decode =>
      rw [loadItem_compressed hitem] at hload
      obtain ⟨hstop, ⟨hnone, rfl, rfl⟩ | ⟨sourceLen, destLen, hsome, rfl, hfin⟩⟩ :=
        decompress_eq_ok.mp hload
      · obtain rfl : heap = alignUp (dest + len) kernelAlign := ends_zero.mp hends
        exact .rejected hdest hitem hstop hnone
      · exact .nested hdest hitem hstop hsome (ih rfl (dvd_unpackTo _) hfin) hends

theorem Opens.finalize {m : Mem 32} {fdt heap : U32} (h : Opens L fdt m dest len heap) :
    ∀ (level : Nat) (w : World), w.heapBase = dest → w.mem = m → w.fdt = fdt →
      2 ^ 18 ∣ dest.toNat → ∃ fuel w',
        finalizeUncompression (loadOnePayload L fuel level) dest len w = .ok w' ∧
          w'.heapBase = heap := by
  induction h with
  | @plain m dest len heap hdest hitem hends =>
    rintro level w hheap rfl rfl haligned
    let w₁ : World := { w with heapBase := dest + len }
    obtain ⟨w₂, hplain, hbase⟩ :
        ∃ w₂, loadItem L (loadOnePayload L 0 (level + 1)) level w₁ dest len (itemAt w₁.mem dest) =
          .ok (plainCursor w.mem w.fdt dest len (itemAt w.mem dest), w₂) ∧
          w₂.heapBase = dest + len :=
      loadItem_plain hitem haligned
    rw [← hbase] at hends
    refine ⟨1, _, (finalizeUncompression_eq_ok hheap haligned).mpr
      ⟨hdest, _, w₂, heap, ?_, hends, rfl⟩, rfl⟩
    rw [loadOnePayload, if_neg hdest]
    exact hplain
  | @rejected m dest len decode hdest hitem hstop hnone =>
    rintro level w hheap rfl rfl haligned
    let w₁ : World := { w with heapBase := dest + len }
    have hload : loadOnePayload L 1 level w₁ dest len =
        .ok (0, w₁.unpacked (decode w.mem w₁.unpackTo dest).1) := by
      rw [loadOnePayload, if_neg hdest, loadItem_compressed hitem]
      exact decompress_eq_ok.mpr ⟨hstop, .inl ⟨hnone, rfl, rfl⟩⟩
    exact ⟨1, _, (finalizeUncompression_eq_ok hheap haligned).mpr
      ⟨hdest, 0, _, _, hload, ends_zero.mpr rfl, rfl⟩, rfl⟩
  | @nested m dest len sourceLen destLen heap heap' decode hdest hitem hstop hsome _ hends ih =>
    rintro level w hheap rfl rfl haligned
    let w₁ : World := { w with heapBase := dest + len }
    obtain ⟨fuel, w₂, hfin, hbase⟩ := ih (level + 1)
      (w₁.unpacked (decode w.mem w₁.unpackTo dest).1) rfl rfl rfl (dvd_unpackTo w₁)
    rw [← hbase] at hends
    have hload : loadOnePayload L (fuel + 1) level w₁ dest len = .ok (dest + sourceLen, w₂) := by
      rw [loadOnePayload, if_neg hdest, loadItem_compressed hitem]
      exact decompress_eq_ok.mpr ⟨hstop, .inr ⟨_, _, hsome, rfl, hfin⟩⟩
    exact ⟨fuel + 1, _, (finalizeUncompression_eq_ok hheap haligned).mpr
      ⟨hdest, _, w₂, heap', hload, hends, rfl⟩, rfl⟩

/-- An unpacked payload is handled exactly if it opens. -/
theorem exists_finalize_iff {m : Mem 32} :
    (∃ fuel w', finalizeUncompression (loadOnePayload L fuel level) w.unpackTo len
        (w.unpacked m) = .ok w') ↔ ∃ heap, Opens L w.fdt m w.unpackTo len heap := by
  constructor
  · rintro ⟨fuel, w', h⟩
    exact ⟨_, opens_of_finalize rfl (dvd_unpackTo w) h⟩
  · rintro ⟨heap, h⟩
    obtain ⟨fuel, w', hfin, -⟩ := h.finalize level (w.unpacked m) rfl rfl rfl (dvd_unpackTo w)
    exact ⟨fuel, w', hfin⟩

end Unpacked

/-! ### Progress of the scan -/

section Progress

variable {L : Libs} {w w' : World} {p r size n : U32}

/-- The cursor for the next item: further on, or the scan stops. -/
def MovesOn (p next : U32) : Prop := next = 0 ∨ p < next

/-- A length that takes the cursor on, at most to the end of the address space. -/
def Forward (p n : U32) : Prop := n ≠ 0 ∧ p.toNat + n.toNat ≤ 2 ^ 32

theorem movesOn_add (hp : p ≠ 0) : MovesOn p (p + n) ↔ Forward p n := by
  have hpos : p.toNat ≠ 0 := fun h => hp (BitVec.eq_of_toNat_eq h)
  have hn : n ≠ 0 ↔ n.toNat ≠ 0 :=
    not_congr ⟨fun h => congrArg BitVec.toNat h, fun h => BitVec.eq_of_toNat_eq h⟩
  have hzero : p + n = 0 ↔ (p.toNat + n.toNat) % 2 ^ 32 = 0 := by
    rw [← BitVec.toNat_add]
    exact ⟨fun h => congrArg BitVec.toNat h, fun h => BitVec.eq_of_toNat_eq h⟩
  rw [MovesOn, Forward, hn, hzero, BitVec.lt_def, BitVec.toNat_add]
  have := p.isLt
  have := n.isLt
  omega

/-- The kernel is followed by room enough, at the address it was found at or at the
    one it is moved to. -/
def KernelMovesOn (w : World) (p : U32) : Prop :=
  if p &&& (kernelAlign - 1) ≠ 0 then
    w.heapBase ≠ 0 ∧ MovesOn p (alignUp w.heapBase kernelAlign + kernelRoom)
  else Forward p kernelRoom

/-- There is a heap, and the decoder gives up or what it unpacks opens, with the assertions of
    `finalize_uncompression` met. -/
def Unpacks (L : Libs) (decode : Mem 32 → U32 → U32 → Mem 32 × Option (U32 × U32)) (w : World)
    (p : U32) : Prop :=
  w.heapBase ≠ 0 ∧
    ∀ sourceLen destLen, (decode w.mem w.unpackTo p).2 = some (sourceLen, destLen) →
      p.toNat + sourceLen.toNat ≤ 2 ^ 32 ∧
        ∃ heap, Opens L w.fdt (decode w.mem w.unpackTo p).1 w.unpackTo destLen heap

/-- What has to hold of the item at the cursor for the scan to go on. -/
def Progress (L : Libs) (w : World) (p size : U32) : Prop :=
  match itemAt w.mem p with
  | .gzip => Unpacks L L.tinfGzipUncompress w p
  | .xz => Unpacks L L.xzDecode w p
  | .fdt => Forward p (fdtTotalsize w.mem p)
  | .cpio => size = 0 ∨ Forward p size
  | .kernel => KernelMovesOn w p
  | .signature => Forward p (readLe32 w.mem (p + 8))
  | .initramfs =>
    readLe32 w.mem (p + 14) = 0 ∨ MovesOn p (p + 18 + readLe32 w.mem (p + 14))
  | .var stop => Forward p (BitVec.ofNat 32 (stop + 1))
  | .nothing => True
  | .unknown => w.fdt = 0 ∨ KernelMovesOn w p

/-- The decoders consume something when they succeed. -/
def Consumes (decode : Mem 32 → U32 → U32 → Mem 32 × Option (U32 × U32)) : Prop :=
  ∀ m dest p sourceLen destLen, (decode m dest p).2 = some (sourceLen, destLen) → sourceLen ≠ 0

theorem loadCpio_movesOn (level : Nat) (q : U32) :
    MovesOn p (loadCpio level q size w).1 ↔ size = 0 ∨ MovesOn p (q + size) := by
  unfold loadCpio
  by_cases h : size = 0
  · rw [if_pos h]
    exact ⟨fun _ => .inl h, fun _ => .inl rfl⟩
  · rw [if_neg h]
    exact ⟨.inr, fun hm => hm.resolve_left h⟩

theorem loadKernel_movesOn (hp : p ≠ 0) (level : Nat) :
    (∃ r w', loadKernel level p size w = .ok (r, w') ∧ MovesOn p r) ↔ KernelMovesOn w p := by
  unfold loadKernel KernelMovesOn
  by_cases halign : p &&& (kernelAlign - 1) ≠ 0
  · rw [if_pos halign, if_pos halign, heapblockAllocAligned_kernel]
    by_cases hheap : w.heapBase = 0
    · rw [if_pos hheap]
      constructor
      · rintro ⟨r, w', h, -⟩
        contradiction
      · rintro ⟨h, -⟩
        contradiction
    · rw [if_neg hheap]
      constructor
      · rintro ⟨r, w', h, hr⟩
        obtain ⟨rfl, -⟩ := Prod.mk.inj (Except.ok.inj h)
        exact ⟨hheap, hr⟩
      · rintro ⟨-, hr⟩
        exact ⟨_, _, rfl, hr⟩
  · rw [if_neg halign, if_neg halign, ← movesOn_add hp]
    constructor
    · rintro ⟨r, w', h, hr⟩
      obtain ⟨rfl, -⟩ := Prod.mk.inj (Except.ok.inj h)
      exact hr
    · intro hr
      exact ⟨_, _, rfl, hr⟩

theorem decompress_movesOn {decode : Mem 32 → U32 → U32 → Mem 32 × Option (U32 × U32)}
    (hpos : Consumes decode) (hp : p ≠ 0) :
    (∃ fuel r w', decompress decode (loadOnePayload L fuel 1) p w = .ok (r, w') ∧ MovesOn p r) ↔
      Unpacks L decode w p := by
  constructor
  · rintro ⟨fuel, r, w', h, hr⟩
    obtain ⟨hheap, ⟨hnone, -, -⟩ | ⟨sourceLen, destLen, hd, rfl, hfin⟩⟩ := decompress_eq_ok.mp h
    · refine ⟨hheap, fun sourceLen destLen hd => ?_⟩
      rw [hnone] at hd
      contradiction
    · refine ⟨hheap, fun sourceLen' destLen' hd' => ?_⟩
      rw [hd] at hd'
      cases hd'
      exact ⟨((movesOn_add hp).mp hr).2, exists_finalize_iff.mp ⟨fuel, w', hfin⟩⟩
  · rintro ⟨hheap, h⟩
    cases hd : (decode w.mem w.unpackTo p).2 with
    | none => exact ⟨0, 0, _, decompress_eq_ok.mpr ⟨hheap, .inl ⟨hd, rfl, rfl⟩⟩, .inl rfl⟩
    | some lens =>
      obtain ⟨sourceLen, destLen⟩ := lens
      obtain ⟨hlen, hopens⟩ := h sourceLen destLen hd
      obtain ⟨fuel, w', hfin⟩ := exists_finalize_iff.mpr hopens
      have hne : sourceLen ≠ 0 := hpos _ _ _ _ _ hd
      exact ⟨fuel, _, w', decompress_eq_ok.mpr ⟨hheap, .inr ⟨_, _, hd, rfl, hfin⟩⟩,
        (movesOn_add hp).mpr ⟨hne, hlen⟩⟩

theorem exists_loadOnePayload_iff (hp : p ≠ 0) {P : U32 → World → Prop} :
    (∃ fuel r w', loadOnePayload L fuel 0 w p size = .ok (r, w') ∧ P r w') ↔
      ∃ fuel r w', loadItem L (loadOnePayload L fuel 1) 0 w p size (itemAt w.mem p) = .ok (r, w') ∧
        P r w' := by
  constructor
  · rintro ⟨fuel, r, w', h, hP⟩
    cases fuel with
    | zero => contradiction
    | succ fuel =>
      rw [loadOnePayload, if_neg hp] at h
      exact ⟨fuel, r, w', h, hP⟩
  · rintro ⟨fuel, r, w', h, hP⟩
    refine ⟨fuel + 1, r, w', ?_, hP⟩
    rw [loadOnePayload, if_neg hp]
    exact h

theorem exists_ok_iff {P : U32 → World → Prop} (x : U32 × World) :
    (∃ (_ : Nat) (r : U32) (w' : World), Except.ok x = (.ok (r, w') : Except Stop _) ∧ P r w') ↔
      P x.1 x.2 := by
  constructor
  · rintro ⟨-, r, w', h, hP⟩
    rw [Except.ok.inj h]
    exact hP
  · intro hP
    exact ⟨0, x.1, x.2, rfl, hP⟩

/-- A call returns a cursor further on, or `NULL`, exactly if the item at the cursor
    lets it. -/
theorem loadOnePayload_movesOn (hgz : Consumes L.tinfGzipUncompress) (hxz : Consumes L.xzDecode)
    (hp : p ≠ 0) :
    (∃ fuel r w', loadOnePayload L fuel 0 w p size = .ok (r, w') ∧ MovesOn p r) ↔
      Progress L w p size := by
  rw [exists_loadOnePayload_iff hp]
  unfold Progress
  cases itemAt w.mem p with
  | gzip => exact decompress_movesOn hgz hp
  | xz => exact decompress_movesOn hxz hp
  | fdt => exact (exists_ok_iff _).trans (movesOn_add hp)
  | cpio =>
    refine (exists_ok_iff _).trans ?_
    rw [loadCpio_movesOn, movesOn_add hp]
  | kernel => exact (exists_const Nat).trans (loadKernel_movesOn hp 0)
  | signature => exact (exists_ok_iff _).trans (movesOn_add hp)
  | initramfs => exact (exists_ok_iff _).trans (loadCpio_movesOn 0 (p + 18))
  | var stop => exact (exists_ok_iff _).trans (movesOn_add hp)
  | nothing => exact (exists_ok_iff _).trans (iff_of_true (.inl rfl) trivial)
  | unknown =>
    dsimp only [loadItem]
    by_cases hfdt : w.fdt = 0
    · rw [if_neg (not_not.mpr hfdt)]
      exact (exists_ok_iff _).trans (iff_of_true (.inl rfl) (.inl hfdt))
    · rw [if_pos hfdt, or_iff_right hfdt, exists_const]
      exact loadKernel_movesOn hp 0

/-- The states in which the loop of `payload_run` looks at its condition. -/
inductive Scanned (L : Libs) (start stop : U32) (w₀ : World) : World → U32 → Prop
  | start : Scanned L start stop w₀ w₀ start
  | next {fuel : Nat} {w w' : World} {p p' : U32} (h : Scanned L start stop w₀ w p) (hp : p ≠ 0)
      (hstop : p < stop) (hcall : loadOnePayload L fuel 0 w p (stop - start) = .ok (p', w')) :
      Scanned L start stop w₀ w' p'

theorem payloadLoop_step {fuel n : Nat} {start stop : U32} {x : U32 × World} (hp : p ≠ 0)
    (hstop : p < stop) (hcall : loadOnePayload L fuel 0 w p (stop - start) = .ok (r, w'))
    (hrest : payloadLoop L fuel start stop n w' r = .ok x) :
    payloadLoop L fuel start stop (n + 1) w p = .ok x := by
  rw [payloadLoop, if_pos ⟨hp, hstop⟩, hcall]
  exact hrest

theorem payloadLoop_mono {fuel fuel' n : Nat} {start stop : U32} {x : U32 × World}
    (hle : fuel ≤ fuel') (h : payloadLoop L fuel start stop n w p = .ok x) :
    payloadLoop L fuel' start stop n w p = .ok x := by
  induction n generalizing w p with
  | zero => contradiction
  | succ n ih =>
    rw [payloadLoop] at h
    split at h
    · rename_i hcond
      obtain ⟨⟨r, w'⟩, hcall, h⟩ := except_bind_eq_ok h
      exact payloadLoop_step hcond.1 hcond.2 (loadOnePayload_mono L hle hcall) (ih h)
    · rename_i hcond
      rw [payloadLoop, if_neg hcond]
      exact h

/-- The loop ends when every item it comes to lets it go on: the cursor grows with
    every call. -/
theorem payloadLoop_ends (hgz : Consumes L.tinfGzipUncompress) (hxz : Consumes L.xzDecode)
    {start stop : U32} {w₀ : World}
    (hall : ∀ w p, Scanned L start stop w₀ w p → p ≠ 0 → p < stop →
      Progress L w p (stop - start)) :
    ∀ (n : Nat) (w : World) (p : U32), Scanned L start stop w₀ w p →
      (p = 0 ∨ stop.toNat ≤ p.toNat + n) →
      ∃ fuel x, payloadLoop L fuel start stop (n + 1) w p = .ok x := by
  intro n
  induction n with
  | zero =>
    intro w p _ hdone
    have hcond : ¬(p ≠ 0 ∧ p < stop) := by
      rintro ⟨hp, hstop⟩
      exact Nat.not_lt.mpr (hdone.resolve_left hp) hstop
    exact ⟨0, (p, w), by rw [payloadLoop, if_neg hcond]⟩
  | succ n ih =>
    intro w p hscan hleft
    by_cases hcond : p ≠ 0 ∧ p < stop
    · obtain ⟨hp, hstop⟩ := hcond
      obtain ⟨fuel, r, w', hcall, hmove⟩ :=
        (loadOnePayload_movesOn hgz hxz hp).mpr (hall w p hscan hp hstop)
      have hless : r = 0 ∨ stop.toNat ≤ r.toNat + n := by
        refine hmove.imp id (fun hlt => ?_)
        have hlt' : p.toNat < r.toNat := hlt
        have hbound := hleft.resolve_left hp
        omega
      obtain ⟨fuel', x, hrest⟩ := ih w' r (.next hscan hp hstop hcall) hless
      exact ⟨max fuel fuel', x, payloadLoop_step hp hstop
        (loadOnePayload_mono L (le_max_left _ _) hcall)
        (payloadLoop_mono (le_max_right _ _) hrest)⟩
    · exact ⟨0, (p, w), by rw [payloadLoop, if_neg hcond]⟩

/-- An item that leaves the cursor where it is keeps the loop there for good. -/
theorem payloadLoop_stuck {start stop : U32} (hp : p ≠ 0) (hstop : p < stop)
    (hsame : ∀ fuel x, loadOnePayload L fuel 0 w p (stop - start) = .ok x → x = (p, w))
    (fuel n : Nat) (x : U32 × World) : payloadLoop L fuel start stop n w p ≠ .ok x := by
  induction n with
  | zero =>
    intro h
    contradiction
  | succ n ih =>
    intro h
    rw [payloadLoop, if_pos ⟨hp, hstop⟩] at h
    obtain ⟨y, hcall, h⟩ := except_bind_eq_ok h
    rw [hsame fuel y hcall] at h
    exact ih h

/-- **The scan moves on.** A call of `load_one_payload` returns `NULL` or a cursor further on
    exactly if the item at the cursor has a length that takes it on; and a scan in which every
    item that is come to has one ends. -/
theorem payload_scan_progress (L : Libs) (hgz : Consumes L.tinfGzipUncompress)
    (hxz : Consumes L.xzDecode) :
    (∀ (w : World) (p size : U32), p ≠ 0 →
      ((∃ fuel r w', loadOnePayload L fuel 0 w p size = .ok (r, w') ∧ (r = 0 ∨ p < r)) ↔
        Progress L w p size)) ∧
      ∀ (start stop : U32) (w₀ : World),
        (∀ w p, Scanned L start stop w₀ w p → p ≠ 0 → p < stop → Progress L w p (stop - start)) →
        ∃ fuel n r w', payloadLoop L fuel start stop n w₀ start = .ok (r, w') := by
  constructor
  · intro w p size hp
    exact loadOnePayload_movesOn hgz hxz hp
  · intro start stop w₀ hall
    obtain ⟨fuel, ⟨r, w'⟩, h⟩ :=
      payloadLoop_ends hgz hxz hall stop.toNat w₀ start .start (.inr (Nat.le_add_left _ _))
    exact ⟨fuel, stop.toNat + 1, r, w', h⟩

def noLibs : Libs where
  tinfGzipUncompress m _ _ := (m, none)
  xzDecode m _ _ := (m, none)
  fdtNodeCheckCompatible _ _ := false

theorem noLibs_gzip : Consumes noLibs.tinfGzipUncompress := by
  intro m dest p sourceLen destLen h
  contradiction

theorem noLibs_xz : Consumes noLibs.xzDecode := by
  intro m dest p sourceLen destLen h
  contradiction

/-- A RAM disk at `0x1000` with the given bytes, NULs behind it. -/
def ramDisk (bs : List Byte) : World where
  mem := fun a => bs.getD (a - 0x1000).toNat 0
  heapBase := 0x100000
  boot := ⟨0, 0x800000, false⟩
  kernel := 0
  fdt := 0
  chosen := []
  initrdStart := 0
  initrdSize := 0
  copies := []

def oneVar : World := ramDisk [0x61, 0x3d, 0x62, 0x0a]

def emptySignature : World := ramDisk (sigMagic ++ [0, 0, 0, 0])

theorem itemAt_emptySignature : itemAt emptySignature.mem 0x1000 = .signature := by decide

theorem emptySignature_stays (fuel : Nat) (x : U32 × World)
    (h : loadOnePayload noLibs fuel 0 emptySignature 0x1000 0x100 = .ok x) :
    x = (0x1000, emptySignature) := by
  have hp : (0x1000 : U32) ≠ 0 := by decide
  have hsize : (0x1000 : U32) + readLe32 emptySignature.mem (0x1000 + 8) = 0x1000 := by decide
  cases fuel with
  | zero => contradiction
  | succ fuel =>
    rw [loadOnePayload, if_neg hp, itemAt_emptySignature] at h
    change Except.ok (_ + readLe32 emptySignature.mem (0x1000 + 8), emptySignature) = _ at h
    rw [hsize] at h
    exact (Except.ok.inj h).symm

/-- A signature block of size zero is found again and again. -/
theorem empty_signature_never_left :
    (¬∃ fuel r w', loadOnePayload noLibs fuel 0 emptySignature 0x1000 0x100 = .ok (r, w') ∧
        (r = 0 ∨ 0x1000 < r)) ∧
      ∀ fuel n x, payloadLoop noLibs fuel 0x1000 0x1100 n emptySignature 0x1000 ≠ .ok x := by
  constructor
  · rintro ⟨fuel, r, w', h, hr⟩
    have hsame := emptySignature_stays fuel (r, w') h
    rw [(Prod.mk.inj hsame).1] at hr
    revert hr
    decide
  · exact payloadLoop_stuck (by decide) (by decide) emptySignature_stays

/-! The scan of the disk that holds one variable, state by state. -/

theorem loadOnePayload_oneVar (fuel : Nat) (x : U32 × World)
    (h : loadOnePayload noLibs fuel 0 oneVar 0x1000 0x100 = .ok x) :
    x = takeVar 3 0x1000 oneVar := by
  have hp : (0x1000 : U32) ≠ 0 := by decide
  have hitem : itemAt oneVar.mem 0x1000 = .var 3 := by decide
  cases fuel with
  | zero => contradiction
  | succ fuel =>
    rw [loadOnePayload, if_neg hp, hitem] at h
    exact (Except.ok.inj h).symm

theorem itemAt_behind_oneVar :
    itemAt (takeVar 3 0x1000 oneVar).2.mem 0x1004 = .nothing := by decide

theorem scanned_oneVar {w : World} {p : U32} (h : Scanned noLibs 0x1000 0x1100 oneVar w p) :
    (w = oneVar ∧ p = 0x1000) ∨ (w = (takeVar 3 0x1000 oneVar).2 ∧ p = 0x1004) ∨ p = 0 := by
  induction h with
  | start => exact .inl ⟨rfl, rfl⟩
  | @next fuel w w' p p' _ hp _ hcall ih =>
    rcases ih with ⟨rfl, rfl⟩ | ⟨rfl, rfl⟩ | hzero
    · have hx := loadOnePayload_oneVar fuel (p', w') hcall
      exact .inr (.inl ⟨(Prod.mk.inj hx).2, (Prod.mk.inj hx).1⟩)
    · cases fuel with
      | zero => contradiction
      | succ fuel =>
        rw [loadOnePayload, if_neg hp, itemAt_behind_oneVar] at hcall
        exact .inr (.inr (Prod.mk.inj (Except.ok.inj hcall)).1.symm)
    · contradiction

/-- The disk that holds one variable: both of its items let the scan go on. -/
theorem payload_scan_progress_oneVar :
    (∃ fuel r w', loadOnePayload noLibs fuel 0 oneVar 0x1000 0x100 = .ok (r, w') ∧
        (r = 0 ∨ 0x1000 < r)) ∧
      ∃ fuel n r w', payloadLoop noLibs fuel 0x1000 0x1100 n oneVar 0x1000 = .ok (r, w') := by
  have hvar : Progress noLibs oneVar 0x1000 0x100 := by
    unfold Progress
    rw [show itemAt oneVar.mem 0x1000 = .var 3 by decide]
    exact ⟨by decide, by decide⟩
  have hend : Progress noLibs (takeVar 3 0x1000 oneVar).2 0x1004 0x100 := by
    unfold Progress
    rw [itemAt_behind_oneVar]
    trivial
  obtain ⟨hcall, hloop⟩ := payload_scan_progress noLibs noLibs_gzip noLibs_xz
  refine ⟨(hcall oneVar 0x1000 0x100 (by decide)).mpr hvar,
    hloop 0x1000 0x1100 oneVar (fun w p hscan hp _ => ?_)⟩
  rcases scanned_oneVar hscan with ⟨rfl, rfl⟩ | ⟨rfl, rfl⟩ | hzero
  · exact hvar
  · exact hend
  · contradiction

end Progress

end MiniHaywire.Payload
