import MiniHaywire.Heapblock

/-!
# Reserving what was unpacked

A payload is unpacked to the end of the heap, without a block of its own.
`finalize_uncompression` then takes the block, asserting that it gets the one the
decoder wrote to, loads the item in it, and takes what the item uses beyond the
unpacked bytes: the 20 MiB of a kernel, for one.  The item may be a compressed
payload again, which takes further blocks; an item that uses more than was unpacked
takes none.

The events of a call are the address sums it computes, what the decoders consume,
and the log of the heap (`Bump.Entry`).  If no sum reaches `2 ^ 32` and no decoder
reads past the buffer it was started in, the assertions hold and the log is in order.
-/

namespace MiniHaywire.Payload

open Bump (Keeps Entry)

/-! ### Events -/

inductive Event where
  /-- An address or an end is computed as this sum. -/
  | sum (a b : Nat)
  /-- A decoder that was started in a buffer of `room` bytes has consumed `used` of them. -/
  | decoded (room used : Nat)
  | heap (e : Entry)

/-- The sum does not wrap, the decoder stayed in its buffer. -/
def Event.Tame : Event → Prop
  | sum a b => a + b < 2 ^ 32
  | decoded room used => used ≤ room
  | heap _ => True

instance Event.decidableTame : (e : Event) → Decidable e.Tame
  | sum a b => inferInstanceAs (Decidable (a + b < 2 ^ 32))
  | decoded room used => inferInstanceAs (Decidable (used ≤ room))
  | heap _ => inferInstanceAs (Decidable True)

def heapLog : List Event → List Entry
  | [] => []
  | .heap e :: es => e :: heapLog es
  | _ :: es => heapLog es

theorem heapLog_append (es fs : List Event) : heapLog (es ++ fs) = heapLog es ++ heapLog fs := by
  induction es with
  | nil => rfl
  | cons e es ih =>
    cases e with
    | heap e => exact congrArg (e :: ·) ih
    | sum a b => exact ih
    | decoded room used => exact ih

def allocEvents (size align : U32) (w : World) : List Event :=
  match heapblockAllocAligned size align w with
  | .error _ => []
  | .ok (block, _) =>
    [.sum w.heapBase.toNat (align.toNat - 1), .sum block.toNat size.toNat,
      .heap (.took ⟨block.toNat, size.toNat, align.toNat⟩)]

def kernelEvents (p size : U32) (w : World) : List Event :=
  if p &&& (kernelAlign - 1) ≠ 0 then
    match heapblockAllocAligned size kernelAlign w with
    | .error _ => []
    | .ok (newAddr, _) =>
      allocEvents size kernelAlign w ++ [.sum newAddr.toNat kernelRoom.toNat]
  else [.sum p.toNat kernelRoom.toNat]

/-- `finalize_uncompression`: the item in the unpacked buffer uses it up to its end, or up to
    the cursor that is returned for it. -/
def finalizeEvents (load : World → U32 → U32 → Except Stop (U32 × World))
    (events : World → U32 → U32 → List Event) (dest destLen : U32) (w : World) : List Event :=
  match heapblockAllocAligned destLen kernelAlign w with
  | .error _ => []
  | .ok (block, w₁) =>
    allocEvents destLen kernelAlign w ++
      if dest ≠ block then []
      else
        let stop := dest + destLen
        match load w₁ dest destLen with
        | .error _ => .heap (.uses dest.toNat stop.toNat) :: events w₁ dest destLen
        | .ok (next, w₂) =>
          if stop < next then
            .heap (.uses dest.toNat next.toNat) ::
              (events w₁ dest destLen ++ allocEvents (next - stop) 1 w₂)
          else .heap (.uses dest.toNat stop.toNat) :: events w₁ dest destLen

/-- `decompress_gz` and `decompress_xz`, in a buffer of `size` bytes. -/
def decompressEvents (decode : Mem 32 → U32 → U32 → Mem 32 × Option (U32 × U32))
    (load : World → U32 → U32 → Except Stop (U32 × World))
    (events : World → U32 → U32 → List Event) (p size : U32) (w : World) : List Event :=
  match heapblockAllocAligned 0 kernelAlign w with
  | .error _ => []
  | .ok (dest, w₁) =>
    allocEvents 0 kernelAlign w ++
      match decode w₁.mem dest p with
      | (_, none) => []
      | (mem, some (sourceLen, destLen)) =>
        .decoded size.toNat sourceLen.toNat :: .sum p.toNat sourceLen.toNat ::
          finalizeEvents load events dest destLen { w₁ with mem := mem }

def itemEvents (L : Libs) (load : World → U32 → U32 → Except Stop (U32 × World))
    (events : World → U32 → U32 → List Event) (w : World) (p size : U32) : Item → List Event
  | .gzip => decompressEvents L.tinfGzipUncompress load events p size w
  | .xz => decompressEvents L.xzDecode load events p size w
  | .fdt => [.sum p.toNat (fdtTotalsize w.mem p).toNat]
  | .cpio => [.sum p.toNat size.toNat]
  | .kernel => kernelEvents p size w
  | .signature => [.sum p.toNat (readLe32 w.mem (p + 8)).toNat]
  | .initramfs =>
    [.sum p.toNat 18, .sum (p + 18).toNat (readLe32 w.mem (p + 14)).toNat]
  | .var stop => [.sum p.toNat (stop + 1)]
  | .nothing => []
  | .unknown => if w.fdt ≠ 0 then kernelEvents p size w else []

/-- `load_one_payload`, with the fuel and the level of `loadOnePayload`. -/
def loadEvents (L : Libs) : Nat → Nat → World → U32 → U32 → List Event
  | 0, _, _, _, _ => []
  | fuel + 1, level, w, p, size =>
    if p = 0 then []
    else itemEvents L (loadOnePayload L fuel (level + 1)) (loadEvents L fuel (level + 1)) w p size
      (itemAt w.mem p)

/-! ### What a part of the loader does to the heap -/

/-- No assertion has failed, and the log is in order as far as it goes. -/
def Steady (last : Nat) (w : World) (es : List Event) : Except Stop World → Prop
  | .error .assertion => False
  | .error .fuel => ∃ pos', Keeps last w.heapBase.toNat (heapLog es) pos'
  | .ok w' => w'.heapBase ≠ 0 ∧ Keeps last w.heapBase.toNat (heapLog es) w'.heapBase.toNat

/-- What the nested call has to do, in a buffer that ends where the heap ends: the cursor does
    not go back, and if it leaves the buffer nothing was taken. -/
def Nested (w : World) (dest : U32) (es : List Event) : Except Stop (U32 × World) → Prop
  | .error .assertion => False
  | .error .fuel => ∃ pos', Keeps dest.toNat w.heapBase.toNat (heapLog es) pos'
  | .ok (next, w') =>
    (next = 0 ∨ dest ≤ next) ∧ w'.heapBase ≠ 0 ∧
      if w.heapBase < next then heapLog es = [] ∧ w'.heapBase = w.heapBase
      else Keeps dest.toNat w.heapBase.toNat (heapLog es) w'.heapBase.toNat

/-- A buffer that was just reserved: it is aligned as a kernel has to be, and the heap ends with
    it. -/
structure Buffer (w : World) (dest destLen : U32) : Prop where
  ne_zero : dest ≠ 0
  aligned : kernelAlign.toNat ∣ dest.toNat
  stop : w.heapBase.toNat = dest.toNat + destLen.toNat

/-- The nested call does so in every buffer, as long as its sums do not wrap and its decoders
    stay in their buffers. -/
def Handles (load : World → U32 → U32 → Except Stop (U32 × World))
    (events : World → U32 → U32 → List Event) : Prop :=
  ∀ w dest destLen, Buffer w dest destLen → (∀ e ∈ events w dest destLen, e.Tame) →
    Nested w dest (events w dest destLen) (load w dest destLen)

theorem toNat_pos_of_ne_zero {x : U32} (h : x ≠ 0) : 0 < x.toNat :=
  Nat.pos_of_ne_zero fun hzero => h (BitVec.eq_of_toNat_eq hzero)

theorem ne_zero_of_toNat_pos {x : U32} (h : 0 < x.toNat) : x ≠ 0 := by
  rintro rfl
  exact absurd h (by decide)

theorem Buffer.heap_ne_zero {w : World} {dest destLen : U32} (h : Buffer w dest destLen) :
    w.heapBase ≠ 0 := by
  apply ne_zero_of_toNat_pos
  rw [h.stop]
  exact Nat.add_pos_left (toNat_pos_of_ne_zero h.ne_zero) _

theorem Buffer.and_eq_zero {w : World} {dest destLen : U32} (h : Buffer w dest destLen) :
    dest &&& (kernelAlign - 1) = 0 :=
  and_kernelAlign h.aligned

theorem le_add_of_tame {a b : U32} (h : (Event.sum a.toNat b.toNat).Tame) : a ≤ a + b := by
  have hsum : a.toNat + b.toNat < 2 ^ 32 := h
  rw [BitVec.le_def, BitVec.toNat_add, Nat.mod_eq_of_lt hsum]
  exact Nat.le_add_right _ _

section Parts

variable {w : World} {l : Nat} {size align dest destLen p : U32}
  {load : World → U32 → U32 → Except Stop (U32 × World)}
  {events : World → U32 → U32 → List Event}

theorem roundUp_le (a n : Nat) : roundUp a n ≤ n + (a - 1) := Nat.div_mul_le_self _ _

theorem alloc_tame {k : Nat} (hk : k < 32) (halign : align = BitVec.ofNat 32 (2 ^ k))
    (hheap : w.heapBase ≠ 0) (htame : ∀ e ∈ allocEvents size align w, e.Tame) :
    ∃ block, heapblockAllocAligned size align w =
        .ok (block, { w with heapBase := block + size }) ∧
      block.toNat = roundUp align.toNat w.heapBase.toNat ∧
      (block + size).toNat = block.toNat + size.toNat ∧
      heapLog (allocEvents size align w) = [.took ⟨block.toNat, size.toNat, align.toNat⟩] := by
  have hcall := heapblockAllocAligned_two_pow size hk halign hheap
  rw [allocEvents, hcall] at htame
  simp only [List.forall_mem_cons] at htame
  obtain ⟨hround, hend, -⟩ := htame
  have hstart : roundUp align.toNat w.heapBase.toNat < 2 ^ 32 :=
    Nat.lt_of_le_of_lt (roundUp_le _ _) hround
  refine ⟨_, hcall, toNat_alignUp hk halign hstart, ?_, ?_⟩
  · rw [BitVec.toNat_add, Nat.mod_eq_of_lt hend]
  · rw [allocEvents, hcall]
    rfl

theorem kernelAlign_eq : kernelAlign = BitVec.ofNat 32 (2 ^ 18) := rfl

theorem one_eq : (1 : U32) = BitVec.ofNat 32 (2 ^ 0) := rfl

theorem roundUp_one (n : Nat) : roundUp (1 : U32).toNat n = n :=
  roundUp_of_dvd (by decide) (Nat.one_dvd n)

theorem keeps_buffer {stop pos' : Nat} {rest : List Entry}
    (hguard : Bump.Guards (dest.toNat + destLen.toNat) stop rest)
    (hrest : Keeps dest.toNat (dest.toNat + destLen.toNat) rest pos') :
    Keeps l dest.toNat (.took ⟨dest.toNat, destLen.toNat, kernelAlign.toNat⟩ ::
      .uses dest.toNat stop :: rest) pos' :=
  ⟨Nat.le_refl _, rfl, hguard, hrest⟩

theorem reserve_tame (hheap : w.heapBase = dest) (hne : w.heapBase ≠ 0)
    (haligned : kernelAlign.toNat ∣ dest.toNat)
    (htame : ∀ e ∈ allocEvents destLen kernelAlign w, e.Tame) :
    heapblockAllocAligned destLen kernelAlign w =
        .ok (dest, { w with heapBase := dest + destLen }) ∧
      (dest + destLen).toNat = dest.toNat + destLen.toNat ∧
      heapLog (allocEvents destLen kernelAlign w) =
        [.took ⟨dest.toNat, destLen.toNat, kernelAlign.toNat⟩] := by
  obtain ⟨block, hcall, hblock, hend, hlog⟩ := alloc_tame (by decide) kernelAlign_eq hne htame
  rw [hheap, roundUp_of_dvd (by decide) haligned] at hblock
  obtain rfl : dest = block := BitVec.eq_of_toNat_eq hblock.symm
  exact ⟨hcall, hend, hlog⟩

theorem pad_tame {stop next : U32} (hheap : w.heapBase = stop) (hne : w.heapBase ≠ 0)
    (htame : ∀ e ∈ allocEvents (next - stop) 1 w, e.Tame) :
    heapblockAllocAligned (next - stop) 1 w = .ok (stop, { w with heapBase := next }) ∧
      next.toNat = stop.toNat + (next - stop).toNat ∧
      heapLog (allocEvents (next - stop) 1 w) =
        [.took ⟨stop.toNat, (next - stop).toNat, (1 : U32).toNat⟩] := by
  obtain ⟨block, hcall, hblock, hend, hlog⟩ := alloc_tame (by decide) one_eq hne htame
  rw [roundUp_one, hheap] at hblock
  obtain rfl : stop = block := BitVec.eq_of_toNat_eq hblock.symm
  have hnext : stop + (next - stop) = next := by ring
  rw [hnext] at hcall hend
  exact ⟨hcall, hend, hlog⟩

theorem finalize_steady (hheap : w.heapBase = dest) (hne : dest ≠ 0)
    (haligned : kernelAlign.toNat ∣ dest.toNat)
    (htame : ∀ e ∈ finalizeEvents load events dest destLen w, e.Tame)
    (hload : Handles load events) :
    Steady l w (finalizeEvents load events dest destLen w)
      (finalizeUncompression load dest destLen w) := by
  have hne' : w.heapBase ≠ 0 := by
    rw [hheap]
    exact hne
  have halloc : ∀ e ∈ allocEvents destLen kernelAlign w, e.Tame := by
    intro e he
    apply htame e
    rw [finalizeEvents, heapblockAllocAligned_two_pow destLen (by decide) kernelAlign_eq hne']
    exact List.mem_append_left _ he
  obtain ⟨hcall, hend, hlog⟩ := reserve_tame hheap hne' haligned halloc
  rw [finalizeEvents, hcall] at htame
  rw [finalizeEvents, finalizeUncompression, hcall, except_ok_bind]
  dsimp only at htame ⊢
  rw [if_neg (not_not.mpr rfl)] at htame ⊢
  rw [if_neg (not_not.mpr rfl)]
  generalize hw₁ : ({ w with heapBase := dest + destLen } : World) = w₁ at htame ⊢
  have hbase : w₁.heapBase = dest + destLen := by rw [← hw₁]
  have hbuffer : Buffer w₁ dest destLen := ⟨hne, haligned, by rw [hbase, hend]⟩
  replace htame := (List.forall_mem_append.mp htame).2
  cases hres : load w₁ dest destLen with
  | error e =>
    rw [hres] at htame
    dsimp only at htame ⊢
    have hnested := hload w₁ dest destLen hbuffer (List.forall_mem_cons.mp htame).2
    rw [hres] at hnested
    cases e with
    | assertion => exact hnested.elim
    | fuel =>
      obtain ⟨pos', hkeeps⟩ := hnested
      refine ⟨pos', ?_⟩
      rw [heapLog_append, hlog, hheap, hend]
      rw [hbuffer.stop] at hkeeps
      exact keeps_buffer (.inl (Nat.le_refl _)) hkeeps
  | ok x =>
    obtain ⟨next, w₂⟩ := x
    rw [hres] at htame
    dsimp only at htame ⊢
    rw [except_ok_bind]
    dsimp only
    by_cases hout : dest + destLen < next
    · -- the item uses more than the buffer, so it has taken nothing
      rw [if_pos hout, List.forall_mem_cons, List.forall_mem_append] at htame
      have hnested := hload w₁ dest destLen hbuffer htame.2.1
      rw [hres] at hnested
      obtain ⟨hcursor, hne₂, hnothing⟩ := hnested
      rw [hbase, if_pos hout] at hnothing
      obtain ⟨hempty, hbase₂⟩ := hnothing
      obtain ⟨hcall₂, hend₂, hlog₂⟩ := pad_tame hbase₂ hne₂ htame.2.2
      rw [hend] at hend₂
      rw [if_neg (not_not.mpr hcursor), if_pos hout, if_pos hout, hcall₂, except_ok_bind]
      dsimp only
      rw [if_neg (not_not.mpr rfl)]
      refine ⟨ne_zero_of_toNat_pos (Nat.lt_of_le_of_lt (Nat.zero_le _) hout), ?_⟩
      rw [heapLog_append, hlog, hheap]
      change Keeps l dest.toNat (_ :: .uses dest.toNat next.toNat ::
        heapLog (events w₁ dest destLen ++ allocEvents (next - (dest + destLen)) 1 w₂)) next.toNat
      rw [heapLog_append, hempty, List.nil_append, hlog₂, hend]
      refine keeps_buffer (.inr ⟨_, [], rfl, rfl, hend₂.symm⟩) ⟨Nat.le_refl _, ?_⟩
      exact hend₂
    · rw [if_neg hout] at htame
      have hnested := hload w₁ dest destLen hbuffer (List.forall_mem_cons.mp htame).2
      rw [hres] at hnested
      obtain ⟨hcursor, hne₂, hkeeps⟩ := hnested
      rw [hbase, if_neg hout, hend] at hkeeps
      rw [if_neg (not_not.mpr hcursor), if_neg hout, if_neg hout]
      refine ⟨hne₂, ?_⟩
      rw [heapLog_append, hlog, hheap, hend]
      exact keeps_buffer (.inl (Nat.le_refl _)) hkeeps

theorem Steady.took (w₁ : World) {b : Bump.Block} {first es : List Event} {r : Except Stop World}
    (hlog : heapLog first = [.took b]) (hle : w.heapBase.toNat ≤ b.start)
    (hstop : b.stop = w₁.heapBase.toNat) (h : Steady b.start w₁ es r) :
    Steady l w (first ++ es) r := by
  match r with
  | .error .assertion => exact h
  | .error .fuel =>
    obtain ⟨pos', hkeeps⟩ := h
    refine ⟨pos', ?_⟩
    rw [heapLog_append, hlog]
    rw [← hstop] at hkeeps
    exact ⟨hle, hkeeps⟩
  | .ok w' =>
    refine ⟨h.1, ?_⟩
    have hkeeps := h.2
    rw [heapLog_append, hlog]
    rw [← hstop] at hkeeps
    exact ⟨hle, hkeeps⟩

/-- `decompress_gz` and `decompress_xz`: besides, the cursor stays in the buffer the decoder was
    started in. -/
theorem decompress_steady {decode : Mem 32 → U32 → U32 → Mem 32 × Option (U32 × U32)}
    (hheap : w.heapBase ≠ 0)
    (htame : ∀ e ∈ decompressEvents decode load events p size w, e.Tame)
    (hload : Handles load events) :
    Steady l w (decompressEvents decode load events p size w)
        ((decompress decode load p w).map Prod.snd) ∧
      ∀ r w', decompress decode load p w = .ok (r, w') →
        r = 0 ∨ p.toNat ≤ r.toNat ∧ r.toNat ≤ p.toNat + size.toNat := by
  have halloc : ∀ e ∈ allocEvents 0 kernelAlign w, e.Tame := by
    intro e he
    apply htame e
    rw [decompressEvents, heapblockAllocAligned_two_pow 0 (by decide) kernelAlign_eq hheap]
    exact List.mem_append_left _ he
  obtain ⟨dest, hcall, hblock, hend, hlog⟩ := alloc_tame (by decide) kernelAlign_eq hheap halloc
  have hzero : dest + 0 = dest := BitVec.add_zero dest
  have hle : w.heapBase.toNat ≤ dest.toNat := by
    rw [hblock]
    exact le_roundUp (by decide) _
  have hne : dest ≠ 0 :=
    ne_zero_of_toNat_pos (Nat.lt_of_lt_of_le (toNat_pos_of_ne_zero hheap) hle)
  have haligned : kernelAlign.toNat ∣ dest.toNat := by
    rw [hblock]
    exact dvd_roundUp _ _
  rw [decompressEvents, hcall] at htame
  rw [decompressEvents, decompress, hcall, except_ok_bind]
  dsimp only at htame ⊢
  rw [hzero] at htame ⊢
  replace htame := (List.forall_mem_append.mp htame).2
  rcases hdecode : decode w.mem dest p with ⟨mem, _ | ⟨sourceLen, destLen⟩⟩
  · dsimp only
    refine ⟨Steady.took { w with heapBase := dest, mem := mem } hlog hle rfl ⟨hne, rfl⟩, ?_⟩
    · intro r w' h
      exact .inl (Prod.mk.inj (Except.ok.inj h)).1.symm
  · rw [hdecode] at htame
    dsimp only at htame ⊢
    simp only [List.forall_mem_cons] at htame
    obtain ⟨hused, hcursor, htame⟩ := htame
    have hfin := finalize_steady (l := dest.toNat) rfl hne haligned htame hload
    generalize finalizeUncompression load dest destLen _ = result at hfin ⊢
    constructor
    · refine Steady.took { w with heapBase := dest, mem := mem } hlog hle rfl ?_
      cases result with
      | error e => exact hfin
      | ok w₁ => exact hfin
    · intro r w' h
      obtain ⟨w₁, -, h⟩ := except_bind_eq_ok h
      cases h
      right
      have hsum : p.toNat + sourceLen.toNat < 2 ^ 32 := hcursor
      have hroom : sourceLen.toNat ≤ size.toNat := hused
      rw [BitVec.toNat_add, Nat.mod_eq_of_lt hsum]
      omega

theorem nested_leaf {next : U32} {w' : World} {es : List Event} (hbuffer : Buffer w dest destLen)
    (hlog : heapLog es = []) (hbase : w'.heapBase = w.heapBase)
    (hnext : next = 0 ∨ dest ≤ next) : Nested w dest es (.ok (next, w')) := by
  refine ⟨hnext, ?_, ?_⟩
  · rw [hbase]
    exact hbuffer.heap_ne_zero
  · split
    · exact ⟨hlog, hbase⟩
    · rw [hlog, hbase]
      exact rfl

theorem nested_decompress {decode : Mem 32 → U32 → U32 → Mem 32 × Option (U32 × U32)}
    (hbuffer : Buffer w dest destLen)
    (htame : ∀ e ∈ decompressEvents decode load events dest destLen w, e.Tame)
    (hload : Handles load events) :
    Nested w dest (decompressEvents decode load events dest destLen w)
      (decompress decode load dest w) := by
  obtain ⟨hsteady, hcursor⟩ :=
    decompress_steady (l := dest.toNat) hbuffer.heap_ne_zero htame hload
  rcases hres : decompress decode load dest w with (_ | _) | ⟨r, w'⟩
  · rw [hres] at hsteady
    exact hsteady
  · rw [hres] at hsteady
    exact hsteady
  · rw [hres] at hsteady
    have hin := hcursor r w' hres
    refine ⟨hin.imp_right fun h => BitVec.le_def.mpr h.1, hsteady.1, ?_⟩
    have hle : ¬w.heapBase < r := by
      rw [BitVec.lt_def, hbuffer.stop, Nat.not_lt]
      rcases hin with rfl | hin
      · exact Nat.zero_le _
      · exact hin.2
    rw [if_neg hle]
    exact hsteady.2

theorem nested_kernel (hbuffer : Buffer w dest destLen) (level : Nat)
    (htame : ∀ e ∈ kernelEvents dest destLen w, e.Tame) :
    Nested w dest (kernelEvents dest destLen w) (loadKernel level dest destLen w) := by
  have haligned : ¬(dest &&& (kernelAlign - 1) ≠ 0) := not_not.mpr hbuffer.and_eq_zero
  rw [kernelEvents, if_neg haligned, List.forall_mem_singleton] at htame
  rw [kernelEvents, loadKernel, if_neg haligned, if_neg haligned]
  exact nested_leaf hbuffer rfl rfl (.inr (le_add_of_tame htame))

theorem nested_item (L : Libs) (level : Nat) (hbuffer : Buffer w dest destLen) (item : Item)
    (htame : ∀ e ∈ itemEvents L load events w dest destLen item, e.Tame)
    (hload : Handles load events) :
    Nested w dest (itemEvents L load events w dest destLen item)
      (loadItem L load level w dest destLen item) := by
  cases item with
  | gzip => exact nested_decompress hbuffer htame hload
  | xz => exact nested_decompress hbuffer htame hload
  | fdt =>
    have hsum := List.forall_mem_singleton.mp htame
    refine nested_leaf hbuffer rfl ?_ (.inr (le_add_of_tame hsum))
    split <;> rfl
  | cpio =>
    have hsum := List.forall_mem_singleton.mp htame
    rw [loadItem, loadCpio]
    split
    · exact nested_leaf hbuffer rfl rfl (.inl rfl)
    · exact nested_leaf hbuffer rfl rfl (.inr (le_add_of_tame hsum))
  | kernel => exact nested_kernel hbuffer level htame
  | signature =>
    have hsum := List.forall_mem_singleton.mp htame
    exact nested_leaf hbuffer rfl rfl (.inr (le_add_of_tame hsum))
  | initramfs =>
    obtain ⟨hfirst, hsum⟩ := List.forall_mem_cons.mp htame
    have hsecond := List.forall_mem_singleton.mp hsum
    rw [loadItem, loadCpio]
    split
    · exact nested_leaf hbuffer rfl rfl (.inl rfl)
    · have hstart : dest ≤ dest + 18 := le_add_of_tame hfirst
      exact nested_leaf hbuffer rfl rfl (.inr (BitVec.le_trans hstart (le_add_of_tame hsecond)))
  | var stop =>
    have hsum := List.forall_mem_singleton.mp htame
    have hstop : stop + 1 < 2 ^ 32 := Nat.lt_of_le_of_lt (Nat.le_add_left _ _) hsum
    refine nested_leaf hbuffer rfl rfl (.inr (le_add_of_tame ?_))
    rw [BitVec.toNat_ofNat, Nat.mod_eq_of_lt hstop]
    exact hsum
  | nothing => exact nested_leaf hbuffer rfl rfl (.inl rfl)
  | unknown =>
    rw [itemEvents] at htame
    rw [itemEvents, loadItem]
    split
    · rename_i hfdt
      rw [if_pos hfdt] at htame
      exact nested_kernel hbuffer level htame
    · exact nested_leaf hbuffer rfl rfl (.inl rfl)

end Parts

/-! ### Whole calls -/

/-- `load_one_payload` in a buffer, however deep the payloads are nested in it. -/
theorem handles_loadOnePayload (L : Libs) (fuel level : Nat) :
    Handles (loadOnePayload L fuel level) (loadEvents L fuel level) := by
  induction fuel generalizing level with
  | zero =>
    intro w dest destLen _ _
    exact ⟨_, rfl⟩
  | succ fuel ih =>
    intro w dest destLen hbuffer htame
    rw [loadEvents, if_neg hbuffer.ne_zero] at htame
    rw [loadEvents, loadOnePayload, if_neg hbuffer.ne_zero, if_neg hbuffer.ne_zero]
    exact nested_item L level hbuffer _ htame (ih (level + 1))

theorem decompress_reserved {decode : Mem 32 → U32 → U32 → Mem 32 × Option (U32 × U32)}
    (L : Libs) (fuel level : Nat) (w : World) (p size : U32)
    (htame : ∀ e ∈ decompressEvents decode (loadOnePayload L fuel level) (loadEvents L fuel level)
      p size w, e.Tame) :
    (decompress decode (loadOnePayload L fuel level) p w = .error .assertion → w.heapBase = 0) ∧
      Bump.Reserved (heapLog (decompressEvents decode (loadOnePayload L fuel level)
        (loadEvents L fuel level) p size w)) ∧
      ∀ r w', decompress decode (loadOnePayload L fuel level) p w = .ok (r, w') →
        ∀ start stop, Entry.uses start stop ∈ heapLog (decompressEvents decode
            (loadOnePayload L fuel level) (loadEvents L fuel level) p size w) →
          stop ≤ w'.heapBase.toNat := by
  by_cases hheap : w.heapBase = 0
  · have hcall : heapblockAllocAligned 0 kernelAlign w = .error .assertion := by
      rw [heapblockAllocAligned_kernel, if_pos hheap]
    rw [decompressEvents, hcall]
    refine ⟨fun _ => hheap, Bump.reserved_nil, ?_⟩
    intro r w' _ start stop hmem
    exact absurd hmem List.not_mem_nil
  · obtain ⟨hsteady, -⟩ := decompress_steady (l := w.heapBase.toNat) hheap htame
      (handles_loadOnePayload L fuel level)
    generalize decompress decode (loadOnePayload L fuel level) p w = result at hsteady ⊢
    rcases result with (_ | _) | ⟨r, w'⟩
    · exact hsteady.elim
    · obtain ⟨pos', hkeeps⟩ := hsteady
      refine ⟨fun h => ?_, hkeeps.reserved, fun r w' h => ?_⟩
      · exact absurd (Except.error.inj h) (by decide)
      · contradiction
    · have hkeeps := hsteady.2
      refine ⟨fun h => ?_, hkeeps.reserved, ?_⟩
      · contradiction
      · intro r₁ w₁ h start stop hmem
        cases h
        exact hkeeps.stop_le hmem

/-- A compressed payload, whatever it holds: the assertions of `finalize_uncompression` hold, so
    that only an uninitialised heap can stop the call; the log of the heap is in order; and at
    the end the heap starts behind every area in use. -/
theorem unpacked_reserved (L : Libs) (fuel level : Nat) (w : World) (p size : U32) (hp : p ≠ 0)
    (hitem : itemAt w.mem p = .gzip ∨ itemAt w.mem p = .xz)
    (htame : ∀ e ∈ loadEvents L fuel level w p size, e.Tame) :
    (loadOnePayload L fuel level w p size = .error .assertion → w.heapBase = 0) ∧
      Bump.Reserved (heapLog (loadEvents L fuel level w p size)) ∧
      ∀ r w', loadOnePayload L fuel level w p size = .ok (r, w') →
        ∀ start stop, Entry.uses start stop ∈ heapLog (loadEvents L fuel level w p size) →
          stop ≤ w'.heapBase.toNat := by
  cases fuel with
  | zero =>
    refine ⟨fun h => ?_, Bump.reserved_nil, fun r w' h => ?_⟩
    · exact absurd (Except.error.inj h) (by decide)
    · contradiction
  | succ fuel =>
    rw [loadEvents, if_neg hp] at htame ⊢
    rw [loadOnePayload, if_neg hp]
    rcases hitem with hitem | hitem
    · rw [hitem] at htame ⊢
      exact decompress_reserved L fuel (level + 1) w p size htame
    · rw [hitem] at htame ⊢
      exact decompress_reserved L fuel (level + 1) w p size htame

def nestedKernel : Libs where
  tinfGzipUncompress m dest _ := (m.store dest xzMagic, some (10, 64))
  xzDecode m dest _ := (m.store dest kernelMagic, some (60, 0x100000))
  fdtNodeCheckCompatible _ _ := false

theorem unpacked_reserved_nestedKernel :
    loadOnePayload nestedKernel 3 0 (ramDisk gzMagic) 0x1000 0x100 ≠ .error .assertion ∧
      Bump.Reserved (heapLog (loadEvents nestedKernel 3 0 (ramDisk gzMagic) 0x1000 0x100)) ∧
      ∃ start, Entry.uses start (start + 0x1400000) ∈
        heapLog (loadEvents nestedKernel 3 0 (ramDisk gzMagic) 0x1000 0x100) := by
  obtain ⟨hassert, hreserved, -⟩ := unpacked_reserved nestedKernel 3 0 (ramDisk gzMagic) 0x1000
    0x100 (by decide) (.inl (by decide)) (by decide +kernel)
  refine ⟨fun h => absurd (hassert h) (by decide), hreserved, 0x140000, ?_⟩
  decide +kernel

end MiniHaywire.Payload
