import MiniHaywire.Payload

/-!
# What the payload scan reads of the RAM disk

`payload_run` passes the length of the whole RAM disk to every call, so a handler
that takes this length for the length of its item (`load_cpio` for a bare archive,
`load_kernel` for a kernel that has to be moved) stays inside the disk only if the
item is the first one.

A call appends to the log of copies, and what a nested call appends is one level
further down (`loadOnePayload_logs`).  The copies of the outer call are then read
off its own branch, and `payload_inside` says exactly when they and the cursor stay
inside the disk.
-/

namespace MiniHaywire.Payload

/-! ### The log of copies -/

section Logs

variable {L : Libs} {level : Nat} {w w₁ w₂ w' : World} {p r size : U32}
  {load : World → U32 → U32 → Except Stop (U32 × World)}

/-- From one state to the other, copies were made at least `level` payloads deep. -/
def Logs (level : Nat) (w w' : World) : Prop :=
  ∃ new, w'.copies = w.copies ++ new ∧ ∀ c ∈ new, level ≤ c.level

theorem Logs.of_eq (h : w'.copies = w.copies) : Logs level w w' :=
  ⟨[], by rw [h, List.append_nil], by simp⟩

theorem Logs.one {c : Copy} (h : w'.copies = w.copies ++ [c]) (hc : level ≤ c.level) :
    Logs level w w' := by
  refine ⟨[c], h, ?_⟩
  intro d hd
  rw [List.mem_singleton.mp hd]
  exact hc

theorem Logs.trans (h₁ : Logs level w w₁) (h₂ : Logs level w₁ w₂) : Logs level w w₂ := by
  obtain ⟨new₁, he₁, hl₁⟩ := h₁
  obtain ⟨new₂, he₂, hl₂⟩ := h₂
  refine ⟨new₁ ++ new₂, by rw [he₂, he₁, List.append_assoc], ?_⟩
  intro c hc
  rcases List.mem_append.mp hc with hc | hc
  · exact hl₁ c hc
  · exact hl₂ c hc

theorem Logs.weaken (h : Logs (level + 1) w w') : Logs level w w' := by
  obtain ⟨new, he, hl⟩ := h
  exact ⟨new, he, fun c hc => Nat.le_of_succ_le (hl c hc)⟩

theorem loadKernel_logs (h : loadKernel level p size w = .ok (r, w')) : Logs level w w' := by
  unfold loadKernel at h
  split at h
  · obtain ⟨⟨newAddr, w₁⟩, halloc, h⟩ := except_bind_eq_ok h
    obtain ⟨-, rfl⟩ := Prod.mk.inj (Except.ok.inj h)
    have hcopies := heapblockAllocAligned_copies halloc
    apply Logs.one
    · change w₁.copies ++ _ = _
      rw [hcopies]
    · exact Nat.le_refl level
  · obtain ⟨-, rfl⟩ := Prod.mk.inj (Except.ok.inj h)
    exact Logs.of_eq rfl

theorem loadCpio_logs (level : Nat) (p size : U32) (w : World) :
    Logs level w (loadCpio level p size w).2 := by
  unfold loadCpio
  split
  · exact Logs.of_eq rfl
  · exact Logs.one rfl (Nat.le_refl level)

theorem loadFdt_copies (L : Libs) (p : U32) (w : World) : (loadFdt L p w).2.copies = w.copies := by
  unfold loadFdt
  split
  · rfl
  · rfl

theorem finalizeUncompression_logs {dest destLen : U32}
    (hload : ∀ w p size r w', load w p size = .ok (r, w') → Logs level w w')
    (h : finalizeUncompression load dest destLen w = .ok w') : Logs level w w' := by
  unfold finalizeUncompression at h
  obtain ⟨⟨block, w₁⟩, halloc, h⟩ := except_bind_eq_ok h
  have hreserved : Logs level w w₁ := Logs.of_eq (heapblockAllocAligned_copies halloc)
  dsimp only at h
  split at h
  · contradiction
  · obtain ⟨⟨next, w₂⟩, hnext, h⟩ := except_bind_eq_ok h
    have hhandled : Logs level w w₂ := hreserved.trans (hload _ _ _ _ _ hnext)
    dsimp only at h
    split at h
    · contradiction
    · split at h
      · obtain ⟨⟨block', w₃⟩, halloc', h⟩ := except_bind_eq_ok h
        dsimp only at h
        split at h
        · contradiction
        · cases h
          exact hhandled.trans (Logs.of_eq (heapblockAllocAligned_copies halloc'))
      · cases h
        exact hhandled

theorem decompress_logs {decode : Mem 32 → U32 → U32 → Mem 32 × Option (U32 × U32)}
    (hload : ∀ w p size r w', load w p size = .ok (r, w') → Logs level w w')
    (h : decompress decode load p w = .ok (r, w')) : Logs level w w' := by
  obtain ⟨-, ⟨-, -, rfl⟩ | ⟨sourceLen, destLen, -, -, hfin⟩⟩ := decompress_eq_ok.mp h
  · exact Logs.of_eq rfl
  · have hopened : Logs level w (w.unpacked (decode w.mem w.unpackTo p).1) := Logs.of_eq rfl
    exact hopened.trans (finalizeUncompression_logs hload hfin)

/-- Nested calls log their copies further down. -/
theorem loadOnePayload_logs (L : Libs) (fuel level : Nat) (w : World) (p size r : U32) (w' : World)
    (h : loadOnePayload L fuel level w p size = .ok (r, w')) : Logs level w w' := by
  induction fuel generalizing level w p size r w' with
  | zero => contradiction
  | succ fuel ih =>
    rw [loadOnePayload] at h
    split at h
    · cases h
      exact Logs.of_eq rfl
    · cases hitem : itemAt w.mem p with
      | gzip =>
        rw [hitem] at h
        exact (decompress_logs (ih (level + 1)) h).weaken
      | xz =>
        rw [hitem] at h
        exact (decompress_logs (ih (level + 1)) h).weaken
      | fdt =>
        rw [hitem] at h
        rw [← (Prod.mk.inj (Except.ok.inj h)).2]
        exact Logs.of_eq (loadFdt_copies L p w)
      | cpio =>
        rw [hitem] at h
        have hlogs := loadCpio_logs level p size w
        rw [Except.ok.inj h] at hlogs
        exact hlogs
      | kernel =>
        rw [hitem] at h
        exact loadKernel_logs h
      | signature | var | nothing =>
        rw [hitem] at h
        rw [← (Prod.mk.inj (Except.ok.inj h)).2]
        exact Logs.of_eq rfl
      | initramfs =>
        rw [hitem] at h
        have hlogs := loadCpio_logs level (p + 18) (readLe32 w.mem (p + 14)) w
        rw [Except.ok.inj h] at hlogs
        exact hlogs
      | unknown =>
        rw [hitem] at h
        dsimp only [loadItem] at h
        split at h
        · exact loadKernel_logs h
        · cases h
          exact Logs.of_eq rfl

end Logs

/-! ### Inside the disk -/

section Inside

variable {L : Libs} {start stop p n r size : U32} {w w' : World}

/-- The block lies in `[start, stop)`. -/
def Inside (start stop src len : U32) : Prop :=
  start ≤ src ∧ src.toNat + len.toNat ≤ stop.toNat

/-- The cursor for the next item is in the disk, or the loop ends there. -/
def CursorInside (start stop r : U32) : Prop :=
  r = 0 ∨ stop ≤ r ∨ (start ≤ r ∧ r ≤ stop)

def newCopies (w w' : World) : List Copy := w'.copies.drop w.copies.length

/-- The copies that a call itself made are inside the disk, and so is its cursor. -/
def StaysInside (start stop : U32) (w : World) (r : U32) (w' : World) : Prop :=
  (∀ c ∈ newCopies w w', c.level = 0 → Inside start stop c.src c.len) ∧ CursorInside start stop r

/-- A length that does not carry the cursor around the address space to a place before
    the disk. -/
def Lands (start p n : U32) : Prop :=
  p.toNat + n.toNat ≤ 2 ^ 32 ∨ 2 ^ 32 + start.toNat ≤ p.toNat + n.toNat

/-- A kernel that is moved is the first item, and the cursor behind the place it is moved
    to is not below the disk. -/
def KernelFits (start stop : U32) (w : World) (p : U32) : Prop :=
  if p &&& (kernelAlign - 1) ≠ 0 then
    w.heapBase ≠ 0 →
      p = start ∧ CursorInside start stop (alignUp w.heapBase kernelAlign + kernelRoom)
  else Lands start p kernelRoom

/-- The consumed length of a payload whose contents open. -/
def UnpackFits (L : Libs) (decode : Mem 32 → U32 → U32 → Mem 32 × Option (U32 × U32))
    (start : U32) (w : World) (p : U32) : Prop :=
  w.heapBase ≠ 0 →
    ∀ sourceLen destLen, (decode w.mem w.unpackTo p).2 = some (sourceLen, destLen) →
      (∃ heap, Opens L w.fdt (decode w.mem w.unpackTo p).1 w.unpackTo destLen heap) →
      Lands start p sourceLen

/-- What has to hold of the item at the cursor for the call to stay inside the disk. -/
def Fits (L : Libs) (start stop : U32) (w : World) (p : U32) : Prop :=
  match itemAt w.mem p with
  | .gzip => UnpackFits L L.tinfGzipUncompress start w p
  | .xz => UnpackFits L L.xzDecode start w p
  | .fdt => Lands start p (fdtTotalsize w.mem p)
  | .cpio => p = start
  | .kernel => KernelFits start stop w p
  | .signature => Lands start p (readLe32 w.mem (p + 8))
  | .initramfs =>
    readLe32 w.mem (p + 14) = 0 ∨ Inside start stop (p + 18) (readLe32 w.mem (p + 14))
  | .var stop => Lands start p (BitVec.ofNat 32 (stop + 1))
  | .nothing => True
  | .unknown => w.fdt = 0 ∨ KernelFits start stop w p

theorem cursorInside_add (hstart : start ≤ p) (hstop : p < stop) :
    CursorInside start stop (p + n) ↔ Lands start p n := by
  have hzero : p + n = 0 ↔ (p.toNat + n.toNat) % 2 ^ 32 = 0 := by
    rw [← BitVec.toNat_add]
    exact ⟨fun h => congrArg BitVec.toNat h, fun h => BitVec.eq_of_toNat_eq h⟩
  rw [BitVec.le_def] at hstart
  rw [BitVec.lt_def] at hstop
  rw [CursorInside, Lands, hzero, BitVec.le_def, BitVec.le_def, BitVec.le_def, BitVec.toNat_add]
  have := p.isLt
  have := n.isLt
  omega

/-- The whole length of the disk fits behind its first item only. -/
theorem inside_whole (hstart : start ≤ p) (hstop : p < stop) :
    Inside start stop p (stop - start) ↔ p = start := by
  rw [BitVec.le_def] at hstart
  rw [BitVec.lt_def] at hstop
  have hsize : (stop - start).toNat = stop.toNat - start.toNat :=
    BitVec.toNat_sub_of_le (by rw [BitVec.le_def]; omega)
  rw [Inside, hsize, BitVec.le_def, BitVec.toNat_eq]
  omega

theorem staysInside_of_copies (h : w'.copies = w.copies) :
    StaysInside start stop w r w' ↔ CursorInside start stop r := by
  unfold StaysInside newCopies
  rw [h, List.drop_length]
  simp

theorem staysInside_of_copy {src len : U32} (h : w'.copies = w.copies ++ [⟨0, src, len⟩]) :
    StaysInside start stop w r w' ↔ Inside start stop src len ∧ CursorInside start stop r := by
  unfold StaysInside newCopies
  rw [h, List.drop_left]
  simp

theorem staysInside_of_logs (h : Logs 1 w w') :
    StaysInside start stop w r w' ↔ CursorInside start stop r := by
  obtain ⟨new, he, hl⟩ := h
  unfold StaysInside newCopies
  rw [he, List.drop_left, and_iff_right]
  intro c hc hlevel
  have := hl c hc
  omega

theorem decompress_inside {decode : Mem 32 → U32 → U32 → Mem 32 × Option (U32 × U32)}
    (hstart : start ≤ p) (hstop : p < stop) :
    (∀ fuel r w', decompress decode (loadOnePayload L fuel 1) p w = .ok (r, w') →
        StaysInside start stop w r w') ↔ UnpackFits L decode start w p := by
  constructor
  · intro h hheap sourceLen destLen hd hopens
    obtain ⟨fuel, w', hfin⟩ := exists_finalize_iff.mpr hopens
    have hret := decompress_eq_ok.mpr ⟨hheap, .inr ⟨sourceLen, destLen, hd, rfl, hfin⟩⟩
    exact (cursorInside_add hstart hstop).mp (h fuel _ w' hret).2
  · intro h fuel r w' hret
    have hlogs : Logs 1 w w' := decompress_logs (loadOnePayload_logs L fuel 1) hret
    rw [staysInside_of_logs hlogs]
    obtain ⟨hheap, ⟨-, rfl, -⟩ | ⟨sourceLen, destLen, hd, rfl, hfin⟩⟩ := decompress_eq_ok.mp hret
    · exact .inl rfl
    · exact (cursorInside_add hstart hstop).mpr
        (h hheap sourceLen destLen hd (exists_finalize_iff.mp ⟨fuel, w', hfin⟩))

theorem loadKernel_inside (hstart : start ≤ p) (hstop : p < stop) :
    (∀ r w', loadKernel 0 p (stop - start) w = .ok (r, w') → StaysInside start stop w r w') ↔
      KernelFits start stop w p := by
  unfold loadKernel KernelFits
  by_cases halign : p &&& (kernelAlign - 1) ≠ 0
  · rw [if_pos halign, if_pos halign, heapblockAllocAligned_kernel]
    by_cases hheap : w.heapBase = 0
    · rw [if_pos hheap]
      constructor
      · intro _ hne
        contradiction
      · intro _ r w' h
        contradiction
    · rw [if_neg hheap, except_ok_bind]
      constructor
      · intro h _
        obtain ⟨hinside, hcursor⟩ := (staysInside_of_copy rfl).mp (h _ _ rfl)
        exact ⟨(inside_whole hstart hstop).mp hinside, hcursor⟩
      · intro h r w' hret
        obtain ⟨rfl, rfl⟩ := Prod.mk.inj (Except.ok.inj hret)
        obtain ⟨hfirst, hcursor⟩ := h hheap
        exact (staysInside_of_copy rfl).mpr ⟨(inside_whole hstart hstop).mpr hfirst, hcursor⟩
  · rw [if_neg halign, if_neg halign, ← cursorInside_add hstart hstop]
    constructor
    · intro h
      exact (h _ _ rfl).2
    · intro h r w' hret
      obtain ⟨rfl, rfl⟩ := Prod.mk.inj (Except.ok.inj hret)
      exact (staysInside_of_copies rfl).mpr h

theorem loadCpio_inside (q : U32) :
    StaysInside start stop w (loadCpio 0 q size w).1 (loadCpio 0 q size w).2 ↔
      size = 0 ∨ Inside start stop q size := by
  unfold loadCpio
  by_cases hsize : size = 0
  · rw [if_pos hsize]
    exact iff_of_true ((staysInside_of_copies rfl).mpr (.inl rfl)) (.inl hsize)
  · rw [if_neg hsize, or_iff_right hsize]
    refine (staysInside_of_copy rfl).trans (and_iff_left_of_imp ?_)
    rintro ⟨hfrom, hto⟩
    rw [BitVec.le_def] at hfrom
    have hstop := stop.isLt
    rw [CursorInside, BitVec.le_def, BitVec.le_def, BitVec.le_def, BitVec.toNat_add]
    by_cases hlt : q.toNat + size.toNat < 2 ^ 32
    · rw [Nat.mod_eq_of_lt hlt]
      omega
    · omega

theorem forall_loadOnePayload_iff (hp : p ≠ 0) {P : U32 → World → Prop} :
    (∀ fuel r w', loadOnePayload L fuel 0 w p size = .ok (r, w') → P r w') ↔
      ∀ fuel r w', loadItem L (loadOnePayload L fuel 1) 0 w p size (itemAt w.mem p) = .ok (r, w') →
        P r w' := by
  constructor
  · intro h fuel r w' hret
    apply h (fuel + 1) r w'
    rw [loadOnePayload, if_neg hp]
    exact hret
  · intro h fuel r w' hret
    cases fuel with
    | zero => contradiction
    | succ fuel =>
      rw [loadOnePayload, if_neg hp] at hret
      exact h fuel r w' hret

theorem forall_ok_iff {P : U32 → World → Prop} (x : U32 × World) :
    (∀ (_ : Nat) (r : U32) (w' : World), Except.ok x = (.ok (r, w') : Except Stop _) → P r w') ↔
      P x.1 x.2 := by
  constructor
  · intro h
    exact h 0 x.1 x.2 rfl
  · intro h _ r w' hret
    rw [Except.ok.inj hret] at h
    exact h

/-- For an item inside the RAM disk, the bytes that handling it copies and the cursor it
    returns are inside the disk exactly if the item fits: the length of the whole disk is
    taken for that of a bare archive and of a kernel that is moved. -/
theorem payload_inside (L : Libs) (w : World) (start stop p : U32) (hstart : start ≤ p)
    (hstop : p < stop) (hp : p ≠ 0) :
    (∀ fuel r w', loadOnePayload L fuel 0 w p (stop - start) = .ok (r, w') →
        (∀ c ∈ newCopies w w', c.level = 0 → Inside start stop c.src c.len) ∧
          (r = 0 ∨ stop ≤ r ∨ (start ≤ r ∧ r ≤ stop))) ↔
      Fits L start stop w p := by
  change (∀ fuel r w', _ → StaysInside start stop w r w') ↔ _
  rw [forall_loadOnePayload_iff hp]
  unfold Fits
  cases itemAt w.mem p with
  | gzip => exact decompress_inside hstart hstop
  | xz => exact decompress_inside hstart hstop
  | fdt =>
    refine (forall_ok_iff _).trans ((staysInside_of_copies (loadFdt_copies L p w)).trans ?_)
    exact cursorInside_add hstart hstop
  | cpio =>
    have hsize : stop - start ≠ 0 := by
      intro hzero
      have hnat := congrArg BitVec.toNat hzero
      have hlt : start.toNat < stop.toNat := Nat.lt_of_le_of_lt hstart hstop
      rw [BitVec.toNat_sub_of_le (Nat.le_of_lt hlt)] at hnat
      exact Nat.sub_ne_zero_of_lt hlt hnat
    refine (forall_ok_iff _).trans ?_
    rw [loadCpio_inside, or_iff_right hsize, inside_whole hstart hstop]
  | kernel => exact (forall_const Nat).trans (loadKernel_inside hstart hstop)
  | signature =>
    refine (forall_ok_iff _).trans ((staysInside_of_copies rfl).trans ?_)
    exact cursorInside_add hstart hstop
  | initramfs => exact (forall_ok_iff _).trans (loadCpio_inside (p + 18))
  | var _ =>
    refine (forall_ok_iff _).trans ((staysInside_of_copies rfl).trans ?_)
    exact cursorInside_add hstart hstop
  | nothing =>
    refine (forall_ok_iff _).trans ((staysInside_of_copies rfl).trans ?_)
    exact iff_of_true (.inl rfl) trivial
  | unknown =>
    dsimp only [loadItem]
    by_cases hfdt : w.fdt = 0
    · rw [if_neg (not_not.mpr hfdt)]
      refine (forall_ok_iff _).trans ((staysInside_of_copies rfl).trans ?_)
      exact iff_of_true (.inl rfl) (.inl hfdt)
    · rw [if_pos hfdt, or_iff_right hfdt, forall_const]
      exact loadKernel_inside hstart hstop

/-- A disk that is one bare archive is read from end to end. -/
theorem payload_inside_cpio :
    Fits noLibs 0x1000 0x1020 (ramDisk cpioMagic) 0x1000 ∧
    ∀ fuel r w', loadOnePayload noLibs fuel 0 (ramDisk cpioMagic) 0x1000 (0x1020 - 0x1000) =
        .ok (r, w') →
      (∀ c ∈ newCopies (ramDisk cpioMagic) w', c.level = 0 → Inside 0x1000 0x1020 c.src c.len) ∧
        (r = 0 ∨ 0x1020 ≤ r ∨ (0x1000 ≤ r ∧ r ≤ 0x1020)) := by
  have hfits : Fits noLibs 0x1000 0x1020 (ramDisk cpioMagic) 0x1000 := by
    unfold Fits
    rw [show itemAt (ramDisk cpioMagic).mem 0x1000 = .cpio by decide]
  exact ⟨hfits, (payload_inside noLibs (ramDisk cpioMagic) 0x1000 0x1020 0x1000 (by decide)
    (by decide) (by decide)).mpr hfits⟩

def varThenCpio : World := ramDisk ([0x61, 0x3d, 0x62, 0x0a] ++ cpioMagic)

/-- The variable is consumed, and the archive behind it is handed on with the length of the
    whole disk: four bytes from behind the disk are in the initial RAM disk. -/
theorem cpio_read_past_end :
    loadOnePayload noLibs 1 0 varThenCpio 0x1000 (0x1020 - 0x1000) =
        .ok (0x1004, (takeVar 3 0x1000 varThenCpio).2) ∧
      (loadOnePayload noLibs 1 0 (takeVar 3 0x1000 varThenCpio).2 0x1004 (0x1020 - 0x1000)).map
          (fun x => (x.1, newCopies (takeVar 3 0x1000 varThenCpio).2 x.2)) =
        .ok (0x1024, [⟨0, 0x1004, 0x20⟩]) ∧
      ¬Inside 0x1000 0x1020 0x1004 0x20 := by
  have hvar : itemAt varThenCpio.mem 0x1000 = .var 3 := by decide
  have hcpio : itemAt (takeVar 3 0x1000 varThenCpio).2.mem 0x1004 = .cpio := by decide
  refine ⟨?_, ?_, ?_⟩
  · rw [loadOnePayload, if_neg (by decide), hvar]
    rfl
  · rw [loadOnePayload, if_neg (by decide), hcpio]
    rfl
  · rintro ⟨-, hto⟩
    revert hto
    decide

end Inside

end MiniHaywire.Payload
