import MiniHaywire.Bump
import MiniHaywire.Payload

/-!
# The heapblock allocator

`heapblock.c` hands out memory from `heap_base` on and never takes any back.  Its
three clients rely on different things: the decompressors on a call for 0 bytes to
announce where the next call of that alignment will get its block, dlmalloc's
`sbrk` on consecutive calls to return adjacent blocks, and everyone on blocks that
do not meet.

As long as the blocks stay below the end of the address space the calls are the
requests of a bump allocator over the natural numbers (`heapRun_eq`), and all
three are read off its list of blocks.
-/

namespace MiniHaywire.Payload

def heapblockAlloc (size : U32) (w : World) : Except Stop (U32 × World) :=
  heapblockAllocAligned size 64 w

inductive HeapCall where
  | alloc (size : U32)
  | allocAligned (size align : U32)

namespace HeapCall

def exec : HeapCall → World → Except Stop (U32 × World)
  | alloc size => heapblockAlloc size
  | allocAligned size align => heapblockAllocAligned size align

def size : HeapCall → U32
  | alloc size => size
  | allocAligned size _ => size

def align : HeapCall → U32
  | alloc _ => 64
  | allocAligned _ align => align

theorem exec_eq (c : HeapCall) (w : World) : c.exec w = heapblockAllocAligned c.size c.align w := by
  cases c <;> rfl

end HeapCall

/-- A sequence of calls: the blocks they returned, and the state after the last one. -/
def heapRun : List HeapCall → World → Except Stop (List U32 × World)
  | [], w => .ok ([], w)
  | c :: cs, w => do
    let (block, w) ← c.exec w
    let (blocks, w) ← heapRun cs w
    .ok (block :: blocks, w)

/-! ### The calls as requests -/

def HeapCall.request (c : HeapCall) : Bump.Request := ⟨c.size.toNat, c.align.toNat⟩

def HeapCall.block (c : HeapCall) (start : U32) : Bump.Block :=
  ⟨start.toNat, c.size.toNat, c.align.toNat⟩

def HeapCall.PowerOfTwo (c : HeapCall) : Prop := ∃ k < 32, c.align = BitVec.ofNat 32 (2 ^ k)

/-- The blocks of the calls, counted on without an end from `heap_base`, stay below `2 ^ 32`. -/
def StaysBelow (calls : List HeapCall) (heapBase : U32) : Prop :=
  ∀ b ∈ Bump.place heapBase.toNat (calls.map HeapCall.request), b.start < 2 ^ 32 ∧ b.stop ≤ 2 ^ 32

theorem and_sub_one_of_two_pow {k : Nat} (hk : k < 32) :
    BitVec.ofNat 32 (2 ^ k) &&& (BitVec.ofNat 32 (2 ^ k) - 1) = 0 := by
  have hpow : 2 ^ k < 2 ^ 32 := Nat.pow_lt_pow_right (by decide) hk
  have hpos := Nat.two_pow_pos k
  have hnat : (BitVec.ofNat 32 (2 ^ k)).toNat = 2 ^ k := by
    rw [BitVec.toNat_ofNat, Nat.mod_eq_of_lt hpow]
  have hone : (1 : U32) ≤ BitVec.ofNat 32 (2 ^ k) := by
    rw [BitVec.le_def, hnat]
    exact hpos
  have hsub : (BitVec.ofNat 32 (2 ^ k) - 1).toNat = 2 ^ k - 1 := by
    rw [BitVec.toNat_sub_of_le hone, hnat]
    rfl
  apply BitVec.eq_of_toNat_eq
  rw [BitVec.toNat_and, hsub, Nat.and_two_pow_sub_one_eq_mod, hnat, Nat.mod_self]
  rfl

theorem heapblockAllocAligned_two_pow (size : U32) {align : U32} {w : World} {k : Nat} (hk : k < 32)
    (halign : align = BitVec.ofNat 32 (2 ^ k)) (hheap : w.heapBase ≠ 0) :
    heapblockAllocAligned size align w =
      .ok (alignUp w.heapBase align, { w with heapBase := alignUp w.heapBase align + size }) := by
  rw [heapblockAllocAligned, halign, and_sub_one_of_two_pow hk, if_neg (not_not.mpr rfl),
    if_neg hheap]

theorem toNat_alignUp {x align : U32} {k : Nat} (hk : k < 32)
    (halign : align = BitVec.ofNat 32 (2 ^ k)) (hstart : roundUp align.toNat x.toNat < 2 ^ 32) :
    (alignUp x align).toNat = roundUp align.toNat x.toNat := by
  have hpow : 2 ^ k < 2 ^ 32 := Nat.pow_lt_pow_right (by decide) hk
  rw [halign, BitVec.toNat_ofNat, Nat.mod_eq_of_lt hpow] at hstart ⊢
  rw [alignUp_eq hk, BitVec.toNat_ofNat, Nat.mod_eq_of_lt hstart]

theorem HeapCall.PowerOfTwo.align_pos {c : HeapCall} (h : c.PowerOfTwo) : 0 < c.align.toNat := by
  obtain ⟨k, hk, halign⟩ := h
  rw [halign, BitVec.toNat_ofNat,
    Nat.mod_eq_of_lt (Nat.pow_lt_pow_right (by decide : 1 < 2) hk)]
  exact Nat.two_pow_pos k

/-- The calls are served as the requests are.  `heap_base` is zero once a block ends at the end
    of the address space; no request can follow then. -/
theorem heapRun_eq (calls : List HeapCall) (hpow : ∀ c ∈ calls, c.PowerOfTwo) {w : World}
    {pos : Nat} (hpos : 0 < pos) (hle : pos ≤ 2 ^ 32) (hheap : w.heapBase = BitVec.ofNat 32 pos)
    (hbelow : ∀ b ∈ Bump.place pos (calls.map HeapCall.request),
      b.start < 2 ^ 32 ∧ b.stop ≤ 2 ^ 32) :
    ∃ blocks w', heapRun calls w = .ok (blocks, w') ∧ blocks.length = calls.length ∧
      List.zipWith HeapCall.block calls blocks =
        Bump.place pos (calls.map HeapCall.request) := by
  induction calls generalizing w pos with
  | nil => exact ⟨[], w, rfl, rfl, rfl⟩
  | cons c cs ih =>
    rw [List.forall_mem_cons] at hpow
    rw [List.map_cons, Bump.place, List.forall_mem_cons] at hbelow
    obtain ⟨⟨hstart, hstop⟩, hrest⟩ := hbelow
    have halign := hpow.1.align_pos
    have hfirst : pos ≤ roundUp c.align.toNat pos := le_roundUp halign pos
    -- the position has not reached the end, so it is `heap_base`
    have hlt : pos < 2 ^ 32 := Nat.lt_of_le_of_lt hfirst hstart
    have hbase : w.heapBase.toNat = pos := by
      rw [hheap, BitVec.toNat_ofNat, Nat.mod_eq_of_lt hlt]
    have hne : w.heapBase ≠ 0 := by
      rw [hheap]
      exact ofNat_ne_zero hpos hlt
    obtain ⟨k, hk, hkalign⟩ := hpow.1
    have hcall := heapblockAllocAligned_two_pow c.size hk hkalign hne
    have hblock : (alignUp w.heapBase c.align).toNat = roundUp c.align.toNat pos := by
      rw [toNat_alignUp hk hkalign (by rw [hbase]; exact hstart), hbase]
    generalize alignUp w.heapBase c.align = block at hcall hblock
    have hnext : block + c.size = BitVec.ofNat 32 (c.request.place pos).stop := by
      apply BitVec.eq_of_toNat_eq
      rw [BitVec.toNat_add, hblock, BitVec.toNat_ofNat]
      rfl
    obtain ⟨blocks, w', hrun, hlen, hplace⟩ := ih hpow.2
      (w := { w with heapBase := block + c.size })
      (show 0 < (c.request.place pos).stop from
        Nat.lt_of_lt_of_le hpos (hfirst.trans (Nat.le_add_right _ _))) hstop hnext hrest
    refine ⟨block :: blocks, w', ?_, ?_, ?_⟩
    · rw [heapRun, c.exec_eq, hcall, except_ok_bind]
      dsimp only
      rw [hrun, except_ok_bind]
    · rw [List.length_cons, List.length_cons, hlen]
    · rw [List.zipWith_cons_cons, hplace, List.map_cons, Bump.place, HeapCall.block, hblock]
      rfl

/-! ### The contract -/

/-- What the clients rely on; `served` are the calls with the blocks they were given. -/
structure HeapContract (served : List (HeapCall × U32)) : Prop where
  aligned : ∀ s ∈ served, s.1.align.toNat ∣ s.2.toNat
  ascending : served.Pairwise fun s t => s.2.toNat + s.1.size.toNat ≤ t.2.toNat
  disjoint : served.Pairwise fun s t =>
    Region.Disjoint ⟨s.2, s.1.size.toNat⟩ ⟨t.2, t.1.size.toNat⟩
  /-- A call for 0 bytes announces the block of a call with its alignment right behind it. -/
  announced : ∀ s t, [s, t] <:+: served → s.1.size = 0 → s.1.align = t.1.align → t.2 = s.2
  /-- Calls of `heapblock_alloc` for multiples of 64 bytes get adjacent blocks. -/
  contiguous : ∀ s t n m, [s, t] <:+: served → s.1 = .alloc n → t.1 = .alloc m →
    64 ∣ n.toNat → 64 ∣ m.toNat → t.2 = s.2 + n

theorem disjoint_of_ascending {a b : U32} {m n : Nat} (hab : a.toNat + m ≤ b.toNat)
    (hb : b.toNat + n ≤ 2 ^ 32) : Region.Disjoint (⟨a, m⟩ : Region 32) ⟨b, n⟩ := by
  intro x hxa hxb
  simp only [Region.mem_iff, BitVec.toNat_sub] at hxa hxb
  have hx := x.isLt
  have ha := a.isLt
  omega

/-- **The contract of the block heap.** Calls with power-of-two alignments whose blocks stay below
    `2 ^ 32` are all served.  The blocks are aligned, ascending and disjoint; a call for no bytes
    announces the address of the next one, and blocks of multiples of 64 bytes are adjacent. -/
theorem heapblock_contract (calls : List HeapCall) (hpow : ∀ c ∈ calls, c.PowerOfTwo) {w : World}
    (hheap : w.heapBase ≠ 0) (hbelow : StaysBelow calls w.heapBase) :
    ∃ blocks w', heapRun calls w = .ok (blocks, w') ∧ blocks.length = calls.length ∧
      HeapContract (calls.zip blocks) := by
  have hpos : 0 < w.heapBase.toNat :=
    Nat.pos_of_ne_zero fun h => hheap (BitVec.eq_of_toNat_eq h)
  obtain ⟨blocks, w', hrun, hlen, hplace⟩ := heapRun_eq calls hpow hpos w.heapBase.isLt.le
    (by rw [BitVec.ofNat_toNat, BitVec.setWidth_eq]) hbelow
  refine ⟨blocks, w', hrun, hlen, ?_⟩
  -- the blocks of the calls are those of the requests
  have hserved : (calls.zip blocks).map (fun s => s.1.block s.2) =
      Bump.place w.heapBase.toNat (calls.map HeapCall.request) := by
    rw [← hplace, List.zip, List.map_zipWith]
  have halign : ∀ r ∈ calls.map HeapCall.request, 0 < r.align := by
    intro r hr
    obtain ⟨c, hc, rfl⟩ := List.mem_map.mp hr
    exact (hpow c hc).align_pos
  have hmem : ∀ s ∈ calls.zip blocks, s.1.block s.2 ∈
      Bump.place w.heapBase.toNat (calls.map HeapCall.request) := by
    intro s hs
    rw [← hserved]
    exact List.mem_map_of_mem hs
  have hasc : (calls.zip blocks).Pairwise fun s t => s.2.toNat + s.1.size.toNat ≤ t.2.toNat := by
    have h := Bump.place_ascending w.heapBase.toNat halign
    rw [← hserved, List.pairwise_map] at h
    exact h
  have hnext : ∀ s t, [s, t] <:+: calls.zip blocks →
      t.2.toNat = roundUp t.1.align.toNat (s.2.toNat + s.1.size.toNat) := by
    intro s t hst
    have h := hst.map (fun s : HeapCall × U32 => s.1.block s.2)
    rw [hserved] at h
    exact Bump.place_consecutive h
  have hdvd : ∀ s ∈ calls.zip blocks, s.1.align.toNat ∣ s.2.toNat :=
    fun s hs => Bump.dvd_start_of_mem_place (hmem s hs)
  refine ⟨hdvd, hasc, ?_, ?_, ?_⟩
  · refine hasc.imp_of_mem ?_
    intro s t _ ht hst
    exact disjoint_of_ascending hst (hbelow _ (hmem t ht)).2
  · intro s t hst hzero hsame
    have hs : s ∈ calls.zip blocks := hst.subset (by simp)
    have ht : t ∈ calls.zip blocks := hst.subset (by simp)
    apply BitVec.eq_of_toNat_eq
    rw [hnext s t hst, hzero, ← hsame]
    exact roundUp_of_dvd (hpow _ (List.of_mem_zip hs).1).align_pos (hdvd s hs)
  · intro s t n m hst hs ht hn hm
    have hmem_s : s ∈ calls.zip blocks := hst.subset (by simp)
    have hsdvd : 64 ∣ s.2.toNat := by
      have h := hdvd s hmem_s
      rwa [hs] at h
    have hplace_t := hnext s t hst
    rw [hs, ht] at hplace_t
    have hround : roundUp 64 (s.2.toNat + n.toNat) = s.2.toNat + n.toNat :=
      roundUp_of_dvd (by decide) (Nat.dvd_add hsdvd hn)
    have heq : t.2.toNat = s.2.toNat + n.toNat := hplace_t.trans hround
    apply BitVec.eq_of_toNat_eq
    rw [BitVec.toNat_add, ← heq, Nat.mod_eq_of_lt t.2.isLt]

def sampleCalls : List HeapCall :=
  [.alloc 128, .alloc 64, .allocAligned 0 kernelAlign, .allocAligned 100 kernelAlign]

theorem heapblock_contract_sample :
    ((∀ c ∈ sampleCalls, c.PowerOfTwo) ∧ (ramDisk []).heapBase ≠ 0 ∧
        StaysBelow sampleCalls (ramDisk []).heapBase) ∧
      ∃ blocks w', heapRun sampleCalls (ramDisk []) = .ok (blocks, w') ∧ blocks.length = 4 ∧
        HeapContract (sampleCalls.zip blocks) := by
  have hpow : ∀ c ∈ sampleCalls, c.PowerOfTwo := by
    simp only [sampleCalls, List.forall_mem_cons]
    exact ⟨⟨6, by decide, rfl⟩, ⟨6, by decide, rfl⟩, ⟨18, by decide, rfl⟩, ⟨18, by decide, rfl⟩,
      List.forall_mem_nil _⟩
  have hheap : (ramDisk []).heapBase ≠ 0 := by decide
  have hbelow : StaysBelow sampleCalls (ramDisk []).heapBase := by
    unfold StaysBelow
    decide
  exact ⟨⟨hpow, hheap, hbelow⟩, heapblock_contract sampleCalls hpow hheap hbelow⟩

end MiniHaywire.Payload
