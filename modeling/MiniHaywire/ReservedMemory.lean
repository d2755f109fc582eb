import MiniHaywire.Kboot

/-!
# Reserved memory against the usable RAM

The loop of `dt_set_memory` sorts the reserved regions into three classes: those
inside of the usable RAM are left out of the map, those outside are added to it,
and one that lies across an end of the RAM ends the function.  It compares the
start of the region and `resv_start + resv_len`, a 32-bit sum, with the two ends of
the RAM.  The sum is the end of the region as long as the region does not reach the
end of the address space; there it is zero, below every address.
-/

namespace MiniHaywire.Kboot

/-- `[start, start + len)` lies in `[dramMin, dramMax)`. -/
def Contained (dramMin dramMax start len : U32) : Prop :=
  dramMin.toNat ≤ start.toNat ∧ start.toNat + len.toNat ≤ dramMax.toNat

/-- `[start, start + len)` and `[dramMin, dramMax)` have no address in common. -/
def Apart (dramMin dramMax start len : U32) : Prop :=
  start.toNat + len.toNat ≤ dramMin.toNat ∨ dramMax.toNat ≤ start.toNat

/-- The node is classified as it should be: skipped exactly if it is contained in the RAM, added
    exactly if it is disjoint from it and there is a slot, and refused otherwise. -/
structure Classified (dramMin dramMax : U32) (memreg : List Entry) (n : ReservedNode)
    (start len : U32) : Prop where
  skips : visitReserved dramMin dramMax memreg n = .ok memreg ↔
    Contained dramMin dramMax start len
  adds : visitReserved dramMin dramMax memreg n = .ok (memreg ++ [(start, len)]) ↔
    Apart dramMin dramMax start len ∧ memreg.length < MAX_MEM_REGIONS
  fails : (∃ e, visitReserved dramMin dramMax memreg n = .error e) ↔
    (¬ Contained dramMin dramMax start len ∧ ¬ Apart dramMin dramMax start len) ∨
      (Apart dramMin dramMax start len ∧ MAX_MEM_REGIONS ≤ memreg.length)

section Outcomes

variable {dramMin dramMax start len : U32} {memreg : List Entry} {n : ReservedNode}

theorem visitReserved_mappable (dramMin dramMax : U32) (memreg : List Entry)
    (hn : n.mappable = some (start, len)) :
    visitReserved dramMin dramMax memreg n =
      if start < dramMin then
        if start + len > dramMin then .error (.intersectsStart n.name start (start + len))
        else addReserved memreg n.name start len
      else if start + len > dramMax then
        if start < dramMax then .error (.intersectsEnd n.name start (start + len))
        else addReserved memreg n.name start len
      else .ok memreg := by
  unfold ReservedNode.mappable at hn
  split_ifs at hn with hoff
  rw [not_or] at hoff
  rw [visitReserved, if_neg hoff.1, if_neg hoff.2, hn]

theorem addReserved_of_aligned (halign : misaligned (start, len) = false) (name : String) :
    addReserved memreg name start len =
      if MAX_MEM_REGIONS ≤ memreg.length then .error .outOfRegionsReserved
      else .ok (memreg ++ [(start, len)]) := by
  rw [addReserved, halign, if_neg Bool.false_ne_true]

theorem not_apart_of_contained (hlen : 0 < len.toNat) (h : Contained dramMin dramMax start len) :
    ¬ Apart dramMin dramMax start len := by
  unfold Contained at h
  unfold Apart
  omega

theorem classified_of_skip (hlen : 0 < len.toNat)
    (h : visitReserved dramMin dramMax memreg n = .ok memreg) :
    Classified dramMin dramMax memreg n start len ↔ Contained dramMin dramMax start len := by
  constructor
  · intro hclass
    exact hclass.skips.mp h
  · intro hin
    have hout := not_apart_of_contained hlen hin
    refine ⟨iff_of_true h hin, iff_of_false ?_ fun hadd => hout hadd.1, iff_of_false ?_ ?_⟩
    · rw [h]
      simp
    · rw [h]
      simp
    · rintro (⟨hnot, -⟩ | ⟨hapart, -⟩)
      · exact hnot hin
      · exact hout hapart

theorem classified_of_add (hlen : 0 < len.toNat)
    (h : visitReserved dramMin dramMax memreg n = .ok (memreg ++ [(start, len)]))
    (hslot : memreg.length < MAX_MEM_REGIONS) :
    Classified dramMin dramMax memreg n start len ↔ Apart dramMin dramMax start len := by
  constructor
  · intro hclass
    exact (hclass.adds.mp h).1
  · intro hout
    refine ⟨iff_of_false ?_ fun hin => not_apart_of_contained hlen hin hout,
      iff_of_true h ⟨hout, hslot⟩, iff_of_false ?_ ?_⟩
    · rw [h]
      simp
    · rw [h]
      simp
    · rintro (⟨-, hnot⟩ | ⟨-, hfull⟩)
      · exact hnot hout
      · exact Nat.not_le.mpr hslot hfull

theorem classified_of_error {e : MemoryError}
    (h : visitReserved dramMin dramMax memreg n = .error e) :
    Classified dramMin dramMax memreg n start len ↔
      ¬ Contained dramMin dramMax start len ∧
        (Apart dramMin dramMax start len → MAX_MEM_REGIONS ≤ memreg.length) := by
  have hok : ∀ l, visitReserved dramMin dramMax memreg n ≠ .ok l := by
    intro l
    rw [h]
    simp
  constructor
  · intro hclass
    refine ⟨fun hin => hok _ (hclass.skips.mpr hin), fun hout => ?_⟩
    rcases hclass.fails.mp ⟨e, h⟩ with ⟨-, hnot⟩ | ⟨-, hfull⟩
    · exact absurd hout hnot
    · exact hfull
  · rintro ⟨hin, hfull⟩
    refine ⟨iff_of_false (hok _) hin, iff_of_false (hok _) ?_, iff_of_true ⟨e, h⟩ ?_⟩
    · rintro ⟨hout, hslot⟩
      exact Nat.not_le.mpr hslot (hfull hout)
    · by_cases hout : Apart dramMin dramMax start len
      · exact Or.inr ⟨hout, hfull hout⟩
      · exact Or.inl ⟨hin, hout⟩

theorem classified_of_addReserved (hlen : 0 < len.toNat)
    (halign : misaligned (start, len) = false)
    (h : visitReserved dramMin dramMax memreg n = addReserved memreg n.name start len) :
    Classified dramMin dramMax memreg n start len ↔
      Apart dramMin dramMax start len ∨
        (¬ Contained dramMin dramMax start len ∧ MAX_MEM_REGIONS ≤ memreg.length) := by
  rw [addReserved_of_aligned halign] at h
  split at h
  · rename_i hfull
    rw [classified_of_error h]
    constructor
    · rintro ⟨hin, -⟩
      exact Or.inr ⟨hin, hfull⟩
    · rintro (hout | ⟨hin, -⟩)
      · exact ⟨fun hin => not_apart_of_contained hlen hin hout, fun _ => hfull⟩
      · exact ⟨hin, fun _ => hfull⟩
  · rename_i hslot
    rw [classified_of_add hlen h (Nat.not_le.mp hslot), iff_self_or]
    exact fun hfull => absurd hfull.2 hslot

end Outcomes

/-- **Reserved memory.** An enabled, mappable, page-aligned node is classified as it should be
    exactly if its region ends below the end of the address space; a region that ends there is
    taken for one that ends at zero.  If there is no slot left and it starts below the RAM, it is
    refused all the same. -/
theorem reserved_classified_iff {dramMin dramMax start len : U32} (memreg : List Entry)
    {n : ReservedNode} (hram : dramMin < dramMax) (hn : n.mappable = some (start, len))
    (hlen : 0 < len.toNat) (hend : start.toNat + len.toNat ≤ 2 ^ 32)
    (halign : misaligned (start, len) = false) :
    Classified dramMin dramMax memreg n start len ↔
      start.toNat + len.toNat < 2 ^ 32 ∨
        (start < dramMin ∧ MAX_MEM_REGIONS ≤ memreg.length) := by
  have hvisit := visitReserved_mappable dramMin dramMax memreg hn
  have hstop : (start + len).toNat = (start.toNat + len.toNat) % 2 ^ 32 := BitVec.toNat_add ..
  have hmax := dramMax.isLt
  rw [BitVec.lt_def] at hram
  by_cases hlow : start < dramMin
  · rw [if_pos hlow] at hvisit
    rw [BitVec.lt_def] at hlow
    by_cases hcross : start + len > dramMin
    · rw [if_pos hcross] at hvisit
      rw [gt_iff_lt, BitVec.lt_def] at hcross
      rw [classified_of_error hvisit, BitVec.lt_def]
      unfold Contained Apart
      omega
    · rw [if_neg hcross] at hvisit
      rw [gt_iff_lt, BitVec.lt_def] at hcross
      rw [classified_of_addReserved hlen halign hvisit, BitVec.lt_def]
      unfold Contained Apart
      omega
  · rw [if_neg hlow] at hvisit
    rw [BitVec.lt_def] at hlow
    by_cases hcross : start + len > dramMax
    · rw [if_pos hcross] at hvisit
      rw [gt_iff_lt, BitVec.lt_def] at hcross
      by_cases hinside : start < dramMax
      · rw [if_pos hinside] at hvisit
        rw [BitVec.lt_def] at hinside
        rw [classified_of_error hvisit, BitVec.lt_def]
        unfold Contained Apart
        omega
      · rw [if_neg hinside] at hvisit
        rw [BitVec.lt_def] at hinside
        rw [classified_of_addReserved hlen halign hvisit, BitVec.lt_def]
        unfold Contained Apart
        omega
    · rw [if_neg hcross] at hvisit
      rw [gt_iff_lt, BitVec.lt_def] at hcross
      rw [classified_of_skip hlen hvisit, BitVec.lt_def]
      unfold Contained
      omega

/-- A reserved region below the RAM that ends where it starts. -/
def touching : ReservedNode := ⟨"touching", none, false, some (0x7fff000, 0x1000)⟩

theorem reserved_classified_touching :
    ((0x8000000 : U32) < 0x18000000 ∧ touching.mappable = some (0x7fff000, 0x1000) ∧
        0 < (0x1000 : U32).toNat ∧ (0x7fff000 : U32).toNat + (0x1000 : U32).toNat ≤ 2 ^ 32 ∧
        misaligned (0x7fff000, 0x1000) = false) ∧
      (Classified 0x8000000 0x18000000 [(0x8000000, 0x10000000)] touching 0x7fff000 0x1000 ↔
        (0x7fff000 : U32).toNat + (0x1000 : U32).toNat < 2 ^ 32 ∨
          ((0x7fff000 : U32) < 0x8000000 ∧
            MAX_MEM_REGIONS ≤ [((0x8000000 : U32), (0x10000000 : U32))].length)) := by
  have hfacts : (0x8000000 : U32) < 0x18000000 ∧ touching.mappable = some (0x7fff000, 0x1000) ∧
      0 < (0x1000 : U32).toNat ∧ (0x7fff000 : U32).toNat + (0x1000 : U32).toNat ≤ 2 ^ 32 ∧
      misaligned (0x7fff000, 0x1000) = false := by decide
  exact ⟨hfacts, reserved_classified_iff _ hfacts.1 hfacts.2.1 hfacts.2.2.1 hfacts.2.2.2.1
    hfacts.2.2.2.2⟩

/-- The last page of the address space, far behind the RAM, is skipped as if it lay in it. -/
theorem last_page_skipped :
    visitReserved 0x8000000 0x18000000 [(0x8000000, 0x10000000)]
        ⟨"last", none, false, some (0xfffff000, 0x1000)⟩ = .ok [(0x8000000, 0x10000000)] ∧
      ¬ Contained 0x8000000 0x18000000 0xfffff000 0x1000 ∧
      Apart 0x8000000 0x18000000 0xfffff000 0x1000 := by
  refine ⟨by decide, ?_, ?_⟩
  · unfold Contained
    decide
  · unfold Apart
    decide

end MiniHaywire.Kboot
