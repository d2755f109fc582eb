import MiniHaywire.AdtPath

/-!
# The exits of `adt_get_reg`

What `adt_get_reg` returns, on any blob at all.  The two exits for bad cell counts,
one of them inside the loop over the ancestors, return `ADT_ERR_BADNCELLS` without
a minus sign.  The error contract fails there and nowhere else.
-/

namespace MiniHaywire.Adt

/-- Success with everything written, or a negative value with nothing written. -/
def RegContract (paddr psize : Bool) (r : RegResult) : Prop :=
  (r.ret = 0 ∧ r.addr.isSome = paddr ∧ r.size.isSome = psize) ∨
    (r.ret.slt 0 = true ∧ r.addr = none ∧ r.size = none)

/-- A caller that tests for `< 0` goes on with a base address only. -/
def CallerSafe (r : RegResult) : Prop := r.ret.slt 0 = false → r.addr.isSome = true

/-- The cell counts checked on the way up: the address cells of the parent, and
    the size cells in force. -/
def levels (adt : Blob) : List U32 → U32 → List (U32 × U32)
  | [], _ => []
  | node :: up, sCells =>
    match adtGetprop adt node rangesName with
    | none => []
    | some _ =>
      (adtGetpropU32 adt (up.headD 0) addressCells 2, sCells) ::
        levels adt up (adtGetpropU32 adt (up.headD 0) sizeCells sCells)

def RegPresent (adt : Blob) (node : U32) (prop : List Byte) (idx aCells sCells : U32) : Prop :=
  ∃ reg regLen, adtGetprop adt node prop = some (reg, regLen) ∧ regLen ≠ 0 ∧
    ¬ regLen < (idx + 1) * (aCells + sCells) * 4

/-- The cell counts of the parent are in range and, where the climb begins, those of
    every level it comes to. -/
def CellsInRange (adt : Blob) (path : List U32) (prop : List Byte) (idx : U32) : Prop :=
  match (path.takeWhile (· ≠ 0)).reverse with
  | [] => True
  | node :: up =>
    let aCells := adtGetpropU32 adt (up.headD 0) addressCells 2
    let sCells := adtGetpropU32 adt (up.headD 0) sizeCells 1
    badCells aCells sCells = false ∧
      (RegPresent adt node prop idx aCells sCells →
        ∀ l ∈ levels adt up sCells, badCells l.1 l.2 = false)

theorem refused {ret : U32} {paddr psize : Bool} (h : ret.slt 0 = true) :
    RegContract paddr psize ⟨ret, none, none⟩ := .inr ⟨h, rfl, rfl⟩

theorem not_contract_badncells {paddr psize : Bool} :
    ¬ RegContract paddr psize ⟨ADT_ERR_BADNCELLS, none, none⟩ := by
  rintro (⟨hret, -⟩ | ⟨hret, -⟩)
  · exact absurd hret (by decide)
  · exact absurd hret (by decide)

theorem not_callerSafe_badncells : ¬ CallerSafe ⟨ADT_ERR_BADNCELLS, none, none⟩ := by
  intro hsafe
  exact absurd (hsafe (by decide)) (by decide)

theorem climb_ok {adt : Blob} {size : U64} {up : List U32} :
    ∀ {aCells sCells : U32} {addr : U64}, (∀ l ∈ levels adt up sCells, badCells l.1 l.2 = false) →
      ∃ addr', climb adt size up aCells sCells addr = .ok addr' := by
  induction up with
  | nil =>
    intro aCells sCells addr _
    exact ⟨addr, rfl⟩
  | cons node up ih =>
    intro aCells sCells addr hgood
    unfold climb
    unfold levels at hgood
    cases hranges : adtGetprop adt node rangesName with
    | none => exact ⟨addr, rfl⟩
    | some r =>
      rw [hranges] at hgood
      have hhere := hgood _ (List.mem_cons_self ..)
      dsimp only at hhere ⊢
      rw [hhere, if_neg (by decide)]
      exact ih (fun l hl => hgood l (List.mem_cons_of_mem _ hl))

theorem climb_bad {adt : Blob} {size : U64} {up : List U32} :
    ∀ {aCells sCells : U32} {addr : U64}, ¬ (∀ l ∈ levels adt up sCells, badCells l.1 l.2 = false) →
      climb adt size up aCells sCells addr = .error ADT_ERR_BADNCELLS := by
  induction up with
  | nil =>
    intro aCells sCells addr hbad
    exact absurd (fun l hl => by cases hl) hbad
  | cons node up ih =>
    intro aCells sCells addr hbad
    unfold climb
    unfold levels at hbad
    cases hranges : adtGetprop adt node rangesName with
    | none =>
      rw [hranges] at hbad
      exact absurd (fun l hl => by cases hl) hbad
    | some r =>
      rw [hranges] at hbad
      rw [List.forall_mem_cons] at hbad
      dsimp only at hbad ⊢
      by_cases hhere : badCells (adtGetpropU32 adt (up.headD 0) addressCells 2) sCells = true
      · rw [if_pos hhere]
      · rw [if_neg hhere]
        apply ih
        intro hrest
        exact hbad ⟨Bool.eq_false_iff.mpr hhere, hrest⟩

theorem adtGetReg_cases (adt : Blob) (path : List U32) (prop : List Byte) (idx : U32)
    (paddr psize : Bool) :
    (CellsInRange adt path prop idx ∧
        RegContract paddr psize (adtGetReg adt path prop idx paddr psize)) ∨
      (¬ CellsInRange adt path prop idx ∧
        adtGetReg adt path prop idx paddr psize = ⟨ADT_ERR_BADNCELLS, none, none⟩) := by
  unfold adtGetReg CellsInRange
  cases (path.takeWhile (· ≠ 0)).reverse with
  | nil => exact .inl ⟨trivial, refused (by decide)⟩
  | cons node up =>
    dsimp only
    generalize adtGetpropU32 adt (up.headD 0) addressCells 2 = aCells
    generalize adtGetpropU32 adt (up.headD 0) sizeCells 1 = sCells
    by_cases hbad : badCells aCells sCells = true
    · right
      rw [if_pos hbad]
      exact ⟨fun h => absurd hbad (by rw [h.1]; decide), rfl⟩
    rw [if_neg hbad]
    have hcells : badCells aCells sCells = false := Bool.eq_false_iff.mpr hbad
    -- without an entry the climb does not begin
    cases hget : adtGetprop adt node prop with
    | none =>
      refine .inl ⟨⟨hcells, ?_⟩, refused (by decide)⟩
      rintro ⟨reg, regLen, hsome, -⟩
      rw [hget] at hsome
      cases hsome
    | some r =>
      obtain ⟨reg, regLen⟩ := r
      have hpresent : RegPresent adt node prop idx aCells sCells ↔
          regLen ≠ 0 ∧ ¬ regLen < (idx + 1) * (aCells + sCells) * 4 := by
        constructor
        · rintro ⟨reg', regLen', hsome, hlen⟩
          rw [hget] at hsome
          cases hsome
          exact hlen
        · intro hlen
          exact ⟨reg, regLen, hget, hlen⟩
      dsimp only
      by_cases hzero : regLen = 0
      · rw [if_pos hzero]
        exact .inl ⟨⟨hcells, fun h => absurd hzero (hpresent.mp h).1⟩, refused (by decide)⟩
      rw [if_neg hzero]
      by_cases hshort : regLen < (idx + 1) * (aCells + sCells) * 4
      · rw [if_pos hshort]
        exact .inl ⟨⟨hcells, fun h => absurd hshort (hpresent.mp h).2⟩, refused (by decide)⟩
      rw [if_neg hshort]
      by_cases hgood : ∀ l ∈ levels adt up sCells, badCells l.1 l.2 = false
      · obtain ⟨addr, hclimb⟩ := climb_ok hgood
        rw [hclimb]
        refine .inl ⟨⟨hcells, fun _ => hgood⟩, .inl ⟨rfl, ?_, ?_⟩⟩
        · cases paddr <;> rfl
        · cases psize <;> rfl
      · rw [climb_bad hgood]
        exact .inr ⟨fun h => hgood (h.2 (hpresent.mpr ⟨hzero, hshort⟩)), rfl⟩

/-- **The error contract of `adt_get_reg`.** It returns 0 with all results stored, or a negative
    value with none, exactly if the cell counts of all levels it looks at are in range; and
    exactly then a caller that only tests for a negative result goes on with an address. -/
theorem regContract_iff (adt : Blob) (path : List U32) (prop : List Byte) (idx : U32)
    (paddr psize : Bool) :
    (RegContract paddr psize (adtGetReg adt path prop idx paddr psize) ↔
      CellsInRange adt path prop idx) ∧
    (CallerSafe (adtGetReg adt path prop idx true psize) ↔ CellsInRange adt path prop idx) := by
  constructor
  · rcases adtGetReg_cases adt path prop idx paddr psize with ⟨hcells, hok⟩ | ⟨hcells, heq⟩
    · exact iff_of_true hok hcells
    · refine iff_of_false ?_ hcells
      rw [heq]
      exact not_contract_badncells
  · rcases adtGetReg_cases adt path prop idx true psize with ⟨hcells, hok⟩ | ⟨hcells, heq⟩
    · refine iff_of_true ?_ hcells
      intro hsign
      rcases hok with ⟨-, haddr, -⟩ | ⟨hret, -⟩
      · exact haddr
      · rw [hret] at hsign
        cases hsign
    · refine iff_of_false ?_ hcells
      rw [heq]
      exact not_callerSafe_badncells

def uartReg (t : AdtTree) : RegResult :=
  adtGetReg (blobOf t.enc) [128, 300, 0] (cstr ['r', 'e', 'g']) 0 true true

/-- Either of the two exits returns 14 and stores nothing, which `timer_init` or
    `clkrstgen_init` takes for success. -/
theorem adtGetReg_positive :
    (adtPathOffsetTrace (blobOf wideBus.enc) 3 uartPath = some (300, [128, 300, 0]) ∧
      uartReg wideBus = ⟨14, none, none⟩ ∧
      ¬ RegContract true true (uartReg wideBus) ∧ ¬ CallerSafe (uartReg wideBus)) ∧
    (adtPathOffsetTrace (blobOf wideRoot.enc) 3 uartPath = some (300, [128, 300, 0]) ∧
      uartReg wideRoot = ⟨14, none, none⟩ ∧
      ¬ RegContract true true (uartReg wideRoot) ∧ ¬ CallerSafe (uartReg wideRoot)) := by
  have hbus : uartReg wideBus = ⟨ADT_ERR_BADNCELLS, none, none⟩ := by decide +kernel
  have hroot : uartReg wideRoot = ⟨ADT_ERR_BADNCELLS, none, none⟩ := by decide +kernel
  rw [hbus, hroot]
  constructor
  · exact ⟨trace_busTree 1 3 [] _ (by decide) (by decide), rfl, not_contract_badncells,
      not_callerSafe_badncells⟩
  · exact ⟨trace_busTree 3 1 [] _ (by decide) (by decide), rfl, not_contract_badncells,
      not_callerSafe_badncells⟩

end MiniHaywire.Adt
