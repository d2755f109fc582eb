import MiniHaywire.AdtRanges
import MiniHaywire.AdtReg
import MiniHaywire.AdtSetprop

/-!
# Setting up the UART

`uart_init` looks up `/arm-io/uart2`, takes the first register of the node and
writes to it.  It does not look at what `adt_path_offset_trace` returns.  When a
component of the path is missing, the array holds the offsets of the components in
front of it, closed by a zero as after a success, and `adt_get_reg` answers for the
last node that was found.

The hardware comes in through the values that `UTRSTAT` is read to have.
-/

namespace MiniHaywire.Uart

open Adt

/-! ### Registers -/

def ULCON : U32 := 0x000
def UCON : U32 := 0x004
def UFCON : U32 := 0x008
def UMCON : U32 := 0x00c
def UBRDIV : U32 := 0x028

def ULCON_CS8 : U32 := 0x3

def UMCOM_RTS_LOW : U32 := 1

/-- Both modes `UCON_MODE_IRQ`, and the bits 10 to 13. -/
def UCON_DEFAULT : U32 := 0x3c05

def UTRSTAT_TXE : U32 := 0x4

def UART_CLOCK : U32 := 24000000

/-- What a call of `uart_init` does: its return value, if it returns, `uart_base` afterwards, and
    the register writes in their order. -/
structure UartRun where
  ret : Option U32
  base : U32
  writes : List (U32 × U32)
deriving DecidableEq

/-- `uart_flush`: whether one of the next `polls` reads of `UTRSTAT` has `UTRSTAT_TXE` set. -/
def uartFlush (utrstat : Nat → U32) (polls : Nat) : Bool :=
  (List.range polls).any fun i => utrstat i &&& UTRSTAT_TXE != 0

/-- `uart_setbaud`: the writes, and whether it returns. -/
def uartSetbaud (utrstat : Nat → U32) (polls : Nat) (base baudrate : U32) :
    Bool × List (U32 × U32) :=
  if base = 0 then (true, [])
  else if uartFlush utrstat polls then
    (true, [(base + UBRDIV, (UART_CLOCK / baudrate + 7) / 16 - 1)])
  else (false, [])

/-- `uart_init`.  `stale` is what the array `path` on the stack holds before, and `base` is the
    value of `uart_base` so far. -/
def uartInit (adt : Blob) (fuel : Nat) (utrstat : Nat → U32) (polls : Nat) (stale : List U32)
    (base : U32) : UartRun :=
  match adtPathOffsetTrace adt fuel uartPath with
  | none => ⟨none, base, []⟩
  | some (_, stored) =>
    let path := stored ++ stale.drop stored.length
    let r := adtGetReg adt path (cstr ['r', 'e', 'g']) 0 true false
    if r.ret ≠ 0 then ⟨some (-1), base, []⟩
    else
      let base := r.addr.getD base
      let writes := [(base + ULCON, ULCON_CS8), (base + UCON, UCON_DEFAULT), (base + UFCON, 0),
        (base + UMCON, UMCOM_RTS_LOW)]
      let baud := uartSetbaud utrstat polls base 115200
      ⟨if baud.1 then some 0 else none, base, writes ++ baud.2⟩

/-! ### When a register is found -/

/-- The last of the nodes has an entry `idx` of the property, and the cell counts on the way up
    to the root are in range. -/
def RegServed (adt : Blob) (nodes : List U32) (prop : List Byte) (idx : U32) : Prop :=
  ∃ node up, nodes.reverse = node :: up ∧
    let aCells := adtGetpropU32 adt (up.headD 0) addressCells 2
    let sCells := adtGetpropU32 adt (up.headD 0) sizeCells 1
    badCells aCells sCells = false ∧ RegPresent adt node prop idx aCells sCells ∧
      ∀ l ∈ levels adt up sCells, badCells l.1 l.2 = false

/-- `adt_get_reg` returns 0 exactly there, on any blob and any path. -/
theorem adtGetReg_ret_eq_zero_iff (adt : Blob) (path : List U32) (prop : List Byte) (idx : U32)
    (paddr psize : Bool) :
    (adtGetReg adt path prop idx paddr psize).ret = 0 ↔
      RegServed adt (path.takeWhile (· ≠ 0)) prop idx := by
  unfold adtGetReg RegServed
  cases (path.takeWhile (· ≠ 0)).reverse with
  | nil =>
    refine iff_of_false (by decide : -ADT_ERR_BADOFFSET ≠ 0) ?_
    rintro ⟨node, up, hnil, -⟩
    contradiction
  | cons node up =>
    have hlast : ∀ P : U32 → List U32 → Prop,
        (∃ node' up', node :: up = node' :: up' ∧ P node' up') ↔ P node up := by
      intro P
      constructor
      · rintro ⟨_, _, heq, h⟩
        obtain ⟨rfl, rfl⟩ := List.cons.inj heq
        exact h
      · intro h
        exact ⟨node, up, rfl, h⟩
    rw [hlast]
    dsimp only
    generalize adtGetpropU32 adt (up.headD 0) addressCells 2 = aCells
    generalize adtGetpropU32 adt (up.headD 0) sizeCells 1 = sCells
    by_cases hbad : badCells aCells sCells = true
    · rw [if_pos hbad]
      refine iff_of_false (by decide : ADT_ERR_BADNCELLS ≠ 0) ?_
      rintro ⟨hcells, -⟩
      rw [hbad] at hcells
      contradiction
    rw [if_neg hbad, and_iff_right (Bool.eq_false_iff.mpr hbad)]
    cases hget : adtGetprop adt node prop with
    | none =>
      refine iff_of_false (by decide : -ADT_ERR_NOTFOUND ≠ 0) ?_
      rintro ⟨⟨reg, regLen, hsome, -⟩, -⟩
      rw [hget] at hsome
      contradiction
    | some r =>
      obtain ⟨reg, regLen⟩ := r
      have hpresent : RegPresent adt node prop idx aCells sCells ↔
          regLen ≠ 0 ∧ ¬ regLen < (idx + 1) * (aCells + sCells) * 4 := by
        rw [RegPresent, hget]
        simp
      rw [hpresent]
      dsimp only
      by_cases hzero : regLen = 0
      · rw [if_pos hzero]
        exact iff_of_false (by decide : -ADT_ERR_NOTFOUND ≠ 0) fun h => h.1.1 hzero
      rw [if_neg hzero]
      by_cases hshort : regLen < (idx + 1) * (aCells + sCells) * 4
      · rw [if_pos hshort]
        exact iff_of_false (by decide : -ADT_ERR_BADVALUE ≠ 0) fun h => h.1.2 hshort
      rw [if_neg hshort, and_iff_right ⟨hzero, hshort⟩]
      by_cases hgood : ∀ l ∈ levels adt up sCells, badCells l.1 l.2 = false
      · obtain ⟨addr, hclimb⟩ := climb_ok hgood
        rw [hclimb]
        exact iff_of_true rfl hgood
      · rw [climb_bad hgood]
        exact iff_of_false (by decide : ADT_ERR_BADNCELLS ≠ 0) hgood

/-- `uart_init` gives up without a write exactly if `adt_get_reg` finds nothing. -/
theorem uartInit_refused_iff {adt : Blob} {fuel : Nat} {utrstat : Nat → U32} {polls : Nat}
    {stale stored : List U32} {offset base : U32}
    (htrace : adtPathOffsetTrace adt fuel uartPath = some (offset, stored)) :
    uartInit adt fuel utrstat polls stale base = ⟨some (-1), base, []⟩ ↔
      ¬ RegServed adt ((stored ++ stale.drop stored.length).takeWhile (· ≠ 0))
        (cstr ['r', 'e', 'g']) 0 := by
  rw [← adtGetReg_ret_eq_zero_iff adt _ _ 0 true false, uartInit, htrace]
  dsimp only
  by_cases hret : (adtGetReg adt (stored ++ stale.drop stored.length) (cstr ['r', 'e', 'g']) 0
      true false).ret = 0
  · rw [if_neg (not_not.mpr hret)]
    refine iff_of_false ?_ (not_not.mpr hret)
    intro heq
    have hwrites := congrArg UartRun.writes heq
    contradiction
  · rw [if_pos hret]
    exact iff_of_true rfl hret

/-! ### A path that does not resolve -/

def armIo : List Byte := cstr ['a', 'r', 'm', '-', 'i', 'o']

/-- The offsets of the nodes that the components of a path lead to, as far as there are any. -/
def found (t : AdtTree) (path : List Byte) : List U32 :=
  (reached (components path) (0, t)).map fun n => BitVec.ofNat 32 n.1

section Trace

variable {adt : Blob} {fuel : Nat} {t : AdtTree}

theorem takeWhile_found (hroot : Node adt fuel (0, t)) (path : List Byte) (rest : List U32) :
    (found t path ++ [0] ++ rest).takeWhile (· ≠ 0) = found t path := by
  have hne : ∀ x ∈ found t path, decide (x ≠ 0) = true := by
    intro x hx
    obtain ⟨n, hn, rfl⟩ := List.mem_map.mp hx
    exact decide_eq_true (hroot.reached hn).2
  rw [List.append_assoc, List.takeWhile_append_of_pos hne, List.singleton_append,
    List.takeWhile_cons_of_neg (by simp), List.append_nil]

theorem found_uartPath (hnone : resolve (components uartPath) (0, t) = none) :
    found t uartPath =
      match childNamed armIo (0, t) with
      | none => []
      | some bus => [BitVec.ofNat 32 bus.1] := by
  rw [found]
  rw [components_uartPath] at hnone ⊢
  change resolve [armIo, _] (0, t) = none at hnone
  change (reached [armIo, _] (0, t)).map _ = _
  rw [resolve] at hnone
  rw [reached]
  cases hbus : childNamed armIo (0, t) with
  | none => rfl
  | some bus =>
    rw [hbus, Option.bind_some, resolve] at hnone
    dsimp only
    rw [reached]
    cases huart : childNamed (cstr ['u', 'a', 'r', 't', '2']) bus with
    | none => rfl
    | some uart =>
      rw [huart] at hnone
      contradiction

/-- After a failed lookup `adt_get_reg` fails on the stored trace exactly if it would fail for
    the last node that was found; and `uart_init` returns -1 without a write exactly if there is
    no `/arm-io`, or no first register in it. -/
theorem failed_lookup_unused_iff (hstored : Stored adt 0 t) (hnamed : t.named = true)
    (hheader : adtCheckHeader adt = 0) (hfuel : t.depth ≤ fuel) :
    (∀ path, (∀ b ∈ path, b ≠ 0) → resolve (components path) (0, t) = none →
      ∃ offset trace, adtPathOffsetTrace adt fuel path = some (offset, trace) ∧
        offset.slt 0 = true ∧
        ∀ prop idx paddr psize, (adtGetReg adt trace prop idx paddr psize).ret ≠ 0 ↔
          ¬ RegServed adt (found t path) prop idx) ∧
    (resolve (components uartPath) (0, t) = none →
      ∀ utrstat polls stale base,
        uartInit adt fuel utrstat polls stale base = ⟨some (-1), base, []⟩ ↔
          ∀ bus, childNamed armIo (0, t) = some bus →
            ¬ RegServed adt [BitVec.ofNat 32 bus.1] (cstr ['r', 'e', 'g']) 0) := by
  have hroot : Node adt fuel (0, t) := ⟨hstored, hnamed, hfuel⟩
  have htrace : ∀ path, (∀ b ∈ path, b ≠ 0) → resolve (components path) (0, t) = none →
      adtPathOffsetTrace adt fuel path = some (-ADT_ERR_NOTFOUND, found t path ++ [0]) := by
    intro path hpath hnone
    rw [pathOffsetTrace_eq hheader hroot hpath, hnone]
    rfl
  constructor
  · intro path hpath hnone
    refine ⟨_, _, htrace path hpath hnone, by decide, ?_⟩
    intro prop idx paddr psize
    have hall := takeWhile_found hroot path []
    rw [List.append_nil] at hall
    rw [Ne, adtGetReg_ret_eq_zero_iff, hall]
  · intro hnone utrstat polls stale base
    rw [uartInit_refused_iff (htrace uartPath (by decide) hnone), takeWhile_found hroot,
      found_uartPath hnone]
    cases childNamed armIo (0, t) with
    | none =>
      refine iff_of_true ?_ fun bus hbus => ?_
      · rintro ⟨node, up, hnil, -⟩
        contradiction
      · contradiction
    | some bus => simp

end Trace

theorem length_armIo : (cstr ['a', 'r', 'm', '-', 'i', 'o'] ++ [0]).length < 2 ^ 20 := by decide

def bareBus : AdtTree :=
  .node (nameProp ['d', 't'] length_rootName) []
    [.node (nameProp ['a', 'r', 'm', '-', 'i', 'o'] length_armIo) [] []]

/-- The path is found as far as the bus, which has no registers, and nothing is written. -/
theorem uartInit_bareBus :
    (Stored (blobOf bareBus.enc) 0 bareBus ∧ bareBus.named = true ∧
        adtCheckHeader (blobOf bareBus.enc) = 0 ∧ bareBus.depth ≤ 2 ∧
        resolve (components uartPath) (0, bareBus) = none ∧ found bareBus uartPath = [48]) ∧
      uartInit (blobOf bareBus.enc) 2 (fun _ => 0) 0 [] 0 = ⟨some (-1), 0, []⟩ := by
  have hstored : Stored (blobOf bareBus.enc) 0 bareBus := stored_blobOf (by decide +kernel)
  have hfacts : bareBus.named = true ∧ adtCheckHeader (blobOf bareBus.enc) = 0 ∧
      bareBus.depth ≤ 2 ∧ resolve (components uartPath) (0, bareBus) = none ∧
      found bareBus uartPath = [48] := by decide +kernel
  obtain ⟨hnamed, hheader, hfuel, hnone, hfound⟩ := hfacts
  have huart := (failed_lookup_unused_iff hstored hnamed hheader hfuel).2 hnone (fun _ => 0) 0 [] 0
  refine ⟨⟨hstored, hnamed, hheader, hfuel, hnone, hfound⟩, huart.mpr ?_⟩
  intro bus hbus
  rw [found_uartPath hnone, hbus] at hfound
  have hserved := adtGetReg_ret_eq_zero_iff (blobOf bareBus.enc) [48] (cstr ['r', 'e', 'g'])
    0 true false
  have hrefused :
      (adtGetReg (blobOf bareBus.enc) [48] (cstr ['r', 'e', 'g']) 0 true false).ret ≠ 0 := by
    decide +kernel
  rw [show [BitVec.ofNat 32 bus.1] = [48] from hfound]
  exact mt hserved.mpr hrefused

/-! ### A bus with registers and without the device -/

theorem length_busReg : (leWord (0x38000000 : U32) ++ leWord (0x1000 : U32)).length < 2 ^ 20 := by
  decide

def busOnly : AdtTree :=
  .node (nameProp ['d', 't'] length_rootName)
    [cellsProp addressCells 1 length_addressCells addressCells_ne_zero]
    [.node (nameProp ['a', 'r', 'm', '-', 'i', 'o'] length_armIo)
      [⟨cstr ['r', 'e', 'g'], leWord (0x38000000 : U32) ++ leWord (0x1000 : U32), length_regName,
        regName_ne_zero, length_busReg⟩] []]

/-- `/arm-io/uart2` is not there, and `uart_init` programs the first register of `/arm-io`. -/
theorem uartInit_programs_bus :
    resolve (components uartPath) (0, busOnly) = none ∧
      adtPathOffsetTrace (blobOf busOnly.enc) 2 uartPath = some (-ADT_ERR_NOTFOUND, [88, 0]) ∧
      uartInit (blobOf busOnly.enc) 2 (fun _ => UTRSTAT_TXE) 1 [] 0 =
        ⟨some 0, 0x38000000, [(0x38000000, 3), (0x38000004, 0x3c05), (0x38000008, 0),
          (0x3800000c, 1), (0x38000028, 12)]⟩ := by
  decide +kernel

end MiniHaywire.Uart
