import MiniHaywire.AdtPath
import MiniHaywire.AdtSetprop
import MiniHaywire.PrintfInt

/-!
# Device information

`get_device_info` of `main.c` prints what the ADT says about the device.  If the serial
number is an empty string in 32 bytes, it makes one of the two halves of the unique chip
id, each in hexadecimal without leading zeros, and writes it into the ADT.

Where one half ends and the other starts cannot be seen in the result, so different ids
can give the same serial number.
-/

namespace MiniHaywire.DeviceInfo

open Adt Printf Numeral

/-! ### Definitions -/

/-- The state that `get_device_info` works on, and what it has printed. -/
structure Device where
  adt : Blob
  boardId : U32
  chipId : U32
  console : List Byte

/-- The stack, and where the buffers of `debug_printf` and of the new serial number are. -/
structure Stack where
  mem : Mem 32
  buffer : U32
  newSerial : U32
  newSerial_ne : newSerial ≠ 0

def modelName : List Byte := cstr ['m', 'o', 'd', 'e', 'l']

def targetName : List Byte := cstr ['t', 'a', 'r', 'g', 'e', 't', '-', 't', 'y', 'p', 'e']

def chosenName : List Byte := cstr ['c', 'h', 'o', 's', 'e', 'n']

def boardIdName : List Byte := cstr ['b', 'o', 'a', 'r', 'd', '-', 'i', 'd']

def chipIdName : List Byte := cstr ['c', 'h', 'i', 'p', '-', 'i', 'd']

def serialName : List Byte :=
  cstr ['s', 'e', 'r', 'i', 'a', 'l', '-', 'n', 'u', 'm', 'b', 'e', 'r']

def uniqueChipIdName : List Byte :=
  cstr ['u', 'n', 'i', 'q', 'u', 'e', '-', 'c', 'h', 'i', 'p', '-', 'i', 'd']

def serialFormat : List Byte := cstr ['%', 'X', '%', 'X']

/-- `debug_printf` with one argument behind the format.  No format here is too wide. -/
def Device.printf (s : Stack) (d : Device) (format : String) (arg : U32) : Device :=
  let (i, mem) := vsnprintf d.adt.cstring s.mem s.buffer 512 (cstr format.toList) ⟨fun _ => arg, 1⟩
  { d with console := d.console ++ mem.load s.buffer (min i 511).toNat }

/-- The two arguments behind `new_serial`, 32 and the format. -/
def serialArgs (ecid₁ ecid₀ : U32) : VaList := ⟨fun n => if n = 3 then ecid₁ else ecid₀, 3⟩

def newSerial (s : Stack) (adt : Blob) (ecid : U32) : List Byte :=
  let (_, mem) := vsnprintf adt.cstring s.mem s.newSerial 32 serialFormat
    (serialArgs (read32 adt (ecid + 4)) (read32 adt ecid))
  mem.load s.newSerial 32

/-- The part of `get_device_info` that fixes up the serial number. -/
def fixSerial (s : Stack) (chosen : U32) (d : Device) : Device :=
  match adtGetprop d.adt 0 serialName with
  | none => d
  | some (serial, serialLen) =>
    if d.adt serial = 0 ∧ serialLen = 32 then
      match adtGetprop d.adt chosen uniqueChipIdName with
      | none => d
      | some (ecid, ecidLen) =>
        if ecidLen = 8 then
          let (r, adt) := adtSetprop d.adt 0 serialName (newSerial s d.adt ecid)
          let d := { d with adt := adt }
          if r.slt 0 then d.printf s "Failed fixing up serial number with ECID\n" 0 else d
        else d
    else d

def Device.printString (s : Stack) (d : Device) (format : String) (name : List Byte) : Device :=
  match adtGetprop d.adt 0 name with
  | none => d
  | some (value, _) => d.printf s format value

/-- `ADT_GETPROP` of the board id and the chip id. -/
def Device.getIds (s : Stack) (d : Device) (chosen : U32) : Device :=
  let board := (adtGetpropCopy d.adt chosen boardIdName 4).1
  let d := { d with boardId := adtGetpropU32 d.adt chosen boardIdName d.boardId }
  let d := if board.slt 0 then d.printf s "Failed to find board-id\n" 0 else d
  let chip := (adtGetpropCopy d.adt chosen chipIdName 4).1
  let d := { d with chipId := adtGetpropU32 d.adt chosen chipIdName d.chipId }
  if chip.slt 0 then d.printf s "Failed to find chip-id\n" 0 else d

def Device.printModel (s : Stack) (d : Device) : Device :=
  let d := d.printf s "Device info:\n" 0
  let d := d.printString s "  Model: %s\n" modelName
  d.printString s "  Target: %s\n" targetName

def Device.printIds (s : Stack) (d : Device) : Device :=
  let d := d.printf s "  Board-ID: 0x%x\n" d.boardId
  d.printf s "  Chip-ID: 0x%x\n" d.chipId

/-- `get_device_info`; `none` if the fuel does not suffice for the walk to `/chosen`. -/
def getDeviceInfo (fuel : Nat) (s : Stack) (d : Device) : Option Device := do
  let d := d.printModel s
  let chosen ← adtPathOffset d.adt fuel (0x2f :: chosenName)
  let d :=
    if (0 : U32).slt chosen then (fixSerial s chosen (d.getIds s chosen)).printIds s
    else d.printf s "No chosen node!\n" 0
  some (d.printf s "\n" 0)

def serialNumber (adt : Blob) : Option (List Byte) :=
  (adtGetprop adt 0 serialName).map fun p => adt.cstring p.1

/-! ### The ADT is only written by the fix -/

section Frame

variable (s : Stack) (d : Device)

@[simp] theorem adt_printf (format : String) (arg : U32) : (d.printf s format arg).adt = d.adt :=
  rfl

@[simp] theorem adt_printString (format : String) (name : List Byte) :
    (d.printString s format name).adt = d.adt := by
  unfold Device.printString
  split <;> rfl

@[simp] theorem adt_getIds (chosen : U32) : (d.getIds s chosen).adt = d.adt := by
  simp only [Device.getIds]
  split_ifs <;> rfl

@[simp] theorem adt_printModel : (d.printModel s).adt = d.adt := by simp [Device.printModel]

@[simp] theorem adt_printIds : (d.printIds s).adt = d.adt := rfl

theorem getDeviceInfo_chosen {fuel : Nat} {chosen : U32}
    (hchosen : adtPathOffset d.adt fuel (0x2f :: chosenName) = some chosen)
    (hpos : (0 : U32).slt chosen = true) :
    getDeviceInfo fuel s d =
      some (((fixSerial s chosen ((d.printModel s).getIds s chosen)).printIds s).printf
        s "\n" 0) := by
  simp only [getDeviceInfo, adt_printModel, hchosen, Option.bind_eq_bind, Option.bind_some, hpos,
    if_true]

end Frame

/-! ### The serial number of an id -/

def high (id : U64) : Nat := id.toNat / 2 ^ 32

def low (id : U64) : Nat := id.toNat % 2 ^ 32

def serialText (id : U64) : List Byte :=
  (numeral 16 (high id) ++ numeral 16 (low id)).map (digitChar true)

theorem high_lt (id : U64) : high id < 2 ^ 32 := by
  have hlt := id.isLt
  unfold high
  omega

theorem low_lt (id : U64) : low id < 2 ^ 32 := Nat.mod_lt _ (by decide)

theorem length_serialText (id : U64) : (serialText id).length ≤ 16 := by
  have hhigh := length_numeral_le (b := 16) (k := 8) (by decide) (by decide) (high_lt id)
  have hlow := length_numeral_le (b := 16) (k := 8) (by decide) (by decide) (low_lt id)
  simp only [serialText, List.length_map, List.length_append]
  omega

theorem serialText_ne_zero (id : U64) : ∀ b ∈ serialText id, b ≠ 0 := by
  have hdigit : ∀ d : Fin 16, digitChar true d ≠ 0 := by decide
  intro b hb
  obtain ⟨d, hd, rfl⟩ := List.mem_map.mp hb
  have hlt : d < 16 := by
    rcases List.mem_append.mp hd with h | h
    · exact numeral_lt (by decide) h
    · exact numeral_lt (by decide) h
  exact hdigit ⟨d, hlt⟩

theorem read32_halves {adt : Blob} {v : Nat} {id : U64} (h : Holds adt v (leWord id)) :
    (read32 adt (BitVec.ofNat 32 v + 4)).toNat = high id ∧
      (read32 adt (BitVec.ofNat 32 v)).toNat = low id := by
  have hload : adt.load (BitVec.ofNat 32 v) (4 + 4) = leWord id := h
  have hvalue := leNat_leWord rfl id
  rw [← hload, Mem.load_add, leNat_append, Mem.length_load] at hvalue
  have hlow := leNat_lt (adt.load (BitVec.ofNat 32 v) 4)
  have hhigh := leNat_lt (adt.load (BitVec.ofNat 32 v + BitVec.ofNat 32 4) 4)
  rw [Mem.length_load] at hlow hhigh
  simp only [read32, BitVec.toNat_ofNat, high, low, ← hvalue]
  constructor
  · change leNat (adt.load (BitVec.ofNat 32 v + BitVec.ofNat 32 4) 4) % _ = _
    omega
  · omega

theorem prints_hex (strAt : U32 → List Byte) (args : VaList) :
    Prints strAt (spec .none .X) args ((numeral 16 args.arg32.1.toNat).map (digitChar true))
      args.arg32.2 :=
  prints_spec strAt .none .X args

theorem prints_serial (strAt : U32 → List Byte) {ecid₁ ecid₀ : U32} {id : U64}
    (hhigh : ecid₁.toNat = high id) (hlow : ecid₀.toNat = low id) :
    ∃ args', Prints strAt serialFormat (serialArgs ecid₁ ecid₀) (serialText id) args' := by
  have hprints := (prints_hex strAt (serialArgs ecid₁ ecid₀)).append (prints_hex strAt _)
  rw [← List.map_append] at hprints
  refine ⟨(serialArgs ecid₁ ecid₀).arg32.2.arg32.2, ?_⟩
  rw [serialText, ← hhigh, ← hlow]
  exact hprints

theorem newSerial_starts (s : Stack) {adt : Blob} {v : Nat} {id : U64}
    (h : Holds adt v (leWord id)) : serialText id ++ [0] <+: newSerial s adt (BitVec.ofNat 32 v) ∧
      (newSerial s adt (BitVec.ofNat 32 v)).length = 32 := by
  obtain ⟨hhigh, hlow⟩ := read32_halves h
  obtain ⟨args', hprints⟩ := prints_serial adt.cstring hhigh hlow
  have htext := hprints.text_eq
  have hshort := length_serialText id
  have hmem := vsnprintf_mem hprints.noCount (by rw [htext, INT_MAX]; omega) s.mem s.newSerial 32
  have hnone : ¬ (s.newSerial = 0 ∨ (32 : U32) = 0) := by
    rintro (h | h)
    · exact s.newSerial_ne h
    · exact absurd h (by decide)
  rw [if_neg hnone, htext, List.take_of_length_le (by simp; omega)] at hmem
  have hroom : (serialText id ++ [0]).length + (31 - (serialText id).length) = 32 := by
    simp
    omega
  have hload := Mem.load_add (s.mem.store s.newSerial (serialText id ++ [0])) s.newSerial
    (serialText id ++ [0]).length (31 - (serialText id).length)
  rw [hroom, Mem.load_store (by simp; omega)] at hload
  refine ⟨?_, Mem.length_load _ _ _⟩
  simp only [newSerial, hmem, hload]
  exact List.prefix_append _ _

/-! ### Devices without a serial number -/

/-- An ADT with an empty serial number of 32 bytes and a unique chip id. -/
structure Ready (fuel : Nat) (adt : Blob) (t : AdtTree) (id : U64) : Prop where
  stored : Stored adt 0 t
  named : t.named = true
  header : adtCheckHeader adt = 0
  deep : t.depth ≤ fuel
  chosen : ∃ n, childNamed chosenName (0, t) = some n ∧
    n.2.value? uniqueChipIdName = some (leWord id)
  serial : ∃ old, t.value? serialName = some (0 :: old) ∧ old.length = 31

theorem childOffsets_ge (ts : List AdtTree) : ∀ o, ∀ x ∈ childOffsets o ts, o ≤ x := by
  induction ts with
  | nil => simp [childOffsets]
  | cons t ts ih =>
    intro o x hx
    simp only [childOffsets, List.mem_cons] at hx
    rcases hx with rfl | hx
    · exact le_rfl
    · exact le_trans (Nat.le_add_right _ _) (ih _ x hx)

section Fix

variable {fuel : Nat} {adt : Blob} {t : AdtTree} {id : U64}

theorem Ready.chosen_found (h : Ready fuel adt t id) :
    ∃ chosen v, adtPathOffset adt fuel (0x2f :: chosenName) = some chosen ∧
      (0 : U32).slt chosen = true ∧
      adtGetprop adt chosen uniqueChipIdName = some (BitVec.ofNat 32 v, 8) ∧
      Holds adt v (leWord id) := by
  obtain ⟨n, hchild, hid⟩ := h.chosen
  have hmem := List.mem_of_find?_eq_some hchild
  have hnode := Node.child (⟨h.stored, h.named, h.deep⟩ : Node adt fuel (0, t)) hmem
  obtain ⟨v, hget, hholds, -⟩ := hnode.stored.getprop_value hid
  have hpath : adtPathOffset adt fuel (0x2f :: chosenName) =
      some (offsetOf (resolve (components (0x2f :: chosenName)) (0, t))) := by
    rw [adtPathOffset, pathOffsetTrace_eq h.header ⟨h.stored, h.named, h.deep⟩ (by decide),
      Option.map_some]
  have hcomponents : components (0x2f :: chosenName) = [chosenName] := by decide
  rw [hcomponents, resolve, hchild] at hpath
  refine ⟨BitVec.ofNat 32 n.1, v, hpath, ?_, ?_, hholds⟩
  · -- a child is not at offset zero
    have hge : 8 ≤ n.1 := by
      have := childOffsets_ge _ _ _ (List.of_mem_zip hmem).1
      unfold childrenAt at this
      omega
    have hsmall := hnode.stored.small
    have hnat : (BitVec.ofNat 32 n.1).toNat = n.1 := Nat.mod_eq_of_lt (by omega)
    have hzero : (0 : U32).toInt = 0 := rfl
    have hint : (BitVec.ofNat 32 n.1).toInt = n.1 := by
      rw [BitVec.toInt_eq_toNat_of_lt (by omega), hnat]
    rw [BitVec.slt_iff_toInt_lt, hzero, hint]
    omega
  · rw [hget, length_leWord]
    rfl

theorem serial_fixSerial (hstored : Stored adt 0 t)
    (hserial : ∃ old, t.value? serialName = some (0 :: old) ∧ old.length = 31) (s : Stack)
    {chosen : U32} {v : Nat}
    (hecid : adtGetprop adt chosen uniqueChipIdName = some (BitVec.ofNat 32 v, 8))
    (hholds : Holds adt v (leWord id)) (d : Device) (hadt : d.adt = adt) :
    serialNumber (fixSerial s chosen d).adt = some (serialText id) := by
  subst hadt
  obtain ⟨old, hold, hlen⟩ := hserial
  obtain ⟨⟨junk, hnew⟩, hlength⟩ := newSerial_starts s hholds
  have hroot : (0, t) ∈ t.nodes 0 := by
    rw [AdtTree.nodes_eq]
    exact List.mem_cons_self
  obtain ⟨w, hget, hset, hnodes⟩ := setprop_found hstored hroot hold
    (show (0 :: old).length = (newSerial s d.adt (BitVec.ofNat 32 v)).length by
      simp [hlen, hlength])
  obtain ⟨serial, hget', hat, -⟩ := hstored.getprop_value hold
  have hempty : d.adt w = 0 := by
    obtain ⟨rfl, -⟩ := Prod.mk.inj (Option.some.inj (hget.symm.trans hget'))
    exact (Mem.at_cons.mp hat).1
  rw [hlength] at hget hset
  have hdone : (fixSerial s chosen d).adt =
      d.adt.store w (newSerial s d.adt (BitVec.ofNat 32 v)) := by
    rw [fixSerial, show adtGetprop d.adt 0 serialName = some (w, 32) from hget]
    dsimp only
    rw [if_pos ⟨hempty, rfl⟩, hecid]
    dsimp only
    rw [if_pos rfl, show adtSetprop d.adt 0 serialName _ = _ from hset]
    rfl
  have hfound : adtGetprop (d.adt.store w (newSerial s d.adt (BitVec.ofNat 32 v))) 0 serialName =
      some (w, 32) := ((hnodes (0, t) hroot).getprop serialName).trans hget
  have hshort := length_serialText id
  have hstring : (d.adt.store w (newSerial s d.adt (BitVec.ofNat 32 v))).At w
      (serialText id ++ [0]) := by
    have hall : (d.adt.store w (newSerial s d.adt (BitVec.ofNat 32 v))).At w
        (newSerial s d.adt (BitVec.ofNat 32 v)) := Mem.load_store (by omega) d.adt w
    rw [← hnew] at hall ⊢
    exact (Mem.at_append.mp hall).1
  rw [serialNumber, hdone, hfound, Option.map_some,
    Mem.cstring_eq (serialText_ne_zero id) hstring (by omega)]

/-- The serial number that is left is the text of the chip id. -/
theorem serial_of_ready (h : Ready fuel adt t id) (s : Stack) (d : Device) (hadt : d.adt = adt) :
    ∃ d', getDeviceInfo fuel s d = some d' ∧ serialNumber d'.adt = some (serialText id) := by
  obtain ⟨chosen, v, hpath, hpos, hecid, hholds⟩ := h.chosen_found
  obtain ⟨old, hold, hlen⟩ := h.serial
  refine ⟨_, getDeviceInfo_chosen s d (by rw [hadt]; exact hpath) hpos, ?_⟩
  rw [adt_printf, adt_printIds]
  exact serial_fixSerial h.stored ⟨old, hold, hlen⟩ s hecid hholds _ (by simp [hadt])

end Fix

/-! ### Collisions -/

/-- Two ids that cannot be told apart: the digits of the halves run into each other. -/
def SameSerial (id id' : U64) : Prop :=
  id = id' ∨ (high id ≠ 0 ∧ high id' ≠ 0 ∧
    high id * 16 ^ (numeral 16 (low id)).length + low id =
      high id' * 16 ^ (numeral 16 (low id')).length + low id')

theorem eq_iff_halves {id id' : U64} : id = id' ↔ high id = high id' ∧ low id = low id' := by
  constructor
  · rintro rfl
    exact ⟨rfl, rfl⟩
  · rintro ⟨hhigh, hlow⟩
    apply BitVec.eq_of_toNat_eq
    unfold high low at *
    omega

theorem serialText_eq_iff {id id' : U64} :
    serialText id = serialText id' ↔ SameSerial id id' := by
  have hlt (id : U64) : ∀ d ∈ numeral 16 (high id) ++ numeral 16 (low id), d < 16 := by
    intro d hd
    rcases List.mem_append.mp hd with h | h
    · exact numeral_lt (by decide) h
    · exact numeral_lt (by decide) h
  rw [SameSerial, eq_iff_halves, ← append_eq_append_iff (by decide)]
  constructor
  · intro h
    exact map_digitChar_injective true (hlt id) (hlt id') h
  · intro h
    rw [serialText, h, serialText]

/-- Two devices get the same serial number exactly if their ids are equal, or if both have an
    upper half and the hexadecimal digits of their two halves, one behind the other, make the same
    number. -/
theorem serials_equal_iff {fuel fuel' : Nat} {t t' : AdtTree} {id id' : U64} (s s' : Stack)
    (d d' : Device) (h : Ready fuel d.adt t id) (h' : Ready fuel' d'.adt t' id') :
    ∃ e e', getDeviceInfo fuel s d = some e ∧ getDeviceInfo fuel' s' d' = some e' ∧
      (serialNumber e.adt = serialNumber e'.adt ↔ SameSerial id id') := by
  obtain ⟨e, hrun, hserial⟩ := serial_of_ready h s d rfl
  obtain ⟨e', hrun', hserial'⟩ := serial_of_ready h' s' d' rfl
  refine ⟨e, e', hrun, hrun', ?_⟩
  rw [hserial, hserial', Option.some.injEq]
  exact serialText_eq_iff

theorem length_chipId (id : U64) : (leWord id).length < 2 ^ 20 := by
  rw [length_leWord]
  decide

/-- A root with an empty serial number, and `/chosen` with a unique chip id. -/
def chipTree (id : U64) : AdtTree :=
  .node (nameProp ['d', 't'] length_rootName)
    [⟨serialName, List.replicate 32 0, by decide, by decide, by decide⟩]
    [.node (nameProp ['c', 'h', 'o', 's', 'e', 'n'] (by decide))
      [⟨uniqueChipIdName, leWord id, by decide, by decide, length_chipId id⟩] []]

def chipDevice (id : U64) : Device := ⟨blobOf (chipTree id).enc, 0xffffffff, 0xffffffff, []⟩

def sampleStack : Stack := ⟨fun _ => 0xaa, 0x1000, 0x2000, by decide⟩

theorem ready_chipTree (id : U64) (hheader : adtCheckHeader (blobOf (chipTree id).enc) = 0)
    (hlen : (chipTree id).enc.length < 2 ^ 31) : Ready 2 (chipDevice id).adt (chipTree id) id where
  stored := stored_blobOf hlen
  named := rfl
  header := hheader
  deep := le_of_eq rfl
  chosen := by
    obtain ⟨n, hn⟩ : ∃ n, placed (0, chipTree id) = [(n, firstChild (chipTree id))] := ⟨_, rfl⟩
    refine ⟨(n, firstChild (chipTree id)), ?_, rfl⟩
    rw [childNamed, hn]
    rfl
  serial := ⟨List.replicate 31 0, rfl, rfl⟩

/-- The ids 0x100000023 and 0x12 become `123` and `012`. -/
theorem serials_equal_iff_short :
    ∃ e e', getDeviceInfo 2 sampleStack (chipDevice 0x100000023) = some e ∧
      getDeviceInfo 2 sampleStack (chipDevice 0x12) = some e' ∧
      serialNumber e.adt ≠ serialNumber e'.adt := by
  obtain ⟨e, e', hrun, hrun', hiff⟩ := serials_equal_iff sampleStack sampleStack
    (chipDevice 0x100000023) (chipDevice 0x12)
    (ready_chipTree 0x100000023 (by decide +kernel) (by decide +kernel))
    (ready_chipTree 0x12 (by decide +kernel) (by decide +kernel))
  refine ⟨e, e', hrun, hrun', mt hiff.mp ?_⟩
  rintro (h | ⟨-, h, -⟩)
  · exact absurd h (by decide)
  · exact absurd rfl h

/-- The ids 0x100000023 and 0x1200000003 both become `123`. -/
theorem serials_collide :
    Ready 2 (chipDevice 0x100000023).adt (chipTree 0x100000023) 0x100000023 ∧
      Ready 2 (chipDevice 0x1200000003).adt (chipTree 0x1200000003) 0x1200000003 ∧
      ∃ e e', getDeviceInfo 2 sampleStack (chipDevice 0x100000023) = some e ∧
        getDeviceInfo 2 sampleStack (chipDevice 0x1200000003) = some e' ∧
        serialNumber e.adt = some (cstr ['1', '2', '3']) ∧
        serialNumber e'.adt = some (cstr ['1', '2', '3']) := by
  have h := ready_chipTree 0x100000023 (by decide +kernel) (by decide +kernel)
  have h' := ready_chipTree 0x1200000003 (by decide +kernel) (by decide +kernel)
  obtain ⟨e, hrun, hserial⟩ := serial_of_ready h sampleStack _ rfl
  obtain ⟨e', hrun', hserial'⟩ := serial_of_ready h' sampleStack _ rfl
  refine ⟨h, h', e, e', hrun, hrun', hserial.trans ?_, hserial'.trans ?_⟩
  · decide +kernel
  · decide +kernel

end MiniHaywire.DeviceInfo
