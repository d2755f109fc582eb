import MiniHaywire.Bytes

/-!
# Reading the Apple device tree

The functions of `adt.c` and the loop macros of `adt.h`, over the bytes of a
blob.  Offsets are `int`s relative to the pointer `adt`, so the blob is a memory
with 32-bit addresses that start at `adt`.  A name handed to these functions is
the list of its characters: `strlen(name)` of them, or the `namelen` characters
of a path component.

A `NULL` property is `none`.  `adt_next_sibling_offset` recurses with no bound of
its own and is given fuel; where a function calls it, `none` also stands for
running out of fuel, or for a `NULL` name being read.
-/

namespace MiniHaywire.Adt

abbrev Blob := Mem 32

def cstr (s : List Char) : List Byte := s.map fun c => BitVec.ofNat 8 c.toNat

def addressCells : List Byte :=
  cstr ['#', 'a', 'd', 'd', 'r', 'e', 's', 's', '-', 'c', 'e', 'l', 'l', 's']

def sizeCells : List Byte := cstr ['#', 's', 'i', 'z', 'e', '-', 'c', 'e', 'l', 'l', 's']

def rangesName : List Byte := cstr ['r', 'a', 'n', 'g', 'e', 's']

def ADT_ERR_NOTFOUND : U32 := 1
def ADT_ERR_BADOFFSET : U32 := 4
def ADT_ERR_BADNCELLS : U32 := 14
def ADT_ERR_BADVALUE : U32 := 15
def ADT_ERR_BADLENGTH : U32 := 20

def ADT_ALIGN : U32 := 4

/-! ### Nodes and properties -/

def read32 (adt : Blob) (offset : U32) : U32 := BitVec.ofNat 32 (leNat (adt.load offset 4))

/-- `ADT_NODE(adt, offset)->property_count`. -/
def adtGetPropertyCount (adt : Blob) (offset : U32) : U32 := read32 adt offset

/-- `ADT_NODE(adt, offset)->child_count`. -/
def adtGetChildCount (adt : Blob) (offset : U32) : U32 := read32 adt (offset + 4)

/-- `ADT_PROP(adt, offset)->size`. -/
def propSize (adt : Blob) (offset : U32) : U32 := read32 adt (offset + 32)

def adtFirstPropertyOffset (offset : U32) : U32 := offset + 8

def adtNextPropertyOffset (adt : Blob) (offset : U32) : U32 :=
  offset + 36 + ((propSize adt offset + ADT_ALIGN - 1) &&& ~~~(ADT_ALIGN - 1))

def adtCheckNodeOffset (adt : Blob) (offset : U32) : U32 :=
  if offset.slt 0 ∨ offset.srem ADT_ALIGN ≠ 0 then -ADT_ERR_BADOFFSET
  else if 2048 < adtGetPropertyCount adt offset ∨ adtGetPropertyCount adt offset = 0 ∨
      2048 < adtGetChildCount adt offset then -ADT_ERR_BADOFFSET
  else 0

def adtCheckHeader (adt : Blob) : U32 := adtCheckNodeOffset adt 0

/-! ### Properties -/

section Property

variable {σ : Type} (adt : Blob)

/-- The inner loop of `ADT_FOREACH_PROPERTY`, with `n` rounds to go. -/
def propertyLoop (body : U32 → σ → ForInStep σ) : Nat → U32 → σ → σ
  | 0, _, s => s
  | n + 1, prop, s =>
    match body prop s with
    | .done s => s
    | .yield s => propertyLoop body n (adtNextPropertyOffset adt prop) s

def adtForeachProperty (node : U32) (init : σ) (body : U32 → σ → ForInStep σ) : σ :=
  propertyLoop adt body (adtGetPropertyCount adt node).toNat (adtFirstPropertyOffset node) init

def adtStringEq (a : U32) (b : List Byte) : Bool :=
  adt.strlen a == b.length && adt.load a b.length == b

/-- The body of the loop in `adt_get_property_namelen`. -/
def matchProperty (name : List Byte) (prop : U32) (acc : Option U32) : ForInStep (Option U32) :=
  if adtStringEq adt prop name then .done (some prop) else .yield acc

def adtGetPropertyNamelen (offset : U32) (name : List Byte) : Option U32 :=
  adtForeachProperty adt offset none (matchProperty adt name)

/-- `adt_getprop`: where the value starts, and `*lenp`. -/
def adtGetprop (nodeoffset : U32) (name : List Byte) : Option (U32 × U32) :=
  (adtGetPropertyNamelen adt nodeoffset name).map fun prop => (prop + 36, propSize adt prop)

/-- `adt_getprop_copy`: the return value, and what was copied. -/
def adtGetpropCopy (nodeoffset : U32) (name : List Byte) (len : U32) :
    U32 × Option (List Byte) :=
  match adtGetprop adt nodeoffset name with
  | none => (-ADT_ERR_NOTFOUND, none)
  | some (p, plen) =>
    if plen ≠ len then (-ADT_ERR_BADLENGTH, none) else (len, some (adt.load p len.toNat))

/-- The `u32` variable `val` after `ADT_GETPROP(adt, nodeoffset, name, &val)`. -/
def adtGetpropU32 (nodeoffset : U32) (name : List Byte) (val : U32) : U32 :=
  match (adtGetpropCopy adt nodeoffset name 4).2 with
  | none => val
  | some bs => BitVec.ofNat 32 (leNat bs)

end Property

/-! ### Children -/

def adtFirstChildOffset (adt : Blob) (offset : U32) : U32 :=
  (adtNextPropertyOffset adt)^[(adtGetPropertyCount adt offset).toNat]
    (adtFirstPropertyOffset offset)

/-- `while (cnt--) offset = f(offset)`, for an `f` that may fail. -/
def repeatedly (f : U32 → Option U32) : Nat → U32 → Option U32
  | 0, offset => some offset
  | cnt + 1, offset => f offset >>= repeatedly f cnt

def adtNextSiblingOffset (adt : Blob) : Nat → U32 → Option U32
  | 0, _ => none
  | fuel + 1, offset =>
    repeatedly (adtNextSiblingOffset adt fuel) (adtGetChildCount adt offset).toNat
      (adtFirstChildOffset adt offset)

section Child

variable {σ : Type} (adt : Blob) (fuel : Nat)

/-- The inner loop of `ADT_FOREACH_CHILD`, with `n` rounds to go. -/
def childLoop (body : U32 → σ → Option (ForInStep σ)) : Nat → U32 → σ → Option σ
  | 0, _, s => some s
  | n + 1, node, s => do
    match ← body node s with
    | .done s => some s
    | .yield s => childLoop body n (← adtNextSiblingOffset adt fuel node) s

def adtForeachChild (node : U32) (init : σ) (body : U32 → σ → Option (ForInStep σ)) : Option σ :=
  childLoop adt fuel body (adtGetChildCount adt node).toNat (adtFirstChildOffset adt node) init

end Child

/-! ### Paths -/

section Path

variable (adt : Blob) (fuel : Nat)

def adtNodenameEq (a : U32) (b : List Byte) : Bool :=
  if adt.load a b.length ≠ b then false
  else if adt (a + BitVec.ofNat 32 b.length) = 0 then true
  else if 0x40 ∉ b ∧ adt (a + BitVec.ofNat 32 b.length) = 0x40 then true
  else false

def adtGetName (nodeoffset : U32) : Option U32 :=
  (adtGetprop adt nodeoffset (cstr ['n', 'a', 'm', 'e'])).map Prod.fst

/-- The body of the loop in `adt_subnode_offset_namelen`. -/
def matchChild (name : List Byte) (child : U32) (acc : Option U32) :
    Option (ForInStep (Option U32)) := do
  let cname ← adtGetName adt child
  if adtNodenameEq adt cname name then some (.done (some child)) else some (.yield acc)

def adtSubnodeOffsetNamelen (offset : U32) (name : List Byte) : Option U32 :=
  if adtCheckHeader adt ≠ 0 then some (adtCheckHeader adt)
  else do
    let found ← adtForeachChild adt fuel offset none (matchChild adt name)
    some (found.getD (-ADT_ERR_NOTFOUND))

/-- The loop of `adt_path_offset_trace`; `p` is what is left of the path. -/
def pathLoop : Nat → List Byte → U32 → List U32 → Option (U32 × List U32)
  | 0, _, _, _ => none
  | n + 1, p, offset, offsets =>
    let p := p.dropWhile (· = 0x2f)
    if p = [] then some (offset, offsets)
    else do
      let offset ← adtSubnodeOffsetNamelen adt fuel offset (p.takeWhile (· ≠ 0x2f))
      if offset.slt 0 then some (offset, offsets)
      else pathLoop n (p.dropWhile (· ≠ 0x2f)) offset (offsets ++ [offset])

/-- `adt_path_offset_trace`: the return value, and what was stored from `offsets` on. -/
def adtPathOffsetTrace (path : List Byte) : Option (U32 × List U32) :=
  if adtCheckHeader adt ≠ 0 then some (adtCheckHeader adt, [])
  else do
    let (offset, offsets) ← pathLoop adt fuel (path.length + 1) path 0 []
    some (offset, offsets ++ [0])

def adtPathOffset (path : List Byte) : Option U32 :=
  (adtPathOffsetTrace adt fuel path).map Prod.fst

end Path

/-! ### Registers -/

section Reg

variable (adt : Blob)

/-- `get_cells`: the value of `cells` words from `src` on. -/
def getCells (src : U32) (cells : Nat) : U64 :=
  (List.range cells).foldl
    (fun dst i => dst ||| (read32 adt (src + BitVec.ofNat 32 (4 * i))).setWidth 64 <<< (32 * i)) 0

def rangeLoop (aCells paCells sCells : U32) (addr size : U64) : Nat → U32 → U64
  | 0, _ => addr
  | n + 1, ranges =>
    let cAddr := getCells adt ranges aCells.toNat
    let pAddr := getCells adt (ranges + 4 * aCells) paCells.toNat
    let cSize := getCells adt (ranges + 4 * (aCells + paCells)) sCells.toNat
    if cAddr ≤ addr ∧ addr + size ≤ cAddr + cSize then addr - cAddr + pAddr
    else rangeLoop aCells paCells sCells addr size n (ranges + 4 * (aCells + paCells + sCells))

/-- `n < 1 || n > 2` for an address, `n > 2` for a size. -/
def badCells (aCells sCells : U32) : Bool := aCells < 1 || 2 < aCells || 2 < sCells

/-- `while (parent)`: the translation, with the non-root ancestors from the parent
    upwards.  An error is the value returned from inside the loop. -/
def climb (size : U64) : List U32 → U32 → U32 → U64 → Except U32 U64
  | [], _, _, addr => .ok addr
  | node :: up, aCells, sCells, addr =>
    let parent := up.headD 0
    match adtGetprop adt node rangesName with
    | none => .ok addr
    | some (ranges, rangesLen) =>
      let paCells := adtGetpropU32 adt parent addressCells 2
      if badCells paCells sCells then .error ADT_ERR_BADNCELLS
      else
        let rangeCnt := rangesLen / (4 * (paCells + aCells + sCells))
        let addr := rangeLoop adt aCells paCells sCells addr size rangeCnt.toNat ranges
        let sCells := adtGetpropU32 adt parent sizeCells sCells
        climb size up paCells sCells addr

/-- The return value of `adt_get_reg`, and what it stored where the pointers are
    not `NULL`. -/
structure RegResult where
  ret : U32
  addr : Option U32
  size : Option U32
deriving DecidableEq

/-- `adt_get_reg`.  The path is the array up to its terminating zero; the flags
    say whether `paddr` and `psize` are other than `NULL`. -/
def adtGetReg (path : List U32) (prop : List Byte) (idx : U32) (paddr psize : Bool) :
    RegResult :=
  match (path.takeWhile (· ≠ 0)).reverse with
  | [] => ⟨-ADT_ERR_BADOFFSET, none, none⟩
  | node :: up =>
    let parent := up.headD 0
    let aCells := adtGetpropU32 adt parent addressCells 2
    let sCells := adtGetpropU32 adt parent sizeCells 1
    if badCells aCells sCells then ⟨ADT_ERR_BADNCELLS, none, none⟩
    else
      match adtGetprop adt node prop with
      | none => ⟨-ADT_ERR_NOTFOUND, none, none⟩
      | some (reg, regLen) =>
        if regLen = 0 then ⟨-ADT_ERR_NOTFOUND, none, none⟩
        else if regLen < (idx + 1) * (aCells + sCells) * 4 then ⟨-ADT_ERR_BADVALUE, none, none⟩
        else
          let reg := reg + 4 * (idx * (aCells + sCells))
          let addr := getCells adt reg aCells.toNat
          let size := getCells adt (reg + 4 * aCells) sCells.toNat
          match climb adt size up aCells sCells addr with
          | .error ret => ⟨ret, none, none⟩
          | .ok addr =>
            ⟨0, if paddr then some (lo32 addr) else none, if psize then some (lo32 size) else none⟩

end Reg

end MiniHaywire.Adt
