import Mathlib.Data.List.Chain
import MiniHaywire.Adt
import MiniHaywire.Region
import MiniHaywire.SlotMap

/-!
# The flattened device tree

libfdt knows a node by the offset of its tag in the structure block.  The block is the
list of the nodes in the order of their tags, with their depths; between the tag of one
node and that of the next stand the name, the properties, the tags that close nodes,
and any tags without a meaning.  So whatever changes the properties of a node moves
the offsets of the nodes behind it, and only those.

The functions here are those the U-Boot marking uses.  The memory for a new property
is taken to be there.
-/

namespace MiniHaywire

open SlotMap (upsert valueOf)
open Adt (cstr)

namespace DeviceTree

/-! ### Nodes -/

structure Node where
  depth : Nat
  name : List Byte
  /-- Names and values, in order. -/
  props : List (List Byte × List Byte)
  /-- How many `FDT_NOP` there are before the next node. -/
  nops : Nat
deriving DecidableEq

/-- The depths of nodes in the order of their tags: the root is first, every other node is below
    it, and at most one level below the node in front of it. -/
def Preorder : List Nat → Prop
  | [] => False
  | d :: ds => d = 0 ∧ (∀ e ∈ ds, 0 < e) ∧ List.IsChain (fun a b => b ≤ a + 1) (d :: ds)

end DeviceTree

structure DeviceTree where
  nodes : List DeviceTree.Node
  preorder : DeviceTree.Preorder (nodes.map DeviceTree.Node.depth)

namespace DeviceTree

def Node.size (n : Node) : Nat :=
  4 + roundUp 4 (n.name.length + 1) + (n.props.map fun p => 12 + roundUp 4 p.2.length).sum +
    4 * n.nops

/-- The offsets of the tags, for nodes that start at `pos`. -/
def offsetsFrom (pos : Nat) : List Node → List Nat
  | [] => []
  | n :: rest =>
    -- as many `FDT_END_NODE` as it takes to get to the depth of the next node
    let closing := n.depth + 1 - rest.head?.elim 0 Node.depth
    pos :: offsetsFrom (pos + n.size + 4 * closing) rest

def offsets (dt : DeviceTree) : List Nat := offsetsFrom 0 dt.nodes

def indexAt (dt : DeviceTree) (offset : Nat) : Option Nat := dt.offsets.findIdx? (· = offset)

/-! ### Properties -/

def phandleName : List Byte := cstr ['p', 'h', 'a', 'n', 'd', 'l', 'e']

def linuxPhandle : List Byte :=
  cstr ['l', 'i', 'n', 'u', 'x', ',', 'p', 'h', 'a', 'n', 'd', 'l', 'e']

/-- `fdt32_ld`: four bytes, the first one is the highest. -/
def fdt32 (bs : List Byte) : U32 := BitVec.ofNat 32 (leNat bs.reverse)

def cells : List Byte → List U32
  | b₀ :: b₁ :: b₂ :: b₃ :: rest => fdt32 [b₀, b₁, b₂, b₃] :: cells rest
  | _ => []

def fdtGetprop (dt : DeviceTree) (offset : Nat) (name : List Byte) : Option (List Byte) := do
  let i ← dt.indexAt offset
  let n ← dt.nodes[i]?
  valueOf name n.props

/-- `fdt_get_phandle`; `0` if there is none. -/
def Node.phandle (n : Node) : U32 :=
  match (valueOf phandleName n.props).filter (·.length = 4) with
  | some value => fdt32 value
  | none =>
    match (valueOf linuxPhandle n.props).filter (·.length = 4) with
    | some value => fdt32 value
    | none => 0

/-- An empty value for the first property of that name, or a new property in front of the
    others. -/
def setEmpty (name : List Byte) (props : List (List Byte × List Byte)) :
    List (List Byte × List Byte) :=
  if (valueOf name props).isSome then upsert name [] props else (name, []) :: props

theorem map_modify_of_eq {α β : Type*} {f : α → β} {g : α → α} (h : ∀ a, f (g a) = f a)
    (l : List α) (i : Nat) : (l.modify i g).map f = l.map f := by
  induction l generalizing i with
  | nil => cases i <;> rfl
  | cons a l ih =>
    cases i with
    | zero => exact congrArg (· :: l.map f) (h a)
    | succ i => exact congrArg (f a :: ·) (ih i)

theorem depth_modify (nodes : List Node) (i : Nat)
    (f : List (List Byte × List Byte) → List (List Byte × List Byte)) :
    (nodes.modify i fun n => { n with props := f n.props }).map Node.depth =
      nodes.map Node.depth := by
  apply map_modify_of_eq
  intro n
  rfl

def setProps (dt : DeviceTree) (i : Nat)
    (f : List (List Byte × List Byte) → List (List Byte × List Byte)) : DeviceTree where
  nodes := dt.nodes.modify i fun n => { n with props := f n.props }
  preorder := by
    rw [depth_modify]
    exact dt.preorder

def fdtSetpropEmpty (dt : DeviceTree) (offset : Nat) (name : List Byte) : DeviceTree :=
  match dt.indexAt offset with
  | none => dt
  | some i => dt.setProps i (setEmpty name)

/-! ### References between nodes -/

/-- What finding a node by its phandle, or its parent, depends on, and what it refers to. -/
structure Link where
  depth : Nat
  phandle : U32
  powerDomains : List U32
deriving DecidableEq

def powerDomainsName : List Byte :=
  cstr ['p', 'o', 'w', 'e', 'r', '-', 'd', 'o', 'm', 'a', 'i', 'n', 's']

def Node.link (n : Node) : Link where
  depth := n.depth
  phandle := n.phandle
  powerDomains := ((valueOf powerDomainsName n.props).map cells).getD []

def links (dt : DeviceTree) : List Link := dt.nodes.map Node.link

def findPhandle (ls : List Link) (phandle : U32) : Option Nat :=
  if phandle = 0 ∨ phandle = 0xffffffff then none else ls.findIdx? (·.phandle = phandle)

/-- The last node in front of a node that is one level up. -/
def parentOf (ls : List Link) (i : Nat) : Option Nat := do
  let l ← ls[i]?
  (List.range i).reverse.find? fun j => ls[j]?.any (·.depth + 1 = l.depth)

def fdtNodeOffsetByPhandle (dt : DeviceTree) (phandle : U32) : Option Nat := do
  let i ← findPhandle dt.links phandle
  dt.offsets[i]?

def fdtParentOffset (dt : DeviceTree) (offset : Nat) : Option Nat := do
  let i ← dt.indexAt offset
  let j ← parentOf dt.links i
  dt.offsets[j]?

def Carries (dt : DeviceTree) (i : Nat) (name : List Byte) : Prop :=
  ∃ n, dt.nodes[i]? = some n ∧ (valueOf name n.props).isSome

/-! ### Offsets -/

section Offsets

variable {dt : DeviceTree} {i j offset : Nat}

theorem length_offsetsFrom (pos : Nat) (nodes : List Node) :
    (offsetsFrom pos nodes).length = nodes.length := by
  induction nodes generalizing pos with
  | nil => rfl
  | cons n nodes ih => exact congrArg (· + 1) (ih _)

theorem le_of_mem_offsetsFrom {pos : Nat} {nodes : List Node}
    (h : offset ∈ offsetsFrom pos nodes) : pos ≤ offset := by
  induction nodes generalizing pos with
  | nil => exact absurd h List.not_mem_nil
  | cons n nodes ih =>
    rcases List.mem_cons.mp h with rfl | h
    · exact Nat.le_refl _
    · have hle := ih h
      omega

theorem pairwise_offsetsFrom (pos : Nat) (nodes : List Node) :
    (offsetsFrom pos nodes).Pairwise (· < ·) := by
  induction nodes generalizing pos with
  | nil => exact List.Pairwise.nil
  | cons n nodes ih =>
    refine List.Pairwise.cons ?_ (ih _)
    intro offset hmem
    have hle := le_of_mem_offsetsFrom hmem
    have hsize : 0 < n.size := by
      unfold Node.size
      omega
    omega

theorem indexAt_eq_some_iff : dt.indexAt offset = some i ↔ dt.offsets[i]? = some offset := by
  have hmono := pairwise_offsetsFrom 0 dt.nodes
  rw [List.pairwise_iff_getElem] at hmono
  rw [indexAt, List.findIdx?_eq_some_iff_getElem, List.getElem?_eq_some_iff]
  constructor
  · rintro ⟨hlt, heq, -⟩
    exact ⟨hlt, of_decide_eq_true heq⟩
  · rintro ⟨hlt, rfl⟩
    refine ⟨hlt, decide_eq_true rfl, ?_⟩
    intro j hji
    have hoff := hmono j i (hji.trans hlt) hlt hji
    rw [Bool.not_eq_true, decide_eq_false_iff_not]
    exact Nat.ne_of_lt hoff

theorem exists_offset (h : i < dt.nodes.length) : ∃ offset, dt.offsets[i]? = some offset := by
  rw [← length_offsetsFrom 0] at h
  exact ⟨_, List.getElem?_eq_getElem h⟩

theorem lt_length_of_offset (h : dt.offsets[i]? = some offset) : i < dt.nodes.length := by
  rw [← length_offsetsFrom 0]
  exact (List.getElem?_eq_some_iff.mp h).1

theorem offsetsFrom_modify (pos i : Nat) (nodes : List Node)
    (f : List (List Byte × List Byte) → List (List Byte × List Byte)) :
    (offsetsFrom pos (nodes.modify i fun n => { n with props := f n.props }))[i]? =
      (offsetsFrom pos nodes)[i]? := by
  induction nodes generalizing pos i with
  | nil => cases i <;> rfl
  | cons n nodes ih =>
    cases i with
    | zero => rfl
    | succ i =>
      have hhead : (nodes.modify i fun n => { n with props := f n.props }).head?.elim 0 Node.depth =
          nodes.head?.elim 0 Node.depth := by
        cases nodes with
        | nil => cases i <;> rfl
        | cons n' nodes => cases i <;> rfl
      rw [List.modify_succ_cons, offsetsFrom, offsetsFrom, hhead]
      exact ih _ i

end Offsets

/-! ### Setting a property -/

section SetEmpty

variable {dt : DeviceTree} {i j offset : Nat} {name key : List Byte}

theorem valueOf_setEmpty (key name : List Byte) (props : List (List Byte × List Byte)) :
    valueOf key (setEmpty name props) = if key = name then some [] else valueOf key props := by
  unfold setEmpty
  split
  · exact SlotMap.valueOf_upsert name key [] props
  · by_cases heq : key = name
    · simp [valueOf, heq]
    · simp [valueOf, heq, Ne.symm heq]

/-- A property that no lookup reads. -/
def Inert (name : List Byte) : Prop :=
  name ≠ phandleName ∧ name ≠ linuxPhandle ∧ name ≠ powerDomainsName

theorem link_setEmpty (hname : Inert name) (n : Node) :
    ({ n with props := setEmpty name n.props } : Node).link = n.link := by
  obtain ⟨hphandle, hlinux, hdomains⟩ := hname
  simp only [Node.link, Node.phandle, valueOf_setEmpty, if_neg (Ne.symm hphandle),
    if_neg (Ne.symm hlinux), if_neg (Ne.symm hdomains)]

theorem fdtSetpropEmpty_eq (h : dt.offsets[i]? = some offset) :
    dt.fdtSetpropEmpty offset name = dt.setProps i (setEmpty name) := by
  rw [fdtSetpropEmpty, indexAt_eq_some_iff.mpr h]

theorem links_fdtSetpropEmpty (hname : Inert name) (dt : DeviceTree) (offset : Nat) :
    (dt.fdtSetpropEmpty offset name).links = dt.links := by
  unfold fdtSetpropEmpty
  split
  · rfl
  · exact map_modify_of_eq (link_setEmpty hname) _ _

theorem offsets_fdtSetpropEmpty (name : List Byte) (h : dt.offsets[i]? = some offset) :
    (dt.fdtSetpropEmpty offset name).offsets[i]? = some offset := by
  rw [fdtSetpropEmpty_eq h]
  exact (offsetsFrom_modify 0 i dt.nodes (setEmpty name)).trans h

theorem carries_fdtSetpropEmpty (h : dt.offsets[i]? = some offset) :
    (dt.fdtSetpropEmpty offset name).Carries j key ↔
      dt.Carries j key ∨ j = i ∧ key = name := by
  have hlt := lt_length_of_offset h
  rw [fdtSetpropEmpty_eq h, Carries, Carries, setProps, List.getElem?_modify]
  by_cases hij : i = j
  · subst hij
    simp only [List.getElem?_eq_getElem hlt, Option.map_eq_map, Option.map_some, Option.some.injEq,
      if_true, exists_eq_left', valueOf_setEmpty, true_and]
    by_cases heq : key = name
    · simp [heq]
    · simp [heq]
  · simp only [if_neg hij, Option.map_eq_map, Option.map_id', Ne.symm hij, false_and, or_false]

end SetEmpty

/-! ### Parents -/

section Parents

variable {ls : List Link} {i j : Nat}

theorem findPhandle_lt {phandle : U32} (h : findPhandle ls phandle = some i) : i < ls.length := by
  unfold findPhandle at h
  split at h
  · contradiction
  · exact (List.findIdx?_eq_some_iff_getElem.mp h).1

theorem parentOf_lt (h : parentOf ls i = some j) : j < i := by
  obtain ⟨l, -, hfind⟩ := Option.bind_eq_some_iff.mp h
  have hmem := List.mem_of_find?_eq_some hfind
  exact List.mem_range.mp (List.mem_reverse.mp hmem)

theorem length_links (dt : DeviceTree) : dt.links.length = dt.nodes.length := List.length_map _

end Parents

/-! ### Lookups by offset -/

section Lookups

variable {dt : DeviceTree} {i j offset : Nat}

theorem fdtGetprop_eq {n : Node} (hoffset : dt.offsets[i]? = some offset)
    (hn : dt.nodes[i]? = some n) (name : List Byte) :
    dt.fdtGetprop offset name = valueOf name n.props := by
  rw [fdtGetprop, indexAt_eq_some_iff.mpr hoffset, Option.bind_eq_bind, Option.bind_some, hn]
  rfl

theorem fdtNodeOffsetByPhandle_of_none {phandle : U32} (h : findPhandle dt.links phandle = none) :
    dt.fdtNodeOffsetByPhandle phandle = none := by
  rw [fdtNodeOffsetByPhandle, h]
  rfl

theorem fdtNodeOffsetByPhandle_of_some {phandle : U32} (h : findPhandle dt.links phandle = some i) :
    ∃ offset, dt.fdtNodeOffsetByPhandle phandle = some offset ∧ dt.offsets[i]? = some offset := by
  have hlt := findPhandle_lt h
  rw [length_links] at hlt
  obtain ⟨offset, hoffset⟩ := exists_offset hlt
  rw [fdtNodeOffsetByPhandle, h]
  exact ⟨offset, hoffset, hoffset⟩

theorem fdtParentOffset_of_none (hoffset : dt.offsets[i]? = some offset)
    (h : parentOf dt.links i = none) : dt.fdtParentOffset offset = none := by
  rw [fdtParentOffset, indexAt_eq_some_iff.mpr hoffset, Option.bind_eq_bind, Option.bind_some, h]
  rfl

theorem fdtParentOffset_of_some (hoffset : dt.offsets[i]? = some offset)
    (h : parentOf dt.links i = some j) :
    ∃ offset', dt.fdtParentOffset offset = some offset' ∧ dt.offsets[j]? = some offset' := by
  obtain ⟨offset', hoffset'⟩ := exists_offset ((parentOf_lt h).trans (lt_length_of_offset hoffset))
  rw [fdtParentOffset, indexAt_eq_some_iff.mpr hoffset, Option.bind_eq_bind, Option.bind_some, h]
  exact ⟨offset', hoffset', hoffset'⟩

end Lookups

end DeviceTree

end MiniHaywire
