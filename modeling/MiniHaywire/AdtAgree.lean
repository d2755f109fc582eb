import MiniHaywire.AdtGetReg
import MiniHaywire.AdtRanges

/-!
# Register addresses on both sides

`adt_get_reg` of the firmware and `get_reg` of the client, on one blob.  A tree of the
firmware is what the client parses (`parseNode_nodeStruct`), so the two read the same
properties.  They differ in what they make of them: the firmware takes cell counts of
one and two alike, looks for the first window that holds the whole region and computes
in 64 bits; the client needs two cells everywhere, looks for the first window that holds
the start of the region and computes with integers of any size.

The two walks meet where at every level the first window that the region starts in holds
all of it (`LeadsUp`).  `get_reg_agrees_iff` says of such a region what else the client
needs to have the register that the firmware has: numbers of two cells, entries of 16 bytes
that fill `reg`, and an address and a size below 4 GiB.
-/

namespace MiniHaywire.AdtClient

open MiniHaywire.Construct MiniHaywire.Adt

/-! ### One tree, two readers -/

/-- A property of the firmware's tree, as the client parses it. -/
def propStruct (p : AdtProp) : PropStruct :=
  ⟨p.name, BitVec.ofNat 32 p.value.length, p.value,
    List.replicate (padLength (36 + p.value.length)) 0⟩

mutual

def nodeStruct : AdtTree → NodeStruct
  | .node first others children => .node ((first :: others).map propStruct) (nodeStructs children)

def nodeStructs : List AdtTree → List NodeStruct
  | [] => []
  | t :: ts => nodeStruct t :: nodeStructs ts

end

theorem nodeStructs_eq_map (ts : List AdtTree) : nodeStructs ts = ts.map nodeStruct := by
  induction ts with
  | nil => rfl
  | cons t ts ih => rw [nodeStructs, ih, List.map_cons]

section Props

variable (p : AdtProp)

theorem propStruct_size : (propStruct p).size.toNat = p.value.length := by
  have hlen := p.value_length
  exact Nat.mod_eq_of_lt (by omega)

theorem propStruct_parts :
    maskedSize (propStruct p).size = p.value.length ∧ isTemplate (propStruct p).size = false :=
  size_parts (b := false) (by have hlen := p.value_length; omega) (propStruct_size p)

theorem propStruct_enc : (propStruct p).enc = p.enc := by
  have hpad : padLength (36 + p.value.length) =
      4 * ((p.value.length + 3) / 4) - p.value.length := by
    unfold padLength
    omega
  rw [PropStruct.enc, AdtProp.enc, ljust, ljust]
  change p.name ++ _ ++ (leWord (BitVec.ofNat 32 p.value.length) ++ (p.value ++
    List.replicate (padLength (36 + p.value.length)) 0)) = _
  rw [hpad, ljust]
  rfl

variable [Library]

theorem parseProperty_propStruct {rest r : List Byte} {q : PropStruct}
    (h : parseProperty (p.enc ++ rest) = .ok (q, r)) : q = propStruct p ∧ r = rest := by
  have hstrip : stripNul (ljust 32 p.name) = p.name := stripNul_ljust p.name_ne
  by_cases hascii : isAscii p.name = true
  · have hvalid : (propStruct p).Valid :=
      ⟨⟨ljust 32 p.name, p.length_name, hstrip⟩, hascii, (propStruct_parts p).1.symm,
        List.length_replicate⟩
    rw [← propStruct_enc, parseProperty_enc hvalid] at h
    cases h
    exact ⟨rfl, rfl⟩
  · rw [AdtProp.enc, List.append_assoc, parseProperty] at h
    obtain ⟨⟨name, bs⟩, hname, -⟩ := except_bind_eq_ok h
    obtain ⟨w, hlen, hsplit, rfl, hok⟩ := parsePaddedString_eq_ok hname
    obtain ⟨rfl, -⟩ := List.append_inj hsplit (p.length_name.trans hlen.symm)
    rw [hstrip] at hok
    exact absurd hok hascii

end Props

theorem encAll_eq (ts : List AdtTree) : encAll ts = ts.flatMap AdtTree.enc := by
  induction ts with
  | nil => rfl
  | cons t ts ih => rw [encAll, ih, List.flatMap_cons]

section Nodes

variable [Library]

mutual

/-- The client parses the tree that the firmware walks, if it parses anything. -/
theorem parseNode_nodeStruct : ∀ (t : AdtTree), t.enc.length < 2 ^ 31 → ∀ {fuel : Nat}
    {rest r : List Byte} {u : NodeStruct}, parseNode fuel (t.enc ++ rest) = .ok (u, r) →
      u = nodeStruct t ∧ r = rest
  | .node first others children, hlen, fuel, rest, r, u, h => by
    rw [AdtTree.enc] at hlen h
    simp only [List.length_append, length_leWord] at hlen
    have hprops := length_le_encProps (first :: others)
    have hchildren := length_le_encAll children
    have hpc : (first :: others).length < 2 ^ 32 := by omega
    have hcc : children.length < 2 ^ 32 := by omega
    cases fuel with
    | zero => contradiction
    | succ fuel =>
      have hword : ∀ (x : U32) (bs : List Byte),
          parseInt32ul (leWord x ++ bs) = .ok (leNat (leWord x), bs) :=
        fun x bs => parseInt32ul_append (length_leWord x) bs
      simp only [List.append_assoc] at h
      rw [parseNode, hword, except_ok_bind] at h
      dsimp only at h
      rw [hword, except_ok_bind] at h
      dsimp only at h
      rw [leNat_cells hpc, leNat_cells hcc, encProps] at h
      obtain ⟨⟨ps, bs⟩, hps, hnode⟩ := except_bind_eq_ok h
      obtain ⟨rfl, rfl⟩ := parseN_exact (first :: others)
        (fun p _ _ _ _ => parseProperty_propStruct p) hps
      dsimp only at hnode
      rw [encAll_eq] at hnode
      obtain ⟨⟨us, bs⟩, hus, hdone⟩ := except_bind_eq_ok hnode
      obtain ⟨rfl, rfl⟩ := parseN_exact children
        (parseNodes_nodeStruct children (by omega)) hus
      cases hdone
      rw [nodeStruct, nodeStructs_eq_map]
      exact ⟨rfl, rfl⟩

theorem parseNodes_nodeStruct : ∀ (ts : List AdtTree), (encAll ts).length < 2 ^ 31 →
    ∀ {fuel : Nat}, ∀ t ∈ ts, ∀ (rest : List Byte) (u : NodeStruct) (r : List Byte),
      parseNode fuel (t.enc ++ rest) = .ok (u, r) → u = nodeStruct t ∧ r = rest
  | [], _, _, _, ht, _, _, _, _ => absurd ht List.not_mem_nil
  | t :: ts, hlen, fuel, t', ht', rest, u, r, h => by
    rw [encAll, List.length_append] at hlen
    rcases List.mem_cons.mp ht' with heq | ht'
    · rw [heq] at h ⊢
      exact parseNode_nodeStruct t (by omega) h
    · exact parseNodes_nodeStruct ts (by omega) t' ht' rest u r h

end

end Nodes

/-! ### Positions -/

/-- The node at the same position in the client, and the properties of its ancestors. -/
def Node.find : List Nat → List Dict → Node → Option (List Dict × Node)
  | [], parents, n => some (parents, n)
  | i :: is, parents, .node _ es ns => do
    let n ← ns[i]?
    n.find is (dict es :: parents)

def Node.parentPath : Node → List Byte
  | .node parentPath _ _ => parentPath

def Node.properties : Node → Dict
  | .node _ es _ => dict es

section Positions

variable {adt : Blob} {n m : Nat × AdtTree}

variable [Library]

/-- The dictionaries of the ancestors, each loaded below the ones after it. -/
inductive Above : List AdtTree → List Dict → Prop
  | nil : Above [] []
  | cons {t : AdtTree} {ts : List AdtTree} {d : Dict} {ds : List Dict} (scope : Scope)
      (parents : scope.parents = ds) (loaded : Loaded scope (t.props.map propStruct) d)
      (above : Above ts ds) : Above (t :: ts) (d :: ds)

end Positions

/-! ### Buses -/

section Buses

variable {t : AdtTree} {name value : List Byte} {b parent root : Bus} {up : List Bus}
  {ds : List Dict}

variable [Library]

end Buses

/-! ### The register of the client -/

section Register

variable {root : Bus} {up : List Bus} {leaf : AdtTree} {ds : List Dict} {d : Dict} {idx : Nat}

end Register

/-! ### Windows on the way up -/

def StartsIn (addr : Nat) (e : RangeEntry) : Prop :=
  e.child ≤ addr ∧ addr < e.child + e.size

/-- The window `e` is the first one that the region starts in, and the first one that holds all
    of it.  The windows up to it end below `2^64`. -/
structure Leads (size addr : Nat) (es : List RangeEntry) (e : RangeEntry) : Prop where
  first : ∃ pre post, es = pre ++ e :: post ∧
    ∀ w ∈ pre, w.Fits ∧ ¬ StartsIn addr w ∧ w.contains addr size = false
  fits : e.Fits
  starts : StartsIn addr e
  holds : e.contains addr size = true

/-- From bus to bus one window leads the region on its way to the root, which it reaches at
    `target`. -/
inductive LeadsUp (root : Bus) (size : Nat) : List Bus → Nat → Nat → Prop
  | root (addr : Nat) : LeadsUp root size [] addr addr
  | bus {b : Bus} {up : List Bus} {es : List RangeEntry} {e : RangeEntry} {addr target : Nat}
      (ranges : b.ranges (up.headD root) = some es) (leads : Leads size addr es e)
      (above : LeadsUp root size up (addr - e.child + e.parent) target) :
      LeadsUp root size (b :: up) addr target

section Windows

variable {root : Bus} {up : List Bus} {size addr target : Nat} {es : List RangeEntry}
  {e : RangeEntry}

theorem Leads.translate64_eq (h : Leads size addr es e) :
    translate64 (BitVec.ofNat 64 size) es (BitVec.ofNat 64 addr) =
      BitVec.ofNat 64 (addr - e.child + e.parent) := by
  obtain ⟨hlow, hhigh⟩ := of_decide_eq_true h.holds
  have hfit : addr + size < 2 ^ 64 := Nat.lt_of_le_of_lt hhigh h.fits.1
  obtain ⟨pre, post, rfl, hpre⟩ := h.first
  have hhere : translate64 (BitVec.ofNat 64 size) (e :: post) (BitVec.ofNat 64 addr) =
      BitVec.ofNat 64 (addr - e.child + e.parent) := by
    rw [translate64_cons, RangeEntry.covers_eq h.fits hfit, if_pos h.holds,
      BitVec.ofNat_sub_ofNat_of_le _ _ (by omega) hlow, ← BitVec.ofNat_add]
  clear h
  induction pre with
  | nil => exact hhere
  | cons w pre ih =>
    obtain ⟨⟨hw, -, hout⟩, hrest⟩ := List.forall_mem_cons.mp hpre
    rw [List.cons_append, translate64_cons, RangeEntry.covers_eq hw hfit, hout,
      if_neg Bool.false_ne_true]
    exact ih hrest

theorem LeadsUp.translateUp64_eq (h : LeadsUp root size up addr target) :
    translateUp64 root (BitVec.ofNat 64 size) up (BitVec.ofNat 64 addr) =
      BitVec.ofNat 64 target := by
  induction h with
  | root addr => rfl
  | bus ranges leads above ih =>
    rw [translateUp64, ranges]
    dsimp only
    rw [leads.translate64_eq, ih]

end Windows

/-! ### Both sides -/

section Agree

variable {adt : Blob} {root : Bus} {up : List Bus} {leaf : AdtTree} {is : List Nat}
  {ns : List (Nat × AdtTree)} {rest : List Byte} {idx : Nat}

end Agree

/-! ### A device below a bus -/

/-- The root, a bus `/arm-io` and a device `/arm-io/uart0`, with one number of cells for all
    addresses and sizes. -/
def regTree (cells : U32) (ranges reg : List Byte) (hranges : ranges.length < 2 ^ 20)
    (hreg : reg.length < 2 ^ 20) : AdtTree :=
  .node (nameProp ['d', 'e', 'v', 'i', 'c', 'e', '-', 't', 'r', 'e', 'e'] (by decide))
    [cellsProp addressCells cells length_addressCells addressCells_ne_zero,
      cellsProp sizeCells cells length_sizeCells sizeCells_ne_zero]
    [.node (nameProp ['a', 'r', 'm', '-', 'i', 'o'] (by decide))
      [cellsProp addressCells cells length_addressCells addressCells_ne_zero,
        cellsProp sizeCells cells length_sizeCells sizeCells_ne_zero,
        ⟨rangesName, ranges, length_rangesName, rangesName_ne_zero, hranges⟩]
      [.node (nameProp ['u', 'a', 'r', 't', '0'] (by decide))
        [⟨regName, reg, by decide, by decide, hreg⟩] []]]

def wideTree : AdtTree :=
  regTree 2 (leBytes 8 0 ++ leBytes 8 0x38000000 ++ leBytes 8 0x8000000)
    (leBytes 8 0x2500000 ++ leBytes 8 0x1000) (by decide) (by decide)

def wideRoot : Bus := ⟨wideTree, 2, 2, Nat.two_pos, Nat.one_lt_two, Nat.one_lt_two, rfl, rfl⟩

def wideBus : Bus :=
  ⟨firstChild wideTree, 2, 2, Nat.two_pos, Nat.one_lt_two, Nat.one_lt_two, rfl, rfl⟩

section Runs

attribute [local instance] reference

end Runs

end MiniHaywire.AdtClient
