import MiniHaywire.AdtAgree
import MiniHaywire.AddrLookup

/-!
# The table of registers in the client

`walk_tree` and `build_addr_lookup` of a node.  `walk_tree` yields the node itself, and
then for each child what `yield from child` yields.  Iterating over a node gives its
children, so these are the grandchildren: the children are skipped, and nothing below
the grandchildren is reached.

`build_addr_lookup` adds a zone to an address lookup table for every register of the
yielded nodes.  A register that raises an `AttributeError` (`Err.missing`) is passed over,
and any other exception ends the call.
-/

namespace MiniHaywire.AdtClient

open MiniHaywire.Construct MiniHaywire.Adt MiniHaywire.RangeMap

/-! ### The code -/

/-- A node, its position below the one that the walk started from, and the properties of its
    ancestors upwards. -/
structure Located where
  position : List Nat
  parents : List Dict
  node : Node

def Node.children : Node → List Node
  | .node _ _ children => children

def Located.iter (y : Located) : List Located :=
  y.node.children.mapIdx fun i child =>
    ⟨y.position ++ [i], y.node.properties :: y.parents, child⟩

def Located.walkTree (y : Located) : List Located := y :: y.iter.flatMap Located.iter

/-- `node.name + f"[{index}]"`. -/
def regLabel (name : List Byte) (index : Nat) : List Byte :=
  name ++ cstr ('[' :: Nat.toDigits 10 index ++ [']'])

/-- `node.name`, as something that a string can be added to. -/
def nameOf (own : Dict) : Except Err (List Byte) :=
  match own.lookup nameKey with
  | none => .error .missing
  | some (.str name) => .ok name
  | some _ => .error .other

abbrev Table := AddrLookup (List Byte)

/-- The loop of `build_addr_lookup` over the registers of a node. -/
def addRegs (y : Located) : List Nat → Table → Except Err Table
  | [], lookup => .ok lookup
  | index :: rest, lookup =>
    match getReg y.node.properties y.parents index with
    | .error .missing => addRegs y rest lookup
    | .error e => .error e
    | .ok (addr, size) =>
      if size = 0 then addRegs y rest lookup
      else do
        let name ← nameOf y.node.properties
        match lookup.add (.range addr (addr + size)) (regLabel name index) with
        | none => .error .other
        | some lookup => addRegs y rest lookup

def addNode (lookup : Table) (y : Located) : Except Err Table :=
  match y.node.properties.lookup regName with
  | some (.list reg) => addRegs y (List.range reg.length) lookup
  | _ => .ok lookup

def Located.buildAddrLookup (y : Located) : Except Err Table :=
  y.walkTree.foldlM addNode AddrLookup.init

/-! ### The walk -/

section Walk

variable {n : Node} {ds : List Dict} {y z : Located}

theorem find_cons (i : Nat) (is : List Nat) (ds : List Dict) (n : Node) :
    n.find (i :: is) ds = (n.children[i]?).bind fun c => c.find is (n.properties :: ds) := by
  cases n
  rfl

theorem find_append (is js : List Nat) (ds : List Dict) (n : Node) :
    n.find (is ++ js) ds = (n.find is ds).bind fun m => m.2.find js m.1 := by
  induction is generalizing ds n with
  | nil => rfl
  | cons i is ih =>
    rw [List.cons_append, find_cons, find_cons]
    cases n.children[i]? with
    | none => rfl
    | some c => exact ih (n.properties :: ds) c

theorem mem_iter : z ∈ y.iter ↔ ∃ i child, y.node.children[i]? = some child ∧
    z = ⟨y.position ++ [i], y.node.properties :: y.parents, child⟩ := by
  simp only [Located.iter, List.mem_mapIdx]
  constructor
  · rintro ⟨i, hi, rfl⟩
    exact ⟨i, _, List.getElem?_eq_getElem hi, rfl⟩
  · rintro ⟨i, child, hchild, rfl⟩
    obtain ⟨hi, rfl⟩ := List.getElem?_eq_some_iff.mp hchild
    exact ⟨i, hi, rfl⟩

theorem iter_positions (y : Located) :
    y.iter.map Located.position =
      (List.range y.node.children.length).map fun i => y.position ++ [i] := by
  apply List.ext_getElem <;> simp [Located.iter]

theorem iter_nodup (y : Located) : (y.iter.map Located.position).Nodup := by
  rw [iter_positions]
  refine List.nodup_range.map fun i j h => ?_
  simpa using h

/-- The walk yields the nodes at these positions. -/
structure Walks (n : Node) (ds : List Dict) (ys : List Located) : Prop where
  only : ∀ y ∈ ys, n.find y.position ds = some (y.parents, y.node)
  once : (ys.map Located.position).Nodup
  before : (ys.map Located.position).Pairwise fun is js => ¬ js <+: is

def Complete (n : Node) (ds : List Dict) (ys : List Located) : Prop :=
  ∀ is, (n.find is ds).isSome → is ∈ ys.map Located.position

theorem find_iter (h : n.find y.position ds = some (y.parents, y.node)) (hz : z ∈ y.iter) :
    n.find z.position ds = some (z.parents, z.node) := by
  obtain ⟨i, child, hchild, rfl⟩ := mem_iter.mp hz
  simp only [find_append, h, Option.bind_some, find_cons, hchild]
  rfl

theorem grandchild_position (h : z ∈ (Located.mk [] ds n).iter.flatMap Located.iter) :
    z.position.length = 2 := by
  obtain ⟨y, hy, hz⟩ := List.mem_flatMap.mp h
  obtain ⟨i, child, -, rfl⟩ := mem_iter.mp hy
  obtain ⟨j, grandchild, -, rfl⟩ := mem_iter.mp hz
  rfl

theorem grandchildren_nodup (y : Located) :
    ((y.iter.flatMap Located.iter).map Located.position).Nodup := by
  rw [List.map_flatMap, List.nodup_flatMap]
  refine ⟨fun z _ => iter_nodup z, ?_⟩
  refine (List.pairwise_map.mp (iter_nodup y)).imp fun {a b} hne is ha hb => ?_
  simp only [iter_positions, List.mem_map] at ha hb
  obtain ⟨i, -, rfl⟩ := ha
  obtain ⟨j, -, h⟩ := hb
  exact hne (List.append_inj_left' h rfl).symm

theorem walkTree_walks (n : Node) (ds : List Dict) : Walks n ds (Located.mk [] ds n).walkTree := by
  have hlength : ∀ is ∈ ((Located.mk [] ds n).iter.flatMap Located.iter).map Located.position,
      is.length = 2 := by
    intro is his
    obtain ⟨z, hz, rfl⟩ := List.mem_map.mp his
    exact grandchild_position hz
  have hnodup := grandchildren_nodup ⟨[], ds, n⟩
  refine ⟨?_, ?_, ?_⟩
  · intro y hy
    rcases List.mem_cons.mp hy with rfl | hy
    · rfl
    · obtain ⟨child, hchild, hy⟩ := List.mem_flatMap.mp hy
      exact find_iter (find_iter rfl hchild) hy
  · rw [Located.walkTree, List.map_cons, List.nodup_cons]
    refine ⟨fun hmem => ?_, hnodup⟩
    have hzero := hlength _ hmem
    contradiction
  · rw [Located.walkTree, List.map_cons, List.pairwise_cons]
    refine ⟨fun is his hbelow => ?_, hnodup.imp_of_mem fun {is js} his hjs hne hbelow => ?_⟩
    · have htwo := hlength is his
      rw [List.prefix_nil.mp hbelow] at htwo
      contradiction
    · exact hne (hbelow.eq_of_length ((hlength js hjs).trans (hlength is his).symm)).symm

theorem child_not_yielded {i : Nat} :
    [i] ∉ (Located.mk [] ds n).walkTree.map Located.position := by
  intro hmem
  obtain ⟨z, hz, hposition⟩ := List.mem_map.mp hmem
  rcases List.mem_cons.mp hz with rfl | hz
  · contradiction
  · have htwo := grandchild_position hz
    simp [hposition] at htwo

theorem walkTree_complete_iff (n : Node) (ds : List Dict) :
    Complete n ds (Located.mk [] ds n).walkTree ↔ n.children = [] := by
  constructor
  · intro h
    by_contra hne
    obtain ⟨child, rest, hchildren⟩ := List.exists_cons_of_ne_nil hne
    have hfound : (n.find [0] ds).isSome := by
      simp [find_cons, hchildren, Node.find]
    exact child_not_yielded (h [0] hfound)
  · intro hchildren is his
    cases is with
    | nil => simp [Located.walkTree]
    | cons i is => simp [find_cons, hchildren] at his

end Walk

/-! ### The table -/

/-- A register that is not empty, as it stands in the table. -/
def RegionAt (y : Located) (index : Nat) (x : List Byte × Zone) : Prop :=
  ∃ addr size name, getReg y.node.properties y.parents index = .ok (addr, size) ∧ 0 < size ∧
    y.node.properties.lookup nameKey = some (.str name) ∧
    x = (regLabel name index, .range addr (addr + size))

/-- The register raises nothing that is not caught. -/
structure QuietAt (y : Located) (index : Nat) : Prop where
  caught : ∀ e, getReg y.node.properties y.parents index = .error e → e = .missing
  named : ∀ addr size, getReg y.node.properties y.parents index = .ok (addr, size) → 0 < size →
    ∃ name, y.node.properties.lookup nameKey = some (.str name)
  /-- `populate` asks for the `len` of the zone. -/
  counted : ∀ addr size, getReg y.node.properties y.parents index = .ok (addr, size) →
    (size : Int) ≤ maxsize

def Quiet (y : Located) : Prop :=
  ∀ reg, y.node.properties.lookup regName = some (.list reg) →
    ∀ index < reg.length, QuietAt y index

section Table

variable {y : Located} {index : Nat} {indices : List Nat} {lookup : Table}
  {pairs : List (List Byte × Zone)} {es : List (Intervals.Entry Ref)}

theorem getReg_list {own : Dict} {parents : List Dict} {r : Nat × Nat}
    (h : getReg own parents index = .ok r) :
    ∃ reg, own.lookup regName = some (.list reg) ∧ index < reg.length := by
  unfold getReg at h
  cases hreg : own.lookup regName with
  | none =>
    rw [hreg] at h
    contradiction
  | some v =>
    rw [hreg] at h
    obtain ⟨entry, hitem, h⟩ := except_bind_eq_ok h
    obtain ⟨reg, hentry, -⟩ := except_bind_eq_ok h
    have hsome : ¬ NoEntries v := by
      intro hnone
      rw [hnone index entry hitem] at hentry
      contradiction
    cases v with
    | list reg =>
      refine ⟨reg, rfl, ?_⟩
      by_contra hge
      rw [item, List.getElem?_eq_none (not_lt.mp hge)] at hitem
      contradiction
    | str s => exact absurd (noEntries_str s) hsome
    | bytes bs => exact absurd (noEntries_bytes bs) hsome
    | num k => exact absurd (noEntries_num k) hsome
    | _ => contradiction

theorem nameOf_eq_ok {own : Dict} {name : List Byte} :
    nameOf own = .ok name ↔ own.lookup nameKey = some (.str name) := by
  unfold nameOf
  cases own.lookup nameKey with
  | none => simp
  | some v => cases v <;> simp

theorem addRegs_step (h : QuietAt y index) :
    ((∀ x, ¬ RegionAt y index x) ∧
      ∀ rest lookup, addRegs y (index :: rest) lookup = addRegs y rest lookup) ∨
    ∃ label zone, zone.Nonempty ∧ zone.Countable ∧
      (∀ x, RegionAt y index x ↔ x = (label, zone)) ∧
      ∀ rest lookup lookup', lookup.add zone label = some lookup' →
        addRegs y (index :: rest) lookup = addRegs y rest lookup' := by
  obtain ⟨hcaught, hnamed, hcounted⟩ := h
  cases hget : getReg y.node.properties y.parents index with
  | error e =>
    obtain rfl := hcaught e hget
    refine .inl ⟨?_, fun rest lookup => by rw [addRegs, hget]⟩
    rintro x ⟨addr, size, name, hget', -⟩
    rw [hget'] at hget
    contradiction
  | ok r =>
    obtain ⟨addr, size⟩ := r
    by_cases hsize : size = 0
    · refine .inl ⟨?_, fun rest lookup => ?_⟩
      · rintro x ⟨addr', size', name, hget', hpos, -⟩
        cases hget.symm.trans hget'
        omega
      · rw [addRegs, hget]
        exact if_pos hsize
    · obtain ⟨name, hname⟩ := hnamed addr size hget (by omega)
      have hle := hcounted addr size hget
      refine .inr ⟨regLabel name index, .range addr (addr + size), ?_, ?_, fun x => ⟨?_, ?_⟩, ?_⟩
      · change (addr : Int) < addr + size
        omega
      · change (addr : Int) + size - addr ≤ maxsize
        omega
      · rintro ⟨addr', size', name', hget', -, hname', rfl⟩
        cases hget.symm.trans hget'
        cases hname.symm.trans hname'
        rfl
      · rintro rfl
        exact ⟨addr, size, name, hget, by omega, hname, rfl⟩
      · intro rest lookup lookup' hadd
        rw [addRegs, hget]
        dsimp only
        rw [if_neg hsize, nameOf_eq_ok.mpr hname]
        change (match lookup.add _ _ with | none => _ | some lookup => _) = _
        rw [hadd]

theorem addRegs_stands (indices : List Nat) (hquiet : ∀ index ∈ indices, QuietAt y index)
    (h : lookup.Stands pairs es) :
    ∃ lookup' new es', addRegs y indices lookup = .ok lookup' ∧
      lookup'.Stands (pairs ++ new) es' ∧ ∀ x, x ∈ new ↔ ∃ index ∈ indices, RegionAt y index x := by
  induction indices generalizing lookup pairs es with
  | nil => exact ⟨lookup, [], es, rfl, by rwa [List.append_nil], by simp⟩
  | cons index rest ih =>
    have hrest : ∀ index ∈ rest, QuietAt y index := fun i hi => hquiet i (by simp [hi])
    rcases addRegs_step (hquiet index (by simp)) with ⟨hnone, heq⟩ |
      ⟨label, zone, hzone, hlen, hregion, heq⟩
    · obtain ⟨lookup', new, es', hok, hstands, hnew⟩ := ih hrest h
      refine ⟨lookup', new, es', (heq rest lookup).trans hok, hstands, fun x => ?_⟩
      simp [hnew, hnone]
    · obtain ⟨added, es₁, hadd, hstands₁⟩ := h.add hzone hlen label
      obtain ⟨lookup', new, es', hok, hstands, hnew⟩ := ih hrest hstands₁
      refine ⟨lookup', (label, zone) :: new, es', (heq rest lookup added hadd).trans hok, ?_,
        fun x => ?_⟩
      · simpa using hstands
      · simp [hnew, hregion]

theorem addRegs_cons_quiet {index : Nat} {rest : List Nat} {lookup' : Table}
    (h : addRegs y (index :: rest) lookup = .ok lookup') :
    QuietAt y index ∧ ∃ added, addRegs y rest added = .ok lookup' := by
  rw [addRegs] at h
  cases hget : getReg y.node.properties y.parents index with
  | error e =>
    rw [hget] at h
    cases e with
    | missing => exact ⟨⟨by simp [hget], by simp [hget], by simp [hget]⟩, lookup, h⟩
    | _ => contradiction
  | ok r =>
    obtain ⟨addr, size⟩ := r
    rw [hget] at h
    dsimp only at h
    by_cases hsize : size = 0
    · rw [if_pos hsize] at h
      refine ⟨⟨by simp [hget], fun addr' size' hget' hpos => ?_, fun addr' size' hget' => ?_⟩,
        lookup, h⟩
      · cases hget.symm.trans hget'
        omega
      · cases hget.symm.trans hget'
        rw [hsize]
        decide
    · rw [if_neg hsize] at h
      obtain ⟨name, hname, h⟩ := except_bind_eq_ok h
      split at h
      · contradiction
      · rename_i added hadd
        refine ⟨⟨by simp [hget], fun _ _ _ _ => ⟨name, nameOf_eq_ok.mp hname⟩,
          fun addr' size' hget' => ?_⟩, added, h⟩
        cases hget.symm.trans hget'
        have hzone : (Zone.range addr (addr + size)).Nonempty := by
          change (addr : Int) < addr + size
          omega
        have hlen : (addr : Int) + size - addr ≤ maxsize :=
          AddrLookup.countable_of_add hzone hadd
        omega

theorem addRegs_quiet (indices : List Nat) {lookup' : Table}
    (h : addRegs y indices lookup = .ok lookup') : ∀ index ∈ indices, QuietAt y index := by
  induction indices generalizing lookup with
  | nil => simp
  | cons index rest ih =>
    obtain ⟨hquiet, added, hadded⟩ := addRegs_cons_quiet h
    intro i hi
    rcases List.mem_cons.mp hi with rfl | hi
    · exact hquiet
    · exact ih hadded i hi

theorem addNode_stands (hquiet : Quiet y) (h : lookup.Stands pairs es) :
    ∃ lookup' new es', addNode lookup y = .ok lookup' ∧ lookup'.Stands (pairs ++ new) es' ∧
      ∀ x, x ∈ new ↔ ∃ index, RegionAt y index x := by
  have hregs : ∀ index x, RegionAt y index x →
      ∃ reg, y.node.properties.lookup regName = some (.list reg) ∧ index < reg.length := by
    rintro index x ⟨addr, size, name, hget, -⟩
    exact getReg_list hget
  by_cases hlist : ∃ reg, y.node.properties.lookup regName = some (.list reg)
  · obtain ⟨reg, hreg⟩ := hlist
    obtain ⟨lookup', new, es', hok, hstands, hnew⟩ := addRegs_stands (List.range reg.length)
      (fun index hindex => hquiet reg hreg index (List.mem_range.mp hindex)) h
    refine ⟨lookup', new, es', ?_, hstands, fun x => ?_⟩
    · rw [addNode, hreg]
      exact hok
    · rw [hnew]
      constructor
      · rintro ⟨index, -, hregion⟩
        exact ⟨index, hregion⟩
      · rintro ⟨index, hregion⟩
        obtain ⟨reg', hreg', hlt⟩ := hregs index x hregion
        cases hreg.symm.trans hreg'
        exact ⟨index, List.mem_range.mpr hlt, hregion⟩
  · have hsame : addNode lookup y = .ok lookup := by
      unfold addNode
      split
      · rename_i reg hreg
        exact absurd ⟨reg, hreg⟩ hlist
      · rfl
    refine ⟨lookup, [], es, hsame, by rwa [List.append_nil], fun x => ?_⟩
    constructor
    · intro hx
      cases hx
    · rintro ⟨index, hregion⟩
      obtain ⟨reg, hreg, -⟩ := hregs index x hregion
      exact absurd ⟨reg, hreg⟩ hlist

theorem addNode_quiet {lookup' : Table} (h : addNode lookup y = .ok lookup') : Quiet y := by
  intro reg hreg index hindex
  rw [addNode, hreg] at h
  exact addRegs_quiet _ h index (List.mem_range.mpr hindex)

theorem foldlM_addNode_stands (ys : List Located) (hquiet : ∀ y ∈ ys, Quiet y)
    (h : lookup.Stands pairs es) :
    ∃ lookup' new es', ys.foldlM addNode lookup = .ok lookup' ∧
      lookup'.Stands (pairs ++ new) es' ∧
      ∀ x, x ∈ new ↔ ∃ y ∈ ys, ∃ index, RegionAt y index x := by
  induction ys generalizing lookup pairs es with
  | nil => exact ⟨lookup, [], es, rfl, by rwa [List.append_nil], by simp⟩
  | cons y ys ih =>
    obtain ⟨lookup₁, new₁, es₁, hok₁, hstands₁, hnew₁⟩ := addNode_stands (hquiet y (by simp)) h
    obtain ⟨lookup', new, es', hok, hstands, hnew⟩ :=
      ih (fun z hz => hquiet z (by simp [hz])) hstands₁
    refine ⟨lookup', new₁ ++ new, es', ?_, by rwa [← List.append_assoc], fun x => ?_⟩
    · rw [List.foldlM_cons, hok₁]
      exact hok
    · simp [hnew₁, hnew]

theorem foldlM_addNode_quiet (ys : List Located) {lookup' : Table}
    (h : ys.foldlM addNode lookup = .ok lookup') : ∀ y ∈ ys, Quiet y := by
  induction ys generalizing lookup with
  | nil => simp
  | cons y ys ih =>
    rw [List.foldlM_cons] at h
    obtain ⟨added, hadded, h⟩ := except_bind_eq_ok h
    intro z hz
    rcases List.mem_cons.mp hz with rfl | hz
    · exact addNode_quiet hadded
    · exact ih h z hz

end Table

/-- The table has every register of every node that is not empty. -/
def FindsAll (n : Node) (ds : List Dict) : Prop :=
  ∃ lookup, (Located.mk [] ds n).buildAddrLookup = .ok lookup ∧
    ∀ is ds' node, n.find is ds = some (ds', node) → ∀ index x, RegionAt ⟨is, ds', node⟩ index x →
      ∀ a, x.2.Contains a → x ∈ lookup.lookupAll a

section Build

variable {n : Node} {ds : List Dict}

theorem build_returns_iff : (∃ lookup, (Located.mk [] ds n).buildAddrLookup = .ok lookup) ↔
    ∀ y ∈ (Located.mk [] ds n).walkTree, Quiet y := by
  constructor
  · rintro ⟨lookup, hlookup⟩
    exact foldlM_addNode_quiet _ hlookup
  · intro hquiet
    obtain ⟨lookup, -, -, hok, -⟩ := foldlM_addNode_stands _ hquiet AddrLookup.stands_init
    exact ⟨lookup, hok⟩

/-- What the table holds at an address. -/
theorem mem_lookupAll_iff {lookup : Table} (h : (Located.mk [] ds n).buildAddrLookup = .ok lookup)
    (a : Int) (x : List Byte × Zone) : x ∈ lookup.lookupAll a ↔
      x.2.Contains a ∧ ∃ y ∈ (Located.mk [] ds n).walkTree, ∃ index, RegionAt y index x := by
  obtain ⟨lookup', new, es, hok, hstands, hnew⟩ :=
    foldlM_addNode_stands _ (build_returns_iff.mp ⟨lookup, h⟩) AddrLookup.stands_init
  cases hok.symm.trans h
  rw [hstands.lookupAll_eq, seenAt, List.mem_filter, List.nil_append, hnew, decide_eq_true_iff]
  exact and_comm

theorem findsAll_iff (hchildren : n.children = []) : FindsAll n ds ↔ Quiet ⟨[], ds, n⟩ := by
  have hwalk : (Located.mk [] ds n).walkTree = [⟨[], ds, n⟩] := by
    simp [Located.walkTree, Located.iter, hchildren]
  have hreturns := @build_returns_iff n ds
  rw [hwalk, List.forall_mem_singleton] at hreturns
  constructor
  · rintro ⟨lookup, hlookup, -⟩
    exact hreturns.mp ⟨lookup, hlookup⟩
  · intro hquiet
    obtain ⟨lookup, hlookup⟩ := hreturns.mpr hquiet
    refine ⟨lookup, hlookup, ?_⟩
    intro is ds' node hfind index x hregion a ha
    cases is with
    | nil =>
      cases hfind
      exact (mem_lookupAll_iff hlookup a x).mpr ⟨ha, _, List.mem_cons_self, index, hregion⟩
    | cons i is => simp [find_cons, hchildren] at hfind

end Build

/-- `walk_tree` yields nothing twice and no node after one below it, but it yields every node only
    if there are no children.  `build_addr_lookup` returns exactly if no register of a yielded node
    raises, and then the table holds the registers of the yielded nodes that are not empty. -/
theorem walk_tree_yields (n : Node) (ds : List Dict) :
    Walks n ds (Located.mk [] ds n).walkTree ∧
    (Complete n ds (Located.mk [] ds n).walkTree ↔ n.children = []) ∧
    (Complete n ds (Located.mk [] ds n).walkTree ∧ FindsAll n ds ↔
      n.children = [] ∧ Quiet ⟨[], ds, n⟩) ∧
    ((∃ lookup, (Located.mk [] ds n).buildAddrLookup = .ok lookup) ↔
      ∀ y ∈ (Located.mk [] ds n).walkTree, Quiet y) ∧
    ∀ lookup, (Located.mk [] ds n).buildAddrLookup = .ok lookup → ∀ a x,
      x ∈ lookup.lookupAll a ↔
        x.2.Contains a ∧ ∃ y ∈ (Located.mk [] ds n).walkTree, ∃ index, RegionAt y index x := by
  refine ⟨walkTree_walks n ds, walkTree_complete_iff n ds, ?_, build_returns_iff, fun _ h =>
    mem_lookupAll_iff h⟩
  rw [walkTree_complete_iff]
  exact and_congr_right findsAll_iff

/-- A loaded tree, the register at a position, and what the table of the root holds at an
    address. -/
def tableAt [Library] (data : List Byte) (is : List Nat) (a : Int) :
    Except Err ((Nat × Nat) × List (List Byte × Zone)) := do
  let root ← loadAdt data
  match root.find is [] with
  | none => .error .other
  | some (ds, node) => do
    let (addr, size) ← getReg node.properties ds 0
    let lookup ← (Located.mk [] [] root).buildAddrLookup
    .ok ((addr, size), lookup.lookupAll a)

theorem tableAt_eq_ok [Library] {data : List Byte} {is : List Nat} {a : Int} {r : Nat × Nat}
    {found : List (List Byte × Zone)} (h : tableAt data is a = .ok (r, found)) :
    ∃ root ds node lookup, loadAdt data = .ok root ∧ root.find is [] = some (ds, node) ∧
      getReg node.properties ds 0 = .ok r ∧
      (Located.mk [] [] root).buildAddrLookup = .ok lookup ∧ lookup.lookupAll a = found := by
  obtain ⟨root, hroot, h⟩ := except_bind_eq_ok h
  split at h
  · contradiction
  · rename_i ds node hfind
    obtain ⟨⟨addr, size⟩, hget, h⟩ := except_bind_eq_ok h
    obtain ⟨lookup, hlookup, h⟩ := except_bind_eq_ok h
    cases h
    exact ⟨root, ds, node, lookup, hroot, hfind, hget, hlookup, rfl⟩

section Runs

attribute [local instance] reference

/-- The device is a grandchild of the root, so its register is in the table. -/
theorem walk_tree_yields_wideTree :
    ∃ root lookup, loadAdt wideTree.enc = .ok root ∧
      (Located.mk [] [] root).buildAddrLookup = .ok lookup ∧
      ∃ y ∈ (Located.mk [] [] root).walkTree, ∃ index,
        RegionAt y index (cstr ['u', 'a', 'r', 't', '0', '[', '0', ']'],
          .range 0x3A500000 0x3A501000) := by
  obtain ⟨root, ds, node, lookup, hload, -, -, hbuild, hfound⟩ := tableAt_eq_ok
    (show tableAt wideTree.enc [0, 0] 0x3A500010 = .ok ((0x3A500000, 0x1000),
      [(cstr ['u', 'a', 'r', 't', '0', '[', '0', ']'], .range 0x3A500000 0x3A501000)]) by
        decide +kernel)
  obtain ⟨-, -, -, -, htable⟩ := walk_tree_yields root []
  obtain ⟨-, hregion⟩ := (htable lookup hbuild 0x3A500010 _).mp
    (hfound ▸ List.mem_singleton_self _)
  exact ⟨root, lookup, hload, hbuild, hregion⟩

/-- The device is a child of the root, and its register is not found. -/
theorem walk_tree_skips_child :
    ∃ root ds device lookup, loadAdt wideDevice.enc = .ok root ∧
      root.find [0] [] = some (ds, device) ∧
      [0] ∉ (Located.mk [] [] root).walkTree.map Located.position ∧
      getReg device.properties ds 0 = .ok (0x32500000, 0x4000) ∧
      (Located.mk [] [] root).buildAddrLookup = .ok lookup ∧
      lookup.lookupAll 0x32500000 = [] := by
  obtain ⟨root, ds, device, lookup, hload, hfind, hget, hbuild, hfound⟩ := tableAt_eq_ok
    (show tableAt wideDevice.enc [0] 0x32500000 = .ok ((0x32500000, 0x4000), []) by decide +kernel)
  refine ⟨root, ds, device, lookup, hload, hfind, ?_, hget, hbuild, hfound⟩
  exact child_not_yielded

end Runs

end MiniHaywire.AdtClient
