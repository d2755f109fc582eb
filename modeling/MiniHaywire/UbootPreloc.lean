import MiniHaywire.Chunks
import MiniHaywire.DeviceTree
import MiniHaywire.GraphWalk

/-!
# Marking nodes for U-Boot

`dt_set_uboot_dm_preloc` marks a node, and then does the same for the power domains of
the node and for their parents.  It keeps no record of the nodes it has marked, so a
node that leads back to itself is marked again and again, one call deeper each time.

The nodes are offsets that move while properties are inserted; by their index they are
the vertices of a graph that no insertion changes, and the function is `GraphWalk.walk`
on it (`refines_walk`).  A call that has not returned keeps what it has done so far.
An allocation that fails ends in a panic, so `calloc` succeeds.
-/

namespace MiniHaywire.Kboot

open Adt (cstr)
open Chunks (Heap Keeps)
open DeviceTree (Link cells powerDomainsName findPhandle parentOf)
open GraphWalk (walk walkAll Edge)
open Relation (ReflTransGen TransGen)

def dmPreReloc : List Byte :=
  cstr ['u', '-', 'b', 'o', 'o', 't', ',', 'd', 'm', '-', 'p', 'r', 'e', '-',
    'r', 'e', 'l', 'o', 'c']

def bootphAll : List Byte := cstr ['b', 'o', 'o', 't', 'p', 'h', '-', 'a', 'l', 'l']

/-- What the function works on: the tree, and the allocator. -/
structure Work where
  dt : DeviceTree
  heap : Heap U32

/-- The state so far, and whether the call has returned. -/
structure Outcome where
  work : Work
  returned : Bool

def Outcome.andThen (o : Outcome) (f : Work → Outcome) : Outcome :=
  if o.returned then f o.work else o

/-- The loop over the phandles; `preloc` is the recursive call. -/
def prelocLoop (preloc : Nat → Work → Outcome) : List U32 → Work → Outcome
  | [], s => ⟨s, true⟩
  | phandle :: phandles, s =>
    match s.dt.fdtNodeOffsetByPhandle phandle with
    | none => prelocLoop preloc phandles s
    | some node =>
      (preloc node s).andThen fun s =>
        -- the offset may have moved
        match s.dt.fdtNodeOffsetByPhandle phandle with
        | none => prelocLoop preloc phandles s
        | some node =>
          match s.dt.fdtParentOffset node with
          | none => prelocLoop preloc phandles s
          | some node => (preloc node s).andThen (prelocLoop preloc phandles)

/-- `dt_set_uboot_dm_preloc`, at most `fuel` calls deep. -/
def dtSetUbootDmPreloc : Nat → Nat → Work → Outcome
  | 0, _, s => ⟨s, false⟩
  | fuel + 1, node, s =>
    let dt := (s.dt.fdtSetpropEmpty node dmPreReloc).fdtSetpropEmpty node bootphAll
    match dt.fdtGetprop node powerDomainsName with
    | none => ⟨{ s with dt := dt }, true⟩
    | some pds =>
      let (phandles, heap) := s.heap.calloc
      (prelocLoop (dtSetUbootDmPreloc fuel) (cells pds) ⟨dt, heap⟩).andThen fun s =>
        ⟨{ s with heap := s.heap.free (.chunk phandles) }, true⟩

/-! ### The graph -/

/-- The node of a phandle, and its parent. -/
def domainNodes (ls : List Link) (phandle : U32) : List Nat :=
  match findPhandle ls phandle with
  | none => []
  | some i => i :: (parentOf ls i).toList

/-- The nodes that are marked for a node's sake. -/
def needed (ls : List Link) (i : Nat) : List Nat :=
  (ls[i]?.elim [] Link.powerDomains).flatMap (domainNodes ls)

/-- A power domain of node `a` is `b`, or a child of `b`. -/
def Refers (dt : DeviceTree) (a b : Nat) : Prop :=
  ∃ l, dt.links[a]? = some l ∧ ∃ phandle ∈ l.powerDomains, ∃ i,
    findPhandle dt.links phandle = some i ∧ (b = i ∨ parentOf dt.links i = some b)

theorem mem_domainNodes {ls : List Link} {phandle : U32} {b : Nat} :
    b ∈ domainNodes ls phandle ↔
      ∃ i, findPhandle ls phandle = some i ∧ (b = i ∨ parentOf ls i = some b) := by
  rw [domainNodes]
  cases findPhandle ls phandle with
  | none => simp
  | some i => simp

theorem edge_eq_refers (dt : DeviceTree) : Edge (needed dt.links) = Refers dt := by
  ext a b
  rw [Edge, needed, Refers]
  cases dt.links[a]? with
  | none => simp
  | some l => simp [mem_domainNodes]

/-! ### The function is a walk of the graph -/

/-- What is left by visiting the nodes of a walk, or by a walk that does not end. -/
structure Marks (ls : List Link) (s : Work) (visited : Option (List Nat)) (o : Outcome) : Prop where
  links : o.work.dt.links = ls
  returned : o.returned = visited.isSome
  marked : ∀ vs, visited = some vs → ∀ j,
    o.work.dt.Carries j dmPreReloc ↔ s.dt.Carries j dmPreReloc ∨ j ∈ vs

section Walk

variable {ls : List Link} {s : Work} {o : Outcome} {visited rest : Option (List Nat)}

theorem Marks.andThen {f : Work → Outcome} (h : Marks ls s visited o)
    (hf : ∀ s, s.dt.links = ls → Marks ls s rest (f s)) :
    Marks ls s (do
      let first ← visited
      let last ← rest
      some (first ++ last)) (o.andThen f) := by
  have hrest := hf o.work h.links
  have hreturned := h.returned
  cases visited with
  | none =>
    have hnot : o.andThen f = o := by rw [Outcome.andThen, hreturned]; rfl
    rw [hnot]
    exact h
  | some first =>
    have hthen : o.andThen f = f o.work := by rw [Outcome.andThen, hreturned]; rfl
    rw [hthen]
    refine ⟨hrest.links, ?_, ?_⟩
    · rw [hrest.returned]
      cases rest <;> rfl
    · intro vs hvs j
      cases rest with
      | none => contradiction
      | some last =>
        cases hvs
        rw [hrest.marked last rfl, h.marked first rfl, List.mem_append, or_assoc]

theorem marks_nil (hlinks : s.dt.links = ls) : Marks ls s (some []) ⟨s, true⟩ :=
  ⟨hlinks, rfl, by simp⟩

theorem refines_walkAll {preloc : Nat → Work → Outcome} {visit : Nat → Option (List Nat)}
    (hpreloc : ∀ i offset s, s.dt.links = ls → s.dt.offsets[i]? = some offset →
      Marks ls s (visit i) (preloc offset s))
    (phandles : List U32) (s : Work) (hlinks : s.dt.links = ls) :
    Marks ls s (walkAll visit (phandles.flatMap (domainNodes ls)))
      (prelocLoop preloc phandles s) := by
  induction phandles generalizing s with
  | nil => exact marks_nil hlinks
  | cons phandle phandles ih =>
    rw [List.flatMap_cons, prelocLoop, domainNodes]
    cases hfind : findPhandle ls phandle with
    | none =>
      rw [DeviceTree.fdtNodeOffsetByPhandle_of_none (hlinks ▸ hfind)]
      exact ih s hlinks
    | some i =>
      obtain ⟨node, hnode, hoffset⟩ := DeviceTree.fdtNodeOffsetByPhandle_of_some (hlinks ▸ hfind)
      rw [hnode]
      dsimp only
      rw [List.cons_append, walkAll]
      refine (hpreloc i node s hlinks hoffset).andThen fun s₁ hlinks₁ => ?_
      -- the phandle still belongs to that node, wherever it is now
      obtain ⟨node₁, hnode₁, hoffset₁⟩ :=
        DeviceTree.fdtNodeOffsetByPhandle_of_some (hlinks₁ ▸ hfind)
      rw [hnode₁]
      dsimp only
      cases hparent : parentOf ls i with
      | none =>
        rw [DeviceTree.fdtParentOffset_of_none hoffset₁ (hlinks₁ ▸ hparent)]
        exact ih s₁ hlinks₁
      | some j =>
        obtain ⟨node₂, hnode₂, hoffset₂⟩ :=
          DeviceTree.fdtParentOffset_of_some hoffset₁ (hlinks₁ ▸ hparent)
        rw [hnode₂]
        exact (hpreloc j node₂ s₁ hlinks₁ hoffset₂).andThen ih

theorem Marks.visit {dt : DeviceTree} {heap : Heap U32} {i : Nat}
    (h : Marks ls ⟨dt, heap⟩ visited o)
    (hmarked : ∀ j, dt.Carries j dmPreReloc ↔ s.dt.Carries j dmPreReloc ∨ j = i)
    (f : Heap U32 → Heap U32) :
    Marks ls s (visited.map (i :: ·))
      (o.andThen fun s => ⟨{ s with heap := f s.heap }, true⟩) := by
  have hreturned := h.returned
  cases visited with
  | none =>
    refine ⟨?_, ?_, fun vs hvs => ?_⟩
    · rw [Outcome.andThen, hreturned]
      exact h.links
    · rw [Outcome.andThen, hreturned]
      exact hreturned
    · contradiction
  | some vs =>
    rw [Outcome.andThen, hreturned]
    refine ⟨h.links, rfl, ?_⟩
    intro ws hws j
    cases hws
    exact (h.marked vs rfl j).trans (by rw [hmarked, List.mem_cons, or_assoc])

theorem inert_dmPreReloc : DeviceTree.Inert dmPreReloc :=
  ⟨by decide, by decide, by decide⟩

theorem inert_bootphAll : DeviceTree.Inert bootphAll :=
  ⟨by decide, by decide, by decide⟩

/-- The two properties of a node are set: it is the same graph with one more node marked, and
    the node is where it was. -/
theorem marked_node {dt : DeviceTree} {i offset : Nat} (hoffset : dt.offsets[i]? = some offset) :
    let dt' := (dt.fdtSetpropEmpty offset dmPreReloc).fdtSetpropEmpty offset bootphAll
    dt'.links = dt.links ∧ dt'.offsets[i]? = some offset ∧
      ∀ j, dt'.Carries j dmPreReloc ↔ dt.Carries j dmPreReloc ∨ j = i := by
  have hfirst := DeviceTree.offsets_fdtSetpropEmpty dmPreReloc hoffset
  refine ⟨?_, DeviceTree.offsets_fdtSetpropEmpty bootphAll hfirst, ?_⟩
  · rw [DeviceTree.links_fdtSetpropEmpty inert_bootphAll,
      DeviceTree.links_fdtSetpropEmpty inert_dmPreReloc]
  · intro j
    have hne : dmPreReloc ≠ bootphAll := by decide
    rw [DeviceTree.carries_fdtSetpropEmpty hfirst, DeviceTree.carries_fdtSetpropEmpty hoffset]
    simp [hne]

theorem needed_eq {dt : DeviceTree} {i : Nat} {n : DeviceTree.Node} (hn : dt.nodes[i]? = some n) :
    needed dt.links i = (((SlotMap.valueOf powerDomainsName n.props).map cells).getD []).flatMap
      (domainNodes dt.links) := by
  rw [needed, DeviceTree.links, List.getElem?_map, hn]
  rfl

/-- `dt_set_uboot_dm_preloc` from the node with the index `i`. -/
theorem refines_walk (fuel : Nat) (i offset : Nat) (s : Work) (hlinks : s.dt.links = ls)
    (hoffset : s.dt.offsets[i]? = some offset) :
    Marks ls s (walk (needed ls) fuel i) (dtSetUbootDmPreloc fuel offset s) := by
  induction fuel generalizing i offset s with
  | zero => exact ⟨hlinks, rfl, fun vs h => absurd h (by simp [walk])⟩
  | succ fuel ih =>
    rw [dtSetUbootDmPreloc, walk]
    dsimp only
    obtain ⟨hlinks₁, hoffset₁, hmarked⟩ := marked_node hoffset
    generalize (s.dt.fdtSetpropEmpty offset dmPreReloc).fdtSetpropEmpty offset bootphAll = dt
      at hmarked hoffset₁ hlinks₁ ⊢
    rw [hlinks] at hlinks₁
    obtain ⟨n, hn⟩ : ∃ n, dt.nodes[i]? = some n :=
      ⟨_, List.getElem?_eq_getElem (DeviceTree.lt_length_of_offset hoffset₁)⟩
    rw [DeviceTree.fdtGetprop_eq hoffset₁ hn, ← hlinks₁, needed_eq hn, hlinks₁]
    cases SlotMap.valueOf powerDomainsName n.props with
    | none =>
      refine ⟨hlinks₁, rfl, ?_⟩
      intro vs hvs j
      cases hvs
      rw [List.mem_singleton]
      exact hmarked j
    | some pds =>
      exact (refines_walkAll ih (cells pds) ⟨dt, s.heap.calloc.2⟩ hlinks₁).visit hmarked
        (·.free (.chunk s.heap.count))

end Walk

/-! ### The allocator -/

section Alloc

theorem Outcome.keeps_andThen {heap : Heap U32} {o : Outcome} {f : Work → Outcome}
    (h : Keeps heap o.work.heap) (hf : ∀ s, Keeps s.heap (f s).work.heap) :
    Keeps heap (o.andThen f).work.heap := by
  unfold Outcome.andThen
  split
  · exact h.trans (hf o.work)
  · exact h

theorem prelocLoop_keeps {preloc : Nat → Work → Outcome}
    (hpreloc : ∀ node s, Keeps s.heap (preloc node s).work.heap) (phandles : List U32) (s : Work) :
    Keeps s.heap (prelocLoop preloc phandles s).work.heap := by
  induction phandles generalizing s with
  | nil => exact Keeps.refl _
  | cons phandle phandles ih =>
    rw [prelocLoop]
    split
    · exact ih s
    · refine Outcome.keeps_andThen (hpreloc _ s) fun s₁ => ?_
      split
      · exact ih s₁
      · split
        · exact ih s₁
        · exact Outcome.keeps_andThen (hpreloc _ s₁) ih

/-- The function gives back the chunk it has taken, whether or not the calls in between
    return. -/
theorem dtSetUbootDmPreloc_keeps (fuel node : Nat) (s : Work) :
    Keeps s.heap (dtSetUbootDmPreloc fuel node s).work.heap := by
  induction fuel generalizing node s with
  | zero => exact Keeps.refl _
  | succ fuel ih =>
    rw [dtSetUbootDmPreloc]
    dsimp only
    split
    · exact Keeps.refl _
    · rename_i pds _
      have hloop := prelocLoop_keeps ih (cells pds)
        ⟨(s.dt.fdtSetpropEmpty node dmPreReloc).fdtSetpropEmpty node bootphAll, s.heap.calloc.2⟩
      unfold Outcome.andThen
      split
      · exact hloop.bracket
      · exact (Keeps.calloc s.heap).trans hloop

end Alloc

/-! ### Returning -/

section Returns

variable {dt : DeviceTree} {i offset : Nat}

theorem Refers.lt {a b : Nat} (h : Refers dt a b) : b < dt.nodes.length := by
  obtain ⟨l, -, phandle, -, j, hfind, hb⟩ := h
  have hlt := DeviceTree.findPhandle_lt hfind
  rw [DeviceTree.length_links] at hlt
  rcases hb with rfl | hparent
  · exact hlt
  · exact (DeviceTree.parentOf_lt hparent).trans hlt

theorem finite_reach (dt : DeviceTree) (i : Nat) : {j | ReflTransGen (Refers dt) i j}.Finite := by
  refine (Set.finite_le_nat (max i dt.nodes.length)).subset ?_
  intro j hj
  rcases ReflTransGen.cases_tail hj with rfl | ⟨k, -, hk⟩
  · exact Nat.le_max_left _ _
  · exact (Nat.le_of_lt hk.lt).trans (Nat.le_max_right _ _)

/-- The function returns exactly if no node it comes to leads back to itself, and then it has
    marked all of them. -/
theorem dtSetUbootDmPreloc_returns (hoffset : dt.offsets[i]? = some offset) (heap : Heap U32) :
    ((∃ fuel, (dtSetUbootDmPreloc fuel offset ⟨dt, heap⟩).returned = true) ↔
        ∀ j, ReflTransGen (Refers dt) i j → ¬TransGen (Refers dt) j j) ∧
      ∀ fuel, (dtSetUbootDmPreloc fuel offset ⟨dt, heap⟩).returned = true →
        ∀ j, ReflTransGen (Refers dt) i j →
          (dtSetUbootDmPreloc fuel offset ⟨dt, heap⟩).work.dt.Carries j dmPreReloc := by
  have hmarks := fun fuel => refines_walk fuel i offset ⟨dt, heap⟩ rfl hoffset
  constructor
  · have hfin := finite_reach dt i
    rw [← edge_eq_refers] at hfin ⊢
    rw [← GraphWalk.exists_walk_iff hfin]
    refine exists_congr fun fuel => ?_
    rw [(hmarks fuel).returned, Option.isSome_iff_exists]
  · intro fuel hreturned j hj
    rw [(hmarks fuel).returned, Option.isSome_iff_exists] at hreturned
    obtain ⟨vs, hvs⟩ := hreturned
    rw [← edge_eq_refers] at hj
    exact ((hmarks fuel).marked vs hvs j).mpr (.inr ((GraphWalk.mem_walk_iff hvs).mpr hj))

end Returns

/-- Marking from a node returns, with the node and every one it refers to, directly or not,
    carrying the property, exactly if none of them leads back to itself.  Otherwise the recursion
    does not end. -/
theorem preloc_marks_iff (dt : DeviceTree) (heap : Heap U32) (i offset : Nat)
    (hoffset : dt.offsets[i]? = some offset) :
    (∃ fuel, (dtSetUbootDmPreloc fuel offset ⟨dt, heap⟩).returned = true ∧
        ∀ j, ReflTransGen (Refers dt) i j →
          (dtSetUbootDmPreloc fuel offset ⟨dt, heap⟩).work.dt.Carries j dmPreReloc) ↔
      ∀ j, ReflTransGen (Refers dt) i j → ¬TransGen (Refers dt) j j := by
  obtain ⟨hreturns, hmarked⟩ := dtSetUbootDmPreloc_returns hoffset heap
  rw [← hreturns]
  constructor
  · rintro ⟨fuel, hreturned, -⟩
    exact ⟨fuel, hreturned⟩
  · rintro ⟨fuel, hreturned⟩
    exact ⟨fuel, hreturned, hmarked fuel hreturned⟩

def nodeWith (depth : Nat) (props : List (List Byte × List Byte)) : DeviceTree.Node where
  depth := depth
  name := []
  props := props
  nops := 0

theorem preorder_uart : DeviceTree.Preorder [0, 1] := ⟨rfl, by decide, by decide⟩

theorem preorder_pmgr : DeviceTree.Preorder [0, 1, 2, 1] := ⟨rfl, by decide, by decide⟩

/-- The serial port in a power domain of its parent, the power manager, as in the trees in
    use. -/
def pmgrTree : DeviceTree where
  nodes := [nodeWith 0 [], nodeWith 1 [], nodeWith 2 [(DeviceTree.phandleName, [0, 0, 0, 1])],
    nodeWith 1 [(powerDomainsName, [0, 0, 0, 1])]]
  preorder := preorder_pmgr

theorem lt_of_refers_pmgrTree {a b : Nat} (h : Refers pmgrTree a b) : b < a := by
  have hall : ∀ a < 4, ∀ b ∈ needed pmgrTree.links a, b < a := by decide
  have hlt : a < 4 := by
    obtain ⟨l, hl, -⟩ := h
    exact (List.getElem?_eq_some_iff.mp hl).1
  rw [← edge_eq_refers] at h
  exact hall a hlt b h

theorem preloc_marks_pmgrTree :
    pmgrTree.offsets[3]? = some 48 ∧
      ∃ fuel, (dtSetUbootDmPreloc fuel 48 ⟨pmgrTree, Heap.empty⟩).returned = true ∧
        ∀ j, ReflTransGen (Refers pmgrTree) 3 j →
          (dtSetUbootDmPreloc fuel 48 ⟨pmgrTree, Heap.empty⟩).work.dt.Carries j dmPreReloc := by
  have hoffset : pmgrTree.offsets[3]? = some 48 := by decide
  refine ⟨hoffset, (preloc_marks_iff pmgrTree Heap.empty 3 48 hoffset).mpr ?_⟩
  intro j _ hcycle
  have hle : Refers pmgrTree ≤ fun a b => b < a := fun _ _ => lt_of_refers_pmgrTree
  have hdown := TransGen.mono hle j j hcycle
  rw [Relation.transGen_eq_self] at hdown
  exact Nat.lt_irrefl j hdown

def selfDomain : DeviceTree where
  nodes := [nodeWith 0 [],
    nodeWith 1 [(DeviceTree.phandleName, [0, 0, 0, 1]), (powerDomainsName, [0, 0, 0, 1])]]
  preorder := preorder_uart

theorem selfDomain_never_returns :
    selfDomain.offsets[1]? = some 8 ∧
      ¬∃ fuel, (dtSetUbootDmPreloc fuel 8 ⟨selfDomain, Heap.empty⟩).returned = true := by
  have hoffset : selfDomain.offsets[1]? = some 8 := by decide
  refine ⟨hoffset, ?_⟩
  rw [(dtSetUbootDmPreloc_returns hoffset Heap.empty).1]
  intro h
  have hself : Refers selfDomain 1 1 := by
    rw [← edge_eq_refers]
    exact (by decide : 1 ∈ needed selfDomain.links 1)
  exact h 1 .refl (.single hself)

end MiniHaywire.Kboot
