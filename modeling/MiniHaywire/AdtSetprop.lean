import MiniHaywire.AdtTree

/-!
# Writing a property

`adt_setprop` copies a value over one of the same length, in the flat blob.  The blob that
is left holds a tree again: the tree with that one property written (`AdtTree.write`).  A
property is told by its offset here and not by its name, since a node may have several
properties of one name and only the first of them is written.

Writing keeps every length, so the nodes of the two trees stand at the same offsets
(`nodes_write`), and what the functions of `adt.c` find at them is read off both trees.
-/

namespace MiniHaywire.Adt

/-- `adt_setprop` with the `len` bytes at `value`: the return value and the blob. -/
def adtSetprop (adt : Blob) (nodeoffset : U32) (name value : List Byte) : U32 × Blob :=
  let len : U32 := BitVec.ofNat 32 value.length
  match adtGetprop adt nodeoffset name with
  | none => (-ADT_ERR_NOTFOUND, adt)
  | some (prop, plen) =>
    if len ≠ plen then (-ADT_ERR_BADLENGTH, adt) else (len, adt.store prop value)

/-! ### The nodes of a tree -/

mutual

/-- The nodes of a tree that is stored at an offset, each with its own offset. -/
def AdtTree.nodes : AdtTree → Nat → List (Nat × AdtTree)
  | .node first others children, o =>
    (o, .node first others children) ::
      nodesAll children (childrenAt o (.node first others children))

def nodesAll : List AdtTree → Nat → List (Nat × AdtTree)
  | [], _ => []
  | t :: ts, o => t.nodes o ++ nodesAll ts (o + t.enc.length)

end

theorem AdtTree.nodes_eq (t : AdtTree) (o : Nat) :
    t.nodes o = (o, t) :: nodesAll t.children (childrenAt o t) := by
  cases t with
  | node first others children => rw [AdtTree.nodes, AdtTree.children]

mutual

theorem stored_nodes {adt : Blob} : ∀ (t : AdtTree) {o : Nat}, Stored adt o t →
    ∀ x ∈ t.nodes o, Stored adt x.1 x.2
  | .node first others children, o, h, x, hx => by
    rw [AdtTree.nodes] at hx
    rcases List.mem_cons.mp hx with rfl | hx
    · exact h
    · exact stored_nodesAll children h.fields.2.2.2 h.childrenAt_small x hx

theorem stored_nodesAll {adt : Blob} : ∀ (ts : List AdtTree) {o : Nat},
    Holds adt o (encAll ts) → o + (encAll ts).length < 2 ^ 31 →
    ∀ x ∈ nodesAll ts o, Stored adt x.1 x.2
  | [], o, _, _, x, hx => by
    rw [nodesAll] at hx
    contradiction
  | t :: ts, o, h, hsmall, x, hx => by
    rw [encAll] at h hsmall
    rw [List.length_append] at hsmall
    rw [nodesAll] at hx
    obtain ⟨ht, hts⟩ := holds_append.mp h
    rcases List.mem_append.mp hx with hx | hx
    · exact stored_nodes t ⟨ht, by omega⟩ x hx
    · exact stored_nodesAll ts hts (by omega) x hx

end

/-! ### One property is written -/

section Write

variable (k : Nat) (value : List Byte)

/-- The property at offset `q`, with a new value if it is the one at offset `k`. -/
def AdtProp.write (p : AdtProp) (q : Nat) : AdtProp :=
  if h : q = k ∧ value.length = p.value.length then
    { p with
      value := value
      value_length := by rw [h.2]; exact p.value_length }
  else p

def writeProps : List AdtProp → Nat → List AdtProp
  | [], _ => []
  | p :: ps, q => p.write k value q :: writeProps ps (q + p.enc.length)

mutual

def AdtTree.write : AdtTree → Nat → AdtTree
  | .node first others children, o =>
    .node (first.write k value (o + 8)) (writeProps k value others (o + 8 + first.enc.length))
      (writeAll children (childrenAt o (.node first others children)))

def writeAll : List AdtTree → Nat → List AdtTree
  | [], _ => []
  | t :: ts, o => t.write o :: writeAll ts (o + t.enc.length)

end

theorem AdtTree.props_write (t : AdtTree) (o : Nat) :
    (t.write k value o).props = writeProps k value t.props (o + 8) := by
  cases t with
  | node first others children =>
    rw [AdtTree.write]
    rfl

theorem AdtTree.children_write (t : AdtTree) (o : Nat) :
    (t.write k value o).children = writeAll k value t.children (childrenAt o t) := by
  cases t with
  | node first others children =>
    rw [AdtTree.write]
    rfl

/-! #### Lengths -/

theorem AdtProp.name_write (p : AdtProp) (q : Nat) : (p.write k value q).name = p.name := by
  unfold AdtProp.write
  split
  · rfl
  · rfl

theorem AdtProp.length_value_write (p : AdtProp) (q : Nat) :
    (p.write k value q).value.length = p.value.length := by
  unfold AdtProp.write
  split
  · rename_i h
    exact h.2
  · rfl

theorem AdtProp.length_enc_write (p : AdtProp) (q : Nat) :
    (p.write k value q).enc.length = p.enc.length := by
  rw [AdtProp.length_enc, AdtProp.length_enc, AdtProp.length_value_write]

theorem length_encProps_write (ps : List AdtProp) :
    ∀ q, (encProps (writeProps k value ps q)).length = (encProps ps).length := by
  induction ps with
  | nil =>
    intro q
    rfl
  | cons p ps ih =>
    intro q
    rw [writeProps, encProps_cons, encProps_cons, List.length_append, List.length_append, ih,
      AdtProp.length_enc_write]

theorem length_writeProps (ps : List AdtProp) :
    ∀ q, (writeProps k value ps q).length = ps.length := by
  induction ps with
  | nil =>
    intro q
    rfl
  | cons p ps ih =>
    intro q
    rw [writeProps, List.length_cons, List.length_cons, ih]

theorem writeProps_append (ps ps' : List AdtProp) : ∀ q,
    writeProps k value (ps ++ ps') q =
      writeProps k value ps q ++ writeProps k value ps' (q + (encProps ps).length) := by
  induction ps with
  | nil =>
    intro q
    rfl
  | cons p ps ih =>
    intro q
    rw [List.cons_append, writeProps, writeProps, ih, encProps_cons, List.length_append,
      Nat.add_assoc, List.cons_append]

theorem length_writeAll (ts : List AdtTree) : ∀ o, (writeAll k value ts o).length = ts.length := by
  induction ts with
  | nil =>
    intro o
    rw [writeAll]
  | cons t ts ih =>
    intro o
    rw [writeAll, List.length_cons, List.length_cons, ih]

mutual

theorem length_enc_write : ∀ (t : AdtTree) (o : Nat), (t.write k value o).enc.length = t.enc.length
  | .node first others children, o => by
    rw [AdtTree.length_enc, AdtTree.length_enc, AdtTree.props_write, AdtTree.children_write,
      length_encProps_write, AdtTree.children, length_encAll_write children]

theorem length_encAll_write : ∀ (ts : List AdtTree) (o : Nat),
    (encAll (writeAll k value ts o)).length = (encAll ts).length
  | [], o => by rw [writeAll]
  | t :: ts, o => by
    rw [writeAll, encAll, encAll, List.length_append, List.length_append, length_enc_write t,
      length_encAll_write ts]

end

theorem childrenAt_write (t : AdtTree) (o : Nat) :
    childrenAt o (t.write k value o) = childrenAt o t := by
  rw [childrenAt, childrenAt, AdtTree.props_write, length_encProps_write]

mutual

theorem depth_write : ∀ (t : AdtTree) (o : Nat), (t.write k value o).depth = t.depth
  | .node first others children, o => by
    rw [AdtTree.depth_eq, AdtTree.depth_eq, AdtTree.children_write, AdtTree.children,
      depthAll_write children]

theorem depthAll_write : ∀ (ts : List AdtTree) (o : Nat),
    depthAll (writeAll k value ts o) = depthAll ts
  | [], o => by rw [writeAll]
  | t :: ts, o => by rw [writeAll, depthAll, depthAll, depth_write t, depthAll_write ts]

end

mutual

theorem nodes_write : ∀ (t : AdtTree) (o : Nat),
    (t.write k value o).nodes o = (t.nodes o).map fun x => (x.1, x.2.write k value x.1)
  | .node first others children, o => by
    rw [AdtTree.nodes_eq, AdtTree.nodes_eq, childrenAt_write, AdtTree.children_write,
      AdtTree.children, nodesAll_write children, List.map_cons]

theorem nodesAll_write : ∀ (ts : List AdtTree) (o : Nat),
    nodesAll (writeAll k value ts o) o = (nodesAll ts o).map fun x => (x.1, x.2.write k value x.1)
  | [], o => by
    rw [writeAll, nodesAll]
    rfl
  | t :: ts, o => by
    rw [writeAll, nodesAll, nodesAll, nodes_write t, length_enc_write, nodesAll_write ts,
      List.map_append]

end

/-! #### Where nothing is written -/

theorem AdtProp.write_of_ne {p : AdtProp} {q : Nat} (h : q ≠ k) : p.write k value q = p := by
  unfold AdtProp.write
  exact dif_neg fun hq => h hq.1

theorem writeProps_of_outside (ps : List AdtProp) :
    ∀ {q}, k < q ∨ q + (encProps ps).length ≤ k → writeProps k value ps q = ps := by
  induction ps with
  | nil =>
    intro q _
    rfl
  | cons p ps ih =>
    intro q h
    have hlen := p.length_enc
    rw [encProps_cons, List.length_append] at h
    rw [writeProps, AdtProp.write_of_ne k value (by omega), ih (by omega)]

mutual

theorem write_of_outside : ∀ (t : AdtTree) {o : Nat}, k < o ∨ o + t.enc.length ≤ k →
    t.write k value o = t
  | .node first others children, o, h => by
    have hprops := writeProps_of_outside k value (first :: others) (q := o + 8)
    have hchildren := writeAll_of_outside children
      (o := childrenAt o (.node first others children))
    rw [AdtTree.length_enc] at h
    rw [childrenAt] at hchildren
    rw [AdtTree.props] at h hchildren
    rw [AdtTree.children] at h
    have hfirst := hprops (by omega)
    rw [writeProps] at hfirst
    obtain ⟨hfirst, hothers⟩ := List.cons.inj hfirst
    rw [AdtTree.write, childrenAt, hfirst, hothers, AdtTree.props, hchildren (by omega)]

theorem writeAll_of_outside : ∀ (ts : List AdtTree) {o : Nat}, k < o ∨ o + (encAll ts).length ≤ k →
    writeAll k value ts o = ts
  | [], o, _ => by rw [writeAll]
  | t :: ts, o, h => by
    rw [encAll, List.length_append] at h
    rw [writeAll, write_of_outside t (by omega), writeAll_of_outside ts (by omega)]

end

end Write

/-! ### The bytes that are written -/

/-- Of bytes that stand at offset `o`, the value of the property at offset `k` is replaced. -/
def Replaced (o k : Nat) (old new xs ys : List Byte) : Prop :=
  o ≤ k ∧ ∃ before after, xs = before ++ (old ++ after) ∧ ys = before ++ (new ++ after) ∧
    o + before.length = k + 36

namespace Replaced

variable {o k : Nat} {old new xs ys : List Byte}

theorem append (h : Replaced o k old new xs ys) (zs : List Byte) :
    Replaced o k old new (xs ++ zs) (ys ++ zs) := by
  obtain ⟨hle, before, after, rfl, rfl, hlen⟩ := h
  exact ⟨hle, before, after ++ zs, by simp, by simp, hlen⟩

theorem prepend {zs : List Byte} (h : Replaced (o + zs.length) k old new xs ys) :
    Replaced o k old new (zs ++ xs) (zs ++ ys) := by
  obtain ⟨hle, before, after, rfl, rfl, hlen⟩ := h
  refine ⟨by omega, zs ++ before, after, by simp, by simp, ?_⟩
  rw [List.length_append]
  omega

theorem lt (h : Replaced o k old new xs ys) : k < o + xs.length := by
  obtain ⟨-, before, after, rfl, -, hlen⟩ := h
  rw [List.length_append]
  omega

theorem holds_store {adt : Blob} (h : Replaced o k old new xs ys) (hnew : new.length = old.length)
    (hholds : Holds adt o xs) (hlen : xs.length ≤ 2 ^ 32) :
    Holds (adt.store (BitVec.ofNat 32 (k + 36)) new) o ys := by
  obtain ⟨-, before, after, rfl, rfl, hoff⟩ := h
  rw [← hoff, BitVec.ofNat_add]
  exact Mem.at_store new hnew hholds hlen

end Replaced

section Replaced

variable {value : List Byte} {p : AdtProp}

theorem replaced_prop (hlen : value.length = p.value.length) (q : Nat) :
    Replaced q q p.value value p.enc (p.write q value q).enc := by
  have hwrite : (p.write q value q).enc = ljust 32 p.name ++
      (leWord (BitVec.ofNat 32 value.length) ++ ljust (4 * ((value.length + 3) / 4)) value) := by
    unfold AdtProp.write
    rw [dif_pos ⟨rfl, hlen⟩]
    rfl
  refine ⟨Nat.le_refl q, ljust 32 p.name ++ leWord (BitVec.ofNat 32 p.value.length),
    List.replicate (4 * ((p.value.length + 3) / 4) - p.value.length) 0, ?_, ?_, ?_⟩
  · rw [AdtProp.enc, List.append_assoc]
    rfl
  · rw [hwrite, hlen, List.append_assoc, ljust, ljust, hlen]
  · rw [List.length_append, p.length_name, length_leWord]

theorem replaced_props (pre post : List AdtProp) (hlen : value.length = p.value.length) (q : Nat) :
    Replaced q (q + (encProps pre).length) p.value value (encProps (pre ++ p :: post))
      (encProps (writeProps (q + (encProps pre).length) value (pre ++ p :: post) q)) := by
  have hprop := replaced_prop hlen (q + (encProps pre).length)
  have henc := p.length_enc
  rw [writeProps_append, writeProps, encProps_append, encProps_append, encProps_cons, encProps_cons,
    writeProps_of_outside _ _ pre (by omega), writeProps_of_outside _ _ post (by omega)]
  exact (hprop.append (encProps post)).prepend

theorem replaced_node {t : AdtTree} {pre post : List AdtProp} (hprops : t.props = pre ++ p :: post)
    (hlen : value.length = p.value.length) (o : Nat) :
    Replaced o (o + 8 + (encProps pre).length) p.value value t.enc
      (t.write (o + 8 + (encProps pre).length) value o).enc := by
  have hreplaced := replaced_props pre post hlen (o + 8)
  rw [← hprops] at hreplaced
  have hchildren := writeAll_of_outside (o + 8 + (encProps pre).length) value t.children
    (o := childrenAt o t) (.inl hreplaced.lt)
  rw [AdtTree.enc_eq, AdtTree.enc_eq, AdtTree.props_write, AdtTree.children_write, hchildren,
    length_writeProps]
  -- the two counts in front of the properties
  refine Replaced.prepend (Replaced.prepend ?_)
  rw [length_leWord, length_leWord]
  exact hreplaced.append _

end Replaced

section Nodes

variable {value : List Byte} {p : AdtProp} {pre post : List AdtProp} {k : Nat} {x : Nat × AdtTree}

mutual

theorem replaced_nodes (hprops : x.2.props = pre ++ p :: post)
    (hlen : value.length = p.value.length) (hk : k = x.1 + 8 + (encProps pre).length) :
    ∀ (t : AdtTree) {o : Nat}, x ∈ t.nodes o →
      Replaced o k p.value value t.enc (t.write k value o).enc
  | .node first others children, o, hx => by
    rw [AdtTree.nodes] at hx
    rcases List.mem_cons.mp hx with rfl | hx
    · subst hk
      exact replaced_node hprops hlen o
    · have hrest := replaced_nodesAll hprops hlen hk children hx
      have hle := hrest.1
      have howns := writeProps_of_outside k value (first :: others) (q := o + 8) (.inr hle)
      rw [AdtTree.enc_eq, AdtTree.enc_eq, AdtTree.props_write, AdtTree.children_write,
        AdtTree.props, AdtTree.children, howns, length_writeAll]
      refine Replaced.prepend (Replaced.prepend (Replaced.prepend ?_))
      rw [length_leWord, length_leWord]
      exact hrest

theorem replaced_nodesAll (hprops : x.2.props = pre ++ p :: post)
    (hlen : value.length = p.value.length) (hk : k = x.1 + 8 + (encProps pre).length) :
    ∀ (ts : List AdtTree) {o : Nat}, x ∈ nodesAll ts o →
      Replaced o k p.value value (encAll ts) (encAll (writeAll k value ts o))
  | [], o, hx => by
    rw [nodesAll] at hx
    contradiction
  | t :: ts, o, hx => by
    rw [nodesAll] at hx
    rw [writeAll, encAll, encAll]
    rcases List.mem_append.mp hx with hx | hx
    · have hfirst := replaced_nodes hprops hlen hk t hx
      rw [writeAll_of_outside k value ts (.inl hfirst.lt)]
      exact hfirst.append _
    · have hrest := replaced_nodesAll hprops hlen hk ts hx
      rw [write_of_outside k value t (.inr hrest.1)]
      exact hrest.prepend

end

end Nodes

/-! ### What is found afterwards -/

/-- A property at `q`, in two blobs that differ by a write of the value at `v`. -/
structure SameProp (adt adt' : Blob) (v q : U32) (p : AdtProp) : Prop where
  name : adt'.load q 32 = adt.load q 32
  size : propSize adt' q = propSize adt q
  next : adtNextPropertyOffset adt' q = adtNextPropertyOffset adt q
  value : q + 36 ≠ v → adt'.load (q + 36) p.value.length = adt.load (q + 36) p.value.length

/-- A node at `o`, in two blobs that differ by a write of the value at `v`. -/
structure SameNode (adt adt' : Blob) (v : U32) (o : Nat) (s : AdtTree) : Prop where
  propertyCount : adtGetPropertyCount adt' (BitVec.ofNat 32 o) =
    adtGetPropertyCount adt (BitVec.ofNat 32 o)
  childCount : adtGetChildCount adt' (BitVec.ofNat 32 o) = adtGetChildCount adt (BitVec.ofNat 32 o)
  firstChild : adtFirstChildOffset adt' (BitVec.ofNat 32 o) =
    adtFirstChildOffset adt (BitVec.ofNat 32 o)
  nextSibling : ∀ fuel, s.depth ≤ fuel →
    adtNextSiblingOffset adt' fuel (BitVec.ofNat 32 o) =
      adtNextSiblingOffset adt fuel (BitVec.ofNat 32 o)
  getprop : ∀ name, adtGetprop adt' (BitVec.ofNat 32 o) name =
    adtGetprop adt (BitVec.ofNat 32 o) name
  props : ∀ pre p post, s.props = pre ++ p :: post →
    SameProp adt adt' v (BitVec.ofNat 32 (o + 8 + (encProps pre).length)) p

section Same

variable {adt adt' : Blob} {o k : Nat} {s : AdtTree} {value : List Byte}

theorem sameProp_write {q : Nat} {p : AdtProp} (h : Holds adt q p.enc)
    (h' : Holds adt' q (p.write k value q).enc) :
    SameProp adt adt' (BitVec.ofNat 32 (k + 36)) (BitVec.ofNat 32 q) p where
  name := by
    have hname : adt.load (BitVec.ofNat 32 q) (ljust 32 p.name).length = _ := (holds_enc h).1
    have hname' : adt'.load (BitVec.ofNat 32 q) (ljust 32 (p.write k value q).name).length = _ :=
      (holds_enc h').1
    rw [AdtProp.name_write] at hname'
    rw [p.length_name] at hname hname'
    rw [hname, hname']
  size := by rw [propSize_enc h, propSize_enc h', AdtProp.length_value_write]
  next := by rw [nextProperty_enc h, nextProperty_enc h', AdtProp.length_enc_write]
  value := by
    intro hne
    have hother : q ≠ k := by
      rintro rfl
      exact hne (BitVec.ofNat_add q 36).symm
    rw [AdtProp.write_of_ne k value hother] at h'
    have hvalue : adt.load (BitVec.ofNat 32 (q + 36)) p.value.length = _ := (holds_enc h).2.2
    have hvalue' : adt'.load (BitVec.ofNat 32 (q + 36)) p.value.length = _ := (holds_enc h').2.2
    rw [BitVec.ofNat_add] at hvalue hvalue'
    exact hvalue'.trans hvalue.symm

theorem find_writeProps (name : List Byte) (ps : List AdtProp) (q : Nat) :
    (∀ r ∈ ps, r.name ≠ name) → ∀ r ∈ writeProps k value ps q, r.name ≠ name := by
  induction ps generalizing q with
  | nil =>
    intro _ r hr
    contradiction
  | cons p ps ih =>
    intro hne r hr
    rcases List.mem_cons.mp hr with rfl | hr
    · rw [AdtProp.name_write]
      exact hne p List.mem_cons_self
    · exact ih _ (fun r hr => hne r (List.mem_cons_of_mem p hr)) r hr

theorem getprop_write (h : Stored adt o s) (h' : Stored adt' o (s.write k value o))
    (name : List Byte) :
    adtGetprop adt' (BitVec.ofNat 32 o) name = adtGetprop adt (BitVec.ofNat 32 o) name := by
  cases hfind : s.props.find? (fun p => p.name = name) with
  | none =>
    have hne : ∀ r ∈ s.props, r.name ≠ name := by
      intro r hr
      simpa using List.find?_eq_none.mp hfind r hr
    rw [h.getprop_none hne, h'.getprop_none]
    rw [AdtTree.props_write]
    exact find_writeProps name s.props (o + 8) hne
  | some p =>
    obtain ⟨hname, pre, post, hprops, hpre⟩ := List.find?_eq_some_iff_append.mp hfind
    obtain rfl : p.name = name := of_decide_eq_true hname
    have hne : ∀ r ∈ pre, r.name ≠ p.name := fun r hr => by simpa using hpre r hr
    have hprops' : (s.write k value o).props = writeProps k value pre (o + 8) ++
        p.write k value (o + 8 + (encProps pre).length) ::
          writeProps k value post (o + 8 + (encProps pre).length + p.enc.length) := by
      rw [AdtTree.props_write, hprops, writeProps_append, writeProps]
    obtain ⟨hget, -⟩ := h.getprop_some hprops hne
    obtain ⟨hget', -⟩ := h'.getprop_some hprops' (by
      rw [AdtProp.name_write]
      exact find_writeProps p.name pre (o + 8) hne)
    rw [AdtProp.name_write, length_encProps_write, AdtProp.length_value_write] at hget'
    rw [hget, hget']

theorem sameNode_write (h : Stored adt o s) (h' : Stored adt' o (s.write k value o)) :
    SameNode adt adt' (BitVec.ofNat 32 (k + 36)) o s where
  propertyCount := by rw [h.fields.1, h'.fields.1, AdtTree.props_write, length_writeProps]
  childCount := by rw [h.fields.2.1, h'.fields.2.1, AdtTree.children_write, length_writeAll]
  firstChild := by rw [h.firstChild, h'.firstChild, childrenAt_write]
  nextSibling := by
    intro fuel hfuel
    rw [nextSibling_enc s h hfuel, nextSibling_enc _ h' (by rw [depth_write]; exact hfuel),
      length_enc_write]
  getprop := getprop_write h h'
  props := by
    intro pre p post hprops
    have hall := h.fields.2.2.1
    have hall' := h'.fields.2.2.1
    rw [hprops, encProps_append, encProps_cons] at hall
    rw [AdtTree.props_write, hprops, writeProps_append, writeProps, encProps_append,
      encProps_cons] at hall'
    have hp := (holds_append.mp (holds_append.mp hall).2).1
    have hp' := (holds_append.mp (holds_append.mp hall').2).1
    rw [length_encProps_write] at hp'
    exact sameProp_write hp hp'

end Same

/-! ### `adt_setprop` -/

section Setprop

variable {adt : Blob} {t s : AdtTree} {o : Nat}

theorem stored_setprop (h : Stored adt 0 t) (hnode : (o, s) ∈ t.nodes 0) {pre post : List AdtProp}
    {p : AdtProp} (hprops : s.props = pre ++ p :: post) {value : List Byte}
    (hlen : value.length = p.value.length) :
    Stored (adt.store (BitVec.ofNat 32 (o + 8 + (encProps pre).length + 36)) value) 0
      (t.write (o + 8 + (encProps pre).length) value 0) := by
  have hsmall := h.small
  have hreplaced := replaced_nodes hprops hlen rfl t hnode
  refine ⟨hreplaced.holds_store hlen h.holds (by omega), ?_⟩
  rw [length_enc_write]
  exact hsmall

theorem sameNode_setprop (h : Stored adt 0 t) (hnode : (o, s) ∈ t.nodes 0)
    {pre post : List AdtProp} {p : AdtProp} (hprops : s.props = pre ++ p :: post)
    {value : List Byte} (hlen : value.length = p.value.length) (x : Nat × AdtTree)
    (hx : x ∈ t.nodes 0) :
    SameNode adt (adt.store (BitVec.ofNat 32 (o + 8 + (encProps pre).length + 36)) value)
      (BitVec.ofNat 32 (o + 8 + (encProps pre).length + 36)) x.1 x.2 := by
  have hwritten := stored_setprop h hnode hprops hlen
  have hx' : (x.1, x.2.write (o + 8 + (encProps pre).length) value x.1) ∈
      (t.write (o + 8 + (encProps pre).length) value 0).nodes 0 := by
    rw [nodes_write]
    exact List.mem_map_of_mem hx
  exact sameNode_write (stored_nodes t h x hx) (stored_nodes _ hwritten _ hx')

/-- A property of the right length is overwritten where it stands. -/
theorem setprop_found (h : Stored adt 0 t) (hnode : (o, s) ∈ t.nodes 0) {name value old : List Byte}
    (hold : s.value? name = some old) (hlen : old.length = value.length) :
    ∃ v, adtGetprop adt (BitVec.ofNat 32 o) name = some (v, BitVec.ofNat 32 value.length) ∧
      adtSetprop adt (BitVec.ofNat 32 o) name value =
        (BitVec.ofNat 32 value.length, adt.store v value) ∧
      ∀ x ∈ t.nodes 0, SameNode adt (adt.store v value) v x.1 x.2 := by
  obtain ⟨p, hfind, rfl⟩ := Option.map_eq_some_iff.mp hold
  obtain ⟨hname, pre, post, hprops, hpre⟩ := List.find?_eq_some_iff_append.mp hfind
  obtain rfl : p.name = name := of_decide_eq_true hname
  obtain ⟨hget, -⟩ := (stored_nodes t h (o, s) hnode).getprop_some hprops
    (fun r hr => by simpa using hpre r hr)
  refine ⟨_, by rw [hget, hlen], ?_, sameNode_setprop h hnode hprops hlen.symm⟩
  rw [adtSetprop, hget]
  dsimp only
  rw [if_neg (by rw [hlen]; exact not_not.mpr rfl)]

/-- **`adt_setprop` writes in place.**  For a node of a stored tree, a missing property and
    a length that is not that of the property are errors and the blob is not touched.  Else
    `adt_getprop` returns the new bytes, where the old ones were; every other property has its
    name, size and value, and every walk goes where it went. -/
theorem setprop_in_place (h : Stored adt 0 t) (hnode : (o, s) ∈ t.nodes 0) (name value : List Byte)
    (hvalue : value.length < 2 ^ 32) :
    let (r, adt') := adtSetprop adt (BitVec.ofNat 32 o) name value
    (s.value? name = none → r = -ADT_ERR_NOTFOUND ∧ adt' = adt) ∧
    (∀ old, s.value? name = some old → old.length ≠ value.length →
      r = -ADT_ERR_BADLENGTH ∧ adt' = adt) ∧
    ∀ old, s.value? name = some old → old.length = value.length →
      r = BitVec.ofNat 32 value.length ∧
      ∃ v, adtGetprop adt (BitVec.ofNat 32 o) name = some (v, BitVec.ofNat 32 value.length) ∧
        adtGetprop adt' (BitVec.ofNat 32 o) name = some (v, BitVec.ofNat 32 value.length) ∧
        adt'.load v value.length = value ∧
        ∀ x ∈ t.nodes 0, SameNode adt adt' v x.1 x.2 := by
  have hstored := stored_nodes t h (o, s) hnode
  rcases hpair : adtSetprop adt (BitVec.ofNat 32 o) name value with ⟨r, adt'⟩
  refine ⟨?_, ?_, ?_⟩
  · intro hnone
    rw [adtSetprop, hstored.getprop_value_none hnone] at hpair
    obtain ⟨rfl, rfl⟩ := Prod.mk.inj hpair
    exact ⟨rfl, rfl⟩
  · intro old hold hne
    obtain ⟨v, hget, -, hshort⟩ := hstored.getprop_value hold
    have hsize : BitVec.ofNat 32 value.length ≠ BitVec.ofNat 32 old.length := by
      intro heq
      have hnat := congrArg BitVec.toNat heq
      rw [BitVec.toNat_ofNat, BitVec.toNat_ofNat, Nat.mod_eq_of_lt hvalue,
        Nat.mod_eq_of_lt (by omega)] at hnat
      exact hne hnat.symm
    rw [adtSetprop, hget] at hpair
    dsimp only at hpair
    rw [if_pos hsize] at hpair
    obtain ⟨rfl, rfl⟩ := Prod.mk.inj hpair
    exact ⟨rfl, rfl⟩
  · intro old hold hlen
    obtain ⟨v, hget, hset, hnodes⟩ := setprop_found h hnode hold hlen
    obtain ⟨rfl, rfl⟩ := Prod.mk.inj (hpair.symm.trans hset)
    refine ⟨rfl, v, hget, ?_, Mem.load_store (Nat.le_of_lt hvalue) adt v, hnodes⟩
    rw [(hnodes (o, s) hnode).getprop name, hget]

theorem length_rootName : (cstr ['d', 't'] ++ [0]).length < 2 ^ 20 := by decide

theorem length_regName : (cstr ['r', 'e', 'g']).length ≤ 31 := by decide

theorem regName_ne_zero : ∀ b ∈ cstr ['r', 'e', 'g'], b ≠ 0 := by decide

def twoRegs : AdtTree :=
  .node (nameProp ['d', 't'] length_rootName)
    [⟨cstr ['r', 'e', 'g'], [1, 2, 3], length_regName, regName_ne_zero, by decide⟩,
      ⟨cstr ['r', 'e', 'g'], [4, 5, 6], length_regName, regName_ne_zero, by decide⟩] []

/-- The first of the two is written. -/
theorem setprop_twoRegs :
    Stored (blobOf twoRegs.enc) 0 twoRegs ∧ (0, twoRegs) ∈ twoRegs.nodes 0 ∧
      (adtSetprop (blobOf twoRegs.enc) 0 (cstr ['r', 'e', 'g']) [7, 8, 9]).1 = 3 ∧
      ∃ v, SameNode (blobOf twoRegs.enc)
        (adtSetprop (blobOf twoRegs.enc) 0 (cstr ['r', 'e', 'g']) [7, 8, 9]).2 v 0 twoRegs := by
  have hstored : Stored (blobOf twoRegs.enc) 0 twoRegs := stored_blobOf (by decide +kernel)
  have hnode : (0, twoRegs) ∈ twoRegs.nodes 0 := by
    rw [AdtTree.nodes_eq]
    exact List.mem_cons_self
  obtain ⟨-, -, hwritten⟩ := setprop_in_place hstored hnode (cstr ['r', 'e', 'g'])
    [7, 8, 9] (by decide)
  obtain ⟨hreply, v, -, -, -, hnodes⟩ := hwritten [1, 2, 3] (by decide) rfl
  exact ⟨hstored, hnode, hreply, v, hnodes _ hnode⟩

end Setprop

end MiniHaywire.Adt
