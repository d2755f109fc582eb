import MiniHaywire.Adt

/-!
# Trees and their flat encoding

A device tree as a tree, the bytes it is stored as, and what the functions of
`adt.c` find in them.  No length of a subtree is stored anywhere: the sibling of
a node is found by walking over all its properties and, recursively, over all its
children.  The induction is over the tree, and under it over the list of
children; the fuel that is enough is the depth of the tree.

Offsets are natural numbers here, and the blob is read at their 32-bit values.
-/

namespace MiniHaywire.Adt

/-! ### The format -/

/-- A property.  The name fits its 32 bytes with a NUL at the end, the value is
    shorter than 1 MiB. -/
structure AdtProp where
  name : List Byte
  value : List Byte
  name_length : name.length ≤ 31
  name_ne : ∀ b ∈ name, b ≠ 0
  value_length : value.length < 2 ^ 20

/-- A node has a first property, other properties, and children. -/
inductive AdtTree where
  | node (first : AdtProp) (others : List AdtProp) (children : List AdtTree)

def AdtTree.props : AdtTree → List AdtProp
  | .node first others _ => first :: others

def AdtTree.children : AdtTree → List AdtTree
  | .node _ _ children => children

def AdtTree.value? (t : AdtTree) (name : List Byte) : Option (List Byte) :=
  (t.props.find? (fun p => p.name = name)).map AdtProp.value

/-- `struct adt_property`, with the value padded to a multiple of four bytes. -/
def AdtProp.enc (p : AdtProp) : List Byte :=
  ljust 32 p.name ++ (leWord (BitVec.ofNat 32 p.value.length) ++
    ljust (4 * ((p.value.length + 3) / 4)) p.value)

def encProps (ps : List AdtProp) : List Byte := ps.flatMap AdtProp.enc

mutual

/-- `struct adt_node_hdr`, the properties, the children. -/
def AdtTree.enc : AdtTree → List Byte
  | .node first others children =>
    leWord (BitVec.ofNat 32 (first :: others).length) ++
      (leWord (BitVec.ofNat 32 children.length) ++
        (encProps (first :: others) ++ encAll children))

def encAll : List AdtTree → List Byte
  | [] => []
  | t :: ts => t.enc ++ encAll ts

end

mutual

def AdtTree.depth : AdtTree → Nat
  | .node _ _ children => depthAll children + 1

def depthAll : List AdtTree → Nat
  | [] => 0
  | t :: ts => max t.depth (depthAll ts)

end

theorem AdtProp.length_enc (p : AdtProp) :
    p.enc.length = 36 + 4 * ((p.value.length + 3) / 4) := by
  have hname := p.name_length
  simp only [enc, List.length_append, length_leWord]
  rw [length_ljust (by omega), length_ljust (by omega)]
  omega

theorem AdtTree.enc_eq (t : AdtTree) :
    t.enc = leWord (BitVec.ofNat 32 t.props.length) ++
      (leWord (BitVec.ofNat 32 t.children.length) ++ (encProps t.props ++ encAll t.children)) := by
  cases t with
  | node first others children => rw [AdtTree.enc, props, AdtTree.children]

theorem AdtTree.depth_eq (t : AdtTree) : t.depth = depthAll t.children + 1 := by
  cases t with
  | node first others children => rw [AdtTree.depth, AdtTree.children]

theorem AdtTree.length_enc (t : AdtTree) :
    t.enc.length = 8 + (encProps t.props).length + (encAll t.children).length := by
  rw [enc_eq]
  simp only [List.length_append, length_leWord]
  omega

theorem length_le_encProps (ps : List AdtProp) : ps.length ≤ (encProps ps).length := by
  induction ps with
  | nil => exact Nat.le_refl 0
  | cons p ps ih =>
    have hp := p.length_enc
    simp only [encProps, List.flatMap_cons, List.length_cons, List.length_append] at ih ⊢
    omega

theorem length_le_encAll (ts : List AdtTree) : ts.length ≤ (encAll ts).length := by
  induction ts with
  | nil => exact Nat.zero_le _
  | cons t ts ih =>
    have ht := t.length_enc
    rw [encAll, List.length_append, List.length_cons]
    omega

/-! ### Bytes at an offset -/

/-- The bytes `bs` stand in the blob from offset `o` on. -/
def Holds (adt : Blob) (o : Nat) (bs : List Byte) : Prop := adt.At (BitVec.ofNat 32 o) bs

theorem holds_append {adt : Blob} {o : Nat} {xs ys : List Byte} :
    Holds adt o (xs ++ ys) ↔ Holds adt o xs ∧ Holds adt (o + xs.length) ys := by
  unfold Holds
  rw [Mem.at_append, BitVec.ofNat_add]

theorem read32_word {adt : Blob} {o : Nat} {x : U32} (h : Holds adt o (leWord x)) :
    read32 adt (BitVec.ofNat 32 o) = x := by
  have hload : adt.load (BitVec.ofNat 32 o) 4 = leWord x := h
  rw [read32, hload, leNat_leWord rfl, BitVec.ofNat_toNat, BitVec.setWidth_eq]

theorem and_not_three (x : U32) : x &&& ~~~(3 : U32) = BitVec.ofNat 32 (4 * (x.toNat / 4)) := by
  have hshift : x &&& ~~~(3 : U32) = (x >>> 2) <<< 2 := by
    ext i hi
    rw [BitVec.getElem_and, BitVec.getElem_not, BitVec.getElem_shiftLeft]
    by_cases h : i < 2
    · obtain rfl | rfl : i = 0 ∨ i = 1 := by omega
      · simp
      · simp
    · have hi' : 2 + (i - 2) = i := by omega
      have hthree : (3#32)[i] = false := by
        rw [BitVec.getElem_eq_testBit_toNat]
        exact Nat.testBit_lt_two_pow (Nat.lt_of_lt_of_le (by decide : 3 < 2 ^ 2)
          (Nat.pow_le_pow_right (by decide) (by omega)))
      simp [h, hi', hthree, BitVec.getLsbD_eq_getElem hi]
  apply BitVec.eq_of_toNat_eq
  rw [hshift, BitVec.toNat_shiftLeft, BitVec.toNat_ushiftRight, BitVec.toNat_ofNat,
    Nat.shiftLeft_eq, Nat.shiftRight_eq_div_pow, Nat.mul_comm]

section Property

variable {adt : Blob} {o : Nat} {p : AdtProp}

theorem AdtProp.length_name (p : AdtProp) : (ljust 32 p.name).length = 32 :=
  length_ljust (p.name_length.trans (by decide))

theorem holds_enc (h : Holds adt o p.enc) :
    Holds adt o (ljust 32 p.name) ∧
      Holds adt (o + 32) (leWord (BitVec.ofNat 32 p.value.length)) ∧
        Holds adt (o + 36) p.value := by
  obtain ⟨hname, hrest⟩ := holds_append.mp h
  obtain ⟨hsize, hvalue⟩ := holds_append.mp hrest
  rw [p.length_name] at hsize hvalue
  exact ⟨hname, hsize, (holds_append.mp hvalue).1⟩

theorem propSize_enc (h : Holds adt o p.enc) :
    propSize adt (BitVec.ofNat 32 o) = BitVec.ofNat 32 p.value.length := by
  have hread := read32_word (holds_enc h).2.1
  rw [BitVec.ofNat_add] at hread
  exact hread

theorem nextProperty_enc (h : Holds adt o p.enc) :
    adtNextPropertyOffset adt (BitVec.ofNat 32 o) = BitVec.ofNat 32 (o + p.enc.length) := by
  have hvalue := p.value_length
  have hround : ((BitVec.ofNat 32 p.value.length + ADT_ALIGN - 1) &&& ~~~(ADT_ALIGN - 1)) =
      BitVec.ofNat 32 (4 * ((p.value.length + 3) / 4)) := by
    have hmask : ADT_ALIGN - 1 = (3 : U32) := by decide
    have hsum : BitVec.ofNat 32 p.value.length + ADT_ALIGN - 1 =
        BitVec.ofNat 32 (p.value.length + 3) := by
      rw [BitVec.ofNat_add, add_sub_assoc, hmask]
      rfl
    rw [hmask, hsum, and_not_three, BitVec.toNat_ofNat, Nat.mod_eq_of_lt (by omega)]
  unfold adtNextPropertyOffset
  rw [propSize_enc h, hround, p.length_enc, ← Nat.add_assoc, BitVec.ofNat_add, BitVec.ofNat_add]
  rfl

theorem adtStringEq_enc (h : Holds adt o p.enc) (name : List Byte) :
    adtStringEq adt (BitVec.ofNat 32 o) name = decide (p.name = name) := by
  have hlen := p.name_length
  have hpad : ljust 32 p.name = p.name ++ ([0] ++ List.replicate (31 - p.name.length) 0) := by
    have hcount : 32 - p.name.length = 31 - p.name.length + 1 := by omega
    rw [ljust, hcount, List.replicate_succ]
    rfl
  have hname := (holds_enc h).1
  rw [hpad, ← List.append_assoc] at hname
  have hstr := (holds_append.mp hname).1
  have hload : adt.load (BitVec.ofNat 32 o) p.name.length = p.name := (holds_append.mp hstr).1
  have hstrlen := Mem.strlen_eq p.name_ne hstr (by omega)
  unfold adtStringEq
  rw [hstrlen]
  by_cases heq : p.name = name
  · subst heq
    rw [hload]
    simp
  · by_cases hsame : p.name.length = name.length
    · rw [← hsame, hload]
      simp [heq]
    · simp [heq, hsame]

end Property

/-! ### Properties of a node -/

theorem encProps_cons (p : AdtProp) (ps : List AdtProp) :
    encProps (p :: ps) = p.enc ++ encProps ps := List.flatMap_cons

theorem encProps_append (ps qs : List AdtProp) :
    encProps (ps ++ qs) = encProps ps ++ encProps qs := List.flatMap_append

theorem nextProperty_encProps {adt : Blob} (ps : List AdtProp) :
    ∀ o, Holds adt o (encProps ps) →
      (adtNextPropertyOffset adt)^[ps.length] (BitVec.ofNat 32 o) =
        BitVec.ofNat 32 (o + (encProps ps).length) := by
  induction ps with
  | nil =>
    intro o _
    rfl
  | cons p ps ih =>
    intro o h
    rw [encProps_cons] at h ⊢
    obtain ⟨hp, hps⟩ := holds_append.mp h
    rw [List.length_cons, Function.iterate_succ_apply, nextProperty_enc hp, ih _ hps,
      List.length_append, Nat.add_assoc]

theorem propertyLoop_skip {adt : Blob} {name : List Byte} (ps : List AdtProp) :
    ∀ n o, Holds adt o (encProps ps) → (∀ q ∈ ps, q.name ≠ name) →
      propertyLoop adt (matchProperty adt name) (ps.length + n) (BitVec.ofNat 32 o) none =
        propertyLoop adt (matchProperty adt name) n
          (BitVec.ofNat 32 (o + (encProps ps).length)) none := by
  induction ps with
  | nil =>
    intro n o _ _
    rw [List.length_nil, Nat.zero_add]
    rfl
  | cons p ps ih =>
    intro n o h hne
    rw [encProps_cons] at h ⊢
    obtain ⟨hp, hps⟩ := holds_append.mp h
    have hother : matchProperty adt name (BitVec.ofNat 32 o) none = .yield none := by
      rw [matchProperty, adtStringEq_enc hp, decide_eq_false (hne p (by simp))]
      rfl
    have hstep := ih n _ hps (fun q hq => hne q (by simp [hq]))
    rw [List.length_cons, Nat.add_right_comm, propertyLoop, hother, List.length_append,
      ← Nat.add_assoc, ← hstep, ← nextProperty_enc hp]

/-! ### A node in place -/

/-- The tree `t` is stored at offset `o` of a blob of fewer than `2^31` bytes. -/
structure Stored (adt : Blob) (o : Nat) (t : AdtTree) : Prop where
  holds : Holds adt o t.enc
  small : o + t.enc.length < 2 ^ 31

def childrenAt (o : Nat) (t : AdtTree) : Nat := o + 8 + (encProps t.props).length

namespace Stored

variable {adt : Blob} {o : Nat} {t : AdtTree} (h : Stored adt o t)

include h

theorem fields : adtGetPropertyCount adt (BitVec.ofNat 32 o) = BitVec.ofNat 32 t.props.length ∧
    adtGetChildCount adt (BitVec.ofNat 32 o) = BitVec.ofNat 32 t.children.length ∧
    Holds adt (o + 8) (encProps t.props) ∧ Holds adt (childrenAt o t) (encAll t.children) := by
  have hall := h.holds
  rw [AdtTree.enc_eq] at hall
  obtain ⟨hprops, hall⟩ := holds_append.mp hall
  obtain ⟨hchildren, hall⟩ := holds_append.mp hall
  obtain ⟨hps, hts⟩ := holds_append.mp hall
  refine ⟨read32_word hprops, ?_, hps, hts⟩
  have hread := read32_word hchildren
  rw [BitVec.ofNat_add] at hread
  exact hread

theorem toNat_counts : (BitVec.ofNat 32 t.props.length).toNat = t.props.length ∧
    (BitVec.ofNat 32 t.children.length).toNat = t.children.length := by
  have hlen := t.length_enc
  have hprops := length_le_encProps t.props
  have hchildren := length_le_encAll t.children
  have hsmall := h.small
  simp only [BitVec.toNat_ofNat]
  constructor
  · exact Nat.mod_eq_of_lt (by omega)
  · exact Nat.mod_eq_of_lt (by omega)

theorem firstChild :
    adtFirstChildOffset adt (BitVec.ofNat 32 o) = BitVec.ofNat 32 (childrenAt o t) := by
  obtain ⟨hcount, -, hprops, -⟩ := h.fields
  have hwalk := nextProperty_encProps t.props (o + 8) hprops
  rw [BitVec.ofNat_add] at hwalk
  rw [adtFirstChildOffset, hcount, h.toNat_counts.1]
  exact hwalk

theorem getprop_some {pre post : List AdtProp} {p : AdtProp} (hprops : t.props = pre ++ p :: post)
    (hpre : ∀ q ∈ pre, q.name ≠ p.name) :
    adtGetprop adt (BitVec.ofNat 32 o) p.name =
        some (BitVec.ofNat 32 (o + 8 + (encProps pre).length + 36),
          BitVec.ofNat 32 p.value.length) ∧
      Holds adt (o + 8 + (encProps pre).length) p.enc := by
  obtain ⟨hcount, -, hall, -⟩ := h.fields
  rw [hprops, encProps_append, encProps_cons] at hall
  obtain ⟨hbefore, hall⟩ := holds_append.mp hall
  have hp := (holds_append.mp hall).1
  refine ⟨?_, hp⟩
  have hskip := propertyLoop_skip pre (post.length + 1) (o + 8) hbefore hpre
  have hfound : matchProperty adt p.name (BitVec.ofNat 32 (o + 8 + (encProps pre).length)) none =
      .done (some (BitVec.ofNat 32 (o + 8 + (encProps pre).length))) := by
    rw [matchProperty, adtStringEq_enc hp, decide_eq_true rfl]
    rfl
  have hlen : (BitVec.ofNat 32 t.props.length).toNat = pre.length + (post.length + 1) := by
    rw [h.toNat_counts.1, hprops, List.length_append, List.length_cons]
  have hget : adtGetPropertyNamelen adt (BitVec.ofNat 32 o) p.name =
      some (BitVec.ofNat 32 (o + 8 + (encProps pre).length)) := by
    rw [propertyLoop, hfound] at hskip
    rw [adtGetPropertyNamelen, adtForeachProperty, hcount, hlen]
    rw [BitVec.ofNat_add] at hskip
    exact hskip
  rw [adtGetprop, hget, Option.map_some, propSize_enc hp, BitVec.ofNat_add _ 36]
  rfl

theorem getprop_none {name : List Byte} (hne : ∀ q ∈ t.props, q.name ≠ name) :
    adtGetprop adt (BitVec.ofNat 32 o) name = none := by
  obtain ⟨hcount, -, hall, -⟩ := h.fields
  have hskip := propertyLoop_skip t.props 0 (o + 8) hall hne
  rw [Nat.add_zero, propertyLoop, BitVec.ofNat_add] at hskip
  have hget : adtGetPropertyNamelen adt (BitVec.ofNat 32 o) name = none := by
    rw [adtGetPropertyNamelen, adtForeachProperty, hcount, h.toNat_counts.1]
    exact hskip
  rw [adtGetprop, hget, Option.map_none]

theorem getprop_value {name value : List Byte} (hvalue : t.value? name = some value) :
    ∃ v, adtGetprop adt (BitVec.ofNat 32 o) name =
        some (BitVec.ofNat 32 v, BitVec.ofNat 32 value.length) ∧
      Holds adt v value ∧ value.length < 2 ^ 20 := by
  obtain ⟨p, hfind, rfl⟩ := Option.map_eq_some_iff.mp hvalue
  obtain ⟨hname, pre, post, hprops, hpre⟩ := List.find?_eq_some_iff_append.mp hfind
  obtain rfl : p.name = name := of_decide_eq_true hname
  obtain ⟨hget, hp⟩ := h.getprop_some hprops (fun q hq => by simpa using hpre q hq)
  exact ⟨_, hget, (holds_enc hp).2.2, p.value_length⟩

theorem getprop_value_none {name : List Byte} (hvalue : t.value? name = none) :
    adtGetprop adt (BitVec.ofNat 32 o) name = none := by
  apply h.getprop_none
  intro q hq
  have hnone := List.find?_eq_none.mp (Option.map_eq_none_iff.mp hvalue) q hq
  simpa using hnone

theorem getpropU32 {name : List Byte} {n val : U32} (hvalue : t.value? name = some (leWord n)) :
    adtGetpropU32 adt (BitVec.ofNat 32 o) name val = n := by
  obtain ⟨v, hget, hholds, -⟩ := h.getprop_value hvalue
  have hload : adt.load (BitVec.ofNat 32 v) 4 = leWord n := hholds
  have hlen : BitVec.ofNat 32 (leWord n).length = 4 := by
    rw [length_leWord]
    rfl
  have hfour : (4 : U32).toNat = 4 := rfl
  rw [adtGetpropU32, adtGetpropCopy, hget, hlen]
  dsimp only
  rw [if_neg (by decide), hfour, hload]
  dsimp only
  rw [leNat_leWord rfl, BitVec.ofNat_toNat, BitVec.setWidth_eq]

end Stored

/-! ### Siblings -/

mutual

theorem nextSibling_enc {adt : Blob} : ∀ (t : AdtTree) {o fuel : Nat}, Stored adt o t →
    t.depth ≤ fuel →
    adtNextSiblingOffset adt fuel (BitVec.ofNat 32 o) = some (BitVec.ofNat 32 (o + t.enc.length))
  | .node first others children, o, fuel, h, hfuel => by
    obtain ⟨-, hcount, -, hchildren⟩ := h.fields
    rw [AdtTree.depth] at hfuel
    obtain ⟨fuel, rfl⟩ := Nat.exists_eq_succ_of_ne_zero (by omega : fuel ≠ 0)
    have hlen := (AdtTree.node first others children).length_enc
    have hsmall := h.small
    have hend : childrenAt o (.node first others children) + (encAll children).length =
        o + (AdtTree.node first others children).enc.length := by
      rw [hlen, childrenAt]
      exact (Nat.add_assoc ..).trans (by rw [AdtTree.children]; omega)
    have hall := nextSibling_encAll children hchildren (by rw [hend]; exact hsmall)
      (Nat.le_of_succ_le_succ hfuel)
    rw [adtNextSiblingOffset, hcount, h.toNat_counts.2, h.firstChild, ← hend]
    exact hall

theorem nextSibling_encAll {adt : Blob} : ∀ (ts : List AdtTree) {o fuel : Nat},
    Holds adt o (encAll ts) → o + (encAll ts).length < 2 ^ 31 → depthAll ts ≤ fuel →
    repeatedly (adtNextSiblingOffset adt fuel) ts.length (BitVec.ofNat 32 o) =
      some (BitVec.ofNat 32 (o + (encAll ts).length))
  | [], o, fuel, _, _, _ => rfl
  | t :: ts, o, fuel, h, hsmall, hfuel => by
    rw [encAll] at h hsmall ⊢
    rw [depthAll] at hfuel
    rw [List.length_append] at hsmall ⊢
    obtain ⟨ht, hts⟩ := holds_append.mp h
    have hfirst := nextSibling_enc t ⟨ht, by omega⟩ ((le_max_left _ _).trans hfuel)
    have hrest := nextSibling_encAll ts hts (by omega) ((le_max_right _ _).trans hfuel)
    rw [List.length_cons, repeatedly, hfirst, ← Nat.add_assoc]
    exact hrest

end

/-! ### Children -/

def childOffsets : Nat → List AdtTree → List Nat
  | _, [] => []
  | o, t :: ts => o :: childOffsets (o + t.enc.length) ts

theorem stored_children {adt : Blob} (ts : List AdtTree) :
    ∀ o, Holds adt o (encAll ts) → o + (encAll ts).length < 2 ^ 31 →
      List.Forall₂ (Stored adt) (childOffsets o ts) ts := by
  induction ts with
  | nil =>
    intro o _ _
    exact .nil
  | cons t ts ih =>
    intro o h hsmall
    rw [encAll] at h hsmall
    rw [List.length_append] at hsmall
    obtain ⟨ht, hts⟩ := holds_append.mp h
    exact .cons ⟨ht, by omega⟩ (ih _ hts (by omega))

theorem childLoop_encAll {adt : Blob} {fuel : Nat} {σ : Type}
    (body : U32 → σ → Option (ForInStep σ)) (ts : List AdtTree) :
    ∀ o s, Holds adt o (encAll ts) → o + (encAll ts).length < 2 ^ 31 → depthAll ts ≤ fuel →
      childLoop adt fuel body ts.length (BitVec.ofNat 32 o) s =
        forIn ((childOffsets o ts).map (BitVec.ofNat 32)) s body := by
  induction ts with
  | nil =>
    intro o s _ _ _
    rfl
  | cons t ts ih =>
    intro o s h hsmall hfuel
    rw [encAll] at h hsmall
    rw [List.length_append] at hsmall
    rw [depthAll] at hfuel
    obtain ⟨ht, hts⟩ := holds_append.mp h
    have hnext := nextSibling_enc t ⟨ht, by omega⟩ ((le_max_left _ _).trans hfuel)
    rw [List.length_cons, childLoop, childOffsets, List.map_cons, List.forIn_cons]
    -- the loop looks for the next sibling only after a round that goes on
    congr 1
    funext r
    cases r with
    | done s' => rfl
    | yield s' =>
      dsimp only
      rw [hnext]
      exact ih _ s' hts (by omega) ((le_max_right _ _).trans hfuel)

namespace Stored

variable {adt : Blob} {o : Nat} {t : AdtTree} (h : Stored adt o t)

include h

theorem childrenAt_small : childrenAt o t + (encAll t.children).length < 2 ^ 31 := by
  have hsmall := h.small
  rw [t.length_enc] at hsmall
  rw [childrenAt]
  omega

theorem children : List.Forall₂ (Stored adt) (childOffsets (childrenAt o t) t.children)
    t.children :=
  stored_children _ _ h.fields.2.2.2 h.childrenAt_small

theorem foreachChild {fuel : Nat} (hfuel : t.depth ≤ fuel) {σ : Type} (init : σ)
    (body : U32 → σ → Option (ForInStep σ)) :
    adtForeachChild adt fuel (BitVec.ofNat 32 o) init body =
      forIn ((childOffsets (childrenAt o t) t.children).map (BitVec.ofNat 32)) init body := by
  obtain ⟨-, hcount, -, hchildren⟩ := h.fields
  rw [t.depth_eq] at hfuel
  rw [adtForeachChild, hcount, h.toNat_counts.2, h.firstChild]
  exact childLoop_encAll body _ _ _ hchildren h.childrenAt_small (Nat.le_of_succ_le hfuel)

/-- The value and the length of the first property of a name, as `adt_getprop`
    delivers them. -/
theorem getprop (name : List Byte) :
    (adtGetprop adt (BitVec.ofNat 32 o) name).map (fun v => (adt.load v.1 v.2.toNat, v.2)) =
      (t.props.find? (fun p => p.name = name)).map
        (fun p => (p.value, BitVec.ofNat 32 p.value.length)) := by
  cases hfind : t.props.find? (fun p => p.name = name) with
  | none =>
    have hvalue : t.value? name = none := by rw [AdtTree.value?, hfind, Option.map_none]
    rw [h.getprop_value_none hvalue]
    rfl
  | some p =>
    have hvalue : t.value? name = some p.value := by rw [AdtTree.value?, hfind, Option.map_some]
    obtain ⟨v, hget, hholds, hlt⟩ := h.getprop_value hvalue
    have hlen : (BitVec.ofNat 32 p.value.length).toNat = p.value.length :=
      Nat.mod_eq_of_lt (hlt.trans (by decide))
    have hload : adt.load (BitVec.ofNat 32 v) p.value.length = p.value := hholds
    rw [hget, Option.map_some, Option.map_some, hlen, hload]

/-- **Navigation.**  The walks of `adt.c` over a stored tree follow the tree: they
    find the first child, the sibling, all children in order, and each property by
    its name. -/
theorem navigation {fuel : Nat} (hfuel : t.depth ≤ fuel) :
    (adtFirstChildOffset adt (BitVec.ofNat 32 o) = BitVec.ofNat 32 (childrenAt o t) ∧
      Holds adt (childrenAt o t) (encAll t.children)) ∧
    adtNextSiblingOffset adt fuel (BitVec.ofNat 32 o) = some (BitVec.ofNat 32 (o + t.enc.length)) ∧
    (List.Forall₂ (Stored adt) (childOffsets (childrenAt o t) t.children) t.children ∧
      ∀ {σ : Type} (init : σ) (body : U32 → σ → Option (ForInStep σ)),
        adtForeachChild adt fuel (BitVec.ofNat 32 o) init body =
          forIn ((childOffsets (childrenAt o t) t.children).map (BitVec.ofNat 32)) init body) ∧
    ∀ name, (adtGetprop adt (BitVec.ofNat 32 o) name).map (fun v => (adt.load v.1 v.2.toNat, v.2)) =
      (t.props.find? (fun p => p.name = name)).map
        (fun p => (p.value, BitVec.ofNat 32 p.value.length)) := by
  refine ⟨⟨h.firstChild, h.fields.2.2.2⟩, nextSibling_enc t h hfuel, ⟨h.children, ?_⟩, h.getprop⟩
  intro σ init body
  exact h.foreachChild hfuel init body

end Stored

/-! ### A tree in memory -/

def blobOf (bs : List Byte) : Blob := fun a => bs.getD a.toNat 0

theorem stored_blobOf {t : AdtTree} (h : t.enc.length < 2 ^ 31) : Stored (blobOf t.enc) 0 t := by
  refine ⟨?_, by omega⟩
  apply List.ext_getElem (by simp)
  intro i hi hi'
  have hnat : (BitVec.ofNat 32 0 + BitVec.ofNat 32 i).toNat = i := by
    rw [← BitVec.ofNat_add, BitVec.toNat_ofNat, Nat.zero_add]
    exact Nat.mod_eq_of_lt (by omega)
  rw [Mem.getElem_load, blobOf, hnat]
  simp [hi']

def nameProp (value : List Char) (h : (cstr value ++ [0]).length < 2 ^ 20) : AdtProp :=
  ⟨cstr ['n', 'a', 'm', 'e'], cstr value ++ [0], by decide, by decide, h⟩

def cellsProp (name : List Byte) (n : U32) (hn : name.length ≤ 31) (h0 : ∀ b ∈ name, b ≠ 0) :
    AdtProp :=
  ⟨name, leWord n, hn, h0, by rw [length_leWord]; decide⟩

theorem length_addressCells : addressCells.length ≤ 31 := by decide

theorem addressCells_ne_zero : ∀ b ∈ addressCells, b ≠ 0 := by decide

theorem length_sizeCells : sizeCells.length ≤ 31 := by decide

theorem sizeCells_ne_zero : ∀ b ∈ sizeCells, b ≠ 0 := by decide

theorem length_rangesName : rangesName.length ≤ 31 := by decide

theorem rangesName_ne_zero : ∀ b ∈ rangesName, b ≠ 0 := by decide

/-- The root, a bus `/arm-io@3` and a device `/arm-io@3/uart2`, with the numbers of
    address cells of the root and of the bus.  A size has one cell. -/
def busTree (rootCells busCells : U32) (ranges reg : List Byte) (hranges : ranges.length < 2 ^ 20)
    (hreg : reg.length < 2 ^ 20) : AdtTree :=
  .node (nameProp ['d', 't'] (by decide))
    [cellsProp addressCells rootCells (by decide) (by decide),
      cellsProp sizeCells 1 (by decide) (by decide)]
    [.node (nameProp ['a', 'r', 'm', '-', 'i', 'o', '@', '3'] (by decide))
      [cellsProp addressCells busCells (by decide) (by decide),
        cellsProp sizeCells 1 (by decide) (by decide),
        ⟨rangesName, ranges, by decide, by decide, hranges⟩]
      [.node (nameProp ['u', 'a', 'r', 't', '2'] (by decide))
        [⟨cstr ['r', 'e', 'g'], reg, by decide, by decide, hreg⟩] []]]

def sampleTree : AdtTree :=
  busTree 1 1 (leWord (0 : U32) ++ leWord (0x38000000 : U32) ++ leWord (0x8000000 : U32))
    (leWord (0x2500000 : U32) ++ leWord (0x1000 : U32)) (by decide) (by decide)

def wideBus : AdtTree := busTree 1 3 [] (leWord (0x2500000 : U32)) (by decide) (by decide)

def wideRoot : AdtTree :=
  busTree 3 1 [] (leWord (0x2500000 : U32) ++ leWord (0x1000 : U32)) (by decide) (by decide)

def regRoot : AdtTree :=
  .node (nameProp ['d', 't'] (by decide))
    [cellsProp addressCells 1 (by decide) (by decide),
      cellsProp sizeCells 1 (by decide) (by decide),
      ⟨cstr ['r', 'e', 'g'], leWord (0x2500000 : U32) ++ leWord (0x1000 : U32), by decide,
        by decide, by decide⟩] []

theorem navigation_sampleTree :
    adtNextSiblingOffset (blobOf sampleTree.enc) 3 0 =
      some (BitVec.ofNat 32 sampleTree.enc.length) := by
  have hstored : Stored (blobOf sampleTree.enc) 0 sampleTree := stored_blobOf (by decide +kernel)
  have hsibling := (hstored.navigation (by decide : sampleTree.depth ≤ 3)).2.1
  rw [Nat.zero_add] at hsibling
  exact hsibling

end MiniHaywire.Adt
