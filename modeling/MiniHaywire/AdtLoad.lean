import MiniHaywire.AdtProps

/-!
# Loading and writing back a device tree

`load_adt` parses the blob and turns every node into an `ADTNode`.  The properties of
a node are parsed in two passes: in the order in which they stand, and once more where
the first pass found no type, now with all properties of the node at hand.  A property
that is given a type in the second pass has to be built as it was, or loading fails.

A property that was given its type in the first pass is not checked.  So the tree that
was loaded is written back as it was exactly if every property fits the type it was
given (`adt_roundtrip`).  This leaves the floating-point types out, since nothing is
assumed of how they are built.
-/

namespace MiniHaywire.AdtClient

open MiniHaywire.Construct MiniHaywire.Adt

/-! ### Nodes -/

/-- A property of an `ADTNode`: its raw value, and its entries in `_types` and
    `_properties`. -/
structure Entry where
  name : List Byte
  raw : List Byte
  type : Option Format
  template : Bool
  value : Val

def dict (es : List Entry) : Dict := es.map fun e => (e.name, e.value)

inductive Node where
  | node (parentPath : List Byte) (entries : List Entry) (children : List Node)

/-- Assignment to a key: in its place, or at the end if it is new. -/
def setEntry (e : Entry) : List Entry → List Entry
  | [] => [e]
  | x :: es => if x.name = e.name then e :: es else x :: setEntry e es

def nameKey : List Byte := ascii "name"

/-- The name of the node, from its first property of that name. -/
def nodeName (ps : List PropStruct) : Except Err (List Byte) :=
  match ps.find? (fun p => p.name = nameKey) with
  | none => .error .other
  | some p => if isAscii p.value then .ok (stripNul p.value) else .error .other

def nodePath (parentPath : List Byte) (es : List Entry) : Except Err (List Byte) :=
  match (dict es).lookup nameKey with
  | some (.str s) => .ok (parentPath ++ s)
  | _ => .error .other

/-! ### Loading -/

section Loading

variable [Library]

def firstPass (scope : Scope) : List PropStruct → List Entry → Except Err (List Entry)
  | [], es => .ok es
  | p :: ps, es => do
    let (t, v) ← parseProp { scope with own := dict es } p.name p.value (isTemplate p.size)
    firstPass scope ps (setEntry ⟨p.name, p.value, t, isTemplate p.size, v⟩ es)

/-- What `parse_prop` is given of a value without a type: the bytes, or nothing. -/
def rawBytes : Val → List Byte
  | .bytes bs => bs
  | _ => []

/-- The second pass over the properties; `done` is behind it. -/
def secondPass (scope : Scope) (parentPath : List Byte) :
    List Entry → List Entry → Except Err (List Entry)
  | done, [] => .ok done
  | done, e :: es =>
    match e.type with
    | some _ => secondPass scope parentPath (done ++ [e]) es
    | none => do
      let (t, v) ← parseProp { scope with own := dict (done ++ e :: es) } e.name (rawBytes e.value)
        e.template
      let e' := { e with type := t, value := v }
      let _ ← nodePath parentPath (done ++ e' :: es)
      let out ← buildProp e'.name v t
      if out = e'.raw then secondPass scope parentPath (done ++ [e']) es else .error .other

mutual

/-- `ADTNode(val, path, parent)`. -/
def loadNode (parents : List Dict) (parentPath : List Byte) : NodeStruct → Except Err Node
  | .node properties children => do
    let name ← nodeName properties
    let scope : Scope := ⟨parentPath ++ name, name, [], parents⟩
    let es ← firstPass scope properties []
    let es ← secondPass scope parentPath [] es
    let ns ← loadNodes (dict es :: parents) parentPath es children
    .ok (.node parentPath es ns)

def loadNodes (parents : List Dict) (parentPath : List Byte) (es : List Entry) :
    List NodeStruct → Except Err (List Node)
  | [] => .ok []
  | t :: ts => do
    let path ← nodePath parentPath es
    let n ← loadNode parents (path ++ ascii "/") t
    let ns ← loadNodes parents parentPath es ts
    .ok (n :: ns)

end

def loadAdt (data : List Byte) : Except Err Node := do
  let (t, _) ← parseBlob data
  loadNode [] (ascii "/") t

/-! ### Writing back -/

/-- A property as `tostruct` writes it, with the padding of `Aligned`.  With 2 GiB or more the
    length is not what `ADTPropertyStruct` takes it for, and building fails. -/
def Entry.tostruct (e : Entry) : Except Err PropStruct := do
  let value ← buildProp e.name e.value e.type
  if value.length < 2 ^ 31 then
    .ok ⟨e.name,
      BitVec.ofNat 32 value.length ||| (if e.template then 0x80000000 else 0), value,
      List.replicate (padLength (36 + value.length)) 0⟩
  else .error .other

def tostructEntries (parentPath : List Byte) (all : List Entry) :
    List Entry → Except Err (List PropStruct)
  | [] => .ok []
  | e :: es => do
    let _ ← nodePath parentPath all
    let p ← e.tostruct
    let ps ← tostructEntries parentPath all es
    .ok (p :: ps)

mutual

def Node.tostruct : Node → Except Err NodeStruct
  | .node parentPath entries children => do
    let ps ← tostructEntries parentPath entries entries
    let ts ← tostructNodes children
    .ok (.node ps ts)

def tostructNodes : List Node → Except Err (List NodeStruct)
  | [] => .ok []
  | n :: ns => do
    let t ← n.tostruct
    let ts ← tostructNodes ns
    .ok (t :: ts)

end

/-- `Aligned(4, ADTPropertyStruct)`, which pads with zeros. -/
def PropStruct.build (p : PropStruct) : Except Err (List Byte) := do
  let name ← Library.build (.padded 32) [] (.str p.name)
  let size ← Library.build (.uint 4) [] (.num p.size.toNat)
  let value ← Library.build (.bytes (maskedSize p.size)) [] (.bytes p.value)
  .ok (name ++ (size ++ (value ++ List.replicate (padLength (36 + p.value.length)) 0)))

mutual

def NodeStruct.build : NodeStruct → Except Err (List Byte)
  | .node properties children => do
    let propertyCount ← Library.build (.uint 4) [] (.num properties.length)
    let childCount ← Library.build (.uint 4) [] (.num children.length)
    let ps ← buildAll PropStruct.build properties
    let ts ← buildNodeStructs children
    .ok (propertyCount ++ (childCount ++ (ps ++ ts)))

def buildNodeStructs : List NodeStruct → Except Err (List Byte)
  | [] => .ok []
  | t :: ts => do
    let out ← t.build
    let outs ← buildNodeStructs ts
    .ok (out ++ outs)

end

def Node.build (n : Node) : Except Err (List Byte) := do
  let t ← n.tostruct
  t.build

end Loading

/-! ### All nodes of a tree -/

mutual

def NodeStruct.All (P : List PropStruct → Prop) : NodeStruct → Prop
  | .node properties children => P properties ∧ allNodeStructs P children

def allNodeStructs (P : List PropStruct → Prop) : List NodeStruct → Prop
  | [] => True
  | t :: ts => t.All P ∧ allNodeStructs P ts

end

mutual

def Node.All (P : List Entry → Prop) : Node → Prop
  | .node _ entries children => P entries ∧ allNodes P children

def allNodes (P : List Entry → Prop) : List Node → Prop
  | [] => True
  | n :: ns => n.All P ∧ allNodes P ns

end

def ZeroPadded (ps : List PropStruct) : Prop := ∀ p ∈ ps, ∀ b ∈ p.pad, b = 0

def DistinctNames (ps : List PropStruct) : Prop := (ps.map PropStruct.name).Nodup

instance decidableZeroPadded (ps : List PropStruct) : Decidable (ZeroPadded ps) :=
  inferInstanceAs (Decidable (∀ p ∈ ps, ∀ b ∈ p.pad, b = 0))

instance decidableDistinctNames (ps : List PropStruct) : Decidable (DistinctNames ps) :=
  inferInstanceAs (Decidable (ps.map PropStruct.name).Nodup)

mutual

instance NodeStruct.decidableAll (P : List PropStruct → Prop) [DecidablePred P] :
    (t : NodeStruct) → Decidable (t.All P)
  | .node properties children =>
    have := decidableAllNodeStructs P children
    inferInstanceAs (Decidable (P properties ∧ allNodeStructs P children))

instance decidableAllNodeStructs (P : List PropStruct → Prop) [DecidablePred P] :
    (ts : List NodeStruct) → Decidable (allNodeStructs P ts)
  | [] => isTrue trivial
  | t :: ts =>
    have := t.decidableAll P
    have := decidableAllNodeStructs P ts
    inferInstanceAs (Decidable (t.All P ∧ allNodeStructs P ts))

end

/-- Every property fits the type it was given. -/
def EntriesFit [Library] (es : List Entry) : Prop := ∀ e ∈ es, TypeFits e.raw e.type

/-- No property was given a floating-point type. -/
def NoFloats (es : List Entry) : Prop := ∀ e ∈ es, e.type.any Format.floating = false

instance decidableNoFloats (es : List Entry) : Decidable (NoFloats es) :=
  inferInstanceAs (Decidable (∀ e ∈ es, e.type.any Format.floating = false))

mutual

instance Node.decidableAll (P : List Entry → Prop) [DecidablePred P] :
    (n : Node) → Decidable (n.All P)
  | .node _ entries children =>
    have := decidableAllNodes P children
    inferInstanceAs (Decidable (P entries ∧ allNodes P children))

instance decidableAllNodes (P : List Entry → Prop) [DecidablePred P] :
    (ns : List Node) → Decidable (allNodes P ns)
  | [] => isTrue trivial
  | n :: ns =>
    have := n.decidableAll P
    have := decidableAllNodes P ns
    inferInstanceAs (Decidable (n.All P ∧ allNodes P ns))

end

/-! ### Keys -/

def findEntry (key : List Byte) (es : List Entry) : Option Entry := es.find? (fun e => e.name = key)

section Keys

variable {key : List Byte} {e : Entry} {es : List Entry}

theorem findEntry_cons_self (h : e.name = key) : findEntry key (e :: es) = some e :=
  List.find?_cons_of_pos (by simpa using h)

theorem findEntry_cons_ne (h : e.name ≠ key) : findEntry key (e :: es) = findEntry key es :=
  List.find?_cons_of_neg (by simpa using h)

theorem lookup_dict (key : List Byte) (es : List Entry) :
    (dict es).lookup key = (findEntry key es).map Entry.value := by
  induction es with
  | nil => rfl
  | cons e es ih =>
    change List.lookup key ((e.name, e.value) :: dict es) = _
    rw [List.lookup_cons]
    by_cases h : e.name = key
    · rw [findEntry_cons_self h, h, beq_self_eq_true]
      rfl
    · rw [findEntry_cons_ne h, beq_eq_false_iff_ne.mpr (Ne.symm h), ← ih]

theorem findEntry_eq_none : findEntry key es = none ↔ key ∉ es.map Entry.name := by
  rw [findEntry, List.find?_eq_none, List.mem_map]
  constructor
  · rintro h ⟨e, he, rfl⟩
    exact h e he (by simp)
  · intro h e he heq
    exact h ⟨e, he, by simpa using heq⟩

theorem findEntry_setEntry (key : List Byte) (e : Entry) (es : List Entry) :
    findEntry key (setEntry e es) = if e.name = key then some e else findEntry key es := by
  induction es with
  | nil =>
    by_cases h : e.name = key
    · rw [if_pos h]
      exact findEntry_cons_self h
    · rw [if_neg h]
      exact findEntry_cons_ne h
  | cons x es ih =>
    rw [setEntry]
    by_cases hx : x.name = e.name
    · rw [if_pos hx]
      by_cases h : e.name = key
      · rw [if_pos h, findEntry_cons_self h]
      · rw [if_neg h, findEntry_cons_ne h, findEntry_cons_ne (by rw [hx]; exact h)]
    · rw [if_neg hx]
      by_cases hkey : x.name = key
      · rw [findEntry_cons_self hkey, findEntry_cons_self hkey, if_neg]
        rintro rfl
        exact hx hkey
      · rw [findEntry_cons_ne hkey, findEntry_cons_ne hkey, ih]

theorem setEntry_new (h : e.name ∉ es.map Entry.name) : setEntry e es = es ++ [e] := by
  induction es with
  | nil => rfl
  | cons x es ih =>
    rw [List.map_cons, List.mem_cons, not_or] at h
    rw [setEntry, if_neg (Ne.symm h.1), ih h.2]
    rfl

theorem setEntry_names (h : e.name ∈ es.map Entry.name) :
    (setEntry e es).map Entry.name = es.map Entry.name := by
  induction es with
  | nil => contradiction
  | cons x es ih =>
    rw [setEntry]
    by_cases hx : x.name = e.name
    · rw [if_pos hx, List.map_cons, List.map_cons, hx]
    · rw [if_neg hx, List.map_cons, List.map_cons, ih]
      exact (List.mem_cons.mp h).resolve_left (Ne.symm hx)

theorem mem_setEntry {x : Entry} (h : x ∈ setEntry e es) : x = e ∨ x ∈ es := by
  induction es with
  | nil => exact .inl (List.mem_singleton.mp h)
  | cons y es ih =>
    rw [setEntry] at h
    split at h
    · exact (List.mem_cons.mp h).imp_right (List.mem_cons_of_mem y)
    · rcases List.mem_cons.mp h with rfl | h
      · exact .inr List.mem_cons_self
      · exact (ih h).imp_right (List.mem_cons_of_mem y)

theorem findEntry_replace {e' : Entry} (pre post : List Entry) (hname : e'.name = e.name)
    (h : e.name ≠ key) : findEntry key (pre ++ e' :: post) = findEntry key (pre ++ e :: post) := by
  have hcons : (e' :: post).find? (fun x => x.name = key) =
      (e :: post).find? (fun x => x.name = key) :=
    (findEntry_cons_ne (hname.trans_ne h)).trans (findEntry_cons_ne h).symm
  rw [findEntry, findEntry, List.find?_append, List.find?_append, hcons]

theorem findEntry_middle {pre post : List Entry} (hkey : e.name = key)
    (hpre : key ∉ pre.map Entry.name) : findEntry key (pre ++ e :: post) = some e := by
  have hnone : pre.find? (fun x => x.name = key) = none := findEntry_eq_none.mpr hpre
  rw [findEntry, List.find?_append, hnone]
  exact findEntry_cons_self hkey

theorem findEntry_replace_untyped {done todo : List Entry} {e' x : Entry}
    (hname : e'.name = e.name) (hnone : e.type = none) (hbefore : e.name ∉ done.map Entry.name)
    (h : findEntry key (done ++ e :: todo) = some x) (hsome : x.type ≠ none) :
    findEntry key (done ++ e' :: todo) = some x := by
  by_cases hkey : e.name = key
  · rw [findEntry_middle hkey (by rw [← hkey]; exact hbefore)] at h
    cases h
    exact absurd hnone hsome
  · rw [← h]
    exact findEntry_replace done todo hname hkey

end Keys

/-! ### What was loaded -/

theorem devType_none {scope : Scope} {name : List Byte} {t : Option Format}
    (hname : ∀ dev ∈ devProperties, ∀ c ∈ dev.2, ∀ k ∈ c.2, fnmatch name k.1 = false)
    (h : devType scope name = .ok t) : t = none := by
  unfold devType at h
  split at h
  · exact (Except.ok.inj h).symm
  · rename_i props hprops
    obtain ⟨pattern, hdev⟩ := devProps_mem hprops
    split at h
    · rename_i hany
      obtain ⟨c, hc, hany⟩ := List.any_eq_true.mp hany
      obtain ⟨k, hk, hmatch⟩ := List.any_eq_true.mp hany
      rw [hname _ hdev c hc k hk] at hmatch
      contradiction
    · exact (Except.ok.inj h).symm

theorem exists_last {key : List Byte} {ps : List PropStruct} (h : key ∈ ps.map PropStruct.name) :
    ∃ pre p post, ps = pre ++ p :: post ∧ p.name = key ∧ key ∉ post.map PropStruct.name := by
  induction ps with
  | nil => contradiction
  | cons q ps ih =>
    by_cases hmem : key ∈ ps.map PropStruct.name
    · obtain ⟨pre, p, post, rfl, hp, hpost⟩ := ih hmem
      exact ⟨q :: pre, p, post, rfl, hp, hpost⟩
    · exact ⟨[], q, ps, rfl, ((List.mem_cons.mp h).resolve_right hmem).symm, hmem⟩

section Load

variable [Library] {scope : Scope} {parentPath : List Byte}

structure EntryOf (e : Entry) (p : PropStruct) : Prop where
  name : e.name = p.name
  raw : e.raw = p.value
  template : e.template = isTemplate p.size
  parsed : Parsed e.raw e.type e.value

/-- After the first pass an entry holds what was parsed, and the name of the node is a string
    or still missing. -/
structure FirstEntry (e : Entry) : Prop where
  parsed : Parsed e.raw e.type e.value
  name : e.name = nameKey → (∃ s, e.value = .str s) ∨ (e.type = none ∧ e.value = .none)

theorem cstring_parse {raw : List Byte} {v : Val}
    (h : (Format.plain .cstring).parse raw = .ok v) : ∃ s, v = .str s := by
  rw [Format.parse, Library.parse_cstring] at h
  obtain ⟨⟨u, rest⟩, hu, h⟩ := except_bind_eq_ok h
  obtain ⟨-, rfl⟩ := terminated_eq_ok h
  obtain ⟨⟨s, rest'⟩, -, hu⟩ := except_bind_eq_ok hu
  obtain ⟨x, hx, hu⟩ := except_bind_eq_ok hu
  cases hu
  exact ⟨s, (decodeAscii_eq_ok hx).2⟩

theorem parseProp_name {raw : List Byte} {template : Bool} {t : Option Format} {v : Val}
    (h : parseProp scope nameKey raw template = .ok (t, v)) :
    (∃ s, v = .str s) ∨ (t = none ∧ v = .none) := by
  unfold parseProp at h
  split at h
  · obtain ⟨value, hvalue, h⟩ := except_bind_eq_ok h
    cases h
    exact .inl (cstring_parse hvalue)
  · obtain ⟨dev, hdev, h⟩ := except_bind_eq_ok h
    obtain rfl := devType_none (by decide +kernel) hdev
    split at h
    · cases h
      exact .inr ⟨rfl, rfl⟩
    · have hchoose : chooseType scope nameKey raw (functionType nameKey raw none) =
          .ok (.typed none) := rfl
      rw [hchoose, except_ok_bind] at h
      obtain ⟨value, hvalue, h⟩ := except_bind_eq_ok h
      cases h
      exact .inl (cstring_parse hvalue)

theorem firstEntry {name raw : List Byte} {template : Bool} {t : Option Format} {v : Val}
    (h : parseProp scope name raw template = .ok (t, v)) :
    FirstEntry ⟨name, raw, t, template, v⟩ := by
  refine ⟨parseProp_parsed h, ?_⟩
  intro hkey
  change name = nameKey at hkey
  rw [hkey] at h
  exact parseProp_name h

theorem firstPass_all (ps : List PropStruct) (es : List Entry) {es' : List Entry}
    (hes : (es.map Entry.name).Nodup ∧ ∀ e ∈ es, FirstEntry e)
    (h : firstPass scope ps es = .ok es') :
    (es'.map Entry.name).Nodup ∧ ∀ e ∈ es', FirstEntry e := by
  induction ps generalizing es with
  | nil =>
    cases h
    exact hes
  | cons p ps ih =>
    rw [firstPass] at h
    obtain ⟨⟨t, v⟩, hparse, h⟩ := except_bind_eq_ok h
    refine ih _ ⟨?_, ?_⟩ h
    · by_cases hmem : p.name ∈ es.map Entry.name
      · rw [setEntry_names hmem]
        exact hes.1
      · rw [setEntry_new hmem, List.map_append]
        exact hes.1.append (by simp) (by simpa using hmem)
    · intro x hx
      rcases mem_setEntry hx with rfl | hx
      · exact firstEntry hparse
      · exact hes.2 x hx

theorem firstPass_append (ps qs : List PropStruct) (es : List Entry) :
    firstPass scope (ps ++ qs) es = (firstPass scope ps es >>= firstPass scope qs) := by
  induction ps generalizing es with
  | nil => rfl
  | cons p ps ih =>
    rw [List.cons_append, firstPass, firstPass]
    cases parseProp { scope with own := dict es } p.name p.value (isTemplate p.size) with
    | error e => rfl
    | ok r => exact ih _

theorem firstPass_other {key : List Byte} (ps : List PropStruct) {es es' : List Entry}
    (hkey : key ∉ ps.map PropStruct.name) (h : firstPass scope ps es = .ok es') :
    findEntry key es' = findEntry key es := by
  induction ps generalizing es with
  | nil => rw [Except.ok.inj h]
  | cons p ps ih =>
    rw [List.map_cons, List.mem_cons, not_or] at hkey
    rw [firstPass] at h
    obtain ⟨⟨t, v⟩, -, h⟩ := except_bind_eq_ok h
    rw [ih hkey.2 h, findEntry_setEntry]
    exact if_neg (Ne.symm hkey.1)

theorem firstPass_last {pre post : List PropStruct} {p : PropStruct} {es es' : List Entry}
    (hpost : p.name ∉ post.map PropStruct.name)
    (h : firstPass scope (pre ++ p :: post) es = .ok es') :
    ∃ es₀ t v, firstPass scope pre es = .ok es₀ ∧
      parseProp { scope with own := dict es₀ } p.name p.value (isTemplate p.size) = .ok (t, v) ∧
      findEntry p.name es' = some ⟨p.name, p.value, t, isTemplate p.size, v⟩ := by
  rw [firstPass_append] at h
  obtain ⟨es₀, hpre, h⟩ := except_bind_eq_ok h
  rw [firstPass] at h
  obtain ⟨⟨t, v⟩, hparse, h⟩ := except_bind_eq_ok h
  refine ⟨es₀, t, v, hpre, hparse, ?_⟩
  rw [firstPass_other post hpost h, findEntry_setEntry]
  exact if_pos rfl

theorem firstPass_entries (ps : List PropStruct) (es : List Entry) {es' : List Entry}
    (hnames : (es.map Entry.name ++ ps.map PropStruct.name).Nodup)
    (h : firstPass scope ps es = .ok es') :
    ∃ new, es' = es ++ new ∧ List.Forall₂ EntryOf new ps := by
  induction ps generalizing es with
  | nil =>
    obtain rfl := Except.ok.inj h
    exact ⟨[], (List.append_nil es).symm, .nil⟩
  | cons p ps ih =>
    rw [firstPass] at h
    obtain ⟨⟨t, v⟩, hparse, h⟩ := except_bind_eq_ok h
    have hfresh : p.name ∉ es.map Entry.name := by
      intro hmem
      exact (List.nodup_append.mp hnames).2.2 p.name hmem p.name (by simp) rfl
    dsimp only at h
    rw [setEntry_new hfresh] at h
    have hnames' : ((es ++ [(⟨p.name, p.value, t, isTemplate p.size, v⟩ : Entry)]).map
        Entry.name ++ ps.map PropStruct.name).Nodup := by
      rw [List.map_append, List.append_assoc]
      exact hnames
    obtain ⟨new, rfl, hnew⟩ := ih _ hnames' h
    exact ⟨⟨p.name, p.value, t, isTemplate p.size, v⟩ :: new, by rw [List.append_assoc]; rfl,
      .cons ⟨rfl, rfl, rfl, parseProp_parsed hparse⟩ hnew⟩

/-- The properties of `first` that were given a type have their values in `own`. -/
def TypedIn (first : List Entry) (own : Dict) : Prop :=
  ∀ key x, findEntry key first = some x → x.type ≠ none → own.lookup key = some x.value

/-- One entry after the second pass, and before it. -/
structure Reparsed (scope : Scope) (first : List Entry) (e' e : Entry) : Prop where
  name : e'.name = e.name
  raw : e'.raw = e.raw
  template : e'.template = e.template
  parsed : Parsed e'.raw e'.type e'.value
  str : e'.name = nameKey → ∃ s, e'.value = .str s
  kept : e.type ≠ none → e' = e
  again : e.type = none → ∃ own, TypedIn first own ∧
    parseProp { scope with own := own } e.name e.raw e.template = .ok (e'.type, e'.value)

theorem Parsed.rawBytes {raw : List Byte} {v : Val} (h : Parsed raw none v) :
    rawBytes v = raw := by
  cases h with
  | empty hraw =>
    rw [hraw]
    rfl
  | raw hraw => rfl

theorem secondPass_entries {first : List Entry} (todo done : List Entry) {es' : List Entry}
    (hnames : (done.map Entry.name ++ todo.map Entry.name).Nodup)
    (hfirst : ∀ e ∈ todo, FirstEntry e)
    (htyped : ∀ key x, findEntry key first = some x → x.type ≠ none →
      findEntry key (done ++ todo) = some x)
    (h : secondPass scope parentPath done todo = .ok es') :
    ∃ new, es' = done ++ new ∧ List.Forall₂ (Reparsed scope first) new todo := by
  induction todo generalizing done with
  | nil =>
    obtain rfl := Except.ok.inj h
    exact ⟨[], (List.append_nil done).symm, .nil⟩
  | cons e todo ih =>
    have hnext : ∀ e' : Entry, e'.name = e.name →
        ((done ++ [e']).map Entry.name ++ todo.map Entry.name).Nodup := by
      intro e' he'
      rw [List.map_append, List.append_assoc]
      change (done.map Entry.name ++ e'.name :: todo.map Entry.name).Nodup
      rw [he']
      exact hnames
    have hfirst' : ∀ x ∈ todo, FirstEntry x := fun x hx => hfirst x (List.mem_cons_of_mem e hx)
    obtain ⟨hthis, hname⟩ := hfirst e List.mem_cons_self
    have hbefore : e.name ∉ done.map Entry.name := by
      intro hmem
      exact (List.nodup_append.mp hnames).2.2 e.name hmem e.name (by simp) rfl
    rw [secondPass] at h
    split at h
    · rename_i f hf
      have hkept : e.type ≠ none := by rw [hf]; exact Option.some_ne_none f
      obtain ⟨new, rfl, hnew⟩ := ih _ (hnext e rfl) hfirst'
        (by rw [List.append_assoc]; exact htyped) h
      refine ⟨e :: new, by rw [List.append_assoc]; rfl,
        .cons ⟨rfl, rfl, rfl, hthis, ?_, fun _ => rfl, fun hnone => absurd hnone hkept⟩ hnew⟩
      intro hkey
      exact (hname hkey).resolve_right fun hnone => hkept hnone.1
    · rename_i hnone
      rw [hnone] at hthis
      obtain ⟨⟨t, v⟩, hparse, h⟩ := except_bind_eq_ok h
      obtain ⟨path, hpath, h⟩ := except_bind_eq_ok h
      obtain ⟨out, -, h⟩ := except_bind_eq_ok h
      rw [hthis.rawBytes] at hparse
      split at h
      · -- the entry that is replaced had no type
        have htyped' : ∀ key x, findEntry key first = some x → x.type ≠ none →
            findEntry key ((done ++ [{ e with type := t, value := v }]) ++ todo) = some x := by
          intro key x hx hsome
          rw [List.append_assoc]
          exact findEntry_replace_untyped (e := e) rfl hnone hbefore (htyped key x hx hsome) hsome
        obtain ⟨new, rfl, hnew⟩ := ih _ (hnext { e with type := t, value := v } rfl)
          hfirst' htyped' h
        refine ⟨{ e with type := t, value := v } :: new, by rw [List.append_assoc]; rfl,
          .cons ⟨rfl, rfl, rfl, parseProp_parsed hparse, ?_, fun hsome => absurd hnone hsome,
            fun _ => ⟨dict (done ++ e :: todo), ?_, hparse⟩⟩ hnew⟩
        · -- a node whose name is empty has no path
          intro hkey
          change e.name = nameKey at hkey
          have hparse' := hparse
          rw [hkey] at hparse'
          rcases parseProp_name hparse' with hstr | ⟨-, rfl⟩
          · exact hstr
          · rw [nodePath, lookup_dict,
              findEntry_middle (e := { e with type := t, value := .none }) hkey
                (by rw [← hkey]; exact hbefore)] at hpath
            contradiction
        · intro key x hx hsome
          rw [lookup_dict, htyped key x hx hsome, Option.map_some]
      · contradiction

theorem entries_reparsed {first es es₁ : List Entry} {ps : List PropStruct}
    (hes : List.Forall₂ (Reparsed scope first) es es₁) (h : List.Forall₂ EntryOf es₁ ps) :
    List.Forall₂ EntryOf es ps := by
  induction hes generalizing ps with
  | nil => exact h
  | cons her _ ih =>
    cases h with
    | cons hep h =>
      exact .cons ⟨her.name.trans hep.name, her.raw.trans hep.raw,
        her.template.trans hep.template, her.parsed⟩ (ih h)

theorem findEntry_reparsed {first es es₁ : List Entry}
    (hes : List.Forall₂ (Reparsed scope first) es es₁) (key : List Byte) :
    (findEntry key es₁ = none → findEntry key es = none) ∧
      ∀ e, findEntry key es₁ = some e → ∃ e', findEntry key es = some e' ∧
        Reparsed scope first e' e := by
  induction hes with
  | nil => exact ⟨id, fun e h => absurd h (by simp [findEntry])⟩
  | @cons e' e es es₁ her _ ih =>
    by_cases hkey : e.name = key
    · rw [findEntry_cons_self hkey, findEntry_cons_self (her.name.trans hkey)]
      refine ⟨fun h => absurd h (Option.some_ne_none e), ?_⟩
      intro x hx
      cases hx
      exact ⟨e', rfl, her⟩
    · rw [findEntry_cons_ne hkey, findEntry_cons_ne (her.name.trans_ne hkey)]
      exact ih

theorem loadNode_passes {parents : List Dict} {ps : List PropStruct} {ts : List NodeStruct}
    {n : Node} (h : loadNode parents parentPath (.node ps ts) = .ok n) :
    ∃ name first es ns, nodeName ps = .ok name ∧
      firstPass ⟨parentPath ++ name, name, [], parents⟩ ps [] = .ok first ∧
      List.Forall₂ (Reparsed ⟨parentPath ++ name, name, [], parents⟩ first) es first ∧
      n = .node parentPath es ns ∧ loadNodes (dict es :: parents) parentPath es ts = .ok ns := by
  rw [loadNode] at h
  obtain ⟨name, hname, h⟩ := except_bind_eq_ok h
  obtain ⟨first, hfirst, h⟩ := except_bind_eq_ok h
  obtain ⟨es, hsecond, h⟩ := except_bind_eq_ok h
  obtain ⟨ns, hns, h⟩ := except_bind_eq_ok h
  obtain ⟨hnames, hall⟩ := firstPass_all ps [] ⟨by simp, by simp⟩ hfirst
  obtain ⟨new, heq, hes⟩ := secondPass_entries first [] hnames hall
    (fun _ _ hx _ => hx) hsecond
  rw [List.nil_append] at heq
  subst heq
  exact ⟨name, first, es, ns, hname, hfirst, hes, (Except.ok.inj h).symm, hns⟩

theorem dict_name {first es : List Entry} {ps : List PropStruct} {name : List Byte}
    (hname : nodeName ps = .ok name) (hfirst : firstPass scope ps [] = .ok first)
    (hes : List.Forall₂ (Reparsed scope first) es first) :
    ∃ s, (dict es).lookup nameKey = some (.str s) := by
  have hmem : nameKey ∈ ps.map PropStruct.name := by
    unfold nodeName at hname
    split at hname
    · contradiction
    · rename_i p hp
      have hkey : p.name = nameKey := by simpa using List.find?_some hp
      rw [← hkey]
      exact List.mem_map_of_mem (List.mem_of_find?_eq_some hp)
  obtain ⟨pre, p, post, rfl, hp, hpost⟩ := exists_last hmem
  obtain ⟨-, t, v, -, -, hentry⟩ := firstPass_last (by rw [hp]; exact hpost) hfirst
  rw [hp] at hentry
  obtain ⟨e', he', hre⟩ := (findEntry_reparsed hes nameKey).2 _ hentry
  obtain ⟨s, hs⟩ := hre.str hre.name
  refine ⟨s, ?_⟩
  rw [lookup_dict, he', Option.map_some, hs]

theorem loadNode_eq_ok {parents : List Dict} {ps : List PropStruct} {ts : List NodeStruct}
    {n : Node} (hnames : DistinctNames ps) (h : loadNode parents parentPath (.node ps ts) = .ok n) :
    ∃ es ns path, n = .node parentPath es ns ∧ List.Forall₂ EntryOf es ps ∧
      nodePath parentPath es = .ok path ∧
      loadNodes (dict es :: parents) parentPath es ts = .ok ns := by
  obtain ⟨name, first, es, ns, hname, hfirst, hes, hn, hns⟩ := loadNode_passes h
  obtain ⟨new, heq, hnew⟩ := firstPass_entries ps [] hnames hfirst
  rw [List.nil_append] at heq
  subst heq
  obtain ⟨s, hs⟩ := dict_name hname hfirst hes
  refine ⟨es, ns, parentPath ++ s, hn, entries_reparsed hes hnew, ?_, hns⟩
  rw [nodePath, hs]

end Load

/-! ### What is written back -/

theorem maskedSize_lt (size : U32) : maskedSize size < 2 ^ 31 := by
  have hflag := toNat_size size
  have hlt := size.isLt
  have hle : maskedSize size ≤ 0x7fffffff := by
    rw [maskedSize, BitVec.toNat_and]
    exact Nat.and_le_right
  omega

theorem size_parts {size : U32} {n : Nat} {b : Bool} (hn : n < 2 ^ 31)
    (h : size.toNat = n + (if b then 2 ^ 31 else 0)) :
    maskedSize size = n ∧ isTemplate size = b := by
  have hparts := toNat_size size
  have hlt := maskedSize_lt size
  rw [h] at hparts
  cases b <;> cases hflag : isTemplate size <;> rw [hflag] at hparts <;>
    simp only [Bool.false_eq_true, if_true, if_false] at hparts <;>
    first | exact ⟨by omega, rfl⟩ | omega

theorem toNat_size_or {n : Nat} (hn : n < 2 ^ 31) (b : Bool) :
    (BitVec.ofNat 32 n ||| (if b then 0x80000000 else 0) : U32).toNat =
      n + (if b then 2 ^ 31 else 0) := by
  have hnat : (BitVec.ofNat 32 n).toNat = n := by
    rw [BitVec.toNat_ofNat, Nat.mod_eq_of_lt (by omega)]
  rw [BitVec.toNat_or, hnat]
  cases b with
  | false => exact Nat.or_zero n
  | true =>
    have h : 2 ^ 31 * 1 + n = 2 ^ 31 * 1 ||| n := Nat.two_pow_add_eq_or_of_lt hn 1
    rw [Nat.mul_one] at h
    change n ||| 2 ^ 31 = n + 2 ^ 31
    rw [Nat.or_comm, ← h, Nat.add_comm]

theorem PropStruct.Valid.name_le {p : PropStruct} (h : p.Valid) : p.name.length ≤ 32 := by
  have hljust := h.length_name
  rw [ljust, List.length_append, List.length_replicate] at hljust
  omega

theorem buildAll_enc {α : Type} {b : α → Except Err (List Byte)} {enc : α → List Byte} (xs : List α)
    (h : ∀ x ∈ xs, b x = .ok (enc x)) : buildAll b xs = .ok (xs.flatMap enc) := by
  induction xs with
  | nil => rfl
  | cons x xs ih =>
    rw [buildAll, h x List.mem_cons_self, except_ok_bind,
      ih fun y hy => h y (List.mem_cons_of_mem x hy), except_ok_bind, List.flatMap_cons]

section Write

variable [Library] {e : Entry} {p : PropStruct} {parentPath path : List Byte}

theorem build_count {n : Nat} (h : n < 2 ^ 32) :
    Library.build (.uint 4) [] (.num n) = .ok (leBytes 4 n) := by
  rw [Library.build_uint, buildUint, if_pos (by omega)]

theorem PropStruct.build_eq (hp : p.Valid) (hpad : ∀ b ∈ p.pad, b = 0) : p.build = .ok p.enc := by
  have hzeros : List.replicate (padLength (36 + p.value.length)) 0 = p.pad := by
    rw [← hp.pad]
    exact (List.eq_replicate_of_mem hpad).symm
  rw [PropStruct.build, Library.build_padded, if_pos ⟨hp.ascii, hp.name_le⟩, except_ok_bind,
    build_count p.size.isLt, except_ok_bind, Library.build_bytes, if_pos hp.value, except_ok_bind,
    hzeros]
  rfl

mutual

theorem NodeStruct.build_eq : ∀ (t : NodeStruct), t.Valid → t.All ZeroPadded →
    t.build = .ok t.enc
  | .node ps ts, hvalid, hpad => by
    rw [NodeStruct.Valid] at hvalid
    rw [NodeStruct.All] at hpad
    obtain ⟨hps, hts, hpsv, htsv⟩ := hvalid
    rw [NodeStruct.build, build_count hps, except_ok_bind, build_count hts, except_ok_bind,
      buildAll_enc ps fun p hp => p.build_eq (hpsv p hp) (hpad.1 p hp), except_ok_bind,
      buildNodeStructs_eq ts htsv hpad.2, except_ok_bind, NodeStruct.enc]

theorem buildNodeStructs_eq : ∀ (ts : List NodeStruct), AllValid ts →
    allNodeStructs ZeroPadded ts → buildNodeStructs ts = .ok (encNodes ts)
  | [], _, _ => rfl
  | t :: ts, hvalid, hpad => by
    rw [AllValid] at hvalid
    rw [allNodeStructs] at hpad
    rw [buildNodeStructs, t.build_eq hvalid.1 hpad.1, except_ok_bind,
      buildNodeStructs_eq ts hvalid.2 hpad.2, except_ok_bind, encNodes]

end

theorem tostruct_eq_ok {q : PropStruct} (h : e.tostruct = .ok q) :
    buildProp e.name e.value e.type = .ok q.value ∧ q.value.length < 2 ^ 31 ∧
      q = ⟨e.name, BitVec.ofNat 32 q.value.length ||| (if e.template then 0x80000000 else 0),
        q.value, List.replicate (padLength (36 + q.value.length)) 0⟩ := by
  rw [Entry.tostruct] at h
  obtain ⟨value, hvalue, h⟩ := except_bind_eq_ok h
  split at h
  · rename_i hguard
    cases h
    exact ⟨hvalue, hguard, rfl⟩
  · contradiction

/-- What the struct of a property has to be to be built. -/
def Writable (p : PropStruct) : Prop := p.Valid ∧ ∀ b ∈ p.pad, b = 0

theorem tostruct_writable {q : PropStruct} (hp : p.Valid) (hep : EntryOf e p)
    (h : e.tostruct = .ok q) : Writable q := by
  obtain ⟨-, hlen, hq⟩ := tostruct_eq_ok h
  rw [hq, hep.name]
  exact ⟨⟨⟨ljust 32 p.name, hp.length_name, hp.strip_name⟩, hp.ascii,
    (size_parts hlen (toNat_size_or hlen e.template)).1.symm, List.length_replicate⟩,
    fun b hb => List.eq_of_mem_replicate hb⟩

/-- A property is written as it was read exactly if it fits its type. -/
theorem tostruct_iff (hp : p.Valid) (hpad : ∀ b ∈ p.pad, b = 0) (hep : EntryOf e p)
    (hfloat : e.type.any Format.floating = false) :
    e.tostruct = .ok p ↔ TypeFits e.raw e.type := by
  rw [← hep.parsed.build_iff hfloat e.name]
  constructor
  · intro h
    rw [hep.raw]
    exact (tostruct_eq_ok h).1
  · intro h
    have hlen : e.raw.length = maskedSize p.size := by rw [hep.raw, hp.value]
    have hlt : e.raw.length < 2 ^ 31 := by
      rw [hlen]
      exact maskedSize_lt p.size
    have hsize : (BitVec.ofNat 32 e.raw.length ||| (if e.template then 0x80000000 else 0) : U32) =
        p.size := by
      apply BitVec.eq_of_toNat_eq
      rw [toNat_size_or hlt, toNat_size p.size, hlen, hep.template]
    have hpad' : List.replicate (padLength (36 + e.raw.length)) 0 = p.pad := by
      rw [hep.raw, ← hp.pad]
      exact (List.eq_replicate_of_mem hpad).symm
    rw [Entry.tostruct, h, except_ok_bind, if_pos hlt, hsize, hpad', hep.name, hep.raw]

theorem tostructEntries_iff {all es : List Entry} {ps : List PropStruct}
    (hpath : nodePath parentPath all = .ok path) (hes : List.Forall₂ EntryOf es ps)
    (hvalid : ∀ p ∈ ps, p.Valid) (hpad : ZeroPadded ps) (hfloat : NoFloats es) :
    (tostructEntries parentPath all es = .ok ps ↔ EntriesFit es) ∧
      ∀ qs, tostructEntries parentPath all es = .ok qs →
        qs.length = ps.length ∧ ∀ q ∈ qs, Writable q := by
  induction hes with
  | nil =>
    refine ⟨iff_of_true rfl (by simp [EntriesFit]), ?_⟩
    intro qs h
    cases h
    simp
  | @cons e p es ps hep _ ih =>
    have hp := hvalid p List.mem_cons_self
    obtain ⟨hthis, hrest⟩ := List.forall_mem_cons.mp hfloat
    have hone := tostruct_iff hp (hpad p List.mem_cons_self) hep hthis
    obtain ⟨hiff, hall⟩ := ih (fun x hx => hvalid x (List.mem_cons_of_mem p hx))
      (fun x hx => hpad x (List.mem_cons_of_mem p hx)) hrest
    rw [tostructEntries, hpath, except_ok_bind]
    constructor
    · rw [EntriesFit, List.forall_mem_cons, ← hone]
      change _ ↔ _ ∧ EntriesFit es
      rw [← hiff]
      constructor
      · intro h
        obtain ⟨q, hq, h⟩ := except_bind_eq_ok h
        obtain ⟨qs, hqs, h⟩ := except_bind_eq_ok h
        obtain ⟨rfl, rfl⟩ := List.cons.inj (Except.ok.inj h)
        exact ⟨hq, hqs⟩
      · rintro ⟨h, hrest⟩
        rw [h, hrest]
        rfl
    · intro qs h
      obtain ⟨q, hq, h⟩ := except_bind_eq_ok h
      obtain ⟨qs', hqs, h⟩ := except_bind_eq_ok h
      cases h
      obtain ⟨hlen, hwritable⟩ := hall qs' hqs
      exact ⟨by rw [List.length_cons, List.length_cons, hlen],
        List.forall_mem_cons.mpr ⟨tostruct_writable hp hep hq, hwritable⟩⟩

mutual

/-- A node is written as it was read exactly if every property below it fits its type. -/
theorem node_tostruct_iff : ∀ (t : NodeStruct), t.Valid → t.All ZeroPadded → t.All DistinctNames →
    ∀ {parents : List Dict} {parentPath : List Byte} {n : Node},
      loadNode parents parentPath t = .ok n → n.All NoFloats →
        (n.tostruct = .ok t ↔ n.All EntriesFit) ∧
          ∀ t', n.tostruct = .ok t' → t'.Valid ∧ t'.All ZeroPadded
  | .node ps ts, hvalid, hpad, hnames, parents, parentPath, n, h, hfloat => by
    rw [NodeStruct.Valid] at hvalid
    rw [NodeStruct.All] at hpad hnames
    obtain ⟨hps, hts, hpsv, htsv⟩ := hvalid
    obtain ⟨es, ns, path, rfl, hes, hpath, hns⟩ := loadNode_eq_ok hnames.1 h
    rw [Node.All] at hfloat
    obtain ⟨hiff, hall⟩ := tostructEntries_iff hpath hes hpsv hpad.1 hfloat.1
    obtain ⟨hiffs, halls⟩ := nodes_tostruct_iff ts htsv hpad.2 hnames.2 hns hfloat.2
    rw [Node.tostruct, Node.All, ← hiff, ← hiffs]
    refine ⟨⟨?_, ?_⟩, ?_⟩
    · intro h
      obtain ⟨qs, hqs, h⟩ := except_bind_eq_ok h
      obtain ⟨us, hus, h⟩ := except_bind_eq_ok h
      obtain ⟨rfl, rfl⟩ := NodeStruct.node.inj (Except.ok.inj h)
      exact ⟨hqs, hus⟩
    · rintro ⟨h, hrest⟩
      rw [h, except_ok_bind, hrest, except_ok_bind]
    · intro t' h
      obtain ⟨qs, hqs, h⟩ := except_bind_eq_ok h
      obtain ⟨us, hus, h⟩ := except_bind_eq_ok h
      cases h
      obtain ⟨hlen, hwritable⟩ := hall qs hqs
      obtain ⟨hlens, hvalids, hpads⟩ := halls us hus
      rw [NodeStruct.Valid, NodeStruct.All, hlen, hlens]
      exact ⟨⟨hps, hts, fun q hq => (hwritable q hq).1, hvalids⟩,
        fun q hq => (hwritable q hq).2, hpads⟩

theorem nodes_tostruct_iff : ∀ (ts : List NodeStruct), AllValid ts → allNodeStructs ZeroPadded ts →
    allNodeStructs DistinctNames ts →
    ∀ {parents : List Dict} {parentPath : List Byte} {es : List Entry} {ns : List Node},
      loadNodes parents parentPath es ts = .ok ns → allNodes NoFloats ns →
        (tostructNodes ns = .ok ts ↔ allNodes EntriesFit ns) ∧
          ∀ us, tostructNodes ns = .ok us →
            us.length = ts.length ∧ AllValid us ∧ allNodeStructs ZeroPadded us
  | [], _, _, _, parents, parentPath, es, ns, h, _ => by
    cases h
    refine ⟨iff_of_true rfl trivial, ?_⟩
    intro us hus
    cases hus
    exact ⟨rfl, trivial, trivial⟩
  | t :: ts, hvalid, hpad, hnames, parents, parentPath, es, ns, h, hfloat => by
    rw [AllValid] at hvalid
    rw [allNodeStructs] at hpad hnames
    rw [loadNodes] at h
    obtain ⟨path, hpath, h⟩ := except_bind_eq_ok h
    obtain ⟨n, hn, h⟩ := except_bind_eq_ok h
    obtain ⟨ns', hns, h⟩ := except_bind_eq_ok h
    cases h
    rw [allNodes] at hfloat
    obtain ⟨hiff, hall⟩ := node_tostruct_iff t hvalid.1 hpad.1 hnames.1 hn hfloat.1
    obtain ⟨hiffs, halls⟩ := nodes_tostruct_iff ts hvalid.2 hpad.2 hnames.2 hns hfloat.2
    rw [tostructNodes, allNodes, ← hiff, ← hiffs]
    refine ⟨⟨?_, ?_⟩, ?_⟩
    · intro h
      obtain ⟨u, hu, h⟩ := except_bind_eq_ok h
      obtain ⟨us, hus, h⟩ := except_bind_eq_ok h
      obtain ⟨rfl, rfl⟩ := List.cons.inj (Except.ok.inj h)
      exact ⟨hu, hus⟩
    · rintro ⟨h, hrest⟩
      rw [h, except_ok_bind, hrest, except_ok_bind]
    · intro us h
      obtain ⟨u, hu, h⟩ := except_bind_eq_ok h
      obtain ⟨us', hus, h⟩ := except_bind_eq_ok h
      cases h
      obtain ⟨hone, hpadded⟩ := hall u hu
      obtain ⟨hlens, hvalids, hpads⟩ := halls us' hus
      rw [AllValid, allNodeStructs, List.length_cons, List.length_cons, hlens]
      exact ⟨rfl, ⟨hone, hvalids⟩, hpadded, hpads⟩

end

/-- **Round trip**: for a blob that is parsed and loaded, with zero padding, distinct names in
    every node and no property of a floating-point type, `build` returns the bytes that were
    parsed exactly if every property fits the type that it was given.  This holds of every
    library that satisfies the laws of `Library`. -/
theorem adt_roundtrip (data rest : List Byte) (t : NodeStruct) (n : Node)
    (hparse : parseBlob data = .ok (t, rest)) (hload : loadAdt data = .ok n)
    (hpad : t.All ZeroPadded) (hnames : t.All DistinctNames) (hfloat : n.All NoFloats) :
    n.build = .ok (data.take (data.length - rest.length)) ↔ n.All EntriesFit := by
  obtain ⟨hvalid, hdata⟩ := parseNode_sound _ hparse
  rw [loadAdt, hparse, except_ok_bind] at hload
  obtain ⟨hiff, hall⟩ := node_tostruct_iff t hvalid hpad hnames hload hfloat
  have htake : data.take (data.length - rest.length) = t.enc := by
    rw [hdata, List.length_append, Nat.add_sub_cancel, List.take_left]
  rw [htake, ← hiff, Node.build]
  constructor
  · intro h
    obtain ⟨t', ht', h⟩ := except_bind_eq_ok h
    obtain ⟨hvalid', hpad'⟩ := hall t' ht'
    rw [t'.build_eq hvalid' hpad'] at h
    rw [ht', NodeStruct.enc_inj hvalid' hvalid (Except.ok.inj h)]
  · intro h
    rw [h, except_ok_bind, t.build_eq hvalid hpad]

end Write

def plainProperty (name : String) (value : List Byte) : PropStruct :=
  ⟨ascii name, BitVec.ofNat 32 value.length, value,
    List.replicate (padLength (36 + value.length)) 0⟩

def oneDevice (cells : U32) (properties : List PropStruct) : NodeStruct :=
  .node [plainProperty "name" (ascii "device-tree" ++ [0]),
      plainProperty "#address-cells" (leWord cells), plainProperty "#size-cells" (leWord cells)]
    [.node (plainProperty "name" (ascii "uart0" ++ [0]) :: properties) []]

section Runs

attribute [local instance] reference

/-- The bytes of a tree, loaded and written back, and whether no type is a floating-point
    one. -/
def rebuilt (t : NodeStruct) : Except Err (Except Err (List Byte) × Bool) := do
  let n ← loadAdt t.enc
  .ok (n.build, decide (n.All NoFloats))

theorem rebuilt_eq_ok {t : NodeStruct} {out : Except Err (List Byte)}
    (h : rebuilt t = .ok (out, true)) :
    ∃ n, loadAdt t.enc = .ok n ∧ n.All NoFloats ∧ n.build = out := by
  obtain ⟨n, hn, h⟩ := except_bind_eq_ok h
  obtain ⟨hout, hfloat⟩ := Prod.mk.inj (Except.ok.inj h)
  exact ⟨n, hn, of_decide_eq_true hfloat, hout⟩

def wideDevice : NodeStruct :=
  oneDevice 2 [plainProperty "reg" (leBytes 8 0x32500000 ++ leBytes 8 0x4000),
    plainProperty "compatible" (ascii "uart-1,samsung" ++ [0])]

theorem adt_roundtrip_device :
    ∃ n, loadAdt wideDevice.enc = .ok n ∧ n.build = .ok wideDevice.enc ∧ n.All EntriesFit := by
  obtain ⟨n, hload, hfloat, hbuild⟩ := rebuilt_eq_ok
    (show rebuilt wideDevice = .ok (.ok wideDevice.enc, true) by decide +kernel)
  have hfit := adt_roundtrip wideDevice.enc [] wideDevice n (parseBlob_enc (by decide +kernel))
    hload (by decide +kernel) (by decide +kernel) hfloat
  refine ⟨n, hload, hbuild, hfit.mp ?_⟩
  rw [hbuild, List.length_nil, Nat.sub_zero, List.take_length]

def narrowDevice : NodeStruct :=
  oneDevice 1 [plainProperty "reg" (leBytes 4 0x32500000 ++ leBytes 4 0x4000)]

def clockDevice (ids : List Byte) : NodeStruct := oneDevice 2 [plainProperty "clock-ids" ids]

/-- Registers of one cell are not written back at all, and half a clock number is dropped. -/
theorem reg_not_written_back :
    (narrowDevice.Valid ∧ narrowDevice.All ZeroPadded ∧ narrowDevice.All DistinctNames ∧
      ∃ n, loadAdt narrowDevice.enc = .ok n ∧ n.All NoFloats ∧ n.build = .error .other) ∧
    ((clockDevice [1, 0, 0, 0, 2, 0]).Valid ∧ (clockDevice [1, 0, 0, 0, 2, 0]).All ZeroPadded ∧
      (clockDevice [1, 0, 0, 0, 2, 0]).All DistinctNames ∧
      ∃ n, loadAdt (clockDevice [1, 0, 0, 0, 2, 0]).enc = .ok n ∧ n.All NoFloats ∧
        n.build = .ok (clockDevice [1, 0, 0, 0]).enc) := by
  refine ⟨⟨by decide +kernel, by decide +kernel, by decide +kernel, ?_⟩,
    ⟨by decide +kernel, by decide +kernel, by decide +kernel, ?_⟩⟩
  · exact rebuilt_eq_ok (by decide +kernel)
  · exact rebuilt_eq_ok (by decide +kernel)

end Runs

end MiniHaywire.AdtClient
