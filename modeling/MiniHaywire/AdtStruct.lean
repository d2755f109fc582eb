import MiniHaywire.AdtTree
import MiniHaywire.Construct

/-!
# The client's reader of the device tree

`ADTPropertyStruct` and `ADTNodeStruct` of the client, as a parser over the bytes of
a blob; their fields are read by the format library.  A property keeps its size field
as it was read, with the template flag in bit 31, and the padding that `Aligned` read
behind it.  What was parsed determines the bytes it was parsed from
(`parseNode_sound`), and the bytes determine what is parsed (`NodeStruct.enc_inj`).

The second part compares the client's reader with the property walk of `adt.c`.
The client masks the template flag out of the size, the firmware does not; the two
walks agree exactly if no property carries the flag (`template_walk`).
-/

namespace MiniHaywire.AdtClient

open MiniHaywire.Construct MiniHaywire.Adt

/-! ### Parsing -/

structure PropStruct where
  name : List Byte
  size : U32
  value : List Byte
  pad : List Byte
deriving DecidableEq

inductive NodeStruct where
  | node (properties : List PropStruct) (children : List NodeStruct)

def NodeStruct.properties : NodeStruct → List PropStruct
  | .node properties _ => properties

def NodeStruct.children : NodeStruct → List NodeStruct
  | .node _ children => children

def maskedSize (size : U32) : Nat := (size &&& 0x7fffffff).toNat

def isTemplate (size : U32) : Bool := size &&& 0x80000000 != 0

/-- What is missing to a multiple of four. -/
def padLength (n : Nat) : Nat := (4 - n % 4) % 4

section Parse

variable [Library]

def parseField {α : Type} (ty : Ty) (get? : Val → Option α) : Parser α := fun bs => do
  let (v, rest) ← Library.parse ty [] bs
  match get? v with
  | some x => .ok (x, rest)
  | none => .error .other

def parseInt32ul : Parser Nat := parseField (.uint 4) fun
  | .num n => some n
  | _ => none

/-- `PaddedString(n, "ascii")`. -/
def parsePaddedString (n : Nat) : Parser (List Byte) := parseField (.padded n) fun
  | .str s => some s
  | _ => none

def parseBytes (n : Nat) : Parser (List Byte) := parseField (.bytes n) fun
  | .bytes bs => some bs
  | _ => none

/-- `Aligned(4, ADTPropertyStruct)`. -/
def parseProperty : Parser PropStruct := fun bs => do
  let (name, bs) ← parsePaddedString 32 bs
  let (size, bs) ← parseInt32ul bs
  let size : U32 := BitVec.ofNat 32 size
  let (value, bs) ← parseBytes (maskedSize size) bs
  let (pad, bs) ← parseBytes (padLength (36 + value.length)) bs
  .ok (⟨name, size, value, pad⟩, bs)

/-- `ADTNodeStruct`.  The fuel is for the depth of the tree. -/
def parseNode : Nat → Parser NodeStruct
  | 0, _ => .error .loop
  | fuel + 1, bs => do
    let (propertyCount, bs) ← parseInt32ul bs
    let (childCount, bs) ← parseInt32ul bs
    let (properties, bs) ← parseN parseProperty propertyCount bs
    let (children, bs) ← parseN (parseNode fuel) childCount bs
    .ok (.node properties children, bs)

/-- `ADTNodeStruct.parse`; a node takes eight bytes at least, so a tree is not deeper than
    the blob is long. -/
def parseBlob (data : List Byte) : Except Err (NodeStruct × List Byte) :=
  parseNode (data.length + 1) data

section Fields

variable {n : Nat} {bs rest w : List Byte}

theorem parseField_eq_ok {α : Type} {ty : Ty} {get? : Val → Option α}
    {decode : List Byte → Except Err Val} (hty : Library.parse ty [] = reads n decode) {x : α}
    (h : parseField ty get? bs = .ok (x, rest)) :
    ∃ w v, w.length = n ∧ bs = w ++ rest ∧ decode w = .ok v ∧ get? v = some x := by
  rw [parseField, hty] at h
  obtain ⟨⟨v, rest'⟩, hv, hget⟩ := except_bind_eq_ok h
  obtain ⟨w, hlen, hbs, hw⟩ := reads_eq_ok hv
  dsimp only at hget
  split at hget
  · rename_i y hy
    cases hget
    exact ⟨w, v, hlen, hbs, hw, hy⟩
  · contradiction

theorem parseField_append {α : Type} {ty : Ty} {get? : Val → Option α}
    {decode : List Byte → Except Err Val} (hty : Library.parse ty [] = reads n decode)
    (hw : w.length = n) {v : Val} (hv : decode w = .ok v) {x : α} (hx : get? v = some x)
    (rest : List Byte) : parseField ty get? (w ++ rest) = .ok (x, rest) := by
  rw [parseField, hty, reads_append hw hv, except_ok_bind]
  dsimp only
  rw [hx]

theorem parseInt32ul_eq_ok {x : Nat} (h : parseInt32ul bs = .ok (x, rest)) :
    ∃ w, w.length = 4 ∧ bs = w ++ rest ∧ x = leNat w := by
  obtain ⟨w, v, hlen, hbs, ⟨⟩, ⟨⟩⟩ := parseField_eq_ok (Library.parse_uint 4 []) h
  exact ⟨w, hlen, hbs, rfl⟩

theorem parseInt32ul_append (hw : w.length = 4) (rest : List Byte) :
    parseInt32ul (w ++ rest) = .ok (leNat w, rest) := by
  apply parseField_append (Library.parse_uint 4 []) hw rfl
  rfl

theorem parseBytes_eq_ok (h : parseBytes n bs = .ok (w, rest)) : w.length = n ∧ bs = w ++ rest := by
  obtain ⟨w', v, hlen, hbs, ⟨⟩, ⟨⟩⟩ := parseField_eq_ok (Library.parse_bytes n []) h
  exact ⟨hlen, hbs⟩

theorem parseBytes_append (hw : w.length = n) (rest : List Byte) :
    parseBytes n (w ++ rest) = .ok (w, rest) := by
  apply parseField_append (Library.parse_bytes n []) hw rfl
  rfl

theorem parsePaddedString_eq_ok {s : List Byte} (h : parsePaddedString n bs = .ok (s, rest)) :
    ∃ w, w.length = n ∧ bs = w ++ rest ∧ s = stripNul w ∧ isAscii s = true := by
  obtain ⟨w, v, hlen, hbs, hv, hs⟩ := parseField_eq_ok (Library.parse_padded n []) h
  obtain ⟨hascii, rfl⟩ := decodeAscii_eq_ok hv
  cases hs
  exact ⟨w, hlen, hbs, rfl, hascii⟩

theorem parsePaddedString_append (hw : w.length = n) (h : isAscii (stripNul w) = true)
    (rest : List Byte) : parsePaddedString n (w ++ rest) = .ok (stripNul w, rest) := by
  apply parseField_append (Library.parse_padded n []) hw (if_pos h)
  rfl

end Fields

end Parse

/-! ### The bytes of a tree -/

def PropStruct.enc (p : PropStruct) : List Byte :=
  ljust 32 p.name ++ (leWord p.size ++ (p.value ++ p.pad))

mutual

def NodeStruct.enc : NodeStruct → List Byte
  | .node properties children =>
    leBytes 4 properties.length ++ (leBytes 4 children.length ++
      (properties.flatMap PropStruct.enc ++ encNodes children))

def encNodes : List NodeStruct → List Byte
  | [] => []
  | t :: ts => t.enc ++ encNodes ts

end

structure PropStruct.Valid (p : PropStruct) : Prop where
  name : ∃ field : List Byte, field.length = 32 ∧ stripNul field = p.name
  ascii : isAscii p.name = true
  value : p.value.length = maskedSize p.size
  pad : p.pad.length = padLength (36 + p.value.length)

theorem PropStruct.Valid.length_name {p : PropStruct} (h : p.Valid) :
    (ljust 32 p.name).length = 32 := by
  obtain ⟨field, hlen, hname⟩ := h.name
  rw [← hname, ljust_stripNul hlen, hlen]

theorem PropStruct.Valid.strip_name {p : PropStruct} (h : p.Valid) :
    stripNul (ljust 32 p.name) = p.name := by
  obtain ⟨field, hlen, hname⟩ := h.name
  rw [← hname, ljust_stripNul hlen]

theorem PropStruct.valid_iff (p : PropStruct) :
    p.Valid ↔ ((ljust 32 p.name).length = 32 ∧ stripNul (ljust 32 p.name) = p.name) ∧
      isAscii p.name = true ∧ p.value.length = maskedSize p.size ∧
        p.pad.length = padLength (36 + p.value.length) := by
  constructor
  · intro h
    exact ⟨⟨h.length_name, h.strip_name⟩, h.ascii, h.value, h.pad⟩
  · rintro ⟨hname, hascii, hvalue, hpad⟩
    exact ⟨⟨_, hname⟩, hascii, hvalue, hpad⟩

instance PropStruct.decidableValid (p : PropStruct) : Decidable p.Valid :=
  decidable_of_iff _ p.valid_iff.symm

theorem leNat_lt_of_length {w : List Byte} (h : w.length = 4) : leNat w < 2 ^ 32 := by
  have hlt := leNat_lt w
  rw [h] at hlt
  exact hlt

theorem leWord_leNat {w : List Byte} (h : w.length = 4) :
    leWord (BitVec.ofNat 32 (leNat w)) = w := by
  rw [leWord, BitVec.toNat_ofNat, Nat.mod_eq_of_lt (leNat_lt_of_length h),
    show 32 / 8 = w.length by rw [h], leBytes_leNat]

mutual

def NodeStruct.Valid : NodeStruct → Prop
  | .node properties children =>
    properties.length < 2 ^ 32 ∧ children.length < 2 ^ 32 ∧ (∀ p ∈ properties, p.Valid) ∧
      AllValid children

def AllValid : List NodeStruct → Prop
  | [] => True
  | t :: ts => t.Valid ∧ AllValid ts

end

mutual

instance NodeStruct.decidableValid : (t : NodeStruct) → Decidable t.Valid
  | .node properties children =>
    have := decidableAllValid children
    inferInstanceAs (Decidable (properties.length < 2 ^ 32 ∧ children.length < 2 ^ 32 ∧
      (∀ p ∈ properties, p.Valid) ∧ AllValid children))

instance decidableAllValid : (ts : List NodeStruct) → Decidable (AllValid ts)
  | [] => isTrue trivial
  | t :: ts =>
    have := t.decidableValid
    have := decidableAllValid ts
    inferInstanceAs (Decidable (t.Valid ∧ AllValid ts))

end

mutual

def NodeStruct.depth : NodeStruct → Nat
  | .node _ children => depthNodes children + 1

def depthNodes : List NodeStruct → Nat
  | [] => 0
  | t :: ts => max t.depth (depthNodes ts)

end

theorem encNodes_eq (ts : List NodeStruct) : encNodes ts = ts.flatMap NodeStruct.enc := by
  induction ts with
  | nil => rfl
  | cons t ts ih => rw [encNodes, ih, List.flatMap_cons]

theorem allValid_iff (ts : List NodeStruct) : AllValid ts ↔ ∀ t ∈ ts, t.Valid := by
  induction ts with
  | nil => simp [AllValid]
  | cons t ts ih => rw [AllValid, ih, List.forall_mem_cons]

mutual

theorem NodeStruct.depth_le : ∀ t : NodeStruct, t.depth ≤ t.enc.length
  | .node properties children => by
    have hchildren := depthNodes_le children
    rw [NodeStruct.depth, NodeStruct.enc]
    simp only [List.length_append, length_leBytes]
    omega

theorem depthNodes_le : ∀ ts : List NodeStruct, depthNodes ts ≤ (encNodes ts).length
  | [] => Nat.le_refl 0
  | t :: ts => by
    have ht := t.depth_le
    have hts := depthNodes_le ts
    rw [depthNodes, encNodes, List.length_append]
    omega

end

section Trees

variable [Library]

theorem parseProperty_sound {bs rest : List Byte} {p : PropStruct}
    (h : parseProperty bs = .ok (p, rest)) : p.Valid ∧ bs = p.enc ++ rest := by
  unfold parseProperty at h
  obtain ⟨⟨name, bs₁⟩, hname, h⟩ := except_bind_eq_ok h
  obtain ⟨⟨size, bs₂⟩, hsize, h⟩ := except_bind_eq_ok h
  obtain ⟨⟨value, bs₃⟩, hvalue, h⟩ := except_bind_eq_ok h
  obtain ⟨⟨pad, bs₄⟩, hpad, h⟩ := except_bind_eq_ok h
  cases h
  obtain ⟨field, hlen₁, rfl, rfl, hascii⟩ := parsePaddedString_eq_ok hname
  obtain ⟨w, hlen₂, rfl, rfl⟩ := parseInt32ul_eq_ok hsize
  obtain ⟨hlen₃, rfl⟩ := parseBytes_eq_ok hvalue
  obtain ⟨hlen₄, rfl⟩ := parseBytes_eq_ok hpad
  refine ⟨⟨⟨field, hlen₁, rfl⟩, hascii, hlen₃, hlen₄⟩, ?_⟩
  simp only [PropStruct.enc, ljust_stripNul hlen₁, leWord_leNat hlen₂, List.append_assoc]

theorem parseProperty_enc {p : PropStruct} (hp : p.Valid) (rest : List Byte) :
    parseProperty (p.enc ++ rest) = .ok (p, rest) := by
  have hsize : BitVec.ofNat 32 (leNat (leWord p.size)) = p.size := by
    rw [leNat_leWord rfl, BitVec.ofNat_toNat, BitVec.setWidth_eq]
  have hascii : isAscii (stripNul (ljust 32 p.name)) = true := by
    rw [hp.strip_name]
    exact hp.ascii
  unfold parseProperty PropStruct.enc
  simp only [List.append_assoc]
  rw [parsePaddedString_append hp.length_name hascii, except_ok_bind]
  dsimp only
  rw [parseInt32ul_append (length_leWord p.size), except_ok_bind]
  dsimp only
  rw [hsize, parseBytes_append hp.value, except_ok_bind]
  dsimp only
  rw [parseBytes_append hp.pad, except_ok_bind, hp.strip_name]

theorem parseNode_sound (fuel : Nat) {bs rest : List Byte} {t : NodeStruct}
    (h : parseNode fuel bs = .ok (t, rest)) : t.Valid ∧ bs = t.enc ++ rest := by
  induction fuel generalizing bs rest t with
  | zero => contradiction
  | succ fuel ih =>
    rw [parseNode] at h
    obtain ⟨⟨pc, bs₁⟩, hpc, h⟩ := except_bind_eq_ok h
    obtain ⟨⟨cc, bs₂⟩, hcc, h⟩ := except_bind_eq_ok h
    obtain ⟨⟨ps, bs₃⟩, hps, h⟩ := except_bind_eq_ok h
    obtain ⟨⟨cs, bs₄⟩, hcs, h⟩ := except_bind_eq_ok h
    cases h
    obtain ⟨w₁, hlen₁, rfl, rfl⟩ := parseInt32ul_eq_ok hpc
    obtain ⟨w₂, hlen₂, rfl, rfl⟩ := parseInt32ul_eq_ok hcc
    obtain ⟨hcount₁, hvalid₁, rfl⟩ :=
      parseN_sound (fun _ _ _ hp => parseProperty_sound hp) _ hps
    obtain ⟨hcount₂, hvalid₂, rfl⟩ := parseN_sound (fun _ _ _ hc => ih hc) _ hcs
    constructor
    · rw [NodeStruct.Valid, hcount₁, hcount₂, allValid_iff]
      exact ⟨leNat_lt_of_length hlen₁, leNat_lt_of_length hlen₂, hvalid₁, hvalid₂⟩
    · have hword : ∀ w : List Byte, w.length = 4 → leBytes 4 (leNat w) = w := by
        intro w hw
        rw [← hw, leBytes_leNat]
      rw [NodeStruct.enc, hcount₁, hcount₂, hword w₁ hlen₁, hword w₂ hlen₂, encNodes_eq]
      simp only [List.append_assoc]

mutual

theorem parseNode_enc : ∀ (t : NodeStruct), t.Valid → ∀ {fuel : Nat}, t.depth ≤ fuel →
    ∀ rest, parseNode fuel (t.enc ++ rest) = .ok (t, rest)
  | .node properties children, hvalid, fuel, hfuel, rest => by
    rw [NodeStruct.Valid] at hvalid
    obtain ⟨hpc, hcc, hps, hcs⟩ := hvalid
    rw [NodeStruct.depth] at hfuel
    obtain ⟨fuel, rfl⟩ := Nat.exists_eq_succ_of_ne_zero (by omega : fuel ≠ 0)
    have hwords : ∀ n : Nat, n < 2 ^ 32 → leNat (leBytes 4 n) = n := fun n hn =>
      leNat_leBytes_of_lt hn
    rw [parseNode, NodeStruct.enc]
    simp only [List.append_assoc]
    rw [parseInt32ul_append (length_leBytes 4 _), except_ok_bind]
    dsimp only
    rw [parseInt32ul_append (length_leBytes 4 _), except_ok_bind, hwords _ hpc, hwords _ hcc]
    dsimp only
    rw [parseN_enc (fun p hp rest => parseProperty_enc (hps p hp) rest), except_ok_bind]
    dsimp only
    rw [encNodes_eq, parseN_enc (parseNodes_enc children hcs (Nat.le_of_succ_le_succ hfuel)),
      except_ok_bind]

theorem parseNodes_enc : ∀ (ts : List NodeStruct), AllValid ts → ∀ {fuel : Nat},
    depthNodes ts ≤ fuel → ∀ t ∈ ts, ∀ rest, parseNode fuel (t.enc ++ rest) = .ok (t, rest)
  | [], _, fuel, _ => by
    intro t ht
    contradiction
  | t :: ts, hvalid, fuel, hfuel => by
    rw [AllValid] at hvalid
    rw [depthNodes] at hfuel
    intro u hu
    rcases List.mem_cons.mp hu with heq | hu
    · rw [heq]
      exact parseNode_enc t hvalid.1 (le_of_max_le_left hfuel)
    · exact parseNodes_enc ts hvalid.2 (le_of_max_le_right hfuel) u hu

end

theorem parseBlob_enc {t : NodeStruct} (h : t.Valid) : parseBlob t.enc = .ok (t, []) := by
  have hparse := parseNode_enc t h (Nat.le_succ_of_le t.depth_le) []
  rw [List.append_nil] at hparse
  exact hparse

end Trees

theorem NodeStruct.enc_inj {t t' : NodeStruct} (h : t.Valid) (h' : t'.Valid)
    (heq : t.enc = t'.enc) : t = t' := by
  have library : Library := reference
  have hparse := parseNode_enc t h (le_max_left t.depth t'.depth) []
  have hparse' := parseNode_enc t' h' (le_max_right t.depth t'.depth) []
  rw [heq, hparse'] at hparse
  exact (Prod.mk.inj (Except.ok.inj hparse)).1.symm

/-! ### The property walk -/

section Walk

variable [Library]

/-- The loop over the properties of a node, with the position of the stream at each. -/
def walkProperties : Nat → Nat → List Byte → Except Err (List (Nat × PropStruct) × Nat)
  | 0, pos, _ => .ok ([], pos)
  | n + 1, pos, bs => do
    let (p, rest) ← parseProperty bs
    let (ps, stop) ← walkProperties n (pos + (bs.length - rest.length)) rest
    .ok ((pos, p) :: ps, stop)

/-- The properties of the node at the start of the input with their positions, and the
    position of the first child. -/
def walkNode (bs : List Byte) : Except Err (List (Nat × PropStruct) × Nat) := do
  let (propertyCount, bs) ← parseInt32ul bs
  let (_, bs) ← parseInt32ul bs
  walkProperties propertyCount 8 bs

theorem walkProperties_parseN {n : Nat} (pos : Nat) {bs rest : List Byte} {ps : List PropStruct}
    (h : parseN parseProperty n bs = .ok (ps, rest)) :
    ∃ qs, walkProperties n pos bs = .ok (qs, pos + (bs.length - rest.length)) ∧
      qs.map Prod.snd = ps ∧ rest.length ≤ bs.length := by
  induction n generalizing pos bs ps with
  | zero =>
    cases h
    refine ⟨[], ?_, rfl, Nat.le_refl _⟩
    rw [walkProperties, Nat.sub_self, Nat.add_zero]
  | succ n ih =>
    rw [parseN] at h
    obtain ⟨⟨p, bs₁⟩, hp, h⟩ := except_bind_eq_ok h
    obtain ⟨⟨ps', bs₂⟩, hps, h⟩ := except_bind_eq_ok h
    cases h
    have hlen : bs.length = p.enc.length + bs₁.length := by
      rw [(parseProperty_sound hp).2, List.length_append]
    obtain ⟨qs, hqs, hmap, hle⟩ := ih (pos + (bs.length - bs₁.length)) hps
    refine ⟨(pos, p) :: qs, ?_, by rw [List.map_cons, hmap], by omega⟩
    have hstop : pos + (bs.length - bs₁.length) + (bs₁.length - rest.length) =
        pos + (bs.length - rest.length) := by omega
    rw [walkProperties, hp, except_ok_bind]
    dsimp only
    rw [hqs, except_ok_bind, hstop]

theorem parseNode_walk {fuel : Nat} {bs rest : List Byte} {t : NodeStruct}
    (h : parseNode (fuel + 1) bs = .ok (t, rest)) :
    ∃ qs child, walkNode bs = .ok (qs, child) ∧ qs.map Prod.snd = t.properties := by
  rw [parseNode] at h
  obtain ⟨⟨pc, bs₁⟩, hpc, h⟩ := except_bind_eq_ok h
  obtain ⟨⟨cc, bs₂⟩, hcc, h⟩ := except_bind_eq_ok h
  obtain ⟨⟨ps, bs₃⟩, hps, h⟩ := except_bind_eq_ok h
  obtain ⟨⟨cs, bs₄⟩, -, h⟩ := except_bind_eq_ok h
  cases h
  obtain ⟨qs, hqs, hmap, -⟩ := walkProperties_parseN 8 hps
  refine ⟨qs, 8 + (bs₂.length - bs₃.length), ?_, hmap⟩
  rw [walkNode, hpc, except_ok_bind]
  dsimp only
  rw [hcc, except_ok_bind]
  exact hqs

end Walk

section Template

variable {adt : Blob} {o : Nat} {p : PropStruct} {bs rest : List Byte}

theorem PropStruct.Valid.length_enc (h : p.Valid) :
    p.enc.length = 36 + 4 * ((maskedSize p.size + 3) / 4) := by
  have hpad := h.pad
  unfold padLength at hpad
  simp only [enc, List.length_append, h.length_name, length_leWord, h.value, hpad]
  omega

theorem toNat_size (size : U32) :
    size.toNat = maskedSize size + (if isTemplate size then 2 ^ 31 else 0) := by
  have hand : (size &&& 0x7fffffff).toNat = size.toNat % 2 ^ 31 := by
    rw [BitVec.toNat_and]
    exact Nat.and_two_pow_sub_one_eq_mod size.toNat 31
  have hflag : isTemplate size = decide (2 ^ 31 ≤ size.toNat) := by
    rw [show decide (2 ^ 31 ≤ size.toNat) = size.msb from (BitVec.msb_eq_decide size).symm,
      BitVec.msb_eq_getLsbD_last, isTemplate,
      show (0x80000000 : U32) = BitVec.twoPow 32 31 from rfl, BitVec.and_twoPow]
    cases size.getLsbD 31 with
    | true => rfl
    | false => rfl
  have hlt := size.isLt
  rw [maskedSize, hand, hflag]
  by_cases h : 2 ^ 31 ≤ size.toNat
  · rw [decide_eq_true h, if_pos rfl]
    omega
  · rw [decide_eq_false h, if_neg Bool.false_ne_true]
    omega

theorem holds_size (hp : p.Valid) (h : Holds adt o (p.enc ++ rest)) :
    propSize adt (BitVec.ofNat 32 o) = p.size := by
  obtain ⟨henc, -⟩ := holds_append.mp h
  obtain ⟨-, hrest⟩ := holds_append.mp henc
  have hread := read32_word (holds_append.mp hrest).1
  rw [hp.length_name, BitVec.ofNat_add] at hread
  exact hread

/-- The firmware's next offset has the flag in it, on top of the client's. -/
theorem nextProperty_template (hp : p.Valid) (h : Holds adt o (p.enc ++ rest)) :
    adtNextPropertyOffset adt (BitVec.ofNat 32 o) =
      BitVec.ofNat 32 (o + p.enc.length + if isTemplate p.size then 2 ^ 31 else 0) := by
  have hmask : ADT_ALIGN - 1 = (3 : U32) := by decide
  have hsize : p.size + ADT_ALIGN - 1 = BitVec.ofNat 32 (p.size.toNat + 3) := by
    rw [add_sub_assoc, hmask, BitVec.ofNat_add, BitVec.ofNat_toNat, BitVec.setWidth_eq]
    rfl
  have hround : (p.size + ADT_ALIGN - 1) &&& ~~~(ADT_ALIGN - 1) =
      BitVec.ofNat 32 (4 * ((p.size.toNat + 3) / 4)) := by
    rw [hmask, hsize, and_not_three, BitVec.toNat_ofNat]
    apply BitVec.eq_of_toNat_eq
    rw [BitVec.toNat_ofNat, BitVec.toNat_ofNat]
    omega
  have hsum : o + p.enc.length + (if isTemplate p.size then 2 ^ 31 else 0) =
      o + 36 + 4 * ((p.size.toNat + 3) / 4) := by
    rw [hp.length_enc, toNat_size]
    split
    · omega
    · omega
  rw [adtNextPropertyOffset, holds_size hp h, hround, hsum, BitVec.ofNat_add, BitVec.ofNat_add]
  rfl

theorem nextProperty_iff (hp : p.Valid) (h : Holds adt o (p.enc ++ rest)) :
    adtNextPropertyOffset adt (BitVec.ofNat 32 o) = BitVec.ofNat 32 (o + p.enc.length) ↔
      isTemplate p.size = false := by
  rw [nextProperty_template hp h]
  cases isTemplate p.size with
  | false => simp
  | true =>
    refine iff_of_false ?_ Bool.noConfusion
    intro heq
    have hnat := congrArg BitVec.toNat heq
    rw [BitVec.toNat_ofNat, BitVec.toNat_ofNat, if_pos rfl] at hnat
    omega

/-- The firmware's walk from `start` comes to the client's positions. -/
def WalkAgrees (adt : Blob) (o : Nat) (start : U32) (ps : List (Nat × PropStruct)) (stop : Nat) :
    Prop :=
  (List.range ps.length).map (fun i => (adtNextPropertyOffset adt)^[i] start) =
      ps.map (fun x => BitVec.ofNat 32 (o + x.1)) ∧
    (adtNextPropertyOffset adt)^[ps.length] start = BitVec.ofNat 32 (o + stop)

theorem holds_behind {pos : Nat} (h : Holds adt (o + pos) (p.enc ++ rest)) :
    Holds adt (o + (pos + p.enc.length)) rest := by
  rw [← Nat.add_assoc]
  exact (holds_append.mp h).2

theorem walkAgrees_cons {start : U32} {x : Nat × PropStruct} {ps : List (Nat × PropStruct)}
    {stop : Nat} :
    WalkAgrees adt o start (x :: ps) stop ↔
      start = BitVec.ofNat 32 (o + x.1) ∧
        WalkAgrees adt o (adtNextPropertyOffset adt start) ps stop := by
  unfold WalkAgrees
  rw [List.length_cons, List.range_succ_eq_map, List.map_cons, List.map_map, List.map_cons,
    List.cons.injEq, and_assoc]
  rfl

theorem ofNat_maskedSize {size : U32} (h : isTemplate size = false) :
    BitVec.ofNat 32 (maskedSize size) = size := by
  have hnat := toNat_size size
  rw [h, if_neg Bool.false_ne_true, Nat.add_zero] at hnat
  rw [← hnat, BitVec.ofNat_toNat, BitVec.setWidth_eq]

variable [Library]

theorem walkProperties_succ {n pos stop : Nat} {ps : List (Nat × PropStruct)}
    (h : walkProperties (n + 1) pos bs = .ok (ps, stop)) :
    ∃ p qs bs₁, p.Valid ∧ bs = p.enc ++ bs₁ ∧
      walkProperties n (pos + p.enc.length) bs₁ = .ok (qs, stop) ∧ ps = (pos, p) :: qs := by
  rw [walkProperties] at h
  obtain ⟨⟨p, bs₁⟩, hp, h⟩ := except_bind_eq_ok h
  obtain ⟨⟨qs, stop'⟩, hqs, h⟩ := except_bind_eq_ok h
  cases h
  obtain ⟨hvalid, rfl⟩ := parseProperty_sound hp
  rw [List.length_append, Nat.add_sub_cancel] at hqs
  exact ⟨p, qs, bs₁, hvalid, rfl, hqs, rfl⟩

theorem walkProperties_length {n pos stop : Nat} {ps : List (Nat × PropStruct)}
    (h : walkProperties n pos bs = .ok (ps, stop)) : ps.length = n := by
  induction n generalizing pos bs ps with
  | zero =>
    cases h
    rfl
  | succ n ih =>
    obtain ⟨p, qs, bs₁, -, -, hqs, rfl⟩ := walkProperties_succ h
    rw [List.length_cons, ih hqs]

theorem WalkAgrees.start_eq {start : U32} {n pos : Nat} {ps : List (Nat × PropStruct)} {stop : Nat}
    (h : walkProperties n pos bs = .ok (ps, stop)) (hwalk : WalkAgrees adt o start ps stop) :
    start = BitVec.ofNat 32 (o + pos) := by
  cases n with
  | zero =>
    cases h
    exact hwalk.2
  | succ n =>
    obtain ⟨p, qs, bs₁, -, -, -, rfl⟩ := walkProperties_succ h
    exact (walkAgrees_cons.mp hwalk).1

/-- The offsets of the properties and of the first child are the client's exactly if no
    property is a template. -/
theorem walkProperties_iff (n pos : Nat) {bs : List Byte} {ps : List (Nat × PropStruct)}
    {stop : Nat} (h : walkProperties n pos bs = .ok (ps, stop)) (hblob : Holds adt (o + pos) bs) :
    WalkAgrees adt o (BitVec.ofNat 32 (o + pos)) ps stop ↔
      ∀ x ∈ ps, isTemplate x.2.size = false := by
  induction n generalizing pos bs ps with
  | zero =>
    cases h
    exact iff_of_true ⟨rfl, rfl⟩ (by simp)
  | succ n ih =>
    obtain ⟨p, qs, bs₁, hvalid, rfl, hqs, rfl⟩ := walkProperties_succ h
    have hrest := holds_behind hblob
    have hnext := nextProperty_iff hvalid hblob
    rw [Nat.add_assoc] at hnext
    rw [walkAgrees_cons, and_iff_right rfl, List.forall_mem_cons]
    constructor
    · intro hwalk
      have hfirst := hwalk.start_eq hqs
      rw [hfirst] at hwalk
      exact ⟨hnext.mp hfirst, (ih _ hqs hrest).mp hwalk⟩
    · rintro ⟨hflag, hflags⟩
      rw [hnext.mpr hflag]
      exact (ih _ hqs hrest).mpr hflags

theorem propertyLoop_walk (name : List Byte) (n pos : Nat) {bs : List Byte}
    {ps : List (Nat × PropStruct)} {stop : Nat} (h : walkProperties n pos bs = .ok (ps, stop))
    (hblob : Holds adt (o + pos) bs) (hflags : ∀ x ∈ ps, isTemplate x.2.size = false) :
    propertyLoop adt (matchProperty adt name) n (BitVec.ofNat 32 (o + pos)) none =
      (ps.find? (fun x => adtStringEq adt (BitVec.ofNat 32 (o + x.1)) name)).map
        (fun x => BitVec.ofNat 32 (o + x.1)) := by
  induction n generalizing pos bs ps with
  | zero =>
    cases h
    rfl
  | succ n ih =>
    obtain ⟨p, qs, bs₁, hvalid, rfl, hqs, rfl⟩ := walkProperties_succ h
    obtain ⟨hflag, hflags⟩ := List.forall_mem_cons.mp hflags
    have hnext := (nextProperty_iff hvalid hblob).mpr hflag
    rw [Nat.add_assoc] at hnext
    rw [propertyLoop, matchProperty, List.find?_cons]
    dsimp only
    cases adtStringEq adt (BitVec.ofNat 32 (o + pos)) name with
    | true => rfl
    | false =>
      simp only [Bool.false_eq_true, if_false, hnext]
      exact ih _ hqs (holds_behind hblob) hflags

theorem propSize_walk (n pos : Nat) {bs : List Byte} {ps : List (Nat × PropStruct)} {stop : Nat}
    (h : walkProperties n pos bs = .ok (ps, stop)) (hblob : Holds adt (o + pos) bs) :
    ∀ x ∈ ps, propSize adt (BitVec.ofNat 32 (o + x.1)) = x.2.size := by
  induction n generalizing pos bs ps with
  | zero =>
    cases h
    simp
  | succ n ih =>
    obtain ⟨p, qs, bs₁, hvalid, rfl, hqs, rfl⟩ := walkProperties_succ h
    intro x hx
    rcases List.mem_cons.mp hx with rfl | hx
    · exact holds_size hvalid hblob
    · exact ih _ hqs (holds_behind hblob) x hx

theorem walkNode_header {ps : List (Nat × PropStruct)} {child : Nat}
    (hblob : Holds adt o bs) (h : walkNode bs = .ok (ps, child)) :
    ∃ body, walkProperties ps.length 8 body = .ok (ps, child) ∧ Holds adt (o + 8) body ∧
      (adtGetPropertyCount adt (BitVec.ofNat 32 o)).toNat = ps.length := by
  unfold walkNode at h
  obtain ⟨⟨pc, bs₁⟩, hpc, h⟩ := except_bind_eq_ok h
  obtain ⟨⟨cc, body⟩, hcc, hprops⟩ := except_bind_eq_ok h
  dsimp only at hprops
  obtain ⟨w₁, hlen₁, rfl, rfl⟩ := parseInt32ul_eq_ok hpc
  obtain ⟨w₂, hlen₂, rfl, -⟩ := parseInt32ul_eq_ok hcc
  obtain ⟨hcount, hrest⟩ := holds_append.mp hblob
  have hbody := (holds_append.mp hrest).2
  rw [hlen₁, hlen₂, Nat.add_assoc] at hbody
  have hlen := walkProperties_length hprops
  rw [← leWord_leNat hlen₁] at hcount
  have hread := read32_word hcount
  rw [← hlen] at hprops
  refine ⟨body, hprops, hbody, ?_⟩
  rw [adtGetPropertyCount, hread, BitVec.toNat_ofNat, Nat.mod_eq_of_lt (leNat_lt_of_length hlen₁),
    hlen]

/-- **Templates**: for a node in a blob, the firmware's walk over the properties, its first
    child and its search for a name agree with the client's positions and masked lengths
    exactly if no property carries the template flag. -/
theorem template_walk (adt : Blob) (o : Nat) (bs : List Byte) (ps : List (Nat × PropStruct))
    (child : Nat) (hblob : Holds adt o bs) (hwalk : walkNode bs = .ok (ps, child)) :
    ((List.range ps.length).map
          (fun i => (adtNextPropertyOffset adt)^[i] (adtFirstPropertyOffset (BitVec.ofNat 32 o))) =
        ps.map (fun x => BitVec.ofNat 32 (o + x.1)) ∧
      adtFirstChildOffset adt (BitVec.ofNat 32 o) = BitVec.ofNat 32 (o + child) ∧
      ∀ name,
        adtGetPropertyNamelen adt (BitVec.ofNat 32 o) name =
            (ps.find? (fun x => adtStringEq adt (BitVec.ofNat 32 (o + x.1)) name)).map
              (fun x => BitVec.ofNat 32 (o + x.1)) ∧
          adtGetprop adt (BitVec.ofNat 32 o) name =
            (ps.find? (fun x => adtStringEq adt (BitVec.ofNat 32 (o + x.1)) name)).map
              (fun x => (BitVec.ofNat 32 (o + x.1) + 36,
                BitVec.ofNat 32 (maskedSize x.2.size)))) ↔
      ∀ x ∈ ps, isTemplate x.2.size = false := by
  obtain ⟨body, hbody, hholds, hcount⟩ := walkNode_header hblob hwalk
  have hfirst : adtFirstPropertyOffset (BitVec.ofNat 32 o) = BitVec.ofNat 32 (o + 8) := by
    rw [BitVec.ofNat_add]
    rfl
  have hiff := walkProperties_iff _ 8 hbody hholds
  rw [adtFirstChildOffset, hcount, hfirst]
  constructor
  · rintro ⟨hoffsets, hchild, -⟩
    exact hiff.mp ⟨hoffsets, hchild⟩
  · intro hflags
    obtain ⟨hoffsets, hchild⟩ := hiff.mpr hflags
    refine ⟨hoffsets, hchild, ?_⟩
    intro name
    have hget : adtGetPropertyNamelen adt (BitVec.ofNat 32 o) name =
        (ps.find? (fun x => adtStringEq adt (BitVec.ofNat 32 (o + x.1)) name)).map
          (fun x => BitVec.ofNat 32 (o + x.1)) := by
      rw [adtGetPropertyNamelen, adtForeachProperty, hcount, hfirst]
      exact propertyLoop_walk name _ 8 hbody hholds hflags
    refine ⟨hget, ?_⟩
    rw [adtGetprop, hget, Option.map_map]
    cases hfind : ps.find? (fun x => adtStringEq adt (BitVec.ofNat 32 (o + x.1)) name) with
    | none => rfl
    | some x =>
      have hx := List.mem_of_find?_eq_some hfind
      have hsize := propSize_walk _ 8 hbody hholds x hx
      rw [← ofNat_maskedSize (hflags x hx)] at hsize
      simp only [Option.map_some, Function.comp_apply, hsize]

end Template

/-- The bytes of a node with one property `a` of four bytes, with the given size field. -/
def oneProperty (size : U32) : List Byte :=
  leBytes 4 1 ++ (leBytes 4 0 ++ (ljust 32 [0x61] ++ (leWord size ++ [1, 2, 3, 4])))

def blobOf (bs : List Byte) : Blob := fun a => bs.getD a.toNat 0

section Runs

attribute [local instance] reference

theorem template_walk_plain :
    adtFirstChildOffset (blobOf (oneProperty 4)) 0 = 48 ∧
      adtGetprop (blobOf (oneProperty 4)) 0 [0x61] = some (44, 4) := by
  have hblob : Holds (blobOf (oneProperty 4)) 0 (oneProperty 4) := by
    unfold Holds Mem.At
    decide
  have hwalk : walkNode (oneProperty 4) = .ok ([(8, ⟨[0x61], 4, [1, 2, 3, 4], []⟩)], 48) := by rfl
  have hagree := (template_walk (blobOf (oneProperty 4)) 0 _ _ _ hblob hwalk).mpr (by decide)
  exact ⟨hagree.2.1, (hagree.2.2 [0x61]).2.trans (by decide +kernel)⟩

/-- With the flag in its size field, a property of four bytes is followed by what stands two
    gigabytes further on, and its length has the flag in it. -/
theorem template_offset_off :
    walkNode (oneProperty 0x80000004) =
        .ok ([(8, ⟨[0x61], 0x80000004, [1, 2, 3, 4], []⟩)], 48) ∧
      adtFirstChildOffset (blobOf (oneProperty 0x80000004)) 0 = 0x80000030 ∧
      adtGetprop (blobOf (oneProperty 0x80000004)) 0 [0x61] = some (44, 0x80000004) := by
  refine ⟨by rfl, by decide, by decide +kernel⟩

end Runs

end MiniHaywire.AdtClient
