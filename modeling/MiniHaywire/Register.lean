import MiniHaywire.IntBits

/-!
# Registers with named fields

The class `Register` of `utils.py`: a Python integer whose bit fields are read and
assigned as attributes.  A subclass lists its fields as class attributes; a field is a
bit position, a pair `(msb, lsb)`, or a triple with a type that the value is passed
through when it is read.  `RegAccessor.set` assigns several fields of a register that
it has read and writes the result.

Every field is a slice of the value, whichever way it is written down, and so the laws
of fields are those of slices.
-/

namespace MiniHaywire.Register

open IntBits

/-! ### The class -/

/-- A class attribute that is a field.  The type of a triple is what calling it on the bits
    returns; it may raise. -/
inductive Field where
  | bit (field : Nat)
  | pair (msb lsb : Nat)
  | triple (msb lsb : Nat) (ftype : Int → Option Int)

def Field.Proper : Field → Prop
  | .bit _ => True
  | .pair msb lsb => lsb ≤ msb
  | .triple msb lsb _ => lsb ≤ msb

instance decidableProper (f : Field) : Decidable f.Proper :=
  match f with
  | .bit _ => inferInstanceAs (Decidable True)
  | .pair msb lsb => inferInstanceAs (Decidable (lsb ≤ msb))
  | .triple msb lsb _ => inferInstanceAs (Decidable (lsb ≤ msb))

/-- A subclass of `Register`, by its fields. -/
structure RegisterClass where
  fields : List (String × Field)
  proper : ∀ f ∈ fields, f.2.Proper

/-- `ftype((value >> lsb) & ((1 << ((msb + 1) - lsb)) - 1))`, before the type is applied. -/
def readBits (value : Int) (msb lsb : Nat) : Int := Int.land (value >>> lsb) (mask (msb + 1 - lsb))

def Field.read (value : Int) : Field → Option Int
  | .bit field => some (Int.land (value >>> field) 1)
  | .pair msb lsb => some (readBits value msb lsb)
  | .triple msb lsb ftype => ftype (readBits value msb lsb)

/-- `(value & ~(mask << lsb)) | ((fvalue & mask) << lsb)`. -/
def writeBits (value : Int) (msb lsb : Nat) (fvalue : Int) : Int :=
  Int.lor (Int.land value (Int.lnot (mask (msb + 1 - lsb) <<< lsb)))
    (Int.land fvalue (mask (msb + 1 - lsb)) <<< lsb)

def Field.write (value fvalue : Int) : Field → Int
  | .bit field =>
    Int.lor (Int.land value (Int.lnot ((1 : Int) <<< field))) (Int.land fvalue 1 <<< field)
  | .pair msb lsb => writeBits value msb lsb fvalue
  | .triple msb lsb _ => writeBits value msb lsb fvalue

def RegisterClass.getattr (c : RegisterClass) (value : Int) (attr : String) : Option Int :=
  (c.fields.lookup attr).bind (Field.read value)

/-- `__setattr__`, for a field: the new `_value`. -/
def RegisterClass.setattr (c : RegisterClass) (value : Int) (attr : String) (fvalue : Int) :
    Option Int :=
  (c.fields.lookup attr).map (Field.write value fvalue)

/-- `cls(v)`: every field is read once, to validate it. -/
def RegisterClass.init (c : RegisterClass) (v : Int) : Option Int :=
  if c.fields.all (fun f => (f.2.read v).isSome) then some v else none

/-- The loop of `RegAccessor.set`. -/
def RegisterClass.setattrs (c : RegisterClass) (kwargs : List (String × Int)) (r : Int) :
    Option Int :=
  kwargs.foldlM (fun r kv => c.setattr r kv.1 kv.2) r

/-- `RegAccessor.set`, where `val` is what was read: the value that is written.  Without a value
    there is no register to set. -/
def RegisterClass.set (c : RegisterClass) (val : Option Int) (kwargs : List (String × Int)) :
    Option Int := do
  let v ← val
  let r ← c.init v
  c.setattrs kwargs r

/-! ### Fields as slices -/

def Field.lsb : Field → Nat
  | .bit field => field
  | .pair _ lsb => lsb
  | .triple _ lsb _ => lsb

def Field.width : Field → Nat
  | .bit _ => 1
  | .pair msb lsb => msb + 1 - lsb
  | .triple msb lsb _ => msb + 1 - lsb

/-- What reading makes of the bits. -/
def Field.ftype : Field → Int → Option Int
  | .bit _ => some
  | .pair _ _ => some
  | .triple _ _ ftype => ftype

def Field.Plain (f : Field) : Prop := f.ftype = some

def Field.Disjoint (f g : Field) : Prop := Apart f.lsb f.width g.lsb g.width

theorem mask_one : mask 1 = 1 := rfl

theorem Field.read_eq (f : Field) (value : Int) :
    f.read value = f.ftype (slice value f.lsb f.width) := by
  cases f with
  | bit field => rw [read, lsb, width, slice, mask_one, ftype]
  | pair msb lsb => rfl
  | triple msb lsb ftype => rfl

theorem Field.write_eq (f : Field) (value fvalue : Int) :
    f.write value fvalue = splice value f.lsb f.width fvalue := by
  cases f with
  | bit field => rw [write, lsb, width, splice, mask_one]
  | pair msb lsb => rfl
  | triple msb lsb ftype => rfl

theorem Field.Disjoint.symm {f g : Field} (h : f.Disjoint g) : g.Disjoint f := Or.symm h

/-! ### The laws -/

section Laws

variable {c : RegisterClass} {v x : Int} {k k' : String} {f g : Field}

theorem getattr_eq (hk : c.fields.lookup k = some f) (v : Int) :
    c.getattr v k = f.ftype (slice v f.lsb f.width) := by
  rw [RegisterClass.getattr, hk, Option.bind_some, Field.read_eq]

theorem setattr_eq (hk : c.fields.lookup k = some f) (v x : Int) :
    c.setattr v k x = some (splice v f.lsb f.width x) := by
  rw [RegisterClass.setattr, hk, Option.map_some, Field.write_eq]

/-- What is left of a register after the assignment of `x` to a field. -/
structure Assigned (c : RegisterClass) (k : String) (f : Field) (v x v' : Int) : Prop where
  /-- The field reads as `x` cut to its width, passed through its type if it has one. -/
  read : c.getattr v' k = f.ftype (x % 2 ^ f.width)
  others : ∀ k' g, c.fields.lookup k' = some g → f.Disjoint g → c.getattr v' k' = c.getattr v k'
  bits : ∀ i, ¬ (f.lsb ≤ i ∧ i < f.lsb + f.width) → v'.testBit i = v.testBit i
  nonneg : 0 ≤ v → 0 ≤ v'

theorem assigned_splice (hk : c.fields.lookup k = some f) (v x : Int) :
    Assigned c k f v x (splice v f.lsb f.width x) where
  read := by rw [getattr_eq hk, slice_splice]
  others := by
    intro k' g hg hapart
    rw [getattr_eq hg, getattr_eq hg, slice_splice_of_apart v x hapart]
  bits := by
    intro i hout
    rw [testBit_splice, if_neg hout]
  nonneg := splice_nonneg x f.lsb f.width

/-- Two assignments to fields without a common bit can be exchanged, also if one of the names is
    no field and raises. -/
theorem setattr_comm (h : ∀ f g, c.fields.lookup k = some f → c.fields.lookup k' = some g →
    f.Disjoint g) (v x y : Int) :
    ((c.setattr v k x).bind fun r => c.setattr r k' y) =
      (c.setattr v k' y).bind fun r => c.setattr r k x := by
  cases hk : c.fields.lookup k with
  | none => simp [RegisterClass.setattr, hk]
  | some f =>
    cases hk' : c.fields.lookup k' with
    | none => simp [RegisterClass.setattr, hk']
    | some g =>
      rw [setattr_eq hk, setattr_eq hk', Option.bind_some, Option.bind_some, setattr_eq hk,
        setattr_eq hk', splice_comm v x (h f g hk hk')]

theorem setattrs_eq (kwargs : List (String × Int)) (r : Int) :
    c.setattrs kwargs r =
      kwargs.foldl (fun o kv => o.bind fun r => c.setattr r kv.1 kv.2) (some r) := by
  have hnone : ∀ kwargs : List (String × Int),
      kwargs.foldl (fun o kv => o.bind fun r => c.setattr r kv.1 kv.2) none = none := by
    intro kwargs
    induction kwargs with
    | nil => rfl
    | cons kv kwargs ih => exact ih
  rw [RegisterClass.setattrs]
  induction kwargs generalizing r with
  | nil => rfl
  | cons kv kwargs ih =>
    rw [List.foldlM_cons, List.foldl_cons, Option.bind_some]
    cases hset : c.setattr r kv.1 kv.2 with
    | none => exact (hnone kwargs).symm
    | some r' => exact ih r'

/-- The fields of the keywords have no bit in common. -/
def Separate (c : RegisterClass) (kwargs : List (String × Int)) : Prop :=
  kwargs.Pairwise fun a b => ∀ f g, c.fields.lookup a.1 = some f → c.fields.lookup b.1 = some g →
    f.Disjoint g

theorem setattrs_perm {kwargs kwargs' : List (String × Int)} (hsep : Separate c kwargs)
    (hperm : kwargs.Perm kwargs') (r : Int) : c.setattrs kwargs r = c.setattrs kwargs' r := by
  rw [setattrs_eq, setattrs_eq]
  refine hperm.foldl_eq' (fun a ha b hb o => ?_) _
  cases o with
  | none => rfl
  | some r =>
    by_cases hab : a = b
    · rw [hab]
    · have hsymm : Std.Symm fun a b : String × Int =>
          ∀ f g, c.fields.lookup a.1 = some f → c.fields.lookup b.1 = some g → f.Disjoint g :=
        ⟨fun a b h f g hf hg => (h g f hg hf).symm⟩
      have hapart := hsep.forall ha hb hab
      exact setattr_comm hapart r a.2 b.2

/-- **Fields of a register.** An assigned field reads as the value cut to its width, no other bit
    is touched, assigning what was read changes nothing, and the order of assignments to disjoint
    fields does not matter. -/
theorem register_field_laws (c : RegisterClass) (v : Int) :
    (∀ k f x, c.fields.lookup k = some f →
      ∃ v', c.setattr v k x = some v' ∧ Assigned c k f v x v' ∧
        (f.Plain → c.getattr v' k = some (x % 2 ^ f.width))) ∧
    (∀ k f, c.fields.lookup k = some f → f.Plain →
      ∃ y, c.getattr v k = some y ∧ c.setattr v k y = some v) ∧
    ∀ kwargs kwargs', Separate c kwargs → kwargs.Perm kwargs' →
      c.set (some v) kwargs = c.set (some v) kwargs' := by
  refine ⟨?_, ?_, ?_⟩
  · intro k f x hk
    have hassigned := assigned_splice hk v x
    refine ⟨_, setattr_eq hk v x, hassigned, fun hplain => ?_⟩
    rw [hassigned.read, hplain]
  · intro k f hk hplain
    refine ⟨slice v f.lsb f.width, ?_, ?_⟩
    · rw [getattr_eq hk, hplain]
    · rw [setattr_eq hk, splice_slice]
  · intro kwargs kwargs' hsep hperm
    change (c.init v).bind (c.setattrs kwargs) = (c.init v).bind (c.setattrs kwargs')
    congr 1
    funext r
    exact setattrs_perm hsep hperm r

end Laws

/-- A control register with an enable bit and a mode of three bits. -/
def controlClass : RegisterClass where
  fields := [("EN", .bit 0), ("MODE", .pair 6 4)]
  proper := by decide

/-- All bits of a negative number go into the mode, and none beside it. -/
theorem register_field_laws_control :
    ∃ v', controlClass.setattr 0x181 "MODE" (-1) = some v' ∧
      controlClass.getattr v' "MODE" = some 7 ∧
      controlClass.getattr v' "EN" = controlClass.getattr 0x181 "EN" ∧ v'.testBit 8 = true := by
  obtain ⟨v', hset, hassigned, hplain⟩ :=
    (register_field_laws controlClass 0x181).1 "MODE" (.pair 6 4) (-1) rfl
  refine ⟨v', hset, hplain rfl, hassigned.others "EN" (.bit 0) rfl (.inr (by decide)), ?_⟩
  exact (hassigned.bits 8 (by decide)).trans (by decide)

end MiniHaywire.Register
