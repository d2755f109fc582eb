import Mathlib.Data.List.TakeWhile
import MiniHaywire.Bytes
import MiniHaywire.Run

/-!
# Declarative binary formats

A format is a value of `Ty`: integers, strings, arrays, greedy ranges and structs.  The
library that parses and builds them is a parameter, the class `Library`.  Its first fields
are the functions of the library, the others are what is assumed of them, one law for each
kind of format: a fixed layout is read from so many bytes and written back to them, and a
struct member without a name is parsed and not stored, so that it cannot be built unless
it is a constant.  Nothing is assumed of the numbers with a fraction but that they are read.

`reference` is an implementation that satisfies the laws.  What is proved here holds of
every library that does; the reference is for running a format on given bytes.

`Ty.inverts` is the round trip: a format whose struct members can all be built writes back
exactly the bytes that it consumed.  `Fixed` is a format that takes the same number of
bytes whatever they are.
-/

namespace MiniHaywire.Construct

/-- How a parser or a builder fails: the input is too short, an attribute is missing,
    something else is wrong, or a greedy range of empty elements goes on for ever. -/
inductive Err where
  | stream
  | missing
  | other
  | loop
deriving DecidableEq

/-- Parsed values.  A floating-point number is kept as the bytes that it was read from, and
    `frac n` is the fraction `n / 65536`. -/
inductive Val where
  | none
  | num (n : Nat)
  | str (s : List Byte)
  | bytes (bs : List Byte)
  | float (bits : List Byte)
  | frac (n : Int)
  | list (vs : List Val)
  | struct (fields : List (String × Val))

abbrev Ctx := List (String × Val)

/-- The number of elements of an array: a literal, a field parsed before, or something
    that is not a number. -/
inductive Count where
  | lit (n : Nat)
  | this (key : String)
  | bad

/-- Functions between what a format parses and what is stored: an integer as the string of
    its `n` bytes, most significant first, or as a fraction with a sign bit. -/
inductive Adapter where
  | text (n : Nat)
  | fraction (sign : Nat)

mutual

/-- Formats.  `uint n` and `uintBe n` are integers of `n` bytes, `padded n` a string padded
    with NULs to `n` bytes, `flags` the eight bits of a byte, `const` a constant integer, and
    `sized` an element with its length in four bytes before it. -/
inductive Ty where
  | uint (n : Nat)
  | uintBe (n : Nat)
  | bytes (n : Nat)
  | cstring
  | padded (n : Nat)
  | flags (names : List String)
  | const (value n : Nat)
  | float32
  | adapter (elem : Ty) (a : Adapter)
  | sized (elem : Ty)
  | array (count : Count) (elem : Ty)
  | greedy (elem : Ty)
  | struct (members : Members)

inductive Members where
  | nil
  | cons (name : Option String) (ty : Ty) (rest : Members)

end

def members : List (Option String × Ty) → Members
  | [] => .nil
  | (name, ty) :: rest => .cons name ty (members rest)

/-! ### Layouts -/

abbrev Parser (α : Type) := List Byte → Except Err (α × List Byte)

def readN (n : Nat) (bs : List Byte) : Except Err (List Byte × List Byte) :=
  if n ≤ bs.length then .ok (bs.take n, bs.drop n) else .error .stream

/-- A value that is decoded from the next `n` bytes. -/
def reads (n : Nat) (decode : List Byte → Except Err Val) : Parser Val := fun bs => do
  let (w, rest) ← readN n bs
  let v ← decode w
  .ok (v, rest)

def untilNul : List Byte → Except Err (List Byte × List Byte)
  | [] => .error .stream
  | b :: bs =>
    if b = 0 then .ok ([], bs)
    else do
      let (s, rest) ← untilNul bs
      .ok (b :: s, rest)

def stripNul (s : List Byte) : List Byte := (s.reverse.dropWhile (· == 0)).reverse

def isAscii (s : List Byte) : Bool := s.all fun b => b.toNat < 128

def decodeAscii (s : List Byte) : Except Err Val :=
  if isAscii s then .ok (.str s) else .error .other

def Count.eval (ctx : Ctx) : Count → Except Err Nat
  | .lit n => .ok n
  | .this key =>
    match ctx.lookup key with
    | some (.num n) => .ok n
    | _ => .error .other
  | .bad => .error .other

def parseN {α : Type} (p : Parser α) : Nat → Parser (List α)
  | 0, bs => .ok ([], bs)
  | n + 1, bs => do
    let (v, bs) ← p bs
    let (vs, bs) ← parseN p n bs
    .ok (v :: vs, bs)

/-- Elements until one fails; `stop` says where the input is then, or that the failure is
    passed on.  An element that takes no input is parsed for ever. -/
def parseWhile (p : Parser Val) (stop : Err → List Byte → Except Err (List Byte)) :
    Nat → Parser (List Val)
  | 0, _ => .error .loop
  | fuel + 1, bs =>
    match p bs with
    | .error e => do
      let rest ← stop e bs
      .ok ([], rest)
    | .ok (v, rest) =>
      if rest.length < bs.length then do
        let (vs, rest) ← parseWhile p stop fuel rest
        .ok (v :: vs, rest)
      else .error .loop

/-- The failed element is put back. -/
def putBack : Err → List Byte → Except Err (List Byte)
  | .loop, _ => .error .loop
  | _, bs => .ok bs

def flagBits (b : Byte) : List Bool := (List.range 8).map b.getMsbD

def ofFlagBits (bits : List Bool) : Byte :=
  bits.foldl (fun acc bit => acc * 2 + (if bit then 1 else 0)) 0

def flagVal (bit : Bool) : Val := .num bit.toNat

def Adapter.decode : Adapter → Val → Except Err Val
  | .text n, .num v => .ok (.str (leBytes n v).reverse)
  | .fraction sign, .num x => .ok (.frac (x - ((x &&& sign) <<< 1 : Nat)))
  | _, _ => .error .other

def Adapter.encode : Adapter → Val → Except Err Val
  | .text _, .str s => .ok (.num (leNat s.reverse))
  | .fraction sign, .frac n => .ok (.num (n % (2 * sign)).toNat)
  | _, _ => .error .other

/-- The members of a struct one after the other; those without a name are not stored. -/
def Members.parse (p : Ty → Ctx → Parser Val) : Members → Ctx → Parser Ctx
  | .nil, ctx, bs => .ok (ctx, bs)
  | .cons name ty rest, ctx, bs => do
    let (v, bs) ← p ty ctx bs
    match name with
    | some key => rest.parse p (ctx ++ [(key, v)]) bs
    | none => rest.parse p ctx bs

def buildAll {α : Type} (b : α → Except Err (List Byte)) : List α → Except Err (List Byte)
  | [] => .ok []
  | v :: vs => do
    let out ← b v
    let outs ← buildAll b vs
    .ok (out ++ outs)

def buildUint (n v : Nat) : Except Err (List Byte) :=
  if v < 256 ^ n then .ok (leBytes n v) else .error .other

def buildFlags (fields : Ctx) : List String → Except Err (List Bool)
  | [] => .ok []
  | name :: names =>
    match fields.lookup name with
    | some (.num n) => do
      let bits ← buildFlags fields names
      .ok ((n != 0) :: bits)
    | _ => .error .other

def Ty.isConst : Ty → Bool
  | .const _ _ => true
  | _ => false

/-- The members of a struct from its fields.  Nothing is stored for a member without a
    name, so only a constant can be written there. -/
def Members.build (b : Ty → Ctx → Val → Except Err (List Byte)) :
    Members → Ctx → Except Err (List Byte)
  | .nil, _ => .ok []
  | .cons (some key) ty rest, obj =>
    match obj.lookup key with
    | some v => do
      let out ← b ty obj v
      let outs ← rest.build b obj
      .ok (out ++ outs)
    | none => .error .other
  | .cons none ty rest, obj =>
    if ty.isConst then do
      let out ← b ty obj .none
      let outs ← rest.build b obj
      .ok (out ++ outs)
    else .error .other

def Members.sizeof (size : Ty → Option Nat) : Members → Option Nat
  | .nil => some 0
  | .cons _ ty rest => do
    let n ← size ty
    let m ← rest.sizeof size
    some (n + m)

/-! ### The library -/

/-- The format library, and what is assumed of it. -/
class Library where
  parse : Ty → Ctx → Parser Val
  build : Ty → Ctx → Val → Except Err (List Byte)
  sizeof : Ty → Option Nat
  /-- What a read behind the end leaves of the input. -/
  shortRead : List Byte → List Byte
  shortRead_eq (bs : List Byte) : shortRead bs = []
  parse_uint (n : Nat) (ctx : Ctx) : parse (.uint n) ctx = reads n fun w => .ok (.num (leNat w))
  parse_uintBe (n : Nat) (ctx : Ctx) :
    parse (.uintBe n) ctx = reads n fun w => .ok (.num (leNat w.reverse))
  parse_bytes (n : Nat) (ctx : Ctx) : parse (.bytes n) ctx = reads n fun w => .ok (.bytes w)
  parse_cstring (ctx : Ctx) (bs : List Byte) : parse .cstring ctx bs = (do
    let (s, rest) ← untilNul bs
    let v ← decodeAscii s
    .ok (v, rest))
  parse_padded (n : Nat) (ctx : Ctx) :
    parse (.padded n) ctx = reads n fun w => decodeAscii (stripNul w)
  parse_flags (names : List String) (ctx : Ctx) : parse (.flags names) ctx =
    reads 1 fun w => .ok (.struct (names.zip ((flagBits (w.headD 0)).map flagVal)))
  parse_const (value n : Nat) (ctx : Ctx) : parse (.const value n) ctx =
    reads n fun w => if leNat w = value then .ok (.num value) else .error .other
  parse_float32 (ctx : Ctx) : parse .float32 ctx = reads 4 fun w => .ok (.float w)
  parse_adapter (elem : Ty) (a : Adapter) (ctx : Ctx) (bs : List Byte) :
    parse (.adapter elem a) ctx bs = (do
      let (v, rest) ← parse elem ctx bs
      let v ← a.decode v
      .ok (v, rest))
  parse_sized (elem : Ty) (ctx : Ctx) (bs : List Byte) : parse (.sized elem) ctx bs = (do
    let (w, rest) ← readN 4 bs
    let (data, rest) ← readN (leNat w) rest
    let (v, _) ← parse elem ctx data
    .ok (v, rest))
  parse_array (count : Count) (elem : Ty) (ctx : Ctx) (bs : List Byte) :
    parse (.array count elem) ctx bs = (do
      let n ← count.eval ctx
      let (vs, rest) ← parseN (parse elem ctx) n bs
      .ok (.list vs, rest))
  parse_greedy (elem : Ty) (ctx : Ctx) (bs : List Byte) : parse (.greedy elem) ctx bs = (do
    let (vs, rest) ← parseWhile (parse elem ctx) putBack (bs.length + 1) bs
    .ok (.list vs, rest))
  parse_struct (members : Members) (ctx : Ctx) (bs : List Byte) :
    parse (.struct members) ctx bs = (do
      let (fields, rest) ← members.parse parse [] bs
      .ok (.struct fields, rest))
  build_uint (n : Nat) (ctx : Ctx) (v : Nat) : build (.uint n) ctx (.num v) = buildUint n v
  build_uintBe (n : Nat) (ctx : Ctx) (v : Nat) :
    build (.uintBe n) ctx (.num v) = (buildUint n v).map List.reverse
  build_bytes (n : Nat) (ctx : Ctx) (bs : List Byte) :
    build (.bytes n) ctx (.bytes bs) = if bs.length = n then .ok bs else .error .other
  build_cstring (ctx : Ctx) (s : List Byte) :
    build .cstring ctx (.str s) = if isAscii s then .ok (s ++ [0]) else .error .other
  build_padded (n : Nat) (ctx : Ctx) (s : List Byte) : build (.padded n) ctx (.str s) =
    if isAscii s ∧ s.length ≤ n then .ok (ljust n s) else .error .other
  build_flags (names : List String) (ctx fields : Ctx) : build (.flags names) ctx (.struct fields) =
    (buildFlags fields names).map fun bits => [ofFlagBits bits]
  build_const (value n : Nat) (ctx : Ctx) (v : Val) :
    build (.const value n) ctx v = buildUint n value
  build_adapter (elem : Ty) (a : Adapter) (ctx : Ctx) (v : Val) :
    build (.adapter elem a) ctx v = a.encode v >>= build elem ctx
  build_array (count : Count) (elem : Ty) (ctx : Ctx) (vs : List Val) :
    build (.array count elem) ctx (.list vs) = (do
      let n ← count.eval ctx
      if vs.length = n then buildAll (build elem ctx) vs else .error .other)
  build_greedy (elem : Ty) (ctx : Ctx) (vs : List Val) :
    build (.greedy elem) ctx (.list vs) = buildAll (build elem ctx) vs
  build_struct (members : Members) (ctx fields : Ctx) :
    build (.struct members) ctx (.struct fields) = members.build build fields
  sizeof_uint (n : Nat) : sizeof (.uint n) = some n
  sizeof_array (k : Nat) (elem : Ty) :
    sizeof (.array (.lit k) elem) = (sizeof elem).map (k * ·)
  sizeof_bad (elem : Ty) : sizeof (.array .bad elem) = none
  sizeof_struct (members : Members) : sizeof (.struct members) = members.sizeof sizeof

/-! ### A reference implementation -/

namespace Reference

mutual

def parse : Ty → Ctx → Parser Val
  | .uint n, _, bs => reads n (fun w => .ok (.num (leNat w))) bs
  | .uintBe n, _, bs => reads n (fun w => .ok (.num (leNat w.reverse))) bs
  | .bytes n, _, bs => reads n (fun w => .ok (.bytes w)) bs
  | .cstring, _, bs => do
    let (s, rest) ← untilNul bs
    let v ← decodeAscii s
    .ok (v, rest)
  | .padded n, _, bs => reads n (fun w => decodeAscii (stripNul w)) bs
  | .flags names, _, bs =>
    reads 1 (fun w => .ok (.struct (names.zip ((flagBits (w.headD 0)).map flagVal)))) bs
  | .const value n, _, bs =>
    reads n (fun w => if leNat w = value then .ok (.num value) else .error .other) bs
  | .float32, _, bs => reads 4 (fun w => .ok (.float w)) bs
  | .adapter elem a, ctx, bs => do
    let (v, rest) ← parse elem ctx bs
    let v ← a.decode v
    .ok (v, rest)
  | .sized elem, ctx, bs => do
    let (w, rest) ← readN 4 bs
    let (data, rest) ← readN (leNat w) rest
    let (v, _) ← parse elem ctx data
    .ok (v, rest)
  | .array count elem, ctx, bs => do
    let n ← count.eval ctx
    let (vs, rest) ← parseN (parse elem ctx) n bs
    .ok (.list vs, rest)
  | .greedy elem, ctx, bs => do
    let (vs, rest) ← parseWhile (parse elem ctx) putBack (bs.length + 1) bs
    .ok (.list vs, rest)
  | .struct members, _, bs => do
    let (fields, rest) ← parseMembers members [] bs
    .ok (.struct fields, rest)

def parseMembers : Members → Ctx → Parser Ctx
  | .nil, ctx, bs => .ok (ctx, bs)
  | .cons name ty rest, ctx, bs => do
    let (v, bs) ← parse ty ctx bs
    match name with
    | some key => parseMembers rest (ctx ++ [(key, v)]) bs
    | none => parseMembers rest ctx bs

end

mutual

def build : Ty → Ctx → Val → Except Err (List Byte)
  | .uint n, _, .num v => buildUint n v
  | .uintBe n, _, .num v => (buildUint n v).map List.reverse
  | .bytes n, _, .bytes bs => if bs.length = n then .ok bs else .error .other
  | .cstring, _, .str s => if isAscii s then .ok (s ++ [0]) else .error .other
  | .padded n, _, .str s =>
    if isAscii s ∧ s.length ≤ n then .ok (ljust n s) else .error .other
  | .flags names, _, .struct fields =>
    (buildFlags fields names).map fun bits => [ofFlagBits bits]
  | .const value n, _, _ => buildUint n value
  | .float32, _, .float bits => .ok bits
  | .adapter elem a, ctx, v => a.encode v >>= build elem ctx
  | .array count elem, ctx, .list vs => do
    let n ← count.eval ctx
    if vs.length = n then buildAll (build elem ctx) vs else .error .other
  | .greedy elem, ctx, .list vs => buildAll (build elem ctx) vs
  | .sized elem, ctx, v => do
    let out ← build elem ctx v
    let size ← buildUint 4 out.length
    .ok (size ++ out)
  | .struct members, _, .struct fields => buildMembers members fields
  | _, _, _ => .error .other

def buildMembers : Members → Ctx → Except Err (List Byte)
  | .nil, _ => .ok []
  | .cons (some key) ty rest, obj =>
    match obj.lookup key with
    | some v => do
      let out ← build ty obj v
      let outs ← buildMembers rest obj
      .ok (out ++ outs)
    | none => .error .other
  | .cons none ty rest, obj =>
    if ty.isConst then do
      let out ← build ty obj .none
      let outs ← buildMembers rest obj
      .ok (out ++ outs)
    else .error .other

end

mutual

def sizeof : Ty → Option Nat
  | .uint n => some n
  | .uintBe n => some n
  | .bytes n => some n
  | .cstring => none
  | .padded n => some n
  | .flags _ => some 1
  | .const _ n => some n
  | .float32 => some 4
  | .adapter elem _ => sizeof elem
  | .sized _ => none
  | .array (.lit k) elem => (sizeof elem).map (k * ·)
  | .array _ _ => none
  | .greedy _ => none
  | .struct members => sizeofMembers members

def sizeofMembers : Members → Option Nat
  | .nil => some 0
  | .cons _ ty rest => do
    let n ← sizeof ty
    let m ← sizeofMembers rest
    some (n + m)

end

theorem parseMembers_eq : ∀ (ms : Members) (ctx : Ctx) (bs : List Byte),
    parseMembers ms ctx bs = ms.parse parse ctx bs
  | .nil, ctx, bs => rfl
  | .cons name ty rest, ctx, bs => by
    rw [parseMembers, Members.parse]
    cases parse ty ctx bs with
    | error e => rfl
    | ok r =>
      cases name with
      | none => exact parseMembers_eq rest ctx r.2
      | some key => exact parseMembers_eq rest (ctx ++ [(key, r.1)]) r.2

theorem buildMembers_eq : ∀ (ms : Members) (obj : Ctx),
    buildMembers ms obj = ms.build build obj
  | .nil, obj => rfl
  | .cons (some key) ty rest, obj => by
    rw [buildMembers, Members.build, buildMembers_eq rest obj]
  | .cons none ty rest, obj => by rw [buildMembers, Members.build, buildMembers_eq rest obj]

theorem sizeofMembers_eq : ∀ ms : Members, sizeofMembers ms = ms.sizeof sizeof
  | .nil => rfl
  | .cons name ty rest => by rw [sizeofMembers, Members.sizeof, sizeofMembers_eq rest]

end Reference

@[reducible] def reference : Library where
  parse := Reference.parse
  build := Reference.build
  sizeof := Reference.sizeof
  shortRead _ := []
  shortRead_eq _ := rfl
  parse_uint _ _ := funext fun _ => by rw [Reference.parse]
  parse_uintBe _ _ := funext fun _ => by rw [Reference.parse]
  parse_bytes _ _ := funext fun _ => by rw [Reference.parse]
  parse_cstring _ _ := by rw [Reference.parse]
  parse_padded _ _ := funext fun _ => by rw [Reference.parse]
  parse_flags _ _ := funext fun _ => by rw [Reference.parse]
  parse_const _ _ _ := funext fun _ => by rw [Reference.parse]
  parse_float32 _ := funext fun _ => by rw [Reference.parse]
  parse_adapter _ _ _ _ := by rw [Reference.parse]
  parse_sized _ _ _ := by rw [Reference.parse]
  parse_array _ _ _ _ := by rw [Reference.parse]
  parse_greedy _ _ _ := by rw [Reference.parse]
  parse_struct _ _ _ := by rw [Reference.parse, Reference.parseMembers_eq]
  build_uint _ _ _ := by rw [Reference.build]
  build_uintBe _ _ _ := by rw [Reference.build]
  build_bytes _ _ _ := by rw [Reference.build]
  build_cstring _ _ := by rw [Reference.build]
  build_padded _ _ _ := by rw [Reference.build]
  build_flags _ _ _ := by rw [Reference.build]
  build_const _ _ _ _ := by rw [Reference.build]
  build_adapter _ _ _ _ := by rw [Reference.build]
  build_array _ _ _ _ := by rw [Reference.build]
  build_greedy _ _ _ := by rw [Reference.build]
  build_struct _ _ _ := by rw [Reference.build, Reference.buildMembers_eq]
  sizeof_uint _ := by rw [Reference.sizeof]
  sizeof_array _ _ := by rw [Reference.sizeof]
  sizeof_bad _ := by rw [Reference.sizeof]; exact nofun
  sizeof_struct _ := by rw [Reference.sizeof, Reference.sizeofMembers_eq]

/-! ### The primitives, read backwards -/

section Primitives

variable {n : Nat} {bs w s rest : List Byte}

theorem readN_eq_ok (h : readN n bs = .ok (w, rest)) : w.length = n ∧ bs = w ++ rest := by
  unfold readN at h
  split at h
  · rename_i hle
    cases h
    exact ⟨List.length_take_of_le hle, (List.take_append_drop n bs).symm⟩
  · contradiction

theorem readN_append (hw : w.length = n) : readN n (w ++ rest) = .ok (w, rest) := by
  have hle : n ≤ (w ++ rest).length := by
    rw [List.length_append]
    omega
  rw [readN, if_pos hle, List.take_left' hw, List.drop_left' hw]

theorem reads_eq_ok {decode : List Byte → Except Err Val} {v : Val}
    (h : reads n decode bs = .ok (v, rest)) :
    ∃ w, w.length = n ∧ bs = w ++ rest ∧ decode w = .ok v := by
  obtain ⟨⟨w, rest'⟩, hread, h⟩ := except_bind_eq_ok h
  obtain ⟨v', hv, h⟩ := except_bind_eq_ok h
  cases h
  obtain ⟨hlen, rfl⟩ := readN_eq_ok hread
  exact ⟨w, hlen, rfl, hv⟩

theorem reads_append {decode : List Byte → Except Err Val} (hw : w.length = n) {v : Val}
    (hv : decode w = .ok v) : reads n decode (w ++ rest) = .ok (v, rest) := by
  rw [reads, readN_append hw, except_ok_bind]
  dsimp only
  rw [hv, except_ok_bind]

theorem untilNul_eq_ok (h : untilNul bs = .ok (s, rest)) : bs = s ++ 0 :: rest := by
  induction bs generalizing s with
  | nil => contradiction
  | cons b bs ih =>
    rw [untilNul] at h
    split at h
    · rename_i hb
      cases h
      rw [hb]
      rfl
    · obtain ⟨⟨t, rest'⟩, ht, h⟩ := except_bind_eq_ok h
      cases h
      rw [ih ht]
      rfl

theorem decodeAscii_eq_ok {v : Val} (h : decodeAscii s = .ok v) :
    isAscii s = true ∧ v = .str s := by
  unfold decodeAscii at h
  split at h
  · rename_i hs
    exact ⟨hs, (Except.ok.inj h).symm⟩
  · contradiction

theorem leBytes_leNat (bs : List Byte) : leBytes bs.length (leNat bs) = bs := by
  induction bs with
  | nil => rfl
  | cons b bs ih =>
    have hb : b.toNat < 256 := b.isLt
    have hlow : BitVec.ofNat 8 (b.toNat + 256 * leNat bs) = b := by
      apply BitVec.eq_of_toNat_eq
      rw [BitVec.toNat_ofNat]
      omega
    have hhigh : (b.toNat + 256 * leNat bs) / 256 = leNat bs := by omega
    rw [List.length_cons, leNat, leBytes, hlow, hhigh, ih]

theorem buildUint_leNat (hw : w.length = n) : buildUint n (leNat w) = .ok w := by
  have hlt := leNat_lt w
  rw [hw] at hlt
  rw [buildUint, if_pos hlt, ← hw, leBytes_leNat]

theorem ljust_stripNul (hw : w.length = n) : ljust n (stripNul w) = w := by
  have hsplit := List.takeWhile_append_dropWhile (p := (· == (0 : Byte))) (l := w.reverse)
  have hzeros : w.reverse.takeWhile (· == 0) =
      List.replicate (w.reverse.takeWhile (· == 0)).length 0 := by
    rw [List.eq_replicate_iff]
    refine ⟨rfl, ?_⟩
    intro b hb
    have hzero : (b == 0) = true := List.mem_takeWhile_imp (p := (· == 0)) hb
    exact eq_of_beq hzero
  have hrev := congrArg List.reverse hsplit
  rw [List.reverse_append, List.reverse_reverse, hzeros, List.reverse_replicate] at hrev
  have hlen := congrArg List.length hrev
  rw [List.length_append, List.length_replicate, hw] at hlen
  have hpad : n - (stripNul w).length = (w.reverse.takeWhile (· == 0)).length := by
    unfold stripNul
    omega
  rw [ljust, hpad]
  exact hrev

theorem stripNul_ljust (hs : ∀ b ∈ s, b ≠ 0) : stripNul (ljust n s) = s := by
  have hzeros : ∀ b ∈ (List.replicate (n - s.length) (0 : Byte)), (b == 0) = true := by
    intro b hb
    rw [List.eq_of_mem_replicate hb]
    rfl
  have hstop : s.reverse.dropWhile (· == 0) = s.reverse := by
    cases hrev : s.reverse with
    | nil => rfl
    | cons b bs =>
      have hb : b ∈ s := List.mem_reverse.mp (hrev ▸ List.mem_cons_self)
      rw [List.dropWhile_cons_of_neg (by simpa using hs b hb)]
  rw [stripNul, ljust, List.reverse_append, List.reverse_replicate,
    List.dropWhile_append_of_pos hzeros, hstop, List.reverse_reverse]

theorem length_stripNul_le (w : List Byte) : (stripNul w).length ≤ w.length := by
  have hdrop := List.length_dropWhile_le (· == 0) w.reverse
  rw [List.length_reverse] at hdrop
  rw [stripNul, List.length_reverse]
  exact hdrop

theorem ofFlagBits_flagBits (b : Byte) : ofFlagBits (flagBits b) = b := by
  revert b
  decide +kernel

end Primitives

/-! ### Repeated elements -/

section Repeated

variable {p : Parser Val} {b : Val → Except Err (List Byte)}
  {stop : Err → List Byte → Except Err (List Byte)}

/-- The builder writes back what the parser consumed. -/
def Inverts (p : Parser Val) (b : Val → Except Err (List Byte)) :
    Prop :=
  ∀ bs v rest, p bs = .ok (v, rest) → ∃ out, b v = .ok out ∧ bs = out ++ rest

/-- Elements parsed one after the other, up to `tail`; each takes some input. -/
inductive Elements (p : Parser Val) :
    List Byte → List Val → List Byte → Prop
  | nil (bs : List Byte) : Elements p bs [] bs
  | cons {bs rest tail : List Byte} {v : Val} {vs : List Val} (head : p bs = .ok (v, rest))
      (less : rest.length < bs.length) (more : Elements p rest vs tail) :
      Elements p bs (v :: vs) tail

theorem parseN_inverts (hinv : Inverts p b) (n : Nat) {bs rest : List Byte} {vs : List Val}
    (h : parseN p n bs = .ok (vs, rest)) :
    vs.length = n ∧ ∃ out, buildAll b vs = .ok out ∧ bs = out ++ rest := by
  induction n generalizing bs vs with
  | zero =>
    cases h
    exact ⟨rfl, [], rfl, rfl⟩
  | succ n ih =>
    rw [parseN] at h
    obtain ⟨⟨v, bs₁⟩, hv, h⟩ := except_bind_eq_ok h
    obtain ⟨⟨vs', bs₂⟩, hvs, h⟩ := except_bind_eq_ok h
    cases h
    obtain ⟨out, hout, rfl⟩ := hinv _ _ _ hv
    obtain ⟨hlen, outs, houts, rfl⟩ := ih hvs
    refine ⟨by rw [List.length_cons, hlen], out ++ outs, ?_, (List.append_assoc _ _ _).symm⟩
    rw [buildAll, hout, except_ok_bind, houts, except_ok_bind]

theorem parseN_sound {α : Type} {q : Parser α}
    {enc : α → List Byte} {Valid : α → Prop}
    (hq : ∀ bs x rest, q bs = .ok (x, rest) → Valid x ∧ bs = enc x ++ rest) (n : Nat)
    {bs rest : List Byte} {xs : List α} (h : parseN q n bs = .ok (xs, rest)) :
    xs.length = n ∧ (∀ x ∈ xs, Valid x) ∧ bs = xs.flatMap enc ++ rest := by
  induction n generalizing bs xs with
  | zero =>
    cases h
    exact ⟨rfl, by simp, rfl⟩
  | succ n ih =>
    rw [parseN] at h
    obtain ⟨⟨x, bs₁⟩, hx, h⟩ := except_bind_eq_ok h
    obtain ⟨⟨xs', bs₂⟩, hxs, h⟩ := except_bind_eq_ok h
    cases h
    obtain ⟨hvalid, rfl⟩ := hq _ _ _ hx
    obtain ⟨hlen, hall, rfl⟩ := ih hxs
    refine ⟨by rw [List.length_cons, hlen], ?_, by rw [List.flatMap_cons, List.append_assoc]⟩
    intro y hy
    rcases List.mem_cons.mp hy with rfl | hy
    · exact hvalid
    · exact hall y hy

theorem parseN_enc {α : Type} {q : Parser α} {enc : α → List Byte}
    {xs : List α} (hq : ∀ x ∈ xs, ∀ rest, q (enc x ++ rest) = .ok (x, rest)) (rest : List Byte) :
    parseN q xs.length (xs.flatMap enc ++ rest) = .ok (xs, rest) := by
  induction xs with
  | nil => rfl
  | cons x xs ih =>
    have hrest := ih fun y hy => hq y (List.mem_cons_of_mem x hy)
    rw [List.length_cons, parseN, List.flatMap_cons, List.append_assoc,
      hq x List.mem_cons_self, except_ok_bind]
    dsimp only
    rw [hrest, except_ok_bind]

/-- If the parser gives back nothing but the element, a fixed number of them gives back nothing
    but the elements. -/
theorem parseN_exact {α β : Type} {q : Parser α} {enc : β → List Byte}
    {f : β → α} (xs : List β)
    (h : ∀ x ∈ xs, ∀ rest y r, q (enc x ++ rest) = .ok (y, r) → y = f x ∧ r = rest)
    {rest r : List Byte} {ys : List α}
    (hparse : parseN q xs.length (xs.flatMap enc ++ rest) = .ok (ys, r)) :
    ys = xs.map f ∧ r = rest := by
  induction xs generalizing ys with
  | nil =>
    cases hparse
    exact ⟨rfl, rfl⟩
  | cons x xs ih =>
    rw [List.length_cons, List.flatMap_cons, List.append_assoc, parseN] at hparse
    obtain ⟨⟨y, bs⟩, hy, hparse⟩ := except_bind_eq_ok hparse
    obtain ⟨rfl, rfl⟩ := h x List.mem_cons_self _ y bs hy
    obtain ⟨⟨ys', r'⟩, hys, hparse⟩ := except_bind_eq_ok hparse
    cases hparse
    obtain ⟨rfl, rfl⟩ := ih (fun z hz => h z (List.mem_cons_of_mem x hz)) hys
    exact ⟨rfl, rfl⟩

theorem parseWhile_elements {fuel : Nat} {bs rest : List Byte} {vs : List Val}
    (h : parseWhile p stop fuel bs = .ok (vs, rest)) :
    ∃ tail e, Elements p bs vs tail ∧ p tail = .error e ∧ stop e tail = .ok rest := by
  induction fuel generalizing bs vs with
  | zero => contradiction
  | succ fuel ih =>
    rw [parseWhile] at h
    split at h
    · rename_i e he
      obtain ⟨rest', hstop, h⟩ := except_bind_eq_ok h
      cases h
      exact ⟨bs, e, .nil bs, he, hstop⟩
    · rename_i v rest₁ hv
      split at h
      · rename_i hless
        obtain ⟨⟨vs', rest₂⟩, hvs, h⟩ := except_bind_eq_ok h
        cases h
        obtain ⟨tail, e, helems, he, hstop⟩ := ih hvs
        exact ⟨tail, e, .cons hv hless helems, he, hstop⟩
      · contradiction

theorem Elements.build (hinv : Inverts p b) {bs tail : List Byte} {vs : List Val}
    (h : Elements p bs vs tail) : ∃ out, buildAll b vs = .ok out ∧ bs = out ++ tail := by
  induction h with
  | nil bs => exact ⟨[], rfl, rfl⟩
  | cons head less more ih =>
    obtain ⟨out, hout, rfl⟩ := hinv _ _ _ head
    obtain ⟨outs, houts, hrest⟩ := ih
    refine ⟨out ++ outs, ?_, by rw [List.append_assoc, ← hrest]⟩
    rw [buildAll, hout, except_ok_bind, houts, except_ok_bind]

theorem putBack_eq_ok {e : Err} {bs rest : List Byte} (h : putBack e bs = .ok rest) :
    rest = bs := by
  cases e with
  | loop => contradiction
  | stream | missing | other => exact (Except.ok.inj h).symm

end Repeated

/-! ### The round trip -/

/-- The second context has all fields of the first. -/
def Extends (ctx ctx' : Ctx) : Prop := ∀ key v, ctx.lookup key = some v → ctx'.lookup key = some v

theorem extends_refl (ctx : Ctx) : Extends ctx ctx := fun _ _ h => h

theorem Extends.eval {ctx ctx' : Ctx} (h : Extends ctx ctx') {count : Count} {n : Nat}
    (hn : count.eval ctx = .ok n) : count.eval ctx' = .ok n := by
  cases count with
  | lit m => exact hn
  | bad => contradiction
  | this key =>
    rw [Count.eval] at hn ⊢
    split at hn
    · rename_i m hlookup
      rw [h _ _ hlookup]
      exact hn
    · contradiction

theorem lookup_append (key : String) (ctx new : Ctx) :
    (ctx ++ new).lookup key = (ctx.lookup key).or (new.lookup key) := by
  induction ctx with
  | nil => rfl
  | cons field ctx ih =>
    obtain ⟨k, v⟩ := field
    rw [List.cons_append, List.lookup_cons, List.lookup_cons, ih]
    cases key == k with
    | true => rfl
    | false => rfl

theorem extends_append (ctx new : Ctx) : Extends ctx (ctx ++ new) := by
  intro key v h
  rw [lookup_append, h]
  rfl

theorem buildFlags_zip {names : List String} (hnodup : names.Nodup) {bits : List Bool}
    (hlen : names.length = bits.length) (pre : Ctx)
    (hpre : ∀ name ∈ names, pre.lookup name = none) :
    buildFlags (pre ++ names.zip (bits.map flagVal)) names = .ok bits := by
  induction names generalizing bits pre with
  | nil =>
    cases bits with
    | nil => rfl
    | cons bit bits => contradiction
  | cons name names ih =>
    cases bits with
    | nil => contradiction
    | cons bit bits =>
      obtain ⟨hnot, hnodup⟩ := List.nodup_cons.mp hnodup
      have hfound : (pre ++ (name :: names).zip ((bit :: bits).map flagVal)).lookup name =
          some (flagVal bit) := by
        rw [lookup_append, hpre name (by simp)]
        simp
      have hrest : pre ++ (name :: names).zip ((bit :: bits).map flagVal) =
          (pre ++ [(name, flagVal bit)]) ++ names.zip (bits.map flagVal) := by simp
      have hpre' : ∀ other ∈ names, (pre ++ [(name, flagVal bit)]).lookup other = none := by
        intro other hother
        have hne : other ≠ name := fun heq => hnot (heq ▸ hother)
        rw [lookup_append, hpre other (by simp [hother]), List.lookup_cons,
          beq_eq_false_iff_ne.mpr hne]
        rfl
      have hbits := ih hnodup (Nat.succ.inj hlen) (pre ++ [(name, flagVal bit)]) hpre'
      rw [buildFlags, hfound, hrest, flagVal]
      dsimp only
      rw [← flagVal, hbits, except_ok_bind]
      cases bit with
      | true => rfl
      | false => rfl

/-- The adapter can be undone on what the format parses. -/
def Adapter.fits : Adapter → Ty → Bool
  | .text n, .uint m => n == m
  | _, _ => false

mutual

/-- Every member of every struct can be built: it has a name of its own, or is a
    constant.  Of numbers with a fraction nothing is said. -/
def Ty.sound : Ty → Bool
  | .flags names => names.length == 8 && names.Nodup
  | .float32 => false
  | .adapter elem a => a.fits elem
  | .sized _ => false
  | .array _ elem => elem.sound
  | .greedy elem => elem.sound
  | .struct members => members.sound []
  | _ => true

def Members.sound : Members → List String → Bool
  | .nil, _ => true
  | .cons (some key) ty rest, seen => !seen.contains key && ty.sound && rest.sound (key :: seen)
  | .cons none ty rest, seen => ty.isConst && rest.sound seen

end

theorem Members.parse_extends : ∀ (ms : Members) {p : Ty → Ctx → Parser Val} {ctx obj : Ctx}
    {bs rest : List Byte},
    ms.parse p ctx bs = .ok (obj, rest) → Extends ctx obj
  | .nil, p, ctx, obj, bs, rest, h => by
    rw [Members.parse] at h
    cases h
    exact extends_refl ctx
  | .cons name ty ms, p, ctx, obj, bs, rest, h => by
    rw [Members.parse] at h
    obtain ⟨⟨v, bs₁⟩, -, h⟩ := except_bind_eq_ok h
    cases name with
    | none => exact ms.parse_extends h
    | some key =>
      have hmore := ms.parse_extends h
      exact fun k x hlookup => hmore k x (extends_append ctx [(key, v)] k x hlookup)

def Members.keys : Members → List String
  | .nil => []
  | .cons (some key) _ rest => key :: rest.keys
  | .cons none _ rest => rest.keys

theorem Members.lookup_keys : ∀ (ms : Members) {p : Ty → Ctx → Parser Val} {ctx obj : Ctx}
    {bs rest : List Byte} {key : String},
    ms.parse p ctx bs = .ok (obj, rest) → ctx.lookup key = none → key ∉ ms.keys →
    obj.lookup key = none
  | .nil, p, ctx, obj, bs, rest, key, h, hctx, _ => by
    rw [Members.parse] at h
    cases h
    exact hctx
  | .cons name ty ms, p, ctx, obj, bs, rest, key, h, hctx, hkey => by
    rw [Members.parse] at h
    obtain ⟨⟨v, bs₁⟩, -, h⟩ := except_bind_eq_ok h
    cases name with
    | none => exact ms.lookup_keys h hctx hkey
    | some other =>
      obtain ⟨hne, hkey⟩ := List.ne_and_not_mem_of_not_mem_cons hkey
      refine ms.lookup_keys h ?_ hkey
      rw [lookup_append, hctx, List.lookup_cons, beq_eq_false_iff_ne.mpr hne]
      rfl

/-- Every member has a name or is a constant. -/
def Members.stored : Members → Bool
  | .nil => true
  | .cons (some _) _ rest => rest.stored
  | .cons none ty rest => ty.isConst && rest.stored

theorem Members.stored_of_build : ∀ (ms : Members) {b : Ty → Ctx → Val → Except Err (List Byte)}
    {obj : Ctx} {out : List Byte}, ms.build b obj = .ok out → ms.stored = true
  | .nil, b, obj, out, _ => rfl
  | .cons (some key) ty ms, b, obj, out, h => by
    rw [Members.build] at h
    split at h
    · obtain ⟨_, -, h⟩ := except_bind_eq_ok h
      obtain ⟨outs, houts, -⟩ := except_bind_eq_ok h
      exact ms.stored_of_build houts
    · contradiction
  | .cons none ty ms, b, obj, out, h => by
    rw [Members.build] at h
    split at h
    · rename_i hconst
      obtain ⟨_, -, h⟩ := except_bind_eq_ok h
      obtain ⟨outs, houts, -⟩ := except_bind_eq_ok h
      rw [Members.stored, hconst, ms.stored_of_build houts]
      rfl
    · contradiction

theorem Members.stored_of_sound : ∀ (ms : Members) {seen : List String}, ms.sound seen = true →
    ms.stored = true
  | .nil, seen, _ => rfl
  | .cons (some key) ty ms, seen, h => by
    rw [Members.sound, Bool.and_eq_true] at h
    exact ms.stored_of_sound h.2
  | .cons none ty ms, seen, h => by
    rw [Members.sound, Bool.and_eq_true] at h
    rw [Members.stored, h.1, ms.stored_of_sound h.2]
    rfl

theorem inverts_reads {n : Nat} {decode : List Byte → Except Err Val}
    {b : Val → Except Err (List Byte)}
    (h : ∀ w v, w.length = n → decode w = .ok v → b v = .ok w) : Inverts (reads n decode) b := by
  intro bs v rest hparse
  obtain ⟨w, hlen, rfl, hv⟩ := reads_eq_ok hparse
  exact ⟨w, h w v hlen hv, rfl⟩

section Library

variable [Library]

mutual

/-- **Round trip**: a sound format writes back what it consumed. -/
theorem Ty.inverts : ∀ (t : Ty), t.sound = true → ∀ {ctx ctx' : Ctx}, Extends ctx ctx' →
    Inverts (Library.parse t ctx) (Library.build t ctx')
  | .uint n, _, ctx, ctx', _ => by
    rw [Library.parse_uint]
    apply inverts_reads
    rintro w v hlen ⟨⟩
    rw [Library.build_uint, buildUint_leNat hlen]
  | .uintBe n, _, ctx, ctx', _ => by
    rw [Library.parse_uintBe]
    apply inverts_reads
    rintro w v hlen ⟨⟩
    rw [Library.build_uintBe, buildUint_leNat (by rw [List.length_reverse, hlen])]
    exact congrArg Except.ok w.reverse_reverse
  | .bytes n, _, ctx, ctx', _ => by
    rw [Library.parse_bytes]
    apply inverts_reads
    rintro w v hlen ⟨⟩
    rw [Library.build_bytes, if_pos hlen]
  | .cstring, _, ctx, ctx', _ => by
    intro bs v rest h
    rw [Library.parse_cstring] at h
    obtain ⟨⟨s, rest'⟩, hread, h⟩ := except_bind_eq_ok h
    obtain ⟨v', hv, h⟩ := except_bind_eq_ok h
    cases h
    obtain ⟨hascii, rfl⟩ := decodeAscii_eq_ok hv
    refine ⟨s ++ [0], ?_, by rw [untilNul_eq_ok hread, List.append_assoc]; rfl⟩
    rw [Library.build_cstring, if_pos hascii]
  | .padded n, _, ctx, ctx', _ => by
    rw [Library.parse_padded]
    apply inverts_reads
    intro w v hlen hv
    obtain ⟨hascii, rfl⟩ := decodeAscii_eq_ok hv
    have hshort : (stripNul w).length ≤ n := hlen ▸ length_stripNul_le w
    rw [Library.build_padded, if_pos ⟨hascii, hshort⟩, ljust_stripNul hlen]
  | .flags names, hsound, ctx, ctx', _ => by
    rw [Library.parse_flags]
    apply inverts_reads
    rintro w v hlen ⟨⟩
    obtain ⟨b, rfl⟩ := List.length_eq_one_iff.mp hlen
    rw [Ty.sound, Bool.and_eq_true, beq_iff_eq, decide_eq_true_eq] at hsound
    have hcount : names.length = (flagBits b).length := by
      rw [hsound.1]
      rfl
    have hbits := buildFlags_zip hsound.2 hcount [] (fun _ _ => rfl)
    rw [List.nil_append] at hbits
    rw [Library.build_flags, List.headD_cons, hbits]
    exact congrArg (fun b => Except.ok [b]) (ofFlagBits_flagBits b)
  | .const value n, _, ctx, ctx', _ => by
    rw [Library.parse_const]
    apply inverts_reads
    intro w v hlen hv
    split at hv
    · rename_i hvalue
      rw [Library.build_const, ← hvalue, buildUint_leNat hlen]
    · contradiction
  | .float32, hsound, ctx, ctx', _ => absurd hsound Bool.false_ne_true
  | .adapter elem a, hsound, ctx, ctx', _ => by
    rw [Ty.sound] at hsound
    unfold Adapter.fits at hsound
    split at hsound
    · rename_i n m
      intro bs v rest h
      rw [Library.parse_adapter, Library.parse_uint] at h
      obtain ⟨⟨num, rest'⟩, hnum, h⟩ := except_bind_eq_ok h
      obtain ⟨w, hlen, rfl, ⟨⟩⟩ := reads_eq_ok hnum
      cases h
      -- the bytes of the number are those that were read
      obtain rfl : n = w.length := (eq_of_beq hsound).trans hlen.symm
      refine ⟨w, ?_, rfl⟩
      rw [Library.build_adapter, Adapter.encode, except_ok_bind, List.reverse_reverse,
        leBytes_leNat, Library.build_uint, buildUint_leNat hlen]
    · contradiction
  | .sized elem, hsound, ctx, ctx', _ => absurd hsound Bool.false_ne_true
  | .array count elem, hsound, ctx, ctx', hext => by
    intro bs v rest h
    rw [Library.parse_array] at h
    obtain ⟨n, hn, h⟩ := except_bind_eq_ok h
    obtain ⟨⟨vs, rest'⟩, hvs, h⟩ := except_bind_eq_ok h
    cases h
    rw [Ty.sound] at hsound
    obtain ⟨hlen, out, hout, rfl⟩ := parseN_inverts (elem.inverts hsound hext) n hvs
    refine ⟨out, ?_, rfl⟩
    rw [Library.build_array, hext.eval hn, except_ok_bind, if_pos hlen, hout]
  | .greedy elem, hsound, ctx, ctx', hext => by
    intro bs v rest h
    rw [Library.parse_greedy] at h
    obtain ⟨⟨vs, rest'⟩, hvs, h⟩ := except_bind_eq_ok h
    cases h
    rw [Ty.sound] at hsound
    obtain ⟨tail, e, helems, -, hstop⟩ := parseWhile_elements hvs
    obtain ⟨out, hout, rfl⟩ := helems.build (elem.inverts hsound hext)
    refine ⟨out, ?_, by rw [putBack_eq_ok hstop]⟩
    rw [Library.build_greedy, hout]
  | .struct ms, hsound, ctx, ctx', _ => by
    intro bs v rest h
    rw [Library.parse_struct] at h
    obtain ⟨⟨fields, rest'⟩, hfields, h⟩ := except_bind_eq_ok h
    cases h
    rw [Ty.sound] at hsound
    obtain ⟨out, hout, rfl⟩ := ms.inverts hsound (fun _ h => absurd rfl h) hfields (extends_refl _)
    refine ⟨out, ?_, rfl⟩
    rw [Library.build_struct, hout]

/-- The members of a struct are written back from the fields that were stored, among
    others. -/
theorem Members.inverts : ∀ (ms : Members) {seen : List String}, ms.sound seen = true →
    ∀ {ctx obj obj' : Ctx} {bs rest : List Byte}, (∀ key, ctx.lookup key ≠ none → key ∈ seen) →
    ms.parse Library.parse ctx bs = .ok (obj, rest) → Extends obj obj' →
    ∃ out, ms.build Library.build obj' = .ok out ∧ bs = out ++ rest
  | .nil, seen, _, ctx, obj, obj', bs, rest, _, h, _ => by
    rw [Members.parse] at h
    cases h
    exact ⟨[], rfl, rfl⟩
  | .cons none ty ms, seen, hsound, ctx, obj, obj', bs, rest, hseen, h, hobj => by
    rw [Members.sound, Bool.and_eq_true] at hsound
    rw [Members.parse] at h
    obtain ⟨⟨v, bs₁⟩, hv, h⟩ := except_bind_eq_ok h
    obtain ⟨outs, houts, rfl⟩ := ms.inverts hsound.2 hseen h hobj
    -- a constant is built from nothing
    cases ty with
    | const value n =>
      obtain ⟨out, hout, rfl⟩ :=
        (Ty.const value n).inverts rfl (extends_refl ctx) _ _ _ hv
      refine ⟨out ++ outs, ?_, (List.append_assoc _ _ _).symm⟩
      rw [Library.build_const] at hout
      rw [Members.build, if_pos hsound.1, Library.build_const, hout, except_ok_bind, houts,
        except_ok_bind]
    | uint | uintBe | bytes | cstring | padded | flags | float32 | adapter | sized | array | greedy
      | struct =>
      exact absurd hsound.1 Bool.false_ne_true
  | .cons (some key) ty ms, seen, hsound, ctx, obj, obj', bs, rest, hseen, h, hobj => by
    rw [Members.sound, Bool.and_eq_true, Bool.and_eq_true] at hsound
    obtain ⟨⟨hfresh, hty⟩, hms⟩ := hsound
    rw [Members.parse] at h
    obtain ⟨⟨v, bs₁⟩, hv, h⟩ := except_bind_eq_ok h
    have hnew : ctx.lookup key = none := by
      by_contra hold
      have hmem := hseen key hold
      simp [hmem] at hfresh
    have hadded : (ctx ++ [(key, v)]).lookup key = some v := by
      rw [lookup_append, hnew]
      simp
    have hstored : obj'.lookup key = some v := hobj key v (ms.parse_extends h key v hadded)
    have hext : Extends ctx obj' := fun k x hk =>
      hobj k x (ms.parse_extends h k x (extends_append ctx [(key, v)] k x hk))
    have hseen' : ∀ k, (ctx ++ [(key, v)]).lookup k ≠ none → k ∈ key :: seen := by
      intro k hk
      by_cases heq : k = key
      · rw [heq]
        exact List.mem_cons_self
      · apply List.mem_cons_of_mem
        apply hseen k
        rw [lookup_append, List.lookup_cons, beq_eq_false_iff_ne.mpr heq] at hk
        simpa using hk
    obtain ⟨outs, houts, rfl⟩ := ms.inverts hms hseen' h hobj
    obtain ⟨out, hout, rfl⟩ := ty.inverts hty hext _ _ _ hv
    refine ⟨out ++ outs, ?_, (List.append_assoc _ _ _).symm⟩
    rw [Members.build, hstored]
    dsimp only
    rw [hout, except_ok_bind, houts, except_ok_bind]

end

theorem Ty.parse_ne_none {t : Ty} (hsound : t.sound = true) {ctx : Ctx} {bs rest : List Byte}
    {v : Val} (h : Library.parse t ctx bs = .ok (v, rest)) : v ≠ .none := by
  cases t with
  | uint | uintBe | bytes | flags =>
    simp only [Library.parse_uint, Library.parse_uintBe, Library.parse_bytes,
      Library.parse_flags] at h
    obtain ⟨w, -, -, ⟨⟩⟩ := reads_eq_ok h
    exact nofun
  | padded =>
    rw [Library.parse_padded] at h
    obtain ⟨w, -, -, hw⟩ := reads_eq_ok h
    obtain ⟨-, rfl⟩ := decodeAscii_eq_ok hw
    exact nofun
  | const =>
    rw [Library.parse_const] at h
    obtain ⟨w, -, -, hw⟩ := reads_eq_ok h
    split at hw
    · cases hw
      exact nofun
    · contradiction
  | cstring =>
    rw [Library.parse_cstring] at h
    obtain ⟨_, -, h⟩ := except_bind_eq_ok h
    obtain ⟨_, hv, ⟨⟩⟩ := except_bind_eq_ok h
    obtain ⟨-, rfl⟩ := decodeAscii_eq_ok hv
    exact nofun
  | adapter elem a =>
    rw [Library.parse_adapter] at h
    obtain ⟨⟨x, _⟩, -, h⟩ := except_bind_eq_ok h
    obtain ⟨_, hv, ⟨⟩⟩ := except_bind_eq_ok h
    unfold Adapter.decode at hv
    split at hv
    · cases hv
      exact nofun
    · cases hv
      exact nofun
    · contradiction
  | float32 | sized => contradiction
  | array =>
    rw [Library.parse_array] at h
    obtain ⟨_, -, h⟩ := except_bind_eq_ok h
    obtain ⟨_, -, ⟨⟩⟩ := except_bind_eq_ok h
    exact nofun
  | greedy | struct =>
    simp only [Library.parse_greedy, Library.parse_struct] at h
    obtain ⟨_, -, ⟨⟩⟩ := except_bind_eq_ok h
    exact nofun

end Library

/-! ### Whole elements -/

section Whole

variable {p : Parser Val} {bs tail : List Byte} {vs : List Val}

/-- The input is cut up into elements with nothing left. -/
def Whole (p : Parser Val) (bs : List Byte) : Prop :=
  ∃ vs, Elements p bs vs []

theorem Elements.whole_iff (h : Elements p bs vs tail) {e : Err} (hstop : p tail = .error e) :
    Whole p bs ↔ tail = [] := by
  constructor
  · rintro ⟨vs', h'⟩
    induction h generalizing vs' with
    | nil bs =>
      cases h' with
      | nil => rfl
      | cons head less more =>
        rw [hstop] at head
        contradiction
    | cons head less more ih =>
      cases h' with
      | nil => contradiction
      | cons head' less' more' =>
        rw [head] at head'
        cases head'
        exact ih hstop _ more'
  · rintro rfl
    exact ⟨vs, h⟩

end Whole

/-! ### Fixed layouts -/

section Fixed

variable {α β : Type} {n m : Nat}

/-- The parser takes `n` bytes, and gives a value whatever they are. -/
def Fixed (p : Parser α) (n : Nat) (f : List Byte → α) : Prop :=
  ∀ bs, p bs = if n ≤ bs.length then .ok (f bs, bs.drop n) else .error .stream

theorem fixed_readN (n : Nat) : Fixed (readN n) n (List.take n) := fun _ => rfl

theorem Fixed.congr {p : Parser α} {f g : List Byte → α}
    (hp : Fixed p n f) (h : ∀ bs, f bs = g bs) : Fixed p n g := by
  intro bs
  rw [hp bs, h bs]

theorem fixed_pure (v : α) : Fixed (fun bs => .ok (v, bs)) 0 fun _ => v := by
  intro bs
  rw [if_pos (Nat.zero_le _), List.drop_zero]

theorem Fixed.bind {p : Parser α} {f : List Byte → α}
    {q : α → List Byte → Except Err (β × List Byte)} {g : α → List Byte → β} (hp : Fixed p n f)
    (hq : ∀ a, Fixed (q a) m (g a)) :
    Fixed (fun bs => do let (a, rest) ← p bs; q a rest) (n + m)
      fun bs => g (f bs) (bs.drop n) := by
  intro bs
  dsimp only
  rw [hp bs]
  by_cases hn : n ≤ bs.length
  · rw [if_pos hn, except_ok_bind]
    dsimp only
    rw [hq, List.length_drop, List.drop_drop]
    by_cases hm : n + m ≤ bs.length
    · rw [if_pos hm, if_pos (by omega)]
    · rw [if_neg hm, if_neg (by omega)]
  · rw [if_neg hn, if_neg (by omega)]
    rfl

theorem Fixed.map {p : Parser α} {f : List Byte → α} (hp : Fixed p n f)
    (g : α → β) : Fixed (fun bs => do let (a, rest) ← p bs; .ok (g a, rest)) n fun bs => g (f bs) :=
  hp.bind fun a => fixed_pure (g a)

theorem fixed_parseN {p : Parser α} {f : List Byte → α}
    (hp : Fixed p n f) (k : Nat) :
    Fixed (parseN p k) (k * n) fun bs => (List.range k).map fun i => f (bs.drop (i * n)) := by
  induction k with
  | zero =>
    rw [Nat.zero_mul]
    exact fixed_pure []
  | succ k ih =>
    have hcons : Fixed (parseN p (k + 1)) (n + k * n) fun bs =>
        f bs :: (List.range k).map fun i => f ((bs.drop n).drop (i * n)) :=
      hp.bind fun v => ih.map (v :: ·)
    rw [Nat.succ_mul, Nat.add_comm (k * n)]
    apply hcons.congr
    intro bs
    rw [List.range_succ_eq_map, List.map_cons, List.map_map, Nat.zero_mul, List.drop_zero]
    simp only [Function.comp_def, List.drop_drop, Nat.succ_mul, Nat.add_comm n]

theorem parseWhile_fixed {p : Parser Val} {f : List Byte → Val}
    (hp : Fixed p n f) (hn : 0 < n) (stop : Err → List Byte → Except Err (List Byte)) (fuel : Nat) :
    ∀ bs : List Byte, bs.length < fuel → parseWhile p stop fuel bs =
      (stop .stream (bs.drop (bs.length / n * n)) >>= fun rest =>
        .ok ((List.range (bs.length / n)).map fun i => f (bs.drop (i * n)), rest)) := by
  induction fuel with
  | zero =>
    intro bs hlen
    omega
  | succ fuel ih =>
    intro bs hlen
    rw [parseWhile, hp bs]
    by_cases hle : n ≤ bs.length
    · have hshort : (bs.drop n).length < bs.length := by
        rw [List.length_drop]
        omega
      have hdiv : bs.length / n = (bs.length - n) / n + 1 := Nat.div_eq_sub_div hn hle
      rw [if_pos hle]
      dsimp only
      rw [if_pos hshort, ih (bs.drop n) (by omega), List.length_drop, hdiv, List.range_succ_eq_map,
        List.map_cons, List.map_map, Nat.zero_mul, List.drop_zero, List.drop_drop, Nat.succ_mul,
        Nat.add_comm n]
      simp only [Function.comp_def, List.drop_drop, Nat.succ_mul, Nat.add_comm n]
      cases stop .stream (bs.drop ((bs.length - n) / n * n + n)) with
      | error e => rfl
      | ok rest => rfl
    · have hdiv : bs.length / n = 0 := Nat.div_eq_of_lt (by omega)
      rw [if_neg hle, hdiv, Nat.zero_mul, List.drop_zero]
      rfl

variable [Library]

theorem fixed_uint (n : Nat) (ctx : Ctx) :
    Fixed (Library.parse (.uint n) ctx) n fun bs => .num (field bs 0 n) := by
  rw [Library.parse_uint]
  exact (fixed_readN n).map fun w => Val.num (leNat w)

theorem fixed_array {elem : Ty} {f : List Byte → Val} {ctx : Ctx}
    (h : Fixed (Library.parse elem ctx) n f)
    (k : Nat) : Fixed (Library.parse (.array (.lit k) elem) ctx) (k * n)
      fun bs => .list ((List.range k).map fun i => f (bs.drop (i * n))) := by
  intro bs
  rw [Library.parse_array]
  exact (fixed_parseN h k).map Val.list bs

/-- The members take `n` bytes and add fields to those that were parsed before. -/
def FixedMembers (ms : Members) (n : Nat) (f : List Byte → Ctx) : Prop :=
  ∀ ctx, Fixed (ms.parse Library.parse ctx) n fun bs => ctx ++ f bs

theorem fixedMembers_nil : FixedMembers .nil 0 fun _ => [] := by
  intro ctx
  apply (fixed_pure ctx).congr
  intro bs
  exact (List.append_nil ctx).symm

theorem fixedMembers_cons (name : Option String) {ty : Ty} {rest : Members} {f : List Byte → Val}
    {g : List Byte → Ctx} (hty : ∀ ctx, Fixed (Library.parse ty ctx) n f)
    (hrest : FixedMembers rest m g) : FixedMembers (.cons name ty rest) (n + m)
      fun bs => name.toList.map (·, f bs) ++ g (bs.drop n) := by
  intro ctx
  have hparse : (Members.cons name ty rest).parse Library.parse ctx = (fun bs => do
      let (v, bs) ← Library.parse ty ctx bs
      rest.parse Library.parse (ctx ++ name.toList.map (·, v)) bs) := by
    funext bs
    rw [Members.parse]
    cases name with
    | none => simp only [Option.toList_none, List.map_nil, List.append_nil]
    | some key => rfl
  rw [hparse]
  apply ((hty ctx).bind fun v => hrest (ctx ++ name.toList.map (·, v))).congr
  intro bs
  exact List.append_assoc ..

theorem fixed_struct {ms : Members} {f : List Byte → Ctx} (h : FixedMembers ms n f) (ctx : Ctx) :
    Fixed (Library.parse (.struct ms) ctx) n fun bs => .struct (f bs) := by
  intro bs
  rw [Library.parse_struct]
  exact (h []).map Val.struct bs

end Fixed

end MiniHaywire.Construct
