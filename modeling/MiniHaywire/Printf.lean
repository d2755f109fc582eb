import MiniHaywire.Bytes

/-!
# Formatted output

`vsnprintf` of `vsprintf.c`: a machine with seven states reads the format, and three
functions print strings and integers.  All characters leave through the macro
`OUTCHAR(str, len, size, ch)`.  The functions are written here for any place `σ` that
takes what they put out; `vsnprintf` puts it in the buffer (`Buffer.put`).  The
conversion `%n` does not print but stores the number of characters so far, so what is
put out is an `Output`: a character, or such a store.

The target has 32-bit `int`, `long`, `size_t` and pointers, and a `char` without sign.
`INTMAX_T`, `LLONG` and `UINTMAX_T` are the `long`s that the source makes them, only
`ULLONG` has 64 bits.  Signed arithmetic wraps around.  The strings that `%s` prints
are looked up by their pointer; neither they nor the format overlap the buffer.
-/

namespace MiniHaywire.Printf

def INT_MAX : Nat := 2 ^ 31 - 1

def chr (c : Char) : Byte := BitVec.ofNat 8 c.toNat

def toInt (x : Int) : Int := x.bmod (2 ^ 32)

/-! ### Arguments -/

/-- The arguments behind the named ones, as words in memory.  `pos` counts from a multiple of
    eight bytes. -/
structure VaList where
  word : Nat → U32
  pos : Nat

/-- `va_arg`, for a type of 32 bits. -/
def VaList.arg32 (args : VaList) : U32 × VaList :=
  (args.word args.pos, { args with pos := args.pos + 1 })

/-- Where a 64-bit argument starts: at the next multiple of eight bytes. -/
def VaList.aligned (args : VaList) : Nat := args.pos + args.pos % 2

/-- `va_arg`, for a type of 64 bits. -/
def VaList.arg64 (args : VaList) : U64 × VaList :=
  (args.word (args.aligned + 1) ++ args.word args.aligned, { args with pos := args.aligned + 2 })

/-! ### Formats -/

inductive State where
  | default | flags | width | dot | precision | mod | conv
deriving DecidableEq, Repr

structure Flags where
  minus : Bool
  plus : Bool
  space : Bool
  num : Bool
  zero : Bool
  quote : Bool
  up : Bool
  unsigned : Bool
deriving DecidableEq, Repr

def Flags.none : Flags := ⟨false, false, false, false, false, false, false, false⟩

inductive Length where
  | none | char | short | long | llong | size | ptrdiff | intmax
deriving DecidableEq, Repr

inductive Conv where
  | signed
  | unsigned (base : Nat) (up : Bool)
  | char
  | string
  | pointer
  | count
  | percent
deriving DecidableEq, Repr

/-- The flag of a character in state `PRINT_S_FLAGS`. -/
def setFlag (flags : Flags) (ch : Byte) : Option Flags :=
  if ch = chr '-' then some { flags with minus := true }
  else if ch = chr '+' then some { flags with plus := true }
  else if ch = chr ' ' then some { flags with space := true }
  else if ch = chr '#' then some { flags with num := true }
  else if ch = chr '0' then some { flags with zero := true }
  else if ch = chr '\'' then some { flags with quote := true }
  else none

def isDigit (ch : Byte) : Bool := chr '0' ≤ ch && ch ≤ chr '9'

def chartoint (ch : Byte) : Int := ch.toNat - 48

/-- A modifier that is another one if its character is doubled. -/
def doubled (ch : Byte) (twice once : Length) : List Byte → Length × List Byte
  | [] => (once, [])
  | c :: rest => if c = ch then (twice, rest) else (once, c :: rest)

/-- State `PRINT_S_MOD`: the modifier, and the format behind it. -/
def modifier : List Byte → Length × List Byte
  | [] => (.none, [])
  | ch :: rest =>
    if ch = chr 'h' then doubled (chr 'h') .char .short rest
    else if ch = chr 'l' then doubled (chr 'l') .llong .long rest
    else if ch = chr 'j' then (.intmax, rest)
    else if ch = chr 't' then (.ptrdiff, rest)
    else if ch = chr 'z' then (.size, rest)
    else (.none, ch :: rest)

/-- The conversion of a character in state `PRINT_S_CONV`. -/
def convOf (ch : Byte) : Option Conv :=
  if ch = chr 'd' ∨ ch = chr 'i' then some .signed
  else if ch = chr 'X' then some (.unsigned 16 true)
  else if ch = chr 'x' then some (.unsigned 16 false)
  else if ch = chr 'o' then some (.unsigned 8 false)
  else if ch = chr 'u' then some (.unsigned 10 false)
  else if ch = chr 'c' then some .char
  else if ch = chr 's' then some .string
  else if ch = chr 'p' then some .pointer
  else if ch = chr 'n' then some .count
  else if ch = chr '%' then some .percent
  else none

/-- The argument of `%d`, as the `INTMAX_T` it is assigned to. -/
def signedArg (args : VaList) : Length → U32 × VaList
  | .char => ((args.arg32.1.setWidth 8).signExtend 32, args.arg32.2)
  | .short => ((args.arg32.1.setWidth 16).signExtend 32, args.arg32.2)
  | _ => args.arg32

def unsignedArg (args : VaList) : Length → U32 × VaList
  | .char => ((args.arg32.1.setWidth 8).setWidth 32, args.arg32.2)
  | .short => ((args.arg32.1.setWidth 16).setWidth 32, args.arg32.2)
  | .llong => (args.arg64.1.setWidth 32, args.arg64.2)
  | _ => args.arg32

def countWidth : Length → Nat
  | .char => 1
  | .short => 2
  | _ => 4

/-! ### Output -/

inductive Output where
  | char (ch : Byte)
  | count (ptr : U32) (width : Nat)
deriving DecidableEq, Repr

section Print

variable {σ : Type} (put : σ → Output → σ)

def pad (ch : Byte) : Nat → σ → σ
  | 0, out => out
  | n + 1, out => pad ch n (put out (.char ch))

def strlnLoop (noprecision : Bool) (precision : Int) : List Byte → Nat → Nat
  | [], strln => strln
  | _ :: value, strln =>
    if noprecision ∨ strln < precision then strlnLoop noprecision precision value (strln + 1)
    else strln

def putString (noprecision : Bool) : Int → List Byte → σ → σ
  | _, [], out => out
  | precision, ch :: value, out =>
    if noprecision then putString noprecision precision value (put out (.char ch))
    else if precision > 0 then putString noprecision (precision - 1) value (put out (.char ch))
    else out

def nullText : List Byte := [chr '(', chr 'n', chr 'u', chr 'l', chr 'l', chr ')']

/-- `fmtstr`; `none` is `NULL`. -/
def fmtstr (value : Option (List Byte)) (width precision : Int) (flags : Flags) (out : σ) : σ :=
  let noprecision := decide (precision = -1)
  let value := value.getD nullText
  let strln := strlnLoop noprecision precision value 0
  let padlen := max (toInt (width - strln)) 0
  -- left justify
  let padlen := if flags.minus then -padlen else padlen
  let out := pad put (chr ' ') padlen.toNat out
  let out := putString put noprecision precision value out
  pad put (chr ' ') (-padlen).toNat out

def digitChar (caps : Bool) (d : Nat) : Byte :=
  if d < 10 then BitVec.ofNat 8 (48 + d)
  else if caps then BitVec.ofNat 8 (55 + d) else BitVec.ofNat 8 (87 + d)

/-- `convert`, with room for so many digits: the buffer up to the position it returns. -/
def convert (base : Nat) (caps : Bool) : Nat → Nat → List Byte
  | 0, _ => []
  | room + 1, value =>
    digitChar caps (value % base) ::
      if value / base ≠ 0 then convert base caps room (value / base) else []

def MAX_CONVERT_LENGTH : Nat := 43

def getnumsep (digits : Int) : Int := (digits - if digits % 3 = 0 then 1 else 0) / 3

/-- The loop that prints the digits, from the last position down. -/
def putDigits (separators : Int) (iconvert : List Byte) : Nat → σ → σ
  | 0, out => out
  | pos + 1, out =>
    let out := put out (.char (iconvert.getD pos 0))
    let out :=
      if separators > 0 ∧ pos > 0 ∧ pos % 3 = 0 then put out (.char (chr ',')) else out
    putDigits separators iconvert pos out

def putSome (ch : Option Byte) (out : σ) : σ :=
  match ch with
  | none => out
  | some ch => put out (.char ch)

def signOf (value : U32) (flags : Flags) : Option Byte :=
  if flags.unsigned then none
  else if value.slt 0 then some (chr '-')
  else if flags.plus then some (chr '+')
  else if flags.space then some (chr ' ')
  else none

def magnitude (value : U32) (flags : Flags) : U32 :=
  if flags.unsigned then value else if value.slt 0 then -value else value

def fmtint (value : U32) (base : Nat) (width precision : Int) (flags : Flags) (out : σ) : σ :=
  let noprecision := decide (precision = -1)
  let uvalue := (magnitude value flags).toNat
  let sign := signOf value flags
  let iconvert := convert base flags.up MAX_CONVERT_LENGTH uvalue
  let pos := iconvert.length
  let alternative := flags.num ∧ uvalue ≠ 0
  let precision := if alternative ∧ base = 8 ∧ precision ≤ pos then (pos + 1 : Int) else precision
  let hexprefix :=
    if alternative ∧ base = 16 then some (if flags.up then chr 'X' else chr 'x') else none
  let separators := if flags.quote then getnumsep pos else 0
  let zpadlen := max (toInt (precision - pos - separators)) 0
  let spadlen := max (toInt (width - separators - max precision pos -
    (if sign.isSome then 1 else 0) - (if hexprefix.isSome then 2 else 0))) 0
  -- left justify, or zeros instead of spaces
  let (spadlen, zpadlen) :=
    if flags.minus then (-spadlen, zpadlen)
    else if flags.zero ∧ noprecision then (0, toInt (zpadlen + spadlen))
    else (spadlen, zpadlen)
  let out := pad put (chr ' ') spadlen.toNat out
  let out := putSome put sign out
  let out := if hexprefix.isSome then putSome put hexprefix (put out (.char (chr '0'))) else out
  let out := pad put (chr '0') zpadlen.toNat out
  let out := putDigits put separators iconvert pos out
  pad put (chr ' ') (-spadlen).toNat out

/-! ### The machine -/

/-- The local variables of `vsnprintf`, except the buffer.  `format` goes from `ch` on. -/
structure Control where
  format : List Byte
  state : State
  flags : Flags
  cflags : Length
  width : Int
  precision : Int
  args : VaList
  overflow : Bool

/-- At the start, and after every conversion. -/
def Control.fresh (format : List Byte) (args : VaList) : Control :=
  ⟨format, .default, .none, .none, 0, -1, args, false⟩

def nilText : List Byte := [chr '(', chr 'n', chr 'i', chr 'l', chr ')']

variable (strAt : U32 → List Byte)

/-- The conversion of state `PRINT_S_CONV`. -/
def conversion (c : Control) (ch : Byte) (out : σ) : VaList × σ :=
  match convOf ch with
  | some .signed =>
    let (value, args) := signedArg c.args c.cflags
    (args, fmtint put value 10 c.width c.precision c.flags out)
  | some (.unsigned base up) =>
    let (value, args) := unsignedArg c.args c.cflags
    (args, fmtint put value base c.width c.precision
      { c.flags with up := c.flags.up || up, unsigned := true } out)
  | some .char =>
    let (value, args) := c.args.arg32
    (args, put out (.char (value.setWidth 8)))
  | some .string =>
    let (ptr, args) := c.args.arg32
    (args, fmtstr put (if ptr = 0 then none else some (strAt ptr)) c.width c.precision c.flags out)
  | some .pointer =>
    let (ptr, args) := c.args.arg32
    (args,
      if ptr = 0 then fmtstr put (some nilText) c.width (-1) c.flags out
      else fmtint put ptr 16 c.width c.precision { c.flags with num := true, unsigned := true } out)
  | some .count =>
    let (ptr, args) := c.args.arg32
    (args, put out (.count ptr (countWidth c.cflags)))
  | some .percent => (c.args, put out (.char ch))
  | none => (c.args, out)

/-- One round of the loop, with `ch` and the format behind it. -/
def step (c : Control) (ch : Byte) (rest : List Byte) (out : σ) : Control × σ :=
  match c.state with
  | .default =>
    if ch = chr '%' then ({ c with state := .flags, format := rest }, out)
    else ({ c with format := rest }, put out (.char ch))
  | .flags =>
    match setFlag c.flags ch with
    | some flags => ({ c with flags := flags, format := rest }, out)
    | none => ({ c with state := .width }, out)
  | .width =>
    if isDigit ch then
      if c.width > (INT_MAX - chartoint ch) / 10 then ({ c with overflow := true }, out)
      else ({ c with width := 10 * c.width + chartoint ch, format := rest }, out)
    else if ch = chr '*' then
      let (w, args) := c.args.arg32
      -- a negative width is a flag and a positive width
      let flags := if w.toInt < 0 then { c.flags with minus := true } else c.flags
      let width := if w.toInt < 0 then toInt (-w.toInt) else w.toInt
      ({ c with flags := flags, width := width, args := args, state := .dot, format := rest }, out)
    else ({ c with state := .dot }, out)
  | .dot =>
    if ch = chr '.' then ({ c with state := .precision, format := rest }, out)
    else ({ c with state := .mod }, out)
  | .precision =>
    let precision := if c.precision = -1 then 0 else c.precision
    if isDigit ch then
      if precision > (INT_MAX - chartoint ch) / 10 then ({ c with overflow := true }, out)
      else ({ c with precision := 10 * precision + chartoint ch, format := rest }, out)
    else if ch = chr '*' then
      let (p, args) := c.args.arg32
      let precision := if p.toInt < 0 then -1 else p.toInt
      ({ c with precision := precision, args := args, state := .mod, format := rest }, out)
    else ({ c with precision := precision, state := .mod }, out)
  | .mod =>
    let (cflags, format) := modifier (ch :: rest)
    ({ c with cflags := cflags, format := format, state := .conv }, out)
  | .conv =>
    let (args, out) := conversion put strAt c ch out
    (Control.fresh rest args, out)

/-- The loop, for at most `fuel` rounds.  It ends at the end of the format, or with `overflow`. -/
def loop : Nat → Control → σ → Control × σ
  | 0, c, out => (c, out)
  | fuel + 1, c, out =>
    match c.format with
    | [] => (c, out)
    | ch :: rest =>
      if ch = 0 ∨ c.overflow = true then (c, out)
      else
        let (c, out) := step put strAt c ch rest out
        loop fuel c out

/-- Enough rounds: a character is looked at in every state at most once. -/
def rounds (format : List Byte) : Nat := 8 * format.length + 8

def printTo (format : List Byte) (args : VaList) (out : σ) : Control × σ :=
  loop put strAt (rounds format) (Control.fresh format args) out

end Print

/-! ### The buffer -/

/-- The memory, and `len`. -/
structure Buffer where
  mem : Mem 32
  len : U32

/-- `OUTCHAR`, and the store of `%n`. -/
def Buffer.put (str size : U32) (b : Buffer) : Output → Buffer
  | .char ch =>
    { mem := if b.len + 1 < size then Function.update b.mem (str + b.len) ch else b.mem
      len := b.len + 1 }
  | .count ptr width => { b with mem := b.mem.store ptr (leBytes width b.len.toNat) }

/-- The NUL at the end. -/
def Buffer.finish (str size : U32) (b : Buffer) : Mem 32 :=
  if b.len < size then Function.update b.mem (str + b.len) 0
  else if 0 < size then Function.update b.mem (str + (size - 1)) 0
  else b.mem

/-- `vsnprintf`: the return value and the memory. -/
def vsnprintf (strAt : U32 → List Byte) (mem : Mem 32) (str size : U32) (format : List Byte)
    (args : VaList) : Int × Mem 32 :=
  let size := if str = 0 ∧ size ≠ 0 then 0 else size
  let (c, b) := printTo (Buffer.put str size) strAt format args ⟨mem, 0⟩
  (if c.overflow = true ∨ INT_MAX ≤ b.len.toNat then -1 else b.len.toNat, b.finish str size)

end MiniHaywire.Printf
