import MiniHaywire.Bytes
import MiniHaywire.Run

/-!
# Inflating

`tinflate.c`.  The decoder reads bits from the source and appends bytes to the
destination.  The two are taken not to overlap: the source is read by the offset from its
start, and of the destination there is the list of the bytes written so far.  A pointer is
the offset from the start of its area, and a difference of two has 32 bits and a sign, so
that with 2 GiB or more the comparisons are not those of the lengths.

An access outside of an array, of the source or of the destination is an error of the
model, as is a failed assertion.  What uninitialised memory holds is an argument.  An
error that a function returns is returned by its callers, which look at nothing else.
-/

namespace MiniHaywire.Tinf

/-- Why a call stops: `TINF_DATA_ERROR` or `TINF_BUF_ERROR`, or what must not happen. -/
inductive Stop where
  | dataError
  | bufError
  | assertion
  | bounds
  | fuel
deriving DecidableEq

/-- `struct tinf_tree`, the arrays as functions of the index. -/
structure Tree where
  counts : Nat → Nat
  symbols : Nat → Nat
  maxSym : Int

/-- What a call is given: the source, where it ends if the caller has said so, the room at
    the destination, and what is in the arrays on the stack at first. -/
structure Env where
  src : Nat → Option Byte
  sourceEnd : Option Nat
  destLen : Nat
  stack : Nat → Nat

structure Data where
  source : Nat
  tag : U32
  bitcount : Nat
  overflow : Bool
  dest : List Byte
  ltree : Tree
  dtree : Tree

def assert (p : Prop) [Decidable p] : Except Stop Unit :=
  if p then .ok () else .error .assertion

def fetch (size : Nat) (a : Nat → Nat) (i : Nat) : Except Stop Nat :=
  if i < size then .ok (a i) else .error .bounds

def put (size : Nat) (a : Nat → Nat) (i v : Nat) : Except Stop (Nat → Nat) :=
  if i < size then .ok (Function.update a i v) else .error .bounds

def readByte (src : Nat → Option Byte) (i : Nat) : Except Stop Byte :=
  match src i with
  | some b => .ok b
  | none => .error .bounds

def Env.emit (e : Env) (b : Byte) (d : Data) : Except Stop Data :=
  if d.dest.length < e.destLen then .ok { d with dest := d.dest ++ [b] } else .error .bounds

/-- The difference of two pointers, a `ptrdiff_t`. -/
def ptrdiff (p q : Nat) : Int := ((p : Int) - q).bmod (2 ^ 32)

def readLe16 (src : Nat → Option Byte) (p : Nat) : Except Stop U32 := do
  let p0 ← readByte src p
  let p1 ← readByte src (p + 1)
  .ok (p0.setWidth 32 ||| p1.setWidth 32 <<< 8)

/-! ### Trees -/

/-- The entries that a loop fills: `a[place + i] = base + i` for `i < n`. -/
def fill (place base n : Nat) (a : Nat → Nat) : Nat → Nat :=
  (List.range n).foldl (fun a i => Function.update a (place + i) (base + i)) a

def tinfBuildFixedTrees (lt dt : Tree) : Tree × Tree :=
  let counts := fun i => if i < 16 then 0 else lt.counts i
  let counts := Function.update counts 7 24
  let counts := Function.update counts 8 152
  let counts := Function.update counts 9 112
  let symbols := fill 0 256 24 lt.symbols
  let symbols := fill 24 0 144 symbols
  let symbols := fill (24 + 144) 280 8 symbols
  let symbols := fill (24 + 144 + 8) 144 112 symbols
  let dcounts := Function.update (fun i => if i < 16 then 0 else dt.counts i) 5 32
  let dsymbols := fill 0 0 32 dt.symbols
  (⟨counts, symbols, 285⟩, ⟨dcounts, dsymbols, 29⟩)

def countCodes (size : Nat) (lengths : Nat → Nat) (num : Nat) (t : Tree) : Except Stop Tree :=
  (List.range num).foldlM (fun t i => do
    let length ← fetch size lengths i
    assert (length ≤ 15)
    if length ≠ 0 then do
      let count ← fetch 16 t.counts length
      let counts ← put 16 t.counts length (count + 1)
      .ok { t with counts := counts, maxSym := i }
    else .ok t) t

/-- The locals of the loop over the lengths of codes. -/
structure Offsets where
  available : Nat
  numCodes : Nat
  offs : Nat → Nat

def offsetTable (counts offs : Nat → Nat) : Except Stop Offsets :=
  (List.range 16).foldlM (fun o i =>
    if counts i > o.available then .error .dataError
    else .ok ⟨2 * (o.available - counts i), o.numCodes + counts i,
      Function.update o.offs i o.numCodes⟩) ⟨1, 0, offs⟩

def sortSymbols (size : Nat) (lengths : Nat → Nat) (num : Nat) (offs symbols : Nat → Nat) :
    Except Stop ((Nat → Nat) × (Nat → Nat)) :=
  (List.range num).foldlM (fun (offs, symbols) i => do
    let length ← fetch size lengths i
    if length ≠ 0 then do
      let place ← fetch 16 offs length
      let offs ← put 16 offs length (place + 1)
      let symbols ← put 288 symbols place i
      .ok (offs, symbols)
    else .ok (offs, symbols)) (offs, symbols)

/-- `lengths` points into an array that has `size` more entries; `offs` is what the offset
    table holds at first. -/
def tinfBuildTree (size : Nat) (offs : Nat → Nat) (t : Tree) (lengths : Nat → Nat) (num : Nat) :
    Except Stop Tree := do
  assert (num ≤ 288)
  let t ← countCodes size lengths num
    { t with counts := fun i => if i < 16 then 0 else t.counts i, maxSym := -1 }
  let o ← offsetTable t.counts offs
  if (o.numCodes > 1 ∧ o.available > 0) ∨ (o.numCodes = 1 ∧ t.counts 1 ≠ 1) then .error .dataError
  else do
    let (_, symbols) ← sortSymbols size lengths num o.offs t.symbols
    if o.numCodes = 1 then
      .ok { t with
        counts := Function.update t.counts 1 2
        symbols := Function.update symbols 1 (t.maxSym + 1).toNat }
    else .ok { t with symbols := symbols }

/-! ### Bits -/

/-- A round of the loop of `tinf_refill`. -/
def nextByte (e : Env) (d : Data) : Except Stop Data :=
  if some d.source ≠ e.sourceEnd then do
    let b ← readByte e.src d.source
    .ok { d with
      tag := d.tag ||| b.setWidth 32 <<< d.bitcount
      source := d.source + 1
      bitcount := d.bitcount + 8 }
  else .ok { d with overflow := true, bitcount := d.bitcount + 8 }

/-- The loop of `tinf_refill`; four rounds give the 32 bits that can be asked for. -/
def refillLoop (e : Env) (num : Nat) : Nat → Data → Except Stop Data
  | 0, d => .ok d
  | n + 1, d =>
    if d.bitcount < num then do
      let d ← nextByte e d
      refillLoop e num n d
    else .ok d

def tinfRefill (e : Env) (num : Nat) (d : Data) : Except Stop Data := do
  assert (num ≤ 32)
  let d ← refillLoop e num 4 d
  assert (d.bitcount ≤ 32)
  .ok d

def tinfGetbitsNoRefill (num : Nat) (d : Data) : Except Stop (Nat × Data) := do
  assert (num ≤ d.bitcount)
  let bits := d.tag &&& ((1 : U32) <<< num - 1)
  .ok (bits.toNat, { d with tag := d.tag >>> num, bitcount := d.bitcount - num })

def tinfGetbits (e : Env) (num : Nat) (d : Data) : Except Stop (Nat × Data) := do
  let d ← tinfRefill e num d
  tinfGetbitsNoRefill num d

def tinfGetbitsBase (e : Env) (num base : Nat) (d : Data) : Except Stop (Nat × Data) :=
  if num ≠ 0 then do
    let (bits, d) ← tinfGetbits e num d
    .ok (base + bits, d)
  else .ok (base, d)

/-- The loop of `tinf_decode_symbol`, with as many rounds as the assertion on `len` allows. -/
def decodeLoop (e : Env) (t : Tree) : Nat → Nat → Nat → Nat → Data → Except Stop (Nat × Data)
  | 0, _, _, _, _ => .error .assertion
  | n + 1, len, base, offs, d => do
    let (bit, d) ← tinfGetbits e 1 d
    let offs := 2 * offs + bit
    if offs < t.counts len then do
      assert (base + offs < 288)
      let sym ← fetch 288 t.symbols (base + offs)
      .ok (sym, d)
    else decodeLoop e t n (len + 1) (base + t.counts len) (offs - t.counts len) d

def tinfDecodeSymbol (e : Env) (t : Tree) (d : Data) : Except Stop (Nat × Data) :=
  decodeLoop e t 15 1 0 0 d

def clcidx (i : Nat) : Nat :=
  [16, 17, 18, 0, 8, 7, 9, 6, 10, 5, 11, 4, 12, 3, 13, 2, 14, 1, 15].getD i 0

/-- The length that a symbol of the code length code stands for, and how often it comes. -/
def repeatedLength (e : Env) (lengths : Nat → Nat) (num sym : Nat) (d : Data) :
    Except Stop ((Nat × Nat) × Data) :=
  match sym with
  | 16 =>
    if num = 0 then .error .dataError
    else do
      let sym ← fetch 320 lengths (num - 1)
      let (length, d) ← tinfGetbitsBase e 2 3 d
      .ok ((sym, length), d)
  | 17 => do
    let (length, d) ← tinfGetbitsBase e 3 3 d
    .ok ((0, length), d)
  | 18 => do
    let (length, d) ← tinfGetbitsBase e 7 11 d
    .ok ((0, length), d)
  | sym => .ok ((sym, 1), d)

/-- The loop that decodes the code lengths of the dynamic trees, `total` of them. -/
def lengthsLoop (e : Env) (total : Nat) :
    Nat → Nat → (Nat → Nat) → Data → Except Stop ((Nat → Nat) × Data)
  | 0, _, _, _ => .error .fuel
  | n + 1, num, lengths, d =>
    if num < total then do
      let (sym, d) ← tinfDecodeSymbol e d.ltree d
      if (sym : Int) > d.ltree.maxSym then .error .dataError
      else do
        let ((sym, length), d) ← repeatedLength e lengths num sym d
        if length > total - num then .error .dataError
        else do
          let lengths ← (List.range length).foldlM
            (fun lengths i => put 320 lengths (num + i) sym) lengths
          lengthsLoop e total n (num + length) lengths d
    else .ok (lengths, d)

/-- The code lengths of the code length code, `hclen` of them. -/
def readCodeLengths (e : Env) (hclen : Nat) (lengths : Nat → Nat) (d : Data) :
    Except Stop ((Nat → Nat) × Data) :=
  (List.range hclen).foldlM (fun (lengths, d) i => do
    let (clen, d) ← tinfGetbits e 3 d
    let place ← fetch 19 clcidx i
    let lengths ← put 320 lengths place clen
    .ok (lengths, d)) (lengths, d)

/-- The tree of the code length code, in the place of the literal/length tree. -/
def codeLengthTree (e : Env) (hclen : Nat) (d : Data) : Except Stop ((Nat → Nat) × Data) := do
  let lengths ← (List.range 19).foldlM (fun lengths i => put 320 lengths i 0) e.stack
  let (lengths, d) ← readCodeLengths e hclen lengths d
  let lt ← tinfBuildTree 320 e.stack d.ltree lengths 19
  if lt.maxSym = -1 then .error .dataError else .ok (lengths, { d with ltree := lt })

/-- The trees of the code lengths, the first `hlit` of which are for literals and lengths. -/
def buildTrees (e : Env) (hlit hdist : Nat) (lengths : Nat → Nat) (d : Data) :
    Except Stop Data := do
  let stop ← fetch 320 lengths 256
  if stop = 0 then .error .dataError
  else do
    let lt ← tinfBuildTree 320 e.stack d.ltree lengths hlit
    let dt ← tinfBuildTree (320 - hlit) e.stack d.dtree (fun i => lengths (hlit + i)) hdist
    .ok { d with ltree := lt, dtree := dt }

def tinfDecodeTrees (e : Env) (d : Data) : Except Stop Data := do
  let (hlit, d) ← tinfGetbitsBase e 5 257 d
  let (hdist, d) ← tinfGetbitsBase e 5 1 d
  let (hclen, d) ← tinfGetbitsBase e 4 4 d
  if hlit > 286 ∨ hdist > 30 then .error .dataError
  else do
    let (lengths, d) ← codeLengthTree e hclen d
    -- every round has at least one length
    let (lengths, d) ← lengthsLoop e (hlit + hdist) (hlit + hdist + 1) 0 lengths d
    buildTrees e hlit hdist lengths d

/-! ### Blocks -/

def lengthBits (i : Nat) : Nat :=
  [0, 0, 0, 0, 0, 0, 0, 0, 1, 1,
   1, 1, 2, 2, 2, 2, 3, 3, 3, 3,
   4, 4, 4, 4, 5, 5, 5, 5, 0, 127].getD i 0

def lengthBase (i : Nat) : Nat :=
  [3, 4, 5, 6, 7, 8, 9, 10, 11, 13,
   15, 17, 19, 23, 27, 31, 35, 43, 51, 59,
   67, 83, 99, 115, 131, 163, 195, 227, 258, 0].getD i 0

def distBits (i : Nat) : Nat :=
  [0, 0, 0, 0, 1, 1, 2, 2, 3, 3,
   4, 4, 5, 5, 6, 6, 7, 7, 8, 8,
   9, 9, 10, 10, 11, 11, 12, 12, 13, 13].getD i 0

def distBase (i : Nat) : Nat :=
  [1, 2, 3, 4, 5, 7, 9, 13, 17, 25,
   33, 49, 65, 97, 129, 193, 257, 385, 513, 769,
   1025, 1537, 2049, 3073, 4097, 6145, 8193, 12289, 16385, 24577].getD i 0

/-- The loop that copies a match.  `dest[i - offs]` has been written if `offs` is not zero
    and at most the number of bytes so far. -/
def copyMatch (e : Env) (offs : Nat) : Nat → Data → Except Stop Data
  | 0, d => .ok d
  | n + 1, d =>
    if 0 < offs ∧ offs ≤ d.dest.length then do
      let d ← e.emit (d.dest.getD (d.dest.length - offs) 0) d
      copyMatch e offs n d
    else .error .bounds

/-- The length and the distance of the match behind the length symbol `257 + sym`. -/
def matchAt (e : Env) (dt : Tree) (sym : Nat) (d : Data) : Except Stop ((Nat × Nat) × Data) := do
  let bits ← fetch 30 lengthBits sym
  let base ← fetch 30 lengthBase sym
  let (length, d) ← tinfGetbitsBase e bits base d
  let (dist, d) ← tinfDecodeSymbol e dt d
  if (dist : Int) > dt.maxSym ∨ dist > 29 then .error .dataError
  else do
    let bits ← fetch 30 distBits dist
    let base ← fetch 30 distBase dist
    let (offs, d) ← tinfGetbitsBase e bits base d
    if offs > ptrdiff d.dest.length 0 then .error .dataError else .ok ((length, offs), d)

def blockLoop (e : Env) (lt dt : Tree) : Nat → Data → Except Stop Data
  | 0, _ => .error .fuel
  | n + 1, d => do
    let (sym, d) ← tinfDecodeSymbol e lt d
    if d.overflow then .error .dataError
    else if sym < 256 then
      if d.dest.length = e.destLen then .error .bufError
      else do
        let d ← e.emit (BitVec.ofNat 8 sym) d
        blockLoop e lt dt n d
    else if sym = 256 then .ok d
    else if (sym : Int) > lt.maxSym ∨ sym - 257 > 28 ∨ dt.maxSym = -1 then .error .dataError
    else do
      let ((length, offs), d) ← matchAt e dt (sym - 257) d
      if ptrdiff e.destLen d.dest.length < length then .error .bufError
      else do
        let d ← copyMatch e offs length d
        blockLoop e lt dt n d

/-- Every round but the last one writes, so the rounds are not more than there is room for. -/
def tinfInflateBlockData (e : Env) (lt dt : Tree) (d : Data) : Except Stop Data :=
  blockLoop e lt dt (e.destLen + 1) d

/-- `d->source_end - d->source`, if there is an end. -/
def Env.left (e : Env) (source : Nat) : Option Int := e.sourceEnd.map (ptrdiff · source)

def copyStored (e : Env) : Nat → Data → Except Stop Data
  | 0, d => .ok d
  | n + 1, d => do
    let b ← readByte e.src d.source
    let d ← e.emit b d
    copyStored e n { d with source := d.source + 1 }

def tinfInflateUncompressedBlock (e : Env) (d : Data) : Except Stop Data :=
  if (e.left d.source).any (· < 4) then .error .dataError
  else do
    let length ← readLe16 e.src d.source
    let invlength ← readLe16 e.src (d.source + 2)
    if length ≠ ~~~invlength &&& 0x0000FFFF then .error .dataError
    else
      let d := { d with source := d.source + 4 }
      -- `length` is unsigned, and the comparison makes the difference unsigned too
      if (e.left d.source).any (· % 2 ^ 32 < (length.toNat : Int)) then .error .dataError
      else if ptrdiff e.destLen d.dest.length % 2 ^ 32 < length.toNat then .error .bufError
      else do
        let d ← copyStored e length.toNat d
        .ok { d with tag := 0, bitcount := 0 }

def tinfInflateFixedBlock (e : Env) (d : Data) : Except Stop Data :=
  let (lt, dt) := tinfBuildFixedTrees d.ltree d.dtree
  let d := { d with ltree := lt, dtree := dt }
  tinfInflateBlockData e d.ltree d.dtree d

def tinfInflateDynamicBlock (e : Env) (d : Data) : Except Stop Data := do
  let d ← tinfDecodeTrees e d
  tinfInflateBlockData e d.ltree d.dtree d

/-- The block of one of the four types. -/
def inflateBlock (e : Env) (btype : Nat) (d : Data) : Except Stop Data :=
  match btype with
  | 0 => tinfInflateUncompressedBlock e d
  | 1 => tinfInflateFixedBlock e d
  | 2 => tinfInflateDynamicBlock e d
  | _ => .error .dataError

/-- The loop of `tinf_uncompress`, at most `n` rounds of it. -/
def uncompressLoop (e : Env) : Nat → Data → Except Stop Data
  | 0, _ => .error .fuel
  | n + 1, d => do
    let (bfinal, d) ← tinfGetbits e 1 d
    let (btype, d) ← tinfGetbits e 2 d
    let d ← inflateBlock e btype d
    if bfinal = 0 then uncompressLoop e n d else .ok d

/-- What `tinf_uncompress` hands on of its arguments. -/
def callEnv (stack : Nat → Nat) (destLen : Nat) (src : Nat → Option Byte) (sourceLen : Nat) : Env :=
  ⟨src, if sourceLen ≠ 0 then some sourceLen else none, destLen, stack⟩

/-- `tinf_uncompress`, with at most `fuel` blocks: the bytes written, whose number is
    `*destLen` then, and `*sourceLen`, which has 32 bits.  The two keep their values with an
    error. -/
def tinfUncompress (fuel : Nat) (stack : Nat → Nat) (d : Data) (destLen : Nat)
    (src : Nat → Option Byte) (sourceLen : Nat) : Except Stop (List Byte × Nat) := do
  let d ← uncompressLoop (callEnv stack destLen src sourceLen) fuel
    { d with source := 0, tag := 0, bitcount := 0, overflow := false, dest := [] }
  let slen := d.source % 2 ^ 32
  if d.overflow then .error .dataError
  else if sourceLen = 0 then .ok (d.dest, slen)
  else if sourceLen ≠ slen then .error .dataError
  else .ok (d.dest, sourceLen)

end MiniHaywire.Tinf
