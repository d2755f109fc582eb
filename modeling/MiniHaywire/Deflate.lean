import MiniHaywire.Bytes
import MiniHaywire.CanonicalCode

/-!
# The DEFLATE format

What bits mean in the format of RFC 1951.  A stream is a sequence of blocks; a block is
stored as it is or made of the symbols of two prefix codes, one for literals and lengths
and one for distances, which are fixed or come with the block.  A symbol is a literal,
the end of the block, or a length that together with a distance copies bytes from what
is already there.

The relations go from a position and the bytes so far to the position behind what was
read and the bytes by then.

In one point they are stricter than the RFC: a block that brings its own codes has lengths
for at most 30 distance symbols.  The RFC lists up to 32, but the last two have no meaning.
-/

namespace MiniHaywire.Deflate

open CanonicalCode

def bitOf (byte : Nat → Byte) (k : Nat) : Bool := (byte (k / 8)).getLsbD (k % 8)

/-- The number that the `n` bits from `p` on are, the lowest one first. -/
def value (bit : Nat → Bool) (p : Nat) : Nat → Nat
  | 0 => 0
  | n + 1 => value bit p n + 2 ^ n * (bit (p + n)).toNat

/-! Extra bits and smallest value of the length symbol `257 + l` and of the distance symbol `i`. -/

def lengthExtra (l : Nat) : Nat := if l = 28 then 0 else l / 4 - 1

def lengthLeast (l : Nat) : Nat :=
  if l = 28 then 258 else 3 + ((List.range l).map fun k => 2 ^ lengthExtra k).sum

def distExtra (i : Nat) : Nat := i / 2 - 1

def distLeast (i : Nat) : Nat := 1 + ((List.range i).map fun k => 2 ^ distExtra k).sum

/-- `n` bytes more, each the one that stands `dist` in front of it. -/
def copy (dist : Nat) : Nat → List Byte → List Byte
  | 0, out => out
  | n + 1, out => copy dist n (out ++ [out.getD (out.length - dist) 0])

def fixedLit : Code :=
  ⟨fun s => if s < 144 then 8 else if s < 256 then 9 else if s < 280 then 7 else 8, 288⟩

def fixedDist : Code := ⟨fun _ => 5, 32⟩

/-- A code that can be read: it is complete, or has a single word, of one bit. -/
def Usable (c : Code) : Prop := c.Complete 15 ∨ c.Single

/-- The two codes of a block can be read, and its end is coded. -/
def Readable (lit dist : Code) : Prop := lit.Coded 256 ∧ Usable lit ∧ (Usable dist ∨ dist.Unused)

/-- The order in which the lengths for the code of the lengths come. -/
def order : List Nat := [16, 17, 18, 0, 8, 7, 9, 6, 10, 5, 11, 4, 12, 3, 13, 2, 14, 1, 15]

section Blocks

variable (bit : Nat → Bool)

/-- What stands at `p` behind the length symbol `257 + l`: extra bits for the length, and a
    distance with its extra bits. -/
def Match (dist : Code) (l p length offs q : Nat) : Prop :=
  ∃ i r, l ≤ 28 ∧ i ≤ 29 ∧ dist.WordAt bit (p + lengthExtra l) i ∧
    r = p + lengthExtra l + dist.len i ∧ length = lengthLeast l + value bit p (lengthExtra l) ∧
    offs = distLeast i + value bit r (distExtra i) ∧ q = r + distExtra i

/-- The symbols of a block up to its end. -/
inductive Symbols (lit dist : Code) : Nat → List Byte → Nat → List Byte → Prop where
  | stop {p : Nat} {out : List Byte} :
      lit.WordAt bit p 256 → Symbols lit dist p out (p + lit.len 256) out
  | literal {p p' s : Nat} {out out' : List Byte} : s < 256 → lit.WordAt bit p s →
      Symbols lit dist (p + lit.len s) (out ++ [.ofNat 8 s]) p' out' →
        Symbols lit dist p out p' out'
  | copy {p q p' l length offs : Nat} {out out' : List Byte} :
      lit.WordAt bit p (257 + l) → Match bit dist l (p + lit.len (257 + l)) length offs q →
      offs ≤ out.length → Symbols lit dist q (copy offs length out) p' out' →
      Symbols lit dist p out p' out'

/-- What the symbol `s` in front of `p` adds to the lengths `ls`: a length, how often it
    comes, and where the extra bits end. -/
def repeated (p : Nat) (ls : List Nat) (s : Nat) : Option (Nat × Nat × Nat) :=
  if s = 16 then ls.getLast?.map fun n => (n, 3 + value bit p 2, p + 2)
  else if s = 17 then some (0, 3 + value bit p 3, p + 3)
  else if s = 18 then some (0, 11 + value bit p 7, p + 7)
  else some (s, 1, p)

/-- The lengths of words, `total` of them, in a code of their own. -/
inductive Lengths (c : Code) (total : Nat) : Nat → List Nat → Nat → List Nat → Prop where
  | done {p : Nat} {ls : List Nat} : ls.length = total → Lengths c total p ls p ls
  | item {p q p' s n times : Nat} {ls ls' : List Nat} :
      ls.length < total → c.WordAt bit p s →
      repeated bit (p + c.len s) ls s = some (n, times, q) →
      Lengths c total q (ls ++ List.replicate times n) p' ls' → Lengths c total p ls p' ls'

/-! The head of a block that brings its own codes. -/

def hlit (p : Nat) : Nat := 257 + value bit p 5

def hdist (p : Nat) : Nat := 1 + value bit (p + 5) 5

def hclen (p : Nat) : Nat := 4 + value bit (p + 10) 4

def lengthsCode (p : Nat) : Code :=
  ⟨fun s => if order.idxOf s < hclen bit p then value bit (p + 14 + 3 * order.idxOf s) 3 else 0, 19⟩

def litCode (p : Nat) (ls : List Nat) : Code := ⟨fun s => ls.getD s 0, hlit bit p⟩

def distCode (p : Nat) (ls : List Nat) : Code := ⟨fun s => ls.getD (hlit bit p + s) 0, hdist bit p⟩

/-- The head at `p` has the lengths `ls`, and ends at `q`. -/
structure Head (p : Nat) (ls : List Nat) (q : Nat) : Prop where
  hlit_le : hlit bit p ≤ 286
  hdist_le : hdist bit p ≤ 30
  usable : Usable (lengthsCode bit p)
  lengths : Lengths bit (lengthsCode bit p) (hlit bit p + hdist bit p)
    (p + 14 + 3 * hclen bit p) [] q ls
  readable : Readable (litCode bit p ls) (distCode bit p ls)

def bytes (k : Nat) : Nat → List Byte
  | 0 => []
  | n + 1 => .ofNat 8 (value bit (8 * k) 8) :: bytes (k + 1) n

/-- A block behind the bit that tells whether it is the last one. -/
def Block (p : Nat) (out : List Byte) (q : Nat) (out' : List Byte) : Prop :=
  match value bit p 2 with
  | 0 =>
    let k := (p + 9) / 8
    let n := value bit (8 * k) 16
    value bit (8 * (k + 2)) 16 = 2 ^ 16 - 1 - n ∧ q = 8 * (k + 4 + n) ∧
      out' = out ++ bytes bit (k + 4) n
  | 1 => Symbols bit fixedLit fixedDist (p + 2) out q out'
  | 2 => ∃ ls r, Head bit (p + 2) ls r ∧
      Symbols bit (litCode bit (p + 2) ls) (distCode bit (p + 2) ls) r out q out'
  | _ => False

/-- Blocks, the last one of which is marked. -/
inductive Blocks : Nat → List Byte → Nat → List Byte → Prop where
  | last {p p' : Nat} {out out' : List Byte} :
      bit p = true → Block bit (p + 1) out p' out' → Blocks p out p' out'
  | more {p q p' : Nat} {out mid out' : List Byte} :
      bit p = false → Block bit (p + 1) out q mid → Blocks q mid p' out' → Blocks p out p' out'

end Blocks

end MiniHaywire.Deflate
