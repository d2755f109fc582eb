import MiniHaywire.HeapFill
import MiniHaywire.Transfer

/-!
# Requests with buffers

`M1N1Proxy.request` of `proxy.py`.  A string or bytes among the arguments goes into a
buffer on the target: `request` allocates it from the heap, writes it, and passes its
address; a `None` behind it becomes its length.  Around the request proper,
`_request`, stands a `try` whose `finally` releases the buffers.  The loop over the
arguments comes before the `try`, so what it raises leaves its buffers allocated; and the
`finally` raises where an empty buffer has the address of another one.

The interface is any pair of functions that may return or raise (`Iface`); the one of
the serial link is `uart`.
-/

namespace MiniHaywire.ProxyRequest

open Malloc

/-! ### The class -/

/-- An argument; a string is the list of its code points. -/
inductive Arg where
  | int (n : Int)
  | str (s : List Nat)
  | bytes (bs : List Byte)
  | none
deriving DecidableEq, Repr

inductive Raised where
  | heap (e : HeapError)
  | iface (e : Host.Error)
  | unicodeEncodeError
  | typeError
  | structError
  | valueError (message : String)
  | proxyReplyError (expected got : Int)
  | proxyCommandError
  | proxyRemoteError (status : Int)
deriving DecidableEq

/-- The keyword arguments that `_request` looks at. -/
structure Kwargs where
  reboot : Bool
  signed : Bool
  noReply : Bool
deriving DecidableEq, Repr

/-- The methods of the interface that a request calls. -/
structure Iface (σ : Type) where
  writemem : Int → List Byte → σ → Except Host.Error Unit × σ
  proxyreq : List Byte → Kwargs → σ → Except Host.Error (Option (List Byte)) × σ

def utf8 (c : Nat) : Except Raised (List Byte) :=
  if c < 0x80 then .ok [BitVec.ofNat 8 c]
  else if c < 0x800 then .ok [BitVec.ofNat 8 (0xc0 + c / 64), BitVec.ofNat 8 (0x80 + c % 64)]
  else if 0xd800 ≤ c ∧ c < 0xe000 then .error .unicodeEncodeError
  else if c < 0x10000 then
    .ok [BitVec.ofNat 8 (0xe0 + c / 4096), BitVec.ofNat 8 (0x80 + c / 64 % 64),
      BitVec.ofNat 8 (0x80 + c % 64)]
  else
    .ok [BitVec.ofNat 8 (0xf0 + c / 262144), BitVec.ofNat 8 (0x80 + c / 4096 % 64),
      BitVec.ofNat 8 (0x80 + c / 64 % 64), BitVec.ofNat 8 (0x80 + c % 64)]

def encode (s : List Nat) : Except Raised (List Byte) := (s.mapM utf8).map List.flatten

/-- A `None` becomes the length of the buffer before it. -/
def Arg.filled (len : Option Int) : Arg → Arg
  | .none => (len.map Arg.int).getD .none
  | arg => arg

/-- A string becomes its bytes and a NUL. -/
def Arg.encoded : Arg → Except Raised Arg
  | .str s => (encode s).map fun bs => .bytes (bs ++ [0])
  | arg => .ok arg

def masked (n : Int) : Int := if n < 0 then n % 2 ^ 64 else n

/-- The heap and the other end of the interface, and the lists `free` and `args2`. -/
structure Locals (σ : Type) where
  heap : Option Heap
  dev : σ
  free : List Int
  args2 : List Int

section Request

variable {σ : Type} (iface : Iface σ)

/-- The loop over the arguments.  `len` is the length that the argument before this one put in
    place of a `None`. -/
def argLoop : Option Int → List Arg → Locals σ → Except Raised Unit × Locals σ
  | _, [], l => (.ok (), l)
  | len, arg :: rest, l =>
    match (arg.filled len).encoded, l.heap with
    | .error e, _ => (.error e, l)
    | .ok (.bytes bs), some h =>
      match h.malloc bs.length with
      | (.error e, h) => (.error (.heap e), { l with heap := some h })
      | (.ok p, h) =>
        let l := { l with heap := some h, free := l.free ++ [p] }
        match iface.writemem p bs l.dev with
        | (.error e, dev) => (.error (.iface e), { l with dev := dev })
        | (.ok _, dev) =>
          argLoop (some bs.length) rest { l with dev := dev, args2 := l.args2 ++ [masked p] }
    | .ok (.int n), _ => argLoop none rest { l with args2 := l.args2 ++ [masked n] }
    -- `arg < 0` is not defined for what is left
    | .ok _, _ => (.error .typeError, l)

def pack (words : List Int) : Except Raised (List Byte) :=
  if ∀ w ∈ words, 0 ≤ w ∧ w < 2 ^ 64 then .ok (words.flatMap fun w => leBytes 8 w.toNat)
  else .error .structError

def word (signed : Bool) (bs : List Byte) (off : Nat) : Int :=
  if signed then Int.bmod (field bs off 8) (2 ^ 64) else field bs off 8

def S_OK : Int := 0
def S_BADCMD : Int := -1

def _request (opcode : Int) (args : List Int) (kw : Kwargs) (dev : σ) :
    Except Raised (Option Int) × σ :=
  if args.length > 6 then (.error (.valueError "Too many arguments"), dev)
  else
    match pack (opcode :: (args ++ List.replicate (6 - args.length) 0)) with
    | .error e => (.error e, dev)
    | .ok req =>
      match iface.proxyreq req kw dev with
      | (.error e, dev) => (.error (.iface e), dev)
      | (.ok reply, dev) =>
        if kw.noReply ∨ (kw.reboot ∧ reply = none) then (.ok none, dev)
        else
          match reply with
          | none => (.error .typeError, dev)
          | some reply =>
            if reply.length ≠ 24 then (.error .structError, dev)
            else
              let rop := word false reply 0
              let status := word true reply 8
              let retval := word kw.signed reply 16
              if kw.reboot then (.ok none, dev)
              else if rop ≠ opcode then (.error (.proxyReplyError opcode rop), dev)
              else if status ≠ S_OK then
                if status = S_BADCMD then (.error .proxyCommandError, dev)
                else (.error (.proxyRemoteError status), dev)
              else (.ok (some retval), dev)

def releaseAll (free : List Int) : Option Heap → Except HeapError Unit × Option Heap
  | none => (.ok (), none)
  | some h => ((h.freeAll free).1, some (h.freeAll free).2)

/-- `M1N1Proxy.request`: how it ends, the heap, and the other end of the interface. -/
def request (opcode : Int) (args : List Arg) (kw : Kwargs) (heap : Option Heap) (dev : σ) :
    Except Raised (Option Int) × Option Heap × σ :=
  match argLoop iface none args ⟨heap, dev, [], []⟩ with
  | (.error e, l) => (.error e, l.heap, l.dev)
  | (.ok _, l) =>
    let (result, dev) := _request iface opcode l.args2 kw l.dev
    match releaseAll l.free l.heap with
    | (.error e, heap) => (.error (.heap e), heap, dev)
    | (.ok _, heap) => (result, heap, dev)

end Request

/-- The serial link to a peer; `waitBoot` is what `wait_boot` returns. -/
def uart {σ : Type} (peer : Host.Peer σ) (features : Nat)
    (waitBoot : σ → Except Host.Error (Option (List Byte)) × σ) : Iface σ where
  writemem addr data s :=
    if addr < 0 then (.error .structError, s)
    else
      let session := Host.writemem peer features addr.toNat data s
      (session.result, session.peer)
  proxyreq req kw s :=
    match Host.cmd 0x01AA55FF req with
    | .error e => (.error e, s)
    | .ok bytes =>
      let (stream, s) := peer bytes s
      if kw.noReply then (.ok none, s)
      else if kw.reboot then waitBoot s
      else ((Host.reply features 0x01AA55FF stream).result.map some, s)

/-! ### What a request needs -/

section Needs

variable {σ : Type} (iface : Iface σ)

/-- The free blocks of the heap filled with buffers, if there is room for all of them and every
    `writemem` returns. -/
def storeAll (h : Heap) : List (List Byte) → List Seg → σ → Option (List Seg)
  | [], segs, _ => some segs
  | bs :: rest, segs, dev =>
    match fit (h.units bs.length) 0 segs with
    | none => none
    | some (p, segs) =>
      match iface.writemem (h.addr p) bs dev with
      | (.error _, _) => none
      | (.ok _, dev) => storeAll h rest segs dev

end Needs

/-! ### The loop over the arguments -/

section Loop

variable {σ : Type} {iface : Iface σ} {h : Heap}

/-- The buffers in `free` are those that fill the heap. -/
structure Holding (h : Heap) (segs : List Seg) (ps : List Int) (l : Locals σ) : Prop where
  heap : l.heap = some (h.filled segs)
  free : l.free = ps.map h.addr
  filled : Filled 0 h.blocks segs ps
  fresh : ∀ s ∈ segs, s.Fresh

/-- How the loop ends: with all buffers stored, or it raises when it holds some of them, those
    from before among them. -/
def Ends (iface : Iface σ) (h : Heap) (bufs : List (List Byte) × Bool) (segs : List Seg)
    (ps : List Int) (dev : σ) (r : Except Raised Unit × Locals σ) : Prop :=
  ∃ segs' ps', Holding h segs' ps' r.2 ∧
    ((r.1 = .ok () ∧ bufs.2 = true ∧ storeAll iface h bufs.1 segs dev = some segs') ∨
      ((∃ e, r.1 = .error e) ∧ (bufs.2 = true → storeAll iface h bufs.1 segs dev = none) ∧
        (ps' = [] ↔ ps = [] ∧ ∀ bs ∈ bufs.1.head?, fit (h.units bs.length) 0 segs = none)))

section Buffer

variable {arg : Arg} {rest : List Arg} {len : Option Int} {l : Locals σ} {segs : List Seg}
  {ps : List Int} {bs : List Byte}

end Buffer

end Loop

/-! ### The heap after a request -/

section Request

variable {σ : Type} {iface : Iface σ} {s : Session}

end Request

/-! ### Examples -/

def silent : Iface Unit := uart (fun _ s => ([], s)) 0 fun s => (.error .uartTimeout, s)

end MiniHaywire.ProxyRequest
