import MiniHaywire.AdtStruct

/-!
# Property types of the client

`parse_prop` guesses the type of a property from its name, the path and the name of
its node, its length and content, and from the properties of the node and of its
ancestors; `build_prop` writes the value back with the type that was found.

The types are data.  All of them are formats of `Construct`, except that
`SafeGreedyRange` is the client's own: a range that ends at the first short read,
whose bytes are gone.  It stands alone, or as the last member of a struct (`Format`).
The floating-point types, `Float32l` and the coefficients of `mtr-polynom-fuse-agx`, are
marked: a property of such a type is parsed, and of building it nothing is said.

`Format.build_iff` says what is lost: a property comes back as it was exactly if
its range is made of whole elements, and every member of its struct was stored.
-/

namespace MiniHaywire.AdtClient

open MiniHaywire.Construct MiniHaywire.Adt

def ascii (s : String) : List Byte := cstr s.toList

/-! ### Formats -/

inductive Format where
  | plain (ty : Ty)
  | safeRange (elem : Ty)
  | headed (head : Members) (name : String) (elem : Ty)
  | float (ty : Ty)

section Formats

variable [Library]

/-- `except StreamError: pass`: the input is where the short read left it. -/
def swallow : Err → List Byte → Except Err (List Byte)
  | .stream, bs => .ok (Library.shortRead bs)
  | e, _ => .error e

/-- `SafeGreedyRange._parse`. -/
def safeGreedyRange (p : Parser Val) : Parser (List Val) := fun bs =>
  parseWhile p swallow (bs.length + 1) bs

def terminated (rest : List Byte) (v : Val) : Except Err Val :=
  if rest = [] then .ok v else .error .other

/-- `Sequence(t, Terminated).parse(v)[0]`. -/
def Format.parse : Format → List Byte → Except Err Val
  | .plain ty, bs | .float ty, bs => do
    let (v, rest) ← Library.parse ty [] bs
    terminated rest v
  | .safeRange elem, bs => do
    let (vs, rest) ← safeGreedyRange (Library.parse elem []) bs
    terminated rest (.list vs)
  | .headed head name elem, bs => do
    let (fields, bs) ← head.parse Library.parse [] bs
    let (vs, rest) ← safeGreedyRange (Library.parse elem fields) bs
    terminated rest (.struct (fields ++ [(name, .list vs)]))

def Format.build : Format → Val → Except Err (List Byte)
  | .plain ty, v | .float ty, v => Library.build ty [] v
  | .safeRange elem, .list vs => buildAll (Library.build elem []) vs
  | .headed head name elem, .struct obj => do
    let out ← head.build Library.build obj
    match obj.lookup name with
    | some (.list vs) => do
      let outs ← buildAll (Library.build elem obj) vs
      .ok (out ++ outs)
    | _ => .error .other
  | _, _ => .error .other

end Formats

/-! ### The tables -/

def int8 : Ty := .uint 1
def int16 : Ty := .uint 2
def int32 : Ty := .uint 4
def int64 : Ty := .uint 8

def named (fields : List (String × Ty)) : List (Option String × Ty) :=
  fields.map fun field => (some field.1, field.2)

def fourCC : Ty := .adapter int32 (.text 4)

def adtStringList : Format := .safeRange .cstring

def adt2Tuple : Format := .plain (.array (.lit 2) int64)

def function : Format :=
  .headed (members (named [("phandle", int32), ("name", fourCC)])) "args" int32

def stdProperties : List (List Byte × Format) :=
  [(ascii "cpu-impl-reg", adt2Tuple),
    (ascii "name", .plain .cstring),
    (ascii "compatible", adtStringList),
    (ascii "model", .plain .cstring),
    (ascii "#size-cells", .plain int32),
    (ascii "#address-cells", .plain int32),
    (ascii "clock-ids", .safeRange int32),
    (ascii "clock-gates", .safeRange int32),
    (ascii "power-gates", .safeRange int32)]

def pmapIORanges : Format :=
  .safeRange (.struct (members (named
    [("addr", int64), ("size", int64), ("flags", int32), ("name", fourCC)])))

def pmgrPSRegs : Format :=
  .safeRange (.struct (members (named [("reg", int32), ("offset", int32), ("mask", int32)])))

def pmgrPerfRegs : Format :=
  .safeRange (.struct (members (named
    [("reg", int32), ("offset", int32), ("size", int32), ("unk", int32)])))

def pmgrPWRGateRegs : Format :=
  .safeRange (.struct (members (named
    [("reg", int32), ("offset", int32), ("mask", int32), ("unk", int32)])))

def pmgrDeviceFlags : Ty :=
  .flags ["b7", "b6", "perf", "no_ps", "critical", "b2", "notify_pmp", "on"]

def pmgrDevices : Format :=
  .safeRange (.struct (members
    (named [("flags", pmgrDeviceFlags), ("unk1_0", int8), ("unk1_1", int8), ("unk1_2", int8),
        ("parents", .array (.lit 2) int16), ("perf_idx", int8), ("perf_block", int8),
        ("psidx", int8), ("psreg", int8), ("unk2_0", int16), ("pd", int8), ("ps_cfg16", int8)] ++
      [(none, .const 0 4), (none, .const 0 4)] ++
      named [("unk2_3", int16), ("id", int16), ("unk3", int32), ("name", .padded 16)])))

def clkRstGenDeviceClocks : Format :=
  .headed (members (named [("unk0", int32)])) "clocks" (.struct (members
    ([(none, .const 0 4)] ++
      named [("unk1", int32), ("ps0", int32), ("ps1", int32), ("ps2", int32), ("ps3", int32),
        ("ps4", int32), ("unk2", int32), ("unk3", int32), ("unk4", int32), ("name", .padded 19),
        ("id", int8)])))

def pmgrClocks : Format :=
  .safeRange (.struct (members
    (named [("perf_idx", int8), ("perf_block", int8), ("unk", int8), ("id", int8)] ++
      [(none, .const 0 4)] ++ named [("name", .padded 16)])))

def pmgrPowerDomains : Format :=
  .safeRange (.struct (members (named
    [("unk", int8), ("perf_idx", int8), ("perf_block", int8), ("id", int8), ("flags", int32),
      ("name", .padded 16)])))

def pmgrDeviceBridges : Format :=
  .safeRange (.struct (members (named [("idx", .uintBe 4), ("subdevs", .bytes 0x48)])))

def pmgrEvents : Format :=
  .safeRange (.struct (members (named
    [("unk1", int8), ("unk2", int8), ("unk3", int8), ("id", int8), ("perf2_idx", int8),
      ("perf2_block", int8), ("perf_idx", int8), ("perf_block", int8), ("name", .padded 16)])))

def gpuPerfState : Ty := .struct (members (named [("freq", int32), ("volt", int32)]))

def gpuPerfState64 : Ty := .struct (members (named [("volt", int64), ("freq", int64)]))

def gpuPerfStates64 : Format :=
  .plain (.struct (members (named
    [("dies", int64), ("count", int64),
      ("states", .array (.this "dies") (.array (.this "count") gpuPerfState64)),
      ("min_sram_volt", .array (.this "dies") int64)])))

def speakerConfig : Ty :=
  .struct (members (named
    [("rx_slot", int8), ("amp_gain", int8), ("vsense_slot", int8), ("isense_slot", int8)]))

def dcBlockerConfig : Format :=
  .plain (.struct (members (named [("dc_blk0", int8), ("dc_blk1", int8), ("pad", int16)])))

def coef : Ty := .adapter int32 (.fraction 0x1000000)

def mtrPolynomFuseAGX : Format :=
  .float (.greedy (.struct (members (named [("id", int32), ("data", .sized (.greedy coef))]))))

def speakerThieleSmall : Format :=
  .plain (.struct (members (named
    [("unk0", int16), ("unk1", int16),
      ("speakers", .greedy (.struct (members (named
        [("pad0", int32), ("r_mohm", int16), ("temp", int16), ("pad1", int32), ("pad2", int32),
          ("pad3", int16), ("name", fourCC)])))),
      ("checksum", int16)])))

def tunableLocal : Ty :=
  .struct (members (named [("offset", int32), ("size", int32), ("mask", int64), ("value", int64)]))

/-- The members that `DAPFT8110` and its two longer variants share. -/
def dapfMembers : List (String × Ty) :=
  [("start", int64), ("end", int64), ("r20", int32), ("unk1", int32), ("r4", int32),
    ("unk2", .array (.lit 5) int32), ("unk3", int8), ("r0h", int8), ("r0l", int8), ("unk4", int8)]

def dapfT8110 : Ty := .struct (members (named dapfMembers))

def dapfT8110B : Ty := .struct (members (named (dapfMembers ++ [("pad", int32)])))

def dapfT8110C : Ty := .struct (members (named (dapfMembers ++ [("pad", .array (.lit 3) int8)])))

def aopRatios : Format :=
  .plain (.struct (members
    (named [("r0", int8), ("r1", int8), ("r2", int8)] ++ [(none, .const 0 1)])))

/-- The properties of the devices that match a pattern, by patterns for the compatible
    string and for the name of the property. -/
abbrev DevProps := List (List Byte × List (List Byte × Format))

def devProperties : List (List Byte × DevProps) :=
  [(ascii "clkrstgen", [(ascii "*", [(ascii "device-clocks", clkRstGenDeviceClocks)])]),
    (ascii "pmgr", [(ascii "*",
      [(ascii "clusters", .safeRange int32),
        (ascii "devices", pmgrDevices),
        (ascii "ps-regs", pmgrPSRegs),
        (ascii "perf-regs", pmgrPerfRegs),
        (ascii "pwrgate-regs", pmgrPWRGateRegs),
        (ascii "power-domains", pmgrPowerDomains),
        (ascii "clocks", pmgrClocks),
        (ascii "device-bridges", pmgrDeviceBridges),
        (ascii "voltage-states*", .safeRange int32),
        (ascii "events", pmgrEvents),
        (ascii "mtr-polynom-fuse-agx", mtrPolynomFuseAGX)])]),
    (ascii "clpc", [(ascii "*",
      [(ascii "events", .safeRange int32), (ascii "devices", .safeRange int32)])]),
    (ascii "soc-tuner", [(ascii "*",
      [(ascii "device-set-*", .safeRange int32), (ascii "mcc-configs", .safeRange int32)])]),
    (ascii "mcc", [(ascii "*",
      [(ascii "dramcfg-data", .safeRange int32), (ascii "config-data", .safeRange int32)])]),
    (ascii "*pmu*", [(ascii "*",
      [(ascii "info-*name*", .plain .cstring), (ascii "info-*", .safeRange int32)])]),
    (ascii "stockholm-spmi", [(ascii "*", [(ascii "required-functions", adtStringList)])]),
    (ascii "sgx", [(ascii "*",
      [(ascii "perf-states*", .safeRange gpuPerfState),
        (ascii "afr-perf-states", gpuPerfStates64),
        (ascii "cs-perf-states", gpuPerfStates64),
        (ascii "*-kp", .float .float32),
        (ascii "*-kp-1", .float .float32),
        (ascii "*-ki", .float .float32),
        (ascii "*-ki-*", .float .float32),
        (ascii "*-gain*", .float .float32),
        (ascii "*-scale*", .float .float32)])]),
    (ascii "arm-io", [(ascii "*",
      [(ascii "clock-frequencies", .safeRange int32),
        (ascii "clock-frequencies-regs", .safeRange int64),
        (ascii "clock-frequencies-nclk", .safeRange int32)])]),
    (ascii "defaults", [(ascii "*", [(ascii "pmap-io-ranges", pmapIORanges)])]),
    (ascii "audio-*", [(ascii "*",
      [(ascii "speaker-config", .safeRange speakerConfig),
        (ascii "amp-dcblocker-config", dcBlockerConfig)])]),
    (ascii "*aop-audio*", [(ascii "*",
      [(ascii "clockSource", .plain fourCC),
        (ascii "identifier", .plain fourCC),
        (ascii "ratios", aopRatios),
        (ascii "filterLengths", .plain int32)])]),
    (ascii "*alc?/audio-leap-mic*", [(ascii "*",
      [(ascii "audio-stream-formatter", .plain fourCC)])]),
    (ascii "audio", [(ascii "*", [(ascii "speaker-thiele-small", speakerThieleSmall)])]),
    (ascii "apcie*", [(ascii "*",
      [(ascii "apcie-*-tunables", .plain (.greedy tunableLocal))])])]

/-! ### Choosing a type -/

/-- `fnmatch.fnmatch`, for patterns with `*` and `?`. -/
def fnmatch (name : List Byte) : List Byte → Bool
  | [] => name.isEmpty
  | c :: pat =>
    if c = 0x2a then name.tails.any (fun s => fnmatch s pat)
    else
      match name with
      | [] => false
      | d :: s => (c = 0x3f || c = d) && fnmatch s pat

/-- `_properties` of a node. -/
abbrev Dict := List (List Byte × Val)

/-- What `parse_prop` sees of a node: its path and name, its properties so far, and the
    properties of its ancestors from the parent upwards. -/
structure Scope where
  path : List Byte
  nodeName : List Byte
  own : Dict
  parents : List Dict

def compatibleName : List Byte := ascii "compatible"

/-- `node.compatible[0]`, or the empty string if there is no such property. -/
def compatible (own : Dict) : Except Err (List Byte) :=
  match own.lookup compatibleName with
  | none => .ok []
  | some (.list (.str s :: _)) => .ok s
  | some (.str (c :: _)) => .ok [c]
  | some _ => .error .other

def devProps (path nodeName : List Byte) : Option DevProps :=
  match devProperties.find? (fun dev => fnmatch path dev.1) with
  | some dev => some dev.2
  | none => (devProperties.find? (fun dev => fnmatch nodeName dev.1)).map Prod.snd

def devType (scope : Scope) (name : List Byte) : Except Err (Option Format) :=
  match devProps scope.path scope.nodeName with
  | none => .ok none
  | some props =>
    if props.any (fun c => c.2.any (fun k => fnmatch name k.1)) then do
      let compat ← compatible scope.own
      .ok (props.findSome? fun c =>
        if fnmatch compat c.1 then (c.2.find? (fun k => fnmatch name k.1)).map Prod.snd else none)
    else .ok none

def addressAttr : List Byte := ascii "address-cells"

def sizeAttr : List Byte := ascii "size-cells"

/-- `address_cells` and `size_cells` of a node.  Where the getter raises an `AttributeError`,
    `__getattr__` is called with its name, and looks for that with `-` in the place of `_`. -/
def cells (d : Dict) : Option (Val × Val) := do
  let ac ← (d.lookup addressCells).or (d.lookup addressAttr)
  let sc ← (d.lookup sizeCells).or (d.lookup sizeAttr)
  some (ac, sc)

/-- `Hex(Int64ul) if n == 2 else Array(n, Hex(Int32ul))`. -/
def cellTy : Val → Ty
  | .num n => if n = 2 then int64 else .array (.lit n) int32
  | _ => .array .bad int32

/-- The name is part of the first alternative only:
    `"addr" / Hex(Int64ul) if ac == 2 else Array(ac, Hex(Int32ul))`. -/
def cellName (name : String) : Val → Option String
  | .num n => if n = 2 then some name else none
  | _ => none

def regStruct (ac sc : Val) : Ty :=
  .struct (members [(cellName "addr" ac, cellTy ac), (cellName "size" sc, cellTy sc)])

def rangesStruct (ac pac sc : Val) : Ty :=
  .struct (members (named
    [("bus_addr", cellTy ac), ("parent_addr", cellTy pac), ("size", cellTy sc)]))

/-- What the tests on the name come to: `return None, v`, or a type, if any, to go on
    with. -/
inductive Choice where
  | raw
  | typed (t : Option Format)

section Choice

variable [Library]

/-- The branch for `reg`; `t` is the type so far. -/
def regType (scope : Scope) (v : List Byte) (t : Option Format) : Except Err Choice :=
  if scope.parents.dropLast.all (fun d => (d.lookup rangesName).isSome) then
    match scope.parents with
    | [] => .error .other
    | parent :: _ =>
      match cells parent with
      | none => .error .other
      | some (ac, sc) =>
        match Library.sizeof (regStruct ac sc) with
        | none => .error .other
        | some n =>
          if n = 0 then .error .other
          else if v.length % n = 0 then .ok (.typed (some (.safeRange (regStruct ac sc))))
          else .ok (.typed t)
  else .ok (.typed t)

def rangesType (scope : Scope) : Except Err Choice :=
  match cells scope.own with
  | none => .ok .raw
  | some (ac, sc) =>
    match scope.parents with
    | [] => .error .other
    | parent :: _ =>
      match cells parent with
      | none => .error .other
      | some (pac, _) => .ok (.typed (some (.safeRange (rangesStruct ac pac sc))))

def dapfType (scope : Scope) (v : List Byte) (t : Option Format) : Except Err Choice :=
  match scope.own.lookup (ascii "dart-options") with
  | none => .ok .raw
  | some (.num flags) =>
    if flags &&& 0x40 ≠ 0 then
      if v.length % (Library.sizeof dapfT8110B).getD 0 = 0 then
        if v.length % (Library.sizeof dapfT8110C).getD 0 ≠ 0 then
          .ok (.typed (some (.plain (.greedy dapfT8110B))))
        else .ok (.typed t)
      else .ok (.typed (some (.plain (.greedy dapfT8110C))))
    else .ok (.typed (some (.plain (.greedy dapfT8110))))
  | some _ => .error .other

def chooseType (scope : Scope) (name v : List Byte) (t : Option Format) : Except Err Choice :=
  if name = ascii "reg" ∧ scope.path ≠ ascii "/device-tree/memory" then regType scope v t
  else if name = rangesName then rangesType scope
  else if (ascii "dapf-instance-").isPrefixOf name then dapfType scope v t
  else if name = ascii "interrupts" then
    .ok (.typed (some (.plain (.array (.lit (v.length / 4)) int32))))
  else .ok (.typed t)

def isText (v : List Byte) : Bool :=
  v.getLast? == some 0 && v.dropLast.all (fun b => 0x20 ≤ b.toNat && b.toNat ≤ 0x7e)

/-- The type by name, content and length, when nothing else gave one. -/
def guessType (name v : List Byte) : Option Format :=
  match stdProperties.lookup name with
  | some f => some f
  | none =>
    if isText v then some (.plain .cstring)
    else if v.length = 4 then some (.plain int32)
    else if v.length = 8 then some (.plain int64)
    else if v.length = 16 ∧ [6, 7, 14, 15].all (fun i => v.getD i 0 == 0) then some adt2Tuple
    else none

/-- The type that `function-*` properties are given. -/
def functionType (name v : List Byte) (t : Option Format) : Option Format :=
  if (ascii "function-").isPrefixOf name then
    if v.length = 4 then some (.plain fourCC) else some function
  else t

/-- `parse_prop`: the type and the value. -/
def parseProp (scope : Scope) (name v : List Byte) (template : Bool) :
    Except Err (Option Format × Val) :=
  if template then do
    let value ← (Format.plain .cstring).parse v
    .ok (some (.plain .cstring), value)
  else do
    let t ← devType scope name
    if v = [] then .ok (none, .none)
    else do
      match ← chooseType scope name v (functionType name v t) with
      | .raw => .ok (none, .bytes v)
      | .typed t =>
        match t.or (guessType name v) with
        | some f => do
          let value ← f.parse v
          .ok (some f, value)
        | none => .ok (none, .bytes v)

def buildProp (name : List Byte) (v : Val) (t : Option Format) : Except Err (List Byte) :=
  match v, t with
  | .none, _ => .ok []
  | v, some f => f.build v
  | .bytes bs, none => .ok bs
  | v, none =>
    match stdProperties.lookup name with
    | some f => f.build v
    | none =>
      match v with
      | .str _ => Library.build .cstring [] v
      | .num n => if 0xffffffff < n then Library.build int64 [] v else Library.build int32 [] v
      | .float _ | .frac _ => Library.build .float32 [] v
      | _ => .error .other

end Choice

/-! ### What comes back -/

/-- Every member of every struct of the format can be built. -/
def Format.sound : Format → Bool
  | .plain ty => ty.sound
  | .safeRange elem => elem.sound
  | .headed head name elem => head.sound [] && !head.keys.contains name && elem.sound
  | .float _ => true

def Format.floating : Format → Bool
  | .float _ => true
  | _ => false

/-- The input has no part that the format drops: it is cut up into whole elements, and all
    members of an element are stored. -/
def Format.Fits [Library] : Format → List Byte → Prop
  | .safeRange elem, bs => elem.sound = true ∧ Whole (Library.parse elem []) bs
  | .headed head _ elem, bs => ∀ fields rest, head.parse Library.parse [] bs = .ok (fields, rest) →
    Whole (Library.parse elem fields) rest
  | _, _ => True

section Formats

variable {p : Parser Val} {bs raw rest : List Byte} {v : Val}

theorem elements_build_iff {b : Val → Except Err (List Byte)} (hinv : Inverts p b)
    {tail : List Byte} {vs : List Val} (h : Elements p bs vs tail)
    (hstop : p tail = .error .stream) : buildAll b vs = .ok bs ↔ Whole p bs := by
  rw [h.whole_iff hstop]
  obtain ⟨out, hout, hbs⟩ := h.build hinv
  rw [hout]
  constructor
  · intro heq
    rw [Except.ok.inj heq] at hbs
    exact List.self_eq_append_right.mp hbs
  · rintro rfl
    rw [hbs, List.append_nil]

theorem terminated_eq_ok {v' : Val} (h : terminated rest v = .ok v') : rest = [] ∧ v' = v := by
  unfold terminated at h
  split at h
  · rename_i hrest
    exact ⟨hrest, (Except.ok.inj h).symm⟩
  · contradiction

theorem cell_cases (c : Val) :
    (c = .num 2 ∧ cellTy c = int64 ∧ ∀ name, cellName name c = some name) ∨
      (c ≠ .num 2 ∧ (∃ count, cellTy c = .array count int32) ∧ ∀ name, cellName name c = none) := by
  cases c with
  | num n =>
    by_cases hn : n = 2
    · subst hn
      exact .inl ⟨rfl, rfl, fun _ => rfl⟩
    · refine .inr ⟨?_, ⟨.lit n, ?_⟩, fun name => ?_⟩
      · exact fun h => hn (Val.num.inj h)
      · rw [cellTy, if_neg hn]
      · rw [cellName, if_neg hn]
  | none | str | bytes | float | frac | list | struct =>
    exact .inr ⟨nofun, ⟨.bad, rfl⟩, fun _ => rfl⟩

theorem cellTy_sound (c : Val) : (cellTy c).sound = true := by
  rcases cell_cases c with ⟨-, hty, -⟩ | ⟨-, ⟨count, hty⟩, -⟩
  · rw [hty]
    rfl
  · rw [hty]
    rfl

def regMembers (ac sc : Val) : Members :=
  members [(cellName "addr" ac, cellTy ac), (cellName "size" sc, cellTy sc)]

theorem regMembers_stored_iff (ac sc : Val) :
    (regMembers ac sc).stored = true ↔ ac = .num 2 ∧ sc = .num 2 := by
  unfold regMembers members members members
  rcases cell_cases ac with ⟨hac, -, hname⟩ | ⟨hac, ⟨count, hty⟩, hname⟩
  · rcases cell_cases sc with ⟨hsc, -, hname'⟩ | ⟨hsc, ⟨count', hty'⟩, hname'⟩
    · rw [hname, hname']
      exact iff_of_true rfl ⟨hac, hsc⟩
    · rw [hname, hname', hty']
      exact iff_of_false Bool.noConfusion fun h => hsc h.2
  · rw [hname, hty]
    exact iff_of_false Bool.noConfusion fun h => hac h.1

/-- The struct of `reg` can be written exactly if both of its members have their names. -/
theorem regStruct_sound_iff (ac sc : Val) :
    (regStruct ac sc).sound = true ↔ ac = .num 2 ∧ sc = .num 2 := by
  constructor
  · intro h
    rw [← regMembers_stored_iff]
    exact Members.stored_of_sound _ h
  · rintro ⟨rfl, rfl⟩
    rfl

theorem rangesStruct_sound (ac pac sc : Val) : (rangesStruct ac pac sc).sound = true := by
  have hcells := And.intro (cellTy_sound ac) (And.intro (cellTy_sound pac) (cellTy_sound sc))
  simp only [rangesStruct, named, List.map_cons, List.map_nil, members, Ty.sound, Members.sound,
    hcells.1, hcells.2.1, hcells.2.2]
  decide

variable [Library]

theorem swallow_eq_ok {e : Err} (h : swallow e bs = .ok rest) : e = .stream := by
  cases e with
  | stream => rfl
  | missing | other | loop => contradiction

theorem safeGreedyRange_eq_ok {vs : List Val} (h : safeGreedyRange p bs = .ok (vs, rest)) :
    ∃ tail, Elements p bs vs tail ∧ p tail = .error .stream := by
  obtain ⟨tail, e, helems, he, hstop⟩ := parseWhile_elements h
  obtain rfl := swallow_eq_ok hstop
  exact ⟨tail, helems, he⟩

theorem buildAll_unstored {ms : Members} (h : ms.stored = false) {vs : List Val} (hvs : vs ≠ [])
    {tail : List Byte} (helems : Elements (Library.parse (.struct ms) []) bs vs tail)
    (out : List Byte) : buildAll (Library.build (.struct ms) []) vs ≠ .ok out := by
  intro hout
  cases helems with
  | nil => contradiction
  | cons head =>
    rw [Library.parse_struct] at head
    obtain ⟨⟨obj, _⟩, -, ⟨⟩⟩ := except_bind_eq_ok head
    rw [buildAll] at hout
    obtain ⟨first, hfirst, -⟩ := except_bind_eq_ok hout
    rw [Library.build_struct] at hfirst
    have hstored := ms.stored_of_build hfirst
    rw [h] at hstored
    contradiction

/-- The formats that `parse_prop` finds: one of the sound ones, or a struct of `reg`. -/
def Format.Known (f : Format) : Prop :=
  f.sound = true ∨ ∃ ac sc, f = .safeRange (regStruct ac sc)

theorem headed_build_iff {head : Members} {name : String} {elem : Ty}
    (hsound : (Format.headed head name elem).sound = true)
    (h : (Format.headed head name elem).parse raw = .ok v) :
    (Format.headed head name elem).build v = .ok raw ↔
      (Format.headed head name elem).Fits raw := by
  rw [Format.sound, Bool.and_eq_true, Bool.and_eq_true] at hsound
  obtain ⟨⟨hhead, hname⟩, helem⟩ := hsound
  rw [Format.parse] at h
  obtain ⟨⟨fields, bs⟩, hfields, h⟩ := except_bind_eq_ok h
  obtain ⟨⟨vs, rest⟩, hvs, h⟩ := except_bind_eq_ok h
  obtain ⟨-, rfl⟩ := terminated_eq_ok h
  obtain ⟨tail, helems, hstop⟩ := safeGreedyRange_eq_ok hvs
  have hext : Extends fields (fields ++ [(name, .list vs)]) := extends_append fields _
  obtain ⟨out, hout, rfl⟩ := head.inverts hhead (fun _ hk => absurd rfl hk) hfields hext
  have hfresh : fields.lookup name = none := by
    apply head.lookup_keys hfields rfl
    simpa using hname
  have hlast : (fields ++ [(name, Val.list vs)]).lookup name = some (.list vs) := by
    rw [lookup_append, hfresh]
    simp
  have hrange := elements_build_iff (elem.inverts helem hext) helems hstop
  have hfits : (Format.headed head name elem).Fits (out ++ bs) ↔
      Whole (Library.parse elem fields) bs := by
    constructor
    · intro hall
      exact hall fields bs hfields
    · intro hwhole fields' bs' hfields'
      rw [hfields] at hfields'
      cases hfields'
      exact hwhole
  rw [hfits, ← hrange, Format.build, hout, except_ok_bind, hlast]
  dsimp only
  obtain ⟨outs, houts, -⟩ := helems.build (elem.inverts helem hext)
  rw [houts, except_ok_bind]
  constructor
  · intro heq
    rw [List.append_cancel_left (Except.ok.inj heq)]
  · intro heq
    rw [Except.ok.inj heq]

/-- **What is lost**: a property that was parsed comes back as it was exactly if its bytes
    fit the format. -/
theorem Format.build_iff {f : Format} (hf : f.Known) (hfloat : f.floating = false)
    (hraw : raw ≠ []) (h : f.parse raw = .ok v) : f.build v = .ok raw ↔ f.Fits raw := by
  cases f with
  | plain ty =>
    obtain hsound | ⟨ac, sc, heq⟩ := hf
    · rw [Format.parse] at h
      obtain ⟨⟨v', rest⟩, hv, h⟩ := except_bind_eq_ok h
      obtain ⟨rfl, rfl⟩ := terminated_eq_ok h
      obtain ⟨out, hout, rfl⟩ := ty.inverts hsound (extends_refl []) _ _ _ hv
      rw [List.append_nil]
      exact iff_of_true hout trivial
    · contradiction
  | safeRange elem =>
    rw [Format.parse] at h
    obtain ⟨⟨vs, rest⟩, hvs, h⟩ := except_bind_eq_ok h
    obtain ⟨-, rfl⟩ := terminated_eq_ok h
    obtain ⟨tail, helems, hstop⟩ := safeGreedyRange_eq_ok hvs
    change buildAll (Library.build elem []) vs = .ok raw ↔
      elem.sound = true ∧ Whole (Library.parse elem []) raw
    by_cases hsound : elem.sound = true
    · rw [and_iff_right hsound]
      exact elements_build_iff (elem.inverts hsound (extends_refl [])) helems hstop
    · refine iff_of_false ?_ fun hfits => hsound hfits.1
      obtain hsound' | ⟨ac, sc, heq⟩ := hf
      · contradiction
      · obtain rfl := Format.safeRange.inj heq
        have hstored : (regMembers ac sc).stored = false := by
          rw [regStruct_sound_iff] at hsound
          rw [← Bool.not_eq_true, regMembers_stored_iff]
          exact hsound
        by_cases hvs : vs = []
        · rw [hvs]
          intro hnil
          exact hraw (Except.ok.inj hnil).symm
        · exact buildAll_unstored hstored hvs helems raw
  | headed head name elem =>
    obtain hsound | ⟨ac, sc, heq⟩ := hf
    · exact headed_build_iff hsound h
    · contradiction
  | float => contradiction

theorem Format.parse_ne_none {f : Format} (hf : f.Known) (hfloat : f.floating = false)
    (h : f.parse raw = .ok v) : v ≠ .none := by
  cases f with
  | plain ty =>
    obtain hsound | ⟨ac, sc, heq⟩ := hf
    case inr => contradiction
    rw [Format.parse] at h
    obtain ⟨⟨v', rest⟩, hv, h⟩ := except_bind_eq_ok h
    obtain ⟨-, rfl⟩ := terminated_eq_ok h
    exact ty.parse_ne_none hsound hv
  | safeRange elem =>
    rw [Format.parse] at h
    obtain ⟨⟨vs, rest⟩, -, h⟩ := except_bind_eq_ok h
    obtain ⟨-, rfl⟩ := terminated_eq_ok h
    exact nofun
  | headed head name elem =>
    rw [Format.parse] at h
    obtain ⟨⟨fields, bs⟩, -, h⟩ := except_bind_eq_ok h
    obtain ⟨⟨vs, rest⟩, -, h⟩ := except_bind_eq_ok h
    obtain ⟨-, rfl⟩ := terminated_eq_ok h
    exact nofun
  | float => contradiction

end Formats

/-! ### The type of a property is a known one -/

section Known

variable {scope : Scope} {name raw : List Byte} {t t' : Option Format} {f : Format}

theorem devProperties_sound :
    ∀ dev ∈ devProperties, ∀ c ∈ dev.2, ∀ k ∈ c.2, k.2.sound = true := by
  decide

theorem stdProperties_sound : ∀ k ∈ stdProperties, k.2.sound = true := by decide

theorem devProps_mem {path nodeName : List Byte} {props : DevProps}
    (h : devProps path nodeName = some props) : ∃ pattern, (pattern, props) ∈ devProperties := by
  unfold devProps at h
  split at h
  · rename_i dev hdev
    cases h
    exact ⟨dev.1, List.mem_of_find?_eq_some hdev⟩
  · obtain ⟨dev, hdev, rfl⟩ := Option.map_eq_some_iff.mp h
    exact ⟨dev.1, List.mem_of_find?_eq_some hdev⟩

theorem devType_known (h : devType scope name = .ok (some f)) : f.Known := by
  unfold devType at h
  split at h
  · cases h
  · rename_i props hprops
    obtain ⟨pattern, hdev⟩ := devProps_mem hprops
    split at h
    · obtain ⟨compat, -, h⟩ := except_bind_eq_ok h
      obtain ⟨c, hc, hfound⟩ := List.exists_of_findSome?_eq_some (Except.ok.inj h)
      split at hfound
      · obtain ⟨k, hk, rfl⟩ := Option.map_eq_some_iff.mp hfound
        exact .inl (devProperties_sound _ hdev c hc k (List.mem_of_find?_eq_some hk))
      · contradiction
    · cases h

theorem functionType_known (ht : ∀ f, t = some f → f.Known)
    (h : functionType name raw t = some f) : f.Known := by
  unfold functionType at h
  split at h
  · split at h
    · cases h
      exact .inl rfl
    · cases h
      exact .inl (by decide)
  · exact ht f h

theorem lookup_mem {α : Type} {k : List Byte} {x : α} {l : List (List Byte × α)}
    (h : l.lookup k = some x) : ∃ k', (k', x) ∈ l := by
  induction l with
  | nil => contradiction
  | cons head l ih =>
    obtain ⟨k', y⟩ := head
    rw [List.lookup_cons] at h
    split at h
    · cases h
      exact ⟨k', List.mem_cons_self⟩
    · obtain ⟨k'', hmem⟩ := ih h
      exact ⟨k'', List.mem_cons_of_mem _ hmem⟩

theorem known_of_some {g : Format} (hg : g.Known) (h : some g = some f) : f.Known :=
  Option.some.inj h ▸ hg

theorem guessType_known (h : guessType name raw = some f) : f.Known := by
  unfold guessType at h
  split at h
  · rename_i f' hstd
    obtain ⟨k, hk⟩ := lookup_mem hstd
    exact known_of_some (.inl (stdProperties_sound _ hk)) h
  · split at h
    · exact known_of_some (.inl rfl) h
    · split at h
      · exact known_of_some (.inl rfl) h
      · split at h
        · exact known_of_some (.inl rfl) h
        · split at h
          · exact known_of_some (.inl rfl) h
          · contradiction

/-- A choice that goes on with a known type. -/
def Choice.Known (c : Choice) : Prop := ∀ f, c = .typed (some f) → f.Known

theorem known_typed (h : f.Known) : (Choice.typed (some f)).Known := by
  intro g hg
  obtain rfl := Option.some.inj (Choice.typed.inj hg)
  exact h

theorem known_typed_of (ht : ∀ f, t = some f → f.Known) : (Choice.typed t).Known := by
  intro g hg
  exact ht g (Choice.typed.inj hg)

theorem rangesType_known {c : Choice} (h : rangesType scope = .ok c) : c.Known := by
  unfold rangesType at h
  split at h
  · cases h
    exact nofun
  · rename_i ac sc _
    split at h
    · contradiction
    · split at h
      · contradiction
      · rename_i pac _ _
        cases h
        exact known_typed (.inl (rangesStruct_sound ac pac sc))

variable [Library]

theorem regType_known {c : Choice} (ht : ∀ f, t = some f → f.Known)
    (h : regType scope raw t = .ok c) : c.Known := by
  unfold regType at h
  split at h
  · split at h
    · contradiction
    · split at h
      · contradiction
      · rename_i ac sc _
        split at h
        · contradiction
        · split at h
          · contradiction
          · split at h
            · cases h
              exact known_typed (.inr ⟨ac, sc, rfl⟩)
            · cases h
              exact known_typed_of ht
  · cases h
    exact known_typed_of ht

theorem dapfType_known {c : Choice} (ht : ∀ f, t = some f → f.Known)
    (h : dapfType scope raw t = .ok c) : c.Known := by
  unfold dapfType at h
  split at h
  · cases h
    exact nofun
  · split at h
    · split at h
      · split at h
        · cases h
          exact known_typed (.inl (by decide))
        · cases h
          exact known_typed_of ht
      · cases h
        exact known_typed (.inl (by decide))
    · cases h
      exact known_typed (.inl (by decide))
  · contradiction

theorem chooseType_known {c : Choice} (ht : ∀ f, t = some f → f.Known)
    (h : chooseType scope name raw t = .ok c) : c.Known := by
  unfold chooseType at h
  split at h
  · exact regType_known ht h
  · split at h
    · exact rangesType_known h
    · split at h
      · exact dapfType_known ht h
      · split at h
        · cases h
          exact known_typed (.inl rfl)
        · cases h
          exact known_typed_of ht

/-- What `parse_prop` returns: a known type and what it makes of the value, or no type and
    the value as it is. -/
inductive Parsed (raw : List Byte) : Option Format → Val → Prop
  | typed {f : Format} {v : Val} (known : f.Known) (parse : f.parse raw = .ok v) (some : raw ≠ []) :
      Parsed raw (.some f) v
  | empty (none : raw = []) : Parsed raw .none .none
  | raw (some : raw ≠ []) : Parsed raw .none (.bytes raw)

theorem parseProp_parsed {template : Bool} {v : Val}
    (h : parseProp scope name raw template = .ok (t, v)) : Parsed raw t v := by
  unfold parseProp at h
  split at h
  · obtain ⟨value, hvalue, h⟩ := except_bind_eq_ok h
    cases h
    refine .typed (.inl rfl) hvalue ?_
    rintro rfl
    rw [Format.parse, Library.parse_cstring] at hvalue
    contradiction
  · obtain ⟨dev, hdev, h⟩ := except_bind_eq_ok h
    split at h
    · rename_i hempty
      cases h
      exact .empty hempty
    · rename_i hsome
      obtain ⟨c, hc, h⟩ := except_bind_eq_ok h
      have hknown : c.Known := by
        refine chooseType_known (fun f hf => functionType_known ?_ hf) hc
        rintro g rfl
        exact devType_known hdev
      split at h
      · cases h
        exact .raw hsome
      · rename_i t₁
        split at h
        · rename_i f hf
          obtain ⟨value, hvalue, h⟩ := except_bind_eq_ok h
          cases h
          refine .typed ?_ hvalue hsome
          cases t₁ with
          | none => exact guessType_known hf
          | some g =>
            cases hf
            exact hknown _ rfl
        · cases h
          exact .raw hsome

/-- The property fits the type it was given, if any. -/
def TypeFits (raw : List Byte) : Option Format → Prop
  | none => True
  | some f => f.Fits raw

/-- A property that was parsed is built as it was exactly if it fits its type. -/
theorem Parsed.build_iff {v : Val} (h : Parsed raw t v) (hfloat : t.any Format.floating = false)
    (name : List Byte) : buildProp name v t = .ok raw ↔ TypeFits raw t := by
  cases h with
  | typed known parse some =>
    rename_i f
    have hf : f.floating = false := hfloat
    have hbuild : buildProp name v (Option.some f) = f.build v := by
      cases v with
      | none => exact absurd rfl (Format.parse_ne_none known hf parse)
      | num | str | bytes | float | frac | list | struct => rfl
    rw [hbuild]
    exact Format.build_iff known hf some parse
  | empty none =>
    rw [none]
    exact iff_of_true rfl trivial
  | raw some => exact iff_of_true rfl trivial

end Known

end MiniHaywire.AdtClient
