import MiniHaywire.AdtLoad

/-!
# Registers in the client

`get_reg` and `translate` of a loaded node.  They work on the values that `parse_prop`
made of `reg` and `ranges`, and the shape of those depends on the cell counts: two
cells are an integer, any other number is a list.  Comparing a list with an address
or adding one to it raises, and a member that was not stored is an `AttributeError`
(`Err.missing`), which some callers catch.

The second part is what a loaded node holds under the four names that matter: the
cell counts, the windows of `ranges` and the entries of `reg`, read off the bytes.
-/

namespace MiniHaywire.AdtClient

open MiniHaywire.Construct MiniHaywire.Adt

/-! ### The code -/

def getattr (key : String) : Val → Except Err Val
  | .struct fields =>
    match fields.lookup key with
    | some v => .ok v
    | none => .error .missing
  | _ => .error .missing

def item (idx : Nat) : Val → Except Err Val
  | .list vs => (vs[idx]?).elim (.error .other) .ok
  | .str s => (s[idx]?).elim (.error .other) fun c => .ok (.str [c])
  | .bytes bs => (bs[idx]?).elim (.error .other) fun b => .ok (.num b.toNat)
  | _ => .error .other

/-- What `for r in v` runs over. -/
def iterate : Val → Except Err (List Val)
  | .list vs => .ok vs
  | .str s => .ok (s.map fun c => .str [c])
  | .bytes bs => .ok (bs.map fun b => .num b.toNat)
  | .struct fields => .ok (fields.map fun field => .str (ascii field.1))
  | _ => .error .other

/-- `r.bus_addr`, with the three cells of PCIe put together. -/
def busAddr (r : Val) : Except Err Val := do
  match ← getattr "bus_addr" r with
  | .list [x, y, z] =>
    match x, y, z with
    | .num x, .num y, .num z => .ok (.num (x <<< 64 ||| z <<< 32 ||| y))
    | _, _, _ => .error .other
  | ba => .ok ba

/-- One round of the loop over `ranges`: the translated address, if the address is in the
    window `ba <= addr < (ba + r.size)`. -/
def window (r : Val) (addr : Nat) : Except Err (Option Nat) := do
  match ← busAddr r with
  | .num ba =>
    if ba ≤ addr then do
      match ← getattr "size" r with
      | .num size =>
        if addr < ba + size then do
          match ← getattr "parent_addr" r with
          | .num parentAddr => .ok (some (addr - ba + parentAddr))
          | _ => .error .other
        else .ok none
      | _ => .error .other
    else .ok none
  | _ => .error .other

def windows : List Val → Nat → Except Err Nat
  | [], addr => .ok addr
  | r :: rs, addr => do
    match ← window r addr with
    | some addr => .ok addr
    | none => windows rs addr

/-- `translate`, from the properties of the node and its ancestors upwards. -/
def translate : List Dict → Nat → Except Err Nat
  | [], addr => .ok addr
  | d :: up, addr =>
    match d.lookup rangesName with
    | none => .ok addr
    | some v => do
      let rs ← iterate v
      let addr ← windows rs addr
      translate up addr

def regName : List Byte := ascii "reg"

/-- `reg.addr` and `reg.size` of an entry.  Where they are stored they are integers. -/
def regEntry (reg : Val) : Except Err (Nat × Nat) := do
  match ← getattr "addr" reg, ← getattr "size" reg with
  | .num addr, .num size => .ok (addr, size)
  | _, _ => .error .other

/-- `get_reg`.  Without a parent, `None` has no `translate`. -/
def getReg (own : Dict) (parents : List Dict) (idx : Nat) : Except Err (Nat × Nat) :=
  match own.lookup regName with
  | none => .error .missing
  | some v => do
    let reg ← item idx v
    let (addr, size) ← regEntry reg
    match parents with
    | [] => .error .missing
    | _ => do
      let addr ← translate parents addr
      .ok (addr, size)

/-! ### Decoded cells -/

section Cells

def cellVal (n : Nat) (bs : List Byte) : Val :=
  if n = 2 then .num (field bs 0 8)
  else .list ((List.range n).map fun i => .num (field (bs.drop (i * 4)) 0 4))

def rangeVal (ac pac sc : Nat) (bs : List Byte) : Val :=
  .struct [("bus_addr", cellVal ac bs), ("parent_addr", cellVal pac (bs.drop (ac * 4))),
    ("size", cellVal sc (bs.drop (ac * 4 + pac * 4)))]

variable [Library]

theorem fixed_cellTy (n : Nat) (ctx : Ctx) :
    Fixed (Library.parse (cellTy (.num n)) ctx) (n * 4) (cellVal n) := by
  by_cases hn : n = 2
  · subst hn
    exact fixed_uint 8 ctx
  · have hty : cellTy (.num n) = .array (.lit n) int32 := if_neg hn
    rw [hty]
    apply (fixed_array (fixed_uint 4 ctx) n).congr
    intro bs
    exact (if_neg hn).symm

theorem fixed_rangesStruct (ac pac sc : Nat) :
    Fixed (Library.parse (rangesStruct (.num ac) (.num pac) (.num sc)) [])
      (4 * (ac + pac + sc)) (rangeVal ac pac sc) := by
  have hmembers := fixedMembers_cons (some "bus_addr") (fixed_cellTy ac)
    (fixedMembers_cons (some "parent_addr") (fixed_cellTy pac)
      (fixedMembers_cons (some "size") (fixed_cellTy sc) fixedMembers_nil))
  have hbytes : 4 * (ac + pac + sc) = ac * 4 + (pac * 4 + (sc * 4 + 0)) := by omega
  rw [hbytes]
  apply (fixed_struct hmembers []).congr
  intro bs
  rw [rangeVal, ← List.drop_drop]
  rfl

theorem safeRange_fixed {elem : Ty} {n : Nat} {f : List Byte → Val}
    (h : Fixed (Library.parse elem []) n f) (hn : 0 < n) (raw : List Byte) :
    (Format.safeRange elem).parse raw =
      .ok (.list ((List.range (raw.length / n)).map fun i => f (raw.drop (i * n)))) := by
  rw [Format.parse, safeGreedyRange, parseWhile_fixed h hn swallow _ raw (Nat.lt_succ_self _),
    swallow, Library.shortRead_eq]
  rfl

end Cells

/-! ### What is parsed under the four names -/

section Parse

theorem fnmatch_plain {key : List Byte} (h : key ∈ [addressCells, sizeCells, rangesName, regName]) :
    ∀ dev ∈ devProperties, ∀ c ∈ dev.2, ∀ k ∈ c.2, fnmatch key k.1 = false := by
  have hall : ∀ key ∈ [addressCells, sizeCells, rangesName, regName], ∀ dev ∈ devProperties,
      ∀ c ∈ dev.2, ∀ k ∈ c.2, fnmatch key k.1 = false := by
    decide +kernel
  exact hall key h

def NoEntries (v : Val) : Prop := ∀ idx r, item idx v = .ok r → regEntry r = .error .missing

theorem noEntries_str (s : List Byte) : NoEntries (.str s) := by
  intro idx r h
  rw [item] at h
  cases hget : s[idx]? with
  | none =>
    rw [hget] at h
    contradiction
  | some c =>
    rw [hget] at h
    cases h
    rfl

theorem noEntries_bytes (bs : List Byte) : NoEntries (.bytes bs) := by
  intro idx r h
  rw [item] at h
  cases hget : bs[idx]? with
  | none =>
    rw [hget] at h
    contradiction
  | some b =>
    rw [hget] at h
    cases h
    rfl

theorem noEntries_num (n : Nat) : NoEntries (.num n) := by
  intro idx r h
  contradiction

variable [Library] {scope : Scope} {raw : List Byte} {t : Option Format} {v : Val}

theorem parseProp_plain {name : List Byte} (hraw : raw ≠ [])
    (hname : ∀ dev ∈ devProperties, ∀ c ∈ dev.2, ∀ k ∈ c.2, fnmatch name k.1 = false)
    (h : parseProp scope name raw false = .ok (t, v)) :
    ∃ c, chooseType scope name raw (functionType name raw none) = .ok c ∧
      ((c = .raw ∧ t = none ∧ v = .bytes raw) ∨
        ∃ t', c = .typed t' ∧
          ((∃ f, t'.or (guessType name raw) = some f ∧ t = some f ∧ f.parse raw = .ok v) ∨
            (t'.or (guessType name raw) = none ∧ t = none ∧ v = .bytes raw))) := by
  rw [parseProp, if_neg Bool.false_ne_true] at h
  obtain ⟨dev, hdev, h⟩ := except_bind_eq_ok h
  obtain rfl := devType_none hname hdev
  rw [if_neg hraw] at h
  obtain ⟨c, hc, h⟩ := except_bind_eq_ok h
  refine ⟨c, hc, ?_⟩
  cases c with
  | raw =>
    cases h
    exact .inl ⟨rfl, rfl, rfl⟩
  | typed t' =>
    refine .inr ⟨t', rfl, ?_⟩
    dsimp only at h
    split at h
    · rename_i f hf
      obtain ⟨value, hvalue, h⟩ := except_bind_eq_ok h
      cases h
      exact .inl ⟨f, hf, rfl, hvalue⟩
    · rename_i hnone
      cases h
      exact .inr ⟨hnone, rfl, rfl⟩

theorem parseProp_typed {name : List Byte} {t' : Option Format} (hraw : raw ≠ [])
    (hname : ∀ dev ∈ devProperties, ∀ c ∈ dev.2, ∀ k ∈ c.2, fnmatch name k.1 = false)
    (hchoose : chooseType scope name raw (functionType name raw none) = .ok (.typed t'))
    (h : parseProp scope name raw false = .ok (t, v)) :
    (∃ f, t'.or (guessType name raw) = some f ∧ t = some f ∧ f.parse raw = .ok v) ∨
      (t'.or (guessType name raw) = none ∧ t = none ∧ v = .bytes raw) := by
  obtain ⟨c, hc, h⟩ := parseProp_plain hraw hname h
  rw [hchoose] at hc
  cases hc
  rcases h with ⟨h, -⟩ | ⟨t'', h, h'⟩
  · contradiction
  · obtain rfl := Choice.typed.inj h
    exact h'

theorem parseProp_cells {key : List Byte} (hkey : key = addressCells ∨ key = sizeCells)
    (hraw : raw.length = 4) (h : parseProp scope key raw false = .ok (t, v)) :
    t ≠ none ∧ v = .num (leNat raw) := by
  have hne : raw ≠ [] := by
    rintro rfl
    contradiction
  have hkey' : key ∈ [addressCells, sizeCells, rangesName, regName] := by
    rcases hkey with rfl | rfl <;> simp
  have hguess : guessType key raw = some (.plain int32) := by
    rcases hkey with rfl | rfl <;> rfl
  have hchoose : chooseType scope key raw (functionType key raw none) = .ok (.typed none) := by
    rcases hkey with rfl | rfl <;> rfl
  have hint : (Format.plain int32).parse raw = .ok (.num (leNat raw)) := by
    rw [Format.parse, int32, fixed_uint 4 [] raw, if_pos (by omega), except_ok_bind]
    dsimp only
    rw [field, List.drop_zero, List.take_of_length_le (by omega), terminated,
      if_pos (List.drop_of_length_le (by omega))]
  have htyped := parseProp_typed hne (fnmatch_plain hkey') hchoose h
  rw [hguess] at htyped
  rcases htyped with ⟨f, hf, rfl, hparse⟩ | ⟨hnone, -⟩
  · cases hf
    rw [hint] at hparse
    exact ⟨Option.some_ne_none _, (Except.ok.inj hparse).symm⟩
  · contradiction

theorem parseProp_ranges (hraw : raw ≠ []) (h : parseProp scope rangesName raw false = .ok (t, v)) :
    (cells scope.own = none ∧ t = none) ∨
      ∃ ac sc parent up pac psc, cells scope.own = some (ac, sc) ∧ scope.parents = parent :: up ∧
        cells parent = some (pac, psc) ∧
        (Format.safeRange (rangesStruct ac pac sc)).parse raw = .ok v := by
  have hchoose : chooseType scope rangesName raw (functionType rangesName raw none) =
      rangesType scope := rfl
  obtain ⟨c, hc, h⟩ := parseProp_plain hraw (fnmatch_plain (by simp)) h
  rw [hchoose, rangesType] at hc
  cases hown : cells scope.own with
  | none =>
    rw [hown] at hc
    cases hc
    rcases h with ⟨-, hnone, -⟩ | ⟨t', h, -⟩
    · exact .inl ⟨rfl, hnone⟩
    · contradiction
  | some own =>
    obtain ⟨ac, sc⟩ := own
    rw [hown] at hc
    dsimp only at hc
    cases hparents : scope.parents with
    | nil =>
      rw [hparents] at hc
      contradiction
    | cons parent up =>
      rw [hparents] at hc
      dsimp only at hc
      cases hparent : cells parent with
      | none =>
        rw [hparent] at hc
        contradiction
      | some pcells =>
        obtain ⟨pac, psc⟩ := pcells
        rw [hparent] at hc
        cases hc
        refine .inr ⟨ac, sc, parent, up, pac, psc, rfl, rfl, hparent, ?_⟩
        rcases h with ⟨h, -⟩ | ⟨t', h, h'⟩
        · contradiction
        · obtain rfl := Choice.typed.inj h
          rcases h' with ⟨f, hf, -, hparse⟩ | ⟨hnone, -⟩
          · cases hf
            exact hparse
          · contradiction

end Parse

/-! ### What a node was loaded with -/

section Loaded

variable {ps : List PropStruct} {d : Dict} {key raw : List Byte}

/-- Every property of this name has this value and no flag. -/
def OnlyValue (ps : List PropStruct) (key raw : List Byte) : Prop :=
  ∀ p ∈ ps, p.name = key → p.value = raw ∧ isTemplate p.size = false

/-- The node declares its widths, the same in every place, and has no property under the names
    that would be taken for them before they are read. -/
structure HasCells (ps : List PropStruct) (ac sc : Nat) : Prop where
  addr : OnlyValue ps addressCells (leWord (BitVec.ofNat 32 ac))
  addr_mem : addressCells ∈ ps.map PropStruct.name
  addr_lt : ac < 2 ^ 32
  size : OnlyValue ps sizeCells (leWord (BitVec.ofNat 32 sc))
  size_mem : sizeCells ∈ ps.map PropStruct.name
  size_lt : sc < 2 ^ 32
  addr_attr : addressAttr ∉ ps.map PropStruct.name
  size_attr : sizeAttr ∉ ps.map PropStruct.name

theorem leNat_cells {n : Nat} (hn : n < 2 ^ 32) : leNat (leWord (BitVec.ofNat 32 n)) = n := by
  rw [leNat_leWord rfl, BitVec.toNat_ofNat, Nat.mod_eq_of_lt hn]

theorem cells_eq_some {ac sc : Val} (hac : d.lookup addressCells = some ac)
    (hsc : d.lookup sizeCells = some sc) : cells d = some (ac, sc) := by
  rw [cells, hac, hsc]
  rfl

variable [Library] {scope : Scope}

/-- The dictionary of a node, after both passes over its properties. -/
def Loaded (scope : Scope) (ps : List PropStruct) (d : Dict) : Prop :=
  ∃ first es, firstPass scope ps [] = .ok first ∧
    List.Forall₂ (Reparsed scope first) es first ∧ d = dict es

theorem loaded_absent (h : Loaded scope ps d) (hkey : key ∉ ps.map PropStruct.name) :
    d.lookup key = none := by
  obtain ⟨first, es, hfirst, hes, rfl⟩ := h
  have hnone : findEntry key first = none := firstPass_other ps hkey hfirst
  rw [lookup_dict, (findEntry_reparsed hes key).1 hnone, Option.map_none]

/-- The value under a name is what was parsed of the last property of that name: in the first
    pass, with the properties before it at hand, or in the second. -/
theorem loaded_last {pre post : List PropStruct} {p : PropStruct}
    (h : Loaded scope (pre ++ p :: post) d) (hpost : p.name ∉ post.map PropStruct.name) :
    ∃ own t v, parseProp { scope with own := own } p.name p.value (isTemplate p.size) =
        .ok (t, v) ∧ d.lookup p.name = some v ∧
      ((∃ es₀, firstPass scope pre [] = .ok es₀ ∧ own = dict es₀ ∧ t ≠ none) ∨
        ∃ first, firstPass scope (pre ++ p :: post) [] = .ok first ∧ TypedIn first own) := by
  obtain ⟨first, es, hfirst, hes, rfl⟩ := h
  obtain ⟨es₀, t, v, hpre, hparse, hentry⟩ := firstPass_last hpost hfirst
  obtain ⟨e', he', hre⟩ := (findEntry_reparsed hes p.name).2 _ hentry
  have hlookup : (dict es).lookup p.name = some e'.value := by
    rw [lookup_dict, he', Option.map_some]
  by_cases ht : t = none
  · obtain ⟨own, htyped, hagain⟩ := hre.again ht
    exact ⟨own, e'.type, e'.value, hagain, hlookup, .inr ⟨first, hfirst, htyped⟩⟩
  · have hkept := hre.kept ht
    subst hkept
    exact ⟨dict es₀, t, v, hparse, hlookup, .inl ⟨es₀, hpre, rfl, ht⟩⟩

theorem firstPass_cells (hkey : key = addressCells ∨ key = sizeCells) (hraw : raw.length = 4)
    (hps : OnlyValue ps key raw) {es : List Entry} (h : firstPass scope ps [] = .ok es) :
    (key ∉ ps.map PropStruct.name → findEntry key es = none) ∧
      (key ∈ ps.map PropStruct.name →
        ∃ e, findEntry key es = some e ∧ e.type ≠ none ∧ e.value = .num (leNat raw)) := by
  constructor
  · intro habsent
    exact firstPass_other ps habsent h
  · intro hmem
    obtain ⟨pre, p, post, rfl, hname, hpost⟩ := exists_last hmem
    obtain ⟨es₀, t, v, -, hparse, hentry⟩ := firstPass_last (by rw [hname]; exact hpost) h
    obtain ⟨hvalue, hflag⟩ := hps p (by simp) hname
    rw [hname, hvalue, hflag] at hparse
    rw [hname] at hentry
    obtain ⟨ht, hv⟩ := parseProp_cells hkey hraw hparse
    exact ⟨_, hentry, ht, hv⟩

theorem loaded_cells (hkey : key = addressCells ∨ key = sizeCells) (hraw : raw.length = 4)
    (hps : OnlyValue ps key raw) (hmem : key ∈ ps.map PropStruct.name) (h : Loaded scope ps d) :
    d.lookup key = some (.num (leNat raw)) := by
  obtain ⟨first, es, hfirst, hes, rfl⟩ := h
  obtain ⟨e, he, htyped, hvalue⟩ := (firstPass_cells hkey hraw hps hfirst).2 hmem
  obtain ⟨e', he', hre⟩ := (findEntry_reparsed hes key).2 e he
  rw [lookup_dict, he', Option.map_some, hre.kept htyped, hvalue]

variable {ac sc : Nat}

theorem HasCells.cells_eq (hcells : HasCells ps ac sc) (h : Loaded scope ps d) :
    cells d = some (.num ac, .num sc) := by
  apply cells_eq_some
  · rw [loaded_cells (.inl rfl) rfl hcells.addr hcells.addr_mem h, leNat_cells hcells.addr_lt]
  · rw [loaded_cells (.inr rfl) rfl hcells.size hcells.size_mem h, leNat_cells hcells.size_lt]

theorem HasCells.cells_typedIn (hcells : HasCells ps ac sc) {first : List Entry} {own : Dict}
    (hfirst : firstPass scope ps [] = .ok first) (h : TypedIn first own) :
    cells own = some (.num ac, .num sc) := by
  obtain ⟨e, he, htyped, hvalue⟩ :=
    (firstPass_cells (.inl rfl) rfl hcells.addr hfirst).2 hcells.addr_mem
  obtain ⟨e', he', htyped', hvalue'⟩ :=
    (firstPass_cells (.inr rfl) rfl hcells.size hfirst).2 hcells.size_mem
  apply cells_eq_some
  · rw [h _ e he htyped, hvalue, leNat_cells hcells.addr_lt]
  · rw [h _ e' he' htyped', hvalue', leNat_cells hcells.size_lt]

theorem firstPass_lookup (hkey : key = addressCells ∨ key = sizeCells) (hraw : raw.length = 4)
    (hps : OnlyValue ps key raw) {es : List Entry} (h : firstPass scope ps [] = .ok es) {v : Val}
    (hv : (dict es).lookup key = some v) : v = .num (leNat raw) := by
  obtain ⟨habsent, hmem⟩ := firstPass_cells hkey hraw hps h
  rw [lookup_dict] at hv
  by_cases hin : key ∈ ps.map PropStruct.name
  · obtain ⟨e, he, -, hvalue⟩ := hmem hin
    rw [he, Option.map_some, hvalue] at hv
    exact (Option.some.inj hv).symm
  · rw [habsent hin] at hv
    contradiction

theorem HasCells.cells_firstPass {rest : List PropStruct} (hcells : HasCells (ps ++ rest) ac sc)
    {es : List Entry} (hfirst : firstPass scope ps [] = .ok es) {vac vsc : Val}
    (h : cells (dict es) = some (vac, vsc)) : vac = .num ac ∧ vsc = .num sc := by
  have hsub : ∀ {key raw}, OnlyValue (ps ++ rest) key raw → OnlyValue ps key raw :=
    fun hall p hp => hall p (List.mem_append_left rest hp)
  have hnone : ∀ {attr}, attr ∉ (ps ++ rest).map PropStruct.name →
      (dict es).lookup attr = none := by
    intro attr hattr
    have habsent : attr ∉ ps.map PropStruct.name := by
      rw [List.map_append, List.mem_append, not_or] at hattr
      exact hattr.1
    rw [lookup_dict, firstPass_other ps habsent hfirst]
    rfl
  rw [cells, hnone hcells.addr_attr, hnone hcells.size_attr, Option.or_none, Option.or_none] at h
  obtain ⟨a, ha, h⟩ := Option.bind_eq_some_iff.mp h
  obtain ⟨b, hb, h⟩ := Option.bind_eq_some_iff.mp h
  cases h
  rw [firstPass_lookup (.inl rfl) rfl (hsub hcells.addr) hfirst ha,
    firstPass_lookup (.inr rfl) rfl (hsub hcells.size) hfirst hb, leNat_cells hcells.addr_lt,
    leNat_cells hcells.size_lt]
  exact ⟨rfl, rfl⟩

/-- The windows of a loaded node, from its last `ranges`.  Where the widths come after it, it
    is parsed in the second pass. -/
theorem loaded_ranges {pre post : List PropStruct} {p : PropStruct}
    (h : Loaded scope (pre ++ p :: post) d) (hname : p.name = rangesName)
    (hpost : rangesName ∉ post.map PropStruct.name) (hflag : isTemplate p.size = false)
    (hcells : HasCells (pre ++ p :: post) ac sc) (hvalue : p.value ≠ []) :
    ∃ parent up pac psc v, scope.parents = parent :: up ∧ cells parent = some (pac, psc) ∧
      d.lookup rangesName = some v ∧
      (Format.safeRange (rangesStruct (.num ac) pac (.num sc))).parse p.value = .ok v := by
  obtain ⟨own, t, v, hparse, hlookup, hown⟩ := loaded_last h (by rw [hname]; exact hpost)
  rw [hname, hflag] at hparse
  rw [hname] at hlookup
  rcases parseProp_ranges hvalue hparse with ⟨hnone, rfl⟩ |
    ⟨vac, vsc, parent, up, pac, psc, hsome, hparents, hparent, hrange⟩
  · rcases hown with ⟨es₀, -, -, ht⟩ | ⟨first, hfirst, htyped⟩
    · contradiction
    · have hcellsOwn := hcells.cells_typedIn hfirst htyped
      dsimp only at hnone
      rw [hcellsOwn] at hnone
      contradiction
  · have heq : vac = .num ac ∧ vsc = .num sc := by
      rcases hown with ⟨es₀, hfirst, rfl, -⟩ | ⟨first, hfirst, htyped⟩
      · exact hcells.cells_firstPass hfirst hsome
      · have hcellsOwn := hcells.cells_typedIn hfirst htyped
        dsimp only at hsome
        rw [hcellsOwn] at hsome
        cases hsome
        exact ⟨rfl, rfl⟩
    obtain ⟨rfl, rfl⟩ := heq
    exact ⟨parent, up, pac, psc, v, hparents, hparent, hlookup, hrange⟩

end Loaded

end MiniHaywire.AdtClient
