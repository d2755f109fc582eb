import MiniHaywire.Payload
import MiniHaywire.ChosenParams

/-!
# Boot variables

A payload may start with lines `chosen.NAME=VALUE`.  `check_var` ends each of them in place,
with a NUL over the newline, and notes where the first sixteen start.  Once the scan is
over, `payload_run` cuts each of those lines at its `=`, again in place, and hands name and
value to `kboot_set_chosen`.

The lines stand in one block of memory, so every one of those writes replaces one byte of
the block (`Mem.at_store`).  `Consumed` is that block between two rounds of the scan;
`setChosenVar_line` says what a round of the second loop does to it.
-/

namespace MiniHaywire.Payload

open MiniHaywire.Kboot (ChosenSlot ChosenEntry kbootSetChosen chosenCall noChosen)

/-! ### The end of `payload_run` -/

/-- A round of the loop over `chosen`: the line is cut at its `=`, which is looked for in its
    first 65 bytes. -/
def setChosenVar (s : Mem 32 × List ChosenSlot) (var : U32) :
    Except Stop (Mem 32 × List ChosenSlot) :=
  match (s.1.load var 65).findIdx? (· == 0x3d) with
  | none => .error .assertion
  | some eq =>
    let mem : Mem 32 := Function.update s.1 (var + BitVec.ofNat 32 eq) 0
    .ok (mem, (kbootSetChosen (some (mem.cstring (var + 7)))
      (some (mem.cstring (var + BitVec.ofNat 32 (eq + 1)))) s.2).2)

/-- `payload_run` from `chosen_cnt = 0` on, up to the call of `kboot_prepare_dt`: with the rows
    of `chosen_params` at that call, or `none` where it is not reached. -/
def payloadRun (L : Libs) (fuel rounds : Nat) (start stop : U32) (w : World)
    (params : List ChosenSlot) : Except Stop (World × Option (List ChosenSlot)) := do
  let (_, w) ← payloadLoop L fuel start stop rounds { w with chosen := [] } start
  if w.kernel ≠ 0 ∧ w.fdt ≠ 0 then do
    let (mem, params) ← w.chosen.foldlM setChosenVar (w.mem, params)
    .ok ({ w with mem := mem }, some params)
  else .ok (w, none)

/-- The cursors of the scan, with what was found at each of them. -/
def payloadTrace (L : Libs) (fuel : Nat) (start stop : U32) :
    Nat → World → U32 → List (U32 × Item)
  | 0, _, _ => []
  | n + 1, w, p =>
    if p ≠ 0 ∧ p < stop then
      (p, itemAt w.mem p) ::
        match loadOnePayload L fuel 0 w p (stop - start) with
        | .ok (p, w) => payloadTrace L fuel start stop n w p
        | .error _ => []
    else []

section Scan

variable {L : Libs} {fuel : Nat} {start stop p p' : U32} {w w' : World}

theorem scan_step (hp : p ≠ 0 ∧ p < stop)
    (h : loadOnePayload L fuel 0 w p (stop - start) = .ok (p', w')) (n : Nat) :
    payloadLoop L fuel start stop (n + 1) w p = payloadLoop L fuel start stop n w' p' ∧
      payloadTrace L fuel start stop (n + 1) w p =
        (p, itemAt w.mem p) :: payloadTrace L fuel start stop n w' p' := by
  rw [payloadLoop, payloadTrace, if_pos hp, if_pos hp, h]
  exact ⟨rfl, rfl⟩

theorem scan_end (L : Libs) (fuel : Nat) (start : U32) (w : World) (hp : p = 0 ∨ stop ≤ p)
    (n : Nat) :
    payloadLoop L fuel start stop (n + 1) w p = .ok (p, w) ∧
      payloadTrace L fuel start stop (n + 1) w p = [] := by
  have hnot : ¬ (p ≠ 0 ∧ p < stop) := by
    rintro ⟨hne, hlt⟩
    rcases hp with hzero | hle
    · exact hne hzero
    · exact BitVec.not_lt.mpr hle hlt
  rw [payloadLoop, payloadTrace, if_neg hnot, if_neg hnot]
  exact ⟨rfl, rfl⟩

end Scan

/-! ### Lines -/

/-- A line `chosen.NAME=VALUE` within the limits of `check_var`. -/
structure ChosenLine where
  name : List Byte
  value : List Byte
  name_ne : ∀ b ∈ name, b ≠ 0x3d ∧ b ≠ 0 ∧ b ≠ 0x0a
  value_ne : ∀ b ∈ value, b ≠ 0 ∧ b ≠ 0x0a
  eq_le : chosenName.length + name.length ≤ 64
  value_le : value.length ≤ 1024

namespace ChosenLine

variable (l : ChosenLine)

def key : List Byte := chosenName ++ l.name

/-- The line with the bytes `eq` and `nl` in the places of `=` and the newline. -/
def bytesWith (eq nl : Byte) : List Byte := l.key ++ eq :: (l.value ++ [nl])

def stop : Nat := l.key.length + 1 + l.value.length

/-- The line as a call of `kboot_set_chosen`. -/
def entry : ChosenEntry := (l.name, some l.value)

theorem length_bytesWith (eq nl : Byte) : (l.bytesWith eq nl).length = l.stop + 1 := by
  simp only [bytesWith, stop, List.length_append, List.length_cons, List.length_nil]
  omega

theorem length_key : l.key.length = 7 + l.name.length := by
  rw [key, List.length_append]
  rfl

theorem key_ne {b : Byte} (hb : b ∈ l.key) : b ≠ 0x3d ∧ b ≠ 0 := by
  have hconst : ∀ c ∈ chosenName, c ≠ 0x3d ∧ c ≠ 0 := by decide
  rcases List.mem_append.mp hb with hb | hb
  · exact hconst b hb
  · exact ⟨(l.name_ne b hb).1, (l.name_ne b hb).2.1⟩

end ChosenLine

def written (eq nl : Byte) (ls : List ChosenLine) : List Byte := ls.flatMap (·.bytesWith eq nl)

def text (ls : List ChosenLine) : List Byte := written 0x3d 0x0a ls

theorem written_nil (eq nl : Byte) : written eq nl [] = [] := rfl

theorem written_cons (eq nl : Byte) (l : ChosenLine) (ls : List ChosenLine) :
    written eq nl (l :: ls) = l.bytesWith eq nl ++ written eq nl ls := List.flatMap_cons

theorem written_append (eq nl : Byte) (ls ls' : List ChosenLine) :
    written eq nl (ls ++ ls') = written eq nl ls ++ written eq nl ls' := List.flatMap_append

theorem length_written (eq nl : Byte) (ls : List ChosenLine) :
    (written eq nl ls).length = (text ls).length := by
  induction ls with
  | nil => rfl
  | cons l ls ih =>
    rw [text, written_cons, written_cons, List.length_append, List.length_append, ih,
      l.length_bytesWith, l.length_bytesWith]
    rfl

theorem length_text_cons (l : ChosenLine) (ls : List ChosenLine) :
    (text (l :: ls)).length = l.stop + 1 + (text ls).length := by
  rw [text, written_cons, List.length_append, l.length_bytesWith]
  rfl

theorem length_text_append (ls ls' : List ChosenLine) :
    (text (ls ++ ls')).length = (text ls).length + (text ls').length := by
  rw [text, written_append, List.length_append]
  rfl

theorem add_ofNat_add (p : U32) (i j : Nat) :
    p + BitVec.ofNat 32 (i + j) = p + BitVec.ofNat 32 i + BitVec.ofNat 32 j := by
  rw [BitVec.ofNat_add, add_assoc]

/-- Where each line starts, and what the scan takes it for. -/
def lineItems : U32 → List ChosenLine → List (U32 × Item)
  | _, [] => []
  | p, l :: ls => (p, .var l.stop) :: lineItems (p + BitVec.ofNat 32 (l.stop + 1)) ls

def lineStarts (p : U32) (ls : List ChosenLine) : List U32 := (lineItems p ls).map Prod.fst

theorem lineItems_append (p : U32) (ls ls' : List ChosenLine) :
    lineItems p (ls ++ ls') =
      lineItems p ls ++ lineItems (p + BitVec.ofNat 32 (text ls).length) ls' := by
  induction ls generalizing p with
  | nil => simp [lineItems, text, written]
  | cons l ls ih =>
    have haddr : p + BitVec.ofNat 32 (l.stop + 1) + BitVec.ofNat 32 (text ls).length =
        p + BitVec.ofNat 32 (text (l :: ls)).length := by
      rw [length_text_cons, add_ofNat_add p (l.stop + 1)]
    rw [List.cons_append, lineItems, lineItems, ih, haddr, List.cons_append]

theorem length_lineStarts (p : U32) (ls : List ChosenLine) :
    (lineStarts p ls).length = ls.length := by
  induction ls generalizing p with
  | nil => rfl
  | cons l ls ih => exact congrArg (· + 1) (ih _)

theorem take_lineStarts (n : Nat) (p : U32) (ls : List ChosenLine) :
    (lineStarts p ls).take n = lineStarts p (ls.take n) := by
  induction ls generalizing n p with
  | nil => simp [lineStarts, lineItems]
  | cons l ls ih =>
    cases n with
    | zero => rfl
    | succ n => exact congrArg (p :: ·) (ih n _)

/-! ### One line -/

section Line

variable {m : Mem 32} {p : U32} {l : ChosenLine}

theorem starts_of_head {magic : List Byte} (h : magic.headD (m p) ≠ m p) :
    starts m p magic = false := by
  cases magic with
  | nil => exact absurd rfl h
  | cons b bs =>
    have hne : m p ≠ b := fun heq => h heq.symm
    simp [starts, Mem.load_succ, hne]

theorem at_key {eq nl : Byte} (h : m.At p (l.bytesWith eq nl)) : m.At p (l.key ++ [eq]) := by
  rw [ChosenLine.bytesWith, ← List.singleton_append, ← List.append_assoc] at h
  exact (Mem.at_append.mp h).1

theorem at_value {eq nl : Byte} (h : m.At p (l.bytesWith eq nl)) :
    m.At (p + BitVec.ofNat 32 (l.key.length + 1)) (l.value ++ [nl]) := by
  rw [ChosenLine.bytesWith, ← List.singleton_append, ← List.append_assoc] at h
  have hvalue := (Mem.at_append.mp h).2
  rw [List.length_append, List.length_singleton] at hvalue
  exact hvalue

theorem at_chosenName {eq nl : Byte} (h : m.At p (l.bytesWith eq nl)) : m.At p chosenName := by
  have hkey := at_key h
  rw [ChosenLine.key, List.append_assoc] at hkey
  exact (Mem.at_append.mp hkey).1

theorem varEnd_line (h : m.At p (l.bytesWith 0x3d 0x0a)) : varEnd m p = some l.stop := by
  have hkey := at_key h
  have hvalue := at_value h
  have heq := l.eq_le
  have hlen := l.length_key
  have hname : chosenName.length = 7 := rfl
  have hlong : (l.key ++ [0x3d]).length ≤ m.strlenFrom 65 p := by
    apply Mem.length_le_strlenFrom _ hkey
    · simp only [List.length_append, List.length_singleton]
      omega
    · intro b hb
      rcases List.mem_append.mp hb with hb | hb
      · exact (l.key_ne hb).2
      · rw [List.mem_singleton.mp hb]
        decide
  have hlong' : (l.value ++ [0x0a]).length ≤
      m.strlenFrom 1025 (p + BitVec.ofNat 32 (l.key.length + 1)) := by
    apply Mem.length_le_strlenFrom _ hvalue
    · have hle := l.value_le
      simp only [List.length_append, List.length_singleton]
      omega
    · intro b hb
      rcases List.mem_append.mp hb with hb | hb
      · exact (l.value_ne b hb).1
      · rw [List.mem_singleton.mp hb]
        decide
  rw [List.length_append, List.length_singleton] at hlong hlong'
  have hfound := Mem.findIdx?_load (fun hb => (l.key_ne hb).1 rfl) hkey (Nat.lt_of_succ_le hlong)
  have hfound' := Mem.findIdx?_load (fun hb => (l.value_ne _ hb).2 rfl) hvalue
    (Nat.lt_of_succ_le hlong')
  rw [varEnd, hfound]
  simp only [Option.bind_eq_bind, Option.bind_some, hfound']
  rfl

theorem itemAt_line (h : m.At p (l.bytesWith 0x3d 0x0a)) : itemAt m p = .var l.stop := by
  have hfirst : m p = 0x63 := (Mem.at_cons.mp (at_chosenName h)).1
  have hnot : ∀ magic : List Byte, magic.headD 0x63 ≠ 0x63 → starts m p magic = false := by
    intro magic hne
    rw [← hfirst] at hne
    exact starts_of_head hne
  rw [itemAt, hnot gzMagic (by decide), hnot xzMagic (by decide), hnot fdtMagic (by decide),
    hnot cpioMagic (by decide), hnot kernelMagic (by decide), hnot sigMagic (by decide),
    hnot initramfsMagic (by decide), varEnd_line h]
  rfl

end Line

/-! ### The scan of the lines -/

def cursor (start : U32) (done : List ChosenLine) : U32 :=
  start + BitVec.ofNat 32 (text done).length

theorem cursor_snoc (start : U32) (done : List ChosenLine) (l : ChosenLine) :
    cursor start (done ++ [l]) = cursor start done + BitVec.ofNat 32 (l.stop + 1) := by
  rw [cursor, cursor, length_text_append, length_text_cons, add_ofNat_add]
  rfl

/-- The lines `done` have been consumed, the lines `rest` are as they were. -/
structure Consumed (w₀ : World) (start : U32) (done rest : List ChosenLine) (w : World) : Prop where
  lines : w.mem.At start (written 0x3d 0 done ++ written 0x3d 0x0a rest)
  outside : ∀ x, (text (done ++ rest)).length ≤ (x - start).toNat → w.mem x = w₀.mem x
  chosen : w.chosen = (lineStarts start done).take 16
  heapBase : w.heapBase = w₀.heapBase

namespace Consumed

variable {w₀ w : World} {start : U32} {done rest : List ChosenLine} {l : ChosenLine}

theorem line (h : Consumed w₀ start done (l :: rest) w) :
    w.mem.At (cursor start done) (l.bytesWith 0x3d 0x0a) := by
  have hrest := (Mem.at_append.mp h.lines).2
  rw [length_written, written_cons] at hrest
  exact (Mem.at_append.mp hrest).1

theorem takeVar (h : Consumed w₀ start done (l :: rest) w)
    (hlen : (text (done ++ l :: rest)).length ≤ 2 ^ 32) :
    (takeVar l.stop (cursor start done) w).1 = cursor start (done ++ [l]) ∧
      Consumed w₀ start (done ++ [l]) rest (takeVar l.stop (cursor start done) w).2 := by
  have hblock : ∀ nl : Byte, written 0x3d 0 done ++
      (l.bytesWith 0x3d nl ++ written 0x3d 0x0a rest) =
      (written 0x3d 0 done ++ (l.key ++ 0x3d :: l.value)) ++ ([nl] ++ written 0x3d 0x0a rest) := by
    intro nl
    simp [ChosenLine.bytesWith]
  have hoff : (written 0x3d 0 done ++ (l.key ++ 0x3d :: l.value)).length =
      (text done).length + l.stop := by
    simp only [List.length_append, List.length_cons, length_written, ChosenLine.stop]
    omega
  have haddr : cursor start done + BitVec.ofNat 32 l.stop =
      start + BitVec.ofNat 32 (written 0x3d 0 done ++ (l.key ++ 0x3d :: l.value)).length := by
    rw [hoff, add_ofNat_add, cursor]
  have htotal := length_text_append done (l :: rest)
  rw [length_text_cons] at htotal
  have hlines := h.lines
  rw [written_cons, hblock] at hlines
  have hsmall : ((written 0x3d 0 done ++ (l.key ++ 0x3d :: l.value)) ++
      ([0x0a] ++ written 0x3d 0x0a rest)).length ≤ 2 ^ 32 := by
    rw [List.length_append, hoff, List.length_append, List.length_singleton, length_written]
    omega
  have hstored := Mem.at_store [0] (show _ = ([0x0a] : List Byte).length from rfl) hlines hsmall
  rw [← hblock, ← haddr] at hstored
  have hline : Mem.At (Function.update w.mem (cursor start done + BitVec.ofNat 32 l.stop) 0)
      (cursor start done) (l.bytesWith 0x3d 0) := by
    have hrest := (Mem.at_append.mp hstored).2
    rw [length_written] at hrest
    exact (Mem.at_append.mp hrest).1
  refine ⟨(cursor_snoc start done l).symm, ?_, ?_, ?_, h.heapBase⟩
  · change Mem.At (w.mem.store (cursor start done + BitVec.ofNat 32 l.stop) [0]) start _
    rw [written_append, List.append_assoc, written_cons]
    simpa [written] using hstored
  · intro x hx
    rw [List.append_assoc, List.singleton_append] at hx
    rw [← h.outside x hx]
    have hfar : (text done).length + l.stop + ([0] : List Byte).length ≤ (x - start).toNat := by
      rw [List.length_singleton]
      omega
    have hkeep := Mem.store_of_outside w.mem hfar
    rw [← hoff, ← haddr] at hkeep
    exact hkeep
  · have hname : Mem.load (Function.update w.mem (cursor start done + BitVec.ofNat 32 l.stop) 0)
        (cursor start done) chosenName.length = chosenName := at_chosenName hline
    have hstarts : lineStarts start (done ++ [l]) =
        lineStarts start done ++ [cursor start done] := by
      rw [lineStarts, lineItems_append, List.map_append]
      rfl
    have hcount := length_lineStarts start done
    change (if _ ∧ _ then _ else _) = _
    rw [hname, h.chosen, hstarts]
    by_cases hroom : done.length < 16
    · rw [List.take_of_length_le (show (lineStarts start done).length ≤ 16 by omega),
        if_pos ⟨rfl, by omega⟩, List.take_of_length_le (by simp; omega)]
    · rw [if_neg (by rw [List.length_take]; omega), List.take_append_of_le_length (by omega)]

theorem init (w : World) (start : U32) {lines : List ChosenLine}
    (h : w.mem.At start (text lines)) : Consumed w start [] lines { w with chosen := [] } where
  lines := h
  outside _ _ := rfl
  chosen := rfl
  heapBase := rfl

end Consumed

theorem toNat_cursor (start : U32) (done : List ChosenLine)
    (h : start.toNat + (text done).length < 2 ^ 32) :
    (cursor start done).toNat = start.toNat + (text done).length := by
  rw [cursor, BitVec.toNat_add, BitVec.toNat_ofNat, Nat.add_mod_mod, Nat.mod_eq_of_lt h]

section Lines

variable {start stop : U32} {w₀ : World}

/-- The scan takes every line for a variable, one a round. -/
theorem scan_lines (L : Libs) (fuel : Nat) (hstart : start ≠ 0) (rest : List ChosenLine) :
    ∀ (done : List ChosenLine) (w : World), Consumed w₀ start done rest w →
      start.toNat + (text (done ++ rest)).length < stop.toNat →
      ∃ w', Consumed w₀ start (done ++ rest) [] w' ∧ ∀ n,
        payloadLoop L (fuel + 1) start stop (rest.length + n) w (cursor start done) =
            payloadLoop L (fuel + 1) start stop n w' (cursor start (done ++ rest)) ∧
          payloadTrace L (fuel + 1) start stop (rest.length + n) w (cursor start done) =
            lineItems (cursor start done) rest ++
              payloadTrace L (fuel + 1) start stop n w' (cursor start (done ++ rest)) := by
  induction rest with
  | nil =>
    intro done w h _
    refine ⟨w, by rw [List.append_nil]; exact h, ?_⟩
    intro n
    rw [List.append_nil, List.length_nil, Nat.zero_add]
    exact ⟨rfl, rfl⟩
  | cons l rest ih =>
    intro done w h hroom
    have hstop := stop.isLt
    have hpos : start.toNat ≠ 0 := fun hz => hstart (BitVec.eq_of_toNat_eq hz)
    have htotal := length_text_append done (l :: rest)
    rw [length_text_cons] at htotal
    have hcursor := toNat_cursor start done (by omega)
    have hne : cursor start done ≠ 0 := by
      intro hz
      rw [hz] at hcursor
      exact hpos (Nat.eq_zero_of_add_eq_zero_right hcursor.symm)
    have hlt : cursor start done < stop := by
      rw [BitVec.lt_def, hcursor]
      omega
    obtain ⟨hnext, hconsumed⟩ := h.takeVar (by omega)
    have hassoc : done ++ l :: rest = done ++ [l] ++ rest := by simp
    have hitem := itemAt_line h.line
    have hload : loadOnePayload L (fuel + 1) 0 w (cursor start done) (stop - start) =
        .ok (cursor start (done ++ [l]), (takeVar l.stop (cursor start done) w).2) := by
      rw [loadOnePayload, if_neg hne, hitem, ← hnext]
      rfl
    obtain ⟨w', hw', hrest⟩ := ih (done ++ [l]) _ hconsumed (by rw [← hassoc]; exact hroom)
    refine ⟨w', by rw [hassoc]; exact hw', ?_⟩
    intro n
    obtain ⟨hloop, htrace⟩ := scan_step ⟨hne, hlt⟩ hload (rest.length + n)
    obtain ⟨hloop', htrace'⟩ := hrest n
    rw [List.length_cons, Nat.succ_add, hassoc, hloop, htrace, hloop', htrace', hitem, lineItems,
      ← cursor_snoc]
    exact ⟨rfl, rfl⟩

end Lines

/-! ### The disk -/

/-- The memory when the scan has passed the lines. -/
def passed (w : World) (start : U32) (lines : List ChosenLine) : Mem 32 :=
  w.mem.store start (written 0x3d 0 lines)

theorem Consumed.mem_eq {w₀ w : World} {start : U32} {lines : List ChosenLine}
    (h : Consumed w₀ start lines [] w) (hlen : (text lines).length ≤ 2 ^ 32) :
    w.mem = passed w₀ start lines := by
  have hlines := h.lines
  rw [written_nil, List.append_nil] at hlines
  have hsame := length_written 0x3d 0 lines
  funext x
  rw [passed, Mem.store_apply (by omega)]
  by_cases hx : (x - start).toNat < (written 0x3d 0 lines).length
  · have hbyte := Mem.getElem_of_at hlines hx
    rw [if_pos hx, List.getD_eq_getElem?_getD, List.getElem?_eq_getElem hx, Option.getD_some,
      ← hbyte, BitVec.ofNat_toNat, BitVec.setWidth_eq, add_sub_cancel]
  · rw [if_neg hx]
    apply h.outside
    rw [List.append_nil]
    omega

def kernelTo (w : World) (p : U32) : U32 :=
  if p &&& (kernelAlign - 1) ≠ 0 then alignUp w.heapBase kernelAlign else p

def behindFdt (m : Mem 32) (p : U32) : U32 := p + fdtTotalsize m p

/-- A RAM disk of lines, a device tree that matches and a kernel at which the scan ends; the
    heap block that an unaligned kernel is moved to is outside of the disk. -/
structure BootDisk (L : Libs) (w : World) (start stop : U32) (lines : List ChosenLine) : Prop where
  start_ne : start ≠ 0
  lines_at : w.mem.At start (text lines)
  magic : w.mem.At (cursor start lines) fdtMagic
  header : 8 ≤ (fdtTotalsize w.mem (cursor start lines)).toNat
  inside : start.toNat + (text lines).length +
    (fdtTotalsize w.mem (cursor start lines)).toNat < stop.toNat
  compatible : L.fdtNodeCheckCompatible (passed w start lines) (cursor start lines) = true
  kernel : itemAt (passed w start lines) (behindFdt w.mem (cursor start lines)) = .kernel ∨
    itemAt (passed w start lines) (behindFdt w.mem (cursor start lines)) = .unknown
  heap : behindFdt w.mem (cursor start lines) &&& (kernelAlign - 1) ≠ 0 → w.heapBase ≠ 0 ∧
    ∀ x, start ≤ x → x < stop →
      stop - start ≤ x - kernelTo w (behindFdt w.mem (cursor start lines))
  ends : kernelTo w (behindFdt w.mem (cursor start lines)) + kernelRoom = 0 ∨
    stop ≤ kernelTo w (behindFdt w.mem (cursor start lines)) + kernelRoom

theorem itemAt_fdt {m : Mem 32} {p : U32} (h : m.At p fdtMagic) : itemAt m p = .fdt := by
  have hfirst : m p = 0xd0 := (Mem.at_cons.mp h).1
  have hfdt : starts m p fdtMagic = true := beq_iff_eq.mpr h
  have hgz : starts m p gzMagic = false := by
    apply starts_of_head
    rw [hfirst]
    decide
  have hxz : starts m p xzMagic = false := by
    apply starts_of_head
    rw [hfirst]
    decide
  rw [itemAt, hgz, hxz, hfdt]
  rfl

namespace BootDisk

variable {L : Libs} {start stop : U32} {w : World} {lines : List ChosenLine}

theorem toNat_cursor_lt (h : BootDisk L w start stop lines) :
    (cursor start lines).toNat = start.toNat + (text lines).length ∧
      (cursor start lines).toNat < stop.toNat := by
  have hinside := h.inside
  have hstop := stop.isLt
  have hcursor := toNat_cursor start lines (by omega)
  exact ⟨hcursor, by omega⟩

theorem toNat_behindFdt (h : BootDisk L w start stop lines) :
    (behindFdt w.mem (cursor start lines)).toNat =
      (cursor start lines).toNat + (fdtTotalsize w.mem (cursor start lines)).toNat := by
  have hinside := h.inside
  have hstop := stop.isLt
  obtain ⟨hcursor, -⟩ := h.toNat_cursor_lt
  rw [behindFdt, BitVec.toNat_add, Nat.mod_eq_of_lt (by omega)]

theorem ne_zero_of_le (h : BootDisk L w start stop lines) {p : U32} (hp : start.toNat ≤ p.toNat) :
    p ≠ 0 := by
  have hpos : start.toNat ≠ 0 := fun hz => h.start_ne (BitVec.eq_of_toNat_eq hz)
  rintro rfl
  exact hpos (Nat.le_zero.mp hp)

theorem load_passed (h : BootDisk L w start stop lines) {i n : Nat} (hin : i + n ≤ 8) :
    (passed w start lines).load (cursor start lines + BitVec.ofNat 32 i) n =
      w.mem.load (cursor start lines + BitVec.ofNat 32 i) n := by
  have hinside := h.inside
  have hheader := h.header
  have hstop := stop.isLt
  have hlen := length_written 0x3d 0 lines
  apply List.ext_getElem (by rw [Mem.length_load, Mem.length_load])
  intro j hj _
  rw [Mem.length_load] at hj
  have hdist : (cursor start lines + BitVec.ofNat 32 i + BitVec.ofNat 32 j - start).toNat =
      (text lines).length + (i + j) := by
    rw [add_assoc, ← BitVec.ofNat_add, cursor, ← add_ofNat_add, Mem.toNat_add_ofNat_sub]
    omega
  rw [Mem.getElem_load, Mem.getElem_load, passed, Mem.store_apply (by omega), if_neg (by omega)]

theorem fdtTotalsize_passed (h : BootDisk L w start stop lines) :
    fdtTotalsize (passed w start lines) (cursor start lines) =
      fdtTotalsize w.mem (cursor start lines) := by
  have hload := h.load_passed (i := 4) (n := 4) (by omega)
  rw [fdtTotalsize, fdtTotalsize]
  exact congrArg (fun bs => BitVec.ofNat 32 (leNat (List.reverse bs))) hload

theorem load_fdt (h : BootDisk L w start stop lines) (fuel : Nat) {w₁ : World}
    (hmem : w₁.mem = passed w start lines) (size : U32) :
    itemAt w₁.mem (cursor start lines) = .fdt ∧
      loadOnePayload L (fuel + 1) 0 w₁ (cursor start lines) size =
        .ok (behindFdt w.mem (cursor start lines), { w₁ with fdt := cursor start lines }) := by
  have hmagic : (passed w start lines).At (cursor start lines) fdtMagic := by
    have hload := h.load_passed (i := 0) (n := 4) (by omega)
    rw [BitVec.add_zero] at hload
    exact hload.trans h.magic
  have hitem : itemAt w₁.mem (cursor start lines) = .fdt := by
    rw [hmem]
    exact itemAt_fdt hmagic
  refine ⟨hitem, ?_⟩
  have hne := h.ne_zero_of_le (p := cursor start lines) (by rw [h.toNat_cursor_lt.1]; omega)
  rw [loadOnePayload, if_neg hne, hitem, loadItem, loadFdt, hmem, h.fdtTotalsize_passed,
    h.compatible]
  rfl

theorem load_kernel (h : BootDisk L w start stop lines) (fuel : Nat) (w₂ : World)
    (hmem : w₂.mem = passed w start lines) (hheap : w₂.heapBase = w.heapBase)
    (hfdt : w₂.fdt = cursor start lines) :
    ∃ w₃, loadOnePayload L (fuel + 1) 0 w₂ (behindFdt w.mem (cursor start lines)) (stop - start) =
        .ok (kernelTo w (behindFdt w.mem (cursor start lines)) + kernelRoom, w₃) ∧
      w₃.kernel = kernelTo w (behindFdt w.mem (cursor start lines)) ∧ w₃.fdt = w₂.fdt ∧
      w₃.chosen = w₂.chosen ∧ ∀ x, start ≤ x → x < stop → w₃.mem x = w₂.mem x := by
  obtain ⟨hcursor, -⟩ := h.toNat_cursor_lt
  have hbehind := h.toNat_behindFdt
  have hne := h.ne_zero_of_le (p := behindFdt w.mem (cursor start lines)) (by omega)
  have hfdt' : w₂.fdt ≠ 0 := by
    rw [hfdt]
    exact h.ne_zero_of_le (by omega)
  have hcall : loadOnePayload L (fuel + 1) 0 w₂ (behindFdt w.mem (cursor start lines))
      (stop - start) = loadKernel 0 (behindFdt w.mem (cursor start lines)) (stop - start) w₂ := by
    rw [loadOnePayload, if_neg hne, hmem]
    rcases h.kernel with hitem | hitem
    · rw [hitem, loadItem]
    · rw [hitem, loadItem, if_pos hfdt']
  rw [hcall, loadKernel]
  by_cases halign : behindFdt w.mem (cursor start lines) &&& (kernelAlign - 1) ≠ 0
  · obtain ⟨hbase, houtside⟩ := h.heap halign
    have hto : kernelTo w (behindFdt w.mem (cursor start lines)) = alignUp w.heapBase kernelAlign :=
      if_pos halign
    rw [if_pos halign, heapblockAllocAligned_kernel, hheap, if_neg hbase, except_ok_bind, hto]
    refine ⟨_, rfl, rfl, rfl, rfl, ?_⟩
    intro x hle hlt
    have hfar := houtside x hle hlt
    rw [hto, BitVec.le_def] at hfar
    have hsize := (stop - start).isLt
    dsimp only
    rw [Mem.store_apply (by rw [Mem.length_load]; omega), Mem.length_load, if_neg (by omega)]
  · have hto : kernelTo w (behindFdt w.mem (cursor start lines)) =
        behindFdt w.mem (cursor start lines) := if_neg halign
    rw [if_neg halign, hto]
    exact ⟨_, rfl, rfl, rfl, rfl, fun _ _ _ => rfl⟩

end BootDisk

/-! ### The lines are cut -/

section Cut

variable {m : Mem 32} {start : U32} {l : ChosenLine}

theorem cstring_line {p : U32} (h : m.At p (l.bytesWith 0 0)) :
    m.cstring (p + 7) = l.name ∧ m.cstring (p + BitVec.ofNat 32 (l.key.length + 1)) = l.value := by
  have hname_le := l.eq_le
  have hvalue_le := l.value_le
  constructor
  · have hkey := at_key h
    rw [ChosenLine.key, List.append_assoc] at hkey
    exact Mem.cstring_eq (fun b hb => (l.name_ne b hb).2.1) (Mem.at_append.mp hkey).2 (by omega)
  · exact Mem.cstring_eq (fun b hb => (l.value_ne b hb).1) (at_value h) (by omega)

theorem setChosenVar_line {done : List ChosenLine} {tail : List Byte} (params : List ChosenSlot)
    (h : m.At start (written 0 0 done ++ (l.bytesWith 0x3d 0 ++ tail)))
    (hlen : (written 0 0 done ++ (l.bytesWith 0x3d 0 ++ tail)).length ≤ 2 ^ 32) :
    ∃ m' : Mem 32, m'.At start (written 0 0 done ++ (l.bytesWith 0 0 ++ tail)) ∧
      setChosenVar (m, params) (cursor start done) = .ok (m', (chosenCall l.entry params).2) := by
  have hblock : ∀ eq : Byte, written 0 0 done ++ (l.bytesWith eq 0 ++ tail) =
      (written 0 0 done ++ l.key) ++ ([eq] ++ (l.value ++ 0 :: tail)) := by
    intro eq
    simp [ChosenLine.bytesWith]
  have haddr : cursor start done + BitVec.ofNat 32 l.key.length =
      start + BitVec.ofNat 32 (written 0 0 done ++ l.key).length := by
    rw [List.length_append, length_written, add_ofNat_add, cursor]
  have hlineAt : ∀ {m : Mem 32} {eq : Byte},
      m.At start (written 0 0 done ++ (l.bytesWith eq 0 ++ tail)) →
        m.At (cursor start done) (l.bytesWith eq 0) := by
    intro m eq hat
    have hrest := (Mem.at_append.mp hat).2
    rw [length_written] at hrest
    exact (Mem.at_append.mp hrest).1
  have hkey_le : l.key.length < 65 := by
    have hle := l.eq_le
    have hseven : chosenName.length = 7 := rfl
    have hlen := l.length_key
    omega
  have hfound := Mem.findIdx?_load (fun hb => (l.key_ne hb).1 rfl) (at_key (hlineAt h)) hkey_le
  rw [hblock] at h hlen
  have hstored := Mem.at_store [0] (show _ = ([0x3d] : List Byte).length from rfl) h hlen
  rw [← hblock, ← haddr] at hstored
  refine ⟨_, hstored, ?_⟩
  obtain ⟨hname, hvalue⟩ := cstring_line (hlineAt hstored)
  rw [setChosenVar, hfound]
  dsimp only
  rw [chosenCall, ChosenLine.entry, ← hname, ← hvalue]
  rfl

/-- The second loop makes the calls of `kboot_set_chosen`, line by line. -/
theorem foldlM_setChosenVar (tail : List Byte) (todo : List ChosenLine) :
    ∀ (done : List ChosenLine) (m : Mem 32) (params : List ChosenSlot),
      m.At start (written 0 0 done ++ (written 0x3d 0 todo ++ tail)) →
      (text (done ++ todo)).length + tail.length ≤ 2 ^ 32 →
      ∃ m', (lineStarts (cursor start done) todo).foldlM setChosenVar (m, params) =
        .ok (m', (run chosenCall (todo.map ChosenLine.entry) params).2) := by
  induction todo with
  | nil =>
    intro done m params _ _
    exact ⟨m, rfl⟩
  | cons l todo ih =>
    intro done m params h hlen
    have hassoc : done ++ l :: todo = done ++ [l] ++ todo := by simp
    rw [written_cons, List.append_assoc] at h
    have hlen' : (written 0 0 done ++ (l.bytesWith 0x3d 0 ++
        (written 0x3d 0 todo ++ tail))).length ≤ 2 ^ 32 := by
      rw [length_text_append, length_text_cons] at hlen
      simp only [List.length_append, length_written, ChosenLine.length_bytesWith]
      omega
    obtain ⟨m₁, hm₁, hstep⟩ := setChosenVar_line params h hlen'
    have hnext : m₁.At start (written 0 0 (done ++ [l]) ++ (written 0x3d 0 todo ++ tail)) := by
      rw [written_append, written_cons, written_nil, List.append_nil, List.append_assoc]
      exact hm₁
    obtain ⟨m', hm'⟩ := ih (done ++ [l]) m₁ (chosenCall l.entry params).2 hnext
      (by rw [← hassoc]; exact hlen)
    refine ⟨m', ?_⟩
    rw [cursor_snoc] at hm'
    change ((cursor start done :: lineStarts _ todo).foldlM setChosenVar (m, params)) = _
    rw [List.foldlM_cons, hstep, List.map_cons, run_cons]
    exact hm'

end Cut

/-! ### The whole disk -/

section Boot

variable {L : Libs} {start stop : U32} {w : World} {lines : List ChosenLine}

theorem BootDisk.scan (h : BootDisk L w start stop lines) (fuel n : Nat) :
    ∃ w' item next,
      payloadLoop L (fuel + 1) start stop (lines.length + (n + 3)) { w with chosen := [] } start =
          .ok (next, w') ∧
        payloadTrace L (fuel + 1) start stop (lines.length + (n + 3))
            { w with chosen := [] } start =
          lineItems start lines ++
            [(cursor start lines, .fdt), (behindFdt w.mem (cursor start lines), item)] ∧
        (item = .kernel ∨ item = .unknown) ∧
        w'.kernel = kernelTo w (behindFdt w.mem (cursor start lines)) ∧
        w'.fdt = cursor start lines ∧ w'.chosen = (lineStarts start lines).take 16 ∧
        w'.mem.At start (written 0x3d 0 lines) := by
  have hinside := h.inside
  have hstop := stop.isLt
  obtain ⟨hcursor, hlt⟩ := h.toNat_cursor_lt
  have hbehind := h.toNat_behindFdt
  have hstart : cursor start [] = start := BitVec.add_zero start
  have hroom : start.toNat + (text ([] ++ lines)).length < stop.toNat := by
    rw [List.nil_append]
    omega
  obtain ⟨w₁, hconsumed, hlines⟩ := scan_lines L fuel h.start_ne lines [] { w with chosen := [] }
    (Consumed.init w start h.lines_at) hroom
  rw [List.nil_append] at hconsumed hlines
  obtain ⟨hloop, htrace⟩ := hlines (n + 3)
  have hmem := hconsumed.mem_eq (by omega)
  -- the device tree
  obtain ⟨hitem, hfdt⟩ := h.load_fdt fuel hmem (stop - start)
  obtain ⟨hloop₁, htrace₁⟩ := scan_step ⟨h.ne_zero_of_le (by omega), BitVec.lt_def.mpr hlt⟩ hfdt
    (n + 2)
  -- the kernel
  obtain ⟨w₃, hkernel, hto, hfdt₃, hchosen, hsame⟩ :=
    h.load_kernel fuel { w₁ with fdt := cursor start lines } hmem
      hconsumed.heapBase rfl
  obtain ⟨hloop₂, htrace₂⟩ := scan_step
    ⟨h.ne_zero_of_le (by omega), BitVec.lt_def.mpr (by omega)⟩ hkernel (n + 1)
  obtain ⟨hloop₃, htrace₃⟩ := scan_end L (fuel + 1) start w₃ h.ends n
  refine ⟨w₃, itemAt (passed w start lines) (behindFdt w.mem (cursor start lines)),
    kernelTo w (behindFdt w.mem (cursor start lines)) + kernelRoom, ?_, ?_,
    h.kernel, hto, hfdt₃, hchosen.trans hconsumed.chosen, ?_⟩
  · rw [hstart] at hloop
    rw [hloop, hloop₁, hloop₂, hloop₃]
  · rw [hstart] at htrace
    rw [htrace, htrace₁, htrace₂, htrace₃, hitem, hmem]
  · have hat := hconsumed.lines
    rw [written_nil, List.append_nil] at hat
    apply Mem.at_congr hat
    intro i hi
    rw [length_written] at hi
    have hsum : (start + BitVec.ofNat 32 i).toNat = start.toNat + i := by
      rw [BitVec.toNat_add, BitVec.toNat_ofNat, Nat.add_mod_mod, Nat.mod_eq_of_lt (by omega)]
    apply hsame
    · rw [BitVec.le_def]
      omega
    · rw [BitVec.lt_def]
      omega

/-- **Boot variables reach the kernel.**  The scan takes exactly the lines for variables, every
    line that was noted has its `=`, and if a kernel was found `kboot_prepare_dt` is called with
    a table that has, for each name among the first sixteen lines, its last value among them,
    and nothing else. -/
theorem bootVars_reach_kernel (h : BootDisk L w start stop lines) (fuel n : Nat) :
    ∃ w' prepared item,
      payloadRun L (fuel + 1) (lines.length + (n + 3)) start stop w noChosen = .ok (w', prepared) ∧
      payloadTrace L (fuel + 1) start stop (lines.length + (n + 3)) { w with chosen := [] } start =
        lineItems start lines ++
          [(cursor start lines, .fdt), (behindFdt w.mem (cursor start lines), item)] ∧
      (item = .kernel ∨ item = .unknown) ∧
      w'.fdt = cursor start lines ∧
      w'.kernel = kernelTo w (behindFdt w.mem (cursor start lines)) ∧
      w'.chosen = (lineStarts start lines).take 16 ∧
      (prepared.isSome = true ↔ w'.kernel ≠ 0) ∧
      ∀ params, prepared = some params → ∀ name value,
        (∃ i : Nat, params[i]? = some ⟨some name, value⟩) ↔
          SlotMap.lastValue name ((lines.take 16).map ChosenLine.entry) = some value := by
  have hinside := h.inside
  have hstop := stop.isLt
  obtain ⟨w₁, item, next, hloop, htrace, hitem, hkernel, hfdt, hchosen, hlines⟩ := h.scan fuel n
  have hfdt_ne : w₁.fdt ≠ 0 := by
    rw [hfdt]
    exact h.ne_zero_of_le (by rw [h.toNat_cursor_lt.1]; omega)
  by_cases hzero : w₁.kernel = 0
  · refine ⟨w₁, none, item, ?_, htrace, hitem, hfdt, hkernel, hchosen, ?_, ?_⟩
    · rw [payloadRun, hloop, except_ok_bind]
      exact if_neg fun hboth => hboth.1 hzero
    · exact iff_of_false Bool.false_ne_true (not_not.mpr hzero)
    · intro params hnone
      contradiction
  · -- the lines that were noted stand in front of the others
    have hsplit : written 0 0 [] ++
        (written 0x3d 0 (lines.take 16) ++ written 0x3d 0 (lines.drop 16)) =
          written 0x3d 0 lines := by
      rw [written_nil, List.nil_append, ← written_append, List.take_append_drop]
    have hlen : (text ([] ++ lines.take 16)).length + (written 0x3d 0 (lines.drop 16)).length ≤
        2 ^ 32 := by
      rw [List.nil_append, length_written, ← length_text_append, List.take_append_drop]
      omega
    rw [← hsplit] at hlines
    obtain ⟨m', hfold⟩ := foldlM_setChosenVar _ (lines.take 16) [] w₁.mem noChosen hlines hlen
    rw [show cursor start [] = start from BitVec.add_zero start, ← take_lineStarts,
      ← hchosen] at hfold
    refine ⟨{ w₁ with mem := m' }, some (run chosenCall ((lines.take 16).map ChosenLine.entry)
      noChosen).2, item, ?_, htrace, hitem, hfdt, hkernel, hchosen, ?_, ?_⟩
    · rw [payloadRun, hloop, except_ok_bind]
      dsimp only
      rw [if_pos ⟨hzero, hfdt_ne⟩, hfold, except_ok_bind]
    · exact iff_of_true rfl hzero
    · intro params hparams name value
      have hroom : ((lines.take 16).map ChosenLine.entry).length ≤ Kboot.MAX_CHOSEN_PARAMS := by
        rw [List.length_map, List.length_take]
        exact Nat.min_le_left _ _
      rw [← Option.some.inj hparams, (Kboot.run_chosenCall _).2, Kboot.exists_row_iff,
        SlotMap.lookup_run_empty hroom]

def twoLines : List ChosenLine :=
  [⟨[0x61], [0x62], by decide, by decide, by decide, by decide⟩,
    ⟨[0x61], [0x63, 0x3d, 0x63], by decide, by decide, by decide, by decide⟩]

def twoLinesDisk : World :=
  ramDisk (text twoLines ++ (fdtMagic ++ [0, 0, 0, 8] ++ kernelMagic))

def anyFdt : Libs := { noLibs with fdtNodeCheckCompatible := fun _ _ => true }

theorem bootDisk_twoLines : BootDisk anyFdt twoLinesDisk 0x1000 0x1030 twoLines where
  start_ne := by decide
  lines_at := by
    rw [Mem.At]
    decide +kernel
  magic := by
    rw [Mem.At]
    decide +kernel
  header := by decide +kernel
  inside := by decide +kernel
  compatible := rfl
  kernel := .inl (by decide +kernel)
  heap _ := by
    have hto : kernelTo twoLinesDisk (behindFdt twoLinesDisk.mem (cursor 0x1000 twoLines)) =
        0x100000 := by
      decide +kernel
    rw [hto]
    refine ⟨by decide, ?_⟩
    intro x hle hlt
    bv_omega
  ends := .inr (by decide +kernel)

/-- The later of two values for a name. -/
theorem bootVars_twoLines :
    BootDisk anyFdt twoLinesDisk 0x1000 0x1030 twoLines ∧
      ∃ w' params, payloadRun anyFdt 1 5 0x1000 0x1030 twoLinesDisk noChosen =
        .ok (w', some params) ∧
        ∃ i : Nat, params[i]? = some ⟨some [0x61], some [0x63, 0x3d, 0x63]⟩ := by
  refine ⟨bootDisk_twoLines, ?_⟩
  obtain ⟨w', prepared, _, hrun, -, -, -, hkernel, -, hsome, hparams⟩ :=
    bootVars_reach_kernel bootDisk_twoLines 0 0
  have hne : w'.kernel ≠ 0 := by
    rw [hkernel]
    decide +kernel
  obtain ⟨params, rfl⟩ := Option.isSome_iff_exists.mp (hsome.mpr hne)
  exact ⟨w', params, hrun, (hparams params rfl _ _).mpr (by decide +kernel)⟩

end Boot

end MiniHaywire.Payload
