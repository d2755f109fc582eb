import MiniHaywire.AdtGetReg

/-!
# Bus addresses in the client

`to_bus_addr` goes the way of `translate` back.  It collects the ancestors up to the
first one without `ranges`, and takes the address down through their windows from the
top.  Both loops over the windows of a node take the first one that the address is in.

Where the windows of a node are apart on both sides there is at most one such window,
the same on the way up and on the way down, and the two are inverse to each other.
-/

namespace MiniHaywire.AdtClient

open MiniHaywire.Construct MiniHaywire.Adt

/-! ### The code -/

/-- One round of the loop over `ranges`: the address on the bus, if the address is in the window
    `r.parent_addr <= addr < (r.parent_addr + r.size)`. -/
def parentWindow (r : Val) (addr : Nat) : Except Err (Option Nat) := do
  match ← getattr "parent_addr" r with
  | .num parentAddr =>
    if parentAddr ≤ addr then do
      match ← getattr "size" r with
      | .num size =>
        if addr < parentAddr + size then do
          match ← getattr "bus_addr" r with
          | .num busAddr => .ok (some (addr - parentAddr + busAddr))
          | _ => .error .other
        else .ok none
      | _ => .error .other
    else .ok none
  | _ => .error .other

def firstWindow (step : Val → Nat → Except Err (Option Nat)) : List Val → Nat → Except Err Nat
  | [], addr => .ok addr
  | r :: rs, addr => do
    match ← step r addr with
    | some addr => .ok addr
    | none => firstWindow step rs addr

def parentWindows : List Val → Nat → Except Err Nat := firstWindow parentWindow

def descend (parents : List Dict) : List Dict :=
  parents.takeWhile fun d => (d.lookup rangesName).isSome

/-- The body of the loop over the collected nodes. -/
def descendStep (d : Dict) (addr : Nat) : Except Err Nat :=
  match d.lookup rangesName with
  | none => .error .other
  | some v => do
    let rs ← iterate v
    parentWindows rs addr

def descendLoop : List Dict → Nat → Except Err Nat
  | [], addr => .ok addr
  | d :: ds, addr => do
    let addr ← descendStep d addr
    descendLoop ds addr

/-- `to_bus_addr`, from the properties of the node's ancestors upwards. -/
def toBusAddr (parents : List Dict) (addr : Nat) : Except Err Nat :=
  descendLoop (descend parents).reverse addr

theorem descendLoop_append (xs ys : List Dict) (addr : Nat) :
    descendLoop (xs ++ ys) addr = (descendLoop xs addr).bind (descendLoop ys) := by
  induction xs generalizing addr with
  | nil => rfl
  | cons d xs ih =>
    rw [List.cons_append, descendLoop, descendLoop]
    cases descendStep d addr with
    | error e => rfl
    | ok addr' => exact ih addr'

theorem toBusAddr_cons {d : Dict} {up : List Dict} {v : Val} (h : d.lookup rangesName = some v)
    {p a : Nat} (hup : toBusAddr up p = .ok a) : toBusAddr (d :: up) p = descendStep d a := by
  have hdescend : descend (d :: up) = d :: descend up := by
    simp [descend, h]
  rw [toBusAddr, hdescend, List.reverse_cons, descendLoop_append]
  rw [toBusAddr] at hup
  rw [hup]
  change (descendStep d a).bind (descendLoop []) = _
  cases descendStep d a <;> rfl

/-! ### Windows -/

/-- A window of a bus, with two cells for each number. -/
structure Window where
  bus : Nat
  parent : Nat
  size : Nat
deriving DecidableEq, Repr

def Window.val (w : Window) : Val :=
  .struct [("bus_addr", .num w.bus), ("parent_addr", .num w.parent), ("size", .num w.size)]

def Window.OnBus (w : Window) (a : Nat) : Prop := w.bus ≤ a ∧ a < w.bus + w.size

def Window.OnParent (w : Window) (p : Nat) : Prop := w.parent ≤ p ∧ p < w.parent + w.size

/-- The window seen from the parent: `OnParent` is `OnBus` there. -/
def Window.swap (w : Window) : Window := ⟨w.parent, w.bus, w.size⟩

instance decidableOnBus (w : Window) (a : Nat) : Decidable (w.OnBus a) :=
  inferInstanceAs (Decidable (w.bus ≤ a ∧ a < w.bus + w.size))

structure Apart (ws : List Window) : Prop where
  bus : ws.Pairwise fun v w => ∀ a, ¬ (v.OnBus a ∧ w.OnBus a)
  parent : ws.Pairwise fun v w => ∀ p, ¬ (v.OnParent p ∧ w.OnParent p)

section Windows

variable {w : Window} {ws : List Window} {a p : Nat}

theorem Window.OnBus.onParent (h : w.OnBus a) : w.OnParent (a - w.bus + w.parent) := by
  obtain ⟨hlo, hhi⟩ := h
  constructor <;> omega

theorem Window.OnBus.back (h : w.OnBus a) : a - w.bus + w.parent - w.parent + w.bus = a := by
  have hlo := h.1
  omega

theorem Window.OnParent.onBus (h : w.OnParent p) : w.OnBus (p - w.parent + w.bus) :=
  Window.OnBus.onParent (w := w.swap) h

theorem Window.OnParent.back (h : w.OnParent p) : p - w.parent + w.bus - w.bus + w.parent = p :=
  Window.OnBus.back (w := w.swap) h

theorem window_val (w : Window) (a : Nat) :
    window w.val a = .ok (if w.OnBus a then some (a - w.bus + w.parent) else none) := by
  change (if w.bus ≤ a then if a < w.bus + w.size then _ else _ else _) = _
  by_cases hlo : w.bus ≤ a
  · by_cases hhi : a < w.bus + w.size
    · rw [if_pos hlo, if_pos hhi, if_pos ⟨hlo, hhi⟩]
      rfl
    · simp [Window.OnBus, hlo, hhi]
  · simp [Window.OnBus, hlo]

theorem parentWindow_val (w : Window) (p : Nat) : parentWindow w.val p = window w.swap.val p := rfl

theorem windows_eq (rs : List Val) (a : Nat) : windows rs a = firstWindow window rs a := by
  induction rs with
  | nil => rfl
  | cons r rs ih =>
    rw [windows, firstWindow]
    cases window r a with
    | error e => rfl
    | ok found =>
      cases found with
      | none => exact ih
      | some b => rfl

/-- The first window that an address is in is the only one.  Seen from the parent the windows are
    taken with `f`. -/
theorem firstWindow_of_mem {step : Val → Nat → Except Err (Option Nat)} {f : Window → Window}
    (hstep : ∀ w a, step w.val a = window (f w).val a)
    (h : ws.Pairwise fun v w => ∀ a, ¬ ((f v).OnBus a ∧ (f w).OnBus a)) (hw : w ∈ ws)
    (ha : (f w).OnBus a) :
    firstWindow step (ws.map Window.val) a = .ok (a - (f w).bus + (f w).parent) := by
  induction ws with
  | nil => cases hw
  | cons v ws ih =>
    obtain ⟨hv, hws⟩ := List.pairwise_cons.mp h
    rw [List.map_cons, firstWindow, hstep, window_val]
    rcases List.mem_cons.mp hw with rfl | hmem
    · rw [if_pos ha]
      rfl
    · rw [if_neg fun hva => hv w hmem a ⟨hva, ha⟩]
      exact ih hws hmem

theorem windows_of_mem (h : Apart ws) (hw : w ∈ ws) (ha : w.OnBus a) :
    windows (ws.map Window.val) a = .ok (a - w.bus + w.parent) := by
  rw [windows_eq]
  exact firstWindow_of_mem (f := id) (fun _ _ => rfl) h.bus hw ha

theorem parentWindows_of_mem (h : Apart ws) (hw : w ∈ ws) (hp : w.OnParent p) :
    parentWindows (ws.map Window.val) p = .ok (p - w.parent + w.bus) :=
  firstWindow_of_mem (f := Window.swap) parentWindow_val h.parent hw hp

end Windows

/-! ### Chains of nodes -/

/-- The windows of the nodes upwards, up to the first one without `ranges`. -/
inductive Levels : List Dict → List (List Window) → Prop
  | root : Levels [] []
  | stop {d : Dict} {up : List Dict} (h : d.lookup rangesName = none) : Levels (d :: up) []
  | level {d : Dict} {up : List Dict} {ws : List Window} {wss : List (List Window)}
      (h : d.lookup rangesName = some (.list (ws.map Window.val))) (hup : Levels up wss) :
      Levels (d :: up) (ws :: wss)

/-- On the way up from the bus the address is in a window at every level. -/
def FallsIn : List (List Window) → Nat → Prop
  | [], _ => True
  | ws :: up, a => ∃ w ∈ ws, w.OnBus a ∧ FallsIn up (a - w.bus + w.parent)

def FallsDown : List (List Window) → Nat → Prop
  | [], _ => True
  | ws :: down, p => ∃ w ∈ ws, w.OnParent p ∧ FallsDown down (p - w.parent + w.bus)

/-- The address on the bus and the physical address, through one window at every level. -/
def Climbs : List (List Window) → Nat → Nat → Prop
  | [], a, p => a = p
  | ws :: up, a, p => ∃ w ∈ ws, w.OnBus a ∧ Climbs up (a - w.bus + w.parent) p

section Chains

variable {ds : List Dict} {wss : List (List Window)} {a p : Nat}

theorem fallsIn_iff_climbs : FallsIn wss a ↔ ∃ p, Climbs wss a p := by
  induction wss generalizing a with
  | nil => simp [FallsIn, Climbs]
  | cons ws up ih =>
    simp only [FallsIn, Climbs, ih]
    constructor
    · rintro ⟨w, hw, ha, p, hp⟩
      exact ⟨p, w, hw, ha, hp⟩
    · rintro ⟨p, w, hw, ha, hp⟩
      exact ⟨w, hw, ha, p, hp⟩

theorem climbs_snoc {ws : List Window} :
    Climbs (wss ++ [ws]) a p ↔ ∃ w ∈ ws, w.OnParent p ∧ Climbs wss a (p - w.parent + w.bus) := by
  induction wss generalizing a with
  | nil =>
    simp only [List.nil_append, Climbs]
    constructor
    · rintro ⟨w, hw, ha, rfl⟩
      exact ⟨w, hw, ha.onParent, ha.back.symm⟩
    · rintro ⟨w, hw, hp, rfl⟩
      exact ⟨w, hw, hp.onBus, hp.back⟩
  | cons vs wss ih =>
    simp only [List.cons_append, Climbs, ih]
    constructor
    · rintro ⟨v, hv, ha, w, hw, hp, hclimb⟩
      exact ⟨w, hw, hp, v, hv, ha, hclimb⟩
    · rintro ⟨w, hw, hp, v, hv, ha, hclimb⟩
      exact ⟨v, hv, ha, w, hw, hp, hclimb⟩

theorem fallsDown_iff_climbs : FallsDown wss.reverse p ↔ ∃ a, Climbs wss a p := by
  induction wss using List.reverseRecOn generalizing p with
  | nil => simp [FallsDown, Climbs]
  | append_singleton wss ws ih =>
    simp only [List.reverse_append, List.reverse_singleton, List.singleton_append, FallsDown, ih,
      climbs_snoc]
    constructor
    · rintro ⟨w, hw, hp, a, ha⟩
      exact ⟨a, w, hw, hp, ha⟩
    · rintro ⟨a, w, hw, hp, ha⟩
      exact ⟨w, hw, hp, a, ha⟩

theorem Levels.translate_eq (h : Levels ds wss) (hapart : ∀ ws ∈ wss, Apart ws)
    (hclimb : Climbs wss a p) : translate ds a = .ok p := by
  induction h generalizing a with
  | root => exact congrArg Except.ok hclimb
  | stop hnone =>
    rw [translate, hnone]
    exact congrArg Except.ok hclimb
  | @level d up ws wss hranges _ ih =>
    obtain ⟨w, hw, ha, hclimb⟩ := hclimb
    rw [translate, hranges]
    dsimp only [iterate]
    rw [except_ok_bind, windows_of_mem (hapart ws (by simp)) hw ha]
    exact ih (fun vs hvs => hapart vs (by simp [hvs])) hclimb

theorem Levels.toBusAddr_eq (h : Levels ds wss) (hapart : ∀ ws ∈ wss, Apart ws)
    (hclimb : Climbs wss a p) : toBusAddr ds p = .ok a := by
  induction h generalizing a with
  | root => exact congrArg Except.ok hclimb.symm
  | @stop d up hnone =>
    have hdescend : descend (d :: up) = [] := by simp [descend, hnone]
    rw [toBusAddr, hdescend]
    exact congrArg Except.ok hclimb.symm
  | @level d up ws wss hranges _ ih =>
    -- the windows above bring the address down to the parent side of this node
    obtain ⟨w, hw, ha, hclimb⟩ := hclimb
    have hup := ih (fun vs hvs => hapart vs (by simp [hvs])) hclimb
    rw [toBusAddr_cons hranges hup, descendStep, hranges]
    dsimp only [iterate]
    rw [except_ok_bind, parentWindows_of_mem (hapart ws (by simp)) hw ha.onParent, ha.back]

end Chains

/-- **Bus addresses.** `translate` and `to_bus_addr` are inverse to each other, between the
    addresses that are in a window at every level on the way up and those that are in one at every
    level on the way down. -/
theorem to_bus_addr_inverse {parent : Dict} {up : List Dict} {wss : List (List Window)}
    (h : Levels (parent :: up) wss) (hapart : ∀ ws ∈ wss, Apart ws) :
    (∀ a, FallsIn wss a → ∃ p, translate (parent :: up) a = .ok p ∧ FallsDown wss.reverse p ∧
      toBusAddr (parent :: up) p = .ok a) ∧
    ∀ p, FallsDown wss.reverse p → ∃ a, toBusAddr (parent :: up) p = .ok a ∧ FallsIn wss a ∧
      translate (parent :: up) a = .ok p := by
  constructor
  · intro a ha
    obtain ⟨p, hclimb⟩ := fallsIn_iff_climbs.mp ha
    exact ⟨p, h.translate_eq hapart hclimb, fallsDown_iff_climbs.mpr ⟨a, hclimb⟩,
      h.toBusAddr_eq hapart hclimb⟩
  · intro p hp
    obtain ⟨a, hclimb⟩ := fallsDown_iff_climbs.mp hp
    exact ⟨a, h.toBusAddr_eq hapart hclimb, fallsIn_iff_climbs.mpr ⟨p, hclimb⟩,
      h.translate_eq hapart hclimb⟩

/-- A bus with two windows below one with a single window, below a root without any. -/
def twoBuses : List (List Window) := [[⟨0, 0x1000, 0x100⟩, ⟨0x200, 0x5000, 0x100⟩],
  [⟨0x1000, 0x30000000, 0x8000⟩]]

def twoBusDicts : List Dict :=
  twoBuses.map (fun ws => [(rangesName, .list (ws.map Window.val))]) ++ [[]]

theorem to_bus_addr_inverse_two :
    ∃ p, translate twoBusDicts 0x210 = .ok p ∧ toBusAddr twoBusDicts p = .ok 0x210 := by
  have hlevels : Levels twoBusDicts twoBuses := .level rfl (.level rfl (.stop rfl))
  have hapart : ∀ ws ∈ twoBuses, Apart ws := by
    simp only [twoBuses, List.forall_mem_cons]
    refine ⟨⟨?_, ?_⟩, ⟨by simp, by simp⟩, by simp⟩
    all_goals
      simp only [List.pairwise_pair, Window.OnBus, Window.OnParent]
      intro a
      omega
  obtain ⟨p, hup, -, hdown⟩ := (to_bus_addr_inverse hlevels hapart).1 0x210
    ⟨⟨0x200, 0x5000, 0x100⟩, by simp, ⟨by decide, by decide⟩,
      ⟨0x1000, 0x30000000, 0x8000⟩, by simp, ⟨by decide, by decide⟩, trivial⟩
  exact ⟨p, hup, hdown⟩

/-! ### Loaded chains -/

/-- The window of an entry of two cells each. -/
def Window.ofBytes (bs : List Byte) : Window :=
  ⟨field bs 0 8, field (bs.drop 8) 0 8, field (bs.drop 16) 0 8⟩

theorem rangeVal_two (bs : List Byte) : rangeVal 2 2 2 bs = (Window.ofBytes bs).val := rfl

variable [Library]

/-- The ancestors of a loaded node, each with two cells for addresses and sizes, and with no
    `ranges` or with some that are not empty. -/
inductive TwoCells : List Dict → Prop
  | nil : TwoCells []
  | plain {scope : Scope} {ps : List PropStruct} {d : Dict} {up : List Dict}
      (loaded : Loaded scope ps d) (cells : HasCells ps 2 2) (parents : scope.parents = up)
      (absent : rangesName ∉ ps.map PropStruct.name) (hup : TwoCells up) : TwoCells (d :: up)
  | bus {scope : Scope} {pre post : List PropStruct} {p : PropStruct} {d : Dict} {up : List Dict}
      (loaded : Loaded scope (pre ++ p :: post) d) (cells : HasCells (pre ++ p :: post) 2 2)
      (parents : scope.parents = up) (name : p.name = rangesName)
      (last : rangesName ∉ post.map PropStruct.name) (flag : isTemplate p.size = false)
      (value : p.value ≠ []) (hup : TwoCells up) : TwoCells (d :: up)

theorem TwoCells.cells_eq {d : Dict} {up : List Dict} (h : TwoCells (d :: up)) :
    cells d = some (.num 2, .num 2) := by
  cases h with
  | plain loaded cells => exact cells.cells_eq loaded
  | bus loaded cells => exact cells.cells_eq loaded

theorem TwoCells.levels {ds : List Dict} (h : TwoCells ds) : ∃ wss, Levels ds wss := by
  induction h with
  | nil => exact ⟨[], .root⟩
  | plain loaded _ _ absent _ _ => exact ⟨[], .stop (loaded_absent loaded absent)⟩
  | @bus scope pre post p d up loaded cells parents name last flag value hup ih =>
    obtain ⟨wss, hwss⟩ := ih
    obtain ⟨parent, rest, pac, psc, v, hscope, hpac, hlookup, hparse⟩ :=
      loaded_ranges loaded name last flag cells value
    rw [parents] at hscope
    subst hscope
    rw [hup.cells_eq] at hpac
    cases hpac
    rw [safeRange_fixed (fixed_rangesStruct 2 2 2) (by decide)] at hparse
    cases hparse
    refine ⟨(List.range (p.value.length / 24)).map
      (fun i => Window.ofBytes (p.value.drop (i * 24))) :: wss, .level ?_ hwss⟩
    simp only [hlookup, List.map_map, Function.comp_def, ← rangeVal_two]

end MiniHaywire.AdtClient
