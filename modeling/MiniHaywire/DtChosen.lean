import MiniHaywire.ChosenParams

/-!
# The parameters in the device tree

`dt_set_chosen` writes the rows of `chosen_params` to the `/chosen` node, up to the
first row without a name.  It takes every row with a name to have a value.  A call
of `kboot_set_chosen` without a value leaves a row that has none, and the next
`dt_set_chosen` runs `strlen` on `NULL`.

The node is the list of its properties, and whether `fdt_setprop` finds room for
one is up to the caller.
-/

namespace MiniHaywire.Kboot

open SlotMap (upsert valueOf)

abbrev Props := List (List Byte × List Byte)

/-- How the loop of `dt_set_chosen` ends early. -/
inductive ChosenFault where
  /-- `strlen(value)` with `value` a null pointer. -/
  | nullValue (name : List Byte)
  /-- `FDT: couldn't set chosen.<name> property`. -/
  | setprop (name : List Byte)

/-- The loop of `dt_set_chosen`; `fits` says whether the properties fit into the buffer. -/
def setChosenProps (fits : Props → Bool) : List ChosenSlot → Props → Except ChosenFault Props
  | [], props => .ok props
  | slot :: slots, props =>
    match slot.name with
    | none => .ok props
    | some name =>
      match slot.value with
      | none => .error (.nullValue name)
      | some value =>
        -- the value is stored with the NUL at its end
        let props := upsert name (value ++ [0]) props
        if fits props then setChosenProps fits slots props else .error (.setprop name)

/-- `kboot_set_chosen` as the proxy calls it: either pointer may be null. -/
def chosenRequest (c : Option (List Byte) × Option (List Byte)) (params : List ChosenSlot) :
    Int × List ChosenSlot :=
  kbootSetChosen c.1 c.2 params

/-- The name has that value in the table. -/
def Row (params : List ChosenSlot) (name value : List Byte) : Prop :=
  ∃ i : Nat, params[i]? = some ⟨some name, some value⟩

/-- The loop never reads through a null pointer, and with room for the properties it sets
    exactly the names that have a value. -/
structure Accepted (params : List ChosenSlot) : Prop where
  noNull : ∀ fits props name, setChosenProps fits params props ≠ .error (.nullValue name)
  sets : ∀ fits props, (∀ p, fits p = true) →
    ∃ props', setChosenProps fits params props = .ok props' ∧
      ∀ name bytes, valueOf name props' = some bytes ↔
        (∃ value, Row params name value ∧ bytes = value ++ [0]) ∨
          ((∀ value, ¬ Row params name value) ∧ valueOf name props = some bytes)

/-! ### The loop over the rows of a map -/

section Loop

variable {fits : Props → Bool} {es : List ChosenEntry} {n : Nat} {props : Props}

theorem setChosenProps_rows_nil (fits : Props → Bool) (n : Nat) (props : Props) :
    setChosenProps fits (rows [] n) props = .ok props := by
  cases n <;> rfl

theorem setChosenProps_rows_cons (fits : Props → Bool) (e : ChosenEntry) (es : List ChosenEntry)
    (n : Nat) (props : Props) :
    setChosenProps fits (rows (e :: es) n) props =
      match e.2 with
      | none => .error (.nullValue e.1)
      | some value =>
        if fits (upsert e.1 (value ++ [0]) props) then
          setChosenProps fits (rows es n) (upsert e.1 (value ++ [0]) props)
        else .error (.setprop e.1) := rfl

theorem mem_of_nullValue {name : List Byte}
    (h : setChosenProps fits (rows es n) props = .error (.nullValue name)) : (name, none) ∈ es := by
  induction es generalizing props with
  | nil =>
    rw [setChosenProps_rows_nil] at h
    contradiction
  | cons e es ih =>
    obtain ⟨name', value⟩ := e
    rw [setChosenProps_rows_cons] at h
    cases value with
    | none =>
      obtain rfl := ChosenFault.nullValue.inj (Except.error.inj h)
      exact List.mem_cons_self
    | some value =>
      dsimp only at h
      split at h
      · exact List.mem_cons_of_mem _ (ih h)
      · exact absurd (Except.error.inj h) (by simp)

theorem nullValue_of_mem (hfits : ∀ p, fits p = true) (n : Nat) (props : Props)
    {name : List Byte} (h : (name, none) ∈ es) :
    ∃ name', setChosenProps fits (rows es n) props = .error (.nullValue name') := by
  induction es generalizing props with
  | nil => exact absurd h List.not_mem_nil
  | cons e es ih =>
    obtain ⟨name', value⟩ := e
    rw [setChosenProps_rows_cons]
    cases value with
    | none => exact ⟨name', rfl⟩
    | some value =>
      dsimp only
      rw [if_pos (hfits _)]
      rcases List.mem_cons.mp h with heq | hmem
      · exact absurd (Prod.mk.inj heq).2 (by simp)
      · exact ih _ hmem

theorem setChosenProps_rows (hfits : ∀ p, fits p = true)
    (hvalues : ∀ name, (name, none) ∉ es) (hnodup : (es.map Prod.fst).Nodup) (n : Nat)
    (props : Props) :
    ∃ props', setChosenProps fits (rows es n) props = .ok props' ∧
      ∀ name, valueOf name props' =
        match valueOf name es with
        | some (some value) => some (value ++ [0])
        | _ => valueOf name props := by
  induction es generalizing props with
  | nil => exact ⟨props, setChosenProps_rows_nil _ _ _, fun name => rfl⟩
  | cons e es ih =>
    obtain ⟨name', value⟩ := e
    rw [List.map_cons, List.nodup_cons] at hnodup
    cases value with
    | none => exact absurd List.mem_cons_self (hvalues name')
    | some value =>
      obtain ⟨props', hrun, hread⟩ := ih
        (fun name hname => hvalues name (List.mem_cons_of_mem _ hname)) hnodup.2
        (upsert name' (value ++ [0]) props)
      refine ⟨props', ?_, ?_⟩
      · rw [setChosenProps_rows_cons]
        dsimp only
        rw [if_pos (hfits _), hrun]
      · intro name
        rw [hread name, SlotMap.valueOf_upsert]
        by_cases heq : name' = name
        · -- the name of this row: no later row has it
          subst heq
          have hlater : valueOf name' es = none := by
            rw [valueOf, Option.map_eq_none_iff, List.find?_eq_none]
            intro e he
            have hne : e.1 ≠ name' := fun heq => hnodup.1 (List.mem_map.mpr ⟨e, he, heq⟩)
            simpa using hne
          have hhere : valueOf name' ((name', some value) :: es) = some (some value) := by
            simp [valueOf]
          rw [hlater, hhere, if_pos rfl]
        · have hskip : valueOf name ((name', some value) :: es) = valueOf name es := by
            simp [valueOf, heq]
          rw [hskip, if_neg (Ne.symm heq)]

end Loop

/-! ### The table of a run of calls -/

theorem row_table_iff {m : ChosenMap} {name value : List Byte} :
    Row (table m) name value ↔ m.lookup name = some (some value) := exists_row_iff

/-- The loop accepts the table exactly if every name of the map has a value. -/
theorem accepted_table_iff (m : ChosenMap) :
    Accepted (table m) ↔ ∀ name, m.lookup name ≠ some none := by
  constructor
  · intro h name hname
    rw [SlotMap.lookup, SlotMap.valueOf_eq_some_iff m.nodup] at hname
    obtain ⟨name', hfault⟩ := nullValue_of_mem (fun (_ : Props) => rfl)
      (MAX_CHOSEN_PARAMS - m.entries.length) [] hname
    exact h.noNull (fun _ => true) [] name' hfault
  · intro h
    have hvalues : ∀ name, (name, none) ∉ m.entries := by
      intro name hname
      exact h name ((SlotMap.valueOf_eq_some_iff m.nodup).mpr hname)
    constructor
    · intro fits props name hfault
      exact hvalues name (mem_of_nullValue hfault)
    · intro fits props hfits
      obtain ⟨props', hrun, hread⟩ := setChosenProps_rows hfits hvalues m.nodup
        (MAX_CHOSEN_PARAMS - m.entries.length) props
      refine ⟨props', hrun, ?_⟩
      intro name bytes
      rw [hread name]
      simp only [row_table_iff, SlotMap.lookup]
      rcases hcase : valueOf name m.entries with _ | _ | value
      · simp
      · exact absurd hcase (h name)
      · simp [eq_comm]

theorem run_chosenRequest (calls : List (Option (List Byte) × Option (List Byte))) :
    ∀ m : ChosenMap, ∃ m' : ChosenMap, (run chosenRequest calls (table m)).2 = table m' ∧
      ∀ name, m'.lookup name =
        (SlotMap.latest (some name) calls
          ((run chosenRequest calls (table m)).1.map rowOf)).or (m.lookup name) := by
  induction calls with
  | nil =>
    intro m
    exact ⟨m, rfl, fun _ => rfl⟩
  | cons c calls ih =>
    intro m
    obtain ⟨cname, value⟩ := c
    cases cname with
    | none =>
      -- refused, and nothing changes
      obtain ⟨m', htable, hlookup⟩ := ih m
      refine ⟨m', htable, ?_⟩
      intro name
      rw [run_cons, List.map_cons, SlotMap.latest, if_neg (by simp), Option.or_none]
      exact hlookup name
    | some cname =>
      have hcall : chosenRequest (some cname, value) (table m) =
          (replyOf (m.put cname value).1, table (m.put cname value).2) :=
        kbootSetChosen_table cname value m
      obtain ⟨m', htable, hlookup⟩ := ih (m.put cname value).2
      refine ⟨m', ?_, ?_⟩
      · rw [run_cons, hcall]
        exact htable
      · intro name
        rw [run_cons, hcall, List.map_cons, SlotMap.latest, rowOf_replyOf, Option.or_assoc,
          hlookup name, SlotMap.lookup_put]
        congr 1
        simp only [Option.some.injEq]
        split <;> rfl

/-- After any requests the table is one that `dt_set_chosen` can take, without a read through a
    null pointer, exactly if for no name the last request that was not refused came without a
    value. -/
theorem chosen_accepted_iff (calls : List (Option (List Byte) × Option (List Byte))) :
    Accepted (run chosenRequest calls noChosen).2 ↔
      ∀ name, SlotMap.latest (some name) calls
        ((run chosenRequest calls noChosen).1.map rowOf) ≠ some none := by
  obtain ⟨m, htable, hlookup⟩ := run_chosenRequest calls (SlotMap.empty MAX_CHOSEN_PARAMS)
  have hempty : table (SlotMap.empty MAX_CHOSEN_PARAMS) = noChosen := rfl
  rw [hempty] at htable hlookup
  rw [htable, accepted_table_iff]
  apply forall_congr'
  intro name
  have hnone : (SlotMap.empty MAX_CHOSEN_PARAMS : ChosenMap).lookup name = none := rfl
  rw [hlookup name, hnone, Option.or_none]

/-- One request, for the name `a` and no value: `dt_set_chosen` takes the length of a null
    pointer. -/
theorem chosen_null_value_read :
    setChosenProps (fun _ => true) (run chosenRequest [(some [0x61], none)] noChosen).2 [] =
      .error (.nullValue [0x61]) := rfl

end MiniHaywire.Kboot
