import MiniHaywire.Bytes
import MiniHaywire.SlotMap

/-!
# The parameters for `/chosen`

`kboot_set_chosen` keeps up to sixteen named strings for the `/chosen` node of the device
tree.  One loop both looks for the name and claims the first empty row; the value is
written after it.  The table is a bounded map in the order of insertion (`SlotMap`): its
rows are the entries of the map, and then the rows that are still `NULL`.

A C string is the list of its characters, and `NULL` is `none`.  Allocations succeed.
The function is written for any kind of strings (`Strings`): here a string is its text, and
for what is freed and when it is a chunk of the heap.
-/

namespace MiniHaywire.Kboot

def MAX_CHOSEN_PARAMS : Nat := 16

/-- What a string of the table is, and the calls that make and drop one; `η` is the state of
    the allocator. -/
structure Strings (σ η : Type) where
  text : σ → List Byte
  /-- `calloc(strlen(s) + 1, 1)`, and `strcpy`. -/
  dup : List Byte → η → σ × η
  free : Option σ → η → η

structure ParamRow (σ : Type) where
  name : Option σ
  value : Option σ
deriving DecidableEq

section SetChosen

variable {σ η : Type} (S : Strings σ η)

/-- The loop of `kboot_set_chosen`: the value of `i` after it, the rows and the allocator. -/
def chosenLoop (name : List Byte) : List (ParamRow σ) → η → Nat × List (ParamRow σ) × η
  | [], heap => (0, [], heap)
  | row :: rows, heap =>
    match row.name with
    | none =>
      let (copy, heap) := S.dup name heap
      (0, { row with name := some copy } :: rows, heap)
    | some old =>
      if name = S.text old then (0, { row with value := none } :: rows, S.free row.value heap)
      else
        let (i, rows, heap) := chosenLoop name rows heap
        (i + 1, row :: rows, heap)

/-- `kboot_set_chosen`: the return value, the rows and the allocator. -/
def kbootSetChosenWith (name value : Option (List Byte)) (rows : List (ParamRow σ)) (heap : η) :
    Int × List (ParamRow σ) × η :=
  match name with
  | none => (-1, rows, heap)
  | some name =>
    let (i, rows, heap) := chosenLoop S name rows heap
    if MAX_CHOSEN_PARAMS ≤ i then (-1, rows, heap)
    else
      match value with
      | none => (i, rows, heap)
      | some value =>
        let (copy, heap) := S.dup value heap
        (i, rows.modify i fun row => { row with value := some copy }, heap)

end SetChosen

/-- A string is its text, and there is no allocator to look at. -/
def texts : Strings (List Byte) Unit where
  text := id
  dup s _ := (s, ())
  free _ _ := ()

abbrev ChosenSlot := ParamRow (List Byte)

def noChosen : List ChosenSlot := List.replicate MAX_CHOSEN_PARAMS ⟨none, none⟩

/-- `kboot_set_chosen`: the return value, and the rows with their texts. -/
def kbootSetChosen (name value : Option (List Byte)) (params : List ChosenSlot) :
    Int × List ChosenSlot :=
  let (ret, params, _) := kbootSetChosenWith texts name value params ()
  (ret, params)

/-! ### The table as a map -/

abbrev ChosenEntry := List Byte × Option (List Byte)

def slotOf (e : ChosenEntry) : ChosenSlot := ⟨some e.1, e.2⟩

/-- The rows for some entries, with `n` more rows to go. -/
def rows (es : List ChosenEntry) (n : Nat) : List ChosenSlot :=
  es.map slotOf ++ List.replicate n ⟨none, none⟩

open SlotMap (upsert position)

theorem rows_cons (e : ChosenEntry) (es : List ChosenEntry) (n : Nat) :
    rows (e :: es) n = slotOf e :: rows es n := rfl

theorem chosenLoop_slotOf (name : List Byte) (e : ChosenEntry) (slots : List ChosenSlot) :
    chosenLoop texts name (slotOf e :: slots) () =
      if name = e.1 then (0, slotOf (e.1, none) :: slots, ())
      else ((chosenLoop texts name slots ()).1 + 1,
        slotOf e :: (chosenLoop texts name slots ()).2.1, ()) := rfl

/-- The loop stops at the row of the name, or claims the first empty one: either way the name
    is there without a value. -/
theorem chosenLoop_rows (name : List Byte) (es : List ChosenEntry) (n : Nat)
    (hroom : position name es < es.length + n) :
    chosenLoop texts name (rows es n) () = (position name es,
      rows (upsert name none es) (es.length + n - (upsert name none es).length), ()) := by
  induction es with
  | nil =>
    rw [List.length_nil, Nat.zero_add] at hroom ⊢
    cases n with
    | zero => contradiction
    | succ n => rfl
  | cons e es ih =>
    rw [position, List.length_cons] at hroom
    rw [rows_cons, chosenLoop_slotOf, position, upsert]
    by_cases heq : e.1 = name
    · rw [if_pos heq.symm, if_pos heq, if_pos heq, rows_cons, List.length_cons, List.length_cons,
        Nat.add_sub_cancel_left, heq]
    · rw [if_neg heq] at hroom
      rw [if_neg (Ne.symm heq), if_neg heq, if_neg heq, ih (by omega), rows_cons, List.length_cons,
        List.length_cons, Nat.add_right_comm, Nat.add_sub_add_right]

theorem chosenLoop_full (name : List Byte) (es : List ChosenEntry)
    (hfull : position name es = es.length) :
    chosenLoop texts name (rows es 0) () = (es.length, rows es 0, ()) := by
  induction es with
  | nil => rfl
  | cons e es ih =>
    rw [position] at hfull
    split at hfull
    · contradiction
    · rename_i hne
      rw [rows_cons, chosenLoop_slotOf, if_neg (Ne.symm hne), ih (Nat.succ.inj hfull)]
      rfl

theorem modify_rows (name : List Byte) (old value : Option (List Byte)) (es : List ChosenEntry)
    (n : Nat) :
    (rows (upsert name old es) n).modify (position name es)
      (fun slot => { slot with value := value }) = rows (upsert name value es) n := by
  induction es with
  | nil => rfl
  | cons e es ih =>
    rw [position, upsert, upsert]
    split
    · rfl
    · rw [rows_cons, rows_cons, List.modify_succ_cons, ih]

/-! ### One call -/

abbrev ChosenMap := SlotMap (List Byte) (Option (List Byte)) MAX_CHOSEN_PARAMS

def table (m : ChosenMap) : List ChosenSlot :=
  rows m.entries (MAX_CHOSEN_PARAMS - m.entries.length)

/-- What `kboot_set_chosen` returns for an answer of the map. -/
def replyOf : Option Nat → Int
  | none => -1
  | some i => i

theorem kbootSetChosen_table (name : List Byte) (value : Option (List Byte)) (m : ChosenMap) :
    kbootSetChosen (some name) value (table m) =
      (replyOf (m.put name value).1, table (m.put name value).2) := by
  have hbound := m.bound
  have htotal : m.entries.length + (MAX_CHOSEN_PARAMS - m.entries.length) = MAX_CHOSEN_PARAMS := by
    omega
  by_cases hpos : position name m.entries < MAX_CHOSEN_PARAMS
  · have hloop := chosenLoop_rows name m.entries (MAX_CHOSEN_PARAMS - m.entries.length)
      (by rw [htotal]; exact hpos)
    rw [htotal] at hloop
    obtain ⟨hreply, hentries⟩ := SlotMap.put_eq_some (v := value) hpos
    have hlen : (upsert name none m.entries).length = (upsert name value m.entries).length := by
      rw [SlotMap.length_upsert, SlotMap.length_upsert]
    rw [kbootSetChosen, kbootSetChosenWith, table, hloop, hreply, table, hentries]
    dsimp only
    rw [if_neg (Nat.not_le.mpr hpos), hlen]
    cases value with
    | none => rfl
    | some value =>
      dsimp only [texts]
      rw [modify_rows]
      rfl
  · have hle := SlotMap.position_le_length name m.entries
    have hlast : position name m.entries = m.entries.length := by omega
    have hnone : MAX_CHOSEN_PARAMS - m.entries.length = 0 := by omega
    have hloop := chosenLoop_full name m.entries hlast
    rw [SlotMap.put_eq_none hpos, kbootSetChosen, kbootSetChosenWith, table, hnone, hloop]
    dsimp only
    rw [if_pos (by omega)]
    rfl

/-! ### Runs of calls -/

def chosenCall (c : ChosenEntry) (params : List ChosenSlot) : Int × List ChosenSlot :=
  kbootSetChosen (some c.1) c.2 params

theorem run_chosenCall (calls : List ChosenEntry) :
    let run' := run SlotMap.step calls (SlotMap.empty MAX_CHOSEN_PARAMS)
    (run chosenCall calls noChosen).1 = run'.1.map replyOf ∧
      (run chosenCall calls noChosen).2 = table run'.2 := by
  have hstep : ∀ (c : ChosenEntry) (params : List ChosenSlot) (m : ChosenMap), params = table m →
      (chosenCall c params).1 = replyOf (SlotMap.step c m).1 ∧
        (chosenCall c params).2 = table (SlotMap.step c m).2 := by
    rintro c params m rfl
    rw [chosenCall, kbootSetChosen_table]
    exact ⟨rfl, rfl⟩
  exact run_simulates_map hstep calls noChosen (SlotMap.empty MAX_CHOSEN_PARAMS) rfl

theorem getElem?_table {m : ChosenMap} {i : Nat} {slot : ChosenSlot}
    (h : (table m)[i]? = some slot) :
    (∃ e, m.entries[i]? = some e ∧ slot = slotOf e) ∨ (m.entries.length ≤ i ∧
      slot = ⟨none, none⟩) := by
  rw [table, rows] at h
  rcases Nat.lt_or_ge i m.entries.length with hlt | hge
  · rw [List.getElem?_append_left (by rw [List.length_map]; exact hlt), List.getElem?_map] at h
    obtain ⟨e, he, rfl⟩ := Option.map_eq_some_iff.mp h
    exact .inl ⟨e, he, rfl⟩
  · rw [List.getElem?_append_right (by rw [List.length_map]; exact hge)] at h
    exact .inr ⟨hge, List.eq_of_mem_replicate (List.mem_of_getElem? h)⟩

theorem getElem?_table_entry {m : ChosenMap} {i : Nat} {e : ChosenEntry}
    (h : m.entries[i]? = some e) : (table m)[i]? = some (slotOf e) := by
  have hlt := (List.getElem?_eq_some_iff.mp h).1
  rw [table, rows, List.getElem?_append_left (by rw [List.length_map]; exact hlt),
    List.getElem?_map, h]
  rfl

theorem length_table (m : ChosenMap) : (table m).length = MAX_CHOSEN_PARAMS := by
  have hbound := m.bound
  rw [table, rows, List.length_append, List.length_map, List.length_replicate]
  omega

theorem exists_row_iff {m : ChosenMap} {name : List Byte} {value : Option (List Byte)} :
    (∃ i : Nat, (table m)[i]? = some ⟨some name, value⟩) ↔ m.lookup name = some value := by
  rw [SlotMap.lookup, SlotMap.valueOf_eq_some_iff m.nodup]
  constructor
  · rintro ⟨i, h⟩
    rcases getElem?_table h with ⟨e, he, heq⟩ | ⟨-, heq⟩
    · obtain ⟨hname, rfl⟩ := ParamRow.mk.inj heq
      cases hname
      exact List.mem_of_getElem? he
    · obtain ⟨hname, -⟩ := ParamRow.mk.inj heq
      contradiction
  · intro h
    obtain ⟨i, hi⟩ := List.getElem?_of_mem h
    exact ⟨i, getElem?_table_entry hi⟩

def rowOf (r : Int) : Option Nat := if r < 0 then none else some r.toNat

theorem rowOf_replyOf (r : Option Nat) : rowOf (replyOf r) = r := by
  cases r with
  | none => rfl
  | some i =>
    rw [replyOf, rowOf, if_neg (by omega), Int.toNat_natCast]

theorem map_rowOf_replyOf (rs : List (Option Nat)) : (rs.map replyOf).map rowOf = rs := by
  rw [List.map_map]
  exact List.map_id'' rowOf_replyOf rs

theorem getElem?_keys {m : ChosenMap} {i : Nat} {name : List Byte} :
    m.keys[i]? = some name ↔ ∃ value, (table m)[i]? = some ⟨some name, value⟩ := by
  rw [SlotMap.keys, List.getElem?_map, Option.map_eq_some_iff]
  constructor
  · rintro ⟨e, he, rfl⟩
    exact ⟨e.2, getElem?_table_entry he⟩
  · rintro ⟨value, h⟩
    rcases getElem?_table h with ⟨e, he, heq⟩ | ⟨-, heq⟩
    · exact ⟨e, he, (Option.some.inj (ParamRow.mk.inj heq).1).symm⟩
    · have hname := (ParamRow.mk.inj heq).1
      contradiction

theorem table_rows_first (m : ChosenMap) :
    (table m).length = MAX_CHOSEN_PARAMS ∧ ∃ used, ∀ (i : Nat) slot, (table m)[i]? = some slot →
      (slot.name.isSome = true ↔ i < used) := by
  refine ⟨length_table m, m.entries.length, ?_⟩
  intro i slot hslot
  rcases getElem?_table hslot with ⟨e, he, rfl⟩ | ⟨hge, rfl⟩
  · exact iff_of_true rfl (List.getElem?_eq_some_iff.mp he).1
  · exact iff_of_false Bool.false_ne_true (Nat.not_lt.mpr hge)

theorem table_names_distinct (m : ChosenMap) (i j : Nat) (name : List Byte)
    (v v' : Option (List Byte)) (hi : (table m)[i]? = some ⟨some name, v⟩)
    (hj : (table m)[j]? = some ⟨some name, v'⟩) : i = j := by
  obtain ⟨hlt, hkey⟩ := List.getElem?_eq_some_iff.mp (getElem?_keys.mpr ⟨v, hi⟩)
  obtain ⟨hlt', hkey'⟩ := List.getElem?_eq_some_iff.mp (getElem?_keys.mpr ⟨v', hj⟩)
  exact m.nodup.getElem_inj_iff.mp (hkey.trans hkey'.symm)

/-- What a call does to the table: the rows in use keep their names, and the call either finds
    the table full of other names or returns the row it has written. -/
theorem chosenCall_table (name : List Byte) (value : Option (List Byte)) (m : ChosenMap) :
    let result := kbootSetChosen (some name) value (table m)
    (∀ (i : Nat) old v, (table m)[i]? = some ⟨some old, v⟩ →
      ∃ v', result.2[i]? = some ⟨some old, v'⟩ ∧ (old ≠ name → v' = v)) ∧
    ((result.1 = -1 ∧ (∀ slot ∈ table m, slot.name ≠ none ∧ slot.name ≠ some name) ∧
        result.2 = table m) ∨
      ∃ i : Nat, result.1 = i ∧ result.2[i]? = some ⟨some name, value⟩) := by
  rw [kbootSetChosen_table]
  constructor
  · intro i old v hrow
    obtain ⟨new, hnew⟩ := SlotMap.keys_put name value m
    have hkey := getElem?_keys.mpr ⟨v, hrow⟩
    have hlt := (List.getElem?_eq_some_iff.mp hkey).1
    have hkey' : (m.put name value).2.keys[i]? = some old := by
      rw [← hnew, List.getElem?_append_left hlt, hkey]
    obtain ⟨v', hrow'⟩ := getElem?_keys.mp hkey'
    refine ⟨v', hrow', ?_⟩
    intro hne
    -- both values are what the map has for the name
    have hbefore := exists_row_iff.mp ⟨i, hrow⟩
    have hafter := exists_row_iff.mp ⟨i, hrow'⟩
    rw [SlotMap.lookup_put, if_neg (fun h => hne h.1.symm), hbefore] at hafter
    exact (Option.some.inj hafter).symm
  · by_cases hpos : SlotMap.position name m.entries < MAX_CHOSEN_PARAMS
    · obtain ⟨hreply, hentries⟩ := SlotMap.put_eq_some (v := value) hpos
      refine .inr ⟨SlotMap.position name m.entries, by rw [hreply]; rfl, ?_⟩
      refine getElem?_table_entry (e := (name, value)) ?_
      rw [hentries]
      exact SlotMap.getElem?_upsert_position name value m.entries
    · have hnot := mt SlotMap.position_lt_cap_iff.mpr hpos
      rw [not_or, not_lt] at hnot
      rw [SlotMap.put_eq_none hpos]
      refine .inl ⟨rfl, ?_, rfl⟩
      intro slot hslot
      obtain ⟨i, hi⟩ := List.getElem?_of_mem hslot
      rcases getElem?_table hi with ⟨e, he, rfl⟩ | ⟨hlen, -⟩
      · refine ⟨Option.some_ne_none _, ?_⟩
        intro heq
        apply hnot.1
        rw [← Option.some.inj heq]
        exact List.mem_map_of_mem (List.mem_of_getElem? he)
      · have hlt := (List.getElem?_eq_some_iff.mp hi).1
        rw [length_table] at hlt
        omega

/-- **`chosen_params` is a bounded map in the order of insertion.**  After any calls the rows in
    use come first, with different names; a name has the value of the last call for it that was
    not refused, in the row that each of its calls returned; and the next call writes the row it
    returns, or finds all rows taken by other names and changes nothing. -/
theorem chosenParams_orderedMap (calls : List ChosenEntry) :
    let replies := (run chosenCall calls noChosen).1
    let params := (run chosenCall calls noChosen).2
    (params.length = MAX_CHOSEN_PARAMS ∧ ∃ used, ∀ (i : Nat) slot, params[i]? = some slot →
      (slot.name.isSome = true ↔ i < used)) ∧
    (∀ (i j : Nat) name v v', params[i]? = some ⟨some name, v⟩ →
      params[j]? = some ⟨some name, v'⟩ → i = j) ∧
    (∀ name value, (∃ i : Nat, params[i]? = some ⟨some name, value⟩) ↔
      SlotMap.latest name calls (replies.map rowOf) = some value) ∧
    (∀ (n : Nat) c r, calls[n]? = some c → replies[n]? = some r →
      r = -1 ∨ ∃ (i : Nat) (value : Option (List Byte)), r = i ∧
        params[i]? = some ⟨some c.1, value⟩) ∧
    ∀ name value,
      let result := kbootSetChosen (some name) value params
      (∀ (i : Nat) old v, params[i]? = some ⟨some old, v⟩ →
        ∃ v', result.2[i]? = some ⟨some old, v'⟩ ∧ (old ≠ name → v' = v)) ∧
      ((result.1 = -1 ∧ (∀ slot ∈ params, slot.name ≠ none ∧ slot.name ≠ some name) ∧
          result.2 = params) ∨
        ∃ i : Nat, result.1 = i ∧ result.2[i]? = some ⟨some name, value⟩) := by
  intro replies params
  obtain ⟨hreplies, hparams⟩ := run_chosenCall calls
  change replies = _ at hreplies
  change params = _ at hparams
  refine ⟨?_, ?_, ?_, ?_, ?_⟩
  · rw [hparams]
    exact table_rows_first _
  · rw [hparams]
    exact table_names_distinct _
  · intro name value
    rw [hparams, exists_row_iff, SlotMap.lookup_run, hreplies, map_rowOf_replyOf]
    exact Iff.of_eq (congrArg (· = some value) Option.or_none)
  · intro n c r hc hr
    rw [hreplies, List.getElem?_map, Option.map_eq_some_iff] at hr
    obtain ⟨reply, hreply, rfl⟩ := hr
    cases reply with
    | none => exact .inl rfl
    | some i =>
      obtain ⟨c', hc', hkey⟩ := SlotMap.getElem?_keys_run hreply
      rw [hc] at hc'
      cases hc'
      obtain ⟨value, hrow⟩ := getElem?_keys.mp hkey
      rw [hparams]
      exact .inr ⟨i, value, rfl, hrow⟩
  · intro name value
    rw [hparams]
    exact chosenCall_table name value _

end MiniHaywire.Kboot
