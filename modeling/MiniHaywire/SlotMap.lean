import MiniHaywire.Run

/-!
# Bounded maps in the order of insertion

A map of at most `cap` keys, kept as a list of entries.  A new key goes to the end of the
list as long as there is room, the value of an old key is replaced where it is; the answer
is the position of the key, or `none` if there was no room for it.  No key is ever moved
(`keys_put`), and after a run the value of a key is that of the last call that was not
refused (`lookup_run`).
-/

namespace MiniHaywire

/-- At most `cap` keys with their values, each key once. -/
structure SlotMap (κ ν : Type*) (cap : Nat) where
  entries : List (κ × ν)
  nodup : (entries.map Prod.fst).Nodup
  bound : entries.length ≤ cap

namespace SlotMap

variable {κ ν : Type*} {cap : Nat}

def empty (cap : Nat) : SlotMap κ ν cap := ⟨[], List.nodup_nil, Nat.zero_le cap⟩

def keys (m : SlotMap κ ν cap) : List κ := m.entries.map Prod.fst

variable [DecidableEq κ] {k k' : κ} {v : ν}

def upsert (k : κ) (v : ν) : List (κ × ν) → List (κ × ν)
  | [] => [(k, v)]
  | e :: es => if e.1 = k then (k, v) :: es else e :: upsert k v es

/-- The position of a key, or of the end of the list. -/
def position (k : κ) : List (κ × ν) → Nat
  | [] => 0
  | e :: es => if e.1 = k then 0 else position k es + 1

theorem position_le_length (k : κ) (es : List (κ × ν)) : position k es ≤ es.length := by
  induction es with
  | nil => exact Nat.le_refl 0
  | cons e es ih =>
    rw [position]
    split
    · exact Nat.zero_le _
    · exact Nat.succ_le_succ ih

theorem position_lt_iff {es : List (κ × ν)} :
    position k es < es.length ↔ k ∈ es.map Prod.fst := by
  induction es with
  | nil => simp [position]
  | cons e es ih =>
    rw [position, List.map_cons, List.mem_cons, ← ih, List.length_cons]
    split
    · rename_i heq
      simp [heq]
    · rename_i hne
      simp [Ne.symm hne]

theorem getElem?_upsert_position (k : κ) (v : ν) (es : List (κ × ν)) :
    (upsert k v es)[position k es]? = some (k, v) := by
  induction es with
  | nil => rfl
  | cons e es ih =>
    rw [upsert, position]
    split
    · rfl
    · exact ih

theorem keys_upsert (k : κ) (v : ν) (es : List (κ × ν)) :
    (upsert k v es).map Prod.fst =
      if k ∈ es.map Prod.fst then es.map Prod.fst else es.map Prod.fst ++ [k] := by
  induction es with
  | nil => simp [upsert]
  | cons e es ih =>
    rw [upsert, List.map_cons]
    by_cases heq : e.1 = k
    · simp [heq]
    · rw [if_neg heq, List.map_cons, ih]
      by_cases hmem : k ∈ es.map Prod.fst
      · rw [if_pos hmem, if_pos (List.mem_cons_of_mem _ hmem)]
      · have hnot : k ∉ e.1 :: es.map Prod.fst := by
          rw [List.mem_cons]
          rintro (rfl | h)
          · exact heq rfl
          · exact hmem h
        rw [if_neg hmem, if_neg hnot, List.cons_append]

theorem length_upsert (k : κ) (v : ν) (es : List (κ × ν)) :
    (upsert k v es).length = max es.length (position k es + 1) := by
  induction es with
  | nil => rfl
  | cons e es ih =>
    rw [upsert, position]
    split
    · simp
    · rw [List.length_cons, ih, List.length_cons, Nat.succ_max_succ]

def valueOf (k : κ) (es : List (κ × ν)) : Option ν := (es.find? (fun e => e.1 = k)).map Prod.snd

theorem valueOf_upsert (k k' : κ) (v : ν) (es : List (κ × ν)) :
    valueOf k' (upsert k v es) = if k' = k then some v else valueOf k' es := by
  induction es with
  | nil =>
    by_cases heq : k' = k
    · simp [valueOf, upsert, heq]
    · simp [valueOf, upsert, heq, Ne.symm heq]
  | cons e es ih =>
    rw [upsert]
    by_cases hek : e.1 = k
    · rw [if_pos hek]
      by_cases heq : k' = k
      · simp [valueOf, heq]
      · simp [valueOf, heq, hek, Ne.symm heq]
    · rw [if_neg hek]
      by_cases hek' : e.1 = k'
      · have hne : k' ≠ k := fun h => hek (hek'.trans h)
        simp [valueOf, hek', hne]
      · have hskip : ∀ es' : List (κ × ν), valueOf k' (e :: es') = valueOf k' es' := by
          intro es'
          simp [valueOf, hek']
        rw [hskip, hskip, ih]

theorem valueOf_eq_some_iff {es : List (κ × ν)} (h : (es.map Prod.fst).Nodup) :
    valueOf k es = some v ↔ (k, v) ∈ es := by
  induction es with
  | nil => simp [valueOf]
  | cons e es ih =>
    obtain ⟨k₁, v₁⟩ := e
    rw [List.map_cons, List.nodup_cons] at h
    by_cases heq : k₁ = k
    · subst heq
      have hnot : (k₁, v) ∉ es := fun hmem => h.1 (List.mem_map.mpr ⟨_, hmem, rfl⟩)
      simp [valueOf, hnot, eq_comm]
    · have hskip : valueOf k ((k₁, v₁) :: es) = valueOf k es := by simp [valueOf, heq]
      rw [hskip, ih h.2]
      simp [Ne.symm heq]

/-! ### The call -/

/-- The position the key has then, or `none` and no change. -/
def put (k : κ) (v : ν) (m : SlotMap κ ν cap) : Option Nat × SlotMap κ ν cap :=
  if h : position k m.entries < cap then
    (some (position k m.entries), ⟨upsert k v m.entries, by
      rw [keys_upsert]
      split
      · exact m.nodup
      · rename_i hnot
        exact List.nodup_append.mpr ⟨m.nodup, by simp, by
          intro a ha b hb
          rw [List.mem_singleton.mp hb]
          rintro rfl
          exact hnot ha⟩, by
      rw [length_upsert]
      exact max_le m.bound h⟩)
  else (none, m)

def step (c : κ × ν) (m : SlotMap κ ν cap) : Option Nat × SlotMap κ ν cap := m.put c.1 c.2

def lookup (m : SlotMap κ ν cap) (k : κ) : Option ν := valueOf k m.entries

variable {m : SlotMap κ ν cap}

theorem put_eq_some (h : position k m.entries < cap) :
    (m.put k v).1 = some (position k m.entries) ∧ (m.put k v).2.entries = upsert k v m.entries := by
  rw [put, dif_pos h]
  exact ⟨rfl, rfl⟩

theorem put_eq_none (h : ¬ position k m.entries < cap) : m.put k v = (none, m) := by
  rw [put, dif_neg h]

theorem position_lt_cap_iff : position k m.entries < cap ↔ k ∈ m.keys ∨ m.entries.length < cap := by
  have hle := position_le_length k m.entries
  have hmem : position k m.entries < m.entries.length ↔ k ∈ m.keys := position_lt_iff
  have hbound := m.bound
  rw [← hmem]
  omega

theorem keys_put (k : κ) (v : ν) (m : SlotMap κ ν cap) : m.keys <+: (m.put k v).2.keys := by
  by_cases h : position k m.entries < cap
  · rw [keys, keys, (put_eq_some h).2, keys_upsert]
    split
    · exact List.prefix_rfl
    · exact List.prefix_append _ _
  · rw [put_eq_none h]

theorem keys_run (cs : List (κ × ν)) :
    ∀ m : SlotMap κ ν cap, m.keys <+: (run step cs m).2.keys := by
  induction cs with
  | nil =>
    intro m
    exact List.prefix_rfl
  | cons c cs ih =>
    intro m
    exact (keys_put c.1 c.2 m).trans (ih _)

theorem getElem?_keys_put {i : Nat} (h : (m.put k v).1 = some i) :
    (m.put k v).2.keys[i]? = some k := by
  by_cases hpos : position k m.entries < cap
  · obtain ⟨hreply, hentries⟩ := put_eq_some (v := v) hpos
    rw [hreply] at h
    cases h
    rw [keys, hentries, List.getElem?_map, getElem?_upsert_position]
    rfl
  · rw [put_eq_none hpos] at h
    contradiction

theorem getElem?_keys_run {cs : List (κ × ν)} : ∀ {m : SlotMap κ ν cap} {n i : Nat},
    (run step cs m).1[n]? = some (some i) →
      ∃ c, cs[n]? = some c ∧ (run step cs m).2.keys[i]? = some c.1 := by
  induction cs with
  | nil =>
    intro m n i h
    contradiction
  | cons c cs ih =>
    intro m n i h
    rw [run_cons] at h ⊢
    cases n with
    | zero =>
      have hput : (step c m).2.keys[i]? = some c.1 := getElem?_keys_put (Option.some.inj h)
      obtain ⟨new, hnew⟩ := keys_run cs (step c m).2
      have hlt := (List.getElem?_eq_some_iff.mp hput).1
      refine ⟨c, rfl, ?_⟩
      rw [← hnew, List.getElem?_append_left hlt, hput]
    | succ n => exact ih h

/-! ### Values after a run -/

/-- The value that the last call for a key gave it, among those that were not refused. -/
def latest (k : κ) : List (κ × ν) → List (Option Nat) → Option ν
  | c :: cs, r :: rs =>
    (latest k cs rs).or (if c.1 = k ∧ r.isSome = true then some c.2 else none)
  | _, _ => none

theorem lookup_put (k' k : κ) (v : ν) (m : SlotMap κ ν cap) :
    (m.put k v).2.lookup k' =
      if k = k' ∧ (m.put k v).1.isSome = true then some v else m.lookup k' := by
  by_cases h : position k m.entries < cap
  · obtain ⟨hreply, hentries⟩ := put_eq_some (v := v) h
    rw [lookup, hentries, valueOf_upsert, hreply]
    simp only [Option.isSome_some, and_true, eq_comm]
    rfl
  · rw [put_eq_none h]
    simp

theorem lookup_run (k : κ) (cs : List (κ × ν)) : ∀ m : SlotMap κ ν cap,
    (run step cs m).2.lookup k = (latest k cs (run step cs m).1).or (m.lookup k) := by
  induction cs with
  | nil =>
    intro m
    rfl
  | cons c cs ih =>
    intro m
    rw [run_cons, latest, ih, Option.or_assoc]
    congr 1
    rw [step, lookup_put]
    split <;> rfl

/-! ### Runs with room for every call -/

theorem length_put_le (k : κ) (v : ν) (m : SlotMap κ ν cap) :
    (m.put k v).2.entries.length ≤ m.entries.length + 1 := by
  by_cases h : position k m.entries < cap
  · have hle := position_le_length k m.entries
    rw [(put_eq_some h).2, length_upsert]
    omega
  · rw [put_eq_none h]
    exact Nat.le_succ _

theorem isSome_of_mem_run {cs : List (κ × ν)} : ∀ {m : SlotMap κ ν cap},
    m.entries.length + cs.length ≤ cap → ∀ r ∈ (run step cs m).1, r.isSome = true := by
  induction cs with
  | nil =>
    intro m _ r hr
    contradiction
  | cons c cs ih =>
    intro m hroom r hr
    rw [List.length_cons] at hroom
    rw [run_cons] at hr
    rcases List.mem_cons.mp hr with rfl | hr
    · have hlt : position c.1 m.entries < cap := position_lt_cap_iff.mpr (.inr (by omega))
      rw [step, (put_eq_some hlt).1]
      rfl
    · have hlen := length_put_le c.1 c.2 m
      exact ih (by rw [step]; omega) r hr

theorem length_run (cs : List (κ × ν)) : ∀ m : SlotMap κ ν cap,
    (run step cs m).1.length = cs.length := by
  induction cs with
  | nil =>
    intro m
    rfl
  | cons c cs ih =>
    intro m
    rw [run_cons, List.length_cons, List.length_cons, ih]

/-- The last value that a list of calls has for a key. -/
def lastValue (k : κ) (cs : List (κ × ν)) : Option ν := valueOf k cs.reverse

theorem lastValue_cons (k : κ) (c : κ × ν) (cs : List (κ × ν)) :
    lastValue k (c :: cs) = (lastValue k cs).or (if c.1 = k then some c.2 else none) := by
  rw [lastValue, lastValue, valueOf, valueOf, List.reverse_cons, List.find?_append, Option.map_or]
  by_cases h : c.1 = k
  · simp [h]
  · simp [h]

theorem latest_of_isSome (k : κ) (cs : List (κ × ν)) : ∀ rs : List (Option Nat),
    rs.length = cs.length → (∀ r ∈ rs, r.isSome = true) → latest k cs rs = lastValue k cs := by
  induction cs with
  | nil =>
    intro rs _ _
    rfl
  | cons c cs ih =>
    intro rs hlen hsome
    cases rs with
    | nil => contradiction
    | cons r rs =>
      have hr := hsome r List.mem_cons_self
      have hrest := ih rs (Nat.succ.inj hlen) fun r' hr' => hsome r' (List.mem_cons_of_mem r hr')
      rw [latest, lastValue_cons, hrest, hr]
      simp only [and_true]

theorem lookup_run_empty {cs : List (κ × ν)} (hroom : cs.length ≤ cap) (k : κ) :
    (run step cs (empty cap : SlotMap κ ν cap)).2.lookup k = lastValue k cs := by
  have hsome := isSome_of_mem_run (show (empty cap : SlotMap κ ν cap).entries.length + cs.length ≤
    cap by rw [empty, List.length_nil, Nat.zero_add]; exact hroom)
  rw [lookup_run, latest_of_isSome k cs _ (length_run cs _) hsome]
  exact Option.or_none

end SlotMap

end MiniHaywire
