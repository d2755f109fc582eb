import Mathlib.Data.List.DropRight
import MiniHaywire.Numeral

/-!
# Text and slices in Python

The methods of `str` on ASCII text, `int(text, 16)`, the conversion `%0wx`, and ranges and
slices with a step.

What is proved about them is how reading undoes writing: lines that hold no line break
come back from `splitlines`, a field comes back from `split` if it does not hold the
separator, a number comes back from its hexadecimal digits, and a list comes back from
its slices.
-/

namespace MiniHaywire.PyText

open Numeral

abbrev Text := List Char

/-! ### Slices -/

section Slices

variable {α β : Type}

/-- `range(0, stop, step)`, for a positive step. -/
def range (stop step : Nat) : List Nat := List.range' 0 ((stop + step - 1) / step) step

def slice (s : List α) (i j : Nat) : List α := (s.drop i).take (j - i)

/-- The first `n` pieces of length `k`. -/
def chunks (k : Nat) : Nat → List α → List (List α)
  | 0, _ => []
  | n + 1, s => s.take k :: chunks k n (s.drop k)

theorem slices_eq_chunks (s : List α) (k n i : Nat) :
    (List.range' i n k).map (fun j => slice s j (j + k)) = chunks k n (s.drop i) := by
  induction n generalizing i with
  | zero => rfl
  | succ n ih =>
    rw [List.range'_succ, List.map_cons, ih, chunks, slice, Nat.add_sub_cancel_left, List.drop_drop]

theorem flatten_chunks (k n : Nat) (s : List α) : (chunks k n s).flatten = s.take (k * n) := by
  induction n generalizing s with
  | zero => simp [chunks]
  | succ n ih =>
    rw [chunks, List.flatten_cons, ih, Nat.mul_succ, Nat.add_comm, List.take_add]

theorem chunks_flatMap {k : Nat} {f : β → List α} (hf : ∀ x, (f x).length = k) (xs : List β) :
    chunks k xs.length (xs.flatMap f) = xs.map f := by
  induction xs with
  | nil => rfl
  | cons x xs ih =>
    rw [List.length_cons, chunks, List.flatMap_cons, List.take_left' (hf x), List.drop_left' (hf x),
      ih, List.map_cons]

theorem le_mul_count (stop : Nat) {step : Nat} (h : 0 < step) :
    stop ≤ step * ((stop + step - 1) / step) := by
  have hdiv := Nat.div_add_mod (stop + step - 1) step
  have hmod := Nat.mod_lt (stop + step - 1) h
  omega

theorem lt_of_mem_range {stop step i : Nat} (h : 0 < step) (hi : i ∈ range stop step) :
    i < stop := by
  obtain ⟨j, hj, rfl⟩ := List.mem_range'.mp hi
  have hle : (j + 1) * step ≤ stop + step - 1 :=
    (Nat.mul_le_mul_right step hj).trans (Nat.div_mul_le_self _ _)
  rw [Nat.succ_mul, Nat.mul_comm] at hle
  omega

theorem flatten_slices {s : List α} {stop step : Nat} (h : 0 < step) (hs : s.length ≤ stop) :
    ((range stop step).map fun i => slice s i (i + step)).flatten = s := by
  have hle := le_mul_count stop h
  rw [range, slices_eq_chunks, flatten_chunks, List.drop_zero, List.take_of_length_le (by omega)]

end Slices

/-! ### Methods of `str` -/

/-- `str.isspace`, for one character. -/
def isSpace (c : Char) : Bool :=
  (0x09 ≤ c.toNat ∧ c.toNat ≤ 0x0d) ∨ (0x1c ≤ c.toNat ∧ c.toNat ≤ 0x20)

def strip (t : Text) : Text := (t.dropWhile isSpace).rdropWhile isSpace

/-- The characters at which `splitlines` cuts. -/
def isBreak (c : Char) : Bool :=
  (0x0a ≤ c.toNat ∧ c.toNat ≤ 0x0d) ∨ (0x1c ≤ c.toNat ∧ c.toNat ≤ 0x1e)

/-- `splitlines`, behind the part `cur` of a line; `cr` tells that a carriage return was cut at,
    with which a line feed makes up one break. -/
def splitlinesFrom : Bool → Text → Text → List Text
  | _, cur, [] => if cur = [] then [] else [cur]
  | cr, cur, c :: rest =>
    if cr ∧ c = '\n' then splitlinesFrom false [] rest
    else if isBreak c then cur :: splitlinesFrom (c = '\r') [] rest
    else splitlinesFrom false (cur ++ [c]) rest

def splitlines (t : Text) : List Text := splitlinesFrom false [] t

def split (sep : Char) : Nat → Text → List Text
  | 0, t => [t]
  | n + 1, t =>
    match t.span (· ≠ sep) with
    | (_, []) => [t]
    | (first, _ :: rest) => first :: split sep n rest

def remove (c : Char) (t : Text) : Text := t.filter (· ≠ c)

def ljust (n : Nat) (t : Text) : Text := t ++ List.replicate (n - t.length) ' '

def printed (lines : List Text) : Text := lines.flatMap (· ++ ['\n'])

theorem strip_of_ends {t : Text} (hhead : ∀ c ∈ t.head?, isSpace c = false)
    (hlast : ∀ c ∈ t.getLast?, isSpace c = false) : strip t = t := by
  have hdrop : t.dropWhile isSpace = t := by
    cases t with
    | nil => rfl
    | cons c t => rw [List.dropWhile_cons_of_neg (by simp [hhead c (by simp)])]
  rw [strip, hdrop, List.rdropWhile_eq_self_iff]
  intro hne
  rw [hlast _ (List.getLast?_eq_getLast_of_ne_nil hne)]
  simp

/-- A line that prints something at both of its ends, and no break. -/
structure Solid (line : Text) : Prop where
  ne_nil : line ≠ []
  head : ∀ c ∈ line.head?, isSpace c = false
  last : ∀ c ∈ line.getLast?, isSpace c = false
  unbroken : ∀ c ∈ line, isBreak c = false

theorem Solid.strip_eq {line : Text} (h : Solid line) : strip line = line :=
  strip_of_ends h.head h.last

theorem printed_concat (lines : List Text) (line : Text) :
    printed (lines ++ [line]) = printed lines ++ line ++ ['\n'] := by
  simp [printed]

theorem splitlinesFrom_append {line : Text} (h : ∀ c ∈ line, isBreak c = false) (cur rest : Text) :
    splitlinesFrom false cur (line ++ rest) = splitlinesFrom false (cur ++ line) rest := by
  induction line generalizing cur with
  | nil => simp
  | cons c line ih =>
    have hc : isBreak c = false := h c (by simp)
    rw [List.cons_append, splitlinesFrom, if_neg (by simp), if_neg (by simp [hc]),
      ih (fun d hd => h d (by simp [hd])), List.append_assoc, List.singleton_append]

theorem splitlines_printed {lines : List Text} (h : ∀ line ∈ lines, Solid line) {last : Text}
    (hlast : Solid last) : splitlines (printed lines ++ last) = lines ++ [last] := by
  unfold splitlines
  induction lines with
  | nil =>
    have hend := splitlinesFrom_append hlast.unbroken [] []
    rw [List.append_nil, List.nil_append, splitlinesFrom, if_neg hlast.ne_nil] at hend
    exact hend
  | cons line lines ih =>
    have hline := (h line (by simp)).unbroken
    have hbreak : isBreak '\n' = true := by decide
    rw [printed, List.flatMap_cons, List.append_assoc, List.append_assoc,
      splitlinesFrom_append hline, List.singleton_append, splitlinesFrom, if_neg (by simp),
      if_pos hbreak, List.nil_append]
    exact congrArg (line :: ·) (ih fun l hl => h l (by simp [hl]))

theorem splitlines_strip_printed {lines : List Text} (h : ∀ line ∈ lines, Solid line) :
    splitlines (strip (printed lines)) = lines := by
  rcases List.eq_nil_or_concat lines with rfl | ⟨lines, last, rfl⟩
  · rfl
  simp only [List.concat_eq_append] at h ⊢
  have hlast := h last (by simp)
  have hfirst : ∀ c ∈ (printed lines ++ last).head?, isSpace c = false := by
    intro c hc
    cases lines with
    | nil => exact hlast.head c hc
    | cons line lines =>
      have hline := h line (by simp)
      rw [printed, List.flatMap_cons, List.append_assoc, List.append_assoc,
        List.head?_append_of_ne_nil _ hline.ne_nil] at hc
      exact hline.head c hc
  have hbody : strip (printed lines ++ last) = printed lines ++ last := by
    refine strip_of_ends hfirst fun c hc => hlast.last c ?_
    rwa [List.getLast?_append_of_ne_nil _ hlast.ne_nil] at hc
  have hstrip : strip (printed (lines ++ [last])) = strip (printed lines ++ last) := by
    have hne : printed lines ++ last ≠ [] := by simp [hlast.ne_nil]
    obtain ⟨c, t, hcons⟩ := List.exists_cons_of_ne_nil hne
    have hc : isSpace c = false := hfirst c (by rw [hcons]; rfl)
    have hspace : isSpace '\n' = true := by decide
    rw [printed_concat, strip, strip, hcons, List.cons_append,
      List.dropWhile_cons_of_neg (by simp [hc]),
      List.dropWhile_cons_of_neg (by simp [hc]), ← List.cons_append, List.rdropWhile_concat,
      if_pos hspace]
  rw [hstrip, hbody, splitlines_printed (fun line hline => h line (by simp [hline])) hlast]

theorem split_of_not_mem {sep : Char} {t : Text} (h : sep ∉ t) (n : Nat) : split sep n t = [t] := by
  have hall : ∀ c ∈ t, decide (c ≠ sep) = true := by
    intro c hc
    exact decide_eq_true fun heq => h (heq ▸ hc)
  cases n with
  | zero => rfl
  | succ n =>
    have hrest : t.dropWhile (fun c => decide (c ≠ sep)) = [] := by
      simpa using hall
    rw [split, List.span_eq_takeWhile_dropWhile, hrest]

theorem split_append {sep : Char} {first : Text} (h : sep ∉ first) (n : Nat) (rest : Text) :
    split sep (n + 1) (first ++ sep :: rest) = first :: split sep n rest := by
  have hall : ∀ c ∈ first, decide (c ≠ sep) = true := by
    intro c hc
    exact decide_eq_true fun heq => h (heq ▸ hc)
  rw [split, List.span_eq_takeWhile_dropWhile, List.takeWhile_append_of_pos hall,
    List.dropWhile_append_of_pos hall, List.takeWhile_cons_of_neg (by simp),
    List.dropWhile_cons_of_neg (by simp), List.append_nil]

theorem remove_append (c : Char) (t t' : Text) : remove c (t ++ t') = remove c t ++ remove c t' :=
  List.filter_append ..

theorem remove_of_not_mem {c : Char} {t : Text} (h : c ∉ t) : remove c t = t := by
  rw [remove, List.filter_eq_self]
  intro d hd
  exact decide_eq_true fun heq => h (heq ▸ hd)

theorem remove_ljust (n : Nat) (t : Text) : remove ' ' (ljust n t) = remove ' ' t := by
  rw [ljust, remove_append, remove, remove, List.filter_replicate_of_neg (by simp), List.append_nil]

theorem remove_intercalate {sep : Text} (hsep : remove ' ' sep = []) (parts : List Text) :
    remove ' ' (sep.intercalate parts) = parts.flatMap (remove ' ') := by
  induction parts with
  | nil => rfl
  | cons part parts ih =>
    cases parts with
    | nil => simp
    | cons part' parts =>
      rw [List.intercalate_cons_cons, remove_append, remove_append, hsep, ih, List.append_nil]
      rfl

/-! ### Hexadecimal numbers -/

/-- The value of a digit in base 16. -/
def digitValue (c : Char) : Option Nat :=
  if 0x30 ≤ c.toNat ∧ c.toNat ≤ 0x39 then some (c.toNat - 0x30)
  else if 0x61 ≤ c.toNat ∧ c.toNat ≤ 0x66 then some (c.toNat - 0x61 + 10)
  else if 0x41 ≤ c.toNat ∧ c.toNat ≤ 0x46 then some (c.toNat - 0x41 + 10)
  else none

def value (t : Text) : Nat := (t.filterMap digitValue).foldl (fun n d => 16 * n + d) 0

/-- Groups of digits with one underscore between each two of them. -/
def digitGroups (t : Text) : Option Nat :=
  if (split '_' t.length t).all fun group =>
      group ≠ [] && group.all fun c => (digitValue c).isSome then
    some (value t)
  else none

/-- What stands behind the sign: the prefix `0x` may come first, with an underscore behind it. -/
def unsigned16 : Text → Option Nat
  | '0' :: x :: t =>
    if x = 'x' ∨ x = 'X' then digitGroups (if t.head? = some '_' then t.tail else t)
    else digitGroups ('0' :: x :: t)
  | t => digitGroups t

/-- The blanks that `int` takes around a number. -/
def isBlank (c : Char) : Bool := (0x09 ≤ c.toNat ∧ c.toNat ≤ 0x0d) ∨ c.toNat = 0x20

/-- `int(t, 16)`; `none` is its `ValueError`. -/
def int16 (t : Text) : Option Int :=
  match (t.dropWhile isBlank).rdropWhile isBlank with
  | '-' :: t => (unsigned16 t).map fun n => -(n : Int)
  | '+' :: t => (unsigned16 t).map Int.ofNat
  | t => (unsigned16 t).map Int.ofNat

/-- The hexadecimal digits of a number. -/
def hexDigits (n : Nat) : Text := (numeral 16 n).map Nat.digitChar

def formatHex (w : Nat) (n : Int) : Text :=
  let digits := hexDigits n.natAbs
  if n < 0 then '-' :: (List.replicate (w - 1 - digits.length) '0' ++ digits)
  else List.replicate (w - digits.length) '0' ++ digits

def Digits (t : Text) : Prop := ∀ c ∈ t, (digitValue c).isSome

theorem digitValue_digitChar {d : Nat} (h : d < 16) : digitValue (Nat.digitChar d) = some d := by
  interval_cases d <;> rfl

theorem Digits.ne {t : Text} (h : Digits t) {c d : Char} (hc : c ∈ t) (hd : digitValue d = none) :
    c ≠ d := by
  rintro rfl
  have hsome := h c hc
  rw [hd] at hsome
  cases hsome

theorem Digits.not_mem {t : Text} (h : Digits t) {d : Char} (hd : digitValue d = none) : d ∉ t :=
  fun hmem => h.ne hmem hd rfl

theorem not_space_of_digit {c : Char} (h : (digitValue c).isSome) :
    isSpace c = false ∧ isBreak c = false ∧ isBlank c = false := by
  have hge : 0x30 ≤ c.toNat := by
    unfold digitValue at h
    split at h
    · omega
    split at h
    · omega
    split at h
    · omega
    · cases h
  simp only [isSpace, isBreak, isBlank, decide_eq_false_iff_not]
  omega

theorem Digits.digitGroups_eq {t : Text} (h : Digits t) (hne : t ≠ []) :
    digitGroups t = some (value t) := by
  have hgroup : (t.all fun c => (digitValue c).isSome) = true := List.all_eq_true.mpr h
  rw [digitGroups, split_of_not_mem (h.not_mem rfl)]
  simp [hne, hgroup]

theorem Digits.unsigned16_eq {t : Text} (h : Digits t) (hne : t ≠ []) :
    unsigned16 t = some (value t) := by
  unfold unsigned16
  split
  · next x t =>
    have hx : ¬ (x = 'x' ∨ x = 'X') := by
      rintro (hx | hx)
      · exact h.ne (by simp) rfl hx
      · exact h.ne (by simp) rfl hx
    rw [if_neg hx, h.digitGroups_eq hne]
  · exact h.digitGroups_eq hne

theorem Digits.int16_eq {t : Text} (h : Digits t) (hne : t ≠ []) :
    int16 t = some (value t : Int) := by
  obtain ⟨c, u, hcons⟩ := List.exists_cons_of_ne_nil hne
  have hblank : ∀ d ∈ t, isBlank d = false := fun d hd => (not_space_of_digit (h d hd)).2.2
  have hfirst : t.dropWhile isBlank = t := by
    rw [hcons, List.dropWhile_cons_of_neg (by simp [hblank c (by simp [hcons])])]
  have hlast : t.rdropWhile isBlank = t := by
    rw [List.rdropWhile_eq_self_iff]
    intro hne
    simp [hblank _ (List.getLast_mem hne)]
  have hc : c ∈ t := by simp [hcons]
  rw [int16, hfirst, hlast, hcons]
  split
  · next heq => exact absurd (List.cons.inj heq).1 (h.ne hc rfl)
  · next heq => exact absurd (List.cons.inj heq).1 (h.ne hc rfl)
  · rw [← hcons, h.unsigned16_eq hne]
    rfl

theorem foldl_eq_ofDigits (ds : List Nat) :
    ds.foldl (fun n d => 16 * n + d) 0 = Nat.ofDigits 16 ds.reverse := by
  induction ds using List.reverseRecOn with
  | nil => rfl
  | append_singleton ds d ih =>
    rw [List.foldl_append, ih, List.reverse_concat, Nat.ofDigits_cons, List.foldl_cons,
      List.foldl_nil, Nat.add_comm]

theorem formatHex_natCast (w n : Nat) :
    formatHex w n = List.replicate (w - (hexDigits n).length) '0' ++ hexDigits n := by
  rw [formatHex, if_neg (by omega), Int.natAbs_natCast]

theorem filterMap_hexDigits (n : Nat) : (hexDigits n).filterMap digitValue = numeral 16 n := by
  rw [hexDigits, List.filterMap_map]
  conv_rhs => rw [← List.filterMap_some (l := numeral 16 n)]
  apply List.filterMap_congr
  intro d hd
  exact digitValue_digitChar (numeral_lt (by omega) hd)

theorem digits_formatHex (w n : Nat) : Digits (formatHex w n) := by
  intro c hc
  rw [formatHex_natCast, List.mem_append] at hc
  rcases hc with hzero | hdigit
  · rw [List.eq_of_mem_replicate hzero]
    rfl
  · obtain ⟨d, hd, rfl⟩ := List.mem_map.mp hdigit
    rw [digitValue_digitChar (numeral_lt (by omega) hd)]
    rfl

theorem formatHex_ne_nil (w n : Nat) : formatHex w n ≠ [] := by
  rw [formatHex_natCast]
  simp [hexDigits, numeral_ne_nil]

theorem value_formatHex (w n : Nat) : value (formatHex w n) = n := by
  have hzeros : ∀ k : Nat, (List.replicate k '0').filterMap digitValue = List.replicate k 0 := by
    intro k
    exact List.filterMap_replicate_of_some rfl
  have hlead : ∀ k : Nat, (List.replicate k 0).foldl (fun n d => 16 * n + d) 0 = 0 := by
    intro k
    induction k with
    | zero => rfl
    | succ k ih => rw [List.replicate_succ, List.foldl_cons, ih]
  rw [formatHex_natCast, value, List.filterMap_append, hzeros, List.foldl_append, hlead,
    filterMap_hexDigits, foldl_eq_ofDigits, ofDigits_numeral]

theorem int16_formatHex (w n : Nat) : int16 (formatHex w n) = some (n : Int) := by
  rw [(digits_formatHex w n).int16_eq (formatHex_ne_nil w n), value_formatHex]

theorem length_formatHex {w n : Nat} (hw : 0 < w) (hn : n < 16 ^ w) :
    (formatHex w n).length = w := by
  have hle := length_numeral_le (b := 16) (by omega) hw hn
  rw [formatHex_natCast, List.length_append, List.length_replicate, hexDigits, List.length_map]
  omega

end MiniHaywire.PyText
