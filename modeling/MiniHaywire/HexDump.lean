import MiniHaywire.Bytes
import MiniHaywire.PyText

/-!
# Hex dumps

`chexdump` prints a byte string in rows; with `abbreviate`, a run of rows that repeat the
one before is printed as a single `*`.  `chexundump` reads such a dump.  It passes over a
`*`, and puts zeros where the offset of the next row leaves room.

Line by line, reading gives back the bytes of each row that was printed in full
(`chexundumpLine_row`).  What is left of a whole dump is `recovered`: repeated rows come
back as zeros if a row is printed behind them, and not at all otherwise.  So a byte string
comes back exactly if every row that repeats the one before is zero and is not the last
one (`hexdump_round_trip_iff`).
-/

namespace MiniHaywire.HexDump

open PyText

/-! ### The dump -/

def hexdump (s : List Byte) (sep : Text) : Text :=
  sep.intercalate (s.map fun x => formatHex 2 (x.toNat : Nat))

def ascii (s : List Byte) : Text :=
  s.map fun c => if c.toNat < 0x20 ∨ c.toNat > 0x7e then '.' else Char.ofNat c.toNat

/-- The bytes of a row, in columns of eight. -/
def hexColumns (stride : Nat) (val : List Byte) : Text :=
  [' ', ' '].intercalate ((range stride 8).map fun i =>
    PyText.ljust 23 (hexdump (slice val i (i + 8)) [' ']))

def starLine (indent : Text) (offset : Int) : Text :=
  indent ++ formatHex 8 offset ++ [' ', ' ', '*']

def rowLine (indent : Text) (stride : Nat) (offset : Int) (val : List Byte) : Text :=
  indent ++ formatHex 8 offset ++ [' ', ' '] ++ hexColumns stride val ++ [' ', ' ', '|'] ++
    PyText.ljust stride (ascii val) ++ ['|']

/-- The loop of `chexdump`: the lines that it prints. -/
def chexdumpLoop (s : List Byte) (st : Int) (abbreviate : Bool) (stride : Nat) (indent : Text) :
    Option (List Byte) → Bool → List Nat → List Text
  | _, _, [] => []
  | last, skip, i :: is =>
    let val := slice s i (i + stride)
    if some val = last ∧ abbreviate then
      if skip then chexdumpLoop s st abbreviate stride indent last skip is
      else starLine indent (i + st) :: chexdumpLoop s st abbreviate stride indent last true is
    else rowLine indent stride (i + st) val ::
      chexdumpLoop s st abbreviate stride indent (some val) false is

/-- `chexdump`, with the lines that it hands to `print_fn`.  A range does not take a step of zero,
    and is empty for a negative one. -/
def chexdump (s : List Byte) (st : Int) (abbreviate : Bool) (stride : Int) (indent : Text) :
    Option (List Text) :=
  if stride = 0 then none
  else if stride < 0 then some []
  else some (chexdumpLoop s st abbreviate stride.toNat indent none false
    (range s.length stride.toNat))

/-! ### Reading a dump -/

/-- What `chexundump` takes. -/
inductive Dump where
  | bytes (dump : List Byte)
  | str (dump : Text)
  | file (content : Text)
deriving DecidableEq

/-- The text of a dump: bytes are decoded as ASCII, a file is read. -/
def Dump.text : Dump → Option Text
  | .bytes dump =>
    if dump.all fun b => b.toNat < 0x80 then some (dump.map fun b => Char.ofNat b.toNat) else none
  | .str dump => some dump
  | .file content => some content

def byte (t : Text) : Option Byte := do
  let n ← int16 t
  if 0 ≤ n ∧ n < 256 then some (BitVec.ofInt 8 n) else none

/-- What the two fields of a line add to the decoded bytes.  The list of zeros is empty if the
    number of them is negative. -/
def chexundumpFields (base : Int) (decoded : List Byte) (mark data : Text) : Option (List Byte) :=
  if strip data = ['*'] then some decoded
  else do
    let offset ← int16 mark
    let data := remove ' ' data
    if data.length % 2 ≠ 0 then none
    else
      let gap : List Byte :=
        if offset > decoded.length then List.replicate (offset - decoded.length - base).toNat 0
        else []
      let bytes ← (range data.length 2).mapM fun i => byte (slice data i (i + 2))
      some (decoded ++ gap ++ bytes)

/-- What one line adds to the decoded bytes.  `none` is a `ValueError`: the one of the line is
    passed on as another one, either by the `raise` or by its message, since a `str` has no
    format code `r`. -/
def chexundumpLine (base : Int) (decoded : List Byte) (line : Text) : Option (List Byte) :=
  if line = [] then some decoded
  else
    match split ' ' 1 ((split '|' 2 (strip line)).headD []) with
    | [mark, data] => chexundumpFields base decoded mark data
    | _ => none

def chexundump (dump : Dump) (base : Int) : Option (List Byte) := do
  let text ← dump.text
  (splitlines (strip text)).foldlM (chexundumpLine base) []

/-! ### The columns -/

abbrev digits (x : Byte) : Text := formatHex 2 (x.toNat : Nat)

theorem length_digits (x : Byte) : (digits x).length = 2 := length_formatHex (by omega) x.isLt

theorem byte_digits (x : Byte) : byte (digits x) = some x := by
  have hlt := x.isLt
  have hx : BitVec.ofInt 8 (x.toNat : Int) = x := by
    rw [BitVec.ofInt_natCast, BitVec.ofNat_toNat, BitVec.setWidth_eq]
  rw [byte, int16_formatHex, Option.bind_eq_bind, Option.bind_some, if_pos (by omega), hx]

def Column (c : Char) : Prop := c = ' ' ∨ (digitValue c).isSome

theorem forall_mem_intercalate {P : Char → Prop} {sep : Text} {parts : List Text}
    (hsep : ∀ c ∈ sep, P c) (hparts : ∀ part ∈ parts, ∀ c ∈ part, P c) :
    ∀ c ∈ sep.intercalate parts, P c := by
  induction parts with
  | nil => simp
  | cons part parts ih =>
    have hfirst := hparts part (by simp)
    have hrest := ih fun p hp => hparts p (by simp [hp])
    cases parts with
    | nil => simpa using hfirst
    | cons part' parts =>
      rw [List.intercalate_cons_cons]
      intro c hc
      simp only [List.mem_append] at hc
      rcases hc with (hc | hc) | hc
      · exact hfirst c hc
      · exact hsep c hc
      · exact hrest c hc

theorem column_hexColumns (stride : Nat) (val : List Byte) :
    ∀ c ∈ hexColumns stride val, Column c := by
  have hblank : ∀ c ∈ [' '], Column c := by
    intro c hc
    exact Or.inl (List.mem_singleton.mp hc)
  refine forall_mem_intercalate (fun c hc => ?_) fun part hpart => ?_
  · simp only [List.mem_cons, List.not_mem_nil, or_false, or_self] at hc
    exact Or.inl hc
  obtain ⟨i, -, rfl⟩ := List.mem_map.mp hpart
  intro c hc
  rcases List.mem_append.mp hc with hc | hc
  · refine forall_mem_intercalate hblank (fun part hpart d hd => ?_) c hc
    obtain ⟨x, -, rfl⟩ := List.mem_map.mp hpart
    exact Or.inr (digits_formatHex 2 x.toNat d hd)
  · exact Or.inl (List.eq_of_mem_replicate hc)

theorem remove_hexdump (s : List Byte) : remove ' ' (hexdump s [' ']) = s.flatMap digits := by
  have hdigits : ∀ x : Byte, remove ' ' (digits x) = digits x := fun x =>
    remove_of_not_mem ((digits_formatHex 2 x.toNat).not_mem rfl)
  rw [hexdump, remove_intercalate rfl, List.flatMap_map]
  simp only [hdigits]

theorem remove_hexColumns {stride : Nat} {val : List Byte} (h : val.length ≤ stride) :
    remove ' ' (hexColumns stride val) = val.flatMap digits := by
  have hslices := flatten_slices (show 0 < 8 by omega) h
  rw [hexColumns, remove_intercalate rfl, List.flatMap_map]
  simp only [remove_ljust, remove_hexdump]
  conv_rhs => rw [← hslices]
  rw [← List.flatMap_def, List.flatMap_assoc]

theorem slices_digits (val : List Byte) :
    (range (val.flatMap digits).length 2).map (fun i => slice (val.flatMap digits) i (i + 2)) =
      val.map digits := by
  have hlen : (val.flatMap digits).length = 2 * val.length := by
    simp [List.length_flatMap, length_digits, Nat.mul_comm]
  have hcount : (2 * val.length + 2 - 1) / 2 = val.length := by omega
  rw [range, slices_eq_chunks, List.drop_zero, hlen, hcount, chunks_flatMap length_digits]

theorem mapM_byte_digits (val : List Byte) :
    (range (val.flatMap digits).length 2).mapM
      (fun i => byte (slice (val.flatMap digits) i (i + 2))) = some val := by
  have hmap := List.mapM_map (m := Option) (f := fun i => slice (val.flatMap digits) i (i + 2))
    (g := byte) (l := range (val.flatMap digits).length 2)
  rw [slices_digits, List.mapM_map] at hmap
  have hbyte : byte ∘ digits = some := funext byte_digits
  rw [hbyte] at hmap
  have hpure := List.mapM_pure (m := Option) (l := val) (f := id)
  rw [List.map_id] at hpure
  exact hmap.symm.trans hpure

/-! ### The lines -/

section Lines

variable (stride n : Nat) (val : List Byte)

theorem rowLine_eq : rowLine [] stride n val =
    formatHex 8 n ++ ' ' :: (' ' :: hexColumns stride val ++ [' ', ' ']) ++
      '|' :: (PyText.ljust stride (ascii val) ++ ['|']) := by
  simp [rowLine]

theorem starLine_eq : starLine [] n = formatHex 8 n ++ ' ' :: [' ', '*'] := rfl

theorem Column.ne {c d : Char} (h : Column c) (hd : d ≠ ' ') (hvalue : digitValue d = none) :
    c ≠ d := by
  rintro rfl
  rcases h with rfl | hdigit
  · exact hd rfl
  · rw [hvalue] at hdigit
    cases hdigit

theorem Column.unbroken {c : Char} (h : Column c) : isBreak c = false := by
  rcases h with rfl | hdigit
  · decide
  · exact (not_space_of_digit hdigit).2.1

theorem column_data : ∀ c ∈ ' ' :: hexColumns stride val ++ [' ', ' '], Column c := by
  intro c hc
  simp only [List.mem_append, List.mem_cons, List.not_mem_nil, or_false] at hc
  rcases hc with (hc | hc) | hc | hc
  · exact Or.inl hc
  · exact column_hexColumns stride val c hc
  · exact Or.inl hc
  · exact Or.inl hc

theorem unbroken_ascii : ∀ c ∈ PyText.ljust stride (ascii val), isBreak c = false := by
  intro c hc
  rcases List.mem_append.mp hc with hc | hc
  · obtain ⟨b, -, rfl⟩ := List.mem_map.mp hc
    split
    · decide
    · next hb =>
      have hvalid : b.toNat.isValidChar := Or.inl (by omega)
      have hcode : (Char.ofNat b.toNat).toNat = b.toNat := by
        rw [Char.ofNat, dif_pos hvalid]
        rfl
      rw [isBreak, hcode, decide_eq_false_iff_not]
      omega
  · rw [List.eq_of_mem_replicate hc]
    decide

theorem solid_of_mark (rest : Text) {c : Char} (hrest : ∀ d ∈ rest, isBreak d = false)
    (hspace : isSpace c = false) (hbreak : isBreak c = false) :
    Solid (formatHex 8 n ++ rest ++ [c]) := by
  have hmark := digits_formatHex 8 n
  refine ⟨by simp, ?_, ?_, ?_⟩
  · intro d hd
    rw [List.append_assoc, List.head?_append_of_ne_nil _ (formatHex_ne_nil 8 n)] at hd
    exact (not_space_of_digit (hmark d (List.mem_of_mem_head? hd))).1
  · intro d hd
    rw [List.getLast?_concat, Option.mem_some_iff] at hd
    exact hd ▸ hspace
  · intro d hd
    simp only [List.mem_append, List.mem_singleton] at hd
    rcases hd with (hd | hd) | rfl
    · exact (not_space_of_digit (hmark d hd)).2.1
    · exact hrest d hd
    · exact hbreak

theorem solid_starLine : Solid (starLine [] n) := by
  have hline := solid_of_mark n [' ', ' '] (c := '*') (by simp [isBreak]) (by decide)
    (by decide)
  rw [List.append_assoc] at hline
  exact hline

theorem solid_rowLine : Solid (rowLine [] stride n val) := by
  have hrest : ∀ d ∈ ' ' :: (' ' :: hexColumns stride val ++ [' ', ' ']) ++
      '|' :: PyText.ljust stride (ascii val), isBreak d = false := by
    intro d hd
    rcases List.mem_append.mp hd with hd | hd
    · rcases List.mem_cons.mp hd with rfl | hd
      · decide
      · exact (column_data stride val d hd).unbroken
    · rcases List.mem_cons.mp hd with rfl | hd
      · decide
      · exact unbroken_ascii stride val d hd
  have hline := solid_of_mark n _ hrest (c := '|') (by decide) (by decide)
  rw [rowLine_eq]
  simpa using hline

end Lines

/-! ### Reading a line -/

section Reading

variable (base n stride : Nat) (decoded val : List Byte)

theorem chexundumpLine_of_fields {line mark data : Text} {base : Int} (hline : Solid line)
    (hcrop : (split '|' 2 line).headD [] = mark ++ ' ' :: data) (hmark : ' ' ∉ mark) :
    chexundumpLine base decoded line = chexundumpFields base decoded mark data := by
  rw [chexundumpLine, if_neg hline.ne_nil, hline.strip_eq, hcrop, split_append hmark]
  rfl

theorem chexundumpLine_star : chexundumpLine base decoded (starLine [] n) = some decoded := by
  have hmark := digits_formatHex 8 n
  have hbar : '|' ∉ starLine [] n := by
    rw [starLine_eq]
    simp [hmark.not_mem (d := '|') rfl]
  rw [chexundumpLine_of_fields decoded (solid_starLine n)
    (by rw [split_of_not_mem hbar]; exact starLine_eq n) (hmark.not_mem rfl), chexundumpFields]
  exact if_pos (by decide)

theorem strip_data_ne : strip (' ' :: hexColumns stride val ++ [' ', ' ']) ≠ ['*'] := by
  intro heq
  have hmem : '*' ∈ strip (' ' :: hexColumns stride val ++ [' ', ' ']) := by
    rw [heq]
    exact List.mem_singleton_self _
  have hdata := (List.dropWhile_sublist _).mem ((List.rdropWhile_prefix _ _).sublist.mem hmem)
  exact (column_data stride val '*' hdata).ne (by decide) rfl rfl

theorem remove_data (h : val.length ≤ stride) :
    remove ' ' (' ' :: hexColumns stride val ++ [' ', ' ']) = val.flatMap digits := by
  rw [← remove_hexColumns h, ← List.singleton_append, remove_append, remove_append]
  simp [remove]

/-- The gap in front of a row is filled with zeros, and the row comes back. -/
theorem chexundumpLine_row (h : val.length ≤ stride) :
    chexundumpLine base decoded (rowLine [] stride (n + base : Nat) val) =
      some (decoded ++ List.replicate (n - decoded.length) 0 ++ val) := by
  have hmark := digits_formatHex 8 (n + base)
  have hbar : '|' ∉ formatHex 8 (n + base : Nat) ++ ' ' ::
      (' ' :: hexColumns stride val ++ [' ', ' ']) := by
    intro hmem
    rcases List.mem_append.mp hmem with hmem | hmem
    · exact hmark.not_mem rfl hmem
    · rcases List.mem_cons.mp hmem with hmem | hmem
      · cases hmem
      · exact (column_data stride val '|' hmem).ne (by decide) rfl rfl
  have hcrop : (split '|' 2 (rowLine [] stride (n + base : Nat) val)).headD [] =
      formatHex 8 (n + base : Nat) ++ ' ' :: (' ' :: hexColumns stride val ++ [' ', ' ']) := by
    rw [rowLine_eq, split_append hbar]
    rfl
  have heven : (val.flatMap digits).length % 2 = 0 := by
    simp [List.length_flatMap, length_digits]
  have hgap : (if ((n + base : Nat) : Int) > decoded.length then
      List.replicate (((n + base : Nat) : Int) - decoded.length - base).toNat (0 : Byte) else []) =
      List.replicate (n - decoded.length) 0 := by
    split
    · have hcount : (((n + base : Nat) : Int) - decoded.length - base).toNat =
          n - decoded.length := by
        omega
      rw [hcount]
    · rw [show n - decoded.length = 0 by omega, List.replicate_zero]
  rw [chexundumpLine_of_fields decoded (solid_rowLine stride (n + base) val) hcrop
    (hmark.not_mem rfl),
    chexundumpFields, if_neg (strip_data_ne stride val), int16_formatHex, remove_data stride val h]
  simp only [Option.bind_eq_bind, Option.bind_some, heven, ne_eq, not_true_eq_false, if_false, hgap,
    mapM_byte_digits]

end Reading

/-! ### Reading a whole dump -/

def rows (stride : Nat) (s : List Byte) : List (List Byte) :=
  (range s.length stride).map fun i => slice s i (i + stride)

/-- What comes back of rows, behind a row `last` that was printed and `gap` bytes that were not. -/
def recovered (abbreviate : Bool) : Option (List Byte) → Nat → List (List Byte) → List Byte
  | _, _, [] => []
  | last, gap, row :: rows =>
    if some row = last ∧ abbreviate then recovered abbreviate last (gap + row.length) rows
    else List.replicate gap 0 ++ row ++ recovered abbreviate (some row) 0 rows

section Dump

variable (s : List Byte) (base stride : Nat) (abbreviate : Bool)

theorem solid_chexdumpLoop (is : List Nat) : ∀ (last : Option (List Byte)) (skip : Bool),
    ∀ line ∈ chexdumpLoop s base abbreviate stride [] last skip is, Solid line := by
  induction is with
  | nil =>
    intro last skip line hline
    cases hline
  | cons i is ih =>
    intro last skip line hline
    rw [chexdumpLoop, ← Nat.cast_add] at hline
    split at hline
    · split at hline
      · exact ih _ _ line hline
      · rcases List.mem_cons.mp hline with rfl | hline
        · exact solid_starLine _
        · exact ih _ _ line hline
    · rcases List.mem_cons.mp hline with rfl | hline
      · exact solid_rowLine ..
      · exact ih _ _ line hline

theorem length_slice_le (i : Nat) : (slice s i (i + stride)).length ≤ stride := by
  rw [slice, Nat.add_sub_cancel_left]
  exact List.length_take_le ..

def rowsFrom (i n : Nat) : List (List Byte) :=
  (List.range' i n stride).map fun j => slice s j (j + stride)

/-- A row is full if there is another one behind it, and only then the gap in front of that
    matters. -/
theorem recovered_rowsFrom {i n k k' : Nat} (last : Option (List Byte))
    (hfull : ∀ m, n = m + 1 → i + stride + stride * m ≤ s.length)
    (hgap : (slice s i (i + stride)).length = stride → k = k') :
    recovered abbreviate last k (rowsFrom s stride (i + stride) n) =
      recovered abbreviate last k' (rowsFrom s stride (i + stride) n) := by
  cases n with
  | zero => rfl
  | succ m =>
    have hle := hfull m rfl
    rw [hgap]
    rw [slice, Nat.add_sub_cancel_left, List.length_take, List.length_drop]
    omega

theorem foldlM_chexdumpLoop : ∀ (n i : Nat) (last : Option (List Byte)) (skip : Bool)
    (decoded : List Byte), decoded.length ≤ i → (∀ m, n = m + 1 → i + stride * m ≤ s.length) →
    (chexdumpLoop s base abbreviate stride [] last skip (List.range' i n stride)).foldlM
        (chexundumpLine base) decoded =
      some (decoded ++
        recovered abbreviate last (i - decoded.length) (rowsFrom s stride i n)) := by
  intro n
  induction n with
  | zero =>
    intro i last skip decoded _ _
    simp [chexdumpLoop, rowsFrom, recovered]
  | succ n ih =>
    intro i last skip decoded hlen hfull
    have hnext : ∀ m, n = m + 1 → i + stride + stride * m ≤ s.length := by
      intro m hm
      have hle := hfull n rfl
      rw [hm, Nat.mul_succ] at hle
      omega
    have hrows : rowsFrom s stride i (n + 1) =
        slice s i (i + stride) :: rowsFrom s stride (i + stride) n := by
      rw [rowsFrom, List.range'_succ, List.map_cons, rowsFrom]
    rw [hrows, List.range'_succ, chexdumpLoop, ← Nat.cast_add, recovered]
    split
    · -- the row is passed over, with a star if it is the first one of its run
      have hrest : ∀ skip, _ := fun skip => ih (i + stride) last skip decoded (by omega) hnext
      rw [recovered_rowsFrom s stride abbreviate last hnext
        (show _ → _ = i - decoded.length + (slice s i (i + stride)).length by omega)] at hrest
      split
      · exact hrest skip
      · rw [List.foldlM_cons, chexundumpLine_star]
        exact hrest true
    · have hval := length_slice_le s stride i
      have hlen' : (decoded ++ List.replicate (i - decoded.length) 0 ++
          slice s i (i + stride)).length = i + (slice s i (i + stride)).length := by
        simp only [List.length_append, List.length_replicate]
        omega
      have hrest := ih (i + stride) (some (slice s i (i + stride))) false
        (decoded ++ List.replicate (i - decoded.length) 0 ++ slice s i (i + stride))
        (by omega) hnext
      rw [recovered_rowsFrom s stride abbreviate _ hnext (show _ → _ = 0 by omega)] at hrest
      rw [List.foldlM_cons, chexundumpLine_row base i stride decoded _ hval]
      refine hrest.trans ?_
      simp only [List.append_assoc]

/-- With a positive stride the dump is printed, and this is what comes back of it. -/
theorem chexundump_chexdump {s : List Byte} {base stride : Nat} {abbreviate : Bool}
    (hstride : 0 < stride) {dump : Dump} {lines : List Text}
    (hlines : chexdump s base abbreviate stride [] = some lines)
    (hdump : dump.text = some (printed lines)) :
    chexundump dump base = some (recovered abbreviate none 0 (rows stride s)) := by
  rw [chexdump, if_neg (by omega), if_neg (by omega), Int.toNat_natCast,
    Option.some.injEq] at hlines
  subst hlines
  have hfull : ∀ m, (s.length + stride - 1) / stride = m + 1 → 0 + stride * m ≤ s.length := by
    intro m hm
    have hdiv := Nat.div_mul_le_self (s.length + stride - 1) stride
    rw [hm, Nat.succ_mul, Nat.mul_comm] at hdiv
    omega
  rw [chexundump, hdump, Option.bind_eq_bind, Option.bind_some,
    splitlines_strip_printed (solid_chexdumpLoop s base stride abbreviate _ none false)]
  exact foldlM_chexdumpLoop s base stride abbreviate ((s.length + stride - 1) / stride)
    0 none false [] (Nat.le_refl 0) hfull

end Dump

/-! ### When a byte string comes back -/

/-- Every row that repeats the one before is zero, and there is another row behind it. -/
def Recoverable : List (List Byte) → Prop
  | row :: row' :: rows =>
    (row = row' → (∀ b ∈ row, b = 0) ∧ rows ≠ []) ∧ Recoverable (row' :: rows)
  | _ => True

instance decidableRecoverable : (rows : List (List Byte)) → Decidable (Recoverable rows)
  | [] => inferInstanceAs (Decidable True)
  | [_] => inferInstanceAs (Decidable True)
  | row :: row' :: rows =>
    have := decidableRecoverable (row' :: rows)
    inferInstanceAs (Decidable ((row = row' → (∀ b ∈ row, b = 0) ∧ rows ≠ []) ∧
      Recoverable (row' :: rows)))

theorem recovered_all (last : Option (List Byte)) (rows : List (List Byte)) :
    recovered false last 0 rows = rows.flatten := by
  induction rows generalizing last with
  | nil => rfl
  | cons row rows ih =>
    rw [recovered, if_neg (by simp), ih, List.flatten_cons, List.replicate_zero, List.nil_append]

theorem flatten_replicate_eq_nil {last : List Byte} (hlast : last ≠ []) {n : Nat} :
    (List.replicate n last).flatten = [] ↔ n = 0 := by
  simp [List.flatten_eq_nil_iff, List.mem_replicate, hlast]

theorem zeros_eq_iff {last : List Byte} {n : Nat} :
    List.replicate (List.replicate n last).flatten.length 0 = (List.replicate n last).flatten ↔
      (n ≠ 0 → ∀ b ∈ last, b = 0) := by
  rw [eq_comm, List.eq_replicate_iff]
  simp only [true_and, List.mem_flatten, List.mem_replicate]
  constructor
  · intro h hn b hb
    exact h b ⟨last, ⟨hn, rfl⟩, hb⟩
  · rintro h b ⟨row, ⟨hn, rfl⟩, hb⟩
    exact h hn b hb

theorem append_row_inj (row : List Byte) {xs ys zs ws : List Byte} (hlen : xs.length = zs.length) :
    xs ++ (row ++ ys) = zs ++ (row ++ ws) ↔ xs = zs ∧ ys = ws := by
  constructor
  · intro h
    obtain ⟨hfirst, hlast⟩ := List.append_inj h hlen
    exact ⟨hfirst, List.append_cancel_left hlast⟩
  · rintro ⟨rfl, rfl⟩
    rfl

theorem recovered_eq_iff (rows : List (List Byte)) : ∀ (last : List Byte) (n : Nat), last ≠ [] →
    (∀ row ∈ rows, row ≠ []) →
    (recovered true (some last) (List.replicate n last).flatten.length rows =
        (List.replicate n last).flatten ++ rows.flatten ↔
      Recoverable (last :: rows) ∧ (n ≠ 0 → (∀ b ∈ last, b = 0) ∧ rows ≠ [])) := by
  induction rows with
  | nil =>
    intro last n hlast _
    rw [recovered, List.flatten_nil, List.append_nil, eq_comm, flatten_replicate_eq_nil hlast]
    constructor
    · intro hn
      exact ⟨trivial, fun hne => absurd hn hne⟩
    · rintro ⟨-, hpassed⟩
      by_contra hn
      exact (hpassed hn).2 rfl
  | cons row rows ih =>
    intro last n hlast hrows
    have hrow := hrows row (by simp)
    have hrest : ∀ r ∈ rows, r ≠ [] := fun r hr => hrows r (by simp [hr])
    rw [recovered, Recoverable, List.flatten_cons]
    by_cases heq : row = last
    · -- one more row is passed over
      subst heq
      have hmore : (List.replicate n row).flatten ++ row =
          (List.replicate (n + 1) row).flatten := by
        rw [List.replicate_succ', List.flatten_concat]
      have hnext := ih row (n + 1) hrow hrest
      rw [← hmore, List.length_append, List.append_assoc] at hnext
      rw [if_pos ⟨rfl, rfl⟩, hnext]
      constructor
      · rintro ⟨hrec, hzero⟩
        have hzero' := hzero (Nat.succ_ne_zero n)
        exact ⟨⟨fun _ => hzero', hrec⟩, fun _ => ⟨hzero'.1, by simp⟩⟩
      · rintro ⟨⟨hzero, hrec⟩, -⟩
        exact ⟨hrec, fun _ => hzero rfl⟩
    · -- the row is printed, behind zeros in the place of those that were not
      have hnext := ih row 0 hrow hrest
      rw [List.replicate_zero, List.flatten_nil, List.length_nil, List.nil_append] at hnext
      have hne : ¬ (some row = some last ∧ true = true) := fun h => heq (Option.some.inj h.1)
      rw [if_neg hne, List.append_assoc, append_row_inj row (by simp), zeros_eq_iff, hnext]
      constructor
      · rintro ⟨hzero, hrec, -⟩
        exact ⟨⟨fun hsame => absurd hsame.symm heq, hrec⟩, fun hn => ⟨hzero hn, by simp⟩⟩
      · rintro ⟨⟨-, hrec⟩, hzero⟩
        exact ⟨fun hn => (hzero hn).1, hrec, fun h => absurd rfl h⟩

theorem recovered_true_iff {rows : List (List Byte)} (h : ∀ row ∈ rows, row ≠ []) :
    recovered true none 0 rows = rows.flatten ↔ Recoverable rows := by
  cases rows with
  | nil => exact iff_of_true rfl trivial
  | cons first rest =>
    have hrest := recovered_eq_iff rest first 0 (h first (by simp)) fun r hr => h r (by simp [hr])
    rw [List.replicate_zero, List.flatten_nil, List.length_nil, List.nil_append] at hrest
    rw [recovered, if_neg (by simp), List.flatten_cons, List.replicate_zero, List.nil_append,
      List.append_right_inj, hrest]
    exact and_iff_left fun hne => absurd rfl hne

theorem flatten_rows {stride : Nat} (h : 0 < stride) (s : List Byte) :
    (rows stride s).flatten = s :=
  flatten_slices h (Nat.le_refl _)

theorem ne_nil_of_mem_rows {stride : Nat} (h : 0 < stride) {s row : List Byte}
    (hrow : row ∈ rows stride s) : row ≠ [] := by
  obtain ⟨i, hi, rfl⟩ := List.mem_map.mp hrow
  have hlt := lt_of_mem_range h hi
  apply List.ne_nil_of_length_pos
  rw [slice, List.length_take, List.length_drop]
  omega

/-- **Dumps round trip.** `chexundump` brings the bytes back that `chexdump` printed, exactly if
    the dump was not abbreviated, or if the rows that were left out are zero and none of them
    stands at the end. -/
theorem hexdump_round_trip_iff (s : List Byte) (base : Nat) (abbreviate : Bool) :
    ∃ lines, chexdump s base abbreviate 16 [] = some lines ∧
      ∀ dump : Dump, dump.text = some (printed lines) →
        (chexundump dump base = some s ↔ (abbreviate = true → Recoverable (rows 16 s))) := by
  refine ⟨_, rfl, fun dump hdump => ?_⟩
  have hrows := flatten_rows (show 0 < 16 by omega) s
  rw [chexundump_chexdump (show 0 < 16 by omega) rfl hdump, Option.some.injEq]
  cases abbreviate with
  | false =>
    rw [recovered_all, hrows]
    exact iff_of_true rfl fun hfalse => nomatch hfalse
  | true =>
    have hne : ∀ row ∈ rows 16 s, row ≠ [] := fun row hrow =>
      ne_nil_of_mem_rows (show 0 < 16 by omega) hrow
    have hiff := recovered_true_iff hne
    rw [hrows] at hiff
    exact hiff.trans ⟨fun hrec _ => hrec, fun hrec => hrec rfl⟩

theorem hexdump_round_trip_zeros :
    ∃ lines, chexdump (List.replicate 48 0 ++ [1]) 0x1000 true 16 [] = some lines ∧
      chexundump (.str (printed lines)) 0x1000 = some (List.replicate 48 0 ++ [1]) := by
  obtain ⟨lines, hlines, hback⟩ := hexdump_round_trip_iff (List.replicate 48 0 ++ [1]) 0x1000 true
  exact ⟨lines, hlines, (hback (.str (printed lines)) rfl).mpr fun _ => by decide +kernel⟩

/-- The second row comes back as zeros, the fourth one not at all. -/
theorem hexdump_loses_rows :
    ∃ lines, chexdump (List.replicate 32 0x41 ++ List.replicate 32 0x42) 0 true 16 [] = some lines ∧
      chexundump (.str (printed lines)) 0 =
        some (List.replicate 16 0x41 ++ List.replicate 16 0 ++ List.replicate 16 0x42) :=
  ⟨_, rfl, by decide +kernel⟩

end MiniHaywire.HexDump
