import MiniHaywire.Numeral
import MiniHaywire.PrintfOutput

/-!
# Integer conversions

The conversions `d`, `i`, `u`, `o`, `x` and `X` with each length modifier, without
flags, width and precision.  The argument types are those of C on the target: 8 bits
for `hh`, 16 for `h`, 64 for `ll` and `j`, and 32 for the others; the caller passes a
type of 64 bits in two words from an even one on.  `vsnprintf` takes the signed
`long long` and both `intmax_t`s from one word, and keeps 32 bits of an unsigned
`long long`.
-/

namespace MiniHaywire.Printf

open Numeral

/-! ### Formats in sequence -/

section Prints

variable (strAt : U32 → List Byte)

/-- In front of any rest, the format prints the text and goes on with the arguments `args'`. -/
def Prints (format : List Byte) (args : VaList) (bs : List Byte) (args' : VaList) : Prop :=
  ∀ (rest : List Byte) (σ : Type) (put : σ → Output → σ) (out : σ), ∃ n,
    loop put strAt n (Control.fresh (format ++ rest) args) out =
      (Control.fresh rest args', (chars bs).foldl put out)

variable {strAt} {format format' bs bs' : List Byte} {args args' args'' : VaList}

theorem prints_nil (args : VaList) : Prints strAt [] args [] args :=
  fun _ _ _ _ => ⟨0, rfl⟩

theorem Prints.append (h : Prints strAt format args bs args')
    (h' : Prints strAt format' args' bs' args'') :
    Prints strAt (format ++ format') args (bs ++ bs') args'' := by
  intro rest σ put out
  obtain ⟨n, hn⟩ := h (format' ++ rest) σ put out
  obtain ⟨m, hm⟩ := h' rest σ put ((chars bs).foldl put out)
  refine ⟨n + m, ?_⟩
  rw [List.append_assoc, loop_add, hn, hm]
  simp [chars]

theorem prints_literal {ch : Byte} (hzero : ch ≠ 0) (hpercent : ch ≠ chr '%') (args : VaList) :
    Prints strAt [ch] args [ch] args := by
  intro rest σ put out
  refine ⟨1, ?_⟩
  rw [List.singleton_append, loop_of_step put rfl hzero rfl]
  simp [step, loop, Control.fresh, hpercent, chars]

theorem Prints.run (h : Prints strAt format args bs args') :
    outputs strAt format args = chars bs ∧ final strAt format args = Control.fresh [] args' := by
  obtain ⟨n, hn⟩ := h [] (List Output) Printf.append []
  rw [List.append_nil, foldl_append_eq, List.nil_append] at hn
  have hdone : (Control.fresh [] args').Halted := .inr (by simp [Control.fresh])
  have hhalts := loop_halts strAt Printf.append _ (Control.fresh format args) []
    (measure_le_rounds format args)
  -- both numbers of rounds come to an end, so they come to the same
  have hrun : printTo Printf.append strAt format args [] = (Control.fresh [] args', chars bs) := by
    have hsame := loop_add strAt Printf.append n (rounds format) (Control.fresh format args) []
    rw [hn, loop_of_halted _ hdone, Nat.add_comm, loop_add, loop_of_halted _ hhalts] at hsame
    exact hsame
  exact ⟨by rw [outputs, hrun], by rw [final, hrun]⟩

theorem Prints.text_eq (h : Prints strAt format args bs args') : text strAt format args = bs := by
  rw [text, h.run.1, charsOf_chars]

theorem Prints.args_eq (h : Prints strAt format args bs args') :
    (final strAt format args).args = args' := by
  rw [h.run.2, Control.fresh]

theorem Prints.noCount (h : Prints strAt format args bs args') : NoCount strAt format args := by
  rw [NoCount, h.run.1]
  simp [chars]

end Prints

/-! ### The conversions -/

def Length.spelled : Length → List Byte
  | .none => []
  | .char => [chr 'h', chr 'h']
  | .short => [chr 'h']
  | .long => [chr 'l']
  | .llong => [chr 'l', chr 'l']
  | .size => [chr 'z']
  | .ptrdiff => [chr 't']
  | .intmax => [chr 'j']

/-- The bits of the C type that goes with a modifier. -/
def Length.bits : Length → Nat
  | .char => 8
  | .short => 16
  | .llong | .intmax => 64
  | _ => 32

inductive IntConv where
  | d | i | u | o | x | X
deriving DecidableEq, Repr

namespace IntConv

def char : IntConv → Byte
  | d => chr 'd'
  | i => chr 'i'
  | u => chr 'u'
  | o => chr 'o'
  | x => chr 'x'
  | X => chr 'X'

def signed (conv : IntConv) : Bool := conv = d || conv = i

def base : IntConv → Nat
  | o => 8
  | x | X => 16
  | _ => 10

def upper (conv : IntConv) : Bool := conv = X

end IntConv

/-- A conversion as it stands in a format. -/
def spec (mod : Length) (conv : IntConv) : List Byte := chr '%' :: (mod.spelled ++ [conv.char])

def Fits (mod : Length) (conv : IntConv) (v : Int) : Prop :=
  if conv.signed then -2 ^ (mod.bits - 1) ≤ v ∧ v < 2 ^ (mod.bits - 1)
  else 0 ≤ v ∧ v < 2 ^ mod.bits

/-- The caller has passed the value as the next argument. -/
def VaList.Passed (args : VaList) (mod : Length) (v : Int) : Prop :=
  if mod.bits = 64 then
    args.word args.aligned = BitVec.ofInt 32 v ∧
      args.word (args.aligned + 1) = BitVec.ofInt 32 (v / 2 ^ 32)
  else args.word args.pos = BitVec.ofInt 32 v

def VaList.after (args : VaList) (mod : Length) : VaList :=
  { args with pos := if mod.bits = 64 then args.aligned + 2 else args.pos + 1 }

def canonical (conv : IntConv) (v : Int) : List Byte :=
  (if v < 0 then [chr '-'] else []) ++ (numeral conv.base v.natAbs).map (digitChar conv.upper)

/-! ### Digits -/

theorem digitChar_injective (caps : Bool) {m n : Nat} (hm : m < 16) (hn : n < 16)
    (h : digitChar caps m = digitChar caps n) : m = n := by
  have hall : ∀ (c : Bool) (i j : Fin 16), digitChar c i = digitChar c j → i = j := by decide
  exact congrArg Fin.val (hall caps ⟨m, hm⟩ ⟨n, hn⟩ h)

theorem convert_eq {base : Nat} (hbase : 1 < base) (caps : Bool) {room value : Nat}
    (h : value < base ^ (room + 1)) :
    convert base caps (room + 1) value = ((numeral base value).map (digitChar caps)).reverse := by
  induction room generalizing value with
  | zero =>
    have hlt : value < base := by simpa using h
    simp [convert, numeral_of_lt hlt, Nat.div_eq_of_lt hlt, Nat.mod_eq_of_lt hlt]
  | succ room ih =>
    rw [convert]
    by_cases hlt : value < base
    · simp [numeral_of_lt hlt, Nat.div_eq_of_lt hlt, Nat.mod_eq_of_lt hlt]
    · have hne : value / base ≠ 0 := Nat.ne_of_gt (Nat.div_pos (by omega) (by omega))
      rw [if_pos hne, ih (Nat.div_lt_of_lt_mul (by rwa [← pow_succ'])),
        numeral_of_ge hbase (Nat.le_of_not_lt hlt)]
      simp

theorem putDigits_eq {σ : Type} (put : σ → Output → σ) (iconvert : List Byte) {pos : Nat}
    (h : pos ≤ iconvert.length) (out : σ) :
    putDigits put 0 iconvert pos out = (chars (iconvert.take pos).reverse).foldl put out := by
  induction pos generalizing out with
  | zero => rfl
  | succ pos ih =>
    rw [putDigits]
    simp only [gt_iff_lt, lt_self_iff_false, false_and, if_false]
    rw [ih (by omega), List.take_succ_eq_append_getElem (by omega), List.reverse_append,
      List.reverse_singleton, List.singleton_append, chars_cons, List.foldl_cons,
      List.getD_eq_getElem?_getD, List.getElem?_eq_getElem (by omega), Option.getD_some]

theorem toInt_of_small {x : Int} (h : -2 ^ 31 ≤ x) (h' : x < 2 ^ 31) : toInt x = x := by
  apply Int.bmod_eq_of_le <;> omega

theorem base_bounds (conv : IntConv) : 8 ≤ conv.base ∧ conv.base ≤ 16 := by
  cases conv <;> decide

def plainFlags (conv : IntConv) : Flags :=
  { Flags.none with up := conv.upper, unsigned := !conv.signed }

theorem fmtint_plain {σ : Type} (put : σ → Output → σ) (conv : IntConv) (value : U32) (out : σ) :
    fmtint put value conv.base 0 (-1) (plainFlags conv) out =
      (chars ((signOf value (plainFlags conv)).toList ++
        (numeral conv.base (magnitude value (plainFlags conv)).toNat).map
          (digitChar conv.upper))).foldl put out := by
  obtain ⟨hlo, hhi⟩ := base_bounds conv
  set uvalue := (magnitude value (plainFlags conv)).toNat with huvalue
  have hroom : uvalue < conv.base ^ (42 + 1) := by
    calc uvalue < 8 ^ 43 := lt_trans (magnitude value (plainFlags conv)).isLt (by decide)
      _ ≤ conv.base ^ 43 := Nat.pow_le_pow_left hlo 43
  have hdigits : (numeral conv.base uvalue).length ≤ 43 :=
    length_numeral_le (by omega) (by decide) hroom
  have hconvert : convert conv.base (plainFlags conv).up MAX_CONVERT_LENGTH uvalue = _ :=
    convert_eq (by omega) conv.upper hroom
  generalize hsign : signOf value (plainFlags conv) = sign
  -- no padding: the digits alone are longer than the width and the precision
  have hsmall (k : Int) (hk : -100 ≤ k) (hk' : k ≤ 0) : max (toInt k) 0 = 0 := by
    rw [toInt_of_small (by omega) (by omega)]
    omega
  have hzeros := hsmall (-1 - (numeral conv.base uvalue).length) (by omega) (by omega)
  have hspaces := hsmall (-(numeral conv.base uvalue).length - if sign.isSome then 1 else 0)
    (by split <;> omega) (by split <;> omega)
  have hput : putSome put sign out = (chars sign.toList).foldl put out := by
    cases sign <;> rfl
  have hall : ((numeral conv.base uvalue).map (digitChar conv.upper)).reverse.take
      (numeral conv.base uvalue).length =
        ((numeral conv.base uvalue).map (digitChar conv.upper)).reverse :=
    List.take_of_length_le (by simp)
  unfold fmtint
  simp only [hconvert, ← huvalue, hsign]
  simp [plainFlags, Flags.none, hzeros, hspaces, pad, hput, putDigits_eq, hall]

/-! ### The machine on a plain conversion -/

section Conversion

theorem spelled_head (mod : Length) (conv : IntConv) (rest : List Byte) :
    ∃ ch tail, mod.spelled ++ conv.char :: rest = ch :: tail ∧ ch ≠ 0 ∧
      setFlag .none ch = none ∧ isDigit ch = false ∧ ch ≠ chr '*' ∧ ch ≠ chr '.' := by
  cases mod with
  | none => exact ⟨conv.char, rest, rfl, by cases conv <;> decide⟩
  | _ => exact ⟨_, _, rfl, by decide⟩

theorem modifier_spelled (mod : Length) (conv : IntConv) (rest : List Byte) :
    modifier (mod.spelled ++ conv.char :: rest) = (mod, conv.char :: rest) := by
  cases mod <;> cases conv <;> rfl

theorem char_ne_zero (conv : IntConv) : conv.char ≠ 0 := by cases conv <;> decide

variable {σ : Type} (put : σ → Output → σ) (strAt : U32 → List Byte)

def atConversion (format : List Byte) (mod : Length) (args : VaList) : Control :=
  { Control.fresh format args with state := .conv, cflags := mod }

theorem loop_spec (mod : Length) (conv : IntConv) (rest : List Byte) (args : VaList) (out : σ) :
    loop put strAt 6 (Control.fresh (spec mod conv ++ rest) args) out =
      (Control.fresh rest
          (conversion put strAt (atConversion (conv.char :: rest) mod args) conv.char out).1,
        (conversion put strAt (atConversion (conv.char :: rest) mod args) conv.char out).2) := by
  obtain ⟨ch, tail, hhead, hch, hflag, hdigit, hstar, hdot⟩ := spelled_head mod conv rest
  have hmod := modifier_spelled mod conv rest
  have hformat : spec mod conv ++ rest = chr '%' :: ch :: tail := by
    simpa [spec] using hhead
  rw [hhead] at hmod
  rw [hformat, loop_of_step put rfl (by decide) rfl]
  simp only [step, Control.fresh, if_true]
  rw [loop_of_step put rfl hch rfl]
  simp only [step, hflag]
  rw [loop_of_step put rfl hch rfl]
  simp only [step, hdigit, hstar, if_false, Bool.false_eq_true]
  rw [loop_of_step put rfl hch rfl]
  simp only [step, hdot, if_false]
  rw [loop_of_step put rfl hch rfl]
  simp only [step, hmod]
  rw [loop_of_step put rfl (char_ne_zero conv) rfl]
  rfl

theorem convOf_char (conv : IntConv) :
    convOf conv.char = some (if conv.signed then .signed else .unsigned conv.base conv.upper) := by
  cases conv <;> rfl

def takenArg (args : VaList) (mod : Length) (conv : IntConv) : U32 × VaList :=
  if conv.signed then signedArg args mod else unsignedArg args mod

def printed (conv : IntConv) (value : U32) : List Byte :=
  (signOf value (plainFlags conv)).toList ++
    (numeral conv.base (magnitude value (plainFlags conv)).toNat).map (digitChar conv.upper)

theorem conversion_plain (format : List Byte) (mod : Length) (conv : IntConv) (args : VaList)
    (out : σ) :
    conversion put strAt (atConversion format mod args) conv.char out =
      ((takenArg args mod conv).2,
        (chars (printed conv (takenArg args mod conv).1)).foldl put out) := by
  rw [printed, ← fmtint_plain]
  unfold conversion
  rw [convOf_char]
  cases conv <;> rfl

end Conversion

/-- A plain conversion prints the argument it takes. -/
theorem prints_spec (strAt : U32 → List Byte) (mod : Length) (conv : IntConv) (args : VaList) :
    Prints strAt (spec mod conv) args (printed conv (takenArg args mod conv).1)
      (takenArg args mod conv).2 := by
  intro rest σ put out
  refine ⟨6, ?_⟩
  rw [loop_spec, conversion_plain]

/-! ### Arguments -/

theorem bmod_of_fits {w : Nat} (hw : 0 < w) {v : Int} (h : -2 ^ (w - 1) ≤ v)
    (h' : v < 2 ^ (w - 1)) : v.bmod (2 ^ w) = v := by
  obtain ⟨k, rfl⟩ := Nat.exists_eq_succ_of_ne_zero (Nat.ne_of_gt hw)
  have hpow : (2 : Int) ^ (k + 1) = 2 * 2 ^ k := pow_succ' 2 k
  simp only [Nat.succ_eq_add_one, Nat.add_sub_cancel] at h h'
  apply Int.bmod_eq_of_le
  · push_cast
    omega
  · push_cast
    omega

theorem signExtend_ofInt {w : Nat} (hw : 0 < w) (hw' : w ≤ 32) {v : Int} (h : -2 ^ (w - 1) ≤ v)
    (h' : v < 2 ^ (w - 1)) :
    ((BitVec.ofInt 32 v).setWidth w).signExtend 32 = BitVec.ofInt 32 v := by
  have hle : (2 : Int) ^ (w - 1) ≤ 2 ^ 31 := pow_le_pow_right₀ (by decide) (by omega)
  have hdvd : (2 : Nat) ^ w ∣ 2 ^ 32 := Nat.pow_dvd_pow 2 hw'
  apply BitVec.eq_of_toInt_eq
  rw [BitVec.toInt_signExtend_of_le hw', BitVec.toInt_setWidth, BitVec.toNat_ofInt,
    BitVec.toInt_ofInt, Int.toNat_of_nonneg (Int.emod_nonneg _ (by decide)),
    ← Int.bmod_bmod_of_dvd hdvd, Int.emod_bmod, bmod_of_fits (w := 32) (by decide) (by omega)
      (by omega), bmod_of_fits hw h h']

theorem toNat_ofInt_of_fits {v : Int} (h : 0 ≤ v) (h' : v < 2 ^ 32) :
    (BitVec.ofInt 32 v).toNat = v.toNat := by
  rw [BitVec.toNat_ofInt, Int.emod_eq_of_lt h (by simpa using h')]

theorem setWidth_ofInt {w : Nat} (hw : w ≤ 32) {v : Int} (h : 0 ≤ v) (h' : v < 2 ^ w) :
    ((BitVec.ofInt 32 v).setWidth w).setWidth 32 = BitVec.ofInt 32 v := by
  have hle : (2 : Int) ^ w ≤ 2 ^ 32 := pow_le_pow_right₀ (by decide) hw
  have hnat : v.toNat < 2 ^ w := (Int.toNat_lt h).mpr (by push_cast; exact h')
  apply BitVec.eq_of_toNat_eq
  rw [BitVec.toNat_setWidth, BitVec.toNat_setWidth, toNat_ofInt_of_fits h (by omega),
    Nat.mod_eq_of_lt hnat, Nat.mod_eq_of_lt (by omega)]

/-- The types that `vsnprintf` takes for narrower than they are. -/
def Narrowed (mod : Length) (conv : IntConv) : Prop :=
  mod = .intmax ∨ (mod = .llong ∧ conv.signed = true)

section Arguments

variable {args : VaList} {mod : Length} {conv : IntConv} {v : Int}

theorem takenArg_of_passed (hmod : ¬ Narrowed mod conv) (hfits : Fits mod conv v)
    (hpassed : args.Passed mod v) :
    takenArg args mod conv = (BitVec.ofInt 32 v, args.after mod) := by
  unfold Fits at hfits
  cases hsigned : conv.signed with
  | true =>
    simp only [hsigned, if_true] at hfits
    cases mod with
    | intmax => exact absurd (.inl rfl) hmod
    | llong => exact absurd (.inr ⟨rfl, hsigned⟩) hmod
    | char =>
      have hword : args.word args.pos = BitVec.ofInt 32 v := hpassed
      have hback := signExtend_ofInt (w := 8) (by decide) (by decide) hfits.1 hfits.2
      simp [takenArg, hsigned, signedArg, VaList.arg32, hword, hback, VaList.after, Length.bits]
    | short =>
      have hword : args.word args.pos = BitVec.ofInt 32 v := hpassed
      have hback := signExtend_ofInt (w := 16) (by decide) (by decide) hfits.1 hfits.2
      simp [takenArg, hsigned, signedArg, VaList.arg32, hword, hback, VaList.after, Length.bits]
    | _ =>
      have hword : args.word args.pos = BitVec.ofInt 32 v := hpassed
      simp [takenArg, hsigned, signedArg, VaList.arg32, hword, VaList.after, Length.bits]
  | false =>
    simp only [hsigned, if_false, Bool.false_eq_true] at hfits
    cases mod with
    | intmax => exact absurd (.inl rfl) hmod
    | llong =>
      have hword : args.word args.aligned = BitVec.ofInt 32 v := hpassed.1
      have hlow (hi : U32) : (hi ++ BitVec.ofInt 32 v).setWidth 32 = BitVec.ofInt 32 v := by
        rw [BitVec.setWidth_append, dif_pos le_rfl, BitVec.setWidth_eq]
      simp [takenArg, hsigned, unsignedArg, VaList.arg64, hword, VaList.after, Length.bits, hlow]
    | char =>
      have hword : args.word args.pos = BitVec.ofInt 32 v := hpassed
      have hback := setWidth_ofInt (w := 8) (by decide) hfits.1 hfits.2
      simp only [takenArg, hsigned, unsignedArg, VaList.arg32, hword, hback, VaList.after]
      rfl
    | short =>
      have hword : args.word args.pos = BitVec.ofInt 32 v := hpassed
      have hback := setWidth_ofInt (w := 16) (by decide) hfits.1 hfits.2
      simp only [takenArg, hsigned, unsignedArg, VaList.arg32, hword, hback, VaList.after]
      rfl
    | _ =>
      have hword : args.word args.pos = BitVec.ofInt 32 v := hpassed
      simp [takenArg, hsigned, unsignedArg, VaList.arg32, hword, VaList.after, Length.bits]

theorem takenArg_of_narrowed (args : VaList) (hmod : Narrowed mod conv) :
    (takenArg args mod conv).2.pos < (args.after mod).pos := by
  have hone : (takenArg args mod conv).2.pos = args.pos + 1 := by
    rcases hmod with rfl | ⟨rfl, hsigned⟩
    · unfold takenArg
      split <;> rfl
    · simp [takenArg, hsigned, signedArg, VaList.arg32]
  have htwo : (args.after mod).pos = args.aligned + 2 := by
    rcases hmod with rfl | ⟨rfl, -⟩ <;> rfl
  rw [hone, htwo, VaList.aligned]
  omega

/-! ### Values -/

theorem printed_signed (hsigned : conv.signed = true) (h : -2 ^ 31 ≤ v) (h' : v < 2 ^ 31) :
    printed conv (BitVec.ofInt 32 v) = canonical conv v := by
  have htoInt : (BitVec.ofInt 32 v).toInt = v := by
    rw [BitVec.toInt_ofInt]
    exact bmod_of_fits (w := 32) (by decide) h h'
  have hslt : (BitVec.ofInt 32 v).slt 0#32 = decide (v < 0) := by
    rw [BitVec.slt_eq_decide, htoInt]
    rfl
  by_cases hneg : v < 0
  · have hmagnitude : (-BitVec.ofInt 32 v).toNat = v.natAbs := by
      rw [← BitVec.ofInt_neg, toNat_ofInt_of_fits (by omega) (by omega)]
      omega
    simp [printed, canonical, signOf, magnitude, plainFlags, hsigned, hslt, hneg, hmagnitude]
  · have hmagnitude : (BitVec.ofInt 32 v).toNat = v.natAbs := by
      rw [toNat_ofInt_of_fits (by omega) (by omega)]
      omega
    simp [printed, canonical, signOf, magnitude, plainFlags, Flags.none, hsigned, hslt, hneg,
      hmagnitude]

theorem printed_unsigned (hsigned : conv.signed = false) (v : Int) :
    printed conv (BitVec.ofInt 32 v) = canonical conv (v % 2 ^ 32) := by
  have hnonneg : 0 ≤ v % 2 ^ 32 := Int.emod_nonneg _ (by decide)
  have hmagnitude : (BitVec.ofInt 32 v).toNat = (v % 2 ^ 32).natAbs := by
    rw [BitVec.toNat_ofInt]
    omega
  simpa [printed, canonical, signOf, magnitude, plainFlags, hsigned, hmagnitude] using hnonneg

theorem map_digitChar_injective (caps : Bool) {ds ds' : List Nat} (h : ∀ d ∈ ds, d < 16)
    (h' : ∀ d ∈ ds', d < 16) (heq : ds.map (digitChar caps) = ds'.map (digitChar caps)) :
    ds = ds' := by
  induction ds generalizing ds' with
  | nil => simpa using heq.symm
  | cons d ds ih =>
    obtain ⟨d', rest, rfl⟩ : ∃ d' rest, ds' = d' :: rest := by
      cases ds' with
      | nil => simp at heq
      | cons d' rest => exact ⟨d', rest, rfl⟩
    simp only [List.map_cons, List.cons.injEq, List.forall_mem_cons] at heq h h'
    rw [digitChar_injective caps h.1 h'.1 heq.1, ih h.2 h'.2 heq.2]

theorem canonical_injective (conv : IntConv) {v v' : Int} (h : 0 ≤ v) (h' : 0 ≤ v')
    (heq : canonical conv v = canonical conv v') : v = v' := by
  obtain ⟨hlo, hhi⟩ := base_bounds conv
  simp only [canonical, Int.not_lt.mpr h, Int.not_lt.mpr h', if_false, List.nil_append] at heq
  have hlt (n : Nat) : ∀ d ∈ numeral conv.base n, d < 16 := fun d hd =>
    lt_of_lt_of_le (numeral_lt (by omega) hd) hhi
  have habs := numeral_injective _ (map_digitChar_injective conv.upper (hlt _) (hlt _) heq)
  omega

/-! ### Right and wrong conversions -/

/-- The conversion prints the value and leaves the arguments behind it. -/
def Right (strAt : U32 → List Byte) (mod : Length) (conv : IntConv) (args : VaList) (v : Int) :
    Prop :=
  text strAt (spec mod conv) args = canonical conv v ∧
    (final strAt (spec mod conv) args).args = args.after mod

/-- The conversions that work: neither `j` nor a signed `ll`, and an unsigned `ll` for numbers of
    32 bits. -/
def Works (mod : Length) (conv : IntConv) (v : Int) : Prop :=
  mod ≠ .intmax ∧ (mod = .llong → conv.signed = false ∧ v < 2 ^ 32)

theorem Works.not_narrowed (h : Works mod conv v) : ¬ Narrowed mod conv := by
  rintro (hmod | ⟨hmod, hsigned⟩)
  · exact h.1 hmod
  · simp [(h.2 hmod).1] at hsigned

theorem Fits.signed_bounds (h : Fits mod conv v) (hmod : ¬ Narrowed mod conv)
    (hsigned : conv.signed = true) : -2 ^ 31 ≤ v ∧ v < 2 ^ 31 := by
  simp only [Fits, hsigned, if_true] at h
  cases mod with
  | intmax => exact absurd (.inl rfl) hmod
  | llong => exact absurd (.inr ⟨rfl, hsigned⟩) hmod
  | _ => simp only [Length.bits] at h; omega

theorem Fits.nonneg (h : Fits mod conv v) (hsigned : conv.signed = false) : 0 ≤ v := by
  simp only [Fits, hsigned, if_false, Bool.false_eq_true] at h
  exact h.1

theorem Works.lt (hworks : Works mod conv v) (h : Fits mod conv v) (hsigned : conv.signed = false) :
    v < 2 ^ 32 := by
  simp only [Fits, hsigned, if_false, Bool.false_eq_true] at h
  cases mod with
  | intmax => exact absurd rfl hworks.1
  | llong => exact (hworks.2 rfl).2
  | _ => simp only [Length.bits] at h; omega

theorem prints_canonical (strAt : U32 → List Byte) (hworks : Works mod conv v)
    (hfits : Fits mod conv v) (hpassed : args.Passed mod v) :
    Prints strAt (spec mod conv) args (canonical conv v) (args.after mod) := by
  have hprints := prints_spec strAt mod conv args
  rw [takenArg_of_passed hworks.not_narrowed hfits hpassed] at hprints
  cases hsigned : conv.signed with
  | true =>
    obtain ⟨hlo, hhi⟩ := hfits.signed_bounds hworks.not_narrowed hsigned
    rwa [printed_signed hsigned hlo hhi] at hprints
  | false =>
    have hnonneg := hfits.nonneg hsigned
    rwa [printed_unsigned hsigned v,
      Int.emod_eq_of_lt hnonneg (hworks.lt hfits hsigned)] at hprints

theorem right_iff_works (strAt : U32 → List Byte) (hfits : Fits mod conv v)
    (hpassed : args.Passed mod v) : Right strAt mod conv args v ↔ Works mod conv v := by
  constructor
  · rintro ⟨htext, hargs⟩
    have hprints := prints_spec strAt mod conv args
    have hmod : ¬ Narrowed mod conv := by
      intro hnarrowed
      have hless := takenArg_of_narrowed args hnarrowed
      rw [← hargs, hprints.args_eq] at hless
      exact lt_irrefl _ hless
    refine ⟨fun hmod' => hmod (.inl hmod'), fun hllong => ?_⟩
    have hsigned : conv.signed = false :=
      Bool.eq_false_iff.mpr fun hsigned => hmod (.inr ⟨hllong, hsigned⟩)
    have hnonneg := hfits.nonneg hsigned
    refine ⟨hsigned, ?_⟩
    -- what was printed is the number modulo 2 ^ 32
    rw [takenArg_of_passed hmod hfits hpassed, printed_unsigned hsigned v] at hprints
    have hsame := canonical_injective conv hnonneg (Int.emod_nonneg _ (by decide))
      (htext.symm.trans hprints.text_eq)
    have hlt := Int.emod_lt_of_pos v (show (0 : Int) < 2 ^ 32 by decide)
    omega
  · intro hworks
    have hprints := prints_canonical strAt hworks hfits hpassed
    exact ⟨hprints.text_eq, hprints.args_eq⟩

end Arguments

/-! ### Whole formats -/

/-- A piece of a format: a character that stands for itself, or a conversion with the value that
    was passed for it. -/
inductive Piece where
  | literal (ch : Byte)
  | int (mod : Length) (conv : IntConv) (v : Int)

namespace Piece

def format : Piece → List Byte
  | literal ch => [ch]
  | int mod conv _ => spec mod conv

def text : Piece → List Byte
  | literal ch => [ch]
  | int _ conv v => canonical conv v

def after (args : VaList) : Piece → VaList
  | literal _ => args
  | int mod _ _ => args.after mod

/-- The piece is a proper one, and its value the next argument. -/
def Given (args : VaList) : Piece → Prop
  | literal ch => ch ≠ 0 ∧ ch ≠ chr '%'
  | int mod conv v => Fits mod conv v ∧ args.Passed mod v

def Works : Piece → Prop
  | literal _ => True
  | int mod conv v => Printf.Works mod conv v

theorem prints (strAt : U32 → List Byte) {p : Piece} {args : VaList} (hgiven : p.Given args)
    (hworks : p.Works) : Prints strAt p.format args p.text (p.after args) := by
  cases p with
  | literal ch => exact prints_literal hgiven.1 hgiven.2 args
  | int mod conv v => exact prints_canonical strAt hworks hgiven.1 hgiven.2

end Piece

/-- The values of all pieces have been passed in order. -/
def Given : VaList → List Piece → Prop
  | _, [] => True
  | args, p :: ps => p.Given args ∧ Given (p.after args) ps

theorem prints_pieces (strAt : U32 → List Byte) {ps : List Piece} {args : VaList}
    (hgiven : Given args ps) (hworks : ∀ p ∈ ps, p.Works) :
    Prints strAt (ps.flatMap Piece.format) args (ps.flatMap Piece.text)
      (ps.foldl Piece.after args) := by
  induction ps generalizing args with
  | nil => exact prints_nil args
  | cons p ps ih =>
    obtain ⟨hp, hps⟩ := List.forall_mem_cons.mp hworks
    exact (p.prints strAt hgiven.1 hp).append (ih hgiven.2 hps)

/-- **Conversions of integers.** A conversion prints its value and leaves the next argument where
    it is, exactly if it has no `j` and an `ll` only for unsigned numbers of 32 bits; and a format
    made of such conversions and plain characters prints all its values in order. -/
theorem int_conversions (strAt : U32 → List Byte) :
    (∀ mod conv args v, Fits mod conv v → args.Passed mod v →
      (Right strAt mod conv args v ↔ Works mod conv v)) ∧
    ∀ ps args, Given args ps → (∀ p ∈ ps, p.Works) →
      text strAt (ps.flatMap Piece.format) args = ps.flatMap Piece.text ∧
        (final strAt (ps.flatMap Piece.format) args).args = ps.foldl Piece.after args := by
  refine ⟨fun _ _ _ _ hfits hpassed => right_iff_works strAt hfits hpassed, ?_⟩
  intro ps args hgiven hworks
  have hprints := prints_pieces strAt hgiven hworks
  exact ⟨hprints.text_eq, hprints.args_eq⟩

/-- `"%hhd %x"` with -5 and 0xbeef. -/
def twoNumbers : List Piece := [.int .char .d (-5), .literal (chr ' '), .int .none .x 0xbeef]

theorem int_conversions_two :
    text (fun _ => []) (twoNumbers.flatMap Piece.format) (fourArgs 0xfffffffb 0xbeef 0 0) =
        [chr '-', chr '5', chr ' ', chr 'b', chr 'e', chr 'e', chr 'f'] ∧
      Right (fun _ => []) .llong .u (fourArgs 115200 0 0 0) 115200 := by
  refine ⟨?_, ((int_conversions _).1 .llong .u _ _ ?_ ?_).mpr ?_⟩
  · refine ((int_conversions _).2 twoNumbers (fourArgs 0xfffffffb 0xbeef 0 0) ?_ ?_).1.trans ?_
    · simp [twoNumbers, Given, Piece.Given, Piece.after, Fits, IntConv.signed, Length.bits,
        VaList.Passed, VaList.after, fourArgs]
      decide
    · simp [twoNumbers, Piece.Works, Works]
    · decide +kernel
  · simp [Fits, IntConv.signed, Length.bits]
  · simp [VaList.Passed, Length.bits, fourArgs, VaList.aligned]
  · simp [Works, IntConv.signed]

/-- Setting the baud rate to 2 ^ 32 is announced as zero, and behind a `long long` the next number
    is the upper half of it. -/
theorem long_long_misprinted :
    Fits .llong .u 0x100000000 ∧ (fourArgs 0 1 0 0).Passed .llong 0x100000000 ∧
      text (fun _ => []) (spec .llong .u) (fourArgs 0 1 0 0) = [chr '0'] ∧
      canonical .u 0x100000000 = [chr '4', chr '2', chr '9', chr '4', chr '9', chr '6', chr '7',
        chr '2', chr '9', chr '6'] ∧
      Given (fourArgs 1 0 7 0) [.int .llong .d 1, .literal (chr ' '), .int .none .d 7] ∧
      text (fun _ => []) (spec .llong .d ++ [chr ' '] ++ spec .none .d) (fourArgs 1 0 7 0) =
        [chr '1', chr ' ', chr '0'] := by
  refine ⟨?_, ?_, by decide +kernel, by decide +kernel, ?_, by decide +kernel⟩
  · simp [Fits, IntConv.signed, Length.bits]
  · simp [VaList.Passed, Length.bits, fourArgs, VaList.aligned]
  · simp [Given, Piece.Given, Piece.after, Fits, IntConv.signed, Length.bits, VaList.Passed,
      VaList.after, VaList.aligned, fourArgs]
    decide

end MiniHaywire.Printf
