import MiniHaywire.Printf

/-!
# What vsnprintf puts in the buffer

Nothing in the format machine reads the buffer or the number of characters so far.
So each of its functions puts out a list that depends on the format and the arguments
only (`Emits`), whatever takes it, and a whole run does (`printTo_eq`).  In the
buffer such a list of characters is cut off at `size - 1`.
-/

namespace MiniHaywire.Printf

/-! ### Every function emits a list -/

/-- A function of the place that takes the output puts out a list. -/
def Emits (f : ∀ σ : Type, (σ → Output → σ) → σ → σ) : Prop :=
  ∃ os : List Output, ∀ σ put out, f σ put out = os.foldl put out

theorem emits_none : Emits fun _ _ out => out := ⟨[], fun _ _ _ => rfl⟩

theorem emits_one (o : Output) : Emits fun _ put out => put out o := ⟨[o], fun _ _ _ => rfl⟩

theorem Emits.comp {f g : ∀ σ : Type, (σ → Output → σ) → σ → σ} (hf : Emits f) (hg : Emits g) :
    Emits fun σ put out => g σ put (f σ put out) := by
  obtain ⟨os, hos⟩ := hf
  obtain ⟨ps, hps⟩ := hg
  exact ⟨os ++ ps, fun σ put out => by simp [hos, hps]⟩

def chars (text : List Byte) : List Output := text.map Output.char

@[simp] theorem chars_cons (ch : Byte) (text : List Byte) :
    chars (ch :: text) = .char ch :: chars text := rfl

@[simp] theorem chars_append (text text' : List Byte) :
    chars (text ++ text') = chars text ++ chars text' := List.map_append

theorem pad_eq {σ : Type} (put : σ → Output → σ) (ch : Byte) (n : Nat) (out : σ) :
    pad put ch n out = (chars (List.replicate n ch)).foldl put out := by
  induction n generalizing out with
  | zero => rfl
  | succ n ih => simp [pad, ih, chars, List.replicate_succ]

theorem pad_emits (ch : Byte) (n : Nat) : Emits fun _ put out => pad put ch n out :=
  ⟨_, fun _ put out => pad_eq put ch n out⟩

theorem putString_emits (noprecision : Bool) (value : List Byte) (precision : Int) :
    Emits fun _ put out => putString put noprecision precision value out := by
  induction value generalizing precision with
  | nil => exact emits_none
  | cons ch value ih =>
    simp only [putString]
    cases noprecision with
    | true => exact (emits_one (.char ch)).comp (ih precision)
    | false =>
      by_cases hpos : precision > 0
      · simpa [hpos] using (emits_one (.char ch)).comp (ih (precision - 1))
      · simpa [hpos] using emits_none

theorem putSome_emits (ch : Option Byte) : Emits fun _ put out => putSome put ch out := by
  cases ch with
  | none => exact emits_none
  | some ch => exact emits_one (.char ch)

theorem putDigits_emits (separators : Int) (iconvert : List Byte) (pos : Nat) :
    Emits fun _ put out => putDigits put separators iconvert pos out := by
  induction pos with
  | zero => exact emits_none
  | succ pos ih =>
    simp only [putDigits]
    have hdigit := emits_one (.char (iconvert.getD pos 0))
    by_cases hsep : separators > 0 ∧ pos > 0 ∧ pos % 3 = 0
    · simpa only [hsep, if_true, and_self] using (hdigit.comp (emits_one (.char (chr ',')))).comp ih
    · simpa only [hsep, if_false] using hdigit.comp ih

theorem fmtstr_emits (value : Option (List Byte)) (width precision : Int) (flags : Flags) :
    Emits fun _ put out => fmtstr put value width precision flags out :=
  ((pad_emits _ _).comp (putString_emits _ _ _)).comp (pad_emits _ _)

theorem fmtint_emits (value : U32) (base : Nat) (width precision : Int) (flags : Flags) :
    Emits fun _ put out => fmtint put value base width precision flags out := by
  have hmark (p : Option Byte) : Emits fun _ put out =>
      if p.isSome then putSome put p (put out (.char (chr '0'))) else out := by
    cases p with
    | none => exact emits_none
    | some ch => exact (emits_one (.char (chr '0'))).comp (putSome_emits (some ch))
  exact (((((pad_emits _ _).comp (putSome_emits _)).comp (hmark _)).comp (pad_emits _ _)).comp
    (putDigits_emits _ _ _)).comp (pad_emits _ _)

/-! ### The machine emits a list -/

/-- A part of the machine that ends in a value and puts out a list. -/
def Yields {α : Type} (f : ∀ σ : Type, (σ → Output → σ) → σ → α × σ) : Prop :=
  ∃ (a : α) (os : List Output), ∀ σ put out, f σ put out = (a, os.foldl put out)

theorem Emits.yields {α : Type} {f : ∀ σ : Type, (σ → Output → σ) → σ → σ} (hf : Emits f) (a : α) :
    Yields fun σ put out => (a, f σ put out) := by
  obtain ⟨os, hos⟩ := hf
  exact ⟨a, os, fun σ put out => by simp [hos]⟩

section Machine

variable (strAt : U32 → List Byte)

theorem conversion_yields (c : Control) (ch : Byte) :
    Yields fun _ put out => conversion put strAt c ch out := by
  unfold conversion
  rcases convOf ch with _ | conv
  · exact emits_none.yields _
  cases conv with
  | signed => exact (fmtint_emits _ _ _ _ _).yields _
  | unsigned base up => exact (fmtint_emits _ _ _ _ _).yields _
  | char => exact (emits_one _).yields _
  | string => exact (fmtstr_emits _ _ _ _).yields _
  | pointer =>
    by_cases hnull : c.args.arg32.1 = 0
    · simpa only [hnull, if_true] using (fmtstr_emits _ _ _ _).yields c.args.arg32.2
    · simpa only [hnull, if_false] using (fmtint_emits _ _ _ _ _).yields c.args.arg32.2
  | count => exact (emits_one _).yields _
  | percent => exact (emits_one _).yields _

theorem step_yields (c : Control) (ch : Byte) (rest : List Byte) :
    Yields fun _ put out => step put strAt c ch rest out := by
  unfold step
  cases c.state with
  | default =>
    by_cases hpercent : ch = chr '%'
    · simpa only [hpercent, if_true] using emits_none.yields _
    · simpa only [hpercent, if_false] using (emits_one _).yields _
  | flags =>
    cases setFlag c.flags ch with
    | some flags => exact emits_none.yields _
    | none => exact emits_none.yields _
  | width => dsimp only; split_ifs <;> exact emits_none.yields _
  | dot => dsimp only; split_ifs <;> exact emits_none.yields _
  | precision => dsimp only; split_ifs <;> exact emits_none.yields _
  | mod => exact emits_none.yields _
  | conv =>
    obtain ⟨args, os, hconv⟩ := conversion_yields strAt c ch
    exact ⟨Control.fresh rest args, os, fun σ put out => by simp only [hconv]⟩

theorem loop_yields (fuel : Nat) (c : Control) :
    Yields fun _ put out => loop put strAt fuel c out := by
  induction fuel generalizing c with
  | zero => exact emits_none.yields c
  | succ fuel ih =>
    unfold loop
    rcases c.format with _ | ⟨ch, rest⟩
    · exact emits_none.yields c
    by_cases hend : ch = 0 ∨ c.overflow = true
    · simpa only [hend, if_true] using emits_none.yields c
    · obtain ⟨c', os, hstep⟩ := step_yields strAt c ch rest
      obtain ⟨c'', ps, hloop⟩ := ih c'
      refine ⟨c'', os ++ ps, fun σ put out => ?_⟩
      simp only [hend, if_false, hstep, hloop, List.foldl_append]

/-! ### The unbounded buffer -/

variable (format : List Byte) (args : VaList)

def append (os : List Output) (o : Output) : List Output := os ++ [o]

theorem foldl_append_eq (os ps : List Output) : os.foldl append ps = ps ++ os := by
  induction os generalizing ps with
  | nil => simp
  | cons o os ih => simp [ih, append]

def outputs : List Output := (printTo append strAt format args []).2

def final : Control := (printTo append strAt format args []).1

/-- Wherever the output goes, it is the same. -/
theorem printTo_eq {σ : Type} (put : σ → Output → σ) (out : σ) :
    printTo put strAt format args out =
      (final strAt format args, (outputs strAt format args).foldl put out) := by
  obtain ⟨c, os, h⟩ := loop_yields strAt (rounds format) (Control.fresh format args)
  have hout : printTo append strAt format args [] = (c, os) := by
    simpa [printTo, foldl_append_eq] using h (List Output) append []
  have hfinal : final strAt format args = c := by simp [final, hout]
  have houtputs : outputs strAt format args = os := by simp [outputs, hout]
  simpa [printTo, hfinal, houtputs] using h σ put out

def charsOf (os : List Output) : List Byte :=
  os.filterMap fun | .char ch => some ch | .count _ _ => none

/-- The output produced with an unbounded buffer. -/
def text : List Byte := charsOf (outputs strAt format args)

/-- There is no `%n` among the conversions that are reached. -/
def NoCount : Prop := ∀ ptr width, Output.count ptr width ∉ outputs strAt format args

theorem chars_charsOf {os : List Output} (h : ∀ ptr width, Output.count ptr width ∉ os) :
    chars (charsOf os) = os := by
  induction os with
  | nil => rfl
  | cons o os ih =>
    have hrest := ih fun ptr width hmem => h ptr width (List.mem_cons_of_mem _ hmem)
    cases o with
    | char ch => simpa [chars, charsOf] using hrest
    | count ptr width => exact absurd List.mem_cons_self (h ptr width)

variable {strAt format args} in
theorem outputs_eq (h : NoCount strAt format args) :
    outputs strAt format args = chars (text strAt format args) := (chars_charsOf h).symm

theorem charsOf_chars (bs : List Byte) : charsOf (chars bs) = bs := by
  simp [charsOf, chars, List.filterMap_map]

/-! ### The loop ends -/

/-- How far a state is from the end of a conversion. -/
def State.rank : State → Nat
  | .default => 0
  | .conv => 1
  | .mod => 2
  | .precision => 3
  | .dot => 4
  | .width => 5
  | .flags => 6

/-- The condition of the loop is false. -/
def Control.Halted (c : Control) : Prop :=
  c.overflow = true ∨ ∀ ch rest, c.format = ch :: rest → ch = 0

def Control.measure (c : Control) : Nat := 8 * c.format.length + c.state.rank

theorem length_doubled (ch : Byte) (twice once : Length) (format : List Byte) :
    (doubled ch twice once format).2.length ≤ format.length := by
  cases format with
  | nil => rfl
  | cons c rest =>
    simp only [doubled]
    split_ifs <;> simp

theorem length_modifier (format : List Byte) : (modifier format).2.length ≤ format.length := by
  cases format with
  | nil => rfl
  | cons ch rest =>
    have hh := length_doubled (chr 'h') .char .short rest
    have hl := length_doubled (chr 'l') .llong .long rest
    simp only [modifier]
    split_ifs <;> simp <;> omega

/-- Each round either stops, reads a character or goes on to a later state. -/
theorem step_measure {σ : Type} (put : σ → Output → σ) (c : Control) (ch : Byte) (rest : List Byte)
    (hformat : c.format = ch :: rest) (out : σ) :
    (step put strAt c ch rest out).1.overflow = true ∨
      (step put strAt c ch rest out).1.measure < c.measure := by
  have hlen : c.format.length = rest.length + 1 := by simp [hformat]
  have hmod := length_modifier (ch :: rest)
  simp only [List.length_cons] at hmod
  unfold step Control.measure
  cases hstate : c.state with
  | default =>
    right
    dsimp only
    split_ifs
    · simp [State.rank, hlen]
      omega
    · simp [State.rank, hlen]
  | flags =>
    right
    cases setFlag c.flags ch with
    | none => simp [State.rank]
    | some flags => simp [State.rank, hlen]
  | width =>
    dsimp only
    split_ifs <;> simp [State.rank, hlen]
  | dot =>
    right
    dsimp only
    split_ifs <;> simp [State.rank, hlen]
  | precision =>
    dsimp only
    split_ifs <;> simp [State.rank, hlen]
  | mod =>
    right
    simp only [State.rank, hlen]
    omega
  | conv =>
    right
    simp only [State.rank, Control.fresh, hlen]
    omega

section Loop

variable {σ : Type} (put : σ → Output → σ)

theorem not_halted_iff {c : Control} :
    ¬ c.Halted ↔ ∃ ch rest, c.format = ch :: rest ∧ ch ≠ 0 ∧ c.overflow = false := by
  unfold Control.Halted
  cases c.overflow <;> simp

variable {strAt} in
theorem loop_of_halted {c : Control} (h : c.Halted) (n : Nat) (out : σ) :
    loop put strAt n c out = (c, out) := by
  cases n with
  | zero => rfl
  | succ n =>
    unfold loop
    cases hformat : c.format with
    | nil => rfl
    | cons ch rest =>
      have hend : ch = 0 ∨ c.overflow = true := by
        rcases h with hover | hzero
        · exact .inr hover
        · exact .inl (hzero ch rest hformat)
      simp only [hend, if_true]

variable {strAt} in
theorem loop_of_step {c : Control} {ch : Byte} {rest : List Byte} (hformat : c.format = ch :: rest)
    (hch : ch ≠ 0) (hover : c.overflow = false) (n : Nat) (out : σ) :
    loop put strAt (n + 1) c out = loop put strAt n (step put strAt c ch rest out).1
      (step put strAt c ch rest out).2 := by
  rw [loop, hformat]
  simp only [hch, hover, or_self, if_false, Bool.false_eq_true]

theorem loop_halts (fuel : Nat) (c : Control) (out : σ) (h : c.measure ≤ fuel) :
    (loop put strAt fuel c out).1.Halted := by
  induction fuel generalizing c out with
  | zero =>
    have hnil : c.format = [] := by
      rw [← List.length_eq_zero_iff]
      unfold Control.measure at h
      omega
    exact .inr (by simp [loop, hnil])
  | succ fuel ih =>
    by_cases hhalted : c.Halted
    · rwa [loop_of_halted put hhalted]
    · obtain ⟨ch, rest, hformat, hch, hover⟩ := not_halted_iff.mp hhalted
      rw [loop_of_step put hformat hch hover]
      rcases step_measure strAt put c ch rest hformat out with hstop | hless
      · rw [loop_of_halted put (.inl hstop)]
        exact .inl hstop
      · exact ih _ _ (by omega)

theorem loop_add (a b : Nat) (c : Control) (out : σ) :
    loop put strAt (a + b) c out =
      loop put strAt b (loop put strAt a c out).1 (loop put strAt a c out).2 := by
  induction a generalizing c out with
  | zero => simp [loop]
  | succ a ih =>
    by_cases hhalted : c.Halted
    · simp only [loop_of_halted put hhalted]
    · obtain ⟨ch, rest, hformat, hch, hover⟩ := not_halted_iff.mp hhalted
      rw [Nat.succ_add, loop_of_step put hformat hch hover, loop_of_step put hformat hch hover, ih]

end Loop

theorem measure_le_rounds : (Control.fresh format args).measure ≤ rounds format := by
  simp [Control.measure, Control.fresh, rounds, State.rank]

/-- The loop of `vsnprintf` is left in the model as in the source: the rounds that `rounds`
    provides are enough for every format and all arguments, so that a run ends at the end of the
    format or with an overflow and never for lack of fuel. -/
theorem final_halted : (final strAt format args).Halted :=
  loop_halts strAt append _ _ _ (measure_le_rounds format args)

end Machine

/-! ### The buffer -/

section Buffer

theorem put_chars (str size : U32) (text : List Byte) (mem : Mem 32) (len : U32)
    (h : len.toNat + text.length < 2 ^ 32) :
    (chars text).foldl (Buffer.put str size) ⟨mem, len⟩ =
      ⟨mem.store (str + len) (text.take (size.toNat - 1 - len.toNat)),
        len + BitVec.ofNat 32 text.length⟩ := by
  induction text generalizing mem len with
  | nil => simp [chars]
  | cons ch text ih =>
    simp only [List.length_cons] at h
    have hsucc : (len + 1).toNat = len.toNat + 1 := by
      rw [BitVec.toNat_add]
      exact Nat.mod_eq_of_lt (by simpa using by omega)
    have hlen : len + 1 + BitVec.ofNat 32 text.length = len + BitVec.ofNat 32 (text.length + 1) :=
      add_one_add_ofNat _ _
    have hrest := fun m => ih m (len + 1) (by omega)
    simp only [chars, List.map_cons, List.foldl_cons, Buffer.put, List.length_cons] at hrest ⊢
    rw [hrest, hlen, hsucc, ← BitVec.add_assoc]
    by_cases hroom : len + 1 < size
    · rw [BitVec.lt_def, hsucc] at hroom
      rw [if_pos (by rwa [BitVec.lt_def, hsucc]),
        show size.toNat - 1 - len.toNat = size.toNat - 1 - (len.toNat + 1) + 1 by omega,
        List.take_succ_cons]
      rfl
    · rw [BitVec.lt_def, hsucc] at hroom
      rw [if_neg (by rwa [BitVec.lt_def, hsucc]), Nat.sub_eq_zero_of_le (by omega),
        Nat.sub_eq_zero_of_le (by omega)]
      simp

theorem store_concat (mem : Mem 32) (a : U32) (bs : List Byte) (b : Byte) :
    mem.store a (bs ++ [b]) =
      Function.update (mem.store a bs) (a + BitVec.ofNat 32 bs.length) b := by
  induction bs generalizing mem a with
  | nil => simp [Mem.store]
  | cons c bs ih => simp only [List.cons_append, Mem.store, ih, List.length_cons, add_one_add_ofNat]

theorem finish_chars (str size : U32) (text : List Byte) (mem : Mem 32)
    (h : text.length < 2 ^ 32) :
    ((chars text).foldl (Buffer.put str size) ⟨mem, 0⟩).finish str size =
      if size = 0 then mem else mem.store str (text.take (size.toNat - 1) ++ [0]) := by
  have hofNat : (BitVec.ofNat 32 text.length).toNat = text.length :=
    Nat.mod_eq_of_lt h
  rw [put_chars str size text mem 0 (by simpa using h)]
  have hzeroNat : (0 : U32).toNat = 0 := rfl
  simp only [Buffer.finish, add_zero, zero_add, BitVec.lt_def, hofNat, hzeroNat, Nat.sub_zero,
    store_concat, List.length_take]
  by_cases hzero : size = 0
  · simp [hzero]
  have hpos : 0 < size.toNat := Nat.pos_of_ne_zero fun h0 => hzero (BitVec.eq_of_toNat_eq h0)
  rw [if_neg hzero]
  by_cases hfits : text.length < size.toNat
  · rw [if_pos hfits, Nat.min_eq_right (by omega)]
  · have hlast : BitVec.ofNat 32 (size.toNat - 1) = size - 1 := by
      apply BitVec.eq_of_toNat_eq
      have hlt := size.isLt
      rw [BitVec.toNat_sub, BitVec.toNat_ofNat]
      simp
      omega
    rw [if_neg hfits, if_pos hpos, Nat.min_eq_left (by omega), hlast]

variable {strAt : U32 → List Byte} {format : List Byte} {args : VaList}

theorem vsnprintf_return (hcount : NoCount strAt format args)
    (hlen : (text strAt format args).length < INT_MAX) (mem : Mem 32) (str size : U32) :
    (vsnprintf strAt mem str size format args).1 =
      if (final strAt format args).overflow = true then -1
      else ((text strAt format args).length : Int) := by
  have hmax : INT_MAX < 2 ^ 32 := by decide
  have hlow : ¬ INT_MAX ≤ (text strAt format args).length := by omega
  have hret (s : U32) :
      ((chars (text strAt format args)).foldl (Buffer.put str s) ⟨mem, 0⟩).len.toNat =
        (text strAt format args).length := by
    rw [put_chars str s _ mem 0 (by simp; omega)]
    simp
    omega
  simp only [vsnprintf, printTo_eq, outputs_eq hcount, hret, hlow, or_false]

theorem vsnprintf_mem (hcount : NoCount strAt format args)
    (hlen : (text strAt format args).length < INT_MAX) (mem : Mem 32) (str size : U32) :
    (vsnprintf strAt mem str size format args).2 =
      if str = 0 ∨ size = 0 then mem
      else mem.store str ((text strAt format args).take (size.toNat - 1) ++ [0]) := by
  have hmax : INT_MAX < 2 ^ 32 := by decide
  simp only [vsnprintf, printTo_eq, outputs_eq hcount,
    finish_chars _ _ _ mem (show (text strAt format args).length < 2 ^ 32 by omega)]
  by_cases hnull : str = 0
  · by_cases hzero : size = 0 <;> simp [hnull, hzero]
  · simp only [hnull, false_and, false_or, if_false]

/-- What `vsnprintf` promises for a buffer: it stays inside, returns the same for every other
    buffer, and leaves the text cut to the size. -/
structure Truncates (strAt : U32 → List Byte) (format : List Byte) (args : VaList) (mem : Mem 32)
    (str size : U32) : Prop where
  inside : ∀ a, (∀ i < size.toNat, a ≠ str + BitVec.ofNat 32 i) →
    (vsnprintf strAt mem str size format args).2 a = mem a
  same_return : ∀ mem' str' size', (vsnprintf strAt mem' str' size' format args).1 =
    (vsnprintf strAt mem str size format args).1
  all_counted : (vsnprintf strAt mem str size format args).1 ≠ -1 →
    (vsnprintf strAt mem str size format args).1 = (text strAt format args).length
  held : (vsnprintf strAt mem str size format args).1 ≠ -1 → 0 < size → str ≠ 0 →
    (vsnprintf strAt mem str size format args).2.At str
      ((text strAt format args).take
        (min (vsnprintf strAt mem str size format args).1.toNat (size.toNat - 1)) ++ [0])
  nothing : size = 0 ∨ str = 0 → (vsnprintf strAt mem str size format args).2 = mem

/-- **Truncation.** For a format without `%n` and a text shorter than `INT_MAX`, with a buffer of
    any size: nothing outside of the buffer is written, the return value does not depend on the
    buffer and counts the whole text, and the buffer holds as much of the text as fits before a
    NUL.  Without a buffer nothing is written. -/
theorem vsnprintf_truncates (hcount : NoCount strAt format args)
    (hlen : (text strAt format args).length < INT_MAX) (mem : Mem 32) (str size : U32) :
    Truncates strAt format args mem str size := by
  have hreturn := vsnprintf_return hcount hlen
  have hmem := vsnprintf_mem hcount hlen mem str size
  have hsize := size.isLt
  have hcounted : (vsnprintf strAt mem str size format args).1 ≠ -1 →
      (vsnprintf strAt mem str size format args).1 = (text strAt format args).length := by
    intro hret
    rw [hreturn] at hret ⊢
    split_ifs at hret ⊢
    · exact absurd rfl hret
    · rfl
  refine ⟨?_, fun _ _ _ => by rw [hreturn, hreturn], hcounted, ?_, ?_⟩
  · intro a houtside
    rw [hmem]
    split_ifs with hnone
    · rfl
    have hpos : size.toNat ≠ 0 := fun h => hnone (.inr (BitVec.eq_of_toNat_eq h))
    have hroom : ((text strAt format args).take (size.toNat - 1) ++ [0]).length ≤ size.toNat := by
      simp
      omega
    rw [Mem.store_apply (by omega), if_neg]
    intro hin
    apply houtside (a - str).toNat (by omega)
    rw [BitVec.ofNat_toNat, BitVec.setWidth_eq]
    ring
  · intro hret hpos hnull
    have hzero : size ≠ 0 := fun h => by simp [h] at hpos
    rw [hmem, if_neg (by simp only [hnull, hzero, or_self, not_false_eq_true]), hcounted hret,
      Int.toNat_natCast, min_comm, ← List.take_take, List.take_length]
    apply Mem.load_store
    simp
    omega
  · intro hnone
    rw [hmem, if_pos hnone.symm]

end Buffer

def fourArgs (a b c d : U32) : VaList := ⟨fun n => [a, b, c, d].getD n 0, 0⟩

def bracketed : List Byte := [chr '[', chr '%', chr '5', chr 'd', chr ']']

theorem outputs_bracketed : outputs (fun _ => []) bracketed (fourArgs 42 0 0 0) =
    chars [chr '[', chr ' ', chr ' ', chr ' ', chr '4', chr '2', chr ']'] := by decide +kernel

/-- Of the seven characters, six and a NUL go into a buffer of seven bytes. -/
theorem vsnprintf_truncates_bracketed :
    Truncates (fun _ => []) bracketed (fourArgs 42 0 0 0) (fun _ => 0xff) 0x1000 7 ∧
      text (fun _ => []) bracketed (fourArgs 42 0 0 0) =
        [chr '[', chr ' ', chr ' ', chr ' ', chr '4', chr '2', chr ']'] ∧
      (vsnprintf (fun _ => []) (fun _ => 0xff) 0x1000 7 bracketed (fourArgs 42 0 0 0)).1 = 7 := by
  have htext : text (fun _ => []) bracketed (fourArgs 42 0 0 0) =
      [chr '[', chr ' ', chr ' ', chr ' ', chr '4', chr '2', chr ']'] := by
    rw [text, outputs_bracketed]
    rfl
  refine ⟨vsnprintf_truncates ?_ ?_ _ _ _, htext, by decide +kernel⟩
  · rw [NoCount, outputs_bracketed]
    simp [chars]
  · rw [htext]
    decide

end MiniHaywire.Printf
