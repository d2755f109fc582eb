import MiniHaywire.TinfReader

/-!
# Trees

`tinf_build_tree` makes a tree of the lengths of the words, and accepts the lengths of the
codes that can be read.  `Decodes` says that `tinf_decode_symbol` reads a code with a
tree.  The tree may have more words than the code: one with a single word gets a
second one, for a symbol that is above all others.
-/

namespace MiniHaywire.Tinf

open CanonicalCode CanonicalCode.Code Deflate

/-! ### Reading a symbol -/

/-- The tree has the words of the code, which is complete. -/
structure Represents (t : Tree) (c : Code) : Prop where
  complete : c.Complete 15
  num_le : c.num ≤ 288
  counts : ∀ n < 16, t.counts n = c.used n
  symbols : ∀ s, c.Coded s → t.symbols (c.index s) = s

/-- With the tree the words of the code are read; a symbol that is not of the code is above
    `max_sym`, and the symbols of the code up to `cap` are not. -/
def Decodes (t : Tree) (c : Code) (cap : Nat) : Prop :=
  ∀ ⦃e : Env⦄ ⦃bit : Nat → Bool⦄, e.Has bit → ∀ (d : Data) (p : Nat),
    ∃ s n, tinfDecodeSymbol e t (d.read e bit p) = .ok (s, d.read e bit (p + n)) ∧
      ((s : Int) ≤ t.maxSym → c.WordAt bit p s) ∧
      ∀ s', c.WordAt bit p s' → s' = s ∧ n = c.len s ∧ (s ≤ cap → (s : Int) ≤ t.maxSym)

variable {t : Tree} {c : Code}

/-- A call returns an error. -/
def Fails {α : Type} (r : Except Stop α) : Prop := r = .error .dataError ∨ r = .error .bufError

/-- A call succeeds, with what `Q` says, if `P` holds, and fails if not. -/
def Checks {α : Type} (P : Prop) (Q : α → Prop) (r : Except Stop α) : Prop :=
  (¬ P ∧ Fails r) ∨ (P ∧ ∃ a, r = .ok a ∧ Q a)

theorem Fails.bind {α β : Type} {r : Except Stop α} (h : Fails r) (f : α → Except Stop β) :
    Fails (r >>= f) := by
  obtain rfl | rfl := h
  exacts [.inl rfl, .inr rfl]

theorem fetch_eq {size i : Nat} {a : Nat → Nat} (h : i < size) : fetch size a i = .ok (a i) :=
  if_pos h

theorem put_eq {size i : Nat} {a : Nat → Nat} (h : i < size) (v : Nat) :
    put size a i v = .ok (Function.update a i v) := if_pos h

theorem Represents.decodeLoop_read (h : Represents t c) {e : Env} {bit : Nat → Bool}
    (he : e.Has bit) (d : Data) (p : Nat) : ∀ fuel n : Nat, n + fuel = 15 →
    c.Above bit p n → ∃ s, c.WordAt bit p s ∧
      decodeLoop e t fuel (n + 1) (c.offset (n + 1))
        (word bit p n - (c.first n + c.used n)) (d.read e bit (p + n)) =
      .ok (s, d.read e bit (p + c.len s)) := by
  intro fuel
  induction fuel with
  | zero =>
    intro n hn habove
    exact absurd (show c.Above bit p 15 from hn ▸ habove) h.complete.not_above
  | succ fuel ih =>
    intro n hn habove
    simp only [decodeLoop, tinfGetbits_read he d _ (show 1 ≤ 24 by omega), except_ok_bind,
      value_one, habove.sub_first, h.counts (n + 1) (by omega)]
    split
    case isTrue hlt =>
      obtain ⟨s, hs, hlen, hindex⟩ := habove.wordAt hlt
      have hin : c.index s < 288 := hs.1.index_lt_num.trans_le h.num_le
      refine ⟨s, hs, ?_⟩
      rw [← hindex, assert_pos hin, except_ok_bind, fetch_eq hin, except_ok_bind, h.symbols s hs.1,
        hlen, Nat.add_assoc]
    case isFalse hge =>
      rw [Nat.sub_sub, Nat.add_assoc]
      exact ih (n + 1) (by omega) (habove.succ hge)

theorem Represents.decodes (h : Represents t c) {cap : Nat}
    (hmax : ∀ s ≤ cap, c.Coded s → (s : Int) ≤ t.maxSym) : Decodes t c cap := by
  intro e bit he d p
  obtain ⟨s, hs, hloop⟩ := h.decodeLoop_read he d p 15 0 rfl above_zero
  exact ⟨s, c.len s, hloop, fun _ => hs, fun s' hs' =>
    ⟨hs'.unique hs, rfl, fun hcap => hmax s hcap hs.1⟩⟩

theorem decodes_single {s : Nat} (hs : c.Coded s) (hlen : c.len s = 1) (hindex : c.index s = 0)
    (hunique : ∀ s', c.Coded s' → s' = s) (hcount : t.counts 1 = 2) (hsym : t.symbols 0 = s)
    (hmore : t.symbols 1 = s + 1) (hmax : t.maxSym = s) (cap : Nat) : Decodes t c cap := by
  intro e bit he d p
  have hrank : c.rank s = 0 := (Nat.add_eq_zero_iff.mp hindex).2
  have hword : c.WordAt bit p s ↔ bit p = false := by
    simp [WordAt, hs, hlen, hrank, word, first, used]
  have hb : (bit p).toNat < 2 := Bool.toNat_lt _
  have hdecode : tinfDecodeSymbol e t (d.read e bit p) =
      .ok (t.symbols (bit p).toNat, d.read e bit (p + 1)) := by
    simp only [tinfDecodeSymbol, decodeLoop, tinfGetbits_read he d p (show 1 ≤ 24 by omega),
      except_ok_bind, value_one, hcount, Nat.mul_zero, Nat.zero_add, if_pos hb,
      assert_pos (show (bit p).toNat < 288 by omega), fetch_eq (show (bit p).toNat < 288 by omega)]
  refine ⟨_, 1, hdecode, ?_⟩
  cases hbit : bit p with
  | false =>
    exact hsym.symm ▸ ⟨fun _ => hword.mpr hbit,
      fun s' hs' => ⟨hunique s' hs'.1, hlen.symm, fun _ => hmax.ge⟩⟩
  | true =>
    refine ⟨fun hle => ?_, fun s' hs' => ?_⟩
    · have hsucc : t.symbols (true.toNat) = s + 1 := hmore
      rw [hmax, hsucc] at hle
      omega
    · obtain rfl := hunique s' hs'.1
      exact absurd (hword.mp hs') (by simp [hbit])

/-! ### Counting -/

/-- `max_sym`: the last symbol with a word, or -1. -/
def Last (c : Code) (m : Int) : Prop :=
  (∀ s, c.Coded s → (s : Int) ≤ m) ∧ (m = -1 ∨ ∃ s, c.Coded s ∧ m = s)

theorem Last.eq_neg_one_iff {m : Int} (h : Last c m) : m = -1 ↔ c.Unused := by
  constructor
  · rintro rfl s hs
    have := h.1 s hs
    omega
  · exact fun hunused => h.2.resolve_right fun ⟨s, hs, _⟩ => hunused s hs

theorem used_succ (len : Nat → Nat) (i n : Nat) :
    (Code.mk len (i + 1)).used n =
      (Code.mk len i).used n + if len i ≠ 0 ∧ len i = n then 1 else 0 := by
  simp only [used, Nat.count_succ]
  split_ifs <;> omega

theorem last_succ {len : Nat → Nat} {i : Nat} {m : Int} (h : Last ⟨len, i⟩ m) :
    Last ⟨len, i + 1⟩ (if len i ≠ 0 then (i : Int) else m) := by
  by_cases hzero : len i = 0
  · rw [if_neg (not_not.mpr hzero)]
    refine ⟨fun s hs => h.1 s ⟨?_, hs.2⟩, h.2.imp_right ?_⟩
    · exact Nat.lt_of_le_of_ne (Nat.le_of_lt_succ hs.1) fun heq => hs.2 (heq ▸ hzero)
    · rintro ⟨s, hs, hm⟩
      exact ⟨s, ⟨Nat.lt_succ_of_lt hs.1, hs.2⟩, hm⟩
  · rw [if_pos hzero]
    refine ⟨fun s hs => ?_, .inr ⟨i, ⟨Nat.lt_succ_self i, hzero⟩, rfl⟩⟩
    exact_mod_cast Nat.le_of_lt_succ hs.1

section Build

variable {size : Nat} {lengths offs : Nat → Nat} (hsize : c.num ≤ size)
  (hlens : ∀ i < c.num, lengths i = c.len i) (hle : ∀ i < c.num, c.len i ≤ 15)
include hsize hlens hle

theorem countCodes_spec (hcounts : ∀ n < 16, t.counts n = 0) (hmax : t.maxSym = -1) :
    ∃ t', countCodes size lengths c.num t = .ok t' ∧ (∀ n < 16, t'.counts n = c.used n) ∧
      Last c t'.maxSym := by
  refine foldlM_range_ok (fun i (t' : Tree) => (∀ n < 16, t'.counts n = (Code.mk c.len i).used n) ∧
    Last ⟨c.len, i⟩ t'.maxSym) ⟨fun n hn => ?_, fun s hs => ?_, .inl hmax⟩ ?_
  · rw [hcounts n hn]
    simp [used]
  · exact absurd hs.1 (Nat.not_lt_zero s)
  · rintro i t' hi ⟨hcount, hlast⟩
    have hlen := hle i hi
    have hnext := last_succ hlast
    rw [fetch_eq (Nat.lt_of_lt_of_le hi hsize), except_ok_bind, hlens i hi, assert_pos hlen,
      except_ok_bind]
    by_cases hzero : c.len i = 0
    · rw [if_neg (not_not.mpr hzero)] at hnext ⊢
      refine ⟨t', rfl, fun n hn => ?_, hnext⟩
      rw [used_succ, if_neg (fun h => h.1 hzero), hcount n hn, Nat.add_zero]
    · rw [if_pos hzero] at hnext ⊢
      rw [fetch_eq (by omega), except_ok_bind, put_eq (by omega), except_ok_bind]
      refine ⟨_, rfl, fun n hn => ?_, hnext⟩
      dsimp only
      by_cases heq : n = c.len i
      · rw [heq, Function.update_self, used_succ, if_pos ⟨hzero, rfl⟩, hcount _ (by omega)]
      · rw [Function.update_of_ne heq, used_succ, if_neg (fun h => heq h.2.symm), hcount n hn,
          Nat.add_zero]

theorem sortSymbols_spec (symbols : Nat → Nat) (hnum : c.num ≤ 288)
    (hoffs : ∀ n < 16, offs n = c.offset n) :
    ∃ r, sortSymbols size lengths c.num offs symbols = .ok r ∧
      ∀ s, c.Coded s → r.2 (c.index s) = s := by
  refine (foldlM_range_ok (fun i (r : (Nat → Nat) × (Nat → Nat)) =>
    (∀ n < 16, n ≠ 0 → r.1 n = c.offset n + Nat.count (c.len · = n) i) ∧
    ∀ s < i, c.Coded s → r.2 (c.index s) = s) ⟨fun n hn _ => hoffs n hn, nofun⟩ ?_).imp
    fun r hr => ⟨hr.1, fun s hs => hr.2.2 s hs.1 hs⟩
  rintro i ⟨offs, symbols⟩ hi ⟨hoff, hsym⟩
  dsimp only at hoff hsym ⊢
  have hlen := hle i hi
  rw [fetch_eq (Nat.lt_of_lt_of_le hi hsize), except_ok_bind, hlens i hi]
  by_cases hzero : c.len i = 0
  · rw [if_neg (not_not.mpr hzero)]
    refine ⟨_, rfl, fun n hn hne => ?_, fun s hs hc => ?_⟩
    · rw [Nat.count_succ, if_neg (fun h => hne (Eq.trans (Eq.symm h) hzero)), Nat.add_zero]
      exact hoff n hn hne
    · rcases Nat.lt_or_eq_of_le (Nat.le_of_lt_succ hs) with hlt | rfl
      · exact hsym s hlt hc
      · exact absurd hzero hc.2
  · have hcoded : c.Coded i := ⟨hi, hzero⟩
    -- the next place of this length is that of the symbol
    have hplace : offs (c.len i) = c.index i := hoff _ (by omega) hzero
    rw [if_pos hzero, fetch_eq (by omega), except_ok_bind, put_eq (by omega), except_ok_bind,
      hplace, put_eq (hcoded.index_lt_num.trans_le hnum), except_ok_bind]
    refine ⟨_, rfl, fun n hn hne => ?_, fun s hs hc => ?_⟩
    · dsimp only
      rw [Nat.count_succ]
      by_cases heq : n = c.len i
      · rw [heq, Function.update_self, if_pos rfl]
        rfl
      · rw [Function.update_of_ne heq, hoff n hn hne, if_neg (Ne.symm heq), Nat.add_zero]
    · dsimp only
      rcases Nat.lt_or_eq_of_le (Nat.le_of_lt_succ hs) with hlt | rfl
      · rw [Function.update_of_ne (fun h => hlt.ne (hc.index_inj hcoded h)), hsym s hlt hc]
      · rw [Function.update_self]

end Build

/-! ### Offsets -/

theorem fits_succ {n : Nat} : c.Fits (n + 1) ↔ c.Fits n ∧ c.first n + c.used n ≤ 2 ^ n :=
  Nat.forall_lt_succ_right

theorem first_le_of_fits {n : Nat} (h : c.Fits n) : c.first n ≤ 2 ^ n := by
  cases n with
  | zero => exact Nat.zero_le _
  | succ n =>
    have hle := h n (Nat.lt_succ_self n)
    rw [first, pow_succ]
    omega

theorem offsetTable_spec {counts : Nat → Nat} (offs : Nat → Nat)
    (hcounts : ∀ n < 16, counts n = c.used n) :
    Checks (c.Fits 16) (fun o => o.available = 2 ^ 16 - c.first 16 ∧ o.numCodes = c.offset 16 ∧
      ∀ j < 16, o.offs j = c.offset j) (offsetTable counts offs) := by
  unfold offsetTable
  -- the loop up to any length, by induction on it
  generalize hm : 16 = m
  replace hm : m ≤ 16 := hm.ge
  induction m with
  | zero => exact .inr ⟨nofun, _, rfl, rfl, rfl, nofun⟩
  | succ m ih =>
    rw [List.range_succ, List.foldlM_append, fits_succ]
    rcases ih (by omega) with ⟨hfits, hfails⟩ | ⟨hfits, o, ho, havail, hnum, hoffs⟩
    · exact .inl ⟨fun h => hfits h.1, hfails.bind _⟩
    · have hle := first_le_of_fits hfits
      rw [ho, except_ok_bind, List.foldlM_cons, hcounts m (by omega), havail]
      by_cases hroom : c.first m + c.used m ≤ 2 ^ m
      · rw [if_neg (by omega)]
        refine .inr ⟨⟨hfits, hroom⟩, _, rfl, ?_, congrArg (· + _) hnum, fun j hj => ?_⟩
        · rw [first, pow_succ]
          dsimp only
          omega
        · dsimp only
          by_cases heq : j = m
          · rw [heq, Function.update_self, hnum]
          · rw [Function.update_of_ne heq, hoffs j (by omega)]
      · rw [if_pos (by omega)]
        exact .inl ⟨fun h => hroom h.2, .inl rfl⟩

/-! ### The whole -/

theorem usable_or_unused_iff (hle : ∀ s < c.num, c.len s ≤ 15) :
    (Usable c ∨ c.Unused) ↔ c.Fits 16 ∧ ¬ (c.offset 16 > 1 ∧ 2 ^ 16 - c.first 16 > 0) ∧
      ¬ (c.offset 16 = 1 ∧ c.used 1 ≠ 1) := by
  have hfirst : c.first 16 = 2 * (c.first 15 + c.used 15) := rfl
  have hwords : c.offset 16 = c.words := offset_eq_words hle
  rw [unused_iff, Usable, Single, ← hwords]
  constructor
  · rintro ((hcomplete | ⟨hone, hused⟩) | hzero)
    · have hmany : 1 < c.offset 16 := hcomplete.one_lt_offset
      have hfull := hcomplete.1
      exact ⟨hcomplete.fits, by omega, by omega⟩
    · exact ⟨fits_of_offset_le_one hone.le, by omega, by omega⟩
    · exact ⟨fits_of_offset_le_one (by omega), by omega, by omega⟩
  · rintro ⟨hfits, hmany, hone⟩
    have hroom := hfits 15 (by omega)
    rcases Nat.lt_trichotomy (c.offset 16) 1 with hlt | heq | hgt
    · exact .inr (by omega)
    · exact .inl (.inr ⟨heq, by omega⟩)
    · exact .inl (.inl ⟨by omega, hle⟩)

/-- What `tinf_build_tree` accepts, and the tree it makes of it. -/
theorem tinfBuildTree_spec {size : Nat} {lengths : Nat → Nat} (offs : Nat → Nat) (t : Tree)
    (hsize : c.num ≤ size) (hnum : c.num ≤ 288) (hlens : ∀ i < c.num, lengths i = c.len i)
    (hle : ∀ i < c.num, c.len i ≤ 15) :
    Checks (Usable c ∨ c.Unused)
      (fun t' => Last c t'.maxSym ∧ (Usable c → ∀ cap, Decodes t' c cap))
      (tinfBuildTree size offs t lengths c.num) := by
  obtain ⟨t₁, hcount, hcounts, hlast⟩ := countCodes_spec hsize hlens hle
    (t := { t with counts := fun i => if i < 16 then 0 else t.counts i, maxSym := -1 })
    (fun n hn => if_pos hn) rfl
  rw [tinfBuildTree, assert_pos hnum, except_ok_bind, hcount, except_ok_bind,
    usable_or_unused_iff hle]
  rcases offsetTable_spec offs hcounts with ⟨hfits, hfails⟩ | ⟨hfits, o, ho, havail, hcodes, hoffs⟩
  · exact .inl ⟨fun h => hfits h.1, hfails.bind _⟩
  rw [ho, except_ok_bind, havail, hcodes, hcounts 1 (by omega)]
  split
  case isTrue hbad => exact .inl ⟨by omega, .inl rfl⟩
  rename_i hgood
  obtain ⟨⟨_, symbols⟩, hsort, hsymbols⟩ := sortSymbols_spec hsize hlens hle t₁.symbols hnum hoffs
  refine .inr ⟨⟨hfits, by omega, by omega⟩, ?_⟩
  rw [hsort, except_ok_bind]
  dsimp only
  have hwords : c.offset 16 = c.words := offset_eq_words hle
  split
  case isTrue hone =>
    refine ⟨_, rfl, hlast, fun _ cap => ?_⟩
    obtain ⟨s, hs, hlen, hindex, hunique⟩ :=
      Single.exists hle ⟨hwords ▸ hone, show c.used 1 = 1 by omega⟩
    have hmax : t₁.maxSym = s := by
      obtain ⟨habove, hm | ⟨m, hm, hsome⟩⟩ := hlast
      · have := habove s hs
        omega
      · rw [hsome, hunique m hm]
    have hsym : symbols 0 = s := hindex ▸ hsymbols s hs
    refine decodes_single hs hlen hindex hunique ?_ ?_ ?_ ?_ cap <;> dsimp only
    · rw [Function.update_self]
    · rw [Function.update_of_ne (by omega), hsym]
    · rw [Function.update_self, hmax]
      rfl
    · exact hmax
  case isFalse hmany =>
    refine ⟨_, rfl, hlast, fun hu cap => ?_⟩
    have hcomplete : c.Complete 15 := hu.resolve_right fun h => hmany (hwords ▸ h.1)
    exact Represents.decodes (t := { t₁ with symbols := symbols })
      ⟨hcomplete, hnum, hcounts, hsymbols⟩ fun s _ hs => hlast.1 s hs

end MiniHaywire.Tinf
