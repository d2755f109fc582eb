import MiniHaywire.TinfCodes

/-!
# Blocks

What `tinf_uncompress` makes of a source: it ends without an access that is out of
bounds, it accepts what is a stream of the format and writes the bytes the stream
stands for, and it accepts nothing else (`tinfUncompress_accepts`).
-/

namespace MiniHaywire.Tinf

open CanonicalCode CanonicalCode.Code Deflate

/-! ### Symbols -/

section Format

variable {bit : Nat → Bool} {lit dist : Code} {p q s l length offs : Nat} {out out' : List Byte}

theorem symbols_iff (hs : lit.WordAt bit p s) : Symbols bit lit dist p out q out' ↔
    if s < 256 then Symbols bit lit dist (p + lit.len s) (out ++ [.ofNat 8 s]) q out'
    else if s = 256 then q = p + lit.len s ∧ out' = out
    else ∃ length offs r, Match bit dist (s - 257) (p + lit.len s) length offs r ∧
      offs ≤ out.length ∧ Symbols bit lit dist r (copy offs length out) q out' := by
  constructor
  · rintro (hs' | ⟨hlt, hs', hrest⟩ | ⟨hs', hmatch, hoffs, hrest⟩) <;> obtain rfl := hs.unique hs'
    · exact ⟨rfl, rfl⟩
    · rwa [if_pos hlt]
    · rw [if_neg (by omega), if_neg (by omega), Nat.add_sub_cancel_left]
      exact ⟨_, _, _, hmatch, hoffs, hrest⟩
  · split_ifs with hlt heq
    · exact .literal hlt hs
    · rintro ⟨rfl, rfl⟩
      subst heq
      exact .stop hs
    · obtain ⟨l, rfl⟩ : ∃ l, s = 257 + l := ⟨s - 257, by omega⟩
      rw [Nat.add_sub_cancel_left]
      rintro ⟨length, offs, r, hmatch, hoffs, hrest⟩
      exact .copy hs hmatch hoffs hrest

theorem length_copy (offs n : Nat) (out : List Byte) :
    (copy offs n out).length = out.length + n := by
  induction n generalizing out with
  | zero => rfl
  | succ n ih =>
    rw [copy, ih, List.length_append, List.length_singleton, Nat.add_assoc, Nat.add_comm 1]

theorem match_le (h : Match bit dist l p length offs q) :
    l ≤ 28 ∧ ¬ dist.Unused ∧ p ≤ q ∧ 0 < length ∧ 0 < offs := by
  obtain ⟨i, r, hl, -, hi, rfl, rfl, rfl, rfl⟩ := h
  refine ⟨hl, fun h => h _ hi.1, by omega, ?_, ?_⟩
  · rw [lengthLeast]
    split <;> omega
  · rw [distLeast]
    omega

theorem symbols_mono (h : Symbols bit lit dist p out q out') :
    (∃ s, lit.WordAt bit p s ∧ p + lit.len s ≤ q ∧ s ≤ 285 ∧ (256 < s → ¬ dist.Unused)) ∧
      out.length ≤ out'.length := by
  induction h with
  | stop hs => exact ⟨⟨256, hs, le_rfl, by omega, nofun⟩, le_rfl⟩
  | literal hlt hs _ ih =>
    obtain ⟨⟨_, _, hle, -⟩, hlen⟩ := ih
    rw [List.length_append] at hlen
    exact ⟨⟨_, hs, by omega, by omega, by omega⟩, by omega⟩
  | copy hs hmatch _ _ ih =>
    obtain ⟨⟨_, _, hle, -⟩, hlen⟩ := ih
    obtain ⟨hl, hdist, _⟩ := match_le hmatch
    rw [length_copy] at hlen
    exact ⟨⟨_, hs, by omega, by omega, fun _ => hdist⟩, by omega⟩

theorem block_mono (h : Block bit p out q out') : p ≤ q ∧ out.length ≤ out'.length := by
  unfold Block at h
  split at h
  · obtain ⟨-, rfl, rfl⟩ := h
    rw [List.length_append]
    omega
  · obtain ⟨⟨_, _, hle, -⟩, hlen⟩ := symbols_mono h
    exact ⟨by omega, hlen⟩
  · obtain ⟨ls, r, hhead, hsymbols⟩ := h
    obtain ⟨⟨_, _, hle, -⟩, hlen⟩ := symbols_mono hsymbols
    have := (lengths_spec hhead.lengths rfl fun l hl => absurd hl List.not_mem_nil).2.2
    exact ⟨by omega, hlen⟩
  · exact h.elim

theorem blocks_mono (h : Blocks bit p out q out') : p ≤ q ∧ out.length ≤ out'.length := by
  induction h with
  | last _ hblock =>
    have := block_mono hblock
    omega
  | more _ hblock _ ih =>
    have := block_mono hblock
    omega

theorem length_bytes (bit : Nat → Bool) (k n : Nat) : (bytes bit k n).length = n := by
  induction n generalizing k with
  | zero => rfl
  | succ n ih => rw [bytes, List.length_cons, ih]

end Format

/-! ### Matches -/

theorem lengthTable_eq : ∀ l ≤ 28, lengthBits l = lengthExtra l ∧ lengthBase l = lengthLeast l ∧
    lengthExtra l ≤ 5 := by
  decide

theorem distTable_eq : ∀ i ≤ 29, distBits i = distExtra i ∧ distBase i = distLeast i ∧
    distExtra i ≤ 13 := by
  decide

/-- The end of what was read, and the bytes, fit. -/
def Room (e : Env) (q : Nat) (out : List Byte) : Prop := e.Inside q ∧ out.length ≤ e.destLen

/-- Both areas are smaller than 2 GiB: differences of pointers into them are not negative. -/
structure Env.Small (e : Env) : Prop where
  dest : e.destLen < 2 ^ 31
  source : ∀ last, e.sourceEnd = some last → last < 2 ^ 31

theorem ptrdiff_eq {p q : Nat} (hle : q ≤ p) (hp : p < 2 ^ 31) : ptrdiff p q = (p - q : Nat) := by
  rw [ptrdiff, Int.bmod_eq_of_le] <;> omega

/-- A call reads what stands in the source, and fails if nothing does or it has no room. -/
inductive Reads (e : Env) (bit : Nat → Bool) (P : Nat → List Byte → Prop) (r : Except Stop Data) :
    Prop where
  | fails : Fails r → (∀ q out, P q out → ¬ Room e q out) → Reads e bit P r
  | succeeds {d : Data} {q : Nat} : r = .ok (d.read e bit q) → Room e q d.dest →
      (∀ q' out, P q' out ↔ q' = q ∧ out = d.dest) → Reads e bit P r

section Reading

variable {e : Env} {bit : Nat → Bool} (hsmall : e.Small) (he : e.Has bit) (d : Data)
  {lt dt : Tree} {lit dist : Code} {p k l : Nat}

theorem copyMatch_read {offs : Nat} (hoffs : 0 < offs) (p n : Nat) (hle : offs ≤ d.dest.length)
    (hroom : d.dest.length + n ≤ e.destLen) :
    copyMatch e offs n (d.read e bit p) =
      .ok ({ d with dest := copy offs n d.dest }.read e bit p) := by
  induction n generalizing d with
  | zero => rfl
  | succ n ih =>
    rw [copyMatch, if_pos ⟨hoffs, hle⟩, Env.emit, if_pos (by rw [read_dest]; omega), except_ok_bind]
    have hlen : ∀ b : Byte, (d.dest ++ [b]).length = d.dest.length + 1 := fun b => by simp
    exact ih { d with dest := d.dest ++ [d.dest.getD (d.dest.length - offs) 0] }
      (by rw [hlen]; omega) (by rw [hlen]; omega)

include he

theorem matchAt_finds (hdec : Decodes dt dist 29) (hl : l ≤ 28) (p : Nat)
    (hlen : d.dest.length < 2 ^ 31) :
    Finds (fun x : (Nat × Nat) × Nat =>
        Match bit dist l p x.1.1 x.1.2 x.2 ∧ x.1.2 ≤ d.dest.length)
      (fun x r => r = (x.1, d.read e bit x.2)) (matchAt e dt l (d.read e bit p)) := by
  obtain ⟨hbits, hbase, hle⟩ := lengthTable_eq l hl
  obtain ⟨i, n, hdecode, hword, hunique⟩ := hdec he d (p + lengthExtra l)
  simp only [matchAt, fetch_eq (show l < 30 by omega), hbits, hbase, except_ok_bind, hdecode,
    tinfGetbitsBase_read he d p _ (show lengthExtra l ≤ 24 by omega)]
  split
  case isTrue hbad =>
    refine .fails (.inl rfl) ?_
    rintro x ⟨⟨j, _, -, hle', hj, -⟩, -⟩
    obtain ⟨rfl, -, htop⟩ := hunique j hj
    have := htop hle'
    omega
  rename_i hgood
  have hi := hword (by omega)
  obtain ⟨-, rfl, -⟩ := hunique i hi
  obtain ⟨hdbits, hdbase, hdle⟩ := distTable_eq i (by omega)
  have hfetch : ∀ a, fetch 30 a i = .ok (a i) := fun a => fetch_eq (by omega)
  rw [hfetch, except_ok_bind, hfetch, except_ok_bind, hdbits, hdbase,
    tinfGetbitsBase_read he d _ _ (by omega), except_ok_bind]
  dsimp only
  rw [read_dest, ptrdiff_eq (Nat.zero_le _) hlen, Nat.sub_zero]
  split
  case isTrue hfar =>
    refine .fails (.inl rfl) ?_
    rintro x ⟨⟨j, r, -, -, hj, rfl, -, hoffs, -⟩, hle⟩
    obtain rfl := hi.unique hj
    omega
  rename_i hnear
  refine .succeeds (a := ((_, _), _)) rfl (fun x => ⟨?_, ?_⟩) rfl
  · rintro ⟨⟨j, r, -, -, hj, rfl, hlength, hoffs, hr⟩, -⟩
    obtain rfl := hi.unique hj
    exact Prod.ext (Prod.ext hlength hoffs) hr
  · rintro rfl
    exact ⟨⟨i, _, hl, by omega, hi, rfl, rfl, rfl, rfl⟩, Int.ofNat_le.mp (not_lt.mp hnear)⟩

/-! ### Blocks of symbols -/

omit he in
theorem Reads.congr {P Q : Nat → List Byte → Prop} {r : Except Stop Data}
    (h : Reads e bit P r) (hiff : ∀ q out, Q q out ↔ P q out) : Reads e bit Q r := by
  rwa [show Q = P from funext fun q => funext fun out => propext (hiff q out)]

omit he in
/-- After one symbol: the loop has no room for its bytes, or goes on behind it. -/
theorem Reads.next {P : Nat → List Byte → Prop} {r : Except Stop Data} {q : Nat} {out : List Byte}
    (hiff : ∀ q' out', P q' out' ↔ Symbols bit lit dist q out q' out')
    (h : e.destLen < out.length ∧ Fails r ∨ Reads e bit (Symbols bit lit dist q out) r) :
    Reads e bit P r := by
  rcases h with ⟨hfull, hfails⟩ | h
  · refine .fails hfails fun q' out' hx hfits => ?_
    have hle := (symbols_mono ((hiff q' out').mp hx)).2.trans hfits.2
    omega
  · exact h.congr hiff

include hsmall in
theorem blockLoop_reads (htrees : Trees lt dt lit dist) : ∀ (fuel p : Nat) (d : Data),
    d.dest.length ≤ e.destLen → e.destLen < d.dest.length + fuel →
    Reads e bit (Symbols bit lit dist p d.dest) (blockLoop e lt dt fuel (d.read e bit p)) := by
  intro fuel
  induction fuel with
  | zero =>
    intro p d hroom hfuel
    omega
  | succ fuel ih =>
    intro p d hroom hfuel
    have hdest := hsmall.dest
    obtain ⟨s, n, hdecode, hword, hunique⟩ := htrees.lit he d p
    have hends := htrees.ends
    simp only [blockLoop, hdecode, except_ok_bind]
    split
    case isTrue hover =>
      refine .fails (.inl rfl) fun q out hx hfits => (read_overflow d).mp hover ?_
      obtain ⟨⟨s', hs', hle, -⟩, -⟩ := symbols_mono hx
      obtain ⟨rfl, rfl, -⟩ := hunique s' hs'
      exact hfits.1.mono hle
    rename_i hover
    replace hover := not_not.mp (mt (read_overflow d).mpr hover)
    rw [read_dest]
    rcases Nat.lt_trichotomy s 256 with hlt | rfl | hgt
    · have hs := hword (by omega)
      obtain ⟨-, rfl, -⟩ := hunique s hs
      have hlen : (d.dest ++ [BitVec.ofNat 8 s]).length = d.dest.length + 1 := by simp
      have hiff : ∀ q out, Symbols bit lit dist p d.dest q out ↔
          Symbols bit lit dist (p + lit.len s) (d.dest ++ [.ofNat 8 s]) q out := by
        intro q out
        rw [symbols_iff hs, if_pos hlt]
      rw [if_pos hlt]
      refine .next hiff ?_
      split
      case isTrue hfull => exact .inl ⟨by omega, .inr rfl⟩
      case isFalse hfull =>
        rw [Env.emit, if_pos (by rw [read_dest]; omega), except_ok_bind]
        exact .inr (ih (p + lit.len s) { d with dest := d.dest ++ [.ofNat 8 s] }
          (by rw [hlen]; omega) (by rw [hlen]; omega))
    · have hs := hword hends
      obtain ⟨-, rfl, -⟩ := hunique 256 hs
      exact .succeeds rfl ⟨hover, hroom⟩ fun q out => symbols_iff hs
    · rw [if_neg (by omega), if_neg (by omega)]
      split
      case isTrue hbad =>
        refine .fails (.inl rfl) fun q out hx _ => ?_
        obtain ⟨⟨s', hs, -, hle, hused⟩, -⟩ := symbols_mono hx
        obtain ⟨rfl, -, htop⟩ := hunique s' hs
        have hnone : dt.maxSym ≠ -1 := fun h => by
          have hunused := htrees.dist
          rw [if_pos h] at hunused
          exact hused hgt hunused
        have := htop hle
        omega
      rename_i hgood
      have hs := hword (by omega)
      obtain ⟨-, rfl, -⟩ := hunique _ hs
      have hdist := htrees.dist
      rw [if_neg (by omega)] at hdist
      have hiff : ∀ q' out, Symbols bit lit dist p d.dest q' out ↔ _ := fun q' out =>
        (symbols_iff hs).trans (by rw [if_neg (by omega), if_neg (by omega)])
      cases matchAt_finds he d hdist (show s - 257 ≤ 28 by omega) (p + lit.len s)
        (by omega) with
      | fails hfails hnone =>
        refine .fails (hfails.bind _) fun q' out hx _ => ?_
        obtain ⟨length, offs, r, hm, hle, -⟩ := (hiff q' out).mp hx
        exact hnone ((length, offs), r) ⟨hm, hle⟩
      | @succeeds a r hat hmatch hr =>
        obtain ⟨⟨length, offs⟩, q⟩ := a
        obtain ⟨hm, hle⟩ : Match bit dist _ _ length offs q ∧ _ := (hmatch _).mpr rfl
        obtain ⟨-, -, -, hlength, hoffs⟩ := match_le hm
        have hlen := length_copy offs length d.dest
        replace hiff : ∀ q' out, Symbols bit lit dist p d.dest q' out ↔
            Symbols bit lit dist q (copy offs length d.dest) q' out := by
          refine fun q' out => (hiff q' out).trans ⟨?_, fun h => ⟨length, offs, q, hm, hle, h⟩⟩
          rintro ⟨length', offs', r', hm', hle', h⟩
          obtain ⟨⟨⟩, rfl⟩ := Prod.mk.inj ((hmatch ((length', offs'), r')).mp ⟨hm', hle'⟩)
          exact h
        rw [hat, hr, except_ok_bind]
        dsimp only
        rw [read_dest, ptrdiff_eq hroom hdest]
        refine .next hiff ?_
        split
        case isTrue hfull => exact .inl ⟨by omega, .inr rfl⟩
        case isFalse hfull =>
          rw [copyMatch_read d hoffs q length hle (by omega), except_ok_bind]
          exact .inr (ih q { d with dest := copy offs length d.dest } (by rw [hlen]; omega)
            (by rw [hlen]; omega))

/-! ### Stored blocks -/

theorem readLe16_read (h : e.Inside (8 * (k + 2))) :
    readLe16 e.src k = .ok (.ofNat 32 (value bit (8 * k) 16)) := by
  have hlt := value_lt bit (8 * k) 8
  have hlow : (BitVec.ofNat 8 (value bit (8 * k) 8)).setWidth 32 =
      .ofNat 32 (value bit (8 * k) 8) :=
    BitVec.eq_of_toNat_eq <| by
      rw [BitVec.toNat_setWidth, BitVec.toNat_ofNat, BitVec.toNat_ofNat]
      omega
  rw [readLe16, readByte_eq he (h.mono (by omega)), except_ok_bind,
    readByte_eq he (h.mono (by omega)),
    except_ok_bind, hlow, ofNat_or_byte (value_lt _ _ _) (by omega) (value_lt _ _ _),
    value_add _ _ 8 8, Nat.mul_succ]

theorem copyStored_eq (n : Nat) (hsrc : e.Inside (8 * (d.source + n)))
    (hroom : d.dest.length + n ≤ e.destLen) :
    copyStored e n d = .ok { d with
      source := d.source + n, dest := d.dest ++ bytes bit d.source n } := by
  induction n generalizing d with
  | zero =>
    rw [bytes, List.append_nil]
    rfl
  | succ n ih =>
    have hlen : ∀ b : Byte, (d.dest ++ [b]).length = d.dest.length + 1 := fun b => by simp
    rw [copyStored, readByte_eq he (hsrc.mono (by omega)), except_ok_bind, Env.emit,
      if_pos (by omega),
      except_ok_bind, ih _ (hsrc.mono (by dsimp only; omega)) (by rw [hlen]; omega), bytes]
    simp [Nat.add_assoc, Nat.add_comm 1]

omit he in
theorem invlength_iff {v w : Nat} (hv : v < 2 ^ 16) (hw : w < 2 ^ 16) :
    BitVec.ofNat 32 v = ~~~ BitVec.ofNat 32 w &&& 0x0000FFFF ↔ w = 2 ^ 16 - 1 - v := by
  have hmask : (~~~ BitVec.ofNat 32 w &&& 0x0000FFFF : U32).toNat = 2 ^ 16 - 1 - w := by
    have hf : (0x0000FFFF : U32).toNat = 2 ^ 16 - 1 := rfl
    rw [BitVec.toNat_and, hf, Nat.and_two_pow_sub_one_eq_mod, BitVec.toNat_not, BitVec.toNat_ofNat]
    omega
  rw [← BitVec.toNat_inj, hmask, BitVec.toNat_ofNat]
  omega

omit he in
include hsmall in
theorem left_iff {n : Nat} (h : 0 < n ∨ e.Inside (8 * k)) {f : Int → Int}
    (hf : ∀ m : Nat, m < 2 ^ 31 → f m = m) :
    (e.left (e.sourceEnd.elim k (min k))).any (fun x => f x < n) = true ↔
      ¬ e.Inside (8 * (k + n)) := by
  unfold Env.left Env.Inside at *
  cases hend : e.sourceEnd with
  | none => simp
  | some last =>
    have hlast := hsmall.source last hend
    simp only [hend, Option.elim_some, Option.some.injEq, forall_eq', Option.map_some,
      Option.any_some, ptrdiff_eq (min_le_right k last) hlast, hf (last - min k last) (by omega)]
      at h ⊢
    exact decide_eq_true_iff.trans (by omega)

include hsmall in
theorem stored_reads (p : Nat) (hroom : d.dest.length ≤ e.destLen) :
    Reads e bit (fun q out =>
      let k := (p + 9) / 8
      let n := value bit (8 * k) 16
      value bit (8 * (k + 2)) 16 = 2 ^ 16 - 1 - n ∧ q = 8 * (k + 4 + n) ∧
        out = d.dest ++ bytes bit (k + 4) n)
      (tinfInflateUncompressedBlock e (d.read e bit (p + 2))) := by
  have hsource : (d.read e bit (p + 2)).source =
      e.sourceEnd.elim ((p + 9) / 8) (min ((p + 9) / 8)) := rfl
  have hover : (d.read e bit (p + 2)).overflow = e.sourceEnd.any (· < (p + 9) / 8) := rfl
  generalize (p + 9) / 8 = k at *
  have hlt := value_lt bit (8 * k) 16
  dsimp only
  generalize hn : value bit (8 * k) 16 = n at *
  have htoNat : (BitVec.ofNat 32 n).toNat = n := Nat.mod_eq_of_lt (by omega)
  have hdest := hsmall.dest
  have hshort4 := left_iff (k := k) (n := 4) hsmall (.inl (by omega)) (f := id) fun _ _ => rfl
  rw [tinfInflateUncompressedBlock, hsource]
  split
  case isTrue hshort =>
    refine .fails (.inl rfl) ?_
    rintro q out ⟨-, rfl, -⟩ hfits
    exact hshort4.mp hshort (hfits.1.mono (by omega))
  rename_i hshort
  have hin := not_not.mp (mt hshort4.mpr hshort)
  rw [(hin.source (by omega)).1, readLe16_read he (hin.mono (by omega)), except_ok_bind,
    readLe16_read he (hin.mono (by omega)), except_ok_bind, hn]
  have hinv := invlength_iff hlt (value_lt bit (8 * (k + 2)) 16)
  split
  case isTrue hbad =>
    refine .fails (.inl rfl) ?_
    rintro q out ⟨hsame, -⟩
    exact absurd (hinv.mpr hsame) hbad
  rename_i hsame
  replace hsame := hinv.mp (not_not.mp hsame)
  have hshort' := left_iff (n := n) hsmall (.inr hin) (f := (· % 2 ^ 32)) fun m hm => by omega
  rw [(hin.source (le_refl _)).1] at hshort'
  dsimp only
  rw [htoNat, read_dest, ptrdiff_eq hroom hdest]
  split
  case isTrue hend =>
    refine .fails (.inl rfl) ?_
    rintro q out ⟨-, rfl, -⟩ hfits
    exact hshort'.mp hend hfits.1
  rename_i hend
  have hend := not_not.mp (mt hshort'.mpr hend)
  split
  case isTrue hfull =>
    refine .fails (.inr rfl) ?_
    rintro q out ⟨-, -, rfl⟩ hfits
    have := hfits.2
    rw [List.length_append, length_bytes] at this
    omega
  rename_i hfull
  rw [copyStored_eq he _ n hend (by dsimp only [read_dest]; omega), except_ok_bind]
  refine .succeeds (d := { d with dest := d.dest ++ bytes bit (k + 4) n })
    (q := 8 * (k + 4 + n)) ?_ ⟨hend, ?_⟩ fun q out => and_iff_right hsame
  · have hall : (8 * (k + 4 + n) + 7) / 8 = k + 4 + n := by omega
    rw [hover, (hend.source (show 8 * k ≤ _ by omega)).2]
    simp only [Data.read, Data.holding, hall, Nat.sub_self, value, hend.source (le_refl _)]
    rfl
  · rw [List.length_append, length_bytes]
    omega

/-! ### Blocks -/

include hsmall

theorem inflateBlock_reads (p : Nat) (hroom : d.dest.length ≤ e.destLen) :
    Reads e bit (Block bit p d.dest) (inflateBlock e (value bit p 2) (d.read e bit (p + 2))) := by
  unfold Block
  match value bit p 2 with
  | 0 => exact stored_reads hsmall he d p hroom
  | 1 =>
    exact blockLoop_reads hsmall he (trees_fixed d.ltree d.dtree) (e.destLen + 1) (p + 2) { d with
      ltree := (tinfBuildFixedTrees d.ltree d.dtree).1
      dtree := (tinfBuildFixedTrees d.ltree d.dtree).2 } hroom (by omega)
  | 2 =>
    cases tinfDecodeTrees_finds he d (p + 2) with
    | fails hfails hnone =>
      refine .fails (hfails.bind _) ?_
      rintro q out ⟨ls, r, hx, -⟩ -
      exact hnone (ls, r) hx
    | @succeeds a _ hdecode hhead hfound =>
      obtain ⟨ls, r⟩ := a
      obtain ⟨lt, dt, rfl, htrees⟩ := hfound
      rw [inflateBlock, tinfInflateDynamicBlock, hdecode, except_ok_bind]
      refine (blockLoop_reads hsmall he htrees (e.destLen + 1) r { d with ltree := lt, dtree := dt }
        hroom
        (by omega)).congr fun q out => ⟨?_, fun hx => ⟨ls, r, (hhead (ls, r)).mpr rfl, hx⟩⟩
      rintro ⟨ls', r', hx, hsymbols⟩
      obtain ⟨rfl, rfl⟩ := Prod.mk.inj ((hhead (ls', r')).mp hx)
      exact hsymbols
  | n + 3 => exact .fails (.inl rfl) fun q out hx => hx.elim

/-- The blocks are read, if the rounds are enough: each one goes at least a bit forward. -/
theorem uncompressLoop_reads : ∀ (fuel p : Nat) (d : Data), Room e p d.dest →
    (uncompressLoop e fuel (d.read e bit p) = .error .fuel ∧ e.Inside (p + fuel) ∧
      ∀ q out, Blocks bit p d.dest q out → p + fuel ≤ q) ∨
    Reads e bit (Blocks bit p d.dest) (uncompressLoop e fuel (d.read e bit p)) := by
  intro fuel
  induction fuel with
  | zero => exact fun p d hroom => .inl ⟨rfl, hroom.1, fun q out h => (blocks_mono h).1⟩
  | succ fuel ih =>
    intro p d hroom
    simp only [uncompressLoop, tinfGetbits_read he d _ (show 1 ≤ 24 by omega),
      tinfGetbits_read he d _ (show 2 ≤ 24 by omega), except_ok_bind, value_one]
    cases inflateBlock_reads hsmall he d (p + 1) hroom.2 with
    | fails hfails hnone =>
      refine .inr (.fails (hfails.bind _) ?_)
      rintro q out (⟨-, hx⟩ | ⟨-, hx, hrest⟩) hfits
      · exact hnone q out hx hfits
      · have hle := blocks_mono hrest
        exact hnone _ _ hx ⟨hfits.1.mono hle.1, hle.2.trans hfits.2⟩
    | @succeeds d' q hblock hfits hiff =>
      have hle := (block_mono ((hiff q d'.dest).mpr ⟨rfl, rfl⟩)).1
      rw [hblock, except_ok_bind]
      cases hbit : bit p with
      | true =>
        refine .inr (.succeeds rfl hfits fun q' out => ?_)
        rw [← hiff]
        refine ⟨?_, .last hbit⟩
        rintro (⟨-, hx⟩ | ⟨hmore, -⟩)
        · exact hx
        · exact absurd (hbit.symm.trans hmore) Bool.noConfusion
      | false =>
        have hnext : ∀ q' out, Blocks bit p d.dest q' out ↔ Blocks bit q d'.dest q' out := by
          refine fun q' out => ⟨?_, .more hbit ((hiff _ _).mpr ⟨rfl, rfl⟩)⟩
          rintro (⟨hlast, -⟩ | ⟨-, hx, hrest⟩)
          · exact absurd (hbit.symm.trans hlast) Bool.noConfusion
          · obtain ⟨rfl, rfl⟩ := (hiff _ _).mp hx
            exact hrest
        refine (ih q d' hfits).imp ?_ fun h => h.congr hnext
        rintro ⟨hloop, hin, hfar⟩
        refine ⟨hloop, hin.mono (by omega), fun q' out h => ?_⟩
        have := hfar q' out ((hnext q' out).mp h)
        omega

end Reading

/-! ### The whole -/

section Uncompress

/-- What can be read of the memory from the source on: all of it, if no end is given. -/
def source (mem : Nat → Byte) (sourceLen k : Nat) : Option Byte :=
  if sourceLen = 0 ∨ k < sourceLen then some (mem k) else none

variable (stack : Nat → Nat) (destLen sourceLen : Nat) (mem : Nat → Byte)

theorem small_callEnv (src : Nat → Option Byte) (hdest : destLen < 2 ^ 31)
    (hsource : sourceLen < 2 ^ 31) : (callEnv stack destLen src sourceLen).Small := by
  refine ⟨hdest, fun last hlast => ?_⟩
  unfold callEnv at hlast
  split_ifs at hlast
  cases hlast
  exact hsource

theorem inside_callEnv (src : Nat → Option Byte) (p : Nat) :
    (callEnv stack destLen src sourceLen).Inside p ↔ sourceLen = 0 ∨ p ≤ 8 * sourceLen := by
  unfold Env.Inside callEnv
  split_ifs with h
  · simp [h]
  · simp [not_not.mp h]

theorem has_source : (callEnv stack destLen (source mem sourceLen) sourceLen).Has
    (bitOf fun k => (source mem sourceLen k).getD 0) := by
  refine ⟨fun k h => ?_, fun k h => ?_⟩
  all_goals rw [inside_callEnv] at h
  · have hsrc : source mem sourceLen k = some (mem k) := if_pos (by omega)
    rw [value_byte, hsrc]
    simp [callEnv, hsrc]
  · rw [value_byte, source, if_neg (by omega)]
    rfl

/-- What `tinf_uncompress` does with any source, if both areas are smaller than 2 GiB.  It
    accesses nothing out of bounds and fails no assertion, and it returns if the rounds are
    enough: more than the source has bits, or than the stream in front has.  Then it succeeds
    if the source is a stream for bytes for which there is room, and has written these. -/
theorem tinfUncompress_accepts (d : Data) (fuel : Nat) (hdest : destLen < 2 ^ 31)
    (hsource : sourceLen < 2 ^ 31) :
    let src := source mem sourceLen
    let bit := bitOf fun k => (src k).getD 0
    let r := tinfUncompress fuel stack d destLen src sourceLen
    (r = .error .fuel ∧ (sourceLen = 0 ∨ fuel ≤ 8 * sourceLen) ∧
      ∀ p out, Blocks bit 0 [] p out → fuel ≤ p) ∨
    (Fails r ∨ ∃ x, r = .ok x) ∧ ∀ out n, r = .ok (out, n) ↔ ∃ p, Blocks bit 0 [] p out ∧
      out.length ≤ destLen ∧ n = (p + 7) / 8 % 2 ^ 32 ∧
      (sourceLen = 0 ∨ sourceLen = (p + 7) / 8) := by
  intro src bit r
  have hsmall := small_callEnv stack destLen sourceLen src hdest hsource
  have he : (callEnv stack destLen src sourceLen).Has bit := has_source stack destLen sourceLen mem
  have hin := inside_callEnv stack destLen sourceLen src
  have hend : (callEnv stack destLen src sourceLen).destLen = destLen := rfl
  have hr : r = tinfUncompress fuel stack d destLen src sourceLen := rfl
  rw [tinfUncompress] at hr
  generalize callEnv stack destLen src sourceLen = e at *
  subst hend
  have hstart : { d with source := 0, tag := 0, bitcount := 0, overflow := false, dest := [] } =
      { d with dest := [] }.read e bit 0 := by
    cases h : e.sourceEnd <;> simp [Data.read, Data.holding, value, h]
  rw [hstart] at hr
  rcases uncompressLoop_reads hsmall he fuel 0 { d with dest := [] }
    ⟨(hin 0).mpr (by omega), Nat.zero_le _⟩ with ⟨hloop, hfuel, hfar⟩ | hreads
  · rw [Nat.zero_add] at hfuel hfar
    exact .inl ⟨by rw [hr, hloop]; rfl, (hin fuel).mp hfuel, hfar⟩
  right
  cases hreads with
  | fails hfails hnone =>
    have hfails : Fails r := hr ▸ hfails.bind _
    refine ⟨.inl hfails, fun out n => iff_of_false ?_ ?_⟩
    · obtain h | h := hfails <;> simp [h]
    · rintro ⟨p, hblocks, hlen, -, hsource⟩
      exact hnone p out hblocks ⟨(hin p).mpr (by omega), hlen⟩
  | @succeeds d' q hloop hfits hiff =>
    have hq := (hin q).mp hfits.1
    have hread : (d'.read e bit q).source = (q + 7) / 8 :=
      (((hin (8 * ((q + 7) / 8))).mpr (by omega)).source le_rfl).1
    have hstream : ∀ out n, (∃ p, Blocks bit 0 [] p out ∧ out.length ≤ e.destLen ∧
        n = (p + 7) / 8 % 2 ^ 32 ∧ (sourceLen = 0 ∨ sourceLen = (p + 7) / 8)) ↔
        out = d'.dest ∧ n = (q + 7) / 8 % 2 ^ 32 ∧
          (sourceLen = 0 ∨ sourceLen = (q + 7) / 8) := by
      intro out n
      constructor
      · rintro ⟨p, hblocks, -, hn, hlen⟩
        obtain ⟨rfl, rfl⟩ := (hiff p out).mp hblocks
        exact ⟨rfl, hn, hlen⟩
      · rintro ⟨rfl, hn, hlen⟩
        exact ⟨q, (hiff q _).mpr ⟨rfl, rfl⟩, hfits.2, hn, hlen⟩
    rw [hloop, except_ok_bind, if_neg (mt (read_overflow d').mp (not_not.mpr hfits.1)), hread,
      read_dest] at hr
    simp only [hstream]
    split_ifs at hr with hzero hother
    · refine ⟨.inr ⟨_, hr⟩, fun out n => ?_⟩
      simp [hr, hzero, eq_comm]
    · exact ⟨.inl (.inl hr), fun out n => iff_of_false (by simp [hr]) (by omega)⟩
    · refine ⟨.inr ⟨_, hr⟩, fun out n => ?_⟩
      rw [hr]
      constructor
      · rintro ⟨⟩
        exact ⟨rfl, by omega, .inr (by omega)⟩
      · rintro ⟨rfl, hn, hlen⟩
        rw [show n = sourceLen by omega]

/-- The six bytes of a stored block for the letter A. -/
def storedA (k : Nat) : Byte := [1, 1, 0, 0xFE, 0xFF, 0x41].getD k 0

theorem tinfUncompress_accepts_stored :
    tinfUncompress 49 (fun _ => 0) ⟨0, 0, 0, false, [], ⟨fun _ => 0, fun _ => 0, 0⟩,
      ⟨fun _ => 0, fun _ => 0, 0⟩⟩ 1 (source storedA 6) 6 = .ok ([0x41], 6) := by
  obtain ⟨-, hfew, -⟩ | ⟨-, hiff⟩ := tinfUncompress_accepts (fun _ => 0) 1 6 storedA
    ⟨0, 0, 0, false, [], ⟨fun _ => 0, fun _ => 0, 0⟩, ⟨fun _ => 0, fun _ => 0, 0⟩⟩ 49
    (by decide) (by decide)
  · exact absurd hfew (by decide)
  · exact (hiff _ _).mpr ⟨48, .last rfl ⟨rfl, rfl, rfl⟩, by decide, rfl, .inr rfl⟩

end Uncompress

end MiniHaywire.Tinf
