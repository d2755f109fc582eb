import MiniHaywire.TinfTree

/-!
# The codes of a block

The trees of the fixed codes, and the trees that `tinf_decode_trees` makes of what stands
at the head of a block.
-/

namespace MiniHaywire.Tinf

open CanonicalCode CanonicalCode.Code Deflate

structure Trees (lt dt : Tree) (lit dist : Code) : Prop where
  lit : Decodes lt lit 285
  ends : 256 ≤ lt.maxSym
  dist : if dt.maxSym = -1 then dist.Unused else Decodes dt dist 29

/-! ### The fixed codes -/

theorem fill_apply (place base n : Nat) (a : Nat → Nat) (i : Nat) :
    fill place base n a i = if place ≤ i ∧ i < place + n then base + (i - place) else a i := by
  induction n with
  | zero => rw [if_neg (by omega)]; rfl
  | succ n ih =>
    rw [fill, List.range_succ, List.foldl_append, ← fill, List.foldl_cons, List.foldl_nil,
      Function.update_apply, ih]
    split_ifs <;> omega

theorem count_fixedLit (n s : Nat) : Nat.count (fixedLit.len · = n) s =
    if n = 9 then min (s - 144) 112 else if n = 8 then min s 144 + (s - 280) else
      if n = 7 then min (s - 256) 24 else 0 := by
  induction s with
  | zero => simp
  | succ s ih =>
    rw [Nat.count_succ, ih]
    simp only [fixedLit]
    split_ifs <;> omega

theorem used_fixedLit (n : Nat) : fixedLit.used n =
    if n = 9 then 112 else if n = 8 then 152 else if n = 7 then 24 else 0 := by
  have hnum : fixedLit.num = 288 := rfl
  rw [used, count_fixedLit, hnum]
  split_ifs <;> omega

theorem index_fixedLit {s : Nat} (hs : s < 288) : fixedLit.index s =
    if s < 144 then s + 24 else if s < 256 then s + 32 else if s < 280 then s - 256
      else s - 112 := by
  have h7 : fixedLit.offset 7 = 0 := by simp [offset, used_fixedLit]
  have h8 : fixedLit.offset 8 = 24 := by simp [offset, used_fixedLit]
  have h9 : fixedLit.offset 9 = 176 := by simp [offset, used_fixedLit]
  rw [index, rank, count_fixedLit]
  simp only [fixedLit] at *
  split_ifs <;> omega

theorem represents_fixedLit (lt dt : Tree) :
    Represents (tinfBuildFixedTrees lt dt).1 fixedLit := by
  refine ⟨⟨by simp [first, used_fixedLit], fun s _ => ?_⟩, le_rfl, fun n hn => ?_, fun s hs => ?_⟩
  · simp only [fixedLit]
    split_ifs <;> omega
  · simp only [tinfBuildFixedTrees, Function.update_apply, used_fixedLit n, if_pos hn]
  · have hindex := index_fixedLit hs.1
    generalize fixedLit.index s = i at hindex ⊢
    have hlt : s < 288 := hs.1
    simp only [tinfBuildFixedTrees, fill_apply]
    split_ifs at hindex ⊢ <;> omega

theorem represents_fixedDist (lt dt : Tree) :
    Represents (tinfBuildFixedTrees lt dt).2 fixedDist := by
  have hused : ∀ n < 16, fixedDist.used n = if n = 5 then 32 else 0 := by decide
  have hindex : ∀ s < 32, fixedDist.index s = s := by decide
  refine ⟨⟨by decide, by decide⟩, by decide, fun n hn => ?_, fun s hs => ?_⟩
  · simp only [tinfBuildFixedTrees, Function.update_apply, hused n hn, if_pos hn]
  · have hlt : s < 32 := hs.1
    simp only [tinfBuildFixedTrees, hindex s hlt, fill_apply]
    split_ifs <;> omega

theorem trees_fixed (lt dt : Tree) :
    Trees (tinfBuildFixedTrees lt dt).1 (tinfBuildFixedTrees lt dt).2 fixedLit fixedDist where
  lit := (represents_fixedLit lt dt).decodes fun s hs _ => Int.ofNat_le.mpr hs
  ends := show (256 : Int) ≤ 285 by decide
  dist := (represents_fixedDist lt dt).decodes fun s hs _ => Int.ofNat_le.mpr hs

/-! ### Lengths -/

/-- A call finds what is there, and fails if nothing is. -/
inductive Finds {α β : Type} (P : α → Prop) (Q : α → β → Prop) (r : Except Stop β) : Prop where
  | fails : Fails r → (∀ x, ¬ P x) → Finds P Q r
  | succeeds {a : α} {b : β} : r = .ok b → (∀ x, P x ↔ x = a) → Q a b → Finds P Q r

theorem Finds.congr {α β : Type} {P P' : α → Prop} {Q : α → β → Prop} {r : Except Stop β}
    (h : Finds P Q r) (hiff : ∀ x, P' x ↔ P x) : Finds P' Q r := by
  rwa [show P' = P from funext fun x => propext (hiff x)]

section Lengths

variable {bit : Nat → Bool} {c : Code} {total p q s n times : Nat} {ls ls' : List Nat}

theorem lengths_iff (hlt : ls.length < total) (hs : c.WordAt bit p s) (x : Nat × List Nat) :
    Lengths bit c total p ls x.1 x.2 ↔ ∃ n times r,
      repeated bit (p + c.len s) ls s = some (n, times, r) ∧
      Lengths bit c total r (ls ++ List.replicate times n) x.1 x.2 := by
  constructor
  · rintro (hdone | ⟨-, hs', hrep, hrest⟩)
    · exact absurd hdone hlt.ne
    · obtain rfl := hs.unique hs'
      exact ⟨_, _, _, hrep, hrest⟩
  · rintro ⟨n, times, r, hrep, hrest⟩
    exact .item hlt hs hrep hrest

theorem lengths_done (h : ls.length = total) (x : Nat × List Nat) :
    Lengths bit c total p ls x.1 x.2 ↔ x = (p, ls) := by
  obtain ⟨q, ls'⟩ := x
  constructor
  · rintro (- | ⟨hlt, -⟩)
    · rfl
    · exact absurd h hlt.ne
  · rintro ⟨⟩
    exact .done h

theorem length_le_of_lengths (h : Lengths bit c total p ls q ls') : ls.length ≤ total := by
  cases h with
  | done hdone => exact hdone.le
  | item hlt => exact hlt.le

theorem repeated_le (hs : s < 19) (hls : ∀ l ∈ ls, l ≤ 15)
    (h : repeated bit p ls s = some (n, times, q)) : n ≤ 15 ∧ 1 ≤ times ∧ p ≤ q := by
  unfold repeated at h
  split_ifs at h
  · obtain ⟨l, hl, heq⟩ := Option.map_eq_some_iff.mp h
    obtain ⟨rfl, rfl, rfl⟩ := heq
    exact ⟨hls _ (List.mem_of_getLast? hl), by omega, by omega⟩
  all_goals
    obtain ⟨rfl, rfl, rfl⟩ := h
    exact ⟨by omega, by omega, by omega⟩

theorem append_replicate_le (hls : ∀ l ∈ ls, l ≤ 15) (hn : n ≤ 15) :
    ∀ l ∈ ls ++ List.replicate times n, l ≤ 15 := fun l hl =>
  (List.mem_append.mp hl).elim (hls l) fun h => (List.eq_of_mem_replicate h).le.trans hn

theorem lengths_spec (h : Lengths bit c total p ls q ls') (hc : c.num = 19)
    (hls : ∀ l ∈ ls, l ≤ 15) : ls'.length = total ∧ (∀ l ∈ ls', l ≤ 15) ∧ p ≤ q := by
  induction h with
  | done hdone => exact ⟨hdone, hls, le_rfl⟩
  | item _ hs hrep _ ih =>
    obtain ⟨hn, -, hle⟩ := repeated_le (hc ▸ hs.1.1) hls hrep
    obtain ⟨hlen, hls', hle'⟩ := ih (append_replicate_le hls hn)
    exact ⟨hlen, hls', by omega⟩

end Lengths

theorem putAll_spec {size place n : Nat} (v : Nat) (a : Nat → Nat) (h : place + n ≤ size) :
    ∃ a', (List.range n).foldlM (fun a i => put size a (place + i) v) a = .ok a' ∧
      ∀ j, a' j = if place ≤ j ∧ j < place + n then v else a j := by
  refine foldlM_range_ok
    (fun i (a' : Nat → Nat) => ∀ j, a' j = if place ≤ j ∧ j < place + i then v else a j)
    (fun j => (if_neg (by omega)).symm) ?_
  intro i a' hi ha'
  refine ⟨_, put_eq (by omega) v, fun j => ?_⟩
  rw [Function.update_apply, ha' j]
  split_ifs <;> first | rfl | omega

variable {e : Env} {bit : Nat → Bool} (he : e.Has bit) (d : Data) {p : Nat}

/-- The array holds the lengths. -/
def Agree (lengths : Nat → Nat) (ls : List Nat) : Prop := ∀ i < ls.length, lengths i = ls.getD i 0

theorem Agree.append {lengths lengths' : Nat → Nat} {ls : List Nat} (h : Agree lengths ls)
    {n m : Nat}
    (hput : ∀ j, lengths' j = if ls.length ≤ j ∧ j < ls.length + n then m else lengths j) :
    Agree lengths' (ls ++ List.replicate n m) := by
  intro j hj
  rw [List.length_append, List.length_replicate] at hj
  rw [hput]
  by_cases hlt : j < ls.length
  · rw [if_neg (by omega), h j hlt, List.getD_append _ _ _ _ hlt]
  · rw [if_pos (by omega), List.getD_append_right _ _ _ _ (by omega),
      List.getD_replicate _ (by omega)]

include he

theorem readCodeLengths_spec {lengths : Nat → Nat} (hzero : ∀ s < 19, lengths s = 0) :
    ∃ r, readCodeLengths e (hclen bit p) lengths (d.read e bit (p + 14)) = .ok r ∧
      r.2 = d.read e bit (p + 14 + 3 * hclen bit p) ∧
      ∀ s < 19, r.1 s = (lengthsCode bit p).len s := by
  have hclen : hclen bit p ≤ 19 :=
    Nat.add_le_add_left (Nat.le_of_lt_succ (value_lt bit (p + 10) 4)) 4
  have hplace : ∀ i < 19, clcidx i < 320 ∧ order.idxOf (clcidx i) = i := by decide
  have hback : ∀ s < 19, clcidx (order.idxOf s) = s := by decide
  refine foldlM_range_ok (fun i (r : (Nat → Nat) × Data) => r.2 = d.read e bit (p + 14 + 3 * i) ∧
    ∀ s < 19, r.1 s = if order.idxOf s < i then value bit (p + 14 + 3 * order.idxOf s) 3 else 0)
    ⟨rfl, hzero⟩ ?_
  rintro i ⟨lengths', d'⟩ hi ⟨rfl, hlens⟩
  obtain ⟨hlt, hidx⟩ := hplace i (by omega)
  dsimp only at hlens ⊢
  rw [tinfGetbits_read he d _ (by omega), except_ok_bind]
  dsimp only
  rw [fetch_eq (by omega), except_ok_bind, put_eq hlt, except_ok_bind]
  refine ⟨_, rfl, rfl, fun s hs => ?_⟩
  dsimp only
  by_cases heq : s = clcidx i
  · rw [heq, Function.update_self, hidx, if_pos (Nat.lt_succ_self i)]
  · have hne : order.idxOf s ≠ i := fun h => heq (h ▸ (hback s hs).symm)
    rw [Function.update_of_ne heq, hlens s hs]
    split_ifs <;> first | rfl | omega

omit he in
theorem not_unused_of_usable {c : Code} (hle : ∀ s < c.num, c.len s ≤ 15) (h : Usable c) :
    ¬ c.Unused := by
  intro hunused
  have hzero := unused_iff.mp hunused
  rcases h with hcomplete | hsingle
  · have hmany : 1 < c.offset 16 := hcomplete.one_lt_offset
    rw [offset_eq_words hle] at hmany
    omega
  · have := hsingle.1
    omega

theorem codeLengthTree_spec : Checks (Usable (lengthsCode bit p))
    (fun r => ∃ lt, r.2 = { d with ltree := lt }.read e bit (p + 14 + 3 * hclen bit p) ∧
      Decodes lt (lengthsCode bit p) 18)
    (codeLengthTree e (hclen bit p) (d.read e bit (p + 14))) := by
  have hle : ∀ s < 19, (lengthsCode bit p).len s ≤ 15 := by
    intro s _
    have := value_lt bit (p + 14 + 3 * order.idxOf s) 3
    simp only [lengthsCode]
    split_ifs <;> omega
  obtain ⟨lengths₀, hclear, hzero⟩ := putAll_spec 0 e.stack (show 0 + 19 ≤ 320 by omega)
  simp only [Nat.zero_add] at hclear hzero
  obtain ⟨⟨lengths, d₁⟩, hread, rfl, hlens⟩ := readCodeLengths_spec he d (p := p)
    fun s hs => (hzero s).trans (if_pos ⟨Nat.zero_le s, hs⟩)
  rw [codeLengthTree, hclear, except_ok_bind, hread, except_ok_bind]
  dsimp only
  rw [read_ltree]
  rcases tinfBuildTree_spec (c := lengthsCode bit p) e.stack d.ltree (show 19 ≤ 320 by omega)
    (show 19 ≤ 288 by omega) hlens hle with ⟨hnot, hfails⟩ | ⟨hok, lt, hbuild, hlast, hdec⟩
  · exact .inl ⟨fun h => hnot (.inl h), hfails.bind _⟩
  · change tinfBuildTree 320 e.stack d.ltree lengths 19 = _ at hbuild
    rw [hbuild, except_ok_bind]
    split
    case isTrue hnone =>
      exact .inl ⟨fun h => not_unused_of_usable hle h (hlast.eq_neg_one_iff.mp hnone), .inl rfl⟩
    case isFalse hsome =>
      have husable := hok.resolve_right (mt hlast.eq_neg_one_iff.mpr hsome)
      exact .inr ⟨husable, _, rfl, lt, rfl, hdec husable 18⟩

theorem repeatedLength_read {lengths : Nat → Nat} {ls : List Nat} (hagree : Agree lengths ls)
    (hlen : ls.length ≤ 320) (q s : Nat) :
    repeatedLength e lengths ls.length s (d.read e bit q) =
      match repeated bit q ls s with
      | none => .error .dataError
      | some (n, times, q') => .ok ((n, times), d.read e bit q') := by
  have hbase := fun num base (h : num ≤ 24) => tinfGetbitsBase_read he d q base h
  unfold repeatedLength repeated
  split
  · rw [if_pos rfl, List.getLast?_eq_getElem?]
    by_cases hzero : ls.length = 0
    · rw [if_pos hzero, List.getElem?_eq_none (by omega)]
      rfl
    · rw [if_neg hzero, fetch_eq (by omega), except_ok_bind, hbase 2 3 (by omega),
        hagree _ (by omega), List.getD_eq_getElem?_getD, List.getElem?_eq_getElem (by omega)]
      rfl
  · rw [hbase 3 3 (by omega)]
    rfl
  · rw [hbase 7 11 (by omega)]
    rfl
  case _ h16 h17 h18 => rw [if_neg h16, if_neg h17, if_neg h18]

theorem lengthsLoop_finds {c : Code} {total : Nat} (hc : c.num = 19) (hdec : Decodes d.ltree c 18)
    (htotal : total ≤ 320) : ∀ (fuel p : Nat) {lengths : Nat → Nat} {ls : List Nat},
    Agree lengths ls → (∀ l ∈ ls, l ≤ 15) → ls.length ≤ total → total < ls.length + fuel →
    Finds (fun x : Nat × List Nat => Lengths bit c total p ls x.1 x.2)
      (fun x r => Agree r.1 x.2 ∧ r.2 = d.read e bit x.1)
      (lengthsLoop e total fuel ls.length lengths (d.read e bit p)) := by
  intro fuel
  induction fuel with
  | zero =>
    intro p lengths ls _ _ hle hfuel
    omega
  | succ fuel ih =>
    intro p lengths ls hagree hls hle hfuel
    rw [lengthsLoop]
    split
    case isFalse hdone => exact .succeeds rfl (lengths_done (by omega)) ⟨hagree, rfl⟩
    rename_i hlt
    obtain ⟨s, n, hdecode, hword, hunique⟩ := hdec he d p
    rw [read_ltree, hdecode, except_ok_bind]
    dsimp only
    rw [read_ltree]
    split
    case isTrue hover =>
      refine .fails (.inl rfl) ?_
      rintro x (hlen | ⟨-, hs', -⟩)
      · exact hlt.ne hlen
      · obtain ⟨rfl, -, htop⟩ := hunique _ hs'
        have := htop (by have := hs'.1.1; omega)
        omega
    rename_i hmax
    have hw := hword (by omega)
    obtain ⟨-, rfl, -⟩ := hunique s hw
    have hiff := lengths_iff hlt hw
    rw [repeatedLength_read he d hagree (by omega)]
    cases hrep : repeated bit (p + c.len s) ls s with
    | none => exact .fails (.inl rfl) fun x hx => by simp [hiff, hrep] at hx
    | some r =>
      obtain ⟨m, times, q⟩ := r
      obtain ⟨hm, htimes, -⟩ := repeated_le (hc ▸ hw.1.1) hls hrep
      replace hiff : ∀ x : Nat × List Nat, Lengths bit c total p ls x.1 x.2 ↔
          Lengths bit c total q (ls ++ List.replicate times m) x.1 x.2 := by
        simpa [hrep] using hiff
      have hlen : ls.length + times = (ls ++ List.replicate times m).length := by simp
      simp only [except_ok_bind]
      split
      case isTrue hroom =>
        refine .fails (.inl rfl) fun x hx => ?_
        have := length_le_of_lengths ((hiff x).mp hx)
        omega
      case isFalse hroom =>
        obtain ⟨lengths', hput, hlengths'⟩ :=
          putAll_spec m lengths (show ls.length + times ≤ 320 by omega)
        rw [hput, except_ok_bind, hlen]
        exact (ih q (hagree.append hlengths') (append_replicate_le hls hm) (by omega)
          (by omega)).congr hiff

/-! ### Trees of a head -/

omit he in
theorem buildTrees_spec {lengths : Nat → Nat} {ls : List Nat} {q : Nat} (hagree : Agree lengths ls)
    (hlen : ls.length = hlit bit p + hdist bit p) (hle : ∀ l ∈ ls, l ≤ 15)
    (hlit_le : hlit bit p ≤ 286) (hdist_le : hdist bit p ≤ 30) :
    Checks (Readable (litCode bit p ls) (distCode bit p ls))
      (fun d' => ∃ lt dt, d' = { d with ltree := lt, dtree := dt }.read e bit q ∧
        Trees lt dt (litCode bit p ls) (distCode bit p ls))
      (buildTrees e (hlit bit p) (hdist bit p) lengths (d.read e bit q)) := by
  have hge : 257 ≤ hlit bit p := Nat.le_add_right ..
  have hlen_le : ∀ i, ls.getD i 0 ≤ 15 := by
    intro i
    rw [List.getD_eq_getElem?_getD]
    cases hi : ls[i]? with
    | none => exact Nat.zero_le _
    | some l => exact hle l (List.mem_of_getElem? hi)
  rw [buildTrees, fetch_eq (by omega), except_ok_bind, hagree 256 (by omega)]
  split
  case isTrue hstop => exact .inl ⟨fun h => h.1.2 hstop, .inl rfl⟩
  rename_i hstop
  have hcoded : (litCode bit p ls).Coded 256 := ⟨hge, hstop⟩
  rw [read_ltree, read_dtree]
  rcases tinfBuildTree_spec (c := litCode bit p ls) e.stack d.ltree
    (show hlit bit p ≤ 320 by omega) (show hlit bit p ≤ 288 by omega)
    (fun i hi => hagree i (hlen ▸ Nat.lt_add_right _ hi)) (fun i _ => hlen_le i) with
    ⟨hnot, hfails⟩ | ⟨hok, lt, hbuild, hlast, hdec⟩
  · exact .inl ⟨fun h => hnot (.inl h.2.1), hfails.bind _⟩
  have husable := hok.resolve_right fun h => h 256 hcoded
  change tinfBuildTree 320 e.stack d.ltree lengths (hlit bit p) = _ at hbuild
  rw [hbuild, except_ok_bind]
  rcases tinfBuildTree_spec (c := distCode bit p ls) e.stack d.dtree
    (show hdist bit p ≤ 320 - hlit bit p by omega) (show hdist bit p ≤ 288 by omega)
    (fun i hi => hagree (hlit bit p + i) (hlen ▸ Nat.add_lt_add_left hi _))
    (fun i _ => hlen_le _) with ⟨hnot', hfails⟩ | ⟨hok', dt, hbuild', hlast', hdec'⟩
  · exact .inl ⟨fun h => hnot' h.2.2, hfails.bind _⟩
  change tinfBuildTree _ e.stack d.dtree _ (hdist bit p) = _ at hbuild'
  rw [hbuild', except_ok_bind]
  refine .inr ⟨⟨hcoded, husable, hok'⟩, _, rfl, lt, dt, rfl, hdec husable 285, hlast.1 256 hcoded,
    ?_⟩
  split
  case isTrue hnone => exact hlast'.eq_neg_one_iff.mp hnone
  case isFalse hsome => exact hdec' (hok'.resolve_right (mt hlast'.eq_neg_one_iff.mpr hsome)) 29

theorem tinfDecodeTrees_finds (p : Nat) :
    Finds (fun x : List Nat × Nat => Head bit p x.1 x.2)
      (fun x d' => ∃ lt dt, d' = { d with ltree := lt, dtree := dt }.read e bit x.2 ∧
        Trees lt dt (litCode bit p x.1) (distCode bit p x.1))
      (tinfDecodeTrees e (d.read e bit p)) := by
  have hbase := fun num base q (h : num ≤ 24) => tinfGetbitsBase_read he d q base h
  have hnil : ∀ l ∈ ([] : List Nat), l ≤ 15 := fun l hl => absurd hl List.not_mem_nil
  simp only [tinfDecodeTrees, hbase 5 257 p (by omega), hbase 5 1 _ (by omega),
    hbase 4 4 _ (by omega), except_ok_bind]
  rw [← hlit, ← hdist, show p + 5 + 5 = p + 10 from rfl, ← hclen]
  split
  case isTrue hbig =>
    refine .fails (.inl rfl) fun x hx => ?_
    have := hx.hlit_le
    have := hx.hdist_le
    omega
  rename_i hbig
  rw [show p + 10 + 4 = p + 14 from rfl]
  rcases codeLengthTree_spec he d (p := p) with ⟨hnot, hfails⟩ | ⟨husable, ⟨lengths, _⟩, htree, lt,
    rfl, hdec⟩
  · exact .fails (hfails.bind _) fun x hx => hnot hx.usable
  rw [htree, except_ok_bind]
  cases lengthsLoop_finds he { d with ltree := lt } rfl hdec
    (show hlit bit p + hdist bit p ≤ 320 by omega) (hlit bit p + hdist bit p + 1)
    (p + 14 + 3 * hclen bit p) (show Agree lengths [] from nofun) hnil (Nat.zero_le _)
    (Nat.lt_add_left _ (Nat.lt_succ_self _)) with
  | fails hfails hnone => exact .fails (hfails.bind _) fun x hx => hnone (x.2, x.1) hx.lengths
  | @succeeds a r hloop hiff hfound =>
    obtain ⟨q, ls⟩ := a
    obtain ⟨lengths', d'⟩ := r
    obtain ⟨hagree, rfl⟩ := hfound
    have hlengths := (hiff (q, ls)).mpr rfl
    obtain ⟨hlen, hle, -⟩ := lengths_spec hlengths rfl hnil
    have hhead : ∀ x : List Nat × Nat, Head bit p x.1 x.2 → x = (ls, q) := by
      intro x hx
      obtain ⟨hq, hls⟩ := Prod.mk.inj ((hiff (x.2, x.1)).mp hx.lengths)
      exact Prod.ext hls hq
    rw [List.length_nil] at hloop
    dsimp only
    rw [hloop, except_ok_bind]
    dsimp only
    rcases buildTrees_spec (e := e) { d with ltree := lt } (q := q) hagree hlen hle (by omega)
      (by omega) with ⟨hnot, hfails⟩ | ⟨hreadable, _, hbuild, hfound⟩
    · refine .fails hfails fun x hx => hnot ?_
      obtain rfl := hhead x hx
      exact hx.readable
    · refine .succeeds hbuild (fun x => ⟨hhead x, ?_⟩) hfound
      rintro rfl
      exact ⟨by omega, by omega, husable, hlengths, hreadable⟩

end MiniHaywire.Tinf
