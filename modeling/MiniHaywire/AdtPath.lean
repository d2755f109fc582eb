import Mathlib.Data.List.TakeWhile
import MiniHaywire.AdtTree

/-!
# Path resolution

What a path means on the tree: its components are the non-empty strings between
slashes, and each of them leads to the first child of that name, where a name
with a unit address also answers to the part before the `@`.  The walk of
`adt_path_offset_trace` over the blob is this walk over the tree.

The comparison of names reads as many bytes as the component has, which may be
more than the name has.  It stops at the NUL of the name, since no component has
a NUL in it.
-/

namespace MiniHaywire.Adt

/-! ### Paths on trees -/

def components (path : List Byte) : List (List Byte) :=
  (path.splitOn 0x2f).filter (· ≠ [])

def AdtTree.name (t : AdtTree) : Option (List Byte) :=
  match t.props.find? (fun p => p.name = cstr ['n', 'a', 'm', 'e']) with
  | none => none
  | some p => if 0 ∈ p.value then some (p.value.takeWhile (· ≠ 0)) else none

mutual

def AdtTree.named : AdtTree → Bool
  | .node first others children =>
    (AdtTree.node first others children).name.isSome && namedAll children

def namedAll : List AdtTree → Bool
  | [] => true
  | t :: ts => t.named && namedAll ts

end

/-- The component `c` stands for a node called `name`. -/
def Denotes (c name : List Byte) : Prop :=
  name = c ∨ 0x40 ∉ c ∧ c ++ [0x40] <+: name

instance (c name : List Byte) : Decidable (Denotes c name) :=
  inferInstanceAs (Decidable (_ ∨ _))

def placed (n : Nat × AdtTree) : List (Nat × AdtTree) :=
  (childOffsets (childrenAt n.1 n.2) n.2.children).zip n.2.children

def answersTo (c : List Byte) (n : Nat × AdtTree) : Bool :=
  n.2.name.any fun name => Denotes c name

def childNamed (c : List Byte) (n : Nat × AdtTree) : Option (Nat × AdtTree) :=
  (placed n).find? (answersTo c)

def resolve : List (List Byte) → Nat × AdtTree → Option (Nat × AdtTree)
  | [], n => some n
  | c :: cs, n => (childNamed c n).bind (resolve cs)

/-- The nodes on the way, up to where a component has no child. -/
def reached : List (List Byte) → Nat × AdtTree → List (Nat × AdtTree)
  | [], _ => []
  | c :: cs, n =>
    match childNamed c n with
    | none => []
    | some n' => n' :: reached cs n'

/-! ### Components -/

theorem components_append (p q : List Byte) :
    components (p ++ 0x2f :: q) = components p ++ components q := by
  rw [components, List.splitOn_append_cons_self, List.filter_append]
  rfl

theorem components_nil : components [] = [] := by decide

theorem components_slash (p : List Byte) : components (0x2f :: p) = components p := by
  have happ := components_append [] p
  rw [components_nil] at happ
  exact happ

theorem components_of_not_mem {c : List Byte} (hne : c ≠ []) (hc : 0x2f ∉ c) :
    components c = [c] := by
  rw [components, List.splitOn_eq_singleton hc]
  simp [hne]

theorem components_dropWhile (p : List Byte) :
    components (p.dropWhile (· = 0x2f)) = components p := by
  induction p with
  | nil => rfl
  | cons b p ih =>
    by_cases hb : b = 0x2f
    · subst hb
      rw [List.dropWhile_cons_of_pos (by simp), ih, components_slash]
    · rw [List.dropWhile_cons_of_neg (by simpa using hb)]

theorem components_cons {p : List Byte} (hne : p.takeWhile (· ≠ 0x2f) ≠ []) :
    components p = p.takeWhile (· ≠ 0x2f) :: components (p.dropWhile (· ≠ 0x2f)) := by
  have hnot : 0x2f ∉ p.takeWhile (· ≠ 0x2f) := by
    intro hmem
    have hslash := List.mem_takeWhile_imp hmem
    simp at hslash
  have hhead := List.head?_dropWhile_not (fun b : Byte => decide (b ≠ 0x2f)) p
  conv_lhs =>
    rw [← List.takeWhile_append_dropWhile (p := fun b : Byte => decide (b ≠ 0x2f)) (l := p)]
  cases hdrop : p.dropWhile (· ≠ 0x2f) with
  | nil =>
    rw [List.append_nil, components_nil]
    exact components_of_not_mem hne hnot
  | cons b q =>
    rw [hdrop] at hhead
    have hb : b = 0x2f := by simpa using hhead
    subst hb
    rw [components_append, components_slash, components_of_not_mem hne hnot]
    rfl

/-! ### Names -/

theorem adtNodenameEq_name {adt : Blob} {a : U32} {c name : List Byte}
    (hat : adt.At a (name ++ [0])) (hname : ∀ b ∈ name, b ≠ 0) (hc : ∀ b ∈ c, b ≠ 0) :
    adtNodenameEq adt a c = decide (Denotes c name) := by
  by_cases hpre : c <+: name
  · obtain ⟨r, rfl⟩ := hpre
    rw [List.append_assoc] at hat
    obtain ⟨hload, hnext⟩ := Mem.at_append.mp hat
    have hsame : adt.load a c.length = c := hload
    unfold adtNodenameEq
    rw [if_neg (not_not.mpr hsame)]
    cases r with
    | nil =>
      have hzero : adt (a + BitVec.ofNat 32 c.length) = 0 := (Mem.at_cons.mp hnext).1
      rw [if_pos hzero]
      simp [Denotes]
    | cons b r =>
      have hb : adt (a + BitVec.ofNat 32 c.length) = b := (Mem.at_cons.mp hnext).1
      have hne : b ≠ 0 := hname b (by simp)
      rw [hb, if_neg hne]
      have hiff : Denotes c (c ++ b :: r) ↔ 0x40 ∉ c ∧ b = 0x40 := by
        constructor
        · rintro (heq | ⟨hunit, hpre⟩)
          · simp at heq
          · rw [List.prefix_append_right_inj, List.cons_prefix_cons] at hpre
            exact ⟨hunit, hpre.1.symm⟩
        · rintro ⟨hunit, rfl⟩
          exact .inr ⟨hunit, (List.prefix_append_right_inj c).mpr (List.prefix_append [_] r)⟩
      by_cases hunit : 0x40 ∉ c ∧ b = 0x40
      · rw [if_pos hunit, decide_eq_true (hiff.mpr hunit)]
      · rw [if_neg hunit, decide_eq_false (fun h => hunit (hiff.mp h))]
  · -- a component that is no prefix differs from the stored bytes, NUL included
    have hload : adt.load a c.length ≠ c := by
      intro hsame
      have hcat : adt.At a c := hsame
      rcases Nat.lt_or_ge name.length c.length with hlt | hle
      · have hzero : (0 : Byte) ∈ c :=
          (Mem.isPrefix_of_at hat hcat (by simpa using hlt)).subset (by simp)
        exact hc 0 hzero rfl
      · exact hpre (Mem.isPrefix_of_at hcat (Mem.at_append.mp hat).1 hle)
    have hnot : ¬ Denotes c name := by
      rintro (rfl | ⟨-, h⟩)
      · exact hpre (List.prefix_refl _)
      · exact hpre ((List.prefix_append _ _).trans h)
    unfold adtNodenameEq
    rw [if_pos hload, decide_eq_false hnot]

theorem Stored.getName {adt : Blob} {o : Nat} {t : AdtTree} (h : Stored adt o t) {name : List Byte}
    (hname : t.name = some name) :
    ∃ v, adtGetName adt (BitVec.ofNat 32 o) = some v ∧ adt.At v (name ++ [0]) ∧
      ∀ b ∈ name, b ≠ 0 := by
  unfold AdtTree.name at hname
  cases hfind : t.props.find? (fun p => p.name = cstr ['n', 'a', 'm', 'e']) with
  | none =>
    rw [hfind] at hname
    cases hname
  | some p =>
    rw [hfind] at hname
    by_cases hzero : 0 ∈ p.value
    swap
    · simp only [if_neg hzero] at hname
      cases hname
    simp only [if_pos hzero, Option.some.injEq] at hname
    have hvalue : t.value? (cstr ['n', 'a', 'm', 'e']) = some p.value := by
      rw [AdtTree.value?, hfind, Option.map_some]
    obtain ⟨v, hget, hvalue, -⟩ := h.getprop_value hvalue
    refine ⟨_, by rw [adtGetName, hget, Option.map_some], ?_, ?_⟩
    · have hhead := List.head?_dropWhile_not (fun b : Byte => decide (b ≠ 0)) p.value
      rw [← List.takeWhile_append_dropWhile (p := fun b : Byte => decide (b ≠ 0)) (l := p.value)]
        at hvalue
      cases hdrop : p.value.dropWhile (· ≠ 0) with
      | nil =>
        have hall := List.dropWhile_eq_nil_iff.mp hdrop 0 hzero
        simp at hall
      | cons b rest =>
        rw [hdrop] at hhead hvalue
        have hb : b = 0 := by simpa using hhead
        rw [hb, List.append_cons, hname] at hvalue
        exact (holds_append.mp hvalue).1
    · intro b hb
      rw [← hname] at hb
      have hne := List.mem_takeWhile_imp hb
      simpa using hne

/-! ### One component -/

/-- A node of the tree in its place, with names and enough fuel below it. -/
structure Node (adt : Blob) (fuel : Nat) (n : Nat × AdtTree) : Prop where
  stored : Stored adt n.1 n.2
  named : n.2.named = true
  depth : n.2.depth ≤ fuel

theorem named_of_mem {t : AdtTree} {ts : List AdtTree} (h : namedAll ts = true) (ht : t ∈ ts) :
    t.named = true := by
  induction ts with
  | nil => cases ht
  | cons u ts ih =>
    rw [namedAll, Bool.and_eq_true] at h
    rcases List.mem_cons.mp ht with rfl | ht
    · exact h.1
    · exact ih h.2 ht

theorem depth_le_of_mem {t : AdtTree} {ts : List AdtTree} (ht : t ∈ ts) :
    t.depth ≤ depthAll ts := by
  induction ts with
  | nil => cases ht
  | cons u ts ih =>
    rw [depthAll]
    rcases List.mem_cons.mp ht with rfl | ht
    · exact le_max_left _ _
    · exact (ih ht).trans (le_max_right _ _)

theorem AdtTree.named_eq (t : AdtTree) : t.named = (t.name.isSome && namedAll t.children) := by
  cases t with
  | node first others children => rw [AdtTree.named, AdtTree.children]

theorem Node.child {adt : Blob} {fuel : Nat} {n n' : Nat × AdtTree} (h : Node adt fuel n)
    (hmem : n' ∈ placed n) : Node adt fuel n' := by
  obtain ⟨o, t⟩ := n'
  have hstored := (List.forall₂_iff_zip.mp h.stored.children).2 hmem
  have ht : t ∈ n.2.children := (List.of_mem_zip hmem).2
  have hnamed := h.named
  rw [n.2.named_eq, Bool.and_eq_true] at hnamed
  have hdepth := h.depth
  rw [n.2.depth_eq] at hdepth
  have hle := depth_le_of_mem ht
  refine ⟨hstored, named_of_mem hnamed.2 ht, ?_⟩
  dsimp only
  omega

theorem matchChild_stored {adt : Blob} {o : Nat} {t : AdtTree} (h : Stored adt o t)
    (hnamed : t.named = true) {c : List Byte} (hc : ∀ b ∈ c, b ≠ 0) (acc : Option U32) :
    matchChild adt c (BitVec.ofNat 32 o) acc =
      some (if answersTo c (o, t) then .done (some (BitVec.ofNat 32 o)) else .yield acc) := by
  rw [t.named_eq, Bool.and_eq_true] at hnamed
  obtain ⟨name, hname⟩ := Option.isSome_iff_exists.mp hnamed.1
  obtain ⟨v, hget, hat, hne⟩ := h.getName hname
  have heq := adtNodenameEq_name hat hne hc
  unfold matchChild answersTo
  rw [hget, hname, Option.any_some]
  simp only [bind, Option.bind]
  rw [heq]
  split <;> rfl

theorem forIn_matchChild {adt : Blob} {c : List Byte} (hc : ∀ b ∈ c, b ≠ 0) {offs : List Nat}
    {ts : List AdtTree} (h : List.Forall₂ (Stored adt) offs ts)
    (hnamed : ∀ t ∈ ts, t.named = true) :
    forIn (offs.map (BitVec.ofNat 32)) none (matchChild adt c) =
      some (((offs.zip ts).find? (answersTo c)).map fun n => BitVec.ofNat 32 n.1) := by
  induction h with
  | nil => rfl
  | @cons o t offs ts ht hts ih =>
    have hstep := matchChild_stored ht (hnamed t (by simp)) hc none
    rw [List.map_cons, List.forIn_cons, hstep, List.zip_cons_cons]
    by_cases hmatch : answersTo c (o, t) = true
    · rw [if_pos hmatch, List.find?_cons_of_pos hmatch]
      rfl
    · rw [if_neg hmatch, List.find?_cons_of_neg hmatch]
      exact ih (fun t ht => hnamed t (by simp [ht]))

theorem Node.subnode {adt : Blob} {fuel : Nat} {n : Nat × AdtTree} (h : Node adt fuel n)
    (hheader : adtCheckHeader adt = 0) {c : List Byte} (hc : ∀ b ∈ c, b ≠ 0) :
    adtSubnodeOffsetNamelen adt fuel (BitVec.ofNat 32 n.1) c =
      some (((childNamed c n).map fun n => BitVec.ofNat 32 n.1).getD (-ADT_ERR_NOTFOUND)) := by
  have hnamed := h.named
  rw [n.2.named_eq, Bool.and_eq_true] at hnamed
  have hloop := forIn_matchChild hc h.stored.children (fun t ht => named_of_mem hnamed.2 ht)
  rw [adtSubnodeOffsetNamelen, if_neg (not_not.mpr hheader), h.stored.foreachChild h.depth, hloop]
  rfl

/-! ### Whole paths -/

/-- What `adt_path_offset_trace` returns for the node a path leads to. -/
def offsetOf (n : Option (Nat × AdtTree)) : U32 :=
  (n.map fun n => BitVec.ofNat 32 n.1).getD (-ADT_ERR_NOTFOUND)

theorem Node.slt_zero {adt : Blob} {fuel : Nat} {n : Nat × AdtTree} (h : Node adt fuel n) :
    (BitVec.ofNat 32 n.1).slt 0 = false := by
  have hsmall := h.stored.small
  exact slt_zero_ofNat (by omega)

/-- The loop over the components takes the walk over the tree. -/
theorem pathLoop_resolve {adt : Blob} {fuel : Nat} (hheader : adtCheckHeader adt = 0) (k : Nat) :
    ∀ p n offsets, p.length < k → (∀ b ∈ p, b ≠ 0) → Node adt fuel n →
      pathLoop adt fuel k p (BitVec.ofNat 32 n.1) offsets =
        some (offsetOf (resolve (components p) n),
          offsets ++ (reached (components p) n).map fun n => BitVec.ofNat 32 n.1) := by
  induction k with
  | zero =>
    intro p n offsets hk
    exact absurd hk (Nat.not_lt_zero _)
  | succ k ih =>
    intro p n offsets hk hp hn
    rw [← components_dropWhile p]
    have hlen :=
      (List.dropWhile_sublist (p := fun b : Byte => decide (b = 0x2f)) (l := p)).length_le
    have hsub : ∀ b ∈ p.dropWhile (· = 0x2f), b ≠ 0 :=
      fun b hb => hp b ((List.dropWhile_sublist _).subset hb)
    have hhead := List.head?_dropWhile_not (fun b : Byte => decide (b = 0x2f)) p
    unfold pathLoop
    generalize p.dropWhile (· = 0x2f) = q at hlen hsub hhead
    dsimp only
    by_cases hq : q = []
    · rw [if_pos hq, hq, components_nil, resolve, reached, List.map_nil, List.append_nil]
      rfl
    rw [if_neg hq]
    obtain ⟨b, q, rfl⟩ := List.exists_cons_of_ne_nil hq
    have hb : b ≠ 0x2f := by simpa using hhead
    have hne : (b :: q).takeWhile (· ≠ 0x2f) ≠ [] := by
      rw [List.takeWhile_cons_of_pos (by simpa using hb)]
      exact List.cons_ne_nil _ _
    have hrest : ((b :: q).dropWhile (· ≠ 0x2f)).length < k := by
      rw [List.dropWhile_cons_of_pos (by simpa using hb)]
      have hle :=
        (List.dropWhile_sublist (p := fun b : Byte => decide (b ≠ 0x2f)) (l := q)).length_le
      rw [List.length_cons] at hlen
      omega
    have hc : ∀ x ∈ (b :: q).takeWhile (· ≠ 0x2f), x ≠ 0 :=
      fun x hx => hsub x ((List.takeWhile_sublist _).subset hx)
    have hsub' : ∀ x ∈ (b :: q).dropWhile (· ≠ 0x2f), x ≠ 0 :=
      fun x hx => hsub x ((List.dropWhile_sublist _).subset hx)
    rw [components_cons hne, hn.subnode hheader hc, resolve, reached]
    cases hchild : childNamed ((b :: q).takeWhile (· ≠ 0x2f)) n with
    | none =>
      rw [List.map_nil, List.append_nil]
      rfl
    | some n' =>
      have hn' := hn.child (List.mem_of_find?_eq_some hchild)
      simp only [bind, Option.bind, Option.map_some, Option.getD_some]
      rw [hn'.slt_zero, if_neg (by decide), ih _ n' _ hrest hsub' hn', List.map_cons,
        List.append_assoc]
      rfl

theorem pathOffsetTrace_eq {adt : Blob} {fuel : Nat} {t : AdtTree}
    (hheader : adtCheckHeader adt = 0)
    (h : Node adt fuel (0, t)) {path : List Byte} (hpath : ∀ b ∈ path, b ≠ 0) :
    adtPathOffsetTrace adt fuel path =
      some (offsetOf (resolve (components path) (0, t)),
        (reached (components path) (0, t)).map (fun n => BitVec.ofNat 32 n.1) ++ [0]) := by
  have hloop := pathLoop_resolve hheader (path.length + 1) path (0, t) [] (Nat.lt_succ_self _)
    hpath h
  have hzero : BitVec.ofNat 32 (0, t).1 = 0 := rfl
  rw [hzero, List.nil_append] at hloop
  rw [adtPathOffsetTrace, if_neg (not_not.mpr hheader), hloop]
  rfl

theorem Node.resolve {adt : Blob} {fuel : Nat} {cs : List (List Byte)} :
    ∀ {n n' : Nat × AdtTree}, Node adt fuel n → Adt.resolve cs n = some n' → Node adt fuel n' := by
  induction cs with
  | nil =>
    intro n n' hn hres
    cases hres
    exact hn
  | cons c cs ih =>
    intro n n' hn hres
    rw [Adt.resolve] at hres
    obtain ⟨m, hchild, hrest⟩ := Option.bind_eq_some_iff.mp hres
    exact ih (hn.child (List.mem_of_find?_eq_some hchild)) hrest

/-- **Path resolution.**  `adt_path_offset` returns the offset of the node the
    components of the path lead to, and `-ADT_ERR_NOTFOUND` exactly when there is
    none; `adt_path_offset_trace` stores the offsets of the nodes on the way and a
    zero; slashes at the ends and doubled slashes change neither. -/
theorem path_resolution {adt : Blob} {fuel : Nat} {t : AdtTree} (hstored : Stored adt 0 t)
    (hnamed : t.named = true) (hheader : adtCheckHeader adt = 0) (hfuel : t.depth ≤ fuel)
    {path : List Byte} (hpath : ∀ b ∈ path, b ≠ 0) :
    adtPathOffset adt fuel path = some (offsetOf (resolve (components path) (0, t))) ∧
    (adtPathOffset adt fuel path = some (-ADT_ERR_NOTFOUND) ↔
      resolve (components path) (0, t) = none) ∧
    adtPathOffsetTrace adt fuel path = some (offsetOf (resolve (components path) (0, t)),
      (reached (components path) (0, t)).map (fun n => BitVec.ofNat 32 n.1) ++ [0]) ∧
    adtPathOffsetTrace adt fuel (0x2f :: path) = adtPathOffsetTrace adt fuel path ∧
    adtPathOffsetTrace adt fuel (path ++ [0x2f]) = adtPathOffsetTrace adt fuel path ∧
    ∀ p q, path = p ++ 0x2f :: q →
      adtPathOffsetTrace adt fuel (p ++ 0x2f :: 0x2f :: q) = adtPathOffsetTrace adt fuel path := by
  have hroot : Node adt fuel (0, t) := ⟨hstored, hnamed, hfuel⟩
  have htrace := pathOffsetTrace_eq hheader hroot hpath
  have hoffset : adtPathOffset adt fuel path =
      some (offsetOf (resolve (components path) (0, t))) := by
    rw [adtPathOffset, htrace, Option.map_some]
  -- the same components give the same trace
  have hsame : ∀ path', (∀ b ∈ path', b ≠ 0) → components path' = components path →
      adtPathOffsetTrace adt fuel path' = adtPathOffsetTrace adt fuel path := by
    intro path' hpath' hcomp
    rw [pathOffsetTrace_eq hheader hroot hpath', htrace, hcomp]
  refine ⟨hoffset, ?_, htrace, ?_, ?_, ?_⟩
  · rw [hoffset, Option.some.injEq]
    cases hres : resolve (components path) (0, t) with
    | none => exact iff_of_true rfl rfl
    | some n =>
      refine iff_of_false ?_ nofun
      intro heq
      have hpos := (hroot.resolve hres).slt_zero
      have hoff : BitVec.ofNat 32 n.1 = -ADT_ERR_NOTFOUND := heq
      rw [hoff] at hpos
      exact absurd hpos (by decide)
  · refine hsame _ ?_ (components_slash path)
    intro b hb
    rcases List.mem_cons.mp hb with rfl | hb
    · decide
    · exact hpath b hb
  · refine hsame _ ?_ ?_
    · intro b hb
      rcases List.mem_append.mp hb with hb | hb
      · exact hpath b hb
      · rw [List.mem_singleton.mp hb]
        decide
    · rw [components_append, components_nil, List.append_nil]
  · rintro p q rfl
    refine hsame _ ?_ ?_
    · intro b hb
      apply hpath
      simp only [List.mem_append, List.mem_cons] at hb ⊢
      rcases hb with hb | hb | hb | hb
      · exact .inl hb
      · exact .inr (.inl hb)
      · exact .inr (.inl hb)
      · exact .inr (.inr hb)
    · rw [components_append, components_append, components_slash]

/-- `//arm-io/uart2/`, where the tree has `arm-io@3`. -/
theorem path_resolution_sampleTree :
    adtPathOffsetTrace (blobOf sampleTree.enc) 3
      (cstr ['/', '/', 'a', 'r', 'm', '-', 'i', 'o', '/', 'u', 'a', 'r', 't', '2', '/']) =
        some (312, [128, 312, 0]) := by
  have hstored : Stored (blobOf sampleTree.enc) 0 sampleTree := stored_blobOf (by decide +kernel)
  have hpath : ∀ b ∈ cstr
      ['/', '/', 'a', 'r', 'm', '-', 'i', 'o', '/', 'u', 'a', 'r', 't', '2', '/'], b ≠ 0 := by
    decide
  have hfuel : sampleTree.depth ≤ 3 := by decide
  have htrace := (path_resolution hstored (by decide +kernel) (by decide +kernel) hfuel hpath).2.2.1
  rw [htrace]
  decide +kernel

/-! ### A device below a bus -/

def uartPath : List Byte := cstr ['/', 'a', 'r', 'm', '-', 'i', 'o', '/', 'u', 'a', 'r', 't', '2']

theorem components_uartPath :
    components uartPath =
      [cstr ['a', 'r', 'm', '-', 'i', 'o'], cstr ['u', 'a', 'r', 't', '2']] := by
  decide +kernel

def firstChild (t : AdtTree) : AdtTree := t.children.headD t

section BusTree

variable (rootCells busCells : U32) (ranges reg : List Byte) (hranges : ranges.length < 2 ^ 20)
  (hreg : reg.length < 2 ^ 20)

theorem childrenAt_root :
    childrenAt 0 (busTree rootCells busCells ranges reg hranges hreg) = 128 := by
  simp only [childrenAt, busTree, AdtTree.props, encProps_cons, List.length_append,
    AdtProp.length_enc, nameProp, cellsProp, length_leWord]
  rfl

theorem childrenAt_bus :
    childrenAt 128 (firstChild (busTree rootCells busCells ranges reg hranges hreg)) =
      300 + 4 * ((ranges.length + 3) / 4) := by
  have hnil : (encProps []).length = 0 := rfl
  simp only [childrenAt, busTree, firstChild, AdtTree.children, List.headD_cons, AdtTree.props,
    encProps_cons, List.length_append, AdtProp.length_enc, nameProp, cellsProp, length_leWord, hnil,
    cstr, List.length_map, List.length_cons, List.length_nil]
  omega

theorem node_busTree :
    Node (blobOf (busTree rootCells busCells ranges reg hranges hreg).enc) 3
      (0, busTree rootCells busCells ranges reg hranges hreg) := by
  refine ⟨stored_blobOf ?_, rfl, Nat.le_refl 3⟩
  have hnil : (encProps []).length = 0 := rfl
  simp only [AdtTree.length_enc, busTree, AdtTree.children, encAll, AdtTree.props, encProps_cons,
    List.length_append, AdtProp.length_enc, nameProp, cellsProp, length_leWord, hnil, cstr,
    List.length_map, List.length_cons, List.length_nil]
  omega

theorem header_busTree :
    adtCheckHeader (blobOf (busTree rootCells busCells ranges reg hranges hreg).enc) = 0 := by
  have hfields := (node_busTree rootCells busCells ranges reg hranges hreg).stored.fields
  have hprops : adtGetPropertyCount _ 0 = 3 := hfields.1
  have hchildren : adtGetChildCount _ 0 = 1 := hfields.2.1
  rw [adtCheckHeader, adtCheckNodeOffset, hprops, hchildren]
  decide

theorem walk_busTree :
    let t := busTree rootCells busCells ranges reg hranges hreg
    let o := 300 + 4 * ((ranges.length + 3) / 4)
    resolve (components uartPath) (0, t) = some (o, firstChild (firstChild t)) ∧
      reached (components uartPath) (0, t) =
        [(128, firstChild t), (o, firstChild (firstChild t))] := by
  intro t o
  have hfirst : childNamed (cstr ['a', 'r', 'm', '-', 'i', 'o']) (0, t) =
      some (128, firstChild t) := by
    have hplaced : placed (0, t) = [(128, firstChild t)] := by
      have hat := childrenAt_root rootCells busCells ranges reg hranges hreg
      exact congrArg (fun o => [(o, firstChild t)]) hat
    rw [childNamed, hplaced]
    rfl
  have hsecond : childNamed (cstr ['u', 'a', 'r', 't', '2']) (128, firstChild t) =
      some (o, firstChild (firstChild t)) := by
    have hplaced : placed (128, firstChild t) = [(o, firstChild (firstChild t))] := by
      have hat := childrenAt_bus rootCells busCells ranges reg hranges hreg
      exact congrArg (fun o => [(o, firstChild (firstChild t))]) hat
    rw [childNamed, hplaced]
    rfl
  rw [components_uartPath]
  simp only [resolve, reached, hfirst, hsecond, Option.bind_some, and_self]

theorem trace_busTree :
    let o := BitVec.ofNat 32 (300 + 4 * ((ranges.length + 3) / 4))
    adtPathOffsetTrace (blobOf (busTree rootCells busCells ranges reg hranges hreg).enc) 3
      uartPath = some (o, [128, o, 0]) := by
  intro o
  obtain ⟨hresolve, hreached⟩ := walk_busTree rootCells busCells ranges reg hranges hreg
  have htrace := pathOffsetTrace_eq (header_busTree rootCells busCells ranges reg hranges hreg)
    (node_busTree rootCells busCells ranges reg hranges hreg)
    (by decide : ∀ b ∈ uartPath, b ≠ 0)
  rw [hresolve, hreached] at htrace
  exact htrace

end BusTree

end MiniHaywire.Adt
