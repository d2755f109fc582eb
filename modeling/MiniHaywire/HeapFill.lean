import MiniHaywire.Malloc

/-!
# Free blocks, filled and emptied again

A client that allocates buffers one after the other fills the free blocks of the heap from
the left, each with the requests that it is the first one long enough for.  A `Seg` is a
block of the heap as it was before, with the sizes that were taken from it since.  On a list
of segments `fit` is first fit, and `malloc` does the same (`Filled.malloc`).

Then the buffers are released in the order in which they were allocated.  An empty buffer has
the address of whatever is allocated behind it.  If it was the first one in its free block,
its release leaves an empty free block at that address, and the next release there raises
(`Filled.freeAll`).
-/

namespace MiniHaywire.Malloc

open Tiling

/-! ### Segments -/

/-- A block of a heap, and what has become of it: it was used, or it was free and sizes were
    taken from it in turn.  Of those `given` are released again and `taken` are still used;
    `left` units were never taken. -/
inductive Seg where
  | used (n : Int)
  | gap (given taken : List Int) (left : Int)
deriving DecidableEq

def usedBlocks (ns : List Int) : List Block := ns.map fun n => ⟨n, true⟩

/-- A free block, if it is not empty. -/
def freeBlock (n : Int) : List Block := if 0 < n then [⟨n, false⟩] else []

namespace Seg

def origin : Seg → Block
  | .used n => ⟨n, true⟩
  | .gap given taken left => ⟨given.sum + taken.sum + left, false⟩

def blocks : Seg → List Block
  | .used n => [⟨n, true⟩]
  | .gap given [] left => [⟨given.sum + left, false⟩]
  | .gap given (n :: taken) left =>
    (if given = [] then [] else [⟨given.sum, false⟩]) ++
      (usedBlocks (n :: taken) ++ freeBlock left)

def held : Seg → List Int
  | .used _ => []
  | .gap _ taken _ => taken

/-- An empty size was taken first and another one behind it, so that both start at one place. -/
def Clash : Seg → Prop
  | .used _ => False
  | .gap given taken _ => ∃ n ns, given ++ taken = 0 :: n :: ns

/-- Where sizes that stand side by side from `pos` on start. -/
def starts : Int → List Int → List Int
  | _, [] => []
  | pos, n :: ns => pos :: starts (pos + n) ns

/-- Where the sizes in use start, in a segment at `pos`. -/
def pending (pos : Int) : Seg → List Int
  | .used _ => []
  | .gap given taken _ => starts (pos + given.sum) taken

/-- What stands at the end of the segment is not empty, and no two sizes that clash have been
    released. -/
def Ok : Seg → Prop
  | .used _ => True
  | .gap given taken left => (∀ n ∈ given ++ taken, 0 ≤ n) ∧ 0 ≤ left ∧
      (∀ ns, ns <:+ taken → ns ≠ [] → 0 < ns.sum + left) ∧ ∀ n ns, given ≠ 0 :: n :: ns

def Fresh : Seg → Prop
  | .used _ => True
  | .gap given _ _ => given = []

end Seg

/-- First fit: the position for a size, and the segments with it. -/
def fit (n : Int) : Int → List Seg → Option (Int × List Seg)
  | _, [] => none
  | pos, .gap given taken left :: segs =>
    if 0 < left ∧ n ≤ left then
      some (pos + given.sum + taken.sum, .gap given (taken ++ [n]) (left - n) :: segs)
    else
      (fit n (pos + (Seg.gap given taken left).origin.size) segs).map fun r =>
        (r.1, .gap given taken left :: r.2)
  | pos, .used m :: segs => (fit n (pos + m) segs).map fun r => (r.1, .used m :: r.2)

/-- From `pos` on there are the blocks `bs`, filled to these segments.  The positions `ps` are
    those of the sizes in use, in each segment from left to right. -/
inductive Filled : Int → List Block → List Seg → List Int → Prop
  | nil (pos : Int) : Filled pos [] [] []
  | cons {pos : Int} {bs : List Block} {s : Seg} {segs : List Seg} {ps : List Int}
      (size : 0 < s.origin.size) (ok : s.Ok)
      (here : ps.filter (· < pos + s.origin.size) = s.pending pos)
      (rest : Filled (pos + s.origin.size) bs segs (ps.filter (pos + s.origin.size ≤ ·))) :
      Filled pos (s.origin :: bs) (s :: segs) ps

def Heap.addr (h : Heap) (p : Int) : Int := h.offset + h.block * p

def Heap.filled (h : Heap) (segs : List Seg) : Heap :=
  { h with blocks := segs.flatMap Seg.blocks }

/-! ### Allocating -/

section Fit

variable {n pos : Int} {bs : List Block} {segs : List Seg} {ps : List Int}

theorem mallocLoop_used (ns : List Int) (rest : List Block) : ∀ pos,
    mallocLoop n pos (usedBlocks ns ++ rest) =
      (mallocLoop n (pos + ns.sum) rest).map fun r => (r.1, usedBlocks ns ++ r.2) := by
  induction ns with
  | nil =>
    intro pos
    simp [usedBlocks]
  | cons m ns ih =>
    intro pos
    rw [usedBlocks] at ih ⊢
    simp [mallocLoop, ih, Int.add_assoc, Function.comp_def]

theorem Filled.mallocLoop_eq (h : Filled pos bs segs ps) (hfresh : ∀ s ∈ segs, s.Fresh) :
    mallocLoop n pos (segs.flatMap Seg.blocks) =
      (fit n pos segs).map fun r => (r.1, r.2.flatMap Seg.blocks) := by
  induction h with
  | nil pos => rfl
  | @cons pos bs s segs ps size ok here rest ih =>
    obtain ⟨hs, hfresh⟩ := List.forall_mem_cons.mp hfresh
    have ih := ih hfresh
    rw [List.flatMap_cons]
    rcases s with m | ⟨given, _ | ⟨m, taken⟩, left⟩
    · simp only [Seg.origin] at ih
      simp [Seg.blocks, mallocLoop, fit, ih, Function.comp_def]
    · obtain rfl : given = [] := hs
      simp only [Seg.origin, List.sum_nil, Int.zero_add] at size ih
      by_cases hle : n ≤ left
      · simp [Seg.blocks, usedBlocks, freeBlock, mallocLoop, fit, hle, size, carve]
      · simp [Seg.blocks, Seg.origin, mallocLoop, fit, hle, ih, Function.comp_def]
    · obtain rfl : given = [] := hs
      simp only [Seg.origin, List.sum_nil, List.sum_cons, Int.zero_add, ← Int.add_assoc] at ih
      simp only [Seg.blocks, if_pos, List.nil_append, List.append_assoc]
      rw [mallocLoop_used]
      by_cases hleft : 0 < left
      · by_cases hle : n ≤ left
        · simp [Seg.blocks, usedBlocks, freeBlock, mallocLoop, fit, hle, hleft, carve]
        · simp [Seg.blocks, Seg.origin, freeBlock, mallocLoop, fit, hle, hleft, ih,
            Function.comp_def, ← Int.add_assoc]
      · -- no free block is left of the segment
        obtain rfl : left = 0 := le_antisymm (not_lt.mp hleft) ok.2.1
        rw [Int.add_zero] at ih
        simp [Seg.blocks, Seg.origin, freeBlock, fit, ih, Function.comp_def, ← Int.add_assoc]

theorem Filled.malloc {h : Heap} (hfilled : Filled 0 h.blocks segs ps)
    (hfresh : ∀ s ∈ segs, s.Fresh) (size : Int) :
    (h.filled segs).malloc size =
      match fit (h.units size) 0 segs with
      | some (p, segs) => (.ok (h.addr p), h.filled segs)
      | none => (.error outOfMemory, h.filled segs) := by
  have hloop : mallocLoop ((h.filled segs).units size) 0 (h.filled segs).blocks =
      (fit (h.units size) 0 segs).map fun r => (r.1, r.2.flatMap Seg.blocks) :=
    hfilled.mallocLoop_eq hfresh
  rw [Heap.malloc, hloop]
  cases Malloc.fit (h.units size) 0 segs <;> rfl

theorem Seg.Ok.push {given taken : List Int} {left : Int} (h : (Seg.gap given taken left).Ok)
    (hleft : 0 < left) (hn : 0 ≤ n) (hle : n ≤ left) :
    (Seg.gap given (taken ++ [n]) (left - n)).Ok := by
  obtain ⟨hnonneg, -, -, hgiven⟩ := h
  refine ⟨?_, by omega, ?_, hgiven⟩
  · intro m hm
    rw [← List.append_assoc, List.mem_append, List.mem_singleton] at hm
    rcases hm with hm | rfl
    · exact hnonneg m hm
    · exact hn
  · rintro ns ⟨front, hfront⟩ hne
    rcases List.eq_nil_or_concat ns with rfl | ⟨ms, m, rfl⟩
    · exact absurd rfl hne
    · rw [List.concat_eq_append] at hfront ⊢
      rw [← List.append_assoc] at hfront
      obtain ⟨rfl, hm⟩ := List.append_inj' hfront rfl
      obtain rfl := List.singleton_inj.mp hm
      have hms : 0 ≤ ms.sum := List.sum_nonneg fun k hk => hnonneg k (by simp [hk])
      rw [List.sum_append, List.sum_singleton]
      omega

theorem starts_append (ns : List Int) : ∀ pos,
    Seg.starts pos (ns ++ [n]) = Seg.starts pos ns ++ [pos + ns.sum] := by
  induction ns with
  | nil =>
    intro pos
    simp [Seg.starts]
  | cons m ns ih =>
    intro pos
    simp [Seg.starts, ih, Int.add_assoc]

/-- What first fit does: the new position is the last one, in its segment and of all. -/
theorem Filled.fit (h : Filled pos bs segs ps) (hn : 0 ≤ n) {p : Int} {segs' : List Seg}
    (hfit : fit n pos segs = some (p, segs')) :
    pos ≤ p ∧ Filled pos bs segs' (ps ++ [p]) ∧
      ((∀ s ∈ segs, s.Fresh) → ∀ s ∈ segs', s.Fresh) := by
  induction h generalizing segs' with
  | nil pos => cases hfit
  | @cons pos bs s segs ps size ok here rest ih =>
    have hnext : ((Malloc.fit n (pos + s.origin.size) segs).map fun r => (r.1, s :: r.2)) =
        some (p, segs') → pos ≤ p ∧ Filled pos (s.origin :: bs) segs' (ps ++ [p]) ∧
          ((∀ t ∈ s :: segs, t.Fresh) → ∀ t ∈ segs', t.Fresh) := by
      intro hmap
      obtain ⟨⟨q, segs₁⟩, hq, heq⟩ := Option.map_eq_some_iff.mp hmap
      obtain ⟨rfl, rfl⟩ := Prod.mk.inj heq
      obtain ⟨hge, hfilled, hfresh⟩ := ih hq
      refine ⟨by omega, .cons size ok ?_ ?_, ?_⟩
      · rw [List.filter_append, here]
        simp [hge]
      · rwa [List.filter_append, List.filter_cons_of_pos (by simpa using hge)]
      · simp only [List.forall_mem_cons]
        exact fun h => ⟨h.1, hfresh h.2⟩
    cases s with
    | used m => exact hnext hfit
    | gap given taken left =>
      rw [Malloc.fit] at hfit
      split at hfit
      · rename_i hroom
        cases hfit
        have hsame : (Seg.gap given taken left).origin =
            (Seg.gap given (taken ++ [n]) (left - n)).origin := by
          simp [Seg.origin]
          omega
        have hlt : pos + given.sum + taken.sum < pos + (Seg.gap given taken left).origin.size := by
          simp only [Seg.origin]
          omega
        have hgiven : 0 ≤ given.sum := List.sum_nonneg fun m hm => ok.1 m (by simp [hm])
        have htaken : 0 ≤ taken.sum := List.sum_nonneg fun m hm => ok.1 m (by simp [hm])
        refine ⟨by omega, ?_, ?_⟩
        · rw [hsame] at size here rest hlt ⊢
          refine .cons size (ok.push hroom.1 hn hroom.2) ?_ ?_
          · rw [List.filter_append, here, List.filter_cons_of_pos (by simpa using hlt)]
            simp [Seg.pending, starts_append]
          · rw [List.filter_append, List.filter_cons_of_neg (by simpa using hlt)]
            simpa using rest
        · simp only [List.forall_mem_cons]
          exact id
      · exact hnext hfit

end Fit

/-! ### Releasing -/

/-- No end of the list is empty. -/
def Solid : List Block → Prop
  | [] => True
  | b :: bs => 0 < span Block.size (b :: bs) ∧ Solid bs

section Release

theorem freeLoop_solid {addr : Int} (rest : List Block) {bs : List Block} (hbs : Solid bs) :
    ∀ {before : List Block} {pos : Int}, pos + span Block.size bs ≤ addr →
      freeLoop addr before pos (bs ++ rest) =
        freeLoop addr (bs.reverse ++ before) (pos + span Block.size bs) rest := by
  induction bs with
  | nil =>
    intro before pos _
    simp
  | cons b bs ih =>
    intro before pos hle
    have hpos := hbs.1
    rw [List.cons_append, freeLoop, if_neg (by omega), if_neg (by omega)]
    rw [span_cons] at hle ⊢
    rw [ih hbs.2 (by omega), List.reverse_cons, List.append_assoc, Int.add_assoc]
    rfl

theorem solid_used {ns : List Int} {left : Int} (hleft : 0 ≤ left)
    (h : ∀ ms, ms <:+ ns → ms ≠ [] → 0 < ms.sum + left) :
    Solid (usedBlocks ns ++ freeBlock left) ∧
      span Block.size (usedBlocks ns ++ freeBlock left) = ns.sum + left := by
  induction ns with
  | nil =>
    by_cases hpos : 0 < left
    · simp [Solid, usedBlocks, freeBlock, hpos]
    · obtain rfl : left = 0 := le_antisymm (not_lt.mp hpos) hleft
      simp [Solid, usedBlocks, freeBlock]
  | cons n ns ih =>
    obtain ⟨hsolid, hspan⟩ := ih fun ms hms => h ms (hms.trans (List.suffix_cons n ns))
    have hall := h (n :: ns) List.suffix_rfl (List.cons_ne_nil n ns)
    rw [List.sum_cons] at hall ⊢
    change (0 < span Block.size (⟨n, true⟩ :: (usedBlocks ns ++ freeBlock left)) ∧ Solid _) ∧
      span Block.size (⟨n, true⟩ :: (usedBlocks ns ++ freeBlock left)) = _
    rw [span_cons, hspan]
    exact ⟨⟨by dsimp only; omega, hsolid⟩, by dsimp only; omega⟩

theorem Seg.Ok.solid {s : Seg} (h : s.Ok) (hpos : 0 < s.origin.size) :
    Solid s.blocks ∧ span Block.size s.blocks = s.origin.size := by
  rcases s with n | ⟨given, _ | ⟨n, taken⟩, left⟩
  · simpa [Seg.blocks, Seg.origin, Solid] using hpos
  · simpa [Seg.blocks, Seg.origin, Solid] using hpos
  · obtain ⟨hsolid, hspan⟩ := solid_used h.2.1 h.2.2.1
    simp only [Seg.origin] at hpos ⊢
    rw [Seg.blocks]
    by_cases hgiven : given = []
    · rw [if_pos hgiven, List.nil_append, hspan, hgiven, List.sum_nil, Int.zero_add]
      exact ⟨hsolid, rfl⟩
    · rw [if_neg hgiven, List.singleton_append, Solid, span_cons, hspan]
      exact ⟨⟨by dsimp only; omega, hsolid⟩, by dsimp only; omega⟩

theorem absorb_used {bs : List Block} (h : ∀ b ∈ bs.head?, b.used = true) :
    absorb bs = (0, bs) := by
  rcases bs with _ | ⟨⟨n, used⟩, bs⟩
  · rfl
  · obtain rfl : used = true := h ⟨n, used⟩ rfl
    rfl

section Seg

variable {given taken : List Int} {n left : Int} {before after : List Block}

theorem release_seg (hleft : 0 ≤ left) (hbefore : ∀ b ∈ before.head?, b.used = true)
    (hafter : ∀ b ∈ after.head?, b.used = true) :
    release ((if given = [] then [] else [⟨given.sum, false⟩]) ++ before) n
        (usedBlocks taken ++ freeBlock left ++ after) =
      before.reverse ++ ((Seg.gap (given ++ [n]) taken left).blocks ++ after) := by
  have hfront : absorb ((if given = [] then [] else [⟨given.sum, false⟩]) ++ before) =
      (given.sum, before) := by
    by_cases hgiven : given = []
    · simp [hgiven, absorb_used hbefore]
    · simp [hgiven, absorb]
  rw [release, hfront, usedBlocks, freeBlock]
  cases taken with
  | nil =>
    by_cases hpos : 0 < left
    · simp [hpos, absorb, Seg.blocks, Int.add_comm]
    · obtain rfl : left = 0 := le_antisymm (not_lt.mp hpos) hleft
      simp [absorb_used hafter, Seg.blocks, Int.add_comm]
  | cons m taken => simp [absorb, Seg.blocks, usedBlocks, freeBlock, Int.add_comm]

theorem freeLoop_seg (hgiven : 0 ≤ given.sum) (hleft : 0 ≤ left)
    (hbefore : ∀ b ∈ before.head?, b.used = true) (hafter : ∀ b ∈ after.head?, b.used = true)
    (pos : Int) :
    freeLoop (pos + given.sum) before pos ((Seg.gap given (n :: taken) left).blocks ++ after) =
      if given ≠ [] ∧ given.sum = 0 then .error (.valueError "block already free")
      else .ok (before.reverse ++ ((Seg.gap (given ++ [n]) taken left).blocks ++ after)) := by
  have hreleased := @release_seg given taken n left before after hleft hbefore hafter
  rw [Seg.blocks, ← hreleased]
  by_cases hnone : given = []
  · simp [hnone, freeLoop, usedBlocks]
  · by_cases hzero : given.sum = 0
    · simp [hnone, hzero, freeLoop]
    · have hlt : ¬ pos > pos + given.sum := by omega
      simp [hnone, hzero, freeLoop, hlt, usedBlocks]

theorem Seg.Ok.pop (h : (Seg.gap given (n :: taken) left).Ok)
    (hne : ¬(given ≠ [] ∧ given.sum = 0)) : (Seg.gap (given ++ [n]) taken left).Ok := by
  obtain ⟨hnonneg, hleft, hend, hgiven⟩ := h
  refine ⟨by simpa using hnonneg, hleft,
    fun ms hms => hend ms (hms.trans (List.suffix_cons n taken)), ?_⟩
  intro m ms heq
  rcases given with _ | ⟨g, _ | ⟨g', given⟩⟩
  · cases heq
  · cases heq
    exact hne ⟨by simp, by simp⟩
  · cases heq
    exact hgiven _ _ rfl

theorem Seg.Ok.clash (h : (Seg.gap given (n :: taken) left).Ok)
    (hempty : given ≠ [] ∧ given.sum = 0) : (Seg.gap given (n :: taken) left).Clash := by
  obtain ⟨g, rest, rfl⟩ := List.exists_cons_of_ne_nil hempty.1
  have hg : 0 ≤ g := h.1 g (by simp)
  have hrest : 0 ≤ rest.sum := List.sum_nonneg fun m hm => h.1 m (by simp [hm])
  have hsum := hempty.2
  rw [List.sum_cons] at hsum
  obtain rfl : g = 0 := by omega
  rcases rest with _ | ⟨m, rest⟩
  · exact ⟨n, taken, rfl⟩
  · exact ⟨m, rest ++ n :: taken, rfl⟩

end Seg

variable {pos : Int} {bs : List Block} {segs : List Seg} {ps : List Int}

theorem Filled.span_nonneg (h : Filled pos bs segs ps) : 0 ≤ span Block.size bs := by
  induction h with
  | nil pos => rfl
  | cons size ok here rest ih =>
    rw [span_cons]
    omega

theorem Filled.head_used (h : Filled pos bs segs ps) (hbs : ∀ b ∈ bs.head?, b.used = true) :
    ∀ b ∈ (segs.flatMap Seg.blocks).head?, b.used = true := by
  intro b hb
  cases h with
  | nil => cases hb
  | @cons _ _ s _ _ size ok here rest =>
    have hfirst := hbs _ rfl
    cases s with
    | used m =>
      cases hb
      rfl
    | gap => cases hfirst

/-- A release at the first of the positions: it raises where two sizes clash, or the size is given
    back. -/
theorem Filled.freeLoop {p : Int} {qs : List Int} (h : Filled pos bs segs qs)
    (hapart : bs.IsChain Apart) {before : List Block}
    (hbefore : ∀ b ∈ before.head?, ∀ c ∈ bs.head?, b.used = true ∨ c.used = true)
    (hqs : qs = p :: ps) :
    pos ≤ p ∧ p < pos + span Block.size bs ∧
      (((∃ s ∈ segs, s.Clash) ∧
          ∃ e, freeLoop p before pos (segs.flatMap Seg.blocks) = .error e) ∨
        ∃ segs', Filled pos bs segs' ps ∧ ((∃ s ∈ segs', s.Clash) ↔ ∃ s ∈ segs, s.Clash) ∧
          freeLoop p before pos (segs.flatMap Seg.blocks) =
            .ok (before.reverse ++ segs'.flatMap Seg.blocks)) := by
  induction h generalizing before ps with
  | nil pos => cases hqs
  | @cons pos bs s segs qs size ok here rest ih =>
    subst hqs
    obtain ⟨hsolid, hlength⟩ := ok.solid size
    have hspan := rest.span_nonneg
    have hnext : s.origin.used = false → ∀ c ∈ bs.head?, c.used = true := by
      intro hfree c hc
      obtain ⟨cs, rfl⟩ := List.head?_eq_some_iff.mp hc
      exact (List.isChain_cons_cons.mp hapart).1.resolve_left (by simp [hfree])
    rw [span_cons, List.flatMap_cons]
    by_cases hp : p < pos + s.origin.size
    · -- the position is in this segment, where the first size in use starts
      rw [List.filter_cons_of_pos (by simpa using hp)] at here
      rw [List.filter_cons_of_neg (by simpa using hp)] at rest
      rcases s with m | ⟨given, _ | ⟨n, taken⟩, left⟩
      · cases here
      · cases here
      obtain ⟨rfl, hstarts⟩ := List.cons.inj here
      have hgiven : 0 ≤ given.sum := List.sum_nonneg fun m hm => ok.1 m (by simp [hm])
      have hused : ∀ b ∈ before.head?, b.used = true := fun b hb =>
        (hbefore b hb _ rfl).resolve_right (by simp [Seg.origin])
      have hafter := rest.head_used (hnext rfl)
      have hfree := @freeLoop_seg given taken n left before _ hgiven ok.2.1 hused hafter pos
      refine ⟨by omega, by omega, ?_⟩
      by_cases hempty : given ≠ [] ∧ given.sum = 0
      · exact .inl ⟨⟨_, List.mem_cons_self, ok.clash hempty⟩, _, hfree.trans (if_pos hempty)⟩
      · have hsame : (Seg.gap given (n :: taken) left).origin =
            (Seg.gap (given ++ [n]) taken left).origin := by
          simp [Seg.origin]
          omega
        refine .inr ⟨.gap (given ++ [n]) taken left :: segs, ?_, by simp [Seg.Clash],
          hfree.trans (if_neg hempty)⟩
        rw [hsame] at size hstarts rest ⊢
        refine .cons size (ok.pop hempty) ?_ rest
        rw [hstarts, Seg.pending, List.sum_append, List.sum_singleton, Int.add_assoc]
    · rw [List.filter_cons_of_neg (by simpa using hp)] at here
      have hseam : ∀ b ∈ (s.blocks.reverse ++ before).head?, ∀ c ∈ bs.head?,
          b.used = true ∨ c.used = true := by
        intro b hb c hc
        cases s with
        | used m =>
          cases hb
          exact .inl rfl
        | gap given taken left => exact .inr (hnext rfl c hc)
      obtain ⟨hlow, hhigh, hcases⟩ := ih hapart.of_cons hseam
        (List.filter_cons_of_pos (by simpa using hp))
      rw [freeLoop_solid _ hsolid (by omega), hlength]
      refine ⟨by omega, by omega, ?_⟩
      rcases hcases with ⟨⟨t, ht, hclash⟩, hraise⟩ | ⟨segs', hfilled, hclash, hfree⟩
      · exact .inl ⟨⟨t, List.mem_cons_of_mem s ht, hclash⟩, hraise⟩
      · refine .inr ⟨s :: segs', .cons size ok here hfilled, ?_, ?_⟩
        · simp only [List.exists_mem_cons_iff, hclash]
        · rw [hfree]
          simp [List.append_assoc]

theorem Filled.eq_nil_iff (h : Filled pos bs segs ps) : ps = [] ↔ ∀ s ∈ segs, s.held = [] := by
  induction h with
  | nil pos => simp
  | @cons pos bs s segs ps size ok here rest ih =>
    have hpending : s.pending pos = [] ↔ s.held = [] := by
      rcases s with m | ⟨given, _ | ⟨n, taken⟩, left⟩ <;> simp [Seg.pending, Seg.held, Seg.starts]
    rw [List.forall_mem_cons, ← hpending, ← here, ← ih, List.filter_eq_nil_iff,
      List.filter_eq_nil_iff]
    constructor
    · rintro rfl
      simp
    · rintro ⟨hlow, hhigh⟩
      refine List.eq_nil_iff_forall_not_mem.mpr fun p hp => ?_
      have hnlow := hlow p hp
      have hnhigh := hhigh p hp
      simp only [decide_eq_true_eq] at hnlow hnhigh
      omega

theorem Filled.ok (h : Filled pos bs segs ps) : ∀ s ∈ segs, s.Ok := by
  induction h with
  | nil pos => simp
  | cons size ok here rest ih => exact List.forall_mem_cons.mpr ⟨ok, ih⟩

section Heap

variable {h : Heap} {p : Int}

theorem Filled.free (hunit : 0 < h.block) (haligned : h.block ∣ h.offset)
    (htiled : Tiled h.count h.blocks) (hfilled : Filled 0 h.blocks segs (p :: ps)) :
    ((∃ s ∈ segs, s.Clash) ∧
        ∃ e, (h.filled segs).free (h.addr p) = (.error e, h.filled segs)) ∨
      ∃ segs', Filled 0 h.blocks segs' ps ∧ ((∃ s ∈ segs', s.Clash) ↔ ∃ s ∈ segs, s.Clash) ∧
        (h.filled segs).free (h.addr p) = (.ok (), h.filled segs') := by
  have hfirst : ∀ b ∈ ([] : List Block).head?, ∀ c ∈ h.blocks.head?,
      b.used = true ∨ c.used = true := by simp
  obtain ⟨hlow, hhigh, hcases⟩ := hfilled.freeLoop htiled.apart hfirst rfl
  rw [htiled.total] at hhigh
  have hfree : (h.filled segs).free (h.addr p) = _ :=
    Heap.free_at (h := h.filled segs) hunit haligned hlow (show p < h.count by omega)
  rw [hfree, show (h.filled segs).blocks = segs.flatMap Seg.blocks from rfl]
  rcases hcases with ⟨hclash, e, hloop⟩ | ⟨segs', hfilled', hclash, hloop⟩
  · exact .inl ⟨hclash, e, by rw [hloop]⟩
  · exact .inr ⟨segs', hfilled', hclash, by rw [hloop]; rfl⟩

/-- **Releasing in the order of allocation.**  All that was taken is given back, unless two sizes
    clash. -/
theorem Filled.freeAll (hunit : 0 < h.block) (haligned : h.block ∣ h.offset)
    (htiled : Tiled h.count h.blocks) : ∀ {segs : List Seg}, Filled 0 h.blocks segs ps →
      ∃ segs' ps', ((h.filled segs).freeAll (ps.map h.addr)).2 = h.filled segs' ∧
        Filled 0 h.blocks segs' ps' ∧ (ps' = [] ↔ ¬ ∃ s ∈ segs, s.Clash) := by
  induction ps with
  | nil =>
    intro segs hfilled
    refine ⟨segs, [], rfl, hfilled, iff_of_true rfl ?_⟩
    rintro ⟨s, hs, hclash⟩
    have hheld := hfilled.eq_nil_iff.mp rfl s hs
    have hok := hfilled.ok s hs
    cases s with
    | used n => exact hclash
    | gap given taken left =>
      obtain rfl : taken = [] := hheld
      obtain ⟨n, ns, heq⟩ := hclash
      rw [List.append_nil] at heq
      exact hok.2.2.2 n ns heq
  | cons p ps ih =>
    intro segs hfilled
    rcases hfilled.free hunit haligned htiled with ⟨hclash, e, hraise⟩ |
      ⟨segs', hfilled', hsame, hfree⟩
    · refine ⟨segs, p :: ps, ?_, hfilled,
        iff_of_false (List.cons_ne_nil p ps) (not_not.mpr hclash)⟩
      rw [List.map_cons, Heap.freeAll, hraise]
    · obtain ⟨segs'', ps', hall, hfilled'', hiff⟩ := ih hfilled'
      refine ⟨segs'', ps', ?_, hfilled'', hiff.trans (not_congr hsame)⟩
      rw [List.map_cons, Heap.freeAll, hfree]
      exact hall

end Heap

end Release

/-! ### Live allocations -/

section Live

variable {pos : Int} {bs : List Block} {segs : List Seg} {ps : List Int}

theorem countP_blocks (s : Seg) : s.blocks.countP Block.used =
    (if s.origin.used then 1 else 0) + s.held.length := by
  have hused : ∀ ns, (usedBlocks ns).countP Block.used = ns.length := by
    intro ns
    simp [usedBlocks, List.countP_map, Function.comp_def]
  rcases s with m | ⟨given, _ | ⟨n, taken⟩, left⟩
  · rfl
  · rfl
  · rw [Seg.blocks, List.countP_append, List.countP_append, hused, freeBlock]
    by_cases hgiven : given = [] <;> by_cases hleft : 0 < left <;>
      simp [hgiven, hleft, Seg.origin, Seg.held]

theorem Filled.countP (h : Filled pos bs segs ps) : (segs.flatMap Seg.blocks).countP Block.used =
      bs.countP Block.used + (segs.map fun s => s.held.length).sum := by
  induction h with
  | nil pos => rfl
  | cons size ok here rest ih =>
    rw [List.flatMap_cons, List.countP_append, countP_blocks, ih, List.countP_cons, List.map_cons,
      List.sum_cons]
    omega

end Live

end MiniHaywire.Malloc
