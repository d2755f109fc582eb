import MiniHaywire.Tiling
import MiniHaywire.Run

/-!
# The host's heap

The class `Heap` of `malloc.py`, with which the client manages a piece of the
target's memory.  The heap is a list of blocks, each so many units of `block`
bytes long and used or free, that lie end to end from `offset` on.  An allocation
takes the first free block that is long enough and cuts it up; a release merges
the block with its free neighbours.
-/

namespace MiniHaywire.Malloc

open Tiling

/-! ### The class -/

structure Block where
  size : Int
  used : Bool
deriving DecidableEq, Repr

inductive HeapError where
  | valueError (message : String)
  | exception (message : String)
  | assertion
deriving DecidableEq, Repr

def outOfMemory : HeapError := .exception "Out of memory"

structure Heap where
  offset : Int
  count : Int
  blocks : List Block
  block : Int
deriving DecidableEq, Repr

def Heap.init (start stop block : Int) : Except HeapError Heap :=
  if start % block ≠ 0 then .error (.valueError "heap start not aligned")
  else if stop % block ≠ 0 then .error (.valueError "heap end not aligned")
  else .ok
    { offset := start
      count := (stop - start) / block
      blocks := [⟨(stop - start) / block, false⟩]
      block := block }

/-- A size in bytes, rounded up to units of `block` bytes. -/
def Heap.units (h : Heap) (size : Int) : Int := (size + h.block - 1) / h.block

/-- What stands in place of a free block of `bsize` units once `size` units of it, from
    `offset` on, are taken. -/
def carve (offset size bsize : Int) : List Block :=
  (if offset ≠ 0 then [⟨offset, false⟩] else []) ++
    ⟨size, true⟩ :: (if bsize > size + offset then [⟨bsize - size - offset, false⟩] else [])

/-- The loop of `malloc`: the position of the new block, and the list with it. -/
def mallocLoop (size : Int) : Int → List Block → Option (Int × List Block)
  | _, [] => none
  | pos, b :: rest =>
    if b.used = false ∧ b.size ≥ size then some (pos, carve 0 size b.size ++ rest)
    else (mallocLoop size (pos + b.size) rest).map fun r => (r.1, b :: r.2)

def Heap.malloc (h : Heap) (size : Int) : Except HeapError Int × Heap :=
  match mallocLoop (h.units size) 0 h.blocks with
  | some (pos, blocks) => (.ok (h.offset + h.block * pos), { h with blocks := blocks })
  | none => (.error outOfMemory, h)

/-- How far the next multiple of `align` is from `pos`. -/
def gap (align pos : Int) : Int := if pos % align ≠ 0 then align - pos % align else 0

def memalignLoop (align size : Int) : Int → List Block → Option (Int × List Block)
  | _, [] => none
  | pos, b :: rest =>
    if b.used = false ∧ b.size ≥ size + gap align pos then
      some (pos + gap align pos, carve (gap align pos) size b.size ++ rest)
    else (memalignLoop align size (pos + b.size) rest).map fun r => (r.1, b :: r.2)

/-- An alignment in units of `block` bytes. -/
def Heap.alignUnits (h : Heap) (align : Nat) : Int := max (align : Int) h.block / h.block

def Heap.memalign (h : Heap) (align : Nat) (size : Int) : Except HeapError Int × Heap :=
  if align &&& (align - 1) ≠ 0 then (.error .assertion, h)
  else
    match memalignLoop (h.alignUnits align) (h.units size) (h.offset / h.block) h.blocks with
    | some (pos, blocks) => (.ok (h.block * pos), { h with blocks := blocks })
    | none => (.error outOfMemory, h)

/-- A free block at the end of a list, nearest first, or at the head of the one behind. -/
def absorb : List Block → Int × List Block
  | ⟨n, false⟩ :: rest => (n, rest)
  | bs => (0, bs)

/-- The edits of `free` at a used block of `bsize` units.  The blocks before it stand with the
    nearest one first. -/
def release (before : List Block) (bsize : Int) (after : List Block) : List Block :=
  (absorb before).2.reverse ++
    ⟨bsize + (absorb before).1 + (absorb after).1, false⟩ :: (absorb after).2

def freeLoop (addr : Int) : List Block → Int → List Block → Except HeapError (List Block)
  | _, _, [] => .error (.valueError "bad free address")
  | before, pos, b :: after =>
    if pos > addr then .error (.valueError "bad free address")
    else if pos = addr then
      if b.used = false then .error (.valueError "block already free")
      else .ok (release before b.size after)
    else freeLoop addr (b :: before) (pos + b.size) after

def Heap.free (h : Heap) (addr : Int) : Except HeapError Unit × Heap :=
  if addr % h.block ≠ 0 then (.error (.valueError "free address not aligned"), h)
  else if addr < h.offset then (.error (.valueError "free address before heap"), h)
  else if (addr - h.offset) / h.block ≥ h.count then
    (.error (.valueError "free address after heap"), h)
  else
    match freeLoop ((addr - h.offset) / h.block) [] 0 h.blocks with
    | .ok blocks => (.ok (), { h with blocks := blocks })
    | .error e => (.error e, h)

/-! ### What the loops find -/

theorem gap_nonneg {align : Int} (ha : 0 < align) (pos : Int) : 0 ≤ gap align pos := by
  have hlt := Int.emod_lt_of_pos pos ha
  unfold gap
  split <;> omega

theorem dvd_add_gap (align pos : Int) : align ∣ pos + gap align pos := by
  have hdiv := Int.mul_ediv_add_emod pos align
  unfold gap
  split
  · exact ⟨pos / align + 1, by rw [Int.mul_add, Int.mul_one]; omega⟩
  · exact ⟨pos / align, by omega⟩

theorem gap_le_of_dvd {align pos a : Int} (ha : 0 < align) (hpos : pos ≤ a) (hdvd : align ∣ a) :
    pos + gap align pos ≤ a := by
  by_contra hlt
  -- both multiples lie less than `align` apart
  have hsub : align ∣ pos + gap align pos - a := dvd_sub (dvd_add_gap align pos) hdvd
  have hgap : gap align pos < align := by
    have hmod := Int.emod_nonneg pos (Int.ne_of_gt ha)
    unfold gap
    split <;> omega
  have hle := Int.le_of_dvd (by omega) hsub
  omega

/-- `malloc` is `memalign` with units for which every position is a multiple. -/
theorem mallocLoop_eq (size : Int) (bs : List Block) : ∀ pos,
    mallocLoop size pos bs = memalignLoop 1 size pos bs := by
  induction bs with
  | nil =>
    intro pos
    rfl
  | cons b bs ih =>
    intro pos
    have hgap : gap 1 pos = 0 := by simp [gap]
    simp only [mallocLoop, memalignLoop, hgap, Int.add_zero, ih]

section Loops

variable {align size : Int}

/-- A free block at `pos` that can take `size` units from a multiple of `align` on. -/
def Fits (align size pos : Int) (b : Block) : Prop :=
  b.used = false ∧ size + gap align pos ≤ b.size

theorem memalignLoop_some {p : Int} {bs bs' : List Block} : ∀ {pos : Int},
    memalignLoop align size pos bs = some (p, bs') →
    ∃ pre b post, bs = pre ++ b :: post ∧ Fits align size (pos + span Block.size pre) b ∧
      p = pos + span Block.size pre + gap align (pos + span Block.size pre) ∧
      bs' = pre ++ (carve (gap align (pos + span Block.size pre)) size b.size ++ post) := by
  induction bs generalizing bs' with
  | nil =>
    intro pos h
    cases h
  | cons b bs ih =>
    intro pos h
    rw [memalignLoop] at h
    split at h
    · next hfit =>
      cases h
      refine ⟨[], b, bs, rfl, ?_, ?_, ?_⟩
      · simpa [Fits] using hfit
      · simp
      · simp
    · obtain ⟨⟨q, cs⟩, hq, heq⟩ := Option.map_eq_some_iff.mp h
      cases heq
      obtain ⟨pre, c, post, rfl, hfit, rfl, rfl⟩ := ih hq
      refine ⟨b :: pre, c, post, rfl, ?_, ?_, ?_⟩ <;>
        simp only [span_cons, ← Int.add_assoc, List.cons_append]
      exact hfit

theorem memalignLoop_none {bs : List Block} : ∀ {pos : Int},
    memalignLoop align size pos bs = none ↔
      ∀ p b, (p, b) ∈ placed Block.size pos bs → ¬ Fits align size p b := by
  induction bs with
  | nil =>
    intro pos
    simp [memalignLoop]
  | cons b bs ih =>
    intro pos
    rw [memalignLoop]
    by_cases hfit : b.used = false ∧ b.size ≥ size + gap align pos
    · rw [if_pos hfit]
      constructor
      · intro h
        cases h
      · intro h
        exact absurd hfit (h pos b (by simp))
    · rw [if_neg hfit, Option.map_eq_none_iff, ih]
      constructor
      · intro h p c hc
        rcases List.mem_cons.mp hc with heq | hmem
        · cases heq
          exact hfit
        · exact h p c hmem
      · intro h p c hc
        exact h p c (by simp [hc])

end Loops

/-- Of two neighbours one is used. -/
def Apart (a b : Block) : Prop := a.used = true ∨ b.used = true

theorem absorb_spec (bs : List Block) :
    ∃ taken, bs = taken ++ (absorb bs).2 ∧ span Block.size taken = (absorb bs).1 ∧
      ∀ b ∈ taken, b.used = false := by
  rcases bs with _ | ⟨⟨n, used⟩, rest⟩
  · exact ⟨[], rfl, rfl, by simp⟩
  · cases used with
    | false => exact ⟨[⟨n, false⟩], rfl, by simp [absorb], by simp⟩
    | true => exact ⟨[], rfl, rfl, by simp⟩

theorem absorb_head {bs : List Block} (h : bs.IsChain Apart) :
    ∀ b ∈ (absorb bs).2.head?, b.used = true := by
  rcases bs with _ | ⟨⟨n, used⟩, rest⟩
  · simp [absorb]
  · cases used with
    | true => simp [absorb]
    | false =>
      intro b hb
      rcases rest with _ | ⟨c, rest⟩
      · cases hb
      · cases hb
        obtain ⟨hapart, -⟩ := List.isChain_cons_cons.mp h
        exact hapart.resolve_left (by simp)

theorem release_spec {pre post : List Block} (hpre : pre.IsChain Apart)
    (hpost : post.IsChain Apart) (n : Int) :
    ∃ pre' left right post', pre = pre' ++ left ∧ post = right ++ post' ∧
      (∀ b ∈ left ++ right, b.used = false) ∧
      (∀ b ∈ pre'.getLast?, b.used = true) ∧ (∀ b ∈ post'.head?, b.used = true) ∧
      release pre.reverse n post =
        pre' ++ ([⟨n + span Block.size left + span Block.size right, false⟩] ++ post') := by
  obtain ⟨taken, htaken, hspan, hfree⟩ := absorb_spec pre.reverse
  obtain ⟨right, hright, hspan', hfree'⟩ := absorb_spec post
  refine ⟨(absorb pre.reverse).2.reverse, taken.reverse, right, (absorb post).2, ?_, hright, ?_, ?_,
    absorb_head hpost, ?_⟩
  · rw [← List.reverse_append, ← htaken, List.reverse_reverse]
  · intro b hb
    rcases List.mem_append.mp hb with hl | hr
    · exact hfree b (List.mem_reverse.mp hl)
    · exact hfree' b hr
  · intro b hb
    rw [List.getLast?_reverse] at hb
    refine absorb_head ?_ b hb
    rw [List.isChain_reverse]
    exact hpre.imp fun a b h => h.symm
  · have hrev : span Block.size taken.reverse = span Block.size taken := by
      simp [span, List.sum_reverse]
    rw [release, hrev, hspan, hspan']
    rfl

theorem freeLoop_ok {addr : Int} {bs bs' : List Block} : ∀ {before : List Block} {pos : Int},
    freeLoop addr before pos bs = .ok bs' →
    ∃ pre b post, bs = pre ++ b :: post ∧ b.used = true ∧ addr = pos + span Block.size pre ∧
      bs' = release (pre.reverse ++ before) b.size post := by
  induction bs with
  | nil =>
    intro before pos h
    cases h
  | cons b bs ih =>
    intro before pos h
    rw [freeLoop] at h
    split_ifs at h with hlt heq hused
    · cases h
      exact ⟨[], b, bs, rfl, by simpa using hused, by simp [heq], rfl⟩
    · obtain ⟨pre, c, post, rfl, hc, rfl, rfl⟩ := ih h
      refine ⟨b :: pre, c, post, rfl, hc, ?_, ?_⟩
      · rw [span_cons, Int.add_assoc]
      · rw [List.reverse_cons, List.append_assoc]
        rfl

/-- `free` finds a used block by its position: all blocks before it are passed, none of them
    is empty. -/
theorem freeLoop_used {b : Block} (hb : b.used = true) (post : List Block) :
    ∀ (pre before : List Block) (pos : Int), (∀ c ∈ pre, 0 < c.size) →
      freeLoop (pos + span Block.size pre) before pos (pre ++ b :: post) =
        .ok (release (pre.reverse ++ before) b.size post) := by
  intro pre
  induction pre with
  | nil =>
    intro before pos _
    simp [freeLoop, hb]
  | cons c pre ih =>
    intro before pos hpos
    have hc : 0 < c.size := hpos c (by simp)
    have hpre : ∀ d ∈ pre, 0 < d.size := fun d hd => hpos d (by simp [hd])
    have hspan : 0 ≤ span Block.size pre := span_nonneg fun d hd => (hpre d hd).le
    rw [List.cons_append, freeLoop, span_cons, if_neg (by omega), if_neg (by omega),
      ← Int.add_assoc, ih (c :: before) _ hpre, List.reverse_cons, List.append_assoc]
    rfl

/-! ### Tiled lists of blocks -/

/-- No block is empty, together they are `count` units, no two neighbours are both free. -/
structure Tiled (count : Int) (bs : List Block) : Prop where
  positive : ∀ b ∈ bs, 0 < b.size
  total : span Block.size bs = count
  apart : bs.IsChain Apart

/-- The used blocks, with where they start and how long they are. -/
def usedFrom (pos : Int) (bs : List Block) : List (Int × Int) :=
  (placed Block.size pos bs).filterMap fun x => if x.2.used then some (x.1, x.2.size) else none

@[simp] theorem usedFrom_nil (pos : Int) : usedFrom pos [] = [] := rfl

@[simp] theorem usedFrom_cons (pos : Int) (b : Block) (bs : List Block) :
    usedFrom pos (b :: bs) =
      (if b.used then [(pos, b.size)] else []) ++ usedFrom (pos + b.size) bs := by
  cases h : b.used <;> simp [usedFrom, h]

theorem usedFrom_append (pos : Int) (bs cs : List Block) :
    usedFrom pos (bs ++ cs) = usedFrom pos bs ++ usedFrom (pos + span Block.size bs) cs := by
  rw [usedFrom, placed_append, List.filterMap_append]
  rfl

theorem usedFrom_free {bs : List Block} (h : ∀ b ∈ bs, b.used = false) : ∀ pos,
    usedFrom pos bs = [] := by
  induction bs with
  | nil =>
    intro pos
    rfl
  | cons b bs ih =>
    intro pos
    rw [usedFrom_cons, h b (by simp), ih fun c hc => h c (by simp [hc])]
    rfl

theorem mem_usedFrom {pos p n : Int} {bs : List Block} :
    (p, n) ∈ usedFrom pos bs ↔ (p, ⟨n, true⟩) ∈ placed Block.size pos bs := by
  rw [usedFrom, List.mem_filterMap]
  constructor
  · rintro ⟨⟨q, b⟩, hmem, heq⟩
    split at heq
    · next hused =>
      cases heq
      rw [← hused]
      exact hmem
    · cases heq
  · intro h
    exact ⟨_, h, rfl⟩

section Edit

variable {count : Int} {pre mid mid' post : List Block}

theorem Tiled.edit (h : Tiled count (pre ++ (mid ++ post)))
    (hspan : span Block.size mid' = span Block.size mid) (hpos : ∀ b ∈ mid', 0 < b.size)
    (hmid : mid'.IsChain Apart)
    (hleft : ∀ b ∈ pre.getLast?, b.used = true) (hright : ∀ b ∈ post.head?, b.used = true) :
    Tiled count (pre ++ (mid' ++ post)) := by
  refine ⟨?_, ?_, ?_⟩
  · intro b hb
    simp only [List.mem_append] at hb
    rcases hb with hb | hb | hb
    · exact h.positive b (by simp [hb])
    · exact hpos b hb
    · exact h.positive b (by simp [hb])
  · have htotal := h.total
    simp only [span_append] at htotal ⊢
    omega
  · obtain ⟨hpre, hrest, -⟩ := List.isChain_append.mp h.apart
    obtain ⟨-, hpost, -⟩ := List.isChain_append.mp hrest
    refine List.isChain_append.mpr ⟨hpre, List.isChain_append.mpr ⟨hmid, hpost, ?_⟩, ?_⟩
    · intro a _ b hb
      exact Or.inr (hright b hb)
    · intro a ha b _
      exact Or.inl (hleft a ha)

theorem Tiled.neighbours {b : Block} (h : Tiled count (pre ++ b :: post)) (hb : b.used = false) :
    (∀ a ∈ pre.getLast?, a.used = true) ∧ ∀ c ∈ post.head?, c.used = true := by
  obtain ⟨-, hrest, hseam⟩ := List.isChain_append.mp h.apart
  constructor
  · intro a ha
    exact (hseam a ha b rfl).resolve_right (by simp [hb])
  · intro c hc
    rcases post with _ | ⟨d, post⟩
    · cases hc
    · cases hc
      exact (List.isChain_cons_cons.mp hrest).1.resolve_left (by simp [hb])

end Edit

section Carve

variable {offset size bsize : Int}

theorem span_carve (hfit : size + offset ≤ bsize) :
    span Block.size (carve offset size bsize) = bsize := by
  unfold carve
  split <;> split <;> simp <;> omega

theorem carve_pos (hoff : 0 ≤ offset) (hsize : 0 < size) :
    ∀ b ∈ carve offset size bsize, 0 < b.size := by
  intro b hb
  simp only [carve, List.mem_append, List.mem_cons] at hb
  rcases hb with hb | rfl | hb
  · split at hb
    · rw [List.mem_singleton.mp hb]
      dsimp only
      omega
    · cases hb
  · exact hsize
  · split at hb
    · rw [List.mem_singleton.mp hb]
      dsimp only
      omega
    · cases hb

theorem carve_apart : (carve offset size bsize).IsChain Apart := by
  unfold carve
  split <;> split <;> simp [Apart]

theorem usedFrom_carve (pos : Int) :
    usedFrom pos (carve offset size bsize) = [(pos + offset, size)] := by
  unfold carve
  split <;> split <;> simp_all

end Carve

/-! ### Sessions -/

inductive Call where
  | malloc (size : Int)
  | memalign (align : Nat) (size : Int)
  | free (addr : Int)
deriving DecidableEq, Repr

/-- A heap, and the allocations that its users hold: the pointer and the size asked for. -/
structure Session where
  heap : Heap
  live : List (Int × Int)
deriving DecidableEq, Repr

/-- The session after an allocation returned, or raised. -/
def Session.took (s : Session) (size : Int) : Except HeapError Int × Heap → Session
  | (.ok addr, h) => ⟨h, (addr, size) :: s.live⟩
  | (.error _, h) => ⟨h, s.live⟩

def Session.gave (s : Session) (addr : Int) : Except HeapError Unit × Heap → Session
  | (.ok _, h) => ⟨h, s.live.eraseP fun a => a.1 = addr⟩
  | (.error _, h) => ⟨h, s.live⟩

def Session.step (s : Session) : Call → Session
  | .malloc size => s.took size (s.heap.malloc size)
  | .memalign align size => s.took size (s.heap.memalign align size)
  | .free addr => s.gave addr (s.heap.free addr)

def Session.run (s : Session) (calls : List Call) : Session := calls.foldl Session.step s

/-- Where a used block is, in bytes, and how many units it has. -/
def Heap.place (h : Heap) (x : Int × Int) : Int × Int := (h.offset + h.block * x.1, x.2)

/-- What every call keeps: the blocks are tiled, and the used ones are the live allocations. -/
structure Session.Sound (s : Session) : Prop where
  unit : 0 < s.heap.block
  aligned : s.heap.block ∣ s.heap.offset
  tiled : Tiled s.heap.count s.heap.blocks
  live : (s.live.map fun a => (a.1, s.heap.units a.2)).Perm
    ((usedFrom 0 s.heap.blocks).map s.heap.place)

theorem Heap.units_pos {h : Heap} (hunit : 0 < h.block) {size : Int} (hsize : 0 < size) :
    0 < h.units size := by
  have hle : 1 ≤ (size + h.block - 1) / h.block := (Int.le_ediv_iff_mul_le hunit).mpr (by omega)
  exact hle

theorem usedFrom_pairwise {bs : List Block} (h : ∀ b ∈ bs, 0 < b.size) (pos : Int) :
    (usedFrom pos bs).Pairwise fun x y => x.1 + x.2 ≤ y.1 := by
  refine (placed_pairwise (fun b hb => (h b hb).le) pos).filterMap _ ?_
  rintro ⟨p, b⟩ ⟨q, c⟩ hle x hx y hy
  split at hx
  · split at hy
    · cases hx
      cases hy
      exact hle
    · cases hy
  · cases hx

theorem usedFrom_pos {bs : List Block} (h : ∀ b ∈ bs, 0 < b.size) {pos : Int} :
    ∀ x ∈ usedFrom pos bs, 0 < x.2 := by
  rintro ⟨p, n⟩ hx
  obtain ⟨pre, post, rfl, -⟩ := (mem_placed _).mp (mem_usedFrom.mp hx)
  exact h ⟨n, true⟩ (by simp)

section Sound

variable {s : Session}

theorem Session.Sound.disjoint (h : s.Sound) :
    s.live.Pairwise fun x y => x.1 + s.heap.block * s.heap.units x.2 ≤ y.1 ∨
      y.1 + s.heap.block * s.heap.units y.2 ≤ x.1 := by
  have hused : ((usedFrom 0 s.heap.blocks).map s.heap.place).Pairwise fun x y =>
      x.1 + s.heap.block * x.2 ≤ y.1 ∨ y.1 + s.heap.block * y.2 ≤ x.1 := by
    refine (usedFrom_pairwise h.tiled.positive 0).map _ ?_
    intro x y hle
    have hmul := Int.mul_le_mul_of_nonneg_left hle h.unit.le
    rw [Int.mul_add] at hmul
    left
    simp only [Heap.place]
    omega
  have hlive := (h.live.pairwise_iff fun hxy => hxy.symm).mpr hused
  exact List.pairwise_map.mp hlive

theorem Session.Sound.used (h : s.Sound) {a : Int × Int} (ha : a ∈ s.live) :
    ∃ pre post, s.heap.blocks = pre ++ ⟨s.heap.units a.2, true⟩ :: post ∧
      a.1 = s.heap.offset + s.heap.block * span Block.size pre := by
  have hmem := h.live.mem_iff.mp (List.mem_map_of_mem ha)
  obtain ⟨⟨p, n⟩, hx, heq⟩ := List.mem_map.mp hmem
  obtain ⟨pre, post, hblocks, rfl⟩ := (mem_placed _).mp (mem_usedFrom.mp hx)
  injection heq with haddr hunits
  refine ⟨pre, post, ?_, ?_⟩
  · rw [hblocks, ← hunits]
  · rw [← haddr, Int.zero_add]

theorem Session.Sound.bounds (h : s.Sound) {a : Int × Int} (ha : a ∈ s.live) :
    s.heap.offset ≤ a.1 ∧ a.1 + s.heap.block * s.heap.units a.2 ≤
      s.heap.offset + s.heap.block * s.heap.count := by
  obtain ⟨pre, post, hblocks, haddr⟩ := h.used ha
  have hpos := h.tiled.positive
  have htotal := h.tiled.total
  rw [hblocks] at hpos htotal
  have hpre : 0 ≤ span Block.size pre := span_nonneg fun b hb => (hpos b (by simp [hb])).le
  have hpost : 0 ≤ span Block.size post := span_nonneg fun b hb => (hpos b (by simp [hb])).le
  rw [span_append, span_cons] at htotal
  have hlow := Int.mul_nonneg h.unit.le hpre
  have hhigh : s.heap.block * (span Block.size pre + s.heap.units a.2) ≤
      s.heap.block * s.heap.count :=
    Int.mul_le_mul_of_nonneg_left (by dsimp only at htotal; omega) h.unit.le
  rw [Int.mul_add] at hhigh
  omega

theorem Session.Sound.nodup (h : s.Sound) : (s.live.map Prod.fst).Nodup := by
  have hne : ((usedFrom 0 s.heap.blocks).map s.heap.place).Pairwise fun x y => x.1 ≠ y.1 := by
    have hpos : ∀ x ∈ usedFrom 0 s.heap.blocks, 0 < x.2 := usedFrom_pos h.tiled.positive
    refine List.pairwise_map.mpr
      ((usedFrom_pairwise h.tiled.positive 0).imp_of_mem fun hx _ hle heq => ?_)
    simp only [Heap.place] at heq
    have hcancel := Int.eq_of_mul_eq_mul_left (Int.ne_of_gt h.unit) (Int.add_left_cancel heq)
    have hlen := hpos _ hx
    omega
  have hlive := (h.live.pairwise_iff fun hxy => Ne.symm hxy).mpr hne
  rw [List.pairwise_map] at hlive
  rw [List.Nodup, List.pairwise_map]
  exact hlive

theorem Session.Sound.carve (h : s.Sound) {pre post : List Block} {b : Block} {offset size : Int}
    (hblocks : s.heap.blocks = pre ++ b :: post) (hfree : b.used = false) (hoff : 0 ≤ offset)
    (hsize : 0 < size) (hfit : s.heap.units size + offset ≤ b.size) :
    Session.Sound
      ⟨{ s.heap with blocks := pre ++ (carve offset (s.heap.units size) b.size ++ post) },
        (s.heap.offset + s.heap.block * (span Block.size pre + offset), size) :: s.live⟩ := by
  have htiled : Tiled s.heap.count (pre ++ ([b] ++ post)) := hblocks ▸ h.tiled
  obtain ⟨hleft, hright⟩ := htiled.neighbours hfree
  have hspan := span_carve hfit
  refine ⟨h.unit, h.aligned, ?_, ?_⟩
  · exact htiled.edit (by rw [hspan]; simp) (carve_pos hoff (Heap.units_pos h.unit hsize))
      carve_apart hleft hright
  · -- the new block is the only used one in its stretch, and nothing else has moved
    have hold : usedFrom 0 s.heap.blocks = usedFrom 0 pre ++
        usedFrom (0 + span Block.size pre + b.size) post := by
      rw [hblocks, usedFrom_append, usedFrom_cons, hfree]
      rfl
    have hnew : usedFrom 0 (pre ++ (Malloc.carve offset (s.heap.units size) b.size ++ post)) =
        usedFrom 0 pre ++ (span Block.size pre + offset, s.heap.units size) ::
          usedFrom (0 + span Block.size pre + b.size) post := by
      rw [usedFrom_append, usedFrom_append, usedFrom_carve, hspan, Int.zero_add]
      rfl
    have hlive := h.live
    rw [hold] at hlive
    dsimp only
    rw [hnew, List.map_append, List.map_cons]
    refine List.Perm.trans ?_ List.perm_middle.symm
    rw [← List.map_append]
    exact hlive.cons _

theorem eraseP_perm {live rest : List (Int × Int)} {units : Int → Int} {addr n : Int}
    (hnodup : (live.map Prod.fst).Nodup)
    (hperm : (live.map fun a => (a.1, units a.2)).Perm ((addr, n) :: rest)) :
    ((live.eraseP fun a => a.1 = addr).map fun a => (a.1, units a.2)).Perm rest := by
  obtain ⟨a, ha, heq⟩ := List.mem_map.mp (hperm.mem_iff.mpr List.mem_cons_self)
  injection heq with haddr hunits
  obtain ⟨c, l₁, l₂, -, hc, rfl, herase⟩ :=
    List.exists_of_eraseP (p := fun a => decide (a.1 = addr)) ha (by simpa using haddr)
  rw [herase]
  have hsame : a = c := List.inj_on_of_nodup_map hnodup ha (by simp) (by
    rw [haddr, of_decide_eq_true hc])
  subst hsame
  rw [List.map_append, List.map_cons, haddr, hunits] at hperm
  rw [List.map_append]
  exact (List.perm_middle.symm.trans hperm).cons_inv

theorem Session.Sound.release (h : s.Sound) {pre post : List Block} {b : Block}
    (hblocks : s.heap.blocks = pre ++ b :: post) (hused : b.used = true) :
    Session.Sound
      ⟨{ s.heap with blocks := release pre.reverse b.size post },
        s.live.eraseP fun a => a.1 = s.heap.offset + s.heap.block * span Block.size pre⟩ := by
  have htiled : Tiled s.heap.count (pre ++ b :: post) := hblocks ▸ h.tiled
  obtain ⟨hpre, hrest, -⟩ := List.isChain_append.mp htiled.apart
  obtain ⟨pre', left, right, post', rfl, rfl, hfree, hleft, hright, hrelease⟩ :=
    release_spec hpre hrest.of_cons b.size
  have hleftFree : ∀ c ∈ left, c.used = false := fun c hc => hfree c (by simp [hc])
  have hrightFree : ∀ c ∈ right, c.used = false := fun c hc => hfree c (by simp [hc])
  have hmiddle : Tiled s.heap.count (pre' ++ ((left ++ b :: right) ++ post')) := by
    simpa [List.append_assoc] using htiled
  refine ⟨h.unit, h.aligned, ?_, ?_⟩
  · rw [show Heap.blocks { s.heap with
      blocks := Malloc.release (pre' ++ left).reverse b.size (right ++ post') } = _ from hrelease]
    refine hmiddle.edit ?_ ?_ (by simp) hleft hright
    · simp
      omega
    · have hpos : ∀ c ∈ left ++ b :: right, 0 ≤ c.size := fun c hc =>
        (hmiddle.positive c (by simp only [List.mem_append] at hc ⊢; tauto)).le
      have hb : 0 < b.size := hmiddle.positive b (by simp)
      have hl : 0 ≤ span Block.size left := span_nonneg fun c hc => hpos c (by simp [hc])
      have hr : 0 ≤ span Block.size right := span_nonneg fun c hc => hpos c (by simp [hc])
      intro c hc
      rw [List.mem_singleton.mp hc]
      dsimp only
      omega
  · have hold : usedFrom 0 s.heap.blocks = usedFrom 0 pre' ++
        (span Block.size (pre' ++ left), b.size) ::
          usedFrom (span Block.size (pre' ++ left) + b.size + span Block.size right) post' := by
      rw [hblocks, usedFrom_append, usedFrom_append, usedFrom_free hleftFree, usedFrom_cons, hused,
        usedFrom_append, usedFrom_free hrightFree, Int.zero_add, List.append_nil]
      rfl
    have hnew : usedFrom 0 (Malloc.release (pre' ++ left).reverse b.size (right ++ post')) =
        usedFrom 0 pre' ++
          usedFrom (span Block.size (pre' ++ left) + b.size + span Block.size right) post' := by
      have hend : 0 + span Block.size pre' +
          (b.size + span Block.size left + span Block.size right) =
          span Block.size (pre' ++ left) + b.size + span Block.size right := by
        rw [span_append]
        omega
      rw [hrelease, usedFrom_append, List.singleton_append, usedFrom_cons, hend]
      rfl
    have hlive := h.live
    rw [hold, List.map_append, List.map_cons] at hlive
    dsimp only
    rw [hnew, List.map_append]
    exact eraseP_perm h.nodup (hlive.trans List.perm_middle)

end Sound

/-! ### What a call does -/

theorem Heap.malloc_cases (h : Heap) (size : Int) :
    (∃ pre b post, h.blocks = pre ++ b :: post ∧ Fits 1 (h.units size) (span Block.size pre) b ∧
      h.malloc size = (.ok (h.offset + h.block * span Block.size pre),
        { h with blocks := pre ++ (carve 0 (h.units size) b.size ++ post) })) ∨
    ((∀ p b, (p, b) ∈ placed Block.size 0 h.blocks → ¬ Fits 1 (h.units size) p b) ∧
      h.malloc size = (.error outOfMemory, h)) := by
  unfold Heap.malloc
  rw [mallocLoop_eq]
  cases hloop : memalignLoop 1 (h.units size) 0 h.blocks with
  | none => exact Or.inr ⟨memalignLoop_none.mp hloop, rfl⟩
  | some r =>
    obtain ⟨pre, b, post, hblocks, hfit, hpos, hbs⟩ := memalignLoop_some hloop
    have hgap : gap 1 (0 + span Block.size pre) = 0 := by simp [gap]
    rw [hgap, Int.add_zero, Int.zero_add] at hpos
    rw [hgap] at hbs
    rw [Int.zero_add] at hfit
    refine Or.inl ⟨pre, b, post, hblocks, hfit, ?_⟩
    rw [← hpos, ← hbs]

theorem Heap.alignUnits_pos {h : Heap} (hunit : 0 < h.block) (align : Nat) :
    0 < h.alignUnits align := by
  have hle : 1 ≤ max (align : Int) h.block / h.block :=
    (Int.le_ediv_iff_mul_le hunit).mpr (by omega)
  exact hle

theorem Heap.memalign_cases {h : Heap} (hdvd : h.block ∣ h.offset) (align : Nat) (size : Int) :
    (align &&& (align - 1) ≠ 0 ∧ h.memalign align size = (.error .assertion, h)) ∨
    (align &&& (align - 1) = 0 ∧
      ((∃ pre b post offset, h.blocks = pre ++ b :: post ∧
          offset = gap (h.alignUnits align) (h.offset / h.block + span Block.size pre) ∧
          b.used = false ∧ h.units size + offset ≤ b.size ∧
          h.memalign align size = (.ok (h.offset + h.block * (span Block.size pre + offset)),
            { h with blocks := pre ++ (carve offset (h.units size) b.size ++ post) })) ∨
        ((∀ p b, (p, b) ∈ placed Block.size (h.offset / h.block) h.blocks →
            ¬ Fits (h.alignUnits align) (h.units size) p b) ∧
          h.memalign align size = (.error outOfMemory, h)))) := by
  unfold Heap.memalign
  by_cases hassert : align &&& (align - 1) = 0
  · refine Or.inr ⟨hassert, ?_⟩
    rw [if_neg (not_not.mpr hassert)]
    cases hloop : memalignLoop (h.alignUnits align) (h.units size) (h.offset / h.block)
        h.blocks with
    | none => exact Or.inr ⟨memalignLoop_none.mp hloop, rfl⟩
    | some r =>
      obtain ⟨pre, b, post, hblocks, ⟨hfree, hfit⟩, hpos, hbs⟩ := memalignLoop_some hloop
      refine Or.inl ⟨pre, b, post, _, hblocks, rfl, hfree, hfit, ?_⟩
      have hbase : h.block * (h.offset / h.block) = h.offset := Int.mul_ediv_cancel' hdvd
      dsimp only
      rw [hpos, hbs, Int.add_assoc, Int.mul_add, hbase]
  · exact Or.inl ⟨hassert, if_pos hassert⟩

theorem Heap.free_cases {h : Heap} (hdvd : h.block ∣ h.offset) (addr : Int) :
    (∃ pre b post, h.blocks = pre ++ b :: post ∧ b.used = true ∧
      addr = h.offset + h.block * span Block.size pre ∧
      h.free addr = (.ok (), { h with blocks := release pre.reverse b.size post })) ∨
    ∃ e, h.free addr = (.error e, h) := by
  unfold Heap.free
  split_ifs with halign hlow hhigh
  · exact Or.inr ⟨_, rfl⟩
  · exact Or.inr ⟨_, rfl⟩
  · exact Or.inr ⟨_, rfl⟩
  · cases hloop : freeLoop ((addr - h.offset) / h.block) [] 0 h.blocks with
    | error e => exact Or.inr ⟨e, rfl⟩
    | ok bs =>
      obtain ⟨pre, b, post, hblocks, hused, hpos, rfl⟩ := freeLoop_ok hloop
      refine Or.inl ⟨pre, b, post, hblocks, hused, ?_, by rw [List.append_nil]⟩
      have hmultiple : h.block ∣ addr - h.offset :=
        dvd_sub (Int.dvd_of_emod_eq_zero (not_not.mp halign)) hdvd
      rw [Int.zero_add] at hpos
      rw [← hpos, Int.mul_ediv_cancel' hmultiple]
      omega

theorem Heap.free_at {h : Heap} (hunit : 0 < h.block) (hdvd : h.block ∣ h.offset) {p : Int}
    (hlow : 0 ≤ p) (hhigh : p < h.count) :
    h.free (h.offset + h.block * p) =
      match freeLoop p [] 0 h.blocks with
      | .ok blocks => (.ok (), { h with blocks := blocks })
      | .error e => (.error e, h) := by
  have hindex : (h.offset + h.block * p - h.offset) / h.block = p := by
    rw [add_sub_cancel_left, Int.mul_ediv_cancel_left _ (Int.ne_of_gt hunit)]
  have hmultiple : (h.offset + h.block * p) % h.block = 0 :=
    Int.emod_eq_zero_of_dvd (dvd_add hdvd (dvd_mul_right _ _))
  have hstart := Int.mul_nonneg hunit.le hlow
  unfold Heap.free
  rw [if_neg (not_not.mpr hmultiple), if_neg (by omega), hindex, if_neg (by omega)]

section Sound

variable {s : Session}

theorem Session.Sound.free_live (h : s.Sound) {addr : Int} (ha : addr ∈ s.live.map Prod.fst) :
    (s.heap.free addr).1 = .ok () := by
  obtain ⟨a, hlive, rfl⟩ := List.mem_map.mp ha
  obtain ⟨pre, post, hblocks, haddr⟩ := h.used hlive
  have hpos := h.tiled.positive
  have htotal := h.tiled.total
  rw [hblocks] at hpos htotal
  have hpre : ∀ b ∈ pre, 0 < b.size := fun b hb => hpos b (by simp [hb])
  have hn : 0 < s.heap.units a.2 := hpos ⟨s.heap.units a.2, true⟩ (by simp)
  have hspan : 0 ≤ span Block.size pre := span_nonneg fun b hb => (hpre b hb).le
  have hpost : 0 ≤ span Block.size post := span_nonneg fun b hb => (hpos b (by simp [hb])).le
  rw [span_append, span_cons] at htotal
  dsimp only at htotal
  have hfound := freeLoop_used (b := ⟨s.heap.units a.2, true⟩) rfl post pre [] 0 hpre
  rw [Int.zero_add] at hfound
  rw [haddr, Heap.free_at h.unit h.aligned hspan (by omega), hblocks, hfound]

theorem Session.Sound.free_iff (h : s.Sound) (addr : Int) :
    (s.heap.free addr).1 = .ok () ↔ addr ∈ s.live.map Prod.fst := by
  constructor
  · intro hok
    rcases Heap.free_cases h.aligned addr with ⟨pre, b, post, hblocks, hused, rfl, -⟩ | ⟨e, he⟩
    · have hmem : (span Block.size pre, b.size) ∈ usedFrom 0 s.heap.blocks := by
        rw [mem_usedFrom, mem_placed]
        refine ⟨pre, post, ?_, by rw [Int.zero_add]⟩
        rw [hblocks, ← hused]
      obtain ⟨a, ha, heq⟩ := List.mem_map.mp (h.live.mem_iff.mpr (List.mem_map_of_mem hmem))
      injection heq with haddr _
      exact List.mem_map.mpr ⟨a, ha, haddr⟩
    · rw [he] at hok
      cases hok
  · exact h.free_live

/-- The call allocates at least a byte, if it is an allocation. -/
def Call.Sized : Call → Prop
  | .malloc size => 1 ≤ size
  | .memalign _ size => 1 ≤ size
  | .free _ => True

instance decidableSized (c : Call) : Decidable c.Sized :=
  match c with
  | .malloc size => inferInstanceAs (Decidable (1 ≤ size))
  | .memalign _ size => inferInstanceAs (Decidable (1 ≤ size))
  | .free _ => inferInstanceAs (Decidable True)

theorem Session.Sound.gave (h : s.Sound) (addr : Int) :
    (s.gave addr (s.heap.free addr)).Sound := by
  rcases Heap.free_cases h.aligned addr with ⟨pre, b, post, hblocks, hused, rfl, heq⟩ | ⟨e, heq⟩
  · rw [heq]
    exact h.release hblocks hused
  · rw [heq]
    exact h

theorem Session.Sound.step (h : s.Sound) {c : Call} (hc : c.Sized) : (s.step c).Sound := by
  cases c with
  | malloc size =>
    rcases s.heap.malloc_cases size with ⟨pre, b, post, hblocks, hfit, heq⟩ | ⟨-, heq⟩
    · have hlen : s.heap.units size + 0 ≤ b.size := by
        have hle := hfit.2
        simp only [gap, Int.emod_one, ne_eq, not_true_eq_false, if_false] at hle
        exact hle
      have hsound := h.carve hblocks hfit.1 (Int.le_refl 0) hc hlen
      rw [Int.add_zero] at hsound
      rw [Session.step, heq]
      exact hsound
    · rw [Session.step, heq]
      exact h
  | memalign align size =>
    rcases Heap.memalign_cases h.aligned align size with
      ⟨-, heq⟩ | ⟨-, ⟨pre, b, post, offset, hblocks, hoff, hfree, hfit, heq⟩ | ⟨-, heq⟩⟩
    · rw [Session.step, heq]
      exact h
    · have hnonneg : 0 ≤ offset := hoff ▸ gap_nonneg (Heap.alignUnits_pos h.unit align) _
      rw [Session.step, heq]
      exact h.carve hblocks hfree hnonneg hc hfit
    · rw [Session.step, heq]
      exact h
  | free addr => exact h.gave addr

theorem Session.Sound.run {calls : List Call} (hcalls : ∀ c ∈ calls, c.Sized) :
    ∀ {s : Session}, s.Sound → (s.run calls).Sound := by
  induction calls with
  | nil =>
    intro s h
    exact h
  | cons c calls ih =>
    intro s h
    exact ih (fun d hd => hcalls d (by simp [hd])) (h.step (hcalls c (by simp)))

end Sound

/-! ### The heap over whole runs -/

theorem Heap.init_eq {start stop block : Int} {h : Heap}
    (hinit : Heap.init start stop block = .ok h) : block ∣ start ∧ block ∣ stop ∧
      h = ⟨start, (stop - start) / block, [⟨(stop - start) / block, false⟩], block⟩ := by
  unfold Heap.init at hinit
  split_ifs at hinit with hstart hstop
  cases hinit
  exact ⟨Int.dvd_of_emod_eq_zero (not_not.mp hstart), Int.dvd_of_emod_eq_zero (not_not.mp hstop),
    rfl⟩

theorem sound_init {start stop block : Int} {h : Heap} (hunit : 0 < block)
    (hlt : start < stop) (hinit : Heap.init start stop block = .ok h) : Session.Sound ⟨h, []⟩ := by
  obtain ⟨hstart, hstop, rfl⟩ := Heap.init_eq hinit
  have hcount : 0 < (stop - start) / block :=
    Int.ediv_pos_of_pos_of_dvd (by omega) hunit.le (dvd_sub hstop hstart)
  refine ⟨hunit, hstart, ⟨by simpa using hcount, by simp, by simp⟩, ?_⟩
  simp

section Constant

theorem Session.step_fields (s : Session) (c : Call) :
    (s.step c).heap = { s.heap with blocks := (s.step c).heap.blocks } := by
  cases c with
  | malloc size =>
    unfold Session.step Heap.malloc
    dsimp only
    split <;> rfl
  | memalign align size =>
    unfold Session.step Heap.memalign
    dsimp only
    split
    · rfl
    · split <;> rfl
  | free addr =>
    unfold Session.step Heap.free
    dsimp only
    split_ifs
    · rfl
    · rfl
    · rfl
    · split <;> rfl

theorem Session.run_fields (calls : List Call) : ∀ s : Session,
    (s.run calls).heap = { s.heap with blocks := (s.run calls).heap.blocks } := by
  induction calls with
  | nil =>
    intro s
    rfl
  | cons c calls ih =>
    intro s
    have hrest := ih (s.step c)
    rw [s.step_fields c] at hrest
    exact hrest

end Constant

/-- A free block that can take `size` bytes from a multiple of `align` on. -/
def Heap.Room (h : Heap) (align : Nat) (size : Int) : Prop :=
  ∃ p b, (p, b) ∈ placed Block.size 0 h.blocks ∧ b.used = false ∧
    ∃ a : Int, (align : Int) ∣ a ∧ h.offset + h.block * p ≤ a ∧
      a + size ≤ h.offset + h.block * (p + b.size)

theorem Heap.units_le_iff {h : Heap} (hunit : 0 < h.block) (size n : Int) :
    h.units size ≤ n ↔ size ≤ h.block * n := by
  have hceil : (size + h.block - 1) / h.block < n + 1 ↔ size + h.block - 1 < (n + 1) * h.block :=
    Int.ediv_lt_iff_lt_mul hunit
  rw [Int.add_mul, Int.one_mul, Int.mul_comm n] at hceil
  unfold Heap.units
  omega

section Room

variable {h : Heap} {k : Nat}

theorem Heap.alignUnits_cases (hblock : h.block = 2 ^ k) (j : Nat) :
    (h.alignUnits (2 ^ j) = 1 ∧ ((2 ^ j : Nat) : Int) ∣ h.block ∧
        max ((2 ^ j : Nat) : Int) h.block = h.block) ∨
      (h.block * h.alignUnits (2 ^ j) = ((2 ^ j : Nat) : Int) ∧
        max ((2 ^ j : Nat) : Int) h.block = ((2 ^ j : Nat) : Int)) := by
  have hpos : (0 : Int) < 2 ^ k := by positivity
  unfold Heap.alignUnits
  rw [hblock]
  push_cast
  rcases Nat.le_total j k with hle | hle
  · have hdvd : (2 : Int) ^ j ∣ 2 ^ k := pow_dvd_pow 2 hle
    rw [max_eq_right (Int.le_of_dvd hpos hdvd)]
    exact Or.inl ⟨Int.ediv_self (Int.ne_of_gt hpos), hdvd, rfl⟩
  · have hdvd : (2 : Int) ^ k ∣ 2 ^ j := pow_dvd_pow 2 hle
    rw [max_eq_left (Int.le_of_dvd (by positivity) hdvd)]
    exact Or.inr ⟨Int.mul_ediv_cancel' hdvd, rfl⟩

/-- The block at `p`, in units from address zero on, is long enough for `memalign` if some
    aligned address in it leaves `size` bytes. -/
theorem Heap.fits_iff (hblock : h.block = 2 ^ k) (j : Nat) (size p : Int) (b : Block) :
    Fits (h.alignUnits (2 ^ j)) (h.units size) p b ↔ b.used = false ∧
      ∃ a : Int, ((2 ^ j : Nat) : Int) ∣ a ∧ h.block * p ≤ a ∧
        a + size ≤ h.block * (p + b.size) := by
  have hunit : 0 < h.block := by rw [hblock]; positivity
  unfold Fits
  refine and_congr_right fun _ => ?_
  set g := gap (h.alignUnits (2 ^ j)) p with hg
  have hle := h.units_le_iff hunit size (b.size - g)
  rw [Int.mul_sub] at hle
  have hsum : h.units size + g ≤ b.size ↔ size + h.block * g ≤ h.block * b.size := by omega
  have hgap : 0 ≤ g := gap_nonneg (Heap.alignUnits_pos hunit _) p
  rw [hsum]
  constructor
  · intro hfit
    refine ⟨h.block * (p + g), ?_, ?_, ?_⟩
    · rcases h.alignUnits_cases hblock j with ⟨-, hdvd, -⟩ | ⟨hmul, -⟩
      · exact hdvd.mul_right _
      · rw [← hmul]
        exact mul_dvd_mul_left _ (dvd_add_gap _ p)
    · have hnonneg := Int.mul_nonneg hunit.le hgap
      rw [Int.mul_add]
      omega
    · rw [Int.mul_add, Int.mul_add]
      omega
  · rintro ⟨a, hdvd, hlow, hhigh⟩
    rw [Int.mul_add] at hhigh
    rcases h.alignUnits_cases hblock j with ⟨hone, -, -⟩ | ⟨hmul, -⟩
    · have hzero : g = 0 := by simp [hg, hone, gap]
      rw [hzero]
      omega
    · -- the address is a multiple of `block`, so it can be counted in units
      rw [← hmul] at hdvd
      obtain ⟨c, rfl⟩ := hdvd
      rw [Int.mul_assoc] at hlow hhigh
      have hunits : p ≤ h.alignUnits (2 ^ j) * c := Int.le_of_mul_le_mul_left hlow hunit
      have hfirst := gap_le_of_dvd (Heap.alignUnits_pos hunit _) hunits (dvd_mul_right _ c)
      have hscaled := Int.mul_le_mul_of_nonneg_left hfirst hunit.le
      rw [Int.mul_add, ← hg] at hscaled
      omega

theorem Heap.room_iff (hblock : h.block = 2 ^ k) (hdvd : h.block ∣ h.offset) (j : Nat)
    (size : Int) :
    h.Room (2 ^ j) size ↔ ∃ p b, (p, b) ∈ placed Block.size (h.offset / h.block) h.blocks ∧
      Fits (h.alignUnits (2 ^ j)) (h.units size) p b := by
  have hbase : h.block * (h.offset / h.block) = h.offset := Int.mul_ediv_cancel' hdvd
  constructor
  · rintro ⟨p, b, hmem, hfree, a, ha, hlow, hhigh⟩
    obtain ⟨pre, post, hblocks, rfl⟩ := (mem_placed _).mp hmem
    refine ⟨h.offset / h.block + span Block.size pre, b, (mem_placed _).mpr
      ⟨pre, post, hblocks, rfl⟩, (h.fits_iff hblock j size _ b).mpr ⟨hfree, a, ha, ?_, ?_⟩⟩
    · rw [Int.mul_add, hbase]
      rwa [Int.zero_add] at hlow
    · rw [Int.add_assoc, Int.mul_add, hbase]
      rwa [Int.zero_add] at hhigh
  · rintro ⟨p, b, hmem, hfit⟩
    obtain ⟨pre, post, hblocks, rfl⟩ := (mem_placed _).mp hmem
    obtain ⟨hfree, a, ha, hlow, hhigh⟩ := (h.fits_iff hblock j size _ b).mp hfit
    refine ⟨span Block.size pre, b, (mem_placed _).mpr ⟨pre, post, hblocks, by rw [Int.zero_add]⟩,
      hfree, a, ha, ?_, ?_⟩
    · rwa [Int.mul_add, hbase] at hlow
    · rwa [Int.add_assoc, Int.mul_add, hbase] at hhigh

theorem Heap.memalign_outOfMemory (hblock : h.block = 2 ^ k) (hdvd : h.block ∣ h.offset) (j : Nat)
    (size : Int) : (h.memalign (2 ^ j) size).1 = .error outOfMemory ↔ ¬ h.Room (2 ^ j) size := by
  have hpower : 2 ^ j &&& (2 ^ j - 1) = 0 := by
    rw [Nat.and_two_pow_sub_one_eq_mod, Nat.mod_self]
  rw [Heap.room_iff hblock hdvd]
  rcases Heap.memalign_cases hdvd (2 ^ j) size with
    ⟨hassert, -⟩ | ⟨-, ⟨pre, b, post, offset, hblocks, rfl, hfree, hfit, heq⟩ | ⟨hnone, heq⟩⟩
  · exact absurd hpower hassert
  · rw [heq]
    constructor
    · intro herr
      cases herr
    · intro hroom
      exact absurd ⟨_, b, (mem_placed _).mpr ⟨pre, post, hblocks, rfl⟩, hfree, hfit⟩ hroom
  · rw [heq]
    refine ⟨fun _ => ?_, fun _ => rfl⟩
    rintro ⟨p, b, hmem, hfit⟩
    exact hnone p b hmem hfit

theorem Heap.memalign_aligned (hblock : h.block = 2 ^ k) (hdvd : h.block ∣ h.offset) (j : Nat)
    {size a : Int} (hok : (h.memalign (2 ^ j) size).1 = .ok a) :
    max ((2 ^ j : Nat) : Int) h.block ∣ a := by
  rcases Heap.memalign_cases hdvd (2 ^ j) size with
    ⟨-, heq⟩ | ⟨-, ⟨pre, b, post, offset, hblocks, rfl, -, -, heq⟩ | ⟨-, heq⟩⟩
  · rw [heq] at hok
    cases hok
  · rw [heq] at hok
    cases hok
    have hbase : h.block * (h.offset / h.block) = h.offset := Int.mul_ediv_cancel' hdvd
    have haddr := dvd_add_gap (h.alignUnits (2 ^ j)) (h.offset / h.block + span Block.size pre)
    rcases h.alignUnits_cases hblock j with ⟨-, -, hmax⟩ | ⟨hmul, hmax⟩
    · rw [hmax]
      exact dvd_add hdvd (dvd_mul_right _ _)
    · have hprod := mul_dvd_mul_left h.block haddr
      rw [Int.add_assoc, Int.mul_add, hbase] at hprod
      rw [hmax, ← hmul]
      exact hprod
  · rw [heq] at hok
    cases hok

theorem Heap.malloc_outOfMemory (hunit : 0 < h.block) (size : Int) :
    (h.malloc size).1 = .error outOfMemory ↔ ¬ h.Room 1 size := by
  have hfits : ∀ p b, Fits 1 (h.units size) p b ↔ b.used = false ∧
      ∃ a : Int, ((1 : Nat) : Int) ∣ a ∧ h.offset + h.block * p ≤ a ∧
        a + size ≤ h.offset + h.block * (p + b.size) := by
    intro p b
    have hgap : gap 1 p = 0 := by simp [gap]
    unfold Fits
    rw [hgap, Int.add_zero, h.units_le_iff hunit, Int.mul_add]
    refine and_congr_right fun _ => ⟨fun hle => ?_, ?_⟩
    · exact ⟨h.offset + h.block * p, by simp, Int.le_refl _, by omega⟩
    · rintro ⟨a, -, hlow, hhigh⟩
      omega
  rcases h.malloc_cases size with ⟨pre, b, post, hblocks, hfit, heq⟩ | ⟨hnone, heq⟩
  · rw [heq]
    constructor
    · intro herr
      cases herr
    · intro hroom
      refine absurd ⟨_, b, (mem_placed _).mpr ⟨pre, post, hblocks, ?_⟩, (hfits _ b).mp hfit⟩ hroom
      rw [Int.zero_add]
  · rw [heq]
    refine ⟨fun _ => ?_, fun _ => rfl⟩
    rintro ⟨p, b, hmem, hroom⟩
    exact hnone p b hmem ((hfits p b).mpr hroom)

end Room

/-- The blocks tile `[start, stop)`, and the live allocations are used blocks that lie apart. -/
structure Session.Consistent (start stop : Int) (s : Session) : Prop where
  positive : ∀ b ∈ s.heap.blocks, 0 < b.size
  total : (s.heap.blocks.map Block.size).sum = s.heap.count
  covers : s.heap.offset = start ∧ start + s.heap.block * s.heap.count = stop
  apart : s.heap.blocks.IsChain Apart
  used : ∀ a ∈ s.live, ∃ p, (p, ⟨s.heap.units a.2, true⟩) ∈ placed Block.size 0 s.heap.blocks ∧
    a.1 = start + s.heap.block * p
  bounds : ∀ a ∈ s.live, start ≤ a.1 ∧ a.1 + s.heap.block * s.heap.units a.2 ≤ stop
  disjoint : s.live.Pairwise fun x y => x.1 + s.heap.block * s.heap.units x.2 ≤ y.1 ∨
    y.1 + s.heap.block * s.heap.units y.2 ≤ x.1

/-- **The heap stays in order.** After any calls that allocate at least a byte, raising ones
    included: the blocks tile the interval, no two free ones are neighbours, and the live
    allocations are used blocks that lie apart.  `memalign` returns aligned addresses, `malloc`
    and `memalign` raise exactly if there is no room, and a call that raises leaves the heap as it
    was. -/
theorem heap_invariant {start stop : Int} {k : Nat} {h : Heap} (hlt : start < stop)
    (hinit : Heap.init start stop (2 ^ k) = .ok h) {calls : List Call}
    (hcalls : ∀ c ∈ calls, c.Sized) :
    (Session.run ⟨h, []⟩ calls).Consistent start stop ∧
      ∀ g, g = (Session.run ⟨h, []⟩ calls).heap →
        (∀ j size a, (g.memalign (2 ^ j) size).1 = .ok a → max ((2 ^ j : Nat) : Int) g.block ∣ a) ∧
        (∀ size, (g.malloc size).1 = .error outOfMemory ↔ ¬ g.Room 1 size) ∧
        (∀ j size, (g.memalign (2 ^ j) size).1 = .error outOfMemory ↔ ¬ g.Room (2 ^ j) size) ∧
        (∀ size e, (g.malloc size).1 = .error e → (g.malloc size).2 = g) ∧
        (∀ align size e, (g.memalign align size).1 = .error e → (g.memalign align size).2 = g) ∧
        ∀ addr e, (g.free addr).1 = .error e → (g.free addr).2 = g := by
  have hunit : (0 : Int) < 2 ^ k := by positivity
  have hsound := (sound_init hunit hlt hinit).run hcalls
  have hfields := Session.run_fields calls ⟨h, []⟩
  obtain ⟨hstart, hstop, hheap⟩ := Heap.init_eq hinit
  have hoffset : (Session.run ⟨h, []⟩ calls).heap.offset = start := by rw [hfields, hheap]
  have hblock : (Session.run ⟨h, []⟩ calls).heap.block = 2 ^ k := by rw [hfields, hheap]
  have hcount : (Session.run ⟨h, []⟩ calls).heap.count = (stop - start) / 2 ^ k := by
    rw [hfields, hheap]
  have hend : start + (Session.run ⟨h, []⟩ calls).heap.block *
      (Session.run ⟨h, []⟩ calls).heap.count = stop := by
    rw [hblock, hcount, Int.mul_ediv_cancel' (dvd_sub hstop hstart)]
    omega
  refine ⟨⟨hsound.tiled.positive, hsound.tiled.total, ⟨hoffset, hend⟩, hsound.tiled.apart, ?_, ?_,
    hsound.disjoint⟩, ?_⟩
  · intro a ha
    obtain ⟨pre, post, hblocks, haddr⟩ := hsound.used ha
    refine ⟨span Block.size pre, (mem_placed _).mpr ⟨pre, post, hblocks, by rw [Int.zero_add]⟩, ?_⟩
    rw [haddr, hoffset]
  · intro a ha
    have hbounds := hsound.bounds ha
    rwa [hoffset, hend] at hbounds
  · rintro g rfl
    refine ⟨fun j size a => Heap.memalign_aligned hblock hsound.aligned j,
      Heap.malloc_outOfMemory hsound.unit, Heap.memalign_outOfMemory hblock hsound.aligned, ?_, ?_,
      ?_⟩
    · intro size e herr
      rcases (Session.run ⟨h, []⟩ calls).heap.malloc_cases size with
        ⟨_, _, _, _, _, heq⟩ | ⟨_, heq⟩
      · rw [heq] at herr
        cases herr
      · rw [heq]
    · intro align size e herr
      rcases Heap.memalign_cases hsound.aligned align size with
        ⟨_, heq⟩ | ⟨_, ⟨_, _, _, _, _, _, _, _, heq⟩ | ⟨_, heq⟩⟩
      · rw [heq]
      · rw [heq] at herr
        cases herr
      · rw [heq]
    · intro addr e herr
      rcases Heap.free_cases hsound.aligned addr with ⟨_, _, _, _, _, _, heq⟩ | ⟨_, heq⟩
      · rw [heq] at herr
        cases herr
      · rw [heq]

/-- The runs are not vacuous: three allocations and a release on a heap of four units. -/
theorem heap_invariant_run :
    (Session.run ⟨⟨0, 4, [⟨4, false⟩], 64⟩, []⟩
      [.malloc 65, .memalign 128 1, .free 0, .malloc 0x1000]).Consistent 0 256 :=
  (heap_invariant (k := 6) (by decide) (by decide) (by decide)).1

/-- An empty interval is accepted too; its one block is empty. -/
theorem heap_empty :
    Heap.init 0 0 64 = .ok ⟨0, 0, [⟨0, false⟩], 64⟩ ∧
      ¬ ∀ b ∈ (Session.run ⟨⟨0, 0, [⟨0, false⟩], 64⟩, []⟩ []).heap.blocks, 0 < b.size := by
  decide

/-! ### Releasing everything -/

/-- `free` of pointers one after the other, as `GuardedHeap.free_all` does. -/
def Heap.freeAll (h : Heap) : List Int → Except HeapError Unit × Heap
  | [] => (.ok (), h)
  | ptr :: ptrs =>
    match h.free ptr with
    | (.ok _, h) => h.freeAll ptrs
    | (.error e, h) => (.error e, h)

theorem Session.Sound.idle {s : Session} (h : s.Sound) (hcount : 0 < s.heap.count)
    (hlive : s.live = []) : s.heap.blocks = [⟨s.heap.count, false⟩] := by
  have hperm := h.live
  rw [hlive, List.map_nil] at hperm
  have hnone : usedFrom 0 s.heap.blocks = [] := List.map_eq_nil_iff.mp hperm.symm.eq_nil
  have hfree : ∀ b ∈ s.heap.blocks, b.used = false := by
    rintro ⟨n, used⟩ hb
    cases used with
    | false => rfl
    | true =>
      obtain ⟨pre, post, hsplit⟩ := List.append_of_mem hb
      have hmem : (0 + span Block.size pre, n) ∈ usedFrom 0 s.heap.blocks :=
        mem_usedFrom.mpr ((mem_placed _).mpr ⟨pre, post, hsplit, rfl⟩)
      rw [hnone] at hmem
      cases hmem
  have htotal := h.tiled.total
  have hapart := h.tiled.apart
  rcases hblocks : s.heap.blocks with _ | ⟨⟨n, used⟩, _ | ⟨c, rest⟩⟩
  · rw [hblocks, span_nil] at htotal
    omega
  · have hused := hfree ⟨n, used⟩ (by simp [hblocks])
    rw [hblocks] at htotal
    simp only [span_cons, span_nil, Int.add_zero] at htotal
    rw [← htotal, ← hused]
  · rw [hblocks] at hapart
    have hb := hfree ⟨n, used⟩ (by simp [hblocks])
    have hc := hfree c (by simp [hblocks])
    rcases (List.isChain_cons_cons.mp hapart).1 with hused | hused
    · rw [hb] at hused
      cases hused
    · rw [hc] at hused
      cases hused

/-- Whatever the order, some of the live pointers can be released, and the others stay. -/
theorem Session.Sound.freeSome {others : List (Int × Int)} {ptrs : List Int} :
    ∀ {h : Heap} {held : List (Int × Int)}, Session.Sound ⟨h, held ++ others⟩ →
      ptrs.Perm (held.map Prod.fst) →
      ∃ blocks, h.freeAll ptrs = (.ok (), { h with blocks := blocks }) ∧
        Session.Sound ⟨{ h with blocks := blocks }, others⟩ := by
  induction ptrs with
  | nil =>
    intro h held hsound hperm
    obtain rfl : held = [] := List.map_eq_nil_iff.mp hperm.symm.eq_nil
    exact ⟨h.blocks, rfl, hsound⟩
  | cons ptr ptrs ih =>
    intro h held hsound hperm
    have hmem : ptr ∈ held.map Prod.fst := hperm.mem_iff.mp List.mem_cons_self
    have hok : (h.free ptr).1 = .ok () :=
      hsound.free_live (List.map_append ▸ List.mem_append_left _ hmem)
    have hgave := hsound.gave ptr
    have hstep := Session.step_fields ⟨h, held ++ others⟩ (.free ptr)
    rw [Session.step] at hstep
    rcases hfree : h.free ptr with ⟨_ | u, g⟩
    · rw [hfree] at hok
      cases hok
    · simp only [hfree, Session.gave] at hgave hstep
      obtain ⟨a, ha, hptr⟩ := List.mem_map.mp hmem
      rw [List.eraseP_append_left (p := fun x => decide (x.1 = ptr)) (decide_eq_true hptr) _ ha]
        at hgave
      have hrest : ptrs.Perm ((held.eraseP fun a => a.1 = ptr).map Prod.fst) := by
        have herase : (held.eraseP fun a => a.1 = ptr).map Prod.fst =
            (held.map Prod.fst).erase ptr := by
          rw [List.erase_eq_eraseP, List.eraseP_map]
          congr 2
          funext a
          rw [Bool.eq_iff_iff]
          simp only [Function.comp_apply, beq_iff_eq, decide_eq_true_iff]
          exact eq_comm
        rw [herase]
        exact (List.cons_perm_iff_perm_erase.mp hperm).2
      obtain ⟨blocks, hall, hkept⟩ := ih hgave hrest
      refine ⟨blocks, ?_, ?_⟩
      · rw [Heap.freeAll, hfree]
        dsimp only
        rw [hall, hstep]
      · rw [hstep] at hkept
        exact hkept

theorem Session.Sound.freeAll {ptrs : List Int} {s : Session} (h : s.Sound)
    (hcount : 0 < s.heap.count) (hperm : ptrs.Perm (s.live.map Prod.fst)) :
    s.heap.freeAll ptrs = (.ok (), { s.heap with blocks := [⟨s.heap.count, false⟩] }) := by
  have hall : Session.Sound ⟨s.heap, s.live ++ []⟩ := by
    rw [List.append_nil]
    exact h
  obtain ⟨blocks, heq, hsound⟩ := hall.freeSome hperm
  rw [heq, show blocks = _ from hsound.idle hcount rfl]

section Empty

variable {h : Heap}

theorem Heap.empty_block (hblocks : h.blocks = [⟨h.count, false⟩]) {pre post : List Block}
    {b : Block} (hsplit : h.blocks = pre ++ b :: post) : b = ⟨h.count, false⟩ := by
  have hmem : b ∈ h.blocks := by rw [hsplit]; simp
  rw [hblocks] at hmem
  exact List.mem_singleton.mp hmem

theorem Session.step_empty (live : List (Int × Int)) (hunit : 0 < h.block)
    (hdvd : h.block ∣ h.offset) (hcount : h.count ≤ 0)
    (hblocks : h.blocks = [⟨h.count, false⟩]) {c : Call} (hc : c.Sized) :
    Session.step ⟨h, live⟩ c = ⟨h, live⟩ := by
  have hunits : ∀ {size : Int}, 1 ≤ size → 0 < h.units size := fun hs => Heap.units_pos hunit hs
  cases c with
  | malloc size =>
    have hpos := hunits hc
    rcases h.malloc_cases size with ⟨pre, b, post, hsplit, hfit, -⟩ | ⟨-, heq⟩
    · have hle : h.units size + gap 1 (span Block.size pre) ≤ b.size := hfit.2
      have hgap : 0 ≤ gap 1 (span Block.size pre) := gap_nonneg Int.one_pos _
      rw [Heap.empty_block hblocks hsplit] at hle
      dsimp only at hle
      omega
    · rw [Session.step, heq]
      rfl
  | memalign align size =>
    have hpos := hunits hc
    rcases Heap.memalign_cases hdvd align size with
      ⟨-, heq⟩ | ⟨-, ⟨pre, b, post, offset, hsplit, hoff, -, hfit, -⟩ | ⟨-, heq⟩⟩
    · rw [Session.step, heq]
      rfl
    · have hgap : 0 ≤ offset := hoff ▸ gap_nonneg (Heap.alignUnits_pos hunit align) _
      rw [Heap.empty_block hblocks hsplit] at hfit
      dsimp only at hfit
      omega
    · rw [Session.step, heq]
      rfl
  | free addr =>
    rcases Heap.free_cases hdvd addr with ⟨pre, b, post, hsplit, hused, -, -⟩ | ⟨e, heq⟩
    · rw [Heap.empty_block hblocks hsplit] at hused
      cases hused
    · rw [Session.step, heq]
      rfl

theorem Session.run_empty {live : List (Int × Int)} (hunit : 0 < h.block)
    (hdvd : h.block ∣ h.offset) (hcount : h.count ≤ 0)
    (hblocks : h.blocks = [⟨h.count, false⟩]) {calls : List Call} (hcalls : ∀ c ∈ calls, c.Sized) :
    Session.run ⟨h, live⟩ calls = ⟨h, live⟩ := by
  induction calls with
  | nil => rfl
  | cons c calls ih =>
    have hstep := Session.step_empty live hunit hdvd hcount hblocks (hcalls c (by simp))
    have hrest := ih fun d hd => hcalls d (by simp [hd])
    rw [Session.run, List.foldl_cons, hstep]
    exact hrest

end Empty

/-- In a run whose allocations are all for at least a byte the live pointers are distinct, they
    are the ones that `free` takes, and releasing them all, in any order, gives the heap back as
    it was. -/
theorem live_pointers_released {start stop block : Int} {h : Heap} (hunit : 0 < block)
    (hinit : Heap.init start stop block = .ok h) {calls : List Call}
    (hcalls : ∀ c ∈ calls, c.Sized) :
    ∀ s, s = Session.run ⟨h, []⟩ calls →
      (s.live.map Prod.fst).Nodup ∧
      (∀ addr, (s.heap.free addr).1 = .ok () ↔ addr ∈ s.live.map Prod.fst) ∧
      ∀ ptrs : List Int, ptrs.Perm (s.live.map Prod.fst) →
        s.heap.freeAll ptrs = (.ok (), { h with blocks := [⟨h.count, false⟩] }) := by
  rintro s rfl
  obtain ⟨hstart, hstop, hheap⟩ := Heap.init_eq hinit
  rcases lt_or_ge start stop with hlt | hge
  · have hsound := (sound_init hunit hlt hinit).run hcalls
    have hfields := Session.run_fields calls ⟨h, []⟩
    have hcount : 0 < h.count := by
      rw [hheap]
      exact Int.ediv_pos_of_pos_of_dvd (by omega) hunit.le (dvd_sub hstop hstart)
    refine ⟨hsound.nodup, hsound.free_iff, fun ptrs hperm => ?_⟩
    have hall := hsound.freeAll (by rw [hfields]; exact hcount) hperm
    rw [hall, hfields]
  · -- nothing to allocate: every call raises
    have hcount : h.count ≤ 0 := by
      rw [hheap]
      exact Int.ediv_nonpos_of_nonpos_of_neg (by omega) hunit
    have hblocks : h.blocks = [⟨h.count, false⟩] := by rw [hheap]
    have hunit' : 0 < h.block := by rw [hheap]; exact hunit
    have hdvd : h.block ∣ h.offset := by rw [hheap]; exact hstart
    rw [Session.run_empty hunit' hdvd hcount hblocks hcalls]
    refine ⟨List.nodup_nil, fun addr => ?_, fun ptrs hperm => ?_⟩
    · rcases Heap.free_cases hdvd addr with ⟨pre, b, post, hsplit, hused, -, -⟩ | ⟨e, heq⟩
      · rw [Heap.empty_block hblocks hsplit] at hused
        cases hused
      · rw [heq]
        simp
    · rw [hperm.eq_nil, Heap.freeAll, ← hblocks]

theorem live_pointers_released_run :
    (Session.run ⟨⟨0, 4, [⟨4, false⟩], 64⟩, []⟩ [.malloc 65, .memalign 64 1]).live =
        [(128, 1), (0, 65)] ∧
      (Session.run ⟨⟨0, 4, [⟨4, false⟩], 64⟩, []⟩ [.malloc 65, .memalign 64 1]).heap.freeAll
        [0, 128] = (.ok (), ⟨0, 4, [⟨4, false⟩], 64⟩) :=
  ⟨by decide, (live_pointers_released (by decide : (0 : Int) < 64)
    (by decide : Heap.init 0 256 64 = .ok ⟨0, 4, [⟨4, false⟩], 64⟩) (by decide) _ rfl).2.2 _
    (by decide)⟩

/-- An allocation of no bytes is a used block of no units: the next allocation gets the same
    pointer, and the second release finds the first block again. -/
theorem empty_allocation_shared :
    Heap.init 0 128 64 = .ok ⟨0, 2, [⟨2, false⟩], 64⟩ ∧
      (Session.run ⟨⟨0, 2, [⟨2, false⟩], 64⟩, []⟩ [.malloc 0, .malloc 1]).live =
        [(0, 1), (0, 0)] ∧
      ((Session.run ⟨⟨0, 2, [⟨2, false⟩], 64⟩, []⟩ [.malloc 0, .malloc 1]).heap.freeAll
        [0, 0]).1 = .error (.valueError "block already free") := by
  decide

end MiniHaywire.Malloc
