import MiniHaywire.Region

/-!
# Blocks behind a moving position

An allocator that never frees keeps one position.  A request rounds it up to its
alignment, takes its block there and leaves the position at the end of the block.
Positions are natural numbers, so nothing wraps.

The blocks a run of requests is given ascend (`place_ascending`), and the start of
each is determined by the end of the one before it (`place_consecutive`).

A client may use memory from the start of its last block on before it has taken all
of it.  A log of blocks and of such uses is in order (`Keeps`) if what was used
beyond the block is taken by the very next request; then nothing taken later meets
an area in use (`Keeps.reserved`).
-/

namespace MiniHaywire.Bump

structure Request where
  size : Nat
  align : Nat

structure Block where
  start : Nat
  size : Nat
  align : Nat
deriving DecidableEq

def Block.stop (b : Block) : Nat := b.start + b.size

def Request.place (r : Request) (pos : Nat) : Block := ⟨roundUp r.align pos, r.size, r.align⟩

def place : Nat → List Request → List Block
  | _, [] => []
  | pos, r :: rs => r.place pos :: place (r.place pos).stop rs

variable {pos : Nat} {rs : List Request}

theorem dvd_start_of_mem_place {b : Block} (hb : b ∈ place pos rs) : b.align ∣ b.start := by
  induction rs generalizing pos with
  | nil => exact absurd hb List.not_mem_nil
  | cons r rs ih =>
    rcases List.mem_cons.mp hb with rfl | hb
    · exact dvd_roundUp _ _
    · exact ih hb

theorem le_start_of_mem_place (hrs : ∀ r ∈ rs, 0 < r.align) {b : Block}
    (hb : b ∈ place pos rs) : pos ≤ b.start := by
  induction rs generalizing pos with
  | nil => exact absurd hb List.not_mem_nil
  | cons r rs ih =>
    rw [List.forall_mem_cons] at hrs
    have hfirst : pos ≤ (r.place pos).start := le_roundUp hrs.1 pos
    rcases List.mem_cons.mp hb with rfl | hb
    · exact hfirst
    · exact (hfirst.trans (Nat.le_add_right _ _)).trans (ih hrs.2 hb)

theorem place_ascending (pos : Nat) (hrs : ∀ r ∈ rs, 0 < r.align) :
    (place pos rs).Pairwise fun a b => a.stop ≤ b.start := by
  induction rs generalizing pos with
  | nil => exact List.Pairwise.nil
  | cons r rs ih =>
    rw [List.forall_mem_cons] at hrs
    exact List.Pairwise.cons (fun b hb => le_start_of_mem_place hrs.2 hb) (ih _ hrs.2)

theorem place_consecutive {a b : Block} (h : [a, b] <:+: place pos rs) :
    b.start = roundUp b.align a.stop := by
  induction rs generalizing pos with
  | nil => exact absurd h (by simp [place])
  | cons r rs ih =>
    rw [place, List.infix_cons_iff] at h
    rcases h with hhead | htail
    · obtain ⟨rfl, hsecond⟩ := List.cons_prefix_cons.mp hhead
      cases rs with
      | nil => exact absurd hsecond (by simp [place])
      | cons r' rs =>
        obtain ⟨rfl, -⟩ := List.cons_prefix_cons.mp hsecond
        rfl
    · exact ih htail

/-! ### Areas in use -/

/-- An entry of the log: a block was taken, or an area is used. -/
inductive Entry where
  | took (b : Block)
  | uses (start stop : Nat)
deriving DecidableEq

def blocks : List Entry → List Block
  | [] => []
  | .took b :: es => b :: blocks es
  | .uses _ _ :: es => blocks es

/-- At position `pos` the area up to `stop` is taken already, or the next entry takes the rest
    of it. -/
def Guards (pos stop : Nat) (es : List Entry) : Prop :=
  stop ≤ pos ∨ ∃ b rest, es = .took b :: rest ∧ b.start = pos ∧ b.stop = stop

/-- The log moves the position from `pos` to `pos'`; the last block was taken at `last`. -/
def Keeps : Nat → Nat → List Entry → Nat → Prop
  | _, pos, [], pos' => pos' = pos
  | _, pos, .took b :: es, pos' => pos ≤ b.start ∧ Keeps b.start b.stop es pos'
  | last, pos, .uses start stop :: es, pos' =>
    start = last ∧ Guards pos stop es ∧ Keeps last pos es pos'

/-- The blocks ascend, and every area in use is covered by the blocks in front of it and at most
    one more, which ends with it; all later blocks start behind it. -/
structure Reserved (es : List Entry) : Prop where
  ascending : (blocks es).Pairwise fun a b => a.stop ≤ b.start
  guarded : ∀ pre start stop post, es = pre ++ .uses start stop :: post →
    ∃ pad later, blocks post = pad ++ later ∧ pad.length ≤ 1 ∧ (∀ b ∈ pad, b.stop = stop) ∧
      (∀ x, start ≤ x → x < stop → ∃ b ∈ blocks pre ++ pad, b.start ≤ x ∧ x < b.stop) ∧
      ∀ b ∈ later, stop ≤ b.start

section Log

variable {last pos' : Nat} {es : List Entry}

theorem Keeps.le (h : Keeps last pos es pos') : pos ≤ pos' := by
  induction es generalizing last pos with
  | nil => exact Nat.le_of_eq (Eq.symm h)
  | cons e es ih =>
    cases e with
    | took b => exact (h.1.trans (Nat.le_add_right _ _)).trans (ih h.2)
    | uses start stop => exact ih h.2.2

theorem Keeps.le_start (h : Keeps last pos es pos') : ∀ b ∈ blocks es, pos ≤ b.start := by
  induction es generalizing last pos with
  | nil =>
    intro b hb
    exact absurd hb List.not_mem_nil
  | cons e es ih =>
    cases e with
    | took b =>
      intro b' hb'
      rcases List.mem_cons.mp hb' with rfl | hb'
      · exact h.1
      · exact (h.1.trans (Nat.le_add_right _ _)).trans (ih h.2 b' hb')
    | uses start stop => exact ih h.2.2

theorem Keeps.ascending (h : Keeps last pos es pos') :
    (blocks es).Pairwise fun a b => a.stop ≤ b.start := by
  induction es generalizing last pos with
  | nil => exact List.Pairwise.nil
  | cons e es ih =>
    cases e with
    | took b => exact List.Pairwise.cons (h.2.le_start) (ih h.2)
    | uses start stop => exact ih h.2.2

theorem Keeps.stop_le (h : Keeps last pos es pos') {start stop : Nat}
    (hmem : Entry.uses start stop ∈ es) : stop ≤ pos' := by
  induction es generalizing last pos with
  | nil => exact absurd hmem List.not_mem_nil
  | cons e es ih =>
    cases e with
    | took b => exact ih h.2 ((List.mem_cons.mp hmem).resolve_left Entry.noConfusion)
    | uses start' stop' =>
      rcases List.mem_cons.mp hmem with heq | hmem
      · obtain ⟨rfl, rfl⟩ := Entry.uses.inj heq
        rcases h.2.1 with hle | ⟨b, rest, rfl, -, rfl⟩
        · exact hle.trans h.2.2.le
        · exact h.2.2.2.le
      · exact ih h.2.2 hmem

/-- What covers an area in use: the last block before the log, a block in front of it in the
    log, or the one that comes next. -/
theorem Keeps.guarded {pre post : List Entry} {start stop : Nat}
    (h : Keeps last pos (pre ++ .uses start stop :: post) pos') :
    ∃ pad later, blocks post = pad ++ later ∧ pad.length ≤ 1 ∧ (∀ b ∈ pad, b.stop = stop) ∧
      (∀ x, start ≤ x → x < stop →
        (last ≤ x ∧ x < pos) ∨ ∃ b ∈ blocks pre ++ pad, b.start ≤ x ∧ x < b.stop) ∧
      ∀ b ∈ later, stop ≤ b.start := by
  induction pre generalizing last pos with
  | nil =>
    obtain ⟨rfl, hguard, hpost⟩ := h
    rcases hguard with hle | ⟨b, rest, rfl, rfl, rfl⟩
    · refine ⟨[], blocks post, rfl, Nat.zero_le 1, by simp, ?_, ?_⟩
      · intro x hlo hhi
        exact .inl ⟨hlo, hhi.trans_le hle⟩
      · intro b hb
        exact hle.trans (hpost.le_start b hb)
    · refine ⟨[b], blocks rest, rfl, Nat.le_refl 1, by simp, ?_, hpost.2.le_start⟩
      intro x hlo hhi
      rcases Nat.lt_or_ge x b.start with hlt | hge
      · exact .inl ⟨hlo, hlt⟩
      · exact .inr ⟨b, by simp, hge, hhi⟩
  | cons e pre ih =>
    cases e with
    | took b =>
      obtain ⟨pad, later, hblocks, hlen, hpad, hcover, hlater⟩ := ih h.2
      refine ⟨pad, later, hblocks, hlen, hpad, ?_, hlater⟩
      intro x hlo hhi
      rcases hcover x hlo hhi with hb | ⟨b', hb', hin⟩
      · exact .inr ⟨b, List.mem_append_left _ List.mem_cons_self, hb⟩
      · exact .inr ⟨b', List.mem_cons_of_mem b hb', hin⟩
    | uses start' stop' => exact ih h.2.2

theorem Keeps.reserved (h : Keeps pos pos es pos') : Reserved es := by
  refine ⟨h.ascending, ?_⟩
  rintro pre start stop post rfl
  obtain ⟨pad, later, hblocks, hlen, hpad, hcover, hlater⟩ := h.guarded
  refine ⟨pad, later, hblocks, hlen, hpad, ?_, hlater⟩
  intro x hlo hhi
  rcases hcover x hlo hhi with ⟨hge, hlt⟩ | hin
  · exact absurd hge (Nat.not_le.mpr hlt)
  · exact hin

theorem reserved_nil : Reserved [] := (show Keeps 0 0 [] 0 from rfl).reserved

end Log

end MiniHaywire.Bump
