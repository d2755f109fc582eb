import Mathlib.Data.List.Range
import Mathlib.Tactic

/-!
# Streams read with gaps

A stream grows at its end.  A reader with a position takes stretches of it and
may leave others out; `Follows` says what it got so far and that every position
it passed without taking it has an excuse.

A ring of `n` slots keeps the end of the stream: `Window` says that position `p`
stands in slot `p % n`, for the last `n` positions.
-/

namespace MiniHaywire

variable {α : Type*}

/-! ### Readers -/

/-- `got` are the entries of the stream at the positions `ps`, which increase and lie
below `next`; the positions below `next` that are left out are excused. -/
structure Reads (stream got : List α) (next : Nat) (excused : Nat → Prop) (ps : List Nat) :
    Prop where
  increasing : ps.Pairwise (· < ·)
  below : ∀ p ∈ ps, p < next
  entries : ps.map (fun p => stream[p]?) = got.map some
  gaps : ∀ p < next, p ∉ ps → excused p

/-- A reader at `next` that got `got` of the stream. -/
def Follows (stream got : List α) (next : Nat) (excused : Nat → Prop) : Prop :=
  ∃ ps, Reads stream got next excused ps

namespace Follows

variable {stream got : List α} {next : Nat} {excused excused' : Nat → Prop}

theorem start (stream : List α) (excused : Nat → Prop) : Follows stream [] 0 excused :=
  ⟨[], List.Pairwise.nil, fun _ hp => (List.not_mem_nil hp).elim, rfl,
    fun p hp => (Nat.not_lt_zero p hp).elim⟩

theorem mono (h : Follows stream got next excused) (hmono : ∀ p, excused p → excused' p) :
    Follows stream got next excused' := by
  obtain ⟨ps, hps⟩ := h
  exact ⟨ps, hps.increasing, hps.below, hps.entries, fun p hp hout => hmono p (hps.gaps p hp hout)⟩

theorem grow (h : Follows stream got next excused) (more : List α) :
    Follows (stream ++ more) got next excused := by
  obtain ⟨ps, hps⟩ := h
  refine ⟨ps, hps.increasing, hps.below, ?_, hps.gaps⟩
  rw [← hps.entries]
  apply List.map_congr_left
  intro p hp
  have hsome : (stream[p]?).isSome := by
    have hmem : stream[p]? ∈ got.map some := by
      rw [← hps.entries]
      exact List.mem_map_of_mem hp
    obtain ⟨x, -, hx⟩ := List.mem_map.mp hmem
    rw [← hx]
    rfl
  exact List.getElem?_append_left (by simpa using hsome)

theorem take (h : Follows stream got next excused) {bs : List α}
    (hbs : bs <+: stream.drop next) : Follows stream (got ++ bs) (next + bs.length) excused := by
  obtain ⟨ps, hps⟩ := h
  refine ⟨ps ++ List.range' next bs.length, ?_, ?_, ?_, ?_⟩
  · rw [List.pairwise_append]
    refine ⟨hps.increasing, List.pairwise_lt_range', ?_⟩
    intro p hp q hq
    exact (hps.below p hp).trans_le (List.mem_range'_1.mp hq).1
  · intro p hp
    rcases List.mem_append.mp hp with hp | hp
    · exact (hps.below p hp).trans_le (Nat.le_add_right _ _)
    · exact (List.mem_range'_1.mp hp).2
  · rw [List.map_append, List.map_append, hps.entries]
    congr 1
    obtain ⟨rest, hrest⟩ := hbs
    apply List.ext_getElem?
    intro i
    by_cases hi : i < bs.length
    · have hdrop : (stream.drop next)[i]? = some bs[i] := by
        rw [← hrest, List.getElem?_append_left hi, List.getElem?_eq_getElem hi]
      rw [List.getElem?_drop] at hdrop
      simp [hi, hdrop]
    · simp [Nat.le_of_not_lt hi]
  · intro p hp hout
    rw [List.mem_append, not_or, List.mem_range'_1] at hout
    exact hps.gaps p (by omega) hout.1

theorem skip (h : Follows stream got next excused) {next' : Nat} (hle : next ≤ next')
    (hgap : ∀ p, next ≤ p → p < next' → excused p) : Follows stream got next' excused := by
  obtain ⟨ps, hps⟩ := h
  refine ⟨ps, hps.increasing, fun p hp => (hps.below p hp).trans_le hle, hps.entries, ?_⟩
  intro p hp hout
  rcases Nat.lt_or_ge p next with hlt | hge
  · exact hps.gaps p hlt hout
  · exact hgap p hge hp

end Follows

/-! ### The end of a stream in a ring -/

/-- `n` slots from `off` on. -/
def peek (mem : Nat → α) (off n : Nat) : List α := (List.range n).map fun i => mem (off + i)

/-- The slots from `off` on overwritten by `bs`. -/
def blit (mem : Nat → α) (off : Nat) (bs : List α) : Nat → α :=
  fun i => if off ≤ i then bs[i - off]?.getD (mem i) else mem i

theorem blit_of_lt {mem : Nat → α} {off i : Nat} (h : i < off) (bs : List α) :
    blit mem off bs i = mem i := if_neg (Nat.not_le.mpr h)

theorem blit_of_ge {mem : Nat → α} {off i : Nat} {bs : List α} (h : off + bs.length ≤ i) :
    blit mem off bs i = mem i := by
  rw [blit, if_pos (by omega), List.getElem?_eq_none (by omega), Option.getD_none]

theorem blit_of_getElem? {mem : Nat → α} {bs : List α} {j : Nat} {x : α} (h : bs[j]? = some x)
    (off : Nat) : blit mem off bs (off + j) = x := by
  rw [blit, if_pos (Nat.le_add_right _ _), Nat.add_sub_cancel_left, h, Option.getD_some]

theorem mod_eq_sub_lap {n p lap : Nat} (hlo : n * lap ≤ p) (hhi : p < n * lap + n) :
    p % n = p - n * lap := by
  obtain ⟨r, rfl⟩ := Nat.exists_eq_add_of_le hlo
  rw [Nat.mul_add_mod, Nat.mod_eq_of_lt (by omega), Nat.add_sub_cancel_left]

/-- The last `n` positions of the stream, those before `first` excepted, in their slots. -/
def Window (n : Nat) (mem : Nat → α) (stream : List α) (first : Nat) : Prop :=
  ∀ p x, stream[p]? = some x → first ≤ p → stream.length ≤ p + n → mem (p % n) = x

namespace Window

variable {n first : Nat} {mem : Nat → α} {stream : List α}

theorem nil (mem : Nat → α) : Window n mem [] 0 := fun p x h => by simp at h

theorem forget (mem : Nat → α) (stream : List α) : Window n mem stream stream.length := by
  intro p x hp hfirst
  rw [List.getElem?_eq_none hfirst] at hp
  exact nomatch hp

theorem of_first_le (h : Window n mem stream first) (hfirst : first + n ≤ stream.length) :
    Window n mem stream 0 :=
  fun p x hp _ hlast => h p x hp (by omega) hlast

theorem append (h : Window n mem stream first) {bs : List α}
    (hbs : stream.length % n + bs.length ≤ n) :
    Window n (blit mem (stream.length % n) bs) (stream ++ bs) first := by
  intro p x hp hfirst hlast
  rw [List.length_append] at hlast
  rcases Nat.lt_or_ge p stream.length with hlt | hge
  · rw [List.getElem?_append_left hlt] at hp
    have hold := h p x hp hfirst (by omega)
    rw [← hold]
    -- `p` is on the same lap as the end of the stream, below it, or on the lap before, behind
    -- what is written
    have hdiv := Nat.div_add_mod stream.length n
    rcases Nat.lt_or_ge p (n * (stream.length / n)) with hlap | hlap
    · obtain ⟨lap, hq⟩ : ∃ lap, stream.length / n = lap + 1 :=
        Nat.exists_eq_succ_of_ne_zero fun h0 => by rw [h0] at hlap; omega
      rw [hq, Nat.mul_succ] at hlap hdiv
      apply blit_of_ge
      rw [mod_eq_sub_lap (by omega : n * lap ≤ p) (by omega)]
      omega
    · apply blit_of_lt
      have hmod := Nat.mod_lt stream.length (show 0 < n by omega)
      rw [mod_eq_sub_lap hlap (by omega)]
      omega
  · rw [List.getElem?_append_right hge] at hp
    have hj : p - stream.length < bs.length := (List.getElem?_eq_some_iff.mp hp).1
    have hdiv := Nat.div_add_mod stream.length n
    rw [mod_eq_sub_lap (by omega : n * (stream.length / n) ≤ p) (by omega),
      show p - n * (stream.length / n) = stream.length % n + (p - stream.length) by omega]
    exact blit_of_getElem? hp _

theorem peek (h : Window n mem stream first) {p k : Nat} (hfirst : first ≤ p)
    (hlast : stream.length ≤ p + n) (hk : p + k ≤ stream.length) (hring : p % n + k ≤ n) :
    MiniHaywire.peek mem (p % n) k = (stream.drop p).take k := by
  apply List.ext_getElem
  · simp [MiniHaywire.peek]
    omega
  intro i hi _
  have hik : i < k := by simpa [MiniHaywire.peek] using hi
  have hdiv := Nat.div_add_mod p n
  have hslot : (p + i) % n = p % n + i := by
    rw [mod_eq_sub_lap (by omega : n * (p / n) ≤ p + i) (by omega)]
    omega
  have hentry := h (p + i) stream[p + i] (List.getElem?_eq_getElem (by omega)) (by omega) (by omega)
  rw [hslot] at hentry
  simpa [MiniHaywire.peek] using hentry

end Window

end MiniHaywire
