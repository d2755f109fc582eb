import Mathlib.Data.List.Basic

/-!
# The discipline of an allocator's callers

An allocator returns chunks, numbered in the order in which it returns them, and takes
them back.  The log of the calls is disciplined if every pointer that is given back is
null, or a chunk that was returned before and has not been given back yet
(`Disciplined`).  A part of a program that gives back no chunk of its caller keeps the
log disciplined and the caller's chunks owned (`Keeps`); such parts can be put one
after the other, and between taking a chunk and giving it back (`Keeps.bracket`).
-/

namespace MiniHaywire.Chunks

variable {α : Type*}

/-- A pointer: to nothing, to a chunk, or to memory the allocator knows nothing about. -/
inductive Ptr (α : Type*) where
  | null
  | chunk (n : Nat)
  | foreign (a : α)
deriving DecidableEq

inductive Call (α : Type*) where
  | alloc (n : Nat)
  | free (p : Ptr α)
deriving DecidableEq

theorem alloc_ne_free {n : Nat} {p : Ptr α} : Call.alloc n ≠ .free p := by simp

/-- The chunk was returned, and has not been given back. -/
def Owned (log : List (Call α)) (n : Nat) : Prop :=
  .alloc n ∈ log ∧ .free (.chunk n) ∉ log

def Freeable (log : List (Call α)) : Ptr α → Prop
  | .null => True
  | .chunk n => Owned log n
  | .foreign _ => False

def Disciplined (log : List (Call α)) : Prop :=
  ∀ pre p post, log = pre ++ .free p :: post → Freeable pre p

/-- The calls so far; chunks that were returned have a number below `count`. -/
structure Heap (α : Type*) where
  count : Nat
  log : List (Call α)
  bound : ∀ n, .alloc n ∈ log → n < count

namespace Heap

def empty : Heap α where
  count := 0
  log := []
  bound := fun _ h => absurd h List.not_mem_nil

def calloc (h : Heap α) : Nat × Heap α :=
  (h.count,
    { count := h.count + 1
      log := h.log ++ [.alloc h.count]
      bound := by
        intro n hn
        rcases List.mem_append.mp hn with hn | hn
        · exact Nat.lt_succ_of_lt (h.bound n hn)
        · rw [Call.alloc.inj (List.mem_singleton.mp hn)]
          exact Nat.lt_succ_self _ })

def free (h : Heap α) (p : Ptr α) : Heap α where
  count := h.count
  log := h.log ++ [.free p]
  bound := by
    intro n hn
    rcases List.mem_append.mp hn with hn | hn
    · exact h.bound n hn
    · exact absurd (List.mem_singleton.mp hn) alloc_ne_free

end Heap

/-! ### The log -/

section Log

variable {log : List (Call α)} {n : Nat}

theorem disciplined_nil : Disciplined ([] : List (Call α)) := by
  intro pre p post h
  exact absurd h.symm (by simp)

theorem Disciplined.of_append {calls : List (Call α)} (h : Disciplined (log ++ calls)) :
    Disciplined log := by
  rintro pre p post rfl
  exact h pre p (post ++ calls) (by simp)

theorem concat_eq_append_cons {c d : Call α} {pre post : List (Call α)}
    (h : log ++ [c] = pre ++ d :: post) :
    (pre = log ∧ d = c) ∨ ∃ post', log = pre ++ d :: post' := by
  rcases List.eq_nil_or_concat' post with rfl | ⟨post, e, rfl⟩
  · obtain ⟨rfl, hlast⟩ := List.append_inj' h rfl
    exact .inl ⟨rfl, (List.cons.inj hlast).1.symm⟩
  · rw [← List.cons_append, ← List.append_assoc] at h
    exact .inr ⟨post, (List.append_inj' h rfl).1⟩

theorem disciplined_concat_alloc : Disciplined (log ++ [.alloc n]) ↔ Disciplined log := by
  refine ⟨Disciplined.of_append, ?_⟩
  intro h pre p post heq
  rcases concat_eq_append_cons heq with ⟨-, hcall⟩ | ⟨post', hlog⟩
  · exact absurd hcall.symm alloc_ne_free
  · exact h pre p post' hlog

theorem disciplined_concat_free {p : Ptr α} :
    Disciplined (log ++ [.free p]) ↔ Disciplined log ∧ Freeable log p := by
  constructor
  · intro h
    exact ⟨h.of_append, h log p [] rfl⟩
  · rintro ⟨h, hp⟩ pre q post heq
    rcases concat_eq_append_cons heq with ⟨rfl, hcall⟩ | ⟨post', hlog⟩
    · obtain rfl := Call.free.inj hcall
      exact hp
    · exact h pre q post' hlog

theorem Disciplined.alloc_mem (h : Disciplined log) (hfree : .free (.chunk n) ∈ log) :
    .alloc n ∈ log := by
  obtain ⟨pre, post, rfl⟩ := List.append_of_mem hfree
  have howned : Owned pre n := h pre (.chunk n) post rfl
  exact List.mem_append_left _ howned.1

theorem Owned.concat_alloc (h : Owned log n) (m : Nat) : Owned (log ++ [.alloc m]) n := by
  refine ⟨List.mem_append_left _ h.1, ?_⟩
  rw [List.mem_append, not_or]
  exact ⟨h.2, fun hmem => alloc_ne_free (List.mem_singleton.mp hmem).symm⟩

theorem Owned.concat_free {p : Ptr α} (h : Owned log n) (hne : p ≠ .chunk n) :
    Owned (log ++ [.free p]) n := by
  refine ⟨List.mem_append_left _ h.1, ?_⟩
  rw [List.mem_append, not_or]
  exact ⟨h.2, fun hmem => hne (Call.free.inj (List.mem_singleton.mp hmem)).symm⟩

end Log

/-! ### Parts of a program -/

section Parts

variable {h h₁ h₂ : Heap α} {n : Nat}

theorem Heap.lt_count (hn : Owned h.log n) : n < h.count := h.bound n hn.1

theorem Heap.owned_calloc (hd : Disciplined h.log) : Owned h.calloc.2.log h.count := by
  refine ⟨List.mem_append_right _ (List.mem_singleton.mpr rfl), ?_⟩
  intro hmem
  rcases List.mem_append.mp hmem with hmem | hmem
  · exact Nat.lt_irrefl _ (h.bound _ (hd.alloc_mem hmem))
  · exact alloc_ne_free (List.mem_singleton.mp hmem).symm

/-- From the first heap to the second one nothing is given back that was not taken in
    between. -/
structure Keeps (h h' : Heap α) : Prop where
  grows : h.log <+: h'.log
  disciplined : Disciplined h.log → Disciplined h'.log
  owned : Disciplined h.log → ∀ n, Owned h.log n → Owned h'.log n

theorem Keeps.refl (h : Heap α) : Keeps h h where
  grows := List.prefix_rfl
  disciplined hd := hd
  owned _ _ hn := hn

theorem Keeps.trans (h₁₂ : Keeps h h₁) (h₂₃ : Keeps h₁ h₂) : Keeps h h₂ where
  grows := h₁₂.grows.trans h₂₃.grows
  disciplined hd := h₂₃.disciplined (h₁₂.disciplined hd)
  owned hd n hn := h₂₃.owned (h₁₂.disciplined hd) n (h₁₂.owned hd n hn)

theorem Keeps.calloc (h : Heap α) : Keeps h h.calloc.2 where
  grows := List.prefix_append _ _
  disciplined := disciplined_concat_alloc.mpr
  owned _ _ hn := hn.concat_alloc _

/-- A chunk is taken and given back, with anything of the kind in between. -/
theorem Keeps.bracket (hbody : Keeps h.calloc.2 h₁) : Keeps h (h₁.free (.chunk h.count)) where
  grows := ((Keeps.calloc h).trans hbody).grows.trans (List.prefix_append _ _)
  disciplined := by
    intro hd
    have hd₁ : Disciplined h.calloc.2.log := disciplined_concat_alloc.mpr hd
    have howned := hbody.owned hd₁ h.count (Heap.owned_calloc hd)
    exact disciplined_concat_free.mpr ⟨hbody.disciplined hd₁, howned⟩
  owned := by
    intro hd n hn
    have howned := ((Keeps.calloc h).trans hbody).owned hd n hn
    refine howned.concat_free ?_
    intro heq
    exact Nat.ne_of_gt (Heap.lt_count hn) (Ptr.chunk.inj heq)

theorem Keeps.of_disciplined (hk : Keeps h h₁) (hd : Disciplined h₁.log) : Disciplined h.log := by
  obtain ⟨calls, hcalls⟩ := hk.grows
  rw [← hcalls] at hd
  exact hd.of_append

end Parts

end MiniHaywire.Chunks
