import MiniHaywire.ChosenParams
import MiniHaywire.Kboot
import MiniHaywire.UbootPreloc

/-!
# What the boot code frees

Three functions of the boot code call `free`: `kboot_set_chosen` for a value that is
replaced, `dt_set_uboot_dm_preloc` for its copy of the phandles, and `kboot_prepare_dt`
for the device tree of an earlier call.  The first two free what `calloc` has returned.
The device tree is in a block from the top of memory, which is no chunk of the heap, so
the third call is wrong whenever it is made (`kboot_frees_iff`).

The proxy calls the functions in any order, and the variables keep their values in
between.  The strings of `chosen_params` are in chunks of the heap; nothing writes to a
chunk after `strcpy` has, so its text stands beside its number.  What libfdt answers is up
to the caller.
-/

namespace MiniHaywire.Kboot

open Chunks (Ptr Heap Keeps Owned Disciplined Freeable)

/-! ### `kboot_set_chosen` -/

structure HeapStr where
  chunk : Nat
  text : List Byte
deriving DecidableEq

def pointer : Option HeapStr → Ptr U32
  | none => .null
  | some s => .chunk s.chunk

/-- The strings of `kboot_set_chosen`, with `calloc` and `free`. -/
def heapStrings : Strings HeapStr (Heap U32) where
  text := HeapStr.text
  dup s heap := (⟨heap.calloc.1, s⟩, heap.calloc.2)
  free s heap := heap.free (pointer s)

/-! ### `kboot_prepare_dt` -/

structure BootState where
  heap : Heap U32
  params : List (ParamRow HeapStr)
  dt : Ptr U32
  logbuf : Ptr U32
  initrdStart : Ptr U32
  initrdSize : U32
  mem : BootMem

def BootState.init (mem : BootMem) : BootState where
  heap := Heap.empty
  params := List.replicate MAX_CHOSEN_PARAMS ⟨none, none⟩
  dt := .null
  logbuf := .null
  initrdStart := .null
  initrdSize := 0
  mem := mem

/-- The pointer with an address that is not in the heap. -/
def topPointer (addr : U32) : Ptr U32 := if addr = 0 then .null else .foreign addr

/-- How one call of `kboot_prepare_dt` fares: whether the parts succeed, and the tree as
    `dt_set_uboot` finds it. -/
structure DtAnswers where
  /-- `fdt_totalsize` of the tree it is given. -/
  totalsize : U32
  openInto : Bool
  reserveDt : Bool
  reserveImage : Bool
  /-- The label of the ADT in `dt_setup_mtd_phram`. -/
  adtLabel : Bool
  setChosen : Bool
  setSerialNumber : Bool
  tree : DeviceTree
  /-- The node of the alias `serial2`. -/
  serial2 : Option Nat
  setMemory : Bool
  pack : Bool

def releaseDt (s : BootState) : BootState :=
  if s.dt = .null then s else { s with heap := s.heap.free s.dt, dt := .null }

/-- `dt_setup_mtd_phram`; the result is not looked at. -/
def dtSetupMtdPhram (a : DtAnswers) (s : BootState) : BootState :=
  if a.adtLabel then
    let (buffer, mem) := topOfMemoryAlloc LOGBUF_SIZE s.mem
    { s with logbuf := topPointer buffer, mem := mem }
  else s

/-- `dt_set_uboot`: whether it has returned, and the variables. -/
def dtSetUboot (fuel : Nat) (a : DtAnswers) (s : BootState) : Bool × BootState :=
  match a.serial2 with
  | none => (true, s)
  | some node =>
    let o := dtSetUbootDmPreloc fuel node ⟨a.tree, s.heap⟩
    (o.returned, { s with heap := o.work.heap })

/-- `kboot_prepare_dt`: what it returns, if it does, and the variables. -/
def kbootPrepareDt (fuel : Nat) (a : DtAnswers) (s : BootState) : Option Int × BootState :=
  let s := releaseDt s
  -- `assert(dt_bufsize)`
  if a.totalsize = 0 then (none, s)
  else
    let (dt, mem) := topOfMemoryAlloc (dtBufsizeFor a.totalsize) s.mem
    let s := { s with dt := topPointer dt, mem := mem }
    if !(a.openInto && a.reserveDt && a.reserveImage) then (some (-1), s)
    else
      let s := dtSetupMtdPhram a s
      if !(a.setChosen && a.setSerialNumber) then (some (-1), s)
      else
        let (returned, s) := dtSetUboot fuel a s
        if !returned then (none, s)
        else if !(a.setMemory && a.pack) then (some (-1), s)
        else (some 0, s)

/-! ### Runs -/

/-- The requests of the proxy; `fuel` says how deep a marking for U-Boot is followed. -/
inductive BootOp where
  | setChosen (name value : Option (List Byte))
  | setInitrd (size : U32)
  | prepareDt (fuel : Nat) (a : DtAnswers)

namespace BootState

/-- Whether the call returns, and the variables after it, or so far. -/
def step (s : BootState) : BootOp → Bool × BootState
  | .setChosen name value =>
    let (_, params, heap) := kbootSetChosenWith heapStrings name value s.params s.heap
    (true, { s with params := params, heap := heap })
  | .setInitrd size =>
    let (initrd, mem) := topOfMemoryAlloc size s.mem
    (true, { s with
      initrdStart := topPointer initrd, initrdSize := alignUp size pageSize, mem := mem })
  | .prepareDt fuel a =>
    let (ret, s) := kbootPrepareDt fuel a s
    (ret.isSome, s)

/-- One call after the other, as long as they return. -/
def run (s : BootState) : List BootOp → BootState
  | [] => s
  | op :: ops => if (s.step op).1 then (s.step op).2.run ops else (s.step op).2

/-- `P` at every call of a run. -/
def Always (P : BootState → BootOp → Prop) (s : BootState) : List BootOp → Prop
  | [] => True
  | op :: ops => P s op ∧ ((s.step op).1 = true → (s.step op).2.Always P ops)

/-- A device tree is prepared only while there is none. -/
def NoTreeYet (s : BootState) : BootOp → Prop
  | .prepareDt _ _ => s.dt = .null
  | _ => True

end BootState

/-! ### The chunks of the table -/

def valueChunks (rows : List (ParamRow HeapStr)) : List Nat :=
  rows.filterMap fun row => row.value.map HeapStr.chunk

/-- The values are in chunks that have not been freed, each in one of its own. -/
structure RowsOwned (rows : List (ParamRow HeapStr)) (heap : Heap U32) : Prop where
  disciplined : Disciplined heap.log
  owned : ∀ n ∈ valueChunks rows, Owned heap.log n
  distinct : (valueChunks rows).Nodup

section Rows

variable {rows pre post : List (ParamRow HeapStr)} {row row' : ParamRow HeapStr}
    {heap heap' : Heap U32}

theorem valueChunks_split :
    valueChunks (pre ++ row :: post) =
      valueChunks pre ++ ((row.value.map HeapStr.chunk).toList ++ valueChunks post) := by
  unfold valueChunks
  rw [List.filterMap_append, List.filterMap_cons]
  cases row.value with
  | none => rfl
  | some s => rfl

theorem RowsOwned.keeps (h : RowsOwned rows heap) (hkeeps : Keeps heap heap') :
    RowsOwned rows heap' where
  disciplined := hkeeps.disciplined h.disciplined
  owned n hn := hkeeps.owned h.disciplined n (h.owned n hn)
  distinct := h.distinct

/-- One row is replaced: what the other rows have is kept, and what the new row has is not
    theirs. -/
theorem RowsOwned.replace (h : RowsOwned (pre ++ row :: post) heap)
    (hd : Disciplined heap'.log)
    (hkept : ∀ n ∈ valueChunks pre ++ valueChunks post, Owned heap'.log n)
    (hnew : ∀ s, row'.value = some s →
      Owned heap'.log s.chunk ∧ s.chunk ∉ valueChunks pre ++ valueChunks post) :
    RowsOwned (pre ++ row' :: post) heap' := by
  have hdistinct := h.distinct
  rw [valueChunks_split] at hdistinct
  have hrest : (valueChunks pre ++ valueChunks post).Nodup := by
    refine hdistinct.sublist ?_
    exact List.Sublist.append_left (List.sublist_append_right _ _) _
  refine ⟨hd, ?_, ?_⟩
  · rw [valueChunks_split]
    cases hvalue : row'.value with
    | none => exact hkept
    | some s =>
      intro n hn
      rcases List.mem_append.mp hn with hn | hn
      · exact hkept n (List.mem_append_left _ hn)
      · rcases List.mem_cons.mp hn with rfl | hn
        · exact (hnew s hvalue).1
        · exact hkept n (List.mem_append_right _ hn)
  · rw [valueChunks_split]
    cases hvalue : row'.value with
    | none => exact hrest
    | some s =>
      exact List.nodup_middle.mpr (List.nodup_cons.mpr ⟨(hnew s hvalue).2, hrest⟩)

theorem RowsOwned.not_mem {s : HeapStr} (h : RowsOwned (pre ++ row :: post) heap)
    (hvalue : row.value = some s) : s.chunk ∉ valueChunks pre ++ valueChunks post := by
  have hdistinct := h.distinct
  rw [valueChunks_split, hvalue] at hdistinct
  exact (List.nodup_cons.mp (List.nodup_middle.mp hdistinct)).1

theorem RowsOwned.owned_rest (h : RowsOwned (pre ++ row :: post) heap) :
    ∀ n ∈ valueChunks pre ++ valueChunks post, Owned heap.log n := by
  intro n hn
  apply h.owned n
  rw [valueChunks_split]
  rcases List.mem_append.mp hn with hn | hn
  · exact List.mem_append_left _ hn
  · exact List.mem_append_right _ (List.mem_append_right _ hn)

theorem RowsOwned.replace_calloc (h : RowsOwned (pre ++ row :: post) heap)
    (hnew : ∀ s, row'.value = some s →
      Owned heap.calloc.2.log s.chunk ∧ s.chunk ∉ valueChunks pre ++ valueChunks post) :
    RowsOwned (pre ++ row' :: post) heap.calloc.2 := by
  have hkeeps := Keeps.calloc heap
  refine h.replace (hkeeps.disciplined h.disciplined) ?_ hnew
  intro n hn
  exact hkeeps.owned h.disciplined n (h.owned_rest n hn)

theorem RowsOwned.takeRow (h : RowsOwned (pre ++ row :: post) heap) (name : Option HeapStr) :
    RowsOwned (pre ++ { row with name := name } :: post) heap.calloc.2 := by
  apply h.replace_calloc
  intro s hvalue
  have howned : Owned heap.log s.chunk := by
    apply h.owned
    rw [valueChunks_split, hvalue]
    simp
  exact ⟨howned.concat_alloc _, h.not_mem hvalue⟩

theorem RowsOwned.clear (h : RowsOwned (pre ++ row :: post) heap) :
    RowsOwned (pre ++ { row with value := none } :: post) (heap.free (pointer row.value)) := by
  have hfreeable : Freeable heap.log (pointer row.value) := by
    cases hvalue : row.value with
    | none => trivial
    | some s =>
      apply h.owned
      rw [valueChunks_split, hvalue]
      simp
  refine h.replace (Chunks.disciplined_concat_free.mpr ⟨h.disciplined, hfreeable⟩) ?_ ?_
  · intro n hn
    refine (h.owned_rest n hn).concat_free ?_
    intro heq
    cases hvalue : row.value with
    | none =>
      rw [hvalue] at heq
      contradiction
    | some s =>
      rw [hvalue] at heq
      exact h.not_mem hvalue (Ptr.chunk.inj heq ▸ hn)
  · intro s hvalue
    contradiction

theorem RowsOwned.store (h : RowsOwned (pre ++ row :: post) heap) (value : List Byte) :
    RowsOwned (pre ++ { row with value := some ⟨heap.count, value⟩ } :: post) heap.calloc.2 := by
  apply h.replace_calloc
  intro s hvalue
  cases hvalue
  refine ⟨Heap.owned_calloc h.disciplined, ?_⟩
  intro hmem
  exact Nat.lt_irrefl _ (Heap.lt_count (h.owned_rest _ hmem))

theorem chosenLoop_cases (name : List Byte) (rows : List (ParamRow HeapStr)) (heap : Heap U32) :
    (∃ pre row post, rows = pre ++ row :: post ∧
        (chosenLoop heapStrings name rows heap).2 =
          (pre ++ { row with name := some ⟨heap.count, name⟩ } :: post, heap.calloc.2)) ∨
      (∃ pre row post, rows = pre ++ row :: post ∧
        (chosenLoop heapStrings name rows heap).2 =
          (pre ++ { row with value := none } :: post, heap.free (pointer row.value))) ∨
      (chosenLoop heapStrings name rows heap).2 = (rows, heap) := by
  induction rows with
  | nil => exact .inr (.inr rfl)
  | cons row rows ih =>
    obtain ⟨old, value⟩ := row
    rw [chosenLoop]
    cases old with
    | none => exact .inl ⟨[], ⟨none, value⟩, rows, rfl, rfl⟩
    | some old =>
      dsimp only
      split
      · exact .inr (.inl ⟨[], ⟨some old, value⟩, rows, rfl, rfl⟩)
      · generalize chosenLoop heapStrings name rows heap = result at ih ⊢
        obtain ⟨i, rows', heap'⟩ := result
        rcases ih with ⟨pre, row, post, rfl, heq⟩ | ⟨pre, row, post, rfl, heq⟩ | heq
        · obtain ⟨rfl, rfl⟩ := Prod.mk.inj heq
          exact .inl ⟨⟨some old, value⟩ :: pre, row, post, rfl, rfl⟩
        · obtain ⟨rfl, rfl⟩ := Prod.mk.inj heq
          exact .inr (.inl ⟨⟨some old, value⟩ :: pre, row, post, rfl, rfl⟩)
        · obtain ⟨rfl, rfl⟩ := Prod.mk.inj heq
          exact .inr (.inr rfl)

theorem RowsOwned.chosenLoop (h : RowsOwned rows heap) (name : List Byte) :
    RowsOwned (Kboot.chosenLoop heapStrings name rows heap).2.1
      (Kboot.chosenLoop heapStrings name rows heap).2.2 := by
  rcases chosenLoop_cases name rows heap with
    ⟨pre, row, post, rfl, heq⟩ | ⟨pre, row, post, rfl, heq⟩ | heq
  · rw [heq]
    exact h.takeRow _
  · rw [heq]
    exact h.clear
  · rw [heq]
    exact h

theorem RowsOwned.modify (h : RowsOwned rows heap) (i : Nat) (value : List Byte) :
    RowsOwned (rows.modify i fun row => { row with value := some ⟨heap.count, value⟩ })
      heap.calloc.2 := by
  rcases Nat.lt_or_ge i rows.length with hlt | hge
  · rw [List.modify_eq_take_cons_drop hlt]
    apply RowsOwned.store
    rw [List.getElem_cons_drop, List.take_append_drop]
    exact h
  · rw [List.modify_eq_self hge]
    exact h.keeps (Keeps.calloc heap)

/-- `kboot_set_chosen` frees values of the table only. -/
theorem RowsOwned.setChosen (h : RowsOwned rows heap) (name value : Option (List Byte)) :
    RowsOwned (kbootSetChosenWith heapStrings name value rows heap).2.1
      (kbootSetChosenWith heapStrings name value rows heap).2.2 := by
  cases name with
  | none => exact h
  | some name =>
    have hloop := h.chosenLoop name
    rw [kbootSetChosenWith]
    dsimp only
    split
    · exact hloop
    · cases value with
      | none => exact hloop
      | some value => exact hloop.modify _ value

theorem chosenLoop_grows (name : List Byte) (rows : List (ParamRow HeapStr)) (heap : Heap U32) :
    heap.log <+: (chosenLoop heapStrings name rows heap).2.2.log := by
  rcases chosenLoop_cases name rows heap with ⟨_, _, _, _, heq⟩ | ⟨_, _, _, _, heq⟩ | heq
  · rw [heq]
    exact List.prefix_append _ _
  · rw [heq]
    exact List.prefix_append _ _
  · rw [heq]

theorem setChosen_grows (name value : Option (List Byte)) (rows : List (ParamRow HeapStr))
    (heap : Heap U32) :
    heap.log <+: (kbootSetChosenWith heapStrings name value rows heap).2.2.log := by
  cases name with
  | none => exact List.prefix_rfl
  | some name =>
    have hloop := chosenLoop_grows name rows heap
    rw [kbootSetChosenWith]
    dsimp only
    split
    · exact hloop
    · cases value with
      | none => exact hloop
      | some value => exact hloop.trans (List.prefix_append _ _)

end Rows

/-! ### One call -/

section Step

variable {s : BootState} {op : BootOp}

theorem topPointer_ne_chunk (addr : U32) (n : Nat) : topPointer addr ≠ .chunk n := by
  unfold topPointer
  split
  · simp
  · simp

/-- What `kboot_prepare_dt` does, once the device tree of an earlier call is gone. -/
structure Prepared (s s' : BootState) : Prop where
  heap : Keeps s.heap s'.heap
  params : s'.params = s.params
  dt : s'.dt = s.dt ∨ ∃ addr, s'.dt = topPointer addr

theorem prepared_dtSetupMtdPhram (a : DtAnswers) (s : BootState) :
    Prepared s (dtSetupMtdPhram a s) := by
  unfold dtSetupMtdPhram
  split
  · exact ⟨Keeps.refl _, rfl, .inl rfl⟩
  · exact ⟨Keeps.refl _, rfl, .inl rfl⟩

theorem prepared_dtSetUboot (fuel : Nat) (a : DtAnswers) (s : BootState) :
    Prepared s (dtSetUboot fuel a s).2 := by
  unfold dtSetUboot
  split
  · exact ⟨Keeps.refl _, rfl, .inl rfl⟩
  · rename_i node _
    exact ⟨dtSetUbootDmPreloc_keeps fuel node ⟨a.tree, s.heap⟩, rfl, .inl rfl⟩

theorem Prepared.trans {s₁ s₂ s₃ : BootState} (h : Prepared s₁ s₂) (h' : Prepared s₂ s₃) :
    Prepared s₁ s₃ where
  heap := h.heap.trans h'.heap
  params := h'.params.trans h.params
  dt := by
    rcases h'.dt with heq | htop
    · rw [heq]
      exact h.dt
    · exact .inr htop

theorem prepared_kbootPrepareDt (fuel : Nat) (a : DtAnswers) (s : BootState) :
    Prepared (releaseDt s) (kbootPrepareDt fuel a s).2 := by
  unfold kbootPrepareDt
  dsimp only
  generalize releaseDt s = s
  split
  · exact ⟨Keeps.refl _, rfl, .inl rfl⟩
  · generalize topOfMemoryAlloc (dtBufsizeFor a.totalsize) s.mem = block
    have hblock : Prepared s { s with dt := topPointer block.1, mem := block.2 } :=
      ⟨Keeps.refl _, rfl, .inr ⟨block.1, rfl⟩⟩
    have hlog := hblock.trans (prepared_dtSetupMtdPhram a _)
    have huboot := hlog.trans (prepared_dtSetUboot fuel a _)
    split
    · exact hblock
    · split
      · exact hlog
      · split
        · exact huboot
        · split
          · exact huboot
          · exact huboot

namespace BootState

/-- The log so far is disciplined, and the variables hold what they should. -/
structure Sound (s : BootState) : Prop where
  rows : RowsOwned s.params s.heap
  foreign : ∀ n, s.dt ≠ .chunk n

theorem Sound.init (mem : BootMem) : (init mem).Sound := by
  refine ⟨⟨Chunks.disciplined_nil, ?_, ?_⟩, ?_⟩
  · simp [BootState.init, valueChunks]
  · simp [BootState.init, valueChunks]
  · simp [BootState.init]

theorem Sound.prepared {s' : BootState} (h : s.Sound) (hp : Prepared s s') : s'.Sound where
  rows := by
    rw [hp.params]
    exact h.rows.keeps hp.heap
  foreign n := by
    rcases hp.dt with heq | ⟨addr, heq⟩
    · rw [heq]
      exact h.foreign n
    · rw [heq]
      exact topPointer_ne_chunk addr n

theorem Sound.step (h : s.Sound) (hop : s.NoTreeYet op) : (s.step op).2.Sound := by
  cases op with
  | setChosen name value => exact ⟨h.rows.setChosen name value, h.foreign⟩
  | setInitrd size => exact ⟨h.rows, h.foreign⟩
  | prepareDt fuel a =>
    have hnone : releaseDt s = s := if_pos hop
    have hprepared := prepared_kbootPrepareDt fuel a s
    rw [hnone] at hprepared
    exact h.prepared hprepared

theorem step_grows (s : BootState) (op : BootOp) : s.heap.log <+: (s.step op).2.heap.log := by
  cases op with
  | setChosen name value => exact setChosen_grows name value s.params s.heap
  | setInitrd size => exact List.prefix_rfl
  | prepareDt fuel a =>
    refine List.IsPrefix.trans ?_ (prepared_kbootPrepareDt fuel a s).heap.grows
    unfold releaseDt
    split
    · exact List.prefix_rfl
    · exact List.prefix_append _ _

theorem run_grows (s : BootState) (ops : List BootOp) : s.heap.log <+: (s.run ops).heap.log := by
  induction ops generalizing s with
  | nil => exact List.prefix_rfl
  | cons op ops ih =>
    rw [run]
    split
    · exact (s.step_grows op).trans (ih _)
    · exact s.step_grows op

/-- A device tree that is there is passed to `free`, which has never returned it. -/
theorem Sound.not_disciplined (h : s.Sound) (hop : ¬s.NoTreeYet op) :
    ¬Disciplined (s.step op).2.heap.log := by
  cases op with
  | setChosen name value => exact absurd trivial hop
  | setInitrd size => exact absurd trivial hop
  | prepareDt fuel a =>
    intro hd
    have hrelease := (prepared_kbootPrepareDt fuel a s).heap.of_disciplined hd
    have hfree : releaseDt s = { s with heap := s.heap.free s.dt, dt := .null } := if_neg hop
    rw [hfree] at hrelease
    have hfreeable := (Chunks.disciplined_concat_free.mp hrelease).2
    cases hdt : s.dt with
    | null => exact hop hdt
    | chunk n => exact h.foreign n hdt
    | foreign addr =>
      rw [hdt] at hfreeable
      exact hfreeable

/-! ### Whole runs -/

theorem Sound.disciplined_run_iff (h : s.Sound) (ops : List BootOp) :
    Disciplined (s.run ops).heap.log ↔ s.Always NoTreeYet ops := by
  induction ops generalizing s with
  | nil => exact ⟨fun _ => trivial, fun _ => h.rows.disciplined⟩
  | cons op ops ih =>
    rw [run, Always]
    by_cases hop : s.NoTreeYet op
    · rw [and_iff_right hop]
      by_cases hreturned : (s.step op).1 = true
      · rw [if_pos hreturned, forall_prop_of_true hreturned]
        exact ih (h.step hop)
      · rw [if_neg hreturned]
        exact ⟨fun _ hret => absurd hret hreturned, fun _ => (h.step hop).rows.disciplined⟩
    · refine iff_of_false ?_ fun hall => hop hall.1
      intro hd
      have hgrows : (s.step op).2.heap.log <+:
          (if (s.step op).1 then (s.step op).2.run ops else (s.step op).2).heap.log := by
        split
        · exact run_grows _ _
        · exact List.prefix_rfl
      obtain ⟨calls, hcalls⟩ := hgrows
      rw [← hcalls] at hd
      exact h.not_disciplined hop hd.of_append

end BootState

end Step

/-- **`free` in `kboot.c`.** Whatever the proxy asks for and in whatever order, `free` is called
    only with chunks that were returned and not freed since, exactly if no device tree is prepared
    while there is one already. -/
theorem kboot_frees_iff (mem : BootMem) (ops : List BootOp) :
    Disciplined ((BootState.init mem).run ops).heap.log ↔
      (BootState.init mem).Always BootState.NoTreeYet ops :=
  (BootState.Sound.init mem).disciplined_run_iff ops

def plainAnswers : DtAnswers where
  totalsize := 0x1000
  openInto := true
  reserveDt := true
  reserveImage := true
  adtLabel := true
  setChosen := true
  setSerialNumber := true
  tree := pmgrTree
  serial2 := some 48
  setMemory := true
  pack := true

/-- The second call frees the tree of the first one. -/
theorem second_prepareDt_frees_block :
    ¬Disciplined ((BootState.init ⟨0x80000000, 0x10000000, false⟩).run
      [.prepareDt 3 plainAnswers, .prepareDt 3 plainAnswers]).heap.log := by
  intro hd
  have hlog : ((BootState.init ⟨0x80000000, 0x10000000, false⟩).run
      [.prepareDt 3 plainAnswers, .prepareDt 3 plainAnswers]).heap.log =
        [.alloc 0, .free (.chunk 0), .free (.foreign 0x8ffef000), .alloc 1, .free (.chunk 1)] := by
    decide +kernel
  rw [hlog] at hd
  exact hd [.alloc 0, .free (.chunk 0)] (.foreign 0x8ffef000) [.alloc 1, .free (.chunk 1)] rfl

end MiniHaywire.Kboot
