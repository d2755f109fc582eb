import MiniHaywire.Console

/-!
# What the console's devices get

Each device follows the text that is printed (`Follows`): it gets bytes of it at
increasing positions, `con_rp[id]` is where it has come to, and what it did not get
below that has an excuse in the log.  A console write serves the devices one after
the other; what it does for one leaves the others where they are (`Serves`), so the
account of a device is kept along its own round and then along the loop.
-/

namespace MiniHaywire.Console

/-! ### What a callback changes -/

/-- Only the table of devices is changed, and only writes past the account are made. -/
structure Beside (s s' : State) : Prop where
  conBuf_eq : s'.conBuf = s.conBuf
  conWp_eq : s'.conWp = s.conWp
  conRp_eq : s'.conRp = s.conRp
  inIodev_eq : s'.inIodev = s.inIodev
  log_eq : ∃ texts : List (List Byte), s'.log = s.log ++ texts.map .direct

namespace Beside

variable {s s' s'' : State}

theorem refl (s : State) : Beside s s := ⟨rfl, rfl, rfl, rfl, [], (List.append_nil _).symm⟩

theorem trans (h : Beside s s') (h' : Beside s' s'') : Beside s s'' := by
  obtain ⟨texts, hlog⟩ := h.log_eq
  obtain ⟨texts', hlog'⟩ := h'.log_eq
  refine ⟨h'.conBuf_eq.trans h.conBuf_eq, h'.conWp_eq.trans h.conWp_eq,
    h'.conRp_eq.trans h.conRp_eq, h'.inIodev_eq.trans h.inIodev_eq, texts ++ texts', ?_⟩
  rw [hlog', hlog, List.map_append, List.append_assoc]

theorem iodevs (s : State) (t : Iodevs) : Beside s { s with iodevs := t } :=
  ⟨rfl, rfl, rfl, rfl, [], (List.append_nil _).symm⟩

theorem direct (s : State) (text : List Byte) : Beside s (s.record (.direct text)) :=
  ⟨rfl, rfl, rfl, rfl, [text], rfl⟩

end Beside

theorem consoleWriteNested_beside (text : List Byte) {plus body : State → State}
    (hplus : ∀ s, Beside s (plus s)) (hbody : ∀ s, Beside s (body s)) (s : State) :
    Beside s (consoleWriteNested text plus body s) := by
  unfold consoleWriteNested
  split
  · have hstar := (Beside.direct s [0x2b]).trans (hplus _)
    exact (hstar.trans (Beside.direct _ text)).trans (hbody _)
  · exact Beside.refl s

theorem Callback.run_beside (cb : Callback) (s : State) : Beside s (cb.run s).2 := by
  induction cb generalizing s with
  | done o => exact Beside.refl s
  | register id d k ih => exact (Beside.iodevs s _).trans (ih _)
  | unregister id k ih => exact (Beside.iodevs s _).trans (ih _)
  | setUsage id usage k ih => exact (Beside.iodevs s _).trans (ih _)
  | print text plus body k ihplus ihbody ih =>
    exact (consoleWriteNested_beside text ihplus ihbody s).trans (ih _)

/-! ### The account of a device -/

/-- The bytes of a call of the write callback that the device took. -/
def Event.accepted (id : IodevId) : Event → List Byte
  | sent i bytes ret => if i = id then bytes.take ret.toNat else []
  | _ => []

/-- The bytes written to the device, those past the account left out. -/
def delivered (id : IodevId) (log : List Event) : List Byte := log.flatMap (Event.accepted id)

/-- Why the device does not get position `p`: it was found without `USAGE_CONSOLE`, with the
position printed before or then, or flushed when the position had left the ring. -/
def Event.Skips (id : IodevId) (p : Nat) : Event → Prop
  | lacking i wp len => i = id ∧ p < wp + len
  | flushing i wp => i = id ∧ p + consoleBufferSize < wp
  | _ => False

/-- The device has come to `con_rp[id]` in the text. -/
def Keeps (text : List Byte) (id : IodevId) (s : State) : Prop :=
  Follows text (delivered id s.log) (s.conRp id) fun p => ∃ e ∈ s.log, e.Skips id p

theorem delivered_append (id : IodevId) (log log' : List Event) :
    delivered id (log ++ log') = delivered id log ++ delivered id log' := List.flatMap_append

theorem delivered_direct (id : IodevId) (texts : List (List Byte)) :
    delivered id (texts.map .direct) = [] := by
  simp [delivered, Event.accepted]

section

variable {text : List Byte} {id : IodevId} {s s' : State}

theorem Keeps.of_log (h : Keeps text id s) {es : List Event} (hlog : s'.log = s.log ++ es)
    (hnone : delivered id es = []) (hrp : s'.conRp id = s.conRp id) : Keeps text id s' := by
  unfold Keeps
  rw [hlog, delivered_append, hnone, List.append_nil, hrp]
  apply Follows.mono h
  rintro p ⟨e, he, hskips⟩
  exact ⟨e, List.mem_append_left _ he, hskips⟩

theorem Keeps.of_beside (h : Keeps text id s) (hbeside : Beside s s') : Keeps text id s' := by
  obtain ⟨texts, hlog⟩ := hbeside.log_eq
  exact h.of_log hlog (delivered_direct id texts) (congrFun hbeside.conRp_eq id)

theorem Keeps.record (h : Keeps text id s) {e : Event} (he : e.accepted id = []) :
    Keeps text id (s.record e) :=
  h.of_log rfl (show delivered id [e] = [] by simp [delivered, he]) rfl

theorem Keeps.skip (h : Keeps text id s) {e : Event} (hlog : s'.log = s.log ++ [e])
    (hnone : e.accepted id = []) (hle : s.conRp id ≤ s'.conRp id)
    (hgap : ∀ p, p < s'.conRp id → s.conRp id ≤ p → e.Skips id p) : Keeps text id s' := by
  have hgot : delivered id s'.log = delivered id s.log := by
    rw [hlog, delivered_append]
    simp [delivered, hnone]
  unfold Keeps
  rw [hgot, hlog]
  apply Follows.skip _ hle
  · intro p hp hlt
    exact ⟨e, List.mem_append_right _ List.mem_cons_self, hgap p hlt hp⟩
  · apply Follows.mono h
    rintro p ⟨e', he', hskips⟩
    exact ⟨e', List.mem_append_left _ he', hskips⟩

theorem Keeps.grow (h : Keeps text id s) (more : List Byte) : Keeps (text ++ more) id s :=
  Follows.grow h more

end

/-! ### Serving one device -/

/-- Nothing changes for the other devices. -/
structure Serves (id : IodevId) (s s' : State) : Prop where
  conBuf_eq : s'.conBuf = s.conBuf
  conWp_eq : s'.conWp = s.conWp
  inIodev_eq : s'.inIodev = s.inIodev
  conRp_of_ne : ∀ i, i ≠ id → s'.conRp i = s.conRp i
  log_eq : ∃ es, s'.log = s.log ++ es ∧ ∀ i, i ≠ id → delivered i es = []

namespace Serves

variable {id : IodevId} {s s' s'' : State}

theorem trans (h : Serves id s s') (h' : Serves id s' s'') : Serves id s s'' := by
  obtain ⟨es, hlog, hnone⟩ := h.log_eq
  obtain ⟨es', hlog', hnone'⟩ := h'.log_eq
  refine ⟨h'.conBuf_eq.trans h.conBuf_eq, h'.conWp_eq.trans h.conWp_eq,
    h'.inIodev_eq.trans h.inIodev_eq,
    fun i hi => (h'.conRp_of_ne i hi).trans (h.conRp_of_ne i hi), es ++ es', ?_, ?_⟩
  · rw [hlog', hlog, List.append_assoc]
  · intro i hi
    rw [delivered_append, hnone i hi, hnone' i hi, List.append_nil]

theorem of_beside (h : Beside s s') : Serves id s s' := by
  obtain ⟨texts, hlog⟩ := h.log_eq
  exact ⟨h.conBuf_eq, h.conWp_eq, h.inIodev_eq, fun i _ => congrFun h.conRp_eq i,
    texts.map .direct, hlog, fun i _ => delivered_direct i texts⟩

theorem refl (s : State) : Serves id s s := of_beside (Beside.refl s)

theorem setRp (s : State) (rp : Nat) : Serves id s (s.setRp id rp) :=
  ⟨rfl, rfl, rfl, fun _ hi => Function.update_of_ne hi _ _, [], (List.append_nil _).symm,
    fun _ _ => rfl⟩

theorem record {e : Event} (s : State) (he : ∀ i, i ≠ id → e.accepted i = []) :
    Serves id s (s.record e) :=
  ⟨rfl, rfl, rfl, fun _ _ => rfl, [e], rfl, fun i hi => by simp [delivered, he i hi]⟩

theorem keeps_of_ne (h : Serves id s s') {i : IodevId} (hi : i ≠ id) {text : List Byte}
    (hkeeps : Keeps text i s) : Keeps text i s' := by
  obtain ⟨es, hlog, hnone⟩ := h.log_eq
  exact hkeeps.of_log hlog (hnone i hi) (h.conRp_of_ne i hi)

end Serves

theorem Outcome.ret_le (o : Outcome) (n : Nat) : o.ret n ≤ n := by
  cases o with
  | fails code =>
    exact Int.le_trans (Int.neg_nonpos_of_nonneg (Int.natCast_nonneg code)) (Int.natCast_nonneg n)
  | accepts more => exact Int.ofNat_le.mpr (Nat.min_le_right _ _)

theorem iodevWrite_cases (id : IodevId) (bytes : List Byte) (cb : Callback) (s : State) :
    iodevWrite id bytes cb s = (-1, s) ∨
      ∃ s₁ ret, Beside s s₁ ∧ ret ≤ (bytes.length : Int) ∧
        iodevWrite id bytes cb s = (ret, s₁.record (.sent id bytes ret)) := by
  unfold iodevWrite
  split
  · exact Or.inl rfl
  · split
    · exact Or.inr ⟨_, _, cb.run_beside s, Outcome.ret_le _ _, rfl⟩
    · exact Or.inl rfl

theorem iodevWrite_serves (id : IodevId) (bytes : List Byte) (cb : Callback) (s : State) :
    Serves id s (iodevWrite id bytes cb s).2 := by
  rcases iodevWrite_cases id bytes cb s with h | ⟨s₁, ret, hbeside, -, h⟩
  · rw [h]
    exact Serves.refl s
  · rw [h]
    apply (Serves.of_beside hbeside).trans
    apply Serves.record
    exact fun i hi => if_neg (Ne.symm hi)

theorem iodevWrite_conRp (id : IodevId) (bytes : List Byte) (cb : Callback) (s : State) :
    (iodevWrite id bytes cb s).2.conRp = s.conRp := by
  rcases iodevWrite_cases id bytes cb s with h | ⟨s₁, ret, hbeside, -, h⟩
  · rw [h]
  · rw [h]
    exact hbeside.conRp_eq

theorem Keeps.iodevWrite_fails {text : List Byte} {id : IodevId} {s : State}
    (h : Keeps text id s) (bytes : List Byte) (cb : Callback)
    (hret : (iodevWrite id bytes cb s).1 ≤ 0) :
    Keeps text id (iodevWrite id bytes cb s).2 := by
  rcases iodevWrite_cases id bytes cb s with hw | ⟨s₁, ret, hbeside, -, hw⟩
  · rw [hw]
    exact h
  · rw [hw] at hret ⊢
    apply (h.of_beside hbeside).record
    simp [Event.accepted, Int.toNat_of_nonpos hret]

theorem Keeps.iodevWrite_accepts {text : List Byte} {id : IodevId} {s : State}
    (h : Keeps text id s) {bytes : List Byte} (hbytes : bytes <+: text.drop (s.conRp id))
    (hlen : text.length < 2 ^ 32) (hrp : s.conRp id ≤ text.length) (cb : Callback)
    {ret : Int} {s' : State} (hw : iodevWrite id bytes cb s = (ret, s')) (hret : 0 < ret) :
    ret.toNat ≤ bytes.length ∧ (s'.advance id ret).conRp id = s.conRp id + ret.toNat ∧
      Keeps text id (s'.advance id ret) := by
  rcases iodevWrite_cases id bytes cb s with hnull | ⟨s₁, ret', hbeside, hle, hcall⟩
  · obtain rfl : ret = -1 := congrArg Prod.fst (hw.symm.trans hnull)
    exact absurd hret (by decide)
  obtain ⟨rfl, rfl⟩ : ret = ret' ∧ s' = s₁.record (.sent id bytes ret') :=
    Prod.mk.inj (hw.symm.trans hcall)
  have hn : ret.toNat ≤ bytes.length := Int.toNat_le.mpr hle
  have hfit : bytes.length ≤ text.length - s.conRp id := by simpa using hbytes.length_le
  have hnext : ((s₁.record (.sent id bytes ret)).advance id ret).conRp id =
      s.conRp id + ret.toNat := by
    have heq : s₁.conRp id = s.conRp id := congrFun hbeside.conRp_eq id
    rw [State.advance, State.conRp_setRp, State.conRp_record, heq]
    exact Nat.mod_eq_of_lt (by omega)
  refine ⟨hn, hnext, ?_⟩
  obtain ⟨texts, hlog⟩ := hbeside.log_eq
  have htaken : (bytes.take ret.toNat).length = ret.toNat := List.length_take_of_le hn
  have hfollows := Follows.take h ((List.take_prefix ret.toNat bytes).trans hbytes)
  have hgot : delivered id ((s₁.record (.sent id bytes ret)).advance id ret).log =
      delivered id s.log ++ bytes.take ret.toNat := by
    simp [State.advance, State.setRp, State.record, hlog, delivered, Event.accepted]
  unfold Keeps
  rw [htaken] at hfollows
  rw [hnext, hgot]
  apply Follows.mono hfollows
  rintro p ⟨e, he, hskips⟩
  refine ⟨e, ?_, hskips⟩
  simp [State.advance, State.setRp, State.record, hlog, he]

theorem Serves.advance {id : IodevId} (s : State) (ret : Int) : Serves id s (s.advance id ret) :=
  Serves.setRp s _

theorem flushBuffer_serves (id : IodevId) (cbs : List Callback) (s : State) :
    Serves id s (flushBuffer id cbs s).2 := by
  induction cbs generalizing s with
  | nil => exact Serves.refl s
  | cons cb cbs ih =>
    unfold flushBuffer
    have hwrite := iodevWrite_serves id (pendingBlock id s) cb s
    split
    · dsimp only
      split
      · exact hwrite
      · exact (hwrite.trans (Serves.advance _ _)).trans (ih _)
    · exact Serves.refl s

theorem writeText_serves (id : IodevId) (text : List Byte) (cbs : List Callback) (wrote : Nat)
    (s : State) : Serves id s (writeText id text cbs wrote s) := by
  induction cbs generalizing wrote s with
  | nil => exact Serves.refl s
  | cons cb cbs ih =>
    unfold writeText
    have hwrite := iodevWrite_serves id (text.drop wrote) cb s
    split
    · dsimp only
      split
      · exact hwrite
      · exact (hwrite.trans (Serves.advance _ _)).trans (ih _ _)
    · exact Serves.refl s

/-- A console write of `new` that has not come to the device `id`. -/
structure Waiting (old new : List Byte) (id : IodevId) (s : State) : Prop where
  keeps : Keeps (old ++ new) id s
  wp : s.conWp = old.length
  buf : Window consoleBufferSize s.conBuf old 0
  rp_le : s.conRp id ≤ old.length

/-- The flush loop at the device: what it has not taken of the old text is in the ring. -/
structure Flushing (old new : List Byte) (id : IodevId) (s : State) : Prop extends
    Waiting old new id s where
  near : old.length ≤ s.conRp id + consoleBufferSize

theorem Flushing.pendingBlock_isNext {old new : List Byte} {id : IodevId} {s : State}
    (h : Flushing old new id s) :
    pendingBlock id s <+: (old ++ new).drop (s.conRp id) ∧
      (pendingBlock id s).length ≤ old.length - s.conRp id := by
  have hmod : s.conRp id % consoleBufferSize < consoleBufferSize := Nat.mod_lt _ (by decide)
  have hblock := h.buf.peek (k := min (s.conWp - s.conRp id)
    (consoleBufferSize - s.conRp id % consoleBufferSize)) (Nat.zero_le (s.conRp id)) h.near
    (by rw [h.wp]; have := h.rp_le; omega) (by omega)
  have heq : pendingBlock id s = _ := hblock
  rw [heq, List.drop_append_of_le_length h.rp_le]
  constructor
  · exact (List.take_prefix _ _).trans (List.prefix_append _ _)
  · simp

theorem Flushing.of_serves {old new : List Byte} {id : IodevId} {s s' : State}
    (h : Flushing old new id s) (hserves : Serves id s s') (hkeeps : Keeps (old ++ new) id s')
    (hforward : s.conRp id ≤ s'.conRp id) (hle : s'.conRp id ≤ old.length) :
    Flushing old new id s' where
  keeps := hkeeps
  wp := hserves.conWp_eq.trans h.wp
  buf := by
    rw [hserves.conBuf_eq]
    exact h.buf
  rp_le := hle
  near := h.near.trans (Nat.add_le_add_right hforward _)

/-- The flush loop ends with the device at the end of the old text, or at a write that failed. -/
theorem flushBuffer_flushing {old new : List Byte} {id : IodevId}
    (hlen : (old ++ new).length < 2 ^ 32) (cbs : List Callback) {s : State}
    (h : Flushing old new id s) :
    Flushing old new id (flushBuffer id cbs s).2 ∧
      ∀ rest, (flushBuffer id cbs s).1 = some rest →
        (flushBuffer id cbs s).2.conRp id = old.length := by
  -- a round that is not entered leaves the device at the end
  have hend : ∀ {s}, Flushing old new id s → ¬ s.conRp id < s.conWp → s.conRp id = old.length := by
    intro s h hpend
    rw [h.wp] at hpend
    exact Nat.le_antisymm h.rp_le (Nat.le_of_not_lt hpend)
  induction cbs generalizing s with
  | nil =>
    refine ⟨h, fun rest hrest => hend h ?_⟩
    intro (hpend : s.conRp id < s.conWp)
    simp [flushBuffer, hpend] at hrest
  | cons cb cbs ih =>
    by_cases hpend : s.conRp id < s.conWp
    · obtain ⟨ret, s', hw⟩ : ∃ ret s', iodevWrite id (pendingBlock id s) cb s = (ret, s') :=
        ⟨_, _, rfl⟩
      have hserves : Serves id s s' := by
        simpa [hw] using iodevWrite_serves id (pendingBlock id s) cb s
      have hrp : s'.conRp id = s.conRp id := by
        simpa [hw] using congrFun (iodevWrite_conRp id (pendingBlock id s) cb s) id
      simp only [flushBuffer, if_pos hpend, hw]
      split
      · rename_i hret
        have hkeeps : Keeps (old ++ new) id s' := by
          simpa [hw] using h.keeps.iodevWrite_fails (pendingBlock id s)
            cb (by simpa [hw] using hret)
        exact ⟨h.of_serves hserves hkeeps hrp.ge (hrp.le.trans h.rp_le),
          fun _ hrest => nomatch hrest⟩
      · rename_i hret
        obtain ⟨hnext_bytes, hblock⟩ := h.pendingBlock_isNext
        have hrp_le : s.conRp id ≤ (old ++ new).length := by
          rw [List.length_append]
          exact h.rp_le.trans (Nat.le_add_right _ _)
        obtain ⟨hle, hnext, hkeeps⟩ :=
          h.keeps.iodevWrite_accepts hnext_bytes hlen hrp_le cb hw (Int.not_le.mp hret)
        have hrp_old := h.rp_le
        exact ih (h.of_serves (hserves.trans (Serves.advance _ _)) hkeeps (by omega) (by omega))
    · simp only [flushBuffer, if_neg hpend]
      exact ⟨h, fun _ _ => hend h hpend⟩

theorem writeText_keeps {old new : List Byte} {id : IodevId}
    (hlen : (old ++ new).length < 2 ^ 32) (cbs : List Callback) {wrote : Nat} {s : State}
    (h : Keeps (old ++ new) id s) (hrp : s.conRp id = old.length + wrote)
    (hwrote : wrote ≤ new.length) :
    Keeps (old ++ new) id (writeText id new cbs wrote s) ∧
      (writeText id new cbs wrote s).conRp id ≤ (old ++ new).length := by
  have hle : old.length + wrote ≤ (old ++ new).length := by
    rw [List.length_append]
    omega
  induction cbs generalizing wrote s with
  | nil => exact ⟨h, hrp.le.trans hle⟩
  | cons cb cbs ih =>
    by_cases hmore : wrote < new.length
    · obtain ⟨ret, s', hw⟩ : ∃ ret s', iodevWrite id (new.drop wrote) cb s = (ret, s') :=
        ⟨_, _, rfl⟩
      simp only [writeText, if_pos hmore, hw]
      split
      · rename_i hret
        constructor
        · simpa [hw] using h.iodevWrite_fails (new.drop wrote) cb (by simpa [hw] using hret)
        · have hrp' := congrFun (iodevWrite_conRp id (new.drop wrote) cb s) id
          rw [hw] at hrp'
          exact (hrp'.trans hrp).le.trans hle
      · rename_i hret
        have hnext_bytes : new.drop wrote <+: (old ++ new).drop (s.conRp id) := by
          rw [hrp, List.drop_length_add_append]
        obtain ⟨hret_le, hnext, hkeeps⟩ :=
          h.iodevWrite_accepts hnext_bytes hlen (hrp.le.trans hle) cb hw (Int.not_le.mp hret)
        rw [List.length_drop] at hret_le
        rw [List.length_append] at hlen hle
        rw [Nat.mod_eq_of_lt (by omega)]
        apply ih hkeeps
        · omega
        · omega
        · rw [List.length_append]
          omega
    · simp only [writeText, if_neg hmore]
      exact ⟨h, hrp.le.trans hle⟩

theorem catchUp_serves (id : IodevId) (s : State) : Serves id s (catchUp id s) := by
  unfold catchUp
  split
  · exact Serves.setRp s _
  · exact Serves.refl s

theorem serveDevice_serves (text : List Byte) (answers : IodevId → Answers) (s : State)
    (id : IodevId) : Serves id s (serveDevice text answers s id) := by
  unfold serveDevice
  split
  · exact Serves.refl s
  split
  · exact (Serves.setRp s _).trans (Serves.record _ fun _ _ => rfl)
  split
  · exact Serves.refl s
  have hflush := ((catchUp_serves id s).trans (Serves.record (e := .flushing id s.conWp) _
    fun _ _ => rfl)).trans (flushBuffer_serves id (answers id).writes _)
  dsimp only
  split
  · exact hflush
  · exact hflush.trans (writeText_serves id text _ _ _)

theorem catchUp_conRp {id : IodevId} {s : State} (hwp : s.conWp < 2 ^ 32)
    (hrp : s.conRp id < 2 ^ 32) :
    (catchUp id s).conRp id = max (s.conWp - consoleBufferSize) (s.conRp id) := by
  unfold catchUp
  split
  · rw [State.conRp_setRp]
    exact Nat.mod_eq_of_lt (by omega)
  · omega

theorem catchUp_log (id : IodevId) (s : State) : (catchUp id s).log = s.log := by
  unfold catchUp
  split <;> rfl

theorem Waiting.flushing {old new : List Byte} {id : IodevId} {s : State}
    (h : Waiting old new id s) (hlen : (old ++ new).length < 2 ^ 32) :
    Flushing old new id ((catchUp id s).record (.flushing id s.conWp)) := by
  have hserves := catchUp_serves id s
  rw [List.length_append] at hlen
  have hwp := h.wp
  have hrp_le := h.rp_le
  have hrp : ((catchUp id s).record (.flushing id s.conWp)).conRp id =
      max (s.conWp - consoleBufferSize) (s.conRp id) := catchUp_conRp (by omega) (by omega)
  refine ⟨⟨?_, hserves.conWp_eq.trans hwp, ?_, by omega⟩, by omega⟩
  · apply h.keeps.skip (e := .flushing id s.conWp)
    · rw [State.record, catchUp_log]
    · rfl
    · omega
    · intro p hlt hge
      exact ⟨rfl, by omega⟩
  · have hbuf : (catchUp id s).conBuf = s.conBuf := hserves.conBuf_eq
    rw [State.record, hbuf]
    exact h.buf

theorem Waiting.serveDevice {old new : List Byte} {id : IodevId} {s : State}
    (h : Waiting old new id s) (hlen : (old ++ new).length < 2 ^ 32)
    (answers : IodevId → Answers) :
    Keeps (old ++ new) id (serveDevice new answers s id) ∧
      (Console.serveDevice new answers s id).conRp id ≤ (old ++ new).length := by
  have hrp_le : s.conRp id ≤ (old ++ new).length := by
    rw [List.length_append]
    exact h.rp_le.trans (Nat.le_add_right _ _)
  unfold Console.serveDevice
  split
  · exact ⟨h.keeps, hrp_le⟩
  split
  · have hrp : ((s.setRp id (s.conWp + new.length)).record
        (.lacking id s.conWp new.length)).conRp id = (old ++ new).length := by
      rw [List.length_append] at hlen ⊢
      rw [State.conRp_record, State.conRp_setRp, h.wp]
      exact Nat.mod_eq_of_lt hlen
    refine ⟨?_, hrp.le⟩
    apply h.keeps.skip (e := .lacking id s.conWp new.length) rfl rfl
    · rw [hrp]
      exact hrp_le
    · intro p hlt _
      rw [hrp, List.length_append, ← h.wp] at hlt
      exact ⟨rfl, hlt⟩
  split
  · exact ⟨h.keeps, hrp_le⟩
  obtain ⟨hflush, hend⟩ := flushBuffer_flushing hlen (answers id).writes (h.flushing hlen)
  dsimp only
  split
  · refine ⟨hflush.keeps, hflush.rp_le.trans ?_⟩
    rw [List.length_append]
    exact Nat.le_add_right _ _
  · rename_i cbs hcbs
    exact writeText_keeps hlen cbs hflush.keeps (hend cbs hcbs) (Nat.zero_le _)

/-! ### The loop over the devices -/

/-- A console write of `new` with the devices `todo` still to come. -/
structure Round (old new : List Byte) (todo : List IodevId) (s : State) : Prop where
  busy : s.inIodev = 1
  wp : s.conWp = old.length
  buf : Window consoleBufferSize s.conBuf old 0
  keeps : ∀ id, Keeps (old ++ new) id s
  rp_le : ∀ id, s.conRp id ≤ (old ++ new).length
  rp_le_old : ∀ id ∈ todo, s.conRp id ≤ old.length

theorem Round.serveDevice {old new : List Byte} {id : IodevId} {todo : List IodevId} {s : State}
    (h : Round old new (id :: todo) s) (hlen : (old ++ new).length < 2 ^ 32) (hid : id ∉ todo)
    (answers : IodevId → Answers) :
    Round old new todo (serveDevice new answers s id) := by
  have hserves := serveDevice_serves new answers s id
  have hwaiting : Waiting old new id s :=
    ⟨h.keeps id, h.wp, h.buf, h.rp_le_old id List.mem_cons_self⟩
  obtain ⟨hkeeps, hrp⟩ := hwaiting.serveDevice hlen answers
  refine ⟨hserves.inIodev_eq.trans h.busy, hserves.conWp_eq.trans h.wp, ?_, ?_, ?_, ?_⟩
  · rw [hserves.conBuf_eq]
    exact h.buf
  · intro i
    by_cases hi : i = id
    · rw [hi]
      exact hkeeps
    · exact hserves.keeps_of_ne hi (h.keeps i)
  · intro i
    by_cases hi : i = id
    · rw [hi]
      exact hrp
    · rw [hserves.conRp_of_ne i hi]
      exact h.rp_le i
  · intro i hi
    rw [hserves.conRp_of_ne i (fun heq => hid (heq ▸ hi))]
    exact h.rp_le_old i (List.mem_cons_of_mem _ hi)

theorem Round.serveDevices {old new : List Byte} {todo : List IodevId} {s : State}
    (h : Round old new todo s) (hlen : (old ++ new).length < 2 ^ 32) (hnodup : todo.Nodup)
    (answers : IodevId → Answers) :
    Round old new [] (todo.foldl (Console.serveDevice new answers) s) := by
  induction todo generalizing s with
  | nil => exact h
  | cons id todo ih =>
    obtain ⟨hid, htodo⟩ := List.nodup_cons.mp hnodup
    exact ih (h.serveDevice hlen hid answers) htodo

/-! ### The ring -/

theorem copyText_window {old : List Byte} {first : Nat} (rounds : Nat) {text : List Byte}
    {s : State} (hwp : s.conWp = old.length) (hbuf : Window consoleBufferSize s.conBuf old first)
    (hlen : (old ++ text).length < 2 ^ 32) (hrounds : text.length ≤ rounds) :
    ∃ buf, copyText rounds text s = { s with conBuf := buf, conWp := (old ++ text).length } ∧
      Window consoleBufferSize buf (old ++ text) first := by
  induction rounds generalizing old text s with
  | zero =>
    obtain rfl : text = [] := List.eq_nil_of_length_eq_zero (Nat.le_zero.mp hrounds)
    rw [List.append_nil, ← hwp]
    exact ⟨s.conBuf, rfl, hbuf⟩
  | succ rounds ih =>
    by_cases htext : text.length ≠ 0
    · obtain ⟨block, hblock⟩ : ∃ block, block =
          min text.length (consoleBufferSize - s.conWp % consoleBufferSize) := ⟨_, rfl⟩
      have hmod : s.conWp % consoleBufferSize < consoleBufferSize := Nat.mod_lt _ (by decide)
      have htake : (text.take block).length = block := List.length_take_of_le (by omega)
      have hsplit : old ++ text.take block ++ text.drop block = old ++ text := by
        rw [List.append_assoc, List.take_append_drop]
      have hroom : old.length % consoleBufferSize + (text.take block).length ≤
          consoleBufferSize := by
        rw [htake, ← hwp]
        omega
      have hwindow := hbuf.append hroom
      rw [← hwp] at hwindow
      rw [← hsplit] at hlen ⊢
      have hwp' : (s.conWp + block) % 2 ^ 32 = (old ++ text.take block).length := by
        rw [List.length_append, List.length_append] at hlen
        rw [List.length_append, htake, ← hwp]
        exact Nat.mod_eq_of_lt (by omega)
      simp only [copyText, if_pos htext, ← hblock]
      exact ih hwp' hwindow hlen (by rw [List.length_drop]; omega)
    · obtain rfl : text = [] := List.eq_nil_of_length_eq_zero (not_ne_iff.mp htext)
      rw [List.append_nil, ← hwp]
      exact ⟨s.conBuf, rfl, hbuf⟩

theorem updateBuffer_window {old text : List Byte} {s : State} (hwp : s.conWp = old.length)
    (hbuf : Window consoleBufferSize s.conBuf old 0) (hlen : (old ++ text).length < 2 ^ 32) :
    ∃ buf, updateBuffer text s = { s with conBuf := buf, conWp := (old ++ text).length } ∧
      Window consoleBufferSize buf (old ++ text) 0 := by
  unfold updateBuffer
  split
  · -- the part that does not fit is never copied; what is copied fills the whole ring
    obtain ⟨excess, hexcess⟩ : ∃ excess, excess = text.length - consoleBufferSize := ⟨_, rfl⟩
    have hsplit : old ++ text.take excess ++ text.drop excess = old ++ text := by
      rw [List.append_assoc, List.take_append_drop]
    have hdrop : (text.drop excess).length = consoleBufferSize := by
      rw [List.length_drop]
      omega
    have hwp' : (s.conWp + excess) % 2 ^ 32 = (old ++ text.take excess).length := by
      rw [List.length_append] at hlen
      rw [List.length_append, List.length_take_of_le (by omega), hwp]
      exact Nat.mod_eq_of_lt (by omega)
    rw [← hsplit] at hlen ⊢
    obtain ⟨buf, hcopy, hwindow⟩ := copyText_window consoleBufferSize
      (s := { s with conWp := (s.conWp + excess) % 2 ^ 32 }) hwp'
      (Window.forget s.conBuf (old ++ text.take excess)) hlen hdrop.le
    refine ⟨buf, ?_, hwindow.of_first_le ?_⟩
    · rw [← hexcess]
      exact hcopy
    · rw [← hdrop, ← List.length_append]
  · exact copyText_window text.length hwp hbuf hlen (Nat.le_refl _)

/-! ### Runs -/

/-- What holds between two calls, after `text` was printed: no console write is under way,
    `con_wp` has counted the text, the ring holds its end, and every device has come to its
    `con_rp`. -/
structure Law (text : List Byte) (s : State) : Prop where
  idle : s.inIodev = 0
  wp : s.conWp = text.length
  buf : Window consoleBufferSize s.conBuf text 0
  keeps : ∀ id, Keeps text id s
  rp_le : ∀ id, s.conRp id ≤ text.length

theorem Law.start (t : Iodevs) : Law [] (State.start t) :=
  ⟨rfl, rfl, Window.nil _, fun _ => Follows.start _ _, fun _ => Nat.le_refl 0⟩

theorem Law.of_beside {text : List Byte} {s s' : State} (h : Law text s) (hbeside : Beside s s') :
    Law text s' := by
  refine ⟨hbeside.inIodev_eq.trans h.idle, hbeside.conWp_eq.trans h.wp, ?_,
    fun id => (h.keeps id).of_beside hbeside, ?_⟩
  · rw [hbeside.conBuf_eq]
    exact h.buf
  · rw [hbeside.conRp_eq]
    exact h.rp_le

theorem Law.iodevConsoleWrite {old : List Byte} {s : State} (h : Law old s) (new : List Byte)
    (hlen : (old ++ new).length < 2 ^ 32) (answers : IodevId → Answers) :
    Law (old ++ new) (iodevConsoleWrite new answers s) := by
  have hround : Round old new (List.finRange 11) { s with inIodev := s.inIodev + 1 } := by
    refine ⟨?_, h.wp, h.buf, fun id => (h.keeps id).grow new, ?_, fun id _ => h.rp_le id⟩
    · rw [h.idle]
    · intro id
      rw [List.length_append]
      exact (h.rp_le id).trans (Nat.le_add_right _ _)
  have hserved := hround.serveDevices hlen (List.nodup_finRange 11) answers
  obtain ⟨buf, hupdate, hbuf⟩ := updateBuffer_window hserved.wp hserved.buf hlen
  rw [Console.iodevConsoleWrite, if_neg (fun hbusy => hbusy h.idle)]
  dsimp only
  rw [hupdate]
  refine ⟨?_, rfl, hbuf, hserved.keeps, hserved.rp_le⟩
  dsimp only
  rw [hserved.busy]

theorem Law.iodevHandleEvents {text : List Byte} {s : State} (h : Law text s)
    (hlen : text.length < 2 ^ 32) (id : IodevId) (a : EventAnswers) :
    Law text (iodevHandleEvents id a s) := by
  -- the handler runs with `in_iodev` set, so what it prints is past the account
  obtain ⟨s', hs'⟩ : ∃ s', s' = (if (s.iodevs.dev id).any (·.ops.handleEvents) then
      (a.handler.run { s with inIodev := s.inIodev + 1 }).2
      else { s with inIodev := s.inIodev + 1 }) := ⟨_, rfl⟩
  have hbeside : Beside { s with inIodev := s.inIodev + 1 } s' := by
    rw [hs']
    split
    · exact a.handler.run_beside _
    · exact Beside.refl _
  have hidle : Law text { s' with inIodev := s'.inIodev - 1 } := by
    apply h.of_beside
    refine ⟨hbeside.conBuf_eq, hbeside.conWp_eq, hbeside.conRp_eq, ?_, hbeside.log_eq⟩
    dsimp only
    rw [hbeside.inIodev_eq, Nat.add_sub_cancel]
  rw [Console.iodevHandleEvents, if_neg (fun hbusy => hbusy h.idle)]
  dsimp only
  rw [← hs']
  split
  · have hwrite := hidle.iodevConsoleWrite [] (by rwa [List.append_nil]) a.console
    rwa [List.append_nil] at hwrite
  · exact hidle

theorem Law.iodevConsoleKick {text : List Byte} {s : State} (h : Law text s)
    (hlen : text.length < 2 ^ 32) (first : IodevId → Answers) (each : IodevId → EventAnswers) :
    Law text (iodevConsoleKick first each s) := by
  have hfirst := h.iodevConsoleWrite [] (by rwa [List.append_nil]) first
  rw [List.append_nil] at hfirst
  refine List.foldlRecOn (List.finRange 11) _ hfirst ?_
  intro s' hs' id _
  split
  · exact hs'.iodevHandleEvents hlen id (each id)
  · exact hs'

theorem Law.call {text : List Byte} {s : State} (h : Law text s) (c : Call)
    (hlen : (text ++ c.text).length < 2 ^ 32) : Law (text ++ c.text) (call s c) := by
  -- every call but a console write prints nothing
  have hsilent : ∀ {s'}, Law text s' → Law (text ++ []) s' := by
    intro s' hs'
    rwa [List.append_nil]
  have hlen' : text.length < 2 ^ 32 := by
    rw [List.length_append] at hlen
    omega
  cases c with
  | consoleWrite new answers => exact h.iodevConsoleWrite new hlen answers
  | handleEvents id a => exact hsilent (h.iodevHandleEvents hlen' id a)
  | consoleKick first each => exact hsilent (h.iodevConsoleKick hlen' first each)
  | registerDevice id d => exact hsilent (h.of_beside (Beside.iodevs s _))
  | unregisterDevice id => exact hsilent (h.of_beside (Beside.iodevs s _))
  | setUsage id usage => exact hsilent (h.of_beside (Beside.iodevs s _))

theorem Law.calls {text : List Byte} {s : State} (h : Law text s) (cs : List Call)
    (hlen : (text ++ printed cs).length < 2 ^ 32) : Law (text ++ printed cs) (calls cs s) := by
  induction cs generalizing text s with
  | nil =>
    rw [printed, List.flatMap_nil, List.append_nil]
    exact h
  | cons c cs ih =>
    rw [printed, List.flatMap_cons, ← List.append_assoc] at hlen ⊢
    refine ih (h.call c ?_) hlen
    rw [List.length_append] at hlen
    exact Nat.lt_of_le_of_lt (Nat.le_add_right _ _) hlen

/-! ### What every device gets -/

/-- The console after `text` was printed: `con_wp` counts it, the ring has its end, and each
device got bytes of it at increasing positions below `con_rp[id]`, all of them but those for
which the log has an excuse.  As this holds after every call, the excuse is in the log by the
end of the call that moves `con_rp[id]` past the position. -/
structure FanOut (excuse : IodevId → Nat → Event → Prop) (text : List Byte) (s : State) :
    Prop where
  wp : s.conWp = text.length
  buf : ∀ p b, text[p]? = some b → text.length ≤ p + consoleBufferSize →
    s.conBuf (p % consoleBufferSize) = b
  devices : ∀ id, Follows text (delivered id s.log) (s.conRp id) fun p => ∃ e ∈ s.log, excuse id p e

/-- **Fan-out of the console.** After any calls, whatever the devices accept, refuse or print from
    inside their callbacks: `con_wp` has counted every byte that was printed, the ring holds the
    last of them, and each device got the printed bytes in order, each at most once, up to its
    `con_rp`.  The log names a reason for every byte that a device did not get. -/
theorem console_fanOut (t : Iodevs) (cs : List Call) (hlen : (printed cs).length < 2 ^ 32) :
    FanOut (fun id p e => e.Skips id p) (printed cs) (calls cs (State.start t)) := by
  have hlaw : Law (printed cs) (calls cs (State.start t)) := (Law.start t).calls cs hlen
  exact ⟨hlaw.wp, fun p b hp hlast => hlaw.buf p b hp (Nat.zero_le p) hlast, hlaw.keeps⟩

def uartOnly : Iodevs where
  dev := fun id => if id = IODEV_UART then some ⟨⟨true, true, true⟩, 0⟩ else none
  uart := rfl

def busyDevices : IodevId → Answers := fun _ => ⟨false, []⟩

/-- A USB device refuses `A`, is no console while `B` is printed, and takes `C`, printing from
inside its callback. -/
def toggledRun : List Call :=
  [.registerDevice IODEV_USB0 ⟨⟨true, true, false⟩, usageConsole⟩,
    .consoleWrite [0x41] busyDevices,
    .setUsage IODEV_USB0 0,
    .consoleWrite [0x42] busyDevices,
    .setUsage IODEV_USB0 usageConsole,
    .consoleWrite [0x43] fun _ =>
      ⟨true, [.print [0x21] (.done (.accepts 0)) (.done (.accepts 0)) (.done (.accepts 0))]⟩]

theorem console_fanOut_toggled :
    (printed toggledRun).length < 2 ^ 32 ∧
      FanOut (fun id p e => e.Skips id p) (printed toggledRun)
        (calls toggledRun (State.start uartOnly)) :=
  ⟨by decide, console_fanOut uartOnly toggledRun (by decide)⟩

/-- As `Skips`, but a device without `USAGE_CONSOLE` only misses what is printed then. -/
def Event.SkipsPrinted (id : IodevId) (p : Nat) : Event → Prop
  | lacking i wp len => i = id ∧ wp ≤ p ∧ p < wp + len
  | flushing i wp => i = id ∧ p + consoleBufferSize < wp
  | _ => False

instance (id : IodevId) (p : Nat) : (e : Event) → Decidable (e.SkipsPrinted id p)
  | .lacking i wp len => inferInstanceAs (Decidable (i = id ∧ wp ≤ p ∧ p < wp + len))
  | .flushing i wp => inferInstanceAs (Decidable (i = id ∧ p + consoleBufferSize < wp))
  | .sent .. | .direct _ => inferInstanceAs (Decidable False)

/-- "Drop buffer": the USB device never gets `A`, which was printed while it was a console. -/
theorem toggle_drops_pending :
    (printed toggledRun).length < 2 ^ 32 ∧
      ¬ FanOut (fun id p e => e.SkipsPrinted id p) (printed toggledRun)
        (calls toggledRun (State.start uartOnly)) := by
  refine ⟨by decide, fun h => ?_⟩
  obtain ⟨ps, hps⟩ := h.devices IODEV_USB0
  have hgot : delivered IODEV_USB0 (calls toggledRun (State.start uartOnly)).log = [0x43] := by
    decide +kernel
  have hout : 0 ∉ ps := by
    intro hmem
    have hentry : (printed toggledRun)[0]? ∈ ps.map fun p => (printed toggledRun)[p]? :=
      List.mem_map_of_mem hmem
    rw [hps.entries, hgot] at hentry
    exact absurd hentry (by decide)
  have hpast : 0 < (calls toggledRun (State.start uartOnly)).conRp IODEV_USB0 := by decide +kernel
  exact absurd (hps.gaps 0 hpast hout) (by decide +kernel)

end MiniHaywire.Console
