import OpenMV.Memory.FbAllocStack

/-! Permanent marks | scheme:protocol | source:src/src/openmv/omv/fb_alloc.c,
    src/src/openmv/omv/img/blob.c

    `imlib_find_blobs` runs a Python callback between `fb_alloc_mark(); fb_alloc_mark_permanent();`
    and `fb_alloc_free_till_mark_past_mark_permanent();`, to "protect ourselves from caught exceptions
    in the callback code from freeing our fb_alloc() stack". Permanence is a flag of the slots that
    carry the current mark, and the mark just opened has none, so nothing below it is protected: this
    module says exactly for which callbacks the blocks survive. It also says in which runs the flag
    never outlives its block and the counters keep telling the order of the blocks. -/

namespace OpenMV.FbAlloc
open Schemes Schemes.MarkStack
open scoped List

/-! ### One slot at a time -/

/-- Filling a slot changes no other one. -/
theorem placeLoop_getElem? {p : Ptr} {m c : ℕ} : ∀ {es es' : List Slot},
    placeLoop p m c es = some es' → ∀ i : ℕ, es'[i]? = es[i]? ∨ ∃ e : Slot, es[i]? = some e ∧
      e.valid = false ∧ es'[i]? = some { e with valid := true, p := p, mark := m, count := c }
  | e :: es, es', h, i => by
      cases hv : e.valid
      · simp only [placeLoop, hv, Bool.false_eq_true, if_false, Option.some.injEq] at h
        subst h
        cases i with
        | zero => exact Or.inr ⟨e, rfl, hv, rfl⟩
        | succ i => exact Or.inl rfl
      · simp only [placeLoop, hv, if_true, Option.map_eq_some_iff] at h
        obtain ⟨es₁, h₁, rfl⟩ := h
        cases i with
        | zero => exact Or.inl rfl
        | succ i => exact placeLoop_getElem? h₁ i

/-- What a callback may do: allocate, open marks, and close marks. -/
def CallbackOp : Op → Prop
  | .mark | .alloc _ _ | .allocAll _ | .freeTillMark => True
  | _ => False

/-- The three things a call of the callback can do to the slot at `i`: nothing, fill it if it is
    free, or release it if it is a plain block of the mark that is closed. -/
theorem slot_mallocInto (s : State) (bytes : ℕ) (ok : Bool) (i : ℕ) :
    s.heap.next ≤ (mallocInto s bytes ok).2.heap.next ∧
    (mallocInto s bytes ok).2.markMaxNow = s.markMaxNow ∧
    ((mallocInto s bytes ok).2.addr[i]? = s.addr[i]? ∨
      ∃ e e', s.addr[i]? = some e ∧ e.valid = false ∧ (mallocInto s bytes ok).2.addr[i]? = some e' ∧
        e'.p = s.heap.next ∧ (mallocInto s bytes ok).2.heap.next = s.heap.next + 1) := by
  cases ok with
  | false => exact ⟨le_refl _, rfl, Or.inl rfl⟩
  | true =>
    simp only [mallocInto, Heap.malloc, if_true]
    cases hpl : placeLoop s.heap.next s.markMaxNow (inc16 s.countMaxNow) s.addr with
    | none => exact ⟨Nat.le_succ _, rfl, Or.inl rfl⟩
    | some es' =>
      refine ⟨Nat.le_succ _, rfl, ?_⟩
      rcases placeLoop_getElem? hpl i with h | ⟨e, h1, h2, h3⟩
      · exact Or.inl h
      · exact Or.inr ⟨e, _, h1, h2, h3, rfl, rfl⟩

theorem slot_step (s : State) {op : Op} (hop : CallbackOp op) (i : ℕ) :
    s.heap.next ≤ (step s op).heap.next ∧
    ((step s op).addr[i]? = s.addr[i]? ∨
      (∃ e e', s.addr[i]? = some e ∧ e.valid = false ∧ (step s op).addr[i]? = some e' ∧
        e'.p = s.heap.next ∧ (step s op).heap.next = s.heap.next + 1) ∨
      (∃ e, op = .freeTillMark ∧ s.addr[i]? = some e ∧
        (step s op).addr[i]? = some (freed false s.markMaxNow e))) := by
  cases op with
  | mark => exact ⟨le_refl _, Or.inl rfl⟩
  | alloc size ok =>
    simp only [step, exec, fbAlloc]
    split
    · exact ⟨le_refl _, Or.inl rfl⟩
    · obtain ⟨h1, -, h3⟩ := slot_mallocInto s (roundUp size) ok i
      exact ⟨h1, h3.imp_right Or.inl⟩
  | allocAll ok =>
    simp only [step, exec, (fbAllocAll_eq s ok).2]
    obtain ⟨h1, -, h3⟩ := slot_mallocInto s OMV_FB_ALLOC_SIZE ok i
    exact ⟨h1, h3.imp_right Or.inl⟩
  | freeTillMark =>
    simp only [step, exec, fbAllocFreeTillMark, intFbAllocFreeTillMark, freeLoop_addr, freeLoop_heap,
      List.getElem?_map]
    refine ⟨le_refl _, ?_⟩
    cases he : s.addr[i]? with
    | none => exact Or.inl rfl
    | some e => exact Or.inr (Or.inr ⟨e, trivial, rfl, rfl⟩)
  | init0 | free | freeAll | markPermanent | freeTillMarkPastMarkPermanent => exact absurd hop id

/-- The current mark after the callback has made the calls `ops`, counted from `m`. -/
def markAfter (m : ℕ) (ops : List Op) : ℕ :=
  (m + ops.count .mark + 65535 * ops.count .freeTillMark) % 65536

theorem mark_mallocInto (s : State) (bytes : ℕ) (ok : Bool) :
    (mallocInto s bytes ok).2.markMaxNow = s.markMaxNow := (slot_mallocInto s bytes ok 0).2.1

theorem mark_run {s : State} (hs : s.markMaxNow < 65536) (ops : List Op)
    (hops : ∀ op ∈ ops, CallbackOp op) :
    (run step s ops).markMaxNow = markAfter s.markMaxNow ops := by
  induction ops using List.reverseRecOn with
  | nil => simp [markAfter, Nat.mod_eq_of_lt hs]
  | append_singleton ops op ih =>
    have ih' := ih (fun o ho => hops o (by simp [ho]))
    have hop := hops op (by simp)
    rw [run_concat]
    cases op with
    | mark =>
      simp only [step, exec, fbAllocMark, inc16, ih', markAfter, List.count_append]
      simp
      omega
    | alloc size ok =>
      simp only [step, exec, fbAlloc]
      split
      · rw [ih']; simp [markAfter, List.count_append]
      · rw [mark_mallocInto, ih']; simp [markAfter, List.count_append]
    | allocAll ok =>
      simp only [step, exec, (fbAllocAll_eq _ ok).2, mark_mallocInto, ih']
      simp [markAfter, List.count_append]
    | freeTillMark =>
      simp only [step, exec, fbAllocFreeTillMark, intFbAllocFreeTillMark, dec16, ih', markAfter,
        List.count_append]
      simp
      omega
    | init0 | free | freeAll | markPermanent | freeTillMarkPastMarkPermanent => exact absurd hop id

/-! ### The protection law -/

/-- The callback of `imlib_find_blobs` with the calls around it. -/
def protectedCall (s : State) (cb : List Op) : State :=
  fbAllocFreeTillMarkPastMarkPermanent (run step (fbAllocMarkPermanent (fbAllocMark s)) cb)

/-- Every block live before is live after, at its place and with its pointer, and the current mark
    is back. -/
def Protects (s : State) (cb : List Op) : Prop :=
  (∀ (i : ℕ) (e : Slot), s.addr[i]? = some e → e.valid = true →
    ∃ e' : Slot, (protectedCall s cb).addr[i]? = some e' ∧ e'.valid = true ∧ e'.p = e.p) ∧
  (protectedCall s cb).markMaxNow = s.markMaxNow

/-- The callbacks that do no harm: they close as many marks as they open, the new mark has a number
    no live block carries, and they never close a mark with the number of a live plain block. -/
def KeepsClear (s : State) (cb : List Op) : Prop :=
  cb.count .mark % 65536 = cb.count .freeTillMark % 65536 ∧
  (∀ e ∈ live s, e.mark ≠ inc16 s.markMaxNow) ∧
  ∀ pre, pre ++ [.freeTillMark] <+: cb → ∀ e ∈ live s, e.permanent = false →
    e.mark ≠ markAfter (inc16 s.markMaxNow) pre

/-- What a reachable table has of well-formedness: a 16-bit mark, and blocks older than the next. -/
structure WellFormed (s : State) : Prop where
  mark : s.markMaxNow < 65536
  fresh : ∀ e ∈ live s, e.p < s.heap.next

theorem mem_live_iff {s : State} {e : Slot} :
    e ∈ live s ↔ e.valid = true ∧ ∃ i : ℕ, s.addr[i]? = some e := by
  rw [live, List.mem_filter, List.mem_iff_getElem?, and_comm]

/-- The slot no longer holds the block `p`, and never will again. -/
def Dead (i : ℕ) (p : Ptr) (s : State) : Prop :=
  p < s.heap.next ∧ ∀ e : Slot, s.addr[i]? = some e → e.valid = true → e.p ≠ p

theorem dead_step {i : ℕ} {p : Ptr} {s : State} {op : Op} (hop : CallbackOp op) (h : Dead i p s) :
    Dead i p (step s op) := by
  obtain ⟨hle, hs⟩ := slot_step s hop i
  refine ⟨lt_of_lt_of_le h.1 hle, ?_⟩
  intro e he hv
  rcases hs with hs | ⟨e₀, e₁, -, -, hs, hp, -⟩ | ⟨e₀, -, h₀, hs⟩
  · rw [hs] at he; exact h.2 e he hv
  · rw [hs, Option.some.injEq] at he
    rw [← he, hp]; exact Nat.ne_of_gt h.1
  · rw [hs, Option.some.injEq] at he
    unfold freed at he
    split at he
    · rw [← he] at hv; exact absurd hv (by simp)
    · rw [← he] at hv ⊢; exact h.2 e₀ h₀ hv

theorem dead_run {i : ℕ} {p : Ptr} {s : State} {ops : List Op} (hops : ∀ op ∈ ops, CallbackOp op)
    (h : Dead i p s) : Dead i p (run step s ops) := by
  induction ops generalizing s with
  | nil => exact h
  | cons op ops ih =>
    exact ih (fun o ho => hops o (by simp [ho])) (dead_step (hops op (by simp)) h)

/-- A live slot is kept by a callback call, or it is a plain block of the mark being closed. -/
theorem keep_step {i : ℕ} {e : Slot} {s : State} {op : Op} (hop : CallbackOp op)
    (he : s.addr[i]? = some e) (hv : e.valid = true) :
    (step s op).addr[i]? = some e ∨ (op = .freeTillMark ∧ hit false s.markMaxNow e = true) := by
  obtain ⟨-, hs | ⟨e₀, e₁, h0, h1, -⟩ | ⟨e₀, h0, h1, h2⟩⟩ := slot_step s hop i
  · rw [hs]; exact Or.inl he
  · rw [he, Option.some.injEq] at h0
    rw [h0, h1] at hv; exact absurd hv (by simp)
  · rw [he, Option.some.injEq] at h1
    subst h1
    cases hh : hit false s.markMaxNow e with
    | true => exact Or.inr ⟨h0, rfl⟩
    | false => rw [h2, freed, hh]; exact Or.inl (by simp)

theorem freeTillMark_get (s : State) (i : ℕ) :
    (step s .freeTillMark).addr[i]? = (s.addr[i]?).map (freed false s.markMaxNow) := by
  simp only [step, exec, fbAllocFreeTillMark, intFbAllocFreeTillMark, freeLoop_addr,
    List.getElem?_map]

theorem dead_of_hit {i : ℕ} {e : Slot} {s : State} (hh : hit false s.markMaxNow e = true)
    (hp : e.p < s.heap.next) (he : s.addr[i]? = some e) : Dead i e.p (step s .freeTillMark) := by
  have hle := (slot_step s (show CallbackOp .freeTillMark from trivial) i).1
  refine ⟨lt_of_lt_of_le hp hle, ?_⟩
  intro e' he' hv'
  rw [freeTillMark_get, he, Option.map_some, Option.some.injEq, freed, hh] at he'
  rw [← he'] at hv'
  exact absurd hv' (by simp)

/-- A live slot stays as it is through the callback, or its block is gone for good. -/
theorem keep_or_dead {i : ℕ} {e : Slot} {s : State} {ops : List Op}
    (hops : ∀ op ∈ ops, CallbackOp op) (he : s.addr[i]? = some e) (hv : e.valid = true)
    (hp : e.p < s.heap.next) :
    ((run step s ops).addr[i]? = some e ∧ e.p < (run step s ops).heap.next) ∨
      Dead i e.p (run step s ops) := by
  induction ops generalizing s with
  | nil => exact Or.inl ⟨he, hp⟩
  | cons op ops ih =>
    have hop := hops op (by simp)
    have hops' : ∀ o ∈ ops, CallbackOp o := fun o ho => hops o (by simp [ho])
    rw [run_cons]
    rcases keep_step hop he hv with h | ⟨rfl, hh⟩
    · exact ih hops' h (lt_of_lt_of_le hp (slot_step s hop i).1)
    · exact Or.inr (dead_run hops' (dead_of_hit hh hp he))

/-- A permanent block survives every callback. -/
theorem keep_permanent {i : ℕ} {e : Slot} {s : State} {ops : List Op}
    (hops : ∀ op ∈ ops, CallbackOp op) (he : s.addr[i]? = some e) (hv : e.valid = true)
    (hp : e.permanent = true) : (run step s ops).addr[i]? = some e := by
  induction ops generalizing s with
  | nil => exact he
  | cons op ops ih =>
    rcases keep_step (hops op (by simp)) he hv with h | ⟨-, hh⟩
    · exact ih (fun o ho => hops o (by simp [ho])) h
    · simp [hit, hp] at hh

/-- A block survives a callback that never closes a mark with its number. -/
theorem keep_clear {i : ℕ} {e : Slot} {s : State} (hs : s.markMaxNow < 65536) {ops : List Op}
    (hops : ∀ op ∈ ops, CallbackOp op) (he : s.addr[i]? = some e) (hv : e.valid = true)
    (hc : ∀ pre, pre ++ [.freeTillMark] <+: ops → e.permanent = false →
      e.mark ≠ markAfter s.markMaxNow pre) : (run step s ops).addr[i]? = some e := by
  induction ops using List.reverseRecOn with
  | nil => exact he
  | append_singleton ops op ih =>
    have hops' : ∀ o ∈ ops, CallbackOp o := fun o ho => hops o (by simp [ho])
    have hkeep := ih hops' (fun pre hp => hc pre (hp.trans (List.prefix_append _ _)))
    rw [run_concat]
    rcases keep_step (hops op (by simp)) hkeep hv with h | ⟨rfl, hh⟩
    · exact h
    · simp only [hit, hv, Bool.true_and, Bool.false_or, Bool.and_eq_true, beq_iff_eq,
        Bool.not_eq_true'] at hh
      rw [mark_run hs ops hops'] at hh
      exact absurd hh.1 (hc ops (List.prefix_refl _) hh.2)

theorem wellFormed_mallocInto {s : State} (h : WellFormed s) (bytes : ℕ) (ok : Bool) :
    WellFormed (mallocInto s bytes ok).2 := by
  refine ⟨by rw [mark_mallocInto]; exact h.mark, ?_⟩
  intro e he
  obtain ⟨hv, i, hi⟩ := mem_live_iff.mp he
  obtain ⟨hle, -, hs | ⟨e₀, e₁, -, -, hs, hp, hn⟩⟩ := slot_mallocInto s bytes ok i
  · rw [hs] at hi
    exact lt_of_lt_of_le (h.fresh e (mem_live_iff.mpr ⟨hv, i, hi⟩)) hle
  · rw [hs, Option.some.injEq] at hi
    rw [← hi, hp, hn]; exact Nat.lt_succ_self _

theorem wellFormed_intFree {s : State} (h : WellFormed s) (fp : Bool) :
    WellFormed (intFbAllocFreeTillMark fp s) := by
  refine ⟨Nat.mod_lt _ (by decide), ?_⟩
  intro e he
  simp only [live, intFbAllocFreeTillMark, freeLoop_addr, freeLoop_heap, filter_freed,
    List.mem_filter, Bool.and_eq_true] at he ⊢
  exact h.fresh e (List.mem_filter.mpr ⟨he.1, he.2.1⟩)

theorem wellFormed_free {s : State} (h : WellFormed s) : WellFormed (fbFree s) := by
  unfold fbFree
  cases hf : fbFreeLoop s.countMaxNow s.addr with
  | none => exact h
  | some r =>
    obtain ⟨es', p⟩ := r
    obtain ⟨l, e, r, hs, -, -, -, rfl⟩ := fbFreeLoop_eq_some hf
    refine ⟨h.mark, ?_⟩
    intro e' he'
    refine h.fresh e' ?_
    simp only [live, hs, List.mem_filter, List.mem_append, List.mem_cons] at he' ⊢
    rcases he' with ⟨h1 | rfl | h1, hv⟩
    · exact ⟨Or.inl h1, hv⟩
    · exact absurd hv (by simp)
    · exact ⟨Or.inr (Or.inr h1), hv⟩

theorem wellFormed_step {s : State} (h : WellFormed s) (op : Op) : WellFormed (step s op) := by
  cases op with
  | init0 =>
    refine ⟨Nat.zero_lt_succ _, fun e he => ?_⟩
    simp only [live, step, exec, fbAllocInit0, List.mem_filter, List.mem_replicate] at he
    rw [he.1.2] at he; exact absurd he.2 (by simp [Slot.zero])
  | mark => exact ⟨Nat.mod_lt _ (by decide), h.fresh⟩
  | alloc size ok =>
    simp only [step, exec, fbAlloc]
    split
    · exact h
    · exact wellFormed_mallocInto h _ ok
  | allocAll ok =>
    simp only [step, exec, (fbAllocAll_eq s ok).2]
    exact wellFormed_mallocInto h _ ok
  | free => exact wellFormed_free h
  | freeAll =>
    refine ⟨Nat.zero_lt_succ _, fun e he => ?_⟩
    simp only [step, exec, live_fbFreeAll, List.not_mem_nil] at he
  | freeTillMark => exact wellFormed_intFree h false
  | markPermanent =>
    refine ⟨h.mark, fun e he => ?_⟩
    simp only [live, step, exec, fbAllocMarkPermanent, List.mem_filter, List.mem_map] at he ⊢
    obtain ⟨⟨e₀, he₀, rfl⟩, hv⟩ := he
    rw [setPermanent_valid] at hv
    rw [setPermanent_p]
    exact h.fresh e₀ (List.mem_filter.mpr ⟨he₀, hv⟩)
  | freeTillMarkPastMarkPermanent => exact wellFormed_intFree h true

theorem wellFormed_runOps (ops : List Op) : WellFormed (runOps ops) := by
  induction ops using List.reverseRecOn with
  | nil => exact ⟨by decide, by decide⟩
  | append_singleton ops op ih => rw [runOps_concat]; exact wellFormed_step ih op

/-! The state the callback starts in, and the one it leaves. -/

theorem start_get (s : State) (i : ℕ) : (fbAllocMarkPermanent (fbAllocMark s)).addr[i]? =
    (s.addr[i]?).map (setPermanent (inc16 s.markMaxNow)) := by
  simp only [fbAllocMarkPermanent, fbAllocMark, List.getElem?_map]

theorem start_mark (s : State) :
    (fbAllocMarkPermanent (fbAllocMark s)).markMaxNow = inc16 s.markMaxNow := rfl

theorem setPermanent_of_ne {m : ℕ} {e : Slot} (h : e.mark ≠ m) : setPermanent m e = e := by
  rw [setPermanent, if_neg (by simpa using h)]

theorem markAfter_balanced {m : ℕ} (hm : m < 65536) {ops : List Op}
    (h : ops.count .mark % 65536 = ops.count .freeTillMark % 65536) : markAfter m ops = m := by
  unfold markAfter
  omega

theorem protectedCall_get (s : State) (cb : List Op) (i : ℕ) : (protectedCall s cb).addr[i]? =
    ((run step (fbAllocMarkPermanent (fbAllocMark s)) cb).addr[i]?).map
      (freed true (run step (fbAllocMarkPermanent (fbAllocMark s)) cb).markMaxNow) := by
  simp only [protectedCall, fbAllocFreeTillMarkPastMarkPermanent, intFbAllocFreeTillMark,
    freeLoop_addr, List.getElem?_map]

section Law
variable {s : State} {cb : List Op}

theorem start_lt (s : State) : (fbAllocMarkPermanent (fbAllocMark s)).markMaxNow < 65536 :=
  Nat.mod_lt _ (by decide)

/-- Enough: under the condition nothing touches a block that was live before. -/
theorem protects_of_keepsClear (hw : WellFormed s) (hcb : ∀ op ∈ cb, CallbackOp op)
    (h : KeepsClear s cb) : Protects s cb := by
  obtain ⟨hbal, hnew, hclose⟩ := h
  have hmark := mark_run (start_lt s) cb hcb
  rw [markAfter_balanced (start_lt s) hbal, start_mark] at hmark
  constructor
  · intro i e he hv
    have hl : e ∈ live s := mem_live_iff.mpr ⟨hv, i, he⟩
    have h0 : (fbAllocMarkPermanent (fbAllocMark s)).addr[i]? = some e := by
      rw [start_get, he, Option.map_some, setPermanent_of_ne (hnew e hl)]
    have h1 := keep_clear (start_lt s) hcb h0 hv (fun pre hp hperm => hclose pre hp e hl hperm)
    refine ⟨e, ?_, hv, rfl⟩
    rw [protectedCall_get, h1, hmark, Option.map_some, freed, hit]
    simp [hnew e hl]
  · have hM : s.markMaxNow < 65536 := hw.mark
    have hpc : (protectedCall s cb).markMaxNow = dec16 (inc16 s.markMaxNow) := congrArg dec16 hmark
    rw [hpc, dec16, inc16]
    omega

theorem balanced_of_protects (hw : WellFormed s) (hcb : ∀ op ∈ cb, CallbackOp op)
    (h : Protects s cb) : cb.count .mark % 65536 = cb.count .freeTillMark % 65536 := by
  have hmark := mark_run (start_lt s) cb hcb
  have hback := h.2
  have hM := hw.mark
  have hpc : (protectedCall s cb).markMaxNow =
      dec16 (markAfter (inc16 s.markMaxNow) cb) := congrArg dec16 hmark
  rw [hpc, dec16, markAfter, inc16] at hback
  omega

/-- Needed: each part of the condition, because breaking it releases a block. -/
theorem keepsClear_of_protects (hw : WellFormed s) (hcb : ∀ op ∈ cb, CallbackOp op)
    (h : Protects s cb) : KeepsClear s cb := by
  have hbal := balanced_of_protects hw hcb h
  have hmark := mark_run (start_lt s) cb hcb
  rw [markAfter_balanced (start_lt s) hbal, start_mark] at hmark
  have hnew : ∀ e ∈ live s, e.mark ≠ inc16 s.markMaxNow := by
    -- such a block is made permanent, and released by the call that closes the permanent mark
    intro e he hm
    obtain ⟨hv, i, hi⟩ := mem_live_iff.mp he
    have h0 : (fbAllocMarkPermanent (fbAllocMark s)).addr[i]? = some { e with permanent := true } := by
      rw [start_get, hi, Option.map_some, setPermanent, if_pos (by simpa using hm)]
    have h1 := keep_permanent hcb h0 hv rfl
    obtain ⟨e', he', hv', -⟩ := h.1 i e hi hv
    rw [protectedCall_get, h1, hmark, Option.map_some, Option.some.injEq, freed, hit] at he'
    simp only [hv, hm, beq_self_eq_true, Bool.and_self, Bool.true_or, if_true] at he'
    rw [← he'] at hv'; exact absurd hv' (by simp)
  refine ⟨hbal, hnew, ?_⟩
  intro pre hpre e he hperm hm
  obtain ⟨post, rfl⟩ := hpre
  obtain ⟨hv, i, hi⟩ := mem_live_iff.mp he
  have hpre' : ∀ op ∈ pre, CallbackOp op := fun o ho => hcb o (by simp [ho])
  have h0 : (fbAllocMarkPermanent (fbAllocMark s)).addr[i]? = some e := by
    rw [start_get, hi, Option.map_some, setPermanent_of_ne (hnew e he)]
  -- after the offending call the block is gone, whether or not it was still there before
  have hdead : Dead i e.p (run step (fbAllocMarkPermanent (fbAllocMark s)) (pre ++ [.freeTillMark])) := by
    rw [run_concat]
    rcases keep_or_dead hpre' h0 hv (hw.fresh e he) with ⟨hk, hlt⟩ | hd
    · have hh : hit false (run step (fbAllocMarkPermanent (fbAllocMark s)) pre).markMaxNow e = true := by
        rw [mark_run (start_lt s) pre hpre', start_mark, hit]
        simp [hv, hm, hperm]
      exact dead_of_hit hh hlt hk
    · exact dead_step trivial hd
  have hpost : ∀ op ∈ post, CallbackOp op := fun o ho => hcb o (by simp [ho])
  have hend := dead_run hpost hdead
  rw [← run_append] at hend
  obtain ⟨e', he', hv', hp'⟩ := h.1 i e hi hv
  rw [protectedCall_get, Option.map_eq_some_iff] at he'
  obtain ⟨e₁, he₁, rfl⟩ := he'
  unfold freed at hv' hp'
  split at hv'
  · exact absurd hv' (by simp)
  · rename_i hh
    rw [if_neg hh] at hp'
    exact hend.2 e₁ he₁ hv' hp'

end Law

/-- The protection law holds of a callback in a reachable state exactly when the callback keeps
    clear of the marks of the blocks that are live. -/
theorem permanentMark_protects_iff (ops cb : List Op) (hcb : ∀ op ∈ cb, CallbackOp op) :
    Protects (runOps ops) cb ↔ KeepsClear (runOps ops) cb :=
  ⟨keepsClear_of_protects (wellFormed_runOps ops) hcb,
    protects_of_keepsClear (wellFormed_runOps ops) hcb⟩

/-- A callback that allocates inside a mark of its own does no harm to the block below. -/
theorem permanentMark_protects_balanced :
    Protects (runOps [.alloc 4 true]) [.mark, .alloc 8 true, .freeTillMark] := by
  refine (permanentMark_protects_iff _ _ ?_).mpr ⟨by decide, by decide, ?_⟩
  · simp [CallbackOp]
  · rintro pre ⟨post, hpost⟩
    have hlen := congrArg List.length hpost
    match pre, hpost with
    | [], h => simp at h
    | [_], h => simp at h
    | [a, b], h =>
      simp only [List.cons_append, List.nil_append, List.cons.injEq] at h
      rw [h.1, h.2.1]
      decide
    | _ :: _ :: _ :: _, _ => simp at hlen

/-- Two closed marks in the callback (one caught exception too many) release the caller's block. -/
theorem permanentMark_releases_caller_block :
    ¬ Protects (runOps [.alloc 4 true]) [.freeTillMark, .freeTillMark] := by
  rintro ⟨hkeep, -⟩
  obtain ⟨e', he', hv', -⟩ := hkeep 0 ⟨true, 1, 0, false, 1⟩ rfl rfl
  have hgone : (protectedCall (runOps [.alloc 4 true]) [.freeTillMark, .freeTillMark]).addr[0]? =
      some ⟨false, 1, 0, false, NULL⟩ := rfl
  rw [hgone, Option.some.injEq] at he'
  rw [← he'] at hv'
  exact absurd hv' (by simp)

/-! ### Stale permanence and drifting counters -/

/-- `fb_alloc_mark_permanent` was called while the block was live and its mark the current one. -/
def MadePermanent (ops : List Op) (p : Ptr) : Prop :=
  ∃ pre, pre ++ [.markPermanent] <+: ops ∧
    ∃ e ∈ live (runOps pre), e.p = p ∧ e.mark = (runOps pre).markMaxNow

/-- Whenever closing a mark keeps a block of that mark, the block itself was made permanent. -/
def NoStalePermanence (ops : List Op) : Prop :=
  ∀ pre, pre ++ [.freeTillMark] <+: ops → ∀ e ∈ live (runOps pre),
    e.mark = (runOps pre).markMaxNow → e ∈ live (runOps (pre ++ [.freeTillMark])) →
    MadePermanent pre e.p

/-- The counter is the number of valid slots, their counts are distinct, and `fb_free` releases the
    most recent live block (the one `malloc` returned last) and no other. -/
structure NoDrift (s : State) : Prop where
  count : s.countMaxNow = (live s).length
  distinct : ((live s).map (·.count)).Nodup
  free : ∀ e ∈ live s, (∀ e' ∈ live s, e'.p ≤ e.p) →
    live (fbFree s) = (live s).filter (·.p ≠ e.p)

/-- The condition under which a call leaves no free slot marked permanent: a mark is made permanent
    only while every slot that carries its number is in use, and no permanent block is released by
    `fb_free` or `fb_free_all`. -/
def KeepsPermanence (s : State) : Op → Prop
  | .markPermanent => ∀ e ∈ s.addr, e.mark = s.markMaxNow → e.valid = true
  | .free => ∀ e ∈ live s, e.count = s.countMaxNow → e.permanent = false
  | .freeAll => ∀ e ∈ live s, e.permanent = false
  | _ => True

instance (s : State) : ∀ op, Decidable (KeepsPermanence s op)
  | .markPermanent =>
    inferInstanceAs (Decidable (∀ e ∈ s.addr, e.mark = s.markMaxNow → e.valid = true))
  | .free => inferInstanceAs (Decidable (∀ e ∈ live s, e.count = s.countMaxNow → e.permanent = false))
  | .freeAll => inferInstanceAs (Decidable (∀ e ∈ live s, e.permanent = false))
  | .init0 | .mark | .alloc _ _ | .allocAll _ | .freeTillMark | .freeTillMarkPastMarkPermanent =>
    .isTrue trivial

instance (s : State) : ∀ op, Decidable (KeepsOrder s op)
  | .mark => inferInstanceAs (Decidable (∀ e ∈ live s, e.mark ≠ inc16 s.markMaxNow))
  | .freeTillMark =>
    inferInstanceAs (Decidable (∀ e ∈ live s, e.mark = s.markMaxNow → e.permanent = false))
  | .init0 | .alloc _ _ | .allocAll _ | .free | .freeAll | .markPermanent
  | .freeTillMarkPastMarkPermanent => .isTrue trivial

/-! (a): a slot marked permanent is in use, by a block that was made permanent. -/

def FlagsEarned (ops : List Op) (s : State) : Prop :=
  ∀ e ∈ s.addr, e.permanent = true → e.valid = true ∧ MadePermanent ops e.p

theorem MadePermanent.concat {ops : List Op} {p : Ptr} (h : MadePermanent ops p) (op : Op) :
    MadePermanent (ops ++ [op]) p := by
  obtain ⟨pre, hpre, he⟩ := h
  exact ⟨pre, hpre.trans (List.prefix_append _ _), he⟩

theorem FlagsEarned.concat {ops : List Op} {s : State} (h : FlagsEarned ops s) (op : Op) :
    FlagsEarned (ops ++ [op]) s :=
  fun e he hp => ⟨(h e he hp).1, (h e he hp).2.concat op⟩

theorem flagsEarned_mallocInto {ops : List Op} {s : State} (h : FlagsEarned ops s) (bytes : ℕ)
    (ok : Bool) : FlagsEarned ops (mallocInto s bytes ok).2 := by
  cases ok with
  | false => exact h
  | true =>
    simp only [mallocInto, Heap.malloc, if_true]
    cases hpl : placeLoop s.heap.next s.markMaxNow (inc16 s.countMaxNow) s.addr with
    | none => exact h
    | some es' =>
      obtain ⟨l, e, r, hs, -, hv, rfl⟩ := placeLoop_eq_some hpl
      intro e' he' hp'
      rcases List.mem_append.mp he' with hm | hm
      · exact h e' (by simp [hs, hm]) hp'
      rcases List.mem_cons.mp hm with rfl | hm
      · -- the slot was free, so it carried no flag
        have := (h e (by simp [hs]) hp').1
        rw [hv] at this; exact absurd this (by simp)
      · exact h e' (by simp [hs, hm]) hp'

theorem flagsEarned_intFree {ops : List Op} {s : State} (h : FlagsEarned ops s) (fp : Bool) :
    FlagsEarned ops (intFbAllocFreeTillMark fp s) := by
  intro e he hp
  simp only [intFbAllocFreeTillMark, freeLoop_addr, List.mem_map] at he
  obtain ⟨e₀, he₀, rfl⟩ := he
  unfold freed at hp ⊢
  split at hp
  · exact absurd hp (by simp)
  · rename_i hh
    rw [if_neg hh]; exact h e₀ he₀ hp

theorem flagsEarned_free {ops : List Op} {s : State} (h : FlagsEarned ops s)
    (hc : KeepsPermanence s .free) : FlagsEarned ops (fbFree s) := by
  unfold fbFree
  cases hf : fbFreeLoop s.countMaxNow s.addr with
  | none => exact h
  | some r =>
    obtain ⟨es', p⟩ := r
    obtain ⟨l, e, r, hs, hv, hcount, -, rfl⟩ := fbFreeLoop_eq_some hf
    intro e' he' hp'
    rcases List.mem_append.mp he' with hm | hm
    · exact h e' (by simp [hs, hm]) hp'
    rcases List.mem_cons.mp hm with rfl | hm
    · have hplain := hc e (List.mem_filter.mpr ⟨by simp [hs], hv⟩) hcount
      exact absurd (hplain.symm.trans hp') (by simp)
    · exact h e' (by simp [hs, hm]) hp'

theorem flagsEarned_freeAll {ops : List Op} {s : State} (h : FlagsEarned ops s)
    (hc : KeepsPermanence s .freeAll) : FlagsEarned ops (fbFreeAll s) := by
  intro e he hp
  simp only [fbFreeAll, fbFreeAllLoop_addr, List.mem_map] at he
  obtain ⟨e₀, he₀, rfl⟩ := he
  cases hv : e₀.valid with
  | false =>
    simp only [hv, Bool.false_eq_true, if_false] at hp ⊢
    exact absurd (h e₀ he₀ hp).1 (by simp [hv])
  | true =>
    simp only [hv, if_true] at hp
    exact absurd ((hc e₀ (List.mem_filter.mpr ⟨he₀, hv⟩)).symm.trans hp) (by simp)

theorem flagsEarned_markPermanent {ops : List Op} (h : FlagsEarned ops (runOps ops))
    (hc : KeepsPermanence (runOps ops) .markPermanent) :
    FlagsEarned (ops ++ [.markPermanent]) (fbAllocMarkPermanent (runOps ops)) := by
  intro e he hp
  simp only [fbAllocMarkPermanent, List.mem_map] at he
  obtain ⟨e₀, he₀, rfl⟩ := he
  rw [setPermanent_valid, setPermanent_p]
  by_cases hm : e₀.mark = (runOps ops).markMaxNow
  · have hv := hc e₀ he₀ hm
    exact ⟨hv, ops, List.prefix_refl _, e₀, List.mem_filter.mpr ⟨he₀, hv⟩, rfl, hm⟩
  · rw [setPermanent_of_ne hm] at hp
    exact h.concat _ e₀ he₀ hp

theorem flagsEarned_step {ops : List Op} {op : Op} (h : FlagsEarned ops (runOps ops))
    (hc : KeepsPermanence (runOps ops) op) :
    FlagsEarned (ops ++ [op]) (step (runOps ops) op) := by
  cases op with
  | init0 =>
    intro e he hp
    simp only [step, exec, fbAllocInit0, List.mem_replicate] at he
    rw [he.2] at hp; exact absurd hp (by simp [Slot.zero])
  | mark => exact h.concat _
  | alloc size ok =>
    simp only [step, exec, fbAlloc]
    split
    · exact h.concat _
    · exact (flagsEarned_mallocInto h _ ok).concat _
  | allocAll ok =>
    simp only [step, exec, (fbAllocAll_eq _ ok).2]
    exact (flagsEarned_mallocInto h _ ok).concat _
  | free => exact (flagsEarned_free h hc).concat _
  | freeAll => exact (flagsEarned_freeAll h hc).concat _
  | freeTillMark => exact (flagsEarned_intFree h false).concat _
  | markPermanent => exact flagsEarned_markPermanent h hc
  | freeTillMarkPastMarkPermanent => exact (flagsEarned_intFree h true).concat _

theorem flagsEarned_run {ops : List Op} (h : StepsMeet step KeepsPermanence State.init ops) :
    FlagsEarned ops (runOps ops) := by
  refine run_hist FlagsEarned (fun is i hi _ hc => flagsEarned_step hi hc) ?_ h
  intro e he hp
  simp only [State.init, List.mem_replicate] at he
  rw [he.2] at hp; exact absurd hp (by simp [Slot.zero])

/-- A block of the current mark that `fb_alloc_free_till_mark` keeps carries the flag. -/
theorem permanent_of_kept {s : State} {e : Slot} (he : e ∈ live s) (hm : e.mark = s.markMaxNow)
    (hk : e ∈ live (step s .freeTillMark)) : e.permanent = true := by
  simp only [live, step, exec, fbAllocFreeTillMark, intFbAllocFreeTillMark, freeLoop_addr,
    filter_freed, List.mem_filter, Bool.and_eq_true] at hk
  have hv := (List.mem_filter.mp he).2
  simpa [hit, hv, hm] using hk.2.2

theorem noStalePermanence_of_run {ops : List Op}
    (h : StepsMeet step KeepsPermanence State.init ops) : NoStalePermanence ops := by
  intro pre hpre e he hm hk
  have hflags := flagsEarned_run (h.of_initial ((List.prefix_append _ _).trans hpre))
  rw [runOps_concat] at hk
  exact (hflags e (List.mem_filter.mp he).1 (permanent_of_kept he hm hk)).2

/-! (b): a represented table does not drift. -/

theorem Represents.distinct {s : State} {a : Abs} {base : ℕ} (h : Represents s a base) :
    ((live s).map (·.count)).Nodup := by
  have hp := h.table.map (·.1)
  rw [List.map_map, List.map_map, show (fun x : ℕ × ℕ × Ptr => x.1) ∘ key = (·.count) from rfl,
    show (fun x : ℕ × ℕ × Ptr => x.1) ∘ shift base = (·.1) from rfl] at hp
  refine hp.symm.nodup (List.nodup_reverse.mp ?_)
  rw [map_num]; exact List.nodup_range'

/-- The youngest pointer is the top of the stack. -/
theorem Represents.top {s : State} {a : Abs} {base : ℕ} (h : Represents s a base) {e : Slot}
    (he : e ∈ live s) (hmax : ∀ e' ∈ live s, e'.p ≤ e.p) :
    ∃ bs, blocks a.items = e.p :: bs := by
  have hep : e.p ∈ blocks a.items := h.ptrs.mem_iff.mp (List.mem_map_of_mem he)
  have hord := h.order
  cases hb : blocks a.items with
  | nil => rw [hb] at hep; exact absurd hep (by simp)
  | cons b bs =>
    rw [hb] at hep hord
    obtain ⟨e', he', hp'⟩ := List.mem_map.mp (h.ptrs.mem_iff.mpr (by rw [hb]; simp : b ∈ _))
    have hle := hmax e' he'
    rcases List.mem_cons.mp hep with heq | hmem
    · exact ⟨bs, by rw [heq]⟩
    · have hlt : e.p < b := List.rel_of_pairwise_cons hord hmem
      exact absurd (hp' ▸ hle) (Nat.not_le_of_lt hlt)

theorem Represents.noDrift {s : State} {a : Abs} {base : ℕ} (h : Represents s a base) :
    NoDrift s where
  count := by rw [h.count, h.length_live]
  distinct := h.distinct
  free := by
    intro e he hmax
    obtain ⟨bs, hb⟩ := h.top he hmax
    have hfree := (represents_free h).ptrs
    have hptrs := h.ptrs
    rw [show blocks ({ a with items := dropTop a.items } : Abs).items = bs by
      rw [blocks_dropTop, hb]; rfl] at hfree
    rw [hb] at hptrs
    unfold fbFree at hfree ⊢
    cases hf : fbFreeLoop s.countMaxNow s.addr with
    | none =>
      simp only [hf] at hfree
      have := (hfree.symm.trans hptrs).length_eq
      simp at this
    | some r =>
      obtain ⟨es', p⟩ := r
      obtain ⟨l, e₀, r, hs, hv, -, -, rfl⟩ := fbFreeLoop_eq_some hf
      have hlive : live s = l.filter (·.valid) ++ e₀ :: r.filter (·.valid) := by
        rw [live, hs, List.filter_append, List.filter_cons_of_pos hv]
      simp only [hf, live, List.filter_append, List.filter_cons, Bool.false_eq_true, if_false]
        at hfree ⊢
      have hnd := h.nodup
      rw [hlive, List.map_append, List.map_cons] at hnd
      have hout := (List.nodup_cons.mp (List.perm_middle.nodup_iff.mp hnd)).1
      rw [← List.map_append] at hout
      -- the slot released is the one of `e`, whose pointer is no longer among the blocks left
      have hp₀ : e₀.p = e.p := by
        by_contra hne
        have hin : e.p ∈ (l.filter (·.valid) ++ r.filter (·.valid)).map (·.p) := by
          rw [hlive] at he
          refine List.mem_map_of_mem (List.mem_append.mpr ?_)
          rcases List.mem_append.mp he with hm | hm
          · exact Or.inl hm
          · rcases List.mem_cons.mp hm with rfl | hm
            · exact absurd rfl hne
            · exact Or.inr hm
        exact (List.nodup_cons.mp (hptrs.nodup h.nodup)).1 (hfree.mem_iff.mp hin)
      have hkeep : (l.filter (·.valid) ++ r.filter (·.valid)).filter (·.p ≠ e.p) =
          l.filter (·.valid) ++ r.filter (·.valid) := by
        refine List.filter_eq_self.mpr (fun x hx => decide_eq_true (fun hxe => hout ?_))
        rw [hp₀, ← hxe]; exact List.mem_map_of_mem hx
      have hgone : ¬ decide (e₀.p ≠ e.p) = true := by simp [hp₀]
      rw [List.filter_append] at hkeep
      change _ = (live s).filter (·.p ≠ e.p)
      rw [hlive, List.filter_append, List.filter_cons, if_neg hgone, hkeep]

theorem noDrift_of_run {ops : List Op} (h : StepsMeet step KeepsOrder State.init ops) :
    NoDrift (runOps ops) := by
  obtain ⟨a, base, hrep⟩ : ∃ a base, Represents (runOps ops) a base :=
    run_inv (fun s => ∃ a base, Represents s a base)
      (fun s op ⟨_, _, hr⟩ hc => ⟨_, _, (represents_step hr op hc).2⟩) ⟨_, _, represents_init⟩ h
  exact hrep.noDrift

/-- Runs of the whole interface. Permanence is never stale in a run that sets the flag on live slots
    only and releases no flagged block by `fb_free` or `fb_free_all`; the counter never drifts in one
    that closes no mark with a permanent block in it and opens none under a number still in use. -/
theorem permanence_and_counter_of_run (ops : List Op) :
    (StepsMeet step KeepsPermanence State.init ops → NoStalePermanence ops) ∧
    (StepsMeet step KeepsOrder State.init ops → ∀ pre, pre <+: ops → NoDrift (runOps pre)) :=
  ⟨noStalePermanence_of_run, fun h _ hpre => noDrift_of_run (h.of_initial hpre)⟩

/-- A run that uses every part of the interface and meets both conditions: twelve blocks, so that no
    slot is free when their mark is made permanent. -/
theorem permanence_and_counter_full_table :
    NoStalePermanence (List.replicate 12 (.alloc 4 true) ++
      [.markPermanent, .mark, .freeTillMark, .freeTillMarkPastMarkPermanent]) ∧
    NoDrift (runOps (List.replicate 12 (.alloc 4 true) ++
      [.markPermanent, .mark, .freeTillMark, .freeTillMarkPastMarkPermanent])) := by
  refine ⟨(permanence_and_counter_of_run _).1 ?_,
    (permanence_and_counter_of_run _).2 ?_ _ (List.prefix_refl _)⟩
  · decide
  · decide

/-- A block takes over a slot whose flag outlived its block: closing its mark then keeps it, and the
    counter says zero with one block live. -/
theorem stale_permanence_and_drift :
    ¬ NoStalePermanence [.alloc 4 true, .markPermanent, .free, .alloc 4 true, .freeTillMark] ∧
    ¬ NoDrift (runOps [.alloc 4 true, .markPermanent, .free, .alloc 4 true, .freeTillMark]) := by
  constructor
  · intro h
    obtain ⟨pre, hpre, e, he, hp, -⟩ := h [.alloc 4 true, .markPermanent, .free, .alloc 4 true]
      (List.prefix_refl _) ⟨true, 1, 0, true, 2⟩ (by decide) rfl (by decide)
    -- the flag was set once, on the first block
    obtain ⟨post, hpost⟩ := hpre
    have hlen := congrArg List.length hpost
    match pre, hpost with
    | [], h => simp at h
    | [a], h =>
      simp only [List.cons_append, List.nil_append, List.cons.injEq] at h
      rw [h.1] at he
      have hfirst : ∀ e ∈ live (runOps [.alloc 4 true]), e.p = 1 := by decide
      exact absurd ((hfirst e he).symm.trans hp) (by decide)
    | [a, b], h => simp at h
    | [a, b, c], h => simp at h
    | _ :: _ :: _ :: _ :: _, _ => simp at hlen
  · intro h
    exact absurd h.count (by decide)

end OpenMV.FbAlloc
