import OpenMV.Memory.FbAllocStack

/-! fb_alloc under scripts | scheme:invariant | source:src/src/openmv/omv/fb_alloc.c,
    src/src/projects/app_k210/applications/omv_main.c

    The blocks of the C heap as a ledger: what was freed and what is in the table are together what
    `malloc` handed out, each block once. Only `fb_alloc_init0` can break it, which clears the table
    without a look at it. -/

namespace OpenMV.FbAlloc
open Schemes
open scoped List

/-- The pointers a call passes to `free`, in order. -/
def freedBy (s : State) : Op → List Ptr
  | .alloc size ok =>
    if size ≠ 0 ∧ ok = true ∧ placeLoop s.heap.next s.markMaxNow (inc16 s.countMaxNow) s.addr = none then
      [s.heap.next] else []
  | .allocAll ok =>
    if ok = true ∧ placeLoop s.heap.next s.markMaxNow (inc16 s.countMaxNow) s.addr = none then
      [s.heap.next] else []
  | .free => (fbFreeLoop s.countMaxNow s.addr).toList.map (·.2)
  | .freeAll => (s.addr.filter (·.valid)).map (·.p)
  | .freeTillMark => (s.addr.filter (hit false s.markMaxNow)).map (·.p)
  | .freeTillMarkPastMarkPermanent => (s.addr.filter (hit true s.markMaxNow)).map (·.p)
  | .init0 | .mark | .markPermanent => []

/-- All a run has passed to `free`. -/
def freedPtrs : State → List Op → List Ptr
  | _, [] => []
  | s, op :: ops => freedBy s op ++ freedPtrs (step s op) ops

/-- The pointers in the table. -/
def ptrs (s : State) : List Ptr := (live s).map (·.p)

/-- The number of the next `malloc` call. -/
def State.next (s : State) : ℕ := s.heap.next

/-- What a call got from `malloc`. -/
def mallocs (s s' : State) : List Ptr := List.range' s.next (s'.next - s.next)

/-- Every pointer ever returned by `malloc` is in a valid slot, or has been passed to `free` exactly
    once. -/
def Accounted (ops : List Op) : Prop :=
  ∀ p : ℕ, 0 < p → p < (runOps ops).next → p ∈ ptrs (runOps ops) ∨ (freedPtrs State.init ops).count p = 1

/-! ### The calls of the main thread -/

/-- One time round `RunREPL`: what is done at the prompt until a script is ready, and what the script does
    until it ends or is stopped. -/
structure Round where
  repl : List Op
  script : List Op

/-- The calls `omv_main_thread_entry` makes and lets its scripts make; `raised` says whether an exception
    came out of `main.py`. -/
def omvMainThreadEntry (cmmLoad mainPy : List Op) (raised : Bool) (rounds : List Round) : List Op :=
  [.init0] ++ cmmLoad ++ mainPy ++ (if raised then [.freeAll] else []) ++
    rounds.flatMap fun r => r.repl ++ [.init0] ++ r.script

/-! ### The calls of free -/

theorem mem_blocks_filter (h : Heap) (ps : List Ptr) (p : Ptr) :
    p ∈ (h.blocks.filter (·.1 ∉ ps)).map (·.1) ↔ p ∈ h.blocks.map (·.1) ∧ p ∉ ps := by
  simp only [List.mem_map, List.mem_filter, decide_eq_true_eq]
  constructor
  · rintro ⟨x, ⟨hx, hps⟩, rfl⟩
    exact ⟨⟨x, hx, rfl⟩, hps⟩
  · rintro ⟨⟨x, hx, rfl⟩, hps⟩
    exact ⟨x, ⟨hx, hps⟩, rfl⟩

theorem mem_blocks_free (h : Heap) (q p : Ptr) :
    p ∈ (h.free q).blocks.map (·.1) ↔ p ∈ h.blocks.map (·.1) ∧ p ∉ [q] := by
  rw [← mem_blocks_filter]
  simp [Heap.free]

/-! ### The ledger -/

/-- What the table and `malloc` give is what the call frees and what it leaves in the table. -/
def Balanced (s : State) (op : Op) : Prop :=
  freedBy s op ++ ptrs (step s op) ~ ptrs s ++ mallocs s (step s op)

theorem mallocs_self {s s' : State} (h : s'.next = s.next) : mallocs s s' = [] := by
  rw [mallocs, h, Nat.sub_self]
  rfl

theorem mallocs_succ {s s' : State} (h : s'.next = s.next + 1) : mallocs s s' = [s.heap.next] := by
  rw [mallocs, h, Nat.add_sub_cancel_left]
  rfl

/-- A call that does not free and does not allocate. -/
theorem balanced_of_same {s : State} {op : Op} (hfreed : freedBy s op = []) (hptrs : ptrs (step s op) = ptrs s)
    (hnext : (step s op).next = s.next) : Balanced s op := by
  rw [Balanced, hfreed, hptrs, mallocs_self hnext, List.append_nil]
  exact List.Perm.refl _

theorem balanced_mallocInto (s : State) (bytes : ℕ) (ok : Bool) :
    (if ok = true ∧ placeLoop s.heap.next s.markMaxNow (inc16 s.countMaxNow) s.addr = none then
        [s.heap.next] else []) ++ ptrs (mallocInto s bytes ok).2 ~
      ptrs s ++ mallocs s (mallocInto s bytes ok).2 := by
  cases ok with
  | false =>
    have hnone : mallocs s (mallocInto s bytes false).2 = [] := mallocs_self rfl
    rw [if_neg (by simp), hnone, List.append_nil]
    exact List.Perm.refl _
  | true =>
    simp only [mallocInto, Heap.malloc, if_true]
    cases hpl : placeLoop s.heap.next s.markMaxNow (inc16 s.countMaxNow) s.addr with
    | none =>
      rw [if_pos ⟨trivial, rfl⟩, mallocs_succ rfl]
      exact List.perm_append_comm
    | some es' =>
      have hplace := (live_place hpl).map (·.2.2)
      rw [List.map_map, List.map_cons, List.map_map] at hplace
      rw [if_neg (by simp), List.nil_append, mallocs_succ rfl]
      exact hplace.trans (List.perm_append_singleton _ _).symm

theorem balanced_free (s : State) : Balanced s .free := by
  cases hf : fbFreeLoop s.countMaxNow s.addr with
  | none =>
    have hsame : step s .free = s := by
      simp only [step, exec, fbFree, hf]
    exact balanced_of_same (by rw [freedBy, hf]; rfl) (by rw [hsame]) (by rw [hsame])
  | some r =>
    obtain ⟨es', p⟩ := r
    obtain ⟨l, e, r, hs, hv, -, hp, rfl⟩ := fbFreeLoop_eq_some hf
    have hnext : (fbFree s).next = s.next := by
      rw [fbFree, hf]
      rfl
    have hbefore : ptrs s = (l.filter (·.valid)).map (·.p) ++ p :: (r.filter (·.valid)).map (·.p) := by
      rw [ptrs, live, hs, List.filter_append, List.filter_cons_of_pos hv, List.map_append, List.map_cons, hp]
    have hafter : ptrs (fbFree s) = (l.filter (·.valid)).map (·.p) ++ (r.filter (·.valid)).map (·.p) := by
      rw [ptrs, live, fbFree, hf, ← List.map_append]
      simp only [List.filter_append, List.filter_cons, Bool.false_eq_true, if_false]
    have hfreed : freedBy s .free = [p] := by
      rw [freedBy, hf]
      rfl
    show freedBy s .free ++ ptrs (fbFree s) ~ ptrs s ++ mallocs s (fbFree s)
    rw [hfreed, mallocs_self hnext, List.append_nil, hbefore, hafter, List.singleton_append]
    exact List.perm_middle.symm

theorem balanced_intFree (s : State) (fp : Bool) :
    (s.addr.filter (hit fp s.markMaxNow)).map (·.p) ++ ptrs (intFbAllocFreeTillMark fp s) ~
      ptrs s ++ mallocs s (intFbAllocFreeTillMark fp s) := by
  have hnext : (intFbAllocFreeTillMark fp s).next = s.next := by
    rw [intFbAllocFreeTillMark, State.next, freeLoop_heap]
    rfl
  -- a slot that is released was valid
  have hhit : s.addr.filter (hit fp s.markMaxNow) = (live s).filter (hit fp s.markMaxNow) := by
    rw [live, List.filter_filter]
    refine List.filter_congr fun e _ => ?_
    cases hv : e.valid
    · simp [hit, hv]
    · rw [Bool.and_true]
  have hkept : live (intFbAllocFreeTillMark fp s) = (live s).filter (fun e => !hit fp s.markMaxNow e) := by
    simp only [live, intFbAllocFreeTillMark]
    rw [freeLoop_addr, filter_freed, List.filter_filter]
    exact List.filter_congr fun e _ => Bool.and_comm _ _
  rw [mallocs_self hnext, List.append_nil, hhit, ptrs, hkept, ← List.map_append]
  exact (List.filter_append_perm _ _).map _

theorem balanced_freeAll (s : State) : Balanced s .freeAll := by
  have hnext : (fbFreeAll s).next = s.next := by
    rw [fbFreeAll, State.next, fbFreeAllLoop_heap]
    rfl
  have hnil : ptrs (fbFreeAll s) = [] := by
    rw [ptrs, live_fbFreeAll, List.map_nil]
  show ptrs s ++ ptrs (fbFreeAll s) ~ ptrs s ++ mallocs s (fbFreeAll s)
  rw [mallocs_self hnext, hnil]

/-- Every call but `fb_alloc_init0` keeps the ledger. -/
theorem balanced_step (s : State) {op : Op} (hop : op = .init0 → live s = []) : Balanced s op := by
  cases op with
  | init0 => exact balanced_of_same rfl (by rw [ptrs, ptrs, hop rfl]; rfl) rfl
  | mark => exact balanced_of_same rfl rfl rfl
  | alloc size ok =>
    rw [Balanced, freedBy, step, exec, fbAlloc]
    by_cases h0 : size = 0
    · rw [if_pos h0, if_neg (fun h => h.1 h0), mallocs_self rfl, List.append_nil]
      exact List.Perm.refl _
    · simp only [ne_eq, h0, not_false_eq_true, true_and]
      exact balanced_mallocInto s (roundUp size) ok
  | allocAll ok =>
    rw [Balanced, freedBy, step, exec, (fbAllocAll_eq s ok).2]
    exact balanced_mallocInto s OMV_FB_ALLOC_SIZE ok
  | free => exact balanced_free s
  | freeAll => exact balanced_freeAll s
  | freeTillMark => exact balanced_intFree s false
  | markPermanent =>
    refine balanced_of_same rfl ?_ rfl
    simp [ptrs, live, step, exec, fbAllocMarkPermanent, List.filter_map, Function.comp_def]
  | freeTillMarkPastMarkPermanent => exact balanced_intFree s true

theorem mem_blocks_mallocInto (s : State) (bytes : ℕ) (ok : Bool) (p : Ptr) :
    p ∈ (mallocInto s bytes ok).2.heap.blocks.map (·.1) ↔
      (p ∈ s.heap.blocks.map (·.1) ∨ p ∈ mallocs s (mallocInto s bytes ok).2) ∧
      p ∉ (if ok = true ∧ placeLoop s.heap.next s.markMaxNow (inc16 s.countMaxNow) s.addr = none then
        [s.heap.next] else []) := by
  cases ok with
  | false =>
    have hnone : mallocs s (mallocInto s bytes false).2 = [] := mallocs_self rfl
    rw [if_neg (by simp), hnone]
    simp [mallocInto, Heap.malloc]
  | true =>
    simp only [mallocInto, Heap.malloc, if_true]
    cases hpl : placeLoop s.heap.next s.markMaxNow (inc16 s.countMaxNow) s.addr with
    | none =>
      rw [if_pos ⟨trivial, rfl⟩, mallocs_succ rfl]
      refine (mem_blocks_free _ _ p).trans (and_congr_left' ?_)
      simp [or_comm]
    | some es' =>
      rw [if_neg (by simp), mallocs_succ rfl]
      simp [or_comm]

/-- `freedBy` lists the calls of `free`: the heap loses just these blocks. -/
theorem mem_blocks_step (s : State) (op : Op) (p : Ptr) : p ∈ (step s op).heap.blocks.map (·.1) ↔
    (p ∈ s.heap.blocks.map (·.1) ∨ p ∈ mallocs s (step s op)) ∧ p ∉ freedBy s op := by
  have hfilter : ∀ (s' : State) (ps : List Ptr),
      s'.heap = { s.heap with blocks := s.heap.blocks.filter (·.1 ∉ ps) } → (p ∈ s'.heap.blocks.map (·.1) ↔
        (p ∈ s.heap.blocks.map (·.1) ∨ p ∈ mallocs s s') ∧ p ∉ ps) := by
    intro s' ps hheap
    have hnext : s'.next = s.next := by
      rw [State.next, hheap]
      rfl
    rw [hheap, mem_blocks_filter, mallocs_self hnext, or_iff_left List.not_mem_nil]
  cases op with
  | alloc size ok =>
    by_cases h0 : size = 0
    · exact hfilter _ _ (by simp [step, exec, fbAlloc, freedBy, h0])
    · simp only [step, exec, fbAlloc, freedBy, h0, ne_eq, not_false_eq_true, true_and, if_false]
      exact mem_blocks_mallocInto s (roundUp size) ok p
  | allocAll ok =>
    rw [step, exec, freedBy, (fbAllocAll_eq s ok).2]
    exact mem_blocks_mallocInto s OMV_FB_ALLOC_SIZE ok p
  | free =>
    cases hf : fbFreeLoop s.countMaxNow s.addr with
    | none => exact hfilter _ _ (by simp [step, exec, fbFree, freedBy, hf])
    | some r => exact hfilter _ _ (by simp [step, exec, fbFree, freedBy, hf, Heap.free])
  | freeAll => exact hfilter _ _ (fbFreeAllLoop_heap s.addr s.heap)
  | freeTillMark => exact hfilter _ _ (freeLoop_heap false s.markMaxNow s.addr s.countMaxNow s.heap)
  | freeTillMarkPastMarkPermanent =>
    exact hfilter _ _ (freeLoop_heap true s.markMaxNow s.addr s.countMaxNow s.heap)
  | init0 | mark | markPermanent => exact hfilter _ _ (Heap.filter_nil s.heap).symm

/-! ### Whole runs -/

theorem freedPtrs_concat (s : State) (op : Op) : ∀ ops : List Op,
    freedPtrs s (ops ++ [op]) = freedPtrs s ops ++ freedBy (run step s ops) op
  | [] => List.append_nil _
  | o :: ops => by
    rw [List.cons_append, freedPtrs, freedPtrs, freedPtrs_concat _ op ops, run_cons, List.append_assoc]

theorem next_le_step (s : State) (op : Op) : s.next ≤ (step s op).next := by
  have hm : ∀ bytes ok, s.next ≤ (mallocInto s bytes ok).2.next := by
    intro bytes ok
    cases ok with
    | false => exact Nat.le_refl _
    | true =>
      simp only [mallocInto, Heap.malloc, if_true]
      cases placeLoop s.heap.next s.markMaxNow (inc16 s.countMaxNow) s.addr with
      | none => exact Nat.le_succ _
      | some es' => exact Nat.le_succ _
  cases op with
  | alloc size ok =>
    rw [step, exec, fbAlloc]
    split_ifs
    · exact Nat.le_refl _
    · exact hm _ ok
  | allocAll ok =>
    rw [step, exec, (fbAllocAll_eq s ok).2]
    exact hm _ ok
  | free =>
    simp only [step, exec, fbFree]
    split
    · exact Nat.le_refl _
    · exact Nat.le_refl _
  | freeAll => exact Nat.le_of_eq (by simp only [step, exec, State.next, fbFreeAll, fbFreeAllLoop_heap])
  | freeTillMark =>
    exact Nat.le_of_eq (by simp only [step, exec, State.next, fbAllocFreeTillMark, intFbAllocFreeTillMark,
      freeLoop_heap])
  | freeTillMarkPastMarkPermanent =>
    exact Nat.le_of_eq (by
      simp only [step, exec, State.next, fbAllocFreeTillMarkPastMarkPermanent, intFbAllocFreeTillMark, freeLoop_heap])
  | _ => exact Nat.le_refl _

/-- The ledger: what was freed and what is in the table is what `malloc` handed out, each block once. -/
def Ledger (ops : List Op) : Prop :=
  freedPtrs State.init ops ++ ptrs (runOps ops) ~ List.range' 1 ((runOps ops).next - 1)

theorem one_le_next (ops : List Op) : 1 ≤ (runOps ops).next := by
  induction ops using List.reverseRecOn with
  | nil => exact Nat.le_refl 1
  | append_singleton ops op ih =>
    rw [runOps_concat]
    exact ih.trans (next_le_step _ op)

theorem ledger_concat {ops : List Op} {op : Op} (h : Ledger ops) (hop : op = .init0 → live (runOps ops) = []) :
    Ledger (ops ++ [op]) := by
  have hbal := balanced_step (runOps ops) hop
  have h1 := one_le_next ops
  have h2 := next_le_step (runOps ops) op
  rw [Ledger, freedPtrs_concat, runOps_concat, List.append_assoc]
  calc freedPtrs State.init ops ++ (freedBy (runOps ops) op ++ ptrs (step (runOps ops) op))
      ~ freedPtrs State.init ops ++ (ptrs (runOps ops) ++ mallocs (runOps ops) (step (runOps ops) op)) :=
        hbal.append_left _
    _ = (freedPtrs State.init ops ++ ptrs (runOps ops)) ++ mallocs (runOps ops) (step (runOps ops) op) :=
        (List.append_assoc _ _ _).symm
    _ ~ List.range' 1 ((runOps ops).next - 1) ++ mallocs (runOps ops) (step (runOps ops) op) :=
        List.Perm.append_right _ h
    _ = List.range' 1 ((step (runOps ops) op).next - 1) := by
        rw [mallocs]
        have hstart : (runOps ops).next = 1 + ((runOps ops).next - 1) := by omega
        nth_rewrite 2 [hstart]
        rw [List.range'_append_1]
        exact congrArg (List.range' 1) (by omega)

theorem Ledger.count {ops : List Op} (h : Ledger ops) {p : ℕ} (h1 : 0 < p)
    (h2 : p < (runOps ops).next) :
    (freedPtrs State.init ops).count p + (ptrs (runOps ops)).count p = 1 := by
  rw [← List.count_append, h.count_eq, List.count_eq_one_of_mem (List.nodup_range' ..)]
  rw [List.mem_range'_1]
  omega

theorem Ledger.range {ops : List Op} (h : Ledger ops) {p : ℕ} (hp : p ∈ ptrs (runOps ops)) :
    0 < p ∧ p < (runOps ops).next := by
  have hrange := h.mem_iff.1 (List.mem_append_right _ hp)
  rw [List.mem_range'_1] at hrange
  omega

theorem Ledger.accounted {ops : List Op} (h : Ledger ops) : Accounted ops := by
  intro p h1 h2
  have hcount := h.count h1 h2
  by_cases hp : p ∈ ptrs (runOps ops)
  · exact Or.inl hp
  · rw [List.count_eq_zero_of_not_mem hp] at hcount
    exact Or.inr hcount

/-- A block that is in the table when `fb_alloc_init0` clears it is lost. -/
theorem Ledger.live_nil {ops : List Op} (h : Ledger ops) (hacc : Accounted (ops ++ [.init0])) :
    live (runOps ops) = [] := by
  by_contra hne
  obtain ⟨e, he⟩ := List.exists_mem_of_ne_nil _ hne
  have hp : e.p ∈ ptrs (runOps ops) := List.mem_map_of_mem he
  obtain ⟨h1, h2⟩ := h.range hp
  have hcount := h.count h1 h2
  have hpos := List.count_pos_iff.2 hp
  rcases hacc e.p h1 (by rw [runOps_concat]; exact h2) with hin | hfreed
  · rw [runOps_concat] at hin
    simp [ptrs, live, step, exec, fbAllocInit0, Slot.zero] at hin
  · rw [freedPtrs_concat, freedBy, List.append_nil] at hfreed
    omega

theorem accounted_iff (ops : List Op) : (∀ pre, pre <+: ops → Accounted pre) ↔
    ∀ pre, pre ++ [.init0] <+: ops → live (runOps pre) = [] := by
  constructor
  · intro hacc
    have hledger : ∀ pre, pre <+: ops → Ledger pre := by
      intro pre hpre
      induction pre using List.reverseRecOn with
      | nil => exact List.Perm.refl _
      | append_singleton pre op ih =>
        have hl := ih ((List.prefix_append _ _).trans hpre)
        exact ledger_concat hl fun hop => hl.live_nil (hop ▸ hacc _ hpre)
    exact fun pre hpre => (hledger pre ((List.prefix_append _ _).trans hpre)).live_nil (hacc _ hpre)
  · intro hclear pre hpre
    refine Ledger.accounted ?_
    induction pre using List.reverseRecOn with
    | nil => exact List.Perm.refl _
    | append_singleton pre op ih =>
      exact ledger_concat (ih ((List.prefix_append _ _).trans hpre)) fun hop => hclear pre (hop ▸ hpre)

/-- Whatever the scripts do and wherever they are stopped: no block is lost and none freed twice exactly if
    the table is empty each time it is cleared for a new script. -/
theorem scripts_accounted_iff (cmmLoad mainPy : List Op) (raised : Bool) (rounds : List Round) :
    (∀ pre, pre <+: omvMainThreadEntry cmmLoad mainPy raised rounds → Accounted pre) ↔
    ∀ pre, pre ++ [.init0] <+: omvMainThreadEntry cmmLoad mainPy raised rounds → live (runOps pre) = [] :=
  accounted_iff _

/-- A script that is stopped with a block in use, and the next one. -/
theorem script_block_lost :
    ¬ ∀ pre, pre <+: omvMainThreadEntry [] [] false [⟨[], [.alloc 4 true]⟩, ⟨[], []⟩] → Accounted pre := by
  intro h
  have hacc := h _ (List.prefix_refl _) 1 (by decide) (by decide)
  revert hacc
  decide

end OpenMV.FbAlloc
