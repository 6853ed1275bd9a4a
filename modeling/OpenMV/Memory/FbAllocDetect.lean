import OpenMV.Memory.FbAllocFilters

/-! Integral images on the fb_alloc stack | scheme:table | source:src/src/openmv/omv/img/integral_mw.c,
    src/src/openmv/omv/img/haar.c

    Each row of a moving integral image is a block of its own, and so are the two arrays of pointers to the
    rows. The detector has two such images of one row more than the window, all of them live at once: the
    table with its twelve slots has room for a window of three rows. -/

namespace OpenMV.FbAlloc
open Schemes

/-! ### The images -/

/-- `mw_image_t`: the two arrays of pointers, and the entries of `data`. -/
structure MwImage where
  w : ℕ
  h : ℕ
  data : Ptr
  swap : Ptr
  rows : List Ptr

/-- What follows a call, unless it raises. -/
def Call.andThen {α β : Type} (c : Call α) (k : α → State → Call β) : Call β :=
  match c with
  | (.ok a, s) => k a s
  | (.error x, s) => (.error x, s)

/-- `n` calls of `fb_alloc`; `malloc` succeeds. -/
def allocRows (size : ℕ) : State → ℕ → Call (List Ptr)
  | s, 0 => (.ok [], s)
  | s, n + 1 =>
    (fbAlloc s size true).andThen fun p s => (allocRows size s n).andThen fun ps s => (.ok (p :: ps), s)

/-- `h * sizeof(*sum->data)`, as `fb_alloc` gets it. -/
def arraySize (h : ℕ) : ℕ := h * 8 % 4294967296

/-- `w * sizeof(**sum->data)`. -/
def rowSize (w : ℕ) : ℕ := w * 4 % 4294967296

/-- `imlib_integral_mw_alloc`. -/
def imlibIntegralMwAlloc (s : State) (w h : ℕ) : Call MwImage :=
  (fbAlloc s (arraySize h) true).andThen fun data s =>
  (fbAlloc s (arraySize h) true).andThen fun swap s =>
  (allocRows (rowSize w) s h).andThen fun rows s => (.ok ⟨w, h, data, swap, rows⟩, s)

/-- `imlib_integral_mw_free`. -/
def imlibIntegralMwFree (s : State) (sum : MwImage) : State := fbFree (fbFree (fbFree^[sum.h] s))

/-- The images of `imlib_detect_objects`. -/
def detectAllocs (s : State) (w h : ℕ) : Call (MwImage × MwImage) :=
  (imlibIntegralMwAlloc s w (h + 1)).andThen fun sum s =>
  (imlibIntegralMwAlloc s w (h + 1)).andThen fun ssq s => (.ok (sum, ssq), s)

/-- `sum->swap[y] = sum->data[(y + n) % sum->h]`, and the arrays are exchanged. -/
def shiftRows (rows : List Ptr) (n : ℕ) : List Ptr :=
  (List.range rows.length).map fun y => rows.getD ((y + n) % rows.length) NULL

/-! ### What is asked of the table -/

/-- A block with room for so many bytes. -/
def Room (s : State) (p : Ptr) (bytes : ℕ) : Prop := p ≠ NULL ∧ ∃ n, (p, n) ∈ s.heap.blocks ∧ bytes ≤ n

/-- The arrays have room for the pointers; and whatever the shifts, each pointer is one of the rows, with room
    for the columns. -/
structure Backed (s : State) (m : MwImage) : Prop where
  data : Room s m.data (m.h * 8)
  swap : Room s m.swap (m.h * 8)
  rows : ∀ (shifts : List ℕ) (y : ℕ), y < m.h → ∃ p ∈ m.rows, (shifts.foldl shiftRows m.rows)[y]? = some p ∧
    (0 < m.w → Room s p (m.w * 4))

/-- Nothing is raised, everything has its block, and the blocks are released again and no others. -/
def DetectFits (s : State) (w h : ℕ) : Prop :=
  ∃ sum ssq t, detectAllocs s w h = (.ok (sum, ssq), t) ∧ Backed t sum ∧ Backed t ssq ∧
    SameTable s (imlibIntegralMwFree (imlibIntegralMwFree t ssq) sum)

/-! ### One call -/

/-- The slots that are not in use. -/
def freeSlots (s : State) : ℕ := s.addr.countP fun e => !e.valid

theorem andThen_ok {α β : Type} {c : Call α} {k : α → State → Call β} {b : β} {t : State}
    (h : c.andThen k = (.ok b, t)) : ∃ a s, c = (.ok a, s) ∧ k a s = (.ok b, t) := by
  obtain ⟨r, s⟩ := c
  cases r with
  | ok a => exact ⟨a, s, rfl, h⟩
  | error x => exact absurd (congrArg Prod.fst h) (by simp [Call.andThen])

theorem fbAlloc_empty {s t : State} {size : ℕ} {p : Ptr} (h : fbAlloc s size true = (.ok p, t)) (hsize : size = 0) :
    p = NULL ∧ t = s := by
  rw [fbAlloc, if_pos hsize, Prod.mk.injEq] at h
  exact ⟨(Except.ok.inj h.1).symm, h.2.symm⟩

theorem fbAlloc_free {s t : State} {size : ℕ} {p : Ptr} (h : fbAlloc s size true = (.ok p, t)) :
    freeSlots t + (if size = 0 then 0 else 1) = freeSlots s := by
  by_cases hsize : size = 0
  · rw [if_pos hsize, (fbAlloc_empty h hsize).2, Nat.add_zero]
  · obtain ⟨l, e, e', r, haddr, -, he, hv, -, -, rfl⟩ := fbAlloc_ok h hsize
    rw [if_neg hsize]
    simp [freeSlots, haddr, List.countP_append, he, hv]
    omega

/-- A call raises only if there is no slot left. -/
theorem fbAlloc_succeeds {s : State} {size : ℕ} (h : size = 0 ∨ 0 < freeSlots s) :
    ∃ p t, fbAlloc s size true = (.ok p, t) := by
  by_cases hsize : size = 0
  · exact ⟨NULL, s, by rw [fbAlloc, if_pos hsize]⟩
  · obtain ⟨e, he, hv⟩ := List.countP_pos_iff.mp (h.resolve_left hsize)
    rw [fbAlloc, if_neg hsize]
    simp only [mallocInto, Heap.malloc, if_true]
    cases hp : placeLoop s.heap.next s.markMaxNow (inc16 s.countMaxNow) s.addr with
    | none =>
      have := placeLoop_eq_none.mp hp e he
      simp [this] at hv
    | some es => exact ⟨_, _, rfl⟩

/-- The block of a pointer, and no other. -/
def Holds (s : State) (p : Ptr) (bytes : ℕ) : Prop :=
  0 < p ∧ p < s.heap.next ∧ ∀ n, (p, n) ∈ s.heap.blocks ↔ n = bytes

theorem Holds.room {s : State} {p : Ptr} {bytes n : ℕ} (h : Holds s p bytes) : Room s p n ↔ n ≤ bytes := by
  obtain ⟨hpos, -, hiff⟩ := h
  constructor
  · rintro ⟨-, m, hm, hn⟩
    rwa [← (hiff m).mp hm]
  · exact fun hn => ⟨Nat.pos_iff_ne_zero.mp hpos, bytes, (hiff bytes).mpr rfl, hn⟩

/-- Room for the next pointer, which is not NULL. -/
structure Usable (s : State) : Prop extends Ready s where
  pos : 0 < s.heap.next

theorem usable_runOps (ops : List Op) : Usable (runOps ops) := ⟨ready_runOps ops, one_le_next ops⟩

section

variable {s t : State} {size : ℕ} {p : Ptr}

theorem fbAlloc_usable (h : fbAlloc s size true = (.ok p, t)) (hs : Usable s) : Usable t := by
  by_cases hsize : size = 0
  · exact (fbAlloc_empty h hsize).2 ▸ hs
  · refine ⟨fbAlloc_ready h hsize hs.toReady, ?_⟩
    obtain ⟨l, e, e', r, -, -, -, -, -, -, rfl⟩ := fbAlloc_ok h hsize
    exact Nat.succ_pos _

theorem fbAlloc_ptr (h : fbAlloc s size true = (.ok p, t)) (hsize : size ≠ 0) : p = s.heap.next := by
  rw [fbAlloc, if_neg hsize] at h
  simp only [mallocInto, Heap.malloc, if_true] at h
  cases hp : placeLoop s.heap.next s.markMaxNow (inc16 s.countMaxNow) s.addr with
  | none => simp [hp] at h
  | some es =>
    rw [hp] at h
    exact (Except.ok.inj (congrArg Prod.fst h)).symm

theorem fbAlloc_holds (h : fbAlloc s size true = (.ok p, t)) (hsize : size ≠ 0) (hs : Usable s) :
    Holds t p (roundUp size) := by
  obtain rfl := fbAlloc_ptr h hsize
  obtain ⟨l, e, e', r, -, -, -, -, -, -, rfl⟩ := fbAlloc_ok h hsize
  refine ⟨hs.pos, Nat.lt_succ_self _, fun n => ?_⟩
  rw [List.mem_cons, Prod.mk.injEq]
  constructor
  · rintro (⟨-, hn⟩ | hold)
    · exact hn
    · exact absurd (hs.fresh _ hold) (Nat.lt_irrefl _)
  · exact fun hn => Or.inl ⟨rfl, hn⟩

theorem Holds.alloc {q : Ptr} {bytes : ℕ} (hq : Holds s q bytes) (h : fbAlloc s size true = (.ok p, t)) :
    Holds t q bytes := by
  by_cases hsize : size = 0
  · exact (fbAlloc_empty h hsize).2 ▸ hq
  · obtain ⟨l, e, e', r, -, -, -, -, -, -, rfl⟩ := fbAlloc_ok h hsize
    obtain ⟨hpos, hlt, hiff⟩ := hq
    refine ⟨hpos, Nat.lt_succ_of_lt hlt, fun n => ?_⟩
    rw [List.mem_cons, Prod.mk.injEq, hiff n]
    exact or_iff_right fun h => absurd h.1 (Nat.ne_of_lt hlt)

end

/-! ### Many calls -/

/-- The calls for these sizes lead from one state to the other. -/
def Allocs (s : State) (sizes : List ℕ) (t : State) : Prop := allocSizes s sizes (fun _ => true) = (.ok (), t)

section

variable {s t u : State} {sizes sizes' : List ℕ} {size w h : ℕ} {p : Ptr}

theorem allocs_cons_iff : Allocs s (size :: sizes) t ↔ ∃ p u, fbAlloc s size true = (.ok p, u) ∧ Allocs u sizes t := by
  constructor
  · exact allocSizes_cons_ok
  · rintro ⟨p, u, hp, hu⟩
    rw [Allocs, allocSizes, hp]
    exact hu

theorem allocs_of_fbAlloc (h : fbAlloc s size true = (.ok p, t)) : Allocs s [size] t :=
  allocs_cons_iff.mpr ⟨p, t, h, rfl⟩

theorem Allocs.append (h : Allocs s sizes u) (h' : Allocs u sizes' t) : Allocs s (sizes ++ sizes') t := by
  induction sizes generalizing s with
  | nil =>
    obtain rfl : s = u := congrArg Prod.snd h
    exact h'
  | cons size sizes ih =>
    obtain ⟨p, v, hp, hv⟩ := allocs_cons_iff.mp h
    exact allocs_cons_iff.mpr ⟨p, v, hp, ih hv⟩

theorem Allocs.spec (h : Allocs s sizes t) :
    (Usable s → Usable t) ∧ (∀ q bytes, Holds s q bytes → Holds t q bytes) ∧
      freeSlots t + (sizes.filter (· ≠ 0)).length = freeSlots s := by
  induction sizes generalizing s with
  | nil =>
    obtain rfl : s = t := congrArg Prod.snd h
    exact ⟨id, fun _ _ => id, rfl⟩
  | cons size sizes ih =>
    obtain ⟨p, u, hp, hu⟩ := allocs_cons_iff.mp h
    obtain ⟨husable, hkeeps, hslots⟩ := ih hu
    refine ⟨fun hs => husable (fbAlloc_usable hp hs), fun q bytes hq => hkeeps q bytes (hq.alloc hp), ?_⟩
    have hone := fbAlloc_free hp
    by_cases hsize : size = 0
    · rw [if_pos hsize] at hone
      rw [List.filter_cons_of_neg (by simpa using hsize)]
      omega
    · rw [if_neg hsize] at hone
      rw [List.filter_cons_of_pos (by simpa using hsize), List.length_cons]
      omega

theorem allocRows_spec : ∀ {n : ℕ} {s t : State} {ps : List Ptr}, allocRows size s n = (.ok ps, t) → Usable s →
    ps.length = n ∧ Allocs s (List.replicate n size) t ∧ (size ≠ 0 → ∀ p ∈ ps, Holds t p (roundUp size))
  | 0, s, t, ps, h, _ => by
      obtain ⟨hps, rfl⟩ := Prod.mk.injEq .. ▸ h
      obtain rfl := (Except.ok.inj hps).symm
      exact ⟨rfl, rfl, fun _ _ hp => absurd hp List.not_mem_nil⟩
  | n + 1, s, t, ps, h, hs => by
      obtain ⟨p, u, hp, hrest⟩ := andThen_ok h
      obtain ⟨ps', v, hps, hlast⟩ := andThen_ok hrest
      obtain ⟨heq, rfl⟩ := Prod.mk.injEq .. ▸ hlast
      obtain rfl := (Except.ok.inj heq).symm
      obtain ⟨hlen, hallocs, hholds⟩ := allocRows_spec hps (fbAlloc_usable hp hs)
      refine ⟨by rw [List.length_cons, hlen], (allocs_of_fbAlloc hp).append hallocs, fun hsize => ?_⟩
      rw [List.forall_mem_cons]
      exact ⟨hallocs.spec.2.1 _ _ (fbAlloc_holds hp hsize hs), hholds hsize⟩

theorem allocRows_succeeds : ∀ {n : ℕ} {s : State}, (size = 0 ∨ n ≤ freeSlots s) →
    ∃ ps t, allocRows size s n = (.ok ps, t)
  | 0, s, _ => ⟨[], s, rfl⟩
  | n + 1, s, h => by
      obtain ⟨p, u, hp⟩ := fbAlloc_succeeds (s := s) (h.imp_right fun h => Nat.lt_of_lt_of_le (Nat.succ_pos n) h)
      have hfree := fbAlloc_free hp
      obtain ⟨ps, t, hps⟩ := allocRows_succeeds (n := n) (s := u) (by
        rcases h with h | h
        · exact Or.inl h
        · split_ifs at hfree with h0
          · exact Or.inl h0
          · right
            omega)
      exact ⟨p :: ps, t, by rw [allocRows, hp, Call.andThen, hps, Call.andThen]⟩

/-- The sizes of an image. -/
def mwSizes (w h : ℕ) : List ℕ := [arraySize h] ++ ([arraySize h] ++ List.replicate h (rowSize w))

theorem mwAlloc_spec {m : MwImage} (halloc : imlibIntegralMwAlloc s w h = (.ok m, t)) (hs : Usable s) :
    m.w = w ∧ m.h = h ∧ m.rows.length = h ∧ Allocs s (mwSizes w h) t ∧
      (arraySize h = 0 → m.data = NULL) ∧
      (arraySize h ≠ 0 → Holds t m.data (roundUp (arraySize h)) ∧ Holds t m.swap (roundUp (arraySize h))) ∧
      (rowSize w ≠ 0 → ∀ p ∈ m.rows, Holds t p (roundUp (rowSize w))) := by
  obtain ⟨data, s₁, hdata, hrest⟩ := andThen_ok halloc
  obtain ⟨swap, s₂, hswap, hrest⟩ := andThen_ok hrest
  obtain ⟨rows, s₃, hrows, hlast⟩ := andThen_ok hrest
  obtain ⟨heq, rfl⟩ := Prod.mk.injEq .. ▸ hlast
  obtain rfl := (Except.ok.inj heq).symm
  have hs₁ := fbAlloc_usable hdata hs
  obtain ⟨hlen, hallocs, hholds⟩ := allocRows_spec hrows (fbAlloc_usable hswap hs₁)
  obtain ⟨-, hkeeps, -⟩ := hallocs.spec
  refine ⟨rfl, rfl, hlen, (allocs_of_fbAlloc hdata).append ((allocs_of_fbAlloc hswap).append hallocs), ?_, ?_, hholds⟩
  · exact fun h0 => (fbAlloc_empty hdata h0).1
  · exact fun h0 => ⟨hkeeps _ _ ((fbAlloc_holds hdata h0 hs).alloc hswap), hkeeps _ _ (fbAlloc_holds hswap h0 hs₁)⟩

theorem mwAlloc_succeeds (hslots : 2 + (if rowSize w = 0 then 0 else h) ≤ freeSlots s) :
    ∃ m t, imlibIntegralMwAlloc s w h = (.ok m, t) := by
  obtain ⟨data, s₁, hdata⟩ := fbAlloc_succeeds (s := s) (by omega)
  have h1 := fbAlloc_free hdata
  obtain ⟨swap, s₂, hswap⟩ := fbAlloc_succeeds (s := s₁) (by split_ifs at h1 <;> omega)
  have h2 := fbAlloc_free hswap
  obtain ⟨rows, s₃, hrows⟩ := allocRows_succeeds (show rowSize w = 0 ∨ h ≤ freeSlots s₂ by
    split_ifs at h1 h2 hslots <;> omega)
  exact ⟨⟨w, h, data, swap, rows⟩, s₃, by
    rw [imlibIntegralMwAlloc, hdata, Call.andThen, hswap, Call.andThen, hrows, Call.andThen]⟩

end

/-! ### The shifts -/

theorem length_shiftRows (rows : List Ptr) (n : ℕ) : (shiftRows rows n).length = rows.length := by simp [shiftRows]

theorem mem_of_mem_shiftRows {rows : List Ptr} {n : ℕ} {p : Ptr} (hp : p ∈ shiftRows rows n) : p ∈ rows := by
  obtain ⟨y, hy, rfl⟩ := List.mem_map.mp hp
  rw [List.mem_range] at hy
  have hlt : (y + n) % rows.length < rows.length := Nat.mod_lt _ (by omega)
  rw [List.getD_eq_getElem?_getD, List.getElem?_eq_getElem hlt]
  exact List.getElem_mem hlt

theorem shifts_spec (rows : List Ptr) (shifts : List ℕ) :
    (shifts.foldl shiftRows rows).length = rows.length ∧ ∀ p ∈ shifts.foldl shiftRows rows, p ∈ rows := by
  induction shifts generalizing rows with
  | nil => exact ⟨rfl, fun p hp => hp⟩
  | cons n shifts ih =>
    obtain ⟨hlen, hmem⟩ := ih (shiftRows rows n)
    exact ⟨hlen.trans (length_shiftRows rows n), fun p hp => mem_of_mem_shiftRows (hmem p hp)⟩

/-! ### The whole table -/

theorem length_addr_mallocInto (s : State) (bytes : ℕ) (ok : Bool) :
    (mallocInto s bytes ok).2.addr.length = s.addr.length := by
  cases ok with
  | false => rfl
  | true =>
    simp only [mallocInto, Heap.malloc, if_true]
    cases hp : placeLoop s.heap.next s.markMaxNow (inc16 s.countMaxNow) s.addr with
    | none => rfl
    | some es =>
      obtain ⟨l, e, r, hs, -, -, rfl⟩ := placeLoop_eq_some hp
      simp [hs]

theorem length_addr_step {s : State} (h : s.addr.length = FB_MAX_ALLOC_TIMES) (op : Op) :
    (step s op).addr.length = FB_MAX_ALLOC_TIMES := by
  cases op with
  | init0 => exact List.length_replicate
  | mark => exact h
  | alloc size ok =>
    rw [step, exec, fbAlloc]
    split_ifs
    · exact h
    · exact (length_addr_mallocInto s _ ok).trans h
  | allocAll ok =>
    rw [step, exec, (fbAllocAll_eq s ok).2]
    exact (length_addr_mallocInto s _ ok).trans h
  | free =>
    simp only [step, exec, fbFree]
    cases hf : fbFreeLoop s.countMaxNow s.addr with
    | none => exact h
    | some r =>
      obtain ⟨es, p⟩ := r
      obtain ⟨l, e, r, hs, -, -, -, rfl⟩ := fbFreeLoop_eq_some hf
      rw [← h, hs]
      simp
  | freeAll => simp [step, exec, fbFreeAll, fbFreeAllLoop_addr, h]
  | freeTillMark => simp [step, exec, fbAllocFreeTillMark, intFbAllocFreeTillMark, freeLoop_addr, h]
  | markPermanent => simp [step, exec, fbAllocMarkPermanent, h]
  | freeTillMarkPastMarkPermanent =>
    simp [step, exec, fbAllocFreeTillMarkPastMarkPermanent, intFbAllocFreeTillMark, freeLoop_addr, h]

theorem length_addr_runOps (ops : List Op) : (runOps ops).addr.length = FB_MAX_ALLOC_TIMES := by
  induction ops using List.reverseRecOn with
  | nil => rfl
  | append_singleton ops op ih =>
    rw [runOps_concat]
    exact length_addr_step ih op

theorem freeSlots_of_live_nil {s : State} (hlive : live s = []) : freeSlots s = s.addr.length := by
  rw [freeSlots, List.countP_eq_length]
  intro e he
  have := List.filter_eq_nil_iff.mp hlive e he
  simpa using this

theorem clear_of_live_nil : ∀ (cs : List ℕ) {es : List Slot}, (∀ e ∈ es, ¬ e.valid = true) → Clear cs es
  | [], es, _ => clear_nil es
  | _ :: _, [], _ => trivial
  | c :: cs, e :: es, h => by
      rw [List.forall_mem_cons] at h
      rw [Clear, if_neg h.1]
      exact clear_of_live_nil cs h.2

section

variable {s t : State} {sizes : List ℕ}

/-- Empty blocks leave no trace. -/
theorem Allocs.filter (h : Allocs s sizes t) : Allocs s (sizes.filter (· ≠ 0)) t := by
  induction sizes generalizing s with
  | nil => exact h
  | cons size sizes ih =>
    obtain ⟨p, u, hp, hu⟩ := allocs_cons_iff.mp h
    by_cases hsize : size = 0
    · obtain ⟨-, rfl⟩ := fbAlloc_empty hp hsize
      rw [List.filter_cons_of_neg (by simpa using hsize)]
      exact ih hu
    · rw [List.filter_cons_of_pos (by simpa using hsize)]
      exact allocs_cons_iff.mpr ⟨p, u, hp, ih hu⟩

/-- In a table without other blocks `fb_free` finds its own, and does nothing once they are gone. -/
theorem Allocs.free (h : Allocs s sizes t) (hs : Ready s) (hlive : live s = []) (hslots : freeSlots s < 65535)
    {n : ℕ} (hn : (sizes.filter (· ≠ 0)).length ≤ n) : SameTable s (fbFree^[n] t) := by
  have hrun := h.filter
  have hcount := h.spec.2.2
  set blocks := sizes.filter (· ≠ 0) with hblocks
  have hsame : blocks.filter (· ≠ 0) = blocks := by
    rw [hblocks, List.filter_filter]
    simp
  have hback : runFilter s ⟨blocks, n⟩ (fun _ => true) = (.ok (), fbFree^[n] t) := by
    rw [runFilter, hrun]
  have hiff := runFilter_same_iff hs (b := ⟨blocks, n⟩) (show blocks.length < 65535 by omega)
    (by rw [hsame]; exact hn) (by rw [hback]; rfl)
  rw [hback] at hiff
  refine hiff.mpr ⟨clear_of_live_nil _ fun e he => List.filter_eq_nil_iff.mp hlive e he, fun _ e he => ?_⟩
  rw [hlive] at he
  exact absurd he List.not_mem_nil

end

theorem mwFree_twice (t : State) {sum ssq : MwImage} {h : ℕ} (hsum : sum.h = h) (hssq : ssq.h = h) :
    imlibIntegralMwFree (imlibIntegralMwFree t ssq) sum = fbFree^[(h + 2) + (h + 2)] t := by
  have hone : ∀ u : State, fbFree (fbFree (fbFree^[h] u)) = fbFree^[h + 2] u := fun u => by
    rw [Function.iterate_succ_apply', Function.iterate_succ_apply']
  rw [imlibIntegralMwFree, imlibIntegralMwFree, hsum, hssq, hone, hone, ← Function.iterate_add_apply]

theorem length_filter_mwSizes (w h : ℕ) : ((mwSizes w h).filter (· ≠ 0)).length =
    (if arraySize h = 0 then 0 else 2) + (if rowSize w = 0 then 0 else h) := by
  by_cases h1 : arraySize h = 0
  · by_cases h2 : rowSize w = 0 <;> simp [mwSizes, h1, h2]
  · by_cases h2 : rowSize w = 0
    · simp [mwSizes, h1, h2]
    · simp [mwSizes, h1, h2]
      omega

theorem backed_of_holds {t : State} {m : MwImage} (hlen : m.rows.length = m.h)
    (harray : Holds t m.data (roundUp (arraySize m.h)) ∧ Holds t m.swap (roundUp (arraySize m.h)))
    (hrows : rowSize m.w ≠ 0 → ∀ p ∈ m.rows, Holds t p (roundUp (rowSize m.w)))
    (hw : m.w < 32768) (hh : m.h < 536870912) : Backed t m := by
  have hfit : m.h * 8 ≤ roundUp (arraySize m.h) := by
    unfold roundUp arraySize
    omega
  refine ⟨harray.1.room.mpr hfit, harray.2.room.mpr hfit, fun shifts y hy => ?_⟩
  obtain ⟨hslen, hmem⟩ := shifts_spec m.rows shifts
  have hlt : y < (shifts.foldl shiftRows m.rows).length := by omega
  refine ⟨_, hmem _ (List.getElem_mem hlt), List.getElem?_eq_getElem hlt, fun hpos => ?_⟩
  have hrow : rowSize m.w = m.w * 4 := Nat.mod_eq_of_lt (by omega)
  refine (hrows (by omega) _ (hmem _ (List.getElem_mem hlt))).room.mpr ?_
  unfold roundUp
  omega

/-- The images of the detector fit exactly if the window has at most three rows, or no row has a column. -/
theorem detect_fits_iff (ops : List Op) (hlive : live (runOps ops) = []) {w h : ℕ} (hw : w < 32768) :
    DetectFits (runOps ops) w h ↔ h ≤ 3 ∨ w = 0 ∧ h + 1 < 536870912 := by
  have hs := usable_runOps ops
  have hslots : freeSlots (runOps ops) = 12 := (freeSlots_of_live_nil hlive).trans (length_addr_runOps ops)
  generalize runOps ops = s at hlive hs hslots
  have hrow : rowSize w = w * 4 := Nat.mod_eq_of_lt (by omega)
  constructor
  · rintro ⟨sum, ssq, t, hok, hsum, -, -⟩
    obtain ⟨m, u, hm, hrest⟩ := andThen_ok hok
    obtain ⟨m', v, hm', hlast⟩ := andThen_ok hrest
    simp only [Prod.mk.injEq, Except.ok.injEq] at hlast
    obtain ⟨⟨rfl, rfl⟩, rfl⟩ := hlast
    obtain ⟨hmw, hmh, -, hallocs, hnull, harray, -⟩ := mwAlloc_spec hm hs
    obtain ⟨husable, -, hcount⟩ := hallocs.spec
    obtain ⟨-, -, -, hallocs', -, -, -⟩ := mwAlloc_spec hm' (husable hs)
    obtain ⟨-, hkeeps, hcount'⟩ := hallocs'.spec
    rw [length_filter_mwSizes] at hcount hcount'
    by_cases h0 : arraySize (h + 1) = 0
    · exact absurd (hnull h0) hsum.data.1
    · have hroom := ((hkeeps _ _ (harray h0).1).room.mp hsum.data)
      have hlt : roundUp (arraySize (h + 1)) < 4294967296 := Nat.mod_lt _ (by decide)
      rw [if_neg h0] at hcount hcount'
      split_ifs at hcount hcount'
      · right
        omega
      · left
        omega
  · intro hcond
    have harray : arraySize (h + 1) ≠ 0 := by
      unfold arraySize
      omega
    have hrows : (if rowSize w = 0 then 0 else h + 1) ≤ 4 := by
      split_ifs <;> omega
    obtain ⟨sum, u, hm⟩ := mwAlloc_succeeds (s := s) (w := w) (h := h + 1) (by omega)
    obtain ⟨hmw, hmh, hlen, hallocs, -, hholds, hrowsHold⟩ := mwAlloc_spec hm hs
    obtain ⟨husable, -, hcount⟩ := hallocs.spec
    rw [length_filter_mwSizes, if_neg harray] at hcount
    obtain ⟨ssq, t, hm'⟩ := mwAlloc_succeeds (s := u) (w := w) (h := h + 1) (by omega)
    obtain ⟨hmw', hmh', hlen', hallocs', -, hholds', hrowsHold'⟩ := mwAlloc_spec hm' (husable hs)
    obtain ⟨-, hkeeps, -⟩ := hallocs'.spec
    refine ⟨sum, ssq, t, ?_, ?_, ?_, ?_⟩
    · rw [detectAllocs, hm, Call.andThen, hm', Call.andThen]
    · refine backed_of_holds (by omega) ?_ ?_ (by omega) (by omega)
      · rw [hmh]
        exact ⟨hkeeps _ _ (hholds harray).1, hkeeps _ _ (hholds harray).2⟩
      · rw [hmw]
        exact fun h0 p hp => hkeeps _ _ (hrowsHold h0 p hp)
    · refine backed_of_holds (by omega) ?_ ?_ (by omega) (by omega)
      · rw [hmh']
        exact hholds' harray
      · rw [hmw']
        exact hrowsHold'
    · rw [mwFree_twice t hmh hmh']
      refine (hallocs.append hallocs').free hs.toReady hlive (by omega) ?_
      rw [List.filter_append, List.length_append, length_filter_mwSizes, if_neg harray]
      split_ifs <;> omega

/-- A window of three rows. -/
theorem detect_three_rows_fit : DetectFits (runOps []) 320 3 :=
  (detect_fits_iff [] (by decide) (by decide)).mpr (Or.inl (by decide))

/-- The window of the built-in face cascade has 24 rows. -/
theorem detect_frontalface_raises :
    ¬ DetectFits (runOps []) 320 24 ∧ (detectAllocs (runOps []) 320 24).raised = some .fbAllocFail2 := by
  have hraised : (detectAllocs (runOps []) 320 24).raised = some .fbAllocFail2 := by decide
  refine ⟨fun ⟨sum, ssq, t, h, _⟩ => ?_, hraised⟩
  rw [h] at hraised
  exact nomatch hraised

end OpenMV.FbAlloc
