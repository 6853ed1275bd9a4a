import Mathlib.Data.List.Infix
import Mathlib.Data.List.Perm.Basic
import OpenMV.Schemes.MarkStack
import OpenMV.Memory.FbAlloc

/-! fb_alloc refines a stack | scheme:refinement | source:src/src/openmv/omv/fb_alloc.c

    The abstract machine is a stack of blocks with in-line marks (`MarkStack`). A table represents a
    stack when its valid slots are, in some order, the numbered blocks of the stack: the count of a
    slot is the number of its block from the bottom, its mark the level the block was pushed at. The
    marks of the table are 16-bit, so a level is only seen modulo 65536 and above a `base` that moves
    when a mark is closed that was never opened; what keeps the representation unambiguous is that no
    live block lies 65536 levels below the top (`span`).

        table                                stack
        exec op  ──▶  table'                 Abs.exec op  ──▶  stack'
          │ Represents    │ Represents
          ▼               ▼                                             -/

namespace OpenMV.FbAlloc
open Schemes Schemes.MarkStack
open scoped List

/-- The abstract machine: the stack, and the number the next `malloc` call has. -/
structure Abs where
  items : List (Item Ptr)
  next : Ptr

def Abs.init : Abs := ⟨[], 1⟩

/-- Pushing a block: `fb_alloc` and `fb_alloc_all` once the size is not zero. -/
def Abs.push (a : Abs) (ok : Bool) : Option MemoryError × Abs :=
  if ok then
    if (blocks a.items).length = FB_MAX_ALLOC_TIMES then (some .fbAllocFail2, { a with next := a.next + 1 })
    else (none, ⟨.block a.next :: a.items, a.next + 1⟩)
  else (some .fbAllocFail, a)

/-- What each call is for. -/
def Abs.exec (a : Abs) : Op → Option MemoryError × Abs
  | .init0 => (none, { a with items := [] })
  | .mark => (none, { a with items := .mark :: a.items })
  | .alloc size ok => if size = 0 then (none, a) else a.push ok
  | .allocAll ok => a.push ok
  | .free => (none, { a with items := dropTop a.items })
  | .freeAll => (none, { a with items := [] })
  | .freeTillMark => (none, { a with items := popMark a.items })
  | .markPermanent => (none, a)
  | .freeTillMarkPastMarkPermanent => (none, { a with items := popMark a.items })

def Abs.step (a : Abs) (op : Op) : Abs := (a.exec op).2

def Abs.runOps (ops : List Op) : Abs := Schemes.run Abs.step Abs.init ops

/-- What the counters of a slot say about its block. -/
def key (e : Slot) : ℕ × ℕ × Ptr := (e.count, e.mark, e.p)

/-- A numbered block of the stack, with its level as the table stores it. -/
def shift (base : ℕ) (x : ℕ × ℕ × Ptr) : ℕ × ℕ × Ptr := (x.1, (base + x.2.1) % 65536, x.2.2)

/-- The table represents the stack, its marks counted from `base`. -/
structure Represents (s : State) (a : Abs) (base : ℕ) : Prop where
  table : (live s).map key ~ (entries a.items).map (shift base)
  count : s.countMaxNow = (blocks a.items).length
  mark : s.markMaxNow = (base + level a.items) % 65536
  span : ∀ x ∈ entries a.items, level a.items - x.2.1 < 65536
  size : s.addr.length = FB_MAX_ALLOC_TIMES
  next : s.heap.next = a.next
  fresh : ∀ p ∈ blocks a.items, p < a.next
  order : (blocks a.items).Pairwise (· > ·)

/-- Every block `malloc` handed out and not freed yet is live in the table, and none is lost. -/
def NoLeak (s : State) : Prop := s.heap.blocks.map (·.1) ~ (live s).map (·.p)

theorem represents_init : Represents State.init Abs.init 0 where
  table := List.Perm.refl _
  count := rfl
  mark := rfl
  span := by simp [Abs.init, entries]
  size := by simp [State.init]
  next := rfl
  fresh := by simp [Abs.init, blocks]
  order := by simp [Abs.init, blocks]

/-! ### Reading a represented table -/

section Read
variable {s : State} {a : Abs} {base : ℕ}

theorem Represents.length_live (h : Represents s a base) :
    (live s).length = (blocks a.items).length := by
  have := h.table.length_eq
  rwa [List.length_map, List.length_map, length_entries] at this

theorem Represents.live_le (h : Represents s a base) :
    (blocks a.items).length ≤ FB_MAX_ALLOC_TIMES := by
  rw [← h.length_live, ← h.size]
  exact List.length_filter_le _ _

theorem Represents.ptrs (h : Represents s a base) : (live s).map (·.p) ~ blocks a.items := by
  have := h.table.map (·.2.2)
  rwa [List.map_map, List.map_map, show (fun x : ℕ × ℕ × Ptr => x.2.2) ∘ key = (·.p) from rfl,
    show (fun x : ℕ × ℕ × Ptr => x.2.2) ∘ shift base = (·.2.2) from rfl, map_entries] at this

/-- Every live slot is a numbered block. -/
theorem Represents.entry_of_live (h : Represents s a base) {e : Slot} (he : e ∈ live s) :
    ∃ x ∈ entries a.items, shift base x = key e := by
  have := h.table.mem_iff.mp (List.mem_map_of_mem he)
  simpa using this

theorem Represents.live_of_entry (h : Represents s a base) {x : ℕ × ℕ × Ptr}
    (hx : x ∈ entries a.items) : ∃ e ∈ live s, key e = shift base x := by
  have := h.table.mem_iff.mpr (List.mem_map_of_mem hx)
  simpa using this

/-- The live slots of the current mark are the blocks of the current level. -/
theorem Represents.mark_eq_iff (h : Represents s a base) {x : ℕ × ℕ × Ptr}
    (hx : x ∈ entries a.items) :
    (shift base x).2.1 = s.markMaxNow ↔ x.2.1 = level a.items := by
  have h1 := level_le hx
  have h2 := h.span x hx
  rw [h.mark, shift]
  constructor
  · intro he; simp only at he; omega
  · intro he; rw [he]

end Read

/-! ### Each operation keeps the representation -/

section Ops
variable {s : State} {a : Abs} {base : ℕ}

theorem represents_mark (h : Represents s a base)
    (hc : ∀ e ∈ live s, e.mark ≠ inc16 s.markMaxNow) :
    Represents (fbAllocMark s) { a with items := .mark :: a.items } base where
  table := h.table
  count := h.count
  mark := by
    simp only [fbAllocMark, inc16, level, h.mark]
    omega
  span := by
    intro x hx
    obtain ⟨e, he, hk⟩ := h.live_of_entry (x := x) hx
    have hne := hc e he
    have hm : e.mark = (base + x.2.1) % 65536 := congrArg (·.2.1) hk
    have h1 := level_le (t := a.items) hx
    have h2 := h.span x hx
    rw [hm, inc16, h.mark] at hne
    simp only [level]
    omega
  size := h.size
  next := h.next
  fresh := h.fresh
  order := h.order

/-- Filling a free slot adds one block to the live ones. -/
theorem live_place {es es' : List Slot} {p : Ptr} {m c : ℕ} (h : placeLoop p m c es = some es') :
    (es'.filter (·.valid)).map key ~ (c, m, p) :: (es.filter (·.valid)).map key := by
  obtain ⟨l, e, r, rfl, -, he, rfl⟩ := placeLoop_eq_some h
  simp only [List.filter_append, List.filter_cons, he, List.map_append, if_true,
    Bool.false_eq_true, if_false, List.map_cons]
  exact List.perm_middle

theorem represents_mallocInto (h : Represents s a base) (bytes : ℕ) (ok : Bool) :
    (mallocInto s bytes ok).raised = (a.push ok).1 ∧
      Represents (mallocInto s bytes ok).2 (a.push ok).2 base := by
  have hle := h.live_le
  cases ok with
  | false => exact ⟨rfl, h⟩
  | true =>
    simp only [mallocInto, Abs.push, Heap.malloc, if_true, h.next]
    cases hpl : placeLoop a.next s.markMaxNow (inc16 s.countMaxNow) s.addr with
    | none =>
      -- every slot is valid, so the stack holds `FB_MAX_ALLOC_TIMES` blocks
      have hfull : (blocks a.items).length = FB_MAX_ALLOC_TIMES := by
        rw [← h.length_live, ← h.size, live, List.filter_eq_self.mpr (placeLoop_eq_none.mp hpl)]
      simp only [if_pos hfull]
      exact ⟨rfl, { h with
        next := rfl
        fresh := fun p hp => Nat.lt_succ_of_lt (h.fresh p hp) }⟩
    | some es' =>
      have hlen : es'.length = s.addr.length := by
        obtain ⟨l, e, r, hs, -, -, rfl⟩ := placeLoop_eq_some hpl
        simp [hs]
      have hfree : (blocks a.items).length ≠ FB_MAX_ALLOC_TIMES := by
        intro hfull
        obtain ⟨l, e, r, hs, -, he, -⟩ := placeLoop_eq_some hpl
        have hl : (s.addr.filter (·.valid)).length = s.addr.length := by
          rw [h.size, ← hfull]; exact h.length_live
        have hev := List.filter_eq_self.mp (List.filter_sublist.eq_of_length hl) e (by simp [hs])
        rw [he] at hev; exact absurd hev (by simp)
      have hc : inc16 s.countMaxNow = (blocks a.items).length + 1 := by
        rw [inc16, h.count]
        simp only [FB_MAX_ALLOC_TIMES] at hle
        omega
      simp only [if_neg hfree]
      refine ⟨rfl, ?_, ?_, h.mark, ?_, hlen.trans h.size, rfl, ?_, ?_⟩
      · -- table
        refine (live_place hpl).trans ?_
        rw [hc, h.mark]
        exact List.Perm.cons _ h.table
      · -- count
        simp only [hc, blocks, List.length_cons]
      · -- span
        intro x hx
        rcases List.mem_cons.mp hx with rfl | hx
        · simp [level]
        · exact h.span x hx
      · -- fresh
        intro p hp
        rcases List.mem_cons.mp hp with rfl | hp
        · exact Nat.lt_succ_self _
        · exact Nat.lt_succ_of_lt (h.fresh p hp)
      · -- order
        exact List.Pairwise.cons (fun p hp => h.fresh p hp) h.order

theorem represents_alloc (h : Represents s a base) (size : ℕ) (ok : Bool) :
    (fbAlloc s size ok).raised = (a.exec (.alloc size ok)).1 ∧
      Represents (fbAlloc s size ok).2 (a.exec (.alloc size ok)).2 base := by
  unfold fbAlloc Abs.exec
  by_cases hz : size = 0
  · simp only [if_pos hz]; exact ⟨rfl, h⟩
  · simp only [if_neg hz]; exact represents_mallocInto h _ ok

theorem fbAllocAll_eq (s : State) (ok : Bool) :
    (fbAllocAll s ok).raised = (mallocInto s OMV_FB_ALLOC_SIZE ok).raised ∧
      (fbAllocAll s ok).2 = (mallocInto s OMV_FB_ALLOC_SIZE ok).2 := by
  unfold fbAllocAll
  obtain ⟨r, s'⟩ := mallocInto s OMV_FB_ALLOC_SIZE ok
  cases r <;> exact ⟨rfl, rfl⟩

theorem represents_allocAll (h : Represents s a base) (ok : Bool) :
    (fbAllocAll s ok).raised = (a.push ok).1 ∧ Represents (fbAllocAll s ok).2 (a.push ok).2 base := by
  obtain ⟨h1, h2⟩ := fbAllocAll_eq s ok
  rw [h1, h2]
  exact represents_mallocInto h _ ok

/-- `fb_free` finds the slot of the top block, because no other live slot carries that count. -/
theorem represents_free (h : Represents s a base) :
    Represents (fbFree s) { a with items := dropTop a.items } base := by
  have hspan : ∀ x ∈ entries (dropTop a.items), level (dropTop a.items) - x.2.1 < 65536 := by
    intro x hx
    rw [entries_dropTop] at hx
    rw [level_dropTop]
    exact h.span x (List.mem_of_mem_tail hx)
  have hfresh : ∀ p ∈ blocks (dropTop a.items), p < a.next := by
    intro p hp
    rw [blocks_dropTop] at hp
    exact h.fresh p (List.mem_of_mem_tail hp)
  have horder : (blocks (dropTop a.items)).Pairwise (· > ·) := by
    rw [blocks_dropTop]; exact h.order.tail
  have hmark : s.markMaxNow = (base + level (dropTop a.items)) % 65536 := by
    rw [level_dropTop]; exact h.mark
  unfold fbFree
  cases hf : fbFreeLoop s.countMaxNow s.addr with
  | none =>
    -- then the stack is empty: the top block would carry the current count
    have hnil : entries a.items = [] := by
      cases he : entries a.items with
      | nil => rfl
      | cons x xs =>
        obtain ⟨e, hel, hk⟩ := h.live_of_entry (x := x) (by simp [he])
        have hce : e.count = s.countMaxNow := by
          rw [h.count, ← num_head he]; exact congrArg (·.1) hk
        rw [live, List.mem_filter] at hel
        exact absurd hce (fbFreeLoop_eq_none.mp hf e hel.1 hel.2)
    have hnil' : entries (dropTop a.items) = [] := by rw [entries_dropTop, hnil]; rfl
    have hlen := length_entries a.items
    have hlen' := length_entries (dropTop a.items)
    rw [hnil, List.length_nil] at hlen
    rw [hnil', List.length_nil] at hlen'
    refine ⟨?_, ?_, hmark, hspan, h.size, h.next, hfresh, horder⟩
    · rw [hnil', ← hnil]; exact h.table
    · rw [← hlen', hlen]; exact h.count
  | some r =>
    obtain ⟨es', p⟩ := r
    obtain ⟨l, e, r, hs, hv, hc, -, rfl⟩ := fbFreeLoop_eq_some hf
    have hlive : live s = l.filter (·.valid) ++ e :: r.filter (·.valid) := by
      rw [live, hs, List.filter_append, List.filter_cons_of_pos hv]
    have hel : e ∈ live s := by rw [hlive]; simp
    obtain ⟨x, hx, hk⟩ := h.entry_of_live hel
    -- the slot found is the one of the top block
    obtain ⟨y, ys, he⟩ : ∃ y ys, entries a.items = y :: ys := by
      cases he : entries a.items with
      | nil => rw [he] at hx; exact absurd hx (by simp)
      | cons y ys => exact ⟨y, ys, rfl⟩
    have hxy : x = y := by
      have hx1 : x.1 = y.1 := by
        rw [num_head he, ← h.count, ← hc]; exact congrArg (·.1) hk
      rw [he] at hx
      rcases List.mem_cons.mp hx with hxy | hxs
      · exact hxy
      · have hsort := entries_sorted a.items
        rw [he] at hsort
        have := (List.rel_of_pairwise_cons hsort hxs).1
        omega
    have hpos : 0 < (blocks a.items).length := by rw [← length_entries, he]; simp
    have hle := h.live_le
    refine ⟨?_, ?_, hmark, hspan, ?_, h.next, hfresh, horder⟩
    · -- table
      rw [entries_dropTop, he, List.tail_cons]
      have htab := h.table
      rw [hlive, he, List.map_append, List.map_cons, List.map_cons, ← hxy, hk] at htab
      have := List.Perm.cons_inv (List.perm_middle.symm.trans htab)
      simpa [live, List.filter_append] using this
    · -- count
      simp only [blocks_dropTop, List.length_tail, h.count, dec16]
      simp only [FB_MAX_ALLOC_TIMES] at hle
      omega
    · -- size
      rw [← h.size, hs]; simp

theorem filter_freed (fp : Bool) (m : ℕ) (es : List Slot) :
    (es.map (freed fp m)).filter (·.valid) = es.filter (fun e => e.valid && !hit fp m e) := by
  induction es with
  | nil => rfl
  | cons e es ih =>
    rw [List.map_cons, List.filter_cons, List.filter_cons, ih]
    cases hh : hit fp m e <;> cases hv : e.valid <;> simp [freed, hh, hv]

theorem dec16_iterate {n k : ℕ} (hk : k ≤ n) (hn : n < 65536) : dec16^[k] n = n - k := by
  induction k with
  | zero => rfl
  | succ k ih =>
    rw [Function.iterate_succ_apply', ih (by omega), dec16]
    omega

/-- Where the marks are counted from after a mark is closed. -/
def rebase (a : Abs) (base : ℕ) : ℕ := if level a.items = 0 then base + 65535 else base

/-- Closing a mark releases the top level, provided no block of it is kept. -/
theorem represents_intFree (h : Represents s a base) {fp : Bool}
    (hc : ∀ e ∈ live s, e.mark = s.markMaxNow → fp = true ∨ e.permanent = false) :
    Represents (intFbAllocFreeTillMark fp s) { a with items := popMark a.items }
      (rebase a base) := by
  have hle := h.live_le
  -- on a live slot `hit` is the test of the mark
  have hhit : ∀ e ∈ s.addr, (e.valid && !hit fp s.markMaxNow e) =
      (e.valid && !decide (e.mark = s.markMaxNow)) := by
    intro e he
    cases hv : e.valid
    · rfl
    · by_cases hm : e.mark = s.markMaxNow
      · rcases hc e (List.mem_filter.mpr ⟨he, hv⟩) hm with hfp | hp
        · simp [hit, hv, hm, hfp]
        · simp [hit, hv, hm, hp]
      · simp [hit, hm]
  have hlive : live (intFbAllocFreeTillMark fp s) =
      (live s).filter (fun e => !decide (e.mark = s.markMaxNow)) := by
    simp only [live, intFbAllocFreeTillMark]
    rw [freeLoop_addr, filter_freed, List.filter_filter]
    refine List.filter_congr (fun e he => ?_)
    rw [hhit e he, Bool.and_comm]
  have htable : (live (intFbAllocFreeTillMark fp s)).map key ~
      (entries (popMark a.items)).map (shift base) := by
    have hp := h.table.filter (fun k => !decide (k.2.1 = s.markMaxNow))
    rw [List.filter_map, List.filter_map] at hp
    rw [hlive, entries_popMark]
    refine hp.trans (List.Perm.of_eq (congrArg _ (List.filter_congr (fun x hx => ?_))))
    have h1 := h.mark_eq_iff hx
    have h2 := level_le hx
    simp only [Function.comp_apply, h1]
    rcases Nat.lt_or_eq_of_le h2 with hlt | heq
    · simp [hlt, Nat.ne_of_lt hlt]
    · simp [heq]
  have hshift : (entries (popMark a.items)).map (shift base) =
      (entries (popMark a.items)).map (shift (rebase a base)) := by
    unfold rebase
    by_cases hl : level a.items = 0
    · rw [popMark_of_level_zero hl]; rfl
    · rw [if_neg hl]
  refine ⟨?_, ?_, ?_, ?_, ?_, ?_, ?_, ?_⟩
  · -- table
    rw [← hshift]; exact htable
  · -- count
    have hlen := htable.length_eq
    rw [List.length_map, List.length_map, length_entries, hlive] at hlen
    simp only [intFbAllocFreeTillMark]
    rw [freeLoop_count, ← hlen, h.count, ← h.length_live]
    have hk : s.addr.countP (fun e => e.valid && e.mark == s.markMaxNow) =
        (live s).countP (fun e => decide (e.mark = s.markMaxNow)) := by
      rw [live, List.countP_filter]
      exact List.countP_congr (fun e _ => by simp [and_comm])
    have hsplit := (live s).length_eq_countP_add_countP (fun e => decide (e.mark = s.markMaxNow))
    rw [← List.countP_eq_length_filter, hk, dec16_iterate List.countP_le_length (by
      rw [h.length_live]; simp only [FB_MAX_ALLOC_TIMES] at hle; omega)]
    simp only [decide_eq_true_eq] at hsplit
    have : (live s).countP (fun e => !decide (e.mark = s.markMaxNow)) =
        (live s).countP (fun e => decide ¬ e.mark = s.markMaxNow) :=
      List.countP_congr (fun e _ => by simp)
    omega
  · -- mark
    simp only [intFbAllocFreeTillMark, h.mark, dec16, level_popMark, rebase]
    split <;> omega
  · -- span
    intro x hx
    rw [entries_popMark, List.mem_filter] at hx
    have := h.span x hx.1
    rw [level_popMark]
    omega
  · -- size
    simp only [intFbAllocFreeTillMark, freeLoop_addr, List.length_map, h.size]
  · -- next
    simp only [intFbAllocFreeTillMark, freeLoop_heap, h.next]
  · -- fresh
    exact fun p hp => h.fresh p ((blocks_popMark_suffix a.items).subset hp)
  · -- order
    exact h.order.sublist (blocks_popMark_suffix a.items).sublist

theorem represents_clear {s' : State} (h : Represents s a base) (hl : live s' = [])
    (hc : s'.countMaxNow = 0) (hm : s'.markMaxNow = 0) (hs : s'.addr.length = FB_MAX_ALLOC_TIMES)
    (hn : s'.heap.next = s.heap.next) : Represents s' { a with items := [] } 0 where
  table := by rw [hl]; exact List.Perm.refl _
  count := hc
  mark := hm
  span := by simp [entries]
  size := hs
  next := hn.trans h.next
  fresh := by simp [blocks]
  order := by simp [blocks]

theorem live_fbFreeAll (s : State) : live (fbFreeAll s) = [] := by
  simp only [live, fbFreeAll, fbFreeAllLoop_addr]
  refine List.filter_eq_nil_iff.mpr (fun e he => ?_)
  obtain ⟨e₀, -, rfl⟩ := List.mem_map.mp he
  cases hv : e₀.valid <;> simp [hv]

theorem represents_markPermanent (h : Represents s a base) :
    Represents (fbAllocMarkPermanent s) a base where
  table := by
    have : (live (fbAllocMarkPermanent s)).map key = (live s).map key := by
      simp only [live, fbAllocMarkPermanent, List.filter_map, List.map_map]
      congr 1
      · funext e; simp [key]
      · congr 1; funext e; simp
    rw [this]; exact h.table
  count := h.count
  mark := h.mark
  span := h.span
  size := by simp only [fbAllocMarkPermanent, List.length_map, h.size]
  next := h.next
  fresh := h.fresh
  order := h.order

end Ops

/-! ### Runs -/

/-- The condition under which a call keeps the order of the blocks readable from the counters: a new
    mark does not take a number that a live block still carries, and no block of the mark that is
    closed is kept. -/
def KeepsOrder (s : State) : Op → Prop
  | .mark => ∀ e ∈ live s, e.mark ≠ inc16 s.markMaxNow
  | .freeTillMark => ∀ e ∈ live s, e.mark = s.markMaxNow → e.permanent = false
  | _ => True

/-- Where the marks are counted from after a call. -/
def baseAfter (a : Abs) (base : ℕ) : Op → ℕ
  | .init0 => 0
  | .freeAll => 0
  | .freeTillMark => rebase a base
  | .freeTillMarkPastMarkPermanent => rebase a base
  | _ => base

/-- One call: the table raises what the stack raises, and represents the stack afterwards. -/
theorem represents_step {s : State} {a : Abs} {base : ℕ} (h : Represents s a base) (op : Op)
    (hc : KeepsOrder s op) :
    (exec s op).1 = (a.exec op).1 ∧ Represents (step s op) (a.step op) (baseAfter a base op) := by
  cases op with
  | init0 =>
    refine ⟨rfl, represents_clear h ?_ rfl rfl (by simp [step, exec, fbAllocInit0]) rfl⟩
    simp [live, step, exec, fbAllocInit0, Slot.zero]
  | mark => exact ⟨rfl, represents_mark h hc⟩
  | alloc size ok => exact represents_alloc h size ok
  | allocAll ok => exact represents_allocAll h ok
  | free => exact ⟨rfl, represents_free h⟩
  | freeAll =>
    refine ⟨rfl, represents_clear h (live_fbFreeAll s) rfl rfl ?_ ?_⟩
    · simp only [step, exec, fbFreeAll, fbFreeAllLoop_addr, List.length_map, h.size]
    · simp only [step, exec, fbFreeAll, fbFreeAllLoop_heap]
  | freeTillMark => exact ⟨rfl, represents_intFree h (fun e he hm => Or.inr (hc e he hm))⟩
  | markPermanent => exact ⟨rfl, represents_markPermanent h⟩
  | freeTillMarkPastMarkPermanent => exact ⟨rfl, represents_intFree h (fun _ _ _ => Or.inl rfl)⟩

/-! ### The heap -/

section Heap
variable {s : State} {a : Abs} {base : ℕ}

theorem Represents.nodup (h : Represents s a base) : ((live s).map (·.p)).Nodup :=
  h.ptrs.symm.nodup (h.order.imp (fun hgt => Nat.ne_of_gt hgt))

theorem Represents.lt_next (h : Represents s a base) {p : Ptr} (hp : p ∈ (live s).map (·.p)) :
    p < s.heap.next := by
  rw [h.next]; exact h.fresh p (h.ptrs.mem_iff.mp hp)

/-- Freeing exactly the blocks that leave the table keeps the heap equal to the table. -/
theorem noLeak_filter {hp : Heap} {L : List Slot} (hL : hp.blocks.map (·.1) ~ L.map (·.p))
    (hnd : (L.map (·.p)).Nodup) (q : Slot → Bool) :
    (hp.blocks.filter (·.1 ∉ (L.filter q).map (·.p))).map (·.1) ~
      (L.filter (fun e => !q e)).map (·.p) := by
  have hf := hL.filter (fun p => decide (p ∉ (L.filter q).map (·.p)))
  rw [List.filter_map, List.filter_map] at hf
  refine hf.trans (List.Perm.of_eq (congrArg _ (List.filter_congr (fun e he => ?_))))
  cases hq : q e
  · simp only [Function.comp_apply, Bool.not_false, decide_eq_true_eq, List.mem_map,
      List.mem_filter, not_exists, not_and]
    rintro e' ⟨he', hq'⟩ hpe
    rw [List.inj_on_of_nodup_map hnd he' he hpe, hq] at hq'
    exact absurd hq' (by simp)
  · simp only [Function.comp_apply, Bool.not_true, decide_eq_false_iff_not, not_not]
    exact List.mem_map_of_mem (List.mem_filter.mpr ⟨he, hq⟩)

theorem noLeak_mallocInto (h : Represents s a base) (hl : NoLeak s) (bytes : ℕ) (ok : Bool) :
    NoLeak (mallocInto s bytes ok).2 := by
  cases ok with
  | false => exact hl
  | true =>
    simp only [mallocInto, Heap.malloc, if_true]
    cases hpl : placeLoop s.heap.next s.markMaxNow (inc16 s.countMaxNow) s.addr with
    | none =>
      -- the block that found no slot is freed again; no older block has its number
      have hself : s.heap.blocks.filter (fun b => decide (b.1 ≠ s.heap.next)) = s.heap.blocks := by
        refine List.filter_eq_self.mpr (fun b hb => decide_eq_true (fun hbn => ?_))
        exact Nat.ne_of_lt (h.lt_next (hl.mem_iff.mp (List.mem_map_of_mem hb))) hbn
      simp only [NoLeak, Heap.free, List.filter_cons, ne_eq, not_true_eq_false, decide_false,
        Bool.false_eq_true, if_false]
      simp only [ne_eq] at hself
      rw [hself]; exact hl
    | some es' =>
      have hp := (live_place hpl).map (·.2.2)
      rw [List.map_map, List.map_cons, List.map_map] at hp
      exact (List.Perm.cons _ hl).trans hp.symm

theorem noLeak_free (h : Represents s a base) (hl : NoLeak s) : NoLeak (fbFree s) := by
  unfold fbFree
  cases hf : fbFreeLoop s.countMaxNow s.addr with
  | none => exact hl
  | some r =>
    obtain ⟨es', p⟩ := r
    obtain ⟨l, e, r, hs, hv, -, rfl, rfl⟩ := fbFreeLoop_eq_some hf
    have hlive : live s = l.filter (·.valid) ++ e :: r.filter (·.valid) := by
      rw [live, hs, List.filter_append, List.filter_cons_of_pos hv]
    have hnd := h.nodup
    simp only [NoLeak, hlive, List.map_append, List.map_cons] at hl hnd ⊢
    have hnd' := List.nodup_cons.mp (List.perm_middle.nodup_iff.mp hnd)
    have hkeep : ((l.filter (·.valid)).map (·.p) ++ (r.filter (·.valid)).map (·.p)).filter
        (fun q => decide (q ≠ e.p)) = (l.filter (·.valid)).map (·.p) ++ (r.filter (·.valid)).map (·.p) :=
      List.filter_eq_self.mpr (fun q hq => decide_eq_true (fun hqe => hnd'.1 (hqe ▸ hq)))
    have hp := (hl.trans List.perm_middle).filter (fun q => decide (q ≠ e.p))
    rw [List.filter_cons_of_neg (by simp), hkeep, List.filter_map] at hp
    simpa [Heap.free, live, List.filter_append, Function.comp_def] using hp

theorem noLeak_intFree (h : Represents s a base) (hl : NoLeak s) (fp : Bool) :
    NoLeak (intFbAllocFreeTillMark fp s) := by
  have hhit : s.addr.filter (hit fp s.markMaxNow) = (live s).filter (hit fp s.markMaxNow) := by
    rw [live, List.filter_filter]
    exact List.filter_congr (fun e _ => by cases hv : e.valid <;> simp [hit, hv])
  have hkeep : (live s).filter (fun e => !hit fp s.markMaxNow e) =
      s.addr.filter (fun e => e.valid && !hit fp s.markMaxNow e) := by
    rw [live, List.filter_filter]
    exact List.filter_congr (fun e _ => Bool.and_comm _ _)
  have hfil := noLeak_filter hl h.nodup (hit fp s.markMaxNow)
  rw [← hhit, hkeep] at hfil
  simp only [NoLeak, intFbAllocFreeTillMark, live, freeLoop_addr, freeLoop_heap, filter_freed]
  exact hfil

end Heap

/-! ### The stack law -/

/-- The calls of a client that never asks for a permanent mark. -/
def StackOp : Op → Prop
  | .mark | .alloc _ _ | .allocAll _ | .free | .freeTillMark => True
  | _ => False

/-- Such a client's run, closing at no point more marks than it opened. -/
def StackRun (ops : List Op) : Prop :=
  (∀ op ∈ ops, StackOp op) ∧ ∀ pre, pre <+: ops → pre.count .freeTillMark ≤ pre.count .mark

/-- At no point are 65536 marks open. -/
def Within16 (ops : List Op) : Prop :=
  ∀ pre, pre <+: ops → pre.count .mark < pre.count .freeTillMark + 65536

/-- The table is the stack: the live slots, put in allocation order, hold the blocks of the stack,
    are counted `1, 2, …`, have non-decreasing marks that do not exceed the current one, and are all
    that `malloc` has given out. -/
structure IsStack (s : State) (a : Abs) : Prop where
  order : ∃ order : List Slot, order ~ live s ∧ order.map (·.p) = (blocks a.items).reverse ∧
    order.map (·.count) = List.range' 1 order.length ∧ (order.map (·.mark)).Pairwise (· ≤ ·) ∧
    ∀ e ∈ order, e.mark ≤ s.markMaxNow
  count : s.countMaxNow = (live s).length
  heap : NoLeak s

/-- With no mark lost to the 16-bit counter, a representation from base 0 is the stack itself. -/
theorem Represents.isStack {s : State} {a : Abs} (h : Represents s a 0) (hl : NoLeak s)
    (hw : level a.items < 65536) : IsStack s a := by
  have hmap : (entries a.items).map (shift 0) = entries a.items := by
    refine (List.map_congr_left (fun x hx => ?_)).trans (List.map_id _)
    have := level_le hx
    simp only [shift, Nat.zero_add, id]
    rw [Nat.mod_eq_of_lt (by omega)]
  have htab := h.table
  rw [hmap] at htab
  -- list the live slots in the order of the stack
  obtain ⟨order, hord, hperm⟩ : ∃ order : List Slot,
      entries a.items = order.map key ∧ order ~ live s :=
    (congrFun (congrFun (List.eq_map_comp_perm key) _) _).mpr htab.symm
  have hp : order.map (·.p) = blocks a.items := by
    rw [← map_entries, hord, List.map_map]; rfl
  have hcnt : (order.map (·.count)).reverse = List.range' 1 order.length := by
    have h1 := map_num a.items
    rw [← length_entries, hord, List.map_map, List.length_map] at h1
    exact h1
  have hsort := entries_sorted a.items
  rw [hord, List.pairwise_map] at hsort
  refine ⟨⟨order.reverse, (List.reverse_perm order).trans hperm, ?_, ?_, ?_, ?_⟩, ?_, hl⟩
  · rw [List.map_reverse, hp]
  · rw [List.map_reverse, List.length_reverse, hcnt]
  · rw [List.map_reverse, List.pairwise_reverse, List.pairwise_map]
    exact hsort.imp (fun h => h.2)
  · intro e he
    have hx : key e ∈ entries a.items := by
      rw [hord]; exact List.mem_map_of_mem (List.mem_reverse.mp he)
    have := level_le hx
    rw [h.mark, Nat.zero_add, Nat.mod_eq_of_lt hw]
    exact this
  · rw [h.count, h.length_live]

/-- What a stack run keeps: the representation from base 0, the heap, no permanent slot, and as many
    levels as marks are open. -/
structure StackInv (ops : List Op) : Prop where
  rep : Represents (runOps ops) (Abs.runOps ops) 0
  heap : NoLeak (runOps ops)
  plain : ∀ e ∈ (runOps ops).addr, e.permanent = false
  level : level (Abs.runOps ops).items + ops.count .freeTillMark = ops.count .mark

theorem plain_mallocInto {s : State} (h : ∀ e ∈ s.addr, e.permanent = false) (bytes : ℕ) (ok : Bool) :
    ∀ e ∈ (mallocInto s bytes ok).2.addr, e.permanent = false := by
  cases ok with
  | false => exact h
  | true =>
    simp only [mallocInto, Heap.malloc, if_true]
    cases hpl : placeLoop s.heap.next s.markMaxNow (inc16 s.countMaxNow) s.addr with
    | none => exact h
    | some es' =>
      obtain ⟨l, e, r, hs, -, -, rfl⟩ := placeLoop_eq_some hpl
      rw [hs] at h
      simp only [List.mem_append, List.mem_cons] at h ⊢
      rintro x (hx | rfl | hx)
      · exact h x (Or.inl hx)
      · exact h e (Or.inr (Or.inl rfl))
      · exact h x (Or.inr (Or.inr hx))

/-- A stack call sets no `permanent` field. -/
theorem plain_step {s : State} (h : ∀ e ∈ s.addr, e.permanent = false) {op : Op} (hop : StackOp op) :
    ∀ e ∈ (step s op).addr, e.permanent = false := by
  cases op with
  | mark => exact h
  | alloc size ok =>
    simp only [step, exec, fbAlloc]
    split
    · exact h
    · exact plain_mallocInto h _ ok
  | allocAll ok =>
    simp only [step, exec, (fbAllocAll_eq s ok).2]
    exact plain_mallocInto h _ ok
  | free =>
    simp only [step, exec, fbFree]
    cases hf : fbFreeLoop s.countMaxNow s.addr with
    | none => exact h
    | some r =>
      obtain ⟨es', p⟩ := r
      obtain ⟨l, e, r, hs, -, -, -, rfl⟩ := fbFreeLoop_eq_some hf
      rw [hs] at h
      simp only [List.mem_append, List.mem_cons] at h ⊢
      rintro x (hx | rfl | hx)
      · exact h x (Or.inl hx)
      · exact h e (Or.inr (Or.inl rfl))
      · exact h x (Or.inr (Or.inr hx))
  | freeTillMark =>
    simp only [step, exec, fbAllocFreeTillMark, intFbAllocFreeTillMark, freeLoop_addr, List.mem_map]
    rintro x ⟨e, he, rfl⟩
    unfold freed
    split
    · rfl
    · exact h e he
  | init0 | freeAll | markPermanent | freeTillMarkPastMarkPermanent => exact absurd hop id

theorem noLeak_step {s : State} {a : Abs} {base : ℕ} (h : Represents s a base) (hl : NoLeak s)
    {op : Op} (hop : StackOp op) : NoLeak (step s op) := by
  cases op with
  | mark => exact hl
  | alloc size ok =>
    simp only [step, exec, fbAlloc]
    split
    · exact hl
    · exact noLeak_mallocInto h hl _ ok
  | allocAll ok =>
    simp only [step, exec, (fbAllocAll_eq s ok).2]
    exact noLeak_mallocInto h hl _ ok
  | free => exact noLeak_free h hl
  | freeTillMark => exact noLeak_intFree h hl false
  | init0 | freeAll | markPermanent | freeTillMarkPastMarkPermanent => exact absurd hop id

theorem runOps_concat (ops : List Op) (op : Op) : runOps (ops ++ [op]) = step (runOps ops) op :=
  run_concat _ _ _

theorem Abs.runOps_concat (ops : List Op) (op : Op) :
    Abs.runOps (ops ++ [op]) = (Abs.runOps ops).step op :=
  run_concat _ _ _

theorem level_push (a : Abs) (ok : Bool) : level (a.push ok).2.items = level a.items := by
  unfold Abs.push
  cases ok
  · rfl
  · simp only [if_true]; split <;> rfl

theorem StackRun.of_concat {ops : List Op} {op : Op} (h : StackRun (ops ++ [op])) :
    StackRun ops ∧ StackOp op :=
  ⟨⟨fun o ho => h.1 o (by simp [ho]), fun pre hp => h.2 pre (hp.trans (List.prefix_append _ _))⟩,
    h.1 op (by simp)⟩

theorem Within16.of_concat {ops : List Op} {op : Op} (h : Within16 (ops ++ [op])) : Within16 ops :=
  fun pre hp => h pre (hp.trans (List.prefix_append _ _))

/-- In a stack run no call disturbs the order of the blocks. -/
theorem StackInv.keepsOrder {ops : List Op} {op : Op} (hinv : StackInv ops)
    (hw : Within16 (ops ++ [op])) : KeepsOrder (runOps ops) op := by
  obtain ⟨hrep, -, hplain, hlev⟩ := hinv
  cases op with
  | mark =>
    intro e he hm
    obtain ⟨x, hx, hk⟩ := hrep.entry_of_live he
    have hxm : (0 + x.2.1) % 65536 = e.mark := congrArg (·.2.1) hk
    have hxl := level_le hx
    have hlim : ops.count .mark + 1 < ops.count .freeTillMark + 65536 := by
      simpa [List.count_append] using hw _ (List.prefix_refl _)
    rw [hm, inc16, hrep.mark] at hxm
    omega
  | freeTillMark =>
    intro e he _
    exact hplain e (List.mem_filter.mp he).1
  | _ => trivial

theorem stackInv_run (ops : List Op) (h : StackRun ops) (hw : Within16 ops) : StackInv ops := by
  induction ops using List.reverseRecOn with
  | nil =>
    refine ⟨represents_init, List.Perm.refl _, ?_, rfl⟩
    intro e he
    rw [runOps, run_nil, State.init, List.mem_replicate] at he
    rw [he.2]; rfl
  | append_singleton ops op ih =>
    obtain ⟨h', hop⟩ := h.of_concat
    have hinv := ih h' hw.of_concat
    have hc := hinv.keepsOrder hw
    obtain ⟨hrep, hheap, hplain, hlev⟩ := hinv
    have hbal := h.2 (ops ++ [op]) (List.prefix_refl _)
    have hstep := (represents_step hrep op hc).2
    rw [← runOps_concat, ← Abs.runOps_concat] at hstep
    refine ⟨?_, ?_, ?_, ?_⟩
    · -- rep
      have hbase : baseAfter (Abs.runOps ops) 0 op = 0 := by
        cases op with
        | freeTillMark =>
          have hbal' : ops.count .freeTillMark + 1 ≤ ops.count .mark := by
            simpa [List.count_append] using hbal
          have hpos : MarkStack.level (Abs.runOps ops).items ≠ 0 := by omega
          simp [baseAfter, rebase, hpos]
        | init0 | freeAll | markPermanent | freeTillMarkPastMarkPermanent => exact absurd hop id
        | _ => rfl
      rwa [hbase] at hstep
    · -- heap
      rw [runOps_concat]; exact noLeak_step hrep hheap hop
    · -- plain
      rw [runOps_concat]; exact plain_step hplain hop
    · -- level
      rw [Abs.runOps_concat, List.count_append, List.count_append]
      cases op with
      | mark =>
        have h1 : [Op.mark].count .freeTillMark = 0 := rfl
        have h2 : [Op.mark].count .mark = 1 := rfl
        simp only [Abs.step, Abs.exec, MarkStack.level, h1, h2]
        omega
      | alloc size ok =>
        simp only [Abs.step, Abs.exec]
        split
        · simpa using hlev
        · rw [level_push]; simpa using hlev
      | allocAll ok => simp only [Abs.step, Abs.exec, level_push]; simpa using hlev
      | free => simp only [Abs.step, Abs.exec, level_dropTop]; simpa using hlev
      | freeTillMark =>
        have h1 : [Op.freeTillMark].count .freeTillMark = 1 := rfl
        have h2 : [Op.freeTillMark].count .mark = 0 := rfl
        rw [List.count_append, List.count_append, h1, h2] at hbal
        simp only [Abs.step, Abs.exec, level_popMark, h1, h2]
        omega
      | init0 | freeAll | markPermanent | freeTillMarkPastMarkPermanent => exact absurd hop id

/-- A call that raises leaves the table as it was. -/
theorem live_of_raised {s : State} {op : Op} (h : (exec s op).1 ≠ none) :
    live (step s op) = live s := by
  have hm : ∀ bytes ok, (mallocInto s bytes ok).raised ≠ none →
      live (mallocInto s bytes ok).2 = live s := by
    intro bytes ok hr
    cases ok with
    | false => rfl
    | true =>
      simp only [mallocInto, Heap.malloc, if_true] at hr ⊢
      cases hpl : placeLoop s.heap.next s.markMaxNow (inc16 s.countMaxNow) s.addr with
      | none => rfl
      | some es' => rw [hpl] at hr; exact absurd rfl hr
  cases op with
  | alloc size ok =>
    simp only [step, exec, fbAlloc] at h ⊢
    split at h
    · exact absurd rfl h
    · rw [if_neg (by assumption)]; exact hm _ ok h
  | allocAll ok =>
    simp only [step, exec, (fbAllocAll_eq s ok).1, (fbAllocAll_eq s ok).2] at h ⊢
    exact hm _ ok h
  | _ => exact absurd rfl h

theorem StackInv.isStack {ops : List Op} (hinv : StackInv ops) (hw : Within16 ops) :
    IsStack (runOps ops) (Abs.runOps ops) := by
  have hlim := hw ops (List.prefix_refl _)
  have hlev := hinv.level
  exact hinv.rep.isStack hinv.heap (by omega)

/-- In every run of marks, allocations and frees that closes no mark it did not open and never holds
    65536 marks open, the table is the stack; every call raises exactly when the stack machine does,
    `fb_free` releases the most recent block, closing a mark releases the blocks pushed since it was
    opened, and a call that raises changes no live block. -/
theorem fbAlloc_refines_markStack (ops : List Op) (h : StackRun ops) (hw : Within16 ops) :
    IsStack (runOps ops) (Abs.runOps ops) ∧
    ∀ pre op, pre ++ [op] <+: ops →
      (exec (runOps pre) op).1 = ((Abs.runOps pre).exec op).1 ∧
      ((exec (runOps pre) op).1 ≠ none → live (runOps (pre ++ [op])) = live (runOps pre)) ∧
      (op = .free → blocks (Abs.runOps (pre ++ [op])).items = (blocks (Abs.runOps pre).items).tail) ∧
      (op = .freeTillMark → ∃ (since : List Ptr) (rest : List (Item Ptr)),
        (Abs.runOps pre).items = since.map .block ++ .mark :: rest ∧
        (Abs.runOps (pre ++ [op])).items = rest) := by
  refine ⟨(stackInv_run ops h hw).isStack hw, ?_⟩
  intro pre op hp
  have hs : StackRun (pre ++ [op]) :=
    ⟨fun o ho => h.1 o (hp.subset ho), fun q hq => h.2 q (hq.trans hp)⟩
  have hw' : Within16 (pre ++ [op]) := fun q hq => hw q (hq.trans hp)
  have hinv := stackInv_run pre hs.of_concat.1 hw'.of_concat
  refine ⟨(represents_step hinv.rep op (hinv.keepsOrder hw')).1, ?_, ?_, ?_⟩
  · intro hr
    rw [runOps_concat]; exact live_of_raised hr
  · rintro rfl
    rw [Abs.runOps_concat]; exact blocks_dropTop _
  · rintro rfl
    have hbal : pre.count .freeTillMark + 1 ≤ pre.count .mark := by
      simpa [List.count_append] using hs.2 _ (List.prefix_refl _)
    have hlev := hinv.level
    obtain ⟨since, rest, hsplit, hpop⟩ := popMark_split (t := (Abs.runOps pre).items) (by omega)
    refine ⟨since, rest, hsplit, ?_⟩
    rw [Abs.runOps_concat, ← hpop]; rfl

/-- A short run of the kind: a mark, a block, a failed allocation, and the mark closed again. -/
theorem fbAlloc_refines_markStack_mark_alloc_free :
    IsStack (runOps [.mark, .alloc 10 true, .alloc 4 false, .freeTillMark])
      (Abs.runOps [.mark, .alloc 10 true, .alloc 4 false, .freeTillMark]) := by
  refine (fbAlloc_refines_markStack _ ⟨?_, ?_⟩ ?_).1
  · simp [StackOp]
  · intro pre hp
    rw [← List.mem_inits] at hp
    revert pre; decide
  · intro pre hp
    rw [← List.mem_inits] at hp
    revert pre; decide

theorem run_replicate_mark (s : State) (hs : s.markMaxNow < 65536) : ∀ n,
    Schemes.run step s (List.replicate n .mark) = { s with markMaxNow := (s.markMaxNow + n) % 65536 }
  | 0 => by simp [Nat.mod_eq_of_lt hs]
  | n + 1 => by
      rw [List.replicate_succ', run_concat, run_replicate_mark s hs n]
      simp only [step, exec, fbAllocMark, inc16]
      congr 1
      omega

theorem Abs.run_replicate_mark (a : Abs) : ∀ n, Schemes.run Abs.step a (List.replicate n .mark) =
    { a with items := List.replicate n .mark ++ a.items }
  | 0 => rfl
  | n + 1 => by
      rw [List.replicate_succ', run_concat, Abs.run_replicate_mark a n]
      rfl

/-- A block, `n` marks on top of it, and one mark closed again. -/
def overrun (n : ℕ) : List Op := .alloc 4 true :: List.replicate n .mark ++ [.freeTillMark]

theorem stackRun_overrun (n : ℕ) : StackRun (overrun (n + 1)) := by
  constructor
  · intro op hop
    simp only [overrun, List.cons_append, List.mem_cons, List.mem_append, List.mem_replicate,
      List.not_mem_nil, or_false] at hop
    rcases hop with rfl | ⟨-, rfl⟩ | rfl <;> trivial
  · intro pre hp
    rcases List.prefix_concat_iff.mp hp with rfl | hp'
    · simp [List.count_append, List.count_replicate]
    · have hz := hp'.sublist.count_le Op.freeTillMark
      have h0 : (Op.alloc 4 true :: List.replicate (n + 1) Op.mark).count .freeTillMark = 0 := by
        simp [List.count_replicate]
      omega

theorem runOps_overrun {n : ℕ} (hn : n % 65536 = 0) :
    runOps (overrun n) = runOps [.alloc 4 true, .freeTillMark] := by
  rw [runOps, overrun, run_concat, run_cons, run_replicate_mark _ (by decide)]
  have h0 : (step State.init (.alloc 4 true)).markMaxNow = 0 := rfl
  rw [h0, Nat.zero_add, hn]
  rfl

theorem Abs.blocks_overrun (n : ℕ) : blocks (Abs.runOps (overrun (n + 1))).items = [1] := by
  have hb : ∀ m (t : List (Item Ptr)), blocks (List.replicate m .mark ++ t) = blocks t := by
    intro m t
    induction m with
    | zero => rfl
    | succ m ih => exact ih
  rw [Abs.runOps, overrun, run_concat, run_cons, Abs.run_replicate_mark]
  exact hb n _

/-- The 65536th open mark has the number of no mark at all: closing it releases the block that was
    there before the first, so the table is not the stack any more. -/
theorem overrun_not_isStack :
    StackRun (overrun 65536) ∧ ¬ IsStack (runOps (overrun 65536)) (Abs.runOps (overrun 65536)) := by
  refine ⟨stackRun_overrun 65535, ?_⟩
  rintro ⟨⟨order, hperm, hp, -⟩, -, -⟩
  rw [runOps_overrun (n := 65536) (by decide)] at hperm
  rw [Abs.blocks_overrun 65535] at hp
  have hnil : order = [] := hperm.eq_nil
  rw [hnil] at hp
  exact absurd hp (by decide)

end OpenMV.FbAlloc
