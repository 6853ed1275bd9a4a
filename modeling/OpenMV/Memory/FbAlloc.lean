import Mathlib.Logic.Function.Iterate
import OpenMV.Schemes.Run

/-! fb_alloc | scheme:table | source:src/src/openmv/omv/fb_alloc.c

    "Interface for using extra frame buffer RAM as a stack." In this port the stack is a table of
    twelve slots filled first-fit; the order of the blocks is kept in the counter stored in each
    slot, and the regions in the mark stored beside it. Both counters are `uint16_t`. The model keeps
    the table as the list of its slots and every loop over it as a recursion on that list, so each
    loop reads as it does in the source.

    A pointer is the number of the `malloc` call that returned it (`NULL` is 0), so two blocks are
    never confused, however the C heap reuses addresses. Whether a call of `malloc` succeeds is an
    input of the operation. -/

namespace OpenMV.FbAlloc

/-- `FB_MAX_ALLOC_TIMES`. -/
def FB_MAX_ALLOC_TIMES : ℕ := 12

/-- `OMV_FB_ALLOC_SIZE` of the board configuration. -/
def OMV_FB_ALLOC_SIZE : ℕ := 96 * 1024

/-- Pre-increment of a `uint16_t`. -/
def inc16 (n : ℕ) : ℕ := (n + 1) % 65536

/-- Pre-decrement of a `uint16_t`. -/
def dec16 (n : ℕ) : ℕ := (n + 65535) % 65536

abbrev Ptr := ℕ

def NULL : Ptr := 0

/-- `fb_alloc_addr_info_t`. -/
structure Slot where
  valid : Bool
  count : ℕ
  mark : ℕ
  permanent : Bool
  p : Ptr
  deriving DecidableEq, Repr

/-- A slot after `memset(…, 0, …)`. -/
def Slot.zero : Slot := ⟨false, 0, 0, false, NULL⟩

/-- The C heap as far as this file uses it: the blocks handed out and not freed yet, with their
    sizes, and the number of the next `malloc` call. -/
structure Heap where
  blocks : List (Ptr × ℕ)
  next : Ptr
  deriving DecidableEq, Repr

def Heap.init : Heap := ⟨[], 1⟩

/-- `malloc(size)`; `ok` says whether it succeeds. -/
def Heap.malloc (h : Heap) (size : ℕ) (ok : Bool) : Option Ptr × Heap :=
  if ok then (some h.next, ⟨(h.next, size) :: h.blocks, h.next + 1⟩) else (none, h)

/-- `free(p)`. -/
def Heap.free (h : Heap) (p : Ptr) : Heap := { h with blocks := h.blocks.filter (·.1 ≠ p) }

/-- The static variables of the file, and the heap they live on. -/
structure State where
  addr : List Slot
  countMaxNow : ℕ
  markMaxNow : ℕ
  heap : Heap
  deriving DecidableEq, Repr

def State.init : State := ⟨List.replicate FB_MAX_ALLOC_TIMES Slot.zero, 0, 0, Heap.init⟩

/-- The two exceptions of the file, both a `MemoryError`. -/
inductive MemoryError where
  | fbAllocFail
  | fbAllocFail2
  deriving DecidableEq, Repr

def MemoryError.msg : MemoryError → String
  | .fbAllocFail => "Out of Memory!" ++
      " Please reduce the resolution of the image you are running this algorithm on to bypass this issue!"
  | .fbAllocFail2 => "Too many fb_alloc! no space save!" ++ " try again or reduce img size!"

/-- What a call leaves behind: its result, or the exception it raised, and the new state. -/
abbrev Call (α : Type) := Except MemoryError α × State

/-- The exception a call raised, if any. -/
def Call.raised {α : Type} : Call α → Option MemoryError
  | (.ok _, _) => none
  | (.error x, _) => some x

/-- `fb_alloc_init0`: the table and the counters are cleared, the heap is not touched. -/
def fbAllocInit0 (s : State) : State :=
  { s with addr := List.replicate FB_MAX_ALLOC_TIMES Slot.zero, countMaxNow := 0, markMaxNow := 0 }

/-- `fb_alloc_mark`. -/
def fbAllocMark (s : State) : State := { s with markMaxNow := inc16 s.markMaxNow }

/-- The loop of `int_fb_alloc_free_till_mark`. The counter is decremented for every block of the
    current mark, also for one that is kept because it is permanent. -/
def freeLoop (freePermanent : Bool) (mark : ℕ) : List Slot → ℕ → Heap → List Slot × ℕ × Heap
  | [], c, h => ([], c, h)
  | e :: es, c, h =>
    if e.valid && e.mark == mark then
      if !freePermanent && e.permanent then
        let r := freeLoop freePermanent mark es (dec16 c) h
        (e :: r.1, r.2)
      else
        let r := freeLoop freePermanent mark es (dec16 c) (h.free e.p)
        ({ e with p := NULL, valid := false, permanent := false } :: r.1, r.2)
    else
      let r := freeLoop freePermanent mark es c h
      (e :: r.1, r.2)

/-- `int_fb_alloc_free_till_mark`. -/
def intFbAllocFreeTillMark (freePermanent : Bool) (s : State) : State :=
  let r := freeLoop freePermanent s.markMaxNow s.addr s.countMaxNow s.heap
  { addr := r.1, countMaxNow := r.2.1, markMaxNow := dec16 s.markMaxNow, heap := r.2.2 }

/-- `fb_alloc_free_till_mark`. -/
def fbAllocFreeTillMark (s : State) : State := intFbAllocFreeTillMark false s

/-- The search loop of `fb_alloc` and `fb_alloc_all`: the first slot that is not valid is filled;
    `none` when `i` reaches `FB_MAX_ALLOC_TIMES`. The `permanent` field is not written. -/
def placeLoop (p : Ptr) (mark count : ℕ) : List Slot → Option (List Slot)
  | [] => none
  | e :: es =>
    if e.valid then (placeLoop p mark count es).map (e :: ·)
    else some ({ e with valid := true, p := p, mark := mark, count := count } :: es)

/-- The body `fb_alloc` and `fb_alloc_all` share: `malloc` of the given number of bytes, then the
    search for a slot, and `free` again when there is none. -/
def mallocInto (s : State) (bytes : ℕ) (ok : Bool) : Call Ptr :=
  match s.heap.malloc bytes ok with
  | (none, _) => (.error .fbAllocFail, s)
  | (some p, h) => match placeLoop p s.markMaxNow (inc16 s.countMaxNow) s.addr with
    | some addr => (.ok p, { s with addr := addr, countMaxNow := inc16 s.countMaxNow, heap := h })
    | none => (.error .fbAllocFail2, { s with heap := h.free p })

/-- The size `fb_alloc` asks `malloc` for: `size` rounded up to words, as a `uint32_t`. -/
def roundUp (size : ℕ) : ℕ := ((size + 4 - 1) / 4 * 4) % 4294967296

/-- `fb_alloc(size, hints)`; `hints` is not used by the port. -/
def fbAlloc (s : State) (size : ℕ) (ok : Bool) : Call Ptr :=
  if size = 0 then (.ok NULL, s) else mallocInto s (roundUp size) ok

/-- `fb_alloc_all(&size, hints)`: the pointer and the value stored in `size`. -/
def fbAllocAll (s : State) (ok : Bool) : Call (Ptr × ℕ) :=
  match mallocInto s OMV_FB_ALLOC_SIZE ok with
  | (.ok p, s') => (.ok (p, OMV_FB_ALLOC_SIZE), s')
  | (.error x, s') => (.error x, s')

/-- The loop of `fb_free`, which stops at the first valid slot that carries the current count. -/
def fbFreeLoop (count : ℕ) : List Slot → Option (List Slot × Ptr)
  | [] => none
  | e :: es =>
    if e.valid && e.count == count then some ({ e with p := NULL, valid := false } :: es, e.p)
    else (fbFreeLoop count es).map (fun r => (e :: r.1, r.2))

/-- `fb_free`. -/
def fbFree (s : State) : State :=
  match fbFreeLoop s.countMaxNow s.addr with
  | none => s
  | some (addr, p) =>
    { s with addr := addr, countMaxNow := dec16 s.countMaxNow, heap := s.heap.free p }

/-- The loop of `fb_free_all`; the `permanent` field is not written. -/
def fbFreeAllLoop : List Slot → Heap → List Slot × Heap
  | [], h => ([], h)
  | e :: es, h =>
    if e.valid then
      let r := fbFreeAllLoop es (h.free e.p)
      ({ e with p := NULL, valid := false } :: r.1, r.2)
    else
      let r := fbFreeAllLoop es h
      (e :: r.1, r.2)

/-- `fb_free_all`. -/
def fbFreeAll (s : State) : State :=
  let r := fbFreeAllLoop s.addr s.heap
  ⟨r.1, 0, 0, r.2⟩

/-- One iteration of `fb_alloc_mark_permanent`: the flag is set on a slot that carries the current
    mark, also on one that is not valid. -/
def setPermanent (mark : ℕ) (e : Slot) : Slot :=
  if e.mark == mark then { e with permanent := true } else e

/-- `fb_alloc_mark_permanent`. -/
def fbAllocMarkPermanent (s : State) : State :=
  { s with addr := s.addr.map (setPermanent s.markMaxNow) }

/-- `fb_alloc_free_till_mark_past_mark_permanent`. -/
def fbAllocFreeTillMarkPastMarkPermanent (s : State) : State := intFbAllocFreeTillMark true s

/-- The operations of `fb_alloc.h`, with what `malloc` answers. -/
inductive Op where
  | init0
  | mark
  | alloc (size : ℕ) (ok : Bool)
  | allocAll (ok : Bool)
  | free
  | freeAll
  | freeTillMark
  | markPermanent
  | freeTillMarkPastMarkPermanent
  deriving DecidableEq, Repr

/-- The exception a call raises, if any, and the state it leaves. -/
def exec (s : State) : Op → Option MemoryError × State
  | .init0 => (none, fbAllocInit0 s)
  | .mark => (none, fbAllocMark s)
  | .alloc size ok => ((fbAlloc s size ok).raised, (fbAlloc s size ok).2)
  | .allocAll ok => ((fbAllocAll s ok).raised, (fbAllocAll s ok).2)
  | .free => (none, fbFree s)
  | .freeAll => (none, fbFreeAll s)
  | .freeTillMark => (none, fbAllocFreeTillMark s)
  | .markPermanent => (none, fbAllocMarkPermanent s)
  | .freeTillMarkPastMarkPermanent => (none, fbAllocFreeTillMarkPastMarkPermanent s)

def step (s : State) (op : Op) : State := (exec s op).2

/-- The state after a list of calls on the state the firmware starts with. -/
def runOps (ops : List Op) : State := Schemes.run step State.init ops

/-- The blocks live in the table. -/
def live (s : State) : List Slot := s.addr.filter (·.valid)

/-! ### What each loop does -/

/-- The slots `int_fb_alloc_free_till_mark` releases. -/
def hit (freePermanent : Bool) (mark : ℕ) (e : Slot) : Bool :=
  e.valid && e.mark == mark && (freePermanent || !e.permanent)

/-- A slot after that loop. -/
def freed (freePermanent : Bool) (mark : ℕ) (e : Slot) : Slot :=
  if hit freePermanent mark e then { e with p := NULL, valid := false, permanent := false } else e

theorem freeLoop_addr (fp : Bool) (m : ℕ) : ∀ (es : List Slot) (c : ℕ) (h : Heap),
    (freeLoop fp m es c h).1 = es.map (freed fp m)
  | [], _, _ => rfl
  | e :: es, c, h => by
      simp only [freeLoop, List.map_cons]
      cases hv : (e.valid && e.mark == m)
      · simp [freed, hit, hv, freeLoop_addr fp m es]
      · cases fp <;> cases hp : e.permanent <;> simp [freed, hit, hv, hp, freeLoop_addr _ m es]

/-- The counter goes down once for every valid slot of the mark, kept or not. -/
theorem freeLoop_count (fp : Bool) (m : ℕ) : ∀ (es : List Slot) (c : ℕ) (h : Heap),
    (freeLoop fp m es c h).2.1 = dec16^[es.countP (fun e => e.valid && e.mark == m)] c
  | [], _, _ => rfl
  | e :: es, c, h => by
      by_cases hv : (e.valid && e.mark == m) = true
      · rw [List.countP_cons, if_pos hv, Function.iterate_succ_apply, freeLoop, if_pos hv]
        by_cases hp : (!fp && e.permanent) = true
        · rw [if_pos hp]; exact freeLoop_count fp m es _ h
        · rw [if_neg hp]; exact freeLoop_count fp m es _ _
      · rw [List.countP_cons, if_neg hv, Nat.add_zero, freeLoop, if_neg hv]
        exact freeLoop_count fp m es c h

theorem Heap.filter_nil (h : Heap) :
    ({ h with blocks := h.blocks.filter (·.1 ∉ ([] : List Ptr)) } : Heap) = h := by
  cases h; simp

theorem Heap.filter_free (h : Heap) (p : Ptr) (ps : List Ptr) :
    { h.free p with blocks := (h.free p).blocks.filter (·.1 ∉ ps) } =
      ({ h with blocks := h.blocks.filter (·.1 ∉ p :: ps) } : Heap) := by
  simp [Heap.free, List.filter_filter, Bool.and_comm]

/-- The heap loses exactly the blocks whose slots are released. -/
theorem freeLoop_heap (fp : Bool) (m : ℕ) : ∀ (es : List Slot) (c : ℕ) (h : Heap),
    (freeLoop fp m es c h).2.2 =
      { h with blocks := h.blocks.filter (·.1 ∉ (es.filter (hit fp m)).map (·.p)) }
  | [], _, h => (Heap.filter_nil h).symm
  | e :: es, c, h => by
      by_cases hv : (e.valid && e.mark == m) = true
      · by_cases hp : (!fp && e.permanent) = true
        · have hh : ¬ hit fp m e = true := by cases fp <;> simp_all [hit]
          rw [freeLoop, if_pos hv, if_pos hp, List.filter_cons_of_neg hh]
          exact freeLoop_heap fp m es _ h
        · have hh : hit fp m e = true := by cases fp <;> simp_all [hit]
          rw [freeLoop, if_pos hv, if_neg hp, List.filter_cons_of_pos hh, List.map_cons,
            ← Heap.filter_free]
          exact freeLoop_heap fp m es _ _
      · have hh : ¬ hit fp m e = true := fun h => hv (by simp_all [hit])
        rw [freeLoop, if_neg hv, List.filter_cons_of_neg hh]
        exact freeLoop_heap fp m es _ h

@[simp] theorem setPermanent_valid (m : ℕ) (e : Slot) : (setPermanent m e).valid = e.valid := by
  unfold setPermanent; split <;> rfl

@[simp] theorem setPermanent_count (m : ℕ) (e : Slot) : (setPermanent m e).count = e.count := by
  unfold setPermanent; split <;> rfl

@[simp] theorem setPermanent_mark (m : ℕ) (e : Slot) : (setPermanent m e).mark = e.mark := by
  unfold setPermanent; split <;> rfl

@[simp] theorem setPermanent_p (m : ℕ) (e : Slot) : (setPermanent m e).p = e.p := by
  unfold setPermanent; split <;> rfl

/-- `fb_alloc` and `fb_alloc_all` fill the first free slot and keep its `permanent` field. -/
theorem placeLoop_eq_some {p : Ptr} {mark count : ℕ} : ∀ {es es' : List Slot},
    placeLoop p mark count es = some es' → ∃ l e r, es = l ++ e :: r ∧ (∀ x ∈ l, x.valid = true) ∧
      e.valid = false ∧ es' = l ++ { e with valid := true, p := p, mark := mark, count := count } :: r
  | e :: es, es', h => by
      cases hv : e.valid
      · simp only [placeLoop, hv, Bool.false_eq_true, if_false, Option.some.injEq] at h
        exact ⟨[], e, es, rfl, by simp, hv, h.symm⟩
      · simp only [placeLoop, hv, if_true, Option.map_eq_some_iff] at h
        obtain ⟨es₁, h₁, rfl⟩ := h
        obtain ⟨l, e₁, r, rfl, hl, he, rfl⟩ := placeLoop_eq_some h₁
        exact ⟨e :: l, e₁, r, rfl, by simpa [hv] using hl, he, rfl⟩

/-- They fail exactly when every slot is in use. -/
theorem placeLoop_eq_none {p : Ptr} {mark count : ℕ} : ∀ {es : List Slot},
    placeLoop p mark count es = none ↔ ∀ e ∈ es, e.valid = true
  | [] => by simp [placeLoop]
  | e :: es => by
      have ih : placeLoop p mark count es = none ↔ ∀ e ∈ es, e.valid = true := placeLoop_eq_none
      cases hv : e.valid <;> simp [placeLoop, hv, ih]

/-- `fb_free` releases the first valid slot that carries the count. -/
theorem fbFreeLoop_eq_some {c : ℕ} {p : Ptr} : ∀ {es es' : List Slot},
    fbFreeLoop c es = some (es', p) → ∃ l e r, es = l ++ e :: r ∧ e.valid = true ∧ e.count = c ∧
      e.p = p ∧ es' = l ++ { e with p := NULL, valid := false } :: r
  | e :: es, es', h => by
      by_cases hv : (e.valid && e.count == c) = true
      · simp only [fbFreeLoop, hv, if_true, Option.some.injEq, Prod.mk.injEq] at h
        simp only [Bool.and_eq_true, beq_iff_eq] at hv
        exact ⟨[], e, es, rfl, hv.1, hv.2, h.2, h.1.symm⟩
      · rw [fbFreeLoop, if_neg hv] at h
        simp only [Option.map_eq_some_iff, Prod.mk.injEq] at h
        obtain ⟨⟨es₁, p₁⟩, h₁, rfl, rfl⟩ := h
        obtain ⟨l, e₁, r, rfl, h1, h2, h3, h4⟩ := fbFreeLoop_eq_some h₁
        exact ⟨e :: l, e₁, r, rfl, h1, h2, h3, by rw [h4]; rfl⟩

theorem fbFreeLoop_eq_none {c : ℕ} : ∀ {es : List Slot},
    fbFreeLoop c es = none ↔ ∀ e ∈ es, e.valid = true → e.count ≠ c
  | [] => by simp [fbFreeLoop]
  | e :: es => by
      by_cases hv : (e.valid && e.count == c) = true
      · simp_all [fbFreeLoop]
      · rw [fbFreeLoop, if_neg hv, Option.map_eq_none_iff, fbFreeLoop_eq_none, List.forall_mem_cons]
        simp only [Bool.and_eq_true, beq_iff_eq, not_and] at hv
        exact ⟨fun h => ⟨hv, h⟩, fun h => h.2⟩

theorem fbFreeAllLoop_addr : ∀ (es : List Slot) (h : Heap), (fbFreeAllLoop es h).1 =
    es.map (fun e => if e.valid then { e with p := NULL, valid := false } else e)
  | [], _ => rfl
  | e :: es, h => by cases hv : e.valid <;> simp [fbFreeAllLoop, hv, fbFreeAllLoop_addr es]

theorem fbFreeAllLoop_heap : ∀ (es : List Slot) (h : Heap), (fbFreeAllLoop es h).2 =
    { h with blocks := h.blocks.filter (·.1 ∉ (es.filter (·.valid)).map (·.p)) }
  | [], h => (Heap.filter_nil h).symm
  | e :: es, h => by
      cases hv : e.valid
      · simp [fbFreeAllLoop, hv, fbFreeAllLoop_heap es]
      · simp only [fbFreeAllLoop, hv, if_true, List.filter_cons_of_pos, List.map_cons]
        rw [← Heap.filter_free]
        exact fbFreeAllLoop_heap es _

end OpenMV.FbAlloc
