import OpenMV.Memory.FbAllocScripts
import OpenMV.Vision.Image

/-! Filters on the fb_alloc stack | scheme:table | source:src/src/openmv/omv/img/filter.c

    The neighbourhood filters allocate their line buffer and tables when they begin and free as many blocks
    when they are done. `fb_free` goes by numbers, and an empty block has none: so it depends on the table
    whether the blocks that are freed are the filter's own. -/

namespace OpenMV.FbAlloc
open Schemes Vision

/-! ### The filters -/

/-- The blocks a call of a filter asks for, in order, and how many times it calls `fb_free` in the end. -/
structure Branch where
  sizes : List ℕ
  frees : ℕ
deriving DecidableEq, Repr

/-- `IMAGE_BINARY_LINE_LEN_BYTES`, `IMAGE_GRAYSCALE_LINE_LEN_BYTES` and `IMAGE_RGB565_LINE_LEN_BYTES`. -/
def lineLenBytes (img : Image) : ℤ :=
  match img.bpp with
  | .binary => int32 (img.w + 31) / 32 * 4
  | .grayscale => img.w
  | .rgb565 => img.w * 2
  | .bayer | .jpeg => 0

/-- The size of the line buffer, as `fb_alloc` gets it. -/
def bufSize (img : Image) (ksize : ℤ) : ℕ := (lineLenBytes img * int32 (ksize + 1) % 4294967296).toNat

def imlibMeanFilter (img : Image) (ksize : ℤ) : Branch :=
  match img.bpp with
  | .binary => ⟨[bufSize img ksize], 1⟩
  | .grayscale => ⟨[bufSize img ksize], 1⟩
  | .rgb565 => ⟨[bufSize img ksize], 1⟩
  | .bayer | .jpeg => ⟨[], 0⟩

def imlibMedianFilter (img : Image) (ksize : ℤ) : Branch :=
  match img.bpp with
  | .binary => ⟨[bufSize img ksize], 1⟩
  | .grayscale => ⟨[bufSize img ksize, 64], 2⟩
  | .rgb565 => ⟨[bufSize img ksize, 32, 64, 32], 4⟩
  | .bayer | .jpeg => ⟨[], 0⟩

def imlibModeFilter (img : Image) (ksize : ℤ) : Branch :=
  match img.bpp with
  | .binary => ⟨[bufSize img ksize], 2⟩
  | .grayscale => ⟨[bufSize img ksize, 256], 2⟩
  | .rgb565 => ⟨[bufSize img ksize, 32, 64, 32], 4⟩
  | .bayer | .jpeg => ⟨[], 0⟩

/-- The table is there for all formats. -/
def imlibMidpointFilter (img : Image) (ksize : ℤ) : Branch :=
  match img.bpp with
  | .binary => ⟨[256, bufSize img ksize], 2⟩
  | .grayscale => ⟨[256, bufSize img ksize], 2⟩
  | .rgb565 => ⟨[256, bufSize img ksize], 2⟩
  | .bayer | .jpeg => ⟨[256], 1⟩

def imlibMorph (img : Image) (ksize : ℤ) : Branch :=
  match img.bpp with
  | .binary => ⟨[bufSize img ksize], 1⟩
  | .grayscale => ⟨[bufSize img ksize], 1⟩
  | .rgb565 => ⟨[bufSize img ksize], 1⟩
  | .bayer | .jpeg => ⟨[], 0⟩

inductive Filter where
  | mean
  | median
  | mode
  | midpoint
  | morph
deriving DecidableEq, Repr

def Filter.branch : Filter → Image → ℤ → Branch
  | .mean => imlibMeanFilter
  | .median => imlibMedianFilter
  | .mode => imlibModeFilter
  | .midpoint => imlibMidpointFilter
  | .morph => imlibMorph

/-- The calls of `fb_alloc`, up to one that raises; `ok` is what `malloc` says each time. -/
def allocSizes : State → List ℕ → (ℕ → Bool) → Call Unit
  | s, [], _ => (.ok (), s)
  | s, size :: sizes, ok =>
    match fbAlloc s size (ok 0) with
    | (.ok _, s) => allocSizes s sizes fun i => ok (i + 1)
    | (.error x, s) => (.error x, s)

/-- A filter, as far as it concerns the table. -/
def runFilter (s : State) (b : Branch) (ok : ℕ → Bool) : Call Unit :=
  match allocSizes s b.sizes ok with
  | (.ok _, s) => (.ok (), fbFree^[b.frees] s)
  | (.error x, s) => (.error x, s)

/-! ### What may not change -/

/-- What there is to see of a slot. -/
def visible (e : Slot) : Option Slot := if e.valid then some e else none

/-- The blocks in the table, at their places, the counters and the blocks on the heap are the same. -/
structure SameTable (s s' : State) : Prop where
  table : s'.addr.map visible = s.addr.map visible
  count : s'.countMaxNow = s.countMaxNow
  mark : s'.markMaxNow = s.markMaxNow
  heap : s'.heap.blocks = s.heap.blocks

/-- The numbers the next `n` blocks get. -/
def nextCounts : ℕ → ℕ → List ℕ
  | _, 0 => []
  | c, n + 1 => inc16 c :: nextCounts (inc16 c) n

/-- Going through the table, with the numbers that are still to be placed: none of them is the number of a
    block that lies in front of its place. -/
def Clear : List ℕ → List Slot → Prop
  | [], _ => True
  | _ :: _, [] => True
  | c :: cs, e :: es => if e.valid then e.count ∉ c :: cs ∧ Clear (c :: cs) es else Clear cs es

theorem clear_nil : ∀ es : List Slot, Clear [] es
  | [] => trivial
  | _ :: _ => trivial

instance Clear.decidable : ∀ cs es, Decidable (Clear cs es)
  | [], es => .isTrue (clear_nil es)
  | _ :: _, [] => .isTrue trivial
  | c :: cs, e :: es =>
    have := Clear.decidable (c :: cs) es
    have := Clear.decidable cs es
    inferInstanceAs (Decidable (if e.valid then e.count ∉ c :: cs ∧ Clear (c :: cs) es else Clear cs es))

theorem SameTable.refl (s : State) : SameTable s s := ⟨rfl, rfl, rfl, rfl⟩

theorem SameTable.trans {s s' s'' : State} (h : SameTable s s') (h' : SameTable s' s'') : SameTable s s'' :=
  ⟨h'.table.trans h.table, h'.count.trans h.count, h'.mark.trans h.mark, h'.heap.trans h.heap⟩

theorem SameTable.symm {s s' : State} (h : SameTable s s') : SameTable s' s :=
  ⟨h.table.symm, h.count.symm, h.mark.symm, h.heap.symm⟩

/-! ### fb_free and what is to be seen -/

theorem fbFreeLoop_skip (c : ℕ) {e : Slot} (he : e.valid = false) (es : List Slot) :
    fbFreeLoop c (e :: es) = (fbFreeLoop c es).map fun r => (e :: r.1, r.2) := by
  rw [fbFreeLoop, if_neg (by rw [he, Bool.false_and]; exact Bool.false_ne_true)]

/-- `fb_free` looks at nothing else. -/
theorem fbFreeLoop_visible (c : ℕ) : ∀ {es es' : List Slot}, es'.map visible = es.map visible →
    (fbFreeLoop c es').map (fun r => (r.1.map visible, r.2)) = (fbFreeLoop c es).map fun r => (r.1.map visible, r.2)
  | [], [], _ => rfl
  | [], _ :: _, h => nomatch h
  | _ :: _, [], h => nomatch h
  | e :: es, e' :: es', h => by
    rw [List.map_cons, List.map_cons, List.cons.injEq] at h
    have ih := fbFreeLoop_visible c h.2
    have hcons : ∀ x : Slot, ∀ r : Option (List Slot × Ptr),
        (r.map fun r => (x :: r.1, r.2)).map (fun r => (r.1.map visible, r.2)) =
          (r.map fun r => (r.1.map visible, r.2)).map fun r => (visible x :: r.1, r.2) := by
      intro x r
      rw [Option.map_map, Option.map_map]
      rfl
    cases hv : e.valid with
    | false =>
      have hv' : e'.valid = false := by
        by_contra hne
        have := h.1
        simp [visible, hv, Bool.eq_true_of_not_eq_false hne] at this
      rw [fbFreeLoop_skip c hv, fbFreeLoop_skip c hv', hcons, hcons, ih, h.1]
    | true =>
      have hv' : e' = e := by
        have h1 := h.1
        unfold visible at h1
        rw [hv, if_pos rfl] at h1
        split_ifs at h1
        exact Option.some.inj h1
      subst hv'
      rw [fbFreeLoop, fbFreeLoop]
      split_ifs
      · simp only [Option.map_some, List.map_cons, h.2]
      · rw [hcons, hcons, ih]

theorem SameTable.free {s s' : State} (h : SameTable s s') : SameTable (fbFree s) (fbFree s') := by
  have hv := fbFreeLoop_visible s.countMaxNow h.table
  unfold fbFree
  rw [h.count]
  cases hf : fbFreeLoop s.countMaxNow s.addr with
  | none =>
    rw [hf] at hv
    rw [Option.map_eq_none_iff.1 hv]
    exact h
  | some r =>
    rw [hf] at hv
    obtain ⟨r', hf', hr⟩ := Option.map_eq_some_iff.1 hv
    rw [Prod.mk.injEq] at hr
    rw [hf']
    refine ⟨hr.1, rfl, h.mark, ?_⟩
    dsimp only [Heap.free]
    rw [h.heap, hr.2]

/-- A place without a block has none after `fb_free` either. -/
theorem fbFree_visible_none {s : State} {i : ℕ} (h : (s.addr.map visible)[i]? = some none) :
    ((fbFree s).addr.map visible)[i]? = some none := by
  unfold fbFree
  cases hf : fbFreeLoop s.countMaxNow s.addr with
  | none => exact h
  | some r =>
    obtain ⟨es', p⟩ := r
    obtain ⟨l, e, r, hs, -, -, -, rfl⟩ := fbFreeLoop_eq_some hf
    rw [hs] at h
    dsimp only
    rw [List.map_append, List.map_cons] at h ⊢
    by_cases hi : i = l.length
    · rw [hi, List.getElem?_append_right (by rw [List.length_map]), List.length_map, Nat.sub_self]
      rfl
    · rcases Nat.lt_or_gt_of_ne hi with hlt | hgt
      · rw [List.getElem?_append_left (by rwa [List.length_map])] at h ⊢
        exact h
      · rw [List.getElem?_append_right (by rw [List.length_map]; omega), List.length_map] at h ⊢
        obtain ⟨k, hk⟩ : ∃ k, i - l.length = k + 1 := ⟨i - l.length - 1, by omega⟩
        rw [hk, List.getElem?_cons_succ] at h ⊢
        exact h

/-- A block with one of these numbers is gone. -/
def Lost (s s' : State) (cs : List ℕ) : Prop :=
  ∃ (i : ℕ) (e : Slot), s.addr[i]? = some e ∧ e.valid = true ∧ e.count ∈ cs ∧ (s'.addr.map visible)[i]? = some none

theorem Lost.free {s s' : State} {cs : List ℕ} (h : Lost s s' cs) : Lost s (fbFree s') cs := by
  obtain ⟨i, e, he, hv, hc, hi⟩ := h
  exact ⟨i, e, he, hv, hc, fbFree_visible_none hi⟩

theorem Lost.frees {s s' : State} {cs : List ℕ} (h : Lost s s' cs) : ∀ n : ℕ, Lost s (fbFree^[n] s') cs
  | 0 => h
  | n + 1 => by
    rw [Function.iterate_succ_apply']
    exact (h.frees n).free

theorem Lost.congr {s s' s'' : State} {cs : List ℕ} (h : Lost s s' cs) (h' : SameTable s' s'') : Lost s s'' cs := by
  obtain ⟨i, e, he, hv, hc, hi⟩ := h
  exact ⟨i, e, he, hv, hc, h'.table ▸ hi⟩

theorem Lost.mono {s s' : State} {cs cs' : List ℕ} (h : Lost s s' cs) (hsub : cs ⊆ cs') : Lost s s' cs' := by
  obtain ⟨i, e, he, hv, hc, hi⟩ := h
  exact ⟨i, e, he, hv, hsub hc, hi⟩

theorem Lost.not_same {s s' : State} {cs : List ℕ} (h : Lost s s' cs) : ¬ SameTable s s' := by
  obtain ⟨i, e, he, hv, -, hi⟩ := h
  intro hsame
  rw [hsame.table, List.getElem?_map, he] at hi
  simp [visible, hv] at hi

/-! ### One block -/

theorem mem_nextCounts {x : ℕ} : ∀ {n c : ℕ}, x ∈ nextCounts c n → ∃ k < n, x = (c + k + 1) % 65536
  | 0, _, h => nomatch h
  | n + 1, c, h => by
    rcases List.mem_cons.1 h with rfl | h
    · exact ⟨0, Nat.succ_pos n, rfl⟩
    · obtain ⟨k, hk, rfl⟩ := mem_nextCounts h
      refine ⟨k + 1, Nat.succ_lt_succ hk, ?_⟩
      unfold inc16
      omega

theorem inc16_not_mem_nextCounts {c n : ℕ} (hn : n < 65535) : inc16 c ∉ nextCounts (inc16 c) n := by
  intro h
  obtain ⟨k, hk, heq⟩ := mem_nextCounts h
  unfold inc16 at heq
  omega

theorem clear_valid {e : Slot} (he : e.valid = true) (es : List Slot) : ∀ cs : List ℕ,
    Clear cs (e :: es) ↔ e.count ∉ cs ∧ Clear cs es
  | [] => by simp [Clear]
  | c :: cs => by rw [Clear, if_pos he]

/-- The first number has to be clear of the blocks in front of its place, and the others of that block as
    well. -/
theorem clear_place {c : ℕ} {cs : List ℕ} (hc : c ∉ cs) {e e' : Slot} (he : e.valid = false)
    (hv : e'.valid = true) (hcount : e'.count = c) (r : List Slot) : ∀ {l : List Slot},
    (∀ x ∈ l, x.valid = true) →
    (Clear (c :: cs) (l ++ e :: r) ↔ (∀ x ∈ l, x.count ≠ c) ∧ Clear cs (l ++ e' :: r))
  | [], _ => by
    rw [List.nil_append, List.nil_append, Clear, if_neg (ne_true_of_eq_false he), clear_valid hv, hcount]
    exact ⟨fun h => ⟨fun x hx => absurd hx List.not_mem_nil, hc, h⟩, fun h => h.2.2⟩
  | x :: l, hl => by
    have ih := clear_place hc he hv hcount r fun x hx => hl x (List.mem_cons_of_mem _ hx)
    have hx := hl x List.mem_cons_self
    rw [List.cons_append, List.cons_append, clear_valid hx, clear_valid hx, ih, List.forall_mem_cons,
      List.mem_cons, not_or]
    constructor
    · rintro ⟨⟨h1, h2⟩, h3, h4⟩
      exact ⟨⟨h1, h3⟩, h2, h4⟩
    · rintro ⟨⟨h1, h3⟩, h2, h4⟩
      exact ⟨⟨h1, h2⟩, h3, h4⟩

/-- The first block with the number is the one that is freed. -/
theorem fbFreeLoop_append (c : ℕ) {e : Slot} (hv : e.valid = true) (hc : e.count = c) (r : List Slot) :
    ∀ {l : List Slot}, (∀ x ∈ l, x.count ≠ c) →
    fbFreeLoop c (l ++ e :: r) = some (l ++ { e with p := NULL, valid := false } :: r, e.p)
  | [], _ => by
    rw [List.nil_append, fbFreeLoop, if_pos (by rw [hv, hc]; exact Bool.and_eq_true_iff.2 ⟨rfl, beq_self_eq_true c⟩)]
    rfl
  | x :: l, hl => by
    have hx : x.count ≠ c := hl x List.mem_cons_self
    rw [List.cons_append, fbFreeLoop, if_neg (by simp [hx]),
      fbFreeLoop_append c hv hc r fun x hx => hl x (List.mem_cons_of_mem _ hx)]
    rfl

/-- If one in front has it, that one is gone. -/
theorem fbFreeLoop_front (c : ℕ) (r : List Slot) : ∀ {l : List Slot}, (∀ x ∈ l, x.valid = true) →
    (∃ x ∈ l, x.count = c) → ∃ es p, fbFreeLoop c (l ++ r) = some (es, p) ∧
      ∃ (i : ℕ) (e : Slot), l[i]? = some e ∧ e.count = c ∧ (es.map visible)[i]? = some none
  | [], _, h => nomatch h
  | x :: l, hl, h => by
    have hx := hl x List.mem_cons_self
    by_cases hxc : x.count = c
    · refine ⟨{ x with p := NULL, valid := false } :: (l ++ r), x.p, ?_, 0, x, rfl, hxc, ?_⟩
      · rw [List.cons_append, fbFreeLoop, if_pos (by simp [hx, hxc])]
      · rfl
    · obtain ⟨y, hy, hyc⟩ := h
      have hyl : y ∈ l := (List.mem_cons.1 hy).resolve_left fun h => hxc (h ▸ hyc)
      obtain ⟨es, p, hf, i, e, hi, hec, hnone⟩ := fbFreeLoop_front c r
        (fun x hx => hl x (List.mem_cons_of_mem _ hx)) ⟨y, hyl, hyc⟩
      refine ⟨x :: es, p, ?_, i + 1, e, hi, hec, hnone⟩
      rw [List.cons_append, fbFreeLoop, if_neg (by simp [hxc]), hf]
      rfl

/-! ### A filter's blocks -/

/-- What every reachable table has: a 16-bit counter, and blocks older than the next. -/
structure Ready (s : State) : Prop where
  count : s.countMaxNow < 65536
  fresh : ∀ b ∈ s.heap.blocks, b.1 < s.heap.next

/-- `fb_alloc` of a block that is not empty, if it does not raise. -/
theorem fbAlloc_ok {s t : State} {size : ℕ} {ok : Bool} {p : Ptr} (h : fbAlloc s size ok = (.ok p, t))
    (hsize : size ≠ 0) : ∃ l e e' r, s.addr = l ++ e :: r ∧ (∀ x ∈ l, x.valid = true) ∧ e.valid = false ∧
      e'.valid = true ∧ e'.count = inc16 s.countMaxNow ∧ e'.p = s.heap.next ∧
      t = { s with
        addr := l ++ e' :: r
        countMaxNow := inc16 s.countMaxNow
        heap := ⟨(s.heap.next, roundUp size) :: s.heap.blocks, s.heap.next + 1⟩ } := by
  rw [fbAlloc, if_neg hsize] at h
  cases ok with
  | false => exact absurd (congrArg Prod.fst h) (by simp [mallocInto, Heap.malloc])
  | true =>
    simp only [mallocInto, Heap.malloc, if_true] at h
    cases hpl : placeLoop s.heap.next s.markMaxNow (inc16 s.countMaxNow) s.addr with
    | none =>
      rw [hpl] at h
      exact absurd (congrArg Prod.fst h) (by simp)
    | some es' =>
      obtain ⟨l, e, r, hs, hl, he, rfl⟩ := placeLoop_eq_some hpl
      rw [hpl] at h
      exact ⟨l, e, _, r, hs, hl, he, rfl, rfl, rfl, (congrArg Prod.snd h).symm⟩

theorem fbAlloc_ready {s t : State} {size : ℕ} {ok : Bool} {p : Ptr} (h : fbAlloc s size ok = (.ok p, t))
    (hsize : size ≠ 0) (hs : Ready s) : Ready t := by
  obtain ⟨l, e, e', r, -, -, -, -, -, -, rfl⟩ := fbAlloc_ok h hsize
  refine ⟨Nat.mod_lt _ (by decide), fun b hb => ?_⟩
  rcases List.mem_cons.1 hb with rfl | hb
  · exact Nat.lt_succ_self _
  · exact Nat.lt_succ_of_lt (hs.fresh b hb)

/-- A block is freed again right after it was allocated, if no block in front has its number. -/
theorem free_of_alloc {s t : State} {size : ℕ} {ok : Bool} {p : Ptr} (h : fbAlloc s size ok = (.ok p, t))
    (hsize : size ≠ 0) (hs : Ready s) {cs : List ℕ} (hcs : inc16 s.countMaxNow ∉ cs) :
    (Clear (inc16 s.countMaxNow :: cs) s.addr → Clear cs t.addr ∧ SameTable s (fbFree t)) ∧
    (¬ Clear (inc16 s.countMaxNow :: cs) s.addr → ¬ Clear cs t.addr ∨ Lost s (fbFree t) [inc16 s.countMaxNow]) := by
  obtain ⟨l, e, e', r, haddr, hl, he, hv, hcount, hp, rfl⟩ := fbAlloc_ok h hsize
  rw [haddr, clear_place hcs he hv hcount r hl]
  constructor
  · rintro ⟨hfront, hclear⟩
    refine ⟨hclear, ?_⟩
    rw [fbFree]
    dsimp only
    rw [fbFreeLoop_append _ hv hcount r hfront]
    refine ⟨?_, ?_, rfl, ?_⟩
    · have hnone : visible e = none := if_neg (ne_true_of_eq_false he)
      rw [haddr, List.map_append, List.map_append, List.map_cons, List.map_cons, hnone]
      rfl
    · have hc := hs.count
      show dec16 (inc16 s.countMaxNow) = s.countMaxNow
      unfold dec16 inc16
      omega
    · dsimp only [Heap.free]
      rw [hp, List.filter_cons_of_neg (by simp)]
      exact List.filter_eq_self.2 fun b hb => by simpa using Nat.ne_of_lt (hs.fresh b hb)
  · intro hno
    by_cases hfront : ∀ x ∈ l, x.count ≠ inc16 s.countMaxNow
    · exact Or.inl fun hclear => hno ⟨hfront, hclear⟩
    · simp only [not_forall, not_not, exists_prop, ne_eq] at hfront
      obtain ⟨es, q, hf, i, x, hi, hxc, hnone⟩ := fbFreeLoop_front (inc16 s.countMaxNow) (e' :: r) hl hfront
      refine Or.inr ⟨i, x, ?_, hl x (List.mem_of_getElem? hi), List.mem_singleton.2 hxc, ?_⟩
      · have hlt : i < l.length := (List.getElem?_eq_some_iff.1 hi).1
        rw [haddr, List.getElem?_append_left hlt]
        exact hi
      · rw [fbFree]
        dsimp only
        rw [hf]
        exact hnone

/-- A block that was there after the allocation and is gone is not the new one, if it has another number. -/
theorem lost_of_alloc {s s₁ u : State} {size : ℕ} {ok : Bool} {p : Ptr} (h : fbAlloc s size ok = (.ok p, s₁))
    (hsize : size ≠ 0) {cs : List ℕ} (hcs : inc16 s.countMaxNow ∉ cs) (hlost : Lost s₁ u cs) : Lost s u cs := by
  obtain ⟨l, e, e', r, haddr, -, -, -, hcount, -, rfl⟩ := fbAlloc_ok h hsize
  obtain ⟨i, x, hx, hv, hc, hi⟩ := hlost
  refine ⟨i, x, ?_, hv, hc, hi⟩
  dsimp only at hx
  rw [haddr]
  rcases Nat.lt_trichotomy i l.length with hlt | heq | hgt
  · rw [List.getElem?_append_left hlt] at hx ⊢
    exact hx
  · rw [heq, List.getElem?_append_right (Nat.le_refl _), Nat.sub_self] at hx
    obtain rfl : e' = x := Option.some.inj hx
    exact absurd (hcount ▸ hc) hcs
  · rw [List.getElem?_append_right (by omega)] at hx ⊢
    obtain ⟨k, hk⟩ : ∃ k, i - l.length = k + 1 := ⟨i - l.length - 1, by omega⟩
    rw [hk, List.getElem?_cons_succ] at hx ⊢
    exact hx

theorem fbAlloc_count {s t : State} {size : ℕ} {ok : Bool} {p : Ptr} (h : fbAlloc s size ok = (.ok p, t))
    (hsize : size ≠ 0) : t.countMaxNow = inc16 s.countMaxNow := by
  obtain ⟨l, e, e', r, -, -, -, -, -, -, rfl⟩ := fbAlloc_ok h hsize
  rfl

theorem allocSizes_cons_ok {s t : State} {size : ℕ} {sizes : List ℕ} {ok : ℕ → Bool}
    (h : allocSizes s (size :: sizes) ok = (.ok (), t)) : ∃ p s₁, fbAlloc s size (ok 0) = (.ok p, s₁) ∧
      allocSizes s₁ sizes (fun i => ok (i + 1)) = (.ok (), t) := by
  rw [allocSizes] at h
  generalize fbAlloc s size (ok 0) = a at h ⊢
  obtain ⟨r, s₁⟩ := a
  cases r with
  | ok p => exact ⟨p, s₁, rfl, h⟩
  | error x => exact absurd (congrArg Prod.fst h) (by simp)

/-- As many calls of `fb_free` as there are blocks: the blocks of the caller are in the way, or not. -/
theorem frees_of_allocs : ∀ {sizes : List ℕ} {s t : State} {ok : ℕ → Bool},
    allocSizes s sizes ok = (.ok (), t) → sizes.length < 65535 → Ready s →
    (Clear (nextCounts s.countMaxNow (sizes.filter (· ≠ 0)).length) s.addr →
      SameTable s (fbFree^[(sizes.filter (· ≠ 0)).length] t)) ∧
    (¬ Clear (nextCounts s.countMaxNow (sizes.filter (· ≠ 0)).length) s.addr →
      Lost s (fbFree^[(sizes.filter (· ≠ 0)).length] t) (nextCounts s.countMaxNow (sizes.filter (· ≠ 0)).length))
  | [], s, t, ok, h, _, _ => by
    obtain rfl : s = t := congrArg Prod.snd h
    exact ⟨fun _ => SameTable.refl s, fun hno => absurd (clear_nil s.addr) hno⟩
  | size :: sizes, s, t, ok, h, hlen, hs => by
    obtain ⟨p, s₁, halloc, hrest⟩ := allocSizes_cons_ok h
    rw [List.length_cons] at hlen
    by_cases hsize : size = 0
    · -- an empty block leaves no trace
      obtain rfl : s = s₁ := by
        rw [fbAlloc, if_pos hsize] at halloc
        exact congrArg Prod.snd halloc
      rw [List.filter_cons_of_neg (by simpa using hsize)]
      exact frees_of_allocs hrest (by omega) hs
    · rw [List.filter_cons_of_pos (by simpa using hsize), List.length_cons, nextCounts,
        Function.iterate_succ_apply']
      have hn : (sizes.filter (· ≠ 0)).length < 65535 := lt_of_le_of_lt (List.length_filter_le _ _) (by omega)
      obtain ⟨hsame, hlost⟩ := frees_of_allocs hrest (by omega) (fbAlloc_ready halloc hsize hs)
      rw [fbAlloc_count halloc hsize] at hsame hlost
      generalize (sizes.filter (· ≠ 0)).length = n at hn hsame hlost ⊢
      have hcs := inc16_not_mem_nextCounts (c := s.countMaxNow) hn
      obtain ⟨h1, h2⟩ := free_of_alloc halloc hsize hs hcs
      constructor
      · intro hclear
        obtain ⟨hclear₁, hfree⟩ := h1 hclear
        exact hfree.trans (hsame hclear₁).free
      · intro hno
        by_cases hclear₁ : Clear (nextCounts (inc16 s.countMaxNow) n) s₁.addr
        · have hfirst := (h2 hno).resolve_left fun hno₁ => hno₁ hclear₁
          exact (hfirst.congr (hsame hclear₁).free).mono (List.cons_subset_cons _ (List.nil_subset _))
        · exact (lost_of_alloc halloc hsize hcs (hlost hclear₁)).free.mono (List.subset_cons_self _ _)

theorem frees_of_no_match {s : State} (h : ∀ e ∈ live s, e.count ≠ s.countMaxNow) : ∀ n : ℕ, fbFree^[n] s = s
  | 0 => rfl
  | n + 1 => by
    have hnone : fbFreeLoop s.countMaxNow s.addr = none :=
      fbFreeLoop_eq_none.2 fun e he hv => h e (List.mem_filter.2 ⟨he, hv⟩)
    rw [Function.iterate_succ_apply', frees_of_no_match h n, fbFree, hnone]

/-- `fb_free` takes a block of the caller if there is one with the current number. -/
theorem lost_of_match {s : State} (h : ∃ e ∈ live s, e.count = s.countMaxNow) :
    Lost s (fbFree s) [s.countMaxNow] := by
  obtain ⟨e, he, hc⟩ := h
  obtain ⟨hmem, hv⟩ := List.mem_filter.1 he
  cases hf : fbFreeLoop s.countMaxNow s.addr with
  | none => exact absurd hc (fbFreeLoop_eq_none.1 hf e hmem hv)
  | some r =>
    obtain ⟨es', q⟩ := r
    obtain ⟨l, x, r, hs, hxv, hxc, -, rfl⟩ := fbFreeLoop_eq_some hf
    refine ⟨l.length, x, ?_, hxv, List.mem_singleton.2 hxc, ?_⟩
    · rw [hs, List.getElem?_append_right (Nat.le_refl _), Nat.sub_self]
      rfl
    · rw [fbFree, hf]
      dsimp only
      rw [List.map_append, List.getElem?_append_right (by rw [List.length_map]), List.length_map, Nat.sub_self]
      rfl

theorem live_of_same {s s' : State} (h : SameTable s s') : live s' = live s := by
  have hlive : ∀ es : List Slot, es.filter (·.valid) = (es.map visible).filterMap id := by
    intro es
    induction es with
    | nil => rfl
    | cons e es ih =>
      rw [List.map_cons, List.filter_cons, ih]
      cases hv : e.valid
      · simp [visible, hv]
      · simp [visible, hv]
  rw [live, live, hlive, hlive, h.table]

/-- A filter that returns leaves the table as it was exactly if the caller's blocks are not in the way of its
    own, and none of them has the current number if there are more calls of `fb_free` than blocks. -/
theorem runFilter_same_iff {s : State} (hs : Ready s) {b : Branch} {ok : ℕ → Bool} (hlen : b.sizes.length < 65535)
    (hfrees : (b.sizes.filter (· ≠ 0)).length ≤ b.frees) (hret : (runFilter s b ok).raised = none) :
    SameTable s (runFilter s b ok).2 ↔
      Clear (nextCounts s.countMaxNow (b.sizes.filter (· ≠ 0)).length) s.addr ∧
      ((b.sizes.filter (· ≠ 0)).length < b.frees → ∀ e ∈ live s, e.count ≠ s.countMaxNow) := by
  obtain ⟨t, ht⟩ : ∃ t, allocSizes s b.sizes ok = (.ok (), t) := by
    unfold runFilter at hret
    generalize allocSizes s b.sizes ok = a at hret ⊢
    obtain ⟨r, t⟩ := a
    cases r with
    | ok _ => exact ⟨t, rfl⟩
    | error x => exact nomatch hret
  obtain ⟨hsame, hlost⟩ := frees_of_allocs ht hlen hs
  have hrun : (runFilter s b ok).2 = fbFree^[b.frees] t := by
    rw [runFilter, ht]
  rw [hrun]
  generalize (b.sizes.filter (· ≠ 0)).length = n at hfrees hsame hlost ⊢
  obtain ⟨k, hk⟩ := Nat.exists_eq_add_of_le' hfrees
  rw [hk, Function.iterate_add_apply]
  by_cases hclear : Clear (nextCounts s.countMaxNow n) s.addr
  · have hback := hsame hclear
    have hlive := live_of_same hback
    constructor
    · intro h
      refine ⟨hclear, fun hmore e he hc => ?_⟩
      obtain ⟨j, rfl⟩ : ∃ j, k = j + 1 := ⟨k - 1, by omega⟩
      rw [Function.iterate_succ_apply] at h
      have hgone := lost_of_match ⟨e, hlive ▸ he, hc.trans hback.count.symm⟩
      exact (hgone.frees j).not_same ((hback.symm).trans h)
    · rintro ⟨-, hmore⟩
      by_cases hk0 : k = 0
      · rw [hk0]
        exact hback
      · rw [frees_of_no_match (fun e he => hback.count ▸ hmore (by omega) e (hlive ▸ he))]
        exact hback
  · exact ⟨fun h => absurd h ((hlost hclear).frees k).not_same, fun h => absurd h.1 hclear⟩

/-! ### Filters in any run -/

theorem ready_step {s : State} (hs : Ready s) (op : Op) : Ready (step s op) := by
  refine ⟨?_, fun b hb => ?_⟩
  · have hm : ∀ bytes ok, (mallocInto s bytes ok).2.countMaxNow < 65536 := by
      intro bytes ok
      cases ok with
      | false => exact hs.count
      | true =>
        simp only [mallocInto, Heap.malloc, if_true]
        cases placeLoop s.heap.next s.markMaxNow (inc16 s.countMaxNow) s.addr with
        | none => exact hs.count
        | some es' => exact Nat.mod_lt _ (by decide)
    have hdec : ∀ n, dec16^[n] s.countMaxNow < 65536 := by
      intro n
      cases n with
      | zero => exact hs.count
      | succ n =>
        rw [Function.iterate_succ_apply']
        exact Nat.mod_lt _ (by decide)
    have hfree : ∀ fp, (intFbAllocFreeTillMark fp s).countMaxNow < 65536 := by
      intro fp
      rw [intFbAllocFreeTillMark]
      dsimp only
      rw [freeLoop_count]
      exact hdec _
    cases op with
    | init0 => exact Nat.succ_pos _
    | alloc size ok =>
      rw [step, exec, fbAlloc]
      split_ifs
      · exact hs.count
      · exact hm _ ok
    | allocAll ok =>
      rw [step, exec, (fbAllocAll_eq s ok).2]
      exact hm _ ok
    | free =>
      simp only [step, exec, fbFree]
      split
      · exact hs.count
      · exact Nat.mod_lt _ (by decide)
    | freeAll => exact Nat.succ_pos _
    | freeTillMark => exact hfree false
    | freeTillMarkPastMarkPermanent => exact hfree true
    | mark | markPermanent => exact hs.count
  · have hle : s.next ≤ (step s op).next := next_le_step s op
    obtain ⟨hold | hnew, -⟩ := (mem_blocks_step s op b.1).1 (List.mem_map_of_mem hb)
    · obtain ⟨b', hb', heq⟩ := List.mem_map.1 hold
      exact heq ▸ lt_of_lt_of_le (hs.fresh b' hb') hle
    · have hrange := List.mem_range'_1.1 hnew
      rw [Nat.add_sub_cancel' hle] at hrange
      exact hrange.2

theorem ready_runOps (ops : List Op) : Ready (runOps ops) := by
  induction ops using List.reverseRecOn with
  | nil => exact ⟨Nat.succ_pos _, fun b hb => nomatch hb⟩
  | append_singleton ops op ih =>
    rw [runOps_concat]
    exact ready_step ih op

/-- How many of the blocks are not empty. -/
def Branch.blocks (b : Branch) : ℕ := (b.sizes.filter (· ≠ 0)).length

/-- The formats the filters are for. -/
def Filtered : Bpp → Prop
  | .binary | .grayscale | .rgb565 => True
  | .bayer | .jpeg => False

instance : DecidablePred Filtered
  | .binary | .grayscale | .rgb565 => .isTrue trivial
  | .bayer | .jpeg => .isFalse id

/-- There are more calls of `fb_free` than blocks if the line buffer is empty, and in one branch always. -/
theorem blocks_lt_frees_iff (f : Filter) (img : Image) (ksize : ℤ) :
    (f.branch img ksize).blocks ≤ (f.branch img ksize).frees ∧
    ((f.branch img ksize).blocks < (f.branch img ksize).frees ↔
      f = .mode ∧ img.bpp = .binary ∨ Filtered img.bpp ∧ bufSize img ksize = 0) := by
  by_cases h0 : bufSize img ksize = 0
  · cases f
    all_goals
      cases hb : img.bpp
      all_goals simp [Filter.branch, imlibMeanFilter, imlibMedianFilter, imlibModeFilter, imlibMidpointFilter,
        imlibMorph, Branch.blocks, Filtered, hb, h0]
  · cases f
    all_goals
      cases hb : img.bpp
      all_goals simp [Filter.branch, imlibMeanFilter, imlibMedianFilter, imlibModeFilter, imlibMidpointFilter,
        imlibMorph, Branch.blocks, Filtered, hb, h0]

theorem length_sizes (f : Filter) (img : Image) (ksize : ℤ) : (f.branch img ksize).sizes.length ≤ 4 := by
  cases f
  all_goals
    cases hb : img.bpp
    all_goals simp [Filter.branch, imlibMeanFilter, imlibMedianFilter, imlibModeFilter, imlibMidpointFilter,
      imlibMorph, hb]

/-- A filter called at any point, with any image and size, that returns. -/
theorem filter_balanced_iff (ops : List Op) (f : Filter) (img : Image) (ksize : ℤ) (ok : ℕ → Bool)
    (hret : (runFilter (runOps ops) (f.branch img ksize) ok).raised = none) :
    SameTable (runOps ops) (runFilter (runOps ops) (f.branch img ksize) ok).2 ↔
      Clear (nextCounts (runOps ops).countMaxNow (f.branch img ksize).blocks) (runOps ops).addr ∧
      (f = .mode ∧ img.bpp = .binary ∨ Filtered img.bpp ∧ bufSize img ksize = 0 →
        ∀ e ∈ live (runOps ops), e.count ≠ (runOps ops).countMaxNow) := by
  obtain ⟨hle, hlt⟩ := blocks_lt_frees_iff f img ksize
  have hlen := length_sizes f img ksize
  rw [← hlt]
  exact runFilter_same_iff (ready_runOps ops) (by omega) hle hret

/-- The mean filter, with a block of the caller. -/
theorem mean_filter_keeps_block :
    SameTable (runOps [.alloc 4 true])
      (runFilter (runOps [.alloc 4 true]) (Filter.mean.branch ⟨8, 8, .grayscale, fun _ _ => 0⟩ 1) fun _ => true).2 :=
  (filter_balanced_iff [.alloc 4 true] .mean ⟨8, 8, .grayscale, fun _ _ => 0⟩ 1 (fun _ => true) (by decide)).2
    ⟨by decide, fun h => absurd h (by decide)⟩

/-- The mode filter on a binary image frees the block of the caller. -/
theorem mode_filter_frees_block :
    ¬ SameTable (runOps [.alloc 4 true])
      (runFilter (runOps [.alloc 4 true]) (Filter.mode.branch ⟨8, 8, .binary, fun _ _ => 0⟩ 1) fun _ => true).2 := by
  intro h
  exact absurd h.count (by decide)

end OpenMV.FbAlloc
