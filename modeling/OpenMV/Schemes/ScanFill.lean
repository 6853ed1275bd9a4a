import Mathlib.Algebra.BigOperators.Group.Finset.Basic
import Mathlib.Algebra.Group.Action.Defs
import Mathlib.Data.Int.Cast.Lemmas
import Mathlib.Data.Finset.Image
import Mathlib.Data.Finset.Prod
import Mathlib.Data.List.Perm.Basic
import Mathlib.Logic.Relation

/-! Scanline fill over a grid | scheme:worklist

    A fill starts from a seed cell, grows it to a horizontal span, marks the span and then looks for
    cells to continue from in the row above and in the row below. When it finds one it pushes a
    context (the span with the two cursors up to which the rows were examined) and starts over from
    that cell; when a span has nothing left to continue from it is finished and the last context is
    resumed. Whether a step from one cell to the next is allowed is a fixed relation `edge`, so the
    same machine computes a connected region and a region grown by a path dependent condition.

    The main result, `fill_spec`: the machine halts, and unless its stack ran full the marked cells
    are those marked before plus the cells reachable from the seed, covered by spans that are
    pairwise disjoint and each finished exactly once. -/

namespace OpenMV.Schemes.ScanFill

/-- A cell of the grid, as the pair (x, y). -/
abbrev Cell := ℤ × ℤ

/-- The cells of row `y` from column `l` to column `r`, both included. -/
structure Span where
  y : ℤ
  l : ℤ
  r : ℤ
deriving DecidableEq, Repr

instance : Membership Cell Span := ⟨fun s p => p.2 = s.y ∧ s.l ≤ p.1 ∧ p.1 ≤ s.r⟩

theorem Span.mem_iff {s : Span} {p : Cell} : p ∈ s ↔ p.2 = s.y ∧ s.l ≤ p.1 ∧ p.1 ≤ s.r := Iff.rfl

instance (s : Span) (p : Cell) : Decidable (p ∈ s) := decidable_of_iff' _ Span.mem_iff

/-- No cell lies in both spans. -/
def Span.Apart (s t : Span) : Prop := ∀ p : Cell, p ∈ s → p ∉ t

theorem Span.Apart.symm {s t : Span} (h : s.Apart t) : t.Apart s := fun p ht hs => h p hs ht

/-- A span that still has to be continued: `tl` and `bl` are the columns from which the row above
    and the row below are yet to be examined, `x` the column the span was grown from. -/
structure Ctx where
  x : ℤ
  y : ℤ
  l : ℤ
  r : ℤ
  tl : ℤ
  bl : ℤ
deriving DecidableEq, Repr

def Ctx.span (c : Ctx) : Span := ⟨c.y, c.l, c.r⟩

/-- The grid `x0 ≤ x < x1`, `y0 ≤ y < y1` and the steps allowed in it. -/
structure Grid where
  x0 : ℤ
  x1 : ℤ
  y0 : ℤ
  y1 : ℤ
  edge : Cell → Cell → Bool

/-- What the client of the fill computes along the way: when a span is marked, at each examined cell
    that is not continued from (with its mark), at a row that is outside the grid, when a span is
    given up because the stack is full, and when a span is finished. -/
structure Hooks (β : Type*) where
  mark : β → Span → β
  miss : β → Span → ℤ → Bool → β
  border : β → Span → β
  full : β → Span → β
  finish : β → Span → β

/-- A fill: its grid, the number of contexts the stack holds, how a context is represented there,
    and the client's hooks. -/
structure Machine (β : Type*) extends Grid where
  cap : ℕ
  pack : Ctx → Ctx
  hooks : Hooks β

/-- Grow a span from a cell, look around a span, or nothing left to do. -/
inductive Ctl where
  | grow (x y : ℤ)
  | look (c : Ctx)
  | done
deriving DecidableEq, Repr

/-- `marked` and `finished` are history: the spans marked and the spans finished so far, last first.
    `full` records that the stack ran full. -/
structure State (β : Type*) where
  ctl : Ctl
  stack : List Ctx
  vis : Cell → Bool
  acc : β
  full : Bool
  marked : List Span
  finished : List Span

variable {β : Type*}

/-! ### The machine -/

section Machine

variable (M : Machine β)

/-- The left end of the span through column `l` of row `y`. -/
def Machine.growLeft (vis : Cell → Bool) (y : ℤ) : ℕ → ℤ → ℤ
  | 0, l => l
  | n + 1, l =>
    if M.x0 < l && (!vis (l - 1, y) && M.edge (l, y) (l - 1, y)) then Machine.growLeft vis y n (l - 1) else l

/-- The right end of the span through column `r` of row `y`. -/
def Machine.growRight (vis : Cell → Bool) (y : ℤ) : ℕ → ℤ → ℤ
  | 0, r => r
  | n + 1, r =>
    if r < M.x1 - 1 && (!vis (r + 1, y) && M.edge (r, y) (r + 1, y)) then Machine.growRight vis y n (r + 1)
    else r

/-- The first of `n` columns from `i` on where the fill can continue from span `sp` into row `y'`. -/
def Machine.sweep (vis : Cell → Bool) (sp : Span) (y' : ℤ) : ℕ → ℤ → β → Option ℤ × β
  | 0, _, b => (none, b)
  | n + 1, i, b =>
    if !vis (i, y') && M.edge (i, sp.y) (i, y') then (some i, b)
    else Machine.sweep vis sp y' n (i + 1) (M.hooks.miss b sp i (vis (i, y')))

/-- Examine the row above the span, from its cursor to the right end of the span. -/
def Machine.lookUp (vis : Cell → Bool) (c : Ctx) (b : β) : Option ℤ × β :=
  if M.y0 < c.y then M.sweep vis c.span (c.y - 1) (c.r + 1 - c.tl).toNat c.tl b
  else (none, M.hooks.border b c.span)

/-- Examine the row below the span. -/
def Machine.lookDown (vis : Cell → Bool) (c : Ctx) (b : β) : Option ℤ × β :=
  if c.y < M.y1 - 1 then M.sweep vis c.span (c.y + 1) (c.r + 1 - c.bl).toNat c.bl b
  else (none, M.hooks.border b c.span)

/-- The span is finished; the last context is resumed. -/
def Machine.close (s : State β) (c : Ctx) (b : β) : State β :=
  let s := { s with acc := M.hooks.finish b c.span, finished := c.span :: s.finished }
  match s.stack with
  | [] => { s with ctl := .done }
  | d :: stack => { s with ctl := .look d, stack := stack }

/-- One round of the fill's loops. -/
def Machine.step (s : State β) : State β :=
  match s.ctl with
  | .done => s
  | .grow x y =>
    let l := M.growLeft s.vis y (x - M.x0).toNat x
    let r := M.growRight s.vis y (M.x1 - 1 - x).toNat x
    let sp : Span := ⟨y, l, r⟩
    { s with ctl := .look ⟨x, y, l, r, l, l⟩, vis := fun p => s.vis p || decide (p ∈ sp),
             acc := M.hooks.mark s.acc sp, marked := sp :: s.marked }
  | .look c =>
    if s.stack.length < M.cap then
      match M.lookUp s.vis c s.acc with
      | (some i, b) => { s with ctl := .grow i (c.y - 1), acc := b,
                                stack := M.pack { c with tl := i + 1 } :: s.stack }
      | (none, b) =>
        match M.lookDown s.vis c b with
        | (some i, b) => { s with ctl := .grow i (c.y + 1), acc := b,
                                  stack := M.pack { c with bl := i + 1 } :: s.stack }
        | (none, b) => M.close s c b
    else M.close { s with full := true } c (M.hooks.full s.acc c.span)

/-- Run the machine until it is done, for at most `n` rounds. -/
def Machine.exec : ℕ → State β → Option (State β)
  | 0, s => if s.ctl = .done then some s else none
  | n + 1, s => if s.ctl = .done then some s else Machine.exec n (M.step s)

/-- The state a fill starts in. -/
def start (vis : Cell → Bool) (seed : Cell) (b : β) : State β :=
  { ctl := .grow seed.1 seed.2, stack := [], vis := vis, acc := b, full := false, marked := [],
    finished := [] }

end Machine

/-! ### What a fill is for -/

/-- The 4-neighbours of a cell. -/
def Adj (p q : Cell) : Prop :=
  (q.2 = p.2 ∧ (q.1 = p.1 + 1 ∨ q.1 = p.1 - 1)) ∨ (q.1 = p.1 ∧ (q.2 = p.2 + 1 ∨ q.2 = p.2 - 1))

def Grid.Mem (G : Grid) (p : Cell) : Prop := G.x0 ≤ p.1 ∧ p.1 < G.x1 ∧ G.y0 ≤ p.2 ∧ p.2 < G.y1

/-- One step of the region: to a neighbour inside the grid, along an allowed step, not marked
    before the fill began. -/
def Grid.Link (G : Grid) (vis₀ : Cell → Bool) (p q : Cell) : Prop :=
  Adj p q ∧ G.Mem q ∧ G.edge p q = true ∧ vis₀ q = false

/-- The cells reachable from the seed. -/
def Grid.Reach (G : Grid) (vis₀ : Cell → Bool) (seed p : Cell) : Prop :=
  Relation.ReflTransGen (G.Link vis₀) seed p

/-- The context lies in the grid, with its cursors on the span or just behind it. -/
structure Ctx.Fits (G : Grid) (c : Ctx) : Prop where
  row : G.y0 ≤ c.y ∧ c.y < G.y1
  from_col : G.x0 ≤ c.x ∧ c.x < G.x1
  cols : G.x0 ≤ c.l ∧ c.l ≤ c.r ∧ c.r < G.x1
  top : c.l ≤ c.tl ∧ c.tl ≤ c.r + 1
  bot : c.l ≤ c.bl ∧ c.bl ≤ c.r + 1

theorem Ctx.Fits.top_behind {G : Grid} {c : Ctx} (hc : c.Fits G) {i : ℤ} (h1 : c.tl ≤ i)
    (h2 : i ≤ c.r) : Ctx.Fits G { c with tl := i + 1 } :=
  ⟨hc.row, hc.from_col, hc.cols, ⟨by have := hc.top; dsimp; omega, by dsimp; omega⟩, hc.bot⟩

theorem Ctx.Fits.bot_behind {G : Grid} {c : Ctx} (hc : c.Fits G) {i : ℤ} (h1 : c.bl ≤ i)
    (h2 : i ≤ c.r) : Ctx.Fits G { c with bl := i + 1 } :=
  ⟨hc.row, hc.from_col, hc.cols, hc.top, ⟨by have := hc.bot; dsimp; omega, by dsimp; omega⟩⟩

/-! ### The loops of one round -/

variable {M : Machine β}

/-- The grown part is unmarked and linked cell by cell, and it ends at the grid's border, at a marked
    cell or at a cell the last one has no step to. -/
theorem growLeft_spec (vis : Cell → Bool) (y : ℤ) : ∀ (n : ℕ) (l : ℤ), M.x0 ≤ l → l - M.x0 ≤ n →
    M.x0 ≤ M.growLeft vis y n l ∧ M.growLeft vis y n l ≤ l ∧
    (∀ x, M.growLeft vis y n l ≤ x → x < l → vis (x, y) = false ∧ M.edge (x + 1, y) (x, y) = true) ∧
    (M.x0 ≤ M.growLeft vis y n l - 1 →
      M.edge (M.growLeft vis y n l, y) (M.growLeft vis y n l - 1, y) = true →
      vis (M.growLeft vis y n l - 1, y) = true)
  | 0, l, h0, hn => by
      refine ⟨h0, le_rfl, fun x h1 h2 => absurd h1 (by simpa [Machine.growLeft] using h2), ?_⟩
      intro h
      simp only [Machine.growLeft, Nat.cast_zero] at h hn
      omega
  | n + 1, l, h0, hn => by
      simp only [Machine.growLeft]
      split_ifs with h
      · simp only [Bool.and_eq_true, Bool.not_eq_true', decide_eq_true_eq] at h
        obtain ⟨hlt, hvis, hedge⟩ := h
        obtain ⟨h1, h2, h3, h4⟩ := growLeft_spec vis y n (l - 1) (by omega)
          (by push_cast at hn; omega)
        refine ⟨h1, by omega, fun x hx hxl => ?_, h4⟩
        rcases eq_or_ne x (l - 1) with rfl | hne
        · exact ⟨hvis, by simpa using hedge⟩
        · exact h3 x hx (by omega)
      · refine ⟨h0, le_rfl, fun x h1 h2 => absurd h1 (by omega), fun h1 h2 => ?_⟩
        by_contra hvis
        simp only [Bool.not_eq_true] at hvis
        simp [hvis, h2] at h
        omega

theorem growRight_spec (vis : Cell → Bool) (y : ℤ) : ∀ (n : ℕ) (r : ℤ), r < M.x1 →
    M.x1 - 1 - r ≤ n →
    M.growRight vis y n r < M.x1 ∧ r ≤ M.growRight vis y n r ∧
    (∀ x, r < x → x ≤ M.growRight vis y n r →
      vis (x, y) = false ∧ M.edge (x - 1, y) (x, y) = true) ∧
    (M.growRight vis y n r + 1 < M.x1 →
      M.edge (M.growRight vis y n r, y) (M.growRight vis y n r + 1, y) = true →
      vis (M.growRight vis y n r + 1, y) = true)
  | 0, r, h0, hn => by
      refine ⟨h0, le_rfl, fun x h1 h2 => absurd h2 (by simpa [Machine.growRight] using h1), ?_⟩
      intro h
      simp only [Machine.growRight, Nat.cast_zero] at h hn
      omega
  | n + 1, r, h0, hn => by
      simp only [Machine.growRight]
      split_ifs with h
      · simp only [Bool.and_eq_true, Bool.not_eq_true', decide_eq_true_eq] at h
        obtain ⟨hlt, hvis, hedge⟩ := h
        obtain ⟨h1, h2, h3, h4⟩ := growRight_spec vis y n (r + 1) (by omega)
          (by push_cast at hn; omega)
        refine ⟨h1, by omega, fun x hx hxr => ?_, h4⟩
        rcases eq_or_ne x (r + 1) with rfl | hne
        · exact ⟨hvis, by simpa using hedge⟩
        · exact h3 x (by omega) hxr
      · refine ⟨h0, le_rfl, fun x h1 h2 => absurd h2 (by omega), fun h1 h2 => ?_⟩
        by_contra hvis
        simp only [Bool.not_eq_true] at hvis
        simp [hvis, h2] at h
        omega

/-- The sweep stops at the first column where the fill can continue. -/
theorem sweep_spec (vis : Cell → Bool) (sp : Span) (y' : ℤ) : ∀ (n : ℕ) (i : ℤ) (b : β),
    (∀ x, i ≤ x → (∀ j, (M.sweep vis sp y' n i b).1 = some j → x < j) → x < i + n →
      M.edge (x, sp.y) (x, y') = true → vis (x, y') = true) ∧
    ∀ j, (M.sweep vis sp y' n i b).1 = some j →
      i ≤ j ∧ j < i + n ∧ vis (j, y') = false ∧ M.edge (j, sp.y) (j, y') = true
  | 0, i, b => by
      refine ⟨fun x h1 _ h2 => ?_, fun j hj => ?_⟩
      · simp at h2
        omega
      · simp [Machine.sweep] at hj
  | n + 1, i, b => by
      simp only [Machine.sweep]
      split_ifs with h
      · simp only [Bool.and_eq_true, Bool.not_eq_true'] at h
        refine ⟨fun x h1 h2 _ => absurd (h2 i rfl) (by omega), fun j hj => ?_⟩
        obtain rfl : i = j := by simpa using hj
        exact ⟨le_rfl, by push_cast; omega, h.1, h.2⟩
      · obtain ⟨h1, h2⟩ := sweep_spec vis sp y' n (i + 1)
          (M.hooks.miss b sp i (vis (i, y')))
        refine ⟨fun x hx hj hn hedge => ?_, fun j hj => ?_⟩
        · rcases eq_or_ne x i with rfl | hne
          · by_contra hvis
            simp [Bool.not_eq_true] at hvis
            simp [hvis, hedge] at h
          · exact h1 x (by omega) hj (by push_cast at hn; omega) hedge
        · obtain ⟨h3, h4, h5⟩ := h2 j hj
          exact ⟨by omega, by push_cast; omega, h5⟩

/-- Nothing to continue into: the step leaves the grid, is not allowed, or leads to a cell in `A`. -/
def Grid.Blocked (G : Grid) (A : Cell → Prop) (p q : Cell) : Prop :=
  G.Mem q → G.edge p q = true → A q

theorem Grid.Blocked.mono {G : Grid} {A B : Cell → Prop} {p q : Cell} (h : G.Blocked A p q)
    (hAB : ∀ q, A q → B q) : G.Blocked B p q := fun hm he => hAB q (h hm he)

/-- The row above, from the cursor up to the column returned, or to the end of the span. -/
theorem lookUp_spec (vis : Cell → Bool) {c : Ctx} (b : β) (hc : c.Fits M.toGrid) :
    (∀ x, c.tl ≤ x → x ≤ c.r → (∀ j, (M.lookUp vis c b).1 = some j → x < j) →
      M.Blocked (vis ·) (x, c.y) (x, c.y - 1)) ∧
    ∀ j, (M.lookUp vis c b).1 = some j → c.tl ≤ j ∧ j ≤ c.r ∧ M.Mem (j, c.y - 1) ∧
      vis (j, c.y - 1) = false ∧ M.edge (j, c.y) (j, c.y - 1) = true := by
  have hcols := hc.cols
  have hrow := hc.row
  have htop := hc.top
  unfold Machine.lookUp
  split_ifs with h
  · obtain ⟨h1, h2⟩ := sweep_spec (M := M) vis c.span (c.y - 1) (c.r + 1 - c.tl).toNat c.tl b
    refine ⟨fun x hx hr hj _ => h1 x hx hj (by omega), fun j hj => ?_⟩
    obtain ⟨h3, h4, h5⟩ := h2 j hj
    exact ⟨h3, by omega, ⟨by dsimp; omega, by dsimp; omega, by dsimp; omega, by dsimp; omega⟩, h5⟩
  · refine ⟨fun x _ _ _ hmem => ?_, fun j hj => by simp at hj⟩
    have := hmem.2.2.1
    dsimp at this
    omega

theorem lookDown_spec (vis : Cell → Bool) {c : Ctx} (b : β) (hc : c.Fits M.toGrid) :
    (∀ x, c.bl ≤ x → x ≤ c.r → (∀ j, (M.lookDown vis c b).1 = some j → x < j) →
      M.Blocked (vis ·) (x, c.y) (x, c.y + 1)) ∧
    ∀ j, (M.lookDown vis c b).1 = some j → c.bl ≤ j ∧ j ≤ c.r ∧ M.Mem (j, c.y + 1) ∧
      vis (j, c.y + 1) = false ∧ M.edge (j, c.y) (j, c.y + 1) = true := by
  have hcols := hc.cols
  have hrow := hc.row
  have hbot := hc.bot
  unfold Machine.lookDown
  split_ifs with h
  · obtain ⟨h1, h2⟩ := sweep_spec (M := M) vis c.span (c.y + 1) (c.r + 1 - c.bl).toNat c.bl b
    refine ⟨fun x hx hr hj _ => h1 x hx hj (by omega), fun j hj => ?_⟩
    obtain ⟨h3, h4, h5⟩ := h2 j hj
    exact ⟨h3, by omega, ⟨by dsimp; omega, by dsimp; omega, by dsimp; omega, by dsimp; omega⟩, h5⟩
  · refine ⟨fun x _ _ _ hmem => ?_, fun j hj => by simp at hj⟩
    have := hmem.2.2.2
    dsimp at this
    omega

/-- Continue from span `c` into the cell `q`, with the context `c'` pushed. -/
def State.descend (s : State β) (c' : Ctx) (q : Cell) (b : β) : State β :=
  { s with ctl := .grow q.1 q.2, acc := b, stack := c' :: s.stack }

/-- Everything a round that looks around a span can do. -/
theorem step_look (hpack : ∀ c : Ctx, c.Fits M.toGrid → M.pack c = c) {s : State β} {c : Ctx}
    (hs : s.ctl = .look c) (hc : c.Fits M.toGrid) :
    (∃ i b, c.tl ≤ i ∧ i ≤ c.r ∧ M.Mem (i, c.y - 1) ∧ s.vis (i, c.y - 1) = false ∧
      M.edge (i, c.y) (i, c.y - 1) = true ∧
      (∀ x, c.tl ≤ x → x < i → M.Blocked (s.vis ·) (x, c.y) (x, c.y - 1)) ∧
      M.step s = s.descend { c with tl := i + 1 } (i, c.y - 1) b) ∨
    (∃ i b, c.bl ≤ i ∧ i ≤ c.r ∧ M.Mem (i, c.y + 1) ∧ s.vis (i, c.y + 1) = false ∧
      M.edge (i, c.y) (i, c.y + 1) = true ∧
      (∀ x, c.bl ≤ x → x < i → M.Blocked (s.vis ·) (x, c.y) (x, c.y + 1)) ∧
      M.step s = s.descend { c with bl := i + 1 } (i, c.y + 1) b) ∨
    (∃ b, (∀ x, c.tl ≤ x → x ≤ c.r → M.Blocked (s.vis ·) (x, c.y) (x, c.y - 1)) ∧
      (∀ x, c.bl ≤ x → x ≤ c.r → M.Blocked (s.vis ·) (x, c.y) (x, c.y + 1)) ∧
      M.step s = M.close s c b) ∨
    ∃ b, M.step s = M.close { s with full := true } c b := by
  have hcols := hc.cols
  by_cases hcap : s.stack.length < M.cap
  swap
  · exact .inr (.inr (.inr ⟨_, by simp only [Machine.step, hs, if_neg hcap]; rfl⟩))
  obtain ⟨hup, hupj⟩ := lookUp_spec s.vis s.acc hc
  rcases hU : M.lookUp s.vis c s.acc with ⟨_ | i, b⟩
  · obtain ⟨hdn, hdnj⟩ := lookDown_spec s.vis b hc
    rcases hD : M.lookDown s.vis c b with ⟨_ | i, b'⟩
    · refine .inr (.inr (.inl ⟨b', fun x h1 h2 => hup x h1 h2 (by simp [hU]),
        fun x h1 h2 => hdn x h1 h2 (by simp [hD]), ?_⟩))
      simp only [Machine.step, hs, if_pos hcap, hU, hD]
    · obtain ⟨h1, h2, hmem, hvis, hedge⟩ := hdnj i (by rw [hD])
      refine .inr (.inl ⟨i, b', h1, h2, hmem, hvis, hedge, fun x hx hi => hdn x hx (by omega) ?_, ?_⟩)
      · simp only [hD, Option.some.injEq, forall_eq']
        exact hi
      · simp only [Machine.step, hs, if_pos hcap, hU, hD, hpack _ (hc.bot_behind h1 h2)]
        rfl
  · obtain ⟨h1, h2, hmem, hvis, hedge⟩ := hupj i (by rw [hU])
    refine .inl ⟨i, b, h1, h2, hmem, hvis, hedge, fun x hx hi => hup x hx (by omega) ?_, ?_⟩
    · simp only [hU, Option.some.injEq, forall_eq']
      exact hi
    · simp only [Machine.step, hs, if_pos hcap, hU, hpack _ (hc.top_behind h1 h2)]
      rfl

/-! ### The invariant -/

/-- The contexts still to be continued: the span being looked at and the stack. -/
def State.ctxs (s : State β) : List Ctx :=
  match s.ctl with
  | .look c => c :: s.stack
  | _ => s.stack

/-- The cell lies in a span marked by this fill. -/
def State.Marked (s : State β) (p : Cell) : Prop := ∃ sp ∈ s.marked, p ∈ sp

/-- The cell is marked, or is the one the next span grows from. -/
def State.Seen (s : State β) (p : Cell) : Prop := s.vis p = true ∨ s.ctl = .grow p.1 p.2

/-- The rows above and below the context's span were examined up to the two cursors. -/
def Ctx.Examined (G : Grid) (A : Cell → Prop) (c : Ctx) : Prop :=
  (∀ x, c.l ≤ x → x < c.tl → G.Blocked A (x, c.y) (x, c.y - 1)) ∧
  ∀ x, c.l ≤ x → x < c.bl → G.Blocked A (x, c.y) (x, c.y + 1)

/-- The span cannot be left upwards or downwards. -/
def Span.Enclosed (G : Grid) (A : Cell → Prop) (sp : Span) : Prop :=
  ∀ x, sp.l ≤ x → x ≤ sp.r →
    G.Blocked A (x, sp.y) (x, sp.y - 1) ∧ G.Blocked A (x, sp.y) (x, sp.y + 1)

/-- The span cannot be left to either side. -/
def Span.Ended (G : Grid) (A : Cell → Prop) (sp : Span) : Prop :=
  G.Blocked A (sp.l, sp.y) (sp.l - 1, sp.y) ∧ G.Blocked A (sp.r, sp.y) (sp.r + 1, sp.y)

/-- The invariant of a fill from `seed` over the marks `vis₀`. -/
structure Inv (M : Machine β) (vis₀ : Cell → Bool) (seed : Cell) (s : State β) : Prop where
  vis_iff : ∀ p, s.vis p = true ↔ vis₀ p = true ∨ s.Marked p
  marked_reach : ∀ p, s.Marked p → M.Reach vis₀ seed p
  nonempty : ∀ sp ∈ s.marked, sp.l ≤ sp.r
  apart : s.marked.Pairwise Span.Apart
  ended : ∀ sp ∈ s.marked, sp.Ended M.toGrid s.Seen
  perm : (s.finished ++ s.ctxs.map Ctx.span).Perm s.marked
  enclosed : s.full = false → ∀ sp ∈ s.finished, sp.Enclosed M.toGrid s.Seen
  fits : ∀ c ∈ s.ctxs, c.Fits M.toGrid
  examined : ∀ c ∈ s.ctxs, c.Examined M.toGrid s.Seen
  target : ∀ x y, s.ctl = .grow x y →
    M.Mem (x, y) ∧ s.vis (x, y) = false ∧ M.Reach vis₀ seed (x, y)
  seed_seen : s.Seen seed
  done_stack : s.ctl = .done → s.stack = []

theorem Span.Enclosed.mono {G : Grid} {A B : Cell → Prop} {sp : Span} (h : sp.Enclosed G A)
    (hAB : ∀ q, A q → B q) : sp.Enclosed G B :=
  fun x h1 h2 => ⟨(h x h1 h2).1.mono hAB, (h x h1 h2).2.mono hAB⟩

theorem Span.Ended.mono {G : Grid} {A B : Cell → Prop} {sp : Span} (h : sp.Ended G A)
    (hAB : ∀ q, A q → B q) : sp.Ended G B := ⟨h.1.mono hAB, h.2.mono hAB⟩

theorem Ctx.Examined.mono {G : Grid} {A B : Cell → Prop} {c : Ctx} (h : c.Examined G A)
    (hAB : ∀ q, A q → B q) : c.Examined G B :=
  ⟨fun x h1 h2 => (h.1 x h1 h2).mono hAB, fun x h1 h2 => (h.2 x h1 h2).mono hAB⟩

theorem inv_start {vis₀ : Cell → Bool} {seed : Cell} (hseed : M.Mem seed) (h0 : vis₀ seed = false)
    (b : β) : Inv M vis₀ seed (start vis₀ seed b) where
  vis_iff := by simp [start, State.Marked]
  marked_reach := by simp [start, State.Marked]
  nonempty := by simp [start]
  apart := by simp [start]
  ended := by simp [start]
  perm := by simp [start, State.ctxs]
  enclosed := by simp [start]
  fits := by simp [start, State.ctxs]
  examined := by simp [start, State.ctxs]
  target := by
    rintro x y ⟨⟩
    exact ⟨hseed, h0, .refl⟩
  seed_seen := .inr rfl
  done_stack := fun _ => rfl

section Steps

variable {vis₀ : Cell → Bool} {seed : Cell} {s : State β}

/-- Pushing the context of a span and growing from a neighbour keeps the invariant. -/
theorem Inv.descend (h : Inv M vis₀ seed s) {c c' : Ctx} {q : Cell} (hs : s.ctl = .look c)
    (hspan : c'.span = c.span) (hfits : c'.Fits M.toGrid)
    (hex : c'.Examined M.toGrid (fun p => s.vis p = true ∨ p = q)) (hmem : M.Mem q)
    (hvis : s.vis q = false) (hreach : M.Reach vis₀ seed q) (b : β) :
    Inv M vis₀ seed (s.descend c' q b) := by
  have hctxs : s.ctxs = c :: s.stack := by simp [State.ctxs, hs]
  have hctxs' : (s.descend c' q b).ctxs = c' :: s.stack := rfl
  have hseen : ∀ p, s.Seen p → (s.descend c' q b).Seen p := by
    rintro p (hp | hp)
    · exact .inl hp
    · simp [hs] at hp
  refine ⟨h.vis_iff, h.marked_reach, h.nonempty, h.apart,
    fun sp hsp => (h.ended sp hsp).mono hseen, ?_, fun hf sp hsp => (h.enclosed hf sp hsp).mono hseen, ?_, ?_, ?_,
    hseen _ h.seed_seen,
    fun hd => by cases hd⟩
  · -- perm
    have hp := h.perm
    rw [hctxs, List.map_cons, ← hspan] at hp
    rw [hctxs', List.map_cons]
    exact hp
  · -- fits
    rw [hctxs']
    intro d hd
    rcases List.mem_cons.mp hd with rfl | hd
    · exact hfits
    · exact h.fits d (hctxs ▸ List.mem_cons_of_mem _ hd)
  · -- examined
    rw [hctxs']
    intro d hd
    rcases List.mem_cons.mp hd with rfl | hd
    · refine hex.mono fun p hp => ?_
      rcases hp with hp | rfl
      · exact .inl hp
      · exact .inr rfl
    · exact (h.examined d (hctxs ▸ List.mem_cons_of_mem _ hd)).mono hseen
  · -- target
    rintro x y ⟨⟩
    exact ⟨hmem, hvis, hreach⟩

/-- Finishing a span that is enclosed, or giving it up, keeps the invariant. -/
theorem Inv.close (h : Inv M vis₀ seed s) {c : Ctx} (hs : s.ctl = .look c)
    (henc : s.full = false → c.span.Enclosed M.toGrid (s.vis ·)) (b : β) :
    Inv M vis₀ seed (M.close s c b) := by
  have hctxs : s.ctxs = c :: s.stack := by simp [State.ctxs, hs]
  have hnot : ∀ p, s.Seen p → s.vis p = true := by
    rintro p (hp | hp)
    · exact hp
    · simp [hs] at hp
  have hclose : (M.close s c b).vis = s.vis ∧ (M.close s c b).marked = s.marked ∧
      (M.close s c b).full = s.full ∧ (M.close s c b).finished = c.span :: s.finished ∧
      (M.close s c b).ctxs = s.stack ∧ (∀ x y, (M.close s c b).ctl ≠ .grow x y) ∧
      ((M.close s c b).ctl = .done → (M.close s c b).stack = []) := by
    unfold Machine.close
    rcases hst : s.stack with _ | ⟨d, st⟩ <;> simp [State.ctxs]
  obtain ⟨hvis, hmk, hfull, hfin, hcx, hgrow, hdone⟩ := hclose
  have hseen : ∀ p, s.Seen p → (M.close s c b).Seen p := fun p hp => .inl (hvis ▸ hnot p hp)
  refine ⟨?_, ?_, hmk ▸ h.nonempty, hmk ▸ h.apart,
    fun sp hsp => (h.ended sp (hmk ▸ hsp)).mono hseen, ?_, ?_, ?_, ?_, fun x y hxy => absurd hxy (hgrow x y),
    hseen _ h.seed_seen, hdone⟩
  · simpa only [hvis, State.Marked, hmk] using h.vis_iff
  · simpa only [State.Marked, hmk] using h.marked_reach
  · -- perm
    have hp := h.perm
    rw [hctxs, List.map_cons] at hp
    rw [hfin, hcx, hmk, List.cons_append]
    exact List.perm_middle.symm.trans hp
  · -- enclosed
    intro hf sp hsp
    rw [hfin] at hsp
    rw [hfull] at hf
    rcases List.mem_cons.mp hsp with rfl | hsp
    · exact (henc hf).mono fun q hq => .inl (hvis ▸ hq)
    · exact (h.enclosed hf sp hsp).mono hseen
  · -- fits
    rw [hcx]
    exact fun d hd => h.fits d (hctxs ▸ List.mem_cons_of_mem _ hd)
  · -- examined
    rw [hcx]
    exact fun d hd => (h.examined d (hctxs ▸ List.mem_cons_of_mem _ hd)).mono hseen

theorem Inv.vis₀_false (h : Inv M vis₀ seed s) {p : Cell} (hp : s.vis p = false) :
    vis₀ p = false := by
  by_contra h0
  have := (h.vis_iff p).mpr (.inl (by simpa using h0))
  simp [hp] at this

/-- Every cell of a grown span is reachable when the cell it was grown from is. -/
theorem Inv.reach_span (h : Inv M vis₀ seed s) {x y l r : ℤ} (hx : M.Reach vis₀ seed (x, y))
    (hrow : M.y0 ≤ y ∧ y < M.y1) (hl : M.x0 ≤ l) (hlx : l ≤ x) (hxr : x ≤ r) (hr : r < M.x1)
    (hleft : ∀ i, l ≤ i → i < x → s.vis (i, y) = false ∧ M.edge (i + 1, y) (i, y) = true)
    (hright : ∀ i, x < i → i ≤ r → s.vis (i, y) = false ∧ M.edge (i - 1, y) (i, y) = true)
    {i : ℤ} (hi : l ≤ i) (hir : i ≤ r) : M.Reach vis₀ seed (i, y) := by
  have left : ∀ n : ℕ, l ≤ x - n → M.Reach vis₀ seed (x - n, y) := by
    intro n
    induction n with
    | zero => intro _; simpa using hx
    | succ n ih =>
      intro hn
      push_cast at hn ⊢
      obtain ⟨hv, he⟩ := hleft (x - (n + 1)) hn (by omega)
      rw [show x - ((n : ℤ) + 1) + 1 = x - n by omega] at he
      refine (ih (by omega)).tail ⟨.inl ⟨rfl, .inr ?_⟩, ?_, he, h.vis₀_false hv⟩
      · dsimp; omega
      · exact ⟨by dsimp; omega, by dsimp; omega, hrow.1, hrow.2⟩
  have right : ∀ n : ℕ, x + n ≤ r → M.Reach vis₀ seed (x + n, y) := by
    intro n
    induction n with
    | zero => intro _; simpa using hx
    | succ n ih =>
      intro hn
      push_cast at hn ⊢
      obtain ⟨hv, he⟩ := hright (x + (n + 1)) (by omega) hn
      rw [show x + ((n : ℤ) + 1) - 1 = x + n by omega] at he
      refine (ih (by omega)).tail ⟨.inl ⟨rfl, .inl ?_⟩, ?_, he, h.vis₀_false hv⟩
      · dsimp; omega
      · exact ⟨by dsimp; omega, by dsimp; omega, hrow.1, hrow.2⟩
  rcases le_total i x with hix | hix
  · have := left (x - i).toNat (by omega)
    rwa [show x - ((x - i).toNat : ℤ) = i by omega] at this
  · have := right (i - x).toNat (by omega)
    rwa [show x + ((i - x).toNat : ℤ) = i by omega] at this

/-- What growing a span gives: its cells were unmarked, are in the grid and reachable, and it cannot
    be left to either side. -/
theorem Inv.grow_spec (h : Inv M vis₀ seed s) {x y : ℤ} (hs : s.ctl = .grow x y) :
    ∃ l r, M.step s = { s with ctl := .look ⟨x, y, l, r, l, l⟩,
                               vis := fun p => s.vis p || decide (p ∈ Span.mk y l r),
                               acc := M.hooks.mark s.acc ⟨y, l, r⟩, marked := ⟨y, l, r⟩ :: s.marked } ∧
      M.x0 ≤ l ∧ l ≤ x ∧ x ≤ r ∧ r < M.x1 ∧
      (∀ i, l ≤ i → i ≤ r → s.vis (i, y) = false ∧ M.Reach vis₀ seed (i, y)) ∧
      (Span.mk y l r).Ended M.toGrid (s.vis ·) := by
  obtain ⟨hmem, hvis, hreach⟩ := h.target x y hs
  obtain ⟨hx0, hx1, hy0, hy1⟩ := hmem
  dsimp only at hx0 hx1 hy0 hy1
  obtain ⟨hl0, hlx, hleft, hlend⟩ := growLeft_spec (M := M) s.vis y (x - M.x0).toNat x hx0 (by omega)
  obtain ⟨hr1, hxr, hright, hrend⟩ :=
    growRight_spec (M := M) s.vis y (M.x1 - 1 - x).toNat x hx1 (by omega)
  refine ⟨_, _, by simp only [Machine.step, hs], hl0, hlx, hxr, hr1, fun i hi hir => ⟨?_, ?_⟩,
    fun hm he => hlend hm.1 he, fun hm he => hrend hm.2.1 he⟩
  · rcases lt_trichotomy i x with hix | rfl | hix
    · exact (hleft i hi hix).1
    · exact hvis
    · exact (hright i hix hir).1
  · exact h.reach_span hreach ⟨hy0, hy1⟩ hl0 hlx hxr hr1 hleft hright hi hir

/-- Marking a grown span keeps the invariant. -/
theorem Inv.grow (h : Inv M vis₀ seed s) {x y : ℤ} (hs : s.ctl = .grow x y) :
    Inv M vis₀ seed (M.step s) := by
  obtain ⟨l, r, hstep, hl0, hlx, hxr, hr1, hcells, hend⟩ := h.grow_spec hs
  have hrow := (h.target x y hs).1.2.2
  have hctxs : s.ctxs = s.stack := by simp [State.ctxs, hs]
  have hctxs' : (M.step s).ctxs = ⟨x, y, l, r, l, l⟩ :: s.stack := by rw [hstep]; rfl
  have hmk : (M.step s).marked = ⟨y, l, r⟩ :: s.marked := by rw [hstep]
  have hvis : ∀ p, (M.step s).vis p = true ↔ s.vis p = true ∨ p ∈ Span.mk y l r := by
    rw [hstep]
    simp
  have hseen : ∀ p, s.Seen p → (M.step s).Seen p := by
    rintro ⟨px, py⟩ (hp | hp)
    · exact .inl ((hvis _).mpr (.inl hp))
    · rw [hs, Ctl.grow.injEq] at hp
      obtain ⟨rfl, rfl⟩ := hp
      exact .inl ((hvis _).mpr (.inr ⟨rfl, hlx, hxr⟩))
  have hmarked : ∀ p, (M.step s).Marked p ↔ p ∈ Span.mk y l r ∨ s.Marked p := by
    simp [State.Marked, hmk]
  refine ⟨fun p => ?_, fun p hp => ?_, ?_, ?_, ?_, ?_, ?_, ?_, ?_, ?_, hseen _ h.seed_seen,
    fun hd => by simp [hstep] at hd⟩
  · rw [hvis, hmarked, h.vis_iff]
    tauto
  · -- marked_reach
    rcases (hmarked p).mp hp with ⟨hpy, hpl, hpr⟩ | hp
    · have := (hcells p.1 hpl hpr).2
      rwa [show (p.1, y) = p from Prod.ext rfl hpy.symm] at this
    · exact h.marked_reach p hp
  · -- nonempty
    rw [hmk]
    exact List.forall_mem_cons.mpr ⟨hlx.trans hxr, h.nonempty⟩
  · -- apart: the new span was unmarked, the old ones were marked
    rw [hmk, List.pairwise_cons]
    refine ⟨fun sp hsp p ⟨hpy, hpl, hpr⟩ hp => ?_, h.apart⟩
    have hv : s.vis p = true := (h.vis_iff p).mpr (.inr ⟨sp, hsp, hp⟩)
    have hf := (hcells p.1 hpl hpr).1
    rw [show (p.1, y) = p from Prod.ext rfl hpy.symm, hv] at hf
    cases hf
  · -- ended
    rw [hmk]
    intro sp hsp
    rcases List.mem_cons.mp hsp with rfl | hsp
    · exact hend.mono fun q hq => .inl ((hvis q).mpr (.inl hq))
    · exact (h.ended sp hsp).mono hseen
  · -- perm
    have hp := h.perm
    rw [hctxs] at hp
    rw [hctxs', hmk, List.map_cons, show (M.step s).finished = s.finished by rw [hstep]]
    exact List.perm_middle.trans (hp.cons _)
  · -- enclosed
    intro hf sp hsp
    rw [hstep] at hf hsp
    exact (h.enclosed hf sp hsp).mono hseen
  · -- fits
    rw [hctxs']
    intro d hd
    rcases List.mem_cons.mp hd with rfl | hd
    · exact ⟨hrow, by dsimp; omega, by dsimp; omega, by dsimp; omega, by dsimp; omega⟩
    · exact h.fits d (hctxs ▸ hd)
  · -- examined: both cursors of the new context are at its left end
    rw [hctxs']
    intro d hd
    rcases List.mem_cons.mp hd with rfl | hd
    · exact ⟨fun i h1 h2 => by dsimp at h1 h2; omega, fun i h1 h2 => by dsimp at h1 h2; omega⟩
    · exact (h.examined d (hctxs ▸ hd)).mono hseen
  · intro x' y' hc
    rw [hstep] at hc
    cases hc

/-- One round keeps the invariant. -/
theorem Inv.step (hpack : ∀ c : Ctx, c.Fits M.toGrid → M.pack c = c) (h : Inv M vis₀ seed s) :
    Inv M vis₀ seed (M.step s) := by
  rcases hs : s.ctl with ⟨x, y⟩ | c | _
  · exact h.grow hs
  · have hmem : c ∈ s.ctxs := by simp [State.ctxs, hs]
    have hc := h.fits c hmem
    obtain ⟨hexT, hexB⟩ := h.examined c hmem
    have hcols := hc.cols
    have hvis : ∀ p, s.Seen p → s.vis p = true := by
      rintro p (hp | hp)
      · exact hp
      · simp [hs] at hp
    have hreach : ∀ i, c.l ≤ i → i ≤ c.r → M.Reach vis₀ seed (i, c.y) := fun i h1 h2 =>
      h.marked_reach _ ⟨c.span, h.perm.subset (List.mem_append_right _ (List.mem_map_of_mem hmem)),
        rfl, h1, h2⟩
    have htop := hc.top
    have hbot := hc.bot
    rcases step_look hpack hs hc with ⟨i, b, h1, h2, hm, hv, he, hbl, hst⟩ |
      ⟨i, b, h1, h2, hm, hv, he, hbl, hst⟩ | ⟨b, hT, hB, hst⟩ | ⟨b, hst⟩
    · -- continue upwards
      rw [hst]
      refine h.descend hs (by rfl) (hc.top_behind h1 h2)
        ⟨fun x hx1 hx2 => ?_, fun x hx1 hx2 => (hexB x hx1 hx2).mono fun q hq => .inl (hvis q hq)⟩ hm hv
        ((hreach i (by omega) h2).tail ⟨.inr ⟨rfl, .inr rfl⟩, hm, he, h.vis₀_false hv⟩) b
      dsimp only at hx1 hx2 ⊢
      rcases lt_trichotomy x i with hxi | rfl | hxi
      · by_cases hxt : x < c.tl
        · exact (hexT x hx1 hxt).mono fun q hq => .inl (hvis q hq)
        · exact (hbl x (by omega) hxi).mono fun q hq => .inl hq
      · exact fun _ _ => .inr rfl
      · omega
    · -- continue downwards
      rw [hst]
      refine h.descend hs (by rfl) (hc.bot_behind h1 h2)
        ⟨fun x hx1 hx2 => (hexT x hx1 hx2).mono fun q hq => .inl (hvis q hq), fun x hx1 hx2 => ?_⟩ hm hv
        ((hreach i (by omega) h2).tail ⟨.inr ⟨rfl, .inl rfl⟩, hm, he, h.vis₀_false hv⟩) b
      dsimp only at hx1 hx2 ⊢
      rcases lt_trichotomy x i with hxi | rfl | hxi
      · by_cases hxt : x < c.bl
        · exact (hexB x hx1 hxt).mono fun q hq => .inl (hvis q hq)
        · exact (hbl x (by omega) hxi).mono fun q hq => .inl hq
      · exact fun _ _ => .inr rfl
      · omega
    · -- nothing left around the span
      rw [hst]
      refine h.close hs (fun _ x hx1 hx2 => ⟨?_, ?_⟩) b
      · by_cases hxt : x < c.tl
        · exact (hexT x hx1 hxt).mono hvis
        · exact hT x (by omega) hx2
      · by_cases hxt : x < c.bl
        · exact (hexB x hx1 hxt).mono hvis
        · exact hB x (by omega) hx2
    · -- the stack is full
      rw [hst]
      have hfull : Inv M vis₀ seed { s with full := true } :=
        ⟨h.vis_iff, h.marked_reach, h.nonempty, h.apart, h.ended, h.perm, fun hf => by simp at hf,
          h.fits, h.examined, h.target, h.seed_seen, h.done_stack⟩
      exact hfull.close hs (fun hf => by simp at hf) b
  · rw [show M.step s = s by simp only [Machine.step, hs]]
    exact h

end Steps

/-! ### Every fill ends -/

/-- The cells of the grid. -/
def Grid.cells (G : Grid) : Finset Cell :=
  (Finset.range (G.x1 - G.x0).toNat ×ˢ Finset.range (G.y1 - G.y0).toNat).image
    fun k => (G.x0 + k.1, G.y0 + k.2)

theorem Grid.mem_cells {G : Grid} {p : Cell} : p ∈ G.cells ↔ G.Mem p := by
  obtain ⟨x, y⟩ := p
  simp only [Grid.cells, Finset.mem_image, Finset.mem_product, Finset.mem_range, Prod.mk.injEq,
    Grid.Mem]
  constructor
  · rintro ⟨k, ⟨h1, h2⟩, rfl, rfl⟩
    omega
  · rintro ⟨h1, h2, h3, h4⟩
    refine ⟨((x - G.x0).toNat, (y - G.y0).toNat), ⟨?_, ?_⟩, ?_, ?_⟩ <;> dsimp only <;> omega

/-- The cells of the grid that are still unmarked. -/
def Grid.todo (G : Grid) (vis : Cell → Bool) : Finset Cell := G.cells.filter (vis · = false)

theorem Grid.mem_todo {G : Grid} {vis : Cell → Bool} {p : Cell} :
    p ∈ G.todo vis ↔ G.Mem p ∧ vis p = false := by
  rw [Grid.todo, Finset.mem_filter, Grid.mem_cells]

/-- An upper bound on the rounds left: growing a span uses up a cell and pays for looking around it
    and for resuming its context once more. -/
def Machine.fuel (M : Machine β) (s : State β) : ℕ :=
  3 * (M.todo s.vis).card + s.stack.length + (match s.ctl with | .look _ => 2 | _ => 0)

section Halting

variable {vis₀ : Cell → Bool} {seed : Cell} {s : State β}

theorem fuel_close {c : Ctx} (hs : s.ctl = .look c) (b : β) : M.fuel (M.close s c b) < M.fuel s := by
  unfold Machine.fuel Machine.close
  rcases hst : s.stack with _ | ⟨d, st⟩ <;> simp [hs]

theorem fuel_step (hpack : ∀ c : Ctx, c.Fits M.toGrid → M.pack c = c) (h : Inv M vis₀ seed s)
    (hs : s.ctl ≠ .done) : M.fuel (M.step s) < M.fuel s := by
  rcases hc : s.ctl with ⟨x, y⟩ | c | _
  · obtain ⟨l, r, hstep, -, hlx, hxr, -, -, -⟩ := h.grow_spec hc
    obtain ⟨hmem, hvis, -⟩ := h.target x y hc
    have hlt : (M.todo (M.step s).vis).card < (M.todo s.vis).card := by
      refine Finset.card_lt_card ⟨fun p hp => ?_, fun hsub => ?_⟩
      · rw [hstep, Grid.mem_todo] at hp
        simp only [Bool.or_eq_false_iff] at hp
        exact Grid.mem_todo.mpr ⟨hp.1, hp.2.1⟩
      · have := Grid.mem_todo.mp (hsub (Grid.mem_todo.mpr ⟨hmem, hvis⟩))
        simp [hstep, Span.mem_iff, hlx, hxr] at this
    have hstack : (M.step s).stack = s.stack := by rw [hstep]
    have hctl : (M.step s).ctl = .look ⟨x, y, l, r, l, l⟩ := by rw [hstep]
    simp only [Machine.fuel, hc, hctl, hstack]
    omega
  · rcases step_look hpack hc (h.fits c (by simp [State.ctxs, hc])) with
      ⟨i, b, _, _, _, _, _, _, hst⟩ | ⟨i, b, _, _, _, _, _, _, hst⟩ | ⟨b, _, _, hst⟩ | ⟨b, hst⟩
    · simp only [hst, Machine.fuel, State.descend, hc, List.length_cons]
      omega
    · simp only [hst, Machine.fuel, State.descend, hc, List.length_cons]
      omega
    · rw [hst]
      exact fuel_close hc b
    · rw [hst]
      exact fuel_close (s := { s with full := true }) hc b
  · exact absurd hc hs

/-- With fuel for its rounds the machine halts, in a state that satisfies the invariant. -/
theorem exec_halts (hpack : ∀ c : Ctx, c.Fits M.toGrid → M.pack c = c) :
    ∀ {n : ℕ} {s : State β}, Inv M vis₀ seed s → M.fuel s ≤ n →
      ∃ s', M.exec n s = some s' ∧ s'.ctl = .done ∧ Inv M vis₀ seed s'
  | 0, s, h, hn => by
      by_cases hs : s.ctl = .done
      · exact ⟨s, by simp [Machine.exec, hs], hs, h⟩
      · have := fuel_step hpack h hs
        omega
  | n + 1, s, h, hn => by
      by_cases hs : s.ctl = .done
      · exact ⟨s, by simp [Machine.exec, hs], hs, h⟩
      · have := fuel_step hpack h hs
        simp only [Machine.exec, if_neg hs]
        exact exec_halts hpack (h.step hpack) (by omega)

theorem fuel_start_le (vis₀ : Cell → Bool) (seed : Cell) (b : β) :
    M.fuel (start vis₀ seed b) ≤ 3 * ((M.x1 - M.x0).toNat * (M.y1 - M.y0).toNat) := by
  have : (M.todo vis₀).card ≤ (M.x1 - M.x0).toNat * (M.y1 - M.y0).toNat := by
    refine (Finset.card_filter_le _ _).trans (Finset.card_image_le.trans ?_)
    rw [Finset.card_product, Finset.card_range, Finset.card_range]
  simp only [Machine.fuel, start, List.length_nil]
  omega

/-- A property kept by every round holds where the machine halts. -/
theorem exec_inv (P : State β → Prop) (hP : ∀ s, P s → P (M.step s)) :
    ∀ {n : ℕ} {s s' : State β}, M.exec n s = some s' → P s → P s'
  | 0, s, s', hx, h => by
      simp only [Machine.exec] at hx
      split_ifs at hx
      cases hx
      exact h
  | n + 1, s, s', hx, h => by
      simp only [Machine.exec] at hx
      split_ifs at hx
      · cases hx
        exact h
      · exact exec_inv P hP hx (hP s h)

end Halting

/-! ### What the hooks see -/

section Hooks

variable {γ : Type*} {π : β → γ}

/-- `π` is a part of the client's value that looking around does not touch. -/
structure Untouched (M : Machine β) (π : β → γ) : Prop where
  miss : ∀ b sp i v, π (M.hooks.miss b sp i v) = π b
  border : ∀ b sp, π (M.hooks.border b sp) = π b
  full : ∀ b sp, π (M.hooks.full b sp) = π b

theorem Untouched.sweep (hπ : Untouched M π) {vis : Cell → Bool} {sp : Span} {y' : ℤ} :
    ∀ (n : ℕ) (i : ℤ) (b : β), π (M.sweep vis sp y' n i b).2 = π b
  | 0, _, _ => rfl
  | n + 1, i, b => by
      simp only [Machine.sweep]
      split_ifs
      · rfl
      · rw [hπ.sweep n, hπ.miss]

theorem Untouched.lookUp (hπ : Untouched M π) (vis : Cell → Bool) (c : Ctx) (b : β) :
    π (M.lookUp vis c b).2 = π b := by
  unfold Machine.lookUp
  split_ifs
  · exact hπ.sweep _ _ _
  · exact hπ.border _ _

theorem Untouched.lookDown (hπ : Untouched M π) (vis : Cell → Bool) (c : Ctx) (b : β) :
    π (M.lookDown vis c b).2 = π b := by
  unfold Machine.lookDown
  split_ifs
  · exact hπ.sweep _ _ _
  · exact hπ.border _ _

/-- One round marks a span, finishes a span, or leaves the logs and the untouched part alone. -/
theorem step_logs (hπ : Untouched M π) (s : State β) :
    (∃ sp, (M.step s).acc = M.hooks.mark s.acc sp ∧ (M.step s).marked = sp :: s.marked ∧
      (M.step s).finished = s.finished) ∨
    (∃ b sp, π b = π s.acc ∧ (M.step s).acc = M.hooks.finish b sp ∧
      (M.step s).finished = sp :: s.finished ∧ (M.step s).marked = s.marked) ∨
    (π (M.step s).acc = π s.acc ∧ (M.step s).marked = s.marked ∧
      (M.step s).finished = s.finished) := by
  have close (s : State β) (c : Ctx) (b : β) : (M.close s c b).acc = M.hooks.finish b c.span ∧
      (M.close s c b).finished = c.span :: s.finished ∧ (M.close s c b).marked = s.marked := by
    unfold Machine.close
    rcases hst : s.stack with _ | ⟨d, st⟩ <;> simp
  rcases hs : s.ctl with ⟨x, y⟩ | c | _
  · exact .inl ⟨_, by simp only [Machine.step, hs]; rfl, by simp only [Machine.step, hs],
      by simp only [Machine.step, hs]⟩
  · have hup := hπ.lookUp s.vis c s.acc
    by_cases hcap : s.stack.length < M.cap
    · rcases hU : M.lookUp s.vis c s.acc with ⟨_ | i, b⟩ <;> rw [hU] at hup
      · have hdn := hπ.lookDown s.vis c b
        rcases hD : M.lookDown s.vis c b with ⟨_ | i, b'⟩ <;> rw [hD] at hdn
        · obtain ⟨h1, h2, h3⟩ := close s c b'
          refine .inr (.inl ⟨b', c.span, hdn.trans hup, ?_⟩)
          simp only [Machine.step, hs, if_pos hcap, hU, hD]
          exact ⟨h1, h2, h3⟩
        · refine .inr (.inr ?_)
          simp only [Machine.step, hs, if_pos hcap, hU, hD]
          exact ⟨hdn.trans hup, trivial, trivial⟩
      · refine .inr (.inr ?_)
        simp only [Machine.step, hs, if_pos hcap, hU]
        exact ⟨hup, trivial, trivial⟩
    · obtain ⟨h1, h2, h3⟩ := close { s with full := true } c (M.hooks.full s.acc c.span)
      refine .inr (.inl ⟨_, c.span, hπ.full s.acc c.span, ?_⟩)
      simp only [Machine.step, hs, if_neg hcap]
      exact ⟨h1, h2, h3⟩
  · refine .inr (.inr ?_)
    simp only [Machine.step, hs, and_self]

/-- A part of the client's value that only `mark` changes is a fold over the marked spans. -/
theorem exec_marked (hπ : Untouched M π) (f : γ → Span → γ)
    (hmark : ∀ b sp, π (M.hooks.mark b sp) = f (π b) sp)
    (hfinish : ∀ b sp, π (M.hooks.finish b sp) = π b) {n : ℕ} {vis : Cell → Bool} {seed : Cell}
    {b : β} {s' : State β} (hx : M.exec n (start vis seed b) = some s') :
    π s'.acc = s'.marked.foldr (fun sp g => f g sp) (π b) := by
  refine exec_inv (fun s => π s.acc = s.marked.foldr (fun sp g => f g sp) (π b)) ?_ hx rfl
  intro s ih
  rcases step_logs hπ s with ⟨sp, hacc, hmk, -⟩ | ⟨c, sp, hb, hacc, -, hmk⟩ | ⟨hacc, hmk, -⟩
  · rw [hacc, hmk, hmark, ih, List.foldr_cons]
  · rw [hacc, hmk, hfinish, hb, ih]
  · rw [hacc, hmk, ih]

/-- A part of the client's value that only `finish` changes is a fold over the finished spans. -/
theorem exec_finished (hπ : Untouched M π) (f : γ → Span → γ)
    (hmark : ∀ b sp, π (M.hooks.mark b sp) = π b)
    (hfinish : ∀ b sp, π (M.hooks.finish b sp) = f (π b) sp) {n : ℕ} {vis : Cell → Bool} {seed : Cell}
    {b : β} {s' : State β} (hx : M.exec n (start vis seed b) = some s') :
    π s'.acc = s'.finished.foldr (fun sp g => f g sp) (π b) := by
  refine exec_inv (fun s => π s.acc = s.finished.foldr (fun sp g => f g sp) (π b)) ?_ hx rfl
  intro s ih
  rcases step_logs hπ s with ⟨sp, hacc, -, hfn⟩ | ⟨c, sp, hb, hacc, hfn, -⟩ | ⟨hacc, -, hfn⟩
  · rw [hacc, hfn, hmark, ih]
  · rw [hacc, hfn, hfinish, hb, ih, List.foldr_cons]
  · rw [hacc, hfn, ih]

end Hooks

/-! ### The result of a fill -/

section Result

variable {vis₀ : Cell → Bool} {seed : Cell}

/-- Where the machine is done without its stack having run full, no link leads out of the marked
    cells. -/
theorem Inv.closed {s : State β} (h : Inv M vis₀ seed s) (hs : s.ctl = .done) (hf : s.full = false)
    {p q : Cell} (hp : s.Marked p) (hpq : M.Link vis₀ p q) : s.Marked q := by
  obtain ⟨sp, hsp, hpy, hpl, hpr⟩ := hp
  obtain ⟨hadj, hmem, hedge, h0⟩ := hpq
  have hvis : ∀ q, s.Seen q → vis₀ q = false → s.Marked q := by
    rintro q (hq | hq) h0
    · exact ((h.vis_iff q).mp hq).resolve_left (by simp [h0])
    · simp [hs] at hq
  -- nothing is left in hand or on the stack, so the span is finished
  have hctxs : s.ctxs = [] := by simp [State.ctxs, hs, h.done_stack hs]
  have hfin : sp ∈ s.finished := by
    have := h.perm.symm.subset hsp
    simpa [hctxs] using this
  obtain ⟨px, py⟩ := p
  obtain ⟨qx, qy⟩ := q
  obtain rfl : py = sp.y := hpy
  dsimp only at hpl hpr
  rcases hadj with ⟨hqy, hqx⟩ | ⟨hqx, hqy⟩
  · -- a step along the row stays in the span or leaves it at an end
    obtain rfl : qy = sp.y := hqy
    by_cases hin : sp.l ≤ qx ∧ qx ≤ sp.r
    · exact ⟨sp, hsp, rfl, hin.1, hin.2⟩
    refine hvis _ ?_ h0
    rcases hqx with hqx | hqx <;> dsimp only at hqx
    · obtain rfl : px = sp.r := by omega
      subst hqx
      exact (h.ended sp hsp).2 hmem hedge
    · obtain rfl : px = sp.l := by omega
      subst hqx
      exact (h.ended sp hsp).1 hmem hedge
  · refine hvis _ ?_ h0
    dsimp only at hqx hqy
    subst hqx
    obtain ⟨hup, hdn⟩ := h.enclosed hf sp hfin qx hpl hpr
    rcases hqy with rfl | rfl
    · exact hdn hmem hedge
    · exact hup hmem hedge

/-- A fill halts. Unless its stack ran full, the cells it marks are those reachable from the seed;
    they are covered by spans that are pairwise disjoint, and each span is finished once. -/
theorem fill_spec (hpack : ∀ c : Ctx, c.Fits M.toGrid → M.pack c = c) (vis₀ : Cell → Bool)
    (seed : Cell) (hseed : M.Mem seed) (h0 : vis₀ seed = false) (b : β) {n : ℕ}
    (hn : 3 * ((M.x1 - M.x0).toNat * (M.y1 - M.y0).toNat) ≤ n) :
    ∃ s, M.exec n (start vis₀ seed b) = some s ∧ s.finished.Perm s.marked ∧
      (∀ sp ∈ s.marked, sp.l ≤ sp.r) ∧ s.marked.Pairwise Span.Apart ∧ s.Marked seed ∧
      (∀ p, s.vis p = true ↔ vis₀ p = true ∨ s.Marked p) ∧
      (∀ p, s.Marked p → M.Reach vis₀ seed p) ∧
      (s.full = false → ∀ p, M.Reach vis₀ seed p → s.Marked p) := by
  obtain ⟨s, hx, hs, h⟩ := exec_halts hpack (inv_start hseed h0 b)
    ((fuel_start_le vis₀ seed b).trans hn)
  have hctxs : s.ctxs = [] := by simp [State.ctxs, hs, h.done_stack hs]
  have hmarked : s.Marked seed := by
    rcases h.seed_seen with hv | hc
    · exact ((h.vis_iff seed).mp hv).resolve_left (by simp [h0])
    · simp [hs] at hc
  refine ⟨s, hx, by simpa [hctxs] using h.perm, h.nonempty, h.apart, hmarked, h.vis_iff,
    h.marked_reach, ?_⟩
  intro hf p hp
  induction hp with
  | refl => exact hmarked
  | tail _ hlink ih => exact h.closed hs hf ih hlink

/-- Whether the seed is marked at the start makes no difference: its own mark is not looked at. -/
theorem exec_start_congr {vis vis' : Cell → Bool} (hseed : M.Mem seed) (hvis : ∀ p ≠ seed, vis p = vis' p) (b : β)
    (n : ℕ) : M.exec n (start vis seed b) = M.exec n (start vis' seed b) := by
  have hleft : ∀ (k : ℕ) (l : ℤ), l ≤ seed.1 → M.growLeft vis seed.2 k l = M.growLeft vis' seed.2 k l := by
    intro k
    induction k with
    | zero => exact fun _ _ => rfl
    | succ k ih =>
      intro l hl
      have hne : (l - 1, seed.2) ≠ seed := fun h => by
        have := congrArg Prod.fst h
        dsimp only at this
        omega
      rw [Machine.growLeft, Machine.growLeft, hvis _ hne, ih (l - 1) (by omega)]
  have hright : ∀ (k : ℕ) (r : ℤ), seed.1 ≤ r → M.growRight vis seed.2 k r = M.growRight vis' seed.2 k r := by
    intro k
    induction k with
    | zero => exact fun _ _ => rfl
    | succ k ih =>
      intro r hr
      have hne : (r + 1, seed.2) ≠ seed := fun h => by
        have := congrArg Prod.fst h
        dsimp only at this
        omega
      rw [Machine.growRight, Machine.growRight, hvis _ hne, ih (r + 1) (by omega)]
  cases n with
  | zero => rfl
  | succ n =>
    have hstep : M.step (start vis seed b) = M.step (start vis' seed b) := by
      obtain ⟨-, hl, -⟩ := growLeft_spec (M := M) vis' seed.2 (seed.1 - M.x0).toNat seed.1 hseed.1 (by omega)
      obtain ⟨-, hr, -⟩ := growRight_spec (M := M) vis' seed.2 (M.x1 - 1 - seed.1).toNat seed.1 hseed.2.1
        (by have := hseed.2.1; omega)
      simp only [Machine.step, start, hleft _ _ le_rfl, hright _ _ le_rfl]
      congr 1
      funext p
      by_cases hp : p = seed
      · subst hp
        simp [Span.mem_iff, hl, hr]
      · rw [hvis p hp]
        congr 1
    rw [Machine.exec, Machine.exec, if_neg (by simp [start]), if_neg (by simp [start]), hstep]

/-- A way back to the seed need not be taken. -/
theorem Grid.reach_congr {G : Grid} {vis vis' : Cell → Bool} (hvis : ∀ p ≠ seed, vis p = vis' p)
    {p : Cell} (h : G.Reach vis seed p) : G.Reach vis' seed p := by
  induction h with
  | refl => exact .refl
  | @tail q r _ hlink ih =>
    by_cases hr : r = seed
    · subst hr
      exact .refl
    · exact ih.tail ⟨hlink.1, hlink.2.1, hlink.2.2.1, hvis r hr ▸ hlink.2.2.2⟩

end Result

/-! ### Regions made of spans -/

/-- The cells of a span as a finite set. -/
def Span.cells (sp : Span) : Finset Cell :=
  (Finset.range (sp.r + 1 - sp.l).toNat).image fun k : ℕ => (sp.l + k, sp.y)

theorem Span.mem_cells {sp : Span} {p : Cell} : p ∈ sp.cells ↔ p ∈ sp := by
  obtain ⟨x, y⟩ := p
  simp only [Span.cells, Finset.mem_image, Finset.mem_range, Prod.mk.injEq, Span.mem_iff]
  constructor
  · rintro ⟨k, hk, rfl, rfl⟩
    omega
  · rintro ⟨rfl, h1, h2⟩
    exact ⟨(x - sp.l).toNat, by omega, by omega, rfl⟩

/-- The cells of all the spans. -/
def region : List Span → Finset Cell
  | [] => ∅
  | sp :: sps => sp.cells ∪ region sps

theorem mem_region : ∀ {sps : List Span} {p : Cell}, p ∈ region sps ↔ ∃ sp ∈ sps, p ∈ sp
  | [], _ => by simp [region]
  | sp :: sps, p => by simp [region, Span.mem_cells, @mem_region sps]

/-- A sum over the cells of disjoint spans, span by span. -/
theorem sum_region {γ : Type*} [AddCommMonoid γ] (f : Cell → γ) : ∀ {sps : List Span},
    sps.Pairwise Span.Apart →
      ∑ p ∈ region sps, f p =
        (sps.map fun sp => ∑ k ∈ Finset.range (sp.r + 1 - sp.l).toNat, f (sp.l + k, sp.y)).sum
  | [], _ => by simp [region]
  | sp :: sps, h => by
      obtain ⟨hsp, hsps⟩ := List.pairwise_cons.mp h
      have hdisj : Disjoint sp.cells (region sps) := by
        refine Finset.disjoint_left.mpr fun p hp hp' => ?_
        obtain ⟨sp', hsp', hmem⟩ := mem_region.mp hp'
        exact hsp sp' hsp' p (Span.mem_cells.mp hp) hmem
      rw [region, Finset.sum_union hdisj, sum_region f hsps, List.map_cons, List.sum_cons, Span.cells,
        Finset.sum_image]
      intro a _ b _ h
      simpa using h

/-! ### A stack with room for the grid -/

section Room

variable {vis₀ : Cell → Bool} {seed : Cell} {s : State β}

theorem Grid.Reach.mem {G : Grid} {p : Cell} (hseed : G.Mem seed) (h : G.Reach vis₀ seed p) : G.Mem p := by
  cases h with
  | refl => exact hseed
  | tail _ hlink => exact hlink.2.1

/-- The spans are disjoint and not empty, so there are no more of them than cells. -/
theorem Inv.length_marked_le (h : Inv M vis₀ seed s) (hseed : M.Mem seed) :
    s.marked.length ≤ (M.x1 - M.x0).toNat * (M.y1 - M.y0).toNat := by
  have hsub : region s.marked ⊆ M.cells := fun p hp =>
    Grid.mem_cells.mpr ((h.marked_reach p (mem_region.mp hp)).mem hseed)
  have hcells : M.cells.card ≤ (M.x1 - M.x0).toNat * (M.y1 - M.y0).toNat := by
    refine Finset.card_image_le.trans ?_
    rw [Finset.card_product, Finset.card_range, Finset.card_range]
  have hsum := sum_region (fun _ => 1) h.apart
  simp only [Finset.sum_const, smul_eq_mul, mul_one, Finset.card_range] at hsum
  have hlen : s.marked.length ≤ (s.marked.map fun sp => (sp.r + 1 - sp.l).toNat).sum := by
    have hone : ∀ n ∈ s.marked.map fun sp => (sp.r + 1 - sp.l).toNat, 1 ≤ n := by
      intro n hn
      obtain ⟨sp, hsp, rfl⟩ := List.mem_map.mp hn
      have := h.nonempty sp hsp
      omega
    have hle := List.length_le_sum_of_one_le _ hone
    rwa [List.length_map] at hle
  rw [← hsum] at hlen
  exact hlen.trans ((Finset.card_le_card hsub).trans hcells)

theorem full_close (c : Ctx) (b : β) : (M.close s c b).full = s.full := by
  unfold Machine.close
  rcases s.stack with _ | ⟨d, st⟩ <;> rfl

theorem full_step (h : ∀ c, s.ctl = .look c → s.stack.length < M.cap) : (M.step s).full = s.full := by
  unfold Machine.step
  rcases hs : s.ctl with ⟨x, y⟩ | c | _
  · rfl
  · dsimp only
    rw [if_pos (h c hs)]
    rcases M.lookUp s.vis c s.acc with ⟨_ | i, b⟩
    · dsimp only
      rcases M.lookDown s.vis c b with ⟨_ | i, b⟩
      · exact full_close c b
      · rfl
    · rfl
  · rfl

/-- A stack with a place for every marked span does not run full: each context on it has a span of its own. -/
theorem exec_not_full_of {P : State β → Prop} (hpack : ∀ c : Ctx, c.Fits M.toGrid → M.pack c = c)
    (hseed : M.Mem seed) (h0 : vis₀ seed = false) (b : β) (hstart : P (start vis₀ seed b))
    (hstep : ∀ t, Inv M vis₀ seed t → P t → P (M.step t))
    (hcap : ∀ t, Inv M vis₀ seed t → P t → t.marked.length ≤ M.cap) {n : ℕ}
    (hx : M.exec n (start vis₀ seed b) = some s) : s.full = false := by
  refine (exec_inv (fun s => Inv M vis₀ seed s ∧ P s ∧ s.full = false) ?_ hx
    ⟨inv_start hseed h0 b, hstart, rfl⟩).2.2
  rintro t ⟨hinv, hP, hfull⟩
  refine ⟨hinv.step hpack, hstep t hinv hP, (full_step fun c hc => ?_).trans hfull⟩
  have hperm := hinv.perm.length_eq
  have hle := hcap t hinv hP
  simp only [State.ctxs, hc, List.length_append, List.length_map, List.length_cons] at hperm
  omega

/-- A stack with a place for every cell does not run full. -/
theorem exec_not_full (hpack : ∀ c : Ctx, c.Fits M.toGrid → M.pack c = c) (hseed : M.Mem seed)
    (h0 : vis₀ seed = false) (b : β) (hcap : (M.x1 - M.x0).toNat * (M.y1 - M.y0).toNat ≤ M.cap) {n : ℕ}
    (hx : M.exec n (start vis₀ seed b) = some s) : s.full = false :=
  exec_not_full_of (P := fun _ => True) hpack hseed h0 b trivial (fun _ _ _ => trivial)
    (fun _ hinv _ => (hinv.length_marked_le hseed).trans hcap) hx

end Room

section Close

variable {s : State β}

@[simp] theorem close_acc (c : Ctx) (b : β) : (M.close s c b).acc = M.hooks.finish b c.span := by
  unfold Machine.close
  rcases s.stack with _ | ⟨d, st⟩ <;> rfl

@[simp] theorem close_vis (c : Ctx) (b : β) : (M.close s c b).vis = s.vis := by
  unfold Machine.close
  rcases s.stack with _ | ⟨d, st⟩ <;> rfl

@[simp] theorem close_marked (c : Ctx) (b : β) : (M.close s c b).marked = s.marked := by
  unfold Machine.close
  rcases s.stack with _ | ⟨d, st⟩ <;> rfl

@[simp] theorem close_ctxs (c : Ctx) (b : β) : (M.close s c b).ctxs = s.stack := by
  unfold Machine.close
  rcases hs : s.stack with _ | ⟨d, st⟩ <;> simp [State.ctxs]

theorem close_ctl_ne_grow (c : Ctx) (b : β) (x y : ℤ) : (M.close s c b).ctl ≠ .grow x y := by
  unfold Machine.close
  rcases s.stack with _ | ⟨d, st⟩ <;> simp

end Close

/-! ### One piece

    Full stack or not, every span is grown from a cell next to a span marked before. -/

def Span.Touches (sp t : Span) : Prop :=
  (sp.y = t.y + 1 ∨ sp.y = t.y - 1) ∧ ∃ x, sp.l ≤ x ∧ x ≤ sp.r ∧ t.l ≤ x ∧ x ≤ t.r

/-- Last first: each span touches one behind it in the list. -/
def Chained : List Span → Prop
  | [] => True
  | sp :: sps => Chained sps ∧ (sps = [] ∨ ∃ t ∈ sps, sp.Touches t)

section Chain

variable {vis₀ : Cell → Bool} {seed : Cell} {s : State β}

/-- The cell to grow from lies next to a marked span. -/
def State.Next (s : State β) : Prop := ∀ x y, s.ctl = .grow x y →
  s.marked = [] ∨ ∃ t ∈ s.marked, (y = t.y + 1 ∨ y = t.y - 1) ∧ t.l ≤ x ∧ x ≤ t.r

theorem Inv.step_chained (hpack : ∀ c : Ctx, c.Fits M.toGrid → M.pack c = c) (h : Inv M vis₀ seed s)
    (hch : Chained s.marked) (hnext : s.Next) : Chained (M.step s).marked ∧ (M.step s).Next := by
  rcases hs : s.ctl with ⟨x, y⟩ | c | _
  · obtain ⟨l, r, hstep, -, hlx, hxr, -⟩ := h.grow_spec hs
    rw [hstep]
    refine ⟨⟨hch, ?_⟩, fun x y hg => by simp at hg⟩
    rcases hnext x y hs with h0 | ⟨t, ht, hy, h1, h2⟩
    · exact .inl h0
    · exact .inr ⟨t, ht, hy, x, hlx, hxr, h1, h2⟩
  · have hmem : c ∈ s.ctxs := by simp [State.ctxs, hs]
    have hc := h.fits c hmem
    have hmk : c.span ∈ s.marked :=
      h.perm.subset (List.mem_append_right _ (List.mem_map_of_mem hmem))
    have htop := hc.top
    have hbot := hc.bot
    rcases step_look hpack hs hc with ⟨i, b, h1, h2, -, -, -, -, hst⟩ |
      ⟨i, b, h1, h2, -, -, -, -, hst⟩ | ⟨b, -, -, hst⟩ | ⟨b, hst⟩
    · rw [hst]
      refine ⟨hch, ?_⟩
      rintro x y ⟨⟩
      exact .inr ⟨c.span, hmk, .inr rfl, by simp only [Ctx.span]; omega, h2⟩
    · rw [hst]
      refine ⟨hch, ?_⟩
      rintro x y ⟨⟩
      exact .inr ⟨c.span, hmk, .inl rfl, by simp only [Ctx.span]; omega, h2⟩
    · rw [hst, close_marked]
      exact ⟨hch, fun x y hg => absurd hg (close_ctl_ne_grow c b x y)⟩
    · rw [hst, close_marked]
      exact ⟨hch, fun x y hg => absurd hg (close_ctl_ne_grow c b x y)⟩
  · rw [show M.step s = s by simp only [Machine.step, hs]]
    exact ⟨hch, hnext⟩

theorem exec_chained (hpack : ∀ c : Ctx, c.Fits M.toGrid → M.pack c = c) (hseed : M.Mem seed)
    (h0 : vis₀ seed = false) (b : β) {n : ℕ} (hx : M.exec n (start vis₀ seed b) = some s) :
    Chained s.marked := by
  refine (exec_inv (fun s => Inv M vis₀ seed s ∧ Chained s.marked ∧ s.Next) ?_ hx
    ⟨inv_start hseed h0 b, trivial, fun _ _ _ => .inl rfl⟩).2.1
  rintro t ⟨hinv, hch, hnext⟩
  exact ⟨hinv.step hpack, hinv.step_chained hpack hch hnext⟩

/-- What the spans cover of a line leaves no gap, if touching spans leave none. -/
theorem Chained.no_gap (lo hi : Span → ℤ)
    (htouch : ∀ sp t : Span, sp.Touches t → lo sp ≤ hi t + 1 ∧ lo t ≤ hi sp + 1) :
    ∀ {sps : List Span}, Chained sps → (∀ sp ∈ sps, lo sp ≤ hi sp) → ∀ {a b x : ℤ},
      (∃ sp ∈ sps, lo sp ≤ a ∧ a ≤ hi sp) → (∃ sp ∈ sps, lo sp ≤ b ∧ b ≤ hi sp) → a ≤ x → x ≤ b →
      ∃ sp ∈ sps, lo sp ≤ x ∧ x ≤ hi sp
  | [], _, _, _, _, _, ha, _, _, _ => by simp at ha
  | sp :: sps, ⟨hch, hat⟩, hne, a, b, x, ha, hb, hax, hxb => by
      obtain ⟨-, hnes⟩ := List.forall_mem_cons.mp hne
      have ih := fun {a b : ℤ} => hch.no_gap lo hi htouch hnes (a := a) (b := b) (x := x)
      simp only [List.exists_mem_cons_iff] at ha hb ⊢
      by_cases hin : lo sp ≤ x ∧ x ≤ hi sp
      · exact .inl hin
      refine .inr ?_
      rcases hat with rfl | ⟨t, ht, htt⟩
      · simp only [List.not_mem_nil, false_and, exists_false, or_false] at ha hb
        omega
      obtain ⟨h1, h2⟩ := htouch sp t htt
      have hlt := hnes t ht
      rcases lt_or_ge x (lo sp) with hlow | hhigh
      · -- left of the new span: from `a` to the span it touches
        have ha' := ha.resolve_left (by omega)
        rcases hb with hb | hb
        · exact ih ha' ⟨t, ht, hlt, le_rfl⟩ hax (by omega)
        · exact ih ha' hb hax hxb
      · have hb' := hb.resolve_left (by omega)
        rcases ha with ha | ha
        · exact ih ⟨t, ht, le_rfl, hlt⟩ hb' (by omega) hxb
        · exact ih ha hb' hax hxb

end Chain

/-! ### The rounds of a run -/

/-- The states before the rounds of a run. -/
def Machine.states (M : Machine β) : ℕ → State β → List (State β)
  | 0, _ => []
  | n + 1, s => if s.ctl = .done then [] else s :: M.states n (M.step s)

section Rounds

variable {vis₀ : Cell → Bool} {seed : Cell} {s s' : State β}

/-- Looking around a span marks nothing. -/
theorem step_look_marks {c : Ctx} (hs : s.ctl = .look c) :
    (M.step s).vis = s.vis ∧ (M.step s).marked = s.marked := by
  simp only [Machine.step, hs]
  split_ifs
  · rcases M.lookUp s.vis c s.acc with ⟨_ | i, b⟩
    · dsimp only
      rcases M.lookDown s.vis c b with ⟨_ | i, b⟩
      · simp
      · simp
    · simp
  · simp

/-- The note that the stack ran full stays. -/
theorem full_of_step (h : (M.step s).full = false) : s.full = false := by
  rcases hs : s.ctl with ⟨x, y⟩ | c | _
  · simpa only [Machine.step, hs] using h
  · by_cases hcap : s.stack.length < M.cap
    · rwa [full_step fun d hd => hcap] at h
    · simp only [Machine.step, hs, if_neg hcap, full_close] at h
      exact absurd h (by simp)
  · simpa only [Machine.step, hs] using h

theorem full_of_exec : ∀ {n : ℕ} {s : State β}, M.exec n s = some s' → s'.full = false → s.full = false
  | 0, s, hx, hf => by
      simp only [Machine.exec] at hx
      split_ifs at hx
      cases hx
      exact hf
  | n + 1, s, hx, hf => by
      simp only [Machine.exec] at hx
      split_ifs at hx
      · cases hx
        exact hf
      · exact full_of_step (full_of_exec hx hf)

/-! ### Maximal spans -/

/-- No two marked spans lie side by side, and none could have been grown further. -/
structure State.Maximal (M : Machine β) (s : State β) : Prop where
  ended : ∀ sp ∈ s.marked, sp.Ended M.toGrid (s.vis ·)
  apart : ∀ sp ∈ s.marked, ∀ t ∈ s.marked, sp.y = t.y → sp.r + 1 ≠ t.l

/-- Along a row every step inside the region is allowed. -/
def Grid.RowOpen (G : Grid) (vis₀ : Cell → Bool) (seed : Cell) : Prop :=
  ∀ p q, G.Reach vis₀ seed p → G.Reach vis₀ seed q → p.2 = q.2 → G.edge p q = true

theorem Inv.step_maximal (hrow : M.RowOpen vis₀ seed) (h : Inv M vis₀ seed s) (hm : s.Maximal M) :
    (M.step s).Maximal M := by
  rcases hs : s.ctl with ⟨x, y⟩ | c | _
  · obtain ⟨l, r, hstep, hl0, hlx, hxr, hr1, hcells, hend⟩ := h.grow_spec hs
    have hy := (h.target x y hs).1.2.2
    have hl := hcells l le_rfl (hlx.trans hxr)
    have hr := hcells r (hlx.trans hxr) le_rfl
    rw [hstep]
    have hmono : ∀ q : Cell, s.vis q = true → (s.vis q || decide (q ∈ Span.mk y l r)) = true :=
      fun q hq => by simp [hq]
    -- an end of an older span at the new one would not be blocked
    have hleft : ∀ t ∈ s.marked, t.y = y → t.r + 1 ≠ l := by
      rintro t ht rfl rfl
      have hreach := h.marked_reach (t.r, t.y) ⟨t, ht, rfl, h.nonempty t ht, le_rfl⟩
      have := (hm.ended t ht).2 ⟨hl0, by dsimp; omega, hy⟩ (hrow _ _ hreach hl.2 rfl)
      exact absurd this (by simp [hl.1])
    have hright : ∀ t ∈ s.marked, y = t.y → r + 1 ≠ t.l := by
      rintro t ht rfl hrt
      obtain rfl : r = t.l - 1 := by omega
      have hreach := h.marked_reach (t.l, t.y) ⟨t, ht, rfl, le_rfl, h.nonempty t ht⟩
      have := (hm.ended t ht).1 ⟨by dsimp; omega, hr1, hy⟩ (hrow _ _ hreach hr.2 rfl)
      exact absurd this (by simp [hr.1])
    refine ⟨List.forall_mem_cons.mpr ⟨hend.mono hmono, fun t ht => (hm.ended t ht).mono hmono⟩, ?_⟩
    intro sp hsp t ht hyt
    rcases List.mem_cons.mp hsp with rfl | hsp
    · rcases List.mem_cons.mp ht with rfl | ht
      · dsimp only
        omega
      · exact hright t ht hyt
    · rcases List.mem_cons.mp ht with rfl | ht
      · exact hleft sp hsp hyt
      · exact hm.apart sp hsp t ht hyt
  · obtain ⟨hvis, hmk⟩ := step_look_marks (M := M) hs
    exact ⟨hvis ▸ hmk ▸ hm.ended, hmk ▸ hm.apart⟩
  · rw [show M.step s = s by simp only [Machine.step, hs]]
    exact hm

theorem exec_maximal (hpack : ∀ c : Ctx, c.Fits M.toGrid → M.pack c = c) (hrow : M.RowOpen vis₀ seed)
    (hseed : M.Mem seed) (h0 : vis₀ seed = false) (b : β) {n : ℕ}
    (hx : M.exec n (start vis₀ seed b) = some s) : s.Maximal M := by
  refine (exec_inv (fun s => Inv M vis₀ seed s ∧ s.Maximal M) ?_ hx
    ⟨inv_start hseed h0 b, by simp [start], by simp [start]⟩).2
  rintro t ⟨hinv, hm⟩
  exact ⟨hinv.step hpack, hinv.step_maximal hrow hm⟩

/-! A grid in which every step is allowed and nothing was marked before: each span is a whole row. -/

/-- The columns of a row between which nothing stops the fill. -/
theorem Inv.whole_row (h : Inv M vis₀ seed s) (hm : s.Maximal M) (hseed : M.Mem seed)
    (hedge : ∀ p q, M.Mem p → M.Mem q → M.edge p q = true) (hvis : ∀ p, M.Mem p → vis₀ p = false) {sp : Span}
    (hsp : sp ∈ s.marked) : sp.l = M.x0 ∧ sp.r = M.x1 - 1 := by
  have hlr := h.nonempty sp hsp
  have hl : M.Mem (sp.l, sp.y) := (h.marked_reach _ ⟨sp, hsp, rfl, le_rfl, hlr⟩).mem hseed
  have hr : M.Mem (sp.r, sp.y) := (h.marked_reach _ ⟨sp, hsp, rfl, hlr, le_rfl⟩).mem hseed
  have hx0 := hl.1
  have hx1 := hr.2.1
  have hy := hl.2.2
  dsimp only at hx0 hx1 hy
  have hmarked : ∀ q, M.Mem q → s.vis q = true → ∃ t ∈ s.marked, q ∈ t := by
    intro q hq hv
    rcases (h.vis_iff q).mp hv with hv | hv
    · rw [hvis q hq] at hv
      exact absurd hv (by simp)
    · exact hv
  have hsymm : Std.Symm Span.Apart := ⟨fun _ _ h => h.symm⟩
  have hapart : ∀ t ∈ s.marked, t ≠ sp → t.Apart sp := fun t ht hne => h.apart.forall ht hsp hne
  constructor
  · by_contra hne
    have hq : M.Mem (sp.l - 1, sp.y) := ⟨by dsimp; omega, by dsimp; omega, hy⟩
    obtain ⟨t, ht, hty, htl, htr⟩ := hmarked _ hq ((hm.ended sp hsp).1 hq (hedge _ _ hl hq))
    dsimp only at hty htl htr
    have hts : t ≠ sp := fun h => by subst h; omega
    have hend : ¬ sp.l ≤ t.r := fun hle =>
      hapart t ht hts (sp.l, sp.y) ⟨hty, by dsimp; omega, hle⟩ ⟨rfl, le_rfl, hlr⟩
    exact hm.apart t ht sp hsp hty.symm (by omega)
  · by_contra hne
    have hq : M.Mem (sp.r + 1, sp.y) := ⟨by dsimp; omega, by dsimp; omega, hy⟩
    obtain ⟨t, ht, hty, htl, htr⟩ := hmarked _ hq ((hm.ended sp hsp).2 hq (hedge _ _ hr hq))
    dsimp only at hty htl htr
    have hts : t ≠ sp := fun h => by subst h; omega
    have hend : ¬ t.l ≤ sp.r := fun hle =>
      hapart t ht hts (sp.r, sp.y) ⟨hty, hle, by dsimp; omega⟩ ⟨rfl, hlr, le_rfl⟩
    exact hm.apart sp hsp t ht hty (by omega)

/-- So there are no more spans than rows, and a stack with a place for every row does not run full. -/
theorem exec_not_full_open (hpack : ∀ c : Ctx, c.Fits M.toGrid → M.pack c = c) (hseed : M.Mem seed) (b : β)
    (hedge : ∀ p q, M.Mem p → M.Mem q → M.edge p q = true) (hvis : ∀ p, M.Mem p → vis₀ p = false)
    (hcap : (M.y1 - M.y0).toNat ≤ M.cap) {n : ℕ} (hx : M.exec n (start vis₀ seed b) = some s) : s.full = false := by
  have hrow : M.RowOpen vis₀ seed := fun p q hp hq _ => hedge p q (hp.mem hseed) (hq.mem hseed)
  refine exec_not_full_of (P := State.Maximal M) hpack hseed (hvis seed hseed) b ⟨by simp [start], by simp [start]⟩
    (fun t hinv hm => hinv.step_maximal hrow hm) (fun t hinv hm => ?_) hx
  have hwhole : ∀ sp ∈ t.marked, sp.l = M.x0 ∧ sp.r = M.x1 - 1 := fun _ hsp =>
    hinv.whole_row hm hseed hedge hvis hsp
  have hrows : ∀ sp ∈ t.marked, M.y0 ≤ sp.y ∧ sp.y < M.y1 := fun sp hsp =>
    ((hinv.marked_reach (sp.l, sp.y) ⟨sp, hsp, rfl, le_rfl, hinv.nonempty sp hsp⟩).mem hseed).2.2
  have hnodup : (t.marked.map fun sp => (sp.y - M.y0).toNat).Nodup := by
    rw [List.Nodup, List.pairwise_map]
    refine hinv.apart.imp_of_mem fun {sp u} hsp hu hapart heq => ?_
    have hy : sp.y = u.y := by
      have h1 := hrows sp hsp
      have h2 := hrows u hu
      omega
    have hl : u.l = sp.l := (hwhole u hu).1.trans (hwhole sp hsp).1.symm
    exact hapart (sp.l, sp.y) ⟨rfl, le_rfl, hinv.nonempty sp hsp⟩ ⟨hy, hl.le, hl ▸ hinv.nonempty u hu⟩
  have hsub : (t.marked.map fun sp => (sp.y - M.y0).toNat).toFinset ⊆ Finset.range (M.y1 - M.y0).toNat := by
    intro k hk
    rw [List.mem_toFinset, List.mem_map] at hk
    obtain ⟨sp, hsp, rfl⟩ := hk
    have hy := hrows sp hsp
    rw [Finset.mem_range]
    omega
  have hcard := Finset.card_le_card hsub
  rw [List.toFinset_card_of_nodup hnodup, List.length_map, Finset.card_range] at hcard
  exact hcard.trans hcap

/-- A span of the set that reaches as far as it can to both sides. -/
structure Span.MaximalIn (S : Finset Cell) (sp : Span) : Prop where
  nonempty : sp.l ≤ sp.r
  subset : ∀ p ∈ sp, p ∈ S
  left : (sp.l - 1, sp.y) ∉ S
  right : (sp.r + 1, sp.y) ∉ S

/-- A maximal span that lies in another and contains its left end is the whole of it. -/
theorem Span.MaximalIn.eq {S : Finset Cell} {sp t : Span} (hsp : sp.MaximalIn S) (ht : t.MaximalIn S)
    (hmem : (sp.l, sp.y) ∈ t) : sp = t := by
  obtain ⟨hy, h1, h2⟩ := hmem
  dsimp only at hy h1 h2
  have hl : t.l = sp.l := by
    by_contra hne
    exact hsp.left (ht.subset _ ⟨hy, by dsimp; omega, by dsimp; omega⟩)
  have hr : t.r = sp.r := by
    have hle := hsp.nonempty
    rcases lt_trichotomy t.r sp.r with hlt | heq | hgt
    · exact absurd (hsp.subset (t.r + 1, t.y) ⟨hy.symm, by dsimp; omega, by dsimp; omega⟩) ht.right
    · exact heq
    · exact absurd (ht.subset (sp.r + 1, sp.y) ⟨hy, by dsimp; omega, by dsimp; omega⟩) hsp.right
  obtain ⟨y, l, r⟩ := sp
  obtain ⟨y', l', r'⟩ := t
  simp only at hy hl hr
  rw [hy, hl, hr]

/-- Disjoint spans that do not lie side by side are the maximal ones. -/
theorem mem_iff_maximalIn {sps : List Span} (hne : ∀ sp ∈ sps, sp.l ≤ sp.r)
    (hapart : sps.Pairwise Span.Apart)
    (hside : ∀ sp ∈ sps, ∀ t ∈ sps, sp.y = t.y → sp.r + 1 ≠ t.l) {sp : Span} :
    sp ∈ sps ↔ sp.MaximalIn (region sps) := by
  have : Std.Symm Span.Apart := ⟨fun _ _ h => h.symm⟩
  have hpair : ∀ sp ∈ sps, ∀ t ∈ sps, sp ≠ t → sp.Apart t := fun sp hsp t ht hst =>
    hapart.forall hsp ht hst
  have hmax : ∀ sp ∈ sps, sp.MaximalIn (region sps) := by
    intro sp hsp
    have hlr := hne sp hsp
    refine ⟨hlr, fun p hp => mem_region.mpr ⟨sp, hsp, hp⟩, fun hl => ?_, fun hr => ?_⟩
    · obtain ⟨t, ht, hy, h1, h2⟩ := mem_region.mp hl
      dsimp only at hy h1 h2
      have hst : sp ≠ t := by rintro rfl; omega
      have hout := hpair sp hsp t ht hst (sp.l, sp.y) ⟨rfl, le_rfl, hlr⟩
      refine hside t ht sp hsp hy.symm ?_
      by_contra hne
      exact hout ⟨hy, by dsimp; omega, by dsimp; omega⟩
    · obtain ⟨t, ht, hy, h1, h2⟩ := mem_region.mp hr
      dsimp only at hy h1 h2
      have hst : sp ≠ t := by rintro rfl; omega
      have hout := hpair sp hsp t ht hst (sp.r, sp.y) ⟨rfl, hlr, le_rfl⟩
      refine hside sp hsp t ht hy ?_
      by_contra hne
      exact hout ⟨hy, by dsimp; omega, by dsimp; omega⟩
  refine ⟨hmax sp, fun h => ?_⟩
  obtain ⟨t, ht, hmem⟩ := mem_region.mp (h.subset (sp.l, sp.y) ⟨rfl, le_rfl, h.nonempty⟩)
  exact h.eq (hmax t ht) hmem ▸ ht

theorem nodup_of_apart {sps : List Span} (hne : ∀ sp ∈ sps, sp.l ≤ sp.r)
    (hapart : sps.Pairwise Span.Apart) : sps.Nodup := by
  refine hapart.imp_of_mem fun {sp t} hsp _ h => ?_
  rintro rfl
  exact h (sp.l, sp.y) ⟨rfl, le_rfl, hne sp hsp⟩ ⟨rfl, le_rfl, hne sp hsp⟩

end Rounds

end OpenMV.Schemes.ScanFill
