import Mathlib.Data.List.Range
import Mathlib.Data.Nat.Bitwise

/-! Segment tests by decision trees | scheme:checker

    Points on a circle are compared with two bounds. The segment test asks for so many points in a row that are all
    above the one or all below the other. A tree of comparisons decides it when, at each leaf, what the path to it has
    found out says so; that is a finite check, and points are kept in bit masks for it. -/

namespace OpenMV.Schemes

/-! ### Trees of comparisons -/

/-- A leaf, or what to do when point `k` is above the upper bound (below the lower one) and when it is not. -/
inductive TestTree (α : Type) where
  | leaf (a : α)
  | ifHi (k : ℕ) (yes no : TestTree α)
  | ifLo (k : ℕ) (yes no : TestTree α)
deriving DecidableEq

namespace TestTree

variable {α β : Type} (hi lo : ℕ → Bool)

def eval : TestTree α → α
  | leaf a => a
  | ifHi k yes no => if hi k then yes.eval else no.eval
  | ifLo k yes no => if lo k then yes.eval else no.eval

/-- `if` and `else if` for one point. -/
def ifHiLo (k : ℕ) (yesHi yesLo no : TestTree α) : TestTree α := ifHi k yesHi (ifLo k yesLo no)

/-- Nested `if`s that have the same `else`. -/
def allHi (no : TestTree α) (ks : List ℕ) (yes : TestTree α) : TestTree α := ks.foldr (fun k t => ifHi k t no) yes
def allLo (no : TestTree α) (ks : List ℕ) (yes : TestTree α) : TestTree α := ks.foldr (fun k t => ifLo k t no) yes

def map (f : α → β) : TestTree α → TestTree β
  | leaf a => leaf (f a)
  | ifHi k yes no => ifHi k (yes.map f) (no.map f)
  | ifLo k yes no => ifLo k (yes.map f) (no.map f)

theorem eval_map (f : α → β) (t : TestTree α) : (t.map f).eval hi lo = f (t.eval hi lo) := by
  induction t with
  | leaf a => rfl
  | ifHi k yes no ihyes ihno => cases h : hi k <;> simp [map, eval, h, ihyes, ihno]
  | ifLo k yes no ihyes ihno => cases h : lo k <;> simp [map, eval, h, ihyes, ihno]

/-- Only the points that the tree asks for matter. -/
def points : TestTree α → List ℕ
  | leaf _ => []
  | ifHi k yes no | ifLo k yes no => k :: (yes.points ++ no.points)

theorem eval_congr {hi lo hi' lo' : ℕ → Bool} : ∀ {t : TestTree α},
    (∀ k ∈ t.points, hi k = hi' k ∧ lo k = lo' k) → t.eval hi lo = t.eval hi' lo'
  | leaf _, _ => rfl
  | ifHi k yes no, h => by
      have hyes := eval_congr (t := yes) fun j hj => h j (by simp [points, hj])
      have hno := eval_congr (t := no) fun j hj => h j (by simp [points, hj])
      simp only [eval, hyes, hno, (h k (by simp [points])).1]
  | ifLo k yes no, h => by
      have hyes := eval_congr (t := yes) fun j hj => h j (by simp [points, hj])
      have hno := eval_congr (t := no) fun j hj => h j (by simp [points, hj])
      simp only [eval, hyes, hno, (h k (by simp [points])).2]

end TestTree

/-! ### Masks and arcs -/

/-- The points of a mask. -/
def maskOf (ks : List ℕ) : ℕ := ks.foldr (fun k m => 2 ^ k ||| m) 0

theorem testBit_maskOf (ks : List ℕ) (j : ℕ) : (maskOf ks).testBit j = decide (j ∈ ks) := by
  induction ks with
  | nil => simp [maskOf]
  | cons k ks ih =>
    rw [maskOf, List.foldr_cons, Nat.testBit_or, ← maskOf, ih, Nat.testBit_two_pow]
    simp [eq_comm]

/-- `len` points in a row from `s`, on a circle of `n` points. -/
def arc (n len s : ℕ) : List ℕ := (List.range len).map fun i => (s + i) % n

def arcMasks (n len : ℕ) : List ℕ := (List.range n).map fun s => maskOf (arc n len s)

/-- So many points in a row are all above, or all below. -/
def SegmentTest (n len : ℕ) (hi lo : ℕ → Bool) : Prop :=
  ∃ s < n, (∀ k ∈ arc n len s, hi k) ∨ ∀ k ∈ arc n len s, lo k

instance (n len : ℕ) (hi lo : ℕ → Bool) : Decidable (SegmentTest n len hi lo) :=
  inferInstanceAs (Decidable (∃ s < n, (∀ k ∈ arc n len s, hi k) ∨ ∀ k ∈ arc n len s, lo k))

/-! ### The check -/

/-- The points known to be above, not above, below and not below. -/
structure Known where
  hiMask : ℕ
  notHiMask : ℕ
  loMask : ℕ
  notLoMask : ℕ

namespace Known

def nothing : Known := ⟨0, 0, 0, 0⟩

def isHi (c : Known) (k : ℕ) : Known :=
  { c with hiMask := c.hiMask ||| 2 ^ k, notLoMask := c.notLoMask ||| 2 ^ k }

def isNotHi (c : Known) (k : ℕ) : Known := { c with notHiMask := c.notHiMask ||| 2 ^ k }

def isLo (c : Known) (k : ℕ) : Known :=
  { c with loMask := c.loMask ||| 2 ^ k, notHiMask := c.notHiMask ||| 2 ^ k }

def isNotLo (c : Known) (k : ℕ) : Known := { c with notLoMask := c.notLoMask ||| 2 ^ k }

/-- Some arc is known to be above or below. -/
def passes (arcs : List ℕ) (c : Known) : Bool :=
  arcs.any fun a => a &&& c.hiMask == a || a &&& c.loMask == a

/-- Each arc is known to have a point that is not above, and one that is not below. -/
def fails (arcs : List ℕ) (c : Known) : Bool :=
  arcs.all fun a => a &&& c.notHiMask != 0 && a &&& c.notLoMask != 0

end Known

/-- What is known at the leaves is enough for what they say. -/
def TestTree.check (arcs : List ℕ) : Known → TestTree Bool → Bool
  | c, leaf true => c.passes arcs
  | c, leaf false => c.fails arcs
  | c, ifHi k yes no => yes.check arcs (c.isHi k) && no.check arcs (c.isNotHi k)
  | c, ifLo k yes no => yes.check arcs (c.isLo k) && no.check arcs (c.isNotLo k)

theorem TestTree.check_ifHiLo {arcs : List ℕ} {c : Known} {k : ℕ} {yesHi yesLo no : TestTree Bool}
    (hhi : yesHi.check arcs (c.isHi k) = true) (hlo : yesLo.check arcs ((c.isNotHi k).isLo k) = true)
    (hno : no.check arcs ((c.isNotHi k).isNotLo k) = true) : (ifHiLo k yesHi yesLo no).check arcs c = true := by
  simp only [ifHiLo, check, Bool.and_eq_true]
  exact ⟨hhi, hlo, hno⟩

/-- What is known is so. -/
structure Known.Holds (hi lo : ℕ → Bool) (c : Known) : Prop where
  of_hi : ∀ k, c.hiMask.testBit k → hi k
  of_notHi : ∀ k, c.notHiMask.testBit k → hi k = false
  of_lo : ∀ k, c.loMask.testBit k → lo k
  of_notLo : ∀ k, c.notLoMask.testBit k → lo k = false

section Sound
variable {n len : ℕ} {hi lo : ℕ → Bool}

theorem forall_testBit_insert {m k : ℕ} {P : ℕ → Prop} (h : ∀ j, m.testBit j → P j) (hk : P k) :
    ∀ j, (m ||| 2 ^ k).testBit j → P j := by
  intro j hj
  rw [Nat.testBit_or, Nat.testBit_two_pow, Bool.or_eq_true, decide_eq_true_eq] at hj
  rcases hj with hj | rfl
  · exact h j hj
  · exact hk

theorem Known.holds_nothing : Known.nothing.Holds hi lo := by
  constructor <;> simp [Known.nothing]

/-- A point that is above is not below. -/
theorem Known.Holds.isHi (hexcl : ∀ k, hi k → lo k = false) {c : Known} (hc : c.Holds hi lo) {k : ℕ} (hk : hi k) :
    (c.isHi k).Holds hi lo :=
  ⟨forall_testBit_insert hc.of_hi hk, hc.of_notHi, hc.of_lo, forall_testBit_insert hc.of_notLo (hexcl k hk)⟩

theorem Known.Holds.isNotHi {c : Known} (hc : c.Holds hi lo) {k : ℕ} (hk : hi k = false) :
    (c.isNotHi k).Holds hi lo :=
  ⟨hc.of_hi, forall_testBit_insert hc.of_notHi hk, hc.of_lo, hc.of_notLo⟩

theorem Known.Holds.isLo (hexcl : ∀ k, hi k → lo k = false) {c : Known} (hc : c.Holds hi lo) {k : ℕ} (hk : lo k) :
    (c.isLo k).Holds hi lo := by
  have hhi : hi k = false := by
    cases h : hi k with
    | false => rfl
    | true => rw [hexcl k h] at hk; cases hk
  exact ⟨hc.of_hi, forall_testBit_insert hc.of_notHi hhi, forall_testBit_insert hc.of_lo hk, hc.of_notLo⟩

theorem Known.Holds.isNotLo {c : Known} (hc : c.Holds hi lo) {k : ℕ} (hk : lo k = false) :
    (c.isNotLo k).Holds hi lo :=
  ⟨hc.of_hi, hc.of_notHi, hc.of_lo, forall_testBit_insert hc.of_notLo hk⟩

/-- A mask that is part of another one. -/
theorem testBit_of_and_eq {a m : ℕ} (h : a &&& m = a) {k : ℕ} (hk : a.testBit k) : m.testBit k := by
  rw [← h, Nat.testBit_and, Bool.and_eq_true] at hk
  exact hk.2

theorem exists_testBit_of_and_ne {a m : ℕ} (h : a &&& m ≠ 0) : ∃ k, a.testBit k ∧ m.testBit k := by
  obtain ⟨k, hk⟩ := Nat.exists_testBit_of_ne_zero h
  rw [Nat.testBit_and, Bool.and_eq_true] at hk
  exact ⟨k, hk⟩

theorem Known.Holds.segmentTest {c : Known} (hc : c.Holds hi lo) (h : c.passes (arcMasks n len)) :
    SegmentTest n len hi lo := by
  simp only [Known.passes, arcMasks, List.any_map, List.any_eq_true, List.mem_range, Function.comp_apply,
    Bool.or_eq_true, beq_iff_eq] at h
  obtain ⟨s, hs, h | h⟩ := h
  · exact ⟨s, hs, .inl fun k hk => hc.of_hi k (testBit_of_and_eq h (by simpa [testBit_maskOf] using hk))⟩
  · exact ⟨s, hs, .inr fun k hk => hc.of_lo k (testBit_of_and_eq h (by simpa [testBit_maskOf] using hk))⟩

theorem Known.Holds.not_segmentTest {c : Known} (hc : c.Holds hi lo) (h : c.fails (arcMasks n len)) :
    ¬ SegmentTest n len hi lo := by
  simp only [Known.fails, arcMasks, List.all_map, List.all_eq_true, List.mem_range, Function.comp_apply,
    Bool.and_eq_true, bne_iff_ne] at h
  rintro ⟨s, hs, hall | hall⟩
  · obtain ⟨k, hk, hnot⟩ := exists_testBit_of_and_ne (h s hs).1
    have := hall k (by simpa [testBit_maskOf] using hk)
    rw [hc.of_notHi k hnot] at this
    cases this
  · obtain ⟨k, hk, hnot⟩ := exists_testBit_of_and_ne (h s hs).2
    have := hall k (by simpa [testBit_maskOf] using hk)
    rw [hc.of_notLo k hnot] at this
    cases this

/-- On the way down the tree, what is known stays true; the leaf that is reached has been checked against it. -/
theorem TestTree.eval_iff_of_check (hexcl : ∀ k, hi k → lo k = false) : ∀ {t : TestTree Bool} {c : Known},
    c.Holds hi lo → t.check (arcMasks n len) c → (t.eval hi lo = true ↔ SegmentTest n len hi lo)
  | leaf true, c, hc, h => by simpa [eval] using hc.segmentTest h
  | leaf false, c, hc, h => by simpa [eval] using hc.not_segmentTest h
  | ifHi k yes no, c, hc, h => by
      simp only [check, Bool.and_eq_true] at h
      cases hk : hi k with
      | true => simpa [eval, hk] using eval_iff_of_check hexcl (hc.isHi hexcl hk) h.1
      | false => simpa [eval, hk] using eval_iff_of_check hexcl (hc.isNotHi hk) h.2
  | ifLo k yes no, c, hc, h => by
      simp only [check, Bool.and_eq_true] at h
      cases hk : lo k with
      | true => simpa [eval, hk] using eval_iff_of_check hexcl (hc.isLo hexcl hk) h.1
      | false => simpa [eval, hk] using eval_iff_of_check hexcl (hc.isNotLo hk) h.2

/-- A tree that passes the check decides the segment test. -/
theorem TestTree.eval_eq_decide {t : TestTree Bool} (h : t.check (arcMasks n len) Known.nothing)
    (hexcl : ∀ k, hi k → lo k = false) : t.eval hi lo = decide (SegmentTest n len hi lo) := by
  rw [Bool.eq_iff_iff, decide_eq_true_eq]
  exact eval_iff_of_check hexcl Known.holds_nothing h

end Sound

/-- Fewer points are above or below: an arc found now was there before. -/
theorem SegmentTest.mono {n len : ℕ} {hi lo hi' lo' : ℕ → Bool} (hhi : ∀ k, hi k → hi' k) (hlo : ∀ k, lo k → lo' k)
    (h : SegmentTest n len hi lo) : SegmentTest n len hi' lo' := by
  obtain ⟨s, hs, h | h⟩ := h
  · exact ⟨s, hs, .inl fun k hk => hhi k (h k hk)⟩
  · exact ⟨s, hs, .inr fun k hk => hlo k (h k hk)⟩

end OpenMV.Schemes
