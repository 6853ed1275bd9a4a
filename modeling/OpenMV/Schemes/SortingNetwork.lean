import Mathlib.Data.List.Nodup
import Mathlib.Data.List.Perm.Basic
import Mathlib.Data.Nat.Bitwise
import Mathlib.Data.Nat.Find
import Mathlib.Logic.Equiv.Basic
import Mathlib.Order.MinMax

/-! Sorting networks | scheme:zero-one principle

    A comparator puts the smaller of two values into its first place. A network of them commutes with monotone maps, so
    it sorts everything if it sorts zeros and ones. These need not all be tried: if the network sorts the two parts of
    its places before it compares between them, each part can be looked at by itself, and what is left are the sorted
    parts, of which there are few. -/

namespace OpenMV.Schemes.Network

variable {α β : Type*} [LinearOrder α] [LinearOrder β]

/-- The two places in order. -/
def compareSwap (p : ℕ × ℕ) (f : ℕ → α) (i : ℕ) : α :=
  if i = p.1 then min (f p.1) (f p.2) else if i = p.2 then max (f p.1) (f p.2) else f i

def run (net : List (ℕ × ℕ)) (f : ℕ → α) : ℕ → α := net.foldl (fun f p => compareSwap p f) f

/-- The places from `lo` to `hi` are in order. -/
def SortedOn (lo hi : ℕ) (f : ℕ → α) : Prop := ∀ i, lo ≤ i → i + 1 < hi → f i ≤ f (i + 1)

/-! ### The zero-one principle -/

section Principle
variable {net : List (ℕ × ℕ)} {lo hi : ℕ} {f : ℕ → α}

theorem SortedOn.le (h : SortedOn lo hi f) {i j : ℕ} (hlo : lo ≤ i) (hij : i ≤ j) (hhi : j < hi) : f i ≤ f j := by
  induction j, hij using Nat.le_induction with
  | base => exact le_refl _
  | succ j hij ih => exact (ih (by omega)).trans (h j (by omega) hhi)

theorem compareSwap_comp {g : α → β} (hg : Monotone g) (p : ℕ × ℕ) (f : ℕ → α) :
    compareSwap p (g ∘ f) = g ∘ compareSwap p f := by
  funext i
  simp only [compareSwap, Function.comp_apply]
  split_ifs
  · exact hg.map_min.symm
  · exact hg.map_max.symm
  · rfl

theorem run_comp {g : α → β} (hg : Monotone g) (net : List (ℕ × ℕ)) (f : ℕ → α) : run net (g ∘ f) = g ∘ run net f := by
  induction net generalizing f with
  | nil => rfl
  | cons p net ih =>
    show run net (compareSwap p (g ∘ f)) = g ∘ run net (compareSwap p f)
    rw [compareSwap_comp hg, ih]

/-- Two values in the wrong order are still so as zeros and ones, cut at the greater. -/
theorem zero_one (h : ∀ b : ℕ → Bool, SortedOn lo hi (run net b)) (f : ℕ → α) : SortedOn lo hi (run net f) := by
  intro i hlo hhi
  by_contra hlt
  have hg : Monotone fun x => decide (run net f i ≤ x) := by
    intro x y hxy
    by_cases hx : run net f i ≤ x
    · simp [hx, hx.trans hxy]
    · simp [hx]
  have hle := h ((fun x => decide (run net f i ≤ x)) ∘ f) i hlo hhi
  rw [run_comp hg] at hle
  simp only [Function.comp_apply, le_refl, decide_true, decide_eq_false hlt] at hle
  exact absurd hle (by decide)

end Principle

/-! ### Parts -/

section Parts
variable {net : List (ℕ × ℕ)} {lo hi : ℕ} {f g : ℕ → α}

def inside (lo hi : ℕ) (p : ℕ × ℕ) : Bool := lo ≤ p.1 && p.1 < hi && lo ≤ p.2 && p.2 < hi

/-- No place in common. -/
def apart (p q : ℕ × ℕ) : Bool := p.1 ≠ q.1 && p.1 ≠ q.2 && p.2 ≠ q.1 && p.2 ≠ q.2

theorem inside_iff {p : ℕ × ℕ} : inside lo hi p = true ↔ (lo ≤ p.1 ∧ p.1 < hi) ∧ lo ≤ p.2 ∧ p.2 < hi := by
  simp only [inside, Bool.and_eq_true, decide_eq_true_eq]
  tauto

theorem compareSwap_of_ne {p : ℕ × ℕ} {i : ℕ} (h1 : i ≠ p.1) (h2 : i ≠ p.2) : compareSwap p f i = f i := by
  rw [compareSwap, if_neg h1, if_neg h2]

/-- What a network does inside depends on what is inside. -/
theorem run_congr (hnet : ∀ p ∈ net, inside lo hi p = true) (h : ∀ i, lo ≤ i → i < hi → f i = g i) {i : ℕ}
    (hlo : lo ≤ i) (hhi : i < hi) : run net f i = run net g i := by
  induction net generalizing f g with
  | nil => exact h i hlo hhi
  | cons p net ih =>
    obtain ⟨hp, hrest⟩ := List.forall_mem_cons.mp hnet
    obtain ⟨⟨h1, h2⟩, h3, h4⟩ := inside_iff.mp hp
    refine ih hrest fun j hj hj' => ?_
    show compareSwap p f j = compareSwap p g j
    simp only [compareSwap, h p.1 h1 h2, h p.2 h3 h4, h j hj hj']

/-- Comparators elsewhere may be left out. -/
theorem run_filter_inside
    (hnet : ∀ p ∈ net, inside lo hi p = false → ∀ i, lo ≤ i → i < hi → i ≠ p.1 ∧ i ≠ p.2) {i : ℕ} (hlo : lo ≤ i)
    (hhi : i < hi) : run net f i = run (net.filter (inside lo hi)) f i := by
  induction net generalizing f with
  | nil => rfl
  | cons p net ih =>
    obtain ⟨hp, hrest⟩ := List.forall_mem_cons.mp hnet
    show run net (compareSwap p f) i = _
    rw [ih hrest]
    cases hin : inside lo hi p with
    | true =>
      rw [List.filter_cons_of_pos hin]
      rfl
    | false =>
      rw [List.filter_cons_of_neg (by simp [hin])]
      refine run_congr (fun q hq => (List.mem_filter.mp hq).2) (fun j hj hj' => ?_) hlo hhi
      obtain ⟨h1, h2⟩ := hp hin j hj hj'
      exact compareSwap_of_ne h1 h2

theorem compareSwap_comm {p q : ℕ × ℕ} (h : apart p q = true) (f : ℕ → α) :
    compareSwap p (compareSwap q f) = compareSwap q (compareSwap p f) := by
  simp only [apart, Bool.and_eq_true, decide_eq_true_eq] at h
  obtain ⟨⟨⟨h1, h2⟩, h3⟩, h4⟩ := h
  funext i
  have hp1 : compareSwap q f p.1 = f p.1 := compareSwap_of_ne h1 h2
  have hp2 : compareSwap q f p.2 = f p.2 := compareSwap_of_ne h3 h4
  have hq1 : compareSwap p f q.1 = f q.1 := compareSwap_of_ne h1.symm h3.symm
  have hq2 : compareSwap p f q.2 = f q.2 := compareSwap_of_ne h2.symm h4.symm
  by_cases hi : i = p.1 ∨ i = p.2
  · have hiq : i ≠ q.1 ∧ i ≠ q.2 := by
      rcases hi with rfl | rfl
      · exact ⟨h1, h2⟩
      · exact ⟨h3, h4⟩
    rw [compareSwap_of_ne hiq.1 hiq.2, compareSwap, hp1, hp2, compareSwap_of_ne hiq.1 hiq.2]
    rfl
  · obtain ⟨hi1, hi2⟩ := not_or.mp hi
    rw [compareSwap_of_ne hi1 hi2]
    simp only [compareSwap, hi1, hi2, if_false]
    rw [if_neg h1.symm, if_neg h3.symm, if_neg h2.symm, if_neg h4.symm]

theorem run_comm {p : ℕ × ℕ} (h : ∀ q ∈ net, apart p q = true) (f : ℕ → α) :
    run net (compareSwap p f) = compareSwap p (run net f) := by
  induction net generalizing f with
  | nil => rfl
  | cons q net ih =>
    obtain ⟨hq, hrest⟩ := List.forall_mem_cons.mp h
    show run net (compareSwap q (compareSwap p f)) = compareSwap p (run net (compareSwap q f))
    rw [← compareSwap_comm hq, ih hrest]

/-- No comparator of the others has a place in common with one of these behind it. -/
def movable (these : ℕ × ℕ → Bool) : List (ℕ × ℕ) → Bool
  | [] => true
  | p :: net => (these p || net.all fun q => !these q || apart p q) && movable these net

/-- These may be run first. -/
theorem run_partition {these : ℕ × ℕ → Bool} (h : movable these net = true) (f : ℕ → α) :
    run net f = run (net.filter fun p => !these p) (run (net.filter these) f) := by
  induction net generalizing f with
  | nil => rfl
  | cons p net ih =>
    rw [movable, Bool.and_eq_true] at h
    obtain ⟨hp, hrest⟩ := h
    show run net (compareSwap p f) = _
    rw [ih hrest]
    cases hthese : these p with
    | true =>
      have hkeep : (p :: net).filter these = p :: net.filter these := List.filter_cons_of_pos hthese
      have hdrop : (p :: net).filter (fun p => !these p) = net.filter fun p => !these p :=
        List.filter_cons_of_neg (by simp [hthese])
      rw [hkeep, hdrop]
      rfl
    | false =>
      have hdrop : (p :: net).filter these = net.filter these := List.filter_cons_of_neg (by simp [hthese])
      have hkeep : (p :: net).filter (fun p => !these p) = p :: net.filter fun p => !these p :=
        List.filter_cons_of_pos (by simp [hthese])
      rw [hthese, Bool.false_or, List.all_eq_true] at hp
      rw [hdrop, hkeep, run_comm]
      · rfl
      intro q hq
      obtain ⟨hq, hthese'⟩ := List.mem_filter.mp hq
      simpa [hthese'] using hp q hq

end Parts

/-! ### Zeros and ones side by side

    A number for each place holds one bit for each way to fill the places, so that a comparator is an `and` and an `or`
    for all of them at once. -/

section Lanes
variable {net : List (ℕ × ℕ)} {lo hi : ℕ}

/-- The bits of one place in the masks. -/
def column (masks : List ℕ) (i : ℕ) : ℕ := masks.foldr (fun m bits => Nat.bit (m.testBit i) bits) 0

def laneSwap (p : ℕ × ℕ) (cols : List ℕ) : List ℕ :=
  let x := cols.getD p.1 0
  let y := cols.getD p.2 0
  (cols.set p.2 (x ||| y)).set p.1 (x &&& y)

def runLanes (net : List (ℕ × ℕ)) (cols : List ℕ) : List ℕ := net.foldl (fun cols p => laneSwap p cols) cols

def sortedLanes (lo hi : ℕ) (cols : List ℕ) : Bool :=
  (List.range (hi - lo - 1)).all fun i => cols.getD (lo + i) 0 ||| cols.getD (lo + i + 1) 0 == cols.getD (lo + i + 1) 0

/-- The network sorts the bits of each mask. -/
def sortsMasks (net : List (ℕ × ℕ)) (lo hi : ℕ) (masks : List ℕ) : Bool :=
  sortedLanes lo hi (runLanes net ((List.range hi).map (column masks)))

theorem testBit_column (masks : List ℕ) (i j : ℕ) : (column masks i).testBit j = (masks.getD j 0).testBit i := by
  induction masks generalizing j with
  | nil => simp [column]
  | cons m masks ih =>
    cases j with
    | zero => exact Nat.testBit_bit_zero _ _
    | succ j => exact (Nat.testBit_bit_succ _ _ _).trans (ih j)

theorem getD_laneSwap {p : ℕ × ℕ} {cols : List ℕ} (h1 : p.1 < cols.length) (h2 : p.2 < cols.length) (i j : ℕ) :
    ((laneSwap p cols).getD i 0).testBit j = compareSwap p (fun i => (cols.getD i 0).testBit j) i := by
  unfold compareSwap
  split_ifs with hi1 hi2
  · subst hi1
    rw [laneSwap, List.getD_eq_getElem?_getD, List.getElem?_set_self (by rwa [List.length_set]), Option.getD_some,
      Nat.testBit_and]
    rfl
  · subst hi2
    rw [laneSwap, List.getD_eq_getElem?_getD, List.getElem?_set_ne (Ne.symm hi1), List.getElem?_set_self h2,
      Option.getD_some, Nat.testBit_or]
    rfl
  · rw [laneSwap, List.getD_eq_getElem?_getD, List.getElem?_set_ne (Ne.symm hi1), List.getElem?_set_ne (Ne.symm hi2)]
    exact congrArg (Nat.testBit · j) List.getD_eq_getElem?_getD.symm

theorem length_laneSwap (p : ℕ × ℕ) (cols : List ℕ) : (laneSwap p cols).length = cols.length := by
  rw [laneSwap, List.length_set, List.length_set]

/-- Each lane goes through the network. -/
theorem testBit_runLanes (hnet : ∀ p ∈ net, inside lo hi p = true) (j : ℕ) {cols : List ℕ} (hlen : cols.length = hi) :
    (fun i => ((runLanes net cols).getD i 0).testBit j) = run net fun i => (cols.getD i 0).testBit j := by
  induction net generalizing cols with
  | nil => rfl
  | cons p net ih =>
    obtain ⟨hp, hrest⟩ := List.forall_mem_cons.mp hnet
    obtain ⟨⟨-, h1⟩, -, h2⟩ := inside_iff.mp hp
    show (fun i => ((runLanes net (laneSwap p cols)).getD i 0).testBit j) =
      run net (compareSwap p fun i => (cols.getD i 0).testBit j)
    rw [ih hrest (by rw [length_laneSwap, hlen])]
    congr 1
    funext i
    exact getD_laneSwap (by omega) (by omega) i j

/-- Zeros and ones inside a network that are the bits of one of the masks are sorted. -/
theorem sortedOn_run_of_masks (hnet : ∀ p ∈ net, inside lo hi p = true) {masks : List ℕ}
    (h : sortsMasks net lo hi masks = true) {b : ℕ → Bool} {m : ℕ} (hm : m ∈ masks)
    (hbits : ∀ i, lo ≤ i → i < hi → b i = m.testBit i) : SortedOn lo hi (run net b) := by
  obtain ⟨j, hj, rfl⟩ := List.getElem_of_mem hm
  have hlane := testBit_runLanes hnet j (by rw [List.length_map, List.length_range] :
    ((List.range hi).map (column masks)).length = hi)
  have hcol : ∀ i, lo ≤ i → i < hi → b i = (((List.range hi).map (column masks)).getD i 0).testBit j := by
    intro i hlo hhi
    rw [hbits i hlo hhi, List.getD_eq_getElem?_getD, List.getElem?_map, List.getElem?_range hhi, Option.map_some,
      Option.getD_some, testBit_column, List.getD_eq_getElem?_getD, List.getElem?_eq_getElem hj, Option.getD_some]
  intro i hlo hhi
  rw [sortsMasks, sortedLanes, List.all_eq_true] at h
  have hi := h (i - lo) (List.mem_range.mpr (by omega))
  rw [Nat.add_sub_cancel' hlo, beq_iff_eq] at hi
  rw [run_congr hnet hcol hlo (by omega), run_congr hnet hcol (by omega) hhi, ← hlane]
  show (List.getD _ i 0).testBit j ≤ (List.getD _ (i + 1) 0).testBit j
  rw [← hi, Nat.testBit_or]
  exact Bool.left_le_or _ _

/-- Ones from `k` up to `hi`. -/
def onesFrom (k hi : ℕ) : ℕ := (2 ^ (hi - k) - 1) <<< k

theorem testBit_onesFrom (k hi i : ℕ) : (onesFrom k hi).testBit i = decide (k ≤ i ∧ i < hi) := by
  rw [onesFrom, Nat.testBit_shiftLeft, Nat.testBit_two_pow_sub_one, ← Bool.decide_and]
  exact decide_eq_decide.mpr (by omega)

/-- Zeros and ones in order begin with the ones somewhere. -/
theorem SortedOn.exists_ones {b : ℕ → Bool} (h : SortedOn lo hi b) (hle : lo ≤ hi) :
    ∃ k, lo ≤ k ∧ k ≤ hi ∧ ∀ i, lo ≤ i → i < hi → b i = decide (k ≤ i) := by
  by_cases hone : ∃ k, lo ≤ k ∧ k < hi ∧ b k = true
  · obtain ⟨hlo, hhi, hk⟩ := Nat.find_spec hone
    refine ⟨Nat.find hone, hlo, hhi.le, fun i hi hi' => ?_⟩
    by_cases hfind : Nat.find hone ≤ i
    · have hle := h.le hlo hfind hi'
      rw [hk] at hle
      rw [decide_eq_true hfind]
      exact Bool.eq_true_of_true_le hle
    · rw [decide_eq_false hfind, Bool.eq_false_iff]
      exact fun hbit => Nat.find_min hone (not_le.mp hfind) ⟨hi, hi', hbit⟩
  · refine ⟨hi, hle, le_refl hi, fun i hi hi' => ?_⟩
    rw [decide_eq_false (by omega), Bool.eq_false_iff]
    exact fun hbit => hone ⟨i, hi, hi', hbit⟩

end Lanes

/-! ### Plans -/

/-- How a network is looked at: with all zeros and ones, or the two parts below and from `mid` on by themselves. -/
inductive Plan where
  | all
  | split (mid : ℕ) (left right : Plan)

/-- The network puts sorted parts together. -/
def merges (net : List (ℕ × ℕ)) (lo mid hi : ℕ) : Bool :=
  sortsMasks net lo hi ((List.range (mid - lo + 1)).flatMap fun k => (List.range (hi - mid + 1)).map fun l =>
    onesFrom (lo + k) mid ||| onesFrom (mid + l) hi)

def Plan.sorts : Plan → List (ℕ × ℕ) → ℕ → ℕ → Bool
  | .all, net, lo, hi => net.all (inside lo hi) &&
    sortsMasks net lo hi ((List.range (2 ^ (hi - lo))).map fun m => m <<< lo)
  | .split mid left right, net, lo, hi =>
    let inner := fun p => inside lo mid p || inside mid hi p
    decide (lo ≤ mid ∧ mid ≤ hi) && net.all (inside lo hi) && movable inner net &&
      merges (net.filter fun p => !inner p) lo mid hi &&
      left.sorts (net.filter (inside lo mid)) lo mid && right.sorts (net.filter (inside mid hi)) mid hi

section Plans
variable {net : List (ℕ × ℕ)} {lo mid hi : ℕ}

theorem sortedOn_of_all (hnet : ∀ p ∈ net, inside lo hi p = true)
    (h : sortsMasks net lo hi ((List.range (2 ^ (hi - lo))).map fun m => m <<< lo) = true) (b : ℕ → Bool) :
    SortedOn lo hi (run net b) := by
  let m := Nat.ofBits fun i : Fin (hi - lo) => b (lo + i)
  have hm : m < 2 ^ (hi - lo) := Nat.ofBits_lt_two_pow _
  refine sortedOn_run_of_masks hnet h (List.mem_map.mpr ⟨m, List.mem_range.mpr hm, rfl⟩) fun i hlo hhi => ?_
  rw [Nat.testBit_shiftLeft, decide_eq_true hlo, Bool.true_and]
  show _ = (Nat.ofBits _).testBit _
  rw [Nat.testBit_ofBits_lt _ _ (by omega)]
  show b i = b (lo + (i - lo))
  rw [Nat.add_sub_cancel' hlo]

theorem sortedOn_of_merges (hnet : ∀ p ∈ net, inside lo hi p = true) (hlo : lo ≤ mid) (hhi : mid ≤ hi)
    (h : merges net lo mid hi = true) {b : ℕ → Bool} (hleft : SortedOn lo mid b) (hright : SortedOn mid hi b) :
    SortedOn lo hi (run net b) := by
  obtain ⟨k, hk1, hk2, hk⟩ := hleft.exists_ones hlo
  obtain ⟨l, hl1, hl2, hl⟩ := hright.exists_ones hhi
  have hmask : onesFrom k mid ||| onesFrom l hi ∈ (List.range (mid - lo + 1)).flatMap fun k =>
      (List.range (hi - mid + 1)).map fun l => onesFrom (lo + k) mid ||| onesFrom (mid + l) hi := by
    refine List.mem_flatMap.mpr ⟨k - lo, List.mem_range.mpr (by omega), List.mem_map.mpr
      ⟨l - mid, List.mem_range.mpr (by omega), ?_⟩⟩
    rw [Nat.add_sub_cancel' hk1, Nat.add_sub_cancel' hl1]
  refine sortedOn_run_of_masks hnet h hmask fun i hi1 hi2 => ?_
  rw [Nat.testBit_or, testBit_onesFrom, testBit_onesFrom, ← Bool.decide_or]
  by_cases him : i < mid
  · rw [hk i hi1 him]
    exact decide_eq_decide.mpr (by omega)
  · rw [hl i (by omega) hi2]
    exact decide_eq_decide.mpr (by omega)

/-- Comparators of one part have no place in the other. -/
theorem SortedOn.run_inner {inner : ℕ × ℕ → Bool} {b : ℕ → Bool}
    (hinner : ∀ p ∈ net.filter inner, inside lo hi p = false → ∀ i, lo ≤ i → i < hi → i ≠ p.1 ∧ i ≠ p.2)
    (hsame : (net.filter inner).filter (inside lo hi) = net.filter (inside lo hi))
    (h : SortedOn lo hi (run (net.filter (inside lo hi)) b)) : SortedOn lo hi (run (net.filter inner) b) := by
  intro i hlo hhi
  rw [run_filter_inside hinner hlo (by omega), run_filter_inside hinner (by omega) hhi, hsame]
  exact h i hlo hhi

theorem Plan.inside_of_sorts (plan : Plan) (h : plan.sorts net lo hi = true) : ∀ p ∈ net, inside lo hi p = true := by
  cases plan with
  | all =>
    simp only [Plan.sorts, Bool.and_eq_true, List.all_eq_true] at h
    exact h.1
  | split mid left right =>
    simp only [Plan.sorts, Bool.and_eq_true, List.all_eq_true] at h
    exact h.1.1.1.1.2

theorem Plan.sorts_split {left right : Plan} (hmid : lo ≤ mid ∧ mid ≤ hi) (hinside : net.all (inside lo hi) = true)
    (hmovable : movable (fun p => inside lo mid p || inside mid hi p) net = true)
    (hmerges : merges (net.filter fun p => !(inside lo mid p || inside mid hi p)) lo mid hi = true)
    (hleft : left.sorts (net.filter (inside lo mid)) lo mid = true)
    (hright : right.sorts (net.filter (inside mid hi)) mid hi = true) :
    (Plan.split mid left right).sorts net lo hi = true := by
  simp only [Plan.sorts, Bool.and_eq_true, decide_eq_true_eq]
  exact ⟨⟨⟨⟨⟨hmid, hinside⟩, hmovable⟩, hmerges⟩, hleft⟩, hright⟩

/-- A plan that works out shows that the network sorts. -/
theorem Plan.sorts_sound (plan : Plan) (h : plan.sorts net lo hi = true) (b : ℕ → Bool) :
    SortedOn lo hi (run net b) := by
  induction plan generalizing net lo hi b with
  | all =>
    simp only [Plan.sorts, Bool.and_eq_true, List.all_eq_true] at h
    exact sortedOn_of_all h.1 h.2 b
  | split mid left right ihl ihr =>
    simp only [Plan.sorts, Bool.and_eq_true, decide_eq_true_eq] at h
    obtain ⟨⟨⟨⟨⟨⟨hlo, hhi⟩, hnet⟩, hmovable⟩, hmerges⟩, hleft⟩, hright⟩ := h
    rw [List.all_eq_true] at hnet
    rw [run_partition hmovable]
    refine sortedOn_of_merges (fun p hp => hnet p (List.mem_filter.mp hp).1) hlo hhi hmerges ?_ ?_
    · refine SortedOn.run_inner (fun p hp hp' i hi1 hi2 => ?_) ?_ (ihl hleft b)
      · have hp := (List.mem_filter.mp hp).2
        rw [hp', Bool.false_or] at hp
        obtain ⟨⟨h1, h2⟩, h3, h4⟩ := inside_iff.mp hp
        omega
      · rw [List.filter_filter]
        refine List.filter_congr fun p _ => ?_
        cases inside lo mid p <;> simp
    · refine SortedOn.run_inner (fun p hp hp' i hi1 hi2 => ?_) ?_ (ihr hright b)
      · have hp := (List.mem_filter.mp hp).2
        rw [hp', Bool.or_false] at hp
        obtain ⟨⟨h1, h2⟩, h3, h4⟩ := inside_iff.mp hp
        omega
      · rw [List.filter_filter]
        refine List.filter_congr fun p _ => ?_
        cases inside mid hi p <;> simp

end Plans

/-! ### Permutations -/

section Permutations
variable {α : Type*} [LinearOrder α] {net : List (ℕ × ℕ)} {n : ℕ} {f : ℕ → α}

theorem run_of_le (hnet : ∀ p ∈ net, p.1 < n ∧ p.2 < n) {i : ℕ} (hi : n ≤ i) : run net f i = f i := by
  induction net generalizing f with
  | nil => rfl
  | cons p net ih =>
    obtain ⟨⟨h1, h2⟩, hrest⟩ := List.forall_mem_cons.mp hnet
    show run net (compareSwap p f) i = f i
    rw [ih hrest, compareSwap_of_ne (by omega) (by omega)]

theorem compareSwap_eq (p : ℕ × ℕ) (f : ℕ → α) : compareSwap p f = f ∨ compareSwap p f = f ∘ Equiv.swap p.1 p.2 := by
  rcases le_total (f p.1) (f p.2) with hle | hle
  · left
    funext i
    rw [compareSwap, min_eq_left hle, max_eq_right hle]
    split_ifs with h1 h2
    · rw [h1]
    · rw [h2]
    · rfl
  · right
    funext i
    rw [compareSwap, min_eq_right hle, max_eq_left hle, Function.comp_apply, Equiv.swap_apply_def]
    split_ifs
    all_goals rfl

theorem map_range_swap {a b : ℕ} (ha : a < n) (hb : b < n) :
    ((List.range n).map (Equiv.swap a b)).Perm (List.range n) := by
  refine (List.perm_ext_iff_of_nodup (List.Nodup.map (Equiv.injective _) List.nodup_range)
    List.nodup_range).mpr fun i => ?_
  simp only [List.mem_map, List.mem_range]
  have hlt : ∀ j < n, Equiv.swap a b j < n := by
    intro j hj
    rw [Equiv.swap_apply_def]
    split_ifs
    · exact hb
    · exact ha
    · exact hj
  constructor
  · rintro ⟨j, hj, rfl⟩
    exact hlt j hj
  · intro hi
    exact ⟨Equiv.swap a b i, hlt i hi, Equiv.swap_apply_self a b i⟩

theorem run_perm (hnet : ∀ p ∈ net, p.1 < n ∧ p.2 < n) (f : ℕ → α) :
    ((List.range n).map (run net f)).Perm ((List.range n).map f) := by
  induction net generalizing f with
  | nil => exact List.Perm.refl _
  | cons p net ih =>
    obtain ⟨⟨h1, h2⟩, hrest⟩ := List.forall_mem_cons.mp hnet
    refine (ih hrest (compareSwap p f)).trans ?_
    rcases compareSwap_eq p f with heq | heq
    · rw [heq]
    · rw [heq, ← List.map_map]
      exact (map_range_swap h1 h2).map f

end Permutations

end OpenMV.Schemes.Network
