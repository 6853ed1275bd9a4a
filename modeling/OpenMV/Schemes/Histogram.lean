import OpenMV.Schemes.Sliding
import Mathlib.Algebra.BigOperators.Group.Finset.Piecewise
import Mathlib.Data.Multiset.Count

/-! Histograms with small counters | scheme:histogram

    A histogram counts how often each level occurs among some values, in counters modulo `m`. `tally` is
    the histogram of a bag, and `histSlider` keeps one for a sliding window. The `c`-th smallest level is
    found by adding up counters from below: `IsNth` says what it is, `scan` is the search, and
    `isNth_scan_iff` says when counters that wrap still lead to it. -/

namespace OpenMV.Schemes

variable {α : Type*}

/-! ### Counters -/

/-- The histogram of the levels of a bag, modulo `m`. -/
def tally (m : ℕ) (bin : α → ℕ) (s : Multiset α) : ℕ → ℕ := fun i => (s.map bin).count i % m

def incr (m : ℕ) (data : ℕ → ℕ) (i : ℕ) : ℕ → ℕ := Function.update data i ((data i + 1) % m)

def decr (m : ℕ) (data : ℕ → ℕ) (i : ℕ) : ℕ → ℕ := Function.update data i ((data i + (m - 1)) % m)

/-- A histogram of the window. -/
def histSlider (m : ℕ) (bin : α → ℕ) : Slider α (ℕ → ℕ) where
  fresh _ := fun _ => 0
  add data u := incr m data (bin u)
  swap data u v := incr m (decr m data (bin u)) (bin v)
  settle data := data

theorem incr_tally (m : ℕ) (bin : α → ℕ) (s : Multiset α) (u : α) :
    incr m (tally m bin s) (bin u) = tally m bin (u ::ₘ s) := by
  funext i
  unfold incr tally
  rw [Multiset.map_cons, Multiset.count_cons, Function.update_apply]
  split
  · rename_i hi
    subst hi
    simp
  · rw [Nat.add_zero]

/-- The same with the bag as a list. -/
theorem incr_tally_append (m : ℕ) (bin : α → ℕ) (done : List α) (a : α) :
    incr m (tally m bin done) (bin a) = tally m bin ((done ++ [a] : List α) : Multiset α) := by
  rw [incr_tally, Multiset.cons_coe, Multiset.coe_eq_coe.mpr (List.perm_append_singleton a done).symm]

/-- The numbers of the values of each level add up to the number of values that have one. -/
theorem sum_countP_key {κ : Type*} [DecidableEq κ] (levels : Finset κ) (key : α → κ) : ∀ l : List α,
    ∑ k ∈ levels, l.countP (fun a => key a = k) = l.countP fun a => key a ∈ levels
  | [] => by simp
  | a :: l => by
      simp only [List.countP_cons, Finset.sum_add_distrib, sum_countP_key levels key l, decide_eq_true_eq,
        Finset.sum_ite_eq]

theorem decr_tally {m : ℕ} (hm : 0 < m) (bin : α → ℕ) (s : Multiset α) (u : α) :
    decr m (tally m bin (u ::ₘ s)) (bin u) = tally m bin s := by
  funext i
  unfold decr tally
  rw [Multiset.map_cons, Function.update_apply]
  split
  · rename_i hi
    rw [hi, Multiset.count_cons_self, Nat.mod_add_mod, Nat.add_assoc, Nat.add_sub_cancel' hm,
      Nat.add_mod_right]
  · rename_i hi
    rw [Multiset.count_cons_of_ne hi]

theorem histSlider_tracks {m : ℕ} (hm : 0 < m) (n : ℕ) (bin : α → ℕ) :
    (histSlider m bin).Tracks n (fun data s => data = tally m bin s) (fun data s => data = tally m bin s)
      (fun data s => data = tally m bin s) := by
  refine Slider.tracks_of_eq n (tally m bin) (fun _ => ?_) (incr_tally m bin) (fun s u v => ?_) fun _ => rfl
  · funext i
    exact (Nat.zero_mod m).symm
  · change incr m (decr m _ _) _ = _
    rw [decr_tally hm, incr_tally]

theorem tally_le_card (m : ℕ) (bin : α → ℕ) (s : Multiset α) (i : ℕ) : tally m bin s i ≤ s.card :=
  (Nat.mod_le _ _).trans ((Multiset.count_le_card _ _).trans (Multiset.card_map bin s).le)

/-- A counter of a bag smaller than `m` is exact. -/
theorem tally_eq {m : ℕ} (bin : α → ℕ) {s : Multiset α} (h : s.card < m) (i : ℕ) :
    tally m bin s i = (s.map bin).count i :=
  Nat.mod_eq_of_lt (lt_of_le_of_lt (Multiset.count_le_card _ _) (by rwa [Multiset.card_map]))

theorem tally_eq_zero (m : ℕ) {bin : α → ℕ} {len : ℕ} (hbin : ∀ u, bin u < len) (s : Multiset α) {i : ℕ}
    (hi : len ≤ i) : tally m bin s i = 0 := by
  rw [tally, Multiset.count_eq_zero_of_notMem, Nat.zero_mod]
  intro hmem
  obtain ⟨u, -, rfl⟩ := Multiset.mem_map.mp hmem
  exact absurd (hbin u) (not_lt.mpr hi)

theorem count_add_count_le (s : Multiset ℕ) {i j : ℕ} (h : i ≠ j) : s.count i + s.count j ≤ s.card := by
  induction s using Multiset.induction_on with
  | empty => exact le_rfl
  | cons a s ih =>
    rw [Multiset.count_cons, Multiset.count_cons, Multiset.card_cons]
    split_ifs <;> omega

/-! ### Ranks -/

/-- The `c`-th smallest of a list. -/
def IsNth (c : ℤ) (l : List ℕ) (v : ℕ) : Prop :=
  (l.countP (· < v) : ℤ) < c ∧ c ≤ l.countP (· ≤ v)

instance (c : ℤ) (l : List ℕ) (v : ℕ) : Decidable (IsNth c l v) := by
  unfold IsNth
  infer_instance

theorem countP_lt_mono (l : List ℕ) {i j : ℕ} (h : i ≤ j) : l.countP (· < i) ≤ l.countP (· < j) :=
  List.countP_mono_left fun a _ ha => by simp only [decide_eq_true_eq] at ha ⊢; omega

theorem countP_le_eq (l : List ℕ) (v : ℕ) : l.countP (· ≤ v) = l.countP (· < v + 1) := by
  simp only [Nat.lt_succ_iff]

theorem isNth_iff {c : ℤ} {l : List ℕ} {v : ℕ} :
    IsNth c l v ↔ (l.countP (· < v) : ℤ) < c ∧ c ≤ l.countP (· < v + 1) := by
  rw [IsNth, countP_le_eq]

/-- There is only one. -/
theorem IsNth.unique {c : ℤ} {l : List ℕ} {v v' : ℕ} (h : IsNth c l v) (h' : IsNth c l v') : v = v' := by
  rw [isNth_iff] at h h'
  rcases lt_trichotomy v v' with hlt | heq | hgt
  · have := countP_lt_mono l (show v + 1 ≤ v' from hlt)
    omega
  · exact heq
  · have := countP_lt_mono l (show v' + 1 ≤ v from hgt)
    omega

theorem countP_lt_succ : ∀ (l : List ℕ) (i : ℕ), l.countP (· < i + 1) = l.countP (· < i) + l.count i
  | [], _ => rfl
  | a :: l, i => by
      rw [List.countP_cons, List.countP_cons, List.count_cons, countP_lt_succ l i]
      rcases lt_trichotomy a i with h | h | h
      · simp [h, h.ne, Nat.lt_succ_of_lt h]; omega
      · subst h; simp; omega
      · simp [h.ne', Nat.not_lt.mpr h.le, Nat.not_lt.mpr h]

theorem mem_of_isNth {c : ℤ} {l : List ℕ} {v : ℕ} (h : IsNth c l v) : v ∈ l := by
  rw [isNth_iff, countP_lt_succ] at h
  exact List.count_pos_iff.mp (by omega)

theorem countP_lt_of_all {l : List ℕ} {n : ℕ} (h : ∀ a ∈ l, a < n) : l.countP (· < n) = l.length :=
  List.countP_eq_length.mpr fun a ha => decide_eq_true (h a ha)

/-- Every rank up to the length is taken. -/
theorem exists_isNth {c : ℤ} {l : List ℕ} (h1 : 1 ≤ c) (h2 : c ≤ l.length) {n : ℕ} (hn : ∀ a ∈ l, a < n) :
    ∃ v, IsNth c l v := by
  have hex : ∃ i, c ≤ l.countP (· < i) := ⟨n, by rw [countP_lt_of_all hn]; exact h2⟩
  obtain ⟨v, hv⟩ : ∃ v, Nat.find hex = v + 1 := by
    refine Nat.exists_eq_succ_of_ne_zero fun h0 => ?_
    have := Nat.find_spec hex
    rw [h0] at this
    simp at this
    omega
  refine ⟨v, isNth_iff.mpr ⟨not_le.mp (Nat.find_min hex (by omega)), hv ▸ Nat.find_spec hex⟩⟩

/-! ### The search -/

/-- The sum of the counters below `i`. -/
def sumBelow (data : ℕ → ℕ) (i : ℕ) : ℕ := ((List.range i).map data).sum

/-- Add up counters until the sum reaches `cutoff` or `rem` of them are gone. -/
def scan (data : ℕ → ℕ) (cutoff : ℤ) : ℕ → ℕ → ℤ → ℕ
  | 0, i, _ => i
  | rem + 1, i, sum => if sum < cutoff then scan data cutoff rem (i + 1) (sum + data i) else i

theorem sumBelow_succ (data : ℕ → ℕ) (i : ℕ) : sumBelow data (i + 1) = sumBelow data i + data i := by
  rw [sumBelow, List.range_succ, List.map_append, List.sum_append, List.map_singleton, List.sum_singleton,
    sumBelow]

theorem sumBelow_mono (data : ℕ → ℕ) {i j : ℕ} (h : i ≤ j) : sumBelow data i ≤ sumBelow data j := by
  induction h with
  | refl => exact le_rfl
  | step _ ih => exact ih.trans (by rw [sumBelow_succ]; exact Nat.le_add_right _ _)

/-- Where the search stops: the sum was too small before, and is not now or there are no counters left. -/
theorem scan_spec (data : ℕ → ℕ) (cutoff : ℤ) : ∀ (rem i : ℕ),
    i ≤ scan data cutoff rem i (sumBelow data i) ∧ scan data cutoff rem i (sumBelow data i) ≤ i + rem ∧
    (∀ j, i ≤ j → j < scan data cutoff rem i (sumBelow data i) → (sumBelow data j : ℤ) < cutoff) ∧
    (scan data cutoff rem i (sumBelow data i) = i + rem ∨
      cutoff ≤ sumBelow data (scan data cutoff rem i (sumBelow data i)))
  | 0, i => ⟨le_rfl, le_rfl, fun j h1 h2 => absurd h2 (Nat.not_lt.mpr h1), .inl rfl⟩
  | rem + 1, i => by
      unfold scan
      split
      · rename_i hlt
        have hsum : (sumBelow data i : ℤ) + data i = (sumBelow data (i + 1) : ℕ) := by
          rw [sumBelow_succ, Nat.cast_add]
        rw [hsum]
        obtain ⟨h1, h2, h3, h4⟩ := scan_spec data cutoff rem (i + 1)
        refine ⟨by omega, by omega, fun j hij hj => ?_, h4.imp_left (by omega)⟩
        rcases Nat.eq_or_lt_of_le hij with rfl | hij
        · exact hlt
        · exact h3 j hij hj
      · rename_i hge
        exact ⟨le_rfl, by omega, fun j h1 h2 => absurd h2 (Nat.not_lt.mpr h1), .inr (not_lt.mp hge)⟩

/-- The search ends after the counter of `v` when the sums before it are too small, and the sum with it is not
    or it is the last. -/
theorem scan_eq {data : ℕ → ℕ} {c : ℤ} {len v : ℕ} (hv : v < len) (hlow : (sumBelow data v : ℤ) < c)
    (hhigh : v + 1 = len ∨ c ≤ sumBelow data (v + 1)) : scan data c len 0 0 = v + 1 := by
  have hspec := scan_spec data c len 0
  rw [show ((sumBelow data 0 : ℕ) : ℤ) = 0 from rfl, zero_add] at hspec
  obtain ⟨-, hr, hbefore, hafter⟩ := hspec
  generalize scan data c len 0 0 = r at *
  have h1 : ¬ r ≤ v := by
    intro hrv
    rcases hafter with h | h
    · omega
    · have := sumBelow_mono data hrv
      omega
  have h2 : ¬ v + 1 < r := by
    intro hrv
    rcases hhigh with h | h
    · omega
    · have := hbefore (v + 1) (Nat.zero_le _) hrv
      omega
  omega

/-- Counters modulo `m` do not add up to more than there is. -/
theorem sumBelow_le (m : ℕ) (l : List ℕ) : ∀ i,
    sumBelow (fun j => l.count j % m) i ≤ l.countP (· < i)
  | 0 => Nat.zero_le _
  | i + 1 => by
      rw [sumBelow_succ, countP_lt_succ]
      exact Nat.add_le_add (sumBelow_le m l i) (Nat.mod_le _ _)

/-- They add up to all there is when none of them wraps. -/
theorem sumBelow_eq {m : ℕ} {l : List ℕ} (h : l.length < m) : ∀ i,
    sumBelow (fun j => l.count j % m) i = l.countP (· < i)
  | 0 => (by simp [sumBelow] : _ = _)
  | i + 1 => by
      rw [sumBelow_succ, countP_lt_succ, sumBelow_eq h i,
        Nat.mod_eq_of_lt (lt_of_le_of_lt List.count_le_length h)]

/-- The search ends at the `c`-th smallest level if and only if that is the last one, or the counters up
    to it still reach `c` after what they have lost. -/
theorem isNth_scan_iff {m len : ℕ} {c : ℤ} {l : List ℕ} (hl : ∀ a ∈ l, a < len) (hc : 1 ≤ c) (hlen : 0 < len) :
    IsNth c l (scan (fun j => l.count j % m) c len 0 0 - 1) ↔
      ∃ v, IsNth c l v ∧ (v + 1 = len ∨ c ≤ sumBelow (fun j => l.count j % m) (v + 1)) := by
  constructor
  · intro h
    have hspec := scan_spec (fun j => l.count j % m) c len 0
    rw [show ((sumBelow (fun j => l.count j % m) 0 : ℕ) : ℤ) = 0 from rfl, zero_add] at hspec
    obtain ⟨-, -, -, hafter⟩ := hspec
    -- nothing is found before the first counter is added
    have hr0 : scan (fun j => l.count j % m) c len 0 0 ≠ 0 := by
      intro hr
      rw [hr, show sumBelow (fun j => l.count j % m) 0 = 0 from rfl] at hafter
      omega
    refine ⟨_, h, ?_⟩
    rwa [Nat.sub_add_cancel (Nat.pos_of_ne_zero hr0)]
  · rintro ⟨v, hv, hreach⟩
    have hlow := sumBelow_le m l v
    have hlt := (isNth_iff.mp hv).1
    rw [scan_eq (hl v (mem_of_isNth hv)) (by omega) hreach, Nat.add_sub_cancel]
    exact hv

/-! ### Modes -/

/-- A most frequent value of a list. -/
def IsMode (l : List ℕ) (v : ℕ) : Prop := ∀ i, l.count i ≤ l.count v

theorem IsMode.mem {l : List ℕ} {v : ℕ} (h : IsMode l v) (hl : l ≠ []) : v ∈ l := by
  obtain ⟨a, ha⟩ := List.exists_mem_of_ne_nil l hl
  exact List.count_pos_iff.mp (lt_of_lt_of_le (List.count_pos_iff.mpr ha) (h a))

end OpenMV.Schemes
