import OpenMV.Filters.Kernel

/-! Mode filter | scheme:sliding-window | source:src/src/openmv/omv/img/filter.c

    `imlib_mode_filter` keeps the histogram of the window and beside it the most frequent value with its count.
    When a pixel of the mode leaves, the mode stays as long as it has at least half of the window, and is
    else marked for a search at the end of the column, by a count of 256.

    `ModeState` is such a tracker. While at most one half of the window is not of the mode, no other value can be
    more frequent, so the grayscale filter is right in every column. The RGB565 filter runs three
    trackers, and the blue one takes its count from the red histogram after a search. -/

namespace OpenMV.Filters
open Schemes Vision Io

/-! ### The filter -/

/-- The four counters of a word of the histogram; a word of zeros is passed over. -/
def findModeWord (bins : ℕ → ℕ) (best : ℕ × ℕ) (word : ℕ) : ℕ × ℕ :=
  let i := 4 * word
  if bins i = 0 ∧ bins (i + 1) = 0 ∧ bins (i + 2) = 0 ∧ bins (i + 3) = 0 then best
  else [i, i + 1, i + 2, i + 3].foldl (fun best j => if bins j > best.2 then (j, bins j) else best) best

def findMode (bins : ℕ → ℕ) (len : ℕ) : ℕ :=
  ((List.range ((len + 3) / 4)).foldl (findModeWord bins) (0, 0)).1

/-- `bins`, `mode` and `mcount`. -/
structure ModeState where
  bins : ℕ → ℕ
  mode : ℕ
  mcount : ℤ

namespace ModeState

def enter (s : ModeState) (pixel : ℕ) : ModeState :=
  let bins := incr 256 s.bins pixel
  if (bins pixel : ℤ) > s.mcount then ⟨bins, pixel, bins pixel⟩ else { s with bins := bins }

def leave (n2 : ℕ) (s : ModeState) (pixel : ℕ) : ModeState :=
  let bins := decr 256 s.bins pixel
  if pixel = s.mode then
    -- need to search later, or we're still the mode
    { s with bins := bins, mcount := if bins pixel < n2 then 256 else bins pixel }
  else { s with bins := bins }

def search (len : ℕ) (s : ModeState) : ModeState :=
  if s.mcount = 256 then
    let mode := findMode s.bins len
    { s with mode := mode, mcount := s.bins mode }
  else s

end ModeState

/-- A tracker of the levels `bin`; `low` is the count it begins a window with. -/
def modeSlider (n2 len : ℕ) (low : ℤ) (bin : ℕ → ℕ) : Slider ℕ ModeState where
  fresh s := { s with bins := fun _ => 0, mcount := low }
  add s u := s.enter (bin u)
  swap s u v := (s.leave n2 (bin u)).enter (bin v)
  settle s := s.search len

/-- `const uint8_t n2`. -/
def modeN2 (ksize : ℕ) : ℕ := (Int.tdiv (kernelN ksize) 2 % 256).toNat

def modeBinary (img : Image) (ksize : ℕ) (t : Threshold) (mask : Option Image) : RowFilter ℕ ℤ :=
  sliding .binary img ksize mask (sumSlider (getPixel .binary)) (fun bins => bins) fun bins orig =>
    thresholdBinary t (if bins > modeN2 ksize then 1 else 0) orig

def modeGrayscale (img : Image) (ksize : ℕ) (t : Threshold) (mask : Option Image) : RowFilter ℕ ModeState :=
  sliding .grayscale img ksize mask (modeSlider (modeN2 ksize) 256 (-1) fun u => (getPixel .grayscale u).toNat)
    (fun s => { s with mode := 0, mcount := -1 }) fun s orig => thresholdGrayscale t s.mode orig

abbrev ModeRgb := ModeState × ModeState × ModeState

/-- Three trackers side by side. After a search the blue count comes from `r_bins`. -/
def modeRgbSlider (ksize : ℕ) : Slider ℕ ModeRgb :=
  let r := modeSlider (modeN2 ksize) 32 0 fun u => (redOf u).toNat
  let g := modeSlider (modeN2 ksize) 64 0 fun u => (greenOf u).toNat
  let b := modeSlider (modeN2 ksize) 32 0 fun u => (blueOf u).toNat
  { r.pair (g.pair b) with
    settle := fun s =>
      let r := s.1.search 32
      let g := s.2.1.search 64
      let b := s.2.2
      if b.mcount = 256 then
        let mode := findMode b.bins 32
        (r, g, { b with mode := mode, mcount := r.bins mode })
      else (r, g, b) }

/-- The trackers over tables that hold anything. -/
def modeRgbStart (bins : ℕ → ℕ → ℕ) : ModeRgb := (⟨bins 0, 0, 0⟩, ⟨bins 1, 0, 0⟩, ⟨bins 2, 0, 0⟩)

/-- The threshold is not looked at. -/
def modeRgb565 (img : Image) (ksize : ℕ) (mask : Option Image) : RowFilter ℕ ModeRgb :=
  sliding .rgb565 img ksize mask (modeRgbSlider ksize)
    (fun s => ({ s.1 with mode := 0, mcount := 0 }, { s.2.1 with mode := 0, mcount := 0 },
      { s.2.2 with mode := 0, mcount := 0 }))
    fun s _ => colorR5G6B5ToRgb565 s.1.mode s.2.1.mode s.2.2.mode

/-- `buf` and `bins` are what the line buffer and the tables hold when the filter gets them. -/
def imlibModeFilter (buf : ℤ → ℤ → ℕ) (bins : ℕ → ℕ → ℕ) (img : Image) (ksize : ℕ) (t : Threshold)
    (mask : Option Image) : Image :=
  match img.bpp with
  | .binary => filtered img (modeBinary img ksize t mask) buf 0
  | .grayscale => filtered img (modeGrayscale img ksize t mask) buf ⟨bins 0, 0, -1⟩
  | .rgb565 => filtered img (modeRgb565 img ksize mask) buf (modeRgbStart bins)
  | .bayer | .jpeg => img

/-! ### The search -/

/-- The best counter so far is at least as large as all that were looked at. -/
structure BestOf (bins : ℕ → ℕ) (i : ℕ) (best : ℕ × ℕ) : Prop where
  le : best.2 ≤ bins best.1
  all : ∀ j < i, bins j ≤ best.2

theorem BestOf.next {bins : ℕ → ℕ} {i : ℕ} {best : ℕ × ℕ} (h : BestOf bins i best) :
    BestOf bins (i + 1) (if bins i > best.2 then (i, bins i) else best) := by
  split
  · rename_i hgt
    refine ⟨le_rfl, fun j hj => ?_⟩
    rcases Nat.lt_succ_iff_lt_or_eq.mp hj with hlt | rfl
    · exact (h.all j hlt).trans hgt.le
    · exact le_rfl
  · rename_i hle
    refine ⟨h.le, fun j hj => ?_⟩
    rcases Nat.lt_succ_iff_lt_or_eq.mp hj with hlt | rfl
    · exact h.all j hlt
    · exact not_lt.mp hle

theorem BestOf.word {bins : ℕ → ℕ} {w : ℕ} {best : ℕ × ℕ} (h : BestOf bins (4 * w) best) :
    BestOf bins (4 * (w + 1)) (findModeWord bins best w) := by
  unfold findModeWord
  dsimp only
  split
  · rename_i hzero
    obtain ⟨h0, h1, h2, h3⟩ := hzero
    refine ⟨h.le, fun j hj => ?_⟩
    rcases Nat.lt_or_ge j (4 * w) with hlt | hge
    · exact h.all j hlt
    · obtain rfl | rfl | rfl | rfl : j = 4 * w ∨ j = 4 * w + 1 ∨ j = 4 * w + 2 ∨ j = 4 * w + 3 := by omega
      all_goals omega
  · exact h.next.next.next.next

theorem bestOf_words (bins : ℕ → ℕ) : ∀ w,
    BestOf bins (4 * w) ((List.range w).foldl (findModeWord bins) (0, 0))
  | 0 => ⟨Nat.zero_le _, fun j hj => absurd hj (Nat.not_lt_zero j)⟩
  | w + 1 => by
      rw [List.range_succ, List.foldl_append, List.foldl_cons, List.foldl_nil]
      exact (bestOf_words bins w).word

/-- No counter is larger than the one that is found. -/
theorem le_findMode {bins : ℕ → ℕ} {len : ℕ} (hlen : ∀ i, len ≤ i → bins i = 0) (i : ℕ) :
    bins i ≤ bins (findMode bins len) := by
  have hbest := bestOf_words bins ((len + 3) / 4)
  rcases Nat.lt_or_ge i len with hlt | hge
  · exact (hbest.all i (by omega)).trans hbest.le
  · rw [hlen i hge]
    exact Nat.zero_le _

/-! ### A tracker -/

namespace ModeState

/-- The mode is a most frequent value, and its count is known. -/
structure Top (s : ModeState) : Prop where
  count : s.mcount = s.bins s.mode
  max : ∀ i, s.bins i ≤ s.bins s.mode

/-- The same while a column is exchanged, unless a search is due. -/
def Due (s : ModeState) : Prop := s.mcount = 256 ∨ s.Top

@[simp] theorem enter_bins (s : ModeState) (p : ℕ) : (s.enter p).bins = incr 256 s.bins p := by
  unfold enter
  dsimp only
  split <;> rfl

@[simp] theorem leave_bins (n2 : ℕ) (s : ModeState) (p : ℕ) : (s.leave n2 p).bins = decr 256 s.bins p := by
  unfold leave
  dsimp only
  split <;> rfl

@[simp] theorem search_bins (len : ℕ) (s : ModeState) : (s.search len).bins = s.bins := by
  unfold search
  split <;> rfl

theorem incr_self {f : ℕ → ℕ} {p : ℕ} (h : f p < 255) : incr 256 f p p = f p + 1 := by
  rw [incr, Function.update_self, Nat.mod_eq_of_lt (by omega)]

theorem incr_of_ne (f : ℕ → ℕ) {p i : ℕ} (h : i ≠ p) : incr 256 f p i = f i := Function.update_of_ne h _ _

theorem decr_of_ne (f : ℕ → ℕ) {p i : ℕ} (h : i ≠ p) : decr 256 f p i = f i := Function.update_of_ne h _ _

theorem decr_self_lt {f : ℕ → ℕ} {p : ℕ} (h : 0 < f p) : decr 256 f p p < f p := by
  rw [decr, Function.update_self]
  omega

/-- A value that enters becomes the mode when it has overtaken it. -/
theorem Top.enter {s : ModeState} (h : s.Top) {p : ℕ} (hp : s.bins p < 255) : (s.enter p).Top := by
  have hself := incr_self hp
  unfold ModeState.enter
  dsimp only
  split
  · rename_i hgt
    refine ⟨rfl, fun i => ?_⟩
    dsimp only
    rcases eq_or_ne i p with rfl | hi
    · exact le_rfl
    · rw [incr_of_ne _ hi]
      have h1 := h.count
      have h2 := h.max i
      omega
  · rename_i hle
    have hne : s.mode ≠ p := by
      rintro rfl
      have := h.count
      omega
    refine ⟨?_, fun i => ?_⟩
    · dsimp only
      rw [incr_of_ne _ hne, h.count]
    · dsimp only
      rw [incr_of_ne _ hne]
      rcases eq_or_ne i p with rfl | hi
      · have := h.count
        omega
      · rw [incr_of_ne _ hi]
        exact h.max i

theorem enter_of_due {s : ModeState} (h : s.Due) {p : ℕ} (hp : s.bins p < 255) : (s.enter p).Due := by
  rcases h with h | h
  · left
    unfold enter
    dsimp only
    rw [if_neg (by rw [incr_self hp, h]; omega)]
    exact h
  · exact .inr (h.enter hp)

/-- The first value of a window is its mode. -/
theorem enter_first {s : ModeState} (hbins : ∀ i, s.bins i = 0) (hcount : s.mcount ≤ 0) (p : ℕ) :
    (s.enter p).Top := by
  have hself : incr 256 s.bins p p = 1 := by rw [incr_self (by rw [hbins]; norm_num), hbins]
  unfold enter
  dsimp only
  rw [if_pos (by rw [hself]; omega)]
  refine ⟨rfl, fun i => ?_⟩
  dsimp only
  rcases eq_or_ne i p with rfl | hi
  · exact le_rfl
  · rw [incr_of_ne _ hi, hbins]
    exact Nat.zero_le _

/-- A value that leaves makes a search due, or the mode still has half of what is left. -/
theorem leave_of_due {n2 : ℕ} {s : ModeState} (h : s.Due) {p : ℕ} (hp : 0 < s.bins p)
    (hhalf : ∀ i, i ≠ p → decr 256 s.bins p i + decr 256 s.bins p p ≤ 2 * n2) : (s.leave n2 p).Due := by
  unfold leave
  dsimp only
  split
  · rename_i hmode
    subst hmode
    by_cases hlt : decr 256 s.bins s.mode s.mode < n2
    · exact .inl (if_pos hlt)
    · refine .inr ⟨if_neg hlt, fun i => ?_⟩
      dsimp only
      rcases eq_or_ne i s.mode with rfl | hi
      · exact le_rfl
      · have := hhalf i hi
        omega
  · rename_i hmode
    rcases h with h | h
    · exact .inl h
    · refine .inr ⟨?_, fun i => ?_⟩
      · dsimp only
        rw [decr_of_ne _ (Ne.symm hmode), h.count]
      · dsimp only
        rw [decr_of_ne _ (Ne.symm hmode)]
        rcases eq_or_ne i p with rfl | hi
        · exact (decr_self_lt hp).le.trans (h.max i)
        · rw [decr_of_ne _ hi]
          exact h.max i

theorem search_of_due {len : ℕ} {s : ModeState} (h : s.Due) (hlen : ∀ i, len ≤ i → s.bins i = 0) :
    (s.search len).Top := by
  unfold search
  split
  · exact ⟨rfl, le_findMode hlen⟩
  · rename_i hne
    exact h.resolve_left hne

end ModeState

/-- A tracker knows the histogram of its window and a most frequent value, for windows of an odd number of
    pixels that an eight-bit counter can hold. -/
theorem modeSlider_tracks {n n2 len : ℕ} {low : ℤ} {bin : ℕ → ℕ} (hn : n ≤ 255) (hn2 : n = 2 * n2 + 1)
    (hlow : low ≤ 0) (hbin : ∀ u, bin u < len) :
    (modeSlider n2 len low bin).Tracks n
      (fun s m => s.bins = tally 256 bin m ∧ (m = 0 → s.mcount = low) ∧ (m ≠ 0 → s.Top))
      (fun s m => s.bins = tally 256 bin m ∧ s.Due) (fun s m => s.bins = tally 256 bin m ∧ s.Top) where
  fresh s := ⟨funext fun i => (Nat.zero_mod 256).symm, fun _ => rfl, fun h => absurd rfl h⟩
  add := by
    rintro s m u ⟨hbins, hzero, htop⟩ hcard
    refine ⟨?_, fun h => absurd h (Multiset.cons_ne_zero), fun _ => ?_⟩
    · change (s.enter (bin u)).bins = _
      rw [ModeState.enter_bins, hbins, incr_tally]
    · rcases eq_or_ne m 0 with rfl | hm
      · refine ModeState.enter_first (fun i => ?_) (by rw [hzero rfl]; exact hlow) (bin u)
        rw [hbins]
        exact Nat.zero_mod 256
      · refine (htop hm).enter ?_
        rw [hbins]
        exact lt_of_le_of_lt (tally_le_card _ _ _ _) (by omega)
  built := by
    rintro s m ⟨hbins, -, htop⟩ hcard
    refine ⟨hbins, htop ?_⟩
    rintro rfl
    rw [Multiset.card_zero] at hcard
    omega
  moving := fun ⟨hbins, htop⟩ _ => ⟨hbins, .inr htop⟩
  swap := by
    rintro s m u v ⟨hbins, hdue⟩ hcard
    have hleft : decr 256 s.bins (bin u) = tally 256 bin m := by rw [hbins, decr_tally (by norm_num)]
    have hpos : 0 < s.bins (bin u) := by
      rw [hbins, tally_eq bin (by rw [Multiset.card_cons]; omega), Multiset.map_cons,
        Multiset.count_cons_self]
      exact Nat.succ_pos _
    have hdue' : (s.leave n2 (bin u)).Due := by
      refine ModeState.leave_of_due hdue hpos fun i hi => ?_
      rw [hleft, tally_eq bin (by omega), tally_eq bin (by omega)]
      have hle := count_add_count_le (m.map bin) hi
      rw [Multiset.card_map] at hle
      omega
    refine ⟨?_, ModeState.enter_of_due hdue' ?_⟩
    · change ((s.leave n2 (bin u)).enter (bin v)).bins = _
      rw [ModeState.enter_bins, ModeState.leave_bins, hleft, incr_tally]
    · rw [ModeState.leave_bins, hleft]
      exact lt_of_le_of_lt (tally_le_card _ _ _ _) (by omega)
  settle := by
    rintro s m ⟨hbins, hdue⟩ hcard
    refine ⟨?_, ModeState.search_of_due hdue fun i hi => ?_⟩
    · change (s.search len).bins = _
      rw [ModeState.search_bins, hbins]
    · rw [hbins, tally_eq_zero 256 hbin m hi]

/-! ### Grayscale images -/

theorem modeN2_eq {ksize : ℕ} (hn : (2 * ksize + 1) ^ 2 ≤ 255) : (2 * ksize + 1) ^ 2 = 2 * modeN2 ksize + 1 := by
  have hodd : (2 * ksize + 1) ^ 2 = 2 * (2 * ksize ^ 2 + 2 * ksize) + 1 := by ring
  unfold modeN2
  rw [kernelN_eq (by omega), hodd, Int.tdiv_eq_ediv_of_nonneg (Int.natCast_nonneg _)]
  omega

/-- A histogram of the storage units with a largest counter is one of the levels. -/
theorem count_of_tally {img : Image} {bpp : Bpp} (hb : img.bpp = bpp) {ksize : ℕ}
    (hn : (2 * ksize + 1) ^ 2 ≤ 255) {x y : ℤ} {level : ℤ → ℕ} {bins : ℕ → ℕ}
    (hbins : bins = tally 256 (fun u => level (getPixel bpp u)) (window img.data img.w img.h ksize x y)) :
    ∀ i, bins i = (windowLevels level img ksize x y).count i := by
  intro i
  rw [hbins, tally_window hb 256 ksize x y level]
  refine Nat.mod_eq_of_lt (lt_of_le_of_lt List.count_le_length ?_)
  rw [length_windowLevels]
  omega

theorem isMode_of_count {l : List ℕ} {bins : ℕ → ℕ} {v : ℕ} (hcount : ∀ i, bins i = l.count i)
    (hmax : ∀ i, bins i ≤ bins v) : IsMode l v := fun i => by
  rw [← hcount, ← hcount]
  exact hmax i

/-- A mode is a level of the window. -/
theorem isMode_lt {level : ℤ → ℕ} {img : Image} {ksize : ℕ} {x y : ℤ} {v len : ℕ}
    (hlev : ∀ i j, level (img.pixel i j) < len) (h : IsMode (windowLevels level img ksize x y) v) : v < len :=
  lt_of_mem_windowLevels hlev v (h.mem (windowLevels_ne_nil _ _ _ _ _))

/-- Every pixel is a most frequent value of the window of the original image, and the tracker ends every column
    with the histogram of the window and a largest counter. -/
theorem mode_filter_grayscale (buf : ℤ → ℤ → ℕ) (bins : ℕ → ℕ → ℕ) (img : Image) (hb : img.bpp = .grayscale)
    (ksize : ℕ) (hn : (2 * ksize + 1) ^ 2 ≤ 255) (offset : ℤ) (invert : Bool) (x y : ℤ)
    (hm : img.Mem (x, y)) :
    let t : Threshold := ⟨false, offset, invert⟩
    let l := windowLevels Int.toNat img ksize x y
    let s := keptAt img (modeGrayscale img ksize t none) buf ⟨bins 0, 0, -1⟩ x y
    let out := (imlibModeFilter buf bins img ksize t none).pixel x y
    out = s.mode ∧ IsMode l s.mode ∧ (∀ i, s.bins i = l.count i) ∧ ∀ i, s.bins i ≤ s.bins s.mode := by
  intro t l s out
  obtain ⟨hbins, htop⟩ : s.bins = tally 256 (fun u => (getPixel .grayscale u).toNat)
      (window img.data img.w img.h ksize x y) ∧ s.Top :=
    sliding_holds (modeSlider_tracks hn (modeN2_eq hn) (by norm_num) fun u => by
      have := getPixel_mem .grayscale u
      simp only [levels] at this
      omega) hm rfl
  have hcount : ∀ i, s.bins i = l.count i := count_of_tally hb hn hbins
  have hmode : IsMode l s.mode := isMode_of_count hcount htop.max
  refine ⟨?_, hmode, hcount, htop.max⟩
  -- the mode is a pixel of the window, so it is stored as it is
  have hlt : s.mode < 256 := by
    refine isMode_lt (fun i j => ?_) hmode
    have := pixel_mem img i j
    simp only [hb, levels] at this
    omega
  have hout : out = getPixel .grayscale (putPixel .grayscale s.mode) := by
    simp only [out, imlibModeFilter, hb]
    exact filtered_pixel_of_not hb hm rfl
  rw [hout]
  exact getPixel_putPixel_of_mem (Int.natCast_nonneg _) (by simp only [levels]; omega)

theorem mode_filter_of_three_pixels :
    let img : Image := ⟨3, 1, .grayscale, fun x _ => if x = 1 then 9 else 7⟩
    let t : Threshold := ⟨false, 0, false⟩
    (imlibModeFilter (fun _ _ => 0) (fun _ _ => 0) img 0 t none).pixel 2 0 =
      (keptAt img (modeGrayscale img 0 t none) (fun _ _ => 0) ⟨fun _ => 0, 0, -1⟩ 2 0).mode :=
  (mode_filter_grayscale (fun _ _ => 0) (fun _ _ => 0) ⟨3, 1, .grayscale, fun x _ => if x = 1 then 9 else 7⟩ rfl 0
    (by decide) 0 false 2 0 ⟨by decide, by decide, by decide, by decide⟩).1

/-! ### RGB565 images -/

theorem red_bin_lt (u : ℕ) : (redOf u).toNat < 32 := by
  have := red_mem (getPixel .rgb565 u)
  unfold redOf
  omega

theorem green_bin_lt (u : ℕ) : (greenOf u).toNat < 64 := by
  have := green_mem (getPixel .rgb565 u)
  unfold greenOf
  omega

theorem blue_bin_lt (u : ℕ) : (blueOf u).toNat < 32 := by
  have := blue_mem (getPixel .rgb565 u)
  unfold blueOf
  omega

/-- The blue tracker alone. -/
def blueSlider (ksize : ℕ) : Slider ℕ ModeState := modeSlider (modeN2 ksize) 32 0 fun u => (blueOf u).toNat

theorem blueSlider_tracks {ksize : ℕ} (hn : (2 * ksize + 1) ^ 2 ≤ 255) :
    ∃ B, (blueSlider ksize).Tracks ((2 * ksize + 1) ^ 2) B
      (fun s m => s.bins = tally 256 (fun u => (blueOf u).toNat) m ∧ s.Due)
      (fun s m => s.bins = tally 256 (fun u => (blueOf u).toNat) m ∧ s.Top) :=
  ⟨_, modeSlider_tracks hn (modeN2_eq hn) le_rfl blue_bin_lt⟩

/-- Whatever a tracker takes for the mode, it knows the histogram. -/
theorem modeSlider_tracks_bins (n n2 len : ℕ) (low : ℤ) (bin : ℕ → ℕ) :
    (modeSlider n2 len low bin).Tracks n (fun s m => s.bins = tally 256 bin m)
      (fun s m => s.bins = tally 256 bin m) (fun s m => s.bins = tally 256 bin m) where
  fresh s := funext fun i => (Nat.zero_mod 256).symm
  add := by
    rintro s m u hbins -
    change (s.enter (bin u)).bins = _
    rw [ModeState.enter_bins, hbins, incr_tally]
  built h _ := h
  moving h _ := h
  swap := by
    rintro s m u v hbins -
    change ((s.leave n2 (bin u)).enter (bin v)).bins = _
    rw [ModeState.enter_bins, ModeState.leave_bins, hbins, decr_tally (by norm_num), incr_tally]
  settle := by
    rintro s m hbins -
    change (s.search len).bins = _
    rw [ModeState.search_bins, hbins]

/-- The red and the green tracker are right, and so is the blue histogram. -/
def RedGreen (s : ModeRgb) (m : Multiset ℕ) : Prop :=
  (s.1.bins = tally 256 (fun u => (redOf u).toNat) m ∧ s.1.Top) ∧
  (s.2.1.bins = tally 256 (fun u => (greenOf u).toNat) m ∧ s.2.1.Top) ∧
  s.2.2.bins = tally 256 (fun u => (blueOf u).toNat) m

theorem modeRgbSlider_tracks {ksize : ℕ} (hn : (2 * ksize + 1) ^ 2 ≤ 255) :
    ∃ B M, (modeRgbSlider ksize).Tracks ((2 * ksize + 1) ^ 2) B M RedGreen := by
  have hr := modeSlider_tracks hn (modeN2_eq hn) le_rfl red_bin_lt
  have hg := modeSlider_tracks hn (modeN2_eq hn) le_rfl green_bin_lt
  have hb := modeSlider_tracks_bins ((2 * ksize + 1) ^ 2) (modeN2 ksize) 32 0 fun u => (blueOf u).toNat
  have h := hr.pair (hg.pair hb)
  refine ⟨_, _, ⟨h.fresh, h.add, h.built, h.moving, h.swap, ?_⟩⟩
  intro s m hm hcard
  obtain ⟨h1, h2, h3⟩ := h.settle hm hcard
  refine ⟨?_, ?_, ?_⟩
  all_goals
    simp only [modeRgbSlider]
    split
  · exact h1
  · exact h1
  · exact h2
  · exact h2
  · exact hm.2.2
  · exact hm.2.2

theorem swap_blue (ksize : ℕ) (old new : ℤ → ℕ) (js : List ℤ) (s : ModeRgb) :
    (js.foldl (fun s j => (modeRgbSlider ksize).swap s (old j) (new j)) s).2.2 =
      js.foldl (fun s j => (blueSlider ksize).swap s (old j) (new j)) s.2.2 :=
  (List.foldl_hom (fun s : ModeRgb => s.2.2) fun _ _ => rfl).symm

theorem fill_blue (ksize : ℕ) (w h : ℤ) (img : ℤ → ℤ → ℕ) (x y : ℤ) (s : ModeRgb) :
    ((modeRgbSlider ksize).fill w h ksize img x y s).2.2 = (blueSlider ksize).fill w h ksize img x y s.2.2 := by
  rw [Slider.fill_eq, Slider.fill_eq]
  exact (List.foldl_hom (fun s : ModeRgb => s.2.2) fun _ _ => rfl).symm

section Blue

variable (img : Image) (ksize : ℕ)

/-- The exchange of a column by the blue tracker alone. -/
def blueColumn (x y : ℤ) (s : ModeState) : ModeState :=
  (offsets ksize).foldl (fun s j => (blueSlider ksize).swap s (img.data (x - ksize - 1) (y + j))
    (img.data (x + ksize) (y + j))) s

/-- The blue values of a row as a tracker of their own follows them, which is what the red and the green ones
    have. -/
def blueTracker (y : ℤ) : ℕ → ModeState
  | 0 => (blueSlider ksize).cell img.w img.h ksize false img.data 0 y ⟨fun _ => 0, 0, 0⟩
  | x + 1 => (blueSlider ksize).cell img.w img.h ksize false img.data (x + 1 : ℕ) y (blueTracker y x)

def redLevels (x y : ℤ) : List ℕ := windowLevels (fun p => (colorRgb565ToR5 p).toNat) img ksize x y

def blueLevels (x y : ℤ) : List ℕ := windowLevels (fun p => (colorRgb565ToB5 p).toNat) img ksize x y

/-- The first of the most frequent blue values of the window. -/
def blueMode (x y : ℤ) : ℕ := findMode (fun i => (blueLevels img ksize x y).count i) 32

/-- Where a search for the blue mode is due when a column is exchanged, and the column after it is exchanged too,
    the value that is found occurs in the red of the window as often as in the blue. -/
def BlueSearchesAgree : Prop :=
  ∀ (x : ℕ) (y : ℤ), Slider.Inner img.w img.h ksize (x + 1 : ℕ) y → Slider.Inner img.w img.h ksize (x + 2 : ℕ) y →
    (blueColumn img ksize (x + 1 : ℕ) y (blueTracker img ksize y x)).mcount = 256 →
    (redLevels img ksize (x + 1 : ℕ) y).count (blueMode img ksize (x + 1 : ℕ) y) =
      (blueLevels img ksize (x + 1 : ℕ) y).count (blueMode img ksize (x + 1 : ℕ) y)

variable {img ksize}

/-- The tracker is right in every column. -/
theorem blueTracker_holds (hn : (2 * ksize + 1) ^ 2 ≤ 255) {y : ℤ} (hy : y < img.h) : ∀ x,
    (blueTracker img ksize y x).bins = tally 256 (fun u => (blueOf u).toNat) (window img.data img.w img.h ksize x y) ∧
    (blueTracker img ksize y x).Top := by
  obtain ⟨_, T⟩ := blueSlider_tracks hn
  intro x
  induction x with
  | zero => exact T.cell_holds rfl hy (fun _ _ _ => rfl) fun _ h => absurd h (lt_irrefl 0)
  | succ x ih =>
    refine T.cell_holds rfl hy (fun _ _ _ => rfl) fun _ _ => ?_
    rw [show ((x + 1 : ℕ) : ℤ) - 1 = x by omega]
    exact ih

theorem blueTracker_fill {x : ℕ} {y : ℤ} (hout : ¬ Slider.Inner img.w img.h ksize x y) :
    ∃ s, blueTracker img ksize y x = (blueSlider ksize).fill img.w img.h ksize img.data x y s := by
  cases x with
  | zero =>
    rw [blueTracker, Slider.cell, if_neg fun h => hout h.2]
    exact ⟨_, rfl⟩
  | succ x =>
    rw [blueTracker, Slider.cell, if_neg fun h => hout h.2]
    exact ⟨_, rfl⟩

/-- A window that is filled does not depend on what was kept before. -/
theorem fill_blue_eq {w h : ℤ} {data data' : ℤ → ℤ → ℕ} {x y : ℤ}
    (hwindow : window data w h ksize x y = window data' w h ksize x y) (s s' : ModeState) :
    (blueSlider ksize).fill w h ksize data x y s = (blueSlider ksize).fill w h ksize data' x y s' := by
  rw [Slider.fill_eq, Slider.fill_eq, hwindow]
  cases hcons : window data' w h ksize x y with
  | nil =>
    have hlen := length_window data' w h ksize x y
    rw [hcons, List.length_nil] at hlen
    exact absurd hlen.symm (pow_ne_zero 2 (Nat.succ_ne_zero _))
  | cons u us =>
    rw [List.foldl_cons, List.foldl_cons]
    congr 1
    simp [blueSlider, modeSlider, ModeState.enter, incr]

/-- The filter's blue tracker does what the tracker alone does, up to a count that is not looked at again. -/
structure Follows (img : Image) (ksize : ℕ) (x : ℕ) (y : ℤ) (s : ModeState) : Prop where
  bins : s.bins = (blueTracker img ksize y x).bins
  mode : s.mode = (blueTracker img ksize y x).mode
  count : Slider.Inner img.w img.h ksize (x + 1 : ℕ) y → s.mcount = (blueTracker img ksize y x).mcount

theorem follows_of_eq {x : ℕ} {y : ℤ} {s : ModeState} (h : s = blueTracker img ksize y x) :
    Follows img ksize x y s := by
  subst h
  exact ⟨rfl, rfl, fun _ => rfl⟩

theorem Follows.eq {x : ℕ} {y : ℤ} {s : ModeState} (h : Follows img ksize x y s)
    (hin : Slider.Inner img.w img.h ksize (x + 1 : ℕ) y) : s = blueTracker img ksize y x := by
  have hcount := h.count hin
  obtain ⟨hbins, hmode, -⟩ := h
  generalize blueTracker img ksize y x = t at *
  obtain ⟨bins, mode, mcount⟩ := s
  obtain ⟨bins', mode', mcount'⟩ := t
  dsimp only at hbins hmode hcount
  rw [hbins, hmode, hcount]

variable (ksize) in
/-- The search ends at the same value. Its count is right when the red histogram has the same. -/
theorem settle_blue (s : ModeRgb) :
    ((modeRgbSlider ksize).settle s).2.2.bins = (s.2.2.search 32).bins ∧
    ((modeRgbSlider ksize).settle s).2.2.mode = (s.2.2.search 32).mode ∧
    ((s.2.2.mcount = 256 → s.1.bins (findMode s.2.2.bins 32) = s.2.2.bins (findMode s.2.2.bins 32)) →
      ((modeRgbSlider ksize).settle s).2.2.mcount = (s.2.2.search 32).mcount) := by
  unfold ModeState.search
  simp only [modeRgbSlider]
  by_cases hdue : s.2.2.mcount = 256
  · simp only [hdue, if_true, true_and, ModeState.search_bins]
    intro h
    rw [h trivial]
  · simp [hdue]

/-- A column that is exchanged. -/
theorem Follows.slide (hb : img.bpp = .rgb565) (hn : (2 * ksize + 1) ^ 2 ≤ 255) (hagree : BlueSearchesAgree img ksize)
    {x : ℕ} {y : ℤ} (hin : Slider.Inner img.w img.h ksize (x + 1 : ℕ) y) {s : ModeRgb}
    (hs : Follows img ksize x y s.2.2)
    (hred : ((modeRgbSlider ksize).slide ksize img.data (x + 1 : ℕ) y s).1.bins =
      tally 256 (fun u => (redOf u).toNat) (window img.data img.w img.h ksize (x + 1 : ℕ) y)) :
    Follows img ksize (x + 1) y ((modeRgbSlider ksize).slide ksize img.data (x + 1 : ℕ) y s).2.2 := by
  have hcolumn := swap_blue ksize (fun j => img.data ((x + 1 : ℕ) - ksize - 1) (y + j))
    (fun j => img.data ((x + 1 : ℕ) + ksize) (y + j)) (offsets ksize) s
  rw [hs.eq hin] at hcolumn
  change _ = blueColumn img ksize (x + 1 : ℕ) y (blueTracker img ksize y x) at hcolumn
  have hnext : blueTracker img ksize y (x + 1) =
      (blueColumn img ksize (x + 1 : ℕ) y (blueTracker img ksize y x)).search 32 := by
    rw [blueTracker, Slider.cell, if_pos ⟨rfl, hin⟩]
    rfl
  have hy : y < img.h := by
    have := hin.2.2.2
    omega
  have hblue := (blueTracker_holds hn hy (x + 1)).1
  rw [hnext, ModeState.search_bins] at hblue
  have hbcount : ∀ i, (blueColumn img ksize (x + 1 : ℕ) y (blueTracker img ksize y x)).bins i =
      (blueLevels img ksize (x + 1 : ℕ) y).count i :=
    @count_of_tally img _ hb ksize hn _ _ (fun p => (colorRgb565ToB5 p).toNat) _ hblue
  unfold Slider.slide at hred ⊢
  generalize (offsets ksize).foldl (fun s j => (modeRgbSlider ksize).swap s
    (img.data ((x + 1 : ℕ) - ksize - 1) (y + j)) (img.data ((x + 1 : ℕ) + ksize) (y + j))) s = m at hred hcolumn ⊢
  have hrbins : m.1.bins = ((modeRgbSlider ksize).settle m).1.bins := by
    simp only [modeRgbSlider]
    split <;> simp
  have hrcount : ∀ i, m.1.bins i = (redLevels img ksize (x + 1 : ℕ) y).count i :=
    @count_of_tally img _ hb ksize hn _ _ (fun p => (colorRgb565ToR5 p).toNat) _ (hrbins.trans hred)
  obtain ⟨h1, h2, h3⟩ := settle_blue ksize m
  rw [hcolumn] at h1 h2 h3
  rw [← hnext] at h1 h2 h3
  refine ⟨h1, h2, fun hnin => h3 fun hdue => ?_⟩
  have hmode : findMode (blueColumn img ksize (x + 1 : ℕ) y (blueTracker img ksize y x)).bins 32 =
      blueMode img ksize (x + 1 : ℕ) y := congrArg (findMode · 32) (funext hbcount)
  rw [hmode, hrcount, hbcount]
  exact hagree x y hin hnin hdue

theorem follows_keptAt (hb : img.bpp = .rgb565) (hn : (2 * ksize + 1) ^ 2 ≤ 255)
    (hagree : BlueSearchesAgree img ksize) (buf : ℤ → ℤ → ℕ) (acc : ModeRgb) {y : ℤ} (hy0 : 0 ≤ y)
    (hy : y < img.h) : ∀ x : ℕ, (x : ℤ) < img.w →
    Follows img ksize x y (keptAt img (modeRgb565 img ksize none) buf acc x y).2.2 := by
  -- a window that is filled is the same for both
  have hfill : ∀ {img' : ℤ → ℤ → ℕ} {x : ℕ}, (∀ c r, y - ksize ≤ r → img' c r = img.data c r) →
      ¬ Slider.Inner img.w img.h ksize x y → ∀ s : ModeRgb,
      Follows img ksize x y ((modeRgbSlider ksize).fill img.w img.h ksize img' x y s).2.2 := by
    intro img' x himg hout s
    obtain ⟨s', hs'⟩ := blueTracker_fill hout
    refine follows_of_eq ?_
    rw [fill_blue, hs']
    exact fill_blue_eq (window_congr hy himg) _ _
  obtain ⟨_, _, T⟩ := modeRgbSlider_tracks hn
  intro x
  induction x with
  | zero =>
    intro hx
    obtain ⟨img', s, himg, -, hcell⟩ : ∃ img' s, _ ∧ _ ∧
        keptAt img (modeRgb565 img ksize none) buf acc (0 : ℕ) y = _ := keptAt_sliding ⟨le_rfl, hx, hy0, hy⟩
    have hout : ¬ Slider.Inner img.w img.h ksize (0 : ℕ) y := fun h => by have := h.1; omega
    rw [hcell, Slider.cell, if_neg fun h => hout h.2]
    exact hfill himg hout s
  | succ x ih =>
    intro hx
    have hm : img.Mem ((x + 1 : ℕ), y) := ⟨Int.natCast_nonneg _, hx, hy0, hy⟩
    have hkept : RedGreen (keptAt img (modeRgb565 img ksize none) buf acc (x + 1 : ℕ) y)
        (window img.data img.w img.h ksize (x + 1 : ℕ) y) := sliding_holds T hm rfl
    obtain ⟨img', s, himg, hs, hcell⟩ : ∃ img' s, _ ∧ (_ → s = _) ∧
        keptAt img (modeRgb565 img ksize none) buf acc (x + 1 : ℕ) y = _ := keptAt_sliding hm
    rw [hcell, Slider.cell] at hkept ⊢
    by_cases hin : Slider.Inner img.w img.h ksize (x + 1 : ℕ) y
    · rw [if_pos ⟨rfl, hin⟩, Slider.slide_congr himg] at hkept ⊢
      refine Follows.slide hb hn hagree hin ?_ hkept.1.1
      rw [hs (by omega), show ((x + 1 : ℕ) : ℤ) - 1 = x by omega]
      exact ih (by omega)
    · rw [if_neg fun h => hin h.2]
      exact hfill himg hin s

end Blue

/-- Without a threshold, and when every search for the blue mode ends at a value that both histograms count
    alike, each channel of each pixel is a most frequent value of that channel in the window of the original
    image. -/
theorem mode_filter_rgb565 (buf : ℤ → ℤ → ℕ) (bins : ℕ → ℕ → ℕ) (img : Image) (hb : img.bpp = .rgb565)
    (ksize : ℕ) (hn : (2 * ksize + 1) ^ 2 ≤ 255) (offset : ℤ) (invert : Bool)
    (hagree : BlueSearchesAgree img ksize) (x y : ℤ) (hm : img.Mem (x, y)) :
    let out := (imlibModeFilter buf bins img ksize ⟨false, offset, invert⟩ none).pixel x y
    IsMode (windowLevels (fun p => (colorRgb565ToR5 p).toNat) img ksize x y) (colorRgb565ToR5 out).toNat ∧
    IsMode (windowLevels (fun p => (colorRgb565ToG6 p).toNat) img ksize x y) (colorRgb565ToG6 out).toNat ∧
    IsMode (windowLevels (fun p => (colorRgb565ToB5 p).toNat) img ksize x y) (colorRgb565ToB5 out).toNat := by
  intro out
  obtain ⟨_, _, T⟩ := modeRgbSlider_tracks hn
  have hs : RedGreen (keptAt img (modeRgb565 img ksize none) buf (modeRgbStart bins) x y)
      (window img.data img.w img.h ksize x y) := sliding_holds T hm rfl
  have hfollows := follows_keptAt hb hn hagree buf (modeRgbStart bins) hm.2.2.1 hm.2.2.2 x.toNat
    (by have := hm.1; have := hm.2.1; omega)
  have hy : y < img.h := hm.2.2.2
  obtain ⟨hbbins, htop⟩ := blueTracker_holds hn hy x.toNat
  rw [Int.toNat_of_nonneg hm.1] at hfollows hbbins
  have hout : out = getPixel .rgb565 (putPixel .rgb565 (colorR5G6B5ToRgb565
      (keptAt img (modeRgb565 img ksize none) buf (modeRgbStart bins) x y).1.mode
      (keptAt img (modeRgb565 img ksize none) buf (modeRgbStart bins) x y).2.1.mode
      (keptAt img (modeRgb565 img ksize none) buf (modeRgbStart bins) x y).2.2.mode)) := by
    simp only [out, imlibModeFilter, hb]
    exact filtered_pixel_of_not hb hm rfl
  generalize keptAt img (modeRgb565 img ksize none) buf (modeRgbStart bins) x y = s at *
  obtain ⟨⟨hrb, hrt⟩, ⟨hgb, hgt⟩, -⟩ := hs
  rw [← hfollows.bins] at hbbins
  have hbmax := htop.max
  rw [← hfollows.bins, ← hfollows.mode] at hbmax
  have hr : IsMode (windowLevels (fun p => (colorRgb565ToR5 p).toNat) img ksize x y) s.1.mode :=
    isMode_of_count (count_of_tally hb hn hrb) hrt.max
  have hg : IsMode (windowLevels (fun p => (colorRgb565ToG6 p).toNat) img ksize x y) s.2.1.mode :=
    isMode_of_count (count_of_tally hb hn hgb) hgt.max
  have hbl : IsMode (windowLevels (fun p => (colorRgb565ToB5 p).toNat) img ksize x y) s.2.2.mode :=
    isMode_of_count (count_of_tally hb hn hbbins) hbmax
  have hr32 : s.1.mode < 32 := isMode_lt (fun i j => by have := red_mem (img.pixel i j); omega) hr
  have hg64 : s.2.1.mode < 64 :=
    isMode_lt (fun i j => by have := green_mem (img.pixel i j); omega) hg
  have hb32 : s.2.2.mode < 32 := isMode_lt (fun i j => by have := blue_mem (img.pixel i j); omega) hbl
  have hlt := colorR5G6B5ToRgb565_lt s.1.mode s.2.1.mode s.2.2.mode
  rw [hout, getPixel_putPixel_rgb565 hlt, colorR5G6B5ToRgb565_of_mem (by omega) (by omega) (by omega),
    red_of_parts (by omega) (by omega) (by omega), green_of_parts (by omega) (by omega),
    blue_of_parts (by omega)]
  exact ⟨hr, hg, hbl⟩

/-- Three shades of violet: red and blue are the same everywhere. -/
def violet : Image :=
  let shade : List (List ℕ) := [[0, 1, 1, 0, 2], [1, 1, 0, 0, 1], [2, 0, 0, 0, 1]]
  ⟨5, 3, .rgb565, fun x y => let v := (shade.getD y.toNat []).getD x.toNat 0; v * 2048 + v⟩

/-- A search for the blue mode is due at column 2, and at column 3 the mode is right. -/
theorem mode_filter_of_violet :
    (blueColumn violet 1 2 1 (blueTracker violet 1 1 1)).mcount = 256 ∧
    IsMode (windowLevels (fun p => (colorRgb565ToB5 p).toNat) violet 1 3 1)
      (colorRgb565ToB5 ((imlibModeFilter (fun _ _ => 0) (fun _ _ => 0) violet 1 ⟨false, 0, false⟩ none).pixel
        3 1)).toNat := by
  have hagree : BlueSearchesAgree violet 1 := by
    intro x y h h'
    obtain ⟨rfl, rfl⟩ : x = 1 ∧ y = 1 := by
      have hsize : violet.w = 5 ∧ violet.h = 3 := ⟨rfl, rfl⟩
      rw [hsize.1, hsize.2] at h h'
      obtain ⟨h1, h2, h3, h4⟩ := h
      obtain ⟨h5, h6, -, -⟩ := h'
      omega
    decide
  refine ⟨by decide, ?_⟩
  exact (mode_filter_rgb565 (fun _ _ => 0) (fun _ _ => 0) violet rfl 1 (by decide) 0 false hagree 3 1
    ⟨by decide, by decide, by decide, by decide⟩).2.2

/-- A red image with three shades of blue: the search at column 2 finds the shade 0 and takes its count from the
    red histogram, where it is 0; at column 3 the shade 1 is then taken for more frequent. And a threshold
    changes nothing. -/
theorem mode_filter_mixes_channels :
    let blue : List (List ℕ) := [[0, 1, 1, 0, 2], [1, 1, 0, 0, 1], [2, 0, 0, 0, 1]]
    let img : Image := ⟨5, 3, .rgb565, fun x y => 31 * 2048 + (blue.getD y.toNat []).getD x.toNat 0⟩
    let l := windowLevels (fun p => (colorRgb565ToB5 p).toNat) img 1 3 1
    let out := (imlibModeFilter (fun _ _ => 0) (fun _ _ => 0) img 1 ⟨false, 0, false⟩ none).pixel 3 1
    (colorRgb565ToB5 out = 1 ∧ l.count 1 = 3 ∧ l.count 0 = 5) ∧
    (imlibModeFilter (fun _ _ => 0) (fun _ _ => 0) ⟨1, 1, .rgb565, fun _ _ => 0x1234⟩ 0 ⟨true, 0, false⟩
      none).pixel 0 0 = 0x1234 := by
  decide +kernel

end OpenMV.Filters
