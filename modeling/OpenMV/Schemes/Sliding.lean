import Mathlib.Algebra.BigOperators.Group.Multiset.Basic
import Mathlib.Data.Multiset.MapFold
import Mathlib.Tactic.Linarith
import Mathlib.Tactic.Ring

/-! Values kept for a sliding window | scheme:sliding-window

    The window of a pixel is the square of side `2 * ksize + 1` around it, with the coordinates clamped to
    the picture. A `Slider` keeps a value for the window: it can build it from nothing, pixel by pixel, or
    move it one column on by exchanging the column that leaves for the one that enters. `Tracks` says that
    the value stands for a bag of pixels, with weaker relations while the value is being built and
    while a column is being exchanged; `cell_holds` is the rule for a step along a row. -/

namespace OpenMV.Schemes

variable {α β σ τ : Type*}

/-- `-ksize, …, ksize`. -/
def offsets (k : ℕ) : List ℤ := (List.range (2 * k + 1)).map fun (i : ℕ) => (i : ℤ) - k

def clamp (v n : ℤ) : ℤ := min (max v 0) (n - 1)

/-- One row of the window. -/
def windowRow (img : ℤ → ℤ → α) (w h : ℤ) (k : ℕ) (x y j : ℤ) : List α :=
  (offsets k).map fun i => img (clamp (x + i) w) (clamp (y + j) h)

/-- The window, in the order it is read. -/
def window (img : ℤ → ℤ → α) (w h : ℤ) (k : ℕ) (x y : ℤ) : List α :=
  (offsets k).flatMap (windowRow img w h k x y)

/-! ### Windows -/

@[simp] theorem length_offsets (k : ℕ) : (offsets k).length = 2 * k + 1 := by simp [offsets]

theorem mem_offsets {k : ℕ} {j : ℤ} : j ∈ offsets k ↔ -(k : ℤ) ≤ j ∧ j ≤ k := by
  simp only [offsets, List.mem_map, List.mem_range]
  constructor
  · rintro ⟨i, hi, rfl⟩
    omega
  · rintro ⟨h1, h2⟩
    exact ⟨(j + k).toNat, by omega, by omega⟩

theorem clamp_of_mem {v n : ℤ} (h1 : 0 ≤ v) (h2 : v < n) : clamp v n = v := by
  unfold clamp
  omega

theorem clamp_lt {v n : ℤ} (h : 0 < n) : 0 ≤ clamp v n ∧ clamp v n < n := by
  unfold clamp
  omega

theorem length_window (img : ℤ → ℤ → α) (w h : ℤ) (k : ℕ) (x y : ℤ) :
    (window img w h k x y).length = (2 * k + 1) ^ 2 := by
  have hrow : (offsets k).map (fun j => (windowRow img w h k x y j).length) =
      List.replicate (2 * k + 1) (2 * k + 1) := by
    simp [windowRow, offsets, Function.comp_def]
  rw [window, List.length_flatMap, hrow, List.sum_replicate_nat, sq]

theorem window_ne_nil (img : ℤ → ℤ → α) (w h : ℤ) (k : ℕ) (x y : ℤ) : window img w h k x y ≠ [] := by
  intro hnil
  have hlen := length_window img w h k x y
  rw [hnil, List.length_nil] at hlen
  exact absurd hlen.symm (pow_ne_zero 2 (Nat.succ_ne_zero _))

theorem window_map (f : α → β) (img : ℤ → ℤ → α) (w h : ℤ) (k : ℕ) (x y : ℤ) :
    window (fun c r => f (img c r)) w h k x y = (window img w h k x y).map f := by
  rw [window, window, List.map_flatMap]
  refine List.flatMap_congr fun j _ => ?_
  rw [windowRow, windowRow, List.map_map]
  rfl

theorem exists_of_mem_window {img : ℤ → ℤ → α} {w h : ℤ} {k : ℕ} {x y : ℤ} {a : α}
    (ha : a ∈ window img w h k x y) : ∃ c r, a = img c r := by
  obtain ⟨j, _, hj⟩ := List.mem_flatMap.mp ha
  obtain ⟨i, _, rfl⟩ := List.mem_map.mp hj
  exact ⟨_, _, rfl⟩

/-- The window of a picture with pixels has pixels of the picture only. -/
theorem exists_mem_of_mem_window {img : ℤ → ℤ → α} {w h : ℤ} {k : ℕ} {x y : ℤ} {a : α} (hw : 0 < w)
    (hh : 0 < h) (ha : a ∈ window img w h k x y) :
    ∃ c r, (0 ≤ c ∧ c < w) ∧ (0 ≤ r ∧ r < h) ∧ a = img c r := by
  obtain ⟨j, _, hj⟩ := List.mem_flatMap.mp ha
  obtain ⟨i, _, rfl⟩ := List.mem_map.mp hj
  exact ⟨_, _, clamp_lt hw, clamp_lt hh, rfl⟩

/-- The places of the window, before they are clamped. -/
def squareCells (k : ℕ) (x y : ℤ) : List (ℤ × ℤ) :=
  (offsets k).flatMap fun j => (offsets k).map fun i => (x + i, y + j)

theorem window_eq_map (img : ℤ → ℤ → α) (w h : ℤ) (k : ℕ) (x y : ℤ) :
    window img w h k x y = (squareCells k x y).map fun p => img (clamp p.1 w) (clamp p.2 h) := by
  rw [window, squareCells, List.map_flatMap]
  refine List.flatMap_congr fun j _ => ?_
  rw [windowRow, List.map_map]
  rfl

theorem mem_squareCells {k : ℕ} {x y c r : ℤ} :
    (c, r) ∈ squareCells k x y ↔ (x - k ≤ c ∧ c ≤ x + k) ∧ y - k ≤ r ∧ r ≤ y + k := by
  simp only [squareCells, List.mem_flatMap, List.mem_map, mem_offsets, Prod.mk.injEq]
  constructor
  · rintro ⟨j, hj, i, hi, rfl, rfl⟩
    omega
  · rintro ⟨hc, hr⟩
    exact ⟨r - y, by omega, c - x, by omega, by omega, by omega⟩

theorem nodup_offsets (k : ℕ) : (offsets k).Nodup :=
  List.nodup_range.map fun i j hij => by omega

theorem nodup_squareCells (k : ℕ) (x y : ℤ) : (squareCells k x y).Nodup := by
  refine List.nodup_flatMap.mpr ⟨fun j _ => (nodup_offsets k).map fun i i' hi => ?_, ?_⟩
  · have := congrArg Prod.fst hi
    omega
  · refine (nodup_offsets k).imp fun {j j'} hne => List.disjoint_left.mpr fun p hp hp' => hne ?_
    obtain ⟨i, -, rfl⟩ := List.mem_map.mp hp
    obtain ⟨i', -, hi'⟩ := List.mem_map.mp hp'
    have := congrArg Prod.snd hi'
    omega

/-- The window depends on the rows it looks at only. -/
theorem window_congr {img img' : ℤ → ℤ → α} {w h : ℤ} {k : ℕ} {x y : ℤ} (hyh : y < h)
    (himg : ∀ c r, y - k ≤ r → img c r = img' c r) :
    window img w h k x y = window img' w h k x y := by
  refine List.flatMap_congr fun j hj => List.map_congr_left fun i _ => himg _ _ ?_
  have := mem_offsets.mp hj
  unfold clamp
  omega

/-- Fold a step over the window; nothing is clamped where the window is inside the picture. -/
def scanWindow (w h : ℤ) (k : ℕ) (step : σ → α → σ) (init : σ) (img : ℤ → ℤ → α) (x y : ℤ) : σ :=
  if (k : ℤ) ≤ x ∧ x < w - k ∧ (k : ℤ) ≤ y ∧ y < h - k then
    (offsets k).foldl (fun s j => (offsets k).foldl (fun s i => step s (img (x + i) (y + j))) s) init
  else
    (offsets k).foldl (fun s j => (offsets k).foldl
      (fun s i => step s (img (clamp (x + i) w) (clamp (y + j) h))) s) init

theorem scanWindow_eq (w h : ℤ) (k : ℕ) (step : σ → α → σ) (init : σ) (img : ℤ → ℤ → α) (x y : ℤ) :
    scanWindow w h k step init img x y = (window img w h k x y).foldl step init := by
  have hclamped : (window img w h k x y).foldl step init = (offsets k).foldl (fun s j => (offsets k).foldl
      (fun s i => step s (img (clamp (x + i) w) (clamp (y + j) h))) s) init := by
    simp only [window, windowRow, List.foldl_flatMap, List.foldl_map]
  rw [hclamped]
  unfold scanWindow
  split
  · refine List.foldl_ext _ _ _ fun s j hj => List.foldl_ext _ _ _ fun s' i hi => ?_
    have := mem_offsets.mp hj
    have := mem_offsets.mp hi
    rw [clamp_of_mem (by omega) (by omega), clamp_of_mem (by omega) (by omega)]
  · rfl

/-- The pixels of a row that stay when the window moves on to column `x`. -/
def core (img : ℤ → ℤ → α) (w h : ℤ) (k : ℕ) (x y j : ℤ) : List α :=
  (List.range (2 * k)).map fun (i : ℕ) => img (clamp (x - k + i) w) (clamp (y + j) h)

theorem windowRow_before (img : ℤ → ℤ → α) (w h : ℤ) (k : ℕ) (x y j : ℤ) :
    windowRow img w h k (x - 1) y j =
      img (clamp (x - k - 1) w) (clamp (y + j) h) :: core img w h k x y j := by
  rw [windowRow, offsets, core, List.map_map, List.range_succ_eq_map, List.map_cons, List.map_map]
  simp only [Function.comp_def, Nat.cast_zero, Nat.cast_succ]
  congr 1
  · congr 2
    ring
  · refine List.map_congr_left fun i _ => ?_
    congr 2
    ring

theorem windowRow_after (img : ℤ → ℤ → α) (w h : ℤ) (k : ℕ) (x y j : ℤ) :
    windowRow img w h k x y j =
      core img w h k x y j ++ [img (clamp (x + k) w) (clamp (y + j) h)] := by
  rw [windowRow, offsets, core, List.map_map, List.range_succ, List.map_append, List.map_singleton]
  simp only [Function.comp_def, Nat.cast_mul, Nat.cast_ofNat]
  congr 1
  · refine List.map_congr_left fun i _ => ?_
    congr 2
    ring
  · congr 3
    ring

/-! ### Sliders -/

/-- A value for a window: cleared, grown by a pixel, a pixel exchanged for another, and settled when a whole
    column is exchanged. -/
structure Slider (α σ : Type*) where
  fresh : σ → σ
  add : σ → α → σ
  swap : σ → α → α → σ
  settle : σ → σ

namespace Slider

/-- Away from the borders, where the window before and the window now are both inside the picture. -/
def Inner (w h : ℤ) (k : ℕ) (x y : ℤ) : Prop := (k : ℤ) < x ∧ x < w - k ∧ (k : ℤ) ≤ y ∧ y < h - k

instance (w h : ℤ) (k : ℕ) (x y : ℤ) : Decidable (Inner w h k x y) := by
  unfold Inner
  infer_instance

variable (S : Slider α σ)

/-- One column leaves the window and one enters it. -/
def slide (k : ℕ) (img : ℤ → ℤ → α) (x y : ℤ) (s : σ) : σ :=
  S.settle ((offsets k).foldl
    (fun s j => S.swap s (img (x - k - 1) (y + j)) (img (x + k) (y + j))) s)

/-- The window pixel by pixel. -/
def fill (w h : ℤ) (k : ℕ) (img : ℤ → ℤ → α) (x y : ℤ) (s : σ) : σ :=
  (offsets k).foldl (fun s j => (offsets k).foldl
    (fun s i => S.add s (img (clamp (x + i) w) (clamp (y + j) h))) s) (S.fresh s)

def cell (w h : ℤ) (k : ℕ) (masked : Bool) (img : ℤ → ℤ → α) (x y : ℤ) (s : σ) : σ :=
  if masked = false ∧ Inner w h k x y then S.slide k img x y s else S.fill w h k img x y s

/-- Two values that are kept side by side. -/
def pair (S : Slider α σ) (T : Slider α τ) : Slider α (σ × τ) where
  fresh s := (S.fresh s.1, T.fresh s.2)
  add s a := (S.add s.1 a, T.add s.2 a)
  swap s a b := (S.swap s.1 a b, T.swap s.2 a b)
  settle s := (S.settle s.1, T.settle s.2)

/-- `Holds s m` is what is promised of the value for a window of `n` pixels. -/
structure Tracks (S : Slider α σ) (n : ℕ) (Built Moving Holds : σ → Multiset α → Prop) : Prop where
  fresh : ∀ s, Built (S.fresh s) 0
  add : ∀ {s m} a, Built s m → m.card < n → Built (S.add s a) (a ::ₘ m)
  built : ∀ {s m}, Built s m → m.card = n → Holds s m
  moving : ∀ {s m}, Holds s m → m.card = n → Moving s m
  swap : ∀ {s m a} b, Moving s (a ::ₘ m) → m.card + 1 = n → Moving (S.swap s a b) (b ::ₘ m)
  settle : ∀ {s m}, Moving s m → m.card = n → Holds (S.settle s) m

variable {S}

theorem Tracks.pair {T : Slider α τ} {n : ℕ} {B M H : σ → Multiset α → Prop}
    {B₂ M₂ H₂ : τ → Multiset α → Prop} (h : S.Tracks n B M H) (h₂ : T.Tracks n B₂ M₂ H₂) :
    (S.pair T).Tracks n (fun s m => B s.1 m ∧ B₂ s.2 m) (fun s m => M s.1 m ∧ M₂ s.2 m)
      (fun s m => H s.1 m ∧ H₂ s.2 m) where
  fresh s := ⟨h.fresh s.1, h₂.fresh s.2⟩
  add a hb hc := ⟨h.add a hb.1 hc, h₂.add a hb.2 hc⟩
  built hb hc := ⟨h.built hb.1 hc, h₂.built hb.2 hc⟩
  moving hh hc := ⟨h.moving hh.1 hc, h₂.moving hh.2 hc⟩
  swap b hm hc := ⟨h.swap b hm.1 hc, h₂.swap b hm.2 hc⟩
  settle hm hc := ⟨h.settle hm.1 hc, h₂.settle hm.2 hc⟩

/-- A value that is a function of the bag is tracked when its steps are those of the function. -/
theorem tracks_of_eq (n : ℕ) (val : Multiset α → σ) (hfresh : ∀ s, S.fresh s = val 0)
    (hadd : ∀ m a, S.add (val m) a = val (a ::ₘ m))
    (hswap : ∀ m a b, S.swap (val (a ::ₘ m)) a b = val (b ::ₘ m)) (hsettle : ∀ s, S.settle s = s) :
    S.Tracks n (fun s m => s = val m) (fun s m => s = val m) (fun s m => s = val m) where
  fresh := hfresh
  add a hb _ := by rw [hb, hadd]
  built hb _ := hb
  moving hh _ := hh
  swap b hm _ := by rw [hm, hswap]
  settle hm _ := by rw [hsettle, hm]

/-- Two values that are functions of the bag. -/
theorem Tracks.pair_eq {T : Slider α τ} {n : ℕ} {f : Multiset α → σ} {g : Multiset α → τ}
    (h : S.Tracks n (fun s m => s = f m) (fun s m => s = f m) (fun s m => s = f m))
    (h₂ : T.Tracks n (fun s m => s = g m) (fun s m => s = g m) (fun s m => s = g m)) :
    (S.pair T).Tracks n (fun s m => s = (f m, g m)) (fun s m => s = (f m, g m))
      (fun s m => s = (f m, g m)) := by
  have hp := h.pair h₂
  simp only [← Prod.ext_iff (y := (f _, g _))] at hp
  exact hp

section Rule

variable {n : ℕ} {Built Moving Holds : σ → Multiset α → Prop}

theorem Tracks.foldl_add (T : S.Tracks n Built Moving Holds) : ∀ (l : List α) {s : σ} {m : Multiset α},
    Built s m → m.card + l.length ≤ n → Built (l.foldl S.add s) (m + l)
  | [], s, m, hb, _ => by simpa using hb
  | a :: l, s, m, hb, hc => by
      rw [List.length_cons] at hc
      have hstep := T.foldl_add l (T.add a hb (by omega)) (by rw [Multiset.card_cons]; omega)
      rwa [Multiset.cons_add, ← Multiset.add_cons, Multiset.cons_coe] at hstep

theorem fill_eq (w h : ℤ) (k : ℕ) (img : ℤ → ℤ → α) (x y : ℤ) (s : σ) :
    S.fill w h k img x y s = (window img w h k x y).foldl S.add (S.fresh s) := by
  simp only [fill, window, windowRow, List.foldl_flatMap, List.foldl_map]

theorem slide_congr {k : ℕ} {img img' : ℤ → ℤ → α} {y : ℤ} (himg : ∀ c r, y - k ≤ r → img c r = img' c r)
    (x : ℤ) (s : σ) : S.slide k img x y s = S.slide k img' x y s := by
  refine congrArg S.settle (List.foldl_ext _ _ _ fun t j hj => ?_)
  have := mem_offsets.mp hj
  rw [himg _ _ (by omega), himg _ _ (by omega)]

/-- Two sliders that agree on the pixels of a picture make the same steps there. -/
theorem cell_congr {T : Slider α σ} {w h : ℤ} {k : ℕ} {masked : Bool} {img : ℤ → ℤ → α} {x y : ℤ}
    (P : α → Prop) (hw : 0 < w) (hyh : y < h)
    (himg : ∀ c r, 0 ≤ c → c < w → y - k ≤ r → 0 ≤ r → r < h → P (img c r))
    (hfresh : ∀ s, S.fresh s = T.fresh s) (hadd : ∀ s a, P a → S.add s a = T.add s a)
    (hswap : ∀ s a b, P a → P b → S.swap s a b = T.swap s a b) (hsettle : ∀ s, S.settle s = T.settle s)
    (s : σ) (hy0 : 0 ≤ y) : S.cell w h k masked img x y s = T.cell w h k masked img x y s := by
  unfold cell
  split
  · rename_i hin
    obtain ⟨hx1, hx2, hy1, hy2⟩ := hin.2
    unfold slide
    rw [hsettle]
    refine congrArg T.settle (List.foldl_ext _ _ _ fun t j hj => ?_)
    have := mem_offsets.mp hj
    exact hswap t _ _ (himg _ _ (by omega) (by omega) (by omega) (by omega) (by omega))
      (himg _ _ (by omega) (by omega) (by omega) (by omega) (by omega))
  · unfold Slider.fill
    rw [hfresh]
    refine List.foldl_ext _ _ _ fun t j hj => List.foldl_ext _ _ _ fun t' i _ => ?_
    have := mem_offsets.mp hj
    have hc := clamp_lt (v := x + i) hw
    have hr := clamp_lt (v := y + j) (show 0 < h by omega)
    exact hadd t' _ (himg _ _ hc.1 hc.2 (by unfold clamp; omega) hr.1 hr.2)

theorem Tracks.fill (T : S.Tracks n Built Moving Holds) {w h : ℤ} {k : ℕ} (hn : (2 * k + 1) ^ 2 = n)
    (img : ℤ → ℤ → α) (x y : ℤ) (s : σ) :
    Holds (S.fill w h k img x y s) (window img w h k x y) := by
  have hlen := length_window img w h k x y
  rw [fill_eq]
  have hb := T.foldl_add (window img w h k x y) (T.fresh s) (by rw [Multiset.card_zero]; omega)
  rw [zero_add] at hb
  exact T.built hb (by rw [Multiset.coe_card]; omega)

/-- Row by row the pixel that leaves is exchanged for the one that enters. -/
theorem Tracks.foldl_swap (T : S.Tracks n Built Moving Holds) (old new : ℤ → α) (mid : ℤ → Multiset α) :
    ∀ (js : List ℤ) {s : σ} {m : Multiset α},
    Moving s (m + (js.map fun j => old j ::ₘ mid j).sum) →
    (m + (js.map fun j => old j ::ₘ mid j).sum).card = n →
    Moving (js.foldl (fun s j => S.swap s (old j) (new j)) s) (m + (js.map fun j => new j ::ₘ mid j).sum)
  | [], s, m, hm, _ => hm
  | j :: js, s, m, hm, hc => by
      rw [List.map_cons, List.sum_cons] at hm hc ⊢
      have hold : m + (old j ::ₘ mid j + (js.map fun j => old j ::ₘ mid j).sum) =
          old j ::ₘ (m + mid j + (js.map fun j => old j ::ₘ mid j).sum) := by
        simp only [Multiset.cons_add, Multiset.add_cons, add_assoc]
      have hnew : ∀ r, m + (new j ::ₘ mid j + r) = (new j ::ₘ (m + mid j)) + r := fun r => by
        simp only [Multiset.cons_add, Multiset.add_cons, add_assoc]
      rw [hold] at hm hc
      rw [Multiset.card_cons] at hc
      rw [List.foldl_cons, hnew]
      refine T.foldl_swap old new mid js ?_ ?_
      · rw [Multiset.cons_add]
        exact T.swap (new j) hm hc
      · rw [Multiset.cons_add, Multiset.card_cons, hc]

theorem coe_flatMap_eq_sum (f : ℤ → List α) : ∀ js : List ℤ,
    ((js.flatMap f : List α) : Multiset α) = (js.map fun j => (f j : Multiset α)).sum
  | [] => rfl
  | j :: js => by
      rw [List.flatMap_cons, ← Multiset.coe_add, coe_flatMap_eq_sum f js, List.map_cons, List.sum_cons]

/-- When the columns are exchanged, but the value is not settled yet. -/
theorem Tracks.slide_moving (T : S.Tracks n Built Moving Holds) {w h : ℤ} {k : ℕ}
    (hn : (2 * k + 1) ^ 2 = n) {img : ℤ → ℤ → α} {x y : ℤ} {s : σ} (hin : Inner w h k x y)
    (hs : Holds s (window img w h k (x - 1) y)) :
    Moving ((offsets k).foldl (fun s j => S.swap s (img (x - k - 1) (y + j)) (img (x + k) (y + j))) s)
      (window img w h k x y) := by
  obtain ⟨hx1, hx2, hy1, hy2⟩ := hin
  -- inside the picture nothing is clamped
  have hswap : (offsets k).foldl
      (fun s j => S.swap s (img (x - k - 1) (y + j)) (img (x + k) (y + j))) s =
      (offsets k).foldl (fun s j => S.swap s (img (clamp (x - k - 1) w) (clamp (y + j) h))
        (img (clamp (x + k) w) (clamp (y + j) h))) s := by
    refine List.foldl_ext _ _ _ fun t j hj => ?_
    have := mem_offsets.mp hj
    rw [clamp_of_mem (by omega) (by omega), clamp_of_mem (by omega) (by omega),
      clamp_of_mem (by omega) (by omega)]
  have hbefore : (window img w h k (x - 1) y : Multiset α) = 0 + ((offsets k).map fun j =>
      img (clamp (x - k - 1) w) (clamp (y + j) h) ::ₘ (core img w h k x y j : Multiset α)).sum := by
    rw [zero_add, window, coe_flatMap_eq_sum]
    simp only [windowRow_before, Multiset.cons_coe]
  have hafter : (window img w h k x y : Multiset α) = 0 + ((offsets k).map fun j =>
      img (clamp (x + k) w) (clamp (y + j) h) ::ₘ (core img w h k x y j : Multiset α)).sum := by
    rw [zero_add, window, coe_flatMap_eq_sum]
    refine congrArg List.sum (List.map_congr_left fun j _ => ?_)
    rw [windowRow_after, ← Multiset.coe_add, Multiset.coe_singleton, ← Multiset.singleton_add, add_comm]
  have hc : (window img w h k (x - 1) y : Multiset α).card = n := by
    rw [Multiset.coe_card, length_window, hn]
  have hm := T.moving hs hc
  rw [hbefore] at hm hc
  rw [hswap, hafter]
  exact T.foldl_swap (fun j => img (clamp (x - k - 1) w) (clamp (y + j) h))
    (fun j => img (clamp (x + k) w) (clamp (y + j) h)) (fun j => core img w h k x y j) (offsets k) hm hc

theorem Tracks.slide (T : S.Tracks n Built Moving Holds) {w h : ℤ} {k : ℕ} (hn : (2 * k + 1) ^ 2 = n)
    {img : ℤ → ℤ → α} {x y : ℤ} {s : σ} (hin : Inner w h k x y)
    (hs : Holds s (window img w h k (x - 1) y)) :
    Holds (S.slide k img x y s) (window img w h k x y) :=
  T.settle (T.slide_moving hn hin hs) (by rw [Multiset.coe_card, length_window, hn])

/-- A step along a row: the value stands for the window of the original picture, when the rows the window
    looks at are still the original ones and, without a mask, the value stood for the window before. -/
theorem Tracks.cell_holds (T : S.Tracks n Built Moving Holds) {w h : ℤ} {k : ℕ}
    (hn : (2 * k + 1) ^ 2 = n) {masked : Bool} {orig img : ℤ → ℤ → α} {x y : ℤ} {s : σ} (hyh : y < h)
    (himg : ∀ c r, y - k ≤ r → img c r = orig c r)
    (hs : masked = false → 0 < x → Holds s (window orig w h k (x - 1) y)) :
    Holds (S.cell w h k masked img x y s) (window orig w h k x y) := by
  rw [← window_congr hyh himg]
  unfold cell
  split
  · rename_i hin
    refine T.slide hn hin.2 ?_
    rw [window_congr hyh himg]
    exact hs hin.1 (by have := hin.2.1; omega)
  · exact T.fill hn img x y s

end Rule

end Slider

end OpenMV.Schemes
