import Mathlib.Data.Rat.Floor
import Mathlib.Data.Real.Basic
import Mathlib.Tactic.FieldSimp
import Mathlib.Tactic.Linarith

/-! Clipping a line | scheme:fold | source:src/src/openmv/omv/img/imlib.c

    A point of a line is given by a parameter from 0 to 1, and each edge of the rectangle leaves the parameters on
    one side of a bound. What the four edges leave is an interval, whose ends are the parameters of the new end
    points. An end that was moved lies on an edge, so only one of its coordinates is rounded. -/

namespace OpenMV.Draw

/-! ### The code -/

structure Line where
  x1 : Int16
  y1 : Int16
  x2 : Int16
  y2 : Int16
deriving DecidableEq, Repr

/-- The conversion of a `float` to an `int`. -/
def truncate (u : ℚ) : ℤ := if 0 ≤ u then ⌊u⌋ else ⌈u⌉

def xdelta (l : Line) : ℤ := l.x2.toInt - l.x1.toInt
def ydelta (l : Line) : ℤ := l.y2.toInt - l.y1.toInt

/-- The `p[i]` and `q[i]`. The arithmetic of `int` is exact: an overflow is undefined. -/
def clipEdges (l : Line) (x y w h : ℤ) : List (ℤ × ℤ) :=
  [(-xdelta l, l.x1.toInt - x), (xdelta l, (x + w - 1) - l.x1.toInt),
    (-ydelta l, l.y1.toInt - y), (ydelta l, (y + h - 1) - l.y1.toInt)]

/-- A round of the loop, with `umin` and `umax`. -/
def clipEdge (s : ℚ × ℚ) (e : ℤ × ℤ) : Option (ℚ × ℚ) :=
  let u : ℚ := e.2 / e.1
  if e.1 < 0 then -- outside to inside
    if u > s.2 then none else some (if u > s.1 then u else s.1, s.2)
  else if e.1 > 0 then -- inside to outside
    if u < s.1 then none else some (s.1, if u < s.2 then u else s.2)
  else if e.2 < 0 then none else some s

/-- What is returned, and the line. -/
def lbClipLine (l : Line) (x y w h : ℤ) : Bool × Line :=
  match (clipEdges l x y w h).foldlM clipEdge (0, 1) with
  | none => (false, l)
  | some (umin, umax) =>
    if umax < umin then (false, l)
    else (true, {
      x1 := Int16.ofInt (truncate (l.x1.toInt + xdelta l * umin))
      y1 := Int16.ofInt (truncate (l.y1.toInt + ydelta l * umin))
      x2 := Int16.ofInt (truncate (l.x1.toInt + xdelta l * umax))
      y2 := Int16.ofInt (truncate (l.y1.toInt + ydelta l * umax)) })

/-! ### The interval -/

/-- The parameters that the edges leave. -/
def Feasible (es : List (ℤ × ℤ)) (u : ℝ) : Prop := (0 ≤ u ∧ u ≤ 1) ∧ ∀ e ∈ es, u * e.1 ≤ e.2

/-- The end `t` is where it was, or on an edge. -/
def Moved (es : List (ℤ × ℤ)) (d t : ℚ) : Prop := t = d ∨ ∃ e ∈ es, t * e.1 = e.2

/-- The edges leave the interval from `s.1` to `s.2`. -/
structure Clipped (es : List (ℤ × ℤ)) (s : ℚ × ℚ) : Prop where
  le : s.1 ≤ s.2
  feasible : ∀ u : ℝ, Feasible es u ↔ (s.1 : ℝ) ≤ u ∧ u ≤ s.2
  start : Moved es 0 s.1
  stop : Moved es 1 s.2

theorem feasible_append {es : List (ℤ × ℤ)} {e : ℤ × ℤ} {u : ℝ} :
    Feasible (es ++ [e]) u ↔ Feasible es u ∧ u * e.1 ≤ e.2 := by
  simp only [Feasible, List.mem_append, List.mem_singleton]
  constructor
  · rintro ⟨hu, h⟩
    exact ⟨⟨hu, fun e' he' => h e' (Or.inl he')⟩, h e (Or.inr rfl)⟩
  · rintro ⟨⟨hu, h⟩, he⟩
    refine ⟨hu, ?_⟩
    rintro e' (he' | rfl)
    · exact h e' he'
    · exact he

theorem clipped_nil : Clipped [] (0, 1) where
  le := zero_le_one
  feasible := fun u => by simp [Feasible]
  start := Or.inl rfl
  stop := Or.inl rfl

/-- An entering edge is a lower bound, -/
theorem entering_iff {e : ℤ × ℤ} (h : e.1 < 0) (u : ℝ) : u * e.1 ≤ e.2 ↔ (((e.2 / e.1 : ℚ) : ℚ) : ℝ) ≤ u := by
  have hp : (e.1 : ℝ) < 0 := by exact_mod_cast h
  push_cast
  rw [div_le_iff_of_neg hp]

/-- and a leaving one an upper bound. -/
theorem leaving_iff {e : ℤ × ℤ} (h : 0 < e.1) (u : ℝ) : u * e.1 ≤ e.2 ↔ u ≤ (((e.2 / e.1 : ℚ) : ℚ) : ℝ) := by
  have hp : (0 : ℝ) < e.1 := by exact_mod_cast h
  push_cast
  rw [le_div_iff₀ hp]

theorem Moved.append {es : List (ℤ × ℤ)} {d t : ℚ} (h : Moved es d t) (e : ℤ × ℤ) : Moved (es ++ [e]) d t := by
  rcases h with h | ⟨e', he', heq⟩
  · exact Or.inl h
  · exact Or.inr ⟨e', List.mem_append_left _ he', heq⟩

theorem moved_quotient {e : ℤ × ℤ} (h : e.1 ≠ 0) (es : List (ℤ × ℤ)) (d : ℚ) :
    Moved (es ++ [e]) d (e.2 / e.1) :=
  Or.inr ⟨e, List.mem_append_right _ List.mem_cons_self, div_mul_cancel₀ _ (by exact_mod_cast h)⟩

/-- A round either leaves the interval of one more edge, or nothing is left. -/
theorem clipEdge_spec {es : List (ℤ × ℤ)} {s : ℚ × ℚ} (hs : Clipped es s) (e : ℤ × ℤ) :
    (clipEdge s e = none ∧ ∀ u, ¬ Feasible (es ++ [e]) u) ∨ ∃ s', clipEdge s e = some s' ∧ Clipped (es ++ [e]) s' := by
  have hfeasible : ∀ u, Feasible (es ++ [e]) u ↔ ((s.1 : ℝ) ≤ u ∧ u ≤ s.2) ∧ u * e.1 ≤ e.2 := fun u => by
    rw [feasible_append, hs.feasible]
  rcases lt_trichotomy e.1 0 with hp | hp | hp
  · -- entering
    have hu : ∀ u : ℝ, u * e.1 ≤ e.2 ↔ ((e.2 / e.1 : ℚ) : ℝ) ≤ u := entering_iff hp
    simp only [clipEdge, if_pos hp]
    generalize hq : (e.2 / e.1 : ℚ) = q at hu
    by_cases hlate : q > s.2
    · refine Or.inl ⟨if_pos hlate, fun u h => ?_⟩
      obtain ⟨⟨-, hle⟩, hge⟩ := (hfeasible u).mp h
      exact absurd ((hu u).mp hge) (not_le.mpr (hle.trans_lt (by exact_mod_cast hlate)))
    · rw [if_neg hlate]
      refine Or.inr ⟨_, rfl, ?_, fun u => ?_, ?_, hs.stop.append e⟩
      · split_ifs
        · exact not_lt.mp hlate
        · exact hs.le
      · rw [hfeasible, hu]
        split_ifs with hlow
        · have hlow' : (s.1 : ℝ) < q := by exact_mod_cast hlow
          exact ⟨fun h => ⟨h.2, h.1.2⟩, fun h => ⟨⟨hlow'.le.trans h.1, h.2⟩, h.1⟩⟩
        · have hlow' : (q : ℝ) ≤ s.1 := by exact_mod_cast not_lt.mp hlow
          exact ⟨fun h => h.1, fun h => ⟨h, hlow'.trans h.1⟩⟩
      · split_ifs
        · rw [← hq]
          exact moved_quotient hp.ne es 0
        · exact hs.start.append e
  · -- parallel
    have hzero : ∀ u : ℝ, u * e.1 ≤ e.2 ↔ 0 ≤ e.2 := fun u => by
      rw [hp, Int.cast_zero, mul_zero]
      exact_mod_cast Iff.rfl
    simp only [clipEdge, if_neg hp.not_lt, if_neg hp.not_gt]
    by_cases hq : e.2 < 0
    · refine Or.inl ⟨if_pos hq, fun u h => ?_⟩
      exact absurd ((hzero u).mp ((hfeasible u).mp h).2) (not_le.mpr hq)
    · rw [if_neg hq]
      refine Or.inr ⟨_, rfl, hs.le, fun u => ?_, hs.start.append e, hs.stop.append e⟩
      rw [hfeasible, hzero]
      exact and_iff_left (not_lt.mp hq)
  · -- leaving
    have hu : ∀ u : ℝ, u * e.1 ≤ e.2 ↔ u ≤ ((e.2 / e.1 : ℚ) : ℝ) := leaving_iff hp
    simp only [clipEdge, if_neg hp.not_gt, if_pos hp]
    generalize hq : (e.2 / e.1 : ℚ) = q at hu
    by_cases hearly : q < s.1
    · refine Or.inl ⟨if_pos hearly, fun u h => ?_⟩
      obtain ⟨⟨hge, -⟩, hle⟩ := (hfeasible u).mp h
      exact absurd (hge.trans ((hu u).mp hle)) (not_le.mpr (by exact_mod_cast hearly))
    · rw [if_neg hearly]
      refine Or.inr ⟨_, rfl, ?_, fun u => ?_, hs.start.append e, ?_⟩
      · split_ifs
        · exact not_lt.mp hearly
        · exact hs.le
      · rw [hfeasible, hu]
        split_ifs with hhigh
        · have hhigh' : (q : ℝ) < s.2 := by exact_mod_cast hhigh
          exact ⟨fun h => ⟨h.1.1, h.2⟩, fun h => ⟨⟨h.1, h.2.trans hhigh'.le⟩, h.2⟩⟩
        · have hhigh' : (s.2 : ℝ) ≤ q := by exact_mod_cast not_lt.mp hhigh
          exact ⟨fun h => h.1, fun h => ⟨h, h.2.trans hhigh'⟩⟩
      · split_ifs
        · rw [← hq]
          exact moved_quotient hp.ne' es 1
        · exact hs.stop.append e

theorem foldlM_clipEdge : ∀ (es : List (ℤ × ℤ)) {done : List (ℤ × ℤ)} {s : ℚ × ℚ}, Clipped done s →
    (es.foldlM clipEdge s = none ∧ ∀ u, ¬ Feasible (done ++ es) u) ∨
      ∃ s', es.foldlM clipEdge s = some s' ∧ Clipped (done ++ es) s'
  | [], done, s, hs => Or.inr ⟨s, rfl, by rwa [List.append_nil]⟩
  | e :: es, done, s, hs => by
      rw [List.foldlM_cons]
      rcases clipEdge_spec hs e with ⟨hnone, hempty⟩ | ⟨s', hsome, hs'⟩
      · rw [hnone]
        refine Or.inl ⟨rfl, fun u h => hempty u ⟨h.1, fun e' he' => h.2 e' ?_⟩⟩
        rcases List.mem_append.mp he' with he' | he'
        · exact List.mem_append_left _ he'
        · exact List.mem_append_right _ (List.mem_cons.mpr (Or.inl (List.mem_singleton.mp he')))
      · rw [hsome]
        have hrest := foldlM_clipEdge es hs'
        rwa [List.append_assoc, List.singleton_append] at hrest

/-! ### The points -/

def point (l : Line) (u : ℝ) : ℝ × ℝ := (l.x1.toInt + xdelta l * u, l.y1.toInt + ydelta l * u)

def segment (l : Line) : Set (ℝ × ℝ) := point l '' Set.Icc 0 1

def rectangle (x y w h : ℤ) : Set (ℝ × ℝ) :=
  Set.Icc (x : ℝ) (x + w - 1 : ℤ) ×ˢ Set.Icc (y : ℝ) (y + h - 1 : ℤ)

def start (l : Line) : ℝ × ℝ := (l.x1.toInt, l.y1.toInt)
def stop (l : Line) : ℝ × ℝ := (l.x2.toInt, l.y2.toInt)

theorem point_zero (l : Line) : point l 0 = start l := by
  simp only [point, start, mul_zero, add_zero]

theorem point_one (l : Line) : point l 1 = stop l := by
  unfold point stop xdelta ydelta
  push_cast
  simp only [mul_one, add_sub_cancel]

theorem feasible_edges {l : Line} {x y w h : ℤ} {u : ℝ} :
    Feasible (clipEdges l x y w h) u ↔ u ∈ Set.Icc (0 : ℝ) 1 ∧ point l u ∈ rectangle x y w h := by
  unfold Feasible clipEdges rectangle point
  simp only [List.forall_mem_cons, List.not_mem_nil, false_imp_iff, implies_true, and_true, Set.mem_prod, Set.mem_Icc]
  push_cast
  refine and_congr_right fun _ => ?_
  constructor
  · rintro ⟨h1, h2, h3, h4⟩
    exact ⟨⟨by linarith, by linarith⟩, by linarith, by linarith⟩
  · rintro ⟨⟨h1, h2⟩, h3, h4⟩
    exact ⟨by linarith, by linarith, by linarith, by linarith⟩

theorem truncate_of_nonneg {u : ℚ} (h : 0 ≤ u) : truncate u = ⌊u⌋ := if_pos h

theorem truncate_intCast (n : ℤ) : truncate n = n := by
  unfold truncate
  rw [Int.floor_intCast, Int.ceil_intCast, ite_self]

/-- A coordinate of a point that lies between the edges `lo` and `hi`. -/
theorem truncate_between {a b : Int16} {lo hi : ℤ} {t : ℚ} (ht : 0 ≤ t ∧ t ≤ 1) (hlo : 0 ≤ lo)
    (hmem : (lo : ℚ) ≤ a.toInt + (b.toInt - a.toInt : ℤ) * t ∧ a.toInt + (b.toInt - a.toInt : ℤ) * t ≤ (hi : ℚ)) :
    let r : ℚ := a.toInt + (b.toInt - a.toInt : ℤ) * t
    (Int16.ofInt (truncate r)).toInt = truncate r ∧ (lo ≤ truncate r ∧ truncate r ≤ hi) ∧
      0 ≤ r - truncate r ∧ r - truncate r < 1 := by
  intro r
  have hr0 : 0 ≤ r := le_trans (by exact_mod_cast hlo) hmem.1
  have hmax : r ≤ (32767 : ℤ) := by
    have ha : (a.toInt : ℚ) ≤ 32767 := by exact_mod_cast Int.le_of_lt_add_one a.toInt_lt
    have hb : (b.toInt : ℚ) ≤ 32767 := by exact_mod_cast Int.le_of_lt_add_one b.toInt_lt
    have hmix : r = a.toInt * (1 - t) + b.toInt * t := by
      simp only [r]
      push_cast
      ring
    have h1 := mul_le_mul_of_nonneg_right ha (sub_nonneg.mpr ht.2)
    have h2 := mul_le_mul_of_nonneg_right hb ht.1
    push_cast
    linarith
  rw [truncate_of_nonneg hr0]
  have hfloor : ⌊r⌋ ≤ 32767 := by exact_mod_cast (Int.floor_le r).trans hmax
  have hnn : 0 ≤ ⌊r⌋ := Int.floor_nonneg.mpr hr0
  refine ⟨Int16.toInt_ofInt_of_le (by omega) (by omega), ⟨Int.le_floor.mpr hmem.1, ?_⟩, ?_, ?_⟩
  · exact_mod_cast (Int.floor_le r).trans hmem.2
  · exact sub_nonneg.mpr (Int.floor_le r)
  · exact sub_lt_iff_lt_add'.mpr (Int.lt_floor_add_one r)

/-- At an end of the interval one of the coordinates is whole. -/
theorem whole_of_moved {l : Line} {x y w h : ℤ} {d t : ℚ} (hd : d = 0 ∨ d = 1) (hm : Moved (clipEdges l x y w h) d t) :
    (∃ n : ℤ, l.x1.toInt + xdelta l * t = n) ∨ ∃ n : ℤ, l.y1.toInt + ydelta l * t = (n : ℚ) := by
  rcases hm with rfl | ⟨e, he, heq⟩
  · left
    rcases hd with rfl | rfl
    · exact ⟨l.x1.toInt, by ring⟩
    · exact ⟨l.x1.toInt + xdelta l, by push_cast; ring⟩
  · simp only [clipEdges, List.mem_cons, List.not_mem_nil, or_false] at he
    rcases he with rfl | rfl | rfl | rfl
    · exact Or.inl ⟨x, by push_cast at heq; linarith⟩
    · exact Or.inl ⟨x + w - 1, by push_cast at heq ⊢; linarith⟩
    · exact Or.inr ⟨y, by push_cast at heq; linarith⟩
    · exact Or.inr ⟨y + h - 1, by push_cast at heq ⊢; linarith⟩

def Near (l : Line) (q : ℝ × ℝ) : Prop := ∃ p ∈ segment l, (q.1 - p.1) ^ 2 + (q.2 - p.2) ^ 2 < 1

/-- The point of an end of the interval is put into the rectangle, less than a pixel away. -/
theorem put_spec {l : Line} {x y w h : ℤ} (hx : 0 ≤ x) (hy : 0 ≤ y) {d t : ℚ} (hd : d = 0 ∨ d = 1)
    (ht : Feasible (clipEdges l x y w h) t) (hm : Moved (clipEdges l x y w h) d t) :
    let q : ℝ × ℝ := ((Int16.ofInt (truncate (l.x1.toInt + xdelta l * t))).toInt,
      (Int16.ofInt (truncate (l.y1.toInt + ydelta l * t))).toInt)
    q ∈ rectangle x y w h ∧ Near l q := by
  intro q
  obtain ⟨hunit, hpoint⟩ := feasible_edges.mp ht
  have hunit' : 0 ≤ t ∧ t ≤ 1 := ⟨by exact_mod_cast hunit.1, by exact_mod_cast hunit.2⟩
  simp only [rectangle, point, Set.mem_prod, Set.mem_Icc] at hpoint
  obtain ⟨⟨hx1, hx2⟩, hy1, hy2⟩ := hpoint
  obtain ⟨hfx, hmx, hrx0, hrx1⟩ := @truncate_between l.x1 l.x2 x (x + w - 1) t hunit' hx
    ⟨by exact_mod_cast hx1, by exact_mod_cast hx2⟩
  obtain ⟨hfy, hmy, hry0, hry1⟩ := @truncate_between l.y1 l.y2 y (y + h - 1) t hunit' hy
    ⟨by exact_mod_cast hy1, by exact_mod_cast hy2⟩
  have hq : q = (((truncate (l.x1.toInt + xdelta l * t) : ℤ) : ℝ), ((truncate (l.y1.toInt + ydelta l * t) : ℤ) : ℝ)) :=
    Prod.ext (congrArg Int.cast hfx) (congrArg Int.cast hfy)
  rw [hq]
  refine ⟨⟨⟨Int.cast_le.mpr hmx.1, Int.cast_le.mpr hmx.2⟩, Int.cast_le.mpr hmy.1, Int.cast_le.mpr hmy.2⟩,
    point l t, ⟨t, hunit, rfl⟩, ?_⟩
  have hsq : ∀ r : ℚ, 0 ≤ r → r < 1 → r ^ 2 < 1 := fun r h0 h1 => pow_lt_one₀ h0 h1 two_ne_zero
  have hdist : (l.x1.toInt + xdelta l * t - truncate (l.x1.toInt + xdelta l * t) : ℚ) ^ 2 +
      (l.y1.toInt + ydelta l * t - truncate (l.y1.toInt + ydelta l * t)) ^ 2 < 1 := by
    rcases whole_of_moved hd hm with ⟨n, hn⟩ | ⟨n, hn⟩
    · rw [hn, truncate_intCast, sub_self, zero_pow two_ne_zero, zero_add]
      exact hsq _ hry0 hry1
    · rw [hn, truncate_intCast, sub_self, zero_pow two_ne_zero, add_zero]
      exact hsq _ hrx0 hrx1
  have hdist' : (l.x1.toInt + xdelta l * t - truncate (l.x1.toInt + xdelta l * t) : ℝ) ^ 2 +
      (l.y1.toInt + ydelta l * t - truncate (l.y1.toInt + ydelta l * t)) ^ 2 < 1 := by exact_mod_cast hdist
  rw [sub_sq_comm, sub_sq_comm _ ((point l t).2)]
  exact hdist'

/-- What becomes of a line that is drawn. -/
structure ClippedTo (l l' : Line) (x y w h : ℤ) : Prop where
  start_mem : start l' ∈ rectangle x y w h
  stop_mem : stop l' ∈ rectangle x y w h
  start_near : Near l (start l')
  stop_near : Near l (stop l')
  start_eq : start l ∈ rectangle x y w h → start l' = start l
  stop_eq : stop l ∈ rectangle x y w h → stop l' = stop l

theorem toInt_ofInt_truncate (a : Int16) : (Int16.ofInt (truncate (a.toInt : ℤ))).toInt = a.toInt := by
  rw [truncate_intCast, Int16.ofInt_toInt]

/-- The line is drawn exactly if it meets the rectangle. -/
theorem lb_clip_line_spec (l : Line) {x y : ℤ} (hx : 0 ≤ x) (hy : 0 ≤ y) (w h : ℤ) :
    ((lbClipLine l x y w h).1 = true ↔ (segment l ∩ rectangle x y w h).Nonempty) ∧
    ((lbClipLine l x y w h).1 = true → ClippedTo l (lbClipLine l x y w h).2 x y w h) ∧
    ((lbClipLine l x y w h).1 = false → (lbClipLine l x y w h).2 = l) := by
  have hmeets : (segment l ∩ rectangle x y w h).Nonempty ↔ ∃ u, Feasible (clipEdges l x y w h) u := by
    constructor
    · rintro ⟨_, ⟨u, hu, rfl⟩, hmem⟩
      exact ⟨u, feasible_edges.mpr ⟨hu, hmem⟩⟩
    · rintro ⟨u, hu⟩
      obtain ⟨hu, hmem⟩ := feasible_edges.mp hu
      exact ⟨point l u, ⟨u, hu, rfl⟩, hmem⟩
  rw [hmeets]
  rcases foldlM_clipEdge (clipEdges l x y w h) clipped_nil with ⟨hnone, hempty⟩ | ⟨⟨umin, umax⟩, hsome, hs⟩
  · simp only [lbClipLine, hnone]
    exact ⟨⟨fun h => absurd h (by decide), fun ⟨u, hu⟩ => absurd hu (hempty u)⟩,
      fun h => absurd h (by decide), fun _ => trivial⟩
  · simp only [List.nil_append] at hs
    have hmin := (hs.feasible umin).mpr ⟨le_rfl, by exact_mod_cast hs.le⟩
    have hmax := (hs.feasible umax).mpr ⟨by exact_mod_cast hs.le, le_rfl⟩
    simp only [lbClipLine, hsome, if_neg (not_lt.mpr hs.le)]
    obtain ⟨hstart, hstartNear⟩ := put_spec hx hy (Or.inl rfl) hmin hs.start
    obtain ⟨hstop, hstopNear⟩ := put_spec hx hy (Or.inr rfl) hmax hs.stop
    refine ⟨⟨fun _ => ⟨umin, hmin⟩, fun _ => trivial⟩, fun _ => ?_, fun h => absurd h (by decide)⟩
    refine ⟨hstart, hstop, hstartNear, hstopNear, fun hmem => ?_, fun hmem => ?_⟩
    · -- the parameter 0 is left, so the interval begins there
      rw [← point_zero] at hmem
      have hzero := (hs.feasible 0).mp (feasible_edges.mpr ⟨⟨le_rfl, zero_le_one⟩, hmem⟩)
      have hu : umin = 0 := by exact_mod_cast le_antisymm hzero.1 hmin.1.1
      simp only [start, hu, mul_zero, add_zero, toInt_ofInt_truncate]
    · rw [← point_one] at hmem
      have hone := (hs.feasible 1).mp (feasible_edges.mpr ⟨⟨zero_le_one, le_rfl⟩, hmem⟩)
      have hu : umax = 1 := by exact_mod_cast le_antisymm hmax.1.2 hone.2
      have hx2 : (l.x1.toInt + xdelta l * 1 : ℚ) = l.x2.toInt := by
        unfold xdelta
        push_cast
        ring
      have hy2 : (l.y1.toInt + ydelta l * 1 : ℚ) = l.y2.toInt := by
        unfold ydelta
        push_cast
        ring
      simp only [stop, hu, hx2, hy2, toInt_ofInt_truncate]

/-- The diagonal of a square of ten pixels, clipped to its middle. -/
theorem lb_clip_line_spec_diagonal :
    ((lbClipLine ⟨0, 0, 9, 9⟩ 2 2 4 4).1 = true ↔ (segment ⟨0, 0, 9, 9⟩ ∩ rectangle 2 2 4 4).Nonempty) ∧
    ((lbClipLine ⟨0, 0, 9, 9⟩ 2 2 4 4).1 = true →
      ClippedTo ⟨0, 0, 9, 9⟩ (lbClipLine ⟨0, 0, 9, 9⟩ 2 2 4 4).2 2 2 4 4) ∧
    ((lbClipLine ⟨0, 0, 9, 9⟩ 2 2 4 4).1 = false → (lbClipLine ⟨0, 0, 9, 9⟩ 2 2 4 4).2 = ⟨0, 0, 9, 9⟩) :=
  lb_clip_line_spec ⟨0, 0, 9, 9⟩ (by decide) (by decide) 4 4

end OpenMV.Draw
