import OpenMV.Io.ImageOperation
import OpenMV.Io.PpmRead

/-! Reading a file window by window | scheme:streaming | source:src/src/openmv/omv/img/imlib.c

    Lines that are read from a file one after the other can be read in any number of portions. What
    differs is where they go: the lines of a file that is upside down fill a window from its end, also
    if there are too few of them to fill it. The operation then runs on the lines at the start of the
    window, and gets those that the window before this one left there. -/

namespace OpenMV.Io
open Schemes Vision

/-! ### Line operations -/

/-- Lines `b`, `b + 1`, … of the image get rows `0`, `1`, … of the memory. -/
theorem opLines_apply {α : Type} (op : LineOp α) (w : ℤ) (mem : ℤ → ℕ) (b : ℤ) (img : ℤ → α) (t : ℤ) :
    ∀ n : ℕ, opLines op w mem (fun j => b + j) n img t =
      if b ≤ t ∧ t < b + n then op t (rowOf w mem (t - b)) (img t) else img t
  | 0 => by rw [opLines, if_neg (by push_cast; omega)]
  | n + 1 => by
    rw [opLines]
    by_cases ht : t = b + n
    · subst ht
      rw [Function.update_self, opLines_apply op w mem b img _ n, if_neg (by omega),
        if_pos (by push_cast; omega), add_sub_cancel_left]
    · rw [Function.update_of_ne ht, opLines_apply op w mem b img t n]
      by_cases hin : b ≤ t ∧ t < b + n
      · rw [if_pos hin, if_pos (by push_cast; omega)]
      · rw [if_neg hin, if_neg (by push_cast; omega)]

/-- A row of the memory is what its pixels are. -/
theorem rowOf_congr {w : ℤ} {mem : ℤ → ℕ} {j : ℤ} {f : ℕ → ℕ}
    (h : ∀ x : ℕ, (x : ℤ) < w → mem (j * w + x) = f x) :
    rowOf w mem j = (List.range w.toNat).map f := by
  unfold rowOf
  refine List.map_congr_left fun x hx => ?_
  have hx := List.mem_range.1 hx
  rw [mul_comm]
  exact h x (by omega)

/-! ### Portions of lines -/

/-- The row of the window, or of the image, for the `i`-th line that is read into it. -/
def slot (up : Bool) (h : ℤ) (i : ℕ) : ℤ := if up then h - i - 1 else i

/-- The memory holds the lines that were read, and what it held before elsewhere. -/
structure Filled (up : Bool) (w h : ℤ) (n : ℕ) (row : ℕ → ℕ → ℕ) (mem mem' : ℤ → ℕ) : Prop where
  line : ∀ i x : ℕ, i < n → (x : ℤ) < w → mem' (slot up h i * w + x) = row i x
  rest : ∀ k, (∀ i x : ℕ, i < n → (x : ℤ) < w → k ≠ slot up h i * w + x) → mem' k = mem k

/-- From the states `σ` the reader gets the `N` lines `row` in portions of any size, into images of any
    height. -/
def Streams (w : ℤ) (b : Bpp) (N : ℕ) (up : Bool) (row : ℕ → ℕ → ℕ)
    (σ : ℕ → ImgReadSettings × List UInt8) : Prop :=
  ∀ (h : ℤ) (a n : ℕ), a + n ≤ N → n ≤ h → h ≤ N → ∃ stores,
    imlibReadPixels ⟨w, h, b⟩ n (σ a).1 (σ a).2 = .ok ((stores, (σ (a + n)).1), (σ (a + n)).2) ∧
      ∀ mem, Filled up w h n (fun i => row (a + i)) mem (storeAll mem stores)

/-- Rows that no line was read into are as they were. -/
theorem Filled.row_of_ne {up : Bool} {w h : ℤ} {n : ℕ} {row : ℕ → ℕ → ℕ} {mem mem' : ℤ → ℕ}
    (hf : Filled up w h n row mem mem') {j : ℤ} (hj : ∀ i : ℕ, i < n → j ≠ slot up h i) {x : ℕ}
    (hx : (x : ℤ) < w) : mem' (j * w + x) = mem (j * w + x) := by
  refine hf.rest _ fun i x' hi hx' he => hj i hi ?_
  exact (rowMajor_inj ⟨by omega, hx⟩ ⟨by omega, hx'⟩ he).1

/-- The line of the image whose row the operation gets at line `t`: in the last window of a file that is
    upside down, if it is not full, rows of the window before it come first. -/
def givenLine (up : Bool) (N H t : ℤ) : ℤ :=
  if up ∧ t < N % H then
    if t < H - N % H then N % H + t else t + N % H - H
  else t

/-- Row `t` of the whole image. -/
def imageRow (up : Bool) (w : ℤ) (N : ℕ) (row : ℕ → ℕ → ℕ) (t : ℤ) : List ℕ :=
  (List.range w.toNat).map (row (slot up N t.toNat).toNat)

/-- The lines of the image that are left when `a` lines of the file were read. -/
def LinesLeft (up : Bool) (N a : ℕ) (t : ℤ) : Prop :=
  if up then 0 ≤ t ∧ t < N - a else a ≤ t ∧ t < N

instance (up : Bool) (N a : ℕ) (t : ℤ) : Decidable (LinesLeft up N a t) :=
  inferInstanceAs (Decidable (ite _ _ _))

/-! ### The loop over the windows -/

section
variable {w : ℤ} {b : Bpp} {up : Bool} {row : ℕ → ℕ → ℕ} {σ : ℕ → ImgReadSettings × List UInt8}
  {N H a k n : ℕ}

/-- A window is full, with all that is left over still ahead, or it holds what is left over. -/
theorem window_cases (hH : 0 < H) (ha : a = k * H) (haN : a < N) (hn : n = min H (N - a)) :
    (n = H ∧ a + H ≤ N ∧ N % H ≤ N - a - H) ∨ (n < H ∧ N % H = n ∧ N = a + n) := by
  by_cases hfull : a + H ≤ N
  · obtain ⟨m, rfl⟩ := Nat.exists_eq_add_of_le hfull
    have hmod : (a + H + m) % H = m % H := by
      rw [ha, ← Nat.succ_mul, Nat.mul_add_mod']
    have := Nat.mod_le m H
    omega
  · have hmod : N % H = n := by
      rw [show N = k * H + n by omega, Nat.mul_add_mod', Nat.mod_eq_of_lt (by omega)]
    omega

/-- What the operation gets at a line of the window. -/
theorem window_row (hH : 0 < H) (hHN : H ≤ N) (ha : a = k * H) (haN : a < N) (hn : n = min H (N - a))
    {mem mem' : ℤ → ℕ} (hfill : Filled up w H n (fun i => row (a + i)) mem mem')
    (hold : a ≠ 0 → ∀ i x : ℕ, i < H → (x : ℤ) < w → mem (slot up H i * w + x) = row (a - H + i) x)
    {j : ℕ} (hj : j < n) :
    rowOf w mem' j = imageRow up w N row
      (givenLine up N H ((if up then (N : ℤ) - a - n else a) + j)) := by
  refine rowOf_congr fun x hx => ?_
  obtain ⟨hle, hlt⟩ := And.intro (Nat.mod_le N H) (Nat.mod_lt N hH)
  have hmod : ((N : ℤ) % H) = ((N % H : ℕ) : ℤ) := by push_cast; rfl
  have hcases := window_cases hH ha haN hn
  have haH : a ≠ 0 → H ≤ a := fun h0 => by
    rw [ha]
    exact Nat.le_mul_of_pos_left H (Nat.pos_of_ne_zero (by rintro rfl; omega))
  unfold givenLine slot
  rw [hmod]
  generalize N % H = r at *
  cases up with
  | false =>
    have h := hfill.line j x hj hx
    simp only [slot, Bool.false_eq_true, false_and, if_false] at h ⊢
    rw [h]
    congr 1
  | true =>
    by_cases hnew : H - n ≤ j
    · have h := hfill.line (H - 1 - j) x (by omega) hx
      simp only [slot, if_true] at h
      rw [show (H : ℤ) - (H - 1 - j : ℕ) - 1 = j by omega] at h
      rw [h]
      congr 1
      simp only [true_and, if_true]
      rcases hcases with hc | hc
      · rw [if_neg (by omega)]
        omega
      · rw [if_pos (by omega), if_neg (by omega)]
        omega
    · -- rows that the last window leaves as they are
      have hc := hcases.resolve_left (by omega)
      have h := hfill.row_of_ne (j := j) (fun i hi => by simp only [slot, if_true]; omega) hx
      have h' := hold (by omega) (H - 1 - j) x (by omega) hx
      simp only [slot, if_true] at h'
      rw [show (H : ℤ) - (H - 1 - j : ℕ) - 1 = j by omega] at h'
      rw [h, h']
      congr 1
      simp only [true_and, if_true]
      rw [if_pos (by omega), if_pos (by omega)]
      omega

/-- The lines that are left are those of the next window, and others. -/
theorem linesLeft_step {α : Type} (hle : a + n ≤ N) (t : ℤ) (x y : α) :
    (if LinesLeft up N a t then x else y) = if LinesLeft up N (a + n) t then x else
      if (if up then (N : ℤ) - a - n else a) ≤ t ∧ t < (if up then (N : ℤ) - a - n else a) + n
        then x else y := by
  have hiff : LinesLeft up N a t ↔ LinesLeft up N (a + n) t ∨
      (if up then (N : ℤ) - a - n else a) ≤ t ∧ t < (if up then (N : ℤ) - a - n else a) + n := by
    unfold LinesLeft
    cases up
    · simp only [Bool.false_eq_true, if_false]
      push_cast
      omega
    · simp only [if_true]
      push_cast
      omega
  rw [← ite_or]
  exact if_congr hiff rfl rfl

theorem linesLeft_disjoint {t : ℤ} (hleft : LinesLeft up N (a + n) t) :
    ¬ ((if up then (N : ℤ) - a - n else a) ≤ t ∧ t < (if up then (N : ℤ) - a - n else a) + n) := by
  unfold LinesLeft at hleft
  cases up
  · simp only [Bool.false_eq_true, if_false] at hleft ⊢
    push_cast at hleft
    omega
  · simp only [if_true] at hleft ⊢
    push_cast at hleft
    omega

theorem not_linesLeft (h : N ≤ a) (t : ℤ) : ¬ LinesLeft up N a t := by
  unfold LinesLeft
  split <;> omega

theorem windowLoop_of_le {α : Type} (op : LineOp α) {h i : ℤ} (hi : h ≤ i) (temp : Shape)
    (mem : ℤ → ℕ) (rs : ImgReadSettings) (img : ℤ → α) (s : List UInt8) : ∀ fuel : ℕ,
    windowLoop op h temp up fuel i mem rs img s = .ok (img, s)
  | 0 => rfl
  | fuel + 1 => by
    rw [windowLoop, if_neg (by omega)]
    rfl

/-- After the lines of a file were read window by window, each line of the image was given the row that
    `givenLine` says. -/
theorem windowLoop_ok {α : Type} (op : LineOp α) (hs : Streams w b N up row σ) (hH : 0 < H)
    (hHN : H ≤ N) : ∀ (fuel k a : ℕ) (mem : ℤ → ℕ) (img : ℤ → α), a = k * H → N ≤ a + fuel →
      (a ≠ 0 → ∀ i x : ℕ, i < H → (x : ℤ) < w → mem (slot up H i * w + x) = row (a - H + i) x) →
      ∃ s, windowLoop op N ⟨w, H, b⟩ up fuel a mem (σ a).1 img (σ a).2 =
        .ok (fun t => if LinesLeft up N a t then
          op t (imageRow up w N row (givenLine up N H t)) (img t) else img t, s)
  | 0, k, a, mem, img, _, hfuel, _ => by
    refine ⟨(σ a).2, ?_⟩
    simp only [if_neg (not_linesLeft (show N ≤ a from hfuel) _)]
    rfl
  | fuel + 1, k, a, mem, img, ha, hfuel, hold => by
    by_cases haN : N ≤ a
    · refine ⟨(σ a).2, ?_⟩
      simp only [if_neg (not_linesLeft haN _)]
      exact windowLoop_of_le op (by omega) _ _ _ _ _ _
    generalize hn : min H (N - a) = n
    have hcases := window_cases hH ha (by omega) hn.symm
    obtain ⟨stores, hread, hfill⟩ := hs H a n (by omega) (by omega) (by omega)
    have hnext : ∀ img' : ℤ → α, ∃ s, windowLoop op N ⟨w, H, b⟩ up fuel (a + H)
        (storeAll mem stores) (σ (a + n)).1 img' (σ (a + n)).2 =
          .ok (fun t => if LinesLeft up N (a + n) t then
            op t (imageRow up w N row (givenLine up N H t)) (img' t) else img' t, s) := by
      intro img'
      rcases hcases with ⟨hnH, -, -⟩ | ⟨-, -, hN⟩
      · rw [hnH]
        refine windowLoop_ok op hs hH hHN fuel (k + 1) (a + H) _ img' (by rw [ha]; ring) (by omega) ?_
        intro _ i x hi hx
        rw [Nat.add_sub_cancel]
        exact (hfill mem).line i x (by omega) hx
      · refine ⟨(σ (a + n)).2, ?_⟩
        simp only [if_neg (not_linesLeft hN.le _)]
        exact windowLoop_of_le op (by omega) _ _ _ _ _ _
    have hlines : min (H : ℤ) (N - a) = n := by omega
    have htarget : (fun j : ℕ => if up then (N : ℤ) - a - n + j else a + j) =
        fun j : ℕ => (if up then (N : ℤ) - a - n else a) + j := by
      cases up <;> rfl
    obtain ⟨s, hrest⟩ := hnext (opLines op w (storeAll mem stores)
      (fun j => (if up then (N : ℤ) - a - n else a) + j) n img)
    refine ⟨s, ?_⟩
    rw [windowLoop, if_pos (by omega)]
    dsimp only
    rw [hlines]
    refine (Reader.bind_of_ok hread _).trans ?_
    dsimp only
    rw [htarget, Int.toNat_natCast, hrest]
    congr 2
    funext t
    rw [opLines_apply, linesLeft_step (a := a) (n := n) (by omega)]
    by_cases hleft : LinesLeft up N (a + n) t
    · rw [if_pos hleft, if_pos hleft, if_neg (linesLeft_disjoint hleft)]
    · rw [if_neg hleft, if_neg hleft]
      refine ite_congr rfl (fun hin => ?_) fun _ => rfl
      obtain ⟨j, hj⟩ := Int.eq_ofNat_of_zero_le (sub_nonneg.2 hin.1)
      have hrow := window_row hH hHN ha (by omega) hn.symm (hfill mem) hold (show j < n by omega)
      rw [hj, hrow, ← hj, add_sub_cancel]

end

/-! ### The lines of a BMP file -/

section
variable {img : Shape} {rs : BmpReadSettings}

/-- The columns are mirrored, or left as they are. -/
theorem bmpX_bmpX {x : ℕ} (hx : (x : ℤ) < img.w) :
    bmpX img rs (bmpX img rs x).toNat = x := by
  unfold bmpX
  split <;> omega

theorem bmpY_eq_slot (img : Shape) (rs : BmpReadSettings) (i : ℕ) :
    bmpY img rs i = slot (0 ≤ rs.bmpH) img.h i := by
  unfold bmpY slot
  by_cases h : rs.bmpH < 0
  · rw [if_pos h, if_neg (by simpa using h)]
  · rw [if_neg h, if_pos (by simpa using h)]

theorem bmpLineBytes_drop (rs : BmpReadSettings) (s : List UInt8) (a i : ℕ) :
    bmpLineBytes rs (s.drop (a * rs.bmpRowBytes)) i = bmpLineBytes rs s (a + i) := by
  unfold bmpLineBytes
  rw [List.drop_drop, ← Nat.add_mul]

theorem streams_bmp {w : ℤ} {b : Bpp} {N : ℕ} (hsz : BmpSized ⟨w, N, b⟩ rs) {s : List UInt8}
    (hlen : N * rs.bmpRowBytes ≤ s.length) :
    Streams w b N (0 ≤ rs.bmpH)
      (fun k x => bmpValue rs (bmpLineBytes rs s k) (bmpX ⟨w, N, b⟩ rs x).toNat)
      fun a => (.bmp rs, s.drop (a * rs.bmpRowBytes)) := by
  intro h a n han hnh hhN
  have hw := hsz.w
  have harea := hsz.area
  have hsz' : BmpSized ⟨w, h, b⟩ rs := by
    refine ⟨hsz.depth, hsz.row, hw, hsz.cols, hsz.max, ?_⟩
    exact (mul_le_mul_of_nonneg_left hhN hw.1.le).trans harea
  have hle : (a + n) * rs.bmpRowBytes ≤ N * rs.bmpRowBytes := Nat.mul_le_mul_right _ han
  rw [Nat.add_mul] at hle
  obtain ⟨stores, hread, hholds⟩ := bmpReadPixels_holds hsz' (s := s.drop (a * rs.bmpRowBytes)) hnh
    (by rw [List.length_drop]; omega)
  refine ⟨stores, ?_, fun mem => ⟨fun i x hi hx => ?_, fun k hk => (hholds mem).rest k ?_⟩⟩
  · refine (Reader.bind_of_ok hread _).trans ?_
    rw [List.drop_drop, ← Nat.add_mul]
    rfl
  · have hx' : 0 ≤ bmpX ⟨w, h, b⟩ rs x ∧ bmpX ⟨w, h, b⟩ rs x < w := bmpX_mem hx
    have hline := (hholds mem).line i (bmpX ⟨w, h, b⟩ rs x).toNat hi (by dsimp only; omega)
    rw [bmpX_bmpX hx, bmpY_eq_slot, bmpLineBytes_drop] at hline
    exact hline
  · intro i j hi hj
    have hx' : 0 ≤ bmpX ⟨w, h, b⟩ rs j ∧ bmpX ⟨w, h, b⟩ rs j < w := bmpX_mem hj
    rw [bmpY_eq_slot, ← Int.toNat_of_nonneg hx'.1]
    exact hk i _ hi (by omega)

end

/-! ### The lines of a PPM or PGM file -/

/-- The reader for a pixel goes through these states, and gets these values. -/
def Steps (pixel : Option UInt8 → Fil (ℕ × Option UInt8)) (M : ℕ) (c : ℕ → Option UInt8)
    (s : ℕ → List UInt8) (v : ℕ → ℕ) : Prop :=
  ∀ m < M, pixel (c m) (s m) = .ok ((v m, c (m + 1)), s (m + 1))

section
variable {img : Shape} {pixel : Option UInt8 → Fil (ℕ × Option UInt8)}

theorem steps_of_ppmReadLoop : ∀ {ps : List (ℤ × ℤ)} {c₀ : Option UInt8} {s₀ : List UInt8}
    {r : (Stores × Option UInt8) × List UInt8}, ppmReadLoop img pixel ps c₀ s₀ = .ok r →
    ∃ c s v, c 0 = c₀ ∧ s 0 = s₀ ∧ Steps pixel ps.length c s v
  | [], c₀, s₀, _, _ => ⟨fun _ => c₀, fun _ => s₀, fun _ => 0, rfl, rfl, fun m hm => nomatch hm⟩
  | p :: ps, c₀, s₀, r, h => by
    obtain ⟨⟨v₀, c₁⟩, s₁, hp, h⟩ := Reader.bind_eq_ok.1 h
    obtain ⟨⟨stores, c₂⟩, s₂, hps, -⟩ := Reader.bind_eq_ok.1 h
    obtain ⟨c, s, v, rfl, rfl, hsteps⟩ := steps_of_ppmReadLoop hps
    refine ⟨fun m => m.casesOn c₀ c, fun m => m.casesOn s₀ s, fun m => m.casesOn v₀ v, rfl, rfl, ?_⟩
    intro m hm
    cases m with
    | zero => exact hp
    | succ m => exact hsteps m (Nat.lt_of_succ_lt_succ hm)

/-- Any number of pixels can be read at a time. -/
theorem ppmReadLoop_of_steps (img : Shape) {M : ℕ} {c : ℕ → Option UInt8} {s : ℕ → List UInt8} {v : ℕ → ℕ}
    (hsteps : Steps pixel M c s v) (val : ℤ × ℤ → ℕ) : ∀ (ps : List (ℤ × ℤ)) (m : ℕ),
    m + ps.length ≤ M → (∀ i (h : i < ps.length), val ps[i] = v (m + i)) →
    ppmReadLoop img pixel ps (c m) (s m) =
      .ok ((ps.map fun p => (pixelIndex img p.1 p.2, val p), c (m + ps.length)), s (m + ps.length))
  | [], m, _, _ => rfl
  | p :: ps, m, hm, hval => by
    rw [List.length_cons] at hm
    have hrest := ppmReadLoop_of_steps img hsteps val ps (m + 1) (by omega) fun i hi => by
      have := hval (i + 1) (Nat.succ_lt_succ hi)
      rw [List.getElem_cons_succ] at this
      rw [this]
      congr 1
      omega
    refine (Reader.bind_of_ok (hsteps m (by omega)) _).trans ?_
    refine (Reader.bind_of_ok hrest _).trans ?_
    have hv : val p = v m := hval 0 (Nat.succ_pos _)
    rw [List.map_cons, List.length_cons, hv, Nat.add_right_comm, Nat.add_assoc m]
    rfl

theorem linePixels_eq (w h : ℤ) (b : Bpp) (n : ℕ) : linePixels ⟨w, h, b⟩ n =
    (List.range (n * w.toNat)).map fun m => (((m % w.toNat : ℕ) : ℤ), ((m / w.toNat : ℕ) : ℤ)) := by
  rw [map_range_mul]
  unfold linePixels
  rw [Int.toNat_natCast]
  refine List.flatMap_congr fun i _ => List.map_congr_left fun j hj => ?_
  have hj : j < w.toNat := List.mem_range.1 hj
  rw [Nat.mul_add_mod', Nat.mod_eq_of_lt hj, Nat.add_comm, Nat.add_mul_div_right _ _ (by omega),
    Nat.div_eq_of_lt hj, Nat.zero_add]

/-- Whatever the kind of file, the pixels are read one by one, or all of them at once. -/
theorem ppmReadPixels_cases {rs : PpmReadSettings} (hfmt : rs.ppmFmt ∈ [0x32, 0x33, 0x35, 0x36]) :
    rs.ppmFmt = 0x35 ∨ ∃ pixel, ∀ (img : Shape) (n : ℤ) (c : Option UInt8),
      ppmReadPixels img n { rs with readIntC := c } = do
        let (stores, c) ← ppmReadLoop img pixel (linePixels img n) c
        return (stores, { rs with readIntC := c }) := by
  obtain ⟨c₀, fmt⟩ := rs
  simp only [List.mem_cons, List.not_mem_nil, or_false] at hfmt
  rcases hfmt with rfl | rfl | rfl | rfl
  · exact .inr ⟨readGrayNumber, fun _ _ _ => rfl⟩
  · exact .inr ⟨readRgbNumbers, fun _ _ _ => rfl⟩
  · exact .inl rfl
  · exact .inr ⟨readRgbBytes, fun _ _ _ => rfl⟩

end

section
variable {w : ℤ} {b : Bpp} {N : ℕ} {rs : PpmReadSettings} {s : List UInt8}

theorem streams_ppm_loop {pixel : Option UInt8 → Fil (ℕ × Option UInt8)} (hw : 0 < w)
    (harea : w * N ≤ 2147483648) (hloop : ∀ (img : Shape) (n : ℤ) (c : Option UInt8),
      ppmReadPixels img n { rs with readIntC := c } = do
        let (stores, c) ← ppmReadLoop img pixel (linePixels img n) c
        return (stores, { rs with readIntC := c }))
    {r : (Stores × PpmReadSettings) × List UInt8}
    (hread : ppmReadPixels ⟨w, N, b⟩ N rs s = .ok r) :
    ∃ row σ, σ 0 = (.pnm rs, s) ∧ Streams w b N false row σ := by
  obtain ⟨q, t, hps, -⟩ := Reader.bind_eq_ok.1 ((congrFun (hloop _ _ rs.readIntC) s).symm.trans hread)
  obtain ⟨c, ss, v, hc, hs, hsteps⟩ := steps_of_ppmReadLoop hps
  rw [linePixels_eq, List.length_map, List.length_range] at hsteps
  refine ⟨fun k x => v (k * w.toNat + x), fun a =>
    (.pnm { rs with readIntC := c (a * w.toNat) }, ss (a * w.toNat)), ?_, ?_⟩
  · dsimp only
    rw [Nat.zero_mul, hc, hs]
  intro h a n han hnh hhN
  have hle : (a + n) * w.toNat ≤ N * w.toNat := Nat.mul_le_mul_right _ han
  rw [Nat.add_mul] at hle
  have hrun := ppmReadLoop_of_steps ⟨w, h, b⟩ hsteps
    (fun p => v ((a + p.2.toNat) * w.toNat + p.1.toNat)) (linePixels ⟨w, h, b⟩ n) (a * w.toNat)
    (by rw [linePixels_eq, List.length_map, List.length_range]; omega) fun i hi => by
      simp only [linePixels_eq, List.getElem_map, List.getElem_range, Int.toNat_natCast]
      rw [Nat.add_mul, Nat.add_assoc, Nat.div_add_mod']
  rw [linePixels_eq, List.length_map, List.length_range, ← Nat.add_mul, ← linePixels_eq w h b] at hrun
  refine ⟨(linePixels ⟨w, h, b⟩ n).map fun p => (pixelIndex ⟨w, h, b⟩ p.1 p.2,
    v ((a + p.2.toNat) * w.toNat + p.1.toNat)), ?_, fun mem => ?_⟩
  · refine (Reader.bind_of_ok ((congrFun (hloop _ _ _) _).trans (Reader.bind_of_ok hrun _)) _).trans ?_
    rfl
  · have hst := storeAll_linePixels ⟨w, h, b⟩ hw ((mul_le_mul_of_nonneg_left hhN hw.le).trans harea)
      hnh (fun p => v ((a + p.2.toNat) * w.toNat + p.1.toNat)) mem
    exact ⟨fun i x hi hx => hst.1 x i hx hi, fun k hk => hst.2 k fun x i hx hi => hk i x hi hx⟩

theorem streams_ppm_bytes (hw : 0 < w) (harea : w * N ≤ 2147483648) (hfmt : rs.ppmFmt = 0x35)
    {r : (Stores × PpmReadSettings) × List UInt8}
    (hread : ppmReadPixels ⟨w, N, b⟩ N rs s = .ok r) :
    ∃ row σ, σ 0 = (.pnm rs, s) ∧ Streams w b N false row σ := by
  have hpixels : ∀ (h : ℤ) (n : ℕ), n ≤ N → ppmReadPixels ⟨w, h, b⟩ n rs = do
      let data ← readData (n * w.toNat)
      return (data.mapIdx fun k b => ((k : ℤ), b.toNat), rs) := by
    intro h n hn
    have hle : w * n ≤ w * N := mul_le_mul_of_nonneg_left (by exact_mod_cast hn) hw.le
    have hsize : uint32 (n * w) = n * w.toNat := by
      have hu := uint32_of_mem (x := n * w) (by positivity) (by rw [mul_comm]; omega)
      zify
      rw [hu, Int.toNat_of_nonneg hw.le]
    unfold ppmReadPixels
    rw [hfmt, if_neg (by decide), if_neg (by decide), if_pos rfl, hsize]
  obtain ⟨q, t, hdata, -⟩ := Reader.bind_eq_ok.1 ((congrFun (hpixels N N le_rfl) s).symm.trans hread)
  have hlen := ((takes_readData _).eq_ok_iff.1 hdata).1
  refine ⟨fun k x => (s.getD (k * w.toNat + x) 0).toNat,
    fun a => (.pnm rs, s.drop (a * w.toNat)), by simp, ?_⟩
  intro h a n han hnh hhN
  have hle : (a + n) * w.toNat ≤ N * w.toNat := Nat.mul_le_mul_right _ han
  have hdrop : n * w.toNat ≤ (s.drop (a * w.toNat)).length := by
    rw [Nat.add_mul] at hle
    rw [List.length_drop]
    omega
  have hrun := (takes_readData (n * w.toNat)).eq_ok_iff.2 ⟨hdrop, rfl⟩
  rw [List.drop_drop, ← Nat.add_mul] at hrun
  have htake : (((s.drop (a * w.toNat)).take (n * w.toNat))).length = n * w.toNat := by
    rw [List.length_take, Nat.min_eq_left hdrop]
  have hidx : ∀ i x : ℕ, slot false h i * w + x = ((i * w.toNat + x : ℕ) : ℤ) := by
    intro i x
    push_cast
    rw [Int.toNat_of_nonneg hw.le]
    rfl
  refine ⟨((s.drop (a * w.toNat)).take (n * w.toNat)).mapIdx fun k b => ((k : ℤ), b.toNat), ?_,
    fun mem => ⟨fun i x hi hx => ?_, fun k hk => ?_⟩⟩
  · refine (Reader.bind_of_ok ((congrFun (hpixels h n (by omega)) _).trans
      (Reader.bind_of_ok hrun _)) _).trans ?_
    rfl
  · have hrow : (i + 1) * w.toNat ≤ n * w.toNat := Nat.mul_le_mul_right _ hi
    rw [Nat.add_mul, Nat.one_mul] at hrow
    have hk : i * w.toNat + x < n * w.toNat := by omega
    rw [hidx, storeAll_bytes_of_lt _ _ (by omega)]
    simp [hk, Nat.add_mul, Nat.add_assoc]
  · refine storeAll_bytes_of_not _ _ fun hk' => ?_
    rw [htake] at hk'
    have hw' : 0 < w.toNat := by omega
    have hmod := Nat.mod_lt k.toNat hw'
    refine hk (k.toNat / w.toNat) (k.toNat % w.toNat)
      ((Nat.div_lt_iff_lt_mul hw').2 (by omega)) (by omega) ?_
    rw [hidx, Nat.div_add_mod', Int.toNat_of_nonneg hk'.1]

theorem streams_ppm (hw : 0 < w) (harea : w * N ≤ 2147483648)
    (hfmt : rs.ppmFmt ∈ [0x32, 0x33, 0x35, 0x36]) {r : (Stores × PpmReadSettings) × List UInt8}
    (hread : ppmReadPixels ⟨w, N, b⟩ N rs s = .ok r) :
    ∃ row σ, σ 0 = (.pnm rs, s) ∧ Streams w b N false row σ := by
  rcases ppmReadPixels_cases hfmt with h | ⟨pixel, hloop⟩
  · exact streams_ppm_bytes hw harea h hread
  · exact streams_ppm_loop hw harea hloop hread

end

/-! ### The file and the loaded image -/

/-- An image in memory. -/
structure InRam (img : Shape) : Prop where
  w : 0 < img.w
  h : 0 < img.h
  size : img.w * img.h * bppNum img.bpp ≤ ramSize

/-- A BMP file with the last line of the image first. -/
def BottomUp (file : List UInt8) : Prop :=
  file.take 2 = [0x42, 0x4D] ∧ 0 ≤ int32 (rd32 (file.drop 22))

theorem InRam.pixels {img : Shape} (hram : InRam img) (hb : img.bpp = .grayscale ∨ img.bpp = .rgb565) :
    img.w * img.h ≤ 6291456 := by
  have hsize := hram.size
  have hpos := mul_pos hram.w hram.h
  unfold ramSize at hsize
  rcases hb with hb | hb
  · rw [hb, bppNum] at hsize
    omega
  · rw [hb, bppNum] at hsize
    omega

theorem rowBytes_of_mem {w : ℤ} {bpp : ℕ} (h0 : 0 ≤ w * bpp) (h1 : w * bpp ≤ 2147483616) :
    (rowBytes w bpp : ℤ) = (w * bpp + 31) / 32 * 4 := by
  unfold rowBytes uint32
  generalize w * bpp = m at *
  rw [int32_of_mem (x := m) (by omega) (by omega), int32_of_mem (x := m + 31) (by omega) (by omega),
    Int.tdiv_eq_ediv_of_nonneg (by omega), int32_of_mem (by omega) (by omega)]
  omega

/-- For images in memory nothing wraps around. -/
theorem BmpHeader.sized {s : List UInt8} {img : Shape} {rs : BmpReadSettings} (hh : BmpHeader s img rs)
    (hram : InRam img) : BmpSized img rs := by
  have hT := hram.pixels hh.bpp_cases
  have hw0 := hram.w
  have hw : img.w ≤ 6291456 := le_trans (le_mul_of_one_le_right hw0.le hram.h) hT
  have hcols : img.w ≤ bmpCols rs ∧ bmpCols rs ≤ 2147483648 := by
    unfold bmpCols
    rw [hh.row]
    rcases hh.depth with h | h | h
    all_goals
      rw [h]
      have hrow := rowBytes_of_mem (show 0 ≤ img.w * rs.bmpBpp by rw [h]; omega) (by rw [h]; omega)
      rw [h] at hrow
      omega
  exact ⟨hh.depth, hh.row ▸ four_dvd_rowBytes _ _, ⟨hw0, by omega⟩, hcols.1, hcols.2, by omega⟩

theorem ppmReadGeometry_inv {s t : List UInt8} {img : Shape} {rs : PpmReadSettings}
    (h : ppmReadGeometry s = .ok ((img, rs), t)) :
    rs.ppmFmt ∈ [0x32, 0x33, 0x35, 0x36] ∧ (img.bpp = .grayscale ∨ img.bpp = .rgb565) := by
  obtain ⟨_, s1, -, h⟩ := Reader.bind_eq_ok.1 h
  obtain ⟨fmt, s2, -, h⟩ := Reader.bind_eq_ok.1 h
  obtain ⟨_, s3, hfmt, h⟩ := Reader.bind_eq_ok.1 h
  obtain ⟨⟨w, c1⟩, s4, -, h⟩ := Reader.bind_eq_ok.1 h
  obtain ⟨⟨h', c2⟩, s5, -, h⟩ := Reader.bind_eq_ok.1 h
  obtain ⟨_, s6, -, h⟩ := Reader.bind_eq_ok.1 h
  obtain ⟨⟨max, c3⟩, s7, -, h⟩ := Reader.bind_eq_ok.1 h
  obtain ⟨_, s8, -, h⟩ := Reader.bind_eq_ok.1 h
  simp only [Reader.pure_run, Except.ok.injEq, Prod.mk.injEq] at h
  obtain ⟨⟨rfl, rfl⟩, -⟩ := h
  have hfmt := (Reader.raiseIf_eq_ok.1 hfmt).1
  constructor
  · simp only [List.mem_cons, List.not_mem_nil, or_false]
    by_contra hne
    simp only [not_or] at hne
    exact hfmt hne
  · by_cases hg : fmt = 0x32 ∨ fmt = 0x35
    · exact .inl (if_pos hg)
    · exact .inr (if_neg hg)

/-- The file is read as lines, and they make up the loaded image. -/
structure LoadedFrom (jpeg : Fil Shape) (path : List Char) (file : List UInt8) (l : Loaded) (N : ℕ)
    (up : Bool) (row : ℕ → ℕ → ℕ) (σ : ℕ → ImgReadSettings × List UInt8) : Prop where
  h : l.shape.h = N
  up_iff : up = true ↔ BottomUp file
  geometry : imlibReadGeometry jpeg path file = .ok ((l.shape, (σ 0).1, up), (σ 0).2)
  streams : Streams l.shape.w l.shape.bpp N up row σ
  filled : ∀ mem, Filled up l.shape.w N N row mem (storeAll mem l.stores)

/-- An image that was loaded has a name that goes with its format. -/
theorem enforceExtension_of_ok {x : Fil Loaded} {path : List Char} {s : List UInt8}
    {r : Loaded × List UInt8}
    (h : (x >>= fun img => enforceExtension img.shape.bpp path >>= fun _ => pure img) s = .ok r) :
    x s = .ok r ∧ ∀ t, enforceExtension r.1.shape.bpp path t = .ok ((), t) := by
  obtain ⟨l, s', hx, h⟩ := Reader.bind_eq_ok.1 h
  obtain ⟨_, s'', he, h⟩ := Reader.bind_eq_ok.1 h
  cases Except.ok.inj h
  unfold enforceExtension at *
  cases hp : imblibParseExtension l.shape.bpp path with
  | ok f =>
    rw [hp] at he
    cases Except.ok.inj he
    exact ⟨hx, fun t => rfl⟩
  | error e =>
    rw [hp] at he
    exact nomatch he

theorem readMagic_eq_ok {s : List UInt8} {r : List UInt8 × List UInt8} (h : readMagic s = .ok r) :
    r = (s.take 2, s) := by
  unfold readMagic at h
  split at h
  · next heq =>
    obtain ⟨-, hr⟩ := (takes_readData 2).eq_ok_iff.1 heq
    cases hr
    exact (Except.ok.inj h).symm
  · exact nomatch h

/-- What is loaded from a file is what its lines fill in. -/
theorem Streams.filled {w : ℤ} {b : Bpp} {N : ℕ} {up : Bool} {row : ℕ → ℕ → ℕ}
    {σ : ℕ → ImgReadSettings × List UInt8} (hs : Streams w b N up row σ) {stores : Stores}
    (rs : ImgReadSettings) (t : List UInt8)
    (hread : imlibReadPixels ⟨w, N, b⟩ N (σ 0).1 (σ 0).2 = .ok ((stores, rs), t)) (mem : ℤ → ℕ) :
    Filled up w N N row mem (storeAll mem stores) := by
  obtain ⟨stores', hread', hfill⟩ := hs N 0 N (by omega) le_rfl le_rfl
  obtain ⟨h, -⟩ := Prod.mk.inj (Except.ok.inj (hread.symm.trans hread'))
  rw [(Prod.mk.inj h).1]
  have h := hfill mem
  simp only [Nat.zero_add] at h
  exact h

section
variable {jpeg : Fil Shape} {path : List Char} {file t : List UInt8} {l : Loaded}

theorem loadedFrom_pnm (hmagic : readMagic file = .ok (file.take 2, file)) (hpnm : isPnm (file.take 2))
    (hread : ppmRead file = .ok (l, t))
    (hext : ∀ t, enforceExtension l.shape.bpp path t = .ok ((), t)) (hram : InRam l.shape) :
    ∃ N up row σ, LoadedFrom jpeg path file l N up row σ := by
  obtain ⟨⟨img, rs⟩, s, hgeo, h⟩ := Reader.bind_eq_ok.1 hread
  obtain ⟨⟨stores, rs'⟩, s', hpix, h⟩ := Reader.bind_eq_ok.1 h
  cases Except.ok.inj h
  obtain ⟨hfmt, hb⟩ := ppmReadGeometry_inv hgeo
  have hT := hram.pixels hb
  obtain ⟨w, h, b⟩ := img
  obtain ⟨N, rfl⟩ := Int.eq_ofNat_of_zero_le hram.h.le
  dsimp only at hT hpix
  obtain ⟨row, σ, hσ, hs⟩ := streams_ppm (w := w) hram.w (by omega) hfmt hpix
  refine ⟨N, false, row, σ, rfl, ?_, ?_, hs, hs.filled (.pnm rs') t ?_⟩
  · refine ⟨Bool.noConfusion, fun h => ?_⟩
    rw [h.1] at hpnm
    exact absurd hpnm (by decide)
  · refine (Reader.bind_of_ok hmagic _).trans ?_
    rw [if_pos hpnm]
    refine (Reader.bind_of_ok hgeo _).trans ?_
    refine (Reader.bind_of_ok (hext _) _).trans ?_
    rw [hσ]
    rfl
  · rw [hσ]
    exact Reader.bind_of_ok hpix _

theorem loadedFrom_bmp (hmagic : readMagic file = .ok (file.take 2, file))
    (hbmp : file.take 2 = [0x42, 0x4D]) (hread : bmpRead file = .ok (l, t))
    (hext : ∀ t, enforceExtension l.shape.bpp path t = .ok ((), t)) (hram : InRam l.shape) :
    ∃ N up row σ, LoadedFrom jpeg path file l N up row σ := by
  obtain ⟨⟨img, rs⟩, s, hgeo, h⟩ := Reader.bind_eq_ok.1 hread
  obtain ⟨stores, s', hpix, h⟩ := Reader.bind_eq_ok.1 h
  cases Except.ok.inj h
  have hh := bmpReadGeometry_inv hgeo
  have hsz := hh.sized hram
  obtain ⟨w, h, b⟩ := img
  obtain ⟨N, rfl⟩ := Int.eq_ofNat_of_zero_le hram.h.le
  dsimp only at hpix
  have hlen : N * rs.bmpRowBytes ≤ s.length := by
    by_contra hlt
    rw [← bmpDataBytes_eq hsz le_rfl] at hlt
    obtain ⟨e, he⟩ := (bmpReadPixels_eq_ok _ _ hsz.depth hsz.row s).2 (not_le.1 hlt)
    exact nomatch hpix.symm.trans he
  have hs := streams_bmp hsz hlen
  refine ⟨N, decide (0 ≤ rs.bmpH), _, _, rfl, ?_, ?_, hs, hs.filled (.bmp rs) t ?_⟩
  · rw [decide_eq_true_iff, hh.h]
    exact ⟨fun h => ⟨hbmp, h⟩, fun h => h.2⟩
  · have hpnm : ¬ isPnm (file.take 2) := by
      rw [hbmp]
      decide
    refine (Reader.bind_of_ok hmagic _).trans ?_
    rw [if_neg hpnm, if_pos hbmp]
    refine (Reader.bind_of_ok hgeo _).trans ?_
    refine (Reader.bind_of_ok (hext _) _).trans ?_
    simp only [Nat.zero_mul, List.drop_zero]
    rfl
  · simp only [Nat.zero_mul, List.drop_zero]
    exact Reader.bind_of_ok hpix _

theorem exists_loadedFrom (jpeg : Fil Shape) {jpegLoad : Fil Loaded}
    (hload : imlibLoadImage jpegLoad path file = .ok (l, t))
    (hjpeg : file.take 2 ≠ [0xFF, 0xD8]) (hram : InRam l.shape) :
    ∃ N up row σ, LoadedFrom jpeg path file l N up row σ := by
  obtain ⟨magic, s, hm, h⟩ := Reader.bind_eq_ok.1 hload
  obtain ⟨rfl, rfl⟩ := Prod.mk.inj (readMagic_eq_ok hm)
  split_ifs at h with hpnm hbmp
  · obtain ⟨hread, hext⟩ := enforceExtension_of_ok h
    exact loadedFrom_pnm hm hpnm hread hext hram
  · obtain ⟨hread, hext⟩ := enforceExtension_of_ok h
    exact loadedFrom_bmp hm hbmp hread hext hram
  · exact nomatch h

theorem LoadedFrom.pixel {N : ℕ} {up : Bool} {row : ℕ → ℕ → ℕ} {σ : ℕ → ImgReadSettings × List UInt8}
    (hl : LoadedFrom jpeg path file l N up row σ) (mem : ℤ → ℕ) {x : ℕ} {y : ℤ}
    (hx : (x : ℤ) < l.shape.w) (hy : 0 ≤ y ∧ y < N) :
    (l.image mem).data x y = row (slot up N y.toNat).toNat x := by
  have h := (hl.filled mem).line (slot up N y.toNat).toNat x
  unfold slot at *
  cases up
  · simp only [Bool.false_eq_true, if_false, Int.toNat_of_nonneg hy.1] at *
    exact h (by omega) hx
  · simp only [if_true] at *
    rw [show (N : ℤ) - ((N - y.toNat - 1 : ℤ).toNat : ℤ) - 1 = y by omega] at h
    exact h (by omega) hx

end

/-- The operation with the file leaves the image as the operation with the loaded image does. -/
def SameAsLoaded (jpeg : Fil Shape) (avail : ℕ) (path : List Char) (file : List UInt8) (l : Loaded) :
    Prop :=
  ∀ (α : Type) (op : LineOp α) (img : ℤ → α) (mem mem' : ℤ → ℕ), ∃ img' t,
    imlibImageOperationPath jpeg avail mem l.shape path op img file = .ok (img', t) ∧
      imlibImageOperationOther l.shape l.shape (storeAll mem' l.stores) op img = .ok img'

section
variable {jpeg : Fil Shape} {path : List Char} {file : List UInt8} {l : Loaded} {N : ℕ} {up : Bool}
  {row : ℕ → ℕ → ℕ} {σ : ℕ → ImgReadSettings × List UInt8}

theorem imlibImageOperationOther_eq (hl : LoadedFrom jpeg path file l N up row σ) {α : Type}
    (op : LineOp α) (img : ℤ → α) (mem : ℤ → ℕ) :
    imlibImageOperationOther l.shape l.shape (storeAll mem l.stores) op img =
      .ok fun t => if 0 ≤ t ∧ t < N then op t (imageRow up l.shape.w N row t) (img t) else img t := by
  have htarget : (fun j : ℕ => (j : ℤ)) = fun j : ℕ => 0 + (j : ℤ) := by simp only [zero_add]
  unfold imlibImageOperationOther
  rw [if_neg (not_not.2 rfl), hl.h, Int.toNat_natCast, htarget]
  congr 1
  funext t
  rw [opLines_apply, zero_add, sub_zero]
  refine ite_congr rfl (fun ht => ?_) fun _ => rfl
  have hrow : rowOf l.shape.w (storeAll mem l.stores) t = _ :=
    rowOf_congr fun x hx => hl.pixel mem hx ht
  rw [hrow]
  rfl

theorem windowHeight_mem (h0 : 0 ≤ l.shape.h) (avail : ℕ) :
    0 ≤ windowHeight l.shape avail ∧ windowHeight l.shape avail ≤ l.shape.h :=
  ⟨le_min h0 (Int.natCast_nonneg _), min_le_left _ _⟩

theorem imlibImageOperationPath_eq (hl : LoadedFrom jpeg path file l N up row σ) {avail : ℕ}
    (hroom : windowHeight l.shape avail ≠ 0) {α : Type} (op : LineOp α) (img : ℤ → α)
    (mem : ℤ → ℕ) : ∃ t, imlibImageOperationPath jpeg avail mem l.shape path op img file =
      .ok (fun t => if 0 ≤ t ∧ t < N then op t (imageRow up l.shape.w N row
        (givenLine up N (windowHeight l.shape avail) t)) (img t) else img t, t) := by
  obtain ⟨hpos, hle⟩ := windowHeight_mem (by rw [hl.h]; exact Int.natCast_nonneg N) avail
  rw [hl.h] at hle
  obtain ⟨H, hH⟩ := Int.eq_ofNat_of_zero_le hpos
  obtain ⟨t, ht⟩ := windowLoop_ok op hl.streams (show 0 < H by omega) (by omega) N 0 0 mem img
    (Nat.zero_mul H).symm (by omega) fun h => absurd rfl h
  refine ⟨t, ?_⟩
  refine (Reader.bind_of_ok hl.geometry _).trans ?_
  refine (Reader.bind_of_ok (Reader.raiseIf_of_not (not_not.2 rfl) _ _) _).trans ?_
  refine (Reader.bind_of_ok (Reader.raiseIf_of_not hroom _ _) _).trans ?_
  rw [hl.h, hH, Int.toNat_natCast]
  refine ht.trans ?_
  congr 2
  funext t
  refine if_congr ?_ rfl rfl
  unfold LinesLeft
  cases up
  · simp
  · simp

theorem givenLine_mem {up : Bool} {N H t : ℤ} (hH : 0 < H) (hHN : H ≤ N) (ht : 0 ≤ t ∧ t < N) :
    0 ≤ givenLine up N H t ∧ givenLine up N H t < N := by
  have hr := Int.emod_lt_of_pos N hH
  have hr0 := Int.emod_nonneg N hH.ne'
  unfold givenLine
  split_ifs <;> omega

theorem imageRow_inj {w : ℤ} {N : ℕ} {up : Bool} {row : ℕ → ℕ → ℕ} {t t' : ℤ} :
    imageRow up w N row t = imageRow up w N row t' ↔ ∀ x : ℕ, (x : ℤ) < w →
      row (slot up N t.toNat).toNat x = row (slot up N t'.toNat).toNat x := by
  unfold imageRow
  rw [List.map_inj_left]
  constructor
  · intro h x hx
    exact h x (List.mem_range.2 (by omega))
  · intro h x hx
    have hx := List.mem_range.1 hx
    exact h x (by omega)

/-- The two operations agree if the operation is given the right rows, and storing the rows shows
    whether it is. -/
theorem sameAsLoaded_iff_rows (hl : LoadedFrom jpeg path file l N up row σ) {avail : ℕ}
    (hroom : windowHeight l.shape avail ≠ 0) :
    SameAsLoaded jpeg avail path file l ↔ ∀ t : ℤ, 0 ≤ t ∧ t < N →
      imageRow up l.shape.w N row (givenLine up N (windowHeight l.shape avail) t) =
        imageRow up l.shape.w N row t := by
  constructor
  · intro hsame t ht
    obtain ⟨img', s, hpath, hother⟩ := hsame (List ℕ) (fun _ r _ => r) (fun _ => []) (fun _ => 0)
      fun _ => 0
    obtain ⟨s', hpath'⟩ := imlibImageOperationPath_eq hl hroom (fun _ r _ => r) (fun _ => ([] : List ℕ))
      fun _ => 0
    rw [imlibImageOperationOther_eq hl] at hother
    have h1 := (Prod.mk.inj (Except.ok.inj (hpath'.symm.trans hpath))).1
    have h2 := congrFun (h1.trans (Except.ok.inj hother).symm) t
    simp only [if_pos ht] at h2
    exact h2
  · intro hrows α op img mem mem'
    obtain ⟨s, hpath⟩ := imlibImageOperationPath_eq hl hroom op img mem
    refine ⟨_, s, hpath, (imlibImageOperationOther_eq hl op img mem').trans ?_⟩
    congr 1
    funext t
    refine ite_congr rfl (fun ht => ?_) fun _ => rfl
    rw [hrows t ht]

end

/-- If the operations agree, the first lines of a file that is upside down are equal to those whose rows they are
    given. -/
theorem SameAsLoaded.given {jpeg : Fil Shape} {jpegLoad : Fil Loaded} {avail : ℕ} {path : List Char}
    {file t : List UInt8} {l : Loaded} (hsame : SameAsLoaded jpeg avail path file l)
    (hload : imlibLoadImage jpegLoad path file = .ok (l, t)) (hjpeg : file.take 2 ≠ [0xFF, 0xD8])
    (hram : InRam l.shape) (hroom : windowHeight l.shape avail ≠ 0) (hup : BottomUp file) (mem : ℤ → ℕ) {x : ℕ} {y : ℤ}
    (hx : x < l.shape.w) (hy0 : 0 ≤ y) (hy : y < l.shape.h % windowHeight l.shape avail) :
    (l.image mem).data x (givenLine true l.shape.h (windowHeight l.shape avail) y) = (l.image mem).data x y := by
  obtain ⟨N, up, row, σ, hl⟩ := exists_loadedFrom jpeg hload hjpeg hram
  obtain ⟨h0, hle⟩ := windowHeight_mem hram.h.le avail
  have hh := hram.h
  have hH : 0 < windowHeight l.shape avail := by omega
  rw [sameAsLoaded_iff_rows hl hroom] at hsame
  rw [hl.h] at hle hh hy ⊢
  generalize windowHeight l.shape avail = H at *
  have hlt := Int.emod_lt_of_pos (N : ℤ) hH
  obtain rfl := hl.up_iff.2 hup
  have hyN : 0 ≤ y ∧ y < N := by omega
  rw [hl.pixel mem hx hyN, hl.pixel mem hx (givenLine_mem hH hle hyN)]
  exact imageRow_inj.1 (hsame y hyN) x hx

/-- The operation with a file is the one with the loaded image, except for files that are upside down
    and have a height that is no multiple of that of the window: there the first lines of the image are
    given other rows, and have to be equal to them. -/
theorem image_operation_file_iff (jpeg : Fil Shape) (jpegLoad : Fil Loaded) (avail : ℕ)
    (path : List Char) (file t : List UInt8) (l : Loaded)
    (hload : imlibLoadImage jpegLoad path file = .ok (l, t)) (hjpeg : file.take 2 ≠ [0xFF, 0xD8])
    (hram : InRam l.shape) (hroom : windowHeight l.shape avail ≠ 0) :
    SameAsLoaded jpeg avail path file l ↔ (BottomUp file → ∀ (mem : ℤ → ℕ) (x : ℕ) (y : ℤ),
      x < l.shape.w → 0 ≤ y → y < l.shape.h % windowHeight l.shape avail →
      (l.image mem).data x (givenLine true l.shape.h (windowHeight l.shape avail) y) =
        (l.image mem).data x y) := by
  refine ⟨fun hsame hup mem x y hx hy0 hy => hsame.given hload hjpeg hram hroom hup mem hx hy0 hy, fun hrows => ?_⟩
  obtain ⟨N, up, row, σ, hl⟩ := exists_loadedFrom jpeg hload hjpeg hram
  obtain ⟨h0, hle⟩ := windowHeight_mem hram.h.le avail
  have hH : 0 < windowHeight l.shape avail := by omega
  rw [sameAsLoaded_iff_rows hl hroom]
  rw [hl.h] at hle hrows
  generalize windowHeight l.shape avail = H at *
  intro y hyN
  by_cases hgiven : up = true ∧ y < N % H
  · obtain ⟨rfl, hy⟩ := hgiven
    refine imageRow_inj.2 fun x hx => ?_
    have h := hrows (hl.up_iff.1 rfl) (fun _ => 0) x y hx hyN.1 hy
    rw [hl.pixel _ hx hyN, hl.pixel _ hx (givenLine_mem hH hle hyN)] at h
    exact h
  · rw [givenLine, if_neg hgiven]

/-- The header of 240 lines of 320 pixels, upside down, with 24 bits for a pixel. -/
def pictureHeader : List UInt8 :=
  ([0x42, 0x4D] : List UInt8) ++ le32 230454 ++ le16 0 ++ le16 0 ++ le32 54 ++ le32 40 ++ le32 320 ++ le32 240 ++
    le16 1 ++ le16 24 ++ le32 0 ++ le32 230400 ++ le32 0 ++ le32 0 ++ le32 0 ++ le32 0

/-- Twelve black lines, with white ones below them. -/
def pictureLines : List UInt8 := List.replicate (228 * 960) 255 ++ List.replicate (12 * 960) 0

def pictureSettings : BmpReadSettings := ⟨320, 240, 24, 0, 960⟩

theorem bmpReadGeometry_pictureHeader (t : List UInt8) :
    bmpReadGeometry (pictureHeader ++ t) = .ok ((⟨320, 240, .rgb565⟩, pictureSettings), t) := by
  unfold bmpReadGeometry pictureHeader
  simp only [List.append_assoc, List.cons_append, List.nil_append]
  rw [Reader.bind_of_ok (readByteExpect_cons _ _), Reader.bind_of_ok (readByteExpect_cons _ _),
    Reader.bind_of_ok (readLong_le32 _ _),
    Reader.bind_of_ok (takes_readWordIgnore.ok _ _ (length_le16 0)),
    Reader.bind_of_ok (takes_readWordIgnore.ok _ _ (length_le16 0)),
    Reader.bind_of_ok (readLong_le32 _ _),
    Reader.bind_of_ok (Reader.raiseIf_of_not (by decide) _ _),
    Reader.bind_of_ok (Reader.raiseIf_of_not (by decide) _ _),
    Reader.bind_of_ok (readLong_le32 _ _),
    Reader.bind_of_ok (Reader.raiseIf_of_not (by decide) _ _),
    Reader.bind_of_ok (readLong_le32 _ _), Reader.bind_of_ok (readLong_le32 _ _),
    Reader.bind_of_ok (Reader.raiseIf_of_not (by decide) _ _),
    Reader.bind_of_ok (readWordExpect_le16 (by decide) _),
    Reader.bind_of_ok (readWord_le16 _ _),
    Reader.bind_of_ok (Reader.raiseIf_of_not (by decide) _ _),
    Reader.bind_of_ok (readLong_le32 _ _),
    Reader.bind_of_ok (Reader.raiseIf_of_not (by decide) _ _),
    Reader.bind_of_ok (readLongExpect_le32 (by decide) _),
    Reader.bind_of_ok (readLongsIgnore_zeros _)]
  rfl

/-- The first pixel of a line of the file. -/
theorem bmpValue_pictureLines {i : ℕ} (hi : i < 240) : bmpValue pictureSettings
    (bmpLineBytes pictureSettings pictureLines i) 0 = if i < 228 then 65535 else 0 := by
  have htake : ∀ b : UInt8, ∀ n, ∀ t : List UInt8, 3 ≤ n → (List.replicate n b ++ t).take 3 = [b, b, b] := by
    rintro b (_ | _ | _ | n) t hn
    all_goals simp_all [List.replicate_succ]
  have hbytes : ((bmpLineBytes pictureSettings pictureLines i).drop 0).take 3 =
      if i < 228 then [255, 255, 255] else [0, 0, 0] := by
    rw [List.drop_zero, bmpLineBytes, List.take_take]
    simp only [pictureSettings, pictureLines]
    split_ifs with h
    · rw [List.drop_append_of_le_length (by rw [List.length_replicate]; omega), List.drop_replicate]
      exact htake _ _ _ (by omega)
    · rw [List.drop_append, List.drop_eq_nil_of_le (by rw [List.length_replicate]; omega), List.nil_append,
        List.length_replicate, List.drop_replicate, ← List.append_nil (List.replicate _ _)]
      exact htake _ _ _ (by omega)
  have hvalue : ∀ b : List UInt8, bmpPixel 24 b = colorR8G8B8ToRgb565 (b.getD 2 0).toNat (b.getD 1 0).toNat
      (b.getD 0 0).toNat := fun b => rfl
  have hdepth : pictureSettings.bmpBpp = 24 := rfl
  rw [bmpValue, hdepth, Nat.zero_mul, hbytes]
  split_ifs
  · decide
  · decide

theorem pictureBmp_loads (jpegLoad : Fil Loaded) : ∃ l t,
    imlibLoadImage jpegLoad ['a', '.', 'b', 'm', 'p'] (pictureHeader ++ pictureLines) = .ok (l, t) ∧
      l.shape = ⟨320, 240, .rgb565⟩ ∧
      ∀ (mem : ℤ → ℕ) (y : ℤ), 0 ≤ y → y < 240 → (l.image mem).data 0 y = if y < 12 then 0 else 65535 := by
  have hsz : BmpSized ⟨320, 240, .rgb565⟩ pictureSettings :=
    ⟨by decide, by decide, by decide, by decide, by decide, by decide⟩
  have hlen : pictureLines.length = 240 * pictureSettings.bmpRowBytes := by
    simp only [pictureLines, List.length_append, List.length_replicate, pictureSettings]
  obtain ⟨stores, hread, hholds⟩ := bmpReadPixels_holds hsz (n := 240) (s := pictureLines) le_rfl hlen.ge
  have hbmp := bmpRead_of_ok (bmpReadGeometry_pictureHeader pictureLines) hread
  have hmagic : readMagic (pictureHeader ++ pictureLines) = .ok ([0x42, 0x4D], pictureHeader ++ pictureLines) := by
    have h := (takes_readData 2).ok [0x42, 0x4D] (pictureHeader.drop 2 ++ pictureLines) rfl
    unfold readMagic
    rw [show pictureHeader ++ pictureLines = [0x42, 0x4D] ++ (pictureHeader.drop 2 ++ pictureLines) from rfl, h]
    rfl
  refine ⟨⟨⟨320, 240, .rgb565⟩, allocSize ⟨320, 240, .rgb565⟩, stores⟩,
    pictureLines.drop (240 * pictureSettings.bmpRowBytes), ?_, rfl, fun mem y hy0 hy => ?_⟩
  · refine (Reader.bind_of_ok hmagic _).trans ?_
    rw [if_neg (by decide), if_pos rfl]
    refine (Reader.bind_of_ok hbmp _).trans ?_
    exact Reader.bind_of_ok rfl _
  · have hline := (hholds mem).line (239 - y).toNat 0 (by omega) (by decide)
    rw [bmpValue_pictureLines (by omega), bmpY_eq_slot] at hline
    have hslot : slot (0 ≤ pictureSettings.bmpH) 240 (239 - y).toNat = y := by
      unfold slot
      rw [if_pos (by decide)]
      omega
    have hcol : bmpX ⟨320, 240, .rgb565⟩ pictureSettings 0 = 0 := by decide
    rw [hslot, hcol] at hline
    refine hline.trans ?_
    split_ifs <;> omega

/-- With a window of 76 lines the last portion is 12 lines, and line 0 of the image is given the row of line 12. -/
theorem image_operation_picture : ∃ l t,
    imlibLoadImage (fun _ => .error .unsupportedFormat) ['a', '.', 'b', 'm', 'p'] (pictureHeader ++ pictureLines) =
        .ok (l, t) ∧
      windowHeight l.shape 98304 = 76 ∧
      ¬ SameAsLoaded (fun _ => .error .unsupportedFormat) 98304 ['a', '.', 'b', 'm', 'p']
        (pictureHeader ++ pictureLines) l := by
  obtain ⟨l, t, hload, hshape, hpixel⟩ := pictureBmp_loads fun _ => .error .unsupportedFormat
  have hheight : windowHeight l.shape 98304 = 76 := by
    rw [hshape]
    decide
  have hmagic : (pictureHeader ++ pictureLines).take 2 = [0x42, 0x4D] := rfl
  have hup : rd32 ((pictureHeader ++ pictureLines).drop 22) = 240 := rfl
  refine ⟨l, t, hload, hheight, fun hsame => ?_⟩
  have hgiven := hsame.given hload (by rw [hmagic]; decide) (by rw [hshape]; exact ⟨by decide, by decide, by decide⟩)
    (by rw [hheight]; decide) ⟨hmagic, by rw [hup]; decide⟩ (fun _ => 0) (x := 0) (y := 0) (by rw [hshape]; decide)
    le_rfl (by rw [hheight, hshape]; decide)
  have hline : givenLine true l.shape.h (windowHeight l.shape 98304) 0 = 12 := by
    rw [hheight, hshape]
    decide
  rw [hline, Nat.cast_zero, hpixel _ 12 (by decide) (by decide), hpixel _ 0 le_rfl (by decide)] at hgiven
  exact absurd hgiven (by decide)

/-- A file of 66 bytes, upside down: an image of one column whose pixels are 3, 2 and 1. -/
def columnBmp : List UInt8 :=
  ([0x42, 0x4D] : List UInt8) ++ le32 66 ++ le16 0 ++ le16 0 ++ le32 54 ++ le32 40 ++ le32 1 ++ le32 3 ++
    le16 1 ++ le16 24 ++ le32 0 ++ le32 12 ++ le32 0 ++ le32 0 ++ le32 0 ++ le32 0 ++
    [8, 0, 0, 0, 16, 0, 0, 0, 24, 0, 0, 0]

theorem columnBmp_loads (jpegLoad : Fil Loaded) : ∃ l t,
    imlibLoadImage jpegLoad ['a', '.', 'b', 'm', 'p'] columnBmp = .ok (l, t) ∧
      l.shape = ⟨1, 3, .rgb565⟩ ∧ l.stores = [(2, 1), (1, 2), (0, 3)] :=
  ⟨_, _, rfl, by decide, by decide⟩

/-- Its lines are all read at once. -/
theorem image_operation_column_whole : ∃ l t,
    imlibLoadImage (fun _ => .error .unsupportedFormat) ['a', '.', 'b', 'm', 'p'] columnBmp = .ok (l, t) ∧
      SameAsLoaded (fun _ => .error .unsupportedFormat) 98304 ['a', '.', 'b', 'm', 'p'] columnBmp l := by
  obtain ⟨l, t, hload, hshape, -⟩ := columnBmp_loads fun _ => .error .unsupportedFormat
  refine ⟨l, t, hload, ?_⟩
  refine (image_operation_file_iff _ _ 98304 _ _ _ _ hload (by decide) ?_ ?_).2 ?_
  · rw [hshape]
    exact ⟨by decide, by decide, by decide⟩
  · rw [hshape]
    decide
  · intro _ mem x y _ hy0 hy
    have hmod : l.shape.h % windowHeight l.shape 98304 = 0 := by
      rw [hshape]
      decide
    rw [hmod] at hy
    exact absurd hy0 (not_le.2 hy)

end OpenMV.Io
