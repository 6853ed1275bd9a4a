import OpenMV.Schemes.ScanFill
import OpenMV.Vision.Image

/-! Flood fill | scheme:worklist | source:src/src/openmv/omv/img/blob.c

    `imlib_flood_fill_int` grows a region from a seed pixel. A pixel joins when its colour is within
    the seed threshold of the seed and within the floating threshold of the pixel it was reached
    from, so which pixels belong depends on the paths there. The fill saves its contexts as `xylr_t`,
    six `int16_t`; in an image that fits into that type it computes the reachable pixels, and in a
    wider one it does not. -/

namespace OpenMV.Vision
open Schemes.ScanFill

/-- `xylr_t`: a context as it is stored in the lifo. -/
def xylr (c : Ctx) : Ctx := ⟨int16 c.x, int16 c.y, int16 c.l, int16 c.r, int16 c.tl, int16 c.bl⟩

theorem xylr_of_fits {G : Grid} (hx0 : -32768 ≤ G.x0) (hx1 : G.x1 ≤ 32767) (hy0 : -32768 ≤ G.y0)
    (hy1 : G.y1 ≤ 32768) {c : Ctx} (hc : c.Fits G) : xylr c = c := by
  obtain ⟨⟨h1, h2⟩, ⟨h3, h4⟩, ⟨h5, h6, h7⟩, ⟨h8, h9⟩, ⟨h10, h11⟩⟩ := hc
  unfold xylr
  rw [int16_of_mem, int16_of_mem, int16_of_mem, int16_of_mem, int16_of_mem, int16_of_mem] <;> omega

/-- The pixels a flood fill may step to: within `seed_threshold` of the seed and within
    `floating_threshold` of the pixel it comes from. -/
def floodEdge (img : Image) (seed : Cell) (seedThreshold floatingThreshold : ℤ) (p q : Cell) : Bool :=
  colorBound img.bpp (img.pixel q.1 q.2) (img.pixel seed.1 seed.2) seedThreshold &&
  colorBound img.bpp (img.pixel q.1 q.2) (img.pixel p.1 p.2) floatingThreshold

/-- The three loops of `imlib_flood_fill_int`, which differ in the pixel macros only. The client's
    value is the list of the calls of `cb`, in their order. -/
def floodFill (lifoLen : ℕ) (img : Image) (seed : Cell) (seedThreshold floatingThreshold : ℤ) :
    Machine (List Span) where
  x0 := 0
  x1 := img.w
  y0 := 0
  y1 := img.h
  edge := floodEdge img seed seedThreshold floatingThreshold
  cap := lifoLen
  pack := xylr
  hooks :=
    { mark := fun calls _ => calls
      miss := fun calls _ _ _ => calls
      border := fun calls _ => calls
      full := fun calls _ => calls
      finish := fun calls sp => calls ++ [sp] }

/-- The fill of `out`, for at most `fuel` rounds. The other formats are left alone. -/
def imlibFloodFillInt (lifoLen fuel : ℕ) (out : Cell → Bool) (img : Image) (x y : ℤ)
    (seedThreshold floatingThreshold : ℤ) : Option (State (List Span)) :=
  let s := start out (x, y) []
  match img.bpp with
  | .binary | .grayscale | .rgb565 =>
    (floodFill lifoLen img (x, y) seedThreshold floatingThreshold).exec fuel s
  | .bayer | .jpeg => some { s with ctl := .done }

/-- One step of the region: to a 4-neighbour in the image that is within both thresholds. -/
def FloodStep (img : Image) (seed : Cell) (seedThreshold floatingThreshold : ℤ) (p q : Cell) : Prop :=
  Adj p q ∧ img.Mem q ∧
  colorBound img.bpp (img.pixel q.1 q.2) (img.pixel seed.1 seed.2) seedThreshold = true ∧
  colorBound img.bpp (img.pixel q.1 q.2) (img.pixel p.1 p.2) floatingThreshold = true

/-- The region: the seed and every pixel reachable from it. -/
def FloodReach (img : Image) (seed : Cell) (seedThreshold floatingThreshold : ℤ) : Cell → Prop :=
  Relation.ReflTransGen (FloodStep img seed seedThreshold floatingThreshold) seed

section

variable {lifoLen : ℕ} {img : Image} {seed : Cell} {seedThreshold floatingThreshold : ℤ}

theorem floodFill_reach_iff {p : Cell} :
    (floodFill lifoLen img seed seedThreshold floatingThreshold).Reach (fun _ => false) seed p ↔
      FloodReach img seed seedThreshold floatingThreshold p := by
  have : (floodFill lifoLen img seed seedThreshold floatingThreshold).Link (fun _ => false) =
      FloodStep img seed seedThreshold floatingThreshold := by
    funext p q
    simp only [Grid.Link, FloodStep, floodFill, floodEdge, Grid.Mem, Image.Mem, Bool.and_eq_true,
      and_true]
  rw [Grid.Reach, FloodReach, this]

theorem floodFill_untouched :
    Untouched (floodFill lifoLen img seed seedThreshold floatingThreshold) id :=
  ⟨fun _ _ _ _ => rfl, fun _ _ => rfl, fun _ _ => rfl⟩

/-- The calls of `cb` are the finished spans, in the order they were finished. -/
theorem floodFill_calls {fuel : ℕ} {vis : Cell → Bool} {s : State (List Span)}
    (hx : (floodFill lifoLen img seed seedThreshold floatingThreshold).exec fuel
      (start vis seed []) = some s) : s.acc = s.finished.reverse := by
  have h := exec_finished floodFill_untouched (fun calls sp => calls ++ [sp]) (fun _ _ => rfl)
    (fun _ _ => rfl) hx
  rw [id, id] at h
  rw [h]
  induction s.finished with
  | nil => rfl
  | cons sp rest ih => rw [List.foldr_cons, ih, List.reverse_cons]

end

/-- In an image whose columns and rows fit the lifo's `int16_t`, the fill ends; unless the lifo ran
    full, `out` is the set of the pixels reachable from the seed, and `cb` is called once for each
    filled span, with spans that are pairwise disjoint and cover that set. -/
theorem imlib_flood_fill_int_reach (img : Image)
    (hbpp : img.bpp = .binary ∨ img.bpp = .grayscale ∨ img.bpp = .rgb565)
    (hw : img.w ≤ 32767) (hh : img.h ≤ 32768) (x y : ℤ) (hseed : img.Mem (x, y))
    (seedThreshold floatingThreshold : ℤ) (lifoLen fuel : ℕ)
    (hfuel : 3 * (img.w.toNat * img.h.toNat) ≤ fuel) :
    ∃ s, imlibFloodFillInt lifoLen fuel (fun _ => false) img x y seedThreshold floatingThreshold =
        some s ∧
      (s.full = false →
        (∀ p, s.vis p = true ↔ FloodReach img (x, y) seedThreshold floatingThreshold p) ∧
        s.acc.Perm s.marked ∧ s.acc.Pairwise Span.Apart ∧ (∀ sp ∈ s.acc, sp.l ≤ sp.r) ∧
        ∀ p, (∃ sp ∈ s.acc, p ∈ sp) ↔ FloodReach img (x, y) seedThreshold floatingThreshold p) := by
  obtain ⟨s, hx, hperm, hne, hapart, -, hvis, hreach, hall⟩ :=
    fill_spec (M := floodFill lifoLen img (x, y) seedThreshold floatingThreshold)
      (fun c hc => xylr_of_fits (by simp [floodFill]) hw (by simp [floodFill]) hh hc)
      (fun _ => false) (x, y) hseed rfl [] (by simpa [floodFill] using hfuel)
  have hcalls := floodFill_calls hx
  have hacc : s.acc.Perm s.marked := hcalls ▸ (List.reverse_perm _).trans hperm
  refine ⟨s, by rcases hbpp with h | h | h <;> simp only [imlibFloodFillInt, h] <;> exact hx, ?_⟩
  intro hf
  have hmarked : ∀ p, s.Marked p ↔ FloodReach img (x, y) seedThreshold floatingThreshold p := fun p =>
    ⟨fun hp => floodFill_reach_iff.mp (hreach p hp), fun hp => hall hf p (floodFill_reach_iff.mpr hp)⟩
  refine ⟨fun p => ?_, hacc, ?_, fun sp hsp => hne sp (hacc.subset hsp), fun p => ?_⟩
  · rw [hvis, ← hmarked]
    simp
  · exact hacc.symm.pairwise hapart fun h => Span.Apart.symm h
  · rw [← hmarked]
    exact ⟨fun ⟨sp, hsp, hp⟩ => ⟨sp, hacc.subset hsp, hp⟩,
      fun ⟨sp, hsp, hp⟩ => ⟨sp, hacc.symm.subset hsp, hp⟩⟩

/-- A grayscale image of two rows of three pixels, with a bright pixel in the middle of the first. -/
def smallImage : Image := ⟨3, 2, .grayscale, fun x y => if x = 1 ∧ y = 0 then 200 else 10⟩

theorem imlib_flood_fill_int_reach_small :
    ∃ s, imlibFloodFillInt 8192 18 (fun _ => false) smallImage 0 0 5 5 = some s ∧
      s.full = false ∧ s.acc = [⟨0, 2, 2⟩, ⟨1, 0, 2⟩, ⟨0, 0, 0⟩] ∧
      ∀ p, s.vis p = true ↔ FloodReach smallImage (0, 0) 5 5 p := by
  obtain ⟨s, hs, h⟩ := imlib_flood_fill_int_reach smallImage (.inr (.inl rfl)) (by decide) (by decide)
    0 0 ⟨by decide, by decide, by decide, by decide⟩ 5 5 8192 18 (by decide)
  have hrun : (imlibFloodFillInt 8192 18 (fun _ => false) smallImage 0 0 5 5).map
      (fun s => (s.full, s.acc)) = some (false, [⟨0, 2, 2⟩, ⟨1, 0, 2⟩, ⟨0, 0, 0⟩]) := by
    decide
  rw [hs, Option.map_some, Option.some.injEq, Prod.mk.injEq] at hrun
  exact ⟨s, hs, hrun.1, hrun.2, (h hrun.1).1⟩

/-- An image one column too wide for `int16_t`, dark but for its last column. -/
def wideImage : Image := ⟨32769, 2, .binary, fun x _ => if x = 32768 then 1 else 0⟩

/-- There the saved context comes back with its columns negative, and `cb` is called for a span
    outside the image. -/
theorem flood_fill_wide_span :
    ∃ s, imlibFloodFillInt 8192 200000 (fun _ => false) wideImage 32768 0 0 0 = some s ∧
      s.full = false ∧
      ¬ ∀ p, (∃ sp ∈ s.acc, p ∈ sp) ↔ FloodReach wideImage (32768, 0) 0 0 p := by
  have hrun : (imlibFloodFillInt 8192 200000 (fun _ => false) wideImage 32768 0 0 0).map
      (fun s => (s.full, s.acc)) = some (false, [⟨1, 32768, 32768⟩, ⟨0, -32768, -32768⟩]) := by
    decide
  rcases hs : imlibFloodFillInt 8192 200000 (fun _ => false) wideImage 32768 0 0 0 with _ | s
  · simp [hs] at hrun
  rw [hs, Option.map_some, Option.some.injEq, Prod.mk.injEq] at hrun
  refine ⟨s, rfl, hrun.1, fun h => ?_⟩
  have hreach : FloodReach wideImage (32768, 0) 0 0 (-32768, 0) :=
    (h (-32768, 0)).mp ⟨⟨0, -32768, -32768⟩, by simp [hrun.2], rfl, le_rfl, le_rfl⟩
  cases hreach with
  | tail _ hstep =>
    have := hstep.2.1.1
    simp at this

end OpenMV.Vision
