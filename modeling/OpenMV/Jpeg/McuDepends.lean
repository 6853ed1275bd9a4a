import OpenMV.Jpeg.Mcu
import OpenMV.Schemes.Stores

/-! What a compressed image depends on | scheme:footprint | source:src/src/openmv/omv/img/jpeg.c

    The stream is made from the tables and from the samples. The tables are those of the quality, unless
    that is 100 and nothing else was compressed before: then they are all zero, since `q` is zero for no
    tables and for the best ones. The samples come from the image alone if nothing outside of it is read
    and the first block fills the arrays. -/

namespace OpenMV.Jpeg
open Schemes

/-! ### Samples -/

/-- The arrays agree wherever a data unit or the blending looks. -/
def AgreeOn (span : Loc → Prop) (b b' : Bufs) : Prop := ∀ l, span l → b l = b' l

/-- The arrays are as large as `span` says, and the first block fills them. -/
structure Plan.Filled (p : Plan) (span : Loc → Prop) : Prop where
  blend : ∀ {b b'}, AgreeOn span b b' → AgreeOn span (p.blend b) (p.blend b')
  units : ∀ u ∈ p.units, ∀ i < 64, span (u.1, u.2 + i)
  head : ∃ xys gs, p.mcus = ((0, 0) :: xys) :: gs
  first : ∀ l, span l → l ∈ (p.stores 0 0).map Prod.fst

section Agree

variable {p : Plan} {span : Loc → Prop} {m m' : ℤ → ℕ}

/-- The memories agree on what is read for a block. -/
def SameFor (p : Plan) (m m' : ℤ → ℕ) (xy : ℕ × ℕ) : Prop :=
  ∀ s ∈ p.stores xy.1 xy.2, ∀ a ∈ s.2.reads, m a = m' a

theorem Plan.Filled.mcu (hp : p.Filled span) {xy : ℕ × ℕ} (hm : SameFor p m m' xy) {b b' : Bufs}
    (hb : ∀ l, span l → b l = b' l ∨ l ∈ (p.stores xy.1 xy.2).map Prod.fst) :
    AgreeOn span (p.mcu m b xy) (p.mcu m' b' xy) :=
  hp.blend (storeFetched_agree hm hb)

theorem Plan.Filled.samples (hp : p.Filled span) {b b' : Bufs} (hb : AgreeOn span b b') :
    p.units.map (fun l => (l.1, samplesAt b l)) = p.units.map fun l => (l.1, samplesAt b' l) := by
  refine List.map_congr_left fun u hu => Prod.ext rfl ?_
  exact List.map_congr_left fun i hi => hb _ (hp.units u hu i (List.mem_range.1 hi))

theorem Plan.Filled.group (hp : p.Filled span) : ∀ {xys : List (ℕ × ℕ)} {b b' : Bufs},
    (∀ xy ∈ xys, SameFor p m m' xy) → AgreeOn span b b' →
    (p.group m b xys).1 = (p.group m' b' xys).1 ∧
      AgreeOn span (p.group m b xys).2 (p.group m' b' xys).2
  | [], _, _, _, hb => ⟨rfl, hb⟩
  | xy :: xys, b, b', hm, hb => by
    have hmcu := hp.mcu (hm xy (List.mem_cons_self ..)) fun l hl => .inl (hb l hl)
    obtain ⟨h1, h2⟩ := hp.group (fun q hq => hm q (List.mem_cons_of_mem _ hq)) hmcu
    rw [Plan.group, Plan.group, hp.samples hmcu, h1]
    exact ⟨rfl, h2⟩

theorem Plan.Filled.groups_of_agree (hp : p.Filled span) : ∀ {gs : List (List (ℕ × ℕ))} {b b' : Bufs},
    (∀ xy ∈ gs.flatten, SameFor p m m' xy) → AgreeOn span b b' → p.groups m b gs = p.groups m' b' gs
  | [], _, _, _, _ => rfl
  | g :: gs, b, b', hm, hb => by
    obtain ⟨h1, h2⟩ := hp.group (fun q hq => hm q (List.mem_append_left _ hq)) hb
    rw [Plan.groups, Plan.groups, h1,
      hp.groups_of_agree (fun q hq => hm q (List.mem_append_right _ hq)) h2]

/-- With the first block filling the arrays, it does not matter what was in them. -/
theorem Plan.Filled.groups (hp : p.Filled span) (b b' : Bufs) (hm : ∀ a ∈ p.reads, m a = m' a) :
    p.groups m b p.mcus = p.groups m' b' p.mcus := by
  have hsame : ∀ xy ∈ p.mcus.flatten, SameFor p m m' xy := by
    intro xy hxy s hs a ha
    exact hm a (List.mem_flatMap.2 ⟨xy, hxy, List.mem_flatMap.2 ⟨s, hs, ha⟩⟩)
  obtain ⟨xys, gs, hmcus⟩ := hp.head
  rw [hmcus] at hsame ⊢
  have hfirst : AgreeOn span (p.mcu m b (0, 0)) (p.mcu m' b' (0, 0)) :=
    hp.mcu (hsame (0, 0) (by simp)) fun l hl => .inr (hp.first l hl)
  have hrest : ∀ xy ∈ xys, SameFor p m m' xy :=
    fun q hq => hsame q (List.mem_append_left _ (List.mem_cons_of_mem _ hq))
  obtain ⟨h1, h2⟩ := hp.group hrest hfirst
  rw [Plan.groups, Plan.groups, Plan.group, Plan.group, hp.samples hfirst, h1,
    hp.groups_of_agree (fun q hq => hsame q (List.mem_append_right _ hq)) h2]

end Agree

/-! ### Tables -/

theorem foldl_set_congr {α : Type} (z : ℕ → ℕ) (f : ℕ → α) : ∀ (is : List ℕ) {t t' : List α},
    t.length = t'.length → (∀ p, p ∉ is.map z → t[p]? = t'[p]?) →
    is.foldl (fun t i => t.set (z i) (f i)) t = is.foldl (fun t i => t.set (z i) (f i)) t'
  | [], _, _, _, h => List.ext_getElem? fun p => h p List.not_mem_nil
  | i :: is, t, t', hlen, h => by
    refine foldl_set_congr z f is (by simpa using hlen) fun p hp => ?_
    by_cases hpi : z i = p
    · rw [List.getElem?_set, List.getElem?_set, if_pos hpi, if_pos hpi, hlen]
    · rw [List.getElem?_set_ne hpi, List.getElem?_set_ne hpi]
      refine h p fun hmem => ?_
      rcases List.mem_cons.1 hmem with he | hmem
      · exact hpi he.symm
      · exact hp hmem

/-- Every entry of a table is set. -/
theorem scaleTable_congr (qt : List ℕ) (quality : ℕ) {t t' : List UInt8} (ht : t.length = 64)
    (ht' : t'.length = 64) : scaleTable qt quality t = scaleTable qt quality t' := by
  refine foldl_set_congr _ _ _ (ht.trans ht'.symm) fun p hp => ?_
  have hge : 64 ≤ p := by rwa [map_zigZag, mem_zigZag, not_lt] at hp
  rw [List.getElem?_eq_none (ht ▸ hge), List.getElem?_eq_none (ht' ▸ hge)]

/-- The quality as the tables are scaled with it. -/
def scaling (quality : ℕ) : ℕ := if quality < 50 then 5000 / quality else 200 - quality * 2

/-- Tables that are kept are those of the quality they are kept for, unless that is not one. -/
def Kept (t : QuantTables) : Prop := t.q ≠ 0 → ∀ z : List UInt8, z.length = 64 →
  t.yTable = scaleTable yqt t.q z ∧ t.uvTable = scaleTable uvqt t.q z

theorem jpegInit_of_eq {t : QuantTables} {quality : ℕ} (h : t.q = scaling quality) :
    jpegInit t quality = t := if_neg (not_not.2 h)

theorem jpegInit_of_ne {t : QuantTables} {quality : ℕ} (h : t.q ≠ scaling quality) :
    (jpegInit t quality).q = scaling quality ∧
      (jpegInit t quality).yTable = scaleTable yqt (scaling quality) t.yTable ∧
      (jpegInit t quality).uvTable = scaleTable uvqt (scaling quality) t.uvTable := by
  have hinit : jpegInit t quality = ⟨scaling quality, scaleTable yqt (scaling quality) t.yTable,
      scaleTable uvqt (scaling quality) t.uvTable, (length_scaleTable _ _ _).trans t.yTable_length,
      (length_scaleTable _ _ _).trans t.uvTable_length⟩ := if_pos h
  refine ⟨?_, ?_, ?_⟩
  · rw [hinit]
  · rw [hinit]
  · rw [hinit]

theorem q_jpegInit (t : QuantTables) (quality : ℕ) : (jpegInit t quality).q = scaling quality := by
  by_cases hq : t.q = scaling quality
  · rw [jpegInit_of_eq hq, hq]
  · exact (jpegInit_of_ne hq).1

theorem quantTables_eq : ∀ {t t' : QuantTables}, t.q = t'.q → t.yTable = t'.yTable →
    t.uvTable = t'.uvTable → t = t'
  | ⟨_, _, _, _, _⟩, ⟨_, _, _, _, _⟩, rfl, rfl, rfl => rfl

theorem kept_jpegInit {t : QuantTables} (h : Kept t) (quality : ℕ) : Kept (jpegInit t quality) := by
  by_cases hq : t.q = scaling quality
  · rwa [jpegInit_of_eq hq]
  · obtain ⟨h1, h2, h3⟩ := jpegInit_of_ne hq
    intro _ z hz
    rw [h1, h2, h3]
    exact ⟨scaleTable_congr _ _ t.yTable_length hz, scaleTable_congr _ _ t.uvTable_length hz⟩

theorem kept_tablesAfter (before : List ℕ) : Kept (tablesAfter before) := by
  have hrun : ∀ (qs : List ℕ) {t : QuantTables}, Kept t → Kept (qs.foldl jpegInit t) := by
    intro qs
    induction qs with
    | nil => exact id
    | cons q qs ih => exact fun ht => ih (kept_jpegInit ht q)
  exact hrun before fun h0 => absurd rfl h0

/-- Whatever was compressed before, the tables are the same, if only their quality is told from none. -/
theorem jpegInit_congr {t t' : QuantTables} (h : Kept t) (h' : Kept t') {quality : ℕ}
    (hq : scaling quality ≠ 0) : jpegInit t quality = jpegInit t' quality := by
  have hqs : (jpegInit t quality).q = (jpegInit t' quality).q := by rw [q_jpegInit, q_jpegInit]
  have hne : (jpegInit t' quality).q ≠ 0 := by rwa [q_jpegInit]
  obtain ⟨hy, huv⟩ := kept_jpegInit h quality (hqs ▸ hne) t.yTable t.yTable_length
  obtain ⟨hy', huv'⟩ := kept_jpegInit h' quality hne t.yTable t.yTable_length
  exact quantTables_eq hqs (by rw [hy, hy', hqs]) (by rw [huv, huv', hqs])

/-! ### Addresses -/

/-- The pixel in a row and a column of the image. -/
theorem inImage_of_lt {w h bpp : ℕ} (hbpp : bpp ≠ 0) {row col : ℕ} (hrow : row < h) (hcol : col < w)
    {a : ℤ} (ha : a = row * w + col) : InImage ⟨w, h, bpp⟩ a := by
  rw [InImage, if_neg hbpp, ha]
  exact rowMajor_mem ⟨Int.natCast_nonneg _, Int.ofNat_lt.2 hcol⟩
    ⟨Int.natCast_nonneg _, Int.ofNat_lt.2 hrow⟩

/-- Every address read for the block is a pixel of the image. -/
def ReadsInside (src : Source) (ss : McuStores) : Prop := ∀ s ∈ ss, ∀ a ∈ s.2.reads, InImage src a

section Reads

variable {w h bpp : ℕ} {src : Source}

theorem readsInside_append {ss ts : McuStores} (hs : ReadsInside src ss) (ht : ReadsInside src ts) :
    ReadsInside src (ss ++ ts) := by
  intro s hmem
  rcases List.mem_append.1 hmem with hmem | hmem
  · exact hs s hmem
  · exact ht s hmem

theorem readsInside_flatMap {n : ℕ} {f : ℕ → McuStores} (hf : ∀ i < n, ReadsInside src (f i)) :
    ReadsInside src ((List.range n).flatMap f) := by
  intro s hmem
  obtain ⟨i, hi, hmem⟩ := List.mem_flatMap.1 hmem
  exact hf i (List.mem_range.1 hi) s hmem

theorem readsInside_map {n : ℕ} {f : ℕ → Loc × Fetch ℤ}
    (hf : ∀ i < n, ∀ a ∈ (f i).2.reads, InImage src a) : ReadsInside src ((List.range n).map f) := by
  intro s hmem
  obtain ⟨i, hi, rfl⟩ := List.mem_map.1 hmem
  exact hf i (List.mem_range.1 hi)

theorem readsInside_memsets (ny nuv : ℕ) : ReadsInside src (memsets ny nuv) :=
  readsInside_append (readsInside_append (readsInside_map nofun) (readsInside_map nofun))
    (readsInside_map nofun)

theorem lt_of_lt_clipped {n len offs t : ℕ} (ht : t < clipped n len offs) : t < n ∧ offs + t < len := by
  unfold clipped at ht
  split at ht
  · omega
  · omega

/-- With even lengths a pair is never cut in half. -/
theorem pair_lt_clipped {n len offs i : ℕ} (hn : n % 2 = 0) (hlen : len % 2 = 0) (hoffs : offs % 2 = 0)
    (hi : i < (clipped n len offs + 1) / 2) : 2 * i + 1 < clipped n len offs := by
  unfold clipped at hi ⊢
  split at hi
  · rw [if_pos ‹_›]
    omega
  · rw [if_neg ‹_›]
    omega

theorem readsInside_grayscale (x y : ℕ) : ReadsInside ⟨w, h, 1⟩ (getMcuGrayscale w h x y) := by
  have hpixel {r c : ℕ} (hr : y + r < h) (hc : x + c < w) :
      InImage ⟨w, h, 1⟩ (((y + r) * w + (x + c) : ℕ) : ℤ) :=
    inImage_of_lt Nat.one_ne_zero hr hc (by push_cast; ring)
  unfold getMcuGrayscale
  split
  · refine readsInside_flatMap fun r _ => readsInside_map fun c _ a ha => ?_
    by_cases hout : x + c ≥ w ∨ y + r ≥ h
    · rw [if_pos hout] at ha
      exact nomatch ha
    · rw [if_neg hout] at ha
      obtain rfl := List.mem_singleton.1 ha
      exact hpixel (by omega) (by omega)
  · refine readsInside_flatMap fun r hr => readsInside_map fun c hc a ha => ?_
    obtain rfl := List.mem_singleton.1 ha
    exact hpixel (by omega) (by omega)

theorem inImage_binary {row col : ℕ} (hrow : row < h) (hcol : col < w) {a : ℕ}
    (ha : a = row * (binaryLineLen w * 32) + col) : InImage ⟨w, h, 0⟩ (a : ℤ) := by
  rw [InImage, if_pos rfl, ha]
  exact ⟨col, row, hcol, hrow, by push_cast; rfl⟩

/-- The pitch is cut to sixteen bits. Bytes are then read from the wrong rows, which does no harm if rows
    have no bits left over, or if it is always the top row. -/
def PitchFits (w : ℕ) : Prop :=
  w % 32 = 0 ∨ binaryLineLen w * 4 < 65536 ∨ binaryLineLen w * 4 % 65536 = 0

theorem readsInside_binary {x y : ℕ} (hx : x % 8 = 0) (hpitch : w < 8 ∨ h < 8 ∨ PitchFits w) :
    ReadsInside ⟨w, h, 0⟩ (getMcuBinary w h x y) := by
  unfold getMcuBinary
  split
  · refine readsInside_flatMap fun r _ => readsInside_map fun c _ a ha => ?_
    by_cases hout : x + c ≥ w ∨ y + r ≥ h
    · rw [if_pos hout] at ha
      exact nomatch ha
    · rw [if_neg hout] at ha
      obtain rfl := List.mem_singleton.1 ha
      exact inImage_binary (by omega) (by omega) rfl
  · refine readsInside_flatMap fun r hr => readsInside_map fun c hc a ha => ?_
    obtain rfl := List.mem_singleton.1 ha
    have hcut : (w + 31) / 8 % 65536 / 4 * 4 = binaryLineLen w * 4 % 65536 := by
      unfold binaryLineLen
      omega
    have hfits : PitchFits w := (hpitch.resolve_left (by omega)).resolve_left (by omega)
    rw [hcut]
    rcases hfits with hline | hsmall | htop
    · -- every bit of the array is a pixel
      have hlen : binaryLineLen w * 32 = w := by
        unfold binaryLineLen
        omega
      have hle : binaryLineLen w * 4 % 65536 ≤ binaryLineLen w * 4 := Nat.mod_le _ _
      have hbyte : ((y + r) * (binaryLineLen w * 4 % 65536) + x / 8) * 8 + c < h * w := by
        have hmul : (y + r) * (binaryLineLen w * 4 % 65536) ≤ (h - 1) * (binaryLineLen w * 4) :=
          Nat.mul_le_mul (by omega) hle
        have hsum : (h - 1) * (binaryLineLen w * 4) * 8 + w = h * w := by
          obtain ⟨k, rfl⟩ : ∃ k, h = k + 1 := ⟨h - 1, by omega⟩
          rw [Nat.add_sub_cancel, Nat.mul_assoc, show binaryLineLen w * 4 * 8 = w by omega, Nat.succ_mul]
        omega
      generalize ((y + r) * (binaryLineLen w * 4 % 65536) + x / 8) * 8 + c = bit at hbyte
      have hrow : bit / w < h := Nat.div_lt_of_lt_mul (Nat.mul_comm h w ▸ hbyte)
      refine inImage_binary hrow (Nat.mod_lt bit (by omega)) ?_
      rw [hlen, Nat.mul_comm]
      exact (Nat.div_add_mod bit w).symm
    · rw [Nat.mod_eq_of_lt hsmall]
      refine inImage_binary (by omega : y + r < h) (by omega : x + c < w) ?_
      have : x / 8 * 8 = x := by omega
      nlinarith
    · rw [htop]
      exact inImage_binary (by omega : 0 < h) (by omega : x + c < w) (by omega)

theorem readsInside_rgb565Full (x y : ℕ) : ReadsInside ⟨w, h, 2⟩ (fetchRgb565Full w h x y) := by
  refine readsInside_append ?_ (readsInside_flatMap fun ty hty => readsInside_flatMap fun tx htx => ?_)
  · split
    · exact readsInside_memsets 64 64
    · exact nofun
  · have hpixel : InImage ⟨w, h, 2⟩ ((w * (y + ty) + x + tx : ℕ) : ℤ) :=
      inImage_of_lt two_ne_zero (lt_of_lt_clipped hty).2 (lt_of_lt_clipped htx).2 (by push_cast; ring)
    simpa [ReadsInside, storeY, storeU, storeV, rgb565At] using hpixel

theorem readsInside_rgb565Half (hw : w % 2 = 0) {x : ℕ} (hx : x % 2 = 0) (y : ℕ) :
    ReadsInside ⟨w, h, 2⟩ (fetchRgb565Half w h x y) := by
  refine readsInside_flatMap fun ty hty => readsInside_flatMap fun i hi => ?_
  have hpair := pair_lt_clipped rfl hw hx hi
  have hpixel (k : ℕ) (hk : k ≤ 1) : InImage ⟨w, h, 2⟩ ((w * (y + ty) + x + 2 * i + k : ℕ) : ℤ) :=
    inImage_of_lt two_ne_zero (lt_of_lt_clipped hty).2
      (lt_of_lt_clipped (lt_of_le_of_lt (Nat.add_le_add_left hk _) hpair)).2 (by push_cast; ring)
  simpa [ReadsInside, storeY, storeU, storeV, rgb565At] using And.intro (hpixel 0 zero_le_one) (hpixel 1 le_rfl)

theorem readsInside_rgb565Quarter (hw : w % 2 = 0) (hh : h % 2 = 0) {x y : ℕ} (hx : x % 2 = 0)
    (hy : y % 2 = 0) : ReadsInside ⟨w, h, 2⟩ (fetchRgb565Quarter w h x y) := by
  refine readsInside_append ?_ (readsInside_flatMap fun j hj => readsInside_flatMap fun i hi => ?_)
  · split
    · exact readsInside_memsets 256 64
    · exact nofun
  · have hrow := pair_lt_clipped rfl hh hy hj
    have hcol := pair_lt_clipped rfl hw hx hi
    have hpixel (l k : ℕ) (hl : l ≤ 1) (hk : k ≤ 1) :
        InImage ⟨w, h, 2⟩ ((w * (y + 2 * j) + x + 2 * i + k + l * w : ℕ) : ℤ) :=
      inImage_of_lt two_ne_zero (lt_of_lt_clipped (lt_of_le_of_lt (Nat.add_le_add_left hl _) hrow)).2
        (lt_of_lt_clipped (lt_of_le_of_lt (Nat.add_le_add_left hk _) hcol)).2 (by push_cast; ring)
    have h00 := hpixel 0 0 zero_le_one zero_le_one
    have h01 := hpixel 0 1 zero_le_one le_rfl
    have h10 := hpixel 1 0 le_rfl zero_le_one
    have h11 := hpixel 1 1 le_rfl le_rfl
    simp only [Nat.zero_mul, Nat.one_mul, Nat.add_zero] at h00 h01 h10 h11
    simpa [ReadsInside, storeY, storeU, storeV, rgb565At] using ⟨h00, h01, h10, h11⟩

/-- Two bytes in one line of the image. -/
theorem pairAt_inside {row : ℕ} (hrow : row < h) {k a : ℤ} (hk : 0 ≤ k) (hkw : k + 1 < w)
    (ha : a = row * w + k) : ∀ b ∈ (pairAt a).reads, InImage ⟨w, h, 3⟩ b := by
  have hpixel {c : ℤ} (hc : 0 ≤ c) (hcw : c < w) : InImage ⟨w, h, 3⟩ (row * w + c) := by
    obtain ⟨c, rfl⟩ := Int.eq_ofNat_of_zero_le hc
    exact inImage_of_lt three_ne_zero hrow (Int.ofNat_lt.1 hcw) rfl
  intro b hb
  have hb' : b = a ∨ b = a + 1 := by simpa [pairAt] using hb
  rcases hb' with rfl | rfl
  · exact ha ▸ hpixel hk (by omega)
  · rw [ha, add_assoc]
    exact hpixel (by omega) hkw

/-- The line an offset leads to. -/
theorem bayer_lines (hw : w % 2 = 0) (hh : 2 ≤ h) {row : ℕ} (hrow : row < h) :
    (∃ r < h, (row * w + 2 * prevOffset (w / 2) row : ℤ) = r * w) ∧
      ∃ r < h, (row * w + 2 * nextOffset (w / 2) h row : ℤ) = r * w := by
  have hw2 : 2 * ((w : ℤ) / 2) = w := by omega
  constructor
  · unfold prevOffset
    split
    · exact ⟨1, hh, by subst row; push_cast; omega⟩
    · refine ⟨row - 1, by omega, ?_⟩
      rw [Nat.cast_sub (by omega)]
      push_cast
      linarith
  · unfold nextOffset
    split
    · refine ⟨row - 1, by omega, ?_⟩
      rw [Nat.cast_sub (by omega)]
      push_cast
      linarith
    · refine ⟨row + 1, by omega, ?_⟩
      push_cast
      linarith

theorem readsInside_bayer (hw : w % 8 = 0) (hh : 2 ≤ h) {x : ℕ} (hx : x % 8 = 0) (hxw : x + 8 ≤ w)
    (y base : ℕ) : ReadsInside ⟨w, h, 3⟩ (bayerToYcbcr w h x y base) := by
  refine readsInside_flatMap fun dy hdy => readsInside_flatMap fun j hj => ?_
  have hrow := (lt_of_lt_clipped hdy).2
  have hw2 : w % 2 = 0 := by omega
  obtain ⟨hprev, hnext⟩ := bayer_lines hw2 hh hrow
  have hhere : ∃ r < h, (((y + dy : ℕ) : ℤ) * w + 2 * 0 : ℤ) = r * w := ⟨y + dy, hrow, by ring⟩
  -- a pair of columns in one of the three lines
  have hpair {off : ℤ} (hoff : ∃ r < h, (((y + dy : ℕ) : ℤ) * w + 2 * off : ℤ) = r * w) {k : ℤ}
      (hk : 0 ≤ x + 2 * k) (hkw : x + 2 * k + 1 < w) :
      ∀ a ∈ (pairAt (((y + dy : ℕ) : ℤ) * w + x + 2 * (off + k))).reads, InImage ⟨w, h, 3⟩ a := by
    obtain ⟨r, hr, hline⟩ := hoff
    exact pairAt_inside hr hk hkw (by linarith)
  have hleft {off : ℤ} (hoff : ∃ r < h, (((y + dy : ℕ) : ℤ) * w + 2 * off : ℤ) = r * w) :
      ∀ a ∈ (if j = 0 ∧ x = 0 then pairAt (((y + dy : ℕ) : ℤ) * w + x + 2 * (off + 0))
        else pairAt (((y + dy : ℕ) : ℤ) * w + x + 2 * (off + (j - 1)))).reads, InImage ⟨w, h, 3⟩ a := by
    split
    · exact hpair hoff (by omega) (by omega)
    · exact hpair hoff (by omega) (by omega)
  have hright {off : ℤ} (hoff : ∃ r < h, (((y + dy : ℕ) : ℤ) * w + 2 * off : ℤ) = r * w) :
      ∀ a ∈ (if j = 3 ∧ x + 8 ≥ w then pairAt (((y + dy : ℕ) : ℤ) * w + x + 2 * (off + 3))
        else pairAt (((y + dy : ℕ) : ℤ) * w + x + 2 * (off + (j + 1)))).reads, InImage ⟨w, h, 3⟩ a := by
    split
    · exact hpair hoff (by omega) (by omega)
    · exact hpair hoff (by omega) (by omega)
  have hmid {off : ℤ} (hoff : ∃ r < h, (((y + dy : ℕ) : ℤ) * w + 2 * off : ℤ) = r * w) :
      ∀ a ∈ (pairAt (((y + dy : ℕ) : ℤ) * w + x + 2 * (off + j))).reads, InImage ⟨w, h, 3⟩ a :=
    hpair hoff (by omega) (by omega)
  have hthree {l m n : Fetch ℕ} (hl : ∀ a ∈ l.reads, InImage ⟨w, h, 3⟩ a)
      (hm : ∀ a ∈ m.reads, InImage ⟨w, h, 3⟩ a) (hn : ∀ a ∈ n.reads, InImage ⟨w, h, 3⟩ a) :
      ∀ a ∈ ((l.zip m).zip n).reads, InImage ⟨w, h, 3⟩ a := by
    intro a ha
    simp only [Fetch.reads_zip, List.mem_append] at ha
    rcases ha with (ha | ha) | ha
    · exact hl a ha
    · exact hm a ha
    · exact hn a ha
  have hreg {lo hi : Fetch (ℕ × ℕ)} (hlo : ∀ a ∈ lo.reads, InImage ⟨w, h, 3⟩ a)
      (hhi : ∀ a ∈ hi.reads, InImage ⟨w, h, 3⟩ a) : ∀ a ∈ (register lo hi).reads, InImage ⟨w, h, 3⟩ a := by
    intro a ha
    rcases List.mem_append.1 ha with ha | ha
    · exact hlo a ha
    · exact hhi a ha
  have hp := hthree (hreg (hleft hprev) (hmid hprev)) (hreg (hleft hhere) (hmid hhere))
    (hreg (hleft hnext) (hmid hnext))
  have hq := hthree (hreg (hmid hprev) (hright hprev)) (hreg (hmid hhere) (hright hhere))
    (hreg (hmid hnext) (hright hnext))
  simp only [ReadsInside, List.mem_cons, List.not_mem_nil, or_false, forall_eq_or_imp, forall_eq]
  exact ⟨hp, hp, hp, hq, hq, hq⟩

end Reads

/-! ### The first block -/

/-- The arrays of `ny` samples of luminance and `nuv` of each colour. -/
def span (ny nuv : ℕ) (l : Loc) : Prop := l.2 < if l.1 = .y then ny else nuv

section First

variable {w h : ℕ}

theorem mem_memsets {ny nuv : ℕ} {l : Loc} (hl : span ny nuv l) : l ∈ (memsets ny nuv).map Prod.fst := by
  obtain ⟨c, i⟩ := l
  unfold memsets
  cases c with
  | y => simpa [span] using hl
  | u => simpa [span] using hl
  | v => simpa [span] using hl

theorem clipped_of_le {n len : ℕ} (hn : n ≤ len) : clipped n len 0 = n := if_neg (by omega)

/-- `jpeg_get_mcu` fills the array in any case. -/
theorem mem_getMcu {f : ℕ → ℕ → Fetch ℤ} {l : Loc} (hl : span 64 0 l) :
    l ∈ ((List.range 8).flatMap fun y => (List.range 8).map fun x =>
      (((.y, y * 8 + x) : Loc), f y x)).map Prod.fst := by
  obtain ⟨c, i⟩ := l
  cases c with
  | y =>
    have hi : i < 64 := hl
    simp only [List.map_flatMap, List.map_map, List.mem_flatMap, List.mem_map, List.mem_range]
    exact ⟨i / 8, by omega, i % 8, by omega, Prod.ext rfl (by simp only [Function.comp]; omega)⟩
  | u => exact absurd hl (Nat.not_lt_zero _)
  | v => exact absurd hl (Nat.not_lt_zero _)

theorem first_binary {l : Loc} (hl : span 64 0 l) : l ∈ (getMcuBinary w h 0 0).map Prod.fst := by
  unfold getMcuBinary
  split
  · exact mem_getMcu hl
  · exact mem_getMcu hl

theorem first_grayscale {l : Loc} (hl : span 64 0 l) : l ∈ (getMcuGrayscale w h 0 0).map Prod.fst := by
  unfold getMcuGrayscale
  split
  · exact mem_getMcu hl
  · exact mem_getMcu hl

theorem first_rgb565Full {l : Loc} (hl : span 64 64 l) : l ∈ (fetchRgb565Full w h 0 0).map Prod.fst := by
  unfold fetchRgb565Full
  rw [List.map_append, List.mem_append]
  by_cases hpart : clipped 8 w 0 ≠ 8 ∨ clipped 8 h 0 ≠ 8
  · rw [if_pos hpart]
    exact .inl (mem_memsets hl)
  · rw [not_or, not_not, not_not] at hpart
    rw [hpart.1, hpart.2]
    right
    obtain ⟨c, i⟩ := l
    have hi : i < 64 := by cases c <;> exact hl
    simp only [List.map_flatMap, List.mem_flatMap, List.mem_range]
    refine ⟨i / 8, by omega, i % 8, by omega, ?_⟩
    rw [show i / 8 * 8 + i % 8 = i by omega]
    cases c <;> simp [storeY, storeU, storeV]

theorem first_rgb565Half (hw : 16 ≤ w) (hh : 8 ≤ h) {l : Loc} (hl : span 128 64 l) :
    l ∈ (fetchRgb565Half w h 0 0).map Prod.fst := by
  obtain ⟨c, i⟩ := l
  unfold fetchRgb565Half
  simp only [clipped_of_le hw, clipped_of_le hh, List.map_flatMap, List.mem_flatMap, List.mem_range]
  cases c with
  | y =>
    have hi : i < 128 := hl
    refine ⟨i % 64 / 8, by omega, (i % 8 + 8 * (i / 64)) / 2, by omega, ?_⟩
    have hiY : i = i % 64 / 8 * 8 + columnY (2 * ((i % 8 + 8 * (i / 64)) / 2)) + i % 2 := by
      unfold columnY
      split
      · omega
      · omega
    rcases Nat.mod_two_eq_zero_or_one i with h2 | h2
    · rw [h2, Nat.add_zero] at hiY
      simp [storeY, storeU, storeV, ← hiY]
    · rw [h2] at hiY
      simp [storeY, storeU, storeV, ← hiY]
  | u =>
    have hi : i < 64 := hl
    refine ⟨i / 8, by omega, i % 8, by omega, ?_⟩
    simp [storeY, storeU, storeV, show i / 8 * 8 + i % 8 = i by omega]
  | v =>
    have hi : i < 64 := hl
    refine ⟨i / 8, by omega, i % 8, by omega, ?_⟩
    simp [storeY, storeU, storeV, show i / 8 * 8 + i % 8 = i by omega]

theorem first_rgb565Quarter {l : Loc} (hl : span 256 64 l) :
    l ∈ (fetchRgb565Quarter w h 0 0).map Prod.fst := by
  unfold fetchRgb565Quarter
  rw [List.map_append, List.mem_append]
  by_cases hpart : clipped 16 w 0 ≠ 16 ∨ clipped 16 h 0 ≠ 16
  · rw [if_pos hpart]
    exact .inl (mem_memsets hl)
  · rw [not_or, not_not, not_not] at hpart
    right
    obtain ⟨c, i⟩ := l
    simp only [hpart.1, hpart.2, List.map_flatMap, List.mem_flatMap, List.mem_range]
    cases c with
    | y =>
      have hi : i < 256 := hl
      -- the row and the column of the sample in the block of 16 by 16
      obtain ⟨p, q, r, s, hp, hq, hr, hs, hsplit⟩ : ∃ p q r s, p < 2 ∧ q < 2 ∧ r < 8 ∧ s < 8 ∧
          i = 128 * p + 64 * q + 8 * r + s :=
        ⟨i / 128, i / 64 % 2, i / 8 % 8, i % 8, by omega, by omega, by omega, by omega, by omega⟩
      obtain ⟨ty, hty⟩ : ∃ ty, ty = r + 8 * p := ⟨_, rfl⟩
      obtain ⟨tx, htx⟩ : ∃ tx, tx = s + 8 * q := ⟨_, rfl⟩
      refine ⟨ty / 2, by omega, tx / 2, by omega, ?_⟩
      have hiY : i = 2 * (ty / 2) * 8 + (if 2 * (ty / 2) ≥ 8 then 128 - 64 else 0) +
          columnY (2 * (tx / 2)) + tx % 2 + 8 * (ty % 2) := by
        unfold columnY
        split
        · split
          · omega
          · omega
        · split
          · omega
          · omega
      generalize 2 * (ty / 2) * 8 + (if 2 * (ty / 2) ≥ 8 then 128 - 64 else 0) +
        columnY (2 * (tx / 2)) = iY at hiY ⊢
      rcases Nat.mod_two_eq_zero_or_one tx with h2 | h2
      · rcases Nat.mod_two_eq_zero_or_one ty with h3 | h3
        · simp [storeY, storeU, storeV, hiY, h2, h3]
        · simp [storeY, storeU, storeV, hiY, h2, h3]
      · rcases Nat.mod_two_eq_zero_or_one ty with h3 | h3
        · simp [storeY, storeU, storeV, hiY, h2, h3]
        · simp [storeY, storeU, storeV, hiY, h2, h3]
    | u =>
      have hi : i < 64 := hl
      refine ⟨i / 8, by omega, i % 8, by omega, ?_⟩
      simp [storeY, storeU, storeV, show 2 * (i / 8) * 4 + i % 8 = i by omega]
    | v =>
      have hi : i < 64 := hl
      refine ⟨i / 8, by omega, i % 8, by omega, ?_⟩
      simp [storeY, storeU, storeV, show 2 * (i / 8) * 4 + i % 8 = i by omega]

/-- A Bayer block with all its rows in the image. -/
theorem mem_bayer {x y base : ℕ} (hh : y + 8 ≤ h) (c : Comp) {i : ℕ} (hi : base ≤ i) (hi' : i < base + 64) :
    (c, i) ∈ (bayerToYcbcr w h x y base).map Prod.fst := by
  unfold bayerToYcbcr
  have hclip : clipped 8 h y = 8 := if_neg (by omega)
  simp only [hclip, List.map_flatMap, List.mem_flatMap, List.mem_range]
  refine ⟨(i - base) / 8, by omega, (i - base) % 8 / 2, by omega, ?_⟩
  have hidx : i = base + (i - base) / 8 * 8 + 2 * ((i - base) % 8 / 2) + (i - base) % 2 := by omega
  rcases Nat.mod_two_eq_zero_or_one (i - base) with h2 | h2
  · rw [h2, Nat.add_zero] at hidx
    cases c <;> simp [storeY, storeU, storeV, ← hidx]
  · rw [h2] at hidx
    cases c <;> simp [storeY, storeU, storeV, ← hidx]

end First

/-! ### The branches -/

theorem mem_mcuRows {w h dx dy : ℕ} {xy : ℕ × ℕ} (hmem : xy ∈ (mcuRows w h dx dy).flatten) :
    ∃ i j, xy = (i * dx, j * dy) ∧ i * dx < w ∧ j * dy < h := by
  obtain ⟨row, hrow, hxy⟩ := List.mem_flatten.1 hmem
  obtain ⟨j, hj, rfl⟩ := List.mem_map.1 hrow
  obtain ⟨i, hi, rfl⟩ := List.mem_map.1 hxy
  have hlt {n d k : ℕ} (hk : k < (n + d - 1) / d) : k * d < n := by
    rcases Nat.eq_zero_or_pos d with rfl | hd
    · simp at hk
    · have := (Nat.le_div_iff_mul_le hd).1 (Nat.succ_le_of_lt hk)
      rw [Nat.succ_mul] at this
      omega
  exact ⟨i, j, rfl, hlt (List.mem_range.1 hi), hlt (List.mem_range.1 hj)⟩

theorem mcuRows_head {w h dx dy : ℕ} (hw : 0 < w) (hh : 0 < h) (hdx : 0 < dx) (hdy : 0 < dy) :
    ∃ xys gs, mcuRows w h dx dy = ((0, 0) :: xys) :: gs := by
  have hrange {n d : ℕ} (hn : 0 < n) (hd : 0 < d) : ∃ is, List.range ((n + d - 1) / d) = 0 :: is := by
    obtain ⟨k, hk⟩ := Nat.exists_eq_succ_of_ne_zero
      (Nat.ne_of_gt (Nat.div_pos (by omega : d ≤ n + d - 1) hd))
    exact ⟨_, by rw [hk, List.range_succ_eq_map]⟩
  obtain ⟨is, his⟩ := hrange hw hdx
  obtain ⟨js, hjs⟩ := hrange hh hdy
  rw [mcuRows, hjs, his]
  refine ⟨is.map fun i => (i * dx, 0), js.map fun j => (0 :: is).map fun i => (i * dx, j * dy), ?_⟩
  simp

/-- A branch whose blocks are read from inside the image, and whose first block fills its arrays. -/
structure Plan.Steady (p : Plan) (src : Source) (ny nuv : ℕ) : Prop where
  head : ∃ xys gs, p.mcus = ((0, 0) :: xys) :: gs
  reads : ∀ xy ∈ p.mcus.flatten, ReadsInside src (p.stores xy.1 xy.2)
  first : ∀ l, span ny nuv l → l ∈ (p.stores 0 0).map Prod.fst
  blend : ∀ {b b'}, AgreeOn (span ny nuv) b b' → AgreeOn (span ny nuv) (p.blend b) (p.blend b')
  units : ∀ u ∈ p.units, u.2 + 64 ≤ if u.1 = .y then ny else nuv

theorem Plan.Steady.filled {p : Plan} {src : Source} {ny nuv : ℕ} (hp : p.Steady src ny nuv) :
    p.Filled (span ny nuv) :=
  ⟨hp.blend, fun u hu _ hi => lt_of_lt_of_le (Nat.add_lt_add_left hi _) (hp.units u hu), hp.head, hp.first⟩

theorem Plan.Steady.inside {p : Plan} {src : Source} {ny nuv : ℕ} (hp : p.Steady src ny nuv) :
    ∀ a ∈ p.reads, InImage src a := by
  intro a ha
  obtain ⟨xy, hxy, ha⟩ := List.mem_flatMap.1 ha
  obtain ⟨s, hs, ha⟩ := List.mem_flatMap.1 ha
  exact hp.reads xy hxy s hs a ha

theorem agreeOn_blendHalf {b b' : Bufs} (hb : AgreeOn (span 128 128) b b') :
    AgreeOn (span 128 128) (blendHalf b) (blendHalf b') := by
  rintro ⟨c, i⟩ hl
  have hi : i < 128 := by cases c <;> exact hl
  unfold blendHalf
  have hspan {k : ℕ} (hk : k < 128) : span 128 128 (c, k) := by cases c <;> exact hk
  dsimp only
  split
  · rw [hb _ (hspan hi), hb _ (hspan (by omega))]
  · exact hb _ hl

theorem agreeOn_blendQuarter {b b' : Bufs} (hb : AgreeOn (span 256 256) b b') :
    AgreeOn (span 256 256) (blendQuarter b) (blendQuarter b') := by
  rintro ⟨c, i⟩ hl
  have hi : i < 256 := by cases c <;> exact hl
  unfold blendQuarter
  have hspan {k : ℕ} (hk : k < 256) : span 256 256 (c, k) := by cases c <;> exact hk
  dsimp only
  split
  · rw [hb _ (hspan hi), hb _ (hspan (by omega)), hb _ (hspan (by omega)), hb _ (hspan (by omega))]
  · exact hb _ hl

/-- The sizes for which nothing outside of the image is read and nothing of the stack is used: of RGB565
    images, -/
def SizeFitsRgb565 (w h quality : ℕ) : Prop :=
  if quality ≥ 60 then True
  else if quality > 35 then w % 2 = 0 ∧ 16 ≤ w ∧ 8 ≤ h
  else w % 2 = 0 ∧ h % 2 = 0

/-- of Bayer images, -/
def SizeFitsBayer (w h quality : ℕ) : Prop :=
  if quality ≥ 60 then w % 8 = 0 ∧ 8 ≤ h
  else if quality > 35 then w % 16 = 0 ∧ 8 ≤ h
  else w % 16 = 0 ∧ 16 ≤ h

/-- and of any. -/
def SizeFits (w h bpp quality : ℕ) : Prop :=
  match bpp with
  | 0 => w < 8 ∨ h < 8 ∨ PitchFits w
  | 1 => True
  | 2 => SizeFitsRgb565 w h quality
  | _ => SizeFitsBayer w h quality

section Branches

variable {w h : ℕ} (hw : 0 < w) (hh : 0 < h)
include hw hh

theorem steady_binary (quality : ℕ) (hfits : w < 8 ∨ h < 8 ∨ PitchFits w) :
    (plan w h 0 quality).Steady ⟨w, h, 0⟩ 64 0 := by
  refine ⟨mcuRows_head hw hh (by decide) (by decide), fun xy hxy => ?_, fun l hl => first_binary hl, id,
    by simp [plan]⟩
  obtain ⟨i, j, rfl, -, -⟩ := mem_mcuRows hxy
  exact readsInside_binary (Nat.mul_mod_left i 8) hfits

theorem steady_grayscale (quality : ℕ) : (plan w h 1 quality).Steady ⟨w, h, 1⟩ 64 0 :=
  ⟨mcuRows_head hw hh (by decide) (by decide), fun xy _ => readsInside_grayscale xy.1 xy.2,
    fun l hl => first_grayscale hl, id, by simp [plan]⟩

theorem steady_rgb565 {quality : ℕ} (hfits : SizeFitsRgb565 w h quality) :
    ∃ ny nuv, (planRgb565 w h quality).Steady ⟨w, h, 2⟩ ny nuv := by
  unfold SizeFitsRgb565 at hfits
  unfold planRgb565
  by_cases h60 : quality ≥ 60
  · rw [if_pos h60]
    exact ⟨64, 64, mcuRows_head hw hh (by decide) (by decide), fun xy _ => readsInside_rgb565Full xy.1 xy.2,
      fun l hl => first_rgb565Full hl, id, by simp⟩
  · rw [if_neg h60] at hfits ⊢
    by_cases h35 : quality > 35
    · rw [if_pos h35] at hfits ⊢
      obtain ⟨hw2, hw16, hh8⟩ := hfits
      refine ⟨128, 64, mcuRows_head hw hh (by decide) (by decide), fun xy hxy => ?_,
        fun l hl => first_rgb565Half hw16 hh8 hl, id, by simp⟩
      obtain ⟨i, j, rfl, -, -⟩ := mem_mcuRows hxy
      exact readsInside_rgb565Half hw2 (by dsimp only; omega) _
    · rw [if_neg h35] at hfits ⊢
      refine ⟨256, 64, mcuRows_head hw hh (by decide) (by decide), fun xy hxy => ?_,
        fun l hl => first_rgb565Quarter hl, id, by simp⟩
      obtain ⟨i, j, rfl, -, -⟩ := mem_mcuRows hxy
      exact readsInside_rgb565Quarter hfits.1 hfits.2 (by dsimp only; omega) (by dsimp only; omega)

theorem steady_bayer {quality : ℕ} (hfits : SizeFitsBayer w h quality) :
    ∃ ny nuv, (planBayer w h quality).Steady ⟨w, h, 3⟩ ny nuv := by
  unfold SizeFitsBayer at hfits
  unfold planBayer
  by_cases h60 : quality ≥ 60
  · rw [if_pos h60] at hfits ⊢
    refine ⟨64, 64, ?_, fun xy hxy => ?_, fun ⟨c, i⟩ hl => ?_, id, by simp⟩
    · obtain ⟨xys, gs, hmcus⟩ := mcuRows_head hw hh (by decide : 0 < 8) (by decide : 0 < 8)
      exact ⟨[], (xys ++ gs.flatten).map ([·]), by rw [hmcus]; rfl⟩
    · have hflat : ((mcuRows w h 8 8).flatten.map ([·])).flatten = (mcuRows w h 8 8).flatten := by
        rw [← List.flatMap_def, List.flatMap_singleton']
      rw [hflat] at hxy
      obtain ⟨i, j, rfl, hi, -⟩ := mem_mcuRows hxy
      exact readsInside_bayer hfits.1 (by omega) (by dsimp only; omega) (by dsimp only; omega) _ _
    · have hi : i < 64 := by cases c <;> exact hl
      exact mem_bayer hfits.2 c (Nat.zero_le i) (by omega)
  · rw [if_neg h60] at hfits ⊢
    by_cases h35 : quality > 35
    · rw [if_pos h35] at hfits ⊢
      refine ⟨128, 128, mcuRows_head hw hh (by decide) (by decide), fun xy hxy => ?_, fun ⟨c, i⟩ hl => ?_,
        agreeOn_blendHalf, by simp⟩
      · obtain ⟨i, j, rfl, hi, -⟩ := mem_mcuRows hxy
        have hblock {x : ℕ} (hx : x % 8 = 0) (hxw : x + 8 ≤ w) (y base : ℕ) :=
          readsInside_bayer (by omega : w % 8 = 0) (by omega : 2 ≤ h) hx hxw y base
        exact readsInside_append (hblock (by omega) (by omega) _ _) (hblock (by omega) (by omega) _ _)
      · have hi : i < 128 := by cases c <;> exact hl
        rw [List.map_append, List.mem_append]
        by_cases hlow : i < 64
        · exact .inl (mem_bayer hfits.2 c (Nat.zero_le i) (by omega))
        · exact .inr (mem_bayer hfits.2 c (by omega) (by omega))
    · rw [if_neg h35] at hfits ⊢
      refine ⟨256, 256, mcuRows_head hw hh (by decide) (by decide), fun xy hxy => ?_, fun ⟨c, i⟩ hl => ?_,
        agreeOn_blendQuarter, by simp⟩
      · obtain ⟨i, j, rfl, hi, -⟩ := mem_mcuRows hxy
        have hblock {x : ℕ} (hx : x % 8 = 0) (hxw : x + 8 ≤ w) (y base : ℕ) :=
          readsInside_bayer (by omega : w % 8 = 0) (by omega : 2 ≤ h) hx hxw y base
        have hleft := hblock (by omega : i * 16 % 8 = 0) (by omega)
        have hright := hblock (by omega : (i * 16 + 8) % 8 = 0) (by omega)
        exact readsInside_append (readsInside_append (readsInside_append (hleft _ _) (hright _ _))
          (hleft _ _)) (hright _ _)
      · have hi : i < 256 := by cases c <;> exact hl
        rw [List.map_append, List.mem_append, List.map_append, List.mem_append, List.map_append,
          List.mem_append]
        rcases (by omega : i / 64 = 0 ∨ i / 64 = 1 ∨ i / 64 = 2 ∨ i / 64 = 3) with hb | hb | hb | hb
        · exact .inl (.inl (.inl (mem_bayer (by omega) c (by omega) (by omega))))
        · exact .inl (.inl (.inr (mem_bayer (by omega) c (by omega) (by omega))))
        · exact .inl (.inr (mem_bayer (by omega) c (by omega) (by omega)))
        · exact .inr (mem_bayer (by omega) c (by omega) (by omega))

theorem steady_plan {bpp quality : ℕ} (hbpp : bpp ≤ 3) (hfits : SizeFits w h bpp quality) :
    ∃ ny nuv, (plan w h bpp quality).Steady ⟨w, h, bpp⟩ ny nuv := by
  match bpp, hbpp, hfits with
  | 0, _, hfits => exact ⟨64, 0, steady_binary hw hh quality hfits⟩
  | 1, _, _ => exact ⟨64, 0, steady_grayscale hw hh quality⟩
  | 2, _, hfits => exact steady_rgb565 hw hh hfits
  | 3, _, hfits => exact steady_bayer hw hh hfits

end Branches

/-! ### The stream -/

theorem scaling_ne_zero {quality : ℕ} (hq : 1 ≤ quality ∧ quality < 100) : scaling quality ≠ 0 := by
  unfold scaling
  split
  · exact Nat.ne_of_gt (Nat.div_pos (by omega) hq.1)
  · omega

/-- For a quality below 100 and a size that fits the branch: only pixels of the image are read, and the
    stream is the same whatever is in memory around the image, on the stack, and in the tables after the
    images compressed before. -/
theorem jpeg_stream_of_image {src : Source} {quality : ℕ} (hw : 1 ≤ src.w) (hh : 1 ≤ src.h)
    (hbpp : src.bpp ≤ 3) (hq : 1 ≤ quality) (hq100 : quality < 100)
    (hfits : SizeFits src.w src.h src.bpp quality) :
    (∀ a ∈ (plan src.w src.h src.bpp quality).reads, InImage src a) ∧
      ∀ (quantize : QuantTables → Comp → List ℤ → List ℤ) (before before' : List ℕ) (stack stack' : Bufs)
        (m m' : ℤ → ℕ) (length : ℕ) (realloc : Bool), (∀ a, InImage src a → m a = m' a) →
        jpegCompressImage quantize (tablesAfter before) src m stack length quality realloc =
          jpegCompressImage quantize (tablesAfter before') src m' stack' length quality realloc := by
  obtain ⟨ny, nuv, hp⟩ := steady_plan hw hh hbpp hfits
  refine ⟨hp.inside, fun quantize before before' stack stack' m m' length realloc hm => ?_⟩
  have hinit := jpegInit_congr (kept_tablesAfter before) (kept_tablesAfter before')
    (scaling_ne_zero ⟨hq, hq100⟩)
  have hgroups := hp.filled.groups stack stack' fun a ha => hm a (hp.inside a ha)
  unfold jpegCompressImage jpegCompress
  dsimp only
  rw [hgroups, hinit]

/-- Four pixels of RGB565 at quality 30, with other neighbours, another stack and another past. -/
theorem jpeg_stream_of_four_pixels :
    SizeFits 2 2 2 30 ∧ (∀ a ∈ (plan 2 2 2 30).reads, InImage ⟨2, 2, 2⟩ a) ∧
      jpegCompressImage (fun _ _ s => s) (tablesAfter []) ⟨2, 2, 2⟩ (fun a => a.toNat) (fun _ => 0) 1024 30
          false =
        jpegCompressImage (fun _ _ s => s) (tablesAfter [100, 50]) ⟨2, 2, 2⟩
          (fun a => if 0 ≤ a ∧ a < 4 then a.toNat else 7) (fun _ => 5) 1024 30 false := by
  have hfits : SizeFits 2 2 2 30 := ⟨rfl, rfl⟩
  obtain ⟨hreads, hstream⟩ := @jpeg_stream_of_image ⟨2, 2, 2⟩ 30 (by decide) (by decide) (by decide)
    (by decide) (by decide) hfits
  refine ⟨hfits, hreads, hstream _ _ _ _ _ _ _ _ _ fun a ha => ?_⟩
  exact (if_pos (show 0 ≤ a ∧ a < 4 from ha)).symm

/-- One pixel of RGB565 at quality 50: the pixel behind it is read as well. And the tables for quality 100
    are all zero until another quality was asked for. -/
theorem jpeg_reads_behind_image :
    (1 ∈ (plan 1 1 2 50).reads ∧ ¬ InImage ⟨1, 1, 2⟩ 1) ∧
      (jpegInit (tablesAfter []) 100).yTable ≠ (jpegInit (tablesAfter [50]) 100).yTable := by
  refine ⟨⟨by decide, fun h => ?_⟩, by decide⟩
  exact absurd h.2 (by decide)

end OpenMV.Jpeg
