import OpenMV.Jpeg.Buffer
import Mathlib.Data.List.Induction

/-! Quantisation tables over many calls | scheme:cache | source:src/src/openmv/omv/img/jpeg.c

    `jpeg_init` keeps the quality its tables were made for in a static variable that starts at 0, which
    is also what quality 100 is turned into. So as long as all calls ask for 100 the tables stay as the
    program starts with them; after the first other quality they follow the last call. -/

namespace OpenMV.Jpeg

/-- All static tables. What a `float` entry is computed from is its row, its column and the entry of the
    quantisation table. -/
structure JpegTables (F : Type) where
  quant : QuantTables
  fdtblY : ℕ → ℕ → F
  fdtblUv : ℕ → ℕ → F

/-- The quality as it is kept. -/
def qualityKey (quality : ℕ) : ℕ := if quality < 50 then 5000 / quality else 200 - quality * 2

/-- `1.0f / (aasf[r] * aasf[c] * table[s_jpeg_ZigZag[k]] * 8.0f)` for all `r` and `c`. -/
def reciprocals {F : Type} (recip : ℕ → ℕ → UInt8 → F) (table : List UInt8) (r c : ℕ) : F :=
  recip r c (table.getD (sJpegZigZag.getD (r * 8 + c) 0) 0)

/-- `jpeg_init` with the `float` tables. -/
def jpegInitTables {F : Type} (recip : ℕ → ℕ → UInt8 → F) (t : JpegTables F) (quality : ℕ) : JpegTables F :=
  let quant := jpegInit t.quant quality
  if t.quant.q ≠ qualityKey quality then
    ⟨quant, reciprocals recip quant.yTable, reciprocals recip quant.uvTable⟩
  else { t with quant := quant }

/-- The static data at start. -/
def jpegTablesZero {F : Type} (zero : F) : JpegTables F where
  quant := ⟨0, List.replicate 64 0, List.replicate 64 0, List.length_replicate, List.length_replicate⟩
  fdtblY := fun _ _ => zero
  fdtblUv := fun _ _ => zero

/-! ### The scaled tables -/

/-- The entry for a quality, before it is put in its place. -/
def clampedEntry (qt : List ℕ) (quality i : ℕ) : ℕ := max 1 (min 255 ((qt.getD i 0 * qualityKey quality + 50) / 100))

theorem clampedEntry_range (qt : List ℕ) (quality i : ℕ) :
    1 ≤ clampedEntry qt quality i ∧ clampedEntry qt quality i ≤ 255 := by
  unfold clampedEntry
  omega

section

variable {α : Type} (f : ℕ → ℕ) (g : ℕ → α)

theorem getD_foldl_set_of_ne (d : α) {j : ℕ} : ∀ {is : List ℕ} {t : List α}, (∀ i ∈ is, f i ≠ j) →
    (is.foldl (fun t i => t.set (f i) (g i)) t).getD j d = t.getD j d
  | [], _, _ => rfl
  | i :: is, t, h => by
      rw [List.foldl_cons, getD_foldl_set_of_ne d fun k hk => h k (List.mem_cons_of_mem _ hk)]
      simp [List.getD_eq_getElem?_getD, h i List.mem_cons_self]

/-- Stores at different places: each is found again. -/
theorem getD_foldl_set (d : α) : ∀ {is : List ℕ} {t : List α}, (is.map f).Nodup → (∀ i ∈ is, f i < t.length) →
    ∀ i ∈ is, (is.foldl (fun t i => t.set (f i) (g i)) t).getD (f i) d = g i
  | [], _, _, _ => by simp
  | k :: is, t, hnodup, hlt => by
      rw [List.map_cons, List.nodup_cons] at hnodup
      obtain ⟨hk, hrest⟩ := List.forall_mem_cons.mp hlt
      rw [List.foldl_cons, List.forall_mem_cons]
      refine ⟨?_, getD_foldl_set d hnodup.2 fun i hi => by rw [List.length_set]; exact hrest i hi⟩
      have hne : ∀ i ∈ is, f i ≠ f k := fun i hi h => hnodup.1 (List.mem_map.mpr ⟨i, hi, h⟩)
      rw [getD_foldl_set_of_ne f g d hne]
      simp [List.getD_eq_getElem?_getD, hk]

end

/-- The old contents of the table do not matter. -/
theorem scaleTable_getD (qt : List ℕ) (quality : ℕ) {t : List UInt8} (ht : t.length = 64) {i : ℕ} (hi : i < 64) :
    (scaleTable qt (qualityKey quality) t).getD (sJpegZigZag.getD i 0) 0 =
      UInt8.ofNat (clampedEntry qt quality i) :=
  getD_foldl_set (fun i => sJpegZigZag.getD i 0) (fun i => UInt8.ofNat (clampedEntry qt quality i)) 0 zigZag_nodup
    (fun i hi => by rw [ht]; exact zigZag_lt i hi) i (List.mem_range.mpr hi)

/-! ### What the file gets -/

theorem getD_append_middle {α : Type} (a b c : List α) (d : α) {j : ℕ} (hj : j < b.length) :
    (a ++ (b ++ c)).getD (a.length + j) d = b.getD j d := by
  simp [List.getD_eq_getElem?_getD, List.getElem?_append_right, List.getElem?_append_left hj]

/-- Both tables stand in the DQT segment. -/
theorem writeHeaders_tables {b : JpegBuf} {w h bpp : ℕ} {jpegSubsample : UInt8} {t : QuantTables}
    (hok : (jpegWriteHeaders b w h bpp jpegSubsample t).overflow = false) {j : ℕ} (hj : j < 64) :
    (jpegWriteHeaders b w h bpp jpegSubsample t).buf.getD (b.buf.length + 25 + j) 0 = t.yTable.getD j 0 ∧
    (bpp > 1 →
      (jpegWriteHeaders b w h bpp jpegSubsample t).buf.getD (b.buf.length + 90 + j) 0 = t.uvTable.getD j 0) := by
  rw [writeHeaders_eq] at hok ⊢
  rw [(foldl_putBytes_buf _ hok).2]
  set front : List UInt8 := [0xFF, 0xD8] ++ ([0xFF, 0xE0] ++
    [0x00, 0x10, 74, 70, 73, 70, 0x00, 0x01, 0x01, 0x00, 0x00, 0x01, 0x00, 0x01, 0x00, 0x00]) ++
    ([0xFF, 0xDB] ++ word (bpp * 65 + 2)) ++ [0] with hfront
  constructor
  · obtain ⟨rest, hrest⟩ : ∃ rest, (headerChunks w h bpp jpegSubsample t).flatten = front ++ (t.yTable ++ rest) := by
      simp only [headerChunks, List.flatten_append, List.flatten_cons, List.cons_append, List.append_assoc, hfront,
        List.nil_append]
      exact ⟨_, rfl⟩
    have hlen : b.buf.length + 25 + j = (b.buf ++ front).length + j := by simp [hfront, word]
    rw [hrest, ← List.append_assoc, hlen, getD_append_middle _ _ _ _ (by rw [t.yTable_length]; exact hj)]
  · intro hb
    obtain ⟨rest, hrest⟩ : ∃ rest, (headerChunks w h bpp jpegSubsample t).flatten =
        (front ++ (t.yTable ++ [1])) ++ (t.uvTable ++ rest) := by
      simp only [headerChunks, if_pos hb, List.flatten_append, List.flatten_cons, List.cons_append,
        List.append_assoc, hfront, List.nil_append]
      exact ⟨_, rfl⟩
    have hlen : b.buf.length + 90 + j = (b.buf ++ (front ++ (t.yTable ++ [1]))).length + j := by
      simp [hfront, word, t.yTable_length]
    rw [hrest, ← List.append_assoc, hlen, getD_append_middle _ _ _ _ (by rw [t.uvTable_length]; exact hj)]

/-! ### Calls -/

/-- The tables are those of a quality, in memory, in the headers and in the reciprocals. -/
structure TablesFor {F : Type} (recip : ℕ → ℕ → UInt8 → F) (t : JpegTables F) (quality : ℕ) : Prop where
  y : ∀ i < 64, (t.quant.yTable.getD (sJpegZigZag.getD i 0) 0).toNat = clampedEntry yqt quality i
  uv : ∀ i < 64, (t.quant.uvTable.getD (sJpegZigZag.getD i 0) 0).toNat = clampedEntry uvqt quality i
  range : ∀ j < 64, (1 ≤ (t.quant.yTable.getD j 0).toNat ∧ (t.quant.yTable.getD j 0).toNat ≤ 255) ∧
    1 ≤ (t.quant.uvTable.getD j 0).toNat ∧ (t.quant.uvTable.getD j 0).toNat ≤ 255
  fdtblY : ∀ r < 8, ∀ c < 8, t.fdtblY r c = reciprocals recip t.quant.yTable r c
  fdtblUv : ∀ r < 8, ∀ c < 8, t.fdtblUv r c = reciprocals recip t.quant.uvTable r c
  file : ∀ b w h bpp jpegSubsample, (jpegWriteHeaders b w h bpp jpegSubsample t.quant).overflow = false →
    ∀ i < 64, let stored := fun n => ((jpegWriteHeaders b w h bpp jpegSubsample t.quant).buf.getD
        (b.buf.length + n + sJpegZigZag.getD i 0) 0).toNat
      stored 25 = clampedEntry yqt quality i ∧ (bpp > 1 → stored 90 = clampedEntry uvqt quality i)

section

variable {F : Type} {recip : ℕ → ℕ → UInt8 → F} {t : JpegTables F} {quality : ℕ}

/-- What is right after each call once the tables have been made: they are those of the kept quality. -/
structure Made (recip : ℕ → ℕ → UInt8 → F) (t : JpegTables F) (quality : ℕ) : Prop where
  q : t.quant.q = qualityKey quality
  y : ∀ i < 64, t.quant.yTable.getD (sJpegZigZag.getD i 0) 0 = UInt8.ofNat (clampedEntry yqt quality i)
  uv : ∀ i < 64, t.quant.uvTable.getD (sJpegZigZag.getD i 0) 0 = UInt8.ofNat (clampedEntry uvqt quality i)
  fdtblY : t.fdtblY = reciprocals recip t.quant.yTable
  fdtblUv : t.fdtblUv = reciprocals recip t.quant.uvTable

theorem jpegInit_eq (t : QuantTables) (quality : ℕ) :
    jpegInit t quality = if t.q ≠ qualityKey quality then
      ⟨qualityKey quality, scaleTable yqt (qualityKey quality) t.yTable, scaleTable uvqt (qualityKey quality) t.uvTable,
        (length_scaleTable _ _ _).trans t.yTable_length, (length_scaleTable _ _ _).trans t.uvTable_length⟩
      else t := rfl

theorem jpegInit_same (h : t.quant.q = qualityKey quality) : jpegInitTables recip t quality = t := by
  simp [jpegInitTables, jpegInit_eq, h]

/-- Another quality than the one that is kept: everything is computed. -/
theorem made_of_ne (h : t.quant.q ≠ qualityKey quality) : Made recip (jpegInitTables recip t quality) quality := by
  simp only [jpegInitTables, jpegInit_eq, if_pos h]
  constructor
  case y =>
    intro i hi
    rw [scaleTable_getD yqt quality t.quant.yTable_length hi]
  case uv =>
    intro i hi
    rw [scaleTable_getD uvqt quality t.quant.uvTable_length hi]
  all_goals simp only

theorem Made.step {quality' : ℕ} (h : Made recip t quality) :
    Made recip (jpegInitTables recip t quality') quality' := by
  by_cases hq : t.quant.q = qualityKey quality'
  · -- two qualities with one key have the same tables
    have hkey : qualityKey quality = qualityKey quality' := h.q.symm.trans hq
    rw [jpegInit_same hq]
    refine ⟨hq, fun i hi => ?_, fun i hi => ?_, h.fdtblY, h.fdtblUv⟩
    · rw [h.y i hi, clampedEntry, clampedEntry, hkey]
    · rw [h.uv i hi, clampedEntry, clampedEntry, hkey]
  · exact made_of_ne hq

theorem qualityKey_eq_zero_iff (h : 1 ≤ quality ∧ quality ≤ 100) : qualityKey quality = 0 ↔ quality = 100 := by
  unfold qualityKey
  split_ifs with hlt
  · have : 1 ≤ 5000 / quality := (Nat.one_le_div_iff h.1).mpr (by omega)
    omega
  · omega

/-- All calls together: the tables stay at zero as long as the quality is 100, and are made after that. -/
theorem jpegInit_run (zero : F) : ∀ (qs : List ℕ) (last : ℕ), (∀ q ∈ qs ++ [last], 1 ≤ q ∧ q ≤ 100) →
    ((∀ q ∈ qs ++ [last], q = 100) → (qs ++ [last]).foldl (jpegInitTables recip) (jpegTablesZero zero) =
      jpegTablesZero zero) ∧
    ((∃ q ∈ qs ++ [last], q ≠ 100) →
      Made recip ((qs ++ [last]).foldl (jpegInitTables recip) (jpegTablesZero zero)) last) := by
  intro qs
  induction qs using List.reverseRecOn with
  | nil =>
    intro last hrange
    have hkey := qualityKey_eq_zero_iff (hrange last (by simp))
    refine ⟨fun h => ?_, fun ⟨q, hq, hne⟩ => ?_⟩
    · exact jpegInit_same (hkey.mpr (h last (by simp))).symm
    · obtain rfl : q = last := by simpa using hq
      exact made_of_ne fun h => hne (hkey.mp h.symm)
  | append_singleton qs prev ih =>
    intro last hrange
    obtain ⟨ihzero, ihmade⟩ := ih prev fun q hq => hrange q (List.mem_append_left _ hq)
    have hkey := qualityKey_eq_zero_iff (hrange last (by simp))
    rw [List.foldl_append, List.foldl_cons, List.foldl_nil]
    refine ⟨fun h => ?_, fun ⟨q, hq, hne⟩ => ?_⟩
    · rw [ihzero fun q hq => h q (List.mem_append_left _ hq)]
      exact jpegInit_same (hkey.mpr (h last (by simp))).symm
    · by_cases hall : ∀ q ∈ qs ++ [prev], q = 100
      · rw [ihzero hall]
        have hlast : q = last := by
          rcases List.mem_append.mp hq with hq | hq
          · exact absurd (hall q hq) hne
          · exact List.mem_singleton.mp hq
        exact made_of_ne fun h => hne (hlast ▸ hkey.mp h.symm)
      · push Not at hall
        exact (ihmade hall).step

theorem Made.tablesFor (h : Made recip t quality) : TablesFor recip t quality := by
  have htoNat : ∀ (qt : List ℕ) (i : ℕ), (UInt8.ofNat (clampedEntry qt quality i)).toNat =
      clampedEntry qt quality i := by
    intro qt i
    have := clampedEntry_range qt quality i
    rw [UInt8.toNat_ofNat']
    omega
  have hy : ∀ i < 64, (t.quant.yTable.getD (sJpegZigZag.getD i 0) 0).toNat = clampedEntry yqt quality i :=
    fun i hi => by rw [h.y i hi, htoNat]
  have huv : ∀ i < 64, (t.quant.uvTable.getD (sJpegZigZag.getD i 0) 0).toNat = clampedEntry uvqt quality i :=
    fun i hi => by rw [h.uv i hi, htoNat]
  refine ⟨hy, huv, fun j hj => ?_, fun r _ c _ => by rw [h.fdtblY], fun r _ c _ => by rw [h.fdtblUv], ?_⟩
  · obtain ⟨i, hi, rfl⟩ := zigZag_surjective j (List.mem_range.mpr hj)
    rw [List.mem_range] at hi
    rw [hy i hi, huv i hi]
    exact ⟨clampedEntry_range yqt quality i, clampedEntry_range uvqt quality i⟩
  · intro b w h' bpp ss hok i hi
    obtain ⟨h1, h2⟩ := writeHeaders_tables hok (zigZag_lt i (List.mem_range.mpr hi))
    refine ⟨?_, fun hb => ?_⟩
    · exact (congrArg UInt8.toNat h1).trans (hy i hi)
    · exact (congrArg UInt8.toNat (h2 hb)).trans (huv i hi)

end

/-- The tables are those of the last call if and only if some call asked for another quality than 100. -/
theorem jpeg_tables_iff {F : Type} (recip : ℕ → ℕ → UInt8 → F) (zero : F) (qs : List ℕ) (last : ℕ)
    (hrange : ∀ q ∈ qs ++ [last], 1 ≤ q ∧ q ≤ 100) :
    TablesFor recip ((qs ++ [last]).foldl (jpegInitTables recip) (jpegTablesZero zero)) last ↔
      ∃ q ∈ qs ++ [last], q ≠ 100 := by
  obtain ⟨hzero, hmade⟩ := jpegInit_run zero qs last hrange
  refine ⟨fun h => ?_, fun h => (hmade h).tablesFor⟩
  by_contra hne
  push Not at hne
  rw [hzero hne] at h
  have hpos := (h.range 0 (by decide)).1.1
  simp [jpegTablesZero] at hpos

/-- Quality 100 after quality 50: the tables hold ones. -/
theorem jpeg_tables_fifty_hundred :
    TablesFor (fun _ _ e => e) (([50] ++ [100]).foldl (jpegInitTables fun _ _ e => e) (jpegTablesZero 0)) 100 :=
  (jpeg_tables_iff (fun _ _ e => e) 0 [50] 100 (by decide)).mpr ⟨50, by decide, by decide⟩

/-- Quality 100 first: the tables hold zeros. -/
theorem jpeg_tables_hundred_first :
    let t := jpegInitTables (fun _ _ e => e) (jpegTablesZero 0) 100
    ¬ TablesFor (fun _ _ e => e) t 100 ∧ ∀ j < 64, t.quant.yTable.getD j 0 = 0 := by
  intro t
  have ht : ∀ j < 64, t.quant.yTable.getD j 0 = 0 := by decide
  refine ⟨fun h => ?_, ht⟩
  have := (h.range 0 (by decide)).1.1
  rw [ht 0 (by decide)] at this
  exact absurd this (by decide)

end OpenMV.Jpeg
