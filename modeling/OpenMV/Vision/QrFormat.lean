import OpenMV.Vision.QrGrid

/-! The format of QR codes | scheme:polynomials | source:src/src/openmv/omv/img/qrcode.c

    Level and mask are five bits, with ten check bits behind them: the remainder of a division by the generator. Three
    wrong cells in a place do not matter. -/

namespace OpenMV.Vision
open Schemes

/-- The generator of the format: the product of the minimal polynomials of the roots. -/
def formatGenerator : BitVec 16 := 0x537#16

/-- The remainder, by long division from bit `10 + n` down. -/
def formatRemainder : ℕ → BitVec 16 → BitVec 16
  | 0, u => u
  | n + 1, u => formatRemainder n (if u.getLsbD (10 + n) then u ^^^ formatGenerator <<< n else u)

/-- The word of a level and a mask. -/
def formatWord (level mask : ℕ) : BitVec 16 :=
  let u := BitVec.ofNat 16 (level * 8 + mask) <<< 10
  u ^^^ formatRemainder 5 u

theorem formatWord_eq : ∀ level < 4, ∀ mask < 8, FormatWord (formatWord level mask) ∧
    (formatWord level mask).getLsbD 15 = false ∧
    ((formatWord level mask).toNat >>> 10) >>> 3 = level ∧ ((formatWord level mask).toNat >>> 10) &&& 7 = mask := by
  decide +kernel

section Place
variable (code : QuircCode)

theorem getLsbD_shiftIn (cells : List (ℤ × ℤ)) (hlen : cells.length ≤ 16) (j : ℕ) :
    (shiftIn code cells).getLsbD j = (cells.reverse.map fun q => gridBit code q.1 q.2).getD j false := by
  induction cells using List.reverseRecOn generalizing j with
  | nil => simp [shiftIn]
  | append_singleton cells q ih =>
    rw [List.length_append, List.length_singleton] at hlen
    have hih := ih (by omega)
    rw [shiftIn, List.foldl_append, List.foldl_cons, List.foldl_nil, ← shiftIn, BitVec.getLsbD_or,
      BitVec.getLsbD_shiftLeft]
    cases j with
    | zero => cases hbit : gridBit code q.1 q.2 <;> simp [hbit]
    | succ j =>
      have hone : (if gridBit code q.1 q.2 then 1#16 else 0#16).getLsbD (j + 1) = false := by split <;> simp
      rw [hone, Nat.add_sub_cancel, hih j]
      rcases lt_or_ge j cells.length with hj | hj
      · have : j + 1 < 16 := by omega
        simp [this]
      · simp [hj]

theorem length_formatCells (which : Bool) : (formatCells code which).length = 15 := by
  cases which <;> simp [formatCells]

/-- The cells of a place that are not drawn as the word says. -/
def wrongCells (which : Bool) (word : BitVec 16) : Finset ℕ :=
  (Finset.range 15).filter fun j =>
    ((formatCells code which).reverse.map fun q => gridBit code q.1 q.2).getD j false ≠ (word ^^^ 0x5412#16).getLsbD j

/-- Three wrong cells at most, and the word is found. -/
theorem correctFormat_shiftIn {which : Bool} {word : BitVec 16} (hword : FormatWord word)
    (htop : word.getLsbD 15 = false) (hwrong : (wrongCells code which word).card ≤ 3) :
    correctFormat (shiftIn code (formatCells code which) ^^^ 0x5412#16) = some word := by
  have hlen := length_formatCells code which
  have hbit : ∀ j, (shiftIn code (formatCells code which)).getLsbD j = _ :=
    getLsbD_shiftIn code (formatCells code which) (by omega)
  refine correctFormat_eq hword (le_of_eq_of_le (congrArg Finset.card ?_) hwrong) ?_
  · rw [formatErrors, wrongCells]
    refine Finset.filter_congr fun j _ => ?_
    rw [BitVec.getLsbD_xor, BitVec.getLsbD_xor, hbit]
    generalize List.getD _ j false = a
    cases a <;> cases word.getLsbD j <;> cases (0x5412#16).getLsbD j <;> decide
  · rw [BitVec.getLsbD_xor, hbit, List.getD_eq_default _ _ (by simp [hlen]), htop]
    rfl

/-- A format that is drawn in a place with three wrong cells at most is read from there. -/
theorem readFormat_eq {which : Bool} {level mask : ℕ} (hlevel : level < 4) (hmask : mask < 8)
    (hwrong : (wrongCells code which (formatWord level mask)).card ≤ 3) :
    readFormat code which = .ok (level, mask) := by
  obtain ⟨hword, htop, hl, hm⟩ := formatWord_eq level hlevel mask hmask
  rw [readFormat, correctFormat_shiftIn code hword htop hwrong]
  simp only [hl, hm]

/-- Bit 15 is not one that is turned over, and what comes out is a word of the code. -/
theorem formatWord_of_correctFormat {u v : BitVec 16} (h : correctFormat u = some v) :
    FormatWord v ∧ v.getLsbD 15 = u.getLsbD 15 := by
  rw [correctFormat] at h
  dsimp only at h
  split at h
  case isTrue =>
    have hflip := getLsbD_foldl_flip (fun i => polyEval gf16 (berlekampMassey gf16 (formatSyndromes u).2 6)
      (gf16.exp (15 - i)) = 0#4) u 15 15 (by decide)
    generalize (List.range 15).foldl _ u = u' at h hflip
    rcases Bool.eq_false_or_eq_true (formatSyndromes u').1 with hwrong | hright
    · simp [hwrong] at h
    · rw [hright] at h
      obtain rfl : u' = v := Option.some.inj h
      exact ⟨(formatSyndromes_false_iff u').mp hright, by simpa using hflip⟩
  case isFalse hright =>
    obtain rfl : u = v := Option.some.inj h
    exact ⟨(formatSyndromes_false_iff u).mp (Bool.eq_false_iff.mpr hright), rfl⟩

/-- Whatever is read is a level and a mask. -/
theorem readFormat_lt {which : Bool} {level mask : ℕ} (h : readFormat code which = .ok (level, mask)) :
    level < 4 ∧ mask < 8 := by
  rw [readFormat] at h
  split at h
  case h_1 => cases h
  case h_2 format hformat =>
    cases h
    have htop := (formatWord_of_correctFormat hformat).2
    have hlen := length_formatCells code which
    rw [BitVec.getLsbD_xor, getLsbD_shiftIn code _ (by omega), List.getD_eq_default _ _ (by simp [hlen])] at htop
    have hlt : format.toNat < 2 ^ 15 := by
      have := BitVec.toNat_lt_of_msb_false (x := format) (by rw [BitVec.msb_eq_getLsbD_last]; exact htop)
      exact this
    have hmask : (format.toNat >>> 10) &&& 7 < 8 := Nat.and_lt_two_pow _ (by decide : 7 < 2 ^ 3)
    exact ⟨by simp only [Nat.shiftRight_eq_div_pow]; omega, hmask⟩

end Place

/-- Every level and every mask can be read from either place when three cells or fewer are wrong there, and nothing but
    a level and a mask is read from any cells. -/
theorem read_format_corrects (code : QuircCode) (which : Bool) :
    (∀ level < 4, ∀ mask < 8, (wrongCells code which (formatWord level mask)).card ≤ 3 →
      readFormat code which = .ok (level, mask)) ∧
    (∀ level mask, readFormat code which = .ok (level, mask) → level < 4 ∧ mask < 8) ∧
    ∀ err, readFormat code which = .error err → err = .formatEcc := by
  refine ⟨fun level hlevel mask hmask => readFormat_eq code hlevel hmask, fun level mask => readFormat_lt code,
    fun err h => ?_⟩
  rw [readFormat] at h
  split at h
  · cases h
    rfl
  · cases h

end OpenMV.Vision
