import OpenMV.Jpeg.Buffer
import Mathlib.Tactic.Linarith
import Mathlib.Logic.Function.Basic

/-! JPEG entropy coding | scheme:codec | source:src/src/openmv/omv/img/jpeg.c

    What the encoder writes for a sequence of data units is read back by a baseline decoder that
    knows nothing but the lists in the DHT segments. The code tables are compared with these lists by
    running the decoder on every code word; the rest is an induction over the coefficients of a block
    and one over the data units. -/

namespace OpenMV.Jpeg
open Schemes

/-! ### The code tables -/

/-- A table of a DHT segment: how many code words there are of each length, and the symbols. -/
structure HuffTable where
  counts : List ℕ
  values : List ℕ

/-- The table that is written as `nrcodes` (from index 1 on) and `values`. -/
def dhtTable (nrcodes values : List UInt8) : HuffTable :=
  ⟨(nrcodes.drop 1).map UInt8.toNat, values.map UInt8.toNat⟩

def HuffTable.decode (t : HuffTable) (bits : List Bool) : Option (ℕ × List Bool) :=
  decodeSym t.values t.counts 0 0 bits

/-- A code word can be written, and the decoder reads the symbol from it. -/
def Agrees (t : HuffTable) (w : ℕ × ℕ) (s : ℕ) : Prop :=
  StrOk w ∧ t.decode (strBits w) = some (s, [])

instance (t : HuffTable) (w : ℕ × ℕ) (s : ℕ) : Decidable (Agrees t w s) :=
  inferInstanceAs (Decidable (_ ∧ _))

/-- Whatever follows the code word. -/
theorem Agrees.decode {t : HuffTable} {w : ℕ × ℕ} {s : ℕ} (h : Agrees t w s) (rest : List Bool) :
    t.decode (strBits w ++ rest) = some (s, rest) :=
  decodeSym_append h.2

/-- A table of the encoder and the DHT table that goes with it. -/
structure Code where
  HT : List (ℕ × ℕ)
  table : HuffTable
  words : ∀ p ∈ HT.zipIdx, p.1.2 ≠ 0 → Agrees table p.1 p.2

/-- The sizes of DC differences have code words. -/
structure DcCode extends Code where
  length_HT : 12 ≤ HT.length
  word_ne : ∀ p ∈ HT.zipIdx, p.2 < 12 → p.1.2 ≠ 0

/-- The end of a block, sixteen zeroes, and up to 15 zeroes with the size of a coefficient have code
    words. -/
structure AcCode extends Code where
  length_HT : 0xFB ≤ HT.length
  word_ne : ∀ p ∈ HT.zipIdx, p.2 = 0x00 ∨ p.2 = 0xF0 ∨ 1 ≤ p.2 % 16 ∧ p.2 % 16 ≤ 10 → p.1.2 ≠ 0

theorem Code.agrees (c : Code) {s : ℕ} (hs : s < c.HT.length)
    (h : ∀ p ∈ c.HT.zipIdx, p.2 = s → p.1.2 ≠ 0) : Agrees c.table (c.HT.getD s (0, 0)) s := by
  have hmem : (c.HT.getD s (0, 0), s) ∈ c.HT.zipIdx := by
    rw [List.mk_mem_zipIdx_iff_getElem?, List.getD_eq_getElem _ _ hs, List.getElem?_eq_getElem hs]
  exact c.words _ hmem (h _ hmem rfl)

theorem DcCode.size (c : DcCode) {s : ℕ} (hs : s < 12) : Agrees c.table (c.HT.getD s (0, 0)) s :=
  c.agrees (hs.trans_le c.length_HT) fun p hp he => c.word_ne p hp (by omega)

theorem AcCode.eob (c : AcCode) : Agrees c.table (c.HT.getD 0x00 (0, 0)) 0x00 :=
  c.agrees (lt_of_lt_of_le (by decide) c.length_HT) fun p hp he => c.word_ne p hp (.inl he)

theorem AcCode.zrl (c : AcCode) : Agrees c.table (c.HT.getD 0xF0 (0, 0)) 0xF0 :=
  c.agrees (lt_of_lt_of_le (by decide) c.length_HT) fun p hp he => c.word_ne p hp (.inr (.inl he))

theorem AcCode.run (c : AcCode) {r s : ℕ} (hr : r < 16) (hs : s < 10) :
    Agrees c.table (c.HT.getD (r * 16 + (s + 1)) (0, 0)) (r * 16 + (s + 1)) :=
  c.agrees (lt_of_lt_of_le (by omega) c.length_HT) fun p hp he =>
    c.word_ne p hp (.inr (.inr (by omega)))

def ydc : DcCode where
  HT := ydcHT
  table := dhtTable stdDcLuminanceNrcodes stdDcLuminanceValues
  words := by decide
  length_HT := by decide
  word_ne := by decide

def uvdc : DcCode where
  HT := uvdcHT
  table := dhtTable stdDcChrominanceNrcodes stdDcChrominanceValues
  words := by decide
  length_HT := by decide
  word_ne := by decide

/-- A long table is gone through in two parts. -/
theorem forall_mem_of_parts {α : Type} {P : α → Prop} {l : List α} (n : ℕ) (hfirst : ∀ p ∈ l.take n, P p)
    (hrest : ∀ p ∈ l.drop n, P p) : ∀ p ∈ l, P p := by
  intro p hp
  rw [← List.take_append_drop n l] at hp
  exact (List.mem_append.mp hp).elim (hfirst p) (hrest p)

def yac : AcCode where
  HT := yacHT
  table := dhtTable stdAcLuminanceNrcodes stdAcLuminanceValues
  words := forall_mem_of_parts 128 (forall_mem_of_parts 64 (by decide +kernel) (by decide +kernel))
    (forall_mem_of_parts 64 (by decide +kernel) (by decide +kernel))
  length_HT := by decide +kernel
  word_ne := by decide +kernel

def uvac : AcCode where
  HT := uvacHT
  table := dhtTable stdAcChrominanceNrcodes stdAcChrominanceValues
  words := forall_mem_of_parts 128 (forall_mem_of_parts 64 (by decide +kernel) (by decide +kernel))
    (forall_mem_of_parts 64 (by decide +kernel) (by decide +kernel))
  length_HT := by decide +kernel
  word_ne := by decide +kernel

/-! ### Magnitudes -/

/-- The value with the magnitude bits `v` of a size. -/
def extend (size v : ℕ) : ℤ := if v < 2 ^ (size - 1) then (v : ℤ) - 2 ^ size + 1 else v

theorem calcBits_spec {val : ℤ} (hval : val ≠ 0) :
    (jpegCalcBits val).1 < 2 ^ (jpegCalcBits val).2 ∧
    extend (jpegCalcBits val).2 (jpegCalcBits val).1 = val := by
  obtain ⟨k, hk⟩ : ∃ k, k = val.natAbs.log2 := ⟨_, rfl⟩
  have hne : val.natAbs ≠ 0 := Int.natAbs_ne_zero.mpr hval
  have hlow : 2 ^ k ≤ val.natAbs := hk ▸ Nat.log2_self_le hne
  have hhigh : val.natAbs < 2 ^ (k + 1) := hk ▸ Nat.lt_log2_self
  have hpow : (2 : ℕ) ^ (k + 1) = 2 * 2 ^ k := Nat.pow_succ'
  have hpow' : (2 : ℤ) ^ (k + 1) = ((2 ^ (k + 1) : ℕ) : ℤ) := by push_cast; rfl
  simp only [jpegCalcBits, extend, ← hk, Nat.add_sub_cancel, hpow']
  rcases lt_or_gt_of_ne hval with hneg | hpos
  · have hmod : (val - 1) % ((2 ^ (k + 1) : ℕ) : ℤ) = val - 1 + (2 ^ (k + 1) : ℕ) := by
      rw [← Int.add_emod_right]
      exact Int.emod_eq_of_lt (by omega) (by omega)
    rw [if_pos hneg, hmod]
    refine ⟨by omega, ?_⟩
    rw [if_pos (by omega)]
    omega
  · have hmod : val % ((2 ^ (k + 1) : ℕ) : ℤ) = val := Int.emod_eq_of_lt (by omega) (by omega)
    rw [if_neg (by omega), hmod]
    refine ⟨by omega, ?_⟩
    rw [if_neg (by omega)]
    omega

theorem calcBits_size {val : ℤ} {n : ℕ} (hval : val ≠ 0) (h : val.natAbs < 2 ^ n) :
    ∃ s < n, (jpegCalcBits val).2 = s + 1 :=
  ⟨val.natAbs.log2, (Nat.log2_lt (Int.natAbs_ne_zero.mpr hval)).mpr h, rfl⟩

theorem strOk_calcBits {val : ℤ} (hval : val ≠ 0) (h : val.natAbs < 2 ^ 16) : StrOk (jpegCalcBits val) := by
  obtain ⟨s, hs, hsize⟩ := calcBits_size hval h
  exact ⟨by omega, (calcBits_spec hval).1⟩

theorem receive_calcBits {val : ℤ} (hval : val ≠ 0) (rest : List Bool) :
    receive (jpegCalcBits val).2 (strBits (jpegCalcBits val) ++ rest) =
      some ((jpegCalcBits val).1, rest) :=
  receive_bitsOf (calcBits_spec hval).1 rest

/-! ### The coefficients of a block -/

/-- The next `left` coefficients of a block. Every symbol but the last stands for one at least, so
    `left` is enough fuel. -/
def decodeAC (t : HuffTable) : ℕ → ℕ → List Bool → Option (List ℤ × List Bool)
  | _, 0, bits => some ([], bits)
  | 0, _ + 1, _ => none
  | fuel + 1, left + 1, bits =>
    t.decode bits |>.bind fun (rs, bits) =>
      if rs = 0x00 then some (List.replicate (left + 1) 0, bits)
      else if rs = 0xF0 then
        if 16 ≤ left + 1 then
          decodeAC t fuel (left + 1 - 16) bits |>.map fun (zs, bits) => (List.replicate 16 0 ++ zs, bits)
        else none
      else if rs / 16 ≤ left then
        receive (rs % 16) bits |>.bind fun (v, bits) =>
          decodeAC t fuel (left - rs / 16) bits |>.map fun (zs, bits) =>
            (List.replicate (rs / 16) 0 ++ extend (rs % 16) v :: zs, bits)
      else none

/-- From `bits` the decoder gets the `left` coefficients `zs`, and `rest` remains. -/
def ReadsAC (t : HuffTable) (left : ℕ) (bits : List Bool) (zs : List ℤ) (rest : List Bool) : Prop :=
  ∀ fuel ≥ left, decodeAC t fuel left bits = some (zs, rest)

section Block

variable {ac : AcCode} {left : ℕ} {bits rest : List Bool} {zs : List ℤ}

theorem ReadsAC.nil : ReadsAC ac.table 0 rest [] rest := fun fuel _ => by cases fuel <;> rfl

theorem ReadsAC.eob (left : ℕ) : ReadsAC ac.table (left + 1) (strBits (ac.HT.getD 0x00 (0, 0)) ++ rest)
    (List.replicate (left + 1) 0) rest := by
  intro fuel hfuel
  obtain ⟨fuel, rfl⟩ : ∃ k, fuel = k + 1 := ⟨fuel - 1, by omega⟩
  rw [decodeAC, ac.eob.decode, Option.bind_some]
  rfl

theorem ReadsAC.zrl (h : ReadsAC ac.table left bits zs rest) :
    ReadsAC ac.table (16 + left) (strBits (ac.HT.getD 0xF0 (0, 0)) ++ bits)
      (List.replicate 16 0 ++ zs) rest := by
  intro fuel hfuel
  obtain ⟨fuel, rfl⟩ : ∃ k, fuel = k + 1 := ⟨fuel - 1, by omega⟩
  rw [show 16 + left = 15 + left + 1 by omega, decodeAC, ac.zrl.decode, Option.bind_some]
  simp only [reduceIte, Nat.reduceEqDiff]
  rw [if_pos (by omega), show 15 + left + 1 - 16 = left by omega, h fuel (by omega), Option.map_some]

theorem ReadsAC.zrls (h : ReadsAC ac.table left bits zs rest) : ∀ n : ℕ,
    ReadsAC ac.table (16 * n + left)
      ((List.replicate n (ac.HT.getD 0xF0 (0, 0))).flatMap strBits ++ bits)
      (List.replicate (16 * n) 0 ++ zs) rest
  | 0 => by simpa using h
  | n + 1 => by
      have := (h.zrls n).zrl
      rw [List.replicate_succ, List.flatMap_cons, List.append_assoc, show 16 * (n + 1) = 16 + 16 * n by ring,
        ← List.replicate_append_replicate, List.append_assoc, Nat.add_assoc]
      exact this

theorem ReadsAC.coef (h : ReadsAC ac.table left bits zs rest) {r : ℕ} (hr : r < 16) {c : ℤ}
    (hc : c ≠ 0) (hle : c.natAbs ≤ 1023) :
    ReadsAC ac.table (r + 1 + left)
      (strBits (ac.HT.getD (r * 16 + (jpegCalcBits c).2) (0, 0)) ++ (strBits (jpegCalcBits c) ++ bits))
      (List.replicate r 0 ++ c :: zs) rest := by
  intro fuel hfuel
  obtain ⟨fuel, rfl⟩ : ∃ k, fuel = k + 1 := ⟨fuel - 1, by omega⟩
  obtain ⟨s, hs, hsize⟩ := calcBits_size (n := 10) hc (by omega)
  obtain ⟨-, hext⟩ := calcBits_spec hc
  have hdec := receive_calcBits hc bits
  rw [hsize] at hext hdec ⊢
  have hmod : (r * 16 + (s + 1)) % 16 = s + 1 := by omega
  have hdiv : (r * 16 + (s + 1)) / 16 = r := by omega
  rw [show r + 1 + left = r + left + 1 by omega, decodeAC, (ac.run hr hs).decode, Option.bind_some]
  dsimp only
  rw [if_neg (by omega), if_neg (by omega), hmod, hdiv, if_pos (by omega), hdec, Option.bind_some]
  dsimp only
  rw [show r + left - r = left by omega, h fuel (by omega), Option.map_some, hext]

/-- The AC part of a block whose coefficients are `nz` zeroes, `cs` and `k` more zeroes, where `cs` does
    not end in a zero. The induction is over `cs`, with the zeroes passed so far in `nz`. -/
theorem readsAC_acStrings {k : ℕ} (htail : ReadsAC ac.table k bits zs rest) :
    ∀ (cs : List ℤ) (nz : ℕ), (∀ c ∈ cs, c.natAbs ≤ 1023) → cs.getLast? ≠ some 0 → (cs = [] → nz = 0) →
      ReadsAC ac.table (nz + cs.length + k) ((acStrings ac.HT nz cs).flatMap strBits ++ bits)
        (List.replicate nz 0 ++ cs ++ zs) rest
  | [], nz, _, _, hnz => by simpa [hnz rfl, acStrings] using htail
  | c :: cs, nz, hle, hlast, _ => by
      obtain ⟨hc, hcs⟩ := List.forall_mem_cons.mp hle
      by_cases h0 : c = 0
      · subst h0
        have hne : cs ≠ [] := by
          rintro rfl
          exact hlast rfl
        have hlast' : cs.getLast? ≠ some 0 := by
          rwa [List.getLast?_cons_of_ne_nil hne] at hlast
        have ih := readsAC_acStrings htail cs (nz + 1) hcs hlast' fun h => absurd h hne
        rw [acStrings, if_pos rfl]
        simpa [List.replicate_succ', Nat.add_assoc, Nat.add_comm 1] using ih
      · have hlast' : cs.getLast? ≠ some 0 := by
          rcases cs with _ | ⟨c', cs⟩
          · simp
          · rwa [List.getLast?_cons_of_ne_nil (List.cons_ne_nil _ _)] at hlast
        have ih := readsAC_acStrings htail cs 0 hcs hlast' fun _ => rfl
        have hblock := (ih.coef (Nat.mod_lt nz (by decide : 0 < 16)) h0 hc).zrls (nz / 16)
        rw [acStrings, if_neg h0]
        have hlen : nz + (c :: cs).length + k =
            16 * (nz / 16) + (nz % 16 + 1 + (0 + cs.length + k)) := by
          rw [List.length_cons]
          omega
        have hzs : List.replicate nz (0 : ℤ) ++ c :: cs ++ zs = List.replicate (16 * (nz / 16)) 0 ++
            (List.replicate (nz % 16) 0 ++ c :: (List.replicate 0 0 ++ cs ++ zs)) := by
          rw [← List.append_assoc, List.replicate_append_replicate, Nat.div_add_mod]
          simp
        rw [hlen, hzs]
        simpa [List.flatMap_append] using hblock

end Block

/-! ### A data unit -/

/-- The search for the last coefficient that is not zero, over any list of positions. -/
theorem foldl_end0pos (DUQ : List ℤ) : ∀ (zs : List ℕ) (e₀ : ℕ),
    let e := zs.foldl (fun e z => if z > e ∧ DUQ.getD z 0 ≠ 0 then z else e) e₀
    e₀ ≤ e ∧ (e = e₀ ∨ e ∈ zs ∧ DUQ.getD e 0 ≠ 0) ∧ ∀ z ∈ zs, e < z → DUQ.getD z 0 = 0
  | [], e₀ => ⟨le_rfl, .inl rfl, by simp⟩
  | z :: zs, e₀ => by
      obtain ⟨hle, hcase, hzero⟩ :=
        foldl_end0pos DUQ zs (if z > e₀ ∧ DUQ.getD z 0 ≠ 0 then z else e₀)
      simp only [List.foldl_cons]
      refine ⟨?_, ?_, List.forall_mem_cons.mpr ⟨fun hlt => ?_, hzero⟩⟩
      · split_ifs at hle ⊢ <;> omega
      · split_ifs at hcase ⊢ with h
        · rcases hcase with hcase | hcase
          · exact .inr ⟨by rw [hcase]; exact List.mem_cons_self, by rw [hcase]; exact h.2⟩
          · exact .inr ⟨List.mem_cons_of_mem _ hcase.1, hcase.2⟩
        · exact hcase.imp_right fun hcase => ⟨List.mem_cons_of_mem _ hcase.1, hcase.2⟩
      · by_contra hne
        split_ifs at hle hlt with h
        · omega
        · exact h ⟨by omega, hne⟩

theorem end0pos_spec (DUQ : List ℤ) : end0pos DUQ < 64 ∧
    (end0pos DUQ ≠ 0 → DUQ.getD (end0pos DUQ) 0 ≠ 0) ∧
    ∀ j < 64, end0pos DUQ < j → DUQ.getD j 0 = 0 := by
  obtain ⟨-, hcase, hzero⟩ := foldl_end0pos DUQ sJpegZigZag 0
  refine ⟨?_, fun hne => ?_, fun j hj => hzero j (mem_zigZag.2 hj)⟩
  · rcases hcase with h | h
    · exact lt_of_eq_of_lt h (by decide)
    · exact mem_zigZag.1 h.1
  · exact (hcase.resolve_left hne).2

/-- The coefficients that `jpeg_processDU` looks at one by one. -/
def codedACs (DUQ : List ℤ) : List ℤ := (DUQ.take (end0pos DUQ + 1)).drop 1

theorem length_codedACs {DUQ : List ℤ} (h : DUQ.length = 64) : (codedACs DUQ).length = end0pos DUQ := by
  have := (end0pos_spec DUQ).1
  rw [codedACs, List.length_drop, List.length_take, h]
  omega

theorem drop_one_eq_codedACs {DUQ : List ℤ} (h : DUQ.length = 64) :
    DUQ.drop 1 = codedACs DUQ ++ List.replicate (63 - end0pos DUQ) 0 := by
  obtain ⟨hlt, -, hzero⟩ := end0pos_spec DUQ
  have htail : DUQ.drop (end0pos DUQ + 1) = List.replicate (63 - end0pos DUQ) 0 := by
    refine List.eq_replicate_iff.mpr ⟨by rw [List.length_drop, h]; omega, fun c hc => ?_⟩
    obtain ⟨i, hi, rfl⟩ := List.getElem_of_mem hc
    rw [List.length_drop] at hi
    rw [List.getElem_drop, ← List.getD_eq_getElem _ 0]
    exact hzero _ (by omega) (by omega)
  rw [← htail, codedACs, ← List.drop_append_of_le_length (by rw [List.length_take, h]; omega),
    List.take_append_drop]

theorem getLast?_codedACs {DUQ : List ℤ} (h : DUQ.length = 64) : (codedACs DUQ).getLast? ≠ some 0 := by
  obtain ⟨hlt, hne, -⟩ := end0pos_spec DUQ
  rw [List.getLast?_eq_getElem?, length_codedACs h, codedACs, List.getElem?_drop]
  by_cases h0 : end0pos DUQ = 0
  · simp [h0]
  · rw [show 1 + (end0pos DUQ - 1) = end0pos DUQ by omega, List.getElem?_take_of_lt (by omega),
      List.getElem?_eq_getElem (by omega), ← List.getD_eq_getElem _ 0]
    exact fun heq => hne h0 (Option.some.inj heq)

/-- The two branches of `jpeg_processDU` in one. -/
theorem duStrings_eq (DUQ : List ℤ) (DC : ℤ) (HTDC HTAC : List (ℕ × ℕ)) :
    duStrings DUQ DC HTDC HTAC = dcStrings HTDC (DUQ.getD 0 0 - DC) ++ (acStrings HTAC 0 (codedACs DUQ) ++
      if end0pos DUQ ≠ 63 then [HTAC.getD 0x00 (0, 0)] else []) := by
  simp only [duStrings, codedACs]
  by_cases h0 : end0pos DUQ = 0
  · rw [if_pos h0, h0, List.drop_eq_nil_of_le (by simp), acStrings, if_pos (by decide), List.nil_append]
  · rw [if_neg h0]

/-- One block, `pred` being the last DC value of its component. -/
def decodeBlock (dc ac : HuffTable) (pred : ℤ) (bits : List Bool) : Option (List ℤ × List Bool) :=
  dc.decode bits |>.bind fun (s, bits) =>
    receive s bits |>.bind fun (v, bits) =>
      decodeAC ac 63 63 bits |>.map fun (zs, bits) => ((pred + extend s v) :: zs, bits)

/-- What the data unit must be for baseline coding: 64 coefficients, the AC coefficients of ten bits,
    the difference of the DC coefficients of eleven. -/
structure BlockOk (pred : ℤ) (DUQ : List ℤ) : Prop where
  length : DUQ.length = 64
  ac : ∀ c ∈ DUQ.drop 1, c.natAbs ≤ 1023
  dc : (DUQ.getD 0 0 - pred).natAbs ≤ 2047

instance (pred : ℤ) (DUQ : List ℤ) : Decidable (BlockOk pred DUQ) :=
  decidable_of_iff (DUQ.length = 64 ∧ (∀ c ∈ DUQ.drop 1, c.natAbs ≤ 1023) ∧
      (DUQ.getD 0 0 - pred).natAbs ≤ 2047)
    ⟨fun ⟨h1, h2, h3⟩ => ⟨h1, h2, h3⟩, fun ⟨h1, h2, h3⟩ => ⟨h1, h2, h3⟩⟩

theorem readsAC_block {ac : AcCode} {pred : ℤ} {DUQ : List ℤ} (h : BlockOk pred DUQ) (rest : List Bool) :
    ReadsAC ac.table 63 ((acStrings ac.HT 0 (codedACs DUQ) ++
      if end0pos DUQ ≠ 63 then [ac.HT.getD 0x00 (0, 0)] else []).flatMap strBits ++ rest)
      (DUQ.drop 1) rest := by
  obtain ⟨hlt, -, -⟩ := end0pos_spec DUQ
  have hlen := length_codedACs h.length
  have hac : ∀ c ∈ codedACs DUQ, c.natAbs ≤ 1023 := fun c hc =>
    h.ac c (by rw [drop_one_eq_codedACs h.length]; exact List.mem_append_left _ hc)
  have htail : ReadsAC ac.table (63 - end0pos DUQ)
      ((if end0pos DUQ ≠ 63 then [ac.HT.getD 0x00 (0, 0)] else []).flatMap strBits ++ rest)
      (List.replicate (63 - end0pos DUQ) 0) rest := by
    split_ifs with h63
    · obtain ⟨k, hk⟩ : ∃ k, 63 - end0pos DUQ = k + 1 := ⟨62 - end0pos DUQ, by omega⟩
      rw [hk, List.flatMap_singleton]
      exact ReadsAC.eob k
    · rw [not_not.mp h63]
      exact ReadsAC.nil
  have := readsAC_acStrings htail (codedACs DUQ) 0 hac (getLast?_codedACs h.length) fun _ => rfl
  rw [drop_one_eq_codedACs h.length, List.flatMap_append, List.append_assoc]
  rw [hlen, show 0 + end0pos DUQ + (63 - end0pos DUQ) = 63 by omega] at this
  simpa using this

/-- The DC part, with the AC part as a hypothesis. -/
theorem decodeBlock_dcStrings {dc : DcCode} {ac : HuffTable} {pred d : ℤ} {zs : List ℤ}
    {bits rest : List Bool} (hd : (d - pred).natAbs ≤ 2047) (hac : ReadsAC ac 63 bits zs rest) :
    decodeBlock dc.table ac pred ((dcStrings dc.HT (d - pred)).flatMap strBits ++ bits) =
      some (d :: zs, rest) := by
  unfold dcStrings decodeBlock
  split_ifs with h0
  · rw [List.flatMap_singleton, (dc.size (by decide : 0 < 12)).decode, Option.bind_some]
    dsimp only
    rw [show receive 0 bits = some (0, bits) by simp [receive, ofBits], Option.bind_some]
    dsimp only
    rw [hac 63 le_rfl, Option.map_some, show d = pred by omega]
    simp [extend]
  · obtain ⟨s, hs, hsize⟩ := calcBits_size (n := 11) h0 (by omega)
    obtain ⟨-, hext⟩ := calcBits_spec h0
    have hdec := receive_calcBits h0 bits
    rw [List.flatMap_cons, List.flatMap_singleton, List.append_assoc]
    rw [hsize] at hext hdec ⊢
    rw [(dc.size (by omega : s + 1 < 12)).decode, Option.bind_some]
    dsimp only
    rw [hdec, Option.bind_some]
    dsimp only
    rw [hac 63 le_rfl, Option.map_some, hext]
    simp

/-- A data unit is read back. -/
theorem decodeBlock_duStrings {dc : DcCode} {ac : AcCode} {pred : ℤ} {DUQ : List ℤ} (h : BlockOk pred DUQ)
    (rest : List Bool) :
    decodeBlock dc.table ac.table pred ((duStrings DUQ pred dc.HT ac.HT).flatMap strBits ++ rest) =
      some (DUQ, rest) := by
  rw [duStrings_eq, List.flatMap_append, List.append_assoc,
    decodeBlock_dcStrings h.dc (readsAC_block h rest)]
  obtain ⟨d, ds, rfl⟩ := List.exists_cons_of_length_eq_add_one h.length
  rfl

/-! ### Every bit string can be written -/

theorem strOk_acStrings (ac : AcCode) : ∀ (cs : List ℤ) (nz : ℕ), (∀ c ∈ cs, c.natAbs ≤ 1023) →
    ∀ w ∈ acStrings ac.HT nz cs, StrOk w
  | [], _, _, w, hw => by simp [acStrings] at hw
  | c :: cs, nz, hle, w, hw => by
      obtain ⟨hc, hcs⟩ := List.forall_mem_cons.mp hle
      rw [acStrings] at hw
      split_ifs at hw with h0
      · exact strOk_acStrings ac cs (nz + 1) hcs w hw
      · obtain ⟨s, hs, hsize⟩ := calcBits_size (n := 10) h0 (by omega)
        rcases List.mem_append.mp hw with hw | hw
        · rcases List.mem_append.mp hw with hw | hw
          · rw [List.eq_of_mem_replicate hw]
            exact ac.zrl.1
          · rw [hsize, List.mem_cons, List.mem_singleton] at hw
            rcases hw with rfl | rfl
            · exact (ac.run (Nat.mod_lt _ (by decide)) hs).1
            · exact strOk_calcBits h0 (by omega)
        · exact strOk_acStrings ac cs 0 hcs w hw

theorem strOk_dcStrings (dc : DcCode) {diff : ℤ} (h : diff.natAbs ≤ 2047) :
    ∀ w ∈ dcStrings dc.HT diff, StrOk w := by
  intro w hw
  rw [dcStrings] at hw
  split_ifs at hw with h0
  · rw [List.mem_singleton.mp hw]
    exact (dc.size (by decide : 0 < 12)).1
  · obtain ⟨s, hs, hsize⟩ := calcBits_size (n := 11) h0 (by omega)
    rw [hsize, List.mem_cons, List.mem_singleton] at hw
    rcases hw with rfl | rfl
    · exact (dc.size (by omega : s + 1 < 12)).1
    · exact strOk_calcBits h0 (by omega)

theorem strOk_duStrings (dc : DcCode) (ac : AcCode) {pred : ℤ} {DUQ : List ℤ} (h : BlockOk pred DUQ) :
    ∀ w ∈ duStrings DUQ pred dc.HT ac.HT, StrOk w := by
  intro w hw
  rw [duStrings_eq, List.mem_append, List.mem_append] at hw
  rcases hw with hw | hw | hw
  · exact strOk_dcStrings dc h.dc w hw
  · refine strOk_acStrings ac _ 0 (fun c hc => h.ac c ?_) w hw
    rw [drop_one_eq_codedACs h.length]
    exact List.mem_append_left _ hc
  · split_ifs at hw
    · rw [List.mem_singleton.mp hw]
      exact ac.eob.1
    · cases hw

/-! ### The scan -/

def Comp.dc : Comp → DcCode
  | .y => ydc
  | .u => uvdc
  | .v => uvdc

def Comp.ac : Comp → AcCode
  | .y => yac
  | .u => uvac
  | .v => uvac

theorem Comp.dc_HT (c : Comp) : c.dc.HT = c.HTDC := by cases c <;> rfl

theorem Comp.ac_HT (c : Comp) : c.ac.HT = c.HTAC := by cases c <;> rfl

/-- The data units are ones for baseline coding when `pred` are the last DC values. -/
def UnitsOk : (Comp → ℤ) → List DataUnit → Prop
  | _, [] => True
  | pred, u :: us => BlockOk (pred u.1) u.2 ∧ UnitsOk (Function.update pred u.1 (u.2.getD 0 0)) us

instance : ∀ (pred : Comp → ℤ) (us : List DataUnit), Decidable (UnitsOk pred us)
  | _, [] => .isTrue trivial
  | pred, u :: us =>
    have := instDecidableUnitsOk (Function.update pred u.1 (u.2.getD 0 0)) us
    inferInstanceAs (Decidable (_ ∧ _))

/-- The baseline decoder: a block for each component of the list, by the tables of the component. -/
def decodeUnits : (Comp → ℤ) → List Comp → List Bool → Option (List (List ℤ) × List Bool)
  | _, [], bits => some ([], bits)
  | pred, c :: cs, bits =>
    decodeBlock c.dc.table c.ac.table (pred c) bits |>.bind fun (DUQ, bits) =>
      decodeUnits (Function.update pred c (DUQ.getD 0 0)) cs bits |>.map fun (DUQs, bits) =>
        (DUQ :: DUQs, bits)

theorem strOk_unitStrings : ∀ {us : List DataUnit} {pred : Comp → ℤ}, UnitsOk pred us →
    ∀ w ∈ unitStrings pred us, StrOk w
  | [], _, _, w, hw => by simp [unitStrings] at hw
  | u :: us, pred, h, w, hw => by
      rw [unitStrings, ← u.1.dc_HT, ← u.1.ac_HT] at hw
      rcases List.mem_append.mp hw with hw | hw
      · exact strOk_duStrings _ _ h.1 w hw
      · exact strOk_unitStrings h.2 w hw

theorem decodeUnits_unitStrings (rest : List Bool) : ∀ {us : List DataUnit} {pred : Comp → ℤ},
    UnitsOk pred us →
    decodeUnits pred (us.map Prod.fst) ((unitStrings pred us).flatMap strBits ++ rest) =
      some (us.map Prod.snd, rest)
  | [], _, _ => rfl
  | u :: us, pred, h => by
      rw [unitStrings, ← u.1.dc_HT, ← u.1.ac_HT, List.flatMap_append, List.append_assoc, List.map_cons,
        List.map_cons, decodeUnits, decodeBlock_duStrings h.1, Option.bind_some]
      dsimp only
      rw [decodeUnits_unitStrings rest h.2, Option.map_some]

/-- Whatever is in the buffer before, with enough room the data units and the fill bits are stored as
    bytes from which the decoder gets the coefficients, and nothing but fill bits remains. -/
theorem scan_decodes {us : List DataUnit} {s : EncState} (hs : UnitsOk s.pred us) (hc : s.buf.bitc = 0)
    (hb : s.buf.bitb = 0) (ho : (jpegWriteBits (encodeUnits s us).buf fillBits).overflow = false) :
    ∃ (scan : List UInt8) (pad : List Bool),
      (jpegWriteBits (encodeUnits s us).buf fillBits).buf = s.buf.buf ++ scan ∧
      decodeUnits s.pred (us.map Prod.fst) ((unescape 255 0 scan).flatMap (bitsOf 8 ·.toNat)) =
        some (us.map Prod.snd, pad) ∧
      pad.length < 8 ∧ ∀ x ∈ pad, x = true := by
  rw [encodeUnits_buf] at ho ⊢
  have hw := (Written.nil hc hb).foldl (strOk_unitStrings hs) (foldl_writeBits_buf [fillBits] ho).1
  obtain ⟨bytes, pad, hbuf, hbits, hpad, hones⟩ := hw.fillBits ho
  refine ⟨escape 255 0 bytes, pad, hbuf, ?_, hpad, hones⟩
  rw [unescape_escape, hbits, List.nil_append]
  exact decodeUnits_unitStrings pad hs

/-- A bound for the bytes of the stream: the header, a byte for every bit, and the end marker. -/
def streamRoom (t : QuantTables) (src : Source) (groups : List (List DataUnit)) (quality : ℕ) : ℕ :=
  (headerOf t src quality).flatten.length +
    (((unitStrings (fun _ => 0) groups.flatten).map Prod.snd).sum + 9)

/-- With enough room `jpeg_compress` reaches its end without overflow. -/
theorem compress_of_room {t : QuantTables} {src : Source} {groups : List (List DataUnit)}
    {length quality : ℕ} (realloc : Bool) (h : streamRoom t src groups quality < length) :
    let s := afterHeaders t src length quality realloc
    let b := jpegPutChar (jpegPutChar (jpegWriteBits (encodeUnits s groups.flatten).buf fillBits) 0xFF) 0xD9
    s.buf.overflow = false ∧ b.overflow = false ∧
      jpegCompress t src groups length quality realloc = (b, true) := by
  intro s b
  obtain ⟨hroom, ho⟩ := afterHeaders_room realloc h
  have hroom' : Room s.buf (s.buf.bitc +
      (((unitStrings s.pred groups.flatten).map Prod.snd).sum + (7 + 2))) := by
    rw [afterHeaders_pred, (afterHeaders_bits t src length quality realloc).1]
    exact hroom.mono (by omega)
  obtain ⟨hroom1, ho1⟩ := Room.foldl_writeBits _ hroom'
  obtain ⟨hroom2, ho2⟩ := Room.foldl_writeBits [fillBits] (n := 2) (hroom1.mono (by simp [fillBits]))
  obtain ⟨hroom3, ho3⟩ := Room.putBytes [0xFF] (n := 1) (hroom2.mono (by simp))
  obtain ⟨-, ho4⟩ := Room.putBytes [0xD9] (n := 0) (hroom3.mono (by simp))
  rw [← encodeUnits_buf groups.flatten s] at ho1 ho2 ho3 ho4
  have hlast : (encodeUnits s groups.flatten).buf.overflow = false := ho1.trans ho
  refine ⟨ho, ho4.trans (ho3.trans (ho2.trans hlast)), ?_⟩
  simp only [compress_eq, s, b, encodeGroups_of_room hlast, if_true]

/-- The coefficients of every block come back from the stream, by the tables in the DHT segments. -/
theorem jpeg_compress_roundtrip (t : QuantTables) (src : Source) (groups : List (List DataUnit))
    (quality : ℕ) (realloc : Bool) (h : UnitsOk (fun _ => 0) groups.flatten) :
    ∃ N, ∀ length > N,
      let r := jpegCompress t src groups length quality realloc
      r.2 = true ∧ r.1.overflow = false ∧
      ∃ (scan : List UInt8) (pad : List Bool),
        r.1.buf = (headerOf t src quality).flatten ++ scan ++ [0xFF, 0xD9] ∧
        decodeUnits (fun _ => 0) (groups.flatten.map Prod.fst)
          ((unescape 255 0 scan).flatMap (bitsOf 8 ·.toNat)) = some (groups.flatten.map Prod.snd, pad) ∧
        pad.length < 8 ∧ ∀ x ∈ pad, x = true := by
  refine ⟨streamRoom t src groups quality, fun length hlen => ?_⟩
  obtain ⟨ho, hend, heq⟩ := compress_of_room realloc hlen
  obtain ⟨ho', hbuf⟩ := putEnd_buf hend
  obtain ⟨hc, hb⟩ := afterHeaders_bits t src length quality realloc
  rw [← afterHeaders_pred t src length quality realloc] at h
  obtain ⟨scan, pad, hscan, hdec, hpad, hones⟩ := scan_decodes h hc hb ho'
  rw [afterHeaders_pred] at hdec
  simp only [heq]
  refine ⟨trivial, hend, scan, pad, ?_, hdec, hpad, hones⟩
  rw [hbuf, hscan, afterHeaders_buf ho]

/-- A luma block with a run of more than 15 zeroes before a negative coefficient, and two flat chroma
    blocks. -/
def sampleUnits : List DataUnit :=
  [(.y, 5 :: List.replicate 40 0 ++ [-3] ++ List.replicate 22 0), (.u, -1 :: List.replicate 63 0),
   (.v, List.replicate 64 0)]

theorem jpeg_compress_roundtrip_sample :
    UnitsOk (fun _ => 0) [sampleUnits].flatten ∧
    ∃ N, ∀ length > N,
      let t : QuantTables := ⟨0, List.replicate 64 1, List.replicate 64 1, rfl, rfl⟩
      let r := jpegCompress t ⟨8, 8, 2⟩ [sampleUnits] length 90 false
      r.2 = true ∧ r.1.overflow = false ∧
      ∃ (scan : List UInt8) (pad : List Bool),
        r.1.buf = (headerOf t ⟨8, 8, 2⟩ 90).flatten ++ scan ++ [0xFF, 0xD9] ∧
        decodeUnits (fun _ => 0) [.y, .u, .v] ((unescape 255 0 scan).flatMap (bitsOf 8 ·.toNat)) =
          some (sampleUnits.map Prod.snd, pad) ∧
        pad.length < 8 ∧ ∀ x ∈ pad, x = true := by
  have h : UnitsOk (fun _ => 0) [sampleUnits].flatten := by decide
  exact ⟨h, jpeg_compress_roundtrip _ ⟨8, 8, 2⟩ [sampleUnits] 90 false h⟩

end OpenMV.Jpeg
