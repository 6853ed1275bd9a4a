import Mathlib.Algebra.Field.Defs
import Mathlib.Data.BitVec

/-! Fields by tables of logarithms | scheme:data

    Elements are bit vectors that are added by exclusive or and multiplied by adding logarithms. Both go together when
    multiplication by the base is an additive map: then the products with any element are. -/

namespace OpenMV.Schemes

/-- A table of entries with `w` bits as one number, to compute with. -/
def packTable (w : ℕ) (l : List ℕ) : ℕ := l.foldr (fun a n => n * 2 ^ w + a) 0

theorem getD_eq_packed {w : ℕ} : ∀ {l : List ℕ}, (∀ a ∈ l, a < 2 ^ w) → ∀ i,
    l.getD i 0 = packTable w l / 2 ^ (w * i) % 2 ^ w
  | [], _, i => by simp [packTable]
  | a :: l, h, 0 => by simp [packTable, Nat.mod_eq_of_lt (h a List.mem_cons_self)]
  | a :: l, h, i + 1 => by
      have ha := h a List.mem_cons_self
      have hdiv : packTable w (a :: l) / 2 ^ w = packTable w l := by
        rw [packTable, List.foldr_cons, ← packTable, Nat.mul_comm,
          Nat.mul_add_div (Nat.two_pow_pos w), Nat.div_eq_of_lt ha, Nat.add_zero]
      rw [List.getD_cons_succ, getD_eq_packed (fun b hb => h b (List.mem_cons_of_mem a hb)) i, Nat.mul_add_one,
        Nat.add_comm (w * i), Nat.pow_add, ← Nat.div_div_eq_div_mul, hdiv]

/-- The tables, the order `p` of the base, and multiplication by the base. -/
structure LogField (w : ℕ) where
  p : ℕ
  log : BitVec w → ℕ
  exp : ℕ → BitVec w
  times : BitVec w → BitVec w
  one_lt : 1 < p
  log_le : ∀ a, log a ≤ p
  exp_zero : exp 0 = 1#w
  exp_ne : ∀ i < p, exp i ≠ 0#w
  exp_log : ∀ a, a ≠ 0#w → exp (log a % p) = a
  log_exp : ∀ i < p, log (exp i) % p = i
  times_exp : ∀ i < p, times (exp i) = exp ((i + 1) % p)
  times_xor : ∀ a b, times (a ^^^ b) = times a ^^^ times b

namespace LogField

variable {w : ℕ} (gf : LogField w)

/-- The element with a logarithm. -/
def power (i : ℕ) : BitVec w := gf.exp (i % gf.p)

/-- The product, by the tables. -/
def times₂ (a b : BitVec w) : BitVec w := if a = 0#w ∨ b = 0#w then 0#w else gf.power (gf.log a + gf.log b)

theorem p_pos : 0 < gf.p := Nat.zero_lt_of_lt gf.one_lt

theorem power_ne (i : ℕ) : gf.power i ≠ 0#w := gf.exp_ne _ (Nat.mod_lt _ gf.p_pos)

theorem power_log {a : BitVec w} (ha : a ≠ 0#w) : gf.power (gf.log a) = a := gf.exp_log a ha

theorem log_power (i : ℕ) : gf.log (gf.power i) % gf.p = i % gf.p := gf.log_exp _ (Nat.mod_lt _ gf.p_pos)

theorem power_congr {i j : ℕ} (h : i % gf.p = j % gf.p) : gf.power i = gf.power j := by rw [power, power, h]

theorem power_zero : gf.power 0 = 1#w := by rw [power, Nat.zero_mod, gf.exp_zero]

theorem times₂_zero (a : BitVec w) : gf.times₂ a 0#w = 0#w := if_pos (.inr rfl)

theorem zero_times₂ (a : BitVec w) : gf.times₂ 0#w a = 0#w := if_pos (.inl rfl)

theorem times₂_power (i j : ℕ) : gf.times₂ (gf.power i) (gf.power j) = gf.power (i + j) := by
  rw [times₂, if_neg (by simp [gf.power_ne])]
  refine gf.power_congr ?_
  rw [Nat.add_mod, gf.log_power, gf.log_power, ← Nat.add_mod]

/-- Zero or a power of the base. -/
theorem eq_zero_or_power (a : BitVec w) : a = 0#w ∨ ∃ i, a = gf.power i := by
  by_cases h : a = 0#w
  · exact .inl h
  · exact .inr ⟨gf.log a, (gf.power_log h).symm⟩

theorem times₂_comm (a b : BitVec w) : gf.times₂ a b = gf.times₂ b a := by
  simp only [times₂, Or.comm (a := a = 0#w), Nat.add_comm (gf.log a)]

theorem times₂_assoc (a b c : BitVec w) : gf.times₂ (gf.times₂ a b) c = gf.times₂ a (gf.times₂ b c) := by
  rcases gf.eq_zero_or_power a with rfl | ⟨i, rfl⟩
  · simp only [zero_times₂]
  rcases gf.eq_zero_or_power b with rfl | ⟨j, rfl⟩
  · simp only [zero_times₂, times₂_zero]
  rcases gf.eq_zero_or_power c with rfl | ⟨k, rfl⟩
  · simp only [times₂_zero]
  · simp only [times₂_power, Nat.add_assoc]

theorem one_times₂ (a : BitVec w) : gf.times₂ 1#w a = a := by
  rcases gf.eq_zero_or_power a with rfl | ⟨i, rfl⟩
  · exact gf.times₂_zero _
  · rw [← gf.power_zero, times₂_power, Nat.zero_add]

theorem times_zero : gf.times 0#w = 0#w := by
  have h := gf.times_xor 0#w 0#w
  rwa [BitVec.xor_self, BitVec.xor_self] at h

theorem times_power (i : ℕ) : gf.times (gf.power i) = gf.power (i + 1) := by
  rw [power, gf.times_exp _ (Nat.mod_lt _ gf.p_pos), ← power]
  exact gf.power_congr (Nat.mod_add_mod _ _ _)

/-- A product is multiplication by the base, over and over. -/
theorem times₂_eq_iterate (i : ℕ) (b : BitVec w) : gf.times₂ (gf.power i) b = gf.times^[i] b := by
  rcases gf.eq_zero_or_power b with rfl | ⟨j, rfl⟩
  · rw [times₂_zero]
    induction i with
    | zero => rfl
    | succ i ih => rw [Function.iterate_succ_apply', ← ih, times_zero]
  · rw [times₂_power]
    induction i with
    | zero => rw [Nat.zero_add, Function.iterate_zero, id]
    | succ i ih => rw [Function.iterate_succ_apply', ← ih, times_power, Nat.add_right_comm]

theorem iterate_xor (i : ℕ) (a b : BitVec w) : gf.times^[i] (a ^^^ b) = gf.times^[i] a ^^^ gf.times^[i] b := by
  induction i with
  | zero => rfl
  | succ i ih => rw [Function.iterate_succ_apply', ih, gf.times_xor, ← Function.iterate_succ_apply' gf.times,
      ← Function.iterate_succ_apply' gf.times]

theorem times₂_xor (a b c : BitVec w) : gf.times₂ a (b ^^^ c) = gf.times₂ a b ^^^ gf.times₂ a c := by
  rcases gf.eq_zero_or_power a with rfl | ⟨i, rfl⟩
  · simp only [zero_times₂, BitVec.xor_self]
  · simp only [times₂_eq_iterate, iterate_xor]

/-- The inverse, by the tables. -/
def inverse (a : BitVec w) : BitVec w := if a = 0#w then 0#w else gf.power (gf.p - gf.log a)

theorem times₂_inverse {a : BitVec w} (ha : a ≠ 0#w) : gf.times₂ a (gf.inverse a) = 1#w := by
  have hle := gf.log_le a
  rw [inverse, if_neg ha]
  nth_rewrite 1 [← gf.power_log ha]
  rw [times₂_power, Nat.add_sub_cancel' hle, ← gf.power_zero]
  exact gf.power_congr (by rw [Nat.mod_self, Nat.zero_mod])

theorem one_ne (gf : LogField w) : 1#w ≠ 0#w := gf.exp_zero ▸ gf.exp_ne 0 gf.p_pos

theorem inverse_zero : gf.inverse 0#w = 0#w := if_pos rfl

/-! ### The field -/

/-- An element of the field. -/
@[ext] structure Elem (gf : LogField w) where
  val : BitVec w

instance : Zero gf.Elem := ⟨⟨0#w⟩⟩
instance : One gf.Elem := ⟨⟨1#w⟩⟩
instance : Add gf.Elem := ⟨fun a b => ⟨a.val ^^^ b.val⟩⟩
instance : Mul gf.Elem := ⟨fun a b => ⟨gf.times₂ a.val b.val⟩⟩
instance : Neg gf.Elem := ⟨id⟩
instance : Inv gf.Elem := ⟨fun a => ⟨gf.inverse a.val⟩⟩

variable {gf}

theorem val_add (a b : gf.Elem) : (a + b).val = a.val ^^^ b.val := rfl
theorem val_mul (a b : gf.Elem) : (a * b).val = gf.times₂ a.val b.val := rfl

theorem val_ne_zero {a : gf.Elem} (ha : a ≠ 0) : a.val ≠ 0#w := fun h => ha (Elem.ext h)

variable (gf)

instance : Field gf.Elem where
  add := (· + ·)
  zero := 0
  neg := (- ·)
  mul := (· * ·)
  one := 1
  inv := (·⁻¹)
  add_assoc a b c := Elem.ext (BitVec.xor_assoc ..)
  zero_add a := Elem.ext (BitVec.zero_xor ..)
  add_zero a := Elem.ext (BitVec.xor_zero ..)
  add_comm a b := Elem.ext (BitVec.xor_comm ..)
  neg_add_cancel a := Elem.ext (BitVec.xor_self ..)
  nsmul := nsmulRec
  zsmul := zsmulRec
  left_distrib a b c := Elem.ext (gf.times₂_xor ..)
  right_distrib a b c := Elem.ext <| by
    simp only [val_mul, val_add, gf.times₂_comm _ c.val, times₂_xor]
  zero_mul a := Elem.ext (gf.zero_times₂ a.val)
  mul_zero a := Elem.ext (gf.times₂_zero a.val)
  mul_assoc a b c := Elem.ext (gf.times₂_assoc ..)
  one_mul a := Elem.ext (gf.one_times₂ ..)
  mul_one a := Elem.ext ((gf.times₂_comm ..).trans (gf.one_times₂ ..))
  mul_comm a b := Elem.ext (gf.times₂_comm ..)
  exists_pair_ne := ⟨1, 0, fun h => gf.one_ne (congrArg Elem.val h)⟩
  mul_inv_cancel a ha := Elem.ext (gf.times₂_inverse (val_ne_zero ha))
  inv_zero := Elem.ext gf.inverse_zero
  nnqsmul := _
  nnqsmul_def _ _ := rfl
  qsmul := _
  qsmul_def _ _ := rfl

/-- The base of the logarithms. -/
def base : gf.Elem := ⟨gf.power 1⟩

theorem val_base_pow (i : ℕ) : (gf.base ^ i).val = gf.power i := by
  induction i with
  | zero => exact gf.power_zero.symm
  | succ i ih =>
    calc (gf.base ^ (i + 1)).val = gf.times₂ (gf.base ^ i).val gf.base.val := by rw [pow_succ]; rfl
      _ = gf.power (i + 1) := by rw [ih, base, times₂_power]

end LogField

end OpenMV.Schemes
