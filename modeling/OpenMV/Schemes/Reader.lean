import Mathlib.Data.List.Basic
import Mathlib.Tactic.Ring

/-! Byte readers | scheme:codec

    A reader takes bytes from the front of what is left of a file, or fails. Most readers take a number
    of bytes that is known beforehand: `Takes` says so, together with what they make of the bytes, and
    follows how readers are put together. -/

namespace OpenMV.Schemes

/-- The state is what is still unread. -/
abbrev Reader (ε α : Type) := StateT (List UInt8) (Except ε) α

section
variable {ε α β : Type}

namespace Reader

/-- The reader goes no further if `c` holds. -/
def raiseIf (c : Prop) [Decidable c] (e : ε) : Reader ε Unit := if c then throw e else pure ()

theorem bind_run (x : Reader ε α) (f : α → Reader ε β) (s : List UInt8) :
    (x >>= f) s = match x s with
      | .ok (a, t) => f a t
      | .error e => .error e := by
  show StateT.bind x f s = _
  unfold StateT.bind
  cases x s <;> rfl

theorem bind_of_ok {x : Reader ε α} {s t : List UInt8} {a : α} (h : x s = .ok (a, t))
    (f : α → Reader ε β) : (x >>= f) s = f a t := by
  rw [bind_run, h]

theorem bind_of_error {x : Reader ε α} {s : List UInt8} {e : ε} (h : x s = .error e)
    (f : α → Reader ε β) : (x >>= f) s = .error e := by
  rw [bind_run, h]

/-- A reader in steps comes through when each of its steps does. -/
theorem bind_eq_ok {x : Reader ε α} {f : α → Reader ε β} {s : List UInt8} {r : β × List UInt8} :
    (x >>= f) s = .ok r ↔ ∃ a t, x s = .ok (a, t) ∧ f a t = .ok r := by
  rw [bind_run]
  cases h : x s with
  | error e => simp
  | ok p => exact ⟨fun hf => ⟨p.1, p.2, rfl, hf⟩, by rintro ⟨a, t, ha, hf⟩; cases ha; exact hf⟩

@[simp] theorem pure_run (a : α) (s : List UInt8) : (pure a : Reader ε α) s = .ok (a, s) := rfl

theorem raiseIf_eq_ok {c : Prop} [Decidable c] {e : ε} {s : List UInt8} {r : Unit × List UInt8} :
    raiseIf c e s = .ok r ↔ ¬ c ∧ r = ((), s) := by
  unfold raiseIf
  by_cases hc : c
  · rw [if_pos hc]
    exact ⟨fun h => (nomatch h), fun h => absurd hc h.1⟩
  · rw [if_neg hc, pure_run, Except.ok.injEq]
    exact ⟨fun h => ⟨hc, h.symm⟩, fun h => h.2.symm⟩

theorem raiseIf_of_not {c : Prop} [Decidable c] (hc : ¬ c) (e : ε) (s : List UInt8) :
    raiseIf c e s = .ok ((), s) := raiseIf_eq_ok.2 ⟨hc, rfl⟩

end Reader

/-! ### Readers of a known size -/

/-- The reader takes `n` bytes and makes `g` of them, and fails if there are fewer. -/
structure Takes (r : Reader ε α) (n : ℕ) (g : List UInt8 → α) : Prop where
  ok : ∀ s t, s.length = n → r (s ++ t) = .ok (g s, t)
  short : ∀ s, s.length < n → ∃ e, r s = .error e

namespace Takes

theorem pure (a : α) : Takes (Pure.pure a : Reader ε α) 0 fun _ => a where
  ok s t hs := by
    rw [List.eq_nil_of_length_eq_zero hs]
    rfl
  short s hs := absurd hs (Nat.not_lt_zero _)

theorem bind {x : Reader ε α} {f : α → Reader ε β} {n m : ℕ} {g : List UInt8 → α}
    {k : α → List UInt8 → β} (hx : Takes x n g) (hf : ∀ a, Takes (f a) m (k a)) :
    Takes (x >>= f) (n + m) fun s => k (g (s.take n)) (s.drop n) where
  ok s t hs := by
    have h1 := hx.ok (s.take n) (s.drop n ++ t) (by rw [List.length_take]; omega)
    rw [← List.append_assoc, List.take_append_drop] at h1
    rw [Reader.bind_of_ok h1]
    exact (hf _).ok _ _ (by rw [List.length_drop]; omega)
  short s hs := by
    by_cases hn : s.length < n
    · obtain ⟨e, he⟩ := hx.short s hn
      exact ⟨e, Reader.bind_of_error he f⟩
    · have h1 := hx.ok (s.take n) (s.drop n) (by rw [List.length_take]; omega)
      rw [List.take_append_drop] at h1
      rw [Reader.bind_of_ok h1]
      exact (hf _).short _ (by rw [List.length_drop]; omega)

theorem map {x : Reader ε α} {n : ℕ} {g : List UInt8 → α} (hx : Takes x n g) (f : α → β) :
    Takes (x >>= fun a => Pure.pure (f a)) n fun s => f (g s) where
  ok s t hs := by rw [Reader.bind_of_ok (hx.ok s t hs), Reader.pure_run]
  short s hs := by
    obtain ⟨e, he⟩ := hx.short s hs
    exact ⟨e, Reader.bind_of_error he _⟩

/-- Whether such a reader comes through is a question of length. -/
theorem eq_ok_iff {x : Reader ε α} {n : ℕ} {g : List UInt8 → α} (hx : Takes x n g)
    {s : List UInt8} {r : α × List UInt8} :
    x s = .ok r ↔ n ≤ s.length ∧ r = (g (s.take n), s.drop n) := by
  by_cases hn : n ≤ s.length
  · have h1 := hx.ok (s.take n) (s.drop n) (by rw [List.length_take]; omega)
    rw [List.take_append_drop] at h1
    rw [h1, Except.ok.injEq]
    exact ⟨fun h => ⟨hn, h.symm⟩, fun h => h.2.symm⟩
  · obtain ⟨e, he⟩ := hx.short s (by omega)
    rw [he]
    exact ⟨fun h => (nomatch h), fun h => absurd h.1 hn⟩

theorem congr {x : Reader ε α} {n : ℕ} {g g' : List UInt8 → α} (hx : Takes x n g)
    (h : ∀ s, s.length = n → g s = g' s) : Takes x n g' where
  ok s t hs := by rw [hx.ok s t hs, h s hs]
  short := hx.short

/-- A loop of readers of `n` bytes each: the bytes are handed out piece by piece. -/
theorem mapM_range' {f : ℕ → Reader ε β} {n : ℕ} {g : ℕ → List UInt8 → β}
    (hf : ∀ i, Takes (f i) n (g i)) : ∀ k a : ℕ,
    Takes ((List.range' a k).mapM f) (k * n) fun s =>
      (List.range' a k).map fun i => g i ((s.drop ((i - a) * n)).take n)
  | 0, a => by
    rw [Nat.zero_mul]
    exact Takes.pure []
  | k + 1, a => by
    rw [List.range'_succ, List.mapM_cons, Nat.add_mul, Nat.one_mul, Nat.add_comm (k * n)]
    refine ((hf a).bind fun b => (mapM_range' hf k (a + 1)).map (b :: ·)).congr fun s _ => ?_
    rw [List.map_cons, Nat.sub_self, Nat.zero_mul, List.drop_zero]
    congr 1
    refine List.map_congr_left fun i hi => ?_
    have hi := (List.mem_range'_1.1 hi).1
    rw [List.drop_drop, show n + (i - (a + 1)) * n = (i - a) * n by
      rw [show i - a = i - (a + 1) + 1 by omega]; ring]

theorem mapM_range {f : ℕ → Reader ε β} {n : ℕ} {g : ℕ → List UInt8 → β}
    (hf : ∀ i, Takes (f i) n (g i)) (k : ℕ) :
    Takes ((List.range k).mapM f) (k * n) fun s =>
      (List.range k).map fun i => g i ((s.drop (i * n)).take n) := by
  rw [List.range_eq_range']
  exact mapM_range' hf k 0

end Takes

theorem length_flatMap_range {f : ℕ → List α} {n : ℕ} (hf : ∀ i, (f i).length = n) (k : ℕ) :
    ((List.range k).flatMap f).length = k * n := by
  simp [List.length_flatMap, hf]

/-- One loop over a whole array does what two loops over its rows and columns do. -/
theorem map_range_mul (f : ℕ → α) (w : ℕ) : ∀ h : ℕ, (List.range (h * w)).map f =
    (List.range h).flatMap fun i => (List.range w).map fun j => f (i * w + j)
  | 0 => by rw [Nat.zero_mul]; rfl
  | h + 1 => by
    rw [Nat.add_mul, Nat.one_mul, List.range_add, List.map_append, map_range_mul f w h,
      List.range_succ, List.flatMap_append, List.flatMap_singleton, List.map_map]
    rfl

/-- A loop that goes on with something else once it is past `n`. -/
theorem flatMap_range_pad {f : ℕ → List α} {g : List α} {n m : ℕ} (h : n ≤ m) :
    ((List.range m).flatMap fun j => if j < n then f j else g) =
      (List.range n).flatMap f ++ (List.range (m - n)).flatMap fun _ => g := by
  obtain ⟨k, rfl⟩ := Nat.exists_eq_add_of_le h
  rw [List.range_add, List.flatMap_append, List.flatMap_map, Nat.add_sub_cancel_left]
  congr 1
  · exact List.flatMap_congr fun j hj => if_pos (List.mem_range.1 hj)
  · exact List.flatMap_congr fun j _ => if_neg (by omega)

/-- The pieces of what was written in pieces of one length. -/
theorem flatMap_range_piece {f : ℕ → List α} {n : ℕ} (hf : ∀ i, (f i).length = n) :
    ∀ {k i : ℕ}, i < k → (((List.range k).flatMap f).drop (i * n)).take n = f i
  | k + 1, i, h => by
    have hlen := length_flatMap_range hf k
    rw [List.range_succ, List.flatMap_append, List.flatMap_singleton]
    rcases Nat.lt_or_eq_of_le (Nat.le_of_lt_succ h) with hi | rfl
    · have hle : (i + 1) * n ≤ k * n := Nat.mul_le_mul_right n hi
      rw [Nat.add_mul, Nat.one_mul] at hle
      rw [List.drop_append_of_le_length (by omega), List.take_append_of_le_length
        (by rw [List.length_drop]; omega), flatMap_range_piece hf hi]
    · rw [← hlen, List.drop_left, List.take_of_length_le (hf i).le]

theorem getD_flatMap_range {f : ℕ → List UInt8} {n k i j : ℕ} (hf : ∀ i, (f i).length = n) (hi : i < k)
    (hj : j < n) : ((List.range k).flatMap f).getD (i * n + j) 0 = (f i).getD j 0 := by
  rw [← flatMap_range_piece hf hi]
  simp [List.getD_eq_getElem?_getD, hj]

end

end OpenMV.Schemes
