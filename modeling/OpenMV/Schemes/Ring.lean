import Mathlib.Data.List.Range

/-! Rings | scheme:circular buffer

    A queue lies in an array of slots behind the slot of its oldest element, and goes on at the first slot behind the
    last one. With fewer elements than slots the next element has a slot of its own; in a full ring that slot is the
    oldest element's. -/

namespace OpenMV.Schemes.Ring

variable {α : Type*} {size first k l n : ℕ} {slots slots' : ℕ → α}

/-- The slot at the distance `k` behind `first`, for distances up to `size`. -/
def slotAt (size first k : ℕ) : ℕ := if first + k < size then first + k else first + k - size

/-- The slot behind. -/
def next (size i : ℕ) : ℕ := if i + 1 = size then 0 else i + 1

theorem at_lt (hfirst : first < size) (hk : k ≤ size) : slotAt size first k < size := by
  unfold slotAt
  split_ifs <;> omega

theorem at_zero (hfirst : first < size) : slotAt size first 0 = first := if_pos hfirst

theorem at_size : slotAt size first size = first := by
  rw [slotAt, if_neg (by omega), Nat.add_sub_cancel]

theorem at_ne (hkl : k < l) (hl : l < size) : slotAt size first k ≠ slotAt size first l := by
  unfold slotAt
  split_ifs <;> omega

theorem next_lt (hfirst : first < size) : next size first < size := by
  unfold next
  split_ifs <;> omega

theorem next_at (hfirst : first < size) (hk : k < size) :
    next size (slotAt size first k) = slotAt size first (k + 1) := by
  unfold next slotAt
  split_ifs <;> omega

theorem at_next (hk : k + 1 ≤ size) : slotAt size (next size first) k = slotAt size first (k + 1) := by
  unfold next slotAt
  split_ifs <;> omega

/-- The elements from `first` on. -/
def contents (slots : ℕ → α) (size first n : ℕ) : List α := (List.range n).map fun k => slots (slotAt size first k)

theorem contents_congr (h : ∀ k < n, slots' (slotAt size first k) = slots (slotAt size first k)) :
    contents slots' size first n = contents slots size first n :=
  List.map_congr_left fun k hk => h k (List.mem_range.mp hk)

/-- The slot of the next element is in no other's way. -/
theorem contents_next (hn : n < size)
    (h : ∀ i, i ≠ slotAt size first n → slots' i = slots i) :
    contents slots' size first n = contents slots size first n :=
  contents_congr fun _ hk => h _ (at_ne hk hn)

theorem contents_push (hn : n < size) (h : ∀ i, i ≠ slotAt size first n → slots' i = slots i) :
    contents slots' size first (n + 1) = contents slots size first n ++ [slots' (slotAt size first n)] := by
  rw [← contents_next hn h, contents, List.range_succ, List.map_append]
  rfl

theorem contents_pop (hfirst : first < size) (hn : n + 1 ≤ size) :
    contents slots size first (n + 1) = slots first :: contents slots size (next size first) n := by
  rw [contents, List.range_succ_eq_map, List.map_cons, at_zero hfirst, List.map_map]
  congr 1
  refine List.map_congr_left fun k hk => ?_
  have hk := List.mem_range.mp hk
  rw [at_next (by omega)]
  rfl

/-- In a full ring the oldest element is replaced. -/
theorem contents_full (hfirst : first < size) (hn : n + 1 = size)
    (h : ∀ i, i ≠ slotAt size first (n + 1) → slots' i = slots i) :
    contents slots' size first (n + 1) = slots' first :: (contents slots size first (n + 1)).tail := by
  rw [contents_pop hfirst hn.le, contents_pop hfirst hn.le, List.tail_cons]
  congr 1
  refine contents_congr fun k hk => h _ ?_
  rw [at_next (by omega), hn, at_size]
  have hne : slotAt size first 0 ≠ slotAt size first (k + 1) := at_ne (Nat.succ_pos k) (by omega)
  rw [at_zero hfirst] at hne
  exact hne.symm

end OpenMV.Schemes.Ring
