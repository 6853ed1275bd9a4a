import Mathlib.Data.List.Induction
import Mathlib.Data.List.Sort

/-! A stack of blocks with marks | scheme:stack

    The data structure a region allocator is meant to be: blocks are pushed one at a time, a mark
    opens a region, and popping a mark releases every block pushed since. The stack is one list,
    most recent item first, with the marks in line:

        block c :: block b :: mark :: block a :: []        level 1, blocks [c, b, a]

    `entries` numbers the blocks from the bottom (1, 2, …) and records the level each was pushed at.
    The lemmas say what each operation does to that numbered list, which is the form in which an
    implementation with counters can be compared with it. -/

namespace OpenMV.Schemes.MarkStack

variable {α : Type*}

/-- An item of the stack: a mark, or a block. -/
inductive Item (α : Type*) where
  | mark
  | block (a : α)
  deriving DecidableEq

open Item

/-- How many marks are open. -/
def level : List (Item α) → ℕ
  | [] => 0
  | mark :: t => level t + 1
  | block _ :: t => level t

/-- The live blocks, most recent first. -/
def blocks : List (Item α) → List α
  | [] => []
  | mark :: t => blocks t
  | block a :: t => a :: blocks t

/-- The live blocks with their number from the bottom and the level they were pushed at. -/
def entries : List (Item α) → List (ℕ × ℕ × α)
  | [] => []
  | mark :: t => entries t
  | block a :: t => ((blocks t).length + 1, level t, a) :: entries t

/-- Release the most recent block; the marks above it stay open. -/
def dropTop : List (Item α) → List (Item α)
  | [] => []
  | mark :: t => mark :: dropTop t
  | block _ :: t => t

/-- Close the most recent mark and release the blocks above it (all blocks if no mark is open). -/
def popMark : List (Item α) → List (Item α)
  | [] => []
  | mark :: t => t
  | block _ :: t => popMark t

theorem length_entries : ∀ t : List (Item α), (entries t).length = (blocks t).length
  | [] => rfl
  | mark :: t => length_entries t
  | block _ :: t => by simp [entries, blocks, length_entries t]

theorem map_entries : ∀ t : List (Item α), (entries t).map (·.2.2) = blocks t
  | [] => rfl
  | mark :: t => map_entries t
  | block _ :: t => by simp [entries, blocks, map_entries t]

/-- A block was pushed at a level that is still open or closed by now, never above the top. -/
theorem level_le : ∀ {t : List (Item α)} {x : ℕ × ℕ × α}, x ∈ entries t → x.2.1 ≤ level t
  | mark :: t, x, h => le_trans (level_le (t := t) h) (Nat.le_succ _)
  | block a :: t, x, h => by
      rcases List.mem_cons.mp h with rfl | h
      · exact le_refl _
      · exact level_le (t := t) h

/-- The numbers run from 1 to the number of live blocks. -/
theorem num_bounds : ∀ {t : List (Item α)} {x : ℕ × ℕ × α}, x ∈ entries t →
    1 ≤ x.1 ∧ x.1 ≤ (blocks t).length
  | mark :: t, x, h => num_bounds (t := t) h
  | block a :: t, x, h => by
      rcases List.mem_cons.mp h with rfl | h
      · simp [blocks]
      · have := num_bounds (t := t) h
        simp only [blocks, List.length_cons]; omega

/-- From the top down the numbers fall strictly and the levels never rise. -/
theorem entries_sorted : ∀ t : List (Item α),
    (entries t).Pairwise (fun x y => y.1 < x.1 ∧ y.2.1 ≤ x.2.1)
  | [] => List.Pairwise.nil
  | mark :: t => entries_sorted t
  | block a :: t => by
      refine List.Pairwise.cons (fun y hy => ?_) (entries_sorted t)
      have hb := num_bounds hy
      exact ⟨by simp only; omega, level_le hy⟩

/-- The numbers of the live blocks, from the oldest to the most recent, are exactly `1, …, n`. -/
theorem map_num : ∀ t : List (Item α),
    ((entries t).map (·.1)).reverse = List.range' 1 (blocks t).length
  | [] => rfl
  | mark :: t => map_num t
  | block a :: t => by
      simp only [entries, blocks, List.map_cons, List.reverse_cons, List.length_cons]
      rw [map_num t, List.range'_concat]
      simp [Nat.add_comm]

/-- The most recent block carries the number of live blocks. -/
theorem num_head : ∀ {t : List (Item α)} {x : ℕ × ℕ × α} {xs : List (ℕ × ℕ × α)},
    entries t = x :: xs → x.1 = (blocks t).length
  | mark :: t, _, _, h => num_head (t := t) h
  | block a :: t, _, _, h => by
      rw [← (List.cons.inj h).1]; simp [blocks]

theorem entries_dropTop : ∀ t : List (Item α), entries (dropTop t) = (entries t).tail
  | [] => rfl
  | mark :: t => entries_dropTop t
  | block _ :: _ => rfl

theorem blocks_dropTop : ∀ t : List (Item α), blocks (dropTop t) = (blocks t).tail
  | [] => rfl
  | mark :: t => blocks_dropTop t
  | block _ :: _ => rfl

theorem level_dropTop : ∀ t : List (Item α), level (dropTop t) = level t
  | [] => rfl
  | mark :: t => congrArg (· + 1) (level_dropTop t)
  | block _ :: _ => rfl

theorem level_popMark : ∀ t : List (Item α), level (popMark t) = level t - 1
  | [] => rfl
  | mark :: _ => rfl
  | block _ :: t => level_popMark t

/-- Popping a mark releases exactly the blocks pushed at the current level. -/
theorem entries_popMark : ∀ t : List (Item α),
    entries (popMark t) = (entries t).filter (fun x => decide (x.2.1 < level t))
  | [] => rfl
  | mark :: t => by
      symm
      refine List.filter_eq_self.mpr (fun x hx => ?_)
      exact decide_eq_true (Nat.lt_succ_of_le (level_le (t := t) hx))
  | block a :: t => by
      simp only [popMark, entries, level, List.filter_cons, lt_irrefl, decide_false,
        Bool.false_eq_true, if_false]
      exact entries_popMark t

/-- With no mark open, popping releases everything. -/
theorem popMark_of_level_zero : ∀ {t : List (Item α)}, level t = 0 → popMark t = []
  | [], _ => rfl
  | mark :: t, h => by simp [level] at h
  | block _ :: t, h => popMark_of_level_zero (t := t) h

/-- With a mark open, popping cuts the stack at the most recent one. -/
theorem popMark_split : ∀ {t : List (Item α)}, 0 < level t →
    ∃ (since : List α) (rest : List (Item α)), t = since.map block ++ mark :: rest ∧ popMark t = rest
  | mark :: t, _ => ⟨[], t, rfl, rfl⟩
  | block a :: t, h => by
      obtain ⟨since, rest, ht, hp⟩ := popMark_split (t := t) h
      exact ⟨a :: since, rest, by rw [List.map_cons, List.cons_append, ← ht], hp⟩

/-- The blocks a pop keeps are the bottom part of the stack. -/
theorem blocks_popMark_suffix : ∀ t : List (Item α), blocks (popMark t) <:+ blocks t
  | [] => List.suffix_refl _
  | mark :: _ => List.suffix_refl _
  | block a :: t => (blocks_popMark_suffix t).trans (List.suffix_cons a _)

end OpenMV.Schemes.MarkStack
