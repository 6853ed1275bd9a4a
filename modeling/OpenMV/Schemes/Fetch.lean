import Mathlib.Data.Int.Notation
import Mathlib.Data.Nat.Notation
import Mathlib.Logic.Function.Basic

/-! Reads with their addresses | scheme:footprint

    A value computed from memory comes with the addresses it is computed from, and with the proof that
    nothing else counts (`Fetch`). A loop that fills a buffer is the list of its stores, each of a value
    that was fetched. The buffers after it agree wherever they agreed before or were stored to, as soon
    as the two memories agree on what was read. -/

namespace OpenMV.Schemes

variable {α β L : Type}

/-- A value that depends on the memory at the addresses `reads` alone. -/
structure Fetch (α : Type) where
  reads : List ℤ
  val : (ℤ → ℕ) → α
  stable : ∀ {m m' : ℤ → ℕ}, (∀ a ∈ reads, m a = m' a) → val m = val m'

namespace Fetch

def pure (x : α) : Fetch α := ⟨[], fun _ => x, fun _ => rfl⟩

def read (a : ℤ) : Fetch ℕ := ⟨[a], fun m => m a, fun h => h a (List.mem_singleton_self a)⟩

def map (f : α → β) (x : Fetch α) : Fetch β :=
  ⟨x.reads, fun m => f (x.val m), fun h => congrArg f (x.stable h)⟩

def zip (x : Fetch α) (y : Fetch β) : Fetch (α × β) where
  reads := x.reads ++ y.reads
  val m := (x.val m, y.val m)
  stable h := Prod.ext (x.stable fun a ha => h a (List.mem_append_left _ ha))
    (y.stable fun a ha => h a (List.mem_append_right _ ha))

instance : Add (Fetch ℕ) := ⟨fun x y => (x.zip y).map fun p => p.1 + p.2⟩

@[simp] theorem reads_pure (x : α) : (pure x).reads = [] := rfl

@[simp] theorem reads_read (a : ℤ) : (read a).reads = [a] := rfl

@[simp] theorem reads_map (f : α → β) (x : Fetch α) : (x.map f).reads = x.reads := rfl

@[simp] theorem reads_zip (x : Fetch α) (y : Fetch β) : (x.zip y).reads = x.reads ++ y.reads := rfl

@[simp] theorem val_map (f : α → β) (x : Fetch α) (m : ℤ → ℕ) : (x.map f).val m = f (x.val m) := rfl

@[simp] theorem val_zip (x : Fetch α) (y : Fetch β) (m : ℤ → ℕ) : (x.zip y).val m = (x.val m, y.val m) := rfl

section Reads

variable {P : ℤ → Prop}

/-- What holds of every address that either of two values is read from holds for both together. -/
theorem forall_zip {x : Fetch α} {y : Fetch β} (hx : ∀ a ∈ x.reads, P a) (hy : ∀ a ∈ y.reads, P a) :
    ∀ a ∈ (x.zip y).reads, P a := fun a ha => (List.mem_append.mp ha).elim (hx a) (hy a)

theorem forall_add {x y : Fetch ℕ} (hx : ∀ a ∈ x.reads, P a) (hy : ∀ a ∈ y.reads, P a) :
    ∀ a ∈ (x + y).reads, P a := forall_zip hx hy

end Reads

end Fetch

/-- A buffer after values fetched from memory were stored in it, one after another. -/
def storeFetched [DecidableEq L] (m : ℤ → ℕ) : (L → ℤ) → List (L × Fetch ℤ) → L → ℤ
  | b, [] => b
  | b, s :: ss => storeFetched m (Function.update b s.1 (s.2.val m)) ss

theorem storeFetched_agree [DecidableEq L] {m m' : ℤ → ℕ} {on : L → Prop} :
    ∀ {ss : List (L × Fetch ℤ)} {b b' : L → ℤ}, (∀ s ∈ ss, ∀ a ∈ s.2.reads, m a = m' a) →
    (∀ l, on l → b l = b' l ∨ l ∈ ss.map Prod.fst) →
    ∀ l, on l → storeFetched m b ss l = storeFetched m' b' ss l
  | [], b, b', _, hon, l, hl => (hon l hl).resolve_right List.not_mem_nil
  | s :: ss, b, b', hm, hon, l, hl => by
    refine storeFetched_agree (fun t ht => hm t (List.mem_cons_of_mem _ ht)) (fun k hk => ?_) l hl
    by_cases hks : k = s.1
    · subst hks
      rw [Function.update_self, Function.update_self]
      exact .inl (s.2.stable (hm s (List.mem_cons_self ..)))
    · rw [Function.update_of_ne hks, Function.update_of_ne hks]
      rcases hon k hk with h | h
      · exact .inl h
      · exact .inr ((List.mem_cons.1 h).resolve_left hks)

end OpenMV.Schemes
