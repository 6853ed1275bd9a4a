import Mathlib.Data.Rel
import Mathlib.Data.Set.Lattice
import Mathlib.Order.CompletePartialOrder

/-! Openings and closings | scheme:galois-connection

    A relation says which points a point sees. A set is dilated to the points that are seen from it, and eroded to
    the points that see nothing else; the two are a Galois connection. An opening is an erosion and then a
    dilation, a closing the other way round, and their laws are those of the connection. Seen from the
    complement one is the other, when seeing is mutual. -/

namespace OpenMV.Schemes

variable {α : Type*} (R : SetRel α α)

def opening (s : Set α) : Set α := R.image (R.core s)

def closing (s : Set α) : Set α := R.core (R.image s)

variable {R}

theorem opening_subset (s : Set α) : opening R s ⊆ s := SetRel.image_core_gc.l_u_le s

theorem opening_mono : Monotone (opening R) := SetRel.image_mono.comp SetRel.core_mono

theorem opening_opening (s : Set α) : opening R (opening R s) = opening R s :=
  congrArg R.image (SetRel.image_core_gc.u_l_u_eq_u s)

theorem subset_closing (s : Set α) : s ⊆ closing R s := SetRel.image_core_gc.le_u_l s

theorem closing_mono : Monotone (closing R) := SetRel.core_mono.comp SetRel.image_mono

theorem closing_closing (s : Set α) : closing R (closing R s) = closing R s :=
  congrArg R.core (SetRel.image_core_gc.l_u_l_eq_l s)

section Dual

variable [R.IsSymm]

/-- With a relation that is mutual a point is in the dilation when it sees a point of the set. -/
theorem mem_image_of_symm {s : Set α} {a : α} : a ∈ R.image s ↔ ∃ b ∈ s, (a, b) ∈ R := by
  simp only [SetRel.mem_image, R.comm]

theorem core_compl (s : Set α) : R.core sᶜ = (R.image s)ᶜ := by
  ext a
  simp only [SetRel.mem_core, Set.mem_compl_iff, mem_image_of_symm, not_exists, not_and]
  exact ⟨fun h b hb hab => h hab hb, fun h b hab hb => h b hb hab⟩

theorem image_compl (s : Set α) : R.image sᶜ = (R.core s)ᶜ := by
  rw [← compl_inj_iff, ← core_compl, compl_compl, compl_compl]

/-- The closing of the complement is the complement of the opening. -/
theorem closing_compl (s : Set α) : closing R sᶜ = (opening R s)ᶜ := by
  rw [closing, image_compl, core_compl, opening]

end Dual

end OpenMV.Schemes
