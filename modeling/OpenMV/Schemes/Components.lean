import Mathlib.Data.Set.Basic
import Mathlib.Logic.Relation

/-! Connected components of a part of a graph | scheme:graph

    `Comp R A p` is what can be reached from `p` along `R` inside the set `A`. For a symmetric `R`
    these sets split `A`; taking away some of them leaves the others as they were, which is what lets
    the components be collected one after the other. -/

namespace OpenMV.Schemes

variable {α : Type*} {R : α → α → Prop} {A U : Set α} {p q : α}

/-- The points reachable from `p` by steps of `R` that end in `A`. -/
def Comp (R : α → α → Prop) (A : Set α) (p : α) : Set α :=
  {q | Relation.ReflTransGen (fun a b => R a b ∧ b ∈ A) p q}

/-- `S` is one of the components `A` splits into. -/
def IsComp (R : α → α → Prop) (A S : Set α) : Prop := ∃ p ∈ A, S = Comp R A p

theorem mem_comp_self : p ∈ Comp R A p := .refl

theorem comp_subset (hp : p ∈ A) : Comp R A p ⊆ A := by
  intro q hq
  cases hq with
  | refl => exact hp
  | tail _ h => exact h.2

/-- A step inside `A` does not leave the component. -/
theorem comp_step (hq : q ∈ Comp R A p) {r : α} (h : R q r) (hr : r ∈ A) : r ∈ Comp R A p :=
  Relation.ReflTransGen.tail hq ⟨h, hr⟩

theorem comp_symm (hR : ∀ a b, R a b → R b a) (hp : p ∈ A) (hq : q ∈ Comp R A p) :
    p ∈ Comp R A q := by
  induction hq with
  | refl => exact mem_comp_self
  | @tail b c hpb hbc ih => exact .head ⟨hR b c hbc.1, comp_subset hp hpb⟩ ih

theorem comp_eq (hR : ∀ a b, R a b → R b a) (hp : p ∈ A) (hq : q ∈ Comp R A p) :
    Comp R A q = Comp R A p := by
  ext r
  exact ⟨fun hr => Relation.ReflTransGen.trans hq hr,
    fun hr => Relation.ReflTransGen.trans (comp_symm hR hp hq) hr⟩

/-- The component of a point is the only one it is in. -/
theorem IsComp.eq_comp (hR : ∀ a b, R a b → R b a) {S : Set α} (hS : IsComp R A S) (hp : p ∈ S) :
    S = Comp R A p := by
  obtain ⟨s, hs, rfl⟩ := hS
  exact (comp_eq hR hs hp).symm

/-- No step inside `A` leads into a component from outside. -/
theorem IsComp.not_mem_of_step (hR : ∀ a b, R a b → R b a) {S : Set α} (hS : IsComp R A S)
    (hp : p ∈ A) (hpS : p ∉ S) (h : R p q) : q ∉ S := by
  obtain ⟨s, hs, rfl⟩ := hS
  exact fun hq => hpS (comp_step hq (hR p q h) hp)

/-- Taking other components away leaves a component as it was. -/
theorem comp_diff (hR : ∀ a b, R a b → R b a) (hU : ∀ u ∈ U, ∃ S, IsComp R A S ∧ u ∈ S ∧ S ⊆ U)
    (hp : p ∈ A) (hpU : p ∉ U) : Comp R (A \ U) p = Comp R A p := by
  ext q
  constructor
  · exact fun hq => Relation.ReflTransGen.mono (fun a b h => ⟨h.1, h.2.1⟩) _ _ hq
  · intro hq
    have key : q ∈ Comp R (A \ U) p ∧ q ∉ U := by
      induction hq with
      | refl => exact ⟨mem_comp_self, hpU⟩
      | @tail b c hpb hbc ih =>
        have hcU : c ∉ U := by
          intro hc
          obtain ⟨S, hS, hcS, hSU⟩ := hU c hc
          exact hS.not_mem_of_step hR (comp_subset hp hpb) (fun hb => ih.2 (hSU hb)) hbc.1 hcS
        exact ⟨comp_step ih.1 hbc.1 ⟨hbc.2, hcU⟩, hcU⟩
    exact key.1

end OpenMV.Schemes
