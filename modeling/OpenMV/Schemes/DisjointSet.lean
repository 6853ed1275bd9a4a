import Mathlib.Algebra.Order.BigOperators.Group.Finset
import Mathlib.Data.Finset.Card
import Mathlib.Logic.Relation

/-! Disjoint sets | scheme:union-find

    A partition is a labelling, and two classes are joined by giving one the label of the other. A forest of parents
    stands for it if the way up from each element ends at its label. The ways stay short of the sizes of the classes,
    whatever root is hung below the other, so that looking for a root ends. -/

namespace OpenMV.Schemes

variable {ι : Type*}

/-! ### Labels -/

section Labels
variable [DecidableEq ι]

/-- The class of `x` gets the label `y`. -/
def relabel (x y : ι) (rep : ι → ι) (z : ι) : ι := if rep z = x then y else rep z

/-- The size of the class with the label `c`. -/
def classCard (D : Finset ι) (rep : ι → ι) (c : ι) : ℕ := (D.filter fun z => rep z = c).card

variable {D : Finset ι} {rep : ι → ι} {x y : ι}

theorem relabel_congr {u v : ι} (h : rep u = rep v) : relabel x y rep u = relabel x y rep v := by
  rw [relabel, relabel, h]

theorem relabel_eq_iff (hxy : x ≠ y) {u v : ι} : relabel x y rep u = relabel x y rep v ↔
    rep u = rep v ∨ (rep u = x ∧ rep v = y) ∨ (rep u = y ∧ rep v = x) := by
  unfold relabel
  by_cases hu : rep u = x
  · by_cases hv : rep v = x
    · simp [hu, hv]
    · have hvx : x ≠ rep v := fun h => hv h.symm
      simp [hu, hv, hxy, hvx, eq_comm]
  · by_cases hv : rep v = x
    · simp [hu, hv]
    · simp [hu, hv]

theorem relabel_eq_self_iff {z : ι} : relabel x y rep z = y ↔ rep z = x ∨ rep z = y := by
  unfold relabel
  split_ifs with hz
  · exact iff_of_true rfl (Or.inl hz)
  · exact ⟨Or.inr, fun h => h.resolve_left hz⟩

theorem relabel_eq_other_iff {c : ι} (hcx : c ≠ x) (hcy : c ≠ y) {z : ι} : relabel x y rep z = c ↔ rep z = c := by
  unfold relabel
  split_ifs with hz
  · rw [hz]
    exact iff_of_false (Ne.symm hcy) (Ne.symm hcx)
  · exact Iff.rfl

theorem relabel_ne (hxy : x ≠ y) (z : ι) : relabel x y rep z ≠ x := by
  unfold relabel
  split_ifs with hz
  · exact hxy.symm
  · exact hz

theorem classCard_relabel_self (hxy : x ≠ y) :
    classCard D (relabel x y rep) y = classCard D rep x + classCard D rep y := by
  have hdisj : Disjoint (D.filter fun z => rep z = x) (D.filter fun z => rep z = y) := by
    refine Finset.disjoint_filter.mpr fun z _ h1 h2 => hxy (h1.symm.trans h2)
  rw [classCard, Finset.filter_congr fun z _ => relabel_eq_self_iff, Finset.filter_or,
    Finset.card_union_of_disjoint hdisj]
  rfl

theorem classCard_relabel_other {c : ι} (hcx : c ≠ x) (hcy : c ≠ y) :
    classCard D (relabel x y rep) c = classCard D rep c := by
  rw [classCard, Finset.filter_congr fun z _ => relabel_eq_other_iff hcx hcy]
  rfl

/-- Classes that are joined grow. -/
theorem classCard_le_of_congr {rep' : ι → ι} (h : ∀ u v, rep u = rep v → rep' u = rep' v) (z : ι) :
    classCard D rep (rep z) ≤ classCard D rep' (rep' z) := by
  refine Finset.card_le_card fun v hv => ?_
  obtain ⟨hvD, hvz⟩ := Finset.mem_filter.mp hv
  exact Finset.mem_filter.mpr ⟨hvD, h v z hvz⟩

theorem classCard_pos {z : ι} (hz : z ∈ D) : 0 < classCard D rep (rep z) :=
  Finset.card_pos.mpr ⟨z, Finset.mem_filter.mpr ⟨hz, rfl⟩⟩

theorem classCard_le (D : Finset ι) (rep : ι → ι) (c : ι) : classCard D rep c ≤ D.card := Finset.card_filter_le _ _

/-- One label less. -/
theorem image_relabel (hxy : x ≠ y) (hy : y ∈ D.image rep) : D.image (relabel x y rep) = (D.image rep).erase x := by
  ext c
  simp only [Finset.mem_image, Finset.mem_erase, relabel]
  constructor
  · rintro ⟨z, hz, rfl⟩
    by_cases hx : rep z = x
    · rw [if_pos hx]
      obtain ⟨w, hw, hwy⟩ := Finset.mem_image.mp hy
      exact ⟨hxy.symm, w, hw, hwy⟩
    · rw [if_neg hx]
      exact ⟨hx, z, hz, rfl⟩
  · rintro ⟨hc, z, hz, rfl⟩
    exact ⟨z, hz, if_neg hc⟩

/-- A way that stays in one class. -/
def ClassPath (adj : ι → ι → Prop) (rep : ι → ι) : ι → ι → Prop :=
  Relation.ReflTransGen fun u v => adj u v ∧ rep u = rep v

/-- Every class is connected. -/
def Connected (D : Finset ι) (adj : ι → ι → Prop) (rep : ι → ι) : Prop :=
  ∀ u ∈ D, ∀ v ∈ D, rep u = rep v → ClassPath adj rep u v

/-- Two classes with neighbours are joined to a connected one. -/
theorem Connected.relabel {adj : ι → ι → Prop} (h : Connected D adj rep) (hsymm : ∀ u v, adj u v → adj v u)
    (hxy : x ≠ y) {a b : ι} (ha : a ∈ D) (hb : b ∈ D) (hadj : adj a b) (hax : rep a = x) (hby : rep b = y) :
    Connected D adj (relabel x y rep) := by
  have hmono : ∀ u v, ClassPath adj rep u v → ClassPath adj (Schemes.relabel x y rep) u v := by
    intro u v huv
    induction huv with
    | refl => exact .refl
    | tail _ hlast ih => exact ih.tail ⟨hlast.1, relabel_congr hlast.2⟩
  have hjoined : Schemes.relabel x y rep a = Schemes.relabel x y rep b :=
    (relabel_eq_iff hxy).mpr (Or.inr (Or.inl ⟨hax, hby⟩))
  intro u hu v hv huv
  rcases (relabel_eq_iff hxy).mp huv with heq | ⟨hux, hvy⟩ | ⟨huy, hvx⟩
  · exact hmono u v (h u hu v hv heq)
  · have h1 := hmono u a (h u hu a ha (hux.trans hax.symm))
    have h2 := hmono b v (h b hb v hv (hby.trans hvy.symm))
    exact (h1.tail ⟨hadj, hjoined⟩).trans h2
  · have h1 := hmono u b (h u hu b hb (huy.trans hby.symm))
    have h2 := hmono a v (h a ha v hv (hax.trans hvx.symm))
    exact (h1.tail ⟨hsymm a b hadj, hjoined.symm⟩).trans h2

end Labels

/-! ### Parents -/

/-- The loop that looks for the root. -/
def climb [DecidableEq ι] (parent : ι → ι) : ℕ → ι → Option ι
  | 0, _ => none
  | fuel + 1, y => if y ≠ parent y then climb parent fuel (parent y) else some y

/-- The way up has this many steps. -/
inductive Climbs (parent : ι → ι) : ℕ → ι → ι → Prop
  | root {r : ι} (h : parent r = r) : Climbs parent 0 r r
  | up {k : ℕ} {x r : ι} (hne : parent x ≠ x) (h : Climbs parent k (parent x) r) : Climbs parent (k + 1) x r

section Parents
variable {parent : ι → ι} {k k' : ℕ} {x y z r r' : ι}

theorem Climbs.root_eq (h : Climbs parent k x r) : parent r = r := by
  induction h with
  | root h => exact h
  | up _ _ ih => exact ih

theorem Climbs.of_root (h : Climbs parent k x r) (hx : parent x = x) : r = x := by
  cases h with
  | root _ => rfl
  | up hne _ => exact absurd hx hne

theorem Climbs.unique (h : Climbs parent k x r) (h' : Climbs parent k' x r') : r = r' := by
  induction h generalizing k' with
  | root h => exact (h'.of_root h).symm
  | up hne _ ih =>
    cases h' with
    | root h => exact absurd h hne
    | up _ h' => exact ih h'

variable [DecidableEq ι]

theorem climb_eq_some (h : Climbs parent k x r) : ∀ {fuel : ℕ}, k < fuel → climb parent fuel x = some r := by
  induction h with
  | root h =>
    intro fuel hfuel
    obtain ⟨f, rfl⟩ : ∃ f, fuel = f + 1 := ⟨fuel - 1, by omega⟩
    rw [climb, if_neg (not_not.mpr h.symm)]
  | up hne _ ih =>
    intro fuel hfuel
    obtain ⟨f, rfl⟩ : ∃ f, fuel = f + 1 := ⟨fuel - 1, by omega⟩
    rw [climb, if_pos hne.symm]
    exact ih (by omega)

/-- An element may be hung below its root, and no way gets longer. -/
theorem Climbs.compress (h : Climbs parent k z r) (hx : ∃ k, Climbs parent k x y) :
    ∃ k' ≤ k, Climbs (Function.update parent x y) k' z r := by
  obtain ⟨kx, hx⟩ := hx
  have hroot : Function.update parent x y y = y := by
    by_cases hyx : y = x
    · rw [hyx, Function.update_self]
    · rw [Function.update_of_ne hyx, hx.root_eq]
  induction h with
  | @root r h =>
    refine ⟨0, le_refl 0, .root ?_⟩
    by_cases hrx : r = x
    · subst hrx
      rw [Function.update_self, hx.of_root h]
    · rw [Function.update_of_ne hrx, h]
  | @up k z r hne h ih =>
    by_cases hzx : z = x
    · subst hzx
      obtain rfl : r = y := (Climbs.up hne h).unique hx
      by_cases hrz : r = z
      · exact absurd (hrz ▸ h.root_eq) hne
      · refine ⟨1, Nat.succ_le_succ (Nat.zero_le k), .up ?_ ?_⟩
        · rw [Function.update_self]
          exact hrz
        · rw [Function.update_self]
          exact .root hroot
    · obtain ⟨k', hk', hclimbs⟩ := ih
      refine ⟨k' + 1, Nat.succ_le_succ hk', .up ?_ ?_⟩
      · rwa [Function.update_of_ne hzx]
      · rwa [Function.update_of_ne hzx]

/-- A root is hung below another one. -/
theorem Climbs.link (h : Climbs parent k z r) (hx : parent x = x) (hy : parent y = y) (hxy : x ≠ y) :
    Climbs (Function.update parent x y) (if r = x then k + 1 else k) z (if r = x then y else r) := by
  have hroot : Function.update parent x y y = y := by rw [Function.update_of_ne hxy.symm, hy]
  induction h with
  | @root r h =>
    by_cases hrx : r = x
    · subst hrx
      rw [if_pos rfl, if_pos rfl]
      refine .up ?_ ?_
      · rw [Function.update_self]
        exact hxy.symm
      · rw [Function.update_self]
        exact .root hroot
    · rw [if_neg hrx, if_neg hrx]
      exact .root (by rw [Function.update_of_ne hrx, h])
  | @up k z r hne h ih =>
    have hzx : z ≠ x := fun hzx => hne (hzx ▸ hx)
    have hstep : Climbs (Function.update parent x y) ((if r = x then k + 1 else k) + 1) z (if r = x then y else r) := by
      refine .up ?_ ?_
      · rwa [Function.update_of_ne hzx]
      · rwa [Function.update_of_ne hzx]
    split_ifs at hstep ⊢ with hrx
    · exact hstep
    · exact hstep

end Parents

/-! ### Forests -/

/-- The parents lead to the labels, and the sizes at the labels are those of the classes. -/
structure Forest [DecidableEq ι] (D : Finset ι) (parent : ι → ι) (size : ι → ℕ) (rep : ι → ι) : Prop where
  mem : ∀ x ∈ D, rep x ∈ D
  climbs : ∀ x ∈ D, ∃ k < size (rep x), Climbs parent k x (rep x)
  size_eq : ∀ x ∈ D, size (rep x) = classCard D rep (rep x)

section Forest
variable [DecidableEq ι] {D : Finset ι} {parent : ι → ι} {size : ι → ℕ} {rep : ι → ι} {x y : ι}

theorem Forest.root (h : Forest D parent size rep) (hx : x ∈ D) : parent (rep x) = rep x := by
  obtain ⟨k, -, hk⟩ := h.climbs x hx
  exact hk.root_eq

theorem Forest.rep_rep (h : Forest D parent size rep) (hx : x ∈ D) : rep (rep x) = rep x := by
  obtain ⟨k, -, hk⟩ := h.climbs (rep x) (h.mem x hx)
  exact hk.of_root (h.root hx)

theorem Forest.rep_eq_iff (h : Forest D parent size rep) (hx : x ∈ D) : rep x = x ↔ parent x = x := by
  obtain ⟨k, -, hk⟩ := h.climbs x hx
  constructor
  · intro heq
    have hroot := hk.root_eq
    rwa [heq] at hroot
  · exact hk.of_root

/-- The loop finds the label. -/
theorem Forest.climb (h : Forest D parent size rep) (hx : x ∈ D) {fuel : ℕ} (hfuel : D.card ≤ fuel) :
    climb parent fuel x = some (rep x) := by
  obtain ⟨k, hlt, hk⟩ := h.climbs x hx
  have hsize := h.size_eq x hx
  have hle := classCard_le D rep (rep x)
  exact climb_eq_some hk (by omega)

theorem Forest.singletons (h : ∀ x ∈ D, parent x = x) : Forest D parent (fun _ => 1) id where
  mem := fun x hx => hx
  climbs := fun x hx => ⟨0, Nat.one_pos, .root (h x hx)⟩
  size_eq := by
    intro x hx
    have hone : (D.filter fun z => z = x) = {x} := by
      rw [Finset.filter_eq' D x, if_pos hx]
    rw [classCard]
    simp only [id_eq]
    rw [hone, Finset.card_singleton]

theorem Forest.compress (h : Forest D parent size rep) (hx : x ∈ D) :
    Forest D (Function.update parent x (rep x)) size rep where
  mem := h.mem
  climbs := by
    intro z hz
    obtain ⟨k, hlt, hk⟩ := h.climbs z hz
    obtain ⟨kx, -, hkx⟩ := h.climbs x hx
    obtain ⟨k', hle, hk'⟩ := hk.compress ⟨kx, hkx⟩
    exact ⟨k', hle.trans_lt hlt, hk'⟩
  size_eq := h.size_eq

theorem Forest.link (h : Forest D parent size rep) (hx : x ∈ D) (hy : y ∈ D) (hrx : rep x = x) (hry : rep y = y)
    (hxy : x ≠ y) :
    Forest D (Function.update parent x y) (Function.update size y (size x + size y)) (relabel x y rep) where
  mem := by
    intro z hz
    unfold relabel
    split_ifs
    · exact hy
    · exact h.mem z hz
  climbs := by
    intro z hz
    obtain ⟨k, hlt, hk⟩ := h.climbs z hz
    have hlink := hk.link ((h.rep_eq_iff hx).mp hrx) ((h.rep_eq_iff hy).mp hry) hxy
    have hpos : 0 < size y := by
      have hsize := h.size_eq y hy
      have hcard : 0 < classCard D rep (rep y) := classCard_pos hy
      rw [hry] at hsize hcard
      omega
    unfold relabel
    by_cases hzx : rep z = x
    · rw [if_pos hzx, if_pos hzx] at hlink
      rw [if_pos hzx, Function.update_self]
      rw [hzx] at hlt
      exact ⟨k + 1, by omega, hlink⟩
    · rw [if_neg hzx, if_neg hzx] at hlink
      rw [if_neg hzx]
      refine ⟨k, ?_, hlink⟩
      by_cases hzy : rep z = y
      · rw [hzy, Function.update_self]
        rw [hzy] at hlt
        omega
      · rwa [Function.update_of_ne hzy]
  size_eq := by
    intro z hz
    have hsx := h.size_eq x hx
    have hsy := h.size_eq y hy
    rw [hrx] at hsx
    rw [hry] at hsy
    by_cases hzx : rep z = x
    · rw [relabel, if_pos hzx, Function.update_self, classCard_relabel_self hxy, hsx, hsy]
    · rw [relabel, if_neg hzx]
      by_cases hzy : rep z = y
      · rw [hzy, Function.update_self, classCard_relabel_self hxy, hsx, hsy]
      · rw [Function.update_of_ne hzy, classCard_relabel_other hzx hzy, h.size_eq z hz]

end Forest

end OpenMV.Schemes
