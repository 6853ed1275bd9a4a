import Mathlib.Data.Set.Finite.Basic
import Mathlib.Data.Fintype.Pigeonhole
import Mathlib.Logic.Relation

/-! Walks that end | scheme:termination

    A loop that goes from place to place until it has a result. If there are finitely many places, it goes on
    for ever only by coming to a place again; and if places have a height, some step of such a round does not
    go up. So to see that a loop ends, only the steps that do not go up have to be looked at. -/

namespace OpenMV.Schemes

open Relation

variable {α β : Type*} (step : α → α ⊕ β)

/-- The first `n` steps. -/
def walk : ℕ → α → α ⊕ β
  | 0, a => .inl a
  | n + 1, a =>
    match step a with
    | .inl b => walk n b
    | .inr r => .inr r

/-- One step goes from one place to the other. -/
def Leads (a b : α) : Prop := step a = .inl b

variable {step} {a b : α}

theorem walk_succ_of_leads (h : Leads step a b) (n : ℕ) : walk step (n + 1) a = walk step n b := by
  rw [walk, h]

theorem walk_add : ∀ (m n : ℕ) (a : α), walk step (m + n) a =
    match walk step m a with
    | .inl b => walk step n b
    | .inr r => .inr r
  | 0, n, a => by rw [Nat.zero_add, walk]
  | m + 1, n, a => by
      rw [Nat.succ_add, walk, walk]
      cases step a with
      | inl b => exact walk_add m n b
      | inr r => rfl

theorem walk_add_of_inl {m : ℕ} (h : walk step m a = .inl b) (n : ℕ) : walk step (m + n) a = walk step n b := by
  rw [walk_add, h]

theorem walk_reflTransGen : ∀ {n : ℕ} {a : α}, walk step n a = .inl b → ReflTransGen (Leads step) a b
  | 0, a, h => by
      obtain rfl := Sum.inl.inj h
      exact .refl
  | n + 1, a, h => by
      rw [walk] at h
      cases hs : step a with
      | inl c =>
        rw [hs] at h
        exact .head hs (walk_reflTransGen h)
      | inr r =>
        rw [hs] at h
        exact nomatch h

theorem exists_walk_of_reflTransGen (h : ReflTransGen (Leads step) a b) : ∃ n, walk step n a = .inl b := by
  induction h using ReflTransGen.head_induction_on with
  | refl => exact ⟨0, rfl⟩
  | head hac _ ih =>
    obtain ⟨n, hn⟩ := ih
    exact ⟨n + 1, (walk_succ_of_leads hac n).trans hn⟩

/-- A walk that is at some place after `m` steps is so after fewer. -/
theorem walk_inl_of_le {m n : ℕ} (hle : n ≤ m) (h : walk step m a = .inl b) : ∃ c, walk step n a = .inl c := by
  obtain ⟨k, rfl⟩ := Nat.exists_eq_add_of_le hle
  rw [walk_add] at h
  cases hn : walk step n a with
  | inl c => exact ⟨c, rfl⟩
  | inr r =>
    rw [hn] at h
    exact nomatch h

/-- On a round the walk goes on for ever. -/
theorem walk_of_cycle (h : TransGen (Leads step) a a) (n : ℕ) : ∃ c, walk step n a = .inl c := by
  obtain ⟨b, hab, hba⟩ := TransGen.head'_iff.mp h
  obtain ⟨k, hk⟩ := exists_walk_of_reflTransGen hba
  have hround : walk step (k + 1) a = .inl a := (walk_succ_of_leads hab k).trans hk
  have hrounds : ∀ m, walk step ((k + 1) * m) a = .inl a := by
    intro m
    induction m with
    | zero => rfl
    | succ m ih => rw [Nat.mul_succ, walk_add_of_inl ih, hround]
  exact walk_inl_of_le (Nat.le_mul_of_pos_left n (Nat.succ_pos k)) (hrounds n)

/-- An endless path on finitely many places is on a round somewhere, and some step of the round does not go up. -/
theorem exists_round_not_up {places : Set α} (hfin : places.Finite) (height : α → ℕ) {f : ℕ → α}
    (hmem : ∀ n, f n ∈ places) (hnext : ∀ n, Leads step (f n) (f (n + 1))) :
    ∃ k, TransGen (Leads step) (f k) (f k) ∧ height (f (k + 1)) ≤ height (f k) := by
  have hfrom : ∀ {i n : ℕ}, i ≤ n → ReflTransGen (Leads step) (f i) (f n) := by
    intro i n hin
    induction n, hin using Nat.le_induction with
    | base => exact .refl
    | succ n _ ih => exact ih.tail (hnext n)
  obtain ⟨i, j, hij, heq⟩ : ∃ i j, i < j ∧ f i = f j := by
    have := hfin.to_subtype
    obtain ⟨i, j, hne, heq⟩ := Finite.exists_ne_map_eq_of_infinite fun n => (⟨f n, hmem n⟩ : places)
    have heq : f i = f j := congrArg Subtype.val heq
    rcases Nat.lt_or_gt_of_ne hne with h | h
    · exact ⟨i, j, h, heq⟩
    · exact ⟨j, i, h, heq.symm⟩
  have hround : ∀ k, i ≤ k → k < j → TransGen (Leads step) (f k) (f k) := by
    intro k hik hkj
    refine TransGen.head' (hnext k) ((hfrom hkj).trans ?_)
    rw [← heq]
    exact hfrom hik
  by_contra hup
  push Not at hup
  have hheight : ∀ k, i ≤ k → k ≤ j → height (f i) + (k - i) ≤ height (f k) := by
    intro k hik
    induction k, hik using Nat.le_induction with
    | base => simp
    | succ k hk ih =>
      intro hkj
      have h1 := ih (by omega)
      have h2 := hup k (hround k hk (by omega))
      omega
  have hlast := hheight j (Nat.le_of_lt hij) (Nat.le_refl j)
  rw [heq] at hlast
  omega

/-- A walk on finitely many places ends exactly if it comes to no round on a step that does not go up. -/
theorem walk_ends_iff {places : Set α} (hfin : places.Finite) (hclosed : ∀ a ∈ places, ∀ b, Leads step a b → b ∈ places)
    (height : α → ℕ) (ha : a ∈ places) : (∃ n r, walk step n a = .inr r) ↔
      ∀ b, ReflTransGen (Leads step) a b → TransGen (Leads step) b b → ∃ c, Leads step b c ∧ height b < height c := by
  constructor
  · rintro ⟨n, r, hend⟩ b hab hbb
    obtain ⟨i, hi⟩ := exists_walk_of_reflTransGen hab
    obtain ⟨c, hc⟩ := walk_of_cycle hbb n
    obtain ⟨d, hd⟩ := walk_inl_of_le (Nat.le_add_left n i) ((walk_add_of_inl hi n).trans hc)
    rw [hend] at hd
    exact nomatch hd
  · intro hup
    by_contra hnever
    have hplace : ∀ n, ∃ b, walk step n a = .inl b := by
      intro n
      cases h : walk step n a with
      | inl b => exact ⟨b, rfl⟩
      | inr r => exact absurd ⟨n, r, h⟩ hnever
    choose f hf using hplace
    have hreach : ∀ n, ReflTransGen (Leads step) a (f n) := fun n => walk_reflTransGen (hf n)
    have hmem : ∀ n, f n ∈ places := by
      intro n
      refine (hreach n).head_induction_on (motive := fun c _ => c ∈ places → f n ∈ places) id ?_ ha
      exact fun hcd _ ih hc => ih (hclosed _ hc _ hcd)
    have hnext : ∀ n, Leads step (f n) (f (n + 1)) := by
      intro n
      have hadd := walk_add_of_inl (hf n) 1
      rw [hf (n + 1), walk] at hadd
      cases hs : step (f n) with
      | inl c =>
        rw [hs] at hadd
        exact hs.trans hadd.symm
      | inr r =>
        rw [hs] at hadd
        exact nomatch hadd
    obtain ⟨k, hround, hle⟩ := exists_round_not_up hfin height hmem hnext
    obtain ⟨c, hc, hlt⟩ := hup (f k) (hreach k) hround
    rw [Sum.inl.inj (hc.symm.trans (hnext k))] at hlt
    exact absurd hlt (Nat.not_lt.mpr hle)

end OpenMV.Schemes
