import Mathlib.Data.List.Perm.Basic
import Mathlib.Order.Bounds.Basic
import Mathlib.Order.MinMax

/-! The two best in one pass | scheme:fold

    A pass keeps the least value so far, and as the runner-up the one that it replaced. The runner-up is the second
    least value only if no value behind the least one is less than all values before it. -/

namespace OpenMV.Schemes

variable {α : Type*} [LinearOrder α]

/-- A step of the pass. -/
def takeBetter (s : α × α) (d : α) : α × α := if d < s.1 then (d, s.1) else s

/-- The pass, where `M` is the best and the runner-up to begin with. -/
def twoBest (M : α) (ds : List α) : α × α := ds.foldl takeBetter (M, M)

/-- The values, each at most `M`, and two that stand for those that are missing. -/
def capped (M : α) (ds : List α) : List α := ds.map (min · M) ++ [M, M]

/-- `a` is the least of the list, and `b` the least of what is left without it. -/
def TwoLeast (l : List α) (a b : α) : Prop := IsLeast {x | x ∈ l} a ∧ IsLeast {x | x ∈ l.erase a} b

/-- A value behind the least one is less than all values before it. -/
def LateBetter (M : α) (ds : List α) : Prop := ∃ pre d post, ds = pre ++ d :: post ∧ d < M ∧ (∀ y ∈ pre, d < y) ∧
  (∀ x ∈ post, d ≤ x) ∧ ∃ x ∈ post, x < M ∧ ∀ y ∈ pre, x < y

theorem twoBest_append_singleton (M : α) (ds : List α) (d : α) :
    twoBest M (ds ++ [d]) = takeBetter (twoBest M ds) d := by
  rw [twoBest, List.foldl_append]
  rfl

theorem foldl_takeBetter_of_le : ∀ {ds : List α} {s : α × α}, (∀ d ∈ ds, s.1 ≤ d) → ds.foldl takeBetter s = s
  | [], _, _ => rfl
  | d :: ds, s, h => by
      obtain ⟨hd, hds⟩ := List.forall_mem_cons.mp h
      rw [List.foldl_cons, takeBetter, if_neg (not_lt.mpr hd)]
      exact foldl_takeBetter_of_le hds

/-- The best of the values and of what the pass began with. -/
theorem foldl_takeBetter_fst : ∀ (ds : List α) (s : α × α),
    IsLeast {x | x = s.1 ∨ x ∈ ds} (ds.foldl takeBetter s).1
  | [], s => ⟨Or.inl rfl, by simp [lowerBounds]⟩
  | d :: ds, s => by
      obtain ⟨hmem, hle⟩ := foldl_takeBetter_fst ds (takeBetter s d)
      have hfirst : (takeBetter s d).1 = min d s.1 := by
        unfold takeBetter
        split_ifs with h
        · exact (min_eq_left h.le).symm
        · exact (min_eq_right (not_lt.mp h)).symm
      rw [hfirst] at hmem hle
      rw [List.foldl_cons]
      constructor
      · rcases hmem with h | h
        · rw [h]
          rcases min_choice d s.1 with hm | hm
          · rw [hm]
            exact Or.inr List.mem_cons_self
          · rw [hm]
            exact Or.inl rfl
        · exact Or.inr (List.mem_cons_of_mem d h)
      · rintro x (rfl | hx)
        · exact (hle (Or.inl rfl)).trans (min_le_right d s.1)
        · rcases List.mem_cons.mp hx with rfl | hx
          · exact (hle (Or.inl rfl)).trans (min_le_left x s.1)
          · exact hle (Or.inr hx)

variable {M : α} {ds : List α}

theorem twoBest_fst (M : α) (ds : List α) : IsLeast {x | x = M ∨ x ∈ ds} (twoBest M ds).1 :=
  foldl_takeBetter_fst ds (M, M)

theorem twoBest_of_le (h : ∀ d ∈ ds, M ≤ d) : twoBest M ds = (M, M) := foldl_takeBetter_of_le h

/-- The least value, where it stands first, and the least one before it. -/
theorem twoBest_of_split {pre post : List α} {d : α} (hd : d < M) (hpre : ∀ y ∈ pre, d < y)
    (hpost : ∀ x ∈ post, d ≤ x) : twoBest M (pre ++ d :: post) = (d, (twoBest M pre).1) := by
  have hbetter : d < (twoBest M pre).1 := by
    rcases (twoBest_fst M pre).1 with h | h
    · rwa [h]
    · exact hpre _ h
  rw [twoBest, List.foldl_append, List.foldl_cons]
  change post.foldl takeBetter (takeBetter (twoBest M pre) d) = _
  rw [takeBetter, if_pos hbetter]
  exact foldl_takeBetter_of_le hpost

/-- A list with a value below `M` splits at the first one of the least. -/
theorem exists_split (h : ∃ d ∈ ds, d < M) : ∃ pre d post, ds = pre ++ d :: post ∧ d < M ∧ (∀ y ∈ pre, d < y) ∧
    ∀ x ∈ post, d ≤ x := by
  obtain ⟨d₀, hd₀, hlt⟩ := h
  obtain ⟨hmem, hle⟩ := twoBest_fst M ds
  have hbest : (twoBest M ds).1 < M := (hle (Or.inr hd₀)).trans_lt hlt
  obtain ⟨pre, post, heq, hfirst⟩ := List.eq_append_cons_of_mem (hmem.resolve_left hbest.ne)
  refine ⟨pre, _, post, heq, hbest, fun y hy => ?_, fun x hx => hle (Or.inr ?_)⟩
  · refine lt_of_le_of_ne (hle (Or.inr ?_)) (fun h => hfirst (h ▸ hy))
    rw [heq]
    exact List.mem_append_left _ hy
  · rw [heq]
    exact List.mem_append_right _ (List.mem_cons_of_mem _ hx)

theorem capped_eq_of_le (h : ∀ d ∈ ds, M ≤ d) : ∀ x ∈ capped M ds, x = M := by
  intro x hx
  rcases List.mem_append.mp hx with hx | hx
  · obtain ⟨d, hd, rfl⟩ := List.mem_map.mp hx
    exact min_eq_right (h d hd)
  · simpa using hx

/-- With the values split at the first one of the least, the pass ends with the two least values exactly if none
    behind it is less than all before it. -/
theorem twoLeast_of_split {pre post : List α} {d : α} (hd : d < M) (hpre : ∀ y ∈ pre, d < y)
    (hpost : ∀ x ∈ post, d ≤ x) :
    TwoLeast (capped M (pre ++ d :: post)) d (twoBest M pre).1 ↔ ∀ x ∈ post, x < M → ∃ y ∈ pre, y ≤ x := by
  obtain ⟨hmem, hle⟩ := twoBest_fst M pre
  have hcapped : capped M (pre ++ d :: post) = pre.map (min · M) ++ d :: (post.map (min · M) ++ [M, M]) := by
    rw [capped, List.map_append, List.map_cons, min_eq_left hd.le, List.append_assoc, List.cons_append]
  have hpre' : ∀ y ∈ pre.map (min · M), d < y := by
    intro y hy
    obtain ⟨z, hz, rfl⟩ := List.mem_map.mp hy
    exact lt_min (hpre z hz) hd
  have herase : (capped M (pre ++ d :: post)).erase d = pre.map (min · M) ++ (post.map (min · M) ++ [M, M]) := by
    rw [hcapped, List.erase_append_right _ fun h => lt_irrefl d (hpre' d h), List.erase_cons_head]
  have hleast : IsLeast {x | x ∈ capped M (pre ++ d :: post)} d := by
    rw [hcapped]
    refine ⟨List.mem_append_right _ List.mem_cons_self, fun x hx => ?_⟩
    rcases List.mem_append.mp hx with hx | hx
    · exact (hpre' x hx).le
    · rcases List.mem_cons.mp hx with rfl | hx
      · exact le_rfl
      · rcases List.mem_append.mp hx with hx | hx
        · obtain ⟨z, hz, rfl⟩ := List.mem_map.mp hx
          exact le_min (hpost z hz) hd.le
        · rw [show x = M by simpa using hx]
          exact hd.le
  -- what is left are the values before and behind
  have hsecond : (twoBest M pre).1 ∈ pre.map (min · M) ++ (post.map (min · M) ++ [M, M]) := by
    rcases hmem with h | h
    · rw [h]
      simp
    · exact List.mem_append_left _ (List.mem_map.mpr ⟨_, h, min_eq_left (hle (Or.inl rfl))⟩)
  rw [TwoLeast, herase]
  constructor
  · rintro ⟨-, -, hlow⟩ x hx hxM
    by_contra hnone
    have hle' : (twoBest M pre).1 ≤ min x M :=
      hlow (List.mem_append_right _ (List.mem_append_left _ (List.mem_map.mpr ⟨x, hx, rfl⟩)))
    rcases hmem with h | h
    · rw [h] at hle'
      exact absurd (hle'.trans (min_le_left x M)) (not_le.mpr hxM)
    · exact hnone ⟨_, h, hle'.trans (min_le_left x M)⟩
  · intro hall
    refine ⟨hleast, hsecond, fun x hx => ?_⟩
    rcases List.mem_append.mp hx with hx | hx
    · obtain ⟨z, hz, rfl⟩ := List.mem_map.mp hx
      exact le_min (hle (Or.inr hz)) (hle (Or.inl rfl))
    · rcases List.mem_append.mp hx with hx | hx
      · obtain ⟨z, hz, rfl⟩ := List.mem_map.mp hx
        refine le_min ?_ (hle (Or.inl rfl))
        rcases lt_or_ge z M with hzM | hzM
        · obtain ⟨y, hy, hyz⟩ := hall z hz hzM
          exact (hle (Or.inr hy)).trans hyz
        · exact (hle (Or.inl rfl)).trans hzM
      · rw [show x = M by simpa using hx]
        exact hle (Or.inl rfl)

/-- The pass ends with the two least values exactly if none behind the least one is less than all before it. -/
theorem twoBest_twoLeast_iff (M : α) (ds : List α) :
    TwoLeast (capped M ds) (twoBest M ds).1 (twoBest M ds).2 ↔ ¬ LateBetter M ds := by
  by_cases hlow : ∃ d ∈ ds, d < M
  · constructor
    · rintro htwo ⟨pre, d, post, rfl, hd, hpre, hpost, x, hx, hxM, hlate⟩
      rw [twoBest_of_split hd hpre hpost] at htwo
      obtain ⟨y, hy, hyx⟩ := (twoLeast_of_split hd hpre hpost).mp htwo x hx hxM
      exact absurd hyx (not_le.mpr (hlate y hy))
    · intro hnot
      obtain ⟨pre, d, post, rfl, hd, hpre, hpost⟩ := exists_split hlow
      rw [twoBest_of_split hd hpre hpost]
      refine (twoLeast_of_split hd hpre hpost).mpr fun x hx hxM => ?_
      by_contra hnone
      push Not at hnone
      exact hnot ⟨pre, d, post, rfl, hd, hpre, hpost, x, hx, hxM, hnone⟩
  · push Not at hlow
    have hall := capped_eq_of_le hlow
    have hM : M ∈ capped M ds := by simp [capped]
    have hM' : M ∈ (capped M ds).erase M := by
      have hcount : 2 ≤ (capped M ds).count M := by simp [capped]
      rw [← List.count_pos_iff, List.count_erase_self]
      omega
    rw [twoBest_of_le hlow]
    refine iff_of_true ⟨⟨hM, fun x hx => (hall x hx).ge⟩, hM', fun x hx => (hall x (List.mem_of_mem_erase hx)).ge⟩ ?_
    rintro ⟨pre, d, post, rfl, hd, -⟩
    exact absurd hd (not_lt.mpr (hlow d (by simp)))

/-! ### Other orders -/

theorem twoBest_fst_perm {ds' : List α} (h : ds'.Perm ds) : (twoBest M ds').1 = (twoBest M ds).1 := by
  have hset : {x | x = M ∨ x ∈ ds'} = {x | x = M ∨ x ∈ ds} := Set.ext fun x => or_congr_right h.mem_iff
  exact (hset ▸ twoBest_fst M ds').unique (twoBest_fst M ds)

/-- The runner-up is `M` or a value above the best one. -/
theorem twoBest_snd (M : α) (ds : List α) :
    (twoBest M ds).2 = M ∨ (twoBest M ds).2 ∈ ds ∧ (twoBest M ds).1 < (twoBest M ds).2 ∧ (twoBest M ds).2 < M := by
  by_cases hlow : ∃ d ∈ ds, d < M
  · obtain ⟨pre, d, post, rfl, hd, hpre, hpost⟩ := exists_split hlow
    rw [twoBest_of_split hd hpre hpost]
    obtain ⟨hmem, hle⟩ := twoBest_fst M pre
    rcases hmem with h | h
    · exact Or.inl h
    · rcases (hle (Or.inl rfl)).lt_or_eq with hlt | heq
      · exact Or.inr ⟨List.mem_append_left _ h, hpre _ h, hlt⟩
      · exact Or.inl heq
  · push Not at hlow
    rw [twoBest_of_le hlow]
    exact Or.inl rfl

/-- If the best one comes first, the runner-up is `M`, -/
theorem twoBest_cons {d : α} {post : List α} (hd : d < M) (hpost : ∀ x ∈ post, d ≤ x) :
    twoBest M (d :: post) = (d, M) :=
  (twoBest_of_split hd (List.forall_mem_nil _) hpost : twoBest M ([] ++ d :: post) = _)

/-- and if only one value comes before it, it is that value. -/
theorem twoBest_cons_cons {s d : α} {post : List α} (hsM : s < M) (hd : d < s) (hpost : ∀ x ∈ post, d ≤ x) :
    twoBest M (s :: d :: post) = (d, s) := by
  have hs : (twoBest M [s]).1 = s := by
    rw [twoBest_cons hsM (by simp)]
  have h : twoBest M ([s] ++ d :: post) = _ := twoBest_of_split (hd.trans hsM) (by simpa using hd) hpost
  rwa [hs] at h

end OpenMV.Schemes
