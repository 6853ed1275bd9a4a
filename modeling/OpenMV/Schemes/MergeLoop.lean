import Mathlib.Data.List.Perm.Basic
import Mathlib.Algebra.BigOperators.Group.List.Basic
import Mathlib.Algebra.Ring.Nat
import Mathlib.Logic.Relation

/-! Merging a list until no pair merges | scheme:fixpoint

    A list is rotated through itself: its first element takes in every later one that it merges with,
    the others go back to the end, and the next pass of the rotation starts with what is then first.
    Passes over the whole list are made until one of them merges nothing. The test of a pair may have
    a state of its own.

    `Merges` says all that such a run can do to the elements: reorder them, and replace two of them by
    their join. Totals, groupings and the length of the list follow from it alone. -/

namespace OpenMV.Schemes.MergeLoop

/-- The test whether `b` is merged into `a`, and the merging. -/
structure Merger (σ α : Type*) where
  test : σ → α → α → Bool × σ
  join : α → α → α

structure State (σ α : Type*) where
  out : List α
  env : σ
  merged : Bool
  /-- The pairs merged so far. -/
  log : List (α × α)

variable {σ α : Type*}

namespace Merger

variable (M : Merger σ α)

/-- The element `a` is compared with the next `k` elements of the list. -/
def absorb : ℕ → α → State σ α → α × State σ α
  | 0, a, s => (a, s)
  | k + 1, a, s =>
    match s.out with
    | [] => (a, s)
    | b :: rest =>
      let r := M.test s.env a b
      if r.1 then absorb k (M.join a b) ⟨rest, r.2, true, s.log ++ [(a, b)]⟩
      else absorb k a ⟨rest ++ [b], r.2, s.merged, s.log⟩

/-- The elements are taken from the front one after the other until the list is empty; each round
    takes at least one. -/
def drain : ℕ → List α → State σ α → List α × State σ α
  | 0, temp, s => (temp, s)
  | n + 1, temp, s =>
    match s.out with
    | [] => (temp, s)
    | a :: rest =>
      let r := M.absorb rest.length a { s with out := rest }
      drain n (temp ++ [r.1]) r.2

def pass (s : State σ α) : State σ α :=
  let r := M.drain s.out.length [] { s with merged := false }
  { r.2 with out := r.1 }

def loop : ℕ → State σ α → Option (State σ α)
  | 0, _ => none
  | n + 1, s => if (M.pass s).merged then loop n (M.pass s) else some (M.pass s)

end Merger

/-! ### What a run does to the elements -/

inductive Merges (join : α → α → α) : List α → List (α × α) → List α → Prop
  | perm {l l' : List α} (h : l.Perm l') : Merges join l [] l'
  | merge {l l' rest : List α} {a b : α} {log : List (α × α)} (h : l.Perm (a :: b :: rest))
      (m : Merges join (join a b :: rest) log l') : Merges join l ((a, b) :: log) l'

namespace Merges

variable {join : α → α → α} {l l' l'' : List α} {log log' : List (α × α)}

theorem perm_left (m : Merges join l log l') (h : l''.Perm l) : Merges join l'' log l' := by
  cases m with
  | perm h' => exact .perm (h.trans h')
  | merge h' m => exact .merge (h.trans h') m

theorem trans (m : Merges join l log l') (m' : Merges join l' log' l'') :
    Merges join l (log ++ log') l'' := by
  induction m with
  | perm h => exact m'.perm_left h
  | merge h _ ih => exact .merge h (ih m')

/-- What a join keeps holds for all elements of the run. -/
theorem forall_mem {P : α → Prop} (hP : ∀ a b, P a → P b → P (join a b)) (m : Merges join l log l')
    (h : ∀ a ∈ l, P a) : (∀ a ∈ l', P a) ∧ ∀ p ∈ log, P p.1 ∧ P p.2 := by
  induction m with
  | perm hp => exact ⟨fun a ha => h a (hp.mem_iff.2 ha), by simp⟩
  | @merge l l' rest a b log hp _ ih =>
    obtain ⟨ha, hb, hrest⟩ : P a ∧ P b ∧ ∀ c ∈ rest, P c := by
      simpa using fun c hc => h c (hp.mem_iff.2 hc)
    obtain ⟨hout, hlog⟩ := ih (List.forall_mem_cons.2 ⟨hP a b ha hb, hrest⟩)
    exact ⟨hout, List.forall_mem_cons.2 ⟨⟨ha, hb⟩, hlog⟩⟩

/-- What the joins of the run keep holds for all elements of the run. -/
theorem forall_mem_log {P : α → Prop} (m : Merges join l log l')
    (hP : ∀ p ∈ log, P p.1 → P p.2 → P (join p.1 p.2)) (h : ∀ a ∈ l, P a) : ∀ p ∈ log, P p.1 ∧ P p.2 := by
  induction m with
  | perm hp => simp
  | @merge l l' rest a b log hp _ ih =>
    obtain ⟨ha, hb, hrest⟩ : P a ∧ P b ∧ ∀ c ∈ rest, P c := by
      simpa using fun c hc => h c (hp.mem_iff.2 hc)
    refine List.forall_mem_cons.2 ⟨⟨ha, hb⟩, ih (fun p hp' => hP p (List.mem_cons_of_mem _ hp')) ?_⟩
    exact List.forall_mem_cons.2 ⟨hP (a, b) List.mem_cons_self ha hb, hrest⟩

/-- The same elements may be added on both sides. -/
theorem append_left (m : Merges join l log l') (t : List α) : Merges join (t ++ l) log (t ++ l') := by
  induction m with
  | perm h => exact .perm (h.append_left t)
  | @merge l l' rest a b log h _ ih =>
    have hswap : (t ++ l).Perm (a :: b :: (t ++ rest)) := by
      refine (h.append_left t).trans (List.perm_middle.trans ?_)
      exact List.perm_middle.cons a
    exact .merge hswap (ih.perm_left List.perm_middle.symm)

theorem length_add (m : Merges join l log l') : l'.length + log.length = l.length := by
  induction m with
  | perm h => simp [h.length_eq]
  | merge h _ ih =>
    simp only [h.length_eq, List.length_cons] at ih ⊢
    omega

/-- A total that every join adds up is conserved. -/
theorem foldr_eq {β : Type*} {op : β → β → β} [Std.Commutative op] [Std.Associative op] (e : β)
    (f : α → β) (hf : ∀ a b, f (join a b) = op (f a) (f b)) (m : Merges join l log l') :
    (l'.map f).foldr op e = (l.map f).foldr op e := by
  induction m with
  | perm h => exact ((h.map f).foldr_op_eq).symm
  | merge h _ ih =>
    rw [ih, (h.map f).foldr_op_eq]
    simp only [List.map_cons, List.foldr_cons, hf, Std.Associative.assoc]

theorem sum_le (f : α → ℕ) (hf : ∀ a b, f (join a b) ≤ f a + f b) (m : Merges join l log l') :
    (l'.map f).sum ≤ (l.map f).sum := by
  induction m with
  | perm h => exact Nat.le_of_eq ((h.map f).sum_eq).symm
  | @merge l l' rest a b log h _ ih =>
    have hab := hf a b
    rw [(h.map f).sum_eq]
    simp only [List.map_cons, List.sum_cons] at ih ⊢
    omega

end Merges

/-! ### Groups

    The elements of a run stand for groups of the elements it began with. -/

/-- The list `l` stands for a partition of `is` into groups that are related to its elements. -/
def Grouped {ι : Type*} (R : List ι → α → Prop) (is : List ι) (l : List α) : Prop :=
  ∃ groups : List (List ι), groups.flatten.Perm is ∧ List.Forall₂ R groups l

section Grouped
variable {ι : Type*} {R : List ι → α → Prop} {is : List ι} {l l' : List α} {log : List (α × α)}
  {join : α → α → α}

theorem grouped_map {val : ι → α} (h : ∀ i ∈ is, R [i] (val i)) : Grouped R is (is.map val) := by
  refine ⟨is.map fun i => [i], by rw [← List.flatMap_def, List.flatMap_singleton'], ?_⟩
  rw [List.forall₂_map_left_iff, List.forall₂_map_right_iff, List.forall₂_same]
  exact h

theorem Grouped.perm (h : Grouped R is l) (hp : l.Perm l') : Grouped R is l' := by
  obtain ⟨groups, hg, hR⟩ := h
  obtain ⟨groups', hR', hg'⟩ := List.perm_comp_forall₂ hp.symm hR.flip
  exact ⟨groups', hg'.flatten.trans hg, hR'.flip⟩

theorem Grouped.merge {a b : α} {rest : List α} (h : Grouped R is (a :: b :: rest))
    (hR : ∀ g g', R g a → R g' b → R (g ++ g') (join a b)) : Grouped R is (join a b :: rest) := by
  obtain ⟨groups, hg, hF⟩ := h
  obtain _ | ⟨ha, _ | ⟨hb, hrest⟩⟩ := hF
  refine ⟨_, ?_, .cons (hR _ _ ha hb) hrest⟩
  simpa using hg

theorem Grouped.imp {R' : List ι → α → Prop} (h : Grouped R is l) (hR : ∀ g a, R g a → R' g a) :
    Grouped R' is l := by
  obtain ⟨groups, hg, hF⟩ := h
  exact ⟨groups, hg, hF.imp hR⟩

theorem Grouped.exists_group (h : Grouped R is l) : ∀ a ∈ l, ∃ g, R g a := by
  obtain ⟨groups, -, hF⟩ := h
  induction hF with
  | nil => simp
  | cons ha _ ih => exact List.forall_mem_cons.mpr ⟨⟨_, ha⟩, ih⟩

/-- A relation that the joins of a run keep holds between the groups and what the run ends with. -/
theorem Merges.grouped (m : Merges join l log l') (h : Grouped R is l)
    (hR : ∀ p ∈ log, ∀ g g', R g p.1 → R g' p.2 → R (g ++ g') (join p.1 p.2)) :
    Grouped R is l' := by
  induction m with
  | perm hp => exact h.perm hp
  | @merge l l' rest a b log hp _ ih =>
    refine ih ?_ (fun p hp' => hR p (List.mem_cons_of_mem _ hp'))
    exact (h.perm hp).merge (hR (a, b) List.mem_cons_self)

/-- So it does for every element that a join makes on the way. -/
theorem Merges.grouped_log (m : Merges join l log l') (h : Grouped R is l)
    (hR : ∀ p ∈ log, ∀ g g', R g p.1 → R g' p.2 → R (g ++ g') (join p.1 p.2)) :
    ∀ p ∈ log, ∃ g, g.Subperm is ∧ R g (join p.1 p.2) := by
  induction m with
  | perm hp => simp
  | @merge l l' rest a b log hp _ ih =>
    have hab := hR (a, b) List.mem_cons_self
    have hcur := h.perm hp
    refine List.forall_mem_cons.mpr ⟨?_, ih (hcur.merge hab) fun p hp' => hR p (List.mem_cons_of_mem _ hp')⟩
    obtain ⟨groups, hg, hF⟩ := hcur.merge hab
    obtain _ | ⟨ha, _⟩ := hF
    refine ⟨_, ?_, ha⟩
    rw [List.flatten_cons] at hg
    exact (List.sublist_append_left _ _).subperm.trans hg.subperm

end Grouped

/-! ### The loops -/

/-- From `s` to `s'` the elements `l` were merged to `l'`, and the flag is up if it was or if a pair
    was merged. -/
structure Runs (M : Merger σ α) (l : List α) (s : State σ α) (l' : List α) (s' : State σ α)
    (new : List (α × α)) : Prop where
  merges : Merges M.join l new l'
  log : s'.log = s.log ++ new
  merged : s'.merged = (s.merged || !new.isEmpty)

variable {M : Merger σ α}

theorem Runs.trans {l l' l'' : List α} {s s' s'' : State σ α} {new new' : List (α × α)}
    (h : Runs M l s l' s' new) (h' : Runs M l' s' l'' s'' new') : Runs M l s l'' s'' (new ++ new') where
  merges := h.merges.trans h'.merges
  log := by rw [h'.log, h.log, List.append_assoc]
  merged := by rw [h'.merged, h.merged]; cases new <;> simp

theorem absorb_runs : ∀ (k : ℕ) (a : α) (s : State σ α), ∃ new,
    Runs M (a :: s.out) s ((M.absorb k a s).1 :: (M.absorb k a s).2.out) (M.absorb k a s).2 new
  | 0, a, s => ⟨[], .perm (.refl _), by simp [Merger.absorb], by simp [Merger.absorb]⟩
  | k + 1, a, ⟨[], env, merged, log⟩ =>
    ⟨[], .perm (.refl _), by simp [Merger.absorb], by simp [Merger.absorb]⟩
  | k + 1, a, ⟨b :: rest, env, merged, log⟩ => by
      rw [Merger.absorb]
      simp only
      by_cases ht : (M.test env a b).1
      · rw [if_pos ht]
        obtain ⟨new, h⟩ := absorb_runs k (M.join a b)
          (⟨rest, (M.test env a b).2, true, log ++ [(a, b)]⟩ : State σ α)
        exact ⟨(a, b) :: new, .merge (.refl _) h.merges, by simp [h.log], by simp [h.merged]⟩
      · rw [if_neg ht]
        obtain ⟨new, h⟩ := absorb_runs k a
          (⟨rest ++ [b], (M.test env a b).2, merged, log⟩ : State σ α)
        refine ⟨new, h.merges.perm_left ?_, h.log, h.merged⟩
        exact (List.perm_append_singleton b rest).symm.cons a

theorem drain_runs : ∀ (n : ℕ) (temp : List α) (s : State σ α), ∃ new,
    Runs M (temp ++ s.out) s ((M.drain n temp s).1 ++ (M.drain n temp s).2.out) (M.drain n temp s).2 new
  | 0, temp, s => ⟨[], .perm (.refl _), by simp [Merger.drain], by simp [Merger.drain]⟩
  | n + 1, temp, ⟨[], env, merged, log⟩ =>
    ⟨[], .perm (.refl _), by simp [Merger.drain], by simp [Merger.drain]⟩
  | n + 1, temp, ⟨a :: rest, env, merged, log⟩ => by
      rw [Merger.drain]
      obtain ⟨new, h⟩ := absorb_runs (M := M) rest.length a (⟨rest, env, merged, log⟩ : State σ α)
      set r := M.absorb rest.length a (⟨rest, env, merged, log⟩ : State σ α)
      obtain ⟨new', h'⟩ := drain_runs n (temp ++ [r.1]) r.2
      rw [List.append_assoc, List.singleton_append] at h'
      exact ⟨new ++ new', Runs.trans ⟨h.merges.append_left temp, h.log, h.merged⟩ h'⟩

/-- As many rounds as there are elements empty the list. -/
theorem drain_out : ∀ (n : ℕ) (temp : List α) (s : State σ α), s.out.length ≤ n →
    (M.drain n temp s).2.out = []
  | 0, temp, ⟨[], env, merged, log⟩, _ => rfl
  | n + 1, temp, ⟨[], env, merged, log⟩, _ => rfl
  | n + 1, temp, ⟨a :: rest, env, merged, log⟩, h => by
      rw [Merger.drain]
      apply drain_out
      obtain ⟨new, hr⟩ := absorb_runs (M := M) rest.length a (⟨rest, env, merged, log⟩ : State σ α)
      have hlen := hr.merges.length_add
      simp only [List.length_cons] at hlen h ⊢
      omega

theorem pass_runs (s : State σ α) : ∃ new, Merges M.join s.out new (M.pass s).out ∧
    (M.pass s).log = s.log ++ new ∧ ((M.pass s).merged = true ↔ new ≠ []) := by
  obtain ⟨new, h⟩ := drain_runs (M := M) s.out.length [] { s with merged := false }
  have hout := drain_out (M := M) s.out.length [] { s with merged := false } (Nat.le_refl _)
  have hm := h.merges
  rw [hout, List.append_nil, List.nil_append] at hm
  refine ⟨new, hm, h.log, ?_⟩
  rw [show (M.pass s).merged = _ from h.merged]
  simp

/-- Every pass but the last shortens the list, so the loop ends after at most as many passes as there
    are elements, and one more. -/
theorem loop_terminates : ∀ (n : ℕ) (s : State σ α), s.out.length < n → ∃ s' new, M.loop n s = some s' ∧
    Merges M.join s.out new s'.out ∧ s'.log = s.log ++ new
  | 0, s, h => absurd h (Nat.not_lt_zero _)
  | n + 1, s, h => by
      obtain ⟨new, hm, hlog, hmerged⟩ := pass_runs (M := M) s
      rw [Merger.loop]
      by_cases hp : (M.pass s).merged
      · rw [if_pos hp]
        have hlen := hm.length_add
        have hpos : 0 < new.length := List.length_pos_iff.mpr (hmerged.mp hp)
        obtain ⟨s', new', hs', hm', hlog'⟩ := loop_terminates n (M.pass s) (by omega)
        exact ⟨s', new ++ new', hs', hm.trans hm', by rw [hlog', hlog, List.append_assoc]⟩
      · rw [if_neg hp]
        exact ⟨M.pass s, new, rfl, hm, hlog⟩

/-- More passes than are needed change nothing. -/
theorem loop_mono : ∀ {n : ℕ} {s s' : State σ α}, M.loop n s = some s' → ∀ {m : ℕ}, n ≤ m →
    M.loop m s = some s'
  | 0, s, s', h, m, _ => by simp [Merger.loop] at h
  | n + 1, s, s', h, m, hm => by
      obtain ⟨m, rfl⟩ : ∃ m', m = m' + 1 := ⟨m - 1, by omega⟩
      rw [Merger.loop] at h ⊢
      by_cases hp : (M.pass s).merged
      · rw [if_pos hp] at h ⊢
        exact loop_mono h (by omega)
      · rwa [if_neg hp] at h ⊢

/-! ### The last pass

    It leaves the list as it is, and every element was compared with all the later ones. -/

/-- The two were compared at some time and did not merge. -/
def Apart (M : Merger σ α) (a b : α) : Prop := ∃ env, (M.test env a b).1 = false

theorem absorb_quiet : ∀ (xs ys : List α) (a : α) (env : σ) (merged : Bool) (log : List (α × α)),
    (M.absorb xs.length a ⟨xs ++ ys, env, merged, log⟩).2.merged = false →
    (M.absorb xs.length a ⟨xs ++ ys, env, merged, log⟩).1 = a ∧
    (M.absorb xs.length a ⟨xs ++ ys, env, merged, log⟩).2.out = ys ++ xs ∧ ∀ b ∈ xs, Apart M a b
  | [], ys, a, env, merged, log, _ => ⟨rfl, by simp [Merger.absorb], by simp⟩
  | b :: xs, ys, a, env, merged, log, h => by
      rw [List.length_cons, List.cons_append, Merger.absorb] at h ⊢
      simp only at h ⊢
      by_cases ht : (M.test env a b).1
      · rw [if_pos ht] at h
        obtain ⟨new, hr⟩ := absorb_runs (M := M) xs.length (M.join a b)
          (⟨xs ++ ys, (M.test env a b).2, true, log ++ [(a, b)]⟩ : State σ α)
        rw [hr.merged] at h
        simp at h
      · rw [if_neg ht] at h ⊢
        rw [List.append_assoc] at h ⊢
        obtain ⟨h1, h2, h3⟩ := absorb_quiet xs (ys ++ [b]) a _ _ _ h
        refine ⟨h1, by rw [h2]; simp, ?_⟩
        intro c hc
        obtain rfl | hc := List.mem_cons.mp hc
        · exact ⟨env, by simpa using ht⟩
        · exact h3 c hc

theorem drain_quiet : ∀ (n : ℕ) (temp : List α) (s : State σ α), s.out.length ≤ n →
    (M.drain n temp s).2.merged = false →
    (M.drain n temp s).1 = temp ++ s.out ∧ s.out.Pairwise (Apart M)
  | 0, temp, ⟨[], env, merged, log⟩, _, _ => ⟨by simp [Merger.drain], .nil⟩
  | n + 1, temp, ⟨[], env, merged, log⟩, _, _ => ⟨by simp [Merger.drain], .nil⟩
  | n + 1, temp, ⟨a :: rest, env, merged, log⟩, hn, h => by
      rw [Merger.drain] at h ⊢
      simp only at h ⊢
      obtain ⟨new, hr⟩ := drain_runs (M := M) n
        (temp ++ [(M.absorb rest.length a ⟨rest, env, merged, log⟩).1])
        (M.absorb rest.length a ⟨rest, env, merged, log⟩).2
      -- the flag is down at the end, so it was after the first element too
      have hfirst : (M.absorb rest.length a ⟨rest, env, merged, log⟩).2.merged = false := by
        have := hr.merged.symm.trans h
        simp only [Bool.or_eq_false_iff] at this
        exact this.1
      have hq := absorb_quiet (M := M) rest [] a env merged log (by simpa using hfirst)
      simp only [List.append_nil, List.nil_append] at hq
      obtain ⟨h1, h2, h3⟩ := hq
      have hrest := drain_quiet n _ _ (by rw [h2]; simpa using hn) h
      rw [h1, h2] at hrest
      rw [h1]
      exact ⟨by simpa using hrest.1, List.pairwise_cons.mpr ⟨h3, hrest.2⟩⟩

theorem pass_quiet (s : State σ α) (h : (M.pass s).merged = false) :
    (M.pass s).out = s.out ∧ s.out.Pairwise (Apart M) :=
  drain_quiet (M := M) s.out.length [] { s with merged := false } (Nat.le_refl _) h

/-- The loop that starts at `s` makes its last pass from `t`. -/
structure LastPass (M : Merger σ α) (s t : State σ α) : Prop where
  reached : Relation.ReflTransGen (fun u v => v = M.pass u ∧ v.merged = true) s t
  quiet : (M.pass t).merged = false

theorem loop_lastPass : ∀ {n : ℕ} {s s' : State σ α}, M.loop n s = some s' → ∃ t, LastPass M s t ∧ s' = M.pass t
  | 0, s, s', h => by simp [Merger.loop] at h
  | n + 1, s, s', h => by
      rw [Merger.loop] at h
      by_cases hp : (M.pass s).merged
      · rw [if_pos hp] at h
        obtain ⟨t, ht, hs'⟩ := loop_lastPass h
        exact ⟨t, ⟨.head ⟨rfl, hp⟩ ht.reached, ht.quiet⟩, hs'⟩
      · rw [if_neg hp, Option.some.injEq] at h
        exact ⟨s, ⟨.refl, by simpa using hp⟩, h.symm⟩

/-- When the loop ends, no element merges with a later one. -/
theorem loop_pairwise {n : ℕ} {s s' : State σ α} (h : M.loop n s = some s') : s'.out.Pairwise (Apart M) := by
  obtain ⟨t, ht, rfl⟩ := loop_lastPass h
  obtain ⟨hout, hapart⟩ := pass_quiet t ht.quiet
  rwa [hout]

end OpenMV.Schemes.MergeLoop
