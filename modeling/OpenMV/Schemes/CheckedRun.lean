import Mathlib.Data.List.Basic
import Mathlib.Data.List.Induction

/-! Checked runs | scheme:fold

    A loop whose rounds may fail, as a fold in `Option`. What each round keeps, given the list of the rounds before
    it, holds at the end, and the run does not fail if no round does. -/

namespace OpenMV.Schemes

variable {σ τ α : Type*} {step step' : σ → α → Option σ}

/-- The run from a state reached by the rounds `done`. -/
theorem foldlM_carries (I : List α → σ → Prop) : ∀ {l done : List α} {s : σ}, I done s →
    (∀ a ∈ l, ∀ {done : List α} {s : σ}, I done s → ∃ s', step s a = some s' ∧ I (done ++ [a]) s') →
    ∃ s', l.foldlM step s = some s' ∧ I (done ++ l) s'
  | [], done, s, h, _ => ⟨s, rfl, by rwa [List.append_nil]⟩
  | a :: l, done, s, h, hstep => by
      obtain ⟨s₁, h1, hs₁⟩ := hstep a List.mem_cons_self h
      obtain ⟨s', h2, hs'⟩ := foldlM_carries I hs₁ fun b hb => hstep b (List.mem_cons_of_mem a hb)
      refine ⟨s', by rw [List.foldlM_cons, h1]; exact h2, ?_⟩
      rwa [List.append_assoc, List.singleton_append] at hs'

/-- The run from the first state. -/
theorem exists_foldlM (I : List α → σ → Prop) {l : List α} {s : σ} (h : I [] s)
    (hstep : ∀ a ∈ l, ∀ {done : List α} {s : σ}, I done s → ∃ s', step s a = some s' ∧ I (done ++ [a]) s') :
    ∃ s', l.foldlM step s = some s' ∧ I l s' :=
  foldlM_carries I h hstep

/-- The same, for rounds that depend on the rounds in front of them and on the state these have led to. -/
theorem exists_foldlM_split (I : List α → σ → Prop) {s : σ} (h : I [] s) : ∀ (l : List α),
    (∀ done a rest, l = done ++ a :: rest → ∀ t, done.foldlM step s = some t → I done t →
      ∃ t', step t a = some t' ∧ I (done ++ [a]) t') → ∃ t, l.foldlM step s = some t ∧ I l t := by
  intro l
  induction l using List.reverseRecOn with
  | nil => exact fun _ => ⟨s, rfl, h⟩
  | append_singleton l a ih =>
    intro hstep
    obtain ⟨t, ht, hI⟩ := ih fun done b rest hl => hstep done b (rest ++ [a]) (by rw [hl]; simp)
    obtain ⟨t', ht', hI'⟩ := hstep l a [] rfl t ht hI
    refine ⟨t', ?_, hI'⟩
    rw [List.foldlM_append, ht, ← ht']
    exact bind_pure (step t a)

theorem foldlM_isSome (step : σ → α → Option σ) {l : List α} (hstep : ∀ s, ∀ a ∈ l, ∃ s', step s a = some s')
    (s : σ) : ∃ s', l.foldlM step s = some s' := by
  have hrun : ∃ s', l.foldlM step s = some s' ∧ True := exists_foldlM (fun _ _ => True) trivial fun a ha _ s _ => by
    obtain ⟨s', hs'⟩ := hstep s a ha
    exact ⟨s', hs', trivial⟩
  simpa using hrun

/-- A loop that goes through has gone through each of its rounds. -/
theorem exists_of_foldlM : ∀ {l : List α} {s t : σ}, l.foldlM step s = some t →
    ∀ a ∈ l, ∃ s' t', step s' a = some t'
  | a :: l, s, t, h, a', ha' => by
      rw [List.foldlM_cons] at h
      obtain ⟨s', hs', hrest⟩ := Option.bind_eq_some_iff.mp h
      rcases List.mem_cons.mp ha' with rfl | hmem
      · exact ⟨s, s', hs'⟩
      · exact exists_of_foldlM hrest a' hmem

theorem foldlM_congr_mem : ∀ {l : List α} (s : σ), (∀ a ∈ l, ∀ s, step s a = step' s a) →
    l.foldlM step s = l.foldlM step' s
  | [], _, _ => rfl
  | a :: l, s, h => by
      obtain ⟨ha, hl⟩ := List.forall_mem_cons.mp h
      rw [List.foldlM_cons, List.foldlM_cons, ha s]
      exact bind_congr fun s' => foldlM_congr_mem s' hl

/-- A loop commutes with a map of its states. -/
theorem foldlM_option_map (g : σ → τ) {next : τ → α → Option τ} (h : ∀ s a, next (g s) a = (step s a).map g) :
    ∀ (l : List α) (s : σ), l.foldlM next (g s) = (l.foldlM step s).map g
  | [], _ => rfl
  | a :: l, s => by
      rw [List.foldlM_cons, List.foldlM_cons, h]
      cases step s a with
      | none => rfl
      | some s' => exact foldlM_option_map g h l s'

end OpenMV.Schemes
