import Mathlib.Data.List.Induction

/-! Runs of a transition function | scheme:invariant

    A component of the firmware is a state and a step function fed with a list of inputs (calls,
    requests, scheduler choices). `run` is the left fold of the step over the inputs; `StepsMeet`
    says that every step of a run starts in a state that allows it. Two rules carry the safety
    results: `run_inv` for an invariant of the state alone, and `run_hist` for one that also looks
    back at the inputs consumed so far. -/

namespace OpenMV.Schemes

variable {σ ι : Type*}

/-- The state after feeding the inputs one by one. -/
def run (step : σ → ι → σ) (s : σ) (is : List ι) : σ := is.foldl step s

/-- Every step of the run from `s` meets the condition `C` in the state it starts from. -/
def StepsMeet (step : σ → ι → σ) (C : σ → ι → Prop) : σ → List ι → Prop
  | _, [] => True
  | s, i :: is => C s i ∧ StepsMeet step C (step s i) is

variable {step : σ → ι → σ} {C D : σ → ι → Prop}

instance StepsMeet.decidable [∀ s i, Decidable (C s i)] :
    ∀ s is, Decidable (StepsMeet step C s is)
  | _, [] => .isTrue trivial
  | s, i :: is => @instDecidableAnd _ _ _ (StepsMeet.decidable (step s i) is)

@[simp] theorem run_nil (s : σ) : run step s [] = s := rfl

@[simp] theorem run_cons (s : σ) (i : ι) (is : List ι) :
    run step s (i :: is) = run step (step s i) is := rfl

theorem run_append (s : σ) (is js : List ι) :
    run step s (is ++ js) = run step (run step s is) js := List.foldl_append

theorem run_concat (s : σ) (is : List ι) (i : ι) :
    run step s (is ++ [i]) = step (run step s is) i := by
  rw [run_append, run_cons, run_nil]

theorem stepsMeet_append : ∀ (s : σ) (is js : List ι),
    StepsMeet step C s (is ++ js) ↔ StepsMeet step C s is ∧ StepsMeet step C (run step s is) js
  | s, [], js => by simp [StepsMeet]
  | s, i :: is, js => by
      simp only [List.cons_append, StepsMeet, run_cons, stepsMeet_append (step s i) is js, and_assoc]

theorem stepsMeet_concat (s : σ) (is : List ι) (i : ι) :
    StepsMeet step C s (is ++ [i]) ↔ StepsMeet step C s is ∧ C (run step s is) i := by
  simp [stepsMeet_append, StepsMeet]

/-- A prefix of a run whose steps all meet the condition is such a run. -/
theorem StepsMeet.of_initial {s : σ} {is js : List ι} (h : StepsMeet step C s js) (hp : is <+: js) :
    StepsMeet step C s is := by
  obtain ⟨ks, rfl⟩ := hp
  exact ((stepsMeet_append s is ks).mp h).1

/-- The same, said of every step of the run. -/
theorem stepsMeet_iff_forall {s : σ} {is : List ι} : StepsMeet step C s is ↔
    ∀ pre i, pre ++ [i] <+: is → C (run step s pre) i := by
  constructor
  · intro h pre i hpre
    exact ((stepsMeet_concat s pre i).mp (h.of_initial hpre)).2
  · intro h
    induction is using List.reverseRecOn with
    | nil => trivial
    | append_singleton is i ih =>
      rw [stepsMeet_concat]
      exact ⟨ih (fun pre j hpre => h pre j (hpre.trans (List.prefix_append _ _))),
        h is i (List.prefix_refl _)⟩

theorem stepsMeet_and {s : σ} {is : List ι} :
    StepsMeet step (fun s i => C s i ∧ D s i) s is ↔ StepsMeet step C s is ∧ StepsMeet step D s is := by
  simp only [stepsMeet_iff_forall]
  exact ⟨fun h => ⟨fun p i hp => (h p i hp).1, fun p i hp => (h p i hp).2⟩,
    fun h p i hp => ⟨h.1 p i hp, h.2 p i hp⟩⟩

/-- An invariant kept by every allowed step holds at the end of every allowed run. -/
theorem run_inv (Inv : σ → Prop) (hstep : ∀ s i, Inv s → C s i → Inv (step s i)) {s : σ}
    {is : List ι} (h0 : Inv s) (hC : StepsMeet step C s is) : Inv (run step s is) := by
  induction is generalizing s with
  | nil => exact h0
  | cons i is ih => exact ih (hstep s i h0 hC.1) hC.2

/-- The same for an invariant that relates the state to the inputs consumed so far. -/
theorem run_hist (Inv : List ι → σ → Prop) {s : σ}
    (hstep : ∀ is i, Inv is (run step s is) → StepsMeet step C s is → C (run step s is) i →
      Inv (is ++ [i]) (step (run step s is) i))
    (h0 : Inv [] s) {is : List ι} (hC : StepsMeet step C s is) : Inv is (run step s is) := by
  induction is using List.reverseRecOn with
  | nil => exact h0
  | append_singleton is i ih =>
    rw [stepsMeet_concat] at hC
    rw [run_concat]
    exact hstep is i (ih hC.1) hC.1 hC.2

end OpenMV.Schemes
