import OpenMV.Driver.DmaUsers

/-! KPU runs | scheme:machine | source:src/src/extmods/k210/py_kpu.c, src/src/rt-thread/src/ipc.c

    `py_kpu_run` starts a run of the model and waits 2000 ticks for the semaphore that `ai_done` releases when
    a run is complete. A call that has waited in vain raises an exception; its run goes on, and releases the
    semaphore later. Nothing takes that release back, so the next call on the object may take it for the end
    of its own run.

    The runs of one object are numbered as they are started. `infer` is what the model makes of an input. -/

namespace OpenMV.Driver
open Schemes

/-! ### The object -/

/-- Where `py_kpu_run` is. -/
inductive KpuPc where
  /-- not called, or returned -/
  | idle
  /-- behind `kpu_run_kmodel` -/
  | started
  /-- in the list of the semaphore, with the timer running -/
  | suspended
  /-- `rt_sem_take` has its result, and it is `RT_EOK` -/
  | woken
deriving DecidableEq, Repr

structure Kpu (α β : Type) where
  /-- the value of `k_sem` -/
  kSem : ℕ
  /-- the runs so far, each with its input and the DMA channel passed to it -/
  runs : List (α × ℕ)
  done : ℕ → Bool
  /-- the runs whose channel was given back -/
  released : ℕ → Bool
  pc : KpuPc
  /-- what `py_kpu_get_output` finds; nothing that makes sense while a run is writing it -/
  outputs : Option β
  /-- the run of the last call, when that has returned normally -/
  returned : Option ℕ

/-- `k210_kpu_make_new` -/
def k210KpuMakeNew (α β : Type) : Kpu α β := ⟨0, [], fun _ => false, fun _ => false, .idle, none, none⟩

inductive KpuEvent (α : Type) where
  /-- `py_kpu_run`, up to the wait; `dma` is the channel it gets, if any -/
  | call (input : KpuInput) (src : α) (dma : Option ℕ)
  /-- `rt_sem_take` looks at the value -/
  | semTake
  /-- 2000 ticks are over -/
  | timeout
  /-- the interrupt at the end of a run, with `ai_done` -/
  | aiDone (i : ℕ)
  /-- the rest of `py_kpu_run` -/
  | finish
deriving DecidableEq, Repr

section
variable {α β : Type}

def RT_SEM_VALUE_MAX : ℕ := 65535

/-- `rt_sem_release`: a thread that is suspended gets the release at once. -/
def rtSemRelease (s : Kpu α β) : Kpu α β :=
  if s.pc = .suspended then { s with pc := .woken }
  else if s.kSem < RT_SEM_VALUE_MAX then { s with kSem := s.kSem + 1 }
  else s

/-- What the model makes of the input of a run. -/
def outputOf (infer : α → β) (runs : List (α × ℕ)) (i : ℕ) : Option β := runs[i]?.map fun r => infer r.1

/-- `kpu_run_kmodel`: the run is under way, and writes over the outputs. -/
def Kpu.start (s : Kpu α β) (src : α) (dmaCh : ℕ) : Kpu α β :=
  { s with runs := s.runs ++ [(src, dmaCh)], pc := .started, outputs := none, returned := none }

/-- A run is complete. With another one under way the outputs are of neither. -/
def Kpu.complete (infer : α → β) (s : Kpu α β) (i : ℕ) : Kpu α β :=
  { s with
    done := Function.update s.done i true
    outputs := if ∀ j < s.runs.length, j ≠ i → s.done j = true then outputOf infer s.runs i else none }

def kpuStep (infer : α → β) (s : Kpu α β) : KpuEvent α → Kpu α β
  | .call input src dma =>
    if s.pc ≠ .idle then s
    else if input ≠ .ready then { s with returned := none } -- raises
    else match dma with
      | none => { s with returned := none } -- raises: Fail to take DMA channel
      | some dmaCh => s.start src dmaCh
  | .semTake =>
    if s.pc ≠ .started then s
    else if 0 < s.kSem then { s with kSem := s.kSem - 1, pc := .woken }
    else { s with pc := .suspended }
  | .timeout => if s.pc ≠ .suspended then s else { s with pc := .idle } -- raises: Fail to take KPU semaphore
  | .aiDone i =>
    -- once for a run
    if i < s.runs.length ∧ s.done i = false then rtSemRelease (s.complete infer i) else s
  | .finish =>
    if s.pc ≠ .woken then s
    else { s with
      pc := .idle
      released := Function.update s.released (s.runs.length - 1) true
      returned := some (s.runs.length - 1) }

/-- A normal return is that of a run that is done, with its outputs in place, and no run has lost its channel
    before it was done. -/
structure RunsOwned (infer : α → β) (s : Kpu α β) : Prop where
  channel : ∀ i, s.released i = true → s.done i = true
  own : ∀ i, s.returned = some i → i + 1 = s.runs.length ∧ s.done i = true ∧ s.outputs = outputOf infer s.runs i

/-- All runs are done, and each was waited for. -/
def Quiet (s : Kpu α β) : Prop := s.kSem = 0 ∧ ∀ i < s.runs.length, s.done i = true

instance (s : Kpu α β) : Decidable (Quiet s) := inferInstanceAs (Decidable (_ ∧ _))

/-- No run is started while an earlier one is not done, or its release is still in the semaphore. -/
def StartsQuiet (s : Kpu α β) : KpuEvent α → Prop
  | .call .ready _ (some _) => s.pc = .idle → Quiet s
  | _ => True

@[simp] theorem start_length (s : Kpu α β) (src : α) (dmaCh : ℕ) :
    (s.start src dmaCh).runs.length = s.runs.length + 1 := List.length_append

/-! ### What an event can do -/

inductive KpuMove (infer : α → β) (s : Kpu α β) : KpuEvent α → Kpu α β → Prop where
  | stay (e : KpuEvent α) : KpuMove infer s e s
  | raise {input : KpuInput} {src : α} {dma : Option ℕ} (hpc : s.pc = .idle) :
      KpuMove infer s (.call input src dma) { s with returned := none }
  | start {src : α} {dmaCh : ℕ} (hpc : s.pc = .idle) :
      KpuMove infer s (.call .ready src (some dmaCh)) (s.start src dmaCh)
  | take (hpc : s.pc = .started) (hsem : 0 < s.kSem) :
      KpuMove infer s .semTake { s with kSem := s.kSem - 1, pc := .woken }
  | suspend (hpc : s.pc = .started) (hsem : s.kSem = 0) : KpuMove infer s .semTake { s with pc := .suspended }
  | expire (hpc : s.pc = .suspended) : KpuMove infer s .timeout { s with pc := .idle }
  | wake {i : ℕ} (hi : i < s.runs.length) (hdone : s.done i = false) (hpc : s.pc = .suspended) :
      KpuMove infer s (.aiDone i) { s.complete infer i with pc := .woken }
  | count {i k : ℕ} (hi : i < s.runs.length) (hdone : s.done i = false) (hpc : s.pc ≠ .suspended) (hk : 0 < k) :
      KpuMove infer s (.aiDone i) { s.complete infer i with kSem := k }
  | finish (hpc : s.pc = .woken) : KpuMove infer s .finish { s with
      pc := .idle
      released := Function.update s.released (s.runs.length - 1) true
      returned := some (s.runs.length - 1) }

theorem kpuStep_move (infer : α → β) (s : Kpu α β) (e : KpuEvent α) : KpuMove infer s e (kpuStep infer s e) := by
  cases e with
  | call input src dma =>
    simp only [kpuStep]
    by_cases hpc : s.pc = .idle
    · by_cases hin : input = .ready
      · subst hin
        cases dma with
        | none => simpa [hpc] using KpuMove.raise hpc
        | some dmaCh => simpa [hpc] using KpuMove.start hpc
      · simpa [hpc, hin] using KpuMove.raise hpc
    · rw [if_pos hpc]
      exact .stay _
  | semTake =>
    simp only [kpuStep]
    by_cases hpc : s.pc = .started
    · rw [if_neg (not_not.mpr hpc)]
      split_ifs with hsem
      · exact .take hpc hsem
      · exact .suspend hpc (Nat.eq_zero_of_not_pos hsem)
    · rw [if_pos hpc]
      exact .stay _
  | timeout =>
    simp only [kpuStep]
    by_cases hpc : s.pc = .suspended
    · rw [if_neg (not_not.mpr hpc)]
      exact .expire hpc
    · rw [if_pos hpc]
      exact .stay _
  | aiDone i =>
    simp only [kpuStep]
    split_ifs with hi
    · unfold rtSemRelease
      split_ifs with hpc hsem
      · exact .wake hi.1 hi.2 hpc
      · exact .count hi.1 hi.2 hpc (Nat.succ_pos _)
      · exact .count hi.1 hi.2 hpc (lt_of_lt_of_le (by decide) (not_lt.mp hsem))
    · exact .stay _
  | finish =>
    simp only [kpuStep]
    by_cases hpc : s.pc = .woken
    · rw [if_neg (not_not.mpr hpc)]
      exact .finish hpc
    · rw [if_pos hpc]
      exact .stay _

/-! ### Calls that start quiet -/

/-- Where the last run is, in the place where the call is. -/
def KpuPlace (infer : α → β) (s : Kpu α β) : KpuPc → Prop
  | .idle => ∀ i, s.returned = some i → i + 1 = s.runs.length ∧ s.done i = true ∧
      s.outputs = outputOf infer s.runs i
  | .started => s.returned = none ∧ ∃ i, i + 1 = s.runs.length ∧ (s.done i = false ∧ s.kSem = 0 ∨
      s.done i = true ∧ 0 < s.kSem ∧ s.outputs = outputOf infer s.runs i)
  | .suspended => s.returned = none ∧ ∃ i, i + 1 = s.runs.length ∧ s.done i = false
  | .woken => s.returned = none ∧ ∃ i, i + 1 = s.runs.length ∧ s.done i = true ∧
      s.outputs = outputOf infer s.runs i

structure KpuInv (infer : α → β) (s : Kpu α β) : Prop where
  fresh : ∀ i, s.runs.length ≤ i → s.done i = false ∧ s.released i = false
  earlier : ∀ i, i + 1 < s.runs.length → s.done i = true
  channel : ∀ i, s.released i = true → s.done i = true
  place : KpuPlace infer s s.pc

section
variable {infer : α → β} {s : Kpu α β}

theorem KpuInv.init : KpuInv infer (k210KpuMakeNew α β) :=
  ⟨fun _ _ => ⟨rfl, rfl⟩, fun _ h => absurd h (Nat.not_lt_zero _), fun _ h => h, fun _ h => by cases h⟩

theorem KpuInv.owned (h : KpuInv infer s) : RunsOwned infer s := by
  refine ⟨h.channel, fun i hi => ?_⟩
  have hplace := h.place
  cases hpc : s.pc <;> rw [hpc] at hplace
  · exact hplace i hi
  all_goals
    rw [hplace.1] at hi
    cases hi

/-- A run that is not done yet is the last one. -/
theorem KpuInv.last (h : KpuInv infer s) {i : ℕ} (hi : i < s.runs.length) (hdone : s.done i = false) :
    i + 1 = s.runs.length := by
  by_contra hne
  rw [h.earlier i (by omega)] at hdone
  cases hdone

/-- The last run is complete: the others have been so before, so the outputs are its own. -/
theorem KpuInv.complete_outputs (h : KpuInv infer s) {i : ℕ} (hi : i + 1 = s.runs.length) :
    (s.complete infer i).outputs = outputOf infer s.runs i :=
  if_pos fun j hj hne => h.earlier j (by omega)

theorem complete_done_self (infer : α → β) (s : Kpu α β) (i : ℕ) : (s.complete infer i).done i = true :=
  Function.update_self ..

theorem complete_done (i : ℕ) {j : ℕ} (hj : s.done j = true) : (s.complete infer i).done j = true := by
  by_cases hji : j = i
  · rw [hji, complete_done_self]
  · exact (Function.update_of_ne hji ..).trans hj

/-- The parts of the invariant that do not look at the call are kept when a run is complete. -/
theorem KpuInv.complete (h : KpuInv infer s) {i : ℕ} (hi : i < s.runs.length) {s' : Kpu α β}
    (hruns : s'.runs = s.runs) (hdone : s'.done = (s.complete infer i).done) (hrel : s'.released = s.released)
    (hplace : KpuPlace infer s' s'.pc) : KpuInv infer s' where
  fresh j hj := by
    rw [hruns] at hj
    rw [hdone, hrel]
    exact ⟨(Function.update_of_ne (by omega) ..).trans (h.fresh j hj).1, (h.fresh j hj).2⟩
  earlier j hj := by
    rw [hruns] at hj
    rw [hdone]
    exact complete_done i (h.earlier j hj)
  channel j hj := by
    rw [hrel] at hj
    rw [hdone]
    exact complete_done i (h.channel j hj)
  place := hplace

theorem kpu_inv_step (e : KpuEvent α) (h : KpuInv infer s) (hquiet : StartsQuiet s e) :
    KpuInv infer (kpuStep infer s e) := by
  have hplace := h.place
  have hmove := kpuStep_move infer s e
  generalize kpuStep infer s e = s' at hmove
  cases hmove with
  | stay => exact h
  | raise hpc =>
    refine ⟨h.fresh, h.earlier, h.channel, ?_⟩
    show KpuPlace infer { s with returned := none } s.pc
    rw [hpc]
    exact fun i hi => by cases hi
  | start hpc =>
    obtain ⟨hsem, hdone⟩ := hquiet hpc
    refine ⟨fun i hi => ?_, fun i hi => ?_, h.channel, rfl, s.runs.length, (start_length ..).symm,
      .inl ⟨(h.fresh _ le_rfl).1, hsem⟩⟩
    · rw [start_length] at hi
      exact h.fresh i (by omega)
    · rw [start_length] at hi
      exact hdone i (by omega)
  | take hpc hsem =>
    rw [hpc] at hplace
    -- a release that is there is that of the run itself
    obtain ⟨hret, i, hi, ⟨-, h0⟩ | ⟨hdone, -, hout⟩⟩ := hplace
    · omega
    · exact ⟨h.fresh, h.earlier, h.channel, hret, i, hi, hdone, hout⟩
  | suspend hpc hsem =>
    rw [hpc] at hplace
    obtain ⟨hret, i, hi, ⟨hdone, -⟩ | ⟨-, hpos, -⟩⟩ := hplace
    · exact ⟨h.fresh, h.earlier, h.channel, hret, i, hi, hdone⟩
    · omega
  | expire hpc =>
    rw [hpc] at hplace
    refine ⟨h.fresh, h.earlier, h.channel, fun i hi => ?_⟩
    rw [hplace.1] at hi
    cases hi
  | @wake i hi hdone hpc =>
    rw [hpc] at hplace
    have hlast := h.last hi hdone
    exact h.complete hi rfl rfl rfl
      ⟨hplace.1, i, hlast, complete_done_self infer s i, h.complete_outputs hlast⟩
  | @count i k hi hdone hpc hk =>
    have hlast := h.last hi hdone
    refine h.complete hi rfl rfl rfl ?_
    show KpuPlace infer { s.complete infer i with kSem := k } s.pc
    cases hcase : s.pc <;> rw [hcase] at hplace
    · -- a call that has returned normally has seen its run done
      intro j hj
      obtain ⟨hjlast, hjdone, -⟩ := hplace j hj
      rw [show j = i by omega, hdone] at hjdone
      cases hjdone
    · exact ⟨hplace.1, i, hlast, .inr ⟨complete_done_self infer s i, hk, h.complete_outputs hlast⟩⟩
    · exact absurd hcase hpc
    · exact ⟨hplace.1, i, hlast, complete_done_self infer s i, h.complete_outputs hlast⟩
  | finish hpc =>
    rw [hpc] at hplace
    obtain ⟨hret, i, hi, hdone, hout⟩ := hplace
    obtain rfl : i = s.runs.length - 1 := by omega
    refine ⟨fun j hj => ⟨(h.fresh j hj).1, ?_⟩, h.earlier, fun j hj => ?_, fun j hj => ?_⟩
    · have hj : s.runs.length ≤ j := hj
      exact (Function.update_of_ne (by omega) ..).trans (h.fresh j hj).2
    · by_cases hji : j = s.runs.length - 1
      · rwa [hji]
      · exact h.channel j ((Function.update_of_ne hji ..).symm.trans hj)
    · obtain rfl : s.runs.length - 1 = j := Option.some.inj hj
      exact ⟨hi, hdone, hout⟩

end

/-! ### Calls that do not -/

/-- No run is done before it is started. -/
def NotAhead (s : Kpu α β) : Prop := ∀ i, s.runs.length ≤ i → s.done i = false

section
variable {infer : α → β} {s : Kpu α β}

theorem notAhead_step (e : KpuEvent α) (h : NotAhead s) : NotAhead (kpuStep infer s e) := by
  have hmove := kpuStep_move infer s e
  generalize kpuStep infer s e = s' at hmove
  cases hmove with
  | start =>
    intro i hi
    rw [start_length] at hi
    exact h i (by omega)
  | wake hi | count hi => exact fun j hj => (Function.update_of_ne (Nat.ne_of_gt (hi.trans_le hj)) ..).trans (h j hj)
  | stay | raise | take | suspend | expire | finish => exact h

theorem notAhead_run (es : List (KpuEvent α)) : NotAhead (run (kpuStep infer) (k210KpuMakeNew α β) es) :=
  run_inv (C := fun _ _ => True) NotAhead (fun _ e h _ => notAhead_step e h) (fun _ _ => rfl)
    (stepsMeet_iff_forall.mpr fun _ _ _ => trivial)

/-- With a release in the semaphore a call returns, and does not look at its run. -/
theorem returns_early {i : ℕ} (hpc : s.pc = .started) (hsem : 0 < s.kSem) (hi : i + 1 = s.runs.length)
    (hdone : s.done i = false) : ¬ RunsOwned infer (run (kpuStep infer) s [.semTake, .finish]) := by
  intro h
  have hrun : run (kpuStep infer) s [.semTake, .finish] = { s with
      kSem := s.kSem - 1
      pc := .idle
      released := Function.update s.released (s.runs.length - 1) true
      returned := some (s.runs.length - 1) } := by
    rw [run_cons, run_cons, run_nil]
    simp [kpuStep, hpc, hsem]
  rw [hrun] at h
  obtain ⟨-, hown, -⟩ := h.own (s.runs.length - 1) rfl
  rw [show s.runs.length - 1 = i by omega] at hown
  exact absurd (hdone.symm.trans hown) (by decide)

/-- A run is complete while the call is still on its way to the wait. -/
theorem aiDone_started (infer : α → β) {j : ℕ} (hpc : s.pc = .started) (hj : j < s.runs.length)
    (hdone : s.done j = false) :
    let s' := kpuStep infer s (.aiDone j)
    s'.pc = .started ∧ 0 < s'.kSem ∧ s'.runs = s.runs ∧ s'.done = Function.update s.done j true := by
  intro s'
  have hs' : s' = rtSemRelease (s.complete infer j) := if_pos ⟨hj, hdone⟩
  have hpc' : (s.complete infer j).pc = .started := hpc
  rw [hs', rtSemRelease, if_neg (by rw [hpc']; decide)]
  split_ifs with hsem
  · exact ⟨hpc', Nat.succ_pos _, rfl, rfl⟩
  · exact ⟨hpc', lt_of_lt_of_le (by decide) (not_lt.mp hsem), rfl, rfl⟩

/-- A call that does not start quiet can end before its run. -/
theorem starts_loud (hahead : NotAhead s) (hpc : s.pc = .idle) (hloud : ¬ Quiet s) (src : α) (dmaCh : ℕ) :
    ∃ es, ¬ RunsOwned infer (run (kpuStep infer) s (.call .ready src (some dmaCh) :: es)) := by
  have hstart : kpuStep infer s (.call .ready src (some dmaCh)) = s.start src dmaCh := by simp [kpuStep, hpc]
  have hown : (s.start src dmaCh).done s.runs.length = false := hahead s.runs.length le_rfl
  by_cases hsem : 0 < s.kSem
  · refine ⟨[.semTake, .finish], ?_⟩
    rw [run_cons, hstart]
    exact returns_early rfl hsem (start_length ..).symm hown
  · -- the release of an earlier run comes in before the wait
    obtain ⟨j, hj, hjdone⟩ : ∃ j < s.runs.length, s.done j = false := by
      by_contra hno
      push Not at hno
      exact hloud ⟨by omega, fun i hi => Bool.eq_true_of_not_eq_false (hno i hi)⟩
    refine ⟨[.aiDone j, .semTake, .finish], ?_⟩
    obtain ⟨hpc', hsem', hruns', hdone'⟩ := aiDone_started infer (s := s.start src dmaCh) rfl
      (show j < _ by rw [start_length]; omega) hjdone
    rw [run_cons, hstart, run_cons]
    refine returns_early (i := s.runs.length) hpc' hsem' (by rw [hruns', start_length]) ?_
    rw [hdone', Function.update_of_ne (by omega), hown]

end

/-- In every order of calls, timeouts and completions in which no run is started while an earlier one is not
    done or its release is in the semaphore, the runs own their channels and their returns. And any other call
    can be made to return too early. -/
theorem kpu_runs_owned (infer : α → β) :
    (∀ es : List (KpuEvent α), StepsMeet (kpuStep infer) StartsQuiet (k210KpuMakeNew α β) es →
      RunsOwned infer (run (kpuStep infer) (k210KpuMakeNew α β) es)) ∧
    ∀ es : List (KpuEvent α), let s := run (kpuStep infer) (k210KpuMakeNew α β) es
      s.pc = .idle → ¬ Quiet s → ∀ src dmaCh,
        ∃ es', ¬ RunsOwned infer (run (kpuStep infer) s (.call .ready src (some dmaCh) :: es')) := by
  constructor
  · intro es hquiet
    exact (run_inv (KpuInv infer) (fun _ e h hC => kpu_inv_step e h hC) KpuInv.init hquiet).owned
  · intro es s hpc hloud src dmaCh
    exact starts_loud (notAhead_run es) hpc hloud src dmaCh

end

theorem kpu_runs_owned_of_two_calls :
    let es : List (KpuEvent ℕ) := [.call .ready 7 (some 0), .aiDone 0, .semTake, .finish, .call .ready 8 (some 0),
      .semTake, .aiDone 1, .finish]
    StepsMeet (kpuStep (· + 1)) StartsQuiet (k210KpuMakeNew ℕ ℕ) es ∧
      RunsOwned (· + 1) (run (kpuStep (· + 1)) (k210KpuMakeNew ℕ ℕ) es) := by
  intro es
  have hquiet : StepsMeet (kpuStep (· + 1)) StartsQuiet (k210KpuMakeNew ℕ ℕ) es := by
    refine ⟨fun _ => ?_, trivial, trivial, trivial, fun _ => ?_, trivial, trivial, trivial, trivial⟩ <;> decide
  exact ⟨hquiet, (kpu_runs_owned (· + 1)).1 es hquiet⟩

/-- The first call times out; the end of its run lets the second one return, and give back its channel, before
    its own run is done. -/
theorem kpu_run_of_stale_release :
    let s := run (kpuStep (· + 1)) (k210KpuMakeNew ℕ ℕ) [.call .ready 7 (some 0), .semTake, .timeout, .aiDone 0,
      .call .ready 8 (some 1), .semTake, .finish]
    s.returned = some 1 ∧ s.runs[1]? = some (8, 1) ∧ s.released 1 = true ∧ s.done 1 = false ∧
      ¬ RunsOwned (· + 1) s := by
  intro s
  have hret : s.returned = some 1 := by decide
  have hdone : s.done 1 = false := by decide
  refine ⟨hret, by decide, by decide, hdone, fun h => ?_⟩
  exact absurd (hdone.symm.trans (h.own 1 hret).2.1) (by decide)

end OpenMV.Driver
