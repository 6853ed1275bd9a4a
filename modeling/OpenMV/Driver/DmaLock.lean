import OpenMV.Schemes.Run
import OpenMV.Schemes.Threads

/-! DMA channels | scheme:machine | source:src/src/bsp/driver/dmalock.c

    A thread that wants a DMA channel takes the semaphore, which counts the channels left, then the
    mutex, and then the first channel that is not marked as used. A channel is given back without the
    mutex: its name is cleared, then its mark, then the semaphore is released. Threads can be stopped
    between any two of these steps; the loop that looks for a channel can be stopped at each of them. -/

namespace OpenMV.Driver
open Schemes

def DMAC_CHANNEL_MAX : ℕ := 6
def DMAC_CHANNEL_COUNT : ℕ := DMAC_CHANNEL_MAX

/-- Where a thread is. -/
inductive Pc where
  | idle
  /-- In `_dmalock_sync_take`, with `*chn` set to `DMAC_CHANNEL_MAX`. -/
  | semTake (name : String)
  | mutexTake (name : String)
  /-- In the loop, before it looks at channel `i`. -/
  | scan (name : String) (i : ℕ)
  /-- Behind the loop, with `*chn` as it is now. -/
  | mutexRelease (chn : ℕ)
  /-- In `dmalock_release`. -/
  | clearName (chn : ℕ)
  | clearUsed (chn : ℕ)
  | semRelease (chn : ℕ)
deriving DecidableEq, Repr

/-- `_dmac_host` with the kernel's side of the semaphore and the mutex, and for each thread where it is,
    the channels it owns and what its last take returned: whether that was `RT_EOK`, and `*chn`. -/
structure Dmac (T : Type) where
  sem : ℕ
  mutex : Option T
  channelUsed : ℕ → Bool
  channelName : ℕ → Option String
  pc : T → Pc
  owned : T → Finset ℕ
  result : T → Option (Bool × ℕ)

/-- `dmalock_init` -/
def Dmac.init (T : Type) : Dmac T where
  sem := DMAC_CHANNEL_COUNT
  mutex := none
  channelUsed _ := false
  channelName _ := none
  pc _ := .idle
  owned _ := ∅
  result _ := none

/-- What a thread can do next. -/
inductive Move where
  | callTake (name : String)
  | semTake
  | semTimeout
  | mutexTake
  | scan
  | mutexRelease
  | callRelease (chn : ℕ)
  | clearName
  | clearUsed
  | semRelease
deriving DecidableEq, Repr

section
variable {T : Type} [DecidableEq T]

/-- The semaphore is taken when it is not zero and the mutex when nobody has it. A take may time out. A
    thread gives back channels it owns. -/
def Enabled (s : Dmac T) (e : T × Move) : Prop :=
  match s.pc e.1, e.2 with
  | .idle, .callTake _ => True
  | .semTake _, .semTake => 0 < s.sem
  | .semTake _, .semTimeout => True
  | .mutexTake _, .mutexTake => s.mutex = none
  | .scan _ _, .scan => True
  | .mutexRelease _, .mutexRelease => True
  | .idle, .callRelease chn => chn ∈ s.owned e.1
  | .clearName _, .clearName => True
  | .clearUsed _, .clearUsed => True
  | .semRelease _, .semRelease => True
  | _, _ => False

def Dmac.goto (s : Dmac T) (t : T) (pc : Pc) : Dmac T := { s with pc := Function.update s.pc t pc }

/-- One iteration of the loop, or its end. -/
def scanStep (s : Dmac T) (t : T) (name : String) (i : ℕ) : Dmac T :=
  if i < DMAC_CHANNEL_COUNT then
    if s.channelUsed i = false then
      { s with
        channelUsed := Function.update s.channelUsed i true
        channelName := Function.update s.channelName i (some name)
        pc := Function.update s.pc t (.mutexRelease i) }
    else s.goto t (.scan name (i + 1))
  else s.goto t (.mutexRelease DMAC_CHANNEL_MAX)

def dmacStep (s : Dmac T) (e : T × Move) : Dmac T :=
  let t := e.1
  match s.pc t, e.2 with
  | .idle, .callTake name => s.goto t (.semTake name)
  | .semTake name, .semTake => { s with sem := s.sem - 1 }.goto t (.mutexTake name)
  | .semTake _, .semTimeout =>
    { s with result := Function.update s.result t (some (false, DMAC_CHANNEL_MAX)) }.goto t .idle
  | .mutexTake name, .mutexTake => { s with mutex := some t }.goto t (.scan name 0)
  | .scan name i, .scan => scanStep s t name i
  | .mutexRelease chn, .mutexRelease =>
    { s with
      mutex := none
      owned := Function.update s.owned t (insert chn (s.owned t))
      result := Function.update s.result t (some (true, chn)) }.goto t .idle
  | .idle, .callRelease chn =>
    { s with owned := Function.update s.owned t ((s.owned t).erase chn) }.goto t
      (if chn ≥ DMAC_CHANNEL_MAX then .idle else .clearName chn)
  | .clearName chn, .clearName =>
    { s with channelName := Function.update s.channelName chn none }.goto t (.clearUsed chn)
  | .clearUsed chn, .clearUsed =>
    { s with channelUsed := Function.update s.channelUsed chn false }.goto t (.semRelease chn)
  | .semRelease _, .semRelease => { s with sem := s.sem + 1 }.goto t .idle
  | _, _ => s

/-! ### The invariant -/

/-- A thread that has taken the semaphore and no channel yet. -/
def Pc.permit : Pc → ℕ
  | .mutexTake _ => 1
  | .scan _ _ => 1
  | _ => 0

/-- A thread that has cleared the mark and not released the semaphore yet. -/
def Pc.debt : Pc → ℕ
  | .semRelease _ => 1
  | _ => 0

/-- A thread between taking and releasing the mutex. -/
def Pc.locks : Pc → Bool
  | .scan _ _ => true
  | .mutexRelease _ => true
  | _ => false

/-- The channel that a thread inside a call answers for. -/
def Pc.hand : Pc → Option ℕ
  | .mutexRelease chn => some chn
  | .clearName chn => some chn
  | .clearUsed chn => some chn
  | _ => none

/-- The thread owns the channel or is about to, or has not given it back yet. -/
def Holds (s : Dmac T) (t : T) (c : ℕ) : Prop := c ∈ s.owned t ∨ (s.pc t).hand = some c

structure DmacInv [Fintype T] (s : Dmac T) : Prop where
  /-- Each free channel is counted by the semaphore or by a thread on its way. -/
  count : s.sem + inHand Pc.permit s.pc + inHand Pc.debt s.pc =
    (freeSlots DMAC_CHANNEL_COUNT s.channelUsed).card
  lock : ∀ t, (s.pc t).locks = true ↔ s.mutex = some t
  /-- The loop has a free channel ahead of it. -/
  ahead : ∀ t name i, s.pc t = .scan name i → ∃ j ∈ freeSlots DMAC_CHANNEL_COUNT s.channelUsed, i ≤ j
  holds : ∀ t c, Holds s t c → c < DMAC_CHANNEL_COUNT ∧ s.channelUsed c = true
  used : ∀ c, s.channelUsed c = true → ∃ t, Holds s t c
  one : ∀ t u c, Holds s t c → Holds s u c → t = u
  apart : ∀ t c, (s.pc t).hand = some c → c ∉ s.owned t
  returned : ∀ t ok c, s.result t = some (ok, c) →
    if ok then c < DMAC_CHANNEL_COUNT else c = DMAC_CHANNEL_MAX

/-! ### Steps that change who is where -/

variable [Fintype T] {s : Dmac T} {t : T}

omit [DecidableEq T] in
theorem DmacInv.init : DmacInv (Dmac.init T) where
  count := by
    have hfree : freeSlots DMAC_CHANNEL_COUNT (Dmac.init T).channelUsed = Finset.range DMAC_CHANNEL_COUNT :=
      Finset.filter_true_of_mem fun _ _ => rfl
    have hpermit : inHand Pc.permit (Dmac.init T).pc = 0 := inHand_eq_zero fun _ => rfl
    have hdebt : inHand Pc.debt (Dmac.init T).pc = 0 := inHand_eq_zero fun _ => rfl
    rw [hpermit, hdebt, hfree, Finset.card_range]
    rfl
  lock t := ⟨(nomatch ·), (nomatch ·)⟩
  ahead t name i h := nomatch h
  holds t c h := by rcases h with h | h; exacts [absurd h (Finset.notMem_empty c), nomatch h]
  used c h := nomatch h
  one t u c h := by rcases h with h | h; exacts [absurd h (Finset.notMem_empty c), nomatch h]
  apart t c h := nomatch h
  returned t ok c h := nomatch h

omit [Fintype T] in
/-- The channels a thread answers for when it goes on with `pc` and the channels `O`. -/
theorem holds_update {s' : Dmac T} {pc : Pc} {O : Finset ℕ} (hpc : s'.pc = Function.update s.pc t pc)
    (hO : s'.owned = Function.update s.owned t O) (u : T) (c : ℕ) :
    Holds s' u c ↔ if u = t then c ∈ O ∨ pc.hand = some c else Holds s u c := by
  unfold Holds
  rw [hpc, hO]
  by_cases hu : u = t
  · subst hu
    simp
  · simp [hu]

theorem locks_update {s' : Dmac T} {pc : Pc} (h : DmacInv s) (hpc : s'.pc = Function.update s.pc t pc)
    (hmutex : s'.mutex = s.mutex) (hlocks : pc.locks = (s.pc t).locks) (u : T) :
    (s'.pc u).locks = true ↔ s'.mutex = some u := by
  rw [hmutex, ← h.lock u, hpc]
  by_cases hu : u = t
  · subst hu
    rw [Function.update_self, hlocks]
  · rw [Function.update_of_ne hu]

theorem count_update (h : DmacInv s) (pc : Pc) :
    s.sem + inHand Pc.permit (Function.update s.pc t pc) + inHand Pc.debt (Function.update s.pc t pc) +
      (s.pc t).permit + (s.pc t).debt =
    (freeSlots DMAC_CHANNEL_COUNT s.channelUsed).card + pc.permit + pc.debt := by
  have h1 := inHand_update Pc.permit s.pc t pc
  have h2 := inHand_update Pc.debt s.pc t pc
  have h3 := h.count
  omega

/-- A thread goes on without a change of the marks, and answers for the same channels. -/
theorem DmacInv.go (h : DmacInv s) {s' : Dmac T} {pc : Pc} {O : Finset ℕ}
    (hpc : s'.pc = Function.update s.pc t pc) (hO : s'.owned = Function.update s.owned t O)
    (hused : s'.channelUsed = s.channelUsed)
    (hsem : s'.sem + pc.permit + pc.debt = s.sem + (s.pc t).permit + (s.pc t).debt)
    (hlock : ∀ u, (s'.pc u).locks = true ↔ s'.mutex = some u)
    (hhold : ∀ c, (c ∈ O ∨ pc.hand = some c) ↔ Holds s t c) (hapart : ∀ c, pc.hand = some c → c ∉ O)
    (hahead : ∀ name i, pc = .scan name i → ∃ j ∈ freeSlots DMAC_CHANNEL_COUNT s.channelUsed, i ≤ j)
    (hreturned : ∀ t ok c, s'.result t = some (ok, c) →
      if ok then c < DMAC_CHANNEL_COUNT else c = DMAC_CHANNEL_MAX) : DmacInv s' := by
  have hholds : ∀ u c, Holds s' u c ↔ Holds s u c := by
    intro u c
    rw [holds_update hpc hO]
    by_cases hu : u = t
    · subst hu
      rw [if_pos rfl, hhold]
    · rw [if_neg hu]
  constructor
  · have := count_update h (t := t) pc
    rw [hpc, hused]
    omega
  · exact hlock
  · intro u name i hu
    rw [hused]
    rw [hpc] at hu
    by_cases hut : u = t
    · subst hut
      rw [Function.update_self] at hu
      exact hahead name i hu
    · rw [Function.update_of_ne hut] at hu
      exact h.ahead u name i hu
  · intro u c hu
    rw [hused]
    exact h.holds u c ((hholds u c).1 hu)
  · intro c hc
    rw [hused] at hc
    obtain ⟨u, hu⟩ := h.used c hc
    exact ⟨u, (hholds u c).2 hu⟩
  · intro u v c hu hv
    exact h.one u v c ((hholds u c).1 hu) ((hholds v c).1 hv)
  · intro u c hu
    rw [hpc] at hu
    rw [hO]
    by_cases hut : u = t
    · subst hut
      rw [Function.update_self] at hu ⊢
      exact hapart c hu
    · rw [Function.update_of_ne hut] at hu ⊢
      exact h.apart u c hu
  · exact hreturned

/-- A thread goes on with the channels it has. -/
theorem DmacInv.walk (h : DmacInv s) {s' : Dmac T} {pc : Pc} (hpc : s'.pc = Function.update s.pc t pc)
    (hO : s'.owned = s.owned) (hused : s'.channelUsed = s.channelUsed)
    (hsem : s'.sem + pc.permit + pc.debt = s.sem + (s.pc t).permit + (s.pc t).debt)
    (hlock : ∀ u, (s'.pc u).locks = true ↔ s'.mutex = some u) (hhand : pc.hand = (s.pc t).hand)
    (hahead : ∀ name i, pc = .scan name i → ∃ j ∈ freeSlots DMAC_CHANNEL_COUNT s.channelUsed, i ≤ j)
    (hreturned : ∀ t ok c, s'.result t = some (ok, c) →
      if ok then c < DMAC_CHANNEL_COUNT else c = DMAC_CHANNEL_MAX) : DmacInv s' := by
  refine h.go hpc (hO.trans (Function.update_eq_self t s.owned).symm) hused hsem hlock ?_ ?_ hahead hreturned
  · intro c
    rw [hhand]
    rfl
  · intro c hc
    exact h.apart t c (hhand ▸ hc)

/-! ### The steps -/

variable (h : DmacInv s)
include h

theorem inv_callTake (hpc : s.pc t = .idle) (name : String) : DmacInv (s.goto t (.semTake name)) := by
  refine h.walk rfl rfl rfl ?_ (locks_update h rfl rfl ?_) ?_ (fun _ _ h => nomatch h) h.returned
  all_goals
    rw [hpc]
    rfl

theorem inv_semTake {name : String} (hpc : s.pc t = .semTake name) (hsem : 0 < s.sem) :
    DmacInv ({ s with sem := s.sem - 1 }.goto t (.mutexTake name)) := by
  refine h.walk rfl rfl rfl ?_ (locks_update h rfl rfl ?_) ?_ (fun _ _ h => nomatch h) h.returned
  · rw [hpc]
    show s.sem - 1 + 1 + 0 = s.sem + 0 + 0
    omega
  all_goals
    rw [hpc]
    rfl

theorem inv_semTimeout {name : String} (hpc : s.pc t = .semTake name) :
    DmacInv ({ s with result := Function.update s.result t (some (false, DMAC_CHANNEL_MAX)) }.goto t .idle) := by
  refine h.walk rfl rfl rfl ?_ (locks_update h rfl rfl ?_) ?_ (fun _ _ h => nomatch h) ?_
  iterate 3
    rw [hpc]
    rfl
  intro u ok c hu
  by_cases hut : u = t
  · subst hut
    cases (Function.update_self u _ s.result).symm.trans hu
    rfl
  · exact h.returned u ok c ((Function.update_of_ne hut _ s.result).symm.trans hu)

/-- The thread that gets the mutex has a permit, so there is a free channel. -/
theorem inv_mutexTake {name : String} (hpc : s.pc t = .mutexTake name) (hmutex : s.mutex = none) :
    DmacInv ({ s with mutex := some t }.goto t (.scan name 0)) := by
  refine h.walk rfl rfl rfl ?_ ?_ ?_ ?_ h.returned
  · rw [hpc]
    rfl
  · intro u
    by_cases hut : u = t
    · subst hut
      show (Function.update s.pc u (.scan name 0) u).locks = true ↔ some u = some u
      rw [Function.update_self]
      exact ⟨fun _ => rfl, fun _ => rfl⟩
    · show (Function.update s.pc t (.scan name 0) u).locks = true ↔ some t = some u
      rw [Function.update_of_ne hut, h.lock u, hmutex]
      exact ⟨(nomatch ·), fun h => absurd (Option.some.inj h).symm hut⟩
  · rw [hpc]
    rfl
  · intro n i hi
    obtain ⟨-, rfl⟩ := Pc.scan.inj hi
    have hpermit := le_inHand Pc.permit s.pc t
    have hcount := h.count
    rw [hpc] at hpermit
    have hpos : 0 < (freeSlots DMAC_CHANNEL_COUNT s.channelUsed).card := by
      change 1 ≤ _ at hpermit
      omega
    obtain ⟨j, hj⟩ := Finset.card_pos.1 hpos
    exact ⟨j, hj, Nat.zero_le j⟩

theorem inv_scan_next {name : String} {i : ℕ} (hpc : s.pc t = .scan name i)
    (hused : s.channelUsed i = true) : DmacInv (s.goto t (.scan name (i + 1))) := by
  refine h.walk rfl rfl rfl ?_ (locks_update h rfl rfl ?_) ?_ ?_ h.returned
  iterate 3
    rw [hpc]
    rfl
  · intro n k hk
    obtain ⟨-, rfl⟩ := Pc.scan.inj hk
    obtain ⟨j, hj, hij⟩ := h.ahead t name i hpc
    refine ⟨j, hj, lt_of_le_of_ne hij ?_⟩
    rintro rfl
    rw [(mem_freeSlots.1 hj).2] at hused
    cases hused

theorem inv_mutexRelease {chn : ℕ} (hpc : s.pc t = .mutexRelease chn) :
    DmacInv ({ s with
      mutex := none
      owned := Function.update s.owned t (insert chn (s.owned t))
      result := Function.update s.result t (some (true, chn)) }.goto t .idle) := by
  have hmine : s.mutex = some t := (h.lock t).1 (by rw [hpc]; rfl)
  refine h.go rfl rfl rfl ?_ ?_ ?_ ?_ (fun _ _ h => nomatch h) ?_
  · rw [hpc]
    rfl
  · intro u
    by_cases hut : u = t
    · subst hut
      show (Function.update s.pc u .idle u).locks = true ↔ none = some u
      rw [Function.update_self]
      exact ⟨(nomatch ·), (nomatch ·)⟩
    · show (Function.update s.pc t .idle u).locks = true ↔ none = some u
      rw [Function.update_of_ne hut, h.lock u, hmine]
      exact ⟨fun h => absurd (Option.some.inj h).symm hut, (nomatch ·)⟩
  · intro c
    rw [Holds, hpc, Finset.mem_insert]
    show (c = chn ∨ c ∈ s.owned t) ∨ none = some c ↔ c ∈ s.owned t ∨ some chn = some c
    rw [Option.some.injEq, or_comm (a := c = chn), eq_comm (a := c)]
    exact or_iff_left (nomatch ·)
  · exact fun c h => nomatch h
  · intro u ok c hu
    by_cases hut : u = t
    · subst hut
      cases (Function.update_self u _ s.result).symm.trans hu
      exact (h.holds u chn (.inr (by rw [hpc]; rfl))).1
    · exact h.returned u ok c ((Function.update_of_ne hut _ s.result).symm.trans hu)

theorem inv_callRelease {chn : ℕ} (hpc : s.pc t = .idle) (hown : chn ∈ s.owned t) :
    DmacInv ({ s with owned := Function.update s.owned t ((s.owned t).erase chn) }.goto t
      (if chn ≥ DMAC_CHANNEL_MAX then .idle else .clearName chn)) := by
  have hlt : chn < DMAC_CHANNEL_MAX := (h.holds t chn (.inl hown)).1
  rw [if_neg (Nat.not_le.2 hlt)]
  refine h.go rfl rfl rfl ?_ (locks_update h rfl rfl ?_) ?_ ?_ (fun _ _ h => nomatch h) h.returned
  · rw [hpc]
    rfl
  · rw [hpc]
    rfl
  · intro c
    rw [Holds, hpc, Finset.mem_erase]
    show (c ≠ chn ∧ c ∈ s.owned t) ∨ some chn = some c ↔ c ∈ s.owned t ∨ none = some c
    rw [Option.some.injEq]
    constructor
    · rintro (⟨-, hc⟩ | rfl)
      exacts [.inl hc, .inl hown]
    · rintro (hc | hc)
      · by_cases hcc : chn = c
        exacts [.inr hcc, .inl ⟨Ne.symm hcc, hc⟩]
      · cases hc
  · intro c hc
    cases hc
    exact Finset.notMem_erase chn _

theorem inv_clearName {chn : ℕ} (hpc : s.pc t = .clearName chn) :
    DmacInv ({ s with channelName := Function.update s.channelName chn none }.goto t (.clearUsed chn)) := by
  refine h.walk rfl rfl rfl ?_ (locks_update h rfl rfl ?_) ?_ (fun _ _ h => nomatch h) h.returned
  all_goals
    rw [hpc]
    rfl

theorem inv_semRelease {chn : ℕ} (hpc : s.pc t = .semRelease chn) :
    DmacInv ({ s with sem := s.sem + 1 }.goto t .idle) := by
  refine h.walk rfl rfl rfl ?_ (locks_update h rfl rfl ?_) ?_ (fun _ _ h => nomatch h) h.returned
  all_goals
    rw [hpc]
    rfl

/-- The first free channel is marked. -/
theorem inv_scan_mark {name : String} {i : ℕ} (hpc : s.pc t = .scan name i) (hi : i < DMAC_CHANNEL_COUNT)
    (hfree : s.channelUsed i = false) :
    DmacInv { s with
      channelUsed := Function.update s.channelUsed i true
      channelName := Function.update s.channelName i (some name)
      pc := Function.update s.pc t (.mutexRelease i) } := by
  have hnone : ∀ u, ¬ Holds s u i := by
    intro u hu
    rw [(h.holds u i hu).2] at hfree
    cases hfree
  have hmine : s.mutex = some t := (h.lock t).1 (by rw [hpc]; rfl)
  have hholds : ∀ u c, Holds { s with
      channelUsed := Function.update s.channelUsed i true
      channelName := Function.update s.channelName i (some name)
      pc := Function.update s.pc t (.mutexRelease i) } u c ↔ Holds s u c ∨ (u = t ∧ c = i) := by
    intro u c
    refine (holds_update (s := s) (t := t) rfl (by exact (Function.update_eq_self t s.owned).symm) u c).trans ?_
    by_cases hu : u = t
    · subst hu
      rw [if_pos rfl, Holds, hpc]
      show c ∈ s.owned u ∨ some i = some c ↔ (c ∈ s.owned u ∨ none = some c) ∨ (u = u ∧ c = i)
      rw [Option.some.injEq, eq_comm (a := i)]
      simp
    · simp [hu]
  have hupd : ∀ c, c ≠ i → Function.update s.channelUsed i true c = s.channelUsed c :=
    fun c hc => Function.update_of_ne hc _ _
  constructor
  · have h1 := count_update h (t := t) (.mutexRelease i)
    have h2 := card_freeSlots_take hi hfree
    rw [hpc] at h1
    change _ + _ + _ + 1 + 0 = _ + 0 + 0 at h1
    dsimp only
    omega
  · exact locks_update h rfl rfl (by rw [hpc]; rfl)
  · -- nobody else is in the loop
    intro u n k hu
    dsimp only at hu
    by_cases hut : u = t
    · subst hut
      rw [Function.update_self] at hu
      cases hu
    · rw [Function.update_of_ne hut] at hu
      have hlock := (h.lock u).1 (by rw [hu]; rfl)
      rw [hmine] at hlock
      exact absurd (Option.some.inj hlock).symm hut
  · intro u c hu
    rcases (hholds u c).1 hu with hu | ⟨rfl, rfl⟩
    · have hc := h.holds u c hu
      refine ⟨hc.1, ?_⟩
      dsimp only
      rw [hupd c (fun hci => hnone u (hci ▸ hu))]
      exact hc.2
    · exact ⟨hi, Function.update_self ..⟩
  · intro c hc
    by_cases hci : c = i
    · exact ⟨t, (hholds t c).2 (.inr ⟨rfl, hci⟩)⟩
    · dsimp only at hc
      rw [hupd c hci] at hc
      obtain ⟨u, hu⟩ := h.used c hc
      exact ⟨u, (hholds u c).2 (.inl hu)⟩
  · intro u v c hu hv
    rcases (hholds u c).1 hu with hu' | ⟨hut, huc⟩ <;> rcases (hholds v c).1 hv with hv' | ⟨hvt, hvc⟩
    · exact h.one u v c hu' hv'
    · exact absurd (hvc ▸ hu') (hnone u)
    · exact absurd (huc ▸ hv') (hnone v)
    · exact hut.trans hvt.symm
  · intro u c hu
    dsimp only at hu ⊢
    by_cases hut : u = t
    · subst hut
      rw [Function.update_self] at hu
      cases hu
      exact fun hown => hnone u (.inl hown)
    · rw [Function.update_of_ne hut] at hu
      exact h.apart u c hu
  · exact h.returned

/-- The mark is cleared, and the channel is nobody's. -/
theorem inv_clearUsed {chn : ℕ} (hpc : s.pc t = .clearUsed chn) :
    DmacInv ({ s with channelUsed := Function.update s.channelUsed chn false }.goto t (.semRelease chn)) := by
  have hhand : (s.pc t).hand = some chn := by rw [hpc]; rfl
  obtain ⟨hlt, hused⟩ := h.holds t chn (.inr hhand)
  have hown := h.apart t chn hhand
  have hholds : ∀ u c, Holds ({ s with channelUsed := Function.update s.channelUsed chn false }.goto t
      (.semRelease chn)) u c ↔ Holds s u c ∧ c ≠ chn := by
    intro u c
    refine (holds_update (s := s) (t := t) rfl (by exact (Function.update_eq_self t s.owned).symm) u c).trans ?_
    by_cases hu : u = t
    · subst hu
      rw [if_pos rfl, Holds, hpc]
      show c ∈ s.owned u ∨ none = some c ↔ (c ∈ s.owned u ∨ some chn = some c) ∧ c ≠ chn
      rw [Option.some.injEq, eq_comm (a := chn)]
      constructor
      · rintro (hc | hc)
        exacts [⟨.inl hc, fun hcc => hown (hcc ▸ hc)⟩, nomatch hc]
      · rintro ⟨hc | hc, hne⟩
        exacts [.inl hc, absurd hc hne]
    · rw [if_neg hu]
      refine ⟨fun hc => ⟨hc, ?_⟩, And.left⟩
      rintro rfl
      exact hu (h.one u t c hc (.inr hhand))
  constructor
  · have h1 := count_update h (t := t) (.semRelease chn)
    have h2 := card_freeSlots_give hlt hused
    rw [hpc] at h1
    change _ + _ + _ + 0 + 0 = _ + 0 + 1 at h1
    show s.sem + inHand Pc.permit (Function.update s.pc t (.semRelease chn)) + _ = _
    dsimp only [Dmac.goto]
    omega
  · exact locks_update h rfl rfl (by rw [hpc]; rfl)
  · -- one more channel is free
    intro u n k hu
    change Function.update s.pc t (.semRelease chn) u = _ at hu
    by_cases hut : u = t
    · subst hut
      rw [Function.update_self] at hu
      cases hu
    · rw [Function.update_of_ne hut] at hu
      obtain ⟨j, hj, hkj⟩ := h.ahead u n k hu
      obtain ⟨hjlt, hjfree⟩ := mem_freeSlots.1 hj
      refine ⟨j, mem_freeSlots.2 ⟨hjlt, ?_⟩, hkj⟩
      show Function.update s.channelUsed chn false j = false
      by_cases hjc : j = chn
      · rw [hjc, Function.update_self]
      · rw [Function.update_of_ne hjc, hjfree]
  · intro u c hu
    obtain ⟨hu, hne⟩ := (hholds u c).1 hu
    refine ⟨(h.holds u c hu).1, ?_⟩
    show Function.update s.channelUsed chn false c = true
    rw [Function.update_of_ne hne]
    exact (h.holds u c hu).2
  · intro c hc
    change Function.update s.channelUsed chn false c = true at hc
    by_cases hcc : c = chn
    · rw [hcc, Function.update_self] at hc
      cases hc
    · rw [Function.update_of_ne hcc] at hc
      obtain ⟨u, hu⟩ := h.used c hc
      exact ⟨u, (hholds u c).2 ⟨hu, hcc⟩⟩
  · intro u v c hu hv
    exact h.one u v c ((hholds u c).1 hu).1 ((hholds v c).1 hv).1
  · intro u c hu
    change (Function.update s.pc t (.semRelease chn) u).hand = some c at hu
    by_cases hut : u = t
    · subst hut
      rw [Function.update_self] at hu
      cases hu
    · rw [Function.update_of_ne hut] at hu
      exact h.apart u c hu
  · exact h.returned

theorem inv_scan {name : String} {i : ℕ} (hpc : s.pc t = .scan name i) : DmacInv (scanStep s t name i) := by
  -- the free channel ahead keeps the loop inside the table
  obtain ⟨j, hj, hij⟩ := h.ahead t name i hpc
  have hi : i < DMAC_CHANNEL_COUNT := hij.trans_lt (mem_freeSlots.1 hj).1
  unfold scanStep
  rw [if_pos hi]
  split_ifs with hused
  · exact inv_scan_mark h hpc hi hused
  · exact inv_scan_next h hpc (by simpa using hused)

theorem inv_dmacStep {e : T × Move} (he : Enabled s e) : DmacInv (dmacStep s e) := by
  obtain ⟨t, m⟩ := e
  unfold Enabled at he
  unfold dmacStep
  dsimp only at he ⊢
  cases hpc : s.pc t <;> cases m <;> simp only [hpc] at he ⊢
  case idle.callTake name => exact inv_callTake h hpc name
  case idle.callRelease chn => exact inv_callRelease h hpc he
  case semTake.semTake name => exact inv_semTake h hpc he
  case semTake.semTimeout name => exact inv_semTimeout h hpc
  case mutexTake.mutexTake name => exact inv_mutexTake h hpc he
  case scan.scan name i => exact inv_scan h hpc
  case mutexRelease.mutexRelease chn => exact inv_mutexRelease h hpc
  case clearName.clearName chn => exact inv_clearName h hpc
  case clearUsed.clearUsed chn => exact inv_clearUsed h hpc
  case semRelease.semRelease chn => exact inv_semRelease h hpc

end

/-! ### Whole runs -/

section
variable {T : Type} [DecidableEq T] [Fintype T]

theorem inv_run {es : List (T × Move)} (h : StepsMeet dmacStep Enabled (Dmac.init T) es) :
    DmacInv (run dmacStep (Dmac.init T) es) :=
  run_inv DmacInv (fun _ _ hinv he => inv_dmacStep hinv he) DmacInv.init h

/-- Whatever the order in which the threads go on, no channel is owned twice, a take that succeeds delivers
    a channel, one that fails leaves the caller and the marks as they were, and between calls the
    semaphore counts the channels that are not marked, which are the channels nobody owns. -/
theorem dmalock_safe (es : List (T × Move)) (h : StepsMeet dmacStep Enabled (Dmac.init T) es) :
    let s := run dmacStep (Dmac.init T) es
    (∀ c t u, c ∈ s.owned t → c ∈ s.owned u → t = u) ∧
    (∀ t c, s.result t = some (true, c) → c < DMAC_CHANNEL_COUNT) ∧
    (∀ t c, s.result t = some (false, c) → c = DMAC_CHANNEL_MAX) ∧
    (∀ t, Enabled s (t, .semTimeout) → (dmacStep s (t, .semTimeout)).owned = s.owned ∧
      (dmacStep s (t, .semTimeout)).channelUsed = s.channelUsed ∧
      (dmacStep s (t, .semTimeout)).sem = s.sem) ∧
    ((∀ t, s.pc t = .idle) → s.sem = (freeSlots DMAC_CHANNEL_COUNT s.channelUsed).card ∧
      ∀ c, s.channelUsed c = true ↔ ∃ t, c ∈ s.owned t) := by
  intro s
  have hinv : DmacInv s := inv_run h
  refine ⟨?_, ?_, ?_, ?_, ?_⟩
  · exact fun c t u ht hu => hinv.one t u c (.inl ht) (.inl hu)
  · intro t c ht
    simpa using hinv.returned t true c ht
  · intro t c ht
    simpa using hinv.returned t false c ht
  · intro t ht
    unfold Enabled at ht
    unfold dmacStep
    dsimp only at ht ⊢
    cases hpc : s.pc t <;> simp only [hpc] at ht ⊢
    exact ⟨rfl, rfl, rfl⟩
  · intro hidle
    have hpermit : inHand Pc.permit s.pc = 0 := inHand_eq_zero fun t => by rw [hidle t]; rfl
    have hdebt : inHand Pc.debt s.pc = 0 := inHand_eq_zero fun t => by rw [hidle t]; rfl
    have hcount := hinv.count
    refine ⟨by omega, fun c => ⟨fun hc => ?_, ?_⟩⟩
    · obtain ⟨t, ht | ht⟩ := hinv.used c hc
      · exact ⟨t, ht⟩
      · rw [hidle t] at ht
        cases ht
    · rintro ⟨t, ht⟩
      exact (hinv.holds t c (.inl ht)).2

instance (s : Dmac T) (e : T × Move) : Decidable (Enabled s e) := by
  unfold Enabled
  cases s.pc e.1 <;> cases e.2 <;> infer_instance

end

/-- Two threads take a channel each, one step by turns, and one gives its channel back. -/
def dmacTurns : List (Fin 2 × Move) :=
  [(0, .callTake "xfer"), (1, .callTake "run"), (0, .semTake), (1, .semTake), (1, .mutexTake), (1, .scan),
    (1, .mutexRelease), (0, .mutexTake), (1, .callRelease 0), (0, .scan), (1, .clearName), (1, .clearUsed),
    (0, .scan), (0, .mutexRelease), (1, .semRelease)]

theorem dmalock_safe_turns : (run dmacStep (Dmac.init (Fin 2)) dmacTurns).owned 0 = {1} ∧
    (run dmacStep (Dmac.init (Fin 2)) dmacTurns).sem =
      (freeSlots DMAC_CHANNEL_COUNT (run dmacStep (Dmac.init (Fin 2)) dmacTurns).channelUsed).card :=
  ⟨by decide, ((dmalock_safe dmacTurns (by decide)).2.2.2.2 (by decide)).1⟩

end OpenMV.Driver
