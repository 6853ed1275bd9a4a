import OpenMV.Driver.DmaLock

/-! Users of DMA channels | scheme:machine | source:src/src/extmods/k210/py_kpu.c,
    src/src/bsp/driver/drv_spi.c, src/src/bsp/driver/drv_qspiflash.c

    The calls that take DMA channels, with all their exits. A call runs from start to end in one thread;
    what can fail in it (a take, an allocation, a wait) is decided from outside. -/

namespace OpenMV.Driver
open Schemes

section
variable {T : Type} [DecidableEq T]

/-! ### Take and release in one go -/

/-- `dmalock_sync_take`; `ok` says whether the semaphore is taken before the time is over. -/
def dmalockSyncTake (s : Dmac T) (t : T) (name : String) (ok : Bool) : Dmac T :=
  if ok = true ∧ 0 < s.sem then
    run dmacStep s ([(t, .callTake name), (t, .semTake), (t, .mutexTake)] ++
      List.replicate (DMAC_CHANNEL_COUNT + 1) (t, .scan) ++ [(t, .mutexRelease)])
  else run dmacStep s [(t, .callTake name), (t, .semTimeout)]

/-- What the take returned: whether it was `RT_EOK`, and `*chn`. -/
def taken (s : Dmac T) (t : T) : Bool × ℕ := (s.result t).getD (false, DMAC_CHANNEL_MAX)

def dmalockRelease (s : Dmac T) (t : T) (chn : ℕ) : Dmac T :=
  if chn ≥ DMAC_CHANNEL_MAX then s
  else run dmacStep s [(t, .callRelease chn), (t, .clearName), (t, .clearUsed), (t, .semRelease)]

/-! ### The calls -/

/-- What `py_kpu_run` gets to work with; all but the last raise an exception. -/
inductive KpuInput where
  | invalid
  | statFails
  | mallocFails
  | readFails
  | ready
deriving DecidableEq, Repr

/-- The result of `rt_sem_take`. -/
inductive Wait where
  | ok
  | timeout
  | error
deriving DecidableEq, Repr

def pyKpuRun (s : Dmac T) (t : T) (input : KpuInput) (take : Bool) (wait : Wait) : Dmac T :=
  if input ≠ .ready then s -- raises
  else
    let s := dmalockSyncTake s t "py_kpu_run" take
    let (ok, dmaCh) := taken s t
    if ok = false then s -- raises: Fail to take DMA channel
    else if wait = .timeout then s -- raises: Fail to take KPU semaphore
    else dmalockRelease s t dmaCh

/-- `rt_spi_message` and the width in the configuration. -/
structure SpiMessage where
  dataWidth : ℕ
  length : ℕ
  recvBuf : Bool
  sendBuf : Bool
deriving DecidableEq, Repr

/-- What can fail in a transfer and makes a difference to its channels. -/
structure SpiOutcome where
  recvTake : Bool
  recvAlloc : Bool
  sendTake : Bool
deriving DecidableEq, Repr

/-- The label `transfer_done`. -/
def transferDone (s : Dmac T) (t : T) (dmaSendChannel dmaRecvChannel : ℕ) : Dmac T :=
  dmalockRelease (dmalockRelease s t dmaSendChannel) t dmaRecvChannel

/-- `drv_spi_xfer` from the send buffer on; all its exits go to the label with the channels taken so
    far. -/
def drvSpiSend (s : Dmac T) (t : T) (m : SpiMessage) (o : SpiOutcome) (dmaRecvChannel : ℕ) : Dmac T :=
  if m.sendBuf then
    let s := dmalockSyncTake s t "drv_spi_xfer" o.sendTake
    transferDone s t (taken s t).2 dmaRecvChannel
  else transferDone s t DMAC_CHANNEL_MAX dmaRecvChannel

def drvSpiXfer (s : Dmac T) (t : T) (m : SpiMessage) (o : SpiOutcome) : Dmac T :=
  if m.dataWidth ≠ 8 then s
  else if m.length = 0 then s
  else if m.recvBuf then
    let s := dmalockSyncTake s t "drv_spi_xfer" o.recvTake
    if o.recvAlloc then drvSpiSend s t m o (taken s t).2
    else transferDone s t DMAC_CHANNEL_MAX (taken s t).2
  else drvSpiSend s t m o DMAC_CHANNEL_MAX

/-- `w25qxx_receive_data_enhanced_dma` and `w25qxx_send_data_enhanced_dma` -/
def w25qxxEnhancedDma (s : Dmac T) (t : T) (name : String) (take : Bool) : Dmac T :=
  let s := dmalockSyncTake s t name take
  dmalockRelease s t (taken s t).2

inductive DmaCall where
  | pyKpuRun (input : KpuInput) (take : Bool) (wait : Wait)
  | drvSpiXfer (m : SpiMessage) (o : SpiOutcome)
  | receiveData (take : Bool)
  | sendData (take : Bool)
deriving DecidableEq, Repr

def callStep (s : Dmac T) (c : T × DmaCall) : Dmac T :=
  match c.2 with
  | .pyKpuRun input take wait => pyKpuRun s c.1 input take wait
  | .drvSpiXfer m o => drvSpiXfer s c.1 m o
  | .receiveData take => w25qxxEnhancedDma s c.1 "w25qxx_receive_data_enhanced_dma" take
  | .sendData take => w25qxxEnhancedDma s c.1 "w25qxx_send_data_enhanced_dma" take

/-- The exit that does not release: the KPU is not done in time. -/
def Leaks (s : Dmac T) (c : T × DmaCall) : Prop :=
  match c.2 with
  | .pyKpuRun input take wait => input = .ready ∧ take = true ∧ 0 < s.sem ∧ wait = .timeout
  | _ => False

/-! ### What they leave -/

/-- The same channels are marked, counted and owned. -/
structure SameChannels (s s' : Dmac T) : Prop where
  sem : s'.sem = s.sem
  used : s'.channelUsed = s.channelUsed
  owned : s'.owned = s.owned

/-- Nobody is inside a take or a release. -/
structure AtRest [Fintype T] (s : Dmac T) : Prop where
  inv : DmacInv s
  idle : ∀ t, s.pc t = .idle

omit [DecidableEq T] in
theorem SameChannels.refl (s : Dmac T) : SameChannels s s := ⟨rfl, rfl, rfl⟩

variable [Fintype T] {s : Dmac T} {t : T}

omit [Fintype T] in
/-- Behind the loop there is nothing left to look at. -/
theorem run_scan_stay {chn : ℕ} (hpc : s.pc t = .mutexRelease chn) : ∀ k : ℕ,
    run dmacStep s (List.replicate k (t, .scan)) = s
  | 0 => rfl
  | k + 1 => by
    have hstep : dmacStep s (t, .scan) = s := by simp only [dmacStep, hpc]
    rw [List.replicate_succ, run_cons, hstep]
    exact run_scan_stay hpc k

/-- The loop goes up to the first free channel and marks it. -/
theorem run_scan : ∀ {k i : ℕ} {s : Dmac T} {name : String}, DmacInv s → s.pc t = .scan name i →
    DMAC_CHANNEL_COUNT < i + k → ∃ c s', c < DMAC_CHANNEL_COUNT ∧ s.channelUsed c = false ∧
      run dmacStep s (List.replicate k (t, .scan)) = s' ∧ DmacInv s' ∧ s' = { s with
        channelUsed := Function.update s.channelUsed c true
        channelName := Function.update s.channelName c (some name)
        pc := Function.update s.pc t (.mutexRelease c) }
  | k, i, s, name, hinv, hpc, hk => by
    obtain ⟨j, hj, hij⟩ := hinv.ahead t name i hpc
    have hi : i < DMAC_CHANNEL_COUNT := hij.trans_lt (mem_freeSlots.1 hj).1
    match k with
    | 0 => omega
    | k + 1 =>
      have hstep : dmacStep s (t, .scan) = scanStep s t name i := by simp only [dmacStep, hpc]
      rw [List.replicate_succ, run_cons, hstep, scanStep, if_pos hi]
      cases hused : s.channelUsed i with
      | false =>
        rw [if_pos rfl]
        have hstay : Function.update s.pc t (.mutexRelease i) t = .mutexRelease i := Function.update_self ..
        exact ⟨i, _, hi, hused, run_scan_stay hstay k, inv_scan_mark hinv hpc hi hused, rfl⟩
      | true =>
        rw [if_neg (by decide)]
        have hinv' := inv_scan_next hinv hpc hused
        obtain ⟨c, s', hc, hfree, hrun, hs', heq⟩ := run_scan (k := k) (i := i + 1) hinv'
          (Function.update_self ..) (by omega)
        refine ⟨c, s', hc, hfree, hrun, hs', heq.trans ?_⟩
        dsimp only [Dmac.goto]
        rw [Function.update_idem]

/-- The state after a take that left the channel `chn`, if it did. -/
inductive Took (s : Dmac T) (t : T) : ℕ → Dmac T → Prop where
  | failed {s' : Dmac T} (h : SameChannels s s') : Took s t DMAC_CHANNEL_MAX s'
  | got {c : ℕ} {s' : Dmac T} (hc : c < DMAC_CHANNEL_COUNT) (hfree : s.channelUsed c = false)
      (hsem : s'.sem + 1 = s.sem) (hused : s'.channelUsed = Function.update s.channelUsed c true)
      (howned : s'.owned = Function.update s.owned t (insert c (s.owned t))) : Took s t c s'

omit [DecidableEq T] in
theorem atRest_init : AtRest (Dmac.init T) := ⟨DmacInv.init, fun _ => rfl⟩

omit [Fintype T] in
theorem idle_update (h : ∀ u, s.pc u = .idle) (u : T) : Function.update s.pc t .idle u = .idle := by
  by_cases hu : u = t
  · rw [hu, Function.update_self]
  · rw [Function.update_of_ne hu, h u]

variable (h : AtRest s)
include h

omit [DecidableEq T] in
theorem AtRest.mutex : s.mutex = none := by
  cases hm : s.mutex with
  | none => rfl
  | some u =>
    have hlock := (h.inv.lock u).2 hm
    rw [h.idle u] at hlock
    cases hlock

theorem take_fails (name : String) (ok : Bool) (hfail : ¬ (ok = true ∧ 0 < s.sem)) :
    AtRest (dmalockSyncTake s t name ok) ∧ SameChannels s (dmalockSyncTake s t name ok) ∧
      taken (dmalockSyncTake s t name ok) t = (false, DMAC_CHANNEL_MAX) := by
  have h1 := inv_callTake h.inv (h.idle t) name
  have hpc : (s.goto t (.semTake name)).pc t = .semTake name := Function.update_self ..
  have h2 := inv_semTimeout h1 hpc
  have hrun : dmalockSyncTake s t name ok = { s.goto t (.semTake name) with
      result := Function.update s.result t (some (false, DMAC_CHANNEL_MAX)) }.goto t .idle := by
    have hstep1 : dmacStep s (t, .callTake name) = s.goto t (.semTake name) := by
      simp only [dmacStep, h.idle t]
    rw [dmalockSyncTake, if_neg hfail, run_cons, hstep1, run_cons, run_nil]
    simp only [dmacStep, hpc]
    rfl
  rw [hrun]
  refine ⟨⟨h2, fun u => ?_⟩, ⟨rfl, rfl, rfl⟩, ?_⟩
  · dsimp only [Dmac.goto]
    rw [Function.update_idem]
    exact idle_update h.idle u
  show (Function.update s.result t (some (false, DMAC_CHANNEL_MAX)) t).getD _ = _
  rw [Function.update_self]
  rfl

/-- A thread gets as far as the loop. -/
theorem run_take_head (name : String) (hsem : 0 < s.sem) :
    run dmacStep s [(t, .callTake name), (t, .semTake), (t, .mutexTake)] =
      { s with sem := s.sem - 1, mutex := some t, pc := Function.update s.pc t (.scan name 0) } ∧
    DmacInv { s with sem := s.sem - 1, mutex := some t, pc := Function.update s.pc t (.scan name 0) } := by
  have h1 := inv_callTake h.inv (h.idle t) name
  have h2 := inv_semTake h1 (Function.update_self ..) hsem
  have h3 := inv_mutexTake h2 (Function.update_self ..) h.mutex
  simp only [Dmac.goto, Function.update_idem] at h3
  refine ⟨?_, h3⟩
  simp only [run_cons, run_nil, dmacStep, h.idle t, Dmac.goto, Function.update_self, Function.update_idem]

theorem take_succeeds (name : String) (hsem : 0 < s.sem) :
    AtRest (dmalockSyncTake s t name true) ∧ (taken (dmalockSyncTake s t name true) t).1 = true ∧
      Took s t (taken (dmalockSyncTake s t name true) t).2 (dmalockSyncTake s t name true) ∧
      (taken (dmalockSyncTake s t name true) t).2 < DMAC_CHANNEL_COUNT := by
  obtain ⟨hhead, h1⟩ := run_take_head h name hsem (t := t)
  obtain ⟨c, s2, hc, hfree, hrun, h2, heq⟩ := run_scan (t := t) (k := DMAC_CHANNEL_COUNT + 1) h1
    (Function.update_self ..) (by omega)
  have hpc2 : s2.pc t = .mutexRelease c := by
    rw [heq]
    exact Function.update_self ..
  have hall : dmalockSyncTake s t name true = { s2 with
      mutex := none
      owned := Function.update s2.owned t (insert c (s2.owned t))
      result := Function.update s2.result t (some (true, c)) }.goto t .idle := by
    rw [dmalockSyncTake, if_pos ⟨rfl, hsem⟩, run_append, run_append, hhead, hrun, run_cons, run_nil]
    simp only [dmacStep, hpc2]
  have htaken : taken (dmalockSyncTake s t name true) t = (true, c) := by
    rw [hall]
    show (Function.update s2.result t (some (true, c)) t).getD _ = _
    rw [Function.update_self]
    rfl
  have h3 := inv_mutexRelease h2 hpc2
  rw [htaken, hall]
  subst heq
  refine ⟨⟨h3, fun u => ?_⟩, rfl, .got hc hfree (Nat.sub_add_cancel hsem) rfl rfl, hc⟩
  dsimp only [Dmac.goto]
  rw [Function.update_idem, Function.update_idem]
  exact idle_update h.idle u

/-- Every take ends in one of the two ways. -/
theorem took_take (name : String) (ok : Bool) : AtRest (dmalockSyncTake s t name ok) ∧
    Took s t (taken (dmalockSyncTake s t name ok) t).2 (dmalockSyncTake s t name ok) := by
  by_cases htake : ok = true ∧ 0 < s.sem
  · obtain ⟨rfl, hsem⟩ := htake
    obtain ⟨hrest, -, htook, -⟩ := take_succeeds h name hsem (t := t)
    exact ⟨hrest, htook⟩
  · obtain ⟨hrest, hsame, htaken⟩ := take_fails h name ok htake (t := t)
    rw [htaken]
    exact ⟨hrest, .failed hsame⟩

theorem release_owned {c : ℕ} (hown : c ∈ s.owned t) : AtRest (dmalockRelease s t c) ∧
    (dmalockRelease s t c).sem = s.sem + 1 ∧
    (dmalockRelease s t c).channelUsed = Function.update s.channelUsed c false ∧
    (dmalockRelease s t c).owned = Function.update s.owned t ((s.owned t).erase c) := by
  have hlt : ¬ c ≥ DMAC_CHANNEL_MAX := Nat.not_le.2 (h.inv.holds t c (.inl hown)).1
  have h1 := inv_callRelease h.inv (h.idle t) hown
  rw [if_neg hlt] at h1
  have h2 := inv_clearName h1 (Function.update_self ..)
  have h3 := inv_clearUsed h2 (Function.update_self ..)
  have h4 := inv_semRelease h3 (Function.update_self ..)
  simp only [Dmac.goto, Function.update_idem] at h4
  have hrun : dmalockRelease s t c = { s with
      sem := s.sem + 1
      channelUsed := Function.update s.channelUsed c false
      channelName := Function.update s.channelName c none
      pc := Function.update s.pc t .idle
      owned := Function.update s.owned t ((s.owned t).erase c) } := by
    rw [dmalockRelease, if_neg hlt]
    simp only [run_cons, run_nil, dmacStep, h.idle t, if_neg hlt, Dmac.goto, Function.update_self,
      Function.update_idem]
  rw [hrun]
  exact ⟨⟨h4, idle_update h.idle⟩, rfl, rfl, rfl⟩

omit h in
/-- What a take left is given back, if the channels were not touched in between. -/
theorem release_took {c : ℕ} {s1 s2 : Dmac T} (hinv : DmacInv s) (htook : Took s t c s1)
    (hsame : SameChannels s1 s2) (hrest : AtRest s2) :
    AtRest (dmalockRelease s2 t c) ∧ SameChannels s (dmalockRelease s2 t c) := by
  cases htook with
  | failed h =>
    rw [dmalockRelease, if_pos (le_refl _)]
    exact ⟨hrest, hsame.sem.trans h.sem, hsame.used.trans h.used, hsame.owned.trans h.owned⟩
  | got hc hfree hsem hused howned =>
    have hnot : c ∉ s.owned t := by
      intro hown
      rw [(hinv.holds t c (.inl hown)).2] at hfree
      cases hfree
    have hown2 : s2.owned = Function.update s.owned t (insert c (s.owned t)) := hsame.owned.trans howned
    have hmem : c ∈ s2.owned t := by
      rw [hown2, Function.update_self]
      exact Finset.mem_insert_self c _
    obtain ⟨hrest', hsem', hused', howned'⟩ := release_owned hrest hmem
    refine ⟨hrest', ?_, ?_, ?_⟩
    · rw [hsem', hsame.sem, hsem]
    · rw [hused', hsame.used, hused, Function.update_idem, ← hfree, Function.update_eq_self]
    · rw [howned', hown2, Function.update_idem, Function.update_self, Finset.erase_insert hnot,
        Function.update_eq_self]

/-! ### One call -/

theorem w25qxxEnhancedDma_same (name : String) (take : Bool) :
    AtRest (w25qxxEnhancedDma s t name take) ∧ SameChannels s (w25qxxEnhancedDma s t name take) := by
  obtain ⟨hrest, htook⟩ := took_take h name take (t := t)
  exact release_took h.inv htook (.refl _) hrest

omit [Fintype T] h in
theorem release_max (s : Dmac T) (t : T) : dmalockRelease s t DMAC_CHANNEL_MAX = s := if_pos (le_refl _)

/-- From whatever the first half took, a transfer gives back both channels. -/
theorem drvSpiSend_same (m : SpiMessage) (o : SpiOutcome) {s1 : Dmac T} {c : ℕ} (hrest : AtRest s1)
    (htook : Took s t c s1) : AtRest (drvSpiSend s1 t m o c) ∧ SameChannels s (drvSpiSend s1 t m o c) := by
  unfold drvSpiSend transferDone
  split_ifs with hsend
  · obtain ⟨hrest1, htook1⟩ := took_take hrest "drv_spi_xfer" o.sendTake (t := t)
    obtain ⟨hrest2, hsame2⟩ := release_took hrest.inv htook1 (.refl _) hrest1
    exact release_took h.inv htook hsame2 hrest2
  · rw [release_max]
    exact release_took h.inv htook (.refl _) hrest

theorem drvSpiXfer_same (m : SpiMessage) (o : SpiOutcome) :
    AtRest (drvSpiXfer s t m o) ∧ SameChannels s (drvSpiXfer s t m o) := by
  obtain ⟨hrest, htook⟩ := took_take h "drv_spi_xfer" o.recvTake (t := t)
  unfold drvSpiXfer
  split_ifs
  · exact ⟨h, .refl s⟩
  · exact ⟨h, .refl s⟩
  · exact drvSpiSend_same h m o hrest htook
  · rw [transferDone, release_max]
    exact release_took h.inv htook (.refl _) hrest
  · exact drvSpiSend_same h m o h (.failed (.refl s))

/-- The KPU's call keeps its channel if and only if it got one and the KPU was not done in time. -/
theorem pyKpuRun_cases (input : KpuInput) (take : Bool) (wait : Wait) :
    AtRest (pyKpuRun s t input take wait) ∧
      if input = .ready ∧ take = true ∧ 0 < s.sem ∧ wait = .timeout then
        (pyKpuRun s t input take wait).sem + 1 = s.sem
      else SameChannels s (pyKpuRun s t input take wait) := by
  unfold pyKpuRun
  by_cases hin : input = .ready
  · rw [if_neg (not_not.2 hin)]
    by_cases htake : take = true ∧ 0 < s.sem
    · obtain ⟨rfl, hsem⟩ := htake
      obtain ⟨hrest, hok, htook, hlt⟩ := take_succeeds h "py_kpu_run" hsem (t := t)
      dsimp only
      rw [if_neg (by rw [hok]; decide)]
      by_cases hwait : wait = .timeout
      · rw [if_pos hwait, if_pos ⟨hin, rfl, hsem, hwait⟩]
        refine ⟨hrest, ?_⟩
        generalize (taken (dmalockSyncTake s t "py_kpu_run" true) t).2 = c at htook hlt
        cases htook with
        | failed _ => exact absurd hlt (Nat.lt_irrefl _)
        | got _ _ hsem' _ _ => exact hsem'
      · rw [if_neg hwait, if_neg fun hc => hwait hc.2.2.2]
        exact release_took h.inv htook (.refl _) hrest
    · obtain ⟨hrest, hsame, htaken⟩ := take_fails h "py_kpu_run" take htake (t := t)
      dsimp only
      rw [if_pos (by rw [htaken]), if_neg fun hc => htake ⟨hc.2.1, hc.2.2.1⟩]
      exact ⟨hrest, hsame⟩
  · rw [if_pos hin, if_neg fun hc => hin hc.1]
    exact ⟨h, .refl s⟩

/-- A call that does not leak leaves everything as it was; one that leaks takes a channel away. -/
theorem callStep_cases (c : T × DmaCall) : AtRest (callStep s c) ∧
    (Leaks s c → (callStep s c).sem + 1 = s.sem) ∧ (¬ Leaks s c → SameChannels s (callStep s c)) := by
  obtain ⟨t, call⟩ := c
  cases call with
  | pyKpuRun input take wait =>
    obtain ⟨hrest, hcase⟩ := pyKpuRun_cases h input take wait (t := t)
    refine ⟨hrest, fun hl => ?_, fun hl => ?_⟩
    · change _ ∧ _ ∧ _ ∧ _ at hl
      rwa [if_pos hl] at hcase
    · change ¬ (_ ∧ _ ∧ _ ∧ _) at hl
      rwa [if_neg hl] at hcase
  | drvSpiXfer m o =>
    obtain ⟨hrest, hsame⟩ := drvSpiXfer_same h m o (t := t)
    exact ⟨hrest, (nomatch ·), fun _ => hsame⟩
  | receiveData take =>
    obtain ⟨hrest, hsame⟩ := w25qxxEnhancedDma_same h "w25qxx_receive_data_enhanced_dma" take (t := t)
    exact ⟨hrest, (nomatch ·), fun _ => hsame⟩
  | sendData take =>
    obtain ⟨hrest, hsame⟩ := w25qxxEnhancedDma_same h "w25qxx_send_data_enhanced_dma" take (t := t)
    exact ⟨hrest, (nomatch ·), fun _ => hsame⟩

omit h in
theorem atRest_run (calls : List (T × DmaCall)) : AtRest (run callStep (Dmac.init T) calls) := by
  induction calls using List.reverseRecOn with
  | nil => exact atRest_init
  | append_singleton calls c ih =>
    rw [run_concat]
    exact (callStep_cases ih c).1

omit h in
/-- Each call gives back what it took, so that all channels are free again after any number of calls, if
    and only if in no call of `py_kpu_run` the KPU keeps the caller waiting until the time is over. -/
theorem dma_channels_iff (calls : List (T × DmaCall)) :
    (StepsMeet callStep (fun s c => SameChannels s (callStep s c)) (Dmac.init T) calls ∧
      (run callStep (Dmac.init T) calls).sem = DMAC_CHANNEL_COUNT ∧
      ∀ c, (run callStep (Dmac.init T) calls).channelUsed c = false) ↔
    StepsMeet callStep (fun s c => ¬ Leaks s c) (Dmac.init T) calls := by
  have hsteps : StepsMeet callStep (fun s c => SameChannels s (callStep s c)) (Dmac.init T) calls ↔
      StepsMeet callStep (fun s c => ¬ Leaks s c) (Dmac.init T) calls := by
    rw [stepsMeet_iff_forall, stepsMeet_iff_forall]
    refine forall_congr' fun pre => forall_congr' fun c => imp_congr_right fun _ => ?_
    obtain ⟨-, hleak, hsame⟩ := callStep_cases (atRest_run pre) c
    refine ⟨fun h hl => ?_, hsame⟩
    have h1 := hleak hl
    have h2 := h.sem
    omega
  rw [hsteps]
  refine ⟨And.left, fun hno => ⟨hno, ?_⟩⟩
  have hall : SameChannels (Dmac.init T) (run callStep (Dmac.init T) calls) :=
    run_inv (fun s => SameChannels (Dmac.init T) s)
      (fun s c hs hc => ⟨hc.sem.trans hs.sem, hc.used.trans hs.used, hc.owned.trans hs.owned⟩)
      (.refl _) (hsteps.2 hno)
  exact ⟨hall.sem, fun c => congrFun hall.used c⟩

end

/-- The KPU does not answer: the call raises an exception and the channel stays marked. -/
theorem kpu_timeout_keeps_channel :
    ¬ (StepsMeet callStep (fun s c => SameChannels s (callStep s c)) (Dmac.init Unit)
        [((), .pyKpuRun .ready true .timeout)] ∧
      (run callStep (Dmac.init Unit) [((), .pyKpuRun .ready true .timeout)]).sem = DMAC_CHANNEL_COUNT ∧
      ∀ c, (run callStep (Dmac.init Unit) [((), .pyKpuRun .ready true .timeout)]).channelUsed c = false) := by
  rintro ⟨-, hsem, -⟩
  exact absurd hsem (by decide)

end OpenMV.Driver
