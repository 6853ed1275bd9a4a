import Mathlib.Data.Nat.Log
import OpenMV.Schemes.Rearranging

/-! array_sort | scheme:order | source:src/src/openmv/omv/array.c

    The last slot is the pivot. `h` runs up over what is less than it and `t` down over what is greater,
    and what stops both changes places, until they meet; then the pivot goes to `h`. The shorter side is
    sorted by a recursive call and the loop goes on with the other one, so calls are nested no deeper
    than a range can be halved. -/

namespace OpenMV.Collections
open Schemes

/-! ### The code -/

section
-- the comparator, and the slots that are there
variable {α : Type} (comp : α → α → ℤ) (lo hi : ℤ)

def loadSlot (mem : ℤ → α) (p : ℤ) : Option α := if lo ≤ p ∧ p ≤ hi then some (mem p) else none

def storeSlot (mem : ℤ → α) (p : ℤ) (x : α) : Option (ℤ → α) :=
  if lo ≤ p ∧ p ≤ hi then some (Function.update mem p x) else none

/-- `x = p[0]; p[0] = q[0]; q[0] = x;` -/
def swapSlots (mem : ℤ → α) (p q : ℤ) : Option (ℤ → α) := do
  let x ← loadSlot lo hi mem p
  let y ← loadSlot lo hi mem q
  let mem ← storeSlot lo hi mem p y
  storeSlot lo hi mem q x

/-- `do ++h; while(h < t && comp(h[0], v) < 0);`, `none` if it takes more rounds than given. -/
def scanUp (mem : ℤ → α) (v : α) (t : ℤ) : ℕ → ℤ → Option ℤ
  | 0, _ => none
  | n + 1, h =>
    if h + 1 < t then do
      let x ← loadSlot lo hi mem (h + 1)
      if comp x v < 0 then scanUp mem v t n (h + 1) else some (h + 1)
    else some (h + 1)

/-- `do --t; while(h < t && comp(v, t[0]) < 0);` -/
def scanDown (mem : ℤ → α) (v : α) (h : ℤ) : ℕ → ℤ → Option ℤ
  | 0, _ => none
  | n + 1, t =>
    if h < t - 1 then do
      let x ← loadSlot lo hi mem (t - 1)
      if comp v x < 0 then scanDown mem v h n (t - 1) else some (t - 1)
    else some (t - 1)

/-- The rounds of `for (;;)`, with `h` and `t` as they are at its end. -/
def partitionLoop (v : α) : ℕ → (ℤ → α) → ℤ → ℤ → Option ((ℤ → α) × ℤ × ℤ)
  | 0, _, _, _ => none
  | n + 1, mem, h, t => do
    let h ← scanUp comp lo hi mem v t (n + 1) h
    let t ← scanDown comp lo hi mem v h (n + 1) t
    if t ≤ h then some (mem, h, t)
    else do
      let mem ← swapSlots lo hi mem h t
      partitionLoop v n mem h t

/-- A round of the outer loop up to the recursive call. -/
def partitionSlots (mem : ℤ → α) (head tail : ℤ) : Option ((ℤ → α) × ℤ × ℤ) := do
  let v ← loadSlot lo hi mem tail
  let (mem, h, t) ← partitionLoop comp lo hi v (tail + 1 - head).toNat mem (head - 1) tail
  let mem ← swapSlots lo hi mem h tail
  some (mem, h, t)

/-- The range of the recursive call, and the one the loop goes on with. -/
def chooseCall (head tail h t : ℤ) : (ℤ × ℤ) × (ℤ × ℤ) :=
  if t - head < tail - h - 1 then ((head, t), (h + 1, tail)) else ((h + 1, tail), (head, t))

/-- `while (head < tail)`, with the recursive call as a parameter. -/
def sortLoop (call : (ℤ → α) → ℤ → ℤ → Option (ℤ → α)) :
    ℕ → (ℤ → α) → ℤ → ℤ → Option (ℤ → α)
  | 0, mem, head, tail => if head < tail then none else some mem
  | n + 1, mem, head, tail =>
    if head < tail then do
      let (mem, h, t) ← partitionSlots comp lo hi mem head tail
      let c := chooseCall head tail h t
      let mem ← call mem c.1.1 c.1.2
      sortLoop call n mem c.2.1 c.2.2
    else some mem

/-- `quicksort`, `none` if it needs more nested calls than given or touches a slot that is not there. -/
def quicksort : ℕ → (ℤ → α) → ℤ → ℤ → Option (ℤ → α)
  | 0, _, _, _ => none
  | frames + 1, mem, head, tail =>
    sortLoop comp lo hi (quicksort frames) (tail - head).toNat mem head tail

/-- `array_sort`, of an array of `index` elements. -/
def arraySort (frames : ℕ) (mem : ℤ → α) (index : ℤ) : Option (ℤ → α) :=
  if 1 < index then quicksort comp 0 (index - 1) frames mem 0 (index - 1) else some mem

end

/-! ### What it is for -/

/-- The comparator is a total preorder, given three-way. -/
structure ThreeWay {α : Type} (comp : α → α → ℤ) : Prop where
  flip : ∀ a b, comp a b < 0 ↔ 0 < comp b a
  trans : ∀ a b c, comp a b ≤ 0 → comp b c ≤ 0 → comp a c ≤ 0

/-- `a` may stand in front of `b`. -/
def Le {α : Type} (comp : α → α → ℤ) (a b : α) : Prop := comp a b ≤ 0

theorem ThreeWay.le_of_not_lt {α : Type} {comp : α → α → ℤ} (hc : ThreeWay comp) {a b : α}
    (h : ¬ comp a b < 0) : Le comp b a := by
  rw [hc.flip] at h
  exact not_lt.1 h

theorem ThreeWay.le_self {α : Type} {comp : α → α → ℤ} (hc : ThreeWay comp) (a : α) :
    Le comp a a := by
  have := hc.flip a a
  unfold Le
  omega

/-! ### Slots -/

section
variable {α : Type} {comp : α → α → ℤ} {lo hi : ℤ} {mem : ℤ → α} {p q : ℤ}

theorem loadSlot_eq (hp : lo ≤ p ∧ p ≤ hi) : loadSlot lo hi mem p = some (mem p) := if_pos hp

theorem swapSlots_eq (hp : lo ≤ p ∧ p ≤ hi) (hq : lo ≤ q ∧ q ≤ hi) :
    swapSlots lo hi mem p q = some (mem ∘ Equiv.swap p q) := by
  simp only [swapSlots, loadSlot_eq hp, loadSlot_eq hq, storeSlot, if_pos hp, if_pos hq,
    Option.bind_eq_bind, Option.bind_some]
  congr 1
  funext i
  rw [Function.comp_apply, Equiv.swap_apply_def]
  by_cases hiq : i = q
  · subst hiq
    rw [Function.update_self]
    by_cases hip : i = p
    · rw [if_pos hip, hip]
    · rw [if_neg hip, if_pos rfl]
  · rw [Function.update_of_ne hiq, if_neg hiq]
    by_cases hip : i = p
    · rw [if_pos hip, hip, Function.update_self]
    · rw [if_neg hip, Function.update_of_ne hip]

/-! ### The two scans -/

variable (comp mem) in
/-- `h` stops at `t`, or at a value that is not less than the pivot. -/
theorem scanUp_spec (v : α) {t : ℤ} (hhi : t ≤ hi) : ∀ {n : ℕ} {h : ℤ}, lo ≤ h + 1 → h < t → t - h ≤ n →
    ∃ h', scanUp comp lo hi mem v t n h = some h' ∧ h < h' ∧ h' ≤ t ∧
      (∀ i, h < i → i < h' → comp (mem i) v < 0) ∧ (h' < t → ¬ comp (mem h') v < 0)
  | 0, h, _, _, _ => by omega
  | n + 1, h, hlo, hlt, hn => by
    rw [scanUp]
    by_cases hend : h + 1 < t
    · rw [if_pos hend, loadSlot_eq ⟨hlo, by omega⟩]
      simp only [Option.bind_eq_bind, Option.bind_some]
      by_cases hless : comp (mem (h + 1)) v < 0
      · rw [if_pos hless]
        obtain ⟨h', heq, hh, ht, hbelow, hstop⟩ :=
          scanUp_spec v hhi (n := n) (h := h + 1) (by omega) hend (by omega)
        refine ⟨h', heq, by omega, ht, fun i hi hi' => ?_, hstop⟩
        rcases eq_or_lt_of_le (show h + 1 ≤ i from hi) with rfl | hlt'
        · exact hless
        · exact hbelow i hlt' hi'
      · rw [if_neg hless]
        exact ⟨h + 1, rfl, by omega, by omega, fun i _ _ => by omega, fun _ => hless⟩
    · rw [if_neg hend]
      exact ⟨h + 1, rfl, by omega, by omega, fun i _ _ => by omega, fun _ => by omega⟩

variable (comp mem) in
/-- `t` stops at `h`, or at a value that is not greater than the pivot; one below `h` if it was there
    already. -/
theorem scanDown_spec (v : α) {h : ℤ} (hlo : lo ≤ h) : ∀ {n : ℕ} {t : ℤ}, t ≤ hi + 1 → h ≤ t →
    t - h ≤ n → 0 < n →
    ∃ t', scanDown comp lo hi mem v h n t = some t' ∧ t' < t ∧ (t' < h → t = h ∧ t' = h - 1) ∧
      (∀ i, t' < i → i < t → comp v (mem i) < 0) ∧ (h < t' → ¬ comp v (mem t') < 0)
  | 0, t, _, _, _, h0 => by omega
  | n + 1, t, hhi, hle, hn, _ => by
    rw [scanDown]
    by_cases hend : h < t - 1
    · rw [if_pos hend, loadSlot_eq ⟨by omega, by omega⟩]
      simp only [Option.bind_eq_bind, Option.bind_some]
      by_cases hless : comp v (mem (t - 1)) < 0
      · rw [if_pos hless]
        obtain ⟨t', heq, ht, hlow, habove, hstop⟩ :=
          scanDown_spec v hlo (n := n) (t := t - 1) (by omega) hend.le (by omega) (by omega)
        refine ⟨t', heq, by omega, fun hlt => by have := hlow hlt; omega, fun i hi hi' => ?_, hstop⟩
        rcases eq_or_lt_of_le (show i ≤ t - 1 by omega) with rfl | hlt'
        · exact hless
        · exact habove i hi hlt'
      · rw [if_neg hless]
        exact ⟨t - 1, rfl, by omega, fun _ => by omega, fun i _ _ => by omega, fun _ => hless⟩
    · rw [if_neg hend]
      exact ⟨t - 1, rfl, by omega, fun _ => by omega, fun i _ _ => by omega, fun _ => by omega⟩

end

/-! ### One round of the outer loop -/

section
variable {α : Type} {comp : α → α → ℤ} {lo hi head tail : ℤ} {v : α} {mem₀ mem : ℤ → α} {h t : ℤ}

/-- Between two rounds of the scans: nothing up to `h` is greater than the pivot and nothing from `t` on
    is less, and the pivot is still in the last slot. -/
structure Scanned (comp : α → α → ℤ) (head tail : ℤ) (v : α) (mem₀ mem : ℤ → α) (h t : ℤ) : Prop where
  start : head ≤ h + 1
  apart : h < t
  stop : t ≤ tail
  low : ∀ i, head ≤ i → i ≤ h → Le comp (mem i) v
  high : ∀ i, t ≤ i → i ≤ tail → Le comp v (mem i)
  moved : Rearranged head (tail - 1) mem₀ mem

/-- Where the scans have met. -/
structure Met (comp : α → α → ℤ) (head tail : ℤ) (v : α) (mem₀ mem : ℤ → α) (h t : ℤ) : Prop where
  start : head ≤ h
  stop : h ≤ tail
  meet : t = h ∨ t = h - 1
  below : t < tail
  low : ∀ i, head ≤ i → i < h → Le comp (mem i) v
  high : ∀ i, h ≤ i → i ≤ tail → Le comp v (mem i)
  moved : Rearranged head (tail - 1) mem₀ mem

theorem scanned_start (hc : ThreeWay comp) (hlt : head < tail) (mem : ℤ → α) :
    Scanned comp head tail (mem tail) mem mem (head - 1) tail where
  start := by omega
  apart := by omega
  stop := le_rfl
  low i h1 h2 := by omega
  high i h1 h2 := le_antisymm h1 h2 ▸ hc.le_self _
  moved := rearranged_refl head (tail - 1) mem

/-- Where both scans have stopped on a value that is on the wrong side, it is put on the right one. -/
theorem Scanned.swap {h' t' : ℤ} (hc : ThreeWay comp) (hs : Scanned comp head tail v mem₀ mem h t)
    (hh : h < h') (htt : t' < t) (hlt : h' < t')
    (hup : ∀ i, h < i → i < h' → comp (mem i) v < 0) (hupstop : ¬ comp (mem h') v < 0)
    (hdown : ∀ i, t' < i → i < t → comp v (mem i) < 0) (hdownstop : ¬ comp v (mem t') < 0) :
    Scanned comp head tail v mem₀ (mem ∘ Equiv.swap h' t') h' t' := by
  have hstart := hs.start
  have hstop := hs.stop
  refine ⟨by omega, hlt, by omega, fun i h1 h2 => ?_, fun i h1 h2 => ?_,
    hs.moved.trans (rearranged_swap (by omega) (by omega) mem)⟩
  · rw [Function.comp_apply]
    rcases eq_or_lt_of_le h2 with rfl | hlt'
    · rw [Equiv.swap_apply_left]
      exact hc.le_of_not_lt hdownstop
    · rw [Equiv.swap_apply_of_ne_of_ne (by omega) (by omega)]
      by_cases hih : i ≤ h
      · exact hs.low i h1 hih
      · exact (hup i (by omega) hlt').le
  · rw [Function.comp_apply]
    rcases eq_or_lt_of_le h1 with rfl | hlt'
    · rw [Equiv.swap_apply_right]
      exact hc.le_of_not_lt hupstop
    · rw [Equiv.swap_apply_of_ne_of_ne (by omega) (by omega)]
      by_cases hit : t ≤ i
      · exact hs.high i hit h2
      · exact (hdown i hlt' (by omega)).le

theorem Scanned.met {h' t' : ℤ} (hc : ThreeWay comp) (hs : Scanned comp head tail v mem₀ mem h t)
    (hh : h < h') (hht : h' ≤ t) (htt : t' < t) (hle : t' ≤ h') (hlow : t' < h' → t = h' ∧ t' = h' - 1)
    (hup : ∀ i, h < i → i < h' → comp (mem i) v < 0) (hupstop : h' < t → ¬ comp (mem h') v < 0)
    (hdown : ∀ i, t' < i → i < t → comp v (mem i) < 0) :
    Met comp head tail v mem₀ mem h' t' := by
  have hstart := hs.start
  have hstop := hs.stop
  refine ⟨by omega, by omega, by omega, by omega, fun i h1 h2 => ?_, fun i h1 h2 => ?_, hs.moved⟩
  · by_cases hih : i ≤ h
    · exact hs.low i h1 hih
    · exact (hup i (by omega) h2).le
  · by_cases hit : t ≤ i
    · exact hs.high i hit h2
    · rcases eq_or_lt_of_le h1 with rfl | hlt
      · exact hc.le_of_not_lt (hupstop (by omega))
      · exact (hdown i (by omega) (by omega)).le

theorem partitionLoop_spec (hc : ThreeWay comp) (hlo : lo ≤ head) (hhi : tail ≤ hi) :
    ∀ {n : ℕ} {mem : ℤ → α} {h t : ℤ}, Scanned comp head tail v mem₀ mem h t → t - h ≤ n →
      ∃ mem' h' t', partitionLoop comp lo hi v n mem h t = some (mem', h', t') ∧
        Met comp head tail v mem₀ mem' h' t'
  | 0, mem, h, t, hs, hn => by
    have := hs.apart
    omega
  | n + 1, mem, h, t, hs, hn => by
    have hstart := hs.start
    have hstop := hs.stop
    obtain ⟨h', hscan, hh, hht, hup, hupstop⟩ :=
      scanUp_spec comp mem v (show t ≤ hi by omega) (show lo ≤ h + 1 by omega) hs.apart hn
    obtain ⟨t', hscan', htt, hlow, hdown, hdownstop⟩ :=
      scanDown_spec comp mem v (show lo ≤ h' by omega) (show t ≤ hi + 1 by omega) hht
        (show t - h' ≤ (n + 1 : ℕ) by omega) n.succ_pos
    simp only [partitionLoop, hscan, hscan', Option.bind_eq_bind, Option.bind_some]
    by_cases hle : t' ≤ h'
    · rw [if_pos hle]
      exact ⟨mem, h', t', rfl, hs.met hc hh hht htt hle hlow hup hupstop hdown⟩
    · rw [if_neg hle, swapSlots_eq (by omega) (by omega), Option.bind_some]
      exact partitionLoop_spec hc hlo hhi (hs.swap hc hh htt (by omega) hup (hupstop (by omega))
        hdown (hdownstop (by omega))) (by omega)

/-- What a round leaves to be sorted: `head..t` and `h+1..tail`, with a cut in front of slot `h` and one
    behind it, or one cut if `h` belongs to the first. -/
structure Partitioned (comp : α → α → ℤ) (head tail : ℤ) (mem₀ mem : ℤ → α) (h t : ℤ) : Prop where
  start : head ≤ h
  stop : h ≤ tail
  meet : t = h ∨ t = h - 1
  below : t < tail
  cut_t : CutAt (Le comp) head t tail mem
  cut_h : CutAt (Le comp) head h tail mem
  moved : Rearranged head tail mem₀ mem

/-- The pivot goes to slot `h`. -/
theorem Met.partitioned (hc : ThreeWay comp) (hm : Met comp head tail (mem₀ tail) mem₀ mem h t) :
    Partitioned comp head tail mem₀ (mem ∘ Equiv.swap h tail) h t := by
  have hstart := hm.start
  have hstop := hm.stop
  have hmeet := hm.meet
  have hbelow := hm.below
  have hpivot : mem tail = mem₀ tail := hm.moved.outside (.inr (by omega))
  have hlow : ∀ i, head ≤ i → i ≤ h → Le comp ((mem ∘ Equiv.swap h tail) i) (mem₀ tail) := by
    intro i h1 h2
    rw [Function.comp_apply]
    rcases eq_or_lt_of_le h2 with rfl | hlt
    · rw [Equiv.swap_apply_left, hpivot]
      exact hc.le_self _
    · rw [Equiv.swap_apply_of_ne_of_ne (by omega) (by omega)]
      exact hm.low i h1 hlt
  have hhigh : ∀ i, h ≤ i → i ≤ tail → Le comp (mem₀ tail) ((mem ∘ Equiv.swap h tail) i) := by
    intro i h1 h2
    rw [Function.comp_apply]
    rcases eq_or_lt_of_le h1 with rfl | hlt
    · rw [Equiv.swap_apply_left, hpivot]
      exact hc.le_self _
    rcases eq_or_lt_of_le h2 with rfl | hlt'
    · rw [Equiv.swap_apply_right]
      exact hm.high h le_rfl hstop
    · rw [Equiv.swap_apply_of_ne_of_ne (by omega) (by omega)]
      exact hm.high i h1 h2
  refine ⟨hstart, hstop, hmeet, hbelow, fun i j hi hj => ?_, fun i j hi hj => ?_,
    (hm.moved.mono le_rfl (by omega)).trans (rearranged_swap ⟨hstart, hstop⟩ (by omega) mem)⟩
  · exact hc.trans _ _ _ (hlow i hi.1 (by omega)) (hhigh j (by omega) hj.2)
  · exact hc.trans _ _ _ (hlow i hi.1 hi.2) (hhigh j (by omega) hj.2)

theorem partitionSlots_spec (hc : ThreeWay comp) (hlo : lo ≤ head) (hhi : tail ≤ hi)
    (hlt : head < tail) (mem : ℤ → α) :
    ∃ mem' h t, partitionSlots comp lo hi mem head tail = some (mem', h, t) ∧
      Partitioned comp head tail mem mem' h t := by
  obtain ⟨mem', h, t, hloop, hm⟩ := partitionLoop_spec hc hlo hhi (scanned_start hc hlt mem)
    (show tail - (head - 1) ≤ (tail + 1 - head).toNat by omega)
  have hstart := hm.start
  have hstop := hm.stop
  have hpivot : loadSlot lo hi mem tail = some (mem tail) := loadSlot_eq (by omega)
  have hswap : swapSlots lo hi mem' h tail = some (mem' ∘ Equiv.swap h tail) :=
    swapSlots_eq (by omega) (by omega)
  refine ⟨mem' ∘ Equiv.swap h tail, h, t, ?_, hm.partitioned hc⟩
  simp only [partitionSlots, hpivot, hloop, hswap, Option.bind_eq_bind, Option.bind_some]

/-! ### The recursion -/

/-- The slots `head..tail` were sorted and nothing else was changed. -/
structure Sorts (comp : α → α → ℤ) (head tail : ℤ) (mem mem' : ℤ → α) : Prop where
  moved : Rearranged head tail mem mem'
  sorted : OrderedOn (Le comp) head tail mem'

namespace Partitioned
variable {mem' mem'' : ℤ → α}

theorem left (hp : Partitioned comp head tail mem₀ mem h t) (hr : Rearranged head t mem mem') :
    Partitioned comp head tail mem₀ mem' h t := by
  obtain ⟨hstart, hstop, hmeet, hbelow, hcut, hcut', hmoved⟩ := hp
  exact ⟨hstart, hstop, hmeet, hbelow, hcut.left hr, hcut'.left (hr.mono le_rfl (by omega)),
    hmoved.trans (hr.mono le_rfl (by omega))⟩

theorem right (hp : Partitioned comp head tail mem₀ mem h t)
    (hr : Rearranged (h + 1) tail mem mem') : Partitioned comp head tail mem₀ mem' h t := by
  obtain ⟨hstart, hstop, hmeet, hbelow, hcut, hcut', hmoved⟩ := hp
  exact ⟨hstart, hstop, hmeet, hbelow, hcut.right (hr.mono (by omega) le_rfl), hcut'.right hr,
    hmoved.trans (hr.mono (by omega) le_rfl)⟩

/-- Whichever side is sorted first, the whole is sorted. -/
theorem sorts (hp : Partitioned comp head tail mem₀ mem h t)
    (hcall : Sorts comp (chooseCall head tail h t).1.1 (chooseCall head tail h t).1.2 mem mem')
    (hrest : Sorts comp (chooseCall head tail h t).2.1 (chooseCall head tail h t).2.2 mem' mem'') :
    Sorts comp head tail mem₀ mem'' := by
  have hmeet := hp.meet
  unfold chooseCall at hcall hrest
  split at hcall
  case isTrue hless =>
    rw [if_pos hless] at hrest
    have hboth := (hp.left hcall.moved).right hrest.moved
    refine ⟨hboth.moved, orderedOn_of_cuts hmeet ?_ hrest.sorted hboth.cut_t hboth.cut_h⟩
    exact hcall.sorted.congr fun i _ _ => hrest.moved.outside (.inl (by dsimp only at *; omega))
  case isFalse hless =>
    rw [if_neg hless] at hrest
    have hboth := (hp.right hcall.moved).left hrest.moved
    refine ⟨hboth.moved, orderedOn_of_cuts hmeet hrest.sorted ?_ hboth.cut_t hboth.cut_h⟩
    exact hcall.sorted.congr fun i _ _ => hrest.moved.outside (.inr (by dsimp only at *; omega))

/-- Both ranges lie in the old one. The call gets at most half of its slots, and the loop goes on with
    fewer than it had. -/
theorem chooseCall_shorter (hp : Partitioned comp head tail mem₀ mem h t) :
    let c := chooseCall head tail h t
    (head ≤ c.1.1 ∧ c.1.2 ≤ tail ∧ 2 * (c.1.2 + 1 - c.1.1) ≤ tail + 1 - head) ∧
      head ≤ c.2.1 ∧ c.2.2 ≤ tail ∧ c.2.2 - c.2.1 < tail - head := by
  obtain ⟨hstart, hstop, hmeet, hbelow, -, -, -⟩ := hp
  unfold chooseCall
  split
  case isTrue hless =>
    dsimp only
    omega
  case isFalse hless =>
    dsimp only
    omega

end Partitioned

theorem sorts_of_le (hle : tail ≤ head) : Sorts comp head tail mem mem where
  moved := rearranged_refl head tail mem
  sorted i j h1 h2 h3 := by omega

/-- The outer loop on a range of at most `n` slots, given that the call sorts ranges of half that. -/
theorem sortLoop_spec (hc : ThreeWay comp) {call : (ℤ → α) → ℤ → ℤ → Option (ℤ → α)} {n : ℤ}
    (hcall : 2 ≤ n → ∀ (mem : ℤ → α) (a b : ℤ), lo ≤ a → b ≤ hi → 2 * (b + 1 - a) ≤ n →
      ∃ mem', call mem a b = some mem' ∧ Sorts comp a b mem mem') :
    ∀ {rounds : ℕ} {mem : ℤ → α} {head tail : ℤ}, lo ≤ head → tail ≤ hi → tail - head ≤ rounds →
      tail + 1 - head ≤ n → ∃ mem', sortLoop comp lo hi call rounds mem head tail = some mem' ∧
        Sorts comp head tail mem mem'
  | 0, mem, head, tail, _, _, hrounds, _ => by
    have hle : tail ≤ head := by omega
    exact ⟨mem, if_neg (by omega), sorts_of_le hle⟩
  | rounds + 1, mem, head, tail, hlo, hhi, hrounds, hn => by
    by_cases hlt : head < tail
    · obtain ⟨mem₁, h, t, hpart, hp⟩ := partitionSlots_spec hc hlo hhi hlt mem
      obtain ⟨⟨hstart, hstop, hhalf⟩, hstart', hstop', hless⟩ := hp.chooseCall_shorter
      obtain ⟨mem₂, h2, hsort2⟩ := hcall (by omega) mem₁ _ _ (hlo.trans hstart) (hstop.trans hhi)
        (hhalf.trans hn)
      have hrest : ∃ mem₃, sortLoop comp lo hi call rounds mem₂ (chooseCall head tail h t).2.1
          (chooseCall head tail h t).2.2 = some mem₃ ∧ Sorts comp (chooseCall head tail h t).2.1
            (chooseCall head tail h t).2.2 mem₂ mem₃ :=
        sortLoop_spec hc hcall (hlo.trans hstart') (hstop'.trans hhi) (by omega) (by omega)
      obtain ⟨mem₃, h3, hsort3⟩ := hrest
      refine ⟨mem₃, ?_, hp.sorts hsort2 hsort3⟩
      simp only [sortLoop, if_pos hlt, hpart, h2, Option.bind_eq_bind, Option.bind_some]
      exact h3
    · exact ⟨mem, if_neg hlt, sorts_of_le (by omega)⟩

/-- With `frames` nested calls every range of fewer than `2 ^ frames` slots can be sorted. -/
theorem quicksort_spec (hc : ThreeWay comp) : ∀ {frames : ℕ} {mem : ℤ → α} {head tail : ℤ},
    lo ≤ head → tail ≤ hi → 0 < frames → tail + 1 - head < 2 ^ frames →
      ∃ mem', quicksort comp lo hi frames mem head tail = some mem' ∧ Sorts comp head tail mem mem'
  | 0, _, _, _, _, _, h0, _ => absurd h0 (lt_irrefl 0)
  | frames + 1, mem, head, tail, hlo, hhi, _, hlen => by
    refine sortLoop_spec hc (n := 2 ^ (frames + 1) - 1) (fun htwo mem a b ha hb hab => ?_) hlo hhi
      (by omega) (by omega)
    have hpow : (2 : ℤ) ^ (frames + 1) = 2 * 2 ^ frames := pow_succ' 2 frames
    refine quicksort_spec hc ha hb (Nat.pos_of_ne_zero ?_) (by omega)
    rintro rfl
    omega

/-- The calls are nested no deeper than the logarithm of the length. -/
theorem quicksort_log (hc : ThreeWay comp) (mem : ℤ → α) (head tail : ℤ) :
    ∃ mem', quicksort comp head tail (Nat.log 2 (tail + 1 - head).toNat + 1) mem head tail =
      some mem' ∧ Sorts comp head tail mem mem' := by
  refine quicksort_spec hc le_rfl le_rfl (Nat.succ_pos _) ?_
  have hlog := Nat.lt_pow_succ_log_self (b := 2) (by decide) (tail + 1 - head).toNat
  calc tail + 1 - head ≤ ((tail + 1 - head).toNat : ℤ) := Int.self_le_toNat _
    _ < 2 ^ (Nat.log 2 (tail + 1 - head).toNat + 1) := by exact_mod_cast hlog

end

/-- The values in the slots `head..tail` are those there were, in order. -/
structure IsSorted {α : Type} (comp : α → α → ℤ) (head tail : ℤ) (mem mem' : ℤ → α) : Prop where
  perm : (slotValues head tail mem').Perm (slotValues head tail mem)
  sorted : (slotValues head tail mem').Pairwise fun a b => comp a b ≤ 0
  kept : ∀ i, i < head ∨ tail < i → mem' i = mem i

theorem Sorts.isSorted {α : Type} {comp : α → α → ℤ} {head tail : ℤ} {mem mem' : ℤ → α}
    (h : Sorts comp head tail mem mem') : IsSorted comp head tail mem mem' where
  perm := h.moved.perm
  sorted := h.sorted.pairwise
  kept _ hout := h.moved.outside hout

/-- `quicksort` sorts any range with no more nested calls than the logarithm of its length and one, each
    on at most half of the slots, and touches no other slot; so does `array_sort` an array. -/
theorem array_sort_sorts {α : Type} (comp : α → α → ℤ) (hc : ThreeWay comp) :
    (∀ (mem : ℤ → α) (head tail : ℤ), ∃ mem',
      quicksort comp head tail (Nat.log 2 (tail + 1 - head).toNat + 1) mem head tail = some mem' ∧
        IsSorted comp head tail mem mem') ∧
    (∀ (mem : ℤ → α) (head tail : ℤ), head < tail → ∃ mem' h t,
      partitionSlots comp head tail mem head tail = some (mem', h, t) ∧
        let call := (chooseCall head tail h t).1
        head ≤ call.1 ∧ call.2 ≤ tail ∧ 2 * (call.2 + 1 - call.1) ≤ tail + 1 - head) ∧
    ∀ (mem : ℤ → α) (index : ℤ), ∃ mem',
      arraySort comp (Nat.log 2 index.toNat + 1) mem index = some mem' ∧
        IsSorted comp 0 (index - 1) mem mem' := by
  refine ⟨fun mem head tail => ?_, fun mem head tail hlt => ?_, fun mem index => ?_⟩
  · obtain ⟨mem', hrun, hsorts⟩ := quicksort_log hc mem head tail
    exact ⟨mem', hrun, hsorts.isSorted⟩
  · obtain ⟨mem', h, t, hpart, hp⟩ := partitionSlots_spec hc le_rfl le_rfl hlt mem
    exact ⟨mem', h, t, hpart, hp.chooseCall_shorter.1⟩
  · by_cases hone : 1 < index
    · obtain ⟨mem', hrun, hsorts⟩ := quicksort_log hc mem 0 (index - 1)
      rw [sub_add_cancel, sub_zero] at hrun
      exact ⟨mem', by rw [arraySort, if_pos hone, hrun], hsorts.isSorted⟩
    · exact ⟨mem, if_neg hone, (sorts_of_le (by omega)).isSorted⟩

theorem array_sort_sorts_ints : ∃ mem',
    arraySort (fun a b : ℤ => a - b) (Nat.log 2 3 + 1) (fun i => 2 - i) 3 = some mem' ∧
      IsSorted (fun a b : ℤ => a - b) 0 2 (fun i => 2 - i) mem' :=
  (array_sort_sorts (fun a b : ℤ => a - b)
    ⟨fun a b => by omega, fun a b c h h' => by omega⟩).2.2 (fun i => 2 - i) 3

end OpenMV.Collections
