import Mathlib.Algebra.Group.Nat.Defs
import Mathlib.Logic.Basic
import OpenMV.Schemes.Ring

/-! fifo_t | scheme:refinement | source:src/src/openmv/omv/img/collections.c

    A queue of blocks of bytes in a buffer that `fifo_alloc` gets once. Two indices go round it, and the length is kept
    apart. `fifo_poke` stores where the next `fifo_enqueue` will, without going on: that changes nothing unless the
    queue is full, and then the oldest element lies there. -/

namespace OpenMV.Collections
open Schemes

/-! ### The code -/

/-- The fields that `fifo_alloc` sets for good; the buffer of `size * data_len` bytes lies in memory. -/
structure FifoBuffer where
  size : ℕ
  dataLen : ℕ
  size_pos : 1 ≤ size
  size_lt : size < 2 ^ 64
  fits : size * dataLen < 2 ^ 64

/-- The bytes of an element. -/
abbrev FifoBuffer.Element (B : FifoBuffer) : Type := Fin B.dataLen → UInt8

/-- The other fields of `fifo_t`, with the bytes from `data` on. -/
structure FifoT where
  headPtr : ℕ
  tailPtr : ℕ
  len : ℕ
  data : ℕ → UInt8

def fifoAlloc (mem : ℕ → UInt8) : FifoT := ⟨0, 0, 0, mem⟩

def fifoClear (ptr : FifoT) : FifoT := { ptr with headPtr := 0, tailPtr := 0, len := 0 }

variable (B : FifoBuffer)

/-- The offset of an element, a `size_t`, if the bytes from there on are in the buffer. -/
def FifoBuffer.offset (index : ℕ) : Option ℕ :=
  let offset := index * B.dataLen % 2 ^ 64
  if offset + B.dataLen ≤ B.size * B.dataLen then some offset else none

/-- `memcpy` into the buffer. -/
def FifoBuffer.store (mem : ℕ → UInt8) (index : ℕ) (data : B.Element) : Option (ℕ → UInt8) :=
  (B.offset index).map fun offset k =>
    if h : offset ≤ k ∧ k - offset < B.dataLen then data ⟨k - offset, h.2⟩ else mem k

/-- `memcpy` out of the buffer. -/
def FifoBuffer.load (mem : ℕ → UInt8) (index : ℕ) : Option B.Element :=
  (B.offset index).map fun offset k => mem (offset + k)

def fifoSize (ptr : FifoT) : ℕ := ptr.len
def fifoIsNotEmpty (ptr : FifoT) : Bool := ptr.len ≠ 0
def fifoIsNotFull (ptr : FifoT) : Bool := ptr.len ≠ B.size

/-- `temp` -/
def FifoBuffer.advance (i : ℕ) : ℕ :=
  let temp := (i + 1) % 2 ^ 64
  if temp = B.size then 0 else temp

def fifoEnqueue (ptr : FifoT) (data : B.Element) : Option FifoT := do
  let mem ← B.store ptr.data ptr.headPtr data
  some { ptr with headPtr := B.advance ptr.headPtr, len := (ptr.len + 1) % 2 ^ 64, data := mem }

/-- `wanted` if `data` is not NULL. -/
def fifoDequeue (ptr : FifoT) (wanted : Bool) : Option (Option B.Element × FifoT) := do
  let data ← if wanted then (B.load ptr.data ptr.tailPtr).map some else some none
  some (data, { ptr with tailPtr := B.advance ptr.tailPtr, len := (ptr.len + 2 ^ 64 - 1) % 2 ^ 64 })

def fifoPoke (ptr : FifoT) (data : B.Element) : Option FifoT := do
  let mem ← B.store ptr.data ptr.headPtr data
  some { ptr with data := mem }

def fifoPeek (ptr : FifoT) : Option B.Element := B.load ptr.data ptr.tailPtr

/-! ### Sequences of calls -/

inductive FifoCall where
  | enqueue (data : B.Element)
  | dequeue (wanted : Bool)
  | peek
  | poke (data : B.Element)
  | clear

variable {B}

/-- What a call leaves, with what it has copied out. -/
def fifoCall (ptr : FifoT) : FifoCall B → Option (Option B.Element × FifoT)
  | .enqueue data => (fifoEnqueue B ptr data).map fun ptr => (none, ptr)
  | .dequeue wanted => fifoDequeue B ptr wanted
  | .peek => (fifoPeek B ptr).map fun data => (some data, ptr)
  | .poke data => (fifoPoke B ptr data).map fun ptr => (none, ptr)
  | .clear => some (none, fifoClear ptr)

/-- The test that comes before the call. -/
def Allowed (ptr : FifoT) : FifoCall B → Bool
  | .enqueue _ => fifoIsNotFull B ptr
  | .dequeue _ => fifoIsNotEmpty ptr
  | .peek => fifoIsNotEmpty ptr
  | .poke _ => true
  | .clear => true

/-- A call in a sequence: the elements copied out so far, and the fifo. -/
def callStep (s : List B.Element × FifoT) (c : FifoCall B) : Option (List B.Element × FifoT) :=
  (fifoCall s.2 c).map fun r => (s.1 ++ r.1.toList, r.2)

def callRun (ptr : FifoT) (calls : List (FifoCall B)) : Option (List B.Element × FifoT) :=
  calls.foldlM callStep ([], ptr)

/-- Each call comes behind its test. -/
def allAllowed : FifoT → List (FifoCall B) → Bool
  | _, [] => true
  | ptr, c :: calls => Allowed ptr c &&
    match fifoCall ptr c with
    | some (_, ptr') => allAllowed ptr' calls
    | none => true

/-! ### Queues -/

/-- A call to a queue: the elements that have come out so far, and those in it. -/
def queueStep (poke : B.Element → List B.Element → List B.Element) (s : List B.Element × List B.Element) :
    FifoCall B → List B.Element × List B.Element
  | .enqueue data => (s.1, s.2 ++ [data])
  | .dequeue wanted => (s.1 ++ (if wanted then s.2.head?.toList else []), s.2.tail)
  | .peek => (s.1 ++ s.2.head?.toList, s.2)
  | .poke data => (s.1, poke data s.2)
  | .clear => (s.1, [])

def queueRun (poke : B.Element → List B.Element → List B.Element) (calls : List (FifoCall B)) :
    List B.Element × List B.Element := calls.foldl (queueStep poke) ([], [])

/-- All accesses are inside the buffer, what comes out is what comes out of the queue, and `fifo_size` is its
    length. -/
def RefinesQueue (poke : B.Element → List B.Element → List B.Element) (mem : ℕ → UInt8)
    (calls : List (FifoCall B)) : Prop :=
  ∃ s, callRun (fifoAlloc mem) calls = some s ∧ s.1 = (queueRun poke calls).1 ∧
    fifoSize s.2 = (queueRun poke calls).2.length

/-- The oldest element of a full queue is replaced, and no element of any other. -/
def pokeQueue (data : B.Element) (queue : List B.Element) : List B.Element :=
  if queue.length = B.size then data :: queue.tail else queue

/-! ### One call -/

/-- The element in a slot of the buffer. -/
def FifoBuffer.element (B : FifoBuffer) (mem : ℕ → UInt8) (i : ℕ) : B.Element := fun k => mem (i * B.dataLen + k)

section Slots
variable {i j : ℕ}

/-- A slot ends before the next one begins. -/
theorem FifoBuffer.slot_le (B : FifoBuffer) (hij : i < j) : i * B.dataLen + B.dataLen ≤ j * B.dataLen := by
  rw [← Nat.succ_mul]
  exact Nat.mul_le_mul_right B.dataLen hij

theorem FifoBuffer.offset_eq (hi : i < B.size) : B.offset i = some (i * B.dataLen) := by
  have hle := B.slot_le hi
  have hfits := B.fits
  rw [FifoBuffer.offset, Nat.mod_eq_of_lt (by omega), if_pos hle]

theorem FifoBuffer.load_eq (hi : i < B.size) (mem : ℕ → UInt8) : B.load mem i = some (B.element mem i) := by
  rw [FifoBuffer.load, FifoBuffer.offset_eq hi]
  rfl

/-- A store fills its slot and no other. -/
theorem FifoBuffer.store_spec (hi : i < B.size) (mem : ℕ → UInt8) (data : B.Element) :
    ∃ mem', B.store mem i data = some mem' ∧ B.element mem' i = data ∧
      ∀ j, j ≠ i → B.element mem' j = B.element mem j := by
  rw [FifoBuffer.store, FifoBuffer.offset_eq hi]
  refine ⟨_, rfl, funext fun k => ?_, fun j hj => funext fun k => ?_⟩
  · have hk := k.isLt
    refine (dif_pos ⟨Nat.le_add_right _ _, by omega⟩).trans (congrArg data ?_)
    exact Fin.ext (Nat.add_sub_cancel_left _ _)
  · have hk := k.isLt
    refine dif_neg ?_
    rintro ⟨hle, hlt⟩
    rcases Nat.lt_or_gt_of_ne hj with hj | hj
    · have hbefore := B.slot_le hj
      omega
    · have hbehind := B.slot_le hj
      omega

theorem FifoBuffer.advance_eq (hi : i < B.size) : B.advance i = Ring.next B.size i := by
  have hsize := B.size_lt
  rw [FifoBuffer.advance, Ring.next, Nat.mod_eq_of_lt (by omega)]

end Slots

/-- The fifo holds the queue. -/
structure Holds (ptr : FifoT) (queue : List B.Element) : Prop where
  tail_lt : ptr.tailPtr < B.size
  len_le : ptr.len ≤ B.size
  head_eq : ptr.headPtr = Ring.slotAt B.size ptr.tailPtr ptr.len
  contents : Ring.contents (B.element ptr.data) B.size ptr.tailPtr ptr.len = queue

section Calls
variable {ptr : FifoT} {queue : List B.Element}

theorem Holds.length_eq (h : Holds ptr queue) : queue.length = ptr.len := by
  rw [← h.contents, Ring.contents, List.length_map, List.length_range]

theorem Holds.head_lt (h : Holds ptr queue) : ptr.headPtr < B.size := by
  rw [h.head_eq]
  exact Ring.at_lt h.tail_lt h.len_le

theorem Holds.empty (ptr : FifoT) : Holds (fifoClear ptr) ([] : List B.Element) where
  tail_lt := B.size_pos
  len_le := Nat.zero_le _
  head_eq := (Ring.at_zero B.size_pos).symm
  contents := rfl

theorem fifoEnqueue_spec (h : Holds ptr queue) (hroom : ptr.len ≠ B.size) (data : B.Element) :
    ∃ ptr', fifoEnqueue B ptr data = some ptr' ∧ Holds ptr' (queue ++ [data]) := by
  have hlen : ptr.len < B.size := Nat.lt_of_le_of_ne h.len_le hroom
  have hsize := B.size_lt
  obtain ⟨mem, hstore, hself, hother⟩ := FifoBuffer.store_spec h.head_lt ptr.data data
  have hadvance := FifoBuffer.advance_eq h.head_lt
  refine ⟨⟨B.advance ptr.headPtr, ptr.tailPtr, (ptr.len + 1) % 2 ^ 64, mem⟩, ?_, ?_⟩
  · rw [fifoEnqueue, hstore]
    rfl
  · rw [Nat.mod_eq_of_lt (by omega), hadvance]
    rw [h.head_eq] at hself hother ⊢
    refine ⟨h.tail_lt, hlen, Ring.next_at h.tail_lt hlen, ?_⟩
    rw [Ring.contents_push hlen hother, hself, h.contents]

/-- The oldest element is in the slot at `tail_ptr`. -/
theorem Holds.head (h : Holds ptr queue) (hsome : ptr.len ≠ 0) :
    B.load ptr.data ptr.tailPtr = some (B.element ptr.data ptr.tailPtr) ∧
      queue = B.element ptr.data ptr.tailPtr :: queue.tail := by
  obtain ⟨n, hn⟩ := Nat.exists_eq_succ_of_ne_zero hsome
  refine ⟨FifoBuffer.load_eq h.tail_lt _, ?_⟩
  have hle := h.len_le
  rw [hn] at hle
  rw [← h.contents, hn, Ring.contents_pop h.tail_lt hle]
  rfl

theorem fifoDequeue_spec (h : Holds ptr queue) (hsome : ptr.len ≠ 0) (wanted : Bool) :
    ∃ ptr', fifoDequeue B ptr wanted = some (if wanted then queue.head? else none, ptr') ∧ Holds ptr' queue.tail := by
  obtain ⟨n, hn⟩ := Nat.exists_eq_succ_of_ne_zero hsome
  obtain ⟨hload, hqueue⟩ := h.head hsome
  have hle : n + 1 ≤ B.size := by
    have hlen := h.len_le
    omega
  have hsize := B.size_lt
  have hadvance := FifoBuffer.advance_eq h.tail_lt
  have hmod : (ptr.len + 2 ^ 64 - 1) % 2 ^ 64 = n := by omega
  refine ⟨⟨ptr.headPtr, B.advance ptr.tailPtr, (ptr.len + 2 ^ 64 - 1) % 2 ^ 64, ptr.data⟩, ?_, ?_⟩
  · cases wanted with
    | false => rfl
    | true =>
      rw [fifoDequeue, if_pos rfl, hload, if_pos rfl, hqueue]
      rfl
  · rw [hadvance, hmod]
    refine ⟨Ring.next_lt h.tail_lt, Nat.le_of_succ_le hle, ?_, ?_⟩
    · rw [Ring.at_next hle, h.head_eq, hn]
    · rw [← h.contents, hn, Ring.contents_pop h.tail_lt hle]
      rfl

theorem fifoPoke_spec (h : Holds ptr queue) (data : B.Element) :
    ∃ ptr', fifoPoke B ptr data = some ptr' ∧ Holds ptr' (pokeQueue data queue) := by
  obtain ⟨mem, hstore, hself, hother⟩ := FifoBuffer.store_spec h.head_lt ptr.data data
  refine ⟨{ ptr with data := mem }, by rw [fifoPoke, hstore]; rfl, h.tail_lt, h.len_le, h.head_eq, ?_⟩
  rw [h.head_eq] at hself hother
  have hlength := h.length_eq
  unfold pokeQueue
  split_ifs with hfull
  · have hpos := B.size_pos
    obtain ⟨n, hn⟩ := Nat.exists_eq_succ_of_ne_zero (by omega : ptr.len ≠ 0)
    have hsize : n + 1 = B.size := by omega
    have hslot : Ring.slotAt B.size ptr.tailPtr ptr.len = ptr.tailPtr := by
      rw [← hlength, hfull]
      exact Ring.at_size
    rw [← h.contents]
    rw [hslot] at hself
    rw [hn] at hother
    show Ring.contents (B.element mem) B.size ptr.tailPtr ptr.len = _
    rw [hn, Ring.contents_full h.tail_lt hsize hother, hself]
  · have hlt : ptr.len < B.size := Nat.lt_of_le_of_ne h.len_le fun heq => hfull (hlength.trans heq)
    rw [← h.contents]
    exact Ring.contents_next hlt hother

/-- An allowed call does to the fifo what it does to the queue, and copies the same element out. -/
theorem fifoCall_spec (h : Holds ptr queue) (c : FifoCall B) (hc : Allowed ptr c = true) (outs : List B.Element) :
    ∃ out ptr', fifoCall ptr c = some (out, ptr') ∧ outs ++ out.toList = (queueStep pokeQueue (outs, queue) c).1 ∧
      Holds ptr' (queueStep pokeQueue (outs, queue) c).2 := by
  cases c with
  | enqueue data =>
    obtain ⟨ptr', hrun, hptr'⟩ := fifoEnqueue_spec h (by simpa [Allowed, fifoIsNotFull] using hc) data
    exact ⟨none, ptr', by rw [fifoCall, hrun]; rfl, List.append_nil _, hptr'⟩
  | dequeue wanted =>
    obtain ⟨ptr', hrun, hptr'⟩ := fifoDequeue_spec h (by simpa [Allowed, fifoIsNotEmpty] using hc) wanted
    refine ⟨_, ptr', hrun, ?_, hptr'⟩
    cases wanted with
    | false => rfl
    | true => rfl
  | peek =>
    obtain ⟨hload, hqueue⟩ := h.head (by simpa [Allowed, fifoIsNotEmpty] using hc)
    refine ⟨some (B.element ptr.data ptr.tailPtr), ptr, by rw [fifoCall, fifoPeek, hload]; rfl, ?_, h⟩
    rw [hqueue]
    rfl
  | poke data =>
    obtain ⟨ptr', hrun, hptr'⟩ := fifoPoke_spec h data
    exact ⟨none, ptr', by rw [fifoCall, hrun]; rfl, List.append_nil _, hptr'⟩
  | clear => exact ⟨none, fifoClear ptr, rfl, List.append_nil _, Holds.empty ptr⟩

theorem callRun_spec : ∀ (calls : List (FifoCall B)) {ptr : FifoT} {outs queue : List B.Element},
    Holds ptr queue → allAllowed ptr calls = true →
    ∃ s, calls.foldlM callStep (outs, ptr) = some s ∧ s.1 = (calls.foldl (queueStep pokeQueue) (outs, queue)).1 ∧
      Holds s.2 (calls.foldl (queueStep pokeQueue) (outs, queue)).2
  | [], ptr, outs, queue, h, _ => ⟨(outs, ptr), rfl, rfl, h⟩
  | c :: calls, ptr, outs, queue, h, hallowed => by
      rw [allAllowed, Bool.and_eq_true] at hallowed
      obtain ⟨hc, hrest⟩ := hallowed
      obtain ⟨out, ptr', hcall, houts, hptr'⟩ := fifoCall_spec h c hc outs
      rw [hcall] at hrest
      obtain ⟨s, hs, houts', hholds⟩ := callRun_spec calls hptr' hrest
      refine ⟨s, ?_, houts', hholds⟩
      rw [List.foldlM_cons, callStep, hcall, Option.map_some, houts]
      exact hs

end Calls

/-- A fifo is a queue, but for a full one, where `fifo_poke` replaces the oldest element. -/
theorem fifo_refines_queue (B : FifoBuffer) (mem : ℕ → UInt8) (calls : List (FifoCall B))
    (hallowed : allAllowed (fifoAlloc mem) calls = true) : RefinesQueue pokeQueue mem calls := by
  obtain ⟨s, hs, houts, hholds⟩ := callRun_spec calls (Holds.empty (fifoAlloc mem)) hallowed
  exact ⟨s, hs, houts, hholds.length_eq.symm⟩

/-- Room for one element of one byte. -/
def oneByte : FifoBuffer := ⟨1, 1, by decide, by decide, by decide⟩

def onlyByte (data : oneByte.Element) : UInt8 := data ⟨0, by decide⟩

/-- An element goes in, another one is stored over it, and one comes out. -/
def pokedFull : List (FifoCall oneByte) := [.enqueue fun _ => 1, .poke fun _ => 2, .dequeue true]

/-- Room for three elements of two bytes. -/
def threeWords : FifoBuffer := ⟨3, 2, by decide, by decide, by decide⟩

def oneWord (low : UInt8) : threeWords.Element := fun k => if k.val = 0 then low else 0x80

/-- The fifo is filled, goes around its end, is poked while it is full and while it is not, and emptied. -/
def aroundTheEnd : List (FifoCall threeWords) :=
  [.enqueue (oneWord 1), .enqueue (oneWord 2), .enqueue (oneWord 3), .dequeue true, .enqueue (oneWord 4),
    .poke (oneWord 5), .peek, .dequeue false, .poke (oneWord 6), .enqueue (oneWord 7), .dequeue true, .dequeue true,
    .dequeue true]

theorem fifo_refines_queue_around : RefinesQueue pokeQueue (fun _ => 0) aroundTheEnd :=
  fifo_refines_queue threeWords (fun _ => 0) aroundTheEnd (by decide)

/-- What comes out is not what has gone in. -/
theorem fifo_poke_full_replaces : ¬ ∀ (B : FifoBuffer) (mem : ℕ → UInt8) (calls : List (FifoCall B)),
    allAllowed (fifoAlloc mem) calls = true → RefinesQueue (fun _ queue => queue) mem calls := by
  intro hall
  obtain ⟨s, hs, houts, -⟩ := hall oneByte (fun _ => 0) pokedFull (by decide)
  have hrun : (callRun (fifoAlloc fun _ => 0) pokedFull).map (fun s => s.1.map onlyByte) = some [2] := by decide
  rw [hs, Option.map_some, houts] at hrun
  exact absurd hrun (by decide)

end OpenMV.Collections
