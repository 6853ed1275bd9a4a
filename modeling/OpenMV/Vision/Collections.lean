import OpenMV.Schemes.LinkedList

/-! list_t | scheme:refinement | source:src/src/openmv/omv/img/collections.c

    The list the vision functions return their findings in: a header with the two ends and the size,
    over doubly linked nodes that `xalloc` makes and `xfree` frees. A load from NULL or from a freed
    node is a fault, so every operation is partial. `list_copy` copies the header alone, and the two
    headers are the same list from then on; `zbar.c`, `line.c`, `hough.c` and `blob.c` use it to hand a
    local list over to `out`.

    Read as sequences, the operations do what their names say as long as nobody takes the last element
    out: `list_pop_back` then stores through NULL, and `list_pop_front` leaves `tail_ptr` at the node it
    has freed. -/

namespace OpenMV.Collections
open Schemes

variable {α : Type}

/-- `list_t`. The elements are of one type here, so their length in bytes is not kept. -/
structure ListT where
  headPtr : ℕ
  tailPtr : ℕ
  size : ℕ
deriving DecidableEq

/-- `a - b` of two `size_t`. -/
def subSize (a b : ℕ) : ℕ := if b ≤ a then a - b else a + 2 ^ 64 - b

def listInit : ListT := ⟨0, 0, 0⟩

/-- `memcpy(dst, src, sizeof(list_t))`. -/
def listCopy (src : ListT) : ListT := src

def listFree (h : Heap α) (ptr : ListT) : Option (Heap α) := h.freeAll h.fresh ptr.headPtr

def listClear (h : Heap α) (ptr : ListT) : Option (Heap α × ListT) := do
  let h ← listFree h ptr
  return (h, ⟨0, 0, 0⟩)

/-- The new node is filled in before it is linked; an `xalloc` that fails raises before that. -/
def listPushFront (h : Heap α) (ptr : ListT) (data : α) : Option (Heap α × ListT) :=
  if ptr.size ≠ 0 then do
    let (tmp, h) := h.alloc ⟨ptr.headPtr, 0, data⟩
    let h ← h.setPrev ptr.headPtr tmp
    return (h, ⟨tmp, ptr.tailPtr, ptr.size + 1⟩)
  else
    let (tmp, h) := h.alloc ⟨0, 0, data⟩
    some (h, ⟨tmp, tmp, ptr.size + 1⟩)

def listPushBack (h : Heap α) (ptr : ListT) (data : α) : Option (Heap α × ListT) :=
  if ptr.size ≠ 0 then do
    let (tmp, h) := h.alloc ⟨0, ptr.tailPtr, data⟩
    let h ← h.setNext ptr.tailPtr tmp
    return (h, ⟨ptr.headPtr, tmp, ptr.size + 1⟩)
  else
    let (tmp, h) := h.alloc ⟨0, 0, data⟩
    some (h, ⟨tmp, tmp, ptr.size + 1⟩)

/-- The element is returned beside the list; a caller that passes NULL for it does not get it. -/
def listPopFront (h : Heap α) (ptr : ListT) : Option (Heap α × ListT × α) := do
  let tmp ← h.load ptr.headPtr
  let h ← if tmp.next ≠ 0 then h.setPrev tmp.next 0 else some h
  let h ← h.free ptr.headPtr
  return (h, ⟨tmp.next, ptr.tailPtr, subSize ptr.size 1⟩, tmp.data)

/-- Unlike `list_pop_front` there is no test that another node is left. -/
def listPopBack (h : Heap α) (ptr : ListT) : Option (Heap α × ListT × α) := do
  let tmp ← h.load ptr.tailPtr
  let h ← h.setNext tmp.prev 0
  let h ← h.free ptr.tailPtr
  return (h, ⟨ptr.headPtr, tmp.prev, subSize ptr.size 1⟩, tmp.data)

def listGetFront (h : Heap α) (ptr : ListT) : Option α := (h.load ptr.headPtr).map Node.data

def listGetBack (h : Heap α) (ptr : ListT) : Option α := (h.load ptr.tailPtr).map Node.data

def listSetFront (h : Heap α) (ptr : ListT) (data : α) : Option (Heap α) :=
  h.setData ptr.headPtr data

def listSetBack (h : Heap α) (ptr : ListT) (data : α) : Option (Heap α) :=
  h.setData ptr.tailPtr data

/-- The walk to an inner node that the four indexed functions share: from the nearer end. -/
def walkTo (h : Heap α) (ptr : ListT) (index : ℕ) : Option ℕ :=
  if index < ptr.size >>> 1 then h.walkNext index ptr.headPtr
  else h.walkPrev (subSize (subSize ptr.size index) 1) ptr.tailPtr

def listInsert (h : Heap α) (ptr : ListT) (data : α) (index : ℕ) : Option (Heap α × ListT) :=
  if index = 0 then listPushFront h ptr data
  else if index ≥ ptr.size then listPushBack h ptr data
  else do
    let i ← walkTo h ptr index
    let n ← h.load i
    let (tmp, h) := h.alloc ⟨i, n.prev, data⟩
    let h ← h.setNext n.prev tmp
    let h ← h.setPrev i tmp
    return (h, { ptr with size := ptr.size + 1 })

def listRemove (h : Heap α) (ptr : ListT) (index : ℕ) : Option (Heap α × ListT × α) :=
  if index = 0 then listPopFront h ptr
  else if index ≥ subSize ptr.size 1 then listPopBack h ptr
  else do
    let i ← walkTo h ptr index
    let n ← h.load i
    let h ← h.setNext n.prev n.next
    let h ← h.setPrev n.next n.prev
    let h ← h.free i
    return (h, { ptr with size := subSize ptr.size 1 }, n.data)

def listGet (h : Heap α) (ptr : ListT) (index : ℕ) : Option α :=
  if index = 0 then listGetFront h ptr
  else if index ≥ subSize ptr.size 1 then listGetBack h ptr
  else do
    let i ← walkTo h ptr index
    (h.load i).map Node.data

def listSet (h : Heap α) (ptr : ListT) (data : α) (index : ℕ) : Option (Heap α) :=
  if index = 0 then listSetFront h ptr data
  else if index ≥ subSize ptr.size 1 then listSetBack h ptr data
  else do
    let i ← walkTo h ptr index
    h.setData i data

def iteratorStartFromHead (ptr : ListT) : ℕ := ptr.headPtr

def iteratorStartFromTail (ptr : ListT) : ℕ := ptr.tailPtr

/-! ### What the lists are for: finite sequences -/

/-- A call on one list. `iterateNext` and `iteratePrev` are the loops over an iterator from the head
    and from the tail, with `iterator_get` at every node. -/
inductive Call (α : Type)
  | clear
  | pushFront (data : α)
  | pushBack (data : α)
  | popFront
  | popBack
  | insert (data : α) (index : ℕ)
  | remove (index : ℕ)
  | get (index : ℕ)
  | set (data : α) (index : ℕ)
  | iterateNext
  | iteratePrev

/-- The call as the code makes it: the heap and the header after it, and the elements it hands out. -/
def Call.exec : Call α → Heap α → ListT → Option (Heap α × ListT × List α)
  | clear, h, ptr => (listClear h ptr).map fun r => (r.1, r.2, [])
  | pushFront x, h, ptr => (listPushFront h ptr x).map fun r => (r.1, r.2, [])
  | pushBack x, h, ptr => (listPushBack h ptr x).map fun r => (r.1, r.2, [])
  | popFront, h, ptr => (listPopFront h ptr).map fun r => (r.1, r.2.1, [r.2.2])
  | popBack, h, ptr => (listPopBack h ptr).map fun r => (r.1, r.2.1, [r.2.2])
  | insert x i, h, ptr => (listInsert h ptr x i).map fun r => (r.1, r.2, [])
  | remove i, h, ptr => (listRemove h ptr i).map fun r => (r.1, r.2.1, [r.2.2])
  | get i, h, ptr => (listGet h ptr i).map fun x => (h, ptr, [x])
  | set x i, h, ptr => (listSet h ptr x i).map fun h' => (h', ptr, [])
  | iterateNext, h, ptr => (h.visitNext h.fresh (iteratorStartFromHead ptr)).map fun xs => (h, ptr, xs)
  | iteratePrev, h, ptr => (h.visitPrev h.fresh (iteratorStartFromTail ptr)).map fun xs => (h, ptr, xs)

/-- What the call is for: the sequence after it, and the elements it hands out. -/
def Call.spec : Call α → List α → List α × List α
  | clear, _ => ([], [])
  | pushFront x, xs => (x :: xs, [])
  | pushBack x, xs => (xs ++ [x], [])
  | popFront, xs => (xs.tail, xs.head?.toList)
  | popBack, xs => (xs.dropLast, xs.getLast?.toList)
  | insert x i, xs => (xs.take i ++ x :: xs.drop i, [])
  | remove i, xs => (xs.eraseIdx (min i (xs.length - 1)), xs[min i (xs.length - 1)]?.toList)
  | get i, xs => (xs, xs[min i (xs.length - 1)]?.toList)
  | set x i, xs => (xs.set (min i (xs.length - 1)) x, [])
  | iterateNext, xs => (xs, xs)
  | iteratePrev, xs => (xs, xs.reverse)

/-- Pops, gets, sets and removes. -/
def Call.needsElement : Call α → Bool
  | popFront | popBack | remove _ | get _ | set _ _ => true
  | _ => false

/-- Pops and removes. -/
def Call.takesElement : Call α → Bool
  | popFront | popBack | remove _ => true
  | _ => false

/-- Everything but gets and iterations. -/
def Call.changes : Call α → Bool
  | get _ | iterateNext | iteratePrev => false
  | _ => true

/-! ### One list in the heap -/

/-- The header over the nodes `ns`. With no node left `tail_ptr` may be anything, since a push looks at
    the size alone. -/
structure Linked (h : Heap α) (ptr : ListT) (ns : List (ℕ × α)) : Prop where
  seg : Seg h.nodes 0 0 ns
  nodup : (ptrs ns).Nodup
  head : ptr.headPtr = firstPtr 0 ns
  tail : ns ≠ [] → ptr.tailPtr = lastPtr 0 ns
  size : ptr.size = ns.length

/-- What a call on a list with the nodes `ns` does: a list with the nodes `ns'` is left, whose nodes are
    old ones of this list or new ones, and no node of another list is touched. -/
structure Effect (h : Heap α) (ns : List (ℕ × α)) (h' : Heap α) (ptr' : ListT)
    (ns' : List (ℕ × α)) : Prop where
  repr : Linked h' ptr' ns'
  bounded : h'.Bounded
  own : ∀ p ∈ ptrs ns', p ∈ ptrs ns ∨ h.fresh ≤ p
  keeps : ∀ p < h.fresh, p ∉ ptrs ns → h'.nodes p = h.nodes p

theorem Linked.lt_fresh {h : Heap α} {ptr : ListT} {ns : List (ℕ × α)} (hr : Linked h ptr ns)
    (hb : h.Bounded) {p : ℕ} (hp : p ∈ ptrs ns) : p < h.fresh := by
  obtain ⟨-, n, hn⟩ := hr.seg.live p hp
  exact hb.live hn

theorem Linked.fresh_notMem {h : Heap α} {ptr : ListT} {ns : List (ℕ × α)} (hr : Linked h ptr ns)
    (hb : h.Bounded) : h.fresh ∉ ptrs ns := fun hp => lt_irrefl _ (hr.lt_fresh hb hp)

theorem Linked.size_eq_zero {h : Heap α} {ptr : ListT} {ns : List (ℕ × α)} (hr : Linked h ptr ns) :
    ptr.size = 0 ↔ ns = [] := by
  rw [hr.size, List.length_eq_zero_iff]

/-- A call that changes nothing. -/
theorem Linked.effect_refl {h : Heap α} {ptr : ListT} {ns : List (ℕ × α)} (hr : Linked h ptr ns)
    (hb : h.Bounded) : Effect h ns h ptr ns := ⟨hr, hb, fun _ hp => .inl hp, fun _ _ _ => rfl⟩

theorem subSize_of_le {a b : ℕ} (h : b ≤ a) : subSize a b = a - b := if_pos h

/-- A new node between `ms` and `ns`: what is left to show once the links are right. -/
theorem Linked.effect_insert {h h' : Heap α} {ptr ptr' : ListT} {x : α} {ns₀ : List (ℕ × α)}
    (hr : Linked h ptr ns₀) (hb : h.Bounded) (ms ns : List (ℕ × α)) (hns : ns₀ = ms ++ ns)
    (hseg : Seg h'.nodes 0 0 (ms ++ (h.fresh, x) :: ns)) (hb' : h'.Bounded)
    (hhead : ptr'.headPtr = firstPtr h.fresh ms) (htail : ptr'.tailPtr = lastPtr h.fresh ns)
    (hsize : ptr'.size = ptr.size + 1)
    (hkeep : ∀ p < h.fresh, p ∉ ptrs ns₀ → h'.nodes p = h.nodes p) :
    Effect h ns₀ h' ptr' (ms ++ (h.fresh, x) :: ns) := by
  subst hns
  have hnot := hr.fresh_notMem hb
  have hnd := hr.nodup
  rw [ptrs_append] at hnot hnd
  refine ⟨⟨hseg, ?_, ?_, fun _ => ?_, ?_⟩, hb', fun p hp => ?_, hkeep⟩
  · rw [ptrs_append, ptrs_cons, List.nodup_middle, List.nodup_cons]
    exact ⟨hnot, hnd⟩
  · rw [hhead, firstPtr_append, firstPtr_cons]
  · rw [htail, lastPtr_append, lastPtr_cons]
  · rw [hsize, hr.size, List.length_append, List.length_append, List.length_cons, Nat.add_assoc]
  · rw [ptrs_append, ptrs_cons, List.mem_append, List.mem_cons] at hp
    rw [ptrs_append, List.mem_append]
    rcases hp with hp | rfl | hp
    · exact .inl (.inl hp)
    · exact .inr le_rfl
    · exact .inl (.inr hp)

/-- The same for a node taken out between `ms` and `ns`. -/
theorem Linked.effect_remove {h h' : Heap α} {ptr ptr' : ListT} {n : ℕ × α} {ns₀ ns' : List (ℕ × α)}
    (hr : Linked h ptr ns₀) (ms ns : List (ℕ × α)) (hns : ns₀ = ms ++ n :: ns) (hns' : ns' = ms ++ ns)
    (hseg : Seg h'.nodes 0 0 ns') (hb' : h'.Bounded) (hhead : ptr'.headPtr = firstPtr 0 ns')
    (htail : ns' ≠ [] → ptr'.tailPtr = lastPtr 0 ns') (hsize : ptr'.size = subSize ptr.size 1)
    (hkeep : ∀ p < h.fresh, p ∉ ptrs ns₀ → h'.nodes p = h.nodes p) : Effect h ns₀ h' ptr' ns' := by
  subst hns hns'
  have hsub : (ms ++ ns).Sublist (ms ++ n :: ns) := (List.sublist_cons_self n ns).append_left ms
  refine ⟨⟨hseg, (hsub.map _).nodup hr.nodup, hhead, htail, ?_⟩, hb', fun p hp => ?_, hkeep⟩
  · have hlen := hr.size
    rw [List.length_append, List.length_cons] at hlen
    rw [hsize, subSize_of_le (by omega), hlen, List.length_append]
    omega
  · exact .inl ((hsub.map _).subset hp)

theorem Linked.tail_of_closed {h : Heap α} {ptr : ListT} {ns : List (ℕ × α)} (hr : Linked h ptr ns)
    (hclosed : ptr.size = 0 → ptr.tailPtr = 0) : ptr.tailPtr = lastPtr 0 ns := by
  by_cases hns : ns = []
  · rw [hclosed (hr.size_eq_zero.2 hns), hns, lastPtr_nil]
  · exact hr.tail hns

/-! ### The ends -/

theorem listPushFront_effect {h : Heap α} {ptr : ListT} {ns : List (ℕ × α)} (hb : h.Bounded)
    (hr : Linked h ptr ns) (x : α) : ∃ h' ptr', listPushFront h ptr x = some (h', ptr') ∧
      Effect h ns h' ptr' ((h.fresh, x) :: ns) := by
  have hnot := hr.fresh_notMem hb
  have hpos : h.fresh ≠ 0 := Nat.ne_of_gt hb.pos
  match ns, hr, hnot with
  | [], hr, _ =>
    refine ⟨_, _, by rw [listPushFront, if_neg (not_not.2 (hr.size_eq_zero.2 rfl))], ?_⟩
    exact hr.effect_insert hb [] [] rfl ⟨hpos, h.alloc_nodes_self _, trivial⟩ (hb.alloc _) rfl rfl rfl
      fun p hp _ => Heap.alloc_nodes_of_lt hp
  | n :: ns, hr, hnot =>
    have hsize : ptr.size ≠ 0 := fun h0 => List.cons_ne_nil _ _ (hr.size_eq_zero.1 h0)
    have hlt := hr.lt_fresh hb (List.mem_cons_self ..)
    have hseg : Seg (h.alloc ⟨n.1, 0, x⟩).2.nodes 0 0 (n :: ns) := hr.seg.frame_update hnot
    obtain ⟨hset, hseg'⟩ := Heap.setPrev_first h.fresh hseg hr.nodup
    refine ⟨_, ⟨h.fresh, ptr.tailPtr, ptr.size + 1⟩, ?_, hr.effect_insert hb [] (n :: ns) rfl
      ⟨hpos, ?_, hseg'⟩ ((hb.alloc _).put (hlt.trans (Nat.lt_succ_self _))) rfl
      (hr.tail (List.cons_ne_nil _ _)) rfl ?_⟩
    · rw [listPushFront, if_pos hsize, hr.head]
      exact congrArg (Option.bind · _) hset
    · rw [Heap.put_nodes_of_ne (Nat.ne_of_gt hlt)]
      exact h.alloc_nodes_self _
    · intro p hp hpn
      rw [Heap.put_keeps (List.mem_cons_self ..) hpn, Heap.alloc_nodes_of_lt hp]

theorem Linked.tail_concat {h : Heap α} {ptr : ListT} {ms : List (ℕ × α)} {n : ℕ × α}
    (hr : Linked h ptr (ms ++ [n])) : ptr.tailPtr = n.1 := by
  rw [hr.tail (List.append_ne_nil_of_right_ne_nil _ (List.cons_ne_nil _ _)), lastPtr_append,
    lastPtr_cons, lastPtr_nil]

theorem listPushBack_effect {h : Heap α} {ptr : ListT} {ns : List (ℕ × α)} (hb : h.Bounded)
    (hr : Linked h ptr ns) (x : α) : ∃ h' ptr', listPushBack h ptr x = some (h', ptr') ∧
      Effect h ns h' ptr' (ns ++ [(h.fresh, x)]) := by
  have hnot := hr.fresh_notMem hb
  have hpos : h.fresh ≠ 0 := Nat.ne_of_gt hb.pos
  rcases List.eq_nil_or_concat' ns with rfl | ⟨ms, n, rfl⟩
  · refine ⟨_, _, by rw [listPushBack, if_neg (not_not.2 (hr.size_eq_zero.2 rfl))], ?_⟩
    exact hr.effect_insert hb [] [] rfl ⟨hpos, h.alloc_nodes_self _, trivial⟩ (hb.alloc _) rfl rfl rfl
      fun p hp _ => Heap.alloc_nodes_of_lt hp
  · have hne : ms ++ [n] ≠ [] := List.append_ne_nil_of_right_ne_nil _ (List.cons_ne_nil _ _)
    have hsize : ptr.size ≠ 0 := fun h0 => hne (hr.size_eq_zero.1 h0)
    have hmem : n.1 ∈ ptrs (ms ++ [n]) := by simp
    have hlt := hr.lt_fresh hb hmem
    have hseg : Seg (h.alloc ⟨0, n.1, x⟩).2.nodes 0 0 (ms ++ [n]) := hr.seg.frame_update hnot
    obtain ⟨hset, hseg'⟩ := Heap.setNext_last h.fresh hseg hr.nodup
    refine ⟨_, ⟨ptr.headPtr, h.fresh, ptr.size + 1⟩, ?_, hr.effect_insert hb (ms ++ [n]) []
      (List.append_nil _).symm (seg_concat_append.2 ⟨hseg', hpos, ?_, trivial⟩)
      ((hb.alloc _).put (hlt.trans (Nat.lt_succ_self _))) (hr.head.trans ?_) rfl rfl ?_⟩
    · rw [listPushBack, if_pos hsize, hr.tail_concat]
      exact congrArg (Option.bind · _) hset
    · rw [Heap.put_nodes_of_ne (Nat.ne_of_gt hlt)]
      exact h.alloc_nodes_self _
    · rw [firstPtr_append, firstPtr_append, firstPtr_cons, firstPtr_cons]
    · intro p hp hpn
      rw [Heap.put_keeps hmem hpn, Heap.alloc_nodes_of_lt hp]

/-- Taking the first element works on every non-empty list; with none left `tail_ptr` stays as it is. -/
theorem listPopFront_effect {h : Heap α} {ptr : ListT} {n : ℕ × α} {ns : List (ℕ × α)}
    (hb : h.Bounded) (hr : Linked h ptr (n :: ns)) :
    ∃ h' ptr', listPopFront h ptr = some (h', ptr', n.2) ∧ Effect h (n :: ns) h' ptr' ns := by
  obtain ⟨h0, hn, hs⟩ := hr.seg
  have hhead : ptr.headPtr = n.1 := hr.head
  have hlt := hr.lt_fresh hb (List.mem_cons_self ..)
  have hnd := List.nodup_cons.1 hr.nodup
  match ns, hr, hs, hnd with
  | [], hr, hs, hnd =>
    refine ⟨h.put n.1 none, ⟨0, ptr.tailPtr, subSize ptr.size 1⟩, ?_, hr.effect_remove [] [] rfl rfl
      trivial (hb.put hlt) rfl (fun hne => absurd rfl hne) rfl fun p _ hp => ?_⟩
    · simp only [listPopFront, hhead, Heap.load_of_node h0 hn, Heap.free_of_node h0 hn, firstPtr_nil,
        ne_eq, not_true, if_false, bind, Option.bind_some, pure]
    · exact Heap.put_keeps (List.mem_cons_self ..) hp
  | m :: ns, hr, hs, hnd =>
    obtain ⟨hset, hseg⟩ := Heap.setPrev_first 0 hs hnd.2
    have hm : m.1 ∈ ptrs (n :: m :: ns) := by simp
    have hn' : (h.put m.1 (some ⟨firstPtr 0 ns, 0, m.2⟩)).nodes n.1 = _ :=
      (Heap.put_keeps (List.mem_cons_self ..) hnd.1).trans hn
    refine ⟨(h.put m.1 (some ⟨firstPtr 0 ns, 0, m.2⟩)).put n.1 none,
      ⟨m.1, ptr.tailPtr, subSize ptr.size 1⟩, ?_, hr.effect_remove [] (m :: ns) rfl rfl
      (hseg.frame_update hnd.1) ((hb.put (hr.lt_fresh hb hm)).put hlt) rfl (fun _ => ?_) rfl
      fun p _ hp => ?_⟩
    · simp only [listPopFront, hhead, Heap.load_of_node h0 hn, firstPtr_cons, ne_eq, hs.1,
        not_false_eq_true, if_true, hset, Heap.free_of_node h0 hn', bind, Option.bind_some, pure]
    · exact hr.tail (List.cons_ne_nil _ _)
    · rw [Heap.put_keeps (List.mem_cons_self ..) hp, Heap.put_keeps hm hp]

/-- Taking the last element, with another one before it. -/
theorem listPopBack_effect {h : Heap α} {ptr : ListT} {m n : ℕ × α} {ms : List (ℕ × α)}
    (hb : h.Bounded) (hr : Linked h ptr (ms ++ [m, n])) :
    ∃ h' ptr', listPopBack h ptr = some (h', ptr', n.2) ∧
      Effect h (ms ++ [m, n]) h' ptr' (ms ++ [m]) := by
  have heq : ms ++ [m, n] = (ms ++ [m]) ++ [n] := by simp
  rw [heq] at hr ⊢
  obtain ⟨hs, h0, hn, -⟩ := seg_concat_append.1 hr.seg
  rw [firstPtr_nil] at hn
  have hnd := hr.nodup
  rw [ptrs_append, List.nodup_append] at hnd
  have hnm : n.1 ∉ ptrs (ms ++ [m]) := fun hm => hnd.2.2 _ hm _ (List.mem_cons_self ..) rfl
  have hm : m.1 ∈ ptrs ((ms ++ [m]) ++ [n]) := by simp
  have hnmem : n.1 ∈ ptrs ((ms ++ [m]) ++ [n]) := by simp
  obtain ⟨hset, hseg⟩ := Heap.setNext_last 0 hs hnd.1
  have hn' : (h.put m.1 (some ⟨0, lastPtr 0 ms, m.2⟩)).nodes n.1 = _ :=
    (Heap.put_keeps (by simp) hnm).trans hn
  refine ⟨(h.put m.1 (some ⟨0, lastPtr 0 ms, m.2⟩)).put n.1 none,
    ⟨ptr.headPtr, m.1, subSize ptr.size 1⟩, ?_, hr.effect_remove (ms ++ [m]) [] rfl
    (List.append_nil _).symm (hseg.frame_update hnm)
    ((hb.put (hr.lt_fresh hb hm)).put (hr.lt_fresh hb hnmem)) (hr.head.trans ?_) (fun _ => ?_) rfl
    fun p _ hp => ?_⟩
  · simp only [listPopBack, hr.tail_concat, Heap.load_of_node h0 hn, hset, Heap.free_of_node h0 hn',
      bind, Option.bind_some, pure]
  · rw [firstPtr_append, firstPtr_append, firstPtr_append, firstPtr_cons, firstPtr_cons]
  · rw [lastPtr_append, lastPtr_cons, lastPtr_nil]
  · rw [Heap.put_keeps hnmem hp, Heap.put_keeps hm hp]

/-! ### Inner nodes -/

/-- From whichever end it starts, the walk ends at the node with that index. -/
theorem walkTo_eq {h : Heap α} {ptr : ListT} {ms ns : List (ℕ × α)} {n : ℕ × α}
    (hr : Linked h ptr (ms ++ n :: ns)) : walkTo h ptr ms.length = some n.1 := by
  have hsize := hr.size
  rw [List.length_append, List.length_cons] at hsize
  by_cases hlt : ms.length < ptr.size >>> 1
  · rw [walkTo, if_pos hlt, hr.head]
    exact Heap.walkNext_seg hr.seg
  · have hback : subSize (subSize ptr.size ms.length) 1 = ns.length := by
      rw [subSize_of_le (by omega : ms.length ≤ ptr.size), subSize_of_le (by omega)]
      omega
    rw [walkTo, if_neg hlt, hback, hr.tail (by simp)]
    exact Heap.walkPrev_seg hr.seg

/-- The first address of one part of a list is not in the part before it. -/
theorem notMem_of_nodup {ms ns : List (ℕ × α)} {n : ℕ × α} (hnd : (ptrs (ms ++ n :: ns)).Nodup) :
    n.1 ∉ ptrs ms ∧ n.1 ∉ ptrs ns ∧ (ptrs ms).Nodup ∧ (ptrs (n :: ns)).Nodup := by
  rw [ptrs_append, List.nodup_append] at hnd
  exact ⟨fun hm => hnd.2.2 _ hm _ (List.mem_cons_self ..) rfl, (List.nodup_cons.1 hnd.2.1).1, hnd.1,
    hnd.2.1⟩

theorem last_notMem_of_nodup {ms ns : List (ℕ × α)} {m : ℕ × α}
    (hnd : (ptrs ((ms ++ [m]) ++ ns)).Nodup) : m.1 ∉ ptrs ns := by
  intro hmem
  rw [ptrs_append, List.nodup_append] at hnd
  exact hnd.2.2 m.1 (by simp) _ hmem rfl

theorem listInsert_inner {h : Heap α} {ptr : ListT} {ms ns : List (ℕ × α)} {m n : ℕ × α}
    (hb : h.Bounded) (hr : Linked h ptr ((ms ++ [m]) ++ n :: ns)) (x : α) :
    ∃ h' ptr', listInsert h ptr x (ms ++ [m]).length = some (h', ptr') ∧
      Effect h ((ms ++ [m]) ++ n :: ns) h' ptr' ((ms ++ [m]) ++ (h.fresh, x) :: n :: ns) := by
  have hnot := hr.fresh_notMem hb
  have hsize := hr.size
  rw [List.length_append, List.length_cons] at hsize
  obtain ⟨hnms, -, hndm, hndn⟩ := notMem_of_nodup hr.nodup
  have hmmem : m.1 ∈ ptrs ((ms ++ [m]) ++ n :: ns) := by simp
  have hnmem : n.1 ∈ ptrs ((ms ++ [m]) ++ n :: ns) := by simp
  have hmns := last_notMem_of_nodup hr.nodup
  -- the node found, before the links change
  obtain ⟨-, h0, hn, -⟩ := seg_concat_append.1 hr.seg
  -- the two halves after the allocation, after the first store and after the second
  obtain ⟨hs, hs'⟩ := seg_concat_append.1 (Heap.alloc_seg ⟨n.1, m.1, x⟩ hr.seg hnot)
  obtain ⟨hset, hseg⟩ := Heap.setNext_last h.fresh hs hndm
  obtain ⟨hset', hseg'⟩ := Heap.setPrev_first h.fresh (Heap.put_seg hs' hmns) hndn
  have hlt {p : ℕ} (hp : p ∈ ptrs ((ms ++ [m]) ++ n :: ns)) : p < h.fresh := hr.lt_fresh hb hp
  have hlt' {p : ℕ} (hp : p ∈ ptrs ((ms ++ [m]) ++ n :: ns)) : p < h.fresh + 1 :=
    (hlt hp).trans (Nat.lt_succ_self _)
  refine ⟨_, { ptr with size := ptr.size + 1 }, ?_, hr.effect_insert hb (ms ++ [m]) (n :: ns) rfl
    (seg_concat_append.2 ⟨Heap.put_seg hseg hnms, Nat.ne_of_gt hb.pos, ?_, hseg'⟩)
    (((hb.alloc _).put (hlt' hmmem)).put (hlt' hnmem)) (hr.head.trans ?_) ?_ rfl fun p hp hpn => ?_⟩
  · have hidx : (ms ++ [m]).length ≠ 0 := by simp
    rw [listInsert, if_neg hidx, if_neg (by omega), walkTo_eq hr]
    simp only [Heap.load_of_node h0 hn, bind, Option.bind_some, pure]
    rw [show (h.alloc ⟨n.1, m.1, x⟩).1 = h.fresh from rfl, hset, Option.bind_some, hset',
      Option.bind_some]
  · rw [Heap.put_nodes_of_ne (Nat.ne_of_gt (hlt hnmem)), Heap.put_nodes_of_ne (Nat.ne_of_gt (hlt hmmem))]
    exact h.alloc_nodes_self _
  · rw [firstPtr_append, firstPtr_append, firstPtr_append, firstPtr_cons, firstPtr_cons]
  · rw [hr.tail (by simp), lastPtr_append, lastPtr_cons, lastPtr_cons]
  · rw [Heap.put_keeps hnmem hpn, Heap.put_keeps hmmem hpn, Heap.alloc_nodes_of_lt hp]

theorem listRemove_inner {h : Heap α} {ptr : ListT} {ms ns : List (ℕ × α)} {m n q : ℕ × α}
    (hb : h.Bounded) (hr : Linked h ptr ((ms ++ [m]) ++ n :: q :: ns)) :
    ∃ h' ptr', listRemove h ptr (ms ++ [m]).length = some (h', ptr', n.2) ∧
      Effect h ((ms ++ [m]) ++ n :: q :: ns) h' ptr' ((ms ++ [m]) ++ q :: ns) := by
  have hsize := hr.size
  rw [List.length_append, List.length_cons, List.length_cons] at hsize
  obtain ⟨hnms, hnns, hndm, hndn⟩ := notMem_of_nodup hr.nodup
  have hmmem : m.1 ∈ ptrs ((ms ++ [m]) ++ n :: q :: ns) := by simp
  have hnmem : n.1 ∈ ptrs ((ms ++ [m]) ++ n :: q :: ns) := by simp
  have hqmem : q.1 ∈ ptrs ((ms ++ [m]) ++ n :: q :: ns) := by simp
  have hmns := last_notMem_of_nodup hr.nodup
  rw [ptrs_cons, List.mem_cons, not_or] at hmns
  have hqms : q.1 ∉ ptrs (ms ++ [m]) := by
    intro hq
    have hnd := hr.nodup
    rw [ptrs_append, List.nodup_append] at hnd
    exact hnd.2.2 _ hq q.1 (by simp) rfl
  obtain ⟨hs, h0, hn, hs'⟩ := seg_concat_append.1 hr.seg
  obtain ⟨hset, hseg⟩ := Heap.setNext_last q.1 hs hndm
  obtain ⟨hset', hseg'⟩ := Heap.setPrev_first m.1 (Heap.put_seg hs' hmns.2) (List.nodup_cons.1 hndn).2
  have hn' (k l : Option (Node α)) : ((h.put m.1 k).put q.1 l).nodes n.1 = some ⟨q.1, m.1, n.2⟩ := by
    rw [Heap.put_keeps (List.mem_cons_self ..) hnns,
      Heap.put_keeps (by simp : m.1 ∈ ptrs (ms ++ [m])) hnms, hn, firstPtr_cons]
  refine ⟨_, { ptr with size := subSize ptr.size 1 }, ?_, hr.effect_remove (ms ++ [m]) (q :: ns) rfl rfl
    (seg_concat_append.2 ⟨Heap.put_seg (n := none) (Heap.put_seg hseg hqms) hnms,
      Heap.put_seg hseg' hnns⟩)
    (((hb.put (hr.lt_fresh hb hmmem)).put (hr.lt_fresh hb hqmem)).put (hr.lt_fresh hb hnmem))
    (hr.head.trans ?_) (fun _ => ?_) rfl fun p hp hpn => ?_⟩
  · have hidx : (ms ++ [m]).length ≠ 0 := by simp
    rw [listRemove, if_neg hidx, if_neg (by rw [subSize_of_le (by omega)]; omega), walkTo_eq hr]
    simp only [Heap.load_of_node h0 hn, bind, Option.bind_some, pure, firstPtr_cons]
    rw [hset, Option.bind_some, hset', Option.bind_some, Heap.free_of_node h0 (hn' _ _),
      Option.bind_some]
  · rw [firstPtr_append, firstPtr_append, firstPtr_append, firstPtr_append, firstPtr_cons, firstPtr_cons]
  · rw [hr.tail (by simp), lastPtr_append, lastPtr_cons, lastPtr_cons, lastPtr_append _ _ (q :: ns),
      lastPtr_cons]
  · rw [Heap.put_keeps hnmem hpn, Heap.put_keeps hqmem hpn, Heap.put_keeps hmmem hpn]

/-! ### Any index -/

theorem exists_split {l : List (ℕ × α)} {j : ℕ} (hj : j < l.length) :
    ∃ ms n ns, l = ms ++ n :: ns ∧ ms.length = j := by
  refine ⟨l.take j, l[j], l.drop (j + 1), ?_, by rw [List.length_take, min_eq_left hj.le]⟩
  rw [← List.drop_eq_getElem_cons hj, List.take_append_drop]

/-- The node `list_get` and `list_set` use: the one with that index, or the last. -/
def nodeAt (h : Heap α) (ptr : ListT) (index : ℕ) : Option ℕ :=
  if index = 0 then some ptr.headPtr
  else if index ≥ subSize ptr.size 1 then some ptr.tailPtr
  else walkTo h ptr index

theorem listGet_eq (h : Heap α) (ptr : ListT) (index : ℕ) :
    listGet h ptr index = (nodeAt h ptr index).bind fun i => (h.load i).map Node.data := by
  rw [listGet, nodeAt]
  split
  · rfl
  · split
    · rfl
    · rfl

theorem listSet_eq (h : Heap α) (ptr : ListT) (data : α) (index : ℕ) :
    listSet h ptr data index = (nodeAt h ptr index).bind fun i => h.setData i data := by
  rw [listSet, nodeAt]
  split
  · rfl
  · split
    · rfl
    · rfl

theorem nodeAt_eq {h : Heap α} {ptr : ListT} {ms ns : List (ℕ × α)} {n : ℕ × α} {index : ℕ}
    (hr : Linked h ptr (ms ++ n :: ns)) (hi : ms.length = min index (ptr.size - 1)) :
    nodeAt h ptr index = some n.1 := by
  have hsize := hr.size
  rw [List.length_append, List.length_cons] at hsize
  rw [nodeAt, subSize_of_le (by omega)]
  split
  · have hms : ms = [] := List.length_eq_zero_iff.1 (by omega)
    subst hms
    exact congrArg some hr.head
  · split
    · have hns : ns = [] := List.length_eq_zero_iff.1 (by omega)
      subst hns
      exact congrArg some hr.tail_concat
    · have hidx : index = ms.length := by omega
      rw [hidx, walkTo_eq hr]

theorem listInsert_effect {h : Heap α} {ptr : ListT} {ns : List (ℕ × α)} (hb : h.Bounded)
    (hr : Linked h ptr ns) (x : α) (index : ℕ) : ∃ h' ptr', listInsert h ptr x index = some (h', ptr') ∧
      Effect h ns h' ptr' (ns.take index ++ (h.fresh, x) :: ns.drop index) := by
  by_cases h0 : index = 0
  · rw [h0, listInsert, if_pos rfl]
    exact listPushFront_effect hb hr x
  · by_cases hge : index ≥ ptr.size
    · rw [listInsert, if_neg h0, if_pos hge, List.take_of_length_le (hr.size ▸ hge),
        List.drop_of_length_le (hr.size ▸ hge)]
      exact listPushBack_effect hb hr x
    · obtain ⟨ms, n, ns, rfl, rfl⟩ := exists_split (hr.size ▸ Nat.lt_of_not_le hge)
      obtain ⟨ms, m, rfl⟩ := (List.eq_nil_or_concat' ms).resolve_left (by rintro rfl; exact h0 rfl)
      rw [List.take_left, List.drop_left]
      exact listInsert_inner hb hr x

/-- Removing from a list of two elements or more. -/
theorem listRemove_effect {h : Heap α} {ptr : ListT} {ms ns : List (ℕ × α)} {n : ℕ × α} {index : ℕ}
    (hb : h.Bounded) (hr : Linked h ptr (ms ++ n :: ns)) (hi : ms.length = min index (ptr.size - 1))
    (hne : ms ++ ns ≠ []) : ∃ h' ptr', listRemove h ptr index = some (h', ptr', n.2) ∧
      Effect h (ms ++ n :: ns) h' ptr' (ms ++ ns) := by
  have hsize := hr.size
  rw [List.length_append, List.length_cons] at hsize
  by_cases h0 : index = 0
  · have hms : ms = [] := List.length_eq_zero_iff.1 (by omega)
    subst hms
    rw [listRemove, if_pos h0]
    exact listPopFront_effect hb hr
  · by_cases hge : index ≥ ptr.size - 1
    · have hns : ns = [] := List.length_eq_zero_iff.1 (by omega)
      subst hns
      rw [List.append_nil] at hne
      obtain ⟨ms, m, rfl⟩ := (List.eq_nil_or_concat' ms).resolve_left hne
      rw [listRemove, if_neg h0, subSize_of_le (by omega), if_pos hge]
      rw [List.append_assoc] at hr ⊢
      rw [List.append_nil]
      exact listPopBack_effect hb hr
    · have hidx : index = ms.length := by omega
      subst hidx
      obtain ⟨ms, m, rfl⟩ := (List.eq_nil_or_concat' ms).resolve_left (by rintro rfl; exact h0 rfl)
      match ns with
      | [] => simp only [List.length_nil] at hsize; omega
      | q :: ns => exact listRemove_inner hb hr

theorem listGet_spec {h : Heap α} {ptr : ListT} {ms ns : List (ℕ × α)} {n : ℕ × α} {index : ℕ}
    (hr : Linked h ptr (ms ++ n :: ns)) (hi : ms.length = min index (ptr.size - 1)) :
    listGet h ptr index = some n.2 := by
  obtain ⟨-, h0, hn, -⟩ := seg_append.1 hr.seg
  rw [listGet_eq, nodeAt_eq hr hi, Option.bind_some, Heap.load_of_node h0 hn, Option.map_some]

theorem listSet_effect {h : Heap α} {ptr : ListT} {ms ns : List (ℕ × α)} {n : ℕ × α} {index : ℕ}
    (hb : h.Bounded) (hr : Linked h ptr (ms ++ n :: ns)) (hi : ms.length = min index (ptr.size - 1))
    (x : α) : ∃ h', listSet h ptr x index = some h' ∧
      Effect h (ms ++ n :: ns) h' ptr (ms ++ (n.1, x) :: ns) := by
  obtain ⟨m, hset, hseg⟩ := Heap.setData_seg x hr.seg hr.nodup
  have hptrs : ptrs (ms ++ (n.1, x) :: ns) = ptrs (ms ++ n :: ns) := by simp
  have hmem : n.1 ∈ ptrs (ms ++ n :: ns) := by simp
  refine ⟨_, ?_, ⟨⟨hseg, hptrs ▸ hr.nodup, hr.head.trans ?_, fun _ => (hr.tail (by simp)).trans ?_, ?_⟩,
    hb.put (hr.lt_fresh hb hmem), fun p hp => .inl (hptrs ▸ hp), fun p _ hp => Heap.put_keeps hmem hp⟩⟩
  · rw [listSet_eq, nodeAt_eq hr hi, Option.bind_some, hset]
  · rw [firstPtr_append, firstPtr_append, firstPtr_cons, firstPtr_cons]
  · rw [lastPtr_append, lastPtr_append, lastPtr_cons, lastPtr_cons]
  · rw [hr.size, List.length_append, List.length_append, List.length_cons, List.length_cons]

theorem listClear_effect {h : Heap α} {ptr : ListT} {ns : List (ℕ × α)} (hb : h.Bounded)
    (hr : Linked h ptr ns) : ∃ h', listClear h ptr = some (h', listInit) ∧ Effect h ns h' listInit [] := by
  obtain ⟨h', hfree, hb', -, hkeep⟩ :=
    Heap.freeAll_seg hb hr.seg hr.nodup (hb.length_lt hr.seg hr.nodup)
  refine ⟨h', ?_, ⟨⟨trivial, List.nodup_nil, rfl, fun hne => absurd rfl hne, rfl⟩, hb',
    fun p hp => absurd hp List.not_mem_nil, fun p _ hp => hkeep p hp⟩⟩
  rw [listClear, listFree, hr.head, hfree]
  rfl

/-! ### Every call does to the list what it is for -/

/-- A call that is not made on an empty list when it needs an element, and does not take the only one:
    it does not fault, hands out what it should, and leaves the sequence it should. -/
theorem Call.exec_effect {h : Heap α} {ptr : ListT} {ns : List (ℕ × α)} (hb : h.Bounded)
    (hr : Linked h ptr ns) (hclosed : ptr.size = 0 → ptr.tailPtr = 0) (c : Call α)
    (hneeds : c.needsElement → ptr.size ≠ 0) (htakes : c.takesElement → ptr.size ≠ 1) :
    ∃ h' ptr' ns', c.exec h ptr = some (h', ptr', (c.spec (ns.map Prod.snd)).2) ∧
      Effect h ns h' ptr' ns' ∧ ns'.map Prod.snd = (c.spec (ns.map Prod.snd)).1 ∧
      (ptr'.size = 0 → ptr'.tailPtr = 0) ∧ (c.changes = false → h' = h ∧ ptr' = ptr ∧ ns' = ns) := by
  have hsize := hr.size
  -- the element an index means, for the calls that need one
  have hsplit (i : ℕ) (hne : ptr.size ≠ 0) :
      ∃ ms n ns', ns = ms ++ n :: ns' ∧ ms.length = min i (ptr.size - 1) :=
    exists_split (by omega)
  have hidx {i : ℕ} {ms : List (ℕ × α)} (hi : ms.length = min i (ptr.size - 1)) :
      min i ((ns.map Prod.snd).length - 1) = (ms.map Prod.snd).length := by
    rw [List.length_map, List.length_map, ← hsize, hi]
  cases c with
  | clear =>
    obtain ⟨h', hexec, heff⟩ := listClear_effect hb hr
    exact ⟨h', _, [], by rw [exec, hexec]; rfl, heff, rfl, fun _ => rfl, nofun⟩
  | pushFront x =>
    obtain ⟨h', ptr', hexec, heff⟩ := listPushFront_effect hb hr x
    refine ⟨h', ptr', _, by rw [exec, hexec]; rfl, heff, rfl, fun h0 => ?_, nofun⟩
    exact absurd (heff.repr.size_eq_zero.1 h0) (List.cons_ne_nil _ _)
  | pushBack x =>
    obtain ⟨h', ptr', hexec, heff⟩ := listPushBack_effect hb hr x
    refine ⟨h', ptr', _, by rw [exec, hexec]; rfl, heff, by simp [spec], fun h0 => ?_, nofun⟩
    exact absurd (heff.repr.size_eq_zero.1 h0) (by simp)
  | popFront =>
    obtain ⟨n, ns, rfl⟩ := List.exists_cons_of_ne_nil fun he => hneeds rfl (hr.size_eq_zero.2 he)
    obtain ⟨h', ptr', hexec, heff⟩ := listPopFront_effect hb hr
    refine ⟨h', ptr', ns, by rw [exec, hexec]; rfl, heff, rfl, fun h0 => ?_, nofun⟩
    rw [heff.repr.size_eq_zero] at h0
    rw [h0] at hsize
    exact absurd hsize (htakes rfl)
  | popBack =>
    obtain ⟨ms, n, rfl⟩ := (List.eq_nil_or_concat' ns).resolve_left fun he =>
      hneeds rfl (hr.size_eq_zero.2 he)
    have hne : ms ≠ [] := by
      rintro rfl
      exact htakes rfl hsize
    obtain ⟨ms, m, rfl⟩ := (List.eq_nil_or_concat' ms).resolve_left hne
    rw [List.append_assoc, List.singleton_append] at hr ⊢
    obtain ⟨h', ptr', hexec, heff⟩ := listPopBack_effect hb hr
    refine ⟨h', ptr', _, ?_, heff, by simp [spec], fun h0 => ?_, nofun⟩
    · rw [exec, hexec]
      simp [spec]
    · exact absurd (heff.repr.size_eq_zero.1 h0) (by simp)
  | insert x i =>
    obtain ⟨h', ptr', hexec, heff⟩ := listInsert_effect hb hr x i
    refine ⟨h', ptr', _, by rw [exec, hexec]; rfl, heff, by simp [spec], fun h0 => ?_, nofun⟩
    exact absurd (heff.repr.size_eq_zero.1 h0) (by simp)
  | remove i =>
    obtain ⟨ms, n, ns', rfl, hi⟩ := hsplit i (hneeds rfl)
    rw [List.length_append, List.length_cons] at hsize
    have hne : ms ++ ns' ≠ [] := by
      rw [← List.length_pos_iff, List.length_append]
      have := htakes rfl
      omega
    obtain ⟨h', ptr', hexec, heff⟩ := listRemove_effect hb hr hi hne
    refine ⟨h', ptr', _, ?_, heff, ?_, fun h0 => absurd (heff.repr.size_eq_zero.1 h0) hne, nofun⟩
    · rw [exec, hexec, spec, hidx hi]
      simp
    · rw [spec, hidx hi]
      simp [List.eraseIdx_append_of_length_le]
  | get i =>
    obtain ⟨ms, n, ns', rfl, hi⟩ := hsplit i (hneeds rfl)
    refine ⟨h, ptr, _, ?_, hr.effect_refl hb, rfl, hclosed, fun _ => ⟨rfl, rfl, rfl⟩⟩
    rw [exec, listGet_spec hr hi, spec, hidx hi]
    simp
  | set x i =>
    obtain ⟨ms, n, ns', rfl, hi⟩ := hsplit i (hneeds rfl)
    obtain ⟨h', hexec, heff⟩ := listSet_effect hb hr hi x
    refine ⟨h', ptr, _, by rw [exec, hexec]; rfl, heff, ?_, hclosed, nofun⟩
    rw [spec, hidx hi]
    simp
  | iterateNext =>
    refine ⟨h, ptr, ns, ?_, hr.effect_refl hb, rfl, hclosed, fun _ => ⟨rfl, rfl, rfl⟩⟩
    rw [exec, iteratorStartFromHead, hr.head,
      Heap.visitNext_seg hr.seg (hb.length_lt hr.seg hr.nodup)]
    rfl
  | iteratePrev =>
    refine ⟨h, ptr, ns, ?_, hr.effect_refl hb, rfl, hclosed, fun _ => ⟨rfl, rfl, rfl⟩⟩
    rw [exec, iteratorStartFromTail, hr.tail_of_closed hclosed,
      Heap.visitPrev_seg hr.seg (hb.length_lt hr.seg hr.nodup)]
    rfl

end OpenMV.Collections
