import Mathlib.Data.Finset.Card
import Mathlib.Data.List.Induction
import Mathlib.Data.List.Nodup
import Mathlib.Logic.Function.Basic
import Mathlib.Order.Interval.Finset.Nat

/-! Doubly linked lists in a heap | scheme:encoding

    A heap gives the live nodes at their addresses; address 0 is NULL and a node that was freed is not
    there any more, so a load from either is a fault (`none`). `Seg nodes a b ns` says that the nodes
    `ns` (addresses with their data) are linked one after another, the first one's `prev` being `a` and
    the last one's `next` being `b`. Segments split and join (`seg_append`), do not look outside their
    own addresses (`Seg.frame`), and are walked in both directions. -/

namespace OpenMV.Schemes

variable {α : Type*}

structure Node (α : Type*) where
  next : ℕ
  prev : ℕ
  data : α

/-- The live nodes, and the first address that was never handed out. -/
structure Heap (α : Type*) where
  nodes : ℕ → Option (Node α)
  fresh : ℕ

/-- The heap in which nothing has been allocated yet; address 0 is never handed out. -/
def Heap.empty : Heap α := ⟨fun _ => none, 1⟩

namespace Heap

/-- Dereferencing a pointer: a fault for NULL and for a node that is not live. -/
def load (h : Heap α) (p : ℕ) : Option (Node α) := if p = 0 then none else h.nodes p

def put (h : Heap α) (p : ℕ) (n : Option (Node α)) : Heap α :=
  { h with nodes := Function.update h.nodes p n }

/-- Writing fields of the node behind a pointer. -/
def modify (h : Heap α) (p : ℕ) (f : Node α → Node α) : Option (Heap α) :=
  (h.load p).map fun n => h.put p (some (f n))

def setNext (h : Heap α) (p q : ℕ) : Option (Heap α) := h.modify p fun n => { n with next := q }

def setPrev (h : Heap α) (p q : ℕ) : Option (Heap α) := h.modify p fun n => { n with prev := q }

def setData (h : Heap α) (p : ℕ) (x : α) : Option (Heap α) := h.modify p fun n => { n with data := x }

/-- A new node at the next free address, which is returned with the heap. -/
def alloc (h : Heap α) (n : Node α) : ℕ × Heap α :=
  (h.fresh, ⟨Function.update h.nodes h.fresh (some n), h.fresh + 1⟩)

def free (h : Heap α) (p : ℕ) : Option (Heap α) := (h.load p).map fun _ => h.put p none

/-- Every live node has an address that was handed out, and NULL was not. -/
structure Bounded (h : Heap α) : Prop where
  pos : 0 < h.fresh
  live : ∀ {p n}, h.nodes p = some n → p < h.fresh

end Heap

/-! ### The pointers of a list of nodes -/

/-- The addresses of the nodes. -/
def ptrs (ns : List (ℕ × α)) : List ℕ := ns.map Prod.fst

/-- The address of the first node, `b` if there is none. -/
def firstPtr (b : ℕ) : List (ℕ × α) → ℕ
  | [] => b
  | n :: _ => n.1

/-- The address of the last node, `a` if there is none. -/
def lastPtr (a : ℕ) : List (ℕ × α) → ℕ
  | [] => a
  | n :: ns => lastPtr n.1 ns

/-- The nodes are linked one after another, between `a` before the first and `b` after the last. -/
def Seg (nodes : ℕ → Option (Node α)) (a b : ℕ) : List (ℕ × α) → Prop
  | [] => True
  | n :: ns => n.1 ≠ 0 ∧ nodes n.1 = some ⟨firstPtr b ns, a, n.2⟩ ∧ Seg nodes n.1 b ns

@[simp] theorem ptrs_nil : ptrs ([] : List (ℕ × α)) = [] := rfl

@[simp] theorem ptrs_cons (n : ℕ × α) (ns : List (ℕ × α)) : ptrs (n :: ns) = n.1 :: ptrs ns := rfl

@[simp] theorem ptrs_append (ms ns : List (ℕ × α)) : ptrs (ms ++ ns) = ptrs ms ++ ptrs ns :=
  List.map_append

@[simp] theorem firstPtr_nil (b : ℕ) : firstPtr b ([] : List (ℕ × α)) = b := rfl

@[simp] theorem firstPtr_cons (b : ℕ) (n : ℕ × α) (ns : List (ℕ × α)) :
    firstPtr b (n :: ns) = n.1 := rfl

@[simp] theorem lastPtr_nil (a : ℕ) : lastPtr a ([] : List (ℕ × α)) = a := rfl

@[simp] theorem lastPtr_cons (a : ℕ) (n : ℕ × α) (ns : List (ℕ × α)) :
    lastPtr a (n :: ns) = lastPtr n.1 ns := rfl

@[simp] theorem seg_nil {nodes : ℕ → Option (Node α)} {a b : ℕ} : Seg nodes a b [] := trivial

@[simp] theorem seg_cons {nodes : ℕ → Option (Node α)} {a b : ℕ} {n : ℕ × α} {ns : List (ℕ × α)} :
    Seg nodes a b (n :: ns) ↔
      n.1 ≠ 0 ∧ nodes n.1 = some ⟨firstPtr b ns, a, n.2⟩ ∧ Seg nodes n.1 b ns := Iff.rfl

@[simp] theorem firstPtr_append (b : ℕ) : ∀ ms ns : List (ℕ × α),
    firstPtr b (ms ++ ns) = firstPtr (firstPtr b ns) ms
  | [], _ => rfl
  | _ :: _, _ => rfl

@[simp] theorem lastPtr_append : ∀ (a : ℕ) (ms ns : List (ℕ × α)),
    lastPtr a (ms ++ ns) = lastPtr (lastPtr a ms) ns
  | _, [], _ => rfl
  | _, m :: ms, ns => lastPtr_append m.1 ms ns

/-- Two segments that point at one another's ends are one segment. -/
theorem seg_append {nodes : ℕ → Option (Node α)} {b : ℕ} : ∀ {a : ℕ} {ms ns : List (ℕ × α)},
    Seg nodes a b (ms ++ ns) ↔ Seg nodes a (firstPtr b ns) ms ∧ Seg nodes (lastPtr a ms) b ns
  | _, [], _ => by simp
  | _, m :: ms, ns => by
    simp only [List.cons_append, seg_cons, firstPtr_append, lastPtr_cons, seg_append, and_assoc]

/-- The same with the last node of the first part at hand. -/
theorem seg_concat_append {nodes : ℕ → Option (Node α)} {a b : ℕ} {ms ns : List (ℕ × α)} {m : ℕ × α} :
    Seg nodes a b ((ms ++ [m]) ++ ns) ↔
      Seg nodes a (firstPtr b ns) (ms ++ [m]) ∧ Seg nodes m.1 b ns := by
  rw [seg_append, lastPtr_append, lastPtr_cons, lastPtr_nil]

/-- A segment only depends on what the heap holds at its own addresses. -/
theorem Seg.frame {f g : ℕ → Option (Node α)} {b : ℕ} : ∀ {a : ℕ} {ns : List (ℕ × α)},
    Seg f a b ns → (∀ p ∈ ptrs ns, g p = f p) → Seg g a b ns
  | _, [], _, _ => trivial
  | _, n :: _, ⟨h0, hn, hs⟩, hfg =>
    ⟨h0, (hfg n.1 (List.mem_cons_self ..)).trans hn,
      hs.frame fun p hp => hfg p (List.mem_cons_of_mem _ hp)⟩

theorem Seg.frame_update {f : ℕ → Option (Node α)} {a b p : ℕ} {ns : List (ℕ × α)}
    {n : Option (Node α)} (hs : Seg f a b ns) (hp : p ∉ ptrs ns) :
    Seg (Function.update f p n) a b ns := by
  refine hs.frame fun q hq => Function.update_of_ne ?_ _ _
  rintro rfl
  exact hp hq

theorem Seg.live {f : ℕ → Option (Node α)} {b : ℕ} : ∀ {a : ℕ} {ns : List (ℕ × α)},
    Seg f a b ns → ∀ p ∈ ptrs ns, p ≠ 0 ∧ ∃ n, f p = some n
  | _, n :: ns, ⟨h0, hn, hs⟩, p, hp => by
    rw [ptrs_cons, List.mem_cons] at hp
    rcases hp with rfl | hp
    · exact ⟨h0, _, hn⟩
    · exact hs.live p hp

theorem Seg.firstPtr_eq_zero {f : ℕ → Option (Node α)} {a b : ℕ} : ∀ {ns : List (ℕ × α)},
    Seg f a b ns → (firstPtr 0 ns = 0 ↔ ns = [])
  | [], _ => by simp
  | _ :: _, ⟨h0, _, _⟩ => by simpa using h0

theorem Seg.lastPtr_eq_zero {f : ℕ → Option (Node α)} {a b : ℕ} {ns : List (ℕ × α)}
    (hs : Seg f a b ns) : lastPtr 0 ns = 0 ↔ ns = [] := by
  rcases List.eq_nil_or_concat' ns with rfl | ⟨ms, m, rfl⟩
  · simp
  · simpa using (seg_append.1 hs).2.1

/-! ### Loads and stores on a segment -/

namespace Heap

theorem load_of_node {h : Heap α} {p : ℕ} {n : Node α} (hp : p ≠ 0) (hn : h.nodes p = some n) :
    h.load p = some n := by
  rw [load, if_neg hp, hn]

theorem modify_of_node {h : Heap α} {p : ℕ} {n : Node α} (f : Node α → Node α) (hp : p ≠ 0)
    (hn : h.nodes p = some n) : h.modify p f = some (h.put p (some (f n))) := by
  rw [modify, load_of_node hp hn, Option.map_some]

theorem free_of_node {h : Heap α} {p : ℕ} {n : Node α} (hp : p ≠ 0) (hn : h.nodes p = some n) :
    h.free p = some (h.put p none) := by
  rw [free, load_of_node hp hn, Option.map_some]

theorem Bounded.put {h : Heap α} {p : ℕ} {n : Option (Node α)} (hb : h.Bounded)
    (hp : p < h.fresh) : (h.put p n).Bounded := by
  refine ⟨hb.pos, fun {q m} hq => ?_⟩
  by_cases hqp : q = p
  · exact hqp ▸ hp
  · exact hb.live ((Function.update_of_ne hqp _ _).symm.trans hq)

theorem Bounded.alloc {h : Heap α} (hb : h.Bounded) (n : Node α) : (h.alloc n).2.Bounded := by
  refine ⟨Nat.succ_pos _, fun {q m} hq => ?_⟩
  by_cases hqp : q = h.fresh
  · exact hqp ▸ Nat.lt_succ_self _
  · exact (hb.live ((Function.update_of_ne hqp _ _).symm.trans hq)).trans (Nat.lt_succ_self _)

theorem empty_bounded : (empty : Heap α).Bounded := ⟨Nat.one_pos, fun h => nomatch h⟩

@[simp] theorem put_fresh (h : Heap α) (p : ℕ) (n : Option (Node α)) : (h.put p n).fresh = h.fresh := rfl

theorem put_nodes_of_ne {h : Heap α} {p q : ℕ} {n : Option (Node α)} (hqp : q ≠ p) :
    (h.put p n).nodes q = h.nodes q := Function.update_of_ne hqp _ _

/-- A store at one of the addresses leaves what is elsewhere. -/
theorem put_keeps {h : Heap α} {ps : List ℕ} {p q : ℕ} {n : Option (Node α)} (hp : p ∈ ps)
    (hq : q ∉ ps) : (h.put p n).nodes q = h.nodes q := by
  refine put_nodes_of_ne ?_
  rintro rfl
  exact hq hp

theorem alloc_nodes_of_lt {h : Heap α} {p : ℕ} {n : Node α} (hp : p < h.fresh) :
    (h.alloc n).2.nodes p = h.nodes p := Function.update_of_ne (Nat.ne_of_lt hp) _ _

theorem alloc_nodes_self (h : Heap α) (n : Node α) : (h.alloc n).2.nodes h.fresh = some n :=
  Function.update_self ..

theorem put_seg {h : Heap α} {a b p : ℕ} {ns : List (ℕ × α)} {n : Option (Node α)}
    (hs : Seg h.nodes a b ns) (hp : p ∉ ptrs ns) : Seg (h.put p n).nodes a b ns := hs.frame_update hp

theorem alloc_seg {h : Heap α} {a b : ℕ} {ns : List (ℕ × α)} (n : Node α) (hs : Seg h.nodes a b ns)
    (hp : h.fresh ∉ ptrs ns) : Seg (h.alloc n).2.nodes a b ns := hs.frame_update hp

/-- Storing the `next` of a segment's last node leaves a segment with that end. -/
theorem setNext_last {h : Heap α} {a b : ℕ} {ms : List (ℕ × α)} {n : ℕ × α} (b' : ℕ)
    (hs : Seg h.nodes a b (ms ++ [n])) (hnd : (ptrs (ms ++ [n])).Nodup) :
    h.setNext n.1 b' = some (h.put n.1 (some ⟨b', lastPtr a ms, n.2⟩)) ∧
      Seg (h.put n.1 (some ⟨b', lastPtr a ms, n.2⟩)).nodes a b' (ms ++ [n]) := by
  obtain ⟨hms, h0, hn, -⟩ := seg_append.1 hs
  have hnot : n.1 ∉ ptrs ms := by
    rw [ptrs_append, ptrs_cons, ptrs_nil] at hnd
    exact fun hm => (List.nodup_append.1 hnd).2.2 _ hm _ (List.mem_singleton_self _) rfl
  refine ⟨modify_of_node _ h0 hn, seg_append.2 ⟨hms.frame_update hnot, h0, ?_, trivial⟩⟩
  exact Function.update_self ..

/-- The same for the `prev` of its first node. -/
theorem setPrev_first {h : Heap α} {a b : ℕ} {ns : List (ℕ × α)} {n : ℕ × α} (a' : ℕ)
    (hs : Seg h.nodes a b (n :: ns)) (hnd : (ptrs (n :: ns)).Nodup) :
    h.setPrev n.1 a' = some (h.put n.1 (some ⟨firstPtr b ns, a', n.2⟩)) ∧
      Seg (h.put n.1 (some ⟨firstPtr b ns, a', n.2⟩)).nodes a' b (n :: ns) := by
  obtain ⟨h0, hn, hns⟩ := hs
  refine ⟨modify_of_node _ h0 hn, h0, ?_, hns.frame_update (List.nodup_cons.1 hnd).1⟩
  exact Function.update_self ..

/-- Storing data into a node of a segment. -/
theorem setData_seg {h : Heap α} {a b : ℕ} {ms ns : List (ℕ × α)} {n : ℕ × α} (x : α)
    (hs : Seg h.nodes a b (ms ++ n :: ns)) (hnd : (ptrs (ms ++ n :: ns)).Nodup) :
    ∃ m, h.setData n.1 x = some (h.put n.1 (some m)) ∧
      Seg (h.put n.1 (some m)).nodes a b (ms ++ (n.1, x) :: ns) := by
  obtain ⟨hms, h0, hn, hns⟩ := seg_append.1 hs
  rw [ptrs_append, ptrs_cons, List.nodup_append, List.nodup_cons] at hnd
  have hnot : n.1 ∉ ptrs ms := fun hm => hnd.2.2 _ hm _ (List.mem_cons_self ..) rfl
  refine ⟨_, modify_of_node _ h0 hn, seg_append.2 ⟨hms.frame_update hnot, h0, ?_,
    hns.frame_update hnd.2.1.1⟩⟩
  exact Function.update_self ..

/-- No segment is longer than the number of addresses handed out. -/
theorem Bounded.length_lt {h : Heap α} {a b : ℕ} {ns : List (ℕ × α)} (hb : h.Bounded)
    (hs : Seg h.nodes a b ns) (hnd : (ptrs ns).Nodup) : ns.length < h.fresh := by
  have hsub : (ptrs ns).toFinset ⊆ Finset.Ico 1 h.fresh := by
    intro p hp
    obtain ⟨h0, n, hn⟩ := hs.live p (List.mem_toFinset.1 hp)
    exact Finset.mem_Ico.2 ⟨Nat.pos_of_ne_zero h0, hb.live hn⟩
  have hcard := Finset.card_le_card hsub
  rw [List.toFinset_card_of_nodup hnd, Nat.card_Ico, ptrs, List.length_map] at hcard
  have := hb.pos
  omega

/-! ### Walks -/

/-- `i = i->next` done `k` times. -/
def walkNext (h : Heap α) : ℕ → ℕ → Option ℕ
  | 0, p => some p
  | k + 1, p => (h.load p).bind fun n => walkNext h k n.next

/-- `i = i->prev` done `k` times. -/
def walkPrev (h : Heap α) : ℕ → ℕ → Option ℕ
  | 0, p => some p
  | k + 1, p => (h.load p).bind fun n => walkPrev h k n.prev

/-- The data of the nodes met from `p` along `next` up to NULL. A walk of more nodes than were ever
    allocated does not end, which the bound on its length says. -/
def visitNext (h : Heap α) : ℕ → ℕ → Option (List α)
  | 0, _ => none
  | k + 1, p =>
    if p = 0 then some [] else (h.load p).bind fun n => (visitNext h k n.next).map (n.data :: ·)

/-- The same along `prev`. -/
def visitPrev (h : Heap α) : ℕ → ℕ → Option (List α)
  | 0, _ => none
  | k + 1, p =>
    if p = 0 then some [] else (h.load p).bind fun n => (visitPrev h k n.prev).map (n.data :: ·)

theorem walkNext_seg {h : Heap α} {b : ℕ} {n : ℕ × α} {ns : List (ℕ × α)} :
    ∀ {a : ℕ} {ms : List (ℕ × α)}, Seg h.nodes a b (ms ++ n :: ns) →
    h.walkNext ms.length (firstPtr b (ms ++ n :: ns)) = some n.1
  | _, [], _ => rfl
  | _, m :: ms, ⟨h0, hm, hs⟩ => by
    rw [List.length_cons, List.cons_append, firstPtr_cons, walkNext, load_of_node h0 hm]
    exact walkNext_seg hs

theorem walkPrev_seg {h : Heap α} {a : ℕ} {n : ℕ × α} {ms ns : List (ℕ × α)} {b : ℕ}
    (hs : Seg h.nodes a b (ms ++ n :: ns)) :
    h.walkPrev ns.length (lastPtr a (ms ++ n :: ns)) = some n.1 := by
  -- the walk starts at the last node, so it is peeled off the end of `ns`
  induction ns using List.reverseRecOn generalizing b with
  | nil => simp [walkPrev]
  | append_singleton ns m ih =>
    rw [← List.cons_append, ← List.append_assoc, seg_append] at hs
    obtain ⟨hs, h0, hm, -⟩ := hs
    rw [List.length_append, List.length_singleton, ← List.cons_append, ← List.append_assoc,
      lastPtr_append, lastPtr_cons, lastPtr_nil, walkPrev, load_of_node h0 hm]
    exact ih hs

theorem visitNext_seg {h : Heap α} : ∀ {a k : ℕ} {ns : List (ℕ × α)}, Seg h.nodes a 0 ns →
    ns.length < k → h.visitNext k (firstPtr 0 ns) = some (ns.map Prod.snd)
  | _, k + 1, [], _, _ => by simp [visitNext]
  | _, k + 1, n :: ns, ⟨h0, hn, hs⟩, hk => by
    rw [firstPtr_cons, visitNext, if_neg h0, load_of_node h0 hn, Option.bind_some,
      visitNext_seg hs (Nat.lt_of_succ_lt_succ hk)]
    rfl

theorem visitPrev_seg {h : Heap α} {ns : List (ℕ × α)} {b k : ℕ} (hs : Seg h.nodes 0 b ns)
    (hk : ns.length < k) : h.visitPrev k (lastPtr 0 ns) = some (ns.map Prod.snd).reverse := by
  induction ns using List.reverseRecOn generalizing b k with
  | nil =>
    obtain ⟨k, rfl⟩ := Nat.exists_eq_succ_of_ne_zero (Nat.ne_of_gt hk)
    simp [visitPrev]
  | append_singleton ns m ih =>
    rw [seg_append] at hs
    obtain ⟨hs, h0, hm, -⟩ := hs
    rw [List.length_append, List.length_singleton] at hk
    obtain ⟨k, rfl⟩ := Nat.exists_eq_succ_of_ne_zero (Nat.ne_of_gt (Nat.zero_lt_of_lt hk))
    rw [lastPtr_append, lastPtr_cons, lastPtr_nil, visitPrev, if_neg h0, load_of_node h0 hm,
      Option.bind_some, ih hs (Nat.lt_of_succ_lt_succ hk)]
    simp

/-! ### Freeing a whole list -/

/-- `for (i = p; i; ) { j = i->next; free(i); i = j; }`. Every round frees a live node, so it makes
    at most as many rounds as there are nodes. -/
def freeAll (h : Heap α) : ℕ → ℕ → Option (Heap α)
  | 0, _ => none
  | k + 1, i =>
    if i = 0 then some h else
      (h.load i).bind fun n => (h.free i).bind fun h' => freeAll h' k n.next

theorem freeAll_seg : ∀ {h : Heap α} {a k : ℕ} {ns : List (ℕ × α)}, h.Bounded →
    Seg h.nodes a 0 ns → (ptrs ns).Nodup → ns.length < k →
    ∃ h', h.freeAll k (firstPtr 0 ns) = some h' ∧ h'.Bounded ∧ h'.fresh = h.fresh ∧
      ∀ p ∉ ptrs ns, h'.nodes p = h.nodes p
  | h, _, k + 1, [], hb, _, _, _ => ⟨h, by simp [freeAll], hb, rfl, fun _ _ => rfl⟩
  | h, _, k + 1, n :: ns, hb, ⟨h0, hn, hs⟩, hnd, hk => by
    rw [ptrs_cons, List.nodup_cons] at hnd
    obtain ⟨h', hfree, hb', hfr, hkeep⟩ := freeAll_seg (hb.put (n := none) (hb.live hn))
      (hs.frame_update (n := none) hnd.1) hnd.2 (Nat.lt_of_succ_lt_succ hk)
    refine ⟨h', ?_, hb', hfr, fun p hp => ?_⟩
    · rw [firstPtr_cons, freeAll, if_neg h0, load_of_node h0 hn, Option.bind_some,
        free_of_node h0 hn, Option.bind_some]
      exact hfree
    · rw [ptrs_cons, List.mem_cons, not_or] at hp
      rw [hkeep p hp.2]
      exact Function.update_of_ne hp.1 _ _

end Heap

end OpenMV.Schemes
