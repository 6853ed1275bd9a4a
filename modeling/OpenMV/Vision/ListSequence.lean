import OpenMV.Schemes.Run
import OpenMV.Vision.Collections

/-! list_t as a finite sequence | scheme:refinement | source:src/src/openmv/omv/img/collections.c

    A program holds lists in variables: `list_init` starts one, `list_copy` gives a second variable the
    same header, a variable goes out of scope, and everything else is a call on one of them. Beside it
    runs the program on sequences. As long as no call takes the only element of a list, and none changes
    nodes that another variable in scope also leads to, the two agree on what every call hands out, and
    every list can be read from both ends. -/

namespace OpenMV.Collections
open Schemes

variable {V α : Type} [DecidableEq V]

/-- The heap, and the header of every variable in scope. -/
structure State (V α : Type) where
  heap : Heap α
  lists : V → Option ListT

inductive Op (V α : Type)
  | init (v : V)
  | copy (dst src : V)
  | leave (v : V)
  | call (v : V) (c : Call α)

/-- One operation of the program, with the elements it hands out; `none` is a load from NULL, from a
    freed node or of a variable that is not in scope. -/
def step (s : State V α) : Op V α → Option (State V α × List α)
  | .init v => some ({ s with lists := Function.update s.lists v (some listInit) }, [])
  | .copy dst src => (s.lists src).map fun l =>
      ({ s with lists := Function.update s.lists dst (some (listCopy l)) }, [])
  | .leave v => some ({ s with lists := Function.update s.lists v none }, [])
  | .call v c => (s.lists v).bind fun l => (c.exec s.heap l).map fun r =>
      (⟨r.1, Function.update s.lists v (some r.2.1)⟩, r.2.2)

/-- The same operation on sequences. -/
def specStep (a : V → Option (List α)) : Op V α → (V → Option (List α)) × List α
  | .init v => (Function.update a v (some []), [])
  | .copy dst src => (Function.update a dst (a src), [])
  | .leave v => (Function.update a v none, [])
  | .call v c => match a v with
    | none => (a, [])
    | some xs => (Function.update a v (some (c.spec xs).1), (c.spec xs).2)

/-- A program up to here: its state and what its operations have handed out, one by one. -/
abbrev Progress (V α : Type) := State V α × List (List α)

def runStep (p : Option (Progress V α)) (o : Op V α) : Option (Progress V α) :=
  p.bind fun p => (step p.1 o).map fun r => (r.1, p.2 ++ [r.2])

def specRunStep (p : (V → Option (List α)) × List (List α)) (o : Op V α) :
    (V → Option (List α)) × List (List α) := ((specStep p.1 o).1, p.2 ++ [(specStep p.1 o).2])

/-- No variable is in scope and nothing is allocated. -/
def start : Option (Progress V α) := some (⟨Heap.empty, fun _ => none⟩, [])

def specStart : (V → Option (List α)) × List (List α) := (fun _ => none, [])

/-- Lists are initialised before they are used, and pops, gets, sets and removes are made on
    non-empty ones. -/
def InDomain (s : State V α) : Op V α → Prop
  | .copy _ src => (s.lists src).isSome
  | .call v c => ∃ l ∈ s.lists v, c.needsElement → l.size ≠ 0
  | _ => True

/-- No other variable in scope leads to the nodes of this list. -/
def Alone (s : State V α) (v : V) (l : ListT) : Prop :=
  ∀ w, w ≠ v → ∀ m ∈ s.lists w, m.headPtr = l.headPtr → l.headPtr = 0

/-- The only element of a list is not taken, and shared nodes are not changed. -/
def Safe (s : State V α) : Op V α → Prop
  | .call v c => ∀ l ∈ s.lists v,
      (c.takesElement → l.size ≠ 1) ∧ (c.changes → Alone s v l)
  | _ => True

/-- A condition on the state an operation starts in, said of the run. -/
def Before (C : State V α → Op V α → Prop) (p : Option (Progress V α)) (o : Op V α) : Prop :=
  ∀ q ∈ p, C q.1 o

instance (s : State V α) : ∀ o, Decidable (InDomain s o)
  | .init _ => .isTrue trivial
  | .copy _ src => inferInstanceAs (Decidable ((s.lists src).isSome = true))
  | .leave _ => .isTrue trivial
  | .call v c => inferInstanceAs (Decidable (∃ l ∈ s.lists v, c.needsElement → l.size ≠ 0))

instance [Fintype V] (s : State V α) (v : V) (l : ListT) : Decidable (Alone s v l) :=
  inferInstanceAs (Decidable (∀ w, w ≠ v → ∀ m ∈ s.lists w, m.headPtr = l.headPtr → l.headPtr = 0))

instance [Fintype V] (s : State V α) : ∀ o, Decidable (Safe s o)
  | .init _ => .isTrue trivial
  | .copy _ _ => .isTrue trivial
  | .leave _ => .isTrue trivial
  | .call v c => inferInstanceAs (Decidable (∀ l ∈ s.lists v,
      (c.takesElement → l.size ≠ 1) ∧ (c.changes → Alone s v l)))

instance (C : State V α → Op V α → Prop) [∀ s o, Decidable (C s o)] (p : Option (Progress V α))
    (o : Op V α) : Decidable (Before C p o) := inferInstanceAs (Decidable (∀ q ∈ p, C q.1 o))

/-- The header and its nodes, read as a sequence: by the size, from the head along `next_ptr`, from the
    tail along `prev_ptr` (for as long as the walk takes), and by the ends. -/
structure Represents (h : Heap α) (l : ListT) (xs : List α) : Prop where
  size : l.size = xs.length
  forward : ∀ k > xs.length, h.visitNext k (iteratorStartFromHead l) = some xs
  backward : ∀ k > xs.length, h.visitPrev k (iteratorStartFromTail l) = some xs.reverse
  head : l.headPtr = 0 ↔ xs = []
  tail : l.tailPtr = 0 ↔ xs = []

/-- Every variable in scope represents its sequence. -/
def Refines (s : State V α) (a : V → Option (List α)) : Prop :=
  ∀ v, (s.lists v).isSome = (a v).isSome ∧
    ∀ l ∈ s.lists v, ∀ xs ∈ a v, Represents s.heap l xs

/-! ### The invariant -/

/-- Every variable in scope has its nodes; two of them have the same header or no node in common. -/
structure Inv (s : State V α) (own : V → List (ℕ × α)) : Prop where
  bounded : s.heap.Bounded
  linked : ∀ {v l}, s.lists v = some l → Linked s.heap l (own v)
  closed : ∀ {v l}, s.lists v = some l → l.size = 0 → l.tailPtr = 0
  apart : ∀ {v w l m}, s.lists v = some l → s.lists w = some m →
    l = m ∧ own v = own w ∨ ∀ p ∈ ptrs (own v), p ∉ ptrs (own w)

/-- The sequences the variables in scope hold. -/
def contents (s : State V α) (own : V → List (ℕ × α)) (v : V) : Option (List α) :=
  (s.lists v).map fun _ => (own v).map Prod.snd

omit [DecidableEq V] in
theorem inv_start : Inv (⟨Heap.empty, fun _ => none⟩ : State V α) fun _ => [] :=
  ⟨Heap.empty_bounded, nofun, nofun, nofun⟩

theorem update_cases {f : V → Option ListT} {v w : V} {l' m : ListT}
    (hw : Function.update f v (some l') w = some m) : w = v ∧ l' = m ∨ w ≠ v ∧ f w = some m := by
  by_cases hwv : w = v
  · subst hwv
    rw [Function.update_self] at hw
    exact .inl ⟨rfl, Option.some.inj hw⟩
  · rw [Function.update_of_ne hwv] at hw
    exact .inr ⟨hwv, hw⟩

/-- A variable that is given a header: what there is to show is about that variable alone. -/
theorem Inv.update {s : State V α} {own : V → List (ℕ × α)} (hI : Inv s own) {h' : Heap α} {v : V}
    {l' : ListT} {ns' : List (ℕ × α)} (hb : h'.Bounded) (hl' : Linked h' l' ns')
    (hclosed : l'.size = 0 → l'.tailPtr = 0)
    (hkeep : ∀ w m, w ≠ v → s.lists w = some m → ∀ p ∈ ptrs (own w), h'.nodes p = s.heap.nodes p)
    (happ : ∀ w m, w ≠ v → s.lists w = some m →
      l' = m ∧ ns' = own w ∨ ∀ p ∈ ptrs ns', p ∉ ptrs (own w)) :
    Inv ⟨h', Function.update s.lists v (some l')⟩ (Function.update own v ns') := by
  constructor
  · exact hb
  · intro w m hw
    rcases update_cases hw with ⟨rfl, rfl⟩ | ⟨hwv, hw⟩
    · rwa [Function.update_self]
    · obtain ⟨hs, hnd, hhead, htail, hsize⟩ := hI.linked hw
      rw [Function.update_of_ne hwv]
      exact ⟨hs.frame (hkeep w m hwv hw), hnd, hhead, htail, hsize⟩
  · intro w m hw
    rcases update_cases hw with ⟨rfl, rfl⟩ | ⟨hwv, hw⟩
    · exact hclosed
    · exact hI.closed hw
  · intro w w' m m' hw₀ hw₀'
    rcases update_cases hw₀ with ⟨rfl, rfl⟩ | ⟨hwv, hw⟩
    · rcases update_cases hw₀' with ⟨rfl, rfl⟩ | ⟨hwv', hw'⟩
      · exact .inl ⟨rfl, rfl⟩
      · rw [Function.update_self, Function.update_of_ne hwv']
        exact happ w' m' hwv' hw'
    · rcases update_cases hw₀' with ⟨rfl, rfl⟩ | ⟨hwv', hw'⟩
      · rw [Function.update_self, Function.update_of_ne hwv]
        rcases happ w m hwv hw with ⟨he, hns⟩ | hdis
        · exact .inl ⟨he.symm, hns.symm⟩
        · exact .inr fun p hp hp' => hdis p hp' hp
      · rw [Function.update_of_ne hwv, Function.update_of_ne hwv']
        exact hI.apart hw hw'

theorem contents_update (s : State V α) (own : V → List (ℕ × α)) (h' : Heap α) (v : V) (l' : ListT)
    (ns' : List (ℕ × α)) :
    contents ⟨h', Function.update s.lists v (some l')⟩ (Function.update own v ns') =
      Function.update (contents s own) v (some (ns'.map Prod.snd)) := by
  funext w
  by_cases hwv : w = v
  · subst hwv
    simp [contents]
  · simp [contents, Function.update_of_ne hwv]

/-- A variable that goes out of scope takes its nodes with it. -/
theorem Inv.leave {s : State V α} {own : V → List (ℕ × α)} (hI : Inv s own) (v : V) :
    Inv { s with lists := Function.update s.lists v none } own := by
  have hold {w : V} {m : ListT} (hw : Function.update s.lists v none w = some m) :
      s.lists w = some m := by
    by_cases hwv : w = v
    · subst hwv
      rw [Function.update_self] at hw
      exact nomatch hw
    · rwa [Function.update_of_ne hwv] at hw
  exact ⟨hI.bounded, fun hw => hI.linked (hold hw), fun hw => hI.closed (hold hw),
    fun hw hw' => hI.apart (hold hw) (hold hw')⟩

theorem contents_leave (s : State V α) (own : V → List (ℕ × α)) (v : V) :
    contents { s with lists := Function.update s.lists v none } own =
      Function.update (contents s own) v none := by
  funext w
  by_cases hwv : w = v
  · subst hwv
    simp [contents]
  · simp [contents, Function.update_of_ne hwv]

omit [DecidableEq V] in
/-- A variable that is alone with its nodes has none in common with another. -/
theorem Inv.disjoint_of_alone {s : State V α} {own : V → List (ℕ × α)} (hI : Inv s own) {v w : V}
    {l m : ListT} (hv : s.lists v = some l) (hw : s.lists w = some m) (hne : w ≠ v)
    (halone : Alone s v l) : ∀ p ∈ ptrs (own v), p ∉ ptrs (own w) := by
  rcases hI.apart hv hw with ⟨he, hown⟩ | hdis
  · have hhead := halone w hne m hw (congrArg ListT.headPtr he.symm)
    have hlv := hI.linked hv
    intro p hp
    -- a NULL head means that there are no nodes
    match hns : own v with
    | [] => rw [hns] at hp; exact absurd hp List.not_mem_nil
    | n :: ns =>
      rw [hns] at hlv
      exact absurd (hlv.head.symm.trans hhead) hlv.seg.1
  · exact hdis

/-! ### One operation -/

/-- One operation keeps the invariant, and does to the sequences what it is for. -/
theorem step_spec {s : State V α} {own : V → List (ℕ × α)} (hI : Inv s own) {o : Op V α}
    (hd : InDomain s o) (hs : Safe s o) :
    ∃ s' own', step s o = some (s', (specStep (contents s own) o).2) ∧ Inv s' own' ∧
      contents s' own' = (specStep (contents s own) o).1 := by
  cases o with
  | init v =>
    refine ⟨_, Function.update own v [], rfl, hI.update hI.bounded
      ⟨trivial, List.nodup_nil, rfl, fun hne => absurd rfl hne, rfl⟩ (fun _ => rfl)
      (fun _ _ _ _ _ _ => rfl) (fun _ _ _ _ => .inr nofun), contents_update ..⟩
  | copy dst src =>
    obtain ⟨l, hl⟩ := Option.isSome_iff_exists.1 hd
    refine ⟨_, Function.update own dst (own src), by rw [step, hl]; rfl, hI.update hI.bounded
      (hI.linked hl) (hI.closed hl) (fun _ _ _ _ _ _ => rfl) (fun w m _ hw => hI.apart hl hw), ?_⟩
    rw [contents_update]
    simp [specStep, contents, hl]
  | leave v => exact ⟨_, own, rfl, hI.leave v, contents_leave ..⟩
  | call v c =>
    obtain ⟨l, hl, hneeds⟩ := hd
    obtain ⟨htakes, hchanges⟩ := hs l hl
    obtain ⟨h', l', ns', hexec, heff, hcont, hclosed, hsame⟩ :=
      c.exec_effect hI.bounded (hI.linked hl) (hI.closed hl) hneeds htakes
    have hspec : specStep (contents s own) (.call v c) =
        (Function.update (contents s own) v (some (ns'.map Prod.snd)),
          (c.spec ((own v).map Prod.snd)).2) := by
      rw [specStep, contents, Option.mem_def.1 hl, hcont]
      rfl
    refine ⟨⟨h', Function.update s.lists v (some l')⟩, Function.update own v ns', ?_, ?_, ?_⟩
    · rw [hspec, step, Option.mem_def.1 hl, Option.bind_some, hexec, Option.map_some]
    · refine hI.update heff.bounded heff.repr hclosed (fun w m hwv hw p hp => ?_)
        fun w m hwv hw => ?_
      · have hlt := (hI.linked hw).lt_fresh hI.bounded hp
        by_cases hch : c.changes
        · exact heff.keeps p hlt fun hpv => hI.disjoint_of_alone hl hw hwv (hchanges hch) p hpv hp
        · rw [(hsame (Bool.eq_false_iff.2 hch)).1]
      · by_cases hch : c.changes
        · refine .inr fun p hp hpw => ?_
          rcases heff.own p hp with hpv | hge
          · exact hI.disjoint_of_alone hl hw hwv (hchanges hch) p hpv hpw
          · exact absurd ((hI.linked hw).lt_fresh hI.bounded hpw) (Nat.not_lt.2 hge)
        · obtain ⟨-, rfl, rfl⟩ := hsame (Bool.eq_false_iff.2 hch)
          exact hI.apart hl hw
    · rw [contents_update, hspec]

/-! ### A whole program -/

omit [DecidableEq V] in
theorem Inv.refines {s : State V α} {own : V → List (ℕ × α)} (hI : Inv s own) :
    Refines s (contents s own) := by
  intro v
  refine ⟨by simp [contents], fun l hl xs hxs => ?_⟩
  rw [contents, Option.mem_def.1 hl, Option.map_some, Option.mem_some_iff] at hxs
  subst hxs
  have hr := hI.linked hl
  have htail := hr.tail_of_closed (hI.closed hl)
  refine ⟨?_, fun k hk => ?_, fun k hk => ?_, ?_, ?_⟩
  · rw [List.length_map, hr.size]
  · rw [iteratorStartFromHead, hr.head]
    exact Heap.visitNext_seg hr.seg (by rwa [List.length_map] at hk)
  · rw [iteratorStartFromTail, htail]
    exact Heap.visitPrev_seg hr.seg (by rwa [List.length_map] at hk)
  · rw [hr.head, hr.seg.firstPtr_eq_zero, List.map_eq_nil_iff]
  · rw [htail, hr.seg.lastPtr_eq_zero, List.map_eq_nil_iff]

theorem runStep_some (s : State V α) (out : List (List α)) (o : Op V α) :
    runStep (some (s, out)) o = (step s o).map fun r => (r.1, out ++ [r.2]) := rfl

/-- A program that stays in the domain and is safe never faults: it has handed out what the program on
    sequences has, and its lists are that program's sequences. -/
theorem run_spec {ops : List (Op V α)} (h : StepsMeet runStep (fun p o => Before InDomain p o ∧
    Before Safe p o) start ops) :
    ∃ s own, run runStep start ops = some (s, (run specRunStep specStart ops).2) ∧ Inv s own ∧
      contents s own = (run specRunStep specStart ops).1 := by
  refine run_hist (fun is p => ∃ s own, p = some (s, (run specRunStep specStart is).2) ∧ Inv s own ∧
    contents s own = (run specRunStep specStart is).1) ?_
    ⟨_, fun _ => [], rfl, inv_start, rfl⟩ h
  rintro is o ⟨s, own, hp, hI, hc⟩ - ⟨hd, hs⟩
  obtain ⟨s', own', hstep, hI', hc'⟩ := step_spec hI (hd _ hp) (hs _ hp)
  refine ⟨s', own', ?_, hI', ?_⟩
  · rw [hp, runStep_some, hstep, hc, run_concat, Option.map_some]
    rfl
  · rw [hc', hc, run_concat]
    rfl

/-- In every program that initialises its lists before it uses them and makes pops, gets, sets and
    removes on non-empty lists only, takes no list's only element and changes no nodes that two
    variables lead to: no operation faults, each has handed out what it is for, and in every state
    reached every list is its sequence. -/
theorem list_refines_sequence {ops : List (Op V α)} (hd : StepsMeet runStep (Before InDomain) start ops)
    (hs : StepsMeet runStep (Before Safe) start ops) {pre : List (Op V α)} (hpre : pre <+: ops) :
    ∃ s, run runStep start pre = some (s, (run specRunStep specStart pre).2) ∧
      Refines s (run specRunStep specStart pre).1 := by
  obtain ⟨s, own, hrun, hI, hc⟩ := run_spec ((stepsMeet_and.2 ⟨hd, hs⟩).of_initial hpre)
  exact ⟨s, hrun, hc ▸ hI.refines⟩

/-- A list is filled from both ends, handed over with `list_copy`, read through both variables, and
    emptied down to one element through the one that stays in scope. -/
def handOver : List (Op Bool ℕ) :=
  [.init true, .call true (.pushBack 1), .call true (.pushFront 2), .call true (.insert 3 1),
    .copy false true, .call true .iteratePrev, .call false (.get 7), .leave true,
    .call false (.remove 1), .call false .popBack]

theorem list_refines_handed_over :
    StepsMeet runStep (Before InDomain) start handOver ∧
      StepsMeet runStep (Before Safe) start handOver ∧
      ∃ s, run runStep start handOver =
          some (s, [[], [], [], [], [], [1, 3, 2], [1], [], [3], [1]]) ∧
        Refines s (run specRunStep specStart handOver).1 := by
  have hd : StepsMeet runStep (Before InDomain) start handOver := by decide
  have hs : StepsMeet runStep (Before Safe) start handOver := by decide
  exact ⟨hd, hs, list_refines_sequence hd hs (List.prefix_refl handOver)⟩

/-- Taking the only element of a list: `list_pop_back` stores through NULL, and `list_pop_front` leaves
    `tail_ptr` at the freed node, so the empty list does not have two NULL ends. -/
theorem only_element_taken :
    StepsMeet runStep (Before InDomain) start
        [.init (), .call () (.pushBack 7), .call () .popBack] ∧
      run runStep start [.init (), .call () (.pushBack 7), .call () .popBack] = none ∧
      StepsMeet runStep (Before InDomain) start
        [.init (), .call () (.pushBack 7), .call () .popFront] ∧
      ¬ ∃ s, run runStep start [.init (), .call () (.pushBack 7), .call () .popFront] =
          some (s, [[], [], [7]]) ∧
        Refines s (run specRunStep specStart [.init (), .call () (.pushBack 7), .call () .popFront]).1 := by
  refine ⟨by decide, rfl, by decide, ?_⟩
  rintro ⟨s, hs, href⟩
  obtain ⟨-, hrep⟩ := href ()
  obtain rfl := congrArg Prod.fst (Option.some.inj hs)
  exact absurd ((hrep _ rfl [] rfl).tail.2 rfl) (by decide)

end OpenMV.Collections
