import Mathlib.Data.List.Perm.Basic
import OpenMV.Io.Pixels

/-! Averaging overlapping detections | scheme:worklist | source:src/src/openmv/omv/img/rectangle.c,
    src/src/openmv/omv/array.c

    `rectangle_merge` takes the first rectangle and all that intersect it out of the list, adds the others up in the
    first one and divides; the first one goes to the objects and the others are freed. The sums are kept in the
    fields of the rectangle, which are `int16_t`. Rectangles are known by their pointers. -/

namespace OpenMV.Vision
open Io (rectangleIntersects)

abbrev Pointer := ℕ

/-! ### The code -/

def rectangleAdd (r1 r2 : Io.Rectangle) : Io.Rectangle :=
  { x := int16 (r1.x + r2.x)
    y := int16 (r1.y + r2.y)
    w := int16 (r1.w + r2.w)
    h := int16 (r1.h + r2.h) }

def rectangleDiv (r : Io.Rectangle) (c : ℤ) : Io.Rectangle :=
  { x := int16 (r.x.tdiv c)
    y := int16 (r.y.tdiv c)
    w := int16 (r.w.tdiv c)
    h := int16 (r.h.tdiv c) }

/-- The arrays hold pointers; `freed` are those given to `xfree`, in order. -/
structure RectangleMergeState where
  rectangles : List Pointer
  objects : List Pointer
  heap : Pointer → Io.Rectangle
  freed : List Pointer

/-- The loop over `j`, with `rectangles` and `overlap`. -/
def overlapLoop (heap : Pointer → Io.Rectangle) (rect : Pointer) :
    ℕ → ℕ → List Pointer → List Pointer → Option (List Pointer × List Pointer)
  | 0, _, _, _ => none
  | fuel + 1, j, rectangles, overlap =>
    match rectangles[j]? with
    | none => some (rectangles, overlap)
    | some r =>
      if rectangleIntersects (heap rect) (heap r) then
        overlapLoop heap rect fuel j (rectangles.eraseIdx j) (overlap ++ [r])
      else overlapLoop heap rect fuel (j + 1) rectangles overlap

/-- A round of the loop over `i`. -/
def addOverlap (rect : Pointer) (s : RectangleMergeState) (overlapRect : Pointer) : RectangleMergeState :=
  { s with
    heap := Function.update s.heap rect (rectangleAdd (s.heap rect) (s.heap overlapRect))
    freed := s.freed ++ [overlapRect] }

/-- The overlapping rectangles are popped from the back. -/
def averageInto (rect : Pointer) (s : RectangleMergeState) (overlap : List Pointer) : RectangleMergeState :=
  let s := overlap.reverse.foldl (addOverlap rect) s
  { s with
    heap := Function.update s.heap rect (rectangleDiv (s.heap rect) (overlap.length + 1))
    objects := s.objects ++ [rect] }

def mergeLoop : ℕ → RectangleMergeState → Option RectangleMergeState
  | 0, _ => none
  | fuel + 1, s =>
    match s.rectangles with
    | [] => some s
    | rect :: rest =>
      (overlapLoop s.heap rect (fuel + 1) 0 rest []).bind fun taken =>
        mergeLoop fuel (averageInto rect { s with rectangles := taken.1 } taken.2)

/-- `rectangle_merge`; at its end two empty arrays are freed. -/
def rectangleMerge (fuel : ℕ) (heap : Pointer → Io.Rectangle) (rectangles : List Pointer) :
    Option RectangleMergeState :=
  mergeLoop fuel ⟨rectangles, [], heap, []⟩

/-! ### The groups -/

/-- A first remaining rectangle and all remaining ones that intersect it, again and again. -/
inductive Grouping (heap : Pointer → Io.Rectangle) : List Pointer → List (Pointer × List Pointer) → Prop
  | nil : Grouping heap [] []
  | cons {rect : Pointer} {rest : List Pointer} {groups : List (Pointer × List Pointer)}
      (h : Grouping heap (rest.filter fun r => ¬ rectangleIntersects (heap rect) (heap r)) groups) :
      Grouping heap (rect :: rest)
        ((rect, rest.filter fun r => rectangleIntersects (heap rect) (heap r)) :: groups)

/-- The members of a group. -/
def members (g : Pointer × List Pointer) : List Pointer := g.1 :: g.2

/-- Each pointer is in one group, as often as it is in the list. -/
theorem Grouping.perm {heap : Pointer → Io.Rectangle} {ps : List Pointer} {groups : List (Pointer × List Pointer)}
    (h : Grouping heap ps groups) : (groups.flatMap members).Perm ps := by
  induction h with
  | nil => exact List.Perm.refl []
  | @cons rect rest groups h ih =>
    rw [List.flatMap_cons, members, List.cons_append]
    refine List.Perm.cons rect ((ih.append_left _).trans ?_)
    simpa only [decide_not] using List.filter_append_perm _ rest

/-- The fields of a rectangle. -/
def fields : List (Io.Rectangle → ℤ) := [fun r => r.x, fun r => r.y, fun r => r.w, fun r => r.h]

def total (heap : Pointer → Io.Rectangle) (f : Io.Rectangle → ℤ) (ps : List Pointer) : ℤ :=
  (ps.map fun p => f (heap p)).sum

/-- The average of the members, each component rounded towards zero. -/
def average (heap : Pointer → Io.Rectangle) (ps : List Pointer) : Io.Rectangle :=
  { x := (total heap (fun r => r.x) ps).tdiv ps.length
    y := (total heap (fun r => r.y) ps).tdiv ps.length
    w := (total heap (fun r => r.w) ps).tdiv ps.length
    h := (total heap (fun r => r.h) ps).tdiv ps.length }

/-- The totals fit their fields, or are so small that the average is zero in any case. -/
def Fits (heap : Pointer → Io.Rectangle) (ps : List Pointer) : Prop :=
  ∀ f ∈ fields, (-32768 ≤ total heap f ps ∧ total heap f ps ≤ 32767) ∨
    32768 < ps.length ∧ |total heap f ps| < ps.length

/-! ### One group -/

theorem fields_add {f : Io.Rectangle → ℤ} (hf : f ∈ fields) (r1 r2 : Io.Rectangle) :
    f (rectangleAdd r1 r2) = int16 (f r1 + f r2) := by
  simp only [fields, List.mem_cons, List.not_mem_nil, or_false] at hf
  rcases hf with rfl | rfl | rfl | rfl <;> rfl

theorem fields_div {f : Io.Rectangle → ℤ} (hf : f ∈ fields) (r : Io.Rectangle) (c : ℤ) :
    f (rectangleDiv r c) = int16 ((f r).tdiv c) := by
  simp only [fields, List.mem_cons, List.not_mem_nil, or_false] at hf
  rcases hf with rfl | rfl | rfl | rfl <;> rfl

theorem fields_average {f : Io.Rectangle → ℤ} (hf : f ∈ fields) (heap : Pointer → Io.Rectangle) (ps : List Pointer) :
    f (average heap ps) = (total heap f ps).tdiv ps.length := by
  simp only [fields, List.mem_cons, List.not_mem_nil, or_false] at hf
  rcases hf with rfl | rfl | rfl | rfl <;> rfl

theorem eq_iff_fields (r r' : Io.Rectangle) : r = r' ↔ ∀ f ∈ fields, f r = f r' := by
  cases r
  cases r'
  simp [fields]

theorem fields_ok {f : Io.Rectangle → ℤ} (hf : f ∈ fields) {r : Io.Rectangle} (hr : r.Ok) :
    -32768 ≤ f r ∧ f r ≤ 32767 := by
  simp only [fields, List.mem_cons, List.not_mem_nil, or_false] at hf
  rcases hf with rfl | rfl | rfl | rfl
  · exact hr.x
  · exact hr.y
  · exact hr.w
  · exact hr.h

theorem int16_add_left (a b : ℤ) : int16 (int16 a + b) = int16 (a + b) := by
  unfold int16
  omega

/-- The sums, as they are kept in the field. -/
theorem foldl_addOverlap {rect : Pointer} : ∀ {ps : List Pointer} {s : RectangleMergeState}, rect ∉ ps →
    ps.foldl (addOverlap rect) s = { s with
      heap := (ps.foldl (addOverlap rect) s).heap, freed := s.freed ++ ps } ∧
    (∀ p, p ≠ rect → (ps.foldl (addOverlap rect) s).heap p = s.heap p) ∧
    ∀ f ∈ fields, ∀ v, f (s.heap rect) = int16 v →
      f ((ps.foldl (addOverlap rect) s).heap rect) = int16 (v + total s.heap f ps)
  | [], s, _ => by
      refine ⟨?_, fun p _ => rfl, fun f _ v hv => ?_⟩
      · rw [List.append_nil]
        rfl
      · rw [total, List.map_nil, List.sum_nil, add_zero]
        exact hv
  | p :: ps, s, hnot => by
      rw [List.mem_cons, not_or] at hnot
      obtain ⟨heq, hother, hsum⟩ := @foldl_addOverlap rect ps (addOverlap rect s p) hnot.2
      have hheap : ∀ q, q ≠ rect → (addOverlap rect s p).heap q = s.heap q := fun q hq => Function.update_of_ne hq _ _
      rw [List.foldl_cons]
      refine ⟨?_, fun q hq => (hother q hq).trans (hheap q hq), fun f hf v hv => ?_⟩
      · rw [heq]
        simp [addOverlap]
      · have hadd : f ((addOverlap rect s p).heap rect) = int16 (v + f (s.heap p)) := by
          rw [addOverlap]
          dsimp only
          rw [Function.update_self, fields_add hf, hv, int16_add_left]
        have htotal : total (addOverlap rect s p).heap f ps = total s.heap f ps := by
          refine congrArg List.sum (List.map_congr_left fun q hq => ?_)
          rw [hheap q (by rintro rfl; exact hnot.2 hq)]
        rw [hsum f hf _ hadd, htotal, add_assoc]
        rfl

/-- A quotient fits where the dividend does. -/
theorem int16_tdiv_int16 (t : ℤ) {n : ℤ} (hn : 0 < n) : int16 ((int16 t).tdiv n) = (int16 t).tdiv n := by
  have hrange : -32768 ≤ int16 t ∧ int16 t ≤ 32767 := by
    unfold int16
    omega
  have habs := Int.natAbs_tdiv_le_natAbs (int16 t) n
  have hne : (int16 t).tdiv n ≠ 32768 := by
    intro hq
    have hsplit := Int.mul_tdiv_add_tmod (int16 t) n
    have hgt := Int.lt_tmod_of_pos (int16 t) hn
    rw [hq] at hsplit
    omega
  exact int16_of_mem (by omega) (by omega)

theorem tdiv_eq_zero_iff {t n : ℤ} (hn : 0 < n) : t.tdiv n = 0 ↔ |t| < n := by
  have hsplit := Int.mul_tdiv_add_tmod t n
  have hlt := Int.tmod_lt_of_pos t hn
  have hgt := Int.lt_tmod_of_pos t hn
  rw [abs_lt]
  constructor
  · intro h0
    rw [h0, mul_zero, zero_add] at hsplit
    omega
  · rintro ⟨h1, h2⟩
    rcases le_total 0 t with ht | ht
    · exact Int.tdiv_eq_zero_of_lt ht h2
    · rw [← neg_neg t, Int.neg_tdiv, Int.tdiv_eq_zero_of_lt (by omega) (by omega), neg_zero]

/-- Two numbers with the same quotient, which is not zero, have the same sign and are less than the divisor apart. -/
theorem near_of_tdiv_eq {t t' n : ℤ} (hn : 0 < n) (h : t'.tdiv n = t.tdiv n) (h0 : t.tdiv n ≠ 0) :
    (n ≤ t ∧ n ≤ t' ∨ t ≤ -n ∧ t' ≤ -n) ∧ |t - t'| < n := by
  have hsplit := Int.mul_tdiv_add_tmod t n
  have hsplit' := Int.mul_tdiv_add_tmod t' n
  have hlt := Int.tmod_lt_of_pos t hn
  have hlt' := Int.tmod_lt_of_pos t' hn
  have hgt := Int.lt_tmod_of_pos t hn
  have hgt' := Int.lt_tmod_of_pos t' hn
  rw [h] at hsplit'
  rw [abs_lt]
  rcases lt_or_gt_of_ne h0 with hneg | hpos
  · have hle : n * t.tdiv n ≤ -n := by nlinarith
    have h1 := Int.tmod_nonneg n (show 0 ≤ -t by omega)
    have h2 := Int.tmod_nonneg n (show 0 ≤ -t' by omega)
    rw [Int.neg_tmod] at h1 h2
    omega
  · have hle : n ≤ n * t.tdiv n := by nlinarith
    have h1 := Int.tmod_nonneg n (show 0 ≤ t by omega)
    have h2 := Int.tmod_nonneg n (show 0 ≤ t' by omega)
    omega

/-- A total that does not fit its field gives the right average only if that is zero. -/
theorem tdiv_int16_iff {t n : ℤ} (hn : 0 < n) : (int16 t).tdiv n = t.tdiv n ↔
    (-32768 ≤ t ∧ t ≤ 32767) ∨ 32768 < n ∧ |t| < n := by
  have hrange : -32768 ≤ int16 t ∧ int16 t ≤ 32767 := by
    unfold int16
    omega
  constructor
  · intro h
    by_cases hfits : -32768 ≤ t ∧ t ≤ 32767
    · exact Or.inl hfits
    right
    by_cases h0 : t.tdiv n = 0
    · have hlt := (tdiv_eq_zero_iff hn).1 h0
      rw [abs_lt] at hlt ⊢
      omega
    · have hnear := near_of_tdiv_eq hn h h0
      have hfar : 65536 ≤ |t - int16 t| := by
        rw [le_abs]
        unfold int16
        omega
      omega
  · rintro (⟨h1, h2⟩ | ⟨hbig, hlt⟩)
    · rw [int16_of_mem h1 h2]
    · rw [(tdiv_eq_zero_iff hn).2 hlt]
      refine (tdiv_eq_zero_iff hn).2 ?_
      rw [abs_lt]
      omega

/-! ### The run -/

section Run

variable {heap : Pointer → Io.Rectangle} {rect : Pointer}

/-- The loop over `j` takes out what intersects, in order, and ends. -/
theorem overlapLoop_spec : ∀ (todo done overlap : List Pointer) (fuel : ℕ), todo.length < fuel →
    overlapLoop heap rect fuel done.length (done ++ todo) overlap =
      some (done ++ todo.filter fun r => ¬ rectangleIntersects (heap rect) (heap r),
        overlap ++ todo.filter fun r => rectangleIntersects (heap rect) (heap r))
  | [], done, overlap, fuel + 1, _ => by simp [overlapLoop]
  | r :: todo, done, overlap, fuel + 1, hfuel => by
      have hat : (done ++ r :: todo)[done.length]? = some r := by simp
      rw [overlapLoop, hat]
      dsimp only
      by_cases hr : rectangleIntersects (heap rect) (heap r)
      · have herase : (done ++ r :: todo).eraseIdx done.length = done ++ todo := by
          rw [List.eraseIdx_append_of_length_le le_rfl, Nat.sub_self]
          rfl
        rw [if_pos hr, herase, overlapLoop_spec todo done _ fuel (Nat.lt_of_succ_lt_succ hfuel)]
        simp [hr]
      · have hnext := overlapLoop_spec todo (done ++ [r]) overlap fuel (Nat.lt_of_succ_lt_succ hfuel)
        rw [List.length_append, List.length_singleton, List.append_assoc, List.singleton_append] at hnext
        rw [if_neg hr, hnext]
        simp [hr]

/-- What one group leaves behind. -/
theorem averageInto_spec {s : RectangleMergeState} {overlap : List Pointer} (hnot : rect ∉ overlap)
    (hok : (s.heap rect).Ok) : ∃ heap', averageInto rect s overlap =
      { s with heap := heap', objects := s.objects ++ [rect], freed := s.freed ++ overlap.reverse } ∧
    (∀ p, p ≠ rect → heap' p = s.heap p) ∧
    ∀ f ∈ fields, f (heap' rect) = int16 ((int16 (total s.heap f (rect :: overlap))).tdiv (overlap.length + 1)) := by
  obtain ⟨heq, hother, hsum⟩ := @foldl_addOverlap rect overlap.reverse s (by rwa [List.mem_reverse])
  rw [averageInto]
  generalize overlap.reverse.foldl (addOverlap rect) s = t at heq hother hsum ⊢
  refine ⟨Function.update t.heap rect (rectangleDiv (t.heap rect) (overlap.length + 1)), ?_, fun p hp => ?_,
    fun f hf => ?_⟩
  · rw [heq]
  · rw [Function.update_of_ne hp, hother p hp]
  · have hv := fields_ok hf hok
    have htotal : total s.heap f overlap.reverse = total s.heap f overlap := by
      rw [total, List.map_reverse, List.sum_reverse]
      rfl
    rw [Function.update_self, fields_div hf, hsum f hf _ (int16_of_mem hv.1 hv.2).symm, htotal]
    rfl

/-- The rectangles that are taken out are those that overlapped at first. -/
theorem overlapLoop_filter {heap h : Pointer → Io.Rectangle} {rect : Pointer} {rest : List Pointer}
    (hrect : h rect = heap rect) (hrest : ∀ p ∈ rest, h p = heap p) {fuel : ℕ} (hfuel : rest.length < fuel) :
    overlapLoop h rect fuel 0 rest [] = some (rest.filter fun r => ¬ rectangleIntersects (heap rect) (heap r),
      rest.filter fun r => rectangleIntersects (heap rect) (heap r)) := by
  have hspec := @overlapLoop_spec h rect rest [] [] fuel hfuel
  rw [List.nil_append, List.nil_append, List.nil_append, List.length_nil] at hspec
  rw [hspec, hrect]
  congr 2
  · exact List.filter_congr fun r hr => by rw [hrest r hr]
  · exact List.filter_congr fun r hr => by rw [hrest r hr]

theorem mergeLoop_nil {objects freed : List Pointer} {h : Pointer → Io.Rectangle} {fuel : ℕ} (hfuel : 0 < fuel) :
    mergeLoop fuel ⟨[], objects, h, freed⟩ = some ⟨[], objects, h, freed⟩ := by
  obtain ⟨fuel, rfl⟩ := Nat.exists_eq_succ_of_ne_zero hfuel.ne'
  rfl

/-- What the loop does from a state whose remaining rectangles are as they were at first: the groups come from these
    alone, and only their first members change. -/
theorem mergeLoop_spec (heap : Pointer → Io.Rectangle) : ∀ (n : ℕ) (s : RectangleMergeState), s.rectangles.length ≤ n →
    s.rectangles.Nodup → (∀ p ∈ s.rectangles, s.heap p = heap p ∧ (heap p).Ok) → ∃ s' groups,
      (∀ fuel, s.rectangles.length < fuel → mergeLoop fuel s = some s') ∧ Grouping heap s.rectangles groups ∧
      s'.objects = s.objects ++ groups.map Prod.fst ∧ s'.freed.Perm (s.freed ++ groups.flatMap Prod.snd) ∧
      (∀ p, p ∉ s.rectangles → s'.heap p = s.heap p) ∧
      ∀ g ∈ groups, ∀ f ∈ fields,
        f (s'.heap g.1) = int16 ((int16 (total heap f (members g))).tdiv (members g).length) := by
  intro n
  induction n with
  | zero =>
    rintro ⟨rectangles, objects, h, freed⟩ hlen - -
    obtain rfl := List.length_eq_zero_iff.1 (Nat.le_zero.1 hlen)
    exact ⟨_, [], fun fuel hfuel => mergeLoop_nil hfuel, .nil, by simp, by simp, fun _ _ => rfl, by simp⟩
  | succ n ih =>
    rintro ⟨rectangles, objects, h, freed⟩ hlen hnd hheap
    rcases rectangles with _ | ⟨rect, rest⟩
    · exact ⟨_, [], fun fuel hfuel => mergeLoop_nil hfuel, .nil, by simp, by simp, fun _ _ => rfl, by simp⟩
    · rw [List.nodup_cons] at hnd
      rw [List.forall_mem_cons] at hheap
      obtain ⟨⟨(hrect : h rect = heap rect), hok⟩, (hrest : ∀ p ∈ rest, h p = heap p ∧ (heap p).Ok)⟩ := hheap
      set taken := rest.filter fun r => rectangleIntersects (heap rect) (heap r)
      set left := rest.filter fun r => ¬ rectangleIntersects (heap rect) (heap r)
      have hloop : ∀ fuel, rest.length < fuel → overlapLoop h rect fuel 0 rest [] = some (left, taken) :=
        fun fuel hfuel => overlapLoop_filter hrect (fun r hr => (hrest r hr).1) hfuel
      have hnot : rect ∉ taken := fun hmem => hnd.1 (List.mem_of_mem_filter hmem)
      have hnot' : rect ∉ left := fun hmem => hnd.1 (List.mem_of_mem_filter hmem)
      obtain ⟨heap', hgroup, hother, hfields⟩ :=
        @averageInto_spec rect ⟨left, objects, h, freed⟩ taken hnot
          (show (h rect).Ok by rw [hrect]; exact hok)
      obtain ⟨s', groups, hrun, hgrouping, hobjects, hfreed, hsame, hgroups⟩ :=
        ih ⟨left, objects ++ [rect], heap', freed ++ taken.reverse⟩
          ((List.length_filter_le _ _).trans (Nat.le_of_succ_le_succ hlen)) (hnd.2.filter _) fun p hp => by
            have hkept : heap' p = h p := hother p (by rintro rfl; exact hnot' hp)
            exact ⟨hkept.trans (hrest p (List.mem_of_mem_filter hp)).1, (hrest p (List.mem_of_mem_filter hp)).2⟩
      refine ⟨s', (rect, taken) :: groups, fun fuel hfuel => ?_, .cons hgrouping, ?_, ?_, fun p hp => ?_, ?_⟩
      · obtain ⟨fuel, rfl⟩ := Nat.exists_eq_succ_of_ne_zero (Nat.zero_lt_of_lt hfuel).ne'
        have hlt : rest.length < fuel := Nat.lt_of_succ_lt_succ hfuel
        rw [mergeLoop]
        dsimp only
        rw [hloop _ (hlt.trans (Nat.lt_succ_self fuel)), Option.bind_some, hgroup]
        exact hrun fuel ((List.length_filter_le _ _).trans_lt hlt)
      · rw [hobjects, List.map_cons, List.append_assoc, List.singleton_append]
      · refine hfreed.trans ?_
        rw [List.flatMap_cons, List.append_assoc]
        exact ((List.reverse_perm taken).append_right _).append_left _
      · rw [List.mem_cons, not_or] at hp
        exact (hsame p fun hmem => hp.2 (List.mem_of_mem_filter hmem)).trans (hother p hp.1)
      · rw [List.forall_mem_cons]
        refine ⟨fun f hf => ?_, hgroups⟩
        have htotal : total h f (rect :: taken) = total heap f (members (rect, taken)) := by
          refine congrArg List.sum (List.map_congr_left fun p hp => congrArg f ?_)
          rcases List.mem_cons.1 hp with rfl | hp
          · exact hrect
          · exact (hrest p (List.mem_of_mem_filter hp)).1
        rw [hsame rect hnot', hfields f hf, htotal]
        rfl

end Run

/-- The loops end, the rectangles are partitioned into the groups, the first member of each is returned and the
    others are freed, each once; and a first member holds the average of its group just if the totals fit. -/
theorem rectangle_merge_iff (heap : Pointer → Io.Rectangle) (rectangles : List Pointer) (hnd : rectangles.Nodup)
    (hok : ∀ p ∈ rectangles, (heap p).Ok) : ∃ s groups,
      (∀ fuel, rectangles.length < fuel → rectangleMerge fuel heap rectangles = some s) ∧
      Grouping heap rectangles groups ∧ (groups.flatMap members).Perm rectangles ∧
      s.objects = groups.map Prod.fst ∧ (s.objects ++ s.freed).Perm rectangles ∧
      ((∀ g ∈ groups, s.heap g.1 = average heap (members g)) ↔ ∀ g ∈ groups, Fits heap (members g)) := by
  obtain ⟨s, groups, hrun, hgrouping, hobjects, hfreed, -, hfields⟩ :=
    mergeLoop_spec heap rectangles.length ⟨rectangles, [], heap, []⟩ le_rfl hnd fun p hp => ⟨rfl, hok p hp⟩
  rw [List.nil_append] at hobjects hfreed
  refine ⟨s, groups, hrun, hgrouping, hgrouping.perm, hobjects, ?_, forall₂_congr fun g hg => ?_⟩
  · refine List.Perm.trans ?_ hgrouping.perm
    rw [hobjects]
    exact (hfreed.append_left _).trans (List.map_append_flatMap_perm groups Prod.fst Prod.snd)
  · have hlen : (0 : ℤ) < (members g).length := Nat.cast_pos.2 (Nat.succ_pos _)
    rw [eq_iff_fields]
    refine forall₂_congr fun f hf => ?_
    rw [hfields g hg f hf, fields_average hf, int16_tdiv_int16 _ hlen, tdiv_int16_iff hlen]
    norm_cast


/-- Three rectangles, of which the first two intersect. -/
def threeRectangles (p : Pointer) : Io.Rectangle :=
  if p = 0 then ⟨0, 0, 20, 20⟩ else if p = 1 then ⟨10, 11, 20, 21⟩ else ⟨100, 100, 5, 5⟩

theorem rectangle_merge_three : ∃ s groups,
    (∀ fuel, [0, 1, 2].length < fuel → rectangleMerge fuel threeRectangles [0, 1, 2] = some s) ∧
    Grouping threeRectangles [0, 1, 2] groups ∧ (groups.flatMap members).Perm [0, 1, 2] ∧
    s.objects = groups.map Prod.fst ∧ (s.objects ++ s.freed).Perm [0, 1, 2] ∧
    ((∀ g ∈ groups, s.heap g.1 = average threeRectangles (members g)) ↔
      ∀ g ∈ groups, Fits threeRectangles (members g)) :=
  rectangle_merge_iff threeRectangles [0, 1, 2] (by decide) (by
    simp only [List.forall_mem_cons, threeRectangles]
    exact ⟨⟨by decide, by decide, by decide, by decide⟩, ⟨by decide, by decide, by decide, by decide⟩,
      ⟨by decide, by decide, by decide, by decide⟩, fun _ h => absurd h List.not_mem_nil⟩)

/-- Two detections around column 20000, whose sum is not an `int16_t`. -/
theorem rectangle_merge_wraps :
    (rectangleMerge 3 (fun _ => ⟨20000, 0, 24, 24⟩) [0, 1]).map (fun s => (s.objects, s.heap 0, s.freed)) =
      some ([0], ⟨-12768, 0, 24, 24⟩, [1]) ∧
    average (fun _ => ⟨20000, 0, 24, 24⟩) [0, 1] = ⟨20000, 0, 24, 24⟩ := by
  decide

end OpenMV.Vision
