import LogoEngine.Heap.Census
import LogoEngine.Proofs.Heap.Changes
import Mathlib.Algebra.BigOperators.Fin
import Mathlib.Algebra.Order.BigOperators.Group.Finset

/-!
# What the census finds alive

Throughout a sweep the count of an object is the number of handles on it plus the number of
references to it from objects that are not given up yet (`Census.Tally`), and only objects whose
count is zero are given up.

Main statements: what a handle leads to is alive (`Census.isAlive_of_refers`), and which objects are
alive depends on which objects have a handle, not on how many (`Census.isAlive_congr`).
-/

namespace LogoEngine

/-- One object is among the references of another. -/
def Heap.Refers (h : Heap) (r s : Ref) : Prop :=
  s ∈ (h.get r).references

theorem Heap.Refers.lt_size {h : Heap} {r s : Ref} (hrefers : h.Refers r s) :
    r.index < h.objects.size := by
  refine Heap.lt_size_of_get fun hget => ?_
  rw [Refers, hget] at hrefers
  exact List.not_mem_nil hrefers

namespace Census

/-! ### Counting -/

@[simp]
theorem size_countUp (counts : Array Nat) (r : Ref) : (countUp counts r).size = counts.size := by
  simp [countUp]

theorem getD_countUp (counts : Array Nat) (r : Ref) {i : Nat} (hi : i < counts.size) :
    (countUp counts r).getD i 0 = counts.getD i 0 + if r = ⟨i⟩ then 1 else 0 := by
  have hiff : r.index = i ↔ r = ⟨i⟩ := by cases r; simp
  by_cases hr : r = ⟨i⟩
  · simp [countUp, Array.getD, hi, Array.getElem_modify, hr]
  · simp [countUp, Array.getD, hi, Array.getElem_modify, mt hiff.mp hr, hr]

@[simp]
theorem size_foldl_countUp (refs : List Ref) (counts : Array Nat) :
    (refs.foldl countUp counts).size = counts.size := by
  induction refs generalizing counts with
  | nil => rfl
  | cons r refs ih => rw [List.foldl_cons, ih, size_countUp]

theorem getD_foldl_countUp (refs : List Ref) (counts : Array Nat) {i : Nat}
    (hi : i < counts.size) :
    (refs.foldl countUp counts).getD i 0 = counts.getD i 0 + refs.count ⟨i⟩ := by
  induction refs generalizing counts with
  | nil => rfl
  | cons r refs ih =>
    rw [List.foldl_cons, ih _ (by simpa using hi), getD_countUp counts r hi, List.count_cons]
    simp only [beq_iff_eq]
    omega

@[simp]
theorem size_drop (refs : List Ref) (counts : Array Nat) (todo : List Nat) :
    (drop refs counts todo).1.size = counts.size := by
  induction refs generalizing counts todo with
  | nil => rfl
  | cons r refs ih => rw [drop, ih, Array.size_setIfInBounds]

theorem getD_setIfInBounds (counts : Array Nat) {r : Ref} {n : Nat} (i : Nat)
    (hn : r.index < counts.size ∨ n = 0) :
    (counts.setIfInBounds r.index n).getD i 0 = if r = ⟨i⟩ then n else counts.getD i 0 := by
  have hiff : r.index = i ↔ r = ⟨i⟩ := by cases r; simp
  by_cases hr : r = ⟨i⟩
  · rw [if_pos hr, hiff.mpr hr]
    rcases hn with hlt | rfl
    · simp [Array.getD, hiff.mpr hr ▸ hlt]
    · by_cases hlt : i < counts.size <;> simp [Array.getD, hlt]
  · rw [if_neg hr]
    by_cases hi : i < counts.size
    · simp [Array.getD, hi, mt hiff.mp hr]
    · simp [Array.getD, hi]

/-- Every reference that is taken away lowers a count by one. -/
theorem getD_drop (refs : List Ref) (counts : Array Nat) (todo : List Nat) (i : Nat) :
    (drop refs counts todo).1.getD i 0 = counts.getD i 0 - refs.count ⟨i⟩ := by
  induction refs generalizing counts todo with
  | nil => rfl
  | cons r refs ih =>
    have hn : r.index < counts.size ∨ counts.getD r.index 0 - 1 = 0 := by
      by_cases hlt : r.index < counts.size
      · exact .inl hlt
      · exact .inr (by simp [Array.getD, hlt])
    rw [drop, ih, getD_setIfInBounds counts i hn, List.count_cons]
    by_cases hr : r = ⟨i⟩
    · simp only [hr, if_true, beq_self_eq_true]
      omega
    · simp [hr]

/-- What is put on the list to give up has no reference left. -/
theorem getD_drop_of_mem (refs : List Ref) (counts : Array Nat) (todo : List Nat) {i : Nat}
    (hi : i ∈ (drop refs counts todo).2) :
    i ∈ todo ∨ (drop refs counts todo).1.getD i 0 = 0 := by
  induction refs generalizing counts todo with
  | nil => exact .inl hi
  | cons r refs ih =>
    rw [drop] at hi ⊢
    rcases ih _ _ hi with htodo | hzero
    · split at htodo
      · next hleft =>
        rcases List.mem_cons.mp htodo with rfl | htodo
        · -- the count of `r` is zero now and cannot fall further
          right
          have hn := beq_iff_eq.mp hleft
          rw [getD_drop, getD_setIfInBounds counts r.index (.inr hn), if_pos rfl, hn, Nat.zero_sub]
        · exact .inl htodo
      · exact .inl htodo
    · exact .inr hzero

/-! ### The tally of a sweep -/

/-- How many references lead to an object from objects that are not given up. -/
def edges (h : Heap) (gone : Array Bool) (i : Nat) : Nat :=
  ∑ j ∈ Finset.range h.objects.size,
    if gone.getD j true then 0 else (h.get ⟨j⟩).references.count ⟨i⟩

/-- Giving up an object takes its references away. -/
theorem edges_setIfInBounds {h : Heap} {gone : Array Bool} {j : Nat} (hj : j < h.objects.size)
    (hsize : gone.size = h.objects.size) (hgone : gone.getD j true = false) (i : Nat) :
    edges h gone i =
      edges h (gone.setIfInBounds j true) i + (h.get ⟨j⟩).references.count ⟨i⟩ := by
  have hmem : j ∈ Finset.range h.objects.size := Finset.mem_range.mpr hj
  have hself : (gone.setIfInBounds j true).getD j true = true := by
    simp [Array.getD, hsize, hj]
  have hothers : ∀ k ∈ (Finset.range h.objects.size).erase j,
      (if gone.getD k true then 0 else (h.get ⟨k⟩).references.count ⟨i⟩) =
        if (gone.setIfInBounds j true).getD k true then 0
        else (h.get ⟨k⟩).references.count ⟨i⟩ := by
    intro k hk
    have hne : j ≠ k := (Finset.ne_of_mem_erase hk).symm
    have hlt : k < gone.size := by
      rw [hsize]
      exact Finset.mem_range.mp (Finset.mem_of_mem_erase hk)
    simp [Array.getD, hlt, hne]
  unfold edges
  rw [← Finset.add_sum_erase _ _ hmem, ← Finset.add_sum_erase _ _ hmem, hself, hgone,
    Finset.sum_congr rfl hothers]
  simp only [Bool.false_eq_true, if_false, if_true]
  omega

/-- What holds throughout a sweep. -/
structure Tally (h : Heap) (handles : List Ref) (todo : List Nat) (c : Census) : Prop where
  size_counts : c.counts.size = h.objects.size
  size_gone : c.gone.size = h.objects.size
  counts_eq : ∀ i < h.objects.size, c.counts.getD i 0 = handles.count ⟨i⟩ + edges h c.gone i
  zero_of_todo : ∀ i ∈ todo, c.counts.getD i 0 = 0
  zero_of_gone : ∀ i < h.objects.size, c.gone.getD i true = true → c.counts.getD i 0 = 0

variable {h : Heap} {handles : List Ref}

/-- Giving up one object keeps the tally. -/
theorem Tally.next {todo : List Nat} {counts : Array Nat} {gone : Array Bool} {j : Nat}
    (ht : Tally h handles (j :: todo) ⟨counts, gone⟩) (hgone : gone.getD j true = false) :
    Tally h handles (drop (h.get ⟨j⟩).references counts todo).2
      ⟨(drop (h.get ⟨j⟩).references counts todo).1, gone.setIfInBounds j true⟩ := by
  have hj : j < h.objects.size := by
    by_contra hlt
    simp [Array.getD, ht.size_gone, hlt] at hgone
  refine ⟨?_, ?_, fun i hi => ?_, fun i hi => ?_, fun i hi hout => ?_⟩
  · rw [size_drop]
    exact ht.size_counts
  · rw [Array.size_setIfInBounds]
    exact ht.size_gone
  · have hcount : counts.getD i 0 = handles.count ⟨i⟩ + edges h gone i := ht.counts_eq i hi
    have hedges := edges_setIfInBounds hj ht.size_gone hgone i
    rw [getD_drop, hcount, hedges]
    exact (Nat.add_assoc _ _ _ ▸ Nat.add_sub_cancel _ _)
  · rcases getD_drop_of_mem _ _ _ hi with htodo | hzero
    · have hold := ht.zero_of_todo i (List.mem_cons_of_mem j htodo)
      rw [getD_drop]
      simp only at hold
      omega
    · exact hzero
  · have hold : counts.getD i 0 = 0 := by
      by_cases hij : i = j
      · exact ht.zero_of_todo i (hij ▸ List.mem_cons_self)
      · refine ht.zero_of_gone i hi ?_
        have hlt : i < gone.size := ht.size_gone ▸ hi
        simpa [Array.getD, hlt, Array.getElem_setIfInBounds, Ne.symm hij] using hout
    rw [getD_drop]
    omega

theorem Tally.sweep (fuel : Nat) {todo : List Nat} {c : Census} (ht : Tally h handles todo c) :
    ∃ todo', Tally h handles todo' (sweep h fuel todo c) := by
  induction fuel generalizing todo c with
  | zero => exact ⟨todo, by rwa [Census.sweep]⟩
  | succ fuel ih =>
    cases todo with
    | nil => exact ⟨[], by rwa [Census.sweep.eq_2 _ _ _ (Nat.succ_ne_zero fuel)]⟩
    | cons j todo =>
      obtain ⟨counts, gone⟩ := c
      rw [Census.sweep]
      split
      · exact ih { ht with zero_of_todo := fun i hi => ht.zero_of_todo i (.tail j hi) }
      · next hgone => exact ih (ht.next (by simpa using hgone))

/-! ### The start of a sweep -/

/-- The counts a sweep starts with. -/
def tallied (h : Heap) (handles : List Ref) : Array Nat :=
  handles.foldl countUp
    (h.objects.foldl (fun counts o => o.references.foldl countUp counts)
      (Array.replicate h.objects.size 0))

theorem size_foldl_objects (objects : List Object) (counts : Array Nat) :
    (objects.foldl (fun counts o => o.references.foldl countUp counts) counts).size =
      counts.size := by
  induction objects generalizing counts with
  | nil => rfl
  | cons o objects ih => rw [List.foldl_cons, ih, size_foldl_countUp]

theorem getD_foldl_objects (objects : List Object) (counts : Array Nat) {i : Nat}
    (hi : i < counts.size) :
    (objects.foldl (fun counts o => o.references.foldl countUp counts) counts).getD i 0 =
      counts.getD i 0 + (objects.map fun o => o.references.count ⟨i⟩).sum := by
  induction objects generalizing counts with
  | nil => simp
  | cons o objects ih =>
    rw [List.foldl_cons, ih _ (by simp [hi]), getD_foldl_countUp _ _ hi, List.map_cons,
      List.sum_cons]
    omega

theorem edges_start (h : Heap) (i : Nat) :
    edges h (Array.replicate h.objects.size false) i =
      (h.objects.toList.map fun o => o.references.count ⟨i⟩).sum := by
  rw [edges, Finset.sum_range, ← Fin.sum_univ_getElem]
  refine Fin.sum_congr' _ (by simp) |>.symm.trans (Finset.sum_congr rfl fun j _ => ?_) |>.symm
  have hj : (j : Nat) < h.objects.size := by simp
  simp [Array.getD, Heap.get, hj]

theorem size_tallied (h : Heap) (handles : List Ref) :
    (tallied h handles).size = h.objects.size := by
  rw [tallied, size_foldl_countUp, ← Array.foldl_toList, size_foldl_objects, Array.size_replicate]

theorem getD_tallied (h : Heap) (handles : List Ref) {i : Nat} (hi : i < h.objects.size) :
    (tallied h handles).getD i 0 =
      handles.count ⟨i⟩ + edges h (Array.replicate h.objects.size false) i := by
  have hsize : i < (Array.replicate h.objects.size 0).size := by simpa using hi
  have hzero : (Array.replicate h.objects.size 0).getD i 0 = 0 := by simp [Array.getD, hi]
  rw [tallied, ← Array.foldl_toList, getD_foldl_countUp _ _ (by rwa [size_foldl_objects]),
    getD_foldl_objects _ _ hsize, hzero, edges_start]
  omega

/-- The objects a sweep starts with. -/
def idle (h : Heap) (counts : Array Nat) : List Nat :=
  (List.range h.objects.size).filter fun i => counts.getD i 0 == 0

/-- The fuel of a sweep does not depend on the handles. -/
def fuel (h : Heap) : Nat :=
  h.objects.size + (tallied h []).foldl (· + ·) 0 + 1

theorem take_eq (h : Heap) (handles : List Ref) :
    take h handles = sweep h (fuel h) (idle h (tallied h handles))
      ⟨tallied h handles, Array.replicate h.objects.size false⟩ :=
  rfl

theorem tally_start (h : Heap) (handles : List Ref) :
    Tally h handles (idle h (tallied h handles))
      ⟨tallied h handles, Array.replicate h.objects.size false⟩ := by
  refine ⟨size_tallied h handles, Array.size_replicate, fun i hi => getD_tallied h handles hi,
    fun i hi => ?_, fun i hi hgone => ?_⟩
  · simpa using (List.mem_filter.mp hi).2
  · simp [Array.getD, hi] at hgone

/-- An object with a handle or a reference left is alive. -/
theorem Tally.isAlive_of_pos {todo : List Nat} {c : Census} (ht : Tally h handles todo c) {r : Ref}
    (hr : r.index < h.objects.size) (hpos : 0 < handles.count r + edges h c.gone r.index) :
    c.isAlive r = true := by
  have hcount : c.counts.getD r.index 0 = handles.count r + edges h c.gone r.index :=
    ht.counts_eq r.index hr
  cases hgone : c.gone.getD r.index true with
  | false => rw [isAlive, hgone, Bool.not_false]
  | true =>
    have hzero := ht.zero_of_gone r.index hr hgone
    omega

/-- A reference from an object that is not given up is counted. -/
theorem edges_pos {c : Census} {r s : Ref} (halive : c.isAlive r = true) (hrefers : h.Refers r s) :
    0 < edges h c.gone s.index := by
  have hmem : r.index ∈ Finset.range h.objects.size := Finset.mem_range.mpr hrefers.lt_size
  have hgone : c.gone.getD r.index true = false := Bool.not_eq_true' _ |>.mp halive
  have hcount : 0 < (h.get r).references.count s := List.count_pos_iff.mpr hrefers
  calc 0 < if c.gone.getD r.index true then 0 else (h.get r).references.count s := by
        rwa [hgone, if_neg Bool.false_ne_true]
    _ ≤ edges h c.gone s.index :=
        Finset.single_le_sum (f := fun j =>
          if c.gone.getD j true then 0 else (h.get ⟨j⟩).references.count s)
          (fun _ _ => Nat.zero_le _) hmem

/-- The end of a sweep. -/
theorem exists_tally (h : Heap) (handles : List Ref) : ∃ todo, Tally h handles todo (take h handles) :=
  (tally_start h handles).sweep (fuel h)

/-- **What has a handle is alive.** -/
theorem isAlive_of_mem {r : Ref} (hr : r.index < h.objects.size) (hmem : r ∈ handles) :
    (take h handles).isAlive r = true := by
  obtain ⟨todo, ht⟩ := exists_tally h handles
  exact ht.isAlive_of_pos hr (Nat.add_pos_left (List.count_pos_iff.mpr hmem) _)

/-- **What a handle leads to is alive.** -/
theorem isAlive_of_refers {root r : Ref} (hroot : root ∈ handles)
    (hrefers : Relation.ReflTransGen h.Refers root r) (hr : r.index < h.objects.size) :
    (take h handles).isAlive r = true := by
  obtain ⟨todo, ht⟩ := exists_tally h handles
  induction hrefers with
  | refl => exact isAlive_of_mem hr hroot
  | tail _ hlast ih =>
    have halive := ih hlast.lt_size
    exact ht.isAlive_of_pos hr (Nat.add_pos_right _ (edges_pos halive hlast))

/-! ### Handles that occur more than once -/

/-- Two counts that differ in the handles only: where one has a handle, so does the other. -/
def Alike (edges : Nat → Nat) (counts counts' : Array Nat) : Prop :=
  ∀ i < counts.size, ∃ a b,
    counts.getD i 0 = a + edges i ∧ counts'.getD i 0 = b + edges i ∧ (a = 0 ↔ b = 0)

/-- As long as the references that are taken away were counted, the same objects are left without
one. -/
theorem Alike.drop_eq {edges : Nat → Nat} {counts counts' : Array Nat}
    (halike : Alike edges counts counts') (hsize : counts.size = counts'.size) {refs : List Ref}
    (hrefs : ∀ i < counts.size, refs.count ⟨i⟩ ≤ edges i) (todo : List Nat) :
    (drop refs counts todo).2 = (drop refs counts' todo).2 := by
  induction refs generalizing edges counts counts' todo with
  | nil => rfl
  | cons r refs ih =>
    rw [drop, drop]
    by_cases hlt : r.index < counts.size
    · have hlt' : r.index < counts'.size := hsize ▸ hlt
      obtain ⟨a, b, ha, hb, hab⟩ := halike r.index hlt
      have hpos : refs.count r + 1 ≤ edges r.index := by
        simpa using hrefs r.index hlt
      have hleft : (counts.getD r.index 0 - 1 == 0) = (counts'.getD r.index 0 - 1 == 0) := by
        rw [Bool.eq_iff_iff, beq_iff_eq, beq_iff_eq]
        omega
      rw [hleft]
      refine @ih (fun i => edges i - if r = ⟨i⟩ then 1 else 0) _ _ (fun i hi => ?_)
        (by simpa using hsize) (fun i hi => ?_) _
      · rw [getD_setIfInBounds counts i (.inl hlt), getD_setIfInBounds counts' i (.inl hlt')]
        by_cases hr : r = ⟨i⟩
        · subst hr
          refine ⟨a, b, ?_, ?_, hab⟩ <;> simp only [if_true] at * <;> omega
        · simpa [hr] using halike i (by simpa using hi)
      · have hcount := hrefs i (by simpa using hi)
        rw [List.count_cons] at hcount
        by_cases hr : r = ⟨i⟩ <;> simp [hr] at hcount ⊢ <;> omega
    · -- a reference out of range counts for nothing
      have hsame (n : Nat) : counts.setIfInBounds r.index n = counts := by
        simp [Array.setIfInBounds, hlt]
      have hsame' (n : Nat) : counts'.setIfInBounds r.index n = counts' := by
        simp [Array.setIfInBounds, hsize ▸ hlt]
      have hzero : counts.getD r.index 0 = counts'.getD r.index 0 := by
        simp [Array.getD, hlt, hsize ▸ hlt]
      rw [hsame, hsame', hzero]
      refine ih halike hsize (fun i hi => ?_) _
      exact (List.count_le_count_cons ..).trans (hrefs i hi)

variable {handles' : List Ref}

theorem Tally.alike {todo todo' : List Nat} {counts counts' : Array Nat} {gone : Array Bool}
    (ht : Tally h handles todo ⟨counts, gone⟩) (ht' : Tally h handles' todo' ⟨counts', gone⟩)
    (hsame : ∀ r, r ∈ handles ↔ r ∈ handles') : Alike (edges h gone) counts counts' := by
  intro i hi
  have hsize : i < h.objects.size := ht.size_counts ▸ hi
  refine ⟨_, _, ht.counts_eq i hsize, ht'.counts_eq i hsize, ?_⟩
  rw [List.count_eq_zero, List.count_eq_zero, hsame]

/-- Two sweeps for the same objects with handles give up the same objects, one after the other. -/
theorem gone_sweep_eq (fuel : Nat) {todo : List Nat} {counts counts' : Array Nat}
    {gone : Array Bool} (ht : Tally h handles todo ⟨counts, gone⟩)
    (ht' : Tally h handles' todo ⟨counts', gone⟩) (hsame : ∀ r, r ∈ handles ↔ r ∈ handles') :
    (sweep h fuel todo ⟨counts, gone⟩).gone = (sweep h fuel todo ⟨counts', gone⟩).gone := by
  -- on the fuel: both sweeps give up the same object, and then have the same objects left to do
  induction fuel generalizing todo counts counts' gone with
  | zero => rw [sweep, sweep]
  | succ fuel ih =>
    cases todo with
    | nil =>
      have hfuel := Nat.succ_ne_zero fuel
      rw [sweep.eq_2 _ _ _ hfuel, sweep.eq_2 _ _ _ hfuel]
    | cons j todo =>
      rw [sweep, sweep]
      by_cases hgone : gone.getD j true = true
      · simp only [hgone, if_true]
        exact ih { ht with zero_of_todo := fun i hi => ht.zero_of_todo i (.tail j hi) }
          { ht' with zero_of_todo := fun i hi => ht'.zero_of_todo i (.tail j hi) }
      · have hfalse : gone.getD j true = false := by simpa using hgone
        have hj : j < h.objects.size := by
          by_contra hlt
          simp [Array.getD, ht.size_gone, hlt] at hfalse
        have hrefs : ∀ i < counts.size, (h.get ⟨j⟩).references.count ⟨i⟩ ≤ edges h gone i := by
          intro i _
          have hedges := edges_setIfInBounds hj ht.size_gone hfalse i
          simp only at hedges
          omega
        have hsize : counts.size = counts'.size := ht.size_counts.trans ht'.size_counts.symm
        have htodo := (ht.alike ht' hsame).drop_eq hsize hrefs todo
        have hnext := ht.next hfalse
        have hnext' := ht'.next hfalse
        rw [← htodo] at hnext'
        simp only [hfalse, Bool.false_eq_true, if_false]
        rw [← htodo]
        exact ih hnext hnext'

/-- **Which objects are alive depends on which objects have a handle**, not on how many. -/
theorem isAlive_congr (hsame : ∀ r, r ∈ handles ↔ r ∈ handles') :
    (take h handles).isAlive = (take h handles').isAlive := by
  have hidle : idle h (tallied h handles) = idle h (tallied h handles') := by
    refine List.filter_congr fun i hi => ?_
    have hlt := List.mem_range.mp hi
    have hzero : handles.count ⟨i⟩ = 0 ↔ handles'.count ⟨i⟩ = 0 := by
      rw [List.count_eq_zero, List.count_eq_zero, hsame]
    rw [getD_tallied h handles hlt, getD_tallied h handles' hlt, Bool.eq_iff_iff, beq_iff_eq,
      beq_iff_eq]
    omega
  have ht' := tally_start h handles'
  rw [← hidle] at ht'
  have hgone : (take h handles).gone = (take h handles').gone := by
    rw [take_eq, take_eq, ← hidle]
    exact gone_sweep_eq (fuel h) (tally_start h handles) ht' hsame
  funext r
  rw [isAlive, isAlive, hgone]

end Census

end LogoEngine
