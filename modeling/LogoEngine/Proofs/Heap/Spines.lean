import LogoEngine.Eval.Data
import LogoEngine.Proofs.Eval.Inputs
import LogoEngine.Proofs.Heap.Cycles

/-!
# Lists that end

The cells of a list are looked at one after the other, as many as there are objects. That is enough
for each list whose cells come to an empty list at last: its cells are different objects. Such a list
is described by its elements, `IsListOf`, whatever else is on the heap, cycles included; all that the
operations on lists find is read off the elements.

Main statements: `IsListOf.items_eq`, `IsListOf.item?_eq` and `IsListOf.findCell_eq`.
-/

namespace LogoEngine.Heap

/-- A list whose cells come to an end, and its elements. -/
inductive IsListOf (h : Heap) : Ref → List Ref → Prop
  | nil {r : Ref} (hempty : h.isEmptyList r = true) : IsListOf h r []
  | cons {r head tail : Ref} {items : List Ref} (hpair : h.pair? r = some (head, tail))
      (hrest : IsListOf h tail items) : IsListOf h r (head :: items)

variable {h h' : Heap} {r c : Ref} {items items' : List Ref} {fuel n : Nat}

theorem pair?_of_isEmptyList (hempty : h.isEmptyList r = true) : h.pair? r = none := by
  unfold isEmptyList at hempty
  unfold pair?
  cases hcell : h.cell? r with
  | none => rfl
  | some cell =>
    rw [hcell] at hempty
    exact Option.isNone_iff_eq_none.mp hempty

namespace IsListOf

theorem exists_cell (hlist : h.IsListOf r items) : ∃ cell, h.get r = .list cell := by
  cases hlist with
  | nil hempty =>
    unfold isEmptyList at hempty
    split at hempty
    · next hcell => exact ⟨_, get_of_cell? hcell⟩
    · cases hempty
  | cons hpair _ =>
    obtain ⟨cell, hcell, -⟩ := Option.bind_eq_some_iff.mp hpair
    exact ⟨cell, get_of_cell? hcell⟩

theorem lt_size (hlist : h.IsListOf r items) : r.index < h.objects.size := by
  obtain ⟨cell, hget⟩ := hlist.exists_cell
  exact lt_size_of_get (by simp [hget])

/-- A list has one sequence of elements. -/
theorem unique (hlist : h.IsListOf r items) (hlist' : h.IsListOf r items') : items = items' := by
  induction hlist generalizing items' with
  | nil hempty =>
    cases hlist' with
    | nil _ => rfl
    | cons hpair _ =>
      rw [pair?_of_isEmptyList hempty] at hpair
      cases hpair
  | cons hpair _ ih =>
    cases hlist' with
    | nil hempty =>
      rw [pair?_of_isEmptyList hempty] at hpair
      cases hpair
    | cons hpair' hrest' =>
      rw [hpair] at hpair'
      cases hpair'
      rw [ih hrest']

/-- Going on by some cells leaves out as many elements. -/
theorem dropCells (hlist : h.IsListOf r items) (hn : n ≤ items.length) :
    ∃ c, h.dropCells n r = some c ∧ h.IsListOf c (items.drop n) := by
  induction n generalizing r items with
  | zero => exact ⟨r, rfl, hlist⟩
  | succ n ih =>
    cases hlist with
    | nil _ => cases hn
    | cons hpair hrest =>
      obtain ⟨c, hdrop, hc⟩ := ih hrest (Nat.le_of_succ_le_succ hn)
      refine ⟨c, ?_, hc⟩
      rw [Heap.dropCells, hpair]
      exact hdrop

/-- The cells of a list are different objects, the empty list at its end included. -/
theorem length_lt_size (hlist : h.IsListOf r items) : items.length < h.objects.size := by
  refine lt_size_of_distinct (r := r) (fun i hi => ?_) fun i j hij hj heq => ?_
  · obtain ⟨c, hdrop, hc⟩ := hlist.dropCells hi
    exact ⟨c, hdrop, hc.lt_size⟩
  · obtain ⟨c, hdrop, hc⟩ := hlist.dropCells (hij.le.trans hj)
    obtain ⟨d, hdrop', hd⟩ := hlist.dropCells hj
    have hsame : c = d := Option.some_inj.mp (hdrop.symm.trans (heq.trans hdrop'))
    subst hsame
    -- the same cell has the same elements behind it, and so it stands at the same place
    have hlength := congrArg List.length (hc.unique hd)
    rw [List.length_drop, List.length_drop] at hlength
    omega

theorem itemsUpTo_eq (hlist : h.IsListOf r items) (hfuel : items.length ≤ fuel) :
    h.itemsUpTo fuel r = items := by
  induction hlist generalizing fuel with
  | nil hempty =>
    cases fuel with
    | zero => rfl
    | succ fuel => rw [itemsUpTo, pair?_of_isEmptyList hempty]
  | cons hpair _ ih =>
    obtain ⟨fuel, rfl⟩ : ∃ n, fuel = n + 1 := ⟨fuel - 1, by rw [List.length_cons] at hfuel; omega⟩
    rw [itemsUpTo, hpair]
    exact congrArg _ (ih (Nat.le_of_succ_le_succ hfuel))

/-- **The elements of a list that ends** are all found. -/
theorem items_eq (hlist : h.IsListOf r items) : h.items r = items :=
  hlist.itemsUpTo_eq hlist.length_lt_size.le

/-- The element with a number, counted from one. -/
theorem item?_eq (hlist : h.IsListOf r items) : h.item? r (n + 1) = items[n]? := by
  induction n generalizing r items with
  | zero =>
    cases hlist with
    | nil hempty => simp [item?, Heap.dropCells, pair?_of_isEmptyList hempty]
    | cons hpair _ => simp [item?, Heap.dropCells, hpair]
  | succ n ih =>
    cases hlist with
    | nil hempty => simp [item?, Heap.dropCells, pair?_of_isEmptyList hempty]
    | @cons _ head tail items hpair hrest =>
      rw [List.getElem?_cons_succ, ← ih hrest]
      simp only [item?, Heap.dropCells, hpair, Option.bind_some]

/-- The first cell whose head passes a test is that of the first element that does. -/
theorem findCell_eq (hlist : h.IsListOf r items) (test : Ref → Bool) (hfuel : items.length ≤ fuel) :
    h.findCell test fuel r = (items.findIdx? test).bind fun n => h.dropCells n r := by
  induction hlist generalizing fuel with
  | nil hempty =>
    cases fuel with
    | zero => rfl
    | succ fuel => rw [findCell, pair?_of_isEmptyList hempty]; rfl
  | @cons r head tail items hpair hrest ih =>
    obtain ⟨fuel, rfl⟩ : ∃ n, fuel = n + 1 := ⟨fuel - 1, by rw [List.length_cons] at hfuel; omega⟩
    simp only [findCell, hpair, List.findIdx?_cons]
    split
    · rfl
    · rw [ih (Nat.le_of_succ_le_succ hfuel)]
      cases items.findIdx? test with
      | none => rfl
      | some n => simp only [Option.map_some, Option.bind_some, Heap.dropCells, hpair]

/-- A list is one list also when more objects were made since. -/
theorem of_grows (hlist : h.IsListOf r items) (hgrows : h.Grows h') : h'.IsListOf r items := by
  have hcell : ∀ {s cell}, h.cell? s = some cell → h'.cell? s = some cell := fun hs => by
    rw [cell?, hgrows.get_eq _ (lt_size_of_cell? hs)]
    exact hs
  induction hlist with
  | @nil r hempty =>
    refine .nil ?_
    unfold isEmptyList at hempty ⊢
    split at hempty
    · next hs => rwa [hcell hs]
    · cases hempty
  | @cons r head tail items hpair _ ih =>
    refine .cons ?_ ih
    obtain ⟨cell, hs, hc⟩ := Option.bind_eq_some_iff.mp hpair
    rw [pair?, hcell hs]
    exact hc

/-! ### Lists that are made -/

/-- A new cell in front of a list. -/
theorem newCell (hlist : h.IsListOf r items) (head : Ref) :
    (newCell (some (head, r)) h).2.IsListOf (newCell (some (head, r)) h).1 (head :: items) :=
  .cons (pair?_newCell (.refl _)) (hlist.of_grows (.newCell _ h))

theorem newEmpty (h : Heap) : (newEmpty h).2.IsListOf (newEmpty h).1 [] := by
  refine .nil ?_
  have hget : (LogoEngine.newEmpty h).2.get (LogoEngine.newEmpty h).1 =
      .list ⟨h.nextId, none, 0, none⟩ := get_add_self { h with nextId := h.nextId + 1 } _
  rw [isEmptyList, cell?, hget]
  rfl

theorem newList (items : List Ref) (h : Heap) :
    (newList items h).2.IsListOf (newList items h).1 items := by
  induction items with
  | nil => exact newEmpty h
  | cons head items ih =>
    rw [newList_cons]
    exact ih.newCell head

end IsListOf

end LogoEngine.Heap
