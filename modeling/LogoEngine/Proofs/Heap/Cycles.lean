import LogoEngine.Heap.Equality
import LogoEngine.Proofs.Heap.Changes
import Mathlib.Data.Finset.Card
import Mathlib.Data.Finset.Image

/-!
# Cycles of lists and arrays

Lists and arrays refer to other values: a cell to its head and its tail, an array to its items. A
heap is **acyclic** if no value is reached from itself this way.

Whether an array occurs in a value is looked for level by level: all elements of a list are one level
below it, however far its cells go. On an acyclic heap of proper lists that finds all there is
(`occurs_iff_reaches`), up to the level where the search stops (`containsUpTo_iff`).

Main statement: `acyclic_set_iff`, putting a value into an array makes a cycle exactly if the array
occurs in the value.
-/

namespace LogoEngine

open Relation

/-! ### One more edge -/

section

variable {α : Type} {R R' : α → α → Prop} {a b x y : α}

/-- Where one edge is new, what is reached was reached before, or the edge is on the way. -/
theorem reaches_of_insert (hsub : ∀ x y, R' x y → R x y ∨ x = a ∧ y = b)
    (h : ReflTransGen R' x y) : ReflTransGen R x y ∨ ReflTransGen R x a ∧ ReflTransGen R b y := by
  induction h with
  | refl => exact .inl .refl
  | tail _ hlast ih =>
    rcases hsub _ _ hlast with hold | ⟨rfl, rfl⟩
    · exact ih.imp (·.tail hold) fun ⟨hto, hfrom⟩ => ⟨hto, hfrom.tail hold⟩
    · exact .inr ⟨ih.elim id And.left, .refl⟩

/-- A new edge makes no cycle if there is no way back. -/
theorem acyclic_insert (hsub : ∀ x y, R' x y → R x y ∨ x = a ∧ y = b)
    (hacyclic : ∀ x, ¬ TransGen R x x) (hback : ¬ ReflTransGen R b a) : ¬ TransGen R' x x := by
  intro hcycle
  obtain ⟨y, hfirst, hrest⟩ := TransGen.head'_iff.mp hcycle
  rcases hsub _ _ hfirst with hold | ⟨rfl, rfl⟩
  · rcases reaches_of_insert hsub hrest with hrest | ⟨hto, hfrom⟩
    · exact hacyclic x (TransGen.head' hold hrest)
    · exact hback ((hfrom.tail hold).trans hto)
  · exact hback ((reaches_of_insert hsub hrest).elim id And.left)

end

namespace Heap

/-! ### What values refer to -/

/-- A list or an array refers to a value. -/
inductive Child (h : Heap) : Ref → Ref → Prop
  | head {r head tail : Ref} (hpair : h.pair? r = some (head, tail)) : Child h r head
  | tail {r head tail : Ref} (hpair : h.pair? r = some (head, tail)) : Child h r tail
  | item {r s : Ref} {origin : Int} {items : Array Ref} (hget : h.get r = .array origin items)
      (hmem : s ∈ items) : Child h r s

/-- No value is reached from itself. -/
def Acyclic (h : Heap) : Prop :=
  ∀ r, ¬ TransGen h.Child r r

/-- The tail of each list is a list. -/
def Proper (h : Heap) : Prop :=
  ∀ r head tail, h.pair? r = some (head, tail) → (h.cell? tail).isSome

variable {h h' : Heap} {r s c needle : Ref} {k n depth fuel : Nat}

/-- What an object refers to depends on this object alone. -/
theorem Child.of_get_eq (hchild : h.Child r s) (hget : h'.get r = h.get r) : h'.Child r s := by
  have hpair : h'.pair? r = h.pair? r := by rw [pair?, pair?, cell?, cell?, hget]
  cases hchild with
  | head hp => exact .head (hpair.trans hp)
  | tail hp => exact .tail (hpair.trans hp)
  | item ha hmem => exact .item (hget.trans ha) hmem

theorem lt_size_of_pair? {pair : Ref × Ref} (hpair : h.pair? r = some pair) :
    r.index < h.objects.size := by
  obtain ⟨cell, hcell, -⟩ := Option.bind_eq_some_iff.mp hpair
  exact lt_size_of_cell? hcell

/-- A heap where references go to older objects only is acyclic. -/
theorem acyclic_of_lt (hlt : ∀ r s, h.Child r s → s.index < r.index) : h.Acyclic := by
  intro r hcycle
  have hless : ∀ s, TransGen h.Child r s → s.index < r.index := by
    intro s hs
    induction hs with
    | single hchild => exact hlt _ _ hchild
    | tail _ hlast ih => exact (hlt _ _ hlast).trans ih
  exact Nat.lt_irrefl _ (hless r hcycle)

/-- An object that refers to nothing makes no cycle. -/
theorem Acyclic.add (hacyclic : h.Acyclic) {o : Object} (hcell : o.cell? = none)
    (hkind : o.kind ≠ .array) : (h.add o).2.Acyclic := by
  refine fun r hcycle => hacyclic r (TransGen.mono (fun x y hchild => ?_) _ _ hcycle)
  by_cases hx : x = (h.add o).1
  · -- the new object has no children
    have hget : (h.add o).2.get x = o := by rw [hx, get_add_self]
    cases hchild with
    | head hpair | tail hpair => simp [pair?, cell?, hget, hcell] at hpair
    | item ha _ => exact absurd (congrArg Object.kind (hget.symm.trans ha)) hkind
  · refine hchild.of_get_eq ?_
    rw [get_add, if_neg hx]

/-! ### The cells of a list -/

theorem dropCells_add (i j : Nat) (r : Ref) :
    h.dropCells (i + j) r = (h.dropCells i r).bind (h.dropCells j) := by
  induction i generalizing r with
  | zero => rw [Nat.zero_add]; rfl
  | succ i ih =>
    rw [Nat.succ_add, dropCells, dropCells, Option.bind_assoc]
    exact congrArg _ (funext fun pair => ih pair.2)

theorem reaches_of_dropCells (hdrop : h.dropCells n r = some c) : ReflTransGen h.Child r c := by
  induction n generalizing r with
  | zero =>
    cases hdrop
    exact .refl
  | succ n ih =>
    obtain ⟨⟨head, tail⟩, hpair, hrest⟩ := Option.bind_eq_some_iff.mp hdrop
    exact .head (.tail hpair) (ih hrest)

/-- Going on from a cell leads to another one. -/
theorem Acyclic.dropCells_ne (hacyclic : h.Acyclic) (hdrop : h.dropCells (n + 1) r = some c) :
    c ≠ r := by
  rintro rfl
  obtain ⟨⟨head, tail⟩, hpair, hrest⟩ := Option.bind_eq_some_iff.mp hdrop
  exact hacyclic c (TransGen.head' (.tail hpair) (reaches_of_dropCells hrest))

/-- Cells on the way that are different objects are no more than there are objects. -/
theorem lt_size_of_distinct
    (hcells : ∀ i ≤ k, ∃ s, h.dropCells i r = some s ∧ s.index < h.objects.size)
    (hdiffer : ∀ i j, i < j → j ≤ k → h.dropCells i r ≠ h.dropCells j r) :
    k < h.objects.size := by
  have hmaps : ∀ i ∈ Finset.range (k + 1), h.dropCells i r ∈
      (Finset.range h.objects.size).image fun index => some (Ref.mk index) := by
    intro i hi
    obtain ⟨s, hs, hlt⟩ := hcells i (Nat.le_of_lt_succ (Finset.mem_range.mp hi))
    exact Finset.mem_image.mpr ⟨s.index, Finset.mem_range.mpr hlt, hs.symm⟩
  have hinjective : Set.InjOn (fun i => h.dropCells i r) (Finset.range (k + 1)) := by
    intro i hi j hj heq
    have hi' := Finset.mem_range.mp hi
    have hj' := Finset.mem_range.mp hj
    rcases Nat.lt_trichotomy i j with hlt | heq' | hlt
    · exact absurd heq (hdiffer i j hlt (by omega))
    · exact heq'
    · exact absurd heq.symm (hdiffer j i hlt (by omega))
  have hcard := Finset.card_le_card_of_injOn _ hmaps hinjective
  have himage := (Finset.range h.objects.size).card_image_le (f := fun index => some (Ref.mk index))
  rw [Finset.card_range] at hcard himage
  omega

/-- A list has no more cells than there are objects. -/
theorem Acyclic.lt_size_of_dropCells (hacyclic : h.Acyclic) {pair : Ref × Ref}
    (hdrop : h.dropCells k r = some c) (hpair : h.pair? c = some pair) : k < h.objects.size := by
  have hcells : ∀ i ≤ k, ∃ s, h.dropCells i r = some s ∧ h.dropCells (k - i) s = some c := by
    intro i hi
    have hsplit := dropCells_add (h := h) i (k - i) r
    rw [Nat.add_sub_cancel' hi, hdrop] at hsplit
    exact Option.bind_eq_some_iff.mp hsplit.symm
  refine lt_size_of_distinct (r := r) (fun i hi => ?_) fun i j hij hj heq => ?_
  · obtain ⟨s, hs, hrest⟩ := hcells i hi
    refine ⟨s, hs, ?_⟩
    cases hsteps : k - i with
    | zero =>
      rw [hsteps] at hrest
      cases hrest
      exact lt_size_of_pair? hpair
    | succ steps =>
      rw [hsteps] at hrest
      obtain ⟨pair, hnext, -⟩ := Option.bind_eq_some_iff.mp hrest
      exact lt_size_of_pair? hnext
  · obtain ⟨s, hs, -⟩ := hcells i (hij.le.trans hj)
    have hsplit := dropCells_add (h := h) i (j - i) r
    rw [Nat.add_sub_cancel' hij.le, ← heq, hs, Option.bind_some] at hsplit
    obtain ⟨steps, hsteps⟩ : ∃ steps, j - i = steps + 1 := ⟨j - i - 1, by omega⟩
    rw [hsteps] at hsplit
    exact hacyclic.dropCells_ne hsplit.symm rfl

theorem mem_itemsUpTo : s ∈ h.itemsUpTo fuel r ↔
    ∃ k < fuel, ∃ c tail, h.dropCells k r = some c ∧ h.pair? c = some (s, tail) := by
  induction fuel generalizing r with
  | zero => simp [itemsUpTo]
  | succ fuel ih =>
    cases hpair : h.pair? r with
    | none =>
      simp only [itemsUpTo, hpair, List.not_mem_nil, false_iff]
      rintro ⟨_ | k, -, c, tail, hdrop, hc⟩
      · cases hdrop
        rw [hpair] at hc
        cases hc
      · rw [dropCells, hpair] at hdrop
        cases hdrop
    | some pair =>
      obtain ⟨head, tail⟩ := pair
      simp only [itemsUpTo, hpair, List.mem_cons, ih]
      constructor
      · rintro (rfl | ⟨k, hk, c, last, hdrop, hc⟩)
        · exact ⟨0, Nat.zero_lt_succ _, r, tail, rfl, hpair⟩
        · refine ⟨k + 1, Nat.succ_lt_succ hk, c, last, ?_, hc⟩
          rw [dropCells, hpair]
          exact hdrop
      · rintro ⟨_ | k, hk, c, last, hdrop, hc⟩
        · cases hdrop
          rw [hpair] at hc
          cases hc
          exact .inl rfl
        · rw [dropCells, hpair] at hdrop
          exact .inr ⟨k, Nat.lt_of_succ_lt_succ hk, c, last, hdrop, hc⟩

/-! ### Elements -/

/-- The elements of a list are the heads of its cells. -/
theorem Acyclic.mem_items (hacyclic : h.Acyclic) : s ∈ h.items r ↔
    ∃ k c tail, h.dropCells k r = some c ∧ h.pair? c = some (s, tail) := by
  rw [items, mem_itemsUpTo]
  constructor
  · rintro ⟨k, -, c, tail, hdrop, hpair⟩
    exact ⟨k, c, tail, hdrop, hpair⟩
  · rintro ⟨k, c, tail, hdrop, hpair⟩
    exact ⟨k, hacyclic.lt_size_of_dropCells hdrop hpair, c, tail, hdrop, hpair⟩

theorem elements_of_pair? {pair : Ref × Ref} (hpair : h.pair? r = some pair) :
    h.elements r = h.items r := by
  obtain ⟨cell, hcell, -⟩ := Option.bind_eq_some_iff.mp hpair
  rw [elements, get_of_cell? hcell]

theorem mem_elements_of_array {origin : Int} {items : Array Ref}
    (hget : h.get r = .array origin items) : s ∈ h.elements r ↔ s ∈ items := by
  rw [elements, hget, Array.mem_toList_iff]

/-- Elements are reached. -/
theorem Acyclic.reaches_of_mem_elements (hacyclic : h.Acyclic) (hs : s ∈ h.elements r) :
    ReflTransGen h.Child r s := by
  unfold elements at hs
  split at hs
  · obtain ⟨k, c, tail, hdrop, hpair⟩ := hacyclic.mem_items.mp hs
    exact (reaches_of_dropCells hdrop).tail (.head hpair)
  · next hget => exact .single (.item hget (Array.mem_toList_iff.mp hs))
  · cases hs

/-- `needle` is a value, or it is found by going down at most `depth` levels of elements. -/
inductive Within (h : Heap) (needle : Ref) : Nat → Ref → Prop
  | here (depth : Nat) : Within h needle depth needle
  | inside {depth : Nat} {r s : Ref} (hs : s ∈ h.elements r) (hrest : Within h needle depth s) :
      Within h needle (depth + 1) r

/-- A value is another one or occurs in it, however deep. -/
def Occurs (h : Heap) (needle r : Ref) : Prop :=
  ∃ depth, h.Within needle depth r

/-- The search finds what is not too deep. -/
theorem containsUpTo_iff : h.containsUpTo needle depth r = true ↔ h.Within needle depth r := by
  induction depth generalizing r with
  | zero =>
    rw [containsUpTo, beq_iff_eq]
    constructor
    · rintro rfl
      exact .here 0
    · rintro ⟨⟩
      rfl
  | succ depth ih =>
    simp only [containsUpTo, Bool.or_eq_true, beq_iff_eq, List.any_eq_true, ih]
    constructor
    · rintro (rfl | ⟨s, hs, hrest⟩)
      · exact .here _
      · exact .inside hs hrest
    · rintro (_ | ⟨hs, hrest⟩)
      · exact .inl rfl
      · exact .inr ⟨_, hs, hrest⟩

/-- An array occurs in a value exactly if it is reached from it. -/
theorem Acyclic.occurs_iff_reaches (hacyclic : h.Acyclic) (hproper : h.Proper) {origin : Int}
    {items : Array Ref} (hget : h.get needle = .array origin items) :
    h.Occurs needle r ↔ ReflTransGen h.Child r needle := by
  constructor
  · rintro ⟨depth, hwithin⟩
    induction hwithin with
    | here => exact .refl
    | inside hs _ ih => exact (hacyclic.reaches_of_mem_elements hs).trans ih
  · intro hreaches
    induction hreaches using ReflTransGen.head_induction_on with
    | refl => exact ⟨0, .here 0⟩
    | @head r s hchild _ ih =>
      obtain ⟨depth, hwithin⟩ := ih
      cases hchild with
      | @head _ tail hpair =>
        refine ⟨depth + 1, .inside (s := s) ?_ hwithin⟩
        rw [elements_of_pair? hpair]
        exact hacyclic.mem_items.mpr ⟨0, r, tail, rfl, hpair⟩
      | item ha hmem => exact ⟨depth + 1, .inside ((mem_elements_of_array ha).mpr hmem) hwithin⟩
      | @tail head _ hpair =>
        -- an array is no tail, so it is in an element of the tail, which is one of the list
        obtain ⟨cell, hcell⟩ := Option.isSome_iff_exists.mp (hproper r head s hpair)
        cases hwithin with
        | here =>
          rw [get_of_cell? hcell] at hget
          cases hget
        | @inside depth _ element hs hrest =>
          refine ⟨depth + 1, .inside (s := element) ?_ hrest⟩
          rw [elements, get_of_cell? hcell] at hs
          obtain ⟨k, c, last, hdrop, hc⟩ := hacyclic.mem_items.mp hs
          rw [elements_of_pair? hpair]
          refine hacyclic.mem_items.mpr ⟨k + 1, c, last, ?_, hc⟩
          rw [dropCells, hpair]
          exact hdrop

/-! ### Putting a value into an array -/

section

variable {array value : Ref} {origin : Int} {items : Array Ref} {slot : Nat}

/-- The only new reference is that to the value. -/
theorem child_of_child_set (hget : h.get array = .array origin items)
    (hchild : (h.set array (.array origin (items.setIfInBounds slot value))).Child r s) :
    h.Child r s ∨ r = array ∧ s = value := by
  by_cases hr : r = array
  · subst hr
    have hlt : r.index < h.objects.size := lt_size_of_get (by simp [hget])
    have hget' := h.get_set_self (.array origin (items.setIfInBounds slot value)) hlt
    cases hchild with
    | head hpair | tail hpair => simp [pair?, cell?, hget', Object.cell?] at hpair
    | item ha hmem =>
      rw [hget'] at ha
      cases ha
      exact (Array.mem_or_eq_of_mem_setIfInBounds hmem).imp (.item hget) fun heq => ⟨rfl, heq⟩
  · exact .inl (hchild.of_get_eq (h.get_set_of_ne _ hr).symm)

/-- What leads to an object still does when the object is replaced. -/
theorem reaches_set (o : Object) (hreaches : ReflTransGen h.Child r array) :
    ReflTransGen (h.set array o).Child r array := by
  induction hreaches using ReflTransGen.head_induction_on with
  | refl => exact .refl
  | @head r s hchild _ ih =>
    by_cases hr : r = array
    · rw [hr]
    · exact .head (hchild.of_get_eq (h.get_set_of_ne o hr)) ih

/-- **When a value in an array makes a cycle.** It does exactly if the array occurs in the value. -/
theorem Acyclic.acyclic_set_iff (hacyclic : h.Acyclic) (hproper : h.Proper)
    (hget : h.get array = .array origin items) (hslot : slot < items.size) :
    (h.set array (.array origin (items.setIfInBounds slot value))).Acyclic ↔
      ¬ h.Occurs array value := by
  rw [hacyclic.occurs_iff_reaches hproper hget]
  constructor
  · intro hacyclic' hreaches
    have hlt : array.index < h.objects.size := lt_size_of_get (by simp [hget])
    have hget' := h.get_set_self (.array origin (items.setIfInBounds slot value)) hlt
    have hmem : value ∈ items.setIfInBounds slot value :=
      Array.mem_of_getElem? (i := slot) (by simp [hslot])
    exact hacyclic' array (TransGen.head' (.item hget' hmem) (reaches_set _ hreaches))
  · intro hback r
    exact acyclic_insert (fun _ _ => child_of_child_set hget) hacyclic hback

end

end Heap

end LogoEngine
