import LogoEngine.Proofs.Eval.Mutation
import LogoEngine.Proofs.Heap.Cycles

/-!
# `SETITEM` and cycles

`SETITEM` refuses a value in which the array occurs, but looks for the array in the value and the 1001
levels below it only. So it is never refused without need, and a cycle comes about exactly if the
array occurs in the value deeper than that.

Main statement: `setItem_cycles`.
-/

namespace LogoEngine

/-! ### Errors make no cycle -/

theorem acyclic_of_raise {code : ErrorCode} {args : List Ref} {w w' : World} {r : Ref}
    (hacyclic : w.heap.Acyclic) (hrun : raise code args w = .ok (r, w')) : w'.heap.Acyclic := by
  have hword (word : Word) : (Object.word word).kind ≠ .array := nofun
  have herror (e : ErrorRecord) : (Object.error e).kind ≠ .array := nofun
  cases hrun
  exact ((hacyclic.add rfl (hword _)).add rfl (hword _)).add rfl (herror _)

/-- **When `SETITEM` makes a cycle.** On an acyclic heap of proper lists it is refused for the value
only if the array is in the value at most 1001 levels deep, and an error makes no cycle. If it
succeeds there is a cycle exactly if the array occurs in the value, which is then deeper than that. -/
theorem setItem_cycles (node : Ref) (args : List Ref) {w : World} (hacyclic : w.heap.Acyclic)
    (hproper : w.heap.Proper) :
    let array := inputAt args 1
    let value := inputAt args 2
    ∃ r w', applyData .setItem node args w = .ok (r, w') ∧
      ((∃ e, w.Raises r e w') ∧ w'.heap.Acyclic ∧
        (∀ origin items slot, w.heap.get array = .array origin items →
          w.heap.IsIndex (inputAt args 0) origin items.size slot →
            w.heap.Within array 1001 value) ∨
      r = node ∧ ¬ w.heap.Within array 1001 value ∧
        (w'.heap.Acyclic ↔ ¬ w.heap.Occurs array value)) := by
  intro array value
  have hcontains : w.heap.contains value array = true ↔ w.heap.Within array 1001 value :=
    Heap.containsUpTo_iff
  have hthing : DataOp.setItem ≠ .thing := nofun
  -- the array is replaced or an error is made, and an error only adds objects to the heap
  rcases dataResult_of_changes (show DataOp.setItem.changes = true from rfl) w.heap args with
    ⟨target, o, hputs, hresult⟩ | ⟨culprit, hresult⟩
  · obtain ⟨w', hrun, hreplaces⟩ := exists_applyData_of_puts node hputs
    refine ⟨node, w', hrun, .inr ⟨rfl, ?_⟩⟩
    rcases hputs with @⟨_, origin, items, slot, -, hget, hindex, hsafe⟩
    have hheap : w'.heap = w.heap.set array (.array origin (items.setIfInBounds slot value)) := by
      rw [hreplaces.rest]
    refine ⟨fun hwithin => ?_, hheap ▸ hacyclic.acyclic_set_iff hproper hget hindex.2.1⟩
    exact Bool.noConfusion ((hsafe rfl).symm.trans (hcontains.mpr hwithin))
  · obtain ⟨r, w', e, hraise, hraises, -⟩ := exists_raises w .doesntLike [node, culprit]
    refine ⟨r, w', (applyData_of_dislikes hthing hresult).trans hraise,
      .inl ⟨⟨e, hraises⟩, acyclic_of_raise hacyclic hraise, fun origin items slot hget hindex => ?_⟩⟩
    rw [dataResult_setItem (.inl rfl) hget, Heap.isIndex_iff.mp hindex] at hresult
    by_contra hwithin
    rw [if_neg fun hcycle => hwithin (hcontains.mp hcycle.2)] at hresult
    cases hresult

namespace Nested

/-- The inputs of `setitem 1 :a :v`, where `v` is the array in the given number of lists: the first
six objects are not in the way, and after them each list holds what is before it. -/
def value : Nat → Ref
  | 0 => ⟨2⟩
  | depth + 1 => ⟨6 + depth⟩

/-- A heap with that many lists. -/
def heap (depth : Nat) : Heap where
  objects := #[.nothing, .word (.text "1"), .array 1 #[⟨1⟩], .list ⟨3, none, 0, none⟩,
    .word (.text "setitem"), .node ⟨⟨5⟩, 5, ⟨4⟩, .data .setItem, .nothing⟩ []] ++
    Array.ofFn fun k : Fin depth => .list ⟨6 + k, some (value k, ⟨3⟩), 0, none⟩

variable {depth k : Nat} {r s head tail : Ref}

theorem get_of_lt (hr : r.index < 6) : (heap depth).get r = (heap 0).get r := by
  simp [Heap.get, heap, Array.getD_eq_getD_getElem?, Array.getElem?_append, hr]

theorem get_list (hk : k < depth) :
    (heap depth).get (value (k + 1)) = .list ⟨6 + k, some (value k, ⟨3⟩), 0, none⟩ := by
  simp [Heap.get, heap, value, Array.getD_eq_getD_getElem?, hk]

theorem index_value_lt (k : Nat) : (value k).index < 6 + k := by
  cases k <;> simp [value]

theorem size_heap (depth : Nat) : (heap depth).objects.size = 6 + depth := by
  simp [heap, Nat.add_comm]

/-- There is nothing but the first objects and the lists around the array. -/
theorem lt_or_exists (hget : (heap depth).get r ≠ .nothing) :
    r.index < 6 ∨ ∃ k < depth, r = value (k + 1) := by
  have hlt := Heap.lt_size_of_get hget
  rw [size_heap] at hlt
  by_cases hfirst : r.index < 6
  · exact .inl hfirst
  · refine .inr ⟨r.index - 6, by omega, ?_⟩
    have hindex : r.index = 6 + (r.index - 6) := by omega
    exact congrArg Ref.mk hindex

theorem exists_of_pair? (hpair : (heap depth).pair? r = some (head, tail)) :
    ∃ k < depth, r = value (k + 1) ∧ head = value k ∧ tail = ⟨3⟩ := by
  obtain ⟨cell, hcell, hcellPair⟩ := Option.bind_eq_some_iff.mp hpair
  have hget := Heap.get_of_cell? hcell
  have hsome : (heap depth).get r ≠ .nothing := by simp [hget]
  rcases lt_or_exists hsome with hlt | ⟨k, hk, rfl⟩
  · have hnone : ∀ index < 6, (heap 0).pair? ⟨index⟩ = none := by decide
    rw [Heap.pair?, Heap.cell?, get_of_lt hlt] at hpair
    cases (hnone r.index hlt).symm.trans hpair
  · rw [get_list hk] at hget
    cases hget
    cases hcellPair
    exact ⟨k, hk, rfl, rfl, rfl⟩

/-- The items of the array. -/
theorem eq_of_get_array {origin : Int} {items : Array Ref}
    (hget : (heap depth).get r = .array origin items) : r = ⟨2⟩ ∧ items = #[⟨1⟩] := by
  have hsome : (heap depth).get r ≠ .nothing := by simp [hget]
  rcases lt_or_exists hsome with hlt | ⟨k, hk, rfl⟩
  · rw [get_of_lt hlt] at hget
    obtain ⟨index⟩ := r
    replace hlt : index < 6 := hlt
    have hfirst : index = 0 ∨ index = 1 ∨ index = 2 ∨ index = 3 ∨ index = 4 ∨ index = 5 := by omega
    rcases hfirst with rfl | rfl | rfl | rfl | rfl | rfl <;> cases hget
    exact ⟨rfl, rfl⟩
  · rw [get_list hk] at hget
    cases hget

theorem proper (depth : Nat) : (heap depth).Proper := by
  intro r head tail hpair
  obtain ⟨k, -, -, -, rfl⟩ := exists_of_pair? hpair
  rw [Heap.cell?, get_of_lt (by decide)]
  rfl

theorem acyclic (depth : Nat) : (heap depth).Acyclic := by
  refine Heap.acyclic_of_lt fun r s hchild => ?_
  cases hchild with
  | head hpair =>
    obtain ⟨k, -, rfl, rfl, rfl⟩ := exists_of_pair? hpair
    exact index_value_lt k
  | tail hpair =>
    obtain ⟨k, -, rfl, rfl, rfl⟩ := exists_of_pair? hpair
    simp [value]
    omega
  | item hget hmem =>
    obtain ⟨rfl, rfl⟩ := eq_of_get_array hget
    simp at hmem
    simp [hmem]

/-- Each list has what is before it as its element. -/
theorem elements_value (hk : k < depth) : (heap depth).elements (value (k + 1)) = [value k] := by
  have hpair : (heap depth).pair? (value (k + 1)) = some (value k, ⟨3⟩) := by
    rw [Heap.pair?, Heap.cell?, get_list hk]
    rfl
  have hempty : (heap depth).pair? ⟨3⟩ = none := by
    rw [Heap.pair?, Heap.cell?, get_of_lt (by decide)]
    rfl
  have hsize : (heap depth).objects.size = depth + 4 + 1 + 1 := by rw [size_heap]; omega
  rw [Heap.elements_of_pair? hpair, Heap.items, hsize, Heap.itemsUpTo, hpair]
  simp only [Heap.itemsUpTo, hempty]

/-- The array is as deep in the value as there are lists around it. -/
theorem within_iff (hk : k ≤ depth) {levels : Nat} :
    (heap depth).Within ⟨2⟩ levels (value k) ↔ k ≤ levels := by
  induction k generalizing levels with
  | zero => exact ⟨fun _ => Nat.zero_le _, fun _ => .here _⟩
  | succ k ih =>
    constructor
    · intro hwithin
      generalize hr : value (k + 1) = r at hwithin
      cases hwithin with
      | here =>
        simp only [value, Ref.mk.injEq] at hr
        omega
      | inside hs hrest =>
        rw [← hr, elements_value hk, List.mem_singleton] at hs
        rw [hs, ih (Nat.le_of_succ_le hk)] at hrest
        exact Nat.succ_le_succ hrest
    · intro hlevels
      obtain ⟨levels, rfl⟩ : ∃ n, levels = n + 1 := ⟨levels - 1, by omega⟩
      refine .inside ?_ ((ih (Nat.le_of_succ_le hk)).mpr (Nat.le_of_succ_le_succ hlevels))
      rw [elements_value hk]
      exact List.mem_singleton_self _

theorem isIndex (depth : Nat) : (heap depth).IsIndex ⟨1⟩ 1 1 0 := by
  refine Heap.IsIndex.of_get_eq (h := heap 0) (Heap.isIndex_iff.mpr ?_) (get_of_lt (by decide))
  decide +kernel

/-- The state with that many lists. -/
def world (depth : Nat) : World where
  heap := heap depth

/-- The array is in 1002 lists, and when it holds them there is a cycle. -/
theorem exists_cycle : (heap 1002).Acyclic ∧ (heap 1002).Proper ∧
    ∃ w', applyData .setItem ⟨5⟩ [⟨1⟩, ⟨2⟩, value 1002] (world 1002) = .ok (⟨5⟩, w') ∧
      ¬ w'.heap.Acyclic := by
  refine ⟨acyclic 1002, proper 1002, ?_⟩
  have hwithin : ¬ (heap 1002).Within ⟨2⟩ 1001 (value 1002) :=
    (within_iff (Nat.le_refl 1002)).not.mpr (by omega)
  have hoccurs : (heap 1002).Occurs ⟨2⟩ (value 1002) :=
    ⟨1002, (within_iff (Nat.le_refl 1002)).mpr (Nat.le_refl 1002)⟩
  rcases setItem_cycles (w := world 1002) ⟨5⟩ [⟨1⟩, ⟨2⟩, value 1002] (acyclic 1002) (proper 1002) with
    ⟨r, w', hrun, ⟨-, -, hdeep⟩ | ⟨rfl, -, hcycle⟩⟩
  · have hget : (heap 1002).get ⟨2⟩ = .array 1 #[⟨1⟩] := get_of_lt (by decide)
    exact absurd (hdeep 1 #[⟨1⟩] 0 hget (isIndex 1002)) hwithin
  · exact ⟨w', hrun, fun hacyclic => hcycle.mp hacyclic hoccurs⟩

end Nested

end LogoEngine
