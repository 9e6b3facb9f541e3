import LogoEngine.Proofs.Eval.Inputs
import LogoEngine.Proofs.Eval.Tokens

/-!
# What operations on data change

All operations but four make new objects at most, and leave every object and every variable as it was.
The four replace one object each: `SETITEM` and `.SETITEM` an array in which one element is another,
`.SETFIRST` and `.SETBF` a cell with another head or tail. Whatever fails changes nothing but the
current error.

An index of an array is a word that reads as an integer from the origin on, as many as there are
elements. Integers of nine quadrillions and more are no indexes, which no array is long enough to
need.

Main statement: `applyData_frame`.
-/

namespace LogoEngine

/-! ### Computations that only add objects -/

/-- A computation that leaves the objects there are as they are. -/
class Making.Grows {α : Type} (m : Making α) : Prop where
  grows : ∀ h : Heap, h.Grows (m h).2

namespace Making

variable {α β : Type}

instance (a : α) : Grows (pure a) := ⟨.refl⟩

instance {m : Making α} {f : α → Making β} [hm : Grows m] [hf : ∀ a, Grows (f a)] :
    Grows (m >>= f) :=
  ⟨fun h => (hm.grows h).trans ((hf (m h).1).grows (m h).2)⟩

instance (f : β → α → Making β) [∀ b a, Grows (f b a)] (b : β) (as : List α) :
    Grows (as.foldlM f b) := by
  induction as generalizing b with
  | nil => rw [List.foldlM_nil]; infer_instance
  | cons a as _ => rw [List.foldlM_cons]; infer_instance

instance (f : α → Making β) [∀ a, Grows (f a)] (as : List α) : Grows (as.mapM f) := by
  induction as with
  | nil => rw [List.mapM_nil]; infer_instance
  | cons a as _ => rw [List.mapM_cons]; infer_instance

end Making

instance (o : Object) : Making.Grows (newObject o) := ⟨fun h => .add h o⟩
instance (s : String) : Making.Grows (newText s) := by unfold newText newWord; infer_instance
instance (x : Float) : Making.Grows (newNumber x) := by unfold newNumber newWord; infer_instance
instance (b : Bool) : Making.Grows (newTruth b) := by unfold newTruth newWord; infer_instance
instance (origin : Int) (items : List Ref) : Making.Grows (newArray origin items) := by
  unfold newArray; infer_instance
instance (pair : Option (Ref × Ref)) : Making.Grows (newCell pair) := ⟨.newCell pair⟩
instance : Making.Grows newEmpty := by unfold newEmpty; infer_instance
instance (items : List Ref) : Making.Grows (newList items) := by unfold newList; infer_instance
instance (size : Nat) (origin : Int) : Making.Grows (newBlankArray size origin) := by
  unfold newBlankArray; infer_instance

/-! ### Indexes of arrays -/

namespace Heap

/-- A value reads as the integer of a position in an array. -/
def ReadsAs (h : Heap) (index : Ref) (origin : Int) (slot : Nat) : Prop :=
  ∃ x, h.number? index = some x ∧ Decimal.toInt? x = some (origin + slot)

/-- A value is the index of a position in an array of the given origin and size. -/
def IsIndex (h : Heap) (index : Ref) (origin : Int) (size slot : Nat) : Prop :=
  h.ReadsAs index origin slot ∧ slot < size ∧ (origin + slot).natAbs < 9000000000000000

variable {h h' : Heap} {index r : Ref} {origin : Int} {size slot : Nat}

theorem slot?_eq_some_iff {n : Int} :
    slot? origin size n = some slot ↔ n = origin + slot ∧ slot < size := by
  simp only [slot?]
  split
  · rw [Option.some_inj]
    omega
  · simp only [reduceCtorEq, false_iff]
    omega

/-- The position of an index is found. -/
theorem isIndex_iff :
    h.IsIndex index origin size slot ↔ (h.integer? index).bind (slot? origin size) = some slot := by
  simp only [IsIndex, ReadsAs, integer?, Option.bind_eq_some_iff, Option.filter_eq_some_iff,
    slot?_eq_some_iff, decide_eq_true_eq]
  constructor
  · rintro ⟨⟨x, hx, hn⟩, hlt, hbound⟩
    exact ⟨_, ⟨⟨x, hx, hn⟩, hbound⟩, rfl, hlt⟩
  · rintro ⟨n, ⟨⟨x, hx, hn⟩, hbound⟩, rfl, hlt⟩
    exact ⟨⟨x, hx, hn⟩, hlt, hbound⟩

/-- No array of the sizes and origins there are has an index that is too large. -/
theorem isIndex_iff_readsAs (hleast : -0x80000000 ≤ origin) (hmost : origin < 0x80000000)
    (hsize : size ≤ 2 ^ 52) :
    h.IsIndex index origin size slot ↔ h.ReadsAs index origin slot ∧ slot < size := by
  refine and_congr_right fun _ => and_iff_left_of_imp fun hlt => ?_
  omega

theorem IsIndex.of_get_eq (hi : h.IsIndex index origin size slot)
    (hget : h'.get index = h.get index) : h'.IsIndex index origin size slot := by
  unfold IsIndex ReadsAs number? word? at hi ⊢
  rwa [hget]

/-- An index is a word. -/
theorem IsIndex.exists_word (hi : h.IsIndex index origin size slot) :
    ∃ word, h.get index = .word word := by
  obtain ⟨⟨x, hx, -⟩, -⟩ := hi
  obtain ⟨word, hword, -⟩ := Option.bind_eq_some_iff.mp hx
  exact ⟨word, get_of_word? hword⟩

end Heap

/-! ### What is put where -/

/-- The input with the given number, counted from zero. An input that is missing is no value. -/
def inputAt (args : List Ref) (n : Nat) : Ref :=
  args[n]?.getD Ref.nothing

/-- The one object that an operation is to replace, and by what. -/
inductive DataOp.Puts (h : Heap) (args : List Ref) : DataOp → Ref → Object → Prop
  /-- One element of an array is another. `SETITEM` looks for the array in the new element first. -/
  | item {op : DataOp} {origin : Int} {items : Array Ref} {slot : Nat}
      (hop : op = .setItem ∨ op = .dotSetItem)
      (hget : h.get (inputAt args 1) = .array origin items)
      (hindex : h.IsIndex (inputAt args 0) origin items.size slot)
      (hsafe : op = .setItem → h.contains (inputAt args 2) (inputAt args 1) = false) :
      Puts h args op (inputAt args 1) (.array origin (items.setIfInBounds slot (inputAt args 2)))
  /-- A cell has another head. -/
  | first {cell : Cell} {head tail : Ref} (hcell : h.get (inputAt args 0) = .list cell)
      (hpair : cell.pair = some (head, tail)) :
      Puts h args .dotSetFirst (inputAt args 0)
        (.list { cell with pair := some (inputAt args 1, tail) })
  /-- A cell has another tail. -/
  | butFirst {cell tailCell : Cell} {head tail : Ref} (hcell : h.get (inputAt args 0) = .list cell)
      (hpair : cell.pair = some (head, tail)) (htail : h.get (inputAt args 1) = .list tailCell) :
      Puts h args .dotSetBf (inputAt args 0)
        (.list { cell with pair := some (head, inputAt args 1) })

/-- One object is another one, and nothing else is different. -/
structure World.Replaces (w : World) (target : Ref) (o : Object) (w' : World) : Prop where
  get_eq : w'.heap.get target = o
  others : ∀ s, s ≠ target → w'.heap.get s = w.heap.get s
  rest : w' = { w with heap := w.heap.set target o }

section

variable {op : DataOp} {node target : Ref} {o : Object} {args : List Ref} {h : Heap} {w w' : World}

theorem inputAt_zero : args.head?.getD Ref.nothing = inputAt args 0 := by
  rw [inputAt, List.head?_eq_getElem?]

theorem DataOp.Puts.lt_size (hputs : op.Puts h args target o) : target.index < h.objects.size := by
  cases hputs with
  | item _ hget _ _ => exact Heap.lt_size_of_get (by simp [hget])
  | first hcell _ | butFirst hcell _ _ => exact Heap.lt_size_of_get (by simp [hcell])

theorem DataOp.Puts.changes (hputs : op.Puts h args target o) : op.changes = true := by
  cases hputs with
  | item hop _ _ _ => rcases hop with rfl | rfl <;> rfl
  | first _ _ | butFirst _ _ _ => rfl

/-- An element is replaced by its index, unless that would make a cycle. -/
theorem dataResult_setItem {origin : Int} {items : Array Ref} (hop : op = .setItem ∨ op = .dotSetItem)
    (hget : h.get (inputAt args 1) = .array origin items) :
    dataResult h op args =
      if op = .setItem ∧ h.contains (inputAt args 2) (inputAt args 1) then
        .dislikes (inputAt args 2)
      else
        match (h.integer? (inputAt args 0)).bind (Heap.slot? origin items.size) with
        | some slot =>
          .changed (inputAt args 1) (.array origin (items.setIfInBounds slot (inputAt args 2)))
        | none => .dislikes (inputAt args 0) := by
  have hget' : h.get (args[1]?.getD Ref.nothing) = .array origin items := hget
  rcases hop with rfl | rfl
  · simp only [dataResult, inputAt_zero, hget', beq_self_eq_true, Bool.true_and, true_and]
    rfl
  · simp only [dataResult, inputAt_zero, hget', reduceCtorEq, false_and, if_false]
    rfl

/-- Where there is an object to replace, it is replaced. -/
theorem DataOp.Puts.dataResult_eq (hputs : op.Puts h args target o) :
    dataResult h op args = .changed target o := by
  cases hputs with
  | item hop hget hindex hsafe =>
    have hcycle : ¬ (op = .setItem ∧ h.contains (inputAt args 2) (inputAt args 1) = true) := by
      rintro ⟨rfl, hcontains⟩
      rw [hsafe rfl] at hcontains
      cases hcontains
    rw [dataResult_setItem hop hget, if_neg hcycle, Heap.isIndex_iff.mp hindex]
  | @first cell head tail hcell hpair =>
    obtain ⟨id, pair, stamp, parse⟩ := cell
    obtain rfl : pair = some (head, tail) := hpair
    have hcell' := Heap.cell?_of_get hcell
    simp only [dataResult, inputAt_zero, hcell']
    rfl
  | @butFirst cell tailCell head tail hcell hpair htail =>
    obtain ⟨id, pair, stamp, parse⟩ := cell
    obtain rfl : pair = some (head, tail) := hpair
    have hcell' := Heap.cell?_of_get hcell
    have htail' : h.cell? (args[1]?.getD Ref.nothing) = some tailCell := Heap.cell?_of_get htail
    simp only [dataResult, inputAt_zero, hcell', htail']
    rfl

/-- What an operation comes to, if it changes what it is given. -/
theorem dataResult_of_changes (hop : op.changes = true) (h : Heap) (args : List Ref) :
    (∃ target o, op.Puts h args target o ∧ dataResult h op args = .changed target o) ∨
      ∃ culprit, dataResult h op args = .dislikes culprit := by
  cases op
  case setItem | dotSetItem =>
    simp only [dataResult, inputAt_zero]
    split
    · next origin items hget =>
      split
      · exact .inr ⟨_, rfl⟩
      · next hcycle =>
        split
        · next slot hslot =>
          exact .inl ⟨_, _, .item (by simp) hget (Heap.isIndex_iff.mpr hslot)
            fun hop => by simpa [hop, inputAt] using hcycle, rfl⟩
        · exact .inr ⟨_, rfl⟩
    · exact .inr ⟨_, rfl⟩
  case dotSetFirst =>
    simp only [dataResult, inputAt_zero]
    split
    · next hcell => exact .inl ⟨_, _, .first (Heap.get_of_cell? hcell) rfl, rfl⟩
    · exact .inr ⟨_, rfl⟩
  case dotSetBf =>
    simp only [dataResult, inputAt_zero]
    split
    · exact .inr ⟨_, rfl⟩
    · exact .inr ⟨_, rfl⟩
    · next hcell htail =>
      exact .inl ⟨_, _, .butFirst (Heap.get_of_cell? hcell) rfl (Heap.get_of_cell? htail), rfl⟩
    · exact .inr ⟨_, rfl⟩
  all_goals cases hop

/-- A result that leaves every object as it is. -/
def DataResult.Grows : DataResult → Prop
  | found _ | dislikes _ => True
  | made make => Making.Grows make
  | changed _ _ => False

namespace DataResult

@[simp]
theorem grows_found (r : Ref) : (found r).Grows := trivial

@[simp]
theorem grows_dislikes (r : Ref) : (dislikes r).Grows := trivial

@[simp]
theorem grows_made (make : Making Ref) [hm : Making.Grows make] : (made make).Grows := hm

@[simp]
theorem grows_orDislike (r : Option Ref) (culprit : Ref) : (orDislike r culprit).Grows := by
  cases r <;> trivial

@[simp]
theorem grows_text (s : String) : (text s).Grows := grows_made _

@[simp]
theorem grows_chars (cs : List Char) : (chars cs).Grows := grows_text _

@[simp]
theorem grows_truth (b : Bool) : (truth b).Grows := grows_made _

end DataResult

/-- All other operations find a value or make one. -/
theorem grows_dataResult (hop : op.changes = false) (h : Heap) (args : List Ref) :
    (dataResult h op args).Grows := by
  cases op
  case setItem | dotSetItem | dotSetFirst | dotSetBf => cases hop
  all_goals
    simp only [dataResult]
    repeat' split
    all_goals simp

/-! ### Carrying out an operation -/

theorem applyData_eq (hthing : op ≠ .thing) (node : Ref) (args : List Ref) (w : World) :
    applyData op node args w = (match dataResult w.heap op args with
      | .found r => return r
      | .made make => Run.making make
      | .changed target object => do
        Run.modifyHeap fun h => h.set target object
        return node
      | .dislikes culprit => raiseDoesntLike node culprit : Run Ref) w := by
  rw [applyData, if_neg hthing]
  exact Run.heap_bind _ w

theorem applyData_of_found {r : Ref} (hthing : op ≠ .thing)
    (hresult : dataResult w.heap op args = .found r) : applyData op node args w = .ok (r, w) := by
  rw [applyData_eq hthing, hresult]
  rfl

theorem applyData_of_dislikes {culprit : Ref} (hthing : op ≠ .thing)
    (hresult : dataResult w.heap op args = .dislikes culprit) :
    applyData op node args w = raiseDoesntLike node culprit w := by
  rw [applyData_eq hthing, hresult]

/-- What is disliked is an error. -/
theorem exists_applyData_of_dislikes (node : Ref) {culprit : Ref} (hthing : op ≠ .thing)
    (hresult : dataResult w.heap op args = .dislikes culprit) :
    ∃ r w' e, applyData op node args w = .ok (r, w') ∧ w.Raises r e w' := by
  obtain ⟨r, w', e, hraise, hraises, -⟩ := exists_raises w .doesntLike [node, culprit]
  exact ⟨r, w', e, (applyData_of_dislikes hthing hresult).trans hraise, hraises⟩

/-- The object is replaced, and the node is the result. -/
theorem exists_applyData_of_puts (node : Ref) (hputs : op.Puts w.heap args target o) :
    ∃ w', applyData op node args w = .ok (node, w') ∧ w.Replaces target o w' := by
  have hthing : op ≠ .thing := by
    rintro rfl
    cases hputs.changes
  refine ⟨{ w with heap := w.heap.set target o }, ?_,
    w.heap.get_set_self o hputs.lt_size, fun s hs => w.heap.get_set_of_ne o hs, rfl⟩
  rw [applyData_eq hthing, hputs.dataResult_eq]
  rfl

/-- A computation comes to a value with a property, and at most new objects are made. -/
def World.Gives (w : World) (p : Heap → Ref → Prop) (result : Except Halt (Ref × World)) : Prop :=
  ∃ r h, result = .ok (r, { w with heap := h }) ∧ w.heap.Grows h ∧ p h r

/-- What follows a computation goes on with its value. -/
theorem World.Gives.bind {p q : Heap → Ref → Prop} {m : Run Ref} {f : Ref → Run Ref}
    (hm : w.Gives p (m w))
    (hf : ∀ r h, w.heap.Grows h → p h r → { w with heap := h }.Gives q (f r { w with heap := h })) :
    w.Gives q ((m >>= f) w) := by
  obtain ⟨r, h, hrun, hgrows, hp⟩ := hm
  obtain ⟨r', h', hrun', hgrows', hq⟩ := hf r h hgrows hp
  exact ⟨r', h', (Run.bind_of_ok hrun f).trans hrun', hgrows.trans hgrows', hq⟩

theorem gives_of_found {p : Heap → Ref → Prop} {r : Ref} (node : Ref) (hthing : op ≠ .thing)
    (hresult : dataResult w.heap op args = .found r) (hp : p w.heap r) :
    w.Gives p (applyData op node args w) :=
  ⟨r, w.heap, applyData_of_found hthing hresult, .refl w.heap, hp⟩

theorem gives_of_made {p : Heap → Ref → Prop} {make : Making Ref} [hmake : Making.Grows make]
    (node : Ref) (hthing : op ≠ .thing) (hresult : dataResult w.heap op args = .made make)
    (hp : p (make w.heap).2 (make w.heap).1) : w.Gives p (applyData op node args w) := by
  refine ⟨(make w.heap).1, (make w.heap).2, ?_, hmake.grows w.heap, hp⟩
  rw [applyData_eq hthing, hresult]
  rfl

/-- A computation makes a word. -/
def World.Makes (w : World) (word : Word) (result : Except Halt (Ref × World)) : Prop :=
  w.Gives (fun h r => h.get r = .word word) result

theorem makes_of_word {word : Word} (node : Ref) (hthing : op ≠ .thing)
    (hresult : dataResult w.heap op args = .made (newWord word)) :
    w.Makes word (applyData op node args w) :=
  have : Making.Grows (newWord word) := inferInstanceAs (Making.Grows (newObject _))
  gives_of_made node hthing hresult (w.heap.get_add_self _)

/-- `THING` finds a value or fails. -/
theorem exists_variableNamed (name : Ref) (w : World) :
    (∃ r, variableNamed name w = .ok (r, w)) ∨
      ∃ r w' e, variableNamed name w = .ok (r, w') ∧ w.Raises r e w' := by
  cases hvalue : (w.frames.get? (w.heap.keyOf name)).filter w.heap.isData with
  | some r =>
    refine .inl ⟨r, ?_⟩
    rw [variableNamed, Run.get_bind, hvalue]
    rfl
  | none =>
    obtain ⟨r, w', e, hraise, hraises, -⟩ := exists_raises w .noValue [name]
    refine .inr ⟨r, w', e, ?_, hraises⟩
    rw [variableNamed, Run.get_bind, hvalue]
    exact hraise

/-- How an operation ends: with an error, with a value and no change, or with one object replaced. -/
inductive DataOp.Ends (op : DataOp) (node : Ref) (args : List Ref) (w : World) : Ref → World → Prop
  /-- Nothing is changed but the current error. No object was to be replaced. -/
  | failed {r : Ref} {e : ErrorRecord} {w' : World} (hraises : w.Raises r e w')
      (hnone : ∀ target o, ¬ op.Puts w.heap args target o) : Ends op node args w r w'
  /-- At most new objects are made. -/
  | gave {r : Ref} {h : Heap} (hop : op.changes = false) (hgrows : w.heap.Grows h) :
      Ends op node args w r { w with heap := h }
  | put {target : Ref} {o : Object} {w' : World} (hputs : op.Puts w.heap args target o)
      (hreplaces : w.Replaces target o w') : Ends op node args w node w'

theorem exists_ends (op : DataOp) (node : Ref) (args : List Ref) (w : World) :
    ∃ r w', applyData op node args w = .ok (r, w') ∧ op.Ends node args w r w' := by
  have hnone (hop : op.changes = false) : ∀ target o, ¬ op.Puts w.heap args target o :=
    fun _ _ hputs => Bool.noConfusion (hop.symm.trans hputs.changes)
  -- `THING` reads the frames, all other operations work on the heap alone
  by_cases hthing : op = .thing
  · subst hthing
    have hrun : applyData .thing node args = variableNamed (args.head?.getD Ref.nothing) := rfl
    rw [hrun]
    rcases exists_variableNamed (args.head?.getD Ref.nothing) w with
      ⟨r, hfound⟩ | ⟨r, w', e, hraise, hraises⟩
    · exact ⟨r, w, hfound, .gave rfl (.refl w.heap)⟩
    · exact ⟨r, w', hraise, .failed hraises (hnone rfl)⟩
  cases hop : op.changes with
  | true =>
    rcases dataResult_of_changes hop w.heap args with
      ⟨target, o, hputs, hresult⟩ | ⟨culprit, hresult⟩
    · obtain ⟨w', hrun, hreplaces⟩ := exists_applyData_of_puts node hputs
      exact ⟨node, w', hrun, .put hputs hreplaces⟩
    · obtain ⟨r, w', e, hrun, hraises⟩ := exists_applyData_of_dislikes node hthing hresult
      refine ⟨r, w', hrun, .failed hraises fun target o hputs => ?_⟩
      cases hresult.symm.trans hputs.dataResult_eq
  | false =>
    have hgrows := grows_dataResult hop w.heap args
    cases hresult : dataResult w.heap op args with
    | found r => exact ⟨r, w, applyData_of_found hthing hresult, .gave hop (.refl w.heap)⟩
    | made make =>
      have : Making.Grows make := by rwa [hresult] at hgrows
      refine ⟨(make w.heap).1, { w with heap := (make w.heap).2 }, ?_,
        .gave hop (Making.Grows.grows w.heap)⟩
      rw [applyData_eq hthing, hresult]
      rfl
    | changed target o =>
      rw [hresult] at hgrows
      cases hgrows
    | dislikes culprit =>
      obtain ⟨r, w', e, hrun, hraises⟩ := exists_applyData_of_dislikes node hthing hresult
      exact ⟨r, w', hrun, .failed hraises (hnone hop)⟩

end

/-! ### Reading and replacing elements of arrays -/

section

variable {op : DataOp} {node : Ref} {args : List Ref} {h : Heap} {w w' : World} {origin : Int}
  {items : Array Ref} {slot : Nat}

/-- An element is found by its index. -/
theorem dataResult_item (hget : h.get (inputAt args 1) = .array origin items) :
    dataResult h .item args =
      match (h.integer? (inputAt args 0)).bind (Heap.slot? origin items.size) with
      | some slot => .orDislike items[slot]? (inputAt args 0)
      | none => .dislikes (inputAt args 0) := by
  have hget' : h.get (args[1]?.getD Ref.nothing) = .array origin items := hget
  simp only [dataResult, inputAt_zero, hget', Heap.arrayGet?]
  cases h.integer? (inputAt args 0) with
  | none => rfl
  | some n =>
    simp only [Option.bind_some]
    cases Heap.slot? origin items.size n <;> rfl

theorem applyData_item (node : Ref) (hget : w.heap.get (inputAt args 1) = .array origin items)
    (hindex : w.heap.IsIndex (inputAt args 0) origin items.size slot) :
    applyData .item node args w = .ok (items[slot]?.getD Ref.nothing, w) := by
  have hlt : slot < items.size := hindex.2.1
  refine applyData_of_found nofun ?_
  rw [dataResult_item hget, Heap.isIndex_iff.mp hindex]
  simp [DataResult.orDislike, hlt]

/-- What is no index is disliked, by `ITEM` and by the two that replace an element. -/
theorem exists_raises_of_not_isIndex (node : Ref)
    (hop : op = .item ∨ op = .setItem ∨ op = .dotSetItem)
    (hget : w.heap.get (inputAt args 1) = .array origin items)
    (hindex : ∀ slot, ¬ w.heap.IsIndex (inputAt args 0) origin items.size slot) :
    ∃ r w' e, applyData op node args w = .ok (r, w') ∧ w.Raises r e w' := by
  have hthing : op ≠ .thing := by
    rintro rfl
    simp at hop
  have hslot : (w.heap.integer? (inputAt args 0)).bind (Heap.slot? origin items.size) = none :=
    Option.eq_none_iff_forall_ne_some.mpr fun slot hslot => hindex slot (Heap.isIndex_iff.mpr hslot)
  rcases hop with rfl | hop
  · have hresult := dataResult_item hget
    rw [hslot] at hresult
    exact exists_applyData_of_dislikes node hthing hresult
  · have hresult := dataResult_setItem hop hget
    rw [hslot] at hresult
    split at hresult
    · exact exists_applyData_of_dislikes node hthing hresult
    · exact exists_applyData_of_dislikes node hthing hresult

/-- When an element was replaced, it is found by its index, and each other one by its own. -/
theorem World.Replaces.applyData_item {array value : Ref}
    (hget : w.heap.get array = .array origin items)
    (hreplaces : w.Replaces array (.array origin (items.setIfInBounds slot value)) w')
    (reader other : Ref) {place : Nat}
    (hindex : w.heap.IsIndex other origin items.size place) :
    applyData .item reader [other, array] w' =
      .ok (if place = slot then value else items[place]?.getD Ref.nothing, w') := by
  have hother : other ≠ array := by
    rintro rfl
    obtain ⟨word, hword⟩ := hindex.exists_word
    rw [hget] at hword
    cases hword
  have hlt : place < items.size := hindex.2.1
  have hsize : (items.setIfInBounds slot value).size = items.size := Array.size_setIfInBounds
  have hget' : w'.heap.get (inputAt [other, array] 1) =
      .array origin (items.setIfInBounds slot value) := hreplaces.get_eq
  have hindex' := hindex.of_get_eq (hreplaces.others other hother)
  rw [← hsize] at hindex'
  rw [LogoEngine.applyData_item reader hget' hindex']
  rcases eq_or_ne place slot with rfl | hne
  · simp [hlt]
  · simp [hne, Array.getElem?_setIfInBounds_ne hne.symm]

/-- An element that has an index is replaced, or a cycle is refused. -/
theorem raises_or_replaces (node : Ref) (hop : op = .setItem ∨ op = .dotSetItem)
    (hget : w.heap.get (inputAt args 1) = .array origin items)
    (hindex : w.heap.IsIndex (inputAt args 0) origin items.size slot) :
    (op = .setItem ∧ w.heap.contains (inputAt args 2) (inputAt args 1) = true ∧
      ∃ r w' e, applyData op node args w = .ok (r, w') ∧ w.Raises r e w') ∨
    (¬ (op = .setItem ∧ w.heap.contains (inputAt args 2) (inputAt args 1) = true) ∧
      ∃ w', applyData op node args w = .ok (node, w') ∧
        w.Replaces (inputAt args 1) (.array origin (items.setIfInBounds slot (inputAt args 2)))
          w') := by
  by_cases hcycle : op = .setItem ∧ w.heap.contains (inputAt args 2) (inputAt args 1)
  · have hthing : op ≠ .thing := by
      rw [hcycle.1]
      nofun
    have hresult := dataResult_setItem hop hget
    rw [if_pos hcycle] at hresult
    exact .inl ⟨hcycle.1, hcycle.2, exists_applyData_of_dislikes node hthing hresult⟩
  · have hsafe (hset : op = .setItem) : w.heap.contains (inputAt args 2) (inputAt args 1) = false :=
      Bool.eq_false_iff.mpr fun hcontains => hcycle ⟨hset, hcontains⟩
    exact .inr ⟨hcycle, exists_applyData_of_puts node (.item hop hget hindex hsafe)⟩

end

/-- **Operations on data change what they say.** Every operation ends with an error that changes
nothing but the current error, or makes new objects at most, or, if it is one of the four, replaces
the one object it is to replace; it does not fail where there is one. Of an array, `ITEM` gives the
element at an index, and `SETITEM` and `.SETITEM` replace just this one, so that `ITEM` finds the new
value there and the old one at each other index; `SETITEM` refuses exactly what it finds the array in.
All three fail on what is no index. For an origin of 32 bits the indexes are all integers from the
origin on, as many as there are elements. Of a list that is not empty, `.SETFIRST` replaces the head,
and `.SETBF` the tail by any list. -/
theorem applyData_frame (op : DataOp) (node : Ref) (args : List Ref) (w : World) :
    ∃ r w', applyData op node args w = .ok (r, w') ∧ op.Ends node args w r w' ∧
      (∀ origin items, w.heap.get (inputAt args 1) = .array origin items →
        let array := inputAt args 1
        let value := inputAt args 2
        (op = .item → ∀ slot, w.heap.IsIndex (inputAt args 0) origin items.size slot →
          items[slot]? = some r ∧ w' = w) ∧
        (op = .setItem ∨ op = .dotSetItem →
          ∀ slot, w.heap.IsIndex (inputAt args 0) origin items.size slot →
            (op = .setItem ∧ w.heap.contains value array = true ∧ ∃ e, w.Raises r e w') ∨
            ¬ (op = .setItem ∧ w.heap.contains value array = true) ∧ r = node ∧
              w.Replaces array (.array origin (items.setIfInBounds slot value)) w' ∧
              ∀ reader other place, w.heap.IsIndex other origin items.size place →
                applyData .item reader [other, array] w' =
                  .ok (if place = slot then value else items[place]?.getD Ref.nothing, w')) ∧
        (op = .item ∨ op = .setItem ∨ op = .dotSetItem →
          (∀ slot, ¬ w.heap.IsIndex (inputAt args 0) origin items.size slot) →
            ∃ e, w.Raises r e w') ∧
        (-0x80000000 ≤ origin → origin < 0x80000000 → items.size ≤ 2 ^ 52 → ∀ index slot,
          (w.heap.IsIndex index origin items.size slot ↔
            w.heap.ReadsAs index origin slot ∧ slot < items.size))) ∧
      ∀ cell head tail, w.heap.get (inputAt args 0) = .list cell → cell.pair = some (head, tail) →
        (op = .dotSetFirst → r = node ∧ w.Replaces (inputAt args 0)
          (.list { cell with pair := some (inputAt args 1, tail) }) w') ∧
        (op = .dotSetBf → ∀ tailCell, w.heap.get (inputAt args 1) = .list tailCell →
          r = node ∧ w.Replaces (inputAt args 0)
            (.list { cell with pair := some (head, inputAt args 1) }) w') := by
  -- there is one run, so what each operation does when it succeeds is a fact about `r` and `w'`
  obtain ⟨r, w', hrun, hends⟩ := exists_ends op node args w
  have hput {target : Ref} {o : Object} (hputs : op.Puts w.heap args target o) :
      r = node ∧ w.Replaces target o w' := by
    obtain ⟨w₁, hrun₁, hreplaces⟩ := exists_applyData_of_puts node hputs
    cases hrun₁.symm.trans hrun
    exact ⟨rfl, hreplaces⟩
  refine ⟨r, w', hrun, hends, fun origin items hget => ⟨?_, ?_, ?_, ?_⟩,
    fun cell head tail hcell hpair => ⟨?_, ?_⟩⟩
  · rintro rfl slot hindex
    have hlt : slot < items.size := hindex.2.1
    rw [applyData_item node hget hindex] at hrun
    cases hrun
    exact ⟨by simp [hlt], rfl⟩
  · intro hop slot hindex
    rcases raises_or_replaces node hop hget hindex with
      ⟨hset, hcontains, r₁, w₁, e, hrun₁, hraises⟩ | ⟨hsafe, w₁, hrun₁, hreplaces⟩
    · cases hrun₁.symm.trans hrun
      exact .inl ⟨hset, hcontains, e, hraises⟩
    · cases hrun₁.symm.trans hrun
      exact .inr ⟨hsafe, rfl, hreplaces,
        fun reader other _ => hreplaces.applyData_item hget reader other⟩
  · intro hop hindex
    obtain ⟨r₁, w₁, e, hrun₁, hraises⟩ := exists_raises_of_not_isIndex node hop hget hindex
    cases hrun₁.symm.trans hrun
    exact ⟨e, hraises⟩
  · exact fun hleast hmost hsize index slot => Heap.isIndex_iff_readsAs hleast hmost hsize
  · rintro rfl
    exact hput (.first hcell hpair)
  · rintro rfl tailCell htail
    exact hput (.butFirst hcell hpair htail)

end LogoEngine
