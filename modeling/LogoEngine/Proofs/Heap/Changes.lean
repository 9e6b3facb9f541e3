import LogoEngine.Heap.Sketch
import Mathlib.Data.Nat.Basic
import Mathlib.Logic.Relation
import Mathlib.Order.Basic

/-!
# What can happen to a heap

Whatever makes or changes objects does so by a few **changes**, one object at a time: an object is
added, or the pair of a list cell, the items of an array or the labels of a procedure are replaced.
A list that exists never gets another parse this way. `Making.Changes` says so of a computation,
with one instance for each that makes objects.

What lasts is read off the changes: `Heap.Extends` says that objects stay of their kind and that
words, nodes and tokens never change, and `Heap.Sound` that an identity belongs to one list or
node and that no parse is dated in the future.
-/

namespace LogoEngine

/-- The identity of a list or node. -/
def Object.identity? : Object → Option Nat
  | list cell => some cell.id
  | node head _ => some head.id
  | _ => none

theorem Heap.sourceId?_eq (h : Heap) (r : Ref) : h.sourceId? r = (h.get r).identity? := by
  unfold Heap.sourceId? Object.identity?
  split <;> simp_all

/-- One change of a heap. -/
inductive Heap.Change (h : Heap) : Heap → Prop
  /-- An object without identity is added. -/
  | add (o : Object) (hid : o.identity? = none) : Change h (h.add o).2
  /-- A list cell is added. -/
  | addCell (pair : Option (Ref × Ref)) :
      Change h ({ h with nextId := h.nextId + 1 }.add (.list ⟨h.nextId, pair, 0, none⟩)).2
  /-- A list cell is added with a parse of the present time. -/
  | addCode (pair : Option (Ref × Ref)) (parse : Parse) :
      Change h ({ h with nextId := h.nextId + 1, clock := h.clock + 1 }.add
        (.list ⟨h.nextId, pair, h.clock + 1, some parse⟩)).2
  /-- A node is added. -/
  | addNode (name : Ref) (generator : Generator) (returns : Request) (inputs : List Node) :
      Change h ({ h with nextId := h.nextId + 1 }.add
        (.node ⟨⟨h.objects.size⟩, h.nextId, name, generator, returns⟩ inputs)).2
  | setPair {r : Ref} {cell : Cell} (hcell : h.cell? r = some cell) (pair : Option (Ref × Ref)) :
      Change h (h.set r (.list { cell with pair }))
  | setItems {r : Ref} {origin : Int} {items : Array Ref} (hget : h.get r = .array origin items)
      (items' : Array Ref) : Change h (h.set r (.array origin items'))
  | setLabels {r : Ref} {p : Procedure} (hget : h.get r = .procedure p)
      (labels : Table LabelTarget) : Change h (h.set r (.procedure { p with labels }))

/-- Any number of changes. -/
abbrev Heap.Changes : Heap → Heap → Prop :=
  Relation.ReflTransGen Heap.Change

/-- A computation that does nothing to the heap but changes. -/
class Making.Changes {α : Type} (m : Making α) : Prop where
  changes : ∀ h, Heap.Changes h (m h).2

/-! ### Computations that make objects -/

namespace Making

variable {α β : Type}

instance (a : α) : Changes (pure a) := ⟨fun _ => .refl⟩

instance {m : Making α} {f : α → Making β} [hm : Changes m] [hf : ∀ a, Changes (f a)] :
    Changes (m >>= f) :=
  ⟨fun h => (hm.changes h).trans ((hf (m h).1).changes (m h).2)⟩

instance {m : Making α} {f : α → β} [Changes m] : Changes (f <$> m) := by
  rw [map_eq_pure_bind]; infer_instance

instance : Changes (get : Making Heap) := ⟨fun _ => .refl⟩

instance (f : β → α → Making β) [∀ b a, Changes (f b a)] (b : β) (as : List α) :
    Changes (as.foldlM f b) := by
  induction as generalizing b with
  | nil => rw [List.foldlM_nil]; infer_instance
  | cons a as _ => rw [List.foldlM_cons]; infer_instance

instance (f : α → Making β) [∀ a, Changes (f a)] (as : List α) : Changes (as.mapM f) := by
  induction as with
  | nil => rw [List.mapM_nil]; infer_instance
  | cons a as _ => rw [List.mapM_cons]; infer_instance

end Making

/-- Making an object without identity. -/
theorem changes_newObject {o : Object} (hid : o.identity? = none) : Making.Changes (newObject o) :=
  ⟨fun h => .single (.add (h := h) o hid)⟩

instance (w : Word) : Making.Changes (newWord w) := changes_newObject rfl
instance (s : String) : Making.Changes (newText s) := by unfold newText; infer_instance
instance (x : Float) : Making.Changes (newNumber x) := by unfold newNumber; infer_instance
instance (b : Bool) : Making.Changes (newTruth b) := by unfold newTruth; infer_instance
instance (origin : Int) (items : List Ref) : Making.Changes (newArray origin items) :=
  changes_newObject rfl
instance (pair : Option (Ref × Ref)) : Making.Changes (newCell pair) :=
  ⟨fun h => .single (.addCell (h := h) pair)⟩
instance : Making.Changes newEmpty := by unfold newEmpty; infer_instance
instance (items : List Ref) : Making.Changes (newList items) := by unfold newList; infer_instance
instance (name : Ref) (generator : Generator) (returns : Request) (inputs : List Ref) :
    Making.Changes (newNode name generator returns inputs) :=
  ⟨fun h => .single (.addNode (h := h) name generator returns _)⟩
instance (value : Ref) : Making.Changes (newLiteral value) := by
  unfold newLiteral; infer_instance
instance (subject : String) : Making.Changes (newValueOf subject) := by
  unfold newValueOf; infer_instance
instance (name : String) (args : List Ref) : Making.Changes (newProcedureCall name args) := by
  unfold newProcedureCall; infer_instance
instance (name : String) (inputs : List Ref) : Making.Changes (newPrimitiveCall? name inputs) := by
  unfold newPrimitiveCall?; split <;> infer_instance
instance (name : String) (required : List String) (optional : List (String × Ref))
    (rest : Option String) (defaultInputs : Option Nat) (body : Ref) :
    Making.Changes (newProcedure name required optional rest defaultInputs body) :=
  changes_newObject rfl

/-- The last cell that is made is the list. -/
theorem exists_newList_eq_newCell (items : List Ref) (h : Heap) :
    ∃ pair h₁, Heap.Changes h h₁ ∧ newList items h = newCell pair h₁ := by
  cases items with
  | nil => exact ⟨none, h, .refl, rfl⟩
  | cons head rest =>
    let tail := (newEmpty >>= fun empty =>
      rest.reverse.foldlM (fun tail head => newCell (some (head, tail))) empty : Making Ref)
    refine ⟨some (head, (tail h).1), (tail h).2, Making.Changes.changes h, ?_⟩
    unfold newList
    rw [List.reverse_cons]
    simp only [List.foldlM_append, List.foldlM_cons, List.foldlM_nil, bind_pure]
    rfl

theorem Heap.add_set_self (h : Heap) (o o' : Object) :
    (h.add o).2.set (h.add o).1 o' = (h.add o').2 := by
  have hpush : (h.objects.push o).setIfInBounds h.objects.size o' = h.objects.push o' := by
    apply Array.ext_getElem?
    intro i
    rw [Array.getElem?_setIfInBounds, Array.getElem?_push, Array.getElem?_push]
    by_cases hi : i = h.objects.size
    · simp [hi]
    · simp [hi, Ne.symm hi]
  simp only [Heap.add, Heap.set, hpush]

/-- A new cell that gets a parse at once. -/
theorem attach_newCell (pair : Option (Ref × Ref)) (parse : Parse) (h : Heap) :
    (newCell pair h).2.attach (newCell pair h).1 parse =
      ({ h with nextId := h.nextId + 1, clock := h.clock + 1 }.add
        (.list ⟨h.nextId, pair, h.clock + 1, some parse⟩)).2 := by
  have hget := Heap.get_add_self { h with nextId := h.nextId + 1 } (.list ⟨h.nextId, pair, 0, none⟩)
  have hcell : (newCell pair h).2.cell? (newCell pair h).1 = some ⟨h.nextId, pair, 0, none⟩ :=
    congrArg Object.cell? hget
  rw [Heap.attach, hcell]
  exact Heap.add_set_self { h with nextId := h.nextId + 1, clock := h.clock + 1 } _ _

instance (groups : List (List Ref)) (items : List Ref) : Making.Changes (newCode groups items) := by
  refine ⟨fun h => ?_⟩
  obtain ⟨pair, h₁, hchanges, heq⟩ := exists_newList_eq_newCell items h
  have hrun : (newCode groups items h).2 = (newList items h).2.attach (newList items h).1
      (groups.map fun group => group.map (newList items h).2.nodeOf) := rfl
  rw [hrun, heq, attach_newCell]
  exact hchanges.tail (.addCode pair _)

/-! ### Sketches -/

mutual

/-- Building a sketch makes new objects and leaves the others. -/
theorem Sketch.changes_build (kept : Table Ref) :
    ∀ sketch : Sketch, Making.Changes (sketch.build kept)
  | .text s | .number s | .truth s | .valueOf s => by unfold Sketch.build; infer_instance
  | .nothing | .kept _ => by unfold Sketch.build; infer_instance
  | .list items | .array _ items => by
    have := Sketch.changes_buildAll kept items
    unfold Sketch.build; infer_instance
  | .code groups => by
    have := Sketch.changes_buildGroups kept groups
    unfold Sketch.build; infer_instance
  | .codeAs groups items => by
    have := Sketch.changes_buildGroups kept groups
    have := Sketch.changes_buildAll kept items
    unfold Sketch.build; infer_instance
  | .literal value => by
    have := Sketch.changes_build kept value
    unfold Sketch.build; infer_instance
  | .call name inputs => by
    have := Sketch.changes_buildAll kept inputs
    have hfallback (inputs : List Ref) (made : Option Ref) : Making.Changes (match made with
        | some made => return made
        | none => newProcedureCall name inputs) := by
      cases made <;> infer_instance
    unfold Sketch.build; infer_instance
  | .procedureCall _ inputs => by
    have := Sketch.changes_buildAll kept inputs
    unfold Sketch.build; infer_instance
  | .node name _ _ inputs => by
    have := Sketch.changes_build kept name
    have := Sketch.changes_buildAll kept inputs
    unfold Sketch.build; infer_instance
  | .procedure _ _ _ _ _ body defaults => by
    have := Sketch.changes_build kept body
    have := Sketch.changes_buildAll kept defaults
    unfold Sketch.build; infer_instance
  | .error cause tag message => by
    have := Sketch.changes_build kept tag
    have (e : ErrorRecord) : Making.Changes (newObject (.error e)) := changes_newObject rfl
    unfold Sketch.build; infer_instance
  | .errorWith cause tag message value => by
    have := Sketch.changes_build kept tag
    have := Sketch.changes_build kept value
    have (e : ErrorRecord) : Making.Changes (newObject (.error e)) := changes_newObject rfl
    unfold Sketch.build; infer_instance
  | .stop source => by
    have := Sketch.changes_build kept source
    have (r : Ref) (v : Option Ref) : Making.Changes (newObject (.ret r v)) :=
      changes_newObject rfl
    unfold Sketch.build; infer_instance
  | .output value source => by
    have := Sketch.changes_build kept value
    have := Sketch.changes_build kept source
    have (r : Ref) (v : Option Ref) : Making.Changes (newObject (.ret r v)) :=
      changes_newObject rfl
    unfold Sketch.build; infer_instance
  | .goto tag source => by
    have := Sketch.changes_build kept tag
    have := Sketch.changes_build kept source
    have (r t : Ref) : Making.Changes (newObject (.goto r t)) := changes_newObject rfl
    unfold Sketch.build; infer_instance
  | .tail target source => by
    have := Sketch.changes_build kept target
    have := Sketch.changes_build kept source
    have (r t : Ref) : Making.Changes (newObject (.continuation r t [])) := changes_newObject rfl
    unfold Sketch.build; infer_instance

theorem Sketch.changes_buildAll (kept : Table Ref) :
    ∀ sketches : List Sketch, Making.Changes (Sketch.buildAll kept sketches)
  | [] => by unfold Sketch.buildAll; infer_instance
  | s :: rest => by
    have := Sketch.changes_build kept s
    have := Sketch.changes_buildAll kept rest
    unfold Sketch.buildAll; infer_instance

theorem Sketch.changes_buildGroups (kept : Table Ref) :
    ∀ groups : List (List Sketch), Making.Changes (Sketch.buildGroups kept groups)
  | [] => by unfold Sketch.buildGroups; infer_instance
  | group :: rest => by
    have := Sketch.changes_buildAll kept group
    have := Sketch.changes_buildGroups kept rest
    unfold Sketch.buildGroups; infer_instance

end

attribute [instance] Sketch.changes_build Sketch.changes_buildAll Sketch.changes_buildGroups

/-! ### What becomes of an object -/

namespace Heap

theorem get_add (h : Heap) (o : Object) (r : Ref) :
    (h.add o).2.get r = if r = (h.add o).1 then o else h.get r := by
  by_cases hr : r = (h.add o).1
  · rw [if_pos hr, hr, get_add_self]
  · rw [if_neg hr]
    by_cases hlt : r.index < h.objects.size
    · exact get_add_of_lt h o hlt
    · have hne : r.index ≠ h.objects.size := fun heq => hr (congrArg Ref.mk heq)
      simp [get, add, Array.getD, hlt, show ¬ r.index < h.objects.size + 1 by omega]

theorem get_set (h : Heap) {r : Ref} (o : Object) (hr : r.index < h.objects.size) (s : Ref) :
    (h.set r o).get s = if s = r then o else h.get s := by
  by_cases hs : s = r
  · rw [if_pos hs, hs, get_set_self h o hr]
  · rw [if_neg hs, get_set_of_ne h o hs]

/-- A reference that leads to more than "no value" is in range. -/
theorem lt_size_of_get {h : Heap} {r : Ref} (hget : h.get r ≠ .nothing) :
    r.index < h.objects.size := by
  by_contra hlt
  exact hget (by simp [get, Array.getD, hlt])

theorem get_of_cell? {h : Heap} {r : Ref} {cell : Cell} (hcell : h.cell? r = some cell) :
    h.get r = .list cell := by
  unfold cell? Object.cell? at hcell
  split at hcell
  · next c hget => rw [hget, Option.some.inj hcell]
  · cases hcell

theorem cell?_of_get {h : Heap} {r : Ref} {cell : Cell} (hget : h.get r = .list cell) :
    h.cell? r = some cell := by
  rw [cell?, hget]
  rfl

theorem lt_size_of_cell? {h : Heap} {r : Ref} {cell : Cell} (hcell : h.cell? r = some cell) :
    r.index < h.objects.size :=
  lt_size_of_get (by simp [get_of_cell? hcell])

end Heap

/-- What an object can turn into. -/
inductive Object.Becomes : Object → Object → Prop
  | refl (o : Object) : Becomes o o
  | list {cell cell' : Cell} (hid : cell'.id = cell.id) : Becomes (.list cell) (.list cell')
  | array (origin : Int) (items items' : Array Ref) :
      Becomes (.array origin items) (.array origin items')
  | procedure (p : Procedure) (labels : Table LabelTarget) :
      Becomes (.procedure p) (.procedure { p with labels })

namespace Object.Becomes

variable {o o' o'' : Object}

theorem trans (h : Becomes o o') (h' : Becomes o' o'') : Becomes o o'' := by
  cases h with
  | refl => exact h'
  | list hid =>
    cases h' with
    | refl => exact .list hid
    | list hid' => exact .list (hid'.trans hid)
  | array origin items =>
    cases h' with
    | refl => exact .array origin items _
    | array => exact .array origin items _
  | procedure p =>
    cases h' with
    | refl => exact .procedure p _
    | procedure => exact .procedure p _

theorem kind_eq (h : Becomes o o') : o'.kind = o.kind := by
  cases h <;> rfl

theorem identity?_eq (h : Becomes o o') : o'.identity? = o.identity? := by
  cases h with
  | list hid => exact congrArg some hid
  | _ => rfl

end Object.Becomes

/-- A later heap: there may be more objects, and the older ones are of the kind they were. Words,
nodes and tokens do not change at all. -/
structure Heap.Extends (h h' : Heap) : Prop where
  size_le : h.objects.size ≤ h'.objects.size
  becomes : ∀ r : Ref, r.index < h.objects.size → (h.get r).Becomes (h'.get r)

namespace Heap.Extends

variable {h h' h'' : Heap}

theorem refl (h : Heap) : h.Extends h :=
  ⟨le_rfl, fun _ _ => .refl _⟩

theorem trans (hh : h.Extends h') (hh' : h'.Extends h'') : h.Extends h'' :=
  ⟨hh.size_le.trans hh'.size_le, fun r hr =>
    (hh.becomes r hr).trans (hh'.becomes r (hr.trans_le hh.size_le))⟩

theorem of_add {h h₁ : Heap} (o : Object) (hobjects : h₁.objects = h.objects) :
    h.Extends (h₁.add o).2 := by
  refine ⟨by simp [Heap.add, hobjects], fun r hr => ?_⟩
  have hget : h₁.get r = h.get r := by simp [Heap.get, hobjects]
  rw [Heap.get_add_of_lt h₁ o (hobjects ▸ hr), hget]
  exact .refl _

theorem of_set {h h₁ : Heap} {r : Ref} {o : Object} (hobjects : h₁.objects = h.objects)
    (ho : (h.get r).Becomes o) : h.Extends (h₁.set r o) := by
  have hget (s : Ref) : h₁.get s = h.get s := by simp [Heap.get, hobjects]
  refine ⟨by simp [hobjects], fun s hs => ?_⟩
  by_cases hsr : s = r
  · subst hsr
    rw [Heap.get_set_self h₁ o (hobjects ▸ hs)]
    exact ho
  · rw [Heap.get_set_of_ne h₁ o hsr, hget]
    exact .refl _

end Heap.Extends

theorem Heap.Change.extends {h h' : Heap} (hc : h.Change h') : h.Extends h' := by
  cases hc with
  | add | addCell | addCode | addNode => exact .of_add _ rfl
  | setPair hcell pair => exact .of_set rfl (Heap.get_of_cell? hcell ▸ .list rfl)
  | setItems hget items' => exact .of_set rfl (hget ▸ .array _ _ _)
  | setLabels hget labels => exact .of_set rfl (hget ▸ .procedure _ _)

theorem Heap.Changes.extends {h h' : Heap} (hc : h.Changes h') : h.Extends h' := by
  induction hc with
  | refl => exact .refl h
  | tail _ hlast ih => exact ih.trans hlast.extends

theorem Heap.Change.clock_le {h h' : Heap} (hc : h.Change h') : h.clock ≤ h'.clock := by
  cases hc with
  | addCode => exact Nat.le_succ _
  | _ => exact le_rfl

theorem Heap.Changes.clock_le {h h' : Heap} (hc : h.Changes h') : h.clock ≤ h'.clock := by
  induction hc with
  | refl => exact le_rfl
  | tail _ hlast ih => exact ih.trans hlast.clock_le

/-- Lists keep their identity, parse and date through every change. -/
theorem Heap.Change.exists_cell? {h h' : Heap} (hc : h.Change h') {r : Ref} {cell : Cell}
    (hcell : h.cell? r = some cell) : ∃ pair, h'.cell? r = some { cell with pair } := by
  have hget := Heap.get_of_cell? hcell
  have hlt := Heap.lt_size_of_cell? hcell
  have hold {h' : Heap} (heq : h'.get r = h.get r) :
      ∃ pair, h'.cell? r = some { cell with pair } :=
    ⟨cell.pair, by rw [Heap.cell?, heq, hget]; rfl⟩
  cases hc with
  | add o | addCell pair | addCode pair parse | addNode name generator returns inputs =>
    exact hold (Heap.get_add_of_lt _ _ hlt)
  | @setPair s other hother pair =>
    by_cases hs : r = s
    · subst hs
      obtain rfl : cell = other := Option.some.inj (hcell.symm.trans hother)
      exact ⟨pair, by rw [Heap.cell?, Heap.get_set_self h _ hlt]; rfl⟩
    · exact hold (Heap.get_set_of_ne h _ hs)
  | @setItems s origin items hother items' =>
    refine hold (Heap.get_set_of_ne h _ fun hs => ?_)
    rw [← hs, hget] at hother
    cases hother
  | @setLabels s p hother labels =>
    refine hold (Heap.get_set_of_ne h _ fun hs => ?_)
    rw [← hs, hget] at hother
    cases hother

/-- Lists keep their identity, parse and date while others are made. -/
theorem Heap.Changes.exists_cell? {h h' : Heap} (hc : h.Changes h') {r : Ref} {cell : Cell}
    (hcell : h.cell? r = some cell) : ∃ pair, h'.cell? r = some { cell with pair } := by
  induction hc with
  | refl => exact ⟨cell.pair, hcell⟩
  | tail _ hlast ih =>
    obtain ⟨pair, hpair⟩ := ih
    obtain ⟨pair', hpair'⟩ := hlast.exists_cell? hpair
    exact ⟨pair', hpair'⟩

/-! ### Identities and dates -/

/-- The heap after a list got a parse of the present time. -/
def Heap.dated (h : Heap) (r : Ref) (cell : Cell) (parse : Option Parse) : Heap :=
  { h with clock := h.clock + 1 }.set r (.list { cell with stamp := h.clock + 1, parse })

theorem Heap.attach_eq {h : Heap} {r : Ref} {cell : Cell} (hcell : h.cell? r = some cell)
    (parse : Parse) : h.attach r parse = h.dated r cell (some parse) := by
  rw [Heap.attach, hcell]
  rfl

theorem Heap.restamp_eq {h : Heap} {r : Ref} {cell : Cell} (hcell : h.cell? r = some cell) :
    h.restamp r = h.dated r cell cell.parse := by
  rw [Heap.restamp, hcell]
  rfl

theorem Heap.cell?_dated {h : Heap} {r : Ref} {cell : Cell} (hcell : h.cell? r = some cell)
    (parse : Option Parse) :
    (h.dated r cell parse).cell? r = some { cell with stamp := h.clock + 1, parse } := by
  have hget := Heap.get_set_self { h with clock := h.clock + 1 }
    (.list { cell with stamp := h.clock + 1, parse }) (Heap.lt_size_of_cell? hcell)
  exact congrArg Object.cell? hget

theorem Heap.get_dated_of_ne (h : Heap) {r s : Ref} (cell : Cell) (parse : Option Parse)
    (hne : s ≠ r) : (h.dated r cell parse).get s = h.get s :=
  Heap.get_set_of_ne _ _ hne

theorem Heap.extends_dated {h : Heap} {r : Ref} {cell : Cell} (hcell : h.cell? r = some cell)
    (parse : Option Parse) : h.Extends (h.dated r cell parse) :=
  .of_set rfl (Heap.get_of_cell? hcell ▸ .list rfl)

/-- An identity belongs to one list or node and was handed out before; no parse is dated in the
future. -/
structure Heap.Sound (h : Heap) : Prop where
  id_lt : ∀ {r i}, h.sourceId? r = some i → i < h.nextId
  id_inj : ∀ {r s i}, h.sourceId? r = some i → h.sourceId? s = some i → r = s
  stamp_le : ∀ {r cell}, h.cell? r = some cell → cell.stamp ≤ h.clock

namespace Heap.Sound

variable {h : Heap}

/-- The new object has an identity that was not handed out before, or none. -/
theorem add (hs : h.Sound) {o : Object} {nextId clock : Nat} (hnext : h.nextId ≤ nextId)
    (hclock : h.clock ≤ clock) (hid : ∀ i, o.identity? = some i → h.nextId ≤ i ∧ i < nextId)
    (hstamp : ∀ cell, o.cell? = some cell → cell.stamp ≤ clock) :
    ({ h with nextId, clock }.add o).2.Sound := by
  have hget (r : Ref) := Heap.get_add { h with nextId, clock } o r
  have hsource (r : Ref) : ({ h with nextId, clock }.add o).2.sourceId? r =
      if r = ⟨h.objects.size⟩ then o.identity? else h.sourceId? r := by
    rw [Heap.sourceId?_eq, Heap.sourceId?_eq, hget, apply_ite Object.identity?]
    rfl
  refine ⟨fun {r i} hi => ?_, fun {r s i} hr hs' => ?_, fun {r cell} hcell => ?_⟩
  · rw [hsource] at hi
    split at hi
    · exact (hid i hi).2
    · exact (hs.id_lt hi).trans_le hnext
  · rw [hsource] at hr hs'
    split at hr <;> split at hs'
    · next hr' hs'' => rw [hr', hs'']
    · exact absurd (hs.id_lt hs') (not_lt.mpr (hid i hr).1)
    · exact absurd (hs.id_lt hr) (not_lt.mpr (hid i hs').1)
    · exact hs.id_inj hr hs'
  · rw [Heap.cell?, hget, apply_ite Object.cell?] at hcell
    split at hcell
    · exact hstamp cell hcell
    · exact (hs.stamp_le hcell).trans hclock

/-- An object is replaced by one of the same identity. -/
theorem set (hs : h.Sound) {r : Ref} {o : Object} {clock : Nat} (hr : r.index < h.objects.size)
    (hclock : h.clock ≤ clock) (hid : o.identity? = (h.get r).identity?)
    (hstamp : ∀ cell, o.cell? = some cell → cell.stamp ≤ clock) :
    ({ h with clock }.set r o).Sound := by
  have hget (s : Ref) := Heap.get_set { h with clock } o hr s
  have hsource (s : Ref) : ({ h with clock }.set r o).sourceId? s = h.sourceId? s := by
    rw [Heap.sourceId?_eq, Heap.sourceId?_eq, hget]
    split
    · next heq => rw [hid, heq]
    · rfl
  refine ⟨fun {s i} hi => hs.id_lt (hsource s ▸ hi),
    fun {s t i} hi hj => hs.id_inj (hsource s ▸ hi) (hsource t ▸ hj), fun {s cell} hcell => ?_⟩
  rw [Heap.cell?, hget, apply_ite Object.cell?] at hcell
  split at hcell
  · exact hstamp cell hcell
  · exact (hs.stamp_le hcell).trans hclock

theorem change (hs : h.Sound) {h' : Heap} (hc : h.Change h') : h'.Sound := by
  cases hc with
  | add o hid =>
    refine hs.add (o := o) le_rfl le_rfl (by simp [hid]) fun cell hcell => ?_
    cases o <;> simp_all [Object.cell?, Object.identity?]
  | addCell pair =>
    exact hs.add (Nat.le_succ _) le_rfl (by simp [Object.identity?]) (by simp [Object.cell?])
  | addCode pair parse =>
    exact hs.add (Nat.le_succ _) (Nat.le_succ _) (by simp [Object.identity?])
      (by simp [Object.cell?])
  | addNode name generator returns inputs =>
    exact hs.add (Nat.le_succ _) le_rfl (by simp [Object.identity?]) (by simp [Object.cell?])
  | setPair hcell pair =>
    refine hs.set (Heap.lt_size_of_cell? hcell) le_rfl ?_ ?_
    · rw [Heap.get_of_cell? hcell]
      rfl
    · rintro _ ⟨⟩
      have hle := hs.stamp_le hcell
      exact hle
  | setItems hget items' =>
    exact hs.set (Heap.lt_size_of_get (by simp [hget])) le_rfl (by rw [hget]; rfl)
      (by simp [Object.cell?])
  | setLabels hget labels =>
    exact hs.set (Heap.lt_size_of_get (by simp [hget])) le_rfl (by rw [hget]; rfl)
      (by simp [Object.cell?])

theorem dated (hs : h.Sound) {r : Ref} {cell : Cell} (hcell : h.cell? r = some cell)
    (parse : Option Parse) : (h.dated r cell parse).Sound := by
  refine hs.set (Heap.lt_size_of_cell? hcell) (Nat.le_succ _) ?_ ?_
  · rw [Heap.get_of_cell? hcell]
    rfl
  · rintro _ ⟨⟩
    exact le_rfl

end Heap.Sound

end LogoEngine
