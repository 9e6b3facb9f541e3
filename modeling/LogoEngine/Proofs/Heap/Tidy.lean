import LogoEngine.Proofs.Heap.Changes
import LogoEngine.Proofs.Lower.Built

/-!
# Tidy heaps

Words, lists and arrays are data; everything else on a heap is there to be run or to end a run. A
heap is **tidy** if nothing but data stands where data belong: in lists and arrays, in what the
parses of lists hold, and wherever a token or a procedure keeps something for later.

Main statements: what is made of data leaves a heap tidy (`Making.Tidies`), and so does building a
sketch of data, of nodes or of a procedure (`Sketch.Makes.tidies`).
-/

namespace LogoEngine

/-! ### Data -/

namespace Heap

/-- A reference whose name is data. -/
def Named (h : Heap) (r : Ref) : Prop :=
  h.isData (h.displayName r) = true

variable {h h' : Heap} {r : Ref}

theorem isData_iff : h.isData r = true ↔
    (∃ w, h.get r = .word w) ∨ (∃ cell, h.get r = .list cell) ∨
      ∃ origin items, h.get r = .array origin items := by
  unfold isData
  cases h.get r <;> simp [Object.isData, Object.hasTag, Object.kind, Kind.tag, dataMask]

theorem isData_of_word? {w : Word} (hw : h.word? r = some w) : h.isData r = true := by
  unfold word? Object.word? at hw
  split at hw
  · next heq => exact isData_iff.mpr (.inl ⟨_, heq⟩)
  · cases hw

theorem isData_of_cell? {cell : Cell} (hcell : h.cell? r = some cell) : h.isData r = true :=
  isData_iff.mpr (.inr (.inl ⟨cell, get_of_cell? hcell⟩))

theorem lt_size_of_isData (hr : h.isData r = true) : r.index < h.objects.size := by
  refine lt_size_of_get fun hnothing => ?_
  rw [isData, hnothing] at hr
  cases hr

theorem named_of_isData (hr : h.isData r = true) : h.Named r := by
  unfold Named displayName
  split
  · next heq => simp [isData_iff, heq] at hr
  · exact hr

end Heap

namespace Heap.Extends

variable {h h' : Heap} {r : Ref}

theorem kind_eq (hh : h.Extends h') (hr : r.index < h.objects.size) :
    (h'.get r).kind = (h.get r).kind :=
  (hh.becomes r hr).kind_eq

theorem isData (hh : h.Extends h') (hr : h.isData r = true) : h'.isData r = true := by
  unfold Heap.isData Object.isData Object.hasTag at hr ⊢
  rwa [hh.kind_eq (lt_size_of_isData hr)]

theorem isFlow (hh : h.Extends h') (hr : h.isFlow r = true) : h'.isFlow r = true := by
  have hlt : r.index < h.objects.size := lt_size_of_get fun hnothing => by
    rw [Heap.isFlow, hnothing] at hr
    cases hr
  unfold Heap.isFlow Object.isFlow Object.hasTag at hr ⊢
  rwa [hh.kind_eq hlt]

theorem get_node (hh : h.Extends h') {head : NodeHead} {inputs : List Node}
    (hr : h.get r = .node head inputs) : h'.get r = .node head inputs := by
  have hbecomes := hh.becomes r (lt_size_of_get (by simp [hr]))
  rw [hr] at hbecomes
  generalize h'.get r = o at hbecomes
  cases hbecomes
  rfl

theorem word?_eq (hh : h.Extends h') {w : Word} (hr : h.word? r = some w) :
    h'.word? r = some w := by
  unfold Heap.word? Object.word? at hr
  split at hr
  · next w' heq =>
    have hbecomes := hh.becomes r (lt_size_of_get (by simp [heq]))
    rw [heq] at hbecomes
    unfold Heap.word?
    generalize h'.get r = o at hbecomes
    cases hbecomes
    exact hr
  · cases hr

theorem named (hh : h.Extends h') (hr : h.Named r) : h'.Named r := by
  cases hget : h.get r with
  | node head inputs =>
    rw [Heap.Named, displayName, hget] at hr
    rw [Heap.Named, displayName, hh.get_node hget]
    exact hh.isData hr
  | _ =>
    rw [Heap.Named, displayName, hget] at hr
    exact named_of_isData (hh.isData hr)

end Heap.Extends

/-! ### Tidy objects -/

/-- Nodes as parsers build them, where literals are data. -/
inductive Node.Tidy (h : Heap) : Node → Prop
  | primitive {head : NodeHead} {inputs : List Node} (name : String) (row : Primitive)
      (hname : h.word? head.name = some (.text name)) (hrow : Primitive.find? name = some row)
      (hgenerator : head.generator = row.generator) (hreturns : head.returns = row.returns)
      (hinputs : ∀ input ∈ inputs, input.Tidy h) : Tidy h (.call head inputs)
  | literal {head : NodeHead} {value : Ref} (hgenerator : head.generator = .literal)
      (hreturns : head.returns = .datum) (hvalue : h.isData value = true) :
      Tidy h (.call head [.datum value])
  | valueOf {head : NodeHead} (subject : Ref) (hgenerator : head.generator = .valueOf)
      (hreturns : head.returns = .datum) : Tidy h (.call head [.datum subject])
  | procedure {head : NodeHead} {inputs : List Node} (hgenerator : head.generator = .execProcedure)
      (hreturns : head.returns = .datumOrNothing) (hnamed : h.Named head.ref)
      (hinputs : ∀ input ∈ inputs, input.Tidy h) : Tidy h (.call head inputs)

/-- A parse of tidy nodes. -/
def Parse.Tidy (h : Heap) (parse : Parse) : Prop :=
  ∀ group ∈ parse, ∀ node ∈ group, node.Tidy h

/-- Nothing but data stands where data belong. -/
def Object.Tidy (h : Heap) : Object → Prop
  | .list cell =>
    (∀ pair, cell.pair = some pair → h.isData pair.1 = true ∧ h.isData pair.2 = true) ∧
      ∀ parse, cell.parse = some parse → parse.Tidy h
  | .array _ items => ∀ r ∈ items, h.isData r = true
  | .node head inputs => (Node.call head inputs).Tidy h ∧ h.isData head.name = true
  | .procedure p => h.isData p.body = true ∧ ∀ param ∈ p.optional, h.isData param.2 = true
  | .error e =>
    h.isData e.message = true ∧ (∀ r ∈ e.output, h.isData r = true) ∧
      (∀ r ∈ e.procedure, h.Named r) ∧ ∀ r ∈ e.line, h.isData r = true
  | .continuation _ call args => h.Named call ∧ ∀ r ∈ args, h.isData r = true
  | .ret _ value => ∀ r ∈ value, h.isData r = true
  | .word _ | .goto _ _ | .nothing => True

/-- A heap of tidy objects, the first of which is "no value". -/
structure Heap.Tidy (h : Heap) : Prop where
  pos : 0 < h.objects.size
  nothing : h.get Ref.nothing = .nothing
  objects : ∀ r, (h.get r).Tidy h

variable {h h' : Heap}

theorem Node.Tidy.built {node : Node} (hnode : node.Tidy h) : node.Built h := by
  induction hnode with
  | primitive name row hname hrow hgenerator hreturns _ ih =>
    exact .primitive name row hname hrow hgenerator hreturns ih
  | literal hgenerator hreturns => exact .literal _ hgenerator hreturns
  | valueOf subject hgenerator hreturns => exact .valueOf subject hgenerator hreturns
  | procedure hgenerator hreturns _ _ ih => exact .procedure hgenerator hreturns ih

/-! ### Later heaps -/

theorem Node.Built.mono {node : Node} (hnode : node.Built h) (hh : h.Extends h') : node.Built h' := by
  induction hnode with
  | primitive name row hname hrow hgenerator hreturns _ ih =>
    exact .primitive name row (hh.word?_eq hname) hrow hgenerator hreturns ih
  | literal value hgenerator hreturns => exact .literal value hgenerator hreturns
  | valueOf subject hgenerator hreturns => exact .valueOf subject hgenerator hreturns
  | procedure hgenerator hreturns _ ih => exact .procedure hgenerator hreturns ih

theorem Parse.Built.mono {parse : Parse} (hparse : parse.Built h) (hh : h.Extends h') :
    parse.Built h' :=
  fun group hgroup node hnode => (hparse group hgroup node hnode).mono hh

theorem Node.Tidy.mono {node : Node} (hnode : node.Tidy h) (hh : h.Extends h') :
    node.Tidy h' := by
  induction hnode with
  | primitive name row hname hrow hgenerator hreturns _ ih =>
    exact .primitive name row (hh.word?_eq hname) hrow hgenerator hreturns ih
  | literal hgenerator hreturns hvalue => exact .literal hgenerator hreturns (hh.isData hvalue)
  | valueOf subject hgenerator hreturns => exact .valueOf subject hgenerator hreturns
  | procedure hgenerator hreturns hnamed _ ih =>
    exact .procedure hgenerator hreturns (hh.named hnamed) ih

theorem Parse.Tidy.mono {parse : Parse} (hparse : parse.Tidy h) (hh : h.Extends h') :
    parse.Tidy h' :=
  fun group hgroup node hnode => (hparse group hgroup node hnode).mono hh

theorem Object.Tidy.mono {o : Object} (ho : o.Tidy h) (hh : h.Extends h') : o.Tidy h' := by
  cases o with
  | list cell =>
    exact ⟨fun pair hpair => (ho.1 pair hpair).imp hh.isData hh.isData,
      fun parse hparse => (ho.2 parse hparse).mono hh⟩
  | array origin items => exact fun r hr => hh.isData (ho r hr)
  | node head inputs => exact ⟨ho.1.mono hh, hh.isData ho.2⟩
  | procedure p => exact ⟨hh.isData ho.1, fun param hparam => hh.isData (ho.2 param hparam)⟩
  | error e =>
    exact ⟨hh.isData ho.1, fun r hr => hh.isData (ho.2.1 r hr),
      fun r hr => hh.named (ho.2.2.1 r hr), fun r hr => hh.isData (ho.2.2.2 r hr)⟩
  | continuation source call args =>
    exact ⟨hh.named ho.1, fun r hr => hh.isData (ho.2 r hr)⟩
  | ret source value => exact fun r hr => hh.isData (ho r hr)
  | word | goto | nothing => trivial

namespace Heap.Tidy

/-- A later heap is tidy if whatever is new in it is. -/
theorem of_extends (ht : h.Tidy) (hh : h.Extends h')
    (hnew : ∀ r, h'.get r = h.get r ∨ (h'.get r).Tidy h') : h'.Tidy where
  pos := ht.pos.trans_le hh.size_le
  nothing := by
    have hbecomes := hh.becomes Ref.nothing ht.pos
    rw [ht.nothing] at hbecomes
    generalize h'.get Ref.nothing = o at hbecomes
    cases hbecomes
    rfl
  objects r := (hnew r).elim (fun hsame => hsame ▸ (ht.objects r).mono hh) id

/-- Adding an object, which may refer to itself. -/
theorem add {h₁ : Heap} (ht : h.Tidy) {o : Object} (hobjects : h₁.objects = h.objects)
    (ho : o.Tidy (h₁.add o).2) : (h₁.add o).2.Tidy := by
  refine ht.of_extends (.of_add o hobjects) fun r => ?_
  rw [Heap.get_add]
  split
  · exact .inr ho
  · exact .inl (by simp [Heap.get, hobjects])

/-- Changing an object in place. -/
theorem set {h₁ : Heap} {r : Ref} (ht : h.Tidy) {o : Object} (hobjects : h₁.objects = h.objects)
    (hbecomes : (h.get r).Becomes o) (ho : o.Tidy h) : (h₁.set r o).Tidy := by
  have hh : h.Extends (h₁.set r o) := .of_set hobjects hbecomes
  refine ht.of_extends hh fun s => ?_
  by_cases hs : s = r ∧ r.index < h₁.objects.size
  · obtain ⟨rfl, hlt⟩ := hs
    rw [Heap.get_set_self h₁ o hlt]
    exact .inr (ho.mono hh)
  · left
    by_cases hsr : s = r
    · subst hsr
      have hlt : ¬ s.index < h₁.objects.size := fun hlt => hs ⟨rfl, hlt⟩
      simp [Heap.get, Heap.set, Array.getD, hobjects ▸ hlt, hlt]
    · rw [Heap.get_set_of_ne h₁ o hsr]
      simp [Heap.get, hobjects]

/-! ### What is found in data -/

theorem pair (ht : h.Tidy) {r : Ref} {pair : Ref × Ref} (hpair : h.pair? r = some pair) :
    h.isData pair.1 = true ∧ h.isData pair.2 = true := by
  obtain ⟨cell, hcell, hpair⟩ := Option.bind_eq_some_iff.mp hpair
  have hobject := ht.objects r
  rw [get_of_cell? hcell] at hobject
  exact hobject.1 pair hpair

theorem isData_of_pair? {r : Ref} {pair : Ref × Ref} (hpair : h.pair? r = some pair) :
    h.isData r = true := by
  obtain ⟨cell, hcell, -⟩ := Option.bind_eq_some_iff.mp hpair
  exact isData_of_cell? hcell

theorem items (ht : h.Tidy) {r s : Ref} (hs : s ∈ h.items r) : h.isData s = true := by
  unfold Heap.items at hs
  generalize h.objects.size = fuel at hs
  induction fuel generalizing r with
  | zero => cases hs
  | succ fuel ih =>
    unfold itemsUpTo at hs
    split at hs
    · next head tail hpair =>
      rcases List.mem_cons.mp hs with rfl | hs
      · exact (ht.pair hpair).1
      · exact ih hs
    · cases hs

theorem item? (ht : h.Tidy) {r s : Ref} {index : Nat} (hs : h.item? r index = some s) :
    h.isData s = true := by
  cases index with
  | zero => cases hs
  | succ n =>
    obtain ⟨cell, -, hcell⟩ := Option.bind_eq_some_iff.mp hs
    obtain ⟨pair, hpair, rfl⟩ := Option.map_eq_some_iff.mp hcell
    exact (ht.pair hpair).1

theorem array (ht : h.Tidy) {r s : Ref} {origin : Int} {items : Array Ref}
    (hget : h.get r = .array origin items) (hs : s ∈ items) : h.isData s = true := by
  have hobject := ht.objects r
  rw [hget] at hobject
  exact hobject s hs

/-- What a node or a datum is called is data. -/
theorem named (ht : h.Tidy) {r : Ref} {head : NodeHead} {inputs : List Node}
    (hget : h.get r = .node head inputs) : h.Named r := by
  have hobject := ht.objects r
  rw [hget] at hobject
  rw [Named, displayName, hget]
  exact hobject.2

/-! ### Parses of lists -/

theorem dated (ht : h.Tidy) {r : Ref} {cell : Cell} (hcell : h.cell? r = some cell)
    {parse : Option Parse} (hparse : ∀ p, parse = some p → p.Tidy h) :
    (h.dated r cell parse).Tidy := by
  have hobject := ht.objects r
  rw [get_of_cell? hcell] at hobject
  exact ht.set rfl (get_of_cell? hcell ▸ .list rfl) ⟨hobject.1, hparse⟩

theorem attach (ht : h.Tidy) (r : Ref) {parse : Parse} (hparse : parse.Tidy h) :
    (h.attach r parse).Tidy := by
  cases hcell : h.cell? r with
  | none => rwa [Heap.attach, hcell]
  | some cell =>
    rw [attach_eq hcell]
    exact ht.dated hcell fun _ heq => Option.some.inj heq ▸ hparse

theorem restamp (ht : h.Tidy) (r : Ref) : (h.restamp r).Tidy := by
  cases hcell : h.cell? r with
  | none => rwa [Heap.restamp, hcell]
  | some cell =>
    have hobject := ht.objects r
    rw [get_of_cell? hcell] at hobject
    rw [restamp_eq hcell]
    exact ht.dated hcell hobject.2

end Heap.Tidy

theorem Heap.extends_attach (h : Heap) (r : Ref) (parse : Parse) :
    h.Extends (h.attach r parse) := by
  cases hcell : h.cell? r with
  | none =>
    rw [Heap.attach, hcell]
    exact .refl h
  | some cell =>
    rw [Heap.attach_eq hcell]
    exact Heap.extends_dated hcell _

theorem Heap.extends_restamp (h : Heap) (r : Ref) : h.Extends (h.restamp r) := by
  cases hcell : h.cell? r with
  | none =>
    rw [Heap.restamp, hcell]
    exact .refl h
  | some cell =>
    rw [Heap.restamp_eq hcell]
    exact Heap.extends_dated hcell _

/-! ### Making objects -/

/-- A computation leaves a heap tidy, which is a later one, and something holds of its result. -/
structure Making.Tidies {α : Type} (m : Making α) (h : Heap) (post : α → Heap → Prop) : Prop where
  tidy : (m h).2.Tidy
  later : h.Extends (m h).2
  post : post (m h).1 (m h).2

namespace Making.Tidies

variable {α β : Type} {m : Making α} {f : α → Making β} {mid : α → Heap → Prop}
  {post : β → Heap → Prop}

protected theorem pure {a : α} (ht : h.Tidy) (hpost : mid a h) : Tidies (pure a) h mid :=
  ⟨ht, .refl h, hpost⟩

protected theorem get (ht : h.Tidy) :
    Tidies (get : Making Heap) h fun found h' => found = h ∧ h' = h :=
  ⟨ht, .refl h, rfl, rfl⟩

protected theorem bind (hm : Tidies m h mid)
    (hf : ∀ a h₁, h.Extends h₁ → h₁.Tidy → mid a h₁ → Tidies (f a) h₁ post) :
    Tidies (m >>= f) h post :=
  have hrest := hf _ _ hm.later hm.tidy hm.post
  ⟨hrest.tidy, hm.later.trans hrest.later, hrest.post⟩

theorem mono {post' : α → Heap → Prop} (hm : Tidies m h mid)
    (hpost : ∀ a h₁, h.Extends h₁ → h₁.Tidy → mid a h₁ → post' a h₁) : Tidies m h post' :=
  ⟨hm.tidy, hm.later, hpost _ _ hm.later hm.tidy hm.post⟩

/-- An object that refers to data. -/
theorem newObject {o : Object} (ht : h.Tidy) (ho : o.Tidy h) :
    Tidies (newObject o) h fun r h' => h'.get r = o :=
  have hlater : h.Extends (h.add o).2 := .of_add o rfl
  ⟨ht.add rfl (ho.mono hlater), hlater, h.get_add_self o⟩

theorem newWord (ht : h.Tidy) (w : Word) :
    Tidies (newWord w) h fun r h' => h'.word? r = some w :=
  (newObject ht (o := .word w) trivial).mono fun r h' _ _ hget => by rw [Heap.word?, hget]; rfl

theorem newCell {pair : Option (Ref × Ref)} (ht : h.Tidy)
    (hpair : ∀ p, pair = some p → h.isData p.1 = true ∧ h.isData p.2 = true) :
    Tidies (newCell pair) h fun r h' => ∃ cell, h'.cell? r = some cell ∧ cell.parse = none := by
  have hlater : h.Extends ({ h with nextId := h.nextId + 1 }.add (.list ⟨h.nextId, pair, 0, none⟩)).2 :=
    .of_add _ rfl
  have ho : (Object.list ⟨h.nextId, pair, 0, none⟩).Tidy h := ⟨hpair, by simp⟩
  refine ⟨ht.add rfl (ho.mono hlater), hlater, ⟨h.nextId, pair, 0, none⟩, ?_, rfl⟩
  show Object.cell? (Heap.get _ _) = _
  exact congrArg Object.cell? (Heap.get_add_self { h with nextId := h.nextId + 1 } _)

theorem newEmpty (ht : h.Tidy) : Tidies newEmpty h fun r h' => h'.isData r = true :=
  (newCell ht (by simp)).mono fun _ _ _ _ ⟨_, hcell, _⟩ => Heap.isData_of_cell? hcell

theorem newList {items : List Ref} (ht : h.Tidy) (hitems : ∀ r ∈ items, h.isData r = true) :
    Tidies (newList items) h fun r h' => h'.isData r = true := by
  refine .bind (newEmpty ht) fun empty h₁ hlater ht₁ hempty => ?_
  have hreverse : ∀ r ∈ items.reverse, h₁.isData r = true := fun r hr =>
    hlater.isData (hitems r (List.mem_reverse.mp hr))
  clear hlater hitems
  generalize items.reverse = rest at hreverse
  induction rest generalizing empty h₁ with
  | nil => exact .pure ht₁ hempty
  | cons head rest ih =>
    rw [List.forall_mem_cons] at hreverse
    rw [List.foldlM_cons]
    refine .bind (newCell ht₁ (by simp [hreverse.1, hempty])) fun tail h₂ hlater ht₂ htail => ?_
    obtain ⟨cell, hcell, -⟩ := htail
    exact ih tail h₂ ht₂ (Heap.isData_of_cell? hcell) fun r hr =>
      hlater.isData (hreverse.2 r hr)

theorem newArray {items : List Ref} (ht : h.Tidy) (origin : Int)
    (hitems : ∀ r ∈ items, h.isData r = true) :
    Tidies (newArray origin items) h fun r h' => h'.isData r = true :=
  (newObject ht (o := .array origin items.toArray) (by simpa [Object.Tidy] using hitems)).mono
    fun _ _ _ _ hget => Heap.isData_iff.mpr (.inr (.inr ⟨_, _, hget⟩))

theorem newProcedure {optional : List (String × Ref)} {body : Ref} (ht : h.Tidy) (name : String)
    (required : List String) (rest : Option String) (defaultInputs : Option Nat)
    (hbody : h.isData body = true) (hoptional : ∀ param ∈ optional, h.isData param.2 = true) :
    Tidies (newProcedure name required optional rest defaultInputs body) h
      fun r h' => ∃ p, h'.get r = .procedure p := by
  refine Tidies.mono (newObject ht ?_) fun _ _ _ _ hget => ⟨_, hget⟩
  refine ⟨hbody, fun param hparam => ?_⟩
  obtain ⟨p, hp, rfl⟩ := List.mem_map.mp hparam
  exact hoptional p hp

/-! ### Making nodes -/

/-- A node that is tidy once it is there. -/
theorem newNode {name : Ref} {generator : Generator} {returns : Request} {inputs : List Ref}
    (ht : h.Tidy) (hname : h.isData name = true)
    (hnode : ∀ (h' : Heap) (head : NodeHead), h.Extends h' →
      head.name = name → head.generator = generator → head.returns = returns →
      h'.get head.ref = .node head (inputs.map h.nodeOf) →
      (Node.call head (inputs.map h.nodeOf)).Tidy h') :
    Tidies (newNode name generator returns inputs) h
      fun r h' => ∃ head inputs, h'.get r = .node head inputs := by
  let head : NodeHead := ⟨⟨h.objects.size⟩, h.nextId, name, generator, returns⟩
  let o : Object := .node head (inputs.map h.nodeOf)
  have hlater : h.Extends ({ h with nextId := h.nextId + 1 }.add o).2 := .of_add o rfl
  have hget : ({ h with nextId := h.nextId + 1 }.add o).2.get head.ref = o :=
    Heap.get_add_self { h with nextId := h.nextId + 1 } o
  refine ⟨ht.add rfl ⟨?_, hlater.isData hname⟩, hlater, head, _, hget⟩
  exact hnode _ head hlater rfl rfl rfl hget

theorem newText (ht : h.Tidy) (s : String) :
    Tidies (newText s) h fun r h' => h'.word? r = some (.text s) :=
  newWord ht (.text s)

theorem newLiteral {value : Ref} (ht : h.Tidy) (hvalue : h.isData value = true) :
    Tidies (newLiteral value) h fun r h' => ∃ head inputs, h'.get r = .node head inputs := by
  refine .bind (newText ht _) fun name h₁ hlater ht₁ hname => ?_
  have hvalue₁ := hlater.isData hvalue
  refine newNode ht₁ (Heap.isData_of_word? hname) fun h' head hh _ hgenerator hreturns _ => ?_
  have hinput : h₁.nodeOf value = .datum value := by
    unfold Heap.nodeOf
    split
    · next heq => simp [Heap.isData_iff, heq] at hvalue₁
    · rfl
  rw [List.map_singleton, hinput]
  exact .literal hgenerator hreturns (hh.isData hvalue₁)

theorem newValueOf (ht : h.Tidy) (subject : String) :
    Tidies (newValueOf subject) h fun r h' => ∃ head inputs, h'.get r = .node head inputs := by
  refine .bind (newText ht _) fun name h₁ hlater ht₁ hname => ?_
  refine .bind (newText ht₁ _) fun word h₂ hlater₂ ht₂ hword => ?_
  refine newNode ht₂ (hlater₂.isData (Heap.isData_of_word? hname))
    fun h' head _ _ hgenerator hreturns _ => ?_
  have hinput : h₂.nodeOf word = .datum word := by
    have hdata := Heap.isData_of_word? hword
    unfold Heap.nodeOf
    split
    · next heq => simp [Heap.isData_iff, heq] at hdata
    · rfl
  rw [List.map_singleton, hinput]
  exact .valueOf word hgenerator hreturns

/-- Nodes on the heap as inputs. -/
theorem inputs_tidy {h h' : Heap} (ht : h.Tidy) (hh : h.Extends h') {inputs : List Ref}
    (hinputs : ∀ r ∈ inputs, ∃ head inputs, h.get r = .node head inputs) :
    ∀ input ∈ inputs.map h.nodeOf, input.Tidy h' := by
  intro input hinput
  obtain ⟨r, hr, rfl⟩ := List.mem_map.mp hinput
  obtain ⟨head, ins, hget⟩ := hinputs r hr
  have hobject := ht.objects r
  rw [hget] at hobject
  unfold Heap.nodeOf
  rw [hget]
  exact hobject.1.mono hh

theorem newProcedureCall {inputs : List Ref} (ht : h.Tidy) (name : String)
    (hinputs : ∀ r ∈ inputs, ∃ head inputs, h.get r = .node head inputs) :
    Tidies (newProcedureCall name inputs) h
      fun r h' => ∃ head inputs, h'.get r = .node head inputs := by
  refine .bind (newText ht _) fun word h₁ hlater ht₁ hword => ?_
  refine newNode ht₁ (Heap.isData_of_word? hword)
    fun h' head hh hname hgenerator hreturns hget => ?_
  refine .procedure hgenerator hreturns ?_ (inputs_tidy ht₁ hh fun r hr => ?_)
  · simp only [Heap.Named, Heap.displayName, hget, hname]
    exact hh.isData (Heap.isData_of_word? hword)
  · obtain ⟨head, ins, hget⟩ := hinputs r hr
    exact ⟨head, ins, hlater.get_node hget⟩

theorem newPrimitive {inputs : List Ref} {name : Ref} {text : String} {row : Primitive}
    (ht : h.Tidy) (hname : h.word? name = some (.text text)) (hrow : Primitive.find? text = some row)
    (hinputs : ∀ r ∈ inputs, ∃ head inputs, h.get r = .node head inputs) :
    Tidies (LogoEngine.newNode name row.generator row.returns inputs) h
      fun r h' => ∃ head inputs, h'.get r = .node head inputs :=
  newNode ht (Heap.isData_of_word? hname) fun _ _ hh hhead hgenerator hreturns _ =>
    .primitive text row (hhead ▸ hh.word?_eq hname) hrow hgenerator hreturns
      (inputs_tidy ht hh hinputs)

/-- An instruction list, with a parse of nodes that are there. -/
theorem newCode {groups : List (List Ref)} {items : List Ref} (ht : h.Tidy)
    (hgroups : ∀ group ∈ groups, ∀ r ∈ group, ∃ head inputs, h.get r = .node head inputs)
    (hitems : ∀ r ∈ items, h.isData r = true) :
    Tidies (newCode groups items) h fun r h' => h'.isData r = true := by
  refine .bind (newList ht hitems) fun r h₁ hlater ht₁ hr => ?_
  set parse : Parse := groups.map fun group => group.map h₁.nodeOf with hparse
  have htidy : parse.Tidy h₁ := by
    intro group hgroup node hnode
    obtain ⟨refs, hrefs, rfl⟩ := List.mem_map.mp hgroup
    refine inputs_tidy ht₁ (.refl h₁) (fun s hs => ?_) node hnode
    obtain ⟨head, inputs, hget⟩ := hgroups refs hrefs s hs
    exact ⟨head, inputs, hlater.get_node hget⟩
  have hlater₁ := h₁.extends_attach r parse
  exact ⟨ht₁.attach r htidy, hlater₁, hlater₁.isData hr⟩

end Making.Tidies

/-! ### Sketches -/

/-- What a sketch can be of. -/
inductive Role where
  | datum | node | procedure

/-- An object in its role. -/
def Role.Fits (h : Heap) : Role → Ref → Prop
  | datum, r => h.isData r = true
  | node, r => ∃ head inputs, h.get r = .node head inputs
  | procedure, r => ∃ p, h.get r = .procedure p

theorem Role.Fits.mono {role : Role} {r : Ref} (hr : role.Fits h r) (hh : h.Extends h') :
    role.Fits h' r := by
  cases role with
  | datum => exact hh.isData hr
  | node =>
    obtain ⟨head, inputs, hget⟩ := hr
    exact ⟨head, inputs, hh.get_node hget⟩
  | procedure =>
    obtain ⟨p, hget⟩ := hr
    have hbecomes := hh.becomes r (Heap.lt_size_of_get (by simp [hget]))
    rw [hget] at hbecomes
    generalize hget' : h'.get r = o at hbecomes
    cases hbecomes with
    | refl => exact ⟨_, hget'⟩
    | procedure => exact ⟨_, hget'⟩

/-- Sketches of words, lists and arrays, of nodes with literals of that kind, and of procedures whose
bodies and defaults are. Whatever is kept under a name may be used in its role. -/
inductive Sketch.Makes (h : Heap) (kept : Table Ref) : Role → Sketch → Prop
  | text (s : String) : Makes h kept .datum (.text s)
  | number (x : Float) : Makes h kept .datum (.number x)
  | truth (b : Bool) : Makes h kept .datum (.truth b)
  | list {items : List Sketch} (hitems : ∀ item ∈ items, Makes h kept .datum item) :
      Makes h kept .datum (.list items)
  | array (origin : Int) {items : List Sketch} (hitems : ∀ item ∈ items, Makes h kept .datum item) :
      Makes h kept .datum (.array origin items)
  | code {groups : List (List Sketch)}
      (hgroups : ∀ group ∈ groups, ∀ node ∈ group, Makes h kept .node node) :
      Makes h kept .datum (.code groups)
  | codeAs {groups : List (List Sketch)} {items : List Sketch}
      (hgroups : ∀ group ∈ groups, ∀ node ∈ group, Makes h kept .node node)
      (hitems : ∀ item ∈ items, Makes h kept .datum item) :
      Makes h kept .datum (.codeAs groups items)
  | kept {role : Role} {name : String} {r : Ref} (hname : kept.get? name = some r)
      (hr : role.Fits h r) : Makes h kept role (.kept name)
  | literal {value : Sketch} (hvalue : Makes h kept .datum value) :
      Makes h kept .node (.literal value)
  | valueOf (subject : String) : Makes h kept .node (.valueOf subject)
  | call (name : String) {inputs : List Sketch}
      (hinputs : ∀ input ∈ inputs, Makes h kept .node input) : Makes h kept .node (.call name inputs)
  | procedureCall (name : String) {inputs : List Sketch}
      (hinputs : ∀ input ∈ inputs, Makes h kept .node input) :
      Makes h kept .node (.procedureCall name inputs)
  | primitive {name : String} {row : Primitive} (hrow : Primitive.find? name = some row)
      {inputs : List Sketch} (hinputs : ∀ input ∈ inputs, Makes h kept .node input) :
      Makes h kept .node (.node (.text name) row.generator row.returns inputs)
  | procedure (name : String) (required optional : List String) (rest : Option String)
      (defaultInputs : Option Nat) {body : Sketch} {defaults : List Sketch}
      (hbody : Makes h kept .datum body) (hdefaults : ∀ item ∈ defaults, Makes h kept .datum item) :
      Makes h kept .procedure
        (.procedure name required optional rest defaultInputs body defaults)

/-- A sketch that makes an object of a role, whatever else was made meanwhile. -/
def Sketch.Tidies (h : Heap) (kept : Table Ref) (role : Role) (sketch : Sketch) : Prop :=
  ∀ h₁, h.Extends h₁ → h₁.Tidy → (sketch.build kept).Tidies h₁ fun r h' => role.Fits h' r

namespace Sketch

variable {kept : Table Ref} {role : Role}

theorem tidies_buildAll {sketches : List Sketch}
    (hsketches : ∀ sketch ∈ sketches, sketch.Tidies h kept role) {h₁ : Heap} (hh : h.Extends h₁)
    (ht : h₁.Tidy) :
    (buildAll kept sketches).Tidies h₁ fun refs h' => ∀ r ∈ refs, role.Fits h' r := by
  induction sketches generalizing h₁ with
  | nil =>
    rw [buildAll]
    exact .pure ht (by simp)
  | cons sketch rest ih =>
    rw [List.forall_mem_cons] at hsketches
    rw [buildAll]
    refine .bind (hsketches.1 h₁ hh ht) fun r h₂ hh₂ ht₂ hr => ?_
    refine .bind (ih hsketches.2 (hh.trans hh₂) ht₂) fun refs h₃ hh₃ ht₃ hrefs => ?_
    exact .pure ht₃ (List.forall_mem_cons.mpr ⟨hr.mono hh₃, hrefs⟩)

theorem tidies_buildGroups {groups : List (List Sketch)}
    (hgroups : ∀ group ∈ groups, ∀ sketch ∈ group, sketch.Tidies h kept role) {h₁ : Heap}
    (hh : h.Extends h₁) (ht : h₁.Tidy) :
    (buildGroups kept groups).Tidies h₁
      fun refs h' => ∀ group ∈ refs, ∀ r ∈ group, role.Fits h' r := by
  induction groups generalizing h₁ with
  | nil =>
    rw [buildGroups]
    exact .pure ht (by simp)
  | cons group rest ih =>
    rw [List.forall_mem_cons] at hgroups
    rw [buildGroups]
    refine .bind (tidies_buildAll hgroups.1 hh ht) fun refs h₂ hh₂ ht₂ hrefs => ?_
    refine .bind (ih hgroups.2 (hh.trans hh₂) ht₂) fun more h₃ hh₃ ht₃ hmore => ?_
    exact .pure ht₃ (List.forall_mem_cons.mpr ⟨fun r hr => (hrefs r hr).mono hh₃, hmore⟩)

/-- **Sketches of data, nodes and procedures leave a heap tidy.** -/
theorem Makes.tidies {sketch : Sketch} (hsketch : sketch.Makes h kept role) :
    sketch.Tidies h kept role := by
  -- parts are built before the whole, in a heap that has grown: what was data still is, by `mono`
  induction hsketch with
  | text s =>
    intro h₁ _ ht
    rw [build]
    exact (Making.Tidies.newText ht s).mono fun _ _ _ _ hword => Heap.isData_of_word? hword
  | number x =>
    intro h₁ _ ht
    rw [build]
    exact (Making.Tidies.newWord ht _).mono fun _ _ _ _ hword => Heap.isData_of_word? hword
  | truth b =>
    intro h₁ _ ht
    rw [build]
    exact (Making.Tidies.newWord ht _).mono fun _ _ _ _ hword => Heap.isData_of_word? hword
  | list _ ih =>
    intro h₁ hh ht
    rw [build]
    exact .bind (tidies_buildAll ih hh ht) fun refs h₂ _ ht₂ hrefs => .newList ht₂ hrefs
  | array origin _ ih =>
    intro h₁ hh ht
    rw [build]
    exact .bind (tidies_buildAll ih hh ht) fun refs h₂ _ ht₂ hrefs => .newArray ht₂ origin hrefs
  | code _ ih =>
    intro h₁ hh ht
    rw [build]
    refine .bind (tidies_buildGroups ih hh ht) fun groups h₂ _ ht₂ hgroups => ?_
    refine .bind (.get ht₂) fun _ _ _ _ hsame => ?_
    obtain ⟨rfl, rfl⟩ := hsame
    refine .newCode ht₂ hgroups fun r hr => ?_
    obtain ⟨s, hs, rfl⟩ := List.mem_map.mp hr
    obtain ⟨group, hgroup, hs⟩ := List.mem_flatten.mp hs
    obtain ⟨head, inputs, hget⟩ := hgroups group hgroup s hs
    exact ht₂.named hget
  | codeAs _ _ ihgroups ihitems =>
    intro h₁ hh ht
    rw [build]
    refine .bind (tidies_buildGroups ihgroups hh ht) fun groups h₂ hh₂ ht₂ hgroups => ?_
    refine .bind (tidies_buildAll ihitems (hh.trans hh₂) ht₂) fun items h₃ hh₃ ht₃ hitems => ?_
    exact .newCode ht₃ (fun group hgroup r hr => (hgroups group hgroup r hr).mono hh₃) hitems
  | kept hname hr =>
    intro h₁ hh ht
    rw [build, hname]
    exact .pure ht (hr.mono hh)
  | literal _ ih =>
    intro h₁ hh ht
    rw [build]
    exact .bind (ih h₁ hh ht) fun value h₂ _ ht₂ hvalue => .newLiteral ht₂ hvalue
  | valueOf subject =>
    intro h₁ _ ht
    rw [build]
    exact .newValueOf ht subject
  | call name _ ih =>
    intro h₁ hh ht
    rw [build]
    refine .bind (tidies_buildAll ih hh ht) fun inputs h₂ _ ht₂ hinputs => ?_
    unfold newPrimitiveCall?
    cases hrow : Primitive.find? name with
    | none => exact .newProcedureCall ht₂ name hinputs
    | some row =>
      simp only [bind_assoc, pure_bind, bind_pure]
      refine .bind (.newText ht₂ name) fun word h₃ hh₃ ht₃ hword => ?_
      exact .newPrimitive ht₃ hword hrow fun r hr => (hinputs r hr).mono hh₃
  | procedureCall name _ ih =>
    intro h₁ hh ht
    rw [build]
    exact .bind (tidies_buildAll ih hh ht) fun inputs h₂ _ ht₂ hinputs =>
      .newProcedureCall ht₂ name hinputs
  | primitive hrow _ ih =>
    intro h₁ hh ht
    rw [build, build]
    refine .bind (.newText ht _) fun word h₂ hh₂ ht₂ hword => ?_
    refine .bind (tidies_buildAll ih (hh.trans hh₂) ht₂) fun inputs h₃ hh₃ ht₃ hinputs => ?_
    exact .newPrimitive ht₃ (hh₃.word?_eq hword) hrow hinputs
  | procedure name required optional rest defaultInputs _ _ ihbody ihdefaults =>
    intro h₁ hh ht
    rw [build]
    refine .bind (ihbody h₁ hh ht) fun body h₂ hh₂ ht₂ hbody => ?_
    refine .bind (tidies_buildAll ihdefaults (hh.trans hh₂) ht₂)
      fun defaults h₃ hh₃ ht₃ hdefaults => ?_
    refine .newProcedure ht₃ name required rest defaultInputs (hh₃.isData hbody)
      fun param hparam => hdefaults _ (List.of_mem_zip hparam).2

end Sketch

end LogoEngine
