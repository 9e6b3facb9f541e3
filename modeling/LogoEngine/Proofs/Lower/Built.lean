import LogoEngine.Lower.Unit
import LogoEngine.Proofs.Emit.Lifetimes

/-!
# Nodes as parsers build them

A node is **built** when it is a primitive of the table with any number of inputs, a literal, a
variable or a call of a user procedure, and so are its inputs; this can be decided. What is special
about primitives is read off the table once: they have as many inputs as their code needs whenever
their number of inputs is in bounds, and what they claim to produce is what their code leaves.

`Node.rawTy` is the type of the register that the code of a node leaves, before its consumer casts
it. A node **fits** if no consumer below it reads a register of another type; `Node.fits` can be
computed.
-/

namespace LogoEngine

/-! ### What generators leave and need -/

namespace Generator

/-- The type of the register that the code of a generator leaves. -/
def ty : Generator → Ty
  | sum | product | difference | minus | quotient | remainder | modulo | sqrt | power | exp | log10
  | ln | integerPart | round | sin | cos | radSin | radCos | arctan | radArctan | bitAnd | bitOr
  | bitXor | bitNot | ashift | lshift | random | repcount | heading => .real
  | lessP | greaterP | lessEqualP | greaterEqualP | negation | conjunction | disjunction
  | penDownP | shownP => .truth
  | _ => .datum

/-- The fewest inputs the code of a generator can be made of. -/
def needs : Generator → Nat
  | form => 3
  | difference | remainder | modulo | power | ashift | lshift | lessP | greaterP | lessEqualP
  | greaterEqualP | repeatTimes | ifTrueThen | ifElse | catching | make => 2
  | minus | quotient | sqrt | exp | log10 | ln | integerPart | round | sin | cos | radSin | radCos
  | arctan | radArctan | bitNot | random | negation | run | runResult | forever | test | ifTrue
  | ifFalse | goto | throwing | setPos | towards => 1
  | _ => 0

/-- Whether a generator hands a single input through as it is. -/
def folds : Generator → Bool
  | sum | product => true
  | _ => false

/-- A generator asks for no more inputs than there are. -/
theorem length_requests_le {g : Generator} {n : Nat} (h : g.needs ≤ n) :
    (g.requests n).length ≤ n := by
  cases g <;> simp only [needs] at h <;> simp [requests] <;> omega

/-- A generator with enough inputs asks for enough. -/
theorem needs_le_length_requests {g : Generator} {n : Nat} (h : g.needs ≤ n) :
    g.needs ≤ (g.requests n).length := by
  cases g <;> simp only [needs] at h <;> simp [requests, needs] <;> omega

end Generator

/-! ### The table -/

namespace Primitive

/-- What every row of the table keeps to. -/
structure Proper (row : Primitive) : Prop where
  upper : Text.upper row.name = row.name
  literal : row.generator ≠ .literal
  valueOf : row.generator ≠ .valueOf
  procedure : row.generator ≠ .execProcedure
  needs : row.generator.needs ≤ row.minInputs
  turtle : ∀ op, row.generator = .turtle op →
    row.minInputs = op.inputs ∧ row.maxInputs = some op.inputs
  delivers : row.returns.delivers row.generator.ty = true

private theorem upper_eq_self {s : String}
    (h : (s.toList.all fun c => c.toNat < 0x80 && c.toUpper == c) = true) : Text.upper s = s := by
  have hmap : s.toList.flatMap Text.upperChar = s.toList.flatMap fun c => [c] := by
    refine List.flatMap_congr fun c hc => ?_
    have := List.all_eq_true.mp h c hc
    simp only [Bool.and_eq_true, decide_eq_true_eq, beq_iff_eq] at this
    rw [Text.upperChar, if_pos this.1, this.2]
  rw [Text.upper, hmap, List.flatMap_singleton', String.ofList_toList]

private theorem table_upper : ∀ row ∈ table,
    (row.name.toList.all fun c => c.toNat < 0x80 && c.toUpper == c) = true := by
  decide +kernel

private theorem table_generators : ∀ row ∈ table,
    row.generator ≠ .literal ∧ row.generator ≠ .valueOf ∧ row.generator ≠ .execProcedure ∧
      row.generator.needs ≤ row.minInputs ∧ row.returns.delivers row.generator.ty = true := by
  decide +kernel

private theorem table_turtle : ∀ row ∈ table, ∀ op ∈ TurtleOp.all, row.generator = .turtle op →
    row.minInputs = op.inputs ∧ row.maxInputs = some op.inputs := by
  decide +kernel

/-- **The table is proper.** -/
theorem proper_of_mem {row : Primitive} (h : row ∈ table) : row.Proper := by
  obtain ⟨hliteral, hvalueOf, hprocedure, hneeds, hdelivers⟩ := table_generators row h
  refine ⟨upper_eq_self (table_upper row h), hliteral, hvalueOf, hprocedure, hneeds, ?_, hdelivers⟩
  intro op
  exact table_turtle row h op (by cases op <;> decide)

theorem mem_of_find? {name : String} {row : Primitive} (h : find? name = some row) :
    row ∈ table := by
  unfold find? at h
  exact List.mem_of_find?_eq_some h

/-- A row that is found is proper, and its key finds it again. -/
theorem find?_eq_some {name : String} {row : Primitive} (h : find? name = some row) :
    row.Proper ∧ find? (Text.upper name) = some row := by
  have hproper := proper_of_mem (mem_of_find? h)
  unfold find? at h ⊢
  have hname : row.name = Text.upper name := by
    simpa using List.find?_some h
  refine ⟨hproper, ?_⟩
  rw [← hname, hproper.upper, hname]
  exact h

end Primitive

/-! ### Built nodes -/

/-- Nodes as they are made for primitives, literals, variables and user procedures. -/
inductive Node.Built (h : Heap) : Node → Prop
  | primitive {head : NodeHead} {inputs : List Node} (name : String) (row : Primitive)
      (hname : h.word? head.name = some (.text name)) (hrow : Primitive.find? name = some row)
      (hgenerator : head.generator = row.generator) (hreturns : head.returns = row.returns)
      (hinputs : ∀ input ∈ inputs, input.Built h) : Built h (.call head inputs)
  | literal {head : NodeHead} (value : Node) (hgenerator : head.generator = .literal)
      (hreturns : head.returns = .datum) : Built h (.call head [value])
  | valueOf {head : NodeHead} (subject : Ref) (hgenerator : head.generator = .valueOf)
      (hreturns : head.returns = .datum) : Built h (.call head [.datum subject])
  | procedure {head : NodeHead} {inputs : List Node} (hgenerator : head.generator = .execProcedure)
      (hreturns : head.returns = .datumOrNothing) (hinputs : ∀ input ∈ inputs, input.Built h) :
      Built h (.call head inputs)

/-- A parse of built nodes. -/
def Parse.Built (h : Heap) (parse : Parse) : Prop :=
  ∀ group ∈ parse, ∀ node ∈ group, node.Built h

theorem Parse.built_singleton {h : Heap} {node : Node} (hbuilt : node.Built h) :
    Parse.Built h [[node]] := by
  intro group hgroup node' hnode
  obtain rfl := List.mem_singleton.mp hgroup
  obtain rfl := List.mem_singleton.mp hnode
  exact hbuilt

/-! ### Telling whether a node is built -/

/-- Whether a head is that of a primitive of the table. -/
def NodeHead.isPrimitive (h : Heap) (head : NodeHead) : Bool :=
  match h.word? head.name with
  | some (.text name) =>
    (Primitive.find? name).any fun row =>
      head.generator = row.generator ∧ head.returns = row.returns
  | _ => false

theorem NodeHead.isPrimitive_iff {h : Heap} {head : NodeHead} : head.isPrimitive h = true ↔
    ∃ name row, h.word? head.name = some (.text name) ∧ Primitive.find? name = some row ∧
      head.generator = row.generator ∧ head.returns = row.returns := by
  rw [isPrimitive]
  constructor
  · intro hprimitive
    split at hprimitive
    · next name hname =>
      obtain ⟨row, hrow, hhead⟩ := (Option.any_eq_true _ _).mp hprimitive
      exact ⟨name, row, hname, hrow, of_decide_eq_true hhead⟩
    · cases hprimitive
  · rintro ⟨name, row, hname, hrow, hhead⟩
    rw [hname]
    exact (Option.any_eq_true _ _).mpr ⟨row, hrow, decide_eq_true hhead⟩

/-- Whether the inputs of a node are no more than the name of a variable. -/
def Node.isSubject : List Node → Bool
  | [.datum _] => true
  | _ => false

theorem Node.isSubject_iff {inputs : List Node} :
    Node.isSubject inputs = true ↔ ∃ subject, inputs = [.datum subject] := by
  constructor
  · intro hsubject
    unfold isSubject at hsubject
    split at hsubject
    · next subject => exact ⟨subject, rfl⟩
    · cases hsubject
  · rintro ⟨subject, rfl⟩
    rfl

mutual

/-- Whether a node is built. -/
def Node.isBuilt (h : Heap) : Node → Bool
  | .call head inputs =>
    head.isPrimitive h && allBuilt h inputs ||
      head.generator = .execProcedure && head.returns = .datumOrNothing && allBuilt h inputs ||
      head.generator = .literal && head.returns = .datum && inputs.length = 1 ||
      head.generator = .valueOf && head.returns = .datum && isSubject inputs
  | .datum _ => false

/-- Whether nodes are built. -/
def Node.allBuilt (h : Heap) : List Node → Bool
  | [] => true
  | node :: rest => node.isBuilt h && allBuilt h rest

end

theorem Node.allBuilt_iff {h : Heap} {nodes : List Node} :
    Node.allBuilt h nodes = true ↔ ∀ node ∈ nodes, node.isBuilt h = true := by
  induction nodes with
  | nil => simp [allBuilt]
  | cons node rest ih => rw [allBuilt, Bool.and_eq_true, ih, List.forall_mem_cons]

/-- Whether a call is built, by the kinds of calls there are. -/
theorem Node.isBuilt_call_iff {h : Heap} {head : NodeHead} {inputs : List Node} :
    (Node.call head inputs).isBuilt h = true ↔
      head.isPrimitive h = true ∧ (∀ input ∈ inputs, input.isBuilt h = true) ∨
      (head.generator = .execProcedure ∧ head.returns = .datumOrNothing) ∧
        (∀ input ∈ inputs, input.isBuilt h = true) ∨
      (head.generator = .literal ∧ head.returns = .datum) ∧ (∃ value, inputs = [value]) ∨
      (head.generator = .valueOf ∧ head.returns = .datum) ∧ ∃ subject, inputs = [.datum subject] := by
  rw [isBuilt]
  simp only [Bool.or_eq_true, Bool.and_eq_true, decide_eq_true_eq, allBuilt_iff, isSubject_iff,
    List.length_eq_one_iff, or_assoc]

theorem Node.Built.isBuilt {h : Heap} {node : Node} (hbuilt : node.Built h) :
    node.isBuilt h = true := by
  induction hbuilt with
  | primitive name row hname hrow hgenerator hreturns _ ih =>
    refine isBuilt_call_iff.mpr (.inl ⟨?_, ih⟩)
    exact NodeHead.isPrimitive_iff.mpr ⟨name, row, hname, hrow, hgenerator, hreturns⟩
  | procedure hgenerator hreturns _ ih =>
    exact isBuilt_call_iff.mpr (.inr (.inl ⟨⟨hgenerator, hreturns⟩, ih⟩))
  | literal value hgenerator hreturns =>
    exact isBuilt_call_iff.mpr (.inr (.inr (.inl ⟨⟨hgenerator, hreturns⟩, value, rfl⟩)))
  | valueOf subject hgenerator hreturns =>
    exact isBuilt_call_iff.mpr (.inr (.inr (.inr ⟨⟨hgenerator, hreturns⟩, subject, rfl⟩)))

mutual

theorem Node.built_of_isBuilt {h : Heap} :
    ∀ node : Node, node.isBuilt h = true → node.Built h
  | .datum _, hbuilt => by cases hbuilt
  | .call head inputs, hbuilt => by
    have hinputs := Node.built_of_allBuilt (h := h) inputs
    rcases isBuilt_call_iff.mp hbuilt with ⟨hprimitive, hall⟩ | ⟨⟨hgenerator, hreturns⟩, hall⟩ |
      ⟨⟨hgenerator, hreturns⟩, value, rfl⟩ | ⟨⟨hgenerator, hreturns⟩, subject, rfl⟩
    · obtain ⟨name, row, hname, hrow, hgenerator, hreturns⟩ := NodeHead.isPrimitive_iff.mp hprimitive
      exact .primitive name row hname hrow hgenerator hreturns (hinputs hall)
    · exact .procedure hgenerator hreturns (hinputs hall)
    · exact .literal value hgenerator hreturns
    · exact .valueOf subject hgenerator hreturns

theorem Node.built_of_allBuilt {h : Heap} :
    ∀ nodes : List Node, (∀ node ∈ nodes, node.isBuilt h = true) → ∀ node ∈ nodes, node.Built h
  | [], _ => fun _ hnode => absurd hnode List.not_mem_nil
  | node :: rest, hall => by
    obtain ⟨hfirst, hrest⟩ := List.forall_mem_cons.mp hall
    exact List.forall_mem_cons.mpr
      ⟨Node.built_of_isBuilt node hfirst, Node.built_of_allBuilt rest hrest⟩

end

instance (h : Heap) (node : Node) : Decidable (node.Built h) :=
  decidable_of_iff (node.isBuilt h = true) ⟨Node.built_of_isBuilt node, Node.Built.isBuilt⟩

instance (h : Heap) (parse : Parse) : Decidable (parse.Built h) :=
  inferInstanceAs (Decidable (∀ group ∈ parse, ∀ node ∈ group, node.Built h))

/-! ### What built nodes need -/

/-- The bounds of a built primitive are those of its row. -/
theorem arityFault?_primitive {h : Heap} {head : NodeHead} {name : String} {row : Primitive}
    (hname : h.word? head.name = some (.text name)) (hrow : Primitive.find? name = some row)
    (hgenerator : head.generator = row.generator) (inputs : Nat) :
    arityFault? h head inputs =
      if inputs < row.minInputs then some .errNotEnoughInputs
      else if row.maxInputs.any (· < inputs) then some .errTooManyInputs else none := by
  obtain ⟨hproper, hfind⟩ := Primitive.find?_eq_some hrow
  have hkey : h.keyOf head.name = Text.upper name := by
    simp [Heap.keyOf, hname, Word.key, Word.toText]
  unfold arityFault?
  rw [hgenerator]
  split
  · next heq => exact absurd heq hproper.literal
  · next heq => exact absurd heq hproper.valueOf
  · next heq => exact absurd heq hproper.procedure
  · rw [hkey, hfind]

/-- A primitive without a fault has a number of inputs in bounds. -/
theorem bounds_of_arityFault? {h : Heap} {head : NodeHead} {name : String} {row : Primitive}
    (hname : h.word? head.name = some (.text name)) (hrow : Primitive.find? name = some row)
    (hgenerator : head.generator = row.generator) {inputs : Nat}
    (hfault : arityFault? h head inputs = none) :
    row.minInputs ≤ inputs ∧ ∀ bound, row.maxInputs = some bound → inputs ≤ bound := by
  rw [arityFault?_primitive hname hrow hgenerator] at hfault
  split at hfault
  · cases hfault
  · next hmin =>
    split at hfault
    · cases hfault
    · next hmax =>
      refine ⟨Nat.not_lt.mp hmin, fun bound hbound => ?_⟩
      rw [hbound] at hmax
      simpa using hmax

/-- The code of a primitive without a fault has the inputs it uses, and the node delivers what it
says. -/
theorem uses_of_arityFault? {h : Heap} {head : NodeHead} {name : String} {row : Primitive}
    (hname : h.word? head.name = some (.text name)) (hrow : Primitive.find? name = some row)
    (hgenerator : head.generator = row.generator) (hreturns : head.returns = row.returns)
    {inputs : Nat} (hfault : arityFault? h head inputs = none) :
    head.generator.needs ≤ inputs ∧ (∀ op, head.generator = .turtle op → inputs = op.inputs) ∧
      head.returns.delivers head.generator.ty = true := by
  have hproper := (Primitive.find?_eq_some hrow).1
  obtain ⟨hmin, hmax⟩ := bounds_of_arityFault? hname hrow hgenerator hfault
  rw [hgenerator, hreturns]
  refine ⟨hproper.needs.trans hmin, fun op hop => ?_, hproper.delivers⟩
  obtain ⟨hleast, hmost⟩ := hproper.turtle op hop
  exact Nat.le_antisymm (hmax op.inputs hmost) (hleast ▸ hmin)

/-- A number of inputs in bounds is no fault. -/
theorem arityFault?_eq_none {h : Heap} {head : NodeHead} {name : String} {row : Primitive}
    (hname : h.word? head.name = some (.text name)) (hrow : Primitive.find? name = some row)
    (hgenerator : head.generator = row.generator) {inputs : Nat} (hmin : row.minInputs ≤ inputs)
    (hmax : ∀ bound, row.maxInputs = some bound → inputs ≤ bound) :
    arityFault? h head inputs = none := by
  rw [arityFault?_primitive hname hrow hgenerator, if_neg (Nat.not_lt.mpr hmin)]
  cases hbound : row.maxInputs with
  | none => rfl
  | some bound =>
    rw [if_neg]
    simpa using hmax bound hbound

/-- The helper that reports a wrong number of inputs takes the name. -/
theorem arityFault?_signature {h : Heap} {head : NodeHead} {inputs : Nat} {helper : Helper}
    (hfault : arityFault? h head inputs = some helper) :
    helper.signature = ⟨[.datum], none, some .datum⟩ := by
  unfold arityFault? at hfault
  repeat' split at hfault
  all_goals cases hfault <;> rfl

/-! ### Types of registers, and fitting nodes -/

/-- The type of the register of a literal. -/
def literalTy (h : Heap) (value : Ref) (request : Request) : Ty :=
  match request, h.number? value with
  | .real, some _ => .real
  | _, _ => if request.contains .truth && (h.truth? value).isSome then .truth else .datum

/-- The type of the register that the code of a node leaves. -/
def Node.rawTy (h : Heap) : Node → Request → Ty
  | .datum _, _ => .datum
  | .call head inputs, request =>
    match arityFault? h head inputs.length with
    | some _ => .datum
    | none =>
      match head.generator, inputs with
      | .literal, value :: _ => literalTy h value.ref request
      | .sum, [input] | .product, [input] => Request.real.castTy input.returns (input.rawTy h .real)
      | generator, _ => generator.ty

/-- Whether the register of an input suits the node that asked for it. -/
def Node.suits (h : Heap) (node : Node) (request : Request) : Bool :=
  request.suits (request.castTy node.returns (node.rawTy h request))

mutual

/-- Whether no consumer in a node reads a register of another type. -/
def Node.fits (h : Heap) : Node → Bool
  | .datum _ => true
  | .call head inputs =>
    match arityFault? h head inputs.length with
    | some _ => true
    | none =>
      match head.generator with
      | .literal | .valueOf => true
      | .conjunction | .disjunction => allFit h inputs
      | .stop | .output | .maybeOutput => exitFits h inputs
      | generator =>
        inputsFit h (generator.folds && inputs.length == 1) inputs
          (generator.requests inputs.length)

/-- Whether nodes fit. -/
def Node.allFit (h : Heap) : List Node → Bool
  | [] => true
  | node :: rest => node.fits h && allFit h rest

/-- Whether the input of a way out fits, or the inputs of a tail call. -/
def Node.exitFits (h : Heap) : List Node → Bool
  | .call callee args :: _ =>
    if callee.generator = .execProcedure then allFit h args else (Node.call callee args).fits h
  | _ => true

/-- Whether inputs fit, and suit what is asked of them unless they are handed through. -/
def Node.inputsFit (h : Heap) (passed : Bool) : List Node → List Request → Bool
  | node :: nodes, request :: requests =>
    node.fits h && (passed || node.suits h request) && inputsFit h passed nodes requests
  | _, _ => true

end

end LogoEngine
