import LogoEngine.Heap.Basic

/-!
# Which objects are alive

An object is given up as soon as neither a handle nor an object that is still held refers to it.
The **census** of a heap repeats this until nothing more can be given up: what remains is alive,
and each object's count is the number of handles and live objects' fields that refer to it.
Objects on a cycle keep one another, so cycles are never given up.
-/

namespace LogoEngine

/-- The references an object holds, with repetitions. -/
def Object.references : Object → List Ref
  | word _ | nothing => []
  | list cell =>
    (match cell.pair with
      | some (head, tail) => [head, tail]
      | none => []) ++
    (match cell.parse with
      | some parse => parse.flatten.map Node.ref
      | none => [])
  | array _ items => items.toList
  | node head inputs => head.name :: inputs.map Node.ref
  | procedure p => p.body :: p.optional.map Prod.snd ++ p.labels.map fun l => l.2.line
  | error e =>
    e.tag :: e.message :: (e.output.toList ++ e.procedure.toList ++ e.line.toList)
  | goto source tag => [source, tag]
  | continuation source call args => source :: call :: args
  | ret source value => source :: value.toList

/-- How often each object is referred to, and which objects are given up. -/
structure Census where
  counts : Array Nat
  gone : Array Bool

namespace Census

/-- Adds one reference to the count of its object. -/
def countUp (counts : Array Nat) (r : Ref) : Array Nat :=
  counts.modify r.index (· + 1)

/-- Takes references away; objects left without any are put on the list of those to give up. -/
def drop : List Ref → Array Nat → List Nat → Array Nat × List Nat
  | [], counts, todo => (counts, todo)
  | r :: rest, counts, todo =>
    let left := counts.getD r.index 0 - 1
    drop rest (counts.setIfInBounds r.index left) (if left == 0 then r.index :: todo else todo)

/-- Gives up the listed objects, and those that are left without a reference. -/
def sweep (h : Heap) : Nat → List Nat → Census → Census
  | 0, _, census => census
  | _, [], census => census
  | fuel + 1, i :: todo, ⟨counts, gone⟩ =>
    if gone.getD i true then sweep h fuel todo ⟨counts, gone⟩
    else
      let (counts, todo) := drop (h.get ⟨i⟩).references counts todo
      sweep h fuel todo ⟨counts, gone.setIfInBounds i true⟩

/-- The census of a heap with the given handles, where a handle that occurs twice counts twice.
Every object is given up at most once and listed at most once per reference to it. -/
def take (h : Heap) (handles : List Ref) : Census :=
  let size := h.objects.size
  let counts := h.objects.foldl (fun counts o => o.references.foldl countUp counts)
    (Array.replicate size 0)
  let edges := counts.foldl (· + ·) 0
  let counts := handles.foldl countUp counts
  let idle := (List.range size).filter fun i => counts.getD i 0 == 0
  sweep h (size + edges + 1) idle ⟨counts, Array.replicate size false⟩

/-- Whether an object is alive. -/
def isAlive (census : Census) (r : Ref) : Bool :=
  !census.gone.getD r.index true

/-- The number of references to an object. -/
def count (census : Census) (r : Ref) : Nat :=
  census.counts.getD r.index 0

end Census

end LogoEngine
