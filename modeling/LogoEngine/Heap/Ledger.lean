import LogoEngine.Heap.Object

/-!
# The allocation ledger

For each kind of object the ledger counts how many were made and how many were given up, how many
are alive, and how many pages of 256 objects the kind has grown to. Pages never shrink.
-/

namespace LogoEngine

/-- Objects per page. -/
def pageSize : Nat := 256

/-- The counters of one kind. -/
structure KindStats where
  live : Nat := 0
  acquired : Nat := 0
  released : Nat := 0
  pages : Nat := 0
deriving DecidableEq, Repr

namespace KindStats

/-- One more object. A page is added when the live ones no longer fit. -/
def acquire (s : KindStats) : KindStats :=
  let live := s.live + 1
  { live
    acquired := s.acquired + 1
    released := s.released
    pages := if s.pages * pageSize < live then s.pages + 1 else s.pages }

/-- One object less. -/
def release (s : KindStats) : KindStats :=
  { s with live := s.live - 1, released := s.released + 1 }

end KindStats

/-- The position of a kind in the ledger. -/
def Kind.index : Kind → Fin 10
  | word => 0
  | list => 1
  | array => 2
  | node => 3
  | procedure => 4
  | error => 5
  | goto => 6
  | continuation => 7
  | ret => 8
  | nothing => 9

/-- The counters of all kinds. -/
structure Ledger where
  kinds : Vector KindStats 10 := Vector.replicate 10 {}
deriving DecidableEq, Repr

namespace Ledger

/-- The counters of one kind. -/
def stats (l : Ledger) (k : Kind) : KindStats :=
  l.kinds[k.index]

/-- Books a new object. -/
def acquire (l : Ledger) (k : Kind) : Ledger :=
  ⟨l.kinds.set k.index (l.stats k).acquire⟩

/-- Books an object that was given up. -/
def release (l : Ledger) (k : Kind) : Ledger :=
  ⟨l.kinds.set k.index (l.stats k).release⟩

/-- The sum of a counter over all kinds. -/
def total (l : Ledger) (counter : KindStats → Nat) : Nat :=
  Kind.all.foldl (fun sum k => sum + counter (l.stats k)) 0

end Ledger

end LogoEngine
