import LogoEngine.Heap.Census
import LogoEngine.Heap.Ledger
import LogoEngine.Heap.Sketch

/-!
# The desk

A desk holds objects under names and keeps the books on them: an object is booked when it is made,
and given up as soon as no name and no live object refers to it. A **weak** name does not hold its
object. "No value" is booked when it is first asked for, and stays.
-/

namespace LogoEngine

/-- Objects under names, with their ledger. -/
structure Desk where
  heap : Heap := {}
  held : Table Ref := []
  weak : Table Ref := []
  ledger : Ledger := {}
  /-- How many objects of the heap are booked, "no value" included. -/
  booked : Nat := 1
  /-- For each booked object whether it was given up. -/
  gone : Array Bool := #[false]
  /-- Whether "no value" is in use. -/
  usesNothing : Bool := false

namespace Desk

/-- The census of the desk. "No value" has one reference that is not a name. -/
def census (d : Desk) : Census :=
  Census.take d.heap (Ref.nothing :: d.held.map Prod.snd)

/-- Books the objects that were made since the last time. -/
def book (d : Desk) : Desk :=
  let fresh := d.heap.objects.extract d.booked d.heap.objects.size
  { d with
    ledger := fresh.foldl (fun ledger o => ledger.acquire o.kind) d.ledger
    booked := d.heap.objects.size
    gone := d.gone ++ fresh.map fun _ => false }

/-- Gives up what nobody holds any more. -/
def settle (d : Desk) : Desk :=
  let census := d.census
  let lost := (List.range d.booked).filter fun i =>
    census.gone.getD i false && !d.gone.getD i true
  { d with
    ledger := lost.foldl (fun ledger i => ledger.release (d.heap.get ⟨i⟩).kind) d.ledger
    gone := census.gone }

/-- Holds an object under a name; what the name held before is let go. -/
def hold (d : Desk) (name : String) (r : Ref) : Desk :=
  let replaces := d.held.has name
  let d := { d with held := d.held.insert name r }
  if replaces then d.settle else d

/-- Makes an object, if there is such a one, and holds it under a name. -/
def make (d : Desk) (name : String) (f : Making (Option Ref)) : Bool × Desk :=
  let (made, heap) := f d.heap
  let d := { d with heap }.book
  match made with
  | some r => (true, d.hold name r)
  | none => (false, d)

/-- Holds "no value" under a name. -/
def holdNothing (d : Desk) (name : String) : Desk :=
  let d :=
    if d.usesNothing then d
    else { d with usesNothing := true, ledger := d.ledger.acquire .nothing }
  d.hold name Ref.nothing

/-- Lets names go; whether the first of them was in use. -/
def drop (d : Desk) (names : List String) : Bool × Desk :=
  let known := names.head?.any d.held.has
  (known, { d with held := names.foldl Table.erase d.held }.settle)

/-- Changes an object, if that is possible. -/
def change (d : Desk) (f : Heap → Option Heap) : Bool × Desk :=
  match f d.heap with
  | some heap => (true, { d with heap }.settle)
  | none => (false, d)

/-- Remembers a held object weakly. -/
def weaken (d : Desk) (name : String) (r : Ref) : Desk :=
  { d with weak := d.weak.insert name r }

/-- The object of a weak name, while it is alive. -/
def upgrade? (d : Desk) (name : String) : Option Ref :=
  (d.weak.get? name).filter fun r => !d.gone.getD r.index true

/-- The number of references to an object. -/
def references (d : Desk) (r : Ref) : Nat :=
  d.census.count r

/-- Makes `count` words under numbered names. -/
def fill (d : Desk) (stem text : String) (count : Nat) : Desk :=
  (List.range count).foldl (fun d i => (d.make s!"{stem}{i}" (some <$> newText text)).2) d

/-- Lets `count` numbered names go. -/
def unfill (d : Desk) (stem : String) (count : Nat) : Desk :=
  (d.drop ((List.range count).map fun i => s!"{stem}{i}")).2

end Desk

end LogoEngine
