import LogoEngine.Heap.Object

/-!
# The code cache

Linked code is kept under the identity of the list or node it was made from, together with the
date of the parse. A look-up with another date drops the code. The cache does not keep its sources
alive; every 64 insertions the code of dead sources is swept out.
-/

namespace LogoEngine

/-- Insertions between sweeps. -/
def sweepInterval : Nat := 64

/-- The code of one source. -/
structure CacheEntry (α : Type) where
  id : Nat
  source : Ref
  stamp : Nat
  code : α

/-- Code by source, newest first, with counters. -/
structure Cache (α : Type) where
  entries : List (CacheEntry α) := []
  inserts : Nat := 0
  hits : Nat := 0
  misses : Nat := 0

namespace Cache

variable {α : Type}

/-- The entry of a source. -/
def find? (c : Cache α) (id : Nat) : Option (CacheEntry α) :=
  c.entries.find? fun e => e.id == id

/-- Drops the entry of a source. -/
def erase (c : Cache α) (id : Nat) : Cache α :=
  { c with entries := c.entries.filter fun e => e.id != id }

/-- The code of a source for the parse of the given date. An entry of another date, or of a source
that is dead, is dropped. -/
def lookup (c : Cache α) (alive : Ref → Bool) (id stamp : Nat) : Option α × Cache α :=
  match c.find? id with
  | some e =>
    if e.stamp == stamp && alive e.source then (some e.code, { c with hits := c.hits + 1 })
    else (none, { c.erase id with misses := c.misses + 1 })
  | none => (none, { c with misses := c.misses + 1 })

/-- Whether the next insertion sweeps. -/
def isDue (c : Cache α) : Bool :=
  (c.inserts + 1) % sweepInterval == 0

/-- Drops the entries of dead sources. -/
def purge (c : Cache α) (alive : Ref → Bool) : Cache α :=
  { c with entries := c.entries.filter fun e => alive e.source }

/-- Enters code, replacing that of the same source. -/
def insert (c : Cache α) (alive : Ref → Bool) (entry : CacheEntry α) : Cache α :=
  let c := if c.isDue then c.purge alive else c
  { c with
    entries := entry :: (c.entries.filter fun e => e.id != entry.id)
    inserts := c.inserts + 1 }

/-- Drops everything but the counters. -/
def clear (c : Cache α) : Cache α :=
  { c with entries := [] }

/-- The number of entries. -/
def size (c : Cache α) : Nat :=
  c.entries.length

/-! ### What the operations do to the entry of a source -/

@[simp]
theorem find?_erase_self (c : Cache α) (id : Nat) : (c.erase id).find? id = none := by
  simp [find?, erase, List.find?_eq_none]

theorem find?_erase_of_ne (c : Cache α) {id other : Nat} (h : other ≠ id) :
    (c.erase id).find? other = c.find? other := by
  simp only [find?, erase, List.find?_filter]
  congr 1
  funext e
  by_cases he : e.id = other
  · simp [he, h]
  · simp [he]

/-- Code that was just entered is found, whatever was swept out before. -/
@[simp]
theorem find?_insert_self (c : Cache α) (alive : Ref → Bool) (entry : CacheEntry α) :
    (c.insert alive entry).find? entry.id = some entry := by
  simp [find?, insert]

end Cache

end LogoEngine
