/-!
# Tables

Finite maps from names, as lists of pairs in the order in which the names were first bound. What
matters about them: a name that was just written reads as written (`get?_insert_self`), one that
was taken out reads as nothing (`get?_erase_self`), and all other names read as before
(`get?_insert_of_ne`, `get?_erase_of_ne`).
-/

namespace LogoEngine

/-- A finite map from names. -/
abbrev Table (α : Type) := List (String × α)

namespace Table

variable {α : Type}

/-- What a name is bound to. -/
def get? : Table α → String → Option α
  | [], _ => none
  | (k, v) :: rest, key => if k = key then some v else get? rest key

/-- Binds a name, in its old place if it had one. -/
def insert : Table α → String → α → Table α
  | [], key, value => [(key, value)]
  | (k, v) :: rest, key, value =>
    if k = key then (key, value) :: rest else (k, v) :: insert rest key value

/-- Whether a name is bound. -/
def has (t : Table α) (key : String) : Bool :=
  (t.get? key).isSome

/-- Takes a name out. -/
def erase (t : Table α) (key : String) : Table α :=
  t.filter fun entry => entry.1 ≠ key

@[simp]
theorem get?_insert_self (t : Table α) (key : String) (value : α) :
    (t.insert key value).get? key = some value := by
  induction t with
  | nil => simp [insert, get?]
  | cons entry rest ih =>
    by_cases h : entry.1 = key
    · simp [insert, get?, h]
    · simp [insert, get?, h, ih]

theorem get?_insert_of_ne (t : Table α) {key other : String} (value : α) (h : other ≠ key) :
    (t.insert key value).get? other = t.get? other := by
  induction t with
  | nil => simp [insert, get?, h.symm]
  | cons entry rest ih =>
    by_cases hk : entry.1 = key
    · simp [insert, get?, hk, h.symm]
    · by_cases ho : entry.1 = other
      · simp [insert, get?, ho, h]
      · simp [insert, get?, hk, ho, ih]

/-- What the names read as after one of them was written. -/
theorem get?_insert (t : Table α) (key name : String) (value : α) :
    (t.insert key value).get? name = if name = key then some value else t.get? name := by
  split
  · next h => rw [h, get?_insert_self]
  · next h => exact get?_insert_of_ne t value h

/-- A name that was taken out is not bound. -/
@[simp]
theorem get?_erase_self (t : Table α) (key : String) : (t.erase key).get? key = none := by
  induction t with
  | nil => rfl
  | cons entry rest ih =>
    by_cases h : entry.1 = key
    · simpa [erase, h] using ih
    · simpa [erase, get?, h] using ih

/-- Taking a name out leaves all others as they are. -/
theorem get?_erase_of_ne (t : Table α) {key other : String} (h : other ≠ key) :
    (t.erase key).get? other = t.get? other := by
  induction t with
  | nil => rfl
  | cons entry rest ih =>
    by_cases hk : entry.1 = key
    · have ho : entry.1 ≠ other := fun heq => h (heq.symm.trans hk)
      simpa [erase, get?, hk, ho, h.symm] using ih
    · by_cases ho : entry.1 = other
      · simp [erase, get?, ho, h]
      · simpa [erase, get?, hk, ho] using ih

end Table

end LogoEngine
