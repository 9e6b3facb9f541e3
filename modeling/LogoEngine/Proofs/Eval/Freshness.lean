import LogoEngine.Proofs.Eval.Changes

/-!
# Code in the cache is up to date

Three facts about the cache, each kept by whatever can happen to an evaluator (`World.Move`):

* `World.Fresh`: code in the cache whose date is that of its list was lowered from the parse the
  list has now. All dates come from one clock, so a list that got a new parse has a date that no
  code in the cache has.
* `World.Serves`: code for the present parse of a list stays in the cache as long as nothing renews
  the list and something leads to it, be it the host, a procedure or a variable (`World.Spares`).
* `World.Renewed`: after a definition, a new parse of a list or the loss of its code, what the cache
  holds for the list was linked later or is out of date.
-/

namespace LogoEngine

/-! ### What can happen to an evaluator -/

/-- One change of an evaluator, by running code or from outside. -/
inductive World.Move (w : World) : World → Prop
  | change {w' : World} (h : w.Change w') : Move w w'
  /-- A list gets a new parse. -/
  | attach {r : Ref} {cell : Cell} (hcell : w.heap.cell? r = some cell) (parse : Parse) :
      Move w { w with heap := w.heap.dated r cell (some parse) }
  /-- The code of a source is dropped. -/
  | drop (id : Nat) : Move w { w with cache := w.cache.erase id }
  /-- A procedure is defined. -/
  | define (procedures : Table Ref) :
      Move w { w with
        procedures, lastDefinition := w.heap.clock + 1,
        heap := { w.heap with clock := w.heap.clock + 1 } }
  /-- The host changes in any way. -/
  | host (host : Host) : Move w { w with host }

/-- Any number of moves. -/
abbrev World.Moves : World → World → Prop :=
  Relation.ReflTransGen World.Move

theorem World.Changes.moves {w w' : World} (h : w.Changes w') : w.Moves w' := by
  induction h with
  | refl => exact .refl
  | tail _ hlast ih => exact ih.tail (.change hlast)

namespace World.Move

variable {w w' : World}

theorem heap_extends (h : w.Move w') : w.heap.Extends w'.heap := by
  cases h with
  | change h => exact h.heap_extends
  | attach hcell parse => exact Heap.extends_dated hcell _
  | define => exact ⟨le_rfl, fun _ _ => .refl _⟩
  | _ => exact .refl _

theorem settings_eq (h : w.Move w') : w'.settings = w.settings := by
  cases h with
  | change h => exact h.settings_eq
  | _ => rfl

theorem linked_le (h : w.Move w') : w.linked ≤ w'.linked := by
  cases h with
  | change h => exact h.linked_le
  | _ => exact le_rfl

theorem sound (h : w.Move w') (hs : w.heap.Sound) : w'.heap.Sound := by
  cases h with
  | change h =>
    cases h with
    | heap hchange => exact hs.change hchange
    | refresh hcell _ parse => exact hs.dated hcell parse
    | _ => exact hs
  | attach hcell parse => exact hs.dated hcell _
  | define =>
    exact ⟨hs.id_lt, hs.id_inj, fun hcell => (hs.stamp_le hcell).trans (Nat.le_succ _)⟩
  | _ => exact hs

theorem clock_le (h : w.Move w') : w.heap.clock ≤ w'.heap.clock := by
  cases h with
  | change h =>
    cases h with
    | heap hchange => exact hchange.clock_le
    | refresh => exact Nat.le_succ _
    | _ => exact le_rfl
  | attach | define => exact Nat.le_succ _
  | _ => exact le_rfl

theorem definition_le (h : w.Move w') (hle : w.lastDefinition ≤ w.heap.clock) :
    w'.lastDefinition ≤ w'.heap.clock := by
  cases h with
  | define => exact le_rfl
  | change hc => exact hc.lastDefinition_eq ▸ hle.trans (World.Move.clock_le (.change hc))
  | attach => exact hle.trans (Nat.le_succ _)
  | _ => exact hle

theorem lastDefinition_le (h : w.Move w') (hle : w.lastDefinition ≤ w.heap.clock) :
    w.lastDefinition ≤ w'.lastDefinition := by
  cases h with
  | define => exact hle.trans (Nat.le_succ _)
  | change hc => exact hc.lastDefinition_eq.ge
  | _ => exact le_rfl

/-- A list keeps its identity. Its parse stays with its date, or the date is that of the moment. -/
theorem exists_cell? (h : w.Move w') {r : Ref} {cell : Cell} (hcell : w.heap.cell? r = some cell) :
    ∃ cell', w'.heap.cell? r = some cell' ∧ cell'.id = cell.id ∧
      (cell'.stamp = cell.stamp ∧ cell'.parse = cell.parse ∨
        cell'.stamp = w.heap.clock + 1 ∧ w'.heap.clock = w.heap.clock + 1) := by
  have hsame : ∀ {w' : World}, w'.heap.get r = w.heap.get r →
      ∃ cell', w'.heap.cell? r = some cell' ∧ cell'.id = cell.id ∧
        (cell'.stamp = cell.stamp ∧ cell'.parse = cell.parse ∨
          cell'.stamp = w.heap.clock + 1 ∧ w'.heap.clock = w.heap.clock + 1) := by
    intro w' heq
    exact ⟨cell, by rw [Heap.cell?, heq]; exact hcell, rfl, .inl ⟨rfl, rfl⟩⟩
  have hdated : ∀ {s : Ref} {other : Cell}, w.heap.cell? s = some other → ∀ parse,
      ∃ cell', (w.heap.dated s other parse).cell? r = some cell' ∧ cell'.id = cell.id ∧
        (cell'.stamp = cell.stamp ∧ cell'.parse = cell.parse ∨ cell'.stamp = w.heap.clock + 1 ∧
          (w.heap.dated s other parse).clock = w.heap.clock + 1) := by
    intro s other hother parse
    by_cases hrs : r = s
    · subst hrs
      obtain rfl := Option.some.inj (hcell.symm.trans hother)
      exact ⟨_, Heap.cell?_dated hcell parse, rfl, .inr ⟨rfl, rfl⟩⟩
    · refine ⟨cell, ?_, rfl, .inl ⟨rfl, rfl⟩⟩
      rw [Heap.cell?, Heap.get_dated_of_ne _ _ _ hrs]
      exact hcell
  cases h with
  | change hc =>
    cases hc with
    | heap hchange =>
      obtain ⟨pair, hpair⟩ := hchange.exists_cell? hcell
      exact ⟨_, hpair, rfl, .inl ⟨rfl, rfl⟩⟩
    | refresh hother _ parse => exact hdated hother parse
    | _ => exact hsame rfl
  | attach hother parse => exact hdated hother _
  | _ => exact hsame rfl

end World.Move

theorem World.Moves.heap_extends {w w' : World} (h : w.Moves w') : w.heap.Extends w'.heap := by
  induction h with
  | refl => exact .refl _
  | tail _ hlast ih => exact ih.trans hlast.heap_extends

/-! ### Fresh code -/

/-- What is true of code in the cache. -/
structure World.Stored (w : World) (e : CacheEntry Entry) : Prop where
  id_eq : w.heap.sourceId? e.source = some e.id
  stamp_le : e.stamp ≤ w.heap.clock
  number_lt : e.code.number < w.linked
  /-- If the list still has the parse of that date, the code was lowered from it. -/
  lowered : ∀ cell, w.heap.cell? e.source = some cell → e.stamp = cell.stamp →
    ∃ parse, cell.parse = some parse ∧ w.Lowered e.source parse e.code.code

/-- The state of an evaluator between any two moves. -/
structure World.Fresh (w : World) : Prop where
  sound : w.heap.Sound
  definition_le : w.lastDefinition ≤ w.heap.clock
  stored : ∀ e ∈ w.cache.entries, w.Stored e

theorem Heap.sourceId?_of_key? {h : Heap} {r : Ref} {id stamp : Nat}
    (hkey : h.key? r = some (id, stamp)) : h.sourceId? r = some id := by
  unfold Heap.key? at hkey
  unfold Heap.sourceId?
  split at hkey <;> simp_all

theorem Heap.Sound.stamp_le_of_key? {h : Heap} (hs : h.Sound) {r : Ref} {id stamp : Nat}
    (hkey : h.key? r = some (id, stamp)) : stamp ≤ h.clock := by
  unfold Heap.key? at hkey
  split at hkey
  · next cell hget =>
    cases hkey
    exact hs.stamp_le (r := r) (Heap.cell?_of_get hget)
  · cases hkey
    exact Nat.zero_le _
  · cases hkey

theorem Heap.Extends.sourceId?_eq {h h' : Heap} (hh : h.Extends h') {r : Ref} {i : Nat}
    (hi : h.sourceId? r = some i) : h'.sourceId? r = some i := by
  have hlt : r.index < h.objects.size := by
    refine Heap.lt_size_of_get fun hget => ?_
    simp [Heap.sourceId?, hget] at hi
  rw [Heap.sourceId?_eq] at hi ⊢
  rw [(hh.becomes r hlt).identity?_eq, hi]

/-- A source that is a list was a list before. -/
theorem Heap.Extends.exists_cell?_of {h h' : Heap} (hh : h.Extends h') {r : Ref} {i : Nat}
    (hi : h.sourceId? r = some i) {cell' : Cell} (hcell' : h'.cell? r = some cell') :
    ∃ cell, h.cell? r = some cell := by
  have hlt : r.index < h.objects.size := by
    refine Heap.lt_size_of_get fun hget => ?_
    simp [Heap.sourceId?, hget] at hi
  have hbecomes := hh.becomes r hlt
  rw [Heap.get_of_cell? hcell'] at hbecomes
  cases hget : h.get r with
  | list cell => exact ⟨cell, Heap.cell?_of_get hget⟩
  | _ => rw [hget] at hbecomes; cases hbecomes

theorem World.Lowered.move {w w' : World} (h : w.Move w') {list : Ref} {parse : Parse}
    {code : Linked} (hl : w.Lowered list parse code) : w'.Lowered list parse code := by
  obtain ⟨heap, name, routine, hextends, hlower, hlink⟩ := hl
  exact ⟨heap, name, routine, hextends.trans h.heap_extends, hlower, h.settings_eq ▸ hlink⟩

/-- Code in the cache stays what it is. -/
theorem World.Stored.move {w w' : World} (h : w.Move w') {e : CacheEntry Entry}
    (he : w.Stored e) : w'.Stored e where
  id_eq := h.heap_extends.sourceId?_eq he.id_eq
  stamp_le := he.stamp_le.trans h.clock_le
  number_lt := he.number_lt.trans_le h.linked_le
  lowered := by
    intro cell' hcell' hstamp
    obtain ⟨cell, hcell⟩ := h.heap_extends.exists_cell?_of he.id_eq hcell'
    obtain ⟨cell'', hcell'', -, ⟨hstamp', hparse'⟩ | ⟨hnow, -⟩⟩ := h.exists_cell? hcell
    all_goals obtain rfl := Option.some.inj (hcell''.symm.trans hcell')
    · obtain ⟨parse, hparse, hl⟩ := he.lowered cell hcell (hstamp.trans hstamp')
      exact ⟨parse, hparse'.trans hparse, hl.move h⟩
    · -- a list that was dated at this moment is younger than all code
      have hle := he.stamp_le
      omega

/-- Every entry after a move was there before, or it is code that was just compiled. -/
theorem World.Move.entries {w w' : World} (h : w.Move w') {e : CacheEntry Entry}
    (he : e ∈ w'.cache.entries) : e ∈ w.cache.entries ∨
      w'.heap = w.heap ∧ w'.settings = w.settings ∧ w'.linked = w.linked + 1 ∧
        e.code.number = w.linked ∧ w.heap.key? e.source = some (e.id, e.stamp) ∧
        ∀ cell, w.heap.cell? e.source = some cell →
          ∃ parse, cell.parse = some parse ∧ w.Lowered e.source parse e.code.code := by
  cases h with
  | change hc =>
    cases hc with
    | lookup hkey =>
      left
      rcases w.cache.lookup_cases (fun _ => true) _ _ with ⟨_, -, -, heq⟩ | ⟨-, heq⟩
      · rw [heq] at he
        exact he
      · rw [heq] at he
        exact (List.mem_filter.mp he).1
    | compile hkey hmiss hcode halive =>
      rcases List.mem_cons.mp he with rfl | he
      · exact .inr ⟨rfl, rfl, rfl, rfl, hkey, hcode⟩
      · left
        have hmem := (List.mem_filter.mp he).1
        split at hmem
        · exact (List.mem_filter.mp hmem).1
        · exact hmem
    | _ => exact .inl he
  | drop id => exact .inl (List.mem_filter.mp he).1
  | _ => exact .inl he

theorem World.Fresh.move {w w' : World} (hw : w.Fresh) (h : w.Move w') : w'.Fresh where
  sound := h.sound hw.sound
  definition_le := h.definition_le hw.definition_le
  stored := by
    intro e he
    rcases h.entries he with hold | ⟨hheap, hsettings, hlinked, hnumber, hkey, hcode⟩
    · exact (hw.stored e hold).move h
    · have hstamp : e.stamp ≤ w.heap.clock := hw.sound.stamp_le_of_key? hkey
      exact
        { id_eq := hheap ▸ Heap.sourceId?_of_key? hkey
          stamp_le := hheap ▸ hstamp
          number_lt := by omega
          lowered := by
            intro cell hcell _
            obtain ⟨parse, hparse, hl⟩ := hcode cell (hheap ▸ hcell)
            exact ⟨parse, hparse, hl.move h⟩ }

theorem World.Fresh.moves {w w' : World} (hw : w.Fresh) (h : w.Moves w') : w'.Fresh := by
  induction h with
  | refl => exact hw
  | tail _ hlast ih => exact ih.move hlast

/-! ### Code that stays -/

namespace Cache

variable {α : Type}

theorem id_eq_of_find? {c : Cache α} {id : Nat} {e : CacheEntry α} (h : c.find? id = some e) :
    e.id = id := by
  simpa using List.find?_some h

theorem mem_of_find? {c : Cache α} {id : Nat} {e : CacheEntry α} (h : c.find? id = some e) :
    e ∈ c.entries :=
  List.mem_of_find?_eq_some h

/-- An entry whose source is alive survives a sweep. -/
theorem find?_purge {c : Cache α} {alive : Ref → Bool} {id : Nat} {e : CacheEntry α}
    (h : c.find? id = some e) (halive : alive e.source = true) :
    (c.purge alive).find? id = some e := by
  obtain ⟨hid, before, after, hsplit, hbefore⟩ := List.find?_eq_some_iff_append.mp h
  rw [find?, purge, List.find?_filter]
  refine List.find?_eq_some_iff_append.mpr ⟨?_, before, after, hsplit, fun e' he' => ?_⟩
  · simpa [halive] using hid
  · have hne := hbefore e' he'
    simp_all

theorem find?_insert_of_ne {c : Cache α} {alive : Ref → Bool} {entry e : CacheEntry α} {id : Nat}
    (hne : id ≠ entry.id) (h : c.find? id = some e) (halive : alive e.source = true) :
    (c.insert alive entry).find? id = some e := by
  have hswept : (if c.isDue then c.purge alive else c).find? id = some e := by
    split
    · exact find?_purge h halive
    · exact h
  have herase := find?_erase_of_ne (if c.isDue then c.purge alive else c) hne
  rw [find?, erase] at herase
  rw [find?, insert, List.find?_cons_of_neg (by simpa using Ne.symm hne), herase, hswept]

end Cache

/-- Code in the cache belongs to the list of its identity. -/
theorem World.Fresh.source_eq {w : World} (hw : w.Fresh) {list : Ref} {cell : Cell}
    {stored : CacheEntry Entry} (hcell : w.heap.cell? list = some cell)
    (hfind : w.cache.find? cell.id = some stored) : stored.source = list := by
  have hid := (hw.stored stored (Cache.mem_of_find? hfind)).id_eq
  rw [Cache.id_eq_of_find? hfind] at hid
  refine hw.sound.id_inj hid ?_
  rw [Heap.sourceId?, Heap.get_of_cell? hcell]

/-! ### What spares the code of a list -/

/-- A list is the body of a defined procedure. -/
def World.HasBody (w : World) (list : Ref) : Prop :=
  ∃ r ∈ w.procedures.map Prod.snd, ∃ p, w.heap.get r = .procedure p ∧ p.body = list

/-- A list is held by what running code leaves as it is: the host keeps it, or it is the body of a
defined procedure. -/
def World.Owns (w : World) (list : Ref) : Prop :=
  list ∈ w.host.kept.map Prod.snd ∨ w.HasBody list

/-- One change of an evaluator that spares the code of a list: nothing renews the list, and
something leads to it if code is linked. -/
inductive World.Spares (list : Ref) (w : World) : World → Prop
  | change {w' : World} (h : w.Change w') (hretains : w.linked < w'.linked → w.Retains list) :
      Spares list w w'
  /-- Another list gets a new parse. -/
  | attach {r : Ref} {cell : Cell} (hcell : w.heap.cell? r = some cell) (hne : list ≠ r)
      (parse : Parse) : Spares list w { w with heap := w.heap.dated r cell (some parse) }
  /-- The code of another source is dropped. -/
  | drop {id : Nat} (hne : w.heap.sourceId? list ≠ some id) :
      Spares list w { w with cache := w.cache.erase id }
  | host (host : Host) : Spares list w { w with host }

/-- Any number of changes that spare the code of a list. -/
abbrev World.Spared (list : Ref) : World → World → Prop :=
  Relation.ReflTransGen (World.Spares list)

namespace World

variable {w w' : World} {list : Ref}

theorem Spares.move (h : w.Spares list w') : w.Move w' := by
  cases h with
  | change h => exact .change h
  | attach hcell _ parse => exact .attach hcell parse
  | drop => exact .drop _
  | host host => exact .host host

theorem HasBody.mono (h : w.HasBody list) (hheap : w.heap.Extends w'.heap)
    (hprocedures : w'.procedures = w.procedures) : w'.HasBody list := by
  obtain ⟨r, hr, p, hget, hbody⟩ := h
  have hbecomes := hheap.becomes r (Heap.lt_size_of_get (by rw [hget]; exact Object.noConfusion))
  rw [hget] at hbecomes
  refine ⟨r, hprocedures ▸ hr, ?_⟩
  generalize w'.heap.get r = o at hbecomes
  cases hbecomes with
  | refl => exact ⟨p, rfl, hbody⟩
  | procedure => exact ⟨_, rfl, hbody⟩

/-- What running code leaves as it is stays. -/
theorem Owns.change (h : w.Owns list) (hchange : w.Change w') : w'.Owns list := by
  rcases h with hkept | hbody
  · exact .inl (hchange.kept_eq ▸ hkept)
  · exact .inr (hbody.mono hchange.heap_extends hchange.procedures_eq)

theorem retains_of_mem_frames (hmem : list ∈ w.frames.references) : w.Retains list := by
  refine ⟨list, ?_, .refl⟩
  simp only [roots, List.mem_append, List.mem_cons, hmem, or_true, true_or]

theorem Owns.retains (h : w.Owns list) : w.Retains list := by
  rcases h with hkept | ⟨r, hr, p, hget, rfl⟩
  · have hhost : list ∈ w.host.references := List.mem_append_right _ hkept
    refine ⟨list, ?_, .refl⟩
    simp only [roots, List.mem_append, hhost, or_true, true_or]
  · refine ⟨r, ?_, .single ?_⟩
    · simp only [roots, List.mem_append, hr, or_true, true_or]
    · rw [Heap.Refers, hget]
      exact List.mem_cons_self

/-- Running code spares the code of a list that is the host's or the body of a procedure. -/
theorem Changes.spared_of_owns (h : w.Changes w') (howns : w.Owns list) : w.Spared list w' := by
  suffices hall : w.Spared list w' ∧ w'.Owns list from hall.1
  induction h with
  | refl => exact ⟨.refl, howns⟩
  | tail _ hlast ih => exact ⟨ih.1.tail (.change hlast fun _ => ih.2.retains), ih.2.change hlast⟩

/-- Parsing and compiling spare the code of a list that a variable has. -/
theorem StillChanges.spared (h : w.StillChanges w') (hmem : list ∈ w.frames.references) :
    w.Spared list w' := by
  induction h with
  | refl => exact .refl
  | tail hfirst hlast ih =>
    have hframes : _ = w.frames := StillChanges.frames_eq hfirst
    exact ih.tail (.change hlast.1 fun _ => retains_of_mem_frames (hframes ▸ hmem))

/-- Running code spares all code that it finds, if it links none. -/
theorem Changes.spared_of_linked_eq (h : w.Changes w') (hlinked : w'.linked = w.linked) :
    w.Spared list w' := by
  induction h with
  | refl => exact .refl
  | @tail w₁ w' hfirst hlast ih =>
    have hle : w.linked ≤ w₁.linked := Changes.linked_le hfirst
    have hle' := hlast.linked_le
    exact (ih (by omega)).tail (.change hlast fun hlt => by omega)

end World

namespace World.Serves

variable {w : World} {list : Ref} {entry : Entry}

/-- Running code leaves the code of a list in the cache, if something leads to the list when code is
linked. -/
theorem change (hs : w.Serves list entry) (hw : w.Fresh) {w' : World} (h : w.Change w')
    (hretains : w.linked < w'.linked → w.Retains list) : w'.Serves list entry := by
  obtain ⟨cell, stored, hcell, hparsed, hlater, hfind, hstamp, hcode⟩ := hs
  cases h with
  | aside => exact ⟨cell, stored, hcell, hparsed, hlater, hfind, hstamp, hcode⟩
  | link => exact ⟨cell, stored, hcell, hparsed, hlater, hfind, hstamp, hcode⟩
  | heap hchange =>
    obtain ⟨pair, hpair⟩ := hchange.exists_cell? hcell
    exact ⟨_, stored, hpair, hparsed, hlater, hfind, hstamp, hcode⟩
  | @refresh r other hother hdue parse =>
    have hne : list ≠ r := by
      rintro rfl
      obtain rfl := Option.some.inj (hcell.symm.trans hother)
      rcases hdue with hnone | hle
      · exact hparsed hnone
      · omega
    refine ⟨cell, stored, ?_, hparsed, hlater, hfind, hstamp, hcode⟩
    rw [Heap.cell?, Heap.get_dated_of_ne _ _ _ hne]
    exact hcell
  | @lookup r id stamp hkey =>
    refine ⟨cell, stored, hcell, hparsed, hlater, ?_, hstamp, hcode⟩
    rcases w.cache.lookup_cases (fun _ => true) id stamp with ⟨_, -, -, heq⟩ | ⟨hmiss, heq⟩
    · rw [heq]
      exact hfind
    · -- code that is dropped has another identity, or it would have been found
      have hne : cell.id ≠ id := by
        rintro rfl
        have hr : r = list := hw.sound.id_inj (Heap.sourceId?_of_key? hkey)
          (Heap.sourceId?_of_key? (Heap.key?_of_cell? hcell))
        rw [hr, Heap.key?_of_cell? hcell] at hkey
        cases hkey
        exact Bool.noConfusion (hmiss stored hfind hstamp)
      rw [heq]
      exact (Cache.find?_erase_of_ne _ hne).trans hfind
  | compile hkey hmiss hlowered halive =>
    refine ⟨cell, stored, hcell, hparsed, hlater, ?_, hstamp, hcode⟩
    refine Cache.find?_insert_of_ne (fun heq => ?_) hfind ?_
    · dsimp only at heq
      rw [← heq, hfind] at hmiss
      cases hmiss
    · -- the sweep finds the list, since something leads to it
      rw [hw.source_eq hcell hfind]
      exact halive list (hretains (Nat.lt_succ_self _)) (Heap.lt_size_of_cell? hcell)

/-- **The code of a list stays in the cache** if nothing renews the list, and something leads to it
whenever code is linked. -/
theorem spare (hs : w.Serves list entry) (hw : w.Fresh) {w' : World} (h : w.Spares list w') :
    w'.Serves list entry := by
  cases h with
  | change h hretains => exact hs.change hw h hretains
  | host => exact hs
  | attach hother hne =>
    obtain ⟨cell, stored, hcell, hrest⟩ := hs
    refine ⟨cell, stored, ?_, hrest⟩
    rw [Heap.cell?, Heap.get_dated_of_ne _ _ _ hne]
    exact hcell
  | @drop id hne =>
    obtain ⟨cell, stored, hcell, hparsed, hlater, hfind, hrest⟩ := hs
    have hid : cell.id ≠ id := by
      rintro rfl
      exact hne (Heap.sourceId?_of_key? (Heap.key?_of_cell? hcell))
    exact ⟨cell, stored, hcell, hparsed, hlater, (Cache.find?_erase_of_ne _ hid).trans hfind, hrest⟩

theorem spared (hs : w.Serves list entry) (hw : w.Fresh) {w' : World} (h : w.Spared list w') :
    w'.Serves list entry := by
  -- the freshness of the cache goes along
  suffices hall : w'.Serves list entry ∧ w'.Fresh from hall.1
  induction h with
  | refl => exact ⟨hs, hw⟩
  | tail _ hlast ih => exact ⟨ih.1.spare ih.2 hlast, ih.2.move hlast.move⟩

/-- Code that the cache serves is found again: nothing is parsed, lowered or linked. -/
theorem compileSource_run (hs : w.Serves list entry) (pins : Pins) (procedure : Option Ref) :
    (compileSource pins list procedure).run w =
      .ok (.ok entry, { w with cache := { w.cache with hits := w.cache.hits + 1 } }) := by
  obtain ⟨cell, stored, hcell, hparsed, hlater, hfind, hstamp, rfl⟩ := hs
  have hnotDue : ¬ ((cell.parse.isNone || decide (cell.stamp ≤ w.lastDefinition)) = true) := by
    simp only [Bool.or_eq_true, Option.isNone_iff_eq_none, decide_eq_true_eq, not_or, not_le]
    exact ⟨hparsed, hlater⟩
  have hrefresh : (refreshParse list cell).run w = .ok (.ok (), w) := by
    rw [refreshParse_run, if_neg hnotDue]
  have hlookup : w.cache.lookup (fun _ => true) cell.id cell.stamp =
      (some stored.code, { w.cache with hits := w.cache.hits + 1 }) := by
    rcases w.cache.lookup_cases (fun _ => true) cell.id cell.stamp with
      ⟨e, he, -, heq⟩ | ⟨hmiss, -⟩
    · obtain rfl := Option.some.inj (hfind.symm.trans he)
      exact heq
    · exact Bool.noConfusion (hmiss stored hfind hstamp)
  unfold compileSource
  rw [Compile.run_heap_bind, hcell]
  dsimp only
  rw [Compile.run_bind_of_ok hrefresh, Compile.run_heap_bind, hcell]
  refine (codeOf_run pins list cell.id cell.stamp _ _ procedure (some list) w).trans ?_
  rw [hlookup]
  rfl

end World.Serves

/-! ### Code that is renewed -/

/-- Since the moment at which `number` routines were linked, a list was renewed: what the cache
holds for it was linked later, or is older than its parse or the last definition. -/
structure World.Renewed (w : World) (list : Ref) (number time : Nat) : Prop where
  linked_le : number ≤ w.linked
  time_le : time ≤ w.lastDefinition ∨ ∃ cell, w.heap.cell? list = some cell ∧ time ≤ cell.stamp
  stored : ∀ e ∈ w.cache.entries, e.source = list → number ≤ e.code.number ∨ e.stamp < time

theorem World.Renewed.move {w w' : World} {list : Ref} {number time : Nat} (hw : w.Fresh)
    (hr : w.Renewed list number time) (h : w.Move w') : w'.Renewed list number time where
  linked_le := hr.linked_le.trans h.linked_le
  time_le := by
    rcases hr.time_le with hle | ⟨cell, hcell, hle⟩
    · exact .inl (hle.trans (h.lastDefinition_le hw.definition_le))
    · obtain ⟨cell', hcell', -, ⟨hstamp, -⟩ | ⟨hnow, -⟩⟩ := h.exists_cell? hcell
      · exact .inr ⟨cell', hcell', hstamp ▸ hle⟩
      · have hold := hw.sound.stamp_le hcell
        exact .inr ⟨cell', hcell', by omega⟩
  stored := by
    intro e he hsource
    rcases h.entries he with hold | ⟨-, -, -, hnumber, -⟩
    · exact hr.stored e hold hsource
    · exact .inl (hnumber ▸ hr.linked_le)

theorem World.Renewed.moves {w w' : World} {list : Ref} {number time : Nat} (hw : w.Fresh)
    (hr : w.Renewed list number time) (h : w.Moves w') : w'.Renewed list number time := by
  suffices hall : w'.Renewed list number time ∧ w'.Fresh from hall.1
  induction h with
  | refl => exact ⟨hr, hw⟩
  | tail _ hlast ih => exact ⟨ih.1.move ih.2 hlast, ih.2.move hlast⟩

/-- What the cache serves for a list that was renewed was linked since. -/
theorem World.Renewed.number_le {w : World} {list : Ref} {number time : Nat} {entry : Entry}
    (hr : w.Renewed list number time) (hw : w.Fresh) (hs : w.Serves list entry) :
    number ≤ entry.number := by
  obtain ⟨cell, stored, hcell, -, hlater, hfind, hstamp, rfl⟩ := hs
  have hsource := hw.source_eq hcell hfind
  rcases hr.stored stored (Cache.mem_of_find? hfind) hsource with hle | hlt
  · exact hle
  · rcases hr.time_le with hle | ⟨cell', hcell', hle⟩
    · omega
    · obtain rfl := Option.some.inj (hcell.symm.trans hcell')
      omega

end LogoEngine
