import LogoEngine.Proofs.Eval.Compiling
import LogoEngine.Proofs.Heap.Changes
import LogoEngine.Proofs.Heap.Liveness

/-!
# What running code can do to an evaluator

However long code runs and however deep it calls, it changes the evaluator in seven ways only
(`World.Change`). Two of them concern parses and the code cache: a parse is renewed only if it is
missing or older than the last definition, and code enters the cache only when it was just linked,
the cache has none for its source, and it was lowered from the parse its source has at that moment.
Code never defines procedures, never drops code of a list that something leads to while it is up to
date, and never changes what the host keeps. Parsing and compiling leave the frames alone as well
(`World.StillChanges`).

Main statement: `compileSource_cases`, compiling a list does nothing but changes, and afterwards the
cache holds the code it gave for the parse the list has.
-/

namespace LogoEngine

/-- The identity and the date under which the code of a list or node is kept. -/
def Heap.key? (h : Heap) (r : Ref) : Option (Nat × Nat) :=
  match h.get r with
  | .list cell => some (cell.id, cell.stamp)
  | .node head _ => some (head.id, 0)
  | _ => none

/-- Code is what a parse of a list was lowered and linked to, at some time in the past. -/
def World.Lowered (w : World) (list : Ref) (parse : Parse) (code : Linked) : Prop :=
  ∃ (h : Heap) (name : String) (routine : Routine), h.Extends w.heap ∧
    (lowerUnit h name (some list) parse).1 = .ok routine ∧
    routine.link w.settings.backend = .ok code

/-- Something outside the heap leads to an object. -/
def World.Retains (w : World) (r : Ref) : Prop :=
  ∃ root ∈ w.roots [], Relation.ReflTransGen w.heap.Refers root r

/-- One change of an evaluator by running code. -/
inductive World.Change (w : World) : World → Prop
  /-- Something that neither parses nor code depend on. -/
  | aside (frames : Frames) (repcount : Float) (currentError : Option Ref) (random : Random)
      (host : Host) (hkept : host.kept = w.host.kept) :
      Change w { w with frames, repcount, currentError, random, host }
  | heap {h : Heap} (hchange : w.heap.Change h) : Change w { w with heap := h }
  /-- A list is parsed, or its parse is dated anew. -/
  | refresh {r : Ref} {cell : Cell} (hcell : w.heap.cell? r = some cell)
      (hdue : cell.parse = none ∨ cell.stamp ≤ w.lastDefinition) (parse : Option Parse) :
      Change w { w with heap := w.heap.dated r cell parse }
  /-- Code is looked up. -/
  | lookup {r : Ref} {id stamp : Nat} (hkey : w.heap.key? r = some (id, stamp)) :
      Change w { w with cache := (w.cache.lookup (fun _ => true) id stamp).2 }
  /-- Code is linked that does not enter the cache. -/
  | link : Change w w.countLinked
  /-- Code is linked and enters the cache. What is retained survives a sweep. -/
  | compile {r : Ref} {id stamp : Nat} {code : Linked} {alive : Ref → Bool}
      (hkey : w.heap.key? r = some (id, stamp)) (hmiss : w.cache.find? id = none)
      (hcode : ∀ cell, w.heap.cell? r = some cell →
        ∃ parse, cell.parse = some parse ∧ w.Lowered r parse code)
      (halive : ∀ s, w.Retains s → s.index < w.heap.objects.size → alive s = true) :
      Change w { w.countLinked with cache := w.cache.insert alive ⟨id, r, stamp, ⟨w.linked, code⟩⟩ }

/-- Any number of changes. -/
abbrev World.Changes : World → World → Prop :=
  Relation.ReflTransGen World.Change

/-- Any number of changes that leave the frames alone. -/
abbrev World.StillChanges : World → World → Prop :=
  Relation.ReflTransGen fun w w' => w.Change w' ∧ w'.frames = w.frames

/-- A computation that does nothing but changes, if it ends. -/
class Run.Changes {α : Type} (m : Run α) : Prop where
  changes : ∀ {w a w'}, m w = .ok (a, w') → World.Changes w w'

namespace World.StillChanges

variable {w w' : World}

theorem changes (h : w.StillChanges w') : w.Changes w' :=
  Relation.ReflTransGen.mono (fun _ _ hstep => hstep.1) _ _ h

theorem frames_eq (h : w.StillChanges w') : w'.frames = w.frames := by
  induction h with
  | refl => rfl
  | tail _ hlast ih => exact hlast.2.trans ih

theorem heap {h : Heap} (hc : w.heap.Changes h) : w.StillChanges { w with heap := h } := by
  induction hc with
  | refl => exact .refl
  | tail _ hlast ih => exact ih.tail ⟨.heap hlast, rfl⟩

theorem heapAndHost {heap : Heap} {host : Host} (hheap : w.heap.Changes heap)
    (hkept : host.kept = w.host.kept) : w.StillChanges { w with heap, host } :=
  (StillChanges.heap hheap).tail ⟨.aside w.frames _ _ _ host hkept, rfl⟩

end World.StillChanges

theorem World.Changes.heap {w : World} {h : Heap} (hc : w.heap.Changes h) :
    World.Changes w { w with heap := h } :=
  (StillChanges.heap hc).changes

instance : Permissive World.StillChanges where
  refl _ := .refl
  trans _ _ _ := .trans
  heap hchange := .single ⟨.heap hchange, rfl⟩
  aside w currentError random host hkept :=
    .single ⟨.aside w.frames w.repcount currentError random host hkept, rfl⟩

instance : Permissive World.Changes where
  refl _ := .refl
  trans _ _ _ := .trans
  heap hchange := .single (.heap hchange)
  aside w currentError random host hkept :=
    .single (.aside w.frames w.repcount currentError random host hkept)

instance {α : Type} {m : Run α} [hm : Run.Keeps World.Changes m] : Run.Changes m :=
  ⟨hm.keeps⟩

/-! ### What changes leave as it is -/

namespace World.Change

variable {w w' : World}

theorem lastDefinition_eq (h : w.Change w') : w'.lastDefinition = w.lastDefinition := by
  cases h <;> rfl

theorem settings_eq (h : w.Change w') : w'.settings = w.settings := by
  cases h <;> rfl

theorem kept_eq (h : w.Change w') : w'.host.kept = w.host.kept := by
  cases h with
  | aside _ _ _ _ _ hkept => exact hkept
  | _ => rfl

theorem procedures_eq (h : w.Change w') : w'.procedures = w.procedures := by
  cases h <;> rfl

theorem linked_le (h : w.Change w') : w.linked ≤ w'.linked := by
  cases h with
  | link | compile => exact Nat.le_succ _
  | _ => exact le_rfl

theorem heap_extends (h : w.Change w') : w.heap.Extends w'.heap := by
  cases h with
  | heap hchange => exact hchange.extends
  | refresh hcell _ parse => exact Heap.extends_dated hcell parse
  | _ => exact .refl _

end World.Change

theorem World.Changes.heap_extends {w w' : World} (hc : w.Changes w') :
    w.heap.Extends w'.heap := by
  induction hc with
  | refl => exact .refl _
  | tail _ hlast ih => exact ih.trans hlast.heap_extends

theorem World.Changes.lastDefinition_eq {w w' : World} (h : w.Changes w') :
    w'.lastDefinition = w.lastDefinition := by
  induction h with
  | refl => rfl
  | tail _ hlast ih => exact hlast.lastDefinition_eq.trans ih

theorem World.Changes.kept_eq {w w' : World} (h : w.Changes w') : w'.host.kept = w.host.kept := by
  induction h with
  | refl => rfl
  | tail _ hlast ih => exact hlast.kept_eq.trans ih

theorem World.Changes.procedures_eq {w w' : World} (h : w.Changes w') :
    w'.procedures = w.procedures := by
  induction h with
  | refl => rfl
  | tail _ hlast ih => exact hlast.procedures_eq.trans ih

theorem World.Changes.linked_le {w w' : World} (h : w.Changes w') : w.linked ≤ w'.linked := by
  induction h with
  | refl => exact le_rfl
  | tail _ hlast ih => exact ih.trans hlast.linked_le

/-! ### Parsing and compiling -/

/-- After a list was parsed where that was due, it has a parse that is younger than the last
definition. -/
theorem refreshParse_cases {w w' : World} {source : Ref} {cell : Cell}
    {result : Except CompileError Unit} (hcell : w.heap.cell? source = some cell)
    (h : (refreshParse source cell).run w = .ok (result, w')) :
    w.StillChanges w' ∧ (result = .ok () → ∃ cell', w'.heap.cell? source = some cell' ∧
      cell'.parse ≠ none ∧ (w.lastDefinition ≤ w.heap.clock → w.lastDefinition < cell'.stamp)) := by
  rw [refreshParse_run] at h
  -- a parse that is due is asked for; if there is none, an old one is kept with a new stamp
  split at h
  · next hdue =>
    simp only [Bool.or_eq_true, Option.isNone_iff_eq_none, decide_eq_true_eq] at hdue
    obtain ⟨found, w₁, hparse, hrest⟩ := Run.bind_eq_ok h
    obtain ⟨heap, host, hheap, hkept, rfl⟩ := exists_of_parseSource hparse
    obtain ⟨pair, hpair⟩ := hheap.exists_cell? hcell
    have hdated (parse : Option Parse) : w.StillChanges
        { w with heap := heap.dated source { cell with pair } parse, host } :=
      (World.StillChanges.heapAndHost hheap hkept).tail
        ⟨.refresh (w := { w with heap, host }) hpair hdue parse, rfl⟩
    have hlater : w.lastDefinition ≤ w.heap.clock → w.lastDefinition < heap.clock + 1 :=
      fun hle => Nat.lt_succ_of_le (hle.trans hheap.clock_le)
    cases found with
    | some parse =>
      cases hrest
      dsimp only
      rw [Heap.attach_eq hpair]
      exact ⟨hdated (some parse),
        fun _ => ⟨_, Heap.cell?_dated hpair _, Option.some_ne_none parse, hlater⟩⟩
    | none =>
      dsimp only at hrest
      split at hrest
      · next hsome =>
        cases hrest
        dsimp only
        rw [Heap.restamp_eq hpair]
        exact ⟨hdated cell.parse,
          fun _ => ⟨_, Heap.cell?_dated hpair _, Option.isSome_iff_ne_none.mp hsome, hlater⟩⟩
      · cases hrest
        exact ⟨World.StillChanges.heapAndHost hheap hkept, fun hok => nomatch hok⟩
  · next hdue =>
    simp only [Bool.or_eq_true, Option.isNone_iff_eq_none, decide_eq_true_eq, not_or, not_le]
      at hdue
    cases h
    exact ⟨.refl, fun _ => ⟨cell, hcell, hdue.1, fun _ => hdue.2⟩⟩

instance (name : String) (parse : Parse) (procedure source : Option Ref) :
    Run.Keeps World.StillChanges (lowerAndLink name parse procedure source).run := by
  refine ⟨fun {w result w'} h => ?_⟩
  obtain ⟨heap, -, hheap, ⟨e, -, rfl⟩ | ⟨_, _, -, -, -, rfl⟩⟩ := lowerAndLink_cases h
  · exact .heap hheap
  · exact (World.StillChanges.heap hheap).tail ⟨.link, rfl⟩

/-- The cache has an entry for the parse that a list has now, and the parse is younger than the
last definition. -/
def World.Serves (w : World) (list : Ref) (entry : Entry) : Prop :=
  ∃ cell stored, w.heap.cell? list = some cell ∧ cell.parse ≠ none ∧
    w.lastDefinition < cell.stamp ∧ w.cache.find? cell.id = some stored ∧
    stored.stamp = cell.stamp ∧ stored.code = entry

/-- What is retained survives a sweep. -/
theorem World.liveness_of_retains {w : World} {pins : Pins} {r : Ref} (hr : w.Retains r)
    (hlt : r.index < w.heap.objects.size) : w.liveness pins r = true := by
  obtain ⟨root, hroot, hrefers⟩ := hr
  refine Census.isAlive_of_refers ?_ hrefers hlt
  rw [World.roots, List.flatMap_nil, List.append_nil] at hroot
  exact List.mem_append_left _ hroot

theorem Heap.key?_of_cell? {h : Heap} {r : Ref} {cell : Cell} (hcell : h.cell? r = some cell) :
    h.key? r = some (cell.id, cell.stamp) := by
  rw [Heap.key?, Heap.get_of_cell? hcell]

theorem Heap.Changes.key?_eq {h h' : Heap} (hc : h.Changes h') {r : Ref} {key : Nat × Nat}
    (hkey : h.key? r = some key) : h'.key? r = some key := by
  unfold Heap.key? at hkey
  split at hkey
  · next cell hget =>
    have hcell : h.cell? r = some cell := Heap.cell?_of_get hget
    obtain ⟨pair, hpair⟩ := hc.exists_cell? hcell
    rw [Heap.key?_of_cell? hpair]
    exact hkey
  · next head inputs hget =>
    have hlt := Heap.lt_size_of_get (h := h) (r := r) (by simp [hget])
    have hbecomes := hc.extends.becomes r hlt
    rw [hget] at hbecomes
    rw [Heap.key?]
    generalize h'.get r = o at hbecomes
    cases hbecomes
    exact hkey
  · cases hkey

/-- A source that is a list was one before. -/
theorem Heap.Changes.exists_of_cell? {h h' : Heap} (hc : h.Changes h') {r : Ref}
    {key : Nat × Nat} (hkey : h.key? r = some key) {cell' : Cell}
    (hcell' : h'.cell? r = some cell') :
    ∃ cell, h.cell? r = some cell ∧ ∃ pair, cell' = { cell with pair } := by
  have hget' := Heap.get_of_cell? hcell'
  cases hget : h.get r with
  | list cell =>
    have hcell : h.cell? r = some cell := Heap.cell?_of_get hget
    obtain ⟨pair, hpair⟩ := hc.exists_cell? hcell
    exact ⟨cell, hcell, pair, Option.some.inj (hcell'.symm.trans hpair)⟩
  | node head inputs =>
    have hbecomes := hc.extends.becomes r (Heap.lt_size_of_get (by simp [hget]))
    rw [hget, hget'] at hbecomes
    cases hbecomes
  | _ => simp [Heap.key?, hget] at hkey

/-- Code for a source changes the evaluator as running code does, and is in the cache
afterwards. -/
theorem World.Codes.changes {w w' : World} {pins : Pins} {r : Ref} {id stamp : Nat} {name : String}
    {parse : Parse} {procedure source : Option Ref} {result : Except CompileError Entry}
    (h : w.Codes pins r id stamp name parse procedure source result w')
    (hkey : w.heap.key? r = some (id, stamp))
    (hparse : ∀ cell, w.heap.cell? r = some cell → cell.parse = some parse ∧ source = some r) :
    w.StillChanges w' ∧ w.heap.Changes w'.heap ∧ w'.lastDefinition = w.lastDefinition ∧
      ∀ entry, result = .ok entry →
        ∃ stored, w'.cache.find? id = some stored ∧ stored.stamp = stamp ∧ stored.code = entry := by
  have hlooked : w.Change (w.lookedUp id stamp) := .lookup hkey
  -- the code was stored, or lowering refuses the parse, or new code is linked and entered
  cases h with
  | stored hstored hstamp hstays =>
    refine ⟨.single ⟨hlooked, rfl⟩, .refl, rfl, fun entry hentry => ?_⟩
    cases hentry
    exact ⟨_, hstays, hstamp, rfl⟩
  | refused hlower =>
    obtain ⟨heap, -, hheap, ⟨e, -, rfl⟩ | ⟨_, _, -, -, hok, -⟩⟩ := lowerAndLink_cases hlower
    · exact ⟨(World.StillChanges.heap hheap).head ⟨hlooked, rfl⟩, hheap, rfl,
        fun _ hok => nomatch hok⟩
    · cases hok
  | entered hmiss hlower alive halive =>
    obtain ⟨heap, -, hheap, ⟨e, hfail, -⟩ | ⟨routine, linked, hroutine, hlinked, hok, rfl⟩⟩ :=
      lowerAndLink_cases hlower
    · cases hfail
    cases hok
    refine ⟨((World.StillChanges.heap hheap).head ⟨hlooked, rfl⟩).tail ⟨?_, rfl⟩, hheap, rfl,
      fun entry hentry => ?_⟩
    · refine .compile (hheap.key?_eq hkey) hmiss (fun cell hcell => ?_) fun s hs hlt => ?_
      · obtain ⟨cell₀, hcell₀, pair, rfl⟩ := hheap.exists_of_cell? hkey hcell
        obtain ⟨hparse₀, rfl⟩ := hparse cell₀ hcell₀
        exact ⟨parse, hparse₀, w.heap, name, routine, hheap.extends, hroutine, hlinked⟩
      · rcases halive with rfl | ⟨pins, rfl⟩
        · rfl
        · exact World.liveness_of_retains hs hlt
    · cases hentry
      exact ⟨_, Cache.find?_insert_self .., rfl, rfl⟩

/-- Compiling a list changes the evaluator as running code does. If it gives code, the cache holds
that code for the parse the list has now. -/
theorem compileSource_cases {w w' : World} {pins : Pins} {source : Ref} {procedure : Option Ref}
    {cell : Cell} {result : Except CompileError Entry} (hcell : w.heap.cell? source = some cell)
    (h : (compileSource pins source procedure).run w = .ok (result, w')) :
    w.StillChanges w' ∧ ∀ entry, result = .ok entry → w.lastDefinition ≤ w.heap.clock →
      w'.Serves source entry := by
  cases compileSource_compiles h with
  | unparsed hnone => rw [hcell] at hnone; cases hnone
  | parsed hnone => rw [hcell] at hnone; cases hnone
  | stale hcell' hrefresh =>
    obtain rfl := Option.some.inj (hcell.symm.trans hcell')
    exact ⟨(refreshParse_cases hcell hrefresh).1, fun _ hok => nomatch hok⟩
  | lost hcell' hrefresh =>
    obtain rfl := Option.some.inj (hcell.symm.trans hcell')
    exact ⟨(refreshParse_cases hcell hrefresh).1, fun _ hok => nomatch hok⟩
  | @coded _ cell' name w₁ _ _ hcell₀ hrefresh hcell' hcodes =>
    obtain rfl := Option.some.inj (hcell.symm.trans hcell₀)
    obtain ⟨hchanges, hdated⟩ := refreshParse_cases hcell hrefresh
    obtain ⟨cell₁, hcell₁, hparsed, hlater⟩ := hdated rfl
    obtain rfl := Option.some.inj (hcell₁.symm.trans hcell')
    obtain ⟨parse, hparse⟩ := Option.ne_none_iff_exists'.mp hparsed
    have hused : ∀ cell, w₁.heap.cell? source = some cell →
        cell.parse = some (cell₁.parse.getD []) ∧ some source = some source := by
      intro cell hcell
      obtain rfl := Option.some.inj (hcell.symm.trans hcell')
      exact ⟨by rw [hparse]; rfl, rfl⟩
    obtain ⟨hchanges', hheap, hlast', hstored⟩ :=
      hcodes.changes (Heap.key?_of_cell? hcell') hused
    refine ⟨hchanges.trans hchanges', fun entry hentry hle => ?_⟩
    obtain ⟨stored, hfind, hstamp, hcode⟩ := hstored entry hentry
    obtain ⟨pair, hpair⟩ := hheap.exists_cell? hcell'
    refine ⟨_, stored, hpair, hparsed, ?_, hfind, hstamp, hcode⟩
    rw [hlast', hchanges.changes.lastDefinition_eq]
    exact hlater hle

instance (pins : Pins) (source : Ref) (procedure : Option Ref) :
    Run.Keeps World.StillChanges (compileSource pins source procedure).run := by
  refine ⟨fun {w result w'} h => ?_⟩
  cases compileSource_compiles h with
  | unparsed hcell hparse => exact Run.Keeps.keeps hparse
  | parsed hcell hparse hlower =>
    exact Relation.ReflTransGen.trans (Run.Keeps.keeps hparse) (Run.Keeps.keeps hlower)
  | stale hcell | lost hcell | coded hcell => exact (compileSource_cases hcell h).1

instance (pins : Pins) (node : Ref) :
    Run.Keeps World.StillChanges (compileNode pins node).run := by
  refine ⟨fun {w result w'} h => ?_⟩
  rcases compileNode_codes h with ⟨head, inputs, name, hget, hcodes⟩ | ⟨-, rfl⟩
  · have hkey : w.heap.key? node = some (head.id, 0) := by rw [Heap.key?, hget]
    refine (hcodes.changes hkey fun cell hcell => ?_).1
    rw [Heap.cell?, hget] at hcell
    cases hcell
  · exact .refl

instance (pins : Pins) (source : Ref) (procedure : Option Ref) :
    Run.Keeps World.Changes (compileSource pins source procedure).run :=
  .mono (R := World.StillChanges) inferInstance World.StillChanges.changes

instance (pins : Pins) (node : Ref) : Run.Keeps World.Changes (compileNode pins node).run :=
  .mono (R := World.StillChanges) inferInstance World.StillChanges.changes

end LogoEngine
