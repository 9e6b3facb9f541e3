import LogoEngine.Proofs.Eval.Checking
import LogoEngine.Proofs.Eval.Keeping

/-!
# What compiling does

Compiling goes through parsing, the code cache, lowering and linking, and may stop after each of
them. What can happen on the way is said once: how code is taken from the cache or enters it
(`World.Codes`), and how a source comes to that (`World.Compiles`). Whatever is to be said of
compiling is then a case for each.

Main statements: `compileSource_compiles` and `compileNode_codes`.
-/

namespace LogoEngine

/-! ### First parts of a compilation -/

namespace Compile

variable {α β : Type}

theorem run_get_bind (f : World → Compile β) (w : World) :
    ((get : Compile World) >>= f).run w = (f w).run w :=
  rfl

theorem run_heap_bind (f : Heap → Compile β) (w : World) :
    ((Run.heap : Compile Heap) >>= f).run w = (f w.heap).run w :=
  rfl

theorem run_lift_bind (m : Run α) (f : α → Compile β) :
    ((m : Compile α) >>= f).run = m >>= fun a => (f a).run :=
  ExceptT.run_bind_lift m f

theorem run_bind_of_ok {m : Compile α} {f : α → Compile β} {w w' : World} {a : α}
    (h : m.run w = .ok (.ok a, w')) : (m >>= f).run w = (f a).run w' := by
  rw [ExceptT.run_bind]
  change (m.run w >>= _) = _
  rw [h]
  rfl

/-- A compilation that ends went through its first part, and stopped there if that failed. -/
theorem run_bind_eq_ok {m : Compile α} {f : α → Compile β} {w w' : World}
    {result : Except CompileError β} (h : (m >>= f).run w = .ok (result, w')) :
    ∃ first w₁, m.run w = .ok (first, w₁) ∧
      ((∃ e, first = .error e ∧ result = .error e ∧ w' = w₁) ∨
        ∃ a, first = .ok a ∧ (f a).run w₁ = .ok (result, w')) := by
  rw [ExceptT.run_bind] at h
  obtain ⟨first, w₁, hfirst, hrest⟩ := Run.bind_eq_ok h
  refine ⟨first, w₁, hfirst, ?_⟩
  cases first with
  | error e =>
    cases hrest
    exact .inl ⟨e, rfl, rfl, rfl⟩
  | ok a => exact .inr ⟨a, rfl, hrest⟩

end Compile

/-! ### Parsing -/

/-- Parsing makes objects and asks the host. -/
theorem exists_of_parseSource {w w' : World} {source : Ref} {found : Option Parse}
    (h : parseSource source w = .ok (found, w')) :
    ∃ heap host, w.heap.Changes heap ∧ host.kept = w.host.kept ∧ w' = { w with heap, host } := by
  have hkept := w.host.kept_parse (w.heap.showForm source)
  unfold parseSource at h
  rw [Run.heap_bind, Run.withHost_bind] at h
  generalize w.host.parse (w.heap.showForm source) = asked at h hkept
  obtain ⟨groups, host⟩ := asked
  cases groups with
  | none =>
    cases h
    exact ⟨w.heap, host, .refl, hkept, rfl⟩
  | some groups =>
    cases h
    exact ⟨_, host, Making.Changes.changes _, hkept, rfl⟩

theorem refreshParse_run (source : Ref) (cell : Cell) (w : World) :
    (refreshParse source cell).run w =
      if cell.parse.isNone || cell.stamp ≤ w.lastDefinition then
        (do
          match ← parseSource source with
          | some parse => .ok <$> Run.modifyHeap fun h => h.attach source parse
          | none =>
            if cell.parse.isSome then .ok <$> Run.modifyHeap fun h => h.restamp source
            else return .error (.unparsed ((← Run.heap).showForm source)) : Run _) w
      else .ok (.ok (), w) := by
  unfold refreshParse
  rw [Compile.run_get_bind]
  split
  · rw [Compile.run_lift_bind]
    congr 2
  · rfl

/-! ### Lowering and linking -/

theorem Heap.changes_recordLabels (h : Heap) (r : Ref) (labels : List (String × LabelTarget)) :
    h.Changes (h.recordLabels r labels) := by
  unfold Heap.recordLabels
  split
  · next hget => exact .single (.setLabels hget _)
  · exact .refl

theorem World.changes_labelled (w : World) (procedure : Option Ref)
    (labels : List (String × LabelTarget)) :
    ∃ h, w.heap.Changes h ∧ w.labelled procedure labels = { w with heap := h } := by
  cases procedure with
  | none => exact ⟨w.heap, .refl, rfl⟩
  | some p => exact ⟨_, w.heap.changes_recordLabels p labels, rfl⟩

/-- Linking fails and changes nothing, or gives code the next number. -/
theorem linkRoutine_cases {w w' : World} {code : Routine} {result : Except CompileError Entry}
    (h : (linkRoutine code).run w = .ok (result, w')) :
    (∃ e, result = .error e ∧ w' = w) ∨ ∃ linked, code.link w.settings.backend = .ok linked ∧
      result = .ok ⟨w.linked, linked⟩ ∧ w' = w.countLinked := by
  have hrun : (linkRoutine code).run w =
      (ExceptT.mk (pure (if w.settings.verify then code.verify else .ok ())) >>= fun _ =>
        ExceptT.mk (pure (code.link w.settings.backend)) >>= fun linked => do
          let number := (← get).linked
          modify World.countLinked
          return ⟨number, linked⟩ : Compile Entry).run w := by
    unfold linkRoutine
    rw [Compile.run_get_bind]
    dsimp only
    cases w.settings.verify <;> rfl
  rw [hrun] at h
  obtain ⟨checked, w₁, hcheck, hrest⟩ := Compile.run_bind_eq_ok h
  cases hcheck
  rcases hrest with ⟨e, -, rfl, rfl⟩ | ⟨_, -, hrest⟩
  · exact .inl ⟨e, rfl, rfl⟩
  · obtain ⟨linked, w₂, hlink, hrest⟩ := Compile.run_bind_eq_ok hrest
    cases hlink
    rcases hrest with ⟨e, -, rfl, rfl⟩ | ⟨linked, hok, hrest⟩
    · exact .inl ⟨e, rfl, rfl⟩
    · cases hrest
      exact .inr ⟨linked, hok, rfl, rfl⟩

/-- Lowering and linking records labels; then it fails, or gives code the next number. -/
theorem lowerAndLink_cases {w w' : World} {name : String} {parse : Parse}
    {procedure source : Option Ref} {result : Except CompileError Entry}
    (h : (lowerAndLink name parse procedure source).run w = .ok (result, w')) :
    ∃ heap, heap = (w.labelled procedure (lowerUnit w.heap name source parse).2).heap ∧
      w.heap.Changes heap ∧ ((∃ e, result = .error e ∧ w' = { w with heap }) ∨
      ∃ routine linked, (lowerUnit w.heap name source parse).1 = .ok routine ∧
        routine.link w.settings.backend = .ok linked ∧ result = .ok ⟨w.linked, linked⟩ ∧
        w' = { w with heap }.countLinked) := by
  have hrun : (lowerAndLink name parse procedure source).run w =
      (ExceptT.mk (pure (lowerUnit w.heap name source parse).1) >>= linkRoutine).run
        (w.labelled procedure (lowerUnit w.heap name source parse).2) := by
    unfold lowerAndLink
    rw [Compile.run_heap_bind]
    generalize lowerUnit w.heap name source parse = lowered
    obtain ⟨result, labels⟩ := lowered
    cases procedure <;> rfl
  rw [hrun] at h
  obtain ⟨heap, hheap, hlabelled⟩ :=
    w.changes_labelled procedure (lowerUnit w.heap name source parse).2
  rw [hlabelled] at h
  refine ⟨heap, by rw [hlabelled], hheap, ?_⟩
  obtain ⟨lowered, w₁, hlower, hrest⟩ := Compile.run_bind_eq_ok h
  cases hlower
  rcases hrest with ⟨e, -, rfl, rfl⟩ | ⟨routine, hroutine, hrest⟩
  · exact .inl ⟨e, rfl, rfl⟩
  · rcases linkRoutine_cases hrest with ⟨e, rfl, rfl⟩ | ⟨linked, hlinked, rfl, rfl⟩
    · exact .inl ⟨e, rfl, rfl⟩
    · exact .inr ⟨routine, linked, hroutine, hlinked, rfl, rfl⟩

/-! ### The code cache -/

/-- A look-up finds code of the date that is asked for, or makes sure that there is none. -/
theorem Cache.lookup_cases {α : Type} (c : Cache α) (alive : Ref → Bool) (id stamp : Nat) :
    (∃ e, c.find? id = some e ∧ e.stamp = stamp ∧
      c.lookup alive id stamp = (some e.code, { c with hits := c.hits + 1 })) ∨
    (∀ e, c.find? id = some e → e.stamp = stamp → alive e.source = false) ∧
      c.lookup alive id stamp = (none, { c.erase id with misses := c.misses + 1 }) := by
  unfold Cache.lookup
  cases hfind : c.find? id with
  | none =>
    refine .inr ⟨fun _ he => (nomatch he), ?_⟩
    have herase : c.erase id = c := by
      have hne : ∀ e ∈ c.entries, (e.id != id) = true := by
        intro e he
        simpa using List.find?_eq_none.mp hfind e he
      rw [Cache.erase, List.filter_eq_self.mpr hne]
    rw [herase]
  | some e =>
    by_cases hgood : (e.stamp == stamp && alive e.source) = true
    · have hstamp : e.stamp = stamp := beq_iff_eq.mp (Bool.and_eq_true_iff.mp hgood).1
      exact .inl ⟨e, rfl, hstamp, if_pos hgood⟩
    · refine .inr ⟨fun e' he' hstamp => ?_, if_neg hgood⟩
      obtain rfl := Option.some.inj he'
      simpa [hstamp] using hgood

/-- The end of a compilation: code is looked up, or lowered, linked and entered into the cache. -/
def codeOf (pins : Pins) (r : Ref) (id stamp : Nat) (name : String) (parse : Parse)
    (procedure source : Option Ref) : Compile Entry := do
  match ← lookupCode id stamp with
  | some entry => return entry
  | none =>
    let entry ← lowerAndLink name parse procedure source
    enterCode pins id r stamp entry
    return entry

theorem codeOf_run (pins : Pins) (r : Ref) (id stamp : Nat) (name : String) (parse : Parse)
    (procedure source : Option Ref) (w : World) :
    (codeOf pins r id stamp name parse procedure source).run w =
      (match (w.cache.lookup (fun _ => true) id stamp).1 with
        | some entry => return entry
        | none => do
          let entry ← lowerAndLink name parse procedure source
          enterCode pins id r stamp entry
          return entry : Compile Entry).run
        { w with cache := (w.cache.lookup (fun _ => true) id stamp).2 } := by
  unfold codeOf
  rw [Compile.run_lift_bind]
  rfl

/-- The evaluator after code was looked up. -/
abbrev World.lookedUp (w : World) (id stamp : Nat) : World :=
  { w with cache := (w.cache.lookup (fun _ => true) id stamp).2 }

theorem World.mem_of_mem_lookedUp {w : World} {id stamp : Nat} {e : CacheEntry Entry}
    (he : e ∈ (w.lookedUp id stamp).cache.entries) : e ∈ w.cache.entries := by
  rcases w.cache.lookup_cases (fun _ => true) id stamp with ⟨_, _, _, heq⟩ | ⟨_, heq⟩
  · rw [World.lookedUp, heq] at he
    exact he
  · rw [World.lookedUp, heq] at he
    exact List.mem_of_mem_filter he

/-- How a source comes to its code: the cache has it, or it is lowered and linked from a parse, which
may fail, and then enters the cache. -/
inductive World.Codes (w : World) (pins : Pins) (r : Ref) (id stamp : Nat) (name : String)
    (parse : Parse) (procedure source : Option Ref) : Except CompileError Entry → World → Prop
  | stored {stored : CacheEntry Entry} (hstored : w.cache.find? id = some stored)
      (hstamp : stored.stamp = stamp)
      (hstays : (w.lookedUp id stamp).cache.find? id = some stored) :
      Codes w pins r id stamp name parse procedure source (.ok stored.code) (w.lookedUp id stamp)
  | refused {e : CompileError} {w' : World}
      (hlower : (lowerAndLink name parse procedure source).run (w.lookedUp id stamp) =
        .ok (.error e, w')) :
      Codes w pins r id stamp name parse procedure source (.error e) w'
  | entered {entry : Entry} {w₁ : World}
      (hmiss : (w.lookedUp id stamp).cache.find? id = none)
      (hlower : (lowerAndLink name parse procedure source).run (w.lookedUp id stamp) =
        .ok (.ok entry, w₁)) (alive : Ref → Bool)
      (halive : alive = (fun _ => true) ∨ ∃ pins, alive = w₁.liveness pins) :
      Codes w pins r id stamp name parse procedure source (.ok entry)
        { w₁ with cache := w₁.cache.insert alive ⟨id, r, stamp, entry⟩ }

theorem codeOf_codes {w w' : World} {pins : Pins} {r : Ref} {id stamp : Nat} {name : String}
    {parse : Parse} {procedure source : Option Ref} {result : Except CompileError Entry}
    (h : (codeOf pins r id stamp name parse procedure source).run w = .ok (result, w')) :
    w.Codes pins r id stamp name parse procedure source result w' := by
  rw [codeOf_run] at h
  rcases w.cache.lookup_cases (fun _ => true) id stamp with
    ⟨stored, hstored, hstamp, heq⟩ | ⟨-, heq⟩
  · rw [show (w.cache.lookup (fun _ => true) id stamp).1 = some stored.code by rw [heq]] at h
    cases h
    exact .stored hstored hstamp (by rw [World.lookedUp, heq]; exact hstored)
  · rw [show (w.cache.lookup (fun _ => true) id stamp).1 = none by rw [heq]] at h
    obtain ⟨lowered, w₁, hlower, hrest⟩ := Compile.run_bind_eq_ok h
    rcases hrest with ⟨e, rfl, rfl, rfl⟩ | ⟨entry, rfl, hrest⟩
    · exact .refused hlower
    · cases hrest
      refine .entered (by rw [World.lookedUp, heq]; exact w.cache.find?_erase_self id) hlower _ ?_
      split
      · exact .inr ⟨_, rfl⟩
      · exact .inl rfl

/-- How a source is compiled: one that is no list is parsed and lowered each time, and a list has
its parse renewed where that is due, and then comes to its code. -/
inductive World.Compiles (w : World) (pins : Pins) (source : Ref) (procedure : Option Ref) :
    Except CompileError Entry → World → Prop
  | unparsed {e : CompileError} {w' : World} (hcell : w.heap.cell? source = none)
      (hparse : parseSource source w = .ok (none, w')) :
      Compiles w pins source procedure (.error e) w'
  | parsed {name : String} {parse : Parse} {w₁ w' : World} {result : Except CompileError Entry}
      (hcell : w.heap.cell? source = none) (hparse : parseSource source w = .ok (some parse, w₁))
      (hlower : (lowerAndLink name parse procedure (some source)).run w₁ = .ok (result, w')) :
      Compiles w pins source procedure result w'
  | stale {cell : Cell} {e : CompileError} {w' : World} (hcell : w.heap.cell? source = some cell)
      (hrefresh : (refreshParse source cell).run w = .ok (.error e, w')) :
      Compiles w pins source procedure (.error e) w'
  | lost {cell : Cell} {e : CompileError} {w' : World} (hcell : w.heap.cell? source = some cell)
      (hrefresh : (refreshParse source cell).run w = .ok (.ok (), w'))
      (hlost : w'.heap.cell? source = none) : Compiles w pins source procedure (.error e) w'
  | coded {cell cell' : Cell} {name : String} {w₁ w' : World} {result : Except CompileError Entry}
      (hcell : w.heap.cell? source = some cell)
      (hrefresh : (refreshParse source cell).run w = .ok (.ok (), w₁))
      (hcell' : w₁.heap.cell? source = some cell')
      (hcodes : w₁.Codes pins source cell'.id cell'.stamp name (cell'.parse.getD []) procedure
        (some source) result w') : Compiles w pins source procedure result w'

theorem compileSource_compiles {w w' : World} {pins : Pins} {source : Ref} {procedure : Option Ref}
    {result : Except CompileError Entry}
    (h : (compileSource pins source procedure).run w = .ok (result, w')) :
    w.Compiles pins source procedure result w' := by
  unfold compileSource at h
  rw [Compile.run_heap_bind] at h
  cases hcell : w.heap.cell? source with
  | none =>
    rw [hcell, Compile.run_lift_bind] at h
    obtain ⟨found, w₁, hparse, hrest⟩ := Run.bind_eq_ok h
    cases found with
    | none =>
      cases hrest
      exact .unparsed hcell hparse
    | some parse => exact .parsed hcell hparse hrest
  | some cell =>
    rw [hcell] at h
    obtain ⟨refreshed, w₁, hrefresh, hrest⟩ := Compile.run_bind_eq_ok h
    rcases hrest with ⟨e, rfl, rfl, rfl⟩ | ⟨_, rfl, hrest⟩
    · exact .stale hcell hrefresh
    rw [Compile.run_heap_bind] at hrest
    cases hcell' : w₁.heap.cell? source with
    | none =>
      rw [hcell'] at hrest
      cases hrest
      exact .lost hcell hrefresh hcell'
    | some cell' =>
      rw [hcell'] at hrest
      exact .coded hcell hrefresh hcell' (codeOf_codes hrest)

/-- A node comes to its code, and nothing else does. -/
theorem compileNode_codes {w w' : World} {pins : Pins} {node : Ref}
    {result : Except CompileError Entry} (h : (compileNode pins node).run w = .ok (result, w')) :
    (∃ head inputs name, w.heap.get node = .node head inputs ∧
      w.Codes pins node head.id 0 name [[.call head inputs]] none none result w') ∨
    (∃ e, result = .error e) ∧ w' = w := by
  unfold compileNode at h
  rw [Compile.run_heap_bind] at h
  split at h
  · next head inputs hget => exact .inl ⟨head, inputs, _, hget, codeOf_codes h⟩
  · cases h
    exact .inr ⟨⟨_, rfl⟩, rfl⟩

end LogoEngine
