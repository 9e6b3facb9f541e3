import LogoEngine.Proofs.Eval.Running
import LogoEngine.Proofs.Lower.Contents

/-!
# What most computations leave alone

Making objects, raising errors, writing, asking the host, parsing and compiling leave frames,
procedures, settings and the number of repetitions as they are, and whatever code is entered into
the cache was lowered from a parse. A relation between evaluators that allows all this (`Lasting`)
is permissive, and compiling keeps it too.

Main statements: `quiet_compileSource` and `quiet_compileNode`, which also say where code comes
from.
-/

namespace LogoEngine

/-- Code that a parse was lowered and linked to, at some time. -/
def Linked.Lowered (code : Linked) : Prop :=
  ∃ h parse, code.Renders h parse

/-- All code in the cache was lowered from a parse. -/
def World.Compiled (w : World) : Prop :=
  ∀ e ∈ w.cache.entries, e.code.code.Lowered

/-- What most computations do not change. -/
structure World.Quiet (w w' : World) : Prop where
  frames : w'.frames = w.frames
  repcount : w'.repcount = w.repcount
  procedures : w'.procedures = w.procedures
  settings : w'.settings = w.settings
  compiled : w.Compiled → w'.Compiled

/-- A relation that allows whatever most computations do. -/
class Lasting (R : World → World → Prop) : Prop where
  quiet : ∀ {w w'}, w.Quiet w' → R w w'
  trans : ∀ {w w₁ w'}, R w w₁ → R w₁ w' → R w w'

namespace World.Quiet

/-- The changes that touch nothing else. -/
theorem aside (w : World) (heap : Heap) (lastDefinition linked : Nat) (currentError : Option Ref)
    (host : Host) (random : Random) :
    w.Quiet { w with heap, lastDefinition, linked, currentError, host, random } :=
  ⟨rfl, rfl, rfl, rfl, fun h => h⟩

theorem refl (w : World) : w.Quiet w :=
  ⟨rfl, rfl, rfl, rfl, fun h => h⟩

theorem trans {w w₁ w' : World} (h : w.Quiet w₁) (h' : w₁.Quiet w') : w.Quiet w' where
  frames := h'.frames.trans h.frames
  repcount := h'.repcount.trans h.repcount
  procedures := h'.procedures.trans h.procedures
  settings := h'.settings.trans h.settings
  compiled := h'.compiled ∘ h.compiled

end World.Quiet

instance : Lasting World.Quiet where
  quiet := id
  trans := World.Quiet.trans

instance {R : World → World → Prop} [hR : Lasting R] : IsPreorder World R where
  refl w := hR.quiet (.refl w)
  trans _ _ _ := hR.trans

instance {R : World → World → Prop} [hR : Lasting R] : Permissive R where
  heap {w h} _ := hR.quiet (.aside w h w.lastDefinition w.linked w.currentError w.host w.random)
  aside w currentError random {host} _ :=
    hR.quiet (.aside w w.heap w.lastDefinition w.linked currentError host random)

section

variable {α : Type} {R : World → World → Prop} [hR : Lasting R]

/-- A computation that changes nothing the relation looks at. -/
theorem Run.Keeps.of_quiet {m : Run α} (h : ∀ {w a w'}, m w = .ok (a, w') → w.Quiet w') :
    Run.Keeps R m :=
  ⟨fun hrun => hR.quiet (h hrun)⟩

instance (f : Making α) : Run.Keeps R (Run.making f) :=
  .of_quiet fun {w _ _} h => by cases h; exact .aside w ..

instance (f : Heap → Heap) : Run.Keeps R (Run.modifyHeap f) := by
  unfold Run.modifyHeap; infer_instance

instance (f : Host → α × Host) : Run.Keeps R (Run.withHost f) :=
  .of_quiet fun {w _ _} h => by cases h; exact .aside w ..

/-! ### Compiling -/

instance (source : Ref) (cell : Cell) : Run.Keeps R (refreshParse source cell).run := by
  refine ⟨fun {w result w'} h => ?_⟩
  rw [refreshParse_run] at h
  split at h
  · obtain ⟨found, w₁, hparse, hrest⟩ := Run.bind_eq_ok h
    refine hR.trans (Run.Keeps.keeps hparse) ?_
    cases found with
    | some parse => exact Run.Keeps.keeps hrest
    | none =>
      dsimp only at hrest
      split at hrest
      · exact Run.Keeps.keeps hrest
      · exact Run.Keeps.keeps hrest
  · cases h
    exact hR.quiet (.refl w)

theorem World.Compiled.insert {w : World} (hw : w.Compiled) (alive : Ref → Bool)
    {stored : CacheEntry Entry} (hstored : stored.code.code.Lowered) :
    World.Compiled { w with cache := w.cache.insert alive stored } := by
  intro e he
  rcases List.mem_cons.mp he with rfl | he
  · exact hstored
  · have hmem := List.mem_of_mem_filter he
    split at hmem
    · exact hw e (List.mem_of_mem_filter hmem)
    · exact hw e hmem

/-- Lowering and linking records labels and gives code that was lowered. -/
theorem quiet_lowerAndLink {w w' : World} {name : String} {parse : Parse}
    {procedure source : Option Ref} {result : Except CompileError Entry}
    (h : (lowerAndLink name parse procedure source).run w = .ok (result, w')) :
    w.Quiet w' ∧ ∀ entry, result = .ok entry → entry.code.Lowered := by
  obtain ⟨heap, -, -, ⟨e, rfl, rfl⟩ | ⟨routine, linked, hroutine, hlinked, rfl, rfl⟩⟩ :=
    lowerAndLink_cases h
  · exact ⟨.aside w .., fun _ hok => nomatch hok⟩
  · refine ⟨.aside w .., fun entry hentry => ?_⟩
    cases hentry
    exact ⟨w.heap, parse, name, source, routine, _, hroutine, hlinked⟩

/-- Code for a source was lowered, if that of the cache was. -/
theorem World.Codes.quiet {w w' : World} {pins : Pins} {r : Ref} {id stamp : Nat} {name : String}
    {parse : Parse} {procedure source : Option Ref} {result : Except CompileError Entry}
    (h : w.Codes pins r id stamp name parse procedure source result w') :
    w.Quiet w' ∧ (w.Compiled → ∀ entry, result = .ok entry → entry.code.Lowered) := by
  have hlooked : w.Quiet (w.lookedUp id stamp) :=
    ⟨rfl, rfl, rfl, rfl, fun hw e he => hw e (World.mem_of_mem_lookedUp he)⟩
  cases h with
  | stored hstored =>
    refine ⟨hlooked, fun hw entry hentry => ?_⟩
    cases hentry
    exact hw _ (List.mem_of_find?_eq_some hstored)
  | refused hlower =>
    exact ⟨hlooked.trans (quiet_lowerAndLink hlower).1, fun _ _ hok => nomatch hok⟩
  | @entered entry w₁ hmiss hlower alive =>
    obtain ⟨hquiet, hlowered⟩ := quiet_lowerAndLink hlower
    have hcode := hlowered entry rfl
    refine ⟨(hlooked.trans hquiet).trans ?_, fun _ entry' hentry => ?_⟩
    · exact ⟨rfl, rfl, rfl, rfl, fun hw => hw.insert alive hcode⟩
    · cases hentry
      exact hcode

theorem quiet_compileSource {w w' : World} {pins : Pins} {source : Ref} {procedure : Option Ref}
    {result : Except CompileError Entry}
    (h : (compileSource pins source procedure).run w = .ok (result, w')) :
    w.Quiet w' ∧ (w.Compiled → ∀ entry, result = .ok entry → entry.code.Lowered) := by
  cases compileSource_compiles h with
  | unparsed _ hparse => exact ⟨Run.Keeps.keeps hparse, fun _ _ hok => nomatch hok⟩
  | parsed _ hparse hlower =>
    obtain ⟨hquiet, hlowered⟩ := quiet_lowerAndLink hlower
    exact ⟨.trans (Run.Keeps.keeps hparse) hquiet, fun _ => hlowered⟩
  | stale _ hrefresh => exact ⟨Run.Keeps.keeps hrefresh, fun _ _ hok => nomatch hok⟩
  | lost _ hrefresh => exact ⟨Run.Keeps.keeps hrefresh, fun _ _ hok => nomatch hok⟩
  | @coded _ _ _ w₁ _ _ _ hrefresh _ hcodes =>
    have hrefreshed : w.Quiet w₁ := Run.Keeps.keeps hrefresh
    exact ⟨hrefreshed.trans hcodes.quiet.1, fun hw => hcodes.quiet.2 (hrefreshed.compiled hw)⟩

theorem quiet_compileNode {w w' : World} {pins : Pins} {node : Ref}
    {result : Except CompileError Entry} (h : (compileNode pins node).run w = .ok (result, w')) :
    w.Quiet w' ∧ (w.Compiled → ∀ entry, result = .ok entry → entry.code.Lowered) := by
  rcases compileNode_codes h with ⟨head, inputs, name, -, hcodes⟩ | ⟨⟨e, rfl⟩, rfl⟩
  · exact hcodes.quiet
  · exact ⟨.refl _, fun _ _ hok => nomatch hok⟩

instance (pins : Pins) (source : Ref) (procedure : Option Ref) :
    Run.Keeps R (compileSource pins source procedure).run :=
  .of_quiet fun h => (quiet_compileSource h).1

instance (pins : Pins) (node : Ref) : Run.Keeps R (compileNode pins node).run :=
  .of_quiet fun h => (quiet_compileNode h).1

end

/-- A lasting relation that also allows what running code does to variables and tests. -/
class Lasting.Scoped (R : World → World → Prop) : Prop extends Lasting R where
  set : ∀ (w : World) key value, R w { w with frames := w.frames.set key value }
  bind : ∀ (w : World) key value, R w { w with frames := w.frames.bind key value }
  test : ∀ (w : World) truth, R w
    { w with frames := w.frames.modifyTop fun frame => { frame with test := some truth } }

instance {R : World → World → Prop} [hR : Lasting.Scoped R] : Permissive.Scoped R where
  set := hR.set
  bind := hR.bind
  test := hR.test

end LogoEngine
