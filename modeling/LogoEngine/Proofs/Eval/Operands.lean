import LogoEngine.Proofs.Eval.Handing
import LogoEngine.Proofs.Lower.Choices
import LogoEngine.Proofs.Lower.Passing

/-!
# Lists and the inputs of their statements

What is known about the inputs of one node is carried to the code of a whole list. A token that
comes up in an input of a statement, at any depth, is what the list comes to. A list that ends with
`AND` or `OR` comes to the truth value that the inputs decide on, or to the token of the input that
gives no answer.

In both cases the statements in front are done without a value, and what is said about the inputs is
said about each of them on its own.

Main statements: `runCode_of_tokenAmong` and `runCode_of_choice`.
-/

namespace LogoEngine

section

variable {re : Reenter} {h : Heap} {pins pins' : Pins} {head : NodeHead} {inputs rest : List Node}
  {node : Node} {w w₁ w' : World} {t : Ref} {parse : Parse} {code : Linked} {n : Nat} {block : Int}

/-! ### Tokens -/

/-- **A statement leaves with a token that comes up among its inputs.** -/
theorem TokenAmong.exists_ends_left (hbuilt : (Node.call head inputs).Built h)
    (hfault : arityFault? h head inputs.length = none) (hsteady : re.Steady)
    (a : Alone (lowerStatement h (.call head inputs)) re pins)
    (htoken : TokenAmong re h t a.stage.pins w (Node.call head inputs).operands w') :
    ∃ h', w'.heap.Grows h' ∧
      (Node.call head inputs).Ends re h pins w (.left t { w' with heap := h' }) := by
  -- the code of a statement is that of the node, and then a cast
  obtain ⟨raw, d, hnode, hcast⟩ := Lower.exists_of_run_bind a.run
  have hbelow : d.Below a.draft := Lower.Grows.lift _ _ _ _ hcast
  have hhands := (a.stage.waits_initial a.draft.types.size).handsOn (a.proper hsteady) hbuilt hfault
    hnode (hbelow _ a.within) hbelow.types_size_le w
  obtain ⟨h', hgrows, hleads⟩ :=
    htoken.leads hsteady (fun p hp => hbuilt.of_mem_operands hp) a.re_eq hhands
  rw [a.stage.types] at hleads
  exact ⟨h', hgrows, a.ends_left hsteady hbuilt hleads⟩

/-- The statements of a built parse are built. -/
theorem Parse.Built.of_mem_statementsFrom (hbuilt : parse.Built h)
    (hmem : node ∈ parse.statementsFrom block) : node.Built h := by
  obtain ⟨group, hgroup, hnode⟩ := List.mem_flatten.mp (parse.statementsFrom_subset block hmem)
  exact hbuilt group hgroup node hnode

section

variable (hcode : code.Renders h parse) (hbuilt : parse.Built h)
  (hdistinct : (parse.flatten.map Node.ref).Nodup) (hholds : w.Holds parse.flatten)

include hcode hbuilt hdistinct hholds

/-- A list that has come to a statement runs as the statements from there on are executed. -/
theorem Linked.Renders.runCode_iff_of_skips
    (hskips : Skips (engine n) h (.constants code.constants :: pins) (parse.statementsFrom block) w
      pins' (node :: rest) w₁) :
    (∃ fuel, runCode (engine n) fuel pins code block w = .ok (t, w')) ↔
      Executes (engine n) h parse.valued pins' (node :: rest) w₁ t w' := by
  rw [hcode.runCode_iff hbuilt hdistinct hholds]
  exact hskips.executes_iff (List.cons_ne_nil _ _) fun node hnode => hbuilt.of_mem_statementsFrom hnode

/-- **A token that comes up among the inputs of a statement is what the list comes to**, once the
statements in front of it are done. -/
theorem runCode_of_tokenAmong
    (hskips : Skips (engine n) h (.constants code.constants :: pins) (parse.statementsFrom block) w
      pins' (.call head inputs :: rest) w₁)
    (hfault : arityFault? h head inputs.length = none)
    (a : Alone (lowerStatement h (.call head inputs)) (engine n) pins')
    (htoken : TokenAmong (engine n) h t a.stage.pins w₁ (Node.call head inputs).operands w') :
    ∃ least h', w'.heap.Grows h' ∧ ∀ fuel ≥ least,
      runCode (engine n) fuel pins code block w = .ok (t, { w' with heap := h' }) := by
  have hnode : (Node.call head inputs).Built h :=
    hbuilt.of_mem_statementsFrom (hskips.suffix.subset List.mem_cons_self)
  obtain ⟨h', hgrows, hends⟩ := htoken.exists_ends_left hnode hfault (engine_steady n) a
  obtain ⟨least, hrun⟩ := (hcode.runCode_iff_of_skips hbuilt hdistinct hholds hskips).mpr
    (.left hends (hnode.breaks hends))
  exact ⟨least, h', hgrows, fun fuel hfuel => runCode_le (engine_le le_rfl) hfuel _ _ _ hrun⟩

end

/-! ### `AND` and `OR` -/

/-- What becomes of a statement by a verdict on its inputs: it is done with the word of the answer,
or it hands on the token of an input, or it has no end. -/
def Node.Heeds (re : Reenter) (h : Heap) (pins : Pins) (node : Node) (w : World) : Verdict → Prop
  | .decided p w' => ∃ regs, node.Ends re h pins w
      (.done (w'.heap.add (.word (.truth p))).1 regs (w'.withWord (.truth p)))
  | .left t w' => node.Hands re h pins w t w'
  | .asked => True
  | .stuck => ∀ ending, ¬node.Ends re h pins w ending

/-- **`AND` and `OR` as a statement** do what the inputs decide. -/
theorem Node.Built.exists_heeds (hbuilt : (Node.call head inputs).Built h) {conj : Bool}
    (hgenerator : head.generator = if conj then .conjunction else .disjunction)
    (hsteady : re.Steady) (pins : Pins) (w : World) :
    ∃ seen rest answers verdict, inputs = seen ++ rest ∧
      Choice re h head.name conj w seen answers verdict ∧
      (∀ w', verdict = .decided conj w' → rest = []) ∧
      (Node.call head inputs).Heeds re h pins w verdict := by
  obtain ⟨routine, code, hroutine, hlink, ⟨t⟩⟩ := exists_soloStage hbuilt re pins ""
  obtain ⟨raw, d, hnode, hcast⟩ := Lower.exists_of_run_bind t.solo.run
  have hbelow : d.Below t.draft := Lower.Grows.lift _ _ _ _ hcast
  obtain ⟨seen, rest, answers, verdict, hinputs, hchoice, hend, hheeds⟩ :=
    (t.stage.waits_initial t.draft.types.size).heeds_choice (t.proper hsteady) hbuilt hgenerator hnode
      (hbelow _ t.within) hbelow.types_size_le w
  rw [t.code_eq] at hheeds
  refine ⟨seen, rest, answers, verdict, hinputs, t.re_eq ▸ hchoice, hend, ?_⟩
  cases verdict with
  | decided p w' =>
    obtain ⟨_, hleads, found, rfl, hread, -⟩ := hheeds
    obtain ⟨hreturns, hfault, -⟩ := hbuilt.of_choice hgenerator
    have hsize : found.size = t.stage.final.types.size := (t.stands_of_leads hleads).1
    have hdeclares := ((hbuilt.lowers .datumOrNothing {}).of_run hnode).2
    rw [rawTy_choice conj hfault hgenerator] at hdeclares
    have hcode := Lower.of_run_lift hcast
    rw [Node.returns, hreturns] at hcode
    -- the truth value becomes a word
    have hruns : t.stage.Runs (Emit.cast raw (h.displayName (Node.call head inputs).ref) .truth
        .datumOrNothing) d (t.stage.here d w' found) _ :=
      Stage.runs_cast_newWord hsize (v := .truth p) rfl rfl rfl ⟨hdeclares, hread⟩
    obtain ⟨_, hleads', regs, rfl, -, hvalue⟩ := hruns (by rw [hcode]; exact t.within)
    rw [hcode] at hleads' hvalue
    refine ⟨regs, "", routine, code, hroutine, hlink, t.ends_done_iff.mpr ⟨hleads.trans hleads', ?_⟩⟩
    rw [hvalue.reads]
    rfl
  | left e w' => exact t.hands_of_returned hroutine hlink hheeds
  | asked => trivial
  | stuck =>
    intro ending hends
    obtain ⟨c, r, w', hleads, hstep, -⟩ := t.exists_of_ends (hends.of_code hbuilt hroutine hlink)
    exact hheeds r w' (hleads.tail hstep)

/-- What running code comes to, by a verdict on the inputs of its last statement. -/
def Verdict.EndsRuns (run : Nat → Except Halt (Ref × World)) : Verdict → Prop
  | .decided p w => ∃ least, ∀ fuel ≥ least,
      run fuel = .ok ((w.heap.add (.word (.truth p))).1, w.withWord (.truth p))
  | .left t w => ∃ least, ∀ fuel ≥ least, run fuel = .ok (t, w)
  | .asked => True
  | .stuck => ∀ fuel t w, run fuel ≠ .ok (t, w)

/-- **A list that ends with `AND` or `OR`** comes to what the inputs decide, once the statements in
front are done: to the word of the answer if every input that was evaluated has given one, or to the
error or token of the input that gave none. If that input has no end, the list has none. -/
theorem runCode_of_choice (hcode : code.Renders h parse) (hbuilt : parse.Built h)
    (hdistinct : (parse.flatten.map Node.ref).Nodup) (hholds : w.Holds parse.flatten)
    (hvalued : parse.valued = true)
    (hskips : Skips (engine n) h (.constants code.constants :: pins) (parse.statementsFrom block) w
      pins' [.call head inputs] w₁) {conj : Bool}
    (hgenerator : head.generator = if conj then .conjunction else .disjunction) :
    ∃ seen rest answers verdict, inputs = seen ++ rest ∧
      Choice (engine n) h head.name conj w₁ seen answers verdict ∧
      (∀ p w', verdict = .decided p w' → answers.length = seen.length ∧
        p = (if conj then answers.all id else answers.any id) ∧ (p = conj → rest = [])) ∧
      verdict.EndsRuns fun fuel => runCode (engine n) fuel pins code block w := by
  have hnode : (Node.call head inputs).Built h :=
    hbuilt.of_mem_statementsFrom (hskips.suffix.subset List.mem_cons_self)
  obtain ⟨seen, rest, answers, verdict, hinputs, hchoice, hend, hheeds⟩ :=
    hnode.exists_heeds hgenerator (engine_steady n) pins' w₁
  -- the last statement is all that is left, so the run ends where the node does
  have hruns : ∀ {t w'}, (∃ fuel, runCode (engine n) fuel pins code block w = .ok (t, w')) ↔
      ((Node.call head inputs).Ends (engine n) h pins' w₁ (.left t w') ∧ w'.Breaks t) ∨
        ∃ regs, (Node.call head inputs).Ends (engine n) h pins' w₁ (.done t regs w') := by
    intro t w'
    rw [hcode.runCode_iff_of_skips hbuilt hdistinct hholds hskips, executes_value_iff hvalued]
  have hleast : ∀ {t w'}, (∃ fuel, runCode (engine n) fuel pins code block w = .ok (t, w')) →
      ∃ least, ∀ fuel ≥ least, runCode (engine n) fuel pins code block w = .ok (t, w') := by
    rintro t w' ⟨least, hrun⟩
    exact ⟨least, fun fuel hfuel => runCode_le (engine_le le_rfl) hfuel _ _ _ hrun⟩
  refine ⟨seen, rest, answers, verdict, hinputs, hchoice, ?_, ?_⟩
  · intro p w' hdecided
    subst hdecided
    exact ⟨hchoice.length_eq, hchoice.decided_eq, fun hp => hend w' (by rw [hp])⟩
  cases verdict with
  | decided p w' => exact hleast (hruns.mpr (.inr hheeds))
  | left e w' =>
    rcases hheeds with hleft | hdone
    · exact hleast (hruns.mpr (.inl ⟨hleft, hnode.breaks hleft⟩))
    · exact hleast (hruns.mpr (.inr hdone))
  | asked => trivial
  | stuck =>
    intro fuel e w' hrun
    rcases hruns.mp ⟨fuel, hrun⟩ with ⟨hleft, -⟩ | ⟨regs, hdone⟩
    · exact hheeds _ hleft
    · exact hheeds _ hdone

end

/-! ### A jump out of an input -/

namespace Upward

/-- The statement `print run [goto "a]`. -/
def printing : Node := .call ⟨⟨11⟩, 11, ⟨10⟩, .printing, .nothing⟩ [Outward.running]

/-- The list `[print run [goto "a]]`. -/
def heap : Heap where
  objects := Outward.heap.objects ++ #[.word (.text "print"),
    .node ⟨⟨11⟩, 11, ⟨10⟩, .printing, .nothing⟩ [Outward.running],
    .list ⟨12, none, 1, some [[printing]]⟩]

/-- The list is not compiled yet. -/
def world : World where
  heap := heap

/-- The constants of the statement on its own. -/
def constants : Array Ref := ((lowerStatement heap printing).run {}).2.constants

/-- Whether the input of the statement comes to run `[goto "a]`, and gets the jump. -/
def climbs : Bool :=
  match (compileList [] ⟨12⟩).run world with
  | .ok (.ok entry, w₁) =>
    match Outward.running.findCall? (engine 2) heap
        [.constants constants, .constants entry.code.constants] w₁ .runList 20 with
    | some (_, [list], held, w₂) =>
      match (engine 2).list held list.asDatum w₂ with
      | .ok (t, w₃) => w₁.keeps [⟨11⟩] && Outward.isJump (w₃.heap.get t)
      | _ => false
    | _ => false
  | _ => false

theorem climbs_eq_true : climbs = true := by
  decide +kernel

theorem built_running : Outward.running.Built heap := by
  decide +kernel

theorem built_printing : printing.Built heap := by
  decide +kernel

/-- The list comes to the jump that the inner list came to, and `PRINT` is not called. -/
theorem runCode_eq_goto : ∃ entry w₁ t w', (compileList [] ⟨12⟩).run world = .ok (.ok entry, w₁) ∧
    Outward.isJump (w'.heap.get t) = true ∧ ∃ least, ∀ fuel ≥ least,
      runCode (engine 2) fuel [] entry.code 0 w₁ = .ok (t, w') := by
  have hclimbs := climbs_eq_true
  rw [climbs] at hclimbs
  split at hclimbs
  · next entry w₁ hcompile =>
    split at hclimbs
    · next values list held w₂ hfind =>
      split at hclimbs
      · next t w₃ hlist =>
        simp only [Bool.and_eq_true] at hclimbs
        obtain ⟨hkeeps, hjump⟩ := hclimbs
        have hcode : entry.code.Renders heap [[printing]] :=
          World.renders_of_keepsParse (w := world) rfl hcompile
        obtain ⟨a⟩ := exists_alone (lowerStatement_spec built_printing {}) (engine 2)
          [.constants entry.code.constants]
        have hpins : a.stage.pins = [.constants constants, .constants entry.code.constants] := by
          rw [a.pins_eq, a.stage.constants, a.constants_eq, constants, a.run]
        have hgets : Node.Gets (engine 2) heap a.stage.pins w₁ Outward.running t w₃ := by
          rw [hpins]
          exact (Node.calls_of_findCall? hfind).hasRun.gets hlist
        have hdatum : Request.datum ≠ .datumOrNothing := nofun
        obtain ⟨w', hrestores, htoken⟩ := hgets.exists_tokenAmong built_running (engine_steady 2) rfl
          rfl hdatum (Outward.isFlow_of_isJump hjump) nofun .nil .nil
        have hskips : Skips (engine 2) heap [.constants entry.code.constants]
            (Parse.statementsFrom [[printing]] 0) w₁ [.constants entry.code.constants] [printing] w₁ :=
          .refl
        obtain ⟨least, h', hgrows, hruns⟩ := runCode_of_tokenAmong hcode
          (Parse.built_singleton built_printing) (by decide) (World.holds_of_keeps hkeeps) hskips
          (by decide +kernel) a htoken
        refine ⟨entry, w₁, t, _, hcompile, ?_, least, hruns⟩
        rw [← hrestores.heap_eq] at hjump
        rwa [hgrows.get_of_ne_nothing]
        intro hnothing
        rw [hnothing] at hjump
        cases hjump
      · cases hclimbs
    · cases hclimbs
  · cases hclimbs

end Upward

end LogoEngine
