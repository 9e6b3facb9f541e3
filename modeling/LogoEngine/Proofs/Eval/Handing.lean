import LogoEngine.Proofs.Eval.Leaving

/-!
# Lists hand on tokens

A list whose statement gets a token from code that it has run, a list or a procedure, comes to that
very token: an error, a jump, a tail call or a way out is never taken for an ordinary outcome by the
statement that had the code run. The one exception is the body of `CATCH`, whose errors are looked at.

This is about the calls that statements make themselves. Their inputs are evaluated before any of
them is looked at.

Main statement: `runCode_of_getsToken`.
-/

namespace LogoEngine

/-- Statements are executed up to one that gets a token from code that it has run. -/
inductive GetsToken (re : Reenter) (h : Heap) (t : Ref) (w' : World) :
    Pins → List Node → World → Prop
  /-- The statement that gets it. -/
  | here {pins : Pins} {head : NodeHead} {inputs rest : List Node} {w : World}
      (hbuilt : (Node.call head inputs).Built h) (hruns : head.generator.runsCode = true)
      (hgets : Node.Gets re h pins w (.call head inputs) t w')
      (herror : head.generator = .catching → (w'.heap.get t).error? = none) :
      GetsToken re h t w' pins (.call head inputs :: rest) w
  /-- A statement that is done without a value, and the next ones. -/
  | skip {pins : Pins} {node : Node} {rest : List Node} {w w₁ w₂ : World} {v : Ref}
      {regs : Array Value} (hends : node.Ends re h pins w (.done v regs w₁))
      (hsettle : node.settle v w₁ = .ok (none, w₂))
      (hrest : GetsToken re h t w' (.registers regs :: pins) rest w₂) :
      GetsToken re h t w' pins (node :: rest) w

section

variable {re : Reenter} {h : Heap} {pins : Pins} {nodes : List Node} {parse : Parse} {code : Linked}
  {w w₁ : World} {t : Ref}

/-- Statements that come to a token end with it, and then things are only put back. -/
theorem GetsToken.exists_executes (hgets : GetsToken re h t w₁ pins nodes w)
    (hflow : w₁.heap.isFlow t = true) :
    ∃ w₂, w₁.Restores w₂ ∧ ∀ valued, Executes re h valued pins nodes w t w₂ := by
  induction hgets with
  | here hbuilt hruns hgets herror =>
    obtain ⟨w₂, hrestores, hhands⟩ := hgets.hands hbuilt hruns hflow herror
    refine ⟨w₂, hrestores, fun valued => hhands.executes ?_ ?_ valued _⟩
    · rw [Heap.isFlow, hrestores.heap_eq]
      exact hflow
    · rcases (hbuilt.of_runsCode hruns).1 with hreturns | hreturns <;>
        simp [Node.outputs, Node.returns, hreturns]
  | skip hends hsettle hrest ih =>
    obtain ⟨w₂, hrestores, hexec⟩ := ih
    refine ⟨w₂, hrestores, fun valued => .next ?_ hends hsettle (hexec valued)⟩
    -- a statement is left, so the one that is done is not the last
    rintro rfl
    cases hrest

/-- **No token is lost by the statement that gets it**: the code of a list comes to the very token
that one of its statements gets from a list or a procedure that it has run. -/
theorem runCode_of_getsToken (hcode : code.Renders h parse) (hbuilt : parse.Built h)
    (hdistinct : (parse.flatten.map Node.ref).Nodup) (hholds : w.Holds parse.flatten) {n : Nat}
    {block : Int} (hgets : GetsToken (engine n) h t w₁ (.constants code.constants :: pins)
      (parse.statementsFrom block) w) (hflow : w₁.heap.isFlow t = true) :
    ∃ least w₂, w₁.Restores w₂ ∧ ∀ fuel ≥ least,
      runCode (engine n) fuel pins code block w = .ok (t, w₂) := by
  obtain ⟨w₂, hrestores, hexec⟩ := hgets.exists_executes hflow
  obtain ⟨least, hrun⟩ := (hcode.runCode_iff hbuilt hdistinct hholds).mpr (hexec _)
  exact ⟨least, w₂, hrestores, fun fuel hfuel => runCode_le (engine_le le_rfl) hfuel _ _ _ hrun⟩

end

/-! ### A jump out of a list -/

namespace Outward

/-- The literal `a`. -/
def literal : Node := .call ⟨⟨4⟩, 4, ⟨3⟩, .literal, .datum⟩ [.datum ⟨3⟩]

/-- The statement `goto "a`. -/
def jumping : Node := .call ⟨⟨5⟩, 5, ⟨2⟩, .goto, .nothing⟩ [literal]

/-- The statement `run [goto "a]`. -/
def running : Node :=
  .call ⟨⟨8⟩, 8, ⟨1⟩, .run, .datumOrNothing⟩ [.call ⟨⟨7⟩, 7, ⟨6⟩, .literal, .datum⟩ [.datum ⟨6⟩]]

/-- The list `[run [goto "a]]`. -/
def heap : Heap where
  objects := #[.nothing, .word (.text "run"), .word (.text "goto"), .word (.text "a"),
    .node ⟨⟨4⟩, 4, ⟨3⟩, .literal, .datum⟩ [.datum ⟨3⟩],
    .node ⟨⟨5⟩, 5, ⟨2⟩, .goto, .nothing⟩ [literal], .list ⟨6, none, 1, some [[jumping]]⟩,
    .node ⟨⟨7⟩, 7, ⟨6⟩, .literal, .datum⟩ [.datum ⟨6⟩],
    .node ⟨⟨8⟩, 8, ⟨1⟩, .run, .datumOrNothing⟩
      [.call ⟨⟨7⟩, 7, ⟨6⟩, .literal, .datum⟩ [.datum ⟨6⟩]],
    .list ⟨9, none, 1, some [[running]]⟩]

/-- The list is not compiled yet. -/
def world : World where
  heap := heap

/-- Whether an object is a jump to a label. -/
def isJump : Object → Bool
  | .goto _ _ => true
  | _ => false

/-- Whether the list comes to run `[goto "a]`, and gets the jump. -/
def jumps : Bool :=
  match (compileList [] ⟨9⟩).run world with
  | .ok (.ok entry, w₁) =>
    match running.findCall? (engine 2) heap [.constants entry.code.constants] w₁ .runList 20 with
    | some (_, [list], held, w₂) =>
      match (engine 2).list held list.asDatum w₂ with
      | .ok (t, w₃) => w₁.keeps [⟨8⟩] && isJump (w₃.heap.get t)
      | _ => false
    | _ => false
  | _ => false

theorem jumps_eq_true : jumps = true := by
  decide +kernel

theorem built_running : running.Built heap := by
  decide +kernel

theorem isFlow_of_isJump {h : Heap} {r : Ref} (hjump : isJump (h.get r) = true) :
    h.isFlow r = true := by
  rw [Heap.isFlow]
  cases hobject : h.get r with
  | goto source tag => exact Object.isFlow_of_kind .goto rfl (by decide)
  | _ =>
    rw [hobject] at hjump
    cases hjump

/-- The list comes to the jump that the inner list came to. -/
theorem runCode_eq_jump : ∃ entry w₁ t w', (compileList [] ⟨9⟩).run world = .ok (.ok entry, w₁) ∧
    isJump (w'.heap.get t) = true ∧ ∃ least, ∀ fuel ≥ least,
      runCode (engine 2) fuel [] entry.code 0 w₁ = .ok (t, w') := by
  have hjumps := jumps_eq_true
  rw [jumps] at hjumps
  split at hjumps
  · next entry w₁ hcompile =>
    split at hjumps
    · next inputs list held w₂ hfind =>
      split at hjumps
      · next t w₃ hlist =>
        simp only [Bool.and_eq_true] at hjumps
        obtain ⟨hkeeps, hjump⟩ := hjumps
        have hcode : entry.code.Renders heap [[running]] :=
          World.renders_of_keepsParse (w := world) rfl hcompile
        have hcalls := Node.calls_of_findCall? hfind
        have hgets : GetsToken (engine 2) heap t w₃ [.constants entry.code.constants]
            (Parse.statementsFrom [[running]] 0) w₁ :=
          .here built_running rfl (hcalls.hasRun.gets hlist) nofun
        obtain ⟨least, w', hrestores, hruns⟩ := runCode_of_getsToken hcode
          (Parse.built_singleton built_running) (by decide) (World.holds_of_keeps hkeeps) hgets
          (isFlow_of_isJump hjump)
        refine ⟨entry, w₁, t, w', hcompile, ?_, least, hruns⟩
        rw [hrestores.heap_eq]
        exact hjump
      · cases hjumps
    · cases hjumps
  · cases hjumps

end Outward

end LogoEngine
