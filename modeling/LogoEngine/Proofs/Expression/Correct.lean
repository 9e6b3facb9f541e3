import LogoEngine.Eval.Engine
import LogoEngine.Proofs.Expression.Lowering
import LogoEngine.Proofs.Machine.Stages

/-!
# Compiled expressions

Main statement: `exists_runCode_evaluate`. A list of one expression is lowered, linked and run, and
what comes out is what the expression means: an object that is its value, or a record of its
error.
-/

namespace LogoEngine

/-! ### A list of one node -/

section

variable {h : Heap} {node : Node}

theorem Parse.groups_single (htag : node.isTag = false) :
    Parse.groups [[node]] = [[node]] := by
  simp [Parse.groups, statements, htag]

/-- The code of one node is the node's own code, a cast to what a statement may leave, and a
return. -/
theorem lowerFrom_single (htag : node.isTag = false) (line : Option Ref) {d d₁ : Draft}
    {raw : Reg} (hrun : (lowerNode h node .datumOrNothing).run d = (.ok raw, d₁)) :
    (lowerFrom h line [[node]]).run d =
      (.ok ⟨0⟩, (closeRoutine
        (Emit.cast raw (h.displayName node.ref) node.returns .datumOrNothing d₁).1
        (Emit.cast raw (h.displayName node.ref) node.returns .datumOrNothing d₁).2).2) := by
  have hnodes : (lowerNodes h (some node.ref) none [node]).run d =
      (.ok (some (Emit.cast raw (h.displayName node.ref) node.returns .datumOrNothing d₁).1),
        (Emit.cast raw (h.displayName node.ref) node.returns .datumOrNothing d₁).2) := by
    rw [lowerNodes, if_pos rfl]
    exact (Lower.run_bind hrun).trans rfl
  have hgroups : (lowerGroups h line (some node.ref) none [⟨0⟩] [[node]]).run d =
      (.ok (some (Emit.cast raw (h.displayName node.ref) node.returns .datumOrNothing d₁).1, [⟨0⟩]),
        (Emit.cast raw (h.displayName node.ref) node.returns .datumOrNothing d₁).2) := by
    rw [lowerGroups, if_neg (by simp [htag])]
    exact (Lower.run_bind hnodes).trans rfl
  unfold lowerFrom
  exact (Lower.run_bind hgroups).trans rfl

/-- Expressions are no labels. -/
theorem Node.Expression.isTag_eq_false (hnode : node.Expression h) : node.isTag = false := by
  cases hnode with
  | literal _ hgenerator _ => simp [isTag, hgenerator]
  | valueOf _ hgenerator _ => simp [isTag, hgenerator]
  | operation name row _ _ hgenerator _ hoperator =>
    simp only [isTag, decide_eq_false_iff_not]
    intro htag
    rw [← hgenerator, htag] at hoperator
    cases hoperator

/-- The code of an expression on a stage: from the start it leads to what the expression means. -/
theorem Stage.leads_evaluate {s : Stage} {w : World} {d d₁ : Draft} {raw : Reg} {who : Ref}
    {regs : Array Value} (hnode : node.Expression h) (hwords : h.WordsIn w.heap) (hcalm : w.Calm)
    (hsize : regs.size = s.final.types.size)
    (hrun : (lowerNode h node .datumOrNothing).run d = (.ok raw, d₁))
    (hfinal : s.final = (closeRoutine (Emit.cast raw who node.returns .datumOrNothing d₁).1
      (Emit.cast raw who node.returns .datumOrNothing d₁).2).2) :
    ∃ r w', s.Leads (s.here d w regs) (.returned r w') ∧ w'.Answers r (node.evaluate w) := by
  have hw : (Emit.cast raw who node.returns .datumOrNothing d₁).2.Within s.final := by
    rw [hfinal]
    exact Draft.Followed.refl.within
  have hgrows : Emit.Grows (Emit.cast raw who node.returns .datumOrNothing) := inferInstance
  obtain ⟨o, hleads, hgives⟩ := simulates_of_expression (s := s) hnode hwords hcalm
    (.inr (.inr rfl)) d regs hsize raw d₁ hrun (hgrows.within hw)
  cases hmeaning : node.evaluate w with
  | error fault =>
    rw [hmeaning] at hgives
    obtain ⟨e, w', rfl, hreports⟩ := hgives
    exact ⟨e, w', hleads, hreports⟩
  | ok v =>
    rw [hmeaning] at hgives
    obtain ⟨regs₁, rfl, hkeeps, hraw⟩ := hgives
    obtain ⟨o, hcast, w', regs', r, rfl, hreads, hdenotes⟩ :=
      runs_castObject (hkeeps.size.trans hsize) hraw hw
    have hexit : s.Leads (s.here (Emit.cast raw who node.returns .datumOrNothing d₁).2 w' regs')
        (s.exitTo (.ret (Emit.cast raw who node.returns .datumOrNothing d₁).1) w' regs') := by
      refine leads_exitTo ?_
      rw [hfinal]
      exact Array.mem_push.mpr (.inr rfl)
    rw [exitTo, hreads] at hexit
    exact ⟨r, w', (hleads.trans hcast).trans hexit, hdenotes⟩

end

/-- **Compiled expressions mean what they say.** The list of one expression is lowered and linked
and, if `ERRACT` is not set, its code ends given enough fuel, with an object that is the value the
evaluator finds or a record of the error it finds. -/
theorem exists_runCode_evaluate {h : Heap} {node : Node} (hnode : node.Expression h) {w : World}
    (hwords : h.WordsIn w.heap) (hcalm : w.Calm) (name : String) (line : Option Ref)
    (backend : Backend) (re : Reenter) (pins : Pins) (block : Int) :
    ∃ code linked, (lowerUnit h name line [[node]]).1 = .ok code ∧ code.link backend = .ok linked ∧
      ∃ r w', (∃ least, ∀ fuel, least ≤ fuel →
          runCode re fuel pins linked block w = .ok (r, w')) ∧
        w'.Answers r (node.evaluate w) := by
  have hbuilt : Parse.Built h [[node]] := by
    intro group hgroup n hn
    obtain rfl := List.mem_singleton.mp hgroup
    obtain rfl := List.mem_singleton.mp hn
    exact hnode.built
  obtain ⟨tags, -, htags⟩ := lowerParse_run h line [[node]]
  obtain ⟨raw, d₁, hrun, -⟩ := hnode.built.lowers .datumOrNothing { tags }
  let cast := Emit.cast raw (h.displayName node.ref) node.returns .datumOrNothing d₁
  let final := (closeRoutine cast.1 cast.2).2
  have hcode : (lowerUnit h name line [[node]]).1 = .ok (final.routine name ⟨0⟩) := by
    unfold lowerUnit
    rw [htags, Parse.groups_single hnode.isTag_eq_false,
      lowerFrom_single hnode.isTag_eq_false line hrun]
    rfl
  have hwell : (final.routine name ⟨0⟩).WellFormed := by
    obtain ⟨entry, d, hcode', -, hgood⟩ := exists_lowerUnit hbuilt name line
    obtain ⟨marked, -, hdone, hentry, hlt⟩ := hgood False False.elim
    rw [hcode, Except.ok.injEq] at hcode'
    rw [hcode']
    exact hdone.wellFormed hentry hlt
  obtain ⟨linked, hlinked, hfollows⟩ :=
    (final.routine name ⟨0⟩).exists_link backend hwell.entry hwell.targets
  -- a run of the linked code is a run on the final draft, which holds the code of the expression
  let s := hfollows.stage hwell.labels re pins block
  have hsize : (initialRegisters linked.types).size = s.final.types.size := by
    rw [hfollows.types]
    exact Array.size_map
  obtain ⟨r, w', hleads, hanswers⟩ :=
    Stage.leads_evaluate (s := s) hnode hwords hcalm hsize hrun rfl
  have hstart : s.here { tags } w (initialRegisters linked.types) =
      .running (Machine.start linked w) := by
    rw [Machine.start, Routine.Locates.eq_idxOf hwell.labels hfollows.entry]
    rfl
  rw [hstart] at hleads
  obtain ⟨least, hleast⟩ := Machine.exists_runCode_iff.mpr hleads.returns
  exact ⟨_, linked, hcode, hlinked, r, w', ⟨least, fun fuel hle =>
    Machine.runBlocks_mono hle hleast⟩, hanswers⟩

/-- The words `x`, `sum` and `hello`. -/
def wordsOfUnbound : Heap where
  objects := #[.nothing, .word (.text "x"), .word (.text "sum"), .word (.text "hello")]

/-- The expression `sum "hello :x`. -/
def sumOfUnbound : Node :=
  .call ⟨⟨6⟩, 3, ⟨2⟩, .sum, .real⟩
    [.call ⟨⟨4⟩, 1, ⟨3⟩, .literal, .datum⟩ [.datum ⟨3⟩],
      .call ⟨⟨5⟩, 2, ⟨1⟩, .valueOf, .datum⟩ [.datum ⟨1⟩]]

theorem expression_sumOfUnbound : sumOfUnbound.Expression wordsOfUnbound := by
  refine .operation "sum" ⟨"SUM", .sum, 0, 2, none, .real⟩ rfl rfl rfl rfl rfl
    (Nat.zero_le _) (fun _ h => by cases h) fun input hinput => ?_
  simp only [List.mem_cons, List.not_mem_nil, or_false] at hinput
  rcases hinput with rfl | rfl
  · exact .literal _ rfl rfl
  · exact .valueOf _ rfl rfl

/-- That `x` has no value counts before `hello` is read as a number. -/
theorem reports_sumOfUnbound : sumOfUnbound.Expression wordsOfUnbound ∧
    wordsOfUnbound.WordsIn wordsOfUnbound ∧ World.Calm { heap := wordsOfUnbound } ∧
    ∃ code linked, (lowerUnit wordsOfUnbound "list#1" none [[sumOfUnbound]]).1 = .ok code ∧
      code.link .machine = .ok linked ∧
      ∃ r w', (∃ least, ∀ fuel, least ≤ fuel →
          runCode (engine 0) fuel [] linked 0 { heap := wordsOfUnbound } = .ok (r, w')) ∧
        w'.Reports r ⟨.noValue, "x has no value"⟩ := by
  have hwords : wordsOfUnbound.WordsIn wordsOfUnbound := fun _ _ h => h
  have hcalm : World.Calm { heap := wordsOfUnbound } := ⟨rfl, fun _ h => by cases h⟩
  have hmeaning : sumOfUnbound.evaluate { heap := wordsOfUnbound } =
      .error ⟨.noValue, "x has no value"⟩ := by
    rfl
  obtain ⟨code, linked, hcode, hlinked, r, w', hrun, hanswers⟩ :=
    exists_runCode_evaluate expression_sumOfUnbound hwords hcalm "list#1" none .machine
      (engine 0) [] 0
  rw [hmeaning] at hanswers
  exact ⟨expression_sumOfUnbound, hwords, hcalm, code, linked, hcode, hlinked, r, w', hrun,
    hanswers⟩

end LogoEngine
