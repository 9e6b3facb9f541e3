import LogoEngine.Proofs.Lower.Routines
import LogoEngine.Proofs.Machine.Drafts

/-!
# Linked code as a stage

Linked code that follows the routine of a finished draft, whose labels differ, is a stage: every
label has one position, and the steps of a stage are the steps of the machine.
-/

namespace LogoEngine

section

variable {code : Routine} {linked : Linked}

/-- Labels that differ have one position each. -/
theorem Routine.Locates.eq_idxOf {l : Label} {position : Nat} (hnodup : code.labels.Nodup)
    (h : code.Locates l position) : position = code.labels.idxOf l := by
  obtain ⟨b, hb, rfl⟩ := h
  obtain ⟨hlt, hget⟩ := List.getElem?_eq_some_iff.mp hb
  have hlt' : position < code.labels.length := by
    simpa [Routine.labels] using hlt
  have hlabel : code.labels[position] = b.label := by
    simp [Routine.labels, hget]
  rw [← hlabel, hnodup.idxOf_getElem position hlt']

/-- The targets of a linked end are the positions of its labels. -/
theorem Routine.eq_placed_of_exitFollows (hnodup : code.labels.Nodup) {exit : Exit}
    {exit' : LinkedExit} (h : code.ExitFollows exit exit') :
    exit' = exit.placed code.labels.idxOf := by
  cases exit <;> cases exit'
  case ret.ret => exact congrArg LinkedExit.ret h
  case jump.jump => exact congrArg LinkedExit.jump (Routine.Locates.eq_idxOf hnodup h)
  case branch.branch =>
    obtain ⟨rfl, hyes, hno⟩ := h
    rw [Exit.placed, Routine.Locates.eq_idxOf hnodup hyes, Routine.Locates.eq_idxOf hnodup hno]
  case unreachable.unreachable => rfl
  all_goals cases h

/-- Code that follows a routine has the block of every label at the position of the label. -/
theorem Routine.Follows.exists_placed (hfollows : code.Follows linked)
    (hnodup : code.labels.Nodup) {b : Block} (hb : b ∈ code.blocks) :
    ∃ l, linked.blocks[code.labels.idxOf b.label]? = some l ∧ l.body = b.body ∧
      l.exit = b.exit.placed code.labels.idxOf := by
  obtain ⟨position, hlt, hget⟩ := List.getElem_of_mem hb
  have hposition : position = code.labels.idxOf b.label :=
    Routine.Locates.eq_idxOf hnodup ⟨b, List.getElem?_eq_some_iff.mpr ⟨hlt, hget⟩, rfl⟩
  have hlt' : position < linked.blocks.toList.length := hfollows.blocks.length_eq ▸ hlt
  obtain ⟨hbody, hexit⟩ := hfollows.blocks.get hlt hlt'
  have hblock : code.blocks.get ⟨position, hlt⟩ = b := hget
  rw [hblock] at hbody hexit
  refine ⟨linked.blocks.toList.get ⟨position, hlt'⟩, ?_, hbody,
    Routine.eq_placed_of_exitFollows hnodup hexit⟩
  rw [← hposition, ← Array.getElem?_toList]
  exact List.getElem?_eq_getElem hlt'

/-- **Nothing but its name is left open** about code that follows a routine. -/
theorem Routine.Follows.eq_placed (hfollows : code.Follows linked) (hnodup : code.labels.Nodup) :
    linked = ⟨linked.name,
      (code.blocks.map fun b => ⟨b.body, b.exit.placed code.labels.idxOf⟩).toArray,
      code.labels.idxOf code.entry, code.types, code.constants⟩ := by
  obtain ⟨name, blocks, entry, types, constants⟩ := linked
  obtain ⟨rfl, rfl, hentry, hblocks⟩ := hfollows
  obtain rfl := Routine.Locates.eq_idxOf hnodup hentry
  have hplaced : blocks.toList =
      code.blocks.map fun b => ⟨b.body, b.exit.placed code.labels.idxOf⟩ := by
    refine (List.forall₂_eq_eq_eq ▸ List.forall₂_map_left_iff.mpr (hblocks.imp ?_)).symm
    rintro b ⟨body, exit⟩ ⟨rfl, hexit⟩
    exact congrArg (LinkedBlock.mk _) (Routine.eq_placed_of_exitFollows hnodup hexit).symm
  rw [← hplaced]

/-- A routine that was linked, as a stage. -/
def Routine.Follows.stage {final : Draft} {name : String} {entry : Label} {linked : Linked}
    (hfollows : (final.routine name entry).Follows linked)
    (hnodup : (final.routine name entry).labels.Nodup) (re : Reenter) (pins : Pins)
    (block : Int) : Stage where
  re := re
  pins := .constants linked.constants :: pins
  block := block
  final := final
  code := linked
  place := (final.routine name entry).labels.idxOf
  types := hfollows.types
  constants := hfollows.constants
  blocks _ hb := hfollows.exists_placed hnodup (Array.mem_toList_iff.mpr hb)

end

/-- Steps between configurations are the steps of the machine. -/
theorem Stage.leads_running_iff {s : Stage} {c c' : Config} :
    s.Leads (.running c) (.running c') ↔ Machine.Reaches s.re s.pins s.code s.block c c' := by
  constructor
  · intro h
    generalize ho : Machine.Outcome.running c = o at h
    induction h using Relation.ReflTransGen.head_induction_on generalizing c with
    | refl =>
      cases ho
      exact .refl
    | head hstep hrest ih =>
      obtain ⟨c₀, rfl, hstep⟩ := hstep
      cases ho
      rename_i o'
      cases o' with
      | running c₁ => exact .head hstep (ih rfl)
      | returned r w =>
        cases hrest using Relation.ReflTransGen.head_induction_on with
        | head hnext _ =>
          obtain ⟨_, hrunning, -⟩ := hnext
          cases hrunning
  · intro h
    induction h with
    | refl => exact .refl
    | tail _ hmove ih => exact ih.tail ⟨_, rfl, hmove⟩

/-- A result is reached from one configuration or another. -/
theorem Stage.leads_returned_iff {s : Stage} {c : Config} {r : Ref} {w : World} :
    s.Leads (.running c) (.returned r w) ↔
      ∃ c', s.Leads (.running c) (.running c') ∧ s.Step (.running c') (.returned r w) := by
  constructor
  · intro h
    rcases Relation.ReflTransGen.cases_tail h with heq | ⟨o, hleads, c', rfl, hstep⟩
    · cases heq
    · exact ⟨c', hleads, c', rfl, hstep⟩
  · rintro ⟨c', hleads, hstep⟩
    exact hleads.tail hstep

/-- The machine does one thing at a time. -/
theorem Stage.step_unique {s : Stage} : Relator.RightUnique s.Step := by
  rintro _ _ _ ⟨c, rfl, hstep⟩ ⟨_, ⟨⟩, hstep'⟩
  rw [hstep] at hstep'
  exact Except.ok.inj hstep'

/-- After a step that returns there is only the result. -/
theorem Stage.Leads.of_returns {s : Stage} {o o' : Machine.Outcome} {r : Ref} {w : World}
    (hleads : s.Leads o o') (hstep : s.Step o (.returned r w)) : o' = o ∨ o' = .returned r w := by
  rcases Relation.ReflTransGen.cases_head hleads with rfl | ⟨o₁, hfirst, hrest⟩
  · exact .inl rfl
  · obtain rfl := Stage.step_unique hfirst hstep
    rcases Relation.ReflTransGen.cases_head hrest with rfl | ⟨_, ⟨_, hrunning, -⟩, -⟩
    · exact .inr rfl
    · cases hrunning

/-- Two configurations of a run that both return are the same. -/
theorem Stage.Leads.returns_once {s : Stage} {o : Machine.Outcome} {c c' : Config} {r r' : Ref}
    {w w' : World} (hleads : s.Leads o (.running c)) (hleads' : s.Leads o (.running c'))
    (hstep : s.Step (.running c) (.returned r w))
    (hstep' : s.Step (.running c') (.returned r' w')) : c = c' := by
  rcases Relation.ReflTransGen.total_of_right_unique Stage.step_unique hleads hleads' with h | h
  · rcases Stage.Leads.of_returns h hstep with h | h <;> cases h
    rfl
  · rcases Stage.Leads.of_returns h hstep' with h | h <;> cases h
    rfl

/-- Steps that lead to a result are a run. -/
theorem Stage.Leads.returns {s : Stage} {c : Config} {r : Ref} {w : World}
    (h : s.Leads (.running c) (.returned r w)) :
    Machine.Returns s.re s.pins s.code s.block c r w := by
  generalize ho : Machine.Outcome.running c = o at h
  induction h using Relation.ReflTransGen.head_induction_on generalizing c with
  | refl => cases ho
  | head hstep hrest ih =>
    obtain ⟨c', rfl, hstep⟩ := hstep
    cases ho
    rename_i o'
    cases o' with
    | running c₁ => exact Machine.Returns.head hstep (ih rfl)
    | returned r' w' =>
      cases hrest using Relation.ReflTransGen.head_induction_on with
      | refl => exact ⟨c, .refl, hstep⟩
      | head hnext _ =>
        obtain ⟨_, hrunning, -⟩ := hnext
        cases hrunning

end LogoEngine
