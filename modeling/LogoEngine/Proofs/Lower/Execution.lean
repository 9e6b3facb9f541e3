import LogoEngine.Proofs.Lower.Endings
import LogoEngine.Proofs.Lower.Settling

/-!
# Running a parse, statement by statement

The routine of a parse does what its statements do one after the other, from the start or from one
of the numbered blocks on. `Executes` says what that is, in terms of the statements on their own.

Main statement: `exists_runCode_executes`.
-/

namespace LogoEngine

/-! ### What a parse asks for -/

/-- Statements are executed one after the other, up to a result. If `valued`, the result of the
last one is its value; the values of all others are settled. -/
inductive Executes (re : Reenter) (h : Heap) (valued : Bool) :
    Pins → List Node → World → Ref → World → Prop
  /-- Nothing is left to do, and there is no value. -/
  | nil (pins : Pins) (w : World) : Executes re h valued pins [] w Ref.nothing w
  /-- A statement leaves. -/
  | left {pins : Pins} {node : Node} {rest : List Node} {w w' : World} {r : Ref}
      (hends : node.Ends re h pins w (.left r w')) (hbreaks : w'.Breaks r) :
      Executes re h valued pins (node :: rest) w r w'
  /-- The last statement has a value. -/
  | value {pins : Pins} {node : Node} {w w' : World} {v : Ref} {regs : Array Value}
      (hvalued : valued = true) (hends : node.Ends re h pins w (.done v regs w')) :
      Executes re h valued pins [node] w v w'
  /-- A statement is done, and its value ends the run. -/
  | stops {pins : Pins} {node : Node} {rest : List Node} {w w₁ w' : World} {v r : Ref}
      {regs : Array Value} (hlast : rest = [] → valued = false)
      (hends : node.Ends re h pins w (.done v regs w₁))
      (hsettle : node.settle v w₁ = .ok (some r, w')) :
      Executes re h valued pins (node :: rest) w r w'
  /-- A statement is done without a value, and the next one follows. -/
  | next {pins : Pins} {node : Node} {rest : List Node} {w w₁ w₂ w' : World} {v r : Ref}
      {regs : Array Value} (hlast : rest = [] → valued = false)
      (hends : node.Ends re h pins w (.done v regs w₁))
      (hsettle : node.settle v w₁ = .ok (none, w₂))
      (hrest : Executes re h valued (.registers regs :: pins) rest w₂ r w') :
      Executes re h valued pins (node :: rest) w r w'

/-- Whether a group starts a numbered block of its own. -/
def tagged (group : List Node) : Bool :=
  (group.head?.map Node.isTag).getD false

/-- The parts of a parse that start with a numbered block, in order. -/
def numbered (groups : List (List Node)) : List (List (List Node)) :=
  groups.tails.filter fun part => (part.head?.map tagged).getD false

namespace Parse

/-- The statements from a numbered block on: block `k` starts at the `k`-th group after the first
that starts with `TAG`, and any other number means the start. -/
def statementsFrom (parse : Parse) (block : Int) : List Node :=
  let later := numbered (parse.filter fun group => !group.isEmpty).tail
  let part := if 1 ≤ block then later[(block - 1).toNat]? else none
  (part.getD parse).flatMap statements

/-- Whether a parse ends with a statement, whose value is the result. -/
def valued (parse : Parse) : Bool :=
  ((parse.filter fun group => !group.isEmpty).getLast?.map fun group =>
    !(statements group).isEmpty).getD false

end Parse

instance (node : Node) (v : Ref) : Run.Keeps World.Changes (node.settle v) := by
  unfold Node.settle
  infer_instance

section

variable {re : Reenter} {h : Heap} {valued : Bool} {pins : Pins} {w w' : World} {r v : Ref}
  {node : Node} {rest : List Node}

/-- What is left of a run: more statements, or the value `v` of the last one if it may have any. -/
def Finishes (re : Reenter) (h : Heap) (valued : Bool) (pins : Pins) (v : Ref) :
    List Node → World → Ref → World → Prop
  | [], w, r, w' => r = (if valued then v else Ref.nothing) ∧ w' = w
  | node :: rest, w, r, w' => Executes re h valued pins (node :: rest) w r w'

/-- What follows when the value of a statement is settled. -/
def Follows (re : Reenter) (h : Heap) (valued : Bool) (pins : Pins) (rest : List Node) (r : Ref)
    (w' : World) : Option Ref × World → Prop
  | (some e, w) => r = e ∧ w' = w
  | (none, w) => Executes re h valued pins rest w r w'

theorem executes_nil_iff :
    Executes re h valued pins [] w r w' ↔ r = Ref.nothing ∧ w' = w := by
  constructor
  · rintro ⟨⟩
    exact ⟨rfl, rfl⟩
  · rintro ⟨rfl, rfl⟩
    exact .nil pins w'

/-- The last statement. -/
theorem executes_value_iff (hvalued : valued = true) :
    Executes re h valued pins [node] w r w' ↔
      (node.Ends re h pins w (.left r w') ∧ w'.Breaks r) ∨
        ∃ regs, node.Ends re h pins w (.done r regs w') := by
  constructor
  · intro hexec
    cases hexec with
    | left hends hbreaks => exact .inl ⟨hends, hbreaks⟩
    | value _ hends => exact .inr ⟨_, hends⟩
    | stops hlast | next hlast => simp [hvalued] at hlast
  · rintro (⟨hends, hbreaks⟩ | ⟨regs, hends⟩)
    · exact .left hends hbreaks
    · exact .value hvalued hends

/-- Any other statement. -/
theorem executes_cons_iff (hlast : rest = [] → valued = false) :
    Executes re h valued pins (node :: rest) w r w' ↔
      (node.Ends re h pins w (.left r w') ∧ w'.Breaks r) ∨
        ∃ v regs w₁, node.Ends re h pins w (.done v regs w₁) ∧ ∃ out,
          node.settle v w₁ = .ok out ∧
            Follows re h valued (.registers regs :: pins) rest r w' out := by
  constructor
  · intro hexec
    cases hexec with
    | left hends hbreaks => exact .inl ⟨hends, hbreaks⟩
    | value hvalued => simp [hlast] at hvalued
    | stops _ hends hsettle => exact .inr ⟨_, _, _, hends, _, hsettle, rfl, rfl⟩
    | next _ hends hsettle hrest => exact .inr ⟨_, _, _, hends, _, hsettle, hrest⟩
  · rintro (⟨hends, hbreaks⟩ | ⟨v, regs, w₁, hends, ⟨_ | e, w₂⟩, hsettle, hfollows⟩)
    · exact .left hends hbreaks
    · exact .next hlast hends hsettle hfollows
    · obtain ⟨rfl, rfl⟩ := hfollows
      exact .stops hlast hends hsettle

/-- Statements are done one after the other without a value, up to those that are left to do. -/
inductive Skips (re : Reenter) (h : Heap) : Pins → List Node → World → Pins → List Node → World → Prop
  | refl {pins : Pins} {nodes : List Node} {w : World} : Skips re h pins nodes w pins nodes w
  | next {pins pins' : Pins} {node : Node} {rest later : List Node} {w w₁ w₂ w' : World} {v : Ref}
      {regs : Array Value} (hends : node.Ends re h pins w (.done v regs w₁))
      (hsettle : node.settle v w₁ = .ok (none, w₂))
      (hrest : Skips re h (.registers regs :: pins) rest w₂ pins' later w') :
      Skips re h pins (node :: rest) w pins' later w'

theorem Skips.suffix {nodes later : List Node} {pins' : Pins} {w₁ : World}
    (hskips : Skips re h pins nodes w pins' later w₁) : later <:+ nodes := by
  induction hskips with
  | refl => exact List.suffix_rfl
  | next _ _ _ ih => exact ih.trans (List.suffix_cons _ _)

/-- Statements come to what the rest comes to when some are done. -/
theorem Skips.executes_iff {nodes later : List Node} {pins' : Pins} {w₁ : World}
    (hskips : Skips re h pins nodes w pins' later w₁) (hlater : later ≠ [])
    (hbuilt : ∀ node ∈ nodes, node.Built h) :
    Executes re h valued pins nodes w r w' ↔ Executes re h valued pins' later w₁ r w' := by
  induction hskips with
  | refl => rfl
  | @next pins pins' node rest later w w₁ w₂ _ v regs hends hsettle hrest ih =>
    rw [List.forall_mem_cons] at hbuilt
    have hlast : rest = [] → valued = false := by
      rintro rfl
      exact absurd (List.suffix_nil.mp hrest.suffix) hlater
    rw [executes_cons_iff hlast, ← ih hlater hbuilt.2]
    constructor
    · -- the statement has no other ending
      rintro (⟨hleft, -⟩ | ⟨v', regs', w₁', hdone, out, hsettle', hfollows⟩)
      · cases hends.unique hbuilt.1 hleft
      · cases hends.unique hbuilt.1 hdone
        cases hsettle.symm.trans hsettle'
        exact hfollows
    · exact fun hexec => .inr ⟨v, regs, w₁, hends, (none, w₂), hsettle, hexec⟩

theorem finishes_of_not_valued {nodes : List Node} (hvalued : nodes = [] → valued = false) :
    Finishes re h valued pins v nodes w r w' ↔ Executes re h valued pins nodes w r w' := by
  cases nodes with
  | nil => simp [Finishes, hvalued, executes_nil_iff]
  | cons node rest => exact Iff.rfl

end

/-! ### Along the code -/

/-- The value of the last statement so far. -/
def resultOf (found : Array Value) : Option Reg → Ref
  | some r => (readReg found r).asDatum
  | none => Ref.nothing

/-- From a draft on, a run does what is left to do. -/
def Stage.Proceeds (s : Stage) (h : Heap) (valued : Bool) (limit : Nat) (d : Draft)
    (result : Option Reg) (nodes : List Node) : Prop :=
  ∀ ⦃pins w found r w'⦄, s.Waits limit pins d found → w.Holds nodes →
    (s.Leads (s.here d w found) (.returned r w') ↔
      Finishes s.re h valued pins (resultOf found result) nodes w r w')

section

variable {s : Stage} {h : Heap} {valued : Bool} {limit : Nat} {base copy : Draft} {node : Node}
  {value : Reg} {pins : Pins} {found : Array Value} {w w' : World} {r : Ref}

/-- A run that got somewhere has the result that it has from there. -/
theorem Stage.Leads.returned_iff {o o' : Machine.Outcome} (hleads : s.Leads o o') :
    s.Leads o (.returned r w') ↔ s.Leads o' (.returned r w') := by
  refine ⟨fun hreturns => ?_, hleads.trans⟩
  rcases Relation.ReflTransGen.total_of_right_unique Stage.step_unique hleads hreturns with h | h
  · exact h
  · rcases Relation.ReflTransGen.cases_head h with heq | ⟨_, ⟨_, hrunning, -⟩, -⟩
    · rw [heq]
      exact .refl
    · cases hrunning

theorem Stage.leads_returned_returned_iff {e : Ref} :
    s.Leads (.returned e w) (.returned r w') ↔ r = e ∧ w' = w := by
  constructor
  · intro hleads
    rcases Relation.ReflTransGen.cases_head hleads with heq | ⟨_, ⟨_, hrunning, -⟩, -⟩
    · cases heq
      exact ⟨rfl, rfl⟩
    · cases hrunning
  · rintro ⟨rfl, rfl⟩
    exact .refl

/-- A run through a statement, and what comes after it. -/
theorem Stage.Waits.returns_iff [s.re.Changes] (hwaits : s.Waits limit pins base found) (hproper : s.Proper)
    (hbuilt : node.Built h) (hwithin : copy.Within s.final) (hlimit : copy.types.size ≤ limit)
    (hrun : (lowerStatement h node).run base = (.ok value, copy))
    {K : Ref → Array Value → World → Prop}
    (hK : ∀ v regs w₁ found', node.Ends s.re h pins w (.done v regs w₁) →
      s.Waits limit (.registers regs :: pins) copy found' → (readReg found' value).asDatum = v →
      (s.Leads (s.here copy w₁ found') (.returned r w') ↔ K v regs w₁)) :
    s.Leads (s.here base w found) (.returned r w') ↔
      (node.Ends s.re h pins w (.left r w') ∧ w'.Breaks r) ∨
        ∃ v regs w₁, node.Ends s.re h pins w (.done v regs w₁) ∧ K v regs w₁ := by
  constructor
  · intro hleads
    rcases hwaits.ends_of_returns hproper hbuilt hwithin hlimit hrun hleads with
      hends | ⟨v, regs, w₁, found', hends, hwaits', hvalue, hrest⟩
    · exact .inl ⟨hends, hbuilt.breaks hends⟩
    · exact .inr ⟨v, regs, w₁, hends, (hK v regs w₁ found' hends hwaits' hvalue).mp hrest⟩
  · rintro (⟨hends, -⟩ | ⟨v, regs, w₁, hends, hk⟩)
    · exact hwaits.leads_of_left hproper hbuilt hwithin hlimit hrun hends
    · obtain ⟨found', hleads, hwaits', hvalue, -⟩ :=
        hwaits.leads_of_done hproper hbuilt hwithin hlimit hrun hends
      exact hleads.trans ((hK v regs w₁ found' hends hwaits' hvalue).mpr hk)

variable [s.re.Changes] (hproper : s.Proper) (hbuilt : node.Built h)
  (hwithin : copy.Within s.final) (hlimit : copy.types.size ≤ limit)
  (hrun : (lowerStatement h node).run base = (.ok value, copy))

include hproper hbuilt hwithin hlimit hrun

/-- The last statement of a parse. -/
theorem Stage.proceeds_value (hvalued : valued = true)
    (hnext : s.Proceeds h valued limit copy (some value) []) (result : Option Reg) :
    s.Proceeds h valued limit base result [node] := by
  intro pins w found r w' hwaits hholds
  rw [hwaits.returns_iff hproper hbuilt hwithin hlimit hrun
    (K := fun v regs w₁ => r = v ∧ w' = w₁), Finishes, executes_value_iff hvalued]
  · grind
  · intro v regs w₁ found' hends hwaits' hvalue
    have hholds' := (hholds.changes hends.changes).mono (List.nil_subset _)
    rw [hnext hwaits' hholds', Finishes, if_pos hvalued, resultOf, hvalue]

/-- A statement that is not the last one of a parse. -/
theorem Stage.proceeds_next {next : Reg} {d : Draft} {rest : List Node}
    (hlast : rest = [] → valued = false) (hvalue : value.index < copy.types.size)
    (hsettled : settled node.returns value copy = (next, d)) (hfinal : d.Within s.final)
    (hnext : s.Proceeds h valued limit d (some next) rest) (result : Option Reg) :
    s.Proceeds h valued limit base result (node :: rest) := by
  intro pins w found r w' hwaits hholds
  rw [hwaits.returns_iff hproper hbuilt hwithin hlimit hrun
    (K := fun v regs w₁ => ∃ out, node.settle v w₁ = .ok out ∧
      Follows s.re h valued (.registers regs :: pins) rest r w' out), Finishes,
    executes_cons_iff hlast]
  intro v regs w₁ found' hends hwaits' hread
  have hholds₁ := hholds.changes hends.changes
  -- the value is settled, whatever it is
  have hnone : node.returns = .nothing → w₁.heap.isFlow (readReg found' value).asDatum = false ∧
      w₁.heap.isData (readReg found' value).asDatum = false := by
    intro hreturns
    rw [hread]
    exact hbuilt.silent hreturns (hholds.mono (by simp)) hends
  obtain ⟨out, hout, hruns⟩ := hwaits'.runs_settled (w := w₁) hvalue node hnone
  rw [hread] at hout
  obtain ⟨o, hleads, hsettles⟩ := hruns (by rw [hsettled]; exact hfinal)
  rw [hsettled] at hsettles
  rw [hleads.returned_iff, hout]
  simp only [Except.ok.injEq, exists_eq_left']
  obtain ⟨_ | e, w₂⟩ := out
  · obtain ⟨found'', hwaits'', rfl⟩ := hsettles
    have hholds₂ := (hholds₁.changes (Run.Changes.changes hout)).mono (List.subset_cons_self _ _)
    rw [hnext hwaits'' hholds₂, finishes_of_not_valued hlast]
    rfl
  · rw [show o = .returned e w₂ from hsettles, Stage.leads_returned_returned_iff]
    rfl

end

/-! ### Nodes and groups -/

/-- Which node of those that are left is the last one of the parse, if it may have a value. -/
def IsLast (last : Option Ref) (valued : Bool) (nodes : List Node) : Prop :=
  ∀ before node after, nodes = before ++ node :: after →
    (last = some node.ref ↔ after = [] ∧ valued = true)

section

variable {h : Heap} {last : Option Ref}

theorem IsLast.of_append {valued : Bool} {nodes nodes' : List Node}
    (hlast : IsLast last valued (nodes ++ nodes')) : IsLast last valued nodes' := by
  intro before node after heq
  refine hlast (nodes ++ before) node after ?_
  rw [heq, List.append_assoc]

theorem IsLast.tail {valued : Bool} {node : Node} {nodes : List Node}
    (hlast : IsLast last valued (node :: nodes)) : IsLast last valued nodes :=
  IsLast.of_append (show IsLast last valued ([node] ++ nodes) from hlast)

/-- The code of a node is followed by that of the next ones. -/
theorem lowerNodes_cons {node : Node} (nodes : List Node) (result : Option Reg) {r : Reg}
    {d d' : Draft}
    (hrun : (do
      let raw ← lowerNode h node (if last = some node.ref then .datumOrNothing else .nothing)
      Emit.cast raw (h.displayName node.ref) node.returns
        (if last = some node.ref then .datumOrNothing else .nothing) : Lower Reg).run d =
      (.ok r, d')) :
    (lowerNodes h last result (node :: nodes)).run d = (lowerNodes h last (some r) nodes).run d' := by
  refine Eq.trans ?_ (Lower.run_bind (f := fun r => lowerNodes h last (some r) nodes) hrun)
  rw [lowerNodes, bind_assoc]

/-- The code of nodes, one after the other. -/
theorem exists_lowerNodes {nodes : List Node} (hnodes : ∀ node ∈ nodes, node.Built h)
    (result : Option Reg) (d : Draft) :
    ∃ result' d', (lowerNodes h last result nodes).run d = (.ok result', d') ∧ d.Below d' ∧
      (nodes = [] → result' = result) ∧
      ∀ (s : Stage) [s.re.Changes] (valued : Bool) (limit : Nat) (rest : List Node), s.Proper →
        d'.Within s.final → d'.types.size ≤ limit → IsLast last valued (nodes ++ rest) →
        s.Proceeds h valued limit d' result' rest →
        s.Proceeds h valued limit d result (nodes ++ rest) := by
  -- backwards from what is left to do: if it works behind the last node, it does so before each
  induction nodes generalizing d result with
  | nil => exact ⟨result, d, rfl, .refl, fun _ => rfl, fun _ _ _ _ _ _ _ _ _ hrest => hrest⟩
  | cons node nodes ih =>
    rw [List.forall_mem_cons] at hnodes
    obtain ⟨value, copy, hrun, hle, hvalue, -⟩ := lowerStatement_spec hnodes.1 d
    -- only the node that gives the value of the list is asked for one, and none comes after it
    by_cases hnode : last = some node.ref
    · obtain ⟨result', d', hrun', hle', -, hrest⟩ := ih hnodes.2 (some value) copy
      refine ⟨result', d', ?_, hle.trans hle', by simp, ?_⟩
      · refine (lowerNodes_cons nodes result ?_).trans hrun'
        simp only [if_pos hnode]
        exact hrun
      · intro s _ valued limit rest hproper hwithin hlimit hlast hproceeds
        obtain ⟨hafter, hvalued⟩ := (hlast [] node (nodes ++ rest) rfl).mp hnode
        have hcopy := hrest s valued limit rest hproper hwithin hlimit hlast.tail hproceeds
        rw [hafter] at hcopy
        rw [List.cons_append, hafter]
        exact s.proceeds_value hproper hnodes.1 (hle' _ hwithin) (hle'.types_size_le.trans hlimit)
          hrun hvalued hcopy result
    · have hle₁ : copy.Below (settled node.returns value copy).2 := .of_emit _
      generalize hsettled : settled node.returns value copy = out at hle₁
      obtain ⟨next, d₁⟩ := out
      obtain ⟨result', d', hrun', hle', -, hrest⟩ := ih hnodes.2 (some next) d₁
      refine ⟨result', d', ?_, hle.trans (hle₁.trans hle'), by simp, ?_⟩
      · refine (lowerNodes_cons nodes result ?_).trans hrun'
        simp only [if_neg hnode]
        rw [lowerStatement_settled hnodes.1]
        refine (Lower.run_bind hrun).trans ?_
        exact congrArg (fun p => (Except.ok p.1, p.2)) hsettled
      · intro s _ valued limit rest hproper hwithin hlimit hlast hproceeds
        have hend : nodes ++ rest = [] → valued = false := by
          intro hafter
          have hiff := hlast [] node (nodes ++ rest) rfl
          simpa [hafter, hnode] using hiff
        have hnext := hrest s valued limit rest hproper hwithin hlimit hlast.tail hproceeds
        exact s.proceeds_next hproper hnodes.1 ((hle₁.trans hle') _ hwithin)
          ((hle₁.trans hle').types_size_le.trans hlimit) hrun hend hvalue.lt_size hsettled
          (hle' _ hwithin) hnext result

/-- From a label on, a run does what is left to do. -/
def Stage.Enters (s : Stage) (h : Heap) (valued : Bool) (limit : Nat) (l : Label)
    (nodes : List Node) : Prop :=
  ∀ ⦃pins w found r w'⦄, s.Waits limit pins {} found → w.Holds nodes →
    (s.Leads (s.at_ l w found) (.returned r w') ↔ Executes s.re h valued pins nodes w r w')

/-- The draft at the start of a numbered block. -/
def Draft.started (d : Draft) : Draft :=
  (Emit.endBlock (.jump ⟨d.nextLabel⟩) ⟨d.nextLabel⟩ (Emit.freshLabel d).2).2

/-- A numbered block is entered from the one before, and from the table of contents. -/
theorem Stage.proceeds_started {s : Stage} {valued : Bool} {limit : Nat} {d : Draft}
    {nodes : List Node} (hwithin : d.started.Within s.final) (hend : nodes = [] → valued = false)
    (hnext : s.Proceeds h valued limit d.started none nodes) (result : Option Reg) :
    s.Proceeds h valued limit d result nodes ∧ s.Enters h valued limit ⟨d.nextLabel⟩ nodes := by
  have hblock : ⟨d.label, d.body.toList, .jump ⟨d.nextLabel⟩⟩ ∈ s.final.blocks :=
    hwithin.blocks _ (Array.mem_push.mpr (.inr rfl))
  constructor
  · intro pins w found r w' hwaits hholds
    have hleads : s.Leads (s.here d w found) (s.here d.started w found) := Stage.leads_exitTo hblock
    rw [hleads.returned_iff, hnext (hwaits.grow List.prefix_rfl) hholds,
      finishes_of_not_valued hend, finishes_of_not_valued hend]
  · intro pins w found r w' hwaits hholds
    have hhere : s.at_ ⟨d.nextLabel⟩ w found = s.here d.started w found := rfl
    rw [hhere, hnext (hwaits.grow (List.nil_prefix)) hholds, finishes_of_not_valued hend]

theorem numbered_cons (group : List Node) (groups : List (List Node)) :
    numbered (group :: groups) =
      if tagged group then (group :: groups) :: numbered groups else numbered groups := by
  rw [numbered, List.tails_cons, List.filter_cons]
  rfl

/-- **The code of groups**, one after the other. -/
theorem exists_lowerGroups {groups : List (List Node)}
    (hgroups : ∀ group ∈ groups, ∀ node ∈ group, node.Built h) (line : Option Ref)
    (result : Option Reg) (starts : List Label) (d : Draft) :
    ∃ result' labels d', (lowerGroups h line last result starts groups).run d =
        (.ok (result', starts ++ labels), d') ∧ d.Below d' ∧
      (groups = [] → result' = result) ∧
      (∀ group, groups.getLast? = some group → group ≠ [] → statements group = [] →
        result' = none) ∧
      ∀ (s : Stage) [s.re.Changes] (valued : Bool) (limit : Nat), s.Proper →
        d'.Within s.final → d'.types.size ≤ limit →
        IsLast last valued (groups.flatMap statements) →
        (∀ part, part <:+ groups → part ≠ [] → part.flatMap statements = [] → valued = false) →
        s.Proceeds h valued limit d' result' [] →
        s.Proceeds h valued limit d result (groups.flatMap statements) ∧
          List.Forall₂ (fun l part => s.Enters h valued limit l (part.flatMap statements)) labels
            (numbered groups) := by
  -- on the groups; the labels found are those of the numbered rests of them
  induction groups generalizing d result starts with
  | nil =>
    refine ⟨result, [], d, by rw [List.append_nil]; rfl, .refl, fun _ => rfl, by simp, ?_⟩
    intro s _ valued limit _ _ _ _ _ hproceeds
    exact ⟨hproceeds, .nil⟩
  | cons group groups ih =>
    rw [List.forall_mem_cons] at hgroups
    have hstatements : ∀ node ∈ statements group, node.Built h :=
      fun node hnode => hgroups.1 node ((List.dropWhile_sublist _).subset hnode)
    rw [numbered_cons]
    by_cases htag : tagged group = true
    · -- the labels are noted, and the block of the group is entered
      let d₁ := (noteTags h line starts.length (group.takeWhile Node.isTag) d).2
      have hle₁ : d.Below d₁ := .of_emit _
      have hle₂ : d₁.Below d₁.started :=
        (Draft.Below.of_emit Emit.freshLabel).trans (.of_emit (Emit.endBlock _ _))
      obtain ⟨result₁, d₂, hrun₂, hle₃, hresult₁, hnodes⟩ :=
        @exists_lowerNodes h last _ hstatements none d₁.started
      obtain ⟨result', labels, d', hrun', hle', hsame, hnone, hrest⟩ :=
        ih hgroups.2 result₁ (starts ++ [⟨d₁.nextLabel⟩]) d₂
      refine ⟨result', ⟨d₁.nextLabel⟩ :: labels, d', ?_,
        hle₁.trans (hle₂.trans (hle₃.trans hle')), by simp, ?_, ?_⟩
      · have htag' : (group.head?.map Node.isTag).getD false = true := htag
        rw [lowerGroups, if_pos htag']
        refine (Lower.run_bind (m := liftM (noteTags h line starts.length _)) rfl).trans ?_
        refine (Lower.run_bind (m := liftM Emit.freshLabel) rfl).trans ?_
        refine (Lower.run_bind (m := liftM (Emit.endBlock _ _)) rfl).trans ?_
        refine (Lower.run_bind hrun₂).trans (hrun'.trans ?_)
        rw [List.append_assoc]
        rfl
      · intro last' hlast' hne hempty
        cases groups with
        | nil =>
          obtain rfl : group = last' := by simpa using hlast'
          rw [hsame rfl, hresult₁ hempty]
        | cons next groups => exact hnone last' (by simpa using hlast') hne hempty
      · intro s _ valued limit hproper hwithin hlimit hlast hend hproceeds
        rw [if_pos htag]
        rw [List.flatMap_cons] at hlast ⊢
        obtain ⟨hafter, hlabels⟩ := hrest s valued limit hproper hwithin hlimit hlast.of_append
          (fun part hpart => hend part (hpart.trans (List.suffix_cons _ _))) hproceeds
        have hgroup := hnodes s valued limit _ hproper (hle' _ hwithin)
          (hle'.types_size_le.trans hlimit) hlast hafter
        obtain ⟨hbefore, henter⟩ := Stage.proceeds_started ((hle₃.trans hle') _ hwithin)
          (fun hempty => hend _ List.suffix_rfl (by simp) (by simpa using hempty)) hgroup result
        refine ⟨?_, .cons ?_ hlabels⟩
        · intro pins w found r w' hwaits hholds
          exact hbefore (hwaits.grow List.prefix_rfl) hholds
        · rw [List.flatMap_cons]
          exact henter
    · have htag' : ¬ (group.head?.map Node.isTag).getD false = true := htag
      have hgroup := statements_of_not_tag htag'
      obtain ⟨result₁, d₁, hrun₁, hle₁, -, hnodes⟩ :=
        @exists_lowerNodes h last _ hgroups.1 result d
      obtain ⟨result', labels, d', hrun', hle', hsame, hnone, hrest⟩ :=
        ih hgroups.2 result₁ starts d₁
      refine ⟨result', labels, d', ?_, hle₁.trans hle', by simp, ?_, ?_⟩
      · rw [lowerGroups, if_neg htag']
        exact (Lower.run_bind hrun₁).trans hrun'
      · intro last' hlast' hne hempty
        cases groups with
        | nil =>
          obtain rfl : group = last' := by simpa using hlast'
          rw [hgroup] at hempty
          exact absurd hempty hne
        | cons next groups => exact hnone last' (by simpa using hlast') hne hempty
      · intro s _ valued limit hproper hwithin hlimit hlast hend hproceeds
        rw [if_neg htag]
        rw [List.flatMap_cons, hgroup] at hlast ⊢
        obtain ⟨hafter, hlabels⟩ := hrest s valued limit hproper hwithin hlimit hlast.of_append
          (fun part hpart => hend part (hpart.trans (List.suffix_cons _ _))) hproceeds
        exact ⟨hnodes s valued limit _ hproper (hle' _ hwithin) (hle'.types_size_le.trans hlimit)
          hlast hafter, hlabels⟩

end

end LogoEngine
