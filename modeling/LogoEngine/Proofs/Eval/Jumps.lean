import LogoEngine.Proofs.Eval.Handing
import LogoEngine.Proofs.Lower.Labels

/-!
# Jumps to labels

`GOTO` hands a token up to the body of its procedure, which is then run again in the same frame, from
the block that the procedure has recorded for the label. A procedure that **knows** the labels of the
parse whose code it runs goes on with the statements after the label, and says that it does not like
a label that leads no part of the parse.

What a procedure knows is recorded while its body is lowered for it, so it knows the labels of a body
that was never compiled before.

Main statement: `procedure_of_jumps`.
-/

namespace LogoEngine

/-! ### What a procedure knows -/

/-- A procedure has recorded the labels of a parse, and no others. -/
def World.Knows (w : World) (procedure : Ref) (h : Heap) (parse : Parse) : Prop :=
  ∃ p line, w.heap.procedure? procedure = some p ∧
    ∀ key, p.labels.get? key = Labels.last? (parse.labels h line) key

section

variable {w w' : World} {procedure : Ref} {h : Heap} {parse : Parse}

theorem World.Knows.congr (hknows : w.Knows procedure h parse)
    (hsame : (w'.heap.procedure? procedure).map Procedure.labels =
      (w.heap.procedure? procedure).map Procedure.labels) : w'.Knows procedure h parse := by
  obtain ⟨p, line, hp, hlabels⟩ := hknows
  rw [hp, Option.map_some] at hsame
  obtain ⟨p', hp', hlabels'⟩ := Option.map_eq_some_iff.mp hsame
  exact ⟨p', line, hp', by rw [hlabels']; exact hlabels⟩

/-- What is recorded is known of a procedure that knew nothing. -/
theorem Heap.procedure?_recordLabels {h : Heap} {procedure : Ref} {p : Procedure}
    (hp : h.procedure? procedure = some p) (labels : Labels) :
    (h.recordLabels procedure labels).procedure? procedure =
      some { p with labels := labels.foldl (fun t l => t.insert l.1 l.2) p.labels } := by
  have hget : h.get procedure = .procedure p := by
    rw [Heap.procedure?] at hp
    cases hobject : h.get procedure with
    | procedure q =>
      rw [hobject] at hp
      exact congrArg Object.procedure (Option.some.inj hp)
    | _ =>
      rw [hobject] at hp
      cases hp
  rw [Heap.recordLabels, hget]
  dsimp only
  rw [Heap.procedure?, Heap.get_set_self _ _ (Heap.lt_size_of_get (by simp [hget]))]
  rfl

/-- A procedure knows the labels of its body when the body is compiled for the first time. -/
theorem World.knows_of_compileSource {pins : Pins} {source : Ref} {cell : Cell} {entry : Entry}
    {p : Procedure} (hcell : w.heap.cell? source = some cell) (hparse : cell.parse = some parse)
    (hlater : w.lastDefinition < cell.stamp) (hmiss : w.cache.find? cell.id = none)
    (hp : w.heap.procedure? procedure = some p) (hlabels : p.labels = [])
    (hbuilt : parse.Built w.heap)
    (h : (compileSource pins source (some procedure)).run w = .ok (.ok entry, w')) :
    w'.Knows procedure w.heap parse := by
  obtain ⟨-, name, hheap⟩ := compileSource_of_miss hcell hparse hlater hmiss h
  rw [lowerUnit_labels hbuilt] at hheap
  refine ⟨_, some source, by rw [hheap]; exact Heap.procedure?_recordLabels hp _, fun key => ?_⟩
  rw [get?_foldl_insert, hlabels]
  exact Option.or_none

end

/-! ### Jumps -/

/-- Statements are executed, and those after a label whenever there is a jump to it, in a state of
which `known` holds. -/
inductive JumpsWhile (known : World → Prop) (h : Heap) (parse : Parse) (pins : Pins) :
    List Node → World → Ref → World → Prop
  /-- The statements come to what is no jump. -/
  | ends {n : Nat} {nodes : List Node} {w w' : World} {r : Ref}
      (hexec : Executes (engine n) h parse.valued pins nodes w r w')
      (hgoto : ∀ source tag, w'.heap.get r ≠ .goto source tag) :
      JumpsWhile known h parse pins nodes w r w'
  /-- They come to a jump, and those after the last label of its name are next. -/
  | goto {n : Nat} {nodes : List Node} {w w₁ w' : World} {t r source tag : Ref}
      {part : List (List Node)} (hexec : Executes (engine n) h parse.valued pins nodes w t w₁)
      (htoken : w₁.heap.get t = .goto source tag) (hknown : known w₁)
      (hpart : parse.lastPart? h (w₁.heap.keyOf tag) = some part)
      (hrest : JumpsWhile known h parse pins (part.flatMap statements) w₁ r w') :
      JumpsWhile known h parse pins nodes w r w'
  /-- They come to a jump, and there is no label of its name. -/
  | lost {n : Nat} {nodes : List Node} {w w₁ w' : World} {t r source tag : Ref}
      (hexec : Executes (engine n) h parse.valued pins nodes w t w₁)
      (htoken : w₁.heap.get t = .goto source tag) (hknown : known w₁)
      (hpart : parse.lastPart? h (w₁.heap.keyOf tag) = none)
      (hraise : raiseDoesntLike source tag w₁ = .ok (r, w')) :
      JumpsWhile known h parse pins nodes w r w'

/-- Statements are executed, and those after a label whenever there is a jump to it, by a procedure
that knows the labels. -/
abbrev Jumps (h : Heap) (parse : Parse) (pins : Pins) (procedure : Ref) :
    List Node → World → Ref → World → Prop :=
  JumpsWhile (fun w => w.Knows procedure h parse) h parse pins

section

variable {h : Heap} {parse : Parse} {pins : Pins} {procedure r : Ref} {code : Linked}
  {nodes : List Node} {w w₁ w' : World}

theorem JumpsWhile.mono {known known' : World → Prop} (hknown : ∀ w, known w → known' w)
    (hjumps : JumpsWhile known h parse pins nodes w r w') :
    JumpsWhile known' h parse pins nodes w r w' := by
  induction hjumps with
  | ends hexec hgoto => exact .ends hexec hgoto
  | goto hexec htoken hknows hpart _ ih => exact .goto hexec htoken (hknown _ hknows) hpart ih
  | lost hexec htoken hknows hpart hraise =>
    exact .lost hexec htoken (hknown _ hknows) hpart hraise

/-- A procedure that knows the labels of a parse finds the statements after them, and no others. -/
theorem World.Knows.rel_target (hknows : w.Knows procedure h parse) (key : String) :
    Option.Rel (fun (target : LabelTarget) part =>
        parse.statementsFrom target.block = part.flatMap statements)
      ((w.heap.procedure? procedure).bind fun p => p.labels.get? key) (parse.lastPart? h key) := by
  obtain ⟨p, line, hp, hlabels⟩ := hknows
  rw [hp, Option.bind_some, hlabels]
  exact parse.rel_target h line key

/-- **The code of a parse jumps** as its statements do. -/
theorem exists_runJumps_of_jumps (hcode : code.Renders h parse) (hbuilt : parse.Built h)
    (hdistinct : (parse.flatten.map Node.ref).Nodup)
    (hjumps : Jumps h parse (.constants code.constants :: pins) procedure nodes w r w')
    (hholds : w.Holds parse.flatten) {block : Int} (hnodes : nodes = parse.statementsFrom block) :
    ∃ k, runJumps (engine k) k pins procedure code k block w = .ok (r, w') := by
  induction hjumps generalizing block with
  | @ends n nodes w w' r hexec hgoto =>
    subst hnodes
    obtain ⟨fuel, hrun⟩ := (hcode.runCode_iff hbuilt hdistinct hholds).mpr hexec
    exact exists_runJumps hrun hgoto
  | @goto n nodes w w₁ w' t r source tag part hexec htoken hknows hpart _ ih =>
    subst hnodes
    obtain ⟨fuel, hrun⟩ := (hcode.runCode_iff hbuilt hdistinct hholds).mpr hexec
    have hrel := hknows.rel_target (w₁.heap.keyOf tag)
    rw [hpart] at hrel
    generalize hfound : (w₁.heap.procedure? procedure).bind _ = found at hrel
    -- the label is found, and the code goes on from its block
    cases hrel with
    | @some target _ hstatements =>
      have hholds' := hholds.changes (Run.Changes.changes hrun)
      obtain ⟨k, hrest⟩ := ih hholds' hstatements.symm
      obtain ⟨m, hn, hfuel, hk⟩ : ∃ m, n ≤ m + 1 ∧ fuel ≤ m + 1 ∧ k ≤ m :=
        ⟨max n (max fuel k), by omega, by omega, by omega⟩
      refine ⟨m + 1, ?_⟩
      rw [runJumps_of_runCode (runCode_le (engine_le hn) hfuel _ _ _ hrun), htoken]
      dsimp only
      rw [hfound]
      have hk' := Nat.le_succ_of_le hk
      exact runJumps_le (engine_le hk') hk' _ _ _ hk _ hrest
  | @lost n nodes w w₁ w' t r source tag hexec htoken hknows hpart hraise =>
    subst hnodes
    obtain ⟨fuel, hrun⟩ := (hcode.runCode_iff hbuilt hdistinct hholds).mpr hexec
    have hrel := hknows.rel_target (w₁.heap.keyOf tag)
    rw [hpart] at hrel
    generalize hfound : (w₁.heap.procedure? procedure).bind _ = found at hrel
    -- the label is not found
    cases hrel
    refine ⟨max n fuel + 1, ?_⟩
    rw [runJumps_of_runCode (runCode_le (engine_le (by omega)) (by omega) _ _ _ hrun), htoken]
    dsimp only
    rw [hfound]
    exact hraise

/-- **A jump to a label goes on after the label, in the same frame.** The call of a procedure that
knows the labels of its body executes the statements of the body, and after each jump those that
follow the last label of its name at the start of a group. Without such a label it comes to the error
that `GOTO` does not like it. -/
theorem procedure_of_jumps {node : Ref} {args : List Ref} {w₂ : World}
    (hcall : CallEnters pins node args w procedure code w₁) (hcode : code.Renders h parse)
    (hbuilt : parse.Built h) (hdistinct : (parse.flatten.map Node.ref).Nodup)
    (hholds : w₁.Holds parse.flatten)
    (hjumps : Jumps h parse (.constants code.constants :: .refs [node, node, procedure] :: pins)
      procedure (parse.statementsFrom 0) w₁ r w₂) :
    Activation.BodyComesTo { node, call := node, args } pins w r w₂ ∧
      ((∀ source call args, w₂.heap.get r ≠ .continuation source call args) →
        ∃ least, ∀ n ≥ least, (engine n).procedure pins node args w =
          Activation.conclude { node, call := node, args } r
            { w₂ with frames := w₂.frames.pop }) := by
  obtain ⟨k, hruns⟩ := exists_runJumps_of_jumps hcode hbuilt hdistinct hjumps hholds rfl
  have hcomes := hcall.bodyComesTo hruns
  exact ⟨hcomes, hcomes.exists_procedure⟩

/-- **Jumps in a procedure that is called for the first time**, or whose body was never compiled
before: what the procedure has to know is recorded when its body is compiled, so all that is asked of
a jump is that no labels were recorded for the procedure since. -/
theorem procedure_of_jumps_of_compile {node body : Ref} {args : List Ref} {cell : Cell} {p : Procedure}
    {entry : Entry} {held : Pins} {w₀ w₁ w₂ : World} (hcell : w₀.heap.cell? body = some cell)
    (hparse : cell.parse = some parse) (hlater : w₀.lastDefinition < cell.stamp)
    (hmiss : w₀.cache.find? cell.id = none) (hp : w₀.heap.procedure? procedure = some p)
    (hlabels : p.labels = []) (hbuilt : parse.Built w₀.heap)
    (hdistinct : (parse.flatten.map Node.ref).Nodup)
    (hcompile : (compileSource held body (some procedure)).run w₀ = .ok (.ok entry, w₁))
    (hcall : CallEnters pins node args w procedure entry.code (w₁.onLine body))
    (hholds : (w₁.onLine body).Holds parse.flatten)
    (hjumps : JumpsWhile (fun w => (w.heap.procedure? procedure).map Procedure.labels =
        (w₁.heap.procedure? procedure).map Procedure.labels) w₀.heap parse
      (.constants entry.code.constants :: .refs [node, node, procedure] :: pins)
      (parse.statementsFrom 0) (w₁.onLine body) r w₂) :
    Activation.BodyComesTo { node, call := node, args } pins w r w₂ ∧
      ((∀ source call args, w₂.heap.get r ≠ .continuation source call args) →
        ∃ least, ∀ n ≥ least, (engine n).procedure pins node args w =
          Activation.conclude { node, call := node, args } r
            { w₂ with frames := w₂.frames.pop }) := by
  have hknows : w₁.Knows procedure w₀.heap parse :=
    World.knows_of_compileSource hcell hparse hlater hmiss hp hlabels hbuilt hcompile
  have hcode := (compileSource_of_miss hcell hparse hlater hmiss hcompile).1
  obtain ⟨k, hruns⟩ := exists_runJumps_of_jumps hcode hbuilt hdistinct
    (hjumps.mono fun w hsame => hknows.congr hsame) hholds rfl
  have hcomes := hcall.bodyComesTo hruns
  exact ⟨hcomes, hcomes.exists_procedure⟩

end

/-! ### A jump over a statement -/

namespace Detour

/-- The literal `a`. -/
def literal : Node := .call ⟨⟨4⟩, 4, ⟨3⟩, .literal, .datum⟩ [.datum ⟨3⟩]

/-- The statement `goto "a`. -/
def jumping : Node := .call ⟨⟨5⟩, 5, ⟨2⟩, .goto, .nothing⟩ [literal]

/-- The statement `print "a`. -/
def printing : Node := .call ⟨⟨7⟩, 7, ⟨6⟩, .printing, .nothing⟩ [literal]

/-- The label `tag "a`. -/
def label : Node := .call ⟨⟨9⟩, 9, ⟨8⟩, .tag, .nothing⟩ [literal]

/-- The statement `output "a`. -/
def outputting : Node := .call ⟨⟨11⟩, 11, ⟨10⟩, .output, .nothing⟩ [literal]

/-- A body that jumps over `print "a`. -/
def body : Parse := [[jumping], [printing], [label, outputting]]

/-- A procedure `p` with this body, which was never compiled. -/
def heap : Heap where
  objects := #[.nothing, .word (.text "p"), .word (.text "goto"), .word (.text "a"),
    .node ⟨⟨4⟩, 4, ⟨3⟩, .literal, .datum⟩ [.datum ⟨3⟩],
    .node ⟨⟨5⟩, 5, ⟨2⟩, .goto, .nothing⟩ [literal], .word (.text "print"),
    .node ⟨⟨7⟩, 7, ⟨6⟩, .printing, .nothing⟩ [literal], .word (.text "tag"),
    .node ⟨⟨9⟩, 9, ⟨8⟩, .tag, .nothing⟩ [literal], .word (.text "output"),
    .node ⟨⟨11⟩, 11, ⟨10⟩, .output, .nothing⟩ [literal],
    .node ⟨⟨12⟩, 12, ⟨1⟩, .execProcedure, .datumOrNothing⟩ [], .list ⟨13, none, 1, some body⟩,
    procedureObject "P" [] 13]

/-- The procedure is defined. -/
def world : World where
  heap := heap
  procedures := [("P", ⟨14⟩)]

/-- The state in which the body is compiled. -/
def called : World :=
  { world with frames := world.frames.push ⟨14⟩ ⟨12⟩ }

/-- What the code of the body holds on to. -/
def pins : Pins := [.refs [⟨12⟩, ⟨12⟩, ⟨14⟩]]

/-- Whether the body jumps to the label, and from there comes to `output`. -/
def jumps : Bool :=
  match (compileSource pins ⟨13⟩ (some ⟨14⟩)).run called with
  | .ok (.ok entry, w₁) =>
    match runCode (engine 1) 20 pins entry.code 0 (w₁.onLine ⟨13⟩) with
    | .ok (t, w₂) =>
      match w₂.heap.get t with
      | .goto _ tag =>
        match runCode (engine 1) 20 pins entry.code 1 w₂ with
        | .ok (r, w₃) =>
          match w₃.heap.get r with
          | .ret _ (some v) =>
            w₁.keeps (body.flatten.map Node.ref) && w₂.heap.keyOf tag = "A" &&
              (w₂.heap.procedure? ⟨14⟩).map Procedure.labels =
                (w₁.heap.procedure? ⟨14⟩).map Procedure.labels &&
              v = ⟨3⟩ && w₃.host.journal.output = ""
          | _ => false
        | _ => false
      | _ => false
    | _ => false
  | _ => false

theorem jumps_eq_true : jumps = true := by
  decide +kernel

theorem built_body : body.Built heap := by
  decide +kernel

/-- The call of `p` has the value `a`, and nothing is printed. -/
theorem procedure_eq_a : ∃ least w', w'.host.journal.output = "" ∧ ∀ n ≥ least,
    (engine n).procedure [] ⟨12⟩ [] world = .ok (⟨3⟩, w') := by
  have hjumps := jumps_eq_true
  rw [jumps] at hjumps
  split at hjumps
  · next entry w₁ hcompile =>
    split at hjumps
    · next t w₂ hrun =>
      split at hjumps
      · next source tag htoken =>
        split at hjumps
        · next r w₃ hrun' =>
          split at hjumps
          · next source' v hret =>
            simp only [Bool.and_eq_true, decide_eq_true_eq] at hjumps
            obtain ⟨⟨⟨⟨hkeeps, hkey⟩, hlabels⟩, rfl⟩, hsilent⟩ := hjumps
            have hcall : CallEnters [] ⟨12⟩ [] world ⟨14⟩ entry.code (w₁.onLine ⟨13⟩) :=
              callEnters_of_compile rfl (by decide) rfl hcompile
            have hcode : entry.code.Renders heap body :=
              World.renders_of_keepsParse (w := called) rfl hcompile
            have hknows : w₁.Knows ⟨14⟩ heap body := World.knows_of_compileSource (w := called) rfl rfl
              (by decide) rfl rfl rfl built_body hcompile
            have hholds : (w₁.onLine ⟨13⟩).Holds body.flatten := World.holds_of_keeps hkeeps
            -- from the start to the jump, and from the label to the way out
            have hfirst := (hcode.runCode_iff built_body (by decide) hholds).mp ⟨20, hrun⟩
            have hholds' := hholds.changes (Run.Changes.changes hrun)
            have hsecond := (hcode.runCode_iff built_body (by decide) hholds').mp ⟨20, hrun'⟩
            obtain ⟨-, hprocedure⟩ := procedure_of_jumps hcall hcode built_body (by decide) hholds
              (.goto hfirst htoken (hknows.congr hlabels) (by rw [hkey]; rfl)
                (.ends hsecond (by simp [hret])))
            obtain ⟨least, hcalls⟩ := hprocedure (by simp [hret])
            refine ⟨least, { w₃ with frames := w₃.frames.pop }, hsilent, fun n hn => ?_⟩
            rw [hcalls n hn, Activation.conclude, Run.heap_bind, hret]
            rfl
          · cases hjumps
        · cases hjumps
      · cases hjumps
    · cases hjumps
  · cases hjumps

end Detour

end LogoEngine
