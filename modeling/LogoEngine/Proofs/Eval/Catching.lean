import LogoEngine.Eval.TopLevel
import LogoEngine.Proofs.Eval.Jumps
import LogoEngine.Proofs.Heap.Tidy
import LogoEngine.Proofs.Lower.Catching

/-!
# Throws reach their catch

A throw goes up through every list, loop and procedure that it is made in, to the innermost `CATCH`
whose tag has the same key. Nothing is run any more on the way: things are put back and calls are
left (`World.Unwinds`). A `CATCH` with another tag hands the very same error on, and what no `CATCH`
takes is what a run at the top level ends with.

`Raises` is the nest: statements, code, lists, bodies and calls, each of which has the next one run,
around what raises the error. No `CATCH` of the nest takes it.

Main statement: `Raises.reaches_catch`.
-/

namespace LogoEngine

/-! ### What is undone -/

namespace World

/-- One thing that is done when a run is given up: something is put back, or a call is left. -/
inductive Unwind : World → World → Prop
  | restore {w w' : World} (h : w.Restore w') : Unwind w w'
  | leave (w : World) : Unwind w { w with frames := w.frames.pop }

/-- A run is given up, and nothing else is done. -/
def Unwinds : World → World → Prop :=
  Relation.ReflTransGen Unwind

variable {w w' : World}

theorem Restores.unwinds (h : w.Restores w') : w.Unwinds w' :=
  Relation.ReflTransGen.mono (fun _ _ hrestore => Unwind.restore hrestore) _ _ h

/-- Nothing changes but the number of repetitions and the frames. -/
theorem Unwinds.eq_with (h : w.Unwinds w') :
    w' = { w with repcount := w'.repcount, frames := w'.frames } := by
  induction h with
  | refl => rfl
  | tail _ hlast ih =>
    rw [ih] at hlast
    cases hlast with
    | restore hrestore => cases hrestore <;> rfl
    | leave => rfl

theorem Unwinds.heap_eq (h : w.Unwinds w') : w'.heap = w.heap := by
  rw [h.eq_with]

theorem Raised.unwinds {t : Ref} {key : String} {value : Option Ref}
    (hraised : w.Raised t key value) (h : w.Unwinds w') : w'.Raised t key value :=
  hraised.congr h.heap_eq

end World

/-! ### Nests -/

/-- What can be run: statements, code from one of its blocks, a list, the body of a procedure from
one of its blocks, and the call of a procedure. -/
inductive Site where
  | statements (h : Heap) (valued : Bool) (pins : Pins) (nodes : List Node)
  | code (pins : Pins) (code : Linked) (block : Int)
  | list (held : Pins) (list : Ref)
  | body (pins : Pins) (procedure : Ref) (code : Linked) (block : Int)
  | call (pins : Pins) (node : Ref) (args : List Ref)

/-- What a run comes to, with so much fuel. -/
def Site.ComesTo (n : Nat) (w : World) (r : Ref) (w' : World) : Site → Prop
  | .statements h valued pins nodes => Executes (engine n) h valued pins nodes w r w'
  | .code pins linked block => runCode (engine n) n pins linked block w = .ok (r, w')
  | .list held source => (engine n).list held source w = .ok (r, w')
  | .body pins procedure linked block =>
    runJumps (engine n) n pins procedure linked n block w = .ok (r, w')
  | .call pins node args => (engine n).procedure pins node args w = .ok (r, w')

/-- A run comes to an error, perhaps within others that it starts: the error `t`, which is looked for
by `key` and has the given value, is raised in the state `w'`. -/
inductive Raises (t : Ref) (key : String) (value : Option Ref) (w' : World) : Site → World → Prop
  /-- An error is raised in whatever way. -/
  | error {n : Nat} {site : Site} {w : World} (hcomes : site.ComesTo n w t w')
      (hraised : w'.Raised t key value) : Raises t key value w' site w
  /-- A `THROW` makes the error. Its value is dropped unless it is data, and a throw of `ERROR` has
  none. -/
  | throw {n : Nat} {h : Heap} {valued : Bool} {pins held : Pins} {head : NodeHead}
      {inputs rest : List Node} {w w₁ : World} {values : List Value} {tag v : Value} {word : Word}
      (hbuilt : (Node.call head inputs).Built h) (hgenerator : head.generator = .throwing)
      (hcalls : Node.Calls (engine n) h pins w (.call head inputs) values .throwTag [tag, v] held w₁)
      (htag : w₁.heap.word? tag.asDatum = some word) (hkey : key = word.key)
      (hvalue : value =
        if word.key = "ERROR" then none else (some v.asDatum).filter w₁.heap.isData)
      (hthrow : throwTag tag.asDatum (some v.asDatum) w₁ = .ok (t, w')) :
      Raises t key value w' (.statements h valued pins (.call head inputs :: rest)) w
  /-- A statement is done without a value, and then come the next ones. -/
  | skip {n : Nat} {h : Heap} {valued : Bool} {pins : Pins} {node next : Node} {rest : List Node}
      {w w₁ w₂ : World} {v : Ref} {regs : Array Value}
      (hends : node.Ends (engine n) h pins w (.done v regs w₁))
      (hsettle : node.settle v w₁ = .ok (none, w₂))
      (hrest : Raises t key value w' (.statements h valued (.registers regs :: pins) (next :: rest)) w₂) :
      Raises t key value w' (.statements h valued pins (node :: next :: rest)) w
  /-- A control statement other than `CATCH` has a list run. -/
  | run {n : Nat} {h : Heap} {valued : Bool} {pins held : Pins} {head : NodeHead}
      {inputs rest : List Node} {w w₁ : World} {values : List Value} {list : Value}
      (hbuilt : (Node.call head inputs).Built h) (hcontrol : head.generator.isControl = true)
      (hother : head.generator ≠ .catching)
      (hcalls : Node.Calls (engine n) h pins w (.call head inputs) values .runList [list] held w₁)
      (hlist : Raises t key value w' (.list held list.asDatum) w₁) :
      Raises t key value w' (.statements h valued pins (.call head inputs :: rest)) w
  /-- A `CATCH` whose tag is another word has its list run. -/
  | pass {n : Nat} {h : Heap} {valued : Bool} {pins held : Pins} {head : NodeHead}
      {inputs rest : List Node} {w w₁ : World} {values : List Value} {tag list : Value} {word : Word}
      (hbuilt : (Node.call head inputs).Built h) (hgenerator : head.generator = .catching)
      (hcalls : Node.Calls (engine n) h pins w (.call head inputs) (tag :: values) .runList [list]
        held w₁)
      (htag : w₁.heap.word? tag.asDatum = some word) (hother : word.key ≠ key)
      (hlist : Raises t key value w' (.list held list.asDatum) w₁) :
      Raises t key value w' (.statements h valued pins (.call head inputs :: rest)) w
  /-- A statement calls a procedure. -/
  | procedure {n : Nat} {h : Heap} {valued : Bool} {pins held : Pins} {head : NodeHead}
      {inputs rest : List Node} {w w₁ : World} {values args : List Value}
      (hbuilt : (Node.call head inputs).Built h) (hgenerator : head.generator = .execProcedure)
      (hcalls : Node.Calls (engine n) h pins w (.call head inputs) values .runProcedure args held w₁)
      (hcall : Raises t key value w' (.call held (datumArg args 0) (restArgs args 1)) w₁) :
      Raises t key value w' (.statements h valued pins (.call head inputs :: rest)) w
  /-- Code runs the statements from one of its blocks on. -/
  | code {h : Heap} {parse : Parse} {pins : Pins} {code : Linked} {block : Int} {w : World}
      (hcode : code.Renders h parse) (hparse : parse.Built h)
      (hdistinct : (parse.flatten.map Node.ref).Nodup) (hholds : w.Holds parse.flatten)
      (hstatements : Raises t key value w' (.statements h parse.valued
        (.constants code.constants :: pins) (parse.statementsFrom block)) w) :
      Raises t key value w' (.code pins code block) w
  /-- The code of a list is run. -/
  | list {held pins : Pins} {list : Ref} {code : Linked} {w w₁ : World}
      (hopens : w.Opens held list code pins w₁) (hcode : Raises t key value w' (.code pins code 0) w₁) :
      Raises t key value w' (.list held list) w
  /-- The code of a body is run. -/
  | body {pins : Pins} {procedure : Ref} {code : Linked} {block : Int} {w : World}
      (hcode : Raises t key value w' (.code pins code block) w) :
      Raises t key value w' (.body pins procedure code block) w
  /-- A body jumps to one of its labels. -/
  | goto {n : Nat} {pins : Pins} {procedure token source tag : Ref} {code : Linked} {block : Int}
      {target : LabelTarget} {w w₁ : World}
      (hrun : runCode (engine n) n pins code block w = .ok (token, w₁))
      (htoken : w₁.heap.get token = .goto source tag)
      (htarget : ((w₁.heap.procedure? procedure).bind fun p =>
        p.labels.get? (w₁.heap.keyOf tag)) = some target)
      (hrest : Raises t key value w' (.body pins procedure code target.block) w₁) :
      Raises t key value w' (.body pins procedure code block) w
  /-- The body of a procedure is run in a frame of its own. -/
  | call {pins : Pins} {procedure node : Ref} {args : List Ref} {code : Linked} {w w₁ : World}
      (hcall : CallEnters pins node args w procedure code w₁)
      (hbody : Raises t key value w'
        (.body (.refs [node, node, procedure] :: pins) procedure code 0) w₁) :
      Raises t key value w' (.call pins node args) w

section

variable {t : Ref} {key : String} {value : Option Ref} {w w₁ w₂ w' : World} {site : Site}

/-- What is raised is an error. -/
theorem Raises.raised (hraises : Raises t key value w' site w) : w'.Raised t key value := by
  induction hraises with
  | error _ hraised => exact hraised
  | throw _ _ _ htag hkey hvalue hthrow =>
    rw [hkey, hvalue]
    exact World.raised_of_throwTag htag hthrow
  | skip _ _ _ ih | run _ _ _ _ _ ih | pass _ _ _ _ _ _ ih | procedure _ _ _ _ ih | code _ _ _ _ _ ih
  | list _ _ ih | body _ ih | goto _ _ _ _ ih | call _ _ ih => exact ih

/-! ### More fuel -/

theorem Node.Calls.le {re re' : Reenter} (hre : re.Le re') {h : Heap} {pins held : Pins} {node : Node}
    {values args : List Value} {helper : Helper}
    (hcalls : Node.Calls re h pins w node values helper args held w₁) :
    Node.Calls re' h pins w node values helper args held w₁ := by
  cases hcalls with
  | intro hroutine hlink hfault hinputs hreaches hnext hown =>
    exact .intro hroutine hlink hfault hinputs (hreaches.le hre) hnext hown

theorem Site.ComesTo.le {n m : Nat} (hle : n ≤ m) {r : Ref} (hcomes : site.ComesTo n w r w') :
    site.ComesTo m w r w' := by
  cases site with
  | statements => exact Executes.le (engine_le hle) hcomes
  | code => exact runCode_le (engine_le hle) hle _ _ _ hcomes
  | list => exact (engine_le hle).list _ _ hcomes
  | body => exact runJumps_le (engine_le hle) hle _ _ _ hle _ hcomes
  | call => exact (engine_le hle).procedure _ _ _ hcomes

/-! ### Going up -/

/-- A statement that ends with an error, or is done with it, ends the run of its list. -/
theorem Node.Hands.comesTo {n : Nat} {h : Heap} {pins : Pins} {head : NodeHead} {inputs : List Node}
    (hhands : (Node.call head inputs).Hands (engine n) h pins w t w')
    (hraised : w'.Raised t key value)
    (hopen : head.returns = .nothing ∨ head.returns = .datumOrNothing) (valued : Bool)
    (rest : List Node) :
    (Site.statements h valued pins (.call head inputs :: rest)).ComesTo n w t w' := by
  have houtputs : (Node.call head inputs).outputs = false := by
    rcases hopen with hreturns | hreturns <;> simp [Node.outputs, Node.returns, hreturns]
  exact hhands.executes hraised.isFlow houtputs valued rest

/-- The call of a procedure comes to what the code of its body comes to. -/
theorem CallEnters.exists_comesTo {n : Nat} {pins : Pins} {procedure node : Ref} {args : List Ref}
    {code : Linked} (hcall : CallEnters pins node args w procedure code w₁)
    (hbody : (Site.body (.refs [node, node, procedure] :: pins) procedure code 0).ComesTo n w₁ t w₂)
    (hraised : w₂.Raised t key value) :
    ∃ m, (Site.call pins node args).ComesTo m w t { w₂ with frames := w₂.frames.pop } := by
  obtain ⟨e, hget⟩ := hraised.exists_error
  obtain ⟨least, hcalls⟩ := (hcall.bodyComesTo hbody).exists_procedure (by simp [hget])
  -- an error ends the activation as it is
  refine ⟨least, (hcalls least le_rfl).trans ?_⟩
  rw [Activation.conclude, Run.heap_bind]
  dsimp only
  rw [hget]
  rfl

/-- A `CATCH` whose list came to an error is done with the value of the error if its tag is the same
word, and else hands the error on. -/
theorem Node.Calls.exists_ends_of_catch {n m : Nat} {h : Heap} {pins held : Pins} {head : NodeHead}
    {inputs : List Node} {values : List Value} {tag list : Value} {word : Word}
    (hbuilt : (Node.call head inputs).Built h) (hgenerator : head.generator = .catching)
    (hcalls : Node.Calls (engine n) h pins w (.call head inputs) (tag :: values) .runList [list] held
      w₁)
    (htag : w₁.heap.word? tag.asDatum = some word)
    (hlist : (Site.list held list.asDatum).ComesTo m w₁ t w₂) (hraised : w₂.Raised t key value)
    (hholds : word.key = key → w₁.Holds [.call head inputs]) :
    ∃ k w₃, w₂.Restores w₃ ∧
      if word.key = key then
        ∃ regs, (Node.call head inputs).Ends (engine k) h pins w
          (.done (value.getD head.ref) regs (w₃.caught key))
      else (Node.call head inputs).Hands (engine k) h pins w t w₃ := by
  have hlist' := hlist.le (Nat.le_max_right n m)
  have hchanges : w₁.Changes w₂ := Run.Changes.changes hlist'
  -- the tag is still the same word
  have hkeyOf : w₂.heap.keyOf tag.asDatum = word.key := by
    rw [Heap.keyOf, hchanges.heap_extends.word?_eq htag]
  have hnode : w₂.heap.keyOf tag.asDatum = key → w₂.heap.isFlow head.ref = false := fun hsame =>
    (((hholds (hkeyOf.symm.trans hsame)).changes hchanges).mute (.inl rfl)).1
  obtain ⟨w₃, hrestores, hends⟩ := (hcalls.le (engine_le (Nat.le_max_left n m))).ends_of_catch
    hbuilt hgenerator hlist' hraised hnode
  rw [hkeyOf] at hends
  exact ⟨max n m, w₃, hrestores, hends⟩

/-- **What is raised goes up**: every run of the nest comes to the very error, and then a run is only
given up. -/
theorem Raises.exists_comesTo (hraises : Raises t key value w' site w) :
    ∃ n w'', w'.Unwinds w'' ∧ site.ComesTo n w t w'' := by
  have hraised := hraises.raised
  induction hraises with
  | @error n site w hcomes => exact ⟨n, w', .refl, hcomes⟩
  | @throw n h valued pins held head inputs rest w w₁ values tag v word hbuilt hgenerator hcalls htag
      hkey hvalue hthrow =>
    have hhands := hcalls.hands_of_throw hbuilt hgenerator hthrow
    exact ⟨n, w', .refl, hhands.comesTo hraised (.inl (hbuilt.of_throwing hgenerator).1) _ _⟩
  | @skip n h valued pins node next rest w w₁ w₂ v regs hends hsettle _ ih =>
    obtain ⟨m, w'', hunwinds, hcomes⟩ := ih
    have hends' := hends.le (engine_le (Nat.le_max_left n m))
    exact ⟨max n m, w'', hunwinds, .next (fun hlast => absurd hlast (List.cons_ne_nil _ _)) hends'
      hsettle (hcomes.le (Nat.le_max_right n m))⟩
  | @run n h valued pins held head inputs rest w w₁ values list hbuilt hcontrol hother hcalls _ ih =>
    obtain ⟨m, w₂, hunwinds, hlist⟩ := ih
    have hraised₂ := hraised.unwinds hunwinds
    have hruns := Generator.runsCode_of_isControl hcontrol
    -- the statement gets the error from its list, and hands it on
    have hgets := (hcalls.le (engine_le (Nat.le_max_left n m))).gets rfl
      (map_datum_apply (hlist.le (Nat.le_max_right n m)))
    obtain ⟨w₃, hrestores, hhands⟩ :=
      hgets.hands hbuilt hruns hraised₂.isFlow fun hcatching => absurd hcatching hother
    exact ⟨max n m, w₃, hunwinds.trans hrestores.unwinds,
      hhands.comesTo (hraised₂.congr hrestores.heap_eq) (hbuilt.of_runsCode hruns).1 _ _⟩
  | @pass n h valued pins held head inputs rest w w₁ values tag list word hbuilt hgenerator hcalls htag
      hother _ ih =>
    obtain ⟨m, w₂, hunwinds, hlist⟩ := ih
    have hraised₂ := hraised.unwinds hunwinds
    have hruns : head.generator.runsCode = true := by rw [hgenerator]; rfl
    obtain ⟨k, w₃, hrestores, hends⟩ := hcalls.exists_ends_of_catch hbuilt hgenerator htag hlist
      hraised₂ fun hsame => absurd hsame hother
    rw [if_neg hother] at hends
    exact ⟨k, w₃, hunwinds.trans hrestores.unwinds,
      hends.comesTo (hraised₂.congr hrestores.heap_eq) (hbuilt.of_runsCode hruns).1 _ _⟩
  | @procedure n h valued pins held head inputs rest w w₁ values args hbuilt hgenerator hcalls _ ih =>
    obtain ⟨m, w₂, hunwinds, hcall⟩ := ih
    have hraised₂ := hraised.unwinds hunwinds
    have hruns : head.generator.runsCode = true := by rw [hgenerator]; rfl
    have hgets := (hcalls.le (engine_le (Nat.le_max_left n m))).gets rfl
      (map_datum_apply (hcall.le (Nat.le_max_right n m)))
    obtain ⟨w₃, hrestores, hhands⟩ := hgets.hands hbuilt hruns hraised₂.isFlow
      fun hcatching => by rw [hgenerator] at hcatching; cases hcatching
    exact ⟨max n m, w₃, hunwinds.trans hrestores.unwinds,
      hhands.comesTo (hraised₂.congr hrestores.heap_eq) (hbuilt.of_runsCode hruns).1 _ _⟩
  | @code h parse pins code block w hcode hparse hdistinct hholds _ ih =>
    obtain ⟨n, w'', hunwinds, hexec⟩ := ih
    obtain ⟨fuel, hrun⟩ := (hcode.runCode_iff hparse hdistinct hholds).mpr hexec
    exact ⟨max n fuel, w'', hunwinds, runCode_le (engine_le (Nat.le_max_left n fuel))
      (Nat.le_max_right n fuel) _ _ _ hrun⟩
  | @list held pins list code w w₁ hopens _ ih =>
    obtain ⟨n, w₂, hunwinds, hrun⟩ := ih
    obtain ⟨m, w₃, -, hrestores, hlist⟩ := hopens.exists_list hrun
    exact ⟨m, w₃, hunwinds.trans hrestores.unwinds, hlist⟩
  | @body pins procedure code block w _ ih =>
    obtain ⟨n, w₂, hunwinds, hrun⟩ := ih
    obtain ⟨e, hget⟩ := (hraised.unwinds hunwinds).exists_error
    have hgoto : ∀ source tag, w₂.heap.get t ≠ Object.goto source tag := by simp [hget]
    obtain ⟨k, hjumps⟩ := @exists_runJumps _ procedure _ _ _ _ _ _ _ hrun hgoto
    exact ⟨k, w₂, hunwinds, hjumps⟩
  | @goto n pins procedure token source tag code block target w w₁ hrun htoken htarget _ ih =>
    obtain ⟨m, w₂, hunwinds, hrest⟩ := ih
    refine ⟨max n m + 1, w₂, hunwinds, ?_⟩
    have hrun' := runCode_le (engine_le (Nat.le_succ_of_le (Nat.le_max_left n m)))
      (Nat.le_succ_of_le (Nat.le_max_left n m)) _ _ _ hrun
    have hle := Nat.le_succ_of_le (Nat.le_max_right n m)
    show runJumps _ _ _ _ _ (max n m + 1) block w = _
    rw [runJumps_of_runCode hrun', htoken]
    dsimp only
    rw [htarget]
    exact runJumps_le (engine_le hle) hle _ _ _ (Nat.le_max_right n m) _ hrest
  | @call pins procedure node args code w w₁ hcall _ ih =>
    obtain ⟨n, w₂, hunwinds, hbody⟩ := ih
    obtain ⟨m, hcomes⟩ := hcall.exists_comesTo hbody (hraised.unwinds hunwinds)
    exact ⟨m, _, hunwinds.tail (.leave w₂), hcomes⟩

end

/-! ### A list that throws -/

theorem Parse.statementsFrom_singleton {node : Node} (htag : node.isTag = false) :
    Parse.statementsFrom [[node]] 0 = [node] := by
  simp [statementsFrom, statements, htag]

/-- A list is run that does nothing but throw: its one statement is a `THROW` of a tag and a value,
which have been evaluated in the last state. -/
inductive World.ThrowsFrom (w : World) (held : Pins) (list : Ref) : Value → Value → World → Prop
  | intro {h : Heap} {code : Linked} {pins held' : Pins} {w₁ w₂ : World} {n : Nat} {head : NodeHead}
      {inputs : List Node} {values : List Value} {tag value : Value}
      (hopens : w.Opens held list code pins w₁)
      (hcode : code.Renders h [[.call head inputs]]) (hbuilt : (Node.call head inputs).Built h)
      (hholds : w₁.Holds [.call head inputs]) (hgenerator : head.generator = .throwing)
      (hcalls : Node.Calls (engine n) h (.constants code.constants :: pins) w₁ (.call head inputs)
        values .throwTag [tag, value] held' w₂) :
      ThrowsFrom w held list tag value w₂

/-- The list comes to the error of the throw. -/
theorem raises_of_throwsFrom {w w₂ w' : World} {held : Pins} {list t : Ref} {tag value : Value}
    {key : String} {output : Option Ref} (hthrows : w.ThrowsFrom held list tag value w₂)
    (hthrow : throwTag tag.asDatum (some value.asDatum) w₂ = .ok (t, w'))
    (hraised : w'.Raised t key output) : Raises t key output w' (.list held list) w := by
  obtain ⟨hopens, hcode, hbuilt, hholds, hgenerator, hcalls⟩ := hthrows
  have hparse := Parse.built_singleton hbuilt
  have hhands := hcalls.hands_of_throw hbuilt hgenerator hthrow
  refine .list hopens (.code hcode hparse (List.nodup_singleton _) hholds ?_)
  rw [Parse.statementsFrom_singleton (by simp [Node.isTag, hgenerator])]
  exact .error (hhands.comesTo hraised (.inl (hbuilt.of_throwing hgenerator).1) _ _) hraised

/-- The tag and the value that a list of one `THROW` comes to throw, if it comes to that with little
fuel, and the state. -/
def World.findThrow? (w : World) (held : Pins) (list : Ref) (statement : Node) :
    Option (Value × Value × World) :=
  match (compileList (.refs [list] :: held) list).run w with
  | .ok (.ok entry, w₁) =>
    match statement.findCall? (engine 0) w.heap (.constants entry.code.constants ::
        .refs (list :: w₁.frames.top.line.toList) :: held) (w₁.onLine list) .throwTag 40 with
    | some (_, [tag, value], _, w₂) =>
      if w.keepsParse list [[statement]] && w₁.keeps [statement.ref] then some (tag, value, w₂)
      else none
    | _ => none
  | _ => none

theorem World.throwsFrom_of_findThrow? {w w' : World} {held : Pins} {list : Ref} {head : NodeHead}
    {inputs : List Node} {tag value : Value} (hbuilt : (Node.call head inputs).Built w.heap)
    (hgenerator : head.generator = .throwing)
    (hfind : w.findThrow? held list (.call head inputs) = some (tag, value, w')) :
    w.ThrowsFrom held list tag value w' := by
  unfold World.findThrow? at hfind
  split at hfind
  · next entry w₁ hcompile =>
    split at hfind
    · next values tag' value' held' w₂ hcalls =>
      split at hfind
      · next hkeeps =>
        cases hfind
        obtain ⟨hparse, hnodes⟩ := Bool.and_eq_true_iff.mp hkeeps
        exact .intro ⟨entry, w₁, hcompile, rfl, rfl, rfl⟩ (World.renders_of_keepsParse hparse hcompile)
          hbuilt (World.holds_of_keeps hnodes) hgenerator (Node.calls_of_findCall? hcalls)
      · cases hfind
    · cases hfind
  · cases hfind

namespace Rescue

/-- The head of the literal with the given number. -/
def literalHead (index value : Nat) : NodeHead := ⟨⟨index⟩, index, ⟨value⟩, .literal, .datum⟩

/-- The literal with the given number. -/
def literal (index value : Nat) : Node := .call (literalHead index value) [.datum ⟨value⟩]

/-- The head of `(throw "A "v)`. -/
def throwHead : NodeHead := ⟨⟨8⟩, 8, ⟨2⟩, .throwing, .nothing⟩

/-- The statement `(throw "A "v)`. -/
def throwing : Node := .call throwHead [literal 6 4, literal 7 5]

/-- The statement `catch "a [(throw "A "v)]`. -/
def catching : Node :=
  .call ⟨⟨12⟩, 12, ⟨1⟩, .catching, .datumOrNothing⟩ [literal 10 3, literal 11 9]

/-- A list that throws, and a statement that catches the throw. -/
def heap : Heap where
  objects := #[.nothing, .word (.text "catch"), .word (.text "throw"), .word (.text "a"),
    .word (.text "A"), .word (.text "v"), .node (literalHead 6 4) [.datum ⟨4⟩],
    .node (literalHead 7 5) [.datum ⟨5⟩], .node throwHead [literal 6 4, literal 7 5],
    .list ⟨9, none, 1, some [[throwing]]⟩, .node (literalHead 10 3) [.datum ⟨3⟩],
    .node (literalHead 11 9) [.datum ⟨9⟩],
    .node ⟨⟨12⟩, 12, ⟨1⟩, .catching, .datumOrNothing⟩ [literal 10 3, literal 11 9]]

/-- Nothing was compiled yet. -/
def world : World where
  heap := heap

/-- Whether a word is the given text. -/
def isText (word : Option Word) (text : String) : Bool :=
  match word with
  | some (.text s) => s = text
  | _ => false

/-- Whether the statement has the list run, and the list comes to throw the word `A`. -/
def throws : Bool :=
  match catching.findCall? (engine 0) heap [] world .runList 40 with
  | some ([tag, _], [list], held, w₁) =>
    match w₁.findThrow? held list.asDatum throwing with
    | some (thrown, value, w₂) =>
      isText (w₁.heap.word? tag.asDatum) "a" && w₁.keeps [⟨12⟩] &&
        isText (w₂.heap.word? thrown.asDatum) "A" && value.asDatum = ⟨5⟩ && w₂.heap.isData ⟨5⟩
    | none => false
  | _ => false

theorem built_throwing : throwing.Built heap := by
  decide +kernel

theorem built_catching : catching.Built heap := by
  decide +kernel

end Rescue

end LogoEngine
