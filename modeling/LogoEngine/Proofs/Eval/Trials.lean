import LogoEngine.Proofs.Eval.Compiling
import LogoEngine.Proofs.Lower.Catching
import LogoEngine.Proofs.Lower.Contents

/-!
# Runs that are tried out

What a nest of statements comes to can be tried out on a small example: every list of it is compiled
for the first time, and every statement is run up to the one call that has the next list run. The
searches and tests of this file compute that much, and each comes with a proof that what was computed
is so.

Main statements: `Node.calls_of_findCall?` and `World.renders_of_keepsParse`.
-/

namespace LogoEngine

theorem eq_ok_of_toOption {ε α : Type} {x : Except ε α} {a : α} (h : x.toOption = some a) :
    x = .ok a := by
  cases x with
  | error e => cases h
  | ok b => exact congrArg Except.ok (Option.some.inj h)

/-! ### Comparing nodes -/

mutual

/-- Nodes are compared along their inputs. -/
def Node.decideEq : (node node' : Node) → Decidable (node = node')
  | .call head inputs, .call head' inputs' =>
    match decEq head head', Node.decideEqAll inputs inputs' with
    | isTrue hhead, isTrue hinputs => isTrue (by rw [hhead, hinputs])
    | isFalse hhead, _ => isFalse fun heq => hhead (Node.call.inj heq).1
    | _, isFalse hinputs => isFalse fun heq => hinputs (Node.call.inj heq).2
  | .datum r, .datum r' => decidable_of_iff (r = r') ⟨congrArg _, Node.datum.inj⟩
  | .call _ _, .datum _ => isFalse nofun
  | .datum _, .call _ _ => isFalse nofun

def Node.decideEqAll : (nodes nodes' : List Node) → Decidable (nodes = nodes')
  | [], [] => isTrue rfl
  | node :: nodes, node' :: nodes' =>
    match Node.decideEq node node', Node.decideEqAll nodes nodes' with
    | isTrue hnode, isTrue hnodes => isTrue (by rw [hnode, hnodes])
    | isFalse hnode, _ => isFalse fun heq => hnode (List.cons.inj heq).1
    | _, isFalse hnodes => isFalse fun heq => hnodes (List.cons.inj heq).2
  | [], _ :: _ => isFalse nofun
  | _ :: _, [] => isFalse nofun

end

instance : DecidableEq Node :=
  Node.decideEq

/-! ### Lists that are compiled for the first time -/

section

variable {w w' : World} {pins : Pins} {list : Ref} {procedure : Option Ref} {parse : Parse}
  {entry : Entry}

/-- A list that has a parse and is compiled for the first time gets the code of its parse, and the
labels that are met are recorded. -/
theorem compileSource_of_miss {cell : Cell} (hcell : w.heap.cell? list = some cell)
    (hparse : cell.parse = some parse) (hlater : w.lastDefinition < cell.stamp)
    (hmiss : w.cache.find? cell.id = none)
    (h : (compileSource pins list procedure).run w = .ok (.ok entry, w')) :
    entry.code.Renders w.heap parse ∧ ∃ name,
      w'.heap = (w.labelled procedure (lowerUnit w.heap name (some list) parse).2).heap := by
  have hrefresh : (refreshParse list cell).run w = .ok (.ok (), w) := by
    rw [refreshParse_run, if_neg]
    simp [hparse, hlater]
  have hlabelled : ∀ (cache : Cache Entry) (labels : Labels),
      ({ w with cache }.labelled procedure labels).heap = (w.labelled procedure labels).heap := by
    intro cache labels
    cases procedure <;> rfl
  cases compileSource_compiles h with
  | parsed hnone => rw [hcell] at hnone; cases hnone
  | @coded _ cell' name w₁ _ _ hcell₀ hrefresh₀ hcell' hcodes =>
    obtain rfl := Option.some.inj (hcell.symm.trans hcell₀)
    cases hrefresh.symm.trans hrefresh₀
    obtain rfl := Option.some.inj (hcell.symm.trans hcell')
    rw [hparse] at hcodes
    -- the cache has nothing for the list, so its parse is lowered
    cases hcodes with
    | stored hstored =>
      rw [hmiss] at hstored
      cases hstored
    | entered _ hlower =>
      obtain ⟨heap, hheap, -, ⟨_, hfail, -⟩ | ⟨routine, linked, hroutine, hlinked, hok, rfl⟩⟩ :=
        lowerAndLink_cases hlower
      · cases hfail
      cases hok
      exact ⟨⟨_, _, routine, _, hroutine, hlinked⟩, name, hheap.trans (hlabelled _ _)⟩

/-- Whether a list has a parse, made after the last definition, and no code yet. -/
def World.keepsParse (w : World) (list : Ref) (parse : Parse) : Bool :=
  match w.heap.cell? list with
  | some cell =>
    cell.parse = some parse && w.lastDefinition < cell.stamp && (w.cache.find? cell.id).isNone
  | none => false

theorem World.renders_of_keepsParse (hkeeps : w.keepsParse list parse = true)
    (h : (compileSource pins list procedure).run w = .ok (.ok entry, w')) :
    entry.code.Renders w.heap parse := by
  unfold World.keepsParse at hkeeps
  split at hkeeps
  · next cell hcell =>
    simp only [Bool.and_eq_true, decide_eq_true_eq, Option.isNone_iff_eq_none] at hkeeps
    obtain ⟨⟨hparse, hlater⟩, hmiss⟩ := hkeeps
    exact (compileSource_of_miss hcell hparse hlater hmiss h).1
  · cases hkeeps

/-- A list becomes the running line of the innermost frame. -/
def World.onLine (w : World) (list : Ref) : World :=
  { w with frames := w.frames.modifyTop fun frame => { frame with line := some list } }

/-- Whether nodes are objects, and "no value" is what it is. -/
def World.keeps (w : World) (nodes : List Ref) : Bool :=
  (nodes.all fun r => (w.heap.get r).hasTag Kind.node.tag) &&
    match w.heap.objects[Ref.nothing.index]? with
    | some .nothing => true
    | _ => false

theorem World.holds_of_keeps {nodes : List Node} (h : w.keeps (nodes.map Node.ref) = true) :
    w.Holds nodes := by
  rw [World.keeps, Bool.and_eq_true, List.all_map, List.all_eq_true] at h
  refine ⟨fun node hnode => ?_, ?_⟩
  · have htag := h.1 node hnode
    cases hobject : w.heap.get node.ref with
    | node head inputs => exact ⟨head, inputs, rfl⟩
    | _ => simp [hobject, Object.hasTag, Object.kind, Kind.tag] at htag
  · obtain ⟨-, h⟩ := h
    split at h
    · next hnothing => exact hnothing
    · cases h

end

/-! ### Looking for a call -/

/-- Runs the machine up to a call of a helper whose result goes to a register that is none of the
first `own` ones. -/
def Machine.seekCall (re : Reenter) (pins : Pins) (code : Linked) (own : Nat) (helper : Helper) :
    Nat → Config → Option (Config × List Reg)
  | 0, _ => none
  | fuel + 1, c =>
    match c.rest with
    | .call (some dst) helper' args :: _ =>
      if helper' = helper ∧ own ≤ dst.index then some (c, args)
      else
        match Machine.step re pins code 0 c with
        | .ok (.running c') => seekCall re pins code own helper fuel c'
        | _ => none
    | _ =>
      match Machine.step re pins code 0 c with
      | .ok (.running c') => seekCall re pins code own helper fuel c'
      | _ => none

theorem Machine.seekCall_sound {re : Reenter} {pins : Pins} {code : Linked} {own fuel : Nat}
    {helper : Helper} {c c' : Config} {args : List Reg}
    (h : Machine.seekCall re pins code own helper fuel c = some (c', args)) :
    Machine.Reaches re pins code 0 c c' ∧
      ∃ dst rest, c'.rest = .call (some dst) helper args :: rest ∧ own ≤ dst.index := by
  induction fuel generalizing c with
  | zero => cases h
  | succ fuel ih =>
    rw [Machine.seekCall] at h
    split at h
    · next dst helper' args' rest hrest =>
      split at h
      · next hown =>
        obtain ⟨rfl, hown⟩ := hown
        cases h
        exact ⟨.refl, dst, rest, hrest, hown⟩
      · split at h
        · next hstep =>
          obtain ⟨hreaches, hfound⟩ := ih h
          exact ⟨.head hstep hreaches, hfound⟩
        · cases h
    · split at h
      · next hstep =>
        obtain ⟨hreaches, hfound⟩ := ih h
        exact ⟨.head hstep hreaches, hfound⟩
      · cases h

/-- The first call of a helper that is a statement's own, if it comes to that with little fuel: the
values of the inputs, those of the call, what is held, and the state. -/
def Node.findCall? (re : Reenter) (h : Heap) (pins : Pins) (w : World) (helper : Helper)
    (fuel : Nat) : Node → Option (List Value × List Value × Pins × World)
  | .datum _ => none
  | .call head inputs => do
    let routine ← (soloRoutine h "" (.call head inputs)).toOption
    let code ← (routine.link .machine).toOption
    let arguments := (lowerArguments h head inputs).run {}
    let rs ← arguments.1.toOption
    let found ← Machine.seekCall re (.constants code.constants :: pins) code
      arguments.2.types.size helper fuel (Machine.start code w)
    if (arityFault? h head inputs.length).isNone then
      return (rs.map (readReg found.1.regs), found.2.map (readReg found.1.regs),
        .registers found.1.regs :: .constants code.constants :: pins, found.1.world)
    else none

theorem Node.calls_of_findCall? {re : Reenter} {h : Heap} {pins held : Pins} {w w' : World}
    {helper : Helper} {fuel : Nat} {node : Node} {values args : List Value}
    (hfind : node.findCall? re h pins w helper fuel = some (values, args, held, w')) :
    Node.Calls re h pins w node values helper args held w' := by
  cases node with
  | datum r => cases hfind
  | call head inputs =>
    simp only [Node.findCall?, Option.bind_eq_bind, Option.bind_eq_some_iff] at hfind
    obtain ⟨routine, hroutine, code, hlink, rs, hinputs, ⟨c, r⟩, hseek, hresult⟩ := hfind
    obtain ⟨hreaches, dst, rest, hnext, hown⟩ := Machine.seekCall_sound hseek
    split at hresult
    · next hfault =>
      cases hresult
      exact .intro (eq_ok_of_toOption hroutine) (eq_ok_of_toOption hlink)
        (Option.isNone_iff_eq_none.mp hfault) (Prod.ext (eq_ok_of_toOption hinputs) rfl) hreaches
        hnext hown
    · cases hresult

end LogoEngine
