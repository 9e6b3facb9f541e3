import LogoEngine.Eval.Helper
import LogoEngine.Proofs.Eval.Changes

/-!
# Helpers that make tokens

Errors, throws and the other tokens are made by helpers that do nothing else, so that what they give
is a token whatever they are given. Helpers of commands give a token or no value.
-/

namespace LogoEngine

/-- Everything a computation gives is as `P` says. -/
class Run.Gives (P : World → Ref → Prop) (m : Run Ref) : Prop where
  gives : ∀ {w w' : World} {r : Ref}, m w = .ok (r, w') → P w' r

/-- A reference to a token. -/
abbrev World.IsToken (w : World) (r : Ref) : Prop :=
  w.heap.isFlow r = true

section

variable {P : World → Ref → Prop} {α : Type}

instance {m : Run α} {f : α → Run Ref} [hf : ∀ a, Run.Gives P (f a)] : Run.Gives P (m >>= f) where
  gives h := by
    obtain ⟨a, w₁, -, hrest⟩ := Run.bind_eq_ok h
    exact (hf a).gives hrest

instance {c : Prop} [Decidable c] {m m' : Run Ref} [Run.Gives P m] [Run.Gives P m'] :
    Run.Gives P (if c then m else m') := by
  split <;> infer_instance

end

/-! ### Tokens -/

/-- The kinds of tokens. -/
theorem Object.isFlow_of_kind {o : Object} (k : Kind) (hkind : o.kind = k)
    (hflow : k.tag &&& flowMask ≠ 0) : o.isFlow = true := by
  rw [Object.isFlow, Object.hasTag, hkind]
  simpa using hflow

/-- Data is no token. -/
theorem Object.isFlow_of_isData {o : Object} (hdata : o.isData = true) : o.isFlow = false := by
  rw [Object.isData, Object.hasTag] at hdata
  rw [Object.isFlow, Object.hasTag]
  generalize o.kind = kind at hdata
  cases kind <;> first | rfl | cases hdata

private theorem gives_newObject {o : Object} (h : o.isFlow = true) :
    Run.Gives World.IsToken (Run.making (newObject o)) where
  gives {w w' r} hrun := by
    cases hrun
    show ((w.heap.add o).2.get (w.heap.add o).1).isFlow = true
    rw [w.heap.get_add_self]
    exact h

instance (source tag : Ref) : Run.Gives World.IsToken (Run.making (newObject (.goto source tag))) :=
  gives_newObject (Object.isFlow_of_kind .goto rfl (by decide))
instance (source call : Ref) (args : List Ref) :
    Run.Gives World.IsToken (Run.making (newObject (.continuation source call args))) :=
  gives_newObject (Object.isFlow_of_kind .continuation rfl (by decide))
instance (source : Ref) (value : Option Ref) :
    Run.Gives World.IsToken (Run.making (newObject (.ret source value))) :=
  gives_newObject (Object.isFlow_of_kind .ret rfl (by decide))

instance (code : ErrorCode) (tag : Ref) (message : String) (output : Option Ref) :
    Run.Gives World.IsToken (raiseWith code tag message output) where
  gives {w w' r} hrun := by
    let h := (w.heap.add (.word (.text message))).2
    let e : ErrorRecord :=
      ⟨code, tag, ⟨w.heap.objects.size⟩, output, w.frames.top.node, w.frames.top.line⟩
    have hraise : raiseWith code tag message output w = .ok ((h.add (.error e)).1,
        { w with heap := (h.add (.error e)).2, currentError := some (h.add (.error e)).1 }) := rfl
    rw [hraise] at hrun
    cases hrun
    show ((h.add (.error e)).2.get (h.add (.error e)).1).isFlow = true
    rw [h.get_add_self]
    exact Object.isFlow_of_kind .error rfl (by decide)

instance (code : ErrorCode) (args : List Ref) : Run.Gives World.IsToken (raise code args) := by
  unfold raise; infer_instance
instance (who what : Ref) : Run.Gives World.IsToken (raiseDoesntLike who what) := by
  unfold raiseDoesntLike; infer_instance
instance (what : Ref) : Run.Gives World.IsToken (raiseDontSay what) := by
  unfold raiseDontSay; infer_instance
instance (source who : Ref) : Run.Gives World.IsToken (raiseDidntOutput source who) := by
  unfold raiseDidntOutput; infer_instance

instance (tag : Ref) (output : Option Ref) : Run.Gives World.IsToken (throwTag tag output) := by
  unfold throwTag
  have (h : Heap) : Run.Gives World.IsToken (match output.filter h.isData with
      | none => raiseWith .plainThrow tag ErrorCode.plainThrow.template none
      | some message => raiseWith .customThrow tag (h.printForm message) (some message)) := by
    split <;> infer_instance
  infer_instance
instance (tag : String) (output : Option Ref) : Run.Gives World.IsToken (throwNamed tag output) := by
  unfold throwNamed; infer_instance

/-- A helper that makes a token. -/
class Helper.MakesToken (helper : Helper) : Prop where
  makes : ∀ {re : Reenter} {pins : Pins} {args : List Value} {w w' : World} {v : Value},
    callHelper re pins helper args w = .ok (v, w') → w'.IsToken v.asDatum

namespace Helper

private theorem makesToken {helper : Helper} {m : List Value → Run Ref}
    [hm : ∀ args, Run.Gives World.IsToken (m args)]
    (hcall : ∀ re pins args, callHelper re pins helper args = .datum <$> m args) :
    helper.MakesToken where
  makes {re pins args w w' v} hrun := by
    rw [hcall, map_eq_pure_bind] at hrun
    obtain ⟨r, w₁, hr, hpure⟩ := Run.bind_eq_ok hrun
    cases hpure
    exact (hm args).gives hr

instance : MakesToken errDoesntLike := makesToken fun _ _ _ => rfl
instance : MakesToken errDontSay := makesToken fun _ _ _ => rfl
instance : MakesToken errDidntOutput := makesToken fun _ _ _ => rfl
instance : MakesToken errNoValue := makesToken fun _ _ _ => rfl
instance : MakesToken errNotEnoughInputs := makesToken fun _ _ _ => rfl
instance : MakesToken errTooManyInputs := makesToken fun _ _ _ => rfl
instance : MakesToken errNoTest := makesToken fun _ _ _ => rfl
instance : MakesToken errToplevel := makesToken fun _ _ _ => rfl
instance : MakesToken errSystem := makesToken fun _ _ _ => rfl
instance : MakesToken throwTag := makesToken fun _ _ _ => rfl
instance : MakesToken continueToken := makesToken fun _ _ _ => rfl
instance : MakesToken gotoToken := makesToken fun _ _ _ => rfl
instance : MakesToken continuationToken := makesToken fun _ _ _ => rfl
instance : MakesToken returnToken :=
  makesToken (m := fun args => do
    let h ← Run.heap
    Run.making (newObject (.ret (datumArg args 0)
      (if h.isData (datumArg args 1) then some (datumArg args 1) else none)))) fun _ _ _ => rfl

end Helper

/-! ### Commands -/

/-- What a command gives: a token, or what stands for no value. -/
def World.IsMute (node : Ref) (w : World) (r : Ref) : Prop :=
  w.IsToken r ∨ r = node ∨ r = Ref.nothing

section

variable {node : Ref}

instance {m : Run Ref} [hm : Run.Gives World.IsToken m] : Run.Gives (World.IsMute node) m where
  gives h := .inl (hm.gives h)

instance : Run.Gives (World.IsMute node) (pure node) where
  gives h := by
    cases h
    exact .inr (.inl rfl)

instance : Run.Gives (World.IsMute node) (pure Ref.nothing) where
  gives h := by
    cases h
    exact .inr (.inr rfl)

instance (args : List Ref) : Run.Gives (World.IsMute node) (makeLocal node args) := by
  induction args with
  | nil => unfold makeLocal; infer_instance
  | cons r rest ih => unfold makeLocal; infer_instance

instance (outcome : Except ErrorCode Unit) :
    Run.Gives (World.IsMute node) (turtleResult outcome) := by
  unfold turtleResult
  split <;> infer_instance

instance (pos : Ref) (act : Float → Float → Run Ref)
    [∀ x y, Run.Gives (World.IsMute node) (act x y)] :
    Run.Gives (World.IsMute node) (atPosition node pos act) := by
  unfold atPosition
  have (found : Option (Float × Float)) : Run.Gives (World.IsMute node) (match found with
      | some (x, y) => act x y
      | none => raiseDoesntLike node pos) := by
    split <;> infer_instance
  infer_instance

/-- Operations that change what they are given, and make nothing. -/
def DataOp.changes : DataOp → Bool
  | setItem | dotSetItem | dotSetFirst | dotSetBf => true
  | _ => false

theorem gives_applyData {op : DataOp} (hop : op.changes = true) (node : Ref) (args : List Ref) :
    Run.Gives (World.IsMute node) (applyData op node args) where
  gives {w w' r} h := by
    have hresult : (∃ target object, dataResult w.heap op args = .changed target object) ∨
        ∃ culprit, dataResult w.heap op args = .dislikes culprit := by
      cases op with
      | setItem | dotSetItem | dotSetFirst | dotSetBf =>
        simp only [dataResult]
        repeat' split
        all_goals simp
      | _ => cases hop
    have hthing : op ≠ .thing := by
      rintro rfl
      cases hop
    unfold applyData at h
    rw [if_neg hthing, Run.heap_bind] at h
    rcases hresult with ⟨target, object, heq⟩ | ⟨culprit, heq⟩
    · rw [heq] at h
      cases h
      exact .inr (.inl rfl)
    · rw [heq] at h
      exact Run.Gives.gives (m := raiseDoesntLike node culprit) h

end

/-- A helper that carries out a command, for the node that it is given first. -/
class Helper.Obeys (helper : Helper) : Prop where
  ret : helper.signature.ret = some .datum
  obeys : ∀ {re : Reenter} {pins : Pins} {node : Ref} {args : List Value} {w w' : World}
    {v : Value}, callHelper re pins helper (.datum node :: args) w = .ok (v, w') →
      w'.IsMute node v.asDatum

namespace Helper

private theorem gives_of {helper : Helper} {re : Reenter} {pins : Pins} {args : List Value}
    {node : Ref} {m : Run Ref} [hm : Run.Gives (World.IsMute node) m]
    (hcall : callHelper re pins helper args = .datum <$> m) {w w' : World} {v : Value}
    (hrun : callHelper re pins helper args w = .ok (v, w')) : w'.IsMute node v.asDatum := by
  rw [hcall, map_eq_pure_bind] at hrun
  obtain ⟨r, w₁, hr, hpure⟩ := Run.bind_eq_ok hrun
  cases hpure
  exact hm.gives hr

instance : Obeys makeLocal where
  ret := rfl
  obeys {_ _ node args _ _ _} :=
    gives_of (m := LogoEngine.makeLocal node (restArgs (.datum node :: args) 1)) rfl
instance : Obeys setPos where
  ret := rfl
  obeys {_ _ node args _ _ _} :=
    gives_of (m := atPosition node (datumArg (.datum node :: args) 1) fun x y => do
      let outcome ← Run.withHost fun host => host.setPos x y
      turtleResult outcome) rfl
instance : Obeys setVar where
  ret := rfl
  obeys {_ _ node args _ _ _} := gives_of (m := do
    let key := (← Run.heap).keyOf (datumArg (.datum node :: args) 1)
    Run.modifyFrames fun fs => fs.set key (datumArg (.datum node :: args) 2)
    return node) rfl

theorem obeys_data {op : DataOp} (hop : op.changes = true) : Obeys (data op) where
  ret := rfl
  obeys {_ _ node args _ _ _} :=
    have := gives_applyData hop node (restArgs (.datum node :: args) 1)
    gives_of (m := applyData op node (restArgs (.datum node :: args) 1)) rfl

/-- The turtle obeys without a node. -/
theorem obeys_turtle (op : TurtleOp) {re : Reenter} {pins : Pins} {args : List Value} {node : Ref}
    {w w' : World} {v : Value} (hrun : callHelper re pins (turtle op) args w = .ok (v, w')) :
    w'.IsMute node v.asDatum :=
  gives_of (m := do
    let outcome ← Run.withHost fun host => host.turtle op (args.map Value.asReal)
    turtleResult outcome) rfl hrun

end Helper

end LogoEngine
