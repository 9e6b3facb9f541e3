import LogoEngine.Proofs.Eval.Tokens
import LogoEngine.Proofs.Machine.WaysOut

/-!
# The ways out of emitted code

Everything that emits code lets a run that returns **pass**: the run comes through to the end of the
code, unless it breaks off with a token or with the reply to a pause. What the code leaves there can
be known as well (`Emit.Yields`).

A run that has come to a draft is followed **through** the code that is added to it; a run that has
gone to a label is followed **past** the code that is added until the label is opened.

Main statement: every emitter has an instance of `Emit.Passes`.
-/

namespace LogoEngine

namespace Stage

variable (s : Stage)

/-- A run has come to the end of a draft, after nothing but changes. -/
def Arrives (w₀ : World) (d : Draft) (o : Machine.Outcome) : Prop :=
  ∃ w regs, w₀.Changes w ∧ regs.size = s.final.types.size ∧ o = s.here d w regs

/-- A run has come to a label, after nothing but changes. -/
def ArrivesAt (w₀ : World) (l : Label) (o : Machine.Outcome) : Prop :=
  ∃ w regs, w₀.Changes w ∧ regs.size = s.final.types.size ∧ o = s.at_ l w regs

/-- A run has come to the end of a draft, and a register holds what `P` says. -/
def Holds (P : World → Ref → Prop) (w₀ : World) (d : Draft) (a : Reg) (o : Machine.Outcome) :
    Prop :=
  ∃ w regs, w₀.Changes w ∧ regs.size = s.final.types.size ∧ o = s.here d w regs ∧
    P w (readReg regs a).asDatum

/-- A run with at most `most` steps left gets through code that is added where it stands. -/
def Through {α : Type} (r : Ref) (w : World) (early : Block → Prop) (w₀ : World) (most : Nat)
    (m : Emit α) (Q : α → Draft → Nat → Machine.Outcome → Prop) : Prop :=
  ∀ ⦃d n o⦄, n ≤ most → s.Arrives w₀ d o → s.Must r w early m d n o Q

/-- A run with at most `most` steps left is past code that is added elsewhere, until its label is
opened. -/
def Past {α : Type} (r : Ref) (w : World) (early : Block → Prop) (w₀ : World) (most : Nat)
    (l : Label) (m : Emit α) (Q : α → Draft → Nat → Machine.Outcome → Prop) : Prop :=
  ∀ ⦃d n o⦄, n ≤ most → s.ArrivesAt w₀ l o → s.Must r w early m d n o Q

/-- A run with at most `most` steps left has gone to a label, and the code that is added starts at
the label `next`, the same or another. -/
def From {α : Type} (r : Ref) (w : World) (early : Block → Prop) (w₀ : World) (most : Nat)
    (l next : Label) (m : Emit α) (Q : α → Draft → Nat → Machine.Outcome → Prop) : Prop :=
  ∀ ⦃d n o⦄, s.Opens d next → n ≤ most → s.ArrivesAt w₀ l o → s.Must r w early m d n o Q

end Stage

namespace Emit

/-- Code that lets runs pass. -/
class Passes {α : Type} (m : Emit α) : Prop where
  must : ∀ {s : Stage} [s.re.Changes] {w₀ w : World} {early : Block → Prop}
    {r : Ref} {most : Nat}, s.Regular →
    s.Through r w early w₀ most m fun _ d' _ o' => s.Arrives w₀ d' o'

/-- Code that lets runs pass, and leaves what `P` says. -/
class Yields (P : World → Ref → Prop) (m : Emit Reg) : Prop where
  must : ∀ {s : Stage} [s.re.Changes] {w₀ w : World} {early : Block → Prop}
    {r : Ref} {most : Nat}, s.Regular →
    s.Through r w early w₀ most m fun a d' _ o' => s.Holds P w₀ d' a o'

end Emit

namespace Stage

variable {s : Stage} {r : Ref} {w w₀ : World} {early : Block → Prop} {most : Nat} {α β : Type}
  {m : Emit α} {f : α → Emit β} {Q : α → Draft → Nat → Machine.Outcome → Prop}
  {R : β → Draft → Nat → Machine.Outcome → Prop}

theorem Opens.arrives {d : Draft} {l : Label} {o : Machine.Outcome} (hopens : s.Opens d l) :
    s.Arrives w₀ d o ↔ s.ArrivesAt w₀ l o := by
  unfold Arrives ArrivesAt
  simp only [hopens _ _]

/-! ### Through code -/

theorem Through.bind [s.re.Changes] [hm : Emit.Passes m] [Emit.GrowsAll f] (hs : s.Regular)
    (h : ∀ a, s.Through r w early w₀ most (f a) R) : s.Through r w early w₀ most (m >>= f) R :=
  fun _ _ _ hn harrives => .bind ((hm.must hs hn harrives).mono fun a _ _ _ hle harrives' =>
    h a (hle.trans hn) harrives')

theorem Through.pure {a : β}
    (h : ∀ d n o, n ≤ most → s.Arrives w₀ d o → R a d n o) : s.Through r w early w₀ most (pure a) R :=
  fun d n o hn harrives => .pure (h d n o hn harrives)

section

variable {g : Unit → Emit β} [Emit.GrowsAll g]

/-- The end of a block leads to a label. -/
theorem Through.jump {l next : Label}
    (h : ∀ most' < most, s.From r w early w₀ most' l next (g ()) R) :
    s.Through r w early w₀ most (Emit.endBlock (.jump l) next >>= g) R := by
  rintro d n _ hn ⟨w₁, regs, hw, hsize, rfl⟩
  refine .bind (must_endBlock fun n' d' hn' hopens _ => ?_)
  exact h n' (by omega) hopens (Nat.le_refl _) ⟨w₁, regs, hw, hsize, rfl⟩

/-- The end of a block leads to one of two labels. -/
theorem Through.branch {cond : Reg} {yes no next : Label}
    (hyes : ∀ most' < most, s.From r w early w₀ most' yes next (g ()) R)
    (hno : ∀ most' < most, s.From r w early w₀ most' no next (g ()) R) :
    s.Through r w early w₀ most (Emit.endBlock (.branch cond yes no) next >>= g) R := by
  rintro d n _ hn ⟨w₁, regs, hw, hsize, rfl⟩
  refine .bind (must_endBlock fun n' d' hn' hopens _ => ?_)
  rw [exitTo]
  split
  · exact hyes n' (by omega) hopens (Nat.le_refl _) ⟨w₁, regs, hw, hsize, rfl⟩
  · exact hno n' (by omega) hopens (Nat.le_refl _) ⟨w₁, regs, hw, hsize, rfl⟩

/-- A token is made and returned. -/
theorem Through.ret [s.re.Changes] {build : Emit Reg} [hbuild : Emit.Yields World.IsToken build]
    {next : Label} {after : Reg → Unit → Emit β} [∀ e u, Emit.Grows (after e u)]
    (hs : s.Regular) :
    s.Through r w early w₀ most (build >>= fun e => Emit.endBlock (.ret e) next >>= after e) R := by
  intro d n o hn harrives
  refine .bind ((hbuild.must hs hn harrives).mono ?_)
  rintro e d₁ n₁ _ - ⟨w₁, regs, -, -, rfl, htoken⟩
  exact .bind (must_ret hs fun _ => .inl htoken)

/-! ### Past code -/

variable {l : Label}

theorem Past.skip [Emit.GrowsAll f] (h : ∀ a, s.Past r w early w₀ most l (f a) R) :
    s.Past r w early w₀ most l (m >>= f) R :=
  fun _ _ _ hn hat => .bind (.skip fun a _ => h a hn hat)

/-- The label is opened. -/
theorem Past.opens [Emit.Opening m l] [Emit.GrowsAll f]
    (h : ∀ a, s.Through r w early w₀ most (f a) R) : s.Past r w early w₀ most l (m >>= f) R :=
  fun _ _ _ hn hat => .bind (.opens fun a _ hopens => h a hn (hopens.arrives.mpr hat))

/-- A run that goes to where all the code comes later. -/
theorem Past.all {m : Emit β} (h : ∀ a d n o, n ≤ most → s.ArrivesAt w₀ l o → R a d n o) :
    s.Past r w early w₀ most l m R :=
  fun _ n o hn hat => .skip fun a d' => h a d' n o hn hat

end

/-! ### From labels -/

section

variable {l : Label}

theorem From.through (h : s.Through r w early w₀ most m Q) : s.From r w early w₀ most l l m Q :=
  fun _ _ _ hopens hn hat => h hn (hopens.arrives.mpr hat)

theorem From.past {next : Label} (h : s.Past r w early w₀ most l m Q) :
    s.From r w early w₀ most l next m Q :=
  fun _ _ _ _ hn hat => h hn hat

/-- A loop: code that a run goes through, or that it comes back to after at least one step. -/
theorem From.loop (h : ∀ n ≤ most, s.Through r w early w₀ n m fun a d' n' o' =>
      (n' < n ∧ s.ArrivesAt w₀ l o') ∨ Q a d' n' o') : s.From r w early w₀ most l l m Q := by
  intro d n o hopens hn hat
  refine Must.loop (fun n' hn' o' hat' => ?_) n hn o hat
  exact h n' hn' (Nat.le_refl n') (hopens.arrives.mpr hat')

end

end Stage

namespace Emit

section

variable {α β : Type} {P : World → Ref → Prop}

theorem Yields.passes {m : Emit Reg} [h : Yields P m] : Passes m where
  must hs _ _ _ hn harrives :=
    (h.must hs hn harrives).mono fun _ _ _ _ _ ⟨w, regs, hw, hsize, ho, _⟩ =>
      ⟨w, regs, hw, hsize, ho⟩

/-! ### Single steps -/

instance (a : α) : Passes (pure a) where
  must _ := .pure fun _ _ _ _ harrives => harrives

theorem Passes.bind {m : Emit α} {f : α → Emit β} [Passes m] [GrowsAll f]
    (hf : ∀ a, Passes (f a)) : Passes (m >>= f) where
  must hs := .bind hs fun a => (hf a).must hs

instance {m : Emit α} {f : α → Emit β} [Passes m] [GrowsAll f] [hf : ∀ a, Passes (f a)] :
    Passes (m >>= f) :=
  .bind hf

theorem Yields.bind {m : Emit α} {f : α → Emit Reg} [Passes m] [GrowsAll f]
    (hf : ∀ a, Yields P (f a)) : Yields P (m >>= f) where
  must hs := .bind hs fun a => (hf a).must hs

instance {m : Emit α} {f : α → Emit Reg} [Passes m] [GrowsAll f] [hf : ∀ a, Yields P (f a)] :
    Yields P (m >>= f) :=
  .bind hf

theorem Passes.typeOf {a : Reg} {f : Ty → Emit β} (hf : ∀ ty, Passes (f ty)) :
    Passes (typeOf a >>= f) where
  must hs _ _ _ hn harrives := (hf _).must hs hn harrives

instance {m : Emit α} {f : α → β} [Passes m] : Passes (f <$> m) := by
  rw [map_eq_pure_bind]; infer_instance

instance {c : Prop} [Decidable c] {m m' : Emit α} [Passes m] [Passes m'] :
    Passes (if c then m else m') := by
  split <;> infer_instance

instance (ty : Ty) : Passes (freshReg ty) where
  must _ _ _ _ _ harrives := fun _ => .refl harrives

instance : Passes freshLabel where
  must _ _ _ _ _ harrives := fun _ => .refl harrives

instance (a : Reg) : Passes (typeOf a) where
  must _ _ _ _ _ harrives := fun _ => .refl harrives

instance (c : Ref) : Passes (slot c) where
  must _ d _ _ _ harrives := by
    refine fun _ => .refl ?_
    unfold slot
    split
    · exact harrives
    · exact harrives

/-- Instructions do not change how many registers there are. -/
theorem size_of_runInstr {s : Stage} {regs regs' : Array Value} {i : Instr} {w w' : World}
    (h : runInstr s.re s.pins s.code s.block regs i w = .ok (regs', w')) :
    regs'.size = regs.size := by
  cases i with
  | call dst helper args =>
    obtain ⟨out, w₁, -, hrest⟩ := Run.bind_eq_ok h
    cases dst <;> cases hrest
    · rfl
    · exact Array.size_setIfInBounds
  | _ =>
    cases h
    exact Array.size_setIfInBounds

instance (i : Instr) : Passes (instr i) where
  must _ d n _ _ harrives := by
    obtain ⟨w₁, regs, hw, hsize, rfl⟩ := harrives
    refine Stage.must_instr fun n' regs' w₂ _ hrun => ⟨w₂, regs', ?_, ?_, rfl⟩
    · exact hw.trans (Run.Changes.changes hrun)
    · rw [size_of_runInstr hrun, hsize]

/-! ### Repetition -/

instance (f : β → α → Emit β) [∀ b a, Grows (f b a)] [∀ b a, Passes (f b a)] (b : β)
    (as : List α) : Passes (as.foldlM f b) := by
  induction as generalizing b with
  | nil => rw [List.foldlM_nil]; infer_instance
  | cons a as _ => rw [List.foldlM_cons]; infer_instance

instance (f : α → Emit β) [∀ a, Grows (f a)] [∀ a, Passes (f a)] (as : List α) :
    Passes (as.mapM f) := by
  induction as with
  | nil => rw [List.mapM_nil]; infer_instance
  | cons a as _ => rw [List.mapM_cons]; infer_instance

instance (f : α → Emit β) [∀ a, Grows (f a)] [∀ a, Passes (f a)] (o : Option α) :
    Passes (o.mapM f) := by
  cases o with
  | none => rw [Option.mapM_none]; infer_instance
  | some a => rw [Option.mapM_some]; infer_instance

end

/-! ### Instructions -/

instance (x : Float) : Passes (real x) := by unfold real; infer_instance
instance (b : Bool) : Passes (truth b) := by unfold truth; infer_instance
instance (c : Ref) : Passes (const c) := by unfold const; infer_instance
instance : Passes nothing := by unfold nothing; infer_instance
instance (dst src : Reg) : Passes (move dst src) := by unfold move; infer_instance
instance (op : ArithOp) (a b : Reg) : Passes (arith op a b) := by unfold arith; infer_instance
instance (op : CompareOp) (a b : Reg) : Passes (compare op a b) := by
  unfold compare; infer_instance
instance (a : Reg) : Passes (isInt a) := by unfold isInt; infer_instance
instance (a : Reg) : Passes (not a) := by unfold not; infer_instance
instance (a b : Reg) : Passes (and a b) := by unfold and; infer_instance
instance (helper : Helper) (rs : List Reg) : Passes (call helper rs) := by
  unfold call; infer_instance
instance (helper : Helper) (rs : List Reg) : Passes (perform helper rs) := by
  unfold perform; infer_instance
instance (who : Ref) (bad : Reg) : Passes (dislike who bad) := by unfold dislike; infer_instance
instance (who : Ref) (bad : Reg) : Passes (askAgain who bad) := by unfold askAgain; infer_instance
instance (node : Ref) : Passes (ownResult node) := by unfold ownResult; infer_instance
instance (counter one : Reg) : Passes (countPass counter one) := by
  unfold countPass; infer_instance
instance (node : Ref) (no : Option Reg) : Passes (runOther node no) := by
  cases no <;> unfold runOther <;> infer_instance
instance (wanted : Bool) : Passes (testedAs wanted) := by
  cases wanted <;> unfold testedAs <;> infer_instance

end Emit

/-! ### Steps that lead elsewhere -/

section

open Emit (GrowsAll)

variable {s : Stage} {r : Ref} {w w₀ : World} {early : Block → Prop} {most : Nat} {β : Type}
  {who : Ref} {a b bad : Reg} {l target next : Label} {g : Unit → Emit β} [GrowsAll g]
  {R : β → Draft → Nat → Machine.Outcome → Prop}

namespace Stage

/-- A value is looked for at another label. -/
theorem Through.deliver [s.re.Changes] (hs : s.Regular)
    (h : ∀ most' < most, s.From r w early w₀ most' target next (g ()) R) :
    s.Through r w early w₀ most (Emit.deliver a b target next >>= g) R := by
  simp only [Emit.deliver, bind_assoc]
  exact .bind hs fun _ => .jump h

/-- Values of other kinds are treated at another label. -/
theorem Through.whenKind [s.re.Changes] (hs : s.Regular) {mask : Nat} {f : Label → Emit β}
    [hf : GrowsAll f]
    (hyes : ∀ no, ∀ most' < most, s.Through r w early w₀ most' (f no) R)
    (hno : ∀ no, ∀ most' < most, s.Past r w early w₀ most' no (f no) R) :
    s.Through r w early w₀ most (Emit.whenKind mask a >>= f) R := by
  have := hf.grows
  simp only [Emit.whenKind, bind_assoc, pure_bind]
  exact .bind hs fun _ => .bind hs fun _ => .bind hs fun no =>
    .branch (fun n hn => .through (hyes no n hn)) fun n hn => .past (hno no n hn)

/-- `ERRACT` decides where a run goes. -/
theorem Through.askOrGiveUp [s.re.Changes] (hs : s.Regular) {ask giveUp : Label}
    (hask : ∀ most' < most, s.From r w early w₀ most' ask ask (g ()) R)
    (hgiveUp : ∀ most' < most, s.From r w early w₀ most' giveUp ask (g ()) R) :
    s.Through r w early w₀ most (Emit.askOrGiveUp ask giveUp >>= g) R := by
  simp only [Emit.askOrGiveUp, bind_assoc]
  exact .bind hs fun _ => .branch hask hgiveUp

/-- The kind of a reply decides where a run goes. -/
theorem Through.branchOnData [s.re.Changes] (hs : s.Regular) {data notData : Label}
    (hdata : ∀ most' < most, s.From r w early w₀ most' data next (g ()) R)
    (hnotData : ∀ most' < most, s.From r w early w₀ most' notData next (g ()) R) :
    s.Through r w early w₀ most (Emit.branchOnData a data notData next >>= g) R := by
  simp only [Emit.branchOnData, bind_assoc]
  exact .bind hs fun _ => .branch hdata hnotData

end Stage

end

/-! ### Tokens -/

section

variable {s : Stage} {w₀ w w₁ : World} {early : Block → Prop} {r : Ref} {n : Nat} {d : Draft}
  {regs : Array Value}

/-- A call puts what the helper gives into a new register. -/
theorem Stage.must_call {helper : Helper} {args : List Reg}
    {Q : Reg → Draft → Nat → Machine.Outcome → Prop}
    (h : ∀ dst d' n' out w₂, n = n' + 1 →
      callHelper s.re (.registers regs :: s.pins) helper (args.map (readReg regs)) w₁ =
        .ok (out, w₂) →
      Declares s.final.types dst (helper.signature.ret.getD .datum) →
      Q dst d' n' (s.here d' w₂ (writeReg regs dst out))) :
    s.Must r w early (Emit.call helper args) d n (s.here d w₁ regs) Q := by
  refine .within fun hw => ?_
  have hdst : Declares s.final.types ⟨d.types.size⟩ (helper.signature.ret.getD .datum) := by
    have hnew : Declares (Emit.call helper args d).2.types ⟨d.types.size⟩
        (helper.signature.ret.getD .datum) := by
      show (d.types.push _)[d.types.size]? = _
      simp
    exact hnew.mono hw.types
  refine Stage.must_instr (d := (Emit.freshReg (helper.signature.ret.getD .datum) d).2)
    (Q := fun _ d' n' o => Q ⟨d.types.size⟩ d' n' o) fun n' regs' w₂ hn hrun => ?_
  obtain ⟨out, w₃, hcall, hrest⟩ := Run.bind_eq_ok (m := callHelper _ _ _ _) hrun
  cases hrest
  exact h _ _ n' out w₂ hn hcall hdst

/-- Registers of different types are different. -/
theorem Declares.readReg_writeReg {types : Array Ty} {a b : Reg} {ty ty' : Ty}
    (ha : Declares types a ty) (hb : Declares types b ty') (hne : ty ≠ ty') (v : Value) :
    readReg (writeReg regs b v) a = readReg regs a := by
  refine readReg_writeReg_of_ne fun heq => hne ?_
  rw [Declares] at ha hb
  rw [heq, hb] at ha
  exact (Option.some.inj ha).symm

/-- The kind of a value is tested, and objects stay where they are. -/
theorem Stage.must_hasTag {mask : Nat} {value : Reg}
    {Q : Reg → Draft → Nat → Machine.Outcome → Prop} (hsize : regs.size = s.final.types.size)
    (h : ∀ dst d' n' regs', n = n' + 1 → regs'.size = s.final.types.size →
      readReg regs' dst = .truth ((w₁.heap.get (readReg regs value).asDatum).hasTag mask) →
      (∀ a, Declares s.final.types a .datum → readReg regs' a = readReg regs a) →
      Q dst d' n' (s.here d' w₁ regs')) :
    s.Must r w early (Emit.call (.hasTag mask) [value]) d n (s.here d w₁ regs) Q := by
  refine Stage.must_call fun dst d₁ n₁ out w₂ hn hcall hdst => ?_
  cases hcall
  have hdst : Declares s.final.types dst .truth := hdst
  refine h dst d₁ n₁ _ hn (by simpa [writeReg] using hsize) ?_ fun a ha => ?_
  · exact readReg_writeReg_self (hsize ▸ hdst.lt_size)
  · exact ha.readReg_writeReg hdst (by decide) _

/-- A value is returned only if the condition holds, and then it breaks the run off. -/
theorem Stage.must_returnWhen {cond : Reg} {build : Emit Reg} [Emit.Grows build]
    {Q : Unit → Draft → Nat → Machine.Outcome → Prop} (hs : s.Regular)
    (hgo : (readReg regs cond).asTruth = false →
      ∀ d' n', n' ≤ n → Q () d' n' (s.here d' w₁ regs))
    (hleave : (readReg regs cond).asTruth = true → ∀ d₁ n₁,
      s.Must r w early build d₁ n₁ (s.here d₁ w₁ regs) fun value d₂ _ o => ∃ w₂ regs₂,
        o = s.here d₂ w₂ regs₂ ∧
          (Declares s.final.types value .datum → w₂.Breaks (readReg regs₂ value).asDatum)) :
    s.Must r w early (Emit.returnWhen cond build) d n (s.here d w₁ regs) Q := by
  refine .bind (Stage.must_freshLabel fun leave d₁ => .bind (Stage.must_freshLabel fun go d₂ => ?_))
  refine .bind (Stage.must_endBlock fun n₃ d₃ hn₃ hopen₃ _ => ?_)
  rw [Stage.exitTo]
  cases hcond : (readReg regs cond).asTruth with
  | false =>
    refine .bind (.skip fun value d₄ => .opens fun _ d₅ hopen₅ => ?_)
    rw [if_neg Bool.false_ne_true, ← hopen₅]
    exact hgo hcond d₅ n₃ (by omega)
  | true =>
    rw [if_pos rfl, ← hopen₃]
    refine .bind ((hleave hcond d₃ n₃).mono ?_)
    rintro value d₄ n₄ _ - ⟨w₂, regs₂, rfl, hbreaks⟩
    exact Stage.must_ret hs hbreaks

/-- A token is returned, and otherwise objects stay where they are. -/
theorem Stage.must_passToken {value : Reg} {Q : Unit → Draft → Nat → Machine.Outcome → Prop}
    (hs : s.Regular) (hsize : regs.size = s.final.types.size)
    (h : w₁.heap.isFlow (readReg regs value).asDatum = false → ∀ d' n' regs', n' ≤ n →
      regs'.size = s.final.types.size →
      (∀ a, Declares s.final.types a .datum → readReg regs' a = readReg regs a) →
      Q () d' n' (s.here d' w₁ regs')) :
    s.Must r w early (Emit.passToken value) d n (s.here d w₁ regs) Q := by
  refine .bind (Stage.must_hasTag hsize fun isFlow d₁ n₁ regs₁ hn hsize₁ hisFlow hkept => ?_)
  refine Stage.must_returnWhen hs (fun hno d₂ n₂ hn₂ => ?_) fun hyes d₂ n₂ => ?_
  · rw [hisFlow] at hno
    exact h hno d₂ n₂ regs₁ (by omega) hsize₁ hkept
  · rw [hisFlow] at hyes
    refine .pure ⟨w₁, regs₁, rfl, fun hdatum => .inl ?_⟩
    rw [hkept value hdatum]
    exact hyes

end

namespace Emit

instance (value : Reg) : Passes (passToken value) where
  must hs d n _ _ harrives := by
    obtain ⟨w₁, regs, hw, hsize, rfl⟩ := harrives
    exact Stage.must_passToken hs hsize fun _ d' n' regs' _ hsize' _ => ⟨w₁, regs', hw, hsize', rfl⟩

instance (cond : Reg) (build : Emit Reg) [Grows build] [hbuild : Yields World.IsToken build] :
    Passes (returnWhen cond build) where
  must hs d n _ _ harrives := by
    obtain ⟨w₁, regs, hw, hsize, rfl⟩ := harrives
    refine Stage.must_returnWhen hs (fun _ d' n' _ => ⟨w₁, regs, hw, hsize, rfl⟩) fun _ d₁ n₁ => ?_
    refine (hbuild.must hs (Nat.le_refl n₁) ⟨w₁, regs, hw, hsize, rfl⟩).mono ?_
    rintro value d₂ n₂ _ - ⟨w₂, regs₂, -, -, rfl, htoken⟩
    exact ⟨w₂, regs₂, rfl, fun _ => .inl htoken⟩

instance (helper : Helper) [hhelper : helper.MakesToken] (args : List Reg) :
    Yields World.IsToken (call helper args) where
  must hs d n _ _ harrives := by
    obtain ⟨w₁, regs, hw, hsize, rfl⟩ := harrives
    refine Stage.must_call fun dst d' n' out w₂ _ hcall hdst => ⟨w₂, _, ?_, ?_, rfl, ?_⟩
    · exact hw.trans (Run.Changes.changes hcall)
    · simpa [writeReg] using hsize
    · rw [readReg_writeReg_self (hsize ▸ hdst.lt_size)]
      exact hhelper.makes hcall

instance (who : Ref) (bad : Reg) : Yields World.IsToken (dislike who bad) := by
  unfold dislike; infer_instance

/-- A pause gives its reply. -/
instance : Yields World.Replied (call .pause []) where
  must hs d n _ _ harrives := by
    obtain ⟨w₁, regs, hw, hsize, rfl⟩ := harrives
    refine Stage.must_call fun dst d' n' out w₂ _ hcall hdst => ⟨w₂, _, ?_, ?_, rfl, ?_⟩
    · exact hw.trans (Run.Changes.changes hcall)
    · simpa [writeReg] using hsize
    · rw [readReg_writeReg_self (hsize ▸ hdst.lt_size)]
      rw [callHelper, map_eq_pure_bind] at hcall
      obtain ⟨v, _, hpause, hpure⟩ := Run.bind_eq_ok hcall
      cases hpure
      exact ⟨w₁, hpause⟩

instance (who : Ref) (bad : Reg) : Yields World.Replied (askAgain who bad) := by
  unfold askAgain; infer_instance

end Emit

/-! ### Tokens on the way -/

section

theorem readReg_writeReg_readReg (regs : Array Value) (a b : Reg) :
    readReg (writeReg regs a (readReg regs b)) b = readReg regs b := by
  by_cases h : b.index = a.index
  · simp only [readReg, writeReg, Array.getD_eq_getD_getElem?, h]
    by_cases hlt : a.index < regs.size <;> simp [hlt]
  · exact readReg_writeReg_of_ne h

variable {s : Stage} {r : Ref} {w w₀ : World} {early : Block → Prop} {most : Nat} [s.re.Changes]
  {β : Type} {R : β → Draft → Nat → Machine.Outcome → Prop}

/-- Code that makes a token and returns it lets nothing pass. -/
theorem Stage.through_returnNow (hs : s.Regular) {build : Emit Reg} {after : Reg → Unit → Emit β}
    [hbuild : Emit.Yields World.IsToken build] [∀ e u, Emit.Grows (after e u)] :
    s.Through r w early w₀ most (build >>= fun e => Emit.returnNow e >>= after e) R := by
  intro d n o hn harrives
  refine .bind ((hbuild.must hs hn harrives).mono ?_)
  rintro e d₁ n₁ _ - ⟨w₁, regs, -, -, rfl, htoken⟩
  refine .bind (.bind (Stage.must_freshLabel fun dead d₂ => ?_))
  exact Stage.must_ret hs fun _ => .inl htoken

/-- An error is returned, and nothing passes. -/
theorem Stage.Through.reject (hs : s.Regular) {who : Ref} {bad : Reg} {next : Label}
    {g : Unit → Emit β} [Emit.GrowsAll g] :
    s.Through r w early w₀ most (Emit.reject who bad next >>= g) R := by
  have := ‹Emit.GrowsAll g›.grows
  simp only [Emit.reject, bind_assoc]
  exact .ret hs

/-- The reply to a pause is tried again, or it is returned because it is no data. -/
theorem Stage.through_reply (hs : s.Regular) {who : Ref} {candidate bad : Reg}
    {again notData next : Label} {after : Emit β} [Emit.Grows after]
    (h : ∀ most' < most, s.Past r w early w₀ most' again after R) :
    s.Through r w early w₀ most (do
      let reply ← Emit.askAgain who bad
      Emit.move candidate reply
      Emit.branchOnData reply again notData notData
      Emit.endBlock (.ret candidate) next
      after) R := by
  intro d n o hn harrives
  refine .bind ((Emit.Yields.must (P := World.Replied) hs hn harrives).mono ?_)
  rintro reply d₁ n₁ _ hn₁ ⟨w₁, regs, hw, hsize, rfl, hreplied⟩
  refine .bind (Stage.must_instr fun n₂ regs₂ w₃ hn₂ hrun => ?_)
  cases hrun
  have hsize₂ : (writeReg regs candidate (readReg regs reply)).size = s.final.types.size := by
    simpa [writeReg] using hsize
  refine .bind (.bind (Stage.must_hasTag hsize₂ fun isData _ n₃ regs₃ hn₃ hsize₃ hisData hkept => ?_))
  rw [readReg_writeReg_readReg] at hisData
  refine Stage.must_endBlock fun n₄ d₄ hn₄ hopens₄ _ => ?_
  rw [Stage.exitTo, hisData]
  split
  · refine .bind (.skip fun _ d₅ => ?_)
    exact h n₄ (by omega) (Nat.le_refl _) ⟨w₁, regs₃, hw, hsize₃, rfl⟩
  · next hno =>
    rw [← hopens₄]
    refine .bind (Stage.must_ret hs fun hdatum => .inr ?_)
    rw [hkept candidate hdatum, readReg_writeReg_self (hsize ▸ hdatum.lt_size)]
    exact ⟨Bool.eq_false_iff.mpr hno, hreplied⟩

/-! ### After a pass of a loop -/

section

variable {value saved : Reg} {g : Unit → Emit β} [Emit.GrowsAll g]

omit [s.re.Changes] in
/-- A token leaves a loop, and the number of repetitions is put back before. -/
theorem Stage.Through.leaveLoop (hs : s.Regular)
    (hgo : ∀ most' < most, s.Through r w early w₀ most' (g ()) R) :
    s.Through r w early w₀ most (Emit.leaveLoop value saved >>= g) R := by
  simp only [Emit.leaveLoop, Emit.whenKind, bind_assoc, pure_bind]
  rintro d n _ hn ⟨w₁, regs, hw, hsize, rfl⟩
  refine .bind (Stage.must_hasTag hsize fun isFlow d₁ n₁ regs₁ hn₁ hsize₁ hisFlow hkept => ?_)
  refine .bind (Stage.must_freshLabel fun leave d₂ => .bind (Stage.must_freshLabel fun go d₃ => ?_))
  refine .bind (Stage.must_endBlock fun n₄ d₄ hn₄ hopens₄ _ => ?_)
  rw [Stage.exitTo, hisFlow]
  split
  · next hflow =>
    rw [← hopens₄]
    refine .bind (Stage.must_instr fun n₅ regs₅ w₅ _ hrun => ?_)
    cases hrun
    refine .bind (Stage.must_ret hs fun hdatum => .inl ?_)
    rw [hkept value hdatum]
    exact hflow
  · refine .bind (.skip fun _ d₅ => .bind (.opens fun _ d₆ hopens₆ => ?_))
    exact hgo n₄ (by omega) (Nat.le_refl n₄)
      (hopens₆.arrives.mpr ⟨w₁, regs₁, hw, hsize₁, rfl⟩)

/-- Data leaves the loop in the last pass, and is looked at otherwise. -/
theorem Stage.Through.keepLast (hs : s.Regular) {dontSay : Label}
    {last : Option (Reg × Reg × Label)}
    (hsay : ∀ most' < most, s.Through r w early w₀ most' (g ()) R)
    (hexit : ∀ isLast result exit, last = some (isLast, result, exit) →
      ∀ most' < most, s.Past r w early w₀ most' exit (g ()) R) :
    s.Through r w early w₀ most (Emit.keepLast value dontSay last >>= g) R := by
  rcases last with - | ⟨isLast, result, exit⟩
  · exact .jump fun n hn => .through (hsay n hn)
  · simp only [Emit.keepLast, bind_assoc]
    refine .bind hs fun keep => .branch (fun n₁ hn₁ => .through ?_) fun n₁ hn₁ => .past ?_
    · exact .deliver hs fun n₂ hn₂ => .past (hexit isLast result exit rfl n₂ (by omega))
    · exact .opens fun _ => hsay n₁ hn₁

/-- The error is returned, and nothing passes. -/
theorem Stage.Through.refuseData (hs : s.Regular) {next : Label} :
    s.Through r w early w₀ most (Emit.refuseData value saved next >>= g) R := by
  have := ‹Emit.GrowsAll g›.grows
  simp only [Emit.refuseData, bind_assoc]
  exact .bind hs fun _ => .ret hs

/-- After a pass of a loop the code goes on, or the loop ends if this was the last pass. -/
theorem Stage.Through.passOutcome (hs : s.Regular) {last : Option (Reg × Reg × Label)}
    (hgo : ∀ most' < most, s.Through r w early w₀ most' (g ()) R)
    (hlast : ∀ isLast result exit, last = some (isLast, result, exit) →
      ∀ most' < most, s.Past r w early w₀ most' exit (g ()) R) :
    s.Through r w early w₀ most (Emit.passOutcome value saved last >>= g) R := by
  simp only [Emit.passOutcome, bind_assoc]
  refine .leaveLoop hs fun n₁ hn₁ => .whenKind hs (fun no n₂ hn₂ => ?_) fun no n₂ hn₂ => ?_
  · refine .bind hs fun dontSay => .keepLast hs (fun _ _ => .refuseData hs) ?_
    exact fun isLast result exit hsome n₃ hn₃ =>
      .skip fun _ => hlast isLast result exit hsome n₃ (by omega)
  · exact .skip fun _ => .skip fun _ => .opens fun _ => hgo n₂ (by omega)

end

end

namespace Emit

instance {α : Type} {build : Emit Reg} {after : Reg → Unit → Emit α}
    [Yields World.IsToken build] [∀ e u, Grows (after e u)] :
    Passes (build >>= fun e => returnNow e >>= after e) where
  must hs := Stage.through_returnNow hs

instance {P : World → Ref → Prop} {build : Emit Reg} {after : Reg → Unit → Emit Reg}
    [Yields World.IsToken build] [∀ e u, Grows (after e u)] :
    Yields P (build >>= fun e => returnNow e >>= after e) where
  must hs := Stage.through_returnNow hs

/-! ### Checked inputs and casts -/

section

variable (who : Ref) (src : Reg) (request produced : Request)

instance (check : Reg → Emit Reg) [∀ a, Grows (check a)] [∀ a, Passes (check a)] :
    Passes (retryDatum who src check) where
  must hs := by
    unfold retryDatum
    repeat refine .bind hs fun _ => ?_
    refine .jump fun _ _ => .loop fun n _ => .bind hs fun _ => ?_
    refine .branch (fun _ _ => .past ?_) fun n₁ hn₁ => .through ?_
    · -- the candidate is accepted
      repeat first | refine .opens fun _ => ?_ | refine .skip fun _ => ?_
      exact .pure fun _ _ _ _ harrives => .inr harrives
    refine .askOrGiveUp hs (fun n₂ hn₂ => .through ?_) fun n₂ hn₂ => .past ?_
    · refine Stage.through_reply hs fun n₃ hn₃ => ?_
      exact .all fun _ _ n' _ hn' hat => .inl ⟨by omega, hat⟩
    · repeat first | refine .opens fun _ => ?_ | refine .skip fun _ => ?_
      exact .reject hs

instance (check : Reg → Emit Reg) [∀ a, Grows (check a)] [∀ a, Passes (check a)] :
    Passes (retryReal who src check) where
  must hs := by
    unfold retryReal
    repeat refine .bind hs fun _ => ?_
    refine .jump fun _ _ => .loop fun n _ => .bind hs fun _ => ?_
    refine .branch (fun _ _ => .past ?_) fun n₁ hn₁ => .through ?_
    · -- the candidate is accepted
      repeat first | refine .opens fun _ => ?_ | refine .skip fun _ => ?_
      exact .pure fun _ _ _ _ harrives => .inr harrives
    repeat refine .bind hs fun _ => ?_
    refine .askOrGiveUp hs (fun n₂ hn₂ => .loop fun n₃ hn₃ => ?_) fun n₂ hn₂ => .past ?_
    · -- a reply is read as a number, and one that is none is asked for again
      refine .bind hs fun _ => .branchOnData hs (fun n₄ hn₄ => .through ?_) fun n₄ hn₄ => .past ?_
      · repeat refine .bind hs fun _ => ?_
        refine .branch (fun n₅ hn₅ => .past (.all ?_)) fun n₅ hn₅ => .past (.all ?_)
        · exact fun _ _ n' _ hn' hat => .inr (.inl ⟨by omega, hat⟩)
        · exact fun _ _ n' _ hn' hat => .inl ⟨by omega, hat⟩
      · repeat first | refine .opens fun _ => ?_ | refine .skip fun _ => ?_
        exact .ret hs
    · repeat first | refine .opens fun _ => ?_ | refine .skip fun _ => ?_
      exact .reject hs

instance : Passes (realFromDatum who src) := by unfold realFromDatum; infer_instance
instance : Passes (truthFromDatum who src) := by unfold truthFromDatum; infer_instance
instance (mask : Nat) : Passes (datumOfKind who mask src) := by unfold datumOfKind; infer_instance
instance : Passes (int32 who src) := by unfold int32; infer_instance
instance (op : CompareOp) : Passes (comparedToZero op who src) := by
  unfold comparedToZero; infer_instance
instance : Passes (nonzeroInt32 who src) := by unfold nonzeroInt32; infer_instance
instance : Passes (positiveInt32 who src) := by unfold positiveInt32; infer_instance
instance : Passes (count who src) := by unfold count; infer_instance

instance : Passes (requireNothing src) := by unfold requireNothing; infer_instance
instance : Passes (requireValue who src) := by unfold requireValue; infer_instance
instance : Passes (nativeFromDatum who src request) := by unfold nativeFromDatum; infer_instance
instance : Passes (placeholder request) := by unfold placeholder; infer_instance
instance : Passes (castBoxed src who request) := by unfold castBoxed; infer_instance
instance : Passes (castDatum src who produced request) := by unfold castDatum; infer_instance
instance : Passes (cast src who produced request) := by
  unfold cast
  refine .typeOf fun ty => ?_
  cases ty <;> infer_instance

end

/-! ### Arithmetic -/

section

variable (who node : Ref) (a b c : Reg)

instance (step : Reg → Reg → Emit Reg) [∀ a b, Grows (step a b)] [∀ a b, Passes (step a b)]
    (identity : Float) (rs : List Reg) : Passes (fold step identity rs) := by
  cases rs <;> unfold fold <;> infer_instance
instance : Passes (negate a) := by unfold negate; infer_instance
instance : Passes (reciprocal who a) := by unfold reciprocal; infer_instance
instance : Passes (quotient who a b) := by unfold quotient; infer_instance
instance (f : MathFn) : Passes (remainder f who a b) := by unfold remainder; infer_instance
instance : Passes (squareRoot who a) := by unfold squareRoot; infer_instance
instance (f : MathFn) : Passes (logarithm f who a) := by unfold logarithm; infer_instance
instance : Passes (power who a b) where
  must hs := by
    unfold power
    repeat refine .bind hs fun _ => ?_
    refine .branch (fun _ _ => .through ?_) fun _ _ => .past ?_
    · exact .bind hs fun _ => .deliver hs fun _ _ => .through (Passes.must hs)
    · exact .skip fun _ => .opens fun _ => Passes.must hs
instance (f : MathFn) (degrees : Bool) : Passes (trigonometric f degrees a) := by
  unfold trigonometric; infer_instance
instance (degrees : Bool) : Passes (inUnit degrees a) := by unfold inUnit; infer_instance
instance (degrees : Bool) : Passes (arctangent degrees a) := by unfold arctangent; infer_instance
instance (degrees : Bool) : Passes (arctangentOf degrees a b) := by
  unfold arctangentOf; infer_instance
instance (f : MathFn) (identity : Float) (rs : List Reg) : Passes (bitwise f identity who rs) := by
  unfold bitwise; infer_instance
instance : Passes (complement who a) := by unfold complement; infer_instance
instance (f : MathFn) : Passes (shift f who a b) := by unfold shift; infer_instance
instance : Passes (random who a) := by unfold random; infer_instance
instance : Passes (randomRange who a b) := by
  unfold randomRange
  exact .bind fun _ => .bind fun _ => inferInstance
instance (rs : List Reg) : Passes (rerandom who node rs) := by
  cases rs <;> unfold rerandom <;> infer_instance
instance : Passes (form who a b c) := by unfold form; infer_instance
instance : Passes (infixFault who node) := by unfold infixFault; infer_instance

/-! ### Control structures -/

instance : Passes (runIfList who a) where
  must hs := by
    unfold runIfList
    repeat refine .bind hs fun _ => ?_
    refine .whenKind hs (fun _ _ _ => ?_) fun _ _ _ => ?_
    · repeat refine .bind hs fun _ => ?_
      exact .deliver hs fun _ _ => .through (Passes.must hs)
    · repeat first | refine .opens fun _ => ?_ | refine .skip fun _ => ?_
      exact Passes.must hs
instance : Passes (condition who a) := by
  unfold condition
  refine .typeOf fun ty => ?_
  cases ty <;> infer_instance
instance : Passes (runnable who a) := by unfold runnable; infer_instance
instance : Passes (run who a) := by unfold run; infer_instance
instance : Passes (runResult who a) := by unfold runResult; infer_instance

instance : Passes (repetition who node a b) where
  must hs := by
    unfold repetition
    repeat refine .bind hs fun _ => ?_
    refine .jump fun _ _ => .loop fun n _ => .bind hs fun _ => ?_
    refine .branch (fun n₁ hn₁ => .through ?_) fun n₁ hn₁ => .past ?_
    · repeat refine .bind hs fun _ => ?_
      refine .passOutcome hs (fun n₂ hn₂ => .bind hs fun _ => .jump fun n₃ hn₃ => .past ?_) ?_
      · exact .all fun _ _ n' _ hn' hat => .inl ⟨by omega, hat⟩
      · rintro _ _ exit hexit n₂ hn₂
        cases hexit
        refine .skip fun _ => .opens fun _ => .bind hs fun _ => ?_
        exact .pure fun _ _ _ _ harrives => .inr harrives
    · repeat first | refine .opens fun _ => ?_ | refine .skip fun _ => ?_
      exact .bind hs fun _ => .pure fun _ _ _ _ harrives => .inr harrives

/-- `FOREVER` is left with a token only. -/
theorem through_forever {s : Stage} [s.re.Changes] {r : Ref} {w w₀ : World}
    {early : Block → Prop} {most : Nat} {R : Reg → Draft → Nat → Machine.Outcome → Prop} (hs : s.Regular) :
    s.Through r w early w₀ most (forever who node a) R := by
  unfold forever
  repeat refine .bind hs fun _ => ?_
  refine .jump fun _ _ => .loop fun n _ => ?_
  repeat refine .bind hs fun _ => ?_
  refine .passOutcome hs (fun n₁ hn₁ => ?_) fun _ _ _ hnone => by cases hnone
  refine .bind hs fun _ => .bind hs fun _ => .jump fun n₂ hn₂ => .past ?_
  exact .all fun _ _ n' _ hn' hat => .inl ⟨by omega, hat⟩

instance : Passes (forever who node a) := ⟨fun hs => through_forever who node a hs⟩
instance {P : World → Ref → Prop} : Yields P (forever who node a) :=
  ⟨fun hs => through_forever who node a hs⟩

instance (no : Option Reg) : Passes (conditional who node a b no) where
  must hs := by
    unfold conditional
    repeat refine .bind hs fun _ => ?_
    refine .branch (fun _ _ => .through ?_) fun _ _ => .past ?_
    · refine .bind hs fun _ => .deliver hs fun _ _ => .past ?_
      exact .skip fun _ => .opens fun _ => Passes.must hs
    · refine .skip fun _ => .opens fun _ => .bind hs fun _ => ?_
      exact .deliver hs fun _ _ => .through (Passes.must hs)

instance : Passes (test who node a) := by unfold test; infer_instance
instance (wanted : Bool) : Passes (ifTested wanted who node a) where
  must hs := by
    unfold ifTested
    repeat refine .bind hs fun _ => ?_
    refine .branch (fun _ _ => .through ?_) fun _ _ => .past ?_
    · exact .bind hs fun _ => .deliver hs fun _ _ => .through (Passes.must hs)
    · exact .skip fun _ => .opens fun _ => Passes.must hs

instance (helper : Helper) [helper.MakesToken] (rs : List Reg) :
    Passes (leaveWith node helper rs) := by
  unfold leaveWith; infer_instance
instance : Passes (goto node a) := by unfold goto; infer_instance
instance : Passes (catching who node a b) := by
  unfold catching
  exact .bind fun _ => .bind fun _ => inferInstance
instance (value : Option Reg) : Passes (throwing node a value) := by
  cases value <;> unfold throwing <;> infer_instance
instance (value : Option Reg) : Passes (resume node value) := by
  cases value <;> unfold resume <;> infer_instance

/-! ### Data, variables, output and turtle -/

instance (helper : Helper) (rs : List Reg) : Passes (ask helper rs) := by
  unfold ask; infer_instance
instance (helper : Helper) (rs : List Reg) : Passes (askWithNode helper node rs) := by
  unfold askWithNode; infer_instance
instance : Passes (assign who node a b) := by unfold assign; infer_instance
instance (mode : WriteMode) (rs : List Reg) : Passes (write mode node rs) := by
  unfold write; infer_instance
instance (rs : List Reg) : Passes (procedureCall node rs) := by
  unfold procedureCall; infer_instance
instance : Passes (variableValue node) := by unfold variableValue; infer_instance

/-! ### Commands -/

/-- What stands for no value of a node. -/
def Silent (node : Ref) (_ : World) (r : Ref) : Prop :=
  r = node ∨ r = Ref.nothing

instance : Yields (Silent node) (const node) where
  must hs d n _ _ harrives := by
    obtain ⟨w₁, regs, hw, hsize, rfl⟩ := harrives
    refine (Stage.runs_const hsize fun dst d' regs' hkeeps hdst => ?_).must
    exact ⟨w₁, regs', hw, hkeeps.size.trans hsize, rfl, .inl (by rw [hdst.reads]; rfl)⟩

/-- A command is carried out, and its token is handed on. -/
theorem must_ask {s : Stage} [s.re.Changes] {r : Ref} {w w₀ w₁ : World} {early : Block → Prop}
    {d : Draft} {n : Nat}
    {regs : Array Value} (hs : s.Regular) (hw : w₀.Changes w₁)
    (hsize : regs.size = s.final.types.size) {helper : Helper} {rs : List Reg}
    (hret : helper.signature.ret = some .datum)
    (hmute : ∀ v w₂, callHelper s.re (.registers regs :: s.pins) helper (rs.map (readReg regs)) w₁ =
      .ok (v, w₂) → w₂.IsMute node v.asDatum) :
    s.Must r w early (ask helper rs) d n (s.here d w₁ regs) fun a d' _ o =>
      s.Holds (Silent node) w₀ d' a o := by
  refine .bind (Stage.must_call fun dst d₁ n₁ out w₂ _ hcall hdst => ?_)
  rw [hret, Option.getD_some] at hdst
  have hsize₁ : (writeReg regs dst out).size = s.final.types.size := by
    simpa [writeReg] using hsize
  have hread : readReg (writeReg regs dst out) dst = out :=
    readReg_writeReg_self (hsize ▸ hdst.lt_size)
  refine .bind (Stage.must_passToken hs hsize₁ fun hno d₂ n₂ regs₂ _ hsize₂ hkept => ?_)
  refine .pure ⟨w₂, regs₂, hw.trans (Run.Changes.changes hcall), hsize₂, rfl, ?_⟩
  rw [hread] at hno
  rw [hkept dst hdst, hread]
  rcases hmute out w₂ hcall with htoken | hsilent
  · rw [World.IsToken, hno] at htoken
    cases htoken
  · exact hsilent

instance (helper : Helper) [hhelper : helper.Obeys] (rs : List Reg) :
    Yields (Silent node) (askWithNode helper node rs) where
  must {s _ w₀ w early r most} hs d n _ hn harrives := by
    obtain ⟨w₁, regs, hw, hsize, rfl⟩ := harrives
    refine .bind (Stage.Must.mono (Q := fun self d' _ o => ∃ regs', regs'.size = s.final.types.size ∧
      o = s.here d' w₁ regs' ∧ readReg regs' self = .datum node) ?_ ?_)
    · refine (Stage.runs_const hsize fun dst d' regs' hkeeps hdst => ?_).must
      exact ⟨regs', hkeeps.size.trans hsize, rfl, hdst.reads⟩
    · rintro self d₁ n₁ _ - ⟨regs', hsize', rfl, hself⟩
      refine must_ask node hs hw hsize' hhelper.ret fun v w₂ hcall => ?_
      rw [List.map_cons, hself] at hcall
      exact hhelper.obeys hcall

instance (op : TurtleOp) (rs : List Reg) : Yields (Silent node) (ask (.turtle op) rs) where
  must {s _ w₀ w early r most} hs d n _ hn harrives := by
    obtain ⟨w₁, regs, hw, hsize, rfl⟩ := harrives
    exact must_ask node hs hw hsize rfl fun v w₂ hcall => Helper.obeys_turtle op hcall

instance : Yields (Silent node) (assign who node a b) := by unfold assign; infer_instance
instance (mode : WriteMode) (rs : List Reg) : Yields (Silent node) (write mode node rs) := by
  unfold write; infer_instance
instance : Yields (Silent node) (test who node a) := by unfold test; infer_instance
instance (rs : List Reg) : Yields (Silent node) (rerandom who node rs) := by
  cases rs <;> unfold rerandom <;> infer_instance
instance {P : World → Ref → Prop} (helper : Helper) [helper.MakesToken] (rs : List Reg) :
    Yields P (leaveWith node helper rs) := by
  unfold leaveWith; infer_instance
instance {P : World → Ref → Prop} : Yields P (goto node a) := by unfold goto; infer_instance
instance {P : World → Ref → Prop} (value : Option Reg) : Yields P (throwing node a value) := by
  cases value <;> unfold throwing <;> infer_instance

end

end Emit

end LogoEngine
