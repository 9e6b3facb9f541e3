import LogoEngine.Lower.Unit
import LogoEngine.Proofs.Expression.Casting

/-!
# Operators and casts at run time

The code of every operator gives what `Generator.calculate` says of its inputs, and a cast gives
what reading the value as a number or a truth value says.
-/

namespace LogoEngine.Stage

variable {s : Stage} {d : Draft} {w : World} {regs : Array Value} {who : Ref} {a b r : Reg}
  {x y : Float} {p : Bool} {v : Value} {word : Word} {op : ArithOp} {produced request : Request}

/-! ### Values in registers -/

/-- What a register holds stands for a value: it is the value, or the native reading of an object
that the consumer asks for. Nodes that leave an object claim to produce one. -/
inductive Stands (h : Heap) (produced request : Request) : Value → Value → Prop
  | real (x : Float) : Stands h produced request (.real x) (.real x)
  | truth (b : Bool) : Stands h produced request (.truth b) (.truth b)
  | datum (r : Ref) (hproduced : produced = .datum) :
      Stands h produced request (.datum r) (.datum r)
  | readReal (r : Ref) (x : Float) (hrequest : request = .real) (hread : h.number? r = some x) :
      Stands h produced request (.real x) (.datum r)
  | readTruth (r : Ref) (b : Bool) (hrequest : request = .truth) (hread : h.truth? r = some b) :
      Stands h produced request (.truth b) (.datum r)

/-- A register holds what stands for a value. -/
def CarriesFor (h : Heap) (produced request : Request) (d : Draft) (regs : Array Value) (r : Reg)
    (v : Value) : Prop :=
  ∃ u, Carries d regs r u ∧ Stands h produced request u v

/-- Native values stand for themselves. -/
theorem CarriesFor.of_real (h : Heap) (produced request : Request) (hr : CarriesReal d regs r x) :
    CarriesFor h produced request d regs r (.real x) :=
  ⟨_, hr, .real x⟩

theorem CarriesFor.of_truth (h : Heap) (produced request : Request) (hr : CarriesTruth d regs r p) :
    CarriesFor h produced request d regs r (.truth p) :=
  ⟨_, hr, .truth p⟩

theorem Runs.gives_real {m : Emit Reg}
    (hm : s.Runs m d (s.here d w regs) (s.Gives CarriesReal d regs w (.ok x))) :
    s.Runs m d (s.here d w regs)
      (s.Gives (CarriesFor w.heap produced request) d regs w (.ok (.real x))) := by
  refine hm.mono fun r d' o hgives => ?_
  obtain ⟨regs', ho, hkeeps, hr⟩ := hgives
  exact ⟨regs', ho, hkeeps, .of_real _ _ _ hr⟩

section

variable (hsize : regs.size = s.final.types.size)

include hsize

/-! ### Plain operations -/

theorem gives_arith (ha : CarriesReal d regs a x) (hb : CarriesReal d regs b y) :
    s.Runs (Emit.arith op a b) d (s.here d w regs)
      (s.Gives CarriesReal d regs w (.ok (op.eval x y))) :=
  runs_arith hsize ha hb fun _ _ regs' hkeeps hr => ⟨regs', rfl, hkeeps, hr⟩

theorem gives_compare {op : CompareOp} (ha : CarriesReal d regs a x) (hb : CarriesReal d regs b y) :
    s.Runs (Emit.compare op a b) d (s.here d w regs)
      (s.Gives (CarriesFor w.heap produced request) d regs w (.ok (.truth (op.eval x y)))) :=
  runs_compare hsize ha hb fun _ _ regs' hkeeps hr => ⟨regs', rfl, hkeeps, .of_truth _ _ _ hr⟩

/-- Numbers are combined from left to right. -/
private theorem gives_foldlM {rs : List Reg} {xs : List Float}
    (hrs : List.Forall₂ (CarriesReal d regs) rs xs) (ha : CarriesReal d regs a x) :
    s.Runs (rs.foldlM (Emit.arith op) a) d (s.here d w regs)
      (s.Gives CarriesReal d regs w (.ok (xs.foldl op.eval x))) := by
  induction rs generalizing xs a x d regs with
  | nil =>
    cases hrs
    exact .gives_pure ha
  | cons b rs ih =>
    cases hrs with
    | cons hb hrest =>
      rw [List.foldlM_cons, List.foldl_cons]
      refine .gives_then (gives_arith hsize ha hb) fun r d₁ regs₁ hkeeps hr => ?_
      exact ih (hkeeps.size.trans hsize) (hrest.imp fun _ _ h => h.keep hkeeps) hr

theorem gives_fold {rs : List Reg} {xs : List Float} {identity : Float}
    (hrs : List.Forall₂ (CarriesReal d regs) rs xs) :
    s.Runs (Emit.fold (Emit.arith op) identity rs) d (s.here d w regs)
      (s.Gives CarriesReal d regs w (.ok (foldReal op.eval identity xs))) := by
  cases hrs with
  | nil => exact runs_real hsize fun _ _ regs' hkeeps hr => ⟨regs', rfl, hkeeps, hr⟩
  | cons ha hrest => exact gives_foldlM hsize hrest ha

/-! ### Checked operations -/

section

variable (hcalm : w.Calm) (hwho : w.heap.word? who = some word)

include hcalm hwho

theorem gives_int32 (ha : CarriesReal d regs a x) :
    s.Runs (Emit.int32 who a) d (s.here d w regs)
      (s.Gives CarriesReal d regs w (demand w.heap who isInt32 x)) :=
  gives_range .int32 hsize hcalm hwho ha

theorem gives_nonzero (ha : CarriesReal d regs a x) :
    s.Runs (Emit.comparedToZero .ne who a) d (s.here d w regs)
      (s.Gives CarriesReal d regs w (demand w.heap who isNonzero x)) :=
  gives_range (.toZero .ne) hsize hcalm hwho ha

theorem gives_nonzeroInt32 (ha : CarriesReal d regs a x) :
    s.Runs (Emit.nonzeroInt32 who a) d (s.here d w regs)
      (s.Gives CarriesReal d regs w (demand w.heap who (fun x => isNonzero x && isInt32 x) x)) :=
  gives_range .nonzeroInt32 hsize hcalm hwho ha

theorem gives_remainder (f : MathFn) (ha : CarriesReal d regs a x) (hb : CarriesReal d regs b y) :
    s.Runs (Emit.remainder f who a b) d (s.here d w regs)
      (s.Gives (CarriesFor w.heap produced request) d regs w (do
        let x ← demand w.heap who isInt32 x
        let y ← demand w.heap who (fun y => isNonzero y && isInt32 y) y
        .ok (.real (f.apply x y)))) := by
  refine .gives_bind (gives_int32 hsize hcalm hwho ha) fun dividend x d₁ regs₁ hkeeps₁ hx => ?_
  have hsize₁ := hkeeps₁.size.trans hsize
  refine .gives_bind (gives_nonzeroInt32 hsize₁ hcalm hwho (hb.keep hkeeps₁)) ?_
  intro divisor y d₂ regs₂ hkeeps₂ hy
  refine runs_call (hkeeps₂.size.trans hsize₁) (.cons (hx.keep hkeeps₂) (.cons hy .nil))
    (fun _ => rfl) rfl ?_
  exact fun _ _ regs' hkeeps hr => ⟨regs', rfl, hkeeps, .of_real _ _ _ hr⟩

/-- **Operators on numbers** compute what the evaluator says. -/
theorem exists_gives_calculate (h : Heap) {head : NodeHead} {rs : List Reg} {xs : List Float}
    (hname : head.name = who) (hoperator : head.generator.isOperator = true)
    (hnegation : head.generator ≠ .negation) (hmin : head.generator.inputBounds.1 ≤ rs.length)
    (hmax : ∀ bound, head.generator.inputBounds.2 = some bound → rs.length ≤ bound)
    (hrs : List.Forall₂ (CarriesReal d regs) rs xs) :
    ∃ m : Emit Reg, emitNode h head rs = liftM m ∧
      s.Runs m d (s.here d w regs)
        (s.Gives (CarriesFor w.heap produced request) d regs w
          (head.generator.calculate w.heap who xs)) := by
  subst hname
  obtain ⟨node, id, who, generator, returns⟩ := head
  -- an operator with two inputs
  have hpair : rs.length = 2 → ∃ a b x y, rs = [a, b] ∧ xs = [x, y] ∧
      CarriesReal d regs a x ∧ CarriesReal d regs b y := by
    intro hlength
    obtain ⟨a, b, rfl⟩ := List.length_eq_two.mp hlength
    cases hrs with | cons ha hrest => cases hrest with | cons hb hnil =>
    cases hnil
    exact ⟨a, b, _, _, rfl, rfl, ha, hb⟩
  have hsingle : rs.length = 1 → ∃ a x, rs = [a] ∧ xs = [x] ∧ CarriesReal d regs a x := by
    intro hlength
    obtain ⟨a, rfl⟩ := List.length_eq_one_iff.mp hlength
    cases hrs with | cons ha hnil =>
    cases hnil
    exact ⟨a, _, rfl, rfl, ha⟩
  cases generator with
  | sum => exact ⟨Emit.fold (Emit.arith .add) 0.0 rs, rfl,
      .gives_real (gives_fold hsize hrs)⟩
  | product => exact ⟨Emit.fold (Emit.arith .mul) 1.0 rs, rfl,
      .gives_real (gives_fold hsize hrs)⟩
  | difference =>
    obtain ⟨a, b, x, y, rfl, rfl, ha, hb⟩ := hpair (Nat.le_antisymm (hmax 2 rfl) hmin)
    exact ⟨Emit.arith .sub a b, rfl, .gives_real (gives_arith hsize ha hb)⟩
  | minus =>
    obtain ⟨a, x, rfl, rfl, ha⟩ := hsingle (Nat.le_antisymm (hmax 1 rfl) hmin)
    exact ⟨Emit.negate a, rfl,
      runs_negate hsize ha fun _ _ regs' hkeeps hr => ⟨regs', rfl, hkeeps, .of_real _ _ _ hr⟩⟩
  | quotient =>
    have hlength : rs.length = 1 ∨ rs.length = 2 := by
      have h₁ : 1 ≤ rs.length := hmin
      have h₂ : rs.length ≤ 2 := hmax 2 rfl
      omega
    rcases hlength with hlength | hlength
    · obtain ⟨a, x, rfl, rfl, ha⟩ := hsingle hlength
      refine ⟨Emit.reciprocal who a, rfl, ?_⟩
      refine .gives_bind (gives_nonzero hsize hcalm hwho ha) fun divisor x d₁ regs₁ hkeeps hx => ?_
      have hsize₁ := hkeeps.size.trans hsize
      refine .bind (runs_real hsize₁ fun one d₂ regs₂ hkeeps₂ hone => ?_)
      refine runs_arith (hkeeps₂.size.trans hsize₁) hone (hx.keep hkeeps₂) ?_
      exact fun _ _ regs' hkeeps' hr =>
        ⟨regs', rfl, hkeeps₂.trans hkeeps', .of_real _ _ _ hr⟩
    · obtain ⟨a, b, x, y, rfl, rfl, ha, hb⟩ := hpair hlength
      refine ⟨Emit.quotient who a b, rfl, ?_⟩
      refine .gives_bind (gives_nonzero hsize hcalm hwho hb) fun divisor y d₁ regs₁ hkeeps hy => ?_
      exact .gives_real (gives_arith (hkeeps.size.trans hsize) (ha.keep hkeeps) hy)
  | remainder =>
    obtain ⟨a, b, x, y, rfl, rfl, ha, hb⟩ := hpair (Nat.le_antisymm (hmax 2 rfl) hmin)
    exact ⟨Emit.remainder .remainder who a b, rfl,
      gives_remainder hsize hcalm hwho _ ha hb⟩
  | modulo =>
    obtain ⟨a, b, x, y, rfl, rfl, ha, hb⟩ := hpair (Nat.le_antisymm (hmax 2 rfl) hmin)
    exact ⟨Emit.remainder .modulo who a b, rfl,
      gives_remainder hsize hcalm hwho _ ha hb⟩
  | lessP =>
    obtain ⟨a, b, x, y, rfl, rfl, ha, hb⟩ := hpair (Nat.le_antisymm (hmax 2 rfl) hmin)
    exact ⟨Emit.compare .lt a b, rfl, gives_compare hsize ha hb⟩
  | greaterP =>
    obtain ⟨a, b, x, y, rfl, rfl, ha, hb⟩ := hpair (Nat.le_antisymm (hmax 2 rfl) hmin)
    exact ⟨Emit.compare .gt a b, rfl, gives_compare hsize ha hb⟩
  | lessEqualP =>
    obtain ⟨a, b, x, y, rfl, rfl, ha, hb⟩ := hpair (Nat.le_antisymm (hmax 2 rfl) hmin)
    exact ⟨Emit.compare .le a b, rfl, gives_compare hsize ha hb⟩
  | greaterEqualP =>
    obtain ⟨a, b, x, y, rfl, rfl, ha, hb⟩ := hpair (Nat.le_antisymm (hmax 2 rfl) hmin)
    exact ⟨Emit.compare .ge a b, rfl, gives_compare hsize ha hb⟩
  | negation => exact absurd rfl hnegation
  | _ => cases hoperator

end

/-- **Negation** computes what the evaluator says. -/
theorem exists_gives_negate (h : Heap) {head : NodeHead} {rs : List Reg} {ps : List Bool}
    (hgenerator : head.generator = .negation) (hmin : head.generator.inputBounds.1 ≤ rs.length)
    (hmax : ∀ bound, head.generator.inputBounds.2 = some bound → rs.length ≤ bound)
    (hrs : List.Forall₂ (CarriesTruth d regs) rs ps) :
    ∃ m : Emit Reg, emitNode h head rs = liftM m ∧ s.Runs m d (s.here d w regs)
      (s.Gives (CarriesFor w.heap produced request) d regs w (Generator.negate ps)) := by
  obtain ⟨node, id, who, generator, returns⟩ := head
  obtain rfl : generator = .negation := hgenerator
  obtain ⟨a, rfl⟩ := List.length_eq_one_iff.mp (Nat.le_antisymm (hmax 1 rfl) hmin)
  cases hrs with | cons ha hnil =>
  cases hnil
  exact ⟨Emit.not a, rfl,
    runs_not hsize ha fun _ _ regs' hkeeps hr => ⟨regs', rfl, hkeeps, .of_truth _ _ _ hr⟩⟩

/-! ### Variables -/

/-- The value of a variable is looked up and must be data. -/
theorem gives_variableValue (name : Ref) :
    s.Runs (Emit.variableValue name) d (s.here d w regs)
      (s.Gives (CarriesFor w.heap .datum request) d regs w (w.valueOf name)) := by
  unfold Emit.variableValue World.valueOf
  generalize hfound : (w.frames.get? (w.heap.keyOf name)).getD Ref.nothing = found
  refine .bind (runs_const hsize fun nameReg d₁ regs₁ hkeeps₁ hname => ?_)
  have hsize₁ := hkeeps₁.size.trans hsize
  have hget : ∀ pins, callHelper s.re pins .getVar [.datum name] w = .ok (.datum found, w) := by
    intro pins
    rw [← hfound]
    rfl
  refine .bind (runs_call hsize₁ (.cons hname .nil) hget rfl ?_)
  intro value d₂ regs₂ hkeeps₂ hvalue
  have hsize₂ := hkeeps₂.size.trans hsize₁
  have htag : ∀ pins, callHelper s.re pins (.hasTag dataMask) [.datum found] w =
      .ok (.truth (w.heap.isData found), w) := fun _ => rfl
  refine .bind (runs_call hsize₂ (.cons hvalue .nil) htag rfl ?_)
  intro bound d₃ regs₃ hkeeps₃ hbound
  have hsize₃ := hkeeps₃.size.trans hsize₂
  refine .bind (runs_not hsize₃ hbound fun unbound d₄ regs₄ hkeeps₄ hunbound => ?_)
  have hkeeps := ((hkeeps₁.trans hkeeps₂).trans hkeeps₃).trans hkeeps₄
  have hvalue₄ := (hvalue.keep hkeeps₃).keep hkeeps₄
  have hname₄ := ((hname.keep hkeeps₂).keep hkeeps₃).keep hkeeps₄
  -- the value is handed on if it is data, and else the code leaves with the error
  refine .bind (runs_returnWhen hunbound.reads (fun hbound d₅ hd₅ => .pure ?_) ?_)
  · have hdata : w.heap.isData found = true := by simpa using hbound
    rw [if_pos hdata]
    exact ⟨regs₄, rfl, hkeeps.grow hd₅, _, hvalue₄.grow hd₅, .datum _ rfl⟩
  · intro hbound d₅ hd₅
    have hdata : w.heap.isData found = false := by simpa using hbound
    obtain ⟨e, w', hraise, hreports⟩ := exists_raise w .noValue [name]
    have hcall : ∀ pins, callHelper s.re pins .errNoValue [.datum name] w =
        .ok (.datum e, w') := fun _ => map_datum_apply hraise
    refine runs_call (hkeeps₄.size.trans hsize₃) (.cons (hname₄.grow hd₅) .nil) hcall rfl ?_
    intro error d₆ regs₆ _ herror
    refine ⟨w', regs₆, rfl, fun d' => .pure ?_⟩
    rw [herror.reads, if_neg (by simp [hdata])]
    exact ⟨e, w', rfl, hreports⟩

/-! ### Casts -/

/-- A native value where another one is asked for is disliked. -/
private theorem gives_wrong {word boxed : Word} {α : Type} {R : Draft → Array Value → Reg → α → Prop}
    (hwho : w.heap.word? who = some word) (hv : v.word? = some boxed)
    (hrequest : request = .real ∨ request = .truth) (hty : request.suits v.ty = false)
    (hsrc : Carries d regs r v) :
    s.Runs (Emit.cast r who produced request) d (s.here d w regs)
      (s.Gives R d regs w (.error (.doesntLike w.heap who v))) :=
  (runs_cast_wrong hsize hwho hv hrequest hty hsrc).mono
    fun _ _ _ ⟨e, _, w', ho, _, hreports⟩ => ⟨e, w', ho, hreports⟩

end

section

variable (hsize : regs.size = s.final.types.size) (hcalm : w.Calm)
  (hwho : w.heap.word? who = some word)

include hsize hcalm hwho

/-- A cast to a number reads the value as one. -/
theorem gives_castReal (hsrc : CarriesFor w.heap produced .real d regs r v) :
    s.Runs (Emit.cast r who produced .real) d (s.here d w regs)
      (s.Gives CarriesReal d regs w (v.readReal w.heap who)) := by
  obtain ⟨u, hu, hstands⟩ := hsrc
  cases hstands with
  | real x => exact .congr (Emit.cast_run hu.declares) (.gives_pure hu)
  | truth b => exact gives_wrong hsize hwho rfl (.inl rfl) rfl hu
  | datum o hproduced =>
    subst hproduced
    exact .congr (Emit.cast_run hu.declares) (runs_realFromDatum hsize hcalm.unset hu)
  | readReal o x _ hread =>
    rw [Value.readReal, hread]
    exact .congr (Emit.cast_run hu.declares) (.gives_pure hu)
  | readTruth _ _ hrequest => cases hrequest

/-- A cast to a truth value reads the value as one. -/
theorem gives_castTruth (hsrc : CarriesFor w.heap produced .truth d regs r v) :
    s.Runs (Emit.cast r who produced .truth) d (s.here d w regs)
      (s.Gives CarriesTruth d regs w (v.readTruth w.heap who)) := by
  obtain ⟨u, hu, hstands⟩ := hsrc
  cases hstands with
  | real x => exact gives_wrong hsize hwho rfl (.inr rfl) rfl hu
  | truth b => exact .congr (Emit.cast_run hu.declares) (.gives_pure hu)
  | datum o hproduced =>
    subst hproduced
    exact .congr (Emit.cast_run hu.declares) (runs_truthFromDatum hsize hcalm.unset hu)
  | readReal _ _ hrequest => cases hrequest
  | readTruth o b _ hread =>
    rw [Value.readTruth, hread]
    exact .congr (Emit.cast_run hu.declares) (.gives_pure hu)

end

/-! ### Results -/

/-- The value of a statement is made an object. -/
theorem runs_castObject (hsize : regs.size = s.final.types.size)
    (hsrc : CarriesFor w.heap produced .datumOrNothing d regs r v) :
    s.Runs (Emit.cast r who produced .datumOrNothing) d (s.here d w regs) fun r' d' o =>
      ∃ w' regs' result, o = s.here d' w' regs' ∧ readReg regs' r' = .datum result ∧
        w'.heap.Denotes result v := by
  obtain ⟨u, hu, hstands⟩ := hsrc
  refine .congr (Emit.cast_run hu.declares) ?_
  cases hstands with
  | real x =>
    refine .bind (runs_call hsize (.cons hu .nil) (fun _ => rfl) rfl ?_)
    exact fun word d' regs' _ hword => .pure ⟨_, regs', _, rfl, hword.reads, w.heap.get_add_self _⟩
  | truth b =>
    refine .bind (runs_call hsize (.cons hu .nil) (fun _ => rfl) rfl ?_)
    exact fun word d' regs' _ hword => .pure ⟨_, regs', _, rfl, hword.reads, w.heap.get_add_self _⟩
  | datum o hproduced =>
    subst hproduced
    exact .pure ⟨w, regs, o, rfl, hu.reads, rfl⟩
  | readReal _ _ hrequest => cases hrequest
  | readTruth _ _ hrequest => cases hrequest

end LogoEngine.Stage
