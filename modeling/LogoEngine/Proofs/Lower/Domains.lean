import LogoEngine.Proofs.Arithmetic.Domains
import LogoEngine.Proofs.Lower.Assertions

/-!
# Checks guard what they are for

Whatever a division, a mathematical routine or the generator of random numbers is given in lowered
code has passed the check that stands before it, and so has the number of repetitions of a loop: a
retry loop is left with a candidate that passes, be it the operand or a reply.

Main statement: `admits_of_lowerUnit`.
-/

namespace LogoEngine

/-- The head of a loop does nothing but compare a counter with a number, and goes to a pass while the
counter is not above the number. -/
def Block.IsLoopHead (head : Block) (pass : Label) (counter times : Reg) : Prop :=
  ∃ more exit, head.body = [.compare more .le counter times] ∧ head.exit = .branch more pass exit

namespace Watch

/-- In front of a block that tests a counter for equality with a number stands the head of a loop,
where the number is a number of repetitions. -/
def LoopTest (k : Watch) (ann : Annotation) (pass : Label) (counter times : Reg) : Prop :=
  ∃ head, k.has head ∧ head.IsLoopHead pass counter times ∧
    ∀ w regs, k.Sized regs → ann head.label w regs → IsCount (readReg regs times).asReal

/-- A watch over what operations and helpers are given. -/
class Admitting (k : Watch) : Prop where
  follows : ∀ w w', k.follows w w'
  ready : ∀ {helper args w}, k.ready helper args w ↔ helper.Admits args
  returns : ∀ w, k.returns w
  divides : ∀ {v}, k.divides v ↔ IsDivisor v.asReal
  counts : ∀ {v}, k.counts v ↔ IsCount v.asReal
  equates : ∀ {ann label a b}, k.equates ann label a b ↔ k.LoopTest ann label a b
  ends : ∀ before args, k.ends before args

/-- Helpers that are for all arguments. -/
@[reducible]
def unrestricted : Helper → Bool
  | .random | .randomRange => false
  | .math f => totalMath f
  | _ => true

theorem admits_of_unrestricted {helper : Helper} (h : unrestricted helper = true)
    (args : List Value) : helper.Admits args := by
  cases helper with
  | math f => cases f <;> trivial
  | random | randomRange => cases h
  | _ => trivial

variable {k : Watch} [hk : k.Admitting]

instance calm_of_unrestricted (helper : Helper) [hh : IsTrue (unrestricted helper)] : k.Calm helper :=
  ⟨fun _ => hk.ends, fun args _ => hk.ready.mpr (admits_of_unrestricted hh.out args), fun _ => hk.follows _ _⟩

instance ordinary_of_admitting : k.Ordinary where
  calm {helper} h := by
    have : IsTrue (unrestricted helper) := ⟨by cases helper <;> first | exact h | rfl⟩
    infer_instance

instance running_of_admitting : k.Running :=
  ⟨inferInstance, inferInstance, inferInstance, inferInstance, inferInstance, fun _ => inferInstance⟩

/-! ### Values of registers -/

section

variable {α β : Type} {pre mid : Draft → Assertion} {post : β → Draft → Assertion}

/-- A register holds a number with a property. -/
def Number (φ : Float → Prop) : Reg → Draft → Assertion :=
  Holds fun _ v => φ v.asReal

/-- A register holds a number with a property if another one holds a truth value. -/
def Shows (φ : Float → Prop) : Reg → Reg → Draft → Assertion :=
  Tells (fun _ v => φ v.asReal) true

omit hk in
theorem lasts_number (φ : Float → Prop) (r : Reg) : k.Lasts (Number φ r) :=
  .holds (fun hv _ => hv) r

omit hk in
theorem lasts_shows (φ : Float → Prop) (r c : Reg) : k.Lasts (Shows φ r c) :=
  .tells (fun hv _ => hv) true r c

/-- Something is known if what a register holds is false. -/
def Unless (c : Reg) (F : Draft → Assertion) : Draft → Assertion :=
  fun d w regs => c.index < d.types.size ∧ ((readReg regs c).asTruth = false → F d w regs)

omit hk in
theorem lasts_unless {F : Draft → Assertion} (c : Reg) (hF : k.Lasts F) : k.Lasts (Unless c F) := by
  refine ⟨fun hle ⟨hc, h⟩ => ⟨hc.trans_le hle.types_size_le, fun hfalse => hF.below hle (h hfalse)⟩,
    fun ⟨hc, h⟩ hfollows hregs => ⟨hc, fun hfalse => hF.follows (h ?_) hfollows hregs⟩⟩
  rwa [hregs c hc] at hfalse

omit hk in
theorem Shows.mono {φ ψ : Float → Prop} {r c : Reg} {d : Draft} {w : World} {regs : Array Value}
    (h : Shows φ r c d w regs) (hφ : ∀ {x}, φ x → ψ x) : Shows ψ r c d w regs :=
  ⟨h.1, h.2.1, fun hcond => hφ (h.2.2 hcond)⟩

omit hk in
theorem gives_real (x : Float) : k.Gives pre (liftM (Emit.real x)) (Number fun y => y = x) := by
  refine .value (fun _ _ _ _ => trivial) (fun _ _ _ => trivial) (fun _ _ _ => rfl)
    fun _ hr _ hv => ⟨hr, ?_⟩
  rw [hv]
  rfl

omit hk in
/-- A number is compared with a constant. -/
theorem gives_compare (op : CompareOp) [k.Compares op] (x : Float) (r c : Reg) :
    k.Gives (fun d w regs => r.index < d.types.size ∧ Number (fun y => y = x) c d w regs)
      (liftM (Emit.compare op r c)) (Shows (fun y => op.eval y x = true) r) := by
  refine .value (fun dst => Compares.asks dst r c) (fun dst => Compares.ready dst r c)
    (fun _ _ _ => rfl) fun {d c' d' w before regs} hpre hc' hold hv => ?_
  obtain ⟨hr, hc, hx⟩ := hpre
  refine ⟨hc', (hold r hr).1, fun htrue => ?_⟩
  rw [hv] at htrue
  rw [(hold r hr).2]
  rwa [← hx]

omit hk in
theorem gives_isInt (r : Reg) :
    k.Gives (fun d _ _ => r.index < d.types.size) (liftM (Emit.isInt r))
      (Shows (fun x => isInt32 x = true) r) := by
  refine .value (fun _ _ _ _ => trivial) (fun _ _ _ => trivial) (fun _ _ _ => rfl)
    fun {d c d' w before regs} hr hc hold hv => ⟨hc, (hold r hr).1, fun htrue => ?_⟩
  rw [hv] at htrue
  rw [(hold r hr).2]
  exact htrue

omit hk in
theorem gives_and {φ ψ : Float → Prop} (r c c' : Reg) :
    k.Gives (fun d w regs => Shows φ r c d w regs ∧ Shows ψ r c' d w regs)
      (liftM (Emit.and c c')) (Shows (fun x => φ x ∧ ψ x) r) := by
  refine .value (fun _ _ _ _ => trivial) (fun _ _ _ => trivial) (fun _ _ _ => rfl)
    fun {d c₁ d' w before regs} hpre hc₁ hold hv => ?_
  obtain ⟨⟨-, hr, hφ⟩, -, -, hψ⟩ := hpre
  refine ⟨hc₁, (hold r hr).1, fun htrue => ?_⟩
  rw [hv] at htrue
  rw [(hold r hr).2]
  have hboth : (readReg before c).asTruth = true ∧ (readReg before c').asTruth = true := by
    simpa [Value.asTruth] using htrue
  exact ⟨hφ hboth.1, hψ hboth.2⟩

/-! ### Checks -/

/-- A retry loop is left with a candidate that passes. -/
theorem gives_retryReal {φ : Float → Prop} {check : Reg → Emit Reg} [∀ r, Emit.Grows (check r)]
    (who : Ref) (src : Reg)
    (hcheck : ∀ r, k.Gives (fun d _ _ => r.index < d.types.size) (liftM (check r)) (Shows φ r)) :
    k.Gives pre (liftM (Emit.retryReal who src check)) (Number φ) := by
  refine .lift fun {d P} hP _ => ?_
  let A : Assertion := fun w regs => P w regs ∧ φ (readReg regs ⟨d.types.size⟩).asReal
  have hsize : d.types.size < (Emit.retryReal who src check d).2.types.size := lt_size_freshReg ..
  suffices hloop : k.EmitsAbove d.types.size (fun _ => True) (Emit.retryReal who src check) d P
      fun _ _ => A from
    (hloop le_rfl).mono fun w regs _ hw => ⟨hw.1, hsize, hw.2⟩
  unfold Emit.retryReal
  -- every label has the same assertion but the one that the loop is left for
  refine EmitsAbove.freshReg fun hn => .bind (.move hP.toKept hn) (.freshReg fun hbad => ?_)
  refine .freshLabel P (.freshLabel P (.freshLabel P (.freshLabel P (.freshLabel P
    (.freshLabel P (.freshLabel A ?_))))))
  refine .bind (.jump fun ann hann => ⟨hann.1.1.1.1.1.1.2, hann.1.1.1.1.1.1.2⟩) ?_
  refine .bind ((hcheck _).emitsAbove hP fun _ _ _ => ?_) ?_
  · show d.types.size < ((d.types.push _).push _).size
    simp only [Array.size_push]
    omega
  refine .bind (.branchOn (fun w regs hw hcond => ⟨hw.1, hw.2.2.2 hcond⟩) (fun w regs hw _ => hw.1)
    fun ann hann => ⟨hann.2, hann.1.1.1.1.1.2, hann.1.1.1.1.1.2⟩) ?_
  refine .bind (.fresh hP.toKept) (.bind (.move hP.toKept hbad) ?_)
  refine .bind (.askOrGiveUp hP.toKept fun ann hann => ⟨hann.1.1.1.1.2, hann.1.2⟩) ?_
  refine .bind (.of_stable hP) (.bind (.branchOnData hP.toKept fun ann hann =>
    ⟨hann.1.1.1.2, hann.1.1.2, hann.1.1.1.2⟩) ?_)
  refine .bind (.move hP.toKept hbad) (.bind (.fresh hP.toKept) (.bind (.move hP.toKept hn) ?_))
  refine .bind (.fresh hP.toKept) (.bind (.branch fun ann hann =>
    ⟨hann.1.1.1.1.1.1.2, hann.1.1.1.1.2, hann.1.1.2⟩) ?_)
  refine .bind (.fresh hP.toKept) (.bind (.ret (fun _ _ => hP.returns) fun ann hann => hann.1.2) ?_)
  exact .bind (.reject hP fun ann hann => hann.2) .pure

omit hk in
/-- A candidate is compared with zero. -/
theorem gives_compareZero (op : CompareOp) [k.Compares op] (r : Reg) :
    k.Gives (fun d _ _ => r.index < d.types.size)
      (liftM (Emit.real 0.0) >>= fun zero => liftM (Emit.compare op r zero))
      (Shows (fun x => op.eval x 0.0 = true) r) := by
  refine .bind_and (gives_real 0.0) (.index r) (fun _ => lasts_number _ _) fun zero => ?_
  exact gives_compare op 0.0 r zero

omit hk in
/-- A candidate is compared with zero, and it is tested whether it is an integer. -/
theorem gives_integral (op : CompareOp) [k.Compares op] (r : Reg) {φ : Float → Prop}
    {last : Reg → Reg → Lower Reg} (hlast : ∀ c i, k.Gives (fun d w regs =>
      Shows (fun x => op.eval x 0.0 = true) r c d w regs ∧
        Shows (fun x => isInt32 x = true) r i d w regs) (last c i) (Shows φ r)) :
    k.Gives (fun d _ _ => r.index < d.types.size)
      ((liftM (Emit.real 0.0) >>= fun zero => liftM (Emit.compare op r zero)) >>= fun c =>
        liftM (Emit.isInt r) >>= fun i => last c i) (Shows φ r) := by
  refine .bind (gives_compareZero op r) (fun c => lasts_shows _ r c) fun c => ?_
  refine .bind_and ((gives_isInt r).mono (fun _ _ _ h => h.2.1) fun _ _ _ _ h => h)
    (lasts_shows _ r c) (fun i => lasts_shows _ r i) fun i => ?_
  exact hlast c i

section

variable (who : Ref) (src : Reg)

theorem gives_int32 :
    k.Gives pre (liftM (Emit.int32 who src)) (Number fun x => isInt32 x = true) :=
  gives_retryReal who src gives_isInt

theorem gives_comparedToZero (op : CompareOp) [k.Compares op] :
    k.Gives pre (liftM (Emit.comparedToZero op who src))
      (Number fun x => op.eval x 0.0 = true) := by
  refine gives_retryReal who src fun r => ?_
  rw [liftM_bind]
  exact gives_compareZero op r

theorem gives_nonzeroInt32 : k.Gives pre (liftM (Emit.nonzeroInt32 who src))
    (Number fun x => ∃ n, n ≠ 0 ∧ Integer32.Is n x) := by
  refine gives_retryReal who src fun r => ?_
  simp only [liftM_bind]
  rw [← bind_assoc]
  refine gives_integral .ne r fun c i => (gives_and r c i).mono (fun _ _ _ h => h) ?_
  exact fun _ _ _ _ h => h.mono fun hx => exists_is_of_nonzero hx.1 hx.2

theorem gives_positiveInt32 : k.Gives pre (liftM (Emit.positiveInt32 who src))
    (Number fun x => ∃ n, 1 ≤ n ∧ Integer32.Is n x) := by
  refine gives_retryReal who src fun r => ?_
  simp only [liftM_bind]
  rw [← bind_assoc]
  refine gives_integral .gt r fun c i => (gives_and r c i).mono (fun _ _ _ h => h) ?_
  exact fun _ _ _ _ h => h.mono fun hx => exists_is_of_positive hx.1 hx.2

theorem gives_count : k.Gives pre (liftM (Emit.count who src)) (Number IsCount) := by
  refine gives_retryReal who src fun r => ?_
  simp only [liftM_bind]
  rw [← bind_assoc]
  refine gives_integral .ge r fun c i => (gives_and r i c).mono (fun _ _ _ h => h.symm) ?_
  exact fun _ _ _ _ h => h.mono fun hx => isCount_of_nonnegative hx.1 hx.2

end

/-! ### Operations that are not for every operand -/

section

variable (who : Ref) (a b : Reg)

/-- A helper is called with what it is for. -/
theorem emits_call {n : Nat} {known : Annotation → Prop} {d : Draft} {P H : Assertion}
    {helper : Helper} {rs : List Reg} {φ : Value → Prop} (hP : k.Kept n P)
    (hH : ∀ w regs, H w regs → P w regs ∧ helper.Admits (rs.map (readReg regs)))
    (hvalue : ∀ {pins args w v w'}, callHelper k.re pins helper args w = .ok (v, w') → φ v) :
    k.EmitsAbove n known (Emit.call helper rs) d H
      fun r d' w regs => P w regs ∧ Holds (fun _ => φ) r d' w regs := by
  exact .call hP (fun _ => hk.ends) (fun w regs hw => (hH w regs hw).imp_right hk.ready.mpr)
    fun _ hrun => ⟨hk.follows _ _, hvalue hrun⟩

theorem gives_call {helper : Helper} {rs : List Reg} {φ : Value → Prop}
    (hpre : ∀ d w regs, pre d w regs → helper.Admits (rs.map (readReg regs)))
    (hvalue : ∀ {pins args w v w'}, callHelper k.re pins helper args w = .ok (v, w') → φ v) :
    k.Gives pre (liftM (Emit.call helper rs)) (Holds fun _ => φ) :=
  .lift fun {d _} hP hw =>
    emits_call hP.toKept (fun w regs hPw => ⟨hPw, hpre d w regs (hw w regs hPw)⟩) hvalue le_rfl

/-- Such a call, where the value does not matter. -/
theorem gives_admitted {helper : Helper} {rs : List Reg}
    (hpre : ∀ d w regs, pre d w regs → helper.Admits (rs.map (readReg regs))) :
    k.Gives pre (liftM (Emit.call helper rs)) fun _ _ _ _ => True :=
  (gives_call (φ := fun _ => True) hpre fun _ => trivial).mono (fun _ _ _ h => h)
    fun _ _ _ _ _ => trivial

/-- A division by a number that passed. -/
theorem gives_div :
    k.Gives (Number (fun x => CompareOp.ne.eval x 0.0 = true) b) (liftM (Emit.arith .div a b))
      fun _ _ _ _ => True := by
  refine .lift fun {d P} hP hw => .newReg (fun _ _ _ => trivial) fun w regs _ hPw =>
    ⟨hk.divides.mpr (CompareOp.of_ne_zero (hw w regs hPw).2), fun w' regs' hrun => ?_⟩
  cases hrun
  exact ⟨hP.follows hPw (k.refl w) fun r hr => readReg_writeReg_of_ne (Nat.ne_of_lt hr), trivial⟩

theorem gives_quotient :
    k.Gives pre (liftM (Emit.quotient who a b)) fun _ _ _ _ => True := by
  simp only [Emit.quotient, liftM_bind]
  exact .bind (gives_comparedToZero who b .ne) (lasts_number _) fun divisor => gives_div a divisor

theorem gives_reciprocal : k.Gives pre (liftM (Emit.reciprocal who a)) fun _ _ _ _ => True := by
  simp only [Emit.reciprocal, liftM_bind]
  refine .bind (gives_comparedToZero who a .ne) (lasts_number _) fun divisor => ?_
  refine .bind_and (gives_real 1.0) (lasts_number _ _) (lasts_number _) fun one => ?_
  exact (gives_div one divisor).mono (fun _ _ _ h => h.1) fun _ _ _ _ h => h

theorem gives_squareRoot :
    k.Gives pre (liftM (Emit.squareRoot who a)) fun _ _ _ _ => True := by
  simp only [Emit.squareRoot, liftM_bind]
  refine .bind (gives_comparedToZero who a .ge) (lasts_number _) fun operand => ?_
  refine gives_admitted fun d w regs h => ?_
  have hnonnegative : (readReg regs operand).asReal ≥ 0.0 := by simpa [CompareOp.eval] using h.2
  exact hnonnegative

theorem gives_logarithm {f : MathFn} (hf : f = .log10 ∨ f = .ln) :
    k.Gives pre (liftM (Emit.logarithm f who a)) fun _ _ _ _ => True := by
  simp only [Emit.logarithm, liftM_bind]
  refine .bind (gives_comparedToZero who a .gt) (lasts_number _) fun operand => ?_
  refine gives_admitted fun d w regs h => ?_
  have hpositive : (readReg regs operand).asReal > 0.0 := by simpa [CompareOp.eval] using h.2
  rcases hf with rfl | rfl <;> exact hpositive

theorem gives_remainder {f : MathFn} (hf : f = .remainder ∨ f = .modulo) :
    k.Gives pre (liftM (Emit.remainder f who a b)) fun _ _ _ _ => True := by
  simp only [Emit.remainder, liftM_bind]
  refine .bind (gives_int32 who a) (lasts_number _) fun dividend => ?_
  refine .bind_and (gives_nonzeroInt32 who b) (lasts_number _ _) (lasts_number _) fun divisor => ?_
  refine gives_admitted fun d w regs h => ?_
  have hadmits := And.intro (isInt32_iff.mp h.1.2) h.2.2
  rcases hf with rfl | rfl <;> exact hadmits

theorem gives_complement :
    k.Gives pre (liftM (Emit.complement who a)) fun _ _ _ _ => True := by
  simp only [Emit.complement, liftM_bind]
  refine .bind (gives_int32 who a) (lasts_number _) fun operand => ?_
  exact gives_admitted fun d w regs h => isInt32_iff.mp h.2

theorem gives_shift {f : MathFn} (hf : f.isBitwise = true) :
    k.Gives pre (liftM (Emit.shift f who a b)) fun _ _ _ _ => True := by
  simp only [Emit.shift, liftM_bind]
  refine .bind (gives_int32 who a) (lasts_number _) fun number => ?_
  refine .bind_and (gives_int32 who b) (lasts_number _ _) (lasts_number _) fun distance => ?_
  exact gives_admitted fun d w regs h => MathFn.admits_of_isBitwise hf h.1.2 h.2.2

/-- All registers hold 32-bit integers. -/
def Integers (rs : List Reg) : Draft → Assertion :=
  fun d w regs => ∀ r ∈ rs, Number (fun x => isInt32 x = true) r d w regs

omit hk in
theorem lasts_integers (rs : List Reg) : k.Lasts (Integers rs) :=
  ⟨fun hle h r hr => (lasts_number (k := k) _ r).below hle (h r hr),
    fun h hfollows hregs r hr => (lasts_number _ r).follows (h r hr) hfollows hregs⟩

/-- All operands of a bitwise operation are checked before the first is used. -/
theorem gives_operands (rs : List Reg) :
    k.Gives pre (liftM (rs.mapM (Emit.int32 who))) Integers := by
  induction rs generalizing pre with
  | nil => exact .pure fun _ _ _ _ => by simp [Integers]
  | cons r rs ih =>
    simp only [List.mapM_cons, liftM_bind, liftM_pure]
    refine .bind (gives_int32 who r) (lasts_number _) fun operand => ?_
    refine .bind_and ih (lasts_number _ _) lasts_integers fun operands => ?_
    exact .pure fun d w regs h => List.forall_mem_cons.mpr ⟨h.1, h.2⟩

/-- Every result of a bitwise operation may be an operand of the next. -/
theorem gives_foldBitwise {f : MathFn} (hf : f.isBitwise = true) (first : Reg) (rest : List Reg) :
    k.Gives (Integers (first :: rest))
      (liftM (rest.foldlM (fun acc next => Emit.call (.math f) [acc, next]) first))
      fun _ _ _ _ => True := by
  induction rest generalizing first with
  | nil => exact .pure fun _ _ _ _ => trivial
  | cons next rest ih =>
    simp only [List.foldlM_cons, liftM_bind]
    refine .bind_and (gives_call (φ := fun v => isInt32 v.asReal = true) (fun d w regs h => ?_) ?_)
      (lasts_integers _) (fun r => .holds (fun hv _ => hv) r) fun r => (ih r).mono (fun d w regs h => ?_)
      fun _ _ _ _ h => h
    · exact MathFn.admits_of_isBitwise hf (h first (by simp)).2 (h next (by simp)).2
    · rintro _ _ _ _ _ ⟨⟩
      exact MathFn.isInt32_apply hf
    · obtain ⟨-, -, hrest⟩ := List.forall_mem_cons.mp h.1 |>.imp_right List.forall_mem_cons.mp
      exact List.forall_mem_cons.mpr ⟨h.2, hrest⟩

theorem gives_bitwise {f : MathFn} (hf : f.isBitwise = true) (identity : Float) (rs : List Reg) :
    k.Gives pre (liftM (Emit.bitwise f identity who rs)) fun _ _ _ _ => True := by
  simp only [Emit.bitwise, liftM_bind]
  refine .bind (gives_operands who rs) lasts_integers fun ints => ?_
  cases ints with
  | nil => exact (gives_real identity).mono (fun _ _ _ h => h) fun _ _ _ _ _ => trivial
  | cons first rest => exact gives_foldBitwise hf first rest

theorem gives_random : k.Gives pre (liftM (Emit.random who a)) fun _ _ _ _ => True := by
  simp only [Emit.random, liftM_bind]
  refine .bind (gives_positiveInt32 who a) (lasts_number _) fun bound => ?_
  exact gives_admitted fun d w regs h => h.2

/-- Two registers hold the ends of a range that is not empty. -/
def Range (start stop : Reg) : Draft → Assertion :=
  fun d _ regs => start.index < d.types.size ∧ stop.index < d.types.size ∧ ∃ m n : Int32,
    m ≤ n ∧ Integer32.Is m (readReg regs start).asReal ∧ Integer32.Is n (readReg regs stop).asReal

omit hk in
theorem lasts_range (start stop : Reg) : k.Lasts (Range start stop) := by
  refine ⟨fun hle ⟨hstart, hstop, h⟩ => ⟨hstart.trans_le hle.types_size_le, hstop.trans_le hle.types_size_le, h⟩,
    fun ⟨hstart, hstop, h⟩ _ hregs => ⟨hstart, hstop, ?_⟩⟩
  rwa [hregs start hstart, hregs stop hstop]

omit hk in
/-- Integers that are not in the wrong order are the ends of a range. -/
theorem gives_range (start stop : Reg) :
    k.Gives (fun d w regs => Number (fun x => isInt32 x = true) start d w regs ∧
        Number (fun x => isInt32 x = true) stop d w regs)
      (liftM (Emit.compare .gt start stop)) fun c => Unless c (Range start stop) := by
  refine .value (fun _ _ _ _ => trivial) (fun _ _ _ => trivial) (fun _ _ _ => rfl)
    fun {d c d' w before regs} hpre hc hold hv => ?_
  obtain ⟨⟨hstart, hx⟩, hstop, hy⟩ := hpre
  refine ⟨hc, fun hfalse => ⟨(hold start hstart).1, (hold stop hstop).1, ?_⟩⟩
  rw [hv] at hfalse
  rw [(hold start hstart).2, (hold stop hstop).2]
  exact exists_range hx hy hfalse

theorem gives_randomRange :
    k.Gives pre (liftM (Emit.randomRange who a b)) fun _ _ _ _ => True := by
  simp only [Emit.randomRange, liftM_bind]
  refine .bind (gives_int32 who a) (lasts_number _) fun start => ?_
  refine .bind_and (gives_int32 who b) (lasts_number _ _) (lasts_number _) fun stop => ?_
  refine .bind (gives_range start stop) (fun c => lasts_unless c (lasts_range start stop)) fun c => ?_
  -- where the code goes on the range is not empty
  refine .bind (.mono (.returnWhen (lasts_range start stop)) (fun _ _ _ h => h.2) fun _ _ _ _ h => h)
    (fun _ => lasts_range start stop) fun _ => gives_admitted fun d w regs h => h.2.2

omit hk in
/-- A number is tested for being negative; the truth value may take the place of the number. -/
theorem emits_negative {n : Nat} {known : Annotation → Prop} {d : Draft} {P H : Assertion}
    {x zero : Reg} (hP : k.Kept n P)
    (hH : ∀ w regs, H w regs → P w regs ∧ Number (fun y => y = 0.0) zero d w regs) :
    k.EmitsAbove n known (Emit.compare .lt x zero) d H fun c _ w regs =>
      P w regs ∧ ((readReg regs c).asTruth = false → ¬(readReg regs x).asReal < 0.0) := by
  refine fun hn => Emits.mono (EmitsAbove.value hP (fun _ _ _ _ => trivial)
    (fun _ w regs hw => ⟨(hH w regs hw).1, trivial⟩) (fun _ _ _ => rfl) hn)
    fun w regs _ hafter => ?_
  obtain ⟨hPw, hc, -, before, hbefore, hv, hothers⟩ := hafter
  obtain ⟨-, -, hzero⟩ := hH w before hbefore
  refine ⟨hPw, fun hfalse => ?_⟩
  rw [hv] at hfalse
  by_cases hx : x.index = d.types.size
  · obtain rfl : x = ⟨d.types.size⟩ := by cases x; simp_all
    rw [← hc, hv]
    exact fun hneg => Int32.lt_irrefl ((Integer32.is_zero.lt_iff Integer32.is_zero).mp hneg)
  · rw [hothers x hx]
    have hnot : ¬(readReg before x).asReal < (readReg before zero).asReal := by
      simpa [Value.asTruth, CompareOp.eval] using hfalse
    rwa [hzero] at hnot

/-- A negative base has an exponent that passed. -/
theorem gives_power (base given : Reg) :
    k.Gives pre (liftM (Emit.power who base given)) fun _ _ _ _ => True := by
  refine .lift fun {d P} hP _ => Emits.mono (Q := fun _ _ => P) ?_ fun _ _ _ hw => ⟨hw, trivial⟩
  -- the exponent that was given is in the place of the one that is checked
  let Merged : Assertion := fun w regs => P w regs ∧ ((readReg regs base).asReal < 0.0 →
    isInt32 (readReg regs ⟨d.types.size⟩).asReal = true)
  suffices hpower : k.EmitsAbove d.types.size (fun _ => True) (Emit.power who base given) d P
      fun _ _ => P from hpower le_rfl
  have hzero : k.Gives (fun _ _ _ => True) (liftM (Emit.real 0.0)) (Number fun x => x = 0.0) :=
    gives_real 0.0
  have hcheck : ∀ r, k.Gives (fun _ _ _ => True) (liftM (Emit.int32 who r))
      (Number fun x => isInt32 x = true) := gives_int32 who
  have hP' : k.Stable (d.types.size + 1) P := hP.mono (Nat.le_succ _)
  unfold Emit.power
  refine .freshReg fun hexponent => .bind (.move hP.toKept hexponent) fun _ => ?_
  refine EmitsAbove.bind (n := d.types.size + 1) (hzero.emitsAbove hP' fun _ _ _ => trivial) ?_ ?_
  · refine .bind (emits_negative hP'.toKept fun _ _ hw => hw) (.freshLabel P (.freshLabel Merged ?_))
    refine .bind (.branchOn (fun _ _ hw _ => hw.1)
      (fun _ _ hw hcond => ⟨hw.1, fun hneg => absurd hneg (hw.2 hcond)⟩)
      fun ann hann => ⟨hann.1.2, hann.2, hann.1.2⟩) ?_
    refine .bind ((hcheck _).emitsAbove hP' fun _ _ _ => trivial) ?_
    simp only [Emit.deliver, bind_assoc]
    refine EmitsAbove.bind (Q := fun _ _ => Merged) (fun hn => .instr (fun _ _ _ => trivial)
      fun w regs hsize hw => ⟨trivial, fun w' regs' hrun => ?_⟩) ?_
    · cases hrun
      obtain ⟨hPw, -, hint⟩ := hw
      refine ⟨hP.follows hPw (k.refl w) fun r hr => readReg_writeReg_of_ne (Nat.ne_of_lt hr),
        fun _ => ?_⟩
      rwa [readReg_writeReg_self (r := ⟨d.types.size⟩) (hn.trans hsize)]
    refine .bind (.jump fun ann hann => ⟨hann.2, hann.2⟩) fun hn => ?_
    have hpow : ∀ w regs, Merged w regs → P w regs ∧ (Helper.math .pow).Admits
        ([base, ⟨d.types.size⟩].map (readReg regs)) :=
      fun w regs hw => ⟨hw.1, fun hneg => isInt32_iff.mp (hw.2 hneg)⟩
    exact (emits_call (φ := fun _ => True) hP'.toKept hpow (fun _ => trivial) hn).mono
      fun _ _ _ hw => hw.1
  · exact (Array.size_push ..).ge

end

/-! ### Loops -/

section

open Emit

/-- The number of the pass is tested for equality with a number of repetitions. -/
theorem gives_repetition (who node : Ref) (times list : Reg) :
    k.Gives pre (liftM (repetition who node times list)) fun _ _ _ _ => True := by
  unfold repetition
  rw [liftM_bind]
  refine .bind (gives_count who times) (lasts_number _) fun times => .lift fun {d P} hP hw => ?_
  have hcount : ∀ w regs, P w regs → IsCount (readReg regs times).asReal :=
    fun w regs hPw => (hw w regs hPw).2
  refine Emits.mono (Q := fun _ _ => P) (EmitsAbove.bind (n := d.types.size) (.of_stable hP) ?_ le_rfl)
    fun _ _ _ hPw => ⟨hPw, trivial⟩
  -- every label in the loop has the assertion from before it
  refine .bind (.of_stable hP) (.ownResult hP.toKept fun result _ hresult => ?_)
  refine .freshReg fun hcounter => .bind (.of_stable hP) ?_
  refine .bind (.move hP.toKept hcounter) (.freshLabel P (.freshLabel P (.freshLabel P ?_)))
  refine .bind (.jump fun ann hann => ⟨hann.1.1.2, hann.1.1.2⟩) (.bind (.of_stable hP) ?_)
  refine .bind (.branch fun ann hann => ⟨hann.1.2, hann.2, hann.1.2⟩) (.bind (.of_stable hP) ?_)
  refine .bind (.of_stable hP) (EmitsAbove.bind (Q := fun _ _ => P) (fun hn => ?_) ?_)
  · refine .newReg (fun ann hann hfits => hk.equates.mpr ⟨_,
      hfits.blocks _ (Array.mem_push.mpr (.inr rfl)) nofun, ⟨_, _, rfl, rfl⟩, fun w regs _ hw => ?_⟩)
      fun w regs hsize hPw => ⟨hk.counts.mpr (hcount w regs hPw), fun w' regs' hrun => ?_⟩
    · exact hcount w regs ((congrFun (congrFun hann.1.1.2 w) regs).mp hw)
    · cases hrun
      exact hP.follows hPw (k.refl w) fun r hr =>
        readReg_writeReg_of_ne (Nat.ne_of_lt (hr.trans_le hn))
  have hpass : ∀ value saved isLast result exit, k.Spares k.Done d.types.size [result] [exit]
      (passOutcome value saved (some (isLast, result, exit))) := fun _ _ _ _ _ => inferInstance
  refine EmitsAbove.bind (Q := fun _ _ => P) (fun hn => ?_) ?_
  · refine ((hpass _ _ _ _ _).emits_stable hn ?_ hP).weaken_known fun ann hann => ?_
    · exact List.forall_mem_singleton.mpr hresult
    · exact List.forall_mem_singleton.mpr hann.2
  refine .bind (.countPass hP.toKept hcounter) ?_
  exact .bind (.jump fun ann hann => ⟨hann.1.1.2, hann.2⟩) (.bind (.of_stable hP) .pure)

end

end

instance spares_forever_of_admitting {given : Assertion} [k.Allows given] {n : Nat}
    {regs : List Reg} {labels : List Label} (who node : Ref) (list : Reg) :
    k.Spares given n regs labels (Emit.forever who node list) := by
  unfold Emit.forever
  refine .bind inferInstance fun _ => .bind inferInstance fun _ => .freshReg fun _ => ?_
  repeat first | refine .bind inferInstance fun _ => ?_ | refine .freshLabel fun _ => ?_
  infer_instance

/-! ### Whole routines -/

theorem Admitting.gives_emitNode (h : Heap) (pre : Draft → Assertion) (head : NodeHead) (rs : List Reg) :
    k.Gives pre (emitNode h head rs) fun _ _ _ _ => True := by
  fun_cases emitNode h head rs
  all_goals with_reducible first
    | exact gives_reciprocal ..
    | exact gives_quotient ..
    | exact gives_squareRoot ..
    | exact gives_power ..
    | exact gives_complement ..
    | exact gives_random ..
    | exact gives_randomRange ..
    | exact gives_repetition ..
    | exact gives_remainder _ _ _ (.inl rfl)
    | exact gives_remainder _ _ _ (.inr rfl)
    | exact gives_logarithm _ _ (.inl rfl)
    | exact gives_logarithm _ _ (.inr rfl)
    | exact gives_bitwise _ rfl _ _
    | exact gives_shift _ _ _ rfl
    | exact .throw
    | exact Spares.gives fun _ => inferInstance

/-- Such a watch asks that an instruction is given what it is for. -/
theorem Admitting.admits {i : Instr} {w : World} {regs : Array Value} (h : k.Ready i w regs) :
    i.Admits regs := by
  cases i with
  | arith _ op => cases op <;> first | trivial | exact hk.divides.mp h
  | compare _ op => cases op <;> first | trivial | exact hk.counts.mp h
  | call => exact hk.ready.mp h
  | _ => trivial

/-- The watch over operands, of code that consists of some blocks. -/
def overOperands (re : Reenter) (pins : Pins) (code : Linked) (block : Int) (has : Block → Prop) :
    Watch :=
  let k : Watch :=
    { re, pins, code, block, has
      follows := fun _ _ => True
      ready := fun helper args _ => helper.Admits args
      returns := fun _ => True
      divides := fun v => IsDivisor v.asReal
      counts := fun v => IsCount v.asReal
      refl := fun _ => trivial
      trans := fun _ _ => trivial }
  { k with equates := k.LoopTest }

instance (re : Reenter) (pins : Pins) (code : Linked) (block : Int) (has : Block → Prop) :
    (overOperands re pins code block has).Admitting :=
  ⟨fun _ _ => trivial, .rfl, fun _ => trivial, .rfl, .rfl, .rfl, fun _ _ => trivial⟩

end Watch

section

variable {h : Heap} {name : String} {line : Option Ref} {parse : Parse} {routine : Routine}
  {backend : Backend} {code : Linked}

/-- **Checks guard what they are for.** Along every run of lowered code each instruction gets what
it is for, so that nothing is divided by zero and no number is drawn from an empty range. Wherever
the number of a pass is compared with another one, that one passed as a number of repetitions before
the loop was entered. -/
theorem admits_of_lowerUnit (hroutine : (lowerUnit h name line parse).1 = .ok routine)
    (hlink : routine.link backend = .ok code) (re : Reenter) (pins : Pins) (block : Int)
    (w : World) :
    (∀ c, Machine.Reaches re pins code block (Machine.start code w) c →
      ∀ i rest, c.rest = i :: rest → i.Admits c.regs ∧
        ∀ dst helper args, i = .call dst helper args → helper.Defined (args.map (readReg c.regs))) ∧
    ∀ b ∈ routine.blocks, ∀ isLast counter times, .compare isLast .eq counter times ∈ b.body →
      ∃ head ∈ routine.blocks, head.IsLoopHead b.label counter times ∧
        ∀ c, Machine.Reaches re pins code block (Machine.start code w) c →
          routine.blocks[c.position]? = some head → c.rest = head.body →
            IsCount (readReg c.regs times).asReal := by
  have hfollows := routine.follows_of_link hlink
  let k := Watch.overOperands re pins code block fun b => b ∈ routine.blocks
  have hstable : k.Stable 0 fun _ _ => True := ⟨⟨fun _ _ _ => trivial⟩, fun _ => trivial⟩
  obtain ⟨ann, hvalid, hentry⟩ := (Watch.Outline.plain k h (Watch.Admitting.gives_emitNode h)).exists_valid
    hstable (fun _ _ node _ => Node.each_of_forall (fun _ _ => trivial) node) hroutine
    hfollows.types hfollows.constants fun _ hb => hb
  -- between statements `True` is enough: a check and what it guards are in the code of one node
  obtain ⟨hway, -⟩ := Watch.sound hfollows hvalid (w := w) (by rw [hentry]; trivial)
  refine ⟨fun c hreaches i rest hrest => ?_, fun b hb isLast counter times hcompare => ?_⟩
  · obtain ⟨b, -, hinside⟩ := hway c hreaches
    have halong := hinside.along
    rw [hrest] at halong
    have hadmits := Watch.Admitting.admits halong.1
    refine ⟨hadmits, fun dst helper args hi => ?_⟩
    subst hi
    exact hadmits.defined
  · obtain ⟨before, after, hbody⟩ := List.append_of_mem hcompare
    obtain ⟨head, hmem, hhead, hcount⟩ := (hvalid b hb).asks _ _ _ hbody
    refine ⟨head, hmem, hhead, fun c hreaches hposition hrest => ?_⟩
    obtain ⟨b', hb', hinside⟩ := hway c hreaches
    rw [hposition] at hb'
    obtain rfl := Option.some.inj hb'
    exact hcount c.world c.regs hinside.sized (hinside.entered hrest)

end

namespace Shares

/-- The words `repeat`, `quotient` and `a`. -/
def heap : Heap where
  objects := #[.nothing, .word (.text "repeat"), .word (.text "quotient"), .word (.text "a")]

/-- The statement `repeat (quotient "a "a) "a`. -/
def parse : Parse :=
  let a : Node := .call ⟨⟨4⟩, 1, ⟨3⟩, .literal, .datum⟩ [.datum ⟨3⟩]
  let quotient : Node := .call ⟨⟨5⟩, 2, ⟨2⟩, .quotient, .real⟩ [a, a]
  [[.call ⟨⟨6⟩, 3, ⟨1⟩, .repeatTimes, .datumOrNothing⟩ [quotient, a]]]

theorem exists_ok_of_any {ε α : Type} {result : Except ε α} {p : α → Bool}
    (h : result.toOption.any p = true) : ∃ a, result = .ok a ∧ p a = true := by
  cases result with
  | ok a => exact ⟨a, rfl, h⟩
  | error e => cases h

/-- There is a division, and the number of a pass is compared with another one. -/
def hasBoth (routine : Routine) : Bool :=
  (routine.blocks.any fun b => b.body.any fun i => i matches .arith _ .div _ _) &&
    routine.blocks.any fun b => b.body.any fun i => i matches .compare _ .eq _ _

theorem lower_parse : ∃ routine code, (lowerUnit heap "list#1" none parse).1 = .ok routine ∧
    routine.link .machine = .ok code ∧ hasBoth routine = true := by
  have hall : ((lowerUnit heap "list#1" none parse).1.toOption.any fun routine =>
      (routine.link .machine).toOption.any fun _ => hasBoth routine) = true := by decide +kernel
  obtain ⟨routine, hroutine, hall⟩ := exists_ok_of_any hall
  obtain ⟨code, hlink, hboth⟩ := exists_ok_of_any hall
  exact ⟨routine, code, hroutine, hlink, hboth⟩

/-- Whatever the words are replaced with, no share is of zero parts, and as many shares are made as
a number of repetitions says. -/
theorem admits_parse : ∃ routine code, (lowerUnit heap "list#1" none parse).1 = .ok routine ∧
    routine.link .machine = .ok code ∧ hasBoth routine = true ∧
    ∀ re pins block w,
      (∀ c, Machine.Reaches re pins code block (Machine.start code w) c →
        ∀ dst x y rest, c.rest = .arith dst .div x y :: rest →
          IsDivisor (readReg c.regs y).asReal) ∧
      ∃ head ∈ routine.blocks, ∃ pass counter times, head.IsLoopHead pass counter times ∧
        ∀ c, Machine.Reaches re pins code block (Machine.start code w) c →
          routine.blocks[c.position]? = some head → c.rest = head.body →
            IsCount (readReg c.regs times).asReal := by
  obtain ⟨routine, code, hroutine, hlink, hboth⟩ := lower_parse
  refine ⟨routine, code, hroutine, hlink, hboth, fun re pins block w => ?_⟩
  obtain ⟨hadmits, hloops⟩ := admits_of_lowerUnit hroutine hlink re pins block w
  refine ⟨fun c hreaches dst x y rest hrest => (hadmits c hreaches _ rest hrest).1, ?_⟩
  simp only [hasBoth, Bool.and_eq_true, List.any_eq_true] at hboth
  obtain ⟨-, b, hb, i, hi, hcompare⟩ := hboth
  split at hcompare
  · next isLast counter times =>
    obtain ⟨head, hhead, hloop, hcount⟩ := hloops b hb isLast counter times hi
    exact ⟨head, hhead, b.label, counter, times, hloop, hcount⟩
  · cases hcompare

end Shares

end LogoEngine
