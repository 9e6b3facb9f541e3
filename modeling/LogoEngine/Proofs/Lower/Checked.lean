import LogoEngine.Proofs.Lower.Routines

/-!
# Which parses pass the structural check

The structural check looks at every block, also at dead ones. Code of a parse that does not fit
hands a register of the wrong type on after an error that is returned in any case, and the check
rejects the code for it.

Code **forces** a register to have a type if it holds an instruction that is typed only then. Every
primitive that asks for a number or a truth value forces its inputs, so code passes the check
exactly if its parse fits.

Main statement: `exists_verify_lowerUnit_iff`.
-/

namespace LogoEngine

/-! ### Forced types -/

/-- All instructions of a draft are typed. -/
def Draft.Typed (d : Draft) : Prop :=
  ∀ b ∈ d.blocks, ∀ i ∈ b.body, i.Typed d.types d.constants.size

namespace Emit

/-- Code that only fits into drafts whose registers are as `P` says. -/
def Ensures {α : Type} (m : Emit α) (P : Array Ty → Prop) : Prop :=
  ∀ d final, (m d).2.Within final → final.Typed → P final.types

/-- Code that is typed only if a register has a type. -/
abbrev Forces {α : Type} (m : Emit α) (r : Reg) (ty : Ty) : Prop :=
  m.Ensures (Declares · r ty)

section

variable {α β : Type} {m : Emit α} {f : α → Emit β} {P : Array Ty → Prop} {a b r : Reg}

/-- What the first part of code ensures. -/
theorem Ensures.left [g : GrowsAll f] (h : m.Ensures P) : (m >>= f).Ensures P :=
  fun d final hw htyped => h d final ((g.grows (m d).1).within hw) htyped

/-- What the second part of code ensures. -/
theorem Ensures.right (h : ∀ a, (f a).Ensures P) : (m >>= f).Ensures P :=
  fun d final hw htyped => h (m d).1 (m d).2 final hw htyped

/-- An instruction ensures that it is typed. -/
theorem ensures_instr {i : Instr} (h : ∀ types slots, i.Typed types slots → P types) :
    (instr i).Ensures P := by
  intro d final hw htyped
  obtain ⟨b, hb, -, hbegins⟩ := hw.opened
  refine h _ _ (htyped b hb i (hbegins.subset ?_))
  show i ∈ (d.body.push i).toList
  simp

/-- A new register is known to have its type. -/
theorem ensures_freshReg {ty : Ty} {f : Reg → Emit β} [g : GrowsAll f]
    (h : ∀ dst, (f dst).Ensures fun types => Declares types dst ty → P types) :
    (freshReg ty >>= f).Ensures P := by
  intro d final hw htyped
  refine h _ _ final hw htyped ?_
  have hnew : Declares (freshReg ty d).2.types (freshReg ty d).1 ty := by
    simp [Declares, freshReg]
  exact hnew.mono ((g.grows _).within hw).types

theorem forces_arith_left (op : ArithOp) : (arith op a b).Forces a .real :=
  .right fun _ => .left (ensures_instr fun _ _ h => h.2.1)

theorem forces_arith_right (op : ArithOp) : (arith op a b).Forces b .real :=
  .right fun _ => .left (ensures_instr fun _ _ h => h.2.2)

theorem forces_compare_left (op : CompareOp) : (compare op a b).Forces a .real :=
  .right fun _ => .left (ensures_instr fun _ _ h => h.2.1)

theorem forces_compare_right (op : CompareOp) : (compare op a b).Forces b .real :=
  .right fun _ => .left (ensures_instr fun _ _ h => h.2.2)

theorem forces_negate : (negate a).Forces a .real :=
  .right fun _ => .left (ensures_instr fun _ _ h => h.2)

theorem forces_not : (not a).Forces a .truth :=
  .right fun _ => .left (ensures_instr fun _ _ h => h.2)

private theorem real_of_acceptsFrom {params tys : List Ty}
    (hparams : ∀ param ∈ params, param = .real)
    (h : Signature.acceptsFrom none params tys) : ∀ ty ∈ tys, ty = .real := by
  induction params generalizing tys with
  | nil =>
    cases tys with
    | nil => simp
    | cons ty tys =>
      obtain ⟨_, hrest, -⟩ := h
      cases hrest
  | cons param params ih =>
    rw [List.forall_mem_cons] at hparams
    cases tys with
    | nil => simp
    | cons ty tys =>
      rw [List.forall_mem_cons]
      exact ⟨h.1.trans hparams.1, ih hparams.2 h.2⟩

/-- A helper that takes numbers only forces its arguments. -/
theorem forces_call {helper : Helper} (hparams : ∀ param ∈ helper.signature.params, param = .real)
    (hrest : helper.signature.rest = none) {args : List Reg} (hr : r ∈ args) :
    (call helper args).Forces r .real := by
  refine .right fun dst => .left (ensures_instr fun types slots h => ?_)
  obtain ⟨⟨tys, hargs, hacc⟩, -⟩ := h
  rw [Signature.Accepts, hrest] at hacc
  obtain ⟨ty, hmem, hty⟩ := exists_mem_of_forall₂ hargs hr
  exact real_of_acceptsFrom hparams hacc ty hmem ▸ hty

theorem forces_math (f : MathFn) {args : List Reg} (hr : r ∈ args) :
    (call (.math f) args).Forces r .real :=
  forces_call (by cases f <;> simp [Helper.signature, MathFn.isBinary]) rfl hr

end

/-! ### Inputs of primitives -/

section

variable {who node : Ref} {a b c r : Reg}

/-- A copy into a register whose type is known. -/
theorem ensures_move {dst src : Reg} {ty : Ty} :
    (move dst src).Ensures fun types => Declares types dst ty → Declares types src ty :=
  ensures_instr fun _ _ h hdst => by
    obtain ⟨_, hdst', hsrc⟩ := h
    exact hdst'.unique hdst ▸ hsrc

/-- A checked number is forced by the copy that is checked. -/
theorem forces_retryReal {check : Reg → Emit Reg} [∀ r, Grows (check r)] :
    (retryReal who a check).Forces a .real := by
  unfold retryReal
  exact ensures_freshReg fun _ => .left ensures_move

theorem forces_reciprocal : (reciprocal who a).Forces a .real :=
  .left forces_retryReal

theorem forces_quotient_left : (quotient who a b).Forces a .real :=
  .right fun _ => forces_arith_left .div

theorem forces_quotient_right : (quotient who a b).Forces b .real :=
  .left forces_retryReal

theorem forces_remainder_left (f : MathFn) : (remainder f who a b).Forces a .real :=
  .left forces_retryReal

theorem forces_remainder_right (f : MathFn) : (remainder f who a b).Forces b .real :=
  .right fun _ => .left forces_retryReal

theorem forces_power_left : (power who a b).Forces a .real := by
  unfold power
  exact .right fun _ => .right fun _ => .right fun _ => .left (forces_compare_left .lt)

theorem forces_power_right : (power who a b).Forces b .real := by
  unfold power
  exact ensures_freshReg fun _ => .left ensures_move

theorem forces_trigonometric (f : MathFn) (degrees : Bool) :
    (trigonometric f degrees a).Forces a .real := by
  cases degrees with
  | true => exact .right fun _ => .left (forces_arith_left .mul)
  | false => exact forces_math f List.mem_cons_self

theorem forces_foldlM {step : Reg → Reg → Emit Reg} [∀ a b, Grows (step a b)]
    (hstep : ∀ a b, (step a b).Forces b .real) {rs : List Reg} (hr : r ∈ rs) (acc : Reg) :
    (rs.foldlM step acc).Forces r .real := by
  induction rs generalizing acc with
  | nil => cases hr
  | cons first rest ih =>
    rw [List.foldlM_cons]
    rcases List.mem_cons.mp hr with rfl | hr
    · exact .left (hstep acc r)
    · exact .right fun acc => ih hr acc

/-- A fold over two inputs or more forces them all. -/
theorem forces_fold {step : Reg → Reg → Emit Reg} [∀ a b, Grows (step a b)]
    (hleft : ∀ a b, (step a b).Forces a .real) (hright : ∀ a b, (step a b).Forces b .real)
    (identity : Float) {rs : List Reg} (hmany : 2 ≤ rs.length) (hr : r ∈ rs) :
    (fold step identity rs).Forces r .real := by
  rcases rs with - | ⟨first, - | ⟨second, rest⟩⟩
  · cases hr
  · simp at hmany
  · rcases List.mem_cons.mp hr with rfl | hr
    · show (List.foldlM step r (second :: rest)).Forces r .real
      rw [List.foldlM_cons]
      exact .left (hleft r second)
    · exact forces_foldlM hright hr first

theorem forces_bitwise (f : MathFn) (identity : Float) {rs : List Reg} (hr : r ∈ rs) :
    (bitwise f identity who rs).Forces r .real := by
  have hmap : (rs.mapM (int32 who)).Forces r .real := by
    induction rs with
    | nil => cases hr
    | cons first rest ih =>
      rw [List.mapM_cons]
      rcases List.mem_cons.mp hr with rfl | hr
      · exact .left forces_retryReal
      · exact .right fun _ => .left (ih hr)
  exact .left hmap

theorem forces_shift (f : MathFn) (hr : r ∈ [a, b]) : (shift f who a b).Forces r .real := by
  rcases List.mem_pair.mp hr with rfl | rfl
  · exact .left forces_retryReal
  · exact .right fun _ => .left forces_retryReal

theorem forces_randomRange (hr : r ∈ [a, b]) : (randomRange who a b).Forces r .real := by
  unfold randomRange
  rcases List.mem_pair.mp hr with rfl | rfl
  · exact .left forces_retryReal
  · exact .right fun _ => .left forces_retryReal

theorem forces_form (hr : r ∈ [a, b, c]) : (form who a b c).Forces r .real := by
  unfold form
  simp only [List.mem_cons, List.not_mem_nil, or_false] at hr
  rcases hr with rfl | rfl | rfl
  · exact .right fun _ => .right fun _ =>
      forces_call (by simp [Helper.signature]) rfl List.mem_cons_self
  · exact .left forces_retryReal
  · exact .right fun _ => .left forces_retryReal

theorem forces_repetition : (repetition who node a b).Forces a .real := by
  unfold repetition
  exact .left forces_retryReal

end

end Emit

/-! ### The code of generators -/

/-- The native type a consumer can ask for. -/
def Request.native? : Request → Option Ty
  | real => some .real
  | truth => some .truth
  | _ => none

namespace Generator

/-- Whether the code of a generator asks for native values. -/
def asksNative (g : Generator) : Bool :=
  (g.requests 2).any (·.native?.isSome)

/-- The most inputs the code of a generator uses, where it asks for native ones. -/
def most : Generator → Option Nat
  | difference | quotient | remainder | modulo | power | arctan | radArctan | ashift | lshift
  | random | lessP | greaterP | lessEqualP | greaterEqualP => some 2
  | rerandom => some 1
  | form => some 3
  | _ => none

theorem native?_of_not_asksNative {g : Generator} (h : g.asksNative = false) {n : Nat}
    {request : Request} (hr : request ∈ g.requests n) : request.native? = none := by
  cases g
  all_goals
    first
    | simp only [requests, List.mem_cons, List.not_mem_nil, or_false, List.mem_replicate] at hr <;>
        grind [Request.native?]
    | cases h

end Generator

private theorem table_most : ∀ row ∈ Primitive.table,
    (match row.generator.most, row.maxInputs with
      | some most, some bound => decide (bound ≤ most)
      | some _, none => false
      | none, _ => true) = true := by
  decide +kernel

/-- Code that goes on, and forces each input that a native value is asked of. -/
def Lower.Forces (code : Lower Reg) (rs : List Reg) (requests : List Request) : Prop :=
  ∃ m : Emit Reg, code = liftM m ∧
    ∀ p ∈ rs.zip requests, ∀ ty, p.2.native? = some ty → m.Forces p.1 ty

namespace Lower.Forces

variable {code : List Reg → Lower Reg} {rs : List Reg} {n : Nat}

/-- Code that reads all inputs, which are numbers. -/
theorem all (m : List Reg → Emit Reg) (hcode : code rs = liftM (m rs))
    (hforces : ∀ r ∈ rs, (m rs).Forces r .real) :
    Forces (code rs) rs (List.replicate n .real) := by
  refine ⟨m rs, hcode, fun p hp ty hty => ?_⟩
  obtain ⟨hr, hrequest⟩ := List.of_mem_zip hp
  rw [List.eq_of_mem_replicate hrequest] at hty
  cases hty
  exact hforces p.1 hr

/-- Code that reads one number. -/
theorem one (m : Reg → Emit Reg) (hlength : rs.length = 1) (hcode : ∀ a, code [a] = liftM (m a))
    (hforces : ∀ a, (m a).Forces a .real) : Forces (code rs) rs (List.replicate n .real) := by
  obtain ⟨a, rfl⟩ := List.length_eq_one_iff.mp hlength
  refine all (fun _ => m a) (hcode a) fun r hr => ?_
  rw [List.mem_singleton.mp hr]
  exact hforces a

/-- Code that reads two numbers. -/
theorem two (m : Reg → Reg → Emit Reg) (hlength : rs.length = 2)
    (hcode : ∀ a b, code [a, b] = liftM (m a b)) (hleft : ∀ a b, (m a b).Forces a .real)
    (hright : ∀ a b, (m a b).Forces b .real) :
    Forces (code rs) rs (List.replicate n .real) := by
  obtain ⟨a, b, rfl⟩ := List.length_eq_two.mp hlength
  refine all (fun _ => m a b) (hcode a b) fun r hr => ?_
  rcases List.mem_pair.mp hr with rfl | rfl
  · exact hleft r b
  · exact hright a r

/-- Code that reads one number or two. -/
theorem oneOrTwo (m₁ : Reg → Emit Reg) (m₂ : Reg → Reg → Emit Reg)
    (hlength : rs.length = 1 ∨ rs.length = 2) (hcode₁ : ∀ a, code [a] = liftM (m₁ a))
    (hcode₂ : ∀ a b, code [a, b] = liftM (m₂ a b)) (hforces : ∀ a, (m₁ a).Forces a .real)
    (hleft : ∀ a b, (m₂ a b).Forces a .real) (hright : ∀ a b, (m₂ a b).Forces b .real) :
    Forces (code rs) rs (List.replicate n .real) :=
  hlength.elim (one m₁ · hcode₁ hforces) (two m₂ · hcode₂ hleft hright)

end Lower.Forces

section

variable {rs : List Reg} {n k : Nat}
  (hlength : rs.length = (List.replicate n Request.real).length)

include hlength

private theorem two_le_length {r : Reg} (hn : n ≠ 1) (hr : r ∈ rs) : 2 ≤ rs.length := by
  have := List.length_pos_of_mem hr
  rw [List.length_replicate] at hlength
  omega

private theorem length_eq_two (hneeds : 2 ≤ n) (hmost : ∀ k', some k = some k' → n ≤ k')
    (hk : k = 2) : rs.length = 2 := by
  have := hmost k rfl
  rw [List.length_replicate] at hlength
  omega

private theorem length_eq_one_or_two (hneeds : 1 ≤ n) (hmost : ∀ k', some k = some k' → n ≤ k')
    (hk : k = 2) : rs.length = 1 ∨ rs.length = 2 := by
  have := hmost k rfl
  rw [List.length_replicate] at hlength
  omega

end

/-- **Generators that ask for native values** force them. -/
theorem exists_forcing_emitNode (h : Heap) {head : NodeHead} {rs : List Reg} {n : Nat}
    (hnative : head.generator.asksNative = true)
    (hlength : rs.length = (head.generator.requests n).length)
    (hneeds : head.generator.needs ≤ n) (hmost : ∀ k, head.generator.most = some k → n ≤ k)
    (hmany : head.generator.folds = true → n ≠ 1) :
    Lower.Forces (emitNode h head rs) rs (head.generator.requests n) := by
  obtain ⟨node, id, who, g, returns⟩ := head
  dsimp only at hnative hlength hneeds hmost hmany ⊢
  -- one case for each generator: what differs is how many inputs its code takes
  cases g with
  | sum =>
    exact .all (Emit.fold (Emit.arith .add) 0.0) rfl fun r hr =>
      Emit.forces_fold (fun _ _ => Emit.forces_arith_left .add)
        (fun _ _ => Emit.forces_arith_right .add) 0.0 (two_le_length hlength (hmany rfl) hr) hr
  | product =>
    exact .all (Emit.fold (Emit.arith .mul) 1.0) rfl fun r hr =>
      Emit.forces_fold (fun _ _ => Emit.forces_arith_left .mul)
        (fun _ _ => Emit.forces_arith_right .mul) 1.0 (two_le_length hlength (hmany rfl) hr) hr
  | difference =>
    exact .two (Emit.arith .sub) (length_eq_two hlength hneeds hmost rfl) (fun _ _ => rfl)
      (fun _ _ => Emit.forces_arith_left .sub) fun _ _ => Emit.forces_arith_right .sub
  | minus => exact .one (n := 1) Emit.negate hlength (fun _ => rfl) fun _ => Emit.forces_negate
  | quotient =>
    exact .oneOrTwo (Emit.reciprocal who) (Emit.quotient who)
      (length_eq_one_or_two hlength hneeds hmost rfl) (fun _ => rfl) (fun _ _ => rfl)
      (fun _ => Emit.forces_reciprocal) (fun _ _ => Emit.forces_quotient_left)
      fun _ _ => Emit.forces_quotient_right
  | remainder =>
    exact .two (Emit.remainder .remainder who) (length_eq_two hlength hneeds hmost rfl)
      (fun _ _ => rfl) (fun _ _ => Emit.forces_remainder_left _)
      fun _ _ => Emit.forces_remainder_right _
  | modulo =>
    exact .two (Emit.remainder .modulo who) (length_eq_two hlength hneeds hmost rfl)
      (fun _ _ => rfl) (fun _ _ => Emit.forces_remainder_left _)
      fun _ _ => Emit.forces_remainder_right _
  | sqrt =>
    exact .one (n := 1) (Emit.squareRoot who) hlength (fun _ => rfl)
      fun _ => .left Emit.forces_retryReal
  | power =>
    exact .two (Emit.power who) (length_eq_two hlength hneeds hmost rfl) (fun _ _ => rfl)
      (fun _ _ => Emit.forces_power_left) fun _ _ => Emit.forces_power_right
  | exp =>
    exact .one (n := 1) (fun a => Emit.call (.math .exp) [a]) hlength (fun _ => rfl)
      fun _ => Emit.forces_math _ List.mem_cons_self
  | integerPart =>
    exact .one (n := 1) (fun a => Emit.call (.math .trunc) [a]) hlength (fun _ => rfl)
      fun _ => Emit.forces_math _ List.mem_cons_self
  | round =>
    exact .one (n := 1) (fun a => Emit.call (.math .round) [a]) hlength (fun _ => rfl)
      fun _ => Emit.forces_math _ List.mem_cons_self
  | log10 =>
    exact .one (n := 1) (Emit.logarithm .log10 who) hlength (fun _ => rfl)
      fun _ => .left Emit.forces_retryReal
  | ln =>
    exact .one (n := 1) (Emit.logarithm .ln who) hlength (fun _ => rfl)
      fun _ => .left Emit.forces_retryReal
  | sin =>
    exact .one (n := 1) (Emit.trigonometric .sin true) hlength (fun _ => rfl)
      fun _ => Emit.forces_trigonometric _ _
  | cos =>
    exact .one (n := 1) (Emit.trigonometric .cos true) hlength (fun _ => rfl)
      fun _ => Emit.forces_trigonometric _ _
  | radSin =>
    exact .one (n := 1) (Emit.trigonometric .sin false) hlength (fun _ => rfl)
      fun _ => Emit.forces_trigonometric _ _
  | radCos =>
    exact .one (n := 1) (Emit.trigonometric .cos false) hlength (fun _ => rfl)
      fun _ => Emit.forces_trigonometric _ _
  | arctan =>
    exact .oneOrTwo (Emit.arctangent true) (Emit.arctangentOf true)
      (length_eq_one_or_two hlength hneeds hmost rfl) (fun _ => rfl) (fun _ _ => rfl)
      (fun _ => .left (Emit.forces_math _ List.mem_cons_self))
      (fun _ _ => .left (Emit.forces_math _ (by simp)))
      fun _ _ => .left (Emit.forces_math _ List.mem_cons_self)
  | radArctan =>
    exact .oneOrTwo (Emit.arctangent false) (Emit.arctangentOf false)
      (length_eq_one_or_two hlength hneeds hmost rfl) (fun _ => rfl) (fun _ _ => rfl)
      (fun _ => .left (Emit.forces_math _ List.mem_cons_self))
      (fun _ _ => .left (Emit.forces_math _ (by simp)))
      fun _ _ => .left (Emit.forces_math _ List.mem_cons_self)
  | bitAnd =>
    exact .all (Emit.bitwise .bitAnd (-1.0) who) rfl fun _ hr => Emit.forces_bitwise _ _ hr
  | bitOr => exact .all (Emit.bitwise .bitOr 0.0 who) rfl fun _ hr => Emit.forces_bitwise _ _ hr
  | bitXor => exact .all (Emit.bitwise .bitXor 0.0 who) rfl fun _ hr => Emit.forces_bitwise _ _ hr
  | bitNot =>
    exact .one (n := 1) (Emit.complement who) hlength (fun _ => rfl)
      fun _ => .left Emit.forces_retryReal
  | ashift =>
    exact .two (Emit.shift .ashift who) (length_eq_two hlength hneeds hmost rfl) (fun _ _ => rfl)
      (fun _ _ => Emit.forces_shift _ (by simp)) fun _ _ => Emit.forces_shift _ (by simp)
  | lshift =>
    exact .two (Emit.shift .lshift who) (length_eq_two hlength hneeds hmost rfl) (fun _ _ => rfl)
      (fun _ _ => Emit.forces_shift _ (by simp)) fun _ _ => Emit.forces_shift _ (by simp)
  | random =>
    exact .oneOrTwo (Emit.random who) (Emit.randomRange who)
      (length_eq_one_or_two hlength hneeds hmost rfl) (fun _ => rfl) (fun _ _ => rfl)
      (fun _ => .left Emit.forces_retryReal) (fun _ _ => Emit.forces_randomRange (by simp))
      fun _ _ => Emit.forces_randomRange (by simp)
  | rerandom =>
    -- the seed may be left out, so there may be nothing to force
    have hone := hmost 1 rfl
    simp only [Generator.requests, List.length_replicate] at hlength
    obtain hnone | hone : rs.length = 0 ∨ rs.length = 1 := by omega
    · obtain rfl := List.length_eq_zero_iff.mp hnone
      exact .all (Emit.rerandom who node) rfl fun _ hr => absurd hr List.not_mem_nil
    · exact .one (fun a => Emit.rerandom who node [a]) hone (fun _ => rfl)
        fun _ => .left Emit.forces_retryReal
  | form =>
    have hthree : n ≤ 3 := hmost 3 rfl
    simp only [Generator.requests, List.length_replicate] at hlength
    obtain ⟨a, b, c, rfl⟩ := List.length_eq_three.mp (hlength.trans (Nat.le_antisymm hthree hneeds))
    exact .all (fun _ => Emit.form who a b c) rfl fun _ hr => Emit.forces_form hr
  | lessP =>
    exact .two (Emit.compare .lt) (length_eq_two hlength hneeds hmost rfl) (fun _ _ => rfl)
      (fun _ _ => Emit.forces_compare_left _) fun _ _ => Emit.forces_compare_right _
  | greaterP =>
    exact .two (Emit.compare .gt) (length_eq_two hlength hneeds hmost rfl) (fun _ _ => rfl)
      (fun _ _ => Emit.forces_compare_left _) fun _ _ => Emit.forces_compare_right _
  | lessEqualP =>
    exact .two (Emit.compare .le) (length_eq_two hlength hneeds hmost rfl) (fun _ _ => rfl)
      (fun _ _ => Emit.forces_compare_left _) fun _ _ => Emit.forces_compare_right _
  | greaterEqualP =>
    exact .two (Emit.compare .ge) (length_eq_two hlength hneeds hmost rfl) (fun _ _ => rfl)
      (fun _ _ => Emit.forces_compare_left _) fun _ _ => Emit.forces_compare_right _
  | negation =>
    obtain ⟨a, rfl⟩ := List.length_eq_one_iff.mp hlength
    refine ⟨Emit.not a, rfl, fun p hp ty hty => ?_⟩
    obtain rfl := List.mem_singleton.mp hp
    cases hty
    exact Emit.forces_not
  | repeatTimes =>
    -- only the count is asked for as a number: the list is a datum
    obtain ⟨a, b, rfl⟩ := List.length_eq_two.mp hlength
    refine ⟨Emit.repetition who node a b, rfl, fun p hp ty hty => ?_⟩
    rcases List.mem_pair.mp hp with rfl | rfl
    · cases hty
      exact Emit.forces_repetition
    · cases hty
  | turtle op =>
    exact .all (Emit.ask (.turtle op)) rfl fun _ hr =>
      .left (Emit.forces_call (fun _ => List.eq_of_mem_replicate) rfl hr)
  | _ => cases hnative

/-! ### Lowering -/

namespace Lower

variable {α β : Type} {m : Lower α} {f : α → Lower β} {d : Draft} {P Q : Prop}

/-- Code of a computation that succeeds only grows. -/
def Grows (m : Lower α) : Prop :=
  ∀ d a d', m.run d = (.ok a, d') → d.Below d'

/-- Code that only fits into typed drafts if `P` holds. -/
def Ensures (m : Lower α) (P : Prop) : Prop :=
  ∀ d a d', m.run d = (.ok a, d') → ∀ final, d'.Within final → final.Typed → P

theorem exists_of_run_bind {b : β} {d' : Draft} (h : (m >>= f).run d = (.ok b, d')) :
    ∃ a d₁, m.run d = (.ok a, d₁) ∧ (f a).run d₁ = (.ok b, d') := by
  cases hm : m.run d with
  | mk result d₁ =>
    cases result with
    | ok a => exact ⟨a, d₁, rfl, (run_bind hm).symm.trans h⟩
    | error e =>
      have herror : (m >>= f).run d = (.error e, d₁) := by
        show (ExceptT.bind m f).run d = _
        simp only [ExceptT.bind, ExceptT.run, ExceptT.mk, bind, StateT.bind] at hm ⊢
        rw [hm]
        rfl
      rw [herror] at h
      cases h

/-- What a specification says of a run. -/
theorem Spec.of_run {κ : Prop} {φ ψ : Prop → Prop} {R : Array Ty → α → Prop}
    (h : Spec m d κ φ ψ R) {a : α} {d' : Draft} (hrun : m.run d = (.ok a, d')) :
    d.Below d' ∧ R d'.types a := by
  obtain ⟨a', d₁, hrun', hle, hR, -⟩ := h
  rw [hrun] at hrun'
  cases hrun'
  exact ⟨hle, hR⟩

theorem Grows.pure {a : α} : Grows (pure a) := by
  rintro d _ _ ⟨⟩
  exact .refl

theorem Grows.lift (m : Emit α) [Emit.Grows m] : Grows (liftM m) := by
  rintro d _ _ ⟨⟩
  exact .of_emit m

theorem Grows.bind (hm : Grows m) (hf : ∀ a, Grows (f a)) : Grows (m >>= f) := by
  intro d b d' hrun
  obtain ⟨a, d₁, hrun₁, hrun₂⟩ := exists_of_run_bind hrun
  exact (hm d a d₁ hrun₁).trans (hf a d₁ b d' hrun₂)

theorem Grows.throw {e : CompileError} : Grows (throw e : Lower α) := by
  rintro d _ _ ⟨⟩

theorem Grows.ite {c : Prop} [Decidable c] {m m' : Lower α} (h : Grows m) (h' : Grows m') :
    Grows (if c then m else m') := by
  split
  · exact h
  · exact h'

theorem Ensures.left (h : m.Ensures P) (hf : ∀ a, Grows (f a)) : (m >>= f).Ensures P := by
  intro d b d' hrun final hw
  obtain ⟨a, d₁, hrun₁, hrun₂⟩ := exists_of_run_bind hrun
  exact h d a d₁ hrun₁ final (hf a d₁ b d' hrun₂ final hw)

theorem Ensures.right (h : ∀ a, (f a).Ensures P) : (m >>= f).Ensures P := by
  intro d b d' hrun
  obtain ⟨a, d₁, -, hrun₂⟩ := exists_of_run_bind hrun
  exact h a d₁ b d' hrun₂

theorem Ensures.and (hP : m.Ensures P) (hQ : m.Ensures Q) : m.Ensures (P ∧ Q) :=
  fun d a d' hrun final hw htyped =>
    ⟨hP d a d' hrun final hw htyped, hQ d a d' hrun final hw htyped⟩

theorem Ensures.trivial (h : P) : m.Ensures P :=
  fun _ _ _ _ _ _ _ => h

end Lower

/-- A node whose code passes the check only if the node fits. -/
def Node.Checked (h : Heap) (node : Node) : Prop :=
  ∀ request, (lowerNode h node request).Ensures (node.fits h = true)

theorem Node.Lowers.grows {h : Heap} {node : Node} (hnode : node.Lowers h) (request : Request) :
    Lower.Grows (lowerNode h node request) :=
  fun d _ _ hrun => ((hnode request d).of_run hrun).1

section

variable {h : Heap} {head : NodeHead} {inputs : List Node}

theorem grows_emitNode (h : Heap) (head : NodeHead) (rs : List Reg) :
    Lower.Grows (emitNode h head rs) := by
  fun_cases emitNode h head rs <;> first | exact .lift _ | exact .throw

theorem grows_lowerInputs (hlowers : ∀ input ∈ inputs, input.Lowers h) (requests : List Request) :
    Lower.Grows (lowerInputs h inputs requests) :=
  fun _ _ _ hrun => ((lowerInputs_spec hlowers requests).of_run hrun).1

theorem ensures_lowerInputs (hlowers : ∀ input ∈ inputs, input.Lowers h)
    (hchecked : ∀ input ∈ inputs, input.Checked h) (requests : List Request) :
    (lowerInputs h inputs requests).Ensures (∀ p ∈ inputs.zip requests, p.1.fits h = true) := by
  induction inputs generalizing requests with
  | nil => exact .trivial (by simp)
  | cons input inputs ih =>
    cases requests with
    | nil => exact .trivial (by simp)
    | cons request requests =>
      rw [List.forall_mem_cons] at hlowers hchecked
      simp only [List.zip_cons_cons, List.forall_mem_cons]
      rw [lowerInputs]
      refine .and (.left (hchecked.1 request) fun r => ?_) (.right fun r => ?_)
      · exact (grows_lowerInputs hlowers.2 requests).bind fun _ => .pure
      · exact .left (ih hlowers.2 hchecked.2 requests) fun _ => .pure

/-- A consumer that asks for no native value can use what it gets. -/
theorem Request.suits_castTy {request : Request} (hnative : request.native? = none)
    (produced : Request) (ty : Ty) : request.suits (request.castTy produced ty) = true := by
  cases request with
  | real | truth => cases hnative
  | datumOrTruth => cases ty <;> rfl
  | nothing | datum | datumOrNothing => rfl

/-- A consumer that asks for a native value can use it. -/
theorem Request.suits_native {request : Request} {ty : Ty} (hnative : request.native? = some ty) :
    request.suits ty = true := by
  cases request <;> cases hnative <;> rfl

/-- The register that was made for an input. -/
private theorem exists_mem_zip {R : Reg → Ty → Prop} {f : Node × Request → Ty} {nodes : List Node}
    {requests : List Request} {rs : List Reg}
    (hrs : List.Forall₂ R rs ((nodes.zip requests).map f)) {p : Node × Request}
    (hp : p ∈ nodes.zip requests) : ∃ r, (r, p.2) ∈ rs.zip requests ∧ R r (f p) := by
  induction nodes generalizing requests rs with
  | nil => cases hp
  | cons node nodes ih =>
    cases requests with
    | nil => cases hp
    | cons request requests =>
      rw [List.zip_cons_cons] at hp hrs
      cases hrs with
      | @cons r _ rs _ hr hrs =>
      rcases List.mem_cons.mp hp with rfl | hp
      · exact ⟨r, List.mem_cons_self, hr⟩
      · obtain ⟨r', hmem, hr'⟩ := ih hrs hp
        exact ⟨r', List.mem_cons_of_mem _ hmem, hr'⟩

theorem checked_generic (hfault : arityFault? h head inputs.length = none)
    (hspecial : head.generator.isSpecial = false)
    (hneeds : head.generator.needs ≤ inputs.length)
    (hturtle : ∀ op, head.generator = .turtle op → inputs.length = op.inputs)
    (hdelivers : head.returns.delivers head.generator.ty = true)
    (hmost : ∀ k, head.generator.most = some k → inputs.length ≤ k)
    (hlowers : ∀ input ∈ inputs, input.Lowers h) (hchecked : ∀ input ∈ inputs, input.Checked h) :
    (Node.call head inputs).Checked h := by
  intro request d r d' hrun final hw htyped
  rw [lowerNode_generic hfault hspecial] at hrun
  obtain ⟨raw, d₁, hrun₁, hrun⟩ := Lower.exists_of_run_bind hrun
  obtain ⟨rs, d₂, hrun₂, hrun₃⟩ := Lower.exists_of_run_bind hrun
  obtain ⟨hle₁, hraw⟩ := (lowerInputs_spec hlowers _).of_run hrun₁
  obtain ⟨hle₂, hrs⟩ := (Lower.Spec.lift (κ := True) (castInputs_spec hraw)).of_run hrun₂
  obtain ⟨hle₃, -⟩ :=
    (emitNode_spec hfault hspecial hneeds hturtle hdelivers request hrs).of_run hrun₃
  have hw₂ := hle₃ _ hw
  rw [fits_generic hfault hspecial, inputsFit_iff]
  refine ⟨ensures_lowerInputs hlowers hchecked _ d raw d₁ hrun₁ final (hle₂ _ hw₂) htyped, ?_⟩
  by_cases hpassed : (head.generator.folds && inputs.length == 1) = true
  · exact .inl hpassed
  refine .inr fun p hp => ?_
  unfold Node.suits
  cases hnative : p.2.native? with
  | none => exact Request.suits_castTy hnative _ _
  | some ty =>
    have hasks : head.generator.asksNative = true := by
      by_contra hno
      have hnone := Generator.native?_of_not_asksNative (by simpa using hno) (List.of_mem_zip hp).2
      rw [hnone] at hnative
      cases hnative
    have hlength : rs.length = (head.generator.requests inputs.length).length := by
      rw [hrs.length_eq, List.length_map, List.length_zip,
        Nat.min_eq_right (Generator.length_requests_le hneeds)]
    obtain ⟨m, hm, hforces⟩ := exists_forcing_emitNode h hasks hlength hneeds hmost
      fun hfolds hone => hpassed (by simp [hfolds, hone])
    obtain ⟨r', hmem, hr'⟩ := exists_mem_zip hrs hp
    have hd' : (m d₂).2 = d' := by
      rw [hm] at hrun₃
      exact congrArg Prod.snd hrun₃
    have hforced := hforces (r', p.2) hmem ty hnative d₂ final (hd' ▸ hw) htyped
    rw [(hr'.mono hw₂.types).unique hforced]
    exact Request.suits_native hnative

theorem grows_lowerChoices (hlowers : ∀ input ∈ inputs, input.Lowers h) (conj : Bool) (result : Reg)
    (exit : Label) : Lower.Grows (lowerChoices h head conj result exit inputs) := by
  induction inputs with
  | nil =>
    rw [lowerChoices]
    exact .pure
  | cons input inputs ih =>
    rw [List.forall_mem_cons] at hlowers
    rw [lowerChoices]
    refine (hlowers.1.grows _).bind fun raw => (Lower.Grows.lift _).bind fun value =>
      (Lower.Grows.lift _).bind fun b => (Lower.Grows.lift _).bind fun _ => ?_
    split
    · exact .pure
    · exact (Lower.Grows.lift _).bind fun next => (Lower.Grows.lift _).bind fun _ => ih hlowers.2

theorem ensures_lowerChoices (hlowers : ∀ input ∈ inputs, input.Lowers h)
    (hchecked : ∀ input ∈ inputs, input.Checked h) (conj : Bool) (result : Reg) (exit : Label) :
    (lowerChoices h head conj result exit inputs).Ensures
      (∀ input ∈ inputs, input.fits h = true) := by
  induction inputs with
  | nil => exact .trivial (by simp)
  | cons input inputs ih =>
    rw [List.forall_mem_cons] at hlowers hchecked
    simp only [List.forall_mem_cons]
    rw [lowerChoices]
    refine .and (.left (hchecked.1 _) fun raw => ?_)
      (.right fun raw => .right fun value => .right fun b => .right fun _ => ?_)
    · refine (Lower.Grows.lift _).bind fun value => (Lower.Grows.lift _).bind fun b =>
        (Lower.Grows.lift _).bind fun _ => ?_
      split
      · exact .pure
      · exact (Lower.Grows.lift _).bind fun next => (Lower.Grows.lift _).bind fun _ =>
          grows_lowerChoices hlowers.2 conj result exit
    · cases inputs with
      | nil => exact .trivial (by simp)
      | cons input' inputs => exact .right fun next => .right fun _ => ih hlowers.2 hchecked.2

theorem ensures_emitChoice {P : Prop} (conj : Bool) {inputs : List Node}
    {f : Reg → Label → Lower Unit} (hf : ∀ result exit, (f result exit).Ensures P)
    (hnil : inputs = [] → P) : (emitChoice conj inputs.isEmpty f).Ensures P := by
  refine .right fun result => .right fun initial => .right fun _ => ?_
  cases inputs with
  | nil => exact .trivial (hnil rfl)
  | cons input inputs =>
    exact .right fun exit => .left (hf result exit) fun _ =>
      (Lower.Grows.lift _).bind fun _ => .pure

/-- What the check says of the input of a way out, or of the inputs of a tail call. -/
def Node.CheckedOut (h : Heap) (node : Node) : Prop :=
  node.Checked h ∧ ∀ callee args, node = .call callee args →
    callee.generator = .execProcedure → ∀ arg ∈ args, arg.Checked h

private theorem mem_zip_replicate (request : Request) {input : Node} (hinput : input ∈ inputs) :
    (input, request) ∈ inputs.zip (List.replicate inputs.length request) := by
  induction inputs with
  | nil => cases hinput
  | cons first rest ih =>
    rw [List.length_cons, List.replicate_succ, List.zip_cons_cons]
    rcases List.mem_cons.mp hinput with rfl | hinput
    · exact List.mem_cons_self
    · exact List.mem_cons_of_mem _ (ih hinput)

theorem ensures_lowerExit (hlowers : ∀ input ∈ inputs, input.LowersOut h)
    (hchecked : ∀ input ∈ inputs, input.CheckedOut h) (request : Request) :
    (lowerExit h head request inputs).Ensures (Node.exitFits h inputs = true) := by
  cases inputs with
  | nil => exact .trivial rfl
  | cons input inputs =>
    obtain ⟨callee, args, rfl, hlower, hargs⟩ := hlowers input List.mem_cons_self
    obtain ⟨hcheck, hcheckArgs⟩ := hchecked _ List.mem_cons_self
    rw [lowerExit, Node.exitFits]
    refine .right fun self => ?_
    by_cases hcall : callee.generator = .execProcedure
    · rw [if_pos hcall, if_pos hcall]
      have hfits := ensures_lowerInputs (hargs hcall) (hcheckArgs callee args rfl hcall)
        (List.replicate args.length .datum)
      refine .left (fun d a d' hrun final hw htyped => allFit_iff.mpr fun arg harg => ?_) fun raw =>
        (Lower.Grows.lift _).bind fun rs => (Lower.Grows.lift _).bind fun target => .lift _
      exact hfits d a d' hrun final hw htyped _ (mem_zip_replicate .datum harg)
    · rw [if_neg hcall, if_neg hcall]
      refine .left (hcheck request) fun raw => (Lower.Grows.lift _).bind fun value => ?_
      split
      · exact (Lower.Grows.lift _).bind fun value => .lift _
      · exact .bind .pure fun value => .lift _

end

/-! ### All nodes -/

section

variable {h : Heap}

private theorem checked_choice {head : NodeHead} {inputs : List Node} (conj : Bool)
    (hfault : arityFault? h head inputs.length = none)
    (hgenerator : head.generator = if conj then .conjunction else .disjunction)
    (hlowers : ∀ input ∈ inputs, input.Lowers h) (hchecked : ∀ input ∈ inputs, input.Checked h) :
    (Node.call head inputs).Checked h := by
  intro request
  obtain ⟨hrun, hfits⟩ := lowerNode_choice conj hfault hgenerator request
  rw [hrun, hfits, allFit_iff]
  exact ensures_emitChoice conj (fun result exit =>
    ensures_lowerChoices hlowers hchecked conj result exit) (by rintro rfl; simp)

private theorem checked_exit {head : NodeHead} {inputs : List Node} {asked : Request}
    (hfault : arityFault? h head inputs.length = none)
    (hgenerator : head.generator.exitRequest? = some asked)
    (hlowers : ∀ input ∈ inputs, input.LowersOut h)
    (hchecked : ∀ input ∈ inputs, input.CheckedOut h) : (Node.call head inputs).Checked h := by
  intro request
  obtain ⟨hrun, hfits⟩ := lowerNode_exit hfault hgenerator request
  rw [hrun, hfits]
  exact ensures_lowerExit hlowers hchecked asked

/-- The code of a primitive uses as many inputs as its row allows. -/
private theorem le_most {name : String} {row : Primitive} (hrow : Primitive.find? name = some row)
    {n : Nat} (hmax : ∀ bound, row.maxInputs = some bound → n ≤ bound) {k : Nat}
    (hk : row.generator.most = some k) : n ≤ k := by
  unfold Primitive.find? at hrow
  have hbound := table_most row (List.mem_of_find?_eq_some hrow)
  rw [hk] at hbound
  cases hmost : row.maxInputs with
  | none =>
    rw [hmost] at hbound
    cases hbound
  | some bound =>
    rw [hmost] at hbound
    exact (hmax bound hmost).trans (of_decide_eq_true hbound)

private theorem checked_primitive {head : NodeHead} {inputs : List Node} {name : String}
    {row : Primitive} (hname : h.word? head.name = some (.text name))
    (hrow : Primitive.find? name = some row) (hgenerator : head.generator = row.generator)
    (hreturns : head.returns = row.returns) (hlowers : ∀ input ∈ inputs, input.LowersOut h)
    (hchecked : ∀ input ∈ inputs, input.CheckedOut h) : (Node.call head inputs).Checked h := by
  have hproper := (Primitive.find?_eq_some hrow).1
  have hlowers' : ∀ input ∈ inputs, input.Lowers h :=
    fun input hinput => (hlowers input hinput).lowers
  have hchecked' : ∀ input ∈ inputs, input.Checked h :=
    fun input hinput => (hchecked input hinput).1
  cases hfault : arityFault? h head inputs.length with
  | some helper =>
    refine fun request => .trivial ?_
    rw [Node.fits, hfault]
  | none =>
    by_cases hspecial : head.generator.isSpecial = true
    · rcases Generator.isSpecial_cases hspecial with hg | hg | hg | hg | ⟨asked, hasked⟩
      · exact absurd (hgenerator ▸ hg) hproper.literal
      · exact absurd (hgenerator ▸ hg) hproper.valueOf
      · exact checked_choice true hfault hg hlowers' hchecked'
      · exact checked_choice false hfault hg hlowers' hchecked'
      · exact checked_exit hfault hasked hlowers hchecked
    · obtain ⟨hneeds, hturtle, hdelivers⟩ :=
        uses_of_arityFault? hname hrow hgenerator hreturns hfault
      obtain ⟨-, hmax⟩ := bounds_of_arityFault? hname hrow hgenerator hfault
      exact checked_generic hfault (by simpa using hspecial) hneeds hturtle hdelivers
        (hgenerator ▸ fun k hk => le_most hrow hmax hk) hlowers' hchecked'

/-- The code of a built node passes the check only if the node fits. -/
theorem Node.Built.checkedOut {node : Node} (hbuilt : node.Built h) : node.CheckedOut h := by
  induction hbuilt with
  | @primitive head inputs name row hname hrow hgenerator hreturns hinputs ih =>
    refine ⟨checked_primitive hname hrow hgenerator hreturns
      (fun input hinput => (hinputs input hinput).lowersOut) ih, ?_⟩
    rintro _ _ ⟨⟩ hcall
    exact absurd (hgenerator ▸ hcall) (Primitive.find?_eq_some hrow).1.procedure
  | @literal head value hgenerator hreturns =>
    refine ⟨fun request => .trivial ?_, ?_⟩
    · simp [Node.fits, arityFault?, hgenerator]
    · rintro _ _ ⟨⟩ hcall
      rw [hgenerator] at hcall
      cases hcall
  | @valueOf head subject hgenerator hreturns =>
    refine ⟨fun request => .trivial ?_, ?_⟩
    · simp [Node.fits, arityFault?, hgenerator]
    · rintro _ _ ⟨⟩ hcall
      rw [hgenerator] at hcall
      cases hcall
  | @procedure head inputs hgenerator hreturns hinputs ih =>
    refine ⟨checked_generic ?_ ?_ ?_ ?_ ?_ ?_ (fun input hinput => (hinputs input hinput).lowers)
      fun input hinput => (ih input hinput).1, ?_⟩
    · simp [arityFault?, hgenerator]
    · simp [hgenerator, Generator.isSpecial]
    · simp [hgenerator, Generator.needs]
    · simp [hgenerator]
    · simp [hgenerator, hreturns, Generator.ty, Request.delivers]
    · simp [hgenerator, Generator.most]
    · rintro _ _ ⟨⟩ _
      exact fun arg harg => (ih arg harg).1

end

/-! ### Parses -/

section

variable {h : Heap}

theorem grows_lowerNodes {nodes : List Node} (hnodes : ∀ node ∈ nodes, node.Built h)
    (last : Option Ref) (result : Option Reg) : Lower.Grows (lowerNodes h last result nodes) := by
  induction nodes generalizing result with
  | nil => exact .pure
  | cons node nodes ih =>
    rw [List.forall_mem_cons] at hnodes
    rw [lowerNodes]
    exact (hnodes.1.lowers.grows _).bind fun raw => (Lower.Grows.lift _).bind fun r =>
      ih hnodes.2 (some r)

theorem ensures_lowerNodes {nodes : List Node} (hnodes : ∀ node ∈ nodes, node.Built h)
    (last : Option Ref) (result : Option Reg) :
    (lowerNodes h last result nodes).Ensures (∀ node ∈ nodes, node.fits h = true) := by
  induction nodes generalizing result with
  | nil => exact .trivial (by simp)
  | cons node nodes ih =>
    rw [List.forall_mem_cons] at hnodes
    simp only [List.forall_mem_cons]
    rw [lowerNodes]
    refine .and (.left (hnodes.1.checkedOut.1 _) fun raw => ?_)
      (.right fun raw => .right fun r => ?_)
    · exact (Lower.Grows.lift _).bind fun r => grows_lowerNodes hnodes.2 last (some r)
    · exact ih hnodes.2 (some r)

theorem grows_lowerGroups {groups : List (List Node)}
    (hgroups : ∀ group ∈ groups, ∀ node ∈ group, node.Built h) (line last : Option Ref)
    (result : Option Reg) (starts : List Label) :
    Lower.Grows (lowerGroups h line last result starts groups) := by
  induction groups generalizing result starts with
  | nil => exact .pure
  | cons group groups ih =>
    rw [List.forall_mem_cons] at hgroups
    rw [lowerGroups]
    split
    · refine (Lower.Grows.lift _).bind fun _ => (Lower.Grows.lift _).bind fun label =>
        (Lower.Grows.lift _).bind fun _ => .bind (grows_lowerNodes ?_ last none) fun r =>
          ih hgroups.2 r _
      exact fun node hnode => hgroups.1 node ((List.dropWhile_sublist _).subset hnode)
    · exact (grows_lowerNodes hgroups.1 last result).bind fun r => ih hgroups.2 r starts

theorem ensures_lowerGroups {groups : List (List Node)}
    (hgroups : ∀ group ∈ groups, ∀ node ∈ group, node.Built h) (line last : Option Ref)
    (result : Option Reg) (starts : List Label) :
    (lowerGroups h line last result starts groups).Ensures
      (∀ group ∈ groups, ∀ node ∈ statements group, node.fits h = true) := by
  induction groups generalizing result starts with
  | nil => exact .trivial (by simp)
  | cons group groups ih =>
    rw [List.forall_mem_cons] at hgroups
    simp only [List.forall_mem_cons]
    rw [lowerGroups]
    split
    · have hbuilt : ∀ node ∈ statements group, node.Built h :=
        fun node hnode => hgroups.1 node ((List.dropWhile_sublist _).subset hnode)
      refine .right fun _ => .right fun label => .right fun _ => .and ?_ (.right fun r => ?_)
      · exact .left (ensures_lowerNodes hbuilt last none) fun r =>
          grows_lowerGroups hgroups.2 line last r _
      · exact ih hgroups.2 r _
    · next htag =>
      rw [statements_of_not_tag htag]
      refine .and (.left (ensures_lowerNodes hgroups.1 last result) fun r => ?_)
        (.right fun r => ih hgroups.2 r starts)
      exact grows_lowerGroups hgroups.2 line last r starts

theorem statements_statements (group : List Node) :
    statements (statements group) = statements group := by
  induction group with
  | nil => rfl
  | cons node rest ih =>
    unfold statements at ih ⊢
    rw [List.dropWhile_cons]
    split
    · exact ih
    · next hnode => rw [List.dropWhile_cons, if_neg hnode]

/-- Every statement of a parse has code. -/
theorem Parse.mem_groups_of_mem {parse : Parse} {group : List Node} (hgroup : group ∈ parse)
    {node : Node} (hnode : node ∈ statements group) :
    ∃ group' ∈ parse.groups, node ∈ statements group' := by
  have hfull : group.isEmpty = false := by
    cases group with
    | nil => cases hnode
    | cons first rest => rfl
  have hmem : group ∈ parse.filter fun group => !group.isEmpty :=
    List.mem_filter.mpr ⟨hgroup, by simp [hfull]⟩
  unfold Parse.groups
  split
  · next hnil =>
    rw [hnil] at hmem
    cases hmem
  · next first rest hcons =>
    rw [hcons] at hmem
    rcases List.mem_cons.mp hmem with rfl | hrest
    · rw [if_neg (by simp [List.ne_nil_of_mem hnode])]
      refine ⟨statements group, List.mem_cons_self, ?_⟩
      rw [statements_statements]
      exact hnode
    · split
      · exact ⟨group, hrest, hnode⟩
      · exact ⟨group, List.mem_cons_of_mem _ hrest, hnode⟩

/-- **The code of a built parse passes the structural check exactly if the parse fits.** -/
theorem exists_verify_lowerUnit_iff {parse : Parse} (hbuilt : parse.Built h) (name : String)
    (line : Option Ref) :
    ∃ code, (lowerUnit h name line parse).1 = .ok code ∧ code.name = name ∧ code.WellFormed ∧
      (code.verify = .ok () ↔ parse.fits h = true) := by
  obtain ⟨entry, d, hcode, ⟨last, tags, result, d₁, hrun, hw⟩, hgood⟩ :=
    exists_lowerUnit hbuilt name line
  obtain ⟨marked, -, hdone, hentry, hlt⟩ := hgood False False.elim
  refine ⟨_, hcode, rfl, hdone.wellFormed hentry hlt, ?_⟩
  rw [Routine.verify_eq_ok_iff]
  constructor
  · intro hcheck
    obtain ⟨-, -, htyped⟩ := (Routine.check_eq_ok_iff _).mp hcheck
    have hgroups : ∀ group ∈ parse.groups, ∀ node ∈ group, node.Built h := by
      intro group hgroup node hnode
      obtain ⟨group', hgroup', hnode', -⟩ := Parse.mem_of_mem_groups hgroup hnode
      exact hbuilt group' hgroup' node hnode'
    have hfits := ensures_lowerGroups hgroups line last none [⟨0⟩] _ _ _ hrun d hw
      fun b hb i hi => (htyped b (Array.mem_toList_iff.mpr hb)).body i hi
    refine List.all_eq_true.mpr fun group hgroup => List.all_eq_true.mpr fun node hnode => ?_
    obtain ⟨group', hgroup', hnode'⟩ := Parse.mem_groups_of_mem hgroup hnode
    exact hfits group' hgroup' node hnode'
  · intro hfits
    obtain ⟨marked, hall, hdone, -, hlt⟩ := hgood True fun _ => hfits
    exact hdone.check_eq_ok (hall trivial) hlt

end

end LogoEngine
