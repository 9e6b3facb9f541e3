import LogoEngine.Eval.Machine
import LogoEngine.Proofs.Arithmetic.Whole

/-!
# What operations are for

The division of a quotient, the mathematical routines and the generator of random numbers are not
for every operand: a divisor is not zero, a logarithm is of a positive number, the integer routines
are for 32-bit integers. `Instr.Admits` says so for each instruction. `Helper.Defined` says what the
integers that a helper works with must be, so that nothing is divided by zero and no number is drawn
from an empty range.

Main statement: `Helper.Admits.defined`.
-/

namespace LogoEngine

open Integer32 (Is)

/-- A number that may be a divisor: it is a number, and it is not zero. -/
def IsDivisor (x : Float) : Prop :=
  x.isNaN = false ∧ (x == 0.0) = false

/-- A number of repetitions: an integer from zero up to the largest one of 32 bits. -/
def IsCount (x : Float) : Prop :=
  ∃ n : Int32, 0 ≤ n ∧ Is n x

/-- The operands that a routine is for; one of a single operand ignores `b`. -/
def MathFn.Admits (f : MathFn) (a b : Float) : Prop :=
  match f with
  | sqrt => a ≥ 0.0
  | log10 | ln => a > 0.0
  | pow => a < 0.0 → ∃ n, Is n b
  | remainder | modulo => (∃ m, Is m a) ∧ ∃ n, n ≠ 0 ∧ Is n b
  | bitAnd | bitOr | bitXor | ashift | lshift => (∃ m, Is m a) ∧ ∃ n, Is n b
  | bitNot => ∃ m, Is m a
  | exp | trunc | round | sin | cos | atan | atan2 => True

/-- The arguments that a helper is for. -/
def Helper.Admits (helper : Helper) (args : List Value) : Prop :=
  match helper with
  | .math f => f.Admits (realArg args 0) (realArg args 1)
  | .random => ∃ n : Int32, 1 ≤ n ∧ Is n (realArg args 0)
  | .randomRange => ∃ m n : Int32, m ≤ n ∧ Is m (realArg args 0) ∧ Is n (realArg args 1)
  | _ => True

/-- The registers that an instruction is for. Only the loop of `REPEAT` tests numbers for equality:
the number of the pass and the number of repetitions. -/
def Instr.Admits (regs : Array Value) : Instr → Prop
  | .arith _ .div _ b => IsDivisor (readReg regs b).asReal
  | .compare _ .eq _ b => IsCount (readReg regs b).asReal
  | .call _ helper args => helper.Admits (args.map (readReg regs))
  | _ => True

/-- What the integers that a helper works with must be: no divisor is zero, and no range that a
number is drawn from is empty. -/
def Helper.Defined (helper : Helper) (args : List Value) : Prop :=
  match helper with
  | .math .remainder | .math .modulo => Integer32.ofFloat (realArg args 1) ≠ 0
  | .random => 1 ≤ Integer64.ofFloat (realArg args 0)
  | .randomRange => Integer64.ofFloat (realArg args 0) ≤ Integer64.ofFloat (realArg args 1)
  | _ => True

/-- **Nothing is divided by zero, and no range is empty**, where helpers are called with the
arguments that they are for. -/
theorem Helper.Admits.defined {helper : Helper} {args : List Value} (h : helper.Admits args) :
    helper.Defined args := by
  have hdivisor : ∀ {x : Float}, (∃ n : Int32, n ≠ 0 ∧ Is n x) → Integer32.ofFloat x ≠ 0 := by
    rintro x ⟨n, hne, hn⟩
    rwa [hn.ofFloat_eq]
  cases helper with
  | math f =>
    cases f with
    | remainder | modulo => exact hdivisor h.2
    | _ => trivial
  | random =>
    obtain ⟨n, hle, hn⟩ := h
    show 1 ≤ Integer64.ofFloat _
    rw [Integer64.ofFloat_eq hn, Int64.le_iff_toInt_le, Int32.toInt_toInt64]
    exact Int32.le_iff_toInt_le.mp hle
  | randomRange =>
    obtain ⟨m, n, hle, hm, hn⟩ := h
    show Integer64.ofFloat _ ≤ Integer64.ofFloat _
    rw [Integer64.ofFloat_eq hm, Integer64.ofFloat_eq hn, Int64.le_iff_toInt_le,
      Int32.toInt_toInt64, Int32.toInt_toInt64]
    exact Int32.le_iff_toInt_le.mp hle
  | _ => trivial

/-! ### Routines for integers -/

/-- Routines that are for two 32-bit integers, whatever these are, and give another one. -/
def MathFn.isBitwise : MathFn → Bool
  | bitAnd | bitOr | bitXor | ashift | lshift => true
  | _ => false

namespace MathFn

variable {f : MathFn} {a b : Float}

theorem admits_of_isBitwise (hf : f.isBitwise = true) (ha : isInt32 a = true)
    (hb : isInt32 b = true) : f.Admits a b := by
  cases f with
  | bitAnd | bitOr | bitXor | ashift | lshift => exact ⟨isInt32_iff.mp ha, isInt32_iff.mp hb⟩
  | _ => cases hf

theorem isInt32_apply (hf : f.isBitwise = true) : isInt32 (f.apply a b) = true := by
  cases f with
  | bitAnd | bitOr | bitXor | ashift | lshift =>
    exact isInt32_iff.mpr ⟨_, Integer32.is_toFloat _⟩
  | _ => cases hf

end MathFn

/-! ### Range checks -/

section

variable {x y : Float}

theorem exists_is_of_positive (hpositive : CompareOp.gt.eval x 0.0 = true) (hx : isInt32 x = true) :
    ∃ n : Int32, 1 ≤ n ∧ Is n x := by
  obtain ⟨n, hn⟩ := isInt32_iff.mp hx
  have hgt : 0.0 < x := by simpa [CompareOp.eval] using hpositive
  have hlt : (0 : Int32) < n := (Integer32.is_zero.lt_iff hn).mp hgt
  refine ⟨n, ?_, hn⟩
  rw [Int32.lt_iff_toInt_lt] at hlt
  rw [Int32.le_iff_toInt_le]
  exact hlt

theorem exists_is_of_nonzero (hne : CompareOp.ne.eval x 0.0 = true) (hx : isInt32 x = true) :
    ∃ n : Int32, n ≠ 0 ∧ Is n x := by
  obtain ⟨n, hn⟩ := isInt32_iff.mp hx
  refine ⟨n, ?_, hn⟩
  rintro rfl
  have hordered : x < 0.0 ∨ 0.0 < x := by simpa [CompareOp.eval] using hne
  rw [hn.lt_iff Integer32.is_zero, Integer32.is_zero.lt_iff hn] at hordered
  exact hordered.elim (Int32.lt_irrefl ·) (Int32.lt_irrefl ·)

theorem isCount_of_nonnegative (hx : isInt32 x = true) (hle : CompareOp.ge.eval x 0.0 = true) :
    IsCount x := by
  obtain ⟨n, hn⟩ := isInt32_iff.mp hx
  exact ⟨n, (Integer32.is_zero.le_iff hn).mp (by simpa [CompareOp.eval] using hle), hn⟩

theorem exists_range (hx : isInt32 x = true) (hy : isInt32 y = true)
    (hforward : CompareOp.gt.eval x y = false) :
    ∃ m n : Int32, m ≤ n ∧ Is m x ∧ Is n y := by
  obtain ⟨m, hm⟩ := isInt32_iff.mp hx
  obtain ⟨n, hn⟩ := isInt32_iff.mp hy
  have hnot : ¬y < x := by simpa [CompareOp.eval] using hforward
  rw [hn.lt_iff hm] at hnot
  exact ⟨m, n, Int32.not_lt.mp hnot, hm, hn⟩

end

end LogoEngine
