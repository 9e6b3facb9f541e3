import LogoEngine.Proofs.Code.Typing
import LogoEngine.Proofs.Emit.Growth
import Mathlib.Data.List.Perm.Basic

/-!
# Sound drafts

A draft is **sound** when its code is well formed wherever it stands and well typed wherever it is
alive. Liveness is a marking of labels that exits respect: what a marked block leads to is marked.
Every label handed out is the label of exactly one block, finished, open or still **pending**.

Code that is emitted in one go lives in a **scope**: the draft it ends up in, and a marking that
gives all of its labels the same life. `Scope.Triple` says what such code does to a sound draft,
with one rule for each elementary step; `Scope.Emits` is the case of code that opens every label
it makes.
-/

namespace LogoEngine

/-! ### Well-formed code -/

/-- The registers of an instruction. -/
def Instr.regs : Instr → List Reg
  | real dst _ | truth dst _ | const dst _ | atBlock dst _ => [dst]
  | arith dst _ lhs rhs | compare dst _ lhs rhs | and dst lhs rhs => [dst, lhs, rhs]
  | neg dst src | isInt dst src | not dst src | move dst src => [dst, src]
  | call dst _ args => dst.toList ++ args

/-- An instruction whose registers and constants exist and whose call has a number of arguments
that is allowed, whatever their types. -/
structure Instr.Formed (types : Array Ty) (slots : Nat) (i : Instr) : Prop where
  regs : ∀ r ∈ i.regs, r.index < types.size
  slot : ∀ dst index, i = .const dst index → index < slots
  count : ∀ dst helper args, i = .call dst helper args →
    helper.signature.allows args.length = true

/-- An end of a block that returns a datum or branches on a register that exists. -/
def Exit.Formed (types : Array Ty) : Exit → Prop
  | ret value => Declares types value .datum
  | jump _ => True
  | branch cond _ _ => cond.index < types.size
  | unreachable => False

/-- Typed instructions are well formed. -/
theorem Instr.Typed.formed {types : Array Ty} {slots : Nat} {i : Instr} (h : i.Typed types slots) :
    i.Formed types slots := by
  cases i with
  | real dst _ | truth dst _ | atBlock dst _ =>
    refine ⟨?_, by simp, by simp⟩
    simpa [regs] using Declares.lt_size h
  | const dst slot =>
    refine ⟨by simpa [regs] using h.1.lt_size, ?_, by simp⟩
    rintro _ _ ⟨⟩
    exact h.2
  | arith dst _ lhs rhs | compare dst _ lhs rhs | and dst lhs rhs =>
    refine ⟨?_, by simp, by simp⟩
    simp [regs, h.1.lt_size, h.2.1.lt_size, h.2.2.lt_size]
  | neg dst src | isInt dst src | not dst src =>
    refine ⟨?_, by simp, by simp⟩
    simp [regs, h.1.lt_size, h.2.lt_size]
  | move dst src =>
    obtain ⟨ty, hdst, hsrc⟩ := h
    refine ⟨?_, by simp, by simp⟩
    simp [regs, hdst.lt_size, hsrc.lt_size]
  | call dst helper args =>
    obtain ⟨⟨tys, hargs, hacc⟩, hdst⟩ := h
    refine ⟨?_, by simp, ?_⟩
    · intro r hr
      rcases List.mem_append.mp hr with hr | hr
      · obtain ⟨ty, -, hty⟩ := hdst r (by simpa using hr)
        exact hty.lt_size
      · obtain ⟨ty, -, hty⟩ := exists_mem_of_forall₂ hargs hr
        exact hty.lt_size
    · rintro _ _ _ ⟨⟩
      rw [hargs.length_eq]
      exact hacc.allows

/-- An instruction that is well formed, and typed if it is alive. -/
def Instr.Good (types : Array Ty) (slots : Nat) (live : Prop) (i : Instr) : Prop :=
  i.Formed types slots ∧ (live → i.Typed types slots)

/-! ### Sound drafts -/

/-- The end of a block that is well formed with targets below a limit, and, if it is alive, typed
with targets that are alive. -/
structure Exit.Good (types : Array Ty) (limit : Nat) (marked : Label → Prop) (live : Prop)
    (exit : Exit) : Prop where
  formed : exit.Formed types
  below : ∀ t ∈ exit.targets, t.index < limit
  cond : live → ∀ r yes no, exit = .branch r yes no → Declares types r .truth
  leads : live → ∀ t ∈ exit.targets, marked t

/-- A draft whose code is good, seen from the finished draft, with some labels pending. -/
structure Draft.Sound (d final : Draft) (limit : Nat) (marked : Label → Prop)
    (pending : List Label) : Prop where
  body : ∀ b ∈ d.blocks, ∀ i ∈ b.body,
    i.Good final.types final.constants.size (marked b.label)
  exit : ∀ b ∈ d.blocks, b.exit.Good final.types limit marked (marked b.label)
  opened : ∀ i ∈ d.body, i.Good final.types final.constants.size (marked d.label)
  labels : (pending ++ d.label :: d.blocks.toList.map Block.label).Perm
    ((List.range d.nextLabel).map Label.mk)
  distinct : d.constants.toList.Nodup

namespace Draft.Sound

variable {d final : Draft} {limit : Nat} {marked : Label → Prop} {P P₁ P₂ : List Label}

/-- A new label is pending. -/
theorem pend (h : d.Sound final limit marked P) :
    (Emit.freshLabel d).2.Sound final limit marked (⟨d.nextLabel⟩ :: P) := by
  refine ⟨h.body, h.exit, h.opened, ?_, h.distinct⟩
  show (_ :: _).Perm ((List.range (d.nextLabel + 1)).map Label.mk)
  rw [List.range_succ, List.map_append]
  exact (h.labels.cons _).trans (List.perm_append_singleton _ _).symm

/-- The end of a block opens a pending label. -/
theorem close (P₁ : List Label) {next : Label} (h : d.Sound final limit marked (P₁ ++ next :: P₂))
    {exit : Exit} (hexit : exit.Good final.types limit marked (marked d.label)) :
    (Emit.endBlock exit next d).2.Sound final limit marked (P₁ ++ P₂) := by
  refine ⟨?_, ?_, ?_, ?_, h.distinct⟩
  · intro b hb
    rcases Array.mem_push.mp hb with hb | rfl
    · exact h.body b hb
    · simpa using h.opened
  · intro b hb
    rcases Array.mem_push.mp hb with hb | rfl
    · exact h.exit b hb
    · exact hexit
  · intro i hi
    exact absurd hi (Array.not_mem_empty i)
  · show (P₁ ++ P₂ ++ next :: (d.blocks.push _).toList.map Block.label).Perm _
    refine List.Perm.trans ?_ h.labels
    simp only [Array.toList_push, List.map_append, List.map_cons, List.map_nil, List.append_assoc,
      List.cons_append]
    refine List.Perm.append_left P₁ (List.Perm.trans ?_ List.perm_middle)
    exact List.Perm.append_left P₂ ((List.perm_append_singleton _ _).cons next)

end Draft.Sound

/-- Where code that is emitted in one go ends up: the finished draft, a limit for labels, and a
marking that gives all labels from `base` on the same life. The first `known` registers are there
from the start. -/
structure Scope where
  final : Draft
  limit : Nat
  known : Nat
  base : Nat
  marked : Label → Prop
  alive : Prop
  uniform : ∀ l : Label, base ≤ l.index → (marked l ↔ alive)

namespace Scope

variable (s : Scope)

/-- A register is declared with a type. -/
def Is (r : Reg) (ty : Ty) : Prop :=
  Declares s.final.types r ty

/-- A register exists, and it is declared with a type if the code is alive. -/
def Reads (r : Reg) (ty : Ty) : Prop :=
  r.index < s.final.types.size ∧ (s.alive → s.Is r ty)

/-- Registers that can be passed to a helper. -/
def Passes (helper : Helper) (args : List Reg) : Prop :=
  ∃ tys, List.Forall₂ s.Reads args tys ∧ helper.signature.Accepts tys

/-- A label that was made in the scope. -/
def Fresh (l : Label) : Prop :=
  s.base ≤ l.index ∧ l.index < s.limit

/-- A draft that comes after the start of the scope. -/
def Starts (d : Draft) : Prop :=
  s.known ≤ d.types.size ∧ s.base ≤ d.nextLabel

/-- A draft that comes before the end of the scope. -/
def Reached (d : Draft) : Prop :=
  d.Within s.final ∧ d.nextLabel ≤ s.limit

/-- A sound draft that lives as the scope does. -/
structure Ok (pending : List Label) (d : Draft) : Prop where
  sound : d.Sound s.final s.limit s.marked pending
  opened : s.marked d.label ↔ s.alive

/-- What code does in the scope: a fact about its result, and drafts stay sound, with some labels
pending before and others after. -/
def Triple {α : Type} (before : List Label) (m : Emit α) (after : List Label) (Q : α → Prop) :
    Prop :=
  ∀ d, s.Starts d → s.Reached (m d).2 → Q (m d).1 ∧ (s.Ok before d → s.Ok after (m d).2)

/-- Code that leaves the pending labels as they are. -/
def Emits {α : Type} (m : Emit α) (Q : α → Prop) : Prop :=
  ∀ pending, s.Triple pending m pending Q

/-- An instruction that is good in the scope. -/
def Admits (i : Instr) : Prop :=
  i.Good s.final.types s.final.constants.size s.alive

/-- An end of a block that is good in the scope. -/
def Ends : Exit → Prop
  | .ret value => s.Is value .datum
  | .jump target => s.Fresh target
  | .branch cond yes no => s.Reads cond .truth ∧ s.Fresh yes ∧ s.Fresh no
  | .unreachable => False

variable {s}

theorem Is.reads {r : Reg} {ty : Ty} (h : s.Is r ty) : s.Reads r ty :=
  ⟨h.lt_size, fun _ => h⟩

theorem Is.lt_size {r : Reg} {ty : Ty} (h : s.Is r ty) : r.index < s.final.types.size :=
  Declares.lt_size h

theorem admits_of_typed {i : Instr} (h : i.Typed s.final.types s.final.constants.size) :
    s.Admits i :=
  ⟨h.formed, fun _ => h⟩

theorem Fresh.marked_iff {l : Label} (h : s.Fresh l) : s.marked l ↔ s.alive :=
  s.uniform l h.1

/-- An end that is good in the scope is good for a block that lives as the scope does. -/
theorem Ends.good {exit : Exit} (h : s.Ends exit) {live : Prop} (hlive : live ↔ s.alive) :
    exit.Good s.final.types s.limit s.marked live := by
  cases exit with
  | ret value => exact ⟨h, by simp [Exit.targets], by simp, by simp [Exit.targets]⟩
  | jump target =>
    refine ⟨trivial, ?_, by simp, fun hl => ?_⟩
    · simpa [Exit.targets] using h.2
    · simpa [Exit.targets] using h.marked_iff.mpr (hlive.mp hl)
  | branch cond yes no =>
    obtain ⟨hcond, hyes, hno⟩ := h
    refine ⟨hcond.1, ?_, ?_, fun hl => ?_⟩
    · simp [Exit.targets, hyes.2, hno.2]
    · rintro hl _ _ _ ⟨⟩
      exact hcond.2 (hlive.mp hl)
    · simp [Exit.targets, hyes.marked_iff, hno.marked_iff, hlive.mp hl]
  | unreachable => cases h

/-! ### Rules -/

section

variable {α β : Type} {P P' P₁ P₂ : List Label} {Q : α → Prop} {R : β → Prop}

theorem Triple.pure {a : α} (h : Q a) : s.Triple P (pure a) P Q :=
  fun _ _ _ => ⟨h, id⟩

theorem Emits.pure {a : α} (h : Q a) : s.Emits (pure a) Q :=
  fun _ => .pure h

/-- What comes later in a scope is past its start. -/
theorem Starts.emit {d : Draft} (h : s.Starts d) (m : Emit α) [Emit.Grows m] :
    s.Starts (m d).2 := by
  refine ⟨h.1.trans ?_, h.2.trans (Emit.Grows.nextLabel_le m d)⟩
  simpa using (Emit.Grows.types_prefix m d).length_le

/-- What comes earlier in a scope is before its end. -/
theorem Reached.of_emit {d : Draft} {m : Emit α} [hm : Emit.Grows m] (h : s.Reached (m d).2) :
    s.Reached d :=
  ⟨hm.within h.1, (Emit.Grows.nextLabel_le m d).trans h.2⟩

/-- One piece of code after the other; what comes later grows the draft. -/
theorem Triple.bind {m : Emit α} [Emit.Grows m] {f : α → Emit β} (hm : s.Triple P m P₁ Q)
    (hf : ∀ a, Q a → s.Triple P₁ (f a) P' R)
    [g : Emit.GrowsAll f] :
    s.Triple P (m >>= f) P' R := by
  intro d hstart hreach
  have := g.grows (m d).1
  obtain ⟨hQ, hok⟩ := hm d hstart (Reached.of_emit (m := f (m d).1) hreach)
  obtain ⟨hR, hok'⟩ := hf _ hQ _ (hstart.emit m) hreach
  exact ⟨hR, fun h => hok' (hok h)⟩

/-- Code that leaves the pending labels alone, followed by other code. -/
theorem Emits.bind {m : Emit α} [Emit.Grows m] {f : α → Emit β} (hm : s.Emits m Q)
    (hf : ∀ a, Q a → s.Triple P (f a) P' R)
    [g : Emit.GrowsAll f] :
    s.Triple P (m >>= f) P' R :=
  (hm P).bind hf

/-- A new label is pending. -/
theorem Triple.label {f : Label → Emit β} (hf : ∀ l, s.Fresh l → s.Triple (l :: P) (f l) P' R)
    [g : Emit.GrowsAll f] :
    s.Triple P (Emit.freshLabel >>= f) P' R := by
  intro d hstart hreach
  have := g.grows ⟨d.nextLabel⟩
  have hnext : s.Reached (Emit.freshLabel d).2 := Reached.of_emit (m := f ⟨d.nextLabel⟩) hreach
  obtain ⟨hR, hok'⟩ :=
    hf ⟨d.nextLabel⟩ ⟨hstart.2, hnext.2⟩ _ (hstart.emit Emit.freshLabel) hreach
  exact ⟨hR, fun h => hok' ⟨h.sound.pend, h.opened⟩⟩

/-- The end of a block opens a pending label. -/
theorem Triple.endBlock (P₁ : List Label) {exit : Exit} {next : Label} (hexit : s.Ends exit)
    (hnext : s.Fresh next) :
    s.Triple (P₁ ++ next :: P₂) (Emit.endBlock exit next) (P₁ ++ P₂) fun _ => True := by
  intro d _ _
  exact ⟨trivial, fun hok => ⟨hok.sound.close P₁ (hexit.good hok.opened), hnext.marked_iff⟩⟩

/-- The end of a block, followed by the code of the next. -/
theorem Triple.close (P₁ : List Label) {exit : Exit} {next : Label} {f : Unit → Emit β}
    (hexit : s.Ends exit) (hnext : s.Fresh next) (hf : s.Triple (P₁ ++ P₂) (f ()) P' R)
    [g : Emit.Grows (f ())] :
    s.Triple (P₁ ++ next :: P₂) (Emit.endBlock exit next >>= f) P' R :=
  have : ∀ u, Emit.Grows (f u) := fun _ => g
  (Triple.endBlock P₁ hexit hnext).bind fun _ _ => hf

end

/-! ### Instructions -/

section

variable {dst src lhs rhs : Reg}

theorem emits_freshReg (ty : Ty) : s.Emits (Emit.freshReg ty) (s.Is · ty) := by
  intro P d _ hreach
  refine ⟨?_, fun h => ⟨⟨h.sound.body, h.sound.exit, h.sound.opened, h.sound.labels,
    h.sound.distinct⟩, h.opened⟩⟩
  obtain ⟨rest, hrest⟩ := hreach.1.types
  show s.final.types[d.types.size]? = some ty
  rw [← Array.getElem?_toList, ← hrest]
  simp [Emit.freshReg]

/-- The type of a register that was there from the start. -/
theorem emits_typeOf {r : Reg} (hr : r.index < s.known) : s.Emits (Emit.typeOf r) (s.Is r) := by
  intro P d hstart hreach
  refine ⟨?_, id⟩
  have hlt : r.index < d.types.size := Nat.lt_of_lt_of_le hr hstart.1
  obtain ⟨rest, hrest⟩ : d.types.toList <+: s.final.types.toList := hreach.1.types
  show s.final.types[r.index]? = some (d.types.getD r.index .datum)
  rw [← Array.getElem?_toList, ← hrest, List.getElem?_append_left (by simpa using hlt)]
  simp [hlt]

theorem emits_instr {i : Instr} (h : s.Admits i) : s.Emits (Emit.instr i) fun _ => True := by
  intro P d _ _
  refine ⟨trivial, fun hok => ⟨⟨hok.sound.body, hok.sound.exit, ?_, hok.sound.labels,
    hok.sound.distinct⟩, hok.opened⟩⟩
  intro j hj
  rcases Array.mem_push.mp hj with hj | rfl
  · exact hok.sound.opened j hj
  · exact ⟨h.1, fun hlive => h.2 (hok.opened.mp hlive)⟩

theorem emits_slot (r : Ref) : s.Emits (Emit.slot r) (· < s.final.constants.size) := by
  intro P d _ hreach
  have hsize : (Emit.slot r d).2.constants.size ≤ s.final.constants.size := by
    simpa using hreach.1.constants.length_le
  unfold Emit.slot at hsize ⊢
  split at hsize
  · next index hindex =>
    refine ⟨Nat.lt_of_lt_of_le ?_ hsize, id⟩
    exact (Array.findIdx?_eq_some_iff_getElem.mp hindex).1
  · next hnone =>
    rw [Array.size_push] at hsize
    refine ⟨hsize, fun h => ⟨⟨h.sound.body, h.sound.exit, h.sound.opened, h.sound.labels, ?_⟩,
      h.opened⟩⟩
    have hnew : r ∉ d.constants.toList := by
      intro hr
      have := Array.findIdx?_eq_none_iff.mp hnone r (by simpa using hr)
      simp at this
    simp only [Array.toList_push]
    exact List.nodup_append.mpr ⟨h.sound.distinct, by simp, by
      rintro a ha b hb rfl
      exact hnew (List.mem_singleton.mp hb ▸ ha)⟩

/-- Code that computes into a new register. -/
private theorem emits_into {ty : Ty} {i : Reg → Instr} (h : ∀ dst, s.Is dst ty → s.Admits (i dst)) :
    s.Emits (do let dst ← Emit.freshReg ty; Emit.instr (i dst); return dst) (s.Is · ty) :=
  fun _ => (emits_freshReg ty).bind fun dst hdst => (emits_instr (h dst hdst)).bind fun _ _ =>
    .pure hdst

theorem emits_real (x : Float) : s.Emits (Emit.real x) (s.Is · .real) :=
  emits_into fun _ hdst => admits_of_typed hdst

theorem emits_truth (b : Bool) : s.Emits (Emit.truth b) (s.Is · .truth) :=
  emits_into fun _ hdst => admits_of_typed hdst

theorem emits_const (r : Ref) : s.Emits (Emit.const r) (s.Is · .datum) :=
  fun _ => (emits_slot r).bind fun index hslot =>
    emits_into (i := fun dst => .const dst index)
      (fun _ hdst => admits_of_typed (And.intro hdst hslot)) _

theorem emits_nothing : s.Emits Emit.nothing (s.Is · .datum) :=
  emits_const Ref.nothing

theorem emits_move {ty : Ty} (hdst : s.Is dst ty) (hsrc : s.Reads src ty) :
    s.Emits (Emit.move dst src) fun _ => True :=
  emits_instr ⟨⟨by simp [Instr.regs, hdst.lt_size, hsrc.1], by simp, by simp⟩,
    fun h => ⟨ty, hdst, hsrc.2 h⟩⟩

theorem emits_arith (op : ArithOp) (hl : s.Reads lhs .real) (hr : s.Reads rhs .real) :
    s.Emits (Emit.arith op lhs rhs) (s.Is · .real) :=
  emits_into fun _ hdst => ⟨⟨by simp [Instr.regs, hdst.lt_size, hl.1, hr.1], by simp, by simp⟩,
    fun h => ⟨hdst, hl.2 h, hr.2 h⟩⟩

theorem emits_compare (op : CompareOp) (hl : s.Reads lhs .real) (hr : s.Reads rhs .real) :
    s.Emits (Emit.compare op lhs rhs) (s.Is · .truth) :=
  emits_into fun _ hdst => ⟨⟨by simp [Instr.regs, hdst.lt_size, hl.1, hr.1], by simp, by simp⟩,
    fun h => ⟨hdst, hl.2 h, hr.2 h⟩⟩

theorem emits_and (hl : s.Reads lhs .truth) (hr : s.Reads rhs .truth) :
    s.Emits (Emit.and lhs rhs) (s.Is · .truth) :=
  emits_into fun _ hdst => ⟨⟨by simp [Instr.regs, hdst.lt_size, hl.1, hr.1], by simp, by simp⟩,
    fun h => ⟨hdst, hl.2 h, hr.2 h⟩⟩

theorem emits_isInt (hsrc : s.Reads src .real) : s.Emits (Emit.isInt src) (s.Is · .truth) :=
  emits_into fun _ hdst => ⟨⟨by simp [Instr.regs, hdst.lt_size, hsrc.1], by simp, by simp⟩,
    fun h => ⟨hdst, hsrc.2 h⟩⟩

theorem emits_not (hsrc : s.Reads src .truth) : s.Emits (Emit.not src) (s.Is · .truth) :=
  emits_into fun _ hdst => ⟨⟨by simp [Instr.regs, hdst.lt_size, hsrc.1], by simp, by simp⟩,
    fun h => ⟨hdst, hsrc.2 h⟩⟩

theorem emits_negate (hsrc : s.Reads src .real) : s.Emits (Emit.negate src) (s.Is · .real) :=
  emits_into fun _ hdst => ⟨⟨by simp [Instr.regs, hdst.lt_size, hsrc.1], by simp, by simp⟩,
    fun h => ⟨hdst, hsrc.2 h⟩⟩

/-- A call whose arguments can be passed is good. -/
theorem admits_call {dst : Option Reg} {helper : Helper} {args : List Reg}
    (hargs : s.Passes helper args)
    (hdst : ∀ d, dst = some d → ∃ ty, helper.signature.ret = some ty ∧ s.Is d ty) :
    s.Admits (.call dst helper args) := by
  obtain ⟨tys, hreads, hacc⟩ := hargs
  refine ⟨⟨?_, by simp, ?_⟩, fun hlive => ⟨⟨tys, hreads.imp fun _ _ h => h.2 hlive, hacc⟩, hdst⟩⟩
  · intro r hr
    rcases List.mem_append.mp hr with hr | hr
    · obtain ⟨ty, -, hty⟩ := hdst r (by simpa using hr)
      exact hty.lt_size
    · obtain ⟨ty, -, hty⟩ := exists_mem_of_forall₂ hreads hr
      exact hty.1
  · rintro _ _ _ ⟨⟩
    rw [hreads.length_eq]
    exact hacc.allows

theorem emits_call (helper : Helper) {args : List Reg} {ty : Ty} (hargs : s.Passes helper args)
    (hret : helper.signature.ret = some ty) : s.Emits (Emit.call helper args) (s.Is · ty) := by
  have hty : helper.signature.ret.getD .datum = ty := by rw [hret, Option.getD_some]
  unfold Emit.call
  rw [hty]
  refine emits_into fun dst hdst => admits_call hargs ?_
  rintro _ ⟨⟩
  exact ⟨ty, hret, hdst⟩

theorem emits_perform (helper : Helper) {args : List Reg} (hargs : s.Passes helper args) :
    s.Emits (Emit.perform helper args) fun _ => True :=
  emits_instr (admits_call hargs (by simp))

end

end Scope

end LogoEngine
