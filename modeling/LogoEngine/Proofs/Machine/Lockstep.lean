import LogoEngine.Proofs.Emit.Relocation
import LogoEngine.Proofs.Eval.Pins
import LogoEngine.Proofs.Machine.Stages

/-!
# Moved code runs alike

The code of a routine of its own and the same code moved into a longer routine, run side by side:
**twins**. The longer routine holds other registers as well, which the moved code neither reads nor
writes, and what they hold on to is pinned while the code runs on its own. So the two runs go in
lockstep until the code is done or returns.

Main statements: `Twins.Beside.leads_host` and `Twins.Beside.returns_own`.
-/

namespace LogoEngine

/-! ### Sections of drafts -/

/-- The blocks of a draft, with the open one among them, which has no end yet. -/
inductive Draft.Section (d : Draft) : Label → List Instr → Option Exit → Prop
  | closed {b : Block} (h : b ∈ d.blocks) : Section d b.label b.body (some b.exit)
  | opened : Section d d.label d.body.toList none

namespace Stage

variable (s : Stage)

/-- The instructions of the block with a label. -/
def bodyAt (l : Label) : List Instr :=
  ((s.code.blocks[s.place l]?).map LinkedBlock.body).getD []

/-- A run that stands before an instruction of a block. -/
def inside (l : Label) (i : Nat) (w : World) (regs : Array Value) : Machine.Outcome :=
  .running ⟨w, regs, s.place l, (s.bodyAt l).drop i⟩

variable {s} {d : Draft} {l : Label} {body : List Instr} {exit : Option Exit}

/-- A section of a draft stands in the code. -/
theorem exists_section (hw : d.Within s.final) (h : d.Section l body exit) :
    ∃ b, s.code.blocks[s.place l]? = some b ∧ body <+: b.body ∧
      ∀ x, exit = some x → b.body = body ∧ b.exit = x.placed s.place := by
  cases h with
  | closed hb =>
    obtain ⟨b', hb', hbody, hexit⟩ := s.blocks _ (hw.blocks _ hb)
    refine ⟨b', hb', hbody ▸ List.prefix_rfl, fun x hx => ?_⟩
    cases hx
    exact ⟨hbody, hexit⟩
  | opened =>
    obtain ⟨b', hb', hbegins⟩ := exists_block hw
    exact ⟨b', hb', hbegins, by simp⟩

/-- The end of a block, by its labels. -/
theorem leave_eq_exitTo {b : LinkedBlock} (hb : s.code.blocks[s.place l]? = some b) {x : Exit}
    (hexit : b.exit = x.placed s.place) (w : World) (regs : Array Value) :
    Machine.leave s.code ⟨w, regs, s.place l, []⟩ = s.exitTo x w regs := by
  simp only [Machine.leave, hb, hexit]
  cases x with
  | branch cond yes no =>
    simp only [Exit.placed, exitTo, at_]
    split <;> rfl
  | _ => rfl

end Stage

/-- Every section of a draft has its counterpart in moved code. -/
theorem Draft.MovedTo.exists_section {base d d' : Draft} (h : base.MovedTo d d') {l : Label}
    {body : List Instr} {exit : Option Exit} (hs : d.Section l body exit) :
    ∃ l' tail exit', d'.Section l' (base.before l ++ tail) exit' ∧ l.PlacedAt base l' ∧
      List.Forall₂ (Instr.MovedTo base d.constants d'.constants) body tail ∧
      Option.Rel (Exit.MovedTo base) exit exit' := by
  cases hs with
  | @closed b hb =>
    obtain ⟨tail, htail, hblocks⟩ := h.blocks
    obtain ⟨b', hb', ⟨hlabel, tail', hbody, hinstrs⟩, hexit⟩ :=
      exists_mem_of_forall₂ hblocks (Array.mem_toList_iff.mpr hb)
    have hmem : b' ∈ d'.blocks := by
      rw [← Array.mem_toList_iff, htail]
      exact List.mem_append_right _ hb'
    exact ⟨b'.label, tail', some b'.exit, hbody ▸ .closed hmem, hlabel, hinstrs, .some hexit⟩
  | opened =>
    obtain ⟨tail, htail, hinstrs⟩ := h.opened.instrs
    exact ⟨d'.label, tail, none, htail ▸ .opened, h.opened.label, hinstrs, .none⟩

/-! ### Twins -/

/-- Code run in a routine of its own, and moved behind a base in the routine of a host. -/
structure Twins where
  own : Stage
  host : Stage
  base : Draft
  /-- The draft of the own routine when the code is done. -/
  code : Draft
  /-- The draft of the host when the code is done. -/
  copy : Draft
  /-- What the registers of the host held when its run came to the code. -/
  found : Array Value
  moved : base.MovedTo code copy
  within : code.Within own.final
  within' : copy.Within host.final
  reenter : own.re = host.re
  steady : host.re.Steady
  targets : ∀ l body exit, code.Section l body (some exit) → ∀ t ∈ exit.targets,
    ∃ body' exit', code.Section t body' exit'
  regs : ∀ l body exit, code.Section l body exit → ∀ i ∈ body, ∀ r ∈ i.regs,
    r.index < code.types.size
  exitRegs : ∀ l body exit, code.Section l body (some exit) → ∀ r ∈ exit.regs,
    r.index < code.types.size
  size : found.size = host.final.types.size
  fresh : ∀ r : Reg, base.types.size ≤ r.index → (readReg found r).asDatum = Ref.nothing
  pins : Pins.Alike own.pins (.constants own.code.constants :: .registers found :: host.pins)
  constants : ∀ c ∈ own.code.constants, c ∈ Pins.held host.pins

namespace Twins

variable (t : Twins)

/-- Registers that hold the same, as far as the code is concerned; what the host held before is
still there, and what the own routine has beyond the code holds nothing. -/
structure Mirror (regs regs' : Array Value) : Prop where
  size : regs.size = t.own.final.types.size
  size' : regs'.size = t.host.final.types.size
  same : ∀ r r' : Reg, Moved t.base r r' → r.index < t.code.types.size →
    readReg regs' r' = readReg regs r
  kept : ∀ r : Reg, r.index < t.base.types.size ∨ t.base.types.size + t.code.types.size ≤ r.index →
    readReg regs' r = readReg t.found r
  unused : ∀ r : Reg, t.code.types.size ≤ r.index → (readReg regs r).asDatum = Ref.nothing

/-! ### Registers -/

theorem mem_references_registers {regs : Array Value} {c : Ref} :
    c ∈ (Pin.registers regs).references ↔
      ∃ r : Reg, r.index < regs.size ∧ (readReg regs r).asDatum = c := by
  simp only [Pin.references, List.mem_map, Array.mem_toList_iff, Array.mem_iff_getElem]
  constructor
  · rintro ⟨v, ⟨i, hi, rfl⟩, rfl⟩
    exact ⟨⟨i⟩, hi, by simp [readReg, Array.getD, hi]⟩
  · rintro ⟨⟨i⟩, hi, rfl⟩
    exact ⟨regs[i], ⟨i, hi, rfl⟩, by simp [readReg, Array.getD, hi]⟩

variable {t} {regs regs' : Array Value}

theorem types_le : t.code.types.size ≤ t.own.final.types.size := by
  simpa using t.within.types.length_le

theorem types_le' : t.base.types.size + t.code.types.size ≤ t.host.final.types.size := by
  have hle := t.within'.types.length_le
  rw [← t.moved.types_size]
  simpa using hle

/-- Both runs hold on to the same objects. -/
theorem Mirror.alike (h : t.Mirror regs regs') :
    Pins.Alike (.registers regs :: t.own.pins) (.registers regs' :: t.host.pins) := by
  have hnothing : Ref.nothing ∈ Pins.held t.host.pins := List.mem_cons_self
  refine (t.pins.cons (.registers regs)).trans fun c => ?_
  simp only [Pins.mem_held_cons, mem_references_registers]
  -- registers of the code have twins, the others hold what the host held or nothing
  constructor
  · rintro (⟨r, hr, rfl⟩ | hc | ⟨r, hr, rfl⟩ | hc)
    · by_cases hcode : r.index < t.code.types.size
      · refine .inl ⟨⟨t.base.types.size + r.index⟩, ?_, ?_⟩
        · have := t.types_le'
          have := h.size'
          simp only
          omega
        · rw [h.same r _ ⟨rfl⟩ hcode]
      · rw [h.unused r (by omega)]
        exact .inr hnothing
    · exact .inr (t.constants c (by simpa [Pin.references] using hc))
    · by_cases hbase : r.index < t.base.types.size
      · exact .inl ⟨r, by rw [h.size', ← t.size]; exact hr, by rw [h.kept r (.inl hbase)]⟩
      · rw [t.fresh r (by omega)]
        exact .inr hnothing
    · exact .inr hc
  · rintro (⟨r, hr, rfl⟩ | hc)
    · by_cases hkept : r.index < t.base.types.size ∨
          t.base.types.size + t.code.types.size ≤ r.index
      · exact .inr (.inr (.inl ⟨r, by rw [t.size, ← h.size']; exact hr, by rw [h.kept r hkept]⟩))
      · obtain ⟨i, hi⟩ : ∃ i, r.index = t.base.types.size + i :=
          ⟨r.index - t.base.types.size, by omega⟩
        have hsame := h.same ⟨i⟩ r ⟨hi⟩ (by simp only; omega)
        refine .inl ⟨⟨i⟩, ?_, by rw [hsame]⟩
        have := t.types_le
        have := h.size
        simp only
        omega
    · exact .inr (.inr (.inr hc))

/-- Both runs write the same register of the code. -/
theorem Mirror.write (h : t.Mirror regs regs') {dst dst' : Reg} (hdst : Moved t.base dst dst')
    (hlt : dst.index < t.code.types.size) (v : Value) :
    t.Mirror (writeReg regs dst v) (writeReg regs' dst' v) := by
  have hindex : dst'.index = t.base.types.size + dst.index := hdst.moved
  have hsize := h.size
  have hsize' := h.size'
  have hle := t.types_le
  have hle' := t.types_le'
  refine ⟨by simp [writeReg, hsize], by simp [writeReg, hsize'], ?_, ?_, ?_⟩
  · intro r r' hr hcode
    have hr' : r'.index = t.base.types.size + r.index := hr.moved
    by_cases heq : r.index = dst.index
    · obtain rfl : r = dst := by cases r; cases dst; simp_all
      obtain rfl : r' = dst' := by cases r'; cases dst'; simp_all
      rw [readReg_writeReg_self (by omega), readReg_writeReg_self (by omega)]
    · rw [readReg_writeReg_of_ne heq, readReg_writeReg_of_ne (by omega)]
      exact h.same r r' hr hcode
  · intro r hkept
    rw [readReg_writeReg_of_ne (by omega)]
    exact h.kept r hkept
  · intro r hunused
    rw [readReg_writeReg_of_ne (by omega)]
    exact h.unused r hunused

theorem Mirror.args (h : t.Mirror regs regs') {args args' : List Reg}
    (hargs : List.Forall₂ (Moved t.base) args args')
    (hlt : ∀ r ∈ args, r.index < t.code.types.size) :
    args'.map (readReg regs') = args.map (readReg regs) := by
  induction hargs with
  | nil => rfl
  | cons hr _ ih =>
    rw [List.forall_mem_cons] at hlt
    rw [List.map_cons, List.map_cons, h.same _ _ hr hlt.1, ih hlt.2]

/-! ### One step -/

/-- Both fail the same way, or both succeed with results that are related. -/
inductive Agree {α β : Type} (R : α → β → Prop) : Except Halt α → Except Halt β → Prop
  | error (halt : Halt) : Agree R (.error halt) (.error halt)
  | ok {a : α} {b : β} (h : R a b) : Agree R (.ok a) (.ok b)

/-- The constant of a slot stands in linked code. -/
private theorem constants_getD {s : Stage} {d : Draft} (hw : d.Within s.final) {slot : Nat}
    {c : Ref} (hslot : d.constants[slot]? = some c) :
    s.code.constants.getD slot Ref.nothing = c := by
  obtain ⟨rest, hrest⟩ := hw.constants
  have hlt := (Array.getElem?_eq_some_iff.mp hslot).1
  rw [s.constants, Array.getD_eq_getD_getElem?, ← Array.getElem?_toList, ← hrest,
    List.getElem?_append_left (by simpa using hlt), Array.getElem?_toList, hslot]
  rfl

/-- What both runs hold after an instruction. -/
def Outcomes (t : Twins) (p p' : Array Value × World) : Prop :=
  t.Mirror p.1 p'.1 ∧ p.2 = p'.2

/-- An instruction that is no call does the same in both runs. -/
theorem agree_value {i i' : Instr} {dst dst' : Reg} {v : Value} (w : World)
    (h : t.Mirror regs regs') (hcall : ∀ d helper args, i ≠ .call d helper args)
    (hcall' : ∀ d helper args, i' ≠ .call d helper args)
    (hi : instrValue t.own.code t.own.block regs i = some (dst, v))
    (hi' : instrValue t.host.code t.host.block regs' i' = some (dst', v))
    (hdst : Moved t.base dst dst') (hlt : dst.index < t.code.types.size) :
    Agree t.Outcomes (runInstr t.own.re t.own.pins t.own.code t.own.block regs i w)
      (runInstr t.host.re t.host.pins t.host.code t.host.block regs' i' w) := by
  have hrun : runInstr t.own.re t.own.pins t.own.code t.own.block regs i w =
      .ok (writeReg regs dst v, w) := by
    unfold runInstr
    split
    · exact absurd rfl (hcall _ _ _)
    · rw [hi]
      rfl
  have hrun' : runInstr t.host.re t.host.pins t.host.code t.host.block regs' i' w =
      .ok (writeReg regs' dst' v, w) := by
    unfold runInstr
    split
    · exact absurd rfl (hcall' _ _ _)
    · rw [hi']
      rfl
  rw [hrun, hrun']
  exact .ok ⟨h.write hdst hlt v, rfl⟩

/-- A call does the same in both runs. -/
theorem agree_call {dst dst' : Option Reg} {args args' : List Reg} (helper : Helper) (w : World)
    (h : t.Mirror regs regs') (hdst : Option.Rel (Moved t.base) dst dst')
    (hargs : List.Forall₂ (Moved t.base) args args')
    (hlt : ∀ r ∈ (Instr.call dst helper args).regs, r.index < t.code.types.size) :
    Agree t.Outcomes
      (runInstr t.own.re t.own.pins t.own.code t.own.block regs (.call dst helper args) w)
      (runInstr t.host.re t.host.pins t.host.code t.host.block regs' (.call dst' helper args')
        w) := by
  have hargs' := h.args hargs fun r hr => hlt r (List.mem_append_right _ hr)
  simp only [runInstr, hargs', t.reenter, callHelper_congr t.steady h.alike, bind, StateT.bind,
    Except.bind]
  cases callHelper t.host.re (.registers regs' :: t.host.pins) helper (args.map (readReg regs)) w with
  | error halt => exact .error halt
  | ok out =>
    cases hdst with
    | none => exact .ok ⟨h, rfl⟩
    | some hreg => exact .ok ⟨h.write hreg (hlt _ (List.mem_append_left _ (by simp))) out.1, rfl⟩

/-- **An instruction does the same in both runs.** -/
theorem agree_instr {i i' : Instr} (w : World) (h : t.Mirror regs regs')
    (hi : i.MovedTo t.base t.code.constants t.copy.constants i')
    (hlt : ∀ r ∈ i.regs, r.index < t.code.types.size) :
    Agree t.Outcomes (runInstr t.own.re t.own.pins t.own.code t.own.block regs i w)
      (runInstr t.host.re t.host.pins t.host.code t.host.block regs' i' w) := by
  have hsame : ∀ {r r' : Reg}, Moved t.base r r' → r.index < t.code.types.size →
      readReg regs' r' = readReg regs r := fun hr hlt => h.same _ _ hr hlt
  cases hi with
  | call helper hdst hargs => exact agree_call helper w h hdst.moved hargs.moved hlt
  | const hdst hslot hslot' =>
    refine agree_value w h (by simp) (by simp) rfl ?_ hdst (hlt _ (by simp [Instr.regs]))
    rw [instrValue, constants_getD t.within' hslot', constants_getD t.within hslot]
  | real x hdst | truth b hdst =>
    exact agree_value w h (by simp) (by simp) rfl rfl hdst (hlt _ (by simp [Instr.regs]))
  | neg hdst ha | isInt hdst ha | not hdst ha | move hdst ha =>
    refine agree_value w h (by simp) (by simp) rfl ?_ hdst (hlt _ (by simp [Instr.regs]))
    rw [instrValue, hsame ha (hlt _ (by simp [Instr.regs]))]
  | arith op hdst ha hb | compare op hdst ha hb | and hdst ha hb =>
    refine agree_value w h (by simp) (by simp) rfl ?_ hdst (hlt _ (by simp [Instr.regs]))
    rw [instrValue, hsame ha (hlt _ (by simp [Instr.regs])),
      hsame hb (hlt _ (by simp [Instr.regs]))]

/-- Runs side by side: they have returned the same, or they stand at the same point of the code. -/
inductive Beside (t : Twins) : Machine.Outcome → Machine.Outcome → Prop
  | returned (r : Ref) (w : World) : Beside t (.returned r w) (.returned r w)
  | inside {l l' : Label} {body tail : List Instr} {exit exit' : Option Exit} {i : Nat} (w : World)
      {regs regs' : Array Value} (hsection : t.code.Section l body exit)
      (hsection' : t.copy.Section l' (t.base.before l ++ tail) exit')
      (hbody : List.Forall₂ (Instr.MovedTo t.base t.code.constants t.copy.constants) body tail)
      (hexit : Option.Rel (Exit.MovedTo t.base) exit exit') (hi : i ≤ body.length)
      (hregs : t.Mirror regs regs') :
      Beside t (t.own.inside l i w regs)
        (t.host.inside l' ((t.base.before l).length + i) w regs')

/-- Both runs have come to the end of the code. -/
def Done (t : Twins) (o o' : Machine.Outcome) : Prop :=
  ∃ w regs regs', o = t.own.here t.code w regs ∧ o' = t.host.here t.copy w regs' ∧
    t.Mirror regs regs'

/-- Entering a block that the code leads to. -/
theorem beside_at {l l' : Label} (hl : Moved t.base l l') {body : List Instr}
    {exit : Option Exit} (hsection : t.code.Section l body exit) (w : World)
    (h : t.Mirror regs regs') : t.Beside (t.own.at_ l w regs) (t.host.at_ l' w regs') := by
  obtain ⟨hpositive, hindex⟩ := hl.moved
  obtain ⟨l₁, tail, exit', hsection', hplaced, hbody, hexit⟩ := t.moved.exists_section hsection
  have hbefore : t.base.before l = [] := by
    rw [Draft.before, if_neg (by omega)]
  obtain rfl : l₁ = l' := by
    rcases hplaced with ⟨hzero, -⟩ | hmoved
    · omega
    · obtain ⟨-, hindex'⟩ := hmoved.moved
      cases l₁
      cases l'
      simp only [Label.mk.injEq]
      simp only at hindex hindex'
      omega
  have hbeside := Beside.inside (i := 0) w hsection hsection' hbody hexit (Nat.zero_le _) h
  rw [hbefore] at hbeside
  exact hbeside

/-- The end of a block does the same in both runs. -/
theorem beside_exitTo {l : Label} {body : List Instr} {exit exit' : Exit}
    (hsection : t.code.Section l body (some exit)) (hexit : exit.MovedTo t.base exit') (w : World)
    (h : t.Mirror regs regs') :
    t.Beside (t.own.exitTo exit w regs) (t.host.exitTo exit' w regs') := by
  have htargets := t.targets l body exit hsection
  have hregs := t.exitRegs l body exit hsection
  cases hexit with
  | ret hr =>
    rw [Stage.exitTo, Stage.exitTo, h.same _ _ hr (hregs _ (by simp [Exit.regs]))]
    exact .returned _ w
  | jump hl =>
    obtain ⟨body', exit', hnext⟩ := htargets _ (List.mem_singleton.mpr rfl)
    exact beside_at hl hnext w h
  | branch hr hyes hno =>
    obtain ⟨bodyYes, exitYes, hnextYes⟩ := htargets _ (List.mem_cons_self ..)
    obtain ⟨bodyNo, exitNo, hnextNo⟩ := htargets _ (List.mem_cons_of_mem _ List.mem_cons_self)
    rw [Stage.exitTo, Stage.exitTo, h.same _ _ hr (hregs _ (by simp [Exit.regs]))]
    split
    · exact beside_at hyes hnextYes w h
    · exact beside_at hno hnextNo w h

theorem drop_of_prefix {α : Type} {xs ys : List α} {x : α} (h : xs <+: ys) {i : Nat}
    (hx : xs[i]? = some x) : ys.drop i = x :: ys.drop (i + 1) := by
  obtain ⟨rest, rfl⟩ := h
  obtain ⟨hlt, rfl⟩ := List.getElem?_eq_some_iff.mp hx
  rw [List.drop_eq_getElem_cons (by simp; omega), List.getElem_append_left hlt]

private theorem getElem?_of_forall₂ {α β : Type} {R : α → β → Prop} {xs : List α} {ys : List β}
    (h : List.Forall₂ R xs ys) {i : Nat} (hi : i < xs.length) :
    ∃ x y, xs[i]? = some x ∧ ys[i]? = some y ∧ R x y := by
  have hi' : i < ys.length := h.length_eq ▸ hi
  exact ⟨_, _, List.getElem?_eq_getElem hi, List.getElem?_eq_getElem hi', h.get hi hi'⟩

/-- An instruction of the code, in both runs. -/
theorem agree_step_instr {l l' : Label} {body tail : List Instr} {exit exit' : Option Exit} {i : Nat}
    (w : World) (hsection : t.code.Section l body exit)
    (hsection' : t.copy.Section l' (t.base.before l ++ tail) exit')
    (hbody : List.Forall₂ (Instr.MovedTo t.base t.code.constants t.copy.constants) body tail)
    (hexit : Option.Rel (Exit.MovedTo t.base) exit exit') (hlt : i < body.length)
    (hregs : t.Mirror regs regs') :
    Agree t.Beside
      (Machine.step t.own.re t.own.pins t.own.code t.own.block
        ⟨w, regs, t.own.place l, (t.own.bodyAt l).drop i⟩)
      (Machine.step t.host.re t.host.pins t.host.code t.host.block
        ⟨w, regs', t.host.place l', (t.host.bodyAt l').drop ((t.base.before l).length + i)⟩) ∧
    ∀ r w', Machine.step t.own.re t.own.pins t.own.code t.own.block
      ⟨w, regs, t.own.place l, (t.own.bodyAt l).drop i⟩ ≠ .ok (.returned r w') := by
  obtain ⟨b, hb, hbegins, -⟩ := Stage.exists_section t.within hsection
  obtain ⟨b', hb', hbegins', -⟩ := Stage.exists_section t.within' hsection'
  obtain ⟨x, x', hx, hx', hmoved⟩ := getElem?_of_forall₂ hbody hlt
  have hat : t.own.bodyAt l = b.body := by simp [Stage.bodyAt, hb]
  have hat' : t.host.bodyAt l' = b'.body := by simp [Stage.bodyAt, hb']
  have hget' : (t.base.before l ++ tail)[(t.base.before l).length + i]? = some x' := by
    rw [List.getElem?_append_right (by omega), Nat.add_sub_cancel_left, hx']
  rw [hat, hat', drop_of_prefix hbegins hx, drop_of_prefix hbegins' hget']
  simp only [Machine.step]
  -- both bodies go on with the same instruction, up to where its registers and constants are
  have hinstr := agree_instr w hregs hmoved
    (t.regs l body exit hsection x (List.mem_of_getElem? hx))
  generalize runInstr t.own.re t.own.pins t.own.code t.own.block regs x w = out at hinstr ⊢
  generalize runInstr t.host.re t.host.pins t.host.code t.host.block regs' x' w = out' at hinstr ⊢
  cases hinstr with
  | error halt => exact ⟨.error halt, by simp⟩
  | @ok p p' hout =>
    obtain ⟨regs₁, w₁⟩ := p
    obtain ⟨regs₁', w₁'⟩ := p'
    obtain ⟨hregs₁, rfl⟩ : t.Mirror regs₁ regs₁' ∧ w₁ = w₁' := hout
    have hbeside := Beside.inside (i := i + 1) w₁ hsection hsection' hbody hexit hlt hregs₁
    rw [Stage.inside, Stage.inside, hat, hat'] at hbeside
    exact ⟨.ok hbeside, by simp⟩

/-- A run that returns from a block the code has closed. -/
def Leaving (t : Twins) (c : Config) : Prop :=
  ∃ b ∈ t.code.blocks, c.position = t.own.place b.label

/-- **Runs side by side** are at the end of the code, have returned, or take a step that leaves
them side by side; if that step returns, it does so from a block the code has closed. -/
theorem Beside.step {o o' : Machine.Outcome} (h : t.Beside o o') :
    t.Done o o' ∨ (∃ r w, o = .returned r w ∧ o' = .returned r w) ∨
      ∃ c c', o = .running c ∧ o' = .running c' ∧
        Agree t.Beside (Machine.step t.own.re t.own.pins t.own.code t.own.block c)
          (Machine.step t.host.re t.host.pins t.host.code t.host.block c') ∧
        ∀ r w, Machine.step t.own.re t.own.pins t.own.code t.own.block c = .ok (.returned r w) →
          t.Leaving c := by
  cases h with
  | returned r w => exact .inr (.inl ⟨r, w, rfl, rfl⟩)
  | @inside l l' body tail exit exit' i w regs regs' hsection hsection' hbody hexit hi hregs =>
    by_cases hlt : i < body.length
    · have hagree := agree_step_instr w hsection hsection' hbody hexit hlt hregs
      refine .inr (.inr ⟨_, _, rfl, rfl, hagree.1, fun r w' hstep => absurd hstep (hagree.2 r w')⟩)
    have hlength := hbody.length_eq
    obtain rfl : i = body.length := by omega
    cases hexit with
    | none =>
      -- the open sections are where the drafts stand
      left
      cases hsection
      generalize hlines : t.base.before t.code.label ++ tail = lines at hsection'
      cases hsection'
      have hsize : (t.base.before t.code.label).length + t.code.body.toList.length =
          t.copy.body.size := by
        rw [hlength, ← List.length_append, hlines, Array.length_toList]
      refine ⟨w, regs, regs', ?_, ?_, hregs⟩
      · rw [Array.length_toList]
        rfl
      · rw [hsize]
        rfl
    | some hmoved =>
      right; right
      obtain ⟨b, hb, -, hends⟩ := Stage.exists_section t.within hsection
      obtain ⟨b', hb', -, hends'⟩ := Stage.exists_section t.within' hsection'
      obtain ⟨hbody', hexit'⟩ := hends _ rfl
      obtain ⟨hbody'', hexit''⟩ := hends' _ rfl
      refine ⟨_, _, rfl, rfl, ?_⟩
      have hown : (t.own.bodyAt l).drop body.length = [] := by
        simp [Stage.bodyAt, hb, hbody']
      have hhost : (t.host.bodyAt l').drop ((t.base.before l).length + body.length) = [] := by
        simp [Stage.bodyAt, hb', hbody'', hlength]
      simp only [Machine.step, hown, hhost]
      rw [Stage.leave_eq_exitTo hb hexit', Stage.leave_eq_exitTo hb' hexit'']
      refine ⟨.ok (beside_exitTo hsection hmoved w hregs), fun r w' _ => ?_⟩
      cases hsection with
      | closed hmem => exact ⟨_, hmem, rfl⟩

/-! ### Whole runs -/

section

variable {o o' o₁ : Machine.Outcome}

/-- A step of the own run is taken by the host, unless the code is done. -/
theorem Beside.step_own (h : t.Beside o o') (hstep : t.own.Step o o₁) :
    t.Done o o' ∨ ∃ o₁', t.host.Step o' o₁' ∧ t.Beside o₁ o₁' := by
  obtain ⟨c, rfl, hstep⟩ := hstep
  rcases h.step with hdone | ⟨r, w, hreturned, -⟩ | ⟨c₀, c', hc, rfl, hagree, -⟩
  · exact .inl hdone
  · cases hreturned
  · cases hc
    rw [hstep] at hagree
    generalize hout : Machine.step t.host.re t.host.pins t.host.code t.host.block c' = out at hagree
    cases hagree with
    | ok hbeside => exact .inr ⟨_, ⟨c', rfl, hout⟩, hbeside⟩

/-- A step of the host is taken by the own run, unless the code is done. -/
theorem Beside.step_host (h : t.Beside o o') (hstep : t.host.Step o' o₁) :
    t.Done o o' ∨ ∃ c o₂, o = .running c ∧ t.own.Step o o₂ ∧ t.Beside o₂ o₁ ∧
      ∀ r w, o₂ = .returned r w → t.Leaving c := by
  obtain ⟨c, rfl, hstep⟩ := hstep
  rcases h.step with hdone | ⟨r, w, -, hreturned⟩ | ⟨c', c₀, rfl, hc, hagree, hleaving⟩
  · exact .inl hdone
  · cases hreturned
  · cases hc
    rw [hstep] at hagree
    generalize hout : Machine.step t.own.re t.own.pins t.own.code t.own.block c' = out
      at hagree hleaving
    cases hagree with
    | ok hbeside =>
      refine .inr ⟨c', _, rfl, ⟨c', rfl, hout⟩, hbeside, fun r w hreturned => ?_⟩
      exact hleaving r w (by rw [hreturned])

/-- **The host follows the own run**, as far as the code goes. -/
theorem Beside.leads_host (h : t.Beside o o') (hleads : t.own.Leads o o₁) :
    (∃ o₁', t.host.Leads o' o₁' ∧ t.Beside o₁ o₁') ∨
      ∃ o₂ o₂', t.Done o₂ o₂' ∧ t.own.Leads o o₂ ∧ t.own.Leads o₂ o₁ ∧ t.host.Leads o' o₂' := by
  induction hleads using Relation.ReflTransGen.head_induction_on generalizing o' with
  | refl => exact .inl ⟨o', .refl, h⟩
  | @head a b hstep hrest ih =>
    rcases h.step_own hstep with hdone | ⟨b', hstep', hbeside⟩
    · exact .inr ⟨a, o', hdone, .refl, .head hstep hrest, .refl⟩
    rcases ih hbeside with ⟨o₁', hleads', hbeside'⟩ | ⟨o₂, o₂', hdone, hown, hafter, hhost⟩
    · exact .inl ⟨o₁', .head hstep' hleads', hbeside'⟩
    · exact .inr ⟨o₂, o₂', hdone, .head hstep hown, hafter, .head hstep' hhost⟩

/-- **The own run follows the host**, as far as the code goes. -/
theorem Beside.follows_host (h : t.Beside o o') (hleads : t.host.Leads o' o₁) :
    (∃ o₂, t.own.Leads o o₂ ∧ t.Beside o₂ o₁) ∨
      ∃ o₂ o₂', t.Done o₂ o₂' ∧ t.own.Leads o o₂ ∧ t.host.Leads o' o₂' ∧ t.host.Leads o₂' o₁ := by
  induction hleads using Relation.ReflTransGen.head_induction_on generalizing o with
  | refl => exact .inl ⟨o, .refl, h⟩
  | @head a b hstep hrest ih =>
    rcases h.step_host hstep with hdone | ⟨c, o₂, rfl, hstep', hbeside, -⟩
    · exact .inr ⟨o, a, hdone, .refl, .refl, .head hstep hrest⟩
    rcases ih hbeside with ⟨o₃, hown, hbeside'⟩ | ⟨o₃, o₃', hdone, hown, hhost, hafter⟩
    · exact .inl ⟨o₃, .head hstep' hown, hbeside'⟩
    · exact .inr ⟨o₃, o₃', hdone, .head hstep' hown, .head hstep hhost, hafter⟩

/-- **The own run follows the host** to a result, from within the code or from its end. -/
theorem Beside.returns_own (h : t.Beside o o') {r : Ref} {w : World}
    (hleads : t.host.Leads o' (.returned r w)) :
    o = .returned r w ∨
    (∃ c, t.own.Leads o (.running c) ∧ t.own.Step (.running c) (.returned r w) ∧ t.Leaving c) ∨
      ∃ o₂ o₂', t.Done o₂ o₂' ∧ t.own.Leads o o₂ ∧ t.host.Leads o' o₂' ∧
        t.host.Leads o₂' (.returned r w) := by
  induction hleads using Relation.ReflTransGen.head_induction_on generalizing o with
  | refl =>
    cases h
    exact .inl rfl
  | @head a b hstep hrest ih =>
    rcases h.step_host hstep with hdone | ⟨c, o₂, rfl, hstep', hbeside, hleaving⟩
    · exact .inr (.inr ⟨o, a, hdone, .refl, .refl, .head hstep hrest⟩)
    rcases ih hbeside with rfl | ⟨c', hown, hreturns, hc'⟩ | ⟨o₂, o₂', hdone, hown, hhost, hafter⟩
    · exact .inr (.inl ⟨c, .refl, hstep', hleaving r w rfl⟩)
    · exact .inr (.inl ⟨c', .head hstep' hown, hreturns, hc'⟩)
    · exact .inr (.inr ⟨o₂, o₂', hdone, .head hstep' hown, .head hstep hhost, hafter⟩)

end

end Twins

end LogoEngine
