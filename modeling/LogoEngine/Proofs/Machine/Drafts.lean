import LogoEngine.Proofs.Code.Linking
import LogoEngine.Proofs.Code.Typing
import LogoEngine.Proofs.Emit.Growth
import LogoEngine.Proofs.Machine.Step

/-!
# Drafts on the machine

Code is emitted in one order and run in another. A finished draft that was linked is a **stage**:
while code is emitted into an earlier draft, a run on the stage can stand where the next
instruction will be added (**here**), wait at a label that is opened later, or have returned.

`Stage.Runs` follows a run along the emitter: emitted instructions are carried out by a run that
stands here, and code that the run does not stand at is skipped, whatever it is. New registers are
written and the older ones keep their contents (`Keeps`).
-/

namespace LogoEngine

/-- The end of a block with positions for labels. -/
def Exit.placed (place : Label → Nat) : Exit → LinkedExit
  | ret value => .ret value
  | jump target => .jump (place target)
  | branch cond yes no => .branch cond (place yes) (place no)
  | unreachable => .unreachable

/-- A finished draft that was linked, with the position of every label, and the circumstances it
runs in. -/
structure Stage where
  re : Reenter
  pins : Pins
  block : Int
  final : Draft
  code : Linked
  place : Label → Nat
  types : code.types = final.types
  constants : code.constants = final.constants
  blocks : ∀ b ∈ final.blocks, ∃ l, code.blocks[place b.label]? = some l ∧ l.body = b.body ∧
    l.exit = b.exit.placed place

/-- What kind of value stands in a register. -/
def Value.ty : Value → Ty
  | real _ => .real
  | truth _ => .truth
  | datum _ | void => .datum

/-- A register of a draft that holds a value. -/
structure Carries (d : Draft) (regs : Array Value) (r : Reg) (v : Value) : Prop where
  declares : Declares d.types r v.ty
  reads : readReg regs r = v

/-- Registers of an earlier draft that are as they were. -/
structure Keeps (d : Draft) (regs : Array Value) (d' : Draft) (regs' : Array Value) : Prop where
  types : d.types.toList <+: d'.types.toList
  size : regs'.size = regs.size
  kept : ∀ r : Reg, r.index < d.types.size → readReg regs' r = readReg regs r

section

variable {d d₁ d₂ : Draft} {regs regs₁ regs₂ : Array Value} {r : Reg} {v : Value}

theorem Keeps.refl : Keeps d regs d regs :=
  ⟨List.prefix_rfl, rfl, fun _ _ => rfl⟩

theorem Keeps.types_size (h : Keeps d regs d₁ regs₁) : d.types.size ≤ d₁.types.size := by
  have := h.types.length_le
  simpa using this

theorem Keeps.trans (h : Keeps d regs d₁ regs₁) (h' : Keeps d₁ regs₁ d₂ regs₂) :
    Keeps d regs d₂ regs₂ where
  types := h.types.trans h'.types
  size := h'.size.trans h.size
  kept r hr := (h'.kept r (Nat.lt_of_lt_of_le hr h.types_size)).trans (h.kept r hr)

theorem Carries.keep (h : Carries d regs r v) (hkeeps : Keeps d regs d₁ regs₁) :
    Carries d₁ regs₁ r v :=
  ⟨h.declares.mono hkeeps.types, (hkeeps.kept r h.declares.lt_size).trans h.reads⟩

/-- What is held depends on the types of a draft only. -/
theorem Carries.grow (h : Carries d regs r v) (htypes : d.types.toList <+: d₁.types.toList) :
    Carries d₁ regs r v :=
  ⟨h.declares.mono htypes, h.reads⟩

theorem Keeps.grow (h : Keeps d regs d₁ regs₁) (htypes : d₁.types.toList <+: d₂.types.toList) :
    Keeps d regs d₂ regs₁ :=
  ⟨h.types.trans htypes, h.size, h.kept⟩

/-! ### Registers -/

theorem readReg_writeReg_self (hr : r.index < regs.size) :
    readReg (writeReg regs r v) r = v := by
  simp [readReg, writeReg, Array.getD, hr]

theorem readReg_writeReg_of_ne {r' : Reg} (hne : r'.index ≠ r.index) :
    readReg (writeReg regs r v) r' = readReg regs r' := by
  simp [readReg, writeReg, Array.getD_eq_getD_getElem?, hne.symm]

/-- A register that is newer than what is kept can be written. -/
theorem Keeps.write (h : Keeps d regs d₁ regs₁) (hr : d.types.size ≤ r.index) :
    Keeps d regs d₁ (writeReg regs₁ r v) where
  types := h.types
  size := by simp [writeReg, h.size]
  kept r' hr' := by
    rw [readReg_writeReg_of_ne (by omega)]
    exact h.kept r' hr'

end

namespace Stage

variable (s : Stage)

/-- A run at the start of the block with a label. -/
def at_ (l : Label) (w : World) (regs : Array Value) : Machine.Outcome :=
  .running (Machine.enter s.code w regs (s.place l))

/-- A run that stands where the next instruction of a draft will be added. -/
def here (d : Draft) (w : World) (regs : Array Value) : Machine.Outcome :=
  let start := Machine.enter s.code w regs (s.place d.label)
  .running { start with rest := start.rest.drop d.body.size }

/-- One step of a run that has not returned. -/
def Step (o o' : Machine.Outcome) : Prop :=
  ∃ c, o = .running c ∧ Machine.step s.re s.pins s.code s.block c = .ok o'

/-- Any number of steps. -/
def Leads : Machine.Outcome → Machine.Outcome → Prop :=
  Relation.ReflTransGen s.Step

/-- A run along an emitter: from `o` it gets to where `Q` says, once the emitter is done. -/
def Runs {α : Type} (m : Emit α) (d : Draft) (o : Machine.Outcome)
    (Q : α → Draft → Machine.Outcome → Prop) : Prop :=
  (m d).2.Within s.final → ∃ o', s.Leads o o' ∧ Q (m d).1 (m d).2 o'

variable {s} {α β : Type} {m : Emit α} {f : α → Emit β} {d d₀ : Draft} {w w' : World}
  {regs regs₀ : Array Value} {o o' : Machine.Outcome} {Q : α → Draft → Machine.Outcome → Prop}
  {R : β → Draft → Machine.Outcome → Prop} {r src dst : Reg} {v : Value}

/-! ### Runs along emitters -/

theorem Runs.pure {a : α} (h : Q a d o) : s.Runs (pure a) d o Q :=
  fun _ => ⟨o, .refl, h⟩

/-- Code that a run does not stand at is skipped. -/
theorem Runs.skip [Emit.Grows m]
    (h : ∀ a d', d.types.toList <+: d'.types.toList → Q a d' o) : s.Runs m d o Q :=
  fun _ => ⟨o, .refl, h _ _ (Emit.Grows.types_prefix m d)⟩

/-- One piece of code after the other; what comes later grows the draft. -/
theorem Runs.bind [hf : Emit.GrowsAll f]
    (h : s.Runs m d o fun a d' o' => s.Runs (f a) d' o' R) : s.Runs (m >>= f) d o R := by
  intro hw
  obtain ⟨o₁, hlead₁, h₁⟩ := h ((hf.grows (m d).1).within hw)
  obtain ⟨o₂, hlead₂, h₂⟩ := h₁ hw
  exact ⟨o₂, hlead₁.trans hlead₂, h₂⟩

theorem Runs.mono {Q' : α → Draft → Machine.Outcome → Prop} (h : s.Runs m d o Q)
    (hQ : ∀ a d' o', Q a d' o' → Q' a d' o') : s.Runs m d o Q' := by
  intro hw
  obtain ⟨o', hlead, hq⟩ := h hw
  exact ⟨o', hlead, hQ _ _ _ hq⟩

theorem Runs.congr {m' : Emit α} (heq : m d = m' d) (h : s.Runs m' d o Q) : s.Runs m d o Q := by
  unfold Runs at h ⊢
  rw [heq]
  exact h

/-- The draft that code starts from is part of the finished one. -/
theorem Runs.within [g : Emit.Grows m] (h : d.Within s.final → s.Runs m d o Q) :
    s.Runs m d o Q :=
  fun hw => h (g.within hw) hw

/-! ### Where a run stands -/

/-- The block of a draft, as far as it is emitted, stands in the code. -/
theorem exists_block (hw : d.Within s.final) :
    ∃ l, s.code.blocks[s.place d.label]? = some l ∧ d.body.toList <+: l.body := by
  obtain ⟨b, hb, hlabel, hbegins⟩ := hw.opened
  obtain ⟨l, hl, hbody, -⟩ := s.blocks b hb
  rw [hlabel] at hl
  exact ⟨l, hl, hbody ▸ hbegins⟩

private theorem drop_eq_cons_of_begins {β : Type} {xs ys : List β} {x : β}
    (h : xs ++ [x] <+: ys) : ys.drop xs.length = x :: ys.drop (xs.length + 1) := by
  obtain ⟨rest, rfl⟩ := h
  simp

theorem here_eq {l : LinkedBlock} (hl : s.code.blocks[s.place d.label]? = some l) :
    s.here d w regs = .running ⟨w, regs, s.place d.label, l.body.drop d.body.size⟩ := by
  simp only [here, Machine.enter, hl, Option.map_some, Option.getD_some]

/-- An instruction is carried out by a run that stands here. -/
theorem runs_instr {i : Instr} {regs' : Array Value}
    {Q : Unit → Draft → Machine.Outcome → Prop}
    (hrun : runInstr s.re s.pins s.code s.block regs i w = .ok (regs', w'))
    (h : Q () (Emit.instr i d).2 (s.here (Emit.instr i d).2 w' regs')) :
    s.Runs (Emit.instr i) d (s.here d w regs) Q := by
  intro hw
  obtain ⟨l, hl, hbegins⟩ := exists_block hw
  have hbegins : d.body.toList ++ [i] <+: l.body := by
    rw [← Array.toList_push]
    exact hbegins
  have hdrop := drop_eq_cons_of_begins hbegins
  have hsize : (Emit.instr i d).2.body.size = d.body.toList.length + 1 := Array.size_push i
  refine ⟨_, .single ⟨_, here_eq (d := d) hl, ?_⟩, h⟩
  rw [here_eq hl, hsize, ← Array.length_toList, hdrop]
  simp only [Machine.step, hrun]
  rfl

/-- What the end of a block does to a run that stands here. -/
def exitTo (exit : Exit) (w : World) (regs : Array Value) : Machine.Outcome :=
  match exit with
  | .ret value => .returned (readReg regs value).asDatum w
  | .jump target => s.at_ target w regs
  | .branch cond yes no => s.at_ (if (readReg regs cond).asTruth then yes else no) w regs
  | .unreachable => .returned Ref.nothing w

/-- A run that stands at the end of a finished block leaves it. -/
theorem step_exitTo {exit : Exit} (hblock : ⟨d.label, d.body.toList, exit⟩ ∈ s.final.blocks) :
    s.Step (s.here d w regs) (s.exitTo exit w regs) := by
  obtain ⟨l, hl, hbody, hexit⟩ := s.blocks _ hblock
  refine ⟨_, here_eq (d := d) hl, ?_⟩
  rw [hbody, ← Array.length_toList, List.drop_length]
  simp only [Machine.step, Machine.leave, hl, hexit]
  cases exit <;> simp only [Exit.placed, exitTo, at_]
  split <;> rfl

theorem leads_exitTo {exit : Exit} (hblock : ⟨d.label, d.body.toList, exit⟩ ∈ s.final.blocks) :
    s.Leads (s.here d w regs) (s.exitTo exit w regs) :=
  .single (step_exitTo hblock)

/-- A draft that has just opened a label. -/
def Opens (s : Stage) (d : Draft) (l : Label) : Prop :=
  ∀ w regs, s.here d w regs = s.at_ l w regs

/-- The end of the block that a run stands in. -/
theorem runs_endBlock {exit : Exit} {next : Label} {Q : Unit → Draft → Machine.Outcome → Prop}
    (h : ∀ d', d.types.toList <+: d'.types.toList → s.Opens d' next →
      Q () d' (s.exitTo exit w regs)) :
    s.Runs (Emit.endBlock exit next) d (s.here d w regs) Q := by
  intro hw
  refine ⟨_, leads_exitTo (hw.blocks _ (Array.mem_push.mpr (.inr rfl))), ?_⟩
  exact h _ List.prefix_rfl fun _ _ => rfl

theorem runs_freshLabel {Q : Label → Draft → Machine.Outcome → Prop}
    (h : ∀ l d', d.types.toList <+: d'.types.toList → Q l d' (s.here d' w regs)) :
    s.Runs Emit.freshLabel d (s.here d w regs) Q :=
  fun _ => ⟨_, .refl, h ⟨d.nextLabel⟩ (Emit.freshLabel d).2 List.prefix_rfl⟩

/-! ### Instructions -/

theorem runs_freshReg {ty : Ty} {Q : Reg → Draft → Machine.Outcome → Prop}
    (h : ∀ r d', d.types.size ≤ r.index → d.types.toList <+: d'.types.toList →
      Declares d'.types r ty → Q r d' (s.here d' w regs)) :
    s.Runs (Emit.freshReg ty) d (s.here d w regs) Q := by
  refine fun _ => ⟨_, .refl, h ⟨d.types.size⟩ (Emit.freshReg ty d).2 (Nat.le_refl _) ?_ ?_⟩
  · exact Emit.Grows.types_prefix (Emit.freshReg ty) d
  · show (d.types.push ty)[d.types.size]? = some ty
    simp

/-- An instruction that leaves a value in a new register. -/
theorem runs_load {ty : Ty} {i : Reg → Instr} {Q : Reg → Draft → Machine.Outcome → Prop}
    (hsize : regs.size = s.final.types.size) (hty : v.ty = ty)
    (hrun : ∀ dst, runInstr s.re s.pins s.code s.block regs (i dst) w =
      .ok (writeReg regs dst v, w'))
    (h : ∀ r d' regs', Keeps d regs d' regs' → Carries d' regs' r v → Q r d' (s.here d' w' regs')) :
    s.Runs (do let dst ← Emit.freshReg ty; Emit.instr (i dst); return dst) d (s.here d w regs)
      Q := by
  refine .bind (runs_freshReg fun r d₁ hle hbegins hr => .bind (.within fun hw => ?_))
  refine runs_instr (hrun r) (.pure (h r _ _ ⟨hbegins, by simp [writeReg], fun r' hr' => ?_⟩ ?_))
  · exact readReg_writeReg_of_ne (by omega)
  · have hlt : r.index < s.final.types.size := (hr.mono hw.types).lt_size
    exact ⟨hty ▸ hr, readReg_writeReg_self (by omega)⟩

/-- Copies into a register that may have held something else. -/
theorem runs_move {Q : Unit → Draft → Machine.Outcome → Prop}
    (h : ∀ d', d.types.toList <+: d'.types.toList →
      Q () d' (s.here d' w (writeReg regs dst (readReg regs src)))) :
    s.Runs (Emit.move dst src) d (s.here d w regs) Q :=
  runs_instr rfl (h _ List.prefix_rfl)

section

variable {a b : Reg} {x y : Float} {p q : Bool} {Q : Reg → Draft → Machine.Outcome → Prop}
  (hsize : regs.size = s.final.types.size)

include hsize

theorem runs_real (h : ∀ r d' regs', Keeps d regs d' regs' → Carries d' regs' r (.real x) →
    Q r d' (s.here d' w regs')) : s.Runs (Emit.real x) d (s.here d w regs) Q :=
  runs_load hsize rfl (fun _ => rfl) h

theorem runs_truth (h : ∀ r d' regs', Keeps d regs d' regs' → Carries d' regs' r (.truth p) →
    Q r d' (s.here d' w regs')) : s.Runs (Emit.truth p) d (s.here d w regs) Q :=
  runs_load hsize rfl (fun _ => rfl) h

theorem runs_arith {op : ArithOp} (ha : Carries d regs a (.real x))
    (hb : Carries d regs b (.real y))
    (h : ∀ r d' regs', Keeps d regs d' regs' → Carries d' regs' r (.real (op.eval x y)) →
      Q r d' (s.here d' w regs')) : s.Runs (Emit.arith op a b) d (s.here d w regs) Q := by
  refine runs_load hsize rfl (fun dst => ?_) h
  simp only [runInstr, instrValue, ha.reads, hb.reads]
  rfl

theorem runs_negate (ha : Carries d regs a (.real x))
    (h : ∀ r d' regs', Keeps d regs d' regs' → Carries d' regs' r (.real (-x)) →
      Q r d' (s.here d' w regs')) : s.Runs (Emit.negate a) d (s.here d w regs) Q := by
  refine runs_load hsize rfl (fun dst => ?_) h
  simp only [runInstr, instrValue, ha.reads]
  rfl

theorem runs_compare {op : CompareOp} (ha : Carries d regs a (.real x))
    (hb : Carries d regs b (.real y))
    (h : ∀ r d' regs', Keeps d regs d' regs' → Carries d' regs' r (.truth (op.eval x y)) →
      Q r d' (s.here d' w regs')) : s.Runs (Emit.compare op a b) d (s.here d w regs) Q := by
  refine runs_load hsize rfl (fun dst => ?_) h
  simp only [runInstr, instrValue, ha.reads, hb.reads]
  rfl

theorem runs_isInt (ha : Carries d regs a (.real x))
    (h : ∀ r d' regs', Keeps d regs d' regs' → Carries d' regs' r (.truth (isInt32 x)) →
      Q r d' (s.here d' w regs')) : s.Runs (Emit.isInt a) d (s.here d w regs) Q := by
  refine runs_load hsize rfl (fun dst => ?_) h
  simp only [runInstr, instrValue, ha.reads]
  rfl

theorem runs_not (ha : Carries d regs a (.truth p))
    (h : ∀ r d' regs', Keeps d regs d' regs' → Carries d' regs' r (.truth !p) →
      Q r d' (s.here d' w regs')) : s.Runs (Emit.not a) d (s.here d w regs) Q := by
  refine runs_load hsize rfl (fun dst => ?_) h
  simp only [runInstr, instrValue, ha.reads]
  rfl

theorem runs_and (ha : Carries d regs a (.truth p)) (hb : Carries d regs b (.truth q))
    (h : ∀ r d' regs', Keeps d regs d' regs' → Carries d' regs' r (.truth (p && q)) →
      Q r d' (s.here d' w regs')) : s.Runs (Emit.and a b) d (s.here d w regs) Q := by
  refine runs_load hsize rfl (fun dst => ?_) h
  simp only [runInstr, instrValue, ha.reads, hb.reads]
  rfl

omit hsize in
/-- A constant has a place, which the finished draft still has. -/
theorem runs_slot {c : Ref} {Q : Nat → Draft → Machine.Outcome → Prop}
    (h : ∀ index d', d'.types = d.types → s.code.constants.getD index Ref.nothing = c →
      Q index d' (s.here d' w regs)) : s.Runs (Emit.slot c) d (s.here d w regs) Q := by
  have hslot : (Emit.slot c d).2.constants[(Emit.slot c d).1]? = some c ∧
      (Emit.slot c d).2.types = d.types ∧
      ∀ w regs, s.here (Emit.slot c d).2 w regs = s.here d w regs := by
    unfold Emit.slot
    split
    · next index hindex =>
      obtain ⟨hlt, heq, -⟩ := Array.findIdx?_eq_some_iff_getElem.mp hindex
      exact ⟨Array.getElem?_eq_some_iff.mpr ⟨hlt, by simpa using heq⟩, rfl, fun _ _ => rfl⟩
    · exact ⟨by simp, rfl, fun _ _ => rfl⟩
  obtain ⟨hget, htypes, hhere⟩ := hslot
  intro hw
  have hconst : s.code.constants.getD (Emit.slot c d).1 Ref.nothing = c := by
    obtain ⟨rest, hrest⟩ := hw.constants
    have hlt := (Array.getElem?_eq_some_iff.mp hget).1
    rw [s.constants, Array.getD_eq_getD_getElem?, ← Array.getElem?_toList, ← hrest,
      List.getElem?_append_left (by simpa using hlt), Array.getElem?_toList, hget]
    rfl
  exact ⟨_, .refl, hhere w regs ▸ h _ _ htypes hconst⟩

/-- Loads an object. -/
theorem runs_const {c : Ref}
    (h : ∀ r d' regs', Keeps d regs d' regs' → Carries d' regs' r (.datum c) →
      Q r d' (s.here d' w regs')) : s.Runs (Emit.const c) d (s.here d w regs) Q := by
  refine .bind (runs_slot fun index d₁ htypes hconst => ?_)
  have hrun : ∀ dst, runInstr s.re s.pins s.code s.block regs (.const dst index) w =
      .ok (writeReg regs dst (.datum c), w) := by
    intro dst
    simp only [runInstr, instrValue, hconst]
    rfl
  refine runs_load hsize rfl hrun fun r d' regs' hkeeps hr => ?_
  exact h r d' regs' ⟨htypes ▸ hkeeps.types, hkeeps.size, htypes ▸ hkeeps.kept⟩ hr

/-- Calls a helper for its result. -/
theorem runs_call {helper : Helper} {args : List Reg} {values : List Value}
    (hargs : List.Forall₂ (Carries d regs) args values)
    (hcall : ∀ pins, callHelper s.re pins helper values w = .ok (v, w'))
    (hty : v.ty = helper.signature.ret.getD .datum)
    (h : ∀ r d' regs', Keeps d regs d' regs' → Carries d' regs' r v →
      Q r d' (s.here d' w' regs')) : s.Runs (Emit.call helper args) d (s.here d w regs) Q := by
  have hreads : args.map (readReg regs) = values := by
    clear hcall
    induction hargs with
    | nil => rfl
    | cons hr _ ih => rw [List.map_cons, hr.reads, ih]
  refine runs_load hsize hty (fun dst => ?_) h
  simp only [runInstr, hreads, bind, StateT.bind, Except.bind, hcall]
  rfl

end

/-! ### Code that a run passes by -/

theorem opens_of_opening {l : Label} (m : Emit α) [hm : Emit.Opening m l] (d : Draft) :
    s.Opens (m d).2 l := by
  obtain ⟨hlabel, hbody⟩ := hm.opens d
  intro w regs
  simp only [here, at_, hlabel, hbody, List.size_toArray, List.length_nil, List.drop_zero]

/-- A run that has gone to a label passes by the code that is added until the label is opened. The
registers of `d₀` are there all the time. -/
def RunsPast (s : Stage) (d₀ : Draft) (l : Label) (w : World) (regs : Array Value) (m : Emit α)
    (d : Draft) (Q : α → Draft → Machine.Outcome → Prop) : Prop :=
  d₀.types.toList <+: d.types.toList → s.Runs m d (s.at_ l w regs) Q

section

variable {l : Label}

theorem Runs.past (h : s.RunsPast d l w regs m d Q) : s.Runs m d (s.at_ l w regs) Q :=
  h List.prefix_rfl

theorem RunsPast.pass [Emit.Grows m] [Emit.GrowsAll f]
    (h : ∀ a d', s.RunsPast d₀ l w regs (f a) d' R) : s.RunsPast d₀ l w regs (m >>= f) d R :=
  fun hd => .bind (.skip fun a d' hd' => h a d' (hd.trans hd'))

/-- The label is opened by the last step. -/
theorem RunsPast.opensLast [Emit.Grows m] [Emit.Opening m l]
    (h : ∀ a d', d₀.types.toList <+: d'.types.toList → Q a d' (s.here d' w regs)) :
    s.RunsPast d₀ l w regs m d Q := by
  refine fun hd _ => ⟨_, .refl, ?_⟩
  rw [← opens_of_opening m d w regs]
  exact h _ _ (hd.trans (Emit.Grows.types_prefix m d))

theorem RunsPast.opens [Emit.Grows m] [Emit.Opening m l] [Emit.GrowsAll f]
    (h : ∀ a d', d₀.types.toList <+: d'.types.toList →
      s.Runs (f a) d' (s.here d' w regs) R) :
    s.RunsPast d₀ l w regs (m >>= f) d R := by
  intro hd
  have hlast : s.RunsPast d₀ l w regs m d fun a d' o => s.Runs (f a) d' o R := .opensLast h
  exact .bind (hlast hd)

end

/-! ### Steps that lead elsewhere -/

/-- A value is looked for at another label. -/
theorem runs_deliver {target next : Label} {Q : Unit → Draft → Machine.Outcome → Prop}
    (h : ∀ d', d.types.toList <+: d'.types.toList → s.Opens d' next →
      Q () d' (s.at_ target w (writeReg regs dst (readReg regs src)))) :
    s.Runs (Emit.deliver dst src target next) d (s.here d w regs) Q :=
  .bind (runs_move fun _ hd₁ => runs_endBlock fun d₂ hd₂ => h d₂ (hd₁.trans hd₂))

/-- Values of other kinds are treated at another label. -/
theorem runs_whenKind {mask : Nat} {value : Reg} {t : Ref} {f : Label → Emit β}
    [hf : Emit.GrowsAll f] (hsize : regs.size = s.final.types.size)
    (hvalue : Carries d regs value (.datum t))
    (hyes : (w.heap.get t).hasTag mask = true → ∀ no d' regs', Keeps d regs d' regs' →
      s.Runs (f no) d' (s.here d' w regs') R)
    (hno : (w.heap.get t).hasTag mask = false → ∀ no d' regs', Keeps d regs d' regs' →
      s.RunsPast d' no w regs' (f no) d' R) :
    s.Runs (Emit.whenKind mask value >>= f) d (s.here d w regs) R := by
  have htest : ∀ pins, callHelper s.re pins (.hasTag mask) [.datum t] w =
      .ok (.truth ((w.heap.get t).hasTag mask), w) := fun _ => rfl
  refine .bind (.bind (runs_call hsize (.cons hvalue .nil) htest rfl ?_))
  intro isKind d₁ regs₁ hkeeps₁ hisKind
  refine .bind (runs_freshLabel fun yes d₂ hd₂ => .bind (runs_freshLabel fun no d₃ hd₃ => ?_))
  refine .bind (runs_endBlock fun d₄ hd₄ hopens => .pure ?_)
  have hkeeps₄ := ((hkeeps₁.grow hd₂).grow hd₃).grow hd₄
  simp only [exitTo, hisKind.reads, Value.asTruth]
  cases hkind : (w.heap.get t).hasTag mask with
  | true =>
    rw [if_pos rfl, ← hopens]
    exact hyes hkind no d₄ regs₁ hkeeps₄
  | false => exact .past (hno hkind no d₄ regs₁ hkeeps₄)

/-! ### Ways out -/

/-- A value is computed and returned only if the condition holds. -/
theorem runs_returnWhen {cond : Reg} {build : Emit Reg} [Emit.Grows build] {p : Bool}
    {Q : Unit → Draft → Machine.Outcome → Prop} (hcond : readReg regs cond = .truth p)
    (hgo : p = false → ∀ d', d.types.toList <+: d'.types.toList → Q () d' (s.here d' w regs))
    (hleave : p = true → ∀ d₁, d.types.toList <+: d₁.types.toList →
      s.Runs build d₁ (s.here d₁ w regs) fun value d₂ o => ∃ w' regs', o = s.here d₂ w' regs' ∧
        ∀ d', Q () d' (.returned (readReg regs' value).asDatum w')) :
    s.Runs (Emit.returnWhen cond build) d (s.here d w regs) Q := by
  refine .bind (runs_freshLabel fun leave d₁ hd₁ => .bind (runs_freshLabel fun go d₂ hd₂ => ?_))
  refine .bind (runs_endBlock fun d₃ hd₃ hopen₃ => ?_)
  have hgrow := (hd₁.trans hd₂).trans hd₃
  simp only [exitTo, hcond, Value.asTruth]
  cases p with
  | false =>
    rw [if_neg Bool.false_ne_true]
    exact .past (.pass fun _ _ => .opensLast fun _ d₄ hd₄ => hgo rfl d₄ (hgrow.trans hd₄))
  | true =>
    simp only [if_true]
    rw [← hopen₃]
    refine .bind ((hleave rfl d₃ hgrow).mono ?_)
    rintro value d₄ _ ⟨w', regs', rfl, hreturned⟩
    exact runs_endBlock fun d₅ _ _ => hreturned d₅

end Stage

end LogoEngine
