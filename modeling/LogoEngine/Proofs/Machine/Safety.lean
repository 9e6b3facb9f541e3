import LogoEngine.Proofs.Code.Linking
import LogoEngine.Proofs.Machine.Step

/-!
# Safety of checked code

A routine that passes the check never makes the machine read a register as something it is not.
The invariant is that every register **holds** a value of its declared type. It makes the next
instruction **ready**: its operands hold values of the types it reads them at, and what it indexes
is in range. Helpers keep the invariant because each **answers** with a value of the type its
signature names, whatever it is given.

Main statement: `Routine.safe_of_verify`, checked code links, and every configuration a run gets
to is safe.
-/

namespace LogoEngine

/-! ### Values of a type -/

/-- A value is of a type. -/
def Value.HasType : Value → Ty → Prop
  | .real _, .real | .truth _, .truth | .datum _, .datum => True
  | _, _ => False

/-- A value is what a helper with the given result leaves. -/
def Value.Answers (v : Value) : Option Ty → Prop
  | some ty => v.HasType ty
  | none => v = .void

/-- A register exists and holds a value of a type. -/
def Holds (regs : Array Value) (r : Reg) (ty : Ty) : Prop :=
  ∃ v, regs[r.index]? = some v ∧ v.HasType ty

/-- Every register holds a value of its declared type. -/
structure Fills (types : Array Ty) (regs : Array Value) : Prop where
  size : regs.size = types.size
  holds : ∀ r ty, Declares types r ty → Holds regs r ty

/-! ### What a run must never meet -/

/-- An instruction that can run without a fallback: its operands hold what it reads, its constant
exists, its call is one the signature allows, and its result goes to a register of its type. -/
def Instr.Ready (code : Linked) (regs : Array Value) : Instr → Prop
  | real dst _ => Declares code.types dst .real
  | truth dst _ | atBlock dst _ => Declares code.types dst .truth
  | const dst slot => Declares code.types dst .datum ∧ slot < code.constants.size
  | arith dst _ lhs rhs =>
    Declares code.types dst .real ∧ Holds regs lhs .real ∧ Holds regs rhs .real
  | neg dst src => Declares code.types dst .real ∧ Holds regs src .real
  | compare dst _ lhs rhs =>
    Declares code.types dst .truth ∧ Holds regs lhs .real ∧ Holds regs rhs .real
  | isInt dst src => Declares code.types dst .truth ∧ Holds regs src .real
  | not dst src => Declares code.types dst .truth ∧ Holds regs src .truth
  | and dst lhs rhs =>
    Declares code.types dst .truth ∧ Holds regs lhs .truth ∧ Holds regs rhs .truth
  | move dst src => ∃ ty, Declares code.types dst ty ∧ Holds regs src ty
  | call dst helper args =>
    helper.signature.allows args.length = true ∧
      (∃ tys, List.Forall₂ (Holds regs) args tys ∧ helper.signature.Accepts tys) ∧
      ∀ d, dst = some d → ∃ ty, helper.signature.ret = some ty ∧ Declares code.types d ty

/-- An end of a block that can be taken without a fallback. -/
def LinkedExit.Ready (code : Linked) (regs : Array Value) : LinkedExit → Prop
  | ret value => Holds regs value .datum
  | jump target => target < code.blocks.size
  | branch cond yes no =>
    Holds regs cond .truth ∧ yes < code.blocks.size ∧ no < code.blocks.size
  | unreachable => True

/-- A configuration without anything to fall back from. -/
structure Config.Safe (code : Linked) (c : Config) : Prop where
  registers : Fills code.types c.regs
  inBlock : ∃ b done, code.blocks[c.position]? = some b ∧ b.body = done ++ c.rest
  next : ∀ i rest, c.rest = i :: rest → i.Ready code c.regs
  exit : ∀ b, c.rest = [] → code.blocks[c.position]? = some b → b.exit.Ready code c.regs

/-! ### What helpers answer -/

/-- Every result of a computation has a property. -/
def Run.Yields {α : Type} (x : Run α) (P : α → Prop) : Prop :=
  ∀ w a w', x w = .ok (a, w') → P a

namespace Run.Yields

theorem pure {α : Type} {P : α → Prop} {a : α} (h : P a) : Yields (pure a : Run α) P := by
  intro w b w' hrun
  cases hrun
  exact h

theorem bind {α β : Type} {P : β → Prop} {x : Run α} {f : α → Run β} (h : ∀ a, Yields (f a) P) :
    Yields (x >>= f) P := by
  intro w b w' hrun
  obtain ⟨⟨a, w₁⟩, -, hf⟩ := bind_eq_ok_iff.mp hrun
  exact h a w₁ b w' hf

theorem map {α β : Type} {P : β → Prop} {x : Run α} {f : α → β} (h : ∀ a, P (f a)) :
    Yields (f <$> x) P := by
  rw [map_eq_pure_bind]
  exact bind fun a => pure (h a)

theorem ite {α : Type} {P : α → Prop} {c : Prop} [Decidable c] {x y : Run α} (hx : Yields x P)
    (hy : Yields y P) : Yields (if c then x else y) P := by
  split
  · exact hx
  · exact hy

end Run.Yields

/-- **Helpers answer as their signatures say**, whatever they are called with. -/
theorem callHelper_answers (re : Reenter) (pins : Pins) (helper : Helper) (args : List Value) :
    (callHelper re pins helper args).Yields (·.Answers helper.signature.ret) := by
  cases helper
  case runResult =>
    refine .bind fun result => .bind fun h => .ite (.pure trivial) (.ite ?_ ?_)
    · exact .map fun _ => trivial
    · exact .map fun _ => trivial
  all_goals
    first
    | exact .map fun _ => trivial
    | exact .pure trivial
    | exact .bind fun _ => .pure trivial
    | exact .bind fun _ => .pure rfl
    | exact .bind fun _ => .bind fun _ => .pure trivial

/-! ### Registers -/

theorem readReg_of_getElem? {regs : Array Value} {r : Reg} {v : Value}
    (h : regs[r.index]? = some v) : readReg regs r = v := by
  rw [readReg, Array.getD_eq_getD_getElem?, h, Option.getD_some]

/-- Reading a register that holds a value of a type gives a value of that type. -/
theorem Holds.readReg {regs : Array Value} {r : Reg} {ty : Ty} (h : Holds regs r ty) :
    (readReg regs r).HasType ty := by
  obtain ⟨v, hv, hty⟩ := h
  rwa [readReg_of_getElem? hv]

theorem fills_initialRegisters (types : Array Ty) : Fills types (initialRegisters types) := by
  refine ⟨by simp [initialRegisters], fun r ty h => ?_⟩
  unfold Declares at h
  refine ⟨_, by simp only [initialRegisters, Array.getElem?_map, h, Option.map_some]; rfl, ?_⟩
  cases ty <;> trivial

/-- Writing a value of the declared type keeps the registers filled. -/
theorem Fills.writeReg {types : Array Ty} {regs : Array Value} {dst : Reg} {v : Value} {ty : Ty}
    (h : Fills types regs) (hdst : Declares types dst ty) (hv : v.HasType ty) :
    Fills types (writeReg regs dst v) := by
  refine ⟨by simp [LogoEngine.writeReg, h.size], fun r ty' hr => ?_⟩
  by_cases heq : dst.index = r.index
  · have : ty' = ty := by
      unfold Declares at hdst hr
      rw [heq, hr] at hdst
      exact Option.some.inj hdst
    subst this
    have hlt : dst.index < regs.size := h.size ▸ hdst.lt_size
    exact ⟨v, by simp [LogoEngine.writeReg, ← heq, hlt], hv⟩
  · obtain ⟨v', hv', hty'⟩ := h.holds r ty' hr
    exact ⟨v', by rw [LogoEngine.writeReg, Array.getElem?_setIfInBounds_ne heq, hv'], hty'⟩

/-! ### Checked code, linked -/

/-- An end of a block that returns a datum or goes to positions that exist. -/
def LinkedExit.Typed (code : Linked) : LinkedExit → Prop
  | ret value => Declares code.types value .datum
  | jump target => target < code.blocks.size
  | branch cond yes no =>
    Declares code.types cond .truth ∧ yes < code.blocks.size ∧ no < code.blocks.size
  | unreachable => True

/-- Linked code whose every block is typed. -/
structure Linked.Typed (code : Linked) : Prop where
  entry : code.entry < code.blocks.size
  body : ∀ (k : Nat) (b : LinkedBlock), code.blocks[k]? = some b →
    ∀ i ∈ b.body, i.Typed code.types code.constants.size
  exit : ∀ (k : Nat) (b : LinkedBlock), code.blocks[k]? = some b → b.exit.Typed code

private theorem Routine.Locates.lt_length {code : Routine} {label : Label} {k : Nat}
    (h : code.Locates label k) : k < code.blocks.length := by
  obtain ⟨b, hb, -⟩ := h
  exact (List.getElem?_eq_some_iff.mp hb).1

/-- Code that follows a routine of typed blocks is typed. -/
theorem Routine.Follows.typed {code : Routine} {linked : Linked} (h : code.Follows linked)
    (hblocks : ∀ b ∈ code.blocks, b.Typed code) : linked.Typed := by
  have hsize : code.blocks.length = linked.blocks.size := by
    rw [h.blocks.length_eq, Array.length_toList]
  -- every linked block comes from a typed block
  have hfrom : ∀ {k : Nat} {l : LinkedBlock}, linked.blocks[k]? = some l →
      ∃ b ∈ code.blocks, l.body = b.body ∧ code.ExitFollows b.exit l.exit := by
    intro k l hl
    obtain ⟨hk, rfl⟩ := Array.getElem?_eq_some_iff.mp hl
    have hk' : k < code.blocks.length := hsize ▸ hk
    exact ⟨code.blocks[k], List.getElem_mem hk', by
      simpa using h.blocks.get hk' (by simpa using hk)⟩
  refine ⟨hsize ▸ h.entry.lt_length, ?_, ?_⟩
  · intro k l hl i hi
    obtain ⟨b, hb, hbody, -⟩ := hfrom hl
    rw [h.types, h.constants]
    exact (hblocks b hb).body i (hbody ▸ hi)
  · intro k l hl
    obtain ⟨b, hb, -, hfollows⟩ := hfrom hl
    have htyped := (hblocks b hb).exit
    cases hb' : b.exit <;> cases hl' : l.exit <;> rw [hb', hl'] at hfollows <;>
      rw [hb'] at htyped <;> simp only [Routine.ExitFollows] at hfollows
    case ret.ret => rw [LinkedExit.Typed, h.types, hfollows]; exact htyped
    case jump.jump => rw [LinkedExit.Typed, ← hsize]; exact hfollows.lt_length
    case branch.branch =>
      obtain ⟨rfl, hyes, hno⟩ := hfollows
      refine ⟨?_, hsize ▸ hyes.lt_length, hsize ▸ hno.lt_length⟩
      rw [h.types]
      exact htyped.1
    case unreachable.unreachable => trivial

namespace Machine

/-! ### Steps keep configurations safe -/

variable {re : Reenter} {pins : Pins} {code : Linked} {block : Int}

/-- Typed instructions are ready on filled registers. -/
theorem ready_of_typed {regs : Array Value} {i : Instr} (hregs : Fills code.types regs)
    (h : i.Typed code.types code.constants.size) : i.Ready code regs := by
  cases i with
  | real | truth | const | atBlock => exact h
  | arith | compare | and =>
    exact ⟨h.1, hregs.holds _ _ h.2.1, hregs.holds _ _ h.2.2⟩
  | neg | isInt | not => exact ⟨h.1, hregs.holds _ _ h.2⟩
  | move dst src =>
    obtain ⟨ty, hdst, hsrc⟩ := h
    exact ⟨ty, hdst, hregs.holds _ _ hsrc⟩
  | call dst helper args =>
    obtain ⟨⟨tys, hargs, hacc⟩, hdst⟩ := h
    refine ⟨?_, ⟨tys, hargs.imp fun r ty => hregs.holds r ty, hacc⟩, hdst⟩
    rw [hargs.length_eq]
    exact hacc.allows

/-- The value of an instruction that is no call has the type of the register it goes to. -/
theorem instrValue_hasType {regs : Array Value} {i : Instr} {dst : Reg} {v : Value}
    (h : i.Ready code regs) (hv : instrValue code block regs i = some (dst, v)) :
    ∃ ty, Declares code.types dst ty ∧ v.HasType ty := by
  cases i with
  | real | truth | atBlock => cases hv; exact ⟨_, h, trivial⟩
  | const | arith | neg | compare | isInt | not | and => cases hv; exact ⟨_, h.1, trivial⟩
  | move dst src =>
    cases hv
    obtain ⟨ty, hdst, hsrc⟩ := h
    exact ⟨ty, hdst, hsrc.readReg⟩
  | call => cases hv

/-- A ready instruction keeps the registers filled. -/
theorem fills_of_runInstr {regs regs' : Array Value} {i : Instr} {w w' : World}
    (hregs : Fills code.types regs) (h : i.Ready code regs)
    (hrun : runInstr re pins code block regs i w = .ok (regs', w')) :
    Fills code.types regs' := by
  by_cases hcall : ∃ dst helper args, i = .call dst helper args
  · obtain ⟨dst, helper, args, rfl⟩ := hcall
    obtain ⟨⟨out, w₁⟩, hout, hrest⟩ := bind_eq_ok_iff.mp hrun
    have hanswer := callHelper_answers _ _ _ _ _ _ _ hout
    cases dst with
    | none => cases hrest; exact hregs
    | some d =>
      cases hrest
      obtain ⟨ty, hret, hd⟩ := h.2.2 d rfl
      simp only [hret, Value.Answers] at hanswer
      exact hregs.writeReg hd hanswer
  · have hvalue : ∃ dst v, instrValue code block regs i = some (dst, v) := by
      cases i with
      | call dst helper args => exact absurd ⟨dst, helper, args, rfl⟩ hcall
      | _ => exact ⟨_, _, rfl⟩
    obtain ⟨dst, v, hv⟩ := hvalue
    have hregs' : regs' = writeReg regs dst v := by
      cases i with
      | call dst helper args => exact absurd ⟨dst, helper, args, rfl⟩ hcall
      | _ => cases hv; cases hrun; rfl
    obtain ⟨ty, hdst, hty⟩ := instrValue_hasType h hv
    exact hregs' ▸ hregs.writeReg hdst hty

/-- In typed code a configuration is safe if its registers are filled and it is in a block. -/
theorem safe_of_fills (hcode : code.Typed) {c : Config} (hregs : Fills code.types c.regs)
    (hin : ∃ b done, code.blocks[c.position]? = some b ∧ b.body = done ++ c.rest) :
    c.Safe code := by
  refine ⟨hregs, hin, ?_, ?_⟩
  · intro i rest hrest
    obtain ⟨b, done, hb, hbody⟩ := hin
    refine ready_of_typed hregs (hcode.body _ b hb i ?_)
    rw [hbody, hrest]
    simp
  · intro b _ hb
    have htyped := hcode.exit _ b hb
    cases hexit : b.exit with
    | ret r => rw [hexit] at htyped; exact hregs.holds _ _ htyped
    | jump t => rw [hexit] at htyped; exact htyped
    | branch r yes no =>
      rw [hexit] at htyped
      exact ⟨hregs.holds _ _ htyped.1, htyped.2⟩
    | unreachable => trivial

/-- Entering a block that exists with filled registers is safe. -/
theorem safe_enter (hcode : code.Typed) {w : World} {regs : Array Value} {position : Nat}
    (hregs : Fills code.types regs) (hlt : position < code.blocks.size) :
    (enter code w regs position).Safe code := by
  refine safe_of_fills hcode hregs ⟨code.blocks[position], [], ?_, ?_⟩
  · simp [enter, hlt]
  · simp [enter, hlt]

/-- **One step** from a safe configuration leads to a safe configuration. -/
theorem safe_of_moves (hcode : code.Typed) {c c' : Config} (h : c.Safe code)
    (hmove : Moves re pins code block c c') : c'.Safe code := by
  unfold Moves step at hmove
  split at hmove
  · next i rest hrest =>
    split at hmove
    · next regs w hrun =>
      cases hmove
      refine safe_of_fills hcode (fills_of_runInstr h.registers (h.next i rest hrest) hrun) ?_
      obtain ⟨b, done, hb, hbody⟩ := h.inBlock
      exact ⟨b, done ++ [i], hb, by simp [hbody, hrest]⟩
    · cases hmove
  · next hrest =>
    obtain ⟨b, done, hb, -⟩ := h.inBlock
    have hexit := h.exit b hrest hb
    simp only [leave, hb] at hmove
    cases hb' : b.exit <;> simp only [hb', Except.ok.injEq, reduceCtorEq, Outcome.running.injEq]
      at hmove hexit
    · subst hmove
      exact safe_enter hcode h.registers hexit
    · subst hmove
      obtain ⟨-, hyes, hno⟩ := hexit
      split
      · exact safe_enter hcode h.registers hyes
      · exact safe_enter hcode h.registers hno

/-- **Whole runs** of typed code stay safe. -/
theorem safe_of_reaches (hcode : code.Typed) {w : World} {c : Config}
    (h : Reaches re pins code block (start code w) c) : c.Safe code := by
  induction h with
  | refl => exact safe_enter hcode (fills_initialRegisters code.types) hcode.entry
  | tail _ hmove ih => exact safe_of_moves hcode ih hmove

/-- What a safe configuration returns is the datum in the register its block returns. -/
theorem returned_of_safe {c : Config} {r : Ref} {w : World} (h : c.Safe code)
    (hstep : step re pins code block c = .ok (.returned r w)) :
    c.rest = [] ∧ c.world = w ∧ ∃ b, code.blocks[c.position]? = some b ∧
      (b.exit = .unreachable ∨
        ∃ value, b.exit = .ret value ∧ c.regs[value.index]? = some (.datum r)) := by
  obtain ⟨b, done, hb, -⟩ := h.inBlock
  unfold step at hstep
  split at hstep
  · split at hstep <;> cases hstep
  · next hrest =>
    have hexit := h.exit b hrest hb
    simp only [leave, hb] at hstep
    cases hb' : b.exit <;> simp only [hb', Except.ok.injEq, reduceCtorEq] at hstep hexit
    · next value =>
      obtain ⟨v, hv, hty⟩ := hexit
      cases hstep
      cases v <;> simp only [Value.HasType] at hty
      exact ⟨hrest, rfl, b, hb, .inr ⟨value, hb', by
        rw [readReg_of_getElem? hv, hv, Value.asDatum]⟩⟩
    · cases hstep
      exact ⟨hrest, rfl, b, hb, .inl hb'⟩

end Machine

/-- **Checked code is safe.** A routine that passes the check links, by either linker, and however
its run is entered and whatever its helpers do: every configuration it gets to is safe, every
helper it calls answers with a value of the type its signature names, and what it returns is the
datum in the register of a return. -/
theorem Routine.safe_of_verify (code : Routine) (backend : Backend)
    (hverify : code.verify = .ok ()) :
    ∃ linked, code.link backend = .ok linked ∧
      ∀ (re : Reenter) (pins : Pins) (block : Int) (w : World),
        (∀ c, Machine.Reaches re pins linked block (Machine.start linked w) c →
          c.Safe linked ∧
          (∀ dst helper args rest v w', c.rest = .call dst helper args :: rest →
            callHelper re (.registers c.regs :: pins) helper (args.map (readReg c.regs)) c.world =
              .ok (v, w') →
            v.Answers helper.signature.ret)) ∧
        ∀ fuel r w', runCode re fuel pins linked block w = .ok (r, w') →
          ∃ c b, Machine.Reaches re (.constants linked.constants :: pins) linked block
              (Machine.start linked w) c ∧
            c.world = w' ∧ c.rest = [] ∧ linked.blocks[c.position]? = some b ∧
            (b.exit = .unreachable ∨
              ∃ value, b.exit = .ret value ∧ c.regs[value.index]? = some (.datum r)) := by
  obtain ⟨-, hentry, hblocks⟩ := code.check_eq_ok_iff.mp (code.verify_eq_ok_iff.mp hverify)
  obtain ⟨linked, hlink, hfollows⟩ := code.exists_link backend hentry
    fun b hb => mem_labels_of_typed (hblocks b hb).exit
  have htyped := hfollows.typed hblocks
  refine ⟨linked, hlink, fun re pins block w => ⟨fun c hreach => ⟨?_, ?_⟩, ?_⟩⟩
  · exact Machine.safe_of_reaches htyped hreach
  · intro dst helper args rest v w' _ hcall
    exact callHelper_answers _ _ _ _ _ _ _ hcall
  · intro fuel r w' hrun
    obtain ⟨c, hreach, hstep⟩ := Machine.exists_runCode_iff.mp ⟨fuel, hrun⟩
    have hsafe := Machine.safe_of_reaches htyped hreach
    obtain ⟨hrest, hworld, b, hb, hexit⟩ := Machine.returned_of_safe hsafe hstep
    exact ⟨c, b, hreach, hworld, hrest, hb, hexit⟩

/-- A routine that gives its repetition number plus one as a word, in two blocks. -/
def nextRepcount : Routine where
  name := "NEXT"
  blocks :=
    [⟨⟨0⟩, [.call (some ⟨0⟩) .repcount [], .real ⟨1⟩ 1.0, .arith ⟨0⟩ .add ⟨0⟩ ⟨1⟩], .jump ⟨1⟩⟩,
      ⟨⟨1⟩, [.call (some ⟨2⟩) .wordFromReal [⟨0⟩]], .ret ⟨2⟩⟩]
  entry := ⟨0⟩
  types := #[.real, .real, .datum]
  constants := #[]

/-- The check accepts `nextRepcount`, so its runs are safe. -/
theorem safe_nextRepcount :
    nextRepcount.verify = .ok () ∧
      ∃ linked, nextRepcount.link .machine = .ok linked ∧
        ∀ re pins block w c, Machine.Reaches re pins linked block (Machine.start linked w) c →
          c.Safe linked := by
  refine ⟨rfl, ?_⟩
  obtain ⟨linked, hlink, h⟩ := nextRepcount.safe_of_verify .machine rfl
  exact ⟨linked, hlink, fun re pins block w c hreach => ((h re pins block w).1 c hreach).1⟩

end LogoEngine
