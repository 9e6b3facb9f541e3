import LogoEngine.Proofs.Machine.Assertions

/-!
# Assertions along emitters

`Watch.Emits` follows an assertion along an emitter: from where the code starts to where it ends,
with assertions of its choice for the labels it hands out. Code **spares** the registers below a
bound if every assertion about them that lasts while the evaluator changes holds after the code if it
held before it (`Watch.Spares`). What the code does to newer registers does not matter, nor where it
goes in between.

Main statement: every emitter that calls ordinary helpers only has an instance of `Watch.Spares`.
-/

namespace LogoEngine

namespace Watch

variable (k : Watch) {α β : Type}

/-- The registers, constants and blocks of a draft are those of the code. A block that is still open
is no matter. -/
structure Fits (d : Draft) : Prop where
  types : d.types.toList <+: k.code.types.toList
  constants : d.constants.toList <+: k.code.constants.toList
  blocks : ∀ b ∈ d.blocks, b.exit ≠ .unreachable → k.has b

/-- The open block leads from the assertion of its label to another one, and what its instructions
ask for is so. -/
def Here (ann : Annotation) (d : Draft) (P : Assertion) : Prop :=
  (∀ before i after, d.body.toList = before ++ i :: after → k.Asks ann d.label before i) ∧
    ∀ w regs, k.Sized regs → ann d.label w regs → k.Along d.body.toList P w regs

/-- What was added between two drafts has a valid annotation, if the open block of the first draft
leads to an assertion. Something is known of the annotation before, and something is after. -/
def Between (known : Annotation → Prop) (d d' : Draft) (P : Assertion)
    (learnt : Annotation → Prop) : Prop :=
  k.Fits d' → ∃ fresh : Annotation, ∀ ann, known ann →
    (∀ l : Label, d.nextLabel ≤ l.index → l.index < d'.nextLabel → ann l = fresh l) →
    k.Here ann d P → (∀ b ∈ d'.blocks, b ∈ d.blocks ∨ k.Valid ann b) ∧ learnt ann

/-- An emitter leads from one assertion to another. -/
def Emits (known : Annotation → Prop) (m : Emit α) (d : Draft) (P : Assertion)
    (Q : α → Draft → Assertion) : Prop :=
  k.Between known d (m d).2 P fun ann => k.Here ann (m d).2 (Q (m d).1 (m d).2)

variable {k} {known : Annotation → Prop} {m : Emit α} {f : α → Emit β} {d : Draft}
  {P : Assertion} {Q : α → Draft → Assertion} {R : β → Draft → Assertion}

/-! ### Rules -/

theorem Fits.of_within {d' : Draft} (h : k.Fits d') (hwithin : d.Within d'.closed) : k.Fits d := by
  refine ⟨hwithin.types.trans h.types, hwithin.constants.trans h.constants, fun b hb hexit => ?_⟩
  rcases Array.mem_push.mp (hwithin.blocks b hb) with hb | rfl
  · exact h.blocks b hb hexit
  · exact absurd rfl hexit

theorem Here.mono {ann : Annotation} {P' : Assertion} (h : k.Here ann d P)
    (hP : ∀ w regs, k.Sized regs → P w regs → P' w regs) : k.Here ann d P' :=
  ⟨h.1, fun w regs hsized hl => (h.2 w regs hsized hl).mono hsized hP⟩

namespace Between

variable {d₁ d' : Draft} {P' Q : Assertion} {known' learnt learnt' : Annotation → Prop}

/-- Nothing was added to the blocks. -/
theorem of_blocks (hblocks : d'.blocks = d.blocks)
    (hlearnt : ∀ ann, known ann → k.Here ann d P → learnt ann) : k.Between known d d' P learnt :=
  fun _ => ⟨fun _ => P, fun ann hknown _ hhere =>
    ⟨fun _ hb => .inl (hblocks ▸ hb), hlearnt ann hknown hhere⟩⟩

protected theorem trans (h : k.Between known d d₁ P learnt)
    (h' : k.Between known' d₁ d' Q learnt')
    (hnext : ∀ ann, known ann → learnt ann → known' ann ∧ k.Here ann d₁ Q)
    (hle : d.nextLabel ≤ d₁.nextLabel) (hwithin : d₁.Within d'.closed) :
    k.Between known d d' P learnt' := by
  intro hfits
  obtain ⟨fresh₁, h⟩ := h (hfits.of_within hwithin)
  obtain ⟨fresh₂, h'⟩ := h' hfits
  refine ⟨fun l => if l.index < d₁.nextLabel then fresh₁ l else fresh₂ l,
    fun ann hknown hfresh hhere => ?_⟩
  obtain ⟨hblocks, hlearnt⟩ := h ann hknown (fun l hl hlt =>
    (hfresh l hl (Nat.lt_of_lt_of_le hlt hwithin.labels)).trans (if_pos hlt)) hhere
  obtain ⟨hknown', hhere'⟩ := hnext ann hknown hlearnt
  obtain ⟨hblocks', hlearnt'⟩ := h' ann hknown' (fun l hl hlt =>
    (hfresh l (hle.trans hl) hlt).trans (if_neg (Nat.not_lt.mpr hl))) hhere'
  exact ⟨fun b hb => (hblocks' b hb).elim (hblocks b) .inr, hlearnt'⟩

theorem mono (h : k.Between known d d' P learnt)
    (hlearnt : ∀ ann, known ann → learnt ann → learnt' ann) : k.Between known d d' P learnt' := by
  intro hfits
  obtain ⟨fresh, h⟩ := h hfits
  exact ⟨fresh, fun ann hknown hfresh hhere =>
    (h ann hknown hfresh hhere).imp_right (hlearnt ann hknown)⟩

theorem weaken_known (h : k.Between known d d' P learnt)
    (hknown : ∀ ann, known' ann → known ann) : k.Between known' d d' P learnt := by
  intro hfits
  obtain ⟨fresh, h⟩ := h hfits
  exact ⟨fresh, fun ann hknown' => h ann (hknown ann hknown')⟩

/-- A new label gets an assertion. -/
theorem freshLabel (A : Assertion) : k.Between known d (Emit.freshLabel d).2 P
    fun ann => ann ⟨d.nextLabel⟩ = A ∧ k.Here ann (Emit.freshLabel d).2 P :=
  fun _ => ⟨fun _ => A, fun _ _ hfresh hhere => ⟨fun _ hb => .inl hb,
    hfresh ⟨d.nextLabel⟩ le_rfl (Nat.lt_succ_self _), hhere⟩⟩

end Between

theorem append_cons_ne_nil {before after : List α} {i : α} : before ++ i :: after ≠ [] := by
  simp

/-- Where an element stands in a list to which one was added. -/
theorem eq_or_exists_of_append_singleton {is before after : List α} {i j : α}
    (h : before ++ j :: after = is ++ [i]) :
    (before = is ∧ j = i) ∨ ∃ after', is = before ++ j :: after' := by
  rcases List.eq_nil_or_concat after with rfl | ⟨after', k, rfl⟩
  · obtain ⟨hbefore, hj⟩ := List.append_inj' h rfl
    exact .inl ⟨hbefore, List.cons.inj hj |>.1⟩
  · rw [List.concat_eq_append, ← List.cons_append, ← List.append_assoc] at h
    exact .inr ⟨after', (List.append_inj' h rfl).1.symm⟩

namespace Emits

protected theorem pure {a : α} : k.Emits known (pure a) d P fun _ _ => P :=
  .of_blocks rfl fun _ _ hhere => hhere

protected theorem bind [Emit.Grows m] [hf : Emit.GrowsAll f] (h : k.Emits known m d P Q)
    (hnext : k.Emits known (f (m d).1) (m d).2 (Q (m d).1 (m d).2) R) :
    k.Emits known (m >>= f) d P R :=
  Between.trans h hnext (fun _ hknown hhere => ⟨hknown, hhere⟩) (Emit.Grows.nextLabel_le m d)
    ((hf.grows _).within (Draft.within_closed _))

theorem mono {Q' : α → Draft → Assertion} (h : k.Emits known m d P Q)
    (hQ : ∀ w regs, k.Sized regs → Q (m d).1 (m d).2 w regs → Q' (m d).1 (m d).2 w regs) :
    k.Emits known m d P Q' :=
  Between.mono h fun _ _ hhere => hhere.mono hQ

theorem weaken_known {known' : Annotation → Prop} (h : k.Emits known m d P Q)
    (hknown : ∀ ann, known' ann → known ann) : k.Emits known' m d P Q :=
  Between.weaken_known h hknown

/-- A new register changes nothing. -/
theorem freshReg {ty : Ty} {f : Reg → Emit β}
    (h : k.Emits known (f ⟨d.types.size⟩) (Emit.freshReg ty d).2 P R) :
    k.Emits known (Emit.freshReg ty >>= f) d P R :=
  h

theorem typeOf {r : Reg} {f : Ty → Emit β}
    (h : k.Emits known (f (d.types.getD r.index .datum)) d P R) :
    k.Emits known (Emit.typeOf r >>= f) d P R :=
  h

/-- A new label gets an assertion. -/
theorem freshLabel (A : Assertion) {f : Label → Emit β} [hf : Emit.GrowsAll f]
    (h : k.Emits (fun ann => known ann ∧ ann ⟨d.nextLabel⟩ = A) (f ⟨d.nextLabel⟩)
      (Emit.freshLabel d).2 P R) : k.Emits known (Emit.freshLabel >>= f) d P R :=
  Between.trans (.freshLabel A) h (fun _ hknown hlearnt => ⟨⟨hknown, hlearnt.1⟩, hlearnt.2⟩)
    (Nat.le_succ _) ((hf.grows _).within (Draft.within_closed _))

/-- An instruction is added to the open block. -/
theorem instr {i : Instr} {Q : Assertion}
    (hasks : ∀ ann, known ann → k.Fits d → k.Asks ann d.label d.body.toList i)
    (h : ∀ w regs, d.types.size ≤ regs.size → P w regs → k.Along [i] Q w regs) :
    k.Emits known (Emit.instr i) d P fun _ _ => Q := by
  have hbody : (Emit.instr i d).2.body.toList = d.body.toList ++ [i] := Array.toList_push
  refine fun hfits => ⟨fun _ => P, fun ann hknown _ hhere => ⟨fun b hb => .inl hb, ?_, ?_⟩⟩
  · intro before j after hj
    rw [hbody] at hj
    rcases eq_or_exists_of_append_singleton hj.symm with ⟨rfl, rfl⟩ | ⟨after', hj'⟩
    · exact hasks ann hknown ⟨hfits.types, hfits.constants, hfits.blocks⟩
    · exact hhere.1 before j after' hj'
  · intro w regs hsized hl
    have hsize : d.types.toList.length ≤ k.code.types.toList.length := hfits.types.length_le
    simp only [Array.length_toList] at hsize
    rw [hbody, along_append]
    exact (hhere.2 w regs hsized hl).mono hsized fun w₁ regs₁ hsized₁ => h w₁ regs₁ (hsized₁ ▸ hsize)

/-- A value is computed into a new register. -/
theorem newReg {ty : Ty} {i : Reg → Instr} {Q : Assertion}
    (hasks : ∀ ann, known ann → k.Fits d →
      k.Asks ann d.label d.body.toList (i ⟨d.types.size⟩))
    (h : ∀ w regs, d.types.size < regs.size → P w regs → k.Along [i ⟨d.types.size⟩] Q w regs) :
    k.Emits known (do let dst ← Emit.freshReg ty; Emit.instr (i dst); return dst) d P
      fun _ _ => Q := by
  refine Emits.instr (d := (Emit.freshReg ty d).2) (fun ann hknown hfits => hasks ann hknown ?_)
    fun w regs hsize hw => h w regs (Nat.lt_of_succ_le (by simpa [Emit.freshReg] using hsize)) hw
  have hbegins : d.types.toList <+: (d.types.push ty).toList := by
    rw [Array.toList_push]
    exact List.prefix_append _ _
  exact ⟨hbegins.trans hfits.types, hfits.constants, hfits.blocks⟩

/-- The open block is closed, and another one is opened. -/
theorem endBlock {exit : Exit} {next : Label} {Q : Assertion}
    (h : ∀ ann, known ann → ann next = Q ∧
      ∀ w regs, k.Sized regs → P w regs → k.Leaves ann exit w regs) :
    k.Emits known (Emit.endBlock exit next) d P fun _ _ => Q := by
  refine fun _ => ⟨fun _ => P, fun ann hknown _ hhere => ⟨fun b hb => ?_, ?_⟩⟩
  · rcases Array.mem_push.mp hb with hb | rfl
    · exact .inl hb
    · exact .inr ⟨hhere.1, fun w regs hsized hl =>
        (hhere.2 w regs hsized hl).mono hsized (h ann hknown).2⟩
  · refine ⟨fun _ _ _ hbody => absurd hbody.symm append_cons_ne_nil, fun w regs _ hl => ?_⟩
    have hl : ann next w regs := hl
    rw [(h ann hknown).1] at hl
    exact hl

end Emits

/-! ### Code that spares registers -/

/-- An assertion about the registers below a bound that lasts while the evaluator changes. -/
structure Kept (k : Watch) (n : Nat) (P : Assertion) : Prop where
  follows : ∀ {w w' : World} {regs regs' : Array Value}, P w regs → k.follows w w' →
    (∀ r : Reg, r.index < n → readReg regs' r = readReg regs r) → P w' regs'

/-- An assertion that lasts and is enough for the code to return. -/
structure Stable (k : Watch) (n : Nat) (P : Assertion) : Prop extends k.Kept n P where
  returns : ∀ {w regs}, P w regs → k.returns w

theorem Kept.mono {n n' : Nat} (h : k.Kept n P) (hle : n ≤ n') : k.Kept n' P :=
  ⟨fun hP hfollows hregs => h.follows hP hfollows fun r hr => hregs r (Nat.lt_of_lt_of_le hr hle)⟩

theorem Stable.mono {n n' : Nat} (h : k.Stable n P) (hle : n ≤ n') : k.Stable n' P :=
  ⟨h.toKept.mono hle, h.returns⟩

/-- Code that keeps every lasting assertion about the registers below a bound that is as strong as
a given one. The given registers are not below the bound, and the given labels have the same
assertion. -/
class Spares (k : Watch) (given : Assertion) (n : Nat) (regs : List Reg) (labels : List Label)
    (m : Emit α) : Prop where
  emits : ∀ {d P}, n ≤ d.types.size → (∀ r ∈ regs, n ≤ r.index) → k.Kept n P →
    (∀ w found, P w found → given w found) →
    k.Emits (fun ann => ∀ l ∈ labels, ann l = P) m d P fun _ _ => P
  grows : Emit.Grows m := by infer_instance

/-- The code may return. -/
def Done (k : Watch) : Assertion :=
  fun w _ => k.returns w

/-- An assertion that is enough for the code to return. -/
class Allows (k : Watch) (given : Assertion) : Prop where
  returns : ∀ {w regs}, given w regs → k.returns w

instance : k.Allows k.Done :=
  ⟨id⟩

theorem Spares.emits_stable {n : Nat} {regs : List Reg} {labels : List Label}
    (h : k.Spares k.Done n regs labels m) (hn : n ≤ d.types.size) (hregs : ∀ r ∈ regs, n ≤ r.index)
    (hP : k.Stable n P) : k.Emits (fun ann => ∀ l ∈ labels, ann l = P) m d P fun _ _ => P :=
  h.emits hn hregs hP.toKept fun _ _ => hP.returns

/-- A register or label among others. -/
class Known {γ : Type} (c : γ) (cs : List γ) : Prop where
  mem : c ∈ cs

instance {γ : Type} (c : γ) (cs : List γ) : Known c (c :: cs) :=
  ⟨List.mem_cons_self⟩

instance {γ : Type} (c c' : γ) (cs : List γ) [h : Known c cs] : Known c (c' :: cs) :=
  ⟨List.mem_cons_of_mem _ h.mem⟩

/-- A helper that may be called with anything and changes nothing that matters. -/
class Calm (k : Watch) (helper : Helper) : Prop where
  ends : helper = .endCatch → ∀ before args, k.ends before args
  ready : ∀ args w, k.ready helper args w
  follows : ∀ {pins args w v w'}, callHelper k.re pins helper args w = .ok (v, w') →
    k.follows w w'

/-- An instruction that may be carried out where something is given, and that writes none but some
registers. -/
class Mild (k : Watch) (given : Assertion) (dsts : List Reg) (i : Instr) : Prop where
  asks : ∀ ann label before, k.Asks ann label before i
  ready : ∀ {w regs}, given w regs → k.Ready i w regs
  spares : ∀ {w regs regs' w'}, given w regs →
    runInstr k.re k.pins k.code k.block regs i w = .ok (regs', w') →
    k.follows w w' ∧ ∀ r : Reg, (∀ dst ∈ dsts, r.index ≠ dst.index) →
      readReg regs' r = readReg regs r

/-- Such an instruction keeps what lasts. -/
theorem Kept.emits_instr {given : Assertion} {n : Nat} {i : Instr} (hP : k.Kept n P)
    (hgiven : ∀ w found, P w found → given w found) (regs : List Reg) [hi : k.Mild given regs i]
    (hregs : ∀ r ∈ regs, n ≤ r.index) : k.Emits known (Emit.instr i) d P fun _ _ => P := by
  refine .instr (fun ann _ _ => hi.asks ann d.label d.body.toList) fun w found _ hw =>
    ⟨hi.ready (hgiven w found hw), fun _ _ hrun => ?_⟩
  obtain ⟨hfollows, hspares⟩ := hi.spares (hgiven w found hw) hrun
  exact hP.follows hw hfollows fun r hr => hspares r fun dst hdst =>
    Nat.ne_of_lt (Nat.lt_of_lt_of_le hr (hregs dst hdst))

section

variable {given : Assertion} {n : Nat} {regs : List Reg} {labels : List Label}

instance (a : α) : k.Spares given n regs labels (pure a) where
  emits _ _ _ _ := .pure

/-- More labels may be known. -/
theorem Spares.weaken {labels' : List Label} (h : k.Spares given n regs labels m)
    (hlabels : labels ⊆ labels') : k.Spares given n regs labels' m where
  emits hn hregs hP hgiven :=
    (h.emits hn hregs hP hgiven).weaken_known fun _ hann l hl => hann l (hlabels hl)
  grows := h.grows

theorem Spares.bind (hm : k.Spares given n regs labels m)
    (hf : ∀ a, k.Spares given n regs labels (f a)) : k.Spares given n regs labels (m >>= f) :=
  have := hm.grows
  have (a : α) := (hf a).grows
  { emits {d _} hn hregs hP hgiven :=
      have hsize : d.types.size ≤ (m d).2.types.size := by
        simpa using (Emit.Grows.types_prefix m d).length_le
      .bind (hm.emits hn hregs hP hgiven) ((hf _).emits (hn.trans hsize) hregs hP hgiven) }

instance [hm : k.Spares given n regs labels m] [hf : ∀ a, k.Spares given n regs labels (f a)] :
    k.Spares given n regs labels (m >>= f) :=
  hm.bind hf

/-- What follows a step without a result does not depend on it. -/
instance {m : Emit Unit} {f : Unit → Emit β} [hm : k.Spares given n regs labels m]
    [hf : k.Spares given n regs labels (f ())] : k.Spares given n regs labels (m >>= f) :=
  hm.bind fun _ => hf

instance {f : α → β} [k.Spares given n regs labels m] : k.Spares given n regs labels (f <$> m) := by
  rw [map_eq_pure_bind]; infer_instance

instance {c : Prop} [Decidable c] {m m' : Emit α} [k.Spares given n regs labels m]
    [k.Spares given n regs labels m'] : k.Spares given n regs labels (if c then m else m') := by
  split <;> infer_instance

/-- A new register is not below the bound. -/
theorem Spares.freshReg {ty : Ty} {f : Reg → Emit β}
    (hf : ∀ r, k.Spares given n (r :: regs) labels (f r)) :
    k.Spares given n regs labels (Emit.freshReg ty >>= f) :=
  have (r : Reg) := (hf r).grows
  { emits {d _} hn hregs hP hgiven := by
      refine .freshReg ((hf ⟨d.types.size⟩).emits ?_ ?_ hP hgiven)
      · exact hn.trans (by simp [Emit.freshReg])
      · exact List.forall_mem_cons.mpr ⟨hn, hregs⟩ }

instance {ty : Ty} {f : Reg → Emit β} [hf : ∀ r, k.Spares given n (r :: regs) labels (f r)] :
    k.Spares given n regs labels (Emit.freshReg ty >>= f) :=
  .freshReg hf

/-- A new label gets the same assertion. -/
theorem Spares.freshLabel {f : Label → Emit β}
    (hf : ∀ l, k.Spares given n regs (l :: labels) (f l)) :
    k.Spares given n regs labels (Emit.freshLabel >>= f) :=
  have (l : Label) := (hf l).grows
  { emits {d P} hn hregs hP hgiven := by
      have hrest := (hf ⟨d.nextLabel⟩).emits (d := (Emit.freshLabel d).2) hn hregs hP hgiven
      exact .freshLabel P (hrest.weaken_known fun ann hknown =>
        List.forall_mem_cons.mpr ⟨hknown.2, hknown.1⟩) }

instance {f : Label → Emit β} [hf : ∀ l, k.Spares given n regs (l :: labels) (f l)] :
    k.Spares given n regs labels (Emit.freshLabel >>= f) :=
  .freshLabel hf

theorem Spares.typeOf {r : Reg} {f : Ty → Emit β} (hf : ∀ ty, k.Spares given n regs labels (f ty)) :
    k.Spares given n regs labels (Emit.typeOf r >>= f) :=
  have (ty : Ty) := (hf ty).grows
  { emits hn hregs hP hgiven := .typeOf ((hf _).emits hn hregs hP hgiven) }

instance (c : Ref) : k.Spares given n regs labels (Emit.slot c) where
  emits {d P} _ _ _ _ _ := by
    refine ⟨fun _ => P, fun _ _ _ hhere => ?_⟩
    unfold Emit.slot
    split
    · exact ⟨fun _ hb => .inl hb, hhere⟩
    · exact ⟨fun _ hb => .inl hb, hhere⟩

instance (i : Instr) [k.Mild given regs i] : k.Spares given n regs labels (Emit.instr i) where
  emits _ hregs hP hgiven := hP.emits_instr hgiven regs hregs

/-! ### Ends of blocks -/

instance (target next : Label) [htarget : Known target labels] [hnext : Known next labels] :
    k.Spares given n regs labels (Emit.endBlock (.jump target) next) where
  emits _ _ _ _ := .endBlock fun ann hknown => ⟨hknown next hnext.mem, fun w regs _ hw => by
    rw [Leaves, hknown target htarget.mem]
    exact hw⟩

instance (cond : Reg) (yes no next : Label) [hyes : Known yes labels] [hno : Known no labels]
    [hnext : Known next labels] :
    k.Spares given n regs labels (Emit.endBlock (.branch cond yes no) next) where
  emits _ _ _ _ := .endBlock fun ann hknown => ⟨hknown next hnext.mem, fun w regs _ hw => by
    simp only [Leaves, hknown yes hyes.mem, hknown no hno.mem, ite_self]
    exact hw⟩

instance (value : Reg) (next : Label) [hgiven : k.Allows given] [hnext : Known next labels] :
    k.Spares given n regs labels (Emit.endBlock (.ret value) next) where
  emits _ _ _ hP := .endBlock fun _ hknown =>
    ⟨hknown next hnext.mem, fun w found _ hw => hgiven.returns (hP w found hw)⟩

/-! ### Instructions -/

/-- An operation that asks nothing of its second operand. -/
class Divides (k : Watch) (op : ArithOp) : Prop where
  divides : op = .div → ∀ v, k.divides v

instance : k.Divides .add := ⟨nofun⟩
instance : k.Divides .sub := ⟨nofun⟩
instance : k.Divides .mul := ⟨nofun⟩

theorem Divides.ready {op : ArithOp} [hop : k.Divides op] (dst a b : Reg) (w : World)
    (found : Array Value) : k.Ready (.arith dst op a b) w found := by
  cases op with
  | div => exact hop.divides rfl _
  | _ => trivial

/-- A comparison that asks nothing of its second operand and of the annotation. -/
class Compares (k : Watch) (op : CompareOp) : Prop where
  counts : op = .eq → ∀ v, k.counts v
  equates : op = .eq → ∀ ann label a b, k.equates ann label a b

instance : k.Compares .ne := ⟨nofun, nofun⟩
instance : k.Compares .lt := ⟨nofun, nofun⟩
instance : k.Compares .le := ⟨nofun, nofun⟩
instance : k.Compares .gt := ⟨nofun, nofun⟩
instance : k.Compares .ge := ⟨nofun, nofun⟩

theorem Compares.ready {op : CompareOp} [hop : k.Compares op] (dst a b : Reg) (w : World)
    (found : Array Value) : k.Ready (.compare dst op a b) w found := by
  cases op with
  | eq => exact hop.counts rfl _
  | _ => trivial

theorem Compares.asks {op : CompareOp} [hop : k.Compares op] (dst a b : Reg) (ann : Annotation)
    (label : Label) (before : List Instr) : k.Asks ann label before (.compare dst op a b) := by
  cases op with
  | eq => exact hop.equates rfl _ _ _ _
  | _ => trivial

/-- Only the end of a catch asks for anything among the calls of helpers. -/
theorem asks_call {helper : Helper} (h : helper = .endCatch → ∀ before args, k.ends before args)
    (dst : Option Reg) (args : List Reg) (ann : Annotation) (label : Label) (before : List Instr) :
    k.Asks ann label before (.call dst helper args) := by
  cases helper with
  | endCatch => exact h rfl _ _
  | _ => trivial

theorem Mild.of_value {i : Instr} {dst : Reg} (hdst : dst ∈ regs)
    (hasks : ∀ ann label before, k.Asks ann label before i) (hready : ∀ w found, k.Ready i w found)
    (hi : ∀ found w, ∃ v,
      runInstr k.re k.pins k.code k.block found i w = .ok (writeReg found dst v, w)) :
    k.Mild given regs i where
  asks := hasks
  ready _ := hready _ _
  spares {w found found' w'} _ hrun := by
    obtain ⟨v, hv⟩ := hi found w
    rw [hv] at hrun
    cases hrun
    exact ⟨k.refl w, fun r hr => readReg_writeReg_of_ne (hr dst hdst)⟩

section

variable (dst a b : Reg) [hdst : Known dst regs]

instance (x : Float) : k.Mild given regs (.real dst x) :=
  .of_value hdst.mem (fun _ _ _ => trivial) (fun _ _ => trivial) fun _ _ => ⟨_, rfl⟩
instance (t : Bool) : k.Mild given regs (.truth dst t) :=
  .of_value hdst.mem (fun _ _ _ => trivial) (fun _ _ => trivial) fun _ _ => ⟨_, rfl⟩
instance (slot : Nat) : k.Mild given regs (.const dst slot) :=
  .of_value hdst.mem (fun _ _ _ => trivial) (fun _ _ => trivial) fun _ _ => ⟨_, rfl⟩
instance (id : Int) : k.Mild given regs (.atBlock dst id) :=
  .of_value hdst.mem (fun _ _ _ => trivial) (fun _ _ => trivial) fun _ _ => ⟨_, rfl⟩
instance (op : ArithOp) [k.Divides op] : k.Mild given regs (.arith dst op a b) :=
  .of_value hdst.mem (fun _ _ _ => trivial) (Divides.ready dst a b) fun _ _ => ⟨_, rfl⟩
instance : k.Mild given regs (.neg dst a) :=
  .of_value hdst.mem (fun _ _ _ => trivial) (fun _ _ => trivial) fun _ _ => ⟨_, rfl⟩
instance (op : CompareOp) [k.Compares op] : k.Mild given regs (.compare dst op a b) :=
  .of_value hdst.mem (Compares.asks dst a b) (Compares.ready dst a b) fun _ _ => ⟨_, rfl⟩
instance : k.Mild given regs (.isInt dst a) :=
  .of_value hdst.mem (fun _ _ _ => trivial) (fun _ _ => trivial) fun _ _ => ⟨_, rfl⟩
instance : k.Mild given regs (.not dst a) :=
  .of_value hdst.mem (fun _ _ _ => trivial) (fun _ _ => trivial) fun _ _ => ⟨_, rfl⟩
instance : k.Mild given regs (.and dst a b) :=
  .of_value hdst.mem (fun _ _ _ => trivial) (fun _ _ => trivial) fun _ _ => ⟨_, rfl⟩
instance : k.Mild given regs (.move dst a) :=
  .of_value hdst.mem (fun _ _ _ => trivial) (fun _ _ => trivial) fun _ _ => ⟨_, rfl⟩

instance (helper : Helper) [hh : k.Calm helper] (args : List Reg) :
    k.Mild given regs (.call (some dst) helper args) where
  asks := asks_call hh.ends _ _
  ready _ := hh.ready _ _
  spares {w found found' w'} _ hrun := by
    obtain ⟨out, w₁, hcall, hrest⟩ := Run.bind_eq_ok hrun
    cases hrest
    exact ⟨hh.follows hcall, fun r hr => readReg_writeReg_of_ne (hr dst hdst.mem)⟩

end

instance (helper : Helper) [hh : k.Calm helper] (args : List Reg) :
    k.Mild given regs (.call none helper args) where
  asks := asks_call hh.ends _ _
  ready _ := hh.ready _ _
  spares {w found found' w'} _ hrun := by
    obtain ⟨out, w₁, hcall, hrest⟩ := Run.bind_eq_ok hrun
    cases hrest
    exact ⟨hh.follows hcall, fun _ _ => rfl⟩

end

/-! ### Helpers -/

/-- A truth value that instances can be made to depend on. -/
class IsTrue (b : Bool) : Prop where
  out : b = true

instance : IsTrue true := ⟨rfl⟩

/-- Routines for every operand. -/
@[reducible]
def totalMath : MathFn → Bool
  | .exp | .trunc | .round | .sin | .cos | .atan | .atan2 => true
  | _ => false

/-- Helpers that neither set the number of repetitions, end a `CATCH`, keep or run what they are
given, and that are for every operand. -/
@[reducible]
def ordinary : Helper → Bool
  | .setRepcount | .endCatch | .runList | .runResult | .runProcedure | .continuationToken | .setVar
  | .data _ | .random | .randomRange => false
  | .math f => totalMath f
  | _ => true

/-- Ordinary helpers may be called with anything and change nothing that matters. -/
class Ordinary (k : Watch) : Prop where
  calm : ∀ {helper}, ordinary helper = true → k.Calm helper

instance (helper : Helper) [hk : k.Ordinary] [hh : IsTrue (ordinary helper)] : k.Calm helper :=
  hk.calm hh.out

/-- A watch that asks nothing of operands: it is no matter what is divided, drawn, compared or given
to a routine. -/
class Lax (k : Watch) : Prop where
  divides : ∀ v, k.divides v
  counts : ∀ v, k.counts v
  equates : ∀ ann label a b, k.equates ann label a b
  math : ∀ f, k.Calm (.math f)
  random : k.Calm .random
  randomRange : k.Calm .randomRange

attribute [instance] Lax.math Lax.random Lax.randomRange

instance (op : ArithOp) [hk : k.Lax] : k.Divides op := ⟨fun _ => hk.divides⟩
instance (op : CompareOp) [hk : k.Lax] : k.Compares op := ⟨fun _ => hk.counts, fun _ => hk.equates⟩

/-- Running lists and procedures, storing and passing on changes nothing that matters. -/
class Running (k : Watch) : Prop where
  runList : k.Calm .runList
  runResult : k.Calm .runResult
  runProcedure : k.Calm .runProcedure
  continuationToken : k.Calm .continuationToken
  setVar : k.Calm .setVar
  data : ∀ op, k.Calm (.data op)

attribute [instance] Running.runList Running.runResult Running.runProcedure
  Running.continuationToken Running.setVar Running.data

/-! ### Emitters -/

section

variable {given : Assertion} {n : Nat} {regs : List Reg} {labels : List Label}

instance (f : β → α → Emit β) [∀ b a, k.Spares given n regs labels (f b a)] (b : β)
    (as : List α) : k.Spares given n regs labels (as.foldlM f b) := by
  induction as generalizing b with
  | nil => rw [List.foldlM_nil]; infer_instance
  | cons a as _ => rw [List.foldlM_cons]; infer_instance

instance (f : α → Emit β) [∀ a, k.Spares given n regs labels (f a)] (as : List α) :
    k.Spares given n regs labels (as.mapM f) := by
  induction as with
  | nil => rw [List.mapM_nil]; infer_instance
  | cons a as _ => rw [List.mapM_cons]; infer_instance

instance (f : α → Emit β) [∀ a, k.Spares given n regs labels (f a)] (o : Option α) :
    k.Spares given n regs labels (o.mapM f) := by
  cases o with
  | none => rw [Option.mapM_none]; infer_instance
  | some a => rw [Option.mapM_some]; infer_instance

open Emit

instance (x : Float) : k.Spares given n regs labels (real x) := by unfold real; infer_instance
instance (t : Bool) : k.Spares given n regs labels (truth t) := by unfold truth; infer_instance
instance (c : Ref) : k.Spares given n regs labels (const c) := by unfold const; infer_instance
instance : k.Spares given n regs labels nothing := by unfold nothing; infer_instance
instance (dst src : Reg) [Known dst regs] : k.Spares given n regs labels (move dst src) := by
  unfold move; infer_instance
instance (op : ArithOp) (a b : Reg) [k.Divides op] : k.Spares given n regs labels (arith op a b) := by
  unfold arith; infer_instance
instance (op : CompareOp) (a b : Reg) [k.Compares op] :
    k.Spares given n regs labels (Emit.compare op a b) := by
  unfold Emit.compare; infer_instance
instance (a : Reg) : k.Spares given n regs labels (isInt a) := by unfold isInt; infer_instance
instance (a : Reg) : k.Spares given n regs labels (not a) := by unfold Emit.not; infer_instance
instance (a b : Reg) : k.Spares given n regs labels (and a b) := by unfold Emit.and; infer_instance
instance (helper : Helper) [k.Calm helper] (rs : List Reg) : k.Spares given n regs labels (call helper rs) := by
  unfold call; infer_instance
instance (helper : Helper) [k.Calm helper] (rs : List Reg) :
    k.Spares given n regs labels (perform helper rs) := by
  unfold perform; infer_instance

instance (dst src : Reg) (target next : Label) [Known dst regs] [Known target labels]
    [Known next labels] : k.Spares given n regs labels (deliver dst src target next) := by
  unfold deliver; infer_instance

/-- The register of the result is not below the bound. -/
theorem Spares.ownResult {node : Ref} {f : Reg → Emit β}
    (hf : ∀ r, k.Spares given n (r :: regs) labels (f r)) :
    k.Spares given n regs labels (Emit.ownResult node >>= f) := by
  simp only [Emit.ownResult, bind_assoc, pure_bind]
  exact .freshReg fun r => .bind inferInstance fun _ => .bind inferInstance fun _ => hf r

instance (node : Ref) {f : Reg → Emit β}
    [hf : ∀ r, k.Spares given n (r :: regs) labels (f r)] :
    k.Spares given n regs labels (Emit.ownResult node >>= f) :=
  .ownResult hf

variable [k.Allows given]

instance (r : Reg) : k.Spares given n regs labels (returnNow r) := by unfold returnNow; infer_instance
instance (r : Reg) (build : Emit Reg) [∀ labels, k.Spares given n regs labels build] :
    k.Spares given n regs labels (returnWhen r build) := by
  unfold returnWhen; infer_instance

variable [k.Ordinary] (who node : Ref) (a b c : Reg) (request produced : Request)

instance : k.Spares given n regs labels (passToken a) := by unfold passToken; infer_instance

/-! ### Steps that lead elsewhere -/

section

variable (l l' l'' : Label) [hl : Known l labels] [hl' : Known l' labels] [hl'' : Known l'' labels]

instance : k.Spares given n regs labels (dislike who a) := by unfold dislike; infer_instance
instance : k.Spares given n regs labels (reject who a l) := by unfold reject; infer_instance
instance : k.Spares given n regs labels (askOrGiveUp l l') := by unfold askOrGiveUp; infer_instance
instance : k.Spares given n regs labels (askAgain who a) := by unfold askAgain; infer_instance
instance : k.Spares given n regs labels (branchOnData a l l' l'') := by
  unfold branchOnData; infer_instance

/-- Values of other kinds go to a new label, which gets the same assertion. -/
instance {mask : Nat} {f : Label → Emit β} [hf : ∀ l, k.Spares given n regs (l :: labels) (f l)] :
    k.Spares given n regs labels (whenKind mask a >>= f) := by
  simp only [whenKind, bind_assoc, pure_bind]
  refine .bind inferInstance fun _ => .freshLabel fun yes => .freshLabel fun no => ?_
  exact .bind inferInstance fun _ => (hf no).weaken (List.cons_subset_cons _ (by simp))

end

/-! ### Checked inputs and casts -/

instance (check : Reg → Emit Reg) [∀ labels r, k.Spares given n (r :: regs) labels (check r)] :
    k.Spares given n regs labels (retryDatum who a check) := by
  unfold retryDatum
  refine .freshReg fun _ => .bind inferInstance fun _ => ?_
  repeat refine .freshLabel fun _ => ?_
  repeat refine .bind inferInstance fun _ => ?_
  infer_instance
instance (check : Reg → Emit Reg)
    [∀ labels bad r, k.Spares given n (bad :: r :: regs) labels (check r)] :
    k.Spares given n regs labels (retryReal who a check) := by
  unfold retryReal
  refine .freshReg fun _ => .bind inferInstance fun _ => .freshReg fun _ => ?_
  repeat refine .freshLabel fun _ => ?_
  repeat refine .bind inferInstance fun _ => ?_
  infer_instance

instance : k.Spares given n regs labels (realFromDatum who a) := by
  unfold realFromDatum; infer_instance
instance : k.Spares given n regs labels (truthFromDatum who a) := by
  unfold truthFromDatum; infer_instance
instance (mask : Nat) : k.Spares given n regs labels (datumOfKind who mask a) := by
  unfold datumOfKind; infer_instance
instance : k.Spares given n regs labels (int32 who a) := by unfold int32; infer_instance
instance (op : CompareOp) [k.Compares op] :
    k.Spares given n regs labels (comparedToZero op who a) := by
  unfold comparedToZero; infer_instance
instance : k.Spares given n regs labels (nonzeroInt32 who a) := by unfold nonzeroInt32; infer_instance
instance : k.Spares given n regs labels (positiveInt32 who a) := by unfold positiveInt32; infer_instance
instance : k.Spares given n regs labels (Emit.count who a) := by unfold Emit.count; infer_instance

instance : k.Spares given n regs labels (requireNothing a) := by unfold requireNothing; infer_instance
instance : k.Spares given n regs labels (requireValue who a) := by unfold requireValue; infer_instance
instance : k.Spares given n regs labels (nativeFromDatum who a request) := by
  unfold nativeFromDatum; infer_instance
instance : k.Spares given n regs labels (placeholder request) := by unfold placeholder; infer_instance
instance : k.Spares given n regs labels (castBoxed a who request) := by unfold castBoxed; infer_instance
instance : k.Spares given n regs labels (castDatum a who produced request) := by
  unfold castDatum; infer_instance
instance : k.Spares given n regs labels (Emit.cast a who produced request) := by
  unfold Emit.cast
  refine .typeOf fun ty => ?_
  cases ty <;> infer_instance

/-! ### Arithmetic -/

instance (step : Reg → Reg → Emit Reg) [∀ a b, Grows (step a b)]
    [∀ a b, k.Spares given n regs labels (step a b)] (identity : Float) (rs : List Reg) :
    k.Spares given n regs labels (fold step identity rs) := by
  cases rs <;> unfold fold <;> infer_instance
instance : k.Spares given n regs labels (negate a) := by unfold negate; infer_instance
instance (f : MathFn) (degrees : Bool) [k.Calm (.math f)] :
    k.Spares given n regs labels (trigonometric f degrees a) := by
  unfold trigonometric; infer_instance
instance (degrees : Bool) : k.Spares given n regs labels (inUnit degrees a) := by
  unfold inUnit; infer_instance
instance (degrees : Bool) : k.Spares given n regs labels (arctangent degrees a) := by
  unfold arctangent; infer_instance
instance (degrees : Bool) : k.Spares given n regs labels (arctangentOf degrees a b) := by
  unfold arctangentOf; infer_instance
instance (rs : List Reg) : k.Spares given n regs labels (rerandom who node rs) := by
  cases rs <;> unfold rerandom <;> infer_instance
instance : k.Spares given n regs labels (form who a b c) := by unfold form; infer_instance
instance : k.Spares given n regs labels (infixFault who node) := by unfold infixFault; infer_instance

section

variable [k.Lax]

instance : k.Spares given n regs labels (reciprocal who a) := by unfold reciprocal; infer_instance
instance : k.Spares given n regs labels (quotient who a b) := by unfold quotient; infer_instance
instance (f : MathFn) : k.Spares given n regs labels (remainder f who a b) := by
  unfold remainder; infer_instance
instance : k.Spares given n regs labels (squareRoot who a) := by unfold squareRoot; infer_instance
instance (f : MathFn) : k.Spares given n regs labels (logarithm f who a) := by
  unfold logarithm; infer_instance
instance : k.Spares given n regs labels (power who a b) := by unfold power; infer_instance
instance (f : MathFn) (identity : Float) (rs : List Reg) :
    k.Spares given n regs labels (bitwise f identity who rs) := by
  unfold bitwise; infer_instance
instance : k.Spares given n regs labels (complement who a) := by unfold complement; infer_instance
instance (f : MathFn) : k.Spares given n regs labels (shift f who a b) := by unfold shift; infer_instance
instance : k.Spares given n regs labels (random who a) := by unfold random; infer_instance
instance : k.Spares given n regs labels (randomRange who a b) := by unfold randomRange; infer_instance

end

/-! ### Control structures -/

instance : k.Spares given n regs labels (runnable who a) := by unfold runnable; infer_instance
instance (helper : Helper) [k.Calm helper] (rs : List Reg) :
    k.Spares given n regs labels (leaveWith node helper rs) := by
  unfold leaveWith; infer_instance
instance : k.Spares given n regs labels (goto node a) := by unfold goto; infer_instance
instance (value : Option Reg) : k.Spares given n regs labels (throwing node a value) := by
  cases value <;> unfold throwing <;> infer_instance
instance (value : Option Reg) : k.Spares given n regs labels (resume node value) := by
  cases value <;> unfold resume <;> infer_instance
instance [k.Divides .add] [Known a regs] : k.Spares given n regs labels (countPass a b) := by
  unfold countPass; infer_instance
instance (wanted : Bool) : k.Spares given n regs labels (testedAs wanted) := by
  unfold testedAs; infer_instance

section

variable [k.Calm .setRepcount]

instance : k.Spares given n regs labels (leaveLoop a b) := by unfold leaveLoop; infer_instance
instance (next : Label) [Known next labels] :
    k.Spares given n regs labels (refuseData a b next) := by
  unfold refuseData; infer_instance
instance : k.Spares given n regs labels (passOutcome a b none) := by
  unfold passOutcome keepLast; infer_instance
instance (isLast result : Reg) (exit : Label) [Known result regs] [Known exit labels] :
    k.Spares given n regs labels (passOutcome a b (some (isLast, result, exit))) := by
  unfold passOutcome keepLast; infer_instance

end

/-! ### Data, variables, output and turtle -/

instance (helper : Helper) [k.Calm helper] (rs : List Reg) :
    k.Spares given n regs labels (ask helper rs) := by
  unfold ask; infer_instance
instance (helper : Helper) [k.Calm helper] (rs : List Reg) :
    k.Spares given n regs labels (askWithNode helper node rs) := by
  unfold askWithNode; infer_instance
instance (mode : WriteMode) (rs : List Reg) : k.Spares given n regs labels (write mode node rs) := by
  unfold write; infer_instance
instance : k.Spares given n regs labels (variableValue node) := by
  unfold variableValue; infer_instance

/-! ### Code that runs lists and procedures -/

section

variable [k.Running]

instance : k.Spares given n regs labels (runIfList who a) := by unfold runIfList; infer_instance
instance : k.Spares given n regs labels (condition who a) := by
  unfold condition
  refine .typeOf fun ty => ?_
  cases ty <;> infer_instance
instance : k.Spares given n regs labels (run who a) := by unfold run; infer_instance
instance : k.Spares given n regs labels (runResult who a) := by unfold runResult; infer_instance
instance (no : Option Reg) : k.Spares given n regs labels (runOther node no) := by
  cases no <;> unfold runOther <;> infer_instance
instance (no : Option Reg) : k.Spares given n regs labels (conditional who node a b no) := by
  unfold conditional
  repeat refine .bind inferInstance fun _ => ?_
  infer_instance
instance : k.Spares given n regs labels (test who node a) := by unfold test; infer_instance
instance (wanted : Bool) : k.Spares given n regs labels (ifTested wanted who node a) := by
  unfold ifTested
  repeat refine .bind inferInstance fun _ => ?_
  infer_instance
instance [k.Calm .endCatch] : k.Spares given n regs labels (catching who node a b) := by
  unfold catching; infer_instance
instance : k.Spares given n regs labels (assign who node a b) := by unfold assign; infer_instance
instance (rs : List Reg) : k.Spares given n regs labels (procedureCall node rs) := by
  unfold procedureCall; infer_instance

end

end

/-! ### Code with several assertions -/

theorem lt_size_freshReg {α : Type} (ty : Ty) (f : Reg → Emit α) [∀ r, Emit.Grows (f r)]
    (d : Draft) : d.types.size < ((Emit.freshReg ty >>= f) d).2.types.size := by
  have hle := (Emit.Grows.types_prefix (f ⟨d.types.size⟩) (Emit.freshReg ty d).2).length_le
  show d.types.size + 1 ≤ (f ⟨d.types.size⟩ (Emit.freshReg ty d).2).2.types.size
  simpa [Emit.freshReg] using hle

/-- An emitter leads from one assertion to another where the registers below a bound exist. -/
def EmitsAbove {α : Type} (k : Watch) (n : Nat) (known : Annotation → Prop) (m : Emit α) (d : Draft)
    (P : Assertion) (Q : α → Draft → Assertion) : Prop :=
  n ≤ d.types.size → k.Emits known m d P Q

namespace EmitsAbove

variable {α β : Type} {n : Nat} {known : Annotation → Prop} {d : Draft} {P H : Assertion}
  {m : Emit α} {f : α → Emit β} {Q : α → Draft → Assertion} {R : β → Draft → Assertion}

protected theorem bind [Emit.Grows m] [Emit.GrowsAll f] (h : k.EmitsAbove n known m d P Q)
    (hnext : k.EmitsAbove n known (f (m d).1) (m d).2 (Q (m d).1 (m d).2) R) :
    k.EmitsAbove n known (m >>= f) d P R := by
  intro hn
  have hbegins := (Emit.Grows.types_prefix m d).length_le
  simp only [Array.length_toList] at hbegins
  exact .bind (h hn) (hnext (hn.trans hbegins))

protected theorem pure {a : α} : k.EmitsAbove n known (pure a) d P fun _ _ => P :=
  fun _ => .pure

theorem freshReg {ty : Ty} {f : Reg → Emit β}
    (h : n ≤ d.types.size →
      k.EmitsAbove n known (f ⟨d.types.size⟩) (Emit.freshReg ty d).2 P R) :
    k.EmitsAbove n known (Emit.freshReg ty >>= f) d P R :=
  fun hn => .freshReg (h hn (hn.trans (by simp [Emit.freshReg])))

theorem freshLabel {f : Label → Emit β} [Emit.GrowsAll f] (A : Assertion)
    (h : k.EmitsAbove n (fun ann => known ann ∧ ann ⟨d.nextLabel⟩ = A) (f ⟨d.nextLabel⟩)
      (Emit.freshLabel d).2 P R) : k.EmitsAbove n known (Emit.freshLabel >>= f) d P R :=
  fun hn => .freshLabel A (h hn)

/-- A jump between places with one assertion. -/
theorem jump {target next : Label} (h : ∀ ann, known ann → ann target = H ∧ ann next = P) :
    k.EmitsAbove n known (Emit.endBlock (.jump target) next) d H fun _ _ => P :=
  fun _ => .endBlock fun ann hann => ⟨(h ann hann).2, fun _ _ _ hw => by
    rwa [Leaves, (h ann hann).1]⟩

/-- A branch to places with assertions of their own. -/
theorem branchOn {cond : Reg} {yes no next : Label} {A B : Assertion}
    (hyes : ∀ w regs, H w regs → (readReg regs cond).asTruth = true → A w regs)
    (hno : ∀ w regs, H w regs → (readReg regs cond).asTruth = false → B w regs)
    (h : ∀ ann, known ann → ann yes = A ∧ ann no = B ∧ ann next = P) :
    k.EmitsAbove n known (Emit.endBlock (.branch cond yes no) next) d H fun _ _ => P := by
  refine fun _ => .endBlock fun ann hann => ⟨(h ann hann).2.2, fun w regs _ hw => ?_⟩
  simp only [Leaves, (h ann hann).1, (h ann hann).2.1]
  split
  · next hcond => exact hyes w regs hw hcond
  · next hcond => exact hno w regs hw (by simpa using hcond)

theorem branch {cond : Reg} {yes no next : Label}
    (h : ∀ ann, known ann → ann yes = H ∧ ann no = H ∧ ann next = P) :
    k.EmitsAbove n known (Emit.endBlock (.branch cond yes no) next) d H fun _ _ => P :=
  .branchOn (fun _ _ hw _ => hw) (fun _ _ hw _ => hw) h

theorem ret {value : Reg} {next : Label} (hH : ∀ w regs, H w regs → k.returns w)
    (h : ∀ ann, known ann → ann next = P) :
    k.EmitsAbove n known (Emit.endBlock (.ret value) next) d H fun _ _ => P :=
  fun _ => .endBlock fun ann hann => ⟨h ann hann, fun w regs _ hw => hH w regs hw⟩

/-- Values that are computed into new registers keep what lasts. -/
theorem fresh {ty : Ty} {i : Reg → Instr} [hi : ∀ r, k.Mild (fun _ _ => True) [r] (i r)]
    (hH : k.Kept n H) :
    k.EmitsAbove n known (do let dst ← Emit.freshReg ty; Emit.instr (i dst); return dst) d H
      fun _ _ => H :=
  fun hn => .freshReg (.bind
    (hH.emits_instr (fun _ _ _ => trivial) [⟨d.types.size⟩] (by simpa using hn)) .pure)

/-- What is computed into a new register, from the registers there were. -/
theorem value {ty : Ty} {i : Reg → Instr} {f : World → Array Value → Value} (hP : k.Kept n P)
    (hasks : ∀ dst ann label before, k.Asks ann label before (i dst))
    (hH : ∀ dst w regs, H w regs → P w regs ∧ k.Ready (i dst) w regs)
    (hrun : ∀ dst w regs, runInstr k.re k.pins k.code k.block regs (i dst) w =
      .ok (writeReg regs dst (f w regs), w)) :
    k.EmitsAbove n known (do let dst ← Emit.freshReg ty; Emit.instr (i dst); return dst) d H
      fun r d' w regs => P w regs ∧ r = ⟨d.types.size⟩ ∧ d'.types.size = d.types.size + 1 ∧
        ∃ before, H w before ∧ readReg regs r = f w before ∧
          ∀ s : Reg, s.index ≠ d.types.size → readReg regs s = readReg before s := by
  intro hn
  have hvalue : k.Emits known (do let dst ← Emit.freshReg ty; Emit.instr (i dst); return dst) d H
      fun _ _ w regs => P w regs ∧ ∃ before, H w before ∧
        readReg regs ⟨d.types.size⟩ = f w before ∧
          ∀ s : Reg, s.index ≠ d.types.size → readReg regs s = readReg before s := by
    refine .newReg (fun ann _ _ => hasks _ ann _ _) fun w regs hsize hw =>
      ⟨(hH _ w regs hw).2, fun w' regs' hrun' => ?_⟩
    rw [hrun] at hrun'
    cases hrun'
    refine ⟨hP.follows (hH ⟨d.types.size⟩ w regs hw).1 (k.refl w) fun r hr =>
      readReg_writeReg_of_ne (Nat.ne_of_lt (hr.trans_le hn)), regs, hw, ?_, fun s hs => ?_⟩
    · exact readReg_writeReg_self (r := ⟨d.types.size⟩) hsize
    · exact readReg_writeReg_of_ne hs
  exact hvalue.mono fun w regs _ hw => ⟨hw.1, rfl, Array.size_push .., hw.2⟩

theorem move {dst src : Reg} (hH : k.Kept n H) (hdst : n ≤ dst.index) :
    k.EmitsAbove n known (Emit.move dst src) d H fun _ _ => H :=
  fun _ => hH.emits_instr (fun _ _ h => h) [dst] (List.forall_mem_singleton.mpr hdst)

/-- Code that cannot leave the routine keeps what lasts. -/
theorem of_kept [hm : k.Spares (fun _ _ => True) n [] [] m] (hH : k.Kept n H) :
    k.EmitsAbove n known m d H fun _ _ => H :=
  fun hn => (hm.emits hn (by simp) hH fun _ _ _ => trivial).weaken_known (by simp)

theorem of_stable [hm : k.Spares k.Done n [] [] m] (hP : k.Stable n P) :
    k.EmitsAbove n known m d P fun _ _ => P :=
  fun hn => (hm.emits_stable hn (by simp) hP).weaken_known (by simp)

/-! Steps of loops and conditionals. -/

theorem countPass {counter one : Reg} [k.Divides .add] (hH : k.Kept n H)
    (hcounter : n ≤ counter.index) :
    k.EmitsAbove n known (Emit.countPass counter one) d H fun _ _ => H :=
  .bind (.fresh hH) (.move hH hcounter)

theorem ownResult {node : Ref} {f : Reg → Emit β} [hf : Emit.GrowsAll f] (hH : k.Kept n H)
    (h : ∀ r d', n ≤ r.index → k.EmitsAbove n known (f r) d' H R) :
    k.EmitsAbove n known (Emit.ownResult node >>= f) d H R := by
  have := hf.grows
  simp only [Emit.ownResult, bind_assoc, pure_bind]
  exact .freshReg fun hr => .bind (.of_kept hH) (.bind (.move hH hr) (h _ _ hr))

theorem deliver {dst src : Reg} {target next : Label} (hH : k.Kept n H) (hdst : n ≤ dst.index)
    (h : ∀ ann, known ann → ann target = H ∧ ann next = P) :
    k.EmitsAbove n known (Emit.deliver dst src target next) d H fun _ _ => P :=
  .bind (.move hH hdst) (.jump h)

variable [k.Ordinary]

/-- The label for other values has the same assertion. -/
theorem whenKind {mask : Nat} {value : Reg} {f : Label → Emit β} [hf : Emit.GrowsAll f]
    (hH : k.Kept n H)
    (h : ∀ no d', k.EmitsAbove n (fun ann => known ann ∧ ann no = H) (f no) d' H R) :
    k.EmitsAbove n known (Emit.whenKind mask value >>= f) d H R := by
  have := hf.grows
  simp only [Emit.whenKind, bind_assoc, pure_bind]
  refine .bind (.fresh hH) (.freshLabel H (.freshLabel H ?_))
  refine .bind (.branch fun ann hann => ⟨hann.1.2, hann.2, hann.1.2⟩) fun hn => ?_
  exact (h _ _ hn).weaken_known fun ann hann => ⟨hann.1.1, hann.2⟩

theorem askOrGiveUp {ask giveUp : Label} (hH : k.Kept n H)
    (h : ∀ ann, known ann → ann ask = H ∧ ann giveUp = H) :
    k.EmitsAbove n known (Emit.askOrGiveUp ask giveUp) d H fun _ _ => H :=
  .bind (.fresh hH) (.branch fun ann hann => ⟨(h ann hann).1, (h ann hann).2, (h ann hann).1⟩)

theorem branchOnData {reply : Reg} {data notData next : Label} (hH : k.Kept n H)
    (h : ∀ ann, known ann → ann data = H ∧ ann notData = H ∧ ann next = P) :
    k.EmitsAbove n known (Emit.branchOnData reply data notData next) d H fun _ _ => P :=
  .bind (.fresh hH) (.branch h)

theorem reject {who : Ref} {bad : Reg} {next : Label} {A : Assertion} (hP : k.Stable n P)
    (h : ∀ ann, known ann → ann next = A) :
    k.EmitsAbove n known (Emit.reject who bad next) d P fun _ _ => A :=
  .bind (.of_stable hP) (.ret (fun _ _ => hP.returns) h)

end EmitsAbove

end Watch

end LogoEngine
