import LogoEngine.Proofs.Eval.Running
import LogoEngine.Proofs.Machine.Stages

/-!
# Where runs that return come from

`Stage.Runs` says how far a run gets. Here it is the other way round: of a run that is known to
return, it is said that it **breaks off**, with a token or with the reply to a pause, or **comes**
to where the code goes on. Such a run has a number of steps left, which is what loops are followed
by: each pass leaves fewer.

`Stage.Must` follows such a run along an emitter, as `Stage.Runs` does.
-/

namespace LogoEngine

/-- The reply to a pause. -/
def World.Replied (w : World) (r : Ref) : Prop :=
  ∃ w₁, pauseForValue w₁ = .ok (r, w)

/-- What code may return before it is done: a token, or the reply to a pause if that is no data. -/
def World.Breaks (w : World) (r : Ref) : Prop :=
  w.heap.isFlow r = true ∨ w.heap.isData r = false ∧ w.Replied r

/-- Blocks are never taken back. -/
theorem Draft.Below.mem_blocks {d d' : Draft} (hle : d.Below d') {b : Block} (hb : b ∈ d.blocks) :
    b ∈ d'.blocks := by
  -- the open block can be closed in one way or another, and `b` is there in any case
  have hclosed : ∀ exit, d'.Within
      { d' with blocks := d'.blocks.push ⟨d'.label, d'.body.toList, exit⟩ } :=
    fun exit => ⟨List.prefix_rfl, List.prefix_rfl, Nat.le_refl _,
      fun _ hb => Array.mem_push.mpr (.inl hb), _, Array.mem_push.mpr (.inr rfl), rfl,
      List.prefix_rfl⟩
  rcases Array.mem_push.mp ((hle _ (hclosed .unreachable)).blocks b hb) with hb' | rfl
  · exact hb'
  rcases Array.mem_push.mp ((hle _ (hclosed (.jump d'.label))).blocks _ hb) with hb' | heq
  · exact hb'
  · cases heq

namespace Stage

variable (s : Stage)

/-- A run that returns after a number of steps. -/
def ReturnsIn : Nat → Machine.Outcome → Ref → World → Prop
  | 0, o, r, w => o = .returned r w
  | n + 1, o, r, w => ∃ o', s.Step o o' ∧ ReturnsIn n o' r w

/-- A run that breaks off, from one of the blocks that `early` says. -/
def BreaksOff (early : Block → Prop) (o : Machine.Outcome) (r : Ref) (w : World) : Prop :=
  w.Breaks r ∧ ∃ c, s.Leads o (.running c) ∧ s.Step (.running c) (.returned r w) ∧
    ∃ b, early b ∧ c.position = s.place b.label

/-- A run with `n` steps left to a result breaks off, or comes to where `Q` says, with no more
steps left than before. -/
def Comes (r : Ref) (w : World) (early : Block → Prop) (n : Nat) (o : Machine.Outcome)
    (Q : Nat → Machine.Outcome → Prop) : Prop :=
  s.ReturnsIn n o r w → s.BreaksOff early o r w ∨
    ∃ n' ≤ n, ∃ o', s.Leads o o' ∧ s.ReturnsIn n' o' r w ∧ Q n' o'

/-- A draft that is part of the finished one, all of its blocks being as `early` says. -/
structure Inner (early : Block → Prop) (d : Draft) : Prop where
  within : d.Within s.final
  early : ∀ b ∈ d.blocks, early b

/-- A run along an emitter that returns: it breaks off, or it comes to where `Q` says, once the
emitter is done. -/
def Must {α : Type} (r : Ref) (w : World) (early : Block → Prop) (m : Emit α) (d : Draft) (n : Nat)
    (o : Machine.Outcome) (Q : α → Draft → Nat → Machine.Outcome → Prop) : Prop :=
  s.Inner early (m d).2 → s.Comes r w early n o (Q (m d).1 (m d).2)

/-- Only objects are returned. -/
def Regular : Prop :=
  ∀ b ∈ s.final.blocks, ∀ value, b.exit = .ret value → Declares s.final.types value .datum

variable {s} {r : Ref} {w : World} {early : Block → Prop} {n : Nat} {o o' : Machine.Outcome}

theorem exists_returnsIn (h : s.Leads o (.returned r w)) : ∃ n, s.ReturnsIn n o r w := by
  induction h using Relation.ReflTransGen.head_induction_on with
  | refl => exact ⟨0, rfl⟩
  | head hstep _ ih =>
    obtain ⟨n, hn⟩ := ih
    exact ⟨n + 1, _, hstep, hn⟩

/-- A run that gets somewhere on its way has fewer steps left there. -/
theorem Leads.returnsIn (hleads : s.Leads o o') (hreturns : s.ReturnsIn n o r w) :
    ∃ n' ≤ n, s.ReturnsIn n' o' r w := by
  induction hleads using Relation.ReflTransGen.head_induction_on generalizing n with
  | refl => exact ⟨n, Nat.le_refl n, hreturns⟩
  | head hstep _ ih =>
    cases n with
    | zero =>
      obtain ⟨c, hc, -⟩ := hstep
      rw [hc] at hreturns
      cases hreturns
    | succ n =>
      obtain ⟨o₁, hstep₁, hreturns₁⟩ := hreturns
      obtain rfl := step_unique hstep₁ hstep
      obtain ⟨n', hle, hreturns'⟩ := ih hreturns₁
      exact ⟨n', Nat.le_succ_of_le hle, hreturns'⟩

theorem Inner.of_below {d d' : Draft} (h : s.Inner early d') (hle : d.Below d') :
    s.Inner early d :=
  ⟨hle _ h.within, fun b hb => h.early b (hle.mem_blocks hb)⟩

theorem BreaksOff.head (hleads : s.Leads o o') (h : s.BreaksOff early o' r w) :
    s.BreaksOff early o r w := by
  obtain ⟨hbreaks, c, hleads', hrest⟩ := h
  exact ⟨hbreaks, c, hleads.trans hleads', hrest⟩

/-! ### Where a run comes to -/

section

variable {P Q : Nat → Machine.Outcome → Prop}

theorem Comes.refl (h : Q n o) : s.Comes r w early n o Q :=
  fun hreturns => .inr ⟨n, Nat.le_refl n, o, .refl, hreturns, h⟩

theorem Comes.trans (h : s.Comes r w early n o P)
    (hnext : ∀ n' o', n' ≤ n → P n' o' → s.Comes r w early n' o' Q) : s.Comes r w early n o Q := by
  intro hreturns
  rcases h hreturns with hbreaks | ⟨n₁, hle₁, o₁, hleads₁, hreturns₁, hP⟩
  · exact .inl hbreaks
  rcases hnext n₁ o₁ hle₁ hP hreturns₁ with hbreaks | ⟨n₂, hle₂, o₂, hleads₂, hreturns₂, hQ⟩
  · exact .inl (hbreaks.head hleads₁)
  · exact .inr ⟨n₂, hle₂.trans hle₁, o₂, hleads₁.trans hleads₂, hreturns₂, hQ⟩

theorem Comes.mono (h : s.Comes r w early n o P) (hQ : ∀ n' o', n' ≤ n → P n' o' → Q n' o') :
    s.Comes r w early n o Q :=
  h.trans fun n' o' hle hP => .refl (hQ n' o' hle hP)

/-- A run that has not returned takes a step. -/
theorem Comes.step {c : Config}
    (h : ∀ n' o', n = n' + 1 → s.Step (.running c) o' → s.Comes r w early n' o' Q) :
    s.Comes r w early n (.running c) Q := by
  intro hreturns
  cases n with
  | zero => cases hreturns
  | succ n =>
    obtain ⟨o', hstep, hreturns'⟩ := hreturns
    rcases h n o' rfl hstep hreturns' with hbreaks | ⟨n₁, hle₁, o₁, hleads₁, hreturns₁, hQ⟩
    · exact .inl (hbreaks.head (.single hstep))
    · exact .inr ⟨n₁, Nat.le_succ_of_le hle₁, o₁, hleads₁.head hstep, hreturns₁, hQ⟩

/-- A run that breaks off in its next step. -/
theorem Comes.breaks {c : Config} {e : Ref} {w₁ : World} {b : Block}
    (hstep : s.Step (.running c) (.returned e w₁)) (h : w₁.Breaks e) (hb : early b)
    (hplace : c.position = s.place b.label) : s.Comes r w early n (.running c) Q := by
  intro hreturns
  obtain ⟨n', -, hreturned⟩ := Leads.returnsIn (.single hstep) hreturns
  cases n' with
  | zero =>
    cases hreturned
    exact .inl ⟨h, c, .refl, hstep, b, hb, hplace⟩
  | succ n' =>
    obtain ⟨_, ⟨_, hrunning, -⟩, -⟩ := hreturned
    cases hrunning

end

/-! ### Along emitters -/

section

variable {α β : Type} {m : Emit α} {f : α → Emit β} {d : Draft} {w₁ : World}
  {regs : Array Value} {Q : α → Draft → Nat → Machine.Outcome → Prop}
  {R : β → Draft → Nat → Machine.Outcome → Prop}

theorem Must.pure {a : α} (h : Q a d n o) : s.Must r w early (pure a) d n o Q :=
  fun _ => .refl h

/-- Code that a run does not stand at is skipped. -/
theorem Must.skip (h : ∀ a d', Q a d' n o) : s.Must r w early m d n o Q :=
  fun _ => .refl (h _ _)

/-- One piece of code after the other. -/
theorem Must.bind [hf : Emit.GrowsAll f]
    (h : s.Must r w early m d n o fun a d' n' o' => s.Must r w early (f a) d' n' o' R) :
    s.Must r w early (m >>= f) d n o R := by
  intro hw
  have := hf.grows
  have hw₁ : s.Inner early (m d).2 := hw.of_below (.of_emit (f (m d).1))
  exact (h hw₁).trans fun n' o' _ hf => hf hw

theorem Must.mono {Q' : α → Draft → Nat → Machine.Outcome → Prop} (h : s.Must r w early m d n o Q)
    (hQ : ∀ a d' n' o', n' ≤ n → Q a d' n' o' → Q' a d' n' o') : s.Must r w early m d n o Q' :=
  fun hw => (h hw).mono fun n' o' => hQ _ _ n' o'

/-- What is known to happen happens to runs that return. -/
theorem Runs.must {P : α → Draft → Machine.Outcome → Prop} (h : s.Runs m d o P) :
    s.Must r w early m d n o fun a d' _ o' => P a d' o' := by
  intro hw hreturns
  obtain ⟨o', hleads, hP⟩ := h hw.within
  obtain ⟨n', hle, hreturns'⟩ := hleads.returnsIn hreturns
  exact .inr ⟨n', hle, o', hleads, hreturns', hP⟩

/-- The draft that code ends with is part of the finished one. -/
theorem Must.within (h : (m d).2.Within s.final → s.Must r w early m d n o Q) :
    s.Must r w early m d n o Q :=
  fun hw => h hw.within hw

/-- **Loops.** Code that a run comes back to after at least one step, or gets through. -/
theorem Must.loop {I : Machine.Outcome → Prop} {most : Nat}
    (h : ∀ n ≤ most, ∀ o, I o →
      s.Must r w early m d n o fun a d' n' o' => (n' < n ∧ I o') ∨ Q a d' n' o') :
    ∀ n ≤ most, ∀ o, I o → s.Must r w early m d n o Q := by
  intro n
  induction n using Nat.strong_induction_on with
  | _ n ih =>
    intro hn o ho hw
    refine (h n hn o ho hw).trans fun n' o' hle hnext => ?_
    rcases hnext with ⟨hlt, ho'⟩ | hQ
    · exact ih n' hlt (hle.trans hn) o' ho' hw
    · exact .refl hQ

/-- What the next step of a run is, where an instruction is added. -/
theorem step_here_instr {i : Instr} (hw : (Emit.instr i d).2.Within s.final)
    (hstep : s.Step (s.here d w₁ regs) o') :
    ∃ regs' w₂, runInstr s.re s.pins s.code s.block regs i w₁ = .ok (regs', w₂) ∧
      o' = s.here (Emit.instr i d).2 w₂ regs' := by
  obtain ⟨l, hl, hbegins⟩ := exists_block hw
  obtain ⟨rest, hrest⟩ := hbegins
  have hbody : (Emit.instr i d).2.body.toList = d.body.toList ++ [i] := Array.toList_push
  rw [hbody, List.append_assoc] at hrest
  have hsize : (Emit.instr i d).2.body.size = d.body.size + 1 := Array.size_push i
  have hnow : l.body.drop d.body.size = i :: rest := by
    rw [← hrest, ← Array.length_toList, List.drop_left]
    rfl
  have hthen : l.body.drop (d.body.size + 1) = rest := by
    rw [← List.tail_drop, hnow]
    rfl
  obtain ⟨c, hc, hstep⟩ := hstep
  rw [here_eq (d := d) hl, hnow] at hc
  cases hc
  simp only [Machine.step] at hstep
  split at hstep
  · next regs' w₂ hrun =>
    cases hstep
    refine ⟨regs', w₂, hrun, ?_⟩
    rw [here_eq hl, hsize, hthen]
    rfl
  · cases hstep

/-- An instruction is carried out by a run that stands here. -/
theorem must_instr {i : Instr} {Q : Unit → Draft → Nat → Machine.Outcome → Prop}
    (h : ∀ n' regs' w₂, n = n' + 1 →
      runInstr s.re s.pins s.code s.block regs i w₁ = .ok (regs', w₂) →
      Q () (Emit.instr i d).2 n' (s.here (Emit.instr i d).2 w₂ regs')) :
    s.Must r w early (Emit.instr i) d n (s.here d w₁ regs) Q := by
  intro hw
  refine Comes.step fun n' o' hn hstep => ?_
  obtain ⟨regs', w₂, hrun, rfl⟩ := step_here_instr hw.within hstep
  exact .refl (h n' regs' w₂ hn hrun)

/-- The end of the block that a run stands in. -/
theorem must_endBlock {exit : Exit} {next : Label}
    {Q : Unit → Draft → Nat → Machine.Outcome → Prop}
    (h : ∀ n' d', n = n' + 1 → s.Opens d' next →
      ⟨d.label, d.body.toList, exit⟩ ∈ s.final.blocks → Q () d' n' (s.exitTo exit w₁ regs)) :
    s.Must r w early (Emit.endBlock exit next) d n (s.here d w₁ regs) Q := by
  intro hw
  have hblock : ⟨d.label, d.body.toList, exit⟩ ∈ s.final.blocks :=
    hw.within.blocks _ (Array.mem_push.mpr (.inr rfl))
  refine Comes.step fun n' o' hn hstep => ?_
  obtain rfl := step_unique hstep (step_exitTo hblock)
  exact .refl (h n' _ hn (fun _ _ => rfl) hblock)

/-- A value is returned that breaks the run off. -/
theorem must_ret {value : Reg} {next : Label} {Q : Unit → Draft → Nat → Machine.Outcome → Prop}
    (hs : s.Regular)
    (h : Declares s.final.types value .datum → w₁.Breaks (readReg regs value).asDatum) :
    s.Must r w early (Emit.endBlock (.ret value) next) d n (s.here d w₁ regs) Q := by
  intro hw
  have hmem : (⟨d.label, d.body.toList, .ret value⟩ : Block) ∈
      (Emit.endBlock (.ret value) next d).2.blocks := Array.mem_push.mpr (.inr rfl)
  have hblock := hw.within.blocks _ hmem
  exact Comes.breaks (step_exitTo hblock) (h (hs _ hblock value rfl)) (hw.early _ hmem) rfl

/-- Code that a run does not stand at is skipped, and it opens a label. -/
theorem Must.opens {l : Label} [Emit.Opening m l] (h : ∀ a d', s.Opens d' l → Q a d' n o) :
    s.Must r w early m d n o Q :=
  fun _ => .refl (h _ _ (opens_of_opening m d))

theorem must_freshLabel {Q : Label → Draft → Nat → Machine.Outcome → Prop}
    (h : ∀ l d', Q l d' n (s.here d' w₁ regs)) :
    s.Must r w early Emit.freshLabel d n (s.here d w₁ regs) Q :=
  fun _ => .refl (h ⟨d.nextLabel⟩ (Emit.freshLabel d).2)

end

end Stage

end LogoEngine
