import LogoEngine.Proofs.Lower.Relocation
import LogoEngine.Proofs.Machine.Lockstep
import LogoEngine.Proofs.Machine.Safety

/-!
# Lowered code on its own

Code that was lowered by itself stands on a stage of its own. Where the same code is lowered into
the routine of a host, a run that comes to it goes on as the code does on its own: it **leaves**,
that is, it returns from the routine, or it **finishes** with a value in a register.

The routine of code **alone** consists of that code and a last block that goes round in circles, so
that a run which has come to the end of the code does not return.

Main statements: `Alone.leads_returned`, `Alone.leads_copy` and `Alone.passes`.
-/

namespace LogoEngine

/-! ### Sections of sound drafts -/

namespace Draft.Sound

variable {d final : Draft} {limit : Nat} {marked : Label → Prop} {l : Label} {body : List Instr}

/-- The registers of the code are declared. -/
theorem regs (hsound : d.Sound final limit marked []) {exit : Option Exit}
    (hs : d.Section l body exit) : ∀ i ∈ body, ∀ r ∈ i.regs, r.index < final.types.size := by
  intro i hi
  cases hs with
  | closed hb => exact ((hsound.body _ hb i hi).1).regs
  | opened => exact ((hsound.opened i (Array.mem_toList_iff.mp hi)).1).regs

theorem exitRegs (hsound : d.Sound final limit marked []) {exit : Exit}
    (hs : d.Section l body (some exit)) : ∀ r ∈ exit.regs, r.index < final.types.size := by
  cases hs with
  | @closed b hb =>
    have hformed := (hsound.exit b hb).formed
    intro r hr
    cases hend : b.exit <;> rw [hend] at hr hformed <;> simp [Exit.regs] at hr
    · rw [hr]
      exact Declares.lt_size hformed
    · rw [hr]
      exact hformed

/-- Every label that was made stands in the code. -/
theorem exists_section (hsound : d.Sound final limit marked []) (hlt : l.index < d.nextLabel) :
    ∃ body exit, d.Section l body exit := by
  have hmem : l ∈ [] ++ d.label :: d.blocks.toList.map Block.label :=
    hsound.labels.mem_iff.mpr (List.mem_map.mpr ⟨l.index, List.mem_range.mpr hlt, rfl⟩)
  rcases List.mem_cons.mp hmem with rfl | hmem
  · exact ⟨_, _, .opened⟩
  · obtain ⟨b, hb, rfl⟩ := List.mem_map.mp hmem
    exact ⟨_, _, .closed (Array.mem_toList_iff.mp hb)⟩

/-- What stands in the code has a label that was made. -/
theorem lt_nextLabel (hsound : d.Sound final limit marked []) {exit : Option Exit}
    (hs : d.Section l body exit) : l.index < d.nextLabel := by
  have hmem : l ∈ [] ++ d.label :: d.blocks.toList.map Block.label := by
    cases hs with
    | closed hb => exact List.mem_cons_of_mem _ (List.mem_map.mpr ⟨_, Array.mem_toList_iff.mpr hb, rfl⟩)
    | opened => exact List.mem_cons_self
  obtain ⟨n, hn, rfl⟩ := List.mem_map.mp (hsound.labels.mem_iff.mp hmem)
  exact List.mem_range.mp hn

/-- Code that is alive is typed. -/
theorem typed (hsound : d.Sound final limit marked []) {exit : Option Exit}
    (hs : d.Section l body exit) (hl : marked l) :
    ∀ i ∈ body, i.Typed final.types final.constants.size := by
  intro i hi
  cases hs with
  | closed hb => exact (hsound.body _ hb i hi).2 hl
  | opened => exact (hsound.opened i (Array.mem_toList_iff.mp hi)).2 hl

/-- What code leads to that is alive is alive. -/
theorem live_targets (hsound : d.Sound final limit marked []) {exit : Exit}
    (hs : d.Section l body (some exit)) (hl : marked l) : ∀ t ∈ exit.targets, marked t := by
  cases hs with
  | closed hb => exact (hsound.exit _ hb).leads hl

/-- What the code leads to stands in the code. -/
theorem targets (hsound : d.Sound final d.nextLabel marked []) {exit : Exit}
    (hs : d.Section l body (some exit)) :
    ∀ t ∈ exit.targets, ∃ body' exit', d.Section t body' exit' := by
  cases hs with
  | closed hb => exact fun t ht => hsound.exists_section ((hsound.exit _ hb).below t ht)

end Draft.Sound

/-! ### Code on a stage of its own -/

/-- Lowered code on a stage of its own: the register of its result, the draft when it is done, and
the stage, which may go on after that. -/
structure OwnCode (m : Lower Reg) where
  reg : Reg
  draft : Draft
  stage : Stage
  run : m.run {} = (.ok reg, draft)
  reg_lt : reg.index < draft.types.size
  within : draft.Within stage.final
  constants_eq : stage.final.constants = draft.constants
  sound : ∃ final marked, final.types = draft.types ∧ 0 < draft.nextLabel ∧
    draft.Sound final draft.nextLabel marked []

/-! ### In the routine of a host -/

/-- A run that comes to a draft: the registers that the draft does not have yet hold no object, and
are as they were at the start if they are below `limit`; what the routine and its registers hold is
what `pins` hold. -/
structure Stage.Waits (s : Stage) (limit : Nat) (pins : Pins) (d : Draft) (found : Array Value) :
    Prop where
  size : found.size = s.final.types.size
  fresh : ∀ r : Reg, d.types.size ≤ r.index → (readReg found r).asDatum = Ref.nothing
  initial : ∀ r : Reg, d.types.size ≤ r.index → r.index < limit →
    readReg found r = readReg (initialRegisters s.final.types) r
  alike : Pins.Alike pins (.registers found :: s.pins)

/-- Lists and procedures that do nothing and leave no value. -/
def Reenter.idle : Reenter where
  list _ _ w := .ok (Ref.nothing, w)
  procedure _ _ _ w := .ok (Ref.nothing, w)

theorem Reenter.steady_idle : Reenter.idle.Steady :=
  ⟨fun _ => rfl, fun _ => rfl⟩

/-- Stages that hold on to their own constants, and where lists and procedures run the same under
pins that are alike. -/
structure Stage.Proper (s : Stage) : Prop where
  steady : s.re.Steady
  constants : ∀ c ∈ s.code.constants, c ∈ Pins.held s.pins

theorem readReg_initialRegisters_congr {types types' : Array Ty} {r r' : Reg}
    (h : types[r.index]? = types'[r'.index]?) :
    readReg (initialRegisters types) r = readReg (initialRegisters types') r' := by
  simp only [readReg, initialRegisters, Array.getD_eq_getD_getElem?, Array.getElem?_map, h]

theorem asDatum_initialRegisters (types : Array Ty) (r : Reg) :
    (readReg (initialRegisters types) r).asDatum = Ref.nothing := by
  simp only [readReg, initialRegisters, Array.getD_eq_getD_getElem?, Array.getElem?_map]
  cases types[r.index]? with
  | none => rfl
  | some ty => cases ty <;> rfl

/-- At the start no register holds an object. -/
theorem Stage.waits_initial (s : Stage) (limit : Nat) :
    s.Waits limit s.pins {} (initialRegisters s.code.types) where
  size := by rw [s.types, initialRegisters, Array.size_map]
  fresh r _ := asDatum_initialRegisters _ r
  initial r _ _ := by rw [s.types]
  alike c := by
    rw [Pins.mem_held_cons, Twins.mem_references_registers]
    refine ⟨.inr, ?_⟩
    rintro (⟨r, -, rfl⟩ | hc)
    · rw [asDatum_initialRegisters]
      exact List.mem_cons_self
    · exact hc

section

variable {m : Lower Reg} {s : Stage} {limit : Nat} {pins : Pins} {base copy : Draft}
  {found : Array Value} {value : Reg}

/-- Code on its own and in the routine of a host. -/
theorem OwnCode.exists_twins (c : OwnCode m) (hre : c.stage.re = s.re)
    (hpins : c.stage.pins = .constants c.stage.code.constants :: pins) (hproper : s.Proper)
    (hmoves : Lower.Moves base m m) (hwithin : copy.Within s.final)
    (hrun : m.run base = (.ok value, copy)) (hwaits : s.Waits limit pins base found) :
    ∃ twins : Twins, twins.own = c.stage ∧ twins.host = s ∧ twins.base = base ∧
      twins.code = c.draft ∧ twins.copy = copy ∧ twins.found = found ∧
      Moved base c.reg value := by
  obtain ⟨hreg, hmoved⟩ := hmoves.moves (base.movedTo_empty [])
  rw [c.run, hrun] at hreg hmoved
  obtain ⟨final, marked, htypes, -, hsound⟩ := c.sound
  -- what the code on its own holds on to, the host holds on to as well
  have hconstants : ∀ r ∈ c.stage.code.constants, r ∈ Pins.held s.pins := by
    intro r hr
    rw [c.stage.constants, c.constants_eq] at hr
    have hcopy : r ∈ copy.constants.toList := Array.mem_toList_iff.mpr (hmoved.constants r hr)
    refine hproper.constants r ?_
    rw [s.constants]
    exact Array.mem_toList_iff.mp (hwithin.constants.subset hcopy)
  refine ⟨{
    own := c.stage
    host := s
    base := base
    code := c.draft
    copy := copy
    found := found
    moved := hmoved
    within := c.within
    within' := hwithin
    reenter := hre
    steady := hproper.steady
    targets := fun _ _ _ hs => hsound.targets hs
    regs := fun _ _ _ hs => htypes ▸ hsound.regs hs
    exitRegs := fun _ _ _ hs => htypes ▸ hsound.exitRegs hs
    size := hwaits.size
    fresh := hwaits.fresh
    pins := ?_
    constants := hconstants }, rfl, rfl, rfl, rfl, rfl, rfl, hreg.moved⟩
  rw [hpins]
  exact hwaits.alike.cons _

/-- At the start the own registers are those the host has not used yet. -/
theorem Twins.mirror_start (t : Twins) (hwaits : t.host.Waits limit pins t.base t.found)
    (hlimit : t.copy.types.size ≤ limit) :
    t.Mirror (initialRegisters t.own.final.types) t.found where
  size := Array.size_map
  size' := t.size
  same r r' hr hlt := by
    have hindex : r'.index = t.base.types.size + r.index := hr.moved
    have hcopy := t.moved.types_size
    rw [hwaits.initial r' (by omega) (by omega)]
    refine readReg_initialRegisters_congr ?_
    obtain ⟨rest, hrest⟩ := t.within.types
    obtain ⟨rest', hrest'⟩ := t.within'.types
    rw [← Array.getElem?_toList, ← Array.getElem?_toList, ← hrest, ← hrest', t.moved.types, hindex,
      List.append_assoc, List.getElem?_append_right (by simp), Array.length_toList,
      Nat.add_sub_cancel_left, List.getElem?_append_left (by simpa using hlt),
      List.getElem?_append_left (by simpa using hlt)]
  kept _ _ := rfl
  unused r _ := asDatum_initialRegisters _ r

/-- At the start both runs stand side by side. -/
theorem Twins.beside_start (t : Twins) {body : List Instr} {exit : Option Exit}
    (hsection : t.code.Section ⟨0⟩ body exit) (w : World) {regs : Array Value}
    (hregs : t.Mirror regs t.found) :
    t.Beside (t.own.here {} w regs) (t.host.here t.base w t.found) := by
  obtain ⟨l', tail, exit', hsection', hplaced, hbody, hexit⟩ := t.moved.exists_section hsection
  obtain rfl : l' = t.base.label := by
    rcases hplaced with ⟨-, hl⟩ | hmoved
    · exact hl
    · exact absurd hmoved.moved.1 (by simp)
  have hbeside := Twins.Beside.inside (i := 0) w hsection hsection' hbody hexit (Nat.zero_le _) hregs
  have hbefore : (t.base.before ⟨0⟩).length + 0 = t.base.body.size := by simp [Draft.before]
  rw [hbefore] at hbeside
  exact hbeside

/-- When the code is done, the host has come to the next statement. -/
theorem Twins.Mirror.waits {t : Twins} {regs regs' : Array Value} (hregs : t.Mirror regs regs')
    (hwaits : t.host.Waits limit pins t.base t.found)
    (hpins : t.own.pins = .constants t.own.code.constants :: pins) :
    t.host.Waits limit (.registers regs :: pins) t.copy regs' where
  size := hregs.size'
  fresh r hr := by
    rw [t.moved.types_size] at hr
    rw [hregs.kept r (.inr hr), hwaits.fresh r (by omega)]
  initial r hr hlt := by
    rw [t.moved.types_size] at hr
    rw [hregs.kept r (.inr hr), hwaits.initial r (by omega) hlt]
  alike := by
    -- the constants of the own code are held by the host anyway
    have hheld : ∀ c ∈ t.own.code.constants, c ∈ Pins.held pins := by
      intro c hc
      rw [hwaits.alike c, Pins.mem_held_cons]
      exact .inr (t.constants c hc)
    refine Pins.Alike.trans (fun c => ?_) hregs.alike
    rw [hpins]
    simp only [Pins.mem_held_cons, Pin.references, Array.mem_toList_iff]
    constructor
    · rintro (hc | hc)
      · exact .inl hc
      · exact .inr (.inr hc)
    · rintro (hc | hc | hc)
      · exact .inl hc
      · exact .inr (hheld c hc)
      · exact .inr hc

/-- A run that comes to code, beside the code on its own. -/
theorem Stage.Waits.beside_own (hwaits : s.Waits limit pins base found) (c : OwnCode m)
    (hre : c.stage.re = s.re) (hpins : c.stage.pins = .constants c.stage.code.constants :: pins)
    (hproper : s.Proper) (hmoves : Lower.Moves base m m) (hwithin : copy.Within s.final)
    (hlimit : copy.types.size ≤ limit) (hrun : m.run base = (.ok value, copy)) (w : World) :
    ∃ twins : Twins, twins.own = c.stage ∧ twins.host = s ∧ twins.code = c.draft ∧
      twins.copy = copy ∧ twins.Beside (c.stage.here {} w (initialRegisters c.stage.final.types))
        (s.here base w found) ∧
      ∀ {o o'}, twins.Done o o' → ∃ w' regs found', o = c.stage.here c.draft w' regs ∧
        o' = s.here copy w' found' ∧ s.Waits limit (.registers regs :: pins) copy found' ∧
        readReg found' value = readReg regs c.reg ∧
        ∀ r : Reg, r.index < base.types.size → readReg found' r = readReg found r := by
  obtain ⟨twins, hown, rfl, rfl, hcode, rfl, rfl, hreg⟩ :=
    c.exists_twins hre hpins hproper hmoves hwithin hrun hwaits
  have hstart := twins.mirror_start hwaits hlimit
  obtain ⟨_, _, -, hlt, hsound⟩ := c.sound
  obtain ⟨body, exit, hsection⟩ := hsound.exists_section (l := ⟨0⟩) hlt
  rw [← hcode] at hsection
  refine ⟨twins, hown, rfl, hcode, rfl, ?_, ?_⟩
  · rw [← hown]
    exact twins.beside_start hsection w hstart
  · rintro o o' ⟨w', regs, regs', rfl, rfl, hmirror⟩
    rw [← hown] at hpins
    refine ⟨w', regs, regs', by rw [hown, hcode], rfl, hmirror.waits hwaits hpins, ?_,
      fun r hr => hmirror.kept r (.inl hr)⟩
    exact hmirror.same c.reg value hreg (by rw [hcode]; exact c.reg_lt)

end

/-! ### Code alone -/

/-- A draft that is done, and goes round in circles in a block of its own. -/
def Draft.idling (d : Draft) : Draft where
  types := d.types
  constants := d.constants
  nextLabel := d.nextLabel + 1
  blocks := (d.blocks.push ⟨d.label, d.body.toList, .jump ⟨d.nextLabel⟩⟩).push
    ⟨⟨d.nextLabel⟩, [], .jump ⟨d.nextLabel⟩⟩
  label := ⟨d.nextLabel⟩
  body := #[]
  tags := d.tags

theorem Draft.within_idling (d : Draft) : d.Within d.idling where
  types := List.prefix_rfl
  constants := List.prefix_rfl
  labels := Nat.le_succ _
  blocks _ hb := Array.mem_push.mpr (.inl (Array.mem_push.mpr (.inl hb)))
  opened := ⟨_, Array.mem_push.mpr (.inl (Array.mem_push.mpr (.inr rfl))), rfl, List.prefix_rfl⟩

/-- Lowered code in a routine of its own, which is run with the objects of `pins` held. -/
structure Alone (m : Lower Reg) (re : Reenter) (pins : Pins) extends OwnCode m where
  re_eq : stage.re = re
  pins_eq : stage.pins = .constants stage.code.constants :: pins
  final_eq : stage.final = draft.idling
  /-- The code is typed as far as it is alive. -/
  live : ∃ marked : Label → Prop, marked ⟨0⟩ ∧
    draft.Sound stage.final draft.nextLabel marked []
  /-- No block of the code stands where the run goes round in circles. -/
  apart : ∀ l : Label, l.index < draft.nextLabel → stage.place l ≠ stage.place ⟨draft.nextLabel⟩

namespace Draft.Sound

variable {d final : Draft} {marked : Label → Prop} (hsound : d.Sound final d.nextLabel marked [])
  (name : String)

include hsound

theorem labels_idling :
    (d.idling.routine name ⟨0⟩).labels.Perm ((List.range (d.nextLabel + 1)).map Label.mk) := by
  have hlabels : (d.idling.routine name ⟨0⟩).labels =
      d.blocks.toList.map Block.label ++ [d.label] ++ [⟨d.nextLabel⟩] := by
    simp [Routine.labels, Draft.routine, Draft.idling]
  rw [hlabels, List.range_succ, List.map_append]
  exact ((List.perm_append_singleton _ _).trans hsound.labels).append_right _

/-- Every label that was made is a label of the routine. -/
theorem mem_labels_idling {l : Label} :
    l ∈ (d.idling.routine name ⟨0⟩).labels ↔ l.index ≤ d.nextLabel := by
  rw [(hsound.labels_idling name).mem_iff, List.mem_map]
  constructor
  · rintro ⟨n, hn, rfl⟩
    exact Nat.le_of_lt_succ (List.mem_range.mp hn)
  · exact fun hle => ⟨l.index, List.mem_range.mpr (Nat.lt_succ_of_le hle), rfl⟩

theorem nodup_idling : (d.idling.routine name ⟨0⟩).labels.Nodup := by
  rw [(hsound.labels_idling name).nodup_iff]
  exact List.nodup_range.map fun m n heq => congrArg Label.index heq

theorem targets_idling :
    ∀ b ∈ (d.idling.routine name ⟨0⟩).blocks, ∀ t ∈ b.exit.targets,
      t ∈ (d.idling.routine name ⟨0⟩).labels := by
  intro b hb t ht
  rw [hsound.mem_labels_idling]
  have hjump : t ∈ (Exit.jump ⟨d.nextLabel⟩).targets → t.index ≤ d.nextLabel := by
    rintro ⟨⟩
    · exact Nat.le_refl _
    · contradiction
  rcases Array.mem_push.mp (Array.mem_toList_iff.mp hb) with hb | rfl
  · rcases Array.mem_push.mp hb with hb | rfl
    · exact Nat.le_of_lt ((hsound.exit b hb).below t ht)
    · exact hjump ht
  · exact hjump ht

end Draft.Sound

/-- **Code can be run alone** if lowering keeps drafts sound. -/
theorem exists_alone {m : Lower Reg} {ψ : Prop → Prop} {κ : Prop} {ty : Reg → Ty}
    (hspec : Lower.Spec m {} κ (fun _ => True) ψ fun types r => Declares types r (ty r))
    (re : Reenter) (pins : Pins) : Nonempty (Alone m re pins) := by
  obtain ⟨r, d, hrun, hle, hr, hleads⟩ := hspec
  have hstart : Draft.Sound {} d.idling 1 (fun _ => True) [] :=
    ⟨by simp, by simp, by simp, by simp [List.range_succ], by simp⟩
  obtain ⟨marked, -, hagree, hsound, -, -⟩ := hleads d.idling False False.elim d.within_idling
    (fun _ => True) [] (fun h => h.elim) hstart fun _ => trivial
  have hnodup := hsound.nodup_idling ""
  obtain ⟨linked, -, hfollows⟩ := (d.idling.routine "" ⟨0⟩).exists_link .machine
    ((hsound.mem_labels_idling "").mpr (Nat.zero_le _)) (hsound.targets_idling "")
  refine ⟨{
    reg := r
    draft := d
    stage := hfollows.stage hnodup re pins 0
    run := hrun
    reg_lt := hr.lt_size
    within := d.within_idling
    constants_eq := rfl
    sound := ⟨d.idling, marked, rfl, hle.nextLabel_le, hsound⟩
    re_eq := rfl
    pins_eq := rfl
    final_eq := rfl
    live := ⟨marked, (hagree ⟨0⟩ Nat.zero_lt_one).mpr trivial, hsound⟩
    apart := fun l hlt heq => ?_ }⟩
  have hmem := (hsound.mem_labels_idling "").mpr (Nat.le_of_lt hlt)
  obtain rfl : l = ⟨d.nextLabel⟩ := (List.idxOf_inj hmem).mp heq
  exact absurd hlt (Nat.lt_irrefl _)

section

variable {m : Lower Reg} {re : Reenter} {pins : Pins} {w w' : World} {t : Ref} {v : Value}
  {regs regs' : Array Value}

/-- The run of code alone, from its start. -/
def Alone.start (a : Alone m re pins) (w : World) : Machine.Outcome :=
  a.stage.here {} w (initialRegisters a.stage.final.types)

/-- Code, run alone, returns. -/
def Lower.Leaves (m : Lower Reg) (re : Reenter) (pins : Pins) (w : World) (t : Ref) (w' : World) :
    Prop :=
  ∃ a : Alone m re pins, a.stage.Leads (a.start w) (.returned t w')

/-- Code, run alone, comes to its end with a value. -/
def Lower.Finishes (m : Lower Reg) (re : Reenter) (pins : Pins) (w : World) (v : Value)
    (w' : World) : Prop :=
  ∃ (a : Alone m re pins) (regs : Array Value),
    a.stage.Leads (a.start w) (a.stage.here a.draft w' regs) ∧ readReg regs a.reg = v

/-- A run of code alone has no end: it does not return, nor does it come to the end of the code. -/
def Alone.Endless (a : Alone m re pins) (w : World) : Prop :=
  (∀ t w', ¬a.stage.Leads (a.start w) (.returned t w')) ∧
    ∀ w' regs, ¬a.stage.Leads (a.start w) (a.stage.here a.draft w' regs)

namespace Alone

variable (a : Alone m re pins)

theorem step_here_draft (w : World) (regs : Array Value) :
    a.stage.Step (a.stage.here a.draft w regs) (a.stage.at_ ⟨a.draft.nextLabel⟩ w regs) := by
  have hblock : ⟨a.draft.label, a.draft.body.toList, .jump ⟨a.draft.nextLabel⟩⟩ ∈
      a.stage.final.blocks := by
    rw [a.final_eq]
    exact Array.mem_push.mpr (.inl (Array.mem_push.mpr (.inr rfl)))
  exact Stage.step_exitTo hblock

theorem step_circle (w : World) (regs : Array Value) :
    a.stage.Step (a.stage.at_ ⟨a.draft.nextLabel⟩ w regs)
      (a.stage.at_ ⟨a.draft.nextLabel⟩ w regs) := by
  have hblock : ⟨a.draft.idling.label, a.draft.idling.body.toList, .jump ⟨a.draft.nextLabel⟩⟩ ∈
      a.stage.final.blocks := by
    rw [a.final_eq]
    exact Array.mem_push.mpr (.inr rfl)
  exact Stage.step_exitTo hblock

/-- A run that has come to the end of the code goes round in circles. -/
theorem leads_here_draft {o : Machine.Outcome}
    (hleads : a.stage.Leads (a.stage.here a.draft w regs) o) :
    o = a.stage.here a.draft w regs ∨ o = a.stage.at_ ⟨a.draft.nextLabel⟩ w regs := by
  induction hleads with
  | refl => exact .inl rfl
  | tail _ hstep ih =>
    rcases ih with rfl | rfl
    · exact .inr (Stage.step_unique hstep (a.step_here_draft w regs))
    · exact .inr (Stage.step_unique hstep (a.step_circle w regs))

theorem not_leads_returned :
    ¬a.stage.Leads (a.stage.here a.draft w regs) (.returned t w') := by
  intro hleads
  rcases a.leads_here_draft hleads with h | h <;> cases h

theorem label_lt : a.draft.label.index < a.draft.nextLabel := by
  obtain ⟨_, _, -, -, hsound⟩ := a.sound
  exact hsound.lt_nextLabel .opened

/-- A run comes to the end of the code once. -/
theorem here_draft_inj
    (hleads : a.stage.Leads (a.stage.here a.draft w regs) (a.stage.here a.draft w' regs')) :
    w' = w ∧ regs' = regs := by
  rcases a.leads_here_draft hleads with h | h
  · cases h
    exact ⟨rfl, rfl⟩
  · have hposition := congrArg Config.position (Machine.Outcome.running.inj h)
    exact absurd hposition (a.apart _ a.label_lt)

/-- A run that comes to the end of the code neither returns nor comes there otherwise. -/
theorem done_once (hdone : a.stage.Leads (a.start w) (a.stage.here a.draft w' regs)) :
    (∀ t w₁, ¬a.stage.Leads (a.start w) (.returned t w₁)) ∧
      ∀ w₁ regs₁, a.stage.Leads (a.start w) (a.stage.here a.draft w₁ regs₁) →
        w₁ = w' ∧ regs₁ = regs := by
  have hcompare := fun o (h : a.stage.Leads (a.start w) o) =>
    Relation.ReflTransGen.total_of_right_unique Stage.step_unique hdone h
  refine ⟨fun t w₁ hreturned => ?_, fun w₁ regs₁ hleads => ?_⟩
  · rcases hcompare _ hreturned with h | h
    · exact a.not_leads_returned h
    · rcases Relation.ReflTransGen.cases_head h with h | ⟨_, ⟨_, hrunning, -⟩, -⟩
      · cases h
      · cases hrunning
  · rcases hcompare _ hleads with h | h
    · exact a.here_draft_inj h
    · obtain ⟨rfl, rfl⟩ := a.here_draft_inj h
      exact ⟨rfl, rfl⟩

/-- A host has nothing like the block that goes round in circles. -/
theorem not_beside {twins : Twins} (hown : twins.own = a.stage) (hcode : twins.code = a.draft)
    {o : Machine.Outcome} : ¬twins.Beside (a.stage.at_ ⟨a.draft.nextLabel⟩ w regs) o := by
  intro hbeside
  generalize hcircle : a.stage.at_ ⟨a.draft.nextLabel⟩ w regs = o' at hbeside
  cases hbeside with
  | returned => cases hcircle
  | inside _ hsection =>
    rw [hcode] at hsection
    rw [hown] at hcircle
    obtain ⟨_, _, -, -, hsound⟩ := a.sound
    have hposition := congrArg Config.position (Machine.Outcome.running.inj hcircle)
    exact absurd hposition.symm (a.apart _ (hsound.lt_nextLabel hsection))

end Alone

/-! ### What the registers hold -/

/-- Where a run of code alone can stand: at a point of the code that is alive, or where it goes
round in circles. Its registers hold what they are declared for. -/
inductive Alone.Stands (a : Alone m re pins) (marked : Label → Prop) : Machine.Outcome → Prop
  | returned (t : Ref) (w : World) : Stands a marked (.returned t w)
  | inside {l : Label} {body : List Instr} {exit : Option Exit} {i : Nat} (w : World)
      {regs : Array Value} (hsection : a.draft.Section l body exit) (hlive : marked l)
      (hi : i ≤ body.length) (hregs : Fills a.stage.code.types regs) :
      Stands a marked (a.stage.inside l i w regs)
  | circling (w : World) {regs : Array Value} (hregs : Fills a.stage.code.types regs) :
      Stands a marked (a.stage.at_ ⟨a.draft.nextLabel⟩ w regs)

namespace Alone

variable {a : Alone m re pins} {marked : Label → Prop} {o o' : Machine.Outcome} {l : Label}
  {body : List Instr}

/-- An instruction leaves values of the declared types in the registers. -/
theorem stands_instr {exit : Option Exit} {i : Nat}
    (hsound : a.draft.Sound a.stage.final a.draft.nextLabel marked [])
    (hsection : a.draft.Section l body exit) (hlive : marked l) (hlt : i < body.length)
    (hregs : Fills a.stage.code.types regs) (hstep : a.stage.Step (a.stage.inside l i w regs) o') :
    a.Stands marked o' := by
  obtain ⟨b, hb, hbegins, -⟩ := Stage.exists_section a.within hsection
  have hat : a.stage.bodyAt l = b.body := by simp [Stage.bodyAt, hb]
  have hi : body[i]? = some body[i] := List.getElem?_eq_getElem hlt
  have htyped : body[i].Typed a.stage.code.types a.stage.code.constants.size := by
    rw [a.stage.types, a.stage.constants]
    exact hsound.typed hsection hlive _ (List.getElem_mem hlt)
  obtain ⟨c, hc, hstep⟩ := hstep
  cases hc
  rw [hat, Twins.drop_of_prefix hbegins hi] at hstep
  simp only [Machine.step] at hstep
  split at hstep
  · next regs' w' hrun =>
    cases hstep
    have hfills := Machine.fills_of_runInstr hregs (Machine.ready_of_typed hregs htyped) hrun
    have hnext := Stands.inside w' hsection hlive (Nat.succ_le_of_lt hlt) hfills
    rw [Stage.inside, hat] at hnext
    exact hnext
  · cases hstep

/-- The end of a block leads to where a run can stand. -/
theorem stands_exitTo {exit : Exit}
    (hsound : a.draft.Sound a.stage.final a.draft.nextLabel marked [])
    (hsection : a.draft.Section l body (some exit)) (hlive : marked l)
    (hregs : Fills a.stage.code.types regs) : a.Stands marked (a.stage.exitTo exit w regs) := by
  have hat : ∀ t ∈ exit.targets, a.Stands marked (a.stage.at_ t w regs) := by
    intro t ht
    obtain ⟨_, _, hnext⟩ := hsound.targets hsection t ht
    exact Stands.inside (i := 0) w hnext (hsound.live_targets hsection hlive t ht) (Nat.zero_le _)
      hregs
  cases exit with
  | ret | unreachable => exact .returned _ _
  | jump t => exact hat t (List.mem_singleton.mpr rfl)
  | branch cond yes no =>
    rw [Stage.exitTo]
    split
    · exact hat yes List.mem_cons_self
    · exact hat no (List.mem_cons_of_mem _ List.mem_cons_self)

/-- **One step** from where a run can stand leads to where a run can stand. -/
theorem Stands.step (h : a.Stands marked o)
    (hsound : a.draft.Sound a.stage.final a.draft.nextLabel marked []) (hstep : a.stage.Step o o') :
    a.Stands marked o' := by
  cases h with
  | returned t w =>
    obtain ⟨_, hreturned, -⟩ := hstep
    cases hreturned
  | circling w hregs =>
    rw [Stage.step_unique hstep (a.step_circle w _)]
    exact .circling w hregs
  | @inside l body exit i w regs hsection hlive hi hregs =>
    by_cases hlt : i < body.length
    · exact stands_instr hsound hsection hlive hlt hregs hstep
    obtain rfl : i = body.length := by omega
    cases exit with
    | none =>
      -- the code is done
      cases hsection
      rw [Array.length_toList] at hstep
      rw [Stage.step_unique hstep (a.step_here_draft w regs)]
      exact .circling w hregs
    | some exit =>
      obtain ⟨b, hb, -, hends⟩ := Stage.exists_section a.within hsection
      obtain ⟨hbody, hexit⟩ := hends _ rfl
      have hdrop : (a.stage.bodyAt l).drop body.length = [] := by simp [Stage.bodyAt, hb, hbody]
      obtain ⟨c, hc, hstep⟩ := hstep
      cases hc
      simp only [Machine.step, hdrop] at hstep
      cases hstep
      rw [Stage.leave_eq_exitTo hb hexit]
      exact stands_exitTo hsound hsection hlive hregs

/-- The registers of a run hold what they are declared for. -/
theorem Stands.fills {c : Config} (h : a.Stands marked (.running c)) :
    Fills a.stage.code.types c.regs := by
  generalize ho : Machine.Outcome.running c = o at h
  cases h with
  | returned => cases ho
  | inside _ _ _ _ hregs | circling _ hregs =>
    rw [Machine.Outcome.running.inj ho]
    exact hregs

/-- **What the registers hold** when the code is done is of the declared types. -/
theorem fills (hleads : a.stage.Leads (a.start w) (a.stage.here a.draft w' regs)) :
    Fills a.stage.code.types regs := by
  obtain ⟨marked, hlive, hsound⟩ := a.live
  obtain ⟨_, _, -, hlt, hsound'⟩ := a.sound
  obtain ⟨body, exit, hsection⟩ := hsound'.exists_section (l := ⟨0⟩) hlt
  have hstart : a.Stands marked (a.start w) := by
    refine Stands.inside (i := 0) w hsection hlive (Nat.zero_le _) ?_
    rw [a.stage.types]
    exact fills_initialRegisters _
  have hstands : ∀ o, a.stage.Leads (a.start w) o → a.Stands marked o := by
    intro o hleads
    induction hleads with
    | refl => exact hstart
    | tail _ hstep ih => exact ih.step hsound hstep
  exact (hstands _ hleads).fills

theorem proper (hsteady : re.Steady) : a.stage.Proper where
  steady := by rw [a.re_eq]; exact hsteady
  constants c hc := by
    rw [a.pins_eq, Pins.mem_held_cons]
    exact .inl (Array.mem_toList_iff.mpr hc)

end Alone

/-- A value of a type stands in registers of that type, and is not void. -/
theorem Value.HasType.ty_eq {ty : Ty} (h : v.HasType ty) : v.ty = ty ∧ v ≠ .void := by
  cases v <;> cases ty <;> first | exact h.elim | exact ⟨rfl, Value.noConfusion⟩

/-- The value of code is of the type of its register. -/
theorem Lower.Finishes.hasType (h : m.Finishes re pins w v w') {r : Reg} {d : Draft} {ty : Ty}
    (hrun : m.run {} = (.ok r, d)) (hr : Declares d.types r ty) : v.HasType ty := by
  obtain ⟨a, regs, hleads, rfl⟩ := h
  obtain ⟨⟨⟩, rfl⟩ := Prod.ext_iff.mp (a.run.symm.trans hrun)
  refine ((a.fills hleads).holds _ _ ?_).readReg
  rw [a.stage.types]
  exact hr.mono a.within.types

/-! ### Alone and in the routine of a host -/

variable {s : Stage} {limit : Nat} {base copy : Draft} {found : Array Value} {value : Reg}
  (a : Alone m s.re pins)
  (hwaits : s.Waits limit pins base found) (hproper : s.Proper) (hmoves : Lower.Moves base m m)
  (hwithin : copy.Within s.final) (hlimit : copy.types.size ≤ limit)
  (hrun : m.run base = (.ok value, copy))

include hwaits hproper hmoves hwithin hlimit hrun

/-- Code that leaves when it is run alone leaves in the routine of a host. -/
theorem Alone.leads_returned (hleads : a.stage.Leads (a.start w) (.returned t w')) :
    s.Leads (s.here base w found) (.returned t w') := by
  obtain ⟨twins, hown, rfl, -, -, hbeside, hdone⟩ := hwaits.beside_own a.toOwnCode a.re_eq a.pins_eq
    hproper hmoves hwithin hlimit hrun w
  rw [Alone.start, ← hown] at hleads
  rw [← hown] at hbeside
  rcases hbeside.leads_host hleads with ⟨o, hhost, hbeside'⟩ | ⟨o₂, o₂', hdone', -, hafter, -⟩
  · cases hbeside'
    exact hhost
  · obtain ⟨w₁, regs, found', rfl, -⟩ := hdone hdone'
    rw [hown] at hafter
    exact absurd hafter a.not_leads_returned

/-- Code that finishes when it is run alone finishes in the routine of a host, where it leaves all
registers of the code before it alone. -/
theorem Alone.leads_copy (hleads : a.stage.Leads (a.start w) (a.stage.here a.draft w' regs)) :
    ∃ found', s.Leads (s.here base w found) (s.here copy w' found') ∧
      s.Waits limit (.registers regs :: pins) copy found' ∧
      readReg found' value = readReg regs a.reg ∧
      ∀ r : Reg, r.index < base.types.size → readReg found' r = readReg found r := by
  obtain ⟨twins, hown, rfl, hcode, -, hbeside, hdone⟩ := hwaits.beside_own a.toOwnCode a.re_eq
    a.pins_eq hproper hmoves hwithin hlimit hrun w
  have hfinish : ∀ {o o'}, twins.Done o o' → a.stage.Leads o (a.stage.here a.draft w' regs) →
      twins.host.Leads (twins.host.here base w found) o' →
      ∃ found', twins.host.Leads (twins.host.here base w found)
          (twins.host.here copy w' found') ∧
        twins.host.Waits limit (.registers regs :: pins) copy found' ∧
        readReg found' value = readReg regs a.reg ∧
        ∀ r : Reg, r.index < base.types.size → readReg found' r = readReg found r := by
    intro o o' hdone' hafter hhost
    obtain ⟨w₁, regs₁, found', rfl, rfl, hrest⟩ := hdone hdone'
    obtain ⟨rfl, rfl⟩ := a.here_draft_inj hafter
    exact ⟨found', hhost, hrest⟩
  rw [Alone.start, ← hown] at hleads
  rw [← hown] at hbeside
  rcases hbeside.leads_host hleads with
    ⟨o, hhost, hbeside'⟩ | ⟨o₂, o₂', hdone', -, hafter, hhost⟩
  · rcases hbeside'.step with hdone' | ⟨t, w₁, hreturned, -⟩ | ⟨c, c', hc, -, hagree, -⟩
    · rw [hown] at hdone'
      exact hfinish hdone' .refl hhost
    · cases hreturned
    · -- the next step leaves the code, where the host would have nothing to stand beside
      obtain ⟨c₀, hc₀, hstep⟩ := a.step_here_draft w' regs
      rw [hown] at hc
      obtain rfl : c = c₀ := Machine.Outcome.running.inj (hc.symm.trans hc₀)
      rw [hown, hstep] at hagree
      generalize Machine.step twins.host.re twins.host.pins twins.host.code twins.host.block c' =
        out at hagree
      cases hagree with
      | ok hbeside' => exact absurd hbeside' (a.not_beside hown hcode)
  · rw [hown] at hafter
    exact hfinish hdone' hafter hhost

/-- **A run that comes to code and gets to a point outside of it**: the code leaves when it is run
alone, or it finishes, and the run goes on to that point. -/
theorem Alone.passes {o : Machine.Outcome} (hleads : s.Leads (s.here base w found) o)
    (hout : ∀ l body exit, copy.Section l body exit → ∀ i w regs, o ≠ s.inside l i w regs) :
    (∃ t w', o = .returned t w' ∧ a.stage.Leads (a.start w) (.returned t w')) ∨
      ∃ regs w₁ found', a.stage.Leads (a.start w) (a.stage.here a.draft w₁ regs) ∧
        s.Waits limit (.registers regs :: pins) copy found' ∧
        readReg found' value = readReg regs a.reg ∧ s.Leads (s.here copy w₁ found') o := by
  obtain ⟨twins, hown, rfl, hcode, hcopy, hbeside, hdone⟩ := hwaits.beside_own a.toOwnCode a.re_eq
    a.pins_eq hproper hmoves hwithin hlimit hrun w
  rcases hbeside.follows_host hleads with
    ⟨o₂, hown', hbeside'⟩ | ⟨o₂, o₂', hdone', hown', -, hafter⟩
  · rw [hown] at hown'
    cases hbeside' with
    | returned t w' => exact .inl ⟨t, w', rfl, hown'⟩
    | inside w' _ hsection' =>
      rw [hcopy] at hsection'
      exact absurd rfl (hout _ _ _ hsection' _ _ _)
  · obtain ⟨w₁, regs, found', rfl, rfl, hwaits', hvalue, -⟩ := hdone hdone'
    rw [hown] at hown'
    exact .inr ⟨regs, w₁, found', hown', hwaits', hvalue, hafter⟩

/-- Code that has no end when it is run alone is not left in the routine of a host. -/
theorem Alone.not_leads_of_endless (hendless : a.Endless w) {o : Machine.Outcome}
    (hout : ∀ l body exit, copy.Section l body exit → ∀ i w regs, o ≠ s.inside l i w regs) :
    ¬s.Leads (s.here base w found) o := by
  intro hleads
  rcases a.passes hwaits hproper hmoves hwithin hlimit hrun hleads hout with
    ⟨t, w', -, hreturned⟩ | ⟨regs, w₁, _, hdone, -⟩
  · exact hendless.1 t w' hreturned
  · exact hendless.2 w₁ regs hdone

end

end LogoEngine
