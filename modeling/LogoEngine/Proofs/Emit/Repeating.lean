import LogoEngine.Proofs.Arithmetic.Domains
import LogoEngine.Proofs.Emit.Judging

/-!
# The passes of `REPEAT`

`REPEAT` counts its passes in a double and has its list run by the evaluator, which may do anything.
`Repeats` says what the passes lead to in terms of what the list comes to in each of them, and the
code does just that: the number of a pass is in a register, is compared with the number of
repetitions, and is set as `REPCOUNT` before the list is run.

Main statement: `Stage.runs_repetition`.
-/

namespace LogoEngine

/-- The numbers of repetitions that the check lets through. -/
theorem RangeCheck.count_holds_iff {x : Float} :
    RangeCheck.count.holds x = true ↔ ∃ n < 2 ^ 31, IsNatural n x := by
  rw [holds, Bool.and_eq_true]
  constructor
  · rintro ⟨hint, hle⟩
    obtain ⟨m, hm, hx⟩ := isCount_of_nonnegative hint hle
    have hlow : 0 ≤ m.toInt := Int32.le_iff_toInt_le.mp hm
    have hhigh := m.toInt_lt
    refine ⟨m.toInt.toNat, by omega, ?_⟩
    rw [IsNatural, Int.toNat_of_nonneg hlow]
    exact Integer32.is_iff.mp hx
  · rintro ⟨n, hn, hx⟩
    have hto : (Int32.ofInt n).toInt = n := Int32.toInt_ofInt_of_le (by omega) (by omega)
    have hm : Integer32.Is (Int32.ofInt n) x := Integer32.is_iff.mpr (by rwa [hto])
    refine ⟨isInt32_iff.mpr ⟨_, hm⟩, ?_⟩
    have hle : 0.0 ≤ x := by
      rw [Integer32.is_zero.le_iff hm, Int32.le_iff_toInt_le, hto]
      exact Int.natCast_nonneg n
    simpa [CompareOp.eval] using hle

/-! ### Passes -/

/-- What the passes of a loop lead to. -/
inductive LoopEnd where
  /-- All passes were run. -/
  | finished (w : World)
  /-- The last pass left data. -/
  | value (v : Ref) (w : World)
  /-- A pass came to a token. -/
  | token (t : Ref) (w : World)
  /-- A pass before the last left data. -/
  | unsaid (v : Ref) (w : World)
  /-- A pass did not come to an end. -/
  | halted (halt : Halt)

/-- The state in which the pass of a number starts. -/
def World.Counted (w : World) (k : Nat) (w₁ : World) : Prop :=
  ∃ x, IsNatural k x ∧ w₁ = { w with repcount := x }

theorem World.Counted.isNatural {w w₁ : World} {k : Nat} (h : w.Counted k w₁) :
    IsNatural k w₁.repcount := by
  obtain ⟨x, hx, rfl⟩ := h
  exact hx

/-- **What `n` passes lead to**, from the pass of number `k` on. The states in which passes start are
listed; what is held while the list runs is not said. -/
inductive Repeats (re : Reenter) (list : Ref) (n : Nat) : Nat → World → List World → LoopEnd → Prop
  | finished {k w} (hlt : n < k) : Repeats re list n k w [] (.finished w)
  | token {k w w₁ held t w'} (hle : k ≤ n) (hstart : w.Counted k w₁)
      (hlist : re.list held list w₁ = .ok (t, w')) (hflow : w'.heap.isFlow t = true) :
      Repeats re list n k w [w₁] (.token t w')
  | value {w w₁ held v w'} (hstart : w.Counted n w₁)
      (hlist : re.list held list w₁ = .ok (v, w')) (hdata : w'.heap.isData v = true) :
      Repeats re list n n w [w₁] (.value v w')
  | unsaid {k w w₁ held v w'} (hlt : k < n) (hstart : w.Counted k w₁)
      (hlist : re.list held list w₁ = .ok (v, w')) (hdata : w'.heap.isData v = true) :
      Repeats re list n k w [w₁] (.unsaid v w')
  | next {k w w₁ held v w' starts e} (hle : k ≤ n) (hstart : w.Counted k w₁)
      (hlist : re.list held list w₁ = .ok (v, w')) (hflow : w'.heap.isFlow v = false)
      (hdata : w'.heap.isData v = false) (hrest : Repeats re list n (k + 1) w' starts e) :
      Repeats re list n k w (w₁ :: starts) e
  | halted {k w w₁ held halt} (hle : k ≤ n) (hstart : w.Counted k w₁)
      (hlist : re.list held list w₁ = .error halt) : Repeats re list n k w [w₁] (.halted halt)

namespace Repeats

variable {re : Reenter} {list : Ref} {n k : Nat} {w : World} {starts : List World} {e : LoopEnd}

/-- There are no more passes than asked for. -/
theorem length_le (h : Repeats re list n k w starts e) (hk : k ≤ n + 1) :
    starts.length + k ≤ n + 1 := by
  induction h with
  | finished => simpa using hk
  | next hle _ _ _ _ _ ih =>
    have hrest := ih (by omega)
    rw [List.length_cons]
    omega
  | token hle | halted hle =>
    rw [List.length_singleton]
    omega
  | value | unsaid =>
    rw [List.length_singleton]
    omega

/-- Passes are numbered one after the other. -/
theorem isNatural (h : Repeats re list n k w starts e) {i : Nat} {u : World}
    (hu : starts[i]? = some u) : IsNatural (k + i) u.repcount := by
  induction h generalizing i with
  | finished => cases hu
  | token _ hstart | value hstart | unsaid _ hstart | halted _ hstart =>
    cases i with
    | zero =>
      cases hu
      exact hstart.isNatural
    | succ i => cases hu
  | next _ hstart _ _ _ _ ih =>
    cases i with
    | zero =>
      cases hu
      exact hstart.isNatural
    | succ i =>
      rw [Nat.add_comm i, ← Nat.add_assoc]
      exact ih hu

/-- If nothing ends the loop before, there are as many passes as asked for. -/
theorem length_eq {w' : World} (h : Repeats re list n k w starts (.finished w')) (hk : k ≤ n + 1) :
    starts.length + k = n + 1 := by
  generalize he : LoopEnd.finished w' = e at h
  induction h with
  | finished hlt =>
    rw [List.length_nil]
    omega
  | next hle _ _ _ _ _ ih =>
    have hrest := ih (by omega) he
    rw [List.length_cons]
    omega
  | token | value | unsaid | halted => cases he

end Repeats

namespace Stage

variable {s : Stage} {d : Draft} {w : World} {regs : Array Value} {l : Ref} {list : Reg}

/-! ### The end of a pass -/

/-- The number of repetitions is put back, and data is complained about. -/
theorem runs_refuseData {value saved : Reg} {next : Label} {t : Ref} {x : Float}
    (hsize : regs.size = s.final.types.size) (hvalue : Carries d regs value (.datum t))
    (hsaved : Carries d regs saved (.real x)) {Q : Unit → Draft → Machine.Outcome → Prop}
    (h : ∀ d' r e w', { w with repcount := x }.Raises r e w' →
      w'.Reports r (.dontSay w.heap (.datum t)) → Q () d' (.returned r w')) :
    s.Runs (Emit.refuseData value saved next) d (s.here d w regs) Q := by
  have hput : ∀ pins, callHelper s.re pins .setRepcount [.real x] w =
      .ok (.void, { w with repcount := x }) := fun _ => rfl
  obtain ⟨r, w', e, hraise, hraises, hreports⟩ :=
    exists_raises { w with repcount := x } .dontSay [t]
  have hcall : ∀ pins, callHelper s.re pins .errDontSay [.datum t] { w with repcount := x } =
      .ok (.datum r, w') := fun _ => map_datum_apply hraise
  refine .bind (runs_perform (.cons hsaved .nil) hput fun d₁ hd₁ => ?_)
  refine .bind (runs_call hsize (.cons (hvalue.grow hd₁) .nil) hcall rfl ?_)
  intro error d₂ regs₂ _ herror
  refine runs_endBlock fun d₃ _ _ => ?_
  rw [exitTo, herror.reads]
  exact h d₃ r e w' hraises hreports

/-- **What a pass led to.** A token is returned, data of the last pass is copied for the exit, data
of another is complained about, and the number of repetitions is put back in time. -/
theorem runs_passOutcome {value saved isLast result : Reg} {exit : Label} {t : Ref} {x : Float}
    {b : Bool} (hsize : regs.size = s.final.types.size) (hvalue : Carries d regs value (.datum t))
    (hsaved : Carries d regs saved (.real x)) (hlast : Carries d regs isLast (.truth b))
    {Q : Unit → Draft → Machine.Outcome → Prop}
    (htoken : w.heap.isFlow t = true → ∀ d', Q () d' (.returned t { w with repcount := x }))
    (hkeep : w.heap.isData t = true → b = true → ∀ d₁ regs₁, Keeps d regs d₁ regs₁ → ∀ d',
      d₁.types.toList <+: d'.types.toList →
        Q () d' (s.at_ exit w (writeReg regs₁ result (.datum t))))
    (hunsaid : w.heap.isData t = true → b = false → ∀ d' r e w',
      { w with repcount := x }.Raises r e w' → w'.Reports r (.dontSay w.heap (.datum t)) →
        Q () d' (.returned r w'))
    (hgo : w.heap.isFlow t = false → w.heap.isData t = false → ∀ d' regs', Keeps d regs d' regs' →
      Q () d' (s.here d' w regs')) :
    s.Runs (Emit.passOutcome value saved (some (isLast, result, exit))) d (s.here d w regs) Q := by
  unfold Emit.passOutcome
  refine .bind (runs_leaveLoop hsize hvalue (fun hflow d₁ regs₁ hkeeps₁ d₂ => ?_)
    fun hflow d₁ regs₁ hkeeps₁ => ?_)
  · rw [(hsaved.keep hkeeps₁).reads]
    exact .skip fun _ d' _ => htoken hflow d'
  have hsize₁ := hkeeps₁.size.trans hsize
  -- what is no token is data or neither, and data is for the last pass only
  refine runs_whenKind hsize₁ (hvalue.keep hkeeps₁) (fun hdata go d₂ regs₂ hkept₂ => ?_)
    fun hdata go d₂ regs₂ hkept₂ => ?_
  · have hkeeps₂ := hkeeps₁.trans hkept₂
    refine .bind (runs_freshLabel fun dontSay d₃ hd₃ => ?_)
    have hkeeps₃ := hkeeps₂.grow hd₃
    refine .bind (.bind (runs_freshLabel fun keep d₄ hd₄ => .bind (runs_endBlock ?_)))
    intro d₅ hd₅ hopen₅
    have hkeeps₅ := (hkeeps₃.grow hd₄).grow hd₅
    simp only [exitTo, (hlast.keep hkeeps₅).reads, Value.asTruth]
    cases b with
    | true =>
      rw [if_pos rfl, ← hopen₅]
      refine runs_deliver fun d₆ hd₆ _ => ?_
      rw [(hvalue.keep hkeeps₅).reads]
      exact .skip fun _ d' hd' => hkeep hdata rfl _ _ hkeeps₅ d' (hd₆.trans hd')
    | false =>
      refine .past (.opensLast fun _ d₆ hd₆ => ?_)
      have hkeeps₆ := hkeeps₅.grow hd₆
      exact runs_refuseData (hkeeps₆.size.trans hsize) (hvalue.keep hkeeps₆) (hsaved.keep hkeeps₆)
        (hunsaid hdata rfl)
  · refine .pass fun _ _ => .pass fun _ _ => .opensLast fun _ d₃ hd₃ => ?_
    exact hgo hflow hdata d₃ regs₂ ((hkeeps₁.trans hkept₂).grow hd₃)

/-! ### The loop -/

/-- Where the code of a loop leads, whose node is `node` and which found the number of repetitions
as `before`: it leaves a value or has returned, with the number put back. -/
def LoopLeads (s : Stage) (d : Draft) (regs : Array Value) (node : Ref) (before : Float)
    (e : LoopEnd) (r : Reg) (d' : Draft) (o : Machine.Outcome) : Prop :=
  match e with
  | .finished w => ∃ regs', o = s.here d' { w with repcount := before } regs' ∧
      Keeps d regs d' regs' ∧ Carries d' regs' r (.datum node)
  | .value v w => ∃ regs', o = s.here d' { w with repcount := before } regs' ∧
      Keeps d regs d' regs' ∧ Carries d' regs' r (.datum v)
  | .token t w => o = .returned t { w with repcount := before }
  | .unsaid v w => o.Fails { w with repcount := before } (.dontSay w.heap (.datum v))
  | .halted halt => s.Halts halt o

/-- Where a loop leads when the registers of an earlier draft count. -/
theorem LoopLeads.keep {d₁ d' : Draft} {regs₁ : Array Value} {node : Ref} {before : Float}
    {e : LoopEnd} {r : Reg} {o : Machine.Outcome} (h : s.LoopLeads d₁ regs₁ node before e r d' o)
    (hkeeps : Keeps d regs d₁ regs₁) : s.LoopLeads d regs node before e r d' o := by
  cases e with
  | finished | value =>
    obtain ⟨regs', ho, hkept, hr⟩ := h
    exact ⟨regs', ho, hkeeps.trans hkept, hr⟩
  | token | unsaid | halted => exact h

/-- The registers of a loop. -/
structure LoopCode where
  times : Reg
  list : Reg
  saved : Reg
  result : Reg
  counter : Reg
  one : Reg

/-- What the registers of a loop of `n` passes hold when the pass of number `k` is due. -/
structure LoopCode.Holds (c : LoopCode) (d₀ : Draft) (regs₀ : Array Value) (d : Draft) (n : Nat)
    (items node : Ref) (before : Float) (k : Nat) (regs : Array Value) : Prop where
  keeps : Keeps d₀ regs₀ d regs
  times : ∃ x, IsNatural n x ∧ Carries d regs c.times (.real x)
  list : Carries d regs c.list (.datum items)
  saved : Carries d regs c.saved (.real before)
  result : Carries d regs c.result (.datum node)
  counter : ∃ x, IsNatural k x ∧ Carries d regs c.counter (.real x)
  one : Carries d regs c.one (.real 1.0)
  le : k ≤ n + 1
  resultNew : d₀.types.size ≤ c.result.index
  counterNew : d₀.types.size ≤ c.counter.index
  times_ne : c.times.index ≠ c.counter.index
  saved_ne : c.saved.index ≠ c.counter.index
  one_ne : c.one.index ≠ c.counter.index

/-- The next pass is due when the counter is written. -/
theorem LoopCode.Holds.next {c : LoopCode} {d₀ d' : Draft} {regs₀ regs' : Array Value} {n k : Nat}
    {node : Ref} {before x : Float} (h : c.Holds d₀ regs₀ d n l node before k regs)
    (hkeeps : Keeps d regs d' regs') (hx : IsNatural (k + 1) x) (hle : k ≤ n)
    (hsize : regs.size = s.final.types.size) (hw : d.Within s.final) :
    c.Holds d₀ regs₀ d n l node before (k + 1) (writeReg regs' c.counter (.real x)) := by
  obtain ⟨y, hy, htimes⟩ := h.times
  obtain ⟨z, -, hcounter⟩ := h.counter
  have hkeep : ∀ {r : Reg} {v : Value}, Carries d regs r v → Carries d regs' r v :=
    fun hr => ⟨hr.declares, (hr.keep hkeeps).reads⟩
  have hlt : c.counter.index < regs'.size := by
    rw [hkeeps.size, hsize]
    exact (hcounter.declares.mono hw.types).lt_size
  have hall : Keeps d₀ regs₀ d regs' :=
    ⟨h.keeps.types, (h.keeps.trans hkeeps).size, (h.keeps.trans hkeeps).kept⟩
  exact {
    keeps := hall.write h.counterNew
    times := ⟨y, hy, (hkeep htimes).write_of_ne h.times_ne⟩
    list := (hkeep h.list).write_of_ne (h.list.declares.index_ne hcounter.declares (by simp [Value.ty]))
    saved := (hkeep h.saved).write_of_ne h.saved_ne
    result := (hkeep h.result).write_of_ne
      (h.result.declares.index_ne hcounter.declares (by simp [Value.ty]))
    counter := ⟨x, hx, .write_self hcounter.declares hlt⟩
    one := (hkeep h.one).write_of_ne h.one_ne
    le := Nat.succ_le_succ hle
    resultNew := h.resultNew
    counterNew := h.counterNew
    times_ne := h.times_ne
    saved_ne := h.saved_ne
    one_ne := h.one_ne }

section

variable {c : LoopCode} {d₀ : Draft} {regs₀ : Array Value} {n k : Nat} {node v : Ref}
  {before : Float} {head body exit : Label}

/-- Behind the exit the number of repetitions is put back. -/
private theorem runs_exit (hkeeps : Keeps d₀ regs₀ d regs)
    (hsaved : Carries d regs c.saved (.real before)) (hresult : Carries d regs c.result (.datum v)) :
    s.Runs (do
      Emit.perform .setRepcount [c.saved]
      return c.result) d (s.here d w regs) fun r d' o => ∃ regs',
        o = s.here d' { w with repcount := before } regs' ∧ Keeps d₀ regs₀ d' regs' ∧
          Carries d' regs' r (.datum v) :=
  .bind (runs_perform (.cons hsaved .nil) (fun _ => rfl) fun _ hd' =>
    .pure ⟨regs, rfl, hkeeps.grow hd', hresult.grow hd'⟩)

/-- **One pass**: it ends the loop, or the run is back at the label and the next pass is due. -/
theorem runs_pass (hn : n < 2 ^ 31) (hsize₀ : regs₀.size = s.final.types.size)
    (hholds : c.Holds d₀ regs₀ d n l node before k regs) :
    s.Runs (do
      let more ← Emit.compare .le c.counter c.times
      Emit.endBlock (.branch more body exit) body
      Emit.perform .setRepcount [c.counter]
      let value ← Emit.call .runList [c.list]
      let isLast ← Emit.compare .eq c.counter c.times
      Emit.passOutcome value c.saved (some (isLast, c.result, exit))
      Emit.countPass c.counter c.one
      Emit.endBlock (.jump head) exit
      Emit.perform .setRepcount [c.saved]
      return c.result) d (s.here d w regs) fun r d' o =>
        (∃ starts e, Repeats s.re l n k w starts e ∧ s.LoopLeads d₀ regs₀ node before e r d' o) ∨
        ∃ w' regs', o = s.at_ head w' regs' ∧ c.Holds d₀ regs₀ d n l node before (k + 1) regs' ∧
          k ≤ n ∧ ∀ starts e, Repeats s.re l n (k + 1) w' starts e →
            ∃ starts, Repeats s.re l n k w starts e := by
  refine .within fun hw => ?_
  obtain ⟨x, hx, htimes⟩ := hholds.times
  obtain ⟨y, hy, hcounter⟩ := hholds.counter
  have hsize : regs.size = s.final.types.size := hholds.keeps.size.trans hsize₀
  refine .bind (runs_compare hsize hcounter htimes fun more d₁ regs₁ hkeeps₁ hmore => ?_)
  refine .bind (runs_endBlock fun d₂ hd₂ hopen₂ => ?_)
  have hkeeps₂ := hkeeps₁.grow hd₂
  simp only [exitTo, hmore.reads, Value.asTruth]
  have hcompare : CompareOp.le.eval y x = decide (k ≤ n) := by
    simp only [CompareOp.eval, hy.le_iff hx]
  rw [hcompare]
  by_cases hle : k ≤ n
  · -- the list is run
    rw [decide_eq_true hle, if_pos rfl, ← hopen₂]
    let w₁ : World := { w with repcount := y }
    have hstart : w.Counted k w₁ := ⟨y, hy, rfl⟩
    refine .bind (runs_perform (.cons (hcounter.keep hkeeps₂) .nil) (fun _ => rfl) fun d₃ hd₃ => ?_)
    have hkeeps₃ := hkeeps₂.grow hd₃
    have hsize₃ := hkeeps₃.size.trans hsize
    refine .bind (runs_runList hsize₃ (hholds.list.keep hkeeps₃) ?_ ?_)
    · intro t w₂ hlist value d₄ regs₄ hkept₄ hvalue
      have hkeeps₄ := hkeeps₃.trans hkept₄
      have hsize₄ := hkeeps₄.size.trans hsize
      refine .bind (runs_compare hsize₄ (hcounter.keep hkeeps₄) (htimes.keep hkeeps₄) ?_)
      intro isLast d₅ regs₅ hkept₅ hisLast
      have hlast : CompareOp.eq.eval y x = decide (k = n) := by
        rw [Bool.eq_iff_iff, decide_eq_true_iff]
        exact hy.beq_iff hx
      rw [hlast] at hisLast
      have hkeeps₅ := hkeeps₄.trans hkept₅
      have hsize₅ := hkeeps₅.size.trans hsize
      refine .bind (runs_passOutcome hsize₅ (hvalue.keep hkept₅) (hholds.saved.keep hkeeps₅) hisLast
        (fun hflow d₆ => ?_) (fun hdata heq d₆ regs₆ hkept₆ d₇ hd₇ => ?_)
        (fun hdata hne d₆ r record w' hraises hreports => ?_)
        fun hflow hdata d₆ regs₆ hkept₆ => ?_)
      · exact .skip fun _ _ _ => .inl ⟨_, _, .token hle hstart hlist hflow, rfl⟩
      · -- the data is the value
        obtain rfl : k = n := of_decide_eq_true heq
        refine .past (.pass fun _ _ => .opens fun _ d₈ hd₈ => ?_)
        have hgrow := hd₇.trans hd₈
        have hkeeps₆ := hkeeps₅.trans hkept₆
        have hsaved := (hholds.saved.keep hkeeps₆).write_of_ne (u := .datum t)
          (hholds.saved.declares.index_ne hholds.result.declares (by simp [Value.ty]))
        have hlt : c.result.index < regs₆.size := by
          rw [hkeeps₆.size, hsize]
          exact (hholds.result.declares.mono hw.types).lt_size
        have hresult : Carries d₆ (writeReg regs₆ c.result (.datum t)) c.result (.datum t) :=
          .write_self (hholds.result.declares.mono hkeeps₆.types) hlt
        refine (runs_exit (((hholds.keeps.trans hkeeps₆).write hholds.resultNew).grow hgrow)
          (hsaved.grow hgrow) (hresult.grow hgrow)).mono fun r d' o hleaves => .inl ?_
        exact ⟨_, _, .value hstart hlist hdata, hleaves⟩
      · have hlt : k < n := by
          have := of_decide_eq_false hne
          omega
        exact .skip fun _ _ _ => .inl
          ⟨_, _, .unsaid hlt hstart hlist hdata, r, record, w', rfl, hraises, hreports⟩
      · -- the next pass is due
        have hkeeps₆ := hkeeps₅.trans hkept₆
        refine .bind (.bind (runs_arith (hkeeps₆.size.trans hsize) (hcounter.keep hkeeps₆)
          (hholds.one.keep hkeeps₆) fun next d₇ regs₇ hkept₇ hnext => ?_))
        refine runs_move fun d₈ _ => .bind (runs_endBlock fun d₉ _ _ => ?_)
        rw [exitTo, hnext.reads]
        refine .bind (.skip fun _ _ _ => .pure (.inr ⟨w₂, _, rfl, ?_, hle, fun starts e hrest => ?_⟩))
        · exact hholds.next (hkeeps₆.trans hkept₇) (hy.succ (by omega)) hle hsize hw
        · exact ⟨_, .next hle hstart hlist hflow hdata hrest⟩
    · intro halt hlist value d₄ o ho
      exact .skip fun _ _ _ => .inl ⟨_, _, .halted hle hstart hlist, ho⟩
  · -- all passes were run
    rw [decide_eq_false hle, if_neg Bool.false_ne_true]
    refine .past ?_
    repeat first | refine .opens fun _ d₃ hd₃ => ?_ | refine .pass fun _ _ => ?_
    have hkeeps₃ := hkeeps₁.grow (hd₂.trans hd₃)
    refine (runs_exit (hholds.keeps.trans hkeeps₃) (hholds.saved.keep hkeeps₃)
      (hholds.result.keep hkeeps₃)).mono fun r d' o hleaves => .inl ?_
    exact ⟨_, _, .finished (Nat.lt_of_not_le hle), hleaves⟩

/-- **The loop** from its label on leads where the passes lead. -/
theorem runs_passes (hopen : s.Opens d head) (hn : n < 2 ^ 31)
    (hsize₀ : regs₀.size = s.final.types.size)
    (hholds : c.Holds d₀ regs₀ d n l node before k regs) :
    s.Runs (do
      let more ← Emit.compare .le c.counter c.times
      Emit.endBlock (.branch more body exit) body
      Emit.perform .setRepcount [c.counter]
      let value ← Emit.call .runList [c.list]
      let isLast ← Emit.compare .eq c.counter c.times
      Emit.passOutcome value c.saved (some (isLast, c.result, exit))
      Emit.countPass c.counter c.one
      Emit.endBlock (.jump head) exit
      Emit.perform .setRepcount [c.saved]
      return c.result) d (s.here d w regs) fun r d' o => ∃ starts e,
        Repeats s.re l n k w starts e ∧ s.LoopLeads d₀ regs₀ node before e r d' o := by
  -- with every pass there is one less to come
  refine Runs.loop (Q := fun k w r d' o => ∃ starts e, Repeats s.re l n k w starts e ∧
      s.LoopLeads d₀ regs₀ node before e r d' o) hopen (fun k _ => n + 1 - k)
    (fun k regs _ => c.Holds d₀ regs₀ d n l node before k regs) (fun k w regs hholds => ?_)
    k w regs hholds
  refine (runs_pass hn hsize₀ hholds).mono ?_
  rintro r d' o (hends | ⟨w', regs', rfl, hholds', hle, hmore⟩)
  · exact .inl hends
  · refine .inr ⟨k + 1, w', regs', rfl, hholds', by omega, ?_⟩
    rintro o' ⟨starts, e, hrepeats, hleads⟩
    obtain ⟨starts', hrepeats'⟩ := hmore starts e hrepeats
    exact ⟨starts', e, hrepeats', hleads⟩

end

/-! ### The whole of a repetition -/

/-- The result of code along a run is its result. -/
theorem Runs.result {α : Type} {m : Emit α} {o : Machine.Outcome}
    {Q : α → Draft → Machine.Outcome → Prop}
    (h : s.Runs m d o fun a d' o' => a = (m d).1 → Q a d' o') : s.Runs m d o Q := by
  intro hw
  obtain ⟨o', hlead, hq⟩ := h hw
  exact ⟨o', hlead, hq rfl⟩

theorem const_isNew {c : Ref} (d : Draft) : d.types.size ≤ (Emit.const c d).1.index := by
  have hprefix := Emit.Grows.types_prefix (Emit.slot c) d
  have hle : d.types.size ≤ (Emit.slot c d).2.types.size := by simpa using hprefix.length_le
  exact hle

/-- A new register gets a copy of what some code leaves in a new register of its own. -/
theorem runs_copied {ρ : Type} {ty : Ty} {load : Emit Reg} {v : Value} {f : Reg → Reg → Emit ρ}
    [Emit.Grows load] [∀ dst src, Emit.Grows (f dst src)] {Q : ρ → Draft → Machine.Outcome → Prop}
    (hsize : regs.size = s.final.types.size) (hnew : ∀ d, d.types.size ≤ (load d).1.index)
    (hload : ∀ {d}, regs.size = s.final.types.size → s.Runs load d (s.here d w regs)
      fun r d' o => ∃ regs', o = s.here d' w regs' ∧ Keeps d regs d' regs' ∧ Carries d' regs' r v)
    (hty : v.ty = ty)
    (h : ∀ dst src d' regs', d.types.size ≤ dst.index → Keeps d regs d' regs' →
      Carries d' regs' dst v → Carries d' regs' src v → dst.index ≠ src.index →
      s.Runs (f dst src) d' (s.here d' w regs') Q) :
    s.Runs (do
      let dst ← Emit.freshReg ty
      let src ← load
      Emit.move dst src
      f dst src) d (s.here d w regs) Q := by
  refine .bind (runs_freshReg fun dst d₁ hdst hd₁ hdeclares => .bind ?_)
  refine Runs.result ((hload hsize).mono ?_)
  rintro src d₂ _ ⟨regs₂, rfl, hkept₂, hsrc⟩ heq
  have hne : dst.index ≠ src.index := by
    have hle := hnew d₁
    rw [← heq] at hle
    exact (Nat.lt_of_lt_of_le hdeclares.lt_size hle).ne
  have hkeeps₂ := (Keeps.refl.grow hd₁).trans hkept₂
  have hdeclared : Declares d₂.types dst v.ty := hty ▸ hdeclares.mono hkept₂.types
  refine .bind (runs_copy (hkept₂.size.trans hsize) hsrc hdeclared hkeeps₂ hdst ?_)
  intro d₃ regs₃ hkeeps₃ _ hcopy hothers
  exact h dst src d₃ regs₃ hdst hkeeps₃ hcopy (hothers hsrc fun _ => rfl) hne

/-- The result is new, and it is the node. -/
theorem runs_ownResult {node : Ref} {Q : Reg → Draft → Machine.Outcome → Prop}
    (hsize : regs.size = s.final.types.size)
    (h : ∀ r d' regs', d.types.size ≤ r.index → Keeps d regs d' regs' →
      Carries d' regs' r (.datum node) → Q r d' (s.here d' w regs')) :
    s.Runs (Emit.ownResult node) d (s.here d w regs) Q :=
  runs_copied (v := .datum node) (f := fun dst _ => pure dst) hsize const_isNew
    (fun hsize => runs_const hsize fun _ _ regs' hkeeps hr => ⟨regs', rfl, hkeeps, hr⟩) rfl
    fun dst _ d' regs' hnew hkeeps hdst _ _ => .pure (h dst d' regs' hnew hkeeps hdst)

/-- **The code of a `REPEAT`**: a number that is a number of repetitions is followed by the passes,
any other is disliked before the first of them. -/
theorem runs_repetition {who node : Ref} {times : Reg} {x : Float} {word : Word}
    (hsize : regs.size = s.final.types.size) (hcalm : w.Calm)
    (hwho : w.heap.word? who = some word) (htimes : Carries d regs times (.real x))
    (hlist : Carries d regs list (.datum l))
    (hrunnable : (w.heap.get l).hasTag wordOrListMask = true) :
    s.Runs (Emit.repetition who node times list) d (s.here d w regs) fun r d' o =>
      (∃ n < 2 ^ 31, IsNatural n x ∧ ∃ starts e, Repeats s.re l n 1 w starts e ∧
        s.LoopLeads d regs node w.repcount e r d' o) ∨
      (¬∃ n < 2 ^ 31, IsNatural n x) ∧ o.Fails w (.doesntLike w.heap who (.real x)) := by
  have hrange := runs_range .count hsize (hcalm.named hwho) htimes
  refine .bind (hrange.mono fun times₁ d₁ o hconcludes => ?_)
  obtain ⟨reports, result, w₁, hdialogue, hout⟩ := hconcludes
  have hconcluded := (hdialogue.of_off hcalm.unset).2
  rw [Check.accepts] at hconcluded
  by_cases hholds : RangeCheck.count.holds x = true
  · -- the number passes
    rw [if_pos hholds] at hconcluded
    obtain ⟨_, ⟨⟩, rfl, hw₁⟩ | ⟨_, _, ⟨⟩, -⟩ := hconcluded
    subst w₁
    obtain ⟨n, hn, hx⟩ := RangeCheck.count_holds_iff.mp hholds
    obtain ⟨regs₁, rfl, hkeeps₁, htimes₁⟩ := hout
    have hsize₁ := hkeeps₁.size.trans hsize
    refine .bind ((runs_kind wordOrListMask hsize₁ (hlist.keep hkeeps₁)).mono ?_)
    rintro list₂ d₂ o ⟨reports₂, result₂, w₂, hdialogue₂, hout₂⟩
    have hconcluded₂ := (hdialogue₂.of_off hcalm.unset).2
    rw [Check.accepts, if_pos hrunnable] at hconcluded₂
    obtain ⟨_, ⟨⟩, rfl, hw₂⟩ | ⟨_, _, ⟨⟩, -⟩ := hconcluded₂
    subst w₂
    obtain ⟨regs₂, rfl, hkept₂, hlist₂⟩ := hout₂
    have hkeeps₂ := hkeeps₁.trans hkept₂
    -- the registers of the loop
    refine .bind (runs_call (hkeeps₂.size.trans hsize) .nil (fun _ => rfl) rfl ?_)
    intro saved d₃ regs₃ hkept₃ hsaved
    have hkeeps₃ := hkeeps₂.trans hkept₃
    refine .bind (runs_ownResult (hkeeps₃.size.trans hsize) ?_)
    intro result d₄ regs₄ hresultNew hkept₄ hresult
    have hkeeps₄ := hkeeps₃.trans hkept₄
    refine runs_copied (v := .real 1.0) (hkeeps₄.size.trans hsize) (fun _ => Nat.le_refl _)
      (fun hsize₅ => runs_real hsize₅ fun _ _ regs' hkeeps hr => ⟨regs', rfl, hkeeps, hr⟩) rfl ?_
    intro counter one d₅ regs₅ hcounterNew hkept₅ hcounter hone hne
    have hkeeps₅ := hkeeps₄.trans hkept₅
    refine .bind (runs_freshLabel fun head e₁ he₁ => .bind (runs_freshLabel fun body e₂ he₂ => ?_))
    refine .bind (runs_freshLabel fun exit e₃ he₃ => .bind (runs_endBlock fun d₆ hd₆ hopen₆ => ?_))
    have hgrow := ((he₁.trans he₂).trans he₃).trans hd₆
    rw [exitTo, ← hopen₆]
    have htimes₅ := ((htimes₁.keep hkept₂).keep hkept₃).keep hkept₄
    have hsaved₅ := hsaved.keep hkept₄
    let c : LoopCode := ⟨times₁, list₂, saved, result, counter, one⟩
    have hfirst : c.Holds d regs d₆ n l node w.repcount 1 regs₅ := {
      keeps := hkeeps₅.grow hgrow
      times := ⟨x, hx, (htimes₅.keep hkept₅).grow hgrow⟩
      list := (((hlist₂.keep hkept₃).keep hkept₄).keep hkept₅).grow hgrow
      saved := (hsaved₅.keep hkept₅).grow hgrow
      result := (hresult.keep hkept₅).grow hgrow
      counter := ⟨1.0, .one, hcounter.grow hgrow⟩
      one := hone.grow hgrow
      le := by omega
      resultNew := hkeeps₃.types_size.trans hresultNew
      counterNew := hkeeps₄.types_size.trans hcounterNew
      times_ne := (Nat.lt_of_lt_of_le htimes₅.declares.lt_size hcounterNew).ne
      saved_ne := (Nat.lt_of_lt_of_le hsaved₅.declares.lt_size hcounterNew).ne
      one_ne := hne.symm }
    refine (runs_passes hopen₆ hn hsize hfirst).mono fun r d' o hleads => .inl ?_
    exact ⟨n, hn, hx, hleads⟩
  · rw [if_neg hholds] at hconcluded
    obtain ⟨_, ⟨⟩, -⟩ | ⟨e, record, -, rfl, hraises, hreports⟩ := hconcluded
    have hnot : ¬∃ n < 2 ^ 31, IsNatural n x := fun h => hholds (RangeCheck.count_holds_iff.mpr h)
    exact .skip fun _ _ _ => .inr ⟨hnot, e, record, w₁, hout, hraises, hreports⟩

end Stage

end LogoEngine
