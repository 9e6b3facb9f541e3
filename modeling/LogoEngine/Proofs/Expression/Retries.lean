import LogoEngine.Eval.Engine
import LogoEngine.Proofs.Expression.Dialogues
import LogoEngine.Proofs.Machine.Stages

/-!
# Retry loops

The code of a check follows its dialogue to the end, whatever the replies are: from the start of the
code a run comes to the consumer with a value that passed, or it returns what the dialogue ends with
(`Check.exists_conclusion`).

A loop goes around as often as there are replies. Each pass that comes back to the start has used up
one of them, so `Stage.Runs.loop` proves a loop from one pass. The loop of a range check has a second
start inside: a reply that is data but no number is reported without being tested.
-/

namespace LogoEngine

/-! ### Written registers -/

section

variable {d : Draft} {regs : Array Value} {r a : Reg} {u v : Value} {ty ty' : Ty}

/-- Registers of different types differ. -/
theorem Declares.index_ne (hr : Declares d.types r ty) (ha : Declares d.types a ty')
    (hne : ty ≠ ty') : r.index ≠ a.index := by
  intro heq
  obtain rfl : r = a := congrArg Reg.mk heq
  exact hne (Option.some.inj (hr.symm.trans ha))

theorem Carries.write_self (ha : Declares d.types a v.ty) (hlt : a.index < regs.size) :
    Carries d (writeReg regs a v) a v :=
  ⟨ha, readReg_writeReg_self hlt⟩

theorem Carries.write_of_ne (hr : Carries d regs r v) (hne : r.index ≠ a.index) :
    Carries d (writeReg regs a u) r v :=
  ⟨hr.declares, (readReg_writeReg_of_ne hne).trans hr.reads⟩

/-- A copy of a value may be written anywhere. -/
theorem Carries.write (hr : Carries d regs r v) (hlt : a.index < regs.size) :
    Carries d (writeReg regs a v) r v := by
  by_cases heq : r.index = a.index
  · obtain rfl : r = a := congrArg Reg.mk heq
    exact .write_self hr.declares hlt
  · exact hr.write_of_ne heq

end

namespace Stage

variable {s : Stage} {α ι ρ : Type} {m : Emit α} {d : Draft} {w : World} {regs : Array Value}

/-! ### Loops -/

/-- **A loop** that starts at a label: from each state of the invariant a pass ends as asked for, or
is back at the label in a state of the invariant with a smaller measure, from where every way to end
will do. -/
theorem Runs.loop {l : Label} {Q : ι → World → α → Draft → Machine.Outcome → Prop}
    (hopen : s.Opens d l) (measure : ι → World → Nat) (Inv : ι → Array Value → World → Prop)
    (hpass : ∀ i w regs, Inv i regs w → s.Runs m d (s.here d w regs) fun a d' o =>
      Q i w a d' o ∨ ∃ j w' regs', o = s.at_ l w' regs' ∧ Inv j regs' w' ∧
        measure j w' < measure i w ∧ ∀ o', Q j w' a d' o' → Q i w a d' o') :
    ∀ i w regs, Inv i regs w → s.Runs m d (s.here d w regs) (Q i w) := by
  intro i w regs hinv hwithin
  induction hn : measure i w using Nat.strong_induction_on generalizing i w regs with
  | h n ih =>
    obtain ⟨o, hleads, hq | ⟨j, w', regs', rfl, hinv', hlt, hto⟩⟩ := hpass i w regs hinv hwithin
    · exact ⟨o, hleads, hq⟩
    · obtain ⟨o', hleads', hq⟩ := ih _ (hn ▸ hlt) j w' regs' hinv' rfl
      rw [hopen] at hleads'
      exact ⟨o', hleads.trans hleads', hto o' hq⟩

/-- Calls a helper that has no result. -/
theorem runs_perform {helper : Helper} {args : List Reg} {values : List Value} {v : Value}
    {w' : World} {Q : Unit → Draft → Machine.Outcome → Prop}
    (hargs : List.Forall₂ (Carries d regs) args values)
    (hcall : ∀ pins, callHelper s.re pins helper values w = .ok (v, w'))
    (h : ∀ d', d.types.toList <+: d'.types.toList → Q () d' (s.here d' w' regs)) :
    s.Runs (Emit.perform helper args) d (s.here d w regs) Q := by
  have hreads : args.map (readReg regs) = values := by
    clear hcall
    induction hargs with
    | nil => rfl
    | cons hr _ ih => rw [List.map_cons, hr.reads, ih]
  refine runs_instr ?_ (h _ List.prefix_rfl)
  simp only [runInstr, hreads, bind, StateT.bind, Except.bind, hcall]
  rfl

/-- Copies a value into a register that the draft `d₀` does not have. Registers that hold the same
value, or are others, hold what they held. -/
theorem runs_copy {src dst : Reg} {v : Value} {d₀ : Draft} {regs₀ : Array Value}
    {Q : Unit → Draft → Machine.Outcome → Prop} (hsize : regs.size = s.final.types.size)
    (hsrc : Carries d regs src v) (hdst : Declares d.types dst v.ty) (hkeeps : Keeps d₀ regs₀ d regs)
    (hnew : d₀.types.size ≤ dst.index)
    (h : ∀ d' regs', Keeps d₀ regs₀ d' regs' → d.types.toList <+: d'.types.toList →
      Carries d' regs' dst v →
      (∀ {r u}, Carries d regs r u → (r.index = dst.index → u = v) → Carries d' regs' r u) →
      Q () d' (s.here d' w regs')) :
    s.Runs (Emit.move dst src) d (s.here d w regs) Q := by
  refine .within fun hw => runs_move fun d' hd' => ?_
  have hlt : dst.index < regs.size := hsize ▸ (hdst.mono hw.types).lt_size
  rw [hsrc.reads]
  refine h d' _ ((hkeeps.grow hd').write hnew) hd' (.write_self (hdst.mono hd') hlt) ?_
  intro r u hr hsame
  by_cases heq : r.index = dst.index
  · obtain rfl := hsame heq
    exact (hr.grow hd').write hlt
  · exact (hr.grow hd').write_of_ne heq

section

variable {who v : Ref} {candidate src : Reg}

/-! ### The steps of a retry loop -/

/-- The error of a rejected candidate. -/
theorem runs_dislike {Q : Reg → Draft → Machine.Outcome → Prop}
    (hsize : regs.size = s.final.types.size) (hcandidate : Carries d regs candidate (.datum v))
    (h : ∀ e record w' r d' regs', raise .doesntLike [who, v] w = .ok (e, w') →
      w.Raises e record w' → w'.Reports e (.doesntLike w.heap who (.datum v)) →
      Keeps d regs d' regs' → Carries d' regs' r (.datum e) → Q r d' (s.here d' w' regs')) :
    s.Runs (Emit.dislike who candidate) d (s.here d w regs) Q := by
  obtain ⟨e, w', record, hraise, hraises, hreports⟩ := exists_raises w .doesntLike [who, v]
  have hcall : ∀ pins, callHelper s.re pins .errDoesntLike [.datum who, .datum v] w =
      .ok (.datum e, w') := fun _ => map_datum_apply hraise
  refine .bind (runs_const hsize fun name d₁ regs₁ hkeeps₁ hname => ?_)
  refine runs_call (hkeeps₁.size.trans hsize) (.cons hname (.cons (hcandidate.keep hkeeps₁) .nil))
    hcall rfl fun r d₂ regs₂ hkeeps₂ hr => ?_
  exact h e record w' r d₂ regs₂ hraise hraises hreports (hkeeps₁.trans hkeeps₂) hr

/-- The code of a turn. -/
theorem runs_askAgain {Q : Reg → Draft → Machine.Outcome → Prop}
    (hsize : regs.size = s.final.types.size) (hcandidate : Carries d regs candidate (.datum v))
    (h : ∀ reply r w' d' regs', w.Turn who (.datum v) reply w' → Keeps d regs d' regs' →
      Carries d' regs' r (.datum reply) → Q r d' (s.here d' w' regs')) :
    s.Runs (Emit.askAgain who candidate) d (s.here d w regs) Q := by
  obtain ⟨e, w₁, w₂, reply, w₃, hraise, hwrite, hpause, hturn⟩ := exists_turn w who v
  have hwritten : ∀ pins, callHelper s.re pins .writeError [.datum e] w₁ = .ok (.void, w₂) :=
    fun _ => by
      refine (Run.bind_of_ok (m := writeError e) hwrite _).trans ?_
      rfl
  have hpaused : ∀ pins, callHelper s.re pins .pause [] w₂ = .ok (.datum reply, w₃) :=
    fun _ => map_datum_apply hpause
  refine .bind (runs_dislike hsize hcandidate ?_)
  intro e' _ w₁' error d₁ regs₁ hraise' _ _ hkeeps₁ herror
  cases hraise.symm.trans hraise'
  have hsize₁ := hkeeps₁.size.trans hsize
  refine .bind (runs_perform (.cons herror .nil) hwritten fun d₂ hd₂ => ?_)
  refine runs_call hsize₁ .nil hpaused rfl fun r d₃ regs₃ hkeeps₃ hr => ?_
  exact h reply r w₃ d₃ regs₃ hturn ((hkeeps₁.grow hd₂).trans hkeeps₃) hr

/-- The code that gives up a candidate returns an error. -/
theorem runs_reject {next : Label} {Q : Unit → Draft → Machine.Outcome → Prop}
    (hsize : regs.size = s.final.types.size) (hcandidate : Carries d regs candidate (.datum v))
    (h : ∀ d' e record w', w.Raises e record w' →
      w'.Reports e (.doesntLike w.heap who (.datum v)) → Q () d' (.returned e w')) :
    s.Runs (Emit.reject who candidate next) d (s.here d w regs) Q := by
  refine .bind (runs_dislike hsize hcandidate ?_)
  intro e record w' error d₁ regs₁ _ hraises hreports _ herror
  refine runs_endBlock fun d₂ _ _ => ?_
  simp only [exitTo, herror.reads]
  exact h d₂ e record w' hraises hreports

theorem runs_askOrGiveUp {ask giveUp : Label} {Q : Unit → Draft → Machine.Outcome → Prop}
    (hsize : regs.size = s.final.types.size)
    (h : ∀ d' regs', Keeps d regs d' regs' → s.Opens d' ask →
      Q () d' (s.at_ (if erractSet w then ask else giveUp) w regs')) :
    s.Runs (Emit.askOrGiveUp ask giveUp) d (s.here d w regs) Q := by
  refine .bind (runs_call hsize .nil (fun _ => rfl) rfl fun erract d₁ regs₁ hkeeps₁ herract => ?_)
  refine runs_endBlock fun d₂ hd₂ hopens => ?_
  rw [exitTo, herract.reads]
  exact h d₂ regs₁ (hkeeps₁.grow hd₂) hopens

theorem runs_branchOnData {reply : Reg} {o : Ref} {data notData next : Label}
    {Q : Unit → Draft → Machine.Outcome → Prop} (hsize : regs.size = s.final.types.size)
    (hreply : Carries d regs reply (.datum o))
    (h : ∀ d' regs', Keeps d regs d' regs' → s.Opens d' next →
      Q () d' (s.at_ (if w.heap.isData o then data else notData) w regs')) :
    s.Runs (Emit.branchOnData reply data notData next) d (s.here d w regs) Q := by
  have htest : ∀ pins, callHelper s.re pins (.hasTag dataMask) [.datum o] w =
      .ok (.truth (w.heap.isData o), w) := fun _ => rfl
  refine .bind (runs_call hsize (.cons hreply .nil) htest rfl fun isData d₁ regs₁ hkeeps₁ hr => ?_)
  refine runs_endBlock fun d₂ hd₂ hopens => ?_
  rw [exitTo, hr.reads]
  exact h d₂ regs₁ (hkeeps₁.grow hd₂) hopens

/-! ### Where dialogues lead -/

/-- Where a dialogue leads: on with a value, or out of the list. -/
def Concludes (c : Check) (who : Ref) (w : World) (v : Value) (o : Machine.Outcome)
    (Accepted : Value → World → Machine.Outcome → Prop) : Prop :=
  ∃ reports result w', c.Dialogue who w v reports result w' ∧
    match result with
    | .ok u => Accepted u w' o
    | .error e => o = .returned e w'

/-- A reply that is data is the next candidate. -/
theorem Concludes.again {c : Check} {u : Value} {reply : Ref} {w₁ : World} {o : Machine.Outcome}
    {Accepted : Value → World → Machine.Outcome → Prop} (hrejects : c.accepts w.heap u = none)
    (hon : erractSet w = true) (hturn : w.Turn who u reply w₁)
    (hdata : w₁.heap.isData reply = true)
    (h : Concludes c who w₁ (c.candidate w₁.heap reply) o Accepted) :
    Concludes c who w u o Accepted := by
  obtain ⟨reports, result, w', hdialogue, hout⟩ := h
  exact ⟨_, result, w', .again hrejects hon hturn hdata hdialogue, hout⟩

/-- A new word does not change what `ERRACT` says. -/
theorem erractSet_addWord {word new : Word} (hnamed : w.Named who word) :
    erractSet { w with heap := (w.heap.add (.word new)).2 } = erractSet w :=
  hnamed.erractSet_eq (.add _ _) rfl

/-- A number that was made a word is the same candidate. -/
theorem Concludes.of_boxed {bounds : RangeCheck} {word : Word} {x : Float} {o : Machine.Outcome}
    {Accepted : Value → World → Machine.Outcome → Prop}
    (h : Concludes (.range bounds) who { w with heap := (w.heap.add (.word (.number x))).2 }
      (.datum (w.heap.add (.word (.number x))).1) o Accepted)
    (hrejects : Check.accepts w.heap (.range bounds) (.real x) = none) (hon : erractSet w = true)
    (hnamed : w.Named who word) : Concludes (.range bounds) who w (.real x) o Accepted := by
  obtain ⟨reports, result, w', hdialogue, hout⟩ := h
  refine ⟨reports, result, w', ?_, hout⟩
  have hsame : Fault.doesntLike (w.heap.add (.word (.number x))).2 who
      (.datum (w.heap.add (.word (.number x))).1) = Fault.doesntLike w.heap who (.real x) :=
    Fault.doesntLike_add hnamed.name rfl
  have hturned {reply : Ref} {w₁ : World}
      (hturn : { w with heap := (w.heap.add (.word (.number x))).2 }.Turn who
        (.datum (w.heap.add (.word (.number x))).1) reply w₁) : w.Turn who (.real x) reply w₁ :=
    ⟨(Heap.Grows.add _ _).trans hturn.grows, hsame ▸ hturn.rest, hturn.answered⟩
  cases hdialogue with
  | accepted haccepts => cases haccepts
  | gaveUp _ hoff =>
    exact absurd ((erractSet_addWord hnamed).symm.trans hoff) (by simp [hon])
  | refused _ _ hturn hdata hrefuses =>
    rw [hsame]
    exact .refused hrejects hon (hturned hturn) hdata hrefuses
  | again _ _ hturn hdata hrest =>
    rw [hsame]
    exact .again hrejects hon (hturned hturn) hdata hrest

/-- A candidate that is an object is accepted: the run stands here, and the registers of `d₀` and
the candidate are as they should be. -/
def Accepts (s : Stage) (c : Check) (P : World → Ref → Array Value → Prop) (d₀ : Draft)
    (regs₀ : Array Value) (d : Draft) (candidate : Reg) (d' : Draft) (u : Value) (w : World)
    (o : Machine.Outcome) : Prop :=
  ∃ v regs, c.accepts w.heap (.datum v) = some u ∧ o = s.here d' w regs ∧
    Keeps d₀ regs₀ d' regs ∧ d.types.toList <+: d'.types.toList ∧
    Carries d' regs candidate (.datum v) ∧ P w v regs

variable {c : Check} {check : Reg → Emit Reg}

/-- The part of the loop of a check on objects that reports a rejected candidate and takes the reply.
A reply that is data leads back to the start as the next candidate, and any other is returned. -/
theorem runs_takeReply {α : Type} {again notData giveUp : Label} {after : Emit α}
    [Emit.Grows after] {d₀ : Draft} {regs₀ : Array Value} (hsize : regs.size = s.final.types.size)
    (hkeeps : Keeps d₀ regs₀ d regs) (hheld : Carries d regs candidate (.datum v))
    (hnew : d₀.types.size ≤ candidate.index) :
    s.Runs (do
      let reply ← Emit.askAgain who candidate
      Emit.move candidate reply
      Emit.branchOnData reply again notData notData
      Emit.endBlock (.ret candidate) giveUp
      after) d (s.here d w regs)
      fun _ _ o => ∃ reply w', w.Turn who (.datum v) reply w' ∧
        match w'.heap.isData reply with
        | true => ∃ regs', o = s.at_ again w' regs' ∧ Keeps d₀ regs₀ d regs' ∧
            readReg regs' candidate = .datum reply
        | false => o = .returned reply w' := by
  have hsized : ∀ {d' regs'}, Keeps d₀ regs₀ d' regs' → regs'.size = s.final.types.size :=
    fun hkeeps' => hkeeps'.size.trans (hkeeps.size.symm.trans hsize)
  refine .bind (runs_askAgain hsize hheld ?_)
  intro reply r w₁ d₁ regs₁ hturn hkept₁ hr
  have hkeeps₁ := hkeeps.trans hkept₁
  -- the reply is the next candidate, whether it is data or not
  refine .bind (runs_copy (hsized hkeeps₁) hr (hheld.declares.mono hkept₁.types) hkeeps₁ hnew ?_)
  intro d₂ regs₂ hkeeps₂ _ hheld₂ hothers
  have hr₂ := hothers hr fun _ => rfl
  refine .bind (runs_branchOnData (hsized hkeeps₂) hr₂ fun d₃ regs₃ hkept₃ hopen₃ => ?_)
  have hkeeps₃ := hkeeps₂.trans hkept₃
  have hheld₃ := hheld₂.keep hkept₃
  cases hdata : w₁.heap.isData reply with
  | true =>
    refine .skip fun _ _ _ => ⟨reply, w₁, hturn, ?_⟩
    simp only [hdata]
    exact ⟨regs₃, rfl, ⟨hkeeps.types, hkeeps₃.size, hkeeps₃.kept⟩, hheld₃.reads⟩
  | false =>
    rw [if_neg Bool.false_ne_true, ← hopen₃]
    refine .bind (runs_endBlock fun _ _ _ => .skip fun _ _ _ => ⟨reply, w₁, hturn, ?_⟩)
    simp only [hdata, exitTo, hheld₃.reads, Value.asDatum]

/-- The loop of a check on objects follows its dialogue. -/
theorem runs_retryDatum [∀ r, Emit.Grows (check r)] (hobject : ∀ bounds, c ≠ .range bounds)
    {d₀ : Draft} {regs₀ : Array Value} {P : World → Ref → Array Value → Prop}
    (hsize : regs.size = s.final.types.size) (hkeeps : Keeps d₀ regs₀ d regs)
    (hsrc : Carries d regs src (.datum v))
    (hcheck : ∀ w v candidate d₁ regs₁, d.types.size ≤ candidate.index →
      d.types.toList <+: d₁.types.toList → Keeps d₀ regs₀ d₁ regs₁ →
      Carries d₁ regs₁ candidate (.datum v) →
      s.Runs (check candidate) d₁ (s.here d₁ w regs₁) fun valid d₂ o => ∃ regs₂,
        o = s.here d₂ w regs₂ ∧ Keeps d₀ regs₀ d₂ regs₂ ∧ d₁.types.toList <+: d₂.types.toList ∧
        Carries d₂ regs₂ candidate (.datum v) ∧
        Carries d₂ regs₂ valid (.truth (c.accepts w.heap (.datum v)).isSome) ∧ P w v regs₂) :
    s.Runs (Emit.retryDatum who src check) d (s.here d w regs) fun candidate d' o =>
      Concludes c who w (.datum v) o (s.Accepts c P d₀ regs₀ d candidate d') := by
  unfold Emit.retryDatum
  refine .bind (runs_freshReg fun candidate d₁ hnew hd₁ hty => .bind ?_)
  have hnew₀ : d₀.types.size ≤ candidate.index := hkeeps.types_size.trans hnew
  refine runs_copy hsize (hsrc.grow hd₁) hty (hkeeps.grow hd₁) hnew₀ ?_
  intro d₂ regs₂ hkeeps₂ hd₂ hheld _
  refine .bind (runs_freshLabel fun again e₁ he₁ => ?_)
  refine .bind (runs_freshLabel fun rejected e₂ he₂ => ?_)
  refine .bind (runs_freshLabel fun ask e₃ he₃ => ?_)
  refine .bind (runs_freshLabel fun notData e₄ he₄ => ?_)
  refine .bind (runs_freshLabel fun giveUp e₅ he₅ => ?_)
  refine .bind (runs_freshLabel fun accept e₆ he₆ => ?_)
  refine .bind (runs_endBlock fun d₃ hd₃ hopen₃ => ?_)
  have hgrow : d₂.types.toList <+: d₃.types.toList :=
    ((((((he₁.trans he₂).trans he₃).trans he₄).trans he₅).trans he₆).trans hd₃)
  have hgrow₃ : d.types.toList <+: d₃.types.toList := (hd₁.trans hd₂).trans hgrow
  rw [exitTo, ← hopen₃]
  -- a reply that is data takes the run back here with one reply less to come
  refine Runs.loop (Q := fun v w candidate d' o => Concludes c who w (.datum v) o
      (s.Accepts c P d₀ regs₀ d candidate d')) hopen₃ (fun _ w => w.host.replies.length)
    (fun v regs _ => Keeps d₀ regs₀ d₃ regs ∧ Carries d₃ regs candidate (.datum v))
    (fun v w regs₃ hinv => ?_) v w regs₂ ⟨hkeeps₂.grow hgrow, hheld.grow hgrow⟩
  obtain ⟨hkeeps₃, hheld₃⟩ := hinv
  have hsize₃ : ∀ {d' regs'}, Keeps d₀ regs₀ d' regs' → regs'.size = s.final.types.size := by
    intro d' regs' hkeeps'
    rw [hkeeps'.size, ← hkeeps.size, hsize]
  refine .bind ((hcheck w v candidate d₃ regs₃ hnew hgrow₃ hkeeps₃ hheld₃).mono ?_)
  rintro valid d₄ _ ⟨regs₄, rfl, hkeeps₄, hd₄, hheld₄, hvalid, hP⟩
  refine .bind (runs_endBlock fun d₅ hd₅ hopen₅ => ?_)
  simp only [exitTo, hvalid.reads, Value.asTruth]
  cases haccepts : c.accepts w.heap (.datum v) with
  | some u =>
    -- all the code up to the label of acceptance is passed by
    refine .past ?_
    repeat first | refine .opens fun _ d₆ hd₆ => ?_ | refine .pass fun _ _ => ?_
    have hgrow₆ := hd₅.trans hd₆
    refine .pure (.inl ⟨[], .ok u, w, .accepted haccepts, v, regs₄, haccepts, rfl, ?_⟩)
    exact ⟨hkeeps₄.grow hgrow₆, (hgrow₃.trans hd₄).trans hgrow₆, hheld₄.grow hgrow₆, hP⟩
  | none =>
    simp only [Option.isSome_none, Bool.false_eq_true, if_false]
    rw [← hopen₅]
    have hkeeps₅ := hkeeps₄.grow hd₅
    refine .bind (runs_askOrGiveUp (hsize₃ hkeeps₅) fun d₆ regs₆ hkept₆ hopen₆ => ?_)
    have hkeeps₆ := hkeeps₅.trans hkept₆
    have hheld₆ := (hheld₄.grow hd₅).keep hkept₆
    cases hon : erractSet w with
    | false =>
      refine .past ?_
      repeat first | refine .opens fun _ d₇ hd₇ => ?_ | refine .pass fun _ _ => ?_
      refine .bind (runs_reject (hsize₃ hkeeps₆) (hheld₆.grow hd₇) ?_)
      intro _ e record w' hraises hreports
      exact .pure (.inl ⟨[], .error e, w', .gaveUp haccepts hon hraises hreports, rfl⟩)
    | true =>
      rw [if_pos rfl, ← hopen₆]
      refine (runs_takeReply (hsize₃ hkeeps₆) hkeeps₆ hheld₆ hnew₀).mono ?_
      rintro _ _ o ⟨reply, w₇, hturn, hout⟩
      cases hdata : w₇.heap.isData reply with
      | true =>
        rw [hdata] at hout
        obtain ⟨regs₇, rfl, hkeeps₇, hread₇⟩ := hout
        have hcandidate : c.candidate w₇.heap reply = .datum reply := by
          cases c with
          | range bounds => exact absurd rfl (hobject bounds)
          | _ => rfl
        have hback : Keeps d₀ regs₀ d₃ regs₇ := ⟨hkeeps₃.types, hkeeps₇.size, hkeeps₇.kept⟩
        exact .inr ⟨reply, w₇, regs₇, rfl, ⟨hback, hheld₃.declares, hread₇⟩,
          hturn.replies_lt hdata, fun o' hq => .again haccepts hon hturn hdata (hcandidate ▸ hq)⟩
      | false =>
        rw [hdata] at hout
        have hrefuses : c.Refuses w₇ reply reply w₇ := by
          cases c with
          | range bounds => exact absurd rfl (hobject bounds)
          | _ => exact ⟨rfl, rfl⟩
        exact .inl ⟨_, .error reply, w₇, .refused haccepts hon hturn hdata hrefuses, hout⟩

/-- The run stands here with a value in a register, and older registers are as they were. -/
def GoesOn (s : Stage) (d : Draft) (regs : Array Value) (r : Reg) (d' : Draft) (u : Value)
    (w : World) (o : Machine.Outcome) : Prop :=
  ∃ regs', o = s.here d' w regs' ∧ Keeps d regs d' regs' ∧ Carries d' regs' r u

/-- Objects that are read as native values: `read?` reads them, and `give` is the contents of a
register. -/
private theorem runs_readDatum {β : Type} (c : Check) (read valid : Helper)
    (read? : Heap → Ref → Option β) (give : β → Value) (default : β) {ty : Ty}
    (hobject : ∀ bounds, c ≠ .range bounds) (hsize : regs.size = s.final.types.size)
    (hsrc : Carries d regs src (.datum v)) (hty : ∀ b, (give b).ty = ty)
    (hreadTy : read.signature.ret.getD .datum = ty)
    (hread : ∀ w r pins, callHelper s.re pins read [.datum r] w =
      .ok (give ((read? w.heap r).getD default), w))
    (hvalidTy : valid.signature.ret.getD .datum = .truth)
    (hvalid : ∀ w r pins, callHelper s.re pins valid [.datum r] w =
      .ok (.truth (read? w.heap r).isSome, w))
    (haccepts : ∀ h r, c.accepts h (.datum r) = (read? h r).map give) :
    s.Runs (do
      let result ← Emit.freshReg ty
      let _ ← Emit.retryDatum who src fun candidate => do
        let value ← Emit.call read [candidate]
        Emit.move result value
        Emit.call valid [candidate]
      return result) d (s.here d w regs)
      fun r d' o => Concludes c who w (.datum v) o (s.GoesOn d regs r d') := by
  let value (h : Heap) (r : Ref) : Value := give ((read? h r).getD default)
  refine .bind (runs_freshReg fun result d₁ hnew hd₁ hresult => .bind ?_)
  refine (runs_retryDatum (P := fun w r regs' => readReg regs' result = value w.heap r) hobject
    hsize (Keeps.refl.grow hd₁) (hsrc.grow hd₁) ?_).mono ?_
  · intro w v candidate d₂ regs₂ hcandidate hd₂ hkeeps₂ hheld
    have hsize₂ : regs₂.size = s.final.types.size := hkeeps₂.size.trans hsize
    refine .bind (runs_call hsize₂ (.cons hheld .nil) (hread w v) ((hty _).trans hreadTy.symm) ?_)
    intro read' d₃ regs₃ hkeeps₃ hread'
    -- the candidate is another register than the result
    have hne : candidate.index ≠ result.index := by
      have := hresult.lt_size
      omega
    have hresult₃ : Declares d₃.types result (value w.heap v).ty :=
      (hty _).symm ▸ (hresult.mono hd₂).mono hkeeps₃.types
    refine .bind (runs_copy (hkeeps₃.size.trans hsize₂) hread' hresult₃ (hkeeps₂.trans hkeeps₃)
      hnew ?_)
    intro d₄ regs₄ hkeeps₄ hd₄ hresult₄ hothers
    have hheld₄ := hothers (hheld.keep hkeeps₃) fun heq => absurd heq hne
    refine runs_call (hkeeps₄.size.trans hsize) (.cons hheld₄ .nil) (hvalid w v) hvalidTy.symm ?_
    intro r d₅ regs₅ hkeeps₅ hr
    rw [← Option.isSome_map (f := give), ← haccepts] at hr
    exact ⟨regs₅, rfl, hkeeps₄.trans hkeeps₅, (hkeeps₃.types.trans hd₄).trans hkeeps₅.types,
      hheld₄.keep hkeeps₅, hr, (hresult₄.keep hkeeps₅).reads⟩
  · rintro candidate d₂ o ⟨reports, outcome, w', hdialogue, hout⟩
    refine .pure ⟨reports, outcome, w', hdialogue, ?_⟩
    cases outcome with
    | error e => exact hout
    | ok u =>
      obtain ⟨v', regs₂, hpasses, ho, hkeeps₂, hd₂, -, hreads⟩ := hout
      have hu : value w'.heap v' = u := by
        obtain ⟨b, hb, rfl⟩ := Option.map_eq_some_iff.mp ((haccepts _ _).symm.trans hpasses)
        simp only [value, hb, Option.getD_some]
      refine ⟨regs₂, ho, hkeeps₂, ?_, hreads.trans hu⟩
      rw [← hu, hty]
      exact hresult.mono hd₂

/-! ### Range checks -/

variable {bounds : RangeCheck} {word : Word}

/-- A pass of the loop of a range check starts with a number that is to be checked. -/
structure Awaits (d₀ : Draft) (regs₀ : Array Value) (d : Draft) (candidate : Reg) (who : Ref)
    (word : Word) (x : Float) (regs : Array Value) (w : World) : Prop where
  keeps : Keeps d₀ regs₀ d regs
  held : Carries d regs candidate (.real x)
  named : w.Named who word

/-- What a pass comes to: the dialogue has ended, or the run is back at the start with a number that
was read from a reply. -/
def Passes (s : Stage) (bounds : RangeCheck) (who : Ref) (again : Label)
    (Inv : Float → Array Value → World → Prop) (d : Draft) (regs : Array Value) (w : World)
    (v : Value) (a : Reg) (d' : Draft) (o : Machine.Outcome) : Prop :=
  Concludes (.range bounds) who w v o (s.GoesOn d regs a d') ∨
    ∃ x w' regs', o = s.at_ again w' regs' ∧ Inv x regs' w' ∧
      w'.host.replies.length < w.host.replies.length ∧
      ∀ o', Concludes (.range bounds) who w' (.real x) o' (s.GoesOn d regs a d') →
        Concludes (.range bounds) who w v o' (s.GoesOn d regs a d')

/-- The part of the loop of a range check that reads a reply. The reply is the next value to report,
and if it has a number, that is the next candidate. -/
theorem runs_readNumber {α : Type} {again ask notData : Label} {after : Emit α} [Emit.Grows after]
    {d₀ : Draft} {regs₀ : Array Value} {bad reply : Reg} {r : Ref}
    (hsize : regs₀.size = s.final.types.size) (hkeeps : Keeps d₀ regs₀ d regs)
    (hcandidate : Declares d.types candidate .real) (hnew : d₀.types.size ≤ candidate.index)
    (hbad : Declares d.types bad .datum) (hnewBad : d₀.types.size ≤ bad.index)
    (hreply : Carries d regs reply (.datum r)) :
    s.Runs (do
      Emit.move bad reply
      let number ← Emit.call .realOf [reply]
      Emit.move candidate number
      let isNumber ← Emit.call .realValid [reply]
      Emit.endBlock (.branch isNumber again ask) notData
      after) d (s.here d w regs)
      fun _ _ o => ∃ regs', Keeps d₀ regs₀ d regs' ∧ readReg regs' bad = .datum r ∧
        match w.heap.number? r with
        | some x => o = s.at_ again w regs' ∧ readReg regs' candidate = .real x
        | none => o = s.at_ ask w regs' := by
  have hsized : ∀ {d' regs'}, Keeps d₀ regs₀ d' regs' → regs'.size = s.final.types.size :=
    fun hkeeps' => hkeeps'.size.trans hsize
  refine .bind (runs_copy (hsized hkeeps) hreply hbad hkeeps hnewBad ?_)
  intro d₁ regs₁ hkeeps₁ hd₁ hheld₁ hothers₁
  have hreply₁ := hothers₁ hreply fun _ => rfl
  refine .bind (runs_call (hsized hkeeps₁) (.cons hreply₁ .nil) (fun _ => rfl) rfl ?_)
  intro number d₂ regs₂ hkept₂ hnumber
  have hkeeps₂ := hkeeps₁.trans hkept₂
  have hheld₂ := hheld₁.keep hkept₂
  have hreply₂ := hreply₁.keep hkept₂
  have hdeclared : Declares d₂.types candidate .real := (hcandidate.mono hd₁).mono hkept₂.types
  let y : Float := (w.heap.number? r).getD 0.0
  refine .bind (runs_copy (v := .real y) (hsized hkeeps₂) hnumber hdeclared hkeeps₂ hnew ?_)
  intro d₃ regs₃ hkeeps₃ hd₃ hread₃ hothers₃
  -- registers that hold objects are others than the candidate
  have hheld₃ := hothers₃ hheld₂ fun heq =>
    absurd heq (hheld₂.declares.index_ne hdeclared (by simp [Value.ty]))
  have hreply₃ := hothers₃ hreply₂ fun heq =>
    absurd heq (hreply₂.declares.index_ne hdeclared (by simp [Value.ty]))
  refine .bind (runs_call (hsized hkeeps₃) (.cons hreply₃ .nil) (fun _ => rfl) rfl ?_)
  intro isNumber d₄ regs₄ hkept₄ hisNumber
  have hkeeps₄ := hkeeps₃.trans hkept₄
  refine .bind (runs_endBlock fun d₅ _ _ => .skip fun _ _ _ => ⟨regs₄, ?_, ?_, ?_⟩)
  · exact ⟨hkeeps.types, hkeeps₄.size, hkeeps₄.kept⟩
  · exact (hheld₃.keep hkept₄).reads
  · have hread₄ := (hread₃.keep hkept₄).reads
    simp only [exitTo, hisNumber.reads, Value.asTruth, datumArg, List.getElem?_cons_zero,
      Option.getD_some, Value.asDatum]
    cases hnumber? : w.heap.number? r with
    | some x =>
      have hy : y = x := by simp only [y, hnumber?, Option.getD_some]
      exact ⟨by rw [Option.isSome_some, if_pos rfl], hy ▸ hread₄⟩
    | none => rw [Option.isSome_none, if_neg Bool.false_ne_true]

/-- The part of the loop of a range check that reports a rejected candidate and reads the reply. A
reply that is data but no number leads back to its start. -/
theorem runs_asking (bounds : RangeCheck) {d₀ d₃ : Draft} {regs₀ : Array Value} {bad : Reg}
    {again ask readReply notData giveUp : Label} {after : Emit Reg} [Emit.Grows after]
    (hsize : regs₀.size = s.final.types.size) (hopen : s.Opens d ask)
    (hd₀ : d₀.types.toList <+: d₃.types.toList) (hd₃ : d₃.types.toList <+: d.types.toList)
    (hcandidate : Declares d₃.types candidate .real) (hnew : d₀.types.size ≤ candidate.index)
    (hbad : Declares d₃.types bad .datum) (hnewBad : d₀.types.size ≤ bad.index)
    {b : Ref} (hkeeps : Keeps d₀ regs₀ d regs) (hheld : Carries d regs bad (.datum b))
    (hnamed : w.Named who word) (hon : erractSet w = true) :
    s.Runs (do
      let reply ← Emit.askAgain who bad
      Emit.branchOnData reply readReply notData readReply
      Emit.move bad reply
      let number ← Emit.call .realOf [reply]
      Emit.move candidate number
      let isNumber ← Emit.call .realValid [reply]
      Emit.endBlock (.branch isNumber again ask) notData
      let escape ← Emit.call .errToplevel []
      Emit.endBlock (.ret escape) giveUp
      after) d (s.here d w regs)
      (s.Passes bounds who again (Awaits d₀ regs₀ d₃ candidate who word) d₀ regs₀ w (.datum b)) := by
  -- a reply that is data takes the run back here with one reply less to come
  refine Runs.loop (Q := fun b w => s.Passes bounds who again
      (Awaits d₀ regs₀ d₃ candidate who word) d₀ regs₀ w (.datum b)) hopen
    (fun _ w => w.host.replies.length)
    (fun b regs w => Keeps d₀ regs₀ d regs ∧ Carries d regs bad (.datum b) ∧
      w.Named who word ∧ erractSet w = true) (fun b w regs hinv => ?_) b w regs
    ⟨hkeeps, hheld, hnamed, hon⟩
  obtain ⟨hkeeps, hheld, hnamed, hon⟩ := hinv
  have hsized : ∀ {d' regs'}, Keeps d₀ regs₀ d' regs' → regs'.size = s.final.types.size :=
    fun hkeeps' => hkeeps'.size.trans hsize
  have hrejects : Check.accepts w.heap (.range bounds) (.datum b) = none := rfl
  refine .bind (runs_askAgain (hsized hkeeps) hheld ?_)
  intro reply r w₁ d₁ regs₁ hturn hkept₁ hr
  have hkeeps₁ := hkeeps.trans hkept₁
  refine .bind (runs_branchOnData (hsized hkeeps₁) hr fun d₄ regs₄ hkept₄ hopen₄ => ?_)
  have hkeeps₄ := hkeeps₁.trans hkept₄
  cases hdata : w₁.heap.isData reply with
  | false =>
    refine .past ?_
    repeat first | refine .opens fun _ d₅ hd₅ => ?_ | refine .pass fun _ _ => ?_
    obtain ⟨e, w', record, hthrow, hraises, hthrown⟩ := exists_throwToplevel w₁
    refine .bind (runs_call (hsized hkeeps₄) .nil (fun _ => map_datum_apply hthrow) rfl ?_)
    intro escape d₆ regs₆ _ hescape
    refine .bind (runs_endBlock fun d₇ _ _ => .skip fun _ _ _ => .inl (.inl ?_))
    simp only [exitTo, hescape.reads, Value.asDatum]
    exact ⟨_, .error e, w', .refused hrejects hon hturn hdata ⟨⟨record, hraises⟩, hthrown⟩, rfl⟩
  | true =>
    rw [if_pos rfl, ← hopen₄]
    have hgrown₄ : d₃.types.toList <+: d₄.types.toList :=
      (hd₃.trans hkept₁.types).trans hkept₄.types
    refine (runs_readNumber hsize hkeeps₄ (hcandidate.mono hgrown₄) hnew (hbad.mono hgrown₄) hnewBad
      (hr.keep hkept₄)).mono ?_
    rintro a d' o ⟨regs₅, hkeeps₅, hread₅, hout⟩
    have hnamed₁ := hnamed.grow hturn.grows hturn.frames
    have hfewer := hturn.replies_lt hdata
    cases hread : w₁.heap.number? reply with
    | some z =>
      rw [hread] at hout
      obtain ⟨rfl, hcandidate₅⟩ := hout
      have hnext : Check.candidate w₁.heap (.range bounds) reply = .real z := by
        simp only [Check.candidate, hread, Option.map_some, Option.getD_some]
      have hback : Awaits d₀ regs₀ d₃ candidate who word z regs₅ w₁ :=
        ⟨⟨hd₀, hkeeps₅.size, hkeeps₅.kept⟩, ⟨hcandidate, hcandidate₅⟩, hnamed₁⟩
      exact .inl (.inr ⟨z, w₁, regs₅, rfl, hback, hfewer, fun o' h =>
        .again hrejects hon hturn hdata (hnext ▸ h)⟩)
    | none =>
      rw [hread] at hout
      subst hout
      have hnext : Check.candidate w₁.heap (.range bounds) reply = .datum reply := by
        simp only [Check.candidate, hread, Option.map_none, Option.getD_none]
      refine .inr ⟨reply, w₁, regs₅, rfl, ⟨⟨hkeeps.types, hkeeps₅.size, hkeeps₅.kept⟩,
        ⟨hbad.mono hd₃, hread₅⟩, hnamed₁,
        World.erractSet_of_grows hon hturn.grows hturn.frames⟩, hfewer, ?_⟩
      rintro o' (hconcludes | ⟨z, w', regs', ho, hinv', hlt', hto⟩)
      · exact .inl (.again hrejects hon hturn hdata (hnext ▸ hconcludes))
      · exact .inr ⟨z, w', regs', ho, hinv', hlt'.trans hfewer, fun o' h =>
          .again hrejects hon hturn hdata (hnext ▸ hto o' h)⟩

/-- The part of the loop of a range check that makes a rejected number a word, which is the first
value to report. -/
theorem runs_boxRejected {α : Type} {ask giveUp : Label} {after : Emit α} [Emit.Grows after]
    {d₀ : Draft} {regs₀ : Array Value} {bad : Reg} {x : Float}
    {Q : α → Draft → Machine.Outcome → Prop} (hsize : regs₀.size = s.final.types.size)
    (hkeeps : Keeps d₀ regs₀ d regs) (hheld : Carries d regs candidate (.real x))
    (hbad : Declares d.types bad .datum) (hnew : d₀.types.size ≤ bad.index)
    (hnamed : w.Named who word)
    (h : ∀ d' regs', Keeps d₀ regs₀ d' regs' → d.types.toList <+: d'.types.toList →
      Carries d' regs' bad (.datum (w.heap.add (.word (.number x))).1) → s.Opens d' ask →
      s.Runs after d' (s.at_ (if erractSet w then ask else giveUp)
        { w with heap := (w.heap.add (.word (.number x))).2 } regs') Q) :
    s.Runs (do
      let word ← Emit.call .wordFromReal [candidate]
      Emit.move bad word
      Emit.askOrGiveUp ask giveUp
      after) d (s.here d w regs) Q := by
  have hsized : ∀ {d' regs'}, Keeps d₀ regs₀ d' regs' → regs'.size = s.final.types.size :=
    fun hkeeps' => hkeeps'.size.trans hsize
  have hcall : ∀ pins, callHelper s.re pins .wordFromReal [.real x] w =
      .ok (.datum (w.heap.add (.word (.number x))).1,
        { w with heap := (w.heap.add (.word (.number x))).2 }) := fun _ => rfl
  refine .bind (runs_call (hsized hkeeps) (.cons hheld .nil) hcall rfl ?_)
  intro made d₁ regs₁ hkept₁ hmade
  have hkeeps₁ := hkeeps.trans hkept₁
  refine .bind (runs_copy (hsized hkeeps₁) hmade (hbad.mono hkept₁.types) hkeeps₁ hnew ?_)
  intro d₂ regs₂ hkeeps₂ hd₂ hbad₂ _
  refine .bind (runs_askOrGiveUp (hsized hkeeps₂) fun d₃ regs₃ hkept₃ hopen₃ => ?_)
  rw [erractSet_addWord hnamed]
  exact h d₃ regs₃ (hkeeps₂.trans hkept₃) ((hkept₁.types.trans hd₂).trans hkept₃.types)
    (hbad₂.keep hkept₃) hopen₃

/-- The loop of a range check follows its dialogue. -/
theorem runs_retryReal [∀ r, Emit.Grows (check r)] {x : Float}
    (hsize : regs.size = s.final.types.size) (hnamed : w.Named who word)
    (hsrc : Carries d regs src (.real x))
    (hcheck : ∀ x w candidate d₁ regs₁, regs₁.size = s.final.types.size →
      Carries d₁ regs₁ candidate (.real x) →
      s.Runs (check candidate) d₁ (s.here d₁ w regs₁) fun valid d₂ o => ∃ regs₂,
        o = s.here d₂ w regs₂ ∧ Keeps d₁ regs₁ d₂ regs₂ ∧
        Carries d₂ regs₂ valid (.truth (bounds.holds x))) :
    s.Runs (Emit.retryReal who src check) d (s.here d w regs)
      fun r d' o => Concludes (.range bounds) who w (.real x) o (s.GoesOn d regs r d') := by
  unfold Emit.retryReal
  refine .bind (runs_freshReg fun candidate d₁ hnew hd₁ hty => .bind ?_)
  refine runs_copy hsize (hsrc.grow hd₁) hty (Keeps.refl.grow hd₁) hnew ?_
  intro d₂ regs₂ hkeeps₂ hd₂ hheld _
  refine .bind (runs_freshReg fun bad e₀ hbad he₀ hbadTy => .bind ?_)
  refine runs_freshLabel fun again e₁ he₁ => ?_
  refine .bind (runs_freshLabel fun rejected e₂ he₂ => ?_)
  refine .bind (runs_freshLabel fun ask e₃ he₃ => ?_)
  refine .bind (runs_freshLabel fun readReply e₄ he₄ => ?_)
  refine .bind (runs_freshLabel fun notData e₅ he₅ => ?_)
  refine .bind (runs_freshLabel fun giveUp e₆ he₆ => ?_)
  refine .bind (runs_freshLabel fun accept e₇ he₇ => ?_)
  refine .bind (runs_endBlock fun d₃ hd₃ hopen₃ => ?_)
  have hlabels : e₀.types.toList <+: d₃.types.toList :=
    ((((((he₁.trans he₂).trans he₃).trans he₄).trans he₅).trans he₆).trans he₇).trans hd₃
  have hgrow := he₀.trans hlabels
  rw [exitTo, ← hopen₃]
  -- a reply that reads as a number takes the run back here with one reply less to come
  refine Runs.loop (Q := fun x w a d' o =>
      Concludes (.range bounds) who w (.real x) o (s.GoesOn d regs a d')) hopen₃
    (fun _ w => w.host.replies.length) (Awaits d regs d₃ candidate who word)
    (fun x w regs₃ hinv => ?_) x w regs₂ ⟨hkeeps₂.grow hgrow, hheld.grow hgrow, hnamed⟩
  obtain ⟨hkeeps₃, hheld₃, hnamed⟩ := hinv
  have hsize₃ : ∀ {d' regs'}, Keeps d regs d' regs' → regs'.size = s.final.types.size :=
    fun hkeeps' => hkeeps'.size.trans hsize
  refine .bind ((hcheck x w candidate d₃ regs₃ (hsize₃ hkeeps₃) hheld₃).mono ?_)
  rintro valid d₄ _ ⟨regs₄, rfl, hchecked, hvalid⟩
  have hkeeps₄ := hkeeps₃.trans hchecked
  have hheld₄ := hheld₃.keep hchecked
  have hbad₄ : Declares d₄.types bad .datum := (hbadTy.mono hlabels).mono hchecked.types
  refine .bind (runs_endBlock fun d₅ hd₅ hopen₅ => ?_)
  simp only [exitTo, hvalid.reads, Value.asTruth]
  cases hholds : bounds.holds x with
  | true =>
    refine .past ?_
    repeat first | refine .opens fun _ d₆ hd₆ => ?_ | refine .pass fun _ _ => ?_
    have hgrow₆ := hd₅.trans hd₆
    have haccepts : Check.accepts w.heap (.range bounds) (.real x) = some (.real x) := if_pos hholds
    exact .pure (.inl ⟨[], .ok (.real x), w, .accepted haccepts, regs₄, rfl, hkeeps₄.grow hgrow₆,
      hheld₄.grow hgrow₆⟩)
  | false =>
    have hrejects : Check.accepts w.heap (.range bounds) (.real x) = none :=
      if_neg (by simp [hholds])
    simp only [Bool.false_eq_true, if_false]
    rw [← hopen₅]
    refine runs_boxRejected hsize (hkeeps₄.grow hd₅) (hheld₄.grow hd₅) (hbad₄.mono hd₅)
      (hkeeps₂.types_size.trans hbad) hnamed fun d₆ regs₆ hkeeps₆ hgrow₆ hbad₆ hopen₆ => ?_
    have hnamedBoxed : { w with heap := (w.heap.add (.word (.number x))).2 }.Named who word :=
      hnamed.grow (.add _ _) rfl
    cases hon : erractSet w with
    | false =>
      refine .past ?_
      repeat first | refine .opens fun _ d₇ hd₇ => ?_ | refine .pass fun _ _ => ?_
      refine .bind (runs_reject (hsize₃ hkeeps₆) (hbad₆.grow hd₇) ?_)
      intro _ e record w' hraises hreports
      rw [Fault.doesntLike_add (v := .real x) hnamed.name rfl] at hreports
      exact .pure (.inl
        ⟨[], .error e, w', .gaveUp hrejects hon (hraises.of_add rfl) hreports, rfl⟩)
    | true =>
      rw [if_pos rfl, ← hopen₆]
      have hbad₃ : Declares d₃.types bad .datum := hbadTy.mono hlabels
      have hgrow₃ : d₃.types.toList <+: d₆.types.toList := (hchecked.types.trans hd₅).trans hgrow₆
      refine (runs_asking bounds hsize hopen₆ hkeeps₃.types hgrow₃ hheld₃.declares hnew hbad₃
        (hkeeps₂.types_size.trans hbad) hkeeps₆ hbad₆ hnamedBoxed
        ((erractSet_addWord hnamed).trans hon)).mono ?_
      rintro a d' o (hconcludes | ⟨x', w', regs', ho, hinv', hlt', hto⟩)
      · exact .inl (hconcludes.of_boxed hrejects hon hnamed)
      · exact .inr ⟨x', w', regs', ho, hinv', hlt', fun o' h =>
          (hto o' h).of_boxed hrejects hon hnamed⟩

/-- A number is compared with zero and tested for being an integer. -/
theorem runs_compareZero_isInt {op : CompareOp} {both : Reg → Reg → Emit Reg}
    [∀ p q, Emit.Grows (both p q)] {x : Float} {Q : Reg → Draft → Machine.Outcome → Prop}
    (hsize : regs.size = s.final.types.size)
    (hheld : Carries d regs candidate (.real x))
    (hboth : ∀ p q d' regs', regs'.size = s.final.types.size → Keeps d regs d' regs' →
      Carries d' regs' p (.truth (op.eval x 0.0)) → Carries d' regs' q (.truth (isInt32 x)) →
      s.Runs (both p q) d' (s.here d' w regs') Q) :
    s.Runs (do
      let zero ← Emit.real 0.0
      let p ← Emit.compare op candidate zero
      let q ← Emit.isInt candidate
      both p q) d (s.here d w regs) Q := by
  refine .bind (runs_real hsize fun zero d₁ regs₁ hkeeps₁ hzero => ?_)
  have hsize₁ := hkeeps₁.size.trans hsize
  have hheld₁ := hheld.keep hkeeps₁
  refine .bind (runs_compare hsize₁ hheld₁ hzero fun p d₂ regs₂ hkeeps₂ hp => ?_)
  have hsize₂ := hkeeps₂.size.trans hsize₁
  refine .bind (runs_isInt hsize₂ (hheld₁.keep hkeeps₂) fun q d₃ regs₃ hkeeps₃ hq => ?_)
  exact hboth p q d₃ regs₃ (hkeeps₃.size.trans hsize₂) ((hkeeps₁.trans hkeeps₂).trans hkeeps₃)
    (hp.keep hkeeps₃) hq

/-- The code that tests a number against a range leaves whether it is in the range. -/
theorem runs_range (bounds : RangeCheck) {x : Float} (hsize : regs.size = s.final.types.size)
    (hnamed : w.Named who word) (hsrc : Carries d regs src (.real x)) :
    s.Runs (bounds.emit who src) d (s.here d w regs)
      fun r d' o => Concludes (.range bounds) who w (.real x) o (s.GoesOn d regs r d') := by
  cases bounds with
  | int32 =>
    exact runs_retryReal hsize hnamed hsrc fun x w candidate d₁ regs₁ hsize₁ hheld =>
      runs_isInt hsize₁ hheld fun _ _ regs' hkeeps hr => ⟨regs', rfl, hkeeps, hr⟩
  | toZero op =>
    refine runs_retryReal hsize hnamed hsrc fun x w candidate d₁ regs₁ hsize₁ hheld => ?_
    refine .bind (runs_real hsize₁ fun zero d₂ regs₂ hkeeps₂ hzero => ?_)
    exact runs_compare (hkeeps₂.size.trans hsize₁) (hheld.keep hkeeps₂) hzero
      fun _ _ regs' hkeeps hr => ⟨regs', rfl, hkeeps₂.trans hkeeps, hr⟩
  | nonzeroInt32 | positiveInt32 =>
    refine runs_retryReal hsize hnamed hsrc fun x w candidate d₁ regs₁ hsize₁ hheld => ?_
    refine runs_compareZero_isInt hsize₁ hheld fun p q d₂ regs₂ hsize₂ hkeeps₂ hp hq => ?_
    exact runs_and hsize₂ hp hq fun _ _ regs' hkeeps hr => ⟨regs', rfl, hkeeps₂.trans hkeeps, hr⟩
  | count =>
    refine runs_retryReal hsize hnamed hsrc fun x w candidate d₁ regs₁ hsize₁ hheld => ?_
    refine runs_compareZero_isInt hsize₁ hheld fun p q d₂ regs₂ hsize₂ hkeeps₂ hp hq => ?_
    exact runs_and hsize₂ hq hp fun _ _ regs' hkeeps hr => ⟨regs', rfl, hkeeps₂.trans hkeeps, hr⟩

/-- The numeric reading of an object. -/
theorem runs_number (hsize : regs.size = s.final.types.size)
    (hsrc : Carries d regs src (.datum v)) :
    s.Runs (Emit.realFromDatum who src) d (s.here d w regs)
      fun r d' o => Concludes .number who w (.datum v) o (s.GoesOn d regs r d') :=
  runs_readDatum .number .realOf .realValid Heap.number? .real 0.0 (fun _ h => by cases h) hsize
    hsrc (fun _ => rfl) rfl (fun _ _ _ => rfl) rfl (fun _ _ _ => rfl) fun _ _ => rfl

/-- The truth value of an object. -/
theorem runs_truthValue (hsize : regs.size = s.final.types.size)
    (hsrc : Carries d regs src (.datum v)) :
    s.Runs (Emit.truthFromDatum who src) d (s.here d w regs)
      fun r d' o => Concludes .truth who w (.datum v) o (s.GoesOn d regs r d') :=
  runs_readDatum .truth .truthOf .truthValid Heap.truth? .truth false (fun _ h => by cases h) hsize
    hsrc (fun _ => rfl) rfl (fun _ _ _ => rfl) rfl (fun _ _ _ => rfl) fun _ _ => rfl

/-- An object of certain kinds. -/
theorem runs_kind (mask : Nat) (hsize : regs.size = s.final.types.size)
    (hsrc : Carries d regs src (.datum v)) :
    s.Runs (Emit.datumOfKind who mask src) d (s.here d w regs)
      fun r d' o => Concludes (.kind mask) who w (.datum v) o (s.GoesOn d regs r d') := by
  refine (runs_retryDatum (c := .kind mask) (P := fun _ _ _ => True) (fun _ h => by cases h) hsize
    Keeps.refl hsrc ?_).mono ?_
  · intro w v candidate d₁ regs₁ _ _ hkeeps₁ hheld
    refine runs_call (hkeeps₁.size.trans hsize) (.cons hheld .nil) (fun _ => rfl) rfl ?_
    intro valid d₂ regs₂ hkeeps₂ hvalid
    refine ⟨regs₂, rfl, hkeeps₁.trans hkeeps₂, hkeeps₂.types, hheld.keep hkeeps₂, ?_, trivial⟩
    have hpasses : ((w.heap.get v).hasTag mask) =
        (Check.accepts w.heap (.kind mask) (.datum v)).isSome := by
      cases htag : (w.heap.get v).hasTag mask <;> simp [Check.accepts, htag]
    exact hpasses ▸ hvalid
  · rintro candidate d' o ⟨reports, result, w', hdialogue, hout⟩
    refine ⟨reports, result, w', hdialogue, ?_⟩
    cases result with
    | error e => exact hout
    | ok u =>
      obtain ⟨v', regs', haccepts, ho, hkeeps', -, hheld', -⟩ := hout
      have hu : u = .datum v' := by
        simp only [Check.accepts] at haccepts
        split at haccepts <;> cases haccepts
        rfl
      exact ⟨regs', ho, hkeeps', hu ▸ hheld'⟩

/-- **The code of a check follows its dialogue.** -/
theorem runs_check (c : Check) {v : Value} (hsize : regs.size = s.final.types.size)
    (hnamed : w.Named who word) (hv : c.Takes v) (hsrc : Carries d regs src v) :
    s.Runs (c.emit who src) d (s.here d w regs)
      fun r d' o => Concludes c who w v o (s.GoesOn d regs r d') := by
  cases c with
  | number =>
    obtain ⟨r, rfl⟩ := hv
    exact runs_number hsize hsrc
  | truth =>
    obtain ⟨r, rfl⟩ := hv
    exact runs_truthValue hsize hsrc
  | kind mask =>
    obtain ⟨r, rfl⟩ := hv
    exact runs_kind mask hsize hsrc
  | range bounds =>
    obtain ⟨x, rfl⟩ := hv
    exact runs_range bounds hsize hnamed hsrc

end

end Stage

/-! ### The protocol -/

/-- **A rejected input is reported once and followed by one pause**, until a reply passes or is no
data. The run of the code of any check, from any operand and with any replies to come, leads where
the dialogue leads: on to the consumer with the value that passed, or out of the list. All that the
host hears of is one report and one pause for each rejected candidate, in order. Without `ERRACT` a
rejected operand is the one error that is returned, and the host hears of nothing. -/
theorem Check.exists_conclusion (c : Check) {s : Stage} {d : Draft} {w : World}
    {regs : Array Value} {who : Ref} {src : Reg} {v : Value} {word : Word}
    (hwithin : (c.emit who src d).2.Within s.final) (hsize : regs.size = s.final.types.size)
    (hnamed : w.Named who word) (hv : c.Takes v) (hsrc : Carries d regs src v) :
    ∃ o reports result w', s.Leads (s.here d w regs) o ∧
      c.Dialogue who w v reports result w' ∧ w'.host = w.host.afterReports reports ∧
      (erractSet w = false → w'.host = w.host ∧ (c.accepts w.heap v = none →
        ∃ e record, result = .error e ∧ w.Raises e record w' ∧
          w'.Reports e (.doesntLike w.heap who v))) ∧
      match result with
      | .ok u => ∃ regs', o = s.here (c.emit who src d).2 w' regs' ∧
          Keeps d regs (c.emit who src d).2 regs' ∧
          Carries (c.emit who src d).2 regs' (c.emit who src d).1 u
      | .error e => o = .returned e w' := by
  obtain ⟨o, hleads, reports, result, w', hdialogue, hout⟩ :=
    Stage.runs_check c hsize hnamed hv hsrc hwithin
  refine ⟨o, reports, result, w', hleads, hdialogue, hdialogue.host, fun hoff => ?_, hout⟩
  obtain ⟨rfl, ⟨u, haccepts, -, rfl⟩ | ⟨e, record, -, rfl, hraises, hreports⟩⟩ :=
    hdialogue.of_off hoff
  · exact ⟨rfl, fun hrejects => absurd haccepts (by simp [hrejects])⟩
  · exact ⟨hdialogue.host, fun _ => ⟨e, record, rfl, hraises, hreports⟩⟩

/-- `PRINT`, which is also the value of `ERRACT`, an empty list, and a host that replies with the
list, with the word, and with the list again. -/
def askedForWord : World where
  heap := { objects := #[.nothing, .word (.text "print"), .list ⟨1, none, 0, none⟩] }
  frames := { globals := { locals := [("ERRACT", ⟨1⟩)] } }
  host := { replies := [some ⟨2⟩, some ⟨1⟩, some ⟨2⟩] }

/-- A draft that takes one object. -/
def oneObject : Draft :=
  { types := #[.datum] }

/-- The finished check for a word. -/
def wordCheck : Draft :=
  ((Check.kind wordMask).emit ⟨1⟩ ⟨0⟩ oneObject).2.closed

/-- Two lists are rejected where a word is asked for. -/
theorem exists_conclusion_askedForWord : ∃ s : Stage,
    ((Check.kind wordMask).emit ⟨1⟩ ⟨0⟩ oneObject).2.Within s.final ∧
    askedForWord.Named ⟨1⟩ (.text "print") ∧ erractSet askedForWord = true ∧
    ∃ (regs : Array Value) (o : Machine.Outcome) (reports : List String)
      (result : Except Ref Value) (w' : World),
      regs.size = s.final.types.size ∧ Carries oneObject regs ⟨0⟩ (.datum ⟨2⟩) ∧
      s.Leads (s.here oneObject askedForWord regs) o ∧
      (Check.kind wordMask).Dialogue ⟨1⟩ askedForWord (.datum ⟨2⟩) reports result w' ∧
      w'.host = askedForWord.host.afterReports reports := by
  obtain ⟨linked, -, hfollows⟩ := (wordCheck.routine "check" ⟨0⟩).exists_link .machine
    (by decide +kernel) (by decide +kernel)
  let s : Stage := hfollows.stage (by decide +kernel) (engine 0) [] 0
  let regs : Array Value := Array.replicate s.final.types.size (.datum ⟨2⟩)
  have hwithin : ((Check.kind wordMask).emit ⟨1⟩ ⟨0⟩ oneObject).2.Within s.final :=
    Draft.within_closed _
  have hnamed : askedForWord.Named ⟨1⟩ (.text "print") := by
    refine ⟨rfl, fun r hr => ?_⟩
    cases hr
    decide
  have hsize : regs.size = s.final.types.size := by simp [regs]
  have hpos : 0 < wordCheck.types.size := by decide +kernel
  have hsrc : Carries oneObject regs ⟨0⟩ (.datum ⟨2⟩) := by
    refine ⟨rfl, ?_⟩
    change (Array.replicate wordCheck.types.size (Value.datum ⟨2⟩)).getD 0 .void = .datum ⟨2⟩
    simp [Array.getD, hpos]
  obtain ⟨o, reports, result, w', hleads, hdialogue, hhost, -⟩ :=
    Check.exists_conclusion (.kind wordMask) hwithin hsize hnamed ⟨⟨2⟩, rfl⟩ hsrc
  exact ⟨s, hwithin, hnamed, by decide +kernel, regs, o, reports, result, w', hsize, hsrc, hleads,
    hdialogue, hhost⟩

end LogoEngine
