import LogoEngine.Emit.Retry
import LogoEngine.Proofs.Eval.Fuel
import LogoEngine.Proofs.Eval.Raising

/-!
# Dialogues about rejected inputs

An input that a check rejects starts a **dialogue** if `ERRACT` asks for it: the candidate is
reported, `PAUSE` supplies a reply, and the reply is the next candidate. Without `ERRACT` the first
rejected candidate is what the returned error is about.

`Check` lists the checks with their code, and `Check.Dialogue` says how a check goes on from
candidate to candidate, without its code. The host hears of every report once, in order, and is
asked once after each (`Check.Dialogue.host`).
-/

namespace LogoEngine

/-! ### Checks -/

/-- Range checks on numbers. -/
inductive RangeCheck where
  | int32
  | toZero (op : CompareOp)
  | nonzeroInt32
  | positiveInt32
  | count

namespace RangeCheck

/-- The numbers that pass. -/
def holds : RangeCheck → Float → Bool
  | int32, x => isInt32 x
  | toZero op, x => op.eval x 0.0
  | nonzeroInt32, x => CompareOp.ne.eval x 0.0 && isInt32 x
  | positiveInt32, x => CompareOp.gt.eval x 0.0 && isInt32 x
  | count, x => isInt32 x && CompareOp.ge.eval x 0.0

/-- The code of a range check. -/
def emit (who : Ref) (src : Reg) : RangeCheck → Emit Reg
  | int32 => Emit.int32 who src
  | toZero op => Emit.comparedToZero op who src
  | nonzeroInt32 => Emit.nonzeroInt32 who src
  | positiveInt32 => Emit.positiveInt32 who src
  | count => Emit.count who src

end RangeCheck

/-- The checks of inputs: objects that must read as numbers or truth values or be of certain kinds,
and numbers that must be in a range. That the first input of `RANDOM` is not greater than the second
is no such check: it fails at once, without a dialogue. -/
inductive Check where
  | number
  | truth
  | kind (mask : Nat)
  | range (bounds : RangeCheck)

namespace Check

/-- The code of a check. -/
def emit (who : Ref) (src : Reg) : Check → Emit Reg
  | number => Emit.realFromDatum who src
  | truth => Emit.truthFromDatum who src
  | kind mask => Emit.datumOfKind who mask src
  | range bounds => bounds.emit who src

/-- What a check starts from: range checks from a number, all others from an object. -/
def Takes : Check → Value → Prop
  | range _, v => ∃ x, v = .real x
  | _, v => ∃ r, v = .datum r

/-- What the consumer goes on with, if a candidate passes. -/
def accepts (h : Heap) : Check → Value → Option Value
  | number, .datum r => (h.number? r).map .real
  | truth, .datum r => (h.truth? r).map .truth
  | kind mask, .datum r => if (h.get r).hasTag mask then some (.datum r) else none
  | range bounds, .real x => if bounds.holds x then some (.real x) else none
  | _, _ => none

/-- The candidate that a reply is: range checks read it as a number if they can. -/
def candidate (h : Heap) : Check → Ref → Value
  | range _, r => ((h.number? r).map .real).getD (.datum r)
  | _, r => .datum r

/-- What is returned for a reply that is no data: range checks throw to the top level, all others
return the reply itself. -/
def Refuses (w : World) (reply e : Ref) (w' : World) : Check → Prop
  | range _ => (∃ record, w.Raises e record w') ∧ w'.IsThrow e "TOPLEVEL" none
  | _ => e = reply ∧ w' = w

end Check

/-! ### Dialogues -/

/-- The host after some messages, each of which is written on a line and followed by a pause. -/
def Host.afterReports (host : Host) (messages : List String) : Host :=
  messages.foldl (fun host message => (host.write (message ++ "\n")).pause.2) host

/-- What is written, and how often the host is asked. -/
theorem Host.afterReports_eq {host : Host} (hplain : host.plain = false)
    (messages : List String) :
    host.afterReports messages = { host with
      replies := host.replies.drop messages.length
      journal := { host.journal with
        output := messages.foldl (fun s message => s ++ (message ++ "\n")) host.journal.output
        pauses := host.journal.pauses + messages.length } } := by
  induction messages generalizing host with
  | nil => rfl
  | cons message rest ih =>
    -- one message more: a report, a pause, and one reply less
    have hnext : (host.write (message ++ "\n")).pause.2 = { host with
        replies := host.replies.drop 1
        journal := { host.journal with
          output := host.journal.output ++ (message ++ "\n")
          pauses := host.journal.pauses + 1 } } := by
      cases hreplies : host.replies <;> simp [pause, write, hplain, hreplies]
    have hrest := @ih (host.write (message ++ "\n")).pause.2 (by rw [hnext]; exact hplain)
    rw [hnext] at hrest
    rw [afterReports, List.foldl_cons, hnext]
    refine hrest.trans ?_
    simp only [List.drop_drop, List.length_cons, List.foldl_cons, Nat.add_assoc,
      Nat.add_comm 1 rest.length]

namespace World

/-- One turn of a retry loop: a value that `who` does not like is reported, and the host is asked
for another. If it gives up, the reply is a throw to the top level. -/
structure Turn (who : Ref) (w : World) (v : Value) (reply : Ref) (w' : World) : Prop where
  grows : w.heap.Grows w'.heap
  rest : w' = { w with
    heap := w'.heap
    currentError := w'.currentError
    host := w.host.afterReports [(Fault.doesntLike w.heap who v).message] }
  answered : w.host.pause.1 = some reply ∨ w.host.pause.1 = none ∧ w'.IsThrow reply "TOPLEVEL" none

variable {w w' : World} {who reply : Ref} {v : Value}

theorem Turn.frames (h : w.Turn who v reply w') : w'.frames = w.frames := by
  rw [h.rest]

theorem Turn.host (h : w.Turn who v reply w') :
    w'.host = w.host.afterReports [(Fault.doesntLike w.heap who v).message] := by
  rw [h.rest]

/-- What the loop of a range check relies on: the consumer has a name, and the value of `ERRACT`, if
it has one, exists. -/
structure Named (w : World) (who : Ref) (word : Word) : Prop where
  name : w.heap.word? who = some word
  bound : ∀ r, w.frames.get? "ERRACT" = some r → r.index < w.heap.objects.size

theorem Named.grow {word : Word} (h : w.Named who word) (hgrows : w.heap.Grows w'.heap)
    (hframes : w'.frames = w.frames) : w'.Named who word where
  name := hgrows.word? h.name
  bound r hr := (h.bound r (hframes ▸ hr)).trans_le hgrows.size_le

/-- Objects that are added do not set `ERRACT`. -/
theorem Named.erractSet_eq {word : Word} (h : w.Named who word) (hgrows : w.heap.Grows w'.heap)
    (hframes : w'.frames = w.frames) : erractSet w' = erractSet w := by
  unfold erractSet
  rw [hframes]
  cases hget : w.frames.get? "ERRACT" with
  | none => rfl
  | some r => simp only [hgrows.get_eq r (h.bound r hget)]

/-- `ERRACT` still asks for pauses when objects were added. -/
theorem erractSet_of_grows (hon : erractSet w = true) (hgrows : w.heap.Grows w'.heap)
    (hframes : w'.frames = w.frames) : erractSet w' = true := by
  unfold erractSet at hon ⊢
  rw [hframes]
  cases hget : w.frames.get? "ERRACT" with
  | none => simp [hget] at hon
  | some r =>
    simp only [hget] at hon ⊢
    rw [hgrows.get_of_ne_nothing (r := r) (by rintro hnothing; simp [hnothing] at hon)]
    exact hon

/-- A reply that is data was one of those to come. -/
theorem Turn.replies_lt (h : w.Turn who v reply w') (hdata : w'.heap.isData reply = true) :
    w'.host.replies.length < w.host.replies.length := by
  rcases h.answered with hsome | ⟨-, e, hget, -⟩
  · rw [h.host]
    cases hplain : w.host.plain with
    | true => simp [Host.pause, hplain] at hsome
    | false =>
      rw [Host.afterReports_eq hplain]
      cases hreplies : w.host.replies with
      | nil => simp [Host.pause, hplain, hreplies] at hsome
      | cons => simp
  · simp [Heap.isData, hget, Object.isData, Object.hasTag, Object.kind, Kind.tag, dataMask] at hdata

end World

/-- How a check goes on from a candidate: what is reported, and what comes of it in the end, the
value that the consumer goes on with (`ok`) or the object that the list returns (`error`). -/
inductive Check.Dialogue (c : Check) (who : Ref) :
    World → Value → List String → Except Ref Value → World → Prop
  | accepted {w : World} {v u : Value} (haccepts : c.accepts w.heap v = some u) :
      Dialogue c who w v [] (.ok u) w
  | gaveUp {w w' : World} {v : Value} {e : Ref} {record : ErrorRecord}
      (hrejects : c.accepts w.heap v = none) (hoff : erractSet w = false)
      (hraises : w.Raises e record w') (hreports : w'.Reports e (.doesntLike w.heap who v)) :
      Dialogue c who w v [] (.error e) w'
  | refused {w w₁ w' : World} {v : Value} {reply e : Ref}
      (hrejects : c.accepts w.heap v = none) (hon : erractSet w = true)
      (hturn : w.Turn who v reply w₁) (hdata : w₁.heap.isData reply = false)
      (hrefuses : c.Refuses w₁ reply e w') :
      Dialogue c who w v [(Fault.doesntLike w.heap who v).message] (.error e) w'
  | again {w w₁ w' : World} {v : Value} {reply : Ref} {reports : List String}
      {result : Except Ref Value} (hrejects : c.accepts w.heap v = none)
      (hon : erractSet w = true) (hturn : w.Turn who v reply w₁)
      (hdata : w₁.heap.isData reply = true)
      (hrest : Dialogue c who w₁ (c.candidate w₁.heap reply) reports result w') :
      Dialogue c who w v ((Fault.doesntLike w.heap who v).message :: reports) result w'

namespace Check.Dialogue

variable {c : Check} {who : Ref} {w w' : World} {v : Value} {reports : List String}
  {result : Except Ref Value}

/-- **Each report is written and followed by one pause**, and the host is asked for nothing else. -/
theorem host (h : c.Dialogue who w v reports result w') :
    w'.host = w.host.afterReports reports := by
  induction h with
  | accepted => rfl
  | gaveUp _ _ hraises _ =>
    rw [hraises.rest]
    rfl
  | @refused w w₁ w' v reply e _ _ hturn _ hrefuses =>
    have hhost : w'.host = w₁.host := by
      cases c with
      | range =>
        obtain ⟨⟨record, hraises⟩, -⟩ := hrefuses
        rw [hraises.rest]
      | _ => rw [hrefuses.2]
    rw [hhost, hturn.host]
  | again _ _ hturn _ _ ih =>
    rw [ih, hturn.host]
    rfl

/-- The frames are as they were. -/
theorem frames (h : c.Dialogue who w v reports result w') : w'.frames = w.frames := by
  induction h with
  | accepted => rfl
  | gaveUp _ _ hraises _ => rw [hraises.rest]
  | refused _ _ hturn _ hrefuses =>
    rw [← hturn.frames]
    cases c with
    | range =>
      obtain ⟨⟨record, hraises⟩, -⟩ := hrefuses
      rw [hraises.rest]
    | _ => rw [hrefuses.2]
  | again _ _ hturn _ _ ih => rw [ih, hturn.frames]

/-- While `ERRACT` is off there is no dialogue: the first candidate is accepted, or it is the one
that an error is about. -/
theorem of_off (hoff : erractSet w = false) (h : c.Dialogue who w v reports result w') :
    reports = [] ∧ ((∃ u, c.accepts w.heap v = some u ∧ result = .ok u ∧ w' = w) ∨
      ∃ e record, c.accepts w.heap v = none ∧ result = .error e ∧ w.Raises e record w' ∧
        w'.Reports e (.doesntLike w.heap who v)) := by
  cases h with
  | accepted haccepts => exact ⟨rfl, .inl ⟨_, haccepts, rfl, rfl⟩⟩
  | gaveUp hrejects _ hraises hreports => exact ⟨rfl, .inr ⟨_, _, hrejects, rfl, hraises, hreports⟩⟩
  | refused _ hon | again _ hon => exact absurd hon (by simp [hoff])

/-- A candidate that passes is accepted at once. -/
theorem of_accepts {u : Value} (haccepts : c.accepts w.heap v = some u)
    (h : c.Dialogue who w v reports result w') : result = .ok u ∧ w' = w := by
  cases h with
  | accepted hu => exact ⟨congrArg _ (Option.some.inj (hu.symm.trans haccepts)), rfl⟩
  | gaveUp hrejects | refused hrejects | again hrejects => cases hrejects.symm.trans haccepts

end Check.Dialogue

/-! ### Turns -/

/-- Asking for a reply always gives one. -/
theorem exists_pauseForValue (w : World) : ∃ reply w', pauseForValue w = .ok (reply, w') ∧
    w.heap.Grows w'.heap ∧
    w' = { w with
      heap := w'.heap, currentError := w'.currentError, host := w.host.pause.2 } ∧
    (w.host.pause.1 = some reply ∨
      w.host.pause.1 = none ∧ w'.IsThrow reply "TOPLEVEL" none) := by
  have hpause : Run.withHost Host.pause w =
      .ok (w.host.pause.1, { w with host := w.host.pause.2 }) := rfl
  rw [pauseForValue, Run.bind_of_ok hpause]
  cases hreply : w.host.pause.1 with
  | some reply => exact ⟨reply, _, rfl, .refl _, rfl, .inl rfl⟩
  | none =>
    obtain ⟨r, w', record, hthrow, hraises, hrecord⟩ :=
      exists_throwToplevel { w with host := w.host.pause.2 }
    exact ⟨r, w', hthrow, hraises.grows, by rw [hraises.rest], .inr ⟨rfl, hrecord⟩⟩

/-- A candidate is disliked, the error is written, and the host is asked: that is a turn. -/
theorem exists_turn (w : World) (who v : Ref) : ∃ e w₁ w₂ reply w₃,
    raiseDoesntLike who v w = .ok (e, w₁) ∧ writeError e w₁ = .ok ((), w₂) ∧
    pauseForValue w₂ = .ok (reply, w₃) ∧ w.Turn who (.datum v) reply w₃ := by
  obtain ⟨e, w₁, record, hraise, hraises, record', hget, -, hmessage⟩ :=
    exists_raises w .doesntLike [who, v]
  let message := (Fault.doesntLike w.heap who (.datum v)).message
  have hwrite : writeError e w₁ =
      .ok ((), { w₁ with host := w₁.host.write (message ++ "\n") }) := by
    rw [writeError, Run.heap_bind, hget]
    simp only [Object.error?, Heap.printForm_of_word hmessage]
    rfl
  obtain ⟨reply, w₃, hpause, hgrows, hrest, hanswered⟩ :=
    exists_pauseForValue { w₁ with host := w₁.host.write (message ++ "\n") }
  have hhost : w₁.host = w.host := by rw [hraises.rest]
  refine ⟨e, w₁, _, reply, w₃, hraise, hwrite, hpause, hraises.grows.trans hgrows, ?_, ?_⟩
  · rw [hrest, hraises.rest]
    rfl
  · have hreplied : (w₁.host.write (message ++ "\n")).pause.1 = w.host.pause.1 := by
      rw [hhost]
      unfold Host.pause Host.write
      cases w.host.plain <;> cases w.host.replies <;> rfl
    rwa [← hreplied]

end LogoEngine
