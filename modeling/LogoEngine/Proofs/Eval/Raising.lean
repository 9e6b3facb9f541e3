import LogoEngine.Proofs.Eval.Fuel
import LogoEngine.Proofs.Expression.Meaning
import LogoEngine.Proofs.Heap.Changes

/-!
# Raising errors

What an error leaves behind: one new record, which is the current error, and a few new words
(`World.Raises`). An ordinary error reports its fault, and a throw keeps its tag and its value.
-/

namespace LogoEngine

/-- Helpers put objects into registers. -/
theorem map_datum_apply {m : Run Ref} {w w' : World} {r : Ref} (h : m w = .ok (r, w')) :
    (Value.datum <$> m) w = .ok (.datum r, w') := by
  simp only [Functor.map, StateT.map, h, bind, Except.bind]
  rfl

/-! ### Heaps that only get new objects -/

namespace Heap

/-- Objects were added and none was changed. -/
structure Grows (h h' : Heap) : Prop where
  size_le : h.objects.size ≤ h'.objects.size
  get_eq : ∀ r : Ref, r.index < h.objects.size → h'.get r = h.get r

variable {h h' h'' : Heap} {r : Ref} {word : Word} {o : Object}

theorem Grows.refl (h : Heap) : h.Grows h :=
  ⟨Nat.le_refl _, fun _ _ => rfl⟩

theorem Grows.trans (hg : h.Grows h') (hg' : h'.Grows h'') : h.Grows h'' where
  size_le := hg.size_le.trans hg'.size_le
  get_eq r hr := (hg'.get_eq r (hr.trans_le hg.size_le)).trans (hg.get_eq r hr)

theorem Grows.add (h : Heap) (o : Object) : h.Grows (h.add o).2 where
  size_le := by simp [Heap.add]
  get_eq _ hr := h.get_add_of_lt o hr

/-- What an object was, it still is. -/
theorem Grows.get_of_ne_nothing (hg : h.Grows h') (hr : h.get r ≠ .nothing) : h'.get r = h.get r :=
  hg.get_eq r (lt_size_of_get hr)

/-- A word is shown by its text. -/
theorem shown_of_word (hr : h.get r = .word word) : (Value.datum r).shown h = word.toText := by
  have hname : h.displayName r = r := by simp only [displayName, hr]
  rw [Value.shown, hname, showForm, showWith]
  simp only [hr]

/-- A word is printed by its text. -/
theorem printForm_of_word (hr : h.get r = .word word) : h.printForm r = word.toText := by
  rw [printForm, printUpTo, printWith]
  simp only [hr]
  rw [showWith]
  simp only [hr]

theorem get_of_word? (hr : h.word? r = some word) : h.get r = .word word := by
  unfold word? at hr
  cases hget : h.get r <;> rw [hget] at hr <;> cases hr
  rfl

theorem Grows.word? (hg : h.Grows h') (hr : h.word? r = some word) : h'.word? r = some word := by
  have hget := get_of_word? hr
  rw [Heap.word?, hg.get_of_ne_nothing (by simp [hget]), hget]
  rfl

end Heap

/-- A native value that was made a word is shown as it was. -/
theorem Fault.doesntLike_add {h : Heap} {who : Ref} {word boxed : Word} {v : Value}
    (hwho : h.word? who = some word) (hv : v.shown h = boxed.toText) :
    Fault.doesntLike (h.add (.word boxed)).2 who (.datum (h.add (.word boxed)).1) =
      Fault.doesntLike h who v := by
  have hboxed := Heap.shown_of_word (h.get_add_self (.word boxed))
  have hname := Heap.shown_of_word
    (Heap.get_of_word? ((Heap.Grows.add h (.word boxed)).word? hwho))
  rw [doesntLike, doesntLike, hboxed, hname, Heap.shown_of_word (Heap.get_of_word? hwho), hv]

/-! ### One error -/

namespace World

/-- One error was raised and nothing else happened: of the new objects the record alone is an
error, it is the current one, and all else is as it was. -/
structure Raises (w : World) (r : Ref) (e : ErrorRecord) (w' : World) : Prop where
  get_eq : w'.heap.get r = .error e
  grows : w.heap.Grows w'.heap
  fresh : w.heap.objects.size ≤ r.index
  only : ∀ q : Ref, w.heap.objects.size ≤ q.index → (w'.heap.get q).error?.isSome → q = r
  rest : w' = { w with heap := w'.heap, currentError := some r }

variable {w w' : World} {r : Ref} {e : ErrorRecord}

/-- Objects that are no errors may be made before. -/
theorem Raises.of_add {o : Object} (ho : o.error? = none)
    (h : Raises { w with heap := (w.heap.add o).2 } r e w') : w.Raises r e w' where
  get_eq := h.get_eq
  grows := (Heap.Grows.add w.heap o).trans h.grows
  fresh := (Heap.Grows.add w.heap o).size_le.trans h.fresh
  only q hq hsome := by
    by_cases hlt : q.index < (w.heap.add o).2.objects.size
    · -- the one object made before is no error
      have hindex : q = (w.heap.add o).1 := by
        have hsize : (w.heap.add o).2.objects.size = w.heap.objects.size + 1 := by simp [Heap.add]
        have hq' : q.index = w.heap.objects.size := by omega
        cases q
        exact congrArg Ref.mk hq'
      rw [h.grows.get_eq q hlt, hindex, Heap.get_add_self, ho] at hsome
      cases hsome
    · exact h.only q (Nat.le_of_not_lt hlt) hsome
  rest := h.rest

/-- A record of a throw that looks for a tag with the given key. -/
def IsThrow (w : World) (r : Ref) (key : String) (output : Option Ref) : Prop :=
  ∃ e, w.heap.get r = .error e ∧ e.code = .noCatch ∧ w.heap.tagKey e = key ∧ e.output = output

end World

/-- What is raised is recorded. -/
theorem exists_raiseWith (code : ErrorCode) (tag : Ref) (message : String) (output : Option Ref)
    (w : World) : ∃ r w' e, raiseWith code tag message output w = .ok (r, w') ∧ w.Raises r e w' ∧
      e.code = code ∧ e.tag = tag ∧ e.output = output ∧
      w'.heap.get e.message = .word (.text message) := by
  let made := w.heap.add (.word (.text message))
  let e : ErrorRecord := ⟨code, tag, made.1, output, w.frames.top.node, w.frames.top.line⟩
  let w₁ : World := { w with heap := made.2 }
  let w₂ : World := { w₁ with
    heap := (made.2.add (.error e)).2, currentError := some (made.2.add (.error e)).1 }
  have hraises : w₁.Raises (made.2.add (.error e)).1 e w₂ := by
    refine ⟨made.2.get_add_self _, .add _ _, Nat.le_refl _, fun q hq hsome => ?_, rfl⟩
    have hget : w₂.heap.get q = if q = (made.2.add (.error e)).1 then .error e else made.2.get q :=
      made.2.get_add _ q
    by_contra hne
    rw [hget, if_neg hne] at hsome
    have hlt : q.index < made.2.objects.size := by
      refine Heap.lt_size_of_get fun hnothing => ?_
      rw [hnothing] at hsome
      cases hsome
    exact absurd hq (by simpa [w₁] using hlt)
  refine ⟨_, w₂, e, rfl, hraises.of_add rfl, rfl, rfl, rfl, ?_⟩
  have hlt : made.1.index < made.2.objects.size := by simp [made, Heap.add]
  exact (made.2.get_add_of_lt _ hlt).trans (w.heap.get_add_self _)

/-- An ordinary error is raised. -/
theorem exists_raises (w : World) (code : ErrorCode) (args : List Ref) :
    ∃ r w' e, raise code args w = .ok (r, w') ∧ w.Raises r e w' ∧
      w'.Reports r ⟨code, code.format (args.map fun r => (Value.datum r).shown w.heap)⟩ := by
  obtain ⟨r, w', e, hraise, hraises, hcode, -, -, hmessage⟩ :=
    exists_raiseWith code (w.heap.add (.word (.text "ERROR"))).1
      (code.format (args.map fun r => w.heap.showForm (w.heap.displayName r))) none
      { w with heap := (w.heap.add (.word (.text "ERROR"))).2 }
  exact ⟨r, w', e, hraise, hraises.of_add rfl, e, hraises.get_eq, hcode, hmessage⟩

/-- An error that is raised is recorded. -/
theorem exists_raise (w : World) (code : ErrorCode) (args : List Ref) :
    ∃ r w', raise code args w = .ok (r, w') ∧
      w'.Reports r ⟨code, code.format (args.map fun r => (Value.datum r).shown w.heap)⟩ := by
  obtain ⟨r, w', _, hraise, -, hreports⟩ := exists_raises w code args
  exact ⟨r, w', hraise, hreports⟩

/-- A throw of a tag other than `ERROR` is recorded with its tag and its value, if that is data. -/
theorem exists_throwTag {w : World} {tag : Ref} {word : Word} (output : Option Ref)
    (htag : w.heap.word? tag = some word) (hkey : word.key ≠ "ERROR") :
    ∃ r w' e, throwTag tag output w = .ok (r, w') ∧ w.Raises r e w' ∧
      w'.IsThrow r word.key (output.filter w.heap.isData) := by
  obtain ⟨r, w', e, hraise, hraises, hcode, htag', houtput, -⟩ :=
    exists_raiseWith .noCatch tag (ErrorCode.noCatch.format [w.heap.showForm tag])
      (output.filter w.heap.isData) w
  refine ⟨r, w', e, ?_, hraises, e, hraises.get_eq, hcode, ?_, houtput⟩
  · rw [← hraise, throwTag, Run.heap_bind, htag]
    simp only [Option.map_some, Option.getD_some, if_neg hkey]
  · rw [Heap.tagKey, htag', hraises.grows.word? htag]

/-- A throw of a name other than `ERROR`. -/
theorem exists_throwNamed (name : String) (hname : Text.upper name ≠ "ERROR") (w : World) :
    ∃ r w' e, throwNamed name none w = .ok (r, w') ∧ w.Raises r e w' ∧
      w'.IsThrow r (Text.upper name) none := by
  have htag : (w.heap.add (.word (.text name))).2.word? (w.heap.add (.word (.text name))).1 =
      some (.text name) := by
    rw [Heap.word?, Heap.get_add_self]
    rfl
  obtain ⟨r, w', e, hthrow, hraises, hrecord⟩ :=
    exists_throwTag (w := { w with heap := (w.heap.add (.word (.text name))).2 }) none htag hname
  exact ⟨r, w', e, hthrow, hraises.of_add rfl, hrecord⟩

/-- A throw to the top level. -/
theorem exists_throwToplevel (w : World) :
    ∃ r w' e, throwNamed "TOPLEVEL" none w = .ok (r, w') ∧ w.Raises r e w' ∧
      w'.IsThrow r "TOPLEVEL" none := by
  have hkey : Text.upper "TOPLEVEL" = "TOPLEVEL" := by decide +kernel
  obtain ⟨r, w', e, hthrow, hraises, hrecord⟩ :=
    exists_throwNamed "TOPLEVEL" (hkey ▸ by decide) w
  exact ⟨r, w', e, hthrow, hraises, hkey ▸ hrecord⟩

end LogoEngine
