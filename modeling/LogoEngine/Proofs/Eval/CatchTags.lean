import LogoEngine.Proofs.Eval.Catching

/-!
# What tags CATCH and THROW agree on

A throw carries its tag, and is looked for by the key of the tag if that is a word, and else by the
empty key. A `CATCH` compares this with the name of its own tag, which is the key of a word as well,
but the print form of a list or an array. So on words the two agree, but a list that is thrown is
caught by the tags that print as nothing, such as the empty word, and not by a list like itself.

Main statement: `Node.Calls.catch_throw`.
-/

namespace LogoEngine

/-- The key by which a throw of a tag is looked for. -/
def Heap.throwKey (h : Heap) (tag : Ref) : String :=
  ((h.word? tag).map Word.key).getD ""

/-- A throw of data other than the word `ERROR` is raised with the key of its tag. -/
theorem exists_throwTag_of_isData {w : World} {tag value : Ref} (htag : w.heap.isData tag = true)
    (hvalue : w.heap.isData value = true) (hkey : w.heap.throwKey tag ≠ "ERROR") :
    ∃ t w', throwTag tag (some value) w = .ok (t, w') ∧
      w'.IsThrow t (w.heap.throwKey tag) (some value) ∧
      w'.Raised t (w.heap.throwKey tag) (some value) := by
  have hfilter : (some value).filter w.heap.isData = some value := by simp [hvalue]
  obtain ⟨t, w', e, hraise, hraises, hcode, hetag, houtput, -⟩ := exists_raiseWith .noCatch tag
    (ErrorCode.noCatch.format [w.heap.showForm tag]) (some value) w
  have hrun : throwTag tag (some value) w = .ok (t, w') := by
    rw [← hraise, throwTag, Run.heap_bind, hfilter]
    exact congrFun (if_neg hkey) w
  -- the tag is what it was
  have htagKey : w'.heap.tagKey e = w.heap.throwKey tag := by
    have hsame : w'.heap.word? tag = w.heap.word? tag :=
      congrArg Object.word? (hraises.grows.get_eq tag (Heap.lt_size_of_isData htag))
    rw [Heap.tagKey, hetag, hsame, Heap.throwKey]
    cases w.heap.word? tag <;> rfl
  have hrecord : w'.IsThrow t (w.heap.throwKey tag) (some value) :=
    ⟨e, hraises.get_eq, hcode, htagKey, houtput⟩
  refine ⟨t, w', hrun, hrecord, .thrown hrecord hkey ?_⟩
  rintro v ⟨⟩
  rw [Heap.isData, hraises.grows.get_eq value (Heap.lt_size_of_isData hvalue)]
  exact hvalue

section

variable {w w₁ w₂ : World}

/-- **A `CATCH` around a `THROW`.** Whatever data the two tags and the value are, if the tag that is
thrown is not the word `ERROR`: the statement is done with the value if the name of its own tag is the
key by which the throw is looked for, and else it hands the error of the throw on. -/
theorem Node.Calls.catch_throw {n : Nat} {h : Heap} {pins held : Pins} {head : NodeHead}
    {inputs : List Node} {values : List Value} {tag list thrown value : Value}
    (hbuilt : (Node.call head inputs).Built h) (hgenerator : head.generator = .catching)
    (hholds : w₁.Holds [.call head inputs])
    (hcalls : Node.Calls (engine n) h pins w (.call head inputs) (tag :: values) .runList [list] held
      w₁)
    (hthrows : w₁.ThrowsFrom held list.asDatum thrown value w₂)
    (hthrown : w₂.heap.isData thrown.asDatum = true) (hvalue : w₂.heap.isData value.asDatum = true)
    (hkey : w₂.heap.throwKey thrown.asDatum ≠ "ERROR") :
    ∃ t w', throwTag thrown.asDatum (some value.asDatum) w₂ = .ok (t, w') ∧
      w'.IsThrow t (w₂.heap.throwKey thrown.asDatum) (some value.asDatum) ∧
      ∃ m w'', w'.Unwinds w'' ∧
        if w'.heap.keyOf tag.asDatum = w₂.heap.throwKey thrown.asDatum then
          ∃ regs, (Node.call head inputs).Ends (engine m) h pins w
            (.done value.asDatum regs { w'' with currentError := none })
        else (Node.call head inputs).Hands (engine m) h pins w t w'' := by
  obtain ⟨t, w', hthrow, hrecord, hraised⟩ := exists_throwTag_of_isData hthrown hvalue hkey
  refine ⟨t, w', hthrow, hrecord, ?_⟩
  -- the throw comes up to the list of the statement as the error that was made
  obtain ⟨m, w₃, hunwinds, hlist⟩ := (raises_of_throwsFrom hthrows hthrow hraised).exists_comesTo
  have hlist' := Site.ComesTo.le (Nat.le_max_right n m) hlist
  have hchanges : w₁.Changes w₃ := Run.Changes.changes hlist'
  obtain ⟨w₄, hrestores, hends⟩ := (hcalls.le (engine_le (Nat.le_max_left n m))).ends_of_catch
    hbuilt hgenerator hlist' (hraised.unwinds hunwinds) fun _ =>
      ((hholds.changes hchanges).mute (.inl rfl)).1
  refine ⟨max n m, w₄, hunwinds.trans hrestores.unwinds, ?_⟩
  rw [hunwinds.heap_eq] at hends
  split
  · next hsame =>
    rw [if_pos hsame, World.caught, if_neg hkey] at hends
    exact hends
  · next hother =>
    rw [if_neg hother] at hends
    exact hends

end

namespace Listed

open Rescue (literal literalHead)

/-- The head of `(throw [a] "v)`. -/
def throwHead : NodeHead := ⟨⟨9⟩, 9, ⟨2⟩, .throwing, .nothing⟩

/-- The statement `(throw [a] "v)`. -/
def throwing : Node := .call throwHead [literal 7 5, literal 8 6]

/-- The head of the `CATCH`. -/
def catchHead : NodeHead := ⟨⟨14⟩, 14, ⟨1⟩, .catching, .datumOrNothing⟩

/-- The statement `catch tag [(throw [a] "v)]`, whose tag is `[a]` or the empty word. -/
def catching (tag : Nat) : Node := .call catchHead [literal 12 tag, literal 13 10]

/-- A list that throws a list, and a statement that has it run. -/
def heap (tag : Nat) : Heap where
  objects := #[.nothing, .word (.text "catch"), .word (.text "throw"), .word (.text "a"),
    .list ⟨4, none, 0, none⟩, .list ⟨5, some (⟨3⟩, ⟨4⟩), 0, none⟩, .word (.text "v"),
    .node (literalHead 7 5) [.datum ⟨5⟩], .node (literalHead 8 6) [.datum ⟨6⟩],
    .node throwHead [literal 7 5, literal 8 6], .list ⟨10, none, 1, some [[throwing]]⟩,
    .word (.text ""), .node (literalHead 12 tag) [.datum ⟨tag⟩],
    .node (literalHead 13 10) [.datum ⟨10⟩], .node catchHead [literal 12 tag, literal 13 10]]

/-- Nothing was compiled yet. -/
def world (tag : Nat) : World where
  heap := heap tag

/-- Whether the statement has the list run, the list comes to throw `[a]`, and the name of the tag of
the statement is then as given. -/
def throws (tag : Nat) (name : String) : Bool :=
  match (catching tag).findCall? (engine 0) (heap tag) [] (world tag) .runList 40 with
  | some ([caught, _], [list], held, w₁) =>
    match w₁.findThrow? held list.asDatum throwing with
    | some (thrown, value, w₂) =>
      w₁.keeps [⟨14⟩] && thrown.asDatum = ⟨5⟩ && value.asDatum = ⟨6⟩ && w₂.heap.isData ⟨5⟩ &&
        w₂.heap.isData ⟨6⟩ && w₂.heap.throwKey ⟨5⟩ = "" &&
        (ran (throwTag ⟨5⟩ (some ⟨6⟩) w₂)).2.heap.keyOf caught.asDatum = name
    | none => false
  | _ => false

theorem throws_list : throws 5 "A" = true := by
  decide +kernel

theorem throws_empty : throws 11 "" = true := by
  decide +kernel

theorem built_catching (tag : Nat) : (catching tag).Built (heap tag) := by
  refine .primitive "catch" ⟨"CATCH", .catching, 2, 2, some 2, .datumOrNothing⟩ rfl
    rfl rfl rfl fun input hinput => ?_
  rcases List.mem_pair.mp hinput with rfl | rfl <;> exact .literal _ rfl rfl

theorem built_throwing (tag : Nat) : throwing.Built (heap tag) := by
  refine .primitive "throw" ⟨"THROW", .throwing, 1, 1, some 2, .nothing⟩ rfl rfl rfl rfl
    fun input hinput => ?_
  rcases List.mem_pair.mp hinput with rfl | rfl <;> exact .literal _ rfl rfl

/-- What the statement comes to before the throw. -/
theorem exists_throws {tag : Nat} {name : String} (h : throws tag name = true) :
    ∃ (caught other list thrown value : Value) (held : Pins) (w₁ w₂ : World),
      w₁.Holds [catching tag] ∧
      Node.Calls (engine 0) (heap tag) [] (world tag) (catching tag) [caught, other] .runList [list]
        held w₁ ∧
      w₁.ThrowsFrom held list.asDatum thrown value w₂ ∧ thrown.asDatum = ⟨5⟩ ∧ value.asDatum = ⟨6⟩ ∧
      w₂.heap.isData ⟨5⟩ = true ∧ w₂.heap.isData ⟨6⟩ = true ∧ w₂.heap.throwKey ⟨5⟩ = "" ∧
      (ran (throwTag ⟨5⟩ (some ⟨6⟩) w₂)).2.heap.keyOf caught.asDatum = name := by
  unfold throws at h
  split at h
  · next caught other list held w₁ hcatch =>
    split at h
    · next thrown value w₂ hthrow =>
      simp only [Bool.and_eq_true, decide_eq_true_eq] at h
      obtain ⟨⟨⟨⟨⟨⟨hnode, hthrown⟩, hvalue⟩, htagData⟩, hdata⟩, hkey⟩, hname⟩ := h
      have hcalls := Node.calls_of_findCall? hcatch
      have hbuilt : throwing.Built w₁.heap :=
        (built_throwing tag).mono hcalls.changes.heap_extends
      exact ⟨caught, other, list, thrown, value, held, w₁, w₂, World.holds_of_keeps hnode, hcalls,
        World.throwsFrom_of_findThrow? hbuilt rfl hthrow, hthrown, hvalue, htagData, hdata, hkey, hname⟩
    · cases h
  · cases h

/-- The `CATCH` of `[a]` hands the throw of `[a]` on, and the `CATCH` of the empty word is done with
its value. -/
theorem handed_on_and_taken :
    (∃ (n : Nat) (t : Ref) (w' w'' : World), w'.IsThrow t "" (some ⟨6⟩) ∧ w'.Unwinds w'' ∧
      (catching 5).Hands (engine n) (heap 5) [] (world 5) t w'') ∧
    ∃ n regs w', (catching 11).Ends (engine n) (heap 11) [] (world 11) (.done ⟨6⟩ regs w') := by
  constructor
  · obtain ⟨caught, other, list, thrown, value, held, w₁, w₂, hholds, hcalls, hthrows, hthrown, hvalue,
      htagData, hdata, hkey, hname⟩ := exists_throws throws_list
    obtain ⟨t, w', hthrow, hrecord, n, w'', hunwinds, hends⟩ :=
      Node.Calls.catch_throw (built_catching 5) rfl hholds hcalls hthrows (hthrown ▸ htagData)
        (hvalue ▸ hdata) (by rw [hthrown, hkey]; decide)
    rw [hthrown, hvalue] at hthrow hrecord
    rw [hthrown] at hends
    rw [hthrow] at hname
    rw [hkey] at hrecord hends
    rw [if_neg (by rw [show w'.heap.keyOf caught.asDatum = "A" from hname]; decide)] at hends
    exact ⟨n, t, w', w'', hrecord, hunwinds, hends⟩
  · obtain ⟨caught, other, list, thrown, value, held, w₁, w₂, hholds, hcalls, hthrows, hthrown, hvalue,
      htagData, hdata, hkey, hname⟩ := exists_throws throws_empty
    obtain ⟨t, w', hthrow, -, n, w'', -, hends⟩ :=
      Node.Calls.catch_throw (built_catching 11) rfl hholds hcalls hthrows (hthrown ▸ htagData)
        (hvalue ▸ hdata) (by rw [hthrown, hkey]; decide)
    rw [hthrown, hvalue] at hthrow
    rw [hthrow] at hname
    rw [hthrown, hkey, if_pos (show w'.heap.keyOf caught.asDatum = "" from hname), hvalue] at hends
    obtain ⟨regs, hends⟩ := hends
    exact ⟨n, regs, _, hends⟩

end Listed

end LogoEngine
