import LogoEngine.Proofs.Eval.Frames
import LogoEngine.Proofs.Eval.Leaving
import LogoEngine.Proofs.Heap.Tidy
import LogoEngine.Proofs.Lower.Assertions

/-!
# What a catch gives back

While the list of a `CATCH` runs `ERRACT` has no value: the binding that counts is emptied before the
list and filled again after it. Both times it is looked for from the innermost frame outwards. If
the list gave the name a binding of its own in the frame it ran in, where there was none, it is this
one that is filled, and the frame further out is left without its value. In all other cases the
bindings are what they were.

Main statements: `retains_catch_iff`, and `Node.Calls.retains_iff` for the statement `CATCH`.
-/

namespace LogoEngine

/-! ### Bindings in frames -/

/-- A frame that has a binding still has it. -/
def Frame.Retains (key : String) (f f' : Frame) : Prop :=
  ∀ r, f.locals.get? key = some r → f'.locals.get? key = some r

theorem Frame.retains_of_not_has {key : String} {f : Frame} (h : f.locals.has key = false)
    (f' : Frame) : f.Retains key f' := by
  intro r hr
  rw [Table.has, hr] at h
  cases h

theorem Frame.Retains.has {key : String} {f f' : Frame} (h : f.Retains key f')
    (hhas : f.locals.has key = true) : f'.locals.has key = true := by
  obtain ⟨r, hr⟩ := Option.isSome_iff_exists.mp hhas
  exact Option.isSome_of_mem (h r hr)

namespace Frames

/-- Every frame that had a binding of a name still has it. -/
structure Retains (key : String) (fs fs' : Frames) : Prop where
  calls : List.Forall₂ (Frame.Retains key) fs.calls fs'.calls
  globals : fs.globals.Retains key fs'.globals

variable {key : String} {fs fs₁ fs₂ : Frames} {frame : Frame} {rest : List Frame} {globals : Frame}
  {r v : Ref}

theorem Retains.refl (key : String) (fs : Frames) : fs.Retains key fs :=
  ⟨List.forall₂_same.mpr fun _ _ _ => id, fun _ => id⟩

theorem Retains.trans (h : fs.Retains key fs₁) (h' : fs₁.Retains key fs₂) : fs.Retains key fs₂ := by
  refine ⟨?_, fun r hr => h'.globals r (h.globals r hr)⟩
  have : IsTrans Frame (Frame.Retains key) := ⟨fun _ _ _ hfg hgh r hr => hgh r (hfg r hr)⟩
  exact forall₂_trans h.calls h'.calls

theorem retains_cons {frame' : Frame} {rest' : List Frame} {globals' : Frame} :
    (⟨frame :: rest, globals⟩ : Frames).Retains key ⟨frame' :: rest', globals'⟩ ↔
      frame.Retains key frame' ∧ (⟨rest, globals⟩ : Frames).Retains key ⟨rest', globals'⟩ := by
  constructor
  · rintro ⟨hcalls, hglobals⟩
    cases hcalls with
    | cons hframe hrest => exact ⟨hframe, hrest, hglobals⟩
  · rintro ⟨hframe, hrest, hglobals⟩
    exact ⟨.cons hframe hrest, hglobals⟩

/-! ### Searches and assignments, one frame at a time -/

theorem get?_cons_of_has (h : frame.locals.has key = true) :
    (⟨frame :: rest, globals⟩ : Frames).get? key = frame.locals.get? key := by
  obtain ⟨r, hr⟩ := Option.isSome_iff_exists.mp h
  simp [get?, lookup, hr]

theorem get?_cons_of_not_has (h : frame.locals.has key = false) :
    (⟨frame :: rest, globals⟩ : Frames).get? key = (⟨rest, globals⟩ : Frames).get? key := by
  have hnone : frame.locals.get? key = none := by simpa [Table.has] using h
  simp [get?, lookup, hnone]

theorem set_cons_of_has (h : frame.locals.has key = true) (v : Ref) :
    (⟨frame :: rest, globals⟩ : Frames).set key v =
      ⟨{ frame with locals := frame.locals.insert key v } :: rest, globals⟩ := by
  simp [set, assign?, h]

theorem set_cons_of_not_has (h : frame.locals.has key = false) (v : Ref) :
    (⟨frame :: rest, globals⟩ : Frames).set key v =
      ⟨frame :: ((⟨rest, globals⟩ : Frames).set key v).calls,
        ((⟨rest, globals⟩ : Frames).set key v).globals⟩ := by
  cases hrest : assign? key v rest <;> simp [set, assign?, h, hrest]

theorem get?_insert {f : Frame} : ({ f with locals := f.locals.insert key v } : Frame).locals.get? key =
    some v :=
  Table.get?_insert_self ..

/-! ### Values that are replaced and put back -/

/-- The value that a search finds, if any, is assigned to frames that retain what there was. -/
theorem Retains.set_get? (h : fs.Retains key fs₂) (hget : ∀ s, fs.get? key = some s → r = s) :
    fs.Retains key (fs₂.set key r) := by
  obtain ⟨calls, globals⟩ := fs
  obtain ⟨calls₂, globals₂⟩ := fs₂
  obtain ⟨hcalls, hglobals⟩ := h
  dsimp only at hcalls hglobals
  induction hcalls with
  | nil =>
    refine ⟨.nil, fun s hs => ?_⟩
    obtain rfl := hget s hs
    exact get?_insert
  | @cons frame frame₂ rest rest₂ hframe hrest ih =>
    by_cases hhas₂ : frame₂.locals.has key = true
    · rw [set_cons_of_has hhas₂]
      refine ⟨.cons (fun s hs => ?_) hrest, hglobals⟩
      rw [get?_insert, hget s ((get?_cons_of_has (Option.isSome_of_mem hs)).trans hs)]
    · have hhas : frame.locals.has key = false := by
        simpa using mt hframe.has hhas₂
      rw [get?_cons_of_not_has hhas] at hget
      rw [set_cons_of_not_has (by simpa using hhas₂)]
      exact retains_cons.mpr ⟨hframe, ih hget⟩

/-- A value that was replaced, and is no different since, was replaced with itself. -/
theorem eq_of_retains_set (hget : fs.get? key = some r) (hset : (fs.set key v).Retains key fs₂)
    (h : fs.Retains key fs₂) : v = r := by
  obtain ⟨calls, globals⟩ := fs
  obtain ⟨calls₂, globals₂⟩ := fs₂
  obtain ⟨hcalls, hglobals⟩ := h
  dsimp only at hcalls hglobals
  induction hcalls with
  | nil => exact Option.some.inj ((hset.globals v get?_insert).symm.trans (hglobals r hget))
  | @cons frame frame₂ rest rest₂ hframe hrest ih =>
    cases hhas : frame.locals.has key with
    | true =>
      rw [get?_cons_of_has hhas] at hget
      rw [set_cons_of_has hhas] at hset
      obtain ⟨hreplaced, -⟩ := retains_cons.mp hset
      exact Option.some.inj ((hreplaced v get?_insert).symm.trans (hframe r hget))
    | false =>
      rw [get?_cons_of_not_has hhas] at hget
      rw [set_cons_of_not_has hhas] at hset
      exact ih hget (retains_cons.mp hset).2

/-- A value that was replaced is put back, among frames that have the same names. -/
theorem retains_set_of_names (hget : fs.get? key = some r) (hset : (fs.set key v).Retains key fs₂)
    (hnames : List.Forall₂ (fun f f' => f'.locals.has key = f.locals.has key) fs.calls fs₂.calls) :
    fs.Retains key (fs₂.set key r) := by
  obtain ⟨calls, globals⟩ := fs
  obtain ⟨calls₂, globals₂⟩ := fs₂
  dsimp only at hnames
  induction hnames with
  | nil =>
    refine ⟨.nil, fun s hs => ?_⟩
    obtain rfl : r = s := Option.some.inj (hget.symm.trans hs)
    exact get?_insert
  | @cons frame frame₂ rest rest₂ hframe hrest ih =>
    cases hhas : frame.locals.has key with
    | true =>
      rw [get?_cons_of_has hhas] at hget
      rw [set_cons_of_has hhas] at hset
      rw [set_cons_of_has (hframe.trans hhas)]
      obtain ⟨-, hothers⟩ := retains_cons.mp hset
      refine ⟨.cons (fun s hs => ?_) hothers.calls, hothers.globals⟩
      rw [get?_insert, ← hget, hs]
    | false =>
      rw [get?_cons_of_not_has hhas] at hget
      rw [set_cons_of_not_has hhas] at hset
      rw [set_cons_of_not_has (hframe.trans hhas)]
      obtain ⟨hkept, hothers⟩ := retains_cons.mp hset
      exact retains_cons.mpr ⟨hkept, ih hget hothers⟩

/-- Where a value is replaced, a list runs that changes no binding, and the value is assigned again,
the bindings are what they were unless the list made one in its frame, where there was none. -/
theorem retains_set_iff (hget : fs.get? key = some r) (hne : v ≠ r)
    (hran : (fs.set key v).AfterList fs₂) (hset : (fs.set key v).Retains key fs₂) :
    fs.Retains key (fs₂.set key r) ↔
      fs.top.locals.has key = true ∨ fs₂.top.locals.has key = false := by
  have hall : fs.AfterList fs₂ := IsTrans.trans _ _ _ (fs.afterCall_set key v).afterList hran
  obtain ⟨calls, globals⟩ := fs
  obtain ⟨calls₂, globals₂⟩ := fs₂
  obtain ⟨hcalls, hcallers, -, -⟩ := hall
  cases hcalls with
  | nil => exact iff_of_true (retains_set_of_names hget hset .nil) (.inl (Option.isSome_of_mem hget))
  | @cons frame frame₂ rest rest₂ _ _ =>
    -- the callers have the names they had, so it depends on the frame that the list ran in
    have hnames := hcallers.imp fun _ _ hsame => hsame.names key
    show _ ↔ frame.locals.has key = true ∨ frame₂.locals.has key = false
    cases hhas : frame.locals.has key with
    | true =>
      have hhas₂ : frame₂.locals.has key = true := by
        rw [set_cons_of_has hhas] at hset
        exact (retains_cons.mp hset).1.has (Option.isSome_of_mem get?_insert)
      exact iff_of_true (retains_set_of_names hget hset (.cons (hhas₂.trans hhas.symm) hnames))
        (.inl rfl)
    | false =>
      cases hhas₂ : frame₂.locals.has key with
      | true =>
        refine iff_of_false (fun h => hne ?_) (by simp)
        rw [set_cons_of_has hhas₂] at h
        have hothers := (retains_cons.mp h).2
        exact eq_of_retains_set hget hset
          (retains_cons.mpr ⟨Frame.retains_of_not_has hhas _, hothers⟩)
      | false =>
        exact iff_of_true (retains_set_of_names hget hset (.cons (hhas₂.trans hhas.symm) hnames))
          (.inr rfl)

/-- A value is put aside, if `p`, a list runs that changes no binding, and it is assigned again, if
`q`: the bindings are what they were if none was emptied, and else unless the list made one in its
frame, where there was none. -/
theorem retains_putBack_iff {fs₃ : Frames} {p q : Prop} [Decidable p] [Decidable q]
    (hget : ∀ s, fs.get? key = some s → r = s) (hnone : fs.get? key = none → r = v)
    (hopen : fs₁ = if p then fs.set key v else fs) (hran : fs₁.AfterList fs₂)
    (hbody : fs₁.Retains key fs₂) (hclose : fs₃ = if q then fs₂.set key r else fs₂) (hpq : p → q) :
    fs.Retains key fs₃ ↔ fs.Retains key fs₁ ∨
      fs.top.locals.has key = true ∨ fs₂.top.locals.has key = false := by
  by_cases hkept : fs.Retains key fs₁
  · -- nothing was taken away, so it is no matter where it is put
    refine iff_of_true ?_ (.inl hkept)
    have hall := hkept.trans hbody
    rw [hclose]
    split
    · exact hall.set_get? hget
    · exact hall
  · have hp : p := by
      by_contra hp
      rw [hopen, if_neg hp] at hkept
      exact hkept (.refl _ _)
    rw [if_pos hp] at hopen
    subst hopen
    have hne : v ≠ r := by
      rintro rfl
      exact hkept ((Frames.Retains.refl _ _).set_get? hget)
    have hsome : fs.get? key = some r := by
      cases hfound : fs.get? key with
      | none => exact absurd (hnone hfound).symm hne
      | some s => rw [hget s hfound]
    rw [hclose, if_pos (hpq hp), retains_set_iff hsome hne hran hbody, or_iff_right hkept]

end Frames

/-! ### A catch, from its start to its end -/

section

variable {w w₁ w₂ w' : World} {stash tag node t r : Ref} {n : Nat} {held : Pins}

/-- A catch that has begun and whose list has run ends, whatever its tag. -/
theorem exists_endCatch_retains {list : Ref} (hbegin : beginCatch w = .ok (stash, w₁))
    (hlist : (engine n).list held list w₁ = .ok (t, w₂)) (tag node : Ref) :
    ∃ r w', endCatch stash tag node t w₂ = .ok (r, w') ∧
      (w₁.frames.Retains "ERRACT" w₂.frames →
        (w.frames.Retains "ERRACT" w'.frames ↔ w.frames.Retains "ERRACT" w₁.frames ∨
          w.frames.top.locals.has "ERRACT" = true ∨ w₂.frames.top.locals.has "ERRACT" = false)) := by
  obtain ⟨rfl, rfl⟩ := Prod.mk.inj (Except.ok.inj ((beginCatch_apply w).symm.trans hbegin))
  obtain ⟨r, w', hend, hframes⟩ := exists_endCatch
    ((w.frames.get? "ERRACT").getD Ref.nothing) tag node t w₂
  refine ⟨r, w', hend, fun hbody => ?_⟩
  have hextends : w.heap.Extends w₂.heap := by
    have hheap := (Run.Changes.changes hlist).heap_extends
    split at hheap <;> exact hheap
  exact Frames.retains_putBack_iff (fun s hs => by rw [hs]; rfl) (fun hnone => by rw [hnone]; rfl)
    (apply_ite World.frames _ _ _) (((inPlace_engine n).list held list).keeps hlist) hbody hframes
    hextends.isData

/-- **When a catch gives `ERRACT` back.** -/
theorem retains_catch_iff {fuel : Nat} {held : Pins} {list : Ref}
    (hbegin : beginCatch w = .ok (stash, w₁))
    (hlist : (engine fuel).list held list w₁ = .ok (t, w₂))
    (hend : endCatch stash tag node t w₂ = .ok (r, w'))
    (hbody : w₁.frames.Retains "ERRACT" w₂.frames) :
    w.frames.Retains "ERRACT" w'.frames ↔ w.frames.Retains "ERRACT" w₁.frames ∨
      w.frames.top.locals.has "ERRACT" = true ∨ w₂.frames.top.locals.has "ERRACT" = false := by
  obtain ⟨_, _, hend', hiff⟩ := exists_endCatch_retains hbegin hlist tag node
  obtain ⟨rfl, rfl⟩ := Prod.mk.inj (Except.ok.inj (hend.symm.trans hend'))
  exact hiff hbody

/-- **A `CATCH` statement gives `ERRACT` back** in the same cases: from the state in which it put the
value aside, by a call of its own, to the one in which it ends with what its list came to. -/
theorem Node.Calls.retains_iff {h : Heap} {pins : Pins} {head : NodeHead} {inputs : List Node}
    {tag list : Value} {values : List Value} (hbuilt : (Node.call head inputs).Built h)
    (hgenerator : head.generator = .catching)
    (hcalls : Node.Calls (engine n) h pins w (.call head inputs) (tag :: values) .runList [list] held
      w₁)
    (hlist : (engine n).list held list.asDatum w₁ = .ok (t, w₂)) :
    ∃ stash held₀ w₀ r w',
      Node.Calls (engine n) h pins w (.call head inputs) (tag :: values) .beginCatch [] held₀ w₀ ∧
      beginCatch w₀ = .ok (stash, w₁) ∧
      (Node.call head inputs).EndsWith (engine n) h pins w r w' ∧
      (w₁.frames.Retains "ERRACT" w₂.frames →
        (w₀.frames.Retains "ERRACT" w'.frames ↔ w₀.frames.Retains "ERRACT" w₁.frames ∨
          w₀.frames.top.locals.has "ERRACT" = true ∨
          w₂.frames.top.locals.has "ERRACT" = false)) := by
  obtain ⟨stash, held₀, w₀, hcalls₀, hbegin, hends⟩ := hcalls.exists_catch hbuilt hgenerator
  obtain ⟨r, w', hend, hiff⟩ := exists_endCatch_retains hbegin hlist tag.asDatum head.ref
  exact ⟨stash, held₀, w₀, r, w', hcalls₀, hbegin, hends t w₂ r w' hlist hend, hiff⟩

end

namespace Detached

/-- The head of the word that names the variable. -/
def nameHead : NodeHead := ⟨⟨4⟩, 4, ⟨3⟩, .literal, .datum⟩

/-- The head of `local "erract`. -/
def localHead : NodeHead := ⟨⟨5⟩, 5, ⟨2⟩, .makeLocal, .nothing⟩

/-- The list `[local "erract]`, and what a catch of it needs. -/
def heap : Heap where
  objects := #[.nothing, .word (.text "true"), .word (.text "local"), .word (.text "erract"),
    .node nameHead [.datum ⟨3⟩], .node localHead [.call nameHead [.datum ⟨3⟩]],
    .list ⟨6, none, 1, some [[.call localHead [.call nameHead [.datum ⟨3⟩]]]]⟩, .word (.text "x"),
    .word (.text "catch"), .node ⟨⟨9⟩, 9, ⟨8⟩, .catching, .datumOrNothing⟩ []]

/-- A call is running that binds nothing, and the global `ERRACT` is set. -/
def world : World where
  heap := heap
  frames := { calls := [{}], globals := { locals := [("ERRACT", ⟨1⟩)] } }

/-- What the catch keeps, what the list comes to, and what the catch comes to, with the states. -/
def run : Option ((Ref × World) × (Ref × World) × (Ref × World)) := do
  let started ← (beginCatch world).toOption
  let ran ← ((engine 40).list [] ⟨6⟩ started.2).toOption
  let ended ← (endCatch started.1 ⟨7⟩ ⟨9⟩ ran.1 ran.2).toOption
  return (started, ran, ended)

/-- Whether the global binding is emptied and the list leaves it so, and adds one to the frame of
the call. -/
def loses : Bool :=
  match run with
  | some ((_, w₁), (_, w₂), _) =>
    w₁.frames.calls = [{}] && w₂.frames.globals = w₁.frames.globals &&
      w₂.frames.calls.map (·.locals.has "ERRACT") = [true] &&
      w₁.frames.globals.locals.get? "ERRACT" = some Ref.nothing
  | none => false

theorem loses_eq_true : loses = true := by
  decide +kernel

/-- The list assigns nothing, and yet `ERRACT` is not given back. -/
theorem not_retains : ∃ stash w₁ t w₂ r w', beginCatch world = .ok (stash, w₁) ∧
    (engine 40).list [] ⟨6⟩ w₁ = .ok (t, w₂) ∧ endCatch stash ⟨7⟩ ⟨9⟩ t w₂ = .ok (r, w') ∧
    w₁.frames.Retains "ERRACT" w₂.frames ∧ ¬ world.frames.Retains "ERRACT" w'.frames := by
  have hloses := loses_eq_true
  rw [loses] at hloses
  split at hloses
  · next stash w₁ t w₂ r hrun =>
    simp only [run, Option.bind_eq_bind, Option.bind_eq_some_iff] at hrun
    obtain ⟨started, hbegin, ran, hlist, ended, hend, hrun⟩ := hrun
    cases hrun
    simp only [Bool.and_eq_true, decide_eq_true_eq] at hloses
    obtain ⟨⟨⟨hcalls, hglobals⟩, hlocal⟩, hempty⟩ := hloses
    have hbegin := eq_ok_of_toOption hbegin
    have hlist := eq_ok_of_toOption hlist
    have hend := eq_ok_of_toOption hend
    -- the only call had no binding, so there is none to keep
    obtain ⟨frame, hframe, htop⟩ : ∃ frame, w₂.frames.calls = [frame] ∧
        frame.locals.has "ERRACT" = true := by
      cases hw : w₂.frames.calls with
      | nil => rw [hw] at hlocal; cases hlocal
      | cons frame rest =>
        rw [hw] at hlocal
        simp only [List.map_cons, List.cons.injEq, List.map_eq_nil_iff] at hlocal
        exact ⟨frame, by rw [hlocal.2], hlocal.1⟩
    have hbody : w₁.frames.Retains "ERRACT" w₂.frames := by
      refine ⟨?_, fun r hr => by rwa [hglobals]⟩
      rw [hcalls, hframe]
      exact .cons (Frame.retains_of_not_has rfl _) .nil
    refine ⟨stash, w₁, t, w₂, r.1, r.2, hbegin, hlist, hend, hbody, fun hkept => ?_⟩
    rcases (retains_catch_iff hbegin hlist hend hbody).mp hkept with hkept | hhas | hhas
    · cases (hkept.globals ⟨1⟩ rfl).symm.trans hempty
    · cases hhas
    · rw [Frames.top, hframe] at hhas
      cases htop.symm.trans hhas
  · cases hloses

end Detached

end LogoEngine
