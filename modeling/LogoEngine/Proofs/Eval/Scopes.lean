import LogoEngine.Proofs.Eval.Erract

/-!
# Dynamic scope

Frames are numbered from the global one, which has position 0, so that a call that starts or ends
moves none of the others. What a frame binds a name to is a **slot**. A name is read from the slot
of the innermost frame that binds it, and an assignment changes that slot, or makes one in the global
frame, and no other. A call that gives a name a binding of its own before it assigns to it, whatever
else it and the calls inside it do, leaves the slots of that name as they were.

Main statement: `Frames.dynamic_scope`.
-/

namespace LogoEngine

namespace Frames

/-! ### Slots -/

/-- What the frame at a position binds a name to. The global frame has position 0, and the innermost
one has as many frames below it as there are calls. -/
def slot? (fs : Frames) (position : Nat) (key : String) : Option Ref :=
  (fs.globals :: fs.calls.reverse)[position]?.bind fun frame => frame.locals.get? key

/-- The position of the innermost frame that binds a name, or of the global frame. -/
def home (fs : Frames) (key : String) : Nat :=
  (fs.calls.dropWhile fun frame => !frame.locals.has key).length

variable {fs fs' : Frames} {key name : String} {value : Ref} {position : Nat} {frame : Frame}
  {rest : List Frame} {globals : Frame}

theorem slot?_nil : (⟨[], globals⟩ : Frames).slot? position name =
    if position = 0 then globals.locals.get? name else none := by
  cases position <;> simp [slot?]

/-- The innermost frame stands above all others. -/
theorem slot?_cons : (⟨frame :: rest, globals⟩ : Frames).slot? position name =
    if position = rest.length + 1 then frame.locals.get? name
    else (⟨rest, globals⟩ : Frames).slot? position name := by
  have hlength : (globals :: rest.reverse).length = rest.length + 1 := by simp
  unfold slot?
  dsimp only
  rw [List.reverse_cons, ← List.cons_append]
  split
  · next h => rw [h, List.getElem?_append_right hlength.le, hlength, Nat.sub_self]; rfl
  · next h =>
    rcases Nat.lt_or_gt_of_ne h with hlt | hgt
    · rw [List.getElem?_append_left (hlength ▸ hlt)]
    · rw [List.getElem?_eq_none (by simp; omega), List.getElem?_eq_none (by simp; omega)]

theorem slot?_cons_of_le (h : position ≤ rest.length) :
    (⟨frame :: rest, globals⟩ : Frames).slot? position name =
      (⟨rest, globals⟩ : Frames).slot? position name :=
  slot?_cons.trans (if_neg (Nat.ne_of_lt (Nat.lt_succ_of_le h)))

theorem home_cons_of_has (h : frame.locals.has key = true) :
    (⟨frame :: rest, globals⟩ : Frames).home key = rest.length + 1 := by
  simp [home, h]

theorem home_cons_of_not_has (h : frame.locals.has key = false) :
    (⟨frame :: rest, globals⟩ : Frames).home key = (⟨rest, globals⟩ : Frames).home key := by
  simp [home, h]

theorem home_le_depth (fs : Frames) (key : String) : fs.home key ≤ fs.depth :=
  (List.dropWhile_sublist _).length_le

theorem slot?_cons_home :
    (⟨frame :: rest, globals⟩ : Frames).slot? ((⟨rest, globals⟩ : Frames).home key) name =
      (⟨rest, globals⟩ : Frames).slot? ((⟨rest, globals⟩ : Frames).home key) name :=
  slot?_cons_of_le (home_le_depth ⟨rest, globals⟩ key)

/-- A name is read from its home. -/
theorem get?_eq_slot? (fs : Frames) (key : String) : fs.get? key = fs.slot? (fs.home key) key := by
  obtain ⟨calls, globals⟩ := fs
  induction calls with
  | nil => rfl
  | cons frame rest ih =>
    cases h : frame.locals.has key with
    | true => rw [get?_cons_of_has h, home_cons_of_has h, slot?_cons, if_pos rfl]
    | false =>
      rw [get?_cons_of_not_has h, home_cons_of_not_has h, slot?_cons_home, ih]

theorem slot?_of_depth_lt (h : fs.depth < position) : fs.slot? position name = none := by
  rw [depth] at h
  rw [slot?, List.getElem?_eq_none (by simp; omega)]
  rfl

/-- No frame further in than its home binds a name. -/
theorem slot?_of_home_lt (h : fs.home key < position) : fs.slot? position key = none := by
  obtain ⟨calls, globals⟩ := fs
  induction calls with
  | nil => exact slot?_of_depth_lt h
  | cons frame rest ih =>
    cases hhas : frame.locals.has key with
    | true =>
      rw [home_cons_of_has hhas] at h
      exact slot?_of_depth_lt h
    | false =>
      rw [home_cons_of_not_has hhas] at h
      rw [slot?_cons]
      split
      · simpa [Table.has] using hhas
      · exact ih h

/-- The home of a name binds it, or is the global frame. -/
theorem isSome_slot?_home (h : fs.home key ≠ 0) : (fs.slot? (fs.home key) key).isSome := by
  obtain ⟨calls, globals⟩ := fs
  induction calls with
  | nil => exact absurd rfl h
  | cons frame rest ih =>
    cases hhas : frame.locals.has key with
    | true => rwa [home_cons_of_has hhas, slot?_cons, if_pos rfl]
    | false =>
      rw [home_cons_of_not_has hhas] at h ⊢
      rw [slot?_cons_home]
      exact ih h

/-! ### Slots after a change -/

theorem AfterCall.home_eq (h : fs.AfterCall fs') (key : String) : fs'.home key = fs.home key := by
  obtain ⟨calls, globals⟩ := fs
  obtain ⟨calls', globals'⟩ := fs'
  obtain ⟨hcalls, -, -⟩ := h
  dsimp only at hcalls
  induction hcalls with
  | nil => rfl
  | @cons frame frame' rest rest' hframe hrest ih =>
    cases hhas : frame.locals.has key with
    | true =>
      rw [home_cons_of_has hhas, home_cons_of_has ((hframe.names key).trans hhas),
        hrest.length_eq]
    | false =>
      rw [home_cons_of_not_has hhas, home_cons_of_not_has ((hframe.names key).trans hhas), ih]

/-- After a call the frames of the callers bind the names that they bound before. -/
theorem AfterCall.isSome_slot? (h : fs.AfterCall fs') (hposition : position ≠ 0) (name : String) :
    (fs'.slot? position name).isSome = (fs.slot? position name).isSome := by
  obtain ⟨calls, globals⟩ := fs
  obtain ⟨calls', globals'⟩ := fs'
  obtain ⟨hcalls, -, -⟩ := h
  dsimp only at hcalls
  induction hcalls with
  | nil => rw [slot?_nil, slot?_nil, if_neg hposition, if_neg hposition]
  | @cons frame frame' rest rest' hframe hrest ih =>
    rw [slot?_cons, slot?_cons, hrest.length_eq]
    split
    · exact hframe.names name
    · exact ih

theorem home_set (fs : Frames) (key : String) (value : Ref) (name : String) :
    (fs.set key value).home name = fs.home name :=
  (fs.afterCall_set key value).home_eq name

theorem depth_set (fs : Frames) (key : String) (value : Ref) :
    (fs.set key value).depth = fs.depth :=
  (fs.afterCall_set key value).afterList.depth_eq

/-- An assignment changes the slot that a search finds, and no other. -/
theorem slot?_set (fs : Frames) (key : String) (value : Ref) (position : Nat) (name : String) :
    (fs.set key value).slot? position name =
      if position = fs.home key ∧ name = key then some value else fs.slot? position name := by
  obtain ⟨calls, globals⟩ := fs
  induction calls with
  | nil =>
    have hset : (⟨[], globals⟩ : Frames).set key value =
        ⟨[], { globals with locals := globals.locals.insert key value }⟩ := rfl
    have hhome : (⟨[], globals⟩ : Frames).home key = 0 := rfl
    rw [hset, hhome, slot?_nil, slot?_nil, Table.get?_insert]
    by_cases hposition : position = 0 <;> simp [hposition]
  | cons frame rest ih =>
    cases hhas : frame.locals.has key with
    | true =>
      rw [set_cons_of_has hhas, home_cons_of_has hhas, slot?_cons, slot?_cons, Table.get?_insert]
      by_cases hposition : position = rest.length + 1 <;> simp [hposition]
    | false =>
      have hle : (⟨rest, globals⟩ : Frames).home key ≤ rest.length := home_le_depth _ _
      have hlength : ((⟨rest, globals⟩ : Frames).set key value).calls.length = rest.length :=
        depth_set _ _ _
      rw [set_cons_of_not_has hhas, home_cons_of_not_has hhas, slot?_cons, slot?_cons, hlength]
      split
      · next h => rw [if_neg (by omega)]
      · exact ih

theorem slot?_bind (fs : Frames) (key : String) (value : Ref) (position : Nat) (name : String) :
    (fs.bind key value).slot? position name =
      if position = fs.depth ∧ name = key then some value else fs.slot? position name := by
  obtain ⟨calls, globals⟩ := fs
  cases calls with
  | nil =>
    rw [bind, modifyTop, slot?_nil, slot?_nil, Table.get?_insert]
    by_cases hposition : position = 0 <;> simp [hposition, depth]
  | cons frame rest =>
    rw [bind, modifyTop, slot?_cons, slot?_cons, Table.get?_insert]
    by_cases hposition : position = rest.length + 1 <;> simp [hposition, depth]

/-- A frame that was just pushed binds nothing. -/
@[simp]
theorem slot?_push (fs : Frames) (procedure node : Ref) (position : Nat) (name : String) :
    (fs.push procedure node).slot? position name = fs.slot? position name := by
  obtain ⟨calls, globals⟩ := fs
  rw [push, slot?_cons]
  split
  · next h => exact (slot?_of_depth_lt (h ▸ Nat.lt_succ_self _)).symm
  · rfl

/-- The end of a call leaves the frames below as they are. -/
theorem slot?_pop (h : position < fs.depth) : fs.pop.slot? position name = fs.slot? position name := by
  obtain ⟨calls, globals⟩ := fs
  cases calls with
  | nil => cases h
  | cons frame rest => exact (slot?_cons_of_le (Nat.le_of_lt_succ h)).symm

/-! ### Scopes -/

/-- What is done to frames. -/
inductive Change where
  | push (procedure node : Ref)
  | pop
  | set (key : String) (value : Ref)
  | bind (key : String) (value : Ref)

/-- Makes a change. -/
def change (fs : Frames) : Change → Frames
  | .push procedure node => fs.push procedure node
  | .pop => fs.pop
  | .set key value => fs.set key value
  | .bind key value => fs.bind key value

/-- Makes changes, one after the other. -/
def changeAll (fs : Frames) (changes : List Change) : Frames :=
  changes.foldl change fs

/-- Changes among which every call that starts also ends, and none ends that started before. -/
inductive Balanced : List Change → Prop
  | nil : Balanced []
  | set {rest : List Change} (key : String) (value : Ref) :
    Balanced rest → Balanced (.set key value :: rest)
  | bind {rest : List Change} (key : String) (value : Ref) :
    Balanced rest → Balanced (.bind key value :: rest)
  | call {inner rest : List Change} (procedure node : Ref) :
    Balanced inner → Balanced rest → Balanced (.push procedure node :: (inner ++ .pop :: rest))

/-- A call that binds a name in its own frame before anything is assigned to it. -/
inductive Shadows (key : String) : List Change → Prop
  | intro (procedure node value : Ref) (before after : List Change) :
    Balanced before → (∀ v, .set key v ∉ before) → Balanced after →
      Shadows key (.push procedure node :: (before ++ .bind key value :: (after ++ [.pop])))

theorem changeAll_cons (fs : Frames) (c : Change) (changes : List Change) :
    fs.changeAll (c :: changes) = (fs.change c).changeAll changes :=
  rfl

theorem changeAll_append (fs : Frames) (changes changes' : List Change) :
    fs.changeAll (changes ++ changes') = (fs.changeAll changes).changeAll changes' :=
  List.foldl_append

theorem depth_bind (fs : Frames) (key : String) (value : Ref) :
    (fs.bind key value).depth = fs.depth :=
  (fs.afterList_modifyTop fun _ => ⟨rfl, rfl, rfl⟩ : fs.AfterList (fs.bind key value)).depth_eq

/-- Balanced changes are made within one call. -/
theorem Balanced.inCall {changes : List Change} (h : Balanced changes) (fs : Frames) :
    fs.InCall (fs.changeAll changes) := by
  induction h generalizing fs with
  | nil => exact Std.Refl.refl fs
  | set key value _ ih =>
    have hset : fs.InCall (fs.set key value) := (fs.afterCall_set key value).afterList.inCall
    exact IsTrans.trans _ _ _ hset (ih _)
  | bind key value _ ih =>
    have hbind : fs.InCall (fs.bind key value) := fs.inCall_modifyTop _
    exact IsTrans.trans _ _ _ hbind (ih _)
  | @call inner rest procedure node _ _ ihinner ihrest =>
    rw [changeAll_cons, changeAll_append, changeAll_cons]
    have hcall : fs.AfterCall ((fs.push procedure node).changeAll inner).pop :=
      (ihinner _).afterCall_pop
    exact IsTrans.trans _ _ _ hcall.afterList.inCall (ihrest _)

/-- Below a position the slots of a name are the same, and if the frame at the position binds it, it
still does. -/
structure Shields (key : String) (position : Nat) (fs fs' : Frames) : Prop where
  below : ∀ lower, lower < position → fs'.slot? lower key = fs.slot? lower key
  bound : (fs.slot? position key).isSome → (fs'.slot? position key).isSome

theorem Shields.refl (key : String) (position : Nat) (fs : Frames) : Shields key position fs fs :=
  ⟨fun _ _ => rfl, id⟩

theorem Shields.trans {fs₁ fs₂ : Frames} (h : Shields key position fs fs₁)
    (h' : Shields key position fs₁ fs₂) : Shields key position fs fs₂ :=
  ⟨fun lower hlower => (h'.below lower hlower).trans (h.below lower hlower), h'.bound ∘ h.bound⟩

/-- What is assigned to a name goes no further out than to a frame that binds it. -/
theorem shields_set (value : Ref) (h : name = key → (fs.slot? position key).isSome) :
    Shields key position fs (fs.set name value) := by
  refine ⟨fun lower hlower => ?_, fun hbound => ?_⟩
  · rw [slot?_set, if_neg]
    rintro ⟨rfl, rfl⟩
    rw [slot?_of_home_lt hlower] at h
    cases h rfl
  · rw [slot?_set]
    split
    · rfl
    · exact hbound

theorem shields_bind (name : String) (value : Ref) (h : position ≤ fs.depth) :
    Shields key position fs (fs.bind name value) := by
  refine ⟨fun lower hlower => ?_, fun hbound => ?_⟩
  · rw [slot?_bind, if_neg (by omega)]
  · rw [slot?_bind]
    split
    · rfl
    · exact hbound

theorem shields_push (procedure node : Ref) :
    Shields key position fs (fs.push procedure node) :=
  ⟨fun _ _ => slot?_push .., fun h => by rwa [slot?_push]⟩

theorem shields_pop (h : position < fs.depth) : Shields key position fs fs.pop :=
  ⟨fun _ hlower => slot?_pop (hlower.trans h), fun hbound => by rwa [slot?_pop h]⟩

/-- Balanced changes in or above a frame that binds a name, or without an assignment to it, leave its
slots below that frame alone. -/
theorem Balanced.shields {changes : List Change} (h : Balanced changes) (hdepth : position ≤ fs.depth)
    (hset : (fs.slot? position key).isSome ∨ ∀ v, .set key v ∉ changes) :
    Shields key position fs (fs.changeAll changes) := by
  induction h generalizing fs with
  | nil => exact .refl key position fs
  | @set rest name value _ ih =>
    have hstep : Shields key position fs (fs.set name value) := by
      refine shields_set value fun heq => ?_
      subst heq
      exact hset.resolve_right fun hnone => hnone value List.mem_cons_self
    refine hstep.trans (ih (by rwa [depth_set]) ?_)
    exact hset.imp hstep.bound fun hnone v => List.not_mem_of_not_mem_cons (hnone v)
  | @bind rest name value _ ih =>
    have hstep : Shields key position fs (fs.bind name value) := shields_bind name value hdepth
    refine hstep.trans (ih (by rwa [depth_bind]) ?_)
    exact hset.imp hstep.bound fun hnone v => List.not_mem_of_not_mem_cons (hnone v)
  | @call inner rest procedure node hinner _ ihinner ihrest =>
    rw [changeAll_cons, changeAll_append, changeAll_cons]
    have hpush : Shields key position fs (fs.push procedure node) := shields_push procedure node
    have hrun : Shields key position (fs.push procedure node)
        ((fs.push procedure node).changeAll inner) := by
      refine ihinner (Nat.le_succ_of_le hdepth) (hset.imp hpush.bound fun hnone v hmem => ?_)
      exact hnone v (List.mem_cons_of_mem _ (List.mem_append_left _ hmem))
    -- the frame that is popped stands above the position, as it is the one that was pushed
    have hpushed : ((fs.push procedure node).changeAll inner).depth = fs.depth + 1 :=
      (hinner.inCall _).depth_eq (List.cons_ne_nil _ _)
    have hpop : Shields key position _ ((fs.push procedure node).changeAll inner).pop :=
      shields_pop (by omega)
    have hcall := (hpush.trans hrun).trans hpop
    have hafter : ((fs.push procedure node).changeAll inner).pop.depth = fs.depth :=
      ((hinner.inCall _).afterCall_pop).afterList.depth_eq
    refine hcall.trans (ihrest (hdepth.trans_eq hafter.symm) ?_)
    refine hset.imp hcall.bound fun hnone v hmem => ?_
    exact hnone v (List.mem_cons_of_mem _ (List.mem_append_right _ (List.mem_cons_of_mem _ hmem)))

/-- At its end a call that shadows a name has left the slots of the name below its own frame alone. -/
theorem Shadows.exists_body {changes : List Change} (h : Shadows key changes) (fs : Frames) :
    ∃ procedure node body, fs.changeAll changes = body.pop ∧ (fs.push procedure node).InCall body ∧
      Shields key (fs.depth + 1) (fs.push procedure node) body := by
  obtain ⟨procedure, node, value, before, after, hbefore, hnone, hafter⟩ := h
  have hin : (fs.push procedure node).InCall ((fs.push procedure node).changeAll before) :=
    hbefore.inCall _
  have hstart : Shields key (fs.depth + 1) (fs.push procedure node)
      ((fs.push procedure node).changeAll before) := hbefore.shields le_rfl (.inr hnone)
  have hchanges : fs.changeAll (.push procedure node ::
        (before ++ .bind key value :: (after ++ [.pop]))) =
      ((((fs.push procedure node).changeAll before).bind key value).changeAll after).pop := by
    rw [changeAll_cons, changeAll_append, changeAll_cons, changeAll_append]
    rfl
  rw [hchanges]
  generalize (fs.push procedure node).changeAll before = start at hin hstart ⊢
  have hbind : start.InCall (start.bind key value) := start.inCall_modifyTop _
  have hdepth : start.depth = fs.depth + 1 := hin.depth_eq (List.cons_ne_nil _ _)
  have hbound : ((start.bind key value).slot? (fs.depth + 1) key).isSome := by
    rw [slot?_bind, if_pos ⟨hdepth.symm, rfl⟩]
    rfl
  have hend : Shields key (fs.depth + 1) (start.bind key value)
      ((start.bind key value).changeAll after) :=
    hafter.shields (by rw [depth_bind, hdepth]) (.inl hbound)
  exact ⟨procedure, node, _, rfl, IsTrans.trans _ _ _ (IsTrans.trans _ _ _ hin hbind)
    (hafter.inCall _), (hstart.trans (shields_bind key value hdepth.ge)).trans hend⟩

/-- **Dynamic scope.** A name is read from one slot, that of the innermost frame that binds it, or of
the global frame if none does. An assignment changes this slot, which may be a new one of the global
frame, and no other, so the name reads as assigned and all other names read as before. A call that
binds a name in its own frame before anything is assigned to it leaves every slot of the name as it
was, and no frame that was there before, except the global one, has got or lost a name. -/
theorem dynamic_scope (fs : Frames) (key : String) :
    (∃ position,
      (∀ higher, position < higher → fs.slot? higher key = none) ∧
      (position ≠ 0 → (fs.slot? position key).isSome) ∧
      fs.get? key = fs.slot? position key ∧
      ∀ value,
        (∀ other name, (fs.set key value).slot? other name =
          if other = position ∧ name = key then some value else fs.slot? other name) ∧
        fs.AfterCall (fs.set key value) ∧
        (fs.set key value).get? key = some value ∧
        ∀ name, name ≠ key → (fs.set key value).get? name = fs.get? name) ∧
    ∀ changes, Shadows key changes →
      (fs.changeAll changes).depth = fs.depth ∧
      (∀ position, (fs.changeAll changes).slot? position key = fs.slot? position key) ∧
      ∀ position, position ≠ 0 → ∀ name,
        ((fs.changeAll changes).slot? position name).isSome = (fs.slot? position name).isSome := by
  refine ⟨⟨fs.home key, fun _ => slot?_of_home_lt, isSome_slot?_home, get?_eq_slot? fs key,
    fun value => ⟨slot?_set fs key value, afterCall_set fs key value, ?_, fun name hname => ?_⟩⟩,
    fun changes hshadows => ?_⟩
  · rw [get?_eq_slot?, home_set, slot?_set, if_pos ⟨rfl, rfl⟩]
  · rw [get?_eq_slot?, home_set, slot?_set, if_neg (hname ·.2), ← get?_eq_slot?]
  · obtain ⟨procedure, node, body, heq, hbody, hshields⟩ := hshadows.exists_body fs
    have hcall : fs.AfterCall (fs.changeAll changes) := heq ▸ hbody.afterCall_pop
    have hdepth : (fs.changeAll changes).depth = fs.depth := hcall.afterList.depth_eq
    refine ⟨hdepth, fun position => ?_, fun position hposition => hcall.isSome_slot? hposition⟩
    -- above the frames there are no slots, and below them the call has shielded every slot
    rcases Nat.lt_or_ge fs.depth position with hlt | hle
    · rw [slot?_of_depth_lt hlt, slot?_of_depth_lt (hdepth.trans_lt hlt)]
    · have hlt : position < body.depth := by
        rw [hbody.depth_eq (List.cons_ne_nil _ _)]
        exact Nat.lt_succ_of_le hle
      rw [heq, slot?_pop hlt, hshields.below position (Nat.lt_succ_of_le hle), slot?_push]

namespace Rebound

/-- One call is running, and `X` is bound in its frame and globally. -/
def frames : Frames where
  calls := [{ procedure := some ⟨1⟩, node := some ⟨2⟩, locals := [("X", ⟨3⟩)] }]
  globals := { locals := [("X", ⟨4⟩)] }

/-- A call that makes a global `Y`, binds `X` after an inner call, and then assigns to it, in its own
frame and in that of a second inner call, which gives `X` a binding of its own only later. -/
def changes : List Change :=
  [.push ⟨1⟩ ⟨2⟩, .set "Y" ⟨5⟩, .push ⟨1⟩ ⟨2⟩, .bind "X" ⟨6⟩, .pop, .bind "X" ⟨7⟩, .set "X" ⟨8⟩,
    .push ⟨1⟩ ⟨2⟩, .set "X" ⟨9⟩, .bind "X" ⟨3⟩, .set "X" ⟨5⟩, .pop, .pop]

/-- The last assignment that leaves the second inner call is seen until the call ends. Then both
bindings of `X` are as before, and only `Y` is new. -/
theorem shadows_changes : Shadows "X" changes ∧
    (frames.changeAll changes.dropLast).get? "X" = some ⟨9⟩ ∧
    (frames.changeAll changes).get? "Y" = some ⟨5⟩ ∧
    (frames.changeAll changes).depth = frames.depth ∧
    (∀ position, (frames.changeAll changes).slot? position "X" = frames.slot? position "X") ∧
    ∀ position, position ≠ 0 → ∀ name,
      ((frames.changeAll changes).slot? position name).isSome =
        (frames.slot? position name).isSome := by
  have hshadows : Shadows "X" changes :=
    .intro ⟨1⟩ ⟨2⟩ ⟨7⟩ [.set "Y" ⟨5⟩, .push ⟨1⟩ ⟨2⟩, .bind "X" ⟨6⟩, .pop]
      [.set "X" ⟨8⟩, .push ⟨1⟩ ⟨2⟩, .set "X" ⟨9⟩, .bind "X" ⟨3⟩, .set "X" ⟨5⟩, .pop]
      (.set _ _ (.call _ _ (.bind _ _ .nil) .nil)) (by simp)
      (.set _ _ (.call _ _ (.set _ _ (.bind _ _ (.set _ _ .nil))) .nil))
  exact ⟨hshadows, by decide, by decide, (dynamic_scope frames "X").2 changes hshadows⟩

end Rebound

end Frames

end LogoEngine
