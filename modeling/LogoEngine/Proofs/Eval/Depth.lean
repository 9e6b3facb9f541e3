import LogoEngine.Proofs.Eval.Frames
import LogoEngine.Proofs.Eval.Moments

/-!
# How deep calls nest

Only a call that gets a frame makes the frames more, and it gets one only where there is room. All
else that follows a moment happens with as many frames, tail calls included: the frame of an
activation is gone before the next one gets its own.

Main statement: `depth_bounded`.
-/

namespace LogoEngine

/-- Two states with as many frames and the same settings. -/
structure World.Level (w w' : World) : Prop where
  depth : w'.frames.depth = w.frames.depth
  settings : w'.settings = w.settings

namespace World.Level

variable {α : Type} {m : Run α} {w w₁ w' : World} {a : α}

theorem trans (h : w.Level w₁) (h' : w₁.Level w') : w.Level w' :=
  ⟨h'.depth.trans h.depth, h'.settings.trans h.settings⟩

theorem pos (h : w.Level w') (hpos : 0 < w.frames.depth) : 0 < w'.frames.depth := by
  rw [h.depth]
  exact hpos

theorem settings_eq (h : w.Changes w') : w'.settings = w.settings := by
  induction h with
  | refl => rfl
  | tail _ hlast ih => exact hlast.settings_eq.trans ih

theorem of_run [Run.Changes m] [hm : Run.Keeps (World.Across Frames.AfterList) m]
    (h : m w = .ok (a, w')) : w.Level w' := by
  have hafter : w.frames.AfterList w'.frames := hm.keeps h
  exact ⟨hafter.depth_eq, settings_eq (Run.Changes.changes h)⟩

/-- What runs in the frame of a call does not take that frame away. -/
theorem of_inCall [Run.Changes m] [hm : Run.Keeps (World.Across Frames.InCall) m]
    (hframe : 0 < w.frames.depth) (h : m w = .ok (a, w')) : w.Level w' := by
  have hinCall : w.frames.InCall w'.frames := hm.keeps h
  exact ⟨hinCall.depth_eq (List.ne_nil_of_length_pos hframe),
    settings_eq (Run.Changes.changes h)⟩

theorem modifyTop (w : World) (f : Frame → Frame) :
    w.Level { w with frames := w.frames.modifyTop f } := by
  refine ⟨?_, rfl⟩
  unfold Frames.modifyTop
  split <;> simp_all [Frames.depth]

theorem of_step {n : Nat} {pins : Pins} {code : Linked} {block : Int} {c : Config}
    {o : Machine.Outcome} (h : Machine.step (engine n) pins code block c = .ok o) :
    c.world.Level o.world := by
  unfold Machine.step at h
  split at h
  · split at h
    · next hrun =>
      cases h
      exact of_run hrun
    · cases h
  · cases h
    rw [Machine.world_leave]
    exact ⟨rfl, rfl⟩

theorem of_reaches {n : Nat} {pins : Pins} {code : Linked} {block : Int} {c c' : Config}
    (h : Machine.Reaches (engine n) pins code block c c') : c.world.Level c'.world := by
  induction h with
  | refl => exact ⟨rfl, rfl⟩
  | tail _ hlast ih => exact ih.trans (of_step hlast)

end World.Level

namespace Moment

/-- While inputs are bound and a body runs, the frame of the call is there. -/
def Framed : Moment → Prop
  | inputs _ _ _ _ _ w | body _ _ _ _ w => 0 < w.frames.depth
  | list _ _ _ | code _ _ _ _ | call _ _ _ => True

/-- A run starts at the top level: with a list, with code or with a call, and with no call
running. -/
def Starts : Moment → Prop
  | m@(list _ _ _) | m@(code _ _ _ _) | m@(call _ _ _) => m.world.frames.calls = []
  | inputs _ _ _ _ _ _ | body _ _ _ _ _ => False

variable {m m' m₀ : Moment}

/-- What follows a moment with the same frames. -/
theorem Stays.level (h : m.Stays m') (hframed : m.Framed) :
    m'.Framed ∧ m.world.Level m'.world := by
  cases h with
  | listStarts hcompile =>
    exact ⟨trivial, (World.Level.of_run hcompile).trans (.modifyTop _ _)⟩
  | moves hmoves => exact ⟨trivial, .of_step hmoves⟩
  | runsList | makesCall | codeStarts => exact ⟨trivial, rfl, rfl⟩
  | passes hpasses =>
    obtain ⟨_, _, _, _, ⟨n, procedure, -, -, hinvoke⟩, -, -⟩ := hpasses
    have hafter : Frames.AfterCall _ _ :=
      Run.Keeps.keeps (R := World.Across Frames.AfterCall) hinvoke
    exact ⟨trivial, hafter.afterList.depth_eq,
      World.Level.settings_eq (Run.Changes.changes hinvoke)⟩
  | runsDefault hrequired _ hdone =>
    have hbound := World.Level.of_inCall hframed hrequired
    exact ⟨trivial, hbound.trans (.of_inCall (hbound.pos hframed) hdone)⟩
  | bodyStarts hrequired hoptional hrest hcompile =>
    have hbound := World.Level.of_inCall hframed hrequired
    have hbound := hbound.trans (.of_inCall (hbound.pos hframed) hoptional)
    have hbound := hbound.trans (.of_inCall (hbound.pos hframed) hrest)
    have hbound := hbound.trans (.of_run hcompile)
    exact ⟨World.Level.pos (.modifyTop _ _) (hbound.pos hframed), hbound.trans (.modifyTop _ _)⟩
  | jumps hcode =>
    have hran := World.Level.of_run hcode
    exact ⟨hran.pos hframed, hran⟩

/-- A call that gets a frame has room for it. -/
theorem Opens.deeper (h : m.Opens m') :
    m'.Framed ∧ m'.world.frames.depth = m.world.frames.depth + 1 ∧
      m.world.frames.depth < m.world.settings.maxDepth ∧ m'.world.settings = m.world.settings := by
  cases h with
  | intro _ hroom => exact ⟨Nat.succ_pos _, rfl, hroom, rfl⟩

theorem level_of_stays (h : Relation.ReflTransGen Stays m m') (hframed : m.Framed) :
    m'.Framed ∧ m.world.Level m'.world := by
  induction h with
  | refl => exact ⟨hframed, rfl, rfl⟩
  | tail _ hlast ih =>
    obtain ⟨hframed', hlevel⟩ := hlast.level ih.1
    exact ⟨hframed', ih.2.trans hlevel⟩

/-- A moment with no more frames than the settings allow. -/
structure Bounded (limit : Nat) (m : Moment) : Prop where
  framed : m.Framed
  limit_eq : m.world.settings.maxDepth = limit
  depth_le : m.world.frames.depth ≤ limit

theorem Starts.bounded (h : m.Starts) : m.Bounded m.world.settings.maxDepth := by
  have hdepth : m.world.frames.calls = [] → m.Framed → m.Bounded m.world.settings.maxDepth :=
    fun hcalls hframed => ⟨hframed, rfl, by rw [Frames.depth, hcalls]; exact Nat.zero_le _⟩
  cases m with
  | list | code | call => exact hdepth h trivial
  | inputs | body => exact h.elim

/-- One step keeps within the bound. -/
theorem Next.bounded {limit : Nat} (h : m.Next m') (hm : m.Bounded limit) : m'.Bounded limit := by
  rcases h with hstays | hopens
  · obtain ⟨hframed, hlevel⟩ := hstays.level hm.framed
    exact ⟨hframed, hlevel.settings ▸ hm.limit_eq, hlevel.depth ▸ hm.depth_le⟩
  · obtain ⟨hframed, hdepth, hroom, hsettings⟩ := hopens.deeper
    refine ⟨hframed, hsettings ▸ hm.limit_eq, ?_⟩
    rw [hdepth, ← hm.limit_eq]
    exact hroom

/-- A whole run keeps within the bound. -/
theorem bounded_of_next {limit : Nat} (h : Relation.ReflTransGen Next m m')
    (hm : m.Bounded limit) : m'.Bounded limit := by
  induction h with
  | refl => exact hm
  | tail _ hlast ih => exact hlast.bounded ih

/-- The level at which a moment is left is that of the moment. -/
theorem Ends.depth_eq {r : Ref} {w' : World} (h : m.Ends r w') (hframed : m.Framed) :
    w'.frames.depth = m.world.frames.depth := by
  obtain ⟨n, h⟩ := h
  cases m with
  | list => exact (World.Level.of_run h).depth
  | code pins code block c =>
    obtain ⟨c', hreaches, hlast⟩ := h
    exact ((World.Level.of_reaches hreaches).trans (.of_step hlast)).depth
  | call =>
    have hafter : Frames.AfterCall _ _ := Run.Keeps.keeps (R := World.Across Frames.AfterCall) h
    exact hafter.afterList.depth_eq
  | inputs => exact (World.Level.of_inCall hframed h).depth
  | body => exact (World.Level.of_inCall hframed h).depth

/-! ### Calls that are refused -/

/-- A call is answered with an error, and nothing runs for it. -/
def Refused (code : ErrorCode) (m : Moment) : Prop :=
  (∀ m', ¬ m.Next m') ∧ ∃ r w' e, m.Ends r w' ∧ w'.heap.get r = .error e ∧ e.code = code

theorem exists_raise (code : ErrorCode) (args : List Ref) (w : World) :
    ∃ r w' e, raise code args w = .ok (r, w') ∧ w'.heap.get r = .error e ∧ e.code = code :=
  ⟨_, _, _, rfl, Heap.get_add_self _ _, rfl⟩

section

variable {pins : Pins} {a : Activation} {procedure : Ref} {w : World}

/-- A procedure that gets no frame for its call is answered with an error about the procedure or the
number of inputs. -/
theorem invoke_eq_raise (re : Reenter) (fuel : Nat) (pins' : Pins)
    (hprocedure : w.procedures.get? (w.heap.keyOf (w.heap.displayName a.call)) = some procedure)
    (hroom : w.frames.depth < w.settings.maxDepth) (hnone : ∀ m, ¬ (call pins a w).Opens m) :
    ∃ code, code ≠ .stackOverflow ∧
      invoke re fuel pins' procedure a.call a.args w = raise code [a.call] w := by
  unfold invoke
  rw [Run.heap_bind]
  cases hp : w.heap.procedure? procedure with
  | none => exact ⟨.noHow, by decide, rfl⟩
  | some p =>
    dsimp only
    by_cases hleast : a.args.length < p.minInputs
    · rw [if_pos hleast]
      exact ⟨.notEnoughInputs, by decide, rfl⟩
    rw [if_neg hleast]
    by_cases hmost : p.maxInputs.any (· < a.args.length)
    · rw [if_pos hmost]
      exact ⟨.tooManyInputs, by decide, rfl⟩
    · exact absurd (.intro hprocedure hroom hp (not_lt.mp hleast) (by simpa using hmost)) (hnone _)

/-- A call with room for its frame gets it, or is answered with another error than that of calls
without room. -/
theorem opens_or_error {n : Nat} {r : Ref} {w' : World}
    (hprocedure : w.procedures.get? (w.heap.keyOf (w.heap.displayName a.call)) = some procedure)
    (hroom : w.frames.depth < w.settings.maxDepth)
    (h : runCalls (engine n) n pins n a w = .ok (r, w')) :
    (∃ m, (call pins a w).Opens m) ∨
      ∃ e, w'.heap.get r = .error e ∧ e.code ≠ .stackOverflow := by
  refine or_iff_not_imp_left.mpr fun hnone => ?_
  obtain ⟨n, rfl⟩ : ∃ k, n = k + 1 := by
    cases n with
    | zero => cases h
    | succ k => exact ⟨k, rfl⟩
  simp only [runCalls, Run.get_bind, hprocedure, if_neg (not_le.mpr hroom)] at h
  obtain ⟨code, hne, hinvoke⟩ :=
    invoke_eq_raise (engine (n + 1)) (n + 1) (.refs (a.node :: a.call :: procedure ::
      a.source.toList) :: pins) hprocedure hroom (not_exists.mp hnone)
  obtain ⟨r₁, w₁, e, hraise, hget, hcode⟩ := exists_raise code [a.call] w
  rw [Run.bind_of_ok (hinvoke.trans hraise), Run.heap_bind, hget] at h
  cases h
  exact ⟨e, hget, hcode ▸ hne⟩

/-- A call of a defined procedure is refused for want of room exactly if there is none. -/
theorem refused_iff
    (hprocedure : w.procedures.get? (w.heap.keyOf (w.heap.displayName a.call)) = some procedure)
    (hle : w.frames.depth ≤ w.settings.maxDepth) :
    (call pins a w).Refused .stackOverflow ↔ w.frames.depth = w.settings.maxDepth := by
  constructor
  · rintro ⟨hnone, r, w', e, ⟨n, hrun⟩, hget, hcode⟩
    by_contra hne
    rcases opens_or_error hprocedure (by omega) hrun with ⟨m, hopens⟩ | ⟨e', hget', hcode'⟩
    · exact hnone m (.inr hopens)
    · rw [hget] at hget'
      cases hget'
      exact hcode' hcode
  · intro heq
    refine ⟨?_, ?_⟩
    · rintro m (hstays | hopens)
      · cases hstays with
        | passes hpasses =>
          obtain ⟨_, _, _, _, ⟨_, _, _, hroom, _⟩, _, _⟩ := hpasses
          omega
      · cases hopens with
        | intro _ hroom => omega
    · obtain ⟨r, w', e, hraise, hget, hcode⟩ := exists_raise .stackOverflow [] w
      refine ⟨r, w', e, ⟨1, ?_⟩, hget, hcode⟩
      rw [← hraise]
      simp only [runCalls, Run.get_bind, hprocedure]
      rw [if_pos heq.ge]

end

/-- The activations of a chain of tail calls are called with the same frames. -/
theorem stays_of_chain {pins : Pins} {a last : Activation} {later : List Activation}
    {w w' : World} (h : Activation.Chain pins a w later last w') :
    Relation.ReflTransGen Stays (call pins a w) (call pins last w') := by
  induction h with
  | refl => exact .refl
  | head hpasses _ ih => exact ih.head (.passes hpasses)

end Moment

/-- **Calls nest as deep as the settings allow, and tail calls do not nest.** At every moment of a
run that starts at the top level there are at most as many frames as the settings allow, and when
the level of a moment is left there are as many as at that moment. All activations of a chain of
tail calls run one frame deeper than the call that started it is made. A call of a defined procedure
is refused for want of room, and nothing runs for it, exactly if it is made at the greatest
depth. -/
theorem depth_bounded {m₀ m : Moment} (hstart : m₀.Starts)
    (hnext : Relation.ReflTransGen Moment.Next m₀ m) :
    m.world.frames.depth ≤ m₀.world.settings.maxDepth ∧
    (∀ r w', m.Ends r w' → w'.frames.depth = m.world.frames.depth) ∧
    ∀ pins a w, m = .call pins a w →
      (∀ later last w₁ m₁ m₂, Activation.Chain pins a w later last w₁ →
        Moment.Opens (.call pins last w₁) m₁ → Relation.ReflTransGen Moment.Stays m₁ m₂ →
        m₂.world.frames.depth = w.frames.depth + 1) ∧
      ((w.procedures.get? (w.heap.keyOf (w.heap.displayName a.call))).isSome →
        (m.Refused .stackOverflow ↔ w.frames.depth = m₀.world.settings.maxDepth)) := by
  have hbounded := Moment.bounded_of_next hnext hstart.bounded
  refine ⟨hbounded.depth_le, fun r w' hends => hends.depth_eq hbounded.framed, ?_⟩
  rintro pins a w rfl
  refine ⟨fun later last w₁ m₁ m₂ hchain hopens hstays => ?_, fun hdefined => ?_⟩
  · have hcall := (Moment.level_of_stays (Moment.stays_of_chain hchain) trivial).2
    obtain ⟨hframed, hdeeper, -⟩ := hopens.deeper
    have hbody := (Moment.level_of_stays hstays hframed).2
    rw [hbody.depth, hdeeper]
    exact congrArg Nat.succ hcall.depth
  · obtain ⟨procedure, hprocedure⟩ := Option.isSome_iff_exists.mp hdefined
    have hlimit : w.settings.maxDepth = m₀.world.settings.maxDepth := hbounded.limit_eq
    rw [← hlimit]
    exact Moment.refused_iff hprocedure (hlimit ▸ hbounded.depth_le)

/-- The third activation of a chain runs in the only frame, and where calls may not nest at all the
first one is refused. -/
theorem Relay.depth_third :
    (∃ m, Moment.Opens (.call [] third afterSecond.2) m ∧ m.world.frames.depth = 1) ∧
    Moment.Refused .stackOverflow
      (.call [] first { world with settings := { maxDepth := 0 } }) := by
  have hright : (afterSecond.2.heap.procedure? ⟨16⟩).any
      (fun p => p.minInputs == 0 && !p.maxInputs.any (· < 0)) = true := by decide +kernel
  obtain ⟨p, hp⟩ : ∃ p, afterSecond.2.heap.procedure? ⟨16⟩ = some p :=
    Option.isSome_iff_exists.mp (by decide +kernel)
  rw [hp, Option.any_some, Bool.and_eq_true, beq_iff_eq, Bool.not_eq_true'] at hright
  have hopens : Moment.Opens (.call [] third afterSecond.2) _ :=
    .intro (by decide +kernel) (by decide +kernel) hp hright.1.le hright.2
  have hdepth := @depth_bounded (.call [] first world) _ rfl .refl
  have hrefused :=
    @depth_bounded (.call [] first { world with settings := { maxDepth := 0 } }) _ rfl .refl
  exact ⟨⟨_, hopens, (hdepth.2.2 _ _ _ rfl).1 _ _ _ _ _ chain_third hopens .refl⟩,
    ((hrefused.2.2 _ _ _ rfl).2 (by decide +kernel)).mpr rfl⟩

end LogoEngine
