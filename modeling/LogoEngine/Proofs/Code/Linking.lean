import LogoEngine.Code.Linked
import LogoEngine.Proofs.Code.Typing

/-!
# Linked code

A label is **located** at a position when the block there carries it. Linked code **follows** a
routine when it has the same registers, constants and instructions, block by block, and its
targets are positions where the labels are located.

Main statement: `Routine.exists_link`, a routine whose entry and targets exist links, by either
linker, to code that follows it.
-/

namespace LogoEngine

namespace Routine

variable (code : Routine)

/-- The block at a position carries a label. -/
def Locates (label : Label) (position : Nat) : Prop :=
  ∃ b, code.blocks[position]? = some b ∧ b.label = label

/-- A linked end of a block that means the same as an end with labels. -/
def ExitFollows : Exit → LinkedExit → Prop
  | .ret value, .ret value' => value' = value
  | .jump target, .jump position => code.Locates target position
  | .branch cond yes no, .branch cond' yes' no' =>
    cond' = cond ∧ code.Locates yes yes' ∧ code.Locates no no'
  | .unreachable, .unreachable => True
  | _, _ => False

/-- Linked code that means the same as a routine. -/
structure Follows (linked : Linked) : Prop where
  types : linked.types = code.types
  constants : linked.constants = code.constants
  entry : code.Locates code.entry linked.entry
  blocks : List.Forall₂ (fun b l => l.body = b.body ∧ code.ExitFollows b.exit l.exit)
    code.blocks linked.blocks.toList

/-! ### Positions of labels -/

private theorem of_lastPosition {label : Label} {start k : Nat} {bs : List Block}
    (h : lastPosition label start bs = some k) :
    start ≤ k ∧ ∃ b, bs[k - start]? = some b ∧ b.label = label := by
  induction bs generalizing start with
  | nil => simp [lastPosition] at h
  | cons b rest ih =>
    rw [lastPosition] at h
    split at h
    · next found hfound =>
      obtain rfl := Option.some.inj h
      obtain ⟨hle, b', hb', hl⟩ := ih hfound
      refine ⟨by omega, b', ?_, hl⟩
      rw [show found - start = (found - (start + 1)) + 1 by omega, List.getElem?_cons_succ]
      exact hb'
    · split at h
      · next hl =>
        obtain rfl := Option.some.inj h
        exact ⟨Nat.le_refl _, b, by simp, hl⟩
      · cases h

private theorem lastPosition_isSome {label : Label} (start : Nat) {bs : List Block}
    (h : label ∈ bs.map Block.label) : ∃ k, lastPosition label start bs = some k := by
  induction bs generalizing start with
  | nil => cases h
  | cons b rest ih =>
    rw [lastPosition]
    split
    · next found _ => exact ⟨found, rfl⟩
    · next hnone =>
      rcases List.mem_cons.mp h with rfl | h
      · exact ⟨start, by simp⟩
      · obtain ⟨k, hk⟩ := ih (start + 1) h
        rw [hnone] at hk
        cases hk

/-- A label that exists is resolved to a position where it is located. -/
theorem exists_resolve (failure : Label → String) {label : Label} (h : label ∈ code.labels) :
    ∃ k, code.resolve failure label = .ok k ∧ code.Locates label k := by
  obtain ⟨k, hk⟩ := lastPosition_isSome 0 h
  obtain ⟨-, b, hb, hl⟩ := of_lastPosition hk
  exact ⟨k, by rw [resolve, hk], b, by simpa using hb, hl⟩

/-! ### Linking -/

private theorem exists_linkExit (failure : Label → String) {exit : Exit}
    (h : ∀ t ∈ exit.targets, t ∈ code.labels) :
    ∃ l, linkExit (code.resolve failure) exit = .ok l ∧ code.ExitFollows exit l := by
  cases exit with
  | ret value => exact ⟨.ret value, rfl, rfl⟩
  | jump target =>
    obtain ⟨k, hk, hloc⟩ := code.exists_resolve failure (h target (by simp [Exit.targets]))
    exact ⟨.jump k, by simp [linkExit, hk, bind, Except.bind, pure, Except.pure], hloc⟩
  | branch cond yes no =>
    obtain ⟨k, hk, hloc⟩ := code.exists_resolve failure (h yes (by simp [Exit.targets]))
    obtain ⟨m, hm, hloc'⟩ := code.exists_resolve failure (h no (by simp [Exit.targets]))
    exact ⟨.branch cond k m, by simp [linkExit, hk, hm, bind, Except.bind, pure, Except.pure],
      rfl, hloc, hloc'⟩
  | unreachable => exact ⟨.unreachable, rfl, trivial⟩

private theorem exists_linkBlocks (failure : Label → String) {bs : List Block}
    (h : ∀ b ∈ bs, ∀ t ∈ b.exit.targets, t ∈ code.labels) :
    ∃ ls, linkBlocks (code.resolve failure) bs = .ok ls ∧
      List.Forall₂ (fun b l => l.body = b.body ∧ code.ExitFollows b.exit l.exit) bs ls := by
  induction bs with
  | nil => exact ⟨[], rfl, .nil⟩
  | cons b rest ih =>
    obtain ⟨l, hl, hfollows⟩ := code.exists_linkExit failure (h b List.mem_cons_self)
    obtain ⟨ls, hls, hrest⟩ := ih fun b' hb' => h b' (List.mem_cons_of_mem _ hb')
    exact ⟨⟨b.body, l⟩ :: ls, by simp [linkBlocks, hl, hls, bind, Except.bind, pure, Except.pure],
      .cons ⟨rfl, hfollows⟩ hrest⟩

/-- **Linking succeeds** on a routine whose entry and targets exist, by either linker. -/
theorem exists_link (backend : Backend) (hentry : code.entry ∈ code.labels)
    (htargets : ∀ b ∈ code.blocks, ∀ t ∈ b.exit.targets, t ∈ code.labels) :
    ∃ linked, code.link backend = .ok linked ∧ code.Follows linked := by
  obtain ⟨k, hk, hloc⟩ := code.exists_resolve (code.missingEntryText backend) hentry
  obtain ⟨ls, hls, hblocks⟩ := code.exists_linkBlocks (code.missingTargetText backend) htargets
  refine ⟨⟨code.name, ls.toArray, k, code.types, code.constants⟩, ?_,
    rfl, rfl, hloc, by simpa using hblocks⟩
  cases backend <;> simp [link, hk, hls, bind, Except.bind, pure, Except.pure]

/-! ### What linking gives -/

private theorem locates_of_resolve {failure : Label → String} {label : Label} {k : Nat}
    (h : code.resolve failure label = .ok k) : code.Locates label k := by
  unfold resolve at h
  split at h
  · next found hfound =>
    cases h
    obtain ⟨-, b, hb, hl⟩ := of_lastPosition hfound
    exact ⟨b, by simpa using hb, hl⟩
  · cases h

private theorem exitFollows_of_linkExit {failure : Label → String} {exit : Exit} {l : LinkedExit}
    (h : linkExit (code.resolve failure) exit = .ok l) : code.ExitFollows exit l := by
  cases exit with
  | ret value =>
    cases h
    rfl
  | jump target =>
    obtain ⟨k, hk, hrest⟩ := bind_eq_ok_iff.mp h
    cases hrest
    exact code.locates_of_resolve hk
  | branch cond yes no =>
    obtain ⟨k, hk, hrest⟩ := bind_eq_ok_iff.mp h
    obtain ⟨m, hm, hrest⟩ := bind_eq_ok_iff.mp hrest
    cases hrest
    exact ⟨rfl, code.locates_of_resolve hk, code.locates_of_resolve hm⟩
  | unreachable =>
    cases h
    trivial

private theorem follows_of_linkBlocks {failure : Label → String} {bs : List Block}
    {ls : List LinkedBlock} (h : linkBlocks (code.resolve failure) bs = .ok ls) :
    List.Forall₂ (fun b l => l.body = b.body ∧ code.ExitFollows b.exit l.exit) bs ls := by
  induction bs generalizing ls with
  | nil =>
    cases h
    exact .nil
  | cons b rest ih =>
    obtain ⟨l, hl, hrest⟩ := bind_eq_ok_iff.mp h
    obtain ⟨ls, hls, hrest⟩ := bind_eq_ok_iff.mp hrest
    cases hrest
    exact .cons ⟨rfl, code.exitFollows_of_linkExit hl⟩ (ih hls)

/-- Whatever a routine links to follows it. -/
theorem follows_of_link {backend : Backend} {linked : Linked} (h : code.link backend = .ok linked) :
    code.Follows linked := by
  have hparts : ∃ k ls, code.resolve (code.missingEntryText backend) code.entry = .ok k ∧
      linkBlocks (code.resolve (code.missingTargetText backend)) code.blocks = .ok ls ∧
      linked = ⟨code.name, ls.toArray, k, code.types, code.constants⟩ := by
    cases backend with
    | machine =>
      obtain ⟨ls, hls, hrest⟩ := bind_eq_ok_iff.mp h
      obtain ⟨k, hk, hrest⟩ := bind_eq_ok_iff.mp hrest
      cases hrest
      exact ⟨k, ls, hk, hls, rfl⟩
    | native =>
      obtain ⟨k, hk, hrest⟩ := bind_eq_ok_iff.mp h
      obtain ⟨ls, hls, hrest⟩ := bind_eq_ok_iff.mp hrest
      cases hrest
      exact ⟨k, ls, hk, hls, rfl⟩
  obtain ⟨k, ls, hk, hls, rfl⟩ := hparts
  exact ⟨rfl, rfl, code.locates_of_resolve hk, by simpa using code.follows_of_linkBlocks hls⟩

/-- The targets of a typed end exist. -/
theorem mem_labels_of_typed {types : Array Ty} {labels : List Label} {exit : Exit}
    (h : exit.Typed types labels) : ∀ t ∈ exit.targets, t ∈ labels := by
  cases exit with
  | ret _ | unreachable => simp [Exit.targets]
  | jump target => simpa [Exit.targets, Exit.Typed] using h
  | branch cond yes no =>
    obtain ⟨-, hyes, hno⟩ := h
    simp [Exit.targets, hyes, hno]

end Routine

end LogoEngine
