import LogoEngine.Emit.Ask
import LogoEngine.Emit.Flow
import LogoEngine.Emit.Number
import Mathlib.Data.List.Forall2

/-!
# The same code in another place

An emitter looks at a draft only to number its registers, labels and constants. So what it adds to
a draft is what it makes of the empty draft, **moved**: registers and labels come after those of the
draft it starts from, which is called the base, and the start of the routine becomes the place where
the base stands.

`Draft.MovedTo base d d'` says that `d'` is the base with the code of `d` moved behind it, and
`Emit.Moves base m m'` that two emitters keep drafts in this relation. Arguments and results are
related by `Moved`.

Main statement: every emitter has an instance of `Emit.Moves`, with its arguments moved.
-/

namespace LogoEngine

/-! ### Moved arguments -/

/-- Things that code can be made of and that change when it is moved. -/
class Movable (α : Type) where
  moved : Draft → α → α → Prop

/-- The second is the first, moved behind the base. -/
class Moved {α : Type} [Movable α] (base : Draft) (a a' : α) : Prop where
  moved : Movable.moved base a a'

section

variable {base : Draft} {α β : Type} [Movable α] [Movable β]

instance : Movable Unit := ⟨fun _ _ _ => True⟩
instance : Movable Ty := ⟨fun _ => Eq⟩
instance : Movable Reg := ⟨fun base r r' => r'.index = base.types.size + r.index⟩

/-- The label of the start does not move like other labels, and no code leads to it. -/
instance : Movable Label := ⟨fun base l l' => 1 ≤ l.index ∧ l'.index + 1 = base.nextLabel + l.index⟩

instance : Movable (List α) := ⟨fun base => List.Forall₂ (Moved base)⟩

instance : Movable (Option α) := ⟨fun base => Option.Rel (Moved base)⟩

instance : Movable (α × β) := ⟨fun base p p' => Moved base p.1 p'.1 ∧ Moved base p.2 p'.2⟩

instance : Moved base () () := ⟨trivial⟩
instance (ty : Ty) : Moved base ty ty := ⟨rfl⟩
instance : Moved base ([] : List α) [] := ⟨.nil⟩
instance {a a' : α} {as as' : List α} [h : Moved base a a'] [hs : Moved base as as'] :
    Moved base (a :: as) (a' :: as') := ⟨.cons h hs.moved⟩
instance : Moved base (none : Option α) none := ⟨.none⟩
instance {a a' : α} [h : Moved base a a'] : Moved base (some a) (some a') := ⟨.some h⟩
instance {a a' : α} {b b' : β} [h : Moved base a a'] [h' : Moved base b b'] :
    Moved base (a, b) (a', b') := ⟨⟨h, h'⟩⟩
instance {as as' : List α} [h : Moved base as as'] : Moved base as.head? as'.head? := by
  cases h.moved <;> simp only [List.head?] <;> infer_instance

theorem Moved.list {as as' : List α} (h : List.Forall₂ (Moved base) as as') : Moved base as as' :=
  ⟨h⟩

/-- Ends of blocks, with their registers and labels moved. -/
inductive Exit.MovedTo (base : Draft) : Exit → Exit → Prop
  | ret {r r' : Reg} (hr : Moved base r r') : MovedTo base (.ret r) (.ret r')
  | jump {l l' : Label} (hl : Moved base l l') : MovedTo base (.jump l) (.jump l')
  | branch {r r' : Reg} {yes yes' no no' : Label} (hr : Moved base r r')
      (hyes : Moved base yes yes') (hno : Moved base no no') :
      MovedTo base (.branch r yes no) (.branch r' yes' no')

instance : Movable Exit := ⟨Exit.MovedTo⟩

instance {r r' : Reg} [h : Moved base r r'] : Moved base (Exit.ret r) (.ret r') := ⟨.ret h⟩
instance {l l' : Label} [h : Moved base l l'] : Moved base (Exit.jump l) (.jump l') := ⟨.jump h⟩
instance {r r' : Reg} {yes yes' no no' : Label} [h : Moved base r r'] [hyes : Moved base yes yes']
    [hno : Moved base no no'] : Moved base (Exit.branch r yes no) (.branch r' yes' no') :=
  ⟨.branch h hyes hno⟩

/-- Instructions with their registers moved, and loading the same constants. -/
inductive Instr.MovedTo (base : Draft) (constants constants' : Array Ref) : Instr → Instr → Prop
  | real {dst dst' : Reg} (x : Float) (h : Moved base dst dst') :
      MovedTo base constants constants' (.real dst x) (.real dst' x)
  | truth {dst dst' : Reg} (b : Bool) (h : Moved base dst dst') :
      MovedTo base constants constants' (.truth dst b) (.truth dst' b)
  | const {dst dst' : Reg} {slot slot' : Nat} {c : Ref} (h : Moved base dst dst')
      (hslot : constants[slot]? = some c) (hslot' : constants'[slot']? = some c) :
      MovedTo base constants constants' (.const dst slot) (.const dst' slot')
  | arith {dst dst' a a' b b' : Reg} (op : ArithOp) (h : Moved base dst dst')
      (ha : Moved base a a') (hb : Moved base b b') :
      MovedTo base constants constants' (.arith dst op a b) (.arith dst' op a' b')
  | neg {dst dst' a a' : Reg} (h : Moved base dst dst') (ha : Moved base a a') :
      MovedTo base constants constants' (.neg dst a) (.neg dst' a')
  | compare {dst dst' a a' b b' : Reg} (op : CompareOp) (h : Moved base dst dst')
      (ha : Moved base a a') (hb : Moved base b b') :
      MovedTo base constants constants' (.compare dst op a b) (.compare dst' op a' b')
  | isInt {dst dst' a a' : Reg} (h : Moved base dst dst') (ha : Moved base a a') :
      MovedTo base constants constants' (.isInt dst a) (.isInt dst' a')
  | not {dst dst' a a' : Reg} (h : Moved base dst dst') (ha : Moved base a a') :
      MovedTo base constants constants' (.not dst a) (.not dst' a')
  | and {dst dst' a a' b b' : Reg} (h : Moved base dst dst') (ha : Moved base a a')
      (hb : Moved base b b') :
      MovedTo base constants constants' (.and dst a b) (.and dst' a' b')
  | move {dst dst' a a' : Reg} (h : Moved base dst dst') (ha : Moved base a a') :
      MovedTo base constants constants' (.move dst a) (.move dst' a')
  | call {dst dst' : Option Reg} {args args' : List Reg} (helper : Helper)
      (h : Moved base dst dst') (hargs : Moved base args args') :
      MovedTo base constants constants' (.call dst helper args) (.call dst' helper args')

/-- Constants that are added change nothing for the instructions that exist. -/
theorem Instr.MovedTo.mono {constants constants' more more' : Array Ref} {i i' : Instr}
    (h : i.MovedTo base constants constants' i') (hmore : constants.toList <+: more.toList)
    (hmore' : constants'.toList <+: more'.toList) : i.MovedTo base more more' i' := by
  have hget : ∀ {xs ys : Array Ref} {slot : Nat} {c : Ref}, xs.toList <+: ys.toList →
      xs[slot]? = some c → ys[slot]? = some c := by
    rintro xs ys slot c ⟨rest, hrest⟩ hc
    have hlt := (Array.getElem?_eq_some_iff.mp hc).1
    rw [← Array.getElem?_toList, ← hrest, List.getElem?_append_left (by simpa using hlt),
      Array.getElem?_toList, hc]
  cases h with
  | const h hslot hslot' => exact .const h (hget hmore hslot) (hget hmore' hslot')
  | real x h => exact .real x h
  | truth b h => exact .truth b h
  | arith op h ha hb => exact .arith op h ha hb
  | neg h ha => exact .neg h ha
  | compare op h ha hb => exact .compare op h ha hb
  | isInt h ha => exact .isInt h ha
  | not h ha => exact .not h ha
  | and h ha hb => exact .and h ha hb
  | move h ha => exact .move h ha
  | call helper h hargs => exact .call helper h hargs

/-! ### Moved drafts -/

/-- Where the block of a label stands in moved code: the start of the routine becomes the open block
of the base. -/
def Label.PlacedAt (base : Draft) (l l' : Label) : Prop :=
  (l.index = 0 ∧ l' = base.label) ∨ Moved base l l'

/-- The instructions that stand before the code of a label. -/
def Draft.before (base : Draft) (l : Label) : List Instr :=
  if l.index = 0 then base.body.toList else []

/-- Instructions of a block, moved behind what stands before them. -/
structure BodyMovedTo (base : Draft) (constants constants' : Array Ref) (l l' : Label)
    (body body' : List Instr) : Prop where
  label : l.PlacedAt base l'
  instrs : ∃ tail, body' = base.before l ++ tail ∧
    List.Forall₂ (Instr.MovedTo base constants constants') body tail

/-- A draft is the base with the code of another draft moved behind it. -/
structure Draft.MovedTo (base d d' : Draft) : Prop where
  types : d'.types.toList = base.types.toList ++ d.types.toList
  /-- The moved code has no labels for `GOTO`. -/
  tags : d'.tags = base.tags
  positive : 1 ≤ d.nextLabel
  labels : d'.nextLabel + 1 = base.nextLabel + d.nextLabel
  constants : ∀ c ∈ d.constants, c ∈ d'.constants
  opened : BodyMovedTo base d.constants d'.constants d.label d'.label d.body.toList d'.body.toList
  blocks : ∃ tail, d'.blocks.toList = base.blocks.toList ++ tail ∧
    List.Forall₂ (fun b b' => BodyMovedTo base d.constants d'.constants b.label b'.label b.body
      b'.body ∧ b.exit.MovedTo base b'.exit) d.blocks.toList tail

theorem BodyMovedTo.mono {constants constants' more more' : Array Ref} {l l' : Label}
    {body body' : List Instr} (h : BodyMovedTo base constants constants' l l' body body')
    (hmore : constants.toList <+: more.toList) (hmore' : constants'.toList <+: more'.toList) :
    BodyMovedTo base more more' l l' body body' := by
  obtain ⟨tail, htail, hinstrs⟩ := h.instrs
  exact ⟨h.label, tail, htail, hinstrs.imp fun _ _ hi => hi.mono hmore hmore'⟩

theorem BodyMovedTo.push {constants constants' : Array Ref} {l l' : Label}
    {body body' : List Instr} {i i' : Instr} (h : BodyMovedTo base constants constants' l l' body body')
    (hi : i.MovedTo base constants constants' i') :
    BodyMovedTo base constants constants' l l' (body ++ [i]) (body' ++ [i']) := by
  obtain ⟨tail, rfl, hinstrs⟩ := h.instrs
  refine ⟨h.label, tail ++ [i'], List.append_assoc _ _ _, ?_⟩
  exact List.rel_append hinstrs (.cons hi .nil)

theorem Draft.MovedTo.types_size {d d' : Draft} (h : base.MovedTo d d') :
    d'.types.size = base.types.size + d.types.size := by
  have := congrArg List.length h.types
  simpa using this

/-- The empty draft, moved, is the base. -/
theorem Draft.movedTo_empty (base : Draft) (tags : List (String × LabelTarget)) :
    base.MovedTo { tags } base where
  types := by simp
  tags := rfl
  positive := Nat.le_refl _
  labels := rfl
  constants := by simp
  opened := ⟨.inl ⟨rfl, rfl⟩, [], by simp [Draft.before], .nil⟩
  blocks := ⟨[], by simp, .nil⟩

/-- Constants that are added keep the code related. -/
theorem Draft.MovedTo.addConstants {d d' : Draft} (h : base.MovedTo d d')
    {more more' : Array Ref} (hmore : d.constants.toList <+: more.toList)
    (hmore' : d'.constants.toList <+: more'.toList) (hsub : ∀ c ∈ more, c ∈ more') :
    base.MovedTo { d with constants := more } { d' with constants := more' } := by
  obtain ⟨tail, htail, hblocks⟩ := h.blocks
  refine ⟨h.types, h.tags, h.positive, h.labels, hsub, h.opened.mono hmore hmore', tail, htail, ?_⟩
  exact hblocks.imp fun _ _ hb => ⟨hb.1.mono hmore hmore', hb.2⟩

/-! ### Moved emitters -/

/-- Two emitters that keep drafts related, with results that are related. -/
class Emit.Moves {α : Type} [Movable α] (base : Draft) (m m' : Emit α) : Prop where
  moves : ∀ {d d' : Draft}, base.MovedTo d d' →
    Moved base (m d).1 (m' d').1 ∧ base.MovedTo (m d).2 (m' d').2

namespace Emit

/-- One piece of code after the other. -/
theorem Moves.bind {m m' : Emit α} {f f' : α → Emit β} (hm : Moves base m m')
    (hf : ∀ a a', Moved base a a' → Moves base (f a) (f' a')) : Moves base (m >>= f) (m' >>= f') := by
  refine ⟨fun {d d'} h => ?_⟩
  obtain ⟨ha, h'⟩ := hm.moves h
  exact (hf _ _ ha).moves h'

instance {a a' : α} [h : Moved base a a'] : Moves base (pure a) (pure a') := ⟨fun hd => ⟨h, hd⟩⟩

instance {c : Prop} [Decidable c] {m m' n n' : Emit α} [Moves base m m'] [Moves base n n'] :
    Moves base (if c then m else n) (if c then m' else n') := by
  split <;> infer_instance

instance (ty : Ty) : Moves base (freshReg ty) (freshReg ty) := by
  refine ⟨fun {d d'} h => ⟨⟨h.types_size⟩, ?_⟩⟩
  refine ⟨?_, h.tags, h.positive, h.labels, h.constants, h.opened, h.blocks⟩
  simp [freshReg, h.types]

instance : Moves base freshLabel freshLabel := by
  refine ⟨fun {d d'} h => ⟨⟨h.positive, h.labels⟩, ?_⟩⟩
  refine ⟨h.types, h.tags, Nat.le_add_left 1 _, ?_, h.constants, h.opened, h.blocks⟩
  have := h.labels
  simp only [freshLabel]
  omega

instance {r r' : Reg} [hr : Moved base r r'] : Moves base (typeOf r) (typeOf r') := by
  refine ⟨fun {d d'} h => ⟨⟨?_⟩, h⟩⟩
  show d.types.getD r.index .datum = d'.types.getD r'.index .datum
  rw [show r'.index = base.types.size + r.index from hr.moved, Array.getD_eq_getD_getElem?,
    Array.getD_eq_getD_getElem?, ← Array.getElem?_toList, ← Array.getElem?_toList, h.types,
    List.getElem?_append_right (by simp)]
  simp

/-- An instruction that loads no constant. -/
theorem moves_instr {i i' : Instr}
    (hi : ∀ constants constants', i.MovedTo base constants constants' i') :
    Moves base (instr i) (instr i') := by
  refine ⟨fun {d d'} h => ⟨⟨trivial⟩, ?_⟩⟩
  refine ⟨h.types, h.tags, h.positive, h.labels, h.constants, ?_, h.blocks⟩
  have hopened := h.opened.push (hi d.constants d'.constants)
  rw [← Array.toList_push, ← Array.toList_push] at hopened
  exact hopened

instance {exit exit' : Exit} {next next' : Label} [hexit : Moved base exit exit']
    [hnext : Moved base next next'] : Moves base (endBlock exit next) (endBlock exit' next') := by
  refine ⟨fun {d d'} h => ⟨⟨trivial⟩, ?_⟩⟩
  obtain ⟨tail, htail, hblocks⟩ := h.blocks
  have hpositive : next.index ≠ 0 := by
    have := hnext.moved.1
    omega
  refine ⟨h.types, h.tags, h.positive, h.labels, h.constants, ?_,
    tail ++ [⟨d'.label, d'.body.toList, exit'⟩], ?_, ?_⟩
  · have hempty : BodyMovedTo base d.constants d'.constants next next' [] [] :=
      ⟨.inr hnext, [], by simp [Draft.before, hpositive], .nil⟩
    exact hempty
  · show (d'.blocks.push _).toList = _
    rw [Array.toList_push, htail, List.append_assoc]
  · show List.Forall₂ _ (d.blocks.push _).toList _
    rw [Array.toList_push]
    exact List.rel_append hblocks (.cons ⟨h.opened, hexit.moved⟩ .nil)

theorem slot_cases (c : Ref) (d : Draft) :
    ∃ constants : Array Ref, (slot c d).2 = { d with constants } ∧
      d.constants.toList <+: constants.toList ∧ constants[(slot c d).1]? = some c ∧
      ∀ c' ∈ constants, c' ∈ d.constants ∨ c' = c := by
  unfold slot
  split
  · next index hindex =>
    obtain ⟨hlt, heq, -⟩ := Array.findIdx?_eq_some_iff_getElem.mp hindex
    exact ⟨d.constants, rfl, List.prefix_rfl,
      Array.getElem?_eq_some_iff.mpr ⟨hlt, by simpa using heq⟩, fun _ => .inl⟩
  · refine ⟨d.constants.push c, rfl, by simp, by simp, ?_⟩
    intro c' hc'
    exact Array.mem_push.mp hc'

instance (c : Ref) : Moves base (const c) (const c) := by
  refine ⟨fun {d d'} h => ?_⟩
  obtain ⟨constants, hslot, hmore, hget, hold⟩ := slot_cases c d
  obtain ⟨constants', hslot', hmore', hget', -⟩ := slot_cases c d'
  have hadded : base.MovedTo { d with constants } { d' with constants := constants' } := by
    refine h.addConstants hmore hmore' fun c' hc' => ?_
    rcases hold c' hc' with hc' | rfl
    · have hmem := h.constants c' hc'
      exact Array.mem_toList_iff.mp (hmore'.subset (Array.mem_toList_iff.mpr hmem))
    · exact Array.mem_iff_getElem?.mpr ⟨_, hget'⟩
  obtain ⟨hdst, hreg⟩ := (inferInstance : Moves base (freshReg .datum) (freshReg .datum)).moves
    hadded
  have hconst : (const c d) = ((freshReg .datum { d with constants }).1,
      (instr (.const (freshReg .datum { d with constants }).1 (slot c d).1)
        (freshReg .datum { d with constants }).2).2) := by
    rw [← hslot]
    rfl
  have hconst' : (const c d') = ((freshReg .datum { d' with constants := constants' }).1,
      (instr (.const (freshReg .datum { d' with constants := constants' }).1 (slot c d').1)
        (freshReg .datum { d' with constants := constants' }).2).2) := by
    rw [← hslot']
    rfl
  rw [hconst, hconst']
  refine ⟨hdst, hreg.types, hreg.tags, hreg.positive, hreg.labels, hreg.constants, ?_, hreg.blocks⟩
  have hopened := hreg.opened.push (.const hdst hget hget')
  rw [← Array.toList_push, ← Array.toList_push] at hopened
  exact hopened

/-! ### Repetition -/

section

variable {f f' : α → Emit β} {g g' : β → α → Emit β}

theorem moves_foldlM (hg : ∀ b b' a a', Moved base b b' → Moved base a a' →
    Moves base (g b a) (g' b' a')) {as as' : List α} (has : List.Forall₂ (Moved base) as as')
    {b b' : β} (hb : Moved base b b') : Moves base (as.foldlM g b) (as'.foldlM g' b') := by
  induction has generalizing b b' with
  | nil => rw [List.foldlM_nil, List.foldlM_nil]; infer_instance
  | cons ha _ ih =>
    rw [List.foldlM_cons, List.foldlM_cons]
    exact .bind (hg _ _ _ _ hb ha) fun _ _ hb => ih hb

theorem moves_mapM (hf : ∀ a a', Moved base a a' → Moves base (f a) (f' a')) {as as' : List α}
    (has : List.Forall₂ (Moved base) as as') : Moves base (as.mapM f) (as'.mapM f') := by
  induction has with
  | nil => rw [List.mapM_nil, List.mapM_nil]; infer_instance
  | cons ha _ ih =>
    rw [List.mapM_cons, List.mapM_cons]
    exact .bind (hf _ _ ha) fun _ _ _ => .bind ih fun _ _ _ => inferInstance

theorem moves_mapM_option (hf : ∀ a a', Moved base a a' → Moves base (f a) (f' a'))
    {o o' : Option α} (ho : Option.Rel (Moved base) o o') :
    Moves base (o.mapM f) (o'.mapM f') := by
  cases ho with
  | none => rw [Option.mapM_none, Option.mapM_none]; infer_instance
  | some ha =>
    rw [Option.mapM_some, Option.mapM_some, map_eq_pure_bind, map_eq_pure_bind]
    exact .bind (hf _ _ ha) fun _ _ _ => inferInstance

end

end Emit

end

namespace Emit

variable {base : Draft}

/-! ### Instructions and ways out -/

section

variable {a a' b b' dst dst' : Reg} [ha : Moved base a a'] [hb : Moved base b b']
  [hdst : Moved base dst dst']

/-- An instruction that leaves its result in a new register. -/
private theorem moves_load {ty : Ty} {i i' : Reg → Instr}
    (hi : ∀ r r', Moved base r r' → ∀ constants constants',
      (i r).MovedTo base constants constants' (i' r')) :
    Moves base (do let dst ← freshReg ty; instr (i dst); return dst)
      (do let dst ← freshReg ty; instr (i' dst); return dst) :=
  .bind inferInstance fun r r' hr => .bind (moves_instr (hi r r' hr)) fun _ _ _ => inferInstance

instance (x : Float) : Moves base (real x) (real x) := moves_load fun _ _ h _ _ => .real x h
instance (x : Bool) : Moves base (truth x) (truth x) := moves_load fun _ _ h _ _ => .truth x h
instance : Moves base nothing nothing := by unfold nothing; infer_instance
instance : Moves base (move dst a) (move dst' a') := moves_instr fun _ _ => .move hdst ha
instance (op : ArithOp) : Moves base (arith op a b) (arith op a' b') :=
  moves_load fun _ _ h _ _ => .arith op h ha hb
instance (op : CompareOp) : Moves base (compare op a b) (compare op a' b') :=
  moves_load fun _ _ h _ _ => .compare op h ha hb
instance : Moves base (isInt a) (isInt a') := moves_load fun _ _ h _ _ => .isInt h ha
instance : Moves base (not a) (not a') := moves_load fun _ _ h _ _ => .not h ha
instance : Moves base (and a b) (and a' b') := moves_load fun _ _ h _ _ => .and h ha hb
instance : Moves base (negate a) (negate a') := moves_load fun _ _ h _ _ => .neg h ha

instance (helper : Helper) {rs rs' : List Reg} [hrs : Moved base rs rs'] :
    Moves base (call helper rs) (call helper rs') :=
  moves_load fun _ _ h _ _ => .call helper ⟨.some h⟩ hrs
instance (helper : Helper) {rs rs' : List Reg} [hrs : Moved base rs rs'] :
    Moves base (perform helper rs) (perform helper rs') :=
  moves_instr fun _ _ => .call helper inferInstance hrs

instance : Moves base (returnNow a) (returnNow a') := by
  unfold returnNow
  exact .bind inferInstance fun _ _ _ => inferInstance

instance {build build' : Emit Reg} [hbuild : Moves base build build'] :
    Moves base (returnWhen a build) (returnWhen a' build') := by
  unfold returnWhen
  repeat' first | infer_instance | refine .bind ?_ fun _ _ _ => ?_

instance : Moves base (passToken a) (passToken a') := by
  unfold passToken
  exact .bind inferInstance fun _ _ _ => inferInstance

instance (mask : Nat) : Moves base (whenKind mask a) (whenKind mask a') := by
  unfold whenKind
  repeat' first | infer_instance | refine .bind ?_ fun _ _ _ => ?_

instance {target target' next next' : Label} [Moved base target target'] [Moved base next next'] :
    Moves base (deliver dst a target next) (deliver dst' a' target' next') := by
  unfold deliver
  exact .bind inferInstance fun _ _ _ => inferInstance

end

/-! ### Checked inputs and casts -/

section

variable (who : Ref) (request produced : Request) {src src' : Reg} [hsrc : Moved base src src']

instance : Moves base (dislike who src) (dislike who src') := by
  unfold dislike
  exact .bind inferInstance fun _ _ _ => inferInstance

section

variable {l₁ l₁' l₂ l₂' l₃ l₃' : Label} [Moved base l₁ l₁'] [Moved base l₂ l₂'] [Moved base l₃ l₃']

instance : Moves base (reject who src l₁) (reject who src' l₁') := by
  unfold reject
  exact .bind inferInstance fun _ _ _ => inferInstance
instance : Moves base (askOrGiveUp l₁ l₂) (askOrGiveUp l₁' l₂') := by
  unfold askOrGiveUp
  exact .bind inferInstance fun _ _ _ => inferInstance
instance : Moves base (askAgain who src) (askAgain who src') := by
  unfold askAgain
  exact .bind inferInstance fun _ _ _ => .bind inferInstance fun _ _ _ => inferInstance
instance : Moves base (branchOnData src l₁ l₂ l₃) (branchOnData src' l₁' l₂' l₃') := by
  unfold branchOnData
  exact .bind inferInstance fun _ _ _ => inferInstance

end

theorem Moves.retryDatum {check check' : Reg → Emit Reg}
    (hcheck : ∀ r r', Moved base r r' → Moves base (check r) (check' r')) :
    Moves base (retryDatum who src check) (retryDatum who src' check') := by
  unfold Emit.retryDatum
  repeat' first | infer_instance | exact hcheck _ _ inferInstance | refine .bind ?_ fun _ _ _ => ?_

theorem Moves.retryReal {check check' : Reg → Emit Reg}
    (hcheck : ∀ r r', Moved base r r' → Moves base (check r) (check' r')) :
    Moves base (retryReal who src check) (retryReal who src' check') := by
  unfold Emit.retryReal
  repeat' first | infer_instance | exact hcheck _ _ inferInstance | refine .bind ?_ fun _ _ _ => ?_

instance : Moves base (realFromDatum who src) (realFromDatum who src') := by
  unfold realFromDatum
  refine .bind inferInstance fun _ _ _ => .bind (.retryDatum who fun _ _ _ => ?_) fun _ _ _ =>
    inferInstance
  repeat' first | infer_instance | refine .bind ?_ fun _ _ _ => ?_
instance : Moves base (truthFromDatum who src) (truthFromDatum who src') := by
  unfold truthFromDatum
  refine .bind inferInstance fun _ _ _ => .bind (.retryDatum who fun _ _ _ => ?_) fun _ _ _ =>
    inferInstance
  repeat' first | infer_instance | refine .bind ?_ fun _ _ _ => ?_
instance (mask : Nat) : Moves base (datumOfKind who mask src) (datumOfKind who mask src') := by
  unfold datumOfKind
  exact .retryDatum who fun _ _ _ => inferInstance
instance : Moves base (int32 who src) (int32 who src') := by
  unfold int32
  exact .retryReal who fun _ _ _ => inferInstance
instance (op : CompareOp) : Moves base (comparedToZero op who src) (comparedToZero op who src') := by
  unfold comparedToZero
  exact .retryReal who fun _ _ _ => .bind inferInstance fun _ _ _ => inferInstance
instance : Moves base (nonzeroInt32 who src) (nonzeroInt32 who src') := by
  unfold nonzeroInt32
  refine .retryReal who fun _ _ _ => ?_
  repeat' first | infer_instance | refine .bind ?_ fun _ _ _ => ?_
instance : Moves base (positiveInt32 who src) (positiveInt32 who src') := by
  unfold positiveInt32
  refine .retryReal who fun _ _ _ => ?_
  repeat' first | infer_instance | refine .bind ?_ fun _ _ _ => ?_
instance : Moves base (count who src) (count who src') := by
  unfold count
  refine .retryReal who fun _ _ _ => ?_
  repeat' first | infer_instance | refine .bind ?_ fun _ _ _ => ?_

instance : Moves base (requireValue who src) (requireValue who src') := by
  unfold requireValue
  repeat' first | infer_instance | refine .bind ?_ fun _ _ _ => ?_
instance : Moves base (nativeFromDatum who src request) (nativeFromDatum who src' request) := by
  unfold nativeFromDatum; infer_instance
instance : Moves base (placeholder request) (placeholder request) := by
  unfold placeholder; infer_instance
instance : Moves base (requireNothing src) (requireNothing src') := by
  unfold requireNothing
  repeat' first | infer_instance | refine .bind ?_ fun _ _ _ => ?_
instance : Moves base (castBoxed src who request) (castBoxed src' who request) := by
  unfold castBoxed
  repeat' first | infer_instance | refine .bind ?_ fun _ _ _ => ?_ | split
instance : Moves base (castDatum src who produced request)
    (castDatum src' who produced request) := by
  unfold castDatum
  repeat' first | infer_instance | refine .bind ?_ fun _ _ _ => ?_ | split
instance : Moves base (cast src who produced request) (cast src' who produced request) := by
  unfold cast
  refine .bind inferInstance fun ty ty' hty => ?_
  obtain rfl : ty = ty' := hty.moved
  cases ty <;> dsimp only <;>
    repeat' first | infer_instance | refine .bind ?_ fun _ _ _ => ?_ | split

end

/-! ### Arithmetic -/

section

variable (who node : Ref) {a a' b b' c c' : Reg} {rs rs' : List Reg} [ha : Moved base a a']
  [hb : Moved base b b'] [hc : Moved base c c'] [hrs : Moved base rs rs']

theorem Moves.fold {step step' : Reg → Reg → Emit Reg} (identity : Float)
    (hstep : ∀ a a' b b', Moved base a a' → Moved base b b' → Moves base (step a b) (step' a' b'))
    (hlist : List.Forall₂ (Moved base) rs rs') :
    Moves base (fold step identity rs) (fold step' identity rs') := by
  cases hlist with
  | nil => unfold Emit.fold; infer_instance
  | cons hr hrest => exact moves_foldlM hstep hrest hr

instance (op : ArithOp) (identity : Float) :
    Moves base (fold (arith op) identity rs) (fold (arith op) identity rs') :=
  .fold identity (fun _ _ _ _ _ _ => inferInstance) hrs.moved
instance : Moves base (reciprocal who a) (reciprocal who a') := by
  unfold reciprocal
  repeat' first | infer_instance | refine .bind ?_ fun _ _ _ => ?_
instance : Moves base (quotient who a b) (quotient who a' b') := by
  unfold quotient
  repeat' first | infer_instance | refine .bind ?_ fun _ _ _ => ?_
instance (f : MathFn) : Moves base (remainder f who a b) (remainder f who a' b') := by
  unfold remainder
  repeat' first | infer_instance | refine .bind ?_ fun _ _ _ => ?_
instance : Moves base (squareRoot who a) (squareRoot who a') := by
  unfold squareRoot
  repeat' first | infer_instance | refine .bind ?_ fun _ _ _ => ?_
instance (f : MathFn) : Moves base (logarithm f who a) (logarithm f who a') := by
  unfold logarithm
  repeat' first | infer_instance | refine .bind ?_ fun _ _ _ => ?_
instance : Moves base (power who a b) (power who a' b') := by
  unfold power
  repeat' first | infer_instance | refine .bind ?_ fun _ _ _ => ?_
instance (f : MathFn) (degrees : Bool) :
    Moves base (trigonometric f degrees a) (trigonometric f degrees a') := by
  unfold trigonometric
  repeat' first | infer_instance | refine .bind ?_ fun _ _ _ => ?_ | split
instance (degrees : Bool) : Moves base (inUnit degrees a) (inUnit degrees a') := by
  unfold inUnit
  repeat' first | infer_instance | refine .bind ?_ fun _ _ _ => ?_ | split
instance (degrees : Bool) : Moves base (arctangent degrees a) (arctangent degrees a') := by
  unfold arctangent
  repeat' first | infer_instance | refine .bind ?_ fun _ _ _ => ?_
instance (degrees : Bool) : Moves base (arctangentOf degrees a b) (arctangentOf degrees a' b') := by
  unfold arctangentOf
  repeat' first | infer_instance | refine .bind ?_ fun _ _ _ => ?_
instance (f : MathFn) (identity : Float) :
    Moves base (bitwise f identity who rs) (bitwise f identity who rs') := by
  unfold bitwise
  refine .bind (moves_mapM (fun _ _ _ => inferInstance) hrs.moved) fun _ _ h => ?_
  exact .fold identity (fun _ _ _ _ _ _ => inferInstance) h.moved
instance : Moves base (complement who a) (complement who a') := by
  unfold complement
  repeat' first | infer_instance | refine .bind ?_ fun _ _ _ => ?_
instance (f : MathFn) : Moves base (shift f who a b) (shift f who a' b') := by
  unfold shift
  repeat' first | infer_instance | refine .bind ?_ fun _ _ _ => ?_
instance : Moves base (random who a) (random who a') := by
  unfold random
  repeat' first | infer_instance | refine .bind ?_ fun _ _ _ => ?_
instance : Moves base (randomRange who a b) (randomRange who a' b') := by
  unfold randomRange
  repeat' first | infer_instance | refine .bind ?_ fun _ _ _ => ?_
instance : Moves base (rerandom who node rs) (rerandom who node rs') := by
  cases hrs.moved <;> unfold rerandom <;>
    repeat' first | infer_instance | refine .bind ?_ fun _ _ _ => ?_
instance : Moves base (form who a b c) (form who a' b' c') := by
  unfold form
  repeat' first | infer_instance | refine .bind ?_ fun _ _ _ => ?_
instance : Moves base (infixFault who node) (infixFault who node) := by
  unfold infixFault
  repeat' first | infer_instance | refine .bind ?_ fun _ _ _ => ?_

/-! ### Control structures -/

instance : Moves base (runIfList who a) (runIfList who a') := by
  unfold runIfList
  repeat' first | infer_instance | refine .bind ?_ fun _ _ _ => ?_
instance : Moves base (condition who a) (condition who a') := by
  unfold condition
  refine .bind inferInstance fun ty ty' hty => ?_
  obtain rfl : ty = ty' := hty.moved
  cases ty <;> dsimp only <;> repeat' first | infer_instance | refine .bind ?_ fun _ _ _ => ?_
instance : Moves base (runnable who a) (runnable who a') := by unfold runnable; infer_instance
instance : Moves base (run who a) (run who a') := by
  unfold run
  repeat' first | infer_instance | refine .bind ?_ fun _ _ _ => ?_
instance : Moves base (runResult who a) (runResult who a') := by
  unfold runResult
  repeat' first | infer_instance | refine .bind ?_ fun _ _ _ => ?_
instance : Moves base (leaveLoop a b) (leaveLoop a' b') := by
  unfold leaveLoop
  repeat' first | infer_instance | refine .bind ?_ fun _ _ _ => ?_
instance {l l' : Label} [Moved base l l'] {last last' : Option (Reg × Reg × Label)}
    [hlast : Moved base last last'] : Moves base (keepLast a l last) (keepLast a' l' last') := by
  unfold keepLast
  cases hlast.moved with
  | none => infer_instance
  | some h =>
    obtain ⟨hr, h⟩ := h.moved
    obtain ⟨hr', hl⟩ := h.moved
    dsimp only
    repeat' first | infer_instance | refine .bind ?_ fun _ _ _ => ?_
instance {l l' : Label} [Moved base l l'] : Moves base (refuseData a b l) (refuseData a' b' l') := by
  unfold refuseData
  repeat' first | infer_instance | refine .bind ?_ fun _ _ _ => ?_
instance {last last' : Option (Reg × Reg × Label)} [Moved base last last'] :
    Moves base (passOutcome a b last) (passOutcome a' b' last') := by
  unfold passOutcome
  repeat' first | infer_instance | refine .bind ?_ fun _ _ _ => ?_
instance : Moves base (ownResult node) (ownResult node) := by
  unfold ownResult
  repeat' first | infer_instance | refine .bind ?_ fun _ _ _ => ?_
instance : Moves base (countPass a b) (countPass a' b') := by
  unfold countPass
  repeat' first | infer_instance | refine .bind ?_ fun _ _ _ => ?_
instance : Moves base (repetition who node a b) (repetition who node a' b') := by
  unfold repetition
  repeat' first | infer_instance | refine .bind ?_ fun _ _ _ => ?_
instance : Moves base (forever who node a) (forever who node a') := by
  unfold forever
  repeat' first | infer_instance | refine .bind ?_ fun _ _ _ => ?_
instance {no no' : Option Reg} [hno : Moved base no no'] :
    Moves base (runOther node no) (runOther node no') := by
  unfold runOther
  cases hno.moved <;> infer_instance
instance {no no' : Option Reg} [hno : Moved base no no'] :
    Moves base (conditional who node a b no) (conditional who node a' b' no') := by
  unfold conditional
  refine .bind inferInstance fun _ _ _ => .bind inferInstance fun _ _ _ => ?_
  refine .bind (moves_mapM_option (fun _ _ _ => inferInstance) hno.moved) fun _ _ _ => ?_
  repeat' first | infer_instance | refine .bind ?_ fun _ _ _ => ?_
instance : Moves base (test who node a) (test who node a') := by
  unfold test
  repeat' first | infer_instance | refine .bind ?_ fun _ _ _ => ?_
instance (wanted : Bool) : Moves base (testedAs wanted) (testedAs wanted) := by
  unfold testedAs
  repeat' first | infer_instance | refine .bind ?_ fun _ _ _ => ?_
instance (wanted : Bool) : Moves base (ifTested wanted who node a) (ifTested wanted who node a') := by
  unfold ifTested
  repeat' first | infer_instance | refine .bind ?_ fun _ _ _ => ?_
instance (helper : Helper) : Moves base (leaveWith node helper rs) (leaveWith node helper rs') := by
  unfold leaveWith
  repeat' first | infer_instance | refine .bind ?_ fun _ _ _ => ?_
instance : Moves base (goto node a) (goto node a') := by
  unfold goto
  repeat' first | infer_instance | refine .bind ?_ fun _ _ _ => ?_
instance : Moves base (catching who node a b) (catching who node a' b') := by
  unfold catching
  repeat' first | infer_instance | refine .bind ?_ fun _ _ _ => ?_
instance {value value' : Option Reg} [hvalue : Moved base value value'] :
    Moves base (throwing node a value) (throwing node a' value') := by
  unfold throwing
  cases hvalue.moved <;> repeat' first | infer_instance | refine .bind ?_ fun _ _ _ => ?_
instance {value value' : Option Reg} [hvalue : Moved base value value'] :
    Moves base (resume node value) (resume node value') := by
  unfold resume
  cases hvalue.moved <;> repeat' first | infer_instance | refine .bind ?_ fun _ _ _ => ?_

/-! ### Data, variables, output and turtle -/

instance (helper : Helper) : Moves base (ask helper rs) (ask helper rs') := by
  unfold ask
  repeat' first | infer_instance | refine .bind ?_ fun _ _ _ => ?_
instance (helper : Helper) :
    Moves base (askWithNode helper node rs) (askWithNode helper node rs') := by
  unfold askWithNode
  repeat' first | infer_instance | refine .bind ?_ fun _ _ _ => ?_
instance : Moves base (assign who node a b) (assign who node a' b') := by
  unfold assign
  repeat' first | infer_instance | refine .bind ?_ fun _ _ _ => ?_
instance (mode : WriteMode) : Moves base (write mode node rs) (write mode node rs') := by
  unfold write
  repeat' first | infer_instance | refine .bind ?_ fun _ _ _ => ?_
instance : Moves base (procedureCall node rs) (procedureCall node rs') := by
  unfold procedureCall
  repeat' first | infer_instance | refine .bind ?_ fun _ _ _ => ?_
instance : Moves base (variableValue node) (variableValue node) := by
  unfold variableValue
  repeat' first | infer_instance | refine .bind ?_ fun _ _ _ => ?_

end

end Emit

end LogoEngine
