import LogoEngine.Proofs.Emit.Plain

/-!
# Living and dead code

Code after a return lies in a block that nothing leads to. Such **dead** code may hold registers of
the wrong type, so it must not flow into a block that living code reaches. `Leads` says how one
draft becomes another with the marking of living labels extended: what is known of the end, if it
is alive, follows from what was known of the start.

In **strict** drafts every label counts as alive, which is how the structural check sees code.

Main statements: `leads_of_emits` for code that goes on, `leads_of_leave` for code that returns,
and `cast_spec` for casts.
-/

namespace LogoEngine

/-! ### Markings -/

theorem Draft.Sound.label_lt {d final : Draft} {limit : Nat} {marked : Label → Prop}
    {P : List Label} (h : d.Sound final limit marked P) {l : Label}
    (hl : l ∈ P ++ d.label :: d.blocks.toList.map Block.label) : l.index < d.nextLabel := by
  obtain ⟨n, hn, rfl⟩ := List.mem_map.mp (h.labels.mem_iff.mp hl)
  exact List.mem_range.mp hn

/-- Soundness only depends on the life of the labels handed out. -/
theorem Draft.Sound.congr {d final : Draft} {limit limit' : Nat} {marked marked' : Label → Prop}
    {P : List Label} (h : d.Sound final limit marked P) (hlimit : limit ≤ limit')
    (hnext : d.nextLabel ≤ limit)
    (hmarked : ∀ l : Label, l.index < limit → (marked' l ↔ marked l)) :
    d.Sound final limit' marked' P := by
  have hblock : ∀ b ∈ d.blocks, (marked' b.label ↔ marked b.label) := by
    intro b hb
    refine hmarked _ (Nat.lt_of_lt_of_le (h.label_lt ?_) hnext)
    simp only [List.mem_append, List.mem_cons, List.mem_map]
    exact .inr (.inr ⟨b, by simpa using hb, rfl⟩)
  have hopen : marked' d.label ↔ marked d.label :=
    hmarked _ (Nat.lt_of_lt_of_le (h.label_lt (by simp)) hnext)
  refine ⟨fun b hb i hi => ?_, fun b hb => ?_, fun i hi => ?_, h.labels, h.distinct⟩
  · exact ⟨(h.body b hb i hi).1, fun hl => (h.body b hb i hi).2 ((hblock b hb).mp hl)⟩
  · have hexit := h.exit b hb
    refine ⟨hexit.formed, fun t ht => Nat.lt_of_lt_of_le (hexit.below t ht) hlimit,
      fun hl => hexit.cond ((hblock b hb).mp hl), fun hl t ht => ?_⟩
    exact (hmarked t (hexit.below t ht)).mpr (hexit.leads ((hblock b hb).mp hl) t ht)
  · exact ⟨(h.opened i hi).1, fun hl => (h.opened i hi).2 (hopen.mp hl)⟩

/-- A marking that gives the labels from `n` on a life of their own. -/
def extendFrom (n : Nat) (marked : Label → Prop) (live : Prop) (l : Label) : Prop :=
  if l.index < n then marked l else live

theorem extendFrom_old {n : Nat} {marked : Label → Prop} {live : Prop} {l : Label}
    (h : l.index < n) : extendFrom n marked live l ↔ marked l := by
  simp [extendFrom, h]

theorem extendFrom_new {n : Nat} {marked : Label → Prop} {live : Prop} {l : Label}
    (h : n ≤ l.index) : extendFrom n marked live l ↔ live := by
  simp [extendFrom, Nat.not_lt.mpr h]

theorem extendFrom_all {n : Nat} {marked : Label → Prop} {live : Prop} (h : ∀ l, marked l)
    (hlive : live) (l : Label) : extendFrom n marked live l := by
  unfold extendFrom
  split
  · exact h l
  · exact hlive

/-- The end of a block with a new one after it, which has a life of its own. -/
theorem Draft.Sound.next {d final : Draft} {marked : Label → Prop} {P : List Label}
    (h : d.Sound final d.nextLabel marked P) {exit : Exit} {live : Prop}
    (hexit : exit.Good final.types (d.nextLabel + 1) (extendFrom d.nextLabel marked live)
      (marked d.label)) :
    (Emit.endBlock exit ⟨d.nextLabel⟩ (Emit.freshLabel d).2).2.Sound final (d.nextLabel + 1)
      (extendFrom d.nextLabel marked live) P := by
  have hsound : d.Sound final (d.nextLabel + 1) (extendFrom d.nextLabel marked live) P :=
    h.congr (Nat.le_succ _) (Nat.le_refl _) fun _ => extendFrom_old
  have hopen : extendFrom d.nextLabel marked live d.label ↔ marked d.label :=
    extendFrom_old (h.label_lt (by simp))
  refine hsound.pend.close [] ⟨hexit.formed, hexit.below, ?_, ?_⟩
  · exact fun hl => hexit.cond (hopen.mp hl)
  · exact fun hl => hexit.leads (hopen.mp hl)

/-- One draft becomes another: a marking of its labels can be extended to the new ones such that
the end lives only if the start does, and `ψ` holds of an end that lives if `φ` holds of a start
that does. -/
def Leads (final : Draft) (strict : Prop) (d : Draft) (φ : Prop) (d' : Draft) (ψ : Prop) : Prop :=
  ∀ marked P, (strict → ∀ l, marked l) → d.Sound final d.nextLabel marked P →
    (marked d.label → φ) →
    ∃ marked', (strict → ∀ l, marked' l) ∧
      (∀ l : Label, l.index < d.nextLabel → (marked' l ↔ marked l)) ∧
      d'.Sound final d'.nextLabel marked' P ∧ (marked' d'.label → marked d.label) ∧
      (marked' d'.label → ψ)

namespace Leads

variable {final d d₁ d₂ : Draft} {strict φ ψ χ θ : Prop}

theorem refl (h : φ → ψ) : Leads final strict d φ d ψ :=
  fun marked _ hstrict hsound hφ =>
    ⟨marked, hstrict, fun _ _ => .rfl, hsound, id, fun hl => h (hφ hl)⟩

theorem trans (h : Leads final strict d φ d₁ ψ) (h' : Leads final strict d₁ ψ d₂ χ)
    (hle : d.nextLabel ≤ d₁.nextLabel) : Leads final strict d φ d₂ χ := by
  intro marked P hstrict hsound hφ
  obtain ⟨marked₁, hstrict₁, hagree₁, hsound₁, hlive₁, hψ⟩ := h marked P hstrict hsound hφ
  obtain ⟨marked₂, hstrict₂, hagree₂, hsound₂, hlive₂, hχ⟩ := h' marked₁ P hstrict₁ hsound₁ hψ
  refine ⟨marked₂, hstrict₂, fun l hl => ?_, hsound₂, fun hl => hlive₁ (hlive₂ hl), hχ⟩
  exact (hagree₂ l (Nat.lt_of_lt_of_le hl hle)).trans (hagree₁ l hl)

/-- What is known of the start is still known of the end. -/
theorem frame (h : Leads final strict d φ d₁ ψ) (θ : Prop) :
    Leads final strict d (φ ∧ θ) d₁ (ψ ∧ θ) := by
  intro marked P hstrict hsound hφ
  obtain ⟨marked₁, hstrict₁, hagree₁, hsound₁, hlive₁, hψ⟩ :=
    h marked P hstrict hsound fun hl => (hφ hl).1
  exact ⟨marked₁, hstrict₁, hagree₁, hsound₁, hlive₁, fun hl => ⟨hψ hl, (hφ (hlive₁ hl)).2⟩⟩

theorem mono (h : Leads final strict d φ d₁ ψ) (hφ : θ → φ) (hψ : ψ → χ) :
    Leads final strict d θ d₁ χ := by
  intro marked P hstrict hsound hθ
  obtain ⟨marked₁, hstrict₁, hagree₁, hsound₁, hlive₁, hψ₁⟩ :=
    h marked P hstrict hsound fun hl => hφ (hθ hl)
  exact ⟨marked₁, hstrict₁, hagree₁, hsound₁, hlive₁, fun hl => hψ (hψ₁ hl)⟩

end Leads

/-! ### Code that goes on -/

/-- Scopes in which code emitted from a draft can be looked at, where `φ` is known of code that
is alive. -/
structure Scope.From (s : Scope) (d : Draft) (φ : Prop) : Prop where
  known : s.known = d.types.size
  types : d.types.toList <+: s.final.types.toList
  alive : s.alive → φ

theorem Scope.From.is {s : Scope} {d : Draft} {φ : Prop} (h : s.From d φ) {r : Reg} {ty : Ty}
    (hr : Declares d.types r ty) : s.Is r ty :=
  hr.mono h.types

/-- What code does from a draft on: a fact about the registers it hands over, and how it leads on
where `φ` was known, strict or not. -/
structure Emit.Spec {α : Type} (m : Emit α) (d : Draft) (φ ψ : Prop → Prop)
    (Q : Array Ty → α → Prop) : Prop where
  result : Q (m d).2.types (m d).1
  leads : ∀ final strict, (m d).2.Within final →
    Leads final strict d (φ strict) (m d).2 (ψ strict)

namespace Emit.Spec

variable {α β : Type} {d : Draft} {φ ψ χ θ : Prop → Prop} {Q : Array Ty → α → Prop}
  {R : Array Ty → β → Prop}

theorem pure {a : α} (h : Q d.types a) (hφ : ∀ strict, φ strict → ψ strict) :
    Spec (pure a) d φ ψ Q :=
  ⟨h, fun _ strict _ => .refl (hφ strict)⟩

theorem bind {m : Emit α} {f : α → Emit β} [Grows m] [hgrows : GrowsAll f]
    (hm : Spec m d φ ψ Q)
    (hf : ∀ a d', d.types.toList <+: d'.types.toList → Q d'.types a → Spec (f a) d' ψ χ R) :
    Spec (m >>= f) d φ χ R := by
  have := hgrows.grows (m d).1
  have hf' := hf (m d).1 (m d).2 (Grows.types_prefix m d) hm.result
  refine ⟨hf'.result, fun final strict hw => ?_⟩
  exact (hm.leads final strict (Grows.within (m := f (m d).1) hw)).trans
    (hf'.leads final strict hw) (Grows.nextLabel_le m d)

theorem mono {m : Emit α} (h : Spec m d φ ψ Q) (hφ : ∀ strict, θ strict → φ strict)
    (hψ : ∀ strict, ψ strict → χ strict) : Spec m d θ χ Q :=
  ⟨h.result, fun final strict hw => (h.leads final strict hw).mono (hφ strict) (hψ strict)⟩

/-- What was known is still known. -/
theorem frame {m : Emit α} (h : Spec m d φ ψ Q) (θ : Prop → Prop) :
    Spec m d (fun strict => φ strict ∧ θ strict) (fun strict => ψ strict ∧ θ strict) Q :=
  ⟨h.result, fun final strict hw => (h.leads final strict hw).frame (θ strict)⟩

/-- Only what code does from the draft on matters. -/
theorem congr {m n : Emit α} (hrun : m d = n d) (h : Spec n d φ ψ Q) : Spec m d φ ψ Q :=
  ⟨by rw [hrun]; exact h.result, by rw [hrun]; exact h.leads⟩

/-- **Code that goes on** keeps its start alive, and what it delivers in every scope it delivers
in the draft it leads to. -/
theorem of_emits {m : Emit α} [Grows m]
    (hm : ∀ (s : Scope) strict, s.From d (φ strict) → s.Emits m (Q s.final.types)) :
    Spec m d φ φ Q := by
  constructor
  · -- a scope of dead code that ends with the code itself
    let s : Scope := ⟨(m d).2.closed, (m d).2.nextLabel, d.types.size, 0, fun _ => False, False,
      fun _ _ => .rfl⟩
    have hs : s.From d (φ True) := ⟨rfl, Grows.types_prefix m d, False.elim⟩
    exact (hm s True hs [] d ⟨Nat.le_refl _, Nat.zero_le _⟩
      ⟨(m d).2.within_closed, Nat.le_refl _⟩).1
  · intro final strict hw marked P hstrict hsound hφ
    have hle := Grows.nextLabel_le m d
    -- new labels live as the open block does
    let marked' := extendFrom d.nextLabel marked (marked d.label)
    let s : Scope := ⟨final, (m d).2.nextLabel, d.types.size, d.nextLabel, marked',
      marked d.label, fun _ => extendFrom_new⟩
    have hs : s.From d (φ strict) := ⟨rfl, (Grows.types_prefix m d).trans hw.types, hφ⟩
    have hopen : marked' d.label ↔ marked d.label :=
      extendFrom_old (hsound.label_lt (by simp))
    obtain ⟨-, hok⟩ := hm s strict hs P d ⟨Nat.le_refl _, Nat.le_refl _⟩ ⟨hw, Nat.le_refl _⟩
    have hok' := hok ⟨hsound.congr hle (Nat.le_refl _) fun _ => extendFrom_old, hopen⟩
    exact ⟨marked', fun h => extendFrom_all (hstrict h) (hstrict h _), fun _ => extendFrom_old,
      hok'.sound, hok'.opened.mp, fun hl => hφ (hok'.opened.mp hl)⟩

/-! ### Code that returns -/

/-- **A return** leaves dead code behind. -/
theorem returnNow {value : Reg} (hvalue : Declares d.types value .datum) :
    Spec (Emit.returnNow value) d φ id fun _ _ => True := by
  refine ⟨trivial, fun final strict hw marked P hstrict hsound _ => ?_⟩
  have hnew : extendFrom d.nextLabel marked strict ⟨d.nextLabel⟩ ↔ strict :=
    extendFrom_new (Nat.le_refl _)
  refine ⟨extendFrom d.nextLabel marked strict, fun h => extendFrom_all (hstrict h) h,
    fun _ => extendFrom_old, hsound.next ?_, fun hl => hstrict (hnew.mp hl) _, hnew.mp⟩
  exact ⟨hvalue.mono hw.types, by simp [Exit.targets], by simp, by simp [Exit.targets]⟩

/-- Code that makes a token, which is returned. -/
theorem build_returnNow {build : Emit Reg} {after : Emit α} [Grows build] [Grows after]
    (hbuild : ∀ (s : Scope) strict, s.From d (φ strict) → s.Emits build (s.Is · .datum))
    (hafter : ∀ d', d.types.toList <+: d'.types.toList → Spec after d' id ψ Q) :
    Spec (do let token ← build; Emit.returnNow token; after) d φ ψ Q := by
  have hspec : Spec build d φ φ fun types r => Declares types r .datum := of_emits hbuild
  refine hspec.bind fun token d₁ hle₁ htoken => ?_
  refine (returnNow htoken).bind fun _ d₂ hle₂ _ => ?_
  exact hafter d₂ (hle₁.trans hle₂)

/-- A call of a helper that makes a token, which is returned. -/
theorem call_returnNow (helper : Helper) {args : List Reg} {after : Emit α} [Grows after]
    (hargs : ∀ (s : Scope) strict, s.From d (φ strict) → s.Passes helper args)
    (hret : helper.signature.ret = some .datum)
    (hafter : ∀ d', d.types.toList <+: d'.types.toList → Spec after d' id ψ Q) :
    Spec (do let token ← Emit.call helper args; Emit.returnNow token; after) d φ ψ Q :=
  build_returnNow (fun s strict hs => Scope.emits_call helper (hargs s strict hs) hret) hafter

end Emit.Spec

/-! ### Casts -/

namespace Request

/-- The type of the register that a cast hands over, where the node claims to produce `produced`
and its register has the type `ty`. -/
def castTy (request produced : Request) (ty : Ty) : Ty :=
  match request with
  | real => if ty = .datum ∧ (produced = .real ∨ produced = .nothing) then .datum else .real
  | truth => if ty = .datum ∧ (produced = .truth ∨ produced = .nothing) then .datum else .truth
  | datumOrTruth => if ty = .truth then .truth else .datum
  | nothing | datum | datumOrNothing => .datum

/-- Whether a consumer that asks for `request` can use a register of a type. -/
def suits (request : Request) (ty : Ty) : Bool :=
  match request with
  | real => ty = .real
  | truth => ty = .truth
  | datumOrTruth => ty ≠ .real
  | nothing | datum | datumOrNothing => ty = .datum

/-- Whether a register of a type can be what a node that claims to produce `produced` left: it
is native if a native value is claimed. -/
def delivers (produced : Request) (ty : Ty) : Bool :=
  ty ≠ .datum || (produced ≠ .real && produced ≠ .truth)

/-- A consumer of data gets data. -/
private theorem castTy_of_datum {request : Request} (h : request.contains .datum = true)
    (produced : Request) : request.castTy produced .datum = .datum ∧ request.suits .datum := by
  revert h
  cases request <;> cases produced <;> decide

/-- A statement gets data, or the code is dead. -/
private theorem castTy_of_nothing {request : Request} (h : request.contains .nothing = true)
    (produced : Request) : request.castTy produced .datum = .datum := by
  revert h
  cases request <;> cases produced <;> decide

/-- A consumer of native values gets one, if the node did not claim to have made it. -/
private theorem castTy_of_native {request produced : Request}
    (hdatum : request.contains .datum = false) (hnothing : request.contains .nothing = false)
    (hsame : produced ≠ request) (hnone : produced ≠ .nothing) :
    request.castTy produced .datum = (if request.contains .truth then .truth else .real) ∧
      request.suits (if request.contains .truth then .truth else .real) := by
  revert hdatum hnothing hsame hnone
  cases request <;> cases produced <;> decide

/-- A number that is asked for is handed over. -/
theorem castTy_of_real {request : Request} (h : request.contains .real = true)
    (produced : Request) : request.castTy produced .real = .real ∧ request.suits .real := by
  revert h
  cases request <;> cases produced <;> decide

/-- So is a truth value. -/
theorem castTy_of_truth {request : Request} (h : request.contains .truth = true)
    (produced : Request) : request.castTy produced .truth = .truth ∧ request.suits .truth := by
  revert h
  cases request <;> cases produced <;> decide

/-- A native value that is not asked for is boxed, or the code is dead. -/
private theorem castTy_of_boxed {request : Request} {ty : Ty} (hnative : ty ≠ .datum)
    (hreal : request.contains .real = false ∨ ty = .truth)
    (htruth : request.contains .truth = false ∨ ty = .real) (produced : Request) :
    request.castTy produced ty = (if request.contains .datum then .datum
        else if request.contains .real then .real
        else if request.contains .truth then .truth else .datum) ∧
      (request.contains .datum = true → request.suits (request.castTy produced ty)) := by
  revert hnative hreal htruth
  cases request <;> cases produced <;> cases ty <;> decide

end Request

namespace Emit

variable {d : Draft} {src : Reg} {who : Ref} {produced request : Request}

theorem placeholder_spec {φ : Prop → Prop} :
    Spec (placeholder request) d φ φ fun types r => Declares types r
      (if request.contains .real then .real else if request.contains .truth then .truth
        else .datum) := by
  refine .of_emits fun s strict _ => ?_
  unfold placeholder
  split
  · exact s.emits_real 0.0
  · split
    · exact s.emits_truth false
    · exact s.emits_nothing

/-- A word made of a native value is handed over if data will do; otherwise the code is dead. -/
theorem castBoxed_spec {φ : Prop → Prop} (hsrc : Declares d.types src .datum) :
    Spec (castBoxed src who request) d φ (fun strict => strict ∨ request.contains .datum)
      fun types r => Declares types r (if request.contains .datum then .datum
        else if request.contains .real then .real
        else if request.contains .truth then .truth else .datum) := by
  unfold castBoxed
  by_cases hdatum : request.contains .datum = true
  · simp only [hdatum, if_true]
    exact .pure hsrc fun _ _ => .inr trivial
  · simp only [hdatum, Bool.false_eq_true, if_false]
    by_cases hnative : (request.contains .real || request.contains .truth) = true
    · simp only [hnative, if_true]
      refine .build_returnNow (fun s _ hs => Scope.emits_dislike (hs.is hsrc)) fun d₁ _ => ?_
      exact placeholder_spec.mono (fun _ h => h) fun _ h => .inl h
    · have hreal : request.contains .real = false := by simp_all
      have htruth : request.contains .truth = false := by simp_all
      simp only [hreal, htruth, Bool.or_self, Bool.false_eq_true, if_false]
      refine .call_returnNow .errDontSay (fun s _ hs => ?_) rfl fun d₁ hle₁ => ?_
      · exact Scope.passes_one (hs.is hsrc).reads ⟨rfl, trivial⟩
      · exact .pure (hsrc.mono hle₁) fun _ h => .inl h

/-- A value on the heap is read as what is asked for, unless the node claims to have produced just
that already, or nothing at all. -/
theorem castDatum_spec (hsrc : Declares d.types src .datum) :
    Spec (castDatum src who produced request) d (fun strict => strict ∨ produced.delivers .datum)
      (fun strict => strict ∨ request.suits (request.castTy produced .datum))
      fun types r => Declares types r (request.castTy produced .datum) := by
  -- code that goes on with a register of the type that was asked for
  have hplain : ∀ {m : Emit Reg} [Grows m] {ty : Ty},
      (∀ s : Scope, s.Is src .datum → s.Emits m (s.Is · ty)) →
      ty = request.castTy produced .datum → request.suits ty = true →
      Spec m d (fun strict => strict ∨ produced.delivers .datum)
        (fun strict => strict ∨ request.suits (request.castTy produced .datum))
        fun types r => Declares types r (request.castTy produced .datum) := by
    rintro m _ ty hm rfl hsuits
    refine Spec.mono (.of_emits fun s _ hs => hm s (hs.is hsrc)) (fun _ h => h) fun _ _ => ?_
    exact .inr hsuits
  unfold castDatum
  by_cases heq : produced = request
  · subst heq
    simp only [if_true]
    cases produced <;> refine .pure hsrc fun _ h => h.imp id ?_ <;> decide
  simp only [heq, if_false]
  by_cases hnothing : produced = .nothing
  · subst hnothing
    simp only [if_true]
    by_cases hasked : request.contains .nothing = true
    · simp only [hasked, if_true]
      refine hplain (fun s hs => .pure hs) ?_ ?_ <;> revert hasked <;> cases request <;> decide
    · simp only [hasked, Bool.false_eq_true, if_false]
      have hname : Spec (const who) d (fun strict => strict ∨ Request.nothing.delivers .datum)
          (fun strict => strict ∨ Request.nothing.delivers .datum)
          fun types r => Declares types r .datum :=
        .of_emits fun s _ _ => s.emits_const who
      refine hname.bind fun name d₁ hle₁ hname => ?_
      refine .call_returnNow .errDidntOutput (fun s _ hs => ?_) rfl fun d₂ hle₂ => ?_
      · exact Scope.passes_two (hs.is (hsrc.mono hle₁)).reads (hs.is hname).reads
          ⟨rfl, rfl, trivial⟩
      · refine .pure ?_ fun _ h => .inl h
        have : request.castTy .nothing .datum = .datum := by cases request <;> rfl
        rw [this]
        exact hsrc.mono (hle₁.trans hle₂)
  simp only [hnothing, if_false]
  by_cases hmaybe : produced = .datumOrNothing
  · subst hmaybe
    simp only [if_true]
    by_cases hnone : request = .nothing
    · subst hnone
      simp only [if_true]
      exact hplain
        (fun s hs P => (s.emits_passToken hs).bind fun _ _ => s.emits_requireNothing hs P)
        rfl rfl
    simp only [hnone, if_false]
    by_cases hdatum : request.contains .datum = true
    · simp only [hdatum, if_true]
      obtain ⟨hty, hsuits⟩ := request.castTy_of_datum hdatum .datumOrNothing
      by_cases hasked : request.contains .nothing = true
      · simp only [hasked, if_true]
        exact hplain (fun s hs P => (s.emits_passToken hs).bind fun _ _ => .pure hs) hty.symm hsuits
      · simp only [hasked, Bool.false_eq_true, if_false]
        exact hplain (fun s hs P => (s.emits_passToken hs).bind fun _ _ =>
          s.emits_requireValue hs P) hty.symm hsuits
    · simp only [hdatum, Bool.false_eq_true, if_false]
      have hasked : request.contains .nothing = false := by
        revert hnone hdatum
        cases request <;> decide
      obtain ⟨hty, hsuits⟩ := Request.castTy_of_native (by simpa using hdatum) hasked heq hnothing
      exact hplain (fun s hs P => (s.emits_passToken hs).bind fun _ _ =>
        (s.emits_requireValue hs).bind fun value hvalue =>
          s.emits_nativeFromDatum request hvalue.reads P) hty.symm hsuits
  simp only [hmaybe, if_false]
  by_cases hdatum : request.contains .datum = true
  · simp only [hdatum, if_true]
    obtain ⟨hty, hsuits⟩ := request.castTy_of_datum hdatum produced
    exact hplain (fun s hs => .pure hs) hty.symm hsuits
  simp only [hdatum, Bool.false_eq_true, if_false]
  by_cases hasked : request.contains .nothing = true
  · simp only [hasked, if_true]
    rw [Request.castTy_of_nothing hasked produced]
    refine .call_returnNow .errDontSay (fun s _ hs => ?_) rfl fun d₁ hle₁ => ?_
    · exact Scope.passes_one (hs.is hsrc).reads ⟨rfl, trivial⟩
    · exact .pure (hsrc.mono hle₁) fun _ h => .inl h
  · simp only [hasked, Bool.false_eq_true, if_false]
    obtain ⟨hty, hsuits⟩ := Request.castTy_of_native (by simpa using hdatum) (by simpa using hasked)
      heq hnothing
    exact hplain (fun s hs => s.emits_nativeFromDatum request hs.reads) hty.symm hsuits

/-- A cast of a register whose type is known. -/
def castAs (ty : Ty) (src : Reg) (who : Ref) (produced request : Request) : Emit Reg :=
  match ty with
  | .real =>
    if request.contains .real then return src
    else do castBoxed (← call .wordFromReal [src]) who request
  | .truth =>
    if request.contains .truth then return src
    else do castBoxed (← call .wordFromTruth [src]) who request
  | .datum => castDatum src who produced request

theorem cast_run {ty : Ty} (hsrc : Declares d.types src ty) :
    cast src who produced request d = castAs ty src who produced request d := by
  have htype : d.types.getD src.index .datum = ty := by
    rw [Array.getD_eq_getD_getElem?, hsrc, Option.getD_some]
  rw [← htype]
  rfl

/-- **Casts.** What a cast hands over has the type `castTy` says, and it suits the consumer if
the node delivered what it claims, or the code after the cast is dead. -/
theorem cast_spec {ty : Ty} (hsrc : Declares d.types src ty) :
    Spec (cast src who produced request) d (fun strict => strict ∨ produced.delivers ty)
      (fun strict => strict ∨ request.suits (request.castTy produced ty))
      fun types r => Declares types r (request.castTy produced ty) := by
  -- a native value that is not asked for becomes a word first
  have hboxed : ∀ helper : Helper, helper.signature.Accepts [ty] →
      helper.signature.ret = some .datum → ty ≠ .datum →
      request.contains .real = false ∨ ty = .truth →
      request.contains .truth = false ∨ ty = .real →
      Spec (do let word ← call helper [src]; castBoxed word who request) d
        (fun strict => strict ∨ produced.delivers ty)
        (fun strict => strict ∨ request.suits (request.castTy produced ty))
        fun types r => Declares types r (request.castTy produced ty) := by
    intro helper hacc hret hnative hreal htruth
    have hcall : Spec (call helper [src]) d (fun strict => strict ∨ produced.delivers ty)
        (fun strict => strict ∨ produced.delivers ty) fun types r => Declares types r .datum :=
      .of_emits fun s _ hs => s.emits_call helper (Scope.passes_one (hs.is hsrc).reads hacc) hret
    refine hcall.bind fun word d₁ _ hword => ?_
    obtain ⟨hty, hsuits⟩ := Request.castTy_of_boxed hnative hreal htruth produced
    rw [hty] at hsuits ⊢
    exact (castBoxed_spec hword).mono (fun _ h => h) fun _ h => h.imp id hsuits
  refine Spec.congr (cast_run hsrc) ?_
  cases ty with
  | real =>
    dsimp only [castAs]
    split
    · next hasked =>
      obtain ⟨hty, hsuits⟩ := Request.castTy_of_real hasked produced
      rw [hty]
      exact .pure hsrc fun _ _ => .inr hsuits
    · next hasked =>
      exact hboxed .wordFromReal ⟨rfl, trivial⟩ rfl (by decide) (.inl (by simpa using hasked))
        (.inr rfl)
  | truth =>
    dsimp only [castAs]
    split
    · next hasked =>
      obtain ⟨hty, hsuits⟩ := Request.castTy_of_truth hasked produced
      rw [hty]
      exact .pure hsrc fun _ _ => .inr hsuits
    · next hasked =>
      exact hboxed .wordFromTruth ⟨rfl, trivial⟩ rfl (by decide) (.inr rfl)
        (.inl (by simpa using hasked))
  | datum => exact castDatum_spec hsrc

end Emit

end LogoEngine
