import LogoEngine.Proofs.Emit.Sound

/-!
# What emitters demand and deliver

One statement per emitter whose code goes on where it ends: which types it reads its registers at,
and which type its result has. Ways out that lie inside, such as the returns of a retry loop, are
no matter, since the code after them is reached by other branches.

The emitters that return and leave dead code behind are treated with the nodes that use them.
-/

namespace LogoEngine.Scope

variable {s : Scope}

/-! ### Arguments -/

theorem passes_nil {helper : Helper} (h : helper.signature.Accepts []) : s.Passes helper [] :=
  ⟨[], .nil, h⟩

theorem passes_one {helper : Helper} {a : Reg} {ty : Ty} (ha : s.Reads a ty)
    (h : helper.signature.Accepts [ty]) : s.Passes helper [a] :=
  ⟨[ty], .cons ha .nil, h⟩

theorem passes_two {helper : Helper} {a b : Reg} {ty ty' : Ty} (ha : s.Reads a ty)
    (hb : s.Reads b ty') (h : helper.signature.Accepts [ty, ty']) : s.Passes helper [a, b] :=
  ⟨[ty, ty'], .cons ha (.cons hb .nil), h⟩

/-! ### Ways out -/

theorem emits_returnWhen {cond : Reg} {build : Emit Reg} [Emit.Grows build]
    (hcond : s.Reads cond .truth) (hbuild : s.Emits build (s.Is · .datum)) :
    s.Emits (Emit.returnWhen cond build) fun _ => True := by
  intro P
  refine .label fun leave hleave => .label fun after hafter => ?_
  refine .close [after] ⟨hcond, hleave, hafter⟩ hleave ?_
  refine hbuild.bind fun value hvalue => ?_
  exact .endBlock [] hvalue hafter

theorem emits_hasTag (mask : Nat) {src : Reg} (hsrc : s.Reads src .datum) :
    s.Emits (Emit.call (.hasTag mask) [src]) (s.Is · .truth) :=
  emits_call (.hasTag mask) (passes_one hsrc ⟨rfl, trivial⟩) rfl

theorem emits_passToken {src : Reg} (hsrc : s.Is src .datum) :
    s.Emits (Emit.passToken src) fun _ => True :=
  fun _ => (emits_hasTag flowMask hsrc.reads).bind fun _ hflow =>
    emits_returnWhen hflow.reads (.pure hsrc) _

/-! ### Ways on -/

section

variable {α : Type} {P P' P₂ : List Label} {Q : α → Prop}

/-- Values of other kinds go to a label that is pending. -/
theorem Triple.whenKind {mask : Nat} {value : Reg} {f : Label → Emit α} [hgrows : Emit.GrowsAll f]
    (hvalue : s.Reads value .datum) (hf : ∀ l, s.Fresh l → s.Triple (l :: P) (f l) P' Q) :
    s.Triple P (Emit.whenKind mask value >>= f) P' Q := by
  have := hgrows.grows
  simp only [Emit.whenKind, bind_assoc, pure_bind]
  refine (emits_hasTag mask hvalue).bind fun isKind hisKind => ?_
  refine .label fun yes hyes => .label fun no hno => ?_
  exact .close [no] ⟨hisKind.reads, hyes, hno⟩ hyes (hf no hno)

theorem triple_deliver (P₁ : List Label) {dst src : Reg} {target next : Label} {ty : Ty}
    (hdst : s.Is dst ty) (hsrc : s.Reads src ty) (htarget : s.Fresh target) (hnext : s.Fresh next) :
    s.Triple (P₁ ++ next :: P₂) (Emit.deliver dst src target next) (P₁ ++ P₂) fun _ => True :=
  (emits_move hdst hsrc).bind fun _ _ => .endBlock P₁ htarget hnext

end

/-! ### Checked inputs -/

section

variable {who : Ref} {bad : Reg} {P₂ : List Label}

theorem emits_doesntLike {name bad : Reg} (hname : s.Is name .datum) (hbad : s.Is bad .datum) :
    s.Emits (Emit.call .errDoesntLike [name, bad]) (s.Is · .datum) :=
  emits_call .errDoesntLike (passes_two hname.reads hbad.reads ⟨rfl, rfl, trivial⟩) rfl

theorem emits_dislike (hbad : s.Is bad .datum) :
    s.Emits (Emit.dislike who bad) (s.Is · .datum) :=
  fun P => (emits_const who).bind fun _ hname => emits_doesntLike hname hbad P

theorem triple_reject (P₁ : List Label) {next : Label} (hbad : s.Is bad .datum)
    (hnext : s.Fresh next) :
    s.Triple (P₁ ++ next :: P₂) (Emit.reject who bad next) (P₁ ++ P₂) fun _ => True :=
  (emits_dislike hbad).bind fun _ herror => .endBlock P₁ herror hnext

theorem triple_askOrGiveUp (P₁ : List Label) {ask giveUp : Label} (hask : s.Fresh ask)
    (hgiveUp : s.Fresh giveUp) :
    s.Triple (P₁ ++ ask :: P₂) (Emit.askOrGiveUp ask giveUp) (P₁ ++ P₂) fun _ => True :=
  (emits_call .erract (passes_nil trivial) rfl).bind fun _ herract =>
    .endBlock P₁ ⟨herract.reads, hask, hgiveUp⟩ hask

theorem emits_askAgain (hbad : s.Is bad .datum) :
    s.Emits (Emit.askAgain who bad) (s.Is · .datum) :=
  fun P => (emits_dislike hbad).bind fun _ herror =>
    (emits_perform .writeError (passes_one herror.reads ⟨rfl, trivial⟩)).bind fun _ _ =>
      emits_call .pause (passes_nil trivial) rfl P

theorem triple_branchOnData (P₁ : List Label) {reply : Reg} {data notData next : Label}
    (hreply : s.Is reply .datum) (hdata : s.Fresh data) (hnotData : s.Fresh notData)
    (hnext : s.Fresh next) :
    s.Triple (P₁ ++ next :: P₂) (Emit.branchOnData reply data notData next) (P₁ ++ P₂)
      fun _ => True :=
  (emits_hasTag dataMask hreply.reads).bind fun _ hisData =>
    .endBlock P₁ ⟨hisData.reads, hdata, hnotData⟩ hnext

end

section

variable {who : Ref} {src : Reg} {check : Reg → Emit Reg} [∀ r, Emit.Grows (check r)]

theorem emits_retryDatum (hsrc : s.Reads src .datum)
    (hcheck : ∀ r, s.Is r .datum → s.Emits (check r) (s.Is · .truth)) :
    s.Emits (Emit.retryDatum who src check) (s.Is · .datum) := by
  intro P
  refine (emits_freshReg .datum).bind fun candidate hcand => ?_
  refine (emits_move hcand hsrc).bind fun _ _ => ?_
  refine .label fun again hagain => .label fun rejected hrejected => .label fun ask hask => ?_
  refine .label fun notData hnotData => .label fun giveUp hgiveUp => ?_
  refine .label fun accept haccept => ?_
  refine .close [accept, giveUp, notData, ask, rejected] hagain hagain ?_
  refine (hcheck candidate hcand).bind fun valid hvalid => ?_
  refine .close [accept, giveUp, notData, ask] ⟨hvalid.reads, haccept, hrejected⟩ hrejected ?_
  refine (triple_askOrGiveUp [accept, giveUp, notData] hask hgiveUp).bind fun _ _ => ?_
  refine (emits_askAgain hcand).bind fun reply hreply => ?_
  refine (emits_move hcand hreply.reads).bind fun _ _ => ?_
  refine (triple_branchOnData [accept, giveUp] hreply hagain hnotData hnotData).bind fun _ _ => ?_
  refine .close [accept] hcand hgiveUp ?_
  exact (triple_reject [] hcand haccept).bind fun _ _ => .pure hcand

theorem emits_retryReal (hsrc : s.Reads src .real)
    (hcheck : ∀ r, s.Is r .real → s.Emits (check r) (s.Is · .truth)) :
    s.Emits (Emit.retryReal who src check) (s.Is · .real) := by
  intro P
  refine (emits_freshReg .real).bind fun candidate hcand => ?_
  refine (emits_move hcand hsrc).bind fun _ _ => ?_
  refine (emits_freshReg .datum).bind fun bad hbad => ?_
  refine .label fun again hagain => .label fun rejected hrejected => .label fun ask hask => ?_
  refine .label fun readReply hreadReply => .label fun notData hnotData => ?_
  refine .label fun giveUp hgiveUp => .label fun accept haccept => ?_
  refine .close [accept, giveUp, notData, readReply, ask, rejected] hagain hagain ?_
  refine (hcheck candidate hcand).bind fun valid hvalid => ?_
  refine .close [accept, giveUp, notData, readReply, ask] ⟨hvalid.reads, haccept, hrejected⟩
    hrejected ?_
  refine (emits_call .wordFromReal (passes_one hcand.reads ⟨rfl, trivial⟩) rfl).bind
    fun word hword => ?_
  refine (emits_move hbad hword.reads).bind fun _ _ => ?_
  refine (triple_askOrGiveUp [accept, giveUp, notData, readReply] hask hgiveUp).bind fun _ _ => ?_
  refine (emits_askAgain hbad).bind fun reply hreply => ?_
  refine (triple_branchOnData [accept, giveUp, notData] hreply hreadReply hnotData
    hreadReply).bind fun _ _ => ?_
  refine (emits_move hbad hreply.reads).bind fun _ _ => ?_
  refine (emits_call .realOf (passes_one hreply.reads ⟨rfl, trivial⟩) rfl).bind
    fun number hnumber => ?_
  refine (emits_move hcand hnumber.reads).bind fun _ _ => ?_
  refine (emits_call .realValid (passes_one hreply.reads ⟨rfl, trivial⟩) rfl).bind
    fun isNumber hisNumber => ?_
  refine .close [accept, giveUp] ⟨hisNumber.reads, hagain, hask⟩ hnotData ?_
  refine (emits_call .errToplevel (passes_nil trivial) rfl).bind fun escape hescape => ?_
  refine .close [accept] hescape hgiveUp ?_
  exact (triple_reject [] hbad haccept).bind fun _ _ => .pure hcand

end

section

variable {who : Ref} {src : Reg}

theorem emits_realFromDatum (hsrc : s.Reads src .datum) :
    s.Emits (Emit.realFromDatum who src) (s.Is · .real) := by
  intro P
  refine (emits_freshReg .real).bind fun result hresult => ?_
  refine (emits_retryDatum hsrc fun candidate hcand P => ?_).bind fun _ _ => .pure hresult
  refine (emits_call .realOf (passes_one hcand.reads ⟨rfl, trivial⟩) rfl).bind fun v hv => ?_
  refine (emits_move hresult hv.reads).bind fun _ _ => ?_
  exact emits_call .realValid (passes_one hcand.reads ⟨rfl, trivial⟩) rfl P

theorem emits_truthFromDatum (hsrc : s.Reads src .datum) :
    s.Emits (Emit.truthFromDatum who src) (s.Is · .truth) := by
  intro P
  refine (emits_freshReg .truth).bind fun result hresult => ?_
  refine (emits_retryDatum hsrc fun candidate hcand P => ?_).bind fun _ _ => .pure hresult
  refine (emits_call .truthOf (passes_one hcand.reads ⟨rfl, trivial⟩) rfl).bind fun v hv => ?_
  refine (emits_move hresult hv.reads).bind fun _ _ => ?_
  exact emits_call .truthValid (passes_one hcand.reads ⟨rfl, trivial⟩) rfl P

theorem emits_datumOfKind (mask : Nat) (hsrc : s.Reads src .datum) :
    s.Emits (Emit.datumOfKind who mask src) (s.Is · .datum) :=
  emits_retryDatum hsrc fun _ hcand => emits_hasTag mask hcand.reads

theorem emits_int32 (hsrc : s.Reads src .real) : s.Emits (Emit.int32 who src) (s.Is · .real) :=
  emits_retryReal hsrc fun _ hcand => emits_isInt hcand.reads

theorem emits_comparedToZero (op : CompareOp) (hsrc : s.Reads src .real) :
    s.Emits (Emit.comparedToZero op who src) (s.Is · .real) :=
  emits_retryReal hsrc fun _ hcand P => (emits_real 0.0).bind fun _ hzero =>
    emits_compare op hcand.reads hzero.reads P

/-- Two tests of a number, one against zero, in one. -/
private theorem emits_comparedAndInt (op : CompareOp) {r : Reg} (hr : s.Is r .real) :
    s.Emits (do
      let zero ← Emit.real 0.0
      let compared ← Emit.compare op r zero
      let integral ← Emit.isInt r
      Emit.and compared integral) (s.Is · .truth) :=
  fun P => (emits_real 0.0).bind fun _ hzero =>
    (emits_compare op hr.reads hzero.reads).bind fun _ hcompared =>
      (emits_isInt hr.reads).bind fun _ hint => emits_and hcompared.reads hint.reads P

theorem emits_nonzeroInt32 (hsrc : s.Reads src .real) :
    s.Emits (Emit.nonzeroInt32 who src) (s.Is · .real) :=
  emits_retryReal hsrc fun _ hcand => emits_comparedAndInt .ne hcand

theorem emits_positiveInt32 (hsrc : s.Reads src .real) :
    s.Emits (Emit.positiveInt32 who src) (s.Is · .real) :=
  emits_retryReal hsrc fun _ hcand => emits_comparedAndInt .gt hcand

theorem emits_count (hsrc : s.Reads src .real) : s.Emits (Emit.count who src) (s.Is · .real) :=
  emits_retryReal hsrc fun _ hcand P => (emits_real 0.0).bind fun _ hzero =>
    (emits_compare .ge hcand.reads hzero.reads).bind fun _ hcompared =>
      (emits_isInt hcand.reads).bind fun _ hint => emits_and hint.reads hcompared.reads P

/-! ### Casts that go on -/

theorem emits_requireNothing (hsrc : s.Is src .datum) :
    s.Emits (Emit.requireNothing src) (s.Is · .datum) :=
  fun _ => (emits_hasTag dataMask hsrc.reads).bind fun _ hdata =>
    (emits_returnWhen hdata.reads (emits_call .errDontSay (passes_one hsrc.reads ⟨rfl, trivial⟩)
      rfl)).bind fun _ _ => .pure hsrc

theorem emits_requireValue (hsrc : s.Is src .datum) :
    s.Emits (Emit.requireValue who src) (s.Is · .datum) := by
  intro P
  refine (emits_hasTag dataMask hsrc.reads).bind fun isData hdata => ?_
  refine (emits_not hdata.reads).bind fun missing hmissing => ?_
  refine (emits_returnWhen hmissing.reads fun P => ?_).bind fun _ _ => .pure hsrc
  refine (emits_const who).bind fun name hname => ?_
  exact emits_call .errDidntOutput (passes_two hsrc.reads hname.reads ⟨rfl, rfl, trivial⟩) rfl P

theorem emits_nativeFromDatum (request : Request) (hsrc : s.Reads src .datum) :
    s.Emits (Emit.nativeFromDatum who src request)
      (s.Is · (if request.contains .truth then .truth else .real)) := by
  unfold Emit.nativeFromDatum
  split
  · exact emits_truthFromDatum hsrc
  · exact emits_realFromDatum hsrc

end

/-! ### Arithmetic -/

theorem emits_math {f : MathFn} (hf : f.isBinary = false) {a : Reg} (ha : s.Reads a .real) :
    s.Emits (Emit.call (.math f) [a]) (s.Is · .real) := by
  refine emits_call (.math f) (passes_one ha ?_) rfl
  simp [Signature.Accepts, Signature.acceptsFrom, Helper.signature, hf]

theorem emits_math₂ {f : MathFn} (hf : f.isBinary = true) {a b : Reg} (ha : s.Reads a .real)
    (hb : s.Reads b .real) : s.Emits (Emit.call (.math f) [a, b]) (s.Is · .real) := by
  refine emits_call (.math f) (passes_two ha hb ?_) rfl
  simp [Signature.Accepts, Signature.acceptsFrom, Helper.signature, hf]

/-- A fold over several numbers ends with a number. -/
private theorem emits_foldlM {step : Reg → Reg → Emit Reg} [∀ a b, Emit.Grows (step a b)]
    (hstep : ∀ a b, s.Reads a .real → s.Reads b .real → s.Emits (step a b) (s.Is · .real))
    {rs : List Reg} (hrs : ∀ r ∈ rs, s.Reads r .real) {a : Reg} (ha : s.Is a .real) :
    s.Emits (rs.foldlM step a) (s.Is · .real) := by
  induction rs generalizing a with
  | nil => exact .pure ha
  | cons r rs ih =>
    intro P
    rw [List.foldlM_cons]
    refine (hstep a r ha.reads (hrs r List.mem_cons_self)).bind fun b hb => ?_
    exact ih (fun r' hr' => hrs r' (List.mem_cons_of_mem _ hr')) hb P

/-- A fold over inputs; a single input is handed through as it is. -/
theorem emits_fold {step : Reg → Reg → Emit Reg} [∀ a b, Emit.Grows (step a b)]
    (hstep : ∀ a b, s.Reads a .real → s.Reads b .real → s.Emits (step a b) (s.Is · .real))
    (identity : Float) {rs : List Reg} (hrs : (∃ r, rs = [r]) ∨ ∀ r ∈ rs, s.Reads r .real) :
    s.Emits (Emit.fold step identity rs) fun r => rs = [r] ∨ s.Is r .real := by
  intro P d hstart hreach
  rcases rs with - | ⟨a, - | ⟨b, rs⟩⟩
  · obtain ⟨h, hok⟩ := emits_real identity P d hstart hreach
    exact ⟨.inr h, hok⟩
  · exact ⟨.inl rfl, id⟩
  · replace hrs : ∀ r ∈ a :: b :: rs, s.Reads r .real := by
      rcases hrs with ⟨r, h⟩ | h
      · cases h
      · exact h
    have hfold : s.Emits (Emit.fold step identity (a :: b :: rs)) (s.Is · .real) := by
      intro P
      rw [Emit.fold, List.foldlM_cons]
      refine (hstep a b (hrs a (by simp)) (hrs b (by simp))).bind fun c hc => ?_
      exact emits_foldlM hstep (fun r hr => hrs r (by simp [hr])) hc P
    obtain ⟨h, hok⟩ := hfold P d hstart hreach
    exact ⟨.inr h, hok⟩

section

variable {who node : Ref} {a b c : Reg}

theorem emits_reciprocal (ha : s.Reads a .real) :
    s.Emits (Emit.reciprocal who a) (s.Is · .real) :=
  fun P => (emits_comparedToZero .ne ha).bind fun _ hdivisor => (emits_real 1.0).bind fun _ hone =>
    emits_arith .div hone.reads hdivisor.reads P

theorem emits_quotient (ha : s.Reads a .real) (hb : s.Reads b .real) :
    s.Emits (Emit.quotient who a b) (s.Is · .real) :=
  fun P => (emits_comparedToZero .ne hb).bind fun _ hdivisor =>
    emits_arith .div ha hdivisor.reads P

theorem emits_remainder {f : MathFn} (hf : f.isBinary = true) (ha : s.Reads a .real)
    (hb : s.Reads b .real) : s.Emits (Emit.remainder f who a b) (s.Is · .real) :=
  fun P => (emits_int32 ha).bind fun _ ha' => (emits_nonzeroInt32 hb).bind fun _ hb' =>
    emits_math₂ hf ha'.reads hb'.reads P

theorem emits_squareRoot (ha : s.Reads a .real) :
    s.Emits (Emit.squareRoot who a) (s.Is · .real) :=
  fun P => (emits_comparedToZero .ge ha).bind fun _ ha' => emits_math rfl ha'.reads P

theorem emits_logarithm {f : MathFn} (hf : f.isBinary = false) (ha : s.Reads a .real) :
    s.Emits (Emit.logarithm f who a) (s.Is · .real) :=
  fun P => (emits_comparedToZero .gt ha).bind fun _ ha' => emits_math hf ha'.reads P

theorem emits_power (ha : s.Reads a .real) (hb : s.Reads b .real) :
    s.Emits (Emit.power who a b) (s.Is · .real) := by
  intro P
  refine (emits_freshReg .real).bind fun exponent hexponent => ?_
  refine (emits_move hexponent hb).bind fun _ _ => ?_
  refine (emits_real 0.0).bind fun zero hzero => ?_
  refine (emits_compare .lt ha hzero.reads).bind fun negative hnegative => ?_
  refine .label fun check hcheck => .label fun merge hmerge => ?_
  refine .close [merge] ⟨hnegative.reads, hcheck, hmerge⟩ hcheck ?_
  refine (emits_int32 hexponent.reads).bind fun checked hchecked => ?_
  refine (triple_deliver [] hexponent hchecked.reads hmerge hmerge).bind fun _ _ => ?_
  exact emits_math₂ rfl ha hexponent.reads P

theorem emits_trigonometric {f : MathFn} (hf : f.isBinary = false) (degrees : Bool)
    (ha : s.Reads a .real) : s.Emits (Emit.trigonometric f degrees a) (s.Is · .real) := by
  unfold Emit.trigonometric
  split
  · exact fun P => (emits_real _).bind fun _ hscale =>
      (emits_arith .mul ha hscale.reads).bind fun _ hangle => emits_math hf hangle.reads P
  · exact emits_math hf ha

theorem emits_inUnit (degrees : Bool) (ha : s.Is a .real) :
    s.Emits (Emit.inUnit degrees a) (s.Is · .real) := by
  unfold Emit.inUnit
  split
  · exact fun P => (emits_real _).bind fun _ hscale =>
      emits_arith .mul ha.reads hscale.reads P
  · exact .pure ha

theorem emits_arctangent (degrees : Bool) (ha : s.Reads a .real) :
    s.Emits (Emit.arctangent degrees a) (s.Is · .real) :=
  fun P => (emits_math rfl ha).bind fun _ hangle => emits_inUnit degrees hangle P

theorem emits_arctangentOf (degrees : Bool) (ha : s.Reads a .real) (hb : s.Reads b .real) :
    s.Emits (Emit.arctangentOf degrees a b) (s.Is · .real) :=
  fun P => (emits_math₂ rfl hb ha).bind fun _ hangle => emits_inUnit degrees hangle P

private theorem emits_mapM_int32 {rs : List Reg} (hrs : ∀ r ∈ rs, s.Reads r .real) :
    s.Emits (rs.mapM (Emit.int32 who)) fun ints => ∀ r ∈ ints, s.Is r .real := by
  induction rs with
  | nil => exact .pure (by simp)
  | cons r rs ih =>
    intro P
    rw [List.mapM_cons]
    refine (emits_int32 (hrs r List.mem_cons_self)).bind fun r' hr' => ?_
    refine (ih fun r hr => hrs r (List.mem_cons_of_mem _ hr)).bind fun rs' hrs' => ?_
    exact .pure (by simpa [hr'] using hrs')

theorem emits_bitwise {f : MathFn} (hf : f.isBinary = true) (identity : Float) {rs : List Reg}
    (hrs : ∀ r ∈ rs, s.Reads r .real) :
    s.Emits (Emit.bitwise f identity who rs) (s.Is · .real) := by
  intro P
  refine (emits_mapM_int32 hrs).bind fun ints hints => ?_
  have hfold := emits_fold (s := s) (fun a b ha hb => emits_math₂ hf ha hb) identity
    (.inr fun r hr => (hints r hr).reads)
  intro d hstart hreach
  obtain ⟨h | h, hok⟩ := hfold P d hstart hreach
  · exact ⟨hints _ (h ▸ List.mem_singleton.mpr rfl), hok⟩
  · exact ⟨h, hok⟩

theorem emits_complement (ha : s.Reads a .real) :
    s.Emits (Emit.complement who a) (s.Is · .real) :=
  fun P => (emits_int32 ha).bind fun _ ha' => emits_math rfl ha'.reads P

theorem emits_shift {f : MathFn} (hf : f.isBinary = true) (ha : s.Reads a .real)
    (hb : s.Reads b .real) : s.Emits (Emit.shift f who a b) (s.Is · .real) :=
  fun P => (emits_int32 ha).bind fun _ ha' => (emits_int32 hb).bind fun _ hb' =>
    emits_math₂ hf ha'.reads hb'.reads P

theorem emits_random (ha : s.Reads a .real) : s.Emits (Emit.random who a) (s.Is · .real) :=
  fun P => (emits_positiveInt32 ha).bind fun _ ha' =>
    emits_call .random (passes_one ha'.reads ⟨rfl, trivial⟩) rfl P

theorem emits_randomRange (ha : s.Reads a .real) (hb : s.Reads b .real) :
    s.Emits (Emit.randomRange who a b) (s.Is · .real) := by
  intro P
  refine (emits_int32 ha).bind fun start hstart => ?_
  refine (emits_int32 hb).bind fun stop hstop => ?_
  refine (emits_compare .gt hstart.reads hstop.reads).bind fun backwards hbackwards => ?_
  refine (emits_returnWhen hbackwards.reads fun P => ?_).bind fun _ _ => ?_
  · refine (emits_const who).bind fun name hname => ?_
    refine (emits_call .wordFromReal (passes_one hstop.reads ⟨rfl, trivial⟩) rfl).bind
      fun word hword => ?_
    exact emits_doesntLike hname hword P
  · exact emits_call .randomRange (passes_two hstart.reads hstop.reads ⟨rfl, rfl, trivial⟩) rfl P

theorem emits_rerandom {rs : List Reg} (hrs : ∀ r ∈ rs, s.Reads r .real) :
    s.Emits (Emit.rerandom who node rs) (s.Is · .datum) := by
  cases rs with
  | nil =>
    exact fun P => (emits_perform .rerandom (passes_nil trivial)).bind fun _ _ =>
      emits_const node P
  | cons seed rs =>
    exact fun P => (emits_count (hrs seed List.mem_cons_self)).bind fun _ hseed =>
      (emits_perform .rerandomSeed (passes_one hseed.reads ⟨rfl, trivial⟩)).bind fun _ _ =>
        emits_const node P

theorem emits_form (ha : s.Reads a .real) (hb : s.Reads b .real) (hc : s.Reads c .real) :
    s.Emits (Emit.form who a b c) (s.Is · .datum) :=
  fun P => (emits_int32 hb).bind fun _ hb' => (emits_count hc).bind fun _ hc' =>
    emits_call .form ⟨[.real, .real, .real], .cons ha (.cons hb'.reads (.cons hc'.reads .nil)),
      rfl, rfl, rfl, trivial⟩ rfl P

/-! ### Data, variables, output and turtle -/

theorem emits_ask (helper : Helper) {rs : List Reg} (hrs : s.Passes helper rs)
    (hret : helper.signature.ret = some .datum) : s.Emits (Emit.ask helper rs) (s.Is · .datum) :=
  fun _ => (emits_call helper hrs hret).bind fun _ hresult =>
    (emits_passToken hresult).bind fun _ _ => .pure hresult

/-- Registers of data can be passed where any number of data is taken. -/
theorem passes_rest {helper : Helper} {params : List Ty} (rs : List Reg) {rest : List Reg}
    (hsig : helper.signature.params = params) (hrest : helper.signature.rest = some .datum)
    (hrs : List.Forall₂ s.Reads rs params) (hmore : ∀ r ∈ rest, s.Reads r .datum) :
    s.Passes helper (rs ++ rest) := by
  refine ⟨params ++ List.replicate rest.length .datum, ?_, ?_⟩
  · refine List.rel_append hrs ?_
    clear hrs hsig
    induction rest with
    | nil => exact .nil
    | cons r rest ih =>
      exact .cons (hmore r List.mem_cons_self) (ih fun r' hr' => hmore r' (by simp [hr']))
  · rw [Signature.Accepts, hsig, hrest]
    clear hrs hsig hrest hmore
    induction params with
    | nil =>
      cases rest with
      | nil => trivial
      | cons r rest => exact ⟨.datum, rfl, fun t ht => List.eq_of_mem_replicate ht⟩
    | cons ty params ih => exact ⟨rfl, ih⟩

theorem emits_askWithNode (helper : Helper) {rs : List Reg}
    (hrs : ∀ self, s.Is self .datum → s.Passes helper (self :: rs))
    (hret : helper.signature.ret = some .datum) :
    s.Emits (Emit.askWithNode helper node rs) (s.Is · .datum) :=
  fun P => (emits_const node).bind fun self hself => emits_ask helper (hrs self hself) hret P

theorem emits_assign (ha : s.Reads a .datum) (hb : s.Reads b .datum) :
    s.Emits (Emit.assign who node a b) (s.Is · .datum) :=
  fun P => (emits_datumOfKind wordMask ha).bind fun _ ha' =>
    emits_askWithNode .setVar (fun _ hself => ⟨[.datum, .datum, .datum],
      .cons hself.reads (.cons ha'.reads (.cons hb .nil)), rfl, rfl, rfl, trivial⟩) rfl P

theorem emits_write (mode : WriteMode) {rs : List Reg} (hrs : ∀ r ∈ rs, s.Reads r .datum) :
    s.Emits (Emit.write mode node rs) (s.Is · .datum) :=
  fun P => (emits_perform (.write mode) (passes_rest [] rfl rfl .nil hrs)).bind
    fun _ _ => emits_const node P

theorem emits_procedureCall {rs : List Reg} (hrs : ∀ r ∈ rs, s.Reads r .datum) :
    s.Emits (Emit.procedureCall node rs) (s.Is · .datum) :=
  fun P => (emits_const node).bind fun self hself =>
    emits_call .runProcedure (passes_rest [self] rfl rfl (.cons hself.reads .nil) hrs) rfl P

theorem emits_variableValue : s.Emits (Emit.variableValue node) (s.Is · .datum) := by
  intro P
  refine (emits_const node).bind fun name hname => ?_
  refine (emits_call .getVar (passes_one hname.reads ⟨rfl, trivial⟩) rfl).bind fun v hv => ?_
  refine (emits_hasTag dataMask hv.reads).bind fun bound hbound => ?_
  refine (emits_not hbound.reads).bind fun unbound hunbound => ?_
  refine (emits_returnWhen hunbound.reads ?_).bind fun _ _ => .pure hv
  exact emits_call .errNoValue (passes_one hname.reads ⟨rfl, trivial⟩) rfl

/-! ### Control structures -/

theorem emits_runList {list : Reg} (hlist : s.Reads list .datum) :
    s.Emits (Emit.call .runList [list]) (s.Is · .datum) :=
  emits_call .runList (passes_one hlist ⟨rfl, trivial⟩) rfl

theorem emits_runIfList (ha : s.Reads a .datum) :
    s.Emits (Emit.runIfList who a) (s.Is · .datum) := by
  intro P
  refine (emits_freshReg .datum).bind fun out hout => ?_
  refine (emits_move hout ha).bind fun _ _ => ?_
  refine .whenKind ha fun after hafter => ?_
  refine (emits_runList ha).bind fun result hresult => ?_
  refine (emits_passToken hresult).bind fun _ _ => ?_
  refine (emits_requireValue hresult).bind fun value hvalue => ?_
  exact (triple_deliver [] hout hvalue.reads hafter hafter).bind fun _ _ => .pure hout

/-- A condition is a truth value already, or data. -/
theorem emits_condition {ty : Ty} (hknown : a.index < s.known) (ha : s.Is a ty)
    (hty : ty ≠ .real) : s.Emits (Emit.condition who a) (s.Is · .truth) := by
  intro P
  refine (emits_typeOf hknown).bind (g := ⟨fun ty' => by cases ty' <;> infer_instance⟩)
    fun ty' hty' => ?_
  obtain rfl : ty' = ty := Declares.unique hty' ha
  cases ty' with
  | real => exact absurd rfl hty
  | truth => exact .pure ha
  | datum =>
    exact (emits_runIfList ha.reads).bind fun _ hvalue => emits_truthFromDatum hvalue.reads P

theorem emits_runnable (ha : s.Reads a .datum) : s.Emits (Emit.runnable who a) (s.Is · .datum) :=
  emits_datumOfKind wordOrListMask ha

theorem emits_run (ha : s.Reads a .datum) : s.Emits (Emit.run who a) (s.Is · .datum) :=
  fun P => (emits_runnable ha).bind fun _ hlist => emits_runList hlist.reads P

theorem emits_runResult (ha : s.Reads a .datum) :
    s.Emits (Emit.runResult who a) (s.Is · .datum) :=
  fun _ => (emits_runnable ha).bind fun _ hlist =>
    (emits_call .runResult (passes_one hlist.reads ⟨rfl, trivial⟩) rfl).bind fun _ hresult =>
      (emits_passToken hresult).bind fun _ _ => .pure hresult

theorem emits_setRepcount (ha : s.Reads a .real) :
    s.Emits (Emit.perform .setRepcount [a]) fun _ => True :=
  emits_perform .setRepcount (passes_one ha ⟨rfl, trivial⟩)

section

variable {value saved : Reg} {P : List Label}

theorem emits_leaveLoop (hvalue : s.Is value .datum) (hsaved : s.Is saved .real) :
    s.Emits (Emit.leaveLoop value saved) fun _ => True :=
  fun _ => .whenKind hvalue.reads fun _ hafter =>
    (emits_setRepcount hsaved.reads).bind fun _ _ => .endBlock [] hvalue hafter

theorem triple_keepLast {dontSay : Label} {last : Option (Reg × Reg × Label)}
    (hvalue : s.Is value .datum) (hdontSay : s.Fresh dontSay)
    (hlast : ∀ isLast result exit, last = some (isLast, result, exit) →
      s.Is isLast .truth ∧ s.Is result .datum ∧ s.Fresh exit) :
    s.Triple (dontSay :: P) (Emit.keepLast value dontSay last) P fun _ => True := by
  rcases last with - | ⟨isLast, result, exit⟩
  · exact .endBlock [] hdontSay hdontSay
  · obtain ⟨hisLast, hresult, hexit⟩ := hlast isLast result exit rfl
    refine .label fun keep hkeep => ?_
    refine .close [] ⟨hisLast.reads, hkeep, hdontSay⟩ hkeep ?_
    exact triple_deliver [] hresult hvalue.reads hexit hdontSay

theorem triple_refuseData {next : Label} (hvalue : s.Is value .datum) (hsaved : s.Is saved .real)
    (hnext : s.Fresh next) :
    s.Triple (next :: P) (Emit.refuseData value saved next) P fun _ => True :=
  (emits_setRepcount hsaved.reads).bind fun _ _ =>
    (emits_call .errDontSay (passes_one hvalue.reads ⟨rfl, trivial⟩) rfl).bind fun _ herror =>
      .endBlock [] herror hnext

theorem emits_passOutcome {last : Option (Reg × Reg × Label)}
    (hvalue : s.Is value .datum) (hsaved : s.Is saved .real)
    (hlast : ∀ isLast result exit, last = some (isLast, result, exit) →
      s.Is isLast .truth ∧ s.Is result .datum ∧ s.Fresh exit) :
    s.Emits (Emit.passOutcome value saved last) fun _ => True := by
  intro P
  refine (emits_leaveLoop hvalue hsaved).bind fun _ _ => ?_
  refine .whenKind hvalue.reads fun after hafter => .label fun dontSay hdontSay => ?_
  refine (triple_keepLast hvalue hdontSay hlast).bind fun _ _ => ?_
  exact triple_refuseData hvalue hsaved hafter

end

theorem emits_ownResult : s.Emits (Emit.ownResult node) (s.Is · .datum) :=
  fun _ => (emits_freshReg .datum).bind fun _ hresult => (emits_const node).bind fun _ hself =>
    (emits_move hresult hself.reads).bind fun _ _ => .pure hresult

theorem emits_countPass {counter one : Reg} (hcounter : s.Is counter .real)
    (hone : s.Is one .real) : s.Emits (Emit.countPass counter one) fun _ => True :=
  fun P => (emits_arith .add hcounter.reads hone.reads).bind fun _ hnext =>
    emits_move hcounter hnext.reads P

theorem emits_repetition (ha : s.Reads a .real) (hb : s.Reads b .datum) :
    s.Emits (Emit.repetition who node a b) (s.Is · .datum) := by
  intro P
  refine (emits_count ha).bind fun times htimes => ?_
  refine (emits_runnable hb).bind fun list hlist => ?_
  refine (emits_call .repcount (passes_nil trivial) rfl).bind fun saved hsaved => ?_
  refine emits_ownResult.bind fun result hresult => ?_
  refine (emits_freshReg .real).bind fun counter hcounter => ?_
  refine (emits_real 1.0).bind fun one hone => ?_
  refine (emits_move hcounter hone.reads).bind fun _ _ => ?_
  refine .label fun head hhead => .label fun body hbody => .label fun exit hexit => ?_
  refine .close [exit, body] hhead hhead ?_
  refine (emits_compare .le hcounter.reads htimes.reads).bind fun more hmore => ?_
  refine .close [exit] ⟨hmore.reads, hbody, hexit⟩ hbody ?_
  refine (emits_setRepcount hcounter.reads).bind fun _ _ => ?_
  refine (emits_runList hlist.reads).bind fun value hvalue => ?_
  refine (emits_compare .eq hcounter.reads htimes.reads).bind fun isLast hisLast => ?_
  refine (emits_passOutcome hvalue hsaved ?_).bind fun _ _ => ?_
  · rintro _ _ _ ⟨⟩
    exact ⟨hisLast, hresult, hexit⟩
  refine (emits_countPass hcounter hone).bind fun _ _ => ?_
  refine .close [] hhead hexit ?_
  refine (emits_setRepcount hsaved.reads).bind fun _ _ => ?_
  exact .pure hresult

theorem emits_forever (ha : s.Reads a .datum) :
    s.Emits (Emit.forever who node a) (s.Is · .datum) := by
  intro P
  refine (emits_runnable ha).bind fun list hlist => ?_
  refine (emits_call .repcount (passes_nil trivial) rfl).bind fun saved hsaved => ?_
  refine (emits_freshReg .real).bind fun counter hcounter => ?_
  refine (emits_real 1.0).bind fun one hone => ?_
  refine (emits_move hcounter hone.reads).bind fun _ _ => ?_
  refine .label fun head hhead => ?_
  refine .close [] hhead hhead ?_
  refine (emits_setRepcount hcounter.reads).bind fun _ _ => ?_
  refine (emits_runList hlist.reads).bind fun value hvalue => ?_
  refine (emits_passOutcome hvalue hsaved (by simp)).bind fun _ _ => ?_
  refine (emits_countPass hcounter hone).bind fun _ _ => ?_
  refine .label fun after hafter => ?_
  refine .close [] hhead hafter ?_
  exact emits_const node P

theorem emits_runOther {no : Option Reg} (hno : ∀ r, no = some r → s.Reads r .datum) :
    s.Emits (Emit.runOther node no) (s.Is · .datum) := by
  cases no with
  | none => exact emits_const node
  | some r => exact emits_runList (hno r rfl)

/-- There may be a second list. -/
theorem emits_runnables {no : Option Reg} (hno : ∀ r, no = some r → s.Reads r .datum) :
    s.Emits (no.mapM (Emit.runnable who)) fun no' => ∀ r, no' = some r → s.Reads r .datum := by
  cases no with
  | none => exact .pure fun _ h => by cases h
  | some r =>
    intro P
    rw [Option.mapM_some, map_eq_pure_bind]
    refine (emits_runnable (hno r rfl)).bind fun list hlist => .pure ?_
    rintro _ ⟨⟩
    exact hlist.reads

theorem emits_conditional {ty : Ty} {no : Option Reg} (hknown : a.index < s.known)
    (ha : s.Is a ty) (hty : ty ≠ .real) (hb : s.Reads b .datum)
    (hno : ∀ r, no = some r → s.Reads r .datum) :
    s.Emits (Emit.conditional who node a b no) (s.Is · .datum) := by
  intro P
  refine (emits_condition hknown ha hty).bind fun cond hcond => ?_
  refine (emits_runnable hb).bind fun yes hyes => ?_
  refine (emits_runnables hno).bind fun no hno => ?_
  refine (emits_freshReg .datum).bind fun result hresult => ?_
  refine .label fun thenLabel hthen => .label fun elseLabel helse => .label fun merge hmerge => ?_
  refine .close [merge, elseLabel] ⟨hcond.reads, hthen, helse⟩ hthen ?_
  refine (emits_runList hyes.reads).bind fun value hvalue => ?_
  refine (triple_deliver [merge] hresult hvalue.reads hmerge helse).bind fun _ _ => ?_
  refine (emits_runOther hno).bind fun value hvalue => ?_
  exact (triple_deliver [] hresult hvalue.reads hmerge hmerge).bind fun _ _ => .pure hresult

theorem emits_test {ty : Ty} (hknown : a.index < s.known) (ha : s.Is a ty) (hty : ty ≠ .real) :
    s.Emits (Emit.test who node a) (s.Is · .datum) :=
  fun P => (emits_condition hknown ha hty).bind fun _ hcond =>
    (emits_perform .setTest (passes_one hcond.reads ⟨rfl, trivial⟩)).bind fun _ _ =>
      emits_const node P

theorem emits_testedAs (wanted : Bool) : s.Emits (Emit.testedAs wanted) (s.Is · .truth) := by
  intro P
  refine (emits_call .testedState (passes_nil trivial) rfl).bind fun state hstate => ?_
  cases wanted with
  | true => exact .pure hstate
  | false => exact emits_not hstate.reads P

theorem emits_ifTested (wanted : Bool) (ha : s.Reads a .datum) :
    s.Emits (Emit.ifTested wanted who node a) (s.Is · .datum) := by
  intro P
  refine (emits_runnable ha).bind fun list hlist => ?_
  refine (emits_call .isTested (passes_nil trivial) rfl).bind fun tested htested => ?_
  refine (emits_not htested.reads).bind fun untested huntested => ?_
  refine (emits_returnWhen huntested.reads fun P => ?_).bind fun _ _ => ?_
  · exact (emits_const who).bind fun name hname =>
      emits_call .errNoTest (passes_one hname.reads ⟨rfl, trivial⟩) rfl P
  refine (emits_testedAs wanted).bind fun cond hcond => ?_
  refine emits_ownResult.bind fun result hresult => ?_
  refine .label fun run hrun => .label fun merge hmerge => ?_
  refine .close [merge] ⟨hcond.reads, hrun, hmerge⟩ hrun ?_
  refine (emits_runList hlist.reads).bind fun value hvalue => ?_
  exact (triple_deliver [] hresult hvalue.reads hmerge hmerge).bind fun _ _ => .pure hresult

theorem emits_catching (ha : s.Reads a .datum) (hb : s.Reads b .datum) :
    s.Emits (Emit.catching who node a b) (s.Is · .datum) := by
  intro P
  refine (emits_runnable hb).bind fun list hlist => ?_
  refine (emits_call .beginCatch (passes_nil trivial) rfl).bind fun stash hstash => ?_
  refine (emits_runList hlist.reads).bind fun result hresult => ?_
  refine (emits_const node).bind fun self hself => ?_
  refine (emits_call .endCatch ⟨[.datum, .datum, .datum, .datum], .cons hstash.reads
    (.cons ha (.cons hself.reads (.cons hresult.reads .nil))), rfl, rfl, rfl, rfl, trivial⟩
    rfl).bind fun out hout => ?_
  refine (emits_passToken hout).bind fun _ _ => ?_
  exact .pure hout

end

end LogoEngine.Scope
