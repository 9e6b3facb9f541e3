import LogoEngine.Proofs.Lower.Nodes
import Mathlib.Logic.Relation

/-!
# Code of parses

The code of a parse: groups one after the other, where a group that starts with `TAG` starts a
block that lives whatever came before it, then the table of contents, which leads to all of these.

Main statements: lowering a built parse succeeds and gives code that is well formed wherever it
stands and typed wherever it can be reached; if the parse fits, the code passes the structural
check.
-/

namespace LogoEngine

/-! ### Well-formed routines -/

/-- The registers the end of a block reads. -/
def Exit.regs : Exit → List Reg
  | ret value => [value]
  | branch cond _ _ => [cond]
  | jump _ | unreachable => []

namespace Routine

/-- Control can go from one label to another. -/
def Flows (code : Routine) (l l' : Label) : Prop :=
  ∃ b ∈ code.blocks, b.label = l ∧ l' ∈ b.exit.targets

/-- The labels that control can get to from the entry. -/
def Reachable (code : Routine) : Label → Prop :=
  Relation.ReflTransGen code.Flows code.entry

/-- Code that is well formed everywhere, and typed as the structural check demands wherever it can
be reached. -/
structure WellFormed (code : Routine) : Prop where
  labels : code.labels.Nodup
  entry : code.entry ∈ code.labels
  targets : ∀ b ∈ code.blocks, ∀ t ∈ b.exit.targets, t ∈ code.labels
  ends : ∀ b ∈ code.blocks, b.exit ≠ .unreachable
  slots : ∀ b ∈ code.blocks, ∀ dst index, .const dst index ∈ b.body → index < code.constants.size
  distinct : code.constants.toList.Nodup
  regs : ∀ b ∈ code.blocks, ∀ i ∈ b.body, ∀ r ∈ i.regs, r.index < code.registerCount
  exitRegs : ∀ b ∈ code.blocks, ∀ r ∈ b.exit.regs, r.index < code.registerCount
  returns : ∀ b ∈ code.blocks, ∀ value, b.exit = .ret value → code.typeOf value = .ok .datum
  counts : ∀ b ∈ code.blocks, ∀ dst helper args, .call dst helper args ∈ b.body →
    helper.signature.allows args.length = true
  typed : ∀ b ∈ code.blocks, code.Reachable b.label →
    (∀ i ∈ b.body, code.checkInstr i = .ok ()) ∧ code.checkExit b.label b.exit = .ok ()

end Routine

/-! ### Nodes of a group -/

section

variable {h : Heap} {d : Draft}

/-- The nodes of a group, each of which leaves data. -/
theorem lowerNodes_spec {nodes : List Node} (hnodes : ∀ node ∈ nodes, node.Built h)
    (last : Option Ref) (result : Option Reg)
    (hresult : ∀ r, result = some r → Declares d.types r .datum) :
    Lower.Spec (lowerNodes h last result nodes) d (∀ node ∈ nodes, node.fits h = true)
      (fun _ => True) (fun _ => True)
      fun types result => ∀ r, result = some r → Declares types r .datum := by
  induction nodes generalizing d result with
  | nil => exact .pure hresult fun _ _ h => h
  | cons node nodes ih =>
    rw [List.forall_mem_cons] at hnodes
    simp only [List.forall_mem_cons]
    rw [lowerNodes]
    generalize hrequest : (if last = some node.ref then Request.datumOrNothing else .nothing) =
      request
    have hdatum : ∀ produced ty, request.castTy produced ty = .datum := by
      intro produced ty
      subst hrequest
      split <;> rfl
    refine ((hnodes.1.lowers request d).mono And.left (fun _ _ h => h) fun _ _ h => h).bind
      fun raw d₁ _ hraw => ?_
    refine (Lower.Spec.lift (Emit.cast_spec hraw)).bind fun r d₂ _ hr => ?_
    rw [hdatum] at hr
    refine (ih hnodes.2 (some r) ?_).mono And.right (fun _ _ _ => trivial) fun _ _ h => h
    rintro _ ⟨⟩
    exact hr

end

/-! ### Groups -/

/-- One draft becomes another with the starts of numbered blocks alive, to which new ones may
come. -/
def LeadsTo (final : Draft) (strict : Prop) (d : Draft) (starts : List Label) (d' : Draft)
    (starts' : List Label) : Prop :=
  ∀ marked P, (strict → ∀ l, marked l) → d.Sound final d.nextLabel marked P →
    (∀ l ∈ starts, marked l ∧ l.index < d.nextLabel) →
    ∃ marked', (strict → ∀ l, marked' l) ∧ d'.Sound final d'.nextLabel marked' P ∧
      ∀ l ∈ starts', marked' l ∧ l.index < d'.nextLabel

section

variable {final d d₁ d₂ : Draft} {strict ψ : Prop} {starts starts₁ starts₂ : List Label}

theorem LeadsTo.refl : LeadsTo final strict d starts d starts :=
  fun marked _ hstrict hsound hstarts => ⟨marked, hstrict, hsound, hstarts⟩

theorem LeadsTo.trans (h : LeadsTo final strict d starts d₁ starts₁)
    (h' : LeadsTo final strict d₁ starts₁ d₂ starts₂) :
    LeadsTo final strict d starts d₂ starts₂ := by
  intro marked P hstrict hsound hstarts
  obtain ⟨marked₁, hstrict₁, hsound₁, hstarts₁⟩ := h marked P hstrict hsound hstarts
  exact h' marked₁ P hstrict₁ hsound₁ hstarts₁

theorem Leads.leadsTo (h : Leads final strict d True d₁ ψ) (hle : d.nextLabel ≤ d₁.nextLabel) :
    LeadsTo final strict d starts d₁ starts := by
  intro marked P hstrict hsound hstarts
  obtain ⟨marked₁, hstrict₁, hagree, hsound₁, -, -⟩ := h marked P hstrict hsound fun _ => trivial
  refine ⟨marked₁, hstrict₁, hsound₁, fun l hl => ?_⟩
  obtain ⟨hmarked, hlt⟩ := hstarts l hl
  exact ⟨(hagree l hlt).mpr hmarked, Nat.lt_of_lt_of_le hlt hle⟩

/-- Labels of `TAG` are no code. -/
theorem leadsTo_noteTags {h : Heap} {line : Option Ref} {block : Nat} {tags : List Node} :
    LeadsTo final strict d starts (noteTags h line block tags d).2 starts :=
  fun marked _ hstrict hsound hstarts =>
    ⟨marked, hstrict, ⟨hsound.body, hsound.exit, hsound.opened, hsound.labels, hsound.distinct⟩,
      hstarts⟩

/-- A new numbered block, which lives. -/
theorem leadsTo_start :
    LeadsTo final strict d starts
      (Emit.endBlock (.jump ⟨d.nextLabel⟩) ⟨d.nextLabel⟩ (Emit.freshLabel d).2).2
      (starts ++ [⟨d.nextLabel⟩]) := by
  intro marked P hstrict hsound hstarts
  have hnew : extendFrom d.nextLabel marked True ⟨d.nextLabel⟩ :=
    (extendFrom_new (Nat.le_refl _)).mpr trivial
  refine ⟨extendFrom d.nextLabel marked True, fun h => extendFrom_all (hstrict h) trivial,
    hsound.next ⟨trivial, ?_, by simp, ?_⟩, fun l hl => ?_⟩
  · simp [Exit.targets]
  · simpa [Exit.targets] using fun _ => hnew
  · rcases List.mem_append.mp hl with hl | hl
    · obtain ⟨hmarked, hlt⟩ := hstarts l hl
      exact ⟨(extendFrom_old hlt).mpr hmarked, Nat.lt_succ_of_lt hlt⟩
    · rw [List.mem_singleton.mp hl]
      exact ⟨hnew, Nat.lt_succ_self _⟩

end

instance (h : Heap) (line : Option Ref) (block : Nat) (tags : List Node) :
    Emit.Grows (noteTags h line block tags) :=
  ⟨fun hw => ⟨hw.types, hw.constants, hw.labels, hw.blocks, hw.opened⟩⟩

/-- The nodes of a group that have code. -/
def statements (group : List Node) : List Node :=
  group.dropWhile Node.isTag

section

variable {h : Heap} {d : Draft}

theorem statements_of_not_tag {group : List Node}
    (hgroup : ¬ (group.head?.map Node.isTag).getD false = true) : statements group = group := by
  cases group with
  | nil => rfl
  | cons node rest =>
    have hnode : node.isTag = false := by simpa using hgroup
    simp [statements, hnode]

/-- Groups one after the other. -/
theorem lowerGroups_spec {groups : List (List Node)}
    (hgroups : ∀ group ∈ groups, ∀ node ∈ group, node.Built h) (line last : Option Ref)
    (result : Option Reg) (hresult : ∀ r, result = some r → Declares d.types r .datum)
    (starts : List Label) :
    ∃ result' starts' d', (lowerGroups h line last result starts groups).run d =
        (.ok (result', starts'), d') ∧ d.Below d' ∧ starts <+: starts' ∧
      (∀ r, result' = some r → Declares d'.types r .datum) ∧
      ∀ final strict, (strict → ∀ group ∈ groups, ∀ node ∈ statements group, node.fits h = true) →
        d'.Within final → LeadsTo final strict d starts d' starts' := by
  -- on the groups: the draft, the value and the starts so far change from one to the next
  induction groups generalizing d result starts with
  | nil => exact ⟨result, starts, d, rfl, .refl, List.prefix_rfl, hresult, fun _ _ _ _ => .refl⟩
  | cons group groups ih =>
    rw [List.forall_mem_cons] at hgroups
    simp only [List.forall_mem_cons]
    rw [lowerGroups]
    by_cases htag : (group.head?.map Node.isTag).getD false = true
    · rw [if_pos htag]
      have hstatements : ∀ node ∈ statements group, node.Built h :=
        fun node hnode => hgroups.1 node ((List.dropWhile_sublist _).subset hnode)
      have hle₁ : d.Below (noteTags h line starts.length (group.takeWhile Node.isTag) d).2 :=
        .of_emit _
      generalize hd₁ : (noteTags h line starts.length (group.takeWhile Node.isTag) d).2 = d₁ at hle₁
      have hle₂ : d₁.Below
          (Emit.endBlock (.jump ⟨d₁.nextLabel⟩) ⟨d₁.nextLabel⟩ (Emit.freshLabel d₁).2).2 :=
        (Draft.Below.of_emit Emit.freshLabel).trans (.of_emit (Emit.endBlock _ _))
      generalize hd₂ : (Emit.endBlock (.jump ⟨d₁.nextLabel⟩) ⟨d₁.nextLabel⟩
        (Emit.freshLabel d₁).2).2 = d₂ at hle₂
      obtain ⟨r, d₃, hrun₃, hle₃, hr, hleads₃⟩ := lowerNodes_spec (d := d₂) hstatements
        last none (by simp)
      obtain ⟨result', starts', d₄, hrun₄, hle₄, hbegins, hresult', hleads₄⟩ :=
        ih hgroups.2 r hr (starts ++ [⟨d₁.nextLabel⟩])
      refine ⟨result', starts', d₄, ?_, hle₁.trans (hle₂.trans (hle₃.trans hle₄)),
        (List.prefix_append _ _).trans hbegins, hresult', fun final strict hκ hw => ?_⟩
      · subst hd₂ hd₁
        refine (Lower.run_bind (m := liftM (noteTags h line starts.length _)) rfl).trans ?_
        refine (Lower.run_bind (m := liftM Emit.freshLabel) rfl).trans ?_
        refine (Lower.run_bind (m := liftM (Emit.endBlock _ _)) rfl).trans ?_
        exact (Lower.run_bind hrun₃).trans hrun₄
      · refine LeadsTo.trans (hd₁ ▸ leadsTo_noteTags) (.trans (hd₂ ▸ leadsTo_start) (.trans ?_
          (hleads₄ final strict (fun hs => (hκ hs).2) hw)))
        exact (hleads₃ final strict (fun hs => (hκ hs).1) (hle₄ _ hw)).leadsTo hle₃.nextLabel_le
    · rw [if_neg htag, statements_of_not_tag htag]
      obtain ⟨r, d₁, hrun₁, hle₁, hr, hleads₁⟩ := lowerNodes_spec hgroups.1 last result hresult
      obtain ⟨result', starts', d₂, hrun₂, hle₂, hbegins, hresult', hleads₂⟩ :=
        ih hgroups.2 r hr starts
      refine ⟨result', starts', d₂, (Lower.run_bind hrun₁).trans hrun₂, hle₁.trans hle₂, hbegins,
        hresult', fun final strict hκ hw => ?_⟩
      refine LeadsTo.trans ?_ (hleads₂ final strict (fun hs => (hκ hs).2) hw)
      exact (hleads₁ final strict (fun hs => (hκ hs).1) (hle₂ _ hw)).leadsTo hle₁.nextLabel_le

end

/-! ### The table of contents -/

/-- A draft without an open block, seen from the finished draft, with some labels pending. -/
structure Draft.Finished (d final : Draft) (limit : Nat) (marked : Label → Prop)
    (pending : List Label) : Prop where
  body : ∀ b ∈ d.blocks, ∀ i ∈ b.body,
    i.Good final.types final.constants.size (marked b.label)
  exit : ∀ b ∈ d.blocks, b.exit.Good final.types limit marked (marked b.label)
  labels : (pending ++ d.blocks.toList.map Block.label).Perm
    ((List.range d.nextLabel).map Label.mk)
  distinct : d.constants.toList.Nodup

/-- A draft without an open block to which only blocks came. -/
structure Draft.Followed (d d' : Draft) : Prop where
  types : d.types.toList <+: d'.types.toList
  constants : d'.constants = d.constants
  labels : d.nextLabel ≤ d'.nextLabel
  blocks : ∀ b ∈ d.blocks, b ∈ d'.blocks

namespace Draft.Followed

variable {d d₁ d₂ : Draft}

theorem refl : d.Followed d := ⟨List.prefix_rfl, rfl, Nat.le_refl _, fun _ h => h⟩

theorem trans (h : d.Followed d₁) (h' : d₁.Followed d₂) : d.Followed d₂ :=
  ⟨h.types.trans h'.types, h'.constants.trans h.constants, h.labels.trans h'.labels,
    fun b hb => h'.blocks b (h.blocks b hb)⟩

/-- A draft whose last block was closed lies within what follows. -/
theorem within {r : Reg} (h : (closeRoutine r d).2.Followed d₁) : d.Within d₁ :=
  ⟨h.types, by rw [h.constants]; exact List.prefix_rfl, h.labels,
    fun b hb => h.blocks b (Array.mem_push.mpr (.inl hb)),
    _, h.blocks _ (Array.mem_push.mpr (.inr rfl)), rfl, List.prefix_rfl⟩

end Draft.Followed

section

variable {final d : Draft} {limit : Nat} {marked : Label → Prop} {P : List Label}

theorem Draft.Sound.finished {r : Reg} (h : d.Sound final limit marked P)
    (hr : Declares final.types r .datum) : (closeRoutine r d).2.Finished final limit marked P := by
  refine ⟨?_, ?_, ?_, h.distinct⟩
  · intro b hb
    rcases Array.mem_push.mp hb with hb | rfl
    · exact h.body b hb
    · exact fun i hi => h.opened i (Array.mem_toList_iff.mp hi)
  · intro b hb
    rcases Array.mem_push.mp hb with hb | rfl
    · exact h.exit b hb
    · exact ⟨hr, by simp [Exit.targets], by simp, by simp [Exit.targets]⟩
  · show (P ++ (d.blocks.push _).toList.map Block.label).Perm _
    refine List.Perm.trans ?_ h.labels
    simp only [Array.toList_push, List.map_append, List.map_cons, List.map_nil]
    exact (List.perm_append_singleton _ _).append_left P

/-- The draft after one test of the table of contents. -/
def withTest (d : Draft) (id : Nat) (entry start next : Label) : Draft :=
  { d with
    label := entry
    types := d.types.push .truth
    blocks := d.blocks.push ⟨entry, [.atBlock ⟨d.types.size⟩ id], .branch ⟨d.types.size⟩ start next⟩
    body := #[] }

theorem contentsBlocks_cons (first : Label) (id : Nat) (entry start : Label)
    (rest : List (Label × Label)) (hbody : d.body = #[]) :
    contentsBlocks first id ((entry, start) :: rest) d =
      contentsBlocks first (id + 1) rest
        (withTest d id entry start ((rest.head?.map Prod.fst).getD first)) := by
  obtain ⟨blocks, label, body, nextLabel, types, constants, tags⟩ := d
  dsimp only at hbody
  subst hbody
  rfl

theorem followed_withTest (d : Draft) (id : Nat) (entry start next : Label) :
    d.Followed (withTest d id entry start next) :=
  ⟨by simp [withTest], rfl, Nat.le_refl _, fun _ hb => Array.mem_push.mpr (.inl hb)⟩

theorem followed_contentsBlocks (first : Label) (id : Nat) (tests : List (Label × Label))
    (hbody : d.body = #[]) : d.Followed (contentsBlocks first id tests d).2 := by
  induction tests generalizing id d with
  | nil => exact .refl
  | cons test tests ih =>
    obtain ⟨entry, start⟩ := test
    rw [contentsBlocks_cons first id entry start tests hbody]
    exact (followed_withTest d id entry start _).trans (ih (id + 1) rfl)

/-- One test keeps drafts good if its targets live. -/
theorem Draft.Finished.withTest {id : Nat} {entry start next : Label}
    (h : d.Finished final limit marked (entry :: P))
    (htypes : (withTest d id entry start next).types.toList <+: final.types.toList)
    (htargets : ∀ l ∈ [start, next], marked l ∧ l.index < limit) :
    (LogoEngine.withTest d id entry start next).Finished final limit marked P := by
  have hcond : Declares final.types ⟨d.types.size⟩ .truth := by
    have hhere : Declares (LogoEngine.withTest d id entry start next).types ⟨d.types.size⟩
        .truth := by
      simp [Declares, LogoEngine.withTest]
    exact hhere.mono htypes
  refine ⟨?_, ?_, ?_, h.distinct⟩
  · intro b hb
    rcases Array.mem_push.mp hb with hb | rfl
    · exact h.body b hb
    · intro i hi
      obtain rfl := List.mem_singleton.mp hi
      have htyped : Instr.Typed final.types final.constants.size (.atBlock ⟨d.types.size⟩ id) :=
        hcond
      exact ⟨htyped.formed, fun _ => htyped⟩
  · intro b hb
    rcases Array.mem_push.mp hb with hb | rfl
    · exact h.exit b hb
    · refine ⟨hcond.lt_size, fun t ht => (htargets t ht).2, ?_, fun _ t ht => (htargets t ht).1⟩
      rintro _ _ _ _ ⟨⟩
      exact hcond
  · refine List.Perm.trans ?_ h.labels
    simp only [LogoEngine.withTest, Array.toList_push, List.map_append, List.map_cons, List.map_nil]
    exact (List.Perm.append_left P (List.perm_append_singleton _ _)).trans List.perm_middle

/-- The tests keep drafts good if all starts and the first block live. -/
theorem Draft.Finished.contentsBlocks {first : Label} {id : Nat} {tests : List (Label × Label)}
    (h : d.Finished final limit marked (tests.map Prod.fst ++ P)) (hbody : d.body = #[])
    (hfinal : (contentsBlocks first id tests d).2.types.toList <+: final.types.toList)
    (hfirst : marked first ∧ first.index < limit)
    (htests : ∀ test ∈ tests, (marked test.1 ∧ test.1.index < limit) ∧
      (marked test.2 ∧ test.2.index < limit)) :
    (LogoEngine.contentsBlocks first id tests d).2.Finished final limit marked P := by
  induction tests generalizing id d with
  | nil => exact h
  | cons test tests ih =>
    obtain ⟨entry, start⟩ := test
    rw [List.forall_mem_cons] at htests
    rw [contentsBlocks_cons first id entry start tests hbody] at hfinal ⊢
    have htypes := (followed_contentsBlocks first (id + 1) tests rfl).types.trans hfinal
    refine ih (Draft.Finished.withTest h htypes ?_) rfl hfinal htests.2
    intro l hl
    rcases List.mem_cons.mp hl with rfl | hl
    · exact htests.1.2
    · rw [List.mem_singleton.mp hl]
      cases tests with
      | nil => exact hfirst
      | cons test tests => exact (htests.2 test List.mem_cons_self).1

theorem freshLabels_run (starts : List Label) (d : Draft) :
    (starts.mapM fun _ => Emit.freshLabel) d =
      ((List.range' d.nextLabel starts.length).map Label.mk,
        { d with nextLabel := d.nextLabel + starts.length }) := by
  induction starts generalizing d with
  | nil => rfl
  | cons start starts ih =>
    rw [List.mapM_cons]
    show (let rest := (starts.mapM fun _ => Emit.freshLabel) (Emit.freshLabel d).2;
      (Label.mk d.nextLabel :: rest.1, rest.2)) = _
    rw [ih]
    simp only [Emit.freshLabel, List.length_cons, List.range'_succ, List.map_cons]
    rw [Nat.add_right_comm, Nat.add_assoc]

/-- New labels are pending, and live. -/
theorem Draft.Finished.pend (h : d.Finished final d.nextLabel marked P) (count : Nat) :
    Draft.Finished { d with nextLabel := d.nextLabel + count } final (d.nextLabel + count)
      (extendFrom d.nextLabel marked True)
      ((List.range' d.nextLabel count).map Label.mk ++ P) := by
  have hblock : ∀ b ∈ d.blocks,
      (extendFrom d.nextLabel marked True b.label ↔ marked b.label) := by
    intro b hb
    have hmem : b.label ∈ P ++ d.blocks.toList.map Block.label :=
      List.mem_append_right _ (List.mem_map.mpr ⟨b, by simpa using hb, rfl⟩)
    obtain ⟨n, hn, heq⟩ := List.mem_map.mp (h.labels.mem_iff.mp hmem)
    exact extendFrom_old (heq ▸ List.mem_range.mp hn)
  refine ⟨fun b hb i hi => ?_, fun b hb => ?_, ?_, h.distinct⟩
  · exact ⟨(h.body b hb i hi).1, fun hl => (h.body b hb i hi).2 ((hblock b hb).mp hl)⟩
  · have hexit := h.exit b hb
    refine ⟨hexit.formed, fun t ht => Nat.lt_add_right _ (hexit.below t ht),
      fun hl => hexit.cond ((hblock b hb).mp hl), fun hl t ht => ?_⟩
    exact (extendFrom_old (hexit.below t ht)).mpr (hexit.leads ((hblock b hb).mp hl) t ht)
  · show (_ ++ P ++ d.blocks.toList.map Block.label).Perm
      ((List.range (d.nextLabel + count)).map Label.mk)
    rw [List.append_assoc, List.range_add, List.map_append, List.range'_eq_map_range]
    exact (List.Perm.append_left _ h.labels).trans List.perm_append_comm

/-- The table of contents has one test for each start. -/
theorem tableOfContents_run (starts : List Label) (d : Draft) :
    tableOfContents starts d =
      (((List.range' d.nextLabel starts.length).map Label.mk).head?.getD ⟨0⟩,
        (contentsBlocks ⟨0⟩ 1 (((List.range' d.nextLabel starts.length).map Label.mk).zip starts)
          { d with nextLabel := d.nextLabel + starts.length }).2) := by
  show (let r := (starts.mapM fun _ => Emit.freshLabel) d;
    (r.1.head?.getD ⟨0⟩, (contentsBlocks ⟨0⟩ 1 (r.1.zip starts) r.2).2)) = _
  rw [freshLabels_run]

/-- **The table of contents** leads to the starts, and to the first block otherwise. -/
theorem exists_tableOfContents {starts : List Label} (hstarts : starts ≠ [])
    (hbody : d.body = #[]) :
    ∃ entry d', tableOfContents starts d = (entry, d') ∧ d.Followed d' ∧
      ∀ (final : Draft) (strict : Prop), d'.types.toList <+: final.types.toList →
        ∀ marked : Label → Prop, (strict → ∀ l, marked l) → d.Finished final d.nextLabel marked [] →
        (∀ l ∈ ⟨0⟩ :: starts, marked l ∧ l.index < d.nextLabel) →
        ∃ marked', (strict → ∀ l, marked' l) ∧ d'.Finished final d'.nextLabel marked' [] ∧
          marked' entry ∧ entry.index < d'.nextLabel := by
  let entries := (List.range' d.nextLabel starts.length).map Label.mk
  let d₁ : Draft := { d with nextLabel := d.nextLabel + starts.length }
  have hrun : tableOfContents starts d =
      (entries.head?.getD ⟨0⟩, (contentsBlocks ⟨0⟩ 1 (entries.zip starts) d₁).2) :=
    tableOfContents_run starts d
  have hfollowed := followed_contentsBlocks ⟨0⟩ 1 (entries.zip starts) (d := d₁) hbody
  have hlabels : ∀ first id tests (d : Draft), d.body = #[] →
      (contentsBlocks first id tests d).2.nextLabel = d.nextLabel := by
    intro first id tests
    induction tests generalizing id with
    | nil => exact fun _ _ => rfl
    | cons test tests ih =>
      intro d hbody
      obtain ⟨entry, start⟩ := test
      rw [contentsBlocks_cons first id entry start tests hbody, ih _ _ rfl]
      rfl
  refine ⟨_, _, hrun, ⟨hfollowed.types, hfollowed.constants, (Nat.le_add_right _ _).trans
    hfollowed.labels, hfollowed.blocks⟩, fun final strict hfinal marked hstrict hdone hlive => ?_⟩
  -- the entries are the new labels, and all else the table leads to is older
  have hentries : ∀ l ∈ entries, extendFrom d.nextLabel marked True l ∧
      l.index < d.nextLabel + starts.length := by
    intro l hl
    obtain ⟨n, hn, rfl⟩ := List.mem_map.mp hl
    obtain ⟨hle, hlt⟩ := List.mem_range'_1.mp hn
    exact ⟨(extendFrom_new hle).mpr trivial, hlt⟩
  have hold : ∀ l ∈ ⟨0⟩ :: starts, extendFrom d.nextLabel marked True l ∧
      l.index < d.nextLabel + starts.length := by
    intro l hl
    obtain ⟨hmarked, hlt⟩ := hlive l hl
    exact ⟨(extendFrom_old hlt).mpr hmarked, Nat.lt_add_right _ hlt⟩
  refine ⟨extendFrom d.nextLabel marked True, fun h => extendFrom_all (hstrict h) trivial, ?_, ?_⟩
  · rw [hlabels _ _ _ d₁ hbody]
    refine Draft.Finished.contentsBlocks ?_ hbody hfinal (hold _ List.mem_cons_self) ?_
    · rw [List.map_fst_zip (by simp [entries])]
      exact hdone.pend starts.length
    · intro test htest
      obtain ⟨hentry, hstart⟩ := List.of_mem_zip htest
      exact ⟨hentries _ hentry, hold _ (List.mem_cons_of_mem _ hstart)⟩
  · rw [hlabels _ _ _ d₁ hbody]
    cases starts with
    | nil => exact absurd rfl hstarts
    | cons start starts => exact hentries ⟨d.nextLabel⟩ (by simp [entries, List.range'_succ])

end

/-! ### Parses -/

/-- Whether the code of a parse passes the structural check: whether its statements fit. -/
def Parse.fits (h : Heap) (parse : Parse) : Bool :=
  parse.all fun group => (statements group).all (·.fits h)

/-- The groups that have code: the tags that lead the first one only name the start. -/
def Parse.groups (parse : Parse) : List (List Node) :=
  match parse.filter fun group => !group.isEmpty with
  | [] => []
  | first :: rest => if (statements first).isEmpty then rest else statements first :: rest

/-- The labels that lead a group, which stand for a numbered block. -/
def leadingLabels (h : Heap) (line : Option Ref) (block : Nat) (group : List Node) : Labels :=
  (group.takeWhile Node.isTag).filterMap fun node =>
    (node.tagKey? h).map fun key => (key, ⟨block, line.getD node.ref⟩)

/-- The labels of the start of a parse. -/
def Parse.startLabels (h : Heap) (line : Option Ref) (parse : Parse) : Labels :=
  match parse.filter fun group => !group.isEmpty with
  | [] => []
  | first :: _ => leadingLabels h line 0 first

/-- The code of groups, from the start of a routine. -/
def lowerFrom (h : Heap) (line : Option Ref) (groups : List (List Node)) : Lower Label := do
  let (result, starts) ← lowerGroups h line
    ((groups.getLast?.bind List.getLast?).map Node.ref) none [⟨0⟩] groups
  let result ←
    match result with
    | some r => pure r
    | none => Emit.nothing
  closeRoutine result
  if 1 < starts.length then tableOfContents (starts.drop 1) else return ⟨0⟩

section

variable {h : Heap} {parse : Parse}

theorem lowerParse_run (h : Heap) (line : Option Ref) (parse : Parse) :
    ∃ tags, tags = parse.startLabels h line ∧
      (lowerParse h line parse).run {} = (lowerFrom h line parse.groups).run { tags } := by
  unfold lowerParse Parse.groups Parse.startLabels
  cases parse.filter fun group => !group.isEmpty with
  | nil => exact ⟨[], rfl, rfl⟩
  | cons first rest =>
    exact ⟨_, rfl, (Lower.run_bind (m := liftM (noteTags h line 0 _)) rfl).trans rfl⟩

/-- Every node with code stands in the parse. -/
theorem Parse.mem_of_mem_groups {group : List Node} (hgroup : group ∈ parse.groups) {node : Node}
    (hnode : node ∈ group) : ∃ group' ∈ parse, node ∈ group' ∧
      (node ∈ statements group → node ∈ statements group') := by
  unfold Parse.groups at hgroup
  split at hgroup
  · cases hgroup
  · next first rest hfilter =>
    have hparse : ∀ g ∈ first :: rest, g ∈ parse := by
      intro g hg
      rw [← hfilter] at hg
      exact (List.mem_filter.mp hg).1
    have hrest : group ∈ rest → ∃ group' ∈ parse, node ∈ group' ∧
        (node ∈ statements group → node ∈ statements group') :=
      fun hmem => ⟨group, hparse group (List.mem_cons_of_mem _ hmem), hnode, id⟩
    split at hgroup
    · exact hrest hgroup
    · rcases List.mem_cons.mp hgroup with rfl | hmem
      · exact ⟨first, hparse first List.mem_cons_self, (List.dropWhile_sublist _).subset hnode,
          fun _ => hnode⟩
      · exact hrest hmem

private theorem sound_start (final : Draft) (tags : Labels) (marked : Label → Prop) :
    Draft.Sound { tags } final 1 marked [] :=
  ⟨by simp, by simp, by simp, by simp [List.range_succ], by simp⟩

/-- **Lowering a built parse** succeeds with code that is good from its entry on, throughout if
the parse fits. -/
theorem exists_lowerFrom (hbuilt : parse.Built h) (line : Option Ref) (tags : Labels) :
    ∃ entry d, (lowerFrom h line parse.groups).run { tags } = (.ok entry, d) ∧
      (∃ result d₁, (lowerGroups h line
          ((parse.groups.getLast?.bind List.getLast?).map Node.ref) none [⟨0⟩]
          parse.groups).run { tags } = (.ok result, d₁) ∧ d₁.Within d) ∧
      ∀ strict : Prop, (strict → parse.fits h = true) →
        ∃ marked : Label → Prop, (strict → ∀ l, marked l) ∧ d.Finished d d.nextLabel marked [] ∧
          marked entry ∧ entry.index < d.nextLabel := by
  have hgroups : ∀ group ∈ parse.groups, ∀ node ∈ group, node.Built h := by
    intro group hgroup node hnode
    obtain ⟨group', hgroup', hnode', -⟩ := Parse.mem_of_mem_groups hgroup hnode
    exact hbuilt group' hgroup' node hnode'
  have hfits : parse.fits h = true →
      ∀ group ∈ parse.groups, ∀ node ∈ statements group, node.fits h = true := by
    intro hfits group hgroup node hnode
    obtain ⟨group', hgroup', -, hnode'⟩ := Parse.mem_of_mem_groups hgroup
      ((List.dropWhile_sublist _).subset hnode)
    exact List.all_eq_true.mp (List.all_eq_true.mp hfits group' hgroup') node (hnode' hnode)
  obtain ⟨result, starts, d₁, hrun₁, hle₁, hbegins, hresult, hleads⟩ :=
    lowerGroups_spec (d := { tags }) hgroups line
      ((parse.groups.getLast?.bind List.getLast?).map Node.ref) none (by simp) [⟨0⟩]
  -- the register that is returned
  obtain ⟨r, d₂, hrun₂, hle₂, hr, hleads₂⟩ : ∃ r d₂,
      ExceptT.run (m := Emit) (match result with
        | some r => pure r
        | none => liftM Emit.nothing) d₁ = (.ok r, d₂) ∧ d₁.Below d₂ ∧
      Declares d₂.types r .datum ∧ ∀ final strict, d₂.Within final →
        LeadsTo final strict d₁ starts d₂ starts := by
    cases result with
    | some r => exact ⟨r, d₁, rfl, .refl, hresult r rfl, fun _ _ _ => .refl⟩
    | none =>
      have hspec := const_spec (d := d₁) (φ := fun _ => True) Ref.nothing
      exact ⟨_, _, rfl, .of_emit Emit.nothing, hspec.result, fun final strict hw =>
        (hspec.leads final strict hw).leadsTo (Emit.Grows.nextLabel_le _ _)⟩
  -- the draft with its last block closed, seen from any draft that follows it
  have hclosed : ∀ final strict, (closeRoutine r d₂).2.Followed final →
      (strict → parse.fits h = true) → ∃ marked, (strict → ∀ l, marked l) ∧
        (closeRoutine r d₂).2.Finished final d₂.nextLabel marked [] ∧
        ∀ l ∈ starts, marked l ∧ l.index < d₂.nextLabel := by
    intro final strict hfollowed hstrict
    have hw := hfollowed.within
    obtain ⟨marked, hall, hsound, hstarts⟩ :=
      ((hleads final strict (fun hs => hfits (hstrict hs)) (hle₂ _ hw)).trans
        (hleads₂ final strict hw)) (fun _ => True) [] (fun _ _ => trivial)
        (sound_start final tags _) (by simp)
    exact ⟨marked, hall, hsound.finished (hr.mono hw.types), hstarts⟩
  obtain ⟨rest, rfl⟩ := hbegins
  have hrun : (lowerFrom h line parse.groups).run { tags } =
      (if 1 < ([Label.mk 0] ++ rest).length
        then liftM (tableOfContents (([Label.mk 0] ++ rest).drop 1)) else pure ⟨0⟩ :
        Lower Label).run (closeRoutine r d₂).2 := by
    unfold lowerFrom
    refine (Lower.run_bind hrun₁).trans ?_
    cases result
    all_goals
      exact (Lower.run_bind hrun₂).trans (Lower.run_bind (m := liftM (closeRoutine r)) rfl)
  rw [hrun]
  cases rest with
  | nil =>
    refine ⟨⟨0⟩, _, rfl, ⟨_, d₁, hrun₁, hle₂ _ (Draft.Followed.refl).within⟩,
      fun strict hstrict => ?_⟩
    obtain ⟨marked, hall, hdone, hstarts⟩ := hclosed _ strict .refl hstrict
    obtain ⟨hmarked, hlt⟩ := hstarts ⟨0⟩ (by simp)
    exact ⟨marked, hall, hdone, hmarked, hlt⟩
  | cons start rest =>
    obtain ⟨entry, d₃, hrun₃, hfollowed, hcontents⟩ :=
      exists_tableOfContents (d := (closeRoutine r d₂).2) (List.cons_ne_nil start rest) rfl
    refine ⟨entry, d₃, ?_, ⟨_, d₁, hrun₁, hle₂ _ hfollowed.within⟩, fun strict hstrict => ?_⟩
    · rw [if_pos (by simp)]
      exact congrArg (fun p => (Except.ok p.1, p.2)) hrun₃
    obtain ⟨marked, hall, hdone, hstarts⟩ := hclosed _ strict hfollowed hstrict
    exact hcontents d₃ strict List.prefix_rfl marked hall hdone hstarts

/-- The routine of a draft. -/
def Draft.routine (d : Draft) (name : String) (entry : Label) : Routine :=
  ⟨name, d.blocks.toList, entry, d.types, d.constants⟩

/-- **Lowering a built parse** gives a routine whose blocks are good from the entry on, throughout
if the parse fits. -/
theorem exists_lowerUnit (hbuilt : parse.Built h) (name : String) (line : Option Ref) :
    ∃ (entry : Label) (d : Draft),
      (lowerUnit h name line parse).1 = .ok (d.routine name entry) ∧
      (∃ last tags result d₁, (lowerGroups h line last none [⟨0⟩] parse.groups).run { tags } =
        (.ok result, d₁) ∧ d₁.Within d) ∧
      ∀ strict : Prop, (strict → parse.fits h = true) →
        ∃ marked : Label → Prop, (strict → ∀ l, marked l) ∧ d.Finished d d.nextLabel marked [] ∧
          marked entry ∧ entry.index < d.nextLabel := by
  obtain ⟨tags, -, htags⟩ := lowerParse_run h line parse
  obtain ⟨entry, d, hrun, ⟨result, d₁, hgroups, hwithin⟩, hgood⟩ :=
    exists_lowerFrom hbuilt line tags
  refine ⟨entry, d, ?_, ⟨_, tags, result, d₁, hgroups, hwithin⟩, hgood⟩
  unfold lowerUnit
  rw [htags, hrun]
  rfl

end

/-! ### Checked code -/

namespace Draft.Finished

variable {d : Draft} {marked : Label → Prop} {name : String} {entry : Label}

theorem labels_perm (h : d.Finished d d.nextLabel marked []) :
    (d.routine name entry).labels.Perm ((List.range d.nextLabel).map Label.mk) :=
  h.labels

/-- All labels below the limit have a block. -/
theorem mem_labels (h : d.Finished d d.nextLabel marked []) {l : Label}
    (hl : l.index < d.nextLabel) : l ∈ (d.routine name entry).labels :=
  h.labels_perm.mem_iff.mpr (List.mem_map.mpr ⟨l.index, List.mem_range.mpr hl, rfl⟩)

theorem labels_nodup (h : d.Finished d d.nextLabel marked []) :
    (d.routine name entry).labels.Nodup :=
  h.labels_perm.nodup_iff.mpr (List.nodup_range.map fun _ _ => by simp)

/-- Blocks that live are typed. -/
theorem typed (h : d.Finished d d.nextLabel marked []) {b : Block} (hb : b ∈ d.blocks)
    (hlive : marked b.label) : b.Typed (d.routine name entry) := by
  refine ⟨fun i hi => (h.body b hb i hi).2 hlive, ?_⟩
  have hexit := h.exit b hb
  have htargets : ∀ t ∈ b.exit.targets, t ∈ (d.routine name entry).labels :=
    fun t ht => h.mem_labels (hexit.below t ht)
  cases hend : b.exit with
  | ret value =>
    have hformed := hexit.formed
    rw [hend] at hformed
    exact hformed
  | jump target => exact htargets target (by simp [hend, Exit.targets])
  | branch cond yes no =>
    exact ⟨hexit.cond hlive cond yes no hend, htargets yes (by simp [hend, Exit.targets]),
      htargets no (by simp [hend, Exit.targets])⟩
  | unreachable => trivial

/-- What can be reached from an entry that lives, lives. -/
theorem marked_of_reachable (h : d.Finished d d.nextLabel marked []) (hentry : marked entry)
    {l : Label} (hl : (d.routine name entry).Reachable l) : marked l := by
  induction hl with
  | refl => exact hentry
  | tail _ hstep ih =>
    obtain ⟨b, hb, rfl, ht⟩ := hstep
    exact (h.exit b (Array.mem_toList_iff.mp hb)).leads ih _ ht

/-- The routine of a good draft is well formed. -/
theorem wellFormed (h : d.Finished d d.nextLabel marked []) (hentry : marked entry)
    (hlt : entry.index < d.nextLabel) : (d.routine name entry).WellFormed where
  labels := h.labels_nodup
  entry := h.mem_labels hlt
  targets b hb t ht := h.mem_labels ((h.exit b (Array.mem_toList_iff.mp hb)).below t ht)
  ends b hb heq := by
    have hformed := (h.exit b (Array.mem_toList_iff.mp hb)).formed
    rw [heq] at hformed
    exact hformed
  slots b hb dst index hi := ((h.body b (Array.mem_toList_iff.mp hb) _ hi).1).slot dst index rfl
  distinct := h.distinct
  regs b hb i hi := ((h.body b (Array.mem_toList_iff.mp hb) i hi).1).regs
  exitRegs b hb r hr := by
    have hformed := (h.exit b (Array.mem_toList_iff.mp hb)).formed
    cases hend : b.exit <;> rw [hend] at hr hformed <;> simp [Exit.regs] at hr
    · rw [hr]
      exact Declares.lt_size hformed
    · rw [hr]
      exact hformed
  returns b hb value heq := by
    have hformed := (h.exit b (Array.mem_toList_iff.mp hb)).formed
    rw [heq] at hformed
    exact (Routine.typeOf_eq_ok_iff _).mpr hformed
  counts b hb dst helper args hi :=
    ((h.body b (Array.mem_toList_iff.mp hb) _ hi).1).count dst helper args rfl
  typed b hb hl := by
    have htyped : b.Typed (d.routine name entry) :=
      h.typed (Array.mem_toList_iff.mp hb) (h.marked_of_reachable hentry hl)
    exact ⟨fun i hi => (Routine.checkInstr_eq_ok_iff _).mpr (htyped.body i hi),
      (Routine.checkExit_eq_ok_iff _).mpr htyped.exit⟩

/-- The routine of a draft that is good throughout passes the structural check. -/
theorem check_eq_ok (h : d.Finished d d.nextLabel marked []) (hall : ∀ l, marked l)
    (hlt : entry.index < d.nextLabel) : (d.routine name entry).check = .ok () := by
  refine (Routine.check_eq_ok_iff _).mpr ⟨h.labels_nodup, h.mem_labels hlt, fun b hb => ?_⟩
  exact h.typed (Array.mem_toList_iff.mp hb) (hall _)

end Draft.Finished

/-- **Code of built parses is well formed** wherever it stands, and typed wherever it can be
reached. -/
theorem exists_wellFormed_lowerUnit {h : Heap} {parse : Parse} (hbuilt : parse.Built h)
    (name : String) (line : Option Ref) :
    ∃ code, (lowerUnit h name line parse).1 = .ok code ∧ code.WellFormed := by
  obtain ⟨entry, d, hcode, -, hgood⟩ := exists_lowerUnit hbuilt name line
  obtain ⟨marked, -, hdone, hentry, hlt⟩ := hgood False False.elim
  exact ⟨_, hcode, hdone.wellFormed hentry hlt⟩

/-- The words `print`, `sum` and `hello`. -/
def wordsOfSum : Heap where
  objects := #[.nothing, .word (.text "print"), .word (.text "sum"), .word (.text "hello")]

/-- The statement `sum (print "hello) "hello`, where a number is asked of `print`. -/
def sumOfPrint : Parse :=
  let hello : Node := .call ⟨⟨4⟩, 1, ⟨3⟩, .literal, .datum⟩ [.datum ⟨3⟩]
  let print : Node := .call ⟨⟨5⟩, 2, ⟨1⟩, .printing, .nothing⟩ [hello]
  [[.call ⟨⟨6⟩, 3, ⟨2⟩, .sum, .real⟩ [print, hello]]]

theorem built_sumOfPrint : sumOfPrint.Built wordsOfSum := by
  decide +kernel

theorem wellFormed_sumOfPrint : sumOfPrint.Built wordsOfSum ∧
    ∃ code, (lowerUnit wordsOfSum "list#1" none sumOfPrint).1 = .ok code ∧ code.WellFormed :=
  ⟨built_sumOfPrint, exists_wellFormed_lowerUnit built_sumOfPrint "list#1" none⟩

end LogoEngine
