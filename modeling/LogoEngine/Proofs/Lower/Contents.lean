import LogoEngine.Proofs.Lower.Execution

/-!
# The table of contents, and whole parses

A run of the routine of a parse starts with the table of contents: the tests lead to the numbered
block that is asked for, and to the start of the routine if there is none. No test touches what the
code of the statements reads.

Main statement: `exists_runCode_executes`.
-/

namespace LogoEngine

/-! ### The end of a routine -/

/-- The register that is returned at the end of a routine. -/
def finalReg : Option Reg → Emit Reg
  | some r => return r
  | none => Emit.nothing

instance (result : Option Reg) : Emit.Grows (finalReg result) := by
  cases result <;> unfold finalReg <;> infer_instance

section

variable {s : Stage} {h : Heap} {valued : Bool} {limit : Nat} {pins : Pins} {d : Draft}
  {found : Array Value} {w : World}

/-- After the last statement the routine returns. -/
theorem Stage.proceeds_end {result : Option Reg}
    (hfollowed : (closeRoutine (finalReg result d).1 (finalReg result d).2).2.Followed s.final)
    (hresult : valued = false → result = none) :
    s.Proceeds h valued limit d result [] := by
  intro pins w found r w' hwaits _
  have hblock := hfollowed.blocks _ (Array.mem_push.mpr (.inr rfl))
  have hruns : s.Runs (finalReg result) d (s.here d w found) fun reg d' o =>
      ∃ regs, o = s.here d' w regs ∧ (readReg regs reg).asDatum = resultOf found result := by
    cases result with
    | some reg => exact .pure ⟨found, rfl, rfl⟩
    | none =>
      exact Stage.runs_const hwaits.size fun reg d' regs' _ hreg =>
        ⟨regs', rfl, by rw [hreg.reads]; rfl⟩
  obtain ⟨o, hleads, regs, rfl, hread⟩ := hruns hfollowed.within
  have hreturns : s.Leads (s.here d w found) (s.exitTo (.ret (finalReg result d).1) w regs) :=
    hleads.trans (Stage.leads_exitTo hblock)
  rw [hreturns.returned_iff, Finishes, Stage.exitTo, Stage.leads_returned_returned_iff, hread]
  cases valued with
  | true => rfl
  | false => rw [hresult rfl]; rfl

/-! ### The tests -/

/-- The label that the table of contents leads to. -/
def contentsTarget (first : Label) (id : Nat) (starts : List Label) (block : Int) : Label :=
  (if (id : Int) ≤ block then starts[(block - id).toNat]? else none).getD first

theorem contentsTarget_cons (first start : Label) (id : Nat) (starts : List Label) (block : Int) :
    contentsTarget first id (start :: starts) block =
      if block = id then start else contentsTarget first (id + 1) starts block := by
  unfold contentsTarget
  by_cases heq : block = id
  · simp [heq]
  rw [if_neg heq]
  by_cases hle : (id : Int) ≤ block
  · obtain ⟨n, hn⟩ : ∃ n : Nat, block - id = n + 1 := ⟨(block - id - 1).toNat, by omega⟩
    have hn' : block - ((id + 1 : Nat) : Int) = n := by push_cast; omega
    rw [if_pos hle, if_pos (by omega), hn, hn']
    rfl
  · rw [if_neg hle, if_neg (by omega)]

/-- A run at a test goes where the test says. -/
theorem Stage.leads_test {entry start next : Label} {id : Nat}
    (hblock : ⟨entry, [.atBlock ⟨d.types.size⟩ id], .branch ⟨d.types.size⟩ start next⟩ ∈
      s.final.blocks) (hlt : d.types.size < found.size) :
    s.Leads (s.at_ entry w found)
      (s.at_ (if s.block = id then start else next) w
        (writeReg found ⟨d.types.size⟩ (.truth (s.block == id)))) := by
  obtain ⟨l, hl, hbody, hexit⟩ := s.blocks _ hblock
  have hat : s.at_ entry w found = .running ⟨w, found, s.place entry, l.body⟩ := by
    simp only [Stage.at_, Machine.enter, hl, Option.map_some, Option.getD_some]
  rw [hat, hbody]
  refine .head ⟨_, rfl, rfl⟩ (.single ⟨_, rfl, ?_⟩)
  simp only [Machine.step, Machine.leave, hl, hexit, Exit.placed]
  rw [readReg_writeReg_self (r := ⟨d.types.size⟩) hlt]
  by_cases heq : s.block = id <;> simp [heq, Value.asTruth, Stage.at_]

/-- **The table of contents** leads to the block that is asked for. -/
theorem Stage.leads_contents {first : Label} {id : Nat} {tests : List (Label × Label)}
    (hbody : d.body = #[]) (hlimit : limit ≤ d.types.size)
    (hfollowed : (contentsBlocks first id tests d).2.Followed s.final)
    (hwaits : s.Waits limit pins {} found) :
    ∃ found', s.Waits limit pins {} found' ∧
      s.Leads (s.at_ ((tests.head?.map Prod.fst).getD first) w found)
        (s.at_ (contentsTarget first id (tests.map Prod.snd) s.block) w found') := by
  -- on the tests: one that fails leads to the next entry, and writes only registers nobody reads
  induction tests generalizing id d found with
  | nil => exact ⟨found, hwaits, by simp [contentsTarget]; exact .refl⟩
  | cons test tests ih =>
    obtain ⟨entry, start⟩ := test
    rw [contentsBlocks_cons first id entry start tests hbody] at hfollowed
    generalize hnext : (tests.head?.map Prod.fst).getD first = next at hfollowed ih
    have hafter := (followed_contentsBlocks first (id + 1) tests
      (d := withTest d id entry start next) rfl).trans hfollowed
    have hblock := hafter.blocks _ (Array.mem_push.mpr (.inr rfl))
    have hlt : d.types.size < found.size := by
      have hle := hafter.types.length_le
      simp only [withTest, Array.length_toList, Array.size_push] at hle
      rw [hwaits.size]
      omega
    have htest := s.leads_test (w := w) hblock hlt
    have hwaits' : s.Waits limit pins {} _ :=
      hwaits.write (Nat.le_refl _) (Nat.zero_le _) (.inr hlimit) (s.block == id)
    simp only [List.head?_cons, Option.map_some, Option.getD_some, List.map_cons,
      contentsTarget_cons]
    by_cases heq : s.block = id
    · rw [if_pos heq] at htest ⊢
      exact ⟨_, hwaits', htest⟩
    · rw [if_neg heq] at htest ⊢
      obtain ⟨found', hfound', hleads⟩ := @ih (withTest d id entry start next) _ (id + 1)
        rfl (by simp [withTest]; omega) hfollowed hwaits'
      exact ⟨found', hfound', htest.trans hleads⟩

end

/-! ### The groups of a parse -/

section

variable {parse : Parse} {groups : List (List Node)}

/-- Empty groups have no statements. -/
theorem flatMap_statements_filter (groups : List (List Node)) :
    (groups.filter fun group => !group.isEmpty).flatMap statements = groups.flatMap statements := by
  induction groups with
  | nil => rfl
  | cons group rest ih =>
    cases group with
    | nil => simpa [statements] using ih
    | cons node group => simp [ih]

theorem Parse.flatMap_groups (parse : Parse) :
    parse.groups.flatMap statements = parse.flatMap statements := by
  rw [← flatMap_statements_filter parse]
  unfold groups
  cases parse.filter fun group => !group.isEmpty with
  | nil => rfl
  | cons first rest =>
    dsimp only
    split
    · next hempty => simp [List.isEmpty_iff.mp hempty]
    · simp [statements_statements]

/-- What follows the labels of a group starts with no label. -/
theorem tagged_statements (group : List Node) : tagged (statements group) = false := by
  induction group with
  | nil => rfl
  | cons node rest ih =>
    by_cases hnode : node.isTag = true
    · rw [statements, List.dropWhile_cons_of_pos hnode]
      exact ih
    · rw [statements, List.dropWhile_cons_of_neg hnode]
      simpa [tagged] using hnode

theorem Parse.numbered_groups (parse : Parse) :
    numbered parse.groups = numbered (parse.filter fun group => !group.isEmpty).tail := by
  unfold groups
  cases parse.filter fun group => !group.isEmpty with
  | nil => rfl
  | cons first rest =>
    dsimp only
    split
    · rfl
    · rw [numbered_cons, if_neg (by simp [tagged_statements])]
      rfl

theorem Parse.valued_eq (parse : Parse) : parse.valued =
    (parse.groups.getLast?.map fun group => !(statements group).isEmpty).getD false := by
  unfold valued groups
  cases parse.filter fun group => !group.isEmpty with
  | nil => rfl
  | cons first rest =>
    dsimp only
    cases rest with
    | nil => split <;> simp_all [statements_statements]
    | cons next rest => split <;> simp

theorem Parse.flatten_groups_sublist (parse : Parse) :
    parse.groups.flatten.Sublist parse.flatten := by
  have hfilter : (parse.filter fun group => !group.isEmpty).flatten = parse.flatten :=
    List.flatten_filter_not_isEmpty
  rw [← hfilter]
  unfold groups
  cases parse.filter fun group => !group.isEmpty with
  | nil => exact .refl _
  | cons first rest =>
    dsimp only
    split
    · exact List.sublist_append_right _ _
    · exact (List.dropWhile_sublist _).append (.refl _)

/-- The labels and the statements of groups are all their nodes. -/
theorem perm_labels_statements (groups : List (List Node)) :
    (groups.flatMap (·.takeWhile Node.isTag) ++ groups.flatMap statements).Perm groups.flatten := by
  refine (List.flatMap_append_perm _ _ _).trans ?_
  rw [← List.flatMap_id]
  refine List.Perm.of_eq (List.flatMap_congr fun group _ => ?_)
  exact List.takeWhile_append_dropWhile

/-- The last statement of a group is its last node. -/
theorem getLast?_statements {group : List Node} (hne : statements group ≠ []) :
    group.getLast? = (statements group).getLast? := by
  have hsplit : group.takeWhile Node.isTag ++ statements group = group :=
    List.takeWhile_append_dropWhile
  conv_lhs => rw [← hsplit]
  exact List.getLast?_append_of_ne_nil _ hne

/-- The last node of the last group is the last statement, or there is a label in its place. -/
theorem isLast_groups (hdistinct : (groups.flatten.map Node.ref).Nodup) :
    IsLast ((groups.getLast?.bind List.getLast?).map Node.ref)
      ((groups.getLast?.map fun group => !(statements group).isEmpty).getD false)
      (groups.flatMap statements) := by
  have hparts := ((perm_labels_statements groups).map Node.ref).nodup_iff.mpr hdistinct
  rw [List.map_append, List.nodup_append'] at hparts
  obtain ⟨-, hstatements, hdisjoint⟩ := hparts
  intro before node after heq
  have hnode : node.ref ∈ (groups.flatMap statements).map Node.ref := by
    rw [heq]
    simp
  cases hlast : groups.getLast? with
  | none =>
    rw [List.getLast?_eq_none_iff.mp hlast] at hnode
    simp at hnode
  | some group =>
    obtain ⟨init, hinit⟩ := List.getLast?_eq_some_iff.mp hlast
    simp only [Option.map_some, Option.getD_some, Option.bind_some]
    by_cases hempty : statements group = []
    · -- the group ends with a label, which is no statement
      simp only [hempty, List.isEmpty_nil, Bool.not_true, Bool.false_eq_true, and_false, iff_false]
      intro hsame
      have hlabel : node.ref ∈ (groups.flatMap (·.takeWhile Node.isTag)).map Node.ref := by
        obtain ⟨label, hlabel, href⟩ := Option.map_eq_some_iff.mp hsame
        have hall : group.takeWhile Node.isTag = group := by
          have hsplit : group.takeWhile Node.isTag ++ statements group = group :=
            List.takeWhile_append_dropWhile
          rwa [hempty, List.append_nil] at hsplit
        rw [← href]
        refine List.mem_map_of_mem (List.mem_flatMap.mpr ⟨group, ?_, ?_⟩)
        · rw [hinit]
          simp
        · rw [hall]
          exact List.mem_of_getLast? hlabel
      exact hdisjoint hlabel hnode
    · have hfinal : (groups.flatMap statements).getLast? = group.getLast? := by
        rw [getLast?_statements hempty, hinit, List.flatMap_append, List.flatMap_singleton]
        exact List.getLast?_append_of_ne_nil _ hempty
      have hvalued : (!(statements group).isEmpty) = true := by simpa using hempty
      rw [hvalued, ← hfinal, heq]
      simp only [and_true]
      constructor
      · intro hsame
        by_contra hafter
        rw [List.getLast?_append_of_ne_nil _ (by simp), List.getLast?_cons_of_ne_nil hafter] at hsame
        obtain ⟨other, hother, href⟩ := Option.map_eq_some_iff.mp hsame
        rw [heq, List.map_append, List.map_cons] at hstatements
        have hnotin := (List.nodup_cons.mp (List.nodup_append.mp hstatements).2.1).1
        exact hnotin (href ▸ List.mem_map_of_mem (List.mem_of_getLast? hother))
      · rintro rfl
        simp

end

/-! ### Whole parses -/

section

variable {h : Heap} {parse : Parse}

theorem Parse.ne_nil_of_mem_groups {group : List Node} (hgroup : group ∈ parse.groups) :
    group ≠ [] := by
  have hfilter : ∀ g ∈ parse.filter (fun group => !group.isEmpty), g ≠ [] := by
    intro g hg
    simpa using (List.mem_filter.mp hg).2
  unfold groups at hgroup
  generalize parse.filter (fun group => !group.isEmpty) = filtered at hfilter hgroup
  cases filtered with
  | nil => cases hgroup
  | cons first rest =>
    rw [List.forall_mem_cons] at hfilter
    dsimp only at hgroup
    split at hgroup
    · exact hfilter.2 group hgroup
    · next hne =>
      rcases List.mem_cons.mp hgroup with rfl | hmem
      · simpa using hne
      · exact hfilter.2 group hmem

/-- A parse whose last groups have no statements has no value. -/
theorem Parse.valued_of_suffix {part : List (List Node)} (hpart : part <:+ parse.groups)
    (hne : part ≠ []) (hempty : part.flatMap statements = []) : parse.valued = false := by
  obtain ⟨before, hbefore⟩ := hpart
  have hlast := List.getLast?_eq_some_getLast hne
  rw [Parse.valued_eq, ← hbefore, List.getLast?_append_of_ne_nil _ hne, hlast]
  have hgroup := List.flatMap_eq_nil_iff.mp hempty _ (List.getLast_mem hne)
  simp [hgroup]

/-- A parse that has no statements has no value. -/
theorem Parse.valued_of_empty (hempty : parse.flatMap statements = []) : parse.valued = false := by
  by_cases hne : parse.groups = []
  · rw [Parse.valued_eq, hne]
    rfl
  · exact Parse.valued_of_suffix List.suffix_rfl hne (parse.flatMap_groups.trans hempty)

theorem Parse.statementsFrom_subset (parse : Parse) (block : Int) :
    parse.statementsFrom block ⊆ parse.flatten := by
  have hstatements : ∀ groups : List (List Node), groups ⊆ parse →
      groups.flatMap statements ⊆ parse.flatten := by
    intro groups hgroups node hnode
    obtain ⟨group, hgroup, hnode⟩ := List.mem_flatMap.mp hnode
    exact List.mem_flatten.mpr ⟨group, hgroups hgroup, (List.dropWhile_sublist _).subset hnode⟩
  unfold statementsFrom
  refine hstatements _ ?_
  split
  · cases hpart : (numbered (parse.filter fun group => !group.isEmpty).tail)[(block - 1).toNat]? with
    | none => exact List.Subset.refl _
    | some part =>
      have hsuffix := (List.mem_tails _ _).mp (List.mem_filter.mp (List.mem_of_getElem? hpart)).1
      exact fun group hgroup =>
        (List.mem_filter.mp (List.mem_of_mem_tail (hsuffix.subset hgroup))).1
  · exact List.Subset.refl _

/-- What a run from a label does, by the number of the block. -/
theorem enters_contentsTarget {s : Stage} {limit : Nat} {labels : List Label}
    (hlabels : List.Forall₂ (fun l part => s.Enters h parse.valued limit l
      (part.flatMap statements)) labels (numbered parse.groups))
    (hfirst : s.Enters h parse.valued limit ⟨0⟩ (parse.flatMap statements)) :
    s.Enters h parse.valued limit (contentsTarget ⟨0⟩ 1 labels s.block)
      (parse.statementsFrom s.block) := by
  unfold contentsTarget Parse.statementsFrom
  rw [← Parse.numbered_groups]
  by_cases hle : 1 ≤ s.block
  · simp only [hle, Nat.cast_one, if_true]
    generalize (s.block - 1).toNat = i
    have hlength := hlabels.length_eq
    by_cases hi : i < labels.length
    · have hpart := hlabels.get hi (hlength ▸ hi)
      rw [List.getElem?_eq_getElem hi, List.getElem?_eq_getElem (hlength ▸ hi)]
      exact hpart
    · rw [List.getElem?_eq_none (by omega), List.getElem?_eq_none (by omega)]
      exact hfirst
  · simpa [hle] using hfirst

/-- **The code of a parse** leads from its entry to the block that is asked for, and does what the
statements from there on do. -/
theorem exists_lowerFrom_enters (hbuilt : parse.Built h)
    (hdistinct : (parse.flatten.map Node.ref).Nodup) (line : Option Ref) (tags : Labels) :
    ∃ entry d limit, (lowerFrom h line parse.groups).run { tags } = (.ok entry, d) ∧
      ∀ (s : Stage) [s.re.Changes], s.Proper → s.final = d →
        s.Enters h parse.valued limit entry (parse.statementsFrom s.block) := by
  have hgroups : ∀ group ∈ parse.groups, ∀ node ∈ group, node.Built h := by
    intro group hgroup node hnode
    obtain ⟨group', hgroup', hnode', -⟩ := Parse.mem_of_mem_groups hgroup hnode
    exact hbuilt group' hgroup' node hnode'
  have hlast := isLast_groups (hdistinct.sublist (parse.flatten_groups_sublist.map Node.ref))
  rw [← Parse.valued_eq] at hlast
  generalize hlast' : (parse.groups.getLast?.bind List.getLast?).map Node.ref = last at hlast
  obtain ⟨result, labels, d₁, hrun₁, hle₁, hsame, hnone, hrest⟩ :=
    @exists_lowerGroups h last _ hgroups line none [⟨0⟩] { tags }
  have hresult : parse.valued = false → result = none := by
    intro hvalued
    cases hgroup : parse.groups.getLast? with
    | none => exact hsame (List.getLast?_eq_none_iff.mp hgroup)
    | some group =>
      rw [Parse.valued_eq, hgroup] at hvalued
      have hempty : statements group = [] := by simpa using hvalued
      exact hnone group hgroup (Parse.ne_nil_of_mem_groups (List.mem_of_getLast? hgroup)) hempty
  -- what the code does from the starts of its numbered blocks on
  have hstarts : ∀ (s : Stage) [s.re.Changes], s.Proper →
      (closeRoutine (finalReg result d₁).1 (finalReg result d₁).2).2.Followed s.final →
      s.Enters h parse.valued (finalReg result d₁).2.types.size
        (contentsTarget ⟨0⟩ 1 labels s.block) (parse.statementsFrom s.block) := by
    intro s _ hproper hfollowed
    have hwithin := hfollowed.within
    have hle₂ : d₁.Below (finalReg result d₁).2 := .of_emit _
    obtain ⟨hproceeds, hlabels⟩ := hrest s parse.valued (finalReg result d₁).2.types.size hproper
      (hle₂ _ hwithin) hle₂.types_size_le hlast (fun _ => Parse.valued_of_suffix)
      (Stage.proceeds_end hfollowed hresult)
    refine enters_contentsTarget hlabels ?_
    intro pins w found r w' hwaits hholds
    rw [Parse.flatMap_groups] at hproceeds
    have hhere : s.at_ ⟨0⟩ w found = s.here { tags } w found := rfl
    rw [hhere, hproceeds (hwaits.grow List.prefix_rfl) hholds,
      finishes_of_not_valued Parse.valued_of_empty]
  let closed := (closeRoutine (finalReg result d₁).1 (finalReg result d₁).2).2
  have hrun : (lowerFrom h line parse.groups).run { tags } =
      (if 1 < ([Label.mk 0] ++ labels).length
        then liftM (tableOfContents (([Label.mk 0] ++ labels).drop 1)) else pure ⟨0⟩ :
        Lower Label).run closed := by
    unfold lowerFrom
    rw [hlast']
    refine (Lower.run_bind hrun₁).trans ?_
    cases result with
    | none => exact (Lower.run_bind (m := liftM Emit.nothing) rfl).trans rfl
    | some r => exact (Lower.run_bind (m := pure r) rfl).trans rfl
  by_cases hlabels : labels = []
  · subst hlabels
    refine ⟨⟨0⟩, closed, (finalReg result d₁).2.types.size, hrun.trans rfl, fun s _ hproper hfinal => ?_⟩
    have henters := hstarts s hproper (hfinal ▸ .refl)
    simpa [contentsTarget] using henters
  · let entries := (List.range' closed.nextLabel labels.length).map Label.mk
    let opened : Draft := { closed with nextLabel := closed.nextLabel + labels.length }
    refine ⟨entries.head?.getD ⟨0⟩, (contentsBlocks ⟨0⟩ 1 (entries.zip labels) opened).2,
      (finalReg result d₁).2.types.size, ?_, fun s _ hproper hfinal => ?_⟩
    · rw [hrun, if_pos (by simpa [List.length_pos_iff] using hlabels)]
      exact congrArg (fun p => (Except.ok p.1, p.2)) (tableOfContents_run labels closed)
    have hfollowed : (contentsBlocks ⟨0⟩ 1 (entries.zip labels) opened).2.Followed s.final :=
      hfinal ▸ .refl
    have hbefore : closed.Followed opened :=
      ⟨List.prefix_rfl, rfl, Nat.le_add_right _ _, fun _ hb => hb⟩
    have henters := hstarts s hproper
      (hbefore.trans ((followed_contentsBlocks ⟨0⟩ 1 (entries.zip labels) rfl).trans hfollowed))
    have hlength : entries.length = labels.length := by simp [entries]
    intro pins w found r w' hwaits hholds
    obtain ⟨found', hwaits', hleads⟩ := s.leads_contents (d := opened) (w := w) rfl
      (Nat.le_refl _) hfollowed hwaits
    have hentry : ((entries.zip labels).head?.map Prod.fst).getD ⟨0⟩ = entries.head?.getD ⟨0⟩ := by
      rw [← List.head?_map, List.map_fst_zip (by omega)]
    rw [hentry, List.map_snd_zip (by omega)] at hleads
    rw [hleads.returned_iff]
    exact henters hwaits' hholds

/-! ### Labels on their own -/

private theorem Primitive.table_tag : ∀ row ∈ Primitive.table, row.generator = .tag →
    row.returns = .nothing ∧ row.minInputs = 1 ∧ row.maxInputs = some 1 := by
  decide +kernel

/-- The code of a label is the label itself. -/
theorem lowerStatement_tag {head : NodeHead} {label : Node}
    (hbuilt : (Node.call head [label]).Built h) (htag : head.generator = .tag) (d : Draft) :
    (lowerStatement h (.call head [label])).run d =
      (.ok (Emit.const head.ref d).1, (Emit.const head.ref d).2) := by
  obtain ⟨hreturns, hfault⟩ : head.returns = .nothing ∧ arityFault? h head 1 = none := by
    cases hbuilt with
    | primitive name row hname hrow hgenerator hreturns hinputs =>
      obtain ⟨hnothing, hmin, hmax⟩ :=
        Primitive.table_tag row (Primitive.mem_of_find? hrow) (hgenerator ▸ htag)
      refine ⟨hreturns.trans hnothing, arityFault?_eq_none hname hrow hgenerator hmin.le ?_⟩
      rintro bound hbound
      rw [hmax] at hbound
      exact (Option.some.inj hbound).le
    | literal value hgenerator => rw [hgenerator] at htag; cases htag
    | valueOf subject hgenerator => rw [hgenerator] at htag; cases htag
    | procedure hgenerator => rw [hgenerator] at htag; cases htag
  rw [lowerStatement_of_open hbuilt (.inl hreturns)]
  have hnode : lowerNode h (.call head [label]) .datumOrNothing = liftM (Emit.const head.ref) := by
    have hcount : arityFault? h head [label].length = none := hfault
    have hspecial : head.generator.isSpecial = false := by
      rw [htag]
      rfl
    have hcode := lowerNode_generic hcount hspecial .datumOrNothing
    rw [hcode]
    obtain ⟨ref, id, name, generator, returns⟩ := head
    obtain rfl : generator = .tag := htag
    rfl
  rw [hnode]
  rfl

/-- **A label does nothing**: it is done without a value, in the same state. -/
theorem Node.ends_tag {head : NodeHead} {label : Node} (hbuilt : (Node.call head [label]).Built h)
    (htag : head.generator = .tag) (re : Reenter) (pins : Pins) (w : World) (ending : Ending) :
    (Node.call head [label]).Ends re h pins w ending →
      ∃ regs, ending = .done head.ref regs w := by
  intro hends
  obtain ⟨code, t, hends⟩ := hends.exists_stage hbuilt
  have hrun := t.solo.run
  rw [lowerStatement_tag hbuilt htag, Prod.mk.injEq, Except.ok.injEq] at hrun
  obtain ⟨hreg, hdraft⟩ := hrun
  have hsize : (initialRegisters code.types).size = t.stage.final.types.size := by
    rw [← t.stage.types, t.code_eq]
    simp [initialRegisters]
  have hruns : t.stage.Runs (Emit.const head.ref) {} (t.stage.here {} w (initialRegisters code.types))
      fun r d o => ∃ regs, o = t.stage.here d w regs ∧ (readReg regs r).asDatum = head.ref :=
    Stage.runs_const hsize fun r d regs _ hr => ⟨regs, rfl, by rw [hr.reads]; rfl⟩
  obtain ⟨_, hleads, regs, rfl, hvalue⟩ := hruns (by rw [hdraft]; exact t.within)
  rw [hdraft] at hleads
  rw [hreg] at hvalue
  -- the run returns from there, and from nowhere else
  have hlast := t.step_here w regs
  cases ending with
  | left r w' =>
    obtain ⟨c, hleads', hstep, hposition⟩ := t.ends_left_iff.mp hends
    rw [t.here_draft] at hleads hlast
    rw [← hleads.returns_once hleads' hlast hstep] at hposition
    exact absurd hposition (Nat.lt_irrefl _)
  | done value regs' w' =>
    obtain ⟨hleads', rfl⟩ := t.ends_done_iff.mp hends
    have hlast' := t.step_here w' regs'
    rw [t.here_draft] at hleads hlast hleads' hlast'
    cases hleads.returns_once hleads' hlast hlast'
    exact ⟨regs, by rw [hvalue]⟩

/-! ### Running a parse -/

theorem exists_runCode_iff (hbuilt : parse.Built h) (hdistinct : (parse.flatten.map Node.ref).Nodup)
    (name : String) (line : Option Ref) (backend : Backend) :
    ∃ routine code, (lowerUnit h name line parse).1 = .ok routine ∧
      routine.link backend = .ok code ∧
      ∀ (n : Nat) (pins : Pins) (block : Int) (w w' : World) (r : Ref), w.Holds parse.flatten →
        ((∃ fuel, runCode (engine n) fuel pins code block w = .ok (r, w')) ↔
          Executes (engine n) h parse.valued (.constants code.constants :: pins)
            (parse.statementsFrom block) w r w') := by
  obtain ⟨tags, -, htags⟩ := lowerParse_run h line parse
  obtain ⟨entry, d, limit, hrun, henters⟩ := exists_lowerFrom_enters hbuilt hdistinct line tags
  obtain ⟨entry', d', hrun', -, hgood⟩ := exists_lowerFrom hbuilt line tags
  rw [hrun] at hrun'
  cases hrun'
  obtain ⟨marked, -, hdone, hentry, hlt⟩ := hgood False False.elim
  have hwell : (d.routine name entry).WellFormed := hdone.wellFormed hentry hlt
  obtain ⟨code, hlink, hfollows⟩ :=
    (d.routine name entry).exists_link backend hwell.entry hwell.targets
  refine ⟨d.routine name entry, code, ?_, hlink, fun n pins block w w' r hholds => ?_⟩
  · unfold lowerUnit
    rw [htags, hrun]
    rfl
  -- the stage of the linked code, whose registers start out as `henters` wants them
  let s := hfollows.stage hwell.labels (engine n) pins block
  have hproper : s.Proper :=
    ⟨engine_steady n, fun c hc => Pins.mem_held_cons.mpr (.inl (Array.mem_toList_iff.mpr hc))⟩
  have hchanges : s.re.Changes := inferInstanceAs (engine n).Changes
  have hstart : s.at_ entry w (initialRegisters code.types) =
      .running (Machine.start code w) := by
    rw [Machine.start, Routine.Locates.eq_idxOf hwell.labels hfollows.entry]
    rfl
  have hreturns : Machine.Returns (engine n) (.constants code.constants :: pins) code block
      (Machine.start code w) r w' ↔
        s.Leads (s.at_ entry w (initialRegisters code.types)) (.returned r w') := by
    rw [hstart]
    refine ⟨?_, Stage.Leads.returns⟩
    rintro ⟨c, hreach, hstep⟩
    exact (Stage.leads_running_iff.mpr hreach).tail ⟨c, rfl, hstep⟩
  rw [Machine.exists_runCode_iff, hreturns]
  exact henters s hproper rfl (s.waits_initial limit)
    (hholds.mono (parse.statementsFrom_subset block))

/-- **A parse does what its statements do, one after the other**, from the start or from the
numbered block that is asked for. Labels among the statements do nothing. -/
theorem exists_runCode_executes (hbuilt : parse.Built h)
    (hdistinct : (parse.flatten.map Node.ref).Nodup) (name : String) (line : Option Ref)
    (backend : Backend) :
    ∃ routine code, (lowerUnit h name line parse).1 = .ok routine ∧
      routine.link backend = .ok code ∧
      ∀ (n : Nat) (pins : Pins) (block : Int) (w w' : World) (r : Ref), w.Holds parse.flatten →
        ((∃ fuel, runCode (engine n) fuel pins code block w = .ok (r, w')) ↔
          Executes (engine n) h parse.valued (.constants code.constants :: pins)
            (parse.statementsFrom block) w r w') ∧
        ∀ head label ending, .call head [label] ∈ parse.flatten → head.generator = .tag →
          (Node.call head [label]).Ends (engine n) h pins w ending →
          ∃ regs, ending = .done head.ref regs w := by
  obtain ⟨routine, code, hroutine, hlink, hruns⟩ :=
    exists_runCode_iff hbuilt hdistinct name line backend
  refine ⟨routine, code, hroutine, hlink, fun n pins block w w' r hholds =>
    ⟨hruns n pins block w w' r hholds, fun head label ending hmem htag hends => ?_⟩⟩
  obtain ⟨group, hgroup, hnode⟩ := List.mem_flatten.mp hmem
  exact Node.ends_tag (hbuilt group hgroup _ hnode) htag _ _ _ _ hends

/-- Code that a parse was lowered and linked to. -/
def Linked.Renders (code : Linked) (h : Heap) (parse : Parse) : Prop :=
  ∃ name line routine backend, (lowerUnit h name line parse).1 = .ok routine ∧
    routine.link backend = .ok code

/-- The code of a parse executes its statements. -/
theorem Linked.Renders.runCode_iff {code : Linked} (hcode : code.Renders h parse)
    (hbuilt : parse.Built h) (hdistinct : (parse.flatten.map Node.ref).Nodup) {n : Nat} {pins : Pins}
    {block : Int} {w w' : World} {r : Ref} (hholds : w.Holds parse.flatten) :
    (∃ fuel, runCode (engine n) fuel pins code block w = .ok (r, w')) ↔
      Executes (engine n) h parse.valued (.constants code.constants :: pins)
        (parse.statementsFrom block) w r w' := by
  obtain ⟨name, line, routine, backend, hroutine, hlink⟩ := hcode
  obtain ⟨routine', code', hroutine', hlink', hruns⟩ :=
    exists_runCode_iff hbuilt hdistinct name line backend
  rw [hroutine] at hroutine'
  cases hroutine'
  rw [hlink] at hlink'
  cases hlink'
  exact hruns n pins block w w' r hholds

end

/-! ### A label in the middle -/

namespace Crossing

/-- The literal word `a`. -/
def literal : Node := .call ⟨⟨5⟩, 1, ⟨4⟩, .literal, .datum⟩ [.datum ⟨4⟩]

/-- The statement `print "a`, as the node with the given number. -/
def printing (index : Nat) : Node := .call ⟨⟨index⟩, index, ⟨1⟩, .printing, .nothing⟩ [literal]

/-- The label `tag "a`. -/
def label : Node := .call ⟨⟨7⟩, 7, ⟨2⟩, .tag, .nothing⟩ [literal]

/-- Two lines, of which the second can be jumped to. -/
def parse : Parse := [[printing 6], [label, printing 8]]

/-- The words and nodes of the two lines. -/
def heap : Heap where
  objects := #[.nothing, .word (.text "print"), .word (.text "tag"), .word (.text "there"),
    .word (.text "a"), .node ⟨⟨5⟩, 1, ⟨4⟩, .literal, .datum⟩ [.datum ⟨4⟩],
    .node ⟨⟨6⟩, 6, ⟨1⟩, .printing, .nothing⟩ [literal], .node ⟨⟨7⟩, 7, ⟨2⟩, .tag, .nothing⟩ [literal],
    .node ⟨⟨8⟩, 8, ⟨1⟩, .printing, .nothing⟩ [literal]]

theorem built_parse : parse.Built heap := by
  decide +kernel

theorem holds_parse : World.Holds { heap } parse.flatten where
  nodes node hnode := by
    simp only [parse, List.flatten_cons, List.flatten_nil, List.append_nil, List.mem_append,
      List.mem_cons, List.not_mem_nil, or_false] at hnode
    rcases hnode with rfl | rfl | rfl
    · exact ⟨_, _, rfl⟩
    · exact ⟨_, _, rfl⟩
    · exact ⟨_, _, rfl⟩
  nothing := rfl

/-- From block one on only the second `print` is executed. -/
theorem executes_second : parse.Built heap ∧ (parse.flatten.map Node.ref).Nodup ∧
    World.Holds { heap } parse.flatten ∧
    ∃ routine code, (lowerUnit heap "list#1" none parse).1 = .ok routine ∧
      routine.link .machine = .ok code ∧ ∀ r w',
        (∃ fuel, runCode (engine 0) fuel [] code 1 { heap } = .ok (r, w')) ↔
          Executes (engine 0) heap true [.constants code.constants] [printing 8] { heap } r w' := by
  have hdistinct : (parse.flatten.map Node.ref).Nodup := by decide
  obtain ⟨routine, code, hroutine, hlink, hruns⟩ :=
    exists_runCode_executes built_parse hdistinct "list#1" none .machine
  exact ⟨built_parse, hdistinct, holds_parse, routine, code, hroutine, hlink, fun r w' =>
    (hruns 0 [] 1 _ w' r holds_parse).1⟩

end Crossing

end LogoEngine
