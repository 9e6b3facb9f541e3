import LogoEngine.Proofs.Lower.Contents

/-!
# Where labels lead

While a parse is lowered, the labels that lead its groups are noted with the number of the block that
they stand before. Recorded in a table one after the other, the last label of a name counts: its
block is that of the last group which the label leads.

Main statements: `lowerUnit_labels` and `Parse.rel_target`.
-/

namespace LogoEngine

/-! ### The labels of a parse -/

/-- The labels of groups whose numbered blocks are counted from `block` on. -/
def groupLabels (h : Heap) (line : Option Ref) : Nat → List (List Node) → Labels
  | _, [] => []
  | block, group :: rest =>
    if tagged group then leadingLabels h line block group ++ groupLabels h line (block + 1) rest
    else groupLabels h line block rest

/-- The labels of a parse. Those that lead its first group stand for the start. -/
def Parse.labels (h : Heap) (line : Option Ref) (parse : Parse) : Labels :=
  parse.startLabels h line ++ groupLabels h line 1 (parse.filter fun group => !group.isEmpty).tail

section

variable {h : Heap} {nodes : List Node} {groups : List (List Node)}
  {parse : Parse}

/-- Code that only moves notes no labels. -/
theorem Lower.Moves.tags {α : Type} [Movable α] {m : Lower α} (hm : ∀ base, Lower.Moves base m m)
    (d : Draft) : (m.run d).2.tags = d.tags :=
  ((hm d).moves (d.movedTo_empty d.tags)).2.tags

theorem lowerNodes_moves (hnodes : ∀ node ∈ nodes, node.Built h) (last : Option Ref) {base : Draft}
    {result result' : Option Reg} (hresult : Moved base result result') :
    Lower.Moves base (lowerNodes h last result nodes) (lowerNodes h last result' nodes) := by
  induction nodes generalizing result result' with
  | nil => exact .pure hresult
  | cons node nodes ih =>
    rw [List.forall_mem_cons] at hnodes
    exact .bind (hnodes.1.relocates base _) fun _ _ _ =>
      .bind (.lift inferInstance) fun _ _ _ => ih hnodes.2 inferInstance

/-- Labels within a group are not noted. -/
theorem lowerNodes_tags (hnodes : ∀ node ∈ nodes, node.Built h) (last : Option Ref)
    (result : Option Reg) (d : Draft) :
    ((lowerNodes h last result nodes).run d).2.tags = d.tags := by
  cases nodes with
  | nil => rfl
  | cons node nodes =>
    exact Lower.Moves.tags (m := lowerNodes h last none (node :: nodes))
      (fun _ => lowerNodes_moves hnodes last inferInstance) d

theorem lowerGroups_tags (hgroups : ∀ group ∈ groups, ∀ node ∈ group, node.Built h)
    (line last : Option Ref) (result : Option Reg) (starts : List Label) (d : Draft) :
    ((lowerGroups h line last result starts groups).run d).2.tags =
      d.tags ++ groupLabels h line starts.length groups := by
  induction groups generalizing result starts d with
  | nil => exact (List.append_nil _).symm
  | cons group groups ih =>
    rw [List.forall_mem_cons] at hgroups
    rw [groupLabels]
    by_cases htag : tagged group = true
    · -- as many blocks have started as there are labels of blocks
      let d₁ := (noteTags h line starts.length (group.takeWhile Node.isTag) d).2
      have hstatements : ∀ node ∈ statements group, node.Built h :=
        fun node hnode => hgroups.1 node ((List.dropWhile_sublist _).subset hnode)
      obtain ⟨result₁, d₂, hrun₂, -⟩ := @exists_lowerNodes h last _ hstatements none d₁.started
      have htags : d₂.tags = d.tags ++ leadingLabels h line starts.length group := by
        have hnodes := lowerNodes_tags hstatements last none d₁.started
        rw [hrun₂] at hnodes
        exact hnodes
      have hrun : (lowerGroups h line last result starts (group :: groups)).run d =
          (lowerGroups h line last result₁ (starts ++ [⟨d₁.nextLabel⟩]) groups).run d₂ := by
        have htag' : (group.head?.map Node.isTag).getD false = true := htag
        rw [lowerGroups, if_pos htag']
        refine (Lower.run_bind (m := liftM (noteTags h line starts.length _)) rfl).trans ?_
        refine (Lower.run_bind (m := liftM Emit.freshLabel) rfl).trans ?_
        refine (Lower.run_bind (m := liftM (Emit.endBlock _ _)) rfl).trans ?_
        exact Lower.run_bind hrun₂
      rw [hrun, ih hgroups.2, htags, if_pos htag, List.append_assoc, List.length_append]
      rfl
    · have htag' : ¬ (group.head?.map Node.isTag).getD false = true := htag
      obtain ⟨result₁, d₁, hrun₁, -⟩ := @exists_lowerNodes h last _ hgroups.1 result d
      have htags := lowerNodes_tags hgroups.1 last result d
      rw [hrun₁] at htags
      rw [lowerGroups, if_neg htag', Lower.run_bind hrun₁, ih hgroups.2, if_neg htag, htags]

theorem contentsBlocks_tags (first : Label) (id : Nat) (tests : List (Label × Label)) (d : Draft) :
    (contentsBlocks first id tests d).2.tags = d.tags := by
  induction tests generalizing id d with
  | nil => rfl
  | cons test tests ih => exact ih (id + 1) _

theorem tableOfContents_tags (starts : List Label) (d : Draft) :
    (tableOfContents starts d).2.tags = d.tags := by
  rw [tableOfContents_run, contentsBlocks_tags]

theorem lowerFrom_tags (hgroups : ∀ group ∈ groups, ∀ node ∈ group, node.Built h)
    (line : Option Ref) (d : Draft) :
    ((lowerFrom h line groups).run d).2.tags = d.tags ++ groupLabels h line 1 groups := by
  have htags := lowerGroups_tags hgroups line ((groups.getLast?.bind List.getLast?).map Node.ref)
    none [⟨0⟩] d
  obtain ⟨result, labels, d₁, hrun₁, -⟩ := @exists_lowerGroups h
    ((groups.getLast?.bind List.getLast?).map Node.ref) _ hgroups line none [⟨0⟩] d
  rw [hrun₁] at htags
  rw [lowerFrom, Lower.run_bind hrun₁, show [Label.mk 0].length = 1 from rfl] at *
  -- the last block is closed, and the table of contents comes first
  have hclose : ∀ (r : Reg) (d₂ : Draft), d₂.tags = d₁.tags →
      ((do
        liftM (closeRoutine r)
        if 1 < ([Label.mk 0] ++ labels).length
        then liftM (tableOfContents (([Label.mk 0] ++ labels).drop 1)) else pure ⟨0⟩ :
        Lower Label).run d₂).2.tags = d.tags ++ groupLabels h line 1 groups := by
    intro r d₂ hd₂
    rw [Lower.run_bind (m := liftM (closeRoutine r)) rfl]
    split
    · exact (tableOfContents_tags _ _).trans (hd₂.trans htags)
    · exact hd₂.trans htags
  cases result with
  | some r => exact hclose r d₁ rfl
  | none =>
    rw [Lower.run_bind (m := liftM Emit.nothing) rfl]
    have hnothing : Emit.Moves d₁ Emit.nothing Emit.nothing := inferInstance
    exact hclose _ _ (hnothing.moves (d₁.movedTo_empty [])).2.tags

theorem Parse.groupLabels_groups (h : Heap) (line : Option Ref) (parse : Parse) (block : Nat) :
    groupLabels h line block parse.groups =
      groupLabels h line block (parse.filter fun group => !group.isEmpty).tail := by
  unfold groups
  cases parse.filter fun group => !group.isEmpty with
  | nil => rfl
  | cons first rest =>
    dsimp only
    split
    · rfl
    · rw [groupLabels, if_neg (by simp [tagged_statements])]
      rfl

/-- **The labels of a parse are noted** when it is lowered. -/
theorem lowerUnit_labels (hbuilt : parse.Built h) (name : String) (line : Option Ref) :
    (lowerUnit h name line parse).2 = parse.labels h line := by
  have hgroups : ∀ group ∈ parse.groups, ∀ node ∈ group, node.Built h := by
    intro group hgroup node hnode
    obtain ⟨group', hgroup', hnode', -⟩ := Parse.mem_of_mem_groups hgroup hnode
    exact hbuilt group' hgroup' node hnode'
  have htags : ((lowerParse h line parse).run {}).2.tags = parse.labels h line := by
    obtain ⟨tags, rfl, hrun⟩ := lowerParse_run h line parse
    rw [hrun, lowerFrom_tags hgroups, Parse.groupLabels_groups]
    rfl
  unfold lowerUnit
  split
  · next heq => rw [← htags, heq]
  · next heq => rw [← htags, heq]

end

/-! ### The last label of a name -/

/-- Where the last label of a name leads. -/
def Labels.last? (labels : Labels) (key : String) : Option LabelTarget :=
  (labels.filter (·.1 = key)).getLast?.map Prod.snd

/-- Whether a label leads a group. -/
def labelledBy (h : Heap) (key : String) (group : List Node) : Bool :=
  (group.takeWhile Node.isTag).any fun node => node.tagKey? h = some key

/-- The parts of a parse that start with a group which a label leads, in order. -/
def partsAt (h : Heap) (key : String) (groups : List (List Node)) : List (List (List Node)) :=
  groups.tails.filter fun part => (part.head?.map (labelledBy h key)).getD false

/-- The last part of a parse that a label leads. -/
def Parse.lastPart? (h : Heap) (parse : Parse) (key : String) : Option (List (List Node)) :=
  (partsAt h key (parse.filter fun group => !group.isEmpty)).getLast?

section

variable {h : Heap} {line : Option Ref} {key : String}

/-- Recorded in a table, the last label of a name counts. -/
theorem get?_foldl_insert (labels : Labels) (t : Table LabelTarget) (key : String) :
    (labels.foldl (fun t l => t.insert l.1 l.2) t).get? key =
      (Labels.last? labels key).or (t.get? key) := by
  induction labels generalizing t with
  | nil => rfl
  | cons l labels ih =>
    rw [List.foldl_cons, ih]
    by_cases hkey : l.1 = key
    · subst hkey
      cases hlast : (labels.filter (·.1 = l.1)).getLast? <;>
        simp [Labels.last?, List.getLast?_cons, hlast]
    · simp [Labels.last?, hkey, Table.get?_insert_of_ne _ _ (Ne.symm hkey)]

theorem Labels.last?_append (labels more : Labels) (key : String) :
    Labels.last? (labels ++ more) key = (Labels.last? more key).or (Labels.last? labels key) := by
  simp [Labels.last?, List.getLast?_append, Option.map_or]

theorem partsAt_cons (group : List Node) (groups : List (List Node)) :
    partsAt h key (group :: groups) =
      if labelledBy h key group then (group :: groups) :: partsAt h key groups
      else partsAt h key groups := by
  rw [partsAt, List.tails_cons, List.filter_cons]
  rfl

/-- A group that no label leads has no name. -/
theorem labelledBy_of_not_tagged {group : List Node} (htag : tagged group = false) :
    labelledBy h key group = false := by
  cases group with
  | nil => rfl
  | cons node rest =>
    have hnode : node.isTag = false := by simpa [tagged] using htag
    simp [labelledBy, hnode]

theorem isSome_last?_leadingLabels (block : Nat) (group : List Node) :
    (Labels.last? (leadingLabels h line block group) key).isSome = labelledBy h key group := by
  have hany : ∀ labels : Labels, (Labels.last? labels key).isSome = labels.any (·.1 = key) := by
    intro labels
    rw [Labels.last?, Option.isSome_map, Bool.eq_iff_iff]
    simp
  rw [hany, leadingLabels, labelledBy, List.any_filterMap]
  congr 1
  funext node
  cases node.tagKey? h <;> simp

theorem block_of_last?_leadingLabels {block : Nat} {group : List Node} {target : LabelTarget}
    (hlast : Labels.last? (leadingLabels h line block group) key = some target) :
    target.block = block := by
  obtain ⟨label, hlabel, rfl⟩ := Option.map_eq_some_iff.mp hlast
  have hmem := (List.mem_filter.mp (List.mem_of_getLast? hlabel)).1
  obtain ⟨node, -, hnode⟩ := List.mem_filterMap.mp hmem
  obtain ⟨_, -, rfl⟩ := Option.map_eq_some_iff.mp hnode
  rfl

/-- One group before others: what the last label leads to, as the last part says. -/
theorem rel_last?_append {R R' : LabelTarget → List (List Node) → Prop} {block : Nat}
    {group : List Node} {groups : List (List Node)} {more : Labels}
    (hmore : Option.Rel R' (Labels.last? more key) (partsAt h key groups).getLast?)
    (hlater : ∀ target part, R' target part → R target part)
    (hhere : ∀ target, target.block = block → R target (group :: groups)) :
    Option.Rel R (Labels.last? (leadingLabels h line block group ++ more) key)
      (partsAt h key (group :: groups)).getLast? := by
  rw [Labels.last?_append, partsAt_cons]
  generalize hlast : Labels.last? more key = last at hmore
  generalize hparts : (partsAt h key groups).getLast? = part at hmore
  cases hmore with
  | some hR =>
    -- a later label of the same name counts
    split
    · rw [List.getLast?_cons, hparts]
      exact .some (hlater _ _ hR)
    · rw [hparts]
      exact .some (hlater _ _ hR)
  | none =>
    -- no later one, so it is this group or none
    have hsome := @isSome_last?_leadingLabels h line key block group
    rw [List.getLast?_eq_none_iff.mp hparts, Option.none_or]
    cases hlabels : Labels.last? (leadingLabels h line block group) key with
    | none =>
      rw [hlabels] at hsome
      rw [if_neg (by simp [← hsome])]
      exact .none
    | some target =>
      rw [hlabels] at hsome
      rw [if_pos (by simp [← hsome])]
      exact .some (hhere target (block_of_last?_leadingLabels hlabels))

/-- The last label of a name stands for the numbered block of the last part that it leads. -/
theorem rel_last?_groupLabels (block : Nat) (groups : List (List Node)) :
    Option.Rel (fun target part => ∃ i, target.block = block + i ∧
        (numbered groups)[i]? = some part)
      (Labels.last? (groupLabels h line block groups) key) (partsAt h key groups).getLast? := by
  induction groups generalizing block with
  | nil => exact .none
  | cons group groups ih =>
    rw [groupLabels, numbered_cons]
    split
    · refine rel_last?_append (ih (block + 1)) ?_ ?_
      · rintro target part ⟨i, hblock, hpart⟩
        exact ⟨i + 1, by omega, hpart⟩
      · exact fun target hblock => ⟨0, hblock, rfl⟩
    · next htag =>
      rw [partsAt_cons, if_neg (by simp [labelledBy_of_not_tagged (by simpa using htag)])]
      exact ih block

/-- **Where the labels of a parse lead**: to the statements of the last part that the label leads, and
a label that leads no part is not found. -/
theorem Parse.rel_target (h : Heap) (line : Option Ref) (parse : Parse) (key : String) :
    Option.Rel (fun (target : LabelTarget) part =>
        parse.statementsFrom target.block = part.flatMap statements)
      (Labels.last? (parse.labels h line) key) (parse.lastPart? h key) := by
  have hstart : ∀ target : LabelTarget, target.block = 0 → parse.statementsFrom target.block =
      (parse.filter fun group => !group.isEmpty).flatMap statements := by
    intro target hblock
    rw [flatMap_statements_filter, hblock]
    rfl
  unfold labels startLabels lastPart?
  cases hgroups : parse.filter fun group => !group.isEmpty with
  | nil => exact .none
  | cons first rest =>
    rw [hgroups] at hstart
    refine rel_last?_append (rel_last?_groupLabels 1 rest) ?_ hstart
    rintro target part ⟨i, hblock, hpart⟩
    have hnumber : ((target.block : Int) - 1).toNat = i := by omega
    rw [statementsFrom, if_pos (by omega), hnumber, hgroups, List.tail_cons, hpart]
    rfl

end

end LogoEngine
