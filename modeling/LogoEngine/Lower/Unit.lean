import LogoEngine.Lower.Node

/-!
# Lowering a parse

A parse becomes one routine. A group that starts with `TAG` starts a new numbered block, so that
`GOTO` can enter there: with more than one numbered block, the entry of the routine is a **table
of contents**, one test of the requested number per block. Block zero is the start.
-/

namespace LogoEngine

/-- Whether a node is a `TAG`. -/
def Node.isTag : Node → Bool
  | call head _ => head.generator = .tag
  | datum _ => false

/-- The label a `TAG` defines: the key of the word its input node holds. -/
def Node.tagKey? (h : Heap) : Node → Option String
  | call _ (call _ (value :: _) :: _) => (h.word? value.ref).map Word.key
  | _ => none

/-- Notes the labels of `TAG` nodes that lead to a block. The line of a label is the list that is
being lowered, or else the node. -/
def noteTags (h : Heap) (line : Option Ref) (block : Nat) (tags : List Node) : Emit Unit :=
  modify fun d =>
    { d with
      tags := d.tags ++ tags.filterMap fun node =>
        (node.tagKey? h).map fun key => (key, ⟨block, line.getD node.ref⟩) }

/-- Lowers the nodes of a group one after the other; only the last node of the parse may have a
value. The result is the register of the last node so far. -/
def lowerNodes (h : Heap) (last : Option Ref) : Option Reg → List Node → Lower (Option Reg)
  | result, [] => return result
  | _, node :: rest => do
    let request := if last = some node.ref then .datumOrNothing else .nothing
    let raw ← lowerNode h node request
    let r ← Emit.cast raw (h.displayName node.ref) node.returns request
    lowerNodes h last (some r) rest

/-- Lowers groups one after the other. `starts` lists the labels of the numbered blocks so far,
in order. -/
def lowerGroups (h : Heap) (line last : Option Ref) :
    Option Reg → List Label → List (List Node) → Lower (Option Reg × List Label)
  | result, starts, [] => return (result, starts)
  | result, starts, group :: rest => do
    if (group.head?.map Node.isTag).getD false then
      noteTags h line starts.length (group.takeWhile Node.isTag)
      let label ← Emit.freshLabel
      Emit.endBlock (.jump label) label
      let result ← lowerNodes h last none (group.dropWhile Node.isTag)
      lowerGroups h line last result (starts ++ [label]) rest
    else
      let result ← lowerNodes h last result group
      lowerGroups h line last result starts rest

/-- One test of the table of contents: block `id` is at `start`, all else goes on at `next`. -/
def contentsBlock (id : Nat) (start next : Label) : Emit Unit := do
  let cond ← Emit.freshReg .truth
  Emit.instr (.atBlock cond id)
  modify fun d =>
    { d with
      blocks := d.blocks.push ⟨d.label, d.body.toList, .branch cond start next⟩
      body := #[] }

/-- The tests of the table of contents, from block `id` on, where `first` is the start of the
routine. -/
def contentsBlocks (first : Label) : Nat → List (Label × Label) → Emit Unit
  | _, [] => return ()
  | id, (entry, start) :: rest => do
    modify fun d => { d with label := entry }
    contentsBlock id start ((rest.head?.map Prod.fst).getD first)
    contentsBlocks first (id + 1) rest

/-- Closes the last block of a routine. -/
def closeRoutine (result : Reg) : Emit Unit :=
  modify fun d =>
    { d with
      blocks := d.blocks.push ⟨d.label, d.body.toList, .ret result⟩
      body := #[] }

/-- The table of contents of the numbered blocks after the first; its entry. -/
def tableOfContents (starts : List Label) : Emit Label := do
  let entries ← starts.mapM fun _ => Emit.freshLabel
  contentsBlocks ⟨0⟩ 1 (entries.zip starts)
  return entries.head?.getD ⟨0⟩

/-- The groups to lower: empty ones do not count, and the `TAG` nodes that lead the first one only
name the start. -/
def lowerParse (h : Heap) (line : Option Ref) (parse : Parse) : Lower Label := do
  let groups := parse.filter fun group => !group.isEmpty
  let groups ←
    match groups with
    | [] => pure []
    | first :: rest => do
      noteTags h line 0 (first.takeWhile Node.isTag)
      let first := first.dropWhile Node.isTag
      pure (if first.isEmpty then rest else first :: rest)
  let last := (groups.getLast?.bind List.getLast?).map Node.ref
  let (result, starts) ← lowerGroups h line last none [⟨0⟩] groups
  let result ←
    match result with
    | some r => pure r
    | none => Emit.nothing
  closeRoutine result
  if 1 < starts.length then tableOfContents (starts.drop 1) else return ⟨0⟩

/-- The labels met while lowering, with where they lead. -/
abbrev Labels := List (String × LabelTarget)

/-- Lowers a parse to a routine. The labels that were met are given in any case. -/
def lowerUnit (h : Heap) (name : String) (line : Option Ref) (parse : Parse) :
    Except CompileError Routine × Labels :=
  match (lowerParse h line parse).run {} with
  | (.ok entry, d) =>
    (.ok ⟨name, d.blocks.toList, entry, d.types, d.constants⟩, d.tags)
  | (.error e, d) => (.error e, d.tags)

end LogoEngine
