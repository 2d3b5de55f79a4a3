import IncrementalLR.Proofs.Parse.Balancing
import IncrementalLR.Proofs.Parse.Numbers
import IncrementalLR.Proofs.Tree.Cursor
import IncrementalLR.Proofs.Tree.Descent
import IncrementalLR.Proofs.Tree.Siblings

/-!
# Finding the way in the trees of parses

The padding of a node that was built is that of its first child, and its children fill what is left of
it. So a search by bytes goes on in the one child that can span the stretch, below every node of the
tree.

Parsers and edits number their subtrees one after the other, so that no number is twice in a tree. An edit
that does not end before it starts leaves room for the children of every node. In such a tree every child
of a node leads back to it, and cursors stand where their moves lead.
-/

namespace IncrementalLR

open Subtree (Numbered)

variable {d : GrammarDef} {policy : ConflictPolicy} {l : Language} {scanner : Option ExternalScanner}
  {number next : Nat} {p : Parser} {old : Option Tree} {tree : Tree}

/-! ### The smallest node over a stretch -/

/-- The children of every node of a parse stand in it from where it starts. -/
theorem Parser.nested_parse (hp : p.language = l) (hbases : p.bases = RepetitionBases.ofTable l.table)
    (hold : ∀ tree ∈ old, tree.language.isSame l = true → tree.Made l) (text : ByteArray) (id : Nat) :
    (p.parse text old id).tree.root.Nested := by
  have hfits : l.ProductionsFit fun _ _ => True := l.productionsFit_of_forall fun _ _ => trivial
  exact (Parser.built_parse hfits hp hbases hold text id).nested

/-- Below every node of a parse the search for a stretch that is not empty finds the smallest node that
spans it, and nothing if the node itself does not span it; so does the search among named nodes. -/
theorem Parser.findsSmallest_parse (hp : p.language = l)
    (hbases : p.bases = RepetitionBases.ofTable l.table)
    (hold : ∀ tree ∈ old, tree.language.isSame l = true → tree.Made l) (text : ByteArray) (id : Nat)
    {n : Node} (hn : (p.parse text old id).tree.rootNode.Below n) {start stop : Nat}
    (hlt : start < stop) :
    n.FindsSmallest start stop (·.visible) (n.descendantForRange? start stop) ∧
      n.FindsSmallest start stop (fun flags => flags.visible && flags.named)
        (n.namedDescendantForRange? start stop) := by
  obtain ⟨_, hmem⟩ := hn.mem_nodesAt
  have hnested : n.subtree.Nested :=
    (Parser.nested_parse hp hbases hold text id).of_mem_nodesAt hmem
  exact ⟨Node.findsSmallest_descendant? hnested hlt fun _ hvisible => hvisible,
    Node.findsSmallest_descendant? hnested hlt fun _ haccept => (Bool.and_eq_true_iff.1 haccept).1⟩

/-- The search for the token that was put in the place of another. -/
theorem findsSmallest_optionalToken : ∃ l, Language.load .optionalToken .strict = .ok l ∧
    let p := Parser.ofLanguage { l with scanner := none, id := 1 }
    let change := InputEdit.replace "y".toUTF8 0 1 "x".toUTF8
    let edited := ((p.parse "y".toUTF8 none 0).tree.edit change 8).1
    let n := (p.parse (change.applyTo "y".toUTF8 "x".toUTF8) (some edited) 16).tree.rootNode
    n.FindsSmallest 0 1 (·.visible) (n.descendantForRange? 0 1) ∧
      n.FindsSmallest 0 1 (fun flags => flags.visible && flags.named)
        (n.namedDescendantForRange? 0 1) := by
  obtain ⟨l, hl, _⟩ := exists_load_optionalToken
  refine ⟨l, hl, Parser.findsSmallest_parse rfl rfl ?_ _ 16 .refl Nat.zero_lt_one⟩
  intro tree htree _
  cases htree
  exact .edit _ _ 8 (.parse _ _ none 0 rfl rfl nofun)

/-! ### Trees with numbers -/

/-- The trees that parsers of one language and edits make, one after the other, with numbers below the next
free one. -/
inductive Tree.NumberedBelow (l : Language) : Tree → Nat → Prop
  | parse (p : Parser) (text : ByteArray) (old : Option Tree) (id : Nat) (hp : p.language = l)
      (hbases : p.bases = RepetitionBases.ofTable l.table)
      (hold : ∀ tree ∈ old, tree.language.isSame l = true → NumberedBelow l tree id) :
      NumberedBelow l (p.parse text old id).tree (p.parse text old id).nextId
  | edit (tree : Tree) (change : InputEdit) (id : Nat) (h : NumberedBelow l tree id) :
      NumberedBelow l (tree.edit change id).1 (tree.edit change id).2
  | later (tree : Tree) (id next : Nat) (h : NumberedBelow l tree id) (hle : id ≤ next) :
      NumberedBelow l tree next

/-- The trees of parses, and those that come about when one is edited, as long as no edit since the parse
ends before it starts, in the old text or in the new one. -/
inductive Tree.EditedForward (l : Language) : Tree → Nat → Prop
  | parse (p : Parser) (text : ByteArray) (old : Option Tree) (id : Nat) (hp : p.language = l)
      (hbases : p.bases = RepetitionBases.ofTable l.table)
      (hold : ∀ tree ∈ old, tree.language.isSame l = true → NumberedBelow l tree id) :
      EditedForward l (p.parse text old id).tree (p.parse text old id).nextId
  | edit (tree : Tree) (change : InputEdit) (id : Nat) (h : EditedForward l tree id)
      (hle : change.startByte ≤ change.oldEndByte) (hnew : change.startByte ≤ change.newEndByte) :
      EditedForward l (tree.edit change id).1 (tree.edit change id).2
  | later (tree : Tree) (id next : Nat) (h : EditedForward l tree id) (hle : id ≤ next) :
      EditedForward l tree next

/-- Every child of a node leads back to the node and to the children next to it, the root has no parent,
and every cursor stands at the end of the path that its moves describe. -/
structure Tree.LeadsBack (tree : Tree) : Prop where
  root : tree.rootNode.parent? = none
  children : ∀ (n c : Node) (i : Nat), tree.rootNode.Below n → n.child? i = some c → n.LeadsBack i c
  cursors : ∀ (n : Node) (moves : List TreeCursor.Move), tree.rootNode.Below n →
    ((TreeCursor.ofNode n).walk (n, []) moves).1.StandsAt ((TreeCursor.ofNode n).walk (n, []) moves).2

theorem Tree.NumberedBelow.made (h : tree.NumberedBelow l next) : tree.Made l := by
  induction h with
  | parse p text old id hp hbases _ ih => exact .parse p text old id hp hbases ih
  | edit tree change id _ ih => exact .edit tree change id ih
  | later _ _ _ _ _ ih => exact ih

theorem Tree.EditedForward.numberedBelow (h : tree.EditedForward l next) : tree.NumberedBelow l next := by
  induction h with
  | parse p text old id hp hbases hold => exact .parse p text old id hp hbases hold
  | edit tree change id _ _ _ ih => exact .edit tree change id ih
  | later tree id next _ hle ih => exact .later tree id next ih hle

theorem Tree.numbered_edit {id : Nat} (h : Numbered id [tree.root]) (change : InputEdit) :
    Numbered (tree.edit change id).2 [(tree.edit change id).1.root] := by
  have hroot := (Subtree.renews_edit (RelativeEdit.ofInput change) id tree.root).numbered h
  rw [Tree.edit]
  generalize tree.root.edit (RelativeEdit.ofInput change) id = edited at hroot ⊢
  obtain ⟨⟨head, children⟩, next⟩ := edited
  exact ⟨hroot.nodup, hroot.lt⟩

theorem Tree.NumberedBelow.numbered (hl : Language.load d policy = .ok l) (hfit : l.table.EntriesFit)
    (h : tree.NumberedBelow { l with scanner := scanner, id := number } next) :
    Numbered next [tree.root] := by
  induction h with
  | parse p text old id hp _ _ ih =>
      rw [← hp] at ih
      exact Parser.numbered_parse hl hfit hp ih text
  | edit tree change id _ ih => exact Tree.numbered_edit ih change
  | later tree id next _ hle ih => exact (Subtree.Renews.unused hle _).numbered ih

theorem Tree.EditedForward.roomy (h : tree.EditedForward l next) : tree.root.Roomy := by
  induction h with
  | parse p text old id hp hbases hold =>
      exact (Parser.nested_parse hp hbases (fun tree htree hsame => (hold tree htree hsame).made)
        text id).roomy
  | edit tree change id _ hle hnew ih => exact Tree.roomy_edit ih change id hle hnew
  | later _ _ _ _ _ ih => exact ih

theorem Tree.EditedForward.navigable (hl : Language.load d policy = .ok l) (hfit : l.table.EntriesFit)
    (h : tree.EditedForward { l with scanner := scanner, id := number } next) :
    tree.root.Navigable := by
  have hids := (h.numberedBelow.numbered hl hfit).nodup
  rw [Subtree.idsAll_singleton] at hids
  exact ⟨h.roomy, hids⟩

/-- In the tree of a parse, edited or not, every child leads back to its parent and its siblings. -/
theorem Tree.EditedForward.leadsBack (hl : Language.load d policy = .ok l) (hfit : l.table.EntriesFit)
    (h : tree.EditedForward { l with scanner := scanner, id := number } next) : tree.LeadsBack where
  root := Node.parent?_rootNode tree
  children n c i hn hc := by
    have hnavigable := h.navigable hl hfit
    obtain ⟨rfl, _⟩ : n.tree = tree ∧ _ := hn.mem_nodesAt
    exact Node.leadsBack_of_child? hnavigable hn hc
  cursors n moves _ := TreeCursor.standsAt_walk n moves

/-! ### Edits of a list of tokens -/

def Lexer.repeatedToken : Lexer where
  automaton := Pattern.Automaton.ofExprs [.byte (Pattern.ByteSet.singleton 120)]
  patterns := #[.token ⟨1⟩ false]
  terminalCount := 2
  valid := #[SymbolSet.ofList [⟨0⟩, ⟨1⟩], SymbolSet.ofList [⟨0⟩]]
  word := none
  keywords := {}
  externals := #[]

def Language.repeatedToken : Language := { table := .repeatedToken, lexer := .repeatedToken }

theorem Lexer.ofTable_repeatedToken : Lexer.ofTable .repeatedToken = .ok .repeatedToken := by
  have hsources : Table.repeatedToken.lexical.tokens.toList.map (·.pattern) ++
      Table.repeatedToken.lexical.skips.toList = ["x"] := rfl
  have hread : ["x"].mapM Pattern.read? = some [.byte (Pattern.ByteSet.singleton 120)] := by
    decide +kernel
  rw [ofTable]
  simp only [hsources, hread]
  simp [Lexer.repeatedToken, Table.repeatedToken, wordPattern]

theorem Language.loads_repeatedToken : Language.load .repeatedToken .strict = .ok .repeatedToken := by
  rw [load, load_repeatedToken]
  change ofGrammar .repeatedToken .strict = _
  rw [ofGrammar, compile_repeatedToken]
  change ofTable .repeatedToken [] = _
  rw [ofTable, Lexer.ofTable_repeatedToken]
  rfl

/-- A token is put in the place of another, the text is parsed again, and the tree is edited once more. -/
theorem leadsBack_repeatedToken : Language.load .repeatedToken .strict = .ok .repeatedToken ∧
    let p := Parser.ofLanguage .repeatedToken
    let change := InputEdit.replace "yyy".toUTF8 1 2 "x".toUTF8
    let first := p.parse "yyy".toUTF8 none 0
    let edited := first.tree.edit change first.nextId
    let second := p.parse (change.applyTo "yyy".toUTF8 "x".toUTF8) (some edited.1) edited.2
    (second.tree.edit change second.nextId).1.LeadsBack := by
  refine ⟨Language.loads_repeatedToken, ?_⟩
  intro p change first edited second
  let l : Language := { Language.repeatedToken with scanner := none, id := 0 }
  have hfirst : first.tree.NumberedBelow l first.nextId := .parse p _ none 0 rfl rfl nofun
  have hsecond : second.tree.EditedForward l second.nextId := by
    refine .parse p _ (some edited.1) edited.2 rfl rfl fun tree htree _ => ?_
    obtain rfl := Option.mem_some_iff.1 htree
    exact .edit _ change _ hfirst
  exact Tree.EditedForward.leadsBack Language.loads_repeatedToken entriesFit_repeatedToken
    (.edit _ change _ hsecond (by decide +kernel) (by decide +kernel))

/-- Three bytes that are no tokens are skipped. An edit whose new text ends before it starts makes the
skipped text too short for the last of them, so that it has no parent. -/
theorem not_leadsBack_repeatedToken : Language.load .repeatedToken .strict = .ok .repeatedToken ∧
    let p := Parser.ofLanguage .repeatedToken
    let change : InputEdit := ⟨2, 2, 0, ⟨0, 2⟩, ⟨0, 2⟩, ⟨0, 0⟩⟩
    let parsed := p.parse "yyy".toUTF8 none 0
    ¬ (parsed.tree.edit change parsed.nextId).1.LeadsBack := by
  refine ⟨Language.loads_repeatedToken, ?_⟩
  intro p change parsed hleads
  have horphan : (((parsed.tree.edit change parsed.nextId).1.rootNode.child? 0).bind
      (·.child? 2)).any (·.parent?.isNone) = true := by decide +kernel
  obtain ⟨c, hc, hnone⟩ := (Option.any_eq_true _ _).1 horphan
  obtain ⟨n, hn, hc⟩ := Option.bind_eq_some_iff.1 hc
  have hparent := (hleads.children n c 2 (.child _ _ .refl (List.mem_of_getElem? hn)) hc).parent
  rw [hparent] at hnone
  cases hnone

end IncrementalLR
