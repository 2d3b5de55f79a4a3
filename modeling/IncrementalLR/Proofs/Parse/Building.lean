import IncrementalLR.Proofs.Parse.Productions
import IncrementalLR.Proofs.Tree.Built

/-!
# Parses build their trees

What is inherited by the nodes that a parse makes holds of the stack and the lookahead of every version
that moves lead to, if it holds of what can be taken over, and of what the root is made of in the end.
The old tree may have been edited in any way: only subtrees that the edits left alone are taken over. So
whatever was parsed and edited before, subtrees of the root have what parses keep. In particular they
were built, by this parse or an earlier one.
-/

namespace IncrementalLR

open Subtree (interior balanceWhere)

/-- Productions fit the symbols of the nodes that the parse makes over them. -/
structure ParseSetting.ProductionsFit (setting : ParseSetting) (fits : Symbol → ProductionId → Prop) :
    Prop where
  lhs : ∀ p, fits (setting.table.production p).lhs p
  bases : setting.bases.Keep fits

/-- The subtrees of the version have the property. -/
structure Version.All (P : Subtree → Prop) (v : Version) : Prop where
  stack : ∀ t ∈ v.stack.trees, P t
  lookahead : ∀ t ∈ v.lookahead, P t

/-- Whatever can be taken over from the places to which the cursor can be moved has the property. -/
def ReuseCursor.Offers (table : Table) (P : Subtree → Prop) (c : ReuseCursor) : Prop :=
  ∀ cursor t state, c.Reaches cursor → cursor.rest.head? = some t →
    accepts table state t = true → P t

/-- A root over subtrees with the property. A production is taken over from such a subtree, and so is
what is behind the children if it is not measured in the text. -/
inductive Subtree.IsRootOf (table : Table) (P : Subtree → Prop) : Subtree → Prop
  | mk (id : Nat) (children : List Subtree) (production : Option ProductionId) (trailing : Length)
      (hproduction : ∀ p ∈ production, ∃ t, P t ∧ t.symbol = table.startSymbol ∧ p ∈ t.head.production)
      (htrailing : trailing.IsMeasured ∨ ∃ t, P t ∧ t.padding = trailing)
      (hchildren : ∀ child ∈ children, P child) :
      IsRootOf table P ((interior table id table.startSymbol children production false).stretched
        ((interior table id table.startSymbol children production false).total + trailing))

variable {setting : ParseSetting} {fits : Symbol → ProductionId → Prop} {old : Option ReuseCursor}
  {P : Subtree → Prop} {v v' : Version} {s : Stack} {t : Subtree} {trees tail : List Subtree}

theorem Subtree.IsRootOf.child {table : Table} {root : Subtree} (h : root.IsRootOf table P) :
    ∀ child ∈ root.children, P child := by
  cases h with
  | mk id children production trailing hproduction htrailing hchildren =>
      rw [children_stretched, children_interior]
      exact hchildren

/-- A root over what was built was built. -/
theorem Subtree.IsRootOf.built {table : Table} {root : Subtree}
    (h : root.IsRootOf table (Built table fits)) : root.Built table fits := by
  cases h with
  | mk id children production trailing hproduction htrailing hchildren =>
      refine .root id children production trailing (fun p hp => ?_) ?_ hchildren
      · obtain ⟨t, ht, hsymbol, hfits⟩ := hproduction p hp
        exact hsymbol ▸ ht.fits_of_production p hfits
      · rcases htrailing with hmeasured | ⟨t, ht, rfl⟩
        · exact hmeasured
        · exact ht.isMeasured.1

/-- What edits left alone has the property. -/
theorem ReuseCursor.offers_of_agedFrom {table : Table} {c : ReuseCursor}
    (hP : ∀ t, P t → ∀ child ∈ t.children, P child) (hc : ∀ t ∈ c.rest, t.AgedFrom P) :
    c.Offers table P := by
  intro cursor t state hcursor ht haccepts
  have haged := hcursor.forall_mem (fun _ h => h.child hP) hc t (List.mem_of_mem_head? ht)
  exact haged.of_unchanged (ParseSetting.intact_of_accepts haccepts).1

/-- The paddings and sizes of tokens are those of parts of the text. -/
theorem Lexer.isMeasured_lex (lexer : Lexer) (text : ByteArray) (position : Nat) (mode : LexMode)
    (scanner : Option ExternalScanner) :
    (lexer.lex text position mode scanner).padding.IsMeasured ∧
      (lexer.lex text position mode scanner).size.IsMeasured := by
  rw [lex_eq_tokenOver]
  split <;> exact ⟨.ofBytes _, .ofBytes _⟩

namespace ParseSetting

section Inherited

variable (h : Subtree.Inherited setting.table setting.bases P)

include h

theorem inherited_of_lexes {position : Nat} {mode : LexMode} (hlex : setting.Lexes position mode t) :
    P t := by
  obtain ⟨id, rfl⟩ := hlex
  obtain ⟨hpadding, hsize⟩ := setting.language.lexer.isMeasured_lex setting.text position mode
    setting.language.scanner
  exact h.token id _ hpadding hsize

theorem inherited_of_lexesAll {position : Length} (hlex : setting.LexesAll position trees) :
    ∀ t ∈ trees, P t := by
  induction hlex with
  | nil => exact List.forall_mem_nil _
  | cons position tree rest htree _ ih =>
      exact List.forall_mem_cons.2 ⟨inherited_of_lexes h htree, ih⟩

/-! ### Stacks -/

omit h in
theorem forall_mem_push (hs : ∀ t ∈ s.trees, P t) (ht : P t) (state : StateId) (pending : Bool) :
    ∀ other ∈ (s.push state t pending).trees, P other := by
  rw [Stack.trees_push]
  exact List.forall_mem_append.2 ⟨hs, List.forall_mem_singleton.2 ht⟩

theorem inherited_reduceStack (hs : ∀ t ∈ s.trees, P t) (forked : Bool) (p : ProductionId)
    (id : Nat) : ∀ t ∈ (setting.reduceStack forked p id s).1.trees, P t := by
  rw [s.trees_popTrailing, List.forall_mem_append] at hs
  obtain ⟨hrest, htrailing⟩ := hs
  rw [s.popTrailing.2.trees_popStructural (setting.table.production p).rhs.size,
    List.forall_mem_append] at hrest
  obtain ⟨hbelow, hchildren⟩ := hrest
  have hbalanced := h.balanceWhere (·.symbol != (setting.table.production p).lhs) id hchildren
  have hnode := fun id fragile => h.node id p _ fragile hbalanced
  rw [reduceStack]
  simp only
  split
  · rw [Stack.trees_pushAll]
    exact List.forall_mem_append.2 ⟨forall_mem_push hbelow (hnode _ _) _ false, htrailing⟩
  · exact forall_mem_push hbelow
      (h.skipped _ _ (List.forall_mem_cons.2 ⟨hnode _ _, htrailing⟩)) _ false

theorem inherited_breakPending (hs : ∀ t ∈ s.trees, P t) :
    ∀ t ∈ (breakPending setting.table s).2.trees, P t := by
  fun_induction breakPending setting.table s with
  | case1 => exact hs
  | case2 s top below hframes _ rest _ state =>
      rw [Stack.trees_push]
      rwa [Stack.trees_of_cons hframes] at hs
  | case3 s top below hframes _ rest pushes hpushes ih =>
      apply ih
      rw [Stack.trees_of_cons hframes, List.forall_mem_append, List.forall_mem_singleton] at hs
      rw [trees_pushPending, map_snd_of_childStates? hpushes]
      exact List.forall_mem_append.2 ⟨hs.1, h.child _ hs.2⟩
  | case4 => exact hs

theorem inherited_skipVersion (hs : ∀ t ∈ v.stack.trees, P t) {tokens : List Subtree}
    (htokens : ∀ t ∈ tokens, P t) (popped skipped id : Nat) (relexed : Subtree) :
    ∀ t ∈ (setting.skipVersion v tokens popped skipped id relexed).stack.trees, P t := by
  rw [v.stack.trees_drop popped, List.forall_mem_append] at hs
  obtain ⟨hresumed, htaken⟩ := hs
  rw [skipVersion]
  simp only
  split
  · exact hresumed
  · refine forall_mem_push hresumed (h.skipped id _ (List.forall_mem_append.2 ⟨htaken, ?_⟩)) _ false
    exact fun t ht => htokens t (List.mem_of_mem_take ht)

/-! ### Moves -/

theorem inherited_of_moves (hold : ∀ start ∈ old, start.Offers setting.table P) (hv : v.All P)
    (hmove : setting.Moves old v v') : v'.All P := by
  cases hmove with
  | lex mode tree hlex =>
      refine ⟨hv.stack, ?_⟩
      rintro _ ⟨⟩
      exact inherited_of_lexes h hlex
  | reuse start cursor tree hstart hcursor htree _ haccepts =>
      refine ⟨hv.stack, ?_⟩
      rintro _ ⟨⟩
      exact hold start hstart cursor tree _ hcursor htree haccepts
  | enter => exact ⟨hv.stack, nofun⟩
  | reduce s p forked id => exact ⟨inherited_reduceStack h hv.stack forked p id, hv.lookahead⟩
  | shift lookahead next hlookahead =>
      exact ⟨forall_mem_push hv.stack (hv.lookahead _ hlookahead) _ false, nofun⟩
  | shiftExtra lookahead hlookahead =>
      exact ⟨forall_mem_push hv.stack (hv.lookahead _ hlookahead) _ false, nofun⟩
  | shiftReused lookahead target next hlookahead =>
      exact ⟨forall_mem_push hv.stack (hv.lookahead _ hlookahead) _ true, nofun⟩
  | breakPending => exact ⟨inherited_breakPending h hv.stack, hv.lookahead⟩
  | missing s next id => exact ⟨forall_mem_push hv.stack (h.missing id s _) _ false, hv.lookahead⟩
  | skip lookahead relexed more popped skipped id mode hlookahead _ hmore hrelexed =>
      refine ⟨inherited_skipVersion h hv.stack (List.forall_mem_cons.2
        ⟨hv.lookahead _ hlookahead, inherited_of_lexesAll h hmore⟩) popped skipped id relexed, ?_⟩
      rintro _ ⟨⟩
      exact inherited_of_lexes h hrelexed
  | skipLookahead lookahead id hlookahead =>
      exact ⟨forall_mem_push hv.stack
        (h.skipped id _ (List.forall_mem_singleton.2 (hv.lookahead _ hlookahead))) _ false, nofun⟩

theorem inherited_of_reached (hold : ∀ start ∈ old, start.Offers setting.table P)
    (hreached : setting.Reached old v) : v.All P := by
  induction hreached with
  | start => exact ⟨fun _ ht => absurd ht List.not_mem_nil, nofun⟩
  | move v v' _ hmove ih => exact inherited_of_moves h hold ih hmove

/-! ### Ends -/

theorem isRootOf_buildRoot (htrees : ∀ t ∈ trees, P t) (htail : ∀ t ∈ tail, P t) (id : Nat)
    {trailing : Length} (htrailing : trailing.IsMeasured ∨ ∃ t, P t ∧ t.padding = trailing) :
    (setting.buildRoot id trees tail trailing).1.IsRootOf setting.table P := by
  have hbalanced := h.balanceWhere (fun _ => true) id htrees
  have hroot := fun id children production hproduction hchildren =>
    @Subtree.IsRootOf.mk setting.table P id (children ++ tail) production trailing hproduction
      htrailing (List.forall_mem_append.2 ⟨hchildren, htail⟩)
  rw [buildRoot]
  simp only
  generalize (balanceWhere setting.table setting.bases (fun _ => true) id trees).1 = balanced
    at hbalanced ⊢
  cases hsole : soleStart? setting.table.startSymbol balanced with
  | some found =>
      obtain ⟨before, t, after⟩ := found
      obtain ⟨rfl, _, hsymbol⟩ := soleStart?_spec hsole
      simp only [List.forall_mem_append, List.forall_mem_cons] at hbalanced
      obtain ⟨hbefore, ht, hafter⟩ := hbalanced
      refine hroot _ _ _ (fun p hp => ⟨t, ht, hsymbol, hp⟩) ?_
      exact List.forall_mem_append.2 ⟨List.forall_mem_append.2 ⟨hbefore, h.child t ht⟩, hafter⟩
  | none =>
      have hplain := fun id children =>
        hroot id children none fun p hp => absurd hp (Option.not_mem_none p)
      simp only
      split
      · exact hplain _ _ (List.forall_mem_singleton.2 (h.skipped _ _ hbalanced))
      · exact hplain _ _ hbalanced

theorem inherited_remainder (id : Nat) (position : Length) :
    ∀ t ∈ setting.remainder id position, P t := by
  rw [remainder]
  split
  · exact List.forall_mem_singleton.2 (h.token id _ .zero (.ofBytes _))
  · exact List.forall_mem_nil _

/-- The root at the end of a parse is over subtrees with the property. -/
theorem isRootOf_of_ends (hold : ∀ start ∈ old, start.Offers setting.table P) {tree : Tree}
    (hends : setting.Ends old tree) : tree.root.IsRootOf setting.table P := by
  cases hends with
  | accepted v a id hreached haccepted =>
      have hv := inherited_of_reached h hold hreached
      obtain ⟨t, ht, htrailing, _⟩ := haccepted.lookahead
      refine isRootOf_buildRoot h ?_ (fun _ ht => absurd ht List.not_mem_nil) id ?_
      · rw [haccepted.trees]
        exact hv.stack
      · exact .inr ⟨t, hv.lookahead t ht, htrailing.symm⟩
  | stopped v id status hreached =>
      exact isRootOf_buildRoot h (inherited_of_reached h hold hreached).stack
        (inherited_remainder h id _) _ (.inl .zero)
  | nothing id =>
      exact isRootOf_buildRoot h (fun _ ht => absurd ht List.not_mem_nil)
        (fun _ ht => absurd ht List.not_mem_nil) id (.inl (.ofBytes _))

end Inherited

/-! ### Building -/

theorem ProductionsFit.inherited_built (h : setting.ProductionsFit fits) :
    Subtree.Inherited setting.table setting.bases (Subtree.Built setting.table fits) :=
  Subtree.inherited_built h.lhs h.bases

/-- The subtrees of every version were built. -/
theorem built_of_reached (h : setting.ProductionsFit fits)
    (hold : ∀ start ∈ old, ∀ t ∈ start.rest, t.Aged setting.table fits)
    (hreached : setting.Reached old v) : v.All (Subtree.Built setting.table fits) :=
  inherited_of_reached h.inherited_built
    (fun start hstart => ReuseCursor.offers_of_agedFrom (fun _ ht => ht.child) (hold start hstart))
    hreached

end ParseSetting

/-! ### Parsers -/

variable {p : Parser} {l : Language}

/-- The root at the end of a parse is over subtrees with the property. -/
theorem Parser.isRootOf_parse (h : Subtree.Inherited l.table (RepetitionBases.ofTable l.table) P)
    (hp : p.language = l) (hbases : p.bases = RepetitionBases.ofTable l.table) {old : Option Tree}
    (hold : ∀ start ∈ p.cursor? old, start.Offers l.table P) (text : ByteArray) (id : Nat) :
    (p.parse text old id).tree.root.IsRootOf l.table P := by
  have htable : (p.setting text).table = l.table := by rw [← hp]; rfl
  have hsetting : Subtree.Inherited (p.setting text).table (p.setting text).bases P := by
    rw [htable, show (p.setting text).bases = _ from hbases]
    exact h
  rw [← htable] at hold ⊢
  exact ParseSetting.isRootOf_of_ends hsetting hold (p.ends_parse text old id)

theorem Parser.aged_cursor? {table : Table} {old : Option Tree}
    (hold : ∀ tree ∈ old, tree.language.isSame p.language = true → tree.root.Aged table fits) :
    ∀ start ∈ p.cursor? old, ∀ t ∈ start.rest, t.Aged table fits :=
  Parser.forall_cursor? fun tree htree hsame => List.forall_mem_singleton.2 (hold tree htree hsame)

theorem Parser.offers_cursor? {table : Table} {old : Option Tree}
    (hP : ∀ t, P t → ∀ child ∈ t.children, P child)
    (hold : ∀ tree ∈ old, tree.language.isSame p.language = true → tree.root.AgedFrom P) :
    ∀ start ∈ p.cursor? old, start.Offers table P :=
  Parser.forall_cursor? fun tree htree hsame =>
    ReuseCursor.offers_of_agedFrom hP (List.forall_mem_singleton.2 (hold tree htree hsame))

/-- What roots have as well is kept by parses, and by edits apart from what they change. -/
theorem Tree.Made.agedFrom (h : Subtree.Inherited l.table (RepetitionBases.ofTable l.table) P)
    (hroot : ∀ root : Subtree, root.IsRootOf l.table P → P root) {tree : Tree} (hmade : tree.Made l) :
    tree.root.AgedFrom P := by
  induction hmade with
  | parse p text old id hp hbases _ ih =>
      rw [← hp] at ih
      have hoffers : ∀ start ∈ p.cursor? old, start.Offers l.table P :=
        Parser.offers_cursor? h.child ih
      exact .kept _ (hroot _ (Parser.isRootOf_parse h hp hbases hoffers text id))
  | edit tree change id _ ih =>
      have hchildren := (Subtree.agedFrom_edit h.child (RelativeEdit.ofInput change) id tree.root
        ih).child h.child
      exact .changed _ (Subtree.hasChanges_edit (RelativeEdit.ofInput change) id tree.root) hchildren

/-- Every subtree of the tree of a parse has what parses keep and roots have as well. -/
theorem Parser.inherited_parse (h : Subtree.Inherited l.table (RepetitionBases.ofTable l.table) P)
    (hroot : ∀ root : Subtree, root.IsRootOf l.table P → P root) (hp : p.language = l)
    (hbases : p.bases = RepetitionBases.ofTable l.table) {old : Option Tree}
    (hold : ∀ tree ∈ old, tree.language.isSame l = true → tree.Made l) (text : ByteArray) (id : Nat) :
    P (p.parse text old id).tree.root := by
  rw [← hp] at hold
  have hoffers : ∀ start ∈ p.cursor? old, start.Offers l.table P :=
    Parser.offers_cursor? h.child fun tree htree hsame =>
      Tree.Made.agedFrom h hroot (hp ▸ hold tree htree hsame)
  exact hroot _ (Parser.isRootOf_parse h hp hbases hoffers text id)

/-- What productions must have to fit, for parsers of a language. -/
structure Language.ProductionsFit (l : Language) (fits : Symbol → ProductionId → Prop) : Prop where
  lhs : ∀ p, fits (l.table.production p).lhs p
  bases : (RepetitionBases.ofTable l.table).Keep fits

theorem Language.productionsFit_of_forall (l : Language) (h : ∀ s p, fits s p) : l.ProductionsFit fits :=
  ⟨fun p => h _ p, fun s _ base _ _ => h s base⟩

theorem Language.ProductionsFit.inherited_built (h : l.ProductionsFit fits) :
    Subtree.Inherited l.table (RepetitionBases.ofTable l.table) (Subtree.Built l.table fits) :=
  Subtree.inherited_built h.lhs h.bases

theorem Parser.setting_productionsFit (h : l.ProductionsFit fits) (hp : p.language = l)
    (hbases : p.bases = RepetitionBases.ofTable l.table) (text : ByteArray) :
    (p.setting text).ProductionsFit fits := by
  have htable : (p.setting text).table = l.table := by rw [← hp]; rfl
  have hbases' : (p.setting text).bases = RepetitionBases.ofTable l.table := hbases
  refine ⟨?_, ?_⟩
  · rw [htable]
    exact h.lhs
  · rw [hbases']
    exact h.bases

theorem Tree.Made.aged (hl : l.ProductionsFit fits) {tree : Tree} (h : tree.Made l) :
    tree.root.Aged l.table fits :=
  Tree.Made.agedFrom hl.inherited_built (fun _ hroot => hroot.built) h

/-- The tree of every parse is built, whatever trees were edited on the way to it. -/
theorem Parser.built_parse (hl : l.ProductionsFit fits) (hp : p.language = l)
    (hbases : p.bases = RepetitionBases.ofTable l.table) {old : Option Tree}
    (hold : ∀ tree ∈ old, tree.language.isSame l = true → tree.Made l) (text : ByteArray) (id : Nat) :
    (p.parse text old id).tree.root.Built l.table fits :=
  Parser.inherited_parse hl.inherited_built (fun _ hroot => hroot.built) hp hbases hold text id

end IncrementalLR
