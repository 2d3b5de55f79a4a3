import IncrementalLR.Parse.Engine
import IncrementalLR.Proofs.Tree.Spans

/-!
# Roots

A root is built over the subtrees of a stack. If one of them is the whole of a start symbol, its
children come in its place, so a leaf of the start symbol is lost. Where the start symbol has no
leaves the root covers what its subtrees cover.
-/

namespace IncrementalLR

/-- The start symbol is a node, or its tokens may stand anywhere and count towards nothing. -/
def Table.StartIsNode (t : Table) : Prop :=
  t.isTerminal t.startSymbol = true → (t.symbolInfo t.startSymbol).extra = true

namespace ParseSetting

variable {table : Table} {setting : ParseSetting} {t : Subtree} {trees tail : List Subtree}
  {u w : List UInt8}

theorem soleStart?_spec {start : Symbol} {before after : List Subtree}
    (h : soleStart? start trees = some (before, t, after)) :
    trees = before ++ t :: after ∧ t.isStructural = true ∧ t.symbol = start := by
  rw [soleStart?] at h
  split at h
  · cases h
  · rename_i t' after' hdrop
    split at h
    · rename_i hsole
      cases h
      refine ⟨?_, ?_, ?_⟩
      · rw [← hdrop, List.takeWhile_append_dropWhile]
      · have hhead := List.head?_dropWhile_not (!·.isStructural) trees
        rw [hdrop] at hhead
        simpa using hhead
      · exact eq_of_beq (Bool.and_eq_true_iff.1 hsole).1
    · cases h

/-- A leaf that counts as the start symbol is missing. -/
theorem eq_nil_of_covers_start (hstart : table.StartIsNode) (h : Covers table t w)
    (hleaf : t.isLeaf = true) (hstructural : t.isStructural = true)
    (hsymbol : t.symbol = table.startSymbol) : w = [] := by
  cases h with
  | token id token padding size hkind =>
      rw [Subtree.isStructural, Bool.and_eq_true_iff, hsymbol] at hstructural
      obtain ⟨hextra, herror⟩ := hstructural
      have heq : token.symbol = table.startSymbol := hsymbol
      rcases hkind with hkind | hterminal
      · rw [heq] at hkind
        rw [hkind] at herror
        cases herror
      · rw [heq] at hterminal
        have hflag : (!(table.symbolInfo token.symbol).extra) = true := hextra
        rw [heq, hstart hterminal] at hflag
        cases hflag
  | missing => rfl
  | interior => simp at hleaf
  | root => simp at hleaf

/-- The children of the start symbol in its place cover the same. -/
theorem coversAll_of_soleStart (hstart : table.StartIsNode) (h : CoversAll table trees w)
    {before after : List Subtree}
    (hsole : soleStart? table.startSymbol trees = some (before, t, after)) :
    CoversAll table (before ++ t.children ++ after) w := by
  obtain ⟨rfl, hstructural, hsymbol⟩ := soleStart?_spec hsole
  obtain ⟨x, y, rfl, hbefore, hrest⟩ := h.exists_of_append
  obtain _ | ⟨_, _, u, v, ht, hafter⟩ := hrest
  have hchildren : CoversAll table t.children u := by
    cases hleaf : t.isLeaf with
    | false => exact ht.coversAll_children hleaf
    | true =>
        rw [ht.children_eq_nil hleaf, eq_nil_of_covers_start hstart ht hleaf hstructural hsymbol]
        exact .nil
  rw [List.append_assoc]
  exact hbefore.append (hchildren.append hafter)

/-- The root is over what the subtrees and those behind them cover. -/
theorem isRootOver_buildRoot (hstart : setting.table.StartIsNode) (id : Nat) (after : List UInt8)
    (h : CoversAll setting.table trees w) (htail : CoversAll setting.table tail u) :
    IsRootOver setting.table (w ++ u) after
      (setting.buildRoot id trees tail (Length.ofList after)).1 := by
  have hbalanced := coversAll_balanceWhere setting.bases (fun _ => true) id h
  have hroot : ∀ id' children production, CoversAll setting.table children w →
      let root := Subtree.interior setting.table id' setting.table.startSymbol (children ++ tail)
        production false
      IsRootOver setting.table (w ++ u) after
        (root.stretched (root.total + Length.ofList after)) := by
    intro id' children production hchildren
    have hall := hchildren.append htail
    have htotal := (Covers.interior id' setting.table.startSymbol _ production false _ hall).total_eq
    simp only
    rw [htotal, ← Length.ofList_append]
    exact .mk id' (children ++ tail) production hall
  rw [buildRoot]
  refine hroot _ _ _ ?_
  split
  · rename_i hsole
    exact coversAll_of_soleStart hstart hbalanced hsole
  · split
    · exact coversAll_singleton (hbalanced.covers_ofSkipped _)
    · exact hbalanced

end ParseSetting

end IncrementalLR
