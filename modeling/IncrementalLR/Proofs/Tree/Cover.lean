import IncrementalLR.Proofs.Text.Length
import IncrementalLR.Parse.Repetition

/-!
# What subtrees cover

A subtree covers a stretch of text when its tokens and their paddings are that text, piece by piece,
and every node above them was made over its children. Making nodes, flattening skipped text and
balancing repetitions move the pieces into other nodes and keep their order.
-/

namespace IncrementalLR

namespace Subtree

variable (table : Table)

/-! ### Nodes -/

@[simp] theorem children_interior (id : Nat) (s : Symbol) (children : List Subtree)
    (production : Option ProductionId) (fragile : Bool) :
    (interior table id s children production fragile).children = children := by
  cases children <;> rfl

@[simp] theorem symbol_interior (id : Nat) (s : Symbol) (children : List Subtree)
    (production : Option ProductionId) (fragile : Bool) :
    (interior table id s children production fragile).symbol = s := by
  cases children <;> rfl

@[simp] theorem isLeaf_interior (id : Nat) (s : Symbol) (children : List Subtree)
    (production : Option ProductionId) (fragile : Bool) :
    (interior table id s children production fragile).isLeaf = false := by
  cases children <;> rfl

/-- Paddings and sizes of subtrees one after the other. -/
def totalAll : List Subtree → Length
  | [] => Length.zero
  | t :: rest => t.total + totalAll rest

theorem totalAll_append (a b : List Subtree) : totalAll (a ++ b) = totalAll a + totalAll b := by
  induction a with
  | nil => simp [totalAll]
  | cons t a ih => rw [List.cons_append, totalAll, ih, totalAll, Length.add_assoc]

theorem foldl_add_total (place : Length) (trees : List Subtree) :
    trees.foldl (fun place t => place + t.total) place = place + totalAll trees := by
  induction trees generalizing place with
  | nil => simp [totalAll]
  | cons t trees ih => rw [List.foldl_cons, ih, totalAll, Length.add_assoc]

theorem length_foldl_add (isError : Bool) (summary : Summary) (children : List Subtree) :
    (children.foldl (Summary.add isError) summary).length = summary.length + totalAll children := by
  induction children generalizing summary with
  | nil => simp [totalAll]
  | cons child children ih => rw [List.foldl_cons, ih, Summary.add, totalAll, Length.add_assoc]

theorem size_interior_cons (id : Nat) (s : Symbol) (first : Subtree) (rest : List Subtree)
    (production : Option ProductionId) (fragile : Bool) :
    (interior table id s (first :: rest) production fragile).size
      = (totalAll (first :: rest)).monus first.padding := by
  change ((first :: rest).foldl (Summary.add (s == Symbol.error)) _).length.monus first.padding = _
  rw [length_foldl_add]
  simp

/-- A node in the form of a root: nothing is in front of it, and it may be longer than its children
are together. -/
def stretched (t : Subtree) (size : Length) : Subtree :=
  mk { t.head with padding := Length.zero, size := size } t.children

@[simp] theorem children_stretched (t : Subtree) (size : Length) :
    (t.stretched size).children = t.children := rfl

@[simp] theorem symbol_stretched (t : Subtree) (size : Length) :
    (t.stretched size).symbol = t.symbol := rfl

@[simp] theorem isLeaf_stretched (t : Subtree) (size : Length) :
    (t.stretched size).isLeaf = t.isLeaf := rfl

end Subtree

open Subtree (ofToken ofMissing interior totalAll flattenError ofSkipped unchain joinPairs
  joinBalanced balance balanceWhere chainBase? children_interior size_interior_cons)

mutual

/-- The subtree covers the text. A root among the nodes may have its padding in its size. -/
inductive Covers (table : Table) : Subtree → List UInt8 → Prop
  | token (id : Nat) (token : Lexed) (padding size : List UInt8)
      (hsymbol : token.symbol = Symbol.error ∨ table.isTerminal token.symbol = true)
      (hpadding : token.padding = Length.ofList padding) (hsize : token.size = Length.ofList size)
      (heof : token.symbol = Symbol.eof → size = []) :
      Covers table (ofToken table id token) (padding ++ size)
  | missing (id : Nat) (s : Symbol) (mode : LexMode) :
      Covers table (ofMissing table id s mode) []
  | interior (id : Nat) (s : Symbol) (children : List Subtree) (production : Option ProductionId)
      (fragile : Bool) (w : List UInt8) (hchildren : CoversAll table children w) :
      Covers table (interior table id s children production fragile) w
  | root (id : Nat) (s : Symbol) (children : List Subtree) (production : Option ProductionId)
      (fragile : Bool) (w : List UInt8) (hchildren : CoversAll table children w) :
      Covers table ((interior table id s children production fragile).stretched (Length.ofList w)) w

/-- The subtrees cover the text, one after the other. -/
inductive CoversAll (table : Table) : List Subtree → List UInt8 → Prop
  | nil : CoversAll table [] []
  | cons (t : Subtree) (rest : List Subtree) (u v : List UInt8) (ht : Covers table t u)
      (hrest : CoversAll table rest v) : CoversAll table (t :: rest) (u ++ v)

end

variable {table : Table} {t : Subtree} {trees : List Subtree}
  {w : List UInt8}

/-! ### Subtrees one after the other -/

theorem coversAll_singleton (h : Covers table t w) : CoversAll table [t] w := by
  have hall := CoversAll.cons t [] w [] h .nil
  rwa [List.append_nil] at hall

theorem covers_of_coversAll_singleton (h : CoversAll table [t] w) : Covers table t w := by
  obtain _ | ⟨_, _, u, v, ht, hrest⟩ := h
  cases hrest
  rwa [List.append_nil]

theorem CoversAll.append {more : List Subtree} {v : List UInt8} (h : CoversAll table trees w)
    (hmore : CoversAll table more v) : CoversAll table (trees ++ more) (w ++ v) := by
  induction trees generalizing w with
  | nil =>
      cases h
      exact hmore
  | cons t rest ih =>
      obtain _ | ⟨_, _, u, x, ht, hrest⟩ := h
      rw [List.cons_append, List.append_assoc]
      exact .cons t (rest ++ more) u (x ++ v) ht (ih hrest)

theorem CoversAll.exists_of_append {more : List Subtree} (h : CoversAll table (trees ++ more) w) :
    ∃ u v, w = u ++ v ∧ CoversAll table trees u ∧ CoversAll table more v := by
  induction trees generalizing w with
  | nil => exact ⟨[], w, rfl, .nil, h⟩
  | cons t rest ih =>
      obtain _ | ⟨_, _, x, y, ht, hrest⟩ := h
      obtain ⟨u, v, rfl, hu, hv⟩ := ih hrest
      exact ⟨x ++ u, v, by rw [List.append_assoc], .cons t rest x u ht hu, hv⟩

/-- Subtrees may take the place of others that cover the same. -/
theorem CoversAll.flatMap {f : Subtree → List Subtree} (h : CoversAll table trees w)
    (hf : ∀ t u, Covers table t u → CoversAll table (f t) u) :
    CoversAll table (trees.flatMap f) w := by
  induction trees generalizing w with
  | nil => exact h
  | cons t rest ih =>
      obtain _ | ⟨_, _, u, v, ht, hrest⟩ := h
      rw [List.flatMap_cons]
      exact (hf t u ht).append (ih hrest)

/-! ### Lengths -/

mutual

/-- What is covered is a padding and then a size. -/
theorem Covers.exists_eq_append {t : Subtree} {w : List UInt8} (h : Covers table t w) :
    ∃ padding size, w = padding ++ size ∧ t.padding = Length.ofList padding ∧
      t.size = Length.ofList size := by
  match h with
  | .token id token padding size _ hpadding hsize _ => exact ⟨padding, size, rfl, hpadding, hsize⟩
  | .missing id s mode => exact ⟨[], [], rfl, rfl, rfl⟩
  | .interior id s [] production fragile w hchildren =>
      cases hchildren
      exact ⟨[], [], rfl, rfl, rfl⟩
  | .interior id s (first :: rest) production fragile w hchildren =>
      have htotal := hchildren.totalAll_eq
      obtain _ | ⟨_, _, u, v, hfirst, hrest⟩ := hchildren
      obtain ⟨padding, size, rfl, hpadding, hsize⟩ := hfirst.exists_eq_append
      refine ⟨padding, size ++ v, by rw [List.append_assoc], hpadding, ?_⟩
      rw [size_interior_cons, htotal, hpadding, List.append_assoc]
      exact Length.monus_ofList_append padding (size ++ v)
  | .root id s children production fragile w _ => exact ⟨[], w, rfl, rfl, rfl⟩

theorem CoversAll.totalAll_eq {trees : List Subtree} {w : List UInt8}
    (h : CoversAll table trees w) : totalAll trees = Length.ofList w := by
  match h with
  | .nil => rfl
  | .cons t rest u v ht hrest =>
      obtain ⟨padding, size, rfl, hpadding, hsize⟩ := ht.exists_eq_append
      rw [totalAll, hrest.totalAll_eq, Subtree.total, hpadding, hsize, ← Length.ofList_append,
        ← Length.ofList_append]

end

theorem Covers.total_eq (h : Covers table t w) : t.total = Length.ofList w := by
  obtain ⟨padding, size, rfl, hpadding, hsize⟩ := h.exists_eq_append
  rw [Subtree.total, hpadding, hsize, ← Length.ofList_append]

/-! ### Nodes made of others -/

/-- The children of a node cover what the node covers. -/
theorem Covers.coversAll_children (h : Covers table t w)
    (hleaf : t.isLeaf = false) : CoversAll table t.children w := by
  cases h with
  | token => cases hleaf
  | missing => cases hleaf
  | interior id s children production fragile w hchildren => rwa [children_interior]
  | root id s children production fragile w hchildren =>
      rwa [Subtree.children_stretched, children_interior]

theorem Covers.isLeaf_eq_false (h : Covers table t w) (hchildren : t.children ≠ []) :
    t.isLeaf = false := by
  cases h with
  | token => exact absurd rfl hchildren
  | missing => exact absurd rfl hchildren
  | interior => exact Subtree.isLeaf_interior ..
  | root => exact Subtree.isLeaf_interior ..

theorem Covers.children_eq_nil (h : Covers table t w) (hleaf : t.isLeaf = true) : t.children = [] := by
  cases h with
  | token => rfl
  | missing => rfl
  | interior => simp at hleaf
  | root => simp at hleaf

theorem Covers.coversAll_flattenError (h : Covers table t w) :
    CoversAll table t.flattenError w := by
  rw [flattenError]
  split
  · rename_i hnode
    exact h.coversAll_children (by simpa using (Bool.and_eq_true_iff.1 hnode).2)
  · exact coversAll_singleton h

theorem CoversAll.covers_ofSkipped (h : CoversAll table trees w)
    (id : Nat) : Covers table (ofSkipped table id trees) w :=
  .interior id Symbol.error _ none true w
    (h.flatMap fun _ _ ht => ht.coversAll_flattenError)

/-! ### Balancing -/

theorem covers_unchain (bases : RepetitionBases) (id : Nat)
    {parts : List Subtree} {v : List UInt8} (h : Covers table t w)
    (hparts : CoversAll table parts v) :
    CoversAll table (unchain table bases id parts t).1 (w ++ v) := by
  fun_induction unchain table bases id parts t generalizing w v with
  | case1 id parts head => exact .cons _ _ _ _ h hparts
  | case2 id parts head first rest _ => exact .cons _ _ _ _ h hparts
  | case3 =>
      rename_i id parts head first rest base _ part ih
      have hleaf := h.isLeaf_eq_false (List.cons_ne_nil first rest)
      obtain _ | ⟨_, _, u, x, hfirst, hrest⟩ := h.coversAll_children hleaf
      rw [List.append_assoc]
      exact ih hfirst (.cons _ parts x v (.interior _ _ rest _ _ x hrest) hparts)

theorem coversAll_joinPairs (s : Symbol) (id : Nat) (h : CoversAll table trees w) :
    CoversAll table (joinPairs table s id trees).1 w := by
  fun_induction joinPairs table s id trees generalizing w with
  | case1 =>
      rename_i id left right rest node joined next heq ih
      rw [heq] at ih
      obtain _ | ⟨_, _, u, v, hleft, hrest⟩ := h
      obtain _ | ⟨_, _, x, y, hright, hrest⟩ := hrest
      have hpair := (coversAll_singleton hleft).append (coversAll_singleton hright)
      rw [← List.append_assoc]
      exact .cons _ joined (u ++ x) y (.interior _ _ _ _ _ _ hpair) (ih hrest)
  | case2 => exact h
  | case3 => exact h

theorem covers_joinBalanced (s : Symbol) (id : Nat) (first : Subtree) (rest : List Subtree)
    (h : CoversAll table (first :: rest) w) :
    Covers table (joinBalanced table s id first rest).1 w := by
  fun_induction joinBalanced table s id first rest generalizing w with
  | case1 id first => exact covers_of_coversAll_singleton h
  | case2 =>
      rename_i id first second rest node ih
      obtain _ | ⟨_, _, u, v, hfirst, hrest⟩ := h
      obtain _ | ⟨_, _, x, y, hsecond, hrest⟩ := hrest
      have hpair := (coversAll_singleton hfirst).append (coversAll_singleton hsecond)
      rw [← List.append_assoc] at *
      exact ih (.cons _ _ (u ++ x) y (.interior _ _ _ _ _ _ hpair)
        (coversAll_joinPairs s (id + 1) hrest))

theorem covers_balance (bases : RepetitionBases) (id : Nat)
    (h : Covers table t w) : Covers table (balance table bases id t).1 w := by
  rw [balance]
  cases chainBase? bases t with
  | none => exact h
  | some base =>
      have hparts := covers_unchain bases id h .nil
      rw [List.append_nil] at hparts
      simp only
      cases hunchain : unchain table bases id [] t with
      | mk parts next =>
          rw [hunchain] at hparts
          cases parts with
          | nil => exact h
          | cons first rest => exact covers_joinBalanced t.symbol next first rest hparts

theorem coversAll_balanceWhere (bases : RepetitionBases)
    (condition : Subtree → Bool) (id : Nat) (h : CoversAll table trees w) :
    CoversAll table (balanceWhere table bases condition id trees).1 w := by
  induction trees generalizing id w with
  | nil => exact h
  | cons t rest ih =>
      obtain _ | ⟨_, _, u, v, ht, hrest⟩ := h
      rw [balanceWhere]
      refine .cons _ _ u v ?_ (ih _ hrest)
      by_cases hcondition : condition t = true
      · rw [if_pos hcondition]
        exact covers_balance bases id ht
      · rw [if_neg hcondition]
        exact ht

end IncrementalLR
