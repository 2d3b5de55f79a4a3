import IncrementalLR.Tree.Subtree

/-!
# Repetitions

A repetition is parsed as a chain of nodes, each with the one before it as its first child. When a
chain becomes part of another node it is rebuilt as a balanced tree, so long lists do not make deep
trees.
-/

namespace IncrementalLR

/-- For each production of a repetition that starts with the repetition itself, the production of
its rest. -/
structure RepetitionBases where
  base : Array (Option ProductionId)

namespace RepetitionBases

/-- The production with the rest of this one as its right-hand side, if this one starts with its own
left-hand side and that is an auxiliary symbol. -/
def find? (t : Table) (p : ProductionInfo) : Option ProductionId :=
  match p.rhs.toList with
  | [] => none
  | first :: rest =>
    if (t.symbolInfo p.lhs).kind = .auxiliary ∧ first = p.lhs then
      (t.productions.findIdx? fun q => q.lhs == p.lhs && q.rhs.toList == rest).map (·.toUInt32)
    else none

def ofTable (t : Table) : RepetitionBases := ⟨t.productions.map (find? t)⟩

def get? (bases : RepetitionBases) (p : ProductionId) : Option ProductionId :=
  bases.base[p.toNat]?.join

end RepetitionBases

namespace Subtree

/-- The production for the rest of a link of a chain. A link has one of the productions of a
repetition, and its first child is a node of the same symbol. -/
def chainBase? (bases : RepetitionBases) (t : Subtree) : Option ProductionId := do
  let base ← bases.get? (← t.head.production)
  let first ← t.children.head?
  if first.symbol == t.symbol && first.isStructural then some base else none

/-- Takes a chain apart: its last node and then the rest of each link as a node of its own, in front
of the parts there are already. New nodes are numbered from `id` on. -/
def unchain (table : Table) (bases : RepetitionBases) (id : Nat) (parts : List Subtree) :
    Subtree → List Subtree × Nat
  | mk head [] => (mk head [] :: parts, id)
  | mk head (first :: rest) =>
    match chainBase? bases (mk head (first :: rest)) with
    | none => (mk head (first :: rest) :: parts, id)
    | some base =>
      let part := interior table id head.symbol rest (some base) head.flags.fragile
      unchain table bases (id + 1) (part :: parts) first

/-- Joins each two neighbours to one node. -/
def joinPairs (table : Table) (s : Symbol) (id : Nat) : List Subtree → List Subtree × Nat
  | left :: right :: rest =>
    let node := interior table id s [left, right] none (left.flags.fragile || right.flags.fragile)
    let (joined, next) := joinPairs table s (id + 1) rest
    (node :: joined, next)
  | [single] => ([single], id)
  | [] => ([], id)

theorem length_joinPairs (table : Table) (s : Symbol) (id : Nat) (trees : List Subtree) :
    (joinPairs table s id trees).1.length = (trees.length + 1) / 2 := by
  fun_induction joinPairs table s id trees with
  | case1 id left right rest node joined next heq ih =>
    rw [heq] at ih
    simp only [List.length_cons, ih]
    omega
  | case2 => simp
  | case3 => simp

/-- Joins subtrees level by level to a balanced tree over the first one and those behind it. -/
def joinBalanced (table : Table) (s : Symbol) (id : Nat) (first : Subtree) (rest : List Subtree) :
    Subtree × Nat :=
  match rest with
  | [] => (first, id)
  | second :: rest =>
    let node := interior table id s [first, second] none
      (first.flags.fragile || second.flags.fragile)
    joinBalanced table s (joinPairs table s (id + 1) rest).2 node
      (joinPairs table s (id + 1) rest).1
  termination_by rest.length
  decreasing_by
    rw [length_joinPairs]
    simp only [List.length_cons]
    omega

/-- A chain of a repetition as a balanced tree; all else stays. -/
def balance (table : Table) (bases : RepetitionBases) (id : Nat) (t : Subtree) : Subtree × Nat :=
  match chainBase? bases t with
  | none => (t, id)
  | some _ =>
    match unchain table bases id [] t with
    | ([], next) => (t, next)
    | (first :: rest, next) => joinBalanced table t.symbol next first rest

/-- Balances subtrees that satisfy a condition. -/
def balanceWhere (table : Table) (bases : RepetitionBases) (condition : Subtree → Bool) (id : Nat) :
    List Subtree → List Subtree × Nat
  | [] => ([], id)
  | t :: rest =>
    let (t, next) := if condition t then balance table bases id t else (t, id)
    let (rest, next) := balanceWhere table bases condition next rest
    (t :: rest, next)

end Subtree

end IncrementalLR
