import Mathlib.Logic.Relation
import IncrementalLR.Automaton.Item

/-!
# Derivations

What a grammar derives, by rewriting and by derivation trees. Rewriting says what the language of a
grammar is; the trees give the induction for proofs about parsers, and both come to the same strings
of terminals.
-/

namespace IncrementalLR.Grammar

variable {g : Grammar}

/-- One symbol is replaced by the right-hand side of one of its productions. -/
def Rewrites (g : Grammar) (u v : List Symbol) : Prop :=
  ∃ (i : Nat) (p : Production) (before after : List Symbol),
    g.productions[i]? = some p ∧ u = before ++ p.lhs :: after ∧ v = before ++ p.rhs ++ after

def Derives (g : Grammar) : List Symbol → List Symbol → Prop := Relation.ReflTransGen g.Rewrites

mutual

/-- The string is the yield of a derivation tree of the symbol. -/
inductive Yields (g : Grammar) : Symbol → List Symbol → Prop
  | terminal (s : Symbol) (hs : g.isTerminal s = true) : Yields g s [s]
  | node (i : Nat) (p : Production) (w : List Symbol) (hp : g.productions[i]? = some p)
      (hw : YieldsAll g p.rhs w) : Yields g p.lhs w

/-- The string is the yield of derivation trees of the symbols, one after the other. -/
inductive YieldsAll (g : Grammar) : List Symbol → List Symbol → Prop
  | nil : YieldsAll g [] []
  | cons (s : Symbol) (rest u v : List Symbol) (hs : Yields g s u) (hrest : YieldsAll g rest v) :
      YieldsAll g (s :: rest) (u ++ v)

end

theorem Rewrites.append_left {u v : List Symbol} (h : g.Rewrites u v) (w : List Symbol) :
    g.Rewrites (w ++ u) (w ++ v) := by
  obtain ⟨i, p, before, after, hp, rfl, rfl⟩ := h
  exact ⟨i, p, w ++ before, after, hp, by simp, by simp⟩

theorem Rewrites.append_right {u v : List Symbol} (h : g.Rewrites u v) (w : List Symbol) :
    g.Rewrites (u ++ w) (v ++ w) := by
  obtain ⟨i, p, before, after, hp, rfl, rfl⟩ := h
  exact ⟨i, p, before, after ++ w, hp, by simp, by simp⟩

theorem Derives.append_left {u v : List Symbol} (h : g.Derives u v) (w : List Symbol) :
    g.Derives (w ++ u) (w ++ v) := by
  induction h with
  | refl => exact .refl
  | tail _ hstep ih => exact ih.tail (hstep.append_left w)

theorem Derives.append_right {u v : List Symbol} (h : g.Derives u v) (w : List Symbol) :
    g.Derives (u ++ w) (v ++ w) := by
  induction h with
  | refl => exact .refl
  | tail _ hstep ih => exact ih.tail (hstep.append_right w)

theorem Derives.append {u v u' v' : List Symbol} (h : g.Derives u v) (h' : g.Derives u' v') :
    g.Derives (u ++ u') (v ++ v') :=
  (h.append_right u').trans (h'.append_left v)

theorem derives_rhs {i : Nat} {p : Production} (hp : g.productions[i]? = some p) :
    g.Derives [p.lhs] p.rhs :=
  .single ⟨i, p, [], [], hp, rfl, by simp⟩

/-- A string that the symbols derive starts with the terminal. -/
def Starts (g : Grammar) (symbols : List Symbol) (x : Symbol) : Prop :=
  g.isTerminal x = true ∧ ∃ w, g.Derives symbols (x :: w)

theorem Starts.of_derives {u v : List Symbol} {x : Symbol} (hv : g.Starts v x)
    (h : g.Derives u v) : g.Starts u x := by
  obtain ⟨hx, w, hw⟩ := hv
  exact ⟨hx, w, h.trans hw⟩

theorem Starts.append_right {u : List Symbol} {x : Symbol} (h : g.Starts u x) (v : List Symbol) :
    g.Starts (u ++ v) x := by
  obtain ⟨hx, w, hw⟩ := h
  exact ⟨hx, w ++ v, hw.append_right v⟩

theorem starts_terminal {s : Symbol} (hs : g.isTerminal s = true) : g.Starts [s] s :=
  ⟨hs, [], .refl⟩

/-! ### Trees and rewriting -/

mutual

theorem Yields.derives {s : Symbol} {w : List Symbol} (h : g.Yields s w) : g.Derives [s] w := by
  match h with
  | .terminal s _ => exact .refl
  | .node i p w hp hw => exact (derives_rhs hp).trans hw.derives

theorem YieldsAll.derives {u w : List Symbol} (h : g.YieldsAll u w) : g.Derives u w := by
  match h with
  | .nil => exact .refl
  | .cons s rest u v hs hrest => exact hs.derives.append hrest.derives

end

theorem YieldsAll.append {u v w x : List Symbol} (h : g.YieldsAll u w) (h' : g.YieldsAll v x) :
    g.YieldsAll (u ++ v) (w ++ x) := by
  induction u generalizing w with
  | nil =>
      cases h
      exact h'
  | cons s rest ih =>
      obtain _ | ⟨_, _, y, z, hs, hrest⟩ := h
      rw [List.cons_append, List.append_assoc]
      exact .cons s (rest ++ v) y (z ++ x) hs (ih hrest)

theorem YieldsAll.exists_of_append {u v w : List Symbol} (h : g.YieldsAll (u ++ v) w) :
    ∃ y z, w = y ++ z ∧ g.YieldsAll u y ∧ g.YieldsAll v z := by
  induction u generalizing w with
  | nil => exact ⟨[], w, rfl, .nil, h⟩
  | cons s rest ih =>
      obtain _ | ⟨_, _, a, b, hs, hrest⟩ := h
      obtain ⟨y, z, rfl, hy, hz⟩ := ih hrest
      exact ⟨a ++ y, z, by simp, .cons s rest a y hs hy, hz⟩

theorem yieldsAll_of_terminals {w : List Symbol} (h : ∀ s ∈ w, g.isTerminal s = true) :
    g.YieldsAll w w := by
  induction w with
  | nil => exact .nil
  | cons s rest ih =>
      exact .cons s rest [s] rest (.terminal s (h s List.mem_cons_self))
        (ih fun t ht => h t (List.mem_cons_of_mem s ht))

theorem YieldsAll.of_rewrites {u v w : List Symbol} (h : g.Rewrites u v)
    (hv : g.YieldsAll v w) : g.YieldsAll u w := by
  obtain ⟨i, p, before, after, hp, rfl, rfl⟩ := h
  obtain ⟨y, z, rfl, hy, hz⟩ := hv.exists_of_append
  obtain ⟨a, b, rfl, ha, hb⟩ := hy.exists_of_append
  rw [List.append_assoc]
  exact ha.append (.cons p.lhs after b z (.node i p b hp hb) hz)

/-- Every string of terminals that rewriting comes to is the yield of derivation trees. -/
theorem Derives.yieldsAll {u w : List Symbol} (h : g.Derives u w)
    (hw : ∀ s ∈ w, g.isTerminal s = true) : g.YieldsAll u w := by
  induction h using Relation.ReflTransGen.head_induction_on with
  | refl => exact yieldsAll_of_terminals hw
  | head hstep _ ih => exact ih.of_rewrites hstep

theorem yields_of_yieldsAll_singleton {s : Symbol} {w : List Symbol} (h : g.YieldsAll [s] w) :
    g.Yields s w := by
  obtain _ | ⟨_, _, u, v, hs, hrest⟩ := h
  cases hrest
  rwa [List.append_nil]

mutual

theorem Yields.isTerminal {s : Symbol} {w : List Symbol} (h : g.Yields s w) :
    ∀ a ∈ w, g.isTerminal a = true := by
  match h with
  | .terminal s hs => simpa using hs
  | .node i p w hp hw => exact hw.isTerminal

theorem YieldsAll.isTerminal {u w : List Symbol} (h : g.YieldsAll u w) :
    ∀ a ∈ w, g.isTerminal a = true := by
  match h with
  | .nil => simp
  | .cons s rest u v hs hrest =>
      intro a ha
      rcases List.mem_append.1 ha with ha | ha
      · exact hs.isTerminal a ha
      · exact hrest.isTerminal a ha

end

/-! ### Productive grammars -/

/-- Every nonterminal derives some string of terminals. -/
def Productive (g : Grammar) : Prop :=
  ∀ s : Symbol, g.terminalCount ≤ s.index → s.index < g.symbols.size →
    ∃ w, g.Derives [s] w ∧ ∀ a ∈ w, g.isTerminal a = true

theorem Productive.exists_yields (h : g.Productive) {s : Symbol} (hs : s.index < g.symbols.size) :
    ∃ w, g.Yields s w := by
  by_cases hterminal : g.isTerminal s = true
  · exact ⟨[s], .terminal s hterminal⟩
  · have hindex : g.terminalCount ≤ s.index := by simpa [isTerminal] using hterminal
    obtain ⟨w, hw, hall⟩ := h s hindex hs
    exact ⟨w, yields_of_yieldsAll_singleton (hw.yieldsAll hall)⟩

theorem Productive.exists_yieldsAll (h : g.Productive) {symbols : List Symbol}
    (hs : ∀ s ∈ symbols, s.index < g.symbols.size) : ∃ w, g.YieldsAll symbols w := by
  induction symbols with
  | nil => exact ⟨[], .nil⟩
  | cons s rest ih =>
      obtain ⟨u, hu⟩ := h.exists_yields (hs s List.mem_cons_self)
      obtain ⟨v, hv⟩ := ih fun t ht => hs t (List.mem_cons_of_mem s ht)
      exact ⟨u ++ v, .cons s rest u v hu hv⟩

end IncrementalLR.Grammar
