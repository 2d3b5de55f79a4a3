import Mathlib.Data.Fintype.Pi
import Mathlib.Data.Set.Card
import Mathlib.Order.PiLex
import IncrementalLR.Parse.Recovery
import IncrementalLR.Proofs.Table.Entries

/-!
# Reductions between two shifts

A reduction shortens the stack, or it puts a symbol in the place of one that it derives with nothing
beside it, or it puts a symbol on top that derives nothing. Without cycles and hidden left recursion
in the grammar there is only room for so many of the last kind on top of each other. So however the
conflicts of the grammar were settled, reductions in front of a terminal come to an end.
-/

namespace IncrementalLR

open KernelFollows (states)

open Relation (ReflTransGen TransGen)

instance : Finite Symbol :=
  Finite.of_injective (fun s => (⟨s.index, s.index_lt⟩ : Fin 65536)) fun _ _ h =>
    Symbol.index_injective (Fin.mk.inj_iff.1 h)

namespace Grammar

/-- A right-hand side of the first symbol has the second one behind symbols that derive nothing. -/
def Corner (g : Grammar) (a b : Symbol) : Prop :=
  ∃ p ∈ g.productions, ∃ before after, p.lhs = a ∧ p.rhs = before ++ b :: after ∧
    ∀ s ∈ before, g.Yields s []

/-- The corner is hidden: there is a symbol in front of it. -/
def HiddenCorner (g : Grammar) (a b : Symbol) : Prop :=
  ∃ p ∈ g.productions, ∃ before after, p.lhs = a ∧ p.rhs = before ++ b :: after ∧
    (∀ s ∈ before, g.Yields s []) ∧ before ≠ []

/-- A right-hand side of the first symbol has the second one beside symbols that derive nothing. -/
def Embeds (g : Grammar) (a b : Symbol) : Prop :=
  ∃ p ∈ g.productions, ∃ before after, p.lhs = a ∧ p.rhs = before ++ b :: after ∧
    ∀ s ∈ before ++ after, g.Yields s []

/-- No symbol derives itself with nothing beside it, and no left recursion is hidden. -/
structure Acyclic (g : Grammar) : Prop where
  embeds : ∀ a, ¬ TransGen g.Embeds a a
  hidden : ∀ a b, g.HiddenCorner a b → ¬ ReflTransGen g.Corner b a

variable {g : Grammar} {a b : Symbol}

theorem Embeds.corner (h : g.Embeds a b) : g.Corner a b := by
  obtain ⟨p, hp, before, after, hlhs, hrhs, hnull⟩ := h
  exact ⟨p, hp, before, after, hlhs, hrhs, fun s hs => hnull s (List.mem_append_left _ hs)⟩

theorem HiddenCorner.corner (h : g.HiddenCorner a b) : g.Corner a b := by
  obtain ⟨p, hp, before, after, hlhs, hrhs, hnull, _⟩ := h
  exact ⟨p, hp, before, after, hlhs, hrhs, hnull⟩

/-- A grammar without recursion is acyclic. -/
theorem acyclic_of_rank (rank : Symbol → Nat)
    (h : ∀ p ∈ g.productions, ∀ s ∈ p.rhs, rank s < rank p.lhs) : g.Acyclic := by
  have hcorner : ∀ {a b : Symbol}, g.Corner a b → rank b < rank a := by
    rintro a b ⟨p, hp, before, after, rfl, hrhs, _⟩
    exact h p hp b (by simp [hrhs])
  have hchain : ∀ {a b : Symbol}, ReflTransGen g.Corner a b → rank b ≤ rank a := by
    intro a b hab
    induction hab with
    | refl => exact Nat.le_refl _
    | tail _ hstep ih => exact (hcorner hstep).le.trans ih
  have hembeds : ∀ {a b : Symbol}, TransGen g.Embeds a b → rank b < rank a := by
    intro a b hab
    induction hab with
    | single hstep => exact hcorner hstep.corner
    | tail _ hstep ih => exact (hcorner hstep.corner).trans ih
  refine ⟨fun a ha => Nat.lt_irrefl _ (hembeds ha), fun a b hab hba => ?_⟩
  exact absurd (hcorner hab.corner) (Nat.not_lt_of_le (hchain hba))

/-! ### Ranks -/

/-- The symbols from which a symbol is reached over a hidden corner. -/
def above (g : Grammar) (b : Symbol) : Set Symbol :=
  { a | ∃ c d, ReflTransGen g.Corner a c ∧ g.HiddenCorner c d ∧ ReflTransGen g.Corner d b }

noncomputable def depth (g : Grammar) (b : Symbol) : Nat := (g.above b).ncard

/-- The symbols that a symbol derives with nothing beside them. -/
def embedded (g : Grammar) (a : Symbol) : Set Symbol := { b | TransGen g.Embeds a b }

noncomputable def height (g : Grammar) (a : Symbol) : Nat := (g.embedded a).ncard

theorem height_le (g : Grammar) (a : Symbol) : g.height a ≤ Nat.card Symbol :=
  Set.ncard_le_card _

theorem above_subset (h : g.Corner a b) : g.above a ⊆ g.above b := by
  rintro s ⟨c, d, hc, hhidden, hd⟩
  exact ⟨c, d, hc, hhidden, hd.tail h⟩

theorem depth_le_depth (h : g.Corner a b) : g.depth a ≤ g.depth b :=
  Set.ncard_le_ncard (above_subset h)

theorem Acyclic.depth_lt_depth (hacyclic : g.Acyclic) (h : g.HiddenCorner a b) :
    g.depth a < g.depth b := by
  refine Set.ncard_lt_ncard ((Set.ssubset_iff_of_subset (above_subset h.corner)).2 ⟨a, ?_, ?_⟩)
  · exact ⟨a, b, .refl, h, .refl⟩
  · rintro ⟨c, d, hc, hhidden, hd⟩
    exact hacyclic.hidden c d hhidden (hd.trans hc)

theorem Acyclic.height_lt_height (hacyclic : g.Acyclic) (h : g.Embeds a b) :
    g.height b < g.height a := by
  refine Set.ncard_lt_ncard ((Set.ssubset_iff_of_subset fun c hc => ?_).2 ⟨b, ?_, ?_⟩)
  · exact TransGen.head h hc
  · exact TransGen.single h
  · exact hacyclic.embeds b

/-! ### Room for symbols that derive nothing -/

/-- Not shorter than any right-hand side. -/
def rhsBound (g : Grammar) : Nat := (g.productions.toList.map fun p => p.rhs.length).sum

theorem length_rhs_le {p : Production} (hp : p ∈ g.productions) : p.rhs.length ≤ g.rhsBound :=
  List.single_le_sum (fun _ _ => Nat.zero_le _) _
    (List.mem_map.2 ⟨p, Array.mem_toList_iff.2 hp, rfl⟩)

/-- How many symbols that derive nothing are on top of an item of this left-hand side. -/
noncomputable def room (g : Grammar) (s : Symbol) : Nat := (g.depth s + 1) * g.rhsBound

theorem rhsBound_le_room (g : Grammar) (s : Symbol) : g.rhsBound ≤ g.room s :=
  Nat.le_mul_of_pos_left _ (Nat.succ_pos _)

theorem room_le_room (h : g.Corner a b) : g.room a ≤ g.room b :=
  Nat.mul_le_mul_right _ (Nat.succ_le_succ (depth_le_depth h))

theorem Acyclic.room_add_le (hacyclic : g.Acyclic) (h : g.HiddenCorner a b) :
    g.room a + g.rhsBound ≤ g.room b := by
  calc g.room a + g.rhsBound = (g.depth a + 1 + 1) * g.rhsBound := by
        rw [room, Nat.add_mul (g.depth a + 1), Nat.one_mul]
    _ ≤ g.room b := Nat.mul_le_mul_right _ (Nat.succ_le_succ (hacyclic.depth_lt_depth h))

/-- What holds of the nonterminals behind the dots of a kernel, and of the first symbols of the
productions of those of which it holds, holds of all nonterminals that the closure adds. -/
theorem closureSymbols_induction (hg : g.WellFormed) {P : Symbol → Prop} {kernel : List Item}
    (hkernel : ∀ item ∈ kernel, ∀ s, g.nextSymbol? item = some s → P s)
    (hcorner : ∀ (i : Nat) (p : Production) (s : Symbol), g.productions[i]? = some p → P p.lhs →
      g.nextSymbol? ⟨i, 0⟩ = some s → P s) {s : Symbol}
    (hs : (g.closureSymbols g.productionsByLhs kernel).contains s = true) : P s := by
  have hsearch : ∀ (fuel : Nat) (todo : List Symbol) (found : SymbolSet),
      (∀ s ∈ todo, s.index < g.symbols.size ∧ P s) → (∀ s, found.contains s = true → P s) →
      ∀ s, (leftCornersFrom g g.productionsByLhs fuel todo found).contains s = true → P s := by
    intro fuel
    induction fuel with
    | zero => exact fun _ _ _ hfound => hfound
    | succ fuel ih =>
        intro todo found htodo hfound
        cases todo with
        | nil => exact hfound
        | cons first todo =>
            obtain ⟨⟨hlt, hfirst⟩, htodo⟩ := List.forall_mem_cons.1 htodo
            rw [leftCornersFrom]
            split
            · exact ih todo found htodo hfound
            · refine ih _ _ (fun t ht => ?_) (fun t ht => ?_)
              · rcases List.mem_append.1 ht with ht | ht
                · obtain ⟨i, hi, hnext⟩ := List.mem_filterMap.1 ht
                  obtain ⟨p, hp, rfl⟩ := (mem_productionsByLhs hlt).1 hi
                  exact ⟨(hg.nextSymbol?_usable hnext).2.2, hcorner i p t hp hfirst hnext⟩
                · exact htodo t ht
              · rw [SymbolSet.contains_insert, Bool.or_eq_true, decide_eq_true_iff] at ht
                rcases ht with ht | rfl
                · exact hfound t ht
                · exact hfirst
  refine hsearch _ _ _ (fun t ht => ?_) (fun t ht => ?_) s hs
  · obtain ⟨item, hitem, ht⟩ := List.mem_filterMap.1 ht
    have hnext := (nextNonterminal?_eq_some.1 ht).1
    exact ⟨(hg.nextSymbol?_usable hnext).2.2, hkernel item hitem t hnext⟩
  · rw [SymbolSet.contains_empty] at ht
    cases ht

end Grammar

variable {g : Grammar} {policy : ConflictPolicy} {t : Table} {x : Symbol}

/-- The symbol behind a dot divides the right-hand side. -/
theorem Grammar.split_of_nextSymbol? {i d : Nat} {p : Production} (hp : g.productions[i]? = some p)
    {s : Symbol} (hnext : g.nextSymbol? ⟨i, d⟩ = some s) :
    d < p.rhs.length ∧ p.rhs = p.rhs.take d ++ s :: p.rhs.drop (d + 1) := by
  obtain ⟨p', hp', hs⟩ := Grammar.nextSymbol?_eq_some.1 hnext
  rw [hp, Option.some.injEq] at hp'
  subst hp'
  obtain ⟨hlt, heq⟩ := List.getElem?_eq_some_iff.1 hs
  refine ⟨hlt, ?_⟩
  rw [← heq, List.cons_getElem_drop_succ, List.take_append_drop]

/-- What the kernel has room for on top of its items is room enough for those that the closure adds. -/
theorem Grammar.Acyclic.length_le_room_of_kernel (hacyclic : g.Acyclic) (hg : g.WellFormed)
    {kernel : List Item} {n : Nat}
    (hkernel : ∀ (i d : Nat) (p : Production), g.productions[i]? = some p → ⟨i, d⟩ ∈ kernel →
      n ≤ g.room p.lhs + d ∧ (d ≤ n → ∀ a ∈ p.rhs.take d, g.Yields a []))
    {i d : Nat} {p : Production} (hp : g.productions[i]? = some p)
    (hitem : ⟨i, d⟩ ∈ g.closure g.productionsByLhs kernel) : n ≤ g.room p.lhs + d := by
  rcases Grammar.mem_closure.1 hitem with hitem | ⟨_, _, hadded⟩
  · exact (hkernel i d p hp hitem).1
  refine Nat.le_add_right_of_le ?_
  rw [Grammar.itemLhs_eq hp] at hadded
  refine Grammar.closureSymbols_induction hg (P := fun s => n ≤ g.room s) ?_ ?_ hadded
  · rintro ⟨j, e⟩ hmem s hnext
    obtain ⟨q, hq, _⟩ := Grammar.nextSymbol?_eq_some.1 hnext
    obtain ⟨hroom, hnull⟩ := hkernel j e q hq hmem
    obtain ⟨hlt, hsplit⟩ := Grammar.split_of_nextSymbol? hq hnext
    have hmem := Array.mem_of_getElem? hq
    have hlength := Grammar.length_rhs_le hmem
    have hleast := g.rhsBound_le_room s
    by_cases he : e ≤ n
    · by_cases hzero : e = 0
      · have hle := Grammar.room_le_room ⟨q, hmem, _, _, rfl, hsplit, hnull he⟩
        omega
      · have hfront : q.rhs.take e ≠ [] := by
          rw [Ne, List.take_eq_nil_iff, not_or]
          exact ⟨hzero, List.ne_nil_of_length_pos (Nat.zero_lt_of_lt hlt)⟩
        have hle := hacyclic.room_add_le ⟨q, hmem, _, _, rfl, hsplit, hnull he, hfront⟩
        omega
    · omega
  · intro j q s hq hroom hnext
    obtain ⟨_, hsplit⟩ := Grammar.split_of_nextSymbol? hq hnext
    have hfirst : g.Corner q.lhs s := ⟨q, Array.mem_of_getElem? hq, _, _, rfl, hsplit, by simp⟩
    exact hroom.trans (Grammar.room_le_room hfirst)

/-- There is only room for so many symbols that derive nothing on top of a path. -/
theorem StackPath.length_le_room (hg : g.WellFormed) (hacyclic : g.Acyclic) {stack : List Nat}
    {symbols null : List Symbol} (h : StackPath g stack symbols) (hnull : ∀ s ∈ null, g.Yields s [])
    (htop : null <+: symbols) {q i d : Nat} {p : Production} (hq : stack.head? = some q)
    (hp : g.productions[i]? = some p)
    (hitem : ⟨i, d⟩ ∈ g.closure g.productionsByLhs ((states g).kernel q)) :
    null.length ≤ g.room p.lhs + d := by
  induction h generalizing null q i d p with
  | start =>
      rw [List.prefix_nil.1 htop]
      exact Nat.zero_le _
  | push below q' stack symbols s hpath hstep ih =>
      obtain rfl : q' = q := by simpa using hq
      refine hacyclic.length_le_room_of_kernel hg (fun j e r hr hmem => ⟨?_, fun he => ?_⟩) hp hitem
      · rw [(Lr0.kernel_of_step? hg hstep).2] at hmem
        obtain ⟨source, hsource, _, hadvance⟩ := Lr0.mem_successor.1 hmem
        cases e with
        | zero => simp [Item.advance] at hadvance
        | succ e =>
            obtain rfl : source = ⟨j, e⟩ := Item.advance_injective hadvance
            cases null with
            | nil => exact Nat.zero_le _
            | cons a null =>
                have hrest := ih (fun b hb => hnull b (List.mem_cons_of_mem a hb))
                  (List.cons_prefix_cons.1 htop).2 rfl hr hsource
                rw [List.length_cons]
                omega
      · have hwhole : StackPath g (q' :: below :: stack) (s :: symbols) :=
          .push below q' stack symbols s hpath hstep
        obtain ⟨_, htake, _⟩ := hwhole.reads_item hg hr (g.subset_closure _ hmem)
        have hle : ((s :: symbols).take e).length ≤ null.length :=
          (List.length_take_le _ _).trans he
        have hsub := List.prefix_of_prefix_length_le (List.take_prefix e _) htop hle
        intro a ha
        rw [← List.mem_reverse, ← htake] at ha
        exact hnull a (hsub.subset ha)

/-! ### Reductions on states -/

/-- The table reduces the states of a stack in front of a terminal. -/
def Table.ReducesOn (t : Table) (x : Symbol) (before after : List StateId) : Prop :=
  ∃ top rest p, before = top :: rest ∧ .reduce p ∈ t.actionList top x ∧
    Recovery.reduceStates t p before = some after

/-- From no stack reductions go on for ever in front of one terminal. -/
def Table.ReductionsEnd (t : Table) (g : Grammar) : Prop :=
  ∀ (x : Symbol) (stack : List StateId) (symbols : List Symbol), t.Has x →
    StackPath g (stack.map UInt32.toNat) symbols →
    Acc (fun after before => t.ReducesOn x before after) stack

/-- Stacks with such states have one action in front of a symbol, a reduction, and it leads to such
states again. -/
def Table.Cycles (t : Table) (x : Symbol) (P : List StateId → Prop) : Prop :=
  ∀ stack, P stack → ∃ top rest p after, stack = top :: rest ∧ t.actionList top x = [.reduce p] ∧
    Recovery.reduceStates t p stack = some after ∧ P after

/-- A reduction puts the left-hand side in the place of the right-hand side. -/
theorem Table.ReducesOn.exists_production (hg : g.WellFormed)
    (h : Table.compile g policy = .ok t) (hfit : t.EntriesFit) (hx : t.Has x)
    {before after : List StateId} {symbols : List Symbol}
    (hpath : StackPath g (before.map UInt32.toNat) symbols) (hreduces : t.ReducesOn x before after) :
    ∃ i p q, g.productions[i]? = some p ∧ (before.map UInt32.toNat).head? = some q ∧
      ⟨i, p.rhs.length⟩ ∈ g.closure g.productionsByLhs ((states g).kernel q) ∧
      p.rhs.length ≤ symbols.length ∧ symbols.take p.rhs.length = p.rhs.reverse ∧
      StackPath g (after.map UInt32.toNat) (p.lhs :: symbols.drop p.rhs.length) := by
  obtain ⟨top, rest, number, rfl, haction, hstates⟩ := hreduces
  obtain ⟨hfrom, _⟩ := Table.compile_eq_ok h
  obtain ⟨_, hcomplete⟩ := Table.completes_of_reduce hg h hfit hx haction
  obtain ⟨p, hp⟩ := exists_production_of_completes hcomplete
  have hinfo : t.production number = Compile.productionInfo p := by
    rw [← production_eq hfrom hfit.toNumbersFit hp]
    simp
  obtain ⟨hle, htake⟩ := hpath.reads_rhs hg hp hcomplete
  obtain ⟨d, hd, hlooks⟩ := hcomplete
  obtain rfl : d = p.rhs.length := by
    rw [Grammar.isComplete, hp] at hd
    simpa [Production.rhs] using hd
  refine ⟨number.toNat, p, top.toNat, hp, rfl, mem_closure_of_looks hg hlooks, hle, htake, ?_⟩
  have hbelow := hpath.drop hle
  rw [Recovery.reduceStates, hinfo, size_rhs_productionInfo] at hstates
  rw [← List.map_drop] at hbelow
  cases hdrop : (top :: rest).drop p.rhs.length with
  | nil =>
      rw [hdrop] at hstates
      cases hstates
  | cons below left =>
      rw [hdrop] at hstates hbelow
      obtain ⟨next, hgoto, rfl⟩ := Option.map_eq_some_iff.1 hstates
      have hlhs : t.Has p.lhs := by
        refine .inr ?_
        rw [hfrom.symbols]
        exact (hg.lhs p (Array.mem_of_getElem? hp)).2
      exact .push _ _ _ _ _ hbelow (Table.step?_of_goto? hg h hfit hlhs hgoto)

/-! ### Progress -/

namespace Grammar

theorem yieldsAll_nil {u : List Symbol} (h : ∀ s ∈ u, g.Yields s []) : g.YieldsAll u [] := by
  induction u with
  | nil => exact .nil
  | cons s rest ih =>
      obtain ⟨hs, hrest⟩ := List.forall_mem_cons.1 h
      exact .cons s rest [] [] hs (ih hrest)

/-- The heights of so many symbols from the left on, above nothing. -/
noncomputable def heights (g : Grammar) (n : Nat) (u : List Symbol) :
    Fin n → Fin (Nat.card Symbol + 2) :=
  fun i => ⟨(u[i.val]?).elim 0 (g.height · + 1), by
    cases u[i.val]? with
    | none => exact Nat.succ_pos _
    | some s => exact Nat.succ_lt_succ (Nat.lt_succ_of_le (g.height_le s))⟩

/-- A symbol in the place of those that it derives makes heights greater. -/
theorem Acyclic.heights_lt_heights (hacyclic : g.Acyclic) {p : Production}
    (hp : p ∈ g.productions) (hnull : ∀ s ∈ p.rhs, g.Yields s []) {n : Nat} {u : List Symbol}
    (hn : u.length < n) :
    toLex (g.heights n (u ++ p.rhs)) < toLex (g.heights n (u ++ [p.lhs])) := by
  have hbelow : ∀ j : Fin n, j.val < u.length →
      g.heights n (u ++ p.rhs) j = g.heights n (u ++ [p.lhs]) j := by
    intro j hj
    simp only [heights, List.getElem?_append_left hj]
  have hat : g.heights n (u ++ p.rhs) ⟨u.length, hn⟩ < g.heights n (u ++ [p.lhs]) ⟨u.length, hn⟩ := by
    rw [Fin.lt_def]
    simp only [heights, List.getElem?_append_right (Nat.le_refl _), Nat.sub_self]
    cases hrhs : p.rhs with
    | nil => simp
    | cons s rest =>
        have hembeds : g.Embeds p.lhs s :=
          ⟨p, hp, [], rest, rfl, hrhs, fun a ha => hnull a (by
            rw [hrhs]
            exact List.mem_cons_of_mem s ha)⟩
        have hlt := hacyclic.height_lt_height hembeds
        simp only [List.getElem?_cons_zero, Option.elim_some]
        omega
  exact ⟨⟨u.length, hn⟩, hbelow, hat⟩

/-- How far reductions have got on a stack: how much is left in front of the symbols on top that
derive nothing, how high the last symbol of it is, and the heights of the symbols on top. -/
noncomputable def progress (g : Grammar) (n : Nat) (null rest : List Symbol) :
    ℕ ×ₗ ℕ ×ₗ (Lex (Fin n → Fin (Nat.card Symbol + 2)))ᵒᵈ :=
  toLex (rest.length, toLex (Nat.card Symbol - (rest.head?).elim 0 g.height,
    OrderDual.toDual (toLex (g.heights n null.reverse))))

theorem wellFounded_progress (g : Grammar) (n : Nat) :
    WellFounded (InvImage (· < ·) fun split : List Symbol × List Symbol =>
      g.progress n split.1 split.2) := by
  have : Finite (Lex (Fin n → Fin (Nat.card Symbol + 2)))ᵒᵈ :=
    inferInstanceAs (Finite (Fin n → Fin (Nat.card Symbol + 2)))
  exact InvImage.wf _ wellFounded_lt

/-- Each reduction is progress. -/
theorem Acyclic.exists_progress_lt (hacyclic : g.Acyclic) {i : Nat} {p : Production}
    (hp : g.productions[i]? = some p) {n : Nat} {null rest : List Symbol}
    (hnull : ∀ s ∈ null, g.Yields s []) (hn : null.length < n)
    (hle : p.rhs.length ≤ (null ++ rest).length)
    (htake : (null ++ rest).take p.rhs.length = p.rhs.reverse) :
    ∃ null' rest', p.lhs :: (null ++ rest).drop p.rhs.length = null' ++ rest' ∧
      (∀ s ∈ null', g.Yields s []) ∧ g.progress n null' rest' < g.progress n null rest := by
  have hmem := Array.mem_of_getElem? hp
  by_cases hinside : p.rhs.length ≤ null.length
  · -- the right-hand side derives nothing, and so does the left-hand side
    rw [List.take_append_of_le_length hinside] at htake
    have hrhs : ∀ s ∈ p.rhs, g.Yields s [] := by
      intro s hs
      rw [← List.mem_reverse, ← htake] at hs
      exact hnull s (List.mem_of_mem_take hs)
    refine ⟨p.lhs :: null.drop p.rhs.length, rest, ?_, ?_, ?_⟩
    · rw [List.drop_append_of_le_length hinside, List.cons_append]
    · refine List.forall_mem_cons.2 ⟨.node i p [] hp (yieldsAll_nil hrhs), fun s hs => ?_⟩
      exact hnull s (List.mem_of_mem_drop hs)
    · have hheights := hacyclic.heights_lt_heights hmem hrhs (n := n)
        (u := (null.drop p.rhs.length).reverse) (by
          rw [List.length_reverse, List.length_drop]
          omega)
      have hsplit : null.reverse = (null.drop p.rhs.length).reverse ++ p.rhs := by
        rw [← List.reverse_reverse p.rhs, ← htake, List.length_reverse, List.length_take,
          Nat.min_eq_left hinside, ← List.reverse_append, List.take_append_drop]
      rw [← hsplit] at hheights
      refine Prod.Lex.toLex_lt_toLex.2 (.inr ⟨rfl, Prod.Lex.toLex_lt_toLex.2 (.inr ⟨rfl, ?_⟩)⟩)
      rw [List.reverse_cons]
      exact OrderDual.toDual_lt_toDual.2 hheights
  · -- the right-hand side reaches below the symbols that derive nothing
    have hreaches : null.length < p.rhs.length := Nat.lt_of_not_le hinside
    refine ⟨[], p.lhs :: rest.drop (p.rhs.length - null.length), ?_, by simp, ?_⟩
    · rw [List.drop_append, List.drop_of_length_le hreaches.le, List.nil_append, List.nil_append]
    · rw [List.take_append, List.take_of_length_le hreaches.le] at htake
      rw [List.length_append] at hle
      refine Prod.Lex.toLex_lt_toLex.2 ?_
      rw [List.length_cons, List.length_drop]
      by_cases hone : p.rhs.length = null.length + 1
      · cases rest with
        | nil =>
            rw [List.length_nil] at hle
            omega
        | cons b rest =>
            rw [hone, Nat.add_sub_cancel_left, List.take_succ_cons, List.take_zero] at htake
            have hrhs : p.rhs = [] ++ b :: null.reverse := by
              rw [← List.reverse_reverse p.rhs, ← htake, List.reverse_append, List.reverse_singleton]
              rfl
            have hembeds : g.Embeds p.lhs b :=
              ⟨p, hmem, [], null.reverse, rfl, hrhs, by simpa using hnull⟩
            have hlt := hacyclic.height_lt_height hembeds
            have hbound := g.height_le p.lhs
            refine .inr ⟨?_, Prod.Lex.toLex_lt_toLex.2 (.inl ?_)⟩
            · rw [List.length_cons]
              omega
            · simp only [List.head?_cons, Option.elim_some]
              omega
      · refine .inl ?_
        simp only
        omega

end Grammar

/-- Without cycles and hidden left recursion reductions come to an end. -/
theorem Table.reductionsEnd_of_acyclic (hg : g.WellFormed) (hacyclic : g.Acyclic)
    (h : Table.compile g policy = .ok t) (hfit : t.EntriesFit) : t.ReductionsEnd g := by
  intro x stack symbols hx hpath
  have hroom : ∀ s, g.room s ≤ (Nat.card Symbol + 1) * g.rhsBound :=
    fun s => Nat.mul_le_mul_right _ (Nat.succ_le_succ (Set.ncard_le_card _))
  generalize (Nat.card Symbol + 1) * g.rhsBound = bound at hroom
  have hends : ∀ (split : List Symbol × List Symbol) (stack : List StateId),
      (∀ s ∈ split.1, g.Yields s []) →
      StackPath g (stack.map UInt32.toNat) (split.1 ++ split.2) →
      Acc (fun after before => t.ReducesOn x before after) stack := by
    intro split
    induction split using (g.wellFounded_progress (bound + g.rhsBound + 1)).induction with
    | _ split ih =>
        obtain ⟨null, rest⟩ := split
        intro stack hnull hpath
        refine ⟨_, fun after hreduces => ?_⟩
        obtain ⟨i, p, q, hp, hq, hitem, hle, htake, hafter⟩ :=
          hreduces.exists_production hg h hfit hx hpath
        have hfits := hpath.length_le_room hg hacyclic hnull (List.prefix_append _ _) hq hp hitem
        have hlength := Grammar.length_rhs_le (Array.mem_of_getElem? hp)
        have hbound := hroom p.lhs
        obtain ⟨null', rest', hsplit, hnull', hprogress⟩ :=
          hacyclic.exists_progress_lt (n := bound + g.rhsBound + 1) hp hnull (by omega) hle htake
        rw [hsplit] at hafter
        exact ih (null', rest') hprogress after hnull' hafter
  exact hends ([], symbols) stack (by simp) hpath

end IncrementalLR
