import Mathlib.Logic.Function.Iterate
import IncrementalLR.Proofs.Automaton.Canonical
import IncrementalLR.Proofs.Grammar.Meaning

/-!
# Lookaheads are those of the canonical items

A terminal is found to follow a kernel item just when it follows the item in a canonical set behind some
symbols that lead to the state. What is handed on always comes from canonical items: a terminal that
a kernel item has comes from the canonical set in which it has it, and a terminal that stands in the
productions themselves from any canonical set of the state, where the item has some terminal as every
nonterminal derives some string. Conversely canonical items are valid.
-/

namespace IncrementalLR

variable {g : Grammar}

open ClosureTables (followAfter)
open KernelFollows (states final)

/-! ### Nonterminals behind dots -/

/-- In the canonical set behind the symbols the terminal can come after the nonterminal in front of
which a dot stands. -/
def Awaits (g : Grammar) (symbols : List Symbol) (s x : Symbol) : Prop :=
  ∃ item y q, (item, y) ∈ g.canonicalItems symbols ∧ g.isTerminal y = true ∧
    g.productions[item.prod]? = some q ∧ g.nextSymbol? item = some s ∧
      g.Starts (q.rhs.drop (item.dot + 1) ++ [y]) x

namespace Awaits

variable {symbols : List Symbol} {s t x z : Symbol}

theorem isTerminal (h : Awaits g symbols s x) : g.isTerminal x = true := by
  obtain ⟨_, _, _, _, _, _, _, hstarts⟩ := h
  exact hstarts.1

theorem usable (hg : g.WellFormed) (h : Awaits g symbols s x) :
    s.Usable g.augmented g.symbols.size := by
  obtain ⟨item, _, _, _, _, _, hnext, _⟩ := h
  exact hg.nextSymbol?_usable hnext

theorem mem (h : Awaits g symbols s x) {i : Nat} {p : Production}
    (hp : g.productions[i]? = some p) (hlhs : p.lhs = s) :
    ((⟨i, 0⟩ : Item), x) ∈ g.canonicalItems symbols := by
  obtain ⟨item, y, q, hmem, _, hq, hnext, hstarts⟩ := h
  exact g.canonicalItems_expand symbols hmem hq hp (hlhs ▸ hnext) hstarts

theorem of_mem (hg : g.WellFormed) {item : Item}
    (hmem : (item, z) ∈ g.canonicalItems symbols) (hz : g.isTerminal z = true)
    (hnext : g.nextSymbol? item = some s)
    (hx : (followAfter g (FirstSets.ofGrammar g) item).set.contains x = true ∨
      ((followAfter g (FirstSets.ofGrammar g) item).inherits = true ∧ x = z)) :
    Awaits g symbols s x := by
  obtain ⟨q, hq, _⟩ := Grammar.nextSymbol?_eq_some.1 hnext
  exact ⟨item, z, q, hmem, hz, hq, hnext, (Grammar.starts_iff hg hq hz).2 hx⟩

theorem exists_of_mem (hg : g.WellFormed) (hproductive : g.Productive) {item : Item}
    (hmem : (item, z) ∈ g.canonicalItems symbols) (hz : g.isTerminal z = true)
    (hnext : g.nextSymbol? item = some s) : ∃ x, Awaits g symbols s x := by
  obtain ⟨q, hq, _⟩ := Grammar.nextSymbol?_eq_some.1 hnext
  obtain ⟨x, hx⟩ := Grammar.exists_starts hg hproductive hq hz
  exact ⟨x, item, z, q, hmem, hz, hq, hnext, hx⟩

end Awaits

/-- What is known to follow one nonterminal, given what follows the other, can come after it. -/
structure FollowsFrom (g : Grammar) (symbols : List Symbol) (origin s : Symbol) (f : Follow) : Prop where
  exists_awaits : ∃ z, Awaits g symbols s z
  set : ∀ x, f.set.contains x = true → Awaits g symbols s x
  inherits : f.inherits = true → ∀ x, Awaits g symbols origin x → Awaits g symbols s x

namespace FollowsFrom

variable {symbols : List Symbol} {origin s : Symbol}

theorem weaken {f : Follow} (h : FollowsFrom g symbols origin s f) :
    FollowsFrom g symbols origin s {} := by
  refine ⟨h.exists_awaits, fun x hx => ?_, fun hfalse => Bool.noConfusion hfalse⟩
  rw [SymbolSet.contains_empty] at hx
  cases hx

theorem merge {a b : Follow} (ha : FollowsFrom g symbols origin s a)
    (hb : FollowsFrom g symbols origin s b) : FollowsFrom g symbols origin s (a.merge b) := by
  refine ⟨ha.exists_awaits, fun x hx => ?_, fun hinherits => ?_⟩
  · rw [Follow.merge, SymbolSet.contains_union, Bool.or_eq_true] at hx
    exact hx.elim (ha.set x) (hb.set x)
  · rw [Follow.merge, Bool.or_eq_true] at hinherits
    exact hinherits.elim ha.inherits hb.inherits

/-- The nonterminals in front of the productions take it over. -/
theorem head (hg : g.WellFormed) (hproductive : g.Productive) {f : Follow}
    (h : FollowsFrom g symbols origin s f) {entry : Symbol × Follow}
    (hentry : entry ∈ (ClosureTables.ofGrammar g).heads.getD s.index []) :
    FollowsFrom g symbols origin entry.1 (entry.2.through f) := by
  obtain ⟨t, follow⟩ := entry
  obtain ⟨z, hz⟩ := h.exists_awaits
  obtain ⟨i, p, hp, hlhs, hnext, rfl⟩ := (ClosureTables.mem_heads (hz.usable hg).2.2).1 hentry
  have hnext := (Grammar.nextNonterminal?_eq_some.1 hnext).1
  refine ⟨Awaits.exists_of_mem hg hproductive (hz.mem hp hlhs) hz.isTerminal hnext,
    fun x hx => ?_, fun hinherits x hx => ?_⟩
  · rcases Follow.contains_resolve.1 hx with hx | ⟨hinherits, hx⟩
    · exact .of_mem hg (hz.mem hp hlhs) hz.isTerminal hnext (.inl hx)
    · have hawaits := h.set x hx
      exact .of_mem hg (hawaits.mem hp hlhs) hawaits.isTerminal hnext
        (.inr ⟨hinherits, rfl⟩)
  · simp only [Follow.through, Bool.and_eq_true] at hinherits
    have hawaits := h.inherits hinherits.2 x hx
    exact .of_mem hg (hawaits.mem hp hlhs) hawaits.isTerminal hnext
      (.inr ⟨hinherits.1, rfl⟩)

theorem of_mem_corners (hg : g.WellFormed) (hproductive : g.Productive)
    (h : ∃ z, Awaits g symbols origin z) {f : Follow}
    (hmem : (s, f) ∈ (ClosureTables.ofGrammar g).corners origin) :
    FollowsFrom g symbols origin s f := by
  obtain ⟨z, hz⟩ := h
  refine ClosureTables.of_mem_corners hg (P := FollowsFrom g symbols origin)
    (fun _ _ h => h.weaken) (fun _ _ _ ha hb => ha.merge hb)
    (fun _ _ h _ hentry => h.head hg hproductive hentry) (hz.usable hg) ?_ hmem
  refine ⟨⟨z, hz⟩, fun x hx => ?_, fun _ x hx => hx⟩
  rw [SymbolSet.contains_empty] at hx
  cases hx

end FollowsFrom

/-! ### What is handed on -/

/-- The item is followed by the terminal in a canonical set of the state. -/
def IsCanonical (g : Grammar) (q : Nat) (item : Item) (x : Symbol) : Prop :=
  ∃ symbols : List Symbol, symbols.foldlM (states g).step? 0 = some q ∧
    (item, x) ∈ g.canonicalItems symbols

/-- The terminals of the list follow its items in the sense of the predicate. -/
def Justified (P : Item → Symbol → Prop) (items : List (Item × SymbolSet)) : Prop :=
  ∀ (item : Item) (x : Symbol), Looks items item x → P item x

section Trails

variable {q : Nat} {source : List (Item × SymbolSet)}

/-- Behind some symbols every item of a kernel has a terminal. -/
theorem exists_forall_mem_canonicalItems (hg : g.WellFormed) (hproductive : g.Productive)
    (hq : q < (states g).kernels.size) :
    ∃ symbols : List Symbol, symbols.foldlM (states g).step? 0 = some q ∧
      ∀ item ∈ (states g).kernel q, ∃ z, g.isTerminal z = true ∧
        (item, z) ∈ g.canonicalItems symbols := by
  obtain ⟨symbols, hwalk⟩ := Lr0.exists_foldlM_step? hg hq
  exact ⟨symbols, hwalk, fun item hitem =>
    exists_mem_canonicalItems hg hproductive hwalk item (g.subset_closure _ hitem)⟩

/-- What follows the nonterminal behind the dot of a kernel item can come after it. The terminal is in
what stands behind the nonterminal, or it comes from the item. -/
theorem exists_awaits_of_resolve (hg : g.WellFormed) (hproductive : g.Productive)
    (hq : q < (states g).kernels.size)
    (hkernel : ∀ entry ∈ source, entry.1 ∈ (states g).kernel q)
    (hsource : Justified (IsCanonical g q) source)
    {item : Item} {set : SymbolSet} (hentry : (item, set) ∈ source) {s x : Symbol}
    (hnext : g.nextSymbol? item = some s)
    (hx : ((followAfter g (FirstSets.ofGrammar g) item).resolve set).contains x = true) :
    ∃ symbols : List Symbol, symbols.foldlM (states g).step? 0 = some q ∧ Awaits g symbols s x := by
  rcases Follow.contains_resolve.1 hx with hx | ⟨hinherits, hx⟩
  · obtain ⟨symbols, hwalk, hsome⟩ := exists_forall_mem_canonicalItems hg hproductive hq
    obtain ⟨z, hz, hmem⟩ := hsome item (hkernel _ hentry)
    exact ⟨symbols, hwalk, .of_mem hg hmem hz hnext (.inl hx)⟩
  · obtain ⟨symbols, hwalk, hmem⟩ := hsource item x ⟨set, hentry, hx⟩
    have hterminal := (Valid.of_mem_canonicalItems hg hwalk hmem).1
    exact ⟨symbols, hwalk, .of_mem hg hmem hterminal hnext (.inr ⟨hinherits, rfl⟩)⟩

/-- What follows the nonterminals of the closure of a kernel can come after them. -/
theorem exists_awaits_of_trails (hg : g.WellFormed) (hproductive : g.Productive)
    (hq : q < (states g).kernels.size) (hbelow : AllBelow g.terminalCount source)
    (hkernel : ∀ entry ∈ source, entry.1 ∈ (states g).kernel q)
    (hsource : Justified (IsCanonical g q) source)
    {s x : Symbol} (h : Trails ((LookaheadTables.ofGrammar g).closureFollows source) s x) :
    ∃ symbols : List Symbol, symbols.foldlM (states g).step? 0 = some q ∧ Awaits g symbols s x := by
  obtain ⟨t, origin, f, horigin, hf, hx⟩ := (LookaheadTables.trails_closureFollows hg hbelow).1 h
  rcases Follow.contains_resolve.1 hx with hx | ⟨hinherits, hx⟩
  · obtain ⟨⟨entry, hentry, hnext⟩, _⟩ := LookaheadTables.mem_origins hg hbelow horigin
    obtain ⟨symbols, hwalk, hsome⟩ := exists_forall_mem_canonicalItems hg hproductive hq
    obtain ⟨z, hz, hmem⟩ := hsome entry.1 (hkernel entry hentry)
    have hawaits := Awaits.exists_of_mem hg hproductive hmem hz
      (Grammar.nextNonterminal?_eq_some.1 hnext).1
    exact ⟨symbols, hwalk, (FollowsFrom.of_mem_corners hg hproductive hawaits hf).set x hx⟩
  · obtain ⟨item, set, hentry, hnext, hx⟩ :=
      LookaheadTables.exists_of_looks_origins ⟨origin, horigin, hx⟩
    obtain ⟨symbols, hwalk, hawaits⟩ := exists_awaits_of_resolve hg hproductive hq hkernel hsource
      hentry (Grammar.nextNonterminal?_eq_some.1 hnext).1 hx
    exact ⟨symbols, hwalk, (FollowsFrom.of_mem_corners hg hproductive ⟨x, hawaits⟩ hf).inherits
      hinherits x hawaits⟩

end Trails

namespace KernelFollows

/-- What is passed along an edge follows the items of the target in canonical sets. -/
theorem justified_passed (hg : g.WellFormed) (hproductive : g.Productive) {q : Nat}
    {source : List (Item × SymbolSet)} (hbelow : AllBelow g.terminalCount source)
    (hkernel : ∀ entry ∈ source, entry.1 ∈ (states g).kernel q)
    (hsource : Justified (IsCanonical g q) source) {edge : Symbol × Nat}
    (hedge : edge ∈ (states g).edges q) :
    Justified (IsCanonical g edge.2) (((states g).kernel edge.2).zip (passed g source edge)) := by
  have hq : q < (states g).kernels.size := by
    by_contra hge
    rw [Lr0.edges_eq_nil hg hge] at hedge
    cases hedge
  have hstep : (states g).step? q edge.1 = some edge.2 := (Lr0.step?_eq_some_iff_mem hg).2 hedge
  intro target x hx
  rcases of_looks_handOn hx with ⟨hdot, htrail⟩ | ⟨item, rfl, hitem⟩
  · obtain ⟨set, hmem, _⟩ := hx
    have htarget := (List.of_mem_zip hmem).1
    rw [(Lr0.kernel_of_step? hg hstep).2, Lr0.mem_successor] at htarget
    obtain ⟨⟨i, d⟩, _, hnext, rfl⟩ := htarget
    obtain rfl : d = 0 := by simpa [Item.advance] using hdot
    obtain ⟨p, hp, _⟩ := Grammar.nextSymbol?_eq_some.1 hnext
    rw [Item.advance, Grammar.itemLhs_eq hp] at htrail
    obtain ⟨symbols, hwalk, hawaits⟩ :=
      exists_awaits_of_trails hg hproductive hq hbelow hkernel hsource htrail
    exact ⟨symbols ++ [edge.1], foldlM_step?_append.2 ⟨q, hwalk, hstep⟩,
      g.mem_canonicalItems_advance (hawaits.mem hp rfl) hnext⟩
  · obtain ⟨hitem, hnext⟩ :=
      (looks_filter fun item => decide (g.nextSymbol? item = some edge.1)).1 hitem
    obtain ⟨symbols, hwalk, hmem⟩ := hsource item x hitem
    exact ⟨symbols ++ [edge.1], foldlM_step?_append.2 ⟨q, hwalk, hstep⟩,
      g.mem_canonicalItems_advance hmem (of_decide_eq_true hnext)⟩

/-- What the states hand on keeps the predicate, and it holds of the end of input behind the start. -/
structure Inherited (g : Grammar) (P : Nat → Item → Symbol → Prop) : Prop where
  start : P 0 ⟨0, 0⟩ Symbol.eof
  passed : ∀ (q : Nat) (source : List (Item × SymbolSet)), AllBelow g.terminalCount source →
    (∀ entry ∈ source, entry.1 ∈ (states g).kernel q) → Justified (P q) source →
      ∀ edge ∈ (states g).edges q,
        Justified (P edge.2) (((states g).kernel edge.2).zip (passed g source edge))

theorem inherited_isCanonical (hg : g.WellFormed) (hproductive : g.Productive) :
    Inherited g (IsCanonical g) :=
  ⟨⟨[], rfl, .item _ _ rfl⟩, fun _ _ hbelow hkernel hsource _ hedge =>
    justified_passed hg hproductive hbelow hkernel hsource hedge⟩

section Inherited

variable {P : Nat → Item → Symbol → Prop}

/-- The predicate holds of all that is known so far. -/
def AllJustified (g : Grammar) (P : Nat → Item → Symbol → Prop) (follows : KernelFollows) : Prop :=
  ∀ q, Justified (P q) (kernel (states g) follows q)

theorem allJustified_initial (hg : g.WellFormed) (hP : Inherited g P) :
    AllJustified g P (initial (states g)) := by
  intro q item x hx
  obtain ⟨j, hitem, hset⟩ := looks_kernel.1 hx
  by_cases hq : q = 0
  · subst hq
    rw [getD_initial_zero hg] at hset
    rw [Lr0.kernel_zero hg, Lr0.startKernel] at hitem
    cases j with
    | zero =>
        obtain rfl : (⟨0, 0⟩ : Item) = item := by simpa using hitem
        obtain rfl : x = Symbol.eof := by simpa using hset
        exact hP.start
    | succ j => simp at hitem
  · rw [getD_initial_of_ne hq, Array.getD_eq_getD_getElem?, Array.getElem?_replicate] at hset
    split at hset <;> simp at hset

theorem allJustified_passEdge (hg : g.WellFormed) (hP : Inherited g P) {q : Nat}
    {source : List (Item × SymbolSet)} (hbelow : AllBelow g.terminalCount source)
    (hkernel : ∀ entry ∈ source, entry.1 ∈ (states g).kernel q) (hsource : Justified (P q) source)
    {s : KernelFollows × Array Bool} (hfollows : FollowsOf g s.1) (h : AllJustified g P s.1)
    {edge : Symbol × Nat} (hedge : edge ∈ (states g).edges q) :
    AllJustified g P (passEdge g source s edge).1 := by
  have htarget := edges_lt hg edge hedge
  have hpassed := hP.passed q source hbelow hkernel hsource edge hedge
  have hrow := hfollows.row edge.2 htarget
  have hlength := length_passed (g := g) source edge
  have hmerged := mergeRow_spec (by omega) (hfollows.below edge.2) (below_passed hg hbelow edge)
  unfold passEdge
  split
  · intro q' item x hx
    by_cases hq' : edge.2 = q'
    · subst hq'
      obtain ⟨j, hitem, hx⟩ := looks_kernel.1 hx
      rw [getD_set!_self (by rw [hfollows.size]; exact htarget)] at hx
      rcases hmerged.source j x hx with hx | ⟨set, hset, hx⟩
      · exact h edge.2 item x (looks_kernel.2 ⟨j, hitem, hx⟩)
      · exact hpassed item x (looks_zip.2 ⟨j, set, hitem, hset, hx⟩)
    · rw [kernel, getD_set!_of_ne hq'] at hx
      exact h q' item x hx
  · exact h

theorem allJustified_handOnFrom (hg : g.WellFormed) (hP : Inherited g P)
    {s : KernelFollows × Array Bool} (hfollows : FollowsOf g s.1)
    (hstale : s.2.size = (states g).kernels.size) (h : AllJustified g P s.1) (q : Nat) :
    AllJustified g P (handOnFrom (LookaheadTables.ofGrammar g) (states g) q s).1 := by
  rw [handOnFrom_eq]
  have hkernel : ∀ entry ∈ kernel (states g) s.1 q, entry.1 ∈ (states g).kernel q :=
    fun entry hentry => (List.of_mem_zip hentry).1
  refine (foldl_induction (fun _ (s' : KernelFollows × Array Bool) =>
    FollowsOf g s'.1 ∧ s'.2.size = (states g).kernels.size ∧ AllJustified g P s'.1)
    ⟨hfollows, hstale, h⟩ ?_).2.2
  rintro done edge rest s' heq ⟨hfollows', hstale', h'⟩
  have hedge : edge ∈ (states g).edges q := by
    rw [heq]
    simp
  obtain ⟨hprogress, _⟩ := passEdge_spec hg (hfollows.allBelow q) (hfollows.start q) hfollows'
    hstale' (edges_lt hg edge hedge)
  exact ⟨hprogress.followsOf, hprogress.size.trans hstale',
    allJustified_passEdge hg hP (hfollows.allBelow q) hkernel (h q) hfollows' h' hedge⟩

theorem settled_visit (hg : g.WellFormed) {s : KernelFollows × Array Bool} (h : Settled g s)
    (q : Nat) : Settled g (visit g s q) :=
  (Visited.visit hg (⟨h, fun _ => .refl _ _, .inr ⟨rfl, by simp⟩⟩ : Visited g s [] s) q).settled

theorem allJustified_round (hg : g.WellFormed) (hP : Inherited g P)
    {s : KernelFollows × Array Bool} (hs : Settled g s) (h : AllJustified g P s.1) :
    AllJustified g P (round (LookaheadTables.ofGrammar g) (states g) s).1 := by
  rw [round_eq]
  refine (foldl_induction (fun _ (s' : KernelFollows × Array Bool) =>
    Settled g s' ∧ AllJustified g P s'.1) ⟨hs, h⟩ ?_).2
  rintro done q rest s' _ ⟨hs', h'⟩
  refine ⟨settled_visit hg hs' q, ?_⟩
  unfold visit
  split
  · exact allJustified_handOnFrom hg hP (s := (s'.1, s'.2.set! q false)) hs'.followsOf
      ((size_set! s'.2 q false).trans hs'.size) h' q
  · exact h'

end Inherited

/-! ### The rounds -/

/-- What is known and which states are stale after some rounds. -/
def rounds (g : Grammar) (n : Nat) : KernelFollows × Array Bool :=
  (round (LookaheadTables.ofGrammar g) (states g))^[n]
    (initial (states g), Array.replicate (states g).kernels.size true)

theorem rounds_succ (g : Grammar) (n : Nat) :
    rounds g (n + 1) = round (LookaheadTables.ofGrammar g) (states g) (rounds g n) := by
  unfold rounds
  rw [Function.iterate_succ_apply']

theorem settled_rounds (hg : g.WellFormed) (n : Nat) : Settled g (rounds g n) := by
  induction n with
  | zero => exact settled_initial hg
  | succ n ih =>
      rw [rounds_succ]
      exact (round_spec hg ih).1

theorem allJustified_rounds (hg : g.WellFormed) {P : Nat → Item → Symbol → Prop} (hP : Inherited g P)
    (n : Nat) : AllJustified g P (rounds g n).1 := by
  induction n with
  | zero => exact allJustified_initial hg hP
  | succ n ih =>
      rw [rounds_succ]
      exact allJustified_round hg hP (settled_rounds hg n) ih

/-- The rounds end: as every round but the last has made some set grow, the fuel is not used up. -/
theorem exists_rounds_of_close (hg : g.WellFormed) {fuel n : Nat}
    (hfuel : kernelItems g * g.terminalCount + 1 < fuel + weight g (rounds g n).1 ∨
      0 < fuel ∧ (rounds g n).2.any id = false) :
    ∃ m, n ≤ m ∧ (∀ i, n ≤ i → i < m → (rounds g i).2.any id = true) ∧
      (rounds g m).2.any id = false ∧
      (rounds g m).1 = close (LookaheadTables.ofGrammar g) (states g) fuel (rounds g n) := by
  induction fuel generalizing n with
  | zero =>
      have hle := weight_le (settled_rounds hg n).followsOf
      omega
  | succ fuel ih =>
      rw [close]
      by_cases hany : (rounds g n).2.any id = true
      · rw [if_pos hany]
        obtain ⟨_, _, hweight⟩ := round_spec hg (settled_rounds hg n)
        have hle := weight_le (settled_rounds hg n).followsOf
        have hfuel := hfuel.resolve_right fun h => Bool.false_ne_true (h.2.symm.trans hany)
        rw [← rounds_succ] at hweight ⊢
        obtain ⟨m, hnm, hbefore, hend, heq⟩ := ih (n := n + 1) (by
          rcases hweight with hlt | hstale
          · exact .inl (by omega)
          · exact .inr ⟨by omega, any_stale_eq_false.2 hstale⟩)
        refine ⟨m, by omega, fun i hi him => ?_, hend, heq⟩
        by_cases hin : i = n
        · rw [hin]
          exact hany
        · exact hbefore i (by omega) him
      · rw [if_neg hany]
        exact ⟨n, Nat.le_refl n, fun i hi hin => absurd hi (by omega), Bool.not_eq_true _ ▸ hany, rfl⟩

theorem exists_rounds_eq_final (hg : g.WellFormed) : ∃ n,
    (∀ i < n, (rounds g i).2.any id = true) ∧ (rounds g n).2.any id = false ∧
      (rounds g n).1 = final g := by
  obtain ⟨n, _, hbefore, hend, heq⟩ := exists_rounds_of_close hg (n := 0)
    (.inl (show _ < kernelItems g * g.terminalCount + 2 + _ by omega))
  exact ⟨n, fun i => hbefore i (Nat.zero_le i), hend, heq⟩

end KernelFollows

/-! ### Lookaheads -/

/-- A kernel item with its dot in front is the start production in the first state. -/
theorem Lr0.eq_start_of_mem_kernel (hg : g.WellFormed) {q : Nat} {item : Item}
    (hitem : item ∈ (states g).kernel q) (hdot : item.dot = 0) : item = ⟨0, 0⟩ := by
  have hq : q < (states g).kernels.size := by
    by_contra hge
    rw [Lr0.kernel, getD_of_size_le (Nat.le_of_not_lt hge)] at hitem
    cases hitem
  by_cases hne : q = 0
  · rw [hne, Lr0.kernel_zero hg, Lr0.startKernel] at hitem
    exact List.mem_singleton.1 hitem
  · obtain ⟨p, s, _, hstep⟩ := Lr0.exists_step?_eq_of_ne_zero hg hq hne
    rw [(Lr0.kernel_of_step? hg hstep).2, Lr0.mem_successor] at hitem
    obtain ⟨source, _, _, rfl⟩ := hitem
    exact absurd hdot (Nat.succ_ne_zero _)

/-- What follows a kernel item in the closure of its state follows it in the kernel. -/
theorem looks_kernel_of_looks (hg : g.WellFormed) {q : Nat} {item : Item} {x : Symbol}
    (hitem : item ∈ (states g).kernel q) (h : Looks (stateItems g q) item x) :
    Looks (KernelFollows.kernel (states g) (final g) q) item x := by
  rcases LookaheadTables.looks_closure.1 h with h | ⟨hdot, _, htrail⟩
  · exact h
  · obtain ⟨p, hp, hlhs, _⟩ := hg.start
    rw [Lr0.eq_start_of_mem_kernel hg hitem hdot, Grammar.itemLhs_eq hp, hlhs] at htrail
    exact absurd htrail (LookaheadTables.not_trails_augmented hg
      ((KernelFollows.final_spec hg).1.allBelow q))

/-- A predicate that the states hand on holds of all that follows kernel items. -/
theorem KernelFollows.of_looks_final (hg : g.WellFormed) {P : Nat → Item → Symbol → Prop}
    (hP : Inherited g P) {q : Nat} {item : Item} {x : Symbol}
    (hx : Looks (kernel (states g) (final g) q) item x) : P q item x := by
  obtain ⟨n, -, -, heq⟩ := exists_rounds_eq_final hg
  exact allJustified_rounds hg hP n q item x (heq ▸ hx)

/-- A terminal follows a kernel item just when some canonical set behind symbols that lead to the state
has the item with the terminal. -/
theorem KernelFollows.looks_final_iff (hg : g.WellFormed) (hproductive : g.Productive) {q : Nat}
    {item : Item} {x : Symbol} (hitem : item ∈ (states g).kernel q) :
    Looks (kernel (states g) (final g) q) item x ↔ IsCanonical g q item x := by
  constructor
  · exact of_looks_final hg (inherited_isCanonical hg hproductive)
  · rintro ⟨symbols, hwalk, hmem⟩
    exact looks_kernel_of_looks hg hitem (Valid.of_mem_canonicalItems hg hwalk hmem).2.looks

end IncrementalLR
