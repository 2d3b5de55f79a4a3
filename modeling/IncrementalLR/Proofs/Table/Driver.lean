import IncrementalLR.Proofs.Table.Cells

/-!
# The driver of a table

The plain driver keeps a stack of states and follows the cells of the table: it shifts the next
terminal, replaces the states of a right-hand side by the target of a goto, or accepts. For a table
that was compiled without a conflict it accepts just the strings that the grammar derives.
-/

namespace IncrementalLR

/-- The states on the stack, top first, and the terminals still to be read. -/
structure Driver where
  stack : List StateId
  input : List Symbol
  deriving DecidableEq, Repr

namespace Table

/-- One move of the driver; there is none when it accepts or is stuck. -/
def drive? (t : Table) (d : Driver) : Option Driver :=
  match d.stack, d.input with
  | top :: _, x :: rest =>
    match t.action top x with
    | .shift target => some ⟨target :: d.stack, rest⟩
    | .reduce p =>
      match d.stack.drop (t.production p).rhs.size with
      | [] => none
      | below :: stack =>
        (t.goto? below (t.production p).lhs).map fun target => ⟨target :: below :: stack, d.input⟩
    | _ => none
  | _, _ => none

/-- The driver is at an accepting cell. -/
def accepting (t : Table) (d : Driver) : Prop :=
  ∃ top stack x rest, d = ⟨top :: stack, x :: rest⟩ ∧ t.action top x = .accept

/-- The driver gets from one stack and input to another. -/
def Drives (t : Table) : Driver → Driver → Prop :=
  Relation.ReflTransGen fun d d' => t.drive? d = some d'

/-- The driver accepts the string followed by the end of input. -/
def Accepts (t : Table) (w : List Symbol) : Prop :=
  ∃ d, t.Drives ⟨[t.startState], w ++ [Symbol.eof]⟩ d ∧ t.accepting d

end Table

variable {g : Grammar} {t : Table}

open KernelFollows (states final)

/-! ### Paths of the automaton -/

/-- States on a stack, top first, with the symbols that lead from each to the one above it. -/
inductive StackPath (g : Grammar) : List Nat → List Symbol → Prop
  | start : StackPath g [0] []
  | push (q q' : Nat) (stack : List Nat) (symbols : List Symbol) (s : Symbol)
      (hpath : StackPath g (q :: stack) symbols) (hstep : (states g).step? q s = some q') :
      StackPath g (q' :: q :: stack) (s :: symbols)

theorem StackPath.lt (hg : g.WellFormed) {stack : List Nat} {symbols : List Symbol}
    (h : StackPath g stack symbols) : ∀ q ∈ stack, q < (states g).kernels.size := by
  induction h with
  | start =>
      intro q hq
      rw [List.mem_singleton.1 hq]
      exact Lr0.size_kernels_pos hg
  | push q q' stack symbols s _ hstep ih =>
      intro r hr
      rcases List.mem_cons.1 hr with rfl | hr
      · exact (Lr0.kernel_of_step? hg hstep).1
      · exact ih r hr

theorem StackPath.drop {stack : List Nat} {symbols : List Symbol} (h : StackPath g stack symbols)
    {k : Nat} (hk : k ≤ symbols.length) : StackPath g (stack.drop k) (symbols.drop k) := by
  induction k generalizing stack symbols with
  | zero => exact h
  | succ k ih =>
      cases h with
      | start => simp at hk
      | push q q' stack symbols s hpath _ =>
          exact ih hpath (Nat.le_of_succ_le_succ hk)

/-- The symbols in front of the dot of a kernel item are on top of the stack, and the state below
them has the item with the dot in front. -/
theorem StackPath.reads_item (hg : g.WellFormed) {q : Nat} {stack : List Nat} {symbols : List Symbol}
    (h : StackPath g (q :: stack) symbols) {i k : Nat} {p : Production}
    (hp : g.productions[i]? = some p)
    (hitem : ⟨i, k⟩ ∈ g.closure g.productionsByLhs ((states g).kernel q)) :
    k ≤ symbols.length ∧ symbols.take k = (p.rhs.take k).reverse ∧
      ∃ below rest, (q :: stack).drop k = below :: rest ∧
        ⟨i, 0⟩ ∈ g.closure g.productionsByLhs ((states g).kernel below) := by
  induction k generalizing q stack symbols with
  | zero => exact ⟨Nat.zero_le _, rfl, q, stack, rfl, hitem⟩
  | succ k ih =>
      have hkernel : ⟨i, k + 1⟩ ∈ (states g).kernel q := by
        rcases Grammar.mem_closure.1 hitem with hitem | ⟨hzero, _⟩
        · exact hitem
        · cases hzero
      cases h with
      | start =>
          rw [Lr0.kernel_zero hg] at hkernel
          simp [Lr0.startKernel] at hkernel
      | push below q' stack symbols s hpath hstep =>
          rw [(Lr0.kernel_of_step? hg hstep).2] at hkernel
          obtain ⟨source, hsource, hnext, hadvance⟩ := Lr0.mem_successor.1 hkernel
          obtain rfl : source = ⟨i, k⟩ := Item.advance_injective hadvance
          obtain ⟨hk, htake, hbelow⟩ := ih hpath hsource
          obtain ⟨p', hp', hs⟩ := Grammar.nextSymbol?_eq_some.1 hnext
          rw [hp, Option.some.injEq] at hp'
          subst hp'
          refine ⟨Nat.succ_le_succ hk, ?_, hbelow⟩
          rw [List.take_succ_cons, htake, List.take_add_one, hs, Option.toList_some,
            List.reverse_append, List.reverse_singleton, List.singleton_append]

/-! ### Soundness -/

/-- A complete item that a terminal follows has the right-hand side on top of the stack. -/
theorem StackPath.reads_rhs (hg : g.WellFormed) {q : Nat} {stack : List Nat} {symbols : List Symbol}
    (h : StackPath g (q :: stack) symbols) {i : Nat} {p : Production}
    (hp : g.productions[i]? = some p) {x : Symbol} (hcomplete : Compile.Completes g q i x) :
    p.rhs.length ≤ symbols.length ∧ symbols.take p.rhs.length = p.rhs.reverse := by
  obtain ⟨d, hd, hlooks⟩ := hcomplete
  have hlength : d = p.rhs.length := by
    rw [Grammar.isComplete, hp] at hd
    simpa [Production.rhs] using hd
  obtain ⟨hle, htake, _⟩ := h.reads_item hg hp (mem_closure_of_looks hg hlooks)
  rw [hlength, List.take_length] at htake
  rw [← hlength]
  exact ⟨hle, hlength ▸ htake⟩

/-- Below the right-hand side of a complete item is a state that goes on with the left-hand side. -/
theorem StackPath.exists_step?_lhs (hg : g.WellFormed) {q : Nat} {stack : List Nat}
    {symbols : List Symbol} (h : StackPath g (q :: stack) symbols) {i : Nat} {p : Production}
    (hp : g.productions[i]? = some p) (hi : i ≠ 0) {x : Symbol}
    (hcomplete : Compile.Completes g q i x) :
    ∃ below rest q', (q :: stack).drop p.rhs.length = below :: rest ∧
      (states g).step? below p.lhs = some q' := by
  obtain ⟨d, hd, hlooks⟩ := hcomplete
  have hlength : d = p.rhs.length := by
    rw [Grammar.isComplete, hp] at hd
    simpa [Production.rhs] using hd
  obtain ⟨hle, _, below, rest, hdrop, hitem⟩ := h.reads_item hg hp (mem_closure_of_looks hg hlooks)
  have hpath := h.drop hle
  rw [hdrop] at hpath
  generalize symbols.drop d = left at hpath
  rw [← hlength]
  have hcalled : (g.closureSymbols g.productionsByLhs ((states g).kernel below)).contains p.lhs
      = true := by
    rcases Grammar.mem_closure.1 hitem with hkernel | ⟨_, _, hcontains⟩
    · cases hpath with
      | start =>
          rw [Lr0.kernel_zero hg] at hkernel
          cases List.mem_singleton.1 hkernel
          exact absurd rfl hi
      | push below' _ _ _ s _ hstep =>
          rw [(Lr0.kernel_of_step? hg hstep).2] at hkernel
          obtain ⟨source, _, _, hadvance⟩ := Lr0.mem_successor.1 hkernel
          have hdot := congrArg Item.dot hadvance
          simp [Item.advance] at hdot
    · rwa [Grammar.itemLhs_eq hp] at hcontains
  obtain ⟨item, hmem, hnext⟩ := Grammar.exists_nextSymbol?_of_closureSymbols hg hcalled
  obtain ⟨q', hstep, _⟩ :=
    Lr0.exists_step? hg (hpath.lt hg below List.mem_cons_self) hmem hnext
  exact ⟨below, rest, q', hdrop, hstep⟩

/-- The stack and the input of a driver that has read a string: the stack is a path whose symbols
derive what has been read. -/
def HasRead (g : Grammar) (w : List Symbol) (d : Driver) : Prop :=
  ∃ stack symbols read, d.stack = stack.map Nat.toUInt32 ∧ StackPath g stack symbols ∧
    g.YieldsAll symbols.reverse read ∧ w = read ++ d.input

theorem production_eq (hfrom : t.CompiledFrom g) {i : Nat} {p : Production} (hfit : t.NumbersFit)
    (hp : g.productions[i]? = some p) : t.production i.toUInt32 = Compile.productionInfo p := by
  obtain ⟨hi, _⟩ := Array.getElem?_eq_some_iff.1 hp
  have hsize := hfit.productions
  rw [hfrom.productions, Array.size_map] at hsize
  have hnumber : i.toUInt32.toNat = i := UInt32.toNat_ofNat_of_lt' (Nat.lt_of_lt_of_le hi hsize)
  rw [Table.production, hnumber, hfrom.productions, Array.getD_eq_getD_getElem?,
    Array.getElem?_map, hp]
  rfl

theorem size_rhs_productionInfo (p : Production) :
    (Compile.productionInfo p).rhs.size = p.rhs.length := by
  simp [Compile.productionInfo, Production.rhs]

theorem exists_production_of_completes {q i : Nat} {x : Symbol}
    (h : Compile.Completes g q i x) : ∃ p, g.productions[i]? = some p := by
  obtain ⟨d, hd, _⟩ := h
  rw [Grammar.isComplete] at hd
  cases hp : g.productions[i]? with
  | none =>
      rw [hp] at hd
      cases hd
  | some p => exact ⟨p, rfl⟩

/-- Putting the left-hand side in the place of the right-hand side keeps what the stack derives. -/
theorem StackPath.reduce (hg : g.WellFormed) {q : Nat} {stack : List Nat} {symbols read : List Symbol}
    (h : StackPath g (q :: stack) symbols) (hyields : g.YieldsAll symbols.reverse read) {i : Nat}
    {p : Production} (hp : g.productions[i]? = some p) {x : Symbol}
    (hcomplete : Compile.Completes g q i x) {below q' : Nat} {rest : List Nat}
    (hdrop : (q :: stack).drop p.rhs.length = below :: rest)
    (hstep : (states g).step? below p.lhs = some q') :
    ∃ symbols', StackPath g (q' :: below :: rest) symbols' ∧ g.YieldsAll symbols'.reverse read := by
  obtain ⟨hle, htake⟩ := h.reads_rhs hg hp hcomplete
  have hpath := h.drop hle
  rw [hdrop] at hpath
  refine ⟨p.lhs :: symbols.drop p.rhs.length, .push below q' rest _ p.lhs hpath hstep, ?_⟩
  rw [← List.take_append_drop p.rhs.length symbols, List.reverse_append, htake,
    List.reverse_reverse] at hyields
  obtain ⟨front, back, rfl, hfront, hback⟩ := hyields.exists_of_append
  rw [List.reverse_cons]
  refine hfront.append ?_
  have hnode := Grammar.YieldsAll.cons p.lhs [] back [] (.node i p back hp hback) .nil
  rwa [List.append_nil] at hnode

/-- One move keeps what has been read. -/
theorem HasRead.drive? (hg : g.WellFormed) (hf : t.Faithful g) (hfit : t.NumbersFit)
    {w : List Symbol} (hw : ∀ s ∈ w, g.isTerminal s = true) {d d' : Driver} (h : HasRead g w d)
    (hd : t.drive? d = some d') : HasRead g w d' := by
  obtain ⟨stack, symbols, read, hstack, hpath, hyields, hread⟩ := h
  obtain ⟨dstack, input⟩ := d
  simp only at hstack hread
  cases hpath' : stack with
  | nil =>
      rw [hpath'] at hpath
      cases hpath
  | cons q stack' =>
      subst hpath'
      cases input with
      | nil =>
          rw [hstack, Table.drive?] at hd
          simp at hd
      | cons x rest =>
          have hx : g.isTerminal x = true := hw x (by rw [hread]; simp)
          have hq : q < (states g).kernels.size := hpath.lt hg q List.mem_cons_self
          rw [hstack, Table.drive?] at hd
          simp only [List.map_cons] at hd
          rcases hf.terminal q x hq hx with haction | ⟨q', hstep, haction⟩ | ⟨i, hcomplete, haction⟩
          · rw [haction] at hd
            cases hd
          · rw [haction] at hd
            cases hd
            refine ⟨q' :: q :: stack', x :: symbols, read ++ [x], rfl,
              .push q q' stack' symbols x hpath hstep, ?_, by simp [hread]⟩
            rw [List.reverse_cons]
            exact hyields.append (Grammar.yieldsAll_of_terminals (by simpa using hx))
          · obtain ⟨p, hp⟩ := exists_production_of_completes hcomplete
            have hmem : p ∈ g.productions := Array.mem_of_getElem? hp
            rw [haction, Candidates.reduceAction] at hd
            by_cases hzero : i = 0
            · rw [if_pos hzero] at hd
              cases hd
            · rw [if_neg hzero] at hd
              simp only [production_eq hf.compiledFrom hfit hp, size_rhs_productionInfo] at hd
              rw [← List.map_cons, ← List.map_drop] at hd
              cases hdrop : (q :: stack').drop p.rhs.length with
              | nil =>
                  rw [hdrop] at hd
                  cases hd
              | cons below rest' =>
                  have hbelow : below < (states g).kernels.size := by
                    refine hpath.lt hg below (List.mem_of_mem_drop (i := p.rhs.length) ?_)
                    rw [hdrop]
                    exact List.mem_cons_self
                  have hlhs : g.isTerminal p.lhs = false := hg.isTerminal_lhs hp
                  rw [hdrop] at hd
                  simp only [List.map_cons, Compile.productionInfo,
                    hf.goto below p.lhs hbelow hlhs (hg.lhs p hmem).2] at hd
                  cases hstep : (states g).step? below p.lhs with
                  | none =>
                      rw [hstep] at hd
                      cases hd
                  | some q' =>
                      rw [hstep] at hd
                      cases hd
                      obtain ⟨symbols', hpath', hyields'⟩ :=
                        hpath.reduce hg hyields hp hcomplete hdrop hstep
                      exact ⟨q' :: below :: rest', symbols', read, rfl, hpath', hyields', hread⟩

theorem HasRead.drives (hg : g.WellFormed) (hf : t.Faithful g) (hfit : t.NumbersFit)
    {w : List Symbol} (hw : ∀ s ∈ w, g.isTerminal s = true) {d d' : Driver} (h : HasRead g w d)
    (hd : t.Drives d d') : HasRead g w d' := by
  induction hd with
  | refl => exact h
  | tail _ hstep ih => exact ih.drive? hg hf hfit hw hstep

/-- The item with the dot in front of the start symbol is in no state but the first. -/
theorem StackPath.eq_nil_of_start (hg : g.WellFormed) {q : Nat} {stack : List Nat}
    {symbols : List Symbol} (h : StackPath g (q :: stack) symbols)
    (hitem : ⟨0, 0⟩ ∈ g.closure g.productionsByLhs ((states g).kernel q)) : symbols = [] := by
  cases h with
  | start => rfl
  | push below q' stack symbols s _ hstep =>
      obtain ⟨p, hp, hlhs, _⟩ := hg.start
      rcases Grammar.mem_closure.1 hitem with hkernel | ⟨_, _, hfound⟩
      · rw [(Lr0.kernel_of_step? hg hstep).2] at hkernel
        obtain ⟨source, _, _, hadvance⟩ := Lr0.mem_successor.1 hkernel
        have hdot := congrArg Item.dot hadvance
        simp [Item.advance] at hdot
      · rw [Grammar.itemLhs_eq hp, hlhs, Grammar.closureSymbols_augmented hg] at hfound
        cases hfound

theorem eq_of_append_eof {w read rest : List Symbol} (hw : Symbol.eof ∉ w)
    (h : w ++ [Symbol.eof] = read ++ Symbol.eof :: rest) : read = w := by
  rcases List.append_eq_append_iff.1 h with ⟨front, rfl, hfront⟩ | ⟨front, rfl, hfront⟩
  · cases front with
    | nil => exact List.append_nil w
    | cons s front => simp at hfront
  · cases front with
    | nil => exact (List.append_nil read).symm
    | cons s front =>
        rw [List.cons_append, List.cons.injEq] at hfront
        rw [← hfront.1] at hw
        simp at hw

/-- A driver that has come to an accepting cell has read a string that the start symbol derives. -/
theorem yieldsAll_of_accepting (hg : g.WellFormed) (hf : t.Faithful g) {w : List Symbol}
    (hw : ∀ s ∈ w, g.isTerminal s = true) (heof : Symbol.eof ∉ w) {d : Driver}
    (h : HasRead g (w ++ [Symbol.eof]) d) (hd : t.accepting d) : g.YieldsAll [g.start] w := by
  obtain ⟨top, dstack, x, rest, rfl, haccept⟩ := hd
  obtain ⟨stack, symbols, read, hstack, hpath, hyields, hread⟩ := h
  cases stack with
  | nil => cases hpath
  | cons q stack =>
      simp only [List.map_cons, List.cons.injEq] at hstack hread
      rw [hstack.1] at haccept
      have hx : g.isTerminal x = true := by
        have hmem : x ∈ w ++ [Symbol.eof] := by
          rw [hread]
          simp
        rcases List.mem_append.1 hmem with hmem | hmem
        · exact hw x hmem
        · rw [List.mem_singleton.1 hmem]
          exact decide_eq_true hg.terminals
      have hq : q < (states g).kernels.size := hpath.lt hg q List.mem_cons_self
      rcases hf.terminal q x hq hx with haction | ⟨q', _, haction⟩ | ⟨i, hcomplete, haction⟩
      · rw [haction] at haccept
        cases haccept
      · rw [haction] at haccept
        cases haccept
      · rw [haction, Candidates.reduceAction] at haccept
        by_cases hzero : i = 0
        · subst hzero
          obtain ⟨p, hp, hlhs, hrhs⟩ := hg.start
          obtain ⟨_, htake⟩ := hpath.reads_rhs hg hp hcomplete
          obtain ⟨k, hk, hlooks⟩ := hcomplete
          obtain rfl := eq_eof_of_looks_start hg hlooks
          obtain rfl : k = 1 := by
            rw [Grammar.isComplete, hp] at hk
            have hlength := congrArg List.length hrhs
            simp only [Production.rhs, List.length_map, Array.length_toList,
              List.length_singleton] at hlength
            simpa [hlength] using hk
          obtain ⟨hle, _, below, below', hdrop, hstart⟩ := hpath.reads_item hg hp
            (g.subset_closure _ (mem_kernel_of_looks hlooks Nat.one_ne_zero))
          have hrest := hpath.drop hle
          rw [hdrop] at hrest
          have hnil := hrest.eq_nil_of_start hg hstart
          rw [hrhs] at htake
          rw [← List.take_append_drop 1 symbols, hnil] at hyields
          rw [List.length_singleton] at htake
          rw [htake] at hyields
          rw [← eq_of_append_eof heof hread]
          exact hyields
        · rw [if_neg hzero] at haccept
          cases haccept

end IncrementalLR
