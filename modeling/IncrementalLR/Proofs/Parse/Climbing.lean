import IncrementalLR.Proofs.Parse.Path
import IncrementalLR.Proofs.Parse.Recovery

/-!
# Reductions in front of a token

The outline of a stack keeps of each frame its state and whether its subtree counts towards a
right-hand side. What a reduction does to a stack can be told from the outline alone.

A token is consumed after reductions, each of which puts a new state on top of the states. If a state
came to stand on itself in this way, the same reductions could be made again and again, and the token
would never be consumed. So the states that reductions put one on top of the other differ from one to
the next.

A version that goes on by the first actions is therefore told apart from what was forked off it on the
way. Either the two have different states, or they have the same outline: where a frame of the forked
one does not count, it repeats the state below it, and the states of the other do not.
-/

namespace IncrementalLR

/-! ### Outlines of stacks -/

namespace Stack

/-- The frames, the last one first, each by its state and whether it counts. -/
def outline (s : Stack) : List (StateId × Bool) :=
  s.frames.map fun frame => (frame.state, frame.tree.isStructural)

/-- The state on top of an outline over a base. -/
def outlineTop (base : StateId) : List (StateId × Bool) → StateId
  | [] => base
  | top :: _ => top.1

/-- Takes off frames until so many that count are among them. -/
def popOutline : Nat → List (StateId × Bool) → List (StateId × Bool)
  | 0, frames => frames
  | _ + 1, [] => []
  | count + 1, top :: below => popOutline (if top.2 then count else count + 1) below

/-- A frame that does not count repeats the state below it. -/
def Repeats (base : StateId) : List (StateId × Bool) → Prop
  | [] => True
  | top :: below => (top.2 = false → top.1 = outlineTop base below) ∧ Repeats base below

variable {g : Grammar} {t : Table} {s : Stack} {base state : StateId}
  {frames below : List (StateId × Bool)} {count : Nat}

theorem state_eq_outlineTop (s : Stack) : s.state = outlineTop s.base s.outline := by
  obtain ⟨base, _ | ⟨top, below⟩⟩ := s
  · rfl
  · rfl

theorem outlineTop_replicate (base : StateId) (count : Nat) (top : StateId)
    (below : List (StateId × Bool)) :
    outlineTop base (List.replicate count (top, false) ++ (top, true) :: below) = top := by
  cases count with
  | zero => rfl
  | succ count => rfl

theorem parts_eq_outline (s : Stack) :
    s.parts.map (·.state) = (s.outline.filter (·.2)).map (·.1) := by
  rw [parts, outline, List.filter_map, List.map_map]
  rfl

theorem structuralStates_eq_outline (s : Stack) :
    s.structuralStates = (s.outline.filter (·.2)).map (·.1) ++ [s.base] := by
  rw [structuralStates_eq, parts_eq_outline]

/-- What is on top and does not count is not among what counts. -/
theorem filter_dropWhile (frames : List (StateId × Bool)) :
    (frames.dropWhile (!·.2)).filter (·.2) = frames.filter (·.2) := by
  induction frames with
  | nil => rfl
  | cons top below ih =>
      cases htop : top.2 with
      | true => rw [List.dropWhile_cons_of_neg (by simp [htop])]
      | false =>
          rw [List.dropWhile_cons_of_pos (by simp [htop]), ih,
            List.filter_cons_of_neg (by simp [htop])]

theorem Reduces.enough_outline {p : ProductionId} (h : s.Reduces t p) :
    (t.production p).rhs.size ≤ (s.outline.filter (·.2)).length := by
  have henough := h.enough
  rwa [← List.length_map (·.state), parts_eq_outline, List.length_map] at henough

theorem sameStates_iff {a b : Stack} : a.sameStates b = true ↔
    a.base = b.base ∧ a.outline.map (·.1) = b.outline.map (·.1) := by
  rw [sameStates, Bool.and_eq_true, beq_iff_eq, beq_iff_eq, outline, outline, List.map_map,
    List.map_map]
  rfl

/-! ### States that are repeated -/

theorem Path.base_eq (h : s.Path g t) : s.base = t.startState := by
  induction h with
  | start => rfl
  | push s frame _ _ ih => exact ih

theorem Path.repeats (h : s.Path g t) : Repeats s.base s.outline := by
  induction h with
  | start => trivial
  | push s frame _ hframe ih =>
      exact ⟨fun hother => (hframe.other hother).trans s.state_eq_outlineTop, ih⟩

theorem Repeats.of_suffix (h : Repeats base frames) (hsuffix : below <:+ frames) :
    Repeats base below := by
  induction frames with
  | nil =>
      rw [List.suffix_nil.1 hsuffix]
      trivial
  | cons top rest ih =>
      rcases List.suffix_cons_iff.1 hsuffix with rfl | hsuffix
      · exact h
      · exact ih h.2 hsuffix

/-! ### Popping -/

theorem outline_popFrames (count : Nat) (frames : List Frame) (taken : List Subtree) :
    (popFrames count frames taken).2.map (fun frame => (frame.state, frame.tree.isStructural))
      = popOutline count (frames.map fun frame => (frame.state, frame.tree.isStructural)) := by
  fun_induction popFrames count frames taken with
  | case1 => rw [popOutline]
  | case2 => rfl
  | case3 count top below taken ih =>
      rw [ih, List.map_cons, popOutline]

theorem suffix_popOutline (count : Nat) (frames : List (StateId × Bool)) :
    popOutline count frames <:+ frames := by
  fun_induction popOutline count frames with
  | case1 => exact List.suffix_refl _
  | case2 => exact List.suffix_refl _
  | case3 count top below ih => exact ih.trans (List.suffix_cons top below)

/-- The last frame that is taken off counts. -/
theorem popOutline_stops (henough : count ≤ (frames.filter (·.2)).length) {top : StateId × Bool}
    (htop : top :: popOutline count frames <:+ frames) : top.2 = true := by
  fun_induction popOutline count frames with
  | case1 frames =>
      have hlength := htop.length_le
      rw [List.length_cons] at hlength
      omega
  | case2 => exact absurd henough (Nat.not_succ_le_zero _)
  | case3 count first below ih =>
      rcases List.suffix_cons_iff.1 htop with heq | hsuffix
      · rw [List.cons.injEq] at heq
        obtain ⟨rfl, hall⟩ := heq
        by_contra hother
        have hother := Bool.eq_false_iff.2 hother
        rw [List.filter_cons_of_neg (by simp [hother])] at henough
        rw [hother, if_neg Bool.false_ne_true] at hall
        cases below with
        | nil => exact absurd henough (Nat.not_succ_le_zero _)
        | cons second rest =>
            have hlength := congrArg List.length hall
            have hle := (suffix_popOutline (if second.2 then count else count + 1) rest).length_le
            rw [popOutline, List.length_cons] at hlength
            omega
      · refine ih ?_ hsuffix
        cases hfirst : first.2 with
        | true =>
            rw [List.filter_cons_of_pos hfirst, List.length_cons] at henough
            simpa using henough
        | false =>
            rw [List.filter_cons_of_neg (by simp [hfirst])] at henough
            simpa using henough

/-- Frames that count are taken off first. -/
theorem popOutline_append (nodes : List StateId) (count : Nat) (below : List (StateId × Bool)) :
    popOutline (nodes.length + count) (nodes.map (·, true) ++ below) = popOutline count below := by
  induction nodes with
  | nil => rw [List.length_nil, Nat.zero_add, List.map_nil, List.nil_append]
  | cons node nodes ih =>
      rw [List.length_cons, Nat.add_right_comm, List.map_cons, List.cons_append, popOutline,
        if_pos rfl, ih]

/-! ### Pushing -/

theorem outline_push (s : Stack) (state : StateId) (tree : Subtree) (pending : Bool) :
    (s.push state tree pending).outline = (state, tree.isStructural) :: s.outline := rfl

theorem outline_pushAll (s : Stack) (state : StateId) {trees : List Subtree}
    (hothers : ∀ tree ∈ trees, tree.isStructural = false) :
    (s.pushAll state trees).outline = List.replicate trees.length (state, false) ++ s.outline := by
  induction trees generalizing s with
  | nil => rfl
  | cons tree rest ih =>
      obtain ⟨hother, hothers⟩ := List.forall_mem_cons.1 hothers
      calc (s.pushAll state (tree :: rest)).outline
          = List.replicate rest.length (state, false) ++ (s.push state tree false).outline :=
            ih (s.push state tree false) hothers
        _ = List.replicate rest.length (state, false) ++ [(state, false)] ++ s.outline := by
            rw [outline_push, hother, List.append_assoc, List.singleton_append]
        _ = List.replicate (tree :: rest).length (state, false) ++ s.outline := by
            rw [List.length_cons, List.replicate_succ']

theorem base_pushAll (s : Stack) (state : StateId) (trees : List Subtree) :
    (s.pushAll state trees).base = s.base := by
  induction trees generalizing s with
  | nil => rfl
  | cons tree rest ih => exact ih (s.push state tree false)

end Stack

namespace ParseSetting

open Stack (popOutline outlineTop)

variable {g : Grammar} {setting : ParseSetting} {s : Stack} {p : ProductionId}

/-- A reduction takes off what does not count and the right-hand side, and puts the new node and what
does not count on what is left. -/
theorem outline_reduceStack (hg : g.WellFormed) (hfrom : setting.table.CompiledFrom g)
    (hreduces : s.Reduces setting.table p) (forked : Bool) (id : Nat) :
    ∃ next, setting.table.goto? (outlineTop s.base
          (popOutline (setting.table.production p).rhs.size (s.outline.dropWhile (!·.2))))
        (setting.table.production p).lhs = some next ∧
      (setting.reduceStack forked p id s).1.base = s.base ∧
      (setting.reduceStack forked p id s).1.outline
        = List.replicate (s.outline.takeWhile (!·.2)).length (next, false) ++ (next, true) ::
          popOutline (setting.table.production p).rhs.size (s.outline.dropWhile (!·.2)) := by
  obtain ⟨hlt, _, _, next, hgoto⟩ := hreduces
  have hne := Table.lhs_ne_error hg hfrom hlt
  have hbelow : (s.popTrailing.2.popStructural (setting.table.production p).rhs.size).2.outline
      = popOutline (setting.table.production p).rhs.size (s.outline.dropWhile (!·.2)) := by
    rw [Stack.outline, Stack.popStructural, Stack.outline_popFrames, Stack.popTrailing, Stack.outline,
      List.dropWhile_map]
    rfl
  have htrailing : s.popTrailing.1.length = (s.outline.takeWhile (!·.2)).length := by
    rw [Stack.popTrailing, Stack.outline, List.takeWhile_map, List.length_map, List.length_map,
      List.length_reverse]
    rfl
  refine ⟨next, ?_, ?_⟩
  · rw [← hgoto, Stack.state_eq_outlineTop, hbelow]
    rfl
  rw [reduceStack]
  simp only
  rw [hgoto]
  constructor
  · exact Stack.base_pushAll _ _ _
  · rw [Stack.outline_pushAll _ _ s.structural_popTrailing, Stack.outline_push, hbelow, htrailing]
    simp [Subtree.isStructural, hne]

end ParseSetting

/-! ### Climbing -/

open Stack (outlineTop popOutline Repeats)

namespace Recovery

variable {t : Table} {x : Symbol} {q r next : StateId} {states out : List StateId} {fuel : Nat}
  {p : ProductionId}

/-- Whatever is below the first state, the reductions put the second on top of it. -/
def Climbs (t : Table) (x : Symbol) (q r : StateId) : Prop :=
  ∀ (fuel : Nat) (states out : List StateId), consume t x fuel (q :: states) = some out →
    ∃ less < fuel, consume t x less (r :: q :: states) = some out

/-- The symbol can be consumed on top of the state. -/
def ConsumesOn (t : Table) (x : Symbol) (q : StateId) : Prop :=
  ∃ fuel states out, consume t x fuel (q :: states) = some out

/-- No state stands on itself in front of a symbol that is consumed. -/
theorem Climbs.not_consumesOn (h : Climbs t x q q) : ¬ ConsumesOn t x q := by
  have hnone : ∀ fuel states, consume t x fuel (q :: states) = none := by
    intro fuel
    induction fuel using Nat.strong_induction_on with
    | _ fuel ih =>
        intro states
        by_contra hsome
        obtain ⟨out, hout⟩ := Option.ne_none_iff_exists'.1 hsome
        obtain ⟨less, hless, hagain⟩ := h fuel states out hout
        rw [ih less hless] at hagain
        cases hagain
  rintro ⟨fuel, states, out, hout⟩
  rw [hnone] at hout
  cases hout

/-- The states on top of a state, each of which the reductions put on the one below it. -/
theorem exists_consume_of_isChain {nodes : List StateId}
    (h : (nodes ++ [q]).IsChain fun r q => Climbs t x q r)
    (hconsume : consume t x fuel (q :: states) = some out) :
    ∃ less ≤ fuel, consume t x less (nodes ++ q :: states) = some out := by
  induction nodes with
  | nil => exact ⟨fuel, Nat.le_refl fuel, hconsume⟩
  | cons r nodes ih =>
      obtain ⟨hclimbs, htail⟩ := List.isChain_cons.1 h
      obtain ⟨less, hle, hless⟩ := ih htail
      cases nodes with
      | nil =>
          obtain ⟨less', hlt, hless'⟩ := hclimbs q rfl less states out hless
          exact ⟨less', (Nat.le_of_lt hlt).trans hle, hless'⟩
      | cons r' nodes =>
          obtain ⟨less', hlt, hless'⟩ := hclimbs r' rfl less (nodes ++ q :: states) out hless
          exact ⟨less', (Nat.le_of_lt hlt).trans hle, hless'⟩

/-- A reduction in front of the symbol takes a right-hand side off and puts its state on what is
below. -/
theorem consume_of_reduce {nodes : List StateId} {top : StateId} {above : List StateId}
    (habove : nodes ++ q :: states = top :: above) (hfirst : firstAction t top x = .reduce p)
    (hsize : (t.production p).rhs.size = nodes.length)
    (hgoto : t.goto? q (t.production p).lhs = some next) :
    consume t x (fuel + 1) (nodes ++ q :: states) = consume t x fuel (next :: q :: states) := by
  have hreduce : reduceStates t p (nodes ++ q :: states) = some (next :: q :: states) := by
    simp only [reduceStates, hsize, List.drop_left, hgoto, Option.map_some]
  rw [habove] at hreduce ⊢
  rw [consume, hfirst]
  simp only
  rw [hreduce, Option.bind_some]

/-- A reduction that takes off some of the states puts its new state on the one below them. -/
theorem climbs_of_reduce {nodes : List StateId} {top : StateId} {above : List StateId}
    (hchain : (nodes ++ [q]).IsChain fun r q => Climbs t x q r) (habove : nodes ++ [q] = top :: above)
    (hfirst : firstAction t top x = .reduce p)
    (hsize : (t.production p).rhs.size = nodes.length)
    (hgoto : t.goto? q (t.production p).lhs = some next) : Climbs t x q next := by
  intro fuel states out hconsume
  obtain ⟨less, hle, hless⟩ := exists_consume_of_isChain hchain hconsume
  cases less with
  | zero => cases hless
  | succ less =>
      have hstates : nodes ++ q :: states = top :: (above ++ states) := by
        rw [List.append_cons, habove, List.cons_append]
      rw [consume_of_reduce hstates hfirst hsize hgoto] at hless
      exact ⟨less, hle, hless⟩

/-! ### Versions that are forked off -/

/-- One version was forked off another, which has made reductions since. The forked one has one new
node, and the other some that were put one on top of the other; all else on the two stacks was
there before. -/
inductive Overtakes (t : Table) (x : Symbol) (base : StateId) :
    List (StateId × Bool) → List (StateId × Bool) → Prop
  | mk (shared below below' : List (StateId × Bool)) (trailing : Nat) (top state : StateId)
      (nodes : List StateId) (hbelow : below <:+ shared) (hbelow' : below' <:+ shared)
      (hpart : ∀ frame, frame :: below <:+ shared → frame.2 = true) (hrepeats : Repeats base shared)
      (hclimbs : (top :: nodes).IsChain fun r q => Climbs t x q r)
      (hconsumes : ∀ q ∈ top :: nodes, ConsumesOn t x q) :
      Overtakes t x base
        (List.replicate trailing (top, false) ++ ((top :: nodes).map (·, true) ++ below))
        (List.replicate trailing (state, false) ++ (state, true) :: below')

variable {base : StateId} {main other shared below : List (StateId × Bool)}

/-- Frames that have the states of nodes all count. -/
theorem counts_of_isChain {frames : List (StateId × Bool)}
    (hclimbs : (frames.map (·.1)).IsChain fun r q => Climbs t x q r)
    (hconsumes : ∀ q ∈ frames.map (·.1), ConsumesOn t x q) (hrepeats : Repeats base (frames ++ below))
    (hpart : ∀ frame, frame :: below <:+ frames ++ below → frame.2 = true) :
    ∀ frame ∈ frames, frame.2 = true := by
  induction frames with
  | nil => exact fun _ h => absurd h List.not_mem_nil
  | cons frame frames ih =>
      obtain ⟨hfirst, hchain⟩ := List.isChain_cons.1 hclimbs
      obtain ⟨_, hconsumes⟩ := List.forall_mem_cons.1 hconsumes
      refine List.forall_mem_cons.2 ⟨?_, ih hchain hconsumes hrepeats.2 fun frame hsuffix =>
        hpart frame (hsuffix.trans (List.suffix_cons _ _))⟩
      cases frames with
      | nil => exact hpart frame (List.suffix_refl _)
      | cons second frames =>
          by_contra hother
          have hsame : frame.1 = second.1 := hrepeats.1 (Bool.eq_false_iff.2 hother)
          have hself : Climbs t x second.1 frame.1 := hfirst second.1 rfl
          rw [hsame] at hself
          exact hself.not_consumesOn (hconsumes second.1 List.mem_cons_self)

/-- Versions with the same states have the same outline. -/
theorem Overtakes.eq_of_states (h : Overtakes t x base main other)
    (hsame : main.map (·.1) = other.map (·.1)) : main = other := by
  obtain ⟨shared, below, below', trailing, top, state, nodes, hbelow, hbelow', hpart, hrepeats,
    hclimbs, hconsumes⟩ := h
  have hlength := congrArg List.length hsame
  simp only [List.length_map, List.length_append, List.length_replicate, List.length_cons] at hlength
  obtain ⟨frames, rfl⟩ : below <:+ below' :=
    List.suffix_of_suffix_length_le hbelow hbelow' (by omega)
  rw [List.length_append] at hlength
  simp only [List.map_append, List.map_cons, List.map_map] at hsame
  obtain ⟨_, hsame⟩ := List.append_inj hsame (by simp)
  rw [List.cons_append, List.cons.injEq] at hsame
  obtain ⟨heq, hstates⟩ := hsame
  subst heq
  obtain ⟨hnodes, _⟩ := List.append_inj' hstates rfl
  have hnodes : frames.map (·.1) = nodes := hnodes.symm.trans (List.map_id nodes)
  have hcounts : ∀ frame ∈ frames, frame.2 = true :=
    counts_of_isChain (by rw [hnodes]; exact hclimbs.tail)
      (by rw [hnodes]; exact fun q hq => hconsumes q (List.mem_cons_of_mem _ hq))
      (hrepeats.of_suffix hbelow') fun frame hsuffix => hpart frame (hsuffix.trans hbelow')
  have hframes : nodes.map (·, true) = frames := by
    rw [← hnodes, List.map_map]
    refine (List.map_congr_left fun frame hframe => ?_).trans (List.map_id frames)
    exact Prod.ext rfl (hcounts frame hframe).symm
  rw [List.map_cons, hframes, List.cons_append]

/-- A version is forked off where another makes its first reduction. -/
theorem overtakes_of_fork (hrepeats : Repeats base shared) {count : Nat}
    (henough : count ≤ (shared.filter (·.2)).length) (count' trailing : Nat) (state : StateId)
    (hconsumes : ConsumesOn t x next) :
    Overtakes t x base
      (List.replicate trailing (next, false) ++ (next, true) :: popOutline count shared)
      (List.replicate trailing (state, false) ++ (state, true) :: popOutline count' shared) :=
  .mk shared (popOutline count shared) (popOutline count' shared) trailing next state []
    (Stack.suffix_popOutline count shared) (Stack.suffix_popOutline count' shared)
    (fun _ hsuffix => Stack.popOutline_stops henough hsuffix) hrepeats (List.isChain_singleton _)
    (List.forall_mem_singleton.2 hconsumes)

/-- The parts of an outline with frames on top that do not count. -/
theorem split_outline (base : StateId) (trailing : Nat) (top : StateId) (nodes : List StateId)
    (below : List (StateId × Bool)) {frames : List (StateId × Bool)}
    (h : frames = List.replicate trailing (top, false) ++ ((top :: nodes).map (·, true) ++ below)) :
    (frames.takeWhile (!·.2)).length = trailing ∧
      frames.dropWhile (!·.2) = (top :: nodes).map (·, true) ++ below ∧ outlineTop base frames = top ∧
      (frames.filter (·.2)).length = (top :: nodes).length + (below.filter (·.2)).length := by
  have hothers : ∀ frame ∈ List.replicate trailing (top, false), (!frame.2) = true := by
    intro frame hframe
    rw [List.eq_of_mem_replicate hframe]
    rfl
  subst h
  refine ⟨?_, ?_, ?_, ?_⟩
  · rw [List.takeWhile_append_of_pos hothers]
    simp
  · rw [List.dropWhile_append_of_pos hothers]
    simp
  · exact Stack.outlineTop_replicate base trailing top _
  · simp [List.filter_append, List.filter_map, Function.comp_def, Nat.add_right_comm]

/-- The last frame that was taken off still counts when more are taken off. -/
theorem counts_of_popOutline {count : Nat} (henough : count ≤ (below.filter (·.2)).length)
    (hbelow : below <:+ shared) (hpart : ∀ frame, frame :: below <:+ shared → frame.2 = true)
    {frame : StateId × Bool} (hframe : frame :: popOutline count below <:+ shared) :
    frame.2 = true := by
  have hsuffix := Stack.suffix_popOutline count below
  rcases Nat.lt_or_ge (popOutline count below).length below.length with hlt | hle
  · exact Stack.popOutline_stops henough (List.suffix_of_suffix_length_le hframe hbelow hlt)
  · rw [hsuffix.eq_of_length_le hle] at hframe
    exact hpart frame hframe

/-- The version that goes on makes another reduction. -/
theorem Overtakes.reduce (h : Overtakes t x base main other)
    (hfirst : firstAction t (outlineTop base main) x = .reduce p)
    (henough : (t.production p).rhs.size ≤ (main.filter (·.2)).length)
    (hgoto : t.goto? (outlineTop base (popOutline (t.production p).rhs.size
      (main.dropWhile (!·.2)))) (t.production p).lhs = some next) (hconsumes : ConsumesOn t x next) :
    Overtakes t x base
      (List.replicate (main.takeWhile (!·.2)).length (next, false) ++ (next, true) ::
        popOutline (t.production p).rhs.size (main.dropWhile (!·.2))) other := by
  obtain ⟨shared, below, below', trailing, top, state, nodes, hbelow, hbelow', hpart, hrepeats,
    hclimbs, hnodes⟩ := h
  obtain ⟨hlength, hdrop, htop, hcounts⟩ := split_outline base trailing top nodes below rfl
  rw [htop] at hfirst
  rw [hcounts] at henough
  rw [hdrop] at hgoto ⊢
  rw [hlength]
  rcases Nat.lt_or_ge nodes.length (t.production p).rhs.size with hlt | hle
  · -- all nodes are taken off, and more from below them
    obtain ⟨count, hcount⟩ : ∃ count, (t.production p).rhs.size = (top :: nodes).length + count :=
      Nat.exists_eq_add_of_le hlt
    rw [hcount] at henough
    rw [hcount, Stack.popOutline_append]
    exact .mk shared (popOutline count below) below' trailing next state []
      ((Stack.suffix_popOutline count below).trans hbelow) hbelow'
      (fun frame => counts_of_popOutline (Nat.le_of_add_le_add_left henough) hbelow hpart) hrepeats
      (List.isChain_singleton _) (List.forall_mem_singleton.2 hconsumes)
  · -- the new node stands on one of the nodes
    obtain ⟨taken, q, left, hsplit, hsize⟩ : ∃ taken q left, top :: nodes = taken ++ q :: left ∧
        taken.length = (t.production p).rhs.size := by
      obtain ⟨q, left, hleft⟩ : ∃ q left, (top :: nodes).drop (t.production p).rhs.size = q :: left :=
        List.exists_cons_of_ne_nil (by simpa using Nat.lt_succ_of_le hle)
      refine ⟨(top :: nodes).take (t.production p).rhs.size, q, left, ?_, ?_⟩
      · rw [← hleft, List.take_append_drop]
      · rw [List.length_take, List.length_cons, Nat.min_eq_left (Nat.le_succ_of_le hle)]
    rw [hsplit] at hclimbs hnodes hgoto ⊢
    have hpop : popOutline (t.production p).rhs.size ((taken ++ q :: left).map (·, true) ++ below)
        = (q :: left).map (·, true) ++ below := by
      rw [← hsize, List.map_append, List.append_assoc]
      exact Stack.popOutline_append taken 0 _
    rw [hpop] at hgoto ⊢
    have hclimb : Climbs t x q next := by
      obtain ⟨above, habove⟩ : ∃ above, taken ++ [q] = top :: above := by
        cases taken with
        | nil => exact ⟨[], by rw [(List.cons.inj hsplit).1, List.nil_append]⟩
        | cons first taken => exact ⟨taken ++ [q], by rw [(List.cons.inj hsplit).1, List.cons_append]⟩
      have hpiece : List.IsChain (fun r q => Climbs t x q r) (taken ++ [q]) := by
        rw [List.append_cons] at hclimbs
        exact hclimbs.left_of_append
      exact climbs_of_reduce hpiece habove hfirst hsize.symm hgoto
    exact .mk shared below below' trailing next state (q :: left) hbelow hbelow' hpart hrepeats
      (List.isChain_cons_cons.2 ⟨hclimb, hclimbs.right_of_append⟩)
      (List.forall_mem_cons.2 ⟨hconsumes, fun r hr => hnodes r (List.mem_append_right taken hr)⟩)

end Recovery

end IncrementalLR
