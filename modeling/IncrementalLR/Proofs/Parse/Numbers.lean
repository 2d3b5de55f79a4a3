import IncrementalLR.Proofs.Parse.Advancing
import IncrementalLR.Proofs.Parse.Distinct
import IncrementalLR.Proofs.Parse.Termination

/-!
# The numbers of a whole parse

A recovery puts missing tokens or skipped text on a stack, or gives the version up. The tokens that it
looked at stay admitted behind one another, although the lexer went on to others since. So all operations
keep the numbers distinct, and those of the tree at the end of a parse are, and are below the next free
one.
-/

namespace IncrementalLR

open Subtree (idsAll Numbered Renews totalAll)

namespace ParseSetting

variable {setting : ParseSetting} {first i : Nat} {s s' : ParseState} {v : Version} {t : Subtree}

/-! ### Recovery -/

theorem renews_missing (setting : ParseSetting) (id : Nat) (stack : Stack) (symbol : Symbol)
    (next : StateId) (mode : LexMode) : Renews id (id + 1) stack.trees
      (stack.push next (Subtree.ofMissing setting.table id symbol mode) false).trees := by
  rw [Stack.trees_push]
  refine ⟨Nat.le_succ id, fun k => Nat.le_of_eq ?_⟩
  have hids : (Subtree.ofMissing setting.table id symbol mode).ids = [id] := rfl
  rw [Subtree.idsAll_append, Subtree.idsAll_singleton, List.count_append, hids,
    Subtree.count_singleton]

/-- Putting in a missing token leaves the version in its place. -/
theorem distinct_insertMissing (hs : s.Distinct first) (symbol : Symbol) (fuel : Nat) :
    (setting.insertMissing i symbol fuel s).Distinct first ∧
      (setting.insertMissing i symbol fuel s).cache = s.cache ∧
      (setting.insertMissing i symbol fuel s).versions[i]?.map (·.position)
        = s.versions[i]?.map (·.position) := by
  induction fuel generalizing s with
  | zero => exact ⟨hs, rfl, rfl⟩
  | succ fuel ih =>
      rw [insertMissing]
      cases hv : s.versions[i]? with
      | none => exact ⟨hs, rfl, by rw [hv]⟩
      | some v =>
          simp only
          split
          · rename_i p _
            obtain ⟨hdistinct, hcache, hposition⟩ := ih (distinct_reduce hs p)
            refine ⟨hdistinct, hcache.trans ?_, hposition.trans ?_⟩
            · rw [reduce, hv]
              rfl
            · rw [getElem?_reduce hv]
              rfl
          · rename_i next _
            have hissues := ParseState.issues_withNextId hs.numbering (Nat.le_succ s.nextId)
            refine ⟨(hs.issues hissues).setVersion ?_ ?_, rfl, ?_⟩
            · exact (hs.of_getElem? hv).withStack hs.numbering (renews_missing setting ..)
            · exact fun hforked => hs.leaves hforked v (List.mem_of_getElem? hv)
            · have hset := ParseState.getElem?_setVersion
                (s := { s with nextId := s.nextId + 1 }) hv { v with
                  stack := v.stack.push next (Subtree.ofMissing setting.table s.nextId symbol
                    (setting.table.lexMode v.stack.state)) false }
              rw [hset]
              rfl
          · exact ⟨hs, rfl, by rw [hv]⟩

theorem distinct_insertAll (hs : s.Distinct first) (symbols : List Symbol) (fuel : Nat) :
    let all := symbols.foldl (fun s symbol => setting.insertMissing i symbol fuel s) s
    all.Distinct first ∧ all.cache = s.cache ∧
      all.versions[i]?.map (·.position) = s.versions[i]?.map (·.position) := by
  induction symbols generalizing s with
  | nil => exact ⟨hs, rfl, rfl⟩
  | cons symbol symbols ih =>
      obtain ⟨hinserted, hcache, hposition⟩ := distinct_insertMissing hs symbol fuel (i := i)
      obtain ⟨hall, hcache', hposition'⟩ := ih hinserted
      exact ⟨hall, hcache'.trans hcache, hposition'.trans hposition⟩

/-- The tokens behind one that a stack admits are admitted in turn, all but the last of them. -/
theorem issues_upcoming (h : setting.EndsAtEof) (hs : s.numbering.StartsAt first)
    {done : List Subtree} {position : Length} {last : Subtree}
    (hlast : last.IsEnd ∨ s.numbering.Admits done position.bytes) (limit : Nat) :
    s.Issues first (setting.upcoming s position last limit).2 ∧
      (setting.upcoming s position last limit).2.numbering.AdmitsPassed done position.bytes
        (setting.upcoming s position last limit).1 := by
  induction limit generalizing s done position last with
  | zero => exact ⟨.refl hs, .nil⟩
  | succ limit ih =>
      rw [upcoming]
      split
      · exact ⟨.refl hs, .nil⟩
      · rename_i hsymbol
        have hdone := hlast.resolve_left fun hend => hsymbol (beq_iff_eq.2 hend.symbol)
        obtain ⟨hlex, c, hc, hposition, htree⟩ := issues_lex h hs position.bytes LexMode.error
        generalize setting.lex s position.bytes LexMode.error = lexed at *
        obtain ⟨token, s'⟩ := lexed
        obtain rfl : c.tree = token := htree
        have hdone := hdone.grows hlex.grows
        have hnext : c.tree.IsEnd ∨ s'.numbering.Admits (done ++ [c.tree])
            (position + c.tree.total).bytes :=
          (hlex.numbering.cache c hc).1.pos.imp_right fun hpos =>
            hdone.token hlex.numbering hc hposition hpos
        obtain ⟨hissues, hpassed⟩ := ih hlex.numbering hnext
        exact ⟨hlex.trans hissues, .cons (hdone.grows hissues.grows) hpassed⟩

theorem admitsPassed_upcoming (h : setting.EndsAtEof) (hs : s.Distinct first)
    (hv : s.versions[i]? = some v) (ht : v.lookahead = some t) (limit : Nat) :
    let looked := setting.upcoming s (v.position + t.total) t limit
    s.Issues first looked.2 ∧
      looked.2.numbering.AdmitsPassed v.stack.trees v.position.bytes (t :: looked.1) := by
  have hdistinct := hs.of_getElem? hv
  obtain ⟨hissues, hpassed⟩ := issues_upcoming h hs.numbering (hdistinct.lookahead t ht) limit
  exact ⟨hissues, .cons (hdistinct.stack.grows hissues.grows) hpassed⟩

theorem distinct_setLookahead {c : TokenCache} (hs : s.Distinct first) (hc : c ∈ s.cache)
    (hposition : s.versions[i]?.map (·.position.bytes) = some c.position) :
    (setLookahead s i c.tree).Distinct first := by
  rw [setLookahead]
  cases hv : s.versions[i]? with
  | none => exact hs
  | some v =>
      rw [hv] at hposition
      refine hs.setVersion (.of_token hs.numbering (hs.of_getElem? hv).stack hc
        (Option.some.inj hposition).symm) fun _ t ht => ?_
      obtain rfl := Option.mem_some_iff.1 ht
      exact (hs.numbering.cache c hc).1.isLeaf

/-- Plans only give out numbers when none of them can be carried out. -/
theorem distinct_carryOut (h : setting.EndsAtEof) (hs : s.Distinct first)
    (hv : s.versions[i]? = some v) (lookahead : Subtree) {tokens : List Subtree}
    (hpassed : s.numbering.AdmitsPassed v.stack.trees v.position.bytes tokens) (plans : List Plan) :
    (setting.carryOut i v lookahead tokens s plans).2.Distinct first ∧
      ((setting.carryOut i v lookahead tokens s plans).1 = false →
        s.Issues first (setting.carryOut i v lookahead tokens s plans).2) := by
  induction plans generalizing s with
  | nil => exact ⟨hs, fun _ => .refl hs.numbering⟩
  | cons plan plans ih =>
      cases plan with
      | insert symbols state =>
          obtain ⟨hissues, c, hc, hposition, htree⟩ :=
            issues_lex h hs.numbering v.position.bytes (setting.table.lexMode state)
          have hlexed := hs.issues hissues
          have hsame := hissues.versions
          rw [carryOut]
          simp only
          split
          · obtain ⟨hinserted, hcache, hplace⟩ :=
              distinct_insertAll hlexed symbols Recovery.simulationLimit (i := i)
            refine ⟨?_, fun hdone => absurd hdone.symm Bool.false_ne_true⟩
            rw [← htree]
            refine distinct_setLookahead hinserted (hcache ▸ hc) ?_
            rw [hsame, hv] at hplace
            obtain ⟨w, hw, hwv⟩ := Option.map_eq_some_iff.1 hplace
            rw [hw, hposition]
            exact congrArg (fun p : Length => some p.bytes) hwv
          · obtain ⟨hdistinct, hkept⟩ := ih hlexed (by rw [hsame, hv]) (hpassed.grows hissues.grows)
            exact ⟨hdistinct, fun hdone => hissues.trans (hkept hdone)⟩
      | skip popped skipped =>
          obtain ⟨hissues, c, hc, hposition, htree⟩ := issues_lex h hs.numbering
            ((tokens.take skipped).foldl (fun p token => p + token.total) v.position).bytes
            (setting.table.lexMode { v.stack with frames := v.stack.frames.drop popped }.state)
          have hlexed := hs.issues hissues
          have hsame := hissues.versions
          rw [carryOut]
          simp only
          split
          · rename_i htokens
            refine ⟨?_, fun hdone => absurd hdone.symm Bool.false_ne_true⟩
            generalize setting.lex s _ _ = lexed at *
            obtain ⟨relexed, s'⟩ := lexed
            obtain rfl : c.tree = relexed := htree
            have hskipped : skipped < tokens.length := by
              by_contra hge
              rw [List.getElem?_eq_none (Nat.le_of_not_lt hge)] at htokens
              cases htokens
            have hstart := hlexed.numbering.nextId (Nat.le_succ s'.nextId)
            have hadmits := ((hpassed skipped hskipped).grows hissues.grows).renews hissues.numbering
              (setting.renews_skipVersion v tokens popped skipped s'.nextId c.tree)
            rw [← setting.bytes_skipVersion v tokens popped skipped s'.nextId c.tree] at hadmits
            refine (hlexed.issues (ParseState.issues_withNextId hlexed.numbering
              (Nat.le_succ s'.nextId))).setVersion (.of_token hstart hadmits hc hposition) ?_
            rintro _ _ ⟨⟩
            exact (hissues.numbering.cache c hc).1.isLeaf
          · obtain ⟨hdistinct, hkept⟩ := ih hlexed (by rw [hsame, hv]) (hpassed.grows hissues.grows)
            exact ⟨hdistinct, fun hdone => hissues.trans (hkept hdone)⟩

theorem distinct_recover (h : setting.EndsAtEof) (hs : s.Distinct first)
    (hv : s.versions[i]? = some v) (ht : v.lookahead = some t) :
    (setting.recover s i v t).Distinct first := by
  obtain ⟨hissues, hpassed⟩ :=
    admitsPassed_upcoming h hs hv ht setting.options.maxSkippedTokens
  rw [recover]
  simp only at hissues hpassed ⊢
  generalize setting.upcoming s (v.position + t.total) t setting.options.maxSkippedTokens
    = looked at *
  obtain ⟨more, s'⟩ := looked
  generalize (setting.insertPlans v.stack t ++ _).mergeSort _ = plans
  have hlooked := hs.issues hissues
  have hv' : s'.versions[i]? = some v := by rw [hissues.versions, hv]
  obtain ⟨hdistinct, hkept⟩ := distinct_carryOut h hlooked hv' t hpassed (plans.map (·.2))
  split
  · exact hdistinct
  · rename_i hdone
    split
    · exact distinct_accept hdistinct
    · rename_i hsymbol
      have hkept := hkept (Bool.eq_false_iff.2 hdone)
      generalize (setting.carryOut i v t (t :: more) s' (plans.map (·.2))).2 = s'' at *
      have hversion := hdistinct.of_getElem? (i := i) (v := v) (by rw [hkept.versions, hv'])
      have hend : ¬ t.IsEnd := fun hend => hsymbol (beq_iff_eq.2 hend.symbol)
      exact (hdistinct.issues (ParseState.issues_withNextId hdistinct.numbering
        (Nat.le_succ s''.nextId))).setVersion
        (hversion.shifted ht hend hdistinct.numbering (.ofSkipped setting.table _ _) _ _)
        fun _ t ht => absurd ht (Option.not_mem_none t)

theorem distinct_handleError (h : setting.EndsAtEof) (hs : s.Distinct first)
    (hv : s.versions[i]? = some v) (ht : v.lookahead = some t) :
    (setting.handleError s i v t).1.Distinct first := by
  rw [handleError]
  simp only
  split
  · exact hs.removeVersion
  · have hbroken := hs.setVersion (i := i) ((hs.of_getElem? hv).withStack hs.numbering
      (renews_breakPending setting.table s.nextId v.stack))
      fun hforked => hs.leaves hforked v (List.mem_of_getElem? hv)
    split
    · exact hbroken
    · have hcounted : ({ s.setVersion i { v with stack := (breakPending setting.table v.stack).2 } with
          recoveries := s.recoveries + 1
          stats := { s.stats with recoveries := s.stats.recoveries + 1 } }).Distinct first :=
        ⟨hbroken.numbering, hbroken.versions, hbroken.accepted, hbroken.leaves⟩
      split
      · exact hcounted
      · exact distinct_recover h hcounted (ParseState.getElem?_setVersion hv _) ht

/-! ### Operations -/

/-- Where one version looks at a token, all do. -/
theorem looksAtTokens_of_leaf (hs : s.Distinct first) (hv : s.versions[i]? = some v)
    (ht : v.lookahead = some t) (hleaf : t.isLeaf = true) : LooksAtTokens s := by
  by_cases hforked : s.isForked = true
  · exact hs.leaves hforked
  · obtain ⟨hsingle, _⟩ := ParseState.eq_singleton (Bool.eq_false_iff.2 hforked) hv
    intro w hw u hu
    rw [hsingle] at hw
    rw [List.mem_singleton.1 hw, ht] at hu
    exact Option.mem_some_iff.1 hu ▸ hleaf

theorem distinct_advance (h : setting.EndsAtEof) (hs : s.Distinct first) (i : Nat) :
    (setting.advance s i).1.Distinct first := by
  cases hv : s.versions[i]? with
  | none =>
      rw [advance, hv]
      exact hs
  | some v =>
      obtain ⟨hlooking, hset⟩ := distinct_looking h hs hv
      have hoperation := operation_advance setting hv
      generalize setting.advance s i = result at hoperation ⊢
      cases hoperation with
      | reused hnode => exact distinct_advanceReused hlooking hset rfl hnode
      | extra hleaf hnone hextra =>
          refine distinct_shift hlooking hset rfl (fun hend => ?_) _
          rw [hend.extra] at hextra
          cases hextra
      | error hleaf hnone => exact distinct_handleError h hlooking hset rfl
      | actions ambigs action others hleaf hactions =>
          have hmem : ∀ other ∈ action :: others,
              other ∈ setting.table.actionList v.stack.state (setting.fetch s v).1.symbol := by
            rw [hactions]
            exact fun _ hother => hother
          obtain ⟨haction, hothers⟩ := List.forall_mem_cons.1 hmem
          have hcounted := hlooking.count fun c => { c with ambigs := ambigs }
          have hforked := distinct_fork h hcounted (looksAtTokens_of_leaf hcounted hset rfl hleaf)
            (hlooking.of_getElem? hset) rfl hleaf hothers
          obtain ⟨made, hversions, _⟩ := exists_fork setting { v with
            lookahead := some (setting.fetch s v).1 } (setting.fetch s v).1
            ((setting.looking s i v).count fun c => { c with ambigs := ambigs }) others
          have hkept : ((setting.looking s i v).versions ++ made)[i]? = _ :=
            (List.getElem?_append_left (List.getElem?_eq_some_iff.1 hset).1).trans hset
          exact distinct_apply h hforked ((congrArg (·[i]?) hversions).trans hkept) rfl haction

theorem distinct_condense (hs : s.Distinct first) (limit : Nat) :
    { s with versions := Version.condense limit s.versions }.Distinct first :=
  hs.sublist (Version.condense_subperm limit s.versions).length_le
    fun _ hv => Version.mem_of_mem_condense hv

/-! ### Runs -/

theorem numbered_buildRoot (setting : ParseSetting) {id : Nat} {trees tail : List Subtree}
    (h : Numbered id (trees ++ tail)) (trailing : Length) :
    Numbered (setting.buildRoot id trees tail trailing).2
      [(setting.buildRoot id trees tail trailing).1] :=
  (setting.renews_buildRoot id trees tail trailing).numbered h

theorem numbered_finish (hs : s.Distinct first) :
    Numbered (setting.finish s).2.nextId [(setting.finish s).1.root] := by
  rw [finish]
  rcases Accepted.best?_spec s.accepted with ⟨hbest, _⟩ | ⟨a, ha, hbest⟩
  · rw [hbest]
    have hnil : Numbered s.nextId ([] ++ []) := Subtree.numbered_nil s.nextId
    exact setting.numbered_buildRoot hnil _
  · rw [hbest]
    refine setting.numbered_buildRoot ?_ _
    rw [List.append_nil]
    exact hs.accepted a ha

/-- The rest of the text is one leaf with a new number. -/
theorem numbered_abort (hs : s.Distinct first) (status : ParseStatus) :
    Numbered (setting.abort s status).2.nextId [(setting.abort s status).1.root] := by
  have hbest : ∀ trees, Numbered s.nextId trees → ∀ rest : Length,
      Numbered (s.nextId + 1) (trees ++ if rest.bytes > 0 then
        [Subtree.ofToken setting.table s.nextId
          ⟨Symbol.error, Length.zero, rest, 1, LexMode.error⟩] else []) := by
    intro trees htrees rest
    refine Renews.numbered ⟨Nat.le_succ _, fun k => ?_⟩ htrees
    rw [Subtree.idsAll_append, List.count_append]
    refine Nat.add_le_add_left ?_ _
    split
    · exact Nat.le_of_eq (Subtree.count_singleton s.nextId k)
    · exact Nat.zero_le _
  rw [abort]
  rcases Version.best?_spec s.versions with ⟨hnone, _⟩ | ⟨v, hv, hsome⟩
  · rw [hnone]
    exact setting.numbered_buildRoot (hbest [] (Subtree.numbered_nil _) _) _
  · rw [hsome]
    have hstack := (hs.versions v hv).stack
    exact setting.numbered_buildRoot (hbest _ ⟨hstack.nodup, hstack.lt⟩ _) _

/-- No number is twice in the tree at the end of a run. -/
theorem numbered_run (h : setting.EndsAtEof) (hs : s.Distinct first) (limit : Nat) :
    Numbered (setting.run limit s).2.nextId [(setting.run limit s).1.root] := by
  induction limit generalizing s with
  | zero => exact numbered_abort hs _
  | succ limit ih =>
      rw [run]
      split
      · exact numbered_abort hs _
      · split
        · exact numbered_finish hs
        · rename_i i _
          have hadvanced := distinct_advance h hs i
          split
          · rename_i status hresult
            rw [hresult] at hadvanced
            exact numbered_abort hadvanced _
          · rename_i hresult
            rw [hresult] at hadvanced
            exact ih (distinct_condense hadvanced _)

end ParseSetting

/-- A parse begins with nothing on the stack and the whole old tree in front of the cursor. -/
theorem ParseState.distinct_start {first : Nat} {old : Option Subtree}
    (hold : ∀ root ∈ old, Numbered first [root]) (base : StateId) :
    (ParseState.start base (old.map ReuseCursor.ofRoot) first).Distinct first := by
  have hcursor : ∀ c ∈ old.map ReuseCursor.ofRoot, ∃ root, Numbered first [root] ∧
      c = ReuseCursor.ofRoot root := by
    intro c hc
    obtain ⟨root, hroot, rfl⟩ := Option.map_eq_some_iff.1 hc
    exact ⟨root, hold root hroot, rfl⟩
  refine ⟨⟨Nat.le_refl _, nofun, fun c hc => ?_⟩, ?_, nofun, nofun⟩
  · obtain ⟨root, hroot, rfl⟩ := hcursor c hc
    refine List.forall_mem_singleton.2 fun k hk => hroot.lt k ?_
    rw [Subtree.idsAll_singleton]
    exact hk
  · refine List.forall_mem_singleton.2 ⟨.nil fun k => ?_, nofun, nofun⟩
    rw [Numbering.left]
    cases hreuse : (old.map ReuseCursor.ofRoot) with
    | none => exact Nat.zero_le 1
    | some cursor =>
        obtain ⟨root, hroot, rfl⟩ := hcursor cursor hreuse
        exact List.nodup_iff_count_le_one.1 hroot.nodup k

/-! ### Parsers -/

variable {d : GrammarDef} {policy : ConflictPolicy} {l : Language} {scanner : Option ExternalScanner}
  {number : Nat} {p : Parser} {old : Option Tree}

theorem Parser.setting_endsAtEof (hl : Language.load d policy = .ok l) (hfit : l.table.EntriesFit)
    (hp : p.language = { l with scanner := scanner, id := number }) (text : ByteArray) :
    (p.setting text).EndsAtEof := by
  obtain ⟨g, hg, hcompiled⟩ := Language.exists_compiledFrom_of_load hl
  obtain ⟨hfrom, _⟩ := Table.compile_eq_ok hcompiled.table
  have htable := Parser.table_setting hp text
  constructor
  · rw [htable]
    exact Table.shift_notMem_eof hcompiled.grammar hcompiled.table hfit
  · rw [htable, Table.symbolInfo, if_neg (by decide), hfrom.symbols]
    exact Grammar.extra_eof_of_load hg

/-- A parse keeps the numbers distinct if those of its old tree are, and goes on with numbers that the old
tree does not have. -/
theorem Parser.numbered_parse (hl : Language.load d policy = .ok l) (hfit : l.table.EntriesFit)
    (hp : p.language = { l with scanner := scanner, id := number }) {id : Nat}
    (hold : ∀ tree ∈ old, tree.language.isSame p.language = true → Numbered id [tree.root])
    (text : ByteArray) :
    Numbered (p.parse text old id).nextId [(p.parse text old id).tree.root] := by
  have hroots : ∀ root ∈ (old.filter fun tree => tree.language.isSame p.language).map (·.root),
      Numbered id [root] := by
    intro root hroot
    obtain ⟨tree, htree, rfl⟩ := Option.map_eq_some_iff.1 hroot
    obtain ⟨htree, hsame⟩ := Option.filter_eq_some_iff.1 htree
    exact hold tree htree hsame
  have hstart := ParseState.distinct_start hroots p.language.table.startState
  rw [Option.map_map] at hstart
  exact ParseSetting.numbered_run (Parser.setting_endsAtEof hl hfit hp text) hstart _

end IncrementalLR
