import IncrementalLR.Proofs.Parse.Recovery
import IncrementalLR.Proofs.Tree.Yield

/-!
# Errors show in trees

The tokens of a tree without errors are a string that the start symbol derives, or the tree has none
but extras. And a recovery shows: only one version is left when it begins, all that comes of it is
marked, and the root takes the marks over.
-/

namespace IncrementalLR

open Subtree (nodesAt anyError interior balanceWhere structuralSymbols)

/-- The tokens are derived from the start symbol. A root without a production has none. -/
structure Tree.SpellsStart (g : Grammar) (tree : Tree) : Prop where
  derives : tree.root.head.production ≠ none →
    g.Derives [g.start] (terminalsOf (nodesAt Length.zero tree.root))
  empty : tree.root.head.production = none → terminalsOf (nodesAt Length.zero tree.root) = []

/-- The root is marked, or it has no production. -/
def Subtree.IsMarkedRoot (t : Subtree) : Prop :=
  t.flags.hasError = true ∨ t.head.production = none

/-- Without a mark the tree spells what the start symbol derives, and a recovery leaves a mark or a root
without a production. -/
structure Parsed.ShowsErrors (g : Grammar) (parsed : Parsed) : Prop where
  spells : parsed.tree.root.flags.hasError = false → parsed.tree.SpellsStart g
  recovered : parsed.tree.status = .complete → 0 < parsed.stats.recoveries →
    parsed.tree.root.IsMarkedRoot

/-! ### Marks of the root -/

namespace ParseSetting

variable {g : Grammar} {policy : ConflictPolicy} {setting : ParseSetting} {s : ParseState}

theorem isMarkedRoot_stretched {table : Table} {children : List Subtree}
    {production : Option ProductionId} (id : Nat) (size : Length)
    (h : production = none ∨ anyError children = true) :
    ((interior table id table.startSymbol children production false).stretched size).IsMarkedRoot := by
  rcases h with hnone | herror
  · refine .inr (Eq.trans ?_ hnone)
    exact Subtree.production_interior ..
  · refine .inl (Eq.trans (Subtree.hasError_interior ..) ?_)
    rw [herror, Bool.or_true]

theorem CompiledFrom.isMarkedRoot_buildRoot (h : setting.CompiledFrom g policy) (id : Nat)
    {a : Accepted} (happlied : ∀ t ∈ a.trees, Applied setting.table t)
    (ha : a.Marked setting.table.startSymbol) :
    (setting.buildRoot id a.trees [] a.trailing).1.IsMarkedRoot := by
  obtain ⟨hbalanced, hroles⟩ := applied_balanceWhere h.fitTable (fun _ => true) id happlied
  have herrors := anyError_balanceWhere h.fitTable (fun _ => true) id happlied
  rw [Accepted.Marked, ← herrors, ← structuralSymbols_eq_of_map_role hroles] at ha
  rw [buildRoot]
  simp only
  generalize (balanceWhere setting.table setting.bases (fun _ => true) id a.trees).1 = trees
    at hbalanced ha
  generalize (balanceWhere setting.table setting.bases (fun _ => true) id a.trees).2 = id'
  cases hsole : soleStart? setting.table.startSymbol trees with
  | some found =>
      obtain ⟨before, t, after⟩ := found
      obtain ⟨rfl, hstructural, hsymbol⟩ := soleStart?_spec hsole
      obtain ⟨hbefore, hafter⟩ := List.forall_mem_append.1 (not_structural_of_soleStart? hsole)
      have hrole : t.role = (true, setting.table.startSymbol) := by
        rw [Subtree.role, hstructural, hsymbol]
      have hstart : structuralSymbols (before ++ t :: after) = [setting.table.startSymbol] := by
        rw [structuralSymbols_append, structuralSymbols_eq_nil hbefore,
          structuralSymbols_cons_of_role after hrole, structuralSymbols_eq_nil hafter]
        rfl
      have herror := ha.resolve_right (not_not.2 hstart)
      simp only
      refine isMarkedRoot_stretched id' _ ?_
      cases hbalanced t (List.mem_append_right before List.mem_cons_self) with
      | leaf _ hleaf => exact .inl hleaf.production
      | node _ hnode =>
          have hne : t.symbol ≠ Symbol.error := by
            intro herror
            simp [Subtree.isStructural, herror] at hstructural
          rw [anyError_append, anyError_cons, hnode.errors, beq_eq_false_iff_ne.2 hne,
            Bool.false_or, ← anyError_append, ← anyError_append, ← List.append_assoc] at herror
          rw [List.append_nil]
          exact .inr herror
  | none =>
      simp only
      split
      · refine isMarkedRoot_stretched (id' + 1) _ (.inr ?_)
        exact anyError_of_mem List.mem_cons_self (hasError_ofSkipped id' trees)
      · exact isMarkedRoot_stretched id' _ (.inl rfl)

/-! ### Marks of a run -/

theorem status_handleError {i : Nat} {v : Version} {t : Subtree} {status : ParseStatus}
    (h : (setting.handleError s i v t).2 = some status) : status = .recoveryExhausted := by
  rw [handleError] at h
  simp only at h
  split at h
  · cases h
  · split at h
    · cases h
    · split at h
      · cases h
        rfl
      · cases h

/-- A parse is stopped by an operation only when there were too many recoveries. -/
theorem status_advance {i : Nat} {status : ParseStatus}
    (h : (setting.advance s i).2 = some status) : status = .recoveryExhausted := by
  cases hv : s.versions[i]? with
  | none =>
      rw [advance, hv] at h
      cases h
  | some v =>
      have hoperation := operation_advance setting hv
      generalize setting.advance s i = result at hoperation h
      cases hoperation with
      | error => exact status_handleError h
      | _ => cases h

theorem CompiledFrom.isMarkedRoot_finish (h : setting.CompiledFrom g policy)
    (hs : s.Sound (setting.reaching none)) (hmarked : s.Sound h.marking) :
    (setting.finish s).1.root.IsMarkedRoot := by
  rw [finish]
  rcases Accepted.best?_spec s.accepted with ⟨hbest, _⟩ | ⟨a, ha, hbest⟩
  · rw [hbest]
    exact h.isMarkedRoot_buildRoot s.nextId (a := ⟨[], Length.ofBytes setting.text, 0, 0⟩)
      (fun t ht => absurd ht List.not_mem_nil) (.inr (List.cons_ne_nil _ _).symm)
  · rw [hbest]
    obtain ⟨v, hreached, haccepted⟩ := hs.accepted a ha
    refine h.isMarkedRoot_buildRoot s.nextId ?_ (hmarked.accepted a ha)
    intro t ht
    rw [haccepted.trees] at ht
    obtain ⟨frame, hframe, rfl⟩ := List.mem_map.1 (List.mem_reverse.1 ht)
    exact (h.onPath_of_fresh hreached).stack.applied frame hframe

/-- A complete parse with a recovery ends with a marked root, or with one that has no production. -/
theorem CompiledFrom.isMarkedRoot_run (h : setting.CompiledFrom g policy)
    (hs : s.Sound (setting.reaching none))
    (hmarked : s.stats.recoveries = 0 ∨ s.Sound h.marking) {limit : Nat}
    (hcomplete : (setting.run limit s).1.status = .complete) :
    (setting.run limit s).2.stats.recoveries = 0 ∨ (setting.run limit s).1.root.IsMarkedRoot := by
  induction limit generalizing s with
  | zero => cases hcomplete
  | succ limit ih =>
      rw [run] at hcomplete ⊢
      split at hcomplete
      · cases hcomplete
      · rename_i hcancelled
        rw [if_neg hcancelled]
        split at hcomplete
        · exact hmarked.imp_right (h.isMarkedRoot_finish hs)
        · rename_i i hnext
          have hsound := sound_advance hs i
          have hrecovers := h.recovers_advance hs i
          split at hcomplete
          · rename_i s' status hadvance
            have hstatus : status = .recoveryExhausted :=
              status_advance (congrArg Prod.snd hadvance)
            cases hcomplete
            cases hstatus
          · rename_i s' hadvance
            rw [hadvance] at hsound hrecovers
            have hnext : s'.stats.recoveries = 0 ∨ s'.Sound h.marking := by
              rcases hrecovers with hsame | hstopped | hmarked'
              · refine hmarked.imp (congrArg Prod.snd hsame).trans fun hmarked => ?_
                have hkept := sound_advance hmarked i
                rw [hadvance] at hkept
                exact hkept
              · exact absurd rfl hstopped
              · exact .inr hmarked'
            exact ih hsound.condense (hnext.imp_right ParseState.Sound.condense) hcomplete

end ParseSetting

/-! ### Parsers -/

variable {d : GrammarDef} {policy : ConflictPolicy} {l : Language} {scanner : Option ExternalScanner}
  {number : Nat} {p : Parser} {old : Option Tree}

/-- No tree of a parse passes off as free of errors what the grammar does not derive. -/
theorem Parser.spellsStart_parse (hl : Language.load d policy = .ok l) (hfit : l.table.EntriesFit)
    (hapart : l.table.ExtrasApart) (hp : p.language = { l with scanner := scanner, id := number })
    (hbases : p.bases = RepetitionBases.ofTable l.table)
    (hold : ∀ tree ∈ old, tree.language.isSame p.language = true → tree.Made p.language)
    {g : Grammar} (hg : Grammar.load d = .ok g) {text : ByteArray} {id : Nat}
    (hok : (p.parse text old id).tree.root.flags.hasError = false) :
    (p.parse text old id).tree.SpellsStart g := by
  obtain ⟨g', hg', hcompiled⟩ := Language.exists_compiledFrom_of_load hl
  rw [hg, Except.ok.injEq] at hg'
  subst hg'
  obtain ⟨hfrom, _⟩ := Table.compile_eq_ok hcompiled.table
  rw [hp] at hold
  have hroot := Tree.Made.appliedRoot hl hfit hapart (.parse p text old id hp hbases hold)
  obtain ⟨hderives, hempty⟩ := hroot.derives hfrom hok
  exact ⟨hderives, hempty⟩

/-- A complete parse of a text shows its recoveries, unless its root has no production. -/
theorem Parser.isMarkedRoot_parse (hl : Language.load d policy = .ok l) (hfit : l.table.EntriesFit)
    (hapart : l.table.ExtrasApart) (hp : p.language = { l with scanner := scanner, id := number })
    (hbases : p.bases = RepetitionBases.ofTable l.table) {text : ByteArray} {id : Nat}
    (hcomplete : (p.parse text none id).tree.status = .complete) :
    (p.parse text none id).stats.recoveries = 0 ∨
      (p.parse text none id).tree.root.IsMarkedRoot := by
  obtain ⟨g, hsetting⟩ := Parser.setting_compiledFrom hl hfit hapart hp hbases text
  exact hsetting.isMarkedRoot_run (ParseSetting.sound_start none id) (.inl rfl) hcomplete

/-- A parse of a text does not hide errors: a tree without marks is a derivation of its tokens, and a
complete parse that went through a recovery has a mark, or else no token that counts. -/
theorem Parser.showsErrors_parse (hl : Language.load d policy = .ok l) (hfit : l.table.EntriesFit)
    (hapart : l.table.ExtrasApart) (hp : p.language = { l with scanner := scanner, id := number })
    (hbases : p.bases = RepetitionBases.ofTable l.table) (text : ByteArray) (id : Nat) :
    ∃ g, Grammar.load d = .ok g ∧ (p.parse text none id).ShowsErrors g := by
  obtain ⟨g, hg, _⟩ := Language.exists_compiledFrom_of_load hl
  refine ⟨g, hg, fun hok => ?_, fun hcomplete hrecovered => ?_⟩
  · exact Parser.spellsStart_parse hl hfit hapart hp hbases
      (fun tree htree => absurd htree (Option.not_mem_none tree)) hg hok
  · exact (Parser.isMarkedRoot_parse hl hfit hapart hp hbases hcomplete).resolve_left
      (Nat.ne_of_gt hrecovered)

/-- There is no token of the grammar in the text, and a recovery has to do without one. -/
theorem showsErrors_parse_optionalToken :
    ∃ l, Language.load .optionalToken .strict = .ok l ∧
      ∃ g, Grammar.load .optionalToken = .ok g ∧
        ((Parser.ofLanguage { l with scanner := none, id := 1 }).parse "yy".toUTF8 none
          0).ShowsErrors g := by
  obtain ⟨t, ht, _⟩ := exists_compile_optionalToken
  obtain ⟨l, hl, rfl⟩ := Language.exists_load load_optionalToken ht (by decide +kernel)
  obtain ⟨hfit, hapart⟩ := apart_optionalToken ht
  exact ⟨l, hl, Parser.showsErrors_parse hl hfit hapart rfl rfl _ 0⟩

end IncrementalLR
