import IncrementalLR.Proofs.Parse.Spanning
import IncrementalLR.Proofs.Tree.Digest

/-!
# Prices of recoveries

The fixed prices are added up in 32 bits, so what they give is the price up to multiples of 2³². A price
below that is exact, and then a recovery that does no less does not cost less. A parse asks for higher
prices only in long texts: it stops taking subtrees off a stack when the price passes a limit, and one
subtree more covers no more than the text.
-/

namespace IncrementalLR

/-- The price of what is skipped, without a limit. -/
def Length.price (l : Length) : Nat := Cost.skippedByte * l.bytes + Cost.skippedLine * l.extent.row

namespace RecoveryCandidate

/-- The fixed price of a recovery, without a limit. -/
def price (c : RecoveryCandidate) : Nat :=
  Cost.missingTree * c.missing + Cost.skippedTree * (c.popped + c.skipped) +
    Cost.skippedByte * c.skippedBytes + Cost.skippedLine * c.skippedLines

/-- A recovery that does no more than another one. -/
structure Within (a b : RecoveryCandidate) : Prop where
  missing : a.missing ≤ b.missing
  popped : a.popped ≤ b.popped
  skipped : a.skipped ≤ b.skipped
  skippedBytes : a.skippedBytes ≤ b.skippedBytes
  skippedLines : a.skippedLines ≤ b.skippedLines

theorem Within.price_le {a b : RecoveryCandidate} (h : a.Within b) : a.price ≤ b.price := by
  obtain ⟨hmissing, hpopped, hskipped, hbytes, hlines⟩ := h
  simp only [price, Cost.missingTree, Cost.skippedTree, Cost.skippedByte, Cost.skippedLine]
  omega

end RecoveryCandidate

namespace RecoveryStrategy

/-- The fixed prices, where sums that do not fit are the largest cost. -/
def saturating : RecoveryStrategy :=
  weighted Cost.missingTree Cost.skippedTree Cost.skippedTree Cost.skippedByte Cost.skippedLine

theorem saturating_cost (c : RecoveryCandidate) : saturating.cost c = Cost.ofNat c.price := by
  rw [saturating, weighted, RecoveryCandidate.price, Nat.mul_add,
    ← Nat.add_assoc (_ * c.missing)]

theorem toNat_fixed_cost (c : RecoveryCandidate) : (fixed.cost c).toNat = c.price % 2 ^ 32 := by
  simp only [fixed, RecoveryCandidate.price, UInt32.toNat_add, UInt32.toNat_mul,
    UInt32.toNat_ofNat', Cost.missingTree, Cost.skippedTree, Cost.skippedByte, Cost.skippedLine]
  omega

theorem fixed_cost_eq_ofNat {c : RecoveryCandidate} (h : c.price < 2 ^ 32) :
    fixed.cost c = Cost.ofNat c.price := by
  rw [← UInt32.toNat_inj, toNat_fixed_cost, Cost.toNat_ofNat]
  omega

theorem price_le_of_cost_le {c : RecoveryCandidate} (h : c.price < 2 ^ 32) {limit : Cost}
    (hle : fixed.cost c ≤ limit) : c.price ≤ limit.toNat := by
  rwa [UInt32.le_iff_toNat_le, toNat_fixed_cost, Nat.mod_eq_of_lt h] at hle

/-- The fixed prices give the price up to multiples of 2³². They give the nearest cost only to prices
that fit, and to those that happen to come out as the largest cost. Among prices that fit, a recovery
that does no less does not cost less. -/
theorem fixed_cost_modular (b : RecoveryCandidate) :
    (fixed.cost b).toNat = b.price % 2 ^ 32 ∧
      (fixed.cost b = Cost.ofNat b.price ↔
        b.price < 2 ^ 32 ∨ b.price % 2 ^ 32 = 2 ^ 32 - 1) ∧
      (b.price < 2 ^ 32 → ∀ a : RecoveryCandidate, a.Within b →
        fixed.cost a ≤ fixed.cost b) := by
  refine ⟨toNat_fixed_cost b, ?_, fun hfit a hab => ?_⟩
  · rw [← UInt32.toNat_inj, toNat_fixed_cost, Cost.toNat_ofNat]
    omega
  · have hle := hab.price_le
    rw [UInt32.le_iff_toNat_le, toNat_fixed_cost, toNat_fixed_cost, Nat.mod_eq_of_lt hfit,
      Nat.mod_eq_of_lt (Nat.lt_of_le_of_lt hle hfit)]
    exact hle

theorem fixed_cost_modular_line :
    fixed.cost { skipped := 1 } ≤ fixed.cost { skipped := 1, skippedBytes := 1, skippedLines := 1 } :=
  (fixed_cost_modular { skipped := 1, skippedBytes := 1, skippedLines := 1 }).2.2 (by decide)
    { skipped := 1 } ⟨Nat.le_refl 0, Nat.le_refl 0, Nat.le_refl 1, Nat.zero_le 1, Nat.zero_le 1⟩

/-- To skip four gibibytes costs nothing. -/
example : fixed.cost { skippedBytes := 2 ^ 32 } = 0 := by decide

end RecoveryStrategy

namespace Length

@[simp] theorem price_zero : zero.price = 0 := rfl

theorem price_add (a b : Length) : (a + b).price = a.price + b.price := by
  simp only [price, bytes_add, row_add, Nat.mul_add]
  omega

theorem price_ofList_append (a b : List UInt8) :
    (ofList (a ++ b)).price = (ofList a).price + (ofList b).price := by
  rw [ofList_append, price_add]

end Length

open Subtree

/-- A subtree of a text has no higher price than the text. -/
theorem CoversAll.price_le {table : Table} {trees : List Subtree} {w : List UInt8}
    (h : CoversAll table trees w) : ∀ t ∈ trees, t.total.price ≤ (Length.ofList w).price := by
  intro t ht
  obtain ⟨front, back, rfl⟩ := List.append_of_mem ht
  obtain ⟨u, v, rfl, _, hback⟩ := h.exists_of_append
  cases hback with
  | cons _ _ x y ht _ =>
      rw [ht.total_eq, Length.price_ofList_append, Length.price_ofList_append]
      omega

namespace ParseSetting

variable {setting : ParseSetting} {old : Option ReuseCursor} {s : ParseState} {i : Nat} {v : Version}

/-! ### Plans -/

/-- A parse in which recoveries have other prices. -/
def withPrices (setting : ParseSetting) (strategy : RecoveryStrategy) : ParseSetting :=
  { setting with strategy := strategy }

/-- What a parse needs to ask for prices that fit only: the price of the text with that of the tokens
that a recovery skips and of one subtree more, on top of the limit, and that of the tokens put in. -/
structure PricesFit (setting : ParseSetting) : Prop where
  skips : (Length.ofBytes setting.text).price +
    Cost.skippedTree * (setting.options.maxSkippedTokens + 1) +
      setting.options.maxRecoveryCost.toNat < 2 ^ 32
  inserts : Cost.missingTree * setting.options.maxMissingTokens < 2 ^ 32

@[simp] theorem table_withPrices (strategy : RecoveryStrategy) :
    (setting.withPrices strategy).table = setting.table := rfl

@[simp] theorem options_withPrices (strategy : RecoveryStrategy) :
    (setting.withPrices strategy).options = setting.options := rfl

theorem cost_withPrices (hfixed : setting.strategy = .fixed) {c : RecoveryCandidate}
    (h : c.price < 2 ^ 32) :
    (setting.withPrices .saturating).strategy.cost c = setting.strategy.cost c := by
  rw [hfixed, RecoveryStrategy.fixed_cost_eq_ofNat h]
  exact RecoveryStrategy.saturating_cost c

theorem insertPlans_withPrices (hfixed : setting.strategy = .fixed) (hfit : setting.PricesFit)
    (stack : Stack) (lookahead : Subtree) :
    (setting.withPrices .saturating).insertPlans stack lookahead =
      setting.insertPlans stack lookahead := by
  simp only [insertPlans, table_withPrices, options_withPrices]
  cases hfound : Recovery.missingTokens setting.table stack.structuralStates lookahead.symbol
      setting.options.maxMissingTokens with
  | none => rfl
  | some insertion =>
      obtain ⟨_, hle, _⟩ := Recovery.exists_level_of_missingTokens hfound
      have hprice : RecoveryCandidate.price { missing := insertion.symbols.length } < 2 ^ 32 :=
        Nat.lt_of_le_of_lt (Nat.mul_le_mul_left Cost.missingTree hle) hfit.inserts
      simp only [cost_withPrices hfixed hprice]

theorem resumePlans_withPrices (hfixed : setting.strategy = .fixed) (states : List StateId)
    {popped skipped : Nat} {covered passed : Length} {tokens : List Subtree}
    (hfit : Cost.skippedTree * (popped + skipped + tokens.length) + covered.price + passed.price +
      (totalAll tokens).price < 2 ^ 32) :
    (setting.withPrices .saturating).resumePlans states popped covered skipped passed tokens =
      setting.resumePlans states popped covered skipped passed tokens := by
  induction tokens generalizing skipped passed with
  | nil => rfl
  | cons token rest ih =>
      have hprice : RecoveryCandidate.price
          { popped := popped, skipped := skipped, skippedBytes := covered.bytes + passed.bytes,
            skippedLines := covered.extent.row + passed.extent.row } < 2 ^ 32 := by
        simp only [RecoveryCandidate.price, Length.price, List.length_cons, Nat.mul_add] at hfit ⊢
        omega
      have hrest := @ih (skipped + 1) (passed + token.total) (by
        simp only [totalAll, Length.price_add, List.length_cons, Cost.skippedTree] at hfit ⊢
        omega)
      simp only [resumePlans, table_withPrices, options_withPrices, cost_withPrices hfixed hprice, hrest]

/-- The candidate that takes subtrees off and skips no token. -/
def popping (popped : Nat) (covered : Length) : RecoveryCandidate :=
  { popped := popped, skippedBytes := covered.bytes, skippedLines := covered.extent.row }

theorem price_popping (popped : Nat) (covered : Length) :
    (popping popped covered).price = Cost.skippedTree * popped + covered.price := by
  simp only [popping, RecoveryCandidate.price, Length.price, Nat.mul_zero, Nat.zero_add, Nat.add_zero]
  exact Nat.add_assoc _ _ _

/-- As long as the subtrees that were taken off are within the limit, tokens are skipped at prices
that fit. -/
theorem resumePlans_of_popping (hfixed : setting.strategy = .fixed) {popped : Nat} {covered : Length}
    (hfit : (popping popped covered).price < 2 ^ 32)
    (hle : ¬ setting.strategy.cost (popping popped covered) > setting.options.maxRecoveryCost)
    (states : List StateId) {tokens : List Subtree}
    (htokens : setting.options.maxRecoveryCost.toNat + Cost.skippedTree * tokens.length +
      (totalAll tokens).price < 2 ^ 32) :
    (popping popped covered).price ≤ setting.options.maxRecoveryCost.toNat ∧
      (setting.withPrices .saturating).resumePlans states popped covered 0 Length.zero tokens =
        setting.resumePlans states popped covered 0 Length.zero tokens := by
  rw [UInt32.not_lt, hfixed] at hle
  have hlimit := RecoveryStrategy.price_le_of_cost_le hfit hle
  refine ⟨hlimit, resumePlans_withPrices hfixed states ?_⟩
  rw [price_popping] at hlimit
  rw [Length.price_zero]
  simp only [Cost.skippedTree] at *
  omega

/-- Whatever was taken off already, the next subtree is taken off at a price that fits. -/
theorem skipPlans_withPrices (hfixed : setting.strategy = .fixed) {tokens : List Subtree}
    (base : StateId) {popped : Nat} {covered : Length} {frames : List Stack.Frame}
    (hfit : (popping popped covered).price < 2 ^ 32)
    (htokens : setting.options.maxRecoveryCost.toNat + Cost.skippedTree * tokens.length +
      (totalAll tokens).price < 2 ^ 32)
    (hframes : ∀ frame ∈ frames, setting.options.maxRecoveryCost.toNat + Cost.skippedTree +
      frame.tree.total.price < 2 ^ 32) :
    (setting.withPrices .saturating).skipPlans tokens base popped covered frames =
      setting.skipPlans tokens base popped covered frames := by
  have hcost := cost_withPrices hfixed hfit
  rw [popping] at hcost
  induction frames generalizing popped covered with
  | nil =>
      simp only [skipPlans, options_withPrices, hcost]
      split
      · rfl
      · rename_i hle
        rw [(resumePlans_of_popping hfixed hfit hle _ htokens).2]
  | cons top below ih =>
      simp only [skipPlans, options_withPrices, hcost]
      split
      · rfl
      · rename_i hle
        obtain ⟨hlimit, hresume⟩ := resumePlans_of_popping hfixed hfit hle
          (Stack.mk base (top :: below)).structuralStates htokens
        obtain ⟨htop, hbelow⟩ := List.forall_mem_cons.1 hframes
        have hnext : (popping (popped + 1) (top.tree.total + covered)).price < 2 ^ 32 := by
          rw [price_popping] at hlimit ⊢
          rw [Length.price_add, Nat.mul_add, Nat.mul_one]
          omega
        rw [hresume, ih hnext hbelow (cost_withPrices hfixed hnext)]

/-! ### The rest of a parse -/

variable (strategy : RecoveryStrategy)

@[simp] theorem lex_withPrices (s : ParseState) (position : Nat) (mode : LexMode) :
    (setting.withPrices strategy).lex s position mode = setting.lex s position mode := rfl

@[simp] theorem reduce_withPrices (s : ParseState) (i : Nat) (p : ProductionId) :
    (setting.withPrices strategy).reduce s i p = setting.reduce s i p := rfl

@[simp] theorem apply_withPrices (s : ParseState) (i : Nat) (lookahead : Subtree) (action : Action) :
    (setting.withPrices strategy).apply s i lookahead action = setting.apply s i lookahead action := by
  cases action <;> rfl

@[simp] theorem upcoming_withPrices (position : Length) (last : Subtree) (limit : Nat) :
    (setting.withPrices strategy).upcoming s position last limit =
      setting.upcoming s position last limit := by
  induction limit generalizing s position last with
  | zero => rfl
  | succ limit ih => simp only [upcoming, lex_withPrices, ih]

@[simp] theorem insertMissing_withPrices (symbol : Symbol) (fuel : Nat) :
    (setting.withPrices strategy).insertMissing i symbol fuel s =
      setting.insertMissing i symbol fuel s := by
  induction fuel generalizing s with
  | zero => rfl
  | succ fuel ih => simp only [insertMissing, table_withPrices, reduce_withPrices, ih]

@[simp] theorem carryOut_withPrices (lookahead : Subtree) (tokens : List Subtree) (plans : List Plan) :
    (setting.withPrices strategy).carryOut i v lookahead tokens s plans =
      setting.carryOut i v lookahead tokens s plans := by
  induction plans generalizing s with
  | nil => rfl
  | cons plan rest ih =>
      cases plan with
      | insert symbols state =>
          simp only [carryOut, table_withPrices, lex_withPrices, insertMissing_withPrices, ih]
      | skip popped skipped => simp only [carryOut, table_withPrices, lex_withPrices, ih]

@[simp] theorem fork_withPrices (lookahead : Subtree) (actions : List Action) :
    (setting.withPrices strategy).fork v lookahead s actions = setting.fork v lookahead s actions := by
  induction actions generalizing s with
  | nil => rfl
  | cons action rest ih => simp only [fork, options_withPrices, apply_withPrices, ih]

@[simp] theorem fetch_withPrices (s : ParseState) (v : Version) :
    (setting.withPrices strategy).fetch s v = setting.fetch s v := rfl

@[simp] theorem advanceReused_withPrices (s : ParseState) (i : Nat) (v : Version)
    (lookahead : Subtree) : (setting.withPrices strategy).advanceReused s i v lookahead =
      setting.advanceReused s i v lookahead := rfl

/-- What a parse looks at when it recovers: the subtrees of a stack over a part of the text, and tokens
that come next in the text. -/
theorem skipPlans_of_follows (hsetting : setting.WellFormed) (hfixed : setting.strategy = .fixed)
    (hfit : setting.PricesFit) {done rest : List UInt8} (h : v.Follows setting done rest)
    {lookahead : Subtree} (hlookahead : v.lookahead = some lookahead) {more : List Subtree}
    (hmore : setting.LexesAll (v.position + lookahead.total) more)
    (hlength : more.length ≤ setting.options.maxSkippedTokens) :
    (setting.withPrices .saturating).skipPlans (lookahead :: more) v.stack.base 0 Length.zero
        v.stack.frames =
      setting.skipPlans (lookahead :: more) v.stack.base 0 Length.zero v.stack.frames := by
  have htext : (Length.ofBytes setting.text).price = (Length.ofList done).price +
      (Length.ofList rest).price := by
    rw [Length.ofBytes, h.text, Length.price_ofList_append]
  have hskips := hfit.skips
  obtain ⟨u, after, rfl, hcovers⟩ :=
    coversAll_passed hsetting h hlookahead hmore (lookahead :: more).length
  rw [List.take_length] at hcovers
  rw [Length.price_ofList_append, ← hcovers.totalAll_eq] at htext
  refine skipPlans_withPrices hfixed _ ?_ ?_ fun frame hframe => ?_
  · rw [price_popping]
    decide
  · simp only [List.length_cons, Cost.skippedTree] at hskips ⊢
    omega
  · have hle := h.stack.trees.price_le frame.tree
      (List.mem_reverse.2 (List.mem_map_of_mem hframe))
    simp only [Cost.skippedTree] at hskips ⊢
    omega

theorem length_upcoming_le (position : Length) (last : Subtree) (limit : Nat) :
    (setting.upcoming s position last limit).1.length ≤ limit := by
  induction limit generalizing s position last with
  | zero => exact Nat.le_refl 0
  | succ limit ih =>
      rw [upcoming]
      split
      · exact Nat.zero_le _
      · exact Nat.succ_le_succ (ih _ _)

theorem recover_withPrices (hsetting : setting.WellFormed)
    (hold : ∀ start ∈ old, start.Agrees setting.table setting.text.data.toList)
    (hfixed : setting.strategy = .fixed) (hfit : setting.PricesFit)
    (h : s.Sound (setting.reaching old)) (hv : s.versions[i]? = some v) {lookahead : Subtree}
    (hlookahead : v.lookahead = some lookahead) :
    (setting.withPrices .saturating).recover s i v lookahead = setting.recover s i v lookahead := by
  obtain ⟨done, rest, hfollows⟩ := exists_follows_of_reached hsetting hold (h.of_getElem? hv)
  obtain ⟨hmore, _, _⟩ := upcoming_spec h (v.position + lookahead.total) lookahead
    setting.options.maxSkippedTokens
  have hskips := skipPlans_of_follows hsetting hfixed hfit hfollows hlookahead hmore
    (length_upcoming_le _ _ _)
  simp only [recover, table_withPrices, options_withPrices, upcoming_withPrices, hskips,
    insertPlans_withPrices hfixed hfit, carryOut_withPrices]

theorem handleError_withPrices (hsetting : setting.WellFormed)
    (hold : ∀ start ∈ old, start.Agrees setting.table setting.text.data.toList)
    (hfixed : setting.strategy = .fixed) (hfit : setting.PricesFit)
    (h : s.Sound (setting.reaching old)) (hv : s.versions[i]? = some v) {lookahead : Subtree}
    (hlookahead : v.lookahead = some lookahead) (hleaf : lookahead.isLeaf = true)
    (hnone : setting.table.actionList v.stack.state lookahead.symbol = []) :
    (setting.withPrices .saturating).handleError s i v lookahead =
      setting.handleError s i v lookahead := by
  have hbroken := h.setVersion (i := i) ((setting.reaching old).moves (h.of_getElem? hv)
    (.breakPending v lookahead hlookahead hleaf hnone))
  simp only [handleError, table_withPrices, options_withPrices]
  refine ite_congr rfl (fun _ => rfl) fun _ => ite_congr rfl (fun _ => rfl) fun _ =>
    ite_congr rfl (fun _ => rfl) fun _ => congrArg (fun s => (s, none)) ?_
  refine recover_withPrices hsetting hold hfixed hfit ?_ ?_ hlookahead
  · exact ⟨hbroken.versions, hbroken.accepted, hbroken.cache, hbroken.reuse, hbroken.input,
      hbroken.alive⟩
  · exact ParseState.getElem?_setVersion hv _

theorem advance_withPrices (hsetting : setting.WellFormed)
    (hold : ∀ start ∈ old, start.Agrees setting.table setting.text.data.toList)
    (hfixed : setting.strategy = .fixed) (hfit : setting.PricesFit)
    (h : s.Sound (setting.reaching old)) (i : Nat) :
    (setting.withPrices .saturating).advance s i = setting.advance s i := by
  cases hv : s.versions[i]? with
  | none => rw [advance, advance, hv]
  | some v =>
      obtain ⟨hsound, hset⟩ := sound_looking h hv
      simp only [advance, hv, fetch_withPrices, advanceReused_withPrices, table_withPrices,
        apply_withPrices, fork_withPrices]
      by_cases hleaf : (setting.fetch s v).1.isLeaf = true
      · cases hactions : setting.table.actionList v.stack.state (setting.fetch s v).1.symbol with
        | nil =>
            have herror := handleError_withPrices hsetting hold hfixed hfit hsound hset rfl hleaf hactions
            rw [looking] at herror
            simp only [herror]
        | cons action others => cases others <;> rfl
      · simp only [Bool.eq_false_iff.2 hleaf, Bool.not_false, if_true]

theorem run_withPrices (hsetting : setting.WellFormed)
    (hold : ∀ start ∈ old, start.Agrees setting.table setting.text.data.toList)
    (hfixed : setting.strategy = .fixed) (hfit : setting.PricesFit)
    (h : s.Sound (setting.reaching old)) (limit : Nat) :
    (setting.withPrices .saturating).run limit s = setting.run limit s := by
  induction limit generalizing s with
  | zero => rfl
  | succ limit ih =>
      have hstep := advance_withPrices hsetting hold hfixed hfit h
      simp only [run, hstep, options_withPrices]
      refine ite_congr rfl (fun _ => rfl) fun _ => ?_
      cases s.nextVersion? with
      | none => rfl
      | some i =>
          have hsound := sound_advance h i
          cases hadvance : setting.advance s i with
          | mk s' status =>
              rw [hadvance] at hsound
              cases status with
              | some status =>
                  simp only [hadvance]
                  rfl
              | none =>
                  simp only [hadvance]
                  exact ih hsound.condense

end ParseSetting

/-! ### Parsers -/

theorem Length.row_ofList_le (bytes : List UInt8) : (ofList bytes).extent.row ≤ bytes.length := by
  induction bytes with
  | nil => exact Nat.le_refl 0
  | cons b bytes ih =>
      have hfirst : (ofList [b]).extent.row ≤ 1 := by
        change (zero.advance b).extent.row ≤ 1
        rw [advance]
        split
        · exact Nat.le_refl 1
        · exact Nat.zero_le 1
      rw [← List.singleton_append, ofList_append, row_add, List.length_append, List.length_singleton]
      exact Nat.add_le_add hfirst ih

/-- With the limits that are set from the start, the prices fit for every text of up to 138 million
bytes. -/
theorem ParseSetting.pricesFit_of_size {setting : ParseSetting} (hoptions : setting.options = {})
    (h : setting.text.size ≤ 138000000) : setting.PricesFit := by
  have hrow := Length.row_ofList_le setting.text.data.toList
  have hsize : setting.text.data.toList.length = setting.text.size := rfl
  constructor
  · simp only [hoptions, Length.price, Length.ofBytes, Length.bytes_ofList, Cost.skippedByte,
      Cost.skippedLine, Cost.skippedTree]
    have hlimit : (3000 : Cost).toNat = 3000 := rfl
    omega
  · rw [hoptions]
    decide

/-- Where prices fit, a parse with the fixed prices is the parse with prices that cannot wrap
around: nothing that the parse asks for has a wrong price. -/
theorem Parser.parse_fixed_eq_saturating {d : GrammarDef} {policy : ConflictPolicy} {l : Language}
    (hl : Language.load d policy = .ok l) {scanner : Option ExternalScanner}
    (hscanner : ∀ x ∈ scanner, x.ReadsForward) {p : Parser} {number : Nat}
    (hp : p.language = { l with scanner := scanner, id := number }) (hfixed : p.strategy = .fixed)
    {text : ByteArray} (hfit : (p.setting text).PricesFit) {old : Option Tree}
    (hold : ∀ start ∈ p.cursor? old, start.Agrees l.table text.data.toList) (id : Nat) :
    p.parse text old id = { p with strategy := .saturating }.parse text old id := by
  have hsetting := Parser.setting_wellFormed hl hscanner hp text
  have hrun := ParseSetting.run_withPrices hsetting
    (fun start hstart => by rw [Parser.table_setting hp]; exact hold start hstart) hfixed hfit
    (ParseSetting.sound_start (p.cursor? old) id) p.options.operationLimit
  exact congrArg (fun r => Parsed.mk r.1 r.2.stats r.2.nextId) hrun.symm

/-- Three bytes that are no token of the grammar are skipped at the same price. -/
theorem parse_fixed_eq_saturating_optionalToken : ∃ l, Language.load .optionalToken .strict = .ok l ∧
    let p := Parser.ofLanguage { l with scanner := none, id := 1 }
    (p.setting "yyy".toUTF8).PricesFit ∧
      p.parse "yyy".toUTF8 none 0 = { p with strategy := .saturating }.parse "yyy".toUTF8 none 0 := by
  obtain ⟨t, ht, _⟩ := exists_compile_optionalToken
  obtain ⟨l, hl, rfl⟩ := Language.exists_load load_optionalToken ht (by decide +kernel)
  refine ⟨l, hl, ?_⟩
  intro p
  have hsize : "yyy".toUTF8.size ≤ 138000000 := by decide +kernel
  have hfit : (p.setting "yyy".toUTF8).PricesFit := ParseSetting.pricesFit_of_size rfl hsize
  have hscanner : ∀ x ∈ (none : Option ExternalScanner), x.ReadsForward := by
    intro x hx
    cases hx
  have hold : ∀ start ∈ p.cursor? none, start.Agrees l.table "yyy".toUTF8.data.toList := by
    intro start hstart
    cases hstart
  exact ⟨hfit, Parser.parse_fixed_eq_saturating hl hscanner rfl rfl hfit hold 0⟩

end IncrementalLR
