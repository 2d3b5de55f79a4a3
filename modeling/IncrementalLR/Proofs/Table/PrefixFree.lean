import IncrementalLR.Proofs.Table.RoundTrip

/-!
# Stored tables end where they end

A reader of a stored table goes from the front to the back. What it takes does not depend on what
stands behind, and when some of what it takes is cut off at the end, the data ends too early. So of
two stored tables neither is the beginning of the other.
-/

namespace IncrementalLR.Table

variable {α β : Type}

/-- The bytes are read as the value, whatever stands behind them; of any shorter beginning of them
the end is missed. -/
structure Takes (read : Decoder α) (used : List UInt8) (a : α) : Prop where
  reads : Reads read used a
  cut : ∀ front, front <+: used → front ≠ used → read front = .error .endOfData

/-- Whenever something is read, the bytes that were taken for it were needed, and no others. -/
def Sequential (read : Decoder α) : Prop :=
  ∀ bytes a rest, read bytes = .ok (a, rest) → ∃ used, bytes = used ++ rest ∧ Takes read used a

theorem Takes.pure (a : α) : Takes (Pure.pure a) [] a :=
  ⟨Reads.pure a, fun _ hfront hne => absurd (List.prefix_nil.1 hfront) hne⟩

theorem Takes.bind {read : Decoder α} {next : α → Decoder β} {used more : List UInt8} {a : α} {b : β}
    (h : Takes read used a) (hnext : Takes (next a) more b) :
    Takes (read >>= next) (used ++ more) b := by
  refine ⟨h.reads.bind hnext.reads, fun front ⟨tail, htail⟩ hne => ?_⟩
  rcases List.append_eq_append_iff.1 htail with ⟨missing, hused, _⟩ | ⟨done, hfront, hmore⟩
  · by_cases hmissing : missing = []
    · rw [hmissing, List.append_nil] at hused
      have hcut := hnext.cut [] List.nil_prefix fun heq => hne (by rw [← heq, List.append_nil, hused])
      calc (read >>= next) front = (read (used ++ []) >>= fun (a, rest) => next a rest) := by
            rw [List.append_nil, hused]
            rfl
        _ = .error .endOfData := by
            rw [h.reads]
            exact hcut
    · have hcut := h.cut front ⟨missing, hused.symm⟩ fun heq => hmissing (by simpa [heq] using hused)
      calc (read >>= next) front = (read front >>= fun (a, rest) => next a rest) := rfl
        _ = .error .endOfData := by
            rw [hcut]
            rfl
  · have hcut := hnext.cut done ⟨tail, hmore.symm⟩ fun heq => hne (by rw [hfront, heq])
    calc (read >>= next) front = (read (used ++ done) >>= fun (a, rest) => next a rest) := by
          rw [hfront]
          rfl
      _ = .error .endOfData := by
          rw [h.reads]
          exact hcut

namespace Sequential

theorem pure (a : α) : Sequential (Pure.pure a) := by
  intro bytes a' rest h
  cases h
  exact ⟨[], rfl, .pure a⟩

theorem throw {cause : TableError} : Sequential (MonadExcept.throw cause : Decoder α) := by
  intro bytes a rest h
  cases h

theorem bind {read : Decoder α} {next : α → Decoder β} (h : Sequential read)
    (hnext : ∀ a, Sequential (next a)) : Sequential (read >>= next) := by
  intro bytes b rest heq
  obtain ⟨⟨a, rest'⟩, hread, hrest⟩ := exists_of_bind_eq_ok heq
  obtain ⟨used, rfl, htakes⟩ := h bytes a rest' hread
  obtain ⟨more, rfl, htakes'⟩ := hnext a rest' b rest hrest
  exact ⟨used ++ more, (List.append_assoc used more rest).symm, htakes.bind htakes'⟩

theorem throw_bind {next : α → Decoder β} {cause : TableError} :
    Sequential (MonadExcept.throw cause >>= next) := by
  intro bytes b rest h
  cases h

theorem ite {read read' : Decoder α} {c : Prop} [Decidable c] (h : Sequential read)
    (h' : Sequential read') : Sequential (if c then read else read') := by
  split
  · exact h
  · exact h'

end Sequential

/-! ### Numbers, texts and lists -/

/-- A beginning of some bytes that is not all of them has fewer. -/
theorem length_lt_of_prefix {front used : List UInt8} (h : front <+: used) (hne : front ≠ used) :
    front.length < used.length :=
  Nat.lt_of_le_of_ne h.length_le fun heq => hne (h.eq_of_length heq)

theorem sequential_u8 : Sequential Decode.u8 := by
  intro bytes v rest h
  cases bytes with
  | nil => cases h
  | cons a more =>
      cases h
      refine ⟨[v], rfl, fun _ => rfl, fun front hfront hne => ?_⟩
      have hlength := length_lt_of_prefix hfront hne
      rw [List.eq_nil_of_length_eq_zero (Nat.lt_one_iff.1 hlength)]
      rfl

theorem sequential_u16 : Sequential Decode.u16 := by
  intro bytes v rest h
  rcases bytes with _ | ⟨a, _ | ⟨b, more⟩⟩
  · cases h
  · cases h
  · cases h
    refine ⟨[a, b], rfl, fun _ => rfl, fun front hfront hne => ?_⟩
    have hlength := length_lt_of_prefix hfront hne
    rcases front with _ | ⟨_, _ | ⟨_, _⟩⟩
    · rfl
    · rfl
    · simp only [List.length_cons, List.length_nil] at hlength
      omega

theorem sequential_u32 : Sequential Decode.u32 := by
  intro bytes v rest h
  rcases bytes with _ | ⟨a, _ | ⟨b, _ | ⟨c, _ | ⟨d, more⟩⟩⟩⟩
  · cases h
  · cases h
  · cases h
  · cases h
  · cases h
    refine ⟨[a, b, c, d], rfl, fun _ => rfl, fun front hfront hne => ?_⟩
    have hlength := length_lt_of_prefix hfront hne
    rcases front with _ | ⟨_, _ | ⟨_, _ | ⟨_, _ | ⟨_, _⟩⟩⟩⟩
    · rfl
    · rfl
    · rfl
    · rfl
    · simp only [List.length_cons, List.length_nil] at hlength
      omega

theorem sequential_i32 : Sequential Decode.i32 := sequential_u32.bind fun _ => .pure _

theorem sequential_size : Sequential Decode.size := sequential_u32.bind fun _ => .pure _

theorem sequential_takeBytes (n : Nat) (taken : ByteArray) : Sequential (Decode.takeBytes n taken) := by
  induction n generalizing taken with
  | zero => exact .pure taken
  | succ n ih =>
      intro bytes a rest h
      cases bytes with
      | nil => cases h
      | cons b bytes =>
          obtain ⟨used, rfl, htakes⟩ := ih (taken.push b) bytes a rest h
          refine ⟨b :: used, rfl, htakes.reads, fun front hfront hne => ?_⟩
          rcases List.prefix_cons_iff.1 hfront with rfl | ⟨more, rfl, hmore⟩
          · rfl
          · exact htakes.cut more hmore fun heq => hne (by rw [heq])

theorem sequential_text : Sequential Decode.text := by
  refine sequential_size.bind fun n => (sequential_takeBytes n _).bind fun bytes => ?_
  split
  · exact .pure _
  · exact .throw

/-- One element and then the others. -/
theorem takeInto_succ (element : Decoder α) (n : Nat) (taken : Array α) :
    Decode.takeInto element (n + 1) taken
      = element >>= fun a => Decode.takeInto element n (taken.push a) := by
  funext bytes
  change _ = (element bytes >>= fun (a, rest) => Decode.takeInto element n (taken.push a) rest)
  rw [Decode.takeInto]
  cases element bytes with
  | error cause => rfl
  | ok found => rfl

theorem sequential_takeInto {element : Decoder α} (h : Sequential element) (n : Nat)
    (taken : Array α) : Sequential (Decode.takeInto element n taken) := by
  induction n generalizing taken with
  | zero => exact .pure taken
  | succ n ih =>
      rw [takeInto_succ]
      exact h.bind fun a => ih (taken.push a)

theorem sequential_many {element : Decoder α} (h : Sequential element) (n : Nat) :
    Sequential (Decode.many n element) :=
  sequential_takeInto h n #[]

theorem sequential_list {element : Decoder α} (h : Sequential element) :
    Sequential (Decode.list element) :=
  sequential_size.bind (sequential_many h)

/-! ### The sections -/

variable (n m : Nat)

theorem sequential_symbol : Sequential (Decode.symbol n) :=
  sequential_u16.bind fun _ => .ite (.pure _) .throw

theorem sequential_symbols : Sequential (Decode.symbols n) := sequential_list (sequential_symbol n)

theorem sequential_kind : Sequential Decode.kind := by
  refine sequential_u8.bind fun tag => ?_
  split
  · exact .pure _
  · exact .pure _
  · exact .pure _
  · exact .pure _
  · exact .throw

theorem sequential_symbolInfo : Sequential Decode.symbolInfo :=
  sequential_text.bind fun _ => sequential_kind.bind fun _ => sequential_u8.bind fun _ => .pure _

theorem sequential_field : Sequential (Decode.field n) :=
  sequential_u16.bind fun _ => .ite (.pure _) (.ite (.pure _) .throw)

theorem sequential_step : Sequential (Decode.step n m) :=
  (sequential_symbol n).bind fun _ => (sequential_field m).bind fun _ => .pure _

theorem sequential_production : Sequential (Decode.production n m) :=
  (sequential_symbol n).bind fun _ => sequential_i32.bind fun _ =>
    (sequential_list (sequential_step n m)).bind fun _ => .pure _

theorem sequential_action : Sequential Decode.action := by
  refine sequential_u8.bind fun tag => sequential_u32.bind fun arg => ?_
  split
  · exact .pure _
  · exact .pure _
  · exact .pure _
  · exact .pure _
  · exact .pure _
  · exact .pure _
  · exact .throw

theorem sequential_fragile : Sequential Decode.fragile :=
  sequential_u32.bind fun _ => sequential_u32.bind fun _ => .pure _

theorem sequential_breakdown : Sequential (Decode.breakdown n) :=
  sequential_u32.bind fun _ => (sequential_symbol n).bind fun _ =>
    sequential_u32.bind fun _ => .pure _

theorem sequential_lexMode : Sequential (Decode.lexMode n) :=
  sequential_u16.bind fun _ => .ite (.pure _) .throw

theorem sequential_token : Sequential (Decode.token n) :=
  (sequential_symbol n).bind fun _ => sequential_text.bind fun _ =>
    sequential_u8.bind fun _ => .pure _

theorem sequential_word : Sequential (Decode.word n) :=
  sequential_u16.bind fun _ => .ite (.pure _) (.ite (.pure _) .throw)

theorem sequential_keyword : Sequential (Decode.keyword n) :=
  sequential_text.bind fun _ => (sequential_symbol n).bind fun _ => .pure _

theorem sequential_reason : Sequential Decode.reason := by
  refine sequential_u8.bind fun tag => ?_
  split
  · exact .pure _
  · exact .pure _
  · exact .pure _
  · exact .pure _
  · exact .pure _
  · exact .throw

theorem sequential_resolution : Sequential (Decode.resolution n) :=
  sequential_u32.bind fun _ => (sequential_symbol n).bind fun _ => sequential_action.bind fun _ =>
    (sequential_list sequential_action).bind fun _ => sequential_reason.bind fun _ => .pure _

theorem sequential_kernelItem : Sequential Decode.kernelItem :=
  sequential_u32.bind fun _ => sequential_u16.bind fun _ => .pure _

theorem sequential_table : Sequential Decode.table := by
  refine (sequential_takeBytes 4 _).bind fun mark => .ite .throw_bind ?_
  refine sequential_u32.bind fun version => .ite .throw_bind ?_
  exact sequential_text.bind fun name => (sequential_list sequential_symbolInfo).bind fun infos =>
    sequential_size.bind fun terminalCount => (sequential_symbol _).bind fun startSymbol =>
    (sequential_list sequential_text).bind fun fields =>
    (sequential_list (sequential_production _ _)).bind fun productions =>
    sequential_size.bind fun stateCount => (sequential_many sequential_action _).bind fun actions =>
    (sequential_list (sequential_list sequential_action)).bind fun ambigs =>
    (sequential_list sequential_fragile).bind fun fragile =>
    (sequential_list (sequential_breakdown _)).bind fun breakdown =>
    (sequential_list (sequential_symbols _)).bind fun lexModes =>
    (sequential_many (sequential_lexMode _) _).bind fun stateModes =>
    (sequential_list (sequential_token _)).bind fun tokens =>
    (sequential_list sequential_text).bind fun skips => (sequential_word _).bind fun word =>
    (sequential_list (sequential_keyword _)).bind fun keywords =>
    (sequential_symbols _).bind fun extras => (sequential_symbols _).bind fun externals =>
    (sequential_list (sequential_resolution _)).bind fun resolutions =>
    (sequential_many (sequential_list sequential_kernelItem) _).bind fun kernels =>
    sequential_u32.bind fun startState => .pure _

/-! ### Tables -/

/-- Bytes that are read as a table are what is taken for it. -/
theorem exists_takes_of_decode {bytes : List UInt8} {t : Table} (h : decode bytes = .ok t) :
    Takes Decode.table bytes t := by
  rw [decode] at h
  obtain ⟨⟨t', rest⟩, hread, h⟩ := exists_of_bind_eq_ok h
  simp only at h
  split at h
  · cases h
  · rename_i hempty
    split at h
    · cases h
    · cases h
      obtain ⟨used, rfl, htakes⟩ := sequential_table bytes _ rest hread
      have hrest : rest = [] := by simpa using hempty
      rwa [hrest, List.append_nil]

/-- Of bytes that are read as a table, every beginning that is not all of them ends too early, and
whatever more stands behind them is too much. -/
theorem decode_prefix_free {bytes : List UInt8} {t : Table} (h : decode bytes = .ok t) :
    (∀ front, front <+: bytes → front ≠ bytes → decode front = .error .endOfData) ∧
      ∀ longer, bytes <+: longer → longer ≠ bytes → decode longer = .error .trailingBytes := by
  have htakes := exists_takes_of_decode h
  constructor
  · intro front hfront hne
    rw [decode, htakes.cut front hfront hne]
    rfl
  · rintro _ ⟨more, rfl⟩ hne
    have hmore : more ≠ [] := fun heq => hne (by rw [heq, List.append_nil])
    rw [decode, htakes.reads more]
    simp [bind, Except.bind, hmore]
    rfl

/-- The stored table of a grammar with one optional token is neither the beginning of another table
nor another table with something behind it. -/
theorem decode_prefix_free_optionalToken : ∃ t, Table.compile .optionalToken .strict = .ok t ∧
    decode (encode t).dropLast = .error .endOfData ∧
      decode (encode t ++ [0]) = .error .trailingBytes := by
  obtain ⟨t, ht, _⟩ := exists_compile_optionalToken
  obtain ⟨hfits, hproblem⟩ := (obtained_optionalToken ht).fits
  have hdecode := decode_encode_of_fits hfits hproblem
  obtain ⟨hcut, hlonger⟩ := decode_prefix_free hdecode
  have hne : encode t ≠ [] := by
    intro hempty
    rw [hempty] at hdecode
    cases hdecode
  refine ⟨t, ht, hcut _ (List.dropLast_prefix _) fun heq => ?_, hlonger _ (List.prefix_append _ _) ?_⟩
  · have hlength := congrArg List.length heq
    have hpos := List.length_pos_iff.2 hne
    rw [List.length_dropLast] at hlength
    omega
  · simp

end IncrementalLR.Table
