import Mathlib.Data.Nat.Bitwise
import IncrementalLR.Proofs.Fold
import IncrementalLR.Table.Decode

/-!
# The sections of a stored table

Each section of a stored table is written and read by a pair of functions. What is written of a value
that fits its section is read back as the value, whatever stands behind it; and what is read of any
bytes fits the section.
-/

namespace IncrementalLR.Table

variable {α β : Type}

/-- The bytes stand for the value, whatever stands behind them. -/
def Reads (read : Decoder α) (bytes : List UInt8) (a : α) : Prop :=
  ∀ rest, read (bytes ++ rest) = .ok (a, rest)

/-- What is read of any bytes has the property. -/
def Gives (read : Decoder α) (P : α → Prop) : Prop :=
  ∀ bytes a rest, read bytes = .ok (a, rest) → P a

/-- What is written of values with the property is read back, and only such values are read. -/
structure Codec (write : α → List UInt8) (read : Decoder α) (P : α → Prop) : Prop where
  reads : ∀ a, P a → Reads read (write a) a
  gives : Gives read P

theorem Reads.pure (a : α) : Reads (Pure.pure a) [] a := fun _ => rfl

theorem Reads.bind {read : Decoder α} {next : α → Decoder β} {bytes more : List UInt8} {a : α}
    {b : β} (h : Reads read bytes a) (hnext : Reads (next a) more b) :
    Reads (read >>= next) (bytes ++ more) b := by
  intro rest
  calc (read >>= next) (bytes ++ more ++ rest)
      = (read (bytes ++ (more ++ rest)) >>= fun (a, rest) => next a rest) := by
        rw [List.append_assoc]
        rfl
    _ = next a (more ++ rest) := by
        rw [h]
        rfl
    _ = .ok (b, rest) := hnext rest

/-- The last part that is read. -/
theorem Reads.last {read : Decoder α} {next : α → Decoder β} {bytes : List UInt8} {a : α}
    {b : β} (h : Reads read bytes a) (hnext : next a = Pure.pure b) :
    Reads (read >>= next) bytes b := by
  have hbind := h.bind (hnext ▸ Reads.pure b : Reads (next a) [] b)
  rwa [List.append_nil] at hbind

theorem Gives.pure {P : α → Prop} {a : α} (h : P a) : Gives (Pure.pure a) P := by
  intro bytes a' rest heq
  cases heq
  exact h

theorem Gives.throw {P : α → Prop} {cause : TableError} : Gives (MonadExcept.throw cause) P := by
  intro bytes a rest heq
  cases heq

theorem Gives.bind {read : Decoder α} {next : α → Decoder β} {P : α → Prop} {Q : β → Prop}
    (h : Gives read P) (hnext : ∀ a, P a → Gives (next a) Q) : Gives (read >>= next) Q := by
  intro bytes b rest heq
  obtain ⟨⟨a, rest'⟩, hread, heq⟩ := exists_of_bind_eq_ok heq
  exact hnext a (h bytes a rest' hread) rest' b rest heq

theorem Gives.throw_bind {next : α → Decoder β} {Q : β → Prop} {cause : TableError} :
    Gives (MonadExcept.throw cause >>= next) Q := by
  intro bytes b rest heq
  cases heq

theorem Gives.ite {read read' : Decoder α} {P : α → Prop} {c : Prop} [Decidable c]
    (h : c → Gives read P) (h' : ¬c → Gives read' P) : Gives (if c then read else read') P := by
  split
  · rename_i hc
    exact h hc
  · rename_i hc
    exact h' hc

theorem Gives.trivial (read : Decoder α) : Gives read fun _ => True := fun _ _ _ _ => True.intro

/-! ### Numbers -/

/-- The bits of the byte at a place of a number. -/
theorem testBit_byte (n k i : Nat) :
    (((n >>> k) % 2 ^ 8) <<< k).testBit i = (decide (k ≤ i ∧ i < k + 8) && n.testBit i) := by
  rw [Nat.testBit_shiftLeft, Nat.testBit_mod_two_pow, Nat.testBit_shiftRight]
  by_cases hk : k ≤ i
  · rw [Nat.add_sub_cancel' hk]
    have hlt : i - k < 8 ↔ i < k + 8 := by omega
    simp [hk, hlt]
  · simp [hk]

theorem testBit_eq_false {n w i : Nat} (hn : n < 2 ^ w) (hi : ¬i < w) : n.testBit i = false :=
  Nat.testBit_lt_two_pow (Nat.lt_of_lt_of_le hn (Nat.pow_le_pow_right (by decide) (by omega)))

theorem reads_u8 (v : UInt8) : Reads Decode.u8 (Encode.u8 v) v := fun _ => rfl

theorem reads_u16 (v : UInt16) : Reads Decode.u16 (Encode.u16 v) v := by
  intro rest
  have hv : v.toUInt8.toUInt16 ||| (v >>> 8).toUInt8.toUInt16 <<< 8 = v := by
    apply UInt16.toNat_inj.1
    apply Nat.eq_of_testBit_eq
    intro i
    have h8 : UInt16.toNat 8 % 16 = 8 := rfl
    simp only [UInt16.toNat_or, UInt16.toNat_shiftLeft, UInt8.toNat_toUInt16,
      UInt16.toNat_toUInt8, UInt16.toNat_shiftRight, Nat.testBit_or, Nat.testBit_mod_two_pow, h8,
      testBit_byte]
    by_cases hi : i < 16
    · grind
    · simp [testBit_eq_false v.toNat_lt hi]
  calc Decode.u16 (Encode.u16 v ++ rest)
      = .ok (v.toUInt8.toUInt16 ||| (v >>> 8).toUInt8.toUInt16 <<< 8, rest) := rfl
    _ = .ok (v, rest) := by rw [hv]

theorem reads_u32 (v : UInt32) : Reads Decode.u32 (Encode.u32 v) v := by
  intro rest
  have hv : v.toUInt8.toUInt32 ||| (v >>> 8).toUInt8.toUInt32 <<< 8 |||
      (v >>> 16).toUInt8.toUInt32 <<< 16 ||| (v >>> 24).toUInt8.toUInt32 <<< 24 = v := by
    apply UInt32.toNat_inj.1
    apply Nat.eq_of_testBit_eq
    intro i
    have h8 : UInt32.toNat 8 % 32 = 8 := rfl
    have h16 : UInt32.toNat 16 % 32 = 16 := rfl
    have h24 : UInt32.toNat 24 % 32 = 24 := rfl
    simp only [UInt32.toNat_or, UInt32.toNat_shiftLeft, UInt8.toNat_toUInt32,
      UInt32.toNat_toUInt8, UInt32.toNat_shiftRight, Nat.testBit_or, Nat.testBit_mod_two_pow, h8,
      h16, h24, testBit_byte]
    by_cases hi : i < 32
    · grind
    · simp [testBit_eq_false v.toNat_lt hi]
  calc Decode.u32 (Encode.u32 v ++ rest)
      = .ok (v.toUInt8.toUInt32 ||| (v >>> 8).toUInt8.toUInt32 <<< 8 |||
          (v >>> 16).toUInt8.toUInt32 <<< 16 ||| (v >>> 24).toUInt8.toUInt32 <<< 24, rest) := rfl
    _ = .ok (v, rest) := by rw [hv]

theorem reads_i32 (v : Int32) : Reads Decode.i32 (Encode.i32 v) v :=
  (reads_u32 v.toUInt32).last (by simp)

theorem codec_size : Codec Encode.size Decode.size (· < 2 ^ 32) := by
  constructor
  · intro n hn
    refine (reads_u32 n.toUInt32).last ?_
    rw [Nat.toUInt32_eq, UInt32.toNat_ofNat', Nat.mod_eq_of_lt hn]
  · refine Gives.bind (Gives.trivial _) fun v _ => Gives.pure ?_
    exact v.toNat_lt

/-! ### Texts and lists -/

theorem takeBytes_append (bytes rest : List UInt8) (taken : ByteArray) :
    Decode.takeBytes bytes.length taken (bytes ++ rest)
      = .ok (⟨taken.data ++ bytes.toArray⟩, rest) := by
  induction bytes generalizing taken with
  | nil => simp [Decode.takeBytes]
  | cons b bytes ih =>
      rw [List.length_cons, List.cons_append, Decode.takeBytes, ih,
        show (taken.push b).data = taken.data.push b from rfl]
      simp

theorem size_of_takeBytes {n : Nat} {taken bytes : ByteArray} {from' rest : List UInt8}
    (h : Decode.takeBytes n taken from' = .ok (bytes, rest)) : bytes.size = taken.size + n := by
  induction n generalizing taken from' with
  | zero =>
      cases h
      rfl
  | succ n ih =>
      cases from' with
      | nil => cases h
      | cons b from' =>
          rw [Decode.takeBytes] at h
          rw [ih h, ByteArray.size_push]
          omega

/-- A text whose length can be stored. -/
def TextFits (s : String) : Prop := s.utf8ByteSize < 2 ^ 32

instance : DecidablePred TextFits := fun s => inferInstanceAs (Decidable (s.utf8ByteSize < 2 ^ 32))

theorem codec_text : Codec Encode.text Decode.text TextFits := by
  constructor
  · intro s hs
    refine (codec_size.reads s.utf8ByteSize hs).bind ?_
    have htake : Reads (Decode.takeBytes s.utf8ByteSize ByteArray.empty) s.toUTF8.data.toList
        s.toUTF8 := by
      intro rest
      simpa using takeBytes_append s.toUTF8.data.toList rest ByteArray.empty
    refine htake.last ?_
    have hutf8 : String.fromUTF8? s.toUTF8 = some s := dif_pos s.isValidUTF8
    rw [hutf8]
  · refine codec_size.gives.bind fun n hn => ?_
    have htake : Gives (Decode.takeBytes n ByteArray.empty) fun bytes => bytes.size < 2 ^ 32 := by
      intro _ bytes _ heq
      have hsize : bytes.size = 0 + n := size_of_takeBytes heq
      omega
    refine htake.bind fun bytes hbytes => ?_
    cases hs : String.fromUTF8? bytes with
    | none => exact Gives.throw
    | some s =>
        refine Gives.pure ?_
        obtain ⟨_, hs⟩ := Option.dite_none_right_eq_some.1 hs
        cases hs
        exact hbytes

/-- A list whose length can be stored, of elements that can. -/
def ListFits (P : α → Prop) (xs : Array α) : Prop := xs.size < 2 ^ 32 ∧ ∀ x ∈ xs, P x

instance {P : α → Prop} [DecidablePred P] : DecidablePred (ListFits P) :=
  fun xs => inferInstanceAs (Decidable (xs.size < 2 ^ 32 ∧ ∀ x ∈ xs, P x))

variable {write : α → List UInt8} {read : Decoder α} {P : α → Prop}

theorem Codec.takeInto (h : Codec write read P) {xs : List α} (hxs : ∀ x ∈ xs, P x)
    (taken : Array α) :
    Reads (Decode.takeInto read xs.length taken) (xs.flatMap write) (taken ++ xs.toArray) := by
  induction xs generalizing taken with
  | nil =>
      intro rest
      simp [Decode.takeInto]
  | cons x xs ih =>
      intro rest
      have hread := h.reads x (hxs x List.mem_cons_self) (xs.flatMap write ++ rest)
      have hrest := ih (fun y hy => hxs y (List.mem_cons_of_mem x hy)) (taken.push x) rest
      rw [List.length_cons, List.flatMap_cons, List.append_assoc, Decode.takeInto, hread]
      simp only [hrest]
      simp

theorem gives_takeInto (h : Gives read P) {n : Nat} {taken : Array α} (htaken : ∀ x ∈ taken, P x) :
    Gives (Decode.takeInto read n taken) fun xs =>
      xs.size = taken.size + n ∧ ∀ x ∈ xs, P x := by
  induction n generalizing taken with
  | zero =>
      intro bytes xs rest heq
      cases heq
      exact ⟨rfl, htaken⟩
  | succ n ih =>
      intro bytes xs rest heq
      rw [Decode.takeInto] at heq
      split at heq
      · rename_i x more hread
        have hpushed : ∀ y ∈ taken.push x, P y := by
          intro y hy
          rcases Array.mem_push.1 hy with hy | rfl
          · exact htaken y hy
          · exact h bytes y more hread
        obtain ⟨hsize, hall⟩ := ih hpushed more xs rest heq
        rw [Array.size_push] at hsize
        exact ⟨by omega, hall⟩
      · cases heq

theorem Codec.many (h : Codec write read P) {xs : Array α} (hxs : ∀ x ∈ xs, P x) :
    Reads (Decode.many xs.size read) (xs.toList.flatMap write) xs := by
  have htake := h.takeInto (fun x (hx : x ∈ xs.toList) => hxs x (Array.mem_toList_iff.1 hx)) #[]
  simpa [Decode.many] using htake

theorem gives_many (h : Gives read P) (n : Nat) :
    Gives (Decode.many n read) fun xs => xs.size = n ∧ ∀ x ∈ xs, P x := by
  have hnone : ∀ x ∈ (#[] : Array _), P x := by simp
  have htake : Gives (Decode.takeInto read n #[]) _ := gives_takeInto h hnone
  simpa [Decode.many] using htake

theorem Codec.list (h : Codec write read P) :
    Codec (fun xs => Encode.list write xs.toList) (Decode.list read) (ListFits P) := by
  constructor
  · intro xs hxs
    rw [Encode.list, Array.length_toList]
    exact (codec_size.reads xs.size hxs.1).bind (h.many hxs.2)
  · refine Gives.bind codec_size.gives fun n hn => ?_
    intro bytes xs rest heq
    obtain ⟨hsize, hall⟩ := gives_many h.gives n bytes xs rest heq
    exact ⟨by omega, hall⟩

/-! ### Symbols, fields and productions -/

variable (n : Nat)

theorem codec_symbol : Codec Encode.symbol (Decode.symbol n) (·.index < n) := by
  constructor
  · intro s hs
    exact (reads_u16 s.id).last (if_pos hs)
  · refine (Gives.trivial _).bind fun v _ => Gives.ite (fun hv => Gives.pure hv) fun _ => Gives.throw

theorem codec_symbols : Codec Encode.symbols (Decode.symbols n) (ListFits (·.index < n)) :=
  (codec_symbol n).list

/-- An optional number that can be stored: it is below a bound and is not the one for none. -/
def OptionFits (v : Option UInt16) : Prop := ∀ i ∈ v, i.toNat < n ∧ i ≠ 65535

theorem codec_word : Codec (fun word : Option Symbol => Encode.optional (word.map (·.id)))
    (Decode.word n) fun word => OptionFits n (word.map (·.id)) := by
  constructor
  · intro word hword
    cases word with
    | none => exact (reads_u16 65535).last (if_pos rfl)
    | some s =>
        obtain ⟨hlt, hne⟩ := hword s.id rfl
        exact (reads_u16 s.id).last ((if_neg hne).trans (if_pos hlt))
  · refine (Gives.trivial _).bind fun v _ => Gives.ite (fun _ => Gives.pure ?_) fun hne =>
      Gives.ite (fun hlt => Gives.pure ?_) fun _ => Gives.throw
    · exact fun i hi => absurd hi (by simp)
    · exact fun i hi => by cases hi; exact ⟨hlt, hne⟩

theorem codec_field : Codec (fun f : Option FieldId => Encode.optional (f.map (·.id)))
    (Decode.field n) fun f => OptionFits n (f.map (·.id)) := by
  constructor
  · intro f hf
    cases f with
    | none => exact (reads_u16 65535).last (if_pos rfl)
    | some f =>
        obtain ⟨hlt, hne⟩ := hf f.id rfl
        exact (reads_u16 f.id).last ((if_neg hne).trans (if_pos hlt))
  · refine (Gives.trivial _).bind fun v _ => Gives.ite (fun _ => Gives.pure ?_) fun hne =>
      Gives.ite (fun hlt => Gives.pure ?_) fun _ => Gives.throw
    · exact fun i hi => absurd hi (by simp)
    · exact fun i hi => by cases hi; exact ⟨hlt, hne⟩

theorem reads_kind (kind : SymbolKind) :
    Reads Decode.kind (Encode.u8 (Encode.kindTag kind)) kind := by
  cases kind <;> exact (reads_u8 _).last rfl

theorem flags_bits : ∀ visible named extra : Bool,
    (Encode.flags visible named extra &&& 1 != 0) = visible ∧
      (Encode.flags visible named extra &&& 2 != 0) = named ∧
      (Encode.flags visible named extra &&& 4 != 0) = extra := by
  decide

theorem codec_symbolInfo :
    Codec Encode.symbolInfo Decode.symbolInfo fun info => TextFits info.name := by
  constructor
  · intro info hinfo
    rw [Encode.symbolInfo, List.append_assoc]
    refine (codec_text.reads _ hinfo).bind ((reads_kind info.kind).bind ((reads_u8 _).last ?_))
    obtain ⟨hvisible, hnamed, hextra⟩ := flags_bits info.visible info.named info.extra
    rw [hvisible, hnamed, hextra]
  · refine codec_text.gives.bind fun name hname => (Gives.trivial _).bind fun kind _ =>
      (Gives.trivial _).bind fun flags _ => Gives.pure hname

variable (m : Nat)

def StepFits (step : Symbol × Option FieldId) : Prop :=
  step.1.index < n ∧ OptionFits m (step.2.map (·.id))

theorem codec_step : Codec Encode.step (Decode.step n m) (StepFits n m) := by
  constructor
  · intro step hstep
    exact ((codec_symbol n).reads _ hstep.1).bind (((codec_field m).reads _ hstep.2).last rfl)
  · refine (codec_symbol n).gives.bind fun s hs => (codec_field m).gives.bind fun f hf => ?_
    exact Gives.pure ⟨hs, hf⟩

/-- A production whose symbols and fields are in range, with one field for each symbol. -/
structure ProductionFits (p : ProductionInfo) : Prop where
  lhs : p.lhs.index < n
  length : p.rhs.size < 2 ^ 32
  fields : p.fields.size = p.rhs.size
  steps : ∀ step ∈ p.rhs.toList.zip p.fields.toList, StepFits n m step

theorem codec_production :
    Codec Encode.production (Decode.production n m) (ProductionFits n m) := by
  constructor
  · intro p hp
    have hlength : (p.rhs.toList.zip p.fields.toList).length = p.rhs.size := by
      simp [hp.fields]
    have hsteps := (codec_step n m).list.reads (p.rhs.toList.zip p.fields.toList).toArray
      ⟨by simpa [hlength] using hp.length, fun step hstep => hp.steps step (by simpa using hstep)⟩
    rw [Encode.list, List.toList_toArray, hlength] at hsteps
    rw [Encode.production, List.append_assoc, List.append_assoc]
    refine ((codec_symbol n).reads _ hp.lhs).bind ((reads_i32 _).bind (hsteps.last ?_))
    obtain ⟨lhs, rhs, fields, dynamic⟩ := p
    have hfst : (rhs.toList.zip fields.toList).map (·.1) = rhs.toList :=
      List.map_fst_zip (by simpa using hp.fields.ge)
    have hsnd : (rhs.toList.zip fields.toList).map (·.2) = fields.toList :=
      List.map_snd_zip (by simpa using hp.fields.le)
    simp [List.map_toArray, hfst, hsnd]
  · refine (codec_symbol n).gives.bind fun lhs hlhs => (Gives.trivial _).bind fun dynamic _ =>
      (codec_step n m).list.gives.bind fun steps hsteps => Gives.pure ⟨hlhs, ?_, ?_, ?_⟩
    · simpa using hsteps.1
    · simp
    · intro step hstep
      rw [Array.toList_map, Array.toList_map, List.zip_map'] at hstep
      obtain ⟨step', hmem, rfl⟩ := List.mem_map.1 hstep
      exact hsteps.2 step' (Array.mem_toList_iff.1 hmem)

/-! ### Actions and what is recorded of them -/

theorem codec_action : Codec Encode.action Decode.action fun _ => True := by
  refine ⟨fun a _ => ?_, Gives.trivial _⟩
  cases a <;> exact (reads_u8 _).bind ((reads_u32 _).last rfl)

theorem codec_actions : Codec Encode.actions (Decode.list Decode.action) (ListFits fun _ => True) :=
  codec_action.list

theorem codec_fragile : Codec Encode.fragile Decode.fragile fun _ => True :=
  ⟨fun pair _ => (reads_u32 pair.1).bind ((reads_u32 pair.2).last rfl), Gives.trivial _⟩

theorem codec_breakdown :
    Codec Encode.breakdown (Decode.breakdown n) fun entry => entry.2.1.index < n := by
  constructor
  · intro entry hentry
    rw [Encode.breakdown, List.append_assoc]
    exact (reads_u32 _).bind (((codec_symbol n).reads _ hentry).bind ((reads_u32 _).last rfl))
  · exact (Gives.trivial _).bind fun state _ => (codec_symbol n).gives.bind fun s hs =>
      (Gives.trivial _).bind fun target _ => Gives.pure hs

theorem codec_lexMode : Codec Encode.u16 (Decode.lexMode n) (·.toNat < n) := by
  constructor
  · intro mode hmode
    exact (reads_u16 mode).last (if_pos hmode)
  · exact (Gives.trivial _).bind fun v _ => Gives.ite (fun hv => Gives.pure hv) fun _ => Gives.throw

theorem codec_token :
    Codec Encode.token (Decode.token n) fun t => t.symbol.index < n ∧ TextFits t.pattern := by
  constructor
  · intro t ht
    rw [Encode.token, List.append_assoc]
    refine ((codec_symbol n).reads _ ht.1).bind ((codec_text.reads _ ht.2).bind
      ((reads_u8 _).last ?_))
    obtain ⟨s, pattern, literal⟩ := t
    cases literal <;> rfl
  · exact (codec_symbol n).gives.bind fun s hs => codec_text.gives.bind fun pattern hpattern =>
      (Gives.trivial _).bind fun literal _ => Gives.pure ⟨hs, hpattern⟩

theorem codec_keyword :
    Codec Encode.keyword (Decode.keyword n) fun k => TextFits k.1 ∧ k.2.index < n := by
  constructor
  · intro k hk
    exact (codec_text.reads _ hk.1).bind (((codec_symbol n).reads _ hk.2).last rfl)
  · exact codec_text.gives.bind fun text htext => (codec_symbol n).gives.bind fun s hs =>
      Gives.pure ⟨htext, hs⟩

theorem reads_reason (reason : ResolutionReason) :
    Reads Decode.reason (Encode.u8 (Encode.reasonTag reason)) reason := by
  cases reason <;> exact (reads_u8 _).last rfl

theorem codec_resolution : Codec Encode.resolution (Decode.resolution n) fun r =>
    r.lookahead.index < n ∧ r.discarded.length < 2 ^ 32 := by
  constructor
  · intro r hr
    have hdiscarded := codec_action.list.reads r.discarded.toArray ⟨by simpa using hr.2, by simp⟩
    rw [List.toList_toArray] at hdiscarded
    rw [Encode.resolution, List.append_assoc, List.append_assoc, List.append_assoc]
    refine (reads_u32 _).bind (((codec_symbol n).reads _ hr.1).bind
      ((codec_action.reads _ trivial).bind (hdiscarded.bind ((reads_reason _).last ?_))))
    rw [List.toList_toArray]
  · exact (Gives.trivial _).bind fun state _ => (codec_symbol n).gives.bind fun s hs =>
      (Gives.trivial _).bind fun kept _ => codec_action.list.gives.bind fun discarded hdiscarded =>
      (Gives.trivial _).bind fun reason _ => Gives.pure ⟨hs, by simpa using hdiscarded.1⟩

theorem codec_kernelItem : Codec Encode.kernelItem Decode.kernelItem fun _ => True :=
  ⟨fun item _ => (reads_u32 item.production).bind ((reads_u16 item.dot).last rfl),
    Gives.trivial _⟩

theorem codec_kernel :
    Codec Encode.kernel (Decode.list Decode.kernelItem) (ListFits fun _ => True) :=
  codec_kernelItem.list

end IncrementalLR.Table
