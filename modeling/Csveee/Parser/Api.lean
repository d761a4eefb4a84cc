import Mathlib.Data.Vector.Defs
import Csveee.Scheduler.Handed

/-!
# The parser

What a caller holds: a configuration that was checked once, for the encoding the fields come
in.  In arity mode the field count is pinned to the callback's, and the fields of a record
are handed over as an array of that length.
-/

namespace Csveee

open Scheduler

/-- `Parser<Mode, Encoding>`.  The mode shows in what the callback takes. -/
structure Parser (encoding : Output) where
  config : Config
  valid : config.validate = .ok ()
  ascii : encoding.requiresAsciiControlBytes = true → config.validateAsciiControlBytes = .ok ()

/-- `fields_as_array`: nothing where the assertion fails, "record arity not verified by the
parser". -/
def fieldsAsArray (n : ℕ) (fields : Record) : Option (List.Vector Bytes n) :=
  if h : fields.length = n then some ⟨fields, h⟩ else none

/-- A callback that takes the fields as an array. -/
abbrev ArrayAccumulator (n : ℕ) (σ : Type) := σ → List.Vector Bytes n → Verdict σ

/-- `acc_slice`: the state is lost where the assertion fails. -/
def accSlice {n : ℕ} {σ : Type} (acc : ArrayAccumulator n σ) : Accumulator (Option σ) :=
  fun state fields =>
    match state, fieldsAsArray n fields with
    | some state, some array =>
        let verdict := acc state array
        ⟨some verdict.state, verdict.fields, verdict.result⟩
    | _, _ => ⟨none, fields, .ok ()⟩

namespace Parser

variable {encoding : Output} {σ : Type}

def tryFromConfig (encoding : Output) (config : Config) : Except Rejection (Parser encoding) :=
  match hvalid : config.validate with
  | .error reason => .error reason
  | .ok () =>
      if hrequired : encoding.requiresAsciiControlBytes = true then
        match hascii : config.validateAsciiControlBytes with
        | .error reason => .error reason
        | .ok () => .ok ⟨config, hvalid, fun _ => hascii⟩
      else .ok ⟨config, hvalid, fun h => absurd h hrequired⟩

/-- The parsers are what `try_from_config` makes of the configurations that pass its checks. -/
theorem tryFromConfig_eq_ok {config : Config} {parser : Parser encoding} :
    tryFromConfig encoding config = .ok parser ↔ parser.config = config := by
  constructor
  · intro h
    rw [tryFromConfig] at h
    split at h
    · cases h
    · split_ifs at h
      · split at h
        · cases h
        · cases h
          rfl
      · cases h
        rfl
  · rintro rfl
    rw [tryFromConfig]
    split
    · next reason hreason =>
        rw [parser.valid] at hreason
        cases hreason
    · split_ifs with hrequired
      · split
        · next reason hreason =>
            rw [parser.ascii hrequired] at hreason
            cases hreason
        · rfl
      · rfl

variable (parser : Parser encoding)

/-- `arity_config`.  The field count is not among the validated fields. -/
def arityConfig (n : ℕ) : ValidConfig := ⟨{ parser.config with fieldCount := some n }, parser.valid⟩

section Arity

variable {n : ℕ} (platform : Platform) (init : σ) (acc : ArrayAccumulator n σ) (data : Input)
  (env : Environment)

def parseSlice : Except Error (List (Option σ)) :=
  runSlice platform (parser.arityConfig n) encoding (accSlice acc) (some init) data env

def parseStream : Except Error (List (Option σ)) :=
  runStream platform (parser.arityConfig n) encoding (accSlice acc) (some init) data env

end Arity

/-- `Parser::<Variadic, _>::parse_slice` -/
def parseSliceVariadic (platform : Platform) (init : σ) (acc : Accumulator σ) (data : Input)
    (env : Environment) : Except Error (List σ) :=
  runSlice platform ⟨parser.config, parser.valid⟩ encoding acc init data env

/-- `Parser::<Variadic, _>::parse_stream` -/
def parseStreamVariadic (platform : Platform) (init : σ) (acc : Accumulator σ) (data : Input)
    (env : Environment) : Except Error (List σ) :=
  runStream platform ⟨parser.config, parser.valid⟩ encoding acc init data env

variable {parser}

theorem ascii_of_str (hstr : encoding = .str) :
    parser.config.validateAsciiControlBytes = .ok () := by
  refine parser.ascii ?_
  rw [hstr]
  rfl

/-- Records of as many fields as the array do not lose the state. -/
theorem isSome_of_handedOut {n : ℕ} {acc : ArrayAccumulator n σ} {init : σ} {state : Option σ}
    (h : HandedOut (accSlice acc) (Promised (parser.arityConfig n).config encoding) (some init)
      state) : state.isSome = true := by
  induction h with
  | start => rfl
  | @record state fields _ hrecord ih =>
      obtain ⟨state, rfl⟩ := Option.isSome_iff_exists.mp ih
      have hlength : fields.length = n := by
        have hcount := hrecord.fields
        rw [arityConfig, Option.all_some, beq_iff_eq] at hcount
        exact hcount
      simp only [accSlice, fieldsAsArray, hlength, dite_true, Option.isSome_some]

theorem leaves_arity (parser : Parser encoding) {n : ℕ} (platform : Platform) (init : σ)
    (acc : ArrayAccumulator n σ) {backend : Backend}
    (hbackend : resolveParserBackend (parser.arityConfig n).config = .ok backend) :
    Leaves (parserOf platform backend (parser.arityConfig n).config encoding (accSlice acc))
      (some init) (fun state => state.isSome = true) := by
  have hleaves := @leaves_parserOf _ platform _ _ (parser.arityConfig n).distinct hbackend encoding
    (fun hstr => parser.ascii_of_str hstr) (accSlice acc) (some init)
  exact ⟨rfl, fun reader base => isSome_of_handedOut (hleaves.body reader base)⟩

/-- In arity mode the assertion never fails: no pass of a run loses its state, whatever its
outcome, and none is lost to the merge. -/
theorem arity_assertion (parser : Parser encoding) {n : ℕ} (platform : Platform) (init : σ)
    (acc : ArrayAccumulator n σ) :
    (∀ backend, resolveParserBackend (parser.arityConfig n).config = .ok backend →
      ∀ reader base, ((parserOf platform backend (parser.arityConfig n).config encoding
        (accSlice acc)).parseFrom reader (some init) base).1.isSome = true) ∧
    (∀ data env states, parser.parseSlice platform init acc data env = .ok states →
      ∀ state ∈ states, state.isSome = true) ∧
    (∀ data env states, parser.parseStream platform init acc data env = .ok states →
      ∀ state ∈ states, state.isSome = true) := by
  have hleaves := fun backend => @leaves_arity encoding σ parser n platform init acc backend
  refine ⟨fun backend hbackend => (hleaves backend hbackend).body, ?_, ?_⟩
  · intro data env states hrun
    exact runSlice_leaves hleaves hrun
  · intro data env states hrun
    exact runStream_leaves hleaves hrun

/-- What a parse comes to is made of records as promised. -/
theorem records_promised (parser : Parser encoding) (platform : Platform) (acc : RecordWise)
    (data : Input) (env : Environment) :
    (∀ states, parser.parseSliceVariadic platform [] acc.accumulator data env = .ok states →
      ∀ records ∈ states, ∀ record ∈ records, Promised parser.config encoding record) ∧
    (∀ states, parser.parseStreamVariadic platform [] acc.accumulator data env = .ok states →
      ∀ records ∈ states, ∀ record ∈ records, Promised parser.config encoding record) := by
  have hleaves := fun backend hbackend => @leaves_parserOf _ platform backend _
    (Config.distinct_of_validate parser.valid) hbackend encoding
    (fun hstr => parser.ascii_of_str hstr) acc.accumulator []
  constructor
  · intro states hrun records hmem
    exact (@runSlice_leaves _ _ ⟨parser.config, parser.valid⟩ _ _ _ _ hleaves _ _ _ hrun records
      hmem).records
  · intro states hrun records hmem
    exact (@runStream_leaves _ _ ⟨parser.config, parser.valid⟩ _ _ _ _ hleaves _ _ _ hrun records
      hmem).records

end Parser

end Csveee
