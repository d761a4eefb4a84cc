import Csveee.Parser.Dfa.Parser
import Csveee.Parser.Simd.Parser

/-!
# Resolution

What a run decides before it parses: the parser backend, the chunk size and
count, and how the first record boundary of each chunk is found.
-/

namespace Csveee.Scheduler

/-- A parser backend once `auto` is resolved. -/
inductive Backend
  | dfa
  | simd
  deriving DecidableEq, Repr

/-- `resolve_parser_backend`.  The byte automaton supports every dialect. -/
def resolveParserBackend (config : Config) : Except Rejection Backend :=
  match config.parserBackend with
  | .auto =>
      match Simd.supports config with
      | .ok () => .ok .simd
      | .error _ => .ok .dfa
  | .dfa => .ok .dfa
  | .simd => (Simd.supports config).map fun () => .simd

def resolveChunkSize (config : Config) (backend : Backend) : ℕ :=
  if config.chunkSize ≠ 0 then config.chunkSize
  else match backend with
    | .dfa => 256 * 1024
    | .simd => 1024 * 1024

def divCeil (n d : ℕ) : ℕ := (n + d - 1) / d

def findMode (config : Config) (chunkIdx : ℕ) : FindRecordStart :=
  if chunkIdx = 0 then
    if config.hasHeaders then .skipHeaders else .no
  else .strict

/-- What differs between the machines a run may be on: the byte order, and the
instruction set. -/
structure Platform where
  endian : Endian
  isa : Simd.Isa

/-- A little-endian machine without a fast bit extract. -/
def scalarPlatform : Platform := ⟨.little, ⟨false⟩⟩

/-- The chunk parser of a backend. -/
def parserOf {σ : Type} (platform : Platform) (backend : Backend) (config : Config)
    (output : Output) (acc : Accumulator σ) : ChunkParser σ :=
  match backend with
  | .dfa => (Dfa.DfaChunkParser.new platform.endian config).chunkParser output acc
  | .simd => Simd.SimdChunkParser.chunkParser ⟨config, platform.isa⟩ output acc

end Csveee.Scheduler
