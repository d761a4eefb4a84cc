import Csveee.Core.Config

/-!
# Errors

The crate's error type, with the offsets it reports.  An accumulator's error is
boxed; a crate error handed back through a callback is unnested again.
-/

namespace Csveee

/-- An error of the operating system, as far as the parser looks at it. -/
structure IoError where
  code : ℕ
  deriving DecidableEq, Repr

/-- An error of the user's own making. -/
structure UserError where
  code : ℕ
  deriving DecidableEq, Repr

inductive Error
  | io (err : IoError)
  | invalidConfig (reason : Rejection)
  | numberOfFields (expected found byteOffset : ℕ)
  | utf8 (byteOffset : ℕ)
  | invalidQuote (byteOffset : ℕ)
  | unclosedQuote (byteOffset : ℕ)
  | user (err : UserError)
  deriving DecidableEq, Repr

/-- What an accumulator may return: any error, the crate's own included. -/
inductive BoxedError
  | crate (err : Error)
  | other (err : UserError)
  deriving DecidableEq, Repr

namespace Error

/-- Unnest a crate error a callback handed back; box anything else. -/
def fromUser : BoxedError → Error
  | .crate err => err
  | .other err => .user err

/-- Translate a chunk-local error position into an absolute file position. -/
def withBase (base : ℕ) : Error → Error
  | .utf8 offset => .utf8 (offset + base)
  | .invalidQuote offset => .invalidQuote (offset + base)
  | .unclosedQuote offset => .unclosedQuote (offset + base)
  | .numberOfFields expected found offset =>
      .numberOfFields expected found (offset + base)
  | other => other

theorem withBase_zero (err : Error) : withBase 0 err = err := by
  cases err <;> rfl

end Error

end Csveee
