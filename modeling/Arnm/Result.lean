import Mathlib.Tactic

set_option autoImplicit false

/-! # Outcome of an operation

`Result` lists the enumerators of `arnm_result` in their order: success, the warnings, then the
errors from `errorNotImplementedYet` on. -/

namespace Arnm

inductive Result where
  | success
  | warningArenaMemoryNotReclaimed
  | warningUsedDynamicAllocationFallback
  | errorNotImplementedYet
  | errorNotInitialized
  | errorInvalidParam
  | errorInvalidEnumType
  | errorInvalidState
  | errorNullPointer
  | errorArithmeticOverflow
  | errorOutOfMemory
  | errorArrayIndexOutOfBounds
  | errorResourceExhausted
  | errorResourceSizeExceed
  | errorResourceInUse
  | errorDecodeFailed
  | errorEncodeFailed
  | errorDestinationBufferToSmall
  | errorEnumUnhandled
  | errorEnumUnknown
  deriving DecidableEq, Repr

/-- The operation was not carried out. -/
def Result.isError : Result → Bool
  | .success => false
  | .warningArenaMemoryNotReclaimed => false
  | .warningUsedDynamicAllocationFallback => false
  | _ => true

/-- What was refused did not succeed. -/
theorem Result.ne_success_of_isError {result : Result} (h : result.isError = true) :
    result ≠ .success := by
  rintro rfl
  cases h

theorem Result.isError_outOfMemory : Result.errorOutOfMemory.isError = true := rfl

end Arnm
