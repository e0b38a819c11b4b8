import Mathlib

namespace QemuStm32

/-- The ways in which the emulator stops instead of finishing an operation.
`hwError` carries the format string of the `hw_error` call and its arguments,
`aborted` the one printed before an `abort`;
`endlessLoop` stands for a loop of the source that never ends. -/
inductive Fault
  | hwError (message : String) (arguments : List Nat)
  | aborted (message : String)
  | assertFailed (condition : String)
  | outOfBounds (array : String) (index : Nat)
  | divideByZero
  | endlessLoop
  deriving DecidableEq, Repr

end QemuStm32
