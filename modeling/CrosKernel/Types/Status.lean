/-!
# Status codes

The `error_t` enumeration of `include/types/status.h`. System calls and file operations return
either one of these codes or a nonnegative count in the same `int`.
-/

namespace CrosKernel

/-- `error_t`. -/
inductive Error where
  | ENONE | EUNKNOWN | ENOSYS | EEOF | ENOFILE | ENOMEM | EINVAL | EIO | EEXISTS | EPIPE | EFULL
  deriving DecidableEq, Repr

/-- The integer value of a status code. -/
def Error.code : Error → Int
  | .ENONE => 0
  | .EUNKNOWN => -1
  | .ENOSYS => -2
  | .EEOF => -3
  | .ENOFILE => -4
  | .ENOMEM => -5
  | .EINVAL => -6
  | Error.EIO => -7
  | .EEXISTS => -8
  | .EPIPE => -9
  | .EFULL => -10

/-- No status code is a count of one or more, and only `ENONE` is zero. -/
theorem Error.code_nonpos (e : Error) : e.code ≤ 0 := by
  cases e <;> decide

end CrosKernel
