import Mathlib.Data.Int.Notation

/-!
# Error numbers

The values of `errno.h` that the functions return, as negative numbers.
-/

namespace Qemu

/-- No such file or directory. -/
def enoent : ℤ := 2

/-- Input/output error. -/
def eio : ℤ := 5

/-- Permission denied. -/
def eacces : ℤ := 13

/-- Device or resource busy. -/
def ebusy : ℤ := 16

/-- Invalid argument. -/
def einval : ℤ := 22

/-- Operation not supported. -/
def enotsup : ℤ := 95

/-- No medium found. -/
def enomedium : ℤ := 123

end Qemu
