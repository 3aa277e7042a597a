/-
# `Frozen.Core.Base` — result codes and checked arithmetic

Every function of the library answers with a `ssize_t`: zero or a positive number
for success, a negative number for an error.  Two families of negative numbers
exist and never meet: the errno values, all above `-4096`, and what the macro
`error(...)` makes of the module number and the source line, all below it.

`safe_mul`, `safe_div` and `safe_pow` are the overflow-checked operations
of `libfrozen.c`.  They leave their result variable alone when they fail,
which is `none` here.
-/
import Mathlib.Tactic

namespace Frozen

/-! ## Errno values -/

def ENOENT : Int := 2
def EBADF : Int := 9
def EFAULT : Int := 14
def EEXIST : Int := 17
def EINVAL : Int := 22
def ENOSYS : Int := 38

/-- The actions of a request that some modelled handler looks at; every other
number of `data_functions` is `other`. -/
inductive Action where
  | create | read | write | delete | move | count | custom | rebuild
  | other (n : Nat)
deriving DecidableEq, Repr

/-! ## `error(...)` -/

def EBASE : Nat := 4096
def ESTEP : Nat := 4096

/-- `error("…")`, and `warning("…")`: the number encodes module and line; the
text is only printed. -/
def errorCode (emodule line : Nat) : Int :=
  -((EBASE + emodule * ESTEP + line : Nat) : Int)

theorem errorCode_lt (emodule line : Nat) : errorCode emodule line ≤ -4096 := by
  unfold errorCode EBASE ESTEP
  omega

theorem errorCode_ne_EBADF (emodule line : Nat) : errorCode emodule line ≠ -EBADF := by
  have h := errorCode_lt emodule line
  unfold EBADF
  omega

/-! ## Checked arithmetic -/

/-- `__MAX(uintmax_t)`. -/
def uintmaxMax : UInt64 := 0xFFFFFFFFFFFFFFFF

def safeMul (x y : UInt64) : Option UInt64 :=
  if x = 0 ∨ y = 0 then some 0
  else if uintmaxMax / x ≤ y then none
  else some (x * y)

def safeDiv (x y : UInt64) : Option UInt64 :=
  if y = 0 then none else some (x / y)

/-- `while(--y >= 1)`, for so many rounds.  `x` is not 0. -/
def safePowLoop (x : UInt64) : Nat → UInt64 → Option UInt64
  | 0, t => some t
  | n + 1, t => if uintmaxMax / x ≤ t then none else safePowLoop x n (t * x)

def safePow (x y : UInt64) : Option UInt64 :=
  if y = 0 then some 1 else if y = 1 then some x else safePowLoop x (y.toNat - 1) x

end Frozen
