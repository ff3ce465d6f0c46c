import Mathlib.Algebra.Ring.Int.Defs
import Mathlib.Algebra.Ring.Nat

/-!
# Arithmetic at a fixed width

Unsigned 64-bit values, their signed reading (`as i64`), subtraction at either type, and addition.
A build decides what an overflow does: with overflow checks the program aborts (`none` here),
without them the result wraps. Each operation comes with the lemma that says where both builds give
the exact integer result.
-/

set_option autoImplicit false

namespace Base

/-- What an arithmetic overflow does. -/
inductive Overflow
  /-- overflow checks are on: the program panics -/
  | abort
  /-- overflow checks are off: two's-complement wrap-around -/
  | wrap
  deriving DecidableEq, Repr

/-- `x as i64`. -/
def signed (x : UInt64) : Int := x.toInt64.toInt

/-- `x - y` at `i64`. -/
def subI64 (o : Overflow) (x y : Int) : Option Int :=
  if -2 ^ 63 ≤ x - y ∧ x - y < 2 ^ 63 then some (x - y)
  else match o with
    | .abort => none
    | .wrap => some ((x - y).bmod (2 ^ 64))

/-- `x - y` at `u64`. -/
def subU64 (o : Overflow) (x y : UInt64) : Option UInt64 :=
  if y ≤ x then some (x - y)
  else match o with
    | .abort => none
    | .wrap => some (x - y)

/-- `x + y` at `u64`. -/
def addU64 (o : Overflow) (x y : UInt64) : Option UInt64 :=
  if x.toNat + y.toNat < 2 ^ 64 then some (x + y)
  else match o with
    | .abort => none
    | .wrap => some (x + y)

/-- The signed reading of a value below 2^63 is the value. -/
theorem signed_of_lt {x : UInt64} (h : x.toNat < 2 ^ 63) : signed x = x.toNat := by
  show x.toBitVec.toInt = (x.toBitVec.toNat : Int)
  refine BitVec.toInt_eq_toNat_of_lt ?_
  show 2 * x.toNat < 2 ^ 64
  omega

theorem subI64_of_lt (o : Overflow) {x y : Int} (hl : -2 ^ 63 ≤ x - y) (hr : x - y < 2 ^ 63) :
    subI64 o x y = some (x - y) := if_pos ⟨hl, hr⟩

theorem subU64_of_le (o : Overflow) {x y : UInt64} (h : y ≤ x) : subU64 o x y = some (x - y) :=
  if_pos h

theorem addU64_of_lt (o : Overflow) {x y : UInt64} (h : x.toNat + y.toNat < 2 ^ 64) :
    addU64 o x y = some (x + y) := if_pos h

/-- Whatever an addition answers is the sum modulo 2^64. -/
theorem eq_add_of_addU64 {o : Overflow} {x y r : UInt64} (h : addU64 o x y = some r) :
    r = x + y := by
  unfold addU64 at h
  split at h
  · exact (Option.some.inj h).symm
  · cases o with
    | abort => cases h
    | wrap => exact (Option.some.inj h).symm

/-- With overflow checks an addition that answers does not overflow. -/
theorem lt_of_addU64_abort {x y r : UInt64} (h : addU64 .abort x y = some r) :
    x.toNat + y.toNat < 2 ^ 64 := by
  unfold addU64 at h
  split at h
  · next hlt => exact hlt
  · cases h

/-- Without overflow checks no subtraction stops the program. -/
theorem subI64_wrap_isSome (x y : Int) : (subI64 .wrap x y).isSome := by
  unfold subI64
  split <;> rfl

theorem subU64_wrap_isSome (x y : UInt64) : (subU64 .wrap x y).isSome := by
  unfold subU64
  split <;> rfl

/-- The difference of two values below 2^63, read as signed, is exact in both builds. -/
theorem subI64_signed (o : Overflow) {x y : UInt64} (hx : x.toNat < 2 ^ 63)
    (hy : y.toNat < 2 ^ 63) : subI64 o (signed x) (signed y) = some ((x.toNat : Int) - y.toNat) := by
  rw [signed_of_lt hx, signed_of_lt hy]
  exact subI64_of_lt o (by omega) (by omega)

/-- Whatever a signed subtraction answers is the difference modulo 2^64. -/
theorem eq_bmod_of_subI64 {o : Overflow} {x y d : Int} (h : subI64 o x y = some d) :
    d = (x - y).bmod (2 ^ 64) := by
  unfold subI64 at h
  split at h
  · next hin =>
    rw [Option.some.injEq] at h
    subst h
    symm
    apply Int.bmod_eq_of_le <;> omega
  · cases o with
    | abort => cases h
    | wrap => exact (Option.some.inj h).symm

/-- Where both subtractions of two values answer, they answer the same number: an unsigned
difference read as signed is the signed difference. -/
theorem signed_subU64 {o : Overflow} {x y r : UInt64} {d : Int} (hr : subU64 o x y = some r)
    (hd : subI64 o (signed x) (signed y) = some d) : signed r = d := by
  have hxy : r = x - y := by
    unfold subU64 at hr
    split at hr
    · exact (Option.some.inj hr).symm
    · cases o with
      | abort => cases hr
      | wrap => exact (Option.some.inj hr).symm
  rw [eq_bmod_of_subI64 hd, hxy]
  show (x - y).toBitVec.toInt = _
  rw [UInt64.toBitVec_sub, BitVec.toInt_sub]
  rfl

end Base
