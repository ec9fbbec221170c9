import Mathlib.Data.Rat.Defs
import Mathlib.Tactic.Ring
import Mathlib.Tactic.Linarith
import Mathlib.Tactic.Positivity
import Mathlib.Algebra.Order.Ring.Int
import Mathlib.Algebra.Order.Field.Rat
import Mathlib.Tactic.FieldSimp

/-!
# Checked integer arithmetic

`ArithmeticOperations` predicts overflow before it computes. The operands and the result have types
of their own, and every intermediate value is computed in the type the usual arithmetic conversions
give it. A result of `none` is a signed overflow on the way.
-/
namespace Odyssey.WTF

def intMax (bits : Nat) : Int := 2 ^ (bits - 1) - 1

def intMin (bits : Nat) : Int := -2 ^ (bits - 1)

/-- The number is one of the type with so many bits. -/
def IsInt (bits : Nat) (n : Int) : Prop := intMin bits ≤ n ∧ n ≤ intMax bits

instance (bits : Nat) (n : Int) : Decidable (IsInt bits n) := inferInstanceAs (Decidable (_ ∧ _))

def signsMatch (lhs rhs : Int) : Bool := decide (0 ≤ lhs) == decide (0 ≤ rhs)

@[simp] theorem signsMatch_iff {lhs rhs : Int} :
    signsMatch lhs rhs = true ↔ (0 ≤ lhs ↔ 0 ≤ rhs) := by
  rw [signsMatch, beq_iff_eq, decide_eq_decide]

theorem intMin_eq (bits : Nat) : intMin bits = -intMax bits - 1 := by
  rw [intMin, intMax]
  ring

theorem intMax_nonneg (bits : Nat) : 0 ≤ intMax bits := by
  have : (0 : Int) < 2 ^ (bits - 1) := by positivity
  rw [intMax]
  omega

namespace CheckedArithmetic

/-! ## Integer types -/

inductive Width
  | w8
  | w16
  | w32
  | w64
  deriving DecidableEq

def Width.bits : Width → Nat
  | w8 => 8
  | w16 => 16
  | w32 => 32
  | w64 => 64

inductive IntType
  | signed (width : Width)
  | unsigned (width : Width)
  deriving DecidableEq

namespace IntType

def min : IntType → Int
  | signed width => intMin width.bits
  | unsigned _ => 0

def max : IntType → Int
  | signed width => intMax width.bits
  | unsigned width => 2 ^ width.bits - 1

def Has (type : IntType) (n : Int) : Prop := type.min ≤ n ∧ n ≤ type.max

instance (type : IntType) (n : Int) : Decidable (type.Has n) :=
  inferInstanceAs (Decidable (_ ∧ _))

end IntType

/-- Conversion to a signed type keeps the low bits. -/
def toSigned (width : Width) (n : Int) : Int := n.bmod (2 ^ width.bits)

def toUnsigned (width : Width) (n : Int) : Int := n % 2 ^ width.bits

def IntType.convert : IntType → Int → Int
  | signed width => toSigned width
  | unsigned width => toUnsigned width

/-- The bits of the signed type that two signed operands are converted to; narrow ones become
`int`. -/
def common (a b : Width) : Nat := max 32 (max a.bits b.bits)

def inType (bits : Nat) (n : Int) : Option Int := if IsInt bits n then some n else none

/-! ## Two signed operands

`l`, `r` and `k` are the widths of `LHS`, `RHS` and `ResultType`. Every operation gives what it
returns and the value of `result` after it. Every divisor is positive, so no quotient overflows. -/

namespace Signed

def store (l r k : Width) (n : Int) : Option (Bool × Int) :=
  (inType (common l r) n).map fun value => (true, toSigned k value)

def add (l r k : Width) (lhs rhs result : Int) : Option (Bool × Int) :=
  if signsMatch lhs rhs then
    if 0 ≤ lhs then do
      let bound ← inType (common k r) (intMax k.bits - rhs)
      if bound < lhs then some (false, result) else store l r k (lhs + rhs)
    else do
      let temp := toSigned k (← inType (common l k) (lhs - intMin k.bits))
      let bound ← inType (common k k) (-temp)
      if rhs < bound then some (false, result) else store l r k (lhs + rhs)
  else store l r k (lhs + rhs)

def sub (l r k : Width) (lhs rhs result : Int) : Option (Bool × Int) :=
  if !signsMatch lhs rhs then
    if 0 ≤ lhs then do
      let bound ← inType (common k r) (intMax k.bits + rhs)
      if lhs > bound then some (false, result) else store l r k (lhs - rhs)
    else do
      let bound ← inType (common k l) (intMax k.bits + lhs)
      if rhs > bound then some (false, result) else store l r k (lhs - rhs)
  else store l r k (lhs - rhs)

def multiply (l r k : Width) (lhs rhs result : Int) : Option (Bool × Int) :=
  if signsMatch lhs rhs then
    if 0 ≤ lhs then
      if lhs ≠ 0 ∧ (intMax k.bits).tdiv lhs < rhs then some (false, result)
      else store l r k (lhs * rhs)
    else if toSigned k lhs = intMin k.bits ∨ toSigned k rhs = intMin k.bits then
      some (false, result)
    else do
      let negatedLeft ← inType (common l l) (-lhs)
      let negatedRight ← inType (common r r) (-rhs)
      if (intMax k.bits).tdiv negatedLeft < negatedRight then some (false, result)
      else store l r k (lhs * rhs)
  else if lhs < 0 then
    if rhs ≠ 0 ∧ lhs < (intMin k.bits).tdiv rhs then some (false, result)
    else store l r k (lhs * rhs)
  else if lhs ≠ 0 ∧ rhs < (intMin k.bits).tdiv lhs then some (false, result)
  else store l r k (lhs * rhs)

end Signed

/-! ## Two unsigned operands -/

namespace Unsigned

/-- Narrow operands are computed as `int`, the others modulo the size of the wider type. -/
def compute (l r : Width) (n : Int) : Option Int :=
  if max l.bits r.bits < 32 then inType 32 n else some (n % 2 ^ max l.bits r.bits)

def add (l r k : Width) (lhs rhs result : Int) : Option (Bool × Int) := do
  let temp := toUnsigned k (← compute l r (lhs + rhs))
  if temp < lhs then some (false, result) else some (true, temp)

def sub (l r k : Width) (lhs rhs result : Int) : Option (Bool × Int) := do
  let temp := toUnsigned k (← compute l r (lhs - rhs))
  if temp > lhs then some (false, result) else some (true, temp)

def multiply (l r k : Width) (lhs rhs result : Int) : Option (Bool × Int) :=
  if lhs = 0 ∨ rhs = 0 then some (true, 0)
  else if (2 ^ k.bits - 1 : Int).tdiv lhs < rhs then some (false, result)
  else (compute l r (lhs * rhs)).map fun value => (true, toUnsigned k value)

end Unsigned

/-! ## `int` and `unsigned`

The operands are passed as `int64_t`. -/

namespace Mixed

def store (resultType : IntType) (n result : Int) : Option (Bool × Int) := do
  let temp ← inType 64 n
  if temp < resultType.min then some (false, result)
  else if temp > resultType.max then some (false, result)
  else some (true, resultType.convert temp)

def add (resultType : IntType) (lhs rhs result : Int) : Option (Bool × Int) :=
  store resultType (lhs + rhs) result

def sub (resultType : IntType) (lhs rhs result : Int) : Option (Bool × Int) :=
  store resultType (lhs - rhs) result

def multiply (resultType : IntType) (lhs rhs result : Int) : Option (Bool × Int) :=
  store resultType (lhs * rhs) result

end Mixed

/-! ## Instances -/

inductive Operation
  | add
  | sub
  | multiply
  deriving DecidableEq

def Operation.value : Operation → Int → Int → Int
  | add, lhs, rhs => lhs + rhs
  | sub, lhs, rhs => lhs - rhs
  | multiply, lhs, rhs => lhs * rhs

/-- The specialisations of `ArithmeticOperations`. -/
inductive Instance
  | signed (l r k : Width)
  | unsigned (l r k : Width)
  | intUnsigned (resultSigned : Bool)
  | unsignedInt (resultSigned : Bool)
  deriving DecidableEq

/-- `ResultBase` for types of one signedness. -/
def resultWidth (l r : Width) : Width := if l.bits > r.bits then l else r

namespace Instance

/-- `ResultType` is that of `Result<LHS, RHS>`, or `LHS` in a mutating assignment. -/
def IsUsed : Instance → Prop
  | signed l r k => k = resultWidth l r ∨ k = l
  | unsigned l r k => k = resultWidth l r ∨ k = l
  | intUnsigned _ => True
  | unsignedInt _ => True

def lhsType : Instance → IntType
  | signed l _ _ => .signed l
  | unsigned l _ _ => .unsigned l
  | intUnsigned _ => .signed .w32
  | unsignedInt _ => .unsigned .w32

def rhsType : Instance → IntType
  | signed _ r _ => .signed r
  | unsigned _ r _ => .unsigned r
  | intUnsigned _ => .unsigned .w32
  | unsignedInt _ => .signed .w32

def resultType : Instance → IntType
  | signed _ _ k => .signed k
  | unsigned _ _ k => .unsigned k
  | intUnsigned resultSigned => if resultSigned then .signed .w32 else .unsigned .w32
  | unsignedInt resultSigned => if resultSigned then .signed .w32 else .unsigned .w32

def run (i : Instance) (operation : Operation) (lhs rhs result : Int) : Option (Bool × Int) :=
  match i, operation with
  | signed l r k, .add => Signed.add l r k lhs rhs result
  | signed l r k, .sub => Signed.sub l r k lhs rhs result
  | signed l r k, .multiply => Signed.multiply l r k lhs rhs result
  | unsigned l r k, .add => Unsigned.add l r k lhs rhs result
  | unsigned l r k, .sub => Unsigned.sub l r k lhs rhs result
  | unsigned l r k, .multiply => Unsigned.multiply l r k lhs rhs result
  | intUnsigned _, .add => Mixed.add i.resultType lhs rhs result
  | intUnsigned _, .sub => Mixed.sub i.resultType lhs rhs result
  | intUnsigned _, .multiply => Mixed.multiply i.resultType lhs rhs result
  | unsignedInt _, .add => Mixed.add i.resultType rhs lhs result
  | unsignedInt _, .sub => Mixed.sub i.resultType lhs rhs result
  | unsignedInt _, .multiply => Mixed.multiply i.resultType rhs lhs result

end Instance

/-- What exact arithmetic does: the value is stored if the type has it. -/
def exact (resultType : IntType) (n result : Int) : Option (Bool × Int) :=
  some (if resultType.Has n then (true, n) else (false, result))

/-- The operands at which the operation is not exact. `sub` refuses the least number of
`ResultType`; `multiply` negates the least number of an operand type other than `ResultType`; and
`add` and `sub` see no overflow where only the right operand is wider than `ResultType`. -/
def Inexact : Instance → Operation → Int → Int → Prop
  | .signed _ _ k, .add, lhs, rhs => ¬signsMatch lhs rhs ∧ ¬IsInt k.bits (lhs + rhs)
  | .signed _ _ k, .sub, lhs, rhs =>
    (signsMatch lhs rhs ∧ ¬IsInt k.bits (lhs - rhs)) ∨
      (lhs < 0 ∧ 0 ≤ rhs ∧ lhs - rhs = intMin k.bits)
  | .signed l r k, .multiply, lhs, rhs =>
    lhs < 0 ∧ rhs < 0 ∧ lhs ≠ intMin k.bits ∧ toSigned k rhs ≠ intMin k.bits ∧
      ((32 ≤ l.bits ∧ l ≠ k ∧ lhs = intMin l.bits) ∨
        (32 ≤ r.bits ∧ r ≠ k ∧ rhs = intMin r.bits))
  | .unsigned _ _ k, .add, lhs, rhs => 2 ^ k.bits ≤ rhs ∧ lhs + rhs % 2 ^ k.bits < 2 ^ k.bits
  | .unsigned _ _ k, .sub, lhs, rhs => 2 ^ k.bits ≤ rhs ∧ rhs % 2 ^ k.bits ≤ lhs
  | .unsigned _ _ _, .multiply, _, _ => False
  | .intUnsigned _, _, _, _ => False
  | .unsignedInt _, _, _, _ => False

end CheckedArithmetic

end Odyssey.WTF
