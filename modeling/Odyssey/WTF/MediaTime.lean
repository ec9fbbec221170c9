import Odyssey.WTF.CheckedArithmetic

/-!
# Media times

A `MediaTime` is a value over a time scale, or one of the special values that its flags stand for.
`compare` asks for the special values first and compares finite times by their truncated quotients
and then by cross-multiplied remainders. A result of `none` is a signed overflow. Times with the
flag `DoubleValue` are not modelled.
-/
namespace Odyssey.WTF

/-- A time and its flags. -/
structure MediaTime where
  timeValue : Int
  timeScale : Int
  isValid : Bool
  isPositiveInfinite : Bool
  isNegativeInfinite : Bool
  isIndefinite : Bool
  deriving DecidableEq

namespace MediaTime

/-- The constructor with the flag `Valid`. -/
def ofValue (timeValue timeScale : Int) : MediaTime :=
  ⟨timeValue, timeScale, true, false, false, false⟩

def invalidTime : MediaTime := { ofValue (-1) 1 with isValid := false }

def positiveInfiniteTime : MediaTime := { ofValue 0 1 with isPositiveInfinite := true }

def negativeInfiniteTime : MediaTime := { ofValue (-1) 1 with isNegativeInfinite := true }

def indefiniteTime : MediaTime := { ofValue 0 1 with isIndefinite := true }

def maximumTimeScale : Int := 0x7fffffff

def toRat (t : MediaTime) : ℚ := t.timeValue / t.timeScale

inductive ComparisonFlags
  | lessThan
  | equalTo
  | greaterThan
  deriving DecidableEq

namespace ComparisonFlags

def neg : ComparisonFlags → ComparisonFlags
  | lessThan => greaterThan
  | equalTo => equalTo
  | greaterThan => lessThan

end ComparisonFlags

open ComparisonFlags

/-- `compare` of finite times; `none` where a product overflows. -/
def compareFinite (a b : MediaTime) : Option ComparisonFlags :=
  let rhsWhole := b.timeValue.tdiv b.timeScale
  let lhsWhole := a.timeValue.tdiv a.timeScale
  if lhsWhole > rhsWhole then some greaterThan
  else if lhsWhole < rhsWhole then some lessThan
  else
    let rhsRemain := b.timeValue.tmod b.timeScale
    let lhsRemain := a.timeValue.tmod a.timeScale
    let lhsFactor := lhsRemain * b.timeScale
    let rhsFactor := rhsRemain * a.timeScale
    if IsInt 64 lhsFactor ∧ IsInt 64 rhsFactor then
      if lhsFactor = rhsFactor then some equalTo
      else if lhsFactor > rhsFactor then some greaterThan
      else some lessThan
    else none

/-- `MediaTime::compare`. -/
def compare (a b : MediaTime) : Option ComparisonFlags :=
  if (a.isPositiveInfinite && b.isPositiveInfinite) ||
      (a.isNegativeInfinite && b.isNegativeInfinite) ||
      (!a.isValid && !b.isValid) || (a.isIndefinite && b.isIndefinite) then some equalTo
  else if !a.isValid then some greaterThan
  else if !b.isValid then some lessThan
  else if b.isNegativeInfinite || a.isPositiveInfinite then some greaterThan
  else if b.isPositiveInfinite || a.isNegativeInfinite then some lessThan
  else if a.isIndefinite then some greaterThan
  else if b.isIndefinite then some lessThan
  else compareFinite a b

end MediaTime

end Odyssey.WTF
