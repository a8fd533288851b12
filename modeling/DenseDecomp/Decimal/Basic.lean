namespace DenseDecomp.Decimal

/-- A binary64 value taken apart: a finite one is `± mantissa * 2 ^ exponent`. -/
inductive Parts where
  | notANumber
  | infinite (negative : Bool)
  | finite (negative : Bool) (mantissa : Nat) (exponent : Int)
deriving DecidableEq

def hiddenBit : Nat := 0x10000000000000

def leastExponent : Int := -1074

def Parts.ofFloat (x : Float) : Parts :=
  let bits := x.toBits
  let negative := bits >>> 63 == 1
  let field := (bits >>> 52 &&& 0x7ff).toNat
  let fraction := (bits &&& 0xfffffffffffff).toNat
  if field = 2047 then if fraction = 0 then .infinite negative else .notANumber
  else if field = 0 then .finite negative fraction leastExponent
  else .finite negative (hiddenBit + fraction) (leastExponent + (field - 1 : Nat))

structure Ratio where
  num : Nat
  den : Nat
deriving DecidableEq

namespace Ratio

def binaryOverDecimal (e k : Int) : Ratio where
  num := Nat.pow 2 e.toNat * Nat.pow 10 (-k).toNat
  den := Nat.pow 2 (-e).toNat * Nat.pow 10 k.toNat

def mulNat (r : Ratio) (k : Nat) : Ratio := ⟨r.num * k, r.den⟩

def decimalLength (k : Nat) : Nat := (Nat.toDigits 10 k).length

def leadingExponent (r : Ratio) : Int :=
  let e : Int := decimalLength r.num - decimalLength r.den
  if r.den * Nat.pow 10 e.toNat ≤ r.num * Nat.pow 10 (-e).toNat then e else e - 1

end Ratio

end DenseDecomp.Decimal
