namespace DenseDecomp

/-- The arithmetic a decomposition runs in. Every algorithm is written once over a `Scalar`, so that
binary64 computes with it and exact arithmetic reasons about it. -/
class Scalar (α : Type) extends Zero α, One α, Add α, Sub α, Mul α, Div α, Neg α, LT α, LE α,
    BEq α, OfScientific α where
  abs : α → α
  sqrt : α → α
  hypot : α → α → α
  decidableLT (a b : α) : Decidable (a < b)
  decidableLE (a b : α) : Decidable (a ≤ b)

namespace Scalar

variable {α : Type} [Scalar α] {n : Nat}

instance (a b : α) : Decidable (a < b) := decidableLT a b

instance (a b : α) : Decidable (a ≤ b) := decidableLE a b

def maxNum (a b : α) : α :=
  if a < b then b else if a == a then a else b

def epsilon : α := 1.0 / 4503599627370496.0

def negateIf (p : Prop) [Decidable p] (a : α) : α := if p then -a else a

/-- Terms are added to zero one at a time, from the lowest index up: rounded addition is not
associative, so the order belongs to the value. -/
def sumWhere (p : Fin n → Prop) [DecidablePred p] (f : Fin n → α) : α :=
  Fin.foldl n (fun acc k ↦ if p k then acc + f k else acc) 0

def sumWhereDown (p : Fin n → Prop) [DecidablePred p] (f : Fin n → α) : α :=
  Fin.foldr n (fun k acc ↦ if p k then acc + f k else acc) 0

theorem sumWhere_congr {p : Fin n → Prop} [DecidablePred p] {f g : Fin n → α}
    (h : ∀ k, p k → f k = g k) : sumWhere p f = sumWhere p g := by
  have : (fun (acc : α) k ↦ if p k then acc + f k else acc) =
      fun acc k ↦ if p k then acc + g k else acc := by
    funext acc k
    by_cases hk : p k
    · simp only [hk, if_true, h k hk]
    · simp only [hk, if_false]
  simp only [sumWhere, this]

theorem sumWhereDown_congr {p : Fin n → Prop} [DecidablePred p] {f g : Fin n → α}
    (h : ∀ k, p k → f k = g k) : sumWhereDown p f = sumWhereDown p g := by
  have : (fun k (acc : α) ↦ if p k then acc + f k else acc) =
      fun k acc ↦ if p k then acc + g k else acc := by
    funext k acc
    by_cases hk : p k
    · simp only [hk, if_true, h k hk]
    · simp only [hk, if_false]
  simp only [sumWhereDown, this]

end Scalar

end DenseDecomp
