import Neighbors.Binary32.Arith

/-!
# Metrics

The two ways to score a pair of vectors. Smaller is better for `Metric.l2`, the squared Euclidean
distance, and larger is better for `Metric.innerProduct`.
-/

namespace Neighbors

/-- A vector, or several end to end. -/
abbrev Floats := Array Binary32

/-- The sum from left to right. It starts from `-0`, so the sum of nothing is `-0`. -/
def sum (xs : List Binary32) : Binary32 := xs.foldl (· + ·) .negZero

def squaredDistance (a b : Floats) : Binary32 :=
  sum (List.zipWith (fun x y => (x - y) * (x - y)) a.toList b.toList)

def innerProduct (a b : Floats) : Binary32 :=
  sum (List.zipWith (· * ·) a.toList b.toList)

inductive Metric where
  | l2
  | innerProduct
  deriving DecidableEq, Repr, Inhabited

namespace Metric

def distance : Metric → Floats → Floats → Binary32
  | l2 => squaredDistance
  | innerProduct => Neighbors.innerProduct

/-- Whether distance `a` ranks strictly ahead of distance `b`. -/
def isBetter : Metric → (a b : Binary32) → Bool
  | l2, a, b => a.lt b
  | innerProduct, a, b => b.lt a

/-- The distance that no candidate can lose to. -/
def worst : Metric → Binary32
  | l2 => .infinity
  | innerProduct => .negInfinity

def withinRadius : Metric → (distance radius : Binary32) → Bool
  | l2, distance, radius => distance.le radius
  | innerProduct, distance, radius => radius.le distance

end Metric

end Neighbors
