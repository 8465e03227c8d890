/-!
Parameters of cost and cardinality estimation, and the few operations on floats they are used with.
-/

namespace Cascade

/-- Parameters of an estimation. Costs per row are in abstract units. -/
structure CostParams where
  scanRow : Float := 1.0
  indexScanRow : Float := 2.0
  filterRow : Float := 0.1
  computeRow : Float := 0.1
  hashBuildRow : Float := 1.5
  hashProbeRow : Float := 1.0
  aggregateRow : Float := 0.5
  sortRow : Float := 0.3
  nestedLoopRow : Float := 0.2
  motionSendRow : Float := 0.5
  motionReceiveRow : Float := 0.5
  materializeRow : Float := 0.2
  /-- broadcasting more rows than this costs the penalty -/
  broadcastThreshold : Float := 100000.0
  broadcastPenalty : Float := 1000000.0
  /-- the number of segments of the cluster -/
  segments : Nat := 3
  /-- how much less every further conjunct of a predicate contributes -/
  selectivityDamping : Float := 0.75
  /-- the selectivity of a predicate nothing is known about -/
  defaultSelectivity : Float := 0.4

instance : Inhabited CostParams := ⟨{}⟩

/-- A 64-bit count as the nearest float. -/
def Float.ofCount (n : Nat) : Float := n.toUInt64.toFloat

/-- The larger of two floats; one that is not a number does not count. -/
def Float.larger (x y : Float) : Float :=
  if x.isNaN then y else if y.isNaN then x else if x > y then x else y

/-- The smaller of two floats; one that is not a number does not count. -/
def Float.smaller (x y : Float) : Float :=
  if x.isNaN then y else if y.isNaN then x else if x < y then x else y

/-- The factors of a power by repeated squaring: `acc * x ^ n`. -/
def Float.powerFrom (acc x : Float) (n : Nat) : Float :=
  let acc := if n % 2 = 1 then acc * x else acc
  if n / 2 = 0 then acc else powerFrom acc (x * x) (n / 2)
termination_by n

/-- A power with a natural exponent. -/
def Float.power (x : Float) (n : Nat) : Float := powerFrom 1.0 x n

/-- The number of segments that share work; there is always one. -/
def CostParams.workers (p : CostParams) : Float := Float.ofCount (max p.segments 1)

end Cascade
