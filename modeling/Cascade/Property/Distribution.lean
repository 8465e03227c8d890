import Cascade.Property.Equivalence
import Cascade.Property.Ordering

/-!
Distributions of rows across the segments of a cluster, derived and required.
-/

namespace Cascade

/-- How rows are spread across the segments. -/
inductive Distribution
  /-- no particular distribution; only required, never derived -/
  | any
  /-- all rows on one node -/
  | singleton
  /-- all rows on the coordinator -/
  | strictSingleton
  /-- a copy of all rows on every segment -/
  | replicated
  /-- by the hash of some columns -/
  | hashed (columns : List ColumnId)
  | random
  /-- spread in any way that is not a singleton; only required, never derived -/
  | nonSingleton
  /-- the same rows can be produced on any node -/
  | universal
  deriving DecidableEq, Repr

/-- How hash columns are compared with the required ones. -/
inductive HashMatching
  /-- as sets -/
  | satisfy
  /-- place by place -/
  | exact
  deriving DecidableEq, Repr

/-- A distribution an operator asks for. -/
structure RequiredDistribution where
  spec : Distribution
  matching : HashMatching
  deriving DecidableEq, Repr

namespace Distribution

instance : Inhabited Distribution := ⟨any⟩

/-- Whether all rows are on a single node. -/
def isSingleton : Distribution → Bool
  | singleton | strictSingleton => true
  | _ => false

/-- Whether every column of the first list equals some column of the second. -/
def covered (e : EquivalenceClasses) (columns others : List ColumnId) : Bool :=
  columns.all (fun c => others.any (fun o => e.areEquivalent c o))

/-- Whether two lists of columns are equal place by place. -/
def alignedWith (e : EquivalenceClasses) (required derived : List ColumnId) : Bool :=
  decide (required.length = derived.length) &&
    (required.zip derived).all (fun p => e.areEquivalent p.1 p.2)

/-- Whether rows distributed this way are distributed as required. With `subset`, the hash of some of
the required columns is enough: rows that agree on all of them agree on those. -/
def satisfies (derived : Distribution) (required : RequiredDistribution) (e : EquivalenceClasses)
    (subset : Bool) : Bool :=
  match required.spec, derived with
  | any, _ => true
  | singleton, singleton => true
  | singleton, strictSingleton => true
  | singleton, universal => true
  | strictSingleton, strictSingleton => true
  | replicated, replicated => true
  | replicated, universal => true
  | universal, universal => true
  | hashed wanted, hashed columns =>
    match required.matching with
    | .exact => alignedWith e wanted columns
    | .satisfy =>
      !columns.isEmpty && covered e columns wanted && (covered e wanted columns || subset)
  | random, hashed _ => true
  | random, random => true
  | nonSingleton, hashed _ => true
  | nonSingleton, random => true
  | _, _ => false

/-- Replaces the hash columns of `source` by those at the same places in `target`; a hash column that
is not in `source` is lost and with it the distribution. -/
def mapped (d : Distribution) (source target : List ColumnId) : Distribution :=
  match d with
  | hashed columns =>
    match columns.mapM (mappedColumn? source target) with
    | some columns => hashed columns
    | none => random
  | d => d

/-- Whether every hash column belongs to a set. -/
def within (d : Distribution) (columns : ColumnSet) : Bool :=
  match d with
  | hashed hash => hash.all (fun c => decide (c ∈ columns))
  | _ => true

instance : ToString Distribution where
  toString
    | any => "Any"
    | singleton => "Singleton"
    | strictSingleton => "StrictSingleton"
    | replicated => "Replicated"
    | hashed columns => "Hashed" ++ Text.bracketed columns
    | random => "Random"
    | nonSingleton => "NonSingleton"
    | universal => "Universal"

end Distribution

namespace RequiredDistribution

def any : RequiredDistribution := ⟨.any, .satisfy⟩

instance : Inhabited RequiredDistribution := ⟨any⟩

def singleton : RequiredDistribution := ⟨.singleton, .satisfy⟩

def replicated : RequiredDistribution := ⟨.replicated, .satisfy⟩

/-- A copy on every segment that correctness asks for, whatever it costs. -/
def mandatoryReplicated : RequiredDistribution := ⟨.replicated, .exact⟩

def nonSingleton : RequiredDistribution := ⟨.nonSingleton, .satisfy⟩

def hashed (columns : List ColumnId) : RequiredDistribution := ⟨.hashed columns, .satisfy⟩

def exactHashed (columns : List ColumnId) : RequiredDistribution := ⟨.hashed columns, .exact⟩

def isAny (r : RequiredDistribution) : Bool := decide (r.spec = .any)

def isMandatoryReplication (r : RequiredDistribution) : Bool :=
  decide (r.spec = .replicated) && decide (r.matching = .exact)

instance : ToString RequiredDistribution where
  toString r := toString r.spec ++ if r.matching = .exact then "(exact)" else ""

end RequiredDistribution
end Cascade
