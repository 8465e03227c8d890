import Cascade.Algebra.Operator

/-!
Hints on how tables are to be read and joined. A negative hint forbids a method. A positive one
forbids nothing: alternatives that follow it are preferred over others at any cost
(`Hints.rank`).
-/

namespace Cascade

/-- Ways to read a table. -/
inductive ScanMethod
  | seq
  | index
  deriving DecidableEq, Repr

/-- Ways to join. -/
inductive JoinMethod
  | hash
  | nestLoop
  deriving DecidableEq, Repr

/-- A method that is asked for, or one that is forbidden. -/
inductive Advice (μ : Type)
  | use (method : μ)
  | avoid (method : μ)
  deriving DecidableEq, Repr

namespace Advice

def preferred? {μ : Type} : Advice μ → Option μ
  | use m => some m
  | avoid _ => none

end Advice

/-- A method an operator uses. -/
inductive Method
  | scan (method : ScanMethod)
  | join (method : JoinMethod)
  deriving DecidableEq, Repr

/-- The method a physical operator uses, if hints can speak of it. -/
def PhysicalOp.method? : PhysicalOp → Option Method
  | tableScan _ => some (.scan .seq)
  | indexScan _ => some (.scan .index)
  | hashJoin _ => some (.join .hash)
  | nestedLoopJoin _ _ => some (.join .nestLoop)
  | indexNestedLoopJoin _ => some (.join .nestLoop)
  | _ => none

/-- Hints of a query: for tables by their alias, and for joins by the aliases of all tables joined. -/
structure Hints where
  scans : List (String × Advice ScanMethod)
  joins : List (SortedSet String × Advice JoinMethod)

namespace Hints

def none : Hints := ⟨[], []⟩

instance : Inhabited Hints := ⟨none⟩

def addScan (h : Hints) (relation : String) (a : Advice ScanMethod) : Hints :=
  { h with scans := h.scans ++ [(relation, a)] }

def addJoin (h : Hints) (aliases : SortedSet String) (a : Advice JoinMethod) : Hints :=
  { h with joins := h.joins ++ [(aliases, a)] }

def isEmpty (h : Hints) : Bool := h.scans.isEmpty && h.joins.isEmpty

/-- Whether no hint forbids reading a table in a given way. -/
def allowsScan (h : Hints) (relation : String) (m : ScanMethod) : Bool :=
  !h.scans.any (fun x => decide (x = (relation, .avoid m)))

/-- Whether no hint forbids joining tables in a given way. -/
def allowsJoin (h : Hints) (relations : SortedSet String) (m : JoinMethod) : Bool :=
  !h.joins.any (fun x => decide (x = (relations, .avoid m)))

/-- Drops repetitions, keeping first occurrences. -/
def distinctMethods (seen : List Method) : List Method → List Method
  | [] => []
  | m :: rest => if m ∈ seen then distinctMethods seen rest else m :: distinctMethods (m :: seen) rest

/-- The methods asked for in a group that reads the given tables, the most preferred first. -/
def preferred (h : Hints) (relations : SortedSet String) : List Method :=
  let scans := h.scans.filterMap (fun x =>
    if relations.size = 1 ∧ x.1 ∈ relations then x.2.preferred?.map .scan else .none)
  let joins := h.joins.filterMap (fun x =>
    if x.1 = relations then x.2.preferred?.map .join else .none)
  distinctMethods [] (scans ++ joins)

/-- How strongly hints prefer an operator in a group that reads the given tables; zero if no hint
speaks of it. -/
def rank (h : Hints) (op : PhysicalOp) (relations : SortedSet String) : Nat :=
  let preferred := h.preferred relations
  match op.method? with
  | .none => 0
  | some m =>
    match preferred.findIdx? (fun p => decide (p = m)) with
    | some place => preferred.length - place
    | .none => 0

def scanName : Advice ScanMethod → String
  | .use .seq => "SeqScan"
  | .avoid .seq => "NoSeqScan"
  | .use .index => "IndexScan"
  | .avoid .index => "NoIndexScan"

def joinName : Advice JoinMethod → String
  | .use .hash => "HashJoin"
  | .use .nestLoop => "NestLoop"
  | .avoid .hash => "NoHashJoin"
  | .avoid .nestLoop => "NoNestLoop"

instance : ToString Hints where
  toString h :=
    " ".intercalate (h.scans.map (fun x => scanName x.2 ++ "(" ++ x.1 ++ ")")
      ++ h.joins.map (fun x => joinName x.2 ++ "(" ++ " ".intercalate x.1.toList ++ ")"))

end Hints
end Cascade
