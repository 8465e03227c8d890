import Cascade.Memo.Merge

/-!
Insertion of expression trees. A tree is copied from its leaves: operators that the memo knows are
found again, others are added. What an insertion that fails has added by then is taken away again
(`Memo.rollback`).
-/

namespace Cascade.Memo

variable {σ κ : Type}

/-- A memo while a tree is copied into it, the common table expressions registered on the way, and the
merges that are to follow. -/
structure Insertion (σ κ : Type) where
  memo : Memo σ κ
  newCtes : List CteId
  merges : List Merge

/-- A step of an insertion; an error leaves the memo as it was reached. -/
abbrev InsertM (σ κ : Type) := ExceptT PlanError (StateM (Insertion σ κ))

/-- How many groups and expressions there were before an insertion. -/
structure Mark where
  groups : Nat
  exprs : Nat

def mark (m : Memo σ κ) : Mark := ⟨m.groups.length, m.exprs.length⟩

/-- Takes away the groups and expressions added since a mark and the newly registered producers. -/
def rollback (m : Memo σ κ) (mark : Mark) (newCtes : List CteId) : Memo σ κ :=
  let old (e : ExprId) : Bool := decide (e.index < mark.exprs)
  { m with
    groups := (m.groups.take mark.groups).map (fun x => { x with members := x.members.filter old })
    links := m.links.truncate mark.groups
    exprs := m.exprs.take mark.exprs
    index := m.index.filter (fun _ e => old e)
    cteProducers := m.cteProducers.filter (fun cte _ => !decide (cte ∈ newCtes)) }

/-- Where an expression was put: its group and, if it is new, its number. -/
structure Placed where
  group : GroupId
  expr : Option ExprId
  deriving DecidableEq

/-- Asks for a merge of the group an expression was found in with the one it was meant for. -/
def requestMerge (target : Option GroupId) (group : GroupId) : InsertM σ κ Unit :=
  match target with
  | none => pure ()
  | some t =>
    if t = group then pure ()
    else modify (fun s => { s with merges := s.merges ++ [(t, group)] })

def estimate (m : Memo σ κ) (g : GroupId) : Except PlanError (LogicalProperties × σ) :=
  (m.group g).map (fun x => (x.logical, x.statistics))

/-- Properties of a new group that starts with an operator. -/
def buildProperties (m : Memo σ κ) (source : PropertySource σ) (op : LogicalOp) (inputs : List GroupId) :
    Except PlanError (LogicalProperties × σ) := do
  let inputs ← inputs.mapM m.estimate
  let producer := (m.producerOf? op).bind m.group?
  let logical ← source.logical op (inputs.map Prod.fst) (producer.map Group.logical)
  let statistics ← source.statistics op inputs (producer.map Group.statistics)
  pure (logical, statistics)

/-- Refuses an operator that has other properties than the group it is meant for. -/
def verifyProperties (m : Memo σ κ) (source : PropertySource σ) (g : GroupId) (op : LogicalOp)
    (inputs : List GroupId) : Except PlanError Unit := do
  let inputs ← inputs.mapM (fun i => (m.group i).map Group.logical)
  let producer := (m.producerOf? op).bind m.group?
  let logical ← source.logical op inputs (producer.map Group.logical)
  let expected ← (m.group g).map Group.logical
  if logical = expected then pure ()
  else
    throw (.internal ("Logical properties of " ++ toString op ++ " differ from logical properties of group "
      ++ toString g ++ ": " ++ toString logical ++ " != " ++ toString expected))

/-- Refuses an alternative with other properties than its group, if the memo compares them. -/
def checkAlternative (m : Memo σ κ) (source : PropertySource σ) (g : GroupId) (op : LogicalOp)
    (inputs : List GroupId) : Except PlanError Unit :=
  if m.verify then m.verifyProperties source g op inputs else .ok ()

/-- Refuses one expression more than the limit allows. -/
def checkLimit (m : Memo σ κ) : Except PlanError Unit :=
  if m.limit.any (fun limit => decide (limit ≤ m.exprCount)) then
    .error (.exhausted .memoLimit ("The number of memo expressions exceeds the limit: "
      ++ toString (m.limit.getD 0)))
  else .ok ()

/-- Refuses trees that are nested too deeply. -/
def checkDepth (depth : Nat) : Except PlanError Unit :=
  if maxDepth < depth then .error (.tooDeep maxDepth) else .ok ()

def addGroup (m : Memo σ κ) (logical : LogicalProperties) (statistics : σ) : GroupId × Memo σ κ :=
  let group : Group σ := ⟨[], logical, statistics, false, false, [], ∅⟩
  (⟨m.groups.length⟩, { m with groups := m.groups ++ [group], links := m.links.add })

def addExpr (m : Memo σ κ) (g : GroupId) (key : ExprKey) : ExprId × Memo σ κ :=
  let id : ExprId := ⟨m.exprs.length⟩
  let e : MemoExpr := ⟨g, key.op, key.inputs, ∅, false, false, [], false⟩
  let m := { m with exprs := m.exprs ++ [e], index := m.index.set key id }
  (id, m.modifyGroup g (fun x => { x with members := x.members ++ [id] }))

/-- The group a new expression is added to: the one it is meant for, which has to be there, else a new
one. -/
def chooseGroup (source : PropertySource σ) (target : Option GroupId) (key : ExprKey) :
    InsertM σ κ GroupId := do
  let s ← get
  match target, key.op with
  | some t, .logical op => do
    liftM (s.memo.checkAlternative source t op key.inputs)
    liftM (s.memo.checkedFind t)
  | some t, .physical _ => liftM (s.memo.checkedFind t)
  | none, .logical op => do
    let (logical, statistics) ← liftM (s.memo.buildProperties source op key.inputs)
    let (g, m) := s.memo.addGroup logical statistics
    set { s with memo := m }
    pure g
  | none, .physical op => throw (.internal (toString op ++ ": Physical expression without a group"))

/-- Finds the expression with a key or adds it. -/
def place (source : PropertySource σ) (target : Option GroupId) (key : ExprKey) :
    InsertM σ κ Placed := do
  let m := (← get).memo
  match m.index.get? key with
  | some known =>
    let e ← liftM (m.expr known)
    let group := m.find e.group
    requestMerge target group
    pure ⟨group, none⟩
  | none =>
    liftM m.checkLimit
    let group ← chooseGroup source target key
    modifyGet (fun s =>
      let (id, m) := s.memo.addExpr group key
      (⟨group, some id⟩, { s with memo := m }))

/-- Refuses a number of inputs the operator cannot have. -/
def checkInputs (op : Operator) (inputs : Nat) : Except PlanError Unit :=
  match op.arity with
  | some n =>
    if inputs = n then .ok ()
    else
      .error (.argument (op.name ++ ": Expected " ++ toString n ++ " inputs but got " ++ toString inputs))
  | none => .ok ()

/-- A physical expression goes to a known group, and its inputs are groups. -/
def physicalInputs (m : Memo σ κ) (target : Option GroupId) (op : PhysicalOp) (inputs : List Expr) :
    Except PlanError (List GroupId) :=
  if target.isNone then
    .error (.internal (toString op ++ ": A physical expression must be added to an existing group"))
  else
    match inputs.mapM Expr.group? with
    | some groups => groups.mapM m.checkedFind
    | none => .error (.internal (toString op ++ ": Inputs of a physical expression must be memo groups"))

/-- Makes a group the producer of a common table expression, unless that has one. -/
def registerProducer (cte : Option CteId) (g : GroupId) : InsertM σ κ Unit :=
  match cte with
  | none => pure ()
  | some cte => modify (fun s =>
      if s.memo.cteProducers.contains cte then s
      else
        { s with
          memo := { s.memo with cteProducers := s.memo.cteProducers.set cte g }
          newCtes := s.newCtes ++ [cte] })

/-- The common table expression the first input of an operator produces. -/
def producedCte? : LogicalOp → Option CteId
  | .cteAnchor cte => some cte
  | _ => none

mutual

/-- Copies a tree into the memo, to a given group or wherever it belongs. -/
def copyIn (source : PropertySource σ) (target : Option GroupId) (depth : Nat) :
    Expr → InsertM σ κ Placed
  | .group g => do
    liftM (checkDepth depth)
    let group ← liftM ((← get).memo.checkedFind g)
    requestMerge target group
    pure ⟨group, none⟩
  | .node (.physical op) inputs => do
    liftM (checkDepth depth)
    liftM (checkInputs (.physical op) inputs.length)
    let groups ← liftM ((← get).memo.physicalInputs target op inputs)
    place source target ⟨.physical op, groups⟩
  | .node (.logical op) inputs => do
    liftM (checkDepth depth)
    liftM (checkInputs (.logical op) inputs.length)
    let groups ← copyInputs source (depth + 1) (producedCte? op) inputs
    place source target ⟨.logical op, groups⟩

/-- Copies inputs into the memo; the first one can be the producer of a common table expression,
which the others may read. -/
def copyInputs (source : PropertySource σ) (depth : Nat) (cte : Option CteId) :
    List Expr → InsertM σ κ (List GroupId)
  | [] => pure []
  | e :: es => do
    let placed ← copyIn source none depth e
    registerProducer cte placed.group
    let groups ← copyInputs source depth none es
    pure (placed.group :: groups)

end

/-- Copies a tree into the memo and carries out the merges this brings about. If the tree cannot be
copied, or groups with different properties would be merged, everything is undone. -/
def insertAt [LT κ] [DecidableLT κ] (source : PropertySource σ) (target : Option GroupId) (e : Expr)
    (m : Memo σ κ) : Except PlanError Placed × Memo σ κ :=
  match (copyIn source target 0 e).run ⟨m, [], []⟩ with
  | (.error err, s) => (.error err, s.memo.rollback m.mark s.newCtes)
  | (.ok placed, s) =>
    match s.memo.checkMerges s.merges with
    | .error err => (.error err, s.memo.rollback m.mark s.newCtes)
    | .ok () =>
      match s.memo.mergeAll s.merges with
      | (.error err, merged) => (.error err, merged)
      | (.ok (), merged) => (.ok { placed with group := merged.find placed.group }, merged)

/-- Inserts a tree and answers its group. -/
def insert [LT κ] [DecidableLT κ] (source : PropertySource σ) (e : Expr) (m : Memo σ κ) :
    Except PlanError GroupId × Memo σ κ :=
  let (placed, m) := m.insertAt source none e
  (placed.map Placed.group, m)

/-- Inserts a tree as another expression of a group. If the tree is known as a member of another
group the two groups are merged. -/
def insertInto [LT κ] [DecidableLT κ] (source : PropertySource σ) (g : GroupId) (e : Expr)
    (m : Memo σ κ) : Except PlanError Placed × Memo σ κ :=
  m.insertAt source (some (m.find g)) e

end Cascade.Memo
