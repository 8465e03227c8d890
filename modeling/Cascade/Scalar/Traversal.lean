import Cascade.Scalar.Expr

/-!
Depth-first traversals of scalar expressions in any monad: one that looks, one that rebuilds.
-/

namespace Cascade.Scalar

variable {m : Type → Type} [Monad m]

mutual

/-- Visits an expression: `enter` first, then, if it answered yes, the operands from left to right
and `leave` last. An expression that is not entered is not left either. -/
def visit (enter : Scalar → m Bool) (leave : Scalar → m Unit) : Scalar → m Unit
  | .column id => do
    if ← enter (.column id) then leave (.column id)
  | .literal value => do
    if ← enter (.literal value) then leave (.literal value)
  | .binary lhs op rhs => do
    if ← enter (.binary lhs op rhs) then
      lhs.visit enter leave
      rhs.visit enter leave
      leave (.binary lhs op rhs)
  | .not arg => do
    if ← enter (.not arg) then
      arg.visit enter leave
      leave (.not arg)
  | .isNull arg => do
    if ← enter (.isNull arg) then
      arg.visit enter leave
      leave (.isNull arg)
  | .cast arg type => do
    if ← enter (.cast arg type) then
      arg.visit enter leave
      leave (.cast arg type)
  | .call name args => do
    if ← enter (.call name args) then
      visitArgs enter leave args
      leave (.call name args)

/-- Visits arguments from left to right. -/
def visitArgs (enter : Scalar → m Bool) (leave : Scalar → m Unit) : List Scalar → m Unit
  | [] => pure ()
  | arg :: args => do
    arg.visit enter leave
    visitArgs enter leave args

end

mutual

/-- Rebuilds an expression from below: `enter` first, then, if it answered yes, the operands are
rebuilt from left to right and `leave` changes the result. An expression that is not entered is
kept as it is. -/
def rebuild (enter : Scalar → m Bool) (leave : Scalar → m Scalar) : Scalar → m Scalar
  | .column id => do
    if ← enter (.column id) then leave (.column id) else pure (.column id)
  | .literal value => do
    if ← enter (.literal value) then leave (.literal value) else pure (.literal value)
  | .binary lhs op rhs => do
    if ← enter (.binary lhs op rhs) then
      let l ← lhs.rebuild enter leave
      let r ← rhs.rebuild enter leave
      leave (.binary l op r)
    else pure (.binary lhs op rhs)
  | .not arg => do
    if ← enter (.not arg) then
      let a ← arg.rebuild enter leave
      leave (.not a)
    else pure (.not arg)
  | .isNull arg => do
    if ← enter (.isNull arg) then
      let a ← arg.rebuild enter leave
      leave (.isNull a)
    else pure (.isNull arg)
  | .cast arg type => do
    if ← enter (.cast arg type) then
      let a ← arg.rebuild enter leave
      leave (.cast a type)
    else pure (.cast arg type)
  | .call name args => do
    if ← enter (.call name args) then
      let as ← rebuildArgs enter leave args
      leave (.call name as)
    else pure (.call name args)

/-- Rebuilds arguments from left to right. -/
def rebuildArgs (enter : Scalar → m Bool) (leave : Scalar → m Scalar) : List Scalar → m (List Scalar)
  | [] => pure []
  | arg :: args => do
    let a ← arg.rebuild enter leave
    let as ← rebuildArgs enter leave args
    pure (a :: as)

end

end Cascade.Scalar
