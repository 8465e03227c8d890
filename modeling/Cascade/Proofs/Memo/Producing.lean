import Cascade.Proofs.Memo.Demands
import Cascade.Proofs.Properties.Building

/-!
The columns of groups. A memo is filled by operations that derive properties of operators; an alternative is compared
with its group, or produces the columns the group has (`Filled`). In such a memo a group has the columns that each of its
operators produces over its inputs, so the group a query of a builder gets has the columns the builder lists
(`output_of_insert_made`).
-/

namespace Cascade

open Memo

variable {σ κ : Type} {m n : Memo σ κ}

/-- Properties are those of operators, over whatever catalog and columns. -/
def PropertySource.OfOperators (source : PropertySource σ) : Prop :=
  ∃ c cs, source.logical = LogicalOp.properties c cs

theorem PropertySource.OfOperators.output {source : PropertySource σ} (h : source.OfOperators) {op : LogicalOp}
    {ps : List LogicalProperties} {producer : Option LogicalProperties} {p : LogicalProperties}
    (hp : source.logical op ps producer = .ok p) : p.output = op.outputOf (ps.map LogicalProperties.output) := by
  obtain ⟨c, cs, hsource⟩ := h
  rw [hsource] at hp
  exact LogicalOp.output_of_properties hp

/-- A group has the columns its logical operators produce. -/
def Memo.producing : Demand
  | .logical op, p, ps => p.output = op.outputOf (ps.map LogicalProperties.output)
  | .physical _, _, _ => True

namespace Expr

/-- All groups of a tree are known. -/
inductive Grounded (m : Memo σ κ) : Expr → Prop
  | group {g : GroupId} {p : LogicalProperties} (h : m.logical? g = some p) : Grounded m (.group g)
  | node {op : Operator} {inputs : List Expr} (hinputs : ∀ e ∈ inputs, Grounded m e) : Grounded m (.node op inputs)

theorem InScope.grounded {e : Expr} (h : e.InScope m) : e.Grounded m := by
  induction h with
  | group hp => exact .group hp
  | logical _ _ ih => exact .node ih

section

variable {source : PropertySource σ} (hsource : source.OfOperators)
include hsource

/-- New groups have the columns that their operators produce, whatever the tree. -/
theorem placeable_producing (e : Expr) : Placeable m source producing (fun _ _ => True) e := by
  induction e using Expr.induction with
  | group g => exact .group fun _ _ _ _ => trivial
  | node op inputs ih =>
    cases op with
    | physical op => exact .physical
    | logical op => exact .logical ih (fun _ _ _ _ hp => hsource.output hp) fun _ _ _ _ => trivial

/-- The group of a tree over known groups has the columns the tree produces. -/
theorem Grounded.placeable {e : Expr} (h : e.Grounded m) :
    Placeable m source producing (fun e p => p.output = e.outputOver m) e := by
  induction h with
  | @group g p hp =>
    refine .group fun n q k hq => ?_
    cases (logical?_mono k hp).symm.trans hq
    exact (Memo.output_eq hp).symm
  | @node op inputs _ ih =>
    cases op with
    | physical op => exact .physical
    | logical op =>
      refine .logical ih (fun _ _ _ _ hp => hsource.output hp) fun p ps hps hd => ?_
      refine (hd : p.output = _).trans ?_
      rw [map_output_eq hps]
      exact (outputOver_ofLogical ..).symm

end

/-- A tree may be added to a group: it produces the columns of the group, over known groups. A group may be merged with
the other one only if it has the same properties, and physical operators are chosen for logical ones. -/
def FitsGroup (m : Memo σ κ) (g : GroupId) : Expr → Prop
  | .node (.logical op) inputs => (∀ e ∈ inputs, e.Grounded m) ∧
      ∃ p, m.logical? g = some p ∧ (ofLogical op inputs).outputOver m = p.output
  | _ => True

end Expr

/-- An insertion derives the properties of operators. What it adds to a group is compared with it, or has its columns. -/
def Memo.Operation.Fills (m : Memo σ κ) : Operation σ κ → Prop
  | .insert source _ => source.OfOperators
  | .insertInto source g e => source.OfOperators ∧ (m.verify = true ∨ e.FitsGroup m g)
  | _ => True

namespace Builder

variable {b : Builder} {q : Query}

theorem run_build (h : b.current = some q) (s : Session) : b.build.run s = (.ok q.expr, s) := by
  cases b
  cases h
  rfl

theorem run_columns (h : b.current = some q) (s : Session) : b.columns.run s = (.ok q.columns, s) := by
  cases b
  cases h
  rfl

theorem exists_of_run_build {s t : Session} {e : Expr} (h : b.build.run s = (.ok e, t)) :
    ∃ q, b.current = some q ∧ q.expr = e := by
  cases hq : b.current with
  | none =>
    cases b
    cases hq
    cases h
  | some q =>
    rw [run_build hq] at h
    cases h
    exact ⟨q, rfl, rfl⟩

end Builder

section

variable [LT κ] [DecidableLT κ]

/-- Memos that are filled step by step. -/
inductive Memo.Filled : Memo σ κ → Prop
  | empty (verify : Bool) (limit : Option Nat) : Filled (.empty verify limit)
  | apply {m : Memo σ κ} {op : Operation σ κ} (hm : Filled m) (hop : op.Fills m) : Filled (m.apply op)

/-- An alternative that is accepted produces the columns of its group. -/
theorem Memo.Obeys.insertInto_producing (h : m.Obeys producing) (w : m.WellFormed) {source : PropertySource σ}
    (hsource : source.OfOperators) {g : GroupId} {e : Expr} (he : m.verify = true ∨ e.FitsGroup m g) :
    (m.insertInto source g e).2.Obeys producing := by
  refine h.insertAt w (m.target_find g) ?_
  have hfitting : ∀ {e}, Fitting m source producing (fun _ _ => True) (m.find g) e →
      Yields (copyIn source (some (m.find g)) 0 e : InsertM σ κ Placed) ⟨m, [], []⟩ (fun _ u => u.memo.Obeys producing)
        (fun _ _ => True) := fun hf => hf.yields_copyIn (copying_start w) h 0
  match e, he with
  | .group k, _ => exact hfitting .group
  | .node (.physical op) inputs, _ => exact hfitting (.physical fun _ _ _ _ _ _ _ _ => trivial)
  | .node (.logical op) inputs, .inl hverify =>
    refine yields_copyIn_alternative (fun e _ => e.placeable_producing hsource)
      (fun n groups p ps k hn hp hps _ hchecked => ?_) (copying_start w) h 0
    unfold checkAlternative at hchecked
    rw [if_pos (hn.trans hverify)] at hchecked
    obtain ⟨q, hq, qs, producer, hqs, hderived, -⟩ := derives_of_verifyProperties hchecked
    cases hq.symm.trans hp
    cases forall₂_logical?_unique hqs hps
    exact hsource.output hderived
  | .node (.logical op) inputs, .inr ⟨hinputs, q, hq, houtput⟩ =>
    refine yields_copyIn_alternative (fun e he => (hinputs e he).placeable hsource)
      (fun n groups p ps k _ hp _ hps _ => ?_) (copying_start w) h 0
    cases ((logical?_congr (k.find (m.find_find g))).trans (logical?_mono k hq)).symm.trans hp
    rw [Expr.outputOver_ofLogical] at houtput
    exact houtput.symm.trans (congrArg op.outputOf (Expr.map_output_eq hps).symm)

/-- The operators of a memo that is filled step by step produce the columns of their groups. -/
theorem Memo.Filled.obeys (h : m.Filled) : m.WellFormed ∧ m.Obeys producing := by
  induction h with
  | empty verify limit => exact ⟨wellFormed_empty verify limit, obeys_empty _ verify limit⟩
  | @apply m op _ hop ih =>
    obtain ⟨w, h⟩ := ih
    refine ⟨wellFormed_apply w op, ?_⟩
    cases op with
    | insert source e =>
      refine h.insertAt w m.target_none ?_
      exact (Placeable.yields_copyIn 0 e (e.placeable_producing hop) (copying_start w) h).mono (fun _ _ hu => hu.2.1)
        fun _ _ _ => trivial
    | insertInto source g e => exact h.insertInto_producing w hop.1 hop.2
    | _ => exact h.sameShape (m.sameShape_apply rfl)

/-- If the query of a builder is inserted, the builder lists the columns that are derived for its group. The steps may be
taken in any order, with any builders made before, and the memo may have been filled in any way. -/
theorem output_of_insert_made (hm : m.Filled) {source : PropertySource σ} (hsource : source.OfOperators) {c : Catalog}
    {b : Builder} (hb : b.Made c) {s t : Session} {e : Expr} (hbuild : b.build.run s = (.ok e, t)) {g : GroupId}
    (h : m.insert source e = (.ok g, n)) :
    ∃ columns p, b.columns.run s = (.ok columns, s) ∧ n.logical? g = some p ∧ p.output = .ofList columns := by
  obtain ⟨w, hobeys⟩ := hm.obeys
  obtain ⟨q, hq, rfl⟩ := Builder.exists_of_run_build hbuild
  have hscope := hb.inScope m q hq
  obtain ⟨-, p, hp, houtput⟩ := (hscope.expr.grounded.placeable hsource).insert hobeys w h
  exact ⟨q.columns, p, Builder.run_columns hq s, hp, houtput.trans hscope.output⟩

end

section

/-- Two years, and how often each is among them: the rows are shared, and read as a common table expression. -/
def yearCounts : BuildM Builder := do
  let years ← Builder.values .empty [[.int32 2024], [.int32 2025]]
  let cte ← years.registerCte
  let read ← Builder.cteConsumer .empty cte
  let counts ← read.aggregate [2] [⟨.count, [], false⟩]
  let body ← years.join counts .inner (.binary (.column 1) .eq (.column 2))
  years.cteAnchor cte body

theorem made_yearCounts {s t : Session} {b : Builder} (h : yearCounts.run s = (.ok b, t)) : b.Made ⟨∅, ∅⟩ := by
  have hsteps : Yields yearCounts s (fun b _ => b.Made ⟨∅, ∅⟩) (fun _ _ => True) :=
    ((Builder.Steps.values .empty _).yields_made _).bind fun _ _ hyears => (Yields.any _ _).bind fun cte _ _ =>
      ((Builder.Steps.cteConsumer .empty cte).yields_made _).bind fun _ _ hread =>
        ((Builder.Steps.aggregate hread _ _).yields_made _).bind fun _ _ hcounts =>
          ((Builder.Steps.join hyears hcounts _ _).yields_made _).bind fun _ _ hbody =>
            (Builder.Steps.cteAnchor hyears cte hbody).yields_made _
  exact hsteps.of_ok h

def operatorSource : PropertySource Unit where
  logical := LogicalOp.properties ⟨∅, ∅⟩ .empty
  statistics _ _ _ := .ok ()

/-- The rows alone, and the same again as rows that satisfy `true`. -/
def yearsMemo : Memo Unit Nat :=
  ((empty true none).apply (.insert operatorSource (.ofLogical (.values ⟨[1], [[.int32 2024], [.int32 2025]]⟩) []))).apply
    (.insertInto operatorSource ⟨0⟩ (.ofLogical (.select .true) [.group ⟨0⟩]))

theorem filled_yearsMemo : yearsMemo.Filled :=
  have hsource : operatorSource.OfOperators := ⟨_, _, rfl⟩
  .apply (.apply (.empty true none) hsource) ⟨hsource, .inl (by decide +kernel)⟩

/-- The root group has the columns of the years, of their copies and of the counts. -/
theorem output_of_insert_made_yearCounts : ∃ b s e g n p, yearCounts.run .empty = (.ok b, s) ∧
    b.build.run s = (.ok e, s) ∧ yearsMemo.insert operatorSource e = (.ok g, n) ∧ n.logical? g = some p ∧
      p.output = .ofList [1, 2, 3] := by
  have hrun : (((yearCounts.run .empty).1.toOption.bind Builder.current).map fun q =>
      ((yearsMemo.insert operatorSource q.expr).1.isOk, q.columns)) = some (true, [1, 2, 3]) := by decide +kernel
  obtain ⟨q, hq, hfacts⟩ := Option.map_eq_some_iff.1 hrun
  obtain ⟨hok, hcolumns⟩ := Prod.mk.inj hfacts
  cases hyears : yearCounts.run .empty with
  | mk built s =>
    rw [hyears] at hq
    cases built with
    | error err => cases hq
    | ok b =>
      cases hinsert : yearsMemo.insert operatorSource q.expr with
      | mk r n =>
        rw [hinsert] at hok
        cases r with
        | error err => cases hok
        | ok g =>
          have hbuild : b.build.run s = (.ok q.expr, s) := Builder.run_build hq s
          obtain ⟨columns, p, hlisted, hp, houtput⟩ :=
            output_of_insert_made filled_yearsMemo ⟨_, _, rfl⟩ (made_yearCounts hyears) hbuild hinsert
          cases (Builder.run_columns hq s).symm.trans hlisted
          exact ⟨b, s, q.expr, g, n, p, rfl, hbuild, hinsert, hp, houtput.trans (congrArg _ hcolumns)⟩

end

end Cascade
