import Cascade.Proofs.Rules.Scopes
import Cascade.Proofs.Search.Obeying

/-!
The columns that the operators of a memo name. If the tree that is inserted is in scope, then at all times all operators
of the memo are, and the columns of a group are those that each of its operators produces (`scoping`, `heeds_scoping`).
-/

namespace Cascade

open Memo

variable {σ κ : Type}

/-- Operators are in scope, and a group has the columns they produce. Enforcers are no expressions of their own. -/
def Memo.scoping : Demand
  | .logical op, p, ps =>
    p.output = op.outputOf (ps.map LogicalProperties.output) ∧ op.InScope (ps.map LogicalProperties.output)
  | .physical op, _, ps => op.isEnforcer = false ∧ op.InScope (ps.map LogicalProperties.output)

variable {m n : Memo σ κ}

/-! Trees in scope. -/

section

variable {source : PropertySource σ} {c : Catalog} {cs : Columns}
  (hsource : source.logical = LogicalOp.properties c cs)

include hsource

/-- Wherever the operators of a tree in scope are placed, their groups have the columns they produce. -/
theorem Expr.InScope.placeable {e : Expr} (h : e.InScope m) :
    Placeable m source scoping (fun e p => p.output = e.outputOver m) e := by
  induction h with
  | @group g p hp =>
    refine .group fun n q k hq => ?_
    cases (logical?_mono k hp).symm.trans hq
    exact (Memo.output_eq hp).symm
  | @logical op inputs _ hop ih =>
    refine .logical ih (fun p ps producer hps hp => ?_) fun p ps hps hd => ?_
    · rw [hsource] at hp
      exact ⟨LogicalOp.output_of_properties hp, Expr.map_output_eq hps ▸ hop⟩
    · refine hd.1.trans ?_
      rw [Expr.map_output_eq hps]
      exact (Expr.outputOver_ofLogical ..).symm

/-- A tree in scope fits into a group with the columns it produces. -/
theorem Expr.InScope.fitting {g : GroupId} {p : LogicalProperties} (hp : m.logical? g = some p) {e : Expr}
    (h : e.InScope m) (he : e.outputOver m = p.output) :
    Fitting m source scoping (fun e p => p.output = e.outputOver m) g e := by
  cases h with
  | group => exact .group
  | @logical op inputs hinputs hop =>
    refine .logical (fun i hi => (hinputs i hi).placeable hsource) fun n q ps k hq hps => ?_
    cases (logical?_mono k hp).symm.trans hq
    have hmap := Expr.map_output_eq hps
    rw [Expr.outputOver_ofLogical] at he
    exact ⟨hmap ▸ he.symm, hmap ▸ hop⟩

end

/-- Groups that are inputs have the same columns later. -/
theorem forall₂_output_of_group? (k : Extends m n) {inputs : List Expr} (hinputs : ∀ i ∈ inputs, i.InScope m)
    {named : List GroupId} (hnamed : List.Forall₂ (fun i g => Expr.group? i = some g) inputs named)
    {ps : List LogicalProperties} (hps : List.Forall₂ (fun g q => n.logical? g = some q) named ps) :
    List.Forall₂ (fun i p => p.output = i.outputOver m) inputs ps := by
  induction hnamed generalizing ps with
  | nil =>
    cases hps
    exact .nil
  | @cons i g _ _ hg _ ih =>
    obtain ⟨hi, hinputs⟩ := List.forall_mem_cons.1 hinputs
    cases hps with
    | cons hq hps =>
      refine .cons ?_ (ih hinputs hps)
      cases i with
      | node => cases hg
      | group =>
        cases hg
        cases hi with | group hp => ?_
        cases (logical?_mono k hp).symm.trans hq
        exact (Memo.output_eq hp).symm

/-- A physical operator in scope fits into any group. -/
theorem fitting_of_inScope {source : PropertySource σ} {op : PhysicalOp} {inputs : List Expr}
    (hinputs : ∀ i ∈ inputs, i.InScope m) (henforcer : op.isEnforcer = false)
    (hop : op.InScope (inputs.map (Expr.outputOver m))) (K : Expr → LogicalProperties → Prop) (g : GroupId) :
    Fitting m source scoping K g (.ofPhysical op inputs) :=
  .physical fun _ _ _ _ k hnamed _ hps => ⟨henforcer,
    Expr.map_output_eq (forall₂_output_of_group? k hinputs (forall₂_of_mapM_some hnamed) hps) ▸ hop⟩

/-! Trees of groups. -/

mutual

/-- Trees of a group are in scope and produce its columns. -/
theorem Memo.Drawn.inScope (hm : m.Obeys scoping) :
    ∀ {g : GroupId} {t : Expr} {p : LogicalProperties}, m.Drawn g t → m.logical? g = some p →
      t.InScope m ∧ t.outputOver m = p.output
  | _, _, _, .group hk, hp =>
    have hp := (logical?_congr hk).trans hp
    ⟨.group hp, Memo.output_eq hp⟩
  | _, _, _, .node he hop hg hinputs, hp => by
    obtain ⟨q, ps, hq, hps, hd⟩ := hm _ _ he
    cases ((logical?_congr hg).symm.trans hq).symm.trans hp
    rw [hop] at hd
    obtain ⟨hscope, houtput⟩ := DrawnAll.inScope hm hinputs hps
    refine ⟨.logical hscope (houtput ▸ hd.2), ?_⟩
    exact (Expr.outputOver_ofLogical ..).trans (houtput ▸ hd.1.symm)

theorem Memo.DrawnAll.inScope (hm : m.Obeys scoping) :
    ∀ {gs : List GroupId} {ts : List Expr} {ps : List LogicalProperties}, m.DrawnAll gs ts →
      List.Forall₂ (fun g q => m.logical? g = some q) gs ps →
      (∀ t ∈ ts, t.InScope m) ∧ ps.map LogicalProperties.output = ts.map (Expr.outputOver m)
  | _, _, _, .nil, .nil => ⟨List.forall_mem_nil _, rfl⟩
  | _, _, _, .cons h hs, .cons hp hps => by
    obtain ⟨hscope, houtput⟩ := Drawn.inScope hm h hp
    obtain ⟨hscopes, houtputs⟩ := DrawnAll.inScope hm hs hps
    exact ⟨List.forall_mem_cons.2 ⟨hscope, hscopes⟩, by rw [List.map_cons, List.map_cons, houtput, houtputs]⟩

end

theorem LogicalOp.Implementation.isEnforcer {op : LogicalOp} {p : PhysicalOp} (h : op.Implementation p) :
    p.isEnforcer = false := by
  cases h <;> rfl

/-- Rules keep all operators in scope. -/
theorem heeds_scoping {env : SearchEnv σ κ} {c : Catalog}
    (hsource : ∀ cs, (env.source cs).logical = LogicalOp.properties c cs) : Heeds env scoping (fun _ _ _ => True) where
  lasts _ _ := trivial
  worth _ _ _ _ := trivial
  fits := by
    intro m id e rule columns w hm he _
    obtain ⟨p, -, hp, -⟩ := hm id e he
    have hgroup : m.logical? (m.find e.group) = some p := (logical?_congr (m.find_find _)).trans hp
    refine Rule.yields_alternatives _ w.coherent fun t ht columns => ?_
    obtain ⟨hscope, houtput⟩ := (ht.drawn he rfl).inScope hm hp
    let ctx := Search.ruleContext env (m.find e.group) m
    cases hrule : rule.isExploration with
    | true =>
      refine .of_run fun alternatives after hrun x hx => ⟨fun e p => p.output = e.outputOver m, fun cs => ?_⟩
      obtain ⟨hx, hsame⟩ := Rule.inScope_of_exploration hrule (hsource columns) hscope hrun x hx
      exact hx.fitting (hsource cs) hgroup (hsame.trans houtput)
    | false =>
      have hscoped : (rule.rule : Rule σ κ).Scoped ctx := Rule.scoped_of_isExploration hrule hsource
      refine ((hscoped t columns hscope).and (Rule.implements_of_isExploration hrule ctx t columns)).mono ?_ fun _ _ _ => trivial
      rintro alternatives _ ⟨halternatives, himplements⟩ x hx
      obtain ⟨op, inputs, rfl, hinputs, hop⟩ := halternatives x hx
      obtain ⟨lop, op', inputs', -, himplementation, -, heq⟩ := himplements _ hx
      cases heq
      exact ⟨fun _ _ => True, fun cs => fitting_of_inScope hinputs himplementation.isEnforcer hop _ _⟩

end Cascade
