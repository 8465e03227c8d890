import Cascade.Proofs.Properties.Narrowing
import Cascade.Proofs.Properties.Stages
import Cascade.Proofs.Rules.Preservation
import Cascade.Proofs.Rules.Semijoins

/-!
Rules that put some operators in the place of one and the properties derived for either. An aggregation is split into
two with the properties of one (`Rule.splitAggregate_keeps_properties`). A join with one row has the properties of the
semi join it stands for unless a predicate that mentions no column is known of the right input alone
(`Rule.semiJoinToInnerJoin_keeps_properties_iff`).
-/

namespace Cascade

open LogicalProperties

namespace Expr

variable {σ κ : Type} {m : Memo σ κ} {source : PropertySource σ} {c : Catalog} {cs : Columns} {e : Expr}
  {p : LogicalProperties}

theorem derive_aggregate (hsource : source.logical = LogicalOp.properties c cs) (a : Aggregation)
    (h : m.derive source e = .ok p) :
    m.derive source (.ofLogical (.aggregate a) [e]) = .ok (ofAggregate a p).completed :=
  derive_ofLogical hsource (.cons h .nil) fun _ => rfl

end Expr

namespace Rule

variable {σ κ : Type} {ctx : RuleContext σ κ} {columns : Columns} {a : Aggregation} {input : Expr}

/-- The combination of partial results, each in a column of its own. -/
def staged (a : Aggregation) (partials combined : List (ColumnId × AggregateCall)) (input : Expr) : Expr :=
  .ofLogical (.aggregate ⟨a.groupBy, combined, .globalStage⟩)
    [.ofLogical (.aggregate ⟨a.groupBy, partials, .localStage⟩) [input]]

theorem stage_of_isSplittable (h : isSplittable a = true) : a.stage = .single :=
  of_decide_eq_true (Bool.and_eq_true_iff.1 (Bool.and_eq_true_iff.1 h).1).1

theorem calls_of_isSplittable (h : isSplittable a = true) : ∀ x ∈ a.aggregates, x.2.isSplittable = true := fun x hx =>
  have hcalls := List.all_eq_true.1 (Bool.and_eq_true_iff.1 h).2 x hx
  (Bool.and_eq_true_iff.1 (Bool.and_eq_true_iff.1 hcalls).1).1

theorem yields_splitAggregate (ctx : RuleContext σ κ) (columns : Columns) (input : Expr)
    (hsplittable : isSplittable a = true) :
    Yields (splitAggregate.transform ctx (.ofLogical (.aggregate a) [input])) columns
      (fun l after => ∃ partials combined, Splits a.aggregates partials combined ∧ (partials.map Prod.fst).Nodup ∧
        (∀ x ∈ partials, columns.size < x.1 ∧ x.1 ≤ after.size) ∧ l = [staged a partials combined input])
      (fun _ _ => ∃ x ∈ a.aggregates, ∃ c ∈ x.2.columns, ∀ info, columns.get c ≠ .ok info) := by
  change Yields (if !isSplittable a then _ else _) _ _ _
  rw [hsplittable]
  refine (yields_splitCalls_fresh (calls_of_isSplittable hsplittable)).bind ?_
  rintro ⟨partials, combined⟩ after ⟨hsplits, hnodup, -, hfresh⟩
  exact Yields.of_pure ⟨partials, combined, hsplits, hnodup, hfresh, rfl⟩

/-- The two steps of a split aggregation have the properties of the aggregation, if the columns that are added for
partial results are no grouping columns and no columns from outside, and the input does not have the columns of
the results. The rule answers so, unless the argument of a call is a column nothing is known of. -/
theorem splitAggregate_keeps_properties
    (hsource : ∀ columns, (ctx.source columns).logical = LogicalOp.properties ctx.catalog columns)
    (hsplittable : isSplittable a = true) {pi : LogicalProperties}
    (hinput : ctx.memo.derive (ctx.source columns) input = .ok pi) (hbuilt : pi.Built)
    (hids : ∀ x ∈ a.aggregates, x.1 ∉ pi.output) :
    ∃ p, ctx.memo.derive (ctx.source columns) (.ofLogical (.aggregate a) [input]) = .ok p ∧
      ((∀ x ∈ a.aggregates, ∀ c ∈ x.2.columns, ∃ info, columns.get c = .ok info) → ∃ alternatives after,
        (splitAggregate.transform ctx (.ofLogical (.aggregate a) [input])).run columns = (.ok alternatives, after)) ∧
      ∀ alternatives after,
        (splitAggregate.transform ctx (.ofLogical (.aggregate a) [input])).run columns = (.ok alternatives, after) →
        (∀ c, columns.size < c → c ≤ after.size → c ∉ a.groupBy ∧ c ∉ p.outerRefs) →
        ∃ lower upper, alternatives = [.ofLogical (.aggregate upper) [.ofLogical (.aggregate lower) [input]]] ∧
          lower.stage = .localStage ∧ upper.stage = .globalStage ∧
          ctx.memo.derive (ctx.source columns)
            (.ofLogical (.aggregate upper) [.ofLogical (.aggregate lower) [input]]) = .ok p ∧
          ∀ (m : Memo σ κ) (groups : List GroupId) (target : GroupId),
            List.Forall₂ (fun i g => (m.group g).map Group.logical = ctx.memo.derive (ctx.source columns) i)
              [.ofLogical (.aggregate lower) [input]] groups →
            (m.group target).map Group.logical = .ok p →
            m.verifyProperties (ctx.source after) target (.aggregate upper) groups = .ok () := by
  have hyields := yields_splitAggregate ctx columns input hsplittable
  refine ⟨_, Expr.derive_aggregate (hsource columns) a hinput, fun hknown => ?_,
    fun alternatives after hrun hfresh => ?_⟩
  · obtain ⟨alternatives, after, hrun, -⟩ := (hyields.mono (fun _ _ h => h) fun _ _ ⟨x, hx, c, hc, hunknown⟩ =>
      (hknown x hx c hc).elim hunknown).exists_run
    exact ⟨alternatives, after, hrun⟩
  · obtain ⟨partials, combined, hsplits, hnodup, hadded, rfl⟩ := hyields.of_ok hrun
    have hsingle := stage_of_isSplittable hsplittable
    have hderive : ctx.memo.derive (ctx.source columns) (staged a partials combined input) =
        .ok (ofAggregate a pi).completed := by
      obtain ⟨groupBy, calls, stage⟩ := a
      cases hsingle
      have hstages := ofStages_eq hsplits hbuilt.settled hnodup hids fun x hx =>
        hfresh x.1 (hadded x hx).1 (hadded x hx).2
      rw [← hstages]
      exact Expr.derive_aggregate (hsource columns) _ (Expr.derive_aggregate (hsource columns) _ hinput)
    refine ⟨_, _, rfl, rfl, rfl, hderive, fun m groups target hgroups htarget => ?_⟩
    exact Memo.verifyProperties_of_derive (hsource columns) (hsource after) (LogicalOp.direct_aggregate _) hderive
      hgroups htarget

end Rule

section

/-- The columns of sales with two for results. -/
def summaryColumns : Columns := ((salesColumns.append ⟨"sales", .int64, none⟩).2.append ⟨"last", .int32, none⟩).2

/-- How many sales there are in a year. -/
def yearSummary : Aggregation := ⟨[2], [(3, ⟨.count, [], false⟩), (4, ⟨.max, [.column 2], false⟩)], .single⟩

theorem splitAggregate_keeps_properties_yearSummary :
    let lower : Aggregation := ⟨[2], [(5, ⟨.count, [], false⟩), (6, ⟨.max, [.column 2], false⟩)], .localStage⟩
    let upper : Aggregation := ⟨[2], [(3, ⟨.sum, [.column 5], false⟩), (4, ⟨.max, [.column 6], false⟩)], .globalStage⟩
    let split : Expr := .ofLogical (.aggregate upper) [.ofLogical (.aggregate lower) [sales]]
    ((Rule.splitAggregate.transform salesContext (.ofLogical (.aggregate yearSummary) [sales])).run
        summaryColumns).1 = .ok [split] ∧
      ∃ p, salesContext.memo.derive (salesContext.source summaryColumns) (.ofLogical (.aggregate yearSummary) [sales]) =
          .ok p ∧
        salesContext.memo.derive (salesContext.source summaryColumns) split = .ok p := by
  intro lower upper split
  have hsales : salesContext.memo.derive (salesContext.source summaryColumns) sales = .ok _ := rfl
  have hbuilt : LogicalProperties.Built _ :=
    ⟨salesCatalog, summaryColumns, .get ⟨"sale", "sale", [2], 1, some 2⟩, [], none, hsales⟩
  obtain ⟨p, hp, -, hsplit⟩ := Rule.splitAggregate_keeps_properties (fun _ => rfl)
    (show Rule.isSplittable yearSummary = true from rfl) hsales hbuilt (by decide)
  have houter : p.outerRefs = ∅ := by
    cases hp
    rfl
  have hfresh : ∀ c, summaryColumns.size < c → c ∉ yearSummary.groupBy ∧ c ∉ p.outerRefs := fun c hc =>
    ⟨fun h => absurd (List.mem_singleton.1 h ▸ hc) (by decide), houter ▸ SortedSet.not_mem_empty c⟩
  have hrun : (Rule.splitAggregate.transform salesContext (.ofLogical (.aggregate yearSummary) [sales])).run
      summaryColumns = (.ok [split], _) := rfl
  obtain ⟨lower', upper', hsame, -, -, hderive, -⟩ := hsplit _ _ hrun fun c hc _ => hfresh c hc
  exact ⟨congrArg Prod.fst hrun, p, hp, (List.singleton_inj.1 hsame).symm ▸ hderive⟩

end

namespace Rule

variable {σ κ : Type} {ctx : RuleContext σ κ} {columns : Columns} {left right : Expr} {pl pr : LogicalProperties}

theorem derive_joinOneRow (hsource : ∀ columns, (ctx.source columns).logical = LogicalOp.properties ctx.catalog columns)
    (on : Scalar) (hl : ctx.memo.derive (ctx.source columns) left = .ok pl)
    (hr : ctx.memo.derive (ctx.source columns) right = .ok pr) :
    ctx.memo.derive (ctx.source columns) (.joinOneRow on left right pl.output) = .ok (ofOneRow on pl pr) := by
  have hlimit : ctx.memo.derive (ctx.source columns) (.ofLogical (.limit ⟨0, some 1, .none⟩) [right]) =
      .ok (oneRow pr) := Expr.derive_ofLogical (hsource columns) (.cons hr .nil) fun _ => rfl
  exact Expr.derive_ofLogical (hsource columns) (.cons (Expr.derive_join (hsource columns) .inner on hl hlimit) .nil)
    fun _ => rfl

/-- The join with one row that a semi join is replaced with has the properties of the semi join, and passes the check
against them, just if every predicate of the right input that mentions no column holds of the semi join as well. -/
theorem semiJoinToInnerJoin_keeps_properties_iff
    (hsource : ∀ columns, (ctx.source columns).logical = LogicalOp.properties ctx.catalog columns) (on : Scalar)
    (hl : ctx.memo.derive (ctx.source columns) left = .ok pl)
    (hr : ctx.memo.derive (ctx.source columns) right = .ok pr) (hleft : pl.Derivable) (hright : pr.Derivable)
    (hdisjoint : ∀ c ∈ pl.output, c ∉ pr.output) :
    ∃ p, ctx.memo.derive (ctx.source columns) (.join .leftSemi on left right) = .ok p ∧
      (semiJoinToInnerJoin.transform ctx (.join .leftSemi on left right)).run columns =
        (.ok (if pr.maxCardinality = .bounded 0 then [] else [.joinOneRow on left right pl.output]), columns) ∧
      (pr.maxCardinality ≠ .bounded 0 → ∃ q,
        ctx.memo.derive (ctx.source columns) (.joinOneRow on left right pl.output) = .ok q ∧
        (q = p ↔ ∀ x ∈ pr.constraint, x.columns = ∅ → x ∈ p.constraint) ∧
        ∀ (m : Memo σ κ) (group target : GroupId),
          (m.group group).map Group.logical =
            ctx.memo.derive (ctx.source columns) (.join .inner on left (.ofLogical (.limit ⟨0, some 1, .none⟩) [right])) →
          (m.group target).map Group.logical = .ok p →
          (m.verifyProperties (ctx.source columns) target (.project (passing pl.output)) [group] = .ok () ↔
            ∀ x ∈ pr.constraint, x.columns = ∅ → x ∈ p.constraint)) := by
  have hderive := derive_joinOneRow hsource on hl hr
  refine ⟨_, Expr.derive_join (hsource columns) .leftSemi on hl hr, run_semiJoinToInnerJoin hl hr, fun hrows => ?_⟩
  have hiff := ofOneRow_eq_iff on hleft hright hdisjoint hrows
  refine ⟨_, hderive, hiff, fun m group target hgroup htarget => ?_⟩
  rw [← hiff]
  exact Memo.verifyProperties_iff_of_derive (hsource columns) (hsource columns) (LogicalOp.direct_project _) hderive
    (.cons hgroup .nil) htarget

end Rule

section

def wantedYearProperties : LogicalProperties :=
  { LogicalProperties.empty with
    output := .singleton 1
    notNull := .singleton 1
    keys := .singleton ∅
    maxCardinality := .bounded 1 }

def salesProperties : LogicalProperties :=
  { LogicalProperties.empty with
    output := .singleton 2
    maxCardinality := .unbounded
    relations := .singleton "sale"
    partitionConsumers := .ofList [(1, 2)] }

theorem derivable_wantedYearProperties : wantedYearProperties.Derivable := by
  have h : LogicalOp.properties salesCatalog salesColumns (.values ⟨[1], [[.int32 2024]]⟩) [] none =
      .ok wantedYearProperties := eq_ok_of_toOption (by decide +kernel)
  exact .of_operator (List.forall_mem_nil _) (by nofun) (by nofun) h

theorem derivable_salesProperties : salesProperties.Derivable := by
  have h : LogicalOp.properties salesCatalog salesColumns (.get ⟨"sale", "sale", [2], 1, some 2⟩) [] none =
      .ok salesProperties := eq_ok_of_toOption (by decide +kernel)
  exact .of_operator (List.forall_mem_nil _) (by nofun) (by nofun) h

/-- Years for which there is a sale: nothing is known of all sales, and the join with one of them passes for the semi
join. -/
theorem semiJoinToInnerJoin_keeps_properties_iff_wantedYear :
    let derive := salesContext.memo.derive (salesContext.source salesColumns)
    let semi : Expr := .join .leftSemi wantedIs2024 wantedYear sales
    let alternative : Expr := .joinOneRow wantedIs2024 wantedYear sales (.singleton 1)
    (Rule.semiJoinToInnerJoin.transform salesContext semi).run salesColumns = (.ok [alternative], salesColumns) ∧
      ∃ p, derive semi = .ok p ∧ derive alternative = .ok p := by
  intro derive semi alternative
  have hl : derive wantedYear = .ok wantedYearProperties := eq_ok_of_toOption (by decide +kernel)
  have hr : derive sales = .ok salesProperties := eq_ok_of_toOption (by decide +kernel)
  have hdisjoint : ∀ c ∈ wantedYearProperties.output, c ∉ salesProperties.output := by decide
  obtain ⟨p, hp, hrun, halternative⟩ := Rule.semiJoinToInnerJoin_keeps_properties_iff (fun _ => rfl) wantedIs2024 hl hr
    derivable_wantedYearProperties derivable_salesProperties hdisjoint
  obtain ⟨q, hq, hiff, -⟩ := halternative (by decide)
  have hnone : ∀ x ∈ salesProperties.constraint, x.columns = ∅ → x ∈ p.constraint := fun x hx =>
    absurd hx (SortedSet.not_mem_empty x)
  exact ⟨hrun, p, hp, hiff.2 hnone ▸ hq⟩

/-- Sales for which something is true that never is. -/
def noSales : Expr := .select (.binary (.literal (.int32 1)) .eq (.literal (.int32 2))) sales

/-- A semi join of years with no sales at all, in a memo of its own. -/
def noSalesContext : RuleContext Unit Nat :=
  { salesContext with
    memo := (Memo.insert (salesContext.source salesColumns) (.join .leftSemi wantedIs2024 wantedYear noSales)
      (.empty true none)).2
    group := ⟨3⟩ }

def noSalesProperties : LogicalProperties :=
  { salesProperties with constraint := .singleton (.binary (.literal (.int32 1)) .eq (.literal (.int32 2))) }

theorem derivable_noSalesProperties : noSalesProperties.Derivable := by
  have h : LogicalOp.properties salesCatalog salesColumns
      (.select (.binary (.literal (.int32 1)) .eq (.literal (.int32 2)))) [salesProperties] none =
      .ok noSalesProperties := eq_ok_of_toOption (by decide +kernel)
  exact .of_operator (List.forall_mem_singleton.2 derivable_salesProperties) (by nofun) (by nofun) h

/-- Years for which there is a sale although there is none: that something untrue is true of all sales is known of the
join with one of them, but not of the semi join, and the memo refuses the alternative. -/
theorem semiJoinToInnerJoin_changes_properties_noSales :
    let derive := noSalesContext.memo.derive (noSalesContext.source salesColumns)
    let semi : Expr := .join .leftSemi wantedIs2024 (.group ⟨0⟩) (.group ⟨2⟩)
    let alternative : Expr := .joinOneRow wantedIs2024 (.group ⟨0⟩) (.group ⟨2⟩) (.singleton 1)
    derive (.group ⟨0⟩) = .ok wantedYearProperties ∧ derive (.group ⟨2⟩) = .ok noSalesProperties ∧
    wantedYearProperties.Derivable ∧ noSalesProperties.Derivable ∧
    (∀ c ∈ wantedYearProperties.output, c ∉ noSalesProperties.output) ∧
    wantedYearProperties.outerRefs = ∅ ∧ noSalesProperties.outerRefs = ∅ ∧
    (Rule.semiJoinToInnerJoin : Rule Unit Nat).promise noSalesContext (.join .leftSemi wantedIs2024) = .high ∧
    (Rule.semiJoinToInnerJoin.transform noSalesContext semi).run salesColumns = (.ok [alternative], salesColumns) ∧
    derive alternative ≠ derive semi ∧
    (noSalesContext.memo.insertInto (noSalesContext.source salesColumns) ⟨3⟩ alternative).1.isOk = false := by
  intro derive semi alternative
  have hl : derive (.group ⟨0⟩) = .ok wantedYearProperties := eq_ok_of_toOption (by decide +kernel)
  have hr : derive (.group ⟨2⟩) = .ok noSalesProperties := eq_ok_of_toOption (by decide +kernel)
  refine ⟨hl, hr, derivable_wantedYearProperties, derivable_noSalesProperties, by decide, rfl, rfl, by decide +kernel,
    ?_, fun h => ?_, by decide +kernel⟩
  · exact Rule.run_semiJoinToInnerJoin hl hr
  · exact absurd (congrArg Except.toOption h) (by decide +kernel)

end

end Cascade
