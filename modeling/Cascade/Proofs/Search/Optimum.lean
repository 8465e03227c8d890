import Mathlib.Algebra.GroupWithZero.Nat
import Cascade.Proofs.Search.Jobs
import Cascade.Proofs.Search.Plans
import Cascade.Search.Optimizer

/-!
The whole search. It begins with a sound memo, every stage leaves one, and the plan is read off the last,
so a plan that is found is valid and provides what was required (`optimize_valid`).
-/

namespace Cascade

open Memo Search

variable {σ κ : Type}

theorem follows_resetSearch {subset : Bool} {s : SearchState σ κ} (hs : s.memo.Sound subset) :
    Follows subset s
      { s with
        memo := if s.stats.stages = 0 then s.memo else s.memo.resetSearch
        stats := { s.stats with stages := s.stats.stages + 1 } } := by
  by_cases hfirst : s.stats.stages = 0
  · rw [if_pos hfirst]
    exact ⟨hs, .refl _⟩
  · rw [if_neg hfirst]
    exact follows_of_inherits hs s.memo.inherits_resetSearch s.memo.sameShape_resetSearch

/-- An insertion into an empty memo leaves a sound memo that knows the group of the tree. -/
theorem sound_insert [LT κ] [DecidableLT κ] {verify : Bool} {limit : Option Nat} {source : PropertySource σ}
    {e : Expr} {root : GroupId} {m : Memo σ κ}
    (h : (Memo.empty verify limit : Memo σ κ).insert source e = (.ok root, m)) (subset : Bool) :
    m.Sound subset ∧ ∃ l, m.logical? root = some l := by
  have hempty := sound_empty (σ := σ) (κ := κ) verify limit subset
  unfold Memo.insert at h
  rcases insertAt_cases source e hempty.wellFormed (target_none _) with ⟨err, heq⟩ | ⟨placed, s, n, -, heq, hn⟩
  · rw [heq] at h
    cases h
  · rw [heq] at h
    cases h
    refine ⟨hempty.inherits (hn.copying.toInherits.trans hn.progress.toInherits) hn.wellFormed, ?_⟩
    have hknown : m.Knows (m.find placed.group) := knows_find ((hn.progress.knows_iff _).2 hn.placed_survives.1)
    obtain ⟨x, hx⟩ := exists_content hknown
    exact ⟨x.logical, logical?_of_stores (m.find_find _) hx⟩

section

variable [Zero κ] [Add κ] [LT κ] [DecidableLT κ] (setup : OptimizerSetup σ κ)

theorem follows_runStage (stage : SearchStage) (root : GroupId) (required : Required) {s t : SearchState σ κ}
    (hs : s.memo.Sound setup.config.subsetHashMatching) {o : Outcome StageEnd}
    (hrun : runStage setup stage root required s = (o, t)) (ho : o.isRegular = true) :
    Follows setup.config.subsetHashMatching s t := by
  have hjob : ValidJob s.memo (.optimizeGroup (s.memo.find root) required false []) := trivial
  cases hrun
  exact Scheduler.invariant_run (keeps_jobs (environment setup stage) s) _ _ (.refl hs) hjob rfl ho

theorem yields_runStages (root : GroupId) (required : Required) (stages : List SearchStage)
    (exhausted : Option Resource) {s t : SearchState σ κ}
    (hst : Follows setup.config.subsetHashMatching s t) :
    Yields (runStages setup root required stages exhausted) t
      (fun _ u => Follows setup.config.subsetHashMatching s u) (fun _ _ => True) := by
  -- on the stages
  induction stages generalizing exhausted t with
  | nil => exact .of_pure hst
  | cons stage rest ih =>
    have hstart := hst.trans (follows_resetSearch hst.sound)
    refine .bind_modify (.bind_modifyGet ?_)
    generalize hrun : runStage setup stage root required _ = r
    obtain ⟨o, u⟩ := r
    have hstage := fun ho => hstart.trans (follows_runStage setup stage root required hstart.sound hrun ho)
    cases o with
    | completed =>
      refine .bind_memo ?_
      split
      · exact .of_pure (hstage rfl)
      · exact ih none (hstage rfl)
    | interrupted reason =>
      cases reason with
      | cheapEnough => exact .of_pure (hstage rfl)
      | exhausted r => exact ih (some r) (hstage rfl)
    | failed err => exact .of_throw trivial
    | outOfFuel => exact .of_throw trivial

/-- The plan that is found is that of a context which the stages leave for what was required. -/
theorem offered_of_optimize {e : Expr} {required : Required} {columns after : Columns} {o : Optimized κ}
    (h : optimize setup e required columns = (.ok o, after)) :
    ∃ root inserted exhausted last id,
      (Memo.empty setup.config.verifyProperties (some setup.config.memoLimit) : Memo σ κ).insert
        (setup.source columns) e = (.ok root, inserted) ∧
      (runStages setup root required setup.config.searchStages none).run ⟨inserted, columns, .none⟩ =
        (.ok exhausted, last) ∧
      Follows setup.config.subsetHashMatching ⟨inserted, columns, .none⟩ last ∧
      last.memo.Offered id root required ∧ last.memo.plan id = .ok o.plan := by
  unfold optimize at h
  dsimp only at h
  split at h
  · cases congrArg Prod.fst h
  · rename_i root inserted hinsert
    obtain ⟨hsound, -⟩ := sound_insert hinsert setup.config.subsetHashMatching
    have hrun := yields_runStages setup root required setup.config.searchStages none
      (s := ⟨inserted, columns, .none⟩) (.refl hsound)
    generalize hstages : (runStages setup root required setup.config.searchStages none).run
      ⟨inserted, columns, .none⟩ = r at h
    obtain ⟨ended, last⟩ := r
    obtain ⟨exhausted, rfl, hresult⟩ := exists_of_bind_ok (congrArg Prod.fst h)
    have hlast := hrun.of_ok hstages
    unfold result at hresult
    split at hresult
    · rename_i id w hwinner
      obtain ⟨plan, hplan, hresult⟩ := exists_of_bind_ok hresult
      cases hresult
      exact ⟨root, inserted, _, last, id, hinsert, hstages, hlast, (hlast.sound.winner hwinner).2, hplan⟩
    · cases hresult
    · cases hresult

/-- A plan that is found provides what was required of it, and it is valid in every node: its operators
have as many inputs as they need, the inputs provide what one request asks of them, and what is recorded of
a node is what its operator derives from its inputs. The memo is the one the search leaves, and the logical
properties are those the tree got when it was inserted. -/
theorem optimize_valid (e : Expr) (required : Required) (columns : Columns) {o : Optimized κ} {after : Columns}
    (h : optimize setup e required columns = (.ok o, after)) :
    ∃ root inserted exhausted last logical,
      (Memo.empty setup.config.verifyProperties (some setup.config.memoLimit) : Memo σ κ).insert
        (setup.source columns) e = (.ok root, inserted) ∧
      (runStages setup root required setup.config.searchStages none).run ⟨inserted, columns, .none⟩ =
        (.ok exhausted, last) ∧
      inserted.logical? root = some logical ∧ last.memo.logical? root = some logical ∧
      o.plan.derived.satisfies required logical.equivalences setup.config.subsetHashMatching = true ∧
      ValidPlan last.memo setup.config.subsetHashMatching root required o.plan := by
  obtain ⟨root, inserted, exhausted, last, id, hinsert, hstages, hlast, hoffered, hplan⟩ := offered_of_optimize setup h
  obtain ⟨-, logical, hlogical⟩ := sound_insert hinsert setup.config.subsetHashMatching
  have hkept := logical?_mono hlast.extends_ hlogical
  obtain ⟨c, -, -, hvalid⟩ := planOf_planAt hlast.sound _ hplan
  obtain ⟨hvalid, l, hl, hmeets⟩ := hvalid root required hoffered
  cases hl.symm.trans hkept
  exact ⟨root, inserted, exhausted, last, logical, hinsert, hstages, hlogical, hkept, hmeets, hvalid⟩

end

section

/-- A setup without tables in which every operator costs one unit. -/
def unitSetup : OptimizerSetup Unit Nat where
  catalog := .empty
  config := {}
  hints := .none
  costModel _ s := 1 + s.inputCosts.sum
  source columns := { logical := LogicalOp.properties .empty columns, statistics := fun _ _ _ => .ok () }
  order := [.valuesToConstTableGet, .implementLimit]
  costOf _ := 0
  cancelled := false
  clock _ := 0
  fuel := 100

def oneColumn : Columns := ⟨#[⟨"a", .int32, none⟩]⟩

def twoRows : ConstantRows := ⟨[1], [[.int32 2], [.int32 1]]⟩

def leastRow : RowLimit := ⟨0, some 1, .ascending [1]⟩

/-- The least of two rows is found by a sort above the rows. -/
theorem optimize_valid_leastRow :
    ∃ o after, optimize unitSetup (.node (.logical (.limit leastRow)) [.node (.logical (.values twoRows)) []])
        .none oneColumn = (.ok o, after) ∧
      o.plan.ops = [.limit leastRow, .sort (.ascending [1]), .constTableGet twoRows] ∧
      ∃ (m : Memo Unit Nat) (root : GroupId), ValidPlan m false root .none o.plan := by
  have hops : (optimize unitSetup (.node (.logical (.limit leastRow)) [.node (.logical (.values twoRows)) []])
      .none oneColumn).1.toOption.map (fun o => o.plan.ops) =
        some [.limit leastRow, .sort (.ascending [1]), .constTableGet twoRows] := by decide +kernel
  cases h : optimize unitSetup (.node (.logical (.limit leastRow)) [.node (.logical (.values twoRows)) []])
      .none oneColumn with
  | mk r after =>
    rw [h] at hops
    cases r with
    | error e => cases hops
    | ok o =>
      obtain ⟨root, -, -, last, -, -, -, -, -, -, hvalid⟩ := optimize_valid unitSetup _ .none oneColumn h
      exact ⟨o, after, rfl, Option.some.inj hops, last.memo, root, hvalid⟩

end

end Cascade
