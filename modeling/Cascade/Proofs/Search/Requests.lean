import Cascade.Proofs.Search.Scheduling
import Cascade.Proofs.Search.Validity
import Cascade.Proofs.Stateful

/-!
Requests. While a request waits for an input, its chosen inputs are those its operator asks for
(`Underway`), whatever happens to the memo in between. So the context that a finished request offers is a
way to compute its expression, and the memo stays sound (`yields_runRequests`).
-/

namespace Cascade

open Memo Search

variable {σ κ : Type}

theorem Yields.bind_memo {α : Type} {s : SearchState σ κ} {f : Memo σ κ → SearchM σ κ α}
    {Q : α → SearchState σ κ → Prop} {E : PlanError → SearchState σ κ → Prop} (h : Yields (f s.memo) s Q E) :
    Yields (Search.memo >>= f) s Q E :=
  (Yields.bind_iff Search.memo f s Q E).2 h

theorem Yields.bind_modifyMemo {α : Type} {s : SearchState σ κ} {g : Memo σ κ → Memo σ κ}
    {f : Unit → SearchM σ κ α} {Q : α → SearchState σ κ → Prop} {E : PlanError → SearchState σ κ → Prop}
    (h : Yields (f ()) { s with memo := g s.memo } Q E) : Yields (modifyMemo g >>= f) s Q E :=
  (Yields.bind_iff (modifyMemo g) f s Q E).2 h

/-- The second state has a sound memo that knows all the memo of the first one does. -/
structure Follows (subset : Bool) (s t : SearchState σ κ) : Prop where
  sound : t.memo.Sound subset
  extends_ : Extends s.memo t.memo

section

variable {subset : Bool} {s t u : SearchState σ κ}

theorem Follows.refl (h : s.memo.Sound subset) : Follows subset s s := ⟨h, .refl _⟩

theorem Follows.trans (h : Follows subset s t) (k : Follows subset t u) : Follows subset s u :=
  ⟨k.sound, h.extends_.trans k.extends_⟩

theorem follows_of_inherits (h : s.memo.Sound subset) (k : Inherits s.memo t.memo) (hs : SameShape s.memo t.memo) :
    Follows subset s t :=
  ⟨h.inherits k (hs.wellFormed h.wellFormed), k.toExtends⟩

theorem follows_modifyExpr (h : s.memo.Sound subset) (id : ExprId) {f : MemoExpr → MemoExpr}
    (hf : ∀ e, exprShape (f e) = exprShape e) : Follows subset s { s with memo := s.memo.modifyExpr id f } :=
  follows_of_inherits h (s.memo.inherits_modifyExpr id hf) (sameShape_modifyExpr s.memo id hf)

theorem follows_modifyGroup (h : s.memo.Sound subset) (g : GroupId) {f : Group σ → Group σ}
    (hf : ∀ x, groupShape (f x) = groupShape x) (hw : ∀ x, (f x).winners = x.winners) :
    Follows subset s { s with memo := s.memo.modifyGroup g f } :=
  follows_of_inherits h (s.memo.inherits_modifyGroup g hf hw) (sameShape_modifyGroup s.memo g hf (.inr hw))

end

def HasOp (m : Memo σ κ) (id : ExprId) (op : PhysicalOp) : Prop := ∃ e, m.expr? id = some e ∧ e.op = .physical op

theorem HasOp.mono {m n : Memo σ κ} (h : Extends m n) {id : ExprId} {op : PhysicalOp} (ho : HasOp m id op) :
    HasOp n id op := by
  obtain ⟨e, he, hop⟩ := ho
  obtain ⟨f, hf, hfe, -⟩ := h.exprs he
  exact ⟨f, hf, hfe.trans hop⟩

/-- A request that is being worked on: the chosen inputs are those it asks for, and so is what the next
input was asked for. -/
structure Underway (m : Memo σ κ) (id : ExprId) (op : PhysicalOp) (required : Required) (q : RequestProgress)
    (e : MemoExpr) (p : Position) : Prop where
  expr : m.expr? id = some e
  op_eq : e.op = .physical op
  position : position m e required = .ok p
  request_lt : q.request < op.requestCount
  chosen : Chosen m e op p q.request q.inputs q.derived
  awaiting : ∀ asked, q.awaiting = some asked →
    op.requiredInput p q.request q.inputs.length q.derived = some asked

/-- The chosen inputs of a request are those it asks for. -/
def Ready (m : Memo σ κ) (id : ExprId) (op : PhysicalOp) (required : Required) (q : RequestProgress) : Prop :=
  ∀ e p, m.expr? id = some e → position m e required = .ok p → Chosen m e op p q.request q.inputs q.derived

section

variable {m n : Memo σ κ} {id : ExprId} {op : PhysicalOp} {required : Required} {q : RequestProgress}
  {e : MemoExpr} {p : Position}

theorem Underway.mono (h : Extends m n) (hu : Underway m id op required q e p) :
    ∃ f, Underway n id op required q f p := by
  obtain ⟨f, hf, hop, hgroup, hinputs⟩ := h.exprs hu.expr
  exact ⟨f,
    { hu with
      expr := hf
      op_eq := hop.trans hu.op_eq
      position := position_mono h hgroup hinputs hu.position
      chosen := hu.chosen.mono h hinputs }⟩

/-- Where an expression stands is no choice, so chosen inputs stay those that are asked for. -/
theorem ready_of_chosen (h : Extends m n) (he : m.expr? id = some e) (hp : position m e required = .ok p)
    (hc : Chosen m e op p q.request q.inputs q.derived) : Ready n id op required q := by
  intro f r hf hr
  obtain ⟨f', hf', -, hgroup, hinputs⟩ := h.exprs he
  cases hf'.symm.trans hf
  have hp' := position_mono h hgroup hinputs hp
  cases hp'.symm.trans hr
  exact hc.mono h hinputs

theorem ready_of_nil (hi : q.inputs = []) (hd : q.derived = []) : Ready m id op required q := by
  intro e p _ _
  rw [hi, hd]
  exact chosen_nil

/-- A request that is underway or about to begin. -/
def Started (m : Memo σ κ) (id : ExprId) (op : PhysicalOp) (required : Required) (q : RequestProgress) : Prop :=
  (q.inputs = [] ∧ q.derived = [] ∧ q.awaiting = none) ∨ ∃ e p, Underway m id op required q e p

end

/-- A job that waits is about a request that is underway, if it is about one. -/
def ValidJob (m : Memo σ κ) : SearchJob → Prop
  | .optimizeExpr id required (some q) => ∃ op e p, Underway m id op required q e p
  | _ => True

theorem ValidJob.mono {m n : Memo σ κ} (h : Extends m n) {job : SearchJob} (hj : ValidJob m job) : ValidJob n job := by
  unfold ValidJob at *
  split at hj
  · obtain ⟨op, e, p, hu⟩ := hj
    exact ⟨op, (hu.mono h).imp fun _ hu => ⟨p, hu⟩⟩
  · trivial

/-- A run of a job leaves a sound memo and hands valid jobs to the scheduler. -/
def StepValid (subset : Bool) (s : SearchState σ κ) (step : Step SearchJob) (t : SearchState σ κ) : Prop :=
  Follows subset s t ∧ ∀ j ∈ step.jobs, ValidJob t.memo j

theorem stepValid_done {subset : Bool} {s t : SearchState σ κ} (h : Follows subset s t) :
    StepValid subset s .done t :=
  ⟨h, fun _ hj => by cases hj⟩

theorem inherits_releaseInputs (inputs : List ContextId) (m : Memo σ κ) :
    Inherits m (releaseInputs inputs m) ∧ SameShape m (releaseInputs inputs m) := by
  induction inputs generalizing m with
  | nil => exact ⟨.refl m, .refl m⟩
  | cons id inputs ih =>
    obtain ⟨hinherits, hshape⟩ := ih (m.unpin id)
    exact ⟨(m.inherits_unpin id).trans hinherits, (m.sameShape_unpin id).trans hshape⟩

theorem physical?_eq_some {o : Operator} {op : PhysicalOp} (h : o.physical? = some op) : o = .physical op := by
  cases o with
  | logical l => cases h
  | physical o => exact congrArg Operator.physical (Option.some.inj h)

theorem inputGroup_ok {m : Memo σ κ} {id : ExprId} {place : Nat} {g : GroupId} (h : inputGroup m id place = .ok g) :
    ∃ e k, m.expr? id = some e ∧ e.inputs[place]? = some k ∧ g = m.find k := by
  obtain ⟨e, he, h⟩ := exists_of_bind_ok h
  split at h
  · rename_i k hk
    exact ⟨e, k, expr_ok he, hk, (Except.ok.inj h).symm⟩
  · cases h

section

variable (env : SearchEnv σ κ) {id : ExprId} {op : PhysicalOp} {required : Required}

/-- Over the inputs that a request asks for, a context with enforcers is a way to compute its expression. -/
theorem validContext_buildContext {m : Memo σ κ} {e : MemoExpr} {q : RequestProgress}
    {c : CostContext κ} (he : m.expr? id = some e) (hop : e.op = .physical op)
    (hrequest : q.request < op.requestCount) (hready : Ready m id op required q)
    (hlength : e.inputs.length ≤ q.inputs.length) (hc : buildContext env m id e op required q = .ok (some c)) :
    ValidContext m env.config.subsetHashMatching c := by
  obtain ⟨content, -, hc⟩ := exists_of_bind_ok hc
  obtain ⟨p, hp, hc⟩ := exists_of_bind_ok hc
  obtain ⟨statistics, -, hc⟩ := exists_of_bind_ok hc
  obtain ⟨costs, -, hc⟩ := exists_of_bind_ok hc
  have hchosen := hready e p he hp
  have hrequired : p.required = required := ((position_ok_iff m e required p).1 hp).1
  dsimp only at hc
  split at hc
  · cases hc
  · rename_i enforced henforced
    cases hc
    obtain ⟨habove, hsatisfies⟩ := enforce?_eq_some henforced
    refine ⟨e, op, p, q.derived, ?_⟩
    exact
      { expr := he
        op_eq := hop
        position := hp
        request_lt := hrequest
        inputs_length := Nat.le_antisymm hchosen.length_le hlength
        chosen := hchosen
        derived_eq := rfl
        enforces := habove.derived_eq ▸ enforces_placeEnforcers env p content.statistics _ habove.enforcers _ _
        satisfies := hrequired ▸ hsatisfies }

variable [Zero κ] [Add κ] [LT κ] [DecidableLT κ]

/-- The winner of the awaited input provides what the request has asked for. -/
theorem yields_receiveInput {subset : Bool} {q : RequestProgress} {s : SearchState σ κ}
    (hs : s.memo.Sound subset) (hq : Started s.memo id op required q) :
    Yields (receiveInput env id op required q) s
      (fun r t => Follows subset s t ∧ r.1.request = q.request ∧ (r.2 = true → Ready t.memo id op required r.1))
      (fun _ _ => True) := by
  unfold receiveInput
  split
  · refine .of_pure ⟨.refl hs, rfl, fun _ => ?_⟩
    rcases hq with ⟨hi, hd, -⟩ | ⟨e, p, hu⟩
    · exact ready_of_nil hi hd
    · exact ready_of_chosen (.refl _) hu.expr hu.position hu.chosen
  · rename_i asked hasked
    -- a request that is about to begin has not asked for anything yet
    obtain ⟨e, p, hu⟩ : ∃ e p, Underway s.memo id op required q e p := by
      refine hq.resolve_left ?_
      rintro ⟨-, -, hnone⟩
      cases hnone.symm.trans hasked
    refine .bind_memo (.bind_lift (fun group hgroup => ?_) fun _ _ => trivial)
    obtain ⟨e', g, he', hg, rfl⟩ := inputGroup_ok hgroup
    cases hu.expr.symm.trans he'
    split
    · exact .of_pure ⟨.refl hs, rfl, fun h => by cases h⟩
    · rename_i winner context hwinner
      obtain ⟨hget, hoffered⟩ := hs.winner hwinner
      have hchosen := hu.chosen.append hg (hu.awaiting asked hasked) (hoffered.congr (s.memo.find_find g)) hget
      refine .bind_lift (fun pinned hpinned => ?_) fun _ _ => trivial
      have hinherits := inherits_pin hpinned
      have hfollows : ∀ t : SearchState σ κ, t.memo = pinned → Follows subset s t := fun t ht =>
        follows_of_inherits hs (ht ▸ hinherits) (ht ▸ sameShape_pin hpinned)
      have hready : ∀ q : RequestProgress, Chosen s.memo e op p q.request q.inputs q.derived →
          Ready pinned id op required q := fun _ => ready_of_chosen hinherits.toExtends hu.expr hu.position
      refine .bind_modifyMemo (.bind_lift (fun f _ => ?_) fun _ _ => trivial)
      refine .bind_lift (fun pruned _ => ?_) fun _ _ => trivial
      split
      · exact .bind_modify (.of_pure ⟨hfollows _ rfl, rfl, fun _ => hready _ hchosen⟩)
      · exact .of_pure ⟨hfollows _ rfl, rfl, fun _ => hready _ hchosen⟩

/-- What a request comes to: it waits for an input it asks for, or it is finished. -/
def Search.RequestStep.Valid (m : Memo σ κ) (id : ExprId) (op : PhysicalOp) (required : Required) (request : Nat) :
    RequestStep → Prop
  | .await q _ _ => ∃ e p, Underway m id op required q e p
  | .finished q => q.request = request

theorem yields_continueRequest {q : RequestProgress} {s : SearchState σ κ}
    (hs : s.memo.Sound env.config.subsetHashMatching) (hop : HasOp s.memo id op)
    (hrequest : q.request < op.requestCount) (hq : Started s.memo id op required q) :
    Yields (continueRequest env id op required q) s
      (fun r t => Follows env.config.subsetHashMatching s t ∧ r.Valid t.memo id op required q.request)
      (fun _ _ => True) := by
  unfold continueRequest
  refine (yields_receiveInput env hs hq).bind ?_
  rintro ⟨q', goesOn⟩ t ⟨hst, hsame, hready⟩
  dsimp only at hsame hready ⊢
  split
  · exact .of_pure ⟨hst, hsame⟩
  · rename_i hgoes
    have hready := hready (by simpa using hgoes)
    refine .bind_memo (.bind_lift (fun e he => ?_) fun _ _ => trivial)
    have he := expr_ok he
    have hopeq : e.op = .physical op := by
      obtain ⟨f, hf, hfop⟩ := hop.mono hst.extends_
      cases hf.symm.trans he
      exact hfop
    split
    · refine .bind_lift (fun p hp => ?_) fun _ _ => trivial
      have hchosen := hready e p he hp
      split
      · exact .of_pure ⟨hst, hsame⟩
      · rename_i asked hasked
        refine .bind_lift (fun g _ => ?_) fun _ _ => trivial
        refine .of_pure ⟨hst, e, p, ?_⟩
        exact
          { expr := he
            op_eq := hopeq
            position := hp
            request_lt := hsame ▸ hrequest
            chosen := hchosen
            awaiting := fun r hr => Option.some.inj hr ▸ hasked }
    · rename_i hlength
      refine .bind_lift (fun built hbuilt => ?_) fun _ _ => trivial
      cases built with
      | none => exact .of_pure ⟨hst, hsame⟩
      | some context =>
        have hvalid := validContext_buildContext env he hopeq (hsame ▸ hrequest) hready (by omega) hbuilt
        refine .bind_lift (fun r hadd => ?_) fun _ _ => trivial
        obtain ⟨hsound, hextends⟩ := hst.sound.addContext hvalid hadd
        exact .bind_modifyMemo (.of_pure ⟨hst.trans ⟨hsound, hextends⟩, hsame⟩)

theorem yields_runRequests (remaining : Nat) {q : RequestProgress} {s : SearchState σ κ}
    (hs : s.memo.Sound env.config.subsetHashMatching) (hop : HasOp s.memo id op)
    (hremaining : q.request + remaining = op.requestCount) (hq : Started s.memo id op required q) :
    Yields (runRequests env id op required remaining q) s (StepValid env.config.subsetHashMatching s)
      (fun _ _ => True) := by
  -- on the number of requests that are left
  induction remaining generalizing q s with
  | zero =>
    exact .bind_modifyMemo (.of_pure (stepValid_done (follows_modifyExpr hs id fun _ => rfl)))
  | succ remaining ih =>
    unfold runRequests
    refine (yields_continueRequest env hs hop (by omega) hq).bind fun r t ⟨hst, hr⟩ => ?_
    cases r with
    | await q' group asked =>
      obtain ⟨e, p, hu⟩ := hr
      refine .of_pure ⟨hst, fun j hj => ?_⟩
      rcases List.mem_cons.1 hj with rfl | hj
      · exact ⟨op, e, p, hu⟩
      · rw [List.mem_singleton.1 hj]
        trivial
    | finished q' =>
      have hr : q'.request = q.request := hr
      -- the next request begins with no inputs, so it has nothing to keep from this one
      obtain ⟨hinherits, hshape⟩ := inherits_releaseInputs q'.inputs t.memo
      refine .bind_modifyMemo ?_
      have htu : Follows env.config.subsetHashMatching s { t with memo := releaseInputs q'.inputs t.memo } :=
        hst.trans (follows_of_inherits hst.sound hinherits hshape)
      have hleft : q'.request + 1 + remaining = op.requestCount := by omega
      refine (ih htu.sound (hop.mono htu.extends_) hleft (.inl ⟨rfl, rfl, rfl⟩)).mono ?_ fun _ _ _ => trivial
      exact fun step u hu => ⟨htu.trans hu.1, hu.2⟩

theorem yields_runOptimizeExpr (id : ExprId) (required : Required) (progress : Option RequestProgress)
    {s : SearchState σ κ} (hs : s.memo.Sound env.config.subsetHashMatching)
    (hjob : ValidJob s.memo (.optimizeExpr id required progress)) :
    Yields (runOptimizeExpr env id required progress) s (StepValid env.config.subsetHashMatching s)
      (fun _ _ => True) := by
  refine .bind_memo (.bind_lift (fun e he => ?_) fun _ _ => trivial)
  have he := expr_ok he
  split
  · exact .of_throw trivial
  · rename_i op hop
    have hop : e.op = .physical op := physical?_eq_some hop
    split
    · exact .of_pure (stepValid_done (.refl hs))
    · exact yields_runRequests env op.requestCount hs ⟨e, he, hop⟩ (Nat.zero_add _) (.inl ⟨rfl, rfl, rfl⟩)
  · rename_i op q hop
    have hop : e.op = .physical op := physical?_eq_some hop
    obtain ⟨op', f, p, hu⟩ := hjob
    cases he.symm.trans hu.expr
    cases hop.symm.trans hu.op_eq
    have := hu.request_lt
    exact yields_runRequests env _ hs ⟨e, he, hop⟩ (by omega) (.inr ⟨e, p, hu⟩)

end

end Cascade
