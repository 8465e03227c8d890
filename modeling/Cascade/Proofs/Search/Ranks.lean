import Cascade.Proofs.Search.Bounds
import Cascade.Proofs.Search.Potential

/-!
Ranks of the jobs of a search. A job of a group has the fewer runs before it the more members it has asked for, and one
that optimizes an expression goes through requests and, in each of them, through inputs. So as long as no rule adds to the
memo, every run lowers the rank of its job or sets its mark (`JobStep.quiet`).
-/

namespace Cascade

open Memo Search

variable {σ κ : Type}

/-- How many numbers below a bound were not asked for. -/
def unasked (M : Nat) (spawned : List ExprId) : Nat :=
  ((List.range M).filter (fun i => !decide (ExprId.mk i ∈ spawned))).length

theorem unasked_le (M : Nat) (spawned : List ExprId) : unasked M spawned ≤ M :=
  (List.length_filter_le ..).trans (Nat.le_of_eq List.length_range)

theorem unasked_lt {M : Nat} {spawned ids : List ExprId} (hne : ids ≠ []) (hfresh : ∀ id ∈ ids, id ∉ spawned)
    (hlt : ∀ id ∈ ids, id.index < M) : unasked M (spawned ++ ids) < unasked M spawned := by
  obtain ⟨id, hid⟩ := List.exists_mem_of_ne_nil ids hne
  refine length_filter_lt (fun i hi => ?_) (List.mem_range.2 (hlt id hid)) ?_ ?_
  · simp only [Bool.not_eq_true', decide_eq_false_iff_not, List.mem_append, not_or] at hi ⊢
    exact hi.1
  · simpa using hfresh id hid
  · simp [hid]

/-- A bound on the runs a job has before it, if the numbers it works with are below a bound. -/
def SearchJob.rank (M : Nat) : SearchJob → Nat
  | optimizeGroup _ _ implemented spawned => unasked M spawned + if implemented then 1 else 2
  | implementGroup _ explored spawned => unasked M spawned + if explored then 1 else 2
  | exploreGroup _ spawned => unasked M spawned + 1
  | implementExpr _ started => if started then 1 else 2
  | exploreExpr _ .start => 3
  | exploreExpr _ .inputsExplored => 2
  | exploreExpr _ .rulesApplied => 1
  | applyRule _ _ => 1
  | optimizeExpr _ _ none => 2 * (3 * (M + 1) + M) + 3
  | optimizeExpr _ _ (some q) =>
    2 * ((3 - q.request) * (M + 1) + (M - q.inputs.length)) + if q.awaiting.isSome then 1 else 2

theorem SearchJob.rank_pos (M : Nat) (job : SearchJob) : 0 < job.rank M := by
  cases job with
  | optimizeGroup _ _ implemented _ => cases implemented <;> exact Nat.succ_pos _
  | implementGroup _ explored _ => cases explored <;> exact Nat.succ_pos _
  | exploreGroup => exact Nat.succ_pos _
  | implementExpr _ started => cases started <;> exact Nat.succ_pos _
  | exploreExpr _ step => cases step <;> exact Nat.succ_pos _
  | applyRule => exact Nat.one_pos
  | optimizeExpr _ _ progress =>
    cases progress with
    | none => exact Nat.succ_pos _
    | some q =>
      dsimp only [rank]
      split <;> omega

theorem JobKey.rank_start (M : Nat) (k : JobKey) : k.start.rank M ≤ 8 * M + 9 := by
  have := unasked_le M []
  cases k
  all_goals
    simp only [start, SearchJob.rank, Bool.false_eq_true, if_false]
    omega

/-- Keys below a bound and jobs about them. -/
noncomputable def searchRanking (M rules : Nat) : Ranking SearchJob JobKey where
  key := SearchJob.key
  start := JobKey.start
  rank := SearchJob.rank M
  keys := (JobKey.finite_below M).toFinset
  width := M + 2 * rules
  height := 8 * M + 9
  key_start := JobKey.key_start
  rank_pos := SearchJob.rank_pos M
  rank_start k _ := k.rank_start M

theorem mem_keys_searchRanking {M rules : Nat} {k : JobKey} : k ∈ (searchRanking M rules).keys ↔ k.Below M := by
  simp [searchRanking]

/-! Jobs that ask for others. -/

section

variable {env : SearchEnv σ κ} {m n : Memo σ κ} {M : Nat} {job next : SearchJob} {keys : List JobKey} {id : ExprId}

theorem Candidates.length_le {exploration : Bool} {rules : List RuleId} (h : Candidates env m id exploration rules) : rules.length ≤ 2 * env.order.length := by
  obtain ⟨e, -, rfl⟩ := h
  unfold RuleContext.candidates
  split
  · exact Nat.zero_le _
  · rw [List.length_append, Nat.two_mul]
    have hfilter : ∀ p q : RuleId → Bool, ((env.order.filter p).filter q).length ≤ env.order.length := fun p q =>
      (List.length_filter_le ..).trans (List.length_filter_le ..)
    exact Nat.add_le_add (hfilter _ _) (hfilter _ _)

/-- Collecting a list without repetition adds no more than its members. -/
theorem foldl_distinct (l acc : List GroupId) :
    (l.foldl (fun acc g => if g ∈ acc then acc else acc ++ [g]) acc).length ≤ acc.length + l.length ∧
      ∀ g ∈ l.foldl (fun acc g => if g ∈ acc then acc else acc ++ [g]) acc, g ∈ acc ∨ g ∈ l := by
  induction l generalizing acc with
  | nil => exact ⟨Nat.le_refl _, fun g hg => .inl hg⟩
  | cons x l ih =>
    obtain ⟨hlength, hmem⟩ := ih (if x ∈ acc then acc else acc ++ [x])
    rw [List.foldl_cons, List.length_cons]
    refine ⟨hlength.trans ?_, fun g hg => ?_⟩
    · split
      · omega
      · rw [List.length_append, List.length_singleton]
        omega
    · rcases hmem g hg with hacc | hl
      · split at hacc
        · exact .inl hacc
        · rcases List.mem_append.1 hacc with hacc | hacc
          · exact .inl hacc
          · exact .inr (List.mem_singleton.1 hacc ▸ List.mem_cons_self ..)
      · exact .inr (List.mem_cons_of_mem _ hl)

theorem unexploredInputs_subset (m : Memo σ κ) (e : MemoExpr) :
    (unexploredInputs m e).length ≤ e.inputs.length ∧ ∀ g ∈ unexploredInputs m e, ∃ k ∈ e.inputs, g = m.find k := by
  obtain ⟨hlength, hmem⟩ :=
    foldl_distinct ((e.inputs.map m.find).filter (fun g => !(m.group? g).any Group.explored)) []
  refine ⟨hlength.trans ?_, fun g hg => ?_⟩
  · rw [List.length_nil, Nat.zero_add]
    exact (List.length_filter_le ..).trans (Nat.le_of_eq (List.length_map ..))
  · obtain ⟨k, hk, rfl⟩ := List.mem_map.1 (List.mem_filter.1 ((hmem g hg).resolve_left List.not_mem_nil)).1
    exact ⟨k, hk, rfl⟩

theorem Asks.key_eq (h : Asks env m job next keys) : next.key = job.key := by cases h <;> rfl

theorem Asks.derived_eq (h : Asks env m job next keys) : next.derived = [] := by cases h <;> rfl

theorem Asks.rank_lt (h : Asks env m job next keys) (hm : m.Bounded M) : next.rank M < job.rank M := by
  have hgroup : ∀ {g test spawned ids}, NewMembers m g test spawned ids → unasked M (spawned ++ ids) < unasked M spawned :=
    fun hids => unasked_lt hids.ne_nil hids.fresh (hm.newMembers hids).2
  cases h with
  | exploreMembers hids => exact Nat.add_lt_add_right (hgroup hids) 1
  | explore => exact Nat.lt_succ_self _
  | @implementMembers _ explored _ _ _ hids =>
    have := hgroup hids
    cases explored <;> simp [SearchJob.rank] <;> omega
  | implement => exact Nat.lt_succ_self _
  | @optimizeMembers _ _ implemented _ _ _ hids =>
    have := hgroup hids
    cases implemented <;> simp [SearchJob.rank] <;> omega
  | implementRules => exact Nat.lt_succ_self 1
  | exploreInputs => exact Nat.lt_succ_self 2
  | @exploreRules _ step _ hstep =>
    cases step with
    | start => simp [SearchJob.rank]
    | inputsExplored => exact Nat.lt_succ_self 1
    | rulesApplied => exact absurd rfl hstep

/-- What a job asks for is below the bound, and it is not much. -/
theorem Asks.keys_below (h : Asks env m job next keys) (hm : m.Bounded M) (hjob : job.key.Below M) :
    keys.length ≤ M + 2 * env.order.length ∧ ∀ k ∈ keys, k.Below M := by
  have hmap : ∀ {α : Type} (l : List α) (f : α → JobKey), l.length ≤ M + 2 * env.order.length → (∀ a ∈ l, (f a).Below M) →
      (l.map f).length ≤ M + 2 * env.order.length ∧ ∀ k ∈ l.map f, k.Below M := by
    intro α l f hlength hf
    refine ⟨by rwa [List.length_map], fun k hk => ?_⟩
    obtain ⟨a, ha, rfl⟩ := List.mem_map.1 hk
    exact hf a ha
  have hmembers : ∀ {g test spawned ids}, NewMembers m g test spawned ids →
      ids.length ≤ M + 2 * env.order.length ∧ ∀ id ∈ ids, id.index < M := fun hids =>
    ⟨(hm.newMembers hids).1.trans (Nat.le_add_right ..), (hm.newMembers hids).2⟩
  have hrules : ∀ {id exploration rules}, Candidates env m id exploration rules → rules.length ≤ M + 2 * env.order.length := fun hrules =>
    hrules.length_le.trans (Nat.le_add_left ..)
  cases h with
  | exploreMembers hids => exact hmap _ _ (hmembers hids).1 (hmembers hids).2
  | @explore g =>
    have hg : g.index < M := hjob
    exact ⟨by rw [List.length_singleton]; omega, List.forall_mem_singleton.2 (find_lt hg)⟩
  | implementMembers _ hids => exact hmap _ _ (hmembers hids).1 (hmembers hids).2
  | @implement g r =>
    have hg : g.index < M := hjob.1
    exact ⟨by rw [List.length_singleton]; omega, List.forall_mem_singleton.2 (find_lt hg)⟩
  | optimizeMembers _ hids => exact hmap _ _ (hmembers hids).1 fun id hid => ⟨(hmembers hids).2 id hid, hjob.2⟩
  | implementRules h => exact hmap _ _ (hrules h) fun _ _ => hjob
  | @exploreInputs id e he =>
    obtain ⟨hlength, hinputs⟩ := unexploredInputs_subset m e
    refine hmap _ _ ((hlength.trans (hm.inputs he).1).trans (Nat.le_add_right ..)) fun g hg => ?_
    obtain ⟨k, hk, rfl⟩ := hinputs g hg
    exact find_lt ((hm.inputs he).2 k hk)
  | exploreRules _ h => exact hmap _ _ (hrules h) fun _ _ => hjob

end

/-! Jobs that optimize expressions. -/

section

variable {m n : Memo σ κ} {M : Nat} {id : ExprId} {op : PhysicalOp} {required : Required} {q r : RequestProgress}

theorem HasOp.sameShape (h : SameShape m n) (ho : HasOp m id op) : HasOp n id op := by
  obtain ⟨e, he, hop⟩ := ho
  obtain ⟨f, hf, hfe⟩ := h.symm_exprs he
  exact ⟨f, hf, ((exprShape_eq_iff _ _).1 hfe).2.1.trans hop⟩

/-- What a request goes on with comes from the memo, and it has one input more, or it had asked for none. -/
theorem Received.bounded {goesOn : Bool} (h : Received id required m q r goesOn n) (hm : m.Bounded M)
    (hq : ∀ d ∈ q.derived, d.distribution.Below M) :
    Quiet m n ∧ n.Bounded M ∧ r.request = q.request ∧ (∀ d ∈ r.derived, d.distribution.Below M) ∧
      (goesOn = true → (r = q ∧ q.awaiting = none) ∨
        (q.awaiting.isSome = true ∧ r.inputs.length = q.inputs.length + 1)) := by
  cases h with
  | nothing h => exact ⟨.refl m, hm, rfl, hq, fun _ => .inl ⟨rfl, h⟩⟩
  | refused => exact ⟨.refl m, hm, rfl, hq, nofun⟩
  | chosen h _ hwinner hpin =>
    have hpruned := quiet_pin hpin
    obtain ⟨c, -, hpin⟩ := exists_of_bind_ok hpin
    cases hpin
    refine ⟨hpruned, hm.pruned (m.contexts.prunedTo_retain _), rfl, fun d hd => ?_, fun _ => .inr ⟨by simp [h], by simp⟩⟩
    rcases List.mem_append.1 hd with hd | hd
    · exact hq d hd
    · rw [List.mem_singleton.1 hd]
      exact hm.winner hwinner

theorem below_buildContext {env : SearchEnv σ κ} {e : MemoExpr} {c : CostContext κ} (hop : op.Below M)
    (hrequired : required.Below M) (hq : ∀ d ∈ q.derived, d.distribution.Below M)
    (hc : buildContext env m id e op required q = .ok (some c)) : c.derived.distribution.Below M := by
  obtain ⟨content, -, hc⟩ := exists_of_bind_ok hc
  obtain ⟨p, hp, hc⟩ := exists_of_bind_ok hc
  obtain ⟨statistics, -, hc⟩ := exists_of_bind_ok hc
  obtain ⟨costs, -, hc⟩ := exists_of_bind_ok hc
  have hrequired : p.required.Below M := ((position_ok_iff m e required p).1 hp).1 ▸ hrequired
  dsimp only at hc
  split at hc
  · cases hc
  · rename_i enforced henforced
    cases hc
    exact (enforce?_eq_some henforced).1.below hrequired (hop.derived hrequired hq)

variable [Zero κ] [Add κ] [LT κ] [DecidableLT κ] {env : SearchEnv σ κ}

/-- What a request comes to: if it waits, what it has asked for is below the bound, and its job has a lower rank. -/
def Search.RequestStep.Bounded (M : Nat) (id : ExprId) (required : Required) (q : RequestProgress) : RequestStep → Prop
  | .await r g asked => (∀ d ∈ r.derived, d.distribution.Below M) ∧ g.index < M ∧ asked.Below M ∧
    SearchJob.rank M (.optimizeExpr id required (some r)) < SearchJob.rank M (.optimizeExpr id required (some q))
  | .finished r => r.request = q.request

theorem RequestRun.bounded {x : RequestStep} (h : RequestRun env id op required m q x n) (hm : m.Bounded M)
    (hop : HasOp m id op) (hrequired : required.Below M) (hq : ∀ d ∈ q.derived, d.distribution.Below M) :
    Quiet m n ∧ n.Bounded M ∧ x.Bounded M id required q := by
  have hbelow : op.Below M := by
    obtain ⟨e, he, heop⟩ := hop
    exact hm.ops he heop
  cases h with
  | @awaits r n e p g asked h he hp hplace hasked hgroup =>
    obtain ⟨hquiet, hn, hrequest, hr, hmore⟩ := h.bounded hm hq
    have hp : p.required.Below M := ((position_ok_iff n e required p).1 hp).1 ▸ hrequired
    obtain ⟨f, k, hf, hk, rfl⟩ := inputGroup_ok hgroup
    refine ⟨hquiet, hn, hr, find_lt ((hn.inputs hf).2 k (List.mem_of_getElem? hk)), hbelow.required hp hr hasked, ?_⟩
    have hlength := (hn.inputs he).1
    dsimp only [SearchJob.rank]
    rw [hrequest, Option.isSome_some, if_pos rfl]
    rcases hmore rfl with ⟨rfl, hnone⟩ | ⟨hsome, hmore⟩
    · rw [hnone, Option.isSome_none, if_neg nofun]
      omega
    · rw [if_pos hsome, hmore]
      omega
  | fruitless h =>
    obtain ⟨hquiet, hn, hrequest, -⟩ := h.bounded hm hq
    exact ⟨hquiet, hn, hrequest⟩
  | offers h _ _ hbuild hadd =>
    obtain ⟨hquiet, hn, hrequest, hr, -⟩ := h.bounded hm hq
    exact ⟨hquiet.trans (quiet_addContext hadd),
      hn.addContext (below_buildContext hbelow hrequired hr hbuild) hadd, hrequest⟩

/-- The requests that are left come to their end, or the job waits for an input at a lower rank. -/
theorem RequestsRun.bounded {remaining : Nat} {step : Step SearchJob}
    (h : RequestsRun env id op required remaining q m step n) (hm : m.Bounded M) (hop : HasOp m id op)
    (hrequired : required.Below M) (hremaining : q.request + remaining ≤ 3)
    (hq : ∀ d ∈ q.derived, d.distribution.Below M) :
    Quiet m n ∧ n.Bounded M ∧
      ((step = .done ∧ n.Settled (.optimizeExpr id required)) ∨
        ∃ r g asked, step = .spawn (.optimizeExpr id required (some r)) [.optimizeGroup g asked false []] ∧
          (RequestStep.await r g asked).Bounded M id required q) := by
  induction h with
  | done =>
    exact ⟨quiet_settle (k := .optimizeExpr id required) _ nofun, hm.settle (k := .optimizeExpr id required) nofun,
      .inl ⟨rfl, settled_settle _ (.optimizeExpr id required)⟩⟩
  | @awaits _ q r _ _ g asked h =>
    obtain ⟨hquiet, hn, hr⟩ := h.bounded hm hop hrequired hq
    exact ⟨hquiet, hn, .inr ⟨r, g, asked, rfl, hr⟩⟩
  | @next remaining q r m n _ _ h _ ih =>
    obtain ⟨hquiet, hn, hrequest⟩ := h.bounded hm hop hrequired hq
    have hrequest : r.request = q.request := hrequest
    obtain ⟨hreleased, hkept⟩ := hn.releaseInputs r.inputs
    have hquiet := hquiet.trans hkept
    have hleft : r.request + 1 + remaining ≤ 3 := by omega
    obtain ⟨hrest, ho, hstep⟩ := ih hreleased (hop.sameShape hquiet.toSameShape) hleft (List.forall_mem_nil _)
    refine ⟨hquiet.trans hrest, ho, hstep.imp_right ?_⟩
    rintro ⟨s, g, asked, rfl, hs, hg, hasked, hrank⟩
    refine ⟨s, g, asked, rfl, hs, hg, hasked, hrank.trans_le ?_⟩
    -- the next request has all inputs before it, which is less than this request has
    have hfewer : 3 - q.request = 3 - (r.request + 1) + 1 := by omega
    dsimp only [SearchJob.rank]
    rw [hfewer, Nat.add_one_mul (3 - (r.request + 1)), Option.isSome_none, if_neg nofun, List.length_nil]
    split <;> omega

theorem PhysicalOp.requestCount_le (op : PhysicalOp) : op.requestCount ≤ 3 := by
  cases op
  all_goals
    unfold requestCount
    dsimp only
    try split
    all_goals omega

/-- A run that sets marks and clears none: it lowers the rank of its job or sets the mark, and all stays below the
bound. -/
structure QuietStep (M rules : Nat) (m : Memo σ κ) (job : SearchJob) (step : Step SearchJob) (n : Memo σ κ) : Prop where
  quiet : Quiet m n
  bounded : n.Bounded M
  lowers : (searchRanking M rules).Lowers m.Settled n.Settled job step
  key_eq : ∀ {next children}, step = .spawn next children → next.key = job.key
  jobs : ∀ j ∈ step.jobs, j.Below M

omit [Zero κ] [Add κ] [LT κ] [DecidableLT κ] in
theorem PlainStep.quiet {job : SearchJob} {step : Step SearchJob} (h : PlainStep env m job step n)
    (hplain : ∀ e r, job.key ≠ .applyRule e r) (hm : m.Bounded M) (hjob : job.Below M) :
    QuietStep M env.order.length m job step n := by
  cases h with
  | settled h => exact ⟨.refl m, hm, .done h, nofun, List.forall_mem_nil _⟩
  | settles =>
    exact ⟨quiet_settle m hplain, hm.settle hplain, .done (settled_settle m job.key), nofun, List.forall_mem_nil _⟩
  | @asks next keys h hnew =>
    obtain ⟨hlength, hkeys⟩ := h.keys_below hm hjob.key
    refine ⟨.refl m, hm, .spawn hnew (h.rank_lt hm) hlength fun k hk => mem_keys_searchRanking.2 (hkeys k hk), ?_, ?_⟩
    · rintro _ _ ⟨⟩
      exact h.key_eq
    · refine List.forall_mem_cons.2 ⟨⟨h.key_eq ▸ hjob.key, h.derived_eq ▸ List.forall_mem_nil _⟩, fun j hj => ?_⟩
      obtain ⟨k, hk, rfl⟩ := List.mem_map.1 hj
      exact JobKey.below_start (hkeys k hk)

/-- A run about requests, with what it has asked for. -/
theorem RequestsRun.quiet {progress : Option RequestProgress} {remaining : Nat} {step : Step SearchJob}
    (h : RequestsRun env id op required remaining q m step n) (hm : m.Bounded M) (hop : HasOp m id op)
    (hjob : SearchJob.Below M (.optimizeExpr id required progress)) (hremaining : q.request + remaining ≤ 3)
    (hq : ∀ d ∈ q.derived, d.distribution.Below M)
    (hnew : progress = none → ¬ m.Settled (.optimizeExpr id required))
    (hrank : SearchJob.rank M (.optimizeExpr id required (some q)) ≤
      SearchJob.rank M (.optimizeExpr id required progress)) :
    QuietStep M env.order.length m (.optimizeExpr id required progress) step n := by
  obtain ⟨hquiet, hn, ⟨rfl, hsettled⟩ | ⟨r, g, asked, rfl, hr, hg, hasked, hlower⟩⟩ :=
    h.bounded hm hop hjob.key.2 hremaining hq
  · exact ⟨hquiet, hn, .done hsettled, nofun, List.forall_mem_nil _⟩
  · have hkey : JobKey.Below M (.optimizeGroup g asked) := ⟨hg, hasked⟩
    have hlength : [JobKey.optimizeGroup g asked].length ≤ M + 2 * env.order.length := by
      rw [List.length_singleton]
      omega
    have hasked : ∀ k ∈ [JobKey.optimizeGroup g asked], k ∈ (searchRanking M env.order.length).keys :=
      List.forall_mem_singleton.2 (mem_keys_searchRanking.2 hkey)
    refine ⟨hquiet, hn, .spawn (fun hstart => hnew ?_) (hlower.trans_le hrank) hlength hasked, ?_, ?_⟩
    · injection hstart
    · rintro _ _ ⟨⟩
      rfl
    · exact List.forall_mem_cons.2 ⟨⟨hjob.key, hr⟩, List.forall_mem_singleton.2 (JobKey.below_start hkey)⟩

/-- Every run sets marks and clears none, unless it applies a rule for the first time. -/
theorem JobStep.quiet {job : SearchJob} {step : Step SearchJob} (h : JobStep env m job step n) (hm : m.Bounded M)
    (hjob : job.Below M) (hvalid : ValidJob m job) :
    QuietStep M env.order.length m job step n ∨
      ∃ id rule e, m.expr? id = some e ∧ rule ∉ e.applied ∧ Insertions (m.markApplied id rule) n ∧ step = .done := by
  cases job with
  | applyRule id rule =>
    cases h with
    | settled hdone =>
      refine .inl ⟨.refl m, hm, .done fun e he => ?_, nofun, List.forall_mem_nil _⟩
      unfold wasApplied at hdone
      rw [he] at hdone
      exact of_decide_eq_true hdone
    | applied he hnew _ h => exact .inr ⟨id, rule, _, he, hnew, h.insertions .refl, rfl⟩
  | optimizeExpr id required progress =>
    left
    cases h with
    | settled h => exact ⟨.refl m, hm, .done h, nofun, List.forall_mem_nil _⟩
    | @first op _ _ hop hnew h =>
      refine h.quiet hm hop hjob ?_ (List.forall_mem_nil _) (fun _ => hnew) ?_
      · rw [Nat.zero_add]
        exact op.requestCount_le
      · dsimp only [SearchJob.rank]
        rw [Option.isSome_none, if_neg nofun, List.length_nil]
        omega
    | @resumed op q _ _ hop h =>
      refine h.quiet hm hop hjob ?_ hjob.derived nofun (Nat.le_refl _)
      obtain ⟨op', e, p, hu⟩ := hvalid
      obtain ⟨f, hf, hfop⟩ := hop
      cases hf.symm.trans hu.expr
      cases hfop.symm.trans hu.op_eq
      have := hu.request_lt
      have := op.requestCount_le
      omega
  | _ => exact .inl (PlainStep.quiet h nofun hm hjob)

end

end Cascade
