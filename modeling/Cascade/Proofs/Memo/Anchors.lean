import Cascade.Proofs.Memo.Producers
import Cascade.Proofs.Semantics.Query

/-!
Readers of common table expressions. A tree is copied from left to right and an anchor names its producer for all that
follows, so a reader is refused just if no anchor of what it reads has had its producer copied before it
(`Expr.Strays`). Of the readers outside their anchors (`Expr.Outside`) those to the right of one are accepted.
-/

namespace Cascade

namespace LogicalOp

/-- The common table expression an operator reads. -/
def readCte? : LogicalOp → Option CteId
  | cteConsumer r => some r.cte
  | _ => none

theorem readCte?_eq_some_iff {op : LogicalOp} {c : CteId} :
    op.readCte? = some c ↔ ∃ r, op = .cteConsumer r ∧ r.cte = c := by
  cases op <;> simp [readCte?]

end LogicalOp

theorem Memo.producedCte?_eq_some_iff {op : LogicalOp} {c : CteId} :
    Memo.producedCte? op = some c ↔ op = .cteAnchor c := by
  cases op <;> simp [Memo.producedCte?]

namespace Expr

/-- All operators of a tree are logical, and none of its leaves stands for a group. -/
inductive IsLogical : Expr → Prop
  | node {op : LogicalOp} {inputs : List Expr} (hinputs : ∀ i ∈ inputs, IsLogical i) : IsLogical (ofLogical op inputs)

/-- The tree has an anchor of a common table expression. -/
inductive Anchors (c : CteId) : Expr → Prop
  | root {inputs : List Expr} : Anchors c (ofLogical (.cteAnchor c) inputs)
  | input {op : LogicalOp} {inputs : List Expr} {i : Expr} (hi : i ∈ inputs) (h : Anchors c i) :
    Anchors c (ofLogical op inputs)

/-- The tree has a reader of a common table expression that is in the second input of none of its anchors. -/
inductive Outside (c : CteId) : Expr → Prop
  | root {r : CteRead} {inputs : List Expr} (hr : r.cte = c) : Outside c (ofLogical (.cteConsumer r) inputs)
  | input {op : LogicalOp} {before after : List Expr} {i : Expr} (hop : op = .cteAnchor c → before.length ≠ 1)
    (h : Outside c i) : Outside c (ofLogical op (before ++ i :: after))

/-- The tree has a reader of a common table expression before any of its anchors: those are not in what is left of the
way to it, and where the way goes through one it goes through its producer. -/
inductive Strays (c : CteId) : Expr → Prop
  | root {r : CteRead} {inputs : List Expr} (hr : r.cte = c) : Strays c (ofLogical (.cteConsumer r) inputs)
  | input {op : LogicalOp} {before after : List Expr} {i : Expr} (hop : op = .cteAnchor c → before = [])
    (hbefore : ∀ x ∈ before, ¬ x.Anchors c) (h : Strays c i) : Strays c (ofLogical op (before ++ i :: after))

variable {c : CteId} {e : Expr} {op : LogicalOp} {inputs : List Expr}

theorem Strays.outside (h : e.Strays c) : e.Outside c := by
  induction h with
  | root hr => exact .root hr
  | input hop _ _ ih => exact .input (fun he => by rw [hop he]; exact Nat.zero_ne_one) ih

/-- Some of the inputs of an operator has an anchor, or the operator is one; of its inputs the first is the producer. -/
def AnchorsIn (c : CteId) (produced : Option CteId) (es : List Expr) : Prop :=
  (produced = some c ∧ es ≠ []) ∨ ∃ e ∈ es, e.Anchors c

/-- A reader strays in one of the inputs of an operator. -/
def StraysIn (c : CteId) (produced : Option CteId) (es : List Expr) : Prop :=
  ∃ before e after, es = before ++ e :: after ∧ (produced = some c → before = []) ∧
    (∀ x ∈ before, ¬ x.Anchors c) ∧ e.Strays c

theorem anchors_ofLogical_iff (hinputs : ∀ n, op.arity = some n → inputs.length = n) :
    (ofLogical op inputs).Anchors c ↔ AnchorsIn c (Memo.producedCte? op) inputs := by
  constructor
  · rintro (_ | ⟨hi, h⟩)
    · refine .inl ⟨rfl, fun hnil => ?_⟩
      have := hinputs 2 rfl
      rw [hnil] at this
      cases this
    · exact .inr ⟨_, hi, h⟩
  · rintro (⟨hop, -⟩ | ⟨i, hi, h⟩)
    · obtain rfl := Memo.producedCte?_eq_some_iff.1 hop
      exact .root
    · exact .input hi h

theorem strays_ofLogical_iff :
    (ofLogical op inputs).Strays c ↔ op.readCte? = some c ∨ StraysIn c (Memo.producedCte? op) inputs := by
  constructor
  · rintro (hr | ⟨hop, hbefore, h⟩)
    · exact .inl (congrArg some hr)
    · exact .inr ⟨_, _, _, rfl, fun he => hop (Memo.producedCte?_eq_some_iff.1 he), hbefore, h⟩
  · rintro (hop | ⟨before, i, after, rfl, hop, hbefore, h⟩)
    · obtain ⟨r, rfl, hr⟩ := LogicalOp.readCte?_eq_some_iff.1 hop
      exact .root hr
    · exact .input (fun he => hop (Memo.producedCte?_eq_some_iff.2 he)) hbefore h

theorem straysIn_cons_iff {produced : Option CteId} {es : List Expr} : StraysIn c produced (e :: es) ↔
    e.Strays c ∨ (produced ≠ some c ∧ ¬ e.Anchors c ∧ StraysIn c none es) := by
  constructor
  · rintro ⟨before, i, after, heq, hproduced, hbefore, h⟩
    cases before with
    | nil =>
      cases heq
      exact .inl h
    | cons x before =>
      cases heq
      obtain ⟨hx, hbefore⟩ := List.forall_mem_cons.1 hbefore
      exact .inr ⟨fun he => (nomatch hproduced he), hx, before, i, after, rfl, nofun, hbefore, h⟩
  · rintro (h | ⟨hproduced, he, before, i, after, rfl, -, hbefore, h⟩)
    · exact ⟨[], e, es, rfl, fun _ => rfl, List.forall_mem_nil _, h⟩
    · exact ⟨e :: before, i, after, rfl, fun hp => absurd hp hproduced, List.forall_mem_cons.2 ⟨he, hbefore⟩, h⟩

theorem anchorsIn_cons_iff {produced : Option CteId} {es : List Expr} :
    AnchorsIn c produced (e :: es) ↔ (e.Anchors c ∨ produced = some c) ∨ AnchorsIn c none es := by
  unfold AnchorsIn
  rw [List.exists_mem_cons_iff]
  simp only [ne_eq, reduceCtorEq, not_false_eq_true, and_true, false_and, false_or]
  rw [← or_assoc, or_comm (a := produced = some c)]

theorem not_anchorsIn_nil {produced : Option CteId} : ¬ AnchorsIn c produced [] := by simp [AnchorsIn]

theorem not_straysIn_nil {produced : Option CteId} : ¬ StraysIn c produced [] := by simp [StraysIn]

/-- What a memo refuses of a tree, apart from readers whose producer it does not know: a tree too deep or too large, an
operator over a wrong number of inputs, or one the source has no properties or statistics for. -/
inductive Refused {σ : Type} (source : PropertySource σ) (limit : Option Nat) (e : Expr) : PlanError → Prop
  | depth : Refused source limit e (.tooDeep Memo.maxDepth)
  | size {n : Nat} (h : limit = some n) : Refused source limit e
    (.exhausted .memoLimit ("The number of memo expressions exceeds the limit: " ++ toString n))
  | arity {op : LogicalOp} {inputs : List Expr} {err : PlanError} (hmem : ofLogical op inputs ∈ e.subtrees)
    (h : Memo.checkInputs (.logical op) inputs.length = .error err) : Refused source limit e err
  | logical {op : LogicalOp} {inputs : List Expr} {ps : List LogicalProperties} {producer : Option LogicalProperties}
    {err : PlanError} (hmem : ofLogical op inputs ∈ e.subtrees) (hps : ps.length = inputs.length)
    (hread : op.readCte?.isSome → producer.isSome) (h : source.logical op ps producer = .error err) :
    Refused source limit e err
  | statistics {op : LogicalOp} {inputs : List Expr} {ps : List (LogicalProperties × σ)} {producer : Option σ}
    {err : PlanError} (hmem : ofLogical op inputs ∈ e.subtrees) (hps : ps.length = inputs.length)
    (hread : op.readCte?.isSome → producer.isSome) (h : source.statistics op ps producer = .error err) :
    Refused source limit e err

theorem Refused.of_input {σ : Type} {source : PropertySource σ} {limit : Option Nat} {err : PlanError}
    (h : Refused source limit e err) (he : e ∈ inputs) : Refused source limit (ofLogical op inputs) err := by
  have hmem : ∀ {x}, x ∈ e.subtrees → x ∈ (ofLogical op inputs).subtrees := fun hx =>
    (mem_subtrees_node _ inputs).2 (.inr ⟨e, he, hx⟩)
  cases h with
  | depth => exact .depth
  | size h => exact .size h
  | arity hx h => exact .arity (hmem hx) h
  | logical hx hps hread h => exact .logical (hmem hx) hps hread h
  | statistics hx hps hread h => exact .statistics (hmem hx) hps hread h

end Expr

namespace Memo

variable {σ κ : Type} {m : Memo σ κ} {source : PropertySource σ}

/-- A coherent memo has the group of what an operator reads just if a producer of it is registered. -/
theorem isSome_producer_iff (w : m.Coherent) {op : LogicalOp} {c : CteId} (hop : op.readCte? = some c) :
    ((m.producerOf? op).bind m.group?).isSome = true ↔ m.cteProducers.contains c = true := by
  obtain ⟨r, rfl, rfl⟩ := LogicalOp.readCte?_eq_some_iff.1 hop
  rw [producerOf?, cteProducer?, Lookup.contains]
  cases hg : m.cteProducers.get? r.cte with
  | none => rfl
  | some g =>
    obtain ⟨x, hx⟩ := exists_content (knows_find (knows_find (w.producers_survive hg).1))
    have hgroup : m.group? (m.find g) = some x := hx
    rw [Option.map_some, Option.bind_some, hgroup]
    exact iff_of_true rfl rfl

theorem estimate_of_survives {g : GroupId} (h : m.Survives g) : ∃ x, m.estimate g = .ok x := by
  obtain ⟨x, hx⟩ := exists_content (knows_find h.1)
  have hgroup : m.group? g = some x := hx
  exact ⟨(x.logical, x.statistics), by rw [estimate, group, hgroup]; rfl⟩

/-- The properties of a new group are asked of the source, which sees the producer of what the operator reads. -/
theorem buildProperties_cases (source : PropertySource σ) (op : LogicalOp) {inputs : List GroupId}
    (hinputs : ∀ i ∈ inputs, m.Survives i) :
    ∃ ps : List (LogicalProperties × σ), ps.length = inputs.length ∧ m.buildProperties source op inputs = (do
      let logical ← source.logical op (ps.map Prod.fst) (((m.producerOf? op).bind m.group?).map Group.logical)
      let statistics ← source.statistics op ps (((m.producerOf? op).bind m.group?).map Group.statistics)
      pure (logical, statistics)) := by
  unfold buildProperties
  cases h : inputs.mapM m.estimate with
  | error err =>
    obtain ⟨i, hi, herr⟩ := exists_of_mapM_error h
    obtain ⟨x, hx⟩ := estimate_of_survives (hinputs i hi)
    cases hx.symm.trans herr
  | ok ps => exact ⟨ps, (forall₂_of_mapM_ok h).length_eq.symm, rfl⟩

/-- A reader without a known producer has no properties. -/
theorem source_reader {c : Catalog} {cs : Columns} (hsource : source.logical = LogicalOp.properties c cs)
    {op : LogicalOp} {cte : CteId} (hop : op.readCte? = some cte) :
    source.logical op [] none = .error (.unscopedCte cte) := by
  obtain ⟨r, rfl, rfl⟩ := LogicalOp.readCte?_eq_some_iff.1 hop
  rw [hsource]
  rfl

theorem checkLimit_error {err : PlanError} (h : m.checkLimit = .error err) : ∃ n, m.limit = some n ∧
    err = .exhausted .memoLimit ("The number of memo expressions exceeds the limit: " ++ toString n) := by
  unfold checkLimit at h
  cases hlimit : m.limit with
  | none =>
    rw [hlimit] at h
    cases h
  | some n =>
    rw [hlimit] at h
    split at h
    · exact ⟨n, rfl, (Except.error.inj h).symm⟩
    · cases h

theorem checkDepth_error {depth : Nat} {err : PlanError} (h : checkDepth depth = .error err) :
    err = .tooDeep maxDepth := by
  unfold checkDepth at h
  split at h
  · exact (Except.error.inj h).symm
  · cases h

/-- A tree was copied: its anchors are registered, and what its readers before them read was before. -/
structure Scoped (m n : Memo σ κ) (anchors strays : CteId → Prop) : Prop where
  reads : n.Registers LogicalOp.readCte?
  contains_iff : ∀ cte, n.cteProducers.contains cte = true ↔ m.cteProducers.contains cte = true ∨ anchors cte
  known : ∀ cte, strays cte → m.cteProducers.contains cte = true

/-- A tree cannot be copied: a reader strays, or what is refused does not depend on readers. -/
def Declined (m : Memo σ κ) (strays : CteId → Prop) (refused : PlanError → Prop) (err : PlanError) : Prop :=
  (∃ cte, strays cte ∧ m.cteProducers.contains cte = false ∧ err = .unscopedCte cte) ∨ refused err

section

variable {n o : Memo σ κ} {A B S T : CteId → Prop}

theorem Scoped.congr (h : Scoped m n A S) (hA : ∀ cte, A cte ↔ B cte) (hS : ∀ cte, T cte → S cte) : Scoped m n B T where
  reads := h.reads
  contains_iff cte := by rw [h.contains_iff, hA]
  known cte ht := h.known cte (hS cte ht)

theorem Scoped.trans (h : Scoped m n A S) (k : Scoped n o B T) :
    Scoped m o (fun cte => A cte ∨ B cte) (fun cte => S cte ∨ (¬ A cte ∧ T cte)) where
  reads := k.reads
  contains_iff cte := by rw [k.contains_iff, h.contains_iff, or_assoc]
  known cte hs := hs.elim (h.known cte) fun ⟨ha, ht⟩ => ((h.contains_iff cte).1 (k.known cte ht)).resolve_right ha

/-- What is declined after a part was copied strays past the anchors of the part. -/
theorem Scoped.declined (h : Scoped m n A S) {refused : PlanError → Prop} {err : PlanError}
    (hd : Declined n T refused err) : Declined m (fun cte => ¬ A cte ∧ T cte) refused err := by
  refine hd.imp_left ?_
  rintro ⟨cte, ht, hcte, rfl⟩
  have hnot : ¬ (m.cteProducers.contains cte = true ∨ A cte) := fun hm => by
    rw [(h.contains_iff cte).2 hm] at hcte
    cases hcte
  exact ⟨cte, ⟨fun ha => hnot (.inr ha), ht⟩, Bool.eq_false_iff.2 fun hm => hnot (.inl hm), rfl⟩

theorem Declined.mono {refused refused' : PlanError → Prop} {err : PlanError} (h : Declined m S refused err)
    (hS : ∀ cte, S cte → T cte) (hrefused : refused err → refused' err) : Declined m T refused' err :=
  h.imp (fun ⟨cte, hs, hcte, herr⟩ => ⟨cte, hS cte hs, hcte, herr⟩) hrefused

end

variable {c : Catalog} {cs : Columns} (hsource : source.logical = LogicalOp.properties c cs)

include hsource

/-- An operator is refused because of what it reads just if no producer of that is registered. -/
theorem buildProperties_scoped (w : m.Coherent) {op : LogicalOp} {inputs : List Expr} {groups : List GroupId}
    (hgroups : ∀ g ∈ groups, m.Survives g) (hlength : groups.length = inputs.length)
    (harity : ∀ n, op.arity = some n → inputs.length = n) (limit : Option Nat) :
    (∃ cte, op.readCte? = some cte ∧ m.cteProducers.contains cte = false ∧
      m.buildProperties source op groups = .error (.unscopedCte cte)) ∨
    (∀ cte, op.readCte? = some cte → m.cteProducers.contains cte = true) ∧
      ∀ err, m.buildProperties source op groups = .error err →
        Expr.Refused source limit (.ofLogical op inputs) err := by
  obtain ⟨ps, hps, heq⟩ := buildProperties_cases source op hgroups
  rw [heq]
  by_cases hunread : ∃ cte, op.readCte? = some cte ∧ m.cteProducers.contains cte = false
  · obtain ⟨cte, hop, hcte⟩ := hunread
    have hnone : (m.producerOf? op).bind m.group? = none := by
      rw [← Option.not_isSome_iff_eq_none, isSome_producer_iff w hop, hcte]
      exact Bool.false_ne_true
    have hnil : ps = [] := by
      obtain ⟨r, rfl, -⟩ := LogicalOp.readCte?_eq_some_iff.1 hop
      exact List.eq_nil_of_length_eq_zero (hps.trans (hlength.trans (harity 0 rfl)))
    refine .inl ⟨cte, hop, hcte, ?_⟩
    rw [hnone, hnil]
    change (source.logical op [] none >>= _) = _
    rw [source_reader hsource hop]
    rfl
  · have hread : ∀ cte, op.readCte? = some cte → m.cteProducers.contains cte = true := fun cte hop =>
      Bool.not_eq_false _ ▸ fun h => hunread ⟨cte, hop, h⟩
    have hproducer : op.readCte?.isSome → ((m.producerOf? op).bind m.group?).isSome := fun h => by
      obtain ⟨cte, hop⟩ := Option.isSome_iff_exists.1 h
      exact (isSome_producer_iff w hop).2 (hread cte hop)
    have hself := Expr.mem_subtrees_self (.ofLogical op inputs)
    refine .inr ⟨hread, fun err herr => ?_⟩
    rcases error_of_bind_error herr with hlogical | ⟨logical, -, herr⟩
    · refine .logical hself ?_ (fun h => ?_) hlogical
      · rw [List.length_map, hps, hlength]
      · rw [Option.isSome_map]
        exact hproducer h
    · rcases error_of_bind_error herr with hstatistics | ⟨statistics, -, herr⟩
      · refine .statistics hself (hps.trans hlength) (fun h => ?_) hstatistics
        rw [Option.isSome_map]
        exact hproducer h
      · cases herr

/-- Where an operator is placed, a producer of what it reads is registered. -/
theorem yields_place_scoped {s : Insertion σ κ} (k : Copying m s) (hreads : s.memo.Registers LogicalOp.readCte?) {op : LogicalOp}
    {inputs : List Expr} {groups : List GroupId} (hgroups : ∀ g ∈ groups, s.memo.Survives g)
    (hlength : groups.length = inputs.length) (harity : ∀ n, op.arity = some n → inputs.length = n) :
    Yields (place source none ⟨.logical op, groups⟩ : InsertM σ κ Placed) s
      (fun _ t => Scoped s.memo t.memo (fun _ => False) (op.readCte? = some ·))
      (fun err _ => Declined s.memo (op.readCte? = some ·)
        (Expr.Refused source m.limit (.ofLogical op inputs)) err) := by
  have w := k.wellFormed.coherent
  unfold place
  refine .bind_get ?_
  dsimp only
  split
  · rename_i known hknown
    obtain ⟨e, he, hkey⟩ := (w.index_iff _ known).1 hknown
    have hexpr : s.memo.expr known = .ok e := by rw [expr, he.1]
    refine .bind_lift (fun _ _ => ?_) (fun _ herr => by cases hexpr.symm.trans herr)
    refine .bind (.of_pure (Q := fun _ t => t = s) rfl) ?_
    rintro _ t rfl
    exact .of_pure ⟨hreads, fun cte => (or_false _).symm ▸ .rfl, fun cte hop =>
      hreads known e op cte he.1 (congrArg ExprKey.op hkey) hop⟩
  · refine .bind_lift (fun _ _ => ?_) (fun err herr => .inr ?_)
    · refine .bind (Q := fun _ t => t.memo.Registers LogicalOp.readCte? ∧ t.memo.cteProducers = s.memo.cteProducers ∧
        ∀ cte, op.readCte? = some cte → s.memo.cteProducers.contains cte = true) ?_ ?_
      · unfold chooseGroup
        refine .bind_get ?_
        rcases buildProperties_scoped hsource w hgroups hlength harity m.limit with
          ⟨cte, hop, hcte, hbuilt⟩ | ⟨hread, herror⟩
        · refine .bind_lift (fun built hok => ?_) (fun err herr => .inl ⟨cte, hop, hcte, ?_⟩)
          · cases hbuilt.symm.trans hok
          · exact Except.error.inj (herr.symm.trans hbuilt)
        · exact .bind_lift (fun built _ => .bind_set (.of_pure ⟨hreads, rfl, hread⟩)) fun err herr =>
            .inr (herror err herr)
      · rintro g t ⟨ht, hproducers, hread⟩
        have hcontains : ∀ cte, t.memo.cteProducers.contains cte = s.memo.cteProducers.contains cte := fun cte => by
          rw [hproducers]
        refine .of_modifyGet ⟨ht.addExpr ?_, fun cte => ?_, hread⟩
        · rintro _ cte ⟨⟩ hop
          exact (hcontains cte).trans (hread cte hop)
        · exact (or_false _).symm ▸ iff_of_eq (congrArg (· = true) (hcontains cte))
    · obtain ⟨n, hn, rfl⟩ := checkLimit_error herr
      exact .size (k.limit_eq.symm.trans hn)

omit hsource

theorem yields_registerProducer_scoped {s : Insertion σ κ} (hreads : s.memo.Registers LogicalOp.readCte?) (produced : Option CteId)
    (g : GroupId) : Yields (registerProducer produced g : InsertM σ κ Unit) s
      (fun _ t => Scoped s.memo t.memo (produced = some ·) (fun _ => False)) (fun _ _ => False) := by
  cases produced with
  | none => exact .of_pure ⟨hreads, fun cte => by simp, fun _ => False.elim⟩
  | some cte =>
    unfold registerProducer
    refine .of_modify ?_
    split
    · rename_i hcte
      refine ⟨hreads, fun c => ⟨.inl, fun h => h.elim id ?_⟩, fun _ => False.elim⟩
      rintro ⟨⟩
      exact hcte
    · refine ⟨hreads.setProducer cte g, fun c => ?_, fun _ => False.elim⟩
      rw [Lookup.contains_set_iff, Option.some.injEq]

mutual

/-- Copying a tree registers its anchors, and it fails at a reader that strays. The induction is on the tree; the inputs
of an operator are copied one after the other. -/
theorem yields_copyIn_scoped (hsource : source.logical = LogicalOp.properties c cs) (depth : Nat) :
    ∀ (e : Expr), e.IsLogical → ∀ {s : Insertion σ κ}, Copying m s → s.memo.Registers LogicalOp.readCte? →
    Yields (copyIn source none depth e : InsertM σ κ Placed) s
      (fun _ t => Scoped s.memo t.memo (e.Anchors ·) (e.Strays ·))
      (fun err _ => Declined s.memo (e.Strays ·) (e.Refused source m.limit) err)
  | .group g, he, s, k, hreads => nomatch he
  | .node (.physical op) inputs, he, s, k, hreads => nomatch he
  | .node (.logical op) inputs, he, s, k, hreads => by
    have hinputs : ∀ i ∈ inputs, i.IsLogical := by
      cases he
      assumption
    unfold copyIn
    refine .bind_lift (fun _ _ => ?_) (fun err herr => .inr (checkDepth_error herr ▸ .depth))
    refine .bind_lift (fun _ hchecked => ?_) (fun err herr => .inr (.arity (Expr.mem_subtrees_self _) herr))
    have harity : ∀ n, op.arity = some n → inputs.length = n := checkInputs_ok hchecked
    have hcopied := (yields_copyInputs_scoped hsource (depth + 1) (producedCte? op) inputs hinputs k hreads).and
      (Copying.yields_copyInputs source (depth + 1) (producedCte? op) inputs k)
    refine .bind (hcopied.mono (fun _ _ h => h) fun err _ herr => ?_) ?_
    · exact herr.mono (fun cte h => Expr.strays_ofLogical_iff.2 (.inr h)) fun ⟨i, hi, h⟩ => h.of_input hi
    · rintro groups u ⟨hu, ku, hlength, hsurvive⟩
      have hplace := yields_place_scoped hsource ku.copying hu.reads hsurvive hlength harity
      refine hplace.mono (fun placed v hv => ?_) fun err v herr => ?_
      · refine (hu.trans hv).congr (fun cte => ?_) fun cte h => ?_
        · rw [or_false]
          exact (Expr.anchors_ofLogical_iff harity).symm
        · refine (Expr.strays_ofLogical_iff.1 h).symm.imp id fun hread => ⟨?_, hread⟩
          obtain ⟨r, rfl, -⟩ := LogicalOp.readCte?_eq_some_iff.1 hread
          rw [List.eq_nil_of_length_eq_zero (harity 0 rfl)]
          exact Expr.not_anchorsIn_nil
      · exact (hu.declined herr).mono (fun cte h => Expr.strays_ofLogical_iff.2 (.inl h.2)) id

theorem yields_copyInputs_scoped (hsource : source.logical = LogicalOp.properties c cs) (depth : Nat)
    (produced : Option CteId) : ∀ (es : List Expr), (∀ e ∈ es, e.IsLogical) →
    ∀ {s : Insertion σ κ}, Copying m s → s.memo.Registers LogicalOp.readCte? →
    Yields (copyInputs source depth produced es : InsertM σ κ (List GroupId)) s
      (fun _ t => Scoped s.memo t.memo (Expr.AnchorsIn · produced es) (Expr.StraysIn · produced es))
      (fun err _ => Declined s.memo (Expr.StraysIn · produced es)
        (fun err => ∃ e ∈ es, e.Refused source m.limit err) err)
  | [], _, s, k, hreads => by
    unfold copyInputs
    refine .of_pure ⟨hreads, fun cte => ?_, fun cte h => absurd h Expr.not_straysIn_nil⟩
    exact (or_iff_left Expr.not_anchorsIn_nil).symm
  | e :: es, hes, s, k, hreads => by
    obtain ⟨he, hes⟩ := List.forall_mem_cons.1 hes
    unfold copyInputs
    have hcopied := (yields_copyIn_scoped hsource depth e he k hreads).and
      (Copying.yields_copyIn source m.target_none depth e k)
    refine .bind (hcopied.mono (fun _ _ h => h) fun err _ herr => ?_) ?_
    · exact herr.mono (fun cte h => Expr.straysIn_cons_iff.2 (.inl h)) fun h => ⟨e, List.mem_cons_self .., h⟩
    · rintro placed t ⟨ht, kt, hplaced⟩
      have hregistered := (yields_registerProducer_scoped ht.reads produced placed.group).and
        (kt.copying.yields_registerProducer produced hplaced)
      refine .bind (hregistered.mono (fun _ _ h => h) fun _ _ => False.elim) ?_
      rintro _ u ⟨hu, ku⟩
      have htu := ht.trans hu
      have hpast : ∀ cte, (¬ (e.Anchors cte ∨ produced = some cte) ∧ Expr.StraysIn cte none es) →
          Expr.StraysIn cte produced (e :: es) := fun cte ⟨hnot, h⟩ =>
        Expr.straysIn_cons_iff.2 (.inr ⟨fun hp => hnot (.inr hp), fun ha => hnot (.inl ha), h⟩)
      have hrest := yields_copyInputs_scoped hsource depth none es hes ku.copying hu.reads
      refine .bind (Q := fun _ v => Scoped s.memo v.memo (Expr.AnchorsIn · produced (e :: es))
        (Expr.StraysIn · produced (e :: es))) ?_ fun _ _ h => .of_pure h
      refine hrest.mono (fun _ v hv => ?_) fun err v herr => ?_
      · refine (htu.trans hv).congr (fun cte => Expr.anchorsIn_cons_iff.symm) fun cte h => ?_
        refine (Expr.straysIn_cons_iff.1 h).imp .inl fun ⟨hp, ha, hes⟩ => ⟨fun hor => hor.elim ha hp, hes⟩
      · refine (htu.declined herr).mono hpast fun ⟨x, hx, h⟩ => ⟨x, List.mem_cons_of_mem _ hx, h⟩

end

section

variable (verify : Bool) (limit : Option Nat)

variable [LT κ] [DecidableLT κ] {e : Expr}

/-- A tree is inserted into an empty memo, and no reader strays in it, or it is declined. -/
theorem insert_cases (hsource : source.logical = LogicalOp.properties c cs) (he : e.IsLogical) :
    (∃ err, (empty verify limit : Memo σ κ).insert source e = (.error err, empty verify limit) ∧
      ((∃ cte, e.Strays cte ∧ err = .unscopedCte cte) ∨ e.Refused source limit err)) ∨
    (∃ g n, (empty verify limit : Memo σ κ).insert source e = (.ok g, n)) ∧ ∀ cte, ¬ e.Strays cte := by
  have w : (empty verify limit : Memo σ κ).WellFormed := wellFormed_empty verify limit
  have hcopied := yields_copyIn_scoped hsource 0 e he (copying_start w) (registers_empty _ verify limit)
  unfold Yields at hcopied
  unfold insert
  rcases copyIn_cases source e w (target_none _) with ⟨err, s, hrun, hundo⟩ | ⟨placed, s, hrun, -, -, hmerges⟩
  · rw [hrun] at hcopied
    refine .inl ⟨err, ?_, hcopied.imp_left fun ⟨cte, hstrays, _, herr⟩ => ⟨cte, hstrays, herr⟩⟩
    unfold insertAt
    rw [hrun]
    exact congrArg (Prod.mk _) hundo
  · rw [hrun] at hcopied
    rw [insertAt_of_copyIn source e hrun hmerges]
    exact .inr ⟨⟨_, _, rfl⟩, fun cte hstrays => by cases hcopied.known cte hstrays⟩

/-- A tree with a reader of a common table expression before all anchors of that is not accepted, and the memo stays
empty; such a reader is outside of its anchors. The error names a reader like it, or it does not depend on readers. -/
theorem insert_declines_strays (hsource : source.logical = LogicalOp.properties c cs) (he : e.IsLogical) :
    ((∃ cte, e.Strays cte) →
      ∃ err, (empty verify limit : Memo σ κ).insert source e = (.error err, empty verify limit)) ∧
    (∀ err n, (empty verify limit : Memo σ κ).insert source e = (.error err, n) →
      (∃ cte, e.Strays cte ∧ e.Outside cte ∧ err = .unscopedCte cte) ∨ e.Refused source limit err) := by
  rcases insert_cases (κ := κ) verify limit hsource he with ⟨err, hinsert, hdeclined⟩ | ⟨⟨g, n, hinsert⟩, hnone⟩
  · refine ⟨fun _ => ⟨err, hinsert⟩, fun err' n h => ?_⟩
    cases hinsert.symm.trans h
    exact hdeclined.imp_left fun ⟨cte, hstrays, herr⟩ => ⟨cte, hstrays, hstrays.outside, herr⟩
  · refine ⟨fun ⟨cte, hstrays⟩ => absurd hstrays (hnone cte), fun err' n' h => ?_⟩
    cases hinsert.symm.trans h

end

section

/-- Properties of operators over constants. -/
def constantSource : PropertySource Unit where
  logical := LogicalOp.properties .empty ⟨#[]⟩
  statistics _ _ _ := .ok ()

def anchoredRow : Expr :=
  .ofLogical (.cteAnchor 1) [.ofLogical (.values ⟨[1], [[.int32 1]]⟩) [], .ofLogical (.values ⟨[3], [[.int32 2]]⟩) []]

def readRow : Expr := .ofLogical (.cteConsumer ⟨1, [2], [1]⟩) []

theorem isLogical_leaf (op : LogicalOp) : (Expr.ofLogical op []).IsLogical := .node (List.forall_mem_nil _)

theorem isLogical_anchoredRow : anchoredRow.IsLogical :=
  .node (List.forall_mem_cons.2 ⟨isLogical_leaf _, List.forall_mem_singleton.2 (isLogical_leaf _)⟩)

/-- A reader to the left of the anchor. -/
def earlyReader : Expr := .ofLogical (.unionAll ⟨[4], [[2], [3]]⟩) [readRow, anchoredRow]

/-- A reader to the right of the anchor. -/
def lateReader : Expr := .ofLogical (.unionAll ⟨[4], [[3], [2]]⟩) [anchoredRow, readRow]

theorem insert_declines_strays_earlyReader : constantSource.logical = LogicalOp.properties .empty ⟨#[]⟩ ∧
    earlyReader.IsLogical ∧ earlyReader.Strays 1 ∧
    ((empty true none : Memo Unit Nat).insert constantSource earlyReader).1 = .error (.unscopedCte 1) ∧
      ∃ err, (empty true none : Memo Unit Nat).insert constantSource earlyReader = (.error err, empty true none) ∧
        ((∃ cte, earlyReader.Strays cte ∧ earlyReader.Outside cte ∧ err = .unscopedCte cte) ∨
          earlyReader.Refused constantSource none err) := by
  have hlogical : earlyReader.IsLogical :=
    .node (List.forall_mem_cons.2 ⟨isLogical_leaf _, List.forall_mem_singleton.2 isLogical_anchoredRow⟩)
  have hstrays : earlyReader.Strays 1 := @Expr.Strays.input 1 _ [] [anchoredRow] readRow nofun (List.forall_mem_nil _) (.root rfl)
  have hsource : constantSource.logical = LogicalOp.properties .empty ⟨#[]⟩ := rfl
  obtain ⟨hdeclined, hcause⟩ := insert_declines_strays (κ := Nat) true none hsource hlogical
  obtain ⟨err, herr⟩ := hdeclined ⟨1, hstrays⟩
  exact ⟨rfl, hlogical, hstrays, by decide +kernel, err, herr, hcause err _ herr⟩

/-- The reader stands outside of the anchor, and the tree is accepted all the same. -/
theorem insert_accepts_lateReader : lateReader.IsLogical ∧ lateReader.Outside 1 ∧
    ((empty true none : Memo Unit Nat).insert constantSource lateReader).1.isOk = true := by
  refine ⟨?_, ?_, by decide +kernel⟩
  · exact .node (List.forall_mem_cons.2 ⟨isLogical_anchoredRow, List.forall_mem_singleton.2 (isLogical_leaf _)⟩)
  · exact @Expr.Outside.input 1 _ [anchoredRow] [] readRow nofun (.root rfl)

end

end Memo
end Cascade
