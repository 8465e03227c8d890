import Cascade.Memo.Basic

/-!
Merging groups. When two groups are merged, expressions over them can become duplicates, and then
their groups are equivalent too. `Memo.mergeAll` carries out the merges that follow one another;
`Memo.checkMerges` tells beforehand, on the links alone, whether all groups that would be merged
have the same logical properties.
-/

namespace Cascade.Memo

variable {σ κ : Type}

abbrev Merge := GroupId × GroupId

/-- Refuses to merge groups with different logical properties. -/
def checkEquivalent (m : Memo σ κ) (l r : GroupId) : Except PlanError Unit :=
  match m.groups[l.index]?, m.groups[r.index]? with
  | some x, some y =>
    if x.logical = y.logical then .ok ()
    else
      .error (.internal ("Groups " ++ toString l ++ " and " ++ toString r
        ++ " are equivalent but have different logical properties: " ++ toString x.logical ++ " != "
        ++ toString y.logical))
  | some _, none => .error (.unknownGroup r)
  | none, _ => .error (.unknownGroup l)

/-- Links the larger of two numbers to the smaller one. -/
def linkPair (links : Links) (l r : Nat) : Links :=
  if h : l ≤ r then links.link r l h else links.link l r (Nat.le_of_lt (Nat.not_le.1 h))

/-- Links the groups of merges, after a look at their properties. -/
def linkMerges (m : Memo σ κ) (links : Links) : List Merge → Except PlanError Links
  | [] => .ok links
  | (l, r) :: rest => do
    let l := links.find l.index
    let r := links.find r.index
    if l = r then m.linkMerges links rest
    else
      m.checkEquivalent ⟨l⟩ ⟨r⟩
      m.linkMerges (linkPair links l r) rest

/-- The key of an expression once groups are linked. -/
def keyUnder (links : Links) (e : MemoExpr) : ExprKey := ⟨e.op, e.inputs.map (fun g => ⟨links.find g.index⟩)⟩

/-- Whether an expression has an input that is no longer its own group once groups are linked. -/
def isAffected (m : Memo σ κ) (links : Links) (e : MemoExpr) : Bool :=
  e.inputs.any (fun g => !links.isRoot (m.links.find g.index))

/-- The group of the expression that an expression turns into once groups are linked: an unaffected
one, or an affected one that was seen before. -/
def duplicateUnder (m : Memo σ κ) (links : Links) (seen : Lookup ExprKey Nat) (e : MemoExpr) (place : Nat) :
    Option Nat :=
  let key := keyUnder links e
  match m.index.get? key with
  | some other =>
    if other.index = place then seen.get? key
    else (m.expr? other).map (fun o => links.find o.group.index)
  | none => seen.get? key

/-- Looks at one expression: it is noted under its new key, or asks for a merge with the group of the
expression it turns into. -/
def followStep (m : Memo σ κ) (links : Links) (acc : Lookup ExprKey Nat × List Merge) (x : MemoExpr × Nat) :
    Lookup ExprKey Nat × List Merge :=
  let (seen, merges) := acc
  let (e, place) := x
  if e.removed || !m.isAffected links e then acc
  else
    let group := links.find e.group.index
    match m.duplicateUnder links seen e place with
    | some other =>
      if other = group then (seen.set (keyUnder links e) group, merges)
      else (seen, merges ++ [(⟨group⟩, ⟨other⟩)])
    | none => (seen.set (keyUnder links e) group, merges)

/-- The merges that follow from a set of links: expressions that get the same key have the same
group. Affected expressions are looked up among the unaffected ones and the affected ones before
them. -/
def followingMerges (m : Memo σ κ) (links : Links) : List Merge :=
  (m.exprs.zipIdx.foldl (m.followStep links) (∅, [])).2

/-- Follows merges until no more of them follow. Every round but the last leaves fewer groups. -/
def closeMerges (m : Memo σ κ) (links : Links) (merges : List Merge) : Except PlanError Links := do
  let linked ← m.linkMerges links merges
  if linked.roots.length < links.roots.length then
    m.closeMerges linked (m.followingMerges linked)
  else .ok linked
termination_by links.roots.length

/-- Whether merges and all that follow from them are of groups with the same logical properties. -/
def checkMerges (m : Memo σ κ) (merges : List Merge) : Except PlanError Unit :=
  (m.closeMerges m.links merges).map (fun _ => ())

/-- Whether a context has to replace a winner. One that is gone gives way, and replaces none. -/
def replacesWinner [LT κ] [DecidableLT κ] (m : Memo σ κ) (candidate current : ContextId) : Bool :=
  match m.contexts.get candidate, m.contexts.get current with
  | .ok c, .ok w => c.isBetterThan w
  | .ok _, .error _ => true
  | .error _, _ => false

/-- Gives a group the winner of a group it takes over, if that is better than its own. -/
def adoptWinner [LT κ] [DecidableLT κ] (survivor : GroupId) (m : Memo σ κ) (w : Required × ContextId) :
    Memo σ κ :=
  let (r, candidate) := w
  let install (m : Memo σ κ) : Memo σ κ :=
    m.modifyGroup survivor (fun x => { x with winners := x.winners.set r candidate })
  match (m.groups[survivor.index]?).bind (fun x => x.winners.get? r) with
  | none => install m
  | some current =>
    if m.replacesWinner candidate current then
      let m := install m
      { m with contexts := m.contexts.release current }
    else { m with contexts := m.contexts.release candidate }

/-- The key of an expression over the groups that stand for its inputs. -/
def newKey (m : Memo σ κ) (e : MemoExpr) : ExprKey := ⟨e.op, e.inputs.map m.find⟩

/-- Writes the input groups of an expression anew. It is no longer found under its old key, and not yet
under the new one. -/
def rewriteInputs (m : Memo σ κ) (id : ExprId) (e : MemoExpr) : Memo σ κ :=
  { m.modifyExpr id (fun x => { x with inputs := (m.newKey e).inputs }) with
    index := if m.index.get? e.key = some id then m.index.erase e.key else m.index }

/-- Takes an expression out of a group for good. -/
def withdraw (m : Memo σ κ) (id : ExprId) (g : GroupId) : Memo σ κ :=
  (m.modifyExpr id (fun x => { x with removed := true })).modifyGroup g
    (fun x => { x with members := x.members.filter (fun k => !decide (k = id)) })

/-- Brings an expression up to date after groups were linked. If there is another expression with the
same key the expression is removed, and both groups are to be merged. -/
def redirectInputs (acc : Memo σ κ × List Merge) (id : ExprId) : Memo σ κ × List Merge :=
  let (m, merges) := acc
  match m.expr? id with
  | none => acc
  | some e =>
    let key := m.newKey e
    let m := m.rewriteInputs id e
    match m.index.get? key with
    | none => ({ m with index := m.index.set key id }, merges)
    | some other =>
      if other = id then ({ m with index := m.index.set key id }, merges)
      else
        let group := m.find e.group
        let otherGroup := ((m.expr? other).map (fun o => m.find o.group)).getD group
        (m.withdraw id group, if group = otherGroup then merges else merges ++ [(group, otherGroup)])

/-- The expressions that have a group among their inputs. -/
def referencing (m : Memo σ κ) (g : GroupId) : List ExprId :=
  (m.exprs.zipIdx.filter (fun x => !x.1.removed && decide (g ∈ x.1.inputs))).map (fun x => ⟨x.2⟩)

/-- A group with the members of another one besides its own; it was explored, implemented or optimized
only if both were. Winners are not looked at here. -/
def absorb (content x : Group σ) : Group σ :=
  { x with
    members := x.members ++ content.members
    explored := x.explored && content.explored
    implemented := x.implemented && content.implemented
    optimized := x.optimized.filter (fun r => decide (r ∈ content.optimized)) }

/-- What is left of a group that was taken over. -/
def vacate (x : Group σ) : Group σ := { x with members := [], optimized := [], winners := ∅ }

/-- Moves the content of a group to another one. -/
def takeOver [LT κ] [DecidableLT κ] (m : Memo σ κ) (survivor dissolved : GroupId) (content : Group σ) :
    Memo σ κ :=
  let exprs := content.members.foldl (fun m e => m.modifyExpr e (fun x => { x with group := survivor })) m
  let m := (exprs.modifyGroup survivor (absorb content)).modifyGroup dissolved vacate
  let m := content.winners.rows.foldl (adoptWinner survivor) m
  { m with cteProducers := m.cteProducers.mapValues (fun g => if g = dissolved then survivor else g) }

/-- Merges a group into another one with a smaller number; the result lists the merges that follow. -/
def mergeInto [LT κ] [DecidableLT κ] (m : Memo σ κ) (survivor dissolved : GroupId)
    (h : survivor.index ≤ dissolved.index) (content : Group σ) : Memo σ κ × List Merge :=
  let moved := m.takeOver survivor dissolved content
  let linked := { moved with links := m.links.link dissolved.index survivor.index h }
  (linked.referencing dissolved).foldl redirectInputs (linked, [])

theorem links_redirectInputs (acc : Memo σ κ × List Merge) (id : ExprId) :
    (redirectInputs acc id).1.links = acc.1.links := by
  unfold redirectInputs
  simp only
  split
  · rfl
  · split
    · rfl
    · split <;> rfl

theorem links_foldl_redirectInputs (ids : List ExprId) (acc : Memo σ κ × List Merge) :
    (ids.foldl redirectInputs acc).1.links = acc.1.links := by
  induction ids generalizing acc with
  | nil => rfl
  | cons id ids ih => exact (ih _).trans (links_redirectInputs acc id)

theorem exprs_length_redirectInputs (acc : Memo σ κ × List Merge) (id : ExprId) :
    (redirectInputs acc id).1.exprs.length = acc.1.exprs.length := by
  unfold redirectInputs
  simp only
  split
  · rfl
  · have hrewrite : ∀ e, (acc.1.rewriteInputs id e).exprs.length = acc.1.exprs.length := fun e => by
      simp [rewriteInputs, modifyExpr]
    split
    · exact hrewrite _
    · split
      · exact hrewrite _
      · simpa [withdraw, modifyExpr, modifyGroup] using hrewrite _

/-- An expression asks for one merge at most. -/
theorem merges_length_redirectInputs (acc : Memo σ κ × List Merge) (id : ExprId) :
    (redirectInputs acc id).2.length ≤ acc.2.length + 1 := by
  unfold redirectInputs
  simp only
  split
  · exact Nat.le_succ _
  · split
    · exact Nat.le_succ _
    · split
      · exact Nat.le_succ _
      · dsimp only
        split
        · exact Nat.le_succ _
        · simp

theorem length_foldl_redirectInputs (ids : List ExprId) (acc : Memo σ κ × List Merge) :
    (ids.foldl redirectInputs acc).1.exprs.length = acc.1.exprs.length ∧
      (ids.foldl redirectInputs acc).2.length ≤ acc.2.length + ids.length := by
  induction ids generalizing acc with
  | nil => exact ⟨rfl, Nat.le_refl _⟩
  | cons id ids ih =>
    obtain ⟨hexprs, hmerges⟩ := ih (redirectInputs acc id)
    have := merges_length_redirectInputs acc id
    refine ⟨hexprs.trans (exprs_length_redirectInputs acc id), Nat.le_trans hmerges ?_⟩
    rw [List.length_cons]
    omega

theorem exprs_length_takeOver [LT κ] [DecidableLT κ] (m : Memo σ κ) (survivor dissolved : GroupId)
    (content : Group σ) : (m.takeOver survivor dissolved content).exprs.length = m.exprs.length := by
  have hadopt : ∀ (rows : List (Required × ContextId)) (m : Memo σ κ),
      (rows.foldl (adoptWinner survivor) m).exprs = m.exprs := by
    intro rows
    induction rows with
    | nil => exact fun _ => rfl
    | cons w rows ih =>
      intro m
      refine (ih _).trans ?_
      unfold adoptWinner
      dsimp only
      split
      · rfl
      · split <;> rfl
  have hmove : ∀ (ids : List ExprId) (m : Memo σ κ),
      (ids.foldl (fun m e => m.modifyExpr e (fun x => { x with group := survivor })) m).exprs.length =
        m.exprs.length := by
    intro ids
    induction ids with
    | nil => exact fun _ => rfl
    | cons id ids ih => exact fun m => (ih _).trans (List.length_modify ..)
  exact (congrArg List.length (hadopt _ _)).trans (hmove _ _)

theorem length_mergeInto [LT κ] [DecidableLT κ] (m : Memo σ κ) {survivor dissolved : GroupId}
    (h : survivor.index ≤ dissolved.index) (content : Group σ) :
    (m.mergeInto survivor dissolved h content).1.exprs.length = m.exprs.length ∧
      (m.mergeInto survivor dissolved h content).2.length ≤ m.exprs.length := by
  have htake := exprs_length_takeOver m survivor dissolved content
  obtain ⟨hexprs, hmerges⟩ := length_foldl_redirectInputs
    (referencing { m.takeOver survivor dissolved content with
      links := m.links.link dissolved.index survivor.index h } dissolved)
    ({ m.takeOver survivor dissolved content with links := m.links.link dissolved.index survivor.index h }, [])
  refine ⟨hexprs.trans htake, Nat.le_trans hmerges ?_⟩
  rw [List.length_nil, Nat.zero_add, ← htake, referencing, List.length_map]
  exact Nat.le_trans (List.length_filter_le _ _) (Nat.le_of_eq List.length_zipIdx)

/-- A merge takes a group away and lets fewer merges follow than there are places for. -/
theorem pending_lt {queue following exprs roots left : Nat} (hroots : left < roots) (hfollowing : following ≤ exprs) :
    queue + following + left * (exprs + 1) < queue + 1 + roots * (exprs + 1) := by
  have := Nat.mul_le_mul_right (exprs + 1) hroots
  rw [Nat.succ_mul] at this
  omega

theorem links_mergeInto [LT κ] [DecidableLT κ] (m : Memo σ κ) {survivor dissolved : GroupId}
    (h : survivor.index ≤ dissolved.index) (content : Group σ) :
    (m.mergeInto survivor dissolved h content).1.links =
      m.links.link dissolved.index survivor.index h :=
  links_foldl_redirectInputs _ _

/-- Carries out merges one after the other, each followed later by those that follow from it. -/
def mergeAll [LT κ] [DecidableLT κ] (m : Memo σ κ) (queue : List Merge) :
    Except PlanError Unit × Memo σ κ :=
  match queue with
  | [] => (.ok (), m)
  | (l, r) :: rest =>
    let a := m.find l
    let b := m.find r
    if _ne : a.index = b.index then m.mergeAll rest
    else
      let survivor : GroupId := ⟨min a.index b.index⟩
      let dissolved : GroupId := ⟨max a.index b.index⟩
      match m.checkEquivalent survivor dissolved, m.groups[dissolved.index]? with
      | .error e, _ => (.error e, m)
      | .ok (), none => (.error (.unknownGroup dissolved), m)
      | .ok (), some content =>
        if _known : dissolved.index < m.links.size then
          let merged := m.mergeInto survivor dissolved
            (by show min a.index b.index ≤ max a.index b.index; omega) content
          merged.1.mergeAll (rest ++ merged.2)
        else (.error (.unknownGroup dissolved), m)
termination_by queue.length + m.links.roots.length * (m.exprs.length + 1)
decreasing_by
  · exact Nat.add_lt_add_right (Nat.lt_succ_self _) _
  · obtain ⟨hexprs, hmerges⟩ := m.length_mergeInto
      (show (⟨min a.index b.index⟩ : GroupId).index ≤ (⟨max a.index b.index⟩ : GroupId).index by
        show min a.index b.index ≤ max a.index b.index
        omega) content
    rw [List.length_append, List.length_cons, hexprs, links_mergeInto]
    refine pending_lt ?_ hmerges
    refine Links.roots_link_lt _ (show min a.index b.index < max a.index b.index by omega) _known ?_
    rcases Nat.le_total a.index b.index with h | h
    · rw [Nat.max_eq_right h]
      exact m.links.isRoot_find _
    · rw [Nat.max_eq_left h]
      exact m.links.isRoot_find _

end Cascade.Memo
