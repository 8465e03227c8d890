import Cascade.Error

/-!
Steps that change a state and can fail. `Yields x s Q E` says of a step `x` taken in a state `s` that an
answer and the state it is given in have `Q`, and an error and the state it is reached in have `E`. It
is computed along the step, so a statement about a step is one about its parts.
-/

namespace Cascade

/-- What a step comes to: an answer with `Q` or an error with `E`. -/
def Yields {ε S α : Type} (x : ExceptT ε (StateM S) α) (s : S) (Q : α → S → Prop) (E : ε → S → Prop) : Prop :=
  match x.run s with
  | (.ok a, t) => Q a t
  | (.error e, t) => E e t

namespace Yields

variable {ε S α β : Type} {Q : α → S → Prop} {E : ε → S → Prop} {s t : S}

theorem of_ok {x : ExceptT ε (StateM S) α} {a : α} (h : Yields x s Q E) (hx : x.run s = (.ok a, t)) : Q a t := by
  unfold Yields at h
  rwa [hx] at h

/-- A step that comes to no error gives an answer. -/
theorem exists_run {x : ExceptT ε (StateM S) α} (h : Yields x s Q (fun _ _ => False)) :
    ∃ a t, x.run s = (.ok a, t) ∧ Q a t := by
  unfold Yields at h
  split at h
  · rename_i a t hx
    exact ⟨a, t, hx, h⟩
  · exact h.elim

theorem run_eq {x : ExceptT ε (StateM S) α} {a : α} (h : Yields x s (fun b u => b = a ∧ u = t) (fun _ _ => False)) :
    x.run s = (.ok a, t) := by
  obtain ⟨_, _, hx, rfl, rfl⟩ := h.exists_run
  exact hx

theorem mono {x : ExceptT ε (StateM S) α} {Q' : α → S → Prop} {E' : ε → S → Prop} (h : Yields x s Q E)
    (hQ : ∀ a t, Q a t → Q' a t) (hE : ∀ e t, E e t → E' e t) : Yields x s Q' E' := by
  unfold Yields at *
  split
  · rename_i a t hx
    rw [hx] at h
    exact hQ a t h
  · rename_i e t hx
    rw [hx] at h
    exact hE e t h

theorem and {x : ExceptT ε (StateM S) α} {R : α → S → Prop} {F : ε → S → Prop} (h : Yields x s Q E)
    (k : Yields x s R F) : Yields x s (fun a t => Q a t ∧ R a t) E := by
  unfold Yields at *
  split
  · rename_i a t hx
    rw [hx] at h k
    exact ⟨h, k⟩
  · rename_i e t hx
    rw [hx] at h
    exact h

theorem bind_iff (x : ExceptT ε (StateM S) α) (f : α → ExceptT ε (StateM S) β) (s : S) (Q : β → S → Prop)
    (E : ε → S → Prop) : Yields (x >>= f) s Q E ↔ Yields x s (fun a t => Yields (f a) t Q E) E := by
  have hrun : (x >>= f).run s =
      match x.run s with
      | (.ok a, t) => (f a).run t
      | (.error e, t) => (.error e, t) := by
    change (match ExceptT.run x s with | (r, t) => ExceptT.bindCont f r t) = _
    rcases ExceptT.run x s with ⟨r, t⟩
    cases r <;> rfl
  unfold Yields
  rw [hrun]
  rcases ExceptT.run x s with ⟨r, t⟩
  cases r <;> rfl

theorem bind {x : ExceptT ε (StateM S) α} {f : α → ExceptT ε (StateM S) β} {R : β → S → Prop}
    (h : Yields x s Q E) (hf : ∀ a t, Q a t → Yields (f a) t R E) : Yields (x >>= f) s R E :=
  (bind_iff x f s R E).2 (h.mono hf fun _ _ he => he)

/-- Nothing is said of errors. -/
theorem of_run {x : ExceptT ε (StateM S) α} (h : ∀ a t, x.run s = (.ok a, t) → Q a t) :
    Yields x s Q (fun _ _ => True) := by
  unfold Yields
  split
  · rename_i a t hx
    exact h a t hx
  · trivial

theorem map {x : ExceptT ε (StateM S) α} {f : α → β} {Q : β → S → Prop} (h : Yields x s (fun a t => Q (f a) t) E) :
    Yields (f <$> x) s Q E := by
  have hrun : (f <$> x).run s = ((x.run s).1.map f, (x.run s).2) := by
    change (match ExceptT.run x s with | (r, t) => (match r with
      | .ok a => (pure (Except.ok (f a)) : StateM S (Except ε β))
      | .error e => pure (Except.error e)) t) = _
    rcases ExceptT.run x s with ⟨r, t⟩
    cases r <;> rfl
  unfold Yields at *
  rw [hrun]
  generalize ExceptT.run x s = r at h
  obtain ⟨r, t⟩ := r
  cases r <;> exact h

/-- Whatever a step comes to. -/
theorem any (x : ExceptT ε (StateM S) α) (s : S) : Yields x s (fun _ _ => True) (fun _ _ => True) :=
  of_run fun _ _ _ => trivial

theorem of_pure {a : α} (h : Q a s) : Yields (pure a) s Q E := h

theorem of_throw {e : ε} (h : E e s) : Yields (throw e) s Q E := h

theorem of_modify {Q : PUnit → S → Prop} {f : S → S} (h : Q ⟨⟩ (f s)) : Yields (modify f) s Q E := h

theorem of_modifyGet {f : S → α × S} (h : Q (f s).1 (f s).2) : Yields (modifyGet f) s Q E := h

theorem of_lift {r : Except ε α} (hok : ∀ a, r = .ok a → Q a s) (herror : ∀ e, r = .error e → E e s) :
    Yields (liftM r) s Q E := by
  cases r with
  | ok a => exact hok a rfl
  | error e => exact herror e rfl

theorem bind_get {f : S → ExceptT ε (StateM S) α} (h : Yields (f s) s Q E) : Yields (get >>= f) s Q E :=
  (bind_iff get f s Q E).2 h

theorem bind_set {f : PUnit → ExceptT ε (StateM S) α} (h : Yields (f ⟨⟩) t Q E) : Yields (set t >>= f) s Q E :=
  (bind_iff (set t) f s Q E).2 h

theorem bind_modify {g : S → S} {f : PUnit → ExceptT ε (StateM S) α} (h : Yields (f ⟨⟩) (g s) Q E) :
    Yields (modify g >>= f) s Q E :=
  (bind_iff (modify g) f s Q E).2 h

theorem bind_modifyGet {g : S → β × S} {f : β → ExceptT ε (StateM S) α} (h : Yields (f (g s).1) (g s).2 Q E) :
    Yields (modifyGet g >>= f) s Q E :=
  (bind_iff (modifyGet g) f s Q E).2 h

theorem bind_lift {r : Except ε β} {f : β → ExceptT ε (StateM S) α} (hok : ∀ a, r = .ok a → Yields (f a) s Q E)
    (herror : ∀ e, r = .error e → E e s) : Yields (liftM r >>= f) s Q E :=
  (bind_iff (liftM r) f s Q E).2 (of_lift hok herror)

/-- Steps taken for each member of a list give answers with `P` if each of them does. -/
theorem mapM {f : α → ExceptT ε (StateM S) β} {l : List α} {P : β → Prop}
    (h : ∀ a ∈ l, ∀ s, Yields (f a) s (fun b _ => P b) E) (s : S) :
    Yields (l.mapM f) s (fun bs _ => ∀ b ∈ bs, P b) E := by
  induction l generalizing s with
  | nil => exact .of_pure (List.forall_mem_nil _)
  | cons a l ih =>
    obtain ⟨ha, hl⟩ := List.forall_mem_cons.1 h
    rw [List.mapM_cons]
    exact (ha s).bind fun b t hb => (ih hl t).bind fun bs _ hbs => .of_pure (List.forall_mem_cons.2 ⟨hb, hbs⟩)

end Yields
end Cascade
