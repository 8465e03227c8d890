import Mathlib.Data.List.Forall2

/-!
Lists that match member by member. Steps taken for each member of a list, up to the first that fails,
give answers that match the members if none fails.
-/

namespace Cascade

theorem exists_of_bind_ok {ε α β : Type} {x : Except ε α} {f : α → Except ε β} {b : β} (h : (x >>= f) = .ok b) :
    ∃ a, x = .ok a ∧ f a = .ok b := by
  cases x with
  | error e => cases h
  | ok a => exact ⟨a, rfl, h⟩

theorem bind_ok_of_ok {ε α β : Type} {x : Except ε α} {a : α} {f : α → Except ε β} {b : β} (hx : x = .ok a)
    (h : f a = .ok b) : (x >>= f) = .ok b := by
  rw [hx]
  exact h

theorem error_of_bind_error {ε α β : Type} {x : Except ε α} {f : α → Except ε β} {e : ε} (h : (x >>= f) = .error e) :
    x = .error e ∨ ∃ a, x = .ok a ∧ f a = .error e := by
  cases x with
  | error e' =>
    cases h
    exact .inl rfl
  | ok a => exact .inr ⟨a, rfl, h⟩

theorem exists_of_map_ok {ε α β : Type} {x : Except ε α} {f : α → β} {b : β} (h : x.map f = .ok b) :
    ∃ a, x = .ok a ∧ f a = b := by
  cases x with
  | error e => cases h
  | ok a => exact ⟨a, rfl, Except.ok.inj h⟩

theorem eq_ok_of_toOption {ε α : Type} {x : Except ε α} {a : α} (h : x.toOption = some a) : x = .ok a := by
  cases x <;> cases h
  rfl

theorem forall₂_of_mapM_ok {ε α β : Type} {f : α → Except ε β} {l : List α} {r : List β}
    (h : l.mapM f = .ok r) : List.Forall₂ (fun a b => f a = .ok b) l r := by
  induction l generalizing r with
  | nil =>
    cases h
    exact .nil
  | cons a l ih =>
    rw [List.mapM_cons] at h
    obtain ⟨b, ha, h⟩ := exists_of_bind_ok h
    obtain ⟨bs, hl, h⟩ := exists_of_bind_ok h
    cases h
    exact .cons ha (ih hl)

theorem forall₂_of_mapM_some {α β : Type} {f : α → Option β} {l : List α} {r : List β}
    (h : l.mapM f = some r) : List.Forall₂ (fun a b => f a = some b) l r := by
  induction l generalizing r with
  | nil =>
    cases h
    exact .nil
  | cons a l ih =>
    rw [List.mapM_cons] at h
    obtain ⟨b, ha, h⟩ := Option.bind_eq_some_iff.1 h
    obtain ⟨bs, hl, h⟩ := Option.bind_eq_some_iff.1 h
    cases h
    exact .cons ha (ih hl)

theorem exists_of_mem_right {α β : Type} {R : α → β → Prop} {l : List α} {r : List β} (h : List.Forall₂ R l r)
    {b : β} (hb : b ∈ r) : ∃ a ∈ l, R a b := by
  induction h with
  | nil => cases hb
  | @cons a c _ _ hac _ ih =>
    rcases List.mem_cons.1 hb with rfl | hb
    · exact ⟨a, List.mem_cons_self .., hac⟩
    · obtain ⟨x, hx, hxb⟩ := ih hb
      exact ⟨x, List.mem_cons_of_mem _ hx, hxb⟩

theorem exists_of_mem_left {α β : Type} {R : α → β → Prop} {l : List α} {r : List β} (h : List.Forall₂ R l r)
    {a : α} (ha : a ∈ l) : ∃ b ∈ r, R a b := by
  obtain ⟨b, hb, hab⟩ := exists_of_mem_right h.flip ha
  exact ⟨b, hb, hab⟩

theorem getElem?_of_forall₂ {α β : Type} {R : α → β → Prop} {l : List α} {r : List β} (h : List.Forall₂ R l r)
    {i : Nat} {a : α} (ha : l[i]? = some a) : ∃ b, r[i]? = some b ∧ R a b := by
  obtain ⟨hi, rfl⟩ := List.getElem?_eq_some_iff.1 ha
  have hr : i < r.length := h.length_eq ▸ hi
  exact ⟨r[i], List.getElem?_eq_getElem hr, h.get hi hr⟩

theorem exists_forall₂ {α β : Type} {R : α → β → Prop} {l : List α} (h : ∀ a ∈ l, ∃ b, R a b) :
    ∃ r, List.Forall₂ R l r := by
  induction l with
  | nil => exact ⟨[], .nil⟩
  | cons a l ih =>
    obtain ⟨ha, hl⟩ := List.forall_mem_cons.1 h
    obtain ⟨b, hb⟩ := ha
    obtain ⟨r, hr⟩ := ih hl
    exact ⟨b :: r, .cons hb hr⟩

theorem exists_of_mem_zip {α β γ : Type} {R : α → β → Prop} {l : List α} {r : List β} {t : List γ}
    (h : List.Forall₂ R l r) {b : β} {c : γ} (hbc : (b, c) ∈ r.zip t) : ∃ a, R a b ∧ (a, c) ∈ l.zip t := by
  obtain ⟨i, hi⟩ := List.mem_iff_getElem?.1 hbc
  obtain ⟨hb, hc⟩ := List.getElem?_zip_eq_some.1 hi
  obtain ⟨a, ha, hab⟩ := getElem?_of_forall₂ h.flip hb
  exact ⟨a, hab, List.mem_iff_getElem?.2 ⟨i, List.getElem?_zip_eq_some.2 ⟨ha, hc⟩⟩⟩

theorem forall₂_trans {α : Type} {R : α → α → Prop} {l r t : List α} (h : List.Forall₂ R l r)
    (k : List.Forall₂ R r t) (hR : ∀ a b c, R a b → R b c → R a c) : List.Forall₂ R l t := by
  induction h generalizing t with
  | nil => exact k
  | cons hab _ ih =>
    cases k with
    | cons hbc k => exact .cons (hR _ _ _ hab hbc) (ih k)

theorem forall₂_symm {α : Type} {R : α → α → Prop} {l r : List α} (h : List.Forall₂ R l r)
    (hR : ∀ a b, R a b → R b a) : List.Forall₂ R r l :=
  (List.Forall₂.imp hR h).flip

/-- Lists match member by member under a function if it maps them to the same list. -/
theorem forall₂_map_eq_iff {α β : Type} (f : α → β) (l r : List α) :
    List.Forall₂ (fun a b => f a = f b) l r ↔ l.map f = r.map f := by
  rw [← List.forall₂_eq_eq_eq, List.forall₂_map_left_iff, List.forall₂_map_right_iff]

/-- If the images of the members are answered, these are the members just if the members are left as they are. -/
theorem forall₂_ok_iff {α β ε : Type} {f : β → Except ε α} {g : α → α} {l : List α} {r : List β}
    (h : List.Forall₂ (fun a b => f b = .ok (g a)) l r) :
    List.Forall₂ (fun a b => f b = .ok a) l r ↔ ∀ a ∈ l, g a = a := by
  induction h with
  | nil => simp
  | cons hab _ ih => rw [List.forall₂_cons, List.forall_mem_cons, ih, hab, Except.ok.injEq]

theorem getElem?_concat_cases {α : Type} {l : List α} {a b : α} {i : Nat} (h : (l ++ [a])[i]? = some b) :
    (i < l.length ∧ l[i]? = some b) ∨ (i = l.length ∧ b = a) := by
  rcases Nat.lt_trichotomy i l.length with hi | rfl | hi
  · exact .inl ⟨hi, by rwa [List.getElem?_append_left hi] at h⟩
  · exact .inr ⟨rfl, (Option.some.inj (List.getElem?_concat_length.symm.trans h)).symm⟩
  · rw [List.getElem?_eq_none (by simp only [List.length_append, List.length_singleton]; omega)] at h
    cases h

theorem mapM_ok_of_forall₂ {ε α β : Type} {f : α → Except ε β} {l : List α} {r : List β}
    (h : List.Forall₂ (fun a b => f a = .ok b) l r) : l.mapM f = .ok r := by
  induction h with
  | nil => rfl
  | cons ha _ ih =>
    rw [List.mapM_cons, ha, ih]
    rfl

theorem ok_of_forM_ok {ε α : Type} {f : α → Except ε Unit} {l : List α} {u : Unit} (h : l.forM f = .ok u) :
    ∀ a ∈ l, f a = .ok () := by
  induction l with
  | nil => exact fun a ha => absurd ha List.not_mem_nil
  | cons b l ih =>
    obtain ⟨v, hb, h⟩ := exists_of_bind_ok h
    intro a ha
    rcases List.mem_cons.1 ha with rfl | ha
    · exact hb
    · exact ih h a ha

/-- A sequence of computations fails because one of them does. -/
theorem exists_of_mapM_error {ε α β : Type} {f : α → Except ε β} {l : List α} {e : ε} (h : l.mapM f = .error e) :
    ∃ a ∈ l, f a = .error e := by
  induction l with
  | nil => cases h
  | cons a l ih =>
    rw [List.mapM_cons] at h
    cases ha : f a with
    | error e' =>
      rw [ha] at h
      cases h
      exact ⟨a, List.mem_cons_self .., ha⟩
    | ok b =>
      rw [ha] at h
      cases hl : l.mapM f with
      | error e' =>
        rw [hl] at h
        cases h
        obtain ⟨k, hk, hf⟩ := ih hl
        exact ⟨k, List.mem_cons_of_mem _ hk, hf⟩
      | ok r =>
        rw [hl] at h
        cases h

theorem map_modify_of_eq {α β : Type} (s : α → β) (f : α → α) (h : ∀ x, s (f x) = s x) (l : List α) (i : Nat) :
    (l.modify i f).map s = l.map s := by
  apply List.ext_getElem?
  intro j
  rw [List.getElem?_map, List.getElem?_map, List.getElem?_modify]
  split
  · cases l[j]? with
    | none => rfl
    | some x => exact congrArg some (h x)
  · simp

end Cascade
