import Mathlib.Data.List.Forall2

namespace MethodBody

variable {α β ε δ : Type}

theorem bind_eq_ok_iff {e : Except ε α} {f : α → Except ε β} {y : β} :
    e >>= f = .ok y ↔ ∃ x, e = .ok x ∧ f x = .ok y := by
  cases e <;> simp [bind, Except.bind]

theorem map_eq_ok_iff {e : Except ε α} {f : α → β} {y : β} :
    e.map f = .ok y ↔ ∃ x, e = .ok x ∧ f x = y := by
  cases e <;> simp [Except.map]

theorem mapError_eq_ok_iff {e : Except ε α} {f : ε → δ} {x : α} :
    e.mapError f = .ok x ↔ e = .ok x := by
  cases e <;> simp [Except.mapError]

theorem bind_eq_error_iff {e : Except ε α} {f : α → Except ε β} {err : ε} :
    e >>= f = .error err ↔ e = .error err ∨ ∃ x, e = .ok x ∧ f x = .error err := by
  cases e <;> simp [bind, Except.bind]

theorem of_bind_eq_error {e : Except ε α} {f : α → Except ε β} {err : ε}
    (h : e >>= f = .error err) (hne : e ≠ .error err) : ∃ x, e = .ok x ∧ f x = .error err :=
  (bind_eq_error_iff.mp h).resolve_left hne

theorem map_eq_error_iff {e : Except ε α} {f : α → β} {err : ε} :
    e.map f = .error err ↔ e = .error err := by
  cases e <;> simp [Except.map]

theorem mapError_eq_error_iff {e : Except ε α} {f : ε → δ} {err : δ} :
    e.mapError f = .error err ↔ ∃ cause, e = .error cause ∧ f cause = err := by
  cases e <;> simp [Except.mapError]

theorem mapError_ne_error {e : Except ε α} {f : ε → δ} {err : δ} (h : ∀ cause, f cause ≠ err) :
    e.mapError f ≠ .error err := by
  intro he
  obtain ⟨cause, _, hcause⟩ := mapError_eq_error_iff.mp he
  exact h cause hcause

/-- A traversal succeeds just if every step does, and then collects what the steps yield. -/
theorem mapM_eq_ok_iff {f : α → Except ε β} {xs : List α} {ys : List β} :
    xs.mapM f = .ok ys ↔ List.Forall₂ (fun x y => f x = .ok y) xs ys := by
  induction xs generalizing ys with
  | nil => cases ys <;> simp [pure, Except.pure]
  | cons x xs ih =>
    rw [List.mapM_cons, bind_eq_ok_iff]
    constructor
    · intro ⟨y, hy, h⟩
      obtain ⟨ys', hys, h⟩ := bind_eq_ok_iff.mp h
      cases h
      exact .cons hy (ih.mp hys)
    · intro h
      cases h with
      | cons hy hys => exact ⟨_, hy, bind_eq_ok_iff.mpr ⟨_, ih.mpr hys, rfl⟩⟩

theorem mapM_exists_iff {f : α → Except ε β} {xs : List α} :
    (∃ ys, xs.mapM f = .ok ys) ↔ ∀ x ∈ xs, ∃ y, f x = .ok y := by
  induction xs with
  | nil => simp [pure, Except.pure]
  | cons x xs ih =>
    rw [List.forall_mem_cons, ← ih, List.mapM_cons]
    constructor
    · rintro ⟨ys, h⟩
      obtain ⟨y, hy, h⟩ := bind_eq_ok_iff.mp h
      obtain ⟨ys', hys, _⟩ := bind_eq_ok_iff.mp h
      exact ⟨⟨y, hy⟩, ys', hys⟩
    · rintro ⟨⟨y, hy⟩, ys, hys⟩
      exact ⟨y :: ys, by rw [hy, hys]; rfl⟩

/-- The first step that fails decides a traversal. -/
theorem mapM_eq_error {f : α → Except ε β} {before behind : List α} {x : α} {e : ε}
    (hbefore : ∀ y ∈ before, ∃ z, f y = .ok z) (hx : f x = .error e) :
    (before ++ x :: behind).mapM f = .error e := by
  induction before with
  | nil =>
    rw [List.nil_append, List.mapM_cons, hx]
    rfl
  | cons y before ih =>
    obtain ⟨z, hy⟩ := hbefore y List.mem_cons_self
    rw [List.cons_append, List.mapM_cons, hy, ih fun w hw => hbefore w (List.mem_cons_of_mem y hw)]
    rfl

theorem exists_mem_of_mapM_eq_error {f : α → Except ε β} {xs : List α} {e : ε}
    (h : xs.mapM f = .error e) : ∃ x ∈ xs, f x = .error e := by
  induction xs with
  | nil => cases h
  | cons x xs ih =>
    rw [List.mapM_cons] at h
    rcases bind_eq_error_iff.mp h with hx | ⟨y, _, h⟩
    · exact ⟨x, List.mem_cons_self, hx⟩
    · rcases bind_eq_error_iff.mp h with hxs | ⟨ys, _, h⟩
      · obtain ⟨z, hz, hfail⟩ := ih hxs
        exact ⟨z, List.mem_cons_of_mem x hz, hfail⟩
      · cases h

theorem foldlM_mapError_eq_ok_iff {f : β → α → Except ε β} {g : α → ε → δ} {xs : List α}
    {b c : β} :
    xs.foldlM (fun b x => (f b x).mapError (g x)) b = .ok c ↔ xs.foldlM f b = .ok c := by
  induction xs generalizing b with
  | nil => simp [pure, Except.pure]
  | cons x xs ih =>
    simp only [List.foldlM_cons, bind_eq_ok_iff, mapError_eq_ok_iff, ih]

theorem zipIdx_increasing (xs : List α) (n : Nat) : (xs.zipIdx n).Pairwise (·.2 < ·.2) := by
  have hnumbers : ((xs.zipIdx n).map Prod.snd).Pairwise (· < ·) := by
    rw [List.zipIdx_map_snd]
    exact List.pairwise_lt_range'
  exact List.pairwise_map.mp hnumbers

theorem exists_append_of_getElem? {xs : List α} {i : Nat} {x : α}
    (h : xs[i]? = some x) : ∃ before behind, xs = before ++ x :: behind ∧ i = before.length := by
  obtain ⟨hi, rfl⟩ := List.getElem?_eq_some_iff.mp h
  have hbehind : xs.drop i = xs[i] :: xs.drop (i + 1) := List.drop_eq_getElem_cons hi
  refine ⟨xs.take i, xs.drop (i + 1), ?_, ?_⟩
  · rw [← hbehind, List.take_append_drop]
  · rw [List.length_take_of_le (Nat.le_of_lt hi)]

end MethodBody
