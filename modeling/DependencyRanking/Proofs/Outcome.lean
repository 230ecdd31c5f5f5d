import Mathlib.Data.List.Forall2

/-!
# Computations that end well

A sequence of computations ends well when each of them does.
-/
namespace DependencyRanking.Outcome

variable {ε α β γ : Type}

theorem bind_eq_ok {x : Except ε α} {f : α → Except ε β} {b : β} :
    (x >>= f) = .ok b ↔ ∃ a, x = .ok a ∧ f a = .ok b := by
  cases x with
  | error e => simp [bind, Except.bind]
  | ok a => simp [bind, Except.bind]

theorem bind_eq_error {x : Except ε α} {f : α → Except ε β} {e : ε} :
    (x >>= f) = .error e ↔ x = .error e ∨ ∃ a, x = .ok a ∧ f a = .error e := by
  cases x with
  | error e' => simp [bind, Except.bind]
  | ok a => simp [bind, Except.bind]

theorem map_eq_ok {x : Except ε α} {f : α → β} {b : β} :
    f <$> x = .ok b ↔ ∃ a, x = .ok a ∧ f a = b := by
  cases x with
  | error e => simp [Functor.map, Except.map]
  | ok a => simp [Functor.map, Except.map]

theorem mapM_eq_ok {f : α → Except ε β} {as : List α} {bs : List β} :
    as.mapM f = .ok bs ↔ List.Forall₂ (fun a b => f a = .ok b) as bs := by
  induction as generalizing bs with
  | nil => simp [pure, Except.pure, eq_comm]
  | cons a rest ih =>
    rw [List.mapM_cons, bind_eq_ok]
    simp only [bind_eq_ok, ih, List.forall₂_cons_left_iff]
    constructor
    · rintro ⟨b, hb, bs', hbs, he⟩
      cases he
      exact ⟨b, bs', hb, hbs, rfl⟩
    · rintro ⟨b, bs', hb, hbs, rfl⟩
      exact ⟨b, hb, bs', hbs, rfl⟩

theorem mapM_of_eq_ok {f : α → Except ε β} {g : α → β} {as : List α}
    (h : ∀ a ∈ as, f a = .ok (g a)) : as.mapM f = .ok (as.map g) := by
  rw [mapM_eq_ok, List.forall₂_map_right_iff, List.forall₂_same]
  exact h

theorem mapM_ok {f : α → Except ε β} {P : β → Prop} {as : List α}
    (h : ∀ a ∈ as, ∃ b, f a = .ok b ∧ P b) :
    ∃ bs, as.mapM f = .ok bs ∧ bs.length = as.length ∧ ∀ b ∈ bs, P b := by
  induction as with
  | nil => exact ⟨[], rfl, rfl, fun b hb => absurd hb List.not_mem_nil⟩
  | cons a rest ih =>
    obtain ⟨b, hb, hP⟩ := h a List.mem_cons_self
    obtain ⟨bs, hbs, hl, hall⟩ := ih fun x hx => h x (List.mem_cons_of_mem a hx)
    refine ⟨b :: bs, ?_, by simp [hl], List.forall_mem_cons.2 ⟨hP, hall⟩⟩
    rw [List.mapM_cons, hb, hbs]
    rfl

theorem exists_mapM {f : α → Except ε β} {as : List α} (h : ∀ a ∈ as, ∃ b, f a = .ok b) :
    ∃ bs, as.mapM f = .ok bs := by
  obtain ⟨bs, hbs, -⟩ := mapM_ok (P := fun _ => True) fun a ha =>
    (h a ha).imp fun _ hb => ⟨hb, trivial⟩
  exact ⟨bs, hbs⟩

theorem exists_of_mem_mapM {f : α → Except ε β} {as : List α} {bs : List β}
    (h : as.mapM f = .ok bs) {b : β} (hb : b ∈ bs) : ∃ a ∈ as, f a = .ok b := by
  rw [mapM_eq_ok] at h
  induction h with
  | nil => exact absurd hb List.not_mem_nil
  | cons ha _ ih =>
    rcases List.mem_cons.1 hb with rfl | hb
    · exact ⟨_, List.mem_cons_self, ha⟩
    · obtain ⟨a, ha, hf⟩ := ih hb
      exact ⟨a, List.mem_cons_of_mem _ ha, hf⟩

theorem mapM_eq_error {f : α → Except ε β} {e : ε} {as : List α} (h : ∃ a ∈ as, f a = .error e)
    (hall : ∀ a ∈ as, ∀ e', f a = .error e' → e' = e) : as.mapM f = .error e := by
  induction as with
  | nil =>
    obtain ⟨a, ha, -⟩ := h
    exact absurd ha List.not_mem_nil
  | cons a rest ih =>
    rw [List.mapM_cons]
    cases hf : f a with
    | error e' =>
      rw [hall a List.mem_cons_self e' hf]
      rfl
    | ok b =>
      have hrest : ∃ x ∈ rest, f x = .error e := by
        obtain ⟨x, hx, hfx⟩ := h
        rcases List.mem_cons.1 hx with rfl | hx
        · rw [hf] at hfx
          cases hfx
        · exact ⟨x, hx, hfx⟩
      rw [ih hrest fun x hx => hall x (List.mem_cons_of_mem a hx)]
      rfl

section Failure

def failure? : Except ε α → Option ε
  | .error e => some e
  | .ok _ => none

theorem failure?_eq_none {x : Except ε α} : failure? x = none ↔ ∃ a, x = .ok a := by
  cases x with
  | error e => simp [failure?]
  | ok a => simp [failure?]

theorem failure?_eq_some {x : Except ε α} {e : ε} : failure? x = some e ↔ x = .error e := by
  cases x with
  | error e' => simp [failure?]
  | ok a => simp [failure?]

theorem failure?_bind {x : Except ε α} {f : α → Except ε β} {failure : Option ε}
    (hf : ∀ a, x = .ok a → failure? (f a) = failure) :
    failure? (x >>= f) = (failure? x).or failure := by
  cases x with
  | error e => rfl
  | ok a => exact hf a rfl

theorem failure?_bind_pure (x : Except ε α) (f : α → β) :
    failure? (x >>= fun a => pure (f a)) = failure? x := by
  cases x with
  | error e => rfl
  | ok a => rfl

theorem failure?_mapM {f : α → Except ε β} {checks : α → List γ} {fails : γ → Bool} {error : γ → ε}
    (h : ∀ a, failure? (f a) = ((checks a).find? fails).map error) (as : List α) :
    failure? (as.mapM f) = ((as.flatMap checks).find? fails).map error := by
  induction as with
  | nil => rfl
  | cons a rest ih =>
    rw [List.mapM_cons, List.flatMap_cons, List.find?_append, Option.map_or, ← h, ← ih]
    exact failure?_bind fun b _ => failure?_bind_pure _ _

theorem failure?_mapM_append (f : α → Except ε β) (as bs : List α) :
    failure? ((as ++ bs).mapM f) = (failure? (as.mapM f)).or (failure? (bs.mapM f)) := by
  rw [List.mapM_append]
  exact failure?_bind fun _ _ => failure?_bind_pure _ _

theorem failure?_mapM_eq_some {f : α → Except ε β} {as : List α} {e : ε} :
    failure? (as.mapM f) = some e ↔ ∃ before a after, as = before ++ a :: after ∧
      (∀ b ∈ before, ∃ x, f b = .ok x) ∧ f a = .error e := by
  constructor
  · intro h
    induction as with
    | nil => cases h
    | cons a rest ih =>
      rw [List.mapM_cons] at h
      cases hf : f a with
      | error e' =>
        rw [hf] at h
        cases h
        exact ⟨[], a, rest, rfl, fun b hb => absurd hb List.not_mem_nil, hf⟩
      | ok x =>
        rw [hf, failure?_bind fun _ _ => failure?_bind_pure _ _] at h
        obtain ⟨before, b, after, rfl, hbefore, hb⟩ := ih h
        exact ⟨a :: before, b, after, rfl, List.forall_mem_cons.2 ⟨⟨x, hf⟩, hbefore⟩, hb⟩
  · rintro ⟨before, a, after, rfl, hbefore, ha⟩
    obtain ⟨xs, hxs⟩ := exists_mapM hbefore
    rw [failure?_mapM_append, hxs, List.mapM_cons, ha]
    rfl

end Failure

theorem foldlM_concat {f : β → α → Except ε β} {as : List α} {a : α} {b : β} :
    (as ++ [a]).foldlM f b = as.foldlM f b >>= fun c => f c a := by
  rw [List.foldlM_append]
  simp

end DependencyRanking.Outcome
