/-
# Walks: loops that may stop part of the way

A walk takes a state through a list, item by item, until a step returns an
error; what the steps before it did stays done. Two walks on end are a walk of
the lists on end (`walk_append`), a walk whose steps are walks is one walk of
the items flattened (`walk_walk`), and an invariant of the step is an invariant
of the walk (`walk_invariant`). What is asked of single steps is asked `Along` a
walk: of each item, in the state the walk comes to it in; and a relation that
every such step respects relates all the states on the `trail` to the last one.
-/
import Mathlib

namespace Walk

variable {σ β γ ε : Type}

/-- Take `s` through the list, up to the first error. -/
def walk (step : σ → β → σ × Option ε) : σ → List β → σ × Option ε
  | s, [] => (s, none)
  | s, b :: bs =>
    match step s b with
    | (s', some e) => (s', some e)
    | (s', none) => walk step s' bs

@[simp] theorem walk_nil (step : σ → β → σ × Option ε) (s : σ) : walk step s [] = (s, none) := rfl

variable {step : σ → β → σ × Option ε} {s s' : σ} {b : β}

theorem walk_cons_error {e : ε}
    (h : step s b = (s', some e)) (bs : List β) : walk step s (b :: bs) = (s', some e) := by
  rw [walk, h]

theorem walk_cons_ok
    (h : step s b = (s', none)) (bs : List β) : walk step s (b :: bs) = walk step s' bs := by
  rw [walk, h]

theorem walk_singleton (step : σ → β → σ × Option ε) (s : σ) (b : β) :
    walk step s [b] = step s b := by
  rcases h : step s b with ⟨s', _ | e⟩
  · rw [walk_cons_ok h, walk_nil]
  · rw [walk_cons_error h]

/-- A walk that finished took its first step without an error. -/
theorem walk_ok_cons {bs : List β} (h : walk step s (b :: bs) = (s', none)) :
    ∃ s₁, step s b = (s₁, none) ∧ walk step s₁ bs = (s', none) := by
  rcases hs : step s b with ⟨s₁, _ | e⟩
  · exact ⟨s₁, rfl, by rwa [walk_cons_ok hs] at h⟩
  · rw [walk_cons_error hs] at h
    cases h

/-- In a walk that finished no step failed. -/
theorem walk_ok_forall {xs : List β}
    (h : walk step s xs = (s', none)) : ∀ b ∈ xs, ∃ s₁ s₂, step s₁ b = (s₂, none) := by
  induction xs generalizing s with
  | nil => simp
  | cons x xs ih =>
    obtain ⟨s₁, hx, hrest⟩ := walk_ok_cons h
    intro b hb
    rcases List.mem_cons.mp hb with rfl | hb
    · exact ⟨s, s₁, hx⟩
    · exact ih hrest b hb

theorem walk_append (step : σ → β → σ × Option ε) (xs ys : List β) (s : σ) :
    walk step s (xs ++ ys) =
      match walk step s xs with
      | (s', some e) => (s', some e)
      | (s', none) => walk step s' ys := by
  induction xs generalizing s with
  | nil => rfl
  | cons x xs ih =>
    rcases hs : step s x with ⟨s₁, _ | e⟩
    · rw [List.cons_append, walk_cons_ok hs, walk_cons_ok hs, ih]
    · rw [List.cons_append, walk_cons_error hs, walk_cons_error hs]

/-- What every step keeps, the walk keeps. -/
theorem walk_invariant (step : σ → β → σ × Option ε) (I : σ → Prop) (xs : List β)
    (h : ∀ s, ∀ b ∈ xs, I s → I (step s b).1) {s : σ} (hs : I s) : I (walk step s xs).1 := by
  induction xs generalizing s with
  | nil => exact hs
  | cons x xs ih =>
    have hx := h s x List.mem_cons_self hs
    rcases hstep : step s x with ⟨s₁, _ | e⟩
    · rw [walk_cons_ok hstep]
      rw [hstep] at hx
      exact ih (fun s b hb => h s b (List.mem_cons_of_mem _ hb)) hx
    · rw [walk_cons_error hstep]
      rwa [hstep] at hx

/-- A walk whose steps are themselves walks, as long as `I` holds, is one walk. -/
theorem walk_walk {outer : σ → γ → σ × Option ε} {f : γ → List β}
    {I : σ → Prop} (hI : ∀ s b, I s → I (step s b).1) (xs : List γ)
    (h : ∀ s, I s → ∀ x ∈ xs, outer s x = walk step s (f x)) :
    ∀ s, I s → walk outer s xs = walk step s (xs.flatMap f) := by
  induction xs with
  | nil => exact fun s _ => rfl
  | cons x xs ih =>
    intro s hs
    have hx := h s hs x List.mem_cons_self
    have hkeep : I (walk step s (f x)).1 := walk_invariant step I _ (fun s b _ => hI s b) hs
    rw [List.flatMap_cons, walk_append]
    rcases hw : walk step s (f x) with ⟨s₁, _ | e⟩
    · rw [hw] at hx hkeep
      rw [walk_cons_ok hx]
      exact ih (fun s hs y hy => h s hs y (List.mem_cons_of_mem _ hy)) s₁ hkeep
    · rw [hw] at hx
      rw [walk_cons_error hx]

/-! ### Along a walk -/

/-- `P` holds of every item the walk comes to, in the state it comes to it in. -/
def Along (step : σ → β → σ × Option ε) (P : σ → β → Prop) : σ → List β → Prop
  | _, [] => True
  | s, b :: bs => P s b ∧ ((step s b).2 = none → Along step P (step s b).1 bs)

instance Along.decidable (step : σ → β → σ × Option ε) (P : σ → β → Prop)
    [h : ∀ s b, Decidable (P s b)] : ∀ s bs, Decidable (Along step P s bs)
  | _, [] => isTrue trivial
  | s, b :: bs =>
    have := Along.decidable step P (step s b).1 bs
    inferInstanceAs (Decidable (P s b ∧ ((step s b).2 = none → Along step P (step s b).1 bs)))

theorem along_of_forall {P : σ → β → Prop} :
    ∀ (bs : List β) (s : σ), (∀ s, ∀ b ∈ bs, P s b) → Along step P s bs
  | [], _, _ => trivial
  | b :: bs, s, h =>
    ⟨h s b List.mem_cons_self, fun _ =>
      along_of_forall bs _ fun s c hc => h s c (List.mem_cons_of_mem _ hc)⟩

/-- Every state the walk is in, the first and the last included. -/
def trail (step : σ → β → σ × Option ε) : σ → List β → List σ
  | s, [] => [s]
  | s, b :: bs =>
    match step s b with
    | (s', some _) => [s, s']
    | (s', none) => s :: trail step s' bs

theorem self_mem_trail (step : σ → β → σ × Option ε) (s : σ) : ∀ bs : List β, s ∈ trail step s bs
  | [] => List.mem_singleton.mpr rfl
  | b :: bs => by
    rw [trail]
    split <;> exact List.mem_cons_self

/-- What every step along a walk respects relates all its states to the last. -/
theorem trail_related {P : σ → β → Prop} {R : σ → σ → Prop}
    (hrefl : ∀ s, R s s) (htrans : ∀ {a b c}, R a b → R b c → R a c)
    (h : ∀ s b, P s b → R s (step s b).1) :
    ∀ (bs : List β) (s : σ), Along step P s bs →
      R s (walk step s bs).1 ∧ ∀ s' ∈ trail step s bs, R s' (walk step s bs).1
  | [], s, _ => ⟨hrefl s, fun s' hs => by rw [List.mem_singleton.mp hs]; exact hrefl s⟩
  | b :: bs, s, hal => by
    obtain ⟨hb, hrest⟩ := hal
    have hr := h s b hb
    rcases hs : step s b with ⟨s₁, _ | e⟩
    · rw [hs] at hr hrest
      obtain ⟨h1, h2⟩ := trail_related hrefl htrans h bs s₁ (hrest rfl)
      rw [walk_cons_ok hs, trail, hs]
      exact ⟨htrans hr h1, List.forall_mem_cons.mpr ⟨htrans hr h1, h2⟩⟩
    · rw [hs] at hr
      rw [walk_cons_error hs, trail, hs]
      exact ⟨hr, List.forall_mem_cons.mpr ⟨hr, List.forall_mem_singleton.mpr (hrefl s₁)⟩⟩

end Walk
