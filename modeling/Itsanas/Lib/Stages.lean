/-
# Calls that stop half way

A call is a list of steps, each with what covers the caller should the call stop before it. It
may stop anywhere: by an error, or because the process dies. `Along` says that a property holds
of the state wherever the call may stop under certain covers, its end included; it is shown
step by step, and part by part for calls made of others.

Key theorems: `Stages.Along.append`, `Stages.Along.at`.
-/
import Mathlib.Data.List.Basic

namespace Itsanas

/-- One step of a call, and what covers the caller before it. -/
structure Stage (C σ : Type) where
  cover : C
  effect : σ → σ

namespace Stages

variable {C σ : Type}

/-- The state after some steps. -/
def after (s : σ) (stages : List (Stage C σ)) : σ := stages.foldl (fun s stage => stage.effect s) s

/-- What covers a call that stops after `k` steps; `done` at its end. -/
def coverAt (done : C) (stages : List (Stage C σ)) (k : ℕ) : C := (stages[k]?).elim done Stage.cover

/-- `P` holds wherever the call may stop with a cover in `at'`. -/
def Along (done : C) (P : σ → Prop) (at' : C → Prop) : σ → List (Stage C σ) → Prop
  | s, [] => at' done → P s
  | s, stage :: rest => (at' stage.cover → P s) ∧ Along done P at' (stage.effect s) rest

theorem after_append (s : σ) (xs ys : List (Stage C σ)) : after s (xs ++ ys) = after (after s xs) ys :=
  List.foldl_append

variable {done : C} {P : σ → Prop} {at' : C → Prop} {s : σ}

/-- A call made of two: the first, then the second from where it ends. -/
theorem Along.append {xs ys : List (Stage C σ)} (hxs : Along done P at' s xs)
    (hys : Along done P at' (after s xs) ys) : Along done P at' s (xs ++ ys) := by
  induction xs generalizing s with
  | nil => exact hys
  | cons stage rest ih => exact ⟨hxs.1, ih hxs.2 hys⟩

variable {stages : List (Stage C σ)}

/-- What every step keeps holds all along. -/
theorem Along.of_keeps (hkeeps : ∀ stage ∈ stages, ∀ s, P s → P (stage.effect s))
    (hs : P s) : Along done P at' s stages := by
  induction stages generalizing s with
  | nil => exact fun _ => hs
  | cons stage rest ih =>
    exact ⟨fun _ => hs, ih (fun stage' h => hkeeps stage' (List.mem_cons_of_mem _ h))
      (hkeeps stage List.mem_cons_self s hs)⟩

/-- If no step comes under a cover in question, only the end matters. -/
theorem Along.of_end (hnone : ∀ stage ∈ stages, ¬at' stage.cover)
    (hend : P (after s stages)) : Along done P at' s stages := by
  induction stages generalizing s with
  | nil => exact fun _ => hend
  | cons stage rest ih =>
    exact ⟨fun h => (hnone stage List.mem_cons_self h).elim,
      ih (fun stage' h => hnone stage' (List.mem_cons_of_mem _ h)) hend⟩

/-- **Wherever the call stops** under a cover in question, the property holds. -/
theorem Along.at (h : Along done P at' s stages) :
    ∀ {k : ℕ}, at' (coverAt done stages k) → P (after s (stages.take k)) := by
  induction stages generalizing s with
  | nil =>
    intro k hat
    rw [List.take_nil]
    exact h hat
  | cons stage rest ih =>
    intro k hat
    cases k with
    | zero => exact h.1 hat
    | succ k => exact ih h.2 hat

theorem Along.atEnd (h : Along done P at' s stages) (hdone : at' done) :
    P (after s stages) := by
  have hcover : at' (coverAt done stages stages.length) := by
    rw [coverAt, List.getElem?_eq_none (Nat.le_refl _)]
    exact hdone
  have hat := h.at hcover
  rwa [List.take_length] at hat

/-! ### Folds that work on a part of the state -/

/-- A fold whose steps set one part of the state is that fold on the part. -/
theorem foldl_part {α τ : Type} (get : σ → τ) (set : τ → σ → σ) (f : τ → α → τ)
    (hget : ∀ t s, get (set t s) = t) (hset : ∀ t t' s, set t (set t' s) = set t s)
    (hself : ∀ s, set (get s) s = s) (l : List α) (s : σ) :
    l.foldl (fun s x => set (f (get s) x) s) s = set (l.foldl f (get s)) s := by
  induction l generalizing s with
  | nil => exact (hself s).symm
  | cons x l ih => rw [List.foldl_cons, ih, hget, hset, List.foldl_cons]

/-- A fold that counts on the side. -/
theorem foldl_fst {α τ : Type} (f : σ → α → σ) (g : σ × τ → α → τ) (l : List α) (s : σ × τ) :
    (l.foldl (fun s x => (f s.1 x, g s x)) s).1 = l.foldl f s.1 := by
  induction l generalizing s with
  | nil => rfl
  | cons x l ih => exact ih _

/-- Two steps for each element that do not get in each other's way: first all of one kind,
then all of the other. -/
theorem foldl_comm_comp {α : Type} {f g : σ → α → σ} (hcomm : ∀ s x y, f (g s y) x = g (f s x) y)
    (l : List α) (s : σ) : l.foldl (fun s x => g (f s x) x) s = l.foldl g (l.foldl f s) := by
  have hpast : ∀ (l : List α) (s : σ) (y : α), l.foldl f (g s y) = g (l.foldl f s) y := by
    intro l
    induction l with
    | nil => exact fun _ _ => rfl
    | cons x l ih => exact fun s y => by rw [List.foldl_cons, hcomm, ih, List.foldl_cons]
  induction l generalizing s with
  | nil => rfl
  | cons x l ih => rw [List.foldl_cons, ih, hpast, List.foldl_cons, List.foldl_cons]

end Stages

end Itsanas
