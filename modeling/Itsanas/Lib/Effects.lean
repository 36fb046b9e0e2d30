/-
# Programs that change a state and may fail

A program of `ExceptT ε (StateM σ)` runs in a state and ends in one, with a value or an error;
what it did before the error stays done. `Holds m s Q E` says of the run of `m` from `s` that it
ends as `Q` says if it returns, and as `E` says if it fails. It is computed along the program:
one rule for each way of putting programs together, one for a loop over a list, and the rule
that a weaker outcome follows from a stronger one.

Key theorems: `Effects.holds_bind`, `Effects.holds_tryCatch`, `Effects.Holds.mono`,
`Effects.Holds.returned`, `Effects.holds_forM`.
-/
import Mathlib.Order.Basic

namespace Effects

variable {σ ε α β : Type}

/-- The run of `m` from `s` ends as `Q` says if it returns, and as `E` says if it fails. -/
def Holds (m : ExceptT ε (StateM σ) α) (s : σ) (Q : α → σ → Prop) (E : ε → σ → Prop) : Prop :=
  match m s with
  | (.ok a, s') => Q a s'
  | (.error e, s') => E e s'

variable {s : σ} {Q : α → σ → Prop} {E : ε → σ → Prop} {a : α}

@[simp] theorem holds_pure : Holds (pure a) s Q E ↔ Q a s := Iff.rfl

@[simp] theorem holds_throw {e : ε} : Holds (throw e : ExceptT ε (StateM σ) α) s Q E ↔ E e s := Iff.rfl

@[simp] theorem holds_get {Q : σ → σ → Prop} :
    Holds (get : ExceptT ε (StateM σ) σ) s Q E ↔ Q s s := Iff.rfl

@[simp] theorem holds_modify {Q : PUnit → σ → Prop} {f : σ → σ} :
    Holds (modify f : ExceptT ε (StateM σ) PUnit) s Q E ↔ Q ⟨⟩ (f s) := Iff.rfl

@[simp] theorem holds_bind {m : ExceptT ε (StateM σ) β} {f : β → ExceptT ε (StateM σ) α} :
    Holds (m >>= f) s Q E ↔ Holds m s (fun b s' => Holds (f b) s' Q E) E := by
  have hrun : (m >>= f) s = match m s with
      | (.ok b, s') => f b s'
      | (.error e, s') => (.error e, s') := by
    show ExceptT.bindCont f (m s).1 (m s).2 = _
    rcases m s with ⟨_ | b, s'⟩ <;> rfl
  unfold Holds
  rw [hrun]
  rcases m s with ⟨_ | b, s'⟩ <;> rfl

variable {m : ExceptT ε (StateM σ) α}

@[simp] theorem holds_tryCatch {handle : ε → ExceptT ε (StateM σ) α} :
    Holds (tryCatch m handle) s Q E ↔ Holds m s Q (fun e s' => Holds (handle e) s' Q E) := by
  have hrun : (tryCatch m handle) s = match m s with
      | (.ok a, s') => (.ok a, s')
      | (.error e, s') => handle e s' := by
    show (ExceptT.tryCatch m handle) s = _
    unfold ExceptT.tryCatch ExceptT.mk
    show (StateT.bind m _) s = _
    unfold StateT.bind
    rcases m s with ⟨_ | a, s'⟩ <;> rfl
  unfold Holds
  rw [hrun]
  rcases m s with ⟨_ | a, s'⟩ <;> rfl

theorem Holds.mono (h : Holds m s Q E) {Q' : α → σ → Prop} {E' : ε → σ → Prop}
    (hQ : ∀ a s', Q a s' → Q' a s') (hE : ∀ e s', E e s' → E' e s') : Holds m s Q' E' := by
  unfold Holds at *
  cases hrun : m s with
  | mk result s' =>
    rw [hrun] at h
    cases result with
    | ok a => exact hQ a s' h
    | error e => exact hE e s' h

theorem Holds.returned (h : Holds m s Q E) {s' : σ} (hrun : m s = (.ok a, s')) : Q a s':= by
  unfold Holds at h
  rwa [hrun] at h

theorem Holds.and {Q' : α → σ → Prop} {E' : ε → σ → Prop} (h : Holds m s Q E)
    (h' : Holds m s Q' E') :
    Holds m s (fun a s' => Q a s' ∧ Q' a s') fun e s' => E e s' ∧ E' e s' := by
  unfold Holds at *
  cases hrun : m s with
  | mk result s' =>
    rw [hrun] at h h'
    cases result with
    | ok a => exact ⟨h, h'⟩
    | error e => exact ⟨h, h'⟩

variable {xs : List β}

/-- **A loop over a list**: what holds after the items done so far, and is kept by the next one. -/
theorem holds_forM {f : β → ExceptT ε (StateM σ) PUnit} (I : List β → σ → Prop)
    (step : ∀ done x todo s', xs = done ++ x :: todo → I done s' →
      Holds (f x) s' (fun _ s'' => I (done ++ [x]) s'') E)
    (start : I [] s) : Holds (xs.forM f) s (fun _ s' => I xs s') E := by
  have hfrom : ∀ todo done s', xs = done ++ todo → I done s' →
      Holds (todo.forM f) s' (fun _ s'' => I xs s'') E := by
    intro todo
    induction todo with
    | nil =>
      intro done s' hxs hdone
      rw [List.append_nil] at hxs
      subst hxs
      exact hdone
    | cons x todo ih =>
      intro done s' hxs hdone
      show Holds (f x >>= fun _ => todo.forM f) s' _ E
      rw [holds_bind]
      refine (step done x todo s' hxs hdone).mono (fun _ s'' hnext => ?_) fun _ _ h => h
      exact ih (done ++ [x]) s'' (by simp [hxs]) hnext
  exact hfrom xs [] s rfl start

/-- A loop over a list that carries a value along. -/
theorem holds_foldlM {f : α → β → ExceptT ε (StateM σ) α} (I : List β → α → σ → Prop)
    (step : ∀ done x todo a' s', xs = done ++ x :: todo → I done a' s' →
      Holds (f a' x) s' (fun a'' s'' => I (done ++ [x]) a'' s'') E)
    (start : I [] a s) : Holds (xs.foldlM f a) s (fun a' s' => I xs a' s') E := by
  have hfrom : ∀ todo done a' s', xs = done ++ todo → I done a' s' →
      Holds (todo.foldlM f a') s' (fun a'' s'' => I xs a'' s'') E := by
    intro todo
    induction todo with
    | nil =>
      intro done a' s' hxs hdone
      rw [List.append_nil] at hxs
      subst hxs
      exact hdone
    | cons x todo ih =>
      intro done a' s' hxs hdone
      rw [List.foldlM_cons, holds_bind]
      refine (step done x todo a' s' hxs hdone).mono (fun a'' s'' hnext => ?_) fun _ _ h => h
      exact ih (done ++ [x]) a'' s'' (by simp [hxs]) hnext
  exact hfrom xs [] a s rfl start

/-! ### Relations that programs respect -/

/-- Whatever comes of it, a run of `m` relates the state it starts in to the one it ends in. -/
def Respects (R : σ → σ → Prop) (m : ExceptT ε (StateM σ) α) : Prop :=
  ∀ s, Holds m s (fun _ s' => R s s') fun _ s' => R s s'

section
variable {R : σ → σ → Prop} [Std.Refl R] [IsTrans σ R]

omit [IsTrans σ R] in
theorem respects_pure (a : α) :
    Respects R (pure a : ExceptT ε (StateM σ) α) := fun s => Std.Refl.refl s

omit [IsTrans σ R] in
theorem respects_throw (e : ε) :
    Respects R (throw e : ExceptT ε (StateM σ) α) := fun s => Std.Refl.refl s

omit [IsTrans σ R] in
theorem respects_get : Respects R (get : ExceptT ε (StateM σ) σ) := fun s => Std.Refl.refl s

omit [Std.Refl R] [IsTrans σ R] in
theorem respects_modify {f : σ → σ} (h : ∀ s, R s (f s)) :
    Respects R (modify f : ExceptT ε (StateM σ) PUnit) := h

omit [Std.Refl R] in
theorem Respects.bind {f : α → ExceptT ε (StateM σ) β} (hm : Respects R m)
    (hf : ∀ a, Respects R (f a)) : Respects R (m >>= f) := by
  intro s
  rw [holds_bind]
  refine (hm s).mono (fun a s' hs => ?_) fun _ _ hs => hs
  exact (hf a s').mono (fun _ _ hs' => IsTrans.trans _ _ _ hs hs') fun _ _ hs' =>
    IsTrans.trans _ _ _ hs hs'

omit [Std.Refl R] [IsTrans σ R] in
theorem Respects.mono (h : Respects R m) {R' : σ → σ → Prop}
    (hR : ∀ s s', R s s' → R' s s') : Respects R' m :=
  fun s => (h s).mono (fun _ s' => hR s s') fun _ s' => hR s s'

theorem respects_foldlM {f : α → β → ExceptT ε (StateM σ) α} (h : ∀ a, ∀ x ∈ xs, Respects R (f a x))
    (a : α) : Respects R (xs.foldlM f a) := by
  intro s
  refine (holds_foldlM (E := fun _ s' => R s s') (fun _ _ s' => R s s') ?_ (Std.Refl.refl s)).mono
    (fun _ _ hs => hs) fun _ _ hs => hs
  intro done x todo a' s' hxs hs
  exact (h a' x (by simp [hxs]) s').mono (fun _ _ hs' => IsTrans.trans _ _ _ hs hs')
    fun _ _ hs' => IsTrans.trans _ _ _ hs hs'

end

theorem holds_self :
    Holds m s (fun a s' => m s = (.ok a, s')) fun e s' => m s = (.error e, s') := by
  unfold Holds
  cases hrun : m s with
  | mk result s' => cases result <;> rfl

end Effects
