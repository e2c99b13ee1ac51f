import LambdaScript.Eval.Evaluate

/-!
Where a computation leads. `Leads E m s Q` says of a computation that it leads from a state to a result and a
state that satisfy `Q`, or stops for a cause and in a state that satisfy `E`. What evaluation reads and
changes is passed on from step to step, so a property of all that it does is one that every step hands on.
-/

namespace LambdaScript

variable {σ α β : Type} {E : Stop → σ → Prop} {s : σ}

/-- A computation leads from a state to a result and a state that satisfy `Q`, or stops as `E` says. -/
def Leads (E : Stop → σ → Prop) (m : EStateM Stop σ α) (s : σ) (Q : α → σ → Prop) : Prop :=
  match m s with
  | .ok a after => Q a after
  | .error stop after => E stop after

/-- The state that a computation leaves behind, whether it came to a result or stopped. -/
def leftBy {ε : Type} : EStateM.Result ε σ α → σ
  | .ok _ after => after
  | .error _ after => after

/-! ### Runs that succeed -/

section Success

variable {ε : Type} {m : EStateM ε σ α} {f g : α → EStateM ε σ β}

theorem bind_of_ok {a : α} {after : σ} (h : m s = .ok a after) : (m >>= f) s = f a after := by
  simp only [Bind.bind, EStateM.bind, h]

theorem ok_of_bind {b : β} {last : σ} (h : (m >>= f) s = .ok b last) :
    ∃ a after, m s = .ok a after ∧ f a after = .ok b last := by
  simp only [Bind.bind, EStateM.bind] at h
  split at h
  · next a after hm => exact ⟨a, after, hm, h⟩
  · cases h

/-- Two computations that begin in the same way end in the same way, if they do behind each result of the beginning. -/
theorem bind_congr_of_ok (h : ∀ a after, m s = .ok a after → f a after = g a after) : (m >>= f) s = (m >>= g) s := by
  simp only [Bind.bind, EStateM.bind]
  cases hm : m s with
  | ok a after => exact h a after hm
  | error stop after => rfl

end Success

namespace Leads

theorem leftBy {m : EStateM Stop σ α} {R : σ → Prop} {Q : α → σ → Prop}
    (h : Leads (fun _ after => R after) m s fun a after => R after ∧ Q a after) : R (leftBy (m s)) := by
  unfold Leads at h
  cases hm : m s with
  | ok a after =>
      rw [hm] at h
      exact h.1
  | error stop after =>
      rw [hm] at h
      exact h

theorem pure {a : α} {Q : α → σ → Prop} (h : Q a s) : Leads E (Pure.pure a) s Q := h

theorem throw {stop : Stop} {Q : α → σ → Prop} (h : E stop s) :
    Leads E (MonadExcept.throw stop : EStateM Stop σ α) s Q := h

theorem bind {m : EStateM Stop σ α} {f : α → EStateM Stop σ β} {Q : β → σ → Prop}
    (h : Leads E m s fun a after => Leads E (f a) after Q) : Leads E (m >>= f) s Q := by
  unfold Leads at h ⊢
  simp only [Bind.bind, EStateM.bind]
  cases hm : m s with
  | ok a after =>
      rw [hm] at h
      exact h
  | error stop after =>
      rw [hm] at h
      exact h

theorem mono {m : EStateM Stop σ α} {Q Q' : α → σ → Prop} (h : Leads E m s Q)
    (himp : ∀ a after, Q a after → Q' a after) : Leads E m s Q' := by
  unfold Leads at h ⊢
  cases hm : m s with
  | ok a after =>
      rw [hm] at h
      exact himp a after h
  | error stop after =>
      rw [hm] at h
      exact h

/-- What every round of a loop hands on holds behind the loop. -/
theorem foldlM {xs : List α} {f : β → α → EStateM Stop σ β} {J : β → σ → Prop} {init : β} (hinit : J init s)
    (hround : ∀ b x, x ∈ xs → ∀ before, J b before → Leads E (f b x) before J) : Leads E
    (xs.foldlM f init) s J := by
  induction xs generalizing init s with
  | nil => exact hinit
  | cons x xs ih =>
      rw [List.foldlM_cons]
      refine bind (mono (hround init x List.mem_cons_self s hinit) fun b after hb => ?_)
      exact ih hb fun c y hy => hround c y (List.mem_cons_of_mem x hy)

/-- What every round hands on, with the results so far, holds of all the results. -/
theorem mapM {xs : List α} {f : α → EStateM Stop σ β} {J : List β → σ → Prop} (hinit : J [] s)
    (hround : ∀ bs x, x ∈ xs → ∀ before, J bs before → Leads E (f x) before fun b => J (bs ++ [b])) :
    Leads E (xs.mapM f) s J := by
  have hloop (bs : List β) (s : σ) (hbs : J bs s) : Leads E (xs.mapM f) s fun cs => J (bs ++ cs) := by
    induction xs generalizing bs s with
    | nil =>
        rw [List.mapM_nil]
        refine pure ?_
        rwa [List.append_nil]
    | cons x xs ih =>
        rw [List.mapM_cons]
        refine bind (mono (hround bs x List.mem_cons_self s hbs) fun b after hb => bind ?_)
        have hrest := ih (fun cs y hy => hround cs y (List.mem_cons_of_mem x hy)) (bs ++ [b]) after hb
        refine mono hrest fun cs last hcs => pure ?_
        rwa [List.append_assoc] at hcs
  exact hloop [] s hinit

end Leads

end LambdaScript
