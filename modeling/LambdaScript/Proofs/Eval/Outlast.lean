import LambdaScript.Proofs.Eval.Leads

/-!
Computations with more levels. Where the levels of a computation give out, the same computation with more of them goes
on; everywhere else it ends in the same way. So what has been shown when the levels gave out is the beginning of what
the longer one shows. This is handed on from step to step if nothing that has been shown is ever taken back, and the
judgement asks for that as well.
-/

namespace LambdaScript

variable {σ α β : Type} {shown : σ → List Char}

/-- A computation outlasts another one: wherever they start, it takes nothing back that was shown, and it ends as the
other one does, or goes on from where the levels of that one gave out. -/
def Outlasts (shown : σ → List Char) (m' m : EStateM Stop σ α) : Prop :=
  ∀ s, shown s <+: shown (leftBy (m' s)) ∧
    match m s with
    | .error .tooDeep after => shown after <+: shown (leftBy (m' s))
    | result => m' s = result

namespace Outlasts

/-- A computation that needs no levels outlasts itself, if it takes nothing back. -/
theorem refl {m : EStateM Stop σ α} (h : ∀ s, shown s <+: shown (leftBy (m s))) : Outlasts shown m m := by
  intro s
  refine ⟨h s, ?_⟩
  split
  · next after hrun =>
    rw [hrun]
    exact List.prefix_rfl
  · rfl

/-- Every computation that takes nothing back outlasts one whose levels give out at once. -/
theorem tooDeep {m' : EStateM Stop σ α} (h : ∀ s, shown s <+: shown (leftBy (m' s))) :
    Outlasts shown m' (throw .tooDeep) := fun s => ⟨h s, h s⟩

theorem pure (a : α) : Outlasts shown (Pure.pure a) (Pure.pure a) := refl fun _ => List.prefix_rfl

theorem throw (stop : Stop) :
    Outlasts shown (MonadExcept.throw stop : EStateM Stop σ α) (MonadExcept.throw stop) := refl fun _ => List.prefix_rfl

/-- What a computation has shown stays shown, whatever comes behind it. -/
theorem shown_bind {m : EStateM Stop σ α} {f : α → EStateM Stop σ β} {s : σ}
    (hf : ∀ a after, shown after <+: shown (leftBy (f a after))) :
    shown (leftBy (m s)) <+: shown (leftBy ((m >>= f) s)) := by
  simp only [Bind.bind, EStateM.bind]
  cases m s with
  | ok a after => exact hf a after
  | error stop after => exact List.prefix_rfl

theorem bind {m m' : EStateM Stop σ α} {f f' : α → EStateM Stop σ β} (hm : Outlasts shown m' m)
    (hf : ∀ a, Outlasts shown (f' a) (f a)) : Outlasts shown (m' >>= f') (m >>= f) := by
  intro s
  obtain ⟨hkept, hrun⟩ := hm s
  have hbehind : shown (leftBy (m' s)) <+: shown (leftBy ((m' >>= f') s)) :=
    shown_bind fun a after => (hf a after).1
  refine ⟨hkept.trans hbehind, ?_⟩
  simp only [Bind.bind, EStateM.bind] at hbehind ⊢
  cases hms : m s with
  | ok a after =>
      rw [hms] at hrun
      simp only [hrun]
      exact (hf a after).2
  | error stop after =>
      rw [hms] at hrun
      cases stop with
      | tooDeep => exact hrun.trans hbehind
      | fault fault => simp only [hrun]

theorem foldlM {xs : List α} {f f' : β → α → EStateM Stop σ β} (hround : ∀ b x, Outlasts shown (f' b x) (f b x))
    (init : β) : Outlasts shown (xs.foldlM f' init) (xs.foldlM f init) := by
  induction xs generalizing init with
  | nil => exact pure init
  | cons x xs ih =>
      rw [List.foldlM_cons, List.foldlM_cons]
      exact bind (hround init x) ih

theorem mapM {xs : List α} {f f' : α → EStateM Stop σ β} (hround : ∀ x, Outlasts shown (f' x) (f x)) :
    Outlasts shown (xs.mapM f') (xs.mapM f) := by
  induction xs with
  | nil =>
      rw [List.mapM_nil, List.mapM_nil]
      exact pure []
  | cons x xs ih =>
      rw [List.mapM_cons, List.mapM_cons]
      exact bind (hround x) fun b => bind ih fun bs => pure (b :: bs)

end Outlasts

end LambdaScript
