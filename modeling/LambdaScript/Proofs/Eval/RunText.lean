import LambdaScript.Proofs.Eval.Safety
import LambdaScript.Proofs.Expr.Parse
import LambdaScript.Proofs.Report.Diagnosis

/-!
Running a text from a fresh world. Whatever the text is, running it gives a value, needs more levels than
there are, or reports an error of the program at a place in the text, and the place can be shown.
-/

namespace LambdaScript

/-- Where a token of a text starts. -/
def IsTokenStart (text : String) (pos : Position) : Prop :=
  ∃ tokens, tokenize text = .ok tokens ∧ ∃ token ∈ tokens, token.pos = pos

theorem isTokenStart_iff {text : String} {pos : Position} :
    IsTokenStart text pos ↔ (tokenize text).toOption.any (·.any (·.pos == pos)) = true := by
  unfold IsTokenStart
  cases tokenize text with
  | error fault => simp [Except.toOption]
  | ok tokens => simp [Except.toOption]

instance (text : String) (pos : Position) : Decidable (IsTokenStart text pos) :=
  decidable_of_iff _ isTokenStart_iff.symm

theorem IsTokenStart.isPlaceIn {text : String} {pos : Position} (h : IsTokenStart text pos) :
    IsPlaceIn text pos := by
  obtain ⟨tokens, htokens, token, hmem, rfl⟩ := h
  exact (isIn_of_mem_tokenize htokens token hmem).2

theorem IsDerivation.isPlaced {text : String} {tree : Expr} (h : IsDerivation text tree) :
    tree.IsPlaced (IsTokenStart text) := by
  obtain ⟨tokens, htokens, hderived⟩ := h
  exact hderived.isPlaced fun token hmem => ⟨tokens, htokens, token, hmem, rfl⟩

/-- What reading makes of a text is placed in it. -/
theorem isPlaced_of_parse {depth : Nat} {text : String} {program : Expr} (h : parse depth text = .ok program) :
    program.IsPlaced (IsTokenStart text) := by
  have hsound := parse_sound depth text
  rw [h] at hsound
  exact hsound.isPlaced

theorem World.isPlaced_initial {P : Position → Prop} : World.initial.IsPlaced P := by
  intro scope entry hentry
  cases scope with
  | zero =>
      rcases List.mem_cons.mp hentry with rfl | hentry
      · trivial
      · obtain rfl := List.mem_singleton.mp hentry
        trivial
  | succ scope => cases hentry

/-- A report that can be shown: it blames the text, at a place in it and on one of its lines, and not the
host. -/
structure Fault.IsShownIn (text : String) (fault : Fault) (pos : Position) : Prop where
  pos_eq : fault.pos = some pos
  not_internal : fault.cause.isInternal = false
  diagnosed : fault.cause.isDiagnosed = true
  origin : fault.cause.family = .parsing ∨ fault.cause.IsOfEvaluation ∧ IsTokenStart text pos
  place : IsPlaceIn text pos
  line : pos.IsOn (Text.lines text)
  diagnosis : ∀ coloured hue, (LambdaScript.diagnosis coloured hue fault.pos (Text.lines text)).isSome = true

theorem Fault.IsParsingIn.isShownIn {text : String} {fault : Fault} (h : fault.IsParsingIn text) :
    ∃ pos, fault.IsShownIn text pos := by
  obtain ⟨hfamily, hinternal, hdiagnosed, pos, hpos, hplace⟩ := h
  refine ⟨pos, hpos, hinternal, hdiagnosed, .inl hfamily, hplace, hplace.isOn_lines, fun coloured hue => ?_⟩
  rw [hpos]
  exact hplace.isOn_lines.isSome_diagnosis coloured hue

theorem Cause.IsOfEvaluation.isShown {cause : Cause} (h : cause.IsOfEvaluation) :
    cause.isInternal = false ∧ cause.isDiagnosed = true := by
  cases cause <;> first | exact ⟨rfl, rfl⟩ | exact h.elim

theorem Fault.isShownIn_of_evaluation {text : String} {fault : Fault}
    (h : (Stop.fault fault).IsOfEvaluation (IsTokenStart text)) : ∃ pos, fault.IsShownIn text pos := by
  obtain ⟨hcause, pos, hpos, hstart⟩ := h
  have hplace := hstart.isPlaceIn
  refine ⟨pos, hpos, hcause.isShown.1, hcause.isShown.2, .inr ⟨hcause, hstart⟩, hplace, hplace.isOn_lines,
    fun coloured hue => ?_⟩
  rw [hpos]
  exact hplace.isOn_lines.isSome_diagnosis coloured hue

/-- **Running a text never fails inside, and every report can be shown.** An operator computes only with
operands that the host accepts; and a run from a fresh world gives a value, needs more levels, or ends with a
fault of reading or of the running program at a place in the text: on one of its lines, not behind the line's
end, and for a running program where a token starts. -/
theorem runText_isShown (depth : Nat) (text : String) :
    (∀ op left right value, Operator.apply op left right = .ok value → op.Accepts left right) ∧
    match runText depth text World.initial with
    | .ok _ _ => True
    | .error .tooDeep _ => True
    | .error (.fault fault) _ => ∃ pos, fault.IsShownIn text pos := by
  refine ⟨fun op left right value => Operator.accepts_of_apply, ?_⟩
  have hparse := parse_sound depth text
  unfold runText
  cases htext : parse depth text with
  | error stop =>
      rw [htext] at hparse
      cases stop with
      | tooDeep => trivial
      | fault fault => exact hparse.isShownIn
  | ok program =>
      rw [htext] at hparse
      have hsafe := isSafe_evaluate depth program Store.root hparse.isPlaced World.initial World.isPlaced_initial
      unfold Leads at hsafe
      dsimp only
      cases hrun : evaluate depth program Store.root World.initial with
      | ok value world => trivial
      | error stop world =>
          rw [hrun] at hsafe
          cases stop with
          | tooDeep => trivial
          | fault fault => exact Fault.isShownIn_of_evaluation hsafe

end LambdaScript
