import LambdaScript.Proofs.Token.Place
import LambdaScript.Report.Handler

/-!
Places in a text are on its lines. A cursor counts lines as it goes; splitting the text at its newlines gives
at least as many lines, and a cursor is nowhere behind the end of its line. So a place in a text has a
diagnosis, with the caret just where the place is.
-/

namespace LambdaScript

/-- A place on one of some lines, at the latest at its end. -/
def Position.IsOn (lines : List (List Char)) (pos : Position) : Prop :=
  0 < pos.line ∧ pos.line ≤ lines.length ∧ ∃ line, lines[pos.line - 1]? = some line ∧ pos.column ≤ line.length

namespace Text

/-- The first line holds what was there already. -/
theorem head?_linesFrom (line cs : List Char) :
    ∃ first, (linesFrom line cs)[0]? = some first ∧ line.length ≤ first.length := by
  induction cs generalizing line with
  | nil => exact ⟨line.reverse, rfl, by simp⟩
  | cons c cs ih =>
      rw [linesFrom]
      split
      · exact ⟨line.reverse, rfl, by simp⟩
      · obtain ⟨first, hfirst, hlength⟩ := ih (c :: line)
        refine ⟨first, hfirst, ?_⟩
        rw [List.length_cons] at hlength
        omega

/-- The place behind some characters is on a line, counted from the line that they start on. -/
theorem exists_line_afterAll (before after line : List Char) (pos : Position)
    (hcolumn : pos.column ≤ line.length) :
    ∃ found, (linesFrom line (before ++ after))[(pos.afterAll before).line - pos.line]? = some found ∧
      (pos.afterAll before).column ≤ found.length ∧ pos.line ≤ (pos.afterAll before).line := by
  induction before generalizing line pos with
  | nil =>
      obtain ⟨first, hfirst, hlength⟩ := head?_linesFrom line after
      refine ⟨first, ?_, Nat.le_trans hcolumn hlength, Nat.le_refl _⟩
      rw [Position.afterAll_nil, Nat.sub_self]
      exact hfirst
  | cons c before ih =>
      rw [Position.afterAll_cons, List.cons_append, linesFrom]
      by_cases hnewline : c = '\n'
      · have hafter : pos.after c = ⟨pos.line + 1, 0⟩ := if_pos hnewline
        obtain ⟨found, hfound, hlength, hline⟩ := ih [] ⟨pos.line + 1, 0⟩ (Nat.zero_le _)
        rw [if_pos hnewline, hafter]
        refine ⟨found, ?_, hlength, by simp only at hline; omega⟩
        simp only at hline
        obtain ⟨k, hk⟩ := Nat.exists_eq_add_of_le hline
        rw [hk] at hfound ⊢
        rw [Nat.add_sub_cancel_left] at hfound
        rw [show pos.line + 1 + k - pos.line = k + 1 by omega, List.getElem?_cons_succ]
        exact hfound
      · have hafter : pos.after c = ⟨pos.line, pos.column + 1⟩ := if_neg hnewline
        rw [if_neg hnewline, hafter]
        exact ih (c :: line) ⟨pos.line, pos.column + 1⟩ (Nat.succ_le_succ hcolumn)

end Text

/-- **Every place in a text is on one of its lines.** -/
theorem IsPlaceIn.isOn_lines {text : String} {pos : Position} (h : IsPlaceIn text pos) :
    pos.IsOn (Text.lines text) := by
  obtain ⟨before, after, hsplit, rfl⟩ := h
  obtain ⟨line, hline, hcolumn, hle⟩ := Text.exists_line_afterAll before after [] .start (Nat.zero_le _)
  rw [← hsplit] at hline
  obtain ⟨hlines, -⟩ := List.getElem?_eq_some_iff.mp hline
  have hnumber : (Position.start.afterAll before).line ≤ (Text.lines text).length := Nat.le_of_pred_lt hlines
  exact ⟨hle, hnumber, line, hline, hcolumn⟩

/-- A place on one of some lines has a diagnosis. Its column is at most the length of the line, so nothing
cuts it. -/
theorem Position.IsOn.isSome_diagnosis {lines : List (List Char)} {pos : Position} (h : pos.IsOn lines)
    (coloured : Bool) (hue : Hue) : (diagnosis coloured hue (some pos) lines).isSome = true := by
  obtain ⟨number, column⟩ := pos
  obtain ⟨hpositive, -, line, hline, -⟩ := h
  cases number with
  | zero => exact absurd hpositive (Nat.lt_irrefl 0)
  | succ number =>
      have hline' : lines[number]? = some line := hline
      simp [diagnosis, hline']

end LambdaScript
