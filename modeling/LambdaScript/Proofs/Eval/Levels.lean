import LambdaScript.Proofs.Eval.Outlast
import LambdaScript.Proofs.Expr.Levels
import LambdaScript.Proofs.Session.Conversation

/-!
Evaluating with more levels. Every step of evaluation hands its levels on to the parts of an expression, so it outlasts
itself if the evaluation of those does. What has been printed is never taken back, whether or not the levels last. So a
run that comes to an end, with a value or an error, is the run with any larger number of levels, and a run that does
not has printed the beginning of what that one prints.
-/

namespace LambdaScript

/-- What has been printed. -/
def World.shown (world : World) : List Char := world.output.toList

namespace Eval

/-! ### Steps of evaluation -/

/-- A step that does not print. -/
theorem outlasts_silent {α : Type} {m : Eval α} (h : ∀ world, (leftBy (m world)).output = world.output) :
    Outlasts World.shown m m := by
  refine .refl fun world => ⟨[], ?_⟩
  rw [List.append_nil, World.shown, World.shown, h]

theorem outlasts_fail {α : Type} (cause : Cause) (pos : Option Position) :
    Outlasts World.shown (fail cause pos : Eval α) (fail cause pos) := .throw _

theorem outlasts_extend (parent : ScopeId) (vars : Vars) :
    Outlasts World.shown (extend parent vars) (extend parent vars) := outlasts_silent fun _ => rfl

theorem outlasts_readVariable (scope : ScopeId) (name : String) (pos : Option Position) :
    Outlasts World.shown (readVariable scope name pos) (readVariable scope name pos) := by
  refine outlasts_silent fun world => ?_
  unfold readVariable
  cases world.store.read scope name <;> rfl

theorem outlasts_assignVariable (scope : ScopeId) (name : String) (value : Value) (pos : Option Position) :
    Outlasts World.shown (assignVariable scope name value pos) (assignVariable scope name value pos) := by
  refine outlasts_silent fun world => ?_
  obtain ⟨store, serial, output⟩ := world
  simp only [assignVariable]
  cases store.ownerFor? scope name <;> rfl

theorem outlasts_write (text : String) : Outlasts World.shown (write text) (write text) := by
  refine .refl fun world => ?_
  have hshown : World.shown (leftBy (write text world)) = world.shown ++ text.toList := String.toList_append
  exact ⟨text.toList, hshown.symm⟩

theorem outlasts_makeFunction (name : Option String) (params : List String) (body : Expr) (scope : ScopeId) :
    Outlasts World.shown (makeFunction name params body scope) (makeFunction name params body scope) := by
  cases name with
  | none => exact outlasts_silent fun _ => rfl
  | some name => exact outlasts_silent fun _ => rfl

theorem outlasts_callBuiltin (b : Builtin) (args : List Value) :
    Outlasts World.shown (callBuiltin b args) (callBuiltin b args) :=
  .bind (outlasts_write _) fun _ => .pure _

theorem outlasts_applyOperator (op : Operator) (left right : Value) (pos : Option Position) :
    Outlasts World.shown (applyOperator op left right pos) (applyOperator op left right pos) := by
  unfold applyOperator
  cases op.apply left right with
  | ok value => exact .pure value
  | error cause => exact outlasts_fail cause pos

variable {depth deeper : Nat}

/-- What can be written out can be written out with more levels, in the same way. -/
theorem outlasts_sourceFor (hle : depth ≤ deeper) (e : Expr) :
    Outlasts World.shown (sourceFor deeper e) (sourceFor depth e) := by
  have hgrows (world : World) : world.shown <+: World.shown (leftBy (sourceFor deeper e world)) := by
    unfold sourceFor
    cases e.source? deeper <;> exact List.prefix_rfl
  by_cases hfits : e.height ≤ depth
  · have hsame : sourceFor deeper e = sourceFor depth e := by
      simp only [sourceFor, Expr.source?, if_pos hfits, if_pos (Nat.le_trans hfits hle)]
    rw [← hsame]
    exact .refl hgrows
  · have hgone : sourceFor depth e = throw .tooDeep := by
      simp only [sourceFor, Expr.source?, if_neg hfits]
    rw [hgone]
    exact .tooDeep hgrows

/-- A report that quotes an expression. -/
theorem outlasts_failWithSource (hle : depth ≤ deeper) (cause : String → Cause) (e : Expr) (pos : Option Position) :
    Outlasts World.shown (do fail (cause (← sourceFor deeper e)) pos : Eval Value)
      (do fail (cause (← sourceFor depth e)) pos) :=
  .bind (outlasts_sourceFor hle e) fun _ => outlasts_fail _ pos

end Eval

/-! ### Evaluation -/

section

variable {depth deeper : Nat}

/-- One step of evaluation, given that all parts of an expression are evaluated with enough levels. -/
theorem outlasts_evaluate_of_parts (hle : depth ≤ deeper)
    (hparts : ∀ k < 3, ∀ e scope, Outlasts World.shown (evaluate (deeper + k) e scope) (evaluate (depth + k) e scope))
    (e : Expr) (scope : ScopeId) :
    Outlasts World.shown (evaluate (deeper + 3) e scope) (evaluate (depth + 3) e scope) := by
  have hzero := hparts 0 (by decide)
  have hone := hparts 1 (by decide)
  have htwo := hparts 2 (by decide)
  have hlevels : depth + 1 ≤ deeper + 1 := Nat.add_le_add_right hle 1
  cases e with
  | number value => exact .pure _
  | string value => exact .pure _
  | boolean value => exact .pure _
  | «variable» name pos => exact Eval.outlasts_readVariable scope name pos
  | lambda name params body => exact Eval.outlasts_makeFunction name params body scope
  | assign target value pos =>
      have hinvalid := Eval.outlasts_failWithSource hlevels .invalidTarget target pos
      cases target with
      | «variable» name => exact .bind (hone value scope) fun v => Eval.outlasts_assignVariable scope name v pos
      | _ => exact hinvalid
  | binary op left right pos =>
      refine .bind (htwo left scope) fun l => .bind (htwo right scope) fun r => ?_
      exact Eval.outlasts_applyOperator op l r pos
  | ifThen test consequent =>
      refine .bind (hone test scope) fun t => ?_
      split
      · exact hone consequent scope
      · exact .pure _
  | ifThenElse test consequent alternative =>
      refine .bind (hone test scope) fun t => ?_
      split
      · exact hone consequent scope
      · exact hone alternative scope
  | letIn bindings body =>
      refine .bind (.foldlM (fun outer b => ?_) scope) fun inner => hone body inner
      cases b with
      | bare name => exact .bind (.pure _) fun value => Eval.outlasts_extend outer _
      | bound name init => exact .bind (hone init outer) fun value => Eval.outlasts_extend outer _
  | block body => exact .foldlM (fun _ e => hone e scope) Value.false
  | call callee args pos =>
      refine .bind (hone callee scope) fun f => ?_
      cases f with
      | closure c =>
          refine .bind (.mapM fun arg => hzero arg scope) fun values => ?_
          refine .bind (Eval.outlasts_extend c.scope _) fun inner => ?_
          exact hzero c.body inner
      | builtin b => exact .bind (.mapM fun arg => hzero arg scope) fun values => Eval.outlasts_callBuiltin b values
      | _ => exact Eval.outlasts_failWithSource hlevels .notCallable callee pos

/-- Evaluation takes back nothing that was printed. -/
theorem shown_evaluate (depth : Nat) (e : Expr) (scope : ScopeId) (world : World) :
    world.shown <+: World.shown (leftBy (evaluate depth e scope world)) := by
  have hself (depth : Nat) (e : Expr) (scope : ScopeId) :
      Outlasts World.shown (evaluate depth e scope) (evaluate depth e scope) := by
    induction depth using Nat.strongRecOn generalizing e scope with
    | ind depth ih =>
        match depth, ih with
        | 0, _ | 1, _ | 2, _ => exact .throw .tooDeep
        | depth + 3, ih =>
            exact outlasts_evaluate_of_parts (Nat.le_refl depth)
              (fun k hk => ih (depth + k) (Nat.add_lt_add_left hk depth)) e scope
  exact (hself depth e scope world).1

/-- Evaluation outlasts evaluation with fewer levels. -/
theorem outlasts_evaluate (hle : depth ≤ deeper) (e : Expr) (scope : ScopeId) :
    Outlasts World.shown (evaluate deeper e scope) (evaluate depth e scope) := by
  induction depth using Nat.strongRecOn generalizing deeper e scope with
  | ind depth ih =>
      match depth, ih with
      | 0, _ | 1, _ | 2, _ => exact .tooDeep (shown_evaluate deeper e scope)
      | depth + 3, ih =>
          obtain ⟨extra, rfl⟩ := Nat.exists_eq_add_of_le hle
          rw [show depth + 3 + extra = depth + extra + 3 by omega]
          refine outlasts_evaluate_of_parts (Nat.le_add_right depth extra) (fun k hk e scope => ?_) e scope
          exact ih (depth + k) (Nat.add_lt_add_left hk depth) (by omega) e scope

/-- A program that can be written out with some levels can be with more of them. -/
theorem outlasts_runProgram (hle : depth ≤ deeper) (program : Expr) :
    Outlasts World.shown (runProgram deeper program) (runProgram depth program) := by
  have hgrows (world : World) : world.shown <+: World.shown (leftBy (runProgram deeper program world)) := by
    unfold runProgram
    split
    · exact shown_evaluate deeper program Store.root world
    · exact List.prefix_rfl
  by_cases hfits : program.height ≤ depth
  · unfold runProgram
    rw [if_pos hfits, if_pos (Nat.le_trans hfits hle)]
    exact outlasts_evaluate hle program Store.root
  · have hgone : runProgram depth program = throw .tooDeep := if_neg hfits
    rw [hgone]
    exact .tooDeep hgrows

/-! ### Whole runs -/

/-- Reading a text and then doing something with its program. -/
theorem outlasts_parse (hle : depth ≤ deeper) (text : String) {run run' : Expr → Eval Value}
    (hrun : ∀ program, Outlasts World.shown (run' program) (run program)) :
    Outlasts World.shown
      (match parse deeper text with
        | .ok program => run' program
        | .error stop => throw stop)
      (match parse depth text with
        | .ok program => run program
        | .error stop => throw stop) := by
  obtain ⟨extra, rfl⟩ := Nat.exists_eq_add_of_le hle
  rcases parse_of_more_levels depth extra text with hdeep | hsame
  · rw [hdeep]
    refine .tooDeep fun world => ?_
    cases parse (depth + extra) text with
    | ok program => exact (hrun program world).1
    | error stop => exact List.prefix_rfl
  · rw [hsame]
    cases parse depth text with
    | ok program => exact hrun program
    | error stop => exact .throw stop

/-- What a run that outlasts another one makes of it, in terms of what is printed. -/
theorem Outlasts.printed {m m' : Eval Value} (h : Outlasts World.shown m' m) (world : World) :
    match m world with
    | .error .tooDeep after => after.output.toList <+: (leftBy (m' world)).output.toList
    | result => m' world = result := by
  have hrun := (h world).2
  cases hm : m world with
  | ok value after =>
      rw [hm] at hrun
      exact hrun
  | error stop after =>
      rw [hm] at hrun
      cases stop <;> exact hrun

/-- **A larger number of levels never changes a run that comes to an end**: it gives the same value or error and
leaves the same world, whatever world it is run in. Where the smaller number was too small, what had been printed is
the beginning of what is printed with the larger one. Both hold for running a text at once, and for running it as
sessions do, which have to write out the program as well. -/
theorem runText_of_more_levels (hle : depth ≤ deeper) (text : String) (world : World) :
    (match runText depth text world with
      | .error .tooDeep after => after.output.toList <+: (leftBy (runText deeper text world)).output.toList
      | result => runText deeper text world = result) ∧
    match Session.entryValue depth text world with
      | .error .tooDeep after => after.output.toList <+: (leftBy (Session.entryValue deeper text world)).output.toList
      | result => Session.entryValue deeper text world = result := by
  have hrun : Outlasts World.shown (runText deeper text) (runText depth text) :=
    outlasts_parse hle text fun program => outlasts_evaluate hle program Store.root
  have hentry : Outlasts World.shown (Session.entryValue deeper text) (Session.entryValue depth text) :=
    outlasts_parse hle text fun program => outlasts_runProgram hle program
  exact ⟨hrun.printed world, hentry.printed world⟩

end

/-- A run whose levels gave out after it had printed some text. -/
theorem exists_of_printed (result : EStateM.Result Stop World Value) (text : String)
    (h : (match result with
      | .error .tooDeep after => after.output == text
      | _ => false) = true) : ∃ after, result = .error .tooDeep after ∧ after.output = text := by
  split at h
  · next after => exact ⟨after, rfl, beq_iff_eq.mp h⟩
  · cases h

/-- A function prints before it calls itself, so it has printed twice when few levels give out. -/
theorem runText_of_more_levels_endless :
    20 ≤ 24 ∧ ∃ after, runText 20 "f = λ(x) { print(x); f(x) }; f(true)" .initial = .error .tooDeep after ∧
      after.output = "truetrue" ∧
      after.output.toList <+:
        (leftBy (runText 24 "f = λ(x) { print(x); f(x) }; f(true)" .initial)).output.toList := by
  have hle : 20 ≤ 24 := by decide
  obtain ⟨after, hrun, houtput⟩ := exists_of_printed
    (runText 20 "f = λ(x) { print(x); f(x) }; f(true)" .initial) "truetrue" (by decide +kernel)
  have hmore := runText_of_more_levels hle "f = λ(x) { print(x); f(x) }; f(true)" .initial
  rw [hrun] at hmore
  exact ⟨hle, after, hrun, houtput, hmore.1⟩

end LambdaScript
