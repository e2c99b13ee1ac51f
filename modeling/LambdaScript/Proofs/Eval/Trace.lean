import LambdaScript.Proofs.Eval.Leads
import LambdaScript.Proofs.Expr.Site

/-!
Evaluation that keeps account of where it is. Beside the world it carries the programs so far, the occurrence
of the function that each closure came from, the moments: which occurrence was evaluated in which scope,
and the store as it was then, and the uses of names: what a variable gave, and what an assignment made of the
store. An assignment has two moments, one before its value is evaluated and one when the value is assigned.
None of this has any influence: forgetting it gives evaluation.
-/

namespace LambdaScript

/-- A node at an occurrence that is evaluated in a scope, and the store at that moment. -/
structure Moment where
  node : Expr
  occurrence : Occurrence
  scope : ScopeId
  store : Store

/-- A use of a name that came off: the moment of the node, the value to be assigned if the node assigns one,
the value that the node gave, and the store that it left. -/
structure Use where
  moment : Moment
  assigned : Option Value
  result : Value
  after : Store

/-- A world with the account of how it came about. The occurrences of the functions behind the closures are in
the order of their serial numbers, the latest moment and the latest use come first. -/
structure Trace where
  world : World
  programs : List Expr
  origins : List Occurrence
  moments : List Moment
  uses : List Use

/-- A computation that keeps account. -/
abbrev Traced := EStateM Stop Trace

namespace Trace

/-- Nothing has been evaluated. -/
def initial : Trace := ⟨.initial, [], [], [], []⟩

/-- What is evaluated now. -/
def now (trace : Trace) (node : Expr) (o : Occurrence) (scope : ScopeId) : Moment :=
    ⟨node, o, scope, trace.world.store⟩

end Trace

namespace Traced

/-- Does what needs no account. -/
def lift {α : Type} (m : Eval α) : Traced α := fun trace =>
  match m trace.world with
  | .ok a world => .ok a { trace with world := world }
  | .error stop world => .error stop { trace with world := world }

/-- Takes down a moment. -/
def note (node : Expr) (o : Occurrence) (scope : ScopeId) : Traced Unit := fun trace =>
  .ok () { trace with moments := trace.now node o scope :: trace.moments }

/-- Does what a node does with a name, and takes down what came of it. -/
def use (node : Expr) (o : Occurrence) (scope : ScopeId) (assigned : Option Value) (m : Eval Value) :
    Traced Value := fun trace =>
  match m trace.world with
  | .ok value world => .ok value { trace with
      world := world
      uses := ⟨trace.now node o scope, assigned, value, world.store⟩ :: trace.uses }
  | .error stop world => .error stop { trace with world := world }

/-- Takes down where the function of the latest closure occurs. -/
def originate (o : Occurrence) : Traced Unit := fun trace => .ok ()
    { trace with origins := trace.origins ++ [o] }

/-- Where the body of a closure occurs. -/
def bodyOf (c : Closure) : Traced Occurrence := fun trace =>
  .ok ((trace.origins[c.serial]?.getD ⟨0, []⟩).part 0) trace

/-- Takes down a program, and where it occurs as a whole. -/
def start (program : Expr) : Traced Occurrence := fun trace =>
  .ok ⟨trace.programs.length, []⟩ { trace with programs := trace.programs ++ [program] }

variable (eval : Expr → Occurrence → ScopeId → Traced Value) (o : Occurrence)

/-- The scopes of the bindings of a let, which are its parts from the `k`-th one on. -/
def bindings : List Binding → (k : Nat) → ScopeId → Traced ScopeId
  | [], _, scope => pure scope
  | b :: rest, k, scope => do
    let value ← match b with
      | .bare _ => pure Value.false
      | .bound _ init => eval init (o.part k) scope
    let inner ← lift (Eval.extend scope [(b.name, value)])
    bindings rest (k + 1) inner

/-- The value of the last of some parts of a block, from the `k`-th one on. -/
def block (scope : ScopeId) : List Expr → (k : Nat) → Value → Traced Value
  | [], _, value => pure value
  | e :: rest, k, _ => do
    let value ← eval e (o.part k) scope
    block scope rest (k + 1) value

/-- The values of some arguments, which are the parts of a call from the `k`-th one on. -/
def args (scope : ScopeId) : List Expr → (k : Nat) → Traced (List Value)
  | [], _ => pure []
  | e :: rest, k => do
    let value ← eval e (o.part k) scope
    let values ← args scope rest (k + 1)
    return value :: values

end Traced

open Traced in
/-- The value of an expression at an occurrence in a scope. -/
def trace : (depth : Nat) → Expr → Occurrence → ScopeId → Traced Value
  | depth + 3, e, o, scope => do
    note e o scope
    match e with
    | .number value _ => pure (.number value)
    | .string value _ => pure (.string value)
    | .boolean value _ => pure (.boolean value)
    | .variable name pos => use e o scope none (Eval.readVariable scope name pos)
    | .lambda name params body _ => do
      let value ← lift (Eval.makeFunction name params body scope)
      originate o
      return value
    | .assign target value pos =>
      match target with
      | .variable name _ => do
        let v ← trace (depth + 1) value (o.part 1) scope
        note e o scope
        use e o scope (some v) (Eval.assignVariable scope name v pos)
      | _ => do
        lift (Eval.fail (.invalidTarget (← lift (Eval.sourceFor (depth + 1) target))) pos)
    | .binary op left right pos => do
      let l ← trace (depth + 2) left (o.part 0) scope
      let r ← trace (depth + 2) right (o.part 1) scope
      lift (Eval.applyOperator op l r pos)
    | .ifThen test consequent _ => do
      let t ← trace (depth + 1) test (o.part 0) scope
      if t.isTruthy then trace (depth + 1) consequent (o.part 1) scope else return Value.false
    | .ifThenElse test consequent alternative _ => do
      let t ← trace (depth + 1) test (o.part 0) scope
      if t.isTruthy then trace (depth + 1) consequent (o.part 1) scope
      else trace (depth + 1) alternative (o.part 2) scope
    | .letIn bs body _ => do
      let inner ← bindings (trace (depth + 1)) o bs 0 scope
      trace (depth + 1) body (o.part bs.length) inner
    | .block body _ => block (trace (depth + 1)) o scope body 0 Value.false
    | .call callee as pos => do
      match ← trace (depth + 1) callee (o.part 0) scope with
      | .closure c => do
        let values ← args (trace depth) o scope as 1
        let inner ← lift (Eval.enter c values)
        trace depth c.body (← bodyOf c) inner
      | .builtin b => do
        let values ← args (trace depth) o scope as 1
        lift (Eval.callBuiltin b values)
      | _ => do
        lift (Eval.fail (.notCallable (← lift (Eval.sourceFor (depth + 1) callee))) pos)
  | _, _, _, _ => throw .tooDeep

/-- Reads a program and evaluates it in the root scope. -/
def traceText (depth : Nat) (text : String) : Traced Value :=
  match parse depth text with
  | .ok program => do trace depth program (← Traced.start program) Store.root
  | .error stop => throw stop

/-- The account after a text was run, whether or not it came to an end. -/
def Trace.run (before : Trace) (depth : Nat) (text : String) : Trace :=
  match traceText depth text before with
  | .ok _ after => after
  | .error _ after => after

/-- The account after some texts were run one after the other, each with a bound on its levels. -/
def Trace.runAll (before : Trace) (texts : List (Nat × String)) : Trace :=
  texts.foldl (fun trace text => trace.run text.1 text.2) before

/-- The world after a text was run. -/
def World.run (before : World) (depth : Nat) (text : String) : World :=
  match runText depth text before with
  | .ok _ after => after
  | .error _ after => after

/-- The world after some texts were run one after the other. -/
def World.runAll (before : World) (texts : List (Nat × String)) : World :=
  texts.foldl (fun world text => world.run text.1 text.2) before

/-! ### Forgetting the account -/

/-- Without its account a computation does what another one does. -/
def Erases {α : Type} (m : Traced α) (n : Eval α) : Prop :=
  ∀ before : Trace,
    match m before with
    | .ok a after => n before.world = .ok a after.world
    | .error stop after => n before.world = .error stop after.world

namespace Erases

variable {α β : Type}

theorem pure (a : α) : Erases (Pure.pure a) (Pure.pure a) := fun _ => rfl

theorem throw (stop : Stop) :
    Erases (MonadExcept.throw stop : Traced α) (MonadExcept.throw stop) := fun _ => rfl

theorem bind {m : Traced α} {n : Eval α} {f : α → Traced β} {g : α → Eval β} (hm : Erases m n)
    (hf : ∀ a, Erases (f a) (g a)) : Erases (m >>= f) (n >>= g) := by
  intro before
  have hfirst := hm before
  simp only [Bind.bind, EStateM.bind]
  cases hrun : m before with
  | ok a after =>
      rw [hrun] at hfirst
      rw [hfirst]
      exact hf a after
  | error stop after =>
      rw [hrun] at hfirst
      rw [hfirst]

/-- What only takes down something leaves no mark. -/
theorem silent_bind {m : Traced α} {f : α → Traced β} {n : Eval β}
    (hm : ∀ before, ∃ a after, m before = .ok a after ∧ after.world = before.world)
    (hf : ∀ a, Erases (f a) n) :
    Erases (m >>= f) n := by
  intro before
  obtain ⟨a, after, hrun, hworld⟩ := hm before
  simp only [Bind.bind, EStateM.bind, hrun]
  have hrest := hf a after
  rw [hworld] at hrest
  exact hrest

theorem lift (m : Eval α) : Erases (Traced.lift m) m := by
  intro before
  unfold Traced.lift
  cases m before.world <;> rfl

theorem use (node : Expr) (o : Occurrence) (scope : ScopeId) (assigned : Option Value) (m : Eval Value) :
    Erases (Traced.use node o scope assigned m) m := by
  intro before
  unfold Traced.use
  cases m before.world <;> rfl

variable {eval : Expr → Occurrence → ScopeId → Traced Value} {plain : Expr → ScopeId → Eval Value}
  (heval : ∀ e o scope, Erases (eval e o scope) (plain e scope)) (o : Occurrence)

include heval

theorem bindings (bs : List Binding) (k : Nat) (scope : ScopeId) :
    Erases (Traced.bindings eval o bs k scope) (bs.foldlM (fun outer b => do
      let value ← match b with
        | .bare _ => Pure.pure Value.false
        | .bound _ init => plain init outer
      Eval.extend outer [(b.name, value)]) scope) := by
  induction bs generalizing k scope with
  | nil => exact pure scope
  | cons b bs ih =>
      rw [List.foldlM_cons]
      have hrest (value : Value) : Erases (do
          let inner ← Traced.lift (Eval.extend scope [(b.name, value)])
          Traced.bindings eval o bs (k + 1) inner) (do
          let inner ← Eval.extend scope [(b.name, value)]
          bs.foldlM (fun outer b => do
            let value ← match b with
              | .bare _ => Pure.pure Value.false
              | .bound _ init => plain init outer
            Eval.extend outer [(b.name, value)]) inner) :=
        bind (lift _) fun inner => ih (k + 1) inner
      cases b with
      | bare name => exact bind (pure Value.false) hrest
      | bound name init =>
          simp only [bind_assoc]
          exact bind (heval init (o.part k) scope) hrest

theorem block (scope : ScopeId) (body : List Expr) (k : Nat) (value : Value) :
    Erases (Traced.block eval o scope body k value) (body.foldlM (fun _ e => plain e scope) value) := by
  induction body generalizing k value with
  | nil => exact pure value
  | cons e body ih =>
      rw [List.foldlM_cons]
      exact bind (heval e (o.part k) scope) fun value => ih (k + 1) value

theorem args (scope : ScopeId) (as : List Expr) (k : Nat) :
    Erases (Traced.args eval o scope as k) (as.mapM fun a => plain a scope) := by
  induction as generalizing k with
  | nil => exact pure []
  | cons a as ih =>
      rw [List.mapM_cons]
      exact bind (heval a (o.part k) scope) fun value => bind (ih (k + 1)) fun values => pure (value :: values)

end Erases

/-- **Keeping account does not change evaluation.** -/
theorem erases_trace (depth : Nat) (e : Expr) (o : Occurrence) (scope : ScopeId) :
    Erases (trace depth e o scope) (evaluate depth e scope) := by
  induction depth using Nat.strongRecOn generalizing e o scope with
  | ind depth ih =>
      match depth, ih with
      | 0, _ | 1, _ | 2, _ => exact .throw .tooDeep
      | depth + 3, ih =>
          have hpart (k : Nat) (hk : k < 3) (e : Expr) (o : Occurrence) (scope : ScopeId) :
              Erases (trace (depth + k) e o scope) (evaluate (depth + k) e scope) :=
            ih (depth + k) (Nat.add_lt_add_left hk depth) e o scope
          have hone := hpart 1 (by decide)
          have hzero := hpart 0 (by decide)
          refine .silent_bind (fun before => ⟨(), _, rfl, rfl⟩) fun _ => ?_
          cases e with
          | number value pos => exact .pure _
          | string value pos => exact .pure _
          | boolean value pos => exact .pure _
          | «variable» name pos => exact .use _ o scope none _
          | lambda name params body pos =>
              show Erases _ (Eval.makeFunction name params body scope)
              rw [← bind_pure (Eval.makeFunction name params body scope)]
              exact .bind (.lift _) fun value => .silent_bind (fun before => ⟨(), _, rfl, rfl⟩) fun _ => .pure value
          | assign target value pos =>
              cases target with
              | «variable» name _ =>
                  refine .bind (hone value (o.part 1) scope) fun v => ?_
                  exact .silent_bind (fun before => ⟨(), _, rfl, rfl⟩) fun _ => .use _ o scope (some v) _
              | _ => exact .bind (.lift _) fun text => .lift _
          | binary op left right pos =>
              refine .bind (hpart 2 (by decide) left (o.part 0) scope) fun l => ?_
              exact .bind (hpart 2 (by decide) right (o.part 1) scope) fun r => .lift _
          | ifThen test consequent pos =>
              refine .bind (hone test (o.part 0) scope) fun t => ?_
              cases t.isTruthy with
              | true => exact hone consequent (o.part 1) scope
              | false => exact .pure _
          | ifThenElse test consequent alternative pos =>
              refine .bind (hone test (o.part 0) scope) fun t => ?_
              cases t.isTruthy with
              | true => exact hone consequent (o.part 1) scope
              | false => exact hone alternative (o.part 2) scope
          | letIn bindings body pos =>
              exact .bind (.bindings hone o bindings 0 scope) fun inner => hone body (o.part bindings.length) inner
          | block body pos => exact .block hone o scope body 0 Value.false
          | call callee args pos =>
              refine .bind (hone callee (o.part 0) scope) fun f => ?_
              cases f with
              | closure c =>
                  refine .bind (.args hzero o scope args 1) fun values => .bind (.lift _) fun inner => ?_
                  exact .silent_bind (fun before => ⟨_, before, rfl, rfl⟩) fun body => hzero c.body body inner
              | builtin b => exact .bind (.args hzero o scope args 1) fun values => .lift _
              | _ => exact .bind (.lift _) fun text => .lift _

theorem erases_traceText (depth : Nat) (text : String) :
    Erases (traceText depth text) (runText depth text) := by
  unfold traceText runText
  cases parse depth text with
  | ok program =>
      exact .silent_bind (fun before => ⟨_, _, rfl, rfl⟩) fun o => erases_trace depth program o Store.root
  | error stop => exact .throw stop

theorem Trace.world_run (before : Trace) (depth : Nat) (text : String) :
    (before.run depth text).world = before.world.run depth text := by
  have herases := erases_traceText depth text before
  unfold Trace.run World.run
  cases hrun : traceText depth text before with
  | ok value after =>
      rw [hrun] at herases
      rw [herases]
  | error stop after =>
      rw [hrun] at herases
      rw [herases]

theorem Trace.world_runAll (before : Trace) (texts : List (Nat × String)) :
    (before.runAll texts).world = before.world.runAll texts := by
  unfold Trace.runAll World.runAll
  induction texts generalizing before with
  | nil => rfl
  | cons text texts ih => rw [List.foldl_cons, List.foldl_cons, ih, Trace.world_run]

end LambdaScript
