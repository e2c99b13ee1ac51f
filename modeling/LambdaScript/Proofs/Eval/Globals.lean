import LambdaScript.Proofs.Eval.Leads
import LambdaScript.Proofs.Eval.Store
import LambdaScript.Proofs.Eval.Trace
import LambdaScript.Proofs.Expr.Sequence
import LambdaScript.Proofs.Expr.Site

/-!
Which names there are. A scope keeps the names it was opened with, in their order, and gains no others. The one
exception is the root, and only in so far as an expression is evaluated in it that assigns to a name outside of all
its binders: bodies of functions and whatever stands behind the first binding of a let are evaluated in scopes below
others. So the globals of a program can be read off its text, whatever closures it makes and calls, and whether or
not it comes to an end.
-/

namespace LambdaScript

/-- An expression assigns to a name outside of all its binders: in no body of a function, in no body of a let with
bindings, and in no initial value but the first of a let. -/
def Expr.AssignsOutside (e : Expr) (name : String) : Prop :=
  ∃ (path : List Nat) (value : Expr) (place pos : Option Position),
    path.foldlM Site.part? ⟨e, []⟩ = some ⟨.assign (.variable name place) value pos, []⟩

theorem Expr.AssignsOutside.of_part {e part : Expr} {k : Nat} {name : String} (h : part.AssignsOutside name)
    (hpart : Site.part? ⟨e, []⟩ k = some ⟨part, []⟩) : e.AssignsOutside name := by
  obtain ⟨path, value, place, pos, hpath⟩ := h
  refine ⟨k :: path, value, place, pos, ?_⟩
  rw [List.foldlM_cons, hpart]
  exact hpath

theorem Expr.assignsOutside_assign {name : String} {place pos : Option Position} {value : Expr} :
    (Expr.assign (.variable name place) value pos).AssignsOutside name :=
  ⟨[], value, place, pos, rfl⟩

namespace Store

variable {P : ScopeId → String → Prop} {store before after : Store} {scope parent : ScopeId} {name : String}
  {value : Value} {vars : Vars} {e : Expr}

theorem mem_names_of_lookup {owner : ScopeId} (h : store.lookup scope name = some owner) :
    name ∈ (store.vars owner).names := by
  fun_induction Store.lookup store scope name with
  | case1 scope howns => exact Option.some.inj h ▸ Vars.isSome_get?.mp howns
  | case2 scope _ parent hparent holder ih => exact ih h
  | case3 => cases h
  | case4 => cases h

/-- Stores with all scopes of an earlier one, under the same parents. They have the names that they had, in the same
order, and behind them new ones that `P` allows. -/
structure Gains (P : ScopeId → String → Prop) (before after : Store) : Prop where
  size : before.scopes.size ≤ after.scopes.size
  parent : ∀ scope < before.scopes.size, after.parent? scope = before.parent? scope
  names : ∀ scope < before.scopes.size, ∃ gained, (after.vars scope).names = (before.vars scope).names ++ gained ∧
    ∀ name ∈ gained, P scope name

theorem Gains.refl : store.Gains P store :=
  ⟨Nat.le_refl _, fun _ _ => rfl, fun _ _ => ⟨[], (List.append_nil _).symm, List.forall_mem_nil _⟩⟩

theorem Gains.trans {first second third : Store} (h : first.Gains P second) (h' : second.Gains P third) :
    first.Gains P third := by
  refine ⟨Nat.le_trans h.size h'.size, fun scope hold => ?_, fun scope hold => ?_⟩
  · exact (h'.parent scope (Nat.lt_of_lt_of_le hold h.size)).trans (h.parent scope hold)
  · obtain ⟨gained, hnames, hgained⟩ := h.names scope hold
    obtain ⟨more, hmore, hallowed⟩ := h'.names scope (Nat.lt_of_lt_of_le hold h.size)
    refine ⟨gained ++ more, ?_, fun name hname => ?_⟩
    · rw [hmore, hnames, List.append_assoc]
    · exact (List.mem_append.mp hname).elim (hgained name) (hallowed name)

theorem gains_extend : store.Gains P (store.extend parent vars).1 := by
  refine ⟨by rw [size_extend]; omega, fun scope hold => ?_, fun scope hold => ⟨[], ?_, List.forall_mem_nil _⟩⟩
  · exact parent?_extend_of_ne (Nat.ne_of_lt hold)
  · rw [vars_extend_of_ne (Nat.ne_of_lt hold), List.append_nil]

/-- Giving a name a value in the scope that takes it adds a name to the root at most. -/
theorem gains_define (hallowed : store.parent? scope = none → P scope name) {owner : ScopeId}
    (howner : store.ownerFor? scope name = some owner) : store.Gains P (store.define owner name value) := by
  refine ⟨Nat.le_of_eq size_define.symm, fun _ _ => parent?_define, fun other hold => ?_⟩
  by_cases hother : other = owner
  · subst hother
    rw [vars_define_self hold, Vars.names_set]
    by_cases howns : name ∈ (store.vars other).names
    · exact ⟨[], by rw [if_pos howns, List.append_nil], List.forall_mem_nil _⟩
    · refine ⟨[name], if_neg howns, fun found hfound => ?_⟩
      obtain rfl := List.mem_singleton.mp hfound
      -- no scope owns the name, so the owner is the scope itself, and that is the root
      unfold ownerFor? at howner
      cases hlookup : store.lookup scope found with
      | some first =>
          rw [hlookup] at howner
          exact absurd (Option.some.inj howner ▸ mem_names_of_lookup hlookup) howns
      | none =>
          simp only [hlookup] at howner
          split at howner
          · next hroot =>
            obtain rfl := Option.some.inj howner
            exact hallowed (Option.isNone_iff_eq_none.mp hroot)
          · cases howner
  · exact ⟨[], by rw [vars_define_of_ne hother, List.append_nil], List.forall_mem_nil _⟩

/-- All names that an expression may add to a scope are allowed: those that it assigns to outside of its binders, if
the scope is the root, and none otherwise. -/
def Allows (P : ScopeId → String → Prop) (store : Store) (e : Expr) (scope : ScopeId) : Prop :=
  store.parent? scope = none → ∀ name, e.AssignsOutside name → P scope name

theorem Allows.part (h : store.Allows P e scope) {part : Expr} {k : Nat}
    (hpart : Site.part? ⟨e, []⟩ k = some ⟨part, []⟩) : store.Allows P part scope :=
  fun hroot name hassigns => h hroot name (hassigns.of_part hpart)

theorem Allows.item {body : List Expr} {pos : Option Position} (h : store.Allows P (.block body pos) scope)
    {part : Expr} (hmem : part ∈ body) : store.Allows P part scope := by
  obtain ⟨k, hk⟩ := List.mem_iff_getElem?.mp hmem
  exact h.part (k := k) (congrArg (Option.map (Site.mk · [])) hk)

theorem Allows.arg {callee : Expr} {args : List Expr} {pos : Option Position}
    (h : store.Allows P (.call callee args pos) scope) {part : Expr} (hmem : part ∈ args) :
    store.Allows P part scope := by
  obtain ⟨k, hk⟩ := List.mem_iff_getElem?.mp hmem
  exact h.part (k := k + 1) (congrArg (Option.map (Site.mk · [])) hk)

theorem Allows.mono (h : before.Allows P e scope) (hgains : before.Gains P after) : after.Allows P e scope := by
  intro hroot
  apply h
  by_cases hold : scope < before.scopes.size
  · rw [← hgains.parent scope hold]
    exact hroot
  · simp [parent?, Array.getElem?_eq_none (Nat.le_of_not_lt hold)]

/-- Below the root nothing needs to be allowed. -/
theorem allows_of_parent (h : store.parent? scope = some parent) : store.Allows P e scope := by
  intro hroot
  rw [h] at hroot
  cases hroot

end Store

/-- A computation adds names that are allowed, and leads to a result that satisfies `Q` if it does not stop. -/
def Adds {α : Type} (P : ScopeId → String → Prop) (m : Eval α) (before : World) (Q : α → World → Prop) : Prop :=
  Leads (fun _ after => before.store.Gains P after.store) m before fun a after =>
    before.store.Gains P after.store ∧ Q a after

namespace Adds

variable {P : ScopeId → String → Prop} {α β : Type} {m : Eval α} {Q : α → World → Prop} {R : β → World → Prop}
  {before : World} {scope parent : ScopeId} {name : String} {value : Value} {pos : Option Position}

theorem pure {a : α} (h : Q a before) : Adds P (Pure.pure a) before Q := ⟨.refl, h⟩

theorem throw {stop : Stop} : Adds P (MonadExcept.throw stop) before Q := .refl

theorem bind {f : α → Eval β} (hm : Adds P m before Q)
    (hf : ∀ a after, before.store.Gains P after.store → Q a after → Adds P (f a) after R) :
    Adds P (m >>= f) before R := by
  unfold Adds Leads at *
  simp only [Bind.bind, EStateM.bind]
  cases hrun : m before with
  | error stop after =>
      rw [hrun] at hm
      exact hm
  | ok a after =>
      rw [hrun] at hm
      have hrest := hf a after hm.1 hm.2
      dsimp only at hrest ⊢
      cases hthen : f a after with
      | error stop last =>
          rw [hthen] at hrest
          exact hm.1.trans hrest
      | ok b last =>
          rw [hthen] at hrest
          exact ⟨hm.1.trans hrest.1, hrest.2⟩

/-! ### Steps of evaluation -/

/-- A scope that is opened has a parent. -/
theorem extend {vars : Vars} :
    Adds P (Eval.extend parent vars) before fun inner after => after.store.parent? inner = some parent :=
  ⟨Store.gains_extend, Store.parent?_extend_self⟩

theorem readVariable : Adds P (Eval.readVariable scope name pos) before fun _ _ => True := by
  unfold Adds Leads Eval.readVariable
  cases before.store.read scope name with
  | none => exact .refl
  | some value => exact ⟨.refl, trivial⟩

theorem assignVariable (hallowed : before.store.parent? scope = none → P scope name) :
    Adds P (Eval.assignVariable scope name value pos) before fun _ _ => True := by
  unfold Adds Leads Eval.assignVariable
  cases howner : before.store.ownerFor? scope name with
  | none =>
      simp only [howner]
      exact .refl
  | some owner =>
      simp only [howner]
      exact ⟨Store.gains_define hallowed howner, trivial⟩

theorem makeFunction (own : Option String) {params : List String} {body : Expr} :
    Adds P (Eval.makeFunction own params body scope) before fun _ _ => True := by
  cases own with
  | none => exact ⟨.refl, trivial⟩
  | some own =>
      -- the scope with the own name is opened and filled in one go
      refine ⟨?_, trivial⟩
      show before.store.Gains P ((before.store.extend scope []).1.define before.store.scopes.size own _)
      rw [Store.define_extend]
      exact Store.gains_extend

theorem callBuiltin {b : Builtin} {args : List Value} :
    Adds P (Eval.callBuiltin b args) before fun _ _ => True := ⟨.refl, trivial⟩

theorem applyOperator {op : Operator} {left right : Value} :
    Adds P (Eval.applyOperator op left right pos) before fun _ _ => True := by
  unfold Eval.applyOperator
  cases op.apply left right with
  | ok value => exact .pure trivial
  | error cause => exact .throw

theorem failWithSource {depth : Nat} {e : Expr} {cause : String → Cause} :
    Adds P (do Eval.fail (cause (← Eval.sourceFor depth e)) pos) before Q := by
  refine .bind (Q := fun _ _ => True) ?_ fun text after _ _ => .throw
  unfold Eval.sourceFor
  cases e.source? depth with
  | none => exact .throw
  | some text => exact .pure trivial

/-! ### Evaluation -/

variable {eval : Expr → ScopeId → Eval Value}
  (heval : ∀ e scope before, before.store.Allows P e scope → Adds P (eval e scope) before fun _ _ => True)

include heval

/-- A binding opens a scope below the one in which its initial value is evaluated. -/
theorem binding {b : Binding} (hallows : ∀ name init, b = .bound name init → before.store.Allows P init scope) :
    Adds P (do
      let value ← match b with
        | .bare _ => Pure.pure Value.false
        | .bound _ init => eval init scope
      Eval.extend scope [(b.name, value)]) before fun inner after => after.store.parent? inner = some scope := by
  cases b with
  | bare name => exact .bind (.pure (Q := fun _ _ => True) trivial) fun _ _ _ _ => .extend
  | bound name init => exact .bind (heval init scope before (hallows name init rfl)) fun _ _ _ _ => .extend

/-- Initial values below the root add nothing. -/
theorem bindings_below {bindings : List Binding} (hparent : before.store.parent? scope = some parent) :
    Adds P (bindings.foldlM (fun outer b => do
      let value ← match b with
        | .bare _ => Pure.pure Value.false
        | .bound _ init => eval init outer
      Eval.extend outer [(b.name, value)]) scope) before fun inner after =>
        ∃ parent, after.store.parent? inner = some parent := by
  induction bindings generalizing scope parent before with
  | nil => exact .pure ⟨parent, hparent⟩
  | cons b bindings ih =>
      rw [List.foldlM_cons]
      exact .bind (binding heval fun _ _ _ => Store.allows_of_parent hparent) fun inner after _ => ih

/-- Only the first initial value of a let is evaluated where the let is, and its body if there are no bindings. -/
theorem letIn {bindings : List Binding} {body : Expr} {pos : Option Position}
    (hallows : before.store.Allows P (.letIn bindings body pos) scope) :
    Adds P (do
      let inner ← bindings.foldlM (fun outer b => do
        let value ← match b with
          | .bare _ => Pure.pure Value.false
          | .bound _ init => eval init outer
        Eval.extend outer [(b.name, value)]) scope
      eval body inner) before fun _ _ => True := by
  cases bindings with
  | nil =>
      have hbody : before.store.Allows P body scope := hallows.part (k := 0) rfl
      exact heval body scope before hbody
  | cons b bindings =>
      rw [List.foldlM_cons]
      have hfirst (name : String) (init : Expr) (hb : b = .bound name init) : before.store.Allows P init scope := by
        subst hb
        exact hallows.part (k := 0) rfl
      refine .bind (.bind (binding heval hfirst) fun inner after _ => bindings_below heval) ?_
      intro inner after _ hinner
      obtain ⟨parent, hparent⟩ := hinner
      exact heval body inner after (Store.allows_of_parent hparent)

theorem block {body : List Expr} {value : Value} (hallows : ∀ e ∈ body, before.store.Allows P e scope) :
    Adds P (body.foldlM (fun _ e => eval e scope) value) before fun _ _ => True := by
  induction body generalizing before value with
  | nil => exact .pure trivial
  | cons e body ih =>
      rw [List.foldlM_cons]
      refine .bind (heval e scope before (hallows e List.mem_cons_self)) fun value after hgains _ => ih fun e he => ?_
      exact (hallows e (List.mem_cons_of_mem _ he)).mono hgains

theorem args {args : List Expr} (hallows : ∀ arg ∈ args, before.store.Allows P arg scope) :
    Adds P (args.mapM fun a => eval a scope) before fun _ _ => True := by
  induction args generalizing before with
  | nil =>
      rw [List.mapM_nil]
      exact .pure trivial
  | cons arg args ih =>
      rw [List.mapM_cons]
      refine .bind (heval arg scope before (hallows arg List.mem_cons_self)) fun value after hgains _ => ?_
      refine .bind (ih fun arg harg => ?_) fun values last _ _ => .pure trivial
      exact (hallows arg (List.mem_cons_of_mem _ harg)).mono hgains

end Adds

/-- **Evaluation adds no names but those that are allowed.** -/
theorem adds_evaluate {P : ScopeId → String → Prop} (depth : Nat) (e : Expr) (scope : ScopeId) (before : World)
    (hallows : before.store.Allows P e scope) : Adds P (evaluate depth e scope) before fun _ _ => True := by
  induction depth using Nat.strongRecOn generalizing e scope before with
  | ind depth ih =>
      match depth, ih with
      | 0, _ | 1, _ | 2, _ => exact .throw
      | depth + 3, ih =>
          have hpart (k : Nat) (hk : k < 3) := ih (depth + k) (Nat.add_lt_add_left hk depth)
          have hone := hpart 1 (by decide)
          have hzero := hpart 0 (by decide)
          cases e with
          | number value pos => exact .pure trivial
          | string value pos => exact .pure trivial
          | boolean value pos => exact .pure trivial
          | «variable» name pos => exact .readVariable
          | lambda name params body pos => exact .makeFunction name
          | assign target value pos =>
              cases target with
              | «variable» name place =>
                  refine .bind (hone value scope before (hallows.part (k := 1) rfl)) fun v after hgains _ => ?_
                  exact .assignVariable fun hroot => hallows.mono hgains hroot name Expr.assignsOutside_assign
              | _ => exact .failWithSource
          | binary op left right pos =>
              have htwo := hpart 2 (by decide)
              refine .bind (htwo left scope before (hallows.part (k := 0) rfl)) fun l after hgains _ => ?_
              refine .bind (htwo right scope after ((hallows.part (k := 1) rfl).mono hgains)) fun r last _ _ => ?_
              exact .applyOperator
          | ifThen test consequent pos =>
              refine .bind (hone test scope before (hallows.part (k := 0) rfl)) fun t after hgains _ => ?_
              split
              · exact hone consequent scope after ((hallows.part (k := 1) rfl).mono hgains)
              · exact .pure trivial
          | ifThenElse test consequent alternative pos =>
              refine .bind (hone test scope before (hallows.part (k := 0) rfl)) fun t after hgains _ => ?_
              split
              · exact hone consequent scope after ((hallows.part (k := 1) rfl).mono hgains)
              · exact hone alternative scope after ((hallows.part (k := 2) rfl).mono hgains)
          | letIn bindings body pos => exact .letIn hone hallows
          | block body pos => exact .block hone fun _ hmem => hallows.item hmem
          | call callee args pos =>
              refine .bind (hone callee scope before (hallows.part (k := 0) rfl)) fun f after hgains _ => ?_
              have hargs : Adds P (args.mapM fun a => evaluate depth a scope) after fun _ _ => True :=
                .args hzero fun arg hmem => (hallows.arg hmem).mono hgains
              cases f with
              | closure c =>
                  -- the body is evaluated in a scope below that of the closure
                  refine .bind hargs fun values middle _ _ => .bind .extend fun inner last _ hinner => ?_
                  exact hzero c.body inner last (Store.allows_of_parent hinner)
              | builtin b => exact .bind hargs fun values last _ _ => .callBuiltin
              | _ => exact .failWithSource

/-- **Only assignments outside of all binders make new names, and they make them in the root.** In whatever world
an expression is evaluated, and whether it comes to a value or stops, every scope that was there has the names that
it had, in the same order; if there are new ones behind them, then the expression was evaluated in this scope, which
is a root, and assigns to each of them outside of its binders. So a program that is run in a fresh world leaves the
builtins and names that it assigns to in this way. -/
theorem evaluate_names :
    (∀ depth e scope before, ∀ other < before.store.scopes.size, ∃ gained,
      ((leftBy (evaluate depth e scope before)).store.vars other).names = (before.store.vars other).names ++ gained ∧
        ∀ name ∈ gained, other = scope ∧ before.store.isRoot scope = true ∧ e.AssignsOutside name) ∧
    ∀ depth text program, parse depth text = .ok program → ∃ gained,
      (World.initial.run depth text).globals.names = ["print", "println"] ++ gained ∧
        ∀ name ∈ gained, program.AssignsOutside name := by
  have hnames (depth : Nat) (e : Expr) (scope : ScopeId) (before : World) (other : ScopeId)
      (hold : other < before.store.scopes.size) := by
    let P : ScopeId → String → Prop := fun other name =>
      other = scope ∧ before.store.isRoot scope = true ∧ e.AssignsOutside name
    have hallows : before.store.Allows P e scope := fun hroot name hassigns =>
      ⟨rfl, Option.isNone_iff_eq_none.mpr hroot, hassigns⟩
    exact (adds_evaluate depth e scope before hallows).leftBy.names other hold
  refine ⟨hnames, fun depth text program hparse => ?_⟩
  have hrun : World.initial.run depth text = leftBy (evaluate depth program Store.root World.initial) := by
    unfold World.run runText
    rw [hparse]
    dsimp only
    cases evaluate depth program Store.root World.initial <;> rfl
  obtain ⟨gained, hgained, hallowed⟩ := hnames depth program Store.root World.initial Store.root Nat.one_pos
  refine ⟨gained, ?_, fun name hname => (hallowed name hname).2.2⟩
  rw [hrun]
  exact hgained

/-- A program that fails: of the names that it assigns to, the last one stands below a binder. -/
theorem evaluate_names_failing :
    ∃ program gained, parse 30 "y = 1; let (a = (x = y), b = (z = 2)) a" = .ok program ∧
      (World.initial.run 30 "y = 1; let (a = (x = y), b = (z = 2)) a").globals.names =
        ["print", "println"] ++ gained ∧
      (∀ name ∈ gained, program.AssignsOutside name) ∧ gained = ["y", "x"] := by
  have hread : (parse 30 "y = 1; let (a = (x = y), b = (z = 2)) a").toOption.any
      (Expr.hasBody fun body => body.length == 2) = true := by decide +kernel
  obtain ⟨body, hparse, -⟩ := exists_body hread
  obtain ⟨gained, hnames, hallowed⟩ := evaluate_names.2 30 _ _ hparse
  have hglobals : (World.initial.run 30 "y = 1; let (a = (x = y), b = (z = 2)) a").globals.names =
      ["print", "println"] ++ ["y", "x"] := by decide +kernel
  exact ⟨_, gained, hparse, hnames, hallowed, List.append_cancel_left (hnames.symm.trans hglobals)⟩

end LambdaScript
