import LambdaScript.Proofs.Eval.Leads
import LambdaScript.Proofs.Eval.Safety
import LambdaScript.Proofs.Eval.Store

/-!
What evaluation can reach. From a scope an expression gets to the scopes above it, and through the closures that
these hold to the scopes in which the closures were made, and so on. All others are out of its reach: it leaves
them as they are, and nothing that it does depends on what they hold. Closures are stored, passed and given back,
so what can be reached changes as evaluation goes on; but it never goes beyond what could be reached at first and
what was opened since. Two runs are followed at once, in worlds that are equal as far as this goes.
-/

namespace LambdaScript

/-- The scopes in reach of a scope: itself, the parents of scopes in reach, and the scopes that closures bound in
them were made in. -/
inductive Store.Reaches (store : Store) (start : ScopeId) : ScopeId → Prop where
  | start : Reaches store start start
  | parent {scope parent : ScopeId} (h : Reaches store start scope) (hparent : store.parent? scope = some parent) :
      Reaches store start parent
  | captured {scope : ScopeId} {name : String} {c : Closure} (h : Reaches store start scope)
      (hbound : (store.vars scope).get? name = some (.closure c)) : Reaches store start c.scope

/-- A value that captures, if it is a closure, a scope with some property. -/
def Value.Captures (P : ScopeId → Prop) : Value → Prop
  | .closure c => P c.scope
  | _ => True

theorem Value.Captures.mono {P P' : ScopeId → Prop} {value : Value} (h : value.Captures P)
    (himp : ∀ scope, P scope → P' scope) : value.Captures P' := by
  cases value with
  | closure c => exact himp c.scope h
  | _ => trivial

theorem Value.captures_of_plain {P : ScopeId → Prop} {value : Value} (h : ∀ c, value ≠ .closure c) :
    value.Captures P := by
  cases value with
  | closure c => exact absurd rfl (h c)
  | _ => trivial

/-- Where evaluation may go: some scopes that were there at first, when there were `size` of them, and all that
are opened later. -/
structure Region where
  reached : ScopeId → Prop
  size : Nat

/-- Where an evaluation in a scope may go. -/
def Store.region (store : Store) (start : ScopeId) : Region := ⟨store.Reaches start, store.scopes.size⟩

namespace Region

variable (region : Region)

/-- A scope of the region, in a store that has grown. -/
def Has (store : Store) (scope : ScopeId) : Prop :=
  region.reached scope ∨ region.size ≤ scope ∧ scope < store.scopes.size

/-- Nothing leads out of the region: neither the parents of its scopes nor the closures bound in them. -/
structure IsClosed (store : Store) : Prop where
  size : region.size ≤ store.scopes.size
  parent : ∀ {scope parent : ScopeId}, region.Has store scope → store.parent? scope = some parent →
    region.Has store parent
  value : ∀ {scope : ScopeId} {name : String} {value : Value}, region.Has store scope →
    (store.vars scope).get? name = some value → value.Captures (region.Has store)

/-- Worlds with as many scopes that are equal in the region, and in what has been printed. -/
structure Agrees (world world' : World) : Prop where
  size_eq : world.store.scopes.size = world'.store.scopes.size
  scope_eq : ∀ {scope : ScopeId}, region.Has world.store scope →
    world.store.scopes[scope]? = world'.store.scopes[scope]?
  serial_eq : world.nextSerial = world'.nextSerial
  output_eq : world.output = world'.output

/-- No scope is lost, and those that were there at first and are not in the region are as they were. -/
structure Spares (before after : Store) : Prop where
  size : before.scopes.size ≤ after.scopes.size
  scope_eq : ∀ scope < region.size, ¬ region.reached scope → after.scopes[scope]? = before.scopes[scope]?

/-- The same result in worlds that agree. -/
def SameOutcome : EStateM.Result Stop World Value → EStateM.Result Stop World Value → Prop
  | .ok value after, .ok value' after' => value = value' ∧ region.Agrees after after'
  | .error stop after, .error stop' after' => stop = stop' ∧ region.Agrees after after'
  | _, _ => False

/-- What a step in two worlds keeps up: nothing leads out of the region, the worlds agree in it, and what is not in
it is as before. -/
structure Holds (before after after' : World) : Prop where
  closed : region.IsClosed after.store
  agrees : region.Agrees after after'
  spares : region.Spares before.store after.store

/-- From a world and all that agree with it, a computation comes to the same result, which satisfies `Q`, or stops
for the same cause; on the way it does not leave the region. -/
def Confines {α : Type} (m : Eval α) (before : World) (Q : α → World → Prop) : Prop :=
  region.IsClosed before.store → ∀ before', region.Agrees before before' →
    match m before, m before' with
    | .ok a after, .ok a' after' => a = a' ∧ Q a after ∧ region.Holds before after after'
    | .error stop after, .error stop' after' => stop = stop' ∧ region.Holds before after after'
    | _, _ => False

variable {region} {store : Store} {scope parent : ScopeId} {name : String} {value : Value} {vars : Vars}
  {before after before' after' world : World}

/-! ### The region -/

theorem Spares.refl : region.Spares store store := ⟨Nat.le_refl _, fun _ _ _ => rfl⟩

theorem Spares.trans {first second third : Store} (h : region.Spares first second) (h' : region.Spares second third) :
    region.Spares first third := by
  refine ⟨Nat.le_trans h.size h'.size, fun scope hold hout => ?_⟩
  exact (h'.scope_eq scope hold hout).trans (h.scope_eq scope hold hout)

/-- A region only gains scopes. -/
theorem Spares.has {store after : Store} (h : region.Spares store after) (hscope : region.Has store scope) :
    region.Has after scope := by
  apply hscope.imp_right
  rintro ⟨hnew, hlt⟩
  exact ⟨hnew, Nat.lt_of_lt_of_le hlt h.size⟩

theorem Spares.captures {store after : Store} (h : region.Spares store after)
    (hvalue : value.Captures (region.Has store)) : value.Captures (region.Has after) :=
  hvalue.mono fun _ => h.has

theorem Holds.here (hclosed : region.IsClosed before.store) (hagrees : region.Agrees before before') :
    region.Holds before before before' := ⟨hclosed, hagrees, .refl⟩

theorem Agrees.refl : region.Agrees world world := ⟨rfl, fun _ => rfl, rfl, rfl⟩

theorem Agrees.has_iff (h : region.Agrees before before') :
    region.Has before.store scope ↔ region.Has before'.store scope := by
  unfold Has
  rw [h.size_eq]

theorem Agrees.vars_eq (h : region.Agrees before before') (hscope : region.Has before.store scope) :
    before.store.vars scope = before'.store.vars scope := by
  unfold Store.vars
  rw [h.scope_eq hscope]

theorem Agrees.parent?_eq (h : region.Agrees before before') (hscope : region.Has before.store scope) :
    before.store.parent? scope = before'.store.parent? scope := by
  unfold Store.parent?
  rw [h.scope_eq hscope]

/-- A search from a scope of the region goes through the region only. -/
theorem Agrees.lookup_eq (h : region.Agrees before before') (hclosed : region.IsClosed before.store)
    (hscope : region.Has before.store scope) (name : String) :
    before.store.lookup scope name = before'.store.lookup scope name ∧
      ∀ owner, before.store.lookup scope name = some owner → region.Has before.store owner := by
  induction scope using Nat.strongRecOn with
  | ind scope ih =>
      rw [Store.lookup, Store.lookup, ← h.vars_eq hscope, ← h.parent?_eq hscope]
      by_cases howns : ((before.store.vars scope).get? name).isSome = true
      · simp only [if_pos howns, Option.some.injEq, true_and]
        rintro owner rfl
        exact hscope
      · simp only [if_neg howns]
        cases hparent : before.store.parent? scope with
        | none => simp
        | some parent =>
            by_cases holder : parent < scope
            · simp only [if_pos holder]
              exact ih parent holder (hclosed.parent hscope hparent)
            · simp [if_neg holder]

theorem Agrees.ownerFor?_eq (h : region.Agrees before before') (hclosed : region.IsClosed before.store)
    (hscope : region.Has before.store scope) (name : String) :
    before.store.ownerFor? scope name = before'.store.ownerFor? scope name ∧
      ∀ owner, before.store.ownerFor? scope name = some owner → region.Has before.store owner := by
  obtain ⟨heq, hhas⟩ := h.lookup_eq hclosed hscope name
  unfold Store.ownerFor? Store.isRoot
  rw [← heq, ← h.parent?_eq hscope]
  refine ⟨rfl, fun owner howner => ?_⟩
  cases hlookup : before.store.lookup scope name with
  | some found =>
      rw [hlookup] at howner
      exact Option.some.inj howner ▸ hhas found hlookup
  | none =>
      simp only [hlookup] at howner
      split at howner
      · exact Option.some.inj howner ▸ hscope
      · cases howner

theorem Spares.extend (hsize : region.size ≤ store.scopes.size) :
    region.Spares store (store.extend parent vars).1 := by
  refine ⟨by rw [Store.size_extend]; omega, fun scope hold _ => ?_⟩
  have hne : scope ≠ store.scopes.size := by omega
  simp [Store.extend, Array.getElem?_push, hne]

theorem Spares.define (hscope : region.Has store scope) : region.Spares store (store.define scope name value) := by
  refine ⟨Nat.le_of_eq Store.size_define.symm, fun other hold hout => ?_⟩
  have hne : scope ≠ other := by
    rintro rfl
    exact hscope.elim hout fun hnew => Nat.not_lt.mpr hnew.1 hold
  simp [Store.define, Array.getElem?_modify, hne]

theorem has_of_extend (h : region.Has (store.extend parent vars).1 scope) (hne : scope ≠ store.scopes.size) :
    region.Has store scope := by
  apply h.imp_right
  rw [Store.size_extend]
  rintro ⟨hnew, hlt⟩
  exact ⟨hnew, Nat.lt_of_le_of_ne (Nat.le_of_lt_succ hlt) hne⟩

theorem has_define {other : ScopeId} :
    region.Has (store.define scope name value) other ↔ region.Has store other := by
  unfold Has
  rw [Store.size_define]

/-- A scope opened below the region belongs to it, if the values in it do. -/
theorem IsClosed.extend (h : region.IsClosed store) (hparent : region.Has store parent)
    (hvars : ∀ entry ∈ vars, entry.2.Captures (region.Has store)) :
    region.IsClosed (store.extend parent vars).1 := by
  have hspares : region.Spares store (store.extend parent vars).1 := .extend h.size
  constructor
  · exact Nat.le_trans h.size hspares.size
  · intro scope outer hscope houter
    by_cases hnew : scope = store.scopes.size
    · subst hnew
      rw [Store.parent?_extend_self] at houter
      exact Option.some.inj houter ▸ hspares.has hparent
    · rw [Store.parent?_extend_of_ne hnew] at houter
      exact hspares.has (h.parent (has_of_extend hscope hnew) houter)
  · intro scope name value hscope hvalue
    by_cases hnew : scope = store.scopes.size
    · subst hnew
      rw [Store.vars_extend_self] at hvalue
      exact hspares.captures (hvars _ (Vars.mem_of_get? hvalue))
    · rw [Store.vars_extend_of_ne hnew] at hvalue
      exact hspares.captures (h.value (has_of_extend hscope hnew) hvalue)

theorem IsClosed.define (h : region.IsClosed store) (hvalue : value.Captures (region.Has store)) :
    region.IsClosed (store.define scope name value) := by
  constructor
  · rw [Store.size_define]
    exact h.size
  · intro other outer hother houter
    rw [Store.parent?_define] at houter
    exact has_define.mpr (h.parent (has_define.mp hother) houter)
  · intro other found old hother hold
    apply Value.Captures.mono _ fun scope => has_define.mpr
    rcases Store.eq_or_get?_of_define hold with rfl | hold
    · exact hvalue
    · exact h.value (has_define.mp hother) hold

theorem Agrees.extend (h : region.Agrees before before') (parent : ScopeId) (vars : Vars) :
    region.Agrees { before with store := (before.store.extend parent vars).1 }
      { before' with store := (before'.store.extend parent vars).1 } := by
  refine ⟨?_, fun {scope} hscope => ?_, h.serial_eq, h.output_eq⟩
  · simp only [Store.size_extend, h.size_eq]
  · simp only [Store.extend, Array.getElem?_push, h.size_eq]
    by_cases hnew : scope = before'.store.scopes.size
    · simp only [if_pos hnew]
    · simp only [if_neg hnew]
      exact h.scope_eq (has_of_extend hscope (h.size_eq ▸ hnew))

theorem Agrees.define (h : region.Agrees before before') (scope : ScopeId) (name : String) (value : Value) :
    region.Agrees { before with store := before.store.define scope name value }
      { before' with store := before'.store.define scope name value } := by
  refine ⟨?_, fun {other} hother => ?_, h.serial_eq, h.output_eq⟩
  · simp only [Store.size_define, h.size_eq]
  · simp only [Store.define, Array.getElem?_modify, h.scope_eq (has_define.mp hother)]

/-! ### Computations that stay in the region -/

namespace Confines

variable {α β : Type} {m : Eval α} {f : α → Eval β} {Q Q' : α → World → Prop} {R : β → World → Prop} {stop : Stop}

theorem pure {a : α} (h : Q a before) : region.Confines (Pure.pure a) before Q :=
  fun hclosed _ hagrees => ⟨rfl, h, .here hclosed hagrees⟩

theorem throw : region.Confines (MonadExcept.throw stop : Eval α) before Q :=
  fun hclosed _ hagrees => ⟨rfl, .here hclosed hagrees⟩

theorem bind (hm : region.Confines m before Q)
    (hf : ∀ a after, Q a after → region.Spares before.store after.store → region.Confines (f a) after R) :
    region.Confines (m >>= f) before R := by
  intro hclosed before' hagrees
  have hfirst := hm hclosed before' hagrees
  simp only [Bind.bind, EStateM.bind]
  cases hrun : m before <;> cases hrun' : m before' <;> rw [hrun, hrun'] at hfirst
  case ok.ok a after a' after' =>
    obtain ⟨rfl, hQ, hholds⟩ := hfirst
    have hrest := hf a after hQ hholds.spares hholds.closed after' hholds.agrees
    dsimp only
    cases hthen : f a after <;> cases hthen' : f a after' <;> rw [hthen, hthen'] at hrest
    case ok.ok b last b' last' =>
      obtain ⟨hvalue, hR, hlast⟩ := hrest
      exact ⟨hvalue, hR, hlast.closed, hlast.agrees, hholds.spares.trans hlast.spares⟩
    case error.error =>
      obtain ⟨hstop, hlast⟩ := hrest
      exact ⟨hstop, hlast.closed, hlast.agrees, hholds.spares.trans hlast.spares⟩
    all_goals exact hrest.elim
  case error.error => exact hfirst
  all_goals exact hfirst.elim

theorem mono (h : region.Confines m before Q)
    (himp : ∀ a after, region.Spares before.store after.store → Q a after → Q' a after) :
    region.Confines m before Q' := by
  rw [← bind_pure m]
  exact bind h fun a after hQ hspares => pure (himp a after hspares hQ)

/-- What every round of a loop hands on holds behind the loop. -/
theorem foldlM {xs : List α} {f : β → α → Eval β} {J : β → World → Prop} {init : β} (hinit : J init before)
    (hround : ∀ b x, x ∈ xs → ∀ world, J b world → region.Confines (f b x) world J) :
    region.Confines (xs.foldlM f init) before J := by
  induction xs generalizing init before with
  | nil => exact pure hinit
  | cons x xs ih =>
      rw [List.foldlM_cons]
      apply bind (hround init x List.mem_cons_self before hinit)
      intro b after hb _
      exact ih hb fun c y hy => hround c y (List.mem_cons_of_mem x hy)

end Confines

/-! ### Steps of evaluation -/

theorem confines_extend (hparent : region.Has before.store parent)
    (hvars : ∀ entry ∈ vars, entry.2.Captures (region.Has before.store)) :
    region.Confines (Eval.extend parent vars) before fun scope after => region.Has after.store scope := by
  intro hclosed before' hagrees
  have hsize : region.size ≤ before.store.scopes.size := hclosed.size
  refine ⟨hagrees.size_eq, .inr ⟨hsize, ?_⟩, hclosed.extend hparent hvars, hagrees.extend parent vars, .extend hsize⟩
  exact Store.size_extend.symm ▸ Nat.lt_succ_self _

theorem confines_readVariable (hscope : region.Has before.store scope) {pos : Option Position} :
    region.Confines (Eval.readVariable scope name pos) before fun value after =>
      value.Captures (region.Has after.store) := by
  intro hclosed before' hagrees
  obtain ⟨hlookup, hhas⟩ := hagrees.lookup_eq hclosed hscope name
  unfold Eval.readVariable Store.read
  rw [← hlookup]
  cases howner : before.store.lookup scope name with
  | none => exact ⟨rfl, .here hclosed hagrees⟩
  | some owner =>
      have hin := hhas owner howner
      simp only [Option.bind_some, ← hagrees.vars_eq hin]
      cases hvalue : (before.store.vars owner).get? name with
      | none => exact ⟨rfl, .here hclosed hagrees⟩
      | some value => exact ⟨rfl, hclosed.value hin hvalue, .here hclosed hagrees⟩

theorem confines_define (hscope : region.Has before.store scope) (hvalue : value.Captures (region.Has before.store)) :
    region.Confines (modify fun ⟨store, serial, output⟩ => ⟨store.define scope name value, serial, output⟩) before
      fun _ _ => True :=
  fun hclosed _ hagrees => ⟨rfl, trivial, hclosed.define hvalue, hagrees.define scope name value, .define hscope⟩

theorem confines_assignVariable (hscope : region.Has before.store scope)
    (hvalue : value.Captures (region.Has before.store)) {pos : Option Position} :
    region.Confines (Eval.assignVariable scope name value pos) before fun value after =>
      value.Captures (region.Has after.store) := by
  intro hclosed before' hagrees
  obtain ⟨howner?, hhas⟩ := hagrees.ownerFor?_eq hclosed hscope name
  unfold Eval.assignVariable
  simp only [← howner?]
  cases howner : before.store.ownerFor? scope name with
  | none => exact ⟨rfl, .here hclosed hagrees⟩
  | some owner =>
      have hspares : region.Spares before.store (before.store.define owner name value) := .define (hhas owner howner)
      exact ⟨rfl, hspares.captures hvalue, hclosed.define hvalue, hagrees.define owner name value, hspares⟩

theorem confines_newClosure (hscope : region.Has before.store scope) {own : Option String} {params : List String}
    {body : Expr} :
    region.Confines (Eval.newClosure own params body scope) before fun value after =>
      value.Captures (region.Has after.store) := by
  intro hclosed before' hagrees
  have hserial := hagrees.serial_eq
  refine ⟨by rw [hserial], hscope, hclosed, ⟨hagrees.size_eq, hagrees.scope_eq, ?_, hagrees.output_eq⟩, .refl⟩
  exact congrArg (· + 1) hserial

theorem confines_makeFunction (hscope : region.Has before.store scope) (own : Option String) {params : List String}
    {body : Expr} :
    region.Confines (Eval.makeFunction own params body scope) before fun value after =>
      value.Captures (region.Has after.store) := by
  cases own with
  | none => exact confines_newClosure hscope
  | some own =>
      refine .bind (confines_extend hscope (List.forall_mem_nil _)) fun inner after hinner _ => ?_
      refine .bind (confines_newClosure hinner) fun value last hvalue hspares => ?_
      exact .bind (confines_define (hspares.has hinner) hvalue) fun _ _ _ hmore => .pure (hmore.captures hvalue)

theorem confines_callBuiltin {b : Builtin} {args : List Value}
    (hargs : ∀ arg ∈ args, arg.Captures (region.Has before.store)) :
    region.Confines (Eval.callBuiltin b args) before fun value after => value.Captures (region.Has after.store) := by
  have hvalue : (args.head?.getD Value.false).Captures (region.Has before.store) := by
    cases args with
    | nil => trivial
    | cons arg args => exact hargs arg List.mem_cons_self
  intro hclosed before' hagrees
  refine ⟨rfl, hvalue, hclosed, ⟨hagrees.size_eq, hagrees.scope_eq, hagrees.serial_eq, ?_⟩, .refl⟩
  exact congrArg (· ++ _) hagrees.output_eq

theorem confines_enter {c : Closure} {args : List Value} (hscope : region.Has before.store c.scope)
    (hargs : ∀ arg ∈ args, arg.Captures (region.Has before.store)) :
    region.Confines (Eval.enter c args) before fun scope after => region.Has after.store scope := by
  apply confines_extend hscope
  intro entry hentry
  rcases Vars.mem_of_mem_bind hentry with hnone | harg | hfalse
  · cases hnone
  · exact hargs entry.2 harg
  · exact hfalse ▸ trivial

theorem confines_applyOperator {op : Operator} {left right : Value} {pos : Option Position}
    (hleft : left.Captures (region.Has before.store)) (hright : right.Captures (region.Has before.store)) :
    region.Confines (Eval.applyOperator op left right pos) before fun value after =>
      value.Captures (region.Has after.store) := by
  have houtcome := Operator.isOutcome_apply op left right
  unfold Eval.applyOperator
  cases happly : op.apply left right with
  | error cause => exact .throw
  | ok value =>
      rw [happly] at houtcome
      exact .pure (houtcome.value hleft hright fun _ => Value.captures_of_plain)

theorem confines_failWithSource {depth : Nat} {e : Expr} {cause : String → Cause} {pos : Option Position}
    {Q : Value → World → Prop} :
    region.Confines (do Eval.fail (cause (← Eval.sourceFor depth e)) pos) before Q := by
  refine .bind (Q := fun _ _ => True) ?_ fun text after _ _ => .throw
  unfold Eval.sourceFor
  cases e.source? depth with
  | none => exact .throw
  | some text => exact .pure trivial

/-! ### Evaluation -/

section

variable {eval : Expr → ScopeId → Eval Value}
  (heval : ∀ e scope before, region.Has before.store scope →
    region.Confines (eval e scope) before fun value after => value.Captures (region.Has after.store))

include heval

/-- The scopes of a let, given that its initial values stay in the region. -/
theorem confines_bindings (bindings : List Binding) (hscope : region.Has before.store scope) :
    region.Confines (bindings.foldlM (fun outer b => do
      let value ← match b with
        | .bare _ => pure Value.false
        | .bound _ init => eval init outer
      Eval.extend outer [(b.name, value)]) scope) before fun inner after => region.Has after.store inner := by
  refine .foldlM hscope fun outer binding _ world houter => ?_
  have hextend (value : Value) (after : World) (hvalue : value.Captures (region.Has after.store))
      (hspares : region.Spares world.store after.store) :
      region.Confines (Eval.extend outer [(binding.name, value)]) after fun inner last =>
        region.Has last.store inner := by
    apply confines_extend (hspares.has houter)
    intro entry hentry
    exact List.mem_singleton.mp hentry ▸ hvalue
  cases binding with
  | bare name =>
      exact .bind (.pure (Q := fun value after => value.Captures (region.Has after.store)) trivial) hextend
  | bound name init => exact .bind (heval init outer world houter) hextend

theorem confines_args (args : List Expr) (hscope : region.Has before.store scope) :
    region.Confines (args.mapM fun a => eval a scope) before fun values after =>
      ∀ value ∈ values, value.Captures (region.Has after.store) := by
  induction args generalizing before with
  | nil =>
      rw [List.mapM_nil]
      exact .pure (List.forall_mem_nil _)
  | cons arg args ih =>
      rw [List.mapM_cons]
      refine .bind (heval arg scope before hscope) fun value after hvalue hspares => ?_
      refine .bind (ih (hspares.has hscope)) fun values last hvalues hmore => .pure fun other hother => ?_
      rcases List.mem_cons.mp hother with rfl | hrest
      · exact hmore.captures hvalue
      · exact hvalues other hrest

theorem confines_block (body : List Expr) (hscope : region.Has before.store scope) :
    region.Confines (body.foldlM (fun _ e => eval e scope) Value.false) before fun value after =>
      value.Captures (region.Has after.store) := by
  have hloop : region.Confines (body.foldlM (fun _ e => eval e scope) Value.false) before fun value after =>
      region.Has after.store scope ∧ value.Captures (region.Has after.store) := by
    refine .foldlM ⟨hscope, trivial⟩ fun _ e _ world hworld => ?_
    exact (heval e scope world hworld.1).mono fun value after hspares hvalue => ⟨hspares.has hworld.1, hvalue⟩
  exact hloop.mono fun _ _ _ h => h.2

end

/-- **Evaluation stays in the region of its scope.** -/
theorem confines_evaluate (depth : Nat) (e : Expr) (scope : ScopeId) (before : World)
    (hscope : region.Has before.store scope) :
    region.Confines (evaluate depth e scope) before fun value after => value.Captures (region.Has after.store) := by
  induction depth using Nat.strongRecOn generalizing e scope before with
  | ind depth ih =>
      match depth, ih with
      | 0, _ | 1, _ | 2, _ => exact .throw
      | depth + 3, ih =>
          have hpart (k : Nat) (hk : k < 3) := ih (depth + k) (Nat.add_lt_add_left hk depth)
          have hone := hpart 1 (by decide)
          have hzero := hpart 0 (by decide)
          cases e with
          | number value pos => exact .pure trivial
          | string value pos => exact .pure trivial
          | boolean value pos => exact .pure trivial
          | «variable» name pos => exact confines_readVariable hscope
          | lambda name params body pos => exact confines_makeFunction hscope name
          | assign target value pos =>
              cases target with
              | «variable» name _ =>
                  refine .bind (hone value scope before hscope) fun v after hv hspares => ?_
                  exact confines_assignVariable (hspares.has hscope) hv
              | _ => exact confines_failWithSource
          | binary op left right pos =>
              have htwo := hpart 2 (by decide)
              refine .bind (htwo left scope before hscope) fun l after hl hspares => ?_
              refine .bind (htwo right scope after (hspares.has hscope)) fun r last hr hmore => ?_
              exact confines_applyOperator (hmore.captures hl) hr
          | ifThen test consequent pos =>
              refine .bind (hone test scope before hscope) fun t after _ hspares => ?_
              split
              · exact hone consequent scope after (hspares.has hscope)
              · exact .pure trivial
          | ifThenElse test consequent alternative pos =>
              refine .bind (hone test scope before hscope) fun t after _ hspares => ?_
              split
              · exact hone consequent scope after (hspares.has hscope)
              · exact hone alternative scope after (hspares.has hscope)
          | letIn bindings body pos =>
              refine .bind (confines_bindings hone bindings hscope) fun inner after hinner _ => ?_
              exact hone body inner after hinner
          | block body pos => exact confines_block hone body hscope
          | call callee args pos =>
              refine .bind (hone callee scope before hscope) fun f after hf hspares => ?_
              have hvalues := confines_args hzero args (hspares.has hscope)
              cases f with
              | closure c =>
                  refine .bind hvalues fun values middle hargs hmore => ?_
                  refine .bind (confines_enter (hmore.has hf) hargs) fun inner last hinner _ => ?_
                  exact hzero c.body inner last hinner
              | builtin b => exact .bind hvalues fun values last hargs _ => confines_callBuiltin hargs
              | _ => exact confines_failWithSource

/-! ### The region of a scope -/

theorem Agrees.closed (h : region.Agrees before before') (hclosed : region.IsClosed before.store) :
    region.IsClosed before'.store := by
  constructor
  · exact h.size_eq ▸ hclosed.size
  · intro scope parent hscope hparent
    have hin := h.has_iff.mpr hscope
    exact h.has_iff.mp (hclosed.parent hin ((h.parent?_eq hin).trans hparent))
  · intro scope name value hscope hvalue
    have hin := h.has_iff.mpr hscope
    rw [← h.vars_eq hin] at hvalue
    exact (hclosed.value hin hvalue).mono fun other => h.has_iff.mp

/-- Worlds that differ in one scope that is not in the region agree. -/
theorem agrees_define (hold : scope < region.size) (hout : ¬ region.reached scope) :
    region.Agrees before { before with store := before.store.define scope name value } := by
  refine ⟨Store.size_define.symm, fun {other} hother => ?_, rfl, rfl⟩
  have hne : scope ≠ other := by
    rintro rfl
    exact hother.elim hout fun hnew => Nat.not_lt.mpr hnew.1 hold
  simp [Store.define, Array.getElem?_modify, hne]

theorem Confines.spares {α : Type} {m : Eval α} {Q : α → World → Prop} (h : region.Confines m before Q)
    (hclosed : region.IsClosed before.store) : region.Spares before.store (leftBy (m before)).store := by
  have hself := h hclosed before .refl
  cases hrun : m before <;> rw [hrun] at hself
  · exact hself.2.2.spares
  · exact hself.2.spares

theorem Confines.sameOutcome {m : Eval Value} {Q : Value → World → Prop} (h : region.Confines m before Q)
    (hclosed : region.IsClosed before.store) (hagrees : region.Agrees before before') :
    region.SameOutcome (m before) (m before') := by
  have hboth := h hclosed before' hagrees
  cases hrun : m before <;> cases hrun' : m before' <;> rw [hrun, hrun'] at hboth
  · exact ⟨hboth.1, hboth.2.2.agrees⟩
  · exact hboth.elim
  · exact hboth.elim
  · exact ⟨hboth.1, hboth.2.agrees⟩

theorem Confines.result {α : Type} {m : Eval α} {Q : α → World → Prop} (h : region.Confines m before Q)
    (hclosed : region.IsClosed before.store) {a : α} (hrun : m before = .ok a after) : Q a after := by
  have hself := h hclosed before .refl
  rw [hrun] at hself
  exact hself.2.1

end Region

/-- At first the region of a scope is just what the scope reaches. -/
theorem Store.region_has_iff {store : Store} {start scope : ScopeId} :
    (store.region start).Has store scope ↔ store.Reaches start scope :=
  ⟨fun h => h.resolve_right fun hnew => Nat.not_lt.mpr hnew.1 hnew.2, .inl⟩

theorem Store.region_isClosed (store : Store) (start : ScopeId) : (store.region start).IsClosed store := by
  constructor
  · exact Nat.le_refl _
  · intro scope parent hscope hparent
    exact .inl (.parent (region_has_iff.mp hscope) hparent)
  · intro scope name value hscope hvalue
    cases value with
    | closure c => exact .inl (.captured (region_has_iff.mp hscope) hvalue)
    | _ => trivial

/-- **Evaluation reaches no further than its scope.** In whatever world an expression is evaluated, and whether it
comes to a value or stops: the scopes out of its reach are left as they are; in any world that differs in these
alone the value, what is printed and the cause of a stop are the same, and so are all scopes in reach and all new
ones afterwards; and a closure that is given back was made in a scope in reach or in a new one. So a variable in a
scope out of reach, which only closures out of reach can have captured, is neither read nor changed. -/
theorem evaluate_isConfined (depth : Nat) (e : Expr) (scope : ScopeId) (before : World) :
    let region := before.store.region scope
    region.Spares before.store (leftBy (evaluate depth e scope before)).store ∧
      (∀ before', region.Agrees before before' →
        region.SameOutcome (evaluate depth e scope before) (evaluate depth e scope before')) ∧
      (∀ c after, evaluate depth e scope before = .ok (.closure c) after → region.Has after.store c.scope) ∧
      ∀ other < before.store.scopes.size, ¬ before.store.Reaches scope other → ∀ name value,
        let before' := { before with store := before.store.define other name value }
        region.SameOutcome (evaluate depth e scope before) (evaluate depth e scope before') ∧
          (leftBy (evaluate depth e scope before')).store.vars other = (before.store.vars other).set name value := by
  intro region
  have hclosed : region.IsClosed before.store := before.store.region_isClosed scope
  have hconfines (world : World) := region.confines_evaluate depth e scope world (.inl .start)
  refine ⟨(hconfines before).spares hclosed, fun before' => (hconfines before).sameOutcome hclosed,
    fun c after => (hconfines before).result hclosed, ?_⟩
  intro other hold hout name value before'
  have hagrees : region.Agrees before before' := Region.agrees_define hold hout
  refine ⟨(hconfines before).sameOutcome hclosed hagrees, ?_⟩
  have hspares := (hconfines before').spares (hagrees.closed hclosed)
  calc (leftBy (evaluate depth e scope before')).store.vars other
    _ = before'.store.vars other := by
        unfold Store.vars
        rw [hspares.scope_eq other hold hout]
    _ = (before.store.vars other).set name value := Store.vars_define_self hold

/-- A variable in a scope that no closure in reach was made in: it is not found, whatever it holds. -/
theorem evaluate_isConfined_hidden :
    let store : Store := ⟨#[⟨[("x", .boolean true)], none⟩, ⟨[("n", .boolean true)], some Store.root⟩]⟩
    let before : World := ⟨store, 0, ""⟩
    let e : Expr := .assign (.variable "x" none) (.variable "n" none) none
    ¬ store.Reaches Store.root 1 ∧
      let before' := { before with store := store.define 1 "n" (.string "new") }
      (store.region Store.root).SameOutcome (evaluate 6 e Store.root before) (evaluate 6 e Store.root before') ∧
        (leftBy (evaluate 6 e Store.root before')).store.vars 1 = (store.vars 1).set "n" (.string "new") := by
  intro store before e
  have hreach : ∀ scope, store.Reaches Store.root scope → scope = 0 := by
    intro scope h
    induction h with
    | start => rfl
    | parent _ hparent ih =>
        subst ih
        cases hparent
    | captured _ hbound ih =>
        subst ih
        rcases List.mem_singleton.mp (Vars.mem_of_get? hbound) with ⟨⟩
  have hout : ¬ store.Reaches Store.root 1 := fun h => absurd (hreach 1 h) (by decide)
  obtain ⟨-, -, -, hhidden⟩ := evaluate_isConfined 6 e Store.root before
  exact ⟨hout, hhidden 1 (by decide) hout "n" (.string "new")⟩

end LambdaScript
