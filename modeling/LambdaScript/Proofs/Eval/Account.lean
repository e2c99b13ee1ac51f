import LambdaScript.Proofs.Eval.Chain
import LambdaScript.Proofs.Eval.Safety
import LambdaScript.Proofs.Eval.Trace

/-!
What an account keeps to. A moment is in some frames if its node occurs in them and the chain of its scope
matches them. In a sound account every moment is in some frames, every use of a name follows the frames around
its node, and every closure in the store, whichever scope keeps it, has the parts of the function at its origin
and the chain of the frames there. Every operation
takes a sound account to a sound one that extends it, or stops with a reason that the account explains.
-/

namespace LambdaScript

/-- A moment whose node occurs in some frames, while the chain of its scope matches them. -/
structure Moment.IsIn (moment : Moment) (programs : List Expr) (frames : Frames) : Prop where
  occurs : moment.occurrence.site? programs = some ⟨moment.node, frames⟩
  chain : moment.store.Matches moment.scope frames

theorem Moment.IsIn.site?_part {moment : Moment} {programs : List Expr} {frames : Frames}
    (h : moment.IsIn programs frames) (k : Nat) :
    (moment.occurrence.part k).site? programs = Site.part? ⟨moment.node, frames⟩ k := by
  rw [Occurrence.site?_part, h.occurs]
  rfl

/-- What a use of a name has to be, by the frames around its node. A variable gives the value that the name
means and leaves the store as it is. An assignment overwrites what the name means with the value of its right
side, gives this value, and leaves all else as it is; there is a binding to be overwritten unless the node is
outside of all frames. -/
inductive Use.Follows (frames : Frames) : Use → Prop where
  | read {moment : Moment} {name : String} {pos : Option Position} {owner : ScopeId} {value : Value}
      (hnode : moment.node = .variable name pos)
      (holder : moment.store.holder? moment.scope frames name = some owner)
      (hvalue : (moment.store.vars owner).get? name = some value) :
      Follows frames ⟨moment, none, value, moment.store⟩
  | assigned {moment : Moment} {name : String} {place pos : Option Position} {right : Expr} {owner : ScopeId}
      {value : Value} {after : Store} (hnode : moment.node = .assign (.variable name place) right pos)
      (holder : moment.store.holder? moment.scope frames name = some owner)
      (hbound : name ∈ (moment.store.vars owner).names ∨ frames = [])
      (hafter : moment.store.Overwrites after owner name value) :
      Follows frames ⟨moment, some value, value, after⟩

/-- The name that a node reads or assigns to. -/
def Expr.usedName? : Expr → Option String
  | .variable name _ => some name
  | .assign (.variable name _) _ _ => some name
  | _ => none

namespace Trace

/-- A value that, if it is a closure, has the parts of the function at its origin; and the chain of its scope
matches the function's own frame and the frames around the function. -/
def Knows (trace : Trace) : Value → Prop
  | .closure c => ∃ o frames pos, trace.origins[c.serial]? = some o ∧
      o.site? trace.programs = some ⟨.lambda c.name c.params c.body pos, frames⟩ ∧
      trace.world.store.Matches c.scope (ownFrame c.name ++ frames)
  | _ => True

/-- The invariant: the root is a scope without a parent, there is an origin for every serial number, every
value in any scope is known, every moment is in the frames of its occurrence, and every use of a name follows
these frames. -/
structure IsSound (trace : Trace) : Prop where
  size : 0 < trace.world.store.scopes.size
  root : trace.world.store.parent? Store.root = none
  serial : trace.origins.length = trace.world.nextSerial
  values : ∀ scope, ∀ entry ∈ trace.world.store.vars scope, trace.Knows entry.2
  moments : ∀ moment ∈ trace.moments, ∃ frames, moment.IsIn trace.programs frames
  uses : ∀ use ∈ trace.uses, ∃ frames, use.moment.IsIn trace.programs frames ∧ use.Follows frames

/-- An account that goes on where another one ends. -/
structure Extends (after before : Trace) : Prop where
  store : before.world.store.Grows after.world.store
  programs : before.programs <+: after.programs
  origins : before.origins <+: after.origins

/-- An undefined name was used by the node of the latest moment, no frame around the node has the name, and
the root does not own it. -/
def Explains (trace : Trace) (stop : Stop) : Prop :=
  ∀ name pos, stop = .fault ⟨.undefinedVariable name, pos⟩ →
    ∃ moment frames, trace.moments.head? = some moment ∧ moment.IsIn trace.programs frames ∧
      moment.store = trace.world.store ∧ moment.node.usedName? = some name ∧ frames.binder? name = none ∧
      name ∉ (trace.world.store.vars Store.root).names

theorem explains_tooDeep (trace : Trace) : trace.Explains .tooDeep := by
  intro name pos hstop
  cases hstop

variable {before after : Trace} {node : Expr} {o : Occurrence} {scope : ScopeId} {frames : Frames}
  {value : Value}

theorem Extends.refl (trace : Trace) : trace.Extends trace :=
  ⟨.refl _, List.prefix_rfl, List.prefix_rfl⟩

theorem Extends.trans {first second third : Trace} (h : third.Extends second) (h' : second.Extends first) :
    third.Extends first :=
  ⟨h'.store.trans h.store, h'.programs.trans h.programs, h'.origins.trans h.origins⟩

theorem Extends.moment (h : after.Extends before) {moment : Moment}
    (hin : moment.IsIn before.programs frames) :
    moment.IsIn after.programs frames :=
  ⟨Occurrence.site?_mono h.programs hin.occurs, hin.chain⟩

/-- What is in some frames now is so as well when the account has gone on. -/
theorem Extends.now (h : after.Extends before) (hin : (before.now node o scope).IsIn before.programs frames) :
    (after.now node o scope).IsIn after.programs frames :=
  ⟨Occurrence.site?_mono h.programs hin.occurs, hin.chain.mono h.store⟩

theorem Extends.origin (h : after.Extends before) {k : Nat} (horigin : before.origins[k]? = some o) :
    after.origins[k]? = some o := by
  obtain ⟨more, hmore⟩ := h.origins
  obtain ⟨hlt, -⟩ := List.getElem?_eq_some_iff.mp horigin
  rw [← hmore, List.getElem?_append_left hlt]
  exact horigin

theorem Extends.knows (h : after.Extends before) (hknows : before.Knows value) : after.Knows value := by
  cases value with
  | closure c =>
      obtain ⟨o, frames, pos, horigin, hsite, hchain⟩ := hknows
      exact ⟨o, frames, pos, h.origin horigin, Occurrence.site?_mono h.programs hsite, hchain.mono h.store⟩
  | _ => trivial

theorem knows_plain (hplain : ∀ c, value ≠ .closure c) : before.Knows value := by
  cases value with
  | closure c => exact absurd rfl (hplain c)
  | _ => trivial

/-- A world that can come next, with no closures that the account does not know. -/
structure Admits (trace : Trace) (world : World) : Prop where
  grows : trace.world.store.Grows world.store
  serial : world.nextSerial = trace.world.nextSerial
  values : ∀ scope, ∀ entry ∈ world.store.vars scope, trace.Knows entry.2

theorem IsSound.admits_self (h : before.IsSound) : before.Admits before.world := ⟨.refl _, rfl, h.values⟩

theorem Admits.extends {world : World} (h : before.Admits world) :
    Trace.Extends { before with world := world } before :=
  ⟨h.grows, List.prefix_rfl, List.prefix_rfl⟩

theorem IsSound.admits {world : World} (h : before.IsSound) (hadmits : before.Admits world) :
    Trace.IsSound { before with world := world } where
  size := Nat.lt_of_lt_of_le h.size hadmits.grows.size
  root := hadmits.grows.root.trans h.root
  serial := h.serial.trans hadmits.serial.symm
  values scope entry hentry := hadmits.extends.knows (hadmits.values scope entry hentry)
  moments := h.moments
  uses := h.uses

end Trace

/-! ### Computations that account for what they do -/

/-- From an account, a computation leads to a sound account that extends it and to a result that satisfies
`Q`, or it stops with a sound account that explains why. -/
def Accounts {α : Type} (m : Traced α) (before : Trace) (Q : α → Trace → Prop) : Prop :=
  Leads (fun stop after => after.IsSound ∧ after.Explains stop) m before
    fun a after => after.IsSound ∧ after.Extends before ∧ Q a after

namespace Accounts

variable {α β : Type} {before : Trace} {Q : α → Trace → Prop} {R : β → Trace → Prop}

theorem bind {m : Traced α} {f : α → Traced β} (hm : Accounts m before Q)
    (hf : ∀ a after, after.IsSound → after.Extends before → Q a after → Accounts (f a) after R) :
    Accounts (m >>= f) before R := by
  refine Leads.bind (hm.mono fun a middle hmiddle => ?_)
  obtain ⟨hsound, hextends, hQ⟩ := hmiddle
  refine (hf a middle hsound hextends hQ).mono fun b after hafter => ?_
  exact ⟨hafter.1, hafter.2.1.trans hextends, hafter.2.2⟩

theorem pure {a : α} (h : before.IsSound) (hQ : Q a before) : Accounts (Pure.pure a) before Q :=
  ⟨h, .refl before, hQ⟩

theorem tooDeep (h : before.IsSound) : Accounts (throw .tooDeep : Traced α) before Q :=
  ⟨h, before.explains_tooDeep⟩

/-- What needs no account, and leads to an admitted world or stops where it began. -/
theorem lift {m : Eval α} (h : before.IsSound)
    (hm : Leads (fun stop world => world = before.world ∧ before.Explains stop) m before.world
      fun a world => before.Admits world ∧ Q a { before with world := world }) :
    Accounts (Traced.lift m) before Q := by
  unfold Leads at hm
  unfold Accounts Leads Traced.lift
  cases hrun : m before.world with
  | ok a world =>
      rw [hrun] at hm
      exact ⟨h.admits hm.1, hm.1.extends, hm.2⟩
  | error stop world =>
      rw [hrun] at hm
      obtain ⟨rfl, hexplains⟩ := hm
      exact ⟨h, hexplains⟩

theorem fail {cause : Cause} {pos : Option Position} (h : before.IsSound)
    (hcause : ∀ name, cause ≠ .undefinedVariable name) :
    Accounts (Traced.lift (Eval.fail cause pos)) before Q := by
  refine .lift h ⟨rfl, fun name _ hstop => ?_⟩
  cases hstop
  exact absurd rfl (hcause name)

theorem sourceFor {depth : Nat} {e : Expr} (h : before.IsSound) :
    Accounts (Traced.lift (Eval.sourceFor depth e)) before fun _ _ => True := by
  refine .lift h ?_
  unfold Eval.sourceFor
  cases e.source? depth with
  | none => exact ⟨rfl, before.explains_tooDeep⟩
  | some text => exact ⟨h.admits_self, trivial⟩

end Accounts

/-! ### Operations -/

namespace Accounts

variable {before : Trace} {node : Expr} {o : Occurrence} {scope : ScopeId} {frames : Frames} {name : String}
  {value : Value}

theorem note (h : before.IsSound) (hin : (before.now node o scope).IsIn before.programs frames) :
    Accounts (Traced.note node o scope) before fun _ after =>
      after.moments.head? = some (after.now node o scope) := by
  have hextends : Trace.Extends { before with moments := before.now node o scope :: before.moments } before :=
    ⟨.refl _, List.prefix_rfl, List.prefix_rfl⟩
  refine ⟨⟨h.size, h.root, h.serial, h.values, fun moment hmoment => ?_, h.uses⟩, hextends, rfl⟩
  rcases List.mem_cons.mp hmoment with rfl | hold
  · exact ⟨frames, hin⟩
  · exact h.moments moment hold

/-- A scope opened behind a chain is a chain with one frame more. -/
theorem extend {vars : Vars} {frame : List String} (h : before.IsSound)
    (hchain : before.world.store.Matches scope frames) (hnames : ∀ name, name ∈ vars.names ↔ name ∈ frame)
    (hvars : ∀ entry ∈ vars, before.Knows entry.2) :
    Accounts (Traced.lift (Eval.extend scope vars)) before fun inner after =>
      after.world.store.Matches inner (frame :: frames) := by
  refine .lift h ⟨⟨Store.grows_extend h.size, rfl, fun other entry hentry => ?_⟩, ?_⟩
  · rcases Store.mem_vars_extend hentry with hnew | hold
    · exact hvars entry hnew
    · exact h.values other entry hold
  · exact hchain.extend hnames (hchain.lt_size h.size)

theorem explains {pos : Option Position} (hin : (before.now node o scope).IsIn before.programs frames)
    (hhead : before.moments.head? = some (before.now node o scope)) (hnode : node.usedName? = some name)
    (hbinder : frames.binder? name = none) (hroot : name ∉ (before.world.store.vars Store.root).names) :
    before.Explains (.at (.undefinedVariable name) pos) := by
  intro other place hstop
  cases hstop
  exact ⟨_, frames, hhead, hin, rfl, hnode, hbinder, hroot⟩

/-- What is done with a name is done as the frames around the node say, or it stops where it began. -/
theorem use {m : Eval Value} {assigned : Option Value} (h : before.IsSound)
    (hin : (before.now node o scope).IsIn before.programs frames)
    (hm : Leads (fun stop world => world = before.world ∧ before.Explains stop) m before.world
      fun value world => (before.Admits world ∧ before.Knows value) ∧
        Use.Follows frames ⟨before.now node o scope, assigned, value, world.store⟩) :
    Accounts (Traced.use node o scope assigned m) before fun value after => after.Knows value := by
  unfold Leads at hm
  unfold Accounts Leads Traced.use
  cases hrun : m before.world with
  | ok value world =>
      rw [hrun] at hm
      obtain ⟨⟨hadmits, hknows⟩, hfollows⟩ := hm
      have hsound := h.admits hadmits
      refine ⟨⟨hsound.size, hsound.root, hsound.serial, hsound.values, hsound.moments, fun use huse => ?_⟩,
        ⟨hadmits.grows, List.prefix_rfl, List.prefix_rfl⟩, hadmits.extends.knows hknows⟩
      rcases List.mem_cons.mp huse with rfl | hold
      · exact ⟨frames, hin, hfollows⟩
      · exact h.uses use hold
  | error stop world =>
      rw [hrun] at hm
      obtain ⟨rfl, hexplains⟩ := hm
      exact ⟨h, hexplains⟩

theorem readVariable {pos : Option Position} (h : before.IsSound)
    (hin : (before.now (.variable name pos) o scope).IsIn before.programs frames)
    (hhead : before.moments.head? = some (before.now (.variable name pos) o scope)) :
    Accounts (Traced.use (.variable name pos) o scope none (Eval.readVariable scope name pos)) before
      fun value after => after.Knows value := by
  refine .use h hin ?_
  unfold Leads Eval.readVariable
  cases hread : before.world.store.read scope name with
  | some value =>
      obtain ⟨owner, holder, hvalue⟩ := hin.chain.holder?_of_read hread
      have hknows := h.values owner (name, value) (Vars.mem_of_get? hvalue)
      exact ⟨⟨h.admits_self, hknows⟩, .read rfl holder hvalue⟩
  | none =>
      obtain ⟨hbinder, hroot⟩ := hin.chain.unbound_of_read hread
      exact ⟨rfl, explains hin hhead rfl hbinder hroot⟩

theorem assignVariable {right : Expr} {place pos : Option Position} (h : before.IsSound)
    (hin : (before.now (.assign (.variable name place) right pos) o scope).IsIn before.programs frames)
    (hhead : before.moments.head? = some (before.now (.assign (.variable name place) right pos) o scope))
    (hvalue : before.Knows value) :
    Accounts (Traced.use (.assign (.variable name place) right pos) o scope (some value)
      (Eval.assignVariable scope name value pos)) before fun value after => after.Knows value := by
  refine .use h hin ?_
  unfold Leads Eval.assignVariable
  cases howner : before.world.store.ownerFor? scope name with
  | some owner =>
      simp only [howner]
      have hadmits : before.Admits
          ⟨before.world.store.define owner name value, before.world.nextSerial, before.world.output⟩ := by
        refine ⟨Store.grows_define (hin.chain.owns_of_ownerFor? howner), rfl, fun other entry hentry => ?_⟩
        rcases Store.mem_vars_define hentry with hnew | hold
        · exact hnew ▸ hvalue
        · exact h.values other entry hold
      obtain ⟨holder, hbound⟩ := hin.chain.holder?_of_ownerFor? howner
      have hafter : before.world.store.Overwrites (before.world.store.define owner name value) owner name value :=
        Store.overwrites_define (hin.chain.lt_size_of_ownerFor? h.size howner)
      exact ⟨⟨hadmits, hvalue⟩, .assigned rfl holder hbound hafter⟩
  | none =>
      simp only [howner]
      obtain ⟨hbinder, hroot⟩ := hin.chain.unbound_of_ownerFor? howner
      exact ⟨trivial, explains hin hhead rfl hbinder hroot⟩

theorem applyOperator {op : Operator} {left right : Value} {pos : Option Position} (h : before.IsSound)
    (hleft : before.Knows left) (hright : before.Knows right) :
    Accounts (Traced.lift (Eval.applyOperator op left right pos)) before fun value after => after.Knows value := by
  have houtcome := Operator.isOutcome_apply op left right
  unfold Eval.applyOperator
  cases happly : op.apply left right with
  | ok value =>
      rw [happly] at houtcome
      exact .lift h ⟨h.admits_self, houtcome.value hleft hright fun _ => Trace.knows_plain⟩
  | error cause =>
      rw [happly] at houtcome
      refine .fail h fun name hundefined => ?_
      subst hundefined
      exact houtcome

theorem callBuiltin {b : Builtin} {args : List Value} (h : before.IsSound)
    (hargs : ∀ arg ∈ args, before.Knows arg) :
    Accounts (Traced.lift (Eval.callBuiltin b args)) before fun value after => after.Knows value := by
  have hvalue : before.Knows (args.head?.getD Value.false) := by
    cases args with
    | nil => trivial
    | cons arg args => exact hargs arg List.mem_cons_self
  exact .lift h ⟨⟨.refl _, rfl, h.values⟩, hvalue⟩

/-- The scope of a call is behind the chain of the closure, with the parameters as its frame. -/
theorem enter {c : Closure} {args : List Value} (h : before.IsSound)
    (hchain : before.world.store.Matches c.scope frames) (hargs : ∀ arg ∈ args, before.Knows arg) :
    Accounts (Traced.lift (Eval.enter c args)) before fun inner after =>
      after.world.store.Matches inner (c.params :: frames) := by
  refine .extend h hchain (fun name => ?_) fun entry hentry => ?_
  · rw [Vars.mem_names_bind]
    simp [Vars.names]
  · rcases Vars.mem_of_mem_bind hentry with hnone | harg | hfalse
    · cases hnone
    · exact hargs entry.2 harg
    · exact hfalse ▸ trivial

theorem bodyOf {c : Closure} {pos : Option Position} (h : before.IsSound)
    (horigin : before.origins[c.serial]? = some o)
    (hsite : o.site? before.programs = some ⟨.lambda c.name c.params c.body pos, frames⟩) :
    Accounts (Traced.bodyOf c) before fun body after =>
      body.site? after.programs = some ⟨c.body, c.params :: (ownFrame c.name ++ frames)⟩ := by
  refine ⟨h, .refl before, ?_⟩
  rw [horigin]
  show (o.part 0).site? before.programs = _
  rw [Occurrence.site?_part, hsite]
  rfl

/-- A closure that comes with its origin is known, wherever the store keeps it. -/
theorem newClosure {c : Closure} {store : Store} {pos : Option Position} (h : before.IsSound)
    (hserial : c.serial = before.world.nextSerial)
    (hsite : o.site? before.programs = some ⟨.lambda c.name c.params c.body pos, frames⟩)
    (hgrows : before.world.store.Grows store) (hchain : store.Matches c.scope (ownFrame c.name ++ frames))
    (hvalues : ∀ scope, ∀ entry ∈ store.vars scope, entry.2 = .closure c ∨ before.Knows entry.2) :
    let after : Trace := ⟨⟨store, before.world.nextSerial + 1, before.world.output⟩, before.programs,
      before.origins ++ [o], before.moments, before.uses⟩
    after.IsSound ∧ after.Extends before ∧ after.Knows (.closure c) := by
  intro after
  have hextends : after.Extends before := ⟨hgrows, List.prefix_rfl, List.prefix_append _ _⟩
  have hknows : after.Knows (.closure c) := by
    refine ⟨o, frames, pos, ?_, hsite, hchain⟩
    show (before.origins ++ [o])[c.serial]? = some o
    rw [hserial, ← h.serial]
    exact List.getElem?_concat_length
  refine ⟨⟨?_, hgrows.root.trans h.root, ?_, fun scope entry hentry => ?_, h.moments, h.uses⟩, hextends,
    hknows⟩
  · exact Nat.lt_of_lt_of_le h.size hgrows.size
  · show (before.origins ++ [o]).length = before.world.nextSerial + 1
    rw [List.length_append, h.serial]
    rfl
  · rcases hvalues scope entry hentry with hnew | hold
    · rw [hnew]
      exact hknows
    · exact hextends.knows hold

/-- A new closure has the function that is evaluated as its origin. Its own name, if it has one, is in a scope
between it and the surroundings of the function. -/
theorem makeFunction {own : Option String} {params : List String} {body : Expr} {pos : Option Position}
    (h : before.IsSound)
    (hin : (before.now (.lambda own params body pos) o scope).IsIn before.programs frames) :
    Accounts (do
      let value ← Traced.lift (Eval.makeFunction own params body scope)
      Traced.originate o
      return value) before fun value after => after.Knows value := by
  obtain ⟨⟨store, serial, output⟩, programs, origins, moments, uses⟩ := before
  cases own with
  | none =>
      exact newClosure (c := ⟨serial, none, params, body, scope⟩) h rfl hin.occurs (.refl store) hin.chain
        fun scope entry hentry => .inr (h.values scope entry hentry)
  | some own =>
      -- the scope of the own name is opened empty and given the closure at once
      let c : Closure := ⟨serial, some own, params, body, store.scopes.size⟩
      let inner : Store := (store.extend scope [(own, .closure c)]).1
      have hrun : Eval.makeFunction (some own) params body scope ⟨store, serial, output⟩ =
          .ok (.closure c) ⟨inner, serial + 1, output⟩ := by
        show EStateM.Result.ok (Value.closure c)
          (World.mk ((store.extend scope []).1.define store.scopes.size own (.closure c)) (serial + 1) output) = _
        rw [Store.define_extend]
        rfl
      have hgrows : store.Grows inner := Store.grows_extend h.size
      have hchain : inner.Matches store.scopes.size ([own] :: frames) :=
        hin.chain.extend (fun name => Iff.rfl) (hin.chain.lt_size h.size)
      have hvalues (other : ScopeId) (entry : String × Value) (hentry : entry ∈ inner.vars other) :
          entry.2 = .closure c ∨ Trace.Knows ⟨⟨store, serial, output⟩, programs, origins, moments, uses⟩ entry.2 := by
        rcases Store.mem_vars_extend hentry with hself | hold
        · rw [List.mem_singleton.mp hself]
          exact .inl rfl
        · exact .inr (h.values other entry hold)
      unfold Accounts Leads Traced.lift
      simp only [Bind.bind, EStateM.bind, hrun]
      exact newClosure h rfl hin.occurs hgrows hchain hvalues

end Accounts

end LambdaScript
