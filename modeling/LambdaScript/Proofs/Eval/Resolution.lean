import LambdaScript.Proofs.Eval.Account
import LambdaScript.Proofs.Expr.Parse

/-!
Names are resolved as the syntax says. However a node comes to be evaluated, by way of closures that were
stored and passed around and in whatever program they were made, the scopes from the one it is evaluated in up
to the root are the binders around it in its own program, and no others. So a name means what the innermost of
them binds, or else what the root holds.
-/

namespace LambdaScript

/-! ### Parts of a node -/

namespace Accounts

variable {eval : Expr → Occurrence → ScopeId → Traced Value}
  (heval : ∀ e o scope frames before, before.IsSound → (before.now e o scope).IsIn before.programs frames →
    Accounts (eval e o scope) before fun value after => after.Knows value)
  {before : Trace} {o : Occurrence} {scope : ScopeId} {frames : Frames} {k : Nat}

include heval

/-- Behind the bindings of a let the chain has one frame more for each. -/
theorem bindings {bs : List Binding} (h : before.IsSound) (hchain : before.world.store.Matches scope frames)
    (hparts : o.HasInits before.programs k frames bs) :
    Accounts (Traced.bindings eval o bs k scope) before fun inner after =>
      after.world.store.Matches inner (bindingFrames bs frames) := by
  induction bs generalizing k scope frames before with
  | nil => exact .pure h hchain
  | cons b bs ih =>
      have hrest (value : Value) (after : Trace) (hsound : after.IsSound) (hextends : after.Extends before)
          (hknows : after.Knows value) : Accounts (do
            let inner ← Traced.lift (Eval.extend scope [(b.name, value)])
            Traced.bindings eval o bs (k + 1) inner) after fun inner last =>
              last.world.store.Matches inner (bindingFrames (b :: bs) frames) := by
        have hinner : Accounts (Traced.lift (Eval.extend scope [(b.name, value)])) after fun inner last =>
            last.world.store.Matches inner ([b.name] :: frames) :=
          .extend hsound (hchain.mono hextends.store) (fun name => Iff.rfl)
            fun entry hentry => List.mem_singleton.mp hentry ▸ hknows
        refine .bind hinner fun inner last hlast hmore hmatches => ih hlast hmatches ?_
        exact hparts.tail.mono (hmore.trans hextends).programs
      cases b with
      | bare name => exact .bind (.pure (Q := fun value after => after.Knows value) h trivial) hrest
      | bound name init =>
          exact .bind (heval init (o.part k) scope frames before h ⟨hparts 0 name init rfl, hchain⟩) hrest

theorem block {body : List Expr} {value : Value} (h : before.IsSound)
    (hchain : before.world.store.Matches scope frames) (hvalue : before.Knows value)
    (hparts : o.HasParts before.programs k frames body) :
    Accounts (Traced.block eval o scope body k value) before fun value after => after.Knows value := by
  induction body generalizing k value before with
  | nil => exact .pure h hvalue
  | cons e body ih =>
      have hfirst := heval e (o.part k) scope frames before h ⟨hparts 0 e rfl, hchain⟩
      refine .bind hfirst fun value after hsound hextends hknows => ?_
      exact ih hsound (hchain.mono hextends.store) hknows (hparts.tail.mono hextends.programs)

theorem args {as : List Expr} (h : before.IsSound) (hchain : before.world.store.Matches scope frames)
    (hparts : o.HasParts before.programs k frames as) :
    Accounts (Traced.args eval o scope as k) before fun values after => ∀ value ∈ values, after.Knows value := by
  induction as generalizing k before with
  | nil => exact .pure h (List.forall_mem_nil _)
  | cons e as ih =>
      have hfirst := heval e (o.part k) scope frames before h ⟨hparts 0 e rfl, hchain⟩
      refine .bind hfirst fun value after hsound hextends hknows => ?_
      have hrest := ih hsound (hchain.mono hextends.store) (hparts.tail.mono hextends.programs)
      refine .bind hrest fun values last hlast hmore hvalues => .pure hlast fun other hother => ?_
      rcases List.mem_cons.mp hother with rfl | hmem
      · exact hmore.knows hknows
      · exact hvalues other hmem

end Accounts

/-! ### Evaluation -/

theorem Moment.IsIn.part {trace : Trace} {node part : Expr} {o : Occurrence} {scope inner : ScopeId}
    {frames more : Frames} (h : (trace.now node o scope).IsIn trace.programs frames) {k : Nat}
    (hpart : Site.part? ⟨node, frames⟩ k = some ⟨part, more⟩)
    (hchain : trace.world.store.Matches inner more) :
    (trace.now part (o.part k) inner).IsIn trace.programs more :=
  ⟨(h.site?_part k).trans hpart, hchain⟩

/-- **Evaluation accounts for every node that it evaluates.** -/
theorem accounts_trace (depth : Nat) (e : Expr) (o : Occurrence) (scope : ScopeId) (frames : Frames)
    (before : Trace) (h : before.IsSound) (hin : (before.now e o scope).IsIn before.programs frames) :
    Accounts (trace depth e o scope) before fun value after => after.Knows value := by
  induction depth using Nat.strongRecOn generalizing e o scope frames before with
  | ind depth ih =>
      match depth, ih with
      | 0, _ | 1, _ | 2, _ => exact .tooDeep h
      | depth + 3, ih =>
          have hpart (k : Nat) (hk : k < 3) := ih (depth + k) (Nat.add_lt_add_left hk depth)
          have hone := hpart 1 (by decide)
          have hzero := hpart 0 (by decide)
          refine .bind (.note h hin) fun _ before h hextends hhead => ?_
          replace hin := hextends.now hin
          cases e with
          | number value pos => exact .pure h trivial
          | string value pos => exact .pure h trivial
          | boolean value pos => exact .pure h trivial
          | «variable» name pos => exact .readVariable h hin hhead
          | lambda name params body pos => exact .makeFunction h hin
          | assign target value pos =>
              cases target with
              | «variable» name place =>
                  have hvalue := hone value (o.part 1) scope frames before h (hin.part rfl hin.chain)
                  refine .bind hvalue fun v after hsound hextends hknows => ?_
                  refine .bind (.note hsound (hextends.now hin)) fun _ last hlast hmore hhead => ?_
                  exact .assignVariable hlast (hmore.now (hextends.now hin)) hhead (hmore.knows hknows)
              | _ =>
                  refine .bind (.sourceFor h) fun text after hafter _ _ => .fail hafter fun _ hcause => ?_
                  cases hcause
          | binary op left right pos =>
              have htwo := hpart 2 (by decide)
              refine .bind (htwo left (o.part 0) scope frames before h (hin.part rfl hin.chain)) ?_
              intro l middle hmiddle hextends hl
              have hright := (hextends.now hin).part (k := 1) rfl (hin.chain.mono hextends.store)
              refine .bind (htwo right (o.part 1) scope frames middle hmiddle hright) ?_
              exact fun r after hafter hmore hr => .applyOperator hafter (hmore.knows hl) hr
          | ifThen test consequent pos =>
              refine .bind (hone test (o.part 0) scope frames before h (hin.part rfl hin.chain)) ?_
              intro t after hafter hextends _
              have hconsequent := (hextends.now hin).part (k := 1) rfl (hin.chain.mono hextends.store)
              split
              · exact hone consequent (o.part 1) scope frames after hafter hconsequent
              · exact .pure hafter trivial
          | ifThenElse test consequent alternative pos =>
              refine .bind (hone test (o.part 0) scope frames before h (hin.part rfl hin.chain)) ?_
              intro t after hafter hextends _
              have hconsequent := (hextends.now hin).part (k := 1) rfl (hin.chain.mono hextends.store)
              have halternative := (hextends.now hin).part (k := 2) rfl (hin.chain.mono hextends.store)
              split
              · exact hone consequent (o.part 1) scope frames after hafter hconsequent
              · exact hone alternative (o.part 2) scope frames after hafter halternative
          | letIn bindings body pos =>
              refine .bind (.bindings hone h hin.chain fun i name init hi => ?_) ?_
              · rw [Nat.zero_add]
                exact (hin.site?_part i).trans (Site.part?_init hi)
              · intro inner after hafter hextends hchain
                exact hone body (o.part bindings.length) inner _ after hafter
                  ((hextends.now hin).part (Site.part?_letBody) hchain)
          | block body pos =>
              refine .block hone h hin.chain trivial fun i e hi => ?_
              rw [Nat.zero_add]
              exact (hin.site?_part i).trans (congrArg (Option.map (Site.mk · frames)) hi)
          | call callee args pos =>
              refine .bind (hone callee (o.part 0) scope frames before h (hin.part rfl hin.chain)) ?_
              intro f middle hmiddle hextends hf
              have hparts : o.HasParts middle.programs 1 frames args := by
                intro i e hi
                rw [Nat.add_comm 1 i]
                exact ((hextends.now hin).site?_part (i + 1)).trans (congrArg (Option.map (Site.mk · frames)) hi)
              have hargs : Accounts (Traced.args (trace depth) o scope args 1) middle fun values after =>
                  ∀ value ∈ values, after.Knows value :=
                .args hzero hmiddle (hin.chain.mono hextends.store) hparts
              cases f with
              | closure c =>
                  obtain ⟨origin, around, place, horigin, hsite, hchain⟩ := hf
                  refine .bind hargs fun values after hafter hmore hvalues => ?_
                  refine .bind (.enter hafter (hchain.mono hmore.store) hvalues) ?_
                  intro inner last hlast hlonger hinner
                  have hall := hlonger.trans hmore
                  have hfunction := Occurrence.site?_mono hall.programs hsite
                  refine .bind (.bodyOf hlast (hall.origin horigin) hfunction) ?_
                  intro body final hfinal hlongest hbody
                  exact hzero c.body body inner _ final hfinal ⟨hbody, hinner.mono hlongest.store⟩
              | builtin b => exact .bind hargs fun values after hafter _ hvalues => .callBuiltin hafter hvalues
              | _ =>
                  refine .bind (.sourceFor hmiddle) fun text after hafter _ _ => .fail hafter fun _ hcause => ?_
                  cases hcause

/-! ### Texts one after the other -/

theorem accounts_start (program : Expr) {before : Trace} (h : before.IsSound) :
    Accounts (Traced.start program) before fun o after =>
      (after.now program o Store.root).IsIn after.programs [] := by
  have hextends : Trace.Extends { before with programs := before.programs ++ [program] } before :=
    ⟨.refl _, List.prefix_append _ _, List.prefix_rfl⟩
  refine ⟨⟨h.size, h.root, h.serial, ?_, ?_, ?_⟩, hextends, ?_, .root h.root⟩
  · intro scope entry hentry
    exact hextends.knows (h.values scope entry hentry)
  · intro moment hmoment
    obtain ⟨frames, hin⟩ := h.moments moment hmoment
    exact ⟨frames, hextends.moment hin⟩
  · intro use huse
    obtain ⟨frames, hin, hfollows⟩ := h.uses use huse
    exact ⟨frames, hextends.moment hin, hfollows⟩
  · show (before.programs ++ [program])[before.programs.length]?.bind _ = _
    rw [List.getElem?_concat_length]
    rfl

theorem accounts_traceText (depth : Nat) (text : String) {before : Trace} (h : before.IsSound) :
    Accounts (traceText depth text) before fun value after => after.Knows value := by
  have hparse := parse_sound depth text
  unfold traceText
  cases htext : parse depth text with
  | ok program =>
      refine .bind (accounts_start program h) fun o after hafter _ hin => ?_
      exact accounts_trace depth program o Store.root [] after hafter hin
  | error stop =>
      rw [htext] at hparse
      refine ⟨h, fun name pos hstop => ?_⟩
      subst hstop
      cases hparse.1

theorem Trace.IsSound.run {before : Trace} (h : before.IsSound) (depth : Nat) (text : String) :
    (before.run depth text).IsSound := by
  have hafter := accounts_traceText depth text h
  unfold Accounts Leads at hafter
  unfold Trace.run
  cases hrun : traceText depth text before with
  | ok value after =>
      rw [hrun] at hafter
      exact hafter.1
  | error stop after =>
      rw [hrun] at hafter
      exact hafter.1

theorem Trace.IsSound.runAll {before : Trace} (h : before.IsSound) (texts : List (Nat × String)) :
    (before.runAll texts).IsSound := by
  unfold Trace.runAll
  induction texts generalizing before with
  | nil => exact h
  | cons text texts ih => exact ih (h.run text.1 text.2)

theorem Trace.isSound_initial : Trace.initial.IsSound := by
  refine ⟨Nat.one_pos, rfl, rfl, fun scope entry hentry => ?_, List.forall_mem_nil _, List.forall_mem_nil _⟩
  cases scope with
  | zero =>
      rcases List.mem_cons.mp hentry with rfl | hentry
      · trivial
      · obtain rfl := List.mem_singleton.mp hentry
        trivial
  | succ scope => cases hentry

/-- At every moment the chain of scopes is the frames around the node, and every name is found where the
frames say; and every use of a name that came off read or overwrote what the frames around its node say. -/
structure Trace.IsResolved (trace : Trace) : Prop where
  moments : ∀ moment ∈ trace.moments, ∃ frames, moment.IsIn trace.programs frames ∧
    ∀ name, moment.store.Resolves moment.scope frames name
  uses : ∀ use ∈ trace.uses, ∃ frames, use.moment.IsIn trace.programs frames ∧ use.Follows frames

theorem Trace.IsSound.isResolved {trace : Trace} (h : trace.IsSound) : trace.IsResolved := by
  refine ⟨fun moment hmoment => ?_, h.uses⟩
  obtain ⟨frames, hin⟩ := h.moments moment hmoment
  exact ⟨frames, hin, hin.chain.resolves⟩

/-- **Looking names up while programs run is resolving them in the syntax.** Some texts are run one after the
other, and then one more. Keeping account does not change what happens; every node that was evaluated, in any
of the programs, was evaluated behind a chain of scopes that has just the binders around it and then the
root; every variable that gave a value gave the one in the scope of the innermost binder of its name, or else
in the root, and every assignment that came off overwrote the binding there with its value, and nothing else;
and if the last text stops at an undefined name, no binder around the node binds it and the root does not
hold it. -/
theorem runText_resolves (earlier : List (Nat × String)) (depth : Nat) (text : String) :
    match traceText depth text (Trace.initial.runAll earlier) with
    | .ok value after =>
      runText depth text (World.initial.runAll earlier) = .ok value after.world ∧ after.IsResolved
    | .error stop after =>
      runText depth text (World.initial.runAll earlier) = .error stop after.world ∧ after.IsResolved ∧
        after.Explains stop := by
  have hsound := accounts_traceText depth text (Trace.isSound_initial.runAll earlier)
  have herases := erases_traceText depth text (Trace.initial.runAll earlier)
  rw [Trace.world_runAll] at herases
  unfold Accounts Leads at hsound
  cases hrun : traceText depth text (Trace.initial.runAll earlier) with
  | ok value after =>
      rw [hrun] at hsound herases
      exact ⟨herases, hsound.1.isResolved⟩
  | error stop after =>
      rw [hrun] at hsound herases
      exact ⟨herases, hsound.1.isResolved, hsound.2⟩

end LambdaScript
