import LambdaScript.Proofs.Eval.RunText
import LambdaScript.Proofs.Eval.SideBySide
import LambdaScript.Proofs.Expr.Displaced

/-!
Layout does not matter. Two texts with the same tokens may differ in blanks, in comments and in the way their tokens
are written, and then all places in them differ. Reading them gives trees that differ in places alone, and running
these prints the same, leaves the same names with values that look the same, and ends in the same way.
-/

namespace LambdaScript

/-! ### What can be told apart -/

/-- Reports of one cause, whose messages are the same up to the place at their end. -/
def Fault.SameReport (fault fault' : Fault) : Prop :=
  fault.cause = fault'.cause ∧ ∃ (text : String) (pos pos' : Position),
    fault.message = text ++ " (" ++ pos.text ++ ")" ∧ fault'.message = text ++ " (" ++ pos'.text ++ ")"

/-- Functions of one name with the same parameters, and bodies that are the same up to places, or equal values. -/
def Value.Agrees : Value → Value → Prop
  | .closure c, .closure d => c.name = d.name ∧ c.params = d.params ∧ c.body.agrees d.body = true
  | value, other => value = other

/-- Two worlds show the same: what was printed, and the names in the root, in order, with their values. -/
def World.ShowsAs (world world' : World) : Prop :=
  world.output = world'.output ∧
    List.Forall₂ (fun entry other => entry.1 = other.1 ∧ entry.2.text = other.2.text ∧ entry.2.Agrees other.2)
      world.globals world'.globals

/-- Two texts are read in the same way: as trees that are the same up to places, or not, for the same reason. -/
def SameReading : Except Stop Expr → Except Stop Expr → Prop
  | .ok tree, .ok tree' => tree.agrees tree' = true
  | .error (.fault fault), .error (.fault fault') => fault.cause.family = .parsing ∧ fault.SameReport fault'
  | .error .tooDeep, .error .tooDeep => True
  | _, _ => False

/-- Two runs cannot be told apart: they end in the same way, and the worlds they leave show the same. -/
def SameRun : EStateM.Result Stop World Value → EStateM.Result Stop World Value → Prop
  | .ok value world, .ok value' world' => value.text = value'.text ∧ value.Agrees value' ∧ world.ShowsAs world'
  | .error (.fault fault) world, .error (.fault fault') world' => fault.SameReport fault' ∧ world.ShowsAs world'
  | .error .tooDeep world, .error .tooDeep world' => world.ShowsAs world'
  | _, _ => False

variable {ρ : Position → Position → Prop}

theorem Fault.SameReport.of_places {cause : Cause} {p q : Option Position} {pos pos' : Position} (hp : p = some pos)
    (hq : q = some pos') : Fault.SameReport ⟨cause, p⟩ ⟨cause, q⟩ := by
  subst hp hq
  exact ⟨rfl, _, pos, pos', rfl, rfl⟩

theorem Value.Like.agrees {value value' : Value} (h : value.Like ρ value') : value.Agrees value' := by
  cases h with
  | closure serial name params scope hbody => exact ⟨rfl, rfl, hbody.agrees⟩
  | _ => rfl

theorem World.Like.showsAs {world world' : World} (h : world.Like ρ world') : world.ShowsAs world' :=
  ⟨h.output_eq, (h.store.vars Store.root).imp fun _ _ hentry => ⟨hentry.1, hentry.2.text_eq, hentry.2.agrees⟩⟩

/-! ### Texts with the same tokens -/

/-- Every fault that a run from a fresh world ends with is at a place. -/
theorem exists_pos_of_runText {depth : Nat} {text : String} {fault : Fault} {world : World}
    (h : runText depth text World.initial = .error (.fault fault) world) : ∃ pos, fault.pos = some pos := by
  have hparse := parse_sound depth text
  unfold runText at h
  cases htext : parse depth text with
  | error stop =>
      rw [htext] at h hparse
      cases h
      obtain ⟨-, -, -, pos, hpos, -⟩ := hparse
      exact ⟨pos, hpos⟩
  | ok program =>
      rw [htext] at h hparse
      have hsafe := isSafe_evaluate depth program Store.root hparse.isPlaced World.initial World.isPlaced_initial
      unfold Leads at hsafe
      dsimp only at h
      rw [h] at hsafe
      obtain ⟨-, pos, hpos, -⟩ := hsafe
      exact ⟨pos, hpos⟩

section

variable {a b : String} {ts us : List PlacedToken} (ha : tokenize a = .ok ts) (hb : tokenize b = .ok us)
  (htokens : ts.map PlacedToken.token = us.map PlacedToken.token) (depth : Nat)

include ha hb htokens

theorem sameReading_of_tokens_eq : SameReading (parse depth a) (parse depth b) := by
  have halike := readAlike_parse trivial ha hb (forall₂_like_of_tokens_eq htokens) depth
  have hsound := parse_sound depth a
  have hsound' := parse_sound depth b
  generalize parse depth a = x at halike hsound ⊢
  generalize parse depth b = y at halike hsound' ⊢
  cases halike with
  | tree he => exact he.agrees
  | stop hstop =>
      cases hstop with
      | tooDeep => trivial
      | fault cause _ =>
          obtain ⟨hfamily, -, -, pos, hpos, -⟩ := hsound
          obtain ⟨-, -, -, pos', hpos', -⟩ := hsound'
          exact ⟨hfamily, .of_places hpos hpos'⟩

theorem goAlong_runText :
    GoAlong (fun _ _ => True) (runText depth a) (runText depth b) (Value.Like fun _ _ => True) := by
  have halike := readAlike_parse trivial ha hb (forall₂_like_of_tokens_eq htokens) depth
  unfold runText
  generalize parse depth a = x at halike ⊢
  generalize parse depth b = y at halike ⊢
  cases halike with
  | tree he => exact goAlong_evaluate depth Store.root he
  | stop hstop => exact .throw hstop

theorem sameRun_of_tokens_eq : SameRun (runText depth a World.initial) (runText depth b World.initial) := by
  have hrun := goAlong_runText ha hb htokens depth World.initial World.initial (World.like_refl (fun _ => trivial) _)
  have hplace : ∀ fault world, runText depth a World.initial = .error (.fault fault) world →
      ∃ pos, fault.pos = some pos := fun _ _ => exists_pos_of_runText
  have hplace' : ∀ fault world, runText depth b World.initial = .error (.fault fault) world →
      ∃ pos, fault.pos = some pos := fun _ _ => exists_pos_of_runText
  generalize runText depth a World.initial = x at hrun hplace ⊢
  generalize runText depth b World.initial = y at hrun hplace' ⊢
  cases x with
  | ok value world =>
      cases y with
      | ok value' world' => exact ⟨hrun.2.text_eq, hrun.2.agrees, hrun.1.showsAs⟩
      | error stop' world' => exact hrun.elim
  | error stop world =>
      cases y with
      | ok value' world' => exact hrun.elim
      | error stop' world' =>
          obtain ⟨hworld, hstop⟩ := hrun
          cases hstop with
          | tooDeep => exact hworld.showsAs
          | fault cause _ =>
              obtain ⟨pos, hpos⟩ := hplace _ world rfl
              obtain ⟨pos', hpos'⟩ := hplace' _ world' rfl
              exact ⟨.of_places hpos hpos', hworld.showsAs⟩

end

/-- **Layout never changes behaviour.** Texts whose tokens are equal when places are left out are read in the same
way, and running them, each in a fresh world, cannot be told apart. -/
theorem layout_irrelevant {a b : String} {ts us : List PlacedToken} (ha : tokenize a = .ok ts)
    (hb : tokenize b = .ok us) (htokens : ts.map PlacedToken.token = us.map PlacedToken.token) (depth : Nat) :
    SameReading (parse depth a) (parse depth b) ∧
      SameRun (runText depth a World.initial) (runText depth b World.initial) :=
  ⟨sameReading_of_tokens_eq ha hb htokens depth, sameRun_of_tokens_eq ha hb htokens depth⟩

/-- A function that is kept, in one line and over two lines with a comment. -/
theorem layout_irrelevant_lambda :
    tokenize "f = lambda(x) x" = .ok [⟨.identifier "f", ⟨1, 0⟩⟩, ⟨.operator .assign, ⟨1, 2⟩⟩,
        ⟨.keyword .lambdaWord, ⟨1, 4⟩⟩, ⟨.punctuation .openParen, ⟨1, 10⟩⟩, ⟨.identifier "x", ⟨1, 11⟩⟩,
        ⟨.punctuation .closeParen, ⟨1, 12⟩⟩, ⟨.identifier "x", ⟨1, 14⟩⟩] ∧
      tokenize "f = lambda# same\n(x)x" = .ok [⟨.identifier "f", ⟨1, 0⟩⟩, ⟨.operator .assign, ⟨1, 2⟩⟩,
        ⟨.keyword .lambdaWord, ⟨1, 4⟩⟩, ⟨.punctuation .openParen, ⟨2, 0⟩⟩, ⟨.identifier "x", ⟨2, 1⟩⟩,
        ⟨.punctuation .closeParen, ⟨2, 2⟩⟩, ⟨.identifier "x", ⟨2, 3⟩⟩] ∧
      SameReading (parse 20 "f = lambda(x) x") (parse 20 "f = lambda# same\n(x)x") ∧
      SameRun (runText 20 "f = lambda(x) x" World.initial) (runText 20 "f = lambda# same\n(x)x" World.initial) := by
  have hline : tokenize "f = lambda(x) x" = .ok [⟨.identifier "f", ⟨1, 0⟩⟩, ⟨.operator .assign, ⟨1, 2⟩⟩,
      ⟨.keyword .lambdaWord, ⟨1, 4⟩⟩, ⟨.punctuation .openParen, ⟨1, 10⟩⟩, ⟨.identifier "x", ⟨1, 11⟩⟩,
      ⟨.punctuation .closeParen, ⟨1, 12⟩⟩, ⟨.identifier "x", ⟨1, 14⟩⟩] := by decide +kernel
  have hlines : tokenize "f = lambda# same\n(x)x" = .ok [⟨.identifier "f", ⟨1, 0⟩⟩, ⟨.operator .assign, ⟨1, 2⟩⟩,
      ⟨.keyword .lambdaWord, ⟨1, 4⟩⟩, ⟨.punctuation .openParen, ⟨2, 0⟩⟩, ⟨.identifier "x", ⟨2, 1⟩⟩,
      ⟨.punctuation .closeParen, ⟨2, 2⟩⟩, ⟨.identifier "x", ⟨2, 3⟩⟩] := by decide +kernel
  exact ⟨hline, hlines, layout_irrelevant hline hlines rfl 20⟩

end LambdaScript
