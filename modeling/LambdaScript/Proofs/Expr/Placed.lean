import LambdaScript.Proofs.Expr.Stems

/-!
The trees that reading makes. Every node that evaluation may blame has the place of a token, and every
operator node has an operator with a meaning. A tree built by hand may break both; a tree of the grammar
breaks neither.
-/

namespace LambdaScript

/-- A tree whose operators have a meaning and whose nodes have places that satisfy `P`, as far as evaluation
may report them. -/
inductive Expr.IsPlaced (P : Position → Prop) : Expr → Prop where
  | number (value : Binary64) (pos : Option Position) : IsPlaced P (.number value pos)
  | string (value : String) (pos : Option Position) : IsPlaced P (.string value pos)
  | boolean (value : Bool) (pos : Option Position) : IsPlaced P (.boolean value pos)
  | variable (name : String) {pos : Position} (hpos : P pos) : IsPlaced P (.variable name (some pos))
  | lambda {name : Option String} {params : List String} {body : Expr} {pos : Option Position}
      (hbody : IsPlaced P body) : IsPlaced P (.lambda name params body pos)
  | call {callee : Expr} {args : List Expr} {pos : Position} (hcallee : IsPlaced P callee)
      (hargs : ∀ arg ∈ args, IsPlaced P arg) (hpos : P pos) : IsPlaced P (.call callee args (some pos))
  | ifThen {test consequent : Expr} {pos : Option Position} (htest : IsPlaced P test)
      (hconsequent : IsPlaced P consequent) : IsPlaced P (.ifThen test consequent pos)
  | ifThenElse {test consequent alternative : Expr} {pos : Option Position} (htest : IsPlaced P test)
      (hconsequent : IsPlaced P consequent) (halternative : IsPlaced P alternative) :
      IsPlaced P (.ifThenElse test consequent alternative pos)
  | assign {target value : Expr} {pos : Position} (hvalue : IsPlaced P value) (hpos : P pos) :
      IsPlaced P (.assign target value (some pos))
  | binary {op : Operator} {left right : Expr} {pos : Position} (hop : op ∈ Operator.known)
      (hassign : op ≠ .assign) (hleft : IsPlaced P left) (hright : IsPlaced P right) (hpos : P pos) :
      IsPlaced P (.binary op left right (some pos))
  | letIn {bindings : List Binding} {body : Expr} {pos : Option Position}
      (hbindings : ∀ binding ∈ bindings, ∀ init ∈ binding.init?, IsPlaced P init) (hbody : IsPlaced P body) :
      IsPlaced P (.letIn bindings body pos)
  | block {body : List Expr} {pos : Option Position} (hbody : ∀ e ∈ body, IsPlaced P e) :
      IsPlaced P (.block body pos)

/-- A binding whose initial value, if it has one, is placed. -/
def Binding.IsPlaced (P : Position → Prop) (binding : Binding) :
    Prop := ∀ init ∈ binding.init?, init.IsPlaced P

theorem Expr.IsPlaced.mono {P Q : Position → Prop} {e : Expr} (h : e.IsPlaced P) (himp : ∀ pos, P pos → Q pos) :
    e.IsPlaced Q := by
  induction h with
  | number => exact .number _ _
  | string => exact .string _ _
  | boolean => exact .boolean _ _
  | «variable» name hpos => exact .variable name (himp _ hpos)
  | lambda _ ihbody => exact .lambda ihbody
  | call _ _ hpos ihcallee ihargs => exact .call ihcallee ihargs (himp _ hpos)
  | ifThen _ _ ihtest ihconsequent => exact .ifThen ihtest ihconsequent
  | ifThenElse _ _ _ ihtest ihconsequent ihalternative => exact .ifThenElse ihtest ihconsequent ihalternative
  | assign _ hpos ihvalue => exact .assign ihvalue (himp _ hpos)
  | binary hop hassign _ _ hpos ihleft ihright => exact .binary hop hassign ihleft ihright (himp _ hpos)
  | letIn _ _ ihbindings ihbody => exact .letIn ihbindings ihbody
  | block _ ihbody => exact .block ihbody

/-- A tree that stems from tokens is placed at tokens. -/
theorem Expr.StemsFrom.isPlaced {T : PlacedToken → Prop} {P : Position → Prop} {e : Expr} (h : e.StemsFrom T)
    (hplace : ∀ token, T token → P token.pos) : e.IsPlaced P := by
  induction h with
  | number => exact .number _ _
  | string => exact .string _ _
  | boolean | emptyBlock => exact .boolean _ _
  | «variable» hpos => exact .variable _ (hplace _ hpos)
  | lambda _ _ _ _ _ ihbody => exact .lambda ihbody
  | call hpos _ _ ihcallee ihargs => exact .call ihcallee ihargs (hplace _ hpos)
  | ifThen _ _ _ ihtest ihconsequent => exact .ifThen ihtest ihconsequent
  | ifThenElse _ _ _ _ ihtest ihconsequent ihalternative => exact .ifThenElse ihtest ihconsequent ihalternative
  | assign hpos _ _ _ ihvalue => exact .assign ihvalue (hplace _ hpos)
  | binary hop hassign hpos _ _ ihleft ihright => exact .binary hop hassign ihleft ihright (hplace _ hpos)
  | letIn _ _ _ _ ihinits ihbody => exact .letIn ihinits ihbody
  | namedLet hpos _ _ _ hinits _ ihstems ihbody =>
      refine .call (.lambda ihbody) (fun arg hmem => ?_) (hplace _ hpos)
      obtain ⟨b, hb, hinit⟩ := exists_binding_of_mem_inits hinits hmem
      cases hinit with
      | bare name => exact .boolean false none
      | bound name => exact ihstems _ hb _ rfl
  | block _ _ _ ihbody => exact .block ihbody

/-- **The trees of the grammar are placed at their tokens.** -/
theorem Grammar.Program.isPlaced {P : Position → Prop} {ts : List PlacedToken} {e : Expr} (h : Program ts e)
    (hts : ∀ token ∈ ts, P token.pos) : e.IsPlaced P := by
  obtain ⟨body, rfl, hbody⟩ := h.stemsFrom hts
  exact .block fun item hmem => (hbody item hmem).isPlaced fun _ => id

end LambdaScript
