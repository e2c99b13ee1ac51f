import LambdaScript.Proofs.Expr.Grammar

/-!
Where the nodes of a tree come from. Reading makes every node from a token: a leaf from the token that says its value,
an operator node from the operator, a call from the parenthesis that opens its arguments, and any other node from the
keyword or the brace that it starts with. The node has the place of that token, and every name in it is that of an
identifier. Only the truth value for a missing initial value of a named let comes from no token.
-/

namespace LambdaScript

variable {T : PlacedToken → Prop}

/-- A name that some identifier says. -/
def IsSaid (T : PlacedToken → Prop) (name : String) : Prop := ∃ pos, T ⟨.identifier name, pos⟩

/-- A tree whose nodes and names come from tokens that satisfy `T`. -/
inductive Expr.StemsFrom (T : PlacedToken → Prop) : Expr → Prop where
  | number {value : Binary64} {pos : Position} (hpos : T ⟨.number value, pos⟩) : StemsFrom T (.number value (some pos))
  | string {value : String} {pos : Position} (hpos : T ⟨.string value, pos⟩) : StemsFrom T (.string value (some pos))
  | boolean {value : Bool} {pos : Position} (hpos : T ⟨.boolean value, pos⟩) :
      StemsFrom T (.boolean value (some pos))
  | variable {name : String} {pos : Position} (hpos : T ⟨.identifier name, pos⟩) :
      StemsFrom T (.variable name (some pos))
  | lambda {word : Keyword} {name : Option String} {params : List String} {body : Expr} {pos : Position}
      (hword : word = .lambdaWord ∨ word = .lambdaSign) (hpos : T ⟨.keyword word, pos⟩)
      (hname : ∀ own ∈ name, IsSaid T own) (hparams : ∀ param ∈ params, IsSaid T param) (hbody : StemsFrom T body) :
      StemsFrom T (.lambda name params body (some pos))
  | call {callee : Expr} {args : List Expr} {pos : Position} (hpos : T ⟨.punctuation .openParen, pos⟩)
      (hcallee : StemsFrom T callee) (hargs : ∀ arg ∈ args, StemsFrom T arg) :
      StemsFrom T (.call callee args (some pos))
  | ifThen {test consequent : Expr} {pos : Position} (hpos : T ⟨.keyword .ifWord, pos⟩) (htest : StemsFrom T test)
      (hconsequent : StemsFrom T consequent) : StemsFrom T (.ifThen test consequent (some pos))
  | ifThenElse {test consequent alternative : Expr} {pos : Position} (hpos : T ⟨.keyword .ifWord, pos⟩)
      (htest : StemsFrom T test) (hconsequent : StemsFrom T consequent) (halternative : StemsFrom T alternative) :
      StemsFrom T (.ifThenElse test consequent alternative (some pos))
  | assign {target value : Expr} {pos : Position} (hpos : T ⟨.operator .assign, pos⟩) (htarget : StemsFrom T target)
      (hvalue : StemsFrom T value) : StemsFrom T (.assign target value (some pos))
  | binary {op : Operator} {left right : Expr} {pos : Position} (hop : op ∈ Operator.known) (hassign : op ≠ .assign)
      (hpos : T ⟨.operator op, pos⟩) (hleft : StemsFrom T left) (hright : StemsFrom T right) :
      StemsFrom T (.binary op left right (some pos))
  | letIn {bindings : List Binding} {body : Expr} {pos : Position} (hpos : T ⟨.keyword .letWord, pos⟩)
      (hnames : ∀ b ∈ bindings, IsSaid T b.name) (hinits : ∀ b ∈ bindings, ∀ init ∈ b.init?, StemsFrom T init)
      (hbody : StemsFrom T body) : StemsFrom T (.letIn bindings body (some pos))
  /-- A let with a name of its own, which is the call of a function. -/
  | namedLet {name : String} {bindings : List Binding} {inits : List Expr} {body : Expr} {pos : Position}
      (hpos : T ⟨.keyword .letWord, pos⟩) (hname : IsSaid T name) (hnames : ∀ b ∈ bindings, IsSaid T b.name)
      (hstems : ∀ b ∈ bindings, ∀ init ∈ b.init?, StemsFrom T init) (hinits : List.Forall₂ InitTree bindings inits)
      (hbody : StemsFrom T body) :
      StemsFrom T (.call (.lambda (some name) (bindings.map Binding.name) body (some pos)) inits (some pos))
  | block {body : List Expr} {pos : Position} (hpos : T ⟨.punctuation .openBrace, pos⟩) (htwo : 2 ≤ body.length)
      (hbody : ∀ e ∈ body, StemsFrom T e) : StemsFrom T (.block body (some pos))
  /-- A block without expressions, which is false. -/
  | emptyBlock {pos : Position} (hpos : T ⟨.punctuation .openBrace, pos⟩) : StemsFrom T (.boolean false (some pos))

/-- A binding whose name and initial value come from tokens that satisfy `T`. -/
def Binding.StemsFrom (T : PlacedToken → Prop) (b : Binding) : Prop :=
  IsSaid T b.name ∧ ∀ init ∈ b.init?, init.StemsFrom T

theorem OperatorTree.stemsFrom {op : Operator} {pos : Position} {left right e : Expr}
    (h : OperatorTree pos left right op e) (hop : op ∈ Operator.known) (hpos : T ⟨.operator op, pos⟩)
    (hleft : left.StemsFrom T) (hright : right.StemsFrom T) : e.StemsFrom T := by
  cases h with
  | assign => exact .assign hpos hleft hright
  | binary hassign => exact .binary hop hassign hpos hleft hright

theorem BlockTree.stemsFrom {pos : Position} {body : List Expr} {e : Expr} (h : BlockTree pos body e)
    (hpos : T ⟨.punctuation .openBrace, pos⟩) (hbody : ∀ e ∈ body, e.StemsFrom T) : e.StemsFrom T := by
  cases h with
  | empty => exact .emptyBlock hpos
  | single e => exact hbody e (List.mem_singleton_self e)
  | several first second rest => exact .block hpos (Nat.le_add_left 2 rest.length) hbody

theorem LetTree.stemsFrom {pos : Position} {bindings : List Binding} {body e : Expr} {name : Option String}
    (h : LetTree pos bindings body name e) (hpos : T ⟨.keyword .letWord, pos⟩) (hname : ∀ own ∈ name, IsSaid T own)
    (hbindings : ∀ b ∈ bindings, b.StemsFrom T) (hbody : body.StemsFrom T) : e.StemsFrom T := by
  have hnames : ∀ b ∈ bindings, IsSaid T b.name := fun b hb => (hbindings b hb).1
  have hstems : ∀ b ∈ bindings, ∀ init ∈ b.init?, init.StemsFrom T := fun b hb => (hbindings b hb).2
  cases h with
  | plain => exact .letIn hpos hnames hstems hbody
  | named name hinits => exact .namedLet hpos (hname name rfl) hnames hstems hinits hbody

namespace Grammar

/-- The tree of a chain stems from the operators and the operands of the chain. -/
theorem stemsFrom_of_grouped {first e : Expr} {links : List Link} (h : Grouped first links e)
    (hfirst : first.StemsFrom T)
    (hlinks : ∀ link ∈ links, link.op ∈ Operator.known ∧ T ⟨.operator link.op, link.pos⟩ ∧ link.operand.StemsFrom T) :
    e.StemsFrom T := by
  induction h with
  | operand => exact hfirst
  | @node first left right e before after link _ _ _ _ htree ihleft ihright =>
      obtain ⟨hop, hpos, hoperand⟩ := hlinks link (by simp)
      have hleft := ihleft hfirst fun other hmem => hlinks other (by simp [hmem])
      have hright := ihright hoperand fun other hmem => hlinks other (by simp [hmem])
      exact htree.stemsFrom hop hpos hleft hright

theorem Name.isSaid {ts : List PlacedToken} {name : String} (h : Name ts name) (hts : ∀ token ∈ ts, T token) :
    IsSaid T name := by
  cases h with
  | identifier name pos => exact ⟨pos, hts _ (List.mem_singleton_self _)⟩

theorem OwnName.isSaid {ts : List PlacedToken} {name : Option String} (h : OwnName ts name)
    (hts : ∀ token ∈ ts, T token) : ∀ own ∈ name, IsSaid T own := by
  cases h with
  | none => exact fun own hown => nomatch hown
  | some hname => exact fun own hown => Option.some.inj hown ▸ hname.isSaid hts

/-- What all items of a list have that are made of tokens that satisfy `T`. -/
theorem Separated.forall_mem {α : Type} {mark : Punctuation} {Item : List PlacedToken → α → Prop} {Q : α → Prop}
    {ts : List PlacedToken} {as : List α} (h : Separated mark Item ts as)
    (hitem : ∀ {us a}, Item us a → (∀ token ∈ us, T token) → Q a) (hts : ∀ token ∈ ts, T token) : ∀ a ∈ as, Q a := by
  induction h with
  | nil => exact List.forall_mem_nil _
  | last hlast => exact List.forall_mem_singleton.mpr (hitem hlast hts)
  | cons hfirst _ ih =>
      simp only [List.forall_mem_append, List.forall_mem_cons] at hts
      exact List.forall_mem_cons.mpr ⟨hitem hfirst hts.1, ih hts.2.2⟩

mutual

/-- **The trees of the grammar stem from their tokens.** -/
theorem Expression.stemsFrom : ∀ {ts : List PlacedToken} {e : Expr}, Expression ts e → (∀ token ∈ ts, T token) →
    e.StemsFrom T
  | _, _, .chain hfirst hlinks htree, hts => by
      rw [List.forall_mem_append] at hts
      exact stemsFrom_of_grouped htree (hfirst.stemsFrom hts.1) (hlinks.stemsFrom hts.2)

theorem Links.stemsFrom : ∀ {ts : List PlacedToken} {links : List Link}, Links ts links → (∀ token ∈ ts, T token) →
    ∀ link ∈ links, link.op ∈ Operator.known ∧ T ⟨.operator link.op, link.pos⟩ ∧ link.operand.StemsFrom T
  | _, _, .nil, _ => List.forall_mem_nil _
  | _, _, .cons hop hoperand hrest, hts => by
      rw [List.forall_mem_cons, List.forall_mem_append] at hts
      rw [List.forall_mem_cons]
      exact ⟨⟨hop, hts.1, hoperand.stemsFrom hts.2.1⟩, hrest.stemsFrom hts.2.2⟩

theorem Operand.stemsFrom : ∀ {ts : List PlacedToken} {e : Expr}, Operand ts e → (∀ token ∈ ts, T token) →
    e.StemsFrom T
  | _, _, .atom hatom, hts => hatom.stemsFrom hts
  | _, _, .call hcallee hargs, hts => by
      simp only [List.forall_mem_append, List.forall_mem_cons] at hts
      exact .call hts.2.1 (hcallee.stemsFrom hts.1) (stemsFrom_arguments hargs hts.2.2.1)

theorem Atom.stemsFrom : ∀ {ts : List PlacedToken} {e : Expr}, Atom ts e → (∀ token ∈ ts, T token) → e.StemsFrom T
  | _, _, .group hexpr, hts => by
      simp only [List.forall_mem_append, List.forall_mem_cons] at hts
      exact hexpr.stemsFrom hts.2.1
  | _, _, .block hbody htree, hts => by
      simp only [List.forall_mem_append, List.forall_mem_cons] at hts
      exact htree.stemsFrom hts.1 (stemsFrom_body hbody hts.2.1)
  | _, _, .letIn hname hbindings hbody htree, hts => by
      simp only [List.forall_mem_append, List.forall_mem_cons] at hts
      obtain ⟨hpos, hns, -, hts, -, hus⟩ := hts
      exact htree.stemsFrom hpos (hname.isSaid hns) (stemsFrom_bindings hbindings hts) (hbody.stemsFrom hus)
  | _, _, .lambda hword hname hparams hbody, hts => by
      simp only [List.forall_mem_append, List.forall_mem_cons] at hts
      obtain ⟨hpos, hns, -, hts, -, hus⟩ := hts
      exact .lambda hword hpos (hname.isSaid hns) (hparams.forall_mem Name.isSaid hts) (hbody.stemsFrom hus)
  | _, _, .ifThen htest hconsequent, hts => by
      simp only [List.forall_mem_append, List.forall_mem_cons] at hts
      exact .ifThen hts.1 (htest.stemsFrom hts.2.1) (hconsequent.stemsFrom hts.2.2)
  | _, _, .ifThenElse htest hconsequent halternative, hts => by
      simp only [List.forall_mem_append, List.forall_mem_cons] at hts
      obtain ⟨hpos, hts, hus, -, hvs⟩ := hts
      exact .ifThenElse hpos (htest.stemsFrom hts) (hconsequent.stemsFrom hus) (halternative.stemsFrom hvs)
  | _, _, .boolean _ _, hts => .boolean (hts _ (List.mem_singleton_self _))
  | _, _, .variable _ _, hts => .variable (hts _ (List.mem_singleton_self _))
  | _, _, .number _ _, hts => .number (hts _ (List.mem_singleton_self _))
  | _, _, .string _ _, hts => .string (hts _ (List.mem_singleton_self _))

theorem Consequent.stemsFrom : ∀ {ts : List PlacedToken} {e : Expr}, Consequent ts e → (∀ token ∈ ts, T token) →
    e.StemsFrom T
  | _, _, .word hexpr, hts => hexpr.stemsFrom (List.forall_mem_cons.mp hts).2
  | _, _, .brace hexpr, hts => hexpr.stemsFrom hts

theorem Binds.stemsFrom : ∀ {ts : List PlacedToken} {b : Binding}, Binds ts b → (∀ token ∈ ts, T token) →
    b.StemsFrom T
  | _, _, .bare _ pos, hts => ⟨⟨pos, hts _ (List.mem_singleton_self _)⟩, fun init hnone => nomatch hnone⟩
  | _, _, .bound hinit, hts => by
      simp only [List.forall_mem_cons] at hts
      exact ⟨⟨_, hts.1⟩, fun init hsome => Option.some.inj hsome ▸ hinit.stemsFrom hts.2.2⟩

theorem stemsFrom_arguments : ∀ {ts : List PlacedToken} {args : List Expr}, Separated .comma Expression ts args →
    (∀ token ∈ ts, T token) → ∀ e ∈ args, e.StemsFrom T
  | _, _, .nil, _ => List.forall_mem_nil _
  | _, _, .last hexpr, hts => List.forall_mem_singleton.mpr (hexpr.stemsFrom hts)
  | _, _, .cons hexpr hrest, hts => by
      simp only [List.forall_mem_append, List.forall_mem_cons] at hts
      exact List.forall_mem_cons.mpr ⟨hexpr.stemsFrom hts.1, stemsFrom_arguments hrest hts.2.2⟩

theorem stemsFrom_body : ∀ {ts : List PlacedToken} {body : List Expr}, Separated .semicolon Expression ts body →
    (∀ token ∈ ts, T token) → ∀ e ∈ body, e.StemsFrom T
  | _, _, .nil, _ => List.forall_mem_nil _
  | _, _, .last hexpr, hts => List.forall_mem_singleton.mpr (hexpr.stemsFrom hts)
  | _, _, .cons hexpr hrest, hts => by
      simp only [List.forall_mem_append, List.forall_mem_cons] at hts
      exact List.forall_mem_cons.mpr ⟨hexpr.stemsFrom hts.1, stemsFrom_body hrest hts.2.2⟩

theorem stemsFrom_bindings : ∀ {ts : List PlacedToken} {bindings : List Binding},
    Separated .comma Binds ts bindings → (∀ token ∈ ts, T token) → ∀ b ∈ bindings, b.StemsFrom T
  | _, _, .nil, _ => List.forall_mem_nil _
  | _, _, .last hbinding, hts => List.forall_mem_singleton.mpr (hbinding.stemsFrom hts)
  | _, _, .cons hbinding hrest, hts => by
      simp only [List.forall_mem_append, List.forall_mem_cons] at hts
      exact List.forall_mem_cons.mpr ⟨hbinding.stemsFrom hts.1, stemsFrom_bindings hrest hts.2.2⟩

end

/-- The expressions of a program stem from its tokens. -/
theorem Program.stemsFrom {ts : List PlacedToken} {program : Expr} (h : Program ts program)
    (hts : ∀ token ∈ ts, T token) :
    ∃ body, program = .block body (some .start) ∧ ∀ e ∈ body, e.StemsFrom T := by
  cases h with
  | block hbody => exact ⟨_, rfl, stemsFrom_body hbody hts⟩

end Grammar

end LambdaScript
