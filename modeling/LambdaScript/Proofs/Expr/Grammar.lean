import LambdaScript.Expr.Parser
import Mathlib.Data.List.Forall2

/-!
The grammar of the language, over placed tokens and with the tree that each phrase stands for. The grammar is
ambiguous: an open phrase (a function, a conditional or a let) may go on or end where another phrase follows,
and an `else` may belong to any conditional before it. It says which token lists are programs and which trees
they may stand for; reading chooses one of them.
-/

namespace LambdaScript

/-- An operator with its place, and the operand behind it. -/
structure Link where
  op : Operator
  pos : Position
  operand : Expr

/-! ### What phrases stand for -/

/-- The tree of an operator between two trees: an equals sign is an assignment, and every other operator is itself. -/
inductive OperatorTree (pos : Position) (left right : Expr) : Operator → Expr → Prop where
  | assign : OperatorTree pos left right .assign (.assign left right (some pos))
  | binary {op : Operator} (hop : op ≠ .assign) : OperatorTree pos left right op (.binary op left right (some pos))

/-- The tree of a block: one without expressions is false, and one expression alone is itself. -/
inductive BlockTree (pos : Position) : List Expr → Expr → Prop where
  | empty : BlockTree pos [] (.boolean false (some pos))
  | single (e : Expr) : BlockTree pos [e] e
  | several (first second : Expr) (rest : List Expr) :
      BlockTree pos (first :: second :: rest) (.block (first :: second :: rest) (some pos))

/-- The argument that a binding of a named let is called with: its initial value, or else the false without a place. -/
inductive InitTree : Binding → Expr → Prop where
  | bare (name : String) : InitTree (.bare name) (.boolean false none)
  | bound (name : String) (init : Expr) : InitTree (.bound name init) init

/-- The tree of a let. With a name of its own it is at once the call of a function of that name. -/
inductive LetTree (pos : Position) (bindings : List Binding) (body : Expr) : Option String → Expr → Prop where
  | plain : LetTree pos bindings body none (.letIn bindings body (some pos))
  | named (name : String) {inits : List Expr} (hinits : List.Forall₂ InitTree bindings inits) :
      LetTree pos bindings body (some name)
        (.call (.lambda (some name) (bindings.map Binding.name) body (some pos)) inits (some pos))

/-- The trees of a chain of operators over a first operand. The root is the last of the operators that bind
least, so stronger ones stand below weaker ones, and equal ones group to the left. -/
inductive Grouped : Expr → List Link → Expr → Prop where
  | operand (first : Expr) : Grouped first [] first
  | node {first left right e : Expr} {before after : List Link} {link : Link}
      (hleft : Grouped first before left) (hright : Grouped link.operand after right)
      (hbefore : ∀ other ∈ before, link.op.precedence ≤ other.op.precedence)
      (hafter : ∀ other ∈ after, link.op.precedence < other.op.precedence)
      (htree : OperatorTree link.pos left right link.op e) : Grouped first (before ++ link :: after) e

/-! ### What reading makes of phrases -/

theorem operatorTree_iff {op : Operator} {pos : Position} {left right e : Expr} :
    OperatorTree pos left right op e ↔ e = Parser.combine op pos left right := by
  constructor
  · rintro (_ | hop)
    · rfl
    · cases op with
      | assign => exact absurd rfl hop
      | _ => rfl
  · rintro rfl
    cases op with
    | assign => exact .assign
    | _ => exact .binary (by simp)

theorem operatorTree_combine (op : Operator) (pos : Position) (left right : Expr) :
    OperatorTree pos left right op (Parser.combine op pos left right) := operatorTree_iff.mpr rfl

theorem blockTree_iff {pos : Position} {body : List Expr} {e : Expr} :
    BlockTree pos body e ↔ e = Parser.blockOf pos body := by
  constructor
  · rintro (_ | _ | _) <;> rfl
  · rintro rfl
    match body with
    | [] => exact .empty
    | [e] => exact .single e
    | first :: second :: rest => exact .several first second rest

theorem initTree_iff {b : Binding} {e : Expr} : InitTree b e ↔ e = Parser.initOrFalse b := by
  constructor
  · rintro (_ | _) <;> rfl
  · rintro rfl
    cases b with
    | bare name => exact .bare name
    | bound name init => exact .bound name init

theorem initTrees_iff {bindings : List Binding} {inits : List Expr} :
    List.Forall₂ InitTree bindings inits ↔ inits = bindings.map Parser.initOrFalse := by
  constructor
  · intro h
    induction h with
    | nil => rfl
    | cons hinit _ ih => rw [List.map_cons, initTree_iff.mp hinit, ih]
  · rintro rfl
    induction bindings with
    | nil => exact .nil
    | cons b bindings ih => exact .cons (initTree_iff.mpr rfl) ih

theorem exists_binding_of_mem_inits {bindings : List Binding} {inits : List Expr} {e : Expr}
    (h : List.Forall₂ InitTree bindings inits) (he : e ∈ inits) : ∃ b ∈ bindings, InitTree b e := by
  rw [initTrees_iff.mp h] at he
  obtain ⟨b, hb, rfl⟩ := List.mem_map.mp he
  exact ⟨b, hb, initTree_iff.mpr rfl⟩

/-- A let has one tree. -/
theorem exists_letTree (pos : Position) (bindings : List Binding) (body : Expr) (name : Option String) :
    ∃ e, ∀ tree, LetTree pos bindings body name tree ↔ e = tree := by
  cases name with
  | none =>
      refine ⟨.letIn bindings body (some pos), fun tree => ⟨?_, ?_⟩⟩
      · rintro ⟨⟩
        rfl
      · rintro rfl
        exact .plain
  | some name =>
      refine ⟨.call (.lambda (some name) (bindings.map Binding.name) body (some pos))
        (bindings.map Parser.initOrFalse) (some pos), fun tree => ⟨?_, ?_⟩⟩
      · rintro (_ | ⟨_, hinits⟩)
        rw [initTrees_iff.mp hinits]
      · rintro rfl
        exact .named name (initTrees_iff.mpr rfl)

/-! ### Chains -/

/-- A chain whose first operand is itself the tree of a chain is one chain, if no operator of the inner one
binds less than the first of the outer one. -/
theorem Grouped.graft {first inner e : Expr} {links outer : List Link} (precedence : Nat)
    (h : Grouped inner outer e) (hinner : Grouped first links inner)
    (hlinks : ∀ link ∈ links, precedence ≤ link.op.precedence)
    (hhead : ∀ link ∈ outer.head?, link.op.precedence ≤ precedence) : Grouped first (links ++ outer) e := by
  induction h with
  | operand => simpa using hinner
  | @node _ left right _ before after link hleft hright hbefore hafter htree ihleft ihright =>
      have hbound : link.op.precedence ≤ precedence := by
        cases before with
        | nil => exact hhead link rfl
        | cons other before =>
            have hother := hhead other rfl
            have hless := hbefore other List.mem_cons_self
            exact Nat.le_trans hless hother
      rw [← List.append_assoc]
      refine .node (ihleft hinner ?_) hright (fun other hmem => ?_) hafter htree
      · intro other hother
        cases before with
        | nil => cases hother
        | cons head before => exact hhead other hother
      · rcases List.mem_append.mp hmem with hlink | hother
        · exact Nat.le_trans hbound (hlinks other hlink)
        · exact hbefore other hother

/-- An operator is the root of its chain as long as those behind it bind more strongly, and the root of what
stands before the first one that does not. -/
theorem Grouped.link {left first right combined e : Expr} {op : Operator} {pos : Position} {inner outer : List Link}
    (hright : Grouped first inner right) (hinner : ∀ link ∈ inner, op.precedence < link.op.precedence)
    (hcombined : OperatorTree pos left right op combined) (h : Grouped combined outer e)
    (houter : ∀ link ∈ outer.head?, link.op.precedence ≤ op.precedence) :
    Grouped left (⟨op, pos, first⟩ :: (inner ++ outer)) e := by
  have hroot : Grouped left ([] ++ ⟨op, pos, first⟩ :: inner) combined :=
    .node (.operand left) hright (List.forall_mem_nil _) hinner hcombined
  refine Grouped.graft op.precedence h hroot (fun link hmem => ?_) houter
  rcases List.mem_cons.mp hmem with rfl | hlink
  · exact Nat.le_refl _
  · exact Nat.le_of_lt (hinner link hlink)

namespace Grammar

/-- Items with a mark between any two of them; the mark may also stand behind the last one. -/
inductive Separated {α : Type} (mark : Punctuation) (Item : List PlacedToken → α → Prop) :
    List PlacedToken → List α → Prop where
  | nil : Separated mark Item [] []
  | last {ts : List PlacedToken} {a : α} (hitem : Item ts a) : Separated mark Item ts [a]
  | cons {ts us : List PlacedToken} {a : α} {as : List α} {pos : Position} (hitem : Item ts a)
      (hrest : Separated mark Item us as) :
      Separated mark Item (ts ++ ⟨.punctuation mark, pos⟩ :: us) (a :: as)

theorem Separated.imp {α : Type} {mark : Punctuation} {Item Item' : List PlacedToken → α → Prop}
    {ts : List PlacedToken} {as : List α} (h : Separated mark Item ts as)
    (himp : ∀ {us a}, Item us a → Item' us a) : Separated mark Item' ts as := by
  induction h with
  | nil => exact .nil
  | last hitem => exact .last (himp hitem)
  | cons hitem _ ih => exact .cons (himp hitem) ih

/-- A name. -/
inductive Name : List PlacedToken → String → Prop where
  | identifier (name : String) (pos : Position) : Name [⟨.identifier name, pos⟩] name

/-- The name that a function or a let may have. -/
inductive OwnName : List PlacedToken → Option String → Prop where
  | none : OwnName [] none
  | some {ts : List PlacedToken} {name : String} (hname : Name ts name) : OwnName ts (some name)

mutual

/-- An operand, and any number of operators with operands behind it. -/
inductive Expression : List PlacedToken → Expr → Prop where
  | chain {ts us : List PlacedToken} {first e : Expr} {links : List Link} (hfirst : Operand ts first)
      (hlinks : Links us links) (htree : Grouped first links e) : Expression (ts ++ us) e

/-- Operators, each with an operand behind it. -/
inductive Links : List PlacedToken → List Link → Prop where
  | nil : Links [] []
  | cons {op : Operator} {pos : Position} {ts us : List PlacedToken} {e : Expr} {links : List Link}
      (hop : op ∈ Operator.known) (hoperand : Operand ts e) (hrest : Links us links) :
      Links (⟨.operator op, pos⟩ :: (ts ++ us)) (⟨op, pos, e⟩ :: links)

/-- An atom, and any number of argument lists behind it. -/
inductive Operand : List PlacedToken → Expr → Prop where
  | atom {ts : List PlacedToken} {e : Expr} (hatom : Atom ts e) : Operand ts e
  | call {ts us : List PlacedToken} {callee : Expr} {args : List Expr} {pos close : Position}
      (hcallee : Operand ts callee) (hargs : Separated .comma Expression us args) :
      Operand (ts ++ ⟨.punctuation .openParen, pos⟩ :: (us ++ [⟨.punctuation .closeParen, close⟩]))
        (.call callee args (some pos))

/-- The phrases that operators and argument lists go with. -/
inductive Atom : List PlacedToken → Expr → Prop where
  | group {ts : List PlacedToken} {e : Expr} {pos close : Position} (hexpr : Expression ts e) :
      Atom (⟨.punctuation .openParen, pos⟩ :: (ts ++ [⟨.punctuation .closeParen, close⟩])) e
  | block {ts : List PlacedToken} {body : List Expr} {e : Expr} {pos close : Position}
      (hbody : Separated .semicolon Expression ts body) (htree : BlockTree pos body e) :
      Atom (⟨.punctuation .openBrace, pos⟩ :: (ts ++ [⟨.punctuation .closeBrace, close⟩])) e
  | letIn {ns ts us : List PlacedToken} {name : Option String} {bindings : List Binding} {body e : Expr}
      {pos opens close : Position} (hname : OwnName ns name) (hbindings : Separated .comma Binds ts bindings)
      (hbody : Expression us body) (htree : LetTree pos bindings body name e) :
      Atom (⟨.keyword .letWord, pos⟩ :: (ns ++ ⟨.punctuation .openParen, opens⟩ ::
        (ts ++ ⟨.punctuation .closeParen, close⟩ :: us))) e
  | lambda {word : Keyword} {ns ts us : List PlacedToken} {name : Option String} {params : List String}
      {body : Expr} {pos opens close : Position} (hword : word = .lambdaWord ∨ word = .lambdaSign)
      (hname : OwnName ns name) (hparams : Separated .comma Name ts params) (hbody : Expression us body) :
      Atom (⟨.keyword word, pos⟩ :: (ns ++ ⟨.punctuation .openParen, opens⟩ ::
        (ts ++ ⟨.punctuation .closeParen, close⟩ :: us))) (.lambda name params body (some pos))
  | ifThen {ts us : List PlacedToken} {test consequent : Expr} {pos : Position} (htest : Expression ts test)
      (hconsequent : Consequent us consequent) :
      Atom (⟨.keyword .ifWord, pos⟩ :: (ts ++ us)) (.ifThen test consequent (some pos))
  | ifThenElse {ts us vs : List PlacedToken} {test consequent alternative : Expr} {pos elsePos : Position}
      (htest : Expression ts test) (hconsequent : Consequent us consequent)
      (halternative : Expression vs alternative) :
      Atom (⟨.keyword .ifWord, pos⟩ :: (ts ++ (us ++ ⟨.keyword .elseWord, elsePos⟩ :: vs)))
        (.ifThenElse test consequent alternative (some pos))
  | boolean (value : Bool) (pos : Position) : Atom [⟨.boolean value, pos⟩] (.boolean value (some pos))
  | variable (name : String) (pos : Position) : Atom [⟨.identifier name, pos⟩] (.variable name (some pos))
  | number (value : Binary64) (pos : Position) : Atom [⟨.number value, pos⟩] (.number value (some pos))
  | string (value : String) (pos : Position) : Atom [⟨.string value, pos⟩] (.string value (some pos))

/-- The branch of a conditional behind its test: an expression behind `then`, or one that starts with a
brace. -/
inductive Consequent : List PlacedToken → Expr → Prop where
  | word {ts : List PlacedToken} {e : Expr} {pos : Position} (hexpr : Expression ts e) :
      Consequent (⟨.keyword .thenWord, pos⟩ :: ts) e
  | brace {ts : List PlacedToken} {e : Expr} {pos : Position}
      (hexpr : Expression (⟨.punctuation .openBrace, pos⟩ :: ts) e) :
      Consequent (⟨.punctuation .openBrace, pos⟩ :: ts) e

/-- A name, and an initial value if there is an equals sign behind it. -/
inductive Binds : List PlacedToken → Binding → Prop where
  | bare (name : String) (pos : Position) : Binds [⟨.identifier name, pos⟩] (.bare name)
  | bound {name : String} {ts : List PlacedToken} {init : Expr} {pos equals : Position}
      (hinit : Expression ts init) :
      Binds (⟨.identifier name, pos⟩ :: ⟨.operator .assign, equals⟩ :: ts) (.bound name init)

end

/-- Expressions with semicolons between them. -/
inductive Program : List PlacedToken → Expr → Prop where
  | block {ts : List PlacedToken} {body : List Expr} (hbody : Separated .semicolon Expression ts body) :
      Program ts (.block body (some .start))

theorem Operand.ne_nil {ts : List PlacedToken} {e : Expr} (h : Operand ts e) : ts ≠ [] := by
  cases h with
  | atom hatom => cases hatom <;> simp
  | call hcallee hargs => simp

theorem Expression.ne_nil {ts : List PlacedToken} {e : Expr} (h : Expression ts e) : ts ≠ [] := by
  cases h with
  | chain hfirst hlinks htree => simp [hfirst.ne_nil]

theorem Separated.eq_nil {mark : Punctuation} {as : List Expr} (h : Separated mark Expression [] as) :
    as = [] := by
  generalize hts : ([] : List PlacedToken) = ts at h
  cases h with
  | nil => rfl
  | last hitem => exact absurd hts.symm hitem.ne_nil
  | cons hitem hrest => simp at hts

theorem Links.append {ts us : List PlacedToken} {links outer : List Link} (h : Links ts links)
    (houter : Links us outer) : Links (ts ++ us) (links ++ outer) := by
  induction links generalizing ts with
  | nil =>
      cases h
      exact houter
  | cons link links ih =>
      cases h with
      | cons hop hoperand hrest =>
          rw [List.cons_append, List.append_assoc]
          exact .cons hop hoperand (ih hrest)

theorem Links.starts {ts : List PlacedToken} {links : List Link} (h : Links ts links) :
    ∀ link ∈ links.head?, ∃ tokens, ts = ⟨.operator link.op, link.pos⟩ :: tokens := by
  intro link hhead
  cases h with
  | nil => cases hhead
  | cons hop hoperand hrest =>
      cases hhead
      exact ⟨_, rfl⟩

end Grammar

end LambdaScript
