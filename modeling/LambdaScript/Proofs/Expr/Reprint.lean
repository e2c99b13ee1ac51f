import LambdaScript.Proofs.Expr.Forms
import LambdaScript.Proofs.Expr.Parse
import LambdaScript.Proofs.Expr.Stems

/-!
Written forms of programs. The written form of a tree need not be that of a phrase which stands for the tree: without
parentheses around it, an open phrase takes in what follows, and the tokens group in another way. They are those of some
phrase all the same, since whatever stands behind a phrase in a written form can go on with its last part. So what was
read can be written out and read again, as one expression.
-/

namespace LambdaScript

open Grammar

/-- Tokens that can be cut up as an expression. -/
def Grammar.IsPhrase (ts : List PlacedToken) : Prop := ∃ b, Greedy (.expression b) ts

/-- A tree whose written form gives the tokens of an expression, though perhaps of another one. -/
def Expr.IsReprinted (e : Expr) : Prop := ReadsAs e.source.toList IsPhrase

/-- A binding whose written form gives the tokens of a binding. -/
def Binding.IsReprinted (b : Binding) : Prop := ReadsAs b.source.toList (Greedy (.item .binding))

/-! ### Phrases -/

/-- Items make a list. -/
theorem Grammar.Separated.greedy {α : Type} {mark : Punctuation} {kind : Item} {ts : List PlacedToken} {as : List α}
    (h : Separated mark (fun us _ => Greedy (.item kind) us) ts as) : Greedy (.list mark kind) ts := by
  induction h with
  | nil => exact .nil
  | last hitem => exact .last hitem
  | cons hitem _ ih => exact .cons hitem ih

theorem Grammar.Separated.greedy_expressions {mark : Punctuation} {ts : List PlacedToken} {es : List Expr}
    (h : Separated mark (fun us _ => IsPhrase us) ts es) : Greedy (.list mark .expression) ts :=
  (h.imp Greedy.item_expression).greedy

/-- A conditional may take in an `else` that stands behind it, whichever of the conditionals in it does so. -/
theorem Grammar.isPhrase_ifThenElse {ts us vs : List PlacedToken} {pos thenPos elsePos : Position}
    (htest : IsPhrase ts) (hconsequent : IsPhrase us) (halternative : IsPhrase vs) :
    IsPhrase (⟨.keyword .ifWord, pos⟩ :: (ts ++ ⟨.keyword .thenWord, thenPos⟩ :: (us ++
      ⟨.keyword .elseWord, elsePos⟩ :: vs))) := by
  obtain ⟨a, hts⟩ := htest
  obtain ⟨b, hus⟩ := hconsequent
  obtain ⟨c, hvs⟩ := halternative
  have hbranch : Greedy (.branch b) (⟨.keyword .thenWord, thenPos⟩ :: us) := .word hus
  cases b with
  | false => exact ⟨c, .opened (.ifThenElse hts hbranch hvs)⟩
  | true =>
      obtain ⟨d, hextended⟩ := hbranch.else_branch hvs
      exact ⟨true, .opened (.ifThen hts hextended)⟩

/-! ### Trees -/

section

variable (p : Option Position)

theorem isReprinted_leaf {token : Token} {e : Expr} (hreadable : token.Readable) (hleaf : IsLeaf token)
    (hsource : e.source = token.lexeme) : e.IsReprinted := by
  unfold Expr.IsReprinted
  rw [hsource]
  refine (ReadsAs.token hreadable).mono ?_
  rintro _ ⟨pos, rfl⟩
  exact ⟨false, .closed (.leaf hleaf)⟩

theorem isReprinted_lambda {name : Option String} {params : List String} {body : Expr}
    (hname : ∀ own ∈ name, (Token.identifier own).Readable)
    (hparams : ∀ param ∈ params, (Token.identifier param).Readable) (hbody : body.IsReprinted) :
    (Expr.lambda name params body p).IsReprinted := by
  refine (readsAs_lambda p hname hparams hbody).mono ?_
  rintro _ ⟨pos, ns, opens, ts, close, us, hns, hts, ⟨b, hus⟩, rfl⟩
  exact ⟨b, .opened (.lambda (.inr rfl) hns hts hus)⟩

/-- Arguments behind any phrase are those of its last operand. -/
theorem isReprinted_call {callee : Expr} {args : List Expr} (hcallee : callee.IsReprinted)
    (hargs : ∀ arg ∈ args, arg.IsReprinted) : (Expr.call callee args p).IsReprinted := by
  refine (readsAs_call p hcallee hargs).mono ?_
  rintro _ ⟨ts, opens, us, close, ⟨b, hts⟩, hus, rfl⟩
  exact hts.call_expression hus.greedy_expressions

theorem isReprinted_binding {b : Binding} (hname : (Token.identifier b.name).Readable)
    (hinit : ∀ init ∈ b.init?, init.IsReprinted) : b.IsReprinted := by
  cases b with
  | bare name =>
      refine (ReadsAs.token hname).mono ?_
      rintro _ ⟨pos, rfl⟩
      exact .bare name pos
  | bound name init =>
      refine (readsAs_bound hname (hinit init rfl)).mono ?_
      rintro _ ⟨pos, equals, ts, ⟨b, hts⟩, rfl⟩
      exact .bound hts

theorem isReprinted_block {body : List Expr} (hbody : ∀ e ∈ body, e.IsReprinted) :
    (Expr.block body p).IsReprinted := by
  refine (readsAs_block p hbody).mono ?_
  rintro _ ⟨opens, ts, close, hts, rfl⟩
  exact ⟨false, .closed (.block hts.greedy_expressions)⟩

end

/-- What stems from readable tokens can be written out and read. -/
theorem Expr.StemsFrom.isReprinted {e : Expr} (h : e.StemsFrom fun token => token.token.Readable) :
    e.IsReprinted := by
  have hsaid {name : String} (hname : IsSaid (fun token => token.token.Readable) name) :
      (Token.identifier name).Readable := hname.elim fun _ => id
  induction h with
  | number hpos => exact isReprinted_leaf hpos (.number _) rfl
  | string hpos => exact isReprinted_leaf hpos (.string _) rfl
  | boolean hpos => exact isReprinted_leaf hpos (.boolean _) rfl
  | emptyBlock => exact isReprinted_leaf (.boolean false) (.boolean false) rfl
  | «variable» hpos => exact isReprinted_leaf hpos (.identifier _) rfl
  | lambda _ _ hname hparams _ ihbody =>
      exact isReprinted_lambda _ (fun own hown => hsaid (hname own hown))
        (fun param hparam => hsaid (hparams param hparam)) ihbody
  | call _ _ _ ihcallee ihargs => exact isReprinted_call _ ihcallee ihargs
  | ifThen _ _ _ ihtest ihconsequent =>
      refine (readsAs_ifThen _ ihtest ihconsequent).mono ?_
      rintro _ ⟨pos, ts, thenPos, us, ⟨a, hts⟩, ⟨b, hus⟩, rfl⟩
      exact ⟨true, .opened (.ifThen hts (.word hus))⟩
  | ifThenElse _ _ _ _ ihtest ihconsequent ihalternative =>
      refine (readsAs_ifThenElse _ ihtest ihconsequent ihalternative).mono ?_
      rintro _ ⟨pos, ts, thenPos, us, elsePos, vs, hts, hus, hvs, rfl⟩
      exact isPhrase_ifThenElse hts hus hvs
  | assign _ _ _ ihtarget ihvalue =>
      refine (readsAs_assign _ ihtarget ihvalue).mono ?_
      rintro _ ⟨ts, pos, us, ⟨a, hts⟩, ⟨b, hus⟩, rfl⟩
      exact hts.chain_expression (by decide) hus
  | binary hop _ _ _ _ ihleft ihright =>
      refine (readsAs_binary _ hop ihleft ihright).mono ?_
      rintro _ ⟨opens, ts, pos, us, close, ⟨a, hts⟩, ⟨b, hus⟩, rfl⟩
      obtain ⟨c, hchain⟩ := hts.chain_expression hop hus
      exact ⟨false, .closed (.group hchain)⟩
  | letIn _ hnames _ _ ihinits ihbody =>
      refine (readsAs_letIn _ (fun b hb => isReprinted_binding (hsaid (hnames b hb)) (ihinits b hb)) ihbody).mono ?_
      rintro _ ⟨pos, opens, ts, close, us, hts, ⟨b, hus⟩, rfl⟩
      exact ⟨b, .opened (.letIn .none hts.greedy hus)⟩
  | namedLet _ hname hnames _ hinits _ ihstems ihbody =>
      refine isReprinted_call _ (isReprinted_lambda _ ?_ ?_ ihbody) fun arg harg => ?_
      · rintro own ⟨⟩
        exact hsaid hname
      · intro param hparam
        obtain ⟨b, hb, rfl⟩ := List.mem_map.mp hparam
        exact hsaid (hnames b hb)
      · obtain ⟨b, hb, hinit⟩ := exists_binding_of_mem_inits hinits harg
        cases hinit with
        | bare name => exact isReprinted_leaf (.boolean false) (.boolean false) rfl
        | bound name => exact ihstems _ hb _ rfl
  | block _ _ _ ihbody => exact isReprinted_block _ ihbody

/-! ### Programs -/

/-- A tree that is written as an expression is read as a program of one expression, if levels last. -/
theorem Expr.IsReprinted.parse {e : Expr} (h : e.IsReprinted) (limit : Nat) :
    (∃ tree, LambdaScript.parse limit e.source = .ok (.block [tree] (some .start))) ∨
      LambdaScript.parse limit e.source = .error .tooDeep := by
  obtain ⟨tokens, hphrase, htokens⟩ := h.tokenize
  obtain ⟨a, haccepted⟩ := Parser.isAccepted_of_greedy (.item_expression hphrase)
  have hitems : Separated .semicolon
      (fun us (a : Expr) => Parser.IsItemOf e.source (Parser.expression limit) us (a = ·)) tokens [a] :=
    .last (haccepted e.source limit)
  rcases parse_of_takes htokens (Parser.takes_program_of_items hitems) with ⟨program, hparse, body, hbody, rfl⟩ | hdeep
  · obtain ⟨tree, rfl⟩ := List.length_eq_one_iff.mp hbody.length_eq.symm
    exact .inl ⟨tree, hparse⟩
  · exact .inr hdeep

/-- **The written form of a program that was read is a program of one expression.** It is read as one with more levels
than it has characters, and with any number of levels nothing can go wrong but that there are too few. -/
theorem parse_source_of_parse {depth : Nat} {text : String} {program : Expr} (hparse : parse depth text = .ok program)
    (limit : Nat) :
    (∃ tree, parse limit program.source = .ok (.block [tree] (some .start))) ∨
      parse limit program.source = .error .tooDeep ∧ limit ≤ program.source.length := by
  have hsound := parse_sound depth text
  rw [hparse] at hsound
  obtain ⟨tokens, htokens, hderived⟩ := hsound
  have hreadable : ∀ token ∈ tokens, token.token.Readable := fun token hmem =>
    (isIn_of_mem_tokenize htokens token hmem).1
  obtain ⟨body, rfl, hbody⟩ := hderived.stemsFrom hreadable
  have hreprinted : (Expr.block body (some .start)).IsReprinted :=
    isReprinted_block _ fun e he => (hbody e he).isReprinted
  rcases hreprinted.parse limit with hread | hdeep
  · exact .inl hread
  · have hlimit := parse_sound limit (Expr.block body (some .start)).source
    rw [hdeep] at hlimit
    exact .inr ⟨hdeep, hlimit⟩

/-- The written form has no parentheses around a function that is called, a conditional without `else` before an `else`,
and an assignment behind an operator. -/
theorem parse_source_of_parse_regrouped :
    ∃ program, parse 40 "(λ(x) x)(1); if a then (if b then c) else d; 1 + (x = 2)" = .ok program ∧
      program.source = "\x7b λ(x) x(1); if a then if b then c else d; (1 + x = 2) \x7d" ∧
      ∃ tree, parse 80 program.source = .ok (.block [tree] (some .start)) := by
  have hread : (parse 40 "(λ(x) x)(1); if a then (if b then c) else d; 1 + (x = 2)").toOption.any (fun program =>
      program.source == "\x7b λ(x) x(1); if a then if b then c else d; (1 + x = 2) \x7d") = true := by decide +kernel
  cases hparse : parse 40 "(λ(x) x)(1); if a then (if b then c) else d; 1 + (x = 2)" with
  | error stop =>
      rw [hparse] at hread
      cases hread
  | ok program =>
      rw [hparse] at hread
      have hsource : program.source = "\x7b λ(x) x(1); if a then if b then c else d; (1 + x = 2) \x7d" :=
        beq_iff_eq.mp hread
      rcases parse_source_of_parse hparse 80 with htree | ⟨-, hlimit⟩
      · exact ⟨program, rfl, hsource, htree⟩
      · have hlength : program.source.length < 80 := by
          rw [hsource]
          decide
        omega

end LambdaScript
