import LambdaScript.Proofs.Expr.Forms
import LambdaScript.Proofs.Expr.Parse
import LambdaScript.Proofs.Expr.Written

/-!
Trees read back. The written form of a faithful tree is put together from pieces that follow the tree, so its tokens are
those of the written form, and these are read as the tree.
-/

namespace LambdaScript

open Grammar

/-! ### Written forms -/

theorem readable_of_isName {name : String} (h : isName name = true) : (Token.identifier name).Readable := by
  unfold isName at h
  split at h
  · next token htokens =>
    have htoken : token.token = .identifier name := by simpa using h
    rw [← htoken]
    have hmem : token ∈ (Cursor.ofText name).delivery.tokens := by
      rw [tokenize_eq_ok.mp htokens]
      exact List.mem_singleton_self token
    exact Cursor.readable_of_mem_delivery hmem
  · cases h

mutual

/-- The written form of a faithful tree gives the tokens of its written form. -/
theorem Expr.readsAs_source : ∀ e : Expr, e.isFaithful = true → ReadsAs e.source.toList (Written · e)
  | .number value p, h => by
      simp only [Expr.isFaithful] at h
      split at h
      · refine (ReadsAs.token (.number h)).mono ?_
        rintro _ ⟨pos, rfl⟩
        exact .number _ pos p
      · cases h
  | .string value p, _ => by
      refine (ReadsAs.token (.string value)).mono ?_
      rintro _ ⟨pos, rfl⟩
      exact .string value pos p
  | .boolean value p, _ => by
      refine (ReadsAs.token (.boolean value)).mono ?_
      rintro _ ⟨pos, rfl⟩
      exact .boolean value pos p
  | .variable name p, h => by
      refine (ReadsAs.token (readable_of_isName h)).mono ?_
      rintro _ ⟨pos, rfl⟩
      exact .variable name pos p
  | .lambda name params body p, h => by
      simp only [Expr.isFaithful, Bool.and_eq_true] at h
      obtain ⟨⟨hname, hparams⟩, hbody⟩ := h
      have hown : ∀ own ∈ name, (Token.identifier own).Readable := by
        rintro own ⟨⟩
        exact readable_of_isName hname
      refine (readsAs_lambda p hown (fun param hmem => readable_of_isName (List.all_eq_true.mp hparams param hmem))
        (body.readsAs_source hbody)).mono ?_
      rintro _ ⟨pos, ns, opens, ts, close, us, hns, hts, hus, rfl⟩
      exact .lambda p hns hts hus
  | .call callee args p, h => by
      simp only [Expr.isFaithful, Bool.and_eq_true, Bool.not_eq_eq_eq_not, Bool.not_true] at h
      obtain ⟨⟨hclosed, hcallee⟩, hargs⟩ := h
      refine (readsAs_call p (callee.readsAs_source hcallee) (readsAs_sources args hargs)).mono ?_
      rintro _ ⟨ts, opens, us, close, hts, hus, rfl⟩
      exact .call p hclosed hts hus
  | .ifThen test consequent p, h => by
      simp only [Expr.isFaithful, Bool.and_eq_true] at h
      refine (readsAs_ifThen p (test.readsAs_source h.1) (consequent.readsAs_source h.2)).mono ?_
      rintro _ ⟨pos, ts, thenPos, us, hts, hus, rfl⟩
      exact .ifThen p hts hus
  | .ifThenElse test consequent alternative p, h => by
      simp only [Expr.isFaithful, Bool.and_eq_true, Bool.not_eq_eq_eq_not, Bool.not_true] at h
      obtain ⟨⟨⟨hedge, htest⟩, hconsequent⟩, halternative⟩ := h
      refine (readsAs_ifThenElse p (test.readsAs_source htest) (consequent.readsAs_source hconsequent)
        (alternative.readsAs_source halternative)).mono ?_
      rintro _ ⟨pos, ts, thenPos, us, elsePos, vs, hts, hus, hvs, rfl⟩
      exact .ifThenElse p hedge hts hus hvs
  | .assign target value p, h => by
      simp only [Expr.isFaithful, Bool.and_eq_true, Bool.not_eq_eq_eq_not, Bool.not_true] at h
      obtain ⟨⟨⟨hclosed, hassign⟩, htarget⟩, hvalue⟩ := h
      refine (readsAs_assign p (target.readsAs_source htarget) (value.readsAs_source hvalue)).mono ?_
      rintro _ ⟨ts, pos, us, hts, hus, rfl⟩
      exact .assign p hclosed hassign hts hus
  | .binary op left right p, h => by
      simp only [Expr.isFaithful, Bool.and_eq_true, Bool.not_eq_eq_eq_not, Bool.not_true, decide_eq_true_eq] at h
      obtain ⟨⟨⟨⟨⟨hop, hne⟩, hclosed⟩, hassign⟩, hleft⟩, hright⟩ := h
      refine (readsAs_binary p hop (left.readsAs_source hleft) (right.readsAs_source hright)).mono ?_
      rintro _ ⟨opens, ts, pos, us, close, hts, hus, rfl⟩
      exact .binary p hop hne hclosed hassign hts hus
  | .letIn bindings body p, h => by
      simp only [Expr.isFaithful, Bool.and_eq_true] at h
      refine (readsAs_letIn p (readsAs_bindingSources bindings h.1) (body.readsAs_source h.2)).mono ?_
      rintro _ ⟨pos, opens, ts, close, us, hts, hus, rfl⟩
      exact .letIn p hts hus
  | .block body p, h => by
      simp only [Expr.isFaithful, Bool.and_eq_true, decide_eq_true_eq] at h
      refine (readsAs_block p (readsAs_sources body h.2)).mono ?_
      rintro _ ⟨opens, ts, close, hts, rfl⟩
      exact .block p h.1 hts
termination_by structural e => e

theorem readsAs_sources : ∀ es : List Expr, Expr.allFaithful es = true →
    ∀ e ∈ es, ReadsAs e.source.toList (Written · e)
  | [], _ => fun e he => nomatch he
  | e :: es, h => by
      simp only [Expr.allFaithful, Bool.and_eq_true] at h
      exact List.forall_mem_cons.mpr ⟨e.readsAs_source h.1, readsAs_sources es h.2⟩
termination_by structural es => es

theorem Binding.readsAs_source : ∀ b : Binding, b.isFaithful = true → ReadsAs b.source.toList (WrittenBinding · b)
  | .bare name, h => by
      refine (ReadsAs.token (readable_of_isName h)).mono ?_
      rintro _ ⟨pos, rfl⟩
      exact .bare name pos
  | .bound name init, h => by
      simp only [Binding.isFaithful, Bool.and_eq_true] at h
      refine (readsAs_bound (readable_of_isName h.1) (init.readsAs_source h.2)).mono ?_
      rintro _ ⟨pos, equals, ts, hts, rfl⟩
      exact .bound hts
termination_by structural b => b

theorem readsAs_bindingSources : ∀ bs : List Binding, Binding.allFaithful bs = true →
    ∀ b ∈ bs, ReadsAs b.source.toList (WrittenBinding · b)
  | [], _ => fun b hb => nomatch hb
  | b :: bs, h => by
      simp only [Binding.allFaithful, Bool.and_eq_true] at h
      exact List.forall_mem_cons.mpr ⟨b.readsAs_source h.1, readsAs_bindingSources bs h.2⟩
termination_by structural bs => bs

end

/-- **Writing a faithful tree out and reading it gives the tree back**, up to places, as a program of one expression. -/
theorem parse_source {e : Expr} (h : e.isFaithful = true) {depth : Nat} (hdepth : e.source.length < depth) :
    ∃ tree, parse depth e.source = .ok tree ∧ (Expr.block [e] none).agrees tree = true := by
  obtain ⟨tokens, hwritten, htokens⟩ := (e.readsAs_source h).tokenize
  have hitems : Separated .semicolon
      (fun us (a : Expr) => Parser.IsItemOf e.source (Parser.expression depth) us (a.agrees · = true)) tokens [e] :=
    .last (hwritten.isReadBack.isItemOf depth)
  rcases parse_of_takes htokens (Parser.takes_program_of_items hitems) with ⟨_, hparse, body, hbody, rfl⟩ | hdeep
  · refine ⟨_, hparse, ?_⟩
    rw [Expr.agrees]
    exact Parser.listAgrees_of_forall₂ hbody
  · have hsound := parse_sound depth e.source
    rw [hdeep] at hsound
    exact absurd hsound (Nat.not_le_of_lt hdepth)

/-- A block with an assignment of a function whose body ends with a conditional, and a call behind that. -/
theorem parse_source_block :
    let e : Expr := .block [.assign (.variable "f" none) (.lambda (some "loop") ["x"]
      (.ifThenElse (.variable "x" none) (.letIn [.bare "y"] (.variable "y" none) none) (.ifThen (.boolean false none)
        (.string "a\"b" none) none) none) none) none, .call (.variable "f" none)
      [.binary .equal (.variable "f" none) (.boolean true none) none] none] none
    e.isFaithful = true ∧
      e.source = "\x7b f = λ loop(x) if x then let (y) y else if false then \"a\\\"b\"; f((f == true)) \x7d" ∧
      e.source.length < 80 ∧ ∃ tree, parse 80 e.source = .ok tree ∧ (Expr.block [e] none).agrees tree = true := by
  intro e
  have hfaithful : e.isFaithful = true := by decide +kernel
  have hlength : e.source.length < 80 := by decide +kernel
  exact ⟨hfaithful, by decide +kernel, hlength, parse_source hfaithful hlength⟩

end LambdaScript
