import LambdaScript.Proofs.Expr.Grammar

/-!
Groupings. A chain of operators can be grouped in many ways, and a grouping is a tree with the operands at its leaves and
the operators at its nodes; read from left to right it gives the chain back. It is in order if no left child binds less
than its parent and every right child binds more strongly. Then the root is the last of the operators that bind least,
and so every chain has one grouping that is in order: the operators are put in one after the other, each on the right
edge of the tree.
-/

namespace LambdaScript

/-- A way to group a chain of operators. -/
inductive Grouping where
  | operand (operand : Expr)
  | node (op : Operator) (pos : Position) (left right : Grouping)

namespace Grouping

/-- The leftmost operand. -/
def first : Grouping → Expr
  | operand e => e
  | node _ _ left _ => left.first

/-- The operators from left to right, each with the operand behind it. -/
def links : Grouping → List Link
  | operand _ => []
  | node op pos left right => left.links ++ ⟨op, pos, right.first⟩ :: right.links

def root? : Grouping → Option Operator
  | operand _ => none
  | node op _ _ _ => some op

/-- No left child binds less than its parent, and every right child binds more strongly. -/
def IsOrdered : Grouping → Prop
  | operand _ => True
  | node op _ left right =>
    (∀ child ∈ left.root?, op.precedence ≤ child.precedence) ∧
      (∀ child ∈ right.root?, op.precedence < child.precedence) ∧ left.IsOrdered ∧ right.IsOrdered

/-- The tree of a grouping: an equals sign is an assignment, and every other operator is itself. -/
def toExpr : Grouping → Expr
  | operand e => e
  | node op pos left right =>
    if op = .assign then .assign left.toExpr right.toExpr (some pos)
    else .binary op left.toExpr right.toExpr (some pos)

/-! ### Uniqueness -/

/-- In a grouping that is in order, what the root does not fall below nothing does. -/
theorem IsOrdered.le_links {tree : Grouping} (h : tree.IsOrdered) {bound : Nat}
    (hroot : ∀ root ∈ tree.root?, bound ≤ root.precedence) : ∀ link ∈ tree.links, bound ≤ link.op.precedence := by
  induction tree with
  | operand e => exact List.forall_mem_nil _
  | node op pos left right ihleft ihright =>
      obtain ⟨hleft, hright, hleftOrdered, hrightOrdered⟩ := h
      have hop : bound ≤ op.precedence := hroot op rfl
      intro link hlink
      rcases List.mem_append.mp hlink with hlink | hlink
      · exact ihleft hleftOrdered (fun child hchild => Nat.le_trans hop (hleft child hchild)) link hlink
      · rcases List.mem_cons.mp hlink with rfl | hlink
        · exact hop
        · exact ihright hrightOrdered (fun child hchild => Nat.le_trans hop (Nat.le_of_lt (hright child hchild))) link
            hlink

/-- A chain can be cut in only one way at an operator that binds no more strongly than those before it and less than
those behind it. -/
theorem cut_unique {before after before' after' : List Link} {link link' : Link}
    (h : before ++ link :: after = before' ++ link' :: after')
    (hbefore : ∀ other ∈ before, link.op.precedence ≤ other.op.precedence)
    (hafter : ∀ other ∈ after, link.op.precedence < other.op.precedence)
    (hbefore' : ∀ other ∈ before', link'.op.precedence ≤ other.op.precedence)
    (hafter' : ∀ other ∈ after', link'.op.precedence < other.op.precedence) :
    before = before' ∧ link = link' ∧ after = after' := by
  have hapart {before after' : List Link} {link link' : Link} {between : List Link}
      (hbefore' : ∀ other ∈ before ++ link :: between, link'.op.precedence ≤ other.op.precedence)
      (hafter : ∀ other ∈ between ++ link' :: after', link.op.precedence < other.op.precedence) : False := by
    have hle := hbefore' link (List.mem_append_right before List.mem_cons_self)
    have hlt := hafter link' (List.mem_append_right between List.mem_cons_self)
    omega
  rcases List.append_eq_append_iff.mp h with ⟨between, rfl, hrest⟩ | ⟨between, rfl, hrest⟩
  · cases between with
    | nil =>
        obtain ⟨rfl, rfl⟩ := List.cons.inj hrest
        exact ⟨(List.append_nil before).symm, rfl, rfl⟩
    | cons other between =>
        obtain ⟨rfl, rfl⟩ := List.cons.inj hrest
        exact (hapart hbefore' hafter).elim
  · cases between with
    | nil =>
        obtain ⟨rfl, rfl⟩ := List.cons.inj hrest
        exact ⟨List.append_nil before', rfl, rfl⟩
    | cons other between =>
        obtain ⟨rfl, rfl⟩ := List.cons.inj hrest
        exact (hapart hbefore hafter').elim

/-- **A chain has no more than one grouping that is in order.** -/
theorem IsOrdered.unique {tree other : Grouping} (h : tree.IsOrdered) (hother : other.IsOrdered)
    (hfirst : tree.first = other.first) (hlinks : tree.links = other.links) : tree = other := by
  induction tree generalizing other with
  | operand e =>
      cases other with
      | operand e' => exact congrArg operand hfirst
      | node op pos left right => exact absurd hlinks.symm (by simp [links])
  | node op pos left right ihleft ihright =>
      cases other with
      | operand e' => exact absurd hlinks (by simp [links])
      | node op' pos' left' right' =>
          obtain ⟨hleft, hright, hleftOrdered, hrightOrdered⟩ := h
          obtain ⟨hleft', hright', hleftOrdered', hrightOrdered'⟩ := hother
          obtain ⟨hbefore, hroot, hafter⟩ := cut_unique hlinks (hleftOrdered.le_links hleft)
            (hrightOrdered.le_links hright) (hleftOrdered'.le_links hleft') (hrightOrdered'.le_links hright')
          obtain ⟨rfl, rfl, hrightFirst⟩ := Link.mk.inj hroot
          rw [ihleft hleftOrdered hleftOrdered' hfirst hbefore,
            ihright hrightOrdered hrightOrdered' hrightFirst hafter]

/-! ### Existence -/

/-- Puts an operator with its operand in behind a grouping: it goes down the right edge as long as the operators there
bind less. -/
def push (link : Link) : Grouping → Grouping
  | operand e => node link.op link.pos (operand e) (operand link.operand)
  | node op pos left right =>
    if op.precedence < link.op.precedence then node op pos left (right.push link)
    else node link.op link.pos (node op pos left right) (operand link.operand)

/-- The grouping of a chain that is in order. -/
def ofChain (first : Expr) (links : List Link) : Grouping := links.foldl (fun tree link => tree.push link) (operand first)

theorem first_push (link : Link) (tree : Grouping) : (tree.push link).first = tree.first := by
  cases tree with
  | operand e => rfl
  | node op pos left right =>
      rw [push]
      split <;> rfl

theorem links_push (link : Link) (tree : Grouping) : (tree.push link).links = tree.links ++ [link] := by
  induction tree with
  | operand e => rfl
  | node op pos left right _ ih =>
      rw [push]
      split
      · rw [links, ih, first_push, links, List.append_assoc, List.cons_append]
      · rfl

/-- The root of what an operator is put into stays or becomes that operator. -/
theorem root?_push (link : Link) (tree : Grouping) :
    ∀ root ∈ (tree.push link).root?, root = link.op ∨ root ∈ tree.root? := by
  cases tree with
  | operand e =>
      rintro root ⟨⟩
      exact .inl rfl
  | node op pos left right =>
      rw [push]
      split
      · rintro root ⟨⟩
        exact .inr rfl
      · rintro root ⟨⟩
        exact .inl rfl

theorem isOrdered_push (link : Link) {tree : Grouping} (h : tree.IsOrdered) : (tree.push link).IsOrdered := by
  induction tree with
  | operand e => exact ⟨nofun, nofun, trivial, trivial⟩
  | node op pos left right _ ih =>
      obtain ⟨hleft, hright, hleftOrdered, hrightOrdered⟩ := h
      rw [push]
      split
      · next hweaker =>
        refine ⟨hleft, fun child hchild => ?_, hleftOrdered, ih hrightOrdered⟩
        rcases root?_push link right child hchild with rfl | hchild
        · exact hweaker
        · exact hright child hchild
      · next hstronger =>
        refine ⟨?_, nofun, ⟨hleft, hright, hleftOrdered, hrightOrdered⟩, trivial⟩
        rintro child ⟨⟩
        exact Nat.le_of_not_lt hstronger

/-- **Every chain has a grouping that is in order.** -/
theorem ofChain_spec (first : Expr) (links : List Link) :
    (ofChain first links).first = first ∧ (ofChain first links).links = links ∧ (ofChain first links).IsOrdered := by
  have hfold (links : List Link) (tree : Grouping) (htree : tree.IsOrdered) :
      let whole := links.foldl (fun tree link => tree.push link) tree
      whole.first = tree.first ∧ whole.links = tree.links ++ links ∧ whole.IsOrdered := by
    induction links generalizing tree with
    | nil => exact ⟨rfl, (List.append_nil _).symm, htree⟩
    | cons link links ih =>
        obtain ⟨hfirst, hlinks, hordered⟩ := ih (tree.push link) (isOrdered_push link htree)
        refine ⟨hfirst.trans (first_push link tree), hlinks.trans ?_, hordered⟩
        rw [links_push, List.append_assoc, List.singleton_append]
  exact hfold links (operand first) trivial

example (x a b c d : Expr) (p q r s : Position) :
    (ofChain x [⟨.assign, p, a⟩, ⟨.subtract, q, b⟩, ⟨.multiply, r, c⟩, ⟨.subtract, s, d⟩]).toExpr =
      .assign x (.binary .subtract (.binary .subtract a (.binary .multiply b c (some r)) (some q)) d (some s))
        (some p) := rfl

/-! ### Trees of the grammar -/

theorem exists_link_of_root {tree : Grouping} {root : Operator} (h : root ∈ tree.root?) :
    ∃ link ∈ tree.links, link.op = root := by
  cases tree with
  | operand e => cases h
  | node op pos left right =>
      cases h
      exact ⟨⟨root, pos, right.first⟩, List.mem_append_right _ List.mem_cons_self, rfl⟩

theorem toExpr_node {op : Operator} {pos : Position} {left right : Grouping} {e : Expr}
    (h : OperatorTree pos left.toExpr right.toExpr op e) : (node op pos left right).toExpr = e := by
  rw [toExpr]
  cases h with
  | assign => exact if_pos rfl
  | binary hop => exact if_neg hop

end Grouping

/-- A tree of a chain is that of a grouping in order. -/
theorem Grouped.exists_grouping {first e : Expr} {links : List Link} (h : Grouped first links e) :
    ∃ tree : Grouping, tree.first = first ∧ tree.links = links ∧ tree.IsOrdered ∧ tree.toExpr = e := by
  induction h with
  | operand first => exact ⟨.operand first, rfl, rfl, trivial, rfl⟩
  | @node first left right e before after link _ _ hbefore hafter htree ihleft ihright =>
      obtain ⟨l, hlfirst, rfl, hlordered, rfl⟩ := ihleft
      obtain ⟨r, hrfirst, rfl, hrordered, rfl⟩ := ihright
      refine ⟨.node link.op link.pos l r, hlfirst, ?_, ⟨?_, ?_, hlordered, hrordered⟩, Grouping.toExpr_node htree⟩
      · rw [Grouping.links, hrfirst]
      · intro child hchild
        obtain ⟨other, hmem, rfl⟩ := Grouping.exists_link_of_root hchild
        exact hbefore other hmem
      · intro child hchild
        obtain ⟨other, hmem, rfl⟩ := Grouping.exists_link_of_root hchild
        exact hafter other hmem

/-- So a chain has just one tree. -/
theorem Grouped.eq_ofChain {first e : Expr} {links : List Link} (h : Grouped first links e) :
    e = (Grouping.ofChain first links).toExpr := by
  obtain ⟨tree, hfirst, hlinks, hordered, rfl⟩ := h.exists_grouping
  obtain ⟨hfirst', hlinks', hordered'⟩ := Grouping.ofChain_spec first links
  rw [hordered.unique hordered' (hfirst.trans hfirst'.symm) (hlinks.trans hlinks'.symm)]

end LambdaScript
