import LambdaScript.Expr.Basic

/-!
Occurrences of nodes and the binders around them. A node occurs in one of some programs, at the end of a path
from its root. What surrounds it there binds names: frame by frame, innermost first, the parameters of a
function and then its own name, and the name of each binding of a let that is in force. All this is syntax;
nothing is evaluated.
-/

namespace LambdaScript

/-- The names that the binders around an occurrence bind, innermost first. -/
abbrev Frames := List (List String)

/-- The frame of the own name of a function, if it has one. -/
def ownFrame : Option String → Frames
  | none => []
  | some name => [[name]]

/-- The frames inside some bindings of a let, one for each. -/
def bindingFrames (bindings : List Binding) (frames : Frames) : Frames :=
  bindings.foldl (fun outer binding => [binding.name] :: outer) frames

/-- How many frames further out the innermost binder of a name is. -/
def Frames.binder? (frames : Frames) (name : String) : Option Nat := frames.findIdx? (name ∈ ·)

/-- A node and the frames around it. -/
structure Site where
  node : Expr
  frames : Frames

namespace Site

/-- A part of a node, counted from the left. The initial value of a binding sees the bindings before it, and
the body of a let sees all of them. -/
def part? (site : Site) (k : Nat) : Option Site :=
  match site.node with
  | .lambda name params body _ => if k = 0 then some ⟨body, params :: (ownFrame name ++ site.frames)⟩ else none
  | .letIn bindings body _ =>
    if k = bindings.length then some ⟨body, bindingFrames bindings site.frames⟩
    else (bindings[k]?.bind Binding.init?).map fun init => ⟨init, bindingFrames (bindings.take k) site.frames⟩
  | .call callee args _ => (callee :: args)[k]?.map (⟨·, site.frames⟩)
  | .ifThen test consequent _ => [test, consequent][k]?.map (⟨·, site.frames⟩)
  | .ifThenElse test consequent alternative _ => [test, consequent, alternative][k]?.map (⟨·, site.frames⟩)
  | .assign target value _ => [target, value][k]?.map (⟨·, site.frames⟩)
  | .binary _ left right _ => [left, right][k]?.map (⟨·, site.frames⟩)
  | .block body _ => body[k]?.map (⟨·, site.frames⟩)
  | .number .. | .string .. | .boolean .. | .variable .. => none

theorem part?_init {bindings : List Binding} {body init : Expr} {pos : Option Position} {frames : Frames}
    {k : Nat} {name : String} (h : bindings[k]? = some (.bound name init)) :
    part? ⟨.letIn bindings body pos, frames⟩ k = some ⟨init, bindingFrames (bindings.take k) frames⟩ := by
  obtain ⟨hlt, -⟩ := List.getElem?_eq_some_iff.mp h
  simp only [part?, if_neg (Nat.ne_of_lt hlt), h]
  rfl

theorem part?_letBody {bindings : List Binding} {body : Expr} {pos : Option Position} {frames : Frames} :
    part? ⟨.letIn bindings body pos, frames⟩ bindings.length = some ⟨body, bindingFrames bindings frames⟩ :=
  if_pos rfl

end Site

/-- Where a node occurs: the number of a program and the parts to go down to. -/
structure Occurrence where
  program : Nat
  path : List Nat

namespace Occurrence

/-- A part of what occurs somewhere. -/
def part (o : Occurrence) (k : Nat) : Occurrence := ⟨o.program, o.path ++ [k]⟩

/-- What occurs at a place in some programs, and the frames around it. -/
def site? (programs : List Expr) (o : Occurrence) : Option Site :=
  programs[o.program]?.bind fun program => o.path.foldlM Site.part? ⟨program, []⟩

theorem site?_part {programs : List Expr} {o : Occurrence} {k : Nat} :
    (o.part k).site? programs = (o.site? programs).bind (·.part? k) := by
  unfold site? part
  cases programs[o.program]? with
  | none => rfl
  | some program =>
      simp only [Option.bind_some, List.foldlM_append, List.foldlM_cons, List.foldlM_nil]
      cases o.path.foldlM Site.part? ⟨program, []⟩ with
      | none => rfl
      | some site => simp

/-- More programs do not change what occurs in the first ones. -/
theorem site?_mono {programs more : List Expr} {o : Occurrence} {site : Site} (hmore : programs <+: more)
    (h : o.site? programs = some site) : o.site? more = some site := by
  obtain ⟨program, hprogram, hpath⟩ := Option.bind_eq_some_iff.mp h
  obtain ⟨rest, rfl⟩ := hmore
  have hmore : (programs ++ rest)[o.program]? = some program := by
    obtain ⟨hlt, -⟩ := List.getElem?_eq_some_iff.mp hprogram
    rw [List.getElem?_append_left hlt]
    exact hprogram
  unfold site?
  rw [hmore]
  exact hpath

/-- The parts of an occurrence from the `k`-th one on are some nodes, all in the same frames. -/
def HasParts (o : Occurrence) (programs : List Expr) (k : Nat) (frames : Frames) (es : List Expr) : Prop :=
  ∀ i e, es[i]? = some e → (o.part (k + i)).site? programs = some ⟨e, frames⟩

/-- The parts of an occurrence from the `k`-th one on are the initial values of some bindings, each in the frames of
the bindings before it. -/
def HasInits (o : Occurrence) (programs : List Expr) (k : Nat) (frames : Frames) (bs : List Binding) : Prop :=
  ∀ i name init, bs[i]? = some (.bound name init) →
    (o.part (k + i)).site? programs = some ⟨init, bindingFrames (bs.take i) frames⟩

variable {programs more : List Expr} {o : Occurrence} {k : Nat} {frames : Frames}

theorem HasParts.tail {e : Expr} {es : List Expr} (h : o.HasParts programs k frames (e :: es)) :
    o.HasParts programs (k + 1) frames es := by
  intro i e hi
  rw [Nat.add_assoc, Nat.add_comm 1 i]
  exact h (i + 1) e hi

theorem HasParts.mono {es : List Expr} (h : o.HasParts programs k frames es) (hmore : programs <+: more) :
    o.HasParts more k frames es := by
  intro i e hi
  exact site?_mono hmore (h i e hi)

theorem HasInits.tail {b : Binding} {bs : List Binding} (h : o.HasInits programs k frames (b :: bs)) :
    o.HasInits programs (k + 1) ([b.name] :: frames) bs := by
  intro i name init hi
  rw [Nat.add_assoc, Nat.add_comm 1 i]
  exact h (i + 1) name init hi

theorem HasInits.mono {bs : List Binding} (h : o.HasInits programs k frames bs) (hmore : programs <+: more) :
    o.HasInits more k frames bs := by
  intro i name init hi
  exact site?_mono hmore (h i name init hi)

end Occurrence

end LambdaScript
