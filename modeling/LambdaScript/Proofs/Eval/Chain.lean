import LambdaScript.Proofs.Eval.Store
import LambdaScript.Proofs.Expr.Site

/-!
Chains of scopes and frames of names. The chain from a scope up to the root matches some frames if it has one
scope for each of them, which owns just the names of the frame, and then the root. A search along such a chain
finds what the frames say. Scopes other than the root never own other names than at first, so chains go on to
match as a store grows.
-/

namespace LambdaScript.Store

/-- The chain from a scope has, scope by scope, just the names of some frames, and then ends at the root. -/
inductive Matches (store : Store) : ScopeId → Frames → Prop where
  | root (hroot : store.parent? root = none) : Matches store root []
  | inner {scope parent : ScopeId} {frame : List String} {frames : Frames}
      (hnames : ∀ name, name ∈ (store.vars scope).names ↔ name ∈ frame) (hparent : store.parent? scope = some parent)
      (holder : parent < scope) (hrest : Matches store parent frames) : Matches store scope (frame :: frames)

/-- The scope some steps up from a scope. -/
def ancestor? (store : Store) (scope : ScopeId) : Nat → Option ScopeId
  | 0 => some scope
  | steps + 1 => (store.parent? scope).bind (store.ancestor? · steps)

variable {store : Store} {scope : ScopeId} {frames : Frames} {name : String}

theorem lookup_of_mem (h : name ∈ (store.vars scope).names) : store.lookup scope name = some scope := by
  rw [lookup, if_pos (Vars.isSome_get?.mpr h)]

theorem lookup_of_not_mem {parent : ScopeId} (h : name ∉ (store.vars scope).names)
    (hparent : store.parent? scope = some parent) (holder : parent < scope) :
    store.lookup scope name = store.lookup parent name := by
  rw [lookup, if_neg fun hsome => h (Vars.isSome_get?.mp hsome)]
  simp only [hparent, if_pos holder]

theorem lookup_root (hroot : store.parent? root = none) (h : name ∉ (store.vars root).names) :
    store.lookup root name = none := by
  rw [lookup, if_neg fun hsome => h (Vars.isSome_get?.mp hsome)]
  simp only [hroot]

/-- A search along a chain that matches some frames ends at the scope of the first frame with the name. -/
theorem Matches.lookup_of_binder {steps : Nat} (h : store.Matches scope frames)
    (hbinder : frames.binder? name = some steps) :
    ∃ owner, store.ancestor? scope steps = some owner ∧ name ∈ (store.vars owner).names ∧
      store.lookup scope name = some owner := by
  unfold Frames.binder? at hbinder
  induction h generalizing steps with
  | root => cases hbinder
  | @inner scope parent frame frames hnames hparent holder _ ih =>
      rw [List.findIdx?_cons] at hbinder
      by_cases hframe : name ∈ frame
      · rw [if_pos (by simpa using hframe)] at hbinder
        cases hbinder
        have howns := (hnames name).mpr hframe
        exact ⟨scope, rfl, howns, lookup_of_mem howns⟩
      · rw [if_neg (by simpa using hframe)] at hbinder
        obtain ⟨inner, hinner, rfl⟩ := Option.map_eq_some_iff.mp hbinder
        obtain ⟨owner, hancestor, howns, hlookup⟩ := ih hinner
        refine ⟨owner, ?_, howns, ?_⟩
        · rw [ancestor?, hparent]
          exact hancestor
        · rw [lookup_of_not_mem (fun hmem => hframe ((hnames name).mp hmem)) hparent holder]
          exact hlookup

/-- Without such a frame the search goes up to the root. -/
theorem Matches.lookup_of_no_binder (h : store.Matches scope frames) (hbinder : frames.binder? name = none) :
    store.lookup scope name = store.lookup Store.root name := by
  unfold Frames.binder? at hbinder
  induction h with
  | root => rfl
  | @inner scope parent frame frames hnames hparent holder _ ih =>
      rw [List.findIdx?_cons] at hbinder
      by_cases hframe : name ∈ frame
      · rw [if_pos (by simpa using hframe)] at hbinder
        cases hbinder
      · rw [if_neg (by simpa using hframe)] at hbinder
        rw [lookup_of_not_mem (fun hmem => hframe ((hnames name).mp hmem)) hparent holder]
        exact ih (Option.map_eq_none_iff.mp hbinder)

theorem Matches.root_has_no_parent (h : store.Matches scope frames) : store.parent? Store.root = none := by
  induction h with
  | root hroot => exact hroot
  | inner _ _ _ _ ih => exact ih

theorem Matches.isRoot_iff (h : store.Matches scope frames) : store.isRoot scope = true ↔ frames = [] := by
  unfold isRoot
  cases h with
  | root hroot => simp [hroot]
  | inner _ hparent => simp [hparent]

/-- Where a name is found from a scope, as the frames around it say: in the scope of the innermost frame with
the name, or else in the root. A name that is in neither has no value, and only outside of all frames can it
be given one; it goes to the root then. -/
def Resolves (store : Store) (scope : ScopeId) (frames : Frames) (name : String) : Prop :=
  match frames.binder? name with
  | some steps => ∃ owner, store.ancestor? scope steps = some owner ∧ name ∈ (store.vars owner).names ∧
      store.read scope name = (store.vars owner).get? name ∧ store.ownerFor? scope name = some owner
  | none => store.read scope name = (store.vars root).get? name ∧
      store.ownerFor? scope name =
        if name ∈ (store.vars root).names ∨ frames = [] then some root else none

theorem read_of_lookup {owner : ScopeId} (h : store.lookup scope name = some owner) :
    store.read scope name = (store.vars owner).get? name := by
  rw [read, h]
  rfl

theorem ownerFor?_of_lookup {owner : ScopeId} (h : store.lookup scope name = some owner) :
    store.ownerFor? scope name = some owner := by
  rw [ownerFor?, h]

/-- **Looking a name up along a chain is resolving it in the frames that the chain matches.** -/
theorem Matches.resolves (h : store.Matches scope frames) (name : String) :
    store.Resolves scope frames name := by
  unfold Resolves
  cases hbinder : frames.binder? name with
  | some steps =>
      obtain ⟨owner, hancestor, howns, hlookup⟩ := h.lookup_of_binder hbinder
      exact ⟨owner, hancestor, howns, read_of_lookup hlookup, ownerFor?_of_lookup hlookup⟩
  | none =>
      have hlookup := h.lookup_of_no_binder hbinder
      by_cases howns : name ∈ (store.vars Store.root).names
      · rw [lookup_of_mem howns] at hlookup
        refine ⟨read_of_lookup hlookup, ?_⟩
        rw [ownerFor?_of_lookup hlookup, if_pos (.inl howns)]
      · have hnone : (store.vars Store.root).get? name = none := by
          rw [← Option.not_isSome_iff_eq_none, Vars.isSome_get?]
          exact howns
        rw [lookup_root h.root_has_no_parent howns] at hlookup
        constructor
        · rw [read, hlookup, hnone]
          rfl
        · rw [ownerFor?, hlookup]
          simp only [h.isRoot_iff, howns, false_or]
          split
          · next hframes =>
            subst hframes
            cases h
            rfl
          · rfl

/-- A name that is not found from a scope is in no frame, and the root does not own it. -/
theorem Matches.unbound_of_read (h : store.Matches scope frames) (hread : store.read scope name = none) :
    frames.binder? name = none ∧ name ∉ (store.vars Store.root).names := by
  have hresolves := h.resolves name
  unfold Resolves at hresolves
  split at hresolves
  · obtain ⟨owner, -, howns, hvalue, -⟩ := hresolves
    have hsome := Vars.isSome_get?.mpr howns
    rw [← hvalue, hread] at hsome
    cases hsome
  · next hbinder =>
    refine ⟨hbinder, fun howns => ?_⟩
    have hsome := Vars.isSome_get?.mpr howns
    rw [← hresolves.1, hread] at hsome
    cases hsome

theorem Matches.unbound_of_ownerFor? (h : store.Matches scope frames)
    (howner : store.ownerFor? scope name = none) :
    frames.binder? name = none ∧ name ∉ (store.vars Store.root).names := by
  have hresolves := h.resolves name
  unfold Resolves at hresolves
  split at hresolves
  · obtain ⟨owner, -, -, -, hsome⟩ := hresolves
    rw [howner] at hsome
    cases hsome
  · next hbinder =>
    refine ⟨hbinder, fun howns => ?_⟩
    have hsome := hresolves.2
    rw [howner, if_pos (.inl howns)] at hsome
    cases hsome

/-! ### What a name means -/

/-- The scope that keeps what a name means behind some frames: that of the innermost frame with the name, or
else the root. -/
def holder? (store : Store) (scope : ScopeId) (frames : Frames) (name : String) : Option ScopeId :=
  match frames.binder? name with
  | some steps => store.ancestor? scope steps
  | none => some root

/-- Nothing but one binding of a store is overwritten, or made if it was not there. -/
structure Overwrites (before after : Store) (owner : ScopeId) (name : String) (value : Value) : Prop where
  value : (after.vars owner).get? name = some value
  others : ∀ scope other, scope ≠ owner ∨ other ≠ name →
    (after.vars scope).get? other = (before.vars scope).get? other
  parents : ∀ scope, after.parent? scope = before.parent? scope
  size : after.scopes.size = before.scopes.size

/-- A value that is read is the one that the name means. -/
theorem Matches.holder?_of_read {value : Value} (h : store.Matches scope frames)
    (hread : store.read scope name = some value) :
    ∃ owner, store.holder? scope frames name = some owner ∧ (store.vars owner).get? name = some value := by
  have hresolves := h.resolves name
  unfold Resolves at hresolves
  unfold holder?
  split at hresolves
  · obtain ⟨owner, hancestor, -, hvalue, -⟩ := hresolves
    exact ⟨owner, hancestor, hvalue.symm.trans hread⟩
  · exact ⟨Store.root, rfl, hresolves.1.symm.trans hread⟩

/-- What takes a new value for a name is what keeps the meaning of the name. It has the name already, or the
name is used outside of all frames. -/
theorem Matches.holder?_of_ownerFor? {owner : ScopeId} (h : store.Matches scope frames)
    (howner : store.ownerFor? scope name = some owner) :
    store.holder? scope frames name = some owner ∧ (name ∈ (store.vars owner).names ∨ frames = []) := by
  have hresolves := h.resolves name
  unfold Resolves at hresolves
  unfold holder?
  split at hresolves
  · obtain ⟨other, hancestor, howns, -, hother⟩ := hresolves
    obtain rfl : other = owner := Option.some.inj (hother.symm.trans howner)
    exact ⟨hancestor, .inl howns⟩
  · have hroot := hresolves.2
    rw [howner] at hroot
    split at hroot
    · next hbound =>
      cases hroot
      exact ⟨rfl, hbound⟩
    · cases hroot

/-- What takes a new value for a name owns the name already or is the root. -/
theorem Matches.owns_of_ownerFor? {owner : ScopeId} (h : store.Matches scope frames)
    (howner : store.ownerFor? scope name = some owner) :
    name ∈ (store.vars owner).names ∨ store.parent? owner = none := by
  obtain ⟨hholder, howns | rfl⟩ := h.holder?_of_ownerFor? howner
  · exact .inl howns
  · cases hholder
    exact .inr h.root_has_no_parent

theorem lt_size_of_mem_names {owner : ScopeId} (h : name ∈ (store.vars owner).names) :
    owner < store.scopes.size := by
  apply Nat.lt_of_not_le
  intro hsize
  rw [vars_of_size_le hsize] at h
  cases h

theorem Matches.lt_size_of_ownerFor? {owner : ScopeId} (h : store.Matches scope frames)
    (hsize : 0 < store.scopes.size) (howner : store.ownerFor? scope name = some owner) :
    owner < store.scopes.size := by
  obtain ⟨hholder, howns | rfl⟩ := h.holder?_of_ownerFor? howner
  · exact lt_size_of_mem_names howns
  · cases hholder
    exact hsize

theorem overwrites_define {owner : ScopeId} {value : Value} (h : owner < store.scopes.size) :
    store.Overwrites (store.define owner name value) owner name value := by
  constructor
  · rw [vars_define_self h]
    exact Vars.get?_set_self _ name value
  · intro scope other hother
    by_cases hsame : scope = owner
    · subst hsame
      rw [vars_define_self h]
      exact Vars.get?_set_of_ne _ value (hother.resolve_left fun hne => hne rfl)
    · rw [vars_define_of_ne hsame]
  · exact fun scope => parent?_define
  · exact size_define

/-! ### Growth -/

/-- A store that a program may leave behind: the root is still the root, and all scopes below it have the
parents and the names that they had. -/
structure Grows (before after : Store) : Prop where
  size : before.scopes.size ≤ after.scopes.size
  root : after.parent? root = before.parent? root
  parent : ∀ scope parent, before.parent? scope = some parent → after.parent? scope = some parent
  names : ∀ scope parent, before.parent? scope = some parent →
    ∀ name, name ∈ (after.vars scope).names ↔ name ∈ (before.vars scope).names

theorem Grows.refl (store : Store) : store.Grows store :=
  ⟨Nat.le_refl _, rfl, fun _ _ hparent => hparent, fun _ _ _ _ => Iff.rfl⟩

theorem Grows.trans {first second third : Store} (h : first.Grows second) (h' : second.Grows third) :
    first.Grows third := by
  constructor
  · exact Nat.le_trans h.size h'.size
  · exact h'.root.trans h.root
  · intro scope parent hparent
    exact h'.parent scope parent (h.parent scope parent hparent)
  · intro scope parent hparent name
    rw [h'.names scope parent (h.parent scope parent hparent) name]
    exact h.names scope parent hparent name

theorem Matches.mono {before after : Store} (h : before.Matches scope frames) (hgrows : before.Grows after) :
    after.Matches scope frames := by
  induction h with
  | root hroot => exact .root (hgrows.root.trans hroot)
  | @inner scope parent frame frames hnames hparent holder _ ih =>
      refine .inner (fun name => ?_) (hgrows.parent scope parent hparent) holder ih
      exact (hgrows.names scope parent hparent name).trans (hnames name)

theorem parent?_size_le {other : ScopeId} (h : store.scopes.size ≤ other) : store.parent? other = none := by
  simp [parent?, Array.getElem?_eq_none h]

theorem lt_size_of_parent? {parent : ScopeId} (h : store.parent? scope = some parent) :
    scope < store.scopes.size := by
  apply Nat.lt_of_not_le
  intro hsize
  rw [parent?_size_le hsize] at h
  cases h

/-- Opening a scope below the root makes a store grow. -/
theorem grows_extend {parent : ScopeId} {vars : Vars} (hsize : 0 < store.scopes.size) :
    store.Grows (store.extend parent vars).1 := by
  constructor
  · rw [size_extend]
    exact Nat.le_succ _
  · exact parent?_extend_of_ne (Nat.ne_of_lt hsize)
  · intro scope outer houter
    rw [parent?_extend_of_ne (Nat.ne_of_lt (lt_size_of_parent? houter))]
    exact houter
  · intro scope outer houter name
    rw [vars_extend_of_ne (Nat.ne_of_lt (lt_size_of_parent? houter))]

/-- Giving a name a value makes a store grow, if the scope has the name already or is the root. -/
theorem grows_define {value : Value} (h : name ∈ (store.vars scope).names ∨ store.parent? scope = none) :
    store.Grows (store.define scope name value) := by
  constructor
  · exact Nat.le_of_eq size_define.symm
  · exact parent?_define
  · intro other outer houter
    rw [parent?_define]
    exact houter
  · intro other outer houter found
    by_cases hsame : other = scope
    · subst hsame
      have howns : name ∈ (store.vars other).names := by
        apply h.resolve_right
        rw [houter]
        exact Option.some_ne_none outer
      rw [vars_define_self (lt_size_of_parent? houter), Vars.mem_names_set]
      constructor
      · intro hmem
        rcases hmem with rfl | hmem
        · exact howns
        · exact hmem
      · exact .inr
    · rw [vars_define_of_ne hsame]

/-- A new scope behind a chain is a chain. -/
theorem Matches.extend {parent : ScopeId} {vars : Vars} {frame : List String}
    (h : store.Matches parent frames)
    (hnames : ∀ name, name ∈ vars.names ↔ name ∈ frame) (hsize : parent < store.scopes.size) :
    (store.extend parent vars).1.Matches store.scopes.size (frame :: frames) := by
  refine .inner (fun name => ?_) parent?_extend_self hsize (h.mono (grows_extend (Nat.zero_lt_of_lt hsize)))
  rw [vars_extend_self]
  exact hnames name

theorem Matches.lt_size (h : store.Matches scope frames) (hsize : 0 < store.scopes.size) :
    scope < store.scopes.size := by
  cases h with
  | root => exact hsize
  | inner _ hparent => exact lt_size_of_parent? hparent

end LambdaScript.Store
