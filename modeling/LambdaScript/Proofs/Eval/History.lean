import LambdaScript.Proofs.Eval.Chain
import Mathlib.Data.List.Dedup
import Mathlib.Data.List.Find

/-!
Histories of scopes. From a lone root on, scopes are opened below scopes, and names are defined, rebound, read and
looked up in them, in any order. What a scope owns is told by the writes to it alone: its names stand in the order of
their first writes, and each has the value of its latest one. A search goes up the scopes to the root, and a write to
one of them is seen from just those scopes whose search ends there.
-/

namespace LambdaScript.Store

/-! ### Requests to scopes -/

/-- What can be asked of a scope. -/
inductive Request where
  | extend (scope : ScopeId)
  | define (scope : ScopeId) (name : String) (value : Value)
  | rebind (scope : ScopeId) (name : String) (value : Value)
  | read (scope : ScopeId) (name : String)
  | lookup (scope : ScopeId) (name : String)

def Request.scope : Request → ScopeId
  | extend scope | define scope _ _ | rebind scope _ _ | read scope _ | lookup scope _ => scope

/-- The outcome of a request; where a value or a new owner is asked for, the name may be undefined. -/
inductive Reply where
  | scope (scope? : Option ScopeId)
  | value (value : Value)
  | undefined

/-- The reply to a request, and the scopes after it. -/
def serve (store : Store) : Request → Reply × Store
  | .extend scope => (.scope (some (store.extend scope []).2), (store.extend scope []).1)
  | .define scope name value => (.value value, store.define scope name value)
  | .rebind scope name value =>
    match store.rebind scope name value with
    | some after => (.value value, after)
    | none => (.undefined, store)
  | .read scope name => ((store.read scope name).elim .undefined .value, store)
  | .lookup scope name => (.scope (store.lookup scope name), store)

/-- A value that was given to a name in a scope. -/
structure Write where
  scope : ScopeId
  name : String
  value : Value

/-- What a request writes. -/
def written (store : Store) : Request → List Write
  | .define scope name value => [⟨scope, name, value⟩]
  | .rebind scope name value => (store.ownerFor? scope name).toList.map fun owner => ⟨owner, name, value⟩
  | _ => []

/-- A store that requests lead to from a lone root, and all that they wrote, the latest first. -/
inductive Reached : Store → List Write → Prop where
  | root : Reached (ofRoot []) []
  | served {store : Store} {writes : List Write} (h : Reached store writes) {request : Request}
      (hscope : request.scope < store.scopes.size) :
      Reached (store.serve request).2 (store.written request ++ writes)

/-- The latest value that was written to a name in a scope. -/
def latest (writes : List Write) (scope : ScopeId) (name : String) : Option Value :=
  (writes.find? fun write => write.scope = scope ∧ write.name = name).map Write.value

/-- The names that were written to in a scope, in the order of the first writes to them. -/
def firstNames (writes : List Write) (scope : ScopeId) : List String :=
  ((writes.filter fun write => write.scope = scope).map Write.name).dedup.reverse

/-- The scopes from a scope up to the root. -/
inductive Path (store : Store) : ScopeId → List ScopeId → Prop where
  | root (hroot : store.parent? root = none) : Path store root [root]
  | up {scope parent : ScopeId} {path : List ScopeId} (hparent : store.parent? scope = some parent)
      (hrest : Path store parent path) : Path store scope (scope :: path)

variable {store after : Store} {writes : List Write} {scope owner parent : ScopeId} {name : String} {value : Value}
  {path : List ScopeId}

theorem latest_cons (write : Write) (writes : List Write) (scope : ScopeId) (name : String) :
    latest (write :: writes) scope name =
      if write.scope = scope ∧ write.name = name then some write.value else latest writes scope name := by
  unfold latest
  rw [List.find?_cons]
  by_cases hwrite : write.scope = scope ∧ write.name = name
  · simp [hwrite]
  · simp [hwrite]

theorem firstNames_cons_of_ne {write : Write} (h : write.scope ≠ scope) :
    firstNames (write :: writes) scope = firstNames writes scope := by
  simp [firstNames, h]

/-- A name that is written to again keeps its place, and a new one goes to the end. -/
theorem firstNames_cons_self (write : Write) : firstNames (write :: writes) write.scope =
    if write.name ∈ firstNames writes write.scope then firstNames writes write.scope
    else firstNames writes write.scope ++ [write.name] := by
  have hfilter : (write :: writes).filter (fun other => other.scope = write.scope) =
      write :: writes.filter (fun other => other.scope = write.scope) := by simp
  unfold firstNames
  rw [hfilter, List.map_cons]
  simp only [List.mem_reverse, List.mem_dedup]
  split
  · next hmem => rw [List.dedup_cons_of_mem hmem]
  · next hmem => rw [List.dedup_cons_of_notMem hmem, List.reverse_cons]

/-! ### Searches along a path -/

section

variable (holder : ∀ scope parent, store.parent? scope = some parent → parent < scope)

include holder

theorem Path.le (h : store.Path scope path) : ∀ t ∈ path, t ≤ scope := by
  induction h with
  | root => simp
  | @up scope parent path hparent _ ih =>
      have hless := holder scope parent hparent
      rw [List.forall_mem_cons]
      exact ⟨Nat.le_refl scope, fun t hmem => Nat.le_of_lt (Nat.lt_of_le_of_lt (ih t hmem) hless)⟩

/-- **A search ends**: it is the search for the first scope of a finite path. -/
theorem Path.lookup_eq (h : store.Path scope path) (name : String) :
    store.lookup scope name = path.find? fun t => ((store.vars t).get? name).isSome := by
  induction h with
  | root hroot =>
      rw [lookup, hroot]
      simp only [List.find?_cons, List.find?_nil]
      split <;> simp_all
  | @up scope parent path hparent _ ih =>
      rw [lookup, hparent, List.find?_cons]
      simp only [if_pos (holder scope parent hparent), ih]
      split <;> simp_all

/-- The value of a name is that in the first scope of the path that owns it. -/
theorem Path.read_eq (h : store.Path scope path) (name : String) :
    store.read scope name = path.findSome? fun t => (store.vars t).get? name := by
  have hfind (path : List ScopeId) :
      (path.find? fun t => ((store.vars t).get? name).isSome).bind (fun t => (store.vars t).get? name) =
        path.findSome? fun t => (store.vars t).get? name := by
    induction path with
    | nil => rfl
    | cons t path ih =>
        rw [List.find?_cons, List.findSome?_cons]
        cases hvalue : (store.vars t).get? name with
        | none => exact ih
        | some value => exact hvalue
  rw [read, h.lookup_eq holder]
  exact hfind path

end

/-- There is one path from a scope. -/
theorem Path.eq {other : List ScopeId} (h : store.Path scope path) (hother : store.Path scope other) :
    path = other := by
  induction h generalizing other with
  | root hroot =>
      cases hother with
      | root => rfl
      | up hparent => exact absurd (hroot.symm.trans hparent) (Option.some_ne_none _).symm
  | up hparent _ ih =>
      cases hother with
      | root hroot => exact absurd (hroot.symm.trans hparent) (Option.some_ne_none _).symm
      | up hparent' hrest =>
          obtain rfl := Option.some.inj (hparent.symm.trans hparent')
          rw [ih hrest]

/-- A path is one of a later store too, if no scope gets another parent. -/
theorem Path.mono (h : store.Path scope path) (hparent : ∀ t ∈ path, after.parent? t = store.parent? t) :
    after.Path scope path := by
  induction h with
  | root hroot => exact .root ((hparent Store.root List.mem_cons_self).trans hroot)
  | up hscope _ ih =>
      rw [List.forall_mem_cons] at hparent
      exact .up (hparent.1.trans hscope) (ih hparent.2)

/-! ### What requests keep -/

/-- A tree of scopes that owns what was written to it. Parents are older than their scopes, and all scopes but the root
have one. -/
structure Records (store : Store) (writes : List Write) : Prop where
  size_pos : 0 < store.scopes.size
  root : store.parent? root = none
  parent : ∀ scope, scope ≠ Store.root → scope < store.scopes.size → ∃ parent, store.parent? scope = some parent
  older : ∀ scope parent, store.parent? scope = some parent → parent < scope
  get? : ∀ scope name, (store.vars scope).get? name = latest writes scope name
  names : ∀ scope, (store.vars scope).names = firstNames writes scope

namespace Records

theorem ofRoot : Records (ofRoot []) [] where
  size_pos := Nat.one_pos
  root := rfl
  parent scope hroot hsize := absurd (Nat.lt_one_iff.mp hsize) hroot
  older scope parent h := by
    match scope with
    | 0 => cases h
    | scope + 1 => cases h
  get? scope name := by
    match scope with
    | 0 => rfl
    | scope + 1 => rfl
  names scope := by
    match scope with
    | 0 => rfl
    | scope + 1 => rfl

theorem isRoot_iff (h : store.Records writes) (hscope : scope < store.scopes.size) :
    store.isRoot scope = true ↔ scope = Store.root := by
  unfold isRoot
  by_cases hroot : scope = Store.root
  · simp [hroot, h.root]
  · obtain ⟨parent, hparent⟩ := h.parent scope hroot hscope
    simp [hroot, hparent]

/-- The root is reached from every scope. -/
theorem exists_path (h : store.Records writes) : ∀ scope < store.scopes.size, ∃ path, store.Path scope path := by
  -- the number of a scope bounds the length of its path, since parents have lower ones
  intro scope
  induction scope using Nat.strong_induction_on with
  | _ scope ih =>
      intro hscope
      by_cases hroot : scope = Store.root
      · exact ⟨[Store.root], hroot ▸ .root h.root⟩
      · obtain ⟨parent, hparent⟩ := h.parent scope hroot hscope
        have hless := h.older scope parent hparent
        obtain ⟨path, hpath⟩ := ih parent hless (Nat.lt_trans hless hscope)
        exact ⟨scope :: path, .up hparent hpath⟩

theorem lt_size_of_path (h : store.Records writes) (hpath : store.Path scope path)
    (hscope : scope < store.scopes.size) : ∀ t ∈ path, t < store.scopes.size :=
  fun t hmem => Nat.lt_of_le_of_lt (hpath.le h.older t hmem) hscope

/-- What takes a new value for a name is a scope. -/
theorem lt_size_of_ownerFor? (h : store.Records writes) (hscope : scope < store.scopes.size)
    (howner : store.ownerFor? scope name = some owner) : owner < store.scopes.size := by
  obtain ⟨path, hpath⟩ := h.exists_path scope hscope
  cases hlookup : store.lookup scope name with
  | some found =>
      rw [ownerFor?_of_lookup hlookup, Option.some.injEq] at howner
      rw [hpath.lookup_eq h.older] at hlookup
      exact howner ▸ h.lt_size_of_path hpath hscope found (List.mem_of_find?_eq_some hlookup)
  | none =>
      rw [ownerFor?, hlookup] at howner
      dsimp only at howner
      split at howner
      · cases howner
        exact hscope
      · cases howner

theorem extend (h : store.Records writes) (hscope : scope < store.scopes.size) :
    (store.extend scope []).1.Records writes := by
  have hvars (t : ScopeId) : (store.extend scope []).1.vars t = store.vars t := by
    by_cases hnew : t = store.scopes.size
    · rw [hnew, vars_extend_self, vars_of_size_le (Nat.le_refl _)]
    · exact vars_extend_of_ne hnew
  constructor
  · rw [size_extend]
    exact Nat.succ_pos _
  · exact (parent?_extend_of_ne (Nat.ne_of_lt h.size_pos)).trans h.root
  · intro t hroot ht
    by_cases hnew : t = store.scopes.size
    · exact ⟨scope, hnew ▸ parent?_extend_self⟩
    · rw [parent?_extend_of_ne hnew]
      rw [size_extend] at ht
      exact h.parent t hroot (Nat.lt_of_le_of_ne (Nat.le_of_lt_succ ht) hnew)
  · intro t parent hparent
    by_cases hnew : t = store.scopes.size
    · rw [hnew, parent?_extend_self, Option.some.injEq] at hparent
      rw [hnew, ← hparent]
      exact hscope
    · rw [parent?_extend_of_ne hnew] at hparent
      exact h.older t parent hparent
  · intro t name
    rw [hvars]
    exact h.get? t name
  · intro t
    rw [hvars]
    exact h.names t

/-- **A write is on record** once a name is given a value. -/
theorem define (h : store.Records writes) (hscope : scope < store.scopes.size) :
    (store.define scope name value).Records (⟨scope, name, value⟩ :: writes) := by
  constructor
  · rw [size_define]
    exact h.size_pos
  · rw [parent?_define]
    exact h.root
  · intro t hroot ht
    rw [size_define] at ht
    rw [parent?_define]
    exact h.parent t hroot ht
  · intro t parent hparent
    rw [parent?_define] at hparent
    exact h.older t parent hparent
  · intro t x
    rw [latest_cons]
    by_cases hsame : t = scope
    · subst hsame
      rw [vars_define_self hscope]
      by_cases hname : name = x
      · rw [← hname, Vars.get?_set_self, if_pos ⟨rfl, rfl⟩]
      · rw [Vars.get?_set_of_ne _ _ (Ne.symm hname), if_neg fun hboth => hname hboth.2]
        exact h.get? t x
    · rw [vars_define_of_ne hsame, if_neg fun hboth => hsame hboth.1.symm]
      exact h.get? t x
  · intro t
    by_cases hsame : t = scope
    · subst hsame
      rw [vars_define_self hscope, Vars.names_set, firstNames_cons_self, h.names]
    · rw [vars_define_of_ne hsame, firstNames_cons_of_ne (Ne.symm hsame)]
      exact h.names t

/-- **Every request keeps the record**, with what it writes. -/
theorem serve (h : store.Records writes) {request : Request} (hscope : request.scope < store.scopes.size) :
    (store.serve request).2.Records (store.written request ++ writes) := by
  cases request with
  | extend scope => exact h.extend hscope
  | define scope name value => exact h.define hscope
  | rebind scope name value =>
      cases howner : store.ownerFor? scope name with
      | some owner =>
          simp only [Store.serve, Store.rebind, written, howner]
          exact h.define (h.lt_size_of_ownerFor? hscope howner)
      | none =>
          simp only [Store.serve, Store.rebind, written, howner]
          exact h
  | read scope name => exact h
  | lookup scope name => exact h

/-- The first scope of a path that owns a name, by what was written. -/
theorem lookup_eq (h : store.Records writes) (hpath : store.Path scope path) (name : String) :
    store.lookup scope name = path.find? fun t => (latest writes t name).isSome := by
  rw [hpath.lookup_eq h.older]
  simp only [h.get?]

theorem read_eq (h : store.Records writes) (hpath : store.Path scope path) (name : String) :
    store.read scope name = path.findSome? (latest writes · name) := by
  rw [hpath.read_eq h.older]
  simp only [h.get?]

end Records

/-! ### What a request changes -/

/-- A store in which a name of one scope was given a value, in its place if the scope owns it and else behind all
others. It is read by all who find the name in that scope, and nothing else is read that was not read before. -/
structure IsWrite (store after : Store) (scope : ScopeId) (name : String) (value : Value) : Prop where
  size_eq : after.scopes.size = store.scopes.size
  parent?_eq : ∀ t, after.parent? t = store.parent? t
  vars_eq : ∀ t, t ≠ scope → after.vars t = store.vars t
  get?_eq : ∀ x, x ≠ name → (after.vars scope).get? x = (store.vars scope).get? x
  get?_self : (after.vars scope).get? name = some value
  names_eq : (after.vars scope).names =
    if name ∈ (store.vars scope).names then (store.vars scope).names else (store.vars scope).names ++ [name]
  read_eq : ∀ t, t < store.scopes.size → ∀ x,
    after.read t x = if x = name ∧ after.lookup t x = some scope then some value else store.read t x
  /-- Where the name was owned already, no search ends elsewhere than before. -/
  lookup_eq : name ∈ (store.vars scope).names → ∀ t, t < store.scopes.size → ∀ x, after.lookup t x = store.lookup t x

/-- A store with one more scope, empty and below another one, and with nothing else changed. -/
structure IsOpened (store after : Store) (scope : ScopeId) : Prop where
  size_eq : after.scopes.size = store.scopes.size + 1
  parent?_new : after.parent? store.scopes.size = some scope
  vars_new : after.vars store.scopes.size = []
  parent?_eq : ∀ t, t < store.scopes.size → after.parent? t = store.parent? t
  vars_eq : ∀ t, t < store.scopes.size → after.vars t = store.vars t
  lookup_eq : ∀ t, t < store.scopes.size → ∀ x, after.lookup t x = store.lookup t x
  read_eq : ∀ t, t < store.scopes.size → ∀ x, after.read t x = store.read t x

/-- What is read along a path after a write. -/
theorem findSome?_define (hscope : scope < store.scopes.size) (path : List ScopeId) (x : String) :
    (path.findSome? fun t => ((store.define scope name value).vars t).get? x) =
      if x = name ∧ (path.find? fun t => (((store.define scope name value).vars t).get? x).isSome) = some scope
      then some value else path.findSome? fun t => (store.vars t).get? x := by
  induction path with
  | nil => simp
  | cons t path ih =>
      -- the search stops at the written name, and everywhere else it goes on as before
      by_cases hwritten : t = scope ∧ x = name
      · obtain ⟨rfl, rfl⟩ := hwritten
        have hvalue : ((store.define t x value).vars t).get? x = some value := by
          rw [vars_define_self hscope, Vars.get?_set_self]
        simp [hvalue]
      · have hkept : ((store.define scope name value).vars t).get? x = (store.vars t).get? x := by
          by_cases hsame : t = scope
          · subst hsame
            rw [vars_define_self hscope, Vars.get?_set_of_ne _ _ fun hname => hwritten ⟨rfl, hname⟩]
          · rw [vars_define_of_ne hsame]
        rw [List.findSome?_cons, List.find?_cons, List.findSome?_cons, hkept]
        cases hvalue : (store.vars t).get? x with
        | none => exact ih
        | some found =>
            have hother : ¬(x = name ∧ some t = some scope) := fun hboth =>
              hwritten ⟨Option.some.inj hboth.2, hboth.1⟩
            simp only [Option.isSome_some]
            rw [if_neg hother]

namespace Records

theorem isWrite_define (h : store.Records writes) (hscope : scope < store.scopes.size) :
    store.IsWrite (store.define scope name value) scope name value := by
  have hafter : (store.define scope name value).Records (⟨scope, name, value⟩ :: writes) := h.define hscope
  have hpath {t : ScopeId} (ht : t < store.scopes.size) :
      ∃ path, store.Path t path ∧ (store.define scope name value).Path t path := by
    obtain ⟨path, hpath⟩ := h.exists_path t ht
    exact ⟨path, hpath, hpath.mono fun _ _ => parent?_define⟩
  refine ⟨size_define, fun t => parent?_define, fun t ht => vars_define_of_ne ht, fun x hx => ?_, ?_, ?_,
    fun t ht x => ?_, fun howns t ht x => ?_⟩
  · rw [vars_define_self hscope, Vars.get?_set_of_ne _ _ hx]
  · rw [vars_define_self hscope, Vars.get?_set_self]
  · rw [vars_define_self hscope, Vars.names_set]
  · obtain ⟨path, hbefore, hpath⟩ := hpath ht
    rw [hpath.read_eq hafter.older, hpath.lookup_eq hafter.older, hbefore.read_eq h.older]
    exact findSome?_define hscope path x
  · obtain ⟨path, hbefore, hpath⟩ := hpath ht
    rw [hpath.lookup_eq hafter.older, hbefore.lookup_eq h.older]
    apply List.find?_congr
    intro u _
    rw [Bool.eq_iff_iff, Vars.isSome_get?, Vars.isSome_get?]
    by_cases hsame : u = scope
    · subst hsame
      rw [vars_define_self hscope, Vars.names_set, if_pos howns]
    · rw [vars_define_of_ne hsame]

theorem isOpened_extend (h : store.Records writes) (hscope : scope < store.scopes.size) :
    store.IsOpened (store.extend scope []).1 scope := by
  have hafter := h.extend hscope
  have hpath {t : ScopeId} (ht : t < store.scopes.size) : ∃ path, store.Path t path ∧
      (store.extend scope []).1.Path t path ∧ ∀ u ∈ path, (store.extend scope []).1.vars u = store.vars u := by
    obtain ⟨path, hpath⟩ := h.exists_path t ht
    have hold := h.lt_size_of_path hpath ht
    exact ⟨path, hpath, hpath.mono fun u hu => parent?_extend_of_ne (Nat.ne_of_lt (hold u hu)),
      fun u hu => vars_extend_of_ne (Nat.ne_of_lt (hold u hu))⟩
  refine ⟨size_extend, parent?_extend_self, vars_extend_self, fun t ht => parent?_extend_of_ne (Nat.ne_of_lt ht),
    fun t ht => vars_extend_of_ne (Nat.ne_of_lt ht), fun t ht x => ?_, fun t ht x => ?_⟩
  · obtain ⟨path, hbefore, hpath, hvars⟩ := hpath ht
    rw [hpath.lookup_eq hafter.older, hbefore.lookup_eq h.older]
    exact List.find?_congr fun u hu => by rw [hvars u hu]
  · obtain ⟨path, hbefore, hpath, hvars⟩ := hpath ht
    rw [h.read_eq hbefore, hafter.read_eq hpath]

end Records

theorem Reached.records (h : Reached store writes) : store.Records writes := by
  induction h with
  | root => exact .ofRoot
  | served _ hscope ih => exact ih.serve hscope

/-- **The laws of scopes**, after any requests. A search goes along the finite path to the root and ends at the first
scope that was written to under the name, and the latest value written there is what is read. A new value goes to where
the search ends; if it ends nowhere, the root takes it and any other scope does not. A definition goes to the scope it
is made in, and a new scope changes no other. A failing request changes nothing. -/
theorem Reached.laws (h : Reached store writes) (hscope : scope < store.scopes.size) (name : String) (value : Value) :
    ∃ path, store.Path scope path ∧
      let owner? := path.find? fun t => (latest writes t name).isSome
      store.serve (.lookup scope name) = (.scope owner?, store) ∧
      store.serve (.read scope name) = ((path.findSome? (latest writes · name)).elim .undefined .value, store) ∧
      (∀ t x, (store.vars t).get? x = latest writes t x) ∧ (∀ t, (store.vars t).names = firstNames writes t) ∧
      (∀ owner, owner? = some owner ∨ owner? = none ∧ scope = Store.root ∧ owner = Store.root →
        ∃ after, store.serve (.rebind scope name value) = (.value value, after) ∧
          store.IsWrite after owner name value) ∧
      (owner? = none → scope ≠ Store.root → store.serve (.rebind scope name value) = (.undefined, store)) ∧
      (∃ after, store.serve (.define scope name value) = (.value value, after) ∧
        store.IsWrite after scope name value) ∧
      ∃ after, store.serve (.extend scope) = (.scope (some store.scopes.size), after) ∧
        store.IsOpened after scope := by
  have hrecords := h.records
  obtain ⟨path, hpath⟩ := hrecords.exists_path scope hscope
  have hlookup := hrecords.lookup_eq hpath name
  have hrebind {owner : ScopeId} (howner : store.ownerFor? scope name = some owner) :
      ∃ after, store.serve (.rebind scope name value) = (.value value, after) ∧
        store.IsWrite after owner name value := by
    refine ⟨store.define owner name value, ?_, hrecords.isWrite_define (hrecords.lt_size_of_ownerFor? hscope howner)⟩
    simp only [serve, rebind, howner, Option.map_some]
  refine ⟨path, hpath, ?_, ?_, hrecords.get?, hrecords.names, ?_, ?_, ⟨_, rfl, hrecords.isWrite_define hscope⟩,
    ⟨_, rfl, hrecords.isOpened_extend hscope⟩⟩
  · rw [serve, hlookup]
  · rw [serve, hrecords.read_eq hpath]
  · rintro owner (hfound | ⟨hnone, rfl, rfl⟩)
    · exact hrebind (ownerFor?_of_lookup (hlookup.trans hfound))
    · -- no scope owns the name, so the root takes it
      apply hrebind
      rw [ownerFor?, hlookup, hnone, (hrecords.isRoot_iff hscope).mpr rfl]
      rfl
  · intro hnone hinner
    have hroot : store.isRoot scope = false := by
      rw [← Bool.not_eq_true, hrecords.isRoot_iff hscope]
      exact hinner
    simp only [serve, rebind, ownerFor?, hlookup, hnone, hroot, Bool.false_eq_true, if_false, Option.map_none]

/-- A write through a scope without the name, to the nearest scope that owns it; the root owns it too. -/
theorem Reached.laws_shadowed :
    let outer := ((ofRoot []).define 0 "a" (.boolean true)).extend 0 []
    let store := (outer.1.extend 1 []).1.define 1 "a" (.boolean false)
    Reached store [⟨1, "a", .boolean false⟩, ⟨0, "a", .boolean true⟩] ∧ 2 < store.scopes.size ∧
      store.serve (.lookup 2 "a") = (.scope (some 1), store) ∧
      store.serve (.read 2 "a") = (.value (.boolean false), store) ∧
      ∃ after, store.serve (.rebind 2 "a" (.string "b")) = (.value (.string "b"), after) ∧
        store.IsWrite after 1 "a" (.string "b") := by
  intro outer store
  have hroot := @Reached.served _ _ .root (.define 0 "a" (.boolean true)) (by decide)
  have houter := @Reached.served _ _ hroot (.extend 0) (by decide)
  have hinner := @Reached.served _ _ houter (.extend 1) (by decide)
  have hreached := @Reached.served _ _ hinner (.define 1 "a" (.boolean false)) (by decide)
  have hscope : 2 < store.scopes.size := by decide
  obtain ⟨path, hpath, hlookup, hread, -, -, hrebind, -⟩ := hreached.laws hscope "a" (.string "b")
  obtain rfl : path = [2, 1, 0] := hpath.eq (.up rfl (.up rfl (.root rfl)))
  exact ⟨hreached, hscope, hlookup, hread, hrebind 1 (.inl rfl)⟩

end LambdaScript.Store
