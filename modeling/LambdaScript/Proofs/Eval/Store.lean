import LambdaScript.Eval.Scope

/-!
What the operations on scopes change. Opening a scope leaves the older ones as they are, and giving a name a
value changes one scope, which owns the name afterwards; no scope ever gets another parent.
-/

namespace LambdaScript

namespace Vars

/-- The names that a scope owns. -/
def names (vars : Vars) : List String := vars.map Prod.fst

/-- A name is given a value in its place, or else behind all others. -/
theorem names_set (vars : Vars) (name : String) (value : Value) :
    (vars.set name value).names = if name ∈ vars.names then vars.names else vars.names ++ [name] := by
  induction vars with
  | nil => rfl
  | cons entry rest ih =>
      obtain ⟨n, v⟩ := entry
      by_cases h : n = name
      · simp [set, names, h]
      · unfold names at ih
        simp only [set, names, if_neg h, List.map_cons, List.mem_cons, Ne.symm h, false_or, ih]
        split <;> rfl

theorem mem_names_set {vars : Vars} {name other : String} {value : Value} :
    other ∈ (vars.set name value).names ↔ other = name ∨ other ∈ vars.names := by
  rw [names_set]
  split
  · next hmem => exact ⟨.inr, fun h => h.elim (fun hother => hother ▸ hmem) id⟩
  · rw [List.mem_append, List.mem_singleton, or_comm]

theorem eq_or_mem_of_mem_set {vars : Vars} {name : String} {value : Value} {entry : String × Value}
    (h : entry ∈ vars.set name value) : entry.2 = value ∨ entry ∈ vars := by
  induction vars with
  | nil =>
      obtain rfl := List.mem_singleton.mp h
      exact .inl rfl
  | cons first rest ih =>
      rw [set] at h
      split at h
      · rcases List.mem_cons.mp h with rfl | hrest
        · exact .inl rfl
        · exact .inr (List.mem_cons_of_mem first hrest)
      · rcases List.mem_cons.mp h with rfl | hrest
        · exact .inr List.mem_cons_self
        · rcases ih hrest with hvalue | hmem
          · exact .inl hvalue
          · exact .inr (List.mem_cons_of_mem first hmem)

/-- The parameters are the names of the scope of a call, whatever the arguments are. -/
theorem mem_names_bind {params : List String} {vars : Vars} {args : List Value} {name : String} :
    name ∈ (vars.bind params args).names ↔ name ∈ params ∨ name ∈ vars.names := by
  induction params generalizing vars args with
  | nil => simp [bind]
  | cons param params ih =>
      have hset (value : Value) : name ∈ params ∨ name ∈ (vars.set param value).names ↔
          name ∈ param :: params ∨ name ∈ vars.names := by
        rw [mem_names_set, List.mem_cons, or_left_comm, or_assoc]
      cases args with
      | nil =>
          rw [bind, ih]
          exact hset _
      | cons arg args =>
          rw [bind, ih]
          exact hset _

theorem mem_of_mem_bind {params : List String} {vars : Vars} {args : List Value} {entry : String × Value}
    (h : entry ∈ vars.bind params args) : entry ∈ vars ∨ entry.2 ∈ args ∨ entry.2 = Value.false := by
  induction params generalizing vars args with
  | nil => exact .inl h
  | cons param params ih =>
      cases args with
      | nil =>
          rcases ih h with hmem | hargs | hfalse
          · rcases eq_or_mem_of_mem_set hmem with hvalue | hvars
            · exact .inr (.inr hvalue)
            · exact .inl hvars
          · cases hargs
          · exact .inr (.inr hfalse)
      | cons arg args =>
          rcases ih h with hmem | hargs | hfalse
          · rcases eq_or_mem_of_mem_set hmem with hvalue | hvars
            · exact .inr (.inl (hvalue ▸ List.mem_cons_self))
            · exact .inl hvars
          · exact .inr (.inl (List.mem_cons_of_mem arg hargs))
          · exact .inr (.inr hfalse)

theorem mem_of_get? {vars : Vars} {name : String} {value : Value} (h : vars.get? name = some value) :
    (name, value) ∈ vars := by
  induction vars with
  | nil => cases h
  | cons entry rest ih =>
      obtain ⟨n, v⟩ := entry
      rw [get?] at h
      split at h
      · next hname =>
        cases h
        exact hname ▸ List.mem_cons_self
      · exact List.mem_cons_of_mem _ (ih h)

theorem isSome_get? {vars : Vars} {name : String} : (vars.get? name).isSome = true ↔ name ∈ vars.names := by
  induction vars with
  | nil => simp [get?, names]
  | cons entry rest ih =>
      obtain ⟨n, v⟩ := entry
      by_cases h : n = name
      · simp [get?, names, h]
      · simp only [names] at ih
        simp [get?, names, h, ih, Ne.symm h]

end Vars

namespace Store

variable {store : Store} {scope other parent : ScopeId} {name : String} {value : Value} {vars : Vars}

theorem vars_of_size_le (h : store.scopes.size ≤ scope) : store.vars scope = [] := by
  simp [Store.vars, Array.getElem?_eq_none h]

theorem vars_extend_self : (store.extend parent vars).1.vars store.scopes.size = vars := by
  simp [extend, Store.vars]

theorem vars_extend_of_ne (h : scope ≠ store.scopes.size) :
    (store.extend parent vars).1.vars scope = store.vars scope := by
  simp [extend, Store.vars, Array.getElem?_push, h]

theorem parent?_extend_self : (store.extend parent vars).1.parent? store.scopes.size = some parent := by
  simp [extend, parent?]

theorem parent?_extend_of_ne (h : scope ≠ store.scopes.size) :
    (store.extend parent vars).1.parent? scope = store.parent? scope := by
  simp [extend, parent?, Array.getElem?_push, h]

theorem vars_define_self (h : scope < store.scopes.size) :
    (store.define scope name value).vars scope = (store.vars scope).set name value := by
  simp [define, Store.vars, Array.getElem_modify, h]

theorem vars_define_of_ne (h : other ≠ scope) :
    (store.define scope name value).vars other = store.vars other := by
  simp [define, Store.vars, Array.getElem?_modify, Ne.symm h]

theorem parent?_define : (store.define scope name value).parent? other = store.parent? other := by
  simp only [define, parent?, Array.getElem?_modify]
  split
  · cases store.scopes[other]? <;> rfl
  · rfl

theorem size_define : (store.define scope name value).scopes.size = store.scopes.size := by
  simp [define]

theorem size_extend : (store.extend parent vars).1.scopes.size = store.scopes.size + 1 := by
  simp [extend]

/-- Giving a name a value in a new scope is opening the scope with it. -/
theorem define_extend : (store.extend parent vars).1.define store.scopes.size name value =
    (store.extend parent (vars.set name value)).1 := by
  have hscopes : ((store.scopes.push ⟨vars, some parent⟩).modify store.scopes.size
      fun s => ⟨s.vars.set name value, s.parent⟩) = store.scopes.push ⟨vars.set name value, some parent⟩ := by
    apply Array.ext_getElem?
    intro i
    rw [Array.getElem?_modify, Array.getElem?_push, Array.getElem?_push]
    by_cases hnew : store.scopes.size = i
    · simp [hnew]
    · simp [hnew, Ne.symm hnew]
  exact congrArg Store.mk hscopes

/-- The value of a name after some name was given a value is that value or the one it had. -/
theorem eq_or_get?_of_define {found : String} {other' : Value}
    (h : ((store.define scope name value).vars other).get? found = some other') :
    other' = value ∨ (store.vars other).get? found = some other' := by
  by_cases hsame : other = scope
  · subst hsame
    by_cases hsize : other < store.scopes.size
    · rw [vars_define_self hsize] at h
      by_cases hname : found = name
      · subst hname
        rw [Vars.get?_set_self] at h
        exact .inl (Option.some.inj h).symm
      · rw [Vars.get?_set_of_ne _ value hname] at h
        exact .inr h
    · rw [vars_of_size_le (by rw [size_define]; exact Nat.le_of_not_lt hsize)] at h
      cases h
  · rw [vars_define_of_ne hsame] at h
    exact .inr h

/-- A name has a value in a scope after it was given one, if it had one before or it is the given one. -/
theorem mem_vars_define {entry : String × Value} (h : entry ∈ (store.define scope name value).vars other) :
    entry.2 = value ∨ entry ∈ store.vars other := by
  by_cases hsame : other = scope
  · subst hsame
    by_cases hsize : other < store.scopes.size
    · rw [vars_define_self hsize] at h
      exact Vars.eq_or_mem_of_mem_set h
    · have hsize' : (store.define other name value).scopes.size ≤ other := by
        rw [size_define]
        exact Nat.le_of_not_lt hsize
      rw [vars_of_size_le hsize'] at h
      cases h
  · rw [vars_define_of_ne hsame] at h
    exact .inr h

theorem mem_vars_extend {entry : String × Value} (h : entry ∈ (store.extend parent vars).1.vars other) :
    entry ∈ vars ∨ entry ∈ store.vars other := by
  by_cases hnew : other = store.scopes.size
  · subst hnew
    rw [vars_extend_self] at h
    exact .inl h
  · rw [vars_extend_of_ne hnew] at h
    exact .inr h

end Store

end LambdaScript
