/-
# `Frozen.Rewrite.Bounds` — a compiled script uses what it has

The interpreter makes room for as many variables and requests as the script has counted,
and takes the numbers in its actions as they are.  So every number has to be below its
count.  And the result of a call is in a variable until the action around the call reads
it there, so that variable has to be written by this call only.

A condition on a statement without a value is not like that: it has whatever was left in
`yylval`.

    Uses             what the rules keep, from one point of the text to a later one
    compiled_owned   the numbers of a whole script
-/
import Frozen.Rewrite.Assign
import Frozen.Rewrite.Resolve

namespace Frozen.Rewrite

open Lib

/-! ## What an action mentions -/

/-- The parameters an action looks at. -/
def Simple.reads (a : Simple) : List Thing :=
  match a.action with
  | .langSet => a.params.tail
  | _ => a.params

/-- What an assignment assigns to. -/
def Simple.sets (a : Simple) : List Thing :=
  match a.action with
  | .langSet => a.params.take 1
  | _ => []

/-- The variable for the result of a call. -/
def Simple.results (a : Simple) : List Nat :=
  match a.ret with
  | some (.variable id) => [id]
  | _ => []

mutual

def Action.reads : Action → List Thing
  | .simple a => a.reads
  | .langIf param1 block => param1 :: Action.allReads block
  | .langIfnot param1 block => param1 :: Action.allReads block

/-- The actions of a block, and those of the blocks in it. -/
def Action.allReads : List Action → List Thing
  | [] => []
  | a :: rest => a.reads ++ Action.allReads rest

end

mutual

def Action.sets : Action → List Thing
  | .simple a => a.sets
  | .langIf _ block => Action.allSets block
  | .langIfnot _ block => Action.allSets block

def Action.allSets : List Action → List Thing
  | [] => []
  | a :: rest => a.sets ++ Action.allSets rest

end

mutual

def Action.results : Action → List Nat
  | .simple a => a.results
  | .langIf _ block => Action.allResults block
  | .langIfnot _ block => Action.allResults block

def Action.allResults : List Action → List Nat
  | [] => []
  | a :: rest => a.results ++ Action.allResults rest

end

@[simp] theorem Action.allReads_append (as bs : List Action) :
    Action.allReads (as ++ bs) = Action.allReads as ++ Action.allReads bs := by
  induction as with
  | nil => rfl
  | cons a as ih => rw [List.cons_append, allReads, allReads, ih, List.append_assoc]

@[simp] theorem Action.allSets_append (as bs : List Action) :
    Action.allSets (as ++ bs) = Action.allSets as ++ Action.allSets bs := by
  induction as with
  | nil => rfl
  | cons a as ih => rw [List.cons_append, allSets, allSets, ih, List.append_assoc]

@[simp] theorem Action.allResults_append (as bs : List Action) :
    Action.allResults (as ++ bs) = Action.allResults as ++ Action.allResults bs := by
  induction as with
  | nil => rfl
  | cons a as ih => rw [List.cons_append, allResults, allResults, ih, List.append_assoc]

/-! ## Numbers of a script -/

section

variable {τ γ : Type}

/-- The script has a place with this number. -/
def Script.Has (script : Script γ) : Thing → Prop
  | .hasht id => id < script.requestsCount
  | .hashElement _ id => id < script.requestsCount
  | .const id => id < script.constants.length
  | .variable id => id < script.variablesCount
  | .ret => True

/-- The number of a variable that has a name. -/
def Name.variableId (name : Name) : Option Nat :=
  match name.type with
  | .variable => some name.id
  | _ => none

/-- The variables that have names. -/
def Script.variableIds (script : Script γ) : List Nat :=
  script.names.filterMap Name.variableId

/-- What the names stand for is there. -/
def Script.Named (script : Script γ) : Prop :=
  ∀ name ∈ script.names, script.Has name.thing

/-- The variables up to here: those for results, and those with names. -/
def Script.Numbered (script : Script γ) (results : List Nat) : Prop :=
  (results ++ script.variableIds).Perm (List.range script.variablesCount)

/-- Numbers are not given back, and names not taken away. -/
structure Script.Grows (s s' : Script γ) : Prop where
  constants_le : s.constants.length ≤ s'.constants.length
  variables_le : s.variablesCount ≤ s'.variablesCount
  requests_le : s.requestsCount ≤ s'.requestsCount
  names_le : ∀ id ∈ s.variableIds, id ∈ s'.variableIds

theorem Script.Grows.refl (s : Script γ) : s.Grows s :=
  ⟨le_rfl, le_rfl, le_rfl, fun _ h => h⟩

theorem Script.Grows.trans {s s' s'' : Script γ} (h : s.Grows s') (h' : s'.Grows s'') :
    s.Grows s'' where
  constants_le := h.constants_le.trans h'.constants_le
  variables_le := h.variables_le.trans h'.variables_le
  requests_le := h.requests_le.trans h'.requests_le
  names_le := fun id hid => h'.names_le id (h.names_le id hid)

theorem Script.Has.mono {s s' : Script γ} {x : Thing} (h : s.Has x)
    (hgrows : s.Grows s') : s'.Has x := by
  cases x with
  | ret => trivial
  | hasht id => exact lt_of_lt_of_le h hgrows.requests_le
  | hashElement key id => exact lt_of_lt_of_le h hgrows.requests_le
  | const id => exact lt_of_lt_of_le h hgrows.constants_le
  | «variable» id => exact lt_of_lt_of_le h hgrows.variables_le

/-- From a point of the text, where the numbers are those of `s`, to a later one: the
actions made in between, and the values `vs` that are still to be read. -/
structure Uses (s s' : Script γ) (as : List Action) (vs : List Thing) : Prop where
  grows : s.Grows s'
  named : s.Named → s'.Named
  reads : s.Named → ∀ x ∈ Action.allReads as ++ vs, s'.Has x
  /-- what is assigned to has a name -/
  sets : s.Named → ∀ x ∈ Action.allSets as, s'.Has x ∧ ∀ id, x = .variable id →
  id ∈ s'.variableIds
  numbered : ∀ results, s.Numbered results → s'.Numbered (results ++ Action.allResults as)
  /-- a variable without a name is read where the call stood -/
  once : ∀ id, id ∉ s'.variableIds →
    (Action.allReads as ++ vs).count (.variable id) ≤ (Action.allResults as).count id

namespace Uses

variable {s s' s'' : Script γ} {as bs : List Action} {vs ws : List Thing}

theorem refl (s : Script γ) : Uses s s [] [] where
  grows := .refl s
  named := id
  reads := by simp [Action.allReads]
  sets := by simp [Action.allSets]
  numbered := by simp [Action.allResults]
  once := by simp [Action.allReads]

theorem trans (h : Uses s s' as vs) (h' : Uses s' s'' bs ws) :
    Uses s s'' (as ++ bs) (vs ++ ws) where
  grows := h.grows.trans h'.grows
  named := fun hs => h'.named (h.named hs)
  reads := by
    intro hs x hx
    have hfirst := h.reads hs x
    have hrest := h'.reads (h.named hs) x
    simp only [Action.allReads_append, List.mem_append] at hx hfirst hrest
    rcases hx with (hx | hx) | (hx | hx)
    · exact (hfirst (.inl hx)).mono h'.grows
    · exact hrest (.inl hx)
    · exact (hfirst (.inr hx)).mono h'.grows
    · exact hrest (.inr hx)
  sets := by
    intro hs x hx
    rw [Action.allSets_append, List.mem_append] at hx
    rcases hx with hx | hx
    · obtain ⟨hhas, hid⟩ := h.sets hs x hx
      exact ⟨hhas.mono h'.grows, fun id heq => h'.grows.names_le id (hid id heq)⟩
    · exact h'.sets (h.named hs) x hx
  numbered := by
    intro results hresults
    rw [Action.allResults_append, ← List.append_assoc]
    exact h'.numbered _ (h.numbered results hresults)
  once := by
    intro id hid
    have hfirst := h.once id fun hid' => hid (h'.grows.names_le id hid')
    have hrest := h'.once id hid
    simp only [Action.allReads_append, Action.allResults_append, List.count_append]
      at hfirst hrest ⊢
    omega

/-- A value that is not looked at. -/
theorem drop {x : Thing} (h : Uses s s' as (x :: vs)) : Uses s s' as vs where
  grows := h.grows
  named := h.named
  reads := fun hs y hy => h.reads hs y (by
    simp only [List.mem_append, List.mem_cons] at hy ⊢
    tauto)
  sets := h.sets
  numbered := h.numbered
  once := by
    intro id hid
    have honce := h.once id hid
    simp only [List.count_append, List.count_cons] at honce ⊢
    omega

/-- A call reads the values of its arguments, and its result is the value that is left. -/
theorem call (h : Uses s s' as vs) {func : SimpleAction} (hfunc : func ≠ .langSet) :
    Uses s s'.newVariable (as ++ [.simple ⟨func, vs, some (.variable s'.variablesCount)⟩])
      [.variable s'.variablesCount] := by
  have hgrows : s'.Grows s'.newVariable := ⟨le_rfl, Nat.le_succ _, le_rfl, fun _ h => h⟩
  have hreads : Action.allReads
      [.simple ⟨func, vs, some (.variable s'.variablesCount)⟩] = vs := by
    cases func <;>
      first | exact absurd rfl hfunc | simp [Action.allReads, Action.reads, Simple.reads]
  have hsets : Action.allSets [.simple ⟨func, vs, some (.variable s'.variablesCount)⟩]
      = [] := by
    cases func <;> first | exact absurd rfl hfunc | rfl
  have hresults : Action.allResults
      [.simple ⟨func, vs, some (.variable s'.variablesCount)⟩] =
      [s'.variablesCount] := rfl
  constructor
  · exact h.grows.trans hgrows
  · exact fun hs name hname => (h.named hs name hname).mono hgrows
  · intro hs x hx
    rw [Action.allReads_append, hreads, List.mem_append, List.mem_singleton] at hx
    rcases hx with hx | rfl
    · exact (h.reads hs x hx).mono hgrows
    · exact Nat.lt_succ_self _
  · intro hs x hx
    rw [Action.allSets_append, hsets, List.append_nil] at hx
    obtain ⟨hhas, hid⟩ := h.sets hs x hx
    exact ⟨hhas.mono hgrows, hid⟩
  · intro results hnumbered
    refine List.perm_iff_count.mpr fun id => ?_
    have hcount := (h.numbered results hnumbered).count_eq id
    simp only [Action.allResults_append, hresults, Script.newVariable, Script.variableIds,
      List.range_succ, List.count_append] at hcount ⊢
    omega
  · intro id hid
    have honce := h.once id hid
    simp only [Action.allReads_append, hreads, Action.allResults_append, hresults,
      List.count_append] at honce ⊢
    refine Nat.add_le_add honce ?_
    by_cases heq : s'.variablesCount = id <;> simp [heq]

/-- An assignment reads its value, and assigns to what has a name. -/
theorem set {dst x : Thing} (h : Uses s s' as [dst, x])
    (hdst : ∀ id, dst = .variable id → id ∈ s'.variableIds) :
    Uses s s' (as ++ [.simple ⟨.langSet, [dst, x], none⟩]) [dst] := by
  have hreads : Action.allReads [.simple ⟨.langSet, [dst, x], none⟩] = [x] := rfl
  have hsets : Action.allSets [.simple ⟨.langSet, [dst, x], none⟩] = [dst] := rfl
  have hresults : Action.allResults [.simple ⟨.langSet, [dst, x], none⟩] = [] := rfl
  constructor
  · exact h.grows
  · exact h.named
  · intro hs y hy
    refine h.reads hs y ?_
    simp only [Action.allReads_append, hreads, List.mem_append, List.mem_cons] at hy ⊢
    tauto
  · intro hs y hy
    rw [Action.allSets_append, hsets, List.mem_append, List.mem_singleton] at hy
    rcases hy with hy | rfl
    · exact h.sets hs y hy
    · exact ⟨h.reads hs y (by simp), hdst⟩
  · simpa [hresults] using h.numbered
  · intro id hid
    have honce := h.once id hid
    simp only [Action.allReads_append, Action.allResults_append, hreads, hresults,
      List.append_nil, List.count_append, List.count_cons, List.count_nil] at honce ⊢
    omega

/-- A condition reads what stands before its block. -/
theorem condition {x : Thing} (h : Uses s s' as [x]) (hblock : Uses s' s'' bs [])
    (negated : Bool) :
    Uses s s'' (as ++ [if negated then .langIfnot x bs else .langIf x bs]) [] := by
  have hreads : Action.allReads [if negated then .langIfnot x bs else .langIf x bs] =
      x :: Action.allReads bs := by
    cases negated <;> simp [Action.allReads, Action.reads]
  have hsets : Action.allSets [if negated then .langIfnot x bs else .langIf x bs]
      = Action.allSets bs := by
    cases negated <;> simp [Action.allSets, Action.sets]
  have hresults : Action.allResults [if negated then .langIfnot x bs else .langIf x bs] =
      Action.allResults bs := by
    cases negated <;> simp [Action.allResults, Action.results]
  have hboth := h.trans hblock
  constructor
  · exact hboth.grows
  · exact hboth.named
  · intro hs y hy
    refine hboth.reads hs y ?_
    simp only [Action.allReads_append, hreads, List.mem_append, List.mem_cons] at hy ⊢
    tauto
  · simpa [hsets] using hboth.sets
  · simpa [hresults] using hboth.numbered
  · intro id hid
    have honce := hboth.once id hid
    simp only [Action.allReads_append, Action.allResults_append, hreads, hresults,
      List.append_nil, List.count_append, List.count_cons] at honce ⊢
    omega

end Uses

variable {conv : Conversions τ γ}

/-! ## The rules -/

theorem mem_variableIds {script : Script γ} {name : Name} {id : Nat}
    (hname : name ∈ script.names) (hid : name.thing = .variable id) :
    id ∈ script.variableIds := by
  refine List.mem_filterMap.mpr ⟨name, hname, ?_⟩
  obtain ⟨text, type, n⟩ := name
  cases type <;> simp_all [Name.thing, Name.variableId]

/-- Something that is there, and what it is called does not change. -/
theorem uses_thing {s s' : Script γ} {x : Thing} (hgrows : s.Grows s')
    (hnames : s'.names = s.names) (hvars : s'.variablesCount = s.variablesCount)
    (hx : s.Named → s'.Has x) (hid : ∀ id, x = .variable id → id ∈ s'.variableIds) :
    Uses s s' [] [x] where
  grows := hgrows
  named := by
    intro hs name hname
    rw [hnames] at hname
    exact (hs name hname).mono hgrows
  reads := fun hs y hy => by
    rw [Action.allReads, List.nil_append, List.mem_singleton] at hy
    exact hy ▸ hx hs
  sets := fun _ y hy => absurd hy (by simp [Action.allSets])
  numbered := by
    intro results hnumbered
    rw [Script.Numbered, Script.variableIds, hnames, hvars, Action.allResults,
      List.append_nil]
    exact hnumbered
  once := by
    intro id hnot
    have hne : x ≠ .variable id := fun heq => hnot (hid id heq)
    simp [Action.allReads, hne]

theorem uses_newConstant (s : Script γ) (data : γ) :
    Uses s (s.newConstant data) [] [.const s.constants.length] := by
  refine uses_thing ⟨?_, le_rfl, le_rfl, fun _ h => h⟩ rfl rfl (fun _ => ?_)
    fun id hid => by cases hid
  · simp [Script.newConstant]
  · simp [Script.newConstant, Script.Has]

theorem Target.compile_uses {t : Target} {s s' : Script γ} {x : Thing}
    (h : t.compile conv s = .ok (x, s')) :
    Uses s s' [] [x] ∧ ∀ id, x = .variable id → id ∈ s'.variableIds := by
  cases t with
  | arrayKey name key =>
      simp only [Target.compile, ruleArrayKey] at h
      split at h
      · next curr id hfind =>
          split at h
          · cases h
          · cases h
            refine ⟨uses_thing (.refl s) rfl rfl (fun hs => ?_) fun id hid => ?_,
              fun id hid => ?_⟩
            · exact hs _ (List.mem_of_find?_eq_some hfind)
            · cases hid
            · cases hid
      · cases h
  | label name =>
      simp only [Target.compile, ruleLabel] at h
      split at h
      · next curr hfind =>
          cases h
          have hmem := List.mem_of_find?_eq_some hfind
          have hid : ∀ id, curr.thing = .variable id → id ∈ s.variableIds :=
            fun id hid => mem_variableIds hmem hid
          exact ⟨uses_thing (.refl s) rfl rfl (fun hs => hs curr hmem) hid, hid⟩
      · split at h
        · cases h
        · cases h
          exact ⟨uses_newConstant s _, fun id hid => by cases hid⟩

theorem ruleConstant_uses {type string : List UInt8} {s s' : Script γ} {x : Thing}
    (h : ruleConstant conv type string s = .ok (x, s')) : Uses s s' [] [x] := by
  unfold ruleConstant at h
  split at h
  · cases h
  · cases h
    exact uses_newConstant s _

theorem uses_newRequest (s : Script γ) (name : List UInt8) :
    Uses s (s.newRequest name) [] [] where
  grows := ⟨le_rfl, le_rfl, Nat.le_succ _, fun _ h => h⟩
  named := by
    intro hs n hn
    rcases List.mem_cons.mp hn with rfl | hn
    · exact Nat.lt_succ_self _
    · exact (hs n hn).mono ⟨le_rfl, le_rfl, Nat.le_succ _, fun _ h => h⟩
  reads := by simp [Action.allReads]
  sets := by simp [Action.allSets]
  numbered := by
    intro results hnumbered
    rw [Action.allResults, List.append_nil]
    exact hnumbered
  once := by simp [Action.allReads]

theorem variableIds_newNamedVariable (s : Script γ) (name : List UInt8) :
    (s.newNamedVariable name).variableIds = s.variablesCount :: s.variableIds := rfl

theorem grows_newNamedVariable (s : Script γ) (name : List UInt8) :
    s.Grows (s.newNamedVariable name) :=
  ⟨le_rfl, Nat.le_succ _, le_rfl, fun _ h => List.mem_cons_of_mem _ h⟩

theorem uses_newNamedVariable (s : Script γ) (name : List UInt8) :
    Uses s (s.newNamedVariable name) [] [] where
  grows := grows_newNamedVariable s name
  named := by
    intro hs n hn
    rcases List.mem_cons.mp hn with rfl | hn
    · exact Nat.lt_succ_self _
    · exact (hs n hn).mono (grows_newNamedVariable s name)
  reads := by simp [Action.allReads]
  sets := by simp [Action.allSets]
  numbered := by
    intro results hnumbered
    refine List.perm_iff_count.mpr fun id => ?_
    have hcount := hnumbered.count_eq id
    have hvars : (s.newNamedVariable name).variablesCount = s.variablesCount + 1 := rfl
    simp only [Action.allResults, variableIds_newNamedVariable, hvars, List.range_succ,
      List.count_append, List.count_cons, List.count_nil] at hcount ⊢
    omega
  once := by simp [Action.allReads]

/-! ## Trees -/

theorem getFunction_ne_langSet {name : List UInt8} {func : SimpleAction}
    (h : getFunction name = some func) : func ≠ .langSet := by
  unfold getFunction at h
  split_ifs at h <;> cases h <;> simp

mutual

theorem Expr.resolve_uses {e : Expr} {s s' : Script γ} {r : Resolved.Expr}
    (h : e.resolve conv s = .ok (r, s')) : Uses s s' r.flatten [r.value] := by
  cases e with
  | constant type string =>
      obtain ⟨⟨x, s₁⟩, hx, h⟩ := ok_of_bind h
      cases h
      exact ruleConstant_uses hx
  | target t =>
      obtain ⟨⟨x, s₁⟩, hx, h⟩ := ok_of_bind h
      cases h
      exact (t.compile_uses hx).1
  | call name args =>
      obtain ⟨⟨rs, s₁⟩, hargs, h⟩ := ok_of_bind h
      cases hfunc : getFunction name with
      | none => simp [hfunc] at h
      | some func =>
          simp only [hfunc, Except.ok.injEq, Prod.mk.injEq] at h
          obtain ⟨rfl, rfl⟩ := h
          exact (Args.resolve_uses hargs).call (getFunction_ne_langSet hfunc)

theorem Args.resolve_uses {args : Args} {s s' : Script γ} {rs : List Resolved.Expr}
    (h : args.resolve conv s = .ok (rs, s')) :
    Uses s s' (Resolved.Expr.flattenAll rs) (rs.map Resolved.Expr.value) := by
  cases args with
  | empty =>
      cases h
      exact .refl s
  | first e =>
      obtain ⟨⟨r, s₁⟩, he, h⟩ := ok_of_bind h
      cases h
      simpa [Resolved.Expr.flattenAll] using Expr.resolve_uses he
  | comma args e =>
      obtain ⟨⟨rs, s₁⟩, hargs, h⟩ := ok_of_bind h
      obtain ⟨⟨r, s₂⟩, he, h⟩ := ok_of_bind h
      cases rs with
      | nil => cases h
      | cons a rs =>
          cases h
          have hboth := (Args.resolve_uses hargs).trans (Expr.resolve_uses he)
          rw [Resolved.Expr.flattenAll_append]
          simpa [Resolved.Expr.flattenAll] using hboth

end

/-- A statement whose value a rule has set. -/
def Stmt.hasValue : Stmt → Bool
  | .paren s => s.hasValue
  | .set _ _ => true
  | .expr _ => true
  | _ => false

mutual

/-- The conditions are on statements that have a value. -/
def Stmt.Valued : Stmt → Prop
  | .paren s => s.Valued
  | .condition _ _ s block => s.hasValue ∧ s.Valued ∧ Stmt.AllValued block
  | _ => True

def Stmt.AllValued : List Stmt → Prop
  | [] => True
  | s :: rest => s.Valued ∧ Stmt.AllValued rest

end

/-- The value of a statement, if it has one. -/
def Stmt.values (s : Stmt) (r : Resolved.Stmt) : List Thing :=
  if s.hasValue then [r.value] else []

mutual

theorem Stmt.resolve_uses {s : Stmt} {script script' : Script γ} {r : Resolved.Stmt}
    (hvalued : s.Valued) (h : s.resolve conv script = .ok (r, script')) :
    Uses script script' r.flatten (s.values r) := by
  cases s with
  | paren s => exact Stmt.resolve_uses (s := s) hvalued h
  | request stale name =>
      cases h
      exact uses_newRequest script name
  | var stale name =>
      cases h
      exact uses_newNamedVariable script name
  | set dst e =>
      obtain ⟨⟨d, s₁⟩, hd, h⟩ := ok_of_bind h
      obtain ⟨⟨r, s₂⟩, he, h⟩ := ok_of_bind h
      cases h
      obtain ⟨hdst, hid⟩ := dst.compile_uses hd
      have huses := Expr.resolve_uses he
      exact (hdst.trans huses).set fun id heq => huses.grows.names_le id (hid id heq)
  | expr e =>
      obtain ⟨⟨r, s₁⟩, he, h⟩ := ok_of_bind h
      cases h
      exact Expr.resolve_uses he
  | condition negated stale s block =>
      obtain ⟨hvalue, hs', hb'⟩ := hvalued
      obtain ⟨⟨r, s₁⟩, hs, h⟩ := ok_of_bind h
      obtain ⟨⟨b, s₂⟩, hb, h⟩ := ok_of_bind h
      cases h
      have huses := Stmt.resolve_uses hs' hs
      rw [Stmt.values, if_pos hvalue] at huses
      exact huses.condition (Stmt.resolveAll_uses hb' hb) negated

theorem Stmt.resolveAll_uses {statements : List Stmt} {script script' : Script γ}
    {rs : List Resolved.Stmt} (hvalued : Stmt.AllValued statements)
    (h : Stmt.resolveAll conv statements script = .ok (rs, script')) :
    Uses script script' (Resolved.Stmt.flattenAll rs) [] := by
  cases statements with
  | nil =>
      cases h
      exact .refl script
  | cons s rest =>
      obtain ⟨⟨r, s₁⟩, hs, h⟩ := ok_of_bind h
      obtain ⟨⟨rs, s₂⟩, hrest, h⟩ := ok_of_bind h
      cases h
      have hfirst := Stmt.resolve_uses hvalued.1 hs
      have hdrop : Uses script s₁ r.flatten [] := by
        unfold Stmt.values at hfirst
        split at hfirst
        · exact hfirst.drop
        · exact hfirst
      exact hdrop.trans (Stmt.resolveAll_uses hvalued.2 hrest)

end

/-! ## Scripts -/

theorem named_empty : (Script.empty : Script γ).Named := by
  intro name hname
  rcases List.mem_cons.mp hname with rfl | hname
  · trivial
  · obtain rfl := List.mem_singleton.mp hname
    exact Nat.zero_lt_one

theorem numbered_empty : (Script.empty : Script γ).Numbered [] := .refl _

theorem Script.Has.withMain {s : Script γ} {x : Thing} (h : s.Has x)
    (main : List (List Action)) : ({ s with main := main } : Script γ).Has x := by
  cases x <;> exact h

/-- What the rules keep, for a whole script. -/
theorem compiled_uses {statements : List Stmt} {script : Script γ}
    (hvalued : Stmt.AllValued statements)
    (h : compileScript conv statements = .ok script) :
    ∃ rs s, Stmt.resolveAll conv statements Script.empty = .ok (rs, s) ∧
      script = { s with main := [Resolved.Stmt.flattenAll rs] } ∧
      Uses Script.empty s (Resolved.Stmt.flattenAll rs) [] := by
  rw [compileScript_eq] at h
  cases hresolve : Stmt.resolveAll conv statements Script.empty with
  | error e => simp [hresolve, Except.map] at h
  | ok r =>
      simp only [hresolve, Except.map, Except.ok.injEq] at h
      exact ⟨r.1, r.2, rfl, h.symm, Stmt.resolveAll_uses hvalued hresolve⟩

/-- What the actions mention, at any depth, is there. -/
theorem Uses.has {s : Script γ} {block : List Action} {x : Thing}
    (huses : Uses Script.empty s block [])
    (hx : x ∈ Action.allReads block ++ Action.allSets block)
    (main : List (List Action)) : ({ s with main := main } : Script γ).Has x := by
  rcases List.mem_append.mp hx with hx | hx
  · exact (huses.reads named_empty x (by simpa using hx)).withMain _
  · exact (huses.sets named_empty x hx).1.withMain _

/-- **A compiled script keeps to its tables, and every variable has one owner**: what
the actions mention at any depth is there, a variable below the count is either one that
a declaration has named or the result of one call, and a result is assigned to by
nothing else and read once at most. -/
theorem compiled_owned {statements : List Stmt} {script : Script γ}
    (hvalued : Stmt.AllValued statements)
    (h : compileScript conv statements = .ok script) : ∃ block, script.main = [block] ∧
      (∀ x ∈ Action.allReads block ++ Action.allSets block, script.Has x) ∧
      (Action.allResults block ++ script.variableIds).Perm
      (List.range script.variablesCount) ∧ ∀ id ∈ Action.allResults block,
        (Action.allReads block).count (.variable id) ≤ 1 ∧
        Thing.variable id ∉ Action.allSets block := by
  obtain ⟨rs, s, -, rfl, huses⟩ := compiled_uses hvalued h
  have hperm : s.Numbered (Action.allResults (Resolved.Stmt.flattenAll rs)) :=
    huses.numbered [] numbered_empty
  have hnodup := (hperm.nodup_iff).mpr List.nodup_range
  obtain ⟨hresults, -, hdisjoint⟩ := List.nodup_append.mp hnodup
  refine ⟨Resolved.Stmt.flattenAll rs, rfl, fun x hx => huses.has hx _, hperm,
    fun id hid => ⟨?_, fun hset => ?_⟩⟩
  · have honce := huses.once id fun hnamed => hdisjoint id hid id hnamed rfl
    rw [List.append_nil] at honce
    exact honce.trans (List.nodup_iff_count_le_one.mp hresults id)
  · exact hdisjoint id hid id ((huses.sets named_empty _ hset).2 id rfl) rfl

end

/-! ## A script -/

/-- A type, and data that is as long as its text. -/
def lengths : Conversions TypeId Holder where
  initDatatype _ := some .backendt
  initData type string := some ⟨type, .object string.length⟩
  initKey key := some (.ofNat key.length)
  strToAction _ := none
  uint32 _ := tempAny

/-- `var_t x; x = query((backend_t)'b', request); if x { ret = pass(request); };`, with
something left in the keywords. -/
def queryThenPass : List Stmt :=
  let request := Expr.target (.label [114, 101, 113, 117, 101, 115, 116])
  [.var (.variable 7) [120],
   .set (.label [120]) (.call [113, 117, 101, 114, 121]
     (.comma (.first (.constant [98] [98])) request)),
   .condition false .ret (.expr (.target (.label [120])))
     [.set (.label [114, 101, 116]) (.call [112, 97, 115, 115] (.first request))]]

/-- What the rules make of it. -/
def queryThenPassBlock : List Action :=
  [.simple ⟨.backendQuery, [.const 0, .hasht 0], some (.variable 1)⟩,
   .simple ⟨.langSet, [.variable 0, .variable 1], none⟩,
   .langIf (.variable 0)
     [.simple ⟨.backendPass, [.hasht 0], some (.variable 2)⟩,
      .simple ⟨.langSet, [.ret, .variable 2], none⟩]]

theorem compile_queryThenPass :
    ∃ script, compileScript lengths queryThenPass = .ok script ∧
    script.main = [queryThenPassBlock] ∧ script.variablesCount = 3 := ⟨_, rfl, rfl, rfl⟩

theorem queryThenPass_valued : Stmt.AllValued queryThenPass :=
  ⟨trivial, trivial, ⟨rfl, trivial, trivial, trivial⟩, trivial⟩

/-- The results of the two calls are variables 1 and 2, and `x` is variable 0. -/
theorem queryThenPass_owned : ∃ script, compileScript lengths queryThenPass = .ok script ∧
    script.variablesCount = 3 ∧ ∃ block, script.main = [block] ∧
      (∀ x ∈ Action.allReads block ++ Action.allSets block, script.Has x) ∧
      (Action.allResults block ++ script.variableIds).Perm
      (List.range script.variablesCount) ∧ ∀ id ∈ Action.allResults block,
        (Action.allReads block).count (.variable id) ≤ 1 ∧
        Thing.variable id ∉ Action.allSets block := by
  obtain ⟨script, hcompile, -, hcount⟩ := compile_queryThenPass
  exact ⟨script, hcompile, hcount, compiled_owned queryThenPass_valued hcompile⟩

end Frozen.Rewrite
