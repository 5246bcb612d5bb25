import Lox.Operator
import Lox.Proofs.Lexical.Plan

/-!
# Lox.Proofs.Lexical.Related

Values of the two evaluators that stand for the same. Functions are of one declaration, each closing
over its own side of aligned scopes in which the declaration is linked; a method does so once its
receiver is bound. All that operators, calls and printed texts depend on is the same on both sides.
-/

namespace Lox

/-- Failures that the static checks are there to exclude. -/
def RuntimeProblem.isInternal : RuntimeProblem → Bool
  | unboundLocal _ | unknownUnary _ | unknownBinary _ _ _ | superOutsideClass | invalidSuper
  | unparsedExpression => true
  | _ => false

namespace Operator

variable {l r : Value} {operator : Token} {p : RuntimeProblem}

theorem isInternal_of_unary (ho : operator.kind ∈ unaryKinds) (h : unary operator r = .error p) :
    p.isInternal = false := by
  simp only [unaryKinds, List.mem_cons, List.not_mem_nil, or_false] at ho
  obtain ho | ho := ho <;> simp only [unary, ho] at h
  · cases h
  · cases r <;> cases h <;> rfl

theorem isInternal_of_add (h : add l r = .error p) : p.isInternal = false := by
  unfold add at h
  split at h <;> cases h <;> rfl

theorem isInternal_of_onNumbers {f : Float → Float → Value} (h : onNumbers f l r = .error p) :
    p.isInternal = false := by
  unfold onNumbers at h
  split at h <;> cases h
  rfl

theorem isInternal_of_equal (h : equal l r operator = .error p) : p.isInternal = false := by
  unfold equal at h
  split at h <;> cases h
  rfl

theorem isInternal_of_map_equal {f : Bool → Value} (h : (equal l r operator).map f = .error p) :
    p.isInternal = false := by
  cases hequal : equal l r operator with
  | ok b =>
    rw [hequal] at h
    cases h
  | error p' =>
    rw [hequal] at h
    cases h
    exact isInternal_of_equal hequal

theorem isInternal_of_binary (ho : operator.kind ∈ binaryKinds)
    (h : binary l operator r = .error p) : p.isInternal = false := by
  simp only [binaryKinds, List.mem_cons, List.not_mem_nil, or_false] at ho
  unfold binary at h
  obtain ho | ho | ho | ho | ho | ho | ho | ho | ho | ho := ho <;> simp only [ho] at h
  · exact isInternal_of_map_equal h
  · exact isInternal_of_map_equal h
  · exact isInternal_of_onNumbers h
  · exact isInternal_of_onNumbers h
  · exact isInternal_of_onNumbers h
  · exact isInternal_of_onNumbers h
  · exact isInternal_of_onNumbers h
  · exact isInternal_of_add h
  · exact isInternal_of_onNumbers h
  · exact isInternal_of_onNumbers h

end Operator

namespace Lexical

theorem exists_of_rel_some {α β : Type} {R : α → β → Prop} {a : α} {b : Option β}
    (h : Option.Rel R (some a) b) : ∃ b', b = some b' ∧ R a b' := by
  cases h with
  | some h => exact ⟨_, rfl, h⟩

/-- A declaration can run where its own scopes are these. -/
structure Runnable (w : Plan) (decl : FunctionDecl) (isInitializer : Bool)
    (scopes : List Lox.Scope) : Prop where
  linked : ∃ (t : Table) (ctx : ResolveContext), t.Le w.table ∧ decl.Linked t ctx scopes ∧
    Scope.Carries scopes ctx.cls ∧ (ctx.function = .initializer ↔ isInitializer = true)
  receiver : isInitializer = true → Scope.Has scopes "this" 0

/-- Functions that can be called. -/
structure FunctionRel (w : Plan) (f : Closure) (g : Closure Names) : Prop where
  decl : g.decl = f.decl
  isInitializer : g.isInitializer = f.isInitializer
  scopes : ∃ scopes, Runnable w f.decl f.isInitializer scopes ∧ Scope.Settled scopes ∧
    Aligned w scopes f.env g.env

/-- Methods, which can be called when they are bound. -/
structure MethodRel (w : Plan) (f : Closure) (g : Closure Names) : Prop where
  decl : g.decl = f.decl
  isInitializer : g.isInitializer = f.isInitializer
  scopes : ∃ scopes, Runnable w f.decl f.isInitializer (Resolve.thisScope :: scopes) ∧
    Scope.Settled scopes ∧ Aligned w scopes f.env g.env

/-- Method tables with the same names. -/
def MethodsRel (w : Plan) (ms : Bindings Closure) (ms' : Bindings (Closure Names)) : Prop :=
  ∀ name, Option.Rel (MethodRel w) (ms.find? name) (ms'.find? name)

inductive ClassRel (w : Plan) : Class → Class Names → Prop
  | base (name : String) {ms : Bindings Closure} {ms' : Bindings (Closure Names)} :
      MethodsRel w ms ms' → ClassRel w (.base name ms) (.base name ms')
  | derived (name : String) {c : Class} {c' : Class Names} {ms : Bindings Closure}
      {ms' : Bindings (Closure Names)} : ClassRel w c c' → MethodsRel w ms ms' →
      ClassRel w (.derived name c ms) (.derived name c' ms')

inductive ValueRel (w : Plan) : Value → Value Names → Prop
  | nil : ValueRel w .nil .nil
  | bool (b : Bool) : ValueRel w (.bool b) (.bool b)
  | number (x : Float) : ValueRel w (.number x) (.number x)
  | string (s : String) : ValueRel w (.string s) (.string s)
  | native (n : Native) : ValueRel w (.native n) (.native n)
  | function {f : Closure} {g : Closure Names} : FunctionRel w f g →
      ValueRel w (.function f) (.function g)
  | cls {c : Class} {c' : Class Names} : ClassRel w c c' → ValueRel w (.cls c) (.cls c')
  | object {c : Class} {c' : Class Names} (o : ObjectId) : ClassRel w c c' →
      ValueRel w (.object c o) (.object c' o)

inductive CallableRel (w : Plan) : Callable → Callable Names → Prop
  | native (n : Native) : CallableRel w (.native n) (.native n)
  | function {f : Closure} {g : Closure Names} : FunctionRel w f g →
      CallableRel w (.function f) (.function g)
  | cls {c : Class} {c' : Class Names} : ClassRel w c c' → CallableRel w (.cls c) (.cls c')

/-! ## Later plans -/

section Mono

variable {w w' : Plan} (h : w.Le w')
include h

theorem Runnable.mono {d : FunctionDecl} {b : Bool} {scopes : List Lox.Scope}
    (hr : Runnable w d b scopes) : Runnable w' d b scopes := by
  obtain ⟨⟨t, ctx, ht, hlinked⟩, hthis⟩ := hr
  exact ⟨⟨t, ctx, ht.trans h.table, hlinked⟩, hthis⟩

theorem FunctionRel.mono {f : Closure} {g : Closure Names} (hf : FunctionRel w f g) :
    FunctionRel w' f g := by
  obtain ⟨hdecl, hinit, scopes, hr, hs, ha⟩ := hf
  exact ⟨hdecl, hinit, scopes, hr.mono h, hs, ha.mono h⟩

theorem MethodRel.mono {f : Closure} {g : Closure Names} (hf : MethodRel w f g) :
    MethodRel w' f g := by
  obtain ⟨hdecl, hinit, scopes, hr, hs, ha⟩ := hf
  exact ⟨hdecl, hinit, scopes, hr.mono h, hs, ha.mono h⟩

theorem MethodsRel.mono {ms : Bindings Closure} {ms' : Bindings (Closure Names)}
    (hm : MethodsRel w ms ms') : MethodsRel w' ms ms' := by
  intro name
  have hname := hm name
  revert hname
  cases ms.find? name <;> cases ms'.find? name <;> rintro ⟨⟩
  · exact .none
  · rename_i hf
    exact .some (hf.mono h)

theorem ClassRel.mono {c : Class} {c' : Class Names} (hc : ClassRel w c c') :
    ClassRel w' c c' := by
  induction hc with
  | base name hm => exact .base name (hm.mono h)
  | derived name _ hm ih => exact .derived name ih (hm.mono h)

theorem ValueRel.mono {v : Value} {v' : Value Names} (hv : ValueRel w v v') :
    ValueRel w' v v' := by
  cases hv with
  | nil => exact .nil
  | bool b => exact .bool b
  | number x => exact .number x
  | string s => exact .string s
  | native n => exact .native n
  | function hf => exact .function (hf.mono h)
  | cls hc => exact .cls (hc.mono h)
  | object o hc => exact .object o (hc.mono h)

theorem ValueRel.monoOption {v : Option Value} {v' : Option (Value Names)}
    (hv : Option.Rel (ValueRel w) v v') : Option.Rel (ValueRel w') v v' := by
  cases hv with
  | none => exact .none
  | some hv => exact .some (hv.mono h)

theorem ValueRel.monoAll {vs : List Value} {vs' : List (Value Names)}
    (hv : List.Forall₂ (ValueRel w) vs vs') : List.Forall₂ (ValueRel w') vs vs' :=
  hv.imp fun _ _ hv => hv.mono h

end Mono

/-! ## What values have in common -/

variable {w : Plan}

theorem ClassRel.name_eq {c : Class} {c' : Class Names} (h : ClassRel w c c') :
    c'.name = c.name := by
  cases h <;> rfl

theorem ClassRel.findMethod? {c : Class} {c' : Class Names} (h : ClassRel w c c') (m : String) :
    Option.Rel (MethodRel w) (c.findMethod? m) (c'.findMethod? m) := by
  induction h with
  | base name hm => exact hm m
  | derived name hc hm ih =>
    have hfound := hm m
    unfold Class.findMethod?
    revert hfound
    cases Bindings.find? _ m <;> cases Bindings.find? _ m <;> rintro ⟨⟩
    · exact ih
    · rename_i hf
      exact .some hf

theorem FunctionRel.arity_eq {f : Closure} {g : Closure Names} (h : FunctionRel w f g) :
    g.arity = f.arity := by
  rw [Closure.arity, h.decl]
  rfl

theorem MethodRel.arity_eq {f : Closure} {g : Closure Names} (h : MethodRel w f g) :
    g.arity = f.arity := by
  rw [Closure.arity, h.decl]
  rfl

theorem ClassRel.arity_eq {c : Class} {c' : Class Names} (h : ClassRel w c c') :
    c'.arity = c.arity := by
  have hinit := h.findMethod? initializerName
  unfold Class.arity
  revert hinit
  cases c.findMethod? initializerName <;> cases c'.findMethod? initializerName <;> rintro ⟨⟩
  · rfl
  · rename_i hf
    exact hf.arity_eq

theorem CallableRel.arity_eq {c : Callable} {c' : Callable Names} (h : CallableRel w c c') :
    c'.arity = c.arity := by
  cases h with
  | native n => rfl
  | function hf => exact hf.arity_eq
  | cls hc => exact hc.arity_eq

namespace ValueRel

variable {v : Value} {v' : Value Names}

theorem isTruthy_eq (h : ValueRel w v v') : v'.isTruthy = v.isTruthy := by
  cases h with
  | bool b => cases b <;> rfl
  | _ => rfl

theorem text_eq (h : ValueRel w v v') : v'.text = v.text := by
  cases h with
  | function hf =>
    simp only [Value.text, Closure.name]
    rw [hf.decl]
  | cls hc => exact hc.name_eq
  | object o hc =>
    simp only [Value.text]
    rw [hc.name_eq]
  | _ => rfl

theorem callable? (h : ValueRel w v v') :
    Option.Rel (CallableRel w) v.callable? v'.callable? := by
  cases h with
  | native n => exact .some (.native n)
  | function hf => exact .some (.function hf)
  | cls hc => exact .some (.cls hc)
  | _ => exact .none

theorem ofConstant (c : Constant) : ValueRel w (.ofConstant c) (.ofConstant c) := by
  cases c with
  | number x => exact .number x
  | string s => exact .string s
  | bool b => exact .bool b
  | nil => exact .nil

end ValueRel

/-! ## Operators -/

/-- Results of an operator: related values, or one failure that a program may really have. -/
def ResultRel (w : Plan) : Except RuntimeProblem Value → Except RuntimeProblem (Value Names) → Prop
  | .ok v, .ok v' => ValueRel w v v'
  | .error p, .error p' => p' = p ∧ p.isInternal = false
  | _, _ => False

section Operators

variable {l r : Value} {l' r' : Value Names} {operator : Token}

theorem unary_rel (h : ValueRel w r r') (ho : operator.kind ∈ Operator.unaryKinds) :
    ResultRel w (Operator.unary operator r) (Operator.unary operator r') := by
  simp only [Operator.unaryKinds, List.mem_cons, List.not_mem_nil, or_false] at ho
  obtain ho | ho := ho
  · simp only [Operator.unary, ho, h.isTruthy_eq]
    exact .bool _
  · simp only [Operator.unary, ho]
    cases h with
    | number x => exact .number (-x)
    | _ => exact ⟨rfl, rfl⟩

theorem equal_eq (hl : ValueRel w l l') (hr : ValueRel w r r') :
    Operator.equal l' r' operator = Operator.equal l r operator := by
  cases hl <;> cases hr <;> rfl

theorem map_equal_rel (hl : ValueRel w l l') (hr : ValueRel w r r') (f : Bool → Bool) :
    ResultRel w ((Operator.equal l r operator).map fun b => .bool (f b))
      ((Operator.equal l' r' operator).map fun b => .bool (f b)) := by
  rw [equal_eq hl hr]
  cases h : Operator.equal l r operator with
  | ok b => exact .bool (f b)
  | error p => exact ⟨rfl, Operator.isInternal_of_equal h⟩

theorem add_rel (hl : ValueRel w l l') (hr : ValueRel w r r') :
    ResultRel w (Operator.add l r) (Operator.add l' r') := by
  cases hl with
  | number a =>
    cases hr with
    | number b => exact .number (a + b)
    | _ => exact ⟨rfl, rfl⟩
  | string a =>
    cases hr with
    | string b => exact .string (a ++ b)
    | _ => exact ⟨rfl, rfl⟩
  | _ => exact ⟨rfl, rfl⟩

theorem onNumbers_rel (hl : ValueRel w l l') (hr : ValueRel w r r') {f : Float → Float → Value}
    {f' : Float → Float → Value Names} (hf : ∀ a b, ValueRel w (f a b) (f' a b)) :
    ResultRel w (Operator.onNumbers f l r) (Operator.onNumbers f' l' r') := by
  cases hl with
  | number a =>
    cases hr with
    | number b => exact hf a b
    | _ => exact ⟨rfl, rfl⟩
  | _ => exact ⟨rfl, rfl⟩

theorem binary_rel (hl : ValueRel w l l') (hr : ValueRel w r r')
    (ho : operator.kind ∈ Operator.binaryKinds) :
    ResultRel w (Operator.binary l operator r) (Operator.binary l' operator r') := by
  simp only [Operator.binaryKinds, List.mem_cons, List.not_mem_nil, or_false] at ho
  unfold Operator.binary
  obtain ho | ho | ho | ho | ho | ho | ho | ho | ho | ho := ho <;> simp only [ho]
  · exact map_equal_rel hl hr not
  · exact map_equal_rel hl hr id
  · exact onNumbers_rel hl hr fun a b => .bool _
  · exact onNumbers_rel hl hr fun a b => .bool _
  · exact onNumbers_rel hl hr fun a b => .bool _
  · exact onNumbers_rel hl hr fun a b => .bool _
  · exact onNumbers_rel hl hr fun a b => .number _
  · exact add_rel hl hr
  · exact onNumbers_rel hl hr fun a b => .number _
  · exact onNumbers_rel hl hr fun a b => .number _

theorem isDecided_eq (h : ValueRel w l l') :
    Operator.isDecided operator l' = Operator.isDecided operator l := by
  simp only [Operator.isDecided, h.isTruthy_eq]

end Operators

end Lexical
end Lox
