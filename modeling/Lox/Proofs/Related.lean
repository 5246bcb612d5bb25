import Lox.Operator
import Lox.World
import Mathlib

/-!
# Lox.Proofs.Related

Two runs side by side. Values are related that are the same but for the functions in them
(`Value.Rel`); which functions may stand for one another is a parameter, as is which methods may.
Whatever it is, such values are shown, tested and compared alike, and operators take them to such
values again or to one failure. Computations are related that, started on related states, end alike
(`Computation.Rel`).
-/

namespace Lox

/-! ## Options, arrays and tables -/

theorem optionRel_mono {α β : Type} {R S : α → β → Prop} (h : ∀ {a b}, R a b → S a b)
    {a : Option α} {b : Option β} (hab : Option.Rel R a b) : Option.Rel S a b := by
  cases hab with
  | none => exact .none
  | some hab => exact .some (h hab)

/-- Arrays of one size with related entries. -/
structure ArrayTwin {α : Type} (R : α → α → Prop) (xs ys : Array α) : Prop where
  size : ys.size = xs.size
  entry : ∀ i : Nat, Option.Rel R xs[i]? ys[i]?

namespace ArrayTwin

variable {α : Type} {R S : α → α → Prop} {xs ys : Array α}

theorem push (h : ArrayTwin R xs ys) {a b : α} (hab : R a b) :
    ArrayTwin R (xs.push a) (ys.push b) := by
  refine ⟨by simp [h.size], fun i => ?_⟩
  rw [Array.getElem?_push, Array.getElem?_push, h.size]
  by_cases hi : i = xs.size
  · rw [if_pos hi, if_pos hi]
    exact .some hab
  · rw [if_neg hi, if_neg hi]
    exact h.entry i

theorem modify (h : ArrayTwin R xs ys) (i : Nat) {f g : α → α}
    (hfg : ∀ {a b}, R a b → R (f a) (g b)) : ArrayTwin R (xs.modify i f) (ys.modify i g) := by
  refine ⟨by simp [h.size], fun j => ?_⟩
  rw [Array.getElem?_modify, Array.getElem?_modify]
  by_cases hj : i = j
  · rw [if_pos hj, if_pos hj]
    have hentry := h.entry j
    revert hentry
    cases xs[j]? <;> cases ys[j]? <;> rintro ⟨⟩
    · exact .none
    · rename_i hab
      exact .some (hfg hab)
  · rw [if_neg hj, if_neg hj]
    exact h.entry j

theorem mono (hRS : ∀ {a b}, R a b → S a b) (h : ArrayTwin R xs ys) : ArrayTwin S xs ys :=
  ⟨h.size, fun i => optionRel_mono hRS (h.entry i)⟩

theorem setIfInBounds (h : ArrayTwin R xs ys) (i : Nat) {a b : α} (hab : R a b) :
    ArrayTwin R (xs.setIfInBounds i a) (ys.setIfInBounds i b) := by
  refine ⟨by simp [h.size], fun j => ?_⟩
  rw [Array.getElem?_setIfInBounds, Array.getElem?_setIfInBounds, h.size]
  by_cases hj : i = j
  · rw [if_pos hj, if_pos hj]
    by_cases hi : i < xs.size
    · rw [if_pos hi, if_pos hi]
      exact .some hab
    · rw [if_neg hi, if_neg hi]
      exact .none
  · rw [if_neg hj, if_neg hj]
    exact h.entry j

end ArrayTwin

variable {ε ε' : Type}

/-- Tables with the same names and related entries. -/
def Bindings.Rel {β γ : Type} (R : β → γ → Prop) (bs : Bindings β) (bs' : Bindings γ) : Prop :=
  ∀ name, Option.Rel R (bs.find? name) (bs'.find? name)

namespace Bindings.Rel

variable {β γ : Type} {R : β → γ → Prop} {bs : Bindings β} {bs' : Bindings γ}

theorem empty : Bindings.Rel R .empty .empty := fun _ => .none

theorem insert (h : Bindings.Rel R bs bs') (name : String) {b : β} {b' : γ} (hb : R b b') :
    Bindings.Rel R (bs.insert name b) (bs'.insert name b') := by
  intro m
  rw [find?_insert, find?_insert]
  by_cases hm : name = m
  · rw [if_pos hm, if_pos hm]
    exact .some hb
  · rw [if_neg hm, if_neg hm]
    exact h m

end Bindings.Rel

/-- Functions that are shown alike and take as many arguments. -/
structure Closure.Resembles (f : Closure ε) (g : Closure ε') : Prop where
  name : g.name = f.name
  arity : g.arity = f.arity

section

/-! ## Classes, values and what can be called -/

variable (F M : Closure ε → Closure ε' → Prop)

inductive Class.Rel : Class ε → Class ε' → Prop
  | base (name : String) {ms : Bindings (Closure ε)} {ms' : Bindings (Closure ε')} :
      Bindings.Rel M ms ms' → Rel (.base name ms) (.base name ms')
  | derived (name : String) {c : Class ε} {c' : Class ε'} {ms : Bindings (Closure ε)}
      {ms' : Bindings (Closure ε')} : Rel c c' → Bindings.Rel M ms ms' →
      Rel (.derived name c ms) (.derived name c' ms')

inductive Value.Rel : Value ε → Value ε' → Prop
  | nil : Rel .nil .nil
  | bool (b : Bool) : Rel (.bool b) (.bool b)
  | number (x : Float) : Rel (.number x) (.number x)
  | string (s : String) : Rel (.string s) (.string s)
  | native (n : Native) : Rel (.native n) (.native n)
  | function {f : Closure ε} {f' : Closure ε'} : F f f' → Rel (.function f) (.function f')
  | cls {c : Class ε} {c' : Class ε'} : Class.Rel M c c' → Rel (.cls c) (.cls c')
  | object {c : Class ε} {c' : Class ε'} (o : ObjectId) : Class.Rel M c c' →
      Rel (.object c o) (.object c' o)

inductive Callable.Rel : Callable ε → Callable ε' → Prop
  | native (n : Native) : Rel (.native n) (.native n)
  | function {f : Closure ε} {f' : Closure ε'} : F f f' → Rel (.function f) (.function f')
  | cls {c : Class ε} {c' : Class ε'} : Class.Rel M c c' → Rel (.cls c) (.cls c')

end

/-! ## What values have in common -/

variable {F M : Closure ε → Closure ε' → Prop}

namespace Class.Rel

variable {c : Class ε} {c' : Class ε'}

theorem name_eq (h : Class.Rel M c c') : c'.name = c.name := by
  cases h <;> rfl

theorem findMethod? (h : Class.Rel M c c') (m : String) :
    Option.Rel M (c.findMethod? m) (c'.findMethod? m) := by
  induction h with
  | base name hm => exact hm m
  | derived name _ hm ih =>
    have hfound := hm m
    unfold Class.findMethod?
    revert hfound
    cases Bindings.find? _ m <;> cases Bindings.find? _ m <;> rintro ⟨⟩
    · exact ih
    · rename_i hf
      exact .some hf

theorem arity_eq (hM : ∀ {f g}, M f g → f.Resembles g) (h : Class.Rel M c c') :
    c'.arity = c.arity := by
  have hinit := h.findMethod? initializerName
  unfold Class.arity
  revert hinit
  cases c.findMethod? initializerName <;> cases c'.findMethod? initializerName <;> rintro ⟨⟩
  · rfl
  · rename_i hf
    exact (hM hf).arity

end Class.Rel

theorem Callable.Rel.arity_eq (hF : ∀ {f g}, F f g → f.Resembles g)
    (hM : ∀ {f g}, M f g → f.Resembles g) {c : Callable ε} {c' : Callable ε'}
    (h : Callable.Rel F M c c') : c'.arity = c.arity := by
  cases h with
  | native n => rfl
  | function hf => exact (hF hf).arity
  | cls hc => exact hc.arity_eq hM

namespace Value.Rel

variable {v : Value ε} {v' : Value ε'}

theorem isTruthy_eq (h : Value.Rel F M v v') : v'.isTruthy = v.isTruthy := by
  cases h with
  | bool b => cases b <;> rfl
  | _ => rfl

theorem typeName_eq (h : Value.Rel F M v v') : v'.typeName = v.typeName := by
  cases h <;> rfl

theorem text_eq (hF : ∀ {f g}, F f g → f.Resembles g) (h : Value.Rel F M v v') :
    v'.text = v.text := by
  cases h with
  | function hf =>
    simp only [Value.text]
    rw [(hF hf).name]
  | cls hc => exact hc.name_eq
  | object o hc =>
    simp only [Value.text]
    rw [hc.name_eq]
  | _ => rfl

theorem callable? (h : Value.Rel F M v v') :
    Option.Rel (Callable.Rel F M) v.callable? v'.callable? := by
  cases h with
  | native n => exact .some (.native n)
  | function hf => exact .some (.function hf)
  | cls hc => exact .some (.cls hc)
  | _ => exact .none

theorem ofConstant (c : Constant) : Value.Rel F M (.ofConstant c) (.ofConstant c) := by
  cases c with
  | number x => exact .number x
  | string s => exact .string s
  | bool b => exact .bool b
  | nil => exact .nil

end Value.Rel

/-! ## Operators -/

/-- Related results, or the same failure. -/
inductive Operator.ResultRel (F M : Closure ε → Closure ε' → Prop) :
    Except RuntimeProblem (Value ε) → Except RuntimeProblem (Value ε') → Prop
  | ok {v : Value ε} {v' : Value ε'} : Value.Rel F M v v' → ResultRel F M (.ok v) (.ok v')
  | error (problem : RuntimeProblem) : ResultRel F M (.error problem) (.error problem)

namespace Operator

variable {l r : Value ε} {l' r' : Value ε'} {operator operator' : Token}

theorem rel_unary (hkind : operator'.kind = operator.kind)
    (hlexeme : operator'.lexeme = operator.lexeme) (h : Value.Rel F M r r') :
    ResultRel F M (unary operator r) (unary operator' r') := by
  unfold unary
  rw [hkind, hlexeme, h.isTruthy_eq]
  split
  · cases h with
    | number x => exact .ok (.number (-x))
    | _ => exact .error _
  · exact .ok (.bool _)
  · exact .error _

theorem equal_rel (hlexeme : operator'.lexeme = operator.lexeme) (hl : Value.Rel F M l l')
    (hr : Value.Rel F M r r') : equal l' r' operator' = equal l r operator := by
  unfold equal
  rw [hlexeme]
  cases hl <;> cases hr <;> rfl

theorem rel_equal (hlexeme : operator'.lexeme = operator.lexeme) (hl : Value.Rel F M l l')
    (hr : Value.Rel F M r r') (f : Bool → Bool) :
    ResultRel F M ((equal l r operator).map fun b => .bool (f b))
      ((equal l' r' operator').map fun b => .bool (f b)) := by
  rw [equal_rel hlexeme hl hr]
  cases equal l r operator with
  | ok b => exact .ok (.bool (f b))
  | error problem => exact .error problem

theorem rel_add (hl : Value.Rel F M l l') (hr : Value.Rel F M r r') :
    ResultRel F M (add l r) (add l' r') := by
  cases hl with
  | number a =>
    cases hr with
    | number b => exact .ok (.number (a + b))
    | _ => exact .error _
  | string a =>
    cases hr with
    | string b => exact .ok (.string (a ++ b))
    | _ => exact .error _
  | _ => exact .error _

theorem rel_onNumbers {f : Float → Float → Value ε} {f' : Float → Float → Value ε'}
    (hf : ∀ a b, Value.Rel F M (f a b) (f' a b)) (hl : Value.Rel F M l l')
    (hr : Value.Rel F M r r') : ResultRel F M (onNumbers f l r) (onNumbers f' l' r') := by
  cases hl with
  | number a =>
    cases hr with
    | number b => exact .ok (hf a b)
    | _ => exact .error _
  | _ => exact .error _

theorem rel_binary (hkind : operator'.kind = operator.kind)
    (hlexeme : operator'.lexeme = operator.lexeme) (hl : Value.Rel F M l l')
    (hr : Value.Rel F M r r') : ResultRel F M (binary l operator r) (binary l' operator' r') := by
  unfold binary
  rw [hkind, hlexeme, hl.typeName_eq, hr.typeName_eq]
  split
  · exact rel_equal hlexeme hl hr id
  · exact rel_equal hlexeme hl hr not
  · exact rel_add hl hr
  · exact rel_onNumbers (fun _ _ => .number _) hl hr
  · exact rel_onNumbers (fun _ _ => .number _) hl hr
  · exact rel_onNumbers (fun _ _ => .number _) hl hr
  · exact rel_onNumbers (fun _ _ => .bool _) hl hr
  · exact rel_onNumbers (fun _ _ => .bool _) hl hr
  · exact rel_onNumbers (fun _ _ => .bool _) hl hr
  · exact rel_onNumbers (fun _ _ => .bool _) hl hr
  · exact .error _

theorem isDecided_rel (hkind : operator'.kind = operator.kind) (h : Value.Rel F M l l') :
    isDecided operator' l' = isDecided operator l := by
  simp only [isDecided, hkind, h.isTruthy_eq]

end Operator

/-! ## Computations -/

/-- Two ends alike: related values or errors, and related states, or both out of fuel. -/
inductive Outcome.Rel {σ σ' α β : Type} (P : σ → σ' → Prop) (E : Error → Error → Prop)
    (R : α → β → Prop) : Outcome σ α → Outcome σ' β → Prop
  | done {a : α} {b : β} {s : σ} {s' : σ'} : R a b → P s s' → Rel P E R (.done a s) (.done b s')
  | failed {e e' : Error} {s : σ} {s' : σ'} : E e e' → P s s' →
      Rel P E R (.failed e s) (.failed e' s')
  | outOfFuel : Rel P E R .outOfFuel .outOfFuel

namespace Computation

variable {σ σ' α β γ δ : Type}

/-- From related states, the computations end alike. -/
def Rel (P : σ → σ' → Prop) (E : Error → Error → Prop) (R : α → β → Prop) (x : Computation σ α)
    (x' : Computation σ' β) : Prop :=
  ∀ ⦃s s'⦄, P s s' → Outcome.Rel P E R (x s) (x' s')

variable {P : σ → σ' → Prop} {E : Error → Error → Prop} {R : α → β → Prop} {S : γ → δ → Prop}

theorem rel_pure {a : α} {b : β} (h : R a b) :
    Rel P E R (pure a : Computation σ α) (pure b : Computation σ' β) :=
  fun _ _ hs => .done h hs

theorem rel_bind {x : Computation σ α} {x' : Computation σ' β} {k : α → Computation σ γ}
    {k' : β → Computation σ' δ} (h : Rel P E R x x')
    (hk : ∀ a b, R a b → Rel P E S (k a) (k' b)) : Rel P E S (x >>= k) (x' >>= k') := by
  intro s s' hs
  rw [bind_apply, bind_apply]
  have hend := h hs
  revert hend
  generalize x s = o, x' s' = o'
  intro hend
  cases hend with
  | done hab hs => exact hk _ _ hab hs
  | failed he hs => exact .failed he hs
  | outOfFuel => exact .outOfFuel

theorem rel_exhausted : Rel P E R (exhausted : Computation σ α) (exhausted : Computation σ' β) :=
  fun _ _ _ => .outOfFuel

theorem rel_fail {p p' : RuntimeProblem} (h : E (.runtime p) (.runtime p')) :
    Rel P E R (fail p : Computation σ α) (fail p' : Computation σ' β) :=
  fun _ _ hs => .failed h hs

theorem rel_ofExcept (hE : ∀ e, E e e) {r : Except RuntimeProblem (Value ε)}
    {r' : Except RuntimeProblem (Value ε')} (h : Operator.ResultRel F M r r') :
    Rel P E (Value.Rel F M) (ofExcept r : Computation σ _) (ofExcept r' : Computation σ' _) := by
  cases h with
  | ok hv => exact rel_pure hv
  | error problem => exact rel_fail (hE _)

end Computation

/-! ## Natives -/

/-- All that a native takes from its arguments is a text, and what it yields holds no function. -/
theorem Native.rel_run {Q : Error → Error → Prop} (hF : ∀ {f g}, F f g → f.Resembles g)
    (hE : ∀ e, Q e e) (n : Native) {args : List (Value ε)} {args' : List (Value ε')}
    (h : List.Forall₂ (Value.Rel F M) args args') :
    Computation.Rel Eq Q (Value.Rel F M) (n.run args) (n.run args') := by
  have htext : (args'.headD .nil).text = (args.headD .nil).text := by
    cases h with
    | nil => rfl
    | cons hv _ => exact hv.text_eq hF
  have hrefl {α : Type} (x : Computation World α) : Computation.Rel Eq Q Eq x x := by
    rintro w _ rfl
    cases x w with
    | done a w => exact .done rfl rfl
    | failed e w => exact .failed (hE e) rfl
    | outOfFuel => exact .outOfFuel
  cases n with
  | clock =>
    refine Computation.rel_bind (hrefl _) fun x _ hx => ?_
    subst hx
    exact Computation.rel_pure (.number x)
  | print =>
    simp only [run, htext]
    exact Computation.rel_bind (hrefl _) fun _ _ _ => Computation.rel_pure .nil
  | str =>
    simp only [run, htext]
    exact Computation.rel_pure (.string _)

end Lox
