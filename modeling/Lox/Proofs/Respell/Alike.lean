import Lox.Program
import Lox.Proofs.Related

/-!
# Lox.Proofs.Respell.Alike

Trees that are the same but for the spelling of variables. Along two such trees goes a relation that
says how a name at a point of the one is spelled at the same point of the other. A reference has a
spelling of its name, and a declaration changes the relation for what comes after it
(`Spelling.Declares`): from there on its name stands for the one declared, in both trees or in
neither, and no other name has another spelling than before.
-/

namespace Lox

/-- Names of one program with the spellings they have in another. -/
def Spelling := String → String → Prop

/-- What a declaration makes of a spelling. A global variable has the same name in both programs. -/
structure Spelling.Declares (isTop : Bool) (r : Spelling) (name name' : String) (r' : Spelling) :
    Prop where
  global : isTop = true → name' = name
  own : isTop = false → ∀ {a a'}, r' a a' → (name = a ↔ name' = a')
  outer : ∀ {a a'}, r' a a' → isTop = true ∨ name ≠ a → r a a'

/-- Parameters are declared one after the other. -/
inductive Spelling.DeclaresAll : Spelling → List Token → List Token → Spelling → Prop
  | nil {r : Spelling} : DeclaresAll r [] [] r
  | cons {r r' r'' : Spelling} {p p' : Token} {ps ps' : List Token} :
      r.Declares false p.lexeme p'.lexeme r' → DeclaresAll r' ps ps' r'' →
      DeclaresAll r (p :: ps) (p' :: ps') r''

mutual

inductive Expr.Alike (r : Spelling) : Expr → Expr → Prop
  | constant (c : Constant) : Alike r (.constant c) (.constant c)
  | grouping {e e' : Expr} : Alike r e e' → Alike r (.grouping e) (.grouping e')
  | unary {operator : Token} {e e' : Expr} : Alike r e e' →
      Alike r (.unary operator e) (.unary operator e')
  | binary {left left' right right' : Expr} {operator : Token} : Alike r left left' →
      Alike r right right' → Alike r (.binary left operator right) (.binary left' operator right')
  | logical {left left' right right' : Expr} {operator : Token} : Alike r left left' →
      Alike r right right' → Alike r (.logical left operator right) (.logical left' operator right')
  | var {id : RefId} {name name' : Token} : r name.lexeme name'.lexeme →
      Alike r (.var id name) (.var id name')
  | assign {id : RefId} {name name' : Token} {value value' : Expr} :
      r name.lexeme name'.lexeme → Alike r value value' →
      Alike r (.assign id name value) (.assign id name' value')
  | call {callee callee' : Expr} {paren : Token} {args args' : List Expr} : Alike r callee callee' →
      AllAlike r args args' → Alike r (.call callee paren args) (.call callee' paren args')
  | get {object object' : Expr} {name : Token} : Alike r object object' →
      Alike r (.get object name) (.get object' name)
  | set {object object' value value' : Expr} {name : Token} : Alike r object object' →
      Alike r value value' → Alike r (.set object name value) (.set object' name value')
  | thisRef {id : RefId} {keyword : Token} : r keyword.lexeme keyword.lexeme →
      Alike r (.thisRef id keyword) (.thisRef id keyword)
  | superRef {id : RefId} {keyword method : Token} : r "super" "super" → r "this" "this" →
      Alike r (.superRef id keyword method) (.superRef id keyword method)
  | unparsed : Alike r .unparsed .unparsed

inductive Expr.AllAlike (r : Spelling) : List Expr → List Expr → Prop
  | nil : AllAlike r [] []
  | cons {e e' : Expr} {es es' : List Expr} : Alike r e e' → AllAlike r es es' →
      AllAlike r (e :: es) (e' :: es')

end

mutual

/-- Two statements, at the top level or not, with the spellings before and after them. -/
inductive Stmt.Alike : Bool → Spelling → Spelling → Stmt → Stmt → Prop
  | expression {isTop : Bool} {r : Spelling} {e e' : Expr} : e.Alike r e' →
      Stmt.Alike isTop r r (.expression e) (.expression e')
  | var {isTop : Bool} {r r' : Spelling} {name name' : Token} {init init' : Option Expr} :
      r.Declares isTop name.lexeme name'.lexeme r' → Option.Rel (Expr.Alike r') init init' →
      Stmt.Alike isTop r r' (.var name init) (.var name' init')
  | block {isTop : Bool} {r : Spelling} {body body' : List Stmt} :
      Stmt.AllAlike false r body body' → Stmt.Alike isTop r r (.block body) (.block body')
  | ifThen {isTop : Bool} {r : Spelling} {condition condition' : Expr} {yes yes' : Stmt} :
      condition.Alike r condition' → Stmt.Alike isTop r r yes yes' →
      Stmt.Alike isTop r r (.ifThen condition yes) (.ifThen condition' yes')
  | ifElse {isTop : Bool} {r : Spelling} {condition condition' : Expr} {yes yes' no no' : Stmt} :
      condition.Alike r condition' → Stmt.Alike isTop r r yes yes' → Stmt.Alike isTop r r no no' →
      Stmt.Alike isTop r r (.ifElse condition yes no) (.ifElse condition' yes' no')
  | loop {isTop : Bool} {r : Spelling} {condition condition' : Expr} {body body' : Stmt} :
      condition.Alike r condition' → Stmt.Alike isTop r r body body' →
      Stmt.Alike isTop r r (.loop condition body) (.loop condition' body')
  | function {isTop : Bool} {r r' : Spelling} {decl decl' : FunctionDecl} :
      r.Declares isTop decl.name.lexeme decl.name.lexeme r' → FunctionDecl.Alike r' decl decl' →
      Stmt.Alike isTop r r' (.function decl) (.function decl')
  | ret {isTop : Bool} {r : Spelling} {keyword : Token} {value value' : Option Expr} :
      Option.Rel (Expr.Alike r) value value' →
      Stmt.Alike isTop r r (.ret keyword value) (.ret keyword value')
  | cls {isTop : Bool} {r r' : Spelling} {name : Token} {methods methods' : List FunctionDecl} :
      r.Declares isTop name.lexeme name.lexeme r' → FunctionDecl.AllAlike r' methods methods' →
      Stmt.Alike isTop r r' (.cls name none methods) (.cls name none methods')
  | subclass {isTop : Bool} {r r' r'' : Spelling} {name : Token} {superclass superclass' : Expr}
      {methods methods' : List FunctionDecl} : superclass.Alike r superclass' →
      r.Declares isTop name.lexeme name.lexeme r' → r'.Declares false "super" "super" r'' →
      FunctionDecl.AllAlike r'' methods methods' →
      Stmt.Alike isTop r r' (.cls name (some superclass) methods)
        (.cls name (some superclass') methods')

inductive Stmt.AllAlike : Bool → Spelling → List Stmt → List Stmt → Prop
  | nil {isTop : Bool} {r : Spelling} : Stmt.AllAlike isTop r [] []
  | cons {isTop : Bool} {r r' : Spelling} {s s' : Stmt} {ss ss' : List Stmt} :
      Stmt.Alike isTop r r' s s' → Stmt.AllAlike isTop r' ss ss' →
      Stmt.AllAlike isTop r (s :: ss) (s' :: ss')

/-- Two functions of one name. -/
inductive FunctionDecl.Alike : Spelling → FunctionDecl → FunctionDecl → Prop
  | mk {r r' : Spelling} {name : Token} {params params' : List Token} {body body' : List Stmt} :
      r.DeclaresAll params params' r' → Stmt.AllAlike false r' body body' →
      FunctionDecl.Alike r ⟨name, params, body⟩ ⟨name, params', body'⟩

/-- The methods of two classes, with a receiver around each. -/
inductive FunctionDecl.AllAlike : Spelling → List FunctionDecl → List FunctionDecl → Prop
  | nil {r : Spelling} : FunctionDecl.AllAlike r [] []
  | cons {r r' : Spelling} {d d' : FunctionDecl} {ds ds' : List FunctionDecl} :
      r.Declares false "this" "this" r' → r' "this" "this" → FunctionDecl.Alike r' d d' →
      FunctionDecl.AllAlike r ds ds' → FunctionDecl.AllAlike r (d :: ds) (d' :: ds')

end

/-! ## What such trees have in common -/

theorem Spelling.DeclaresAll.length_eq {r r' : Spelling} {params params' : List Token}
    (h : r.DeclaresAll params params' r') : params'.length = params.length := by
  induction h with
  | nil => rfl
  | cons _ _ ih => simp [ih]

namespace FunctionDecl.Alike

variable {r : Spelling} {d d' : FunctionDecl}

theorem name_eq (h : FunctionDecl.Alike r d d') : d'.name = d.name := by
  cases h
  rfl

theorem arity_eq (h : FunctionDecl.Alike r d d') : d'.arity = d.arity := by
  cases h with
  | mk hp => exact hp.length_eq

theorem isInitializer_eq (h : FunctionDecl.Alike r d d') : d'.isInitializer = d.isInitializer := by
  simp only [isInitializer, h.name_eq]

end FunctionDecl.Alike

/-- A statement at the top level gives no name another spelling. -/
theorem Stmt.Alike.le_of_top {r r' : Spelling} {s s' : Stmt} (h : Stmt.Alike true r r' s s')
    {a a' : String} (ha : r' a a') : r a a' := by
  cases h with
  | var hd | function hd | cls hd | subclass _ hd => exact hd.outer ha (.inl rfl)
  | _ => exact ha

/-! ## The same tree -/

theorem Spelling.Declares.refl (isTop : Bool) (name : String) :
    Spelling.Declares isTop Eq name name Eq where
  global := fun _ => rfl
  own := fun _ => by
    rintro a _ rfl
    rfl
  outer := fun h _ => h

theorem Spelling.DeclaresAll.refl (params : List Token) :
    Spelling.DeclaresAll Eq params params Eq := by
  induction params with
  | nil => exact .nil
  | cons p ps ih => exact .cons (.refl false p.lexeme) ih

mutual

theorem Expr.Alike.refl : ∀ e : Expr, e.Alike Eq e
  | .constant c => .constant c
  | .grouping e => .grouping (Expr.Alike.refl e)
  | .unary _ e => .unary (Expr.Alike.refl e)
  | .binary l _ r => .binary (Expr.Alike.refl l) (Expr.Alike.refl r)
  | .logical l _ r => .logical (Expr.Alike.refl l) (Expr.Alike.refl r)
  | .var _ _ => .var rfl
  | .assign _ _ value => .assign rfl (Expr.Alike.refl value)
  | .call callee _ args => .call (Expr.Alike.refl callee) (Expr.AllAlike.refl args)
  | .get object _ => .get (Expr.Alike.refl object)
  | .set object _ value => .set (Expr.Alike.refl object) (Expr.Alike.refl value)
  | .thisRef _ _ => .thisRef rfl
  | .superRef _ _ _ => .superRef rfl rfl
  | .unparsed => .unparsed

theorem Expr.AllAlike.refl : ∀ es : List Expr, Expr.AllAlike Eq es es
  | [] => .nil
  | e :: es => .cons (Expr.Alike.refl e) (Expr.AllAlike.refl es)

end

theorem Expr.optionAlike_refl : ∀ e : Option Expr, Option.Rel (Expr.Alike Eq) e e
  | none => .none
  | some e => .some (.refl e)

mutual

theorem Stmt.Alike.refl (isTop : Bool) : ∀ s : Stmt, Stmt.Alike isTop Eq Eq s s
  | .expression e => .expression (.refl e)
  | .var name init => .var (.refl isTop name.lexeme) (Expr.optionAlike_refl init)
  | .block body => .block (Stmt.AllAlike.refl false body)
  | .ifThen condition yes => .ifThen (.refl condition) (Stmt.Alike.refl isTop yes)
  | .ifElse condition yes no =>
    .ifElse (.refl condition) (Stmt.Alike.refl isTop yes) (Stmt.Alike.refl isTop no)
  | .loop condition body => .loop (.refl condition) (Stmt.Alike.refl isTop body)
  | .function decl => .function (.refl isTop decl.name.lexeme) (FunctionDecl.Alike.refl decl)
  | .ret _ value => .ret (Expr.optionAlike_refl value)
  | .cls name none methods =>
    .cls (.refl isTop name.lexeme) (FunctionDecl.AllAlike.refl methods)
  | .cls name (some superclass) methods =>
    .subclass (.refl superclass) (.refl isTop name.lexeme) (.refl false "super")
      (FunctionDecl.AllAlike.refl methods)

theorem Stmt.AllAlike.refl (isTop : Bool) : ∀ ss : List Stmt, Stmt.AllAlike isTop Eq ss ss
  | [] => .nil
  | s :: ss => .cons (Stmt.Alike.refl isTop s) (Stmt.AllAlike.refl isTop ss)

theorem FunctionDecl.Alike.refl : ∀ d : FunctionDecl, FunctionDecl.Alike Eq d d
  | ⟨_, params, body⟩ => .mk (.refl params) (Stmt.AllAlike.refl false body)

theorem FunctionDecl.AllAlike.refl : ∀ ds : List FunctionDecl, FunctionDecl.AllAlike Eq ds ds
  | [] => .nil
  | d :: ds =>
    .cons (.refl false "this") rfl (FunctionDecl.Alike.refl d) (FunctionDecl.AllAlike.refl ds)

end

end Lox
