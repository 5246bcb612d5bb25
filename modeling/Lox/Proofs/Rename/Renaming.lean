import Lox.Machine
import Lox.Operator
import Lox.Program.Relabel
import Lox.Proofs.Related
import Lox.Proofs.Scope.Linked

/-!
# Lox.Proofs.Rename.Renaming

Two machines that differ only in how references are numbered. A renaming pairs the references of one
machine with those of the other, one to one, so that paired references have the same distance. Trees,
values and stores are twins if they are the same but for paired references and the lines of tokens.
-/

namespace Lox

/-- References of two machines, paired one to one. -/
structure Renaming where
  left : Table
  right : Table
  pairs : RefId → RefId → Prop
  known : ∀ {i j}, pairs i j →
    i < left.next ∧ j < right.next ∧ right.locals.find? j = left.locals.find? i
  oneToOne : ∀ {i j i' j'}, pairs i j → pairs i' j' → (i = i' ↔ j = j')

/-- A renaming at a later time. -/
structure Renaming.Le (w w' : Renaming) : Prop where
  left : w.left.Le w'.left
  right : w.right.Le w'.right
  pairs : ∀ {i j}, w.pairs i j → w'.pairs i j

/-! ## Trees -/

/-- The same token, maybe on another line. -/
structure Token.Twin (t t' : Token) : Prop where
  kind : t'.kind = t.kind
  lexeme : t'.lexeme = t.lexeme
  literal : t'.literal = t.literal

mutual

inductive Expr.Twin (p : RefId → RefId → Prop) : Expr → Expr → Prop
  | constant (c : Constant) : Twin p (.constant c) (.constant c)
  | grouping {e e' : Expr} : Twin p e e' → Twin p (.grouping e) (.grouping e')
  | unary {operator operator' : Token} {e e' : Expr} : operator.Twin operator' → Twin p e e' →
      Twin p (.unary operator e) (.unary operator' e')
  | binary {l l' r r' : Expr} {operator operator' : Token} : Twin p l l' →
      operator.Twin operator' → Twin p r r' →
      Twin p (.binary l operator r) (.binary l' operator' r')
  | logical {l l' r r' : Expr} {operator operator' : Token} : Twin p l l' →
      operator.Twin operator' → Twin p r r' →
      Twin p (.logical l operator r) (.logical l' operator' r')
  | var {id id' : RefId} {name name' : Token} : p id id' → name.Twin name' →
      Twin p (.var id name) (.var id' name')
  | assign {id id' : RefId} {name name' : Token} {value value' : Expr} : p id id' →
      name.Twin name' → Twin p value value' →
      Twin p (.assign id name value) (.assign id' name' value')
  | call {callee callee' : Expr} {paren paren' : Token} {args args' : List Expr} :
      Twin p callee callee' → paren.Twin paren' → AllTwin p args args' →
      Twin p (.call callee paren args) (.call callee' paren' args')
  | get {object object' : Expr} {name name' : Token} : Twin p object object' → name.Twin name' →
      Twin p (.get object name) (.get object' name')
  | set {object object' value value' : Expr} {name name' : Token} : Twin p object object' →
      name.Twin name' → Twin p value value' →
      Twin p (.set object name value) (.set object' name' value')
  | thisRef {id id' : RefId} {keyword keyword' : Token} : p id id' → keyword.Twin keyword' →
      Twin p (.thisRef id keyword) (.thisRef id' keyword')
  | superRef {id id' : RefId} {keyword keyword' method method' : Token} : p id id' →
      keyword.Twin keyword' → method.Twin method' →
      Twin p (.superRef id keyword method) (.superRef id' keyword' method')
  | unparsed : Twin p .unparsed .unparsed

inductive Expr.AllTwin (p : RefId → RefId → Prop) : List Expr → List Expr → Prop
  | nil : AllTwin p [] []
  | cons {e e' : Expr} {es es' : List Expr} : Twin p e e' → AllTwin p es es' →
      AllTwin p (e :: es) (e' :: es')

end

mutual

inductive Stmt.Twin (p : RefId → RefId → Prop) : Stmt → Stmt → Prop
  | expression {e e' : Expr} : e.Twin p e' → Stmt.Twin p (.expression e) (.expression e')
  | var {name name' : Token} {init init' : Option Expr} : name.Twin name' →
      Option.Rel (Expr.Twin p) init init' → Stmt.Twin p (.var name init) (.var name' init')
  | block {body body' : List Stmt} : Stmt.AllTwin p body body' →
      Stmt.Twin p (.block body) (.block body')
  | ifThen {condition condition' : Expr} {yes yes' : Stmt} : condition.Twin p condition' →
      Stmt.Twin p yes yes' → Stmt.Twin p (.ifThen condition yes) (.ifThen condition' yes')
  | ifElse {condition condition' : Expr} {yes yes' no no' : Stmt} : condition.Twin p condition' →
      Stmt.Twin p yes yes' → Stmt.Twin p no no' →
      Stmt.Twin p (.ifElse condition yes no) (.ifElse condition' yes' no')
  | loop {condition condition' : Expr} {body body' : Stmt} : condition.Twin p condition' →
      Stmt.Twin p body body' → Stmt.Twin p (.loop condition body) (.loop condition' body')
  | function {decl decl' : FunctionDecl} : FunctionDecl.Twin p decl decl' →
      Stmt.Twin p (.function decl) (.function decl')
  | ret {keyword keyword' : Token} {value value' : Option Expr} : keyword.Twin keyword' →
      Option.Rel (Expr.Twin p) value value' →
      Stmt.Twin p (.ret keyword value) (.ret keyword' value')
  | cls {name name' : Token} {superclass superclass' : Option Expr}
      {methods methods' : List FunctionDecl} : name.Twin name' →
      Option.Rel (Expr.Twin p) superclass superclass' → FunctionDecl.AllTwin p methods methods' →
      Stmt.Twin p (.cls name superclass methods) (.cls name' superclass' methods')

inductive Stmt.AllTwin (p : RefId → RefId → Prop) : List Stmt → List Stmt → Prop
  | nil : Stmt.AllTwin p [] []
  | cons {s s' : Stmt} {ss ss' : List Stmt} : Stmt.Twin p s s' → Stmt.AllTwin p ss ss' →
      Stmt.AllTwin p (s :: ss) (s' :: ss')

inductive FunctionDecl.Twin (p : RefId → RefId → Prop) : FunctionDecl → FunctionDecl → Prop
  | mk {name name' : Token} {params params' : List Token} {body body' : List Stmt} :
      name.Twin name' → List.Forall₂ Token.Twin params params' → Stmt.AllTwin p body body' →
      FunctionDecl.Twin p ⟨name, params, body⟩ ⟨name', params', body'⟩

inductive FunctionDecl.AllTwin (p : RefId → RefId → Prop) :
    List FunctionDecl → List FunctionDecl → Prop
  | nil : FunctionDecl.AllTwin p [] []
  | cons {d d' : FunctionDecl} {ds ds' : List FunctionDecl} : FunctionDecl.Twin p d d' →
      FunctionDecl.AllTwin p ds ds' → FunctionDecl.AllTwin p (d :: ds) (d' :: ds')

end

namespace FunctionDecl.Twin

variable {p : RefId → RefId → Prop} {d d' : FunctionDecl}

theorem name_eq (h : d.Twin p d') : d'.name.lexeme = d.name.lexeme := by
  cases h with
  | mk hn => exact hn.lexeme

theorem params (h : d.Twin p d') : List.Forall₂ Token.Twin d.params d'.params := by
  cases h with
  | mk _ hp => exact hp

theorem body (h : d.Twin p d') : Stmt.AllTwin p d.body d'.body := by
  cases h with
  | mk _ _ hb => exact hb

theorem arity_eq (h : d.Twin p d') : d'.arity = d.arity := h.params.length_eq.symm

theorem isInitializer_eq (h : d.Twin p d') : d'.isInitializer = d.isInitializer := by
  simp only [isInitializer, h.name_eq]

end FunctionDecl.Twin

/-! ### Relabelled trees -/

section Relabel

variable {p : RefId → RefId → Prop} {r : Relabel}

theorem Token.twin_relabel (r : Relabel) (t : Token) : t.Twin (t.relabel r) := ⟨rfl, rfl, rfl⟩

theorem Token.forall₂_twin_relabel (r : Relabel) (ts : List Token) :
    List.Forall₂ Token.Twin ts (ts.map (Token.relabel r)) :=
  List.forall₂_map_right_iff.2 (List.forall₂_same.2 fun t _ => t.twin_relabel r)

mutual

/-- A relabelled tree is a twin if its references are paired with their new numbers. -/
theorem Expr.twin_relabel : ∀ {e : Expr}, (∀ x ∈ e.refs, p x.1 (r.id x.1)) →
    e.Twin p (e.relabel r)
  | .constant c, _ => .constant c
  | .grouping _, h => .grouping (Expr.twin_relabel h)
  | .unary operator _, h => .unary (operator.twin_relabel r) (Expr.twin_relabel h)
  | .binary _ operator _, h =>
    have h := List.forall_mem_append.1 h
    .binary (Expr.twin_relabel h.1) (operator.twin_relabel r) (Expr.twin_relabel h.2)
  | .logical _ operator _, h =>
    have h := List.forall_mem_append.1 h
    .logical (Expr.twin_relabel h.1) (operator.twin_relabel r) (Expr.twin_relabel h.2)
  | .var id name, h => .var (h (id, name) (List.mem_singleton_self _)) (name.twin_relabel r)
  | .assign _ name _, h =>
    have h := List.forall_mem_cons.1 h
    .assign h.1 (name.twin_relabel r) (Expr.twin_relabel h.2)
  | .call _ paren _, h =>
    have h := List.forall_mem_append.1 h
    .call (Expr.twin_relabel h.1) (paren.twin_relabel r) (Expr.allTwin_relabel h.2)
  | .get _ name, h => .get (Expr.twin_relabel h) (name.twin_relabel r)
  | .set _ name _, h =>
    have h := List.forall_mem_append.1 h
    .set (Expr.twin_relabel h.1) (name.twin_relabel r) (Expr.twin_relabel h.2)
  | .thisRef id keyword, h =>
    .thisRef (h (id, keyword) (List.mem_singleton_self _)) (keyword.twin_relabel r)
  | .superRef id keyword method, h =>
    .superRef (h (id, keyword) (List.mem_singleton_self _)) (keyword.twin_relabel r)
      (method.twin_relabel r)
  | .unparsed, _ => .unparsed

theorem Expr.allTwin_relabel : ∀ {es : List Expr},
    (∀ x ∈ Expr.refsOfList es, p x.1 (r.id x.1)) → Expr.AllTwin p es (Expr.relabelList r es)
  | [], _ => .nil
  | _ :: _, h =>
    have h := List.forall_mem_append.1 h
    .cons (Expr.twin_relabel h.1) (Expr.allTwin_relabel h.2)

end

theorem Expr.optionTwin_relabel {e : Option Expr}
    (h : ∀ x ∈ Expr.refsOfOption e, p x.1 (r.id x.1)) :
    Option.Rel (Expr.Twin p) e (e.map (Expr.relabel r)) := by
  cases e with
  | none => exact .none
  | some e => exact .some (Expr.twin_relabel h)

mutual

theorem Stmt.twin_relabel : ∀ {s : Stmt}, (∀ x ∈ s.refs, p x.1 (r.id x.1)) →
    s.Twin p (s.relabel r)
  | .expression _, h => .expression (Expr.twin_relabel h)
  | .var name _, h => .var (name.twin_relabel r) (Expr.optionTwin_relabel h)
  | .block _, h => .block (Stmt.allTwin_relabel h)
  | .ifThen _ _, h =>
    have h := List.forall_mem_append.1 h
    .ifThen (Expr.twin_relabel h.1) (Stmt.twin_relabel h.2)
  | .ifElse _ _ _, h =>
    have h := List.forall_mem_append.1 h
    have hc := List.forall_mem_append.1 h.1
    .ifElse (Expr.twin_relabel hc.1) (Stmt.twin_relabel hc.2) (Stmt.twin_relabel h.2)
  | .loop _ _, h =>
    have h := List.forall_mem_append.1 h
    .loop (Expr.twin_relabel h.1) (Stmt.twin_relabel h.2)
  | .function _, h => .function (FunctionDecl.twin_relabel h)
  | .ret keyword _, h => .ret (keyword.twin_relabel r) (Expr.optionTwin_relabel h)
  | .cls name _ _, h =>
    have h := List.forall_mem_append.1 h
    .cls (name.twin_relabel r) (Expr.optionTwin_relabel h.1) (FunctionDecl.allTwin_relabel h.2)

theorem Stmt.allTwin_relabel : ∀ {ss : List Stmt},
    (∀ x ∈ Stmt.refsOfList ss, p x.1 (r.id x.1)) → Stmt.AllTwin p ss (Stmt.relabelList r ss)
  | [], _ => .nil
  | _ :: _, h =>
    have h := List.forall_mem_append.1 h
    .cons (Stmt.twin_relabel h.1) (Stmt.allTwin_relabel h.2)

theorem FunctionDecl.twin_relabel : ∀ {d : FunctionDecl}, (∀ x ∈ d.refs, p x.1 (r.id x.1)) →
    d.Twin p (d.relabel r)
  | ⟨name, params, _⟩, h =>
    .mk (name.twin_relabel r) (Token.forall₂_twin_relabel r params) (Stmt.allTwin_relabel h)

theorem FunctionDecl.allTwin_relabel : ∀ {ds : List FunctionDecl},
    (∀ x ∈ FunctionDecl.refsOfList ds, p x.1 (r.id x.1)) →
    FunctionDecl.AllTwin p ds (FunctionDecl.relabelList r ds)
  | [], _ => .nil
  | _ :: _, h =>
    have h := List.forall_mem_append.1 h
    .cons (FunctionDecl.twin_relabel h.1) (FunctionDecl.allTwin_relabel h.2)

end

end Relabel

/-! ### More pairs -/

section Mono

variable {p q : RefId → RefId → Prop}

mutual

theorem Expr.Twin.mono (hpq : ∀ {i j}, p i j → q i j) :
    ∀ {e e' : Expr}, e.Twin p e' → e.Twin q e'
  | _, _, .constant c => .constant c
  | _, _, .grouping h => .grouping (h.mono hpq)
  | _, _, .unary ho h => .unary ho (h.mono hpq)
  | _, _, .binary hl ho hr => .binary (hl.mono hpq) ho (hr.mono hpq)
  | _, _, .logical hl ho hr => .logical (hl.mono hpq) ho (hr.mono hpq)
  | _, _, .var hid hn => .var (hpq hid) hn
  | _, _, .assign hid hn hv => .assign (hpq hid) hn (hv.mono hpq)
  | _, _, .call hc hp hs => .call (hc.mono hpq) hp (hs.mono hpq)
  | _, _, .get ho hn => .get (ho.mono hpq) hn
  | _, _, .set ho hn hv => .set (ho.mono hpq) hn (hv.mono hpq)
  | _, _, .thisRef hid hk => .thisRef (hpq hid) hk
  | _, _, .superRef hid hk hm => .superRef (hpq hid) hk hm
  | _, _, .unparsed => .unparsed

theorem Expr.AllTwin.mono (hpq : ∀ {i j}, p i j → q i j) :
    ∀ {es es' : List Expr}, Expr.AllTwin p es es' → Expr.AllTwin q es es'
  | _, _, .nil => .nil
  | _, _, .cons h hs => .cons (h.mono hpq) (hs.mono hpq)

end

mutual

theorem Stmt.Twin.mono (hpq : ∀ {i j}, p i j → q i j) :
    ∀ {s s' : Stmt}, s.Twin p s' → s.Twin q s'
  | _, _, .expression h => .expression (h.mono hpq)
  | _, _, .var hn hi => .var hn (optionRel_mono (Expr.Twin.mono hpq) hi)
  | _, _, .block h => .block (h.mono hpq)
  | _, _, .ifThen hc hy => .ifThen (hc.mono hpq) (hy.mono hpq)
  | _, _, .ifElse hc hy hn => .ifElse (hc.mono hpq) (hy.mono hpq) (hn.mono hpq)
  | _, _, .loop hc hb => .loop (hc.mono hpq) (hb.mono hpq)
  | _, _, .function h => .function (h.mono hpq)
  | _, _, .ret hk hv => .ret hk (optionRel_mono (Expr.Twin.mono hpq) hv)
  | _, _, .cls hn hs hm => .cls hn (optionRel_mono (Expr.Twin.mono hpq) hs) (hm.mono hpq)

theorem Stmt.AllTwin.mono (hpq : ∀ {i j}, p i j → q i j) :
    ∀ {ss ss' : List Stmt}, Stmt.AllTwin p ss ss' → Stmt.AllTwin q ss ss'
  | _, _, .nil => .nil
  | _, _, .cons h hs => .cons (h.mono hpq) (hs.mono hpq)

theorem FunctionDecl.Twin.mono (hpq : ∀ {i j}, p i j → q i j) :
    ∀ {d d' : FunctionDecl}, d.Twin p d' → d.Twin q d'
  | _, _, .mk hn hp hb => .mk hn hp (hb.mono hpq)

theorem FunctionDecl.AllTwin.mono (hpq : ∀ {i j}, p i j → q i j) :
    ∀ {ds ds' : List FunctionDecl}, FunctionDecl.AllTwin p ds ds' → FunctionDecl.AllTwin q ds ds'
  | _, _, .nil => .nil
  | _, _, .cons h hs => .cons (h.mono hpq) (hs.mono hpq)

end

end Mono

/-! ## Values -/

structure Closure.Twin (p : RefId → RefId → Prop) (f f' : Closure) : Prop where
  decl : f.decl.Twin p f'.decl
  env : f'.env = f.env
  isInitializer : f'.isInitializer = f.isInitializer

/-- Tables with the same names. -/
def Bindings.Twin {β : Type} (R : β → β → Prop) (bs bs' : Bindings β) : Prop :=
  ∀ name, Option.Rel R (bs.find? name) (bs'.find? name)

inductive Class.Twin (p : RefId → RefId → Prop) : Class → Class → Prop
  | base (name : String) {ms ms' : Bindings Closure} : Bindings.Twin (Closure.Twin p) ms ms' →
      Twin p (.base name ms) (.base name ms')
  | derived (name : String) {c c' : Class} {ms ms' : Bindings Closure} : Twin p c c' →
      Bindings.Twin (Closure.Twin p) ms ms' → Twin p (.derived name c ms) (.derived name c' ms')

inductive Value.Twin (p : RefId → RefId → Prop) : Value → Value → Prop
  | nil : Twin p .nil .nil
  | bool (b : Bool) : Twin p (.bool b) (.bool b)
  | number (x : Float) : Twin p (.number x) (.number x)
  | string (s : String) : Twin p (.string s) (.string s)
  | native (n : Native) : Twin p (.native n) (.native n)
  | function {f f' : Closure} : f.Twin p f' → Twin p (.function f) (.function f')
  | cls {c c' : Class} : c.Twin p c' → Twin p (.cls c) (.cls c')
  | object {c c' : Class} (o : ObjectId) : c.Twin p c' → Twin p (.object c o) (.object c' o)

inductive Callable.Twin (p : RefId → RefId → Prop) : Callable → Callable → Prop
  | native (n : Native) : Twin p (.native n) (.native n)
  | function {f f' : Closure} : f.Twin p f' → Twin p (.function f) (.function f')
  | cls {c c' : Class} : c.Twin p c' → Twin p (.cls c) (.cls c')

namespace Bindings.Twin

variable {β : Type} {R : β → β → Prop} {bs bs' : Bindings β}

theorem empty : Bindings.Twin R .empty .empty := fun _ => .none

theorem insert (h : Bindings.Twin R bs bs') (name : String) {b b' : β} (hb : R b b') :
    Bindings.Twin R (bs.insert name b) (bs'.insert name b') := by
  intro m
  rw [find?_insert, find?_insert]
  by_cases hm : name = m
  · rw [if_pos hm, if_pos hm]
    exact .some hb
  · rw [if_neg hm, if_neg hm]
    exact h m

end Bindings.Twin

section Values

variable {p q : RefId → RefId → Prop}

theorem Closure.Twin.mono (hpq : ∀ {i j}, p i j → q i j) {f f' : Closure} (h : f.Twin p f') :
    f.Twin q f' :=
  ⟨h.decl.mono hpq, h.env, h.isInitializer⟩

theorem Class.Twin.mono (hpq : ∀ {i j}, p i j → q i j) {c c' : Class} (h : c.Twin p c') :
    c.Twin q c' := by
  induction h with
  | base name hm => exact .base name fun m => optionRel_mono (Closure.Twin.mono hpq) (hm m)
  | derived name _ hm ih =>
    exact .derived name ih fun m => optionRel_mono (Closure.Twin.mono hpq) (hm m)

theorem Value.Twin.mono (hpq : ∀ {i j}, p i j → q i j) {v v' : Value} (h : v.Twin p v') :
    v.Twin q v' := by
  cases h with
  | nil => exact .nil
  | bool b => exact .bool b
  | number x => exact .number x
  | string s => exact .string s
  | native n => exact .native n
  | function hf => exact .function (hf.mono hpq)
  | cls hc => exact .cls (hc.mono hpq)
  | object o hc => exact .object o (hc.mono hpq)

theorem Closure.Twin.arity_eq {f f' : Closure} (h : f.Twin p f') : f'.arity = f.arity :=
  h.decl.arity_eq

namespace Class.Twin

variable {c c' : Class}

theorem name_eq (h : c.Twin p c') : c'.name = c.name := by
  cases h <;> rfl

theorem findMethod? (h : c.Twin p c') (m : String) :
    Option.Rel (Closure.Twin p) (c.findMethod? m) (c'.findMethod? m) := by
  induction h with
  | base name hm => exact hm m
  | derived name _ hm ih =>
    have hfound := hm m
    unfold Class.findMethod?
    revert hfound
    cases Bindings.find? _ m <;> cases Bindings.find? _ m <;> rintro ⟨⟩
    · exact ih
    · rename_i hf
      exact .some hf

theorem arity_eq (h : c.Twin p c') : c'.arity = c.arity := by
  have hinit := h.findMethod? initializerName
  unfold Class.arity
  revert hinit
  cases c.findMethod? initializerName <;> cases c'.findMethod? initializerName <;> rintro ⟨⟩
  · rfl
  · rename_i hf
    exact hf.arity_eq

end Class.Twin

theorem Callable.Twin.arity_eq {c c' : Callable} (h : c.Twin p c') : c'.arity = c.arity := by
  cases h with
  | native n => rfl
  | function hf => exact hf.arity_eq
  | cls hc => exact hc.arity_eq

namespace Value.Twin

variable {v v' : Value}

theorem isTruthy_eq (h : v.Twin p v') : v'.isTruthy = v.isTruthy := by
  cases h with
  | bool b => cases b <;> rfl
  | _ => rfl

theorem typeName_eq (h : v.Twin p v') : v'.typeName = v.typeName := by
  cases h <;> rfl

theorem text_eq (h : v.Twin p v') : v'.text = v.text := by
  cases h with
  | function hf =>
    simp only [Value.text, Closure.name]
    rw [hf.decl.name_eq]
  | cls hc => exact hc.name_eq
  | object o hc =>
    simp only [Value.text]
    rw [hc.name_eq]
  | _ => rfl

theorem callable? (h : v.Twin p v') : Option.Rel (Callable.Twin p) v.callable? v'.callable? := by
  cases h with
  | native n => exact .some (.native n)
  | function hf => exact .some (.function hf)
  | cls hc => exact .some (.cls hc)
  | _ => exact .none

theorem ofConstant (c : Constant) : Value.Twin p (.ofConstant c) (.ofConstant c) := by
  cases c with
  | number x => exact .number x
  | string s => exact .string s
  | bool b => exact .bool b
  | nil => exact .nil

end Value.Twin

/-! ## Operators -/

/-- Twin results, or the same failure. -/
inductive Operator.ResultTwin (p : RefId → RefId → Prop) :
    Except RuntimeProblem Value → Except RuntimeProblem Value → Prop
  | ok {v v' : Value} : v.Twin p v' → ResultTwin p (.ok v) (.ok v')
  | error (problem : RuntimeProblem) : ResultTwin p (.error problem) (.error problem)

namespace Operator

variable {l l' r r' : Value} {operator operator' : Token}

theorem twin_unary (ho : operator.Twin operator') (h : r.Twin p r') :
    ResultTwin p (unary operator r) (unary operator' r') := by
  unfold unary
  rw [ho.kind, ho.lexeme, h.isTruthy_eq]
  split
  · cases h with
    | number x => exact .ok (.number (-x))
    | _ => exact .error _
  · exact .ok (.bool _)
  · exact .error _

theorem equal_eq (ho : operator.Twin operator') (hl : l.Twin p l') (hr : r.Twin p r') :
    equal l' r' operator' = equal l r operator := by
  unfold equal
  rw [ho.lexeme]
  cases hl <;> cases hr <;> rfl

theorem twin_equal (ho : operator.Twin operator') (hl : l.Twin p l') (hr : r.Twin p r')
    (f : Bool → Bool) : ResultTwin p ((equal l r operator).map fun b => .bool (f b))
      ((equal l' r' operator').map fun b => .bool (f b)) := by
  rw [equal_eq ho hl hr]
  cases equal l r operator with
  | ok b => exact .ok (.bool (f b))
  | error problem => exact .error problem

theorem twin_add (hl : l.Twin p l') (hr : r.Twin p r') : ResultTwin p (add l r) (add l' r') := by
  cases hl with
  | number a =>
    cases hr with
    | number b => exact .ok (.number (a + b))
    | _ => exact .error _
  | string a =>
    cases hr with
    | string b => exact .ok (.string (a ++ b))
    | _ => exact .error _
  | _ => exact .error _

theorem twin_onNumbers {f : Float → Float → Value} (hf : ∀ a b, (f a b).Twin p (f a b))
    (hl : l.Twin p l') (hr : r.Twin p r') : ResultTwin p (onNumbers f l r) (onNumbers f l' r') := by
  cases hl with
  | number a =>
    cases hr with
    | number b => exact .ok (hf a b)
    | _ => exact .error _
  | _ => exact .error _

theorem twin_binary (hl : l.Twin p l') (ho : operator.Twin operator') (hr : r.Twin p r') :
    ResultTwin p (binary l operator r) (binary l' operator' r') := by
  unfold binary
  rw [ho.kind, ho.lexeme, hl.typeName_eq, hr.typeName_eq]
  split
  · exact twin_equal ho hl hr id
  · exact twin_equal ho hl hr not
  · exact twin_add hl hr
  · exact twin_onNumbers (fun _ _ => .number _) hl hr
  · exact twin_onNumbers (fun _ _ => .number _) hl hr
  · exact twin_onNumbers (fun _ _ => .number _) hl hr
  · exact twin_onNumbers (fun _ _ => .bool _) hl hr
  · exact twin_onNumbers (fun _ _ => .bool _) hl hr
  · exact twin_onNumbers (fun _ _ => .bool _) hl hr
  · exact twin_onNumbers (fun _ _ => .bool _) hl hr
  · exact .error _

theorem isDecided_eq (ho : operator.Twin operator') (h : l.Twin p l') :
    isDecided operator' l' = isDecided operator l := by
  simp only [isDecided, ho.kind, h.isTruthy_eq]

end Operator

end Values

end Lox
