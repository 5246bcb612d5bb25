import Mathlib
import Lox.Proofs.Parse.Drawn
import Lox.Proofs.Scope.Exact

/-!
# Lox.Proofs.Parse.Trees

What can be relied on in parsed trees (`parsed_trees`), whatever the tokens are and however many
parses have gone before. No two references have the same number, in one tree or in two, though
numbers are drawn for references that are given up again. A superclass is a variable. If there was
nothing to complain about, no placeholder is left at any depth and nothing has more than 255
parameters or arguments.

The last three hold of every part of a tree (`Part.Everywhere`), and are carried through the
productions together: a parser is followed to its value on all inputs, or on those only where it has
no complaints (`Parser.Yields`, `Counting.Yields`).
-/

namespace Lox

/-! ## The parts of a tree -/

namespace Part

/-- The immediate parts, without what is around them. -/
def parts : Part → List Part
  | program ss => ss.map stmt
  | parameter _ => []
  | .body _ decl => decl.params.map parameter ++ decl.body.map stmt
  | expr e => e.operands.map expr
  | stmt (.expression e) => [expr e]
  | stmt (.var _ init) => init.toList.map expr
  | stmt (.block ss) => ss.map stmt
  | stmt (.ifThen condition yes) => [expr condition, stmt yes]
  | stmt (.ifElse condition yes no) => [expr condition, stmt yes, stmt no]
  | stmt (.loop condition s) => [expr condition, stmt s]
  | stmt (.function decl) => [body .function decl]
  | stmt (.ret _ value) => value.toList.map expr
  | stmt (.cls _ superclass methods) =>
    superclass.toList.map expr ++ methods.map fun d => body (.method d.name.lexeme) d

/-- The part and all parts inside it. -/
inductive Everywhere (p : Part → Prop) : Part → Prop
  | intro {part : Part} : p part → (∀ inner ∈ part.parts, Everywhere p inner) → Everywhere p part

/-- A superclass is a variable. -/
def SuperclassNamed : Part → Prop
  | stmt (.cls _ (some superclass) _) => ∃ id name, superclass = .var id name
  | _ => True

/-- The part is no placeholder, and has no more parameters or arguments than there may be. -/
def Whole : Part → Prop
  | expr .unparsed => False
  | expr (.call _ _ args) => args.length ≤ maxArity
  | body _ decl => decl.arity ≤ maxArity
  | _ => True

/-- What a part is like in a parsed tree; `clean` says that the parse has no complaints. -/
structure WellMade (clean : Prop) (part : Part) : Prop where
  superclass : part.SuperclassNamed
  whole : clean → part.Whole

end Part

namespace Node

theorem map_part_inOrder (a : Surroundings) (ss : List Stmt) :
    (inOrder a ss).map part = ss.map .stmt := by
  induction ss generalizing a with
  | nil => rfl
  | cons s ss ih => rw [inOrder, List.map_cons, ih, List.map_cons]

theorem map_part_parameters (a : Surroundings) (ts : List Token) :
    (parameters a ts).map part = ts.map .parameter := by
  induction ts generalizing a with
  | nil => rfl
  | cons t ts ih => rw [parameters, List.map_cons, ih, List.map_cons]

theorem map_part_exprs (a : Surroundings) (es : List Expr) :
    (exprs a es).map part = es.map .expr := by
  rw [exprs, List.map_map]
  rfl

theorem map_part_methods (a : Surroundings) (ds : List FunctionDecl) :
    (methods a ds).map part = ds.map fun d => .body (.method d.name.lexeme) d := by
  rw [methods, List.map_map]
  rfl

theorem map_part_parts (node : Node) : node.parts.map part = node.part.parts := by
  obtain ⟨part, a⟩ := node
  cases part with
  | stmt s =>
    cases s <;> simp [parts, Part.parts, map_part_inOrder, map_part_exprs, map_part_methods]
  | _ => simp [parts, Part.parts, map_part_inOrder, map_part_parameters, map_part_exprs]

/-- What holds of all parts holds at every path. -/
theorem at?_of_everywhere {p : Part → Prop} {path : List Nat} {node inner : Node}
    (h : node.part.Everywhere p) (hinner : node.at? path = some inner) : p inner.part := by
  induction path generalizing node with
  | nil =>
    cases hinner
    cases h with
    | intro hp _ => exact hp
  | cons i path ih =>
    obtain ⟨next, hnext, hrest⟩ := Option.bind_eq_some_iff.mp hinner
    cases h with
    | intro _ hparts =>
      refine ih (hparts next.part ?_) hrest
      rw [← map_part_parts]
      exact List.mem_map_of_mem (List.mem_of_getElem? hnext)

end Node

namespace Parser

/-! ## What parsers yield -/

section

variable {α β : Type} {clean : Prop}

/-- The values of a parser have a property: all of them, or if `clean`, those that come without
complaints. -/
def Yields (clean : Prop) (P : α → Prop) (p : Parser α) : Prop :=
  ∀ ⦃input a rest complaints⦄, p input = .ok a rest complaints → (clean → complaints = []) → P a

variable {P P' : α → Prop} {Q : β → Prop} {p : Parser α} {f : α → Parser β}

theorem yields_any (p : Parser α) : Yields clean (fun _ => True) p := fun _ _ _ _ _ _ => trivial

theorem yields_exhausted : Yields clean P exhausted := fun _ _ _ _ h _ => by cases h

theorem yields_fail {what : Expected} : Yields clean P (fail what) := fun _ _ _ _ h _ => by cases h

theorem yields_pure {a : α} (h : P a) : Yields clean P (pure a) := fun _ _ _ _ heq _ => by
  cases heq
  exact h

theorem Yields.mono (h : Yields clean P p) (himp : ∀ a, P a → P' a) : Yields clean P' p :=
  fun _ _ _ _ heq hclean => himp _ (h heq hclean)

theorem exists_of_after_ok {earlier complaints : List Complaint} {r : Parsed α} {a : α}
    {rest : List Stamped} (h : after earlier r = .ok a rest complaints) :
    ∃ later, r = .ok a rest later ∧ complaints = earlier ++ later := by
  cases r <;> cases h
  exact ⟨_, rfl, rfl⟩

theorem yields_bind (hp : Yields clean P p) (hf : ∀ a, P a → Yields clean Q (f a)) :
    Yields clean Q (p >>= f) := by
  intro input b rest complaints heq hclean
  rw [bind_apply] at heq
  split at heq
  next a mid earlier ho =>
    obtain ⟨later, hr, rfl⟩ := exists_of_after_ok heq
    have hnil (h : clean) := List.append_eq_nil_iff.mp (hclean h)
    exact hf a (hp ho fun h => (hnil h).1) hr fun h => (hnil h).2
  next => cases heq
  next => cases heq

/-- A step whose value says nothing. -/
theorem yields_then (hf : ∀ a, Yields clean Q (f a)) : Yields clean Q (p >>= f) :=
  yields_bind (yields_any p) fun a _ => hf a

theorem yields_complainIf {wrong : Bool} {problem : ParseProblem} :
    Yields clean (fun _ => clean → wrong = false) (complainIf wrong problem) := by
  intro input a rest complaints heq hclean h
  cases heq
  have hnil := hclean h
  cases wrong with
  | false => rfl
  | true => cases hnil

/-- After a failure there is a complaint. -/
theorem yields_recover {P : Stmt → Prop} {p : Parser Stmt} (hp : Yields clean P p)
    (hplaceholder : ¬clean → P .placeholder) : Yields clean P (recover p) := by
  intro input s rest complaints heq hclean
  rw [recover] at heq
  cases ho : p input with
  | ok s' rest' complaints' =>
    rw [ho] at heq
    cases heq
    exact hp ho hclean
  | fail what rest' complaints' =>
    rw [ho] at heq
    cases heq
    exact hplaceholder fun h =>
      List.append_ne_nil_of_right_ne_nil _ (List.cons_ne_nil _ _) (hclean h)
  | outOfFuel =>
    rw [ho] at heq
    cases heq

end

/-! ### Parameters -/

theorem yields_parameterListIn {clean : Prop} (n index : Nat) :
    Yields clean (fun params => clean → index + params.length ≤ maxArity)
      (parameterListIn n index) := by
  induction n generalizing index with
  | zero => exact yields_exhausted
  | succ n ih =>
    refine yields_bind yields_complainIf fun _ hfew => ?_
    refine yields_then fun param => yields_then fun comma => ?_
    cases comma with
    | none =>
      refine yields_pure fun hclean => ?_
      exact Nat.lt_of_not_le (of_decide_eq_false (hfew hclean))
    | some _ =>
      refine yields_bind (ih (index + 1)) fun more hmore => yields_pure fun hclean => ?_
      have hlength := hmore hclean
      rw [List.length_cons]
      omega

theorem yields_parameters {clean : Prop} :
    Yields clean (fun params => clean → params.length ≤ maxArity) parameters := by
  intro input
  refine @yields_then _ _ _ _ (ahead .rightParen) _ (fun stop => ?_) input
  cases stop with
  | true => exact yields_pure fun _ => Nat.zero_le _
  | false =>
    exact (yields_parameterListIn _ 0).mono fun params h hclean => by simpa using h hclean

end Parser

namespace Counting

/-! ## What parsers with a counter yield -/

section

variable {α β : Type} {clean : Prop}

/-- Wherever the counter stands, the values of a parser have a property. -/
def Yields (clean : Prop) (P : α → Prop) (p : Counting α) : Prop :=
  ∀ next, Parser.Yields clean P fun input => (p next input).1

variable {P P' : α → Prop} {Q : β → Prop} {p : Counting α} {f : α → Counting β}

theorem yields_lift {p : Parser α} (h : Parser.Yields clean P p) :
    Yields clean P (liftM p : Counting α) :=
  fun _ => h

theorem yields_exhausted : Yields clean P (liftM Parser.exhausted : Counting α) :=
  yields_lift Parser.yields_exhausted

theorem yields_pure {a : α} (h : P a) : Yields clean P (pure a) := fun _ => Parser.yields_pure h

theorem Yields.mono (h : Yields clean P p) (himp : ∀ a, P a → P' a) : Yields clean P' p :=
  fun next => (h next).mono himp

theorem yields_bind (hp : Yields clean P p) (hf : ∀ a, P a → Yields clean Q (f a)) :
    Yields clean Q (p >>= f) := by
  intro next input b rest complaints heq hclean
  change (bind p f next input).1 = _ at heq
  rw [bind] at heq
  split at heq
  next a mid earlier next' ho =>
    obtain ⟨later, hr, rfl⟩ := Parser.exists_of_after_ok heq
    have hnil (h : clean) := List.append_eq_nil_iff.mp (hclean h)
    have ha : P a := hp next (congrArg Prod.fst ho) fun h => (hnil h).1
    exact hf a ha next' hr fun h => (hnil h).2
  next => cases heq
  next => cases heq

/-- A step whose value says nothing. -/
theorem yields_then (hf : ∀ a, Yields clean Q (f a)) : Yields clean Q (p >>= f) :=
  yields_bind (fun _ => Parser.yields_any _) fun a _ => hf a

/-- The number of a reference says nothing. -/
theorem yields_reference {stamp : RefId} {make : RefId → α} (h : ∀ id, P (make id)) :
    Yields clean P (Parsing.reference stamp make) :=
  fun next => Parser.yields_pure (h next)

theorem yields_sized {f : Nat → Counting α} (h : ∀ size, Yields clean P (f size)) :
    Yields clean P (Parsing.sized f) :=
  fun next input => @h input.length next input

end

end Counting

/-! ## Well-made trees -/

/-- The expression and everything inside it is well made. -/
def Expr.WellMade (clean : Prop) (e : Expr) : Prop := (Part.expr e).Everywhere (Part.WellMade clean)

def Stmt.WellMade (clean : Prop) (s : Stmt) : Prop := (Part.stmt s).Everywhere (Part.WellMade clean)

def FunctionDecl.WellMade (clean : Prop) (decl : FunctionDecl) : Prop :=
  ∀ kind, (Part.body kind decl).Everywhere (Part.WellMade clean)

/-- Arguments that a call may have. -/
structure Expr.ArgumentsWellMade (clean : Prop) (args : List Expr) : Prop where
  each : ∀ e ∈ args, e.WellMade clean
  few : clean → args.length ≤ maxArity

section

variable {clean : Prop}

theorem Expr.wellMade_of_operands {e : Expr} (h : (Part.expr e).WellMade clean)
    (hoperands : ∀ o ∈ e.operands, o.WellMade clean) : e.WellMade clean :=
  .intro h (List.forall_mem_map.mpr hoperands)

theorem Expr.WellMade.operands {e : Expr} (h : e.WellMade clean) :
    ∀ o ∈ e.operands, o.WellMade clean := by
  cases h with
  | intro _ hparts => exact fun o ho => hparts (.expr o) (List.mem_map_of_mem ho)

theorem Expr.wellMade_unary {e operand : Expr} (h : (Part.expr e).WellMade clean)
    (heq : e.operands = [operand]) (hoperand : operand.WellMade clean) : e.WellMade clean :=
  wellMade_of_operands h (by rw [heq]; exact List.forall_mem_singleton.mpr hoperand)

theorem Expr.wellMade_binary {e left right : Expr} (h : (Part.expr e).WellMade clean)
    (heq : e.operands = [left, right]) (hleft : left.WellMade clean)
    (hright : right.WellMade clean) : e.WellMade clean :=
  wellMade_of_operands h (by rw [heq]; simp [hleft, hright])

theorem Expr.wellMade_combine {level : Level} {left right : Expr} {operator : Token}
    (hleft : left.WellMade clean) (hright : right.WellMade clean) :
    (level.combine left operator right).WellMade clean := by
  cases level <;> exact wellMade_binary ⟨trivial, fun _ => trivial⟩ rfl hleft hright

theorem Expr.wellMade_call {callee : Expr} {paren : Token} {args : List Expr}
    (hcallee : callee.WellMade clean) (hargs : ArgumentsWellMade clean args) :
    (Expr.call callee paren args).WellMade clean :=
  wellMade_of_operands ⟨trivial, hargs.few⟩ (List.forall_mem_cons.mpr ⟨hcallee, hargs.each⟩)

theorem Stmt.wellMade_placeholder (h : ¬clean) : Stmt.placeholder.WellMade clean := by
  refine .intro ⟨trivial, fun _ => trivial⟩ (List.forall_mem_singleton.mpr ?_)
  exact Expr.wellMade_of_operands ⟨trivial, fun hclean => h hclean⟩ nofun

theorem Stmt.wellMade_block {body : List Stmt} (h : ∀ s ∈ body, s.WellMade clean) :
    (Stmt.block body).WellMade clean :=
  .intro ⟨trivial, fun _ => trivial⟩ (List.forall_mem_map.mpr h)

theorem Stmt.wellMade_pair {s s' : Stmt} (h : s.WellMade clean) (h' : s'.WellMade clean) :
    (Stmt.block [s, s']).WellMade clean :=
  wellMade_block (List.forall_mem_cons.mpr ⟨h, List.forall_mem_singleton.mpr h'⟩)

theorem Stmt.wellMade_loop {condition : Expr} {body : Stmt} (hcondition : condition.WellMade clean)
    (hbody : body.WellMade clean) : (Stmt.loop condition body).WellMade clean :=
  .intro ⟨trivial, fun _ => trivial⟩
    (List.forall_mem_cons.mpr ⟨hcondition, List.forall_mem_singleton.mpr hbody⟩)

theorem Stmt.wellMade_expression {e : Expr} (h : e.WellMade clean) :
    (Stmt.expression e).WellMade clean :=
  .intro ⟨trivial, fun _ => trivial⟩ (List.forall_mem_singleton.mpr h)

theorem Stmt.wellMade_ofFor {init : Option Stmt} {condition increment : Option Expr} {body : Stmt}
    (hinit : ∀ s ∈ init, s.WellMade clean) (hcondition : ∀ e ∈ condition, e.WellMade clean)
    (hincrement : ∀ e ∈ increment, e.WellMade clean) (hbody : body.WellMade clean) :
    (Stmt.ofFor init condition increment body).WellMade clean := by
  have htest : (condition.getD (.constant (.bool true))).WellMade clean := by
    cases condition with
    | none => exact Expr.wellMade_of_operands ⟨trivial, fun _ => trivial⟩ nofun
    | some e => exact hcondition e rfl
  cases increment with
  | none =>
    have hloop := wellMade_loop htest hbody
    cases init with
    | none => exact hloop
    | some s => exact wellMade_pair (hinit s rfl) hloop
  | some e =>
    have hrepeated := wellMade_pair hbody (wellMade_expression (hincrement e rfl))
    have hloop := wellMade_loop htest hrepeated
    cases init with
    | none => exact hloop
    | some s => exact wellMade_pair (hinit s rfl) hloop

end

namespace Counting

open Production

variable {clean : Prop}

/-! ## Expressions -/

structure ExpressionsWellMade (clean : Prop) (n : Nat) : Prop where
  expression : Yields clean (Expr.WellMade clean) (expressionIn n)
  level : ∀ level, Yields clean (Expr.WellMade clean) (levelIn n level)
  operand : ∀ level, Yields clean (Expr.WellMade clean) (operandIn n level)
  chain : ∀ level left, left.WellMade clean →
    Yields clean (Expr.WellMade clean) (chainIn n level left)
  unary : Yields clean (Expr.WellMade clean) (unaryIn n)
  suffixes : ∀ e, e.WellMade clean → Yields clean (Expr.WellMade clean) (suffixesIn n e)
  arguments : Yields clean (Expr.ArgumentsWellMade clean) (argumentsIn n)
  argumentList : ∀ index, Yields clean
    (fun args => (∀ e ∈ args, e.WellMade clean) ∧ (clean → index + args.length ≤ maxArity))
    (argumentListIn n index)
  primary : Yields clean (Expr.WellMade clean) (primaryIn n)

section Expressions

variable {n : Nat} (ih : ExpressionsWellMade clean n)
include ih

theorem yields_expressionIn : Yields clean (Expr.WellMade clean) (expressionIn (n + 1)) := by
  refine yields_bind (ih.level .or) fun target htarget => ?_
  refine yields_then fun here => yields_then fun equal => ?_
  cases equal with
  | none => exact yields_pure htarget
  | some _ =>
    refine yields_bind ih.expression fun value hvalue => ?_
    cases target with
    | var id name =>
      exact yields_reference fun id =>
        Expr.wellMade_unary ⟨trivial, fun _ => trivial⟩ rfl hvalue
    | get object name =>
      have hobject := htarget.operands object (List.mem_singleton_self object)
      exact yields_pure (Expr.wellMade_binary ⟨trivial, fun _ => trivial⟩ rfl hobject hvalue)
    | _ => exact yields_then fun _ => yields_pure htarget

theorem yields_levelIn (level : Level) :
    Yields clean (Expr.WellMade clean) (levelIn (n + 1) level) :=
  yields_bind (ih.operand level) (ih.chain level)

theorem yields_operandIn (level : Level) :
    Yields clean (Expr.WellMade clean) (operandIn (n + 1) level) := by
  simp only [Production.operandIn]
  cases level.tighter with
  | some tighter => exact ih.level tighter
  | none => exact ih.unary

theorem yields_chainIn (level : Level) (left : Expr) (hleft : left.WellMade clean) :
    Yields clean (Expr.WellMade clean) (chainIn (n + 1) level left) := by
  refine yields_then fun operator => ?_
  cases operator with
  | none => exact yields_pure hleft
  | some operator =>
    refine yields_bind (ih.operand level) fun right hright => ?_
    exact ih.chain level _ (Expr.wellMade_combine hleft hright)

theorem yields_unaryIn : Yields clean (Expr.WellMade clean) (unaryIn (n + 1)) := by
  refine yields_then fun operator => ?_
  cases operator with
  | none => exact yields_bind ih.primary ih.suffixes
  | some operator =>
    refine yields_bind ih.unary fun operand hoperand => ?_
    exact yields_pure (Expr.wellMade_unary ⟨trivial, fun _ => trivial⟩ rfl hoperand)

theorem yields_suffixesIn (e : Expr) (he : e.WellMade clean) :
    Yields clean (Expr.WellMade clean) (suffixesIn (n + 1) e) := by
  refine yields_then fun opening => ?_
  cases opening with
  | some _ =>
    refine yields_bind ih.arguments fun args hargs => ?_
    exact yields_then fun paren => ih.suffixes _ (Expr.wellMade_call he hargs)
  | none =>
    refine yields_then fun dot => ?_
    cases dot with
    | some _ =>
      refine yields_then fun name => ih.suffixes _ ?_
      exact Expr.wellMade_unary ⟨trivial, fun _ => trivial⟩ rfl he
    | none => exact yields_pure he

theorem yields_argumentsIn : Yields clean (Expr.ArgumentsWellMade clean) (argumentsIn (n + 1)) := by
  refine yields_then fun stop => ?_
  cases stop with
  | true => exact yields_pure ⟨nofun, fun _ => Nat.zero_le _⟩
  | false =>
    exact (ih.argumentList 0).mono fun args h => ⟨h.1, fun hclean => by simpa using h.2 hclean⟩

theorem yields_argumentListIn (index : Nat) :
    Yields clean
      (fun args => (∀ e ∈ args, e.WellMade clean) ∧ (clean → index + args.length ≤ maxArity))
      (argumentListIn (n + 1) index) := by
  refine yields_bind (yields_lift Parser.yields_complainIf) fun _ hfew => ?_
  refine yields_bind ih.expression fun arg harg => yields_then fun comma => ?_
  cases comma with
  | none =>
    refine yields_pure ⟨List.forall_mem_singleton.mpr harg, fun hclean => ?_⟩
    exact Nat.lt_of_not_le (of_decide_eq_false (hfew hclean))
  | some _ =>
    refine yields_bind (ih.argumentList (index + 1)) fun more hmore => ?_
    refine yields_pure ⟨List.forall_mem_cons.mpr ⟨harg, hmore.1⟩, fun hclean => ?_⟩
    have hlength := hmore.2 hclean
    rw [List.length_cons]
    omega

theorem yields_primaryIn : Yields clean (Expr.WellMade clean) (primaryIn (n + 1)) := by
  have hleaf {e : Expr} (h : (Part.expr e).WellMade clean) (hnone : e.operands = []) :
      e.WellMade clean := Expr.wellMade_of_operands h (by rw [hnone]; nofun)
  refine yields_then fun first => ?_
  cases first with
  | none => exact yields_lift Parser.yields_fail
  | some t =>
    dsimp only
    split
    · exact yields_pure (hleaf ⟨trivial, fun _ => trivial⟩ rfl)
    · exact yields_pure (hleaf ⟨trivial, fun _ => trivial⟩ rfl)
    · exact yields_pure (hleaf ⟨trivial, fun _ => trivial⟩ rfl)
    · refine yields_then fun _ => yields_then fun _ => yields_reference fun id => ?_
      exact hleaf ⟨trivial, fun _ => trivial⟩ rfl
    · exact yields_reference fun id => hleaf ⟨trivial, fun _ => trivial⟩ rfl
    · exact yields_reference fun id => hleaf ⟨trivial, fun _ => trivial⟩ rfl
    · refine yields_bind ih.expression fun inner hinner => yields_then fun _ => yields_pure ?_
      exact Expr.wellMade_unary ⟨trivial, fun _ => trivial⟩ rfl hinner
    · exact yields_pure (hleaf ⟨trivial, fun _ => trivial⟩ rfl)

end Expressions

theorem expressionsWellMade (clean : Prop) (n : Nat) : ExpressionsWellMade clean n := by
  induction n with
  | zero => exact ⟨yields_exhausted, fun _ => yields_exhausted, fun _ => yields_exhausted,
      fun _ _ _ => yields_exhausted, yields_exhausted, fun _ _ => yields_exhausted,
      yields_exhausted, fun _ => yields_exhausted, yields_exhausted⟩
  | succ n ih =>
    exact {
      expression := yields_expressionIn ih
      level := yields_levelIn ih
      operand := yields_operandIn ih
      chain := yields_chainIn ih
      unary := yields_unaryIn ih
      suffixes := yields_suffixesIn ih
      arguments := yields_argumentsIn ih
      argumentList := yields_argumentListIn ih
      primary := yields_primaryIn ih }

theorem yields_expression : Yields clean (Expr.WellMade clean) expression :=
  yields_sized fun _ => (expressionsWellMade clean _).expression

/-! ## Parts of statements -/

theorem yields_varDeclaration : Yields clean (Stmt.WellMade clean) varDeclaration := by
  refine yields_then fun name => yields_then fun equal => ?_
  cases equal with
  | some _ =>
    refine yields_bind yields_expression fun init hinit => yields_then fun _ => yields_pure ?_
    exact .intro ⟨trivial, fun _ => trivial⟩ (List.forall_mem_singleton.mpr hinit)
  | none => exact yields_then fun _ => yields_pure (.intro ⟨trivial, fun _ => trivial⟩ nofun)

theorem yields_expressionStatement : Yields clean (Stmt.WellMade clean) expressionStatement := by
  refine yields_bind yields_expression fun e he => yields_then fun _ => yields_pure ?_
  exact Stmt.wellMade_expression he

theorem yields_returnStatement (keyword : Token) :
    Yields clean (Stmt.WellMade clean) (returnStatement keyword) := by
  refine yields_then fun stopped => ?_
  cases stopped with
  | true => exact yields_then fun _ => yields_pure (.intro ⟨trivial, fun _ => trivial⟩ nofun)
  | false =>
    refine yields_bind yields_expression fun value hvalue => yields_then fun _ => yields_pure ?_
    exact .intro ⟨trivial, fun _ => trivial⟩ (List.forall_mem_singleton.mpr hvalue)

theorem yields_optionalExpression (stop : TokenKind) :
    Yields clean (fun e? => ∀ e ∈ e?, e.WellMade clean) (optionalExpression stop) := by
  refine yields_then fun stopped => ?_
  cases stopped with
  | true => exact yields_pure nofun
  | false =>
    exact yields_bind yields_expression fun e he => yields_pure fun _ h => Option.some.inj h ▸ he

theorem yields_forInitializer :
    Yields clean (fun s? => ∀ s ∈ s?, s.WellMade clean) forInitializer := by
  refine yields_then fun semicolon => ?_
  cases semicolon with
  | some _ => exact yields_pure nofun
  | none =>
    refine yields_then fun keyword => ?_
    cases keyword with
    | some _ =>
      exact yields_bind yields_varDeclaration fun s hs =>
        yields_pure fun _ h => Option.some.inj h ▸ hs
    | none =>
      exact yields_bind yields_expressionStatement fun s hs =>
        yields_pure fun _ h => Option.some.inj h ▸ hs

theorem yields_superclassClause :
    Yields clean (fun e? => ∀ e ∈ e?, ∃ id name, e = .var id name) superclassClause := by
  refine yields_then fun less => ?_
  cases less with
  | none => exact yields_pure nofun
  | some _ =>
    exact yields_then fun name => yields_reference fun id _ h =>
      ⟨id, name.token, (Option.some.inj h).symm⟩

/-! ## Statements -/

structure StatementsWellMade (clean : Prop) (n : Nat) : Prop where
  declaration : Yields clean (Stmt.WellMade clean) (declarationIn n)
  bareDeclaration : Yields clean (Stmt.WellMade clean) (bareDeclarationIn n)
  cls : Yields clean (Stmt.WellMade clean) (classIn n)
  methods : Yields clean (fun ds => ∀ d ∈ ds, d.WellMade clean) (methodsIn n)
  function : ∀ kind, Yields clean (FunctionDecl.WellMade clean) (functionIn n kind)
  block : Yields clean (fun ss => ∀ s ∈ ss, s.WellMade clean) (blockIn n)
  declarations : Yields clean (fun ss => ∀ s ∈ ss, s.WellMade clean) (declarationsIn n)
  statement : Yields clean (Stmt.WellMade clean) (statementIn n)
  forLoop : Yields clean (Stmt.WellMade clean) (forIn n)
  branch : Yields clean (Stmt.WellMade clean) (ifIn n)
  whileLoop : Yields clean (Stmt.WellMade clean) (whileIn n)

section Statements

variable {n : Nat} (ih : StatementsWellMade clean n)
include ih

theorem yields_bareDeclarationIn :
    Yields clean (Stmt.WellMade clean) (bareDeclarationIn (n + 1)) := by
  refine yields_then fun keyword => ?_
  cases keyword with
  | none => exact ih.statement
  | some t =>
    dsimp only
    split
    · exact ih.cls
    · refine yields_bind (ih.function .function) fun decl hdecl => yields_pure ?_
      exact .intro ⟨trivial, fun _ => trivial⟩ (List.forall_mem_singleton.mpr (hdecl .function))
    · exact yields_varDeclaration

theorem yields_classIn : Yields clean (Stmt.WellMade clean) (classIn (n + 1)) := by
  refine yields_then fun name => ?_
  refine yields_bind yields_superclassClause fun superclass hsuperclass => yields_then fun _ => ?_
  refine yields_bind ih.methods fun methods hmethods => yields_then fun _ => yields_pure ?_
  have hbodies := List.forall_mem_map.mpr fun d hd => hmethods d hd (.method d.name.lexeme)
  cases superclass with
  | none => exact .intro ⟨trivial, fun _ => trivial⟩ hbodies
  | some e =>
    obtain ⟨id, super, rfl⟩ := hsuperclass e rfl
    refine .intro ⟨⟨id, super, rfl⟩, fun _ => trivial⟩ (List.forall_mem_cons.mpr ⟨?_, hbodies⟩)
    exact Expr.wellMade_of_operands ⟨trivial, fun _ => trivial⟩ nofun

theorem yields_methodsIn : Yields clean (fun ds => ∀ d ∈ ds, d.WellMade clean)
    (methodsIn (n + 1)) := by
  refine yields_then fun stop => ?_
  cases stop with
  | true => exact yields_pure nofun
  | false =>
    refine yields_bind (ih.function .method) fun method hmethod => ?_
    refine yields_bind ih.methods fun more hmore => yields_pure ?_
    exact List.forall_mem_cons.mpr ⟨hmethod, hmore⟩

theorem yields_functionIn (kind : FunctionKind) :
    Yields clean (FunctionDecl.WellMade clean) (functionIn (n + 1) kind) := by
  refine yields_then fun name => yields_then fun _ => ?_
  refine yields_bind (yields_lift Parser.yields_parameters) fun params hparams => ?_
  refine yields_then fun _ => ?_
  refine yields_then fun _ => yields_bind ih.block fun body hbody => yields_pure fun kind => ?_
  refine .intro ⟨trivial, hparams⟩ (List.forall_mem_append.mpr ⟨?_, List.forall_mem_map.mpr hbody⟩)
  exact List.forall_mem_map.mpr fun _ _ => .intro ⟨trivial, fun _ => trivial⟩ nofun

theorem yields_blockIn : Yields clean (fun ss => ∀ s ∈ ss, s.WellMade clean) (blockIn (n + 1)) :=
  yields_bind ih.declarations fun _ hbody => yields_then fun _ => yields_pure hbody

theorem yields_declarationsIn :
    Yields clean (fun ss => ∀ s ∈ ss, s.WellMade clean) (declarationsIn (n + 1)) := by
  refine yields_then fun stop => ?_
  cases stop with
  | true => exact yields_pure nofun
  | false =>
    refine yields_bind ih.declaration fun first hfirst => ?_
    refine yields_bind ih.declarations fun more hmore => yields_pure ?_
    exact List.forall_mem_cons.mpr ⟨hfirst, hmore⟩

theorem yields_statementIn : Yields clean (Stmt.WellMade clean) (statementIn (n + 1)) := by
  refine yields_then fun keyword => ?_
  cases keyword with
  | none => exact yields_expressionStatement
  | some t =>
    dsimp only
    split
    · exact ih.forLoop
    · exact ih.branch
    · exact ih.whileLoop
    · exact yields_returnStatement t.token
    · exact yields_bind ih.block fun body hbody => yields_pure (Stmt.wellMade_block hbody)

theorem yields_forIn : Yields clean (Stmt.WellMade clean) (forIn (n + 1)) := by
  refine yields_then fun _ => yields_bind yields_forInitializer fun init hinit => ?_
  refine yields_bind (yields_optionalExpression _) fun condition hcondition => ?_
  refine yields_then fun _ => ?_
  refine yields_bind (yields_optionalExpression _) fun increment hincrement => ?_
  refine yields_then fun _ => yields_bind ih.statement fun body hbody => yields_pure ?_
  exact Stmt.wellMade_ofFor hinit hcondition hincrement hbody

theorem yields_ifIn : Yields clean (Stmt.WellMade clean) (ifIn (n + 1)) := by
  refine yields_then fun _ => yields_bind yields_expression fun condition hcondition => ?_
  refine yields_then fun _ => yields_bind ih.statement fun yes hyes => yields_then fun other => ?_
  cases other with
  | none =>
    refine yields_pure (.intro ⟨trivial, fun _ => trivial⟩ ?_)
    exact List.forall_mem_cons.mpr ⟨hcondition, List.forall_mem_singleton.mpr hyes⟩
  | some _ =>
    refine yields_bind ih.statement fun no hno => ?_
    refine yields_pure (.intro ⟨trivial, fun _ => trivial⟩ ?_)
    refine List.forall_mem_cons.mpr ⟨hcondition, List.forall_mem_cons.mpr ⟨hyes, ?_⟩⟩
    exact List.forall_mem_singleton.mpr hno

theorem yields_whileIn : Yields clean (Stmt.WellMade clean) (whileIn (n + 1)) := by
  refine yields_then fun _ => yields_bind yields_expression fun condition hcondition => ?_
  refine yields_then fun _ => yields_bind ih.statement fun body hbody => yields_pure ?_
  exact Stmt.wellMade_loop hcondition hbody

end Statements

theorem statementsWellMade (clean : Prop) (n : Nat) : StatementsWellMade clean n := by
  induction n with
  | zero => exact ⟨yields_exhausted, yields_exhausted, yields_exhausted, yields_exhausted,
      fun _ => yields_exhausted, yields_exhausted, yields_exhausted, yields_exhausted,
      yields_exhausted, yields_exhausted, yields_exhausted⟩
  | succ n ih =>
    exact {
      declaration := fun next =>
        Parser.yields_recover (ih.bareDeclaration next) Stmt.wellMade_placeholder
      bareDeclaration := yields_bareDeclarationIn ih
      cls := yields_classIn ih
      methods := yields_methodsIn ih
      function := yields_functionIn ih
      block := yields_blockIn ih
      declarations := yields_declarationsIn ih
      statement := yields_statementIn ih
      forLoop := yields_forIn ih
      branch := yields_ifIn ih
      whileLoop := yields_whileIn ih }

theorem yields_declaration : Yields clean (Stmt.WellMade clean) declaration :=
  yields_sized fun _ => (statementsWellMade clean _).declaration

theorem yields_programIn (n : Nat) :
    Yields clean (fun ss => ∀ s ∈ ss, s.WellMade clean) (programIn n) := by
  induction n with
  | zero => exact yields_exhausted
  | succ n ih =>
    refine yields_then fun stop => ?_
    cases stop with
    | true => exact yields_pure nofun
    | false =>
      refine yields_bind yields_declaration fun first hfirst => ?_
      exact yields_bind ih fun more hmore => yields_pure (List.forall_mem_cons.mpr ⟨hfirst, hmore⟩)

theorem yields_program : Yields clean (fun ss => ∀ s ∈ ss, s.WellMade clean) program :=
  yields_sized fun _ => yields_programIn _

end Counting

/-! ## Parses one after the other -/

namespace Parse

theorem exists_of_mem_sequence {first : RefId} {inputs : List (List Token)} {p : Parse}
    (h : p ∈ sequence first inputs) :
    ∃ start tokens, first ≤ start ∧ p = (counted start tokens).1 := by
  induction inputs generalizing first with
  | nil => cases h
  | cons tokens later ih =>
    obtain rfl | h := List.mem_cons.mp h
    · exact ⟨first, tokens, Nat.le_refl _, rfl⟩
    · obtain ⟨start, tokens', hle, rfl⟩ := ih h
      exact ⟨start, tokens', Nat.le_trans (le_next_counted first tokens) hle, rfl⟩

theorem wellMade_statements (first : RefId) (tokens : List Token) (clean : Prop)
    (h : clean → (counted first tokens).1.errors = []) :
    (Part.program (counted first tokens).1.statements).Everywhere (Part.WellMade clean) := by
  obtain ⟨-, ss, complaints, next, -, hrun, -⟩ := Counting.program_eq_ok first
    (Stamped.ofTokens first (Token.body tokens))
  simp only [errors, counted, hrun, List.map_eq_nil_iff] at h ⊢
  have hyields := Counting.yields_program first (congrArg Prod.fst hrun) h
  exact .intro ⟨trivial, fun _ => trivial⟩ (List.forall_mem_map.mpr hyields)

/-- The numbers of a parse are not used by a later one. -/
theorem not_mem_ids_of_later {first : RefId} {tokens : List Token} {later : List (List Token)}
    {k : Nat} {p : Parse} {path path' : List Nat} {node node' : Node} {id : RefId}
    (hp : (sequence (counted first tokens).2 later)[k]? = some p)
    (hnode : (Node.root (counted first tokens).1.statements).at? path = some node)
    (hnode' : (Node.root p.statements).at? path' = some node') (h : id ∈ node.ids) :
    id ∉ node'.ids := by
  intro h'
  obtain ⟨next, tokens', hle, rfl⟩ := exists_of_mem_sequence (List.mem_of_getElem? hp)
  have hlt := (range_of_mem_counted first tokens
    (Node.mem_refs_of_isReference hnode (Node.mem_ids.mp h))).2
  have hge := (range_of_mem_counted next tokens'
    (Node.mem_refs_of_isReference hnode' (Node.mem_ids.mp h'))).1
  exact Nat.lt_irrefl _ (Nat.lt_of_lt_of_le hlt (Nat.le_trans hle hge))

/-- The numbers of references tell the parse and the place in it apart. -/
theorem eq_of_ids {first : RefId} {inputs : List (List Token)} {i j : Nat} {p q : Parse}
    {path path' : List Nat} {node node' : Node} {id : RefId}
    (hp : (sequence first inputs)[i]? = some p) (hq : (sequence first inputs)[j]? = some q)
    (hnode : (Node.root p.statements).at? path = some node)
    (hnode' : (Node.root q.statements).at? path' = some node')
    (h : id ∈ node.ids) (h' : id ∈ node'.ids) : i = j ∧ path = path' := by
  induction inputs generalizing first i j with
  | nil => cases hp
  | cons tokens later ih =>
    cases i with
    | zero =>
      cases hp
      cases j with
      | zero =>
        cases hq
        exact ⟨rfl, Node.path_eq_of_isReference (nodup_counted first tokens) hnode hnode'
          (Node.mem_ids.mp h) (Node.mem_ids.mp h')⟩
      | succ j => exact absurd h' (not_mem_ids_of_later hq hnode hnode' h)
    | succ i =>
      cases j with
      | zero =>
        cases hq
        exact absurd h (not_mem_ids_of_later hp hnode' hnode h')
      | succ j =>
        obtain ⟨rfl, hpath⟩ := ih hp hq
        exact ⟨rfl, hpath⟩

end Parse

/-- Of all parses of one sequence, numbered by one counter: a number stands for one reference in one
tree. A superclass is a variable, and a tree without complaints is whole. -/
theorem parsed_trees (first : RefId) (inputs : List (List Token)) :
    (∀ (i j : Nat) (p q : Parse) (path path' : List Nat) (node node' : Node) (id : RefId),
      (Parse.sequence first inputs)[i]? = some p → (Parse.sequence first inputs)[j]? = some q →
      (Node.root p.statements).at? path = some node →
      (Node.root q.statements).at? path' = some node' →
      id ∈ node.ids → id ∈ node'.ids → i = j ∧ path = path') ∧
    ∀ p ∈ Parse.sequence first inputs, ∀ (path : List Nat) (node : Node),
      (Node.root p.statements).at? path = some node →
      node.part.SuperclassNamed ∧ (p.errors = [] → node.part.Whole) := by
  refine ⟨fun i j p q path path' node node' id hp hq hnode hnode' h h' => ?_,
    fun p hp path node hnode => ?_⟩
  · exact Parse.eq_of_ids hp hq hnode hnode' h h'
  · obtain ⟨start, tokens, -, rfl⟩ := Parse.exists_of_mem_sequence hp
    have hwell := Parse.wellMade_statements start tokens _ id
    obtain ⟨hsuperclass, hwhole⟩ := Node.at?_of_everywhere hwell hnode
    exact ⟨hsuperclass, hwhole⟩

end Lox
