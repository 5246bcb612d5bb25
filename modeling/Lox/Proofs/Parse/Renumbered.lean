import Lox.Proofs.Parse.Appended
import Lox.Proofs.Parse.Counted
import Lox.Proofs.Parse.Drawn
import Lox.Proofs.Scope.Exact

/-!
# Lox.Proofs.Parse.Renumbered

The numbers that a counter draws and the stamps of tokens are the same but for their names
(`Parse.counted_renames`): a parse by the one way of numbering is a parse by the other with its
references numbered anew, one to one. A tree is known from what it is without its numbers, and from
these in order (`Stmt.all_eq_relabel`).
-/

namespace Lox

/-! ## Numbers of relabelled trees -/

mutual

theorem Expr.idsOf_refs_relabel (r : Relabel) :
    ∀ e : Expr, idsOf (e.relabel r).refs = (idsOf e.refs).map r.id
  | .constant _ | .unparsed | .var _ _ | .thisRef _ _ | .superRef _ _ _ => rfl
  | .grouping e | .unary _ e | .get e _ => Expr.idsOf_refs_relabel r e
  | .binary left _ right | .logical left _ right => by
    rw [Expr.relabel, Expr.refs, Expr.refs, idsOf_append, idsOf_append, List.map_append,
      Expr.idsOf_refs_relabel r left, Expr.idsOf_refs_relabel r right]
  | .assign _ _ value => congrArg (_ :: ·) (Expr.idsOf_refs_relabel r value)
  | .call callee _ args => by
    rw [Expr.relabel, Expr.refs, Expr.refs, idsOf_append, idsOf_append, List.map_append,
      Expr.idsOf_refs_relabel r callee, Expr.idsOf_refsOfList_relabel r args]
  | .set object _ value => by
    rw [Expr.relabel, Expr.refs, Expr.refs, idsOf_append, idsOf_append, List.map_append,
      Expr.idsOf_refs_relabel r object, Expr.idsOf_refs_relabel r value]

theorem Expr.idsOf_refsOfList_relabel (r : Relabel) : ∀ es : List Expr,
    idsOf (Expr.refsOfList (Expr.relabelList r es)) = (idsOf (Expr.refsOfList es)).map r.id
  | [] => rfl
  | e :: es => by
    rw [Expr.relabelList, Expr.refsOfList, Expr.refsOfList, idsOf_append, idsOf_append,
      List.map_append, Expr.idsOf_refs_relabel r e, Expr.idsOf_refsOfList_relabel r es]

end

theorem Expr.idsOf_refsOfOption_relabel (r : Relabel) : ∀ e : Option Expr,
    idsOf (Expr.refsOfOption (e.map (Expr.relabel r))) = (idsOf (Expr.refsOfOption e)).map r.id
  | none => rfl
  | some e => e.idsOf_refs_relabel r

mutual

theorem Stmt.idsOf_refs_relabel (r : Relabel) :
    ∀ s : Stmt, idsOf (s.relabel r).refs = (idsOf s.refs).map r.id
  | .expression e => e.idsOf_refs_relabel r
  | .var _ e | .ret _ e => Expr.idsOf_refsOfOption_relabel r e
  | .block body => Stmt.idsOf_refsOfList_relabel r body
  | .ifThen condition s | .loop condition s => by
    rw [Stmt.relabel, Stmt.refs, Stmt.refs, idsOf_append, idsOf_append, List.map_append,
      condition.idsOf_refs_relabel r, Stmt.idsOf_refs_relabel r s]
  | .ifElse condition yes no => by
    rw [Stmt.relabel, Stmt.refs, Stmt.refs, idsOf_append, idsOf_append, idsOf_append, idsOf_append,
      List.map_append, List.map_append, condition.idsOf_refs_relabel r,
      Stmt.idsOf_refs_relabel r yes, Stmt.idsOf_refs_relabel r no]
  | .function decl => FunctionDecl.idsOf_refs_relabel r decl
  | .cls _ superclass methods => by
    rw [Stmt.relabel, Stmt.refs, Stmt.refs, idsOf_append, idsOf_append, List.map_append,
      Expr.idsOf_refsOfOption_relabel r superclass, FunctionDecl.idsOf_refsOfList_relabel r methods]

theorem Stmt.idsOf_refsOfList_relabel (r : Relabel) : ∀ ss : List Stmt,
    idsOf (Stmt.refsOfList (Stmt.relabelList r ss)) = (idsOf (Stmt.refsOfList ss)).map r.id
  | [] => rfl
  | s :: ss => by
    rw [Stmt.relabelList, Stmt.refsOfList, Stmt.refsOfList, idsOf_append, idsOf_append,
      List.map_append, Stmt.idsOf_refs_relabel r s, Stmt.idsOf_refsOfList_relabel r ss]

theorem FunctionDecl.idsOf_refs_relabel (r : Relabel) :
    ∀ d : FunctionDecl, idsOf (d.relabel r).refs = (idsOf d.refs).map r.id
  | ⟨_, _, body⟩ => Stmt.idsOf_refsOfList_relabel r body

theorem FunctionDecl.idsOf_refsOfList_relabel (r : Relabel) : ∀ ds : List FunctionDecl,
    idsOf (FunctionDecl.refsOfList (FunctionDecl.relabelList r ds)) =
      (idsOf (FunctionDecl.refsOfList ds)).map r.id
  | [] => rfl
  | d :: ds => by
    rw [FunctionDecl.relabelList, FunctionDecl.refsOfList, FunctionDecl.refsOfList, idsOf_append,
      idsOf_append, List.map_append, FunctionDecl.idsOf_refs_relabel r d,
      FunctionDecl.idsOf_refsOfList_relabel r ds]

end

/-! ## Trees from their numbers -/

section

variable {f : RefId → RefId}

mutual

/-- A tree has its numbers first in a list of numbers. If without them it is another tree, and the
numbers are those of the other one taken by `f`, then it is the other one renumbered. -/
theorem Expr.eq_relabel {e e' : Expr} (h : e.relabel .unnumbered = e'.relabel .unnumbered)
    {rest rest' : List RefId} (hids : idsOf e'.refs ++ rest' = (idsOf e.refs ++ rest).map f) :
    e' = e.relabel (.renumber f) ∧ rest' = rest.map f := by
  cases e with
  | constant c =>
    cases e' with
    | constant c' =>
      cases h
      exact ⟨rfl, hids⟩
    | _ => cases h
  | grouping e =>
    cases e' with
    | grouping e' =>
      obtain ⟨rfl, hrest⟩ := Expr.eq_relabel (Expr.grouping.inj h) hids
      exact ⟨rfl, hrest⟩
    | _ => cases h
  | unary operator e =>
    cases e' with
    | unary operator' e' =>
      obtain ⟨hoperator : operator = operator', h⟩ := Expr.unary.inj h
      obtain ⟨rfl, hrest⟩ := Expr.eq_relabel h hids
      exact ⟨hoperator ▸ rfl, hrest⟩
    | _ => cases h
  | binary left operator right =>
    cases e' with
    | binary left' operator' right' =>
      obtain ⟨hleft, hoperator : operator = operator', hright⟩ := Expr.binary.inj h
      simp only [Expr.refs, idsOf_append, List.append_assoc] at hids
      obtain ⟨rfl, hmid⟩ := Expr.eq_relabel hleft hids
      obtain ⟨rfl, hrest⟩ := Expr.eq_relabel hright hmid
      exact ⟨hoperator ▸ rfl, hrest⟩
    | _ => cases h
  | logical left operator right =>
    cases e' with
    | logical left' operator' right' =>
      obtain ⟨hleft, hoperator : operator = operator', hright⟩ := Expr.logical.inj h
      simp only [Expr.refs, idsOf_append, List.append_assoc] at hids
      obtain ⟨rfl, hmid⟩ := Expr.eq_relabel hleft hids
      obtain ⟨rfl, hrest⟩ := Expr.eq_relabel hright hmid
      exact ⟨hoperator ▸ rfl, hrest⟩
    | _ => cases h
  | var id name =>
    cases e' with
    | var id' name' =>
      obtain ⟨-, hname : name = name'⟩ := Expr.var.inj h
      obtain ⟨rfl : id' = f id, hrest⟩ := List.cons.inj hids
      exact ⟨hname ▸ rfl, hrest⟩
    | _ => cases h
  | assign id name value =>
    cases e' with
    | assign id' name' value' =>
      obtain ⟨-, hname : name = name', hvalue⟩ := Expr.assign.inj h
      obtain ⟨rfl : id' = f id, hmid⟩ := List.cons.inj hids
      obtain ⟨rfl, hrest⟩ := Expr.eq_relabel hvalue hmid
      exact ⟨hname ▸ rfl, hrest⟩
    | _ => cases h
  | call callee paren args =>
    cases e' with
    | call callee' paren' args' =>
      obtain ⟨hcallee, hparen : paren = paren', hargs⟩ := Expr.call.inj h
      simp only [Expr.refs, idsOf_append, List.append_assoc] at hids
      obtain ⟨rfl, hmid⟩ := Expr.eq_relabel hcallee hids
      obtain ⟨rfl, hrest⟩ := Expr.all_eq_relabel hargs hmid
      exact ⟨hparen ▸ rfl, hrest⟩
    | _ => cases h
  | get object name =>
    cases e' with
    | get object' name' =>
      obtain ⟨hobject, hname : name = name'⟩ := Expr.get.inj h
      obtain ⟨rfl, hrest⟩ := Expr.eq_relabel hobject hids
      exact ⟨hname ▸ rfl, hrest⟩
    | _ => cases h
  | set object name value =>
    cases e' with
    | set object' name' value' =>
      obtain ⟨hobject, hname : name = name', hvalue⟩ := Expr.set.inj h
      simp only [Expr.refs, idsOf_append, List.append_assoc] at hids
      obtain ⟨rfl, hmid⟩ := Expr.eq_relabel hobject hids
      obtain ⟨rfl, hrest⟩ := Expr.eq_relabel hvalue hmid
      exact ⟨hname ▸ rfl, hrest⟩
    | _ => cases h
  | thisRef id keyword =>
    cases e' with
    | thisRef id' keyword' =>
      obtain ⟨-, hkeyword : keyword = keyword'⟩ := Expr.thisRef.inj h
      obtain ⟨rfl : id' = f id, hrest⟩ := List.cons.inj hids
      exact ⟨hkeyword ▸ rfl, hrest⟩
    | _ => cases h
  | superRef id keyword method =>
    cases e' with
    | superRef id' keyword' method' =>
      obtain ⟨-, hkeyword : keyword = keyword', hmethod : method = method'⟩ := Expr.superRef.inj h
      obtain ⟨rfl : id' = f id, hrest⟩ := List.cons.inj hids
      exact ⟨hkeyword ▸ hmethod ▸ rfl, hrest⟩
    | _ => cases h
  | unparsed =>
    cases e' with
    | unparsed =>
      exact ⟨rfl, hids⟩
    | _ => cases h
termination_by structural e

theorem Expr.all_eq_relabel {es es' : List Expr}
    (h : Expr.relabelList .unnumbered es = Expr.relabelList .unnumbered es')
    {rest rest' : List RefId}
    (hids : idsOf (Expr.refsOfList es') ++ rest' = (idsOf (Expr.refsOfList es) ++ rest).map f) :
    es' = Expr.relabelList (.renumber f) es ∧ rest' = rest.map f := by
  cases es with
  | nil =>
    cases es' with
    | nil => exact ⟨rfl, hids⟩
    | cons => cases h
  | cons e es =>
    cases es' with
    | nil => cases h
    | cons e' es' =>
      obtain ⟨hfirst, hmore⟩ := List.cons.inj h
      simp only [Expr.refsOfList, idsOf_append, List.append_assoc] at hids
      obtain ⟨rfl, hmid⟩ := Expr.eq_relabel hfirst hids
      obtain ⟨rfl, hrest⟩ := Expr.all_eq_relabel hmore hmid
      exact ⟨rfl, hrest⟩
termination_by structural es

end

theorem Expr.option_eq_relabel {e e' : Option Expr}
    (h : e.map (Expr.relabel .unnumbered) = e'.map (Expr.relabel .unnumbered))
    {rest rest' : List RefId}
    (hids : idsOf (Expr.refsOfOption e') ++ rest' = (idsOf (Expr.refsOfOption e) ++ rest).map f) :
    e' = e.map (Expr.relabel (.renumber f)) ∧ rest' = rest.map f := by
  cases e with
  | none =>
    cases e' with
    | none => exact ⟨rfl, hids⟩
    | some => cases h
  | some e =>
    cases e' with
    | none => cases h
    | some e' =>
      obtain ⟨rfl, hrest⟩ := Expr.eq_relabel (Option.some.inj h) hids
      exact ⟨rfl, hrest⟩

mutual

theorem Stmt.eq_relabel {s s' : Stmt} (h : s.relabel .unnumbered = s'.relabel .unnumbered)
    {rest rest' : List RefId} (hids : idsOf s'.refs ++ rest' = (idsOf s.refs ++ rest).map f) :
    s' = s.relabel (.renumber f) ∧ rest' = rest.map f := by
  cases s with
  | expression e =>
    cases s' with
    | expression e' =>
      obtain ⟨rfl, hrest⟩ := Expr.eq_relabel (Stmt.expression.inj h) hids
      exact ⟨rfl, hrest⟩
    | _ => cases h
  | var name init =>
    cases s' with
    | var name' init' =>
      obtain ⟨hname : name = name', hinit⟩ := Stmt.var.inj h
      obtain ⟨rfl, hrest⟩ := Expr.option_eq_relabel hinit hids
      exact ⟨hname ▸ rfl, hrest⟩
    | _ => cases h
  | block body =>
    cases s' with
    | block body' =>
      obtain ⟨rfl, hrest⟩ := Stmt.all_eq_relabel (Stmt.block.inj h) hids
      exact ⟨rfl, hrest⟩
    | _ => cases h
  | ifThen condition yes =>
    cases s' with
    | ifThen condition' yes' =>
      obtain ⟨hcondition, hyes⟩ := Stmt.ifThen.inj h
      simp only [Stmt.refs, idsOf_append, List.append_assoc] at hids
      obtain ⟨rfl, hmid⟩ := Expr.eq_relabel hcondition hids
      obtain ⟨rfl, hrest⟩ := Stmt.eq_relabel hyes hmid
      exact ⟨rfl, hrest⟩
    | _ => cases h
  | ifElse condition yes no =>
    cases s' with
    | ifElse condition' yes' no' =>
      obtain ⟨hcondition, hyes, hno⟩ := Stmt.ifElse.inj h
      simp only [Stmt.refs, idsOf_append, List.append_assoc] at hids
      obtain ⟨rfl, hmid⟩ := Expr.eq_relabel hcondition hids
      obtain ⟨rfl, hlast⟩ := Stmt.eq_relabel hyes hmid
      obtain ⟨rfl, hrest⟩ := Stmt.eq_relabel hno hlast
      exact ⟨rfl, hrest⟩
    | _ => cases h
  | loop condition body =>
    cases s' with
    | loop condition' body' =>
      obtain ⟨hcondition, hbody⟩ := Stmt.loop.inj h
      simp only [Stmt.refs, idsOf_append, List.append_assoc] at hids
      obtain ⟨rfl, hmid⟩ := Expr.eq_relabel hcondition hids
      obtain ⟨rfl, hrest⟩ := Stmt.eq_relabel hbody hmid
      exact ⟨rfl, hrest⟩
    | _ => cases h
  | function decl =>
    cases s' with
    | function decl' =>
      obtain ⟨rfl, hrest⟩ := FunctionDecl.eq_relabel (Stmt.function.inj h) hids
      exact ⟨rfl, hrest⟩
    | _ => cases h
  | ret keyword value =>
    cases s' with
    | ret keyword' value' =>
      obtain ⟨hkeyword : keyword = keyword', hvalue⟩ := Stmt.ret.inj h
      obtain ⟨rfl, hrest⟩ := Expr.option_eq_relabel hvalue hids
      exact ⟨hkeyword ▸ rfl, hrest⟩
    | _ => cases h
  | cls name superclass methods =>
    cases s' with
    | cls name' superclass' methods' =>
      obtain ⟨hname : name = name', hsuperclass, hmethods⟩ := Stmt.cls.inj h
      simp only [Stmt.refs, idsOf_append, List.append_assoc] at hids
      obtain ⟨rfl, hmid⟩ := Expr.option_eq_relabel hsuperclass hids
      obtain ⟨rfl, hrest⟩ := FunctionDecl.all_eq_relabel hmethods hmid
      exact ⟨hname ▸ rfl, hrest⟩
    | _ => cases h
termination_by structural s

theorem Stmt.all_eq_relabel {ss ss' : List Stmt}
    (h : Stmt.relabelList .unnumbered ss = Stmt.relabelList .unnumbered ss')
    {rest rest' : List RefId}
    (hids : idsOf (Stmt.refsOfList ss') ++ rest' = (idsOf (Stmt.refsOfList ss) ++ rest).map f) :
    ss' = Stmt.relabelList (.renumber f) ss ∧ rest' = rest.map f := by
  cases ss with
  | nil =>
    cases ss' with
    | nil => exact ⟨rfl, hids⟩
    | cons => cases h
  | cons s ss =>
    cases ss' with
    | nil => cases h
    | cons s' ss' =>
      obtain ⟨hfirst, hmore⟩ := List.cons.inj h
      simp only [Stmt.refsOfList, idsOf_append, List.append_assoc] at hids
      obtain ⟨rfl, hmid⟩ := Stmt.eq_relabel hfirst hids
      obtain ⟨rfl, hrest⟩ := Stmt.all_eq_relabel hmore hmid
      exact ⟨rfl, hrest⟩
termination_by structural ss

theorem FunctionDecl.eq_relabel {d d' : FunctionDecl}
    (h : d.relabel .unnumbered = d'.relabel .unnumbered)
    {rest rest' : List RefId} (hids : idsOf d'.refs ++ rest' = (idsOf d.refs ++ rest).map f) :
    d' = d.relabel (.renumber f) ∧ rest' = rest.map f := by
  cases d with
  | mk name params body =>
    cases d' with
    | mk name' params' body' =>
      obtain ⟨hname : name = name', hparams, hbody⟩ := FunctionDecl.mk.inj h
      obtain ⟨rfl, hrest⟩ := Stmt.all_eq_relabel hbody hids
      rw [Token.map_relabel_renumber, Token.map_relabel_renumber] at hparams
      subst hname hparams
      exact ⟨by rw [FunctionDecl.relabel, Token.map_relabel_renumber]; rfl, hrest⟩

theorem FunctionDecl.all_eq_relabel {ds ds' : List FunctionDecl}
    (h : FunctionDecl.relabelList .unnumbered ds = FunctionDecl.relabelList .unnumbered ds')
    {rest rest' : List RefId}
    (hids : idsOf (FunctionDecl.refsOfList ds') ++ rest' =
      (idsOf (FunctionDecl.refsOfList ds) ++ rest).map f) :
    ds' = FunctionDecl.relabelList (.renumber f) ds ∧ rest' = rest.map f := by
  cases ds with
  | nil =>
    cases ds' with
    | nil => exact ⟨rfl, hids⟩
    | cons => cases h
  | cons d ds =>
    cases ds' with
    | nil => cases h
    | cons d' ds' =>
      obtain ⟨hfirst, hmore⟩ := List.cons.inj h
      simp only [FunctionDecl.refsOfList, idsOf_append, List.append_assoc] at hids
      obtain ⟨rfl, hmid⟩ := FunctionDecl.eq_relabel hfirst hids
      obtain ⟨rfl, hrest⟩ := FunctionDecl.all_eq_relabel hmore hmid
      exact ⟨rfl, hrest⟩
termination_by structural ds

end

end

/-! ## One change after another -/

/-- One change after another. -/
def Relabel.andThen (r r' : Relabel) : Relabel :=
  { id := fun i => r'.id (r.id i), line := fun l => r'.line (r.line l) }

section

variable (r r' : Relabel)

mutual

theorem Expr.relabel_relabel : ∀ e : Expr, (e.relabel r).relabel r' = e.relabel (r.andThen r')
  | .constant _ | .unparsed | .var _ _ | .thisRef _ _ | .superRef _ _ _ => rfl
  | .grouping e => congrArg Expr.grouping (Expr.relabel_relabel e)
  | .unary _ e => congrArg (Expr.unary _) (Expr.relabel_relabel e)
  | .binary left _ right =>
    congrArg₂ (Expr.binary · _ ·) (Expr.relabel_relabel left) (Expr.relabel_relabel right)
  | .logical left _ right =>
    congrArg₂ (Expr.logical · _ ·) (Expr.relabel_relabel left) (Expr.relabel_relabel right)
  | .assign _ _ value => congrArg (Expr.assign _ _) (Expr.relabel_relabel value)
  | .call callee _ args =>
    congrArg₂ (Expr.call · _ ·) (Expr.relabel_relabel callee) (Expr.relabelList_relabelList args)
  | .get object _ => congrArg (Expr.get · _) (Expr.relabel_relabel object)
  | .set object _ value =>
    congrArg₂ (Expr.set · _ ·) (Expr.relabel_relabel object) (Expr.relabel_relabel value)

theorem Expr.relabelList_relabelList : ∀ es : List Expr,
    Expr.relabelList r' (Expr.relabelList r es) = Expr.relabelList (r.andThen r') es
  | [] => rfl
  | e :: es => congrArg₂ List.cons (Expr.relabel_relabel e) (Expr.relabelList_relabelList es)

end

theorem Expr.map_relabel_map_relabel (e : Option Expr) :
    (e.map (Expr.relabel r)).map (Expr.relabel r') = e.map (Expr.relabel (r.andThen r')) := by
  cases e with
  | none => rfl
  | some e => exact congrArg some (e.relabel_relabel r r')

theorem Token.map_relabel_map_relabel (ts : List Token) :
    (ts.map (Token.relabel r)).map (Token.relabel r') = ts.map (Token.relabel (r.andThen r')) := by
  rw [List.map_map]
  rfl

mutual

theorem Stmt.relabel_relabel : ∀ s : Stmt, (s.relabel r).relabel r' = s.relabel (r.andThen r')
  | .expression e => congrArg Stmt.expression (e.relabel_relabel r r')
  | .var _ init => congrArg (Stmt.var _) (Expr.map_relabel_map_relabel r r' init)
  | .block body => congrArg Stmt.block (Stmt.relabelList_relabelList body)
  | .ifThen condition yes =>
    congrArg₂ Stmt.ifThen (condition.relabel_relabel r r') (Stmt.relabel_relabel yes)
  | .ifElse condition yes no => by
    have hbranches := congr (congrArg₂ Stmt.ifElse (condition.relabel_relabel r r')
      (Stmt.relabel_relabel yes)) (Stmt.relabel_relabel no)
    exact hbranches
  | .loop condition body =>
    congrArg₂ Stmt.loop (condition.relabel_relabel r r') (Stmt.relabel_relabel body)
  | .function decl => congrArg Stmt.function (FunctionDecl.relabel_relabel decl)
  | .ret _ value => congrArg (Stmt.ret _) (Expr.map_relabel_map_relabel r r' value)
  | .cls _ superclass methods =>
    congrArg₂ (Stmt.cls _) (Expr.map_relabel_map_relabel r r' superclass)
      (FunctionDecl.relabelList_relabelList methods)

theorem Stmt.relabelList_relabelList : ∀ ss : List Stmt,
    Stmt.relabelList r' (Stmt.relabelList r ss) = Stmt.relabelList (r.andThen r') ss
  | [] => rfl
  | s :: ss => congrArg₂ List.cons (Stmt.relabel_relabel s) (Stmt.relabelList_relabelList ss)

theorem FunctionDecl.relabel_relabel :
    ∀ d : FunctionDecl, (d.relabel r).relabel r' = d.relabel (r.andThen r')
  | ⟨_, params, body⟩ => congrArg₂ (FunctionDecl.mk _) (Token.map_relabel_map_relabel r r' params)
      (Stmt.relabelList_relabelList body)

theorem FunctionDecl.relabelList_relabelList : ∀ ds : List FunctionDecl,
    FunctionDecl.relabelList r' (FunctionDecl.relabelList r ds) =
      FunctionDecl.relabelList (r.andThen r') ds
  | [] => rfl
  | d :: ds =>
    congrArg₂ List.cons (FunctionDecl.relabel_relabel d) (FunctionDecl.relabelList_relabelList ds)

end

end

/-! ## The two ways of numbering -/

theorem exists_map_eq_of_nodup {xs ys : List RefId} (hxs : xs.Nodup)
    (hlength : ys.length = xs.length) : ∃ f : RefId → RefId, ys = xs.map f := by
  refine ⟨fun i => ys.getD (xs.idxOf i) 0, List.ext_getElem (by simp [hlength]) fun k hk hk' => ?_⟩
  rw [List.getElem_map, hxs.idxOf_getElem, List.getD_eq_getElem _ _ hk]

/-- Two trees that differ in their numbers, none of which they have twice, are renumbered into each
other. -/
theorem Stmt.exists_renumbering {ss ss' : List Stmt}
    (h : Stmt.relabelList .unnumbered ss = Stmt.relabelList .unnumbered ss')
    (hss : (idsOf (Stmt.refsOfList ss)).Nodup) (hss' : (idsOf (Stmt.refsOfList ss')).Nodup) :
    ∃ f : RefId → RefId, Set.InjOn f {i | i ∈ idsOf (Stmt.refsOfList ss)} ∧
      ss' = Stmt.relabelList (.renumber f) ss := by
  have hlength : (idsOf (Stmt.refsOfList ss')).length = (idsOf (Stmt.refsOfList ss)).length := by
    have hids := congrArg (fun ss => (idsOf (Stmt.refsOfList ss)).length) h
    simpa only [Stmt.idsOf_refsOfList_relabel, List.length_map] using hids.symm
  obtain ⟨f, hf⟩ := exists_map_eq_of_nodup hss hlength
  refine ⟨f, ?_, ?_⟩
  · rw [hf] at hss'
    exact fun i hi j hj hij => List.inj_on_of_nodup_map hss' hi hj hij
  · have hids : idsOf (Stmt.refsOfList ss') ++ [] = (idsOf (Stmt.refsOfList ss) ++ []).map f := by
      rw [List.append_nil, List.append_nil]
      exact hf
    exact (Stmt.all_eq_relabel h hids).1

/-- A parse by a counter is the parse by stamps with its references numbered anew, one to one. -/
theorem Parse.counted_renames (first : RefId) (tokens : List Token) :
    ∃ f : RefId → RefId,
      Set.InjOn f {i | i ∈ idsOf (Stmt.refsOfList (ofTokens first tokens).statements)} ∧
      (counted first tokens).1 =
        { ofTokens first tokens with
          statements := Stmt.relabelList (.renumber f) (ofTokens first tokens).statements } := by
  have hstamps := nodup_refs first tokens
  have hdrawn := nodup_counted first tokens
  obtain ⟨ss, ss', complaints, next, hparse, hcounted, h⟩ := exists_eq_counted first tokens
  rw [hparse] at hstamps ⊢
  rw [hcounted] at hdrawn ⊢
  obtain ⟨f, hf, heq⟩ := Stmt.exists_renumbering h hstamps hdrawn
  exact ⟨f, hf, by rw [heq]⟩

/-- In `a = b;` the target draws 0 and the value 1. The assignment draws anew. -/
example :
    let a := Token.mk .identifier "a" none 1
    let b := Token.mk .identifier "b" none 1
    let tokens := [a, ⟨.equal, "=", none, 1⟩, b, ⟨.semicolon, ";", none, 1⟩]
    Parse.counted 0 tokens =
      (⟨[.expression (.assign 2 a (.var 1 b))], [], Token.endOf tokens⟩, 3) ∧
    Parse.ofTokens 0 tokens =
      ⟨[.expression (.assign 0 a (.var 2 b))], [], Token.endOf tokens⟩ :=
  ⟨rfl, rfl⟩

/-- The two ways of numbering may start from different numbers. -/
theorem Parse.counted_renumbers (first first' : RefId) (tokens : List Token) :
    ∃ f : RefId → RefId,
      Set.InjOn f {i | i ∈ idsOf (Stmt.refsOfList (ofTokens first tokens).statements)} ∧
      (counted first' tokens).1.statements =
        Stmt.relabelList (.renumber f) (ofTokens first tokens).statements ∧
      (counted first' tokens).1.errors = (ofTokens first tokens).errors := by
  obtain ⟨hmoved, herrors⟩ := ofTokens_renumbered first first' tokens
  have hstamps := nodup_refs first tokens
  have hdrawn := nodup_counted first' tokens
  obtain ⟨ss, ss', complaints, next, hparse, hcounted, h⟩ := exists_eq_counted first' tokens
  rw [hparse] at hmoved herrors
  rw [show ss = _ from hmoved, Stmt.relabelList_relabelList] at h
  rw [hcounted] at hdrawn ⊢
  obtain ⟨f, hf, heq⟩ := Stmt.exists_renumbering h hstamps hdrawn
  exact ⟨f, hf, heq, herrors⟩

end Lox
