import Lox.Program.Respell
import Lox.Proofs.Parse.Phrase

/-!
# Lox.Proofs.Respell.Read

A program with another spelling for a local variable is read from the same tokens, with the new
spelling on some of the identifiers (`Phrase.respell`). All tokens keep their kinds and stamps, so
each production applies as before.
-/

namespace Lox

/-! ## Tokens -/

/-- The same token, or an identifier of the old spelling with the new one. -/
def Token.Respelled (old new : String) (t t' : Token) : Prop :=
  t' = t ∨ t.kind = .identifier ∧ t.lexeme = old ∧ t' = t.spelled new

def Stamped.Respelled (old new : String) (t t' : Stamped) : Prop :=
  t'.id = t.id ∧ t.token.Respelled old new t'.token

theorem Token.Respelled.kind_eq {old new : String} {t t' : Token} (h : t.Respelled old new t') :
    t'.kind = t.kind := by
  obtain rfl | ⟨-, -, rfl⟩ := h <;> rfl

theorem Stamped.Respelled.refl {old new : String} (t : Stamped) : t.Respelled old new t :=
  ⟨rfl, .inl rfl⟩

theorem Stamped.forall₂_refl {old new : String} (u : List Stamped) :
    List.Forall₂ (Stamped.Respelled old new) u u :=
  List.forall₂_same.2 fun t _ => Stamped.Respelled.refl t

/-- A token that is as it was, in front of others. -/
theorem Stamped.kept {old new : String} (t : Stamped) {u u' : List Stamped}
    (h : List.Forall₂ (Stamped.Respelled old new) u u') :
    List.Forall₂ (Stamped.Respelled old new) (t :: u) (t :: u') :=
  .cons (Stamped.Respelled.refl t) h

/-- Tokens that are spelled alike are stamped alike. -/
theorem Stamped.exists_tokens {old new : String} {first : RefId} {ts : List Token}
    {u : List Stamped} (h : List.Forall₂ (Stamped.Respelled old new) (ofTokens first ts) u) :
    ∃ ts', u = ofTokens first ts' ∧ List.Forall₂ (Token.Respelled old new) ts ts' := by
  induction ts generalizing first u with
  | nil =>
    cases h
    exact ⟨[], rfl, .nil⟩
  | cons t ts ih =>
    cases h with
    | @cons _ t' _ _ ht hts =>
      obtain ⟨hid, ht⟩ := ht
      obtain ⟨ts', rfl, htokens⟩ := ih hts
      refine ⟨t'.token :: ts', ?_, .cons ht htokens⟩
      have hid : t'.id = first := hid
      rw [ofTokens, ← hid]

namespace Respelling

variable (c : Respelling) (site : Site)

theorem respelled_reference (id : RefId) {name : Token} (hk : name.kind = .identifier) :
    name.Respelled c.old c.new (c.reference site id name) := by
  unfold reference
  split
  · split
    · rename_i h
      exact .inr ⟨hk, h.1, rfl⟩
    · exact .inl rfl
  · exact .inl rfl

theorem respelled_declaration {name : Token} (hk : name.kind = .identifier) :
    name.Respelled c.old c.new (c.declaration site name) := by
  unfold declaration
  split
  · split
    · rename_i h
      exact .inr ⟨hk, h, rfl⟩
    · exact .inl rfl
  · exact .inl rfl

/-! ## Trees -/

theorem respell_combine (level : Level) (left : Expr) (operator : Token) (right : Expr) :
    (level.combine left operator right).respell c site =
      level.combine (left.respell c site) operator (right.respell c site) := by
  cases level <;> rfl

/-- The parts of a `for` loop lie in the blocks that it is made of. -/
theorem respell_ofFor (init : Option Stmt) (condition increment : Option Expr) (body : Stmt) :
    ∃ siteInit site₁ site₂ siteBody, (Stmt.ofFor init condition increment body).respell c site =
      .ofFor (init.map (Stmt.respell c siteInit)) (condition.map (Expr.respell c site₁))
        (increment.map (Expr.respell c site₂)) (body.respell c siteBody) := by
  have hloop (site : Site) : ∃ site₂ siteBody,
      (Stmt.ofFor none condition increment body).respell c site =
        .ofFor none (condition.map (Expr.respell c site)) (increment.map (Expr.respell c site₂))
          (body.respell c siteBody) := by
    cases increment with
    | none => exact ⟨site, site, by cases condition <;> rfl⟩
    | some e => exact ⟨_, _, by cases condition <;> rfl⟩
  cases init with
  | none =>
    obtain ⟨site₂, siteBody, h⟩ := hloop site
    exact ⟨site, site, site₂, siteBody, h⟩
  | some s =>
    have hblock (loop : Stmt) : ∃ site₁ site₂, (Stmt.block [s, loop]).respell c site =
        .block [s.respell c site₁, loop.respell c site₂] := ⟨_, _, rfl⟩
    obtain ⟨siteInit, site₁, hblock⟩ := hblock (.ofFor none condition increment body)
    obtain ⟨site₂, siteBody, h⟩ := hloop site₁
    refine ⟨siteInit, site₁, site₂, siteBody, ?_⟩
    rw [h] at hblock
    exact hblock

end Respelling

def Shape.respell (c : Respelling) (site : Site) : Shape → Shape
  | .expression e => .expression (e.respell c site)
  | .level l e => .level l (e.respell c site)
  | .operand l e => .operand l (e.respell c site)
  | .chain l left e => .chain l (left.respell c site) (e.respell c site)
  | .unary e => .unary (e.respell c site)
  | .call e => .call (e.respell c site)
  | .suffixes callee e => .suffixes (callee.respell c site) (e.respell c site)
  | .arguments args => .arguments (Expr.respellList c site args)
  | .argumentList index args => .argumentList index (Expr.respellList c site args)
  | .primary e => .primary (e.respell c site)
  | .optional e => .optional (e.map (Expr.respell c site))
  | .superclass e => .superclass (e.map (Expr.respell c site))
  | .parameters params => .parameters (params.map (c.declaration site))
  | .parameterList index params => .parameterList index (params.map (c.declaration site))
  | .function decl => .function (decl.respell c site)
  | .methods decls => .methods (FunctionDecl.respellList c site decls)
  | .varRest s => .varRest (s.respell c site)
  | .expressionStatement s => .expressionStatement (s.respell c site)
  | .initializer s => .initializer (s.map (Stmt.respell c site))
  | .statement isOpen s => .statement isOpen (s.respell c site)
  | .declaration s => .declaration (s.respell c site)
  | .declarations ss => .declarations (Stmt.respellList c site ss)

/-! ## Reading -/

/-- What stands in the shape is read from these tokens, when some of them are spelled anew. -/
def Shape.ReadFrom (old new : String) (shape : Shape) (u : List Stamped) : Prop :=
  ∃ u', Phrase shape u' ∧ List.Forall₂ (Stamped.Respelled old new) u u'

section

variable {c : Respelling} {site : Site} {name : Stamped}

theorem Stamped.exists_reference (hk : name.token.kind = .identifier) :
    ∃ name' : Stamped, name.Respelled c.old c.new name' ∧ name'.token.kind = .identifier ∧
      name'.id = name.id ∧ name'.token = c.reference site name.id name.token := by
  have h := c.respelled_reference site name.id hk
  exact ⟨⟨c.reference site name.id name.token, name.id⟩, ⟨rfl, h⟩, h.kind_eq.trans hk, rfl, rfl⟩

theorem Stamped.exists_declaration (hk : name.token.kind = .identifier) :
    ∃ name' : Stamped, name.Respelled c.old c.new name' ∧ name'.token.kind = .identifier ∧
      name'.token = c.declaration site name.token := by
  have h := c.respelled_declaration site hk
  exact ⟨⟨c.declaration site name.token, name.id⟩, ⟨rfl, h⟩, h.kind_eq.trans hk, rfl⟩

end

open Stamped (kept) in
theorem Phrase.respell (c : Respelling) {shape : Shape} {u : List Stamped} (h : Phrase shape u) :
    ∀ site, (shape.respell c site).ReadFrom c.old c.new u := by
  induction h with
  | plain _ ih =>
    intro site
    obtain ⟨u', hu, hs⟩ := ih site
    exact ⟨u', .plain hu, hs⟩
  | assign hn he _ ih =>
    intro site
    obtain ⟨u', hu, hs⟩ := ih site
    obtain ⟨name', hname, hk, hid, htoken⟩ := Stamped.exists_reference (c := c) hn
    have hphrase := Phrase.assign hk he hu
    rw [hid, htoken] at hphrase
    exact ⟨_, hphrase, .cons hname (kept _ hs)⟩
  | set _ hd hn he _ iho ihv =>
    intro site
    obtain ⟨u', hu, hs⟩ := iho site
    obtain ⟨v', hv, hs'⟩ := ihv site
    exact ⟨_, .set hu hd hn he hv,
      List.rel_append hs (kept _ (kept _ (kept _ hs')))⟩
  | level _ _ ihu ihv =>
    intro site
    obtain ⟨u', hu, hs⟩ := ihu site
    obtain ⟨v', hv, hs'⟩ := ihv site
    exact ⟨_, .level hu hv, List.rel_append hs hs'⟩
  | operandLevel ht _ ih =>
    intro site
    obtain ⟨u', hu, hs⟩ := ih site
    exact ⟨u', .operandLevel ht hu, hs⟩
  | operandUnary ht _ ih =>
    intro site
    obtain ⟨u', hu, hs⟩ := ih site
    exact ⟨u', .operandUnary ht hu, hs⟩
  | chainStop => exact fun _ => ⟨[], .chainStop, .nil⟩
  | chainStep ho _ _ ihu ihv =>
    intro site
    obtain ⟨u', hu, hs⟩ := ihu site
    obtain ⟨v', hv, hs'⟩ := ihv site
    simp only [Shape.respell, Respelling.respell_combine] at hv
    exact ⟨_, .chainStep ho hu hv, kept _ (List.rel_append hs hs')⟩
  | unary ho _ ih =>
    intro site
    obtain ⟨u', hu, hs⟩ := ih site
    exact ⟨_, .unary ho hu, kept _ hs⟩
  | unaryCall _ ih =>
    intro site
    obtain ⟨u', hu, hs⟩ := ih site
    exact ⟨u', .unaryCall hu, hs⟩
  | call _ _ ihu ihv =>
    intro site
    obtain ⟨u', hu, hs⟩ := ihu site
    obtain ⟨v', hv, hs'⟩ := ihv site
    exact ⟨_, .call hu hv, List.rel_append hs hs'⟩
  | suffixesStop => exact fun _ => ⟨[], .suffixesStop, .nil⟩
  | suffixesCall ho _ hp _ ihu ihv =>
    intro site
    obtain ⟨u', hu, hs⟩ := ihu site
    obtain ⟨v', hv, hs'⟩ := ihv site
    exact ⟨_, .suffixesCall ho hu hp hv,
      kept _ (List.rel_append hs (kept _ hs'))⟩
  | suffixesGet hd hn _ ih =>
    intro site
    obtain ⟨u', hu, hs⟩ := ih site
    exact ⟨_, .suffixesGet hd hn hu, kept _ (kept _ hs)⟩
  | argumentsNone => exact fun _ => ⟨[], .argumentsNone, .nil⟩
  | argumentsSome _ ih =>
    intro site
    obtain ⟨u', hu, hs⟩ := ih site
    exact ⟨u', .argumentsSome hu, hs⟩
  | argumentLast hi _ ih =>
    intro site
    obtain ⟨u', hu, hs⟩ := ih site
    exact ⟨u', .argumentLast hi hu, hs⟩
  | argumentMore hi _ hc _ ihu ihv =>
    intro site
    obtain ⟨u', hu, hs⟩ := ihu site
    obtain ⟨v', hv, hs'⟩ := ihv site
    exact ⟨_, .argumentMore hi hu hc hv, List.rel_append hs (kept _ hs')⟩
  | constant hk => exact fun _ => ⟨_, .constant hk, Stamped.forall₂_refl _⟩
  | superRef hk hd hm => exact fun _ => ⟨_, .superRef hk hd hm, Stamped.forall₂_refl _⟩
  | thisRef hk => exact fun _ => ⟨_, .thisRef hk, Stamped.forall₂_refl _⟩
  | var hk =>
    intro site
    obtain ⟨name', hname, hk, hid, htoken⟩ := Stamped.exists_reference (c := c) hk
    have hphrase := Phrase.var hk
    rw [hid, htoken] at hphrase
    exact ⟨_, hphrase, .cons hname .nil⟩
  | grouping ho _ hc ih =>
    intro site
    obtain ⟨u', hu, hs⟩ := ih site
    exact ⟨_, .grouping ho hu hc, kept _ (List.rel_append hs (kept _ .nil))⟩
  | optionalNone => exact fun _ => ⟨[], .optionalNone, .nil⟩
  | optionalSome _ ih =>
    intro site
    obtain ⟨u', hu, hs⟩ := ih site
    exact ⟨u', .optionalSome hu, hs⟩
  | superclassNone => exact fun _ => ⟨[], .superclassNone, .nil⟩
  | superclassSome hl hn =>
    intro site
    obtain ⟨name', hname, hk, hid, htoken⟩ := Stamped.exists_reference (c := c) hn
    have hphrase := Phrase.superclassSome hl hk
    rw [hid, htoken] at hphrase
    exact ⟨_, hphrase, kept _ (.cons hname .nil)⟩
  | parametersNone => exact fun _ => ⟨[], .parametersNone, .nil⟩
  | parametersSome _ ih =>
    intro site
    obtain ⟨u', hu, hs⟩ := ih site
    exact ⟨u', .parametersSome hu, hs⟩
  | parameterLast hi hp =>
    intro site
    obtain ⟨param', hparam, hk, htoken⟩ := Stamped.exists_declaration (c := c) hp
    have hphrase := Phrase.parameterLast hi hk
    rw [htoken] at hphrase
    exact ⟨_, hphrase, .cons hparam .nil⟩
  | parameterMore hi hp hc _ ih =>
    intro site
    obtain ⟨u', hu, hs⟩ := ih site
    obtain ⟨param', hparam, hk, htoken⟩ := Stamped.exists_declaration (c := c) hp
    have hphrase := Phrase.parameterMore hi hk hc hu
    rw [htoken] at hphrase
    exact ⟨_, hphrase, .cons hparam (kept _ hs)⟩
  | @function name opening closing left right params body u v hn ho _ hc hl _ hr ihu ihv =>
    intro site
    obtain ⟨u', hu, hs⟩ := ihu
      (site.body (FunctionDecl.declaresVariable c.old ⟨name.token, params, body⟩))
    obtain ⟨v', hv, hs'⟩ := ihv
      (site.body (FunctionDecl.declaresVariable c.old ⟨name.token, params, body⟩))
    have hclosed := List.rel_append hs' (kept right .nil)
    exact ⟨_, .function hn ho hu hc hl hv hr, kept _ (kept _
      (List.rel_append hs (kept _ (kept _ hclosed))))⟩
  | methodsNone => exact fun _ => ⟨[], .methodsNone, .nil⟩
  | methodsMore _ _ ihu ihv =>
    intro site
    obtain ⟨u', hu, hs⟩ := ihu site.first
    obtain ⟨v', hv, hs'⟩ := ihv site.rest
    exact ⟨_, .methodsMore hu hv, List.rel_append hs hs'⟩
  | varPlain hn hsemicolon =>
    intro site
    obtain ⟨name', hname, hk, htoken⟩ := Stamped.exists_declaration (c := c) hn
    have hphrase := Phrase.varPlain hk hsemicolon
    rw [htoken] at hphrase
    exact ⟨_, hphrase, .cons hname (kept _ .nil)⟩
  | varInit hn he _ hsemicolon ih =>
    intro site
    obtain ⟨u', hu, hs⟩ := ih site
    obtain ⟨name', hname, hk, htoken⟩ := Stamped.exists_declaration (c := c) hn
    have hphrase := Phrase.varInit hk he hu hsemicolon
    rw [htoken] at hphrase
    exact ⟨_, hphrase,
      .cons hname (kept _ (List.rel_append hs (kept _ .nil)))⟩
  | expressionStatement _ hsemicolon ih =>
    intro site
    obtain ⟨u', hu, hs⟩ := ih site
    exact ⟨_, .expressionStatement hu hsemicolon, List.rel_append hs (kept _ .nil)⟩
  | initializerNone hsemicolon =>
    exact fun _ => ⟨_, .initializerNone hsemicolon, Stamped.forall₂_refl _⟩
  | initializerVar hk _ ih =>
    intro site
    obtain ⟨u', hu, hs⟩ := ih site
    exact ⟨_, .initializerVar hk hu, kept _ hs⟩
  | initializerExpression _ ih =>
    intro site
    obtain ⟨u', hu, hs⟩ := ih site
    exact ⟨u', .initializerExpression hu, hs⟩
  | expressionForm _ ih =>
    intro site
    obtain ⟨u', hu, hs⟩ := ih site
    exact ⟨u', .expressionForm hu, hs⟩
  | @forLoop _ _ semicolon closing init condition increment _ body _ _ _ _ hk ho _ _ hs _ hc _ ihu
      ihv ihw ihx =>
    intro site
    obtain ⟨siteInit, site₁, site₂, siteBody, hloop⟩ :=
      c.respell_ofFor site init condition increment body
    obtain ⟨u', hu, hsu⟩ := ihu siteInit
    obtain ⟨v', hv, hsv⟩ := ihv site₁
    obtain ⟨w', hw, hsw⟩ := ihw site₂
    obtain ⟨x', hx, hsx⟩ := ihx siteBody
    have hphrase := Phrase.forLoop hk ho hu hv hs hw hc hx
    rw [← hloop] at hphrase
    have hclauses := List.rel_append hsv (kept semicolon (List.rel_append hsw (kept closing hsx)))
    exact ⟨_, hphrase, kept _ (kept _ (List.rel_append hsu hclauses))⟩
  | ifThen hk ho _ hc _ ihu ihv =>
    intro site
    obtain ⟨u', hu, hs⟩ := ihu site
    obtain ⟨v', hv, hs'⟩ := ihv site
    exact ⟨_, .ifThen hk ho hu hc hv,
      kept _ (kept _ (List.rel_append hs (kept _ hs')))⟩
  | @ifElse _ _ _ other _ _ _ _ _ _ _ hk ho _ hc _ he _ ihu ihv ihw =>
    intro site
    obtain ⟨u', hu, hs⟩ := ihu site
    obtain ⟨v', hv, hs'⟩ := ihv site.first
    obtain ⟨w', hw, hs''⟩ := ihw site.rest.first
    have hbranches := List.rel_append hs' (kept other hs'')
    exact ⟨_, .ifElse hk ho hu hc hv he hw,
      kept _ (kept _ (List.rel_append hs (kept _ hbranches)))⟩
  | whileLoop hk ho _ hc _ ihu ihv =>
    intro site
    obtain ⟨u', hu, hs⟩ := ihu site
    obtain ⟨v', hv, hs'⟩ := ihv site
    exact ⟨_, .whileLoop hk ho hu hc hv,
      kept _ (kept _ (List.rel_append hs (kept _ hs')))⟩
  | ret hk _ hsemicolon ih =>
    intro site
    obtain ⟨u', hu, hs⟩ := ih site
    exact ⟨_, .ret hk hu hsemicolon, kept _ (List.rel_append hs (kept _ .nil))⟩
  | @block _ _ body _ hl _ hr ih =>
    intro site
    obtain ⟨u', hu, hs⟩ := ih (site.body (body.any (·.declaresVariable c.old)))
    exact ⟨_, .block hl hu hr, kept _ (List.rel_append hs (kept _ .nil))⟩
  | @classDeclaration _ _ _ right superclass _ _ _ hk hn _ hl _ hr ihu ihv =>
    intro site
    obtain ⟨u', hu, hs⟩ := ihu site
    cases superclass with
    | none =>
      obtain ⟨v', hv, hs'⟩ := ihv site.deeper
      have hclosed := List.rel_append hs' (kept right .nil)
      exact ⟨_, .classDeclaration hk hn hu hl hv hr,
        kept _ (kept _ (List.rel_append hs (kept _ hclosed)))⟩
    | some superclass =>
      obtain ⟨v', hv, hs'⟩ := ihv site.deeper.deeper
      have hclosed := List.rel_append hs' (kept right .nil)
      exact ⟨_, .classDeclaration hk hn hu hl hv hr,
        kept _ (kept _ (List.rel_append hs (kept _ hclosed)))⟩
  | functionDeclaration hk _ ih =>
    intro site
    obtain ⟨u', hu, hs⟩ := ih site
    exact ⟨_, .functionDeclaration hk hu, kept _ hs⟩
  | varDeclaration hk _ ih =>
    intro site
    obtain ⟨u', hu, hs⟩ := ih site
    exact ⟨_, .varDeclaration hk hu, kept _ hs⟩
  | statement _ ih =>
    intro site
    obtain ⟨u', hu, hs⟩ := ih site
    exact ⟨u', .statement hu, hs⟩
  | declarationsNone => exact fun _ => ⟨[], .declarationsNone, .nil⟩
  | declarationsMore _ _ ihu ihv =>
    intro site
    obtain ⟨u', hu, hs⟩ := ihu site.first
    obtain ⟨v', hv, hs'⟩ := ihv site.rest
    exact ⟨_, .declarationsMore hu hv, List.rel_append hs hs'⟩

end Lox
