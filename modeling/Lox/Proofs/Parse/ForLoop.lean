import Mathlib
import Lox.Proofs.Parse.Appended
import Lox.Proofs.Parse.RoundTrip

/-!
# Lox.Proofs.Parse.ForLoop

A `for` statement is the loop that one would write out by hand (`Parse.forLoop_explicit`): where
`for (initializer; condition; increment) body` parses, `{ initializer; while (condition) { body
increment; } }` parses as well, and as the same tree up to the numbers of references and the lines
of tokens. The outer braces are left out if there is no initializer, the inner ones if there is no
increment, and `true` stands for a condition that is not there. The body is any statement.

Where the clauses end can be told from the tokens alone, for there are no semicolons in expressions
and their parentheses are paired (`Phrase.plainIn`).
-/

namespace Lox

/-! ## Texts -/

/-- The change by which all references get one number and all tokens one line. -/
def Relabel.erase : Relabel := { id := fun _ => 0, line := fun _ => 0 }

/-- A token fits a mark if it would on some other line. -/
def Mark.FitsSomewhere (m : Mark) (t : Token) : Prop := ∃ line, m.Fits { t with line := line }

/-- `ts` is a writing of `marks`, on whatever lines. -/
def WritesSomewhere (marks : List Mark) (ts : List Token) : Prop :=
  List.Forall₂ Mark.FitsSomewhere marks ts

/-- Every parenthesis is closed, those that are open before included, and none that is not open. -/
def Token.paired : Nat → List Token → Bool
  | d, [] => d == 0
  | d, t :: ts =>
    if t.kind = .leftParen then paired (d + 1) ts
    else if t.kind = .rightParen then decide (0 < d) && paired (d - 1) ts
    else paired d ts

/-- The clauses and the body of a `for` statement as they are written: the initializer without its
semicolon, and a clause that is not there as no tokens. -/
structure ForText where
  initializer : List Token
  condition : List Token
  increment : List Token
  body : List Token

namespace ForText

open Mark TokenKind

variable (f : ForText)

/-- `for (initializer; condition; increment) body` -/
def marks : List Mark :=
  any kwFor :: any leftParen :: (f.initializer.map exactly ++ any semicolon ::
    (f.condition.map exactly ++ any semicolon ::
      (f.increment.map exactly ++ any rightParen :: f.body.map exactly)))

/-- `{ body increment; }` -/
def repeatedMarks : List Mark :=
  if f.increment = [] then f.body.map exactly
  else
    any leftBrace :: (f.body.map exactly ++ (f.increment.map exactly ++
      [any semicolon, any rightBrace]))

def conditionMarks : List Mark :=
  if f.condition = [] then [any kwTrue] else f.condition.map exactly

/-- `while (condition) { body increment; }` -/
def loopMarks : List Mark :=
  any kwWhile :: any leftParen :: (f.conditionMarks ++ any rightParen :: f.repeatedMarks)

/-- `{ initializer; while (condition) { body increment; } }` -/
def explicitMarks : List Mark :=
  if f.initializer = [] then f.loopMarks
  else
    any leftBrace :: (f.initializer.map exactly ++ any semicolon :: (f.loopMarks ++
      [any rightBrace]))

/-- The clauses can be told apart: semicolons end the first two, and the third ends with the closing
parenthesis that is not opened in it. The clauses of every `for` statement are so
(`exists_of_phrase`). -/
structure Separated : Prop where
  initializer : ∀ t ∈ f.initializer, t.kind ≠ semicolon
  condition : ∀ t ∈ f.condition, t.kind ≠ semicolon
  increment : Token.paired 0 f.increment = true

end ForText

/-! ## Where clauses end -/

/-- There is no semicolon, and the parentheses are paired. -/
structure Plain (u : List Stamped) : Prop where
  noSemicolon : ∀ t ∈ u, t.token.kind ≠ .semicolon
  paired : ∀ d rest, Token.paired d (u.map (·.token) ++ rest) = Token.paired d rest

section Plain

variable {t opening closing : Stamped} {u v : List Stamped}

theorem plain_nil : Plain [] := ⟨nofun, fun _ _ => rfl⟩

theorem Plain.paired_zero (hu : Plain u) : Token.paired 0 (u.map (·.token)) = true := by
  have hall := hu.paired 0 []
  rw [List.append_nil] at hall
  exact hall

theorem Plain.append (hu : Plain u) (hv : Plain v) : Plain (u ++ v) where
  noSemicolon := List.forall_mem_append.mpr ⟨hu.noSemicolon, hv.noSemicolon⟩
  paired d rest := by rw [List.map_append, List.append_assoc, hu.paired, hv.paired]

theorem Plain.cons (ht : t.token.kind ∉ [TokenKind.semicolon, .leftParen, .rightParen])
    (hu : Plain u) : Plain (t :: u) where
  noSemicolon := by
    refine List.forall_mem_cons.mpr ⟨fun h => ht ?_, hu.noSemicolon⟩
    rw [h]
    decide
  paired d rest := by
    have hleft : t.token.kind ≠ .leftParen := fun h => ht (by rw [h]; decide)
    have hright : t.token.kind ≠ .rightParen := fun h => ht (by rw [h]; decide)
    rw [List.map_cons, List.cons_append, Token.paired, if_neg hleft, if_neg hright]
    exact hu.paired d rest

theorem Plain.parenthesized (ho : opening.token.kind = .leftParen) (hu : Plain u)
    (hc : closing.token.kind = .rightParen) (hv : Plain v) :
    Plain (opening :: (u ++ closing :: v)) where
  noSemicolon := by
    refine List.forall_mem_cons.mpr ⟨by simp [ho], List.forall_mem_append.mpr ⟨hu.noSemicolon, ?_⟩⟩
    exact List.forall_mem_cons.mpr ⟨by simp [hc], hv.noSemicolon⟩
  paired d rest := by
    have hright : closing.token.kind ≠ .leftParen := by simp [hc]
    simp only [List.map_cons, List.map_append, List.cons_append, List.append_assoc]
    rw [Token.paired, if_pos ho, hu.paired, Token.paired, if_neg hright, if_pos hc, hv.paired]
    simp

end Plain

/-- What is plain: expressions and lists of them. -/
def Shape.PlainIn : Shape → List Stamped → Prop
  | .expression _, u | .level _ _, u | .operand _ _, u | .chain _ _ _, u | .unary _, u
  | .call _, u | .suffixes _ _, u | .arguments _, u | .argumentList _ _, u | .primary _, u
  | .optional _, u => Plain u
  | _, _ => True

theorem Phrase.plainIn {shape : Shape} {u : List Stamped} (h : Phrase shape u) :
    shape.PlainIn u := by
  induction h with
  | plain _ ih | operandLevel _ _ ih | operandUnary _ _ ih | unaryCall _ ih | argumentsSome _ ih
  | argumentLast _ _ ih | optionalSome _ ih => exact ih
  | chainStop | suffixesStop | argumentsNone | optionalNone => exact plain_nil
  | assign hn he _ ih => exact .cons (by rw [hn]; decide) (.cons (by rw [he]; decide) ih)
  | set _ hd hn he _ iho ihv =>
    refine Plain.append iho (.cons (by rw [hd]; decide) (.cons (by rw [hn]; decide) ?_))
    exact .cons (by rw [he]; decide) ihv
  | level _ _ ihu ihv | call _ _ ihu ihv => exact Plain.append ihu ihv
  | @chainStep level operator _ _ _ _ _ ho _ _ ihu ihv =>
    refine .cons (fun h => ?_) (Plain.append ihu ihv)
    have hdisjoint : ∀ kind ∈ level.operators,
        kind ∉ [TokenKind.semicolon, .leftParen, .rightParen] := by cases level <;> decide
    exact hdisjoint _ ho h
  | @unary operator _ _ ho _ ih =>
    have hdisjoint : ∀ kind ∈ [TokenKind.bang, .minus],
        kind ∉ [TokenKind.semicolon, .leftParen, .rightParen] := by decide
    exact .cons (hdisjoint _ ho) ih
  | suffixesCall ho _ hp _ ihu ihv => exact .parenthesized ho ihu hp ihv
  | suffixesGet hd hn _ ih => exact .cons (by rw [hd]; decide) (.cons (by rw [hn]; decide) ih)
  | argumentMore _ _ hc _ ihu ihv => exact Plain.append ihu (.cons (by rw [hc]; decide) ihv)
  | constant hk =>
    have hdisjoint : ∀ kind ∈ Constant.kinds,
        kind ∉ [TokenKind.semicolon, .leftParen, .rightParen] := by decide
    exact .cons (hdisjoint _ hk) plain_nil
  | superRef hk hd hm =>
    refine .cons (by rw [hk]; decide) (.cons (by rw [hd]; decide) ?_)
    exact .cons (by rw [hm]; decide) plain_nil
  | thisRef hk | var hk => exact .cons (by rw [hk]; decide) plain_nil
  | grouping ho _ hc ih => exact .parenthesized ho ih hc plain_nil
  | _ => trivial

/-! ## Splitting at a token -/

section Split

variable {t t' : Token} {ts ts' us us' : List Token}

/-- A list is split in one way at its first semicolon. -/
theorem eq_of_split_semicolon (hts : ∀ u ∈ ts, u.kind ≠ .semicolon)
    (hts' : ∀ u ∈ ts', u.kind ≠ .semicolon) (ht : t.kind = .semicolon) (ht' : t'.kind = .semicolon)
    (h : ts ++ t :: us = ts' ++ t' :: us') : ts = ts' ∧ us = us' := by
  induction ts generalizing ts' with
  | nil =>
    cases ts' with
    | nil =>
      cases h
      exact ⟨rfl, rfl⟩
    | cons u ts' =>
      cases h
      exact absurd ht (hts' _ List.mem_cons_self)
  | cons u ts ih =>
    cases ts' with
    | nil =>
      cases h
      exact absurd ht' (hts _ List.mem_cons_self)
    | cons u' ts' =>
      obtain ⟨rfl, hrest⟩ := List.cons.inj h
      obtain ⟨rfl, rfl⟩ := ih (List.forall_mem_cons.mp hts).2 (List.forall_mem_cons.mp hts').2 hrest
      exact ⟨rfl, rfl⟩

theorem not_paired_cons (ht : t.kind = .rightParen) : Token.paired 0 (t :: ts) = false := by
  simp [Token.paired, ht]

/-- A list is split in one way at the parenthesis that closes it. -/
theorem eq_of_split_paren {d : Nat} (hts : Token.paired d ts = true)
    (hts' : Token.paired d ts' = true) (ht : t.kind = .rightParen) (ht' : t'.kind = .rightParen)
    (h : ts ++ t :: us = ts' ++ t' :: us') : ts = ts' ∧ us = us' := by
  induction ts generalizing ts' d with
  | nil =>
    obtain rfl : d = 0 := by simpa [Token.paired] using hts
    cases ts' with
    | nil =>
      cases h
      exact ⟨rfl, rfl⟩
    | cons u ts' =>
      cases h
      rw [not_paired_cons ht] at hts'
      cases hts'
  | cons u ts ih =>
    cases ts' with
    | nil =>
      cases h
      obtain rfl : d = 0 := by simpa [Token.paired] using hts'
      rw [not_paired_cons ht'] at hts
      cases hts
    | cons u' ts' =>
      obtain ⟨rfl, hrest⟩ := List.cons.inj h
      have hboth : ∃ d, Token.paired d ts = true ∧ Token.paired d ts' = true := by
        rw [Token.paired] at hts hts'
        split at hts
        next hleft => exact ⟨_, hts, by rwa [if_pos hleft] at hts'⟩
        next hleft =>
          rw [if_neg hleft] at hts'
          split at hts
          next hright =>
            rw [if_pos hright] at hts'
            exact ⟨_, (Bool.and_eq_true_iff.mp hts).2, (Bool.and_eq_true_iff.mp hts').2⟩
          next hright => exact ⟨_, hts, by rwa [if_neg hright] at hts'⟩
      obtain ⟨d, hpaired, hpaired'⟩ := hboth
      obtain ⟨rfl, rfl⟩ := ih hpaired hpaired' hrest
      exact ⟨rfl, rfl⟩

end Split

/-! ## Writings taken apart -/

/-- The same tokens, on whatever lines. -/
def SameText (ts us : List Token) : Prop :=
  ts.map (Token.relabel .erase) = us.map (Token.relabel .erase)

section Writings

variable {m : Mark} {ms ms' : List Mark} {ts us : List Token}

theorem exists_of_writes_any {kind : TokenKind} (h : WritesSomewhere (.any kind :: ms) us) :
    ∃ t vs, us = t :: vs ∧ t.kind = kind ∧ WritesSomewhere ms vs := by
  obtain ⟨t, vs, ⟨_, ht⟩, hvs, rfl⟩ := List.forall₂_cons_left_iff.mp h
  exact ⟨t, vs, rfl, ht, hvs⟩

theorem exists_of_writes_append (h : WritesSomewhere (ms ++ ms') us) :
    ∃ vs ws, us = vs ++ ws ∧ WritesSomewhere ms vs ∧ WritesSomewhere ms' ws := by
  induction ms generalizing us with
  | nil => exact ⟨[], us, rfl, .nil, h⟩
  | cons m ms ih =>
    obtain ⟨t, us, ht, hus, rfl⟩ := List.forall₂_cons_left_iff.mp h
    obtain ⟨vs, ws, rfl, hvs, hws⟩ := ih hus
    exact ⟨t :: vs, ws, rfl, .cons ht hvs, hws⟩

theorem writes_append (h : WritesSomewhere ms ts) (h' : WritesSomewhere ms' us) :
    WritesSomewhere (ms ++ ms') (ts ++ us) :=
  List.rel_append h h'

theorem writes_exactly (ts : List Token) : WritesSomewhere (ts.map .exactly) ts :=
  List.forall₂_map_left_iff.mpr (List.forall₂_same.mpr fun t _ => ⟨t.line, rfl⟩)

theorem sameText_of_writes (h : WritesSomewhere (ts.map .exactly) us) : SameText us ts := by
  induction ts generalizing us with
  | nil =>
    cases h
    rfl
  | cons t ts ih =>
    obtain ⟨u, us, ⟨line, hu⟩, hus, rfl⟩ := List.forall₂_cons_left_iff.mp h
    have hline : u.relabel .erase = t.relabel .erase := by
      rw [← show { u with line := line } = t from hu]
      rfl
    rw [SameText, List.map_cons, List.map_cons, hline, ih hus]

theorem exists_of_writes_exactly (h : WritesSomewhere (ts.map .exactly ++ ms) us) :
    ∃ vs ws, us = vs ++ ws ∧ SameText vs ts ∧ WritesSomewhere ms ws := by
  obtain ⟨vs, ws, rfl, hvs, hws⟩ := exists_of_writes_append h
  exact ⟨vs, ws, rfl, sameText_of_writes hvs, hws⟩

end Writings

section SameText

variable {ts us : List Token}

theorem SameText.symm (h : SameText ts us) : SameText us ts := Eq.symm h

theorem SameText.kinds (h : SameText ts us) :
    ts.map Token.kind = us.map Token.kind := by
  have hkinds := congrArg (List.map Token.kind) h
  rw [List.map_map, List.map_map] at hkinds
  exact hkinds

theorem SameText.eq_nil_iff (h : SameText ts us) : ts = [] ↔ us = [] := by
  have hlength := congrArg List.length h.kinds
  rw [List.length_map, List.length_map] at hlength
  rw [← List.length_eq_zero_iff, ← List.length_eq_zero_iff, hlength]

theorem SameText.kind_ne {kind : TokenKind} (h : SameText ts us)
    (hus : ∀ t ∈ us, t.kind ≠ kind) : ∀ t ∈ ts, t.kind ≠ kind := by
  intro t ht
  have hmem := List.mem_map_of_mem (f := Token.kind) ht
  rw [h.kinds] at hmem
  obtain ⟨u, hu, heq⟩ := List.mem_map.mp hmem
  rw [← heq]
  exact hus u hu

theorem paired_of_kinds (h : ts.map Token.kind = us.map Token.kind) :
    ∀ d, Token.paired d ts = Token.paired d us := by
  induction ts generalizing us with
  | nil =>
    cases us with
    | nil => exact fun _ => rfl
    | cons => cases h
  | cons t ts ih =>
    cases us with
    | nil => cases h
    | cons u us =>
      obtain ⟨hkind, hrest⟩ := List.cons.inj h
      intro d
      rw [Token.paired, Token.paired, hkind, ih hrest, ih hrest, ih hrest]

end SameText

/-! ## Texts and trees -/

/-- A statement with an expression after it, in a block of their own. -/
def Stmt.followedBy (s : Stmt) : Option Expr → Stmt
  | none => s
  | some e => .block [s, .expression e]

theorem Stmt.ofFor_none (condition increment : Option Expr) (body : Stmt) :
    Stmt.ofFor none condition increment body =
      .loop (condition.getD (.constant (.bool true))) (body.followedBy increment) := by
  cases increment <;> rfl

theorem Stmt.ofFor_some (s : Stmt) (condition increment : Option Expr) (body : Stmt) :
    Stmt.ofFor (some s) condition increment body =
      .block [s, .ofFor none condition increment body] := rfl

/-- A token on no particular line and with no number of its own. -/
def Stamped.bare (t : Token) : Stamped := ⟨t.relabel .erase, 0⟩

/-- The tokens stand for the tree, wherever they are. -/
def Shape.Stands (shape : Shape) (ts : List Token) : Prop := Phrase shape (ts.map Stamped.bare)

theorem Shape.Stands.of_sameText {shape : Shape} {ts us : List Token} (h : shape.Stands us)
    (hsame : SameText ts us) : shape.Stands ts := by
  have hbare := congrArg (List.map fun t => (⟨t, 0⟩ : Stamped)) hsame
  rw [List.map_map, List.map_map] at hbare
  unfold Shape.Stands at h ⊢
  rwa [show ts.map Stamped.bare = us.map Stamped.bare from hbare]

theorem Phrase.stands {shape : Shape} {u : List Stamped} (h : Phrase shape u) :
    (shape.relabel .erase).Stands (u.map (·.token)) := by
  unfold Shape.Stands
  rw [List.map_map]
  exact h.relabel .erase

/-- What the clauses and the body of a `for` statement stand for. -/
structure ForText.Means (f : ForText) (init : Option Stmt) (condition increment : Option Expr)
    (body : Stmt) : Prop where
  initializer :
    match init with
    | none => f.initializer = []
    | some s => f.initializer ≠ [] ∧ ∀ semicolon, semicolon.kind = .semicolon →
        (Shape.declaration s).Stands (f.initializer ++ [semicolon])
  condition : (Shape.optional condition).Stands f.condition
  increment : (Shape.optional increment).Stands f.increment
  body : ∃ isOpen, (Shape.statement isOpen body).Stands f.body

/-- The first clause of a `for` is what comes before its semicolon. -/
theorem Phrase.initializer_cases {init : Option Stmt} {u : List Stamped}
    (h : Phrase (.initializer init) u) :
    ∃ v semicolon, u = v ++ [semicolon] ∧ semicolon.token.kind = .semicolon ∧ Plain v ∧
      match init with
      | none => v = []
      | some s => v ≠ [] ∧ ∀ other : Stamped, other.token.kind = .semicolon →
          Phrase (.declaration s) (v ++ [other]) := by
  cases h with
  | initializerNone hs => exact ⟨[], _, rfl, hs, plain_nil, rfl⟩
  | @initializerVar keyword _ _ hk hrest =>
    have hkeyword : keyword.token.kind ∉ [TokenKind.semicolon, .leftParen, .rightParen] := by
      rw [hk]
      decide
    cases hrest with
    | @varPlain name _ hn hs =>
      refine ⟨[keyword, name], _, rfl, hs, .cons hkeyword ?_, List.cons_ne_nil _ _, ?_⟩
      · exact .cons (by rw [hn]; decide) plain_nil
      · exact fun other ho => .varDeclaration hk (.varPlain hn ho)
    | @varInit name equal _ e w hn he hw hs =>
      refine ⟨keyword :: name :: equal :: w, _, rfl, hs, .cons hkeyword ?_,
        List.cons_ne_nil _ _, ?_⟩
      · exact .cons (by rw [hn]; decide) (.cons (by rw [he]; decide) hw.plainIn)
      · exact fun other ho => .varDeclaration hk (.varInit hn he hw ho)
  | initializerExpression hrest =>
    cases hrest with
    | @expressionStatement e _ w hw hs =>
      refine ⟨w, _, rfl, hs, hw.plainIn, fun hnil => ?_, fun other ho => ?_⟩
      · have hstarts := hw.starts
        rw [hnil] at hstarts
        exact hstarts
      · exact .statement (.expressionForm (.expressionStatement hw ho))

/-- A declaration that starts with `for` is a `for` statement. -/
theorem Phrase.for_cases {s : Stmt} {u : List Stamped} (h : Phrase (.declaration s) u)
    (hfor : Parser.Ahead [.kwFor] u) :
    ∃ keyword opening semicolon closing init condition increment isOpen body, ∃ a b c d,
      u = keyword :: opening :: (a ++ (b ++ semicolon :: (c ++ closing :: d))) ∧
      s = .ofFor init condition increment body ∧ keyword.token.kind = .kwFor ∧
      opening.token.kind = .leftParen ∧ semicolon.token.kind = .semicolon ∧
      closing.token.kind = .rightParen ∧ Phrase (.initializer init) a ∧
      Phrase (.optional condition) b ∧ Phrase (.optional increment) c ∧
      Phrase (.statement isOpen body) d := by
  cases h with
  | classDeclaration hk | functionDeclaration hk | varDeclaration hk => simp [hk] at hfor
  | statement h =>
    cases h with
    | expressionForm he =>
      exact absurd hfor (he.starts.not_ahead (by decide))
    | forLoop hk ho ha hb hs hc hr hd =>
      exact ⟨_, _, _, _, _, _, _, _, _, _, _, _, _, rfl, rfl, hk, ho, hs, hr, ha, hb, hc, hd⟩
    | ifThen hk | ifElse hk | whileLoop hk | ret hk | block hk => simp [hk] at hfor

namespace ForText

variable {f : ForText}

theorem exists_of_phrase {s : Stmt} {u : List Stamped} (h : Phrase (.declaration s) u)
    (hfor : Parser.Ahead [.kwFor] u) :
    ∃ f : ForText, f.Separated ∧ WritesSomewhere f.marks (u.map (·.token)) := by
  obtain ⟨keyword, opening, semicolon, closing, init, condition, increment, isOpen, body,
    a, b, c, d, rfl, -, hk, ho, hs, hr, ha, hb, hc, -⟩ := h.for_cases hfor
  obtain ⟨v, first, rfl, hfirst, hv, -⟩ := ha.initializer_cases
  refine ⟨⟨v.map (·.token), b.map (·.token), c.map (·.token), d.map (·.token)⟩, ⟨?_, ?_, ?_⟩, ?_⟩
  · exact List.forall_mem_map.mpr hv.noSemicolon
  · exact List.forall_mem_map.mpr hb.plainIn.noSemicolon
  · exact hc.plainIn.paired_zero
  · simp only [marks, List.map_cons, List.map_append, List.append_assoc, List.cons_append,
      List.nil_append]
    refine .cons ⟨0, hk⟩ (.cons ⟨0, ho⟩ (writes_append (writes_exactly _) (.cons ⟨0, hfirst⟩ ?_)))
    refine writes_append (writes_exactly _) (.cons ⟨0, hs⟩ ?_)
    exact writes_append (writes_exactly _) (.cons ⟨0, hr⟩ (writes_exactly _))

/-- What a `for` statement stands for is what its clauses and its body stand for. -/
theorem means_of_phrase (hf : f.Separated) {s : Stmt} {u : List Stamped}
    (h : Phrase (.declaration s) u) (hw : WritesSomewhere f.marks (u.map (·.token))) :
    ∃ init condition increment body, f.Means init condition increment body ∧
      s.relabel .erase = .ofFor init condition increment body := by
  obtain ⟨k, us, heq, hk, hw⟩ := exists_of_writes_any hw
  obtain ⟨o, us, rfl, -, hw⟩ := exists_of_writes_any hw
  obtain ⟨is, us, rfl, his, hw⟩ := exists_of_writes_exactly hw
  obtain ⟨t, us, rfl, ht, hw⟩ := exists_of_writes_any hw
  obtain ⟨cs, us, rfl, hcs, hw⟩ := exists_of_writes_exactly hw
  obtain ⟨t', us, rfl, ht', hw⟩ := exists_of_writes_any hw
  obtain ⟨ns, us, rfl, hns, hw⟩ := exists_of_writes_exactly hw
  obtain ⟨p, bs, rfl, hp, hw⟩ := exists_of_writes_any hw
  have hbs := sameText_of_writes hw
  have hfor : Parser.Ahead [.kwFor] u := by
    cases u with
    | nil => cases heq
    | cons first rest =>
      rw [List.map_cons, List.cons.injEq] at heq
      simp [heq.1, hk]
  obtain ⟨_, _, semicolon, closing, init, condition, increment, isOpen, body, a, b, c, d, rfl, rfl,
    -, -, hs, hr, ha, hb, hc, hd⟩ := h.for_cases hfor
  obtain ⟨v, first, rfl, hfirst, hv, hinit⟩ := ha.initializer_cases
  simp only [List.map_cons, List.map_append, List.append_assoc, List.cons_append, List.nil_append,
    List.cons.injEq] at heq
  -- The first two semicolons and then the closing parenthesis end the clauses in both lists.
  obtain ⟨hvi, heq⟩ := eq_of_split_semicolon (List.forall_mem_map.mpr hv.noSemicolon)
    (his.kind_ne hf.initializer) hfirst ht heq.2.2
  obtain ⟨hbc, heq⟩ := eq_of_split_semicolon (List.forall_mem_map.mpr hb.plainIn.noSemicolon)
    (hcs.kind_ne hf.condition) hs ht' heq
  obtain ⟨hcn, hdb⟩ := eq_of_split_paren hc.plainIn.paired_zero
    ((paired_of_kinds hns.kinds 0).trans hf.increment) hr hp heq
  subst hvi hbc hcn hdb
  refine ⟨init.map (Stmt.relabel .erase), condition.map (Expr.relabel .erase),
    increment.map (Expr.relabel .erase), body.relabel .erase, ⟨?_, ?_, ?_, ?_⟩,
    Stmt.relabel_ofFor _ init condition increment body⟩
  · cases init with
    | none => exact his.eq_nil_iff.mp (by rw [hinit]; rfl)
    | some s =>
      refine ⟨fun hnil => hinit.1 (List.map_eq_nil_iff.mp (his.eq_nil_iff.mpr hnil)), ?_⟩
      intro other ho
      have hstands := (hinit.2 ⟨other, 0⟩ ho).stands
      rw [List.map_append] at hstands
      refine hstands.of_sameText ?_
      rw [SameText, List.map_append, List.map_append, his]
      rfl
  · exact hb.stands.of_sameText hcs.symm
  · exact hc.stands.of_sameText hns.symm
  · exact ⟨isOpen, hd.stands.of_sameText hbs.symm⟩

/-! ## Writing the loop out -/

/-- An expression that is not there has no tokens, and one that is there has some. -/
theorem optional_cases {e? : Option Expr} {ts : List Token} (h : (Shape.optional e?).Stands ts) :
    e? = none ∧ ts = [] ∨ ∃ e, e? = some e ∧ ts ≠ [] ∧ (Shape.expression e).Stands ts := by
  unfold Shape.Stands at h ⊢
  generalize hu : ts.map Stamped.bare = u at h ⊢
  cases h with
  | optionalNone => exact .inl ⟨rfl, List.map_eq_nil_iff.mp hu⟩
  | optionalSome he =>
    refine .inr ⟨_, rfl, fun hnil => ?_, he⟩
    have hstarts := he.starts
    rw [← hu, hnil] at hstarts
    exact hstarts

variable {init : Option Stmt} {condition increment : Option Expr} {body : Stmt} {ts : List Token}

theorem Means.stands_repeated (h : f.Means init condition increment body)
    (hw : WritesSomewhere f.repeatedMarks ts) :
    ∃ isOpen, (Shape.statement isOpen (body.followedBy increment)).Stands ts := by
  obtain ⟨isOpen, hbody⟩ := h.body
  unfold repeatedMarks at hw
  obtain ⟨rfl, hnil⟩ | ⟨e, rfl, hne, he⟩ := optional_cases h.increment
  · rw [if_pos hnil] at hw
    exact ⟨isOpen, hbody.of_sameText (sameText_of_writes hw)⟩
  · rw [if_neg hne] at hw
    obtain ⟨left, us, rfl, hleft, hw⟩ := exists_of_writes_any hw
    obtain ⟨bs, us, rfl, hbs, hw⟩ := exists_of_writes_exactly hw
    obtain ⟨ns, us, rfl, hns, hw⟩ := exists_of_writes_exactly hw
    obtain ⟨semicolon, us, rfl, hsemicolon, hw⟩ := exists_of_writes_any hw
    obtain ⟨right, us, rfl, hright, hw⟩ := exists_of_writes_any hw
    cases hw
    have hexpression : Phrase (.expressionStatement (.expression e)) _ :=
      @Phrase.expressionStatement e (.bare semicolon) _ (he.of_sameText hns) hsemicolon
    have hboth := Phrase.declarationsMore (.statement (hbody.of_sameText hbs))
      (.declarations_singleton (.statement (.expressionForm hexpression)))
    have hblock := @Phrase.block (.bare left) (.bare right) _ _ hleft hboth hright
    refine ⟨false, ?_⟩
    rw [Stmt.followedBy]
    unfold Shape.Stands
    simpa using hblock

/-- The loop without the initializer. -/
theorem Means.stands_loop (h : f.Means init condition increment body)
    (hw : WritesSomewhere f.loopMarks ts) :
    ∃ isOpen, (Shape.statement isOpen (.ofFor none condition increment body)).Stands ts := by
  obtain ⟨keyword, us, rfl, hkeyword, hw⟩ := exists_of_writes_any hw
  obtain ⟨opening, us, rfl, hopening, hw⟩ := exists_of_writes_any hw
  obtain ⟨cs, us, rfl, hcs, hw⟩ := exists_of_writes_append hw
  obtain ⟨closing, us, rfl, hclosing, hw⟩ := exists_of_writes_any hw
  obtain ⟨isOpen, hrepeated⟩ := h.stands_repeated hw
  have hcondition : Phrase (.expression (condition.getD (.constant (.bool true))))
      (cs.map Stamped.bare) := by
    unfold conditionMarks at hcs
    obtain ⟨rfl, hnil⟩ | ⟨e, rfl, hne, he⟩ := optional_cases h.condition
    · rw [if_pos hnil] at hcs
      obtain ⟨t, us, rfl, ht, hcs⟩ := exists_of_writes_any hcs
      cases hcs
      have htrue : Phrase (.primary (.constant (.bool true))) [Stamped.bare t] :=
        .constant_of_spelledBy ht
      exact Phrase.phrase_expression (n := 9) htrue
    · rw [if_neg hne] at hcs
      exact he.of_sameText (sameText_of_writes hcs)
  have hloop := @Phrase.whileLoop (.bare keyword) (.bare opening) (.bare closing) _ _ _ _ _ hkeyword
    hopening hcondition hclosing hrepeated
  refine ⟨isOpen, ?_⟩
  rw [Stmt.ofFor_none]
  unfold Shape.Stands
  simpa using hloop

theorem Means.stands_explicit (h : f.Means init condition increment body)
    (hw : WritesSomewhere f.explicitMarks ts) :
    (Shape.declarations [.ofFor init condition increment body]).Stands ts := by
  have hinit := h.initializer
  unfold explicitMarks at hw
  cases init with
  | none =>
    rw [if_pos hinit] at hw
    obtain ⟨isOpen, hloop⟩ := h.stands_loop hw
    exact .declarations_singleton (.statement hloop)
  | some s =>
    rw [if_neg hinit.1] at hw
    obtain ⟨left, us, rfl, hleft, hw⟩ := exists_of_writes_any hw
    obtain ⟨is, us, rfl, his, hw⟩ := exists_of_writes_exactly hw
    obtain ⟨semicolon, us, rfl, hsemicolon, hw⟩ := exists_of_writes_any hw
    obtain ⟨ls, us, rfl, hls, hw⟩ := exists_of_writes_append hw
    obtain ⟨right, us, rfl, hright, hw⟩ := exists_of_writes_any hw
    cases hw
    obtain ⟨isOpen, hloop⟩ := h.stands_loop hls
    have hfirst : (Shape.declaration s).Stands (is ++ [semicolon]) := by
      refine (hinit.2 semicolon hsemicolon).of_sameText ?_
      rw [SameText, List.map_append, List.map_append, his]
    have hboth := Phrase.declarationsMore hfirst (.declarations_singleton (.statement hloop))
    have hblock := @Phrase.block (.bare left) (.bare right) _ _ hleft hboth hright
    rw [Stmt.ofFor_some]
    unfold Shape.Stands
    simpa using Phrase.declarations_singleton (.statement hblock)

end ForText

namespace Parse

/-- Tokens that stand for declarations wherever they are parse as them. -/
theorem ofTokens_of_stands {first : RefId} {tokens : List Token} {ss : List Stmt}
    (h : (Shape.declarations ss).Stands (Token.body tokens)) :
    (ofTokens first tokens).errors = [] ∧
      Stmt.relabelList .erase (ofTokens first tokens).statements = ss := by
  have hbare : (Token.body tokens).map Stamped.bare =
      (Stamped.ofTokens first (Token.body tokens)).map (Stamped.relabel .erase) := by
    rw [← Stamped.map_ofTokens first (Token.body tokens), List.map_map, Stamped.map_ofTokens]
    rfl
  have haccepts := Parser.accepts_program h
  obtain ⟨ss', complaints, hrun⟩ :=
    Parser.program_eq_ok (Stamped.ofTokens first (Token.body tokens))
  rw [hbare] at haccepts
  unfold Parser.Accepts at haccepts
  rw [Parser.program_map, hrun, Parsed.move, Parsed.ok.injEq, List.map_eq_nil_iff] at haccepts
  obtain ⟨rfl, -, rfl⟩ := haccepts
  rw [ofTokens_eq hrun]
  exact ⟨rfl, rfl⟩

/-- Where a `for` statement parses without complaints as one statement, the loop that is written out by
hand parses as the same tree. -/
theorem forLoop_explicit {f : ForText} (hf : f.Separated) {first first' : RefId}
    {tokens tokens' : List Token} (hfor : WritesSomewhere f.marks (Token.body tokens))
    (hexplicit : WritesSomewhere f.explicitMarks (Token.body tokens'))
    (herrors : (ofTokens first tokens).errors = [])
    (hone : (ofTokens first tokens).statements.length = 1) :
    (ofTokens first' tokens').errors = [] ∧
      Stmt.relabelList .erase (ofTokens first' tokens').statements =
        Stmt.relabelList .erase (ofTokens first tokens).statements := by
  have hphrase := phrase_of_errors herrors
  obtain ⟨s, hs⟩ := List.length_eq_one_iff.mp hone
  rw [← Stamped.map_ofTokens first (Token.body tokens)] at hfor
  rw [hs] at hphrase ⊢
  generalize Stamped.ofTokens first (Token.body tokens) = u at hphrase hfor
  cases hphrase with
  | declarationsMore hdeclaration hnone =>
    cases hnone
    rw [List.append_nil] at hfor
    obtain ⟨init, condition, increment, body, hmeans, htree⟩ :=
      ForText.means_of_phrase hf hdeclaration hfor
    obtain ⟨herrors', hstatements⟩ :=
      @ofTokens_of_stands first' _ _ (hmeans.stands_explicit hexplicit)
    refine ⟨herrors', hstatements.trans ?_⟩
    rw [Stmt.relabelList, Stmt.relabelList, htree]

/-- `for (var i = a; i; i = f(i)) for (;;) if (i) b; else c;` -/
theorem forLoop_explicit_nested :
    let plain (kind : TokenKind) : Token := { kind := kind, lexeme := "" }
    let name (lexeme : String) : Token := { kind := .identifier, lexeme := lexeme }
    let later (t : Token) : Token := { t with line := 2 }
    let body := [plain .kwFor, plain .leftParen, plain .semicolon, plain .semicolon,
      plain .rightParen, plain .kwIf, plain .leftParen, name "i", plain .rightParen, name "b",
      plain .semicolon, plain .kwElse, name "c", plain .semicolon]
    let f : ForText :=
      { initializer := [plain .kwVar, name "i", plain .equal, name "a"]
        condition := [name "i"]
        increment :=
          [name "i", plain .equal, name "f", plain .leftParen, name "i", plain .rightParen]
        body := body }
    let tokens := [plain .kwFor, plain .leftParen] ++ f.initializer ++ [plain .semicolon] ++
      f.condition ++ [plain .semicolon] ++ f.increment ++ [plain .rightParen] ++ body
    let tokens' := [plain .leftBrace] ++ f.initializer ++ [plain .semicolon, plain .kwWhile,
      plain .leftParen] ++ f.condition ++ [plain .rightParen, plain .leftBrace] ++ body.map later ++
      f.increment.map later ++ [plain .semicolon, plain .rightBrace, plain .rightBrace]
    f.Separated ∧ WritesSomewhere f.marks (Token.body tokens) ∧
      WritesSomewhere f.explicitMarks (Token.body tokens') ∧ (ofTokens 0 tokens).errors = [] ∧
      (ofTokens 0 tokens).statements.length = 1 ∧ (ofTokens 5 tokens').errors = [] ∧
      Stmt.relabelList .erase (ofTokens 5 tokens').statements =
        Stmt.relabelList .erase (ofTokens 0 tokens).statements := by
  intro plain name later body f tokens tokens'
  have hf : f.Separated := ⟨by decide, by decide, by decide⟩
  have hfor : WritesSomewhere f.marks (Token.body tokens) := by
    repeat' first | exact .nil | refine .cons ⟨1, rfl⟩ ?_
  have hexplicit : WritesSomewhere f.explicitMarks (Token.body tokens') := by
    repeat' first | exact .nil | refine .cons ⟨1, rfl⟩ ?_
  have herrors : (ofTokens 0 tokens).errors = [] := rfl
  have hone : (ofTokens 0 tokens).statements.length = 1 := rfl
  obtain ⟨herrors', hsame⟩ := @forLoop_explicit f hf 0 5 tokens tokens' hfor hexplicit herrors hone
  exact ⟨hf, hfor, hexplicit, herrors, hone, herrors', hsame⟩

end Parse

end Lox
