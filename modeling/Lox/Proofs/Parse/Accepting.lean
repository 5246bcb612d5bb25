import Lox.Program.Parse
import Mathlib

/-!
# Lox.Proofs.Parse.Accepting

A parser accepts when it yields a value and makes no complaint. Which inputs a composed parser
accepts follows from what its parts accept: `accepts_bind` takes a sequence apart, and each
parser of single tokens has an equivalence of its own. The statements about whole productions
are made from these.
-/

namespace Lox
namespace Parser

/-- `p` takes `input` apart into `a` and `rest` without a complaint. -/
def Accepts {α : Type} (p : Parser α) (input : List Stamped) (a : α) (rest : List Stamped) : Prop :=
  p input = .ok a rest []

/-- The next token is of one of some kinds. -/
def Ahead (kinds : List TokenKind) : List Stamped → Prop
  | [] => False
  | t :: _ => t.token.kind ∈ kinds

@[simp] theorem ahead_nil (kinds : List TokenKind) : ¬ Ahead kinds [] := nofun

@[simp] theorem ahead_cons (kinds : List TokenKind) (t : Stamped) (ts : List Stamped) :
    Ahead kinds (t :: ts) ↔ t.token.kind ∈ kinds := Iff.rfl

theorem not_ahead_of_subset {kinds more : List TokenKind} (hs : kinds ⊆ more)
    {input : List Stamped} (h : ¬ Ahead more input) : ¬ Ahead kinds input := by
  cases input with
  | nil => simp
  | cons t ts => exact fun hk => h (hs hk)

theorem after_eq_ok {α : Type} {earlier : List Complaint} {r : Parsed α} {a : α}
    {rest : List Stamped} :
    after earlier r = .ok a rest [] ↔ earlier = [] ∧ r = .ok a rest [] := by
  cases r with
  | ok b rest' later =>
    simp only [after, Parsed.ok.injEq, List.append_eq_nil_iff]
    constructor
    · rintro ⟨rfl, rfl, rfl, rfl⟩; exact ⟨rfl, rfl, rfl, rfl⟩
    · rintro ⟨rfl, rfl, rfl, rfl⟩; exact ⟨rfl, rfl, rfl, rfl⟩
  | fail what rest' later => simp [after]
  | outOfFuel => simp [after]

section Combinators

variable {α β : Type} {input rest : List Stamped}

@[simp] theorem accepts_pure {a b : α} :
    Accepts (pure a) input b rest ↔ b = a ∧ rest = input := by
  simp only [Accepts, pure_apply, Parsed.ok.injEq, and_true]
  exact and_congr eq_comm eq_comm

theorem accepts_bind {p : Parser α} {f : α → Parser β} {b : β} :
    Accepts (p >>= f) input b rest ↔
      ∃ a mid, Accepts p input a mid ∧ Accepts (f a) mid b rest := by
  simp only [Accepts, bind_apply]
  constructor
  · intro h
    cases hp : p input with
    | ok a mid complaints =>
      simp only [hp, after_eq_ok] at h
      exact ⟨a, mid, by rw [h.1], h.2⟩
    | fail what mid complaints => simp [hp] at h
    | outOfFuel => simp [hp] at h
  · rintro ⟨a, mid, hp, hf⟩
    simp [hp, hf, after]

theorem Accepts.bind {p : Parser α} {f : α → Parser β} {a : α} {b : β} {mid : List Stamped}
    (hp : Accepts p input a mid) (hf : Accepts (f a) mid b rest) :
    Accepts (p >>= f) input b rest :=
  accepts_bind.2 ⟨a, mid, hp, hf⟩

@[simp] theorem not_accepts_fail {what : Expected} {a : α} :
    ¬ Accepts (fail what) input a rest := nofun

@[simp] theorem not_accepts_complainAt {place : List Stamped} {problem : ParseProblem} {u : Unit} :
    ¬ Accepts (complainAt place problem) input u rest := nofun

@[simp] theorem accepts_remaining {here : List Stamped} :
    Accepts remaining input here rest ↔ here = input ∧ rest = input := by
  simp only [Accepts, remaining, Parsed.ok.injEq, and_true]
  exact and_congr eq_comm eq_comm

@[simp] theorem accepts_complainIf {wrong : Bool} {problem : ParseProblem} {u : Unit} :
    Accepts (complainIf wrong problem) input u rest ↔ wrong = false ∧ rest = input := by
  cases wrong <;> simp [Accepts, complainIf, eq_comm]

@[simp] theorem accepts_expect {kind : TokenKind} {what : Expected} {t : Stamped} :
    Accepts (expect kind what) input t rest ↔ input = t :: rest ∧ t.token.kind = kind := by
  cases input with
  | nil => simp [Accepts, expect]
  | cons u us =>
    simp only [Accepts, expect]
    by_cases h : u.token.kind = kind
    · simp only [h, if_true, Parsed.ok.injEq, and_true, List.cons.injEq]
      constructor
      · rintro ⟨rfl, rfl⟩; exact ⟨⟨rfl, rfl⟩, h⟩
      · rintro ⟨⟨rfl, rfl⟩, -⟩; exact ⟨rfl, rfl⟩
    · simp only [h, if_false, reduceCtorEq, List.cons.injEq, false_iff]
      rintro ⟨⟨rfl, rfl⟩, hk⟩
      exact h hk

@[simp] theorem accepts_acceptAny_some {kinds : List TokenKind} {t : Stamped} :
    Accepts (acceptAny kinds) input (some t) rest ↔
      input = t :: rest ∧ t.token.kind ∈ kinds := by
  cases input with
  | nil => simp [Accepts, acceptAny]
  | cons u us =>
    simp only [Accepts, acceptAny, List.contains_iff_mem]
    by_cases h : u.token.kind ∈ kinds
    · simp only [h, if_true, Parsed.ok.injEq, Option.some.injEq, and_true, List.cons.injEq]
      constructor
      · rintro ⟨rfl, rfl⟩; exact ⟨⟨rfl, rfl⟩, h⟩
      · rintro ⟨⟨rfl, rfl⟩, -⟩; exact ⟨rfl, rfl⟩
    · simp only [h, if_false, Parsed.ok.injEq, reduceCtorEq, false_and, List.cons.injEq, false_iff]
      rintro ⟨⟨rfl, rfl⟩, hk⟩
      exact h hk

@[simp] theorem accepts_acceptAny_none {kinds : List TokenKind} :
    Accepts (acceptAny kinds) input none rest ↔ rest = input ∧ ¬ Ahead kinds input := by
  cases input with
  | nil => simp [Accepts, acceptAny, eq_comm]
  | cons u us =>
    simp only [Accepts, acceptAny, List.contains_iff_mem, ahead_cons]
    by_cases h : u.token.kind ∈ kinds
    · simp [h]
    · simp [h, eq_comm]

@[simp] theorem accepts_accept_some {kind : TokenKind} {t : Stamped} :
    Accepts (accept kind) input (some t) rest ↔ input = t :: rest ∧ t.token.kind = kind := by
  simp [accept]

@[simp] theorem accepts_accept_none {kind : TokenKind} :
    Accepts (accept kind) input none rest ↔ rest = input ∧ ¬ Ahead [kind] input := by
  simp [accept]

@[simp] theorem accepts_ahead {kind : TokenKind} {b : Bool} :
    Accepts (ahead kind) input b rest ↔ (b = true ↔ Ahead [kind] input) ∧ rest = input := by
  rw [Accepts, eq_comm (a := rest)]
  cases input <;> cases b <;> simp [ahead]

@[simp] theorem accepts_atEnd {b : Bool} :
    Accepts atEnd input b rest ↔ (b = true ↔ input = []) ∧ rest = input := by
  rw [Accepts, eq_comm (a := rest)]
  cases input <;> cases b <;> simp [atEnd]

@[simp] theorem accepts_atBodyEnd {b : Bool} :
    Accepts atBodyEnd input b rest ↔
      (b = true ↔ input = [] ∨ Ahead [.rightBrace] input) ∧ rest = input := by
  rw [Accepts, eq_comm (a := rest)]
  cases input <;> cases b <;> simp [atBodyEnd]

/-- Recovering from a failure leaves a complaint. -/
@[simp] theorem accepts_recover {p : Parser Stmt} {s : Stmt} :
    Accepts (recover p) input s rest ↔ Accepts p input s rest := by
  simp only [Accepts, recover]
  cases p input <;> simp

theorem accepts_expression {e : Expr} :
    Accepts expression input e rest ↔
      Accepts (expressionIn (expressionFuel input.length)) input e rest := by
  rw [Accepts, expression_apply, Accepts]

theorem accepts_declaration {s : Stmt} :
    Accepts declaration input s rest ↔
      Accepts (declarationIn (declarationFuel input.length)) input s rest := by
  rw [Accepts, declaration_apply, Accepts]

end Combinators

end Parser
end Lox
