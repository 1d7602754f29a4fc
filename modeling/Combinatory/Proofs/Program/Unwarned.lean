import Combinatory.Proofs.Program.Lookahead

namespace Combinatory

namespace Parser

def unwarned (p : Parser) : Parser :=
  { p with warnings := none }

section Parts

theorem current_unwarned (p : Parser) : p.unwarned.current = p.current := rfl

theorem definitions_unwarned (p : Parser) : p.unwarned.definitions = p.definitions := rfl

theorem next_unwarned (p : Parser) : p.unwarned.next = p.next.unwarned := by
  unfold next unwarned
  dsimp only
  split
  . rfl
  . rfl

theorem expect_unwarned (p : Parser) (tag : Tag) (expectation : Expectation)
    : p.unwarned.expect tag expectation = Prod.map unwarned id (p.expect tag expectation) := by
  rw [expect, expect, current_unwarned, next_unwarned]
  split
  . rfl
  . rfl

theorem readComplexity_unwarned (p : Parser)
    : p.unwarned.readComplexity = Prod.map unwarned id p.readComplexity := by
  rw [readComplexity, readComplexity, current_unwarned]
  split
  . next complexity _ =>
    have := next_unwarned { p with complexity := some complexity }
    exact Prod.ext this rfl
  . rfl

theorem readTerms_unwarned (p : Parser) (scope : Scope) (body : Group)
    : p.unwarned.readTerms scope body = Prod.map unwarned id (p.readTerms scope body) := by
  have hterm (p : Parser)
      : p.unwarned.readTerm scope = Prod.map unwarned id (p.readTerm scope) := rfl
  fun_induction readTerms p scope body with
  | case1 p body q fault hread =>
    rw [readTerms_eq, andThen, hterm, hread]
    rfl
  | case2 p body q term hread body' hcurrent ih =>
    rw [readTerms_eq, andThen, hterm, hread, ← ih]
    exact if_pos hcurrent
  | case3 p body q term hread body' hcurrent =>
    rw [readTerms_eq, andThen, hterm, hread]
    exact if_neg hcurrent

theorem define_unwarned (p : Parser) (name : Token) (body : Group)
    : p.unwarned.define name body = (p.define name body).unwarned := by
  unfold define
  rw [definitions_unwarned]
  split
  . rfl
  . rfl

section Composition

variable {α β : Type} {g : α → Parser → Parser × Except ParseFault β}

theorem onSuccess_unwarned (hg : ∀ a q, g a q.unwarned = Prod.map unwarned id (g a q))
    (x : Except ParseFault α) (q : Parser)
    : onSuccess g x q.unwarned = Prod.map unwarned id (onSuccess g x q) := by
  cases x with
  | error fault => rfl
  | ok a => exact hg a q

end Composition

theorem readDefinition_unwarned (p : Parser)
    : p.unwarned.readDefinition = Prod.map unwarned id p.readDefinition := by
  rw [readDefinition_eq p.current p rfl, readDefinition_eq _ _ (current_unwarned p)]
  apply andThen_map (expect_unwarned p .name .name)
  apply onSuccess_unwarned
  intro _ p
  apply andThen_map (expect_unwarned p .equalSign .equalSign)
  apply onSuccess_unwarned
  intro _ p
  apply andThen_map (readTerms_unwarned p .definition .empty)
  rintro ⟨body, fault | _⟩ p
  . rfl
  . exact Prod.ext (define_unwarned p _ body) rfl

theorem readDefinitions_unwarned (p : Parser)
    : p.unwarned.readDefinitions = Prod.map unwarned id p.readDefinitions := by
  fun_induction readDefinitions p with
  | case1 p hcurrent q fault hread =>
    rw [readDefinitions_eq _ (by rwa [current_unwarned]), andThen, readDefinition_unwarned, hread]
    rfl
  | case2 p hcurrent q hread ih =>
    rw [readDefinitions_eq _ (by rwa [current_unwarned]), andThen, readDefinition_unwarned, hread,
      ← ih]
    rfl
  | case3 p hcurrent =>
    rw [readDefinitions, if_neg (by rwa [current_unwarned])]
    rfl

theorem readTask_unwarned (p : Parser)
    : p.unwarned.readTask = Prod.map unwarned id p.readTask := by
  unfold readTask
  rw [definitions_unwarned, readTerms_unwarned]
  rfl

theorem unwarned_parse (p : Parser) : p.unwarned.parse = Prod.map unwarned id p.parse := by
  rw [parse_eq, parse_eq]
  apply andThen_map (readComplexity_unwarned p)
  apply onSuccess_unwarned
  intro complexity p
  apply andThen_map (readDefinitions_unwarned p)
  apply onSuccess_unwarned
  intro _ p
  apply andThen_map (expect_unwarned p .questionSign .questionSign)
  apply onSuccess_unwarned
  intro _ p
  apply andThen_map (readTask_unwarned p)
  apply onSuccess_unwarned
  intro _ p
  rw [current_unwarned]
  split
  . rfl
  . rfl

theorem ofTokens?_unwarned (tokens : List Token)
    : ofTokens? tokens false = (ofTokens? tokens true).map unwarned := by
  unfold ofTokens?
  split
  . rfl
  . split
    . rfl
    . rfl

end Parts

end Parser

theorem parse_unwarned (tokens : List Token)
    : parse tokens false = { parse tokens true with warnings := none } := by
  unfold parse
  rw [Parser.ofTokens?_unwarned]
  cases Parser.ofTokens? tokens true with
  | error defect => rfl
  | ok p =>
    simp only [Except.map, Parser.unwarned_parse]
    rfl

end Combinatory
