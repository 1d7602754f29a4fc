import Combinatory.Program.Expression
import Combinatory.Report.Signal

/-!
The parser: a complexity, definitions, a question sign, a task. It stops at the first token that
does not fit, and keeps what it has read until then, so that its parts can also be called one by
one.

```
program    ::= complexity definition* "?" task
definition ::= name "=" term+                      -- without names
task       ::= term+                               -- with names that are defined
term       ::= "K" | "S" | "I" | name | "(" term+ ")"
```
-/

namespace Combinatory

/--
A parser on its way through a list of tokens: `rest` lies ahead, then the end token `last`, which is
never passed. `warnings` is `none` if nobody wants to know them.
-/
structure Parser where
  rest : List Token
  last : Token
  last_tag : last.tag = .endOfProgram
  index : Nat := 0
  complexity : Option Complexity := none
  definitions : Definitions := {}
  task : Array Term := #[]
  primitives : Nat := 0
  warnings : Option (Array Message) := some #[]

namespace Parser

def ofTokens? (tokens : List Token) (warns : Bool) : Except Defect Parser :=
  match tokens.getLast? with
  | none => .error .endTokenMissing
  | some last =>
    if h : last.tag = .endOfProgram then
      let warnings := if warns then some #[] else none
      .ok { rest := tokens.dropLast, last, last_tag := h, warnings }
    else
      .error .endTokenMissing

def current (p : Parser) : Token :=
  p.rest.headD p.last

def next (p : Parser) : Parser :=
  match p.rest with
  | [] => p
  | _ :: rest => { p with rest, index := p.index + 1 }

def expected (p : Parser) (expectation : Expectation) : ParseFault :=
  .expected expectation p.current

def expect (p : Parser) (tag : Tag) (expectation : Expectation)
    : Parser × Except ParseFault Unit :=
  if p.current.tag = tag then
    (p.next, .ok ())
  else
    (p, .error (p.expected expectation))

theorem next_length_lt {p : Parser} (h : p.current.tag ≠ .endOfProgram)
    : p.next.rest.length < p.rest.length := by
  unfold current next at *
  split
  . next hrest => simp [hrest, p.last_tag] at h
  . next hrest => simp [hrest]

theorem expect_length_lt {p q : Parser} {tag : Tag} {expectation : Expectation}
    (htag : tag ≠ .endOfProgram) (h : p.expect tag expectation = (q, .ok ()))
    : q.rest.length < p.rest.length := by
  unfold expect at h
  split at h
  . next hcurrent =>
    simp only [Prod.mk.injEq, and_true] at h
    rw [← h]
    exact next_length_lt (by rwa [hcurrent])
  . simp at h

def warn (p : Parser) (text : String) (position : Position) : Parser :=
  let message := { severity := .warning, text, position := some position }
  { p with warnings := p.warnings.map (·.push message) }

def readComplexity (p : Parser) : Parser × Except ParseFault Complexity :=
  match p.current.tag with
  | .complexity complexity => ({ p with complexity := some complexity }.next, .ok complexity)
  | _ => (p, .error (p.expected .complexity))

/--
Reads the current token as a combinator. It counts and is passed even if it is none.
-/
def readPrimitive (p : Parser) : Parser × Except ParseFault Term :=
  let token := p.current
  let p := { p with primitives := p.primitives + 1 }.next
  match token.tag with
  | .primitive c => (p, .ok (.primitive c token.span))
  | _ => (p, .error (.notPrimitive token))

def readReference (p : Parser) : Parser × Except ParseFault Term :=
  match p.definitions.find? p.current.text with
  | some d => (p.next, .ok d.expand)
  | none => (p, .error (.undefined p.current))

def readTerm (p : Parser) (scope : Scope) : Parser × Except ParseFault Term :=
  let reading := Expression.read scope p.last [] p.rest {}
  let p :=
    { p with
      rest := reading.rest
      index := p.index + reading.counts.passed
      primitives := p.primitives + reading.counts.primitives }
  (p, reading.result)

def readDefinitionTerm (p : Parser) : Parser × Except ParseFault Term :=
  p.readTerm .definition

def readTaskTerm (p : Parser) : Parser × Except ParseFault Term :=
  p.readTerm (.task p.definitions)

theorem readTerm_length_le {p q : Parser} {scope : Scope} {result : Except ParseFault Term}
    (h : p.readTerm scope = (q, result))
    : q.rest.length ≤ p.rest.length := by
  cases h
  apply Expression.read_length_le

theorem readTerm_length_lt {p q : Parser} {scope : Scope} {term : Term}
    (h : p.readTerm scope = (q, .ok term))
    : q.rest.length < p.rest.length := by
  obtain ⟨hq, hterm⟩ := Prod.mk.inj h
  rw [← hq]
  exact Expression.read_length_lt hterm

def readTerms (p : Parser) (scope : Scope) (body : Group)
    : Parser × Group × Except ParseFault Unit :=
  match _h : p.readTerm scope with
  | (p, .error fault) => (p, body, .error fault)
  | (p, .ok term) =>
    let body := body.add term
    if scope.canBegin p.current.tag then
      p.readTerms scope body
    else
      (p, body, .ok ())
termination_by p.rest.length
decreasing_by exact readTerm_length_lt _h

theorem readTerms_length_le (p : Parser) (scope : Scope) (body : Group)
    : (p.readTerms scope body).1.rest.length ≤ p.rest.length := by
  fun_induction readTerms p scope body with
  | case1 _ _ _ _ h => exact readTerm_length_le h
  | case2 _ _ _ _ h _ _ ih => exact Nat.le_trans ih (readTerm_length_le h)
  | case3 _ _ _ _ h => exact readTerm_length_le h

def define (p : Parser) (name : Token) (body : Group) : Parser :=
  let p :=
    if p.definitions.contains name.text then
      p.warn ("user_combinator " ++ name.text ++ " redefined") name.position
    else
      p
  { p with definitions := p.definitions.define { name := name.text, body, span := name.span } }

theorem define_rest (p : Parser) (name : Token) (body : Group)
    : (p.define name body).rest = p.rest := by
  unfold define
  split <;> rfl

def readDefinition (p : Parser) : Parser × Except ParseFault Unit :=
  let name := p.current
  match p.expect .name .name with
  | (p, .error fault) => (p, .error fault)
  | (p, .ok ()) =>
    match p.expect .equalSign .equalSign with
    | (p, .error fault) => (p, .error fault)
    | (p, .ok ()) =>
      match p.readTerms .definition .empty with
      | (p, _, .error fault) => (p, .error fault)
      | (p, body, .ok ()) => (p.define name body, .ok ())

theorem readDefinition_length_lt {p q : Parser} (h : p.readDefinition = (q, .ok ()))
    : q.rest.length < p.rest.length := by
  unfold readDefinition at h
  split at h
  . simp at h
  . next named hname =>
    split at h
    . simp at h
    . next equated hequal =>
      split at h
      . simp at h
      . next read body hread =>
        have hbody := readTerms_length_le equated .definition .empty
        have hsign := expect_length_lt (by decide) hequal
        have hnamed := expect_length_lt (by decide) hname
        simp only [Prod.mk.injEq, and_true] at h
        rw [← h, define_rest]
        rw [hread] at hbody
        exact Nat.lt_of_le_of_lt hbody (Nat.lt_trans hsign hnamed)

def readDefinitions (p : Parser) : Parser × Except ParseFault Unit :=
  if p.current.tag = .name then
    match _h : p.readDefinition with
    | (p, .error fault) => (p, .error fault)
    | (p, .ok ()) => p.readDefinitions
  else
    (p, .ok ())
termination_by p.rest.length
decreasing_by exact readDefinition_length_lt _h

def readTask (p : Parser) : Parser × Except ParseFault Unit :=
  let (p, body, result) := p.readTerms (.task p.definitions) .empty
  ({ p with task := p.task ++ body.nodes }, result)

def parse (p : Parser) : Parser × Except ParseFault Program :=
  match p.readComplexity with
  | (p, .error fault) => (p, .error fault)
  | (p, .ok complexity) =>
    match p.readDefinitions with
    | (p, .error fault) => (p, .error fault)
    | (p, .ok ()) =>
      match p.expect .questionSign .questionSign with
      | (p, .error fault) => (p, .error fault)
      | (p, .ok ()) =>
        match p.readTask with
        | (p, .error fault) => (p, .error fault)
        | (p, .ok ()) =>
          if p.current.tag = .endOfProgram then
            let program :=
              { complexity
                definitions := p.definitions
                task := p.task.toList
                primitives := p.primitives }
            (p, .ok program)
          else
            (p, .error (p.expected .endOfProgram))

end Parser

structure Parsed where
  result : Except Signal Program
  warnings : Option (Array Message)

def parse (tokens : List Token) (warns : Bool) : Parsed :=
  match Parser.ofTokens? tokens warns with
  | .error defect =>
    let warnings := if warns then some #[] else none
    { result := .error (.defect defect), warnings }
  | .ok parser =>
    let (parser, result) := parser.parse
    { result := result.mapError ParseFault.signal, warnings := parser.warnings }

end Combinatory
