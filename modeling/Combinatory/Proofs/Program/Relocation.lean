import Combinatory.Proofs.Program.Lookahead
import Combinatory.Proofs.Token.Relocation

namespace Combinatory

section Data

variable (φ : Position → Position)

def Definition.relocate (d : Definition) : Definition where
  name := d.name
  body := d.body.mapSpans (.relocating φ)
  span := d.span.relocate φ

def Definitions.relocate (ds : Definitions) : Definitions where
  toList := ds.toList.map (Definition.relocate φ)

def Program.relocate (p : Program) : Program where
  complexity := p.complexity
  definitions := p.definitions.relocate φ
  task := p.task.map (Term.mapSpans (.relocating φ))
  primitives := p.primitives

def ParseFault.relocate : ParseFault → ParseFault
  | .expected expectation found => .expected expectation (found.relocate φ)
  | .undefined name => .undefined (name.relocate φ)
  | .notPrimitive found => .notPrimitive (found.relocate φ)

def Complaint.relocate (c : Complaint) : Complaint :=
  { c with position := c.position.map φ }

def Signal.relocate : Signal → Signal
  | .complaint c => .complaint (c.relocate φ)
  | signal => signal

def Scope.relocate : Scope → Scope
  | .definition => .definition
  | .task ds => .task (ds.relocate φ)

def relocateResult {α : Type} (r : α → α) : Except ParseFault α → Except ParseFault α
  | .error fault => .error (fault.relocate φ)
  | .ok a => .ok (r a)

end Data

section Definitions

variable (φ : Position → Position)

theorem ParseFault.signal_relocate (fault : ParseFault)
    : (fault.relocate φ).signal = fault.signal.relocate φ := by
  cases fault <;> rfl

theorem Definition.expand_relocate (d : Definition)
    : (d.relocate φ).expand = d.expand.mapSpans (.relocating φ) := by
  rw [expand, expand, Group.mapSpans_term]
  rfl

theorem Definitions.find?_relocate (ds : Definitions) (name : String)
    : (ds.relocate φ).find? name = (ds.find? name).map (Definition.relocate φ) := by
  rw [find?, relocate, List.find?_map]
  rfl

theorem Definitions.contains_relocate (ds : Definitions) (name : String)
    : (ds.relocate φ).contains name = ds.contains name := by
  rw [contains, contains, find?_relocate, Option.isSome_map]

theorem Definitions.define_relocate (ds : Definitions) (d : Definition)
    : (ds.relocate φ).define (d.relocate φ) = (ds.define d).relocate φ := by
  have hgo (es : List Definition)
      : define.go (d.relocate φ) (es.map (Definition.relocate φ))
        = (define.go d es).map (Definition.relocate φ) := by
    induction es with
    | nil => rfl
    | cons e es ih =>
      have hname : (e.relocate φ).name = (d.relocate φ).name ↔ e.name = d.name := Iff.rfl
      simp only [List.map_cons, define.go, hname, ih]
      split
      . rfl
      . rfl
  simp only [define, relocate, hgo]

end Definitions

namespace Expression

variable (φ : Position → Position)

def Shift.relocate : Shift → Shift
  | .opened stack => .opened (stack.map (Group.mapSpans (.relocating φ)))
  | .complete term outer =>
    .complete (term.mapSpans (.relocating φ)) (outer.map (Group.mapSpans (.relocating φ)))

def Reading.relocate (reading : Reading) : Reading where
  rest := reading.rest.map (Token.relocate φ)
  counts := reading.counts
  result := relocateResult φ (Term.mapSpans (.relocating φ)) reading.result

theorem expectation_relocate (scope : Scope)
    : (scope.relocate φ).expectation = scope.expectation := by
  cases scope <;> rfl

theorem missing_relocate (scope : Scope) (stack : List Group)
    : missing (scope.relocate φ) (stack.map (Group.mapSpans (.relocating φ)))
        = missing scope stack := by
  cases stack with
  | nil => exact expectation_relocate φ scope
  | cons g stack => simp [missing, expectation_relocate]

theorem shift_relocate (scope : Scope) (stack : List Group) (t : Token)
    : shift (scope.relocate φ) (stack.map (Group.mapSpans (.relocating φ))) (t.relocate φ)
        = relocateResult φ (Shift.relocate φ) (shift scope stack t) := by
  have hmissing := missing_relocate φ scope stack
  cases htag : t.tag with
  | leftBracket => simp [shift, htag, relocateResult, Shift.relocate]
  | primitive c => simp [shift, htag, relocateResult, Shift.relocate]
  | name =>
    cases scope with
    | definition =>
      simp only [Scope.relocate] at hmissing
      simp [shift, htag, Scope.relocate, hmissing, relocateResult, ParseFault.relocate]
    | task ds =>
      simp only [shift, htag, Scope.relocate, Token.tag_relocate, Token.text_relocate,
        Definitions.find?_relocate]
      cases ds.find? t.text with
      | none => rfl
      | some d => simp [relocateResult, Shift.relocate, Definition.expand_relocate]
  | rightBracket =>
    cases stack with
    | nil =>
      simp only [List.map_nil] at hmissing
      simp [shift, htag, hmissing, relocateResult, ParseFault.relocate]
    | cons g outer =>
      simp only [shift, htag, Token.tag_relocate, List.map_cons, Group.isEmpty_nodes_mapSpans,
        expectation_relocate]
      split
      . rfl
      . simp [relocateResult, Shift.relocate]
  | _ => simp [shift, htag, hmissing, relocateResult, ParseFault.relocate]

theorem pass_relocate (counts : Counts) (t : Token)
    : counts.pass (t.relocate φ) = counts.pass t := rfl

theorem read_relocate (scope : Scope) (last : Token) (stack : List Group) (tokens : List Token)
    (counts : Counts)
    : read (scope.relocate φ) (last.relocate φ) (stack.map (Group.mapSpans (.relocating φ)))
          (tokens.map (Token.relocate φ)) counts
        = (read scope last stack tokens counts).relocate φ := by
  induction tokens generalizing stack counts with
  | nil => simp [read, missing_relocate, Reading.relocate, relocateResult, ParseFault.relocate]
  | cons t tokens ih =>
    have hshift := shift_relocate φ scope stack t
    rw [List.map_cons, read, read, hshift, pass_relocate]
    cases shift scope stack t with
    | error fault => rfl
    | ok shifted =>
      cases shifted with
      | opened stack => exact ih stack _
      | complete term outer =>
        cases outer with
        | nil => rfl
        | cons g outer =>
          have := ih (g.add term :: outer) (counts.pass t)
          simpa [relocateResult, Shift.relocate] using this

end Expression

namespace Parser

variable (φ : Position → Position)

def relocate (p : Parser) : Parser where
  rest := p.rest.map (Token.relocate φ)
  last := p.last.relocate φ
  last_tag := p.last_tag
  index := p.index
  complexity := p.complexity
  definitions := p.definitions.relocate φ
  task := p.task.map (Term.mapSpans (.relocating φ))
  primitives := p.primitives
  warnings := p.warnings.map (Array.map (Message.relocate φ))

theorem current_relocate (p : Parser) : (p.relocate φ).current = p.current.relocate φ := by
  rw [current, current, relocate]
  cases p.rest <;> rfl

theorem next_relocate (p : Parser) : (p.relocate φ).next = p.next.relocate φ := by
  unfold next
  cases hrest : p.rest with
  | nil => simp [relocate, hrest]
  | cons t rest => simp [relocate, hrest]

theorem expected_relocate (p : Parser) (expectation : Expectation)
    : (p.relocate φ).expected expectation = (p.expected expectation).relocate φ := by
  rw [expected, current_relocate]
  rfl

theorem onSuccess_relocate {α β : Type} {g g' : α → Parser → Parser × Except ParseFault β}
    {r : α → α} {u : β → β}
    (hg : ∀ a q, g' (r a) (q.relocate φ) = Prod.map (relocate φ) (relocateResult φ u) (g a q))
    (x : Except ParseFault α) (q : Parser)
    : onSuccess g' (relocateResult φ r x) (q.relocate φ)
        = Prod.map (relocate φ) (relocateResult φ u) (onSuccess g x q) := by
  cases x with
  | error fault => rfl
  | ok a => exact hg a q

theorem expect_relocate (p : Parser) (tag : Tag) (expectation : Expectation)
    : (p.relocate φ).expect tag expectation
        = Prod.map (relocate φ) (relocateResult φ id) (p.expect tag expectation) := by
  rw [expect, expect, current_relocate, Token.tag_relocate, next_relocate, expected_relocate]
  split
  . rfl
  . rfl

theorem readComplexity_relocate (p : Parser)
    : (p.relocate φ).readComplexity
        = Prod.map (relocate φ) (relocateResult φ id) p.readComplexity := by
  rw [readComplexity, readComplexity, current_relocate, Token.tag_relocate, expected_relocate]
  split
  . next complexity _ =>
    have := next_relocate φ { p with complexity := some complexity }
    exact Prod.ext this rfl
  . rfl

theorem canBegin_relocate (scope : Scope) (tag : Tag)
    : (scope.relocate φ).canBegin tag = scope.canBegin tag := by
  cases tag <;> cases scope <;> rfl

theorem readTerm_relocate (p : Parser) (scope : Scope)
    : (p.relocate φ).readTerm (scope.relocate φ)
        = Prod.map (relocate φ) (relocateResult φ (Term.mapSpans (.relocating φ)))
            (p.readTerm scope) := by
  have hread := Expression.read_relocate φ scope p.last [] p.rest {}
  rw [List.map_nil] at hread
  have hrest : (p.relocate φ).rest = p.rest.map (Token.relocate φ) := rfl
  have hlast : (p.relocate φ).last = p.last.relocate φ := rfl
  simp only [readTerm, hrest, hlast, hread]
  rfl

theorem readTerms_relocate (p : Parser) (scope : Scope) (body : Group)
    : (p.relocate φ).readTerms (scope.relocate φ) (body.mapSpans (.relocating φ))
        = Prod.map (relocate φ) (Prod.map (Group.mapSpans (.relocating φ)) (relocateResult φ id))
            (p.readTerms scope body) := by
  have hadd (body : Group) (term : Term)
      : (body.mapSpans (.relocating φ)).add (term.mapSpans (.relocating φ))
        = (body.add term).mapSpans (.relocating φ) := (Group.mapSpans_add _ body term).symm
  fun_induction readTerms p scope body with
  | case1 p body q fault hread =>
    rw [readTerms_eq, andThen, readTerm_relocate, hread]
    rfl
  | case2 p body q term hread body' hcurrent ih =>
    rw [readTerms_eq, andThen, readTerm_relocate, hread, ← ih]
    simp only [Prod.map, relocateResult, readMore, canBegin_relocate, current_relocate,
      Token.tag_relocate, if_pos hcurrent, hadd]
    rfl
  | case3 p body q term hread body' hcurrent =>
    rw [readTerms_eq, andThen, readTerm_relocate, hread]
    simp only [Prod.map, relocateResult, readMore, canBegin_relocate, current_relocate,
      Token.tag_relocate, if_neg hcurrent, hadd]
    rfl

theorem warn_relocate (p : Parser) (text : String) (position : Position)
    : (p.relocate φ).warn text (φ position) = (p.warn text position).relocate φ := by
  cases hwarnings : p.warnings with
  | none => simp [warn, relocate, hwarnings]
  | some ms => simp [warn, relocate, hwarnings, Message.relocate]

theorem define_relocate (p : Parser) (name : Token) (body : Group)
    : (p.relocate φ).define (name.relocate φ) (body.mapSpans (.relocating φ))
        = (p.define name body).relocate φ := by
  have hdefine (ds : Definitions) :=
    ds.define_relocate φ { name := name.text, body, span := name.span }
  have hcontains := p.definitions.contains_relocate φ name.text
  unfold define
  by_cases h : p.definitions.contains name.text = true
  . have hwarn := p.warn_relocate φ ("user_combinator " ++ name.text ++ " redefined") name.position
    have h' : (p.relocate φ).definitions.contains (name.relocate φ).text = true := hcontains.trans h
    rw [if_pos h, if_pos h', Token.position_relocate, Token.text_relocate, hwarn]
    exact congrArg (fun ds => { (p.warn _ _).relocate φ with definitions := ds }) (hdefine _)
  . have h' : ¬(p.relocate φ).definitions.contains (name.relocate φ).text = true :=
      fun h' => h (hcontains.symm.trans h')
    rw [if_neg h, if_neg h']
    exact congrArg (fun ds => { p.relocate φ with definitions := ds }) (hdefine _)

theorem readDefinition_relocate (p : Parser)
    : (p.relocate φ).readDefinition
        = Prod.map (relocate φ) (relocateResult φ id) p.readDefinition := by
  rw [readDefinition_eq p.current p rfl, readDefinition_eq _ _ (current_relocate φ p)]
  apply andThen_map (expect_relocate φ p .name .name)
  apply onSuccess_relocate φ
  intro _ p
  apply andThen_map (expect_relocate φ p .equalSign .equalSign)
  apply onSuccess_relocate φ
  intro _ p
  have hread := readTerms_relocate φ p .definition .empty
  rw [Group.mapSpans_empty] at hread
  apply andThen_map hread
  rintro ⟨body, fault | _⟩ p
  . rfl
  . exact Prod.ext (define_relocate φ p _ body) rfl

theorem readDefinitions_relocate (p : Parser)
    : (p.relocate φ).readDefinitions
        = Prod.map (relocate φ) (relocateResult φ id) p.readDefinitions := by
  fun_induction readDefinitions p with
  | case1 p hcurrent q fault hread =>
    rw [readDefinitions_eq _ (by rw [current_relocate, Token.tag_relocate, hcurrent]), andThen,
      readDefinition_relocate, hread]
    rfl
  | case2 p hcurrent q hread ih =>
    rw [readDefinitions_eq _ (by rw [current_relocate, Token.tag_relocate, hcurrent]), andThen,
      readDefinition_relocate, hread, ← ih]
    rfl
  | case3 p hcurrent =>
    rw [readDefinitions, if_neg (by rwa [current_relocate, Token.tag_relocate])]
    rfl

theorem readTask_relocate (p : Parser)
    : (p.relocate φ).readTask = Prod.map (relocate φ) (relocateResult φ id) p.readTask := by
  have hread := readTerms_relocate φ p (.task p.definitions) .empty
  rw [Group.mapSpans_empty] at hread
  unfold readTask
  have hscope : (Scope.task p.definitions).relocate φ = .task (p.relocate φ).definitions := rfl
  rw [hscope] at hread
  rw [hread]
  obtain ⟨q, body, result⟩ := p.readTerms (.task p.definitions) .empty
  simp [relocate, Group.mapSpans]

theorem relocate_parse (p : Parser)
    : (p.relocate φ).parse
        = Prod.map (relocate φ) (relocateResult φ (Program.relocate φ)) p.parse := by
  rw [parse_eq, parse_eq]
  apply andThen_map (readComplexity_relocate φ p)
  apply onSuccess_relocate φ
  intro complexity p
  apply andThen_map (readDefinitions_relocate φ p)
  apply onSuccess_relocate φ
  intro _ p
  apply andThen_map (expect_relocate φ p .questionSign .questionSign)
  apply onSuccess_relocate φ
  intro _ p
  apply andThen_map (readTask_relocate φ p)
  apply onSuccess_relocate φ
  intro _ p
  rw [current_relocate, Token.tag_relocate, expected_relocate]
  split
  . simp [relocateResult, Program.relocate, relocate]
  . rfl

theorem ofTokens?_relocate (ts : List Token) (warns : Bool)
    : ofTokens? (ts.map (Token.relocate φ)) warns = (ofTokens? ts warns).map (relocate φ) := by
  rcases ts.eq_nil_or_concat with rfl | ⟨body, last, rfl⟩
  . rfl
  . by_cases hlast : last.tag = .endOfProgram
    . have hlast' : (last.relocate φ).tag = .endOfProgram := hlast
      rw [List.concat_eq_append, List.map_append, List.map_singleton, ofTokens?_append hlast,
        ofTokens?_append hlast']
      cases warns <;> simp [Except.map, relocate, Definitions.relocate]
    . simp [ofTokens?, hlast, Except.map]

end Parser

section Results

variable (φ : Position → Position)

def Parsed.relocate (parsed : Parsed) : Parsed where
  result := (parsed.result.map (Program.relocate φ)).mapError (Signal.relocate φ)
  warnings := parsed.warnings.map (Array.map (Message.relocate φ))

theorem parse_relocate (ts : List Token) (warns : Bool)
    : parse (ts.map (Token.relocate φ)) warns = (parse ts warns).relocate φ := by
  rw [parse, parse, Parser.ofTokens?_relocate]
  cases Parser.ofTokens? ts warns with
  | error defect =>
    cases warns <;> simp [Except.map, Except.mapError, Parsed.relocate, Signal.relocate]
  | ok p =>
    simp only [Except.map, Parser.relocate_parse, Prod.map]
    obtain ⟨q, fault | program⟩ := p.parse
    . exact congrArg (Parsed.mk · _) (congrArg Except.error (fault.signal_relocate φ))
    . rfl

end Results

end Combinatory
