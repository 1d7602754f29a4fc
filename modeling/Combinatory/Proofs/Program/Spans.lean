import Combinatory.Proofs.Program.Calls
import Combinatory.Proofs.Program.Relocation
import Combinatory.Proofs.Reduction.Spans
import Combinatory.Proofs.Token.Scanning

/-!
Spans say where a token or a term comes from, and nothing about what it means. If two lists of
tokens read the same, so do the programs that are made of them, or the complaints about them; if two
sequences of terms are the same, so are their reductions: `spans_have_no_meaning`.

Neither the parser nor the reducer is followed twice. Both commute with a change of spans, and a
change that brings all tokens to one place, or takes all spans away, leaves nothing to tell the two
runs apart.
-/

namespace Combinatory

section Tokens

variable {ts us : List Token}

theorem Token.relocate_eq_of_lexeme {t u : Token} (h : t.lexeme = u.lexeme) (place : Position)
    : t.relocate (fun _ => place) = u.relocate (fun _ => place) := by
  obtain ⟨tag, span, text⟩ := t
  obtain ⟨tag', span', text'⟩ := u
  cases h
  rfl

theorem Token.map_relocate_eq_of_lexemes (h : ts.map lexeme = us.map lexeme) (place : Position)
    : ts.map (relocate fun _ => place) = us.map (relocate fun _ => place) := by
  induction ts generalizing us with
  | nil =>
    rw [List.map_nil, eq_comm, List.map_eq_nil_iff] at h
    rw [h]
  | cons t ts ih =>
    rw [List.map_cons, eq_comm, List.map_eq_cons_iff] at h
    obtain ⟨u, us, rfl, hu, hus⟩ := h
    rw [List.map_cons, List.map_cons, relocate_eq_of_lexeme hu.symm, ih hus.symm]

end Tokens

structure Program.Alike (p q : Program) : Prop where
  complexity : p.complexity = q.complexity
  primitives : p.primitives = q.primitives
  names : p.definitions.names = q.definitions.names
  bodies : p.definitions.toList.map Definition.expand == q.definitions.toList.map Definition.expand
  task : p.task == q.task

theorem Program.alike_of_relocate_eq {φ : Position → Position} {p q : Program}
    (h : p.relocate φ = q.relocate φ)
    : p.Alike q where
  complexity := congrArg (·.complexity) h
  primitives := congrArg (·.primitives) h
  names := by
    have hnames := congrArg (·.definitions.names) h
    simpa [relocate, Definitions.relocate, Definitions.names, Definition.relocate,
      Function.comp_def] using hnames
  bodies := by
    have hbodies := congrArg (·.definitions.toList.map Definition.expand) h
    apply beq_of_map_mapSpans_eq (.relocating φ)
    simpa [relocate, Definitions.relocate, Function.comp_def, Definition.expand_relocate]
      using hbodies
  task := beq_of_map_mapSpans_eq (.relocating φ) (congrArg (·.task) h)

namespace Parser

theorem ofTokens?_cases (tokens : List Token) (warns : Bool)
    : ofTokens? tokens warns = .error .endTokenMissing
      ∨ ∃ p, ofTokens? tokens warns = .ok p ∧ p.rest ++ [p.last] = tokens ∧ p.index = 0 := by
  rcases tokens.eq_nil_or_concat with rfl | ⟨body, last, rfl⟩
  . exact .inl rfl
  . rw [List.concat_eq_append]
    by_cases hlast : last.tag = .endOfProgram
    . exact .inr ⟨_, ofTokens?_append hlast warns, rfl, rfl⟩
    . left
      simp [ofTokens?, hlast]

theorem parse_alike {φ : Position → Position} {p q : Parser} (h : p.relocate φ = q.relocate φ)
    : p.parse.1.index = q.parse.1.index
      ∧ ((∃ program program', p.parse.2 = .ok program ∧ q.parse.2 = .ok program'
          ∧ program.Alike program')
        ∨ ∃ fault fault' text, p.parse.2 = .error fault ∧ q.parse.2 = .error fault'
          ∧ fault.signal = .complaint { text, position := some p.parse.1.current.position }
          ∧ fault'.signal = .complaint { text, position := some q.parse.1.current.position }) := by
  have hparse := congrArg parse h
  rw [relocate_parse, relocate_parse] at hparse
  have hresults : relocateResult φ (Program.relocate φ) p.parse.2
      = relocateResult φ (Program.relocate φ) q.parse.2 := congrArg Prod.snd hparse
  refine ⟨congrArg (·.1.index) hparse, ?_⟩
  cases hp : p.parse.2 with
  | ok program =>
    left
    cases hq : q.parse.2 with
    | error fault => simp [hp, hq, relocateResult] at hresults
    | ok program' =>
      refine ⟨program, program', rfl, rfl, ?_⟩
      apply Program.alike_of_relocate_eq (φ := φ)
      simpa [hp, hq, relocateResult] using hresults
  | error fault =>
    right
    cases hq : q.parse.2 with
    | ok program => simp [hp, hq, relocateResult] at hresults
    | error fault' =>
      obtain ⟨text, htext⟩ := (fault_of_parse (Prod.ext rfl hp)).signal_eq
      obtain ⟨text', htext'⟩ := (fault_of_parse (Prod.ext rfl hq)).signal_eq
      have hfaults : fault.relocate φ = fault'.relocate φ := by
        simpa [hp, hq, relocateResult] using hresults
      have hsignals := congrArg ParseFault.signal hfaults
      rw [ParseFault.signal_relocate, ParseFault.signal_relocate, htext, htext'] at hsignals
      simp only [Signal.relocate, Complaint.relocate, Signal.complaint.injEq,
        Complaint.mk.injEq] at hsignals
      rw [← hsignals.1] at htext'
      exact ⟨fault, fault', text, rfl, rfl, htext, htext'⟩

theorem result_parse_of_ofTokens? {tokens : List Token} {warns : Bool} {p : Parser}
    (h : ofTokens? tokens warns = .ok p)
    : (Combinatory.parse tokens warns).result = p.parse.2.mapError ParseFault.signal := by
  rw [Combinatory.parse, h]

def EndsAt (tokens : List Token) (warns : Bool) (index : Nat) : Prop :=
  ∃ p, ofTokens? tokens warns = .ok p ∧ p.parse.1.index = index

end Parser

inductive ParsedAlike (warns : Bool) (ts us : List Token) : Prop where
  | program {p q : Program} (hts : (parse ts warns).result = .ok p)
      (hus : (parse us warns).result = .ok q) (halike : p.Alike q)
  | complaint {index : Nat} {t u : Token} {text : String}
      (ht : ts[index]? = some t) (hu : us[index]? = some u)
      (hts : Parser.EndsAt ts warns index) (hus : Parser.EndsAt us warns index)
      (hcomplaint : (parse ts warns).result
        = .error (.complaint { text, position := some t.position }))
      (hcomplaint' : (parse us warns).result
        = .error (.complaint { text, position := some u.position }))
  | unended (hts : (parse ts warns).result = .error (.defect .endTokenMissing))
      (hus : (parse us warns).result = .error (.defect .endTokenMissing))

theorem parsedAlike_of_lexemes {ts us : List Token}
    (h : ts.map Token.lexeme = us.map Token.lexeme) (warns : Bool)
    : ParsedAlike warns ts us := by
  have hparsers := congrArg (Parser.ofTokens? · warns)
    (Token.map_relocate_eq_of_lexemes h (default : Position))
  simp only [Parser.ofTokens?_relocate] at hparsers
  obtain hts | ⟨p, hts, rfl, hindex⟩ := Parser.ofTokens?_cases ts warns
  . obtain hus | ⟨q, hus, _⟩ := Parser.ofTokens?_cases us warns
    . apply ParsedAlike.unended
      . rw [parse, hts]
      . rw [parse, hus]
    . simp [hts, hus, Except.map] at hparsers
  obtain hus | ⟨q, hus, rfl, hindex'⟩ := Parser.ofTokens?_cases us warns
  . simp [hts, hus, Except.map] at hparsers
  have hrelocate : p.relocate (fun _ => default) = q.relocate (fun _ => default) := by
    simpa [hts, hus, Except.map] using hparsers
  obtain ⟨hends, ⟨program, program', hp, hq, halike⟩
    | ⟨fault, fault', text, hp, hq, hfault, hfault'⟩⟩ := Parser.parse_alike hrelocate
  . apply ParsedAlike.program _ _ halike
    . rw [Parser.result_parse_of_ofTokens? hts, hp, Except.mapError]
    . rw [Parser.result_parse_of_ofTokens? hus, hq, Except.mapError]
  . have hcurrent := (Parser.proceeds_parse p).getElem?_index hindex
    have hcurrent' := (Parser.proceeds_parse q).getElem?_index hindex'
    rw [← hends] at hcurrent'
    apply ParsedAlike.complaint hcurrent hcurrent' ⟨p, hts, rfl⟩ ⟨q, hus, hends.symm⟩
    . rw [Parser.result_parse_of_ofTokens? hts, hp, Except.mapError, hfault]
    . rw [Parser.result_parse_of_ofTokens? hus, hq, Except.mapError, hfault']

theorem spans_have_no_meaning
    : (∀ (ts us : List Token) (warns : Bool), ts.map Token.lexeme = us.map Token.lexeme
        → ParsedAlike warns ts us)
      ∧ ∀ r r' : Reducer, r.terms == r'.terms → r.complexity = r'.complexity → r.bound = r'.bound
        → r.steps = r'.steps → ∀ fuel, (r.reduce fuel).Alike (r'.reduce fuel) := by
  refine ⟨fun ts us warns h => parsedAlike_of_lexemes h warns, ?_⟩
  intro r r' hterms hcomplexity hbound hsteps fuel
  have hr' : r' = { r with terms := r'.terms } := by
    rw [hcomplexity, hbound, hsteps]
  rw [hr']
  exact Reducer.alike_reduce hterms fuel

theorem spans_have_no_meaning_of_undefined
    : let lexemes : List (Tag × String) :=
        [(.complexity .unbounded, "inf"), (.questionSign, "?"), (.primitive .K, "K"),
          (.name, "C1"), (.endOfProgram, "")]
      let here : List Token := lexemes.map fun (tag, text) => ⟨tag, default, text⟩
      let there : List Token :=
        lexemes.mapIdx fun i (tag, text) => ⟨tag, ⟨⟨1, i, i⟩, ⟨1, i, i⟩⟩, text⟩
      let bare : Reducer :=
        ⟨[.primitive .I none, .group [.primitive .K none] none], .unbounded, none, 4⟩
      let placed : Reducer :=
        ⟨[.primitive .I (some default), .group [.primitive .K none] (some default)],
          .unbounded, none, 4⟩
      ParsedAlike true here there
        ∧ Parser.EndsAt here true 3
        ∧ (parse here true).result.map (fun _ => ()) = .error
          (.complaint { text := "undefined user_combinator C1", position := some default })
        ∧ (bare.reduce 9).Alike (placed.reduce 9)
        ∧ (bare.reduce 9).trace.map Reduction.Firing.shown = #[(5, "I(K)", "(K)")] := by
  intro lexemes here there bare placed
  refine ⟨spans_have_no_meaning.1 here there true (by decide), ⟨_, rfl, ?_⟩, ?_, ?_, ?_⟩
  . decide +kernel
  . decide +kernel
  . exact spans_have_no_meaning.2 bare placed (by decide) rfl rfl rfl 9
  . decide +kernel

end Combinatory
