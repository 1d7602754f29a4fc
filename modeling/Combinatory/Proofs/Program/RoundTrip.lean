import Combinatory.Proofs.Program.Source

namespace Combinatory

def Source.write (s : Source) (gap : Nat → Blanks) : String :=
  String.ofList (layOut gap (s.lexemes.map Prod.snd))

section Writing

theorem Rule.spells (r : Rule) : ∀ l ∈ r.lexemes, l.1.Spells l.2 := by
  rw [lexemes, List.forall_mem_cons, List.forall_mem_cons]
  refine ⟨⟨r.name.digits, r.name.ne_nil, r.name.all_digits, rfl⟩, rfl, ?_⟩
  apply Phrase.spells_lexemesAll_of_forall
  intro p hp
  have hover : p.Over [] := r.filled.phraseAll_over p hp
  exact hover.spells

theorem Source.spells (s : Source) : ∀ l ∈ s.lexemes, l.1.Spells l.2 := by
  rw [lexemes, List.forall_mem_cons, List.forall_mem_append, List.forall_mem_cons]
  refine ⟨rfl, ?_, rfl, ?_⟩
  . intro l hl
    obtain ⟨r, _, hl⟩ := List.mem_flatMap.mp hl
    exact r.spells l hl
  . apply Phrase.spells_lexemesAll_of_forall
    intro p hp
    exact (s.task_over p hp).spells

theorem tag_ne_endOfProgram {body : List Token} {lexemes : List (Tag × String)}
    (hbody : body.map Token.lexeme = lexemes) (h : ∀ l ∈ lexemes, l.1.Spells l.2)
    : ∀ t ∈ body, t.tag ≠ .endOfProgram := by
  subst hbody
  intro t ht htag
  have := h t.lexeme (List.mem_map_of_mem ht)
  simp [Token.lexeme, Tag.Spells, htag] at this

end Writing

theorem Source.exists_program (s : Source) (gap : Nat → Blanks) (warns : Bool)
    : (tokenize (s.write gap)).messages = #[]
      ∧ ∃ program, (parse (tokenize (s.write gap)).tokens warns).result = .ok program
        ∧ program.complexity = s.complexity
        ∧ (∀ name, (program.definitions.find? name).map Definition.expand == s.find? name)
        ∧ program.task == s.terms := by
  obtain ⟨hmessages, body, last, htokens, hbody, hlast⟩ := tokenize_layOut s.spells gap
  obtain ⟨program, hdescribes, hprogram⟩ := s.exists_describes hbody
  refine ⟨hmessages, program, ?_, hprogram⟩
  rw [write, htokens, parse_eq_ok_iff hlast (tag_ne_endOfProgram hbody s.spells)]
  exact hdescribes

section Rendering

def Source.ofTerms {ts : List Term} (h : Filled ts) : Source where
  complexity := .unbounded
  rules := []
  task := Term.phraseAll ts
  task_ne_nil := by
    rw [Term.phraseAll_eq_map]
    simpa using h.ne_nil
  task_over := h.phraseAll_over

theorem layOut_of_forall {gap : Nat → Blanks} (h : ∀ i, (gap (i + 1)).chars = [])
    (texts : List String)
    : layOut gap texts = (gap 0).chars ++ texts.flatMap String.toList := by
  induction texts generalizing gap with
  | nil => simp [layOut]
  | cons text texts ih =>
    rw [layOut, ih (fun i => h (i + 1)), h 0]
    simp

theorem flatMap_lexemesAll_of_forall {ts : List Term}
    (h : ∀ t ∈ ts, (t.phrase.lexemes.map Prod.snd).flatMap String.toList = t.glyphs)
    : ((Phrase.lexemesAll (Term.phraseAll ts)).map Prod.snd).flatMap String.toList
        = Term.glyphsAll ts := by
  induction ts with
  | nil => simp [Term.phraseAll, Phrase.lexemesAll]
  | cons t ts ih =>
    rw [List.forall_mem_cons] at h
    rw [Term.phraseAll, Phrase.lexemesAll, List.map_append, List.flatMap_append, h.1, ih h.2,
      Term.glyphsAll_cons]

theorem Term.flatMap_lexemes (t : Term)
    : (t.phrase.lexemes.map Prod.snd).flatMap String.toList = t.glyphs := by
  induction t with
  | primitive c => simp [phrase, Phrase.lexemes, Tag.lexeme, Tag.symbol]
  | group ts _ ih =>
    rw [phrase, Phrase.lexemes, List.map_cons, List.map_append, List.flatMap_cons,
      List.flatMap_append, flatMap_lexemesAll_of_forall ih, glyphs_group]
    rfl

theorem exists_write_ofTerms {ts : List Term} (h : Filled ts)
    : ∃ gap, (Source.ofTerms h).write gap = "inf ? " ++ render ts := by
  let space : Blanks := ⟨[' '], by simp [isBlank]⟩
  let nothing : Blanks := ⟨[], by simp⟩
  refine ⟨fun i => if i = 1 ∨ i = 2 then space else nothing, ?_⟩
  rw [← String.toList_inj]
  have htexts := flatMap_lexemesAll_of_forall fun t (_ : t ∈ ts) => t.flatMap_lexemes
  simp only [Source.write, Source.lexemes, Source.ofTerms, List.flatMap_nil, List.nil_append,
    List.map_cons, layOut]
  rw [layOut_of_forall (by intro i; simp [nothing])]
  simp [htexts, space, nothing, Tag.lexeme, Tag.symbol, Complexity.word]

theorem beq_terms_ofTerms {ts : List Term} (h : Filled ts) : (Source.ofTerms h).terms == ts := by
  rw [beq_iff_map_spanless]
  simp [Source.terms, Source.ofTerms, Phrase.termAll_eq_map, Term.phraseAll_eq_map,
    Term.spanless_term_phrase]

theorem exists_program_render {ts : List Term} (h : Filled ts) (warns : Bool)
    : (tokenize ("inf ? " ++ render ts)).messages = #[]
      ∧ ∃ program, (parse (tokenize ("inf ? " ++ render ts)).tokens warns).result = .ok program
        ∧ program.task == ts := by
  obtain ⟨gap, hgap⟩ := exists_write_ofTerms h
  obtain ⟨hmessages, program, hparse, _, _, htask⟩ := (Source.ofTerms h).exists_program gap warns
  rw [hgap] at hmessages hparse
  refine ⟨hmessages, program, hparse, ?_⟩
  have hterms := beq_terms_ofTerms h
  rw [beq_iff_map_spanless] at htask hterms ⊢
  exact htask.trans hterms

end Rendering

/--
A program that is written down, with blanks as one likes, is read back as it was meant. So are terms
that are rendered as a task.
-/
theorem parse_tokenize_write (s : Source) (gap : Nat → Blanks) (warns : Bool)
    : ((tokenize (s.write gap)).messages = #[]
        ∧ ∃ program, (parse (tokenize (s.write gap)).tokens warns).result = .ok program
          ∧ program.complexity = s.complexity
          ∧ (∀ name, (program.definitions.find? name).map Definition.expand == s.find? name)
          ∧ program.task == s.terms)
      ∧ ∀ ts, Filled ts → (tokenize ("inf ? " ++ render ts)).messages = #[]
        ∧ ∃ program, (parse (tokenize ("inf ? " ++ render ts)).tokens warns).result = .ok program
          ∧ program.task == ts := by
  refine ⟨s.exists_program gap warns, ?_⟩
  intro ts hts
  exact exists_program_render hts warns

theorem parse_tokenize_write_of_adjacent
    : let text := "quadC12=KIC1=(S)K\r\nC12=S(K)?C12K(C1C12)"
      let terms : List Term := [.primitive .K none, .group [.primitive .S none] none]
      ((tokenize text).messages = #[]
        ∧ ∃ program, (parse (tokenize text).tokens true).result = .ok program
          ∧ program.complexity = .quadratic
          ∧ (program.definitions.find? "C12").map Definition.expand
              == some (.group [.primitive .S none, .group [.primitive .K none] none] none))
        ∧ Filled terms ∧ ∃ program,
          (parse (tokenize ("inf ? " ++ render terms)).tokens true).result = .ok program
            ∧ program.task == terms := by
  intro text terms
  let double : Name := ⟨['1', '2'], by simp, by simp⟩
  let single : Name := ⟨['1'], by simp, by simp⟩
  let s : Source :=
    { complexity := .quadratic
      rules :=
        [⟨double, [.primitive .K none, .primitive .I none], by simp [filled_iff]⟩,
          ⟨single, [.group [.primitive .S none] none, .primitive .K none], by simp [filled_iff]⟩,
          ⟨double, [.primitive .S none, .group [.primitive .K none] none], by simp [filled_iff]⟩]
      task := [.name double, .primitive .K, .group [.name single, .name double]]
      task_ne_nil := by simp
      task_over := by
        simp only [List.forall_mem_cons, List.map_cons, List.map_nil]
        refine ⟨.name (by simp), .primitive .K, .group (by simp) ?_, by simp⟩
        simp only [List.forall_mem_cons]
        exact ⟨.name (by simp), .name (by simp), by simp⟩ }
  let lineEnd : Blanks := ⟨['\r', '\n'], by simp [isBlank]⟩
  let nothing : Blanks := ⟨[], by simp⟩
  have hterms : Filled terms := by simp [terms, filled_iff]
  have hwrite : s.write (fun i => if i = 11 then lineEnd else nothing) = text := by
    rw [← String.toList_inj, Source.write, String.toList_ofList]
    simp [s, double, single, lineEnd, nothing, text, Source.lexemes, Rule.lexemes,
      Phrase.lexemesAll, Phrase.lexemes, Term.phraseAll, Term.phrase, Tag.lexeme, Tag.symbol,
      Name.text, layOut, Complexity.word, Combinator.symbol]
  have hread := parse_tokenize_write s (fun i => if i = 11 then lineEnd else nothing) true
  rw [hwrite] at hread
  obtain ⟨⟨hmessages, program, hparse, hcomplexity, hfind, _⟩, hrender⟩ := hread
  exact ⟨⟨hmessages, program, hparse, hcomplexity, hfind "C12"⟩, hterms, (hrender terms hterms).2⟩

end Combinatory
