import Combinatory.Proofs.Calculus.Meaning
import Combinatory.Proofs.Program.Parsing
import Combinatory.Proofs.Term.Same
import Combinatory.Proofs.Token.Scanning

namespace Combinatory

structure Name where
  digits : List Char
  ne_nil : digits ≠ []
  all_digits : ∀ d ∈ digits, d.isDigit

def Name.text (n : Name) : String :=
  String.ofList ('C' :: n.digits)

inductive Phrase where
  | primitive (combinator : Combinator)
  | name (name : Name)
  | group (parts : List Phrase)

inductive Phrase.Over (names : List Name) : Phrase → Prop where
  | primitive (c : Combinator) : Over names (.primitive c)
  | name {n : Name} (h : n ∈ names) : Over names (.name n)
  | group {parts : List Phrase} (hne : parts ≠ []) (h : ∀ p ∈ parts, Over names p)
    : Over names (.group parts)

def Tag.lexeme (tag : Tag) : Tag × String :=
  (tag, tag.symbol)

namespace Phrase

mutual

def lexemes : Phrase → List (Tag × String)
  | .primitive c => [Tag.lexeme (.primitive c)]
  | .name n => [(.name, n.text)]
  | .group parts => Tag.lexeme .leftBracket :: (lexemesAll parts ++ [Tag.lexeme .rightBracket])

def lexemesAll : List Phrase → List (Tag × String)
  | [] => []
  | p :: ps => p.lexemes ++ lexemesAll ps

end

mutual

def term (meaning : Name → Term) : Phrase → Term
  | .primitive c => .primitive c none
  | .name n => meaning n
  | .group parts => .group (termAll meaning parts) none

def termAll (meaning : Name → Term) : List Phrase → List Term
  | [] => []
  | p :: ps => p.term meaning :: termAll meaning ps

end

end Phrase

mutual

def Term.phrase : Term → Phrase
  | .primitive c _ => .primitive c
  | .group ts _ => .group (phraseAll ts)

def Term.phraseAll : List Term → List Phrase
  | [] => []
  | t :: ts => t.phrase :: phraseAll ts

end

structure Rule where
  name : Name
  body : List Term
  filled : Filled body

namespace Rule

def lexemes (r : Rule) : List (Tag × String) :=
  (.name, r.name.text) :: Tag.lexeme .equalSign :: Phrase.lexemesAll (Term.phraseAll r.body)

def term (r : Rule) : Term :=
  .group r.body none

end Rule

structure Source where
  complexity : Complexity
  rules : List Rule
  task : List Phrase
  task_ne_nil : task ≠ []
  task_over : ∀ p ∈ task, p.Over (rules.map Rule.name)

namespace Source

def lexemes (s : Source) : List (Tag × String) :=
  Tag.lexeme (.complexity s.complexity) ::
    (s.rules.flatMap Rule.lexemes ++ Tag.lexeme .questionSign :: Phrase.lexemesAll s.task)

def find? (s : Source) (name : String) : Option Term :=
  (s.rules.reverse.find? (·.name.text = name)).map Rule.term

def meaning (s : Source) (n : Name) : Term :=
  (s.find? n.text).getD default

def terms (s : Source) : List Term :=
  Phrase.termAll s.meaning s.task

end Source

section Mapping

theorem Phrase.termAll_eq_map (meaning : Name → Term) (ps : List Phrase)
    : Phrase.termAll meaning ps = ps.map (Phrase.term meaning) := by
  induction ps with
  | nil => simp [termAll]
  | cons p ps ih => simp [termAll, ih]

theorem Phrase.lexemesAll_eq_flatMap (ps : List Phrase)
    : Phrase.lexemesAll ps = ps.flatMap Phrase.lexemes := by
  induction ps with
  | nil => simp [lexemesAll]
  | cons p ps ih => simp [lexemesAll, ih]

theorem Term.phraseAll_eq_map (ts : List Term) : Term.phraseAll ts = ts.map Term.phrase := by
  induction ts with
  | nil => simp [phraseAll]
  | cons t ts ih => simp [phraseAll, ih]

end Mapping

section Terms

variable {names : List Name} {meaning : Name → Term}

theorem Term.spanless_term_phrase (t : Term) : (t.phrase.term meaning).spanless = t.spanless := by
  induction t with
  | primitive => simp [phrase, Phrase.term]
  | group ts _ ih =>
    simp only [phrase, Phrase.term, phraseAll_eq_map, Phrase.termAll_eq_map, spanless_group,
      List.map_map, group.injEq, and_true]
    exact List.map_congr_left ih

theorem Term.Filled.phrase_over {t : Term} (h : t.Filled) : t.phrase.Over names := by
  induction h with
  | primitive c =>
    rw [phrase]
    exact .primitive c
  | group _ hne _ ih =>
    rw [phrase, phraseAll_eq_map]
    apply Phrase.Over.group
    . simpa using hne
    . simpa using ih

theorem Filled.phraseAll_over {ts : List Term} (h : Filled ts)
    : ∀ p ∈ Term.phraseAll ts, p.Over names := by
  rw [Term.phraseAll_eq_map, List.forall_mem_map]
  intro t ht
  exact (h.all t ht).phrase_over

theorem Phrase.spells_lexemesAll_of_forall {ps : List Phrase}
    (h : ∀ p ∈ ps, ∀ l ∈ p.lexemes, l.1.Spells l.2)
    : ∀ l ∈ lexemesAll ps, l.1.Spells l.2 := by
  rw [lexemesAll_eq_flatMap]
  intro l hl
  obtain ⟨p, hp, hl⟩ := List.mem_flatMap.mp hl
  exact h p hp l hl

theorem Phrase.Over.spells {p : Phrase} (h : p.Over names) : ∀ l ∈ p.lexemes, l.1.Spells l.2 := by
  induction h with
  | primitive => simp [lexemes, Tag.lexeme, Tag.Spells]
  | @name n =>
    rw [lexemes, List.forall_mem_singleton]
    exact ⟨n.digits, n.ne_nil, n.all_digits, rfl⟩
  | group _ _ ih =>
    rw [lexemes, List.forall_mem_cons, List.forall_mem_append, List.forall_mem_singleton]
    exact ⟨rfl, spells_lexemesAll_of_forall ih, rfl⟩

end Terms

section Reading

variable {scope : Scope} {names : List Name} {meaning : Name → Term} {ts : List Token}

theorem exists_reads_of_forall {ps : List Phrase}
    (h : ∀ p ∈ ps, ∀ ts : List Token, ts.map Token.lexeme = p.lexemes
      → ∃ term, Reads scope ts [term] ∧ term.spanless = (p.term meaning).spanless)
    (hts : ts.map Token.lexeme = Phrase.lexemesAll ps)
    : ∃ terms, Reads scope ts terms
        ∧ terms.map Term.spanless = (Phrase.termAll meaning ps).map Term.spanless := by
  induction ps generalizing ts with
  | nil =>
    rw [Phrase.lexemesAll, List.map_eq_nil_iff] at hts
    subst hts
    exact ⟨[], .nil, by simp [Phrase.termAll]⟩
  | cons p ps ih =>
    rw [List.forall_mem_cons] at h
    obtain ⟨us, vs, rfl, hus, hvs⟩ := List.map_eq_append_iff.mp hts
    obtain ⟨term, hterm, heq⟩ := h.1 us hus
    obtain ⟨terms, hterms, heqs⟩ := ih h.2 hvs
    refine ⟨term :: terms, hterm.append hterms, ?_⟩
    rw [List.map_cons, heq, heqs, Phrase.termAll, List.map_cons]

theorem Phrase.Over.exists_reads {p : Phrase} (h : p.Over names)
    (hmeaning : ∀ n ∈ names, ∃ d, scope.find? n.text = some d
      ∧ d.expand.spanless = (meaning n).spanless)
    (hts : ts.map Token.lexeme = p.lexemes)
    : ∃ term, Reads scope ts [term] ∧ term.spanless = (p.term meaning).spanless := by
  induction h generalizing ts with
  | primitive c =>
    obtain ⟨t, rfl, ht⟩ := List.map_eq_singleton_iff.mp hts
    obtain ⟨htag, _⟩ := Prod.mk.inj ht
    exact ⟨_, .primitive htag .nil, by simp [Phrase.term]⟩
  | name hn =>
    obtain ⟨t, rfl, ht⟩ := List.map_eq_singleton_iff.mp hts
    obtain ⟨htag, htext⟩ := Prod.mk.inj ht
    obtain ⟨d, hd, heq⟩ := hmeaning _ hn
    rw [← htext] at hd
    exact ⟨_, .name htag hd .nil, by rw [heq, Phrase.term]⟩
  | @group parts hne _ ih =>
    obtain ⟨opening, us, rfl, hopening, hus⟩ := List.map_eq_cons_iff.mp hts
    obtain ⟨inner, vs, rfl, hinner, hvs⟩ := List.map_eq_append_iff.mp hus
    obtain ⟨closing, rfl, hclosing⟩ := List.map_eq_singleton_iff.mp hvs
    obtain ⟨hopen, _⟩ := Prod.mk.inj hopening
    obtain ⟨hclose, _⟩ := Prod.mk.inj hclosing
    obtain ⟨members, hmembers, heq⟩ := exists_reads_of_forall (fun p hp ts => ih p hp) hinner
    have hmembers' : members ≠ [] := by
      rintro rfl
      simp [Phrase.termAll_eq_map, hne] at heq
    refine ⟨_, .group hopen hmembers hmembers' hclose .nil, ?_⟩
    simp [Group.term, Group.nodes_foldl_add, Phrase.term, heq]

theorem exists_reads_of_over (meaning : Name → Term) {ps : List Phrase} (h : ∀ p ∈ ps, p.Over names)
    (hmeaning : ∀ n ∈ names, ∃ d, scope.find? n.text = some d
      ∧ d.expand.spanless = (meaning n).spanless)
    (hts : ts.map Token.lexeme = Phrase.lexemesAll ps)
    : ∃ terms, Reads scope ts terms
        ∧ terms.map Term.spanless = (Phrase.termAll meaning ps).map Term.spanless := by
  apply exists_reads_of_forall _ hts
  intro p hp ts hts
  exact (h p hp).exists_reads hmeaning hts

theorem exists_reads_of_filled {body : List Term} (h : Filled body)
    (hts : ts.map Token.lexeme = Phrase.lexemesAll (Term.phraseAll body))
    : ∃ terms, Reads scope ts terms ∧ terms.map Term.spanless = body.map Term.spanless := by
  have hover : ∀ p ∈ Term.phraseAll body, p.Over [] := h.phraseAll_over
  obtain ⟨terms, hterms, heq⟩ := exists_reads_of_over (fun _ => default) hover (by simp) hts
  refine ⟨terms, hterms, heq.trans ?_⟩
  simp [Phrase.termAll_eq_map, Term.phraseAll_eq_map, Term.spanless_term_phrase]

end Reading

section Rules

theorem exists_defines (rules : List Rule) (ds : Definitions) {ts : List Token}
    (hts : ts.map Token.lexeme = rules.flatMap Rule.lexemes)
    : ∃ es, Defines ds ts es ∧ ∀ name, (es.find? name).map (·.expand.spanless)
        = ((rules.reverse.find? (·.name.text = name)).map (·.term.spanless)).or
            ((ds.find? name).map (·.expand.spanless)) := by
  induction rules generalizing ds ts with
  | nil =>
    rw [List.flatMap_nil, List.map_eq_nil_iff] at hts
    subst hts
    exact ⟨ds, .nil ds, by simp⟩
  | cons r rules ih =>
    obtain ⟨us, rest, rfl, hus, hrest⟩ := List.map_eq_append_iff.mp hts
    obtain ⟨name, us, rfl, hname, hus⟩ := List.map_eq_cons_iff.mp hus
    obtain ⟨sign, body, rfl, hsign, hbody⟩ := List.map_eq_cons_iff.mp hus
    obtain ⟨hnameTag, hnameText⟩ := Prod.mk.inj hname
    obtain ⟨hsignTag, _⟩ := Prod.mk.inj hsign
    obtain ⟨terms, hterms, heq⟩ := exists_reads_of_filled r.filled hbody
    have hne : terms ≠ [] := by
      rintro rfl
      have := r.filled.ne_nil
      simp_all
    obtain ⟨es, hes, hfind⟩ := ih (ds.define ⟨name.text, Group.ofNodes terms none, name.span⟩) hrest
    refine ⟨es, .cons hnameTag hsignTag hterms hne hes, ?_⟩
    intro text
    have hexpand : (Definition.mk name.text (Group.ofNodes terms none) name.span).expand.spanless
        = r.term.spanless := by
      simp [Definition.expand, Group.term, Group.nodes_foldl_add, Rule.term, heq]
    -- A later rule for the same name wins, in the list of rules as among the definitions.
    rw [hfind, Definitions.find?_define, List.reverse_cons, List.find?_append, Option.map_or,
      Option.or_assoc]
    by_cases htext : name.text = text
    . have hsingle : [r].find? (·.name.text = text) = some r := by simp [← hnameText, htext]
      rw [if_pos htext, hsingle, Option.map_some, hexpand, Option.map_some, Option.some_or]
    . have hsingle : [r].find? (·.name.text = text) = none := by simp [← hnameText, htext]
      rw [if_neg htext, hsingle, Option.map_none, Option.none_or]

end Rules

theorem Source.exists_find? (s : Source) {n : Name} (h : n ∈ s.rules.map Rule.name)
    : ∃ t, s.find? n.text = some t := by
  obtain ⟨r, hr, rfl⟩ := List.mem_map.mp h
  have : (s.rules.reverse.find? (·.name.text = r.name.text)).isSome := by
    rw [List.find?_isSome]
    exact ⟨r, by simpa using hr, by simp⟩
  obtain ⟨last, hlast⟩ := Option.isSome_iff_exists.mp this
  exact ⟨last.term, by rw [find?, hlast, Option.map_some]⟩

theorem Source.exists_describes (s : Source) {ts : List Token}
    (hts : ts.map Token.lexeme = s.lexemes)
    : ∃ program, Describes ts program ∧ program.complexity = s.complexity
        ∧ (∀ name, (program.definitions.find? name).map Definition.expand == s.find? name)
        ∧ program.task == s.terms := by
  obtain ⟨sign, us, rfl, hsign, hus⟩ := List.map_eq_cons_iff.mp hts
  obtain ⟨rules, us, rfl, hrules, hus⟩ := List.map_eq_append_iff.mp hus
  obtain ⟨question, us, rfl, hquestion, hus⟩ := List.map_eq_cons_iff.mp hus
  obtain ⟨hsignTag, _⟩ := Prod.mk.inj hsign
  obtain ⟨hquestionTag, _⟩ := Prod.mk.inj hquestion
  obtain ⟨ds, hds, hfind⟩ := exists_defines s.rules {} hrules
  have hfind (name : String) : ((ds.find? name).map Definition.expand).map Term.spanless
      = (s.find? name).map Term.spanless := by
    rw [Source.find?, Option.map_map, Option.map_map]
    have := hfind name
    rwa [show ({} : Definitions).find? name = none from rfl, Option.map_none, Option.or_none] at this
  have hmeaning : ∀ n ∈ s.rules.map Rule.name, ∃ d, (Scope.task ds).find? n.text = some d
      ∧ d.expand.spanless = (s.meaning n).spanless := by
    intro n hn
    obtain ⟨t, ht⟩ := s.exists_find? hn
    have := hfind n.text
    rw [ht, Option.map_map, Option.map_some, Option.map_eq_some_iff] at this
    obtain ⟨d, hd, heq⟩ := this
    exact ⟨d, hd, by rw [Source.meaning, ht, Option.getD_some, ← heq]; rfl⟩
  obtain ⟨terms, hterms, heq⟩ := exists_reads_of_over s.meaning s.task_over hmeaning hus
  have hne : terms ≠ [] := by
    rintro rfl
    have := s.task_ne_nil
    simp_all [Phrase.termAll_eq_map]
  refine ⟨_, .mk hsignTag hds hquestionTag hterms hne, rfl, ?_, ?_⟩
  . intro name
    rw [option_beq_iff_map_spanless]
    exact hfind name
  . rw [beq_iff_map_spanless]
    exact heq

end Combinatory
