import Combinatory.Proofs.Program.Clauses
import Combinatory.Proofs.Program.Unwarned

namespace Combinatory

namespace Token

def redefinition (name : Token) : Message where
  severity := .warning
  text := "user_combinator " ++ name.text ++ " redefined"
  position := some name.position

end Token

def redefinition? (known : List String) (name : Token) : List Message :=
  if name.text ∈ known then [name.redefinition] else []

/--
The warnings for definitions of `names`, one after the other, behind definitions of `known`.
-/
def redefinitions (known : List String) : List Token → List Message
  | [] => []
  | name :: names => redefinition? known name ++ redefinitions (name.text :: known) names

theorem redefinition?_congr {known known' : List String} {name : Token}
    (h : name.text ∈ known ↔ name.text ∈ known')
    : redefinition? known name = redefinition? known' name := by
  rw [redefinition?, redefinition?, if_congr h rfl rfl]

theorem redefinitions_eq_flatten (known : List String) (names : List Token)
    : redefinitions known names
        = (names.mapIdx fun i name =>
            redefinition? (known ++ (names.take i).map Token.text) name).flatten := by
  induction names generalizing known with
  | nil => rfl
  | cons name names ih =>
    rw [redefinitions, ih, List.mapIdx_cons, List.flatten_cons]
    have hothers (i : Nat) (other : Token)
        : redefinition? (name.text :: known ++ (names.take i).map Token.text) other
          = redefinition? (known ++ ((name :: names).take (i + 1)).map Token.text) other := by
      apply redefinition?_congr
      simp [or_left_comm]
    simp only [hothers]
    simp

theorem exists_name_of_mem_redefinitions {known : List String} {names : List Token} {m : Message}
    (h : m ∈ redefinitions known names)
    : ∃ name ∈ names, m = name.redefinition := by
  induction names generalizing known with
  | nil => cases h
  | cons name names ih =>
    rw [List.exists_mem_cons_iff]
    rw [redefinitions, List.mem_append] at h
    obtain h | h := h
    . unfold redefinition? at h
      split at h
      . exact .inl (List.mem_singleton.mp h)
      . cases h
    . exact .inr (ih h)

theorem redefinitions_eq_nil_iff (known : List String) (names : List Token)
    : redefinitions known names = []
        ↔ (∀ name ∈ names, name.text ∉ known) ∧ (names.map Token.text).Nodup := by
  induction names generalizing known with
  | nil => simp [redefinitions]
  | cons name names ih =>
    have hfirst : redefinition? known name = [] ↔ name.text ∉ known := by
      simp [redefinition?]
    rw [redefinitions, List.append_eq_nil_iff, hfirst, ih, List.map_cons, List.nodup_cons,
      List.forall_mem_cons]
    constructor
    . rintro ⟨hname, hothers, hnodup⟩
      refine ⟨⟨hname, fun other h => ?_⟩, ?_, hnodup⟩
      . exact fun hknown => hothers other h (List.mem_cons_of_mem _ hknown)
      . rw [List.mem_map]
        rintro ⟨other, h, htext⟩
        exact hothers other h (by rw [htext]; exact List.mem_cons_self)
    . rintro ⟨⟨hname, hothers⟩, htext, hnodup⟩
      refine ⟨hname, fun other h => ?_, hnodup⟩
      rw [List.mem_cons, not_or]
      refine ⟨fun heq => htext ?_, hothers other h⟩
      rw [← heq]
      exact List.mem_map_of_mem h

namespace Parser

structure Keeps (p q : Parser) : Prop where
  definitions : q.definitions = p.definitions
  warnings : q.warnings = p.warnings

section Keeping

variable {p q r : Parser} {scope : Scope} {fault : ParseFault}

theorem Keeps.refl (p : Parser) : Keeps p p :=
  ⟨rfl, rfl⟩

theorem Keeps.trans (h : Keeps p q) (h' : Keeps q r) : Keeps p r :=
  ⟨h'.definitions.trans h.definitions, h'.warnings.trans h.warnings⟩

theorem keeps_next (p : Parser) : Keeps p p.next := by
  unfold next
  split
  . exact .refl p
  . exact ⟨rfl, rfl⟩

theorem keeps_expect {tag : Tag} {expectation : Expectation} {result : Except ParseFault Unit}
    (h : p.expect tag expectation = (q, result))
    : Keeps p q := by
  unfold expect at h
  split at h
  . cases h
    exact keeps_next p
  . cases h
    exact .refl p

theorem keeps_readComplexity {result : Except ParseFault Complexity}
    (h : p.readComplexity = (q, result))
    : Keeps p q := by
  unfold readComplexity at h
  split at h
  . next complexity _ =>
    cases h
    have hsigned : Keeps p { p with complexity := some complexity } := ⟨rfl, rfl⟩
    exact hsigned.trans (keeps_next _)
  . cases h
    exact .refl p

theorem keeps_readTerms {body body' : Group} {result : Except ParseFault Unit}
    (h : p.readTerms scope body = (q, body', result))
    : Keeps p q := by
  have hterm {p q : Parser} {result : Except ParseFault Term} (h : p.readTerm scope = (q, result))
      : Keeps p q := by
    cases h
    exact ⟨rfl, rfl⟩
  fun_induction readTerms p scope body with
  | case1 _ _ _ _ hread =>
    obtain ⟨rfl, _⟩ := Prod.mk.inj h
    exact hterm hread
  | case2 _ _ _ _ hread _ _ ih => exact (hterm hread).trans (ih h)
  | case3 _ _ _ _ hread =>
    obtain ⟨rfl, _⟩ := Prod.mk.inj h
    exact hterm hread

theorem keeps_readTask {result : Except ParseFault Unit} (h : p.readTask = (q, result))
    : Keeps p q := by
  obtain ⟨_, _, hread, rfl⟩ := exists_readTerms_of_readTask h
  obtain ⟨hdefinitions, hwarnings⟩ := keeps_readTerms hread
  exact ⟨hdefinitions, hwarnings⟩

theorem keeps_readDefinition_of_error (h : p.readDefinition = (q, .error fault)) : Keeps p q := by
  unfold readDefinition at h
  split at h
  . next hnamed =>
    cases h
    exact keeps_expect hnamed
  . next hnamed =>
    split at h
    . next hequated =>
      cases h
      exact (keeps_expect hnamed).trans (keeps_expect hequated)
    . next hequated =>
      split at h
      . next hread =>
        cases h
        exact ((keeps_expect hnamed).trans (keeps_expect hequated)).trans (keeps_readTerms hread)
      . simp at h

end Keeping

section Definitions

variable {p q : Parser} {known : List String} {result : Except ParseFault Unit}

theorem warnings_define (hknown : ∀ name, p.definitions.contains name ↔ name ∈ known)
    (name : Token) (body : Group)
    : (p.define name body).warnings = p.warnings.map (· ++ (redefinition? known name).toArray) := by
  unfold define redefinition?
  by_cases hname : name.text ∈ known
  . rw [if_pos ((hknown _).mpr hname), if_pos hname]
    simp only [warn, ← Array.push_eq_append]
    rfl
  . rw [if_neg (mt (hknown _).mp hname), if_neg hname]
    simp

theorem exists_row_of_readDefinitions (h : p.readDefinitions = (q, result))
    (hknown : ∀ name, p.definitions.contains name ↔ name ∈ known)
    : ∃ cs rest, Clause.Row p.last p.rest cs rest
        ∧ q.warnings = p.warnings.map (· ++ (redefinitions known (cs.map Clause.name)).toArray) := by
  fun_induction readDefinitions p generalizing known with
  | case1 p hcurrent p' fault hread =>
    cases h
    have hkeeps := keeps_readDefinition_of_error hread
    refine ⟨[], p.rest, .none fun c rest hhead => ?_, by simp [hkeeps.warnings, redefinitions]⟩
    obtain ⟨_, _, hread'⟩ := readDefinition_of_heads hhead
    cases hread.symm.trans hread'
  | case2 p hcurrent p' hread ih =>
    obtain ⟨c, ts, rest, hhead, _, hp'⟩ := exists_heads_of_readDefinition hread
    have hwarnings : p'.warnings
        = p.warnings.map (· ++ (redefinition? known c.name).toArray) := by
      rw [hp']
      exact warnings_define (p := p.behind ts rest) hknown c.name _
    have hknown' (other : String)
        : p'.definitions.contains other ↔ other ∈ c.name.text :: known := by
      rw [hp', definitions_define, Definitions.contains_define_iff, definitions_behind, hknown,
        List.mem_cons, or_comm, eq_comm]
    obtain ⟨cs, rest', hrow, hothers⟩ := ih h hknown'
    rw [hp', define_rest, rest_behind, define_last, last_behind] at hrow
    refine ⟨c :: cs, rest', .more hhead hrow, ?_⟩
    rw [hothers, hwarnings, List.map_cons, redefinitions]
    simp [Function.comp_def]
  | case3 p hcurrent =>
    cases h
    refine ⟨[], q.rest, .none fun c rest hhead => hcurrent ?_, by simp [redefinitions]⟩
    rw [← hhead.tag_name, ← hhead.headD_eq]
    rfl

end Definitions

section Programs

variable {p q : Parser} {result : Except ParseFault Program}

theorem parse_stages (h : p.parse = (q, result))
    : ((∀ complexity, p.current.tag ≠ .complexity complexity) ∧ Keeps p q)
        ∨ ∃ sign complexity p₁ p₂ read, sign.tag = .complexity complexity
          ∧ p.rest = sign :: p₁.rest ∧ p₁.last = p.last ∧ Keeps p p₁
          ∧ p₁.readDefinitions = (p₂, read) ∧ Keeps p₂ q := by
  unfold parse at h
  split at h
  . next hcomplexity =>
    cases h
    refine .inl ⟨fun complexity hcurrent => ?_, keeps_readComplexity hcomplexity⟩
    simp [readComplexity, hcurrent] at hcomplexity
  . next p₁ complexity hcomplexity =>
    obtain ⟨sign, rest, hrest, hsign⟩ := exists_rest_of_readComplexity hcomplexity
    have hp₁ := hcomplexity
    rw [readComplexity_of_rest hrest hsign] at hp₁
    have hkeeps := keeps_readComplexity hcomplexity
    refine .inr ⟨sign, complexity, p₁, ?_⟩
    cases hp₁
    split at h
    . next hread =>
      cases h
      exact ⟨_, _, hsign, hrest, rfl, hkeeps, hread, .refl q⟩
    . next p₂ hread =>
      refine ⟨p₂, _, hsign, hrest, rfl, hkeeps, hread, ?_⟩
      split at h
      . next hexpect =>
        cases h
        exact keeps_expect hexpect
      . next p₃ hexpect =>
        apply (keeps_expect hexpect).trans
        split at h
        . next htask =>
          cases h
          exact keeps_readTask htask
        . next htask =>
          split at h
          . cases h
            exact keeps_readTask htask
          . cases h
            exact keeps_readTask htask

theorem exists_complete_of_parse (h : p.parse = (q, result)) (hdefinitions : p.definitions = {})
    : ∃ cs, Clause.Complete p.last p.rest cs
        ∧ q.warnings = p.warnings.map (· ++ (redefinitions [] (cs.map Clause.name)).toArray) := by
  obtain ⟨hcurrent, hkeeps⟩
    | ⟨sign, complexity, p₁, p₂, read, hsign, hrest, hlast, hkeeps, hread, hkeeps'⟩ :=
    parse_stages h
  . refine ⟨[], .none hcurrent, ?_⟩
    rw [hkeeps.warnings]
    simp [redefinitions]
  . have hnone (name : String) : p₁.definitions.contains name ↔ name ∈ ([] : List String) := by
      simp [hkeeps.definitions, hdefinitions, Definitions.contains, Definitions.find?]
    obtain ⟨cs, rest, hrow, hwarnings⟩ := exists_row_of_readDefinitions hread hnone
    rw [hlast] at hrow
    refine ⟨cs, ?_, ?_⟩
    . rw [hrest]
      exact .behind hsign hrow
    . rw [hkeeps'.warnings, hwarnings, hkeeps.warnings]

end Programs

end Parser

section Results

variable {body : List Token} {last : Token}

theorem exists_complete_warnings (body : List Token) (hlast : last.tag = .endOfProgram)
    : ∃ cs, Clause.Complete last body cs
        ∧ (parse (body ++ [last]) true).warnings
          = some (redefinitions [] (cs.map Clause.name)).toArray := by
  let p : Parser := { rest := body, last, last_tag := hlast }
  have hparse : p.parse = (p.parse.1, p.parse.2) := rfl
  obtain ⟨cs, hcs, hwarnings⟩ := Parser.exists_complete_of_parse hparse rfl
  refine ⟨cs, hcs, ?_⟩
  rw [parse, Parser.ofTokens?_append hlast]
  simpa [p] using hwarnings

theorem warnings_of_complete (hlast : last.tag = .endOfProgram) {cs : List Clause}
    (h : Clause.Complete last body cs)
    : (parse (body ++ [last]) true).warnings
        = some (redefinitions [] (cs.map Clause.name)).toArray := by
  obtain ⟨others, hothers, hwarnings⟩ := exists_complete_warnings body hlast
  rw [hwarnings, h.unique hlast hothers]

theorem exists_warnings_eq_some (body : List Token) (hlast : last.tag = .endOfProgram)
    : ∃ ms, (parse (body ++ [last]) true).warnings = some ms := by
  obtain ⟨_, _, hwarnings⟩ := exists_complete_warnings body hlast
  exact ⟨_, hwarnings⟩

theorem exists_name_of_mem_warnings (hlast : last.tag = .endOfProgram) {m : Message}
    (h : m ∈ (parse (body ++ [last]) true).warnings.getD #[])
    : ∃ name ∈ body, m = name.redefinition := by
  obtain ⟨cs, hcs, hwarnings⟩ := exists_complete_warnings body hlast
  rw [hwarnings, Option.getD_some, List.mem_toArray] at h
  obtain ⟨name, hname, rfl⟩ := exists_name_of_mem_redefinitions h
  obtain ⟨c, hc, rfl⟩ := List.mem_map.mp hname
  exact ⟨c.name, hcs.name_mem c hc, rfl⟩

theorem warnings_of_describes (hlast : last.tag = .endOfProgram) {program : Program}
    (h : Describes body program)
    : (parse (body ++ [last]) true).warnings
        = some (redefinitions []
            (Token.names (body.takeWhile (·.tag ≠ .questionSign)))).toArray := by
  obtain ⟨sign, tokens, cs, hbody, hsign, hrow, hcs, _⟩ := Clause.exists_row_of_describes h last
  have hsplit : Token.names (body.takeWhile (·.tag ≠ .questionSign))
        ++ Token.names (body.dropWhile (·.tag ≠ .questionSign)) = Token.names body := by
    rw [Token.names, Token.names, ← List.filter_append, List.takeWhile_append_dropWhile,
      Token.names]
  have hnames : Token.names body = Token.names tokens := by
    simp [Token.names, hbody, hsign]
  rw [hnames, hrow.names_eq] at hsplit
  rw [warnings_of_complete hlast hcs, List.append_cancel_right hsplit]

theorem warnings_eq_empty_iff (hlast : last.tag = .endOfProgram) {program : Program}
    (h : Describes body program)
    : (parse (body ++ [last]) true).warnings = some #[] ↔ (Token.definedNames body).Nodup := by
  have hnil := redefinitions_eq_nil_iff []
    (Token.names (body.takeWhile (·.tag ≠ .questionSign)))
  have hempty (ms : List Message) : some ms.toArray = some #[] ↔ ms = [] := by simp
  rw [warnings_of_describes hlast h, hempty, hnil]
  simp [Token.definedNames, Token.names]

/--
The tokens alone say which clauses are complete. Each of them earns a warning if an earlier one has
its name, whatever becomes of the parse. The definitions of a program have the names of the clauses,
in the order in which they come up first, and each of them is the last clause for its name.
-/
theorem parse_definitions (hlast : last.tag = .endOfProgram)
    (hbody : ∀ t ∈ body, t.tag ≠ .endOfProgram)
    : ∃ cs, (∀ others, Clause.Complete last body others ↔ others = cs)
        ∧ (parse (body ++ [last]) true).warnings
          = some (cs.mapIdx fun i c =>
              redefinition? ((cs.take i).map (·.name.text)) c.name).flatten.toArray
        ∧ (∀ program, (parse (body ++ [last]) true).result = .ok program
          → program.definitions.names = (cs.map (·.name.text)).eraseDups
            ∧ ∀ name, program.definitions.find? name
              = (cs.reverse.find? (·.name.text = name)).map Clause.definition)
        ∧ (parse (body ++ [last]) false).result = (parse (body ++ [last]) true).result
        ∧ (parse (body ++ [last]) false).warnings = none := by
  obtain ⟨cs, hcs, hwarnings⟩ := exists_complete_warnings body hlast
  refine ⟨cs, hcs.iff_eq hlast, ?_, ?_, ?_⟩
  . rw [hwarnings, redefinitions_eq_flatten]
    simp [List.mapIdx_eq_zipIdx_map, List.zipIdx_map, Function.comp_def]
  . intro program hprogram
    rw [parse_eq_ok_iff hlast hbody] at hprogram
    obtain ⟨_, _, others, _, _, _, hothers, hdefinitions⟩ :=
      Clause.exists_row_of_describes hprogram last
    obtain rfl := hothers.unique hlast hcs
    rw [hdefinitions]
    refine ⟨Definitions.names_defineAll others, fun name => ?_⟩
    rw [Definitions.find?_defineAll]
    exact Option.or_none
  . rw [parse_unwarned]
    exact ⟨rfl, rfl⟩

theorem parse_definitions_of_again
    : let place (i : Nat) : Position := { column := i + 1, index := i }
      let span (i : Nat) : Span := ⟨place i, place (i + 1)⟩
      let tokens (used : String) : List Token :=
        [(.complexity .unbounded, "inf"), (.name, "C1"), (.equalSign, "="), (.primitive .K, "K"),
          (.name, "C01"), (.equalSign, "="), (.primitive .S, "S"), (.name, "C1"), (.equalSign, "="),
          (.primitive .I, "I"), (.questionSign, "?"), (.name, used)].mapIdx
            fun i (tag, text) => ⟨tag, span i, text⟩
      let last : Token := ⟨.endOfProgram, ⟨place 12, place 12⟩, ""⟩
      let warning : Message := ⟨.warning, "user_combinator C1 redefined", some (place 7)⟩
      (∃ program, (parse (tokens "C1" ++ [last]) true).result = .ok program
          ∧ program.definitions.names = ["C1", "C01"]
          ∧ (program.definitions.find? "C1").map (·.span) = some (span 7))
        ∧ (parse (tokens "C1" ++ [last]) true).warnings = some #[warning]
        ∧ (∃ signal, (parse (tokens "C2" ++ [last]) true).result = .error signal)
        ∧ (parse (tokens "C2" ++ [last]) true).warnings = some #[warning] := by
  intro place span tokens last warning
  let clause (i : Nat) (name : String) (c : Combinator) : Clause :=
    ⟨⟨.name, span i, name⟩, [.primitive c (span (i + 2))]⟩
  have hsingle {t : Token} {c : Combinator} (h : t.tag = .primitive c)
      : Reads .definition [t] [.primitive c t.span] := .primitive h .nil
  let clauses : List Clause := [clause 1 "C1" .K, clause 4 "C01" .S, clause 7 "C1" .I]
  have hcomplete (used : String) : Clause.Complete last (tokens used) clauses := by
    have hnone : ∀ c rest, ¬Clause.Heads last ((tokens used).drop 10) c rest := by
      intro c rest hhead
      have htag := hhead.tag_name
      rw [← hhead.headD_eq] at htag
      cases htag
    exact .behind rfl
      (.more (.mk rfl rfl (hsingle rfl) (by simp) rfl)
        (.more (.mk rfl rfl (hsingle rfl) (by simp) rfl)
          (.more (.mk rfl rfl (hsingle rfl) (by simp) rfl) (.none hnone))))
  have hparse (used : String)
      : (parse (tokens used ++ [last]) true).warnings = some #[warning]
        ∧ ∀ program, (parse (tokens used ++ [last]) true).result = .ok program
          → program.definitions.names = ["C1", "C01"]
            ∧ (program.definitions.find? "C1").map (·.span) = some (span 7) := by
    obtain ⟨cs, hcs, hwarnings, hok, _⟩ :=
      @parse_definitions (tokens used) last rfl (by simp [tokens])
    obtain rfl := (hcs _).mp (hcomplete used)
    refine ⟨hwarnings, fun program hprogram => ?_⟩
    obtain ⟨hnames, hfind⟩ := hok program hprogram
    exact ⟨hnames, by rw [hfind]; rfl⟩
  obtain ⟨hwarnings, hok⟩ := hparse "C1"
  obtain ⟨hwarnings', _⟩ := hparse "C2"
  have haccepted : Token.Accepted (tokens "C1") := by
    have hdefinition (c : Combinator)
        : Grammar.Derives .definition [.name, .equalSign, .primitive c] :=
      .definition (.oneTerm (.primitive _ c))
    constructor
    . exact .program .unbounded
        (.moreDefinitions (hdefinition .K)
          (.moreDefinitions (hdefinition .S)
            (.moreDefinitions (hdefinition .I) .noDefinition)))
        (.oneTerm .name)
    . decide
  have hlast : last.tag = .endOfProgram := rfl
  obtain ⟨program, hprogram⟩ := (exists_parse_eq_ok_iff hlast (by decide) true).mpr haccepted
  have hrejected : ¬Token.Accepted (tokens "C2") := by
    intro h
    exact absurd h.usedNames_subset (by decide)
  rw [← exists_parse_eq_ok_iff hlast (by decide) true] at hrejected
  obtain ⟨_, _, hresult⟩ := (parse_ok_or_complaint hlast true).resolve_left hrejected
  exact ⟨⟨program, hprogram, hok program hprogram⟩, hwarnings, ⟨_, hresult⟩, hwarnings'⟩

end Results

end Combinatory
