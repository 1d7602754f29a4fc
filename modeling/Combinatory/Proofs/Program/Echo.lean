import Combinatory.Proofs.Program.Clauses
import Combinatory.Proofs.Term.Same
import Combinatory.Token.Echo

/-!
The echo of a program against the terms that are read from it. Terms are `Written` by their symbols
and brackets, and by something for every name: with the bodies of the names that is what `render`
writes, and with the letter `c` it is what the echo shows. So the echo of a program is a line for
its complexity, one for each clause and one for its task: `echo_of_accepted`.
-/

namespace Combinatory

/--
The tokens spell the terms, and `text` is how the terms are written if a name is written as `write`
says.
-/
inductive Written (scope : Scope) (write : Definition → String)
    : List Token → List Term → String → Prop where
  | nil : Written scope write [] [] ""
  | primitive {t : Token} {c : Combinator} {tokens : List Token} {terms : List Term} {text : String}
    (htag : t.tag = .primitive c) (h : Written scope write tokens terms text)
    : Written scope write (t :: tokens) (.primitive c t.span :: terms) (c.symbol.toString ++ text)
  | name {t : Token} {d : Definition} {tokens : List Token} {terms : List Term} {text : String}
    (htag : t.tag = .name) (hfind : scope.find? t.text = some d)
    (h : Written scope write tokens terms text)
    : Written scope write (t :: tokens) (d.expand :: terms) (write d ++ text)
  | group {opening closing : Token} {inner tokens : List Token} {members terms : List Term}
    {inside text : String} (hopening : opening.tag = .leftBracket)
    (hinner : Written scope write inner members inside) (hclosing : closing.tag = .rightBracket)
    (h : Written scope write tokens terms text)
    : Written scope write (opening :: (inner ++ closing :: tokens))
        ((Group.ofNodes members none).term :: terms) ("(" ++ inside ++ ")" ++ text)

section Reading

variable {scope : Scope} {write : Definition → String} {ts : List Token} {terms : List Term}
  {text : String} {inTask : Bool}

theorem Written.eq_render (h : Written scope write ts terms text)
    (hwrite : ∀ name d, scope.find? name = some d → write d = d.expand.text)
    : text = render terms := by
  rw [← String.toList_inj, toList_render]
  induction h with
  | nil => simp
  | primitive _ _ ih => simp [ih]
  | name _ hfind _ ih => simp [ih, hwrite _ _ hfind, Term.text]
  | group _ _ _ _ ihinner ih => simp [ih, ihinner, Group.term, Group.nodes_foldl_add]

theorem Written.newline_not_mem (h : Written scope write ts terms text)
    (hwrite : ∀ d, '\n' ∉ (write d).toList)
    : '\n' ∉ text.toList := by
  induction h with
  | nil => simp
  | @primitive _ c _ _ _ _ _ ih => cases c <;> simpa [Combinator.symbol] using ih
  | name _ _ _ ih => simpa [ih] using hwrite _
  | group _ _ _ _ ihinner ih => simp [ih, ihinner]

theorem Reads.exists_written (h : Reads scope ts terms) (write : Definition → String)
    : ∃ text, Written scope write ts terms text := by
  induction h with
  | nil => exact ⟨_, .nil⟩
  | primitive htag _ ih =>
    obtain ⟨text, htext⟩ := ih
    exact ⟨_, .primitive htag htext⟩
  | name htag hfind _ ih =>
    obtain ⟨text, htext⟩ := ih
    exact ⟨_, .name htag hfind htext⟩
  | group hopening _ _ hclosing _ ihinner ih =>
    obtain ⟨inside, hinside⟩ := ihinner
    obtain ⟨text, htext⟩ := ih
    exact ⟨_, .group hopening hinside hclosing htext⟩

theorem Reads.written_definition (h : Reads .definition ts terms) (write : Definition → String)
    : Written .definition write ts terms (render terms) := by
  obtain ⟨text, htext⟩ := h.exists_written write
  rwa [← htext.eq_render (by simp [Scope.find?])]

theorem Clause.Row.newline_not_mem {last : Token} {tokens rest : List Token} {cs : List Clause}
    (h : Clause.Row last tokens cs rest)
    : ∀ c ∈ cs, '\n' ∉ (render c.terms).toList := by
  intro c hc
  obtain ⟨_, _, _, _, hbody⟩ := h.exists_body c hc
  exact (hbody.written_definition fun _ => "c").newline_not_mem (by simp)

namespace echo

variable {tag : Tag} {acc : String} {tags : List Tag}

theorem go_plain (hbefore : Echo.before inTask tag = "") (hbehind : Echo.behind tag = "")
    (htag : tag ≠ .questionSign)
    : go acc inTask (tag :: tags) = go (acc ++ tag.symbol) inTask tags := by
  simp [go, hbefore, hbehind, htag]

theorem go_definition
    : go acc false (.name :: .equalSign :: tags) = go (acc ++ "\n" ++ "c = ") false tags := by
  simp only [go, Echo.before, Echo.behind, Tag.symbol, String.append_assoc]
  rfl

theorem go_questionSign
    : go acc inTask (.questionSign :: tags) = go (acc ++ "\n" ++ "? ") true tags := by
  simp only [go, Echo.before, Echo.behind, Tag.symbol, String.append_assoc]
  simp

theorem go_of_written (h : Written scope (fun _ => "c") ts terms text)
    (hscope : ∀ name d, scope.find? name = some d → inTask = true) (acc : String)
    (rest : List Tag)
    : go acc inTask (ts.map Token.tag ++ rest) = go (acc ++ text) inTask rest := by
  induction h generalizing acc rest with
  | nil => rw [List.map_nil, List.nil_append, String.append_empty]
  | primitive htag _ ih =>
    rw [List.map_cons, List.cons_append, htag, go_plain rfl rfl (by simp), ih, String.append_assoc]
    rfl
  | name htag hfind _ ih =>
    have hbefore : Echo.before inTask .name = "" := by
      simp [Echo.before, hscope _ _ hfind]
    rw [List.map_cons, List.cons_append, htag, go_plain hbefore rfl (by simp), ih,
      String.append_assoc]
    rfl
  | group hopening _ hclosing _ ihinner ih =>
    rw [List.map_cons, List.map_append, List.map_cons, List.cons_append, List.append_assoc,
      List.cons_append, hopening, hclosing, go_plain rfl rfl (by simp), ihinner,
      go_plain rfl rfl (by simp), ih]
    simp only [String.append_assoc]
    rfl

theorem go_of_row {last : Token} {tokens rest : List Token} {cs : List Clause}
    (h : Clause.Row last tokens cs rest) (acc : String) (tags : List Tag)
    : go acc false (tokens.map Token.tag ++ tags)
        = go (acc ++ String.join (cs.map fun c => "\n" ++ ("c = " ++ render c.terms))) false
          (rest.map Token.tag ++ tags) := by
  induction h generalizing acc with
  | none => rw [List.map_nil, String.join_nil, String.append_empty]
  | more hhead _ ih =>
    cases hhead with
    | mk hname hsign hbody =>
      have hwritten := hbody.written_definition fun _ => "c"
      rw [List.map_cons, List.map_cons, List.map_append, hname, hsign, List.cons_append,
        List.cons_append, List.append_assoc, go_definition,
        go_of_written hwritten (by simp [Scope.find?]), ih]
      simp only [List.map_cons, String.join_cons, String.append_assoc]

end echo

end Reading

section Programs

variable {sign question last : Token} {body tokens us : List Token} {cs : List Clause}
  {ds : Definitions} {terms : List Term} {complexity : Complexity} {task : String}

def Echo.lines (complexity : Complexity) (cs : List Clause) (task : String) : List String :=
  complexity.word :: ((cs.map fun c => "c = " ++ render c.terms) ++ ["? " ++ task ++ "$"])

theorem intercalate_cons_eq_append_join (separator line : String) (lines : List String)
    : separator.intercalate (line :: lines)
        = line ++ String.join (lines.map fun line => separator ++ line) := by
  induction lines generalizing line with
  | nil => simp
  | cons next lines ih =>
    rw [String.intercalate_cons_cons, ih, List.map_cons, String.join_cons, String.append_assoc,
      String.append_assoc]

theorem echo_eq_intercalate (hsign : sign.tag = .complexity complexity)
    (hrow : Clause.Row last tokens cs (question :: us)) (hquestion : question.tag = .questionSign)
    (hus : Written (.task ds) (fun _ => "c") us terms task) (hlast : last.tag = .endOfProgram)
    : echo ((sign :: tokens ++ [last]).map Token.tag)
        = "\n".intercalate (Echo.lines complexity cs task) := by
  rw [echo, List.map_append, List.map_cons, List.cons_append, hsign,
    echo.go_plain rfl rfl (by simp), echo.go_of_row hrow, List.map_cons, List.cons_append,
    hquestion, echo.go_questionSign, echo.go_of_written hus (by simp), List.map_singleton, hlast,
    echo.go_plain rfl rfl (by simp), echo.go]
  rw [Echo.lines, intercalate_cons_eq_append_join]
  simp only [Tag.symbol, List.map_append, List.map_cons, List.map_nil, List.map_map,
    Function.comp_def, String.join_append, String.join_cons, String.join_nil, String.append_assoc,
    String.empty_append, String.append_empty]

theorem Echo.splitOn_lines (hcs : ∀ c ∈ cs, '\n' ∉ (render c.terms).toList)
    (htask : '\n' ∉ task.toList)
    : ("\n".intercalate (lines complexity cs task)).toList.splitOn '\n'
        = (lines complexity cs task).map String.toList := by
  rw [String.toList_intercalate]
  apply List.splitOn_intercalate
  . have hword : '\n' ∉ complexity.word.toList := by cases complexity <;> decide
    simp only [lines, List.forall_mem_map, List.forall_mem_cons, List.forall_mem_append]
    refine ⟨hword, fun c hc => ?_, ?_⟩
    . simpa using hcs c hc
    . simpa using htask
  . simp [lines]

theorem echo_of_accepted (hbody : Token.Accepted body) (hlast : last.tag = .endOfProgram)
    (warns : Bool)
    : ∃ program cs question us task, (parse (body ++ [last]) warns).result = .ok program
        ∧ (∀ others, Clause.Complete last body others ↔ others = cs)
        ∧ program.definitions = ({} : Definitions).defineAll cs
        ∧ body.dropWhile (·.tag ≠ .questionSign) = question :: us
        ∧ Written (.task program.definitions) (fun _ => "c") us program.task task
        ∧ echo ((body ++ [last]).map Token.tag)
          = "\n".intercalate (Echo.lines program.complexity cs task)
        ∧ ((echo ((body ++ [last]).map Token.tag)).toList.splitOn '\n').length = cs.length + 2 := by
  obtain ⟨program, hprogram⟩ := exists_describes_of_accepted hbody
  obtain ⟨sign, tokens, cs, htext, hsign, hrow, hcs, hdefinitions⟩ :=
    Clause.exists_row_of_describes hprogram last
  have hparse := parse_eq_ok_of_describes hprogram hlast warns
  have hclauses := hrow.newline_not_mem
  cases hprogram with
  | @mk _ question complexity ts us ds _ hsign' hts hquestion hus =>
    have hdrop := dropWhile_program hsign' hts hquestion us
    rw [hdrop] at hrow
    obtain ⟨task, htask⟩ := hus.exists_written fun _ => "c"
    have hecho := echo_eq_intercalate hsign hrow hquestion htask hlast
    rw [← htext] at hecho
    refine ⟨_, cs, question, us, task, hparse, hcs.iff_eq hlast, hdefinitions, hdrop, htask, hecho,
      ?_⟩
    rw [hecho, Echo.splitOn_lines hclauses (htask.newline_not_mem (by simp)), List.length_map]
    simp [Echo.lines]

theorem echo_of_accepted_of_redefined
    : let tokens : List Token :=
        [(.complexity .exponential, "exp"), (.name, "C1"), (.equalSign, "="), (.primitive .K, "K"),
          (.leftBracket, "("), (.primitive .S, "S"), (.primitive .I, "I"), (.rightBracket, ")"),
          (.name, "C1"), (.equalSign, "="), (.primitive .I, "I"), (.questionSign, "?"),
          (.primitive .S, "S"), (.leftBracket, "("), (.primitive .K, "K"), (.name, "C1"),
          (.rightBracket, ")"), (.name, "C1")].map fun (tag, text) => ⟨tag, default, text⟩
      let last : Token := ⟨.endOfProgram, default, ""⟩
      Token.Accepted tokens ∧ last.tag = .endOfProgram
        ∧ echo ((tokens ++ [last]).map Token.tag) = "exp\nc = K(SI)\nc = I\n? S(Kc)c$"
        ∧ ∃ program cs task, (parse (tokens ++ [last]) true).result = .ok program
          ∧ Clause.Complete last tokens cs ∧ cs.length = 2
          ∧ Written (.task program.definitions) (fun _ => "c") (tokens.drop 12) program.task task
          ∧ echo ((tokens ++ [last]).map Token.tag)
            = "\n".intercalate (Echo.lines program.complexity cs task) := by
  intro tokens last
  have haccepted : Token.Accepted tokens := by
    constructor
    . exact .program .exponential
        (.moreDefinitions (.definition (.moreTerms (.primitive _ .K) (.oneTerm
            (.group (.moreTerms (.primitive _ .S) (.oneTerm (.primitive _ .I)))))))
          (.moreDefinitions (.definition (.oneTerm (.primitive _ .I))) .noDefinition))
        (.moreTerms (.primitive _ .S) (.moreTerms
          (.group (.moreTerms (.primitive _ .K) (.oneTerm .name))) (.oneTerm .name)))
    . decide
  have htext : echo ((tokens ++ [last]).map Token.tag) = "exp\nc = K(SI)\nc = I\n? S(Kc)c$" := by
    decide +kernel
  obtain ⟨program, cs, question, us, task, hparse, hcs, _, hdrop, htask, hecho, hlines⟩ :=
    @echo_of_accepted last tokens haccepted rfl true
  obtain ⟨_, rfl⟩ := List.cons.inj (hdrop.symm.trans rfl)
  have hcount : ("exp\nc = K(SI)\nc = I\n? S(Kc)c$".toList.splitOn '\n').length = 4 := by
    decide +kernel
  rw [htext, hcount] at hlines
  exact ⟨haccepted, rfl, htext, program, cs, task, hparse, (hcs cs).mpr rfl, by omega, htask, hecho⟩

end Programs

end Combinatory
