import Combinatory.Program.Parser
import Combinatory.Proofs.Program.Reading

namespace Combinatory

namespace Parser

def behind (p : Parser) (ts rest : List Token) : Parser :=
  { p with
    rest
    index := p.index + ts.length
    primitives := p.primitives + ts.countP Token.isPrimitive }

section Behind

variable (p : Parser) (ts us rest : List Token)

@[simp]
theorem rest_behind : (p.behind ts rest).rest = rest := rfl

@[simp]
theorem last_behind : (p.behind ts rest).last = p.last := rfl

@[simp]
theorem definitions_behind : (p.behind ts rest).definitions = p.definitions := rfl

@[simp]
theorem behind_behind (mid : List Token)
    : (p.behind ts mid).behind us rest = p.behind (ts ++ us) rest := by
  simp [behind, Nat.add_assoc]

end Behind

section Single

variable {p q : Parser} {t : Token} {ts rest : List Token}

theorem current_of_rest (h : p.rest = t :: rest) : p.current = t := by
  simp [current, h]

theorem current_tag_of_rest (h : p.rest = []) : p.current.tag = .endOfProgram := by
  simp [current, h, p.last_tag]

theorem next_of_rest (h : p.rest = t :: rest) (ht : t.isPrimitive = false)
    : p.next = p.behind [t] rest := by
  simp [next, behind, h, ht]

theorem exists_rest_of_tag {tag : Tag} (h : p.current.tag = tag) (htag : tag ≠ .endOfProgram)
    : ∃ t rest, p.rest = t :: rest ∧ t.tag = tag := by
  cases hrest : p.rest with
  | nil =>
    rw [current_tag_of_rest hrest] at h
    exact absurd h.symm htag
  | cons t rest =>
    rw [current_of_rest hrest] at h
    exact ⟨t, rest, rfl, h⟩

theorem expect_of_rest {tag : Tag} {expectation : Expectation} (hrest : p.rest = t :: rest)
    (htag : t.tag = tag) (ht : t.isPrimitive = false)
    : p.expect tag expectation = (p.behind [t] rest, .ok ()) := by
  rw [expect, current_of_rest hrest, if_pos htag, next_of_rest hrest ht]

theorem exists_rest_of_expect {tag : Tag} {expectation : Expectation}
    (hend : tag ≠ .endOfProgram) (hprimitive : ∀ c, tag ≠ .primitive c)
    (h : p.expect tag expectation = (q, .ok ()))
    : ∃ t rest, p.rest = t :: rest ∧ t.tag = tag ∧ q = p.behind [t] rest := by
  unfold expect at h
  split at h
  . next hcurrent =>
    obtain ⟨t, rest, hrest, htag⟩ := exists_rest_of_tag hcurrent hend
    refine ⟨t, rest, hrest, htag, ?_⟩
    cases h
    apply next_of_rest hrest
    unfold Token.isPrimitive
    split
    . next c hc => exact absurd (htag.symm.trans hc) (hprimitive c)
    . rfl
  . simp at h

theorem fault_of_expect {tag : Tag} {expectation : Expectation} {fault : ParseFault}
    (h : p.expect tag expectation = (q, .error fault))
    : fault.At q.current := by
  unfold expect at h
  split at h
  . simp at h
  . cases h
    exact .inl ⟨_, rfl⟩

end Single

section Terms

variable {p q : Parser} {scope : Scope} {ts rest : List Token} {terms : List Term} {term : Term}

theorem readTerm_of_reads (hrest : p.rest = ts ++ rest) (h : Reads scope ts [term])
    : p.readTerm scope = (p.behind ts rest, .ok term) := by
  unfold readTerm
  rw [hrest, Expression.read_term h, Expression.foldl_pass]
  simp [behind]

theorem exists_reads_of_readTerm (h : p.readTerm scope = (q, .ok term))
    : ∃ ts rest, p.rest = ts ++ rest ∧ Reads scope ts [term] ∧ q = p.behind ts rest := by
  obtain ⟨_, hread⟩ := Prod.mk.inj h
  obtain ⟨ts, hrest, hts⟩ := Expression.reads_of_read hread
  refine ⟨ts, _, hrest, hts, ?_⟩
  rw [readTerm_of_reads hrest hts] at h
  cases h
  rfl

theorem fault_of_readTerm {fault : ParseFault} (h : p.readTerm scope = (q, .error fault))
    : fault.At q.current := by
  obtain ⟨hq, hread⟩ := Prod.mk.inj h
  rw [← hq]
  exact Expression.fault_of_read hread

theorem readTerms_of_reads (body : Group) (hrest : p.rest = ts ++ rest) (h : Reads scope ts terms)
    (hterms : terms ≠ []) (hstop : scope.canBegin (rest.headD p.last).tag = false)
    : p.readTerms scope body = (p.behind ts rest, terms.foldl Group.add body, .ok ()) := by
  induction terms generalizing p ts body with
  | nil => contradiction
  | cons term terms ih =>
    obtain ⟨us, vs, rfl, hus, hfirst, hothers⟩ := h.exists_of_cons
    rw [List.append_assoc] at hrest
    unfold readTerms
    split
    . next hterm =>
      rw [readTerm_of_reads hrest hfirst] at hterm
      cases hterm
    . next hterm =>
      rw [readTerm_of_reads hrest hfirst] at hterm
      cases hterm
      cases terms with
      | nil =>
        cases hothers
        simp_all [current]
      | cons =>
        obtain ⟨t, vs', rfl⟩ := hothers.exists_cons
        -- The next term begins with a token that terms can begin with, so reading goes on.
        rw [if_pos (by simpa [current] using hothers.canBegin)]
        rw [ih _ (rest_behind ..) hothers (by simp) hstop]
        simp

theorem exists_reads_of_readTerms {body body' : Group}
    (h : p.readTerms scope body = (q, body', .ok ()))
    : ∃ ts rest terms, p.rest = ts ++ rest ∧ Reads scope ts terms ∧ terms ≠ []
        ∧ q = p.behind ts rest ∧ body' = terms.foldl Group.add body := by
  fun_induction readTerms p scope body with
  | case1 => simp at h
  | case2 p body p' term hterm body'' hcurrent ih =>
    obtain ⟨ts, rest, hrest, hts, rfl⟩ := exists_reads_of_readTerm hterm
    obtain ⟨us, rest', terms, hrest', hus, _, rfl, rfl⟩ := ih h
    rw [rest_behind] at hrest'
    subst hrest'
    refine ⟨ts ++ us, rest', term :: terms, by simp [hrest], hts.append hus, by simp, by simp, rfl⟩
  | case3 p body p' term hterm body'' hcurrent =>
    obtain ⟨ts, rest, hrest, hts, rfl⟩ := exists_reads_of_readTerm hterm
    simp only [Prod.mk.injEq, and_true] at h
    obtain ⟨rfl, rfl⟩ := h
    exact ⟨ts, rest, [term], hrest, hts, by simp, rfl, rfl⟩

theorem fault_of_readTerms {body body' : Group} {fault : ParseFault}
    (h : p.readTerms scope body = (q, body', .error fault))
    : fault.At q.current := by
  fun_induction readTerms p scope body with
  | case1 _ _ _ _ hterm =>
    cases h
    exact fault_of_readTerm hterm
  | case2 _ _ _ _ _ _ _ ih => exact ih h
  | case3 => simp at h

end Terms

end Parser

inductive Defines : Definitions → List Token → Definitions → Prop where
  | nil (ds : Definitions) : Defines ds [] ds
  | cons {ds es : Definitions} {name sign : Token} {body rest : List Token} {terms : List Term}
    (hname : name.tag = .name) (hsign : sign.tag = .equalSign)
    (hbody : Reads .definition body terms) (hterms : terms ≠ [])
    (h : Defines (ds.define ⟨name.text, Group.ofNodes terms none, name.span⟩) rest es)
    : Defines ds (name :: sign :: (body ++ rest)) es

namespace Parser

def defining (p : Parser) (ts rest : List Token) (definitions : Definitions)
    (warnings : Option (Array Message)) : Parser :=
  { p.behind ts rest with definitions, warnings }

section Definitions

variable {p q : Parser} {ts rest : List Token} {es : Definitions}

@[simp]
theorem rest_defining (p : Parser) (ts rest : List Token) (ds : Definitions)
    (warnings : Option (Array Message))
    : (p.defining ts rest ds warnings).rest = rest := rfl

@[simp]
theorem last_defining (p : Parser) (ts rest : List Token) (ds : Definitions)
    (warnings : Option (Array Message))
    : (p.defining ts rest ds warnings).last = p.last := rfl

@[simp]
theorem definitions_defining (p : Parser) (ts rest : List Token) (ds : Definitions)
    (warnings : Option (Array Message))
    : (p.defining ts rest ds warnings).definitions = ds := rfl

@[simp]
theorem defining_defining (p : Parser) (ts us mid rest : List Token) (ds es : Definitions)
    (warnings warnings' : Option (Array Message))
    : (p.defining ts mid ds warnings).defining us rest es warnings'
        = p.defining (ts ++ us) rest es warnings' := by
  simp [defining, behind, Nat.add_assoc]

theorem define_behind (p : Parser) (ts rest : List Token) (name : Token) (body : Group)
    : (p.behind ts rest).define name body
        = p.defining ts rest (p.definitions.define ⟨name.text, body, name.span⟩)
            ((p.behind ts rest).define name body).warnings := by
  unfold define
  split
  . rfl
  . rfl

theorem readDefinition_of_reads {name sign : Token} {body : List Token} {terms : List Term}
    (hname : name.tag = .name) (hsign : sign.tag = .equalSign)
    (hbody : Reads .definition body terms) (hterms : terms ≠ [])
    (hrest : p.rest = name :: sign :: (body ++ rest))
    (hstop : Scope.definition.canBegin (rest.headD p.last).tag = false)
    : p.readDefinition
        = ((p.behind (name :: sign :: body) rest).define name (Group.ofNodes terms none), .ok ()) := by
  unfold readDefinition
  rw [expect_of_rest hrest hname (by simp [Token.isPrimitive, hname])]
  dsimp only
  rw [expect_of_rest (rest_behind ..) hsign (by simp [Token.isPrimitive, hsign]), behind_behind]
  dsimp only
  rw [readTerms_of_reads _ (rest_behind p _ _) hbody hterms hstop]
  simp [current_of_rest hrest]

theorem exists_reads_of_readDefinition (h : p.readDefinition = (q, .ok ()))
    : ∃ name sign body rest terms, p.rest = name :: sign :: (body ++ rest) ∧ name.tag = .name
        ∧ sign.tag = .equalSign ∧ Reads .definition body terms ∧ terms ≠ []
        ∧ q = (p.behind (name :: sign :: body) rest).define name (Group.ofNodes terms none) := by
  unfold readDefinition at h
  split at h
  . simp at h
  . next named hnamed =>
    split at h
    . simp at h
    . next equated hequated =>
      split at h
      . simp at h
      . next read group hread =>
        obtain ⟨name, _, hrest, hname, rfl⟩ := exists_rest_of_expect (by simp) (by simp) hnamed
        obtain ⟨sign, _, hrest', hsign, rfl⟩ := exists_rest_of_expect (by simp) (by simp) hequated
        obtain ⟨body, rest, terms, hrest'', hbody, hterms, rfl, rfl⟩ :=
          exists_reads_of_readTerms hread
        rw [rest_behind] at hrest' hrest''
        subst hrest' hrest''
        refine ⟨name, sign, body, rest, terms, hrest, hname, hsign, hbody, hterms, ?_⟩
        cases h
        simp [current_of_rest hrest]

theorem fault_of_readDefinition {fault : ParseFault} (h : p.readDefinition = (q, .error fault))
    : fault.At q.current := by
  unfold readDefinition at h
  split at h
  . next hnamed =>
    cases h
    exact fault_of_expect hnamed
  . split at h
    . next hequated =>
      cases h
      exact fault_of_expect hequated
    . split at h
      . next hread =>
        cases h
        exact fault_of_readTerms hread
      . simp at h

theorem canBegin_headD_defines {ds : Definitions} {last : Token} (h : Defines ds ts es)
    (hstop : (rest.headD last).tag = .questionSign)
    : Scope.definition.canBegin ((ts ++ rest).headD last).tag = false := by
  cases h with
  | nil =>
    rw [List.nil_append, hstop]
    rfl
  | cons hname =>
    simp [Scope.canBegin, hname]

theorem readDefinitions_of_defines {ds : Definitions} (h : Defines ds ts es)
    (hds : p.definitions = ds) (hrest : p.rest = ts ++ rest)
    (hstop : (rest.headD p.last).tag = .questionSign)
    : ∃ warnings, p.readDefinitions = (p.defining ts rest es warnings, .ok ()) := by
  induction h generalizing p with
  | nil ds =>
    refine ⟨p.warnings, ?_⟩
    rw [List.nil_append] at hrest
    unfold readDefinitions
    rw [if_neg (by rw [current, hrest, hstop]; simp)]
    simp [defining, behind, ← hrest, ← hds]
  | @cons ds es name sign body rest' terms hname hsign hbody hterms h ih =>
    rw [List.cons_append, List.cons_append, List.append_assoc] at hrest
    have hfirst := readDefinition_of_reads hname hsign hbody hterms hrest
      (canBegin_headD_defines h hstop)
    rw [define_behind, hds] at hfirst
    unfold readDefinitions
    rw [if_pos (by rw [current_of_rest hrest, hname])]
    split
    . next hread =>
      rw [hfirst] at hread
      cases hread
    . next hread =>
      rw [hfirst] at hread
      cases hread
      obtain ⟨warnings, hothers⟩ := ih (definitions_defining ..) (rest_defining ..) hstop
      refine ⟨warnings, ?_⟩
      rw [hothers, defining_defining]
      rfl

theorem exists_defines_of_readDefinitions (h : p.readDefinitions = (q, .ok ()))
    : ∃ ts rest ds warnings, p.rest = ts ++ rest ∧ Defines p.definitions ts ds
        ∧ q = p.defining ts rest ds warnings := by
  fun_induction readDefinitions p with
  | case1 => simp at h
  | case2 p hcurrent p' hread ih =>
    obtain ⟨name, sign, body, _, terms, hrest, hname, hsign, hbody, hterms, hp'⟩ :=
      exists_reads_of_readDefinition hread
    rw [define_behind] at hp'
    obtain ⟨ts, rest, ds, warnings, hrest', hts, rfl⟩ := ih h
    rw [hp', rest_defining] at hrest'
    rw [hp', definitions_defining] at hts
    subst hrest'
    refine ⟨_, rest, ds, warnings, ?_, .cons hname hsign hbody hterms hts, ?_⟩
    . simp [hrest]
    . rw [hp', defining_defining]
      rfl
  | case3 p hcurrent =>
    cases h
    exact ⟨[], q.rest, q.definitions, q.warnings, rfl, .nil _, by simp [defining, behind]⟩

theorem fault_of_readDefinitions {fault : ParseFault} (h : p.readDefinitions = (q, .error fault))
    : fault.At q.current := by
  fun_induction readDefinitions p with
  | case1 _ _ _ _ hread =>
    cases h
    exact fault_of_readDefinition hread
  | case2 _ _ _ _ ih => exact ih h
  | case3 => simp at h

end Definitions

end Parser

inductive Describes : List Token → Program → Prop where
  | mk {sign question : Token} {complexity : Complexity} {ts us : List Token} {ds : Definitions}
    {task : List Term} (hsign : sign.tag = .complexity complexity) (hts : Defines {} ts ds)
    (hquestion : question.tag = .questionSign) (hus : Reads (.task ds) us task) (htask : task ≠ [])
    : Describes (sign :: (ts ++ question :: us))
        ⟨complexity, ds, task, (sign :: (ts ++ question :: us)).countP Token.isPrimitive⟩

namespace Parser

section Programs

theorem countP_program (sign question : Token) (ts us : List Token)
    : (sign :: (ts ++ question :: us)).countP Token.isPrimitive
        = [sign].countP Token.isPrimitive + ts.countP Token.isPrimitive
            + [question].countP Token.isPrimitive + us.countP Token.isPrimitive := by
  simp only [List.countP_cons, List.countP_append, List.countP_nil]
  omega

variable {p q : Parser} {ts us rest : List Token} {terms : List Term} {program : Program}

theorem readComplexity_of_rest {t : Token} {complexity : Complexity} (hrest : p.rest = t :: rest)
    (htag : t.tag = .complexity complexity)
    : p.readComplexity
        = ({ p with complexity := some complexity }.behind [t] rest, .ok complexity) := by
  have ht : t.isPrimitive = false := by simp [Token.isPrimitive, htag]
  unfold readComplexity
  rw [current_of_rest hrest, htag, ← next_of_rest (p := { p with complexity := some complexity }) hrest ht]

theorem exists_rest_of_readComplexity {complexity : Complexity}
    (h : p.readComplexity = (q, .ok complexity))
    : ∃ t rest, p.rest = t :: rest ∧ t.tag = .complexity complexity := by
  unfold readComplexity at h
  split at h
  . next hcurrent =>
    cases h
    exact exists_rest_of_tag hcurrent (by simp)
  . simp at h

theorem fault_of_readComplexity {fault : ParseFault} (h : p.readComplexity = (q, .error fault))
    : fault.At q.current := by
  unfold readComplexity at h
  split at h
  . simp at h
  . cases h
    exact .inl ⟨_, rfl⟩

theorem readTask_of_reads (hrest : p.rest = us ++ rest) (h : Reads (.task p.definitions) us terms)
    (hterms : terms ≠ []) (hstop : (rest.headD p.last).tag = .endOfProgram)
    : p.readTask = ({ p.behind us rest with task := p.task ++ terms.toArray }, .ok ()) := by
  unfold readTask
  rw [readTerms_of_reads _ hrest h hterms (by rw [hstop]; rfl)]
  simp [Group.nodes_foldl_add, behind]

theorem exists_readTerms_of_readTask {result : Except ParseFault Unit}
    (h : p.readTask = (q, result))
    : ∃ p' body, p.readTerms (.task p.definitions) .empty = (p', body, result)
        ∧ q = { p' with task := p'.task ++ body.nodes } := by
  generalize hread : p.readTerms (.task p.definitions) .empty = read
  obtain ⟨p', body, result'⟩ := read
  simp only [readTask, hread, Prod.mk.injEq] at h
  obtain ⟨rfl, rfl⟩ := h
  exact ⟨p', body, rfl, rfl⟩

theorem exists_reads_of_readTask (h : p.readTask = (q, .ok ()))
    : ∃ us rest terms, p.rest = us ++ rest ∧ Reads (.task p.definitions) us terms ∧ terms ≠ []
        ∧ q = { p.behind us rest with task := p.task ++ terms.toArray } := by
  obtain ⟨_, _, hread, rfl⟩ := exists_readTerms_of_readTask h
  obtain ⟨us, rest, terms, hrest, hus, hterms, rfl, rfl⟩ := exists_reads_of_readTerms hread
  refine ⟨us, rest, terms, hrest, hus, hterms, ?_⟩
  simp [Group.nodes_foldl_add, behind]

theorem fault_of_readTask {fault : ParseFault} (h : p.readTask = (q, .error fault))
    : fault.At q.current := by
  obtain ⟨p', _, hread, rfl⟩ := exists_readTerms_of_readTask h
  have hfault : fault.At p'.current := fault_of_readTerms hread
  exact hfault

theorem parse_of_describes (h : Describes p.rest program) (hdefinitions : p.definitions = {})
    (htask : p.task = #[]) (hprimitives : p.primitives = 0)
    : ∃ q, p.parse = (q, .ok program) := by
  generalize hrest : p.rest = tokens at h
  cases h with
  | @mk sign question complexity ts us ds task hsign hts hquestion hus hne =>
    let p₁ := { p with complexity := some complexity }.behind [sign] (ts ++ question :: us)
    have hcomplexity : p.readComplexity = (p₁, .ok complexity) := readComplexity_of_rest hrest hsign
    have hds : p₁.definitions = {} := hdefinitions
    obtain ⟨warnings, hread⟩ := readDefinitions_of_defines hts hds (rest_behind ..) hquestion
    let p₃ := (p₁.defining ts (question :: us) ds warnings).behind [question] us
    have hexpect : (p₁.defining ts (question :: us) ds warnings).expect .questionSign .questionSign
        = (p₃, .ok ()) := by
      apply expect_of_rest (rest_defining ..) hquestion
      simp [Token.isPrimitive, hquestion]
    have htask' : p₃.readTask = ({ p₃.behind us [] with task := p₃.task ++ task.toArray }, .ok ()) := by
      apply readTask_of_reads (List.append_nil us).symm hus hne
      exact p.last_tag
    simp only [parse, hcomplexity, hread, hexpect, htask']
    rw [if_pos (by apply current_tag_of_rest; rfl)]
    rw [countP_program]
    simp [p₁, p₃, defining, behind, htask, hprimitives]

theorem describes_of_parse (h : p.parse = (q, .ok program)) (hdefinitions : p.definitions = {})
    (htask : p.task = #[]) (hprimitives : p.primitives = 0)
    (hrest : ∀ t ∈ p.rest, t.tag ≠ .endOfProgram)
    : Describes p.rest program := by
  unfold parse at h
  split at h
  . simp at h
  . next p₁ complexity hcomplexity =>
    obtain ⟨sign, rest₁, hrest₁, hsign⟩ := exists_rest_of_readComplexity hcomplexity
    rw [readComplexity_of_rest hrest₁ hsign] at hcomplexity
    cases hcomplexity
    split at h
    . simp at h
    . next hread =>
      obtain ⟨ts, rest₂, ds, warnings, hrest₂, hts, rfl⟩ := exists_defines_of_readDefinitions hread
      split at h
      . simp at h
      . next hexpect =>
        obtain ⟨question, us, hrest₃, hquestion, rfl⟩ :=
          exists_rest_of_expect (by simp) (by simp) hexpect
        split at h
        . simp at h
        . next htask' =>
          obtain ⟨us, rest₄, task, hrest₄, hus, hne, rfl⟩ := exists_reads_of_readTask htask'
          rw [rest_behind] at hrest₂ hrest₄
          rw [rest_defining] at hrest₃
          rw [definitions_behind, definitions_defining] at hus
          rw [definitions_behind] at hts
          subst hrest₂ hrest₃ hrest₄
          split at h
          . next hcurrent =>
            -- Only the end token itself can stand behind the task.
            have : rest₄ = [] := by
              cases rest₄ with
              | nil => rfl
              | cons t =>
                refine absurd hcurrent (hrest t ?_)
                simp [hrest₁]
            subst this
            cases h
            have := Describes.mk hsign (hdefinitions ▸ hts) hquestion hus hne
            rw [countP_program] at this
            simpa [defining, behind, htask, hprimitives, hrest₁] using this
          . simp at h

theorem fault_of_parse {fault : ParseFault} (h : p.parse = (q, .error fault)) : fault.At q.current := by
  unfold parse at h
  split at h
  . next hcomplexity =>
    cases h
    exact fault_of_readComplexity hcomplexity
  . split at h
    . next hread =>
      cases h
      exact fault_of_readDefinitions hread
    . split at h
      . next hexpect =>
        cases h
        exact fault_of_expect hexpect
      . split at h
        . next htask =>
          cases h
          exact fault_of_readTask htask
        . split at h
          . simp at h
          . cases h
            exact .inl ⟨_, rfl⟩

end Programs

theorem ofTokens?_append {body : List Token} {last : Token} (h : last.tag = .endOfProgram)
    (warns : Bool)
    : ofTokens? (body ++ [last]) warns
        = .ok { rest := body, last, last_tag := h, warnings := if warns then some #[] else none } := by
  simp [ofTokens?, h]

end Parser

section Results

variable {body : List Token} {last : Token} {program : Program}

theorem exists_parse_eq (body : List Token) (hlast : last.tag = .endOfProgram) (warns : Bool)
    : ∃ p : Parser, p.rest = body ∧ p.definitions = {} ∧ p.task = #[] ∧ p.primitives = 0
        ∧ (parse (body ++ [last]) warns).result = p.parse.2.mapError ParseFault.signal := by
  refine ⟨{ rest := body, last, last_tag := hlast, warnings := if warns then some #[] else none },
    rfl, rfl, rfl, rfl, ?_⟩
  rw [parse, Parser.ofTokens?_append hlast]

theorem parse_eq_ok_of_describes (h : Describes body program) (hlast : last.tag = .endOfProgram)
    (warns : Bool)
    : (parse (body ++ [last]) warns).result = .ok program := by
  obtain ⟨p, hrest, hdefinitions, htask, hprimitives, hresult⟩ := exists_parse_eq body hlast warns
  subst hrest
  obtain ⟨q, hparse⟩ := Parser.parse_of_describes h hdefinitions htask hprimitives
  rw [hresult, hparse]
  rfl

theorem parse_eq_ok_iff (hlast : last.tag = .endOfProgram)
    (hbody : ∀ t ∈ body, t.tag ≠ .endOfProgram) (warns : Bool)
    : (parse (body ++ [last]) warns).result = .ok program ↔ Describes body program := by
  constructor
  . intro h
    obtain ⟨p, hrest, hdefinitions, htask, hprimitives, hresult⟩ := exists_parse_eq body hlast warns
    subst hrest
    rw [hresult] at h
    generalize hparse : p.parse = parsed at h
    obtain ⟨q, _ | program'⟩ := parsed
    . cases h
    . cases h
      exact Parser.describes_of_parse hparse hdefinitions htask hprimitives hbody
  . intro h
    exact parse_eq_ok_of_describes h hlast warns

theorem ParseFault.At.signal_eq {fault : ParseFault} {t : Token} (h : fault.At t)
    : ∃ text, fault.signal = .complaint { text, position := some t.position } := by
  obtain ⟨expectation, rfl⟩ | rfl := h
  . exact ⟨_, rfl⟩
  . exact ⟨_, rfl⟩

theorem parse_ok_or_complaint (hlast : last.tag = .endOfProgram) (warns : Bool)
    : (∃ program, (parse (body ++ [last]) warns).result = .ok program)
      ∨ ∃ text position, (parse (body ++ [last]) warns).result
          = .error (.complaint { text, position := some position }) := by
  obtain ⟨p, _, _, _, _, hresult⟩ := exists_parse_eq body hlast warns
  rw [hresult]
  generalize hparse : p.parse = parsed
  obtain ⟨q, fault | program⟩ := parsed
  . obtain ⟨text, htext⟩ := (Parser.fault_of_parse hparse).signal_eq
    refine .inr ⟨text, q.current.position, ?_⟩
    rw [← htext]
    rfl
  . exact .inl ⟨program, rfl⟩

end Results

end Combinatory
