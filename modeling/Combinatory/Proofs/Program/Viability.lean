import Combinatory.Proofs.Program.Acceptance
import Combinatory.Proofs.Program.Lookahead
import Mathlib.Order.Bounds.Basic

/-!
Faults are found at the earliest token that can be blamed. What was passed before it can be
completed to a program, since open groups can be closed and missing parts can be supplied; together
with it this is no longer possible: `parse_error_isLeast`.
-/

namespace Combinatory

namespace Token

def ofTag (tag : Tag) : Token :=
  { tag, span := default, text := "" }

def Viable (tokens : List Token) : Prop :=
  ∃ body last, Accepted body ∧ last.tag = .endOfProgram ∧ tokens <+: body ++ [last]

theorem Viable.of_isPrefix {ts us : List Token} (h : Viable us) (hts : ts <+: us) : Viable ts := by
  obtain ⟨body, last, hbody, hlast, hus⟩ := h
  exact ⟨body, last, hbody, hlast, hts.trans hus⟩

theorem viable_of_describes {ts body : List Token} {program : Program} (h : Describes body program)
    (hts : ts <+: body)
    : Viable ts :=
  ⟨body, ofTag .endOfProgram, h.accepted, rfl, hts.trans (List.prefix_append _ _)⟩

end Token

namespace Expression

variable {scope : Scope} {stack : List Group}

theorem closes_replicate (scope : Scope) (depth : Nat)
    : Closes scope depth (List.replicate depth (Token.ofTag .rightBracket)) := by
  induction depth with
  | zero => exact .none
  | succ depth ih => exact .one .nil rfl ih

theorem exists_reads (scope : Scope) : ∃ t term, Reads scope [t] [term] :=
  ⟨Token.ofTag (.primitive .K), _, .primitive rfl .nil⟩

theorem exists_completes (scope : Scope) (stack : List Group) : ∃ us, Completes scope stack us := by
  obtain ⟨t, term, hterm⟩ := exists_reads scope
  exact ⟨_, .cons hterm rfl (closes_replicate scope stack.length)⟩

theorem exists_completes_of_read_error (last : Token) (tokens : List Token) (counts : Counts)
    {fault : ParseFault} (h : (read scope last stack tokens counts).result = .error fault)
    : ∃ ts us, tokens = ts ++ (read scope last stack tokens counts).rest
        ∧ Completes scope stack (ts ++ us) := by
  fun_induction read scope last stack tokens counts with
  | case1 stack =>
    obtain ⟨us, hus⟩ := exists_completes scope stack
    exact ⟨[], us, rfl, hus⟩
  | case2 stack =>
    obtain ⟨us, hus⟩ := exists_completes scope stack
    exact ⟨[], us, rfl, hus⟩
  | case3 stack counts t rest stack' hshift ih =>
    obtain ⟨ts, us, hts, hcompletes⟩ := ih h
    exact ⟨t :: ts, us, by rw [List.cons_append, ← hts], .of_opened hshift hcompletes⟩
  | case4 => simp at h
  | case5 stack counts t rest term g outer hshift ih =>
    obtain ⟨ts, us, hts, hcompletes⟩ := ih h
    exact ⟨t :: ts, us, by rw [List.cons_append, ← hts], .of_complete hshift hcompletes.closes⟩

end Expression

namespace Parser

variable {p q : Parser} {scope : Scope} {fault : ParseFault}

section Terms

theorem exists_reads_of_readTerm_error (h : p.readTerm scope = (q, .error fault))
    : ∃ ts us term, p.rest = ts ++ q.rest ∧ Reads scope (ts ++ us) [term] := by
  obtain ⟨hq, hread⟩ := Prod.mk.inj h
  obtain ⟨ts, us, hrest, hcompletes⟩ := Expression.exists_completes_of_read_error _ _ _ hread
  obtain ⟨term, hreads⟩ := hcompletes.exists_reads
  refine ⟨ts, us, term, ?_, hreads⟩
  rw [← hq]
  exact hrest

theorem exists_reads_of_readTerms_error {body body' : Group}
    (h : p.readTerms scope body = (q, body', .error fault))
    : ∃ ts us terms, p.rest = ts ++ q.rest ∧ Reads scope (ts ++ us) terms ∧ terms ≠ [] := by
  fun_induction readTerms p scope body with
  | case1 p body p' fault' hterm =>
    cases h
    obtain ⟨ts, us, term, hrest, hreads⟩ := exists_reads_of_readTerm_error hterm
    exact ⟨ts, us, [term], hrest, hreads, by simp⟩
  | case2 p body p' term hterm body'' hcurrent ih =>
    obtain ⟨ts, rest, hrest, hts, rfl⟩ := exists_reads_of_readTerm hterm
    obtain ⟨us, vs, terms, hrest', hus, _⟩ := ih h
    rw [rest_behind] at hrest'
    refine ⟨ts ++ us, vs, term :: terms, ?_, ?_, by simp⟩
    . rw [hrest, hrest', List.append_assoc]
    . rw [List.append_assoc]
      exact hts.append hus
  | case3 => simp at h

end Terms

section Definitions

theorem eq_of_expect_error {tag : Tag} {expectation : Expectation}
    (h : p.expect tag expectation = (q, .error fault))
    : q = p := by
  unfold expect at h
  split at h
  . simp at h
  . cases h
    rfl

theorem exists_defines {name sign : Token} {body : List Token} {terms : List Term}
    (hname : name.tag = .name) (hsign : sign.tag = .equalSign)
    (hbody : Reads .definition body terms) (hterms : terms ≠ []) (ds : Definitions)
    : ∃ es, Defines ds (name :: sign :: body) es := by
  have hnil := Defines.nil (ds.define ⟨name.text, Group.ofNodes terms none, name.span⟩)
  have h := Defines.cons hname hsign hbody hterms hnil
  rw [List.append_nil] at h
  exact ⟨_, h⟩

theorem exists_defines_of_readDefinition_error (h : p.readDefinition = (q, .error fault))
    : ∃ ts us, p.rest = ts ++ q.rest ∧ ∀ ds, ∃ es, Defines ds (ts ++ us) es := by
  let name := Token.ofTag .name
  let sign := Token.ofTag .equalSign
  obtain ⟨t, term, hbody⟩ := Expression.exists_reads .definition
  unfold readDefinition at h
  split at h
  . next hnamed =>
    cases h
    cases eq_of_expect_error hnamed
    exact ⟨[], name :: sign :: _, rfl, exists_defines rfl rfl hbody (by simp)⟩
  . next hnamed =>
    obtain ⟨name, rest, hrest, hname, rfl⟩ := exists_rest_of_expect (by simp) (by simp) hnamed
    split at h
    . next hequated =>
      cases h
      cases eq_of_expect_error hequated
      exact ⟨[name], sign :: _, hrest, exists_defines hname rfl hbody (by simp)⟩
    . next hequated =>
      obtain ⟨sign, _, hrest', hsign, rfl⟩ := exists_rest_of_expect (by simp) (by simp) hequated
      rw [rest_behind] at hrest'
      subst hrest'
      split at h
      . next hread =>
        cases h
        obtain ⟨ts, us, terms, hrest', hreads, hterms⟩ := exists_reads_of_readTerms_error hread
        rw [rest_behind] at hrest'
        refine ⟨name :: sign :: ts, us, ?_, exists_defines hname hsign hreads hterms⟩
        rw [hrest, hrest', List.cons_append, List.cons_append]
      . simp at h

theorem exists_defines_of_readDefinitions_error (h : p.readDefinitions = (q, .error fault))
    : ∃ ts us es, p.rest = ts ++ q.rest ∧ Defines p.definitions (ts ++ us) es := by
  fun_induction readDefinitions p with
  | case1 p hname p' fault' hread =>
    cases h
    obtain ⟨ts, us, hrest, hdefines⟩ := exists_defines_of_readDefinition_error hread
    obtain ⟨es, hes⟩ := hdefines p.definitions
    exact ⟨ts, us, es, hrest, hes⟩
  | case2 p hname p' hread ih =>
    obtain ⟨name, sign, body, rest, terms, hrest, hname, hsign, hbody, hterms, hp'⟩ :=
      exists_reads_of_readDefinition hread
    rw [define_behind] at hp'
    obtain ⟨ts, us, es, hrest', hes⟩ := ih h
    rw [hp', rest_defining] at hrest'
    rw [hp', definitions_defining] at hes
    refine ⟨name :: sign :: (body ++ ts), us, es, ?_, ?_⟩
    . simp [hrest, hrest']
    . simpa using Defines.cons hname hsign hbody hterms hes
  | case3 => simp at h

end Definitions

section Programs

theorem eq_of_readComplexity_error (h : p.readComplexity = (q, .error fault)) : q = p := by
  unfold readComplexity at h
  split at h
  . simp at h
  . cases h
    rfl

theorem exists_reads_of_readTask_error (h : p.readTask = (q, .error fault))
    : ∃ ts us terms, p.rest = ts ++ q.rest ∧ Reads (.task p.definitions) (ts ++ us) terms
        ∧ terms ≠ [] := by
  obtain ⟨_, _, hread, rfl⟩ := exists_readTerms_of_readTask h
  obtain ⟨ts, us, terms, hrest, hreads⟩ := exists_reads_of_readTerms_error hread
  exact ⟨ts, us, terms, hrest, hreads⟩

theorem exists_describes_of_defines {sign : Token} {complexity : Complexity} {ts : List Token}
    {ds : Definitions} (hsign : sign.tag = .complexity complexity) (hts : Defines {} ts ds)
    : ∃ us program, Describes (sign :: (ts ++ us)) program := by
  let question := Token.ofTag .questionSign
  have hquestion : question.tag = .questionSign := rfl
  obtain ⟨t, term, htask⟩ := Expression.exists_reads (.task ds)
  exact ⟨question :: [t], _, .mk hsign hts hquestion htask (by simp)⟩

theorem exists_describes_of_parse_error (h : p.parse = (q, .error fault))
    (hdefinitions : p.definitions = {})
    : ∃ ts body program, p.rest = ts ++ q.rest ∧ ts <+: body ∧ Describes body program := by
  unfold parse at h
  split at h
  . next hcomplexity =>
    cases h
    cases eq_of_readComplexity_error hcomplexity
    have hsign : (Token.ofTag (.complexity .unbounded)).tag = .complexity .unbounded := rfl
    obtain ⟨us, program, hdescribes⟩ := exists_describes_of_defines hsign (.nil {})
    exact ⟨[], _, program, rfl, List.nil_prefix, hdescribes⟩
  . next hcomplexity =>
    obtain ⟨sign, rest, hrest, hsign⟩ := exists_rest_of_readComplexity hcomplexity
    rw [readComplexity_of_rest hrest hsign] at hcomplexity
    cases hcomplexity
    split at h
    . next hread =>
      cases h
      obtain ⟨ts, us, ds, hrest', hds⟩ := exists_defines_of_readDefinitions_error hread
      rw [rest_behind] at hrest'
      rw [definitions_behind, hdefinitions] at hds
      obtain ⟨vs, program, hdescribes⟩ := exists_describes_of_defines hsign hds
      exact ⟨sign :: ts, _, program, by simp [hrest, hrest'], ⟨us ++ vs, by simp⟩, hdescribes⟩
    . next hread =>
      obtain ⟨ts, rest', ds, warnings, hrest', hts, rfl⟩ := exists_defines_of_readDefinitions hread
      rw [rest_behind] at hrest'
      rw [definitions_behind, hdefinitions] at hts
      subst hrest'
      split at h
      . next hexpect =>
        cases h
        cases eq_of_expect_error hexpect
        obtain ⟨us, program, hdescribes⟩ := exists_describes_of_defines hsign hts
        exact ⟨sign :: ts, _, program, by simp [hrest], ⟨us, by simp⟩, hdescribes⟩
      . next hexpect =>
        obtain ⟨question, us, hrest', hquestion, rfl⟩ :=
          exists_rest_of_expect (by simp) (by simp) hexpect
        rw [rest_defining] at hrest'
        subst hrest'
        split at h
        . next htask =>
          cases h
          obtain ⟨us, vs, task, hrest', hreads, hne⟩ := exists_reads_of_readTask_error htask
          rw [rest_behind] at hrest'
          rw [definitions_behind, definitions_defining] at hreads
          have hdescribes := Describes.mk hsign hts hquestion hreads hne
          exact ⟨sign :: (ts ++ question :: us), _, _, by simp [hrest, hrest'], ⟨vs, by simp⟩,
            hdescribes⟩
        . next htask =>
          obtain ⟨us, rest, task, hrest', hreads, hne, rfl⟩ := exists_reads_of_readTask htask
          rw [rest_behind] at hrest'
          rw [definitions_behind, definitions_defining] at hreads
          split at h
          . simp at h
          . cases h
            have hdescribes := Describes.mk hsign hts hquestion hreads hne
            exact ⟨sign :: (ts ++ question :: us), _, _, by simp [hrest, hrest'],
              List.prefix_refl _, hdescribes⟩

theorem not_describes_of_parse_error {ts r : List Token} {program : Program}
    (h : p.parse = (q, .error fault)) (hrest : p.rest = ts ++ q.rest)
    (hdefinitions : p.definitions = {}) (htask : p.task = #[]) (hprimitives : p.primitives = 0)
    : ¬Describes (ts ++ q.current :: r) program := by
  intro hdescribes
  obtain ⟨q', result, ts', hparse, hrest', _, hahead⟩ := looksAtCurrent_parse p
  rw [h] at hparse
  cases hparse
  rw [hrest, List.append_cancel_right_eq] at hrest'
  subst hrest'
  obtain ⟨q', hok⟩ := parse_of_describes (p := p.ahead (ts ++ q.current :: r)) hdescribes
    hdefinitions htask hprimitives
  rw [hahead] at hok
  cases hok

theorem last_of_parse (h : p.parse = (q, .error fault)) : q.last = p.last := by
  obtain ⟨q', result, ts, hparse, _, hlast, _⟩ := looksAtCurrent_parse p
  rw [h] at hparse
  cases hparse
  exact hlast

theorem not_viable_of_parse_error {ts : List Token} (h : p.parse = (q, .error fault))
    (hrest : p.rest = ts ++ q.rest) (hdefinitions : p.definitions = {}) (htask : p.task = #[])
    (hprimitives : p.primitives = 0) (hend : ∀ t ∈ p.rest, t.tag ≠ .endOfProgram)
    : ¬Token.Viable (ts ++ [q.current]) := by
  rintro ⟨body, last, hbody, hlast, hprefix⟩
  obtain ⟨program, hdescribes⟩ := exists_describes_of_accepted hbody
  rw [List.prefix_concat_iff] at hprefix
  obtain heq | ⟨r, hr⟩ := hprefix
  . -- The parser stopped at an end token, which is the one behind all others, after a program.
    obtain ⟨rfl, hcurrent⟩ := List.append_inj' heq rfl
    cases hq : q.rest with
    | nil =>
      rw [hq, List.append_nil] at hrest
      rw [← hrest] at hdescribes
      obtain ⟨q', hok⟩ := parse_of_describes hdescribes hdefinitions htask hprimitives
      rw [h] at hok
      cases hok
    | cons t rest =>
      rw [current_of_rest hq, List.singleton_inj] at hcurrent
      subst hcurrent
      refine hend t ?_ hlast
      simp [hrest, hq]
  . rw [List.append_assoc, List.singleton_append] at hr
    rw [← hr] at hdescribes
    exact not_describes_of_parse_error h hrest hdefinitions htask hprimitives hdescribes

end Programs

end Parser

section Results

variable {body : List Token} {last : Token}

theorem exists_append_last (ts : List Token) (last : Token)
    : ∃ others, ts ++ [last] = ts.headD last :: others := by
  cases ts with
  | nil => exact ⟨[], rfl⟩
  | cons t ts => exact ⟨ts ++ [last], rfl⟩

theorem parse_error_isLeast (hlast : last.tag = .endOfProgram)
    (hbody : ∀ t ∈ body, t.tag ≠ .endOfProgram) {warns : Bool} {signal : Signal}
    (h : (parse (body ++ [last]) warns).result = .error signal)
    : ∃ i t text, (body ++ [last])[i]? = some t
        ∧ signal = .complaint { text, position := some t.position }
        ∧ Token.Viable ((body ++ [last]).take i)
        ∧ IsLeast {j | ¬Token.Viable ((body ++ [last]).take (j + 1))} i := by
  let p : Parser :=
    { rest := body, last, last_tag := hlast, warnings := if warns then some #[] else none }
  have hresult : (parse (body ++ [last]) warns).result = p.parse.2.mapError ParseFault.signal := by
    rw [parse, Parser.ofTokens?_append hlast]
  rw [hresult] at h
  generalize hparse : p.parse = parsed at h
  obtain ⟨q, fault | program⟩ := parsed
  . obtain ⟨text, hsignal⟩ := (Parser.fault_of_parse hparse).signal_eq
    obtain ⟨ts, body', program, hrest, hprefix, hdescribes⟩ :=
      Parser.exists_describes_of_parse_error hparse rfl
    have hviable : Token.Viable ts := Token.viable_of_describes hdescribes hprefix
    have hstuck : ¬Token.Viable (ts ++ [q.current]) :=
      Parser.not_viable_of_parse_error hparse hrest rfl rfl rfl hbody
    have hcurrent : q.rest.headD last = q.current := by
      rw [Parser.current, Parser.last_of_parse hparse]
    obtain ⟨others, hothers⟩ := exists_append_last q.rest last
    have hsplit : body ++ [last] = ts ++ q.current :: others := by
      rw [← hcurrent, ← hothers, ← List.append_assoc]
      exact congrArg (· ++ [last]) hrest
    rw [hsplit]
    cases h
    refine ⟨ts.length, q.current, text, by simp, hsignal, ?_, ?_, ?_⟩
    . rwa [List.take_left]
    . have htake : (ts ++ q.current :: others).take (ts.length + 1) = ts ++ [q.current] := by
        rw [List.take_length_add_append, List.take_succ_cons, List.take_zero]
      change ¬Token.Viable ((ts ++ q.current :: others).take (ts.length + 1))
      rwa [htake]
    . intro j hj
      by_contra hlt
      apply hj
      apply hviable.of_isPrefix
      rw [List.take_append_of_le_length (by omega)]
      apply List.take_prefix
  . cases h

theorem parse_error_isLeast_of_undefined
    : let tokens : List Token :=
        [(.complexity .quadratic, "quad"), (.name, "C1"), (.equalSign, "="), (.primitive .K, "K"),
          (.questionSign, "?"), (.leftBracket, "("), (.primitive .S, "S"), (.name, "C2"),
          (.equalSign, "="), (.rightBracket, ")")].map fun (tag, text) => ⟨tag, default, text⟩
      let last : Token := ⟨.endOfProgram, default, ""⟩
      ∃ signal, (parse (tokens ++ [last]) true).result = .error signal
        ∧ ∃ i t text, (tokens ++ [last])[i]? = some t
          ∧ signal = .complaint { text, position := some t.position }
          ∧ Token.Viable ((tokens ++ [last]).take i)
          ∧ IsLeast {j | ¬Token.Viable ((tokens ++ [last]).take (j + 1))} i := by
  intro tokens last
  have hrejected : ¬∃ program, (parse (tokens ++ [last]) true).result = .ok program := by
    rintro ⟨program, hprogram⟩
    rw [parse_eq_ok_iff rfl (by decide)] at hprogram
    exact absurd hprogram.accepted.usedNames_subset (by decide)
  obtain ⟨text, position, hresult⟩ := (parse_ok_or_complaint rfl true).resolve_left hrejected
  exact ⟨_, hresult, parse_error_isLeast rfl (by decide) hresult⟩

end Results

end Combinatory
