import Combinatory.Proofs.Program.Grammar
import Combinatory.Proofs.Program.Parsing

/-!
Parsing succeeds on the tokens that the grammar derives, with names that are defined, and on no
others: `parse_isOk_iff_accepted`.
-/

namespace Combinatory

open Grammar

section Terms

variable {scope : Scope} {ts : List Token} {terms : List Term}

theorem derives_cons {names : Bool} {tags : List Tag} (h : Derives (.term names) tags)
    (hts : ts = [] ∨ Derives (.terms names) (ts.map Token.tag))
    : Derives (.terms names) (tags ++ ts.map Token.tag) := by
  obtain rfl | hts := hts
  . rw [List.map_nil, List.append_nil]
    exact .oneTerm h
  . exact .moreTerms h hts

theorem Scope.canBegin_name_of_find? {name : String} {d : Definition}
    (h : scope.find? name = some d)
    : scope.canBegin .name = true := by
  cases scope with
  | definition => simp [find?] at h
  | task => rfl

theorem Reads.derives (h : Reads scope ts terms)
    : ts = [] ∨ Derives (.terms (scope.canBegin .name)) (ts.map Token.tag) := by
  induction h with
  | nil => exact .inl rfl
  | primitive htag _ ih =>
    refine .inr ?_
    rw [List.map_cons, htag]
    exact derives_cons (.primitive _ _) ih
  | name htag hfind _ ih =>
    refine .inr ?_
    rw [Scope.canBegin_name_of_find? hfind] at ih ⊢
    rw [List.map_cons, htag]
    exact derives_cons .name ih
  | @group _ _ inner _ _ _ hopening hinner hmembers hclosing _ ihinner ih =>
    -- The grammar knows no empty brackets, and a group that was read has members.
    refine .inr ?_
    have hgroup : Derives (.terms (scope.canBegin .name)) (inner.map Token.tag) := by
      apply ihinner.resolve_left
      rintro rfl
      exact hmembers hinner.eq_nil_of_nil
    simpa [hopening, hclosing] using derives_cons (.group hgroup) ih

theorem Reads.derives_of_ne_nil (h : Reads scope ts terms) (hterms : terms ≠ [])
    : Derives (.terms (scope.canBegin .name)) (ts.map Token.tag) := by
  apply h.derives.resolve_left
  rintro rfl
  exact hterms h.eq_nil_of_nil

theorem Reads.tag_ne_and_find? (h : Reads scope ts terms)
    : ∀ t ∈ ts, t.tag ≠ .questionSign ∧ (t.tag = .name → (scope.find? t.text).isSome) := by
  induction h with
  | nil => simp
  | primitive htag _ ih =>
    rw [List.forall_mem_cons]
    exact ⟨by simp [htag], ih⟩
  | name htag hfind _ ih =>
    rw [List.forall_mem_cons]
    exact ⟨by simp [htag, hfind], ih⟩
  | group hopening _ _ hclosing _ ihinner ih =>
    rw [List.forall_mem_cons, List.forall_mem_append, List.forall_mem_cons]
    exact ⟨by simp [hopening], ihinner, by simp [hclosing], ih⟩

theorem Reads.tag_ne_name (h : Reads .definition ts terms) : ∀ t ∈ ts, t.tag ≠ .name := by
  intro t ht htag
  simpa [Scope.find?] using (h.tag_ne_and_find? t ht).2 htag

theorem exists_reads_of_derives {symbol : Symbol} {tags : List Tag} (h : Derives symbol tags)
    (hsymbol : symbol = .terms (scope.canBegin .name) ∨ symbol = .term (scope.canBegin .name))
    (htags : ts.map Token.tag = tags)
    (hfind : scope.canBegin .name → ∀ t ∈ ts, t.tag = .name → (scope.find? t.text).isSome)
    : ∃ terms, terms ≠ [] ∧ Reads scope ts terms := by
  induction h generalizing ts with
  | program => simp at hsymbol
  | noDefinition => simp at hsymbol
  | moreDefinitions => simp at hsymbol
  | definition => simp at hsymbol
  | oneTerm h ih =>
    simp only [Symbol.terms.injEq, reduceCtorEq, or_false] at hsymbol
    exact ih (.inr (by rw [hsymbol])) htags hfind
  | moreTerms h hrest ih ihrest =>
    simp only [Symbol.terms.injEq, reduceCtorEq, or_false] at hsymbol
    obtain ⟨us, vs, rfl, hus, hvs⟩ := List.map_eq_append_iff.mp htags
    simp only [List.forall_mem_append, imp_and] at hfind
    obtain ⟨terms, hterms, hreads⟩ := ih (.inr (by rw [hsymbol])) hus hfind.1
    obtain ⟨others, _, hothers⟩ := ihrest (.inl (by rw [hsymbol])) hvs hfind.2
    exact ⟨terms ++ others, by simp [hterms], hreads.append hothers⟩
  | primitive names c =>
    obtain ⟨t, rfl, htag⟩ := List.map_eq_singleton_iff.mp htags
    exact ⟨_, by simp, .primitive htag .nil⟩
  | name =>
    simp only [reduceCtorEq, Symbol.term.injEq, false_or] at hsymbol
    obtain ⟨t, rfl, htag⟩ := List.map_eq_singleton_iff.mp htags
    obtain ⟨d, hd⟩ := Option.isSome_iff_exists.mp (hfind hsymbol.symm t (by simp) htag)
    exact ⟨_, by simp, .name htag hd .nil⟩
  | group h ih =>
    simp only [Symbol.term.injEq, reduceCtorEq, false_or] at hsymbol
    obtain ⟨opening, us, rfl, hopening, hus⟩ := List.map_eq_cons_iff.mp htags
    obtain ⟨inner, vs, rfl, hinner, hvs⟩ := List.map_eq_append_iff.mp hus
    obtain ⟨closing, rfl, hclosing⟩ := List.map_eq_singleton_iff.mp hvs
    simp only [List.forall_mem_cons, List.forall_mem_append, imp_and] at hfind
    obtain ⟨members, hmembers, hreads⟩ := ih (.inl (by rw [hsymbol])) hinner hfind.2.1
    exact ⟨_, by simp, .group hopening hreads hmembers hclosing .nil⟩

end Terms

section Definitions

variable {ds es : Definitions} {ts : List Token}

theorem Definitions.contains_define_iff (d : Definition) (name : String)
    : (ds.define d).contains name ↔ ds.contains name ∨ d.name = name := by
  unfold contains
  rw [find?_define]
  split
  . next h => simp [h]
  . next h => simp [h]

theorem Defines.derives (h : Defines ds ts es) : Derives .definitions (ts.map Token.tag) := by
  induction h with
  | nil => exact .noDefinition
  | cons hname hsign hbody hterms _ ih =>
    have hbody := hbody.derives_of_ne_nil hterms
    simpa [hname, hsign] using Derives.moreDefinitions (.definition hbody) ih

theorem exists_defines_of_derives {symbol : Symbol} {tags : List Tag} (h : Derives symbol tags)
    (hsymbol : symbol = .definitions) (htags : ts.map Token.tag = tags)
    : ∃ es, Defines ds ts es := by
  induction h generalizing ts ds with
  | noDefinition =>
    rw [List.map_eq_nil_iff] at htags
    subst htags
    exact ⟨ds, .nil ds⟩
  | moreDefinitions hd _ _ ih =>
    cases hd with
    | definition hbody =>
      obtain ⟨us, rest, rfl, hus, hrest⟩ := List.map_eq_append_iff.mp htags
      obtain ⟨name, us, rfl, hname, hus⟩ := List.map_eq_cons_iff.mp hus
      obtain ⟨sign, body, rfl, hsign, hus⟩ := List.map_eq_cons_iff.mp hus
      have hscope : Scope.definition.canBegin .name = false := rfl
      obtain ⟨terms, hterms, hreads⟩ :=
        exists_reads_of_derives hbody (.inl (by rw [hscope])) hus (by simp [hscope])
      obtain ⟨es, hes⟩ := ih rfl hrest
      exact ⟨es, .cons hname hsign hreads hterms hes⟩
  | _ => simp at hsymbol

theorem Defines.tag_ne_questionSign (h : Defines ds ts es) : ∀ t ∈ ts, t.tag ≠ .questionSign := by
  induction h with
  | nil => simp
  | cons hname hsign hbody _ _ ih =>
    simp only [List.forall_mem_cons, List.forall_mem_append]
    exact ⟨by simp [hname], by simp [hsign], fun t ht => (hbody.tag_ne_and_find? t ht).1, ih⟩

theorem Defines.contains_iff (h : Defines ds ts es) (name : String)
    : es.contains name ↔ ds.contains name ∨ ∃ t ∈ ts, t.tag = .name ∧ t.text = name := by
  induction h with
  | nil => simp
  | @cons ds _ head _ body _ _ hname hsign hbody _ _ ih =>
    -- The names among the tokens are those that are defined, since bodies have none.
    have hbody : ¬∃ t ∈ body, t.tag = .name ∧ t.text = name := by
      rintro ⟨t, ht, htag, _⟩
      exact hbody.tag_ne_name t ht htag
    rw [ih, Definitions.contains_define_iff]
    simp [hname, hsign, hbody, or_and_right, exists_or, or_assoc]

end Definitions

section Programs

variable {sign question : Token} {complexity : Complexity} {ts us body : List Token}
  {ds : Definitions} {last : Token}

theorem Defines.cons_tag_ne_questionSign (hsign : sign.tag = .complexity complexity)
    (hts : Defines {} ts ds)
    : ∀ t ∈ sign :: ts, decide (t.tag ≠ .questionSign) = true := by
  simpa [hsign] using hts.tag_ne_questionSign

theorem takeWhile_program (hsign : sign.tag = .complexity complexity) (hts : Defines {} ts ds)
    (hquestion : question.tag = .questionSign) (us : List Token)
    : (sign :: (ts ++ question :: us)).takeWhile (·.tag ≠ .questionSign) = sign :: ts := by
  rw [← List.cons_append, List.takeWhile_append_of_pos (hts.cons_tag_ne_questionSign hsign)]
  simp [hquestion]

theorem dropWhile_program (hsign : sign.tag = .complexity complexity) (hts : Defines {} ts ds)
    (hquestion : question.tag = .questionSign) (us : List Token)
    : (sign :: (ts ++ question :: us)).dropWhile (·.tag ≠ .questionSign) = question :: us := by
  rw [← List.cons_append, List.dropWhile_append_of_pos (hts.cons_tag_ne_questionSign hsign)]
  simp [hquestion]

theorem usedNames_subset_iff (hsign : sign.tag = .complexity complexity) (hts : Defines {} ts ds)
    (hquestion : question.tag = .questionSign)
    : Token.usedNames (sign :: (ts ++ question :: us))
        ⊆ Token.definedNames (sign :: (ts ++ question :: us))
      ↔ ∀ t ∈ us, t.tag = .name → ((Scope.task ds).find? t.text).isSome := by
  have hused : Token.usedNames (sign :: (ts ++ question :: us))
      = (us.filter (·.tag = .name)).map Token.text := by
    rw [Token.usedNames, dropWhile_program hsign hts hquestion us]
    simp [hquestion]
  have hdefined : Token.definedNames (sign :: (ts ++ question :: us))
      = (ts.filter (·.tag = .name)).map Token.text := by
    rw [Token.definedNames, takeWhile_program hsign hts hquestion us]
    simp [hsign]
  have hcontains (name : String) : (ds.find? name).isSome ↔ ∃ t ∈ ts, t.tag = .name ∧ t.text = name := by
    have := hts.contains_iff name
    simpa [Definitions.contains, Definitions.find?] using this
  rw [hused, hdefined]
  simp only [List.subset_def, List.mem_map, List.mem_filter, decide_eq_true_eq, Scope.find?,
    hcontains, and_assoc]
  constructor
  . intro h t ht htag
    exact h ⟨t, ht, htag, rfl⟩
  . rintro h _ ⟨t, ht, htag, rfl⟩
    exact h t ht htag

theorem Describes.accepted {program : Program} (h : Describes body program)
    : Token.Accepted body := by
  cases h with
  | @mk sign question complexity ts us ds task hsign hts hquestion hus htask =>
    constructor
    . have htask := hus.derives_of_ne_nil htask
      simpa [hsign, hquestion] using Derives.program complexity hts.derives htask
    . rw [usedNames_subset_iff hsign hts hquestion]
      intro t ht
      exact (hus.tag_ne_and_find? t ht).2

theorem exists_describes_of_accepted (h : Token.Accepted body)
    : ∃ program, Describes body program := by
  obtain ⟨hderives, hnames⟩ := h
  generalize htags : body.map Token.tag = tags at hderives
  cases hderives with
  | program complexity hds htask =>
    obtain ⟨sign, rest, rfl, hsign, hrest⟩ := List.map_eq_cons_iff.mp htags
    obtain ⟨ts, rest, rfl, hts, hrest⟩ := List.map_eq_append_iff.mp hrest
    obtain ⟨question, us, rfl, hquestion, hus⟩ := List.map_eq_cons_iff.mp hrest
    obtain ⟨ds, hdefines⟩ := exists_defines_of_derives hds rfl hts
    rw [usedNames_subset_iff hsign hdefines hquestion] at hnames
    obtain ⟨task, hne, hreads⟩ :=
      exists_reads_of_derives htask (.inl rfl) hus (fun _ => hnames)
    exact ⟨_, .mk hsign hdefines hquestion hreads hne⟩

theorem exists_parse_eq_ok_iff (hlast : last.tag = .endOfProgram)
    (hbody : ∀ t ∈ body, t.tag ≠ .endOfProgram) (warns : Bool)
    : (∃ program, (parse (body ++ [last]) warns).result = .ok program) ↔ Token.Accepted body := by
  simp only [parse_eq_ok_iff hlast hbody warns]
  constructor
  . rintro ⟨program, h⟩
    exact h.accepted
  . exact exists_describes_of_accepted

theorem parse_isOk_iff_accepted (hlast : last.tag = .endOfProgram)
    (hbody : ∀ t ∈ body, t.tag ≠ .endOfProgram) (warns : Bool)
    : ((∃ program, (parse (body ++ [last]) warns).result = .ok program) ↔ Token.Accepted body)
      ∧ (¬Token.Accepted body → ∃ text position,
          (parse (body ++ [last]) warns).result
            = .error (.complaint { text, position := some position })) := by
  have hiff := exists_parse_eq_ok_iff hlast hbody warns
  refine ⟨hiff, ?_⟩
  intro hrejected
  apply (parse_ok_or_complaint hlast warns).resolve_left
  rwa [hiff]

theorem parse_isOk_iff_accepted_of_reference
    : let tokens (used : String) : List Token :=
        [(.complexity .unbounded, "inf"), (.name, "C1"), (.equalSign, "="), (.primitive .K, "K"),
          (.questionSign, "?"), (.leftBracket, "("), (.name, used), (.primitive .S, "S"),
          (.rightBracket, ")")].map fun (tag, text) => ⟨tag, default, text⟩
      let last : Token := ⟨.endOfProgram, default, ""⟩
      (∃ program, (parse (tokens "C1" ++ [last]) true).result = .ok program)
        ∧ ∃ text position, (parse (tokens "C2" ++ [last]) true).result
            = .error (.complaint { text, position := some position }) := by
  intro tokens last
  have hdefinitions : Derives .definitions [.name, .equalSign, .primitive .K] :=
    .moreDefinitions (.definition (.oneTerm (.primitive _ .K))) .noDefinition
  have htask : Derives (.terms true) [.leftBracket, .name, .primitive .S, .rightBracket] :=
    .oneTerm (.group (.moreTerms .name (.oneTerm (.primitive _ .S))))
  constructor
  . apply (parse_isOk_iff_accepted rfl (by decide) true).1.mpr
    exact ⟨.program .unbounded hdefinitions htask, by decide⟩
  . apply (parse_isOk_iff_accepted rfl (by decide) true).2
    intro h
    exact absurd h.usedNames_subset (by decide)

end Programs

end Combinatory
