import Combinatory.Proofs.Program.Acceptance
import Combinatory.Proofs.Reduction.Budget
import Mathlib.Algebra.Order.Ring.Int

namespace Combinatory

namespace Token

/--
The definitions among the tokens in front of the question sign: a name, and what stands between the
sign behind it and the next name.
-/
def definitionsOf : List Token → List (String × List Token)
  | [] => []
  | t :: ts =>
    if t.tag = .name then
      (t.text, (ts.takeWhile (·.tag ≠ .name)).tail) :: definitionsOf ts
    else
      definitionsOf ts

def bodyOf? (tokens : List Token) (name : String) : Option (List Token) :=
  let definitions := definitionsOf (tokens.takeWhile (·.tag ≠ .questionSign))
  (definitions.reverse.find? (·.1 = name)).map (·.2)

def expansion (opening closing : Token → Token) (body? : String → Option (List Token)) (t : Token)
    : List Token :=
  if t.tag = .name then
    opening t :: ((body? t.text).getD [] ++ [closing t])
  else
    [t]

def substitute (opening closing : Token → Token) (tokens : List Token) : List Token :=
  tokens.takeWhile (·.tag ≠ .questionSign)
    ++ (tokens.dropWhile (·.tag ≠ .questionSign)).flatMap
      (expansion opening closing (bodyOf? tokens))

end Token

def Definition.SpelledBy (d : Definition) (body : List Token) : Prop :=
  ∃ members, Reads .definition body members ∧ members ≠ []
    ∧ d.expand = (Group.ofNodes members none).term

section Definitions

variable {ds es : Definitions} {ts body rest : List Token}

theorem Reads.task_of_definition {terms : List Term} (h : Reads .definition ts terms)
    (ds : Definitions)
    : Reads (.task ds) ts terms := by
  induction h with
  | nil => exact .nil
  | primitive htag _ ih => exact .primitive htag ih
  | name _ hfind => simp [Scope.find?] at hfind
  | group hopening _ hmembers hclosing _ ihinner ih =>
    exact .group hopening ihinner hmembers hclosing ih

theorem Token.definitionsOf_append (h : ∀ t ∈ ts, t.tag ≠ .name) (rest : List Token)
    : definitionsOf (ts ++ rest) = definitionsOf rest := by
  induction ts with
  | nil => rfl
  | cons t ts ih =>
    rw [List.forall_mem_cons] at h
    rw [List.cons_append, definitionsOf, if_neg h.1, ih h.2]

theorem Defines.takeWhile_eq_nil (h : Defines ds ts es) : ts.takeWhile (·.tag ≠ .name) = [] := by
  cases h with
  | nil => rfl
  | cons hname => simp [hname]

theorem Token.definitionsOf_cons {name sign : Token} (hname : name.tag = .name)
    (hsign : sign.tag = .equalSign) (hbody : ∀ t ∈ body, t.tag ≠ .name)
    (hrest : rest.takeWhile (·.tag ≠ .name) = [])
    : definitionsOf (name :: sign :: (body ++ rest))
        = (name.text, body) :: definitionsOf rest := by
  have hbody' : ∀ t ∈ sign :: body, decide (t.tag ≠ .name) = true := by
    simpa [hsign] using hbody
  have htake : (sign :: (body ++ rest)).takeWhile (·.tag ≠ .name) = sign :: body := by
    rw [← List.cons_append, List.takeWhile_append_of_pos hbody', hrest, List.append_nil]
  rw [definitionsOf, if_pos hname, htake, List.tail_cons, ← List.cons_append,
    definitionsOf_append (by simpa using hbody')]

theorem Defines.find?_cases (h : Defines ds ts es) (name : String)
    : ((Token.definitionsOf ts).reverse.find? (·.1 = name) = none ∧ es.find? name = ds.find? name)
      ∨ ∃ body d, (Token.definitionsOf ts).reverse.find? (·.1 = name) = some (name, body)
          ∧ es.find? name = some d ∧ d.SpelledBy body := by
  induction h with
  | nil => exact .inl ⟨rfl, rfl⟩
  | @cons ds es head sign body rest terms hname hsign hbody hterms h ih =>
    rw [Token.definitionsOf_cons hname hsign hbody.tag_ne_name h.takeWhile_eq_nil]
    simp only [List.reverse_cons, List.find?_append]
    obtain ⟨hnone, hfind⟩ | ⟨body', d, hsome, hspelled⟩ := ih
    . rw [hnone, hfind, Definitions.find?_define]
      by_cases heq : head.text = name
      . refine .inr ⟨body, _, ?_, by rw [if_pos heq], terms, hbody, hterms, rfl⟩
        simp [heq]
      . refine .inl ⟨?_, by rw [if_neg heq]⟩
        simp [heq]
    . refine .inr ⟨body', d, ?_, hspelled⟩
      rw [hsome, Option.some_or]

end Definitions

section Tasks

variable {opening closing : Token → Token} {body? : String → Option (List Token)} {ds : Definitions}
  {us : List Token} {terms : List Term}

theorem Reads.flatMap_expansion (h : Reads (.task ds) us terms)
    (hopening : ∀ t, (opening t).tag = .leftBracket)
    (hclosing : ∀ t, (closing t).tag = .rightBracket)
    (hbody : ∀ name d, ds.find? name = some d → ∃ body, body? name = some body ∧ d.SpelledBy body)
    : Reads (.task ds) (us.flatMap (Token.expansion opening closing body?)) terms := by
  induction h with
  | nil => exact .nil
  | primitive htag _ ih =>
    rw [List.flatMap_cons, Token.expansion, if_neg (by simp [htag])]
    exact .primitive htag ih
  | @name t d _ _ htag hfind _ ih =>
    obtain ⟨body, hsome, members, hreads, hmembers, hexpand⟩ := hbody t.text d hfind
    rw [List.flatMap_cons, Token.expansion, if_pos htag, hsome, hexpand, Option.getD_some,
      List.cons_append, List.append_assoc, List.singleton_append]
    exact .group (hopening t) (hreads.task_of_definition ds) hmembers (hclosing t) ih
  | @group left right _ _ _ _ hleft _ hmembers hright _ ihinner ih =>
    have hexpansion {t : Token} (ht : t.tag ≠ .name)
        : Token.expansion opening closing body? t = [t] :=
      if_neg ht
    rw [List.flatMap_cons, List.flatMap_append, List.flatMap_cons, hexpansion (by simp [hleft]),
      hexpansion (by simp [hright])]
    exact .group hleft ihinner hmembers hright ih

theorem Token.countP_flatMap_expansion (us : List Token)
    : us.countP isPrimitive
        ≤ (us.flatMap (expansion opening closing body?)).countP isPrimitive := by
  induction us with
  | nil => exact Nat.le_refl _
  | cons t us ih =>
    rw [List.flatMap_cons, List.countP_append, expansion]
    split
    . next htag =>
      rw [List.countP_cons_of_neg (by simp [isPrimitive, htag])]
      omega
    . rw [← List.singleton_append, List.countP_append]
      omega

end Tasks

section Programs

variable {opening closing : Token → Token} {sign question : Token} {complexity : Complexity}
  {ts us : List Token} {ds : Definitions}

theorem exists_bodyOf?_eq (hsign : sign.tag = .complexity complexity) (hts : Defines {} ts ds)
    (hquestion : question.tag = .questionSign) (us : List Token) {name : String} {d : Definition}
    (hfind : ds.find? name = some d)
    : ∃ body, Token.bodyOf? (sign :: (ts ++ question :: us)) name = some body
        ∧ d.SpelledBy body := by
  obtain ⟨_, hnone⟩ | ⟨body, d', hsome, hfind', hspelled⟩ := hts.find?_cases name
  . rw [hfind] at hnone
    cases hnone
  . cases hfind.symm.trans hfind'
    refine ⟨body, ?_, hspelled⟩
    rw [Token.bodyOf?, takeWhile_program hsign hts hquestion us, Token.definitionsOf,
      if_neg (by simp [hsign]), hsome]
    rfl

theorem substitute_program (hsign : sign.tag = .complexity complexity) (hts : Defines {} ts ds)
    (hquestion : question.tag = .questionSign) (us : List Token)
    : Token.substitute opening closing (sign :: (ts ++ question :: us))
        = sign :: (ts ++ question :: us.flatMap (Token.expansion opening closing
            (Token.bodyOf? (sign :: (ts ++ question :: us))))) := by
  rw [Token.substitute, takeWhile_program hsign hts hquestion us,
    dropWhile_program hsign hts hquestion us, List.flatMap_cons, Token.expansion,
    if_neg (by simp [hquestion])]
  simp

theorem Describes.substitute {body : List Token} {program : Program} (h : Describes body program)
    (hopening : ∀ t, (opening t).tag = .leftBracket)
    (hclosing : ∀ t, (closing t).tag = .rightBracket)
    : ∃ primitives, program.primitives ≤ primitives
        ∧ Describes (Token.substitute opening closing body) { program with primitives } := by
  cases h with
  | @mk sign question complexity ts us ds task hsign hts hquestion hus htask =>
    have hus' := hus.flatMap_expansion hopening hclosing
      fun _ _ => exists_bodyOf?_eq hsign hts hquestion us
    rw [substitute_program hsign hts hquestion us]
    refine ⟨_, ?_, .mk hsign hts hquestion hus' htask⟩
    rw [Parser.countP_program, Parser.countP_program]
    exact Nat.add_le_add_left (Token.countP_flatMap_expansion us) _

end Programs

section Bounds

theorem Complexity.bound_le {complexity : Complexity} {size size' : Nat} {bound bound' : Int}
    (hle : size ≤ size') (h : complexity.bound size = some bound)
    (h' : complexity.bound size' = some bound')
    : bound ≤ bound' := by
  cases complexity with
  | unbounded => simp [Complexity.bound] at h
  | exponential =>
    simp only [Complexity.bound, Option.some.injEq] at h h'
    rw [← h, ← h']
    have hexponent : ((size : Int) + 1).toNat ≤ ((size' : Int) + 1).toNat := by omega
    have hbase : (1 : Int) ≤ 2 := by decide
    exact pow_le_pow_right₀ hbase hexponent
  | quadratic =>
    simp only [Complexity.bound, Option.some.injEq] at h h'
    rw [← h, ← h']
    have hbase : (size : Int) + 1 ≤ size' + 1 := by omega
    have hnonneg : 0 ≤ (size : Int) + 1 := by omega
    exact pow_le_pow_left₀ hnonneg hbase 2

theorem Complexity.exists_bound {complexity : Complexity} (h : complexity.isBounded) (size : Int)
    : ∃ bound, complexity.bound size = some bound := by
  rw [← Option.isSome_iff_exists, bound_isSome, h]

end Bounds

section Results

variable {opening closing : Token → Token} {body : List Token} {last : Token}

/--
With names replaced by what their last definitions spell, in brackets, the tokens make a program
with the same parts. Without a bound it runs in the same way; with one, it may run on for longer.
-/
theorem parse_substitute (hbody : Token.Accepted body) (hlast : last.tag = .endOfProgram)
    (hopening : ∀ t, (opening t).tag = .leftBracket)
    (hclosing : ∀ t, (closing t).tag = .rightBracket) (warns : Bool)
    : Token.Accepted (Token.substitute opening closing body)
        ∧ ∃ program program' r r', (parse (body ++ [last]) warns).result = .ok program
          ∧ (parse (Token.substitute opening closing body ++ [last]) warns).result = .ok program'
          ∧ program'.complexity = program.complexity
          ∧ program'.definitions = program.definitions
          ∧ program'.task = program.task
          ∧ program.primitives ≤ program'.primitives
          ∧ Reducer.new? program.task program.complexity program.bound = .ok r
          ∧ Reducer.new? program'.task program'.complexity program'.bound = .ok r'
          ∧ (program.complexity = .unbounded → ∀ fuel, r'.reduce fuel = r.reduce fuel)
          ∧ (program.complexity.isBounded →
              (∃ fuel result, (r.reduce fuel).ending = .finished result)
              ∧ (∃ fuel result, (r'.reduce fuel).ending = .finished result)
              ∧ ∀ fuel fuel' result result', (r.reduce fuel).ending = .finished result
                → (r'.reduce fuel').ending = .finished result'
                → (r.reduce fuel).trace.toList <+: (r'.reduce fuel').trace.toList) := by
  obtain ⟨program, hprogram⟩ := exists_describes_of_accepted hbody
  obtain ⟨primitives, hle, hprogram'⟩ := hprogram.substitute hopening hclosing
  refine ⟨hprogram'.accepted, program, { program with primitives }, _, _,
    parse_eq_ok_of_describes hprogram hlast warns, parse_eq_ok_of_describes hprogram' hlast warns,
    rfl, rfl, rfl, hle, Reducer.new?_bound_isOk _ _ _, Reducer.new?_bound_isOk _ _ _, ?_, ?_⟩
  . intro hcomplexity fuel
    simp [hcomplexity, Complexity.bound]
  . intro hbounded
    obtain ⟨bound, hbound⟩ := Complexity.exists_bound hbounded program.primitives
    obtain ⟨bound', hbound'⟩ := Complexity.exists_bound hbounded primitives
    have hlimit := Reducer.budget?_eq_ok_some (r := ⟨program.task, _, _, 0⟩) hbounded hbound
    have hlimit' := Reducer.budget?_eq_ok_some (r := ⟨program.task, _, _, 0⟩) hbounded hbound'
    refine ⟨Reducer.exists_finished_of_bound hlimit, Reducer.exists_finished_of_bound hlimit', ?_⟩
    intro fuel fuel' result result'
    exact Reducer.trace_isPrefix_of_bound_le hlimit hlimit' (Complexity.bound_le hle hbound hbound')
      rfl rfl

theorem parse_substitute_of_redefined
    : let tokens : List Token :=
        [(.complexity .exponential, "exp"), (.name, "C1"), (.equalSign, "="), (.primitive .K, "K"),
          (.name, "C2"), (.equalSign, "="), (.primitive .S, "S"), (.primitive .I, "I"),
          (.name, "C1"), (.equalSign, "="), (.primitive .I, "I"), (.questionSign, "?"),
          (.name, "C1"), (.leftBracket, "("), (.name, "C2"), (.name, "C1"),
          (.rightBracket, ")")].map fun (tag, text) => ⟨tag, default, text⟩
      let last : Token := ⟨.endOfProgram, default, ""⟩
      let opening (t : Token) : Token := ⟨.leftBracket, t.span, "("⟩
      let closing (t : Token) : Token := ⟨.rightBracket, t.span, ")"⟩
      let substituted := Token.substitute opening closing tokens
      (substituted.drop 12).map Token.text
          = ["(", "I", ")", "(", "(", "S", "I", ")", "(", "I", ")", ")"]
        ∧ Token.Accepted substituted
        ∧ ∃ program program', (parse (tokens ++ [last]) true).result = .ok program
          ∧ (parse (substituted ++ [last]) true).result = .ok program'
          ∧ program'.task = program.task
          ∧ program.primitives ≤ program'.primitives := by
  intro tokens last opening closing substituted
  have haccepted : Token.Accepted tokens := by
    constructor
    . exact .program .exponential
        (.moreDefinitions (.definition (.oneTerm (.primitive _ .K)))
          (.moreDefinitions
            (.definition (.moreTerms (.primitive _ .S) (.oneTerm (.primitive _ .I))))
            (.moreDefinitions (.definition (.oneTerm (.primitive _ .I))) .noDefinition)))
        (.moreTerms .name (.oneTerm (.group (.moreTerms .name (.oneTerm .name)))))
    . decide
  obtain ⟨hsubstituted, program, program', _, _, hresult, hresult', _, _, htask, hle, _⟩ :=
    @parse_substitute opening closing tokens last haccepted rfl (fun _ => rfl) (fun _ => rfl) true
  exact ⟨by decide, hsubstituted, program, program', hresult, hresult', htask, hle⟩

end Results

end Combinatory
