import Combinatory.Proofs.Calculus.Meaning
import Combinatory.Proofs.Program.Viability

namespace Combinatory

theorem Definitions.mem_define {ds : Definitions} {d e : Definition}
    (h : e ∈ (ds.define d).toList)
    : e = d ∨ e ∈ ds.toList := by
  have hgo (es : List Definition) (h : e ∈ define.go d es) : e = d ∨ e ∈ es := by
    induction es with
    | nil => simpa [define.go] using h
    | cons first others ih =>
      unfold define.go at h
      split at h
      . rw [List.mem_cons] at h ⊢
        exact h.imp_right .inr
      . rw [List.mem_cons] at h ⊢
        obtain h | h := h
        . exact .inr (.inl h)
        . exact (ih h).imp_right .inr
  exact hgo ds.toList h

theorem Reads.filled {scope : Scope} {ts : List Token} {terms : List Term}
    (h : Reads scope ts terms)
    (hscope : ∀ name d, scope.find? name = some d → d.expand.Filled)
    : ∀ t ∈ terms, t.Filled := by
  induction h with
  | nil => simp
  | primitive _ _ ih =>
    rw [List.forall_mem_cons]
    exact ⟨Term.filled_primitive _ _, ih⟩
  | name _ hfind _ ih =>
    rw [List.forall_mem_cons]
    exact ⟨hscope _ _ hfind, ih⟩
  | group _ _ hmembers _ _ ihmembers ih =>
    rw [List.forall_mem_cons, Group.term, Term.filled_group_iff, Group.nodes_ofNodes]
    exact ⟨⟨hmembers, ihmembers⟩, ih⟩

theorem Defines.filled {ds es : Definitions} {ts : List Token} (h : Defines ds ts es)
    (hds : ∀ d ∈ ds.toList, d.expand.Filled)
    : ∀ d ∈ es.toList, d.expand.Filled := by
  induction h with
  | nil => exact hds
  | cons _ _ hbody hterms _ ih =>
    refine ih fun d hd => ?_
    obtain rfl | hd := Definitions.mem_define hd
    . rw [Definition.expand, Group.term, Term.filled_group_iff, Group.nodes_ofNodes]
      exact ⟨hterms, hbody.filled (by simp [Scope.find?])⟩
    . exact hds d hd

theorem Describes.filled {body : List Token} {program : Program} (h : Describes body program)
    : Filled program.task := by
  cases h with
  | mk _ hts _ hus htask =>
    refine ⟨htask, hus.filled fun name d hd => ?_⟩
    exact hts.filled (by simp) d (List.mem_of_find?_eq_some hd)

theorem Expression.passed_pass (counts : Counts) (t : Token)
    : (counts.pass t).passed = counts.passed + 1 := by
  rw [pass_eq]

theorem Expression.exists_passed (scope : Scope) (last : Token) (stack : List Group)
    (tokens : List Token) (counts : Counts)
    : ∃ ts, tokens = ts ++ (read scope last stack tokens counts).rest
        ∧ (read scope last stack tokens counts).counts.passed = counts.passed + ts.length := by
  fun_induction read scope last stack tokens counts with
  | case1 => exact ⟨[], rfl, rfl⟩
  | case2 => exact ⟨[], rfl, rfl⟩
  | case3 stack counts t rest stack' hshift ih =>
    obtain ⟨ts, hts, hpassed⟩ := ih
    refine ⟨t :: ts, by rw [List.cons_append, ← hts], ?_⟩
    rw [hpassed, passed_pass, List.length_cons]
    omega
  | case4 stack counts t rest term hshift => exact ⟨[t], rfl, passed_pass counts t⟩
  | case5 stack counts t rest term g outer hshift ih =>
    obtain ⟨ts, hts, hpassed⟩ := ih
    refine ⟨t :: ts, by rw [List.cons_append, ← hts], ?_⟩
    rw [hpassed, passed_pass, List.length_cons]
    omega

namespace Parser

structure Advances (p q : Parser) : Prop where
  last : q.last = p.last
  passed : ∃ ts, p.rest = ts ++ q.rest ∧ q.index = p.index + ts.length

structure Moves (p q : Parser) : Prop extends Advances p q where
  complexity : q.complexity = p.complexity
  definitions : q.definitions = p.definitions
  task : q.task = p.task
  warnings : q.warnings = p.warnings

structure Tidy (p : Parser) : Prop where
  task : ∀ t ∈ p.task, t.Filled
  definitions : ∀ d ∈ p.definitions.toList, Filled d.body.nodes.toList

structure Proceeds (p q : Parser) : Prop extends Advances p q where
  tidy : p.Tidy → q.Tidy

section Order

variable {p q r : Parser}

theorem Advances.refl (p : Parser) : Advances p p :=
  ⟨rfl, [], rfl, rfl⟩

theorem Advances.trans (h : Advances p q) (h' : Advances q r) : Advances p r := by
  obtain ⟨hlast, ts, hrest, hindex⟩ := h
  obtain ⟨hlast', us, hrest', hindex'⟩ := h'
  refine ⟨hlast'.trans hlast, ts ++ us, ?_, ?_⟩
  . rw [hrest, hrest', List.append_assoc]
  . rw [hindex', hindex, List.length_append]
    omega

theorem Advances.getElem?_index (h : Advances p q) (hindex : p.index = 0)
    : (p.rest ++ [p.last])[q.index]? = some q.current := by
  obtain ⟨hlast, ts, hrest, hpassed⟩ := h
  obtain ⟨others, hothers⟩ := exists_append_last q.rest p.last
  rw [hrest, List.append_assoc, hothers, hpassed, hindex, Nat.zero_add, current, hlast]
  simp

theorem Moves.refl (p : Parser) : Moves p p :=
  ⟨.refl p, rfl, rfl, rfl, rfl⟩

theorem Moves.trans (h : Moves p q) (h' : Moves q r) : Moves p r where
  toAdvances := h.toAdvances.trans h'.toAdvances
  complexity := h'.complexity.trans h.complexity
  definitions := h'.definitions.trans h.definitions
  task := h'.task.trans h.task
  warnings := h'.warnings.trans h.warnings

theorem Tidy.of_moves (hp : p.Tidy) (h : Moves p q) : q.Tidy := by
  obtain ⟨htask, hdefinitions⟩ := hp
  rw [← h.task] at htask
  rw [← h.definitions] at hdefinitions
  exact ⟨htask, hdefinitions⟩

theorem Proceeds.refl (p : Parser) : Proceeds p p :=
  ⟨.refl p, id⟩

theorem Proceeds.trans (h : Proceeds p q) (h' : Proceeds q r) : Proceeds p r :=
  ⟨h.toAdvances.trans h'.toAdvances, h'.tidy ∘ h.tidy⟩

theorem Moves.proceeds (h : Moves p q) : Proceeds p q :=
  ⟨h.toAdvances, fun hp => hp.of_moves h⟩

end Order

section Composition

variable {α β ε : Type} {p : Parser}

theorem Proceeds.andThen {f : Parser → Parser × α} {g : α → Parser → Parser × β}
    (hf : Proceeds p (f p).1) (hg : ∀ q a, f p = (q, a) → Proceeds q (g a q).1)
    : Proceeds p (Parser.andThen f g p).1 :=
  hf.trans (hg _ _ rfl)

theorem Proceeds.andThen_onSuccess {f : Parser → Parser × Except ε α}
    {g : α → Parser → Parser × Except ε β} (hf : Proceeds p (f p).1)
    (hg : ∀ a q, Proceeds q (g a q).1)
    : Proceeds p (Parser.andThen f (onSuccess g) p).1 := by
  apply hf.andThen
  rintro q (fault | a) _
  . exact .refl q
  . exact hg a q

end Composition

section Parts

variable {p q : Parser} {scope : Scope}

theorem moves_next (p : Parser) : Moves p p.next := by
  unfold next
  split
  . exact .refl p
  . next t rest hrest => exact ⟨⟨rfl, [t], hrest, rfl⟩, rfl, rfl, rfl, rfl⟩

theorem moves_expect {tag : Tag} {expectation : Expectation} {result : Except ParseFault Unit}
    (h : p.expect tag expectation = (q, result))
    : Moves p q := by
  unfold expect at h
  split at h
  . cases h
    apply moves_next
  . cases h
    apply Moves.refl

theorem moves_readTerm {result : Except ParseFault Term} (h : p.readTerm scope = (q, result))
    : Moves p q := by
  obtain ⟨ts, hrest, hpassed⟩ := Expression.exists_passed scope p.last [] p.rest {}
  rw [Nat.zero_add] at hpassed
  cases h
  exact ⟨⟨rfl, ts, hrest, congrArg (p.index + ·) hpassed⟩, rfl, rfl, rfl, rfl⟩

theorem moves_readTerms {body body' : Group} {result : Except ParseFault Unit}
    (h : p.readTerms scope body = (q, body', result))
    : Moves p q := by
  fun_induction readTerms p scope body with
  | case1 p body p' fault hread =>
    cases h
    exact moves_readTerm hread
  | case2 p body p' term hread body'' hcurrent ih => exact (moves_readTerm hread).trans (ih h)
  | case3 p body p' term hread body'' hcurrent =>
    obtain ⟨rfl, _⟩ := Prod.mk.inj h
    exact moves_readTerm hread

theorem moves_readPrimitive (p : Parser) : Moves p p.readPrimitive.1 := by
  have hcounted : Moves p { p with primitives := p.primitives + 1 }.next := by
    apply Moves.trans _ (moves_next _)
    exact ⟨⟨rfl, [], rfl, rfl⟩, rfl, rfl, rfl, rfl⟩
  unfold readPrimitive
  dsimp only
  split
  . exact hcounted
  . exact hcounted

theorem moves_readReference (p : Parser) : Moves p p.readReference.1 := by
  unfold readReference
  split
  . apply moves_next
  . apply Moves.refl

theorem proceeds_readComplexity (p : Parser) : Proceeds p p.readComplexity.1 := by
  unfold readComplexity
  split
  . next complexity _ =>
    have hsigned : Proceeds p { p with complexity := some complexity } :=
      ⟨⟨rfl, [], rfl, rfl⟩, fun hp => ⟨hp.task, hp.definitions⟩⟩
    exact hsigned.trans (moves_next _).proceeds
  . apply Proceeds.refl

theorem exists_complete_of_readTerms {body body' : Group} {result : Except ParseFault Unit}
    (h : p.readTerms scope body = (q, body', result))
    : ∃ ts rest terms, p.rest = ts ++ rest ∧ Reads scope ts terms
        ∧ body' = terms.foldl Group.add body
        ∧ (result = .ok () → terms ≠ [])
        ∧ ∀ fault, result = .error fault
          → (p.behind ts rest).readTerm scope = (q, .error fault) := by
  fun_induction readTerms p scope body with
  | case1 p body p' fault hread =>
    cases h
    refine ⟨[], p.rest, [], rfl, .nil, rfl, by simp, ?_⟩
    intro fault' hfault
    cases hfault
    exact hread
  | case2 p body p' term hread body'' hcurrent ih =>
    obtain ⟨ts, rest, hrest, hts, rfl⟩ := exists_reads_of_readTerm hread
    obtain ⟨us, rest', terms, hrest', hus, rfl, _, hfault⟩ := ih h
    rw [rest_behind] at hrest'
    subst hrest'
    refine ⟨ts ++ us, rest', term :: terms, by simp [hrest], hts.append hus, rfl, by simp, ?_⟩
    rwa [behind_behind] at hfault
  | case3 p body p' term hread body'' hcurrent =>
    obtain ⟨ts, rest, hrest, hts, rfl⟩ := exists_reads_of_readTerm hread
    simp only [Prod.mk.injEq] at h
    obtain ⟨_, rfl, rfl⟩ := h
    exact ⟨ts, rest, [term], hrest, hts, rfl, by simp, by simp⟩

theorem proceeds_define {name : Token} {body : Group} (hbody : Filled body.nodes.toList)
    (p : Parser)
    : Proceeds p (p.define name body) := by
  have hdefine : p.define name body
      = p.defining [] p.rest (p.definitions.define ⟨name.text, body, name.span⟩)
          (p.define name body).warnings :=
    define_behind p [] p.rest name body
  rw [hdefine]
  refine ⟨⟨rfl, [], rfl, rfl⟩, fun hp => ⟨hp.task, ?_⟩⟩
  intro d hd
  obtain rfl | hd := Definitions.mem_define hd
  . exact hbody
  . exact hp.definitions d hd

theorem proceeds_readDefinition (p : Parser) : Proceeds p p.readDefinition.1 := by
  rw [readDefinition_eq p.current p rfl]
  apply Proceeds.andThen_onSuccess (Moves.proceeds (moves_expect rfl))
  intro _ p
  apply Proceeds.andThen_onSuccess (Moves.proceeds (moves_expect rfl))
  intro _ p
  apply Proceeds.andThen (Moves.proceeds (moves_readTerms rfl))
  rintro q ⟨body, fault | _⟩ hread
  . exact .refl q
  . obtain ⟨ts, rest, terms, _, hreads, rfl, hterms, _⟩ := exists_complete_of_readTerms hread
    apply proceeds_define
    rw [Group.nodes_foldl_add]
    refine ⟨by simpa using hterms rfl, ?_⟩
    simpa using hreads.filled (by simp [Scope.find?])

theorem proceeds_readDefinitions (p : Parser) : Proceeds p p.readDefinitions.1 := by
  fun_induction readDefinitions p with
  | case1 p _ p' fault hread =>
    have hproceeds := proceeds_readDefinition p
    rwa [hread] at hproceeds
  | case2 p _ p' hread ih =>
    have hproceeds := proceeds_readDefinition p
    rw [hread] at hproceeds
    exact hproceeds.trans ih
  | case3 p => exact .refl p

theorem Tidy.filled_of_reads {ts : List Token} {terms : List Term} (hp : p.Tidy)
    (h : Reads (.task p.definitions) ts terms)
    : ∀ t ∈ terms, t.Filled := by
  apply h.filled
  intro name d hd
  rw [Definition.expand, Group.term, Term.filled_group_iff]
  apply hp.definitions
  exact List.mem_of_find?_eq_some hd

theorem proceeds_readTask {result : Except ParseFault Unit} (h : p.readTask = (q, result))
    : Proceeds p q := by
  obtain ⟨p', body, hread, rfl⟩ := exists_readTerms_of_readTask h
  have hmoves := moves_readTerms hread
  obtain ⟨ts, rest, terms, _, hreads, rfl, _⟩ := exists_complete_of_readTerms hread
  refine ⟨⟨hmoves.last, hmoves.passed⟩, fun hp => ?_⟩
  have hp' := hp.of_moves hmoves
  refine ⟨fun t ht => ?_, hp'.definitions⟩
  simp only [Group.nodes_foldl_add, Group.nodes_empty, Array.empty_append, Array.mem_append,
    List.mem_toArray] at ht
  obtain ht | ht := ht
  . exact hp'.task t ht
  . exact hp.filled_of_reads hreads t ht

theorem proceeds_parse (p : Parser) : Proceeds p p.parse.1 := by
  rw [parse_eq]
  apply (proceeds_readComplexity p).andThen_onSuccess
  intro complexity p
  apply (proceeds_readDefinitions p).andThen_onSuccess
  intro _ p
  apply Proceeds.andThen_onSuccess (Moves.proceeds (moves_expect rfl))
  intro _ p
  apply Proceeds.andThen_onSuccess (proceeds_readTask rfl)
  intro _ p
  split
  . exact .refl p
  . exact .refl p

theorem moves_of_readDefinition_error {fault : ParseFault}
    (h : p.readDefinition = (q, .error fault))
    : Moves p q := by
  unfold readDefinition at h
  split at h
  . next hnamed =>
    cases h
    exact moves_expect hnamed
  . next hnamed =>
    split at h
    . next hequated =>
      cases h
      exact (moves_expect hnamed).trans (moves_expect hequated)
    . next hequated =>
      split at h
      . next hread =>
        cases h
        exact ((moves_expect hnamed).trans (moves_expect hequated)).trans (moves_readTerms hread)
      . simp at h

end Parts

end Parser

inductive Call where
  | parse
  | complexity
  | definition
  | definitionTerm
  | task
  | taskTerm
  | primitive
  | reference
  | next
  deriving DecidableEq

namespace Call

def fault? {α : Type} : Except ParseFault α → Option ParseFault
  | .ok _ => none
  | .error fault => some fault

def run (p : Parser) : Call → Parser × Option ParseFault
  | .parse => p.parse.map id fault?
  | .complexity => p.readComplexity.map id fault?
  | .definition => p.readDefinition.map id fault?
  | .definitionTerm => p.readDefinitionTerm.map id fault?
  | .task => p.readTask.map id fault?
  | .taskTerm => p.readTaskTerm.map id fault?
  | .primitive => p.readPrimitive.map id fault?
  | .reference => p.readReference.map id fault?
  | .next => (p.next, none)

def runAll (p : Parser) (calls : List Call) : Parser :=
  calls.foldl (fun p call => (call.run p).1) p

section Calls

variable {p : Parser} {call : Call} {fault : ParseFault}

theorem proceeds_run (call : Call) (p : Parser) : p.Proceeds (call.run p).1 := by
  cases call with
  | parse => exact p.proceeds_parse
  | complexity => exact p.proceeds_readComplexity
  | definition => exact p.proceeds_readDefinition
  | definitionTerm => exact (Parser.moves_readTerm rfl).proceeds
  | task => exact Parser.proceeds_readTask rfl
  | taskTerm => exact (Parser.moves_readTerm rfl).proceeds
  | primitive => exact p.moves_readPrimitive.proceeds
  | reference => exact p.moves_readReference.proceeds
  | next => exact p.moves_next.proceeds

theorem proceeds_runAll (calls : List Call) (p : Parser) : p.Proceeds (runAll p calls) := by
  induction calls generalizing p with
  | nil => exact .refl p
  | cons call calls ih =>
    apply (proceeds_run call p).trans
    apply ih

theorem eq_error_of_fault? {α : Type} {result : Except ParseFault α}
    (h : fault? result = some fault)
    : result = .error fault := by
  cases result with
  | ok => cases h
  | error =>
    cases h
    rfl

theorem moves_of_fault (h : (call.run p).2 = some fault) (hparse : call ≠ .parse)
    (htask : call ≠ .task)
    : p.Moves (call.run p).1 := by
  cases call with
  | parse => contradiction
  | task => contradiction
  | complexity =>
    have hread : p.readComplexity = (p.readComplexity.1, .error fault) :=
      Prod.ext rfl (eq_error_of_fault? h)
    rw [run, Prod.map, Parser.eq_of_readComplexity_error hread]
    exact .refl p
  | definition =>
    have hread : p.readDefinition = (p.readDefinition.1, .error fault) :=
      Prod.ext rfl (eq_error_of_fault? h)
    exact Parser.moves_of_readDefinition_error hread
  | definitionTerm => exact Parser.moves_readTerm rfl
  | taskTerm => exact Parser.moves_readTerm rfl
  | primitive => exact p.moves_readPrimitive
  | reference => exact p.moves_readReference
  | next => cases h

theorem exists_complete_of_fault (h : (Call.task.run p).2 = some fault)
    : ∃ ts rest terms, p.rest = ts ++ rest ∧ Reads (.task p.definitions) ts terms
        ∧ p.Moves { (Call.task.run p).1 with task := p.task }
        ∧ (Call.task.run p).1.task = p.task ++ terms.toArray
        ∧ (p.behind ts rest).readTaskTerm.2 = .error fault := by
  have hread : p.readTask = (p.readTask.1, .error fault) := Prod.ext rfl (eq_error_of_fault? h)
  obtain ⟨q, body, hterms, hq⟩ := Parser.exists_readTerms_of_readTask hread
  obtain ⟨ts, rest, terms, hrest, hreads, rfl, _, hfault⟩ :=
    Parser.exists_complete_of_readTerms hterms
  have hmoves := Parser.moves_readTerms hterms
  refine ⟨ts, rest, terms, hrest, hreads, ?_, ?_, ?_⟩
  . rw [run, Prod.map, hq]
    exact ⟨⟨hmoves.last, hmoves.passed⟩, hmoves.complexity, hmoves.definitions, rfl,
      hmoves.warnings⟩
  . rw [run, Prod.map, hq]
    simp [Group.nodes_foldl_add, hmoves.task]
  . exact congrArg Prod.snd (hfault fault rfl)

end Calls

end Call

/--
Whatever was called before, a call goes forward within the tokens and leaves nothing empty in what
the parser keeps. If it fails, and is not a whole parse, it changes nothing in that, but for the
terms of a task that were complete by then.
-/
theorem Call.calls_survive_faults (body : List Token) {last : Token}
    (hlast : last.tag = .endOfProgram) (warns : Bool)
    : ∃ p, Parser.ofTokens? (body ++ [last]) warns = .ok p
        ∧ ∀ (calls : List Call) (call : Call),
          let before := runAll p calls
          let after := (call.run before).1
          after.index < (body ++ [last]).length ∧ before.index ≤ after.index
            ∧ (body ++ [last])[after.index]? = some after.current
            ∧ (∀ t ∈ after.task, t.Filled)
            ∧ (∀ d ∈ after.definitions.toList, Filled d.body.nodes.toList)
            ∧ ∀ fault, (call.run before).2 = some fault → call ≠ .parse
              → after.complexity = before.complexity
                ∧ after.definitions = before.definitions
                ∧ after.warnings = before.warnings
                ∧ (call ≠ .task → after.task = before.task)
                ∧ (call = .task → ∃ ts rest terms, before.rest = ts ++ rest
                  ∧ Reads (.task before.definitions) ts terms
                  ∧ after.task = before.task ++ terms.toArray
                  ∧ (before.behind ts rest).readTaskTerm.2 = .error fault) := by
  refine ⟨_, Parser.ofTokens?_append hlast warns, fun calls call => ?_⟩
  intro before after
  have hbefore := proceeds_runAll calls
    { rest := body, last, last_tag := hlast, warnings := if warns then some #[] else none }
  have hafter : before.Proceeds after := proceeds_run call before
  have htidy : after.Tidy := by
    apply hafter.tidy
    apply hbefore.tidy
    exact ⟨by simp, by simp⟩
  have hcurrent : (body ++ [last])[after.index]? = some after.current :=
    (hbefore.trans hafter).getElem?_index rfl
  have hindex : after.index < (body ++ [last]).length := by
    rw [List.getElem?_eq_some_iff] at hcurrent
    exact hcurrent.1
  have hle : before.index ≤ after.index := by
    obtain ⟨ts, _, hpassed⟩ := hafter.passed
    omega
  refine ⟨hindex, hle, hcurrent, htidy.task, htidy.definitions, ?_⟩
  intro fault hfault hparse
  by_cases htask : call = .task
  . subst htask
    obtain ⟨ts, rest, terms, hrest, hreads, hmoves, htask, herror⟩ :=
      exists_complete_of_fault hfault
    exact ⟨hmoves.complexity, hmoves.definitions, hmoves.warnings, fun h => absurd rfl h,
      fun _ => ⟨ts, rest, terms, hrest, hreads, htask, herror⟩⟩
  . have hmoves := moves_of_fault hfault hparse htask
    exact ⟨hmoves.complexity, hmoves.definitions, hmoves.warnings, fun _ => hmoves.task,
      fun h => absurd h htask⟩

theorem Call.calls_survive_faults_of_early_end
    : let tokens : List Token :=
        [(.name, "C1"), (.equalSign, "="), (.primitive .K, "K"), (.leftBracket, "("),
          (.endOfProgram, ""), (.primitive .S, "S"), (.leftBracket, "(")].map
            fun (tag, text) => ⟨tag, default, text⟩
      let last : Token := ⟨.endOfProgram, default, ""⟩
      ∃ p, Parser.ofTokens? (tokens ++ [last]) true = .ok p
        ∧ let before := runAll p [.definition, .primitive]
          let after := (Call.task.run before).1
          (Call.task.run before).2 = some (.expected .taskTerm last)
            ∧ before.index = 5 ∧ after.index = 7
            ∧ after.definitions = before.definitions
            ∧ (∃ ts rest terms, before.rest = ts ++ rest
              ∧ Reads (.task before.definitions) ts terms
              ∧ after.task = before.task ++ terms.toArray
              ∧ (before.behind ts rest).readTaskTerm.2 = .error (.expected .taskTerm last))
            ∧ after.task.size = 1 := by
  intro tokens last
  obtain ⟨p, hp, hcalls⟩ := calls_survive_faults tokens (show last.tag = .endOfProgram from rfl) true
  refine ⟨p, hp, ?_⟩
  rw [Parser.ofTokens?_append rfl] at hp
  cases hp
  have hfault : (Call.task.run (runAll { rest := tokens, last, last_tag := rfl }
      [.definition, .primitive])).2 = some (.expected .taskTerm last) := by
    decide +kernel
  obtain ⟨_, _, _, _, _, hfails⟩ := hcalls [.definition, .primitive] .task
  obtain ⟨_, hdefinitions, _, _, htask⟩ := hfails _ hfault (by decide)
  exact ⟨hfault, by decide +kernel, by decide +kernel, hdefinitions, htask rfl, by decide +kernel⟩

end Combinatory
