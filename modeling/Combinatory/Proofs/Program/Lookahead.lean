import Combinatory.Proofs.Program.Parsing

/-!
The parser looks no further than its current token. Wherever it stops, it would have stopped in the
same way with other tokens behind that one: `looksAtCurrent_parse`.
-/

namespace Combinatory

namespace Expression

variable {scope : Scope} {last : Token} {stack : List Group} {tokens : List Token} {counts : Counts}

theorem shift_endOfProgram {t : Token} (h : t.tag = .endOfProgram)
    : shift scope stack t = .error (.expected (missing scope stack) t) := by
  simp [shift, h]

theorem read_of_shift_error {t : Token} {fault : ParseFault}
    (h : shift scope stack t = .error fault) (rest : List Token)
    : read scope last stack (t :: rest) counts
        = { rest := t :: rest, counts, result := .error fault } := by
  rw [read, h]

theorem read_looks_at_current (hlast : last.tag = .endOfProgram) (stack : List Group)
    (tokens : List Token) (counts : Counts) {reading : Reading}
    (h : read scope last stack tokens counts = reading)
    : ∃ ts, tokens = ts ++ reading.rest
        ∧ ∀ r, read scope last stack (ts ++ reading.rest.headD last :: r) counts
            = { reading with rest := reading.rest.headD last :: r } := by
  subst h
  fun_induction read scope last stack tokens counts with
  | case1 stack counts =>
    refine ⟨[], rfl, fun r => ?_⟩
    exact read_of_shift_error (shift_endOfProgram hlast) r
  | case2 stack counts t rest fault hshift =>
    refine ⟨[], rfl, fun r => ?_⟩
    exact read_of_shift_error hshift r
  | case3 stack counts t rest stack' hshift ih =>
    obtain ⟨ts, hts, hread⟩ := ih
    refine ⟨t :: ts, by rw [List.cons_append, ← hts], fun r => ?_⟩
    rw [List.cons_append, read, hshift]
    exact hread r
  | case4 stack counts t rest term hshift =>
    refine ⟨[t], rfl, fun r => ?_⟩
    rw [List.cons_append, read, hshift]
    rfl
  | case5 stack counts t rest term g outer hshift ih =>
    obtain ⟨ts, hts, hread⟩ := ih
    refine ⟨t :: ts, by rw [List.cons_append, ← hts], fun r => ?_⟩
    rw [List.cons_append, read, hshift]
    exact hread r

end Expression

namespace Parser

def ahead (p : Parser) (rest : List Token) : Parser :=
  { p with rest }

section Ahead

variable (p : Parser) (rest : List Token)

@[simp]
theorem rest_ahead : (p.ahead rest).rest = rest := rfl

@[simp]
theorem last_ahead : (p.ahead rest).last = p.last := rfl

@[simp]
theorem definitions_ahead : (p.ahead rest).definitions = p.definitions := rfl

@[simp]
theorem current_ahead_cons (t : Token) : (p.ahead (t :: rest)).current = t := rfl

end Ahead

section Next

variable {p : Parser} {t : Token} {rest : List Token} (hrest : p.rest = t :: rest)

include hrest

theorem rest_next : p.next.rest = rest := by
  simp [next, hrest]

theorem last_next : p.next.last = p.last := by
  simp [next, hrest]

theorem next_ahead (r : List Token) : (p.ahead (t :: r)).next = p.next.ahead r := by
  simp [next, ahead, hrest]

end Next

/--
From `p` on, `f` passes some tokens and stops at one. What it does depends on these only, and on no
token behind them.
-/
def LooksAtCurrent {α : Type} (f : Parser → Parser × α) (p : Parser) : Prop :=
  ∃ q a ts, f p = (q, a) ∧ p.rest = ts ++ q.rest ∧ q.last = p.last
    ∧ ∀ r, f (p.ahead (ts ++ q.current :: r)) = (q.ahead (q.current :: r), a)

section Composition

variable {α β ε : Type} {p q : Parser}

theorem exists_append_current {ts : List Token} (hrest : p.rest = ts ++ q.rest)
    (hlast : q.last = p.last) (r : List Token)
    : ∃ others, ts ++ q.current :: r = p.current :: others := by
  cases ts with
  | nil =>
    have hcurrent : q.current = p.current := by
      rw [List.nil_append] at hrest
      rw [current, current, hrest, hlast]
    exact ⟨r, by rw [List.nil_append, hcurrent]⟩
  | cons t ts =>
    refine ⟨ts ++ q.current :: r, ?_⟩
    rw [current_of_rest hrest, List.cons_append]

theorem LooksAtCurrent.of_eq {f : Parser → Parser × α} {a : α} {q : Parser} (h : f p = (q, a))
    (hrest : q.rest = p.rest) (hlast : q.last = p.last)
    (hahead : ∀ r, f (p.ahead (q.current :: r)) = (q.ahead (q.current :: r), a))
    : LooksAtCurrent f p :=
  ⟨q, a, [], h, hrest.symm, hlast, hahead⟩

theorem LooksAtCurrent.of_next {f : Parser → Parser × α} {a : α} {t : Token} (h : f p = (q, a))
    (hrest : p.rest = t :: q.rest) (hlast : q.last = p.last)
    (hahead : ∀ r, f (p.ahead (t :: r)) = (q.ahead r, a))
    : LooksAtCurrent f p :=
  ⟨q, a, [t], h, hrest, hlast, fun r => hahead (q.current :: r)⟩

theorem LooksAtCurrent.of_congr {f g : Parser → Parser × α} (hg : LooksAtCurrent g p)
    (h : ∀ rest, (p.ahead rest).current = p.current → f (p.ahead rest) = g (p.ahead rest))
    : LooksAtCurrent f p := by
  obtain ⟨q, a, ts, hq, hrest, hlast, hahead⟩ := hg
  refine ⟨q, a, ts, (h p.rest rfl).trans hq, hrest, hlast, fun r => ?_⟩
  rw [← hahead r]
  apply h
  obtain ⟨others, hothers⟩ := exists_append_current hrest hlast r
  rw [hothers, current_ahead_cons]

def andThen (f : Parser → Parser × α) (g : α → Parser → Parser × β) (p : Parser) : Parser × β :=
  g (f p).2 (f p).1

def onSuccess (g : α → Parser → Parser × Except ε β) : Except ε α → Parser → Parser × Except ε β
  | .error fault, p => (p, .error fault)
  | .ok a, p => g a p

section AndThen

variable {f : Parser → Parser × Except ε α} {g : α → Parser → Parser × Except ε β} {fault : ε}
  {a : α}

theorem andThen_of_error (h : f p = (q, .error fault))
    : andThen f (onSuccess g) p = (q, .error fault) := by
  rw [andThen, h, onSuccess]

theorem andThen_of_ok (h : f p = (q, .ok a)) : andThen f (onSuccess g) p = g a q := by
  rw [andThen, h, onSuccess]

end AndThen

theorem andThen_map {F : Parser → Parser} {f : Parser → Parser × α} {f' : Parser → Parser × α'}
    {g : α → Parser → Parser × β} {g' : α' → Parser → Parser × β'} {r : α → α'} {u : β → β'}
    (hf : f' (F p) = Prod.map F r (f p))
    (hg : ∀ a q, g' (r a) (F q) = Prod.map F u (g a q))
    : andThen f' g' (F p) = Prod.map F u (andThen f g p) := by
  rw [andThen, hf]
  exact hg (f p).2 (f p).1

theorem LooksAtCurrent.of_same {f : Parser → Parser × α} {a : α}
    (h : ∀ rest, (p.ahead rest).current = p.current → f (p.ahead rest) = (p.ahead rest, a))
    : LooksAtCurrent f p :=
  LooksAtCurrent.of_eq (h p.rest rfl) rfl rfl fun r => h (p.current :: r) rfl

theorem LooksAtCurrent.andThen {f : Parser → Parser × α} {g : α → Parser → Parser × β}
    (hf : LooksAtCurrent f p) (hg : ∀ q a, f p = (q, a) → LooksAtCurrent (g a) q)
    : LooksAtCurrent (Parser.andThen f g) p := by
  obtain ⟨q, a, ts, hq, hrest, hlast, hahead⟩ := hf
  obtain ⟨q', b, us, hq', hrest', hlast', hahead'⟩ := hg q a hq
  refine ⟨q', b, ts ++ us, ?_, ?_, hlast'.trans hlast, fun r => ?_⟩
  . rw [Parser.andThen, hq, hq']
  . rw [hrest, hrest', List.append_assoc]
  . -- Where `f` stops is the first of the tokens that `g` passes, or the one that it stops at.
    obtain ⟨others, hothers⟩ := exists_append_current hrest' hlast' r
    rw [Parser.andThen, List.append_assoc, hothers, hahead, ← hothers]
    exact hahead' r

theorem LooksAtCurrent.andThen_onSuccess {f : Parser → Parser × Except ε α}
    {g : α → Parser → Parser × Except ε β} (hf : LooksAtCurrent f p)
    (hg : ∀ q a, f p = (q, .ok a) → LooksAtCurrent (g a) q)
    : LooksAtCurrent (Parser.andThen f (onSuccess g)) p := by
  apply hf.andThen
  rintro q (fault | a) hq
  . exact LooksAtCurrent.of_same fun _ _ => rfl
  . exact hg q a hq

end Composition

section Parts

variable {p : Parser}

theorem looksAtCurrent_expect {tag : Tag} (expectation : Expectation) (htag : tag ≠ .endOfProgram)
    (p : Parser)
    : LooksAtCurrent (·.expect tag expectation) p := by
  by_cases hcurrent : p.current.tag = tag
  . obtain ⟨t, rest, hrest, ht⟩ := exists_rest_of_tag hcurrent htag
    apply LooksAtCurrent.of_next (q := p.next) (t := t)
    . rw [expect, if_pos hcurrent]
    . rw [hrest, rest_next hrest]
    . exact last_next hrest
    . intro r
      rw [expect, current_ahead_cons, if_pos ht, next_ahead hrest]
  . apply LooksAtCurrent.of_eq
    . rw [expect, if_neg hcurrent]
    . rfl
    . rfl
    . intro r
      simp [expect, hcurrent, expected]

theorem looksAtCurrent_readComplexity (p : Parser) : LooksAtCurrent readComplexity p := by
  cases htag : p.current.tag with
  | complexity complexity =>
    obtain ⟨t, rest, hrest, ht⟩ := exists_rest_of_tag htag (by simp)
    let signed := { p with complexity := some complexity }
    have hsigned : signed.rest = t :: rest := hrest
    apply LooksAtCurrent.of_next (q := signed.next) (t := t)
    . rw [readComplexity, htag]
    . rw [rest_next hsigned, hrest]
    . exact last_next hsigned
    . intro r
      rw [readComplexity, current_ahead_cons, ht, ← next_ahead hsigned]
      rfl
  | _ =>
    apply LooksAtCurrent.of_eq
    . simp only [readComplexity, htag]
      rfl
    . rfl
    . rfl
    . intro r
      simp [readComplexity, htag, expected]

theorem looksAtCurrent_readTerm (scope : Scope) (p : Parser)
    : LooksAtCurrent (·.readTerm scope) p := by
  obtain ⟨ts, hts, hread⟩ := Expression.read_looks_at_current p.last_tag [] p.rest {} rfl
  refine ⟨_, _, ts, rfl, hts, rfl, fun r => ?_⟩
  simp only [readTerm, rest_ahead, last_ahead, current]
  rw [hread r]
  rfl

theorem define_last (p : Parser) (name : Token) (body : Group)
    : (p.define name body).last = p.last := by
  unfold define
  split
  . rfl
  . rfl

theorem define_ahead (p : Parser) (name : Token) (body : Group) (rest : List Token)
    : (p.ahead rest).define name body = (p.define name body).ahead rest := by
  unfold define
  rw [definitions_ahead]
  split
  . rfl
  . rfl

def readMore (scope : Scope) (body : Group) (result : Except ParseFault Term) (p : Parser)
    : Parser × Group × Except ParseFault Unit :=
  match result with
  | .error fault => (p, body, .error fault)
  | .ok term =>
    if scope.canBegin p.current.tag then
      p.readTerms scope (body.add term)
    else
      (p, body.add term, .ok ())

theorem readTerms_eq (scope : Scope) (body : Group) (p : Parser)
    : p.readTerms scope body = andThen (·.readTerm scope) (readMore scope body) p := by
  rw [readTerms, andThen]
  split
  . next h => rw [h, readMore]
  . next h => rw [h, readMore]

theorem readDefinition_eq (name : Token) (p : Parser) (hname : p.current = name)
    : p.readDefinition
        = andThen (·.expect .name .name) (onSuccess fun _ =>
            andThen (·.expect .equalSign .equalSign) (onSuccess fun _ =>
              andThen (·.readTerms .definition .empty) fun read p =>
                match read with
                | (_, .error fault) => (p, .error fault)
                | (body, .ok ()) => (p.define name body, .ok ()))) p := by
  rw [readDefinition, hname]
  split
  . next h => rw [andThen_of_error h]
  . next h =>
    rw [andThen_of_ok h]
    split
    . next h => rw [andThen_of_error h]
    . next h =>
      rw [andThen_of_ok h, andThen]
      split
      . next h => rw [h]
      . next h => rw [h]

theorem readDefinitions_eq (p : Parser) (h : p.current.tag = .name)
    : p.readDefinitions = andThen readDefinition (onSuccess fun _ => readDefinitions) p := by
  rw [readDefinitions, if_pos h]
  split
  . next h => rw [andThen_of_error h]
  . next h => rw [andThen_of_ok h]

theorem parse_eq (p : Parser)
    : p.parse
        = andThen readComplexity (onSuccess fun complexity =>
            andThen readDefinitions (onSuccess fun _ =>
              andThen (·.expect .questionSign .questionSign) (onSuccess fun _ =>
                andThen readTask (onSuccess fun _ p =>
                  if p.current.tag = .endOfProgram then
                    (p, .ok ⟨complexity, p.definitions, p.task.toList, p.primitives⟩)
                  else
                    (p, .error (p.expected .endOfProgram)))))) p := by
  rw [parse]
  split
  . next h => rw [andThen_of_error h]
  . next h =>
    rw [andThen_of_ok h]
    split
    . next h => rw [andThen_of_error h]
    . next h =>
      rw [andThen_of_ok h]
      split
      . next h => rw [andThen_of_error h]
      . next h =>
        rw [andThen_of_ok h]
        split
        . next h => rw [andThen_of_error h]
        . next h => rw [andThen_of_ok h]

theorem looksAtCurrent_readTerms_of_more {scope : Scope} {body : Group} {q : Parser}
    {result : Except ParseFault Term} (hterm : p.readTerm scope = (q, result))
    (hmore : LooksAtCurrent (readMore scope body result) q)
    : LooksAtCurrent (·.readTerms scope body) p := by
  refine LooksAtCurrent.of_congr ?_ (fun _ _ => readTerms_eq scope body _)
  apply (looksAtCurrent_readTerm scope p).andThen
  intro q' result' hq'
  rw [hterm] at hq'
  cases hq'
  exact hmore

theorem looksAtCurrent_readTerms (scope : Scope) (body : Group) (p : Parser)
    : LooksAtCurrent (·.readTerms scope body) p := by
  fun_induction readTerms p scope body with
  | case1 p body p' fault hterm =>
    apply looksAtCurrent_readTerms_of_more hterm
    exact LooksAtCurrent.of_same fun _ _ => rfl
  | case2 p body p' term hterm body' hcurrent ih =>
    apply looksAtCurrent_readTerms_of_more hterm
    apply ih.of_congr
    intro rest hrest
    rw [readMore, hrest, if_pos hcurrent]
  | case3 p body p' term hterm body' hcurrent =>
    apply looksAtCurrent_readTerms_of_more hterm
    apply LooksAtCurrent.of_same
    intro rest hrest
    rw [readMore, hrest, if_neg hcurrent]

theorem looksAtCurrent_define (name : Token) (body : Group) (p : Parser)
    : LooksAtCurrent (fun p => (p.define name body, (.ok () : Except ParseFault Unit))) p := by
  refine ⟨p.define name body, .ok (), [], rfl, (define_rest p name body).symm,
    define_last p name body, fun r => ?_⟩
  rw [List.nil_append, ← define_ahead]

theorem looksAtCurrent_readDefinition (p : Parser) : LooksAtCurrent readDefinition p := by
  refine LooksAtCurrent.of_congr ?_ (fun _ => readDefinition_eq p.current _)
  apply (looksAtCurrent_expect .name (by simp) p).andThen_onSuccess
  intro p₁ _ _
  apply (looksAtCurrent_expect .equalSign (by simp) p₁).andThen_onSuccess
  intro p₂ _ _
  apply (looksAtCurrent_readTerms .definition .empty p₂).andThen
  rintro p₃ ⟨body, fault | _⟩ _
  . exact LooksAtCurrent.of_same fun _ _ => rfl
  . exact looksAtCurrent_define p.current body p₃

theorem looksAtCurrent_readDefinitions (p : Parser) : LooksAtCurrent readDefinitions p := by
  fun_induction readDefinitions p with
  | case1 p hname p' fault hread =>
    refine LooksAtCurrent.of_congr ?_ fun _ hrest => readDefinitions_eq _ (by rw [hrest, hname])
    apply (looksAtCurrent_readDefinition p).andThen_onSuccess
    intro q _ hq
    rw [hread] at hq
    cases hq
  | case2 p hname p' hread ih =>
    refine LooksAtCurrent.of_congr ?_ fun _ hrest => readDefinitions_eq _ (by rw [hrest, hname])
    apply (looksAtCurrent_readDefinition p).andThen_onSuccess
    intro q _ hq
    rw [hread] at hq
    cases hq
    exact ih
  | case3 p hname =>
    apply LooksAtCurrent.of_same
    intro rest hrest
    rw [readDefinitions, hrest, if_neg hname]

theorem looksAtCurrent_readTask (p : Parser) : LooksAtCurrent readTask p := by
  have hread : LooksAtCurrent
      (andThen (·.readTerms (.task p.definitions) .empty) fun (body, result) p =>
        ({ p with task := p.task ++ body.nodes }, result)) p := by
    apply (looksAtCurrent_readTerms (.task p.definitions) .empty p).andThen
    intro q read _
    exact LooksAtCurrent.of_eq rfl rfl rfl fun _ => rfl
  exact hread.of_congr fun _ _ => rfl

theorem looksAtCurrent_parse (p : Parser) : LooksAtCurrent parse p := by
  refine LooksAtCurrent.of_congr ?_ (fun _ _ => parse_eq _)
  apply (looksAtCurrent_readComplexity p).andThen_onSuccess
  intro p₁ complexity _
  apply (looksAtCurrent_readDefinitions p₁).andThen_onSuccess
  intro p₂ _ _
  apply (looksAtCurrent_expect .questionSign (by simp) p₂).andThen_onSuccess
  intro p₃ _ _
  apply (looksAtCurrent_readTask p₃).andThen_onSuccess
  intro p₄ _ _
  by_cases hcurrent : p₄.current.tag = .endOfProgram
  . let program : Program := ⟨complexity, p₄.definitions, p₄.task.toList, p₄.primitives⟩
    apply LooksAtCurrent.of_same (a := .ok program)
    intro rest hrest
    rw [hrest, if_pos hcurrent]
    rfl
  . apply LooksAtCurrent.of_same
    intro rest hrest
    rw [expected, hrest, if_neg hcurrent]

theorem current_mem_of_parse {p q : Parser} {result : Except ParseFault Program}
    (h : p.parse = (q, result))
    : q.current ∈ p.rest ++ [p.last] := by
  obtain ⟨q', result', ts, hparse, hrest, hlast, _⟩ := looksAtCurrent_parse p
  cases h.symm.trans hparse
  rw [hrest, current, hlast]
  cases q.rest with
  | nil => simp
  | cons t rest => simp

end Parts

end Parser

theorem exists_mem_of_parse_error {body : List Token} {last : Token} {warns : Bool}
    {signal : Signal} (hlast : last.tag = .endOfProgram)
    (h : (parse (body ++ [last]) warns).result = .error signal)
    : ∃ t ∈ body ++ [last], ∃ text, signal = .complaint { text, position := some t.position } := by
  let p : Parser :=
    { rest := body, last, last_tag := hlast, warnings := if warns then some #[] else none }
  have hresult : (parse (body ++ [last]) warns).result = p.parse.2.mapError ParseFault.signal := by
    rw [parse, Parser.ofTokens?_append hlast]
  rw [hresult] at h
  generalize hparse : p.parse = parsed at h
  obtain ⟨q, fault | program⟩ := parsed
  . obtain ⟨text, hsignal⟩ := (Parser.fault_of_parse hparse).signal_eq
    cases h
    exact ⟨q.current, Parser.current_mem_of_parse hparse, text, hsignal⟩
  . cases h

end Combinatory
