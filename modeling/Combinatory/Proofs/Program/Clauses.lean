import Combinatory.Proofs.Program.Acceptance
import Mathlib.Data.List.Induction

/-!
The definitions as they are written, clause by clause. The tokens leave no choice which clauses are
complete, whatever follows the clauses: `Clause.Complete.unique`. A program is left with the
definitions that come of entering its complete clauses one after the other:
`Clause.exists_row_of_describes`. The names stand in the order in which they come up first, and
each of them has its last clause: `Definitions.names_defineAll`, `Definitions.find?_defineAll`.
-/

namespace Combinatory

def Token.names (ts : List Token) : List Token :=
  ts.filter (·.tag = .name)

structure Clause where
  name : Token
  terms : List Term

namespace Clause

def definition (c : Clause) : Definition where
  name := c.name.text
  body := Group.ofNodes c.terms none
  span := c.name.span

/--
A complete clause stands at the head of the tokens. What stands behind it, the token `last` if
nothing else does, can not go on with its body.
-/
inductive Heads (last : Token) : List Token → Clause → List Token → Prop where
  | mk {name sign : Token} {body rest : List Token} {terms : List Term} (hname : name.tag = .name)
    (hsign : sign.tag = .equalSign) (hbody : Reads .definition body terms) (hterms : terms ≠ [])
    (hstop : Scope.definition.canBegin (rest.headD last).tag = false)
    : Heads last (name :: sign :: (body ++ rest)) ⟨name, terms⟩ rest

inductive Row (last : Token) : List Token → List Clause → List Token → Prop where
  | none {tokens : List Token} (h : ∀ c rest, ¬Heads last tokens c rest) : Row last tokens [] tokens
  | more {tokens mid rest : List Token} {c : Clause} {cs : List Clause}
    (hhead : Heads last tokens c mid) (h : Row last mid cs rest)
    : Row last tokens (c :: cs) rest

inductive Complete (last : Token) : List Token → List Clause → Prop where
  | none {tokens : List Token} (h : ∀ complexity, (tokens.headD last).tag ≠ .complexity complexity)
    : Complete last tokens []
  | behind {sign : Token} {complexity : Complexity} {tokens rest : List Token} {cs : List Clause}
    (hsign : sign.tag = .complexity complexity) (h : Row last tokens cs rest)
    : Complete last (sign :: tokens) cs

end Clause

namespace Definitions

def defineAll (ds : Definitions) (cs : List Clause) : Definitions :=
  cs.foldl (fun ds c => ds.define c.definition) ds

section DefineAll

variable (ds : Definitions)

theorem define.map_name_go (d : Definition) (es : List Definition)
    : (go d es).map (·.name)
        = if d.name ∈ es.map (·.name) then es.map (·.name) else es.map (·.name) ++ [d.name] := by
  induction es with
  | nil => rfl
  | cons e es ih =>
    unfold go
    by_cases he : e.name = d.name
    . simp [he]
    . have hne : d.name ≠ e.name := fun h => he h.symm
      simp only [if_neg he, List.map_cons, ih, List.mem_cons, or_iff_right hne]
      split
      . rfl
      . rfl

theorem names_define (d : Definition)
    : (ds.define d).names = if d.name ∈ ds.names then ds.names else ds.names ++ [d.name] :=
  define.map_name_go d ds.toList

theorem names_defineAll (cs : List Clause)
    : (({} : Definitions).defineAll cs).names = (cs.map (·.name.text)).eraseDups := by
  induction cs using List.reverseRecOn with
  | nil => rfl
  | append_singleton cs c ih =>
    have hlast : ({} : Definitions).defineAll (cs ++ [c])
        = (({} : Definitions).defineAll cs).define c.definition := by
      simp [defineAll]
    have hname : c.definition.name = c.name.text := rfl
    rw [hlast, names_define, ih, hname, List.map_append, List.eraseDups_append]
    by_cases hc : c.name.text ∈ cs.map (·.name.text)
    . rw [if_pos (List.mem_eraseDups.mpr hc)]
      have hnone : List.removeAll [c.name.text] (cs.map (·.name.text)) = [] := by
        simpa [List.removeAll] using hc
      rw [List.map_singleton, hnone]
      simp
    . rw [if_neg (mt List.mem_eraseDups.mp hc)]
      have hnew : List.removeAll [c.name.text] (cs.map (·.name.text)) = [c.name.text] := by
        simpa [List.removeAll] using hc
      rw [List.map_singleton, hnew]
      rfl

theorem find?_defineAll (cs : List Clause) (name : String)
    : (ds.defineAll cs).find? name
        = ((cs.reverse.find? (·.name.text = name)).map Clause.definition).or (ds.find? name) := by
  induction cs generalizing ds with
  | nil => simp [defineAll]
  | cons c cs ih =>
    have hfirst : ds.defineAll (c :: cs) = (ds.define c.definition).defineAll cs := rfl
    rw [hfirst, ih, find?_define, List.reverse_cons, List.find?_append, Option.map_or,
      Option.or_assoc]
    by_cases hc : c.name.text = name
    . simp [hc, Clause.definition]
    . simp [hc, Clause.definition]

end DefineAll

end Definitions

namespace Parser

variable {p q : Parser}

theorem current_define (p : Parser) (name : Token) (body : Group)
    : (p.define name body).current = p.current := by
  unfold define
  split
  . rfl
  . rfl

theorem definitions_define (p : Parser) (name : Token) (body : Group)
    : (p.define name body).definitions
        = p.definitions.define { name := name.text, body, span := name.span } := by
  unfold define
  split
  . rfl
  . rfl

theorem canBegin_of_readTerms {scope : Scope} {body body' : Group}
    (h : p.readTerms scope body = (q, body', .ok ()))
    : scope.canBegin q.current.tag = false := by
  fun_induction readTerms p scope body with
  | case1 => simp at h
  | case2 _ _ _ _ _ _ _ ih => exact ih h
  | case3 _ _ _ _ _ _ hcurrent =>
    obtain ⟨rfl, _⟩ := Prod.mk.inj h
    simpa using hcurrent

theorem canBegin_of_readDefinition (h : p.readDefinition = (q, .ok ()))
    : Scope.definition.canBegin q.current.tag = false := by
  unfold readDefinition at h
  split at h
  . simp at h
  . split at h
    . simp at h
    . split at h
      . simp at h
      . next read body hread =>
        cases h
        rw [current_define]
        exact canBegin_of_readTerms hread

theorem readDefinition_of_heads {c : Clause} {rest : List Token}
    (h : Clause.Heads p.last p.rest c rest)
    : ∃ ts, p.rest = ts ++ rest
        ∧ p.readDefinition = ((p.behind ts rest).define c.name c.definition.body, .ok ()) := by
  generalize hrest : p.rest = tokens at h
  cases h with
  | @mk name sign body _ _ hname hsign hbody hterms hstop =>
    refine ⟨name :: sign :: body, by simp, ?_⟩
    exact readDefinition_of_reads hname hsign hbody hterms hrest hstop

theorem exists_heads_of_readDefinition (h : p.readDefinition = (q, .ok ()))
    : ∃ c ts rest, Clause.Heads p.last p.rest c rest ∧ p.rest = ts ++ rest
        ∧ q = (p.behind ts rest).define c.name c.definition.body := by
  have hcurrent := canBegin_of_readDefinition h
  obtain ⟨name, sign, body, rest, terms, hrest, hname, hsign, hbody, hterms, rfl⟩ :=
    exists_reads_of_readDefinition h
  rw [current_define] at hcurrent
  refine ⟨⟨name, terms⟩, name :: sign :: body, rest, ?_, by simp [hrest], rfl⟩
  rw [hrest]
  exact .mk hname hsign hbody hterms hcurrent

end Parser

namespace Clause

variable {last : Token} {tokens rest rest' : List Token} {c c' : Clause} {cs cs' : List Clause}

theorem Heads.headD_eq (h : Heads last tokens c rest) : tokens.headD last = c.name := by
  cases h
  rfl

theorem Heads.tag_name (h : Heads last tokens c rest) : c.name.tag = .name := by
  cases h with
  | mk hname => exact hname

theorem Heads.unique (hlast : last.tag = .endOfProgram) (h : Heads last tokens c rest)
    (h' : Heads last tokens c' rest')
    : c = c' ∧ rest = rest' := by
  let p : Parser := { rest := tokens, last, last_tag := hlast }
  obtain ⟨ts, _, hread⟩ := Parser.readDefinition_of_heads (p := p) h
  obtain ⟨us, _, hread'⟩ := Parser.readDefinition_of_heads (p := p) h'
  have hq := (Prod.mk.inj (hread.symm.trans hread')).1
  have hrest : rest = rest' := by
    simpa only [Parser.define_rest, Parser.rest_behind] using congrArg Parser.rest hq
  have hdefinition : c.definition = c'.definition := by
    have h := congrArg Parser.definitions hq
    rw [Parser.definitions_define, Parser.definitions_define] at h
    exact (List.cons.inj (congrArg Definitions.toList h)).1
  have hterms : c.terms = c'.terms := by
    have h := congrArg (·.body.nodes) hdefinition
    dsimp only [definition] at h
    rw [Group.nodes_ofNodes, Group.nodes_ofNodes] at h
    exact (Array.mk.injEq ..).mp h
  have hname : c.name = c'.name := h.headD_eq.symm.trans h'.headD_eq
  exact ⟨congrArg₂ Clause.mk hname hterms, hrest⟩

theorem Row.unique (hlast : last.tag = .endOfProgram) (h : Row last tokens cs rest)
    (h' : Row last tokens cs' rest')
    : cs = cs' ∧ rest = rest' := by
  induction h generalizing cs' with
  | none hnone =>
    cases h' with
    | none => exact ⟨rfl, rfl⟩
    | more hhead => exact absurd hhead (hnone _ _)
  | more hhead _ ih =>
    cases h' with
    | none hnone => exact absurd hhead (hnone _ _)
    | more hhead' h' =>
      obtain ⟨rfl, rfl⟩ := hhead.unique hlast hhead'
      obtain ⟨rfl, rfl⟩ := ih h'
      exact ⟨rfl, rfl⟩

theorem Complete.unique (hlast : last.tag = .endOfProgram) (h : Complete last tokens cs)
    (h' : Complete last tokens cs')
    : cs = cs' := by
  cases h with
  | none hnone =>
    cases h' with
    | none => rfl
    | behind hsign => exact absurd hsign (hnone _)
  | behind hsign h =>
    cases h' with
    | none hnone => exact absurd hsign (hnone _)
    | behind _ h' => exact (h.unique hlast h').1

theorem Complete.iff_eq (hlast : last.tag = .endOfProgram) (h : Complete last tokens cs)
    (others : List Clause)
    : Complete last tokens others ↔ others = cs := by
  constructor
  . intro hothers
    exact hothers.unique hlast h
  . rintro rfl
    exact h

theorem Row.names_eq (h : Row last tokens cs rest)
    : Token.names tokens = cs.map Clause.name ++ Token.names rest := by
  induction h with
  | none => rfl
  | more hhead _ ih =>
    cases hhead with
    | @mk _ _ body _ _ hname hsign hbody _ _ =>
      have hbody : body.filter (·.tag = .name) = [] := by
        simpa [List.filter_eq_nil_iff] using hbody.tag_ne_name
      simpa [Token.names, hname, hsign, hbody] using ih

theorem Row.exists_body (h : Row last tokens cs rest)
    : ∀ c ∈ cs, c.terms ≠ [] ∧ ∃ sign inner, c.name :: sign :: inner <:+: tokens
        ∧ Reads .definition inner c.terms := by
  induction h with
  | none => simp
  | @more _ mid _ _ _ hhead _ ih =>
    cases hhead with
    | @mk name sign body _ _ _ _ hbody hterms _ =>
      rw [List.forall_mem_cons]
      refine ⟨⟨hterms, sign, body, ⟨[], mid, by simp⟩, hbody⟩, ?_⟩
      intro c hc
      obtain ⟨hne, sign', inner, hinner, hreads⟩ := ih c hc
      have hmid : mid <:+ name :: sign :: (body ++ mid) := ⟨name :: sign :: body, by simp⟩
      exact ⟨hne, sign', inner, hinner.trans hmid.isInfix, hreads⟩

theorem Complete.name_mem (h : Complete last tokens cs) : ∀ c ∈ cs, c.name ∈ tokens := by
  intro c hc
  cases h with
  | none => cases hc
  | @behind _ _ tokens _ _ _ h =>
    have hname : c.name ∈ Token.names tokens := by
      rw [h.names_eq]
      exact List.mem_append_left _ (List.mem_map_of_mem hc)
    exact List.mem_cons_of_mem _ (List.mem_filter.mp hname).1

theorem exists_row_of_defines {ds es : Definitions} {ts : List Token} (h : Defines ds ts es)
    (hstop : (rest.headD last).tag = .questionSign)
    : ∃ cs, Row last (ts ++ rest) cs rest ∧ es = ds.defineAll cs := by
  induction h with
  | nil ds =>
    refine ⟨[], .none fun c mid hhead => ?_, rfl⟩
    have hname : (rest.headD last).tag = .name := by
      rw [← hhead.tag_name, ← hhead.headD_eq, List.nil_append]
    rw [hname] at hstop
    cases hstop
  | @cons _ _ name _ _ _ terms hname hsign hbody hterms h ih =>
    obtain ⟨cs, hrow, hes⟩ := ih
    have hhead := Heads.mk hname hsign hbody hterms (Parser.canBegin_headD_defines h hstop)
    refine ⟨⟨name, terms⟩ :: cs, .more ?_ hrow, hes⟩
    simpa using hhead

theorem exists_row_of_describes {body : List Token} {program : Program}
    (h : Describes body program) (last : Token)
    : ∃ sign tokens cs, body = sign :: tokens ∧ sign.tag = .complexity program.complexity
        ∧ Row last tokens cs (body.dropWhile (·.tag ≠ .questionSign)) ∧ Complete last body cs
        ∧ program.definitions = ({} : Definitions).defineAll cs := by
  cases h with
  | @mk sign question _ ts us _ _ hsign hts hquestion =>
    have hstop : ((question :: us).headD last).tag = .questionSign := hquestion
    obtain ⟨cs, hrow, hds⟩ := exists_row_of_defines hts hstop
    refine ⟨sign, ts ++ question :: us, cs, rfl, hsign, ?_, .behind hsign hrow, hds⟩
    rwa [dropWhile_program hsign hts hquestion us]

end Clause

end Combinatory
