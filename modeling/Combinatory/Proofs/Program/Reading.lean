import Combinatory.Program.Expression
import Mathlib.Data.List.Basic

namespace Combinatory

def Scope.find? : Scope → String → Option Definition
  | .definition, _ => none
  | .task definitions, name => definitions.find? name

def Token.isPrimitive (t : Token) : Bool :=
  match t.tag with
  | .primitive _ => true
  | _ => false

/--
The tokens spell a sequence of terms. A group takes its span from its members, not from its
brackets.
-/
inductive Reads (scope : Scope) : List Token → List Term → Prop where
  | nil : Reads scope [] []
  | primitive {t : Token} {c : Combinator} {tokens : List Token} {terms : List Term}
    (htag : t.tag = .primitive c) (h : Reads scope tokens terms)
    : Reads scope (t :: tokens) (.primitive c t.span :: terms)
  | name {t : Token} {d : Definition} {tokens : List Token} {terms : List Term}
    (htag : t.tag = .name) (hfind : scope.find? t.text = some d) (h : Reads scope tokens terms)
    : Reads scope (t :: tokens) (d.expand :: terms)
  | group {opening closing : Token} {inner tokens : List Token} {members terms : List Term}
    (hopening : opening.tag = .leftBracket) (hinner : Reads scope inner members)
    (hmembers : members ≠ []) (hclosing : closing.tag = .rightBracket)
    (h : Reads scope tokens terms)
    : Reads scope (opening :: (inner ++ closing :: tokens))
        ((Group.ofNodes members none).term :: terms)

namespace Reads

variable {scope : Scope} {ts us : List Token} {terms others : List Term} {term : Term}

theorem append (h : Reads scope ts terms) (hus : Reads scope us others)
    : Reads scope (ts ++ us) (terms ++ others) := by
  induction h with
  | nil => exact hus
  | primitive htag _ ih => exact .primitive htag ih
  | name htag hfind _ ih => exact .name htag hfind ih
  | group hopening hinner hmembers hclosing _ _ ih =>
    simp only [List.cons_append, List.append_assoc]
    exact .group hopening hinner hmembers hclosing ih

theorem exists_of_cons (h : Reads scope ts (term :: terms))
    : ∃ us vs, ts = us ++ vs ∧ us ≠ [] ∧ Reads scope us [term] ∧ Reads scope vs terms := by
  cases h with
  | primitive htag h => exact ⟨[_], _, rfl, by simp, .primitive htag .nil, h⟩
  | name htag hfind h => exact ⟨[_], _, rfl, by simp, .name htag hfind .nil, h⟩
  | @group opening closing inner tokens _ _ hopening hinner hmembers hclosing h =>
    refine ⟨opening :: (inner ++ [closing]), tokens, by simp, by simp, ?_, h⟩
    exact .group hopening hinner hmembers hclosing .nil

theorem eq_nil_of_nil (h : Reads scope [] terms) : terms = [] := by
  cases h
  rfl

theorem exists_cons (h : Reads scope ts (term :: terms)) : ∃ t us, ts = t :: us := by
  cases h with
  | primitive => exact ⟨_, _, rfl⟩
  | name => exact ⟨_, _, rfl⟩
  | group => exact ⟨_, _, rfl⟩

theorem canBegin {t : Token} (h : Reads scope (t :: ts) terms) : scope.canBegin t.tag := by
  cases h with
  | primitive htag => simp [Scope.canBegin, htag]
  | name htag hfind =>
    cases scope with
    | definition => simp [Scope.find?] at hfind
    | task => simp [Scope.canBegin, htag]
  | group hopening => simp [Scope.canBegin, hopening]

end Reads

@[simp]
theorem Group.ofNodes_none (members : List Term)
    : Group.ofNodes members none = members.foldl Group.add .empty := by
  simp [ofNodes]

def ParseFault.At (fault : ParseFault) (t : Token) : Prop :=
  (∃ expectation, fault = .expected expectation t) ∨ fault = .undefined t

namespace Expression

theorem pass_eq (counts : Counts) (t : Token)
    : counts.pass t
        = ⟨counts.passed + 1, counts.primitives + if t.isPrimitive then 1 else 0⟩ := by
  cases htag : t.tag <;> simp [Counts.pass, Token.isPrimitive, htag]

theorem foldl_pass (ts : List Token) (counts : Counts)
    : ts.foldl Counts.pass counts
        = ⟨counts.passed + ts.length, counts.primitives + ts.countP Token.isPrimitive⟩ := by
  induction ts generalizing counts with
  | nil => rfl
  | cons t ts ih =>
    rw [List.foldl_cons, ih, pass_eq, List.length_cons, List.countP_cons]
    simp only [Counts.mk.injEq]
    omega

section Shift

variable {scope : Scope} {stack : List Group} {t : Token}

theorem shift_leftBracket (h : t.tag = .leftBracket)
    : shift scope stack t = .ok (.opened (.empty :: stack)) := by
  simp [shift, h]

theorem shift_primitive {c : Combinator} (h : t.tag = .primitive c)
    : shift scope stack t = .ok (.complete (.primitive c t.span) stack) := by
  simp [shift, h]

theorem shift_name {d : Definition} (h : t.tag = .name) (hfind : scope.find? t.text = some d)
    : shift scope stack t = .ok (.complete d.expand stack) := by
  cases scope with
  | definition => simp [Scope.find?] at hfind
  | task definitions =>
    simp only [Scope.find?] at hfind
    simp [shift, h, hfind]

theorem shift_rightBracket {members : List Term} {outer : List Group} (h : t.tag = .rightBracket)
    (hmembers : members ≠ [])
    : shift scope (members.foldl Group.add .empty :: outer) t
        = .ok (.complete (Group.ofNodes members none).term outer) := by
  simp [shift, h, hmembers, Group.nodes_foldl_add]

theorem shift_cases {shifted : Shift} (h : shift scope stack t = .ok shifted)
    : (t.tag = .leftBracket ∧ shifted = .opened (.empty :: stack))
      ∨ (∃ term, Reads scope [t] [term] ∧ shifted = .complete term stack)
      ∨ (∃ g outer, t.tag = .rightBracket ∧ stack = g :: outer ∧ g.nodes ≠ #[]
          ∧ shifted = .complete g.term outer) := by
  unfold shift at h
  split at h
  . next htag =>
    cases h
    exact .inl ⟨htag, rfl⟩
  . next htag =>
    cases h
    exact .inr (.inl ⟨_, .primitive htag .nil, rfl⟩)
  . next htag =>
    split at h
    . next hfind =>
      cases h
      exact .inr (.inl ⟨_, .name htag hfind .nil, rfl⟩)
    . simp at h
  . next g outer htag =>
    split at h
    . simp at h
    . next hg =>
      cases h
      exact .inr (.inr ⟨g, outer, htag, rfl, by simpa using hg, rfl⟩)
  . simp at h

theorem fault_of_shift {fault : ParseFault} (h : shift scope stack t = .error fault)
    : fault.At t := by
  unfold shift at h
  split at h
  . simp at h
  . simp at h
  . split at h
    . simp at h
    . cases h
      exact .inr rfl
  . split at h
    . cases h
      exact .inl ⟨_, rfl⟩
    . simp at h
  . cases h
    exact .inl ⟨_, rfl⟩

end Shift

section Completeness

variable {scope : Scope} {ts : List Token} {terms : List Term} {term : Term}

theorem read_members (h : Reads scope ts terms) (last : Token) (g : Group) (outer : List Group)
    (rest : List Token) (counts : Counts)
    : read scope last (g :: outer) (ts ++ rest) counts
        = read scope last (terms.foldl Group.add g :: outer) rest (ts.foldl Counts.pass counts) := by
  induction h generalizing g outer rest counts with
  | nil => rfl
  | primitive htag _ ih =>
    rw [List.cons_append, read, shift_primitive htag]
    apply ih
  | name htag hfind _ ih =>
    rw [List.cons_append, read, shift_name htag hfind]
    apply ih
  | group hopening _ hmembers hclosing _ ihmembers ih =>
    -- The inner group is read on top of the stack, then its term joins `g`.
    rw [List.cons_append, List.append_assoc, read, shift_leftBracket hopening]
    dsimp only
    rw [ihmembers, List.cons_append, read, shift_rightBracket hclosing hmembers]
    dsimp only
    rw [ih]
    simp

theorem read_term (h : Reads scope ts [term]) (last : Token) (rest : List Token) (counts : Counts)
    : read scope last [] (ts ++ rest) counts
        = { rest, counts := ts.foldl Counts.pass counts, result := .ok term } := by
  cases h with
  | primitive htag h =>
    cases h
    rw [List.cons_append, read, shift_primitive htag]
    rfl
  | name htag hfind h =>
    cases h
    rw [List.cons_append, read, shift_name htag hfind]
    rfl
  | group hopening hinner hmembers hclosing h =>
    cases h
    rw [List.cons_append, List.append_assoc, read, shift_leftBracket hopening]
    dsimp only
    rw [read_members hinner, List.cons_append, read, shift_rightBracket hclosing hmembers]
    simp

end Completeness

section Soundness

variable {scope : Scope} {ts us : List Token} {terms : List Term} {stack : List Group}

inductive Closes (scope : Scope) : (depth : Nat) → List Token → Prop where
  | none : Closes scope 0 []
  | one {depth : Nat} {closing : Token} {inner ts : List Token} {members : List Term}
    (hinner : Reads scope inner members) (hclosing : closing.tag = .rightBracket)
    (h : Closes scope depth ts) : Closes scope (depth + 1) (inner ++ closing :: ts)

theorem Closes.absorb {depth : Nat} (hterms : Reads scope ts terms)
    (h : Closes scope (depth + 1) us)
    : Closes scope (depth + 1) (ts ++ us) := by
  cases h with
  | one hinner hclosing h =>
    rw [← List.append_assoc]
    exact .one (hterms.append hinner) hclosing h

/--
The tokens complete the groups on the stack. While the innermost group has no members, or no group
is open, a term must come first.
-/
def Completes (scope : Scope) (stack : List Group) (ts : List Token) : Prop :=
  (∃ us vs term, ts = us ++ vs ∧ Reads scope us [term] ∧ Closes scope stack.length vs)
    ∨ (∃ g outer, stack = g :: outer ∧ g.nodes ≠ #[] ∧ Closes scope stack.length ts)

theorem Completes.closes {g : Group} {outer : List Group} (h : Completes scope (g :: outer) ts)
    : Closes scope (outer.length + 1) ts := by
  obtain ⟨us, vs, _, rfl, hus, hvs⟩ | ⟨_, _, _, _, h⟩ := h
  . exact hvs.absorb hus
  . exact h

theorem Completes.cons {t : Token} {term : Term} {depth : Nat} {stack : List Group}
    (ht : Reads scope [t] [term]) (hdepth : stack.length = depth) (h : Closes scope depth ts)
    : Completes scope stack (t :: ts) := by
  subst hdepth
  exact .inl ⟨[t], ts, term, rfl, ht, h⟩

theorem Completes.of_opened {t : Token} {stack' : List Group}
    (hshift : shift scope stack t = .ok (.opened stack')) (h : Completes scope stack' ts)
    : Completes scope stack (t :: ts) := by
  obtain ⟨htag, hopened⟩ | ⟨_, _, hterm⟩ | ⟨_, _, _, _, _, hclosed⟩ := shift_cases hshift
  . cases hopened
    -- The new group is empty, so its first member comes next, and then the rest of it.
    obtain ⟨us, vs, member, rfl, hus, hvs⟩ | ⟨g, _, hempty, hg, _⟩ := h
    . cases hvs with
      | @one _ closing inner vs members hinner hclosing hvs =>
        have hgroup := Reads.group htag (hus.append hinner) (by simp) hclosing .nil
        exact .inl ⟨_, vs, _, by simp, hgroup, hvs⟩
    . cases hempty
      simp at hg
  . cases hterm
  . cases hclosed

theorem Completes.of_complete {t : Token} {term : Term} {outer : List Group}
    (hshift : shift scope stack t = .ok (.complete term outer)) (h : Closes scope outer.length ts)
    : Completes scope stack (t :: ts) := by
  obtain ⟨_, hopened⟩ | ⟨_, hreads, hterm⟩ | ⟨g, _, htag, rfl, hg, hclosed⟩ := shift_cases hshift
  . cases hopened
  . cases hterm
    exact .cons hreads rfl h
  . cases hclosed
    exact .inr ⟨g, outer, rfl, hg, .one .nil htag h⟩

theorem completes_of_read (last : Token) (tokens : List Token) (counts : Counts) {term : Term}
    (h : (read scope last stack tokens counts).result = .ok term)
    : ∃ ts, tokens = ts ++ (read scope last stack tokens counts).rest ∧ Completes scope stack ts := by
  fun_induction read scope last stack tokens counts with
  | case1 => simp at h
  | case2 => simp at h
  | case3 stack counts t rest stack' hshift ih =>
    obtain ⟨ts, hts, hcompletes⟩ := ih h
    exact ⟨t :: ts, by rw [List.cons_append, ← hts], .of_opened hshift hcompletes⟩
  | case4 stack counts t rest term' hshift => exact ⟨[t], rfl, .of_complete hshift .none⟩
  | case5 stack counts t rest term' g outer hshift ih =>
    obtain ⟨ts, hts, hcompletes⟩ := ih h
    exact ⟨t :: ts, by rw [List.cons_append, ← hts], .of_complete hshift hcompletes.closes⟩

theorem Completes.exists_reads (h : Completes scope [] ts) : ∃ term, Reads scope ts [term] := by
  obtain ⟨us, vs, term, rfl, hus, hvs⟩ | ⟨_, _, hempty, _⟩ := h
  . cases hvs
    rw [List.append_nil]
    exact ⟨term, hus⟩
  . simp at hempty

theorem reads_of_read {last : Token} {tokens : List Token} {counts : Counts} {term : Term}
    (h : (read scope last [] tokens counts).result = .ok term)
    : ∃ ts, tokens = ts ++ (read scope last [] tokens counts).rest ∧ Reads scope ts [term] := by
  obtain ⟨ts, hts, hcompletes⟩ := completes_of_read last tokens counts h
  obtain ⟨term', hreads⟩ := hcompletes.exists_reads
  refine ⟨ts, hts, ?_⟩
  rw [hts, read_term hreads] at h
  cases h
  exact hreads

theorem fault_of_read {last : Token} {tokens : List Token} {counts : Counts} {fault : ParseFault}
    (h : (read scope last stack tokens counts).result = .error fault)
    : fault.At ((read scope last stack tokens counts).rest.headD last) := by
  fun_induction read scope last stack tokens counts with
  | case1 =>
    cases h
    exact .inl ⟨_, rfl⟩
  | case2 _ _ _ _ _ hshift =>
    cases h
    exact fault_of_shift hshift
  | case3 _ _ _ _ _ _ ih => exact ih h
  | case4 => simp at h
  | case5 _ _ _ _ _ _ _ _ ih => exact ih h

end Soundness

end Expression

end Combinatory
