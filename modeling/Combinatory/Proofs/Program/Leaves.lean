import Combinatory.Proofs.Program.Clauses

namespace Combinatory

abbrev Leaf := Combinator × Option Span

namespace Term

mutual

def leaves : Term → List Leaf
  | .primitive c span => [(c, span)]
  | .group ts _ => leavesAll ts

def leavesAll : List Term → List Leaf
  | [] => []
  | t :: ts => t.leaves ++ leavesAll ts

end

theorem leavesAll_eq_flatMap (ts : List Term) : leavesAll ts = ts.flatMap leaves := by
  induction ts with
  | nil => simp [leavesAll]
  | cons t ts ih => simp [leavesAll, ih]

@[simp]
theorem leaves_primitive (c : Combinator) (s : Option Span)
    : (primitive c s).leaves = [(c, s)] := by
  simp [leaves]

@[simp]
theorem leaves_group (ts : List Term) (s : Option Span)
    : (group ts s).leaves = ts.flatMap leaves := by
  rw [leaves, leavesAll_eq_flatMap]

end Term

theorem Group.leaves_term_ofNodes (members : List Term)
    : (ofNodes members none).term.leaves = members.flatMap Term.leaves := by
  rw [term, Term.leaves_group, nodes_ofNodes]

def Clause.leaves (c : Clause) : List Leaf :=
  c.terms.flatMap Term.leaves

def Token.leaf? (t : Token) : Option Leaf :=
  match t.tag with
  | .primitive c => some (c, some t.span)
  | _ => none

def Scope.expansion (scope : Scope) (t : Token) : List Leaf :=
  match t.tag with
  | .name => ((scope.find? t.text).map (·.expand.leaves)).getD []
  | _ => []

theorem Token.length_filterMap_leaf? (ts : List Token)
    : (ts.filterMap Token.leaf?).length = ts.countP Token.isPrimitive := by
  have hleaf (t : Token) : t.leaf?.isSome = t.isPrimitive := by
    unfold leaf? isPrimitive
    cases t.tag <;> rfl
  rw [List.length_filterMap_eq_countP]
  simp only [hleaf]

section Reading

variable {scope : Scope} {ts : List Token} {terms : List Term}

theorem Reads.leaves_eq (h : Reads scope ts terms)
    : terms.flatMap Term.leaves = ts.flatMap fun t => t.leaf?.toList ++ scope.expansion t := by
  induction h with
  | nil => rfl
  | primitive htag _ ih =>
    rw [List.flatMap_cons, List.flatMap_cons, ih]
    simp [Token.leaf?, Scope.expansion, htag]
  | name htag hfind _ ih =>
    rw [List.flatMap_cons, List.flatMap_cons, ih]
    simp [Token.leaf?, Scope.expansion, htag, hfind]
  | group hopening _ _ hclosing _ ihinner ih =>
    rw [List.flatMap_cons, List.flatMap_cons, List.flatMap_append, List.flatMap_cons,
      Group.leaves_term_ofNodes, ihinner, ih]
    simp [Token.leaf?, Scope.expansion, hopening, hclosing]

theorem Reads.leaves_nameless_eq (h : Reads scope ts terms) (hnames : ∀ t ∈ ts, t.tag ≠ .name)
    : terms.flatMap Term.leaves = ts.filterMap Token.leaf? := by
  rw [h.leaves_eq, List.filterMap_eq_flatMap_toList]
  apply List.flatMap_congr
  intro t ht
  have hnone : scope.expansion t = [] := by
    unfold Scope.expansion
    split
    . next hname => exact absurd hname (hnames t ht)
    . rfl
  rw [hnone, List.append_nil]

theorem Reads.leaves_definition_eq (h : Reads .definition ts terms)
    : terms.flatMap Term.leaves = ts.filterMap Token.leaf? :=
  h.leaves_nameless_eq h.tag_ne_name

end Reading

section Programs

variable {last : Token} {tokens rest body : List Token} {cs : List Clause} {program : Program}

theorem Clause.Row.leaves_eq (h : Clause.Row last tokens cs rest)
    : tokens.filterMap Token.leaf? = cs.flatMap Clause.leaves ++ rest.filterMap Token.leaf? := by
  induction h with
  | none => rfl
  | more hhead _ ih =>
    cases hhead with
    | mk hname hsign hbody =>
      simp [Token.leaf?, Clause.leaves, hname, hsign, hbody.leaves_definition_eq, ih]

theorem exists_leaves_of_describes (h : Describes body program) (last : Token)
    : let task := body.dropWhile (·.tag ≠ .questionSign)
      (∃ cs, Clause.Complete last body cs
          ∧ body.filterMap Token.leaf? = cs.flatMap Clause.leaves ++ task.filterMap Token.leaf?)
        ∧ program.task.flatMap Term.leaves
          = task.flatMap fun t => t.leaf?.toList ++ (Scope.task program.definitions).expansion t := by
  constructor
  . obtain ⟨sign, tokens, cs, hbody, hsign, hrow, hcs, _⟩ := Clause.exists_row_of_describes h last
    refine ⟨cs, hcs, ?_⟩
    rw [← hrow.leaves_eq, hbody]
    simp [Token.leaf?, hsign]
  . cases h with
    | @mk sign question _ _ us _ _ hsign hts hquestion hus =>
      rw [dropWhile_program hsign hts hquestion us, hus.leaves_eq, List.flatMap_cons]
      simp [Token.leaf?, Scope.expansion, hquestion]

end Programs

end Combinatory
