import Combinatory.Program.Basic
import Combinatory.Program.Fault

/-!
Reading one term from a list of tokens. The state is the stack of the groups that are still open,
the innermost first. `shift` says what one token does to it, `read` goes on until a term is complete
outside of all brackets.
-/

namespace Combinatory

inductive Scope where
  | definition
  | task (definitions : Definitions)

namespace Scope

def expectation : Scope → Expectation
  | .definition => .definitionTerm
  | .task _ => .taskTerm

def canBegin (scope : Scope) : Tag → Bool
  | .leftBracket => true
  | .primitive _ => true
  | .name =>
    match scope with
    | .definition => false
    | .task _ => true
  | _ => false

end Scope

namespace Expression

def missing (scope : Scope) : List Group → Expectation
  | [] => scope.expectation
  | g :: _ => if g.nodes.isEmpty then scope.expectation else .rightBracket

inductive Shift where
  | opened (stack : List Group)
  | complete (term : Term) (outer : List Group)

def shift (scope : Scope) (stack : List Group) (t : Token) : Except ParseFault Shift :=
  match t.tag, scope, stack with
  | .leftBracket, _, stack => .ok (.opened (Group.empty :: stack))
  | .primitive c, _, stack => .ok (.complete (.primitive c t.span) stack)
  | .name, .task definitions, stack =>
    match definitions.find? t.text with
    | some d => .ok (.complete d.expand stack)
    | none => .error (.undefined t)
  | .rightBracket, scope, g :: outer =>
    if g.nodes.isEmpty then
      .error (.expected scope.expectation t)
    else
      .ok (.complete g.term outer)
  | _, scope, stack => .error (.expected (missing scope stack) t)

structure Counts where
  passed : Nat := 0
  primitives : Nat := 0

def Counts.pass (counts : Counts) (t : Token) : Counts :=
  match t.tag with
  | .primitive _ => { passed := counts.passed + 1, primitives := counts.primitives + 1 }
  | _ => { counts with passed := counts.passed + 1 }

structure Reading where
  rest : List Token
  counts : Counts
  result : Except ParseFault Term

/--
Reads on until a term is complete. A token that does not fit is not passed; behind the list stands
the end token `last`, which fits nowhere.
-/
def read (scope : Scope) (last : Token) (stack : List Group) (tokens : List Token) (counts : Counts)
    : Reading :=
  match tokens with
  | [] => { rest := [], counts, result := .error (.expected (missing scope stack) last) }
  | t :: rest =>
    match shift scope stack t with
    | .error fault => { rest := t :: rest, counts, result := .error fault }
    | .ok (.opened stack) => read scope last stack rest (counts.pass t)
    | .ok (.complete term []) => { rest, counts := counts.pass t, result := .ok term }
    | .ok (.complete term (g :: outer)) =>
      read scope last (g.add term :: outer) rest (counts.pass t)

theorem read_length_le (scope : Scope) (last : Token) (stack : List Group) (tokens : List Token)
    (counts : Counts)
    : (read scope last stack tokens counts).rest.length ≤ tokens.length := by
  fun_induction read scope last stack tokens counts with
  | case1 => simp
  | case2 => simp
  | case3 _ _ _ _ _ _ ih => exact Nat.le_succ_of_le ih
  | case4 => simp
  | case5 _ _ _ _ _ _ _ _ ih => exact Nat.le_succ_of_le ih

theorem read_length_lt {scope : Scope} {last : Token} {stack : List Group} {tokens : List Token}
    {counts : Counts} {term : Term} (h : (read scope last stack tokens counts).result = .ok term)
    : (read scope last stack tokens counts).rest.length < tokens.length := by
  unfold read at h ⊢
  split at h
  . simp at h
  . next t rest =>
    split at h
    . simp at h
    . exact Nat.lt_succ_of_le (read_length_le scope last _ rest _)
    . exact Nat.lt_succ_self _
    . exact Nat.lt_succ_of_le (read_length_le scope last _ rest _)

end Expression

end Combinatory
