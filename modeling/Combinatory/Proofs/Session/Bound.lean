import Combinatory.Proofs.Program.Leaves
import Combinatory.Proofs.Session.Report

namespace Combinatory

theorem Complexity.bound_exponential (n : Nat)
    : Complexity.exponential.bound n = some (2 ^ (n + 1)) := rfl

theorem Complexity.bound_quadratic (n : Nat)
    : Complexity.quadratic.bound n = some (((n : Int) + 1) ^ 2) := rfl

def Line.maximum? : Line → Option String
  | .maximum bound => some bound
  | _ => none

namespace Session

theorem filterMap_maximum?_report (quiet : Bool) (bound : String) (program : Program) (fuel : Nat)
    : (report quiet bound program fuel).filterMap Line.maximum? = [bound] := by
  rw [report, List.filterMap_append, List.filterMap_append, filterMap_firings fun _ _ _ => rfl,
    filterMap_conclusion rfl (fun _ => rfl) fun _ => rfl]
  rfl

theorem maxima_run {s : Session} {program : Program} (h : read s.source = .ok program)
    (console : Console) (fuel : Nat) (limit : Option Nat)
    : (s.run console fuel limit).console.printed.toList.filterMap Line.maximum?
        = console.printed.toList.filterMap Line.maximum?
          ++ (boundText? program.bound limit).toList := by
  have hpreface : s.preface.filterMap Line.maximum? = [] := filterMap_preface (fun _ => rfl) rfl s
  have hmessages (ms : List Message) : (ms.map Line.message).filterMap Line.maximum? = [] := by
    simp [List.filterMap_eq_nil_iff, Line.maximum?]
  have hflush : (s.parsing console).flush.printed.toList.filterMap Line.maximum?
      = console.printed.toList.filterMap Line.maximum? := by
    rw [Console.toList_printed_flush, toList_printed_parsing]
    simp only [List.filterMap_append, hpreface, hmessages, List.append_nil]
  rw [run_eq_of_ok h]
  cases hbound : boundText? program.bound limit with
  | none => rw [perform_eq_of_eq_none hbound, hflush, Option.toList_none, List.append_nil]
  | some bound =>
    rw [perform_eq_of_eq_some hbound, Console.toList_printed_printAll, List.filterMap_append,
      hflush, filterMap_maximum?_report, Option.toList_some]

end Session

section Results

variable {body : List Token} {last : Token} {program : Program}

/--
The bound counts the primitives among the tokens. These are the leaves of all clauses, also of those
that are overwritten or not used, and the leaves of the task that no name brings along.
-/
theorem bound_counts_primitives {warns : Bool} (hlast : last.tag = .endOfProgram)
    (hbody : ∀ t ∈ body, t.tag ≠ .endOfProgram)
    (h : (parse (body ++ [last]) warns).result = .ok program)
    : let count := body.countP Token.isPrimitive
      let task := body.dropWhile (·.tag ≠ .questionSign)
      ∃ cs, (∀ others, Clause.Complete last body others ↔ others = cs)
        ∧ program.primitives = count
        ∧ count = (cs.map (·.leaves.length)).sum + (task.filterMap Token.leaf?).length
        ∧ body.filterMap Token.leaf? = cs.flatMap Clause.leaves ++ task.filterMap Token.leaf?
        ∧ program.task.flatMap Term.leaves
          = (task.flatMap fun t => t.leaf?.toList ++ (Scope.task program.definitions).expansion t)
        ∧ (program.complexity = .exponential → program.bound = some (2 ^ (count + 1)))
        ∧ (program.complexity = .quadratic → program.bound = some (((count : Int) + 1) ^ 2))
        ∧ ∀ bound, program.bound = some bound
          → ∀ (s : Session) (console : Console) (fuel : Nat) (limit : Option Nat),
            (tokenize s.source).tokens = body ++ [last]
              → (s.run console fuel limit).console.printed.toList.filterMap Line.maximum?
                = console.printed.toList.filterMap Line.maximum?
                  ++ (Numeral.text? bound limit).toList := by
  intro count task
  rw [parse_eq_ok_iff hlast hbody] at h
  obtain ⟨⟨cs, hcs, hleaves⟩, htask⟩ := exists_leaves_of_describes h last
  have hcount : count = (cs.map (·.leaves.length)).sum + (task.filterMap Token.leaf?).length := by
    have := congrArg List.length hleaves
    rwa [Token.length_filterMap_leaf?, List.length_append, List.length_flatMap] at this
  have hprimitives : program.primitives = count := by
    cases h
    rfl
  refine ⟨cs, hcs.iff_eq hlast, hprimitives, hcount, hleaves, htask, ?_, ?_, ?_⟩
  . intro hcomplexity
    rw [Program.bound, hcomplexity, hprimitives, Complexity.bound_exponential]
  . intro hcomplexity
    rw [Program.bound, hcomplexity, hprimitives, Complexity.bound_quadratic]
  . intro bound hbound s console fuel limit htokens
    have hread : Session.read s.source = .ok program := by
      rw [Session.read, htokens]
      exact parse_eq_ok_of_describes h hlast true
    rw [Session.maxima_run hread, hbound]
    rfl

theorem bound_counts_primitives_of_overwritten
    : let text := "exp C1=KS C1=(SI)K C2=I ? C1C1C1S"
      ∃ program, Session.read text = .ok program ∧ program.primitives = 7
        ∧ (program.task.flatMap Term.leaves).length = 10
        ∧ ∀ (console : Console) (fuel : Nat),
          let printed := (Session.run { source := text } console fuel).console.printed
          printed.toList.filterMap Line.maximum?
            = console.printed.toList.filterMap Line.maximum? ++ ["256"] := by
  intro text
  let body := (tokenize text).tokens.dropLast
  let last := (tokenize text).tokens.getLastD default
  have htokens : (tokenize text).tokens = body ++ [last] := by decide +kernel
  have hfacts : (Session.read text).toOption.map
      (fun program => (program.complexity, (program.task.flatMap Term.leaves).length))
      = some (.exponential, 10) := by decide +kernel
  cases hread : Session.read text with
  | error signal => simp [hread, Except.toOption] at hfacts
  | ok program =>
    simp only [hread, Except.toOption, Option.map_some, Option.some.injEq, Prod.mk.injEq] at hfacts
    obtain ⟨hcomplexity, hleaves⟩ := hfacts
    have hresult : (parse (body ++ [last]) true).result = .ok program := by
      rw [← htokens]
      exact hread
    obtain ⟨_, _, hprimitives, _, _, _, hbound, _, hprinted⟩ :=
      bound_counts_primitives (by decide +kernel) (by decide +kernel) hresult
    have hcount : body.countP Token.isPrimitive = 7 := by decide +kernel
    rw [hcount] at hprimitives hbound
    have hprinted (console : Console) (fuel : Nat) :=
      hprinted _ (hbound hcomplexity) { source := text } console fuel (some Numeral.maxDigits) htokens
    have htext : Numeral.text? (2 ^ (7 + 1)) = some "256" := by decide +kernel
    rw [htext] at hprinted
    exact ⟨program, rfl, hprimitives, hleaves, hprinted⟩

end Results

end Combinatory
