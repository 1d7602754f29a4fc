import Combinatory.Proofs.Program.Calls
import Combinatory.Proofs.Program.RoundTrip
import Combinatory.Proofs.Reduction.Budget
import Combinatory.Proofs.Session.History
import Combinatory.Proofs.Session.Report
import Mathlib.Tactic.Positivity

namespace Combinatory

theorem Complexity.bound_nonneg {complexity : Complexity} {size bound : Int}
    (h : complexity.bound size = some bound)
    : 0 ≤ bound := by
  cases complexity with
  | unbounded => cases h
  | exponential =>
    cases h
    change (0 : Int) ≤ 2 ^ (size + 1).toNat
    positivity
  | quadratic =>
    cases h
    change (0 : Int) ≤ (size + 1) ^ 2
    positivity

def Line.number? : Line → Option Int
  | .firing number _ _ => some number
  | _ => none

theorem Line.filter_number?_eq_none {lines : List Line} (h : lines.filterMap number? = [])
    : lines.filter (·.number? = none) = lines := by
  rw [List.filterMap_eq_nil_iff] at h
  simpa [List.filter_eq_self] using h

namespace Reducer

open Reduction

variable {r : Reducer} {fuel : Nat} {result : List Term}

theorem number_of_getElem?_trace {i : Nat} {f : Firing}
    (h : (r.reduce fuel).trace[i]? = some f)
    : f.number = r.steps + i + 1 := by
  unfold reduce at h
  split at h
  . simp at h
  . exact ((Progress.counts_start r.steps).run fuel _).number i f h

theorem terms_of_finished (h : (r.reduce fuel).ending = .finished result)
    : (r.reduce fuel).reducer.terms = result := by
  obtain ⟨_, _, _, _, hreducer, _⟩ := finishes_of_reduce h
  rw [hreducer]

theorem size_le_of_finished {bound : Int} (hlimit : r.budget? = .ok (some bound))
    (h : (r.reduce fuel).ending = .finished result)
    : (r.reduce fuel).trace.size ≤ (bound - r.steps).toNat := by
  obtain ⟨limit, q, hlimit', hfinishes, _, htrace⟩ := finishes_of_reduce h
  cases hlimit.symm.trans hlimit'
  rw [htrace]
  exact hfinishes.size_le

end Reducer

namespace Program

variable {p : Program} {fuel : Nat} {result : List Term}

theorem steps_reducer (p : Program) : p.reducer.steps = 0 := rfl

theorem steps_reduce_reducer (p : Program) (fuel : Nat)
    : (p.reducer.reduce fuel).reducer.steps = (p.reducer.reduce fuel).trace.toList.length := by
  rw [Reducer.steps_reduce, steps_reducer, Int.zero_add, Array.length_toList]

theorem size_trace_le_bound {n : Int} (h : (p.reducer.reduce fuel).ending = .finished result)
    (hbound : p.bound = some n)
    : (p.reducer.reduce fuel).trace.size ≤ n := by
  have hbounded : p.complexity.isBounded := by
    rw [← Complexity.bound_isSome _ p.primitives]
    exact Option.isSome_of_eq_some hbound
  have hlimit : p.reducer.budget? = .ok (some n) := Reducer.budget?_eq_ok_some hbounded hbound
  have hsize := Reducer.size_le_of_finished hlimit h
  have hnonneg := Complexity.bound_nonneg hbound
  rw [steps_reducer] at hsize
  omega

end Program

namespace Session

section Firings

variable (fs : List Reduction.Firing)

theorem filter_firings (quiet : Bool) : (firings quiet fs).filter (·.number? = none) = [] := by
  unfold firings
  split
  . rfl
  . simp [Line.number?]

theorem filter_report (bound : String) (program : Program) (fuel : Nat)
    : (report false bound program fuel).filter (·.number? = none)
        = report true bound program fuel := by
  have hconclusion (steps : Int) (ending : Reduction.Ending)
      : (conclusion steps ending).filter (·.number? = none) = conclusion steps ending :=
    Line.filter_number?_eq_none (filterMap_conclusion rfl (fun _ => rfl) (fun _ => rfl) _ _)
  rw [report, List.filter_append, List.filter_append, filter_firings, hconclusion]
  rfl

theorem firings_eq_mapIdx
    (h : ∀ (i : Nat) (f : Reduction.Firing), fs[i]? = some f → f.number = i + 1)
    : firings false fs
        = fs.mapIdx fun i f => .firing (i + 1) (render f.before) (render f.after) := by
  apply List.ext_getElem?
  intro i
  rw [firings, if_neg (by simp), List.getElem?_map, List.getElem?_mapIdx]
  cases hf : fs[i]? with
  | none => rfl
  | some f => rw [Option.map_some, Option.map_some, h i f hf]

end Firings

section Running

variable (s : Session) (console : Console) (fuel : Nat) (limit : Option Nat)

def opening (messages : Array Message) : List Line :=
  s.preface ++ (messages.toList ++ (tokenize s.source).messages.toList).map .message

def cautions (text : String) : List Line :=
  (warnings text).toList.map .message

theorem filterMap_number?_opening (messages : Array Message)
    : (s.opening messages).filterMap Line.number? = [] := by
  rw [opening, List.filterMap_append, filterMap_preface (fun _ => rfl) rfl, List.nil_append]
  simp [List.filterMap_eq_nil_iff, Line.number?]

theorem filterMap_number?_cautions (text : String)
    : (cautions text).filterMap Line.number? = [] := by
  simp [cautions, List.filterMap_eq_nil_iff, Line.number?]

theorem toList_printed_parsing_eq_opening
    : (s.parsing console).printed.toList = console.printed.toList ++ s.opening console.pending := by
  rw [toList_printed_parsing, List.append_assoc]
  rfl

theorem toList_printed_flush_parsing
    : (s.parsing console).flush.printed.toList
        = console.printed.toList ++ (s.opening console.pending ++ cautions s.source) := by
  rw [Console.toList_printed_flush, toList_printed_parsing_eq_opening, List.append_assoc]
  rfl

theorem exists_lines_run
    : let loud := s.run { console with quiet := false } fuel limit
      let quiet := s.run { console with quiet := true } fuel limit
      quiet.session = loud.session ∧ quiet.ending = loud.ending
        ∧ quiet.console.pending = loud.console.pending
        ∧ ∃ lines, loud.console.printed.toList = console.printed.toList ++ lines
          ∧ quiet.console.printed.toList
            = console.printed.toList ++ lines.filter (·.number? = none) := by
  have hopening := Line.filter_number?_eq_none (s.filterMap_number?_opening console.pending)
  have hcautions := Line.filter_number?_eq_none (filterMap_number?_cautions s.source)
  cases hread : read s.source with
  | error signal =>
    simp only [run_eq_of_error hread]
    refine ⟨trivial, trivial, rfl, s.opening console.pending, ?_, ?_⟩
    . rw [toList_printed_parsing_eq_opening]
    . rw [toList_printed_parsing_eq_opening, hopening]
  | ok program =>
    simp only [run_eq_of_ok hread]
    cases hbound : boundText? program.bound limit with
    | none =>
      simp only [perform_eq_of_eq_none hbound]
      refine ⟨trivial, trivial, rfl, s.opening console.pending ++ cautions s.source, ?_, ?_⟩
      . rw [toList_printed_flush_parsing]
      . rw [toList_printed_flush_parsing, List.filter_append, hopening, hcautions]
    | some bound =>
      simp only [perform_eq_of_eq_some hbound]
      refine ⟨trivial, trivial, rfl,
        s.opening console.pending ++ cautions s.source ++ report false bound program fuel, ?_, ?_⟩
      . rw [Console.toList_printed_printAll, toList_printed_flush_parsing, List.append_assoc]
        rfl
      . rw [Console.toList_printed_printAll, toList_printed_flush_parsing, List.filter_append,
          List.filter_append, hopening, hcautions, filter_report, List.append_assoc]
        rfl

end Running

section Reports

variable {program : Program} {bound : Option Int} {limit : Option Nat} {text : String}

theorem eq_of_boundText? (h : boundText? bound limit = some text)
    : (bound = none ∧ text = "infinity") ∨ ∃ n, bound = some n ∧ text = toString n := by
  cases bound with
  | none => exact .inl ⟨rfl, (Option.some.inj h).symm⟩
  | some n =>
    refine .inr ⟨n, rfl, ?_⟩
    simp only [boundText?, Numeral.text?] at h
    split at h
    . split at h
      . exact (Option.some.inj h).symm
      . cases h
    . exact (Option.some.inj h).symm

theorem filled_of_read {s : Session} (h : read s.source = .ok program) : Filled program.task := by
  obtain ⟨body, last, htokens, hlast, hbody⟩ := exists_tokenize s.source
  rw [read, htokens, parse_eq_ok_iff hlast hbody] at h
  exact h.filled

/--
A report that is complete: between two blank lines the contractions, numbered from one on, and
their count behind them.
-/
def completeReport (bound : String) (task : List Term) (fs : List Reduction.Firing)
    (result : List Term) : List Line :=
  [Line.maximum bound, Line.start (render task), Line.blank]
    ++ fs.mapIdx (fun i f => Line.firing (i + 1) (render f.before) (render f.after))
    ++ [Line.blank, Line.count fs.length, Line.result (render result)]

theorem report_eq_of_finished {fuel : Nat} {result : List Term}
    (h : (program.reducer.reduce fuel).ending = .finished result) (bound : String)
    : report false bound program fuel
        = completeReport bound program.task (program.reducer.reduce fuel).trace.toList result := by
  let fs := (program.reducer.reduce fuel).trace.toList
  have hfirings := firings_eq_mapIdx fs fun i f hf => by
    rw [Array.getElem?_toList] at hf
    rw [Reducer.number_of_getElem?_trace hf, Program.steps_reducer, Int.zero_add]
  rw [report, hfirings, h, program.steps_reduce_reducer, conclusion, completeReport]

theorem exists_reduced_of_finished {s : Session} {console : Console} {fuel : Nat}
    {result : List Term} (h : (s.run console fuel limit).ending = .finished result)
    : ∃ program text, read s.source = .ok program ∧ boundText? program.bound limit = some text
        ∧ (program.reducer.reduce fuel).ending = .finished result
        ∧ (s.run console fuel limit).session
          = { s with
              parsed := some (program.rewritten fuel)
              reducer := some (program.reducer.reduce fuel).reducer }
        ∧ (s.run console fuel limit).console.printed.toList
          = console.printed.toList ++ (s.opening console.pending ++ cautions s.source
            ++ report console.quiet text program fuel) := by
  cases hread : read s.source with
  | error signal =>
    rw [run_eq_of_error hread] at h
    cases h
  | ok program =>
    cases hbound : boundText? program.bound limit with
    | none =>
      rw [run_eq_of_ok hread, perform_eq_of_eq_none hbound] at h
      cases h
    | some text =>
      rw [run_eq_of_ok hread, perform_eq_of_eq_some hbound] at h ⊢
      refine ⟨program, text, rfl, hbound, ?_, rfl, ?_⟩
      . cases hending : (program.reducer.reduce fuel).ending with
        | finished us =>
          rw [hending] at h
          cases h
          rfl
        | suspended config => simp [hending, Ending.ofReduction] at h
        | fault defect => simp [hending, Ending.ofReduction] at h
      . rw [Console.toList_printed_printAll, toList_printed_flush_parsing, List.append_assoc]
        rfl

/--
Whether a console is quiet matters to the lines of contractions and to nothing else. If a run comes
to a result, these lines are numbered from one on and stand between two blank lines, in front of
their count, which is not above the bound; and the task in front of them can be read again.
-/
theorem quiet_hides_firings (s : Session) (console : Console) (fuel : Nat) (limit : Option Nat)
    : let loud := s.run { console with quiet := false } fuel limit
      let quiet := s.run { console with quiet := true } fuel limit
      quiet.session = loud.session ∧ quiet.ending = loud.ending
        ∧ quiet.console.pending = loud.console.pending
        ∧ ∃ lines, loud.console.printed.toList = console.printed.toList ++ lines
          ∧ quiet.console.printed.toList
            = console.printed.toList ++ lines.filter (·.number? = none)
          ∧ ∀ result, loud.ending = .finished result
            → ∃ (program again : Program) (front : List Line) (bound : String)
                (fs : List Reduction.Firing),
              lines = front ++ completeReport bound program.task fs result
              ∧ front.filterMap Line.number? = []
              ∧ loud.session.parsed = some (program.rewritten fuel)
              ∧ loud.session.steps = fs.length ∧ loud.session.result? = some (render result)
              ∧ ((program.bound = none ∧ bound = "infinity")
                ∨ ∃ n, program.bound = some n ∧ bound = toString n ∧ fs.length ≤ n)
              ∧ read s.source = .ok program
              ∧ (tokenize ("inf ? " ++ render program.task)).messages = #[]
              ∧ read ("inf ? " ++ render program.task) = .ok again
              ∧ again.task == program.task := by
  intro loud quiet
  obtain ⟨hsession, hending, hpending, lines, hlines, hquiet⟩ :=
    s.exists_lines_run console fuel limit
  refine ⟨hsession, hending, hpending, lines, hlines, hquiet, fun result hresult => ?_⟩
  obtain ⟨program, bound, hread, hbound, hreduced, hloud, hprinted⟩ :=
    exists_reduced_of_finished hresult
  obtain ⟨hmessages, again, hagain, htask⟩ := exists_program_render (filled_of_read hread) true
  refine ⟨program, again, s.opening console.pending ++ cautions s.source, bound,
    (program.reducer.reduce fuel).trace.toList, ?_, ?_, ?_, ?_, ?_, ?_, hread, hmessages, hagain,
    htask⟩
  . rw [hlines] at hprinted
    rw [List.append_cancel_left hprinted]
    exact congrArg _ (report_eq_of_finished hreduced bound)
  . rw [List.filterMap_append, filterMap_number?_opening, filterMap_number?_cautions,
      List.append_nil]
  . exact congrArg Session.parsed hloud
  . exact (congrArg Session.steps hloud).trans (program.steps_reduce_reducer fuel)
  . rw [congrArg Session.result? hloud, result?, Option.map_some, Reducer.text,
      Reducer.terms_of_finished hreduced]
  . obtain hnone | ⟨n, hn, htext⟩ := eq_of_boundText? hbound
    . exact .inl hnone
    . exact .inr ⟨n, hn, htext, Program.size_trace_le_bound hreduced hn⟩

theorem quiet_hides_firings_of_quadratic
    : let s : Session := { source := "quad C1=KI ? C1SK", echoes := true }
      let stray : Message := { severity := .warning, text := "stray", position := none }
      let loud := s.run { pending := #[stray] } 30
      let quiet := s.run { pending := #[stray], quiet := true } 30
      ∃ (result : List Term) (program : Program) (front : List Line) (bound : String)
          (fs : List Reduction.Firing),
        loud.ending = .finished result ∧ quiet.ending = .finished result ∧ fs.length = 2
          ∧ loud.console.printed.toList = front ++ completeReport bound program.task fs result
          ∧ quiet.console.printed.toList
            = loud.console.printed.toList.filter (·.number? = none) := by
  intro s stray loud quiet
  have hfinished : loud.ending.isFinished = true := by decide +kernel
  have hcount : loud.session.steps = 2 := by decide +kernel
  obtain ⟨result, hresult⟩ := Ending.exists_of_isFinished hfinished
  obtain ⟨_, hending, _, lines, hloud, hquiet, hlines⟩ :=
    quiet_hides_firings s { pending := #[stray] } 30 (some Numeral.maxDigits)
  rw [List.nil_append] at hloud hquiet
  obtain ⟨program, _, front, bound, fs, hreport, _, _, hsteps, _⟩ := hlines result hresult
  have hlength : (fs.length : Int) = 2 := hsteps.symm.trans hcount
  refine ⟨result, program, front, bound, fs, hresult, hending.trans hresult, ?_, ?_, ?_⟩
  . exact_mod_cast hlength
  . exact hloud.trans hreport
  . rw [hloud]
    exact hquiet

end Reports

end Session

end Combinatory
