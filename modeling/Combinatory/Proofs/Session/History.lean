import Combinatory.Proofs.Program.RoundTrip
import Combinatory.Proofs.Reduction.Rewriting
import Combinatory.Proofs.Session.Ending

namespace Combinatory

namespace Session

def fits (limit : Option Nat) (text : String) : Bool :=
  (read text).toOption.all fun program => (boundText? program.bound limit).isSome

def Ending.isFinished : Ending → Bool
  | .finished _ => true
  | _ => false

theorem Ending.exists_of_isFinished {ending : Ending} (h : ending.isFinished = true)
    : ∃ result, ending = .finished result := by
  cases ending with
  | finished result => exact ⟨result, rfl⟩
  | _ => cases h

/--
Whether the groups of the task that the text is read as, if any, are the same once its reduction has
come to its end.
-/
def Keeps (text : String) : Prop :=
  ∀ program fuel result, read text = .ok program
    → (program.reducer.reduce fuel).ending = .finished result
    → program.reducer.rewritten fuel = program.task

/--
The session holds what the program of the text is reduced to, and the program itself as far as its
task was not reduced in place.
-/
def Holds (s : Session) (text : String) : Prop :=
  ∃ program m result, read text = .ok program ∧ (s.parsed = some program ↔ Keeps text)
    ∧ ∀ fuel, m ≤ fuel →
      let reduced := program.reducer.reduce fuel
      reduced.ending = .finished result ∧ s.parsed = some (program.rewritten fuel)
        ∧ s.reducer = some reduced.reducer ∧ s.steps = reduced.reducer.steps
        ∧ s.result? = some (render result)

inductive Leaves (limit : Option Nat) (s : Session) : Ending → Session → Prop where
  | success {ending : Ending} {s' : Session} (hending : ending.isFinished = true)
    (hfits : fits limit s.source = true) (h : s'.Holds s.source)
    : Leaves limit s ending s'
  | failure {ending : Ending} (hending : ending.isFinished = false)
    (hfits : fits limit s.source = true)
    : Leaves limit s ending s
  | halfway {ending : Ending} {program : Program} (hending : ending.isFinished = false)
    (hfits : fits limit s.source = false) (hread : read s.source = .ok program)
    : Leaves limit s ending { s with parsed := some program }

section Running

variable {s : Session} {console : Console} {fuel : Nat} {limit : Option Nat} {program : Program}

theorem fits_of_error {text : String} {signal : Signal} (h : read text = .error signal)
    : fits limit text = true := by
  simp [fits, h, Except.toOption]

theorem fits_of_ok {text : String} (h : read text = .ok program)
    : fits limit text = (boundText? program.bound limit).isSome := by
  simp [fits, h, Except.toOption]

theorem keeps_iff {text : String} {result : List Term} (hread : read text = .ok program)
    (hresult : (program.reducer.reduce fuel).ending = .finished result)
    : Keeps text ↔ program.rewritten fuel = program := by
  have hprogram : program.rewritten fuel = program
      ↔ program.reducer.rewritten fuel = program.task := by
    rw [Program.rewritten]
    cases program
    simp
  rw [hprogram]
  constructor
  . intro h
    exact h program fuel result hread hresult
  . intro h program' fuel' result' hread' hresult'
    cases hread.symm.trans hread'
    rw [← h, ← Reducer.rewritten_eq_of_finished hresult (Nat.le_max_left fuel fuel'),
      ← Reducer.rewritten_eq_of_finished hresult' (Nat.le_max_right fuel fuel')]

theorem holds_of_reduce {result : List Term} (hread : read s.source = .ok program)
    (hresult : (program.reducer.reduce fuel).ending = .finished result)
    : { s with
        parsed := some (program.rewritten fuel)
        reducer := some (program.reducer.reduce fuel).reducer }.Holds s.source := by
  refine ⟨program, fuel, result, hread, ?_, fun n hle => ?_⟩
  . rw [keeps_iff hread hresult]
    exact Option.some_inj
  obtain ⟨_, _, _, _, hreducer, _⟩ := Reducer.finishes_of_reduce hresult
  rw [Reducer.reduce_eq_of_finished hresult hle, Program.rewritten,
    ← Reducer.rewritten_eq_of_finished hresult hle]
  refine ⟨hresult, rfl, rfl, rfl, ?_⟩
  rw [result?, hreducer]
  rfl

theorem run_leaves (h : (s.run console fuel limit).ending ≠ .suspended)
    : Leaves limit s (s.run console fuel limit).ending (s.run console fuel limit).session := by
  cases hread : read s.source with
  | error signal =>
    obtain ⟨hsession, hending⟩ := run_of_error hread console fuel limit
    rw [hsession, hending]
    exact .failure rfl (fits_of_error hread)
  | ok program =>
    have hfits : fits limit s.source = _ := fits_of_ok hread
    cases hbound : boundText? program.bound limit with
    | none =>
      obtain ⟨hsession, hending⟩ := run_of_tooManyDigits hread hbound console fuel
      rw [hsession, hending]
      exact .halfway rfl (by rw [hfits, hbound]; rfl) hread
    | some text =>
      have hsome : (boundText? program.bound limit).isSome := by rw [hbound]; rfl
      obtain ⟨hsession, hending⟩ := run_of_ok (s := s) hread hsome console fuel
      obtain ⟨_, hlimit⟩ := Reducer.budget?_isOk (r := program.reducer) program.bound_isSome
      obtain ⟨config, hconfig⟩ | ⟨result, hresult⟩ := Reducer.reduce_cases hlimit fuel
      . rw [hending, hconfig] at h
        exact absurd rfl h
      . rw [hsession, hending, hresult]
        exact .success rfl (hfits.trans hsome) (holds_of_reduce hread hresult)

theorem session_runGuarded
    : (s.runGuarded console fuel limit).session = (s.run console fuel limit).session := by
  simp only [runGuarded]
  split
  . split <;> rfl
  . rfl

theorem ending_runGuarded_cases
    : (s.runGuarded console fuel limit).ending = (s.run console fuel limit).ending
        ∨ (s.run console fuel limit).ending ≠ .suspended
          ∧ (s.run console fuel limit).ending.isFinished = false
          ∧ (s.runGuarded console fuel limit).ending.isFinished = false := by
  simp only [runGuarded]
  split
  . next signal hending =>
    refine .inr ⟨by simp [hending], by rw [hending]; rfl, ?_⟩
    split <;> rfl
  . exact .inl rfl

theorem Leaves.of_isFinished_eq {ending ending' : Ending} {s' : Session}
    (h : Leaves limit s ending s') (hending : ending'.isFinished = ending.isFinished)
    : Leaves limit s ending' s' := by
  cases h with
  | success hfinished hfits hholds => exact .success (hending.trans hfinished) hfits hholds
  | failure hfinished hfits => exact .failure (hending.trans hfinished) hfits
  | halfway hfinished hfits hread => exact .halfway (hending.trans hfinished) hfits hread

theorem runGuarded_leaves (h : (s.runGuarded console fuel limit).ending ≠ .suspended)
    : Leaves limit s (s.runGuarded console fuel limit).ending
        (s.runGuarded console fuel limit).session := by
  rw [session_runGuarded]
  obtain heq | ⟨hsuspended, hrun, hguarded⟩ := ending_runGuarded_cases
  . rw [heq] at h ⊢
    exact run_leaves h
  . exact (run_leaves hsuspended).of_isFinished_eq (hguarded.trans hrun.symm)

end Running

structure Desk where
  console : Console
  session : Option Session

inductive Event where
  | opened
  | refused (signal : Signal)
  | edited (text : String)
  | ran (text : String) (ending : Ending)

/--
What happens at a desk, which does not include runs that go on forever.
-/
inductive Happens (files : Files) (limit : Option Nat) : Desk → Event → Desk → Prop where
  | opened {console : Console} {old : Option Session} {s : Session} (source path : Option String)
    (echoes : Bool) (h : open? files source path echoes = .ok s)
    : Happens files limit ⟨console, old⟩ .opened ⟨console, some s⟩
  | refused {desk : Desk} {signal : Signal} (source path : Option String) (echoes : Bool)
    (h : open? files source path echoes = .error signal)
    : Happens files limit desk (.refused signal) desk
  | edited {console : Console} {s : Session} (text : String)
    : Happens files limit ⟨console, some s⟩ (.edited text)
        ⟨console, some { s with source := text }⟩
  | ran {console : Console} {s : Session} (fuel : Nat)
    (h : (s.run console fuel limit).ending ≠ .suspended)
    : Happens files limit ⟨console, some s⟩ (.ran s.source (s.run console fuel limit).ending)
        ⟨(s.run console fuel limit).console, some (s.run console fuel limit).session⟩
  | ranGuarded {console : Console} {s : Session} (fuel : Nat)
    (h : (s.runGuarded console fuel limit).ending ≠ .suspended)
    : Happens files limit ⟨console, some s⟩ (.ran s.source (s.runGuarded console fuel limit).ending)
        ⟨(s.runGuarded console fuel limit).console,
          some (s.runGuarded console fuel limit).session⟩

/--
What may have happened until a desk is as it is, the last event first.
-/
inductive Reaches (files : Files) (limit : Option Nat) : List Event → Desk → Prop where
  | start (console : Console) : Reaches files limit [] ⟨console, none⟩
  | event {event : Event} {events : List Event} {desk desk' : Desk}
    (h : Reaches files limit events desk) (hevent : Happens files limit desk event desk')
    : Reaches files limit (event :: events) desk'

def lastSuccess : List Event → Option String
  | [] => none
  | .opened :: _ => none
  | .ran text ending :: events => if ending.isFinished then some text else lastSuccess events
  | _ :: events => lastSuccess events

def Agrees (s : Session) : Option String → Prop
  | none => s.parsed = none ∧ s.reducer = none
  | some text => s.Holds text

section Histories

variable {files : Files} {limit : Option Nat} {desk desk' : Desk} {events : List Event}

theorem Agrees.of_edit {s : Session} {success : Option String} (h : s.Agrees success)
    (text : String)
    : { s with source := text }.Agrees success := by
  cases success with
  | none => exact h
  | some success => exact h

theorem agrees_of_open {source path : Option String} {echoes : Bool} {s : Session}
    (h : open? files source path echoes = .ok s)
    : s.Agrees none := by
  unfold open? at h
  split at h
  . cases h
    exact ⟨rfl, rfl⟩
  . split at h
    . cases h
      exact ⟨rfl, rfl⟩
    . cases h
  . cases h

theorem Happens.leaves {text : String} {ending : Ending}
    (h : Happens files limit desk (.ran text ending) desk')
    : ∃ s s', desk.session = some s ∧ desk'.session = some s' ∧ s.source = text
        ∧ Leaves limit s ending s' := by
  cases h with
  | ran fuel h => exact ⟨_, _, rfl, rfl, rfl, run_leaves h⟩
  | ranGuarded fuel h => exact ⟨_, _, rfl, rfl, rfl, runGuarded_leaves h⟩

theorem Happens.agrees {event : Event} (h : Happens files limit desk event desk')
    (hfits : ∀ text ending, event = .ran text ending → fits limit text = true)
    (hagrees : ∀ s, desk.session = some s → s.Agrees (lastSuccess events))
    : ∀ s, desk'.session = some s → s.Agrees (lastSuccess (event :: events)) := by
  cases event with
  | opened =>
    cases h with
    | opened source path echoes h =>
      rintro _ ⟨⟩
      exact agrees_of_open h
  | refused signal =>
    cases h with
    | refused => exact hagrees
  | edited text =>
    cases h with
    | edited =>
      rintro _ ⟨⟩
      exact (hagrees _ rfl).of_edit text
  | ran text ending =>
    obtain ⟨s, s', hs, hs', rfl, hleaves⟩ := h.leaves
    rw [hs']
    rintro _ ⟨⟩
    cases hleaves with
    | success hending _ hholds =>
      rw [lastSuccess, if_pos hending]
      exact hholds
    | failure hending _ =>
      rw [lastSuccess, if_neg (by simp [hending])]
      exact hagrees s hs
    | halfway _ hunfit _ =>
      have := hfits s.source ending rfl
      simp [hunfit] at this

theorem Reaches.agrees (h : Reaches files limit events desk)
    (hfits : ∀ text ending, .ran text ending ∈ events → fits limit text = true)
    : ∀ s, desk.session = some s → s.Agrees (lastSuccess events) := by
  induction h with
  | start console => simp
  | event _ hevent ih =>
    apply hevent.agrees
    . rintro text ending rfl
      exact hfits text ending List.mem_cons_self
    . exact ih fun text ending hmem => hfits text ending (List.mem_cons_of_mem _ hmem)

/--
If the bounds of the texts that were run can be printed, a session holds just the results of its
last successful run. Its program is the one that was read just if the reduction left the groups of
the task as they were, and otherwise differs from it in these. Whatever came before, a run replaces
both if it succeeds and leaves them if it fails, unless it fails since its own bound can not be
printed: then only the program is replaced.
-/
theorem runs_atomic (h : Reaches files limit events desk)
    (hfits : ∀ text ending, .ran text ending ∈ events → fits limit text = true)
    : (∀ s, desk.session = some s → s.Agrees (lastSuccess events))
        ∧ ∀ before text ending after, Happens files limit before (.ran text ending) after
          → ∃ s s', before.session = some s ∧ after.session = some s'
            ∧ (ending.isFinished = true → s'.Holds text)
            ∧ (ending.isFinished = false → fits limit text = true → s' = s)
            ∧ (fits limit text = false → ending.isFinished = false
              ∧ ∃ program, read text = .ok program ∧ s' = { s with parsed := some program }) := by
  refine ⟨h.agrees hfits, ?_⟩
  intro before text ending after hran
  obtain ⟨s, s', hs, hs', rfl, hleaves⟩ := hran.leaves
  refine ⟨s, s', hs, hs', ?_⟩
  cases hleaves with
  | success hending hfits hholds => simpa [hending, hfits] using hholds
  | failure hending hfits => simp [hending, hfits]
  | halfway hending hunfit hread => simpa [hending, hunfit] using hread

theorem keeps_of_flat {text : String}
    (h : (read text).toOption.all (·.task.all fun t => t matches .primitive ..) = true)
    : Keeps text := by
  intro program fuel result hread _
  apply Reducer.rewritten_eq_of_forall
  intro t ht
  simp only [hread, Except.toOption, Option.all_some, List.all_eq_true] at h
  have := h t ht
  cases t with
  | primitive c s => exact ⟨c, s, rfl⟩
  | group => cases this

theorem runs_atomic_of_undefined
    : ∃ result signal desk s,
        let events : List Event :=
          [.ran "inf?C1" (.raised signal), .edited "inf?C1", .ran "quad?KIS" (.finished result),
            .opened]
        Reaches (fun _ => none) (some Numeral.maxDigits) events desk
          ∧ desk.session = some s ∧ s.source = "inf?C1" ∧ s.Holds "quad?KIS"
          ∧ Keeps "quad?KIS" := by
  let limit := some Numeral.maxDigits
  let opened : Session := { source := "quad?KIS" }
  have hopened : Reaches (fun _ => none) limit [.opened] ⟨{}, some opened⟩ :=
    .event (.start {}) (.opened (some "quad?KIS") none false rfl)
  have hfinished : (opened.run {} 20 limit).ending.isFinished = true := by decide +kernel
  obtain ⟨result, hresult⟩ := Ending.exists_of_isFinished hfinished
  have hran := hopened.event (.ran 20 (by rw [hresult]; simp))
  rw [hresult] at hran
  let outcome := opened.run {} 20 limit
  let edited : Session := { outcome.session with source := "inf?C1" }
  have hedited := hran.event (.edited "inf?C1")
  have hundefined : (read "inf?C1").isOk = false := by decide +kernel
  cases hread : read "inf?C1" with
  | ok program => simp [hread, Except.isOk, Except.toBool] at hundefined
  | error signal =>
    obtain ⟨hsession, hending⟩ := run_of_error (s := edited) hread outcome.console 0 limit
    have hreaches := hedited.event (.ran 0 (by rw [hending]; simp))
    rw [hending, hsession] at hreaches
    refine ⟨result, signal, _, edited, hreaches, rfl, rfl, ?_, keeps_of_flat (by decide +kernel)⟩
    apply (runs_atomic hreaches ?_).1 edited rfl
    intro text ending hmem
    simp only [List.mem_cons, Event.ran.injEq, reduceCtorEq, List.not_mem_nil, or_false,
      false_or] at hmem
    obtain ⟨rfl, _⟩ | ⟨rfl, _⟩ := hmem
    . decide +kernel
    . decide +kernel

end Histories

end Session

section Overflow

def Source.repeated (n : Nat) : Source where
  complexity := .exponential
  rules := []
  task := .primitive .K :: List.replicate n (.primitive .K)
  task_ne_nil := by simp
  task_over := by
    rw [List.forall_mem_cons]
    refine ⟨.primitive .K, fun p hp => ?_⟩
    rw [List.eq_of_mem_replicate hp]
    exact .primitive .K

theorem Source.lexemes_repeated (n : Nat)
    : (repeated n).lexemes
        = Tag.lexeme (.complexity .exponential) :: Tag.lexeme .questionSign
          :: List.replicate (n + 1) (Tag.lexeme (.primitive .K)) := by
  simp [lexemes, repeated, Phrase.lexemesAll_eq_flatMap, Phrase.lexemes, List.flatMap_replicate,
    List.replicate_succ]

def textRepeated (n : Nat) : String :=
  "exp?" ++ String.ofList (List.replicate (n + 1) 'K')

theorem write_repeated (n : Nat)
    : (Source.repeated n).write (fun _ => ⟨[], by simp⟩) = textRepeated n := by
  rw [← String.toList_inj, Source.write, layOut_of_forall (by simp), Source.lexemes_repeated]
  simp [textRepeated, Tag.lexeme, Tag.symbol, List.flatMap_replicate, Complexity.word,
    Combinator.symbol]

theorem Describes.count_le_primitives {ts : List Token} {program : Program}
    (h : Describes ts program) (c : Combinator)
    : (ts.map Token.tag).count (.primitive c) ≤ program.primitives := by
  cases h
  rw [List.count, List.countP_map]
  apply List.countP_mono_left
  intro t _ ht
  rw [Function.comp_apply, beq_iff_eq] at ht
  simp [Token.isPrimitive, ht]

namespace Session

theorem exists_read_write (s : Source) (gap : Nat → Blanks)
    : ∃ body last program, (tokenize (s.write gap)).tokens = body ++ [last]
        ∧ last.tag = .endOfProgram ∧ body.map Token.lexeme = s.lexemes ∧ Describes body program
        ∧ read (s.write gap) = .ok program ∧ program.complexity = s.complexity := by
  obtain ⟨_, body, last, htokens, hbody, hlast⟩ := tokenize_layOut s.spells gap
  obtain ⟨program, hdescribes, hcomplexity, _⟩ := s.exists_describes hbody
  refine ⟨body, last, program, htokens, hlast, hbody, hdescribes, ?_, hcomplexity⟩
  rw [read, Source.write, htokens]
  exact parse_eq_ok_of_describes hdescribes hlast true

theorem count_lexemes_le_primitives {s : Source} {body : List Token} {program : Program}
    (hbody : body.map Token.lexeme = s.lexemes) (h : Describes body program) (c : Combinator)
    : (s.lexemes.map Prod.fst).count (.primitive c) ≤ program.primitives := by
  have htags : body.map Token.tag = s.lexemes.map Prod.fst := by
    rw [← hbody, List.map_map]
    rfl
  rw [← htags]
  exact h.count_le_primitives c

theorem exists_read_textRepeated (n : Nat)
    : ∃ program, read (textRepeated n) = .ok program ∧ program.complexity = .exponential
        ∧ n < program.primitives := by
  obtain ⟨body, last, program, _, _, hbody, hdescribes, hread, hcomplexity⟩ :=
    exists_read_write (Source.repeated n) fun _ => ⟨[], by simp⟩
  have hcount := count_lexemes_le_primitives hbody hdescribes .K
  rw [write_repeated] at hread
  refine ⟨program, hread, hcomplexity, ?_⟩
  rw [Source.lexemes_repeated] at hcount
  simpa [Tag.lexeme] using hcount

theorem boundText?_eq_none_of_le {program : Program} {digits : Nat}
    (hcomplexity : program.complexity = .exponential)
    (hdigits : 10 ^ digits ≤ 2 ^ (program.primitives + 1))
    : boundText? program.bound (some digits) = none := by
  have hbound : program.bound = some (2 ^ (program.primitives + 1)) := by
    rw [Program.bound, hcomplexity]
    rfl
  have hlarge : ¬(2 ^ (program.primitives + 1) : Int).natAbs < Nat.pow 10 digits := by
    rw [Int.natAbs_pow]
    exact Nat.not_lt_of_le hdigits
  rw [hbound, boundText?, Numeral.text?, if_neg hlarge]

theorem pow_maxDigits_le {n : Nat} (h : 14283 < n) : 10 ^ Numeral.maxDigits ≤ 2 ^ (n + 1) :=
  calc
    10 ^ Numeral.maxDigits ≤ 2 ^ 14285 := by decide +kernel
    _ ≤ 2 ^ (n + 1) := Nat.pow_le_pow_right (by decide) (by omega)

theorem exists_reaches_halfway {limit : Option Nat} {text : String} {program : Program}
    (hread : read text = .ok program) (hbound : boundText? program.bound limit = none)
    (files : Files)
    : ∃ console, Reaches files limit [.ran text (.raised (.defect .tooManyDigits)), .opened]
        ⟨console, some { source := text, parsed := some program }⟩ := by
  let opened : Session := { source := text }
  have hopened : Reaches files limit [.opened] ⟨{}, some opened⟩ :=
    .event (.start {}) (.opened (some text) none false rfl)
  obtain ⟨hsession, hending⟩ := run_of_tooManyDigits (s := opened) hread hbound {} 0
  have hran := hopened.event (.ran 0 (by rw [hending]; simp))
  rw [hending, hsession] at hran
  exact ⟨_, hran⟩

theorem exists_reaches_rewritten
    : ∃ console s result program left,
        Reaches (fun _ => none) (some Numeral.maxDigits)
            [.ran "inf?K(IK)" (.finished result), .opened] ⟨console, some s⟩
          ∧ read "inf?K(IK)" = .ok program ∧ render program.task = "K(IK)"
          ∧ s.parsed = some left ∧ render left.task = "K(K)" := by
  let opened : Session := { source := "inf?K(IK)" }
  let outcome := opened.run {} 20 (some Numeral.maxDigits)
  have hopened : Reaches (fun _ => none) (some Numeral.maxDigits) [.opened] ⟨{}, some opened⟩ :=
    .event (.start {}) (.opened (some "inf?K(IK)") none false rfl)
  have hfinished : outcome.ending.isFinished = true := by decide +kernel
  obtain ⟨result, hresult⟩ := Ending.exists_of_isFinished hfinished
  have hran := hopened.event (.ran 20 (by rw [hresult]; simp))
  rw [hresult] at hran
  have hleft : outcome.session.parsed.map (render ·.task) = some "K(K)" := by decide +kernel
  obtain ⟨left, hparsed, htask⟩ := Option.map_eq_some_iff.mp hleft
  have hread : (read "inf?K(IK)").toOption.map (render ·.task) = some "K(IK)" := by decide +kernel
  obtain ⟨program, hprogram, hstart⟩ := Option.map_eq_some_iff.mp hread
  refine ⟨_, _, result, program, left, hran, ?_, hstart, hparsed, htask⟩
  cases hcases : read "inf?K(IK)" with
  | error => simp [hcases, Except.toOption] at hprogram
  | ok program' =>
    rw [hcases] at hprogram
    cases hprogram
    rfl

/--
A session may be left with a program that it holds no results of, by a run that fails, and with a
program that was not read from its text, by one that does not.
-/
theorem exists_halfway_and_rewritten
    : (∃ console s, Reaches (fun _ => none) (some Numeral.maxDigits)
          [.ran (textRepeated 14283) (.raised (.defect .tooManyDigits)), .opened] ⟨console, some s⟩
        ∧ s.parsed.isSome ∧ s.reducer = none)
      ∧ ∃ console s result program left,
          Reaches (fun _ => none) (some Numeral.maxDigits)
              [.ran "inf?K(IK)" (.finished result), .opened] ⟨console, some s⟩
            ∧ read "inf?K(IK)" = .ok program ∧ render program.task = "K(IK)"
            ∧ s.parsed = some left ∧ render left.task = "K(K)" := by
  obtain ⟨program, hread, hcomplexity, hprimitives⟩ := exists_read_textRepeated 14283
  have hbound := boundText?_eq_none_of_le hcomplexity (pow_maxDigits_le hprimitives)
  obtain ⟨console, hreaches⟩ := exists_reaches_halfway hread hbound fun _ => none
  exact ⟨⟨console, _, hreaches, rfl, rfl⟩, exists_reaches_rewritten⟩

end Session

end Overflow

end Combinatory
