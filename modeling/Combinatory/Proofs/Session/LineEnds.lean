import Combinatory.Proofs.Session.Relocation
import Combinatory.Proofs.Token.LineEnds

namespace Combinatory

theorem Position.text_unindexed (p : Position) : p.unindexed.text = p.text := by
  simp only [text, unindexed]

theorem Message.placeText_unindexed (position : Option Position)
    : placeText (position.map .unindexed) = placeText position := by
  cases position with
  | none => rfl
  | some p => simp only [Option.map_some, placeText, Position.text_unindexed]

theorem Message.lineWith_relocate_unindexed (severity : Severity → String) (m : Message)
    : (m.relocate .unindexed).lineWith severity = m.lineWith severity := by
  simp only [lineWith, relocate, placeText_unindexed]

theorem Line.complaintText_relocate_unindexed (colored : Bool) (c : Complaint)
    : complaintText colored (c.relocate .unindexed) = complaintText colored c := by
  obtain ⟨content, position, internal⟩ := c
  cases position with
  | none => rfl
  | some p =>
    simp only [complaintText, Complaint.relocate, Option.map_some, Position.text_unindexed]

theorem Line.text_relocate_unindexed (colored : Bool) (line : Line)
    : (line.relocate .unindexed).text colored = line.text colored := by
  cases line with
  | message m => exact m.lineWith_relocate_unindexed (paintSeverity colored)
  | complaint c => exact complaintText_relocate_unindexed colored c
  | _ => rfl

namespace Session

/--
The runs print the same lines and come to the same. The places they keep, those of messages that are
still pending, of the spans of terms, and of what was raised, differ in their indices at most.
-/
structure Outcome.LooksLike (o o' : Outcome) : Prop where
  printed (colored : Bool)
    : o'.console.printed.map (Line.text colored) = o.console.printed.map (Line.text colored)
  pending : o'.console.pending.map (Message.relocate .unindexed)
    = o.console.pending.map (Message.relocate .unindexed)
  ending : o'.ending.relocate .unindexed = o.ending.relocate .unindexed
  steps : o'.session.steps = o.session.steps
  result? : o'.session.result? = o.session.result?

section Relocated

variable {φ : Position → Position} {source : String}

theorem steps_relocate (s : Session) : (s.relocate φ source).steps = s.steps := by
  obtain ⟨_, _, _, reducer⟩ := s
  cases reducer <;> rfl

theorem result?_relocate (s : Session) : (s.relocate φ source).result? = s.result? := by
  simp only [result?, relocate, Option.map_map, Function.comp_def, Reducer.text_mapSpans]

theorem Outcome.looksLike_of_relocate_eq {o o' : Outcome}
    (h : o'.relocate .unindexed source = o.relocate .unindexed source)
    : o.LooksLike o' := by
  have hconsole := congrArg Outcome.console h
  have hsession := congrArg Outcome.session h
  constructor
  . intro colored
    have hprinted (c : Console)
        : (c.relocate .unindexed).printed.map (Line.text colored)
          = c.printed.map (Line.text colored) := by
      simp [Console.relocate, Line.text_relocate_unindexed]
    have hlines := congrArg (fun c => c.printed.map (Line.text colored)) hconsole
    exact (hprinted _).symm.trans (hlines.trans (hprinted _))
  . exact congrArg Console.pending hconsole
  . exact congrArg Outcome.ending h
  . have hsteps := congrArg Session.steps hsession
    exact (steps_relocate _).symm.trans (hsteps.trans (steps_relocate _))
  . have hresult := congrArg Session.result? hsession
    exact (result?_relocate _).symm.trans (hresult.trans (result?_relocate _))

end Relocated

/--
With a line feed for each pair of a carriage return and a line feed, a text has the same tokens, and
the same is reported of it, at the same lines and columns. Its runs, within a guard or without,
print the same and come to the same.
-/
theorem joined_runs_alike (text : String)
    : (tokenize (joinLineEnds text)).tokens.map (Token.relocate .unindexed)
          = (tokenize text).tokens.map (Token.relocate .unindexed)
        ∧ (tokenize (joinLineEnds text)).messages.map (Message.relocate .unindexed)
          = (tokenize text).messages.map (Message.relocate .unindexed)
        ∧ ∀ (s : Session) (console : Console) (fuel : Nat) (limit : Option Nat),
          let run source := run { s with source } console fuel limit
          let runGuarded source := runGuarded { s with source } console fuel limit
          (run text).LooksLike (run (joinLineEnds text))
            ∧ (runGuarded text).LooksLike (runGuarded (joinLineEnds text)) := by
  have hrelocates : Relocates .unindexed text (joinLineEnds text) :=
    ⟨tokens_joinLineEnds text, messages_joinLineEnds text⟩
  refine ⟨hrelocates.tokens, hrelocates.messages, fun s console fuel limit => ?_⟩
  have hrun := run_congr_relocate hrelocates s console fuel limit text
  have hguarded := congrArg Outcome.guarded hrun
  rw [Outcome.guarded_relocate, Outcome.guarded_relocate] at hguarded
  constructor
  . exact Outcome.looksLike_of_relocate_eq hrun
  . dsimp only
    rw [runGuarded_eq_guarded, runGuarded_eq_guarded]
    exact Outcome.looksLike_of_relocate_eq hguarded

end Session

end Combinatory
