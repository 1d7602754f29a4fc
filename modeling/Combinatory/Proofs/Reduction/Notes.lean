import Combinatory.Proofs.Reduction.Transition

/-!
Notes have no part in a reduction. With other notes the machine makes the same steps, and comes to
the same end but for its notes: `run_map`.
-/

namespace Combinatory

structure NoteMap (α β : Type) [Note α] [Note β] where
  apply : α → β
  apply_join (a b : α) : apply (Note.join a b) = Note.join (apply a) (apply b)
  apply_copy (a : α) : apply (Note.copy a) = Note.copy (apply a)

variable {α β : Type} [Note α] [Note β]

theorem Term.copy_map (g : NoteMap α β) (t : Term α)
    : (t.map g.apply).copy = t.copy.map g.apply := by
  have hcomp : Note.copy ∘ g.apply = g.apply ∘ Note.copy := by
    funext a
    exact (g.apply_copy a).symm
  rw [copy, copy, map_map, map_map, hcomp]

theorem Combinator.contract_map (g : NoteMap α β) (c : Combinator) (ts : List (Term α))
    : c.contract (ts.map (Term.map g.apply))
        = (c.contract ts).map (List.map (Term.map g.apply)) := by
  -- A rule asks for four terms at most, the combinator included.
  rcases ts with _ | ⟨_, _ | ⟨_, _ | ⟨_, _ | ⟨_, rest⟩⟩⟩⟩ <;> cases c <;>
    simp [contract, Except.map, Term.copy_map, g.apply_join]

namespace Reduction

section Maps

variable {α β : Type} (f : α → β)

def Frame.map (frame : Frame α) : Frame β where
  done := frame.done.map (Term.map f)
  note := f frame.note
  rest := frame.rest.map (Term.map f)

def Focus.map : Focus α → Focus β
  | .head ts => .head (ts.map (Term.map f))
  | .members done rest => .members (done.map (Term.map f)) (rest.map (Term.map f))

def Config.map (config : Config α) : Config β where
  focus := config.focus.map f
  outer := config.outer.map (Frame.map f)

def Move.map : Move α → Move β
  | .silent next => .silent (next.map f)
  | .fired before after next =>
    .fired (before.map (Term.map f)) (after.map (Term.map f)) (next.map f)
  | .halted result => .halted (result.map (Term.map f))
  | .fault defect => .fault defect

def Firing.map (firing : Firing α) : Firing β where
  number := firing.number
  before := firing.before.map (Term.map f)
  after := firing.after.map (Term.map f)

def Progress.map (p : Progress α) : Progress β where
  steps := p.steps
  trace := p.trace.map (Firing.map f)

def Ending.map : Ending α → Ending β
  | .finished result => .finished (result.map (Term.map f))
  | .suspended config => .suspended (config.map f)
  | .fault defect => .fault defect

theorem Silent.map {exhausted : Bool} {c d : Config α} (h : Silent exhausted c d)
    : Silent exhausted (c.map f) (d.map f) := by
  cases h with
  | empty outer => exact .empty _
  | stop t ts outer h => exact .stop _ _ _ h
  | splice nodes s ts outer h =>
    have := Silent.splice (nodes.map (Term.map f)) (f s) (ts.map (Term.map f))
      (outer.map (Frame.map f)) h
    simpa [Config.map, Focus.map] using this
  | unsaturated c s args outer h hargs =>
    have := Silent.unsaturated c (f s) (args.map (Term.map f)) (outer.map (Frame.map f)) h
      (by rwa [List.length_map])
    simpa [Config.map, Focus.map] using this
  | enter done nodes s rest outer =>
    have := @Silent.enter β exhausted (done.map (Term.map f)) (nodes.map (Term.map f)) (f s)
      (rest.map (Term.map f)) (outer.map (Frame.map f))
    simpa [Config.map, Focus.map, Frame.map] using this
  | pass done c s rest outer =>
    have := @Silent.pass β exhausted (done.map (Term.map f)) c (f s) (rest.map (Term.map f))
      (outer.map (Frame.map f))
    simpa [Config.map, Focus.map] using this
  | leave done frame outer =>
    have := @Silent.leave β exhausted (done.map (Term.map f)) (frame.map f)
      (outer.map (Frame.map f))
    have hgroup : (Term.group (done.map (Term.map f)).reverse (f frame.note)).collapse
        = (Term.group done.reverse frame.note).collapse.map f := by
      rw [← Term.collapse_map, Term.map_group, List.map_reverse]
    simpa [Config.map, Focus.map, Frame.map, hgroup] using this

theorem record_map (p : Progress α) (before after : List (Term α))
    : (p.map f).record (before.map (Term.map f)) (after.map (Term.map f))
        = (p.record before after).map f := by
  simp [Progress.record, Progress.map, Firing.map]

end Maps

variable (g : NoteMap α β)

theorem Fires.map {c d : Config α} {before after : List (Term α)} (h : Fires c before after d)
    : Fires (c.map g.apply) (before.map (Term.map g.apply)) (after.map (Term.map g.apply))
        (d.map g.apply) := by
  cases h with
  | @mk c s args after outer hargs h =>
    have hcontract := c.contract_map g (.primitive c s :: args)
    rw [h, List.map_cons, Term.map_primitive] at hcontract
    have := Fires.mk (g.apply s) (outer.map (Frame.map g.apply)) (by rwa [List.length_map])
      hcontract
    simpa [Config.map, Focus.map] using this

theorem step_map (exhausted : Bool) (c : Config α)
    : (c.map g.apply).step exhausted = (c.step exhausted).map g.apply := by
  obtain ⟨d, hd, hsilent⟩ | ⟨before, after, d, hd, rfl, hfires⟩ | ⟨done, hdone, rfl⟩ :=
    c.step_cases exhausted
  . rw [hd, (hsilent.map g.apply).step_eq, Move.map]
  . rw [hd, (hfires.map g).step_eq, Move.map]
  . rw [hdone, Move.map, List.map_reverse]
    rfl

theorem run_map (limit : Option Int) (fuel : Nat) (p : Progress α) (c : Config α)
    : run limit fuel (p.map g.apply) (c.map g.apply)
        = Prod.map (Progress.map g.apply) (Ending.map g.apply) (run limit fuel p c) := by
  induction fuel generalizing p c with
  | zero => rfl
  | succ fuel ih =>
    have hstep := step_map g (exhausts limit p.steps) c
    have hsteps : (p.map g.apply).steps = p.steps := rfl
    unfold run
    rw [hsteps, hstep]
    cases c.step (exhausts limit p.steps) with
    | silent d => exact ih p d
    | fired before after d =>
      simp only [Move.map, record_map]
      exact ih _ d
    | halted result => rfl
    | fault defect => rfl

end Reduction

end Combinatory
