import Combinatory.Proofs.Reduction.Notes
import Combinatory.Proofs.Term.Spans

namespace Combinatory

def SpanMap.noteMap (g : SpanMap) : NoteMap (Option Span) (Option Span) where
  apply := g.apply
  apply_join := g.apply_stretch
  apply_copy _ := rfl

variable (g : SpanMap)

theorem Combinator.contract_mapSpans (c : Combinator) (ts : List Term)
    : c.contract (ts.map (Term.mapSpans g)) = (c.contract ts).map (List.map (Term.mapSpans g)) :=
  c.contract_map g.noteMap ts

namespace Reduction

def Firing.mapSpans : Firing → Firing :=
  Firing.map g.apply

@[simp]
theorem Firing.number_mapSpans (f : Firing) : (f.mapSpans g).number = f.number := rfl

@[simp]
theorem Firing.before_mapSpans (f : Firing)
    : (f.mapSpans g).before = f.before.map (Term.mapSpans g) := rfl

@[simp]
theorem Firing.after_mapSpans (f : Firing)
    : (f.mapSpans g).after = f.after.map (Term.mapSpans g) := rfl

def Ending.mapSpans : Ending → Ending :=
  Ending.map g.apply

@[simp]
theorem Ending.mapSpans_finished (result : List Term)
    : (Ending.finished result).mapSpans g = .finished (result.map (Term.mapSpans g)) := rfl

end Reduction

namespace Reducer

def mapSpans (r : Reducer) : Reducer :=
  { r with terms := r.terms.map (Term.mapSpans g) }

theorem budget?_mapSpans (r : Reducer) : (r.mapSpans g).budget? = r.budget? := by
  obtain ⟨ts, complexity, bound, steps⟩ := r
  cases ts <;> rfl

def Reduced.mapSpans (reduced : Reduced) : Reduced where
  reducer := reduced.reducer.mapSpans g
  trace := reduced.trace.map (Reduction.Firing.mapSpans g)
  ending := reduced.ending.mapSpans g

theorem reduce_mapSpans (r : Reducer) (fuel : Nat)
    : (r.mapSpans g).reduce fuel = (r.reduce fuel).mapSpans g := by
  unfold reduce
  rw [budget?_mapSpans]
  cases r.budget? with
  | error defect =>
    simp only [Reduced.mapSpans, Array.map_empty]
    rfl
  | ok limit =>
    have hrun := Reduction.run_map g.noteMap limit fuel { steps := r.steps } (.start r.terms)
    have hprogress
        : Reduction.Progress.map g.noteMap.apply { steps := r.steps } = { steps := r.steps } := by
      simp [Reduction.Progress.map]
    have hstart
        : Reduction.Config.map g.noteMap.apply (.start r.terms) = .start (r.mapSpans g).terms := rfl
    rw [hprogress, hstart] at hrun
    have hsteps : (r.mapSpans g).steps = r.steps := rfl
    simp only [hsteps, hrun]
    obtain ⟨progress, ending⟩ := Reduction.run limit fuel { steps := r.steps } (.start r.terms)
    cases ending <;> rfl

@[simp]
theorem text_mapSpans (r : Reducer) : (r.mapSpans g).text = r.text :=
  render_map_mapSpans g r.terms

end Reducer

def Reduction.Firing.shown (f : Reduction.Firing) : Int × String × String :=
  (f.number, render f.before, render f.after)

theorem Reduction.Firing.shown_mapSpans (f : Reduction.Firing)
    : (f.mapSpans g).shown = f.shown := by
  simp [shown]

inductive Reduction.Ending.Alike : Reduction.Ending → Reduction.Ending → Prop where
  | finished {ts us : List Term} (h : ts == us) : Alike (.finished ts) (.finished us)
  | suspended (c d : Reduction.Config) : Alike (.suspended c) (.suspended d)
  | fault (defect : Defect) : Alike (.fault defect) (.fault defect)

theorem Reduction.Ending.alike_of_mapSpans_eq {e e' : Reduction.Ending}
    (h : e.mapSpans g = e'.mapSpans g)
    : e.Alike e' := by
  cases e <;> cases e' <;>
    simp only [mapSpans, map, finished.injEq, fault.injEq, reduceCtorEq] at h
  . exact .finished (beq_of_map_mapSpans_eq g h)
  . exact .suspended _ _
  . rw [h]
    exact .fault _

namespace Reducer

structure Reduced.Alike (a b : Reduced) : Prop where
  steps : a.reducer.steps = b.reducer.steps
  terms : a.reducer.terms == b.reducer.terms
  trace : a.trace.map Reduction.Firing.shown = b.trace.map Reduction.Firing.shown
  ending : a.ending.Alike b.ending

theorem Reduced.alike_of_mapSpans_eq {a b : Reduced} (h : a.mapSpans g = b.mapSpans g)
    : a.Alike b where
  steps := congrArg (·.reducer.steps) h
  terms := beq_of_map_mapSpans_eq g (congrArg (·.reducer.terms) h)
  trace := by
    have htrace := congrArg (·.trace.map Reduction.Firing.shown) h
    simpa [mapSpans, Function.comp_def, Reduction.Firing.shown_mapSpans] using htrace
  ending := Reduction.Ending.alike_of_mapSpans_eq g (congrArg (·.ending) h)

theorem alike_reduce {r : Reducer} {us : List Term} (h : r.terms == us) (fuel : Nat)
    : (r.reduce fuel).Alike ({ r with terms := us }.reduce fuel) := by
  have hterms : r.mapSpans .erasing = { r with terms := us }.mapSpans .erasing := by
    simp only [mapSpans, map_mapSpans_erasing_eq h]
  apply Reduced.alike_of_mapSpans_eq .erasing
  rw [← reduce_mapSpans, ← reduce_mapSpans, hterms]

end Reducer

end Combinatory
