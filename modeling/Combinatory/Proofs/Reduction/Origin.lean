import Combinatory.Proofs.Reduction.Spans
import Combinatory.Reduction.Origin

namespace Combinatory

def NoteMap.span : NoteMap Origin (Option Span) where
  apply := Origin.span
  apply_join _ _ := rfl
  apply_copy _ := rfl

def NoteMap.relocating (g : SpanMap) : NoteMap Origin Origin where
  apply o := { o with span := g.apply o.span }
  apply_join a b := by simp [Note.join, g.apply_stretch]
  apply_copy _ := rfl

namespace Term

section Equations

variable (place : List Nat) (made : List Reduction.Write)

@[simp]
theorem locate_primitive (c : Combinator) (s : Option Span)
    : (primitive c s).locate place = .primitive c ⟨s, none⟩ := by
  simp [locate]

@[simp]
theorem locate_group (ts : List Term) (s : Option Span)
    : (group ts s).locate place = .group (locateAll place 0 ts) ⟨s, some place⟩ := by
  simp [locate]

@[simp]
theorem settle_primitive (c : Combinator) (o : Origin)
    : (primitive c o).settle made = .primitive c o.span := by
  simp [settle]

theorem settleAll_eq_map (ts : List (Term Origin)) : settleAll made ts = ts.map (settle made) := by
  induction ts with
  | nil => simp [settleAll]
  | cons t ts ih => simp [settleAll, ih]

theorem settle_group (ts : List (Term Origin)) (o : Origin)
    : (group ts o).settle made
        = .group ((o.place.bind fun place => made.lookup place).getD (ts.map (settle made)))
            o.span := by
  rw [settle]
  split
  . next h => simp [h]
  . next h => simp [h, settleAll_eq_map]

end Equations

theorem map_span_locateAll_of_forall {ts : List Term}
    (h : ∀ t ∈ ts, ∀ place, (t.locate place).map Origin.span = t) (place : List Nat) (i : Nat)
    : (locateAll place i ts).map (map Origin.span) = ts := by
  induction ts generalizing i with
  | nil => simp [locateAll]
  | cons t ts ih =>
    rw [List.forall_mem_cons] at h
    simp [locateAll, h.1, ih h.2]

theorem map_span_locate (t : Term) (place : List Nat) : (t.locate place).map Origin.span = t := by
  induction t generalizing place with
  | primitive => simp
  | group ts s ih => simp [map_span_locateAll_of_forall ih]

@[simp]
theorem map_span_locateAll (ts : List Term) (place : List Nat) (i : Nat)
    : (locateAll place i ts).map (map Origin.span) = ts :=
  map_span_locateAll_of_forall (fun t _ => t.map_span_locate) place i

end Term

def Reduction.Write.mapSpans (g : SpanMap) : Reduction.Write → Reduction.Write :=
  Prod.map id (List.map (Term.mapSpans g))

section Relocating

variable (g : SpanMap)

theorem lookup_map_mapSpans (place : List Nat) (made : List Reduction.Write)
    : (made.map (Reduction.Write.mapSpans g)).lookup place
        = (made.lookup place).map (List.map (Term.mapSpans g)) := by
  induction made with
  | nil => rfl
  | cons w made ih =>
    obtain ⟨written, nodes⟩ := w
    simp only [List.map_cons, Reduction.Write.mapSpans, Prod.map_apply, id, List.lookup_cons]
    cases place == written with
    | true => rfl
    | false => exact ih

namespace Term

theorem locateAll_map_mapSpans {ts : List Term}
    (h : ∀ t ∈ ts, ∀ place,
      (t.mapSpans g).locate place = (t.locate place).map (NoteMap.relocating g).apply)
    (place : List Nat) (i : Nat)
    : locateAll place i (ts.map (mapSpans g))
        = (locateAll place i ts).map (map (NoteMap.relocating g).apply) := by
  induction ts generalizing i with
  | nil => simp [locateAll]
  | cons t ts ih =>
    rw [List.forall_mem_cons] at h
    simp [locateAll, h.1, ih h.2]

theorem locate_mapSpans (t : Term) (place : List Nat)
    : (t.mapSpans g).locate place = (t.locate place).map (NoteMap.relocating g).apply := by
  induction t generalizing place with
  | primitive => rfl
  | group ts s ih => simp [locateAll_map_mapSpans g ih, NoteMap.relocating]

theorem settle_map (made : List Reduction.Write) (t : Term Origin)
    : (t.map (NoteMap.relocating g).apply).settle (made.map (Reduction.Write.mapSpans g))
        = (t.settle made).mapSpans g := by
  induction t with
  | primitive => simp [NoteMap.relocating]
  | group ts o ih =>
    have hnodes : (ts.map (map (NoteMap.relocating g).apply)).map
          (settle (made.map (Reduction.Write.mapSpans g)))
        = (ts.map (settle made)).map (mapSpans g) := by
      rw [List.map_map, List.map_map]
      exact List.map_congr_left ih
    have hplace : ((NoteMap.relocating g).apply o).place = o.place := rfl
    rw [map_group, settle_group, settle_group, mapSpans_group, hnodes, hplace]
    obtain ⟨span, _ | place⟩ := o
    . rfl
    . simp only [Option.bind_some, lookup_map_mapSpans]
      cases made.lookup place <;> rfl

theorem settleAll_map (made : List Reduction.Write) (ts : List (Term Origin))
    : settleAll (made.map (Reduction.Write.mapSpans g))
          (ts.map (map (NoteMap.relocating g).apply))
        = (settleAll made ts).map (mapSpans g) := by
  simp [settleAll_eq_map, settle_map]

end Term

namespace Reduction

theorem Config.write?_map (c : Config Origin)
    : (c.map (NoteMap.relocating g).apply).write? = c.write?.map (Write.mapSpans g) := by
  have hspan (ts : List (Term Origin))
      : (ts.map (Term.map (NoteMap.relocating g).apply)).map (Term.map Origin.span)
        = (ts.map (Term.map Origin.span)).map (Term.mapSpans g) := by
    simp [Term.mapSpans, Term.map_map, NoteMap.relocating, Function.comp_def]
  match c with
  | ⟨.head _, _⟩ => rfl
  | ⟨.members _ (_ :: _), _⟩ => rfl
  | ⟨.members _ [], []⟩ => rfl
  | ⟨.members done [], ⟨_, ⟨_, none⟩, _⟩ :: _⟩ => rfl
  | ⟨.members done [], ⟨_, ⟨_, some place⟩, _⟩ :: _⟩ =>
    have hnodes := hspan done.reverse
    rw [List.map_reverse] at hnodes
    exact congrArg (fun nodes => some (place, nodes)) hnodes

theorem writes_map (limit : Option Int) (fuel : Nat) (steps : Int) (c : Config Origin)
    (made : List Write)
    : writes limit fuel steps (c.map (NoteMap.relocating g).apply) (made.map (Write.mapSpans g))
        = (writes limit fuel steps c made).map (Write.mapSpans g) := by
  induction fuel generalizing steps c made with
  | zero => rfl
  | succ fuel ih =>
    have hstep := step_map (.relocating g) (exhausts limit steps) c
    have hmade : (c.map (NoteMap.relocating g).apply).write?.toList
          ++ made.map (Write.mapSpans g)
        = (c.write?.toList ++ made).map (Write.mapSpans g) := by
      rw [Config.write?_map, List.map_append]
      cases c.write? <;> rfl
    unfold writes
    rw [hstep, hmade]
    cases c.step (exhausts limit steps) with
    | silent d => exact ih steps d _
    | fired before after d => exact ih (steps + 1) d _
    | halted => rfl
    | fault => rfl

end Reduction

end Relocating

namespace Reduction

theorem ending_run_located (limit : Option Int) (fuel : Nat) (steps : Int) (ts : List Term)
    : (run limit fuel { steps } (.start ts)).2
        = (run limit fuel { steps } (.start (Term.locateAll [] 0 ts))).2.map Origin.span := by
  have hrun := run_map .span limit fuel { steps } (.start (Term.locateAll [] 0 ts))
  have hprogress : Progress.map NoteMap.span.apply { steps } = { steps } := by
    simp [Progress.map]
  have hstart : Config.map NoteMap.span.apply (.start (Term.locateAll [] 0 ts)) = .start ts :=
    congrArg Config.start (Term.map_span_locateAll ts [] 0)
  rw [hprogress, hstart] at hrun
  exact congrArg Prod.snd hrun

theorem writes_eq_of_finished {limit : Option Int} {m n : Nat} {p q : Progress Origin}
    {c : Config Origin} {result : List (Term Origin)}
    (h : run limit m p c = (q, .finished result)) (hle : m ≤ n) (made : List Write)
    : writes limit n p.steps c made = writes limit m p.steps c made := by
  induction m generalizing n p c made with
  | zero => simp [run] at h
  | succ m ih =>
    obtain ⟨n, rfl⟩ : ∃ k, n = k + 1 := ⟨n - 1, by omega⟩
    rw [Nat.add_le_add_iff_right] at hle
    unfold run at h
    unfold writes
    cases hstep : c.step (exhausts limit p.steps) with
    | silent d =>
      rw [hstep] at h
      exact ih h hle _
    | fired before after d =>
      rw [hstep] at h
      exact ih h hle _
    | halted => rfl
    | fault => rfl

end Reduction

namespace Reducer

open Reduction

theorem rewritten_of_budget? {r : Reducer} {limit : Option Int} (h : r.budget? = .ok limit)
    (fuel : Nat)
    : r.rewritten fuel
        = Term.settleAll
            (writes limit fuel r.steps (.start (Term.locateAll [] 0 r.terms)) [])
            (Term.locateAll [] 0 r.terms) := by
  unfold rewritten
  rw [h]

theorem rewritten_eq_of_finished {r : Reducer} {m n : Nat} {result : List Term}
    (h : (r.reduce m).ending = .finished result) (hle : m ≤ n)
    : r.rewritten n = r.rewritten m := by
  unfold reduce at h
  split at h
  . simp at h
  . next limit hlimit =>
    have hending := ending_run_located limit m r.steps r.terms
    simp only [hending] at h
    generalize hrun : run limit m { steps := r.steps } (.start (Term.locateAll [] 0 r.terms)) = res
      at h
    obtain ⟨q, ending⟩ := res
    cases ending with
    | finished =>
      rw [rewritten_of_budget? hlimit, rewritten_of_budget? hlimit, writes_eq_of_finished hrun hle]
    | suspended => simp [Ending.map] at h
    | fault => simp [Ending.map] at h

section Spans

variable (g : SpanMap)

theorem rewritten_mapSpans (r : Reducer) (fuel : Nat)
    : (r.mapSpans g).rewritten fuel = (r.rewritten fuel).map (Term.mapSpans g) := by
  have hbudget := budget?_mapSpans g r
  cases hlimit : r.budget? with
  | error =>
    simp only [rewritten, hbudget, hlimit]
    rfl
  | ok limit =>
    have hlocate : Term.locateAll [] 0 (r.mapSpans g).terms
        = (Term.locateAll [] 0 r.terms).map (Term.map (NoteMap.relocating g).apply) :=
      Term.locateAll_map_mapSpans g (fun t _ => t.locate_mapSpans g) [] 0
    have hsettle := Term.settleAll_map g
      (writes limit fuel r.steps (.start (Term.locateAll [] 0 r.terms)) [])
      (Term.locateAll [] 0 r.terms)
    rw [← writes_map] at hsettle
    rw [rewritten_of_budget? (hbudget.trans hlimit), rewritten_of_budget? hlimit, hlocate]
    exact hsettle

end Spans

end Reducer

end Combinatory
