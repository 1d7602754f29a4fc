import Combinatory.Proofs.Term.Same

namespace Combinatory

def Span.relocate (φ : Position → Position) (s : Span) : Span :=
  { start := φ s.start, stop := φ s.stop }

structure SpanMap where
  apply : Option Span → Option Span
  apply_none : apply none = none
  apply_stretch (own part : Option Span)
    : apply (Span.stretch own part) = Span.stretch (apply own) (apply part)

namespace SpanMap

def relocating (φ : Position → Position) : SpanMap where
  apply := Option.map (Span.relocate φ)
  apply_none := rfl
  apply_stretch own part := by
    cases own <;> cases part <;> rfl

def erasing : SpanMap where
  apply _ := none
  apply_none := rfl
  apply_stretch _ _ := rfl

@[simp]
theorem erasing_apply (s : Option Span) : erasing.apply s = none := rfl

@[simp]
theorem relocating_apply_some (φ : Position → Position) (s : Span)
    : (relocating φ).apply (some s) = some (s.relocate φ) := rfl

end SpanMap

variable (g : SpanMap)

namespace Term

def mapSpans : Term → Term :=
  map g.apply

@[simp]
theorem mapSpans_primitive (c : Combinator) (s : Option Span)
    : (primitive c s).mapSpans g = .primitive c (g.apply s) :=
  map_primitive g.apply c s

@[simp]
theorem mapSpans_group (ts : List Term) (s : Option Span)
    : (group ts s).mapSpans g = .group (ts.map (mapSpans g)) (g.apply s) :=
  map_group g.apply ts s

@[simp]
theorem span_mapSpans (t : Term) : (t.mapSpans g).span = g.apply t.span :=
  note_map g.apply t

theorem beq_mapSpans (t : Term) : t == t.mapSpans g := by
  induction t with
  | primitive => simp
  | group ts _ ih =>
    rw [mapSpans_group, group_beq_group]
    exact beq_map ih

theorem mapSpans_erasing : mapSpans .erasing = spanless := by
  funext t
  induction t with
  | primitive => simp
  | group ts _ ih => simpa using ih

end Term

theorem beq_map_mapSpans (ts : List Term) : ts == ts.map (Term.mapSpans g) :=
  beq_map fun t _ => t.beq_mapSpans g

theorem beq_of_map_mapSpans_eq {ts us : List Term}
    (h : ts.map (Term.mapSpans g) = us.map (Term.mapSpans g))
    : ts == us := by
  have hts := beq_iff_map_spanless.mp (beq_map_mapSpans g ts)
  have hus := beq_iff_map_spanless.mp (beq_map_mapSpans g us)
  rw [beq_iff_map_spanless, hts, hus, h]

theorem map_mapSpans_erasing_eq {ts us : List Term} (h : ts == us)
    : ts.map (Term.mapSpans .erasing) = us.map (Term.mapSpans .erasing) := by
  rwa [beq_iff_map_spanless, ← Term.mapSpans_erasing] at h

@[simp]
theorem render_map_mapSpans (ts : List Term) : render (ts.map (Term.mapSpans g)) = render ts :=
  (render_eq_of_beq (beq_map_mapSpans g ts)).symm

namespace Group

def mapSpans (body : Group) : Group :=
  { nodes := body.nodes.map (Term.mapSpans g), span := g.apply body.span }

@[simp]
theorem mapSpans_empty : empty.mapSpans g = empty := by
  simp [mapSpans, empty, g.apply_none]

@[simp]
theorem mapSpans_add (body : Group) (t : Term)
    : (body.add t).mapSpans g = (body.mapSpans g).add (t.mapSpans g) := by
  simp [mapSpans, add, g.apply_stretch]

@[simp]
theorem mapSpans_term (body : Group) : body.term.mapSpans g = (body.mapSpans g).term := by
  simp [mapSpans, term]

@[simp]
theorem isEmpty_nodes_mapSpans (body : Group)
    : (body.mapSpans g).nodes.isEmpty = body.nodes.isEmpty := by
  simp [mapSpans, Array.isEmpty]

end Group

end Combinatory
