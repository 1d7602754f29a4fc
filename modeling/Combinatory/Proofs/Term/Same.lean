import Combinatory.Term.Render

namespace Combinatory

theorem beq_eq_sameAll (ts us : List Term) : (ts == us) = Term.sameAll ts us := by
  induction ts generalizing us with
  | nil => cases us <;> simp [Term.sameAll]
  | cons t ts ih =>
    cases us with
    | nil => simp [Term.sameAll]
    | cons u us =>
      rw [Term.sameAll, ← ih, List.cons_beq_cons]
      rfl

theorem beq_map {f : Term → Term} {ts : List Term} (h : ∀ t ∈ ts, t == f t) : ts == ts.map f := by
  induction ts with
  | nil => rfl
  | cons t ts ih =>
    simp only [List.mem_cons, forall_eq_or_imp] at h
    rw [List.map_cons, List.cons_beq_cons, h.1, Bool.true_and]
    exact ih h.2

namespace Term

@[simp]
theorem primitive_beq_primitive (c d : Combinator) (s r : Option Span)
    : (primitive c s == primitive d r) = decide (c = d) := by
  change same _ _ = _
  simp [same]

@[simp]
theorem group_beq_group (ts us : List Term) (s r : Option Span)
    : (group ts s == group us r) = (ts == us) := by
  change same _ _ = _
  simp [same, beq_eq_sameAll]

@[simp]
theorem primitive_beq_group (c : Combinator) (us : List Term) (s r : Option Span)
    : (primitive c s == group us r) = false := by
  change same _ _ = _
  simp [same]

@[simp]
theorem group_beq_primitive (ts : List Term) (d : Combinator) (s r : Option Span)
    : (group ts s == primitive d r) = false := by
  change same _ _ = _
  simp [same]

mutual

def spanless : Term → Term
  | .primitive c _ => .primitive c none
  | .group ts _ => .group (spanlessAll ts) none

def spanlessAll : List Term → List Term
  | [] => []
  | t :: ts => t.spanless :: spanlessAll ts

end

theorem spanlessAll_eq_map (ts : List Term) : spanlessAll ts = ts.map spanless := by
  induction ts with
  | nil => simp [spanlessAll]
  | cons t ts ih => simp [spanlessAll, ih]

@[simp]
theorem spanless_primitive (c : Combinator) (s : Option Span)
    : (primitive c s).spanless = .primitive c none := by
  simp [spanless]

@[simp]
theorem spanless_group (ts : List Term) (s : Option Span)
    : (group ts s).spanless = .group (ts.map spanless) none := by
  simp [spanless, spanlessAll_eq_map]

theorem beq_iff_map_of_forall {ts us : List Term}
    (ht : ∀ t ∈ ts, ∀ u, t == u ↔ t.spanless = u.spanless)
    : ts == us ↔ ts.map spanless = us.map spanless := by
  induction ts generalizing us with
  | nil => cases us <;> simp
  | cons t ts ih =>
    cases us with
    | nil => simp
    | cons u us =>
      simp only [List.mem_cons, forall_eq_or_imp] at ht
      rw [List.cons_beq_cons, Bool.and_eq_true, ht.1 u, ih ht.2]
      simp

theorem beq_iff_spanless {t u : Term} : t == u ↔ t.spanless = u.spanless := by
  induction t generalizing u with
  | primitive =>
    cases u with
    | primitive => simp
    | group => simp
  | group ts _ ih =>
    cases u with
    | primitive => simp
    | group us => simp [beq_iff_map_of_forall fun t ht u => ih t ht]

@[simp]
theorem glyphs_primitive (c : Combinator) (s : Option Span)
    : (primitive c s).glyphs = [c.symbol] := by
  simp [glyphs]

@[simp]
theorem glyphs_group (ts : List Term) (s : Option Span)
    : (group ts s).glyphs = '(' :: (glyphsAll ts ++ [')']) := by
  simp [glyphs]

@[simp]
theorem glyphsAll_nil : glyphsAll [] = [] := by
  simp [glyphsAll]

@[simp]
theorem glyphsAll_cons (t : Term) (ts : List Term)
    : glyphsAll (t :: ts) = t.glyphs ++ glyphsAll ts := by
  simp [glyphsAll]

theorem glyphsAll_map_of_forall {ts : List Term} (h : ∀ t ∈ ts, t.spanless.glyphs = t.glyphs)
    : glyphsAll (ts.map spanless) = glyphsAll ts := by
  induction ts with
  | nil => simp
  | cons t ts ih =>
    simp only [List.mem_cons, forall_eq_or_imp] at h
    rw [List.map_cons, glyphsAll_cons, glyphsAll_cons, h.1, ih h.2]

theorem glyphs_spanless (t : Term) : t.spanless.glyphs = t.glyphs := by
  induction t with
  | primitive => simp
  | group ts _ ih => simp [glyphsAll_map_of_forall ih]

end Term

theorem beq_iff_map_spanless {ts us : List Term}
    : ts == us ↔ ts.map Term.spanless = us.map Term.spanless :=
  Term.beq_iff_map_of_forall fun _ _ _ => Term.beq_iff_spanless

theorem option_beq_iff_map_spanless {t u : Option Term}
    : t == u ↔ t.map Term.spanless = u.map Term.spanless := by
  cases t with
  | none => cases u <;> simp
  | some t =>
    cases u with
    | none => simp
    | some u => simp [Term.beq_iff_spanless]

theorem render_eq_of_beq {ts us : List Term} (h : ts == us) : render ts = render us := by
  rw [beq_iff_map_spanless] at h
  have hts := Term.glyphsAll_map_of_forall fun t (_ : t ∈ ts) => t.glyphs_spanless
  have hus := Term.glyphsAll_map_of_forall fun t (_ : t ∈ us) => t.glyphs_spanless
  rw [← String.toList_inj, toList_render, toList_render, ← hts, ← hus, h]

end Combinatory
