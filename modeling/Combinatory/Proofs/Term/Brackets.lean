import Combinatory.Proofs.Term.Same
import Mathlib.Data.List.Basic

/-!
Brackets around a single term. The `outline` of a term is what is left without them, at any depth,
and without spans. Terms that have no such brackets to begin with are `Compact`, and compact terms
with the same outline are the same but for their spans: `beq_of_outline`.
-/

namespace Combinatory

namespace Term

mutual

def outline : Term → Term
  | .primitive c _ => .primitive c none
  | .group ts _ => (group (outlineAll ts) none).collapse

def outlineAll : List Term → List Term
  | [] => []
  | t :: ts => t.outline :: outlineAll ts

end

theorem outlineAll_eq_map (ts : List Term) : outlineAll ts = ts.map outline := by
  induction ts with
  | nil => simp [outlineAll]
  | cons t ts ih => simp [outlineAll, ih]

@[simp]
theorem outline_primitive (c : Combinator) (s : Option Span)
    : (primitive c s).outline = .primitive c none := by
  simp [outline]

theorem outline_group (ts : List Term) (s : Option Span)
    : (group ts s).outline = (group (ts.map outline) none).collapse := by
  simp [outline, outlineAll_eq_map]

inductive Compact : Term → Prop where
  | primitive (c : Combinator) (s : Option Span) : Compact (.primitive c s)
  | group {ts : List Term} (s : Option Span) (hlen : ts.length ≠ 1) (h : ∀ t ∈ ts, Compact t)
    : Compact (.group ts s)

theorem Compact.collapse_eq {t : Term} (h : t.Compact) : t.collapse = t := by
  cases h with
  | primitive => simp
  | group s hlen => exact collapse_of_length_ne hlen s

theorem Compact.nodes {ts : List Term} {s : Option Span} (h : (Term.group ts s).Compact)
    : ∀ t ∈ ts, t.Compact := by
  cases h with
  | group _ _ h => exact h

theorem compact_collapse {ts : List Term} (h : ∀ t ∈ ts, t.Compact) (s : Option Span)
    : (group ts s).collapse.Compact := by
  by_cases hlen : ts.length = 1
  . obtain ⟨t, rfl⟩ := List.length_eq_one_iff.mp hlen
    have ht := h t (by simp)
    rwa [collapse_singleton, ht.collapse_eq]
  . rw [collapse_of_length_ne hlen]
    exact .group s hlen h

theorem compact_outline (t : Term) : t.outline.Compact := by
  induction t with
  | primitive c =>
    rw [outline_primitive]
    exact .primitive c none
  | group ts _ ih =>
    rw [outline_group]
    apply compact_collapse
    simpa using ih

@[simp]
theorem outline_singleton (t : Term) (s : Option Span) : (group [t] s).outline = t.outline := by
  rw [outline_group, List.map_singleton, collapse_singleton, t.compact_outline.collapse_eq]

theorem outline_of_length_ne {ts : List Term} (h : ts.length ≠ 1) (s : Option Span)
    : (group ts s).outline = .group (ts.map outline) none := by
  rw [outline_group, collapse_of_length_ne (by simpa using h)]

@[simp]
theorem outline_collapse (t : Term) : t.collapse.outline = t.outline := by
  fun_induction collapse t with
  | case1 t s ih => rw [ih, outline_singleton]
  | case2 => rfl

theorem outline_group_congr {ts us : List Term} (h : ts.map outline = us.map outline)
    (s r : Option Span)
    : (group ts s).outline = (group us r).outline := by
  rw [outline_group, outline_group, h]

theorem exists_collapse_eq_primitive {t : Term} {c : Combinator} (h : t.outline = .primitive c none)
    : ∃ s, t.collapse = .primitive c s := by
  rw [← outline_collapse] at h
  obtain ⟨d, s, hcollapse⟩ | ⟨ts, s, hcollapse, hlen⟩ := t.collapse_cases
  . simp only [hcollapse, outline_primitive, primitive.injEq, and_true] at h
    exact ⟨s, h ▸ hcollapse⟩
  . simp [hcollapse, outline_of_length_ne hlen] at h

theorem exists_collapse_eq_group {t : Term} {ts : List Term} {s : Option Span}
    (hlen : ts.length ≠ 1) (h : t.outline = (group ts s).outline)
    : ∃ us r, t.collapse = .group us r ∧ us.map outline = ts.map outline := by
  rw [outline_of_length_ne hlen, ← outline_collapse] at h
  obtain ⟨d, r, hcollapse⟩ | ⟨us, r, hcollapse, hlen'⟩ := t.collapse_cases
  . simp [hcollapse] at h
  . simp only [hcollapse, outline_of_length_ne hlen', group.injEq, and_true] at h
    exact ⟨us, r, hcollapse, h⟩

theorem Compact.outline_eq_spanless {t : Term} (h : t.Compact) : t.outline = t.spanless := by
  induction h with
  | primitive => simp
  | group s hlen _ ih =>
    rw [outline_of_length_ne hlen, spanless_group, List.map_congr_left ih]

end Term

theorem beq_of_outline {ts us : List Term} (hts : ∀ t ∈ ts, t.Compact) (hus : ∀ t ∈ us, t.Compact)
    (h : ts.map Term.outline = us.map Term.outline)
    : ts == us := by
  rw [beq_iff_map_spanless]
  rwa [List.map_congr_left fun t ht => (hts t ht).outline_eq_spanless,
    List.map_congr_left fun t ht => (hus t ht).outline_eq_spanless] at h

end Combinatory
