import Combinatory.Proofs.Calculus.Tree

/-!
The application tree that a sequence of terms stands for: its first term applied to the others. The
tree knows nothing of brackets around a single term or around the beginning of a sequence.
-/

namespace Combinatory

mutual

def Term.tree : Term → Tree
  | .primitive c _ => .leaf c
  | .group ts _ => treeOf ts

/--
The tree of a sequence of terms. An empty sequence has none, the one given here has no meaning.
-/
def treeOf : List Term → Tree
  | [] => default
  | t :: ts => applyAll t.tree ts

def applyAll (f : Tree) : List Term → Tree
  | [] => f
  | t :: ts => applyAll (.app f t.tree) ts

end

@[simp]
theorem Term.tree_primitive (c : Combinator) (s : Option Span)
    : (Term.primitive c s).tree = .leaf c := by
  simp [Term.tree]

@[simp]
theorem Term.tree_group (ts : List Term) (s : Option Span) : (Term.group ts s).tree = treeOf ts := by
  simp [Term.tree]

@[simp]
theorem treeOf_cons (t : Term) (ts : List Term) : treeOf (t :: ts) = applyAll t.tree ts := by
  simp [treeOf]

@[simp]
theorem applyAll_nil (f : Tree) : applyAll f [] = f := by
  simp [applyAll]

@[simp]
theorem applyAll_cons (f : Tree) (t : Term) (ts : List Term)
    : applyAll f (t :: ts) = applyAll (.app f t.tree) ts := by
  simp [applyAll]

@[simp]
theorem applyAll_append (f : Tree) (ts us : List Term)
    : applyAll f (ts ++ us) = applyAll (applyAll f ts) us := by
  induction ts generalizing f with
  | nil => simp
  | cons t ts ih => simp [ih]

theorem treeOf_append {ts : List Term} (h : ts ≠ []) (us : List Term)
    : treeOf (ts ++ us) = applyAll (treeOf ts) us := by
  cases ts with
  | nil => contradiction
  | cons t ts => simp

theorem treeOf_splice {nodes : List Term} (h : nodes ≠ []) (s : Option Span) (ts : List Term)
    : treeOf (nodes ++ ts) = treeOf (.group nodes s :: ts) := by
  simp [treeOf_append h]

theorem treeOf_congr (ts : List Term) {t u : Term} (us : List Term) (h : t.tree = u.tree)
    : treeOf (ts ++ t :: us) = treeOf (ts ++ u :: us) := by
  cases ts with
  | nil => simp [h]
  | cons => simp [h]

@[simp]
theorem Term.tree_collapse (t : Term) : t.collapse.tree = t.tree := by
  fun_induction collapse t with
  | case1 t s ih => simp [ih]
  | case2 => rfl

@[simp]
theorem demand_applyAll (f : Tree) (ts : List Term)
    : (applyAll f ts).demand = f.demand - ts.length := by
  induction ts generalizing f with
  | nil => simp
  | cons t ts ih =>
    simp only [applyAll_cons, ih, Tree.demand_app, List.length_cons]
    omega

theorem leftmost?_applyAll {f g : Tree} {ts : List Term} (hlen : ts.length < f.demand)
    (h : f.leftmost? = some g)
    : (applyAll f ts).leftmost? = some (applyAll g ts) := by
  induction ts generalizing f g with
  | nil => simpa using h
  | cons t ts ih =>
    rw [List.length_cons] at hlen
    simp only [applyAll_cons]
    apply ih
    . rw [Tree.demand_app]
      omega
    . exact Tree.leftmost?_app_left _ (by omega) h

inductive Term.Filled : Term → Prop where
  | primitive (c : Combinator) (s : Option Span) : Filled (.primitive c s)
  | group {ts : List Term} (s : Option Span) (hne : ts ≠ []) (h : ∀ t ∈ ts, Filled t)
    : Filled (.group ts s)

structure Filled (ts : List Term) : Prop where
  ne_nil : ts ≠ []
  all : ∀ t ∈ ts, t.Filled

@[simp]
theorem Term.filled_primitive (c : Combinator) (s : Option Span) : (Term.primitive c s).Filled :=
  .primitive c s

@[simp]
theorem Term.filled_group_iff {ts : List Term} {s : Option Span}
    : (Term.group ts s).Filled ↔ Combinatory.Filled ts := by
  constructor
  . rintro (_ | ⟨_, hne, h⟩)
    exact ⟨hne, h⟩
  . rintro ⟨hne, h⟩
    exact .group s hne h

theorem filled_iff {ts : List Term} : Filled ts ↔ ts ≠ [] ∧ ∀ t ∈ ts, t.Filled :=
  ⟨fun h => ⟨h.ne_nil, h.all⟩, fun h => ⟨h.1, h.2⟩⟩

theorem Filled.splice {nodes ts : List Term} {s : Option Span} (h : Filled (.group nodes s :: ts))
    : Filled (nodes ++ ts) := by
  simp only [filled_iff, List.mem_cons, forall_eq_or_imp, Term.filled_group_iff] at h
  obtain ⟨_, ⟨hne, hnodes⟩, hts⟩ := h
  constructor
  . simp [hne]
  . intro t ht
    cases List.mem_append.mp ht with
    | inl ht => exact hnodes t ht
    | inr ht => exact hts t ht

theorem Filled.replace {ts us : List Term} {t u : Term} (h : Filled (ts ++ t :: us))
    (htu : t.Filled → u.Filled)
    : Filled (ts ++ u :: us) := by
  simp only [filled_iff, List.mem_append, List.mem_cons] at h ⊢
  refine ⟨by simp, ?_⟩
  rintro v (hv | rfl | hv)
  . exact h.2 v (.inl hv)
  . exact htu (h.2 t (.inr (.inl rfl)))
  . exact h.2 v (.inr (.inr hv))

theorem Term.Filled.collapse {t : Term} (h : t.Filled) : t.collapse.Filled := by
  fun_induction Term.collapse t with
  | case1 t s ih =>
    rw [Term.filled_group_iff, filled_iff] at h
    apply ih
    simpa using h
  | case2 => exact h

end Combinatory
