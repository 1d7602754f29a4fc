import Combinatory.Text.Position

/-!
Terms of combinatory logic: the combinators `K`, `S`, and `I`, and bracketed sequences of terms. A
sequence stands for the application of its first term to the others, one after the other. A term
has a note attached to it, mostly the span that it has in a text, if any. What a term means does not
depend on its notes.
-/

namespace Combinatory

inductive Combinator where
  | K
  | S
  | I
  deriving DecidableEq, Inhabited

namespace Combinator

def symbol : Combinator → Char
  | .K => 'K'
  | .S => 'S'
  | .I => 'I'

def arity : Combinator → Nat
  | .K => 2
  | .S => 3
  | .I => 1

def ofText? (text : String) : Option Combinator :=
  if text = "K" then some .K
  else if text = "S" then some .S
  else if text = "I" then some .I
  else none

theorem symbol_injective {c d : Combinator} (h : c.symbol = d.symbol) : c = d := by
  cases c <;> cases d <;> simp_all [symbol]

end Combinator

inductive Term (α : Type := Option Span) where
  | primitive (combinator : Combinator) (note : α)
  | group (nodes : List (Term α)) (note : α)

/--
Notes that go along with terms when these are put together and copied.
-/
class Note (α : Type) where
  join : α → α → α
  copy : α → α

instance : Note (Option Span) where
  join := Span.stretch
  copy := id

namespace Term

variable {α β : Type}

@[elab_as_elim, induction_eliminator]
theorem induct {motive : Term α → Prop}
    (primitive : ∀ combinator note, motive (.primitive combinator note))
    (group : ∀ nodes note, (∀ t ∈ nodes, motive t) → motive (.group nodes note))
    (t : Term α)
    : motive t :=
  match t with
  | .primitive combinator note => primitive combinator note
  | .group nodes note => group nodes note (fun t _ => induct primitive group t)

instance : Inhabited Term where
  default := .group [] none

def note : Term α → α
  | .primitive _ note => note
  | .group _ note => note

@[simp]
theorem note_primitive (c : Combinator) (note : α) : (primitive c note).note = note := rfl

@[simp]
theorem note_group (ts : List (Term α)) (note : α) : (group ts note).note = note := rfl

def span (t : Term) : Option Span :=
  t.note

def nodes : Term → List Term
  | .primitive .. => []
  | .group nodes _ => nodes

mutual

def map (f : α → β) : Term α → Term β
  | .primitive c note => .primitive c (f note)
  | .group ts note => .group (mapAll f ts) (f note)

def mapAll (f : α → β) : List (Term α) → List (Term β)
  | [] => []
  | t :: ts => t.map f :: mapAll f ts

end

def copy [Note α] (t : Term α) : Term α :=
  t.map Note.copy

mutual

def same : Term → Term → Bool
  | .primitive c _, .primitive d _ => c = d
  | .group ts _, .group us _ => sameAll ts us
  | _, _ => false

def sameAll : List Term → List Term → Bool
  | [], [] => true
  | t :: ts, u :: us => t.same u && sameAll ts us
  | _, _ => false

end

instance : BEq Term where
  beq := same

def collapse : Term α → Term α
  | .group [t] _ => t.collapse
  | t => t

@[simp]
theorem collapse_primitive (c : Combinator) (s : α)
    : (primitive c s).collapse = .primitive c s := by
  simp [collapse]

@[simp]
theorem collapse_singleton (t : Term α) (s : α) : (group [t] s).collapse = t.collapse := by
  simp [collapse]

theorem collapse_of_length_ne {ts : List (Term α)} (h : ts.length ≠ 1) (s : α)
    : (group ts s).collapse = .group ts s := by
  unfold collapse
  split
  . simp_all
  . rfl

theorem collapse_cases (t : Term α)
    : (∃ c s, t.collapse = .primitive c s)
        ∨ (∃ ts s, t.collapse = .group ts s ∧ ts.length ≠ 1) := by
  fun_induction collapse t with
  | case1 t s ih => exact ih
  | case2 t h =>
    cases t with
    | primitive c s => exact .inl ⟨c, s, rfl⟩
    | group ts s =>
      refine .inr ⟨ts, s, rfl, ?_⟩
      intro hlen
      obtain ⟨t, rfl⟩ := List.length_eq_one_iff.mp hlen
      exact h t s rfl

theorem mapAll_eq_map (f : α → β) (ts : List (Term α)) : mapAll f ts = ts.map (map f) := by
  induction ts with
  | nil => simp [mapAll]
  | cons t ts ih => simp [mapAll, ih]

@[simp]
theorem map_primitive (f : α → β) (c : Combinator) (s : α)
    : (primitive c s).map f = .primitive c (f s) := by
  simp [map]

@[simp]
theorem map_group (f : α → β) (ts : List (Term α)) (s : α)
    : (group ts s).map f = .group (ts.map (map f)) (f s) := by
  simp [map, mapAll_eq_map]

@[simp]
theorem note_map (f : α → β) (t : Term α) : (t.map f).note = f t.note := by
  cases t <;> simp

theorem map_map {γ : Type} (f : α → β) (g : β → γ) (t : Term α)
    : (t.map f).map g = t.map (g ∘ f) := by
  induction t with
  | primitive => simp
  | group ts _ ih =>
    have hnodes : ts.map (map g ∘ map f) = ts.map (map (g ∘ f)) := List.map_congr_left ih
    simp [hnodes]

theorem collapse_map (f : α → β) (t : Term α) : (t.map f).collapse = t.collapse.map f := by
  fun_induction collapse t with
  | case1 t s ih => rw [map_group, List.map_singleton, collapse_singleton, ih]
  | case2 t h =>
    cases t with
    | primitive c s => simp
    | group ts s =>
      rw [map_group, collapse_of_length_ne]
      rw [List.length_map]
      intro hlen
      obtain ⟨t, rfl⟩ := List.length_eq_one_iff.mp hlen
      exact h t s rfl

@[simp]
theorem map_id (t : Term α) : t.map id = t := by
  induction t with
  | primitive => simp
  | group ts _ ih =>
    rw [map_group, List.map_congr_left ih, List.map_id', id]

@[simp]
theorem copy_eq (t : Term) : t.copy = t :=
  map_id t

end Term

structure Group where
  nodes : Array Term := #[]
  span : Option Span := none

namespace Group

def empty : Group := {}

def add (g : Group) (t : Term) : Group :=
  { nodes := g.nodes.push t, span := Span.stretch g.span t.span }

def term (g : Group) : Term :=
  .group g.nodes.toList g.span

/--
The group of `nodes`. A span that is given is kept as it is, otherwise that of the nodes is taken.
-/
def ofNodes (nodes : List Term) (span : Option Span) : Group :=
  let g := nodes.foldl add empty
  { g with span := span <|> g.span }

@[simp]
theorem nodes_empty : empty.nodes = #[] := rfl

@[simp]
theorem span_empty : empty.span = none := rfl

@[simp]
theorem nodes_add (g : Group) (t : Term) : (g.add t).nodes = g.nodes.push t := rfl

@[simp]
theorem span_add (g : Group) (t : Term) : (g.add t).span = Span.stretch g.span t.span := rfl

theorem nodes_foldl_add (g : Group) (ts : List Term)
    : (ts.foldl add g).nodes = g.nodes ++ ts.toArray := by
  induction ts generalizing g with
  | nil => simp
  | cons t ts ih => simp [ih]

@[simp]
theorem nodes_ofNodes (nodes : List Term) (span : Option Span)
    : (ofNodes nodes span).nodes = nodes.toArray := by
  simp [ofNodes, nodes_foldl_add]

end Group

end Combinatory
