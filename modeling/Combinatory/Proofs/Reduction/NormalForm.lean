import Combinatory.Proofs.Reduction.Leftmost
import Combinatory.Proofs.Reduction.Termination
import Combinatory.Proofs.Term.Same

namespace Combinatory

namespace Tree

def bracketed : Tree → (sequence : List Term) → Term
  | leaf c, _ => .primitive c none
  | app .., sequence => .group sequence none

def canonical : Tree → List Term
  | leaf c => [.primitive c none]
  | app f a => f.canonical ++ [a.bracketed a.canonical]

end Tree

theorem canonical_applyAll (f : Tree) (ts : List Term)
    : (applyAll f ts).canonical
        = f.canonical ++ ts.map (fun t => t.tree.bracketed t.tree.canonical) := by
  induction ts generalizing f with
  | nil => simp
  | cons t ts ih => simp [ih, Tree.canonical]

theorem bracketed_applyAll (f : Tree) {ts : List Term} (h : ts ≠ []) (sequence : List Term)
    : (applyAll f ts).bracketed sequence = .group sequence none := by
  induction ts generalizing f with
  | nil => contradiction
  | cons t ts ih =>
    rw [applyAll_cons]
    cases ts with
    | nil => simp [Tree.bracketed]
    | cons => exact ih _ (by simp)

theorem Stuck.beq_canonical {ts : List Term} (hstuck : Stuck ts) (hne : ts ≠ [])
    (h : ∀ t ∈ ts, t == t.tree.bracketed t.tree.canonical)
    : ts == (treeOf ts).canonical := by
  cases hstuck with
  | nil => contradiction
  | cons s _ =>
    rw [treeOf_cons, Term.tree_primitive, canonical_applyAll, Tree.canonical, List.singleton_append,
      List.cons_beq_cons, Term.primitive_beq_primitive, decide_eq_true rfl, Bool.true_and]
    apply beq_map
    intro t ht
    exact h t (.tail _ ht)

theorem Term.Neat.beq_bracketed {t : Term} (h : t.Neat) (hfilled : t.Filled)
    : t == t.tree.bracketed t.tree.canonical := by
  induction h with
  | primitive c s => simp [Tree.bracketed]
  | @group ts s hstuck hlen _ ih =>
    rw [Term.filled_group_iff] at hfilled
    have hcanonical : ts == (treeOf ts).canonical := by
      apply hstuck.beq_canonical hfilled.ne_nil
      intro t ht
      exact ih t ht (hfilled.all t ht)
    cases hstuck with
    | nil => exact absurd rfl hfilled.ne_nil
    | @cons c s args _ =>
      have hargs : args ≠ [] := by
        rintro rfl
        simp at hlen
      rw [Term.tree_group, treeOf_cons, bracketed_applyAll _ hargs, Term.group_beq_group]
      simpa using hcanonical

namespace Reduction

theorem exists_finishes_of_leftmostTimes {n : Nat} {ts : List Term} {u : Tree} (hts : Filled ts)
    (h : (treeOf ts).leftmostTimes n = some u) (hu : u.IsNormal) (p : Progress)
    : ∃ q result, Finishes none p (.start ts) q result := by
  -- The number that goes down counts the leftmost contractions that are still to come.
  refine exists_finishes (n := n) (R := fun n _ c =>
    c.Settled ∧ Filled c.whole ∧ (treeOf c.whole).leftmostTimes n = some u) ?_ ?_ ?_
  . rintro n p c d ⟨hsettled, hfilled, htimes⟩ hd
    obtain ⟨hfilled', htree⟩ := hd.filled_and_tree hfilled
    rw [← htree] at htimes
    exact ⟨hd.settled hsettled, hfilled', htimes⟩
  . rintro n p c before after d ⟨hsettled, hfilled, htimes⟩ _ hd
    obtain ⟨hfilled', hleftmost⟩ := hd.filled_and_leftmost? hsettled hfilled
    cases n with
    | zero =>
      cases htimes
      simp [Tree.leftmost?_eq_none_iff.mpr hu] at hleftmost
    | succ n =>
      simp only [Tree.leftmostTimes, hleftmost, Option.bind_some] at htimes
      exact ⟨n, Nat.lt_succ_self n, hd.settled hsettled, hfilled', htimes⟩
  . exact ⟨Config.settled_start ts, hts, h⟩

end Reduction

namespace Reducer

open Relation (ReflTransGen)

theorem exists_reduce_finished {r : Reducer} {n : Tree} (hunbounded : r.complexity = .unbounded)
    (hterms : Filled r.terms) (hsteps : ReflTransGen Tree.Step (treeOf r.terms) n)
    (hn : n.IsNormal)
    : ∃ fuel result, (r.reduce fuel).ending = .finished result := by
  obtain ⟨k, hk⟩ := Tree.exists_leftmostTimes hsteps hn
  obtain ⟨q, result, hfinishes⟩ :=
    Reduction.exists_finishes_of_leftmostTimes hterms hk hn { steps := r.steps }
  obtain ⟨fuel, hfuel⟩ := reduce_of_finishes (budget?_eq_ok_none hunbounded) hfinishes
  exact ⟨fuel, result, hfuel⟩

theorem beq_canonical_of_finished {r : Reducer} {n : Tree} {fuel : Nat} {result : List Term}
    (hunbounded : r.complexity = .unbounded) (hterms : Filled r.terms)
    (hsteps : ReflTransGen Tree.Step (treeOf r.terms) n) (hn : n.IsNormal)
    (hend : (r.reduce fuel).ending = .finished result)
    : result == n.canonical := by
  obtain ⟨limit, q, hlimit, hfinishes, _⟩ := finishes_of_reduce hend
  cases hlimit.symm.trans (budget?_eq_ok_none hunbounded)
  obtain ⟨hfilled, ⟨k, _, htimes⟩, hneat, _⟩ := hfinishes.leftmostTimes hterms
  obtain ⟨hstuck, hneat⟩ := hneat rfl
  obtain ⟨m, hm⟩ := Tree.exists_leftmostTimes hsteps hn
  have hnormal := hstuck.isNormal_of_neat hfilled hneat
  rw [Tree.leftmostTimes_unique hm hn htimes hnormal]
  apply hstuck.beq_canonical hfilled.ne_nil
  intro t ht
  exact (hneat t ht).beq_bracketed (hfilled.all t ht)

theorem text_eq_of_finished {r : Reducer} {n : Tree} {fuel : Nat} {result : List Term}
    (hunbounded : r.complexity = .unbounded) (hterms : Filled r.terms)
    (hsteps : ReflTransGen Tree.Step (treeOf r.terms) n) (hn : n.IsNormal)
    (hend : (r.reduce fuel).ending = .finished result)
    : (r.reduce fuel).reducer.text = render n.canonical := by
  obtain ⟨_, _, _, _, hreducer, _⟩ := finishes_of_reduce hend
  rw [hreducer]
  exact render_eq_of_beq (beq_canonical_of_finished hunbounded hterms hsteps hn hend)

/--
A reduction without a bound ends with the canonical sequence of the normal form that its tree has,
if it has one. Trees that share a normal form therefore lead to the same text.
-/
theorem reduce_canonical {r : Reducer} {n : Tree} (hunbounded : r.complexity = .unbounded)
    (hterms : Filled r.terms) (hsteps : ReflTransGen Tree.Step (treeOf r.terms) n)
    (hn : n.IsNormal)
    : (∃ fuel result, (r.reduce fuel).ending = .finished result)
        ∧ ∀ fuel result, (r.reduce fuel).ending = .finished result
          → result == n.canonical
            ∧ ∀ r' : Reducer, r'.complexity = .unbounded → Filled r'.terms
              → ReflTransGen Tree.Step (treeOf r'.terms) n
              → ∀ fuel' result', (r'.reduce fuel').ending = .finished result'
                → (r'.reduce fuel').reducer.text = (r.reduce fuel).reducer.text := by
  refine ⟨exists_reduce_finished hunbounded hterms hsteps hn, ?_⟩
  intro fuel result hend
  refine ⟨beq_canonical_of_finished hunbounded hterms hsteps hn hend, ?_⟩
  intro r' hunbounded' hterms' hsteps' fuel' result' hend'
  rw [text_eq_of_finished hunbounded' hterms' hsteps' hn hend']
  rw [text_eq_of_finished hunbounded hterms hsteps hn hend]

theorem reduce_canonical_of_erased_loop
    : let loop : Term := .group [.primitive .S none, .primitive .I none, .primitive .I none] none
      let r : Reducer :=
        { terms := [.primitive .K none, .primitive .I none, .group [loop, loop] none]
          complexity := .unbounded
          bound := none }
      (∃ fuel result, (r.reduce fuel).ending = .finished result)
        ∧ ∀ fuel result, (r.reduce fuel).ending = .finished result
          → result == (Tree.leaf .I).canonical
            ∧ ∀ r' : Reducer, r'.complexity = .unbounded → Filled r'.terms
              → ReflTransGen Tree.Step (treeOf r'.terms) (.leaf .I)
              → ∀ fuel' result', (r'.reduce fuel').ending = .finished result'
                → (r'.reduce fuel').reducer.text = (r.reduce fuel).reducer.text := by
  intro loop r
  apply reduce_canonical
  . rfl
  . simp [r, loop, filled_iff]
  . apply ReflTransGen.single
    exact .root rfl
  . exact Tree.isNormal_leaf .I

end Reducer

end Combinatory
