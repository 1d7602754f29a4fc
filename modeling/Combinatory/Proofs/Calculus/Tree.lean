import Combinatory.Term.Basic
import Mathlib.Logic.Relation

namespace Combinatory

inductive Tree where
  | leaf (combinator : Combinator)
  | app (function argument : Tree)
  deriving DecidableEq, Inhabited

namespace Tree

def contract? : Tree → Option Tree
  | app (leaf .I) x => some x
  | app (app (leaf .K) x) _ => some x
  | app (app (app (leaf .S) x) y) z => some (app (app x z) (app y z))
  | _ => none

inductive Step : Tree → Tree → Prop where
  | root {t u : Tree} (h : t.contract? = some u) : Step t u
  | left {f g : Tree} (a : Tree) (h : Step f g) : Step (app f a) (app g a)
  | right (f : Tree) {a b : Tree} (h : Step a b) : Step (app f a) (app f b)

def IsNormal (t : Tree) : Prop :=
  ∀ u, ¬ Step t u

def leftmost? : Tree → Option Tree
  | leaf _ => none
  | app f a =>
    (app f a).contract?.or ((f.leftmost?.map (app · a)).or (a.leftmost?.map (app f ·)))

def leftmostTimes : (n : Nat) → Tree → Option Tree
  | 0, t => some t
  | n + 1, t => t.leftmost?.bind (leftmostTimes n)

def demand : Tree → Nat
  | leaf c => c.arity
  | app f _ => f.demand - 1

@[simp]
theorem demand_leaf (c : Combinator) : (leaf c).demand = c.arity := rfl

@[simp]
theorem demand_app (f a : Tree) : (app f a).demand = f.demand - 1 := rfl

theorem demand_le (t : Tree) : t.demand ≤ 3 := by
  induction t with
  | leaf c => cases c <;> simp [Combinator.arity]
  | app f a ih _ =>
    simp only [demand_app]
    omega

theorem contract?_app_eq_none_iff {f a : Tree} : (app f a).contract? = none ↔ f.demand ≠ 1 := by
  -- The cases go down the function as far as the longest redex reaches.
  match f with
  | leaf .I => simp [contract?, Combinator.arity]
  | leaf .K => simp [contract?, Combinator.arity]
  | leaf .S => simp [contract?, Combinator.arity]
  | app (leaf .I) x => simp [contract?, Combinator.arity]
  | app (leaf .K) x => simp [contract?, Combinator.arity]
  | app (leaf .S) x => simp [contract?, Combinator.arity]
  | app (app (leaf .I) x) y => simp [contract?, Combinator.arity]
  | app (app (leaf .K) x) y => simp [contract?, Combinator.arity]
  | app (app (leaf .S) x) y => simp [contract?, Combinator.arity]
  | app (app (app g x) y) z =>
    have hle : g.demand ≤ 3 := demand_le g
    simp only [contract?, demand_app, ne_eq, true_iff]
    omega

theorem demand_eq_zero_of_contract? {t u : Tree} (h : t.contract? = some u) : t.demand = 0 := by
  cases t with
  | leaf => simp [contract?] at h
  | app f a =>
    have hne : ¬ (app f a).contract? = none := by simp [h]
    rw [contract?_app_eq_none_iff] at hne
    simp only [demand_app]
    omega

theorem Step.demand_eq {t u : Tree} (h : Step t u) (ht : t.demand ≠ 0) : u.demand = t.demand := by
  induction h with
  | root h => exact absurd (demand_eq_zero_of_contract? h) ht
  | left a _ ih =>
    simp only [demand_app] at ht ⊢
    rw [ih]
    omega
  | right => rfl

theorem isNormal_leaf (c : Combinator) : (leaf c).IsNormal := by
  intro u h
  cases h with
  | root h => simp [contract?] at h

theorem isNormal_app_iff {f a : Tree}
    : (app f a).IsNormal ↔ f.demand ≠ 1 ∧ f.IsNormal ∧ a.IsNormal := by
  constructor
  . intro h
    refine ⟨?_, ?_, ?_⟩
    . rw [← contract?_app_eq_none_iff (a := a), Option.eq_none_iff_forall_not_mem]
      intro u hu
      exact h u (.root hu)
    . intro g hg
      exact h _ (.left a hg)
    . intro b hb
      exact h _ (.right f hb)
  . rintro ⟨hf, hfn, han⟩ u h
    cases h with
    | root h => simp [contract?_app_eq_none_iff.mpr hf] at h
    | left _ h => exact hfn _ h
    | right _ h => exact han _ h

theorem leftmost?_app_of_demand {f a : Tree} (h : f.demand ≠ 1)
    : (app f a).leftmost?
        = (f.leftmost?.map (app · a)).or (a.leftmost?.map (app f ·)) := by
  simp [leftmost?, contract?_app_eq_none_iff.mpr h]

theorem leftmost?_app_left {f g : Tree} (a : Tree) (hf : f.demand ≠ 1) (h : f.leftmost? = some g)
    : (app f a).leftmost? = some (app g a) := by
  simp [leftmost?_app_of_demand hf, h]

theorem leftmost?_eq_none_iff {t : Tree} : t.leftmost? = none ↔ t.IsNormal := by
  induction t with
  | leaf c => simp [leftmost?, isNormal_leaf]
  | app f a ihf iha =>
    rw [isNormal_app_iff, ← ihf, ← iha, ← contract?_app_eq_none_iff (a := a)]
    simp [leftmost?]

theorem leftmost?_app_right {f a b : Tree} (hf : f.demand ≠ 1) (hfn : f.IsNormal)
    (h : a.leftmost? = some b)
    : (app f a).leftmost? = some (app f b) := by
  simp [leftmost?_app_of_demand hf, leftmost?_eq_none_iff.mpr hfn, h]

theorem step_of_leftmost? {t u : Tree} (h : t.leftmost? = some u) : Step t u := by
  induction t generalizing u with
  | leaf => simp [leftmost?] at h
  | app f a ihf iha =>
    simp only [leftmost?, Option.or_eq_some_iff, Option.map_eq_some_iff, Option.map_eq_none_iff] at h
    obtain hroot | ⟨_, ⟨g, hg, rfl⟩ | ⟨_, b, hb, rfl⟩⟩ := h
    . exact .root hroot
    . exact .left a (ihf hg)
    . exact .right f (iha hb)

theorem leftmostTimes_add (m n : Nat) (t : Tree)
    : leftmostTimes (m + n) t = (leftmostTimes m t).bind (leftmostTimes n) := by
  induction m generalizing t with
  | zero => simp [leftmostTimes]
  | succ m ih =>
    rw [Nat.succ_add]
    simp only [leftmostTimes, Option.bind_assoc]
    congr 1
    funext u
    apply ih

theorem leftmostTimes_succ {n : Nat} {t u v : Tree} (h : leftmostTimes n t = some u)
    (hv : u.leftmost? = some v)
    : leftmostTimes (n + 1) t = some v := by
  rw [leftmostTimes_add, h]
  simp [leftmostTimes, hv]

theorem leftmostTimes_unique {m n : Nat} {t u v : Tree} (hm : leftmostTimes m t = some u)
    (hu : u.IsNormal) (hn : leftmostTimes n t = some v) (hv : v.IsNormal)
    : u = v := by
  induction m generalizing t n with
  | zero =>
    cases hm
    cases n with
    | zero => exact Option.some.inj hn
    | succ n => simp [leftmostTimes, leftmost?_eq_none_iff.mpr hu] at hn
  | succ m ih =>
    obtain ⟨w, hw, hm⟩ := Option.bind_eq_some_iff.mp hm
    cases n with
    | zero =>
      cases hn
      simp [leftmost?_eq_none_iff.mpr hv] at hw
    | succ n =>
      simp only [leftmostTimes, hw, Option.bind_some] at hn
      exact ih hm hn

end Tree

end Combinatory
