import Combinatory.Proofs.Calculus.Tree

/-!
Standard reduction. Whatever contractions lead from a tree to another, in whatever order, there is a
standard way to do it: the head first, then the parts. If the other tree is normal, this is the way
of the leftmost contractions, which therefore find every normal form: `exists_leftmostTimes`.
-/

namespace Combinatory

namespace Tree

open Relation (ReflTransGen)

inductive HeadStep : Tree → Tree → Prop where
  | root {t u : Tree} (h : t.contract? = some u) : HeadStep t u
  | left {f g : Tree} (a : Tree) (h : HeadStep f g) : HeadStep (app f a) (app g a)

theorem HeadStep.demand_eq_zero {t u : Tree} (h : HeadStep t u) : t.demand = 0 := by
  induction h with
  | root h => exact demand_eq_zero_of_contract? h
  | left a _ ih => simp [ih]

theorem HeadStep.leftmost? {t u : Tree} (h : HeadStep t u) : t.leftmost? = some u := by
  induction h with
  | @root t u h =>
    cases t with
    | leaf => simp [contract?] at h
    | app f a => simp [Tree.leftmost?, h]
  | left a h ih =>
    apply leftmost?_app_left a _ ih
    simp [h.demand_eq_zero]

theorem headSteps_app {f g : Tree} (a : Tree) (h : ReflTransGen HeadStep f g)
    : ReflTransGen HeadStep (app f a) (app g a) := by
  exact h.lift (app · a) (fun _ _ h => .left a h)

inductive Standard : Tree → Tree → Prop where
  | leaf {t : Tree} {c : Combinator} (h : ReflTransGen HeadStep t (leaf c)) : Standard t (leaf c)
  | app {t f a g b : Tree} (h : ReflTransGen HeadStep t (app f a)) (hf : Standard f g)
    (ha : Standard a b) : Standard t (app g b)

namespace Standard

theorem refl (t : Tree) : Standard t t := by
  induction t with
  | leaf c => exact .leaf .refl
  | app f a ihf iha => exact .app .refl ihf iha

theorem head {t u v : Tree} (h : ReflTransGen HeadStep t u) (huv : Standard u v) : Standard t v := by
  cases huv with
  | leaf h' => exact .leaf (h.trans h')
  | app h' hf ha => exact .app (h.trans h') hf ha

theorem contract {t u v : Tree} (h : Standard t u) (hv : u.contract? = some v) : Standard t v := by
  -- The combinator of the redex can be brought to the head before its arguments are reduced. There
  -- it is contracted, and only the arguments that are left are reduced.
  unfold contract? at hv
  split at hv
  . cases hv
    cases h with
    | @app _ i x _ _ h hi hx =>
      cases hi with
      | leaf hi =>
        have hix := h.trans (headSteps_app x hi)
        exact head (hix.tail (.root rfl)) hx
  . cases hv
    cases h with
    | @app _ f y _ _ h hf hy =>
      cases hf with
      | @app _ k x _ _ hf hk hx =>
        cases hk with
        | leaf hk =>
          have hkx := hf.trans (headSteps_app x hk)
          have hkxy := h.trans (headSteps_app y hkx)
          exact head (hkxy.tail (.root rfl)) hx
  . cases hv
    cases h with
    | @app _ f z _ _ h hf hz =>
      cases hf with
      | @app _ g y _ _ hf hg hy =>
        cases hg with
        | @app _ s x _ _ hg hs hx =>
          cases hs with
          | leaf hs =>
            have hsx := hg.trans (headSteps_app x hs)
            have hsxy := hf.trans (headSteps_app y hsx)
            have hsxyz := h.trans (headSteps_app z hsxy)
            refine head (hsxyz.tail (.root rfl)) ?_
            exact .app .refl (.app .refl hx hz) (.app .refl hy hz)
  . contradiction

theorem step {t u v : Tree} (h : Standard t u) (huv : Step u v) : Standard t v := by
  induction huv generalizing t with
  | root hv => exact h.contract hv
  | left a _ ih =>
    cases h with
    | app h hf ha => exact .app h (ih hf) ha
  | right f _ ih =>
    cases h with
    | app h hf ha => exact .app h hf (ih ha)

theorem of_steps {t u : Tree} (h : ReflTransGen Step t u) : Standard t u := by
  induction h with
  | refl => exact refl t
  | tail _ hstep ih => exact ih.step hstep

end Standard

def LeftmostStep (t u : Tree) : Prop :=
  t.leftmost? = some u

theorem leftmostSteps_of_headSteps {t u : Tree} (h : ReflTransGen HeadStep t u)
    : ReflTransGen LeftmostStep t u := by
  exact h.lift id (fun _ _ h => h.leftmost?)

theorem demand_eq_of_leftmostSteps {t u : Tree} (h : ReflTransGen LeftmostStep t u)
    (ht : t.demand ≠ 0)
    : u.demand = t.demand := by
  induction h with
  | refl => rfl
  | tail _ hstep ih =>
    rw [← ih]
    apply (step_of_leftmost? hstep).demand_eq
    rwa [ih]

theorem leftmostSteps_app_left {f g : Tree} (a : Tree) (h : ReflTransGen LeftmostStep f g)
    (hg : g.demand ≠ 1)
    : ReflTransGen LeftmostStep (app f a) (app g a) := by
  induction h using ReflTransGen.head_induction_on with
  | refl => exact .refl
  | @head f f' hstep hrest ih =>
    refine .head ?_ ih
    apply leftmost?_app_left a _ hstep
    -- If the argument made `f` a redex, it would make the normal form of `f` one too.
    intro hf
    have := demand_eq_of_leftmostSteps (hrest.head hstep) (by omega)
    omega

theorem leftmostSteps_app_right {f a b : Tree} (hf : f.demand ≠ 1) (hfn : f.IsNormal)
    (h : ReflTransGen LeftmostStep a b)
    : ReflTransGen LeftmostStep (app f a) (app f b) := by
  exact h.lift (app f ·) (fun _ _ h => leftmost?_app_right hf hfn h)

theorem Standard.leftmostSteps {t u : Tree} (h : Standard t u) (hu : u.IsNormal)
    : ReflTransGen LeftmostStep t u := by
  induction h with
  | leaf h => exact leftmostSteps_of_headSteps h
  | @app t f a g b h _ _ ihf iha =>
    obtain ⟨hg, hgn, hbn⟩ := isNormal_app_iff.mp hu
    have hhead := leftmostSteps_of_headSteps h
    have hleft := leftmostSteps_app_left a (ihf hgn) hg
    have hright := leftmostSteps_app_right hg hgn (iha hbn)
    exact (hhead.trans hleft).trans hright

theorem exists_leftmostTimes_of_leftmostSteps {t u : Tree} (h : ReflTransGen LeftmostStep t u)
    : ∃ n, leftmostTimes n t = some u := by
  induction h with
  | refl => exact ⟨0, rfl⟩
  | tail _ hstep ih =>
    obtain ⟨n, hn⟩ := ih
    exact ⟨n + 1, leftmostTimes_succ hn hstep⟩

theorem exists_leftmostTimes {t u : Tree} (h : ReflTransGen Step t u) (hu : u.IsNormal)
    : ∃ n, leftmostTimes n t = some u := by
  apply exists_leftmostTimes_of_leftmostSteps
  exact (Standard.of_steps h).leftmostSteps hu

end Tree

end Combinatory
