import Combinatory.Proofs.Reduction.Leftmost
import Combinatory.Proofs.Reduction.Origin
import Mathlib.Data.List.Forall2

namespace Combinatory

open Relation (ReflTransGen)

section Congruence

variable {f g a b : Tree} {ts us : List Term}

theorem steps_app (hf : ReflTransGen Tree.Step f g) (ha : ReflTransGen Tree.Step a b)
    : ReflTransGen Tree.Step (.app f a) (.app g b) := by
  have hleft : ReflTransGen Tree.Step (.app f a) (.app g a) :=
    hf.lift (Tree.app · a) fun _ _ h => .left a h
  have hright : ReflTransGen Tree.Step (.app g a) (.app g b) :=
    ha.lift (Tree.app g) fun _ _ h => .right g h
  exact hleft.trans hright

theorem steps_applyAll (hf : ReflTransGen Tree.Step f g)
    (h : List.Forall₂ (fun t u => ReflTransGen Tree.Step t.tree u.tree) ts us)
    : ReflTransGen Tree.Step (applyAll f ts) (applyAll g us) := by
  induction h generalizing f g with
  | nil => simpa using hf
  | cons h _ ih =>
    simp only [applyAll_cons]
    exact ih (steps_app hf h)

theorem steps_treeOf (h : List.Forall₂ (fun t u => ReflTransGen Tree.Step t.tree u.tree) ts us)
    : ReflTransGen Tree.Step (treeOf ts) (treeOf us) := by
  cases h with
  | nil => exact .refl
  | cons h hs =>
    simp only [treeOf_cons]
    exact steps_applyAll h hs

end Congruence

namespace Reduction

theorem Frame.steps_plug (frame : Frame) {ts us : List Term}
    (h : ReflTransGen Tree.Step (treeOf ts) (treeOf us))
    : ReflTransGen Tree.Step (treeOf (frame.plug ts)) (treeOf (frame.plug us)) := by
  have hsame (vs : List Term)
      : List.Forall₂ (fun t u => ReflTransGen Tree.Step t.tree u.tree) vs vs :=
    List.forall₂_same.mpr fun _ _ => .refl
  apply steps_treeOf
  apply List.rel_append (hsame _)
  refine .cons ?_ (hsame _)
  simpa using h

end Reduction

/--
The members of the group at a place. At the empty one there are the terms themselves.
-/
def nodesAt (ts : List Term) : (place : List Nat) → List Term
  | [] => ts
  | i :: place => ((nodesAt ts place)[i]?.map Term.nodes).getD []

section Untouched

variable (ts : List Term)

inductive Term.Untouched : Term Origin → Prop where
  | primitive (c : Combinator) (o : Origin) : Untouched (.primitive c o)
  | group {nodes : List (Term Origin)} {o : Origin}
    (hplace : ∀ place, o.place = some place → nodes.map (map Origin.span) = nodesAt ts place)
    (h : ∀ t ∈ nodes, Untouched t) : Untouched (.group nodes o)

variable {ts}

namespace Term

theorem nodesAt_cons_of_drop_eq {place : List Nat} {i : Nat} {t : Term} {us : List Term}
    (h : (nodesAt ts place).drop i = t :: us)
    : nodesAt ts (i :: place) = t.nodes ∧ (nodesAt ts place).drop (i + 1) = us := by
  constructor
  . have hget := congrArg (·[0]?) h
    simp only [List.getElem?_drop, Nat.add_zero, List.getElem?_cons_zero] at hget
    simp [nodesAt, hget]
  . rw [← List.tail_drop, h, List.tail_cons]

theorem untouched_locateAll_of_forall {us : List Term}
    (h : ∀ t ∈ us, ∀ place, nodesAt ts place = t.nodes → (t.locate place).Untouched ts)
    {place : List Nat} {i : Nat} (hus : (nodesAt ts place).drop i = us)
    : ∀ t ∈ locateAll place i us, t.Untouched ts := by
  induction us generalizing i with
  | nil => simp [locateAll]
  | cons t us ih =>
    obtain ⟨hnodes, hrest⟩ := nodesAt_cons_of_drop_eq hus
    rw [List.forall_mem_cons] at h
    rw [locateAll, List.forall_mem_cons]
    exact ⟨h.1 _ hnodes, ih h.2 hrest⟩

theorem untouched_locate (t : Term) {place : List Nat} (h : nodesAt ts place = t.nodes)
    : (t.locate place).Untouched ts := by
  induction t generalizing place with
  | primitive => simpa using .primitive _ _
  | group us s ih =>
    rw [locate_group]
    refine .group ?_ (untouched_locateAll_of_forall (fun t ht _ => ih t ht) h)
    rintro _ ⟨⟩
    rw [map_span_locateAll, h, nodes]

theorem untouched_locateAll (ts : List Term) : ∀ t ∈ locateAll [] 0 ts, t.Untouched ts :=
  untouched_locateAll_of_forall (fun t _ _ => t.untouched_locate) rfl

theorem untouched_copy (t : Term Origin) : t.copy.Untouched ts := by
  induction t with
  | primitive => simpa [copy] using .primitive _ _
  | group us o ih =>
    rw [copy, map_group]
    refine .group (by simp [Note.copy]) ?_
    simpa [copy] using ih

end Term

end Untouched

namespace Reduction

def Focus.ahead {α : Type} : Focus α → List (Term α)
  | .head ts => ts
  | .members _ rest => rest

def Opened (ts : List Term) : List (Frame Origin) → (nodes : List Term) → Prop
  | [], _ => True
  | frame :: outer, nodes =>
    (∀ place, frame.note.place = some place
        → ReflTransGen Tree.Step (treeOf (nodesAt ts place)) (treeOf nodes))
      ∧ Opened ts outer ((frame.map Origin.span).plug nodes)

theorem Opened.of_steps {ts nodes nodes' : List Term} {outer : List (Frame Origin)}
    (h : Opened ts outer nodes) (hsteps : ReflTransGen Tree.Step (treeOf nodes) (treeOf nodes'))
    : Opened ts outer nodes' := by
  induction outer generalizing nodes nodes' with
  | nil => trivial
  | cons frame outer ih =>
    refine ⟨?_, ih h.2 (Frame.steps_plug _ hsteps)⟩
    intro place hplace
    exact (h.1 place hplace).trans hsteps

def Write.Preserves (ts : List Term) (w : Write) : Prop :=
  ReflTransGen Tree.Step (treeOf (nodesAt ts w.1)) (treeOf w.2)

/--
What holds on the way of a reduction that began with the terms `ts`: no group that is still to be
opened has been changed, and those that are open have kept their meaning.
-/
structure Upholds (ts : List Term) (c : Config Origin) : Prop where
  filled : Filled (c.map Origin.span).whole
  ahead : ∀ t ∈ c.focus.ahead, t.Untouched ts
  rest : ∀ frame ∈ c.outer, ∀ t ∈ frame.rest, t.Untouched ts
  opened : Opened ts c.outer (c.focus.map Origin.span).terms

theorem upholds_start {ts : List Term} (h : Filled ts)
    : Upholds ts (.start (Term.locateAll [] 0 ts)) where
  filled := by simpa [Config.start, Config.map, Focus.map, Config.whole, Focus.terms] using h
  ahead := Term.untouched_locateAll ts
  rest := by simp [Config.start]
  opened := trivial

namespace Upholds

variable {ts : List Term} {c d : Config Origin}

theorem silent {exhausted : Bool} (h : Upholds ts c) (hd : Silent exhausted c d)
    : Upholds ts d := by
  have hfilled := ((hd.map Origin.span).filled_and_tree h.filled).1
  have hinner := filled_of_plugAll h.filled
  obtain ⟨_, hahead, hrest, hopened⟩ := h
  cases hd with
  | empty => exact ⟨hfilled, hahead, hrest, hopened⟩
  | stop => exact ⟨hfilled, hahead, hrest, hopened⟩
  | unsaturated => exact ⟨hfilled, hahead, hrest, hopened⟩
  | splice nodes o us outer =>
    obtain ⟨hgroup, hus⟩ := List.forall_mem_cons.mp hahead
    obtain _ | ⟨_, hnodes⟩ := hgroup
    -- What was in the group goes on to the sequence around it, and no one writes to it any more.
    refine ⟨hfilled, List.forall_mem_append.mpr ⟨hnodes, hus⟩, hrest, hopened.of_steps ?_⟩
    have hne : nodes.map (Term.map Origin.span) ≠ [] := by
      have := hinner.all _ List.mem_cons_self
      rw [Term.map_group, Term.filled_group_iff] at this
      exact this.ne_nil
    have htree := treeOf_splice hne o.span (us.map (Term.map Origin.span))
    simp only [Focus.map, Focus.terms, List.map_append, List.map_cons, Term.map_group, htree]
    exact .refl
  | enter done nodes o rest outer =>
    obtain ⟨hgroup, hrest'⟩ := List.forall_mem_cons.mp hahead
    obtain _ | ⟨hplace, hnodes⟩ := hgroup
    refine ⟨hfilled, hnodes, List.forall_mem_cons.mpr ⟨hrest', hrest⟩, ?_, ?_⟩
    . intro place h
      rw [← hplace place h]
      exact .refl
    . simpa [Focus.map, Focus.terms, Frame.map, Frame.plug] using hopened
  | pass done c o rest outer =>
    refine ⟨hfilled, (List.forall_mem_cons.mp hahead).2, hrest, ?_⟩
    simpa [Focus.map, Focus.terms] using hopened
  | leave done frame outer =>
    obtain ⟨hframe, houter⟩ := List.forall_mem_cons.mp hrest
    -- Brackets that are taken away make no difference to the groups around them.
    refine ⟨hfilled, hframe, houter, hopened.2.of_steps ?_⟩
    have htree := Term.tree_collapse ((Term.group done.reverse frame.note).map Origin.span)
    rw [Term.collapse_map] at htree
    have hsequence := treeOf_congr (frame.done.reverse.map (Term.map Origin.span))
      (frame.rest.map (Term.map Origin.span)) htree
    simp only [Focus.map, Focus.terms, Frame.map, Frame.plug, List.map_cons, List.reverse_cons,
      List.append_assoc, List.singleton_append, List.append_nil, List.map_nil, ← List.map_reverse,
      hsequence, Term.map_group]
    exact .refl

theorem fired {before after : List (Term Origin)} (h : Upholds ts c) (hd : Fires c before after d)
    : Upholds ts d := by
  obtain ⟨hfilled, hahead, hrest, hopened⟩ := h
  cases hd with
  | @mk c o args after outer hargs h =>
    have hcontract := c.contract_map .span (.primitive c o :: args)
    rw [h, List.map_cons, Term.map_primitive] at hcontract
    refine ⟨?_, ?_, hrest, ?_⟩
    . have hbefore := filled_of_plugAll hfilled
      exact filled_plugAll_replace hfilled (filled_of_contract hcontract hbefore)
    . apply Combinator.forall_of_contract h hahead
      -- The group that is built has no place of its own, nor has the copy in it.
      intro y z hy _
      refine .group (by simp [Note.join]) ?_
      simp [hy, Term.untouched_copy]
    . have hstep := (headStep_of_contract hcontract).leftmost?
      exact hopened.of_steps (.single (Tree.step_of_leftmost? hstep))

theorem write? {w : Write} (h : Upholds ts c) (hw : c.write? = some w) : w.Preserves ts := by
  unfold Config.write? at hw
  split at hw
  . next done frame outer =>
    obtain ⟨place, hplace, rfl⟩ := Option.map_eq_some_iff.mp hw
    have hopened := h.opened.1 place hplace
    simpa [Write.Preserves, Focus.map, Focus.terms] using hopened
  . simp at hw

end Upholds

theorem preserves_of_mem_writes {ts : List Term} {c : Config Origin} {made : List Write}
    (h : Upholds ts c) (hmade : ∀ w ∈ made, w.Preserves ts) (limit : Option Int) (fuel : Nat)
    (steps : Int)
    : ∀ w ∈ writes limit fuel steps c made, w.Preserves ts := by
  induction fuel generalizing steps c made with
  | zero => exact hmade
  | succ fuel ih =>
    have hwrites : ∀ w ∈ c.write?.toList ++ made, w.Preserves ts := by
      rw [List.forall_mem_append]
      refine ⟨fun w hw => ?_, hmade⟩
      rw [Option.mem_toList] at hw
      exact h.write? hw
    unfold writes
    obtain ⟨d, hd, hsilent⟩ | ⟨before, after, d, hd, _, hfires⟩ | ⟨done, hd, _⟩ :=
      c.step_cases (exhausts limit steps)
    . simp only [hd]
      exact ih (h.silent hsilent) hwrites _
    . simp only [hd]
      exact ih (h.fired hfires) hwrites _
    . simpa only [hd] using hwrites

end Reduction

/--
Two terms that differ in what is in a group, but not in what it means.
-/
inductive Term.Reworked : Term → Term → Prop where
  | primitive (c : Combinator) (s : Option Span) : Reworked (.primitive c s) (.primitive c s)
  | group {ts us : List Term} (s : Option Span)
    (h : ReflTransGen Tree.Step (treeOf ts) (treeOf us)) : Reworked (.group ts s) (.group us s)

namespace Term

theorem Reworked.refl (t : Term) : t.Reworked t := by
  cases t with
  | primitive c s => exact .primitive c s
  | group ts s => exact .group s .refl

theorem Reworked.steps {t u : Term} (h : t.Reworked u) : ReflTransGen Tree.Step t.tree u.tree := by
  cases h with
  | primitive => exact .refl
  | group s h => simpa using h

variable {ts : List Term} {made : List Reduction.Write}

theorem reworked_settleAll_of_forall {us : List Term}
    (h : ∀ t ∈ us, ∀ place, nodesAt ts place = t.nodes
      → t.Reworked ((t.locate place).settle made))
    {place : List Nat} {i : Nat} (hus : (nodesAt ts place).drop i = us)
    : List.Forall₂ Reworked us ((locateAll place i us).map (settle made)) := by
  induction us generalizing i with
  | nil => simp [locateAll]
  | cons t us ih =>
    obtain ⟨hnodes, hrest⟩ := nodesAt_cons_of_drop_eq hus
    rw [List.forall_mem_cons] at h
    rw [locateAll, List.map_cons]
    exact .cons (h.1 _ hnodes) (ih h.2 hrest)

theorem reworked_settle (hmade : ∀ w ∈ made, w.Preserves ts) (t : Term) {place : List Nat}
    (h : nodesAt ts place = t.nodes)
    : t.Reworked ((t.locate place).settle made) := by
  induction t generalizing place with
  | primitive => simpa using .primitive _ _
  | group us s ih =>
    rw [locate_group, settle_group]
    apply Reworked.group
    cases hlookup : made.lookup place with
    | some nodes =>
      obtain ⟨_, _, rfl, _⟩ := List.lookup_eq_some_iff.mp hlookup
      have hpreserves := hmade (place, nodes) (by simp)
      rw [Reduction.Write.Preserves, h, Term.nodes] at hpreserves
      simpa [hlookup] using hpreserves
    | none =>
      have hnodes : List.Forall₂ Reworked us ((locateAll place 0 us).map (settle made)) :=
        reworked_settleAll_of_forall (fun t ht _ => ih t ht) h
      simp only [Option.bind_some, hlookup, Option.getD_none]
      exact steps_treeOf (hnodes.imp fun _ _ h => h.steps)

end Term

/--
A reduction leaves the terms it was given the same but for what is in their groups. What a group is
left with comes from what was in it by contractions, so that it means the same.
-/
theorem Reducer.rewritten_reworked {r : Reducer} (h : Filled r.terms) (fuel : Nat)
    : List.Forall₂ Term.Reworked r.terms (r.rewritten fuel) := by
  cases hlimit : r.budget? with
  | error =>
    simp only [rewritten, hlimit]
    exact List.forall₂_same.mpr fun t _ => .refl t
  | ok limit =>
    have hwrites := Reduction.preserves_of_mem_writes (Reduction.upholds_start h)
      (List.forall_mem_nil _) limit fuel r.steps
    have hterms : (nodesAt r.terms []).drop 0 = r.terms := rfl
    rw [rewritten_of_budget? hlimit, Term.settleAll_eq_map]
    apply Term.reworked_settleAll_of_forall _ hterms
    intro t _ place hnodes
    exact t.reworked_settle hwrites hnodes

theorem eq_of_reworked {ts us : List Term} (h : List.Forall₂ Term.Reworked ts us)
    (hts : ∀ t ∈ ts, ∃ c s, t = .primitive c s)
    : us = ts := by
  induction h with
  | nil => rfl
  | cons ht _ ih =>
    obtain ⟨⟨c, s, rfl⟩, hrest⟩ := List.forall_mem_cons.mp hts
    cases ht
    rw [ih hrest]

theorem Reducer.rewritten_eq_of_forall {r : Reducer}
    (h : ∀ t ∈ r.terms, ∃ c s, t = .primitive c s) (fuel : Nat)
    : r.rewritten fuel = r.terms := by
  by_cases hne : r.terms = []
  . unfold rewritten
    split
    . rfl
    . simp [hne, Term.locateAll, Term.settleAll]
  . apply eq_of_reworked (rewritten_reworked ⟨hne, fun t ht => ?_⟩ fuel) h
    obtain ⟨c, s, rfl⟩ := h t ht
    exact .primitive c s

end Combinatory
