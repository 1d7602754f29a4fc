import Combinatory.Proofs.Program.RoundTrip
import Combinatory.Proofs.Reduction.Budget
import Combinatory.Proofs.Reduction.Leftmost
import Combinatory.Proofs.Reduction.Spans

/-!
The trace of a reduction can be replayed. Its lines show no more than the sequence that the machine
stands in, but each of them, read as a task, tells which tree was replaced, and by which one. Line
by line they lead from the tree of what is reduced to the tree of the result: `trace_replays`.
-/

namespace Combinatory

/--
One tree becomes another by the replacement of `old` with `new`, at a place that is the whole tree
or a whole argument in it. `behind` are the arguments that follow the one that is changed.
-/
inductive Tree.Replaces (old new : Tree) : Tree → Tree → Prop where
  | whole : Replaces old new old new
  | argument (f : Tree) {a b : Tree} (h : Replaces old new a b) (behind : List Tree)
    : Replaces old new (behind.foldl app (app f a)) (behind.foldl app (app f b))

section Terms

theorem applyAll_eq_foldl (f : Tree) (ts : List Term)
    : applyAll f ts = (ts.map Term.tree).foldl Tree.app f := by
  induction ts generalizing f with
  | nil => simp
  | cons t ts ih => simp [ih]

theorem treeOf_map_of_forall {g : Term → Term} {ts : List Term} (h : ∀ t ∈ ts, (g t).tree = t.tree)
    : treeOf (ts.map g) = treeOf ts := by
  cases ts with
  | nil => rfl
  | cons t ts =>
    rw [List.forall_mem_cons] at h
    rw [List.map_cons, treeOf_cons, treeOf_cons, applyAll_eq_foldl, applyAll_eq_foldl, h.1,
      List.map_map]
    exact congrArg _ (List.map_congr_left h.2)

theorem Term.tree_spanless (t : Term) : t.spanless.tree = t.tree := by
  induction t with
  | primitive => simp
  | group ts _ ih => simpa using treeOf_map_of_forall ih

theorem treeOf_eq_of_beq {ts us : List Term} (h : ts == us) : treeOf ts = treeOf us := by
  rw [beq_iff_map_spanless] at h
  rw [← treeOf_map_of_forall fun t (_ : t ∈ ts) => t.tree_spanless, h]
  exact treeOf_map_of_forall fun t _ => t.tree_spanless

theorem exists_eq_of_beq_primitive_cons {ts args : List Term} {c : Combinator} {s : Option Span}
    (h : ts == .primitive c s :: args)
    : ∃ s' args', ts = .primitive c s' :: args' ∧ args' == args := by
  cases ts with
  | nil => cases h
  | cons t ts =>
    rw [List.cons_beq_cons, Bool.and_eq_true] at h
    cases t with
    | primitive d s' =>
      obtain rfl : d = c := by simpa using h.1
      exact ⟨s', ts, rfl, h.2⟩
    | group nodes s' => simp at h

theorem Combinator.contract_of_beq {c : Combinator} {ts us after : List Term} (h : ts == us)
    (hcontract : c.contract us = .ok after)
    : ∃ contracted, c.contract ts = .ok contracted ∧ contracted == after := by
  have herased := c.contract_mapSpans .erasing ts
  rw [map_mapSpans_erasing_eq h, c.contract_mapSpans, hcontract] at herased
  cases hts : c.contract ts with
  | error defect => simp [hts, Except.map] at herased
  | ok contracted =>
    refine ⟨contracted, rfl, beq_of_map_mapSpans_eq .erasing ?_⟩
    simpa [hts, Except.map] using herased.symm

end Terms

def ReadsAs (text : String) (ts : List Term) : Prop :=
  (tokenize ("inf ? " ++ text)).messages = #[]
    ∧ ∃ program, (parse (tokenize ("inf ? " ++ text)).tokens false).result = .ok program
      ∧ program.task = ts

theorem exists_readsAs_render {ts : List Term} (h : Filled ts)
    : ∃ us, ReadsAs (render ts) us ∧ us == ts := by
  obtain ⟨gap, hgap⟩ := exists_write_ofTerms h
  obtain ⟨hmessages, program, hparse, _, _, htask⟩ := (Source.ofTerms h).exists_program gap false
  rw [hgap] at hmessages hparse
  refine ⟨program.task, ⟨hmessages, program, hparse, rfl⟩, ?_⟩
  have hterms := beq_terms_ofTerms h
  rw [beq_iff_map_spanless] at htask hterms ⊢
  exact htask.trans hterms

namespace Reduction

/--
A line of a trace tells how the tree `t` becomes the tree `u`. It is taken as it is read: a
combinator with all its arguments, and what its rule makes of them.
-/
inductive Rewrites (before after : String) (t u : Tree) : Prop where
  | mk {c : Combinator} {s : Option Span} {args contracted ts : List Term}
    (hsymbol : before.toList.head? = some c.symbol)
    (hbefore : ReadsAs before (.primitive c s :: args)) (hargs : c.arity ≤ args.length)
    (hafter : ReadsAs after ts)
    (hcontract : c.contract (.primitive c s :: args) = .ok contracted)
    (hrender : render contracted = after)
    (hreplaces : Tree.Replaces (treeOf (.primitive c s :: args)) (treeOf ts) t u)

theorem rewrites_of_contract {c : Combinator} {s : Option Span} {args after : List Term}
    (hbefore : Filled (.primitive c s :: args)) (hargs : c.arity ≤ args.length)
    (h : c.contract (.primitive c s :: args) = .ok after) {t u : Tree}
    (hreplaces : Tree.Replaces (treeOf (.primitive c s :: args)) (treeOf after) t u)
    : Rewrites (render (.primitive c s :: args)) (render after) t u := by
  obtain ⟨us, hus, hbeq⟩ := exists_readsAs_render hbefore
  obtain ⟨vs, hvs, hbeq'⟩ := exists_readsAs_render (filled_of_contract h hbefore)
  obtain ⟨contracted, hcontracted, hafter⟩ := Combinator.contract_of_beq hbeq h
  rw [← treeOf_eq_of_beq hbeq, ← treeOf_eq_of_beq hbeq'] at hreplaces
  obtain ⟨s', args', rfl, hargs'⟩ := exists_eq_of_beq_primitive_cons hbeq
  have hlength : args'.length = args.length := by
    rw [beq_iff_map_spanless] at hargs'
    simpa using congrArg List.length hargs'
  refine .mk ?_ hus (hlength ▸ hargs) hvs hcontracted (render_eq_of_beq hafter) hreplaces
  simp

theorem Frame.Settled.replaces_plug {f : Frame} (hf : f.Settled) {old new : Tree}
    {ts us : List Term} (h : Tree.Replaces old new (treeOf ts) (treeOf us))
    : Tree.Replaces old new (treeOf (f.plug ts)) (treeOf (f.plug us)) := by
  -- There are terms in front of the group, and these are the function that it is an argument of.
  simp only [plug, treeOf_append hf.done_ne_nil, applyAll_cons, Term.tree_group]
  rw [applyAll_eq_foldl, applyAll_eq_foldl]
  exact .argument _ h _

theorem replaces_plugAll {outer : List Frame} (houter : ∀ f ∈ outer, f.Settled) {old new : Tree}
    {ts us : List Term} (h : Tree.Replaces old new (treeOf ts) (treeOf us))
    : Tree.Replaces old new (treeOf (plugAll outer ts)) (treeOf (plugAll outer us)) := by
  induction outer generalizing ts us with
  | nil => exact h
  | cons f outer ih =>
    rw [List.forall_mem_cons] at houter
    apply ih houter.2
    exact houter.1.replaces_plug h

theorem Fires.rewrites {c d : Config} {before after : List Term} (h : Fires c before after d)
    (hsettled : c.Settled) (hc : Filled c.whole)
    : Rewrites (render before) (render after) (treeOf c.whole) (treeOf d.whole) := by
  cases h with
  | mk s outer hargs h =>
    apply rewrites_of_contract (filled_of_plugAll hc) hargs h
    exact replaces_plugAll hsettled.outer .whole

def Replays (firings : Array Firing) (t u : Tree) : Prop :=
  ∃ trees : Nat → Tree, trees 0 = t ∧ trees firings.size = u
    ∧ ∀ n f, firings[n]? = some f
      → Rewrites (render f.before) (render f.after) (trees n) (trees (n + 1))

theorem Replays.refl (t : Tree) : Replays #[] t t :=
  ⟨fun _ => t, rfl, rfl, by simp⟩

theorem Replays.push {firings : Array Firing} {f : Firing} {t u v : Tree} (h : Replays firings t u)
    (hf : Rewrites (render f.before) (render f.after) u v)
    : Replays (firings.push f) t v := by
  obtain ⟨trees, hzero, hlast, hfirings⟩ := h
  refine ⟨Function.update trees (firings.size + 1) v, ?_, ?_, ?_⟩
  . rwa [Function.update_of_ne (by omega)]
  . rw [Array.size_push, Function.update_self]
  . intro n g hg
    rw [Array.getElem?_push] at hg
    split at hg
    . next hn =>
      cases hg
      rwa [hn, Function.update_self, Function.update_of_ne (by omega), hlast]
    . have hn : n < firings.size := by
        rw [Array.getElem?_eq_some_iff] at hg
        exact hg.1
      rw [Function.update_of_ne (by omega), Function.update_of_ne (by omega)]
      exact hfirings n g hg

theorem Finishes.replays {limit : Option Int} {start : Int} {q : Progress} {ts result : List Term}
    (h : Finishes limit { steps := start } (.start ts) q result) (hts : Filled ts)
    : Replays q.trace (treeOf ts) (treeOf result) := by
  obtain ⟨done, rfl, _, hreplays⟩ := h.invariant
    (P := fun p c => Follows limit start (treeOf ts) p c
      ∧ Replays p.trace (treeOf ts) (treeOf c.whole))
    (by
      rintro p c d ⟨hfollows, hreplays⟩ hd
      refine ⟨hfollows.silent hd, ?_⟩
      rwa [(hd.filled_and_tree hfollows.filled).2])
    (by
      rintro p c before after d ⟨hfollows, hreplays⟩ hexhausted hd
      refine ⟨hfollows.fired hexhausted hd, hreplays.push ?_⟩
      exact hd.rewrites (hfollows.settled hexhausted) hfollows.filled)
    ⟨follows_start limit { steps := start } hts, .refl _⟩
  simpa [Config.whole, Focus.terms] using hreplays

end Reduction

namespace Reducer

theorem trace_replays {r : Reducer} {fuel : Nat} {result : List Term} (hterms : Filled r.terms)
    (hsteps : r.steps = 0) (hend : (r.reduce fuel).ending = .finished result)
    : ∃ trees : Nat → Tree, trees 0 = treeOf r.terms
        ∧ trees (r.reduce fuel).trace.size = treeOf result
        ∧ (r.reduce fuel).reducer.steps = (r.reduce fuel).trace.size
        ∧ ∀ (n : Nat) (f : Reduction.Firing), (r.reduce fuel).trace[n]? = some f
          → f.number = n + 1
            ∧ Reduction.Rewrites (render f.before) (render f.after) (trees n) (trees (n + 1)) := by
  obtain ⟨limit, q, _, hfinishes, hreducer, htrace⟩ := finishes_of_reduce hend
  obtain ⟨trees, hzero, hlast, hfirings⟩ := hfinishes.replays hterms
  have hcounts := hfinishes.counts
  rw [hsteps] at hcounts
  rw [htrace, hreducer]
  refine ⟨trees, hzero, hlast, ?_, ?_⟩
  . simpa using hcounts.steps
  . intro n f hf
    refine ⟨?_, hfirings n f hf⟩
    simpa using hcounts.number n f hf

theorem trace_replays_of_argument
    : let nested : Term := .group [.primitive .I none, .primitive .S none] none
      let r : Reducer :=
        { terms := [.primitive .K none, .group [.primitive .I none, nested] none]
          complexity := .quadratic
          bound := some 1 }
      ∃ trees : Nat → Tree, trees 0 = treeOf r.terms
        ∧ trees 1 = treeOf [.primitive .K none, nested]
        ∧ Reduction.Rewrites "I(IS)" "(IS)" (trees 0) (trees 1) := by
  intro nested r
  have hfilled : Filled r.terms := by simp [r, nested, filled_iff]
  have hend : (r.reduce 20).ending = .finished [.primitive .K none, nested] := rfl
  obtain ⟨trees, hzero, hlast, _, hfirings⟩ := trace_replays hfilled rfl hend
  exact ⟨trees, hzero, hlast, (hfirings 0 _ rfl).2⟩

end Reducer

end Combinatory
