import Combinatory.Proofs.Program.Calls
import Combinatory.Proofs.Program.Leaves
import Combinatory.Proofs.Token.Accounting

/-!
Where the terms of a program stand in its text. A group reaches from the start of its first member
to the stop of its last one, at any depth (`Term.Spanned`), also if a member is the body of a name
and stands elsewhere. Where there are no names the leaves are in the order of the text, and a group
keeps within its brackets, with everything in it (`Placed`): `spans_of_program`.
-/

namespace Combinatory

namespace Span

def Before (s r : Span) : Prop :=
  s.stop.index ≤ r.start.index

def Contains (whole part : Span) : Prop :=
  whole.start.index ≤ part.start.index ∧ part.stop.index ≤ whole.stop.index

structure InOrder (spans : List Span) : Prop where
  pairwise : spans.Pairwise Before
  nonempty : ∀ s ∈ spans, s.start.index < s.stop.index

section Order

variable {spans others : List Span} {s first last : Span}

theorem InOrder.sublist (h : InOrder spans) (hsub : others.Sublist spans) : InOrder others :=
  ⟨h.pairwise.sublist hsub, fun s hs => h.nonempty s (hsub.subset hs)⟩

theorem InOrder.start_le (h : InOrder spans) (hfirst : spans.head? = some first) (hs : s ∈ spans)
    : first.start.index ≤ s.start.index := by
  obtain ⟨others, rfl⟩ := List.head?_eq_some_iff.mp hfirst
  obtain rfl | hs := List.mem_cons.mp hs
  . exact Int.le_refl _
  . have hbefore : first.Before s := (List.pairwise_cons.mp h.pairwise).1 s hs
    have hnonempty := h.nonempty first List.mem_cons_self
    unfold Before at hbefore
    omega

theorem InOrder.le_stop (h : InOrder spans) (hlast : spans.getLast? = some last) (hs : s ∈ spans)
    : s.stop.index ≤ last.stop.index := by
  obtain ⟨others, rfl⟩ := List.getLast?_eq_some_iff.mp hlast
  obtain hs | hs := List.mem_append.mp hs
  . have hbefore : s.Before last := (List.pairwise_append.mp h.pairwise).2.2 s hs last (by simp)
    have hnonempty := h.nonempty last (by simp)
    unfold Before at hbefore
    omega
  . rw [List.mem_singleton.mp hs]

end Order

end Span

namespace Term

inductive Within (t : Term) : Term → Prop where
  | self : Within t t
  | member {ts : List Term} {u : Term} (s : Option Span) (hu : u ∈ ts) (h : Within t u)
    : Within t (.group ts s)

inductive Spanned : Term → Prop where
  | primitive (c : Combinator) (s : Span) : Spanned (.primitive c (some s))
  | group {ts : List Term} {s r : Span} (hfirst : ts.head?.bind span = some s)
    (hlast : ts.getLast?.bind span = some r) (h : ∀ t ∈ ts, Spanned t)
    : Spanned (.group ts (some ⟨s.start, r.stop⟩))

structure Orderly (t : Term) : Prop where
  leaves : ∃ spans, t.leaves.map Prod.snd = spans.map some ∧ Span.InOrder spans
  contains : ∃ whole, t.span = some whole
    ∧ ∀ u : Term, u.Within t → ∃ part, u.span = some part ∧ whole.Contains part

section Spans

variable {t u : Term} {spans : List Span}

theorem Spanned.isSome (h : t.Spanned) : t.span.isSome := by
  cases h with
  | primitive => rfl
  | group => rfl

theorem Spanned.within (h : u.Spanned) (ht : t.Within u) : t.Spanned := by
  induction ht with
  | self => exact h
  | member s hu _ ih =>
    cases h with
    | group _ _ h => exact ih (h _ hu)

theorem Within.leaves_sublist (h : t.Within u) : t.leaves.Sublist u.leaves := by
  induction h with
  | self => exact List.Sublist.refl _
  | @member ts u s hu _ ih =>
    rw [leaves_group]
    apply ih.trans
    obtain ⟨front, rest, rfl⟩ := List.append_of_mem hu
    rw [List.flatMap_append, List.flatMap_cons]
    exact (List.sublist_append_left _ _).trans (List.sublist_append_right _ _)

theorem Spanned.exists_leaves (h : t.Spanned)
    : ∃ (first last : Span) (c d : Combinator) (front rest : List Leaf),
        t.leaves = (c, some first) :: rest ∧ t.leaves = front ++ [(d, some last)]
          ∧ t.span = some ⟨first.start, last.stop⟩ := by
  induction h with
  | primitive c s => exact ⟨s, s, c, c, [], [], by simp, by simp, rfl⟩
  | @group ts s r hfirst hlast h ih =>
    obtain ⟨t, htail, ht⟩ := Option.bind_eq_some_iff.mp hfirst
    obtain ⟨u, hinit, hu⟩ := Option.bind_eq_some_iff.mp hlast
    obtain ⟨rest, hrest⟩ := List.head?_eq_some_iff.mp htail
    obtain ⟨front, hfront⟩ := List.getLast?_eq_some_iff.mp hinit
    obtain ⟨first, _, c, _, _, ls, hleaves, _, hspan⟩ := ih t (by simp [hrest])
    obtain ⟨_, last, _, d, ms, _, _, hleaves', hspan'⟩ := ih u (by simp [hfront])
    rw [ht, Option.some.injEq] at hspan
    rw [hu, Option.some.injEq] at hspan'
    refine ⟨first, last, c, d, front.flatMap leaves ++ ms, ls ++ rest.flatMap leaves, ?_, ?_, ?_⟩
    . rw [leaves_group, hrest, List.flatMap_cons, hleaves, List.cons_append]
    . rw [leaves_group, hfront, List.flatMap_append, List.flatMap_singleton, hleaves',
        List.append_assoc]
    . rw [span, note_group, hspan, hspan']

theorem Spanned.exists_spans (h : t.Spanned) (hspans : t.leaves.map Prod.snd = spans.map some)
    : ∃ first last, spans.head? = some first ∧ spans.getLast? = some last
        ∧ t.span = some ⟨first.start, last.stop⟩ := by
  obtain ⟨first, last, c, d, front, rest, hfirst, hlast, hspan⟩ := h.exists_leaves
  refine ⟨first, last, ?_, ?_, hspan⟩
  . have hhead := congrArg List.head? hspans
    simpa [hfirst, eq_comm] using hhead
  . have hend := congrArg List.getLast? hspans
    simpa [hlast, eq_comm] using hend

theorem Spanned.orderly (h : t.Spanned) (hspans : t.leaves.map Prod.snd = spans.map some)
    (horder : Span.InOrder spans)
    : t.Orderly := by
  obtain ⟨first, last, hfirst, hlast, hspan⟩ := h.exists_spans hspans
  refine ⟨⟨spans, hspans, horder⟩, _, hspan, fun u hu => ?_⟩
  -- The leaves of the part are among those of the whole, so its ends are ends of such leaves.
  have hsub := hu.leaves_sublist.map Prod.snd
  rw [hspans] at hsub
  obtain ⟨parts, hparts, hpart⟩ := List.sublist_map_iff.mp hsub
  obtain ⟨s, r, hs, hr, hspan'⟩ := (h.within hu).exists_spans hpart
  have hstart : first.start.index ≤ s.start.index :=
    horder.start_le hfirst (hparts.subset (List.mem_of_head? hs))
  have hstop : r.stop.index ≤ last.stop.index :=
    horder.le_stop hlast (hparts.subset (List.mem_of_getLast? hr))
  exact ⟨_, hspan', hstart, hstop⟩

theorem exists_span_ofNodes {members : List Term} (hne : members ≠ [])
    (h : ∀ t ∈ members, t.span.isSome)
    : ∃ s r, members.head?.bind span = some s ∧ members.getLast?.bind span = some r
        ∧ (Group.ofNodes members none).span = some ⟨s.start, r.stop⟩ := by
  induction members using List.reverseRecOn with
  | nil => contradiction
  | append_singleton front t ih =>
    rw [List.forall_mem_append, List.forall_mem_singleton] at h
    obtain ⟨r, hr⟩ := Option.isSome_iff_exists.mp h.2
    rw [Group.ofNodes_none, List.foldl_append, List.foldl_cons, List.foldl_nil, Group.span_add, hr]
    by_cases hfront : front = []
    . subst hfront
      exact ⟨r, r, hr, hr, rfl⟩
    . obtain ⟨s, _, hs, _, hspan⟩ := ih hfront h.1
      rw [Group.ofNodes_none] at hspan
      refine ⟨s, r, ?_, by simpa using hr, by rw [hspan, Span.stretch]⟩
      rwa [List.head?_append_of_ne_nil _ hfront]

theorem spanned_ofNodes {members : List Term} (hne : members ≠ []) (h : ∀ t ∈ members, t.Spanned)
    : (Group.ofNodes members none).term.Spanned := by
  obtain ⟨s, r, hs, hr, hspan⟩ := exists_span_ofNodes hne fun t ht => (h t ht).isSome
  rw [Group.term, hspan, Group.nodes_ofNodes]
  exact .group hs hr h

end Spans

end Term

/--
The tokens spell the terms, and the spans of the terms are those of the tokens: a primitive has that
of its token, a name brings along the spans of its body, and a group in brackets with no names
between them is orderly and keeps between its brackets.
-/
inductive Placed (scope : Scope) : List Token → List Term → Prop where
  | nil : Placed scope [] []
  | primitive {t : Token} {c : Combinator} {tokens : List Token} {terms : List Term}
    (htag : t.tag = .primitive c) (h : Placed scope tokens terms)
    : Placed scope (t :: tokens) (.primitive c (some t.span) :: terms)
  | name {t : Token} {d : Definition} {tokens : List Token} {terms : List Term}
    (htag : t.tag = .name) (hfind : scope.find? t.text = some d) (h : Placed scope tokens terms)
    : Placed scope (t :: tokens) (d.expand :: terms)
  | group {opening closing : Token} {inner tokens : List Token} {members terms : List Term}
    {span : Span} (hopening : opening.tag = .leftBracket) (hinner : Placed scope inner members)
    (hclosing : closing.tag = .rightBracket)
    (hbetween : (∀ t ∈ inner, t.tag ≠ .name) → (Term.group members (some span)).Orderly
      ∧ opening.span.Before span ∧ span.Before closing.span)
    (h : Placed scope tokens terms)
    : Placed scope (opening :: (inner ++ closing :: tokens))
        (.group members (some span) :: terms)

section Reading

variable {scope : Scope} {ts : List Token} {terms : List Term}

theorem Token.map_snd_filterMap_leaf? (ts : List Token)
    : (ts.filterMap Token.leaf?).map Prod.snd
        = ((ts.filter Token.isPrimitive).map Token.span).map some := by
  induction ts with
  | nil => rfl
  | cons t ts ih =>
    cases htag : t.tag with
    | primitive c => simp [Token.leaf?, Token.isPrimitive, htag, ih]
    | _ => simp [Token.leaf?, Token.isPrimitive, htag, ih]

theorem Reads.spanned (h : Reads scope ts terms)
    (hscope : ∀ name d, scope.find? name = some d → d.expand.Spanned)
    : ∀ t ∈ terms, t.Spanned := by
  induction h with
  | nil => simp
  | primitive _ _ ih =>
    rw [List.forall_mem_cons]
    exact ⟨.primitive _ _, ih⟩
  | name _ hfind _ ih =>
    rw [List.forall_mem_cons]
    exact ⟨hscope _ _ hfind, ih⟩
  | group _ _ hmembers _ _ ihmembers ih =>
    rw [List.forall_mem_cons]
    exact ⟨Term.spanned_ofNodes hmembers ihmembers, ih⟩

theorem Reads.orderly (h : Reads scope ts terms) (hterms : terms ≠ [])
    (hspanned : ∀ t ∈ terms, t.Spanned) (hnames : ∀ t ∈ ts, t.tag ≠ .name)
    (horder : Span.InOrder (ts.map Token.span))
    : (Group.ofNodes terms none).term.Orderly ∧ ∃ first ∈ ts, ∃ last ∈ ts,
        (Group.ofNodes terms none).span = some ⟨first.span.start, last.span.stop⟩ := by
  have hspans : (Group.ofNodes terms none).term.leaves.map Prod.snd
      = ((ts.filter Token.isPrimitive).map Token.span).map some := by
    rw [Group.leaves_term_ofNodes, h.leaves_nameless_eq hnames, Token.map_snd_filterMap_leaf?]
  have hsub : ((ts.filter Token.isPrimitive).map Token.span).Sublist (ts.map Token.span) :=
    List.filter_sublist.map _
  have hgroup := Term.spanned_ofNodes hterms hspanned
  refine ⟨hgroup.orderly hspans (horder.sublist hsub), ?_⟩
  obtain ⟨s, r, hs, hr, hspan⟩ := hgroup.exists_spans hspans
  obtain ⟨first, hfirst, rfl⟩ := List.mem_map.mp (hsub.subset (List.mem_of_head? hs))
  obtain ⟨last, hlast, rfl⟩ := List.mem_map.mp (hsub.subset (List.mem_of_getLast? hr))
  exact ⟨first, hfirst, last, hlast, hspan⟩

theorem Reads.placed (h : Reads scope ts terms)
    (hscope : ∀ name d, scope.find? name = some d → d.expand.Spanned)
    (horder : Span.InOrder (ts.map Token.span))
    : Placed scope ts terms := by
  induction h with
  | nil => exact .nil
  | primitive htag _ ih => exact .primitive htag (ih (horder.sublist (List.sublist_cons_self _ _)))
  | name htag hfind _ ih =>
    exact .name htag hfind (ih (horder.sublist (List.sublist_cons_self _ _)))
  | @group opening closing inner tokens members _ hopening hinner hmembers hclosing _ ihinner ih =>
    have hspanned := hinner.spanned hscope
    obtain ⟨s, r, _, _, hspan⟩ :=
      Term.exists_span_ofNodes hmembers fun t ht => (hspanned t ht).isSome
    have hterm : (Group.ofNodes members none).term = .group members (some ⟨s.start, r.stop⟩) := by
      rw [Group.term, hspan, Group.nodes_ofNodes]
    have hpairwise := horder.pairwise
    rw [List.map_cons, List.map_append, List.map_cons, List.pairwise_cons,
      List.pairwise_append] at hpairwise
    obtain ⟨hopens, _, _, hcloses⟩ := hpairwise
    have hinnerOrder : Span.InOrder (inner.map Token.span) := by
      apply horder.sublist
      rw [List.map_cons, List.map_append]
      exact (List.sublist_append_left _ _).trans (List.sublist_cons_self _ _)
    have hrestOrder : Span.InOrder (tokens.map Token.span) := by
      apply horder.sublist
      rw [List.map_cons, List.map_append, List.map_cons]
      exact ((List.sublist_cons_self _ _).trans (List.sublist_append_right _ _)).trans
        (List.sublist_cons_self _ _)
    rw [hterm]
    refine .group hopening (ihinner hinnerOrder) hclosing (fun hnames => ?_) (ih hrestOrder)
    obtain ⟨horderly, first, hfirst, last, hlast, hends⟩ :=
      hinner.orderly hmembers hspanned hnames hinnerOrder
    rw [hspan, Option.some.injEq] at hends
    rw [hterm, hends] at horderly
    rw [hends]
    refine ⟨horderly, ?_, ?_⟩
    . have hbefore : opening.span.Before first.span :=
        hopens _ (List.mem_append_left _ (List.mem_map_of_mem hfirst))
      exact hbefore
    . have hbefore : last.span.Before closing.span :=
        hcloses _ (List.mem_map_of_mem hlast) _ List.mem_cons_self
      exact hbefore

end Reading

section Programs

variable {text : String} {last : Token} {tokens rest body : List Token} {cs : List Clause}
  {program : Program}

theorem inOrder_of_tokenize (htokens : (tokenize text).tokens = body ++ [last])
    : Span.InOrder (body.map Token.span) := by
  obtain ⟨body', place, htokens', _, hbody⟩ := exists_tokens_end text
  rw [htokens] at htokens'
  obtain ⟨rfl, _⟩ := List.append_inj' htokens' rfl
  constructor
  . have hpairwise : (tokenize text).tokens.Pairwise fun t u => t.span.Before u.span := by
      rw [(tokenize_eq text).1]
      apply (pairwise_findings_stop {} text.toList).filterMap
      rintro (t | _) (u | _) h _ ht _ hu <;> cases ht <;> cases hu
      exact h
    rw [htokens, List.pairwise_append] at hpairwise
    exact hpairwise.1.map Token.span fun _ _ h => h
  . rw [List.forall_mem_map]
    intro t ht
    obtain ⟨_, _, _, hstart, hstop, hspells, _⟩ := (hbody t ht).2
    obtain ⟨c, chars, hchars, _⟩ := hspells.exists_cons
    rw [hstart, hstop, hchars, List.length_cons]
    omega

theorem Definitions.mem_defineAll {ds : Definitions} {d : Definition}
    (h : d ∈ (ds.defineAll cs).toList)
    : d ∈ ds.toList ∨ ∃ c ∈ cs, d = c.definition := by
  induction cs generalizing ds with
  | nil => exact .inl h
  | cons c cs ih =>
    obtain hfirst | ⟨e, he, rfl⟩ := ih h
    . obtain rfl | hds := mem_define hfirst
      . exact .inr ⟨c, List.mem_cons_self, rfl⟩
      . exact .inl hds
    . exact .inr ⟨e, List.mem_cons_of_mem _ he, rfl⟩

theorem spans_of_program {warns : Bool}
    (h : (parse (tokenize text).tokens warns).result = .ok program)
    : ∃ body last cs, (tokenize text).tokens = body ++ [last]
        ∧ (∀ others, Clause.Complete last body others ↔ others = cs)
        ∧ (∀ d ∈ program.definitions.toList, ∃ c ∈ cs, d = c.definition)
        ∧ (∀ c ∈ cs, c.definition.expand.Spanned ∧ c.definition.expand.Orderly
          ∧ ∃ sign inner, c.name :: sign :: inner <:+: body ∧ Placed .definition inner c.terms)
        ∧ (∀ t ∈ program.task, t.Spanned)
        ∧ ∃ question us, body.dropWhile (·.tag ≠ .questionSign) = question :: us
          ∧ Placed (.task program.definitions) us program.task := by
  obtain ⟨body, last, htokens, hlast, hbody⟩ := exists_tokenize text
  have horder := inOrder_of_tokenize htokens
  rw [htokens, parse_eq_ok_iff hlast hbody] at h
  obtain ⟨start, tokens, cs, htext, _, hrow, hcs, hdefinitions⟩ :=
    Clause.exists_row_of_describes h last
  have hclauses : ∀ c ∈ cs, c.definition.expand.Spanned ∧ c.definition.expand.Orderly
      ∧ ∃ sign inner, c.name :: sign :: inner <:+: body ∧ Placed .definition inner c.terms := by
    intro c hc
    obtain ⟨hne, sign, inner, hinner, hreads⟩ := hrow.exists_body c hc
    have hinfix : c.name :: sign :: inner <:+: body := by
      rw [htext]
      exact hinner.trans (List.suffix_cons start tokens).isInfix
    have hinnerOrder : Span.InOrder (inner.map Token.span) := by
      apply horder.sublist
      apply List.Sublist.map
      exact ((List.sublist_cons_self _ _).trans (List.sublist_cons_self _ _)).trans hinfix.sublist
    have hspanned := hreads.spanned (by simp [Scope.find?])
    have horderly := (hreads.orderly hne hspanned hreads.tag_ne_name hinnerOrder).1
    exact ⟨Term.spanned_ofNodes hne hspanned, horderly, sign, inner, hinfix,
      hreads.placed (by simp [Scope.find?]) hinnerOrder⟩
  have hnames : ∀ d ∈ program.definitions.toList, ∃ c ∈ cs, d = c.definition := by
    intro d hd
    rw [hdefinitions] at hd
    exact (Definitions.mem_defineAll hd).resolve_left (by simp)
  have hscope (name : String) (d : Definition)
      (hfind : (Scope.task program.definitions).find? name = some d)
      : d.expand.Spanned := by
    obtain ⟨c, hc, rfl⟩ := hnames d (List.mem_of_find?_eq_some hfind)
    exact (hclauses c hc).1
  refine ⟨body, last, cs, htokens, hcs.iff_eq hlast, hnames, hclauses, ?_⟩
  cases h with
  | @mk _ question _ ts us ds task hsign hts hquestion hus htask =>
    have husOrder : Span.InOrder (us.map Token.span) := by
      apply horder.sublist
      apply List.Sublist.map
      apply List.Sublist.cons
      exact (List.sublist_cons_self _ _).trans (List.sublist_append_right _ _)
    refine ⟨hus.spanned hscope, question, us, dropWhile_program hsign hts hquestion us, ?_⟩
    exact hus.placed hscope husOrder

theorem spans_of_program_of_backwards
    : let text := "inf C1 = K(SI) C1 = (I)K ? S(K C1)((SK)I)"
      ∃ program, (parse (tokenize text).tokens true).result = .ok program
        ∧ (program.task.map fun t => t.span.map fun s => (s.start.index, s.stop.index))
          = [some (27, 28), some (29, 24), some (36, 40)]
        ∧ (∀ t ∈ program.task, t.Spanned)
        ∧ (∀ d ∈ program.definitions.toList, d.expand.Orderly)
        ∧ ∃ question us, (tokenize text).tokens.dropLast.dropWhile (·.tag ≠ .questionSign)
            = question :: us ∧ Placed (.task program.definitions) us program.task := by
  intro text
  have hplaces : (parse (tokenize text).tokens true).result.toOption.map
      (fun program => program.task.map fun t => t.span.map fun s => (s.start.index, s.stop.index))
      = some [some (27, 28), some (29, 24), some (36, 40)] := by decide +kernel
  cases hparse : (parse (tokenize text).tokens true).result with
  | error signal => simp [hparse, Except.toOption] at hplaces
  | ok program =>
    simp only [hparse, Except.toOption, Option.map_some, Option.some.injEq] at hplaces
    obtain ⟨body, last, cs, htokens, _, hnames, hclauses, htask, hplaced⟩ :=
      spans_of_program hparse
    refine ⟨program, rfl, hplaces, htask, ?_, ?_⟩
    . intro d hd
      obtain ⟨c, hc, rfl⟩ := hnames d hd
      exact (hclauses c hc).2.1
    . rw [htokens, List.dropLast_concat]
      exact hplaced

end Programs

end Combinatory
