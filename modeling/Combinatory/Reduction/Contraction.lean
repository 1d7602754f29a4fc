import Combinatory.Report.Defect
import Combinatory.Term.Basic

namespace Combinatory

namespace Combinator

def contract {α : Type} [Note α] : Combinator → List (Term α) → Except Defect (List (Term α))
  | .I, _ :: x :: rest => .ok (x :: rest)
  | .K, _ :: x :: _ :: rest => .ok (x :: rest)
  | .S, _ :: x :: y :: z :: rest =>
    .ok (x :: z :: .group [y, z.copy] (Note.join y.note z.note) :: rest)
  | c, terms => .error (.tooFewTerms (c.arity + 1) terms.length)

theorem contract_cases {c : Combinator} {head : Term} {args contracted : List Term}
    (h : c.contract (head :: args) = .ok contracted)
    : (∃ x rest, c = .I ∧ args = x :: rest ∧ contracted = x :: rest)
      ∨ (∃ x y rest, c = .K ∧ args = x :: y :: rest ∧ contracted = x :: rest)
      ∨ (∃ x y z rest, c = .S ∧ args = x :: y :: z :: rest
          ∧ contracted = x :: z :: .group [y, z] (Span.stretch y.span z.span) :: rest) := by
  unfold contract at h
  split at h
  . next heq =>
    cases heq
    cases h
    exact .inl ⟨_, _, rfl, rfl, rfl⟩
  . next heq =>
    cases heq
    cases h
    exact .inr (.inl ⟨_, _, _, rfl, rfl, rfl⟩)
  . next heq =>
    cases heq
    cases h
    refine .inr (.inr ⟨_, _, _, _, rfl, rfl, ?_⟩)
    rw [Term.copy_eq]
    rfl
  . contradiction

theorem forall_of_contract {α : Type} [Note α] {c : Combinator} {terms contracted : List (Term α)}
    {P : Term α → Prop} (h : c.contract terms = .ok contracted) (hterms : ∀ t ∈ terms, P t)
    (hgroup : ∀ y z, P y → P z → P (.group [y, z.copy] (Note.join y.note z.note)))
    : ∀ t ∈ contracted, P t := by
  unfold contract at h
  split at h
  . cases h
    simp only [List.forall_mem_cons] at hterms ⊢
    exact hterms.2
  . cases h
    simp only [List.forall_mem_cons] at hterms ⊢
    exact ⟨hterms.2.1, hterms.2.2.2⟩
  . cases h
    simp only [List.forall_mem_cons] at hterms ⊢
    obtain ⟨_, hx, hy, hz, hrest⟩ := hterms
    exact ⟨hx, hz, hgroup _ _ hy hz, hrest⟩
  . contradiction

theorem contract_isOk {α : Type} [Note α] {c : Combinator} {terms : List (Term α)}
    (h : c.arity < terms.length)
    : ∃ contracted, c.contract terms = .ok contracted := by
  cases c with
  | K =>
    match terms, h with
    | _ :: _ :: _ :: _, _ => exact ⟨_, rfl⟩
  | S =>
    match terms, h with
    | _ :: _ :: _ :: _ :: _, _ => exact ⟨_, rfl⟩
  | I =>
    match terms, h with
    | _ :: _ :: _, _ => exact ⟨_, rfl⟩

end Combinator

end Combinatory
