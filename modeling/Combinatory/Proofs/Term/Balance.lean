import Combinatory.Proofs.Term.Same
import Mathlib.Data.List.Forall2
import Mathlib.Data.List.Infix
import Mathlib.Tactic.MkIffOfInductiveProp

/-!
The texts of terms, whatever their spans, empty groups included. A text tells what its terms are but
for their spans, since the end of a term is seen from its characters alone: `beq_of_glyphs_append`.
The texts of terms are those whose brackets are balanced, since a text that leaves no bracket open
can be cut up into terms: `BalancesFrom.exists_glyphs`.
-/

namespace Combinatory

/--
The brackets of a text are balanced when `depth` groups have been opened in front of it: no prefix
closes more groups than are open, and in the end all of them are closed.
-/
@[mk_iff]
structure BalancesFrom (depth : Nat) (cs : List Char) : Prop where
  subset : cs ⊆ ['K', 'S', 'I', '(', ')']
  count_le : ∀ p ∈ cs.inits, p.count ')' ≤ depth + p.count '('
  count_eq : cs.count ')' = depth + cs.count '('

instance (depth : Nat) (cs : List Char) : Decidable (BalancesFrom depth cs) :=
  decidable_of_iff' _ (balancesFrom_iff depth cs)

def Balanced (text : String) : Prop :=
  BalancesFrom 0 text.toList

instance (text : String) : Decidable (Balanced text) :=
  inferInstanceAs (Decidable (BalancesFrom 0 text.toList))

section Balance

variable {depth : Nat} {cs : List Char}

@[simp]
theorem balancesFrom_nil : BalancesFrom depth [] ↔ depth = 0 := by
  simp [balancesFrom_iff, eq_comm]

@[simp]
theorem balancesFrom_symbol_cons (c : Combinator)
    : BalancesFrom depth (c.symbol :: cs) ↔ BalancesFrom depth cs := by
  cases c <;> simp [balancesFrom_iff, Combinator.symbol]

@[simp]
theorem balancesFrom_opening_cons
    : BalancesFrom depth ('(' :: cs) ↔ BalancesFrom (depth + 1) cs := by
  simp [balancesFrom_iff, Nat.add_assoc, Nat.add_comm 1]

@[simp]
theorem balancesFrom_closing_cons
    : BalancesFrom (depth + 1) (')' :: cs) ↔ BalancesFrom depth cs := by
  simp [balancesFrom_iff, Nat.add_right_comm]

theorem not_balancesFrom_zero_closing_cons : ¬BalancesFrom 0 (')' :: cs) := by
  intro h
  have := h.count_le [')'] (by simp)
  simp at this

theorem BalancesFrom.cons_cases {c : Char} (h : BalancesFrom depth (c :: cs))
    : (∃ k : Combinator, c = k.symbol ∧ BalancesFrom depth cs)
        ∨ (c = '(' ∧ BalancesFrom (depth + 1) cs)
        ∨ (c = ')' ∧ ∃ outer, depth = outer + 1 ∧ BalancesFrom outer cs) := by
  have hc := h.subset List.mem_cons_self
  simp only [List.mem_cons, List.not_mem_nil, or_false] at hc
  obtain rfl | rfl | rfl | rfl | rfl := hc
  . exact .inl ⟨.K, rfl, (balancesFrom_symbol_cons .K).mp h⟩
  . exact .inl ⟨.S, rfl, (balancesFrom_symbol_cons .S).mp h⟩
  . exact .inl ⟨.I, rfl, (balancesFrom_symbol_cons .I).mp h⟩
  . exact .inr (.inl ⟨rfl, balancesFrom_opening_cons.mp h⟩)
  . cases depth with
    | zero => exact absurd h not_balancesFrom_zero_closing_cons
    | succ outer => exact .inr (.inr ⟨rfl, outer, rfl, balancesFrom_closing_cons.mp h⟩)

end Balance

theorem Combinator.symbol_ne_opening (c : Combinator) : c.symbol ≠ '(' := by
  cases c <;> decide

theorem Combinator.symbol_ne_closing (c : Combinator) : c.symbol ≠ ')' := by
  cases c <;> decide

namespace Term

section Decomposition

variable {t u : Term} {ts us : List Term} {cs ds : List Char}

theorem exists_glyphs_eq_cons (t : Term) : ∃ c cs, t.glyphs = c :: cs ∧ c ≠ ')' := by
  cases t with
  | primitive c => exact ⟨c.symbol, [], by simp, c.symbol_ne_closing⟩
  | group ts => exact ⟨'(', glyphsAll ts ++ [')'], by simp, by decide⟩

theorem glyphs_append_ne_closing_cons (t : Term) : t.glyphs ++ cs ≠ ')' :: ds := by
  obtain ⟨c, rest, hglyphs, hc⟩ := t.exists_glyphs_eq_cons
  simp [hglyphs, hc]

theorem beq_of_glyphsAll_append_of_forall
    (ht : ∀ t ∈ ts, ∀ u cs ds, t.glyphs ++ cs = u.glyphs ++ ds → t == u ∧ cs = ds)
    (h : glyphsAll ts ++ ')' :: cs = glyphsAll us ++ ')' :: ds)
    : ts == us ∧ cs = ds := by
  induction ts generalizing us with
  | nil =>
    cases us with
    | nil => simpa using h
    | cons u us =>
      simp only [glyphsAll_nil, glyphsAll_cons, List.nil_append, List.append_assoc] at h
      exact absurd h.symm u.glyphs_append_ne_closing_cons
  | cons t ts ih =>
    cases us with
    | nil =>
      simp only [glyphsAll_nil, glyphsAll_cons, List.nil_append, List.append_assoc] at h
      exact absurd h t.glyphs_append_ne_closing_cons
    | cons u us =>
      simp only [List.mem_cons, forall_eq_or_imp] at ht
      simp only [glyphsAll_cons, List.append_assoc] at h
      obtain ⟨hfirst, hrest⟩ := ht.1 u _ _ h
      obtain ⟨hothers, hbehind⟩ := ih ht.2 hrest
      rw [List.cons_beq_cons, hfirst, Bool.true_and]
      exact ⟨hothers, hbehind⟩

theorem beq_of_glyphs_append (h : t.glyphs ++ cs = u.glyphs ++ ds) : t == u ∧ cs = ds := by
  induction t generalizing u cs ds with
  | primitive c =>
    cases u with
    | primitive d =>
      simp only [glyphs_primitive, List.cons_append, List.nil_append, List.cons.injEq] at h
      simp [Combinator.symbol_injective h.1, h.2]
    | group us =>
      simp only [glyphs_primitive, glyphs_group, List.cons_append, List.cons.injEq] at h
      exact absurd h.1 c.symbol_ne_opening
  | group ts _ ih =>
    cases u with
    | primitive d =>
      simp only [glyphs_primitive, glyphs_group, List.cons_append, List.cons.injEq] at h
      exact absurd h.1.symm d.symbol_ne_opening
    | group us =>
      simp only [glyphs_group, List.cons_append, List.append_assoc, List.nil_append,
        List.cons.injEq, true_and] at h
      rw [group_beq_group]
      exact beq_of_glyphsAll_append_of_forall (fun t ht u cs ds => ih t ht) h

theorem beq_of_glyphsAll_eq (h : glyphsAll ts = glyphsAll us) : ts == us := by
  have hclosed : glyphsAll ts ++ ')' :: [] = glyphsAll us ++ ')' :: [] := by rw [h]
  exact (beq_of_glyphsAll_append_of_forall (fun _ _ _ _ _ => beq_of_glyphs_append) hclosed).1

end Decomposition

section Balance

variable {depth : Nat}

theorem balancesFrom_glyphsAll_append_of_forall {ts : List Term}
    (ht : ∀ t ∈ ts, ∀ depth cs, BalancesFrom depth (t.glyphs ++ cs) ↔ BalancesFrom depth cs)
    (cs : List Char)
    : BalancesFrom depth (glyphsAll ts ++ cs) ↔ BalancesFrom depth cs := by
  induction ts with
  | nil => simp
  | cons t ts ih =>
    simp only [List.mem_cons, forall_eq_or_imp] at ht
    rw [glyphsAll_cons, List.append_assoc, ht.1, ih ht.2]

theorem balancesFrom_glyphs_append (t : Term) (cs : List Char)
    : BalancesFrom depth (t.glyphs ++ cs) ↔ BalancesFrom depth cs := by
  induction t generalizing depth cs with
  | primitive => simp
  | group ts _ ih =>
    simp only [glyphs_group, List.cons_append, List.append_assoc, List.nil_append,
      balancesFrom_opening_cons]
    rw [balancesFrom_glyphsAll_append_of_forall fun t ht depth cs => ih t ht cs,
      balancesFrom_closing_cons]

theorem balancesFrom_glyphsAll (ts : List Term) : BalancesFrom 0 (glyphsAll ts) := by
  rw [← List.append_nil (glyphsAll ts), balancesFrom_glyphsAll_append_of_forall]
  . simp
  . exact fun t _ depth cs => t.balancesFrom_glyphs_append cs

end Balance

end Term

theorem BalancesFrom.exists_glyphs {depth : Nat} {cs : List Char} (h : BalancesFrom depth cs)
    : ∃ (ts : List Term) (rows : List (List Term)), rows.length = depth
        ∧ cs = Term.glyphsAll ts ++ rows.flatMap fun us => ')' :: Term.glyphsAll us := by
  induction cs generalizing depth with
  | nil => exact ⟨[], [], (balancesFrom_nil.mp h).symm, by simp⟩
  | cons c cs ih =>
    obtain ⟨k, rfl, hrest⟩ | ⟨rfl, hrest⟩ | ⟨rfl, outer, rfl, hrest⟩ := h.cons_cases
    . obtain ⟨ts, rows, hrows, rfl⟩ := ih hrest
      exact ⟨.primitive k none :: ts, rows, hrows, by simp⟩
    . -- The terms up to the bracket that closes this group are its members.
      obtain ⟨ts, rows, hrows, rfl⟩ := ih hrest
      obtain ⟨us, rows, rfl⟩ := List.exists_cons_of_length_eq_add_one hrows
      exact ⟨.group ts none :: us, rows, by simpa using hrows, by simp⟩
    . obtain ⟨ts, rows, hrows, rfl⟩ := ih hrest
      exact ⟨[], ts :: rows, by simp [hrows], by simp⟩

section Texts

variable {ts us : List Term}

theorem render_eq_iff_beq : render ts = render us ↔ ts == us := by
  constructor
  . intro h
    apply Term.beq_of_glyphsAll_eq
    rw [← toList_render, ← toList_render, h]
  . exact render_eq_of_beq

theorem beq_iff_forall₂ : ts == us ↔ List.Forall₂ (· == ·) ts us := by
  rw [beq_iff_map_spanless, ← List.forall₂_eq_eq_eq, List.forall₂_map_left_iff,
    List.forall₂_map_right_iff]
  simp only [Term.beq_iff_spanless]

theorem Term.beq_iff_text_eq {t u : Term} : t == u ↔ t.text = u.text := by
  rw [text, text, render_eq_iff_beq]
  simp

theorem exists_render_eq_iff_balanced {text : String}
    : (∃ ts, render ts = text) ↔ Balanced text := by
  constructor
  . rintro ⟨ts, rfl⟩
    rw [Balanced, toList_render]
    exact Term.balancesFrom_glyphsAll ts
  . intro h
    obtain ⟨ts, rows, hrows, htext⟩ := BalancesFrom.exists_glyphs h
    obtain rfl := List.eq_nil_of_length_eq_zero hrows
    exact ⟨ts, by simpa [← String.toList_inj] using htext.symm⟩

example : Balanced "K(S()(I))" ∧ ¬Balanced ")(" := by decide

theorem render_faithful
    : (∀ ts us : List Term, render ts = render us ↔ List.Forall₂ (· == ·) ts us)
      ∧ (∀ t u : Term, t == u ↔ t.text = u.text)
      ∧ ∀ text : String, (∃ ts, render ts = text) ↔ Balanced text := by
  refine ⟨fun ts us => ?_, fun t u => Term.beq_iff_text_eq, fun text => ?_⟩
  . rw [render_eq_iff_beq, beq_iff_forall₂]
  . exact exists_render_eq_iff_balanced

end Texts

end Combinatory
