import Mathlib.Data.List.Basic

/-!
# Tokens laid out in a text

A text is made of tokens when they stand in it one after the other with nothing
but blanks before, between and after them. No blank is needed: the tokens alone,
joined, are a text that is made of them.
-/

set_option autoImplicit false

namespace ComplianceIntake.Text

/-- The text is made of the tokens and of blanks, up to the rest. -/
inductive Laid {α : Type} (blank : α → Bool) : List (List α) → List α → List α → Prop
  | done (rest : List α) : Laid blank [] rest rest
  | blank {b : α} {ts : List (List α)} {text rest : List α} (hb : blank b = true)
      (h : Laid blank ts text rest) : Laid blank ts (b :: text) rest
  | token {t : List α} {ts : List (List α)} {text rest : List α} (h : Laid blank ts text rest) :
      Laid blank (t :: ts) (t ++ text) rest

namespace Laid

variable {α : Type} {blank : α → Bool} {t : List α} {ts us : List (List α)} {text rest : List α}

theorem flatten (ts : List (List α)) (rest : List α) : Laid blank ts (ts.flatten ++ rest) rest := by
  induction ts with
  | nil => exact .done rest
  | cons t ts ih =>
    rw [List.flatten_cons, List.append_assoc]
    exact .token ih

theorem drop_while (h : Laid blank ts (text.dropWhile blank) rest) : Laid blank ts text rest := by
  induction text with
  | nil => exact h
  | cons a text ih =>
    by_cases ha : blank a = true
    · rw [List.dropWhile_cons_of_pos ha] at h
      exact .blank ha (ih h)
    · rw [List.dropWhile_cons_of_neg ha] at h
      exact h

theorem append {text' : List α} (h : Laid blank ts text text') (h' : Laid blank us text' rest) :
    Laid blank (ts ++ us) text rest := by
  induction h with
  | done text => exact h'
  | blank hb _ ih => exact .blank hb (ih h')
  | token _ ih =>
    rw [List.cons_append]
    exact .token (ih h')

/-- The blanks between the two parts can be told to either of them; here the first has them. -/
theorem of_append (h : Laid blank (ts ++ us) text rest) :
    ∃ text', Laid blank ts text text' ∧ Laid blank us text' rest := by
  generalize hvs : ts ++ us = vs at h
  induction h generalizing ts with
  | done rest =>
    obtain ⟨rfl,rfl⟩ := List.append_eq_nil_iff.mp hvs
    exact ⟨rest,.done rest,.done rest⟩
  | blank hb _ ih =>
    obtain ⟨text',hts,hus⟩ := ih hvs
    exact ⟨text',.blank hb hts,hus⟩
  | @token t vs text rest h ih =>
    cases ts with
    | nil =>
      rw [List.nil_append] at hvs
      subst hvs
      exact ⟨_,.done _,.token h⟩
    | cons u ts =>
      obtain ⟨rfl,htail⟩ := List.cons.inj hvs
      obtain ⟨text',hts,hus⟩ := ih htail
      exact ⟨text',.token hts,hus⟩

theorem drop_while_of_nil (h : Laid blank [] text rest) :
    text.dropWhile blank = rest.dropWhile blank := by
  generalize hts : ([] : List (List α)) = ts at h
  induction h with
  | done rest => rfl
  | blank hb _ ih => rw [List.dropWhile_cons_of_pos hb, ih hts]
  | token _ _ => exact nomatch hts

/-- Without the blanks before it, the text begins with its first token. -/
theorem drop_while_of_cons {a : α} (ha : blank a = false)
    (h : Laid blank ((a :: t) :: ts) text rest) :
    ∃ text', text.dropWhile blank = a :: (t ++ text') ∧ Laid blank ts text' rest := by
  generalize hvs : (a :: t) :: ts = vs at h
  induction h with
  | done rest => exact nomatch hvs
  | blank hb _ ih =>
    rw [List.dropWhile_cons_of_pos hb]
    exact ih hvs
  | @token u us text' rest h _ =>
    obtain ⟨rfl,rfl⟩ := List.cons.inj hvs
    rw [List.cons_append, List.dropWhile_cons_of_neg (by rw [ha]; exact Bool.false_ne_true)]
    exact ⟨text',rfl,h⟩

theorem drop_while_self {a : α} (ha : blank a = false) (h : Laid blank ((a :: t) :: ts) text rest) :
    Laid blank ((a :: t) :: ts) (text.dropWhile blank) rest := by
  obtain ⟨text',heq,hrest⟩ := h.drop_while_of_cons ha
  rw [heq]
  exact .token hrest

theorem head_of_nil (h : Laid blank [] text rest) {a : α} (ha : text.head? = some a) :
    blank a = true ∨ rest.head? = some a := by
  cases h with
  | done rest => exact Or.inr ha
  | blank hb _ =>
    cases ha
    exact Or.inl hb

theorem head_of_cons {b : α} (h : Laid blank ((b :: t) :: ts) text rest) {a : α}
    (ha : text.head? = some a) : blank a = true ∨ a = b := by
  cases h with
  | blank hb _ =>
    cases ha
    exact Or.inl hb
  | token _ => exact Or.inr (Option.some.inj ha).symm

section Map

variable {β : Type} {blank' : β → Bool} {f : α → β}

theorem map (hf : ∀ a, blank' (f a) = blank a) (h : Laid blank ts text rest) :
    Laid blank' (ts.map (List.map f)) (text.map f) (rest.map f) := by
  induction h with
  | done rest => exact .done _
  | blank hb _ ih => exact .blank ((hf _).trans hb) ih
  | token _ ih =>
    rw [List.map_append]
    exact .token ih

theorem of_map (hf : ∀ a, blank' (f a) = blank a) {vs : List (List β)} {rest' : List β}
    (h : Laid blank' vs (text.map f) rest') :
    ∃ ts rest, vs = ts.map (List.map f) ∧ rest' = rest.map f ∧ Laid blank ts text rest := by
  generalize htext : text.map f = text' at h
  induction h generalizing text with
  | done rest' => exact ⟨[],text,rfl,htext.symm,.done text⟩
  | blank hb _ ih =>
    obtain ⟨a,text₁,rfl,rfl,htext₁⟩ := List.map_eq_cons_iff.mp htext
    obtain ⟨ts,rest,hts,hrest,h⟩ := ih htext₁
    exact ⟨ts,rest,hts,hrest,.blank ((hf a).symm.trans hb) h⟩
  | token _ ih =>
    obtain ⟨t,text₁,rfl,rfl,htext₁⟩ := List.map_eq_append_iff.mp htext
    obtain ⟨ts,rest,rfl,hrest,h⟩ := ih htext₁
    exact ⟨t :: ts,rest,rfl,hrest,.token h⟩

end Map

end Laid

end ComplianceIntake.Text
