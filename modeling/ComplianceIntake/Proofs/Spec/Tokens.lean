import ComplianceIntake.Proofs.Json.Completeness
import ComplianceIntake.Spec.Canonical

/-!
# The tokens of a specification

Whether a text is JSON is judged by a reader that follows the grammar, while the
blanks are left out by a walk that only knows whether it is inside of a string.
The two agree: what is kept of an accepted text are its tokens. Joined without
blanks they can be taken apart again in one way only, so the canonical text says
as much as the tokens do, and it is its own canonical text.
-/

set_option autoImplicit false

namespace ComplianceIntake.Spec

open ComplianceIntake.Text
open ComplianceIntake.Json (Derives IsEscape IsHexDigit IsInner IsString IsToken word word_inj)

section Walk

theorem strip_keep {p : Place} {c : Char} (h : p.drops c = false) (cs : List Char) :
    strip [] p (c :: cs) = c :: strip [] (p.next c) cs := by
  rw [strip, h, strip_eq_append]
  rfl

theorem strip_inside {cs : List Char} (h : ∀ c ∈ cs, c ≠ '"' ∧ c ≠ '\\') (rest : List Char) :
    strip [] .inString (cs ++ rest) = cs ++ strip [] .inString rest := by
  induction cs with
  | nil => rfl
  | cons c cs ih =>
    obtain ⟨hq,hb⟩ := h c List.mem_cons_self
    have hnext : Place.inString.next c = .inString := by rw [Place.next, if_neg hb, if_neg hq]
    rw [List.cons_append, strip_keep rfl, hnext, ih fun d hd => h d (List.mem_cons_of_mem c hd)]
    rfl

theorem ne_of_is_hex_digit {c : Char} (h : IsHexDigit c) : c ≠ '"' ∧ c ≠ '\\' := by
  have hnone : ¬ IsHexDigit '"' ∧ ¬ IsHexDigit '\\' := by
    unfold IsHexDigit
    decide
  constructor
  · rintro rfl
    exact hnone.1 h
  · rintro rfl
    exact hnone.2 h

theorem strip_escape {cs : List Char} (h : IsEscape (word cs)) (rest : List Char) :
    strip [] .inString ('\\' :: (cs ++ rest)) = '\\' :: (cs ++ strip [] .inString rest) := by
  have hnext : ∀ (c : Char) (cs : List Char),
      strip [] .inString ('\\' :: c :: cs) = '\\' :: c :: strip [] .inString cs := by
    intro c cs
    rw [strip_keep rfl, strip_keep rfl]
    rfl
  generalize hesc : word cs = esc at h
  cases h with
  | letter hc =>
    obtain rfl := word_inj.mp hesc
    exact hnext _ rest
  | @unit a b c d hhex =>
    obtain rfl := word_inj.mp hesc
    have hdigits := strip_inside (fun x hx => ne_of_is_hex_digit (hhex x hx)) rest
    exact (hnext 'u' ([a, b, c, d] ++ rest)).trans (congrArg ('\\' :: 'u' :: ·) hdigits)

/-- The walk keeps all that is inside of a string, and is out of it with the quote after that. -/
theorem strip_inner {gs : List Glyph} (h : IsInner gs) {cs : List Char} (hcs : word cs = gs)
    (rest : List Char) :
    strip [] .inString (cs ++ '"' :: rest) = cs ++ '"' :: strip [] .between rest := by
  induction h generalizing cs with
  | nil =>
    obtain rfl := List.map_eq_nil_iff.mp hcs
    exact strip_keep rfl rest
  | unescaped hg _ ih =>
    obtain ⟨c,cs,rfl,rfl,htail⟩ := List.map_eq_cons_iff.mp hcs
    have hc : ∀ d ∈ [c], d ≠ '"' ∧ d ≠ '\\' := List.forall_mem_singleton.mpr (hg c rfl).2
    rw [← List.singleton_append, List.append_assoc, strip_inside hc, ih htail, List.append_assoc]
  | escaped he _ ih =>
    obtain ⟨c,tail,rfl,hc,htail⟩ := List.map_eq_cons_iff.mp hcs
    obtain ⟨esc,cs,rfl,rfl,hinner⟩ := List.map_eq_append_iff.mp htail
    cases hc
    rw [List.cons_append, List.append_assoc, strip_escape he, ih hinner, List.cons_append,
      List.append_assoc]

theorem strip_bare {cs : List Char} (h : ∀ c ∈ cs, isSpace c = false ∧ c ≠ '"') (rest : List Char) :
    strip [] .between (cs ++ rest) = cs ++ strip [] .between rest := by
  induction cs with
  | nil => rfl
  | cons c cs ih =>
    obtain ⟨hspace,hq⟩ := h c List.mem_cons_self
    have hdrops : Place.between.drops c = false := hspace
    have hnext : Place.between.next c = .between := by rw [Place.next, if_neg hq]
    rw [List.cons_append, strip_keep hdrops, hnext, ih fun d hd => h d (List.mem_cons_of_mem c hd)]
    rfl

theorem is_space_char (c : Char) : Json.isSpace (.char c) = isSpace c := by
  simp [Json.isSpace, isSpace]

theorem strip_token {cs : List Char} (h : IsToken (word cs)) (rest : List Char) :
    strip [] .between (cs ++ rest) = cs ++ strip [] .between rest := by
  generalize hgs : word cs = gs at h
  cases h with
  | string h =>
    cases h with
    | quoted hinner =>
      obtain ⟨c,cs,rfl,hc,htail⟩ := List.map_eq_cons_iff.mp hgs
      obtain ⟨ds,quote,rfl,hds,hquote⟩ := List.map_eq_append_iff.mp htail
      cases hc
      obtain rfl : quote = ['"'] := word_inj.mp hquote
      have hkept := strip_inner hinner hds rest
      rw [List.cons_append, List.cons_append, List.append_assoc, List.append_assoc, strip_keep rfl]
      exact congrArg ('"' :: ·) hkept
  | bare _ hbare =>
    apply strip_bare
    intro c hc
    subst hgs
    have hg := hbare (.char c) (List.mem_map_of_mem hc)
    rw [Json.Bare, is_space_char] at hg
    exact ⟨hg.1,fun hq => hg.2 (congrArg Glyph.char hq)⟩

/-- The walk keeps the tokens and drops the blanks between them. -/
theorem strip_laid {ts : List (List Char)} (ht : ∀ t ∈ ts, IsToken (word t)) {cs rest : List Char}
    (h : Laid isSpace ts cs rest) :
    strip [] .between cs = ts.flatten ++ strip [] .between rest := by
  induction h with
  | done rest => rfl
  | @blank b ts text rest hb _ ih =>
    have hnext : Place.between.next b = .between := by
      have hq : b ≠ '"' := by
        rintro rfl
        exact absurd hb (by decide)
      rw [Place.next, if_neg hq]
    rw [strip, Place.drops, hb, if_pos rfl, hnext, ih ht]
  | token _ ih =>
    obtain ⟨hw,ht⟩ := List.forall_mem_cons.mp ht
    rw [strip_token hw, ih ht, List.flatten_cons, List.append_assoc]

end Walk

/-- The text is one JSON value with these tokens, in this order, and blanks around them. -/
structure Tokens (s : String) (ts : List (List Char)) : Prop where
  derives : Derives .value (ts.map word)
  laid : Laid isSpace ts s.toList []

section Tokens

variable {s a : String} {ts us : List (List Char)}

theorem Tokens.glyphs (h : Tokens s ts) :
    Laid Json.isSpace (ts.map word) (Glyph.ofString s) [] :=
  h.laid.map is_space_char

theorem Tokens.is_token (h : Tokens s ts) : ∀ t ∈ ts, IsToken (word t) :=
  fun _ ht => h.derives.is_token _ (List.mem_map_of_mem ht)

theorem Tokens.strip (h : Tokens s ts) : strip [] .between s.toList = ts.flatten := by
  rw [strip_laid h.is_token h.laid]
  exact List.append_nil _

theorem Tokens.unique (h : Tokens s ts) (h' : Tokens s us) : ts = us := by
  have heq := h.derives.unique h.glyphs h'.derives h'.glyphs
  exact (List.map_inj_right fun _ _ => word_inj.mp).mp heq

theorem Tokens.iff (h : Tokens s ts) (us : List (List Char)) : Tokens s us ↔ us = ts := by
  constructor
  · exact fun h' => h'.unique h
  · rintro rfl
    exact h

/-- The tokens on their own are a text that has them as its tokens. -/
theorem Tokens.flatten (h : Tokens s ts) : Tokens (String.ofList ts.flatten) ts := by
  have hl : Laid isSpace ts (ts.flatten ++ []) [] := Laid.flatten ts []
  rw [List.append_nil] at hl
  exact ⟨h.derives,by rwa [String.toList_ofList]⟩

theorem canonical_of_tokens (h : Tokens s ts) : canonical s = .ok (String.ofList ts.flatten) := by
  obtain ⟨t,ht,_⟩ := Json.read_of_derives h.derives h.glyphs
  rw [canonical, ht, h.strip]

theorem tokens_of_canonical (h : canonical s = .ok a) : ∃ ts, Tokens s ts := by
  unfold canonical at h
  split at h
  · contradiction
  · next t ht =>
    obtain ⟨hderives,hlaid⟩ := Json.derives_of_read ht
    obtain ⟨ts,rest,hts,hrest,hl⟩ := Laid.of_map is_space_char hlaid
    obtain rfl := List.map_eq_nil_iff.mp hrest.symm
    exact ⟨ts,hts ▸ hderives,hl⟩

end Tokens

/-- A text has a canonical text exactly when it is one JSON value with blanks around its tokens,
and then the canonical text is all of its tokens joined. There is one way only to read the tokens
off. -/
theorem canonical_eq_tokens (s : String) :
    (∀ a, canonical s = .ok a ↔ ∃ ts, Tokens s ts ∧ a = String.ofList ts.flatten) ∧
    ∀ ts us, Tokens s ts → Tokens s us → ts = us := by
  refine ⟨?_,fun ts us => Tokens.unique⟩
  intro a
  constructor
  · intro ha
    obtain ⟨ts,hts⟩ := tokens_of_canonical ha
    exact ⟨ts,hts,Except.ok.inj (ha.symm.trans (canonical_of_tokens hts))⟩
  · rintro ⟨ts,hts,rfl⟩
    exact canonical_of_tokens hts

/-- Two accepted texts have one canonical text exactly when they have the same tokens. The canonical
text has the tokens of the text it was made from, its own canonical text is itself, its hash is the
same, and only its strings hold blanks. -/
theorem canonical_complete_invariant {s t a b : String} (hs : canonical s = .ok a)
    (ht : canonical t = .ok b) :
    ∃ ts us, (∀ vs, Tokens s vs ↔ vs = ts) ∧ (∀ vs, Tokens t vs ↔ vs = us) ∧ (a = b ↔ ts = us) ∧
      (∀ vs, Tokens a vs ↔ vs = ts) ∧ a = String.ofList ts.flatten ∧
      (∀ v ∈ ts, ∀ c ∈ v, isSpace c = true → IsString (word v)) ∧
      canonical a = .ok a ∧ hash a = hash s := by
  obtain ⟨ts,hts⟩ := tokens_of_canonical hs
  obtain ⟨us,hus⟩ := tokens_of_canonical ht
  obtain rfl := Except.ok.inj (hs.symm.trans (canonical_of_tokens hts))
  obtain rfl := Except.ok.inj (ht.symm.trans (canonical_of_tokens hus))
  have hfixed := canonical_of_tokens hts.flatten
  have hsame : String.ofList ts.flatten = String.ofList us.flatten ↔ ts = us := by
    constructor
    · intro heq
      have hflat := hus.flatten
      rw [← heq] at hflat
      exact hts.flatten.unique hflat
    · rintro rfl
      rfl
  have hblanks : ∀ v ∈ ts, ∀ c ∈ v, isSpace c = true → IsString (word v) := by
    intro v hv c hc hspace
    cases hts.is_token v hv with
    | string h => exact h
    | bare _ hbare =>
      have hg := (hbare (.char c) (List.mem_map_of_mem hc)).1
      rw [is_space_char, hspace] at hg
      contradiction
  have hhash : hash (String.ofList ts.flatten) = hash s := by rw [hash, hash, hfixed, hs]
  exact ⟨ts,us,hts.iff,hus.iff,hsame,hts.flatten.iff,rfl,hblanks,hfixed,hhash⟩

theorem canonical_of_spaced_list :
    ∃ ts, Tokens "[1, 22]" ts ∧ Tokens "[ 1 ,22 ]" ts ∧ Tokens "[1,22]" ts := by
  have hs : canonical "[1, 22]" = .ok "[1,22]" := by decide +kernel
  have ht : canonical "[ 1 ,22 ]" = .ok "[1,22]" := by decide +kernel
  obtain ⟨ts,us,hts,hus,hsame,hcanonical,_⟩ := canonical_complete_invariant hs ht
  exact ⟨ts,(hts ts).mpr rfl,(hus ts).mpr (hsame.mp rfl),(hcanonical ts).mpr rfl⟩

end ComplianceIntake.Spec
