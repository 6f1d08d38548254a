import ComplianceIntake.Json.Reader
import ComplianceIntake.Proofs.Json.Words
import ComplianceIntake.Proofs.Text.Layout

/-!
# What is read is JSON

A text that is read is made of the tokens of one value and of blanks. What the
open frames still ask of the text is a list of tokens. A step takes some tokens,
and whatever completes the text after the step does so before it with these
tokens in front; so a run that succeeds has taken the tokens of a value.
-/

set_option autoImplicit false

namespace ComplianceIntake.Json

open ComplianceIntake.Text
open ComplianceIntake.Number

inductive Closes : List Frame → List Token → Prop
  | nil : Closes [] []
  | listEnd {done : List Tree} {stack : List Frame} {ts : List Token} (h : Closes stack ts) :
      Closes (.list done :: stack) (word [']'] :: ts)
  | listMore {done : List Tree} {stack : List Frame} {us ts : List Token}
      (hs : Derives .items us) (h : Closes stack ts) :
      Closes (.list done :: stack) (word [','] :: (us ++ word [']'] :: ts))
  | objectEnd {done : List (Literal × Tree)} {key : Literal} {stack : List Frame}
      {ts : List Token} (h : Closes stack ts) :
      Closes (.object done key :: stack) (word ['}'] :: ts)
  | objectMore {done : List (Literal × Tree)} {key : Literal} {stack : List Frame}
      {us ts : List Token} (hs : Derives .members us) (h : Closes stack ts) :
      Closes (.object done key :: stack) (word [','] :: (us ++ word ['}'] :: ts))

inductive Completes : Mode → List Frame → List Token → Prop
  | expecting {stack : List Frame} {vs ts : List Token} (hv : Derives .value vs)
      (h : Closes stack ts) : Completes .expecting stack (vs ++ ts)
  | finished {t : Tree} {stack : List Frame} {ts : List Token} (h : Closes stack ts) :
      Completes (.finished t) stack ts

variable {stack : List Frame} {ts us vs : List Token}

/-- A value in an open list is the first of the items that are still to come. -/
theorem Closes.items {done : List Tree} (h : Closes (.list done :: stack) ts)
    (hv : Derives .value vs) :
    ∃ us ts', Derives .items us ∧ vs ++ ts = us ++ word [']'] :: ts' ∧ Closes stack ts' := by
  cases h with
  | listEnd h => exact ⟨vs,_,.item hv,rfl,h⟩
  | @listMore _ _ us ts hs h =>
    exact ⟨vs ++ word [','] :: us,ts,.items hv hs,by simp,h⟩

theorem Closes.members {done : List (Literal × Tree)} {key : Literal}
    (h : Closes (.object done key :: stack) ts) {k : Token} (hk : IsString k)
    (hv : Derives .value vs) :
    ∃ us ts', Derives .members us ∧ k :: word [':'] :: (vs ++ ts) = us ++ word ['}'] :: ts' ∧
      Closes stack ts' := by
  cases h with
  | objectEnd h => exact ⟨k :: word [':'] :: vs,_,.member hk hv,rfl,h⟩
  | @objectMore _ _ _ us ts hs h =>
    exact ⟨k :: word [':'] :: (vs ++ word [','] :: us),ts,.members hk hv hs,by simp,h⟩

/-- Whatever completes the text after the step does so before it with the tokens that the step
took in front. -/
def Takes (mode : Mode) (stack : List Frame) (gs : List Glyph) : Progress → Prop
  | .going mode' stack' rest =>
    ∃ ts, Laid isSpace ts gs rest ∧
      ∀ us, Completes mode' stack' us → Completes mode stack (ts ++ us)
  | .complete _ => Completes mode stack [] ∧ Laid isSpace [] gs []

variable {gs rest : List Glyph} {progress : Progress}

theorem laid_skip_space (gs : List Glyph) : Laid isSpace [] gs (skipSpace gs) :=
  Laid.drop_while (.done _)

theorem laid_token {t : Token} (h : skipSpace gs = t ++ rest) : Laid isSpace [t] gs rest := by
  apply Laid.drop_while
  rw [show gs.dropWhile isSpace = t ++ rest from h]
  exact .token (.done rest)

theorem takes_value {t : Tree} (hv : Derives .value vs) (h : Laid isSpace vs gs rest) :
    Takes .expecting stack gs (.going (.finished t) stack rest) := by
  refine ⟨vs,h,?_⟩
  rintro us ⟨⟩
  next hus => exact .expecting hv hus

theorem open_list_sound (h : openList stack gs = .ok progress)
    {text : List Glyph} (ht : Laid isSpace [word ['[']] text gs) :
    Takes .expecting stack text progress := by
  unfold openList at h
  split at h
  · contradiction
  · next g gs' hg =>
    split at h
    · next hend =>
      cases h
      subst hend
      exact takes_value .emptyList (ht.append (laid_token hg))
    · cases h
      refine ⟨[word ['[']],?_,?_⟩
      · rw [← hg]
        exact ht.append (laid_skip_space gs)
      · rintro us ⟨⟩
        next hv hclose =>
        obtain ⟨items,ts,hitems,heq,hts⟩ := hclose.items hv
        have hlist : [word ['[']] ++ (items ++ word [']'] :: ts) =
            (word ['['] :: (items ++ [word [']']])) ++ ts := by simp
        rw [heq, hlist]
        exact .expecting (.list hitems) hts

theorem read_key_sound {done : List (Literal × Tree)}
    (h : readKey done stack gs = .ok progress) :
    ∃ k key rest, IsString k ∧ Laid isSpace [k, word [':']] gs rest ∧
      progress = .going .expecting (.object done key :: stack) rest := by
  unfold readKey at h
  split at h
  · contradiction
  · next g gs₁ hg =>
    split at h
    · next hq =>
      subst hq
      split at h
      · contradiction
      · next key gs₂ hkey =>
        obtain ⟨inner,hinner,rfl⟩ := read_pieces_sound hkey
        split at h
        · contradiction
        · next c gs₃ hc =>
          split at h
          · next hcolon =>
            subst hcolon
            cases h
            have hk : Laid isSpace [.char '"' :: (inner ++ [.char '"'])] gs gs₂ :=
              laid_token (by rw [hg]; simp)
            exact ⟨_,key,_,.quoted hinner,hk.append (laid_token hc),rfl⟩
          · contradiction
    · contradiction

/-- A key before what completes its value begins the members that are still to come. -/
theorem completes_members {done : List (Literal × Tree)} {key : Literal} {k : Token}
    (hk : IsString k) (h : Completes .expecting (.object done key :: stack) us) :
    ∃ ms ts, Derives .members ms ∧ k :: word [':'] :: us = ms ++ word ['}'] :: ts ∧
      Closes stack ts := by
  cases h with
  | expecting hv hclose => exact hclose.members hk hv

theorem open_object_sound (h : openObject stack gs = .ok progress)
    {text : List Glyph} (ht : Laid isSpace [word ['{']] text gs) :
    Takes .expecting stack text progress := by
  unfold openObject at h
  split at h
  · contradiction
  · next g gs' hg =>
    split at h
    · next hend =>
      cases h
      subst hend
      exact takes_value .emptyObject (ht.append (laid_token hg))
    · obtain ⟨k,key,rest,hk,hlaid,rfl⟩ := read_key_sound h
      rw [← hg] at hlaid
      refine ⟨[word ['{'], k, word [':']],ht.append ((laid_skip_space gs).append hlaid),?_⟩
      intro us hus
      obtain ⟨ms,ts,hms,heq,hts⟩ := completes_members hk hus
      have hobject : [word ['{'], k, word [':']] ++ us =
          (word ['{'] :: (ms ++ [word ['}']])) ++ ts := by simpa using heq
      rw [hobject]
      exact .expecting (.object hms) hts

theorem finish_with_sound {t : Tree} (cs : List Char) (hv : Derives .value [word cs])
    {text : List Glyph} {c : Char} (hc : cs.head? = some c) (htext : skipSpace text = .char c :: gs)
    (h : finishWith t stack (readWord cs.tail gs) = .ok progress) :
    Takes .expecting stack text progress := by
  unfold finishWith at h
  cases hw : readWord cs.tail gs with
  | error s =>
    rw [hw] at h
    contradiction
  | ok gs' =>
    rw [hw] at h
    cases h
    have hgs := (read_word_eq_ok_iff _ _ _).mp hw
    have hword : skipSpace text = word cs ++ gs' := by
      obtain ⟨cs',rfl⟩ := List.head?_eq_some_iff.mp hc
      rw [htext, hgs]
      rfl
    exact takes_value hv (laid_token hword)

theorem start_value_sound (h : startValue stack gs = .ok progress) :
    Takes .expecting stack gs progress := by
  unfold startValue at h
  split at h
  · contradiction
  · next g gs' hg =>
    split at h
    · next hc =>
      subst hc
      exact open_list_sound h (laid_token hg)
    split at h
    · next hc =>
      subst hc
      exact open_object_sound h (laid_token hg)
    split at h
    · next hc =>
      subst hc
      split at h
      · contradiction
      · next l gs₂ hl =>
        cases h
        obtain ⟨inner,hinner,rfl⟩ := read_pieces_sound hl
        have htoken : Laid isSpace [.char '"' :: (inner ++ [.char '"'])] gs gs₂ :=
          laid_token (by rw [hg]; simp)
        exact takes_value (.string (.quoted hinner)) htoken
    split at h
    · next hc =>
      subst hc
      exact finish_with_sound nullChars (.name (by decide)) rfl hg h
    split at h
    · next hc =>
      subst hc
      exact finish_with_sound (wordChars true) (.name (by decide)) rfl hg h
    split at h
    · next hc =>
      subst hc
      exact finish_with_sound (wordChars false) (.name (by decide)) rfl hg h
    split at h
    · next hc =>
      subst hc
      split at h
      · contradiction
      · next n gs₂ hn =>
        cases h
        obtain ⟨cs,hcs,rfl⟩ := read_numeral_sound hn
        exact takes_value (.number (.minus hcs)) (laid_token hg)
    split at h
    · split at h
      · contradiction
      · next n gs₂ hn =>
        cases h
        obtain ⟨cs,hcs,hgs⟩ := read_numeral_sound hn
        exact takes_value (.number (.unsigned hcs)) (laid_token (hg.trans hgs))
    · contradiction

theorem continue_value_sound {t : Tree}
    (h : continueValue t stack gs = .ok progress) :
    Takes (.finished t) stack gs progress := by
  unfold continueValue at h
  split at h
  · next hgs =>
    cases h
    exact ⟨.finished .nil,hgs ▸ laid_skip_space gs⟩
  · contradiction
  · contradiction
  · next done stack g gs' hg =>
    split at h
    · next hc =>
      subst hc
      cases h
      refine ⟨[word [',']],laid_token hg,?_⟩
      rintro us ⟨⟩
      next hv hclose =>
      obtain ⟨items,ts,hitems,heq,hts⟩ := hclose.items hv
      rw [heq]
      exact .finished (.listMore hitems hts)
    split at h
    · next hc =>
      subst hc
      cases h
      refine ⟨[word [']']],laid_token hg,?_⟩
      rintro us ⟨⟩
      next hts => exact .finished (.listEnd hts)
    · contradiction
  · contradiction
  · next done key stack g gs' hg =>
    split at h
    · next hc =>
      subst hc
      obtain ⟨k,key',rest,hk,hlaid,rfl⟩ := read_key_sound h
      refine ⟨[word [','], k, word [':']],(laid_token hg).append hlaid,?_⟩
      intro us hus
      obtain ⟨ms,ts,hms,heq,hts⟩ := completes_members hk hus
      have hmore : [word [','], k, word [':']] ++ us = word [','] :: (ms ++ word ['}'] :: ts) := by
        rw [← heq]
        rfl
      rw [hmore]
      exact .finished (.objectMore hms hts)
    split at h
    · next hc =>
      subst hc
      cases h
      refine ⟨[word ['}']],laid_token hg,?_⟩
      rintro us ⟨⟩
      next hts => exact .finished (.objectEnd hts)
    · contradiction

theorem step_sound {mode : Mode} (h : step mode stack gs = .ok progress) :
    Takes mode stack gs progress := by
  cases mode with
  | expecting => exact start_value_sound h
  | finished t => exact continue_value_sound h

/-- A run that succeeds has taken the tokens that were still to come. -/
theorem read_from_sound {mode : Mode} {t : Tree} (h : readFrom mode stack gs = .ok t) :
    ∃ ts, Completes mode stack ts ∧ Laid isSpace ts gs [] := by
  fun_induction readFrom mode stack gs with
  | case1 => contradiction
  | case2 mode stack gs u hstep => exact ⟨[],step_sound hstep⟩
  | case3 mode stack gs mode' stack' rest hstep ih =>
    obtain ⟨us,hus,hrest⟩ := ih h
    obtain ⟨ts,hts,hcompletes⟩ := step_sound hstep
    exact ⟨ts ++ us,hcompletes us hus,hts.append hrest⟩

theorem derives_of_read_from {t : Tree} (h : readFrom .expecting [] gs = .ok t) :
    ∃ ts, Derives .value ts ∧ Laid isSpace ts gs [] := by
  obtain ⟨ts,hts,hlaid⟩ := read_from_sound h
  cases hts with
  | expecting hv hclose =>
    cases hclose
    rw [List.append_nil] at hlaid
    exact ⟨_,hv,hlaid⟩

end ComplianceIntake.Json
