import ComplianceIntake.Proofs.Json.Soundness

/-!
# All JSON is read

Where the reader expects a value it takes the tokens of any value there is, and
goes on with the tree that has them as its lexemes, whatever is open. So a text
is read exactly when it is made of the tokens of a value and of blanks, and as
the reader gives one tree only, the tokens of a text are unique.
-/

set_option autoImplicit false

namespace ComplianceIntake.Json

open ComplianceIntake.Text
open ComplianceIntake.Number

section Steps

variable {mode mode' : Mode} {stack stack' : List Frame} {gs gs' rest : List Glyph}

def follow : Except Stop Progress → Except Stop Tree
  | .error s => .error s
  | .ok (.complete t) => .ok t
  | .ok (.going mode stack rest) => readFrom mode stack rest

theorem read_from_eq_follow (mode : Mode) (stack : List Frame) (gs : List Glyph) :
    readFrom mode stack gs = follow (step mode stack gs) := by
  rw [readFrom]
  split <;> next h => rw [h, follow]

theorem read_from_complete {t : Tree} (h : step mode stack gs = .ok (.complete t)) :
    readFrom mode stack gs = .ok t := by
  rw [read_from_eq_follow, h, follow]

theorem read_from_going (h : step mode stack gs = .ok (.going mode' stack' rest)) :
    readFrom mode stack gs = readFrom mode' stack' rest := by
  rw [read_from_eq_follow, h, follow]

/-- No step depends on how many blanks come first. -/
theorem step_congr (h : skipSpace gs = skipSpace gs') (mode : Mode) (stack : List Frame) :
    step mode stack gs = step mode stack gs' := by
  cases mode with
  | expecting => rw [step, step, startValue, startValue, h]
  | finished t => rw [step, step, continueValue.eq_def, continueValue.eq_def, h]

theorem read_from_congr (h : skipSpace gs = skipSpace gs') (mode : Mode) (stack : List Frame) :
    readFrom mode stack gs = readFrom mode stack gs' := by
  rw [read_from_eq_follow, read_from_eq_follow, step_congr h]

end Steps

section Ends

def Ends (gs : List Glyph) : Prop :=
  ∀ g, gs.head? = some g → isSpace g = true ∨ ∃ c ∈ [',', ']', '}'], g = .char c

theorem is_space_iff (g : Glyph) :
    isSpace g = true ↔ ∃ c ∈ [' ', '\t', '\n', '\r'], g = .char c := by
  simp [isSpace, or_assoc]

variable {gs rest : List Glyph} {ts : List Token}

theorem Ends.stops (h : Ends gs) : Stops gs := by
  intro g hg
  have hnone : ∀ c ∈ [' ', '\t', '\n', '\r', ',', ']', '}'],
      ¬ IsDigit c ∧ c ∉ ['.', 'e', 'E'] := List.all_iff_forall_prop.mp (by decide)
  have hmem : ∃ c ∈ [' ', '\t', '\n', '\r', ',', ']', '}'], g = .char c := by
    rcases h g hg with hs | ⟨c,hc,rfl⟩
    · obtain ⟨c,hc,rfl⟩ := (is_space_iff g).mp hs
      exact ⟨c,List.mem_append_left [',', ']', '}'] hc,rfl⟩
    · exact ⟨c,List.mem_append_right [' ', '\t', '\n', '\r'] hc,rfl⟩
  obtain ⟨c,hc,rfl⟩ := hmem
  obtain ⟨hdigit,hmark⟩ := hnone c hc
  exact ⟨digit?_eq_none hdigit,fun d hd => Glyph.char.inj hd ▸ hmark⟩

theorem Ends.of_nil (h : Ends rest) (hl : Laid isSpace [] gs rest) : Ends gs := by
  intro g hg
  rcases hl.head_of_nil hg with hs | hr
  · exact Or.inl hs
  · exact h g hr

theorem ends_of_laid {c : Char} (hc : c ∈ [',', ']', '}'])
    (hl : Laid isSpace (word [c] :: ts) gs rest) : Ends gs := by
  intro g hg
  rcases hl.head_of_cons hg with hs | rfl
  · exact Or.inl hs
  · exact Or.inr ⟨c,hc,rfl⟩

theorem ends_nil : Ends [] := fun _ h => nomatch h

end Ends

section Starts

variable {gs gs' rest : List Glyph}

theorem start_value_null (h : skipSpace gs = .char 'n' :: gs') (stack : List Frame) :
    startValue stack gs = finishWith .null stack (readWord nullChars.tail gs') := by
  rw [startValue, h]
  rfl

theorem start_value_bool (b : Bool) {c : Char} (hc : (wordChars b).head? = some c)
    (h : skipSpace gs = .char c :: gs') (stack : List Frame) :
    startValue stack gs = finishWith (.bool b) stack (readWord (wordChars b).tail gs') := by
  rw [startValue, h]
  cases b <;> cases hc <;> rfl

theorem start_value_string {l : Literal} (h : skipSpace gs = .char '"' :: gs')
    (hl : readPieces [] gs' = .ok (l, rest)) (stack : List Frame) :
    startValue stack gs = .ok (.going (.finished (.string l)) stack rest) := by
  rw [startValue, h]
  simp [hl]

theorem start_value_minus {n : Numeral} (h : skipSpace gs = .char '-' :: gs')
    (hn : readNumeral true gs' = .ok (n, rest)) (stack : List Frame) :
    startValue stack gs = .ok (.going (.finished (.number n)) stack rest) := by
  rw [startValue, h]
  simp [hn]

theorem start_value_digit {c : Char} (hc : IsDigit c) {n : Numeral}
    (h : skipSpace gs = .char c :: gs') (hn : readNumeral false (.char c :: gs') = .ok (n, rest))
    (stack : List Frame) :
    startValue stack gs = .ok (.going (.finished (.number n)) stack rest) := by
  have hdigit : (digit? (.char c)).isSome = true := by
    rw [(digit?_eq_some_iff _ c).mpr ⟨rfl,hc⟩]
    rfl
  have hne : ∀ d, ¬ IsDigit d → ¬ c = d := by
    rintro d hd rfl
    exact hd hc
  have hmarks : ∀ d ∈ ['[', '{', '"', 'n', 't', 'f', '-'], ¬ IsDigit d :=
    List.all_iff_forall_prop.mp (by decide)
  simp only [List.forall_mem_cons] at hmarks
  rw [startValue, h]
  simp [hn, hdigit, hne, hmarks]

def TakesAtOnce (ts : List Token) (gs rest : List Glyph) : Prop :=
  ∃ (v : Tree) (gs' : List Glyph), v.lexemes = ts ∧ Laid isSpace [] gs' rest ∧
    ∀ stack, startValue stack gs = .ok (.going (.finished v) stack gs')

theorem takes_name {cs : List Char}
    (h : cs ∈ [['n', 'u', 'l', 'l'], ['t', 'r', 'u', 'e'], ['f', 'a', 'l', 's', 'e']])
    (hl : Laid isSpace [word cs] gs rest) : TakesAtOnce [word cs] gs rest := by
  have hword : ∀ (v : Tree) (cs : List Char) (gs' : List Glyph) (stack : List Frame),
      finishWith v stack (readWord cs (word cs ++ gs')) = .ok (.going (.finished v) stack gs') := by
    intro v cs gs' stack
    rw [(read_word_eq_ok_iff cs _ gs').mpr rfl]
    rfl
  simp only [List.mem_cons, List.not_mem_nil, or_false] at h
  rcases h with rfl | rfl | rfl
  · obtain ⟨gs',hgs,hrest⟩ := hl.drop_while_of_cons (by decide)
    have hstart := fun stack =>
      (start_value_null hgs stack).trans (hword _ nullChars.tail gs' stack)
    exact ⟨.null,gs',rfl,hrest,hstart⟩
  · obtain ⟨gs',hgs,hrest⟩ := hl.drop_while_of_cons (by decide)
    have hstart := fun stack =>
      (start_value_bool true rfl hgs stack).trans (hword _ (wordChars true).tail gs' stack)
    exact ⟨.bool true,gs',rfl,hrest,hstart⟩
  · obtain ⟨gs',hgs,hrest⟩ := hl.drop_while_of_cons (by decide)
    have hstart := fun stack =>
      (start_value_bool false rfl hgs stack).trans (hword _ (wordChars false).tail gs' stack)
    exact ⟨.bool false,gs',rfl,hrest,hstart⟩

theorem takes_string {t : Token} (h : IsString t) (hl : Laid isSpace [t] gs rest) :
    TakesAtOnce [t] gs rest := by
  cases h with
  | @quoted inner h =>
    obtain ⟨l,hglyphs,hread⟩ := read_pieces_complete h
    obtain ⟨gs',hgs,hrest⟩ := hl.drop_while_of_cons (by decide)
    rw [List.append_assoc, List.singleton_append] at hgs
    have hlexemes : (Tree.string l).lexemes = [.char '"' :: (inner ++ [.char '"'])] := by
      rw [Tree.lexemes, Literal.glyphs, hglyphs]
    exact ⟨.string l,gs',hlexemes,hrest,start_value_string hgs (hread [] gs')⟩

theorem takes_number {cs : List Char} (h : IsNumber cs) (hl : Laid isSpace [word cs] gs rest)
    (he : Ends rest) : TakesAtOnce [word cs] gs rest := by
  cases h with
  | unsigned h =>
    obtain ⟨c,cs,rfl,hc⟩ := h.head
    obtain ⟨gs',hgs,hrest⟩ := hl.drop_while_of_cons (h.number_chars c List.mem_cons_self).bare.1
    obtain ⟨n,hn,hchars⟩ := read_numeral_complete false h (he.of_nil hrest).stops
    have hlexemes : (Tree.number n).lexemes = [word (c :: cs)] := by
      rw [Tree.lexemes, hchars]
      rfl
    exact ⟨.number n,gs',hlexemes,hrest,start_value_digit hc hgs hn⟩
  | @minus cs h =>
    obtain ⟨gs',hgs,hrest⟩ := hl.drop_while_of_cons (by decide)
    obtain ⟨n,hn,hchars⟩ := read_numeral_complete true h (he.of_nil hrest).stops
    have hlexemes : (Tree.number n).lexemes = [word ('-' :: cs)] := by
      rw [Tree.lexemes, hchars]
      rfl
    exact ⟨.number n,gs',hlexemes,hrest,start_value_minus hgs hn⟩

theorem skip_space_of_laid {c : Char} {ts : List Token} (hc : isSpace (.char c) = false)
    (h : Laid isSpace (word [c] :: ts) gs rest) :
    ∃ gs', skipSpace gs = .char c :: gs' ∧ Laid isSpace ts gs' rest :=
  h.drop_while_of_cons hc

theorem takes_empty_list (hl : Laid isSpace [word ['['], word [']']] gs rest) :
    TakesAtOnce [word ['['], word [']']] gs rest := by
  obtain ⟨gs₁,hgs,hend⟩ := skip_space_of_laid (by decide) hl
  obtain ⟨gs₂,hgs₁,hrest⟩ := skip_space_of_laid (by decide) hend
  refine ⟨.list [],gs₂,rfl,hrest,?_⟩
  intro stack
  rw [startValue, hgs]
  show openList stack gs₁ = _
  rw [openList, hgs₁]
  rfl

theorem takes_empty_object (hl : Laid isSpace [word ['{'], word ['}']] gs rest) :
    TakesAtOnce [word ['{'], word ['}']] gs rest := by
  obtain ⟨gs₁,hgs,hend⟩ := skip_space_of_laid (by decide) hl
  obtain ⟨gs₂,hgs₁,hrest⟩ := skip_space_of_laid (by decide) hend
  refine ⟨.object [],gs₂,rfl,hrest,?_⟩
  intro stack
  rw [startValue, hgs]
  show openObject stack gs₁ = _
  rw [openObject, hgs₁]
  rfl

end Starts

section Lexemes

theorem item_lexemes_cons (t : Tree) {items : List Tree} (h : items ≠ []) :
    itemLexemes (t :: items) = t.lexemes ++ word [','] :: itemLexemes items := by
  obtain ⟨u,items,rfl⟩ := List.exists_cons_of_ne_nil h
  rw [itemLexemes]

theorem member_lexemes_cons (key : Literal) (t : Tree) {members : List (Literal × Tree)}
    (h : members ≠ []) : memberLexemes ((key, t) :: members) =
      key.glyphs :: word [':'] :: (t.lexemes ++ word [','] :: memberLexemes members) := by
  obtain ⟨m,members,rfl⟩ := List.exists_cons_of_ne_nil h
  rw [memberLexemes]

end Lexemes

section Values

variable {stack : List Frame} {gs gs' rest : List Glyph} {t : Tree}

theorem step_comma_list {done : List Tree} (h : skipSpace gs = .char ',' :: gs') :
    step (.finished t) (.list done :: stack) gs =
      .ok (.going .expecting (.list (t :: done) :: stack) gs') := by
  rw [step, continueValue.eq_def, h]
  rfl

theorem step_end_list {done : List Tree} (h : skipSpace gs = .char ']' :: gs') :
    step (.finished t) (.list done :: stack) gs =
      .ok (.going (.finished (.list (t :: done).reverse)) stack gs') := by
  rw [step, continueValue.eq_def, h]
  rfl

theorem step_comma_object {done : List (Literal × Tree)} {key : Literal}
    (h : skipSpace gs = .char ',' :: gs') :
    step (.finished t) (.object done key :: stack) gs =
      readKey ((key, t) :: done) stack gs' := by
  rw [step, continueValue.eq_def, h]
  rfl

theorem step_end_object {done : List (Literal × Tree)} {key : Literal}
    (h : skipSpace gs = .char '}' :: gs') :
    step (.finished t) (.object done key :: stack) gs =
      .ok (.going (.finished (.object ((key, t) :: done).reverse)) stack gs') := by
  rw [step, continueValue.eq_def, h]
  rfl

theorem read_key_complete {k : Token} (hk : IsString k) {ts : List Token}
    (h : Laid isSpace (k :: word [':'] :: ts) gs rest) :
    ∃ (key : Literal) (gs' : List Glyph), key.glyphs = k ∧ Laid isSpace ts gs' rest ∧
      ∀ done stack, readKey done stack gs =
        .ok (.going .expecting (.object done key :: stack) gs') := by
  cases hk with
  | @quoted inner hinner =>
    obtain ⟨key,hglyphs,hread⟩ := read_pieces_complete hinner
    obtain ⟨gs₁,hgs,hcolon⟩ := h.drop_while_of_cons (by decide)
    obtain ⟨gs₂,hgs₁,hrest⟩ := hcolon.drop_while_of_cons (by decide)
    rw [List.append_assoc, List.singleton_append] at hgs
    refine ⟨key,gs₂,by rw [Literal.glyphs, hglyphs],hrest,?_⟩
    intro done stack
    rw [readKey, skipSpace, hgs]
    simp [hread, skipSpace, hgs₁]

/-- The tokens are taken where the reader expects this part, whatever is open: a value before what
may follow it, and items and members together with the mark that closes them. -/
def Reads : Part → List Token → Prop
  | .value, ts => ∀ gs rest, Laid isSpace ts gs rest → Ends rest →
    ∃ t : Tree, t.lexemes = ts ∧ ∀ stack,
      readFrom .expecting stack gs = readFrom (.finished t) stack rest
  | .items, ts => ∀ gs rest, Laid isSpace (ts ++ [word [']']]) gs rest →
    ∃ items : List Tree, items ≠ [] ∧ itemLexemes items = ts ∧ ∀ done stack,
      readFrom .expecting (.list done :: stack) gs =
        readFrom (.finished (.list (done.reverse ++ items))) stack rest
  | .members, ts => ∀ gs rest, Laid isSpace (ts ++ [word ['}']]) gs rest →
    ∃ members : List (Literal × Tree), members ≠ [] ∧ memberLexemes members = ts ∧
      ∀ done stack, follow (readKey done stack gs) =
        readFrom (.finished (.object (done.reverse ++ members))) stack rest

theorem reads_of_takes_at_once {ts : List Token}
    (h : ∀ gs rest, Laid isSpace ts gs rest → Ends rest → TakesAtOnce ts gs rest) :
    Reads .value ts := by
  intro gs rest hl he
  obtain ⟨v,gs',hv,hrest,hstart⟩ := h gs rest hl he
  refine ⟨v,hv,?_⟩
  intro stack
  have hstep : step .expecting stack gs = _ := hstart stack
  rw [read_from_going hstep]
  exact read_from_congr hrest.drop_while_of_nil _ _

theorem reads_list {ts : List Token} (hts : Derives .items ts) (h : Reads .items ts) :
    Reads .value (word ['['] :: (ts ++ [word [']']])) := by
  intro gs rest hl _
  obtain ⟨gs₁,hgs,hitems⟩ := skip_space_of_laid (by decide) hl
  obtain ⟨g,t,us,rfl,hspace,hend⟩ := hts.opens
  obtain ⟨gs₂,hgs₁,hrest⟩ := hitems.drop_while_of_cons hspace
  obtain ⟨items,_,hlexemes,hread⟩ := h _ rest (hitems.drop_while_self hspace)
  refine ⟨.list items,by rw [Tree.lexemes, hlexemes],?_⟩
  intro stack
  have hstep : step .expecting stack gs =
      .ok (.going .expecting (.list [] :: stack) (gs₁.dropWhile isSpace)) := by
    rw [step, startValue, hgs]
    show openList stack gs₁ = _
    rw [openList, skipSpace, hgs₁]
    simp [hend]
  rw [read_from_going hstep]
  exact hread [] stack

theorem reads_item {ts : List Token} (h : Reads .value ts) : Reads .items ts := by
  intro gs rest hl
  obtain ⟨gs₁,hvalue,hend⟩ := hl.of_append
  obtain ⟨t,ht,hread⟩ := h gs gs₁ hvalue (ends_of_laid (by decide) hend)
  obtain ⟨gs₂,hgs₁,hrest⟩ := skip_space_of_laid (by decide) hend
  refine ⟨[t],List.cons_ne_nil t [],by rw [itemLexemes, ht],?_⟩
  intro done stack
  rw [hread, read_from_going (step_end_list hgs₁), List.reverse_cons]
  exact read_from_congr hrest.drop_while_of_nil _ _

theorem reads_items {ts us : List Token} (h : Reads .value ts) (hs : Reads .items us) :
    Reads .items (ts ++ word [','] :: us) := by
  intro gs rest hl
  rw [List.append_assoc, List.cons_append] at hl
  obtain ⟨gs₁,hvalue,hcomma⟩ := hl.of_append
  obtain ⟨t,ht,hread⟩ := h gs gs₁ hvalue (ends_of_laid (by decide) hcomma)
  obtain ⟨gs₂,hgs₁,hmore⟩ := skip_space_of_laid (by decide) hcomma
  obtain ⟨items,hne,hitems,hread'⟩ := hs gs₂ rest hmore
  refine ⟨t :: items,List.cons_ne_nil t items,by rw [item_lexemes_cons t hne, ht, hitems],?_⟩
  intro done stack
  rw [hread, read_from_going (step_comma_list hgs₁), hread', List.reverse_cons, List.append_assoc,
    List.singleton_append]

theorem reads_member {k : Token} {ts : List Token} (hk : IsString k) (h : Reads .value ts) :
    Reads .members (k :: word [':'] :: ts) := by
  intro gs rest hl
  obtain ⟨key,gs₁,hkey,hvalue,hreadKey⟩ := read_key_complete hk hl
  obtain ⟨gs₂,hvalue,hend⟩ := hvalue.of_append
  obtain ⟨t,ht,hread⟩ := h gs₁ gs₂ hvalue (ends_of_laid (by decide) hend)
  obtain ⟨gs₃,hgs₂,hrest⟩ := skip_space_of_laid (by decide) hend
  refine ⟨[(key, t)],List.cons_ne_nil _ [],by rw [memberLexemes, ht, hkey],?_⟩
  intro done stack
  rw [hreadKey, follow, hread, read_from_going (step_end_object hgs₂), List.reverse_cons]
  exact read_from_congr hrest.drop_while_of_nil _ _

theorem reads_members {k : Token} {ts us : List Token} (hk : IsString k) (h : Reads .value ts)
    (hs : Reads .members us) : Reads .members (k :: word [':'] :: (ts ++ word [','] :: us)) := by
  intro gs rest hl
  rw [List.cons_append, List.cons_append, List.append_assoc, List.cons_append] at hl
  obtain ⟨key,gs₁,hkey,hvalues,hreadKey⟩ := read_key_complete hk hl
  obtain ⟨gs₂,hvalue,hcomma⟩ := hvalues.of_append
  obtain ⟨t,ht,hread⟩ := h gs₁ gs₂ hvalue (ends_of_laid (by decide) hcomma)
  obtain ⟨gs₃,hgs₂,hmore⟩ := skip_space_of_laid (by decide) hcomma
  obtain ⟨members,hne,hmembers,hread'⟩ := hs gs₃ rest hmore
  refine ⟨(key, t) :: members,List.cons_ne_nil _ members,
    by rw [member_lexemes_cons key t hne, ht, hkey, hmembers],?_⟩
  intro done stack
  rw [hreadKey, follow, hread, read_from_eq_follow, step_comma_object hgs₂, hread',
    List.reverse_cons, List.append_assoc, List.singleton_append]

theorem reads_object {ts : List Token} (hts : Derives .members ts) (h : Reads .members ts) :
    Reads .value (word ['{'] :: (ts ++ [word ['}']])) := by
  intro gs rest hl _
  obtain ⟨gs₁,hgs,hmembers⟩ := skip_space_of_laid (by decide) hl
  obtain ⟨t,us,rfl⟩ := hts.quote_of_members
  obtain ⟨gs₂,hgs₁,_⟩ := hmembers.drop_while_of_cons (by decide)
  obtain ⟨members,_,hlexemes,hread⟩ := h _ rest (hmembers.drop_while_self (by decide))
  refine ⟨.object members,by rw [Tree.lexemes, hlexemes],?_⟩
  intro stack
  have hstep : step .expecting stack gs = readKey [] stack (gs₁.dropWhile isSpace) := by
    rw [step, startValue, hgs]
    show openObject stack gs₁ = _
    rw [openObject, skipSpace, hgs₁]
    rfl
  rw [read_from_eq_follow, hstep]
  exact hread [] stack

theorem Derives.reads {part : Part} {ts : List Token} (h : Derives part ts) : Reads part ts := by
  induction h with
  | name h => exact reads_of_takes_at_once fun gs rest hl _ => takes_name h hl
  | number h => exact reads_of_takes_at_once fun gs rest hl he => takes_number h hl he
  | string h => exact reads_of_takes_at_once fun gs rest hl _ => takes_string h hl
  | emptyList => exact reads_of_takes_at_once fun gs rest hl _ => takes_empty_list hl
  | list hts ih => exact reads_list hts ih
  | emptyObject => exact reads_of_takes_at_once fun gs rest hl _ => takes_empty_object hl
  | object hts ih => exact reads_object hts ih
  | item _ ih => exact reads_item ih
  | items _ _ ih ih' => exact reads_items ih ih'
  | member hk _ ih => exact reads_member hk ih
  | members hk _ _ ih ih' => exact reads_members hk ih ih'

end Values

section Texts

variable {text : List Glyph} {ts : List Token} {t : Tree}

theorem read_eq_ok_iff : read text = .ok t ↔ readFrom .expecting [] text = .ok t := by
  rw [read]
  cases readFrom .expecting [] text <;> simp [Except.mapError]

/-- A text that is made of the tokens of a value and of blanks is read, and the tree has the tokens
as its lexemes. -/
theorem read_of_derives (h : Derives .value ts) (hl : Laid isSpace ts text []) :
    ∃ t, read text = .ok t ∧ t.lexemes = ts := by
  obtain ⟨t,ht,hread⟩ := h.reads text [] hl ends_nil
  have hdone : readFrom (.finished t) [] [] = .ok t := read_from_complete rfl
  exact ⟨t,read_eq_ok_iff.mpr ((hread []).trans hdone),ht⟩

/-- A text that is read is made of the lexemes of the tree, which derive a value, and of blanks. -/
theorem derives_of_read (h : read text = .ok t) :
    Derives .value t.lexemes ∧ Laid isSpace t.lexemes text [] := by
  obtain ⟨ts,hts,hl⟩ := derives_of_read_from (read_eq_ok_iff.mp h)
  obtain ⟨u,hu,rfl⟩ := read_of_derives hts hl
  cases h.symm.trans hu
  exact ⟨hts,hl⟩

/-- No text can be taken apart into the tokens of a value in two ways. -/
theorem Derives.unique {us : List Token} (h : Derives .value ts) (hl : Laid isSpace ts text [])
    (h' : Derives .value us) (hl' : Laid isSpace us text []) : ts = us := by
  obtain ⟨t,ht,rfl⟩ := read_of_derives h hl
  obtain ⟨u,hu,rfl⟩ := read_of_derives h' hl'
  cases ht.symm.trans hu
  rfl

end Texts

end ComplianceIntake.Json
