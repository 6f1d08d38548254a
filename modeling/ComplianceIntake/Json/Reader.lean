import ComplianceIntake.Json.Tree

/-!
# Reading JSON text

The reader walks the text once. What it has opened and not yet closed is a
stack of frames, so nesting has no limit. At any moment it either expects a
value or has just finished one; every step consumes at least one glyph, and
the reading ends when the outermost value is followed by blanks alone.
-/

set_option autoImplicit false

namespace ComplianceIntake.Json

open ComplianceIntake.Text
open ComplianceIntake.Number

/-- An open list or object: what it holds so far, last first, and the key that awaits its value. -/
inductive Frame where
  | list (done : List Tree)
  | object (done : List (Literal × Tree)) (key : Literal)
  deriving Repr

inductive Mode where
  | expecting
  | finished (t : Tree)
  deriving Repr

inductive Progress where
  | going (mode : Mode) (stack : List Frame) (rest : List Glyph)
  | complete (t : Tree)
  deriving Repr

def readKey (done : List (Literal × Tree)) (stack : List Frame) (gs : List Glyph) :
    Except Stop Progress :=
  match skipSpace gs with
  | [] => .error (.atEnd .endOfObject)
  | g :: rest =>
    if g = .char '"' then
      match readPieces [] rest with
      | .error s => .error s
      | .ok (key, rest) =>
        match skipSpace rest with
        | [] => .error (.atEnd .endOfObject)
        | c :: rest =>
          if c = .char ':' then .ok (.going .expecting (.object done key :: stack) rest)
          else .error (.at .expectedColon (c :: rest))
    else .error (.at .keyMustBeString (g :: rest))

def openList (stack : List Frame) (gs : List Glyph) : Except Stop Progress :=
  match skipSpace gs with
  | [] => .error (.atEnd .endOfList)
  | g :: rest =>
    if g = .char ']' then .ok (.going (.finished (.list [])) stack rest)
    else .ok (.going .expecting (.list [] :: stack) (g :: rest))

def openObject (stack : List Frame) (gs : List Glyph) : Except Stop Progress :=
  match skipSpace gs with
  | [] => .error (.atEnd .endOfObject)
  | g :: rest =>
    if g = .char '}' then .ok (.going (.finished (.object [])) stack rest)
    else readKey [] stack (g :: rest)

def finishWith (t : Tree) (stack : List Frame) (rest : Except Stop (List Glyph)) :
    Except Stop Progress :=
  rest.map (.going (.finished t) stack ·)

def startValue (stack : List Frame) (gs : List Glyph) : Except Stop Progress :=
  match skipSpace gs with
  | [] => .error (.atEnd .endOfValue)
  | g :: rest =>
    if g = .char '[' then openList stack rest
    else if g = .char '{' then openObject stack rest
    else if g = .char '"' then
      match readPieces [] rest with
      | .error s => .error s
      | .ok (l, rest) => .ok (.going (.finished (.string l)) stack rest)
    else if g = .char 'n' then finishWith .null stack (readWord nullChars.tail rest)
    else if g = .char 't' then finishWith (.bool true) stack (readWord (wordChars true).tail rest)
    else if g = .char 'f' then finishWith (.bool false) stack (readWord (wordChars false).tail rest)
    else if g = .char '-' then
      match readNumeral true rest with
      | .error s => .error s
      | .ok (n, rest) => .ok (.going (.finished (.number n)) stack rest)
    else if (digit? g).isSome then
      match readNumeral false (g :: rest) with
      | .error s => .error s
      | .ok (n, rest) => .ok (.going (.finished (.number n)) stack rest)
    else .error (.at .expectedValue (g :: rest))

def continueValue (t : Tree) (stack : List Frame) (gs : List Glyph) : Except Stop Progress :=
  match stack, skipSpace gs with
  | [], [] => .ok (.complete t)
  | [], g :: rest => .error (.at .trailingCharacters (g :: rest))
  | .list _ :: _, [] => .error (.atEnd .endOfList)
  | .list done :: stack, g :: rest =>
    if g = .char ',' then .ok (.going .expecting (.list (t :: done) :: stack) rest)
    else if g = .char ']' then .ok (.going (.finished (.list (t :: done).reverse)) stack rest)
    else .error (.at .expectedListEnd (g :: rest))
  | .object _ _ :: _, [] => .error (.atEnd .endOfObject)
  | .object done key :: stack, g :: rest =>
    if g = .char ',' then readKey ((key, t) :: done) stack rest
    else if g = .char '}' then
      .ok (.going (.finished (.object ((key, t) :: done).reverse)) stack rest)
    else .error (.at .expectedObjectEnd (g :: rest))

def step : Mode → List Frame → List Glyph → Except Stop Progress
  | .expecting, stack, gs => startValue stack gs
  | .finished t, stack, gs => continueValue t stack gs

def LeavesAtMost (n : Nat) (r : Except Stop Progress) : Prop :=
  ∀ mode stack rest, r = .ok (.going mode stack rest) → rest.length ≤ n

theorem skip_space_length (gs : List Glyph) : (skipSpace gs).length ≤ gs.length :=
  (List.dropWhile_sublist _).length_le

theorem skip_space_cons_length {g : Glyph} {gs rest : List Glyph} (h : skipSpace gs = g :: rest) :
    rest.length < gs.length := by
  have := skip_space_length gs
  rw [h, List.length_cons] at this
  omega

theorem read_key_leaves (done : List (Literal × Tree)) (stack : List Frame) (gs : List Glyph) :
    LeavesAtMost (gs.length - 1) (readKey done stack gs) := by
  intro mode stack' rest h
  unfold readKey at h
  split at h
  · simp at h
  · rename_i g r hg
    have := skip_space_cons_length hg
    split at h
    · split at h
      · simp at h
      · rename_i key r' hp
        have := read_pieces_length _ _ _ _ hp
        split at h
        · simp at h
        · rename_i c r'' hc
          have := skip_space_cons_length hc
          split at h
          · cases h
            omega
          · simp at h
    · simp at h

theorem open_list_leaves (stack : List Frame) (gs : List Glyph) :
    LeavesAtMost gs.length (openList stack gs) := by
  intro mode stack' rest h
  unfold openList at h
  split at h
  · simp at h
  · rename_i g r hg
    have := skip_space_cons_length hg
    split at h
    · cases h
      omega
    · cases h
      simp
      omega

theorem open_object_leaves (stack : List Frame) (gs : List Glyph) :
    LeavesAtMost gs.length (openObject stack gs) := by
  intro mode stack' rest h
  unfold openObject at h
  split at h
  · simp at h
  · rename_i g r hg
    have := skip_space_cons_length hg
    split at h
    · cases h
      omega
    · have := read_key_leaves _ _ _ _ _ _ h
      simp at this
      omega

theorem finish_with_leaves (t : Tree) (stack : List Frame) (cs : List Char) (gs : List Glyph) :
    LeavesAtMost gs.length (finishWith t stack (readWord cs gs)) := by
  intro mode stack' rest h
  unfold finishWith at h
  cases hw : readWord cs gs with
  | error s => simp [hw, Except.map] at h
  | ok r =>
    simp [hw, Except.map] at h
    have := read_word_length hw
    have := h.2.2
    subst this
    omega

theorem start_value_leaves (stack : List Frame) (gs : List Glyph) :
    LeavesAtMost (gs.length - 1) (startValue stack gs) := by
  intro mode stack' rest h
  unfold startValue at h
  split at h
  · simp at h
  · rename_i g r hg
    have hr := skip_space_cons_length hg
    have weaken : ∀ {x : Except Stop Progress}, LeavesAtMost r.length x →
        x = .ok (.going mode stack' rest) → rest.length ≤ gs.length - 1 := by
      intro x hx e
      have := hx _ _ _ e
      omega
    split at h
    · exact weaken (open_list_leaves _ _) h
    split at h
    · exact weaken (open_object_leaves _ _) h
    split at h
    · split at h
      · simp at h
      · rename_i hp
        cases h
        have := read_pieces_length _ _ _ _ hp
        omega
    split at h
    · exact weaken (finish_with_leaves _ _ _ _) h
    split at h
    · exact weaken (finish_with_leaves _ _ _ _) h
    split at h
    · exact weaken (finish_with_leaves _ _ _ _) h
    split at h
    · split at h
      · simp at h
      · rename_i hn
        cases h
        have := read_numeral_length hn
        omega
    split at h
    · split at h
      · simp at h
      · rename_i hn
        cases h
        have := read_numeral_length hn
        simp at this
        omega
    · simp at h

theorem continue_value_leaves (t : Tree) (stack : List Frame) (gs : List Glyph) :
    LeavesAtMost (gs.length - 1) (continueValue t stack gs) := by
  intro mode stack' rest h
  unfold continueValue at h
  split at h
  · simp at h
  · simp at h
  · simp at h
  · rename_i hg
    have := skip_space_cons_length hg
    split at h
    · cases h
      omega
    split at h
    · cases h
      omega
    · simp at h
  · simp at h
  · rename_i hg
    have := skip_space_cons_length hg
    split at h
    · have := read_key_leaves _ _ _ _ _ _ h
      omega
    split at h
    · cases h
      omega
    · simp at h

theorem start_value_nonempty {stack stack' : List Frame} {gs rest : List Glyph} {mode : Mode}
    (h : startValue stack gs = .ok (.going mode stack' rest)) : gs ≠ [] := by
  rintro rfl
  simp [startValue, skipSpace] at h

theorem continue_value_nonempty {t : Tree} {stack stack' : List Frame} {gs rest : List Glyph}
    {mode : Mode} (h : continueValue t stack gs = .ok (.going mode stack' rest)) : gs ≠ [] := by
  rintro rfl
  cases stack with
  | nil => simp [continueValue, skipSpace] at h
  | cons f stack => cases f <;> simp [continueValue, skipSpace] at h

/-- Every step that goes on consumes a glyph. -/
theorem step_shortens {mode mode' : Mode} {stack stack' : List Frame} {gs rest : List Glyph}
    (h : step mode stack gs = .ok (.going mode' stack' rest)) : rest.length < gs.length := by
  have shorter : ∀ {gs : List Glyph}, gs ≠ [] → rest.length ≤ gs.length - 1 →
      rest.length < gs.length := by
    intro gs hne hle
    have := List.length_pos_iff.2 hne
    omega
  cases mode with
  | expecting => exact shorter (start_value_nonempty h) (start_value_leaves _ _ _ _ _ h)
  | finished t => exact shorter (continue_value_nonempty h) (continue_value_leaves _ _ _ _ _ _ h)

def readFrom (mode : Mode) (stack : List Frame) (gs : List Glyph) : Except Stop Tree :=
  match _h : step mode stack gs with
  | .error s => .error s
  | .ok (.complete t) => .ok t
  | .ok (.going mode stack rest) => readFrom mode stack rest
  termination_by gs.length
  decreasing_by exact step_shortens _h

def read (text : List Glyph) : Except Fault Tree :=
  (readFrom .expecting [] text).mapError (Fault.ofStop text)

end ComplianceIntake.Json
