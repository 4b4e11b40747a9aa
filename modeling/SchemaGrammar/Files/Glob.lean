/-!
# File name patterns

A pattern is written like a path. In each of its components `?` stands for one character, `*` for
any characters, and a bracketed set for one character that is in it, or not in it if the set starts
with an exclamation mark. A component `**` stands for any number of directories. Every other
character stands for itself.

## Main definitions

* `Glob.Pattern.ofText`: reads a pattern, or tells what is wrong with it and where.
* `Glob.fits`, `Glob.Component.accepts`: whether a file name fits a pattern.
* `Glob.fits_iff`: a name fits exactly if it can be divided among the elements.
-/

namespace SchemaGrammar

namespace Files

namespace Glob

/-- An element of a bracketed set. -/
inductive CharSet where
  | one (c : Char)
  | range (first last : Char)
deriving Repr, DecidableEq

/-- Whether a character belongs to an element of a set. -/
def CharSet.has (c : Char) : CharSet → Bool
  | .one d => c == d
  | .range first last => decide (first ≤ c) && decide (c ≤ last)

/-- An element of a pattern. -/
inductive Token where
  | char (c : Char)
  | anyChar
  | anyOf (sets : List CharSet)
  | noneOf (sets : List CharSet)
  | anyText
  | anyDirectories
deriving Repr, DecidableEq

/-- What is wrong with a pattern. -/
inductive Fault where
  | stars
  | directories
  | brackets
deriving Repr, DecidableEq

/-- The wording of a fault. -/
def Fault.message : Fault → String
  | .stars => "wildcards are either regular `*` or recursive `**`"
  | .directories => "recursive wildcards must form a single path component"
  | .brackets => "invalid range pattern"

/-- A fault and the number of the character it was found at. -/
structure PatternError where
  position : Nat
  fault : Fault
deriving Repr, DecidableEq

/-- What is wrong with a pattern, and where. -/
def PatternError.message (e : PatternError) : String :=
  "Pattern syntax error near position " ++ toString e.position ++ ": " ++ e.fault.message

/-! ## Reading -/

/-- The elements of a bracketed set: two characters around a hyphen are a range. -/
def charSets : List Char → List CharSet
  | first :: '-' :: last :: rest => .range first last :: charSets rest
  | c :: rest => .one c :: charSets rest
  | [] => []

/-- The inside of a bracketed set and what follows it. The first character belongs to the set even
if it is a closing bracket. -/
def closeBracket : List Char → Option (List Char × List Char)
  | [] => none
  | first :: rest =>
    match rest.dropWhile (· != ']') with
    | [] => none
    | _ :: after => some (first :: rest.takeWhile (· != ']'), after)

/-- The set that starts after an opening bracket, and what follows it. -/
def bracketed : List Char → Option (Token × List Char)
  | '!' :: rest => (closeBracket rest).map fun (inside, after) => (.noneOf (charSets inside), after)
  | chars => (closeBracket chars).map fun (inside, after) => (.anyOf (charSets inside), after)

/-- Reads what is left of a pattern, of which `chars` has at most `fuel` characters. `before` is the
character in front of it and `position` their number. -/
def tokensFrom (fuel position : Nat) (before : Option Char) (chars : List Char) :
    Except PatternError (List Token) :=
  match fuel, chars with
  | 0, _ | _, [] => .ok []
  | fuel + 1, '?' :: rest =>
    (.anyChar :: ·) <$> tokensFrom fuel (position + 1) (some '?') rest
  | fuel + 1, '*' :: rest =>
    let stars := 1 + (rest.takeWhile (· == '*')).length
    let rest := rest.dropWhile (· == '*')
    if stars = 1 then (.anyText :: ·) <$> tokensFrom fuel (position + 1) (some '*') rest
    else if 2 < stars then .error ⟨position + 2, .stars⟩
    else if before.any (· != '/') then .error ⟨position - 1, .directories⟩
    else
      match rest with
      | [] => .ok [.anyDirectories]
      | '/' :: rest => (.anyDirectories :: ·) <$> tokensFrom fuel (position + 3) (some '/') rest
      | _ :: _ => .error ⟨position + 2, .directories⟩
  | fuel + 1, '[' :: rest =>
    match bracketed rest with
    | none => .error ⟨position, .brackets⟩
    | some (token, after) =>
      let taken := rest.length - after.length + 1
      (token :: ·) <$> tokensFrom fuel (position + taken) (some ']') after
  | fuel + 1, c :: rest => (.char c :: ·) <$> tokensFrom fuel (position + 1) (some c) rest

/-- The elements of a pattern. -/
def tokens (pattern : List Char) : Except PatternError (List Token) :=
  tokensFrom pattern.length 0 none pattern

/-! ## Components -/

/-- One component of a pattern. -/
inductive Component where
  /-- Exactly this name. -/
  | name (text : String)
  /-- Every name that fits. -/
  | wild (tokens : List Token)
  /-- Any number of directories. -/
  | directories
deriving Repr, DecidableEq

/-- The character that an element stands for, if there is only one. -/
def Token.char? : Token → Option Char
  | .char c => some c
  | _ => none

/-- The name that is written without wildcards. -/
def plainName? (tokens : List Token) : Option String :=
  (tokens.mapM Token.char?).map String.ofList

/-- A component from its elements. -/
def Component.ofTokens (tokens : List Token) : Component :=
  if tokens = [.anyDirectories] then .directories
  else
    match plainName? tokens with
    | some text => .name text
    | none => .wild tokens

/-- Whether an element of a pattern stands for any number of characters. -/
def Token.isOpen : Token → Bool
  | .anyText | .anyDirectories => true
  | _ => false

/-- Whether an element of a pattern that stands for one character may stand for `c`. -/
def Token.has (c : Char) : Token → Bool
  | .char d => c == d
  | .anyChar => true
  | .anyOf sets => sets.any (·.has c)
  | .noneOf sets => !sets.any (·.has c)
  | .anyText | .anyDirectories => false

/-- How a name stands to the elements of a pattern. A name that has too few characters for them
stays so when characters are taken off its front. -/
inductive Fit where
  | fits
  | differs
  | tooShort
deriving Repr, DecidableEq

/-- The first of a name and its ends that `fit` has a final word on. -/
def firstFit (fit : List Char → Fit) : List Char → Fit
  | [] => fit []
  | c :: name =>
    match fit (c :: name) with
    | .differs => firstFit fit name
    | final => final

/-- How a name stands to the elements of a pattern. Where an element stands for any number of
characters it takes as few of them as it can; taking more could not help what comes after. -/
def fit : List Token → List Char → Fit
  | [], name => if name.isEmpty then .fits else .differs
  | token :: tokens, name =>
    if token.isOpen then firstFit (fit tokens) name
    else
      match name with
      | [] => .tooShort
      | c :: name => if token.has c then fit tokens name else .differs

/-- Whether a name fits the elements of a pattern. -/
def fits (tokens : List Token) (name : List Char) : Bool := fit tokens name == .fits

/-- Whether a name can be divided among the elements of a pattern: one character for each, any
number of characters for an open one. -/
def Divides : List Token → List Char → Prop
  | [], name => name = []
  | token :: tokens, name =>
    if token.isOpen then ∃ rest, rest <:+ name ∧ Divides tokens rest
    else ∃ c rest, name = c :: rest ∧ token.has c = true ∧ Divides tokens rest

/-- The word is had at one of the ends of a name; every longer end differs. -/
theorem firstFit_spec (fit : List Char → Fit) (name : List Char) :
    ∃ stop, stop <:+ name ∧ firstFit fit name = fit stop ∧
      (firstFit fit name = .differs → stop = []) ∧
      ∀ rest, rest <:+ name → rest <:+ stop ∨ fit rest = .differs := by
  induction name with
  | nil => exact ⟨[], List.suffix_refl _, rfl, fun _ => rfl, fun rest h => Or.inl h⟩
  | cons c name ih =>
    by_cases hd : fit (c :: name) = .differs
    · obtain ⟨stop, hs, hv, hnil, hall⟩ := ih
      have hstep : firstFit fit (c :: name) = firstFit fit name := by rw [firstFit, hd]
      rw [hstep]
      refine ⟨stop, hs.trans (List.suffix_cons _ _), hv, hnil, fun rest h => ?_⟩
      rcases List.suffix_cons_iff.mp h with rfl | h
      · exact Or.inr hd
      · exact hall rest h
    · have hstep : firstFit fit (c :: name) = fit (c :: name) := by
        cases hf : fit (c :: name) <;> simp_all [firstFit]
      rw [hstep]
      exact ⟨c :: name, List.suffix_refl _, rfl, fun h => absurd h hd, fun rest h => Or.inl h⟩

/-- A name fits if it can be divided, and no end of a name that is too short can be divided. -/
theorem fit_spec (tokens : List Token) (name : List Char) :
    (fit tokens name = .fits ↔ Divides tokens name) ∧
      (fit tokens name = .tooShort → ∀ rest, rest <:+ name → ¬ Divides tokens rest) := by
  induction tokens generalizing name with
  | nil => cases name <;> simp [fit, Divides]
  | cons token tokens ih =>
    by_cases hopen : token.isOpen = true
    · obtain ⟨stop, hs, hv, hnil, hall⟩ := firstFit_spec (fit tokens) name
      have hnone (hne : fit tokens stop ≠ .fits) (rest : List Char) (h : rest <:+ name) :
          ¬ Divides tokens rest := by
        intro hd
        have hfits := (ih rest).1.mpr hd
        rcases hall rest h with hr | hr
        · cases hw : fit tokens stop with
          | fits => exact hne hw
          | tooShort => exact (ih stop).2 hw rest hr hd
          | differs =>
            obtain rfl := hnil (hv.trans hw)
            obtain rfl := List.suffix_nil.mp hr
            exact hne hfits
        · rw [hfits] at hr
          cases hr
      simp only [fit, Divides, hopen, if_true, hv]
      refine ⟨⟨fun hf => ⟨stop, hs, (ih stop).1.mp hf⟩, fun ⟨rest, h, hd⟩ => ?_⟩,
        fun hf rest h ⟨rest', h', hd⟩ => ?_⟩
      · by_cases hf : fit tokens stop = .fits
        · exact hf
        · exact absurd hd (hnone hf rest h)
      · exact hnone (by simp [hf]) rest' (h'.trans h) hd
    · simp only [fit, Divides, hopen, Bool.false_eq_true, if_false]
      cases name with
      | nil => simp
      | cons c name =>
        by_cases hc : token.has c = true
        · simp only [hc, if_true]
          refine ⟨⟨fun hf => ⟨c, name, rfl, hc, (ih name).1.mp hf⟩, ?_⟩, ?_⟩
          · rintro ⟨c', rest, heq, -, hd⟩
            obtain ⟨rfl, rfl⟩ := List.cons.inj heq
            exact (ih name).1.mpr hd
          · rintro hf rest h ⟨c', rest', rfl, -, hd⟩
            refine (ih name).2 hf rest' ?_ hd
            rcases List.suffix_cons_iff.mp h with heq | h
            · exact (List.cons.inj heq).2 ▸ List.suffix_refl _
            · exact (List.suffix_cons _ _).trans h
        · simp only [hc, Bool.false_eq_true, if_false]
          refine ⟨⟨nofun, ?_⟩, nofun⟩
          rintro ⟨c', rest, heq, hc', -⟩
          obtain ⟨rfl, rfl⟩ := List.cons.inj heq
          exact absurd hc' hc

/-- A name fits exactly if it can be divided among the elements. -/
theorem fits_iff (tokens : List Token) (name : List Char) :
    fits tokens name = true ↔ Divides tokens name := by
  rw [← (fit_spec tokens name).1, fits, beq_iff_eq]

/-- Whether a file name fits a component. -/
def Component.accepts (component : Component) (name : String) : Bool :=
  match component with
  | .name text => name == text
  | .wild tokens => fits tokens name.toList
  | .directories => true

/-- A pattern: its components, where it starts, and whether it is for directories only. -/
structure Pattern where
  isAbsolute : Bool
  components : List Component
  directoriesOnly : Bool
deriving Repr

/-- The pieces between slashes; a slash at the end begins no further piece. -/
def patternPieces (chars : List Char) : List (List Char) :=
  let pieces := chars.splitOn '/'
  if pieces.getLast? = some [] then pieces.dropLast else pieces

/-- Reads a pattern. It has to be sound as a whole and component by component: a bracketed set that
holds a slash is neither one component nor two. -/
def Pattern.ofText (text : String) : Except PatternError Pattern := do
  let chars := text.toList
  let _ ← tokens chars
  let isAbsolute := chars.head? == some '/'
  let components ← (patternPieces (if isAbsolute then chars.drop 1 else chars)).mapM fun piece =>
    return Component.ofTokens (← tokens piece)
  return { isAbsolute, components, directoriesOnly := chars.getLast? == some '/' }

/-- Whether a text is to be read as a pattern rather than as a path. -/
def isPattern (text : String) : Bool :=
  text.toList.any fun c => c == '*' || c == '?' || c == '[' || c == '\x7b'

end Glob

end Files

end SchemaGrammar
