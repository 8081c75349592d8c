import Coverability.Text.Digits

/-!
# JSON tokens

`Token.scan` cuts a text into tokens and drops the blanks between them. Inside a string literal an
escape of the form `\uXXXX` gives one unit of 16 bits, and two surrogate units in a row give one
character.
-/

namespace Coverability.Json

inductive Token where
  | openBrace
  | closeBrace
  | openBracket
  | closeBracket
  | comma
  | colon
  | null
  | bool (b : Bool)
  | number (n : Nat)
  /-- Any other number, as it is written. -/
  | otherNumber (text : String)
  /-- A string literal, `none` if it stands for no text. -/
  | string (text : Option String)
deriving DecidableEq, Repr

inductive Piece where
  /-- A character, written as it is or by a short escape. -/
  | char (c : Char)
  /-- A unit of 16 bits, written by its number. -/
  | unit (n : Nat)
deriving DecidableEq, Repr

def shortEscape? (c : Char) : Option Char :=
  match c with
  | '"' => some '"'
  | '\\' => some '\\'
  | '/' => some '/'
  | 'b' => some '\x08'
  | 'f' => some '\x0c'
  | 'n' => some '\n'
  | 'r' => some '\r'
  | 't' => some '\t'
  | _ => none

/-- Reads a string literal after its opening quote, and the quote that closes it. -/
def pieces? : List Char → Option (List Piece × List Char)
  | [] => none
  | '"' :: rest => some ([], rest)
  | '\\' :: 'u' :: d₁ :: d₂ :: d₃ :: d₄ :: rest => do
    let n ← Text.hexValue? [d₁, d₂, d₃, d₄]
    let (pieces, left) ← pieces? rest
    return (.unit n :: pieces, left)
  | '\\' :: e :: rest => do
    let c ← shortEscape? e
    let (pieces, left) ← pieces? rest
    return (.char c :: pieces, left)
  | c :: rest =>
    if c < ' ' then none
    else do
      let (pieces, left) ← pieces? rest
      return (.char c :: pieces, left)

def isHighSurrogate (n : Nat) : Bool :=
  0xd800 ≤ n && n ≤ 0xdbff

def isLowSurrogate (n : Nat) : Bool :=
  0xdc00 ≤ n && n ≤ 0xdfff

/-- The characters of a literal, `none` if a surrogate lacks its partner. -/
def joinPieces? : List Piece → Option (List Char)
  | [] => some []
  | .char c :: pieces => (joinPieces? pieces).map (c :: ·)
  | .unit n :: .unit m :: pieces =>
    if isHighSurrogate n then
      if isLowSurrogate m then
        (joinPieces? pieces).map
          (Char.ofNat (0x10000 + (n - 0xd800) * 0x400 + (m - 0xdc00)) :: ·)
      else none
    else if isLowSurrogate n then none
    else (joinPieces? (.unit m :: pieces)).map (Char.ofNat n :: ·)
  | .unit n :: pieces =>
    if isHighSurrogate n || isLowSurrogate n then none
    else (joinPieces? pieces).map (Char.ofNat n :: ·)

def fraction? : List Char → Option (List Char × List Char)
  | '.' :: rest =>
    match Text.spanDigits rest with
    | ([], _) => none
    | (digits, left) => some ('.' :: digits, left)
  | cs => some ([], cs)

def exponentSign : List Char → List Char × List Char
  | '+' :: rest => (['+'], rest)
  | '-' :: rest => (['-'], rest)
  | cs => ([], cs)

def exponent? : List Char → Option (List Char × List Char)
  | [] => some ([], [])
  | c :: rest =>
    if c = 'e' ∨ c = 'E' then
      let (sign, rest) := exponentSign rest
      match Text.spanDigits rest with
      | ([], _) => none
      | (digits, left) => some (c :: sign ++ digits, left)
    else some ([], c :: rest)

/-- Reads the digits before the fraction: a zero, or digits that start with no zero. -/
def whole? (cs : List Char) : Option (List Char × List Char) :=
  match Text.spanDigits cs with
  | ([], _) => none
  | ('0' :: _ :: _, _) => none
  | (digits, rest) => some (digits, rest)

def unsigned? (cs : List Char) : Option (Token × List Char) := do
  let (whole, rest) ← whole? cs
  let (fraction, rest) ← fraction? rest
  let (exponent, rest) ← exponent? rest
  match fraction ++ exponent with
  | [] => return (.number (Text.digitsValue whole), rest)
  | tail => return (.otherNumber (String.ofList (whole ++ tail)), rest)

/-- Reads a number with a minus sign, after the sign. -/
def negative? (cs : List Char) : Option (Token × List Char) := do
  let (whole, rest) ← whole? cs
  let (fraction, rest) ← fraction? rest
  let (exponent, rest) ← exponent? rest
  return (.otherNumber (String.ofList ('-' :: whole ++ fraction ++ exponent)), rest)

def token? : List Char → Option (Token × List Char)
  | '\x7b' :: rest => some (.openBrace, rest)
  | '\x7d' :: rest => some (.closeBrace, rest)
  | '[' :: rest => some (.openBracket, rest)
  | ']' :: rest => some (.closeBracket, rest)
  | ',' :: rest => some (.comma, rest)
  | ':' :: rest => some (.colon, rest)
  | 'n' :: 'u' :: 'l' :: 'l' :: rest => some (.null, rest)
  | 't' :: 'r' :: 'u' :: 'e' :: rest => some (.bool true, rest)
  | 'f' :: 'a' :: 'l' :: 's' :: 'e' :: rest => some (.bool false, rest)
  | '"' :: rest =>
    (pieces? rest).map fun (pieces, left) =>
      (.string ((joinPieces? pieces).map String.ofList), left)
  | '-' :: rest => negative? rest
  | cs => unsigned? cs

/-- Whether the character may stand between tokens. -/
def isBlank (c : Char) : Bool :=
  c == ' ' || c == '\t' || c == '\n' || c == '\r'

theorem length_le_of_pieces? {cs rest : List Char} {pieces : List Piece}
    (h : pieces? cs = some (pieces, rest)) : rest.length ≤ cs.length := by
  fun_induction pieces? cs generalizing pieces with
  | case1 => contradiction
  | case2 => simp_all
  | case3 d₁ d₂ d₃ d₄ tail ih =>
    simp only [Option.bind_eq_bind, Option.bind_eq_some_iff] at h
    obtain ⟨n, _, ⟨more, left⟩, hp, he⟩ := h
    cases he
    have := ih hp
    simp only [List.length_cons] at this ⊢
    omega
  | case4 e tail _ ih =>
    simp only [Option.bind_eq_bind, Option.bind_eq_some_iff] at h
    obtain ⟨c, _, ⟨more, left⟩, hp, he⟩ := h
    cases he
    have := ih hp
    simp only [List.length_cons] at this ⊢
    omega
  | case5 => contradiction
  | case6 c tail _ _ _ _ ih =>
    simp only [Option.bind_eq_bind, Option.bind_eq_some_iff] at h
    obtain ⟨⟨more, left⟩, hp, he⟩ := h
    cases he
    have := ih hp
    simp only [List.length_cons] at this ⊢
    omega

theorem length_lt_of_whole? {cs digits rest : List Char} (h : whole? cs = some (digits, rest)) :
    rest.length < cs.length := by
  have hlen := Text.length_spanDigits cs
  unfold whole? at h
  split at h
  · contradiction
  · contradiction
  · next ds left hne _ hs =>
    cases h
    have hpos := List.length_pos_iff.2 hne
    simp only [hs] at hlen
    omega

theorem length_le_of_fraction? {cs part rest : List Char} (h : fraction? cs = some (part, rest)) :
    rest.length ≤ cs.length := by
  unfold fraction? at h
  split at h
  · next tail =>
    have hlen := Text.length_spanDigits tail
    split at h
    · contradiction
    · next ds left _ hs =>
      cases h
      rw [hs] at hlen
      simp only [List.length_cons] at hlen ⊢
      omega
  · cases h
    exact Nat.le_refl _

theorem length_exponentSign_le (cs : List Char) : (exponentSign cs).2.length ≤ cs.length := by
  unfold exponentSign
  split <;> simp

theorem length_le_of_exponent? {cs part rest : List Char} (h : exponent? cs = some (part, rest)) :
    rest.length ≤ cs.length := by
  unfold exponent? at h
  split at h
  · cases h
    exact Nat.le_refl _
  · next c tail =>
    split at h
    · have hsign := length_exponentSign_le tail
      have hlen := Text.length_spanDigits (exponentSign tail).2
      simp only at h
      split at h
      · contradiction
      · next ds left _ hs =>
        cases h
        rw [hs] at hlen
        simp only [List.length_cons] at hlen ⊢
        omega
    · cases h
      exact Nat.le_refl _

theorem length_lt_of_unsigned? {cs rest : List Char} {token : Token}
    (h : unsigned? cs = some (token, rest)) : rest.length < cs.length := by
  simp only [unsigned?, Option.bind_eq_bind, Option.bind_eq_some_iff] at h
  obtain ⟨⟨w, r₁⟩, hw, ⟨f, r₂⟩, hf, ⟨e, r₃⟩, he, h⟩ := h
  have h₁ := length_lt_of_whole? hw
  have h₂ := length_le_of_fraction? hf
  have h₃ := length_le_of_exponent? he
  simp only at h₁ h₂ h₃ h
  split at h <;> cases h <;> omega

theorem length_lt_of_negative? {cs rest : List Char} {token : Token}
    (h : negative? cs = some (token, rest)) : rest.length < cs.length := by
  simp only [negative?, Option.bind_eq_bind, Option.bind_eq_some_iff] at h
  obtain ⟨⟨w, r₁⟩, hw, ⟨f, r₂⟩, hf, ⟨e, r₃⟩, he, h⟩ := h
  have h₁ := length_lt_of_whole? hw
  have h₂ := length_le_of_fraction? hf
  have h₃ := length_le_of_exponent? he
  cases h
  simp only at h₁ h₂ h₃ ⊢
  omega

theorem length_lt_of_token? {cs rest : List Char} {token : Token}
    (h : token? cs = some (token, rest)) : rest.length < cs.length := by
  unfold token? at h
  split at h
  case h_10 =>
    simp only [Option.map_eq_some_iff] at h
    obtain ⟨⟨pieces, left⟩, hp, he⟩ := h
    cases he
    have := length_le_of_pieces? hp
    simp only [List.length_cons]
    omega
  case h_11 =>
    have := length_lt_of_negative? h
    simp only [List.length_cons]
    omega
  case h_12 => exact length_lt_of_unsigned? h
  all_goals
    cases h
    simp only [List.length_cons]
    omega

def Token.scan? (cs : List Char) : Option (List Token) :=
  match cs with
  | [] => some []
  | c :: rest =>
    if isBlank c then Token.scan? rest
    else
      match h : token? (c :: rest) with
      | none => none
      | some (token, left) =>
        have := length_lt_of_token? h
        (Token.scan? left).map (token :: ·)
termination_by cs.length
decreasing_by
  · exact Nat.lt_succ_self rest.length
  · assumption

end Coverability.Json
