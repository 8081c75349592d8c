import Coverability.Json.Printer
import Coverability.Json.Token
import Mathlib.Data.List.Forall2

/-!
# Scanning what is written

Every piece of text that the writer puts down, a numeral, a string literal, a word or punctuation, is
cut into the tokens it stands for, whatever follows it. A numeral needs that no further digit, fraction
or exponent follows. Blanks between the pieces change nothing.
-/

namespace Coverability.Json

/-! ### Numerals -/

/-- No numeral in front of `rest` goes on in it. -/
def EndsNumber (rest : List Char) : Prop :=
  ∀ c ∈ rest.head?, c.isDigit = false ∧ c ≠ '.' ∧ c ≠ 'e' ∧ c ≠ 'E'

lemma endsNumber_nil : EndsNumber [] := by
  simp [EndsNumber]

lemma endsNumber_cons {c : Char}
    (h : c.isDigit = false ∧ c ≠ '.' ∧ c ≠ 'e' ∧ c ≠ 'E') (rest : List Char) :
    EndsNumber (c :: rest) := by
  simpa [EndsNumber] using h

lemma EndsNumber.spanDigits {rest : List Char} (h : EndsNumber rest) {digits : List Char}
    (hd : ∀ c ∈ digits, c.isDigit) : Text.spanDigits (digits ++ rest) = (digits, rest) := by
  have hrest : rest.takeWhile Char.isDigit = [] ∧ rest.dropWhile Char.isDigit = rest := by
    cases rest with
    | nil => simp
    | cons c rest => simp [(h c (by simp)).1]
  rw [Text.spanDigits, List.takeWhile_append_of_pos hd, List.dropWhile_append_of_pos hd, hrest.1,
    hrest.2, List.append_nil]

lemma EndsNumber.fraction? {rest : List Char} (h : EndsNumber rest) :
    Json.fraction? rest = some ([], rest) := by
  cases rest with
  | nil => rfl
  | cons c rest =>
    have hc := (h c (by simp)).2.1
    unfold Json.fraction?
    split
    · next heq => simp_all
    · rfl

lemma EndsNumber.exponent? {rest : List Char} (h : EndsNumber rest) :
    Json.exponent? rest = some ([], rest) := by
  cases rest with
  | nil => rfl
  | cons c rest =>
    have hc := (h c (by simp)).2.2
    simp [Json.exponent?, hc.1, hc.2]

lemma digitsValue_eq_ofDigitChars (digits : List Char) :
    Text.digitsValue digits = Nat.ofDigitChars 10 digits 0 :=
  rfl

/-- Only the numeral of zero starts with a zero. -/
lemma head?_toDigits_ne {n : ℕ} (h : 0 < n) : (Nat.toDigits 10 n).head? ≠ some '0' := by
  induction n using Nat.base_induction 10 (by decide) with
  | single m hm =>
    have hne : ∀ m < 10, 0 < m → m.digitChar ≠ '0' := by decide
    rw [Nat.toDigits_of_lt_base hm]
    simpa using hne m hm h
  | digit m k hk hm ih =>
    rw [← Nat.toDigits_append_toDigits (by decide) hm hk,
      List.head?_append_of_ne_nil _ Nat.toDigits_ne_nil]
    exact ih hm

lemma isDigit_of_mem_toDigits {n : ℕ} {c : Char} (h : c ∈ Nat.toDigits 10 n) : c.isDigit :=
  Nat.isDigit_of_mem_toDigits (by decide : 0 < 10) (by decide) h

lemma whole?_toDigits (n : ℕ) {rest : List Char} (h : EndsNumber rest) :
    whole? (Nat.toDigits 10 n ++ rest) = some (Nat.toDigits 10 n, rest) := by
  unfold whole?
  rw [h.spanDigits fun c hc => isDigit_of_mem_toDigits hc]
  split
  · next heq => exact absurd (congrArg Prod.fst heq) Nat.toDigits_ne_nil
  · next heq =>
    have hds := congrArg Prod.fst heq
    rcases n.eq_zero_or_pos with rfl | hn
    · simp at hds
    · exact absurd (congrArg List.head? hds) (head?_toDigits_ne hn)
  · next heq => cases heq; rfl

lemma unsigned?_toDigits (n : ℕ) {rest : List Char} (h : EndsNumber rest) :
    unsigned? (Nat.toDigits 10 n ++ rest) = some (.number n, rest) := by
  simp only [unsigned?, whole?_toDigits n h, h.fraction?, h.exponent?, Option.bind_eq_bind,
    Option.bind_some, List.append_nil, digitsValue_eq_ofDigitChars, Nat.ofDigitChars_ten_toDigits]
  rfl

lemma token?_of_isDigit {c : Char} (h : c.isDigit) (rest : List Char) :
    token? (c :: rest) = unsigned? (c :: rest) := by
  unfold token?
  split <;> first | rfl | (next heq => cases heq; contradiction)

lemma token?_toDigits (n : ℕ) {rest : List Char} (h : EndsNumber rest) :
    token? (Nat.toDigits 10 n ++ rest) = some (.number n, rest) := by
  obtain ⟨c, cs, hcs⟩ := List.exists_cons_of_ne_nil (Nat.toDigits_ne_nil (n := n) (b := 10))
  have hc : c.isDigit := isDigit_of_mem_toDigits (n := n) (by simp [hcs])
  have hread := unsigned?_toDigits n h
  rw [hcs, List.cons_append] at hread ⊢
  rw [token?_of_isDigit hc, hread]

/-! ### String literals -/

/-- The text of a literal after its opening quote, and what follows the literal. -/
def contents? (cs : List Char) : Option (Option (List Char) × List Char) :=
  (pieces? cs).map fun (pieces, left) => (joinPieces? pieces, left)

lemma token?_quote (rest : List Char) :
    token? ('"' :: rest) =
      (contents? rest).map fun (text, left) => (.string (text.map String.ofList), left) := by
  simp [token?, contents?, Function.comp_def]

lemma joinPieces?_unit {n : ℕ} (h : isHighSurrogate n = false ∧ isLowSurrogate n = false)
    (pieces : List Piece) :
    joinPieces? (.unit n :: pieces) = (joinPieces? pieces).map (Char.ofNat n :: ·) := by
  rcases pieces with _ | ⟨_ | _, _⟩ <;> simp [joinPieces?, h]

/-- An escape by two digits, as the control characters without a short escape are written. -/
lemma hexValue?_hexChar {n : ℕ} (h : n < 32) :
    Text.hexValue? ['0', '0', hexChar (n / 16), hexChar (n % 16)] = some n := by
  have hall : ∀ n < 32,
      Text.hexValue? ['0', '0', hexChar (n / 16), hexChar (n % 16)] = some n := by decide
  exact hall n h

/-- Inside a literal, `cs` stands for the character `c`. -/
def Spells (cs : List Char) (c : Char) : Prop :=
  ∀ rest, contents? (cs ++ rest) =
    (contents? rest).map fun (text, left) => (text.map (c :: ·), left)

lemma spells_unit {n : ℕ} (h : n < 32) :
    Spells ['\\', 'u', '0', '0', hexChar (n / 16), hexChar (n % 16)] (Char.ofNat n) := by
  intro rest
  have hsurrogate : isHighSurrogate n = false ∧ isLowSurrogate n = false := by
    simp only [isHighSurrogate, isLowSurrogate, Bool.and_eq_false_iff, decide_eq_false_iff_not]
    omega
  simp only [List.cons_append, List.nil_append, contents?, pieces?, hexValue?_hexChar h]
  cases pieces? rest <;> simp [joinPieces?_unit hsurrogate]

lemma spells_of_pieces? {cs : List Char} {c : Char}
    (h : ∀ rest, pieces? (cs ++ rest) =
      (pieces? rest).map fun (pieces, left) => (.char c :: pieces, left)) : Spells cs c := by
  intro rest
  simp only [contents?, h]
  cases pieces? rest <;> simp [joinPieces?]

lemma spells_short {e c : Char} (hu : e ≠ 'u') (h : shortEscape? e = some c) :
    Spells ['\\', e] c := by
  refine spells_of_pieces? fun rest => ?_
  rw [List.cons_append, List.singleton_append, pieces?, h]
  · cases pieces? rest <;> rfl
  · exact fun _ _ _ _ _ he _ => hu he

lemma spells_self {c : Char} (hq : c ≠ '"') (hb : c ≠ '\\') (h : ¬c < ' ') : Spells [c] c := by
  refine spells_of_pieces? fun rest => ?_
  rw [List.singleton_append, pieces?, if_neg h]
  · cases pieces? rest <;> rfl
  · exact hq
  · exact fun _ _ _ _ _ hc _ => hb hc
  · exact fun _ _ hc _ => hb hc

/-- Every character, in whatever form it is written, is read back. -/
lemma spells_escaped (c : Char) : Spells (escaped c) c := by
  unfold escaped
  split_ifs with hq hb h₁ h₂ h₃ h₄ h₅ hc
  · exact spells_short (by decide) (congrArg some hq.symm)
  · exact spells_short (by decide) (congrArg some hb.symm)
  · exact spells_short (by decide) (congrArg some h₁.symm)
  · exact spells_short (by decide) (congrArg some h₂.symm)
  · exact spells_short (by decide) (congrArg some h₃.symm)
  · exact spells_short (by decide) (congrArg some h₄.symm)
  · exact spells_short (by decide) (congrArg some h₅.symm)
  · have hn : c.toNat < 32 := hc
    have hread := spells_unit hn
    rwa [Char.ofNat_toNat] at hread
  · exact spells_self hq hb hc

lemma contents?_flatMap_escaped (cs rest : List Char) :
    contents? (cs.flatMap escaped ++ '"' :: rest) = some (some cs, rest) := by
  induction cs with
  | nil => rfl
  | cons c cs ih =>
    rw [List.flatMap_cons, List.append_assoc, spells_escaped c, ih]
    rfl

lemma token?_literal (text : Option String) (rest : List Char) :
    token? (literal text ++ rest) = some (.string text, rest) := by
  cases text with
  | none => rfl
  | some text => simp [literal, token?_quote, contents?_flatMap_escaped]

/-! ### Punctuation and blanks -/

lemma token?_comma (rest : List Char) : token? (',' :: rest) = some (.comma, rest) :=
  rfl

lemma token?_colon (rest : List Char) : token? (':' :: rest) = some (.colon, rest) :=
  rfl

lemma scan?_blank {c : Char} (h : isBlank c) (rest : List Char) :
    Token.scan? (c :: rest) = Token.scan? rest := by
  rw [Token.scan?, if_pos h]

lemma scan?_blanks {blanks : List Char} (h : ∀ c ∈ blanks, isBlank c) (rest : List Char) :
    Token.scan? (blanks ++ rest) = Token.scan? rest := by
  induction blanks with
  | nil => rfl
  | cons c blanks ih =>
    rw [List.cons_append, scan?_blank (h c (by simp)), ih fun d hd => h d (by simp [hd])]

lemma isBlank_newLine (level : ℕ) : ∀ c ∈ newLine level, isBlank c := by
  intro c hc
  rcases List.mem_cons.1 hc with rfl | hc
  · decide
  · rw [List.eq_of_mem_replicate hc]
    decide

lemma isBlank_iff {c : Char} : isBlank c ↔ c = ' ' ∨ c = '\t' ∨ c = '\n' ∨ c = '\r' := by
  simp [isBlank, or_assoc]

lemma token?_of_isBlank {c : Char} (h : isBlank c) (rest : List Char) :
    token? (c :: rest) = none := by
  rcases isBlank_iff.1 h with rfl | rfl | rfl | rfl <;> rfl

lemma scan?_of_token? {cs rest : List Char} {token : Token}
    (h : token? cs = some (token, rest)) :
    Token.scan? cs = (Token.scan? rest).map (token :: ·) := by
  cases cs with
  | nil => contradiction
  | cons c cs =>
    have hblank : isBlank c = false := by
      by_contra hb
      rw [token?_of_isBlank (by simpa using hb)] at h
      contradiction
    rw [Token.scan?, if_neg (by simp [hblank])]
    split <;> simp_all

/-! ### Texts and their tokens -/

/-- The text `cs` is cut into `tokens`, whatever follows it, unless a numeral goes on. -/
def Scans (cs : List Char) (tokens : List Token) : Prop :=
  ∀ rest, EndsNumber rest → Token.scan? (cs ++ rest) = (Token.scan? rest).map (tokens ++ ·)

lemma scans_of_token? {cs : List Char} {token : Token}
    (h : ∀ rest, EndsNumber rest → token? (cs ++ rest) = some (token, rest)) :
    Scans cs [token] :=
  fun rest hr => scan?_of_token? (h rest hr)

lemma scans_toDigits (n : ℕ) : Scans (Nat.toDigits 10 n) [.number n] :=
  scans_of_token? fun _ => token?_toDigits n

lemma scans_literal (text : Option String) : Scans (literal text) [.string text] :=
  scans_of_token? fun rest _ => token?_literal text rest

lemma endsNumber_blanks {blanks rest : List Char} (h : ∀ c ∈ blanks, isBlank c)
    (hr : EndsNumber rest) : EndsNumber (blanks ++ rest) := by
  cases blanks with
  | nil => exact hr
  | cons c blanks =>
    apply endsNumber_cons
    rcases isBlank_iff.1 (h c (by simp)) with rfl | rfl | rfl | rfl <;> decide

lemma Scans.append {cs ds : List Char} {tokens more : List Token} (h : Scans cs tokens)
    (hd : Scans ds more) (hend : ∀ rest, EndsNumber rest → EndsNumber (ds ++ rest)) :
    Scans (cs ++ ds) (tokens ++ more) := by
  intro rest hr
  rw [List.append_assoc, h _ (hend rest hr), hd rest hr, Option.map_map]
  simp [Function.comp_def]

lemma Scans.cons {c : Char} {token : Token}
    (hc : ∀ rest, token? (c :: rest) = some (token, rest))
    {cs : List Char} {tokens : List Token} (h : Scans cs tokens) :
    Scans (c :: cs) (token :: tokens) := by
  intro rest hr
  rw [List.cons_append, scan?_of_token? (hc _), h rest hr, Option.map_map]
  rfl

lemma Scans.blanks {blanks : List Char} (hb : ∀ c ∈ blanks, isBlank c) {cs : List Char}
    {tokens : List Token} (h : Scans cs tokens) : Scans (blanks ++ cs) tokens := by
  intro rest hr
  rw [List.append_assoc, scan?_blanks hb, h rest hr]

lemma Scans.separated {gap : List Char} (hgap : ∀ c ∈ gap, isBlank c)
    {parts : List (List Char)} {groups : List (List Token)} (h : List.Forall₂ Scans parts groups) :
    Scans (separated (',' :: gap) parts) ([Token.comma].intercalate groups) := by
  induction h with
  | nil =>
    intro rest _
    simp [Json.separated]
  | @cons part group parts groups hp hrest ih =>
    cases hrest with
    | nil => simpa [Json.separated] using hp
    | @cons next nextGroup others otherGroups =>
      have hjoined := hp.append ((ih.blanks hgap).cons token?_comma) fun rest _ =>
        endsNumber_cons (by decide) _
      rw [Json.separated, List.intercalate_cons_cons]
      · simpa using hjoined
      · exact List.cons_ne_nil _ _

/-- A pair of characters that are tokens by themselves, the second of which ends a numeral. -/
structure Brackets (opening closing : Char) (openToken closeToken : Token) : Prop where
  opens : ∀ rest, token? (opening :: rest) = some (openToken, rest)
  closes : ∀ rest, token? (closing :: rest) = some (closeToken, rest)
  ends : ∀ rest, EndsNumber (closing :: rest)

lemma squareBrackets : Brackets '[' ']' .openBracket .closeBracket where
  opens _ := rfl
  closes _ := rfl
  ends := endsNumber_cons (by decide)

lemma curlyBrackets : Brackets '\x7b' '\x7d' .openBrace .closeBrace where
  opens _ := rfl
  closes _ := rfl
  ends := endsNumber_cons (by decide)

namespace Brackets

variable {opening closing : Char} {openToken closeToken : Token}
  (b : Brackets opening closing openToken closeToken) {parts : List (List Char)}
  {groups : List (List Token)}
include b

lemma scans_enclosed {gap last : List Char} (hgap : ∀ c ∈ gap, isBlank c)
    (hlast : ∀ c ∈ last, isBlank c) (h : List.Forall₂ Scans parts groups) :
    Scans (opening :: gap ++ separated (',' :: gap) parts ++ last ++ [closing])
      (openToken :: [Token.comma].intercalate groups ++ [closeToken]) := by
  have hclose : Scans (last ++ [closing]) [closeToken] :=
    (scans_of_token? fun rest _ => b.closes rest).blanks hlast
  have hinner := (Scans.separated hgap h).append hclose fun rest _ => by
    simpa using endsNumber_blanks hlast (b.ends rest)
  simpa using (hinner.blanks hgap).cons b.opens

lemma scans_compact (h : List.Forall₂ Scans parts groups) :
    Scans (opening :: separated [','] parts ++ [closing])
      (openToken :: [Token.comma].intercalate groups ++ [closeToken]) := by
  have hnone : ∀ c ∈ ([] : List Char), isBlank c := by simp
  simpa using b.scans_enclosed hnone hnone h

lemma scans_block (level : ℕ) (h : List.Forall₂ Scans parts groups) :
    Scans (block level opening closing parts)
      (openToken :: [Token.comma].intercalate groups ++ [closeToken]) := by
  unfold block
  cases h with
  | nil => simpa using (scans_of_token? fun rest _ => b.closes rest).cons b.opens
  | cons hp hrest =>
    simpa using b.scans_enclosed (isBlank_newLine (level + 1)) (isBlank_newLine level)
      (.cons hp hrest)

end Brackets

end Coverability.Json
