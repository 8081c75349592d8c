import Coverability.Json.Parser
import Coverability.Proofs.JsonTokens

/-!
# Reading back what is written

A value that is written, with or without blanks, is read back as it was. The proof goes over the tokens
of a value: both writers put down a text that is cut into these tokens, and the reader puts the tokens
together to the value again.
-/

namespace Coverability.Json

/-! ### The tokens of a value -/

mutual

/-- The tokens of the value as it is written. -/
def tokens : Json → List Token
  | .null => [.null]
  | .bool b => [.bool b]
  | .number n => [.number n]
  | .otherNumber text => [.otherNumber text]
  | .string text => [.string text]
  | .array items => .openBracket :: [Token.comma].intercalate (itemTokens items) ++ [.closeBracket]
  | .object members =>
    .openBrace :: [Token.comma].intercalate (memberTokens members) ++ [.closeBrace]

def itemTokens : List Json → List (List Token)
  | [] => []
  | item :: items => item.tokens :: itemTokens items

def memberTokens : List (Option String × Json) → List (List Token)
  | [] => []
  | (key, value) :: members => (.string key :: .colon :: value.tokens) :: memberTokens members

end

/-- Every number that is no plain natural number is written as one. -/
inductive Writable : Json → Prop where
  | null : Writable .null
  | bool (b : Bool) : Writable (.bool b)
  | number (n : ℕ) : Writable (.number n)
  | otherNumber {text : String} (h : Scans text.toList [.otherNumber text]) :
    Writable (.otherNumber text)
  | string (text : Option String) : Writable (.string text)
  | array {items : List Json} (h : ∀ item ∈ items, Writable item) : Writable (.array items)
  | object {members : List (Option String × Json)}
    (h : ∀ member ∈ members, Writable member.2) : Writable (.object members)

/-! ### Both writers put down the tokens -/

lemma forall₂_itemTokens {write : Json → List Char} {items : List Json}
    (h : ∀ item ∈ items, Scans (write item) item.tokens) :
    List.Forall₂ Scans (items.map write) (itemTokens items) := by
  induction items with
  | nil => exact .nil
  | cons item items ih =>
    exact .cons (h item (by simp)) (ih fun other ho => h other (by simp [ho]))

/-- `write` puts a value after the blanks `gap` of its member. -/
lemma forall₂_memberTokens {write : Json → List Char} {gap : List Char}
    (hgap : ∀ c ∈ gap, isBlank c) {members : List (Option String × Json)}
    (h : ∀ member ∈ members, Scans (write member.2) member.2.tokens) :
    List.Forall₂ Scans (members.map fun (key, value) => literal key ++ ':' :: (gap ++ write value))
      (memberTokens members) := by
  induction members with
  | nil => exact .nil
  | cons member members ih =>
    obtain ⟨key, value⟩ := member
    have hvalue : Scans (gap ++ write value) value.tokens :=
      (h (key, value) (by simp)).blanks hgap
    have hrest := hvalue.cons token?_colon
    exact .cons ((scans_literal key).append hrest fun _ _ => endsNumber_cons (by decide) _)
      (ih fun other ho => h other (by simp [ho]))

lemma compactItems_eq_map (items : List Json) : compactItems items = items.map compactChars := by
  induction items with
  | nil => rfl
  | cons item items ih => rw [compactItems, ih, List.map_cons]

lemma compactMembers_eq_map (members : List (Option String × Json)) :
    compactMembers members =
      members.map fun (key, value) => literal key ++ ':' :: ([] ++ compactChars value) := by
  induction members with
  | nil => rfl
  | cons member members ih => rw [compactMembers, ih, List.map_cons]; rfl

lemma prettyItems_eq_map (level : ℕ) (items : List Json) :
    prettyItems level items = items.map (prettyChars level) := by
  induction items with
  | nil => rfl
  | cons item items ih => rw [prettyItems, ih, List.map_cons]

lemma prettyMembers_eq_map (level : ℕ) (members : List (Option String × Json)) :
    prettyMembers level members =
      members.map fun (key, value) => literal key ++ ':' :: ([' '] ++ prettyChars level value) := by
  induction members with
  | nil => rfl
  | cons member members ih => rw [prettyMembers, ih, List.map_cons]; rfl

theorem scans_compactChars {value : Json} (h : value.Writable) :
    Scans (compactChars value) value.tokens := by
  induction h with
  | null => exact scans_of_token? fun _ _ => rfl
  | bool b => cases b <;> exact scans_of_token? fun _ _ => rfl
  | number n => exact scans_toDigits n
  | otherNumber h => exact h
  | string text => exact scans_literal text
  | array _ ih =>
    rw [compactChars, compactItems_eq_map, tokens]
    exact squareBrackets.scans_compact (forall₂_itemTokens ih)
  | object _ ih =>
    rw [compactChars, compactMembers_eq_map, tokens]
    exact curlyBrackets.scans_compact (forall₂_memberTokens (by simp) ih)

theorem scans_prettyChars {value : Json} (h : value.Writable) (level : ℕ) :
    Scans (prettyChars level value) value.tokens := by
  induction h generalizing level with
  | null => exact scans_of_token? fun _ _ => rfl
  | bool b => cases b <;> exact scans_of_token? fun _ _ => rfl
  | number n => exact scans_toDigits n
  | otherNumber h => exact h
  | string text => exact scans_literal text
  | array _ ih =>
    rw [prettyChars, prettyItems_eq_map, tokens]
    exact squareBrackets.scans_block level
      (forall₂_itemTokens fun item hi => ih item hi (level + 1))
  | object _ ih =>
    rw [prettyChars, prettyMembers_eq_map, tokens]
    exact curlyBrackets.scans_block level
      (forall₂_memberTokens (by simp [isBlank]) fun member hm => ih member hm (level + 1))

/-! ### The tokens give the value -/

lemma tokens_ne_closeBracket (value : Json) (rest left : List Token) :
    value.tokens ++ rest ≠ .closeBracket :: left := by
  cases value <;> simp [tokens]

lemma value?_array {steps : ℕ} {items : List Json} {inner rest : List Token}
    (h : items? steps inner = some (items, rest)) (hne : ∀ left, inner ≠ .closeBracket :: left) :
    value? (steps + 1) (.openBracket :: inner) = some (.array items, rest) := by
  rw [value?, h]
  · rfl
  · exact fun left heq => hne left heq

lemma value?_object {steps : ℕ} {members : List (Option String × Json)}
    {inner rest : List Token} (h : members? steps inner = some (members, rest))
    (hne : ∀ left, inner ≠ .closeBrace :: left) :
    value? (steps + 1) (.openBrace :: inner) = some (.object members, rest) := by
  rw [value?, h]
  · rfl
  · exact fun left heq => hne left heq

lemma itemTokens_cons_cons (item next : Json) (items : List Json) :
    [Token.comma].intercalate (itemTokens (item :: next :: items)) =
      item.tokens ++ .comma :: [Token.comma].intercalate (itemTokens (next :: items)) := by
  simp [itemTokens, List.intercalate_cons_cons]

lemma memberTokens_cons_cons (key : Option String) (value : Json) (next : Option String × Json)
    (members : List (Option String × Json)) :
    [Token.comma].intercalate (memberTokens ((key, value) :: next :: members)) =
      .string key :: .colon :: value.tokens ++
        .comma :: [Token.comma].intercalate (memberTokens (next :: members)) := by
  simp [memberTokens, List.intercalate_cons_cons]

lemma commaSeparated_ne_closeBracket {items : List Json} (hne : items ≠ [])
    (rest left : List Token) :
    [Token.comma].intercalate (itemTokens items) ++ .closeBracket :: rest ≠
      .closeBracket :: left := by
  match items, hne with
  | [item], _ => simpa [itemTokens] using tokens_ne_closeBracket item _ left
  | item :: next :: items, _ =>
    simpa [itemTokens_cons_cons] using tokens_ne_closeBracket item _ left

lemma commaSeparated_ne_closeBrace {members : List (Option String × Json)} (hne : members ≠ [])
    (rest left : List Token) :
    [Token.comma].intercalate (memberTokens members) ++ .closeBrace :: rest ≠
      .closeBrace :: left := by
  match members, hne with
  | [(key, value)], _ => simp [memberTokens]
  | (key, value) :: next :: members, _ => simp [memberTokens_cons_cons]

-- The induction is on the value. Each step of the reader is paid for by a token: by an opening bracket, or by the
-- comma before an item or a member.
mutual

/-- The steps that the reader gets are enough for the tokens of the value. -/
theorem value?_tokens : ∀ (value : Json) (steps : ℕ) (rest : List Token),
    2 * value.tokens.length ≤ steps → value? steps (value.tokens ++ rest) = some (value, rest)
  | .null, steps, rest, _ => by cases steps <;> rfl
  | .bool _, steps, rest, _ => by cases steps <;> rfl
  | .number _, steps, rest, _ => by cases steps <;> rfl
  | .otherNumber _, steps, rest, _ => by cases steps <;> rfl
  | .string _, steps, rest, _ => by cases steps <;> rfl
  | .array items, steps, rest, h => by
    simp only [tokens, List.length_append, List.length_cons] at h
    obtain ⟨steps, rfl⟩ : ∃ n, steps = n + 1 := Nat.exists_eq_add_one.2 (by omega)
    by_cases hne : items = []
    · subst hne
      rfl
    · have hread := items?_tokens items steps rest hne (by omega)
      simpa [tokens] using value?_array hread (commaSeparated_ne_closeBracket hne rest)
  | .object members, steps, rest, h => by
    simp only [tokens, List.length_append, List.length_cons] at h
    obtain ⟨steps, rfl⟩ : ∃ n, steps = n + 1 := Nat.exists_eq_add_one.2 (by omega)
    by_cases hne : members = []
    · subst hne
      rfl
    · have hread := members?_tokens members steps rest hne (by omega)
      simpa [tokens] using value?_object hread (commaSeparated_ne_closeBrace hne rest)

lemma items?_tokens : ∀ (items : List Json) (steps : ℕ) (rest : List Token), items ≠ [] →
    2 * ([Token.comma].intercalate (itemTokens items)).length + 1 ≤ steps →
      items? steps ([Token.comma].intercalate (itemTokens items) ++ .closeBracket :: rest) =
        some (items, rest)
  | [], _, _, hne, _ => absurd rfl hne
  | [item], steps, rest, _, h => by
    simp only [itemTokens, List.intercalate_singleton] at h ⊢
    obtain ⟨steps, rfl⟩ : ∃ n, steps = n + 1 := Nat.exists_eq_add_one.2 (by omega)
    rw [items?, value?_tokens item steps _ (by omega)]
  | item :: next :: items, steps, rest, _, h => by
    rw [itemTokens_cons_cons] at h ⊢
    simp only [List.length_append, List.length_cons] at h
    obtain ⟨steps, rfl⟩ : ∃ n, steps = n + 1 := Nat.exists_eq_add_one.2 (by omega)
    have hrest := items?_tokens (next :: items) steps rest (List.cons_ne_nil _ _) (by omega)
    rw [List.append_assoc, items?, value?_tokens item steps _ (by omega), List.cons_append]
    simp only [hrest, Option.map_some]

lemma members?_tokens : ∀ (members : List (Option String × Json)) (steps : ℕ)
    (rest : List Token), members ≠ [] →
    2 * ([Token.comma].intercalate (memberTokens members)).length + 1 ≤ steps →
      members? steps ([Token.comma].intercalate (memberTokens members) ++ .closeBrace :: rest) =
        some (members, rest)
  | [], _, _, hne, _ => absurd rfl hne
  | [(key, value)], steps, rest, _, h => by
    simp only [memberTokens, List.intercalate_singleton, List.length_cons] at h ⊢
    obtain ⟨steps, rfl⟩ : ∃ n, steps = n + 1 := Nat.exists_eq_add_one.2 (by omega)
    rw [List.cons_append, List.cons_append, members?, value?_tokens value steps _ (by omega)]
  | (key, value) :: next :: members, steps, rest, _, h => by
    rw [memberTokens_cons_cons] at h ⊢
    simp only [List.length_append, List.length_cons] at h
    obtain ⟨steps, rfl⟩ : ∃ n, steps = n + 1 := Nat.exists_eq_add_one.2 (by omega)
    have hrest := members?_tokens (next :: members) steps rest (List.cons_ne_nil _ _) (by omega)
    rw [List.append_assoc, List.cons_append, List.cons_append, members?,
      value?_tokens value steps _ (by omega), List.cons_append]
    simp only [hrest, Option.map_some]

end

/-! ### Both texts give the value -/

lemma parse?_of_scans {cs : List Char} {value : Json} (h : Scans cs value.tokens) :
    parse? (String.ofList cs) = some value := by
  have hscan : Token.scan? cs = some value.tokens := by
    simpa [Token.scan?] using h [] endsNumber_nil
  have hread := value?_tokens value (2 * value.tokens.length + 1) [] (Nat.le_succ _)
  simp only [List.append_nil] at hread
  simp [parse?, hscan, hread]

theorem parse?_compact {value : Json} (h : value.Writable) : parse? value.compact = some value :=
  parse?_of_scans (scans_compactChars h)

theorem parse?_pretty {value : Json} (h : value.Writable) : parse? value.pretty = some value :=
  parse?_of_scans (scans_prettyChars h 0)

end Coverability.Json
