import Coverability.NetError
import Coverability.Rule.Basic
import Coverability.Text.Alphanumeric
import Coverability.Text.Digits
import Coverability.Text.Space

/-!
# Reading rules

`Rule.parse` reads one line, and `Rule.parseBlock` a text of one or several lines. A target
is a name, or a multiplicity, a star and a name; a numeral that no star follows is itself a name.
-/

namespace Coverability.Rule

/-- Whether the character separates the parts of a rule. -/
def isBlank (c : Char) : Bool :=
  c == ' ' || c == '\t'

/-- Whether the character may occur in a name. -/
def isNameChar (c : Char) : Bool :=
  Text.isAlphanumeric c || c == '_'

/-- The input after its leading blanks. -/
def skipBlanks (cs : List Char) : List Char :=
  cs.dropWhile isBlank

/-- Reads a name: the longest nonempty run of name characters. -/
def name? (cs : List Char) : Option (String × List Char) :=
  match cs.takeWhile isNameChar with
  | [] => none
  | name => some (String.ofList name, cs.dropWhile isNameChar)

/-- Reads a multiplicity of at most 32 bits, the star after it and the blanks around the star. -/
def multiplicity? (cs : List Char) : Option (UInt32 × List Char) :=
  match Text.spanDigits cs with
  | ([], _) => none
  | (digits, rest) =>
    if Text.digitsValue digits < UInt32.size then
      match skipBlanks rest with
      | '*' :: rest => some (UInt32.ofNat (Text.digitsValue digits), skipBlanks rest)
      | _ => none
    else none

/-- Reads a target. -/
def target? (cs : List Char) : Option (Target × List Char) :=
  let (weight, rest) := (multiplicity? cs).getD (1, cs)
  (name? rest).map fun (name, rest) => (⟨weight, name⟩, rest)

theorem length_lt_of_name? {cs rest : List Char} {name : String} (h : name? cs = some (name, rest)) :
    rest.length < cs.length := by
  unfold name? at h
  split at h
  · simp at h
  · next hne =>
    simp only [Option.some.injEq, Prod.mk.injEq] at h
    have hlen := congrArg List.length (List.takeWhile_append_dropWhile (p := isNameChar) (l := cs))
    have hpos := List.length_pos_iff.2 hne
    simp only [List.length_append] at hlen
    rw [← h.2]
    omega

theorem length_skipBlanks_le (cs : List Char) : (skipBlanks cs).length ≤ cs.length :=
  (List.dropWhile_sublist _).length_le

theorem length_le_of_multiplicity? {cs rest : List Char} {weight : UInt32}
    (h : multiplicity? cs = some (weight, rest)) : rest.length ≤ cs.length := by
  unfold multiplicity? at h
  split at h
  · simp at h
  · next digits left _ hs =>
    have h3 := Text.length_spanDigits cs
    rw [hs] at h3
    split at h
    · split at h
      · next after hstar =>
        simp only [Option.some.injEq, Prod.mk.injEq] at h
        have h1 := length_skipBlanks_le after
        have h2 := length_skipBlanks_le left
        rw [hstar, List.length_cons] at h2
        rw [← h.2]
        simp only at h3
        omega
      · simp at h
    · simp at h

theorem length_lt_of_target? {cs rest : List Char} {target : Target}
    (h : target? cs = some (target, rest)) : rest.length < cs.length := by
  simp only [target?, Option.map_eq_some_iff, Prod.mk.injEq] at h
  obtain ⟨⟨name, left⟩, hname, _, rfl⟩ := h
  have h1 := length_lt_of_name? hname
  cases hm : multiplicity? cs with
  | none => simpa [hm] using h1
  | some pair =>
    obtain ⟨weight, after⟩ := pair
    simp only [hm, Option.getD_some] at h1
    exact Nat.lt_of_lt_of_le h1 (length_le_of_multiplicity? hm)

/-- Reads targets that each follow at least one blank, and stops before the first blank that no
target follows. -/
def furtherTargets (cs : List Char) : List Target × List Char :=
  match cs with
  | [] => ([], [])
  | c :: rest =>
    if isBlank c then
      match h : target? (skipBlanks rest) with
      | none => ([], c :: rest)
      | some (target, left) =>
        have := length_lt_of_target? h
        have := length_skipBlanks_le rest
        let (targets, left) := furtherTargets left
        (target :: targets, left)
    else ([], c :: rest)
termination_by cs.length

/-- Reads the targets of a rule, which may be none. -/
def readTargets (cs : List Char) : List Target × List Char :=
  match target? cs with
  | none => ([], cs)
  | some (target, rest) =>
    let (more, rest) := furtherTargets rest
    (target :: more, rest)

/-- Reads the longest rule at the start of the input: its source, its targets and the rest. -/
def body? (cs : List Char) : Option ((String × List Target) × List Char) := do
  let (source, rest) ← name? (skipBlanks cs)
  match skipBlanks rest with
  | '-' :: '>' :: rest =>
    let (targets, rest) := readTargets (skipBlanks rest)
    return ((source, targets), skipBlanks rest)
  | _ => none

/-- Reads a line that is one rule. -/
def parse (line : String) : Except NetError Rule :=
  match body? line.toList with
  | none => .error (.malformedRule line .shape)
  | some ((source, targets), []) => .ok { line, source, targets }
  | some (_, rest) =>
    .error (.malformedRule line (.unexpected (String.ofList (Text.trim rest))))

/-- The lines of a text without surrounding white space, less those that are empty or start with
a hash. -/
def ruleLines (text : String) : List String :=
  ((Text.lines text.toList).map Text.trim).filter (fun line => line ≠ [] ∧ line.head? ≠ some '#')
    |>.map String.ofList

/-- Reads a text that is one rule, or a block of several lines, among which empty lines and comments
are skipped. -/
def parseBlock (text : String) : Except NetError (List Rule) :=
  if '\n' ∈ text.toList then (ruleLines text).mapM parse
  else return [← parse (String.ofList (Text.trim text.toList))]

end Coverability.Rule
