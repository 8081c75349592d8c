import Coverability.Proofs.RuleGrammar

/-!
# The characters of names

Names are documented as words over the letters and digits of ASCII and the underscore, and the reader takes the letters
and numbers of every script. In ASCII the two are the same. A character beyond it either stands in a name or makes the
line malformed.
-/

namespace Coverability.Rule

/-- A documented character of names, `[A-Za-z0-9_]`. -/
def isDocumented (c : Char) : Bool :=
  c.isUpper || c.isLower || c.isDigit || c == '_'

/-- A character that may stand between the names of a rule. -/
def isSeparator (c : Char) : Bool :=
  isBlank c || c == '*' || c == '-' || c == '>'

def names (rule : Rule) : List String :=
  rule.source :: rule.targets.map Target.name

variable {c : Char} {cs cs' : List Char} {texts texts' : List (List Char)} {spelling : Spelling}
  {spellings : List Spelling}

lemma lt_of_isSeparator (h : isSeparator c) : c.toNat < 128 := by
  simp only [isSeparator, Bool.or_eq_true, isBlank_iff, beq_iff_eq] at h
  rcases h with (((rfl | rfl) | rfl) | rfl) | rfl <;> decide

lemma lt_of_isDocumented (h : isDocumented c) : c.toNat < 128 := by
  simp only [isDocumented, Bool.or_eq_true, beq_iff_eq] at h
  rcases h with ((hupper | hlower) | hdigit) | rfl
  · have hle : c.val ≤ 90 := (of_decide_eq_true hupper).2
    exact (UInt32.le_iff_toNat_le.mp hle).trans_lt (by decide)
  · have hle : c.val ≤ 122 := of_decide_eq_true (Bool.and_eq_true_iff.mp hlower).2
    exact (UInt32.le_iff_toNat_le.mp hle).trans_lt (by decide)
  · exact (lt_of_isDigit hdigit).trans (by decide)
  · decide

/-- In ASCII the name characters are the documented ones. -/
lemma isNameChar_eq_isDocumented (h : c.toNat < 128) : isNameChar c = isDocumented c :=
  forall_char_lt (q := fun c => isNameChar c = isDocumented c) (by decide +kernel) h

lemma isDocumented_iff : isDocumented c ↔ isNameChar c ∧ c.toNat < 128 := by
  constructor
  · intro h
    have hc := lt_of_isDocumented h
    exact ⟨isNameChar_eq_isDocumented hc ▸ h, hc⟩
  · rintro ⟨h, hc⟩
    exact isNameChar_eq_isDocumented hc ▸ h

/-! ### What a line is made of -/

/-- The text consists of these names, and of separators and digits around them. -/
structure MadeOf (cs : List Char) (texts : List (List Char)) : Prop where
  isName : ∀ text ∈ texts, IsName text
  subset : ∀ text ∈ texts, text ⊆ cs
  cover : ∀ c ∈ cs, isSeparator c ∨ c.isDigit ∨ ∃ text ∈ texts, c ∈ text

lemma IsName.madeOf (h : IsName cs) : MadeOf cs [cs] where
  isName := by simpa using h
  subset := by simp
  cover c hc := .inr (.inr ⟨cs, List.mem_singleton_self cs, hc⟩)

lemma madeOf_nil (h : ∀ c ∈ cs, isSeparator c ∨ c.isDigit) : MadeOf cs [] where
  isName := nofun
  subset := nofun
  cover c hc := (h c hc).imp_right .inl

lemma MadeOf.append (h : MadeOf cs texts) (h' : MadeOf cs' texts') : MadeOf (cs ++ cs') (texts ++ texts') where
  isName := List.forall_mem_append.mpr ⟨h.isName, h'.isName⟩
  subset := by
    refine List.forall_mem_append.mpr ⟨fun text htext => ?_, fun text htext => ?_⟩
    · exact List.subset_append_of_subset_left cs' (h.subset text htext)
    · exact List.subset_append_of_subset_right cs (h'.subset text htext)
  cover := by
    refine List.forall_mem_append.mpr ⟨fun c hc => ?_, fun c hc => ?_⟩
    · refine (h.cover c hc).imp_right (.imp_right ?_)
      rintro ⟨text, htext, hmem⟩
      exact ⟨text, List.mem_append_left _ htext, hmem⟩
    · refine (h'.cover c hc).imp_right (.imp_right ?_)
      rintro ⟨text, htext, hmem⟩
      exact ⟨text, List.mem_append_right _ htext, hmem⟩

lemma Blanks.madeOf (h : Blanks cs) : MadeOf cs [] :=
  madeOf_nil fun c hc => .inl (by simp [isSeparator, h c hc])

lemma MadeOf.cons (h : MadeOf cs texts) (hc : isSeparator c) : MadeOf (c :: cs) texts := by
  have hsingle : MadeOf [c] [] := madeOf_nil (by simp [hc])
  exact hsingle.append h

lemma SpellsTarget.madeOf (h : SpellsTarget cs spelling) : MadeOf cs [spelling.name] := by
  cases h with
  | single hname => exact hname.madeOf
  | multiple hdigits hbefore hafter hname =>
    have hmultiplicity : MadeOf _ [] := madeOf_nil fun c hc => .inr (hdigits.all c hc)
    exact hmultiplicity.append (hbefore.madeOf.append ((hafter.madeOf.append hname.madeOf).cons (by decide)))

lemma SpellsTargets.madeOf (h : SpellsTargets cs spellings) : MadeOf cs (spellings.map Spelling.name) := by
  induction h with
  | last h => exact h.madeOf
  | cons h _ hblanks _ ih => exact h.madeOf.append (hblanks.madeOf.append ih)

lemma SpellsRule.madeOf {source : List Char} (h : SpellsRule cs source spellings) :
    MadeOf cs (source :: spellings.map Spelling.name) := by
  obtain ⟨hsource, leading, before, after, text, trailing, hleading, hbefore, hafter, htrailing, htargets, rfl⟩ := h
  have htext : MadeOf text (spellings.map Spelling.name) := by
    rcases htargets with ⟨rfl, rfl⟩ | htargets
    · exact madeOf_nil nofun
    · exact htargets.madeOf
  have htail : MadeOf (after ++ (text ++ trailing)) (spellings.map Spelling.name) := by
    simpa using hafter.madeOf.append (htext.append htrailing.madeOf)
  have harrow := (htail.cons (c := '>') (by decide)).cons (c := '-') (by decide)
  exact hleading.madeOf.append (hsource.madeOf.append (hbefore.madeOf.append harrow))

lemma madeOf_of_parse {line : String} {rule : Rule} (h : parse line = .ok rule) :
    MadeOf line.toList (rule.names.map String.toList) := by
  obtain ⟨source, spellings, hderived, hsource, htargets⟩ := exists_spellsRule_of_body? (body?_of_parse h)
  have hnames : rule.names.map String.toList = source :: spellings.map Spelling.name := by
    simp [names, hsource, htargets, Function.comp_def, Spelling.name_target]
  exact hnames ▸ hderived.madeOf

lemma isNameChar_of_mem_names {line name : String} {rule : Rule} (h : parse line = .ok rule)
    (hname : name ∈ rule.names) : name ≠ "" ∧ ∀ c ∈ name.toList, c ∈ line.toList ∧ isNameChar c := by
  have hmade := madeOf_of_parse h
  have htext := List.mem_map_of_mem (f := String.toList) hname
  refine ⟨?_, fun c hc => ⟨hmade.subset _ htext hc, (hmade.isName _ htext).all c hc⟩⟩
  rintro rfl
  exact (hmade.isName _ htext).ne_nil rfl

lemma MadeOf.forall_isDocumented_iff (h : MadeOf cs texts) :
    (∀ text ∈ texts, ∀ c ∈ text, isDocumented c) ↔ ∀ c ∈ cs, c.toNat < 128 := by
  constructor
  · intro hall c hc
    rcases h.cover c hc with hseparator | hdigit | ⟨text, htext, hmem⟩
    · exact lt_of_isSeparator hseparator
    · exact (lt_of_isDigit hdigit).trans (by decide)
    · exact lt_of_isDocumented (hall text htext c hmem)
  · intro hlt text htext c hc
    exact isDocumented_iff.mpr ⟨(h.isName text htext).all c hc, hlt c (h.subset text htext hc)⟩

lemma MadeOf.isNameChar (h : MadeOf cs texts) (hc : c ∈ cs) (hseparator : ¬isSeparator c) : isNameChar c := by
  rcases h.cover c hc with hsep | hdigit | ⟨text, htext, hmem⟩
  · exact absurd hsep hseparator
  · exact isNameChar_of_isDigit hdigit
  · exact (h.isName text htext).all c hmem

lemma isNameChar_iff_of_le (h : 128 ≤ c.toNat) : isNameChar c ↔ Text.isAlphanumeric c := by
  have hne : c ≠ '_' := by
    rintro rfl
    exact absurd h (by decide)
  simp [isNameChar, hne]

/-- A name character is a name by itself, with an arrow behind it. -/
lemma parse_arrow (h : isNameChar c) : parse (String.ofList [c, '-', '>']) =
    .ok ⟨String.ofList [c, '-', '>'], String.ofList [c], []⟩ := by
  have hname : IsName [c] := ⟨List.cons_ne_nil _ _, by simpa using h⟩
  have hderived : SpellsRule [c, '-', '>'] [c] [] :=
    ⟨hname, [], [], [], [], [], nofun, nofun, nofun, nofun, .inl ⟨rfl, rfl⟩, rfl⟩
  exact parse_of_body? (by simpa using body?_of_spellsRule hderived)

/-- Just the name characters stand in the names of some line, also those beyond ASCII. -/
theorem isNameChar_iff_exists_parse :
    isNameChar c ↔ ∃ line rule, parse line = .ok rule ∧ ∃ name ∈ rule.names, c ∈ name.toList := by
  constructor
  · intro h
    exact ⟨_, _, parse_arrow h, _, List.mem_cons_self, by simp⟩
  · rintro ⟨line, rule, h, name, hname, hc⟩
    exact ((isNameChar_of_mem_names h hname).2 c hc).2

/-! ### Lines as they are documented -/

/-- The line is read with documented names only, and any other character than those of names and separators makes it
malformed. -/
structure ReadAsDocumented (line : String) : Prop where
  names : ∀ rule, parse line = .ok rule → ∀ name ∈ rule.names, ∀ c ∈ name.toList, isDocumented c
  malformed : ∀ c ∈ line.toList, ¬isDocumented c → ¬isSeparator c →
    ∃ fault, parse line = .error (.malformedRule line fault)

lemma readAsDocumented_of_malformed {line : String} {fault : RuleFault}
    (h : parse line = .error (.malformedRule line fault)) : ReadAsDocumented line where
  names rule hrule := by
    rw [h] at hrule
    contradiction
  malformed _ _ _ _ := ⟨fault, h⟩

/-- A line that is read is made of its names, so it is in ASCII just if they are documented. -/
lemma readAsDocumented_iff_of_parse {line : String} {rule : Rule} (h : parse line = .ok rule) :
    ReadAsDocumented line ↔ ∀ c ∈ line.toList, c.toNat < 128 := by
  have hmade := madeOf_of_parse h
  rw [← hmade.forall_isDocumented_iff, List.forall_mem_map]
  refine ⟨fun hread => hread.names rule h, fun hnames => ⟨?_, ?_⟩⟩
  · intro rule' h'
    cases h.symm.trans h'
    exact hnames
  · intro c hc hdocumented hseparator
    have hlt : c.toNat < 128 := hmade.forall_isDocumented_iff.mp (List.forall_mem_map.mpr hnames) c hc
    exact absurd (isDocumented_iff.mpr ⟨hmade.isNameChar hc hseparator, hlt⟩) hdocumented

/-- A line is read as documented just if it is in ASCII or malformed. Otherwise its names hold letters or numbers
beyond ASCII, since all names consist of name characters, and any other character beyond ASCII makes the line
malformed. -/
theorem readAsDocumented_iff (line : String) :
    (ReadAsDocumented line ↔
      (∀ c ∈ line.toList, c.toNat < 128) ∨ ∃ fault, parse line = .error (.malformedRule line fault)) ∧
    (∀ rule, parse line = .ok rule →
      ∀ name ∈ rule.names, name ≠ "" ∧ ∀ c ∈ name.toList, c ∈ line.toList ∧ isNameChar c) ∧
    ∀ c ∈ line.toList, 128 ≤ c.toNat → ¬Text.isAlphanumeric c →
      ∃ fault, parse line = .error (.malformedRule line fault) := by
  cases hparse : parse line with
  | ok rule =>
    rw [readAsDocumented_iff_of_parse hparse]
    refine ⟨by simp, ?_, fun c hc hle halphanumeric => ?_⟩
    · rintro _ ⟨⟩ name hname
      exact isNameChar_of_mem_names hparse hname
    · have hseparator : ¬isSeparator c := fun hsep => absurd (lt_of_isSeparator hsep) (not_lt.mpr hle)
      have hname : isNameChar c := (madeOf_of_parse hparse).isNameChar hc hseparator
      exact absurd ((isNameChar_iff_of_le hle).mp hname) halphanumeric
  | error e =>
    obtain ⟨fault, rfl⟩ := exists_fault_of_parse hparse
    exact ⟨iff_of_true (readAsDocumented_of_malformed hparse) (.inr ⟨fault, rfl⟩), nofun,
      fun _ _ _ _ => ⟨fault, rfl⟩⟩

/-- A rule whose source is a letter beyond ASCII. -/
def accented : Rule :=
  ⟨"é -> P", "é", [⟨1, "P"⟩]⟩

lemma parse_accented : parse accented.line = .ok accented := by
  decide +kernel

/-- Without the accent the line is read as documented, and with an arrow of a single character it is malformed. -/
theorem readAsDocumented_plain : ReadAsDocumented "e -> P" ∧ parse accented.line = .ok accented ∧
    ¬ReadAsDocumented accented.line ∧
    ∃ fault, parse "é → P" = .error (.malformedRule "é → P" fault) := by
  refine ⟨(readAsDocumented_iff "e -> P").1.mpr (.inl (by simp)), parse_accented, fun h => ?_,
    (readAsDocumented_iff "é → P").2.2 '→' (by decide +kernel) (by decide) (by decide +kernel)⟩
  rcases (readAsDocumented_iff accented.line).1.mp h with hlt | ⟨fault, hfault⟩
  · exact absurd (hlt 'é' (by decide +kernel)) (by decide)
  · rw [parse_accented] at hfault
    contradiction

/-- The line is read with a source that is not documented, and the letter in it does not make it malformed. -/
theorem not_readAsDocumented_accented :
    ¬(∀ rule, parse "é -> P" = .ok rule → ∀ name ∈ rule.names, ∀ c ∈ name.toList, isDocumented c) ∧
    ¬∀ c ∈ "é -> P".toList, ¬isDocumented c → ¬isSeparator c →
      ∃ fault, parse "é -> P" = .error (.malformedRule "é -> P" fault) := by
  have hparse : parse "é -> P" = .ok accented := parse_accented
  constructor
  · intro h
    exact absurd (h _ hparse "é" List.mem_cons_self 'é' (by decide +kernel)) (by decide)
  · intro h
    obtain ⟨fault, hfault⟩ := h 'é' (by decide +kernel) (by decide) (by decide)
    rw [hparse] at hfault
    contradiction

end Coverability.Rule
