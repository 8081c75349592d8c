import Coverability.Proofs.RuleBlocks

/-!
# The grammar of rules

A rule line is a name, an arrow, and targets between blanks; a target is a name, perhaps behind a multiplicity and a
star. A numeral is also a name, so the reader has to look beyond the blanks that follow it. It reads exactly the lines
of the grammar, each of which has a single derivation.
-/

namespace Coverability.Rule

/-! ### The grammar -/

def Blanks (cs : List Char) : Prop :=
  ∀ c ∈ cs, isBlank c

/-- A nonempty run of name characters. Behind every name of a rule stands some other character or the end of the
line, so that the run is maximal. -/
structure IsName (cs : List Char) : Prop where
  ne_nil : cs ≠ []
  all : ∀ c ∈ cs, isNameChar c

/-- The digits of a multiplicity of at most 32 bits, which may start with zeros. -/
structure IsMultiplicity (cs : List Char) : Prop where
  ne_nil : cs ≠ []
  all : ∀ c ∈ cs, c.isDigit
  le : Text.digitsValue cs ≤ 4294967295

/-- How a target is spelled: by a name, and the digits of its multiplicity if there are any. -/
structure Spelling where
  digits : Option (List Char)
  name : List Char

def Spelling.target : Spelling → Target
  | ⟨none, name⟩ => ⟨1, String.ofList name⟩
  | ⟨some digits, name⟩ => ⟨UInt32.ofNat (Text.digitsValue digits), String.ofList name⟩

/-- The text `cs` is a target. -/
inductive SpellsTarget : List Char → Spelling → Prop
  | single {name : List Char} (hname : IsName name) : SpellsTarget name ⟨none, name⟩
  | multiple {digits before after name : List Char} (hdigits : IsMultiplicity digits) (hbefore : Blanks before)
      (hafter : Blanks after) (hname : IsName name) :
      SpellsTarget (digits ++ (before ++ '*' :: (after ++ name))) ⟨some digits, name⟩

/-- The text `cs` lists targets, each but the first behind at least one blank. -/
inductive SpellsTargets : List Char → List Spelling → Prop
  | last {cs : List Char} {spelling : Spelling} (h : SpellsTarget cs spelling) : SpellsTargets cs [spelling]
  | cons {cs blanks more : List Char} {spelling : Spelling} {spellings : List Spelling}
      (h : SpellsTarget cs spelling) (hne : blanks ≠ []) (hblanks : Blanks blanks)
      (hmore : SpellsTargets more spellings) : SpellsTargets (cs ++ (blanks ++ more)) (spelling :: spellings)

/-- The text `cs` is a rule with this source and these targets, which may be none. -/
def SpellsRule (cs source : List Char) (spellings : List Spelling) : Prop :=
  IsName source ∧ ∃ leading before after text trailing, Blanks leading ∧ Blanks before ∧ Blanks after ∧
    Blanks trailing ∧ (text = [] ∧ spellings = [] ∨ SpellsTargets text spellings) ∧
    cs = leading ++ (source ++ (before ++ '-' :: '>' :: (after ++ (text ++ trailing))))

/-! ### Characters and runs -/

variable {p : Char → Bool} {c : Char} {cs rest run blanks before after name digits : List Char}
  {spelling : Spelling} {spellings : List Spelling}

lemma isBlank_iff : isBlank c ↔ c = ' ' ∨ c = '\t' := by
  simp [isBlank]

/-- What holds of the code points below a bound holds of their characters. -/
lemma forall_char_lt {n : Nat} {q : Char → Prop} (h : ∀ k < n, q (Char.ofNat k)) (hc : c.toNat < n) : q c := by
  have hq := h c.toNat hc
  rwa [Char.ofNat_toNat] at hq

lemma lt_of_isDigit (h : c.isDigit) : c.toNat < 58 := by
  have hle : c.val ≤ 57 := of_decide_eq_true (Bool.and_eq_true_iff.mp h).2
  exact Nat.lt_succ_of_le (UInt32.le_iff_toNat_le.mp hle)

lemma isNameChar_of_isDigit (h : c.isDigit) : isNameChar c :=
  forall_char_lt (q := fun c => c.isDigit → isNameChar c) (by decide) (lt_of_isDigit h) h

lemma isNameChar_eq_false_of_isBlank (h : isBlank c) : isNameChar c = false := by
  rcases isBlank_iff.mp h with rfl | rfl <;> decide

/-- No run of such characters goes on into `rest`. -/
def Ends (p : Char → Bool) (rest : List Char) : Prop :=
  ∀ c ∈ rest.head?, p c = false

lemma ends_nil : Ends p [] := by
  simp [Ends]

lemma ends_cons (h : p c = false) : Ends p (c :: rest) := by
  simpa [Ends] using h

lemma Ends.takeWhile_eq (h : Ends p rest) : rest.takeWhile p = [] := by
  cases rest with
  | nil => rfl
  | cons c rest => simp [h c (by simp)]

lemma Ends.dropWhile_eq (h : Ends p rest) : rest.dropWhile p = rest := by
  cases rest with
  | nil => rfl
  | cons c rest => simp [h c (by simp)]

lemma Ends.takeWhile_append (h : Ends p rest) (hrun : ∀ c ∈ run, p c) : (run ++ rest).takeWhile p = run := by
  rw [List.takeWhile_append_of_pos hrun, h.takeWhile_eq, List.append_nil]

lemma Ends.dropWhile_append (h : Ends p rest) (hrun : ∀ c ∈ run, p c) : (run ++ rest).dropWhile p = rest := by
  rw [List.dropWhile_append_of_pos hrun, h.dropWhile_eq]

lemma Ends.dropWhile_append_eq (h : Ends p rest) (cs : List Char) :
    (cs ++ rest).dropWhile p = cs.dropWhile p ++ rest := by
  rw [List.dropWhile_append]
  split
  · next hnil => rw [h.dropWhile_eq, List.isEmpty_iff.mp hnil, List.nil_append]
  · rfl

lemma Ends.isDigit (h : Ends isNameChar rest) : Ends Char.isDigit rest := by
  intro c hc
  by_contra hd
  have hname : isNameChar c := isNameChar_of_isDigit (by simpa using hd)
  rw [h c hc] at hname
  contradiction

lemma ends_isBlank_cons (h : isNameChar c) (rest : List Char) : Ends isBlank (c :: rest) := by
  apply ends_cons
  by_contra hb
  rw [isNameChar_eq_false_of_isBlank (by simpa using hb)] at h
  contradiction

lemma Blanks.ends_append (hblanks : Blanks blanks) (h : Ends isNameChar rest) : Ends isNameChar (blanks ++ rest) := by
  cases blanks with
  | nil => exact h
  | cons c blanks => exact ends_cons (isNameChar_eq_false_of_isBlank (hblanks c List.mem_cons_self))

lemma IsName.exists_cons (h : IsName name) : ∃ c more, name = c :: more ∧ isNameChar c := by
  obtain ⟨c, more, rfl⟩ := List.exists_cons_of_ne_nil h.ne_nil
  exact ⟨c, more, rfl, h.all c List.mem_cons_self⟩

lemma SpellsTarget.exists_cons (h : SpellsTarget cs spelling) : ∃ c more, cs = c :: more ∧ isNameChar c := by
  cases h with
  | single hname => exact hname.exists_cons
  | multiple hdigits _ _ _ =>
    obtain ⟨c, more, rfl⟩ := List.exists_cons_of_ne_nil hdigits.ne_nil
    exact ⟨c, _, rfl, isNameChar_of_isDigit (hdigits.all c List.mem_cons_self)⟩

lemma SpellsTargets.exists_cons (h : SpellsTargets cs spellings) : ∃ c more, cs = c :: more ∧ isNameChar c := by
  cases h with
  | last h => exact h.exists_cons
  | cons h _ _ _ =>
    obtain ⟨c, more, rfl, hc⟩ := h.exists_cons
    exact ⟨c, _, rfl, hc⟩

lemma IsName.ends_isBlank (h : IsName name) (rest : List Char) : Ends isBlank (name ++ rest) := by
  obtain ⟨c, more, rfl, hc⟩ := h.exists_cons
  exact ends_isBlank_cons hc _

lemma SpellsTargets.ends_isBlank (h : SpellsTargets cs spellings) (rest : List Char) :
    Ends isBlank (cs ++ rest) := by
  obtain ⟨c, more, rfl, hc⟩ := h.exists_cons
  exact ends_isBlank_cons hc _

/-! ### Reading what is derived -/

lemma skipBlanks_append (hblanks : Blanks blanks) (h : Ends isBlank rest) : skipBlanks (blanks ++ rest) = rest :=
  h.dropWhile_append hblanks

lemma skipBlanks_eq_nil (hblanks : Blanks blanks) : skipBlanks blanks = [] := by
  simpa using skipBlanks_append hblanks ends_nil

lemma name?_append (hname : IsName name) (h : Ends isNameChar rest) :
    name? (name ++ rest) = some (String.ofList name, rest) := by
  rw [name?, h.takeWhile_append hname.all, h.dropWhile_append hname.all]
  obtain ⟨c, more, rfl, -⟩ := hname.exists_cons
  rfl

/-- What stands behind a target: a blank or nothing, and no star after the blanks, since with a star the target
would be the multiplicity of another one. -/
structure Closes (rest : List Char) : Prop where
  ends : Ends isNameChar rest
  head?_ne : (skipBlanks rest).head? ≠ some '*'

lemma closes_blanks (hblanks : Blanks blanks) : Closes blanks := by
  refine ⟨?_, by rw [skipBlanks_eq_nil hblanks]; simp⟩
  simpa using hblanks.ends_append ends_nil

lemma SpellsTargets.closes (h : SpellsTargets cs spellings) (hne : blanks ≠ []) (hblanks : Blanks blanks)
    (rest : List Char) : Closes (blanks ++ (cs ++ rest)) := by
  refine ⟨?_, ?_⟩
  · obtain ⟨b, more, rfl⟩ := List.exists_cons_of_ne_nil hne
    exact ends_cons (isNameChar_eq_false_of_isBlank (hblanks b List.mem_cons_self))
  · rw [skipBlanks_append hblanks (h.ends_isBlank rest)]
    obtain ⟨c, more, rfl, hc⟩ := h.exists_cons
    rintro ⟨⟩
    exact absurd hc (by decide)

lemma SpellsTargets.closes_blanks_append (h : SpellsTargets cs spellings) (hne : blanks ≠ [])
    (hblanks : Blanks blanks) : Closes (blanks ++ cs) := by
  simpa using h.closes hne hblanks []

lemma multiplicity?_eq_none (h : (skipBlanks (Text.spanDigits cs).2).head? ≠ some '*') : multiplicity? cs = none := by
  unfold multiplicity?
  split
  · rfl
  · next digits rest _ hspan =>
    rw [hspan] at h
    split
    · split
      · next hstar => simp [hstar] at h
      · rfl
    · rfl

/-- The digits at the start of a name are followed by another name character, or by the end of the name. -/
lemma multiplicity?_name (hname : IsName name) (h : Closes rest) : multiplicity? (name ++ rest) = none := by
  apply multiplicity?_eq_none
  rw [Text.spanDigits, h.ends.isDigit.dropWhile_append_eq]
  cases hleft : name.dropWhile Char.isDigit with
  | nil =>
    -- The name is a numeral, and only what follows it tells it from a multiplicity.
    exact h.head?_ne
  | cons c more =>
    have hc : isNameChar c := hname.all c ((List.dropWhile_sublist _).mem (hleft ▸ List.mem_cons_self))
    have hskip : skipBlanks (c :: more ++ rest) = c :: more ++ rest := (ends_isBlank_cons hc _).dropWhile_eq
    rw [hskip, List.cons_append, List.head?_cons]
    rintro ⟨⟩
    exact absurd hc (by decide)

lemma multiplicity?_append (hdigits : IsMultiplicity digits) (hbefore : Blanks before) (hafter : Blanks after)
    (h : Ends isBlank rest) :
    multiplicity? (digits ++ (before ++ '*' :: (after ++ rest))) =
      some (UInt32.ofNat (Text.digitsValue digits), rest) := by
  have hstar : Ends isNameChar (before ++ '*' :: (after ++ rest)) := hbefore.ends_append (ends_cons (by decide))
  have hspan : Text.spanDigits (digits ++ (before ++ '*' :: (after ++ rest))) =
      (digits, before ++ '*' :: (after ++ rest)) := by
    rw [Text.spanDigits, hstar.isDigit.takeWhile_append hdigits.all, hstar.isDigit.dropWhile_append hdigits.all]
  have hskip : skipBlanks (before ++ '*' :: (after ++ rest)) = '*' :: (after ++ rest) :=
    skipBlanks_append hbefore (ends_cons (by decide))
  have hlt : Text.digitsValue digits < UInt32.size := Nat.lt_succ_of_le hdigits.le
  obtain ⟨c, more, rfl⟩ := List.exists_cons_of_ne_nil hdigits.ne_nil
  simp only [multiplicity?, hspan, if_pos hlt, hskip, skipBlanks_append hafter h]

lemma target?_append (h : SpellsTarget cs spelling) (hrest : Closes rest) :
    target? (cs ++ rest) = some (spelling.target, rest) := by
  cases h with
  | single hname =>
    rw [target?, multiplicity?_name hname hrest]
    simp only [Option.getD_none, name?_append hname hrest.ends]
    rfl
  | @multiple digits before after name hdigits hbefore hafter hname =>
    have hread := multiplicity?_append hdigits hbefore hafter (hname.ends_isBlank rest)
    simp only [List.append_assoc, List.cons_append] at hread ⊢
    rw [target?, hread]
    simp only [Option.getD_some, name?_append hname hrest.ends]
    rfl

lemma furtherTargets_blanks (hblanks : Blanks blanks) : furtherTargets blanks = ([], blanks) := by
  cases blanks with
  | nil => rw [furtherTargets]
  | cons c blanks =>
    have hskip : skipBlanks blanks = [] := skipBlanks_eq_nil fun d hd => hblanks d (List.mem_cons_of_mem c hd)
    have hnone : target? (skipBlanks blanks) = none := by
      rw [hskip]
      rfl
    rw [furtherTargets, if_pos (hblanks c List.mem_cons_self)]
    split
    · rfl
    · next hsome => simp [hnone] at hsome

/-- Behind blanks the targets are read as they are without them, if there is at least one. -/
lemma furtherTargets_append (hne : blanks ≠ []) (hblanks : Blanks blanks) (hrest : Ends isBlank rest)
    (h : (readTargets rest).1 ≠ []) : furtherTargets (blanks ++ rest) = readTargets rest := by
  obtain ⟨c, more, rfl⟩ := List.exists_cons_of_ne_nil hne
  obtain ⟨hc, hmore⟩ := List.forall_mem_cons.mp hblanks
  have hskip : skipBlanks (more ++ rest) = rest := skipBlanks_append hmore hrest
  rw [List.cons_append, furtherTargets, if_pos hc]
  unfold readTargets at h ⊢
  split
  · next hnone =>
    rw [hskip] at hnone
    simp [hnone] at h
  · next target left hsome =>
    rw [hskip] at hsome
    simp [hsome]

/-- All targets of a derivation are read, and what is left are the blanks behind them. -/
lemma readTargets_append (h : SpellsTargets cs spellings) (hblanks : Blanks blanks) :
    readTargets (cs ++ blanks) = (spellings.map Spelling.target, blanks) := by
  induction h with
  | last h =>
    rw [readTargets, target?_append h (closes_blanks hblanks)]
    simp only [furtherTargets_blanks hblanks]
    rfl
  | @cons cs gap more spelling spellings h hne hgap hmore ih =>
    have hsome : (readTargets (more ++ blanks)).1 ≠ [] := by
      rw [ih]
      cases hmore <;> simp
    rw [List.append_assoc, List.append_assoc, readTargets, target?_append h (hmore.closes hne hgap blanks)]
    simp only [furtherTargets_append hne hgap (hmore.ends_isBlank blanks) hsome, ih]
    rfl

lemma body?_arrow {leading source : List Char} (hleading : Blanks leading) (hsource : IsName source)
    (hbefore : Blanks before) (rest : List Char) :
    body? (leading ++ (source ++ (before ++ '-' :: '>' :: rest))) =
      some ((String.ofList source, (readTargets (skipBlanks rest)).1),
        skipBlanks (readTargets (skipBlanks rest)).2) := by
  have hname : Ends isNameChar (before ++ '-' :: '>' :: rest) := hbefore.ends_append (ends_cons (by decide))
  have harrow : skipBlanks (before ++ '-' :: '>' :: rest) = '-' :: '>' :: rest :=
    skipBlanks_append hbefore (ends_cons (by decide))
  rw [body?, skipBlanks_append hleading (hsource.ends_isBlank _), name?_append hsource hname]
  simp only [Option.bind_eq_bind, Option.bind_some, harrow]
  rfl

/-- The rule that is derived from a line is the one that is read from it. -/
theorem body?_of_spellsRule {source : List Char} (h : SpellsRule cs source spellings) :
    body? cs = some ((String.ofList source, spellings.map Spelling.target), []) := by
  obtain ⟨hsource, leading, before, after, text, trailing, hleading, hbefore, hafter, htrailing, htargets, rfl⟩ := h
  rw [body?_arrow hleading hsource hbefore]
  rcases htargets with ⟨rfl, rfl⟩ | htargets
  · have hskip : skipBlanks (after ++ ([] ++ trailing)) = [] :=
      skipBlanks_eq_nil fun c hc => (List.mem_append.mp hc).elim (hafter c) (htrailing c)
    rw [hskip]
    rfl
  · rw [skipBlanks_append hafter (htargets.ends_isBlank trailing), readTargets_append htargets htrailing,
      skipBlanks_eq_nil htrailing]

/-! ### Derivations of what is read -/

lemma exists_blanks (cs : List Char) : ∃ blanks, Blanks blanks ∧ cs = blanks ++ skipBlanks cs :=
  ⟨cs.takeWhile isBlank, fun _ hc => List.mem_takeWhile_imp hc, List.takeWhile_append_dropWhile.symm⟩

lemma exists_of_name? {text : String} (h : name? cs = some (text, rest)) :
    ∃ name, IsName name ∧ text = String.ofList name ∧ cs = name ++ rest := by
  unfold name? at h
  split at h
  · contradiction
  · next hne =>
    cases h
    exact ⟨cs.takeWhile isNameChar, ⟨hne, fun _ hc => List.mem_takeWhile_imp hc⟩, rfl,
      List.takeWhile_append_dropWhile.symm⟩

lemma exists_of_multiplicity? {weight : UInt32} (h : multiplicity? cs = some (weight, rest)) :
    ∃ digits before after, IsMultiplicity digits ∧ Blanks before ∧ Blanks after ∧
      weight = UInt32.ofNat (Text.digitsValue digits) ∧ cs = digits ++ (before ++ '*' :: (after ++ rest)) := by
  unfold multiplicity? at h
  split at h
  · contradiction
  · next digits left hne hspan =>
    split at h
    · next hlt =>
      split at h
      · next behind hstar =>
        cases h
        obtain ⟨before, hbefore, hleft⟩ := exists_blanks left
        obtain ⟨after, hafter, hbehind⟩ := exists_blanks behind
        obtain ⟨rfl, rfl⟩ := Prod.mk.inj hspan
        refine ⟨_, before, after, ⟨hne, fun _ hc => List.mem_takeWhile_imp hc, Nat.le_of_lt_succ hlt⟩, hbefore,
          hafter, rfl, ?_⟩
        rw [← hbehind, ← hstar, ← hleft]
        exact List.takeWhile_append_dropWhile.symm
      · contradiction
    · contradiction

lemma exists_of_target? {target : Target} (h : target? cs = some (target, rest)) :
    ∃ text spelling, SpellsTarget text spelling ∧ target = spelling.target ∧ cs = text ++ rest := by
  simp only [target?, Option.map_eq_some_iff, Prod.mk.injEq] at h
  obtain ⟨⟨text, left⟩, hname, rfl, rfl⟩ := h
  obtain ⟨name, hn, rfl, hcs⟩ := exists_of_name? hname
  cases hm : multiplicity? cs with
  | none =>
    rw [hm, Option.getD_none] at hcs
    exact ⟨name, ⟨none, name⟩, .single hn, rfl, hcs⟩
  | some pair =>
    obtain ⟨weight, behind⟩ := pair
    obtain ⟨digits, before, after, hdigits, hbefore, hafter, rfl, hread⟩ := exists_of_multiplicity? hm
    simp only [hm, Option.getD_some] at hcs
    subst hcs
    exact ⟨_, ⟨some digits, name⟩, .multiple hdigits hbefore hafter hn, rfl, by simp [hread]⟩

/-- In front of `rest`, the text is empty or lists these targets behind at least one blank. -/
def ListsFurther (cs : List Char) (targets : List Target) (rest : List Char) : Prop :=
  targets = [] ∧ cs = rest ∨ ∃ blanks text spellings, blanks ≠ [] ∧ Blanks blanks ∧
    SpellsTargets text spellings ∧ targets = spellings.map Spelling.target ∧ cs = blanks ++ (text ++ rest)

lemma SpellsTarget.prepend {text left : List Char} {targets : List Target} (h : SpellsTarget text spelling)
    (hleft : ListsFurther left targets rest) : ∃ cs spellings, SpellsTargets cs spellings ∧
      spelling.target :: targets = spellings.map Spelling.target ∧ text ++ left = cs ++ rest := by
  rcases hleft with ⟨rfl, rfl⟩ | ⟨blanks, more, spellings, hne, hblanks, hmore, rfl, rfl⟩
  · exact ⟨text, [spelling], .last h, rfl, rfl⟩
  · exact ⟨text ++ (blanks ++ more), spelling :: spellings, .cons h hne hblanks hmore, rfl, by simp⟩

lemma listsFurther_furtherTargets (cs : List Char) :
    ListsFurther cs (furtherTargets cs).1 (furtherTargets cs).2 := by
  fun_induction furtherTargets cs with
  | case1 => exact .inl ⟨rfl, rfl⟩
  | case2 c rest hc hnone => exact .inl ⟨rfl, rfl⟩
  | case3 c rest hc target left hsome _ _ targets behind hfurther ih =>
    rw [hfurther] at ih
    obtain ⟨text, spelling, h, rfl, hskip⟩ := exists_of_target? hsome
    obtain ⟨more, spellings, hmore, htargets, hcs⟩ := h.prepend ih
    obtain ⟨blanks, hblanks, hrest⟩ := exists_blanks rest
    refine .inr ⟨c :: blanks, more, spellings, List.cons_ne_nil _ _, ?_, hmore, htargets, ?_⟩
    · exact List.forall_mem_cons.mpr ⟨hc, hblanks⟩
    · rw [List.cons_append, ← hcs, ← hskip, ← hrest]
  | case4 c rest hc => exact .inl ⟨rfl, rfl⟩

lemma exists_of_readTargets (cs : List Char) : ∃ text spellings,
    (text = [] ∧ spellings = [] ∨ SpellsTargets text spellings) ∧
      (readTargets cs).1 = spellings.map Spelling.target ∧ cs = text ++ (readTargets cs).2 := by
  unfold readTargets
  split
  · exact ⟨[], [], .inl ⟨rfl, rfl⟩, rfl, rfl⟩
  · next target left hsome =>
    obtain ⟨text, spelling, h, rfl, rfl⟩ := exists_of_target? hsome
    obtain ⟨more, spellings, hmore, htargets, hcs⟩ := h.prepend (listsFurther_furtherTargets left)
    exact ⟨more, spellings, .inr hmore, htargets, hcs⟩

/-- A line that is read to its end is derived in the grammar. -/
theorem exists_spellsRule_of_body? {text : String} {targets : List Target} (h : body? cs = some ((text, targets), [])) :
    ∃ source spellings, SpellsRule cs source spellings ∧ text = String.ofList source ∧
      targets = spellings.map Spelling.target := by
  obtain ⟨⟨name, left⟩, hname, h⟩ := Option.bind_eq_some_iff.mp h
  obtain ⟨leading, hleading, hcs⟩ := exists_blanks cs
  obtain ⟨source, hsource, rfl, hskip⟩ := exists_of_name? hname
  obtain ⟨before, hbefore, hleft⟩ := exists_blanks left
  dsimp only at h
  split at h
  · next behind harrow =>
    obtain ⟨after, hafter, hbehind⟩ := exists_blanks behind
    obtain ⟨text, spellings, htargets, hread, htext⟩ := exists_of_readTargets (skipBlanks behind)
    obtain ⟨trailing, htrailing, hrest⟩ := exists_blanks (readTargets (skipBlanks behind)).2
    simp only [Option.pure_def, Option.some.injEq, Prod.mk.injEq] at h
    obtain ⟨⟨rfl, rfl⟩, hnil⟩ := h
    rw [hnil, List.append_nil] at hrest
    refine ⟨source, spellings, ⟨hsource, leading, before, after, text, _, hleading, hbefore, hafter, htrailing,
      htargets, ?_⟩, rfl, hread⟩
    rw [← hrest, ← htext, ← hbehind, ← harrow, ← hleft, ← hskip]
    exact hcs
  · contradiction

/-! ### Only one derivation -/

lemma Ends.append_inj {run' rest' : List Char} (h : Ends p rest) (h' : Ends p rest') (hrun : ∀ c ∈ run, p c)
    (hrun' : ∀ c ∈ run', p c) (heq : run ++ rest = run' ++ rest') : run = run' ∧ rest = rest' := by
  have htake := congrArg (List.takeWhile p) heq
  have hdrop := congrArg (List.dropWhile p) heq
  rw [h.takeWhile_append hrun, h'.takeWhile_append hrun'] at htake
  rw [h.dropWhile_append hrun, h'.dropWhile_append hrun'] at hdrop
  exact ⟨htake, hdrop⟩

/-- A target has a multiplicity just if there is a star in it, and then it starts with its digits. -/
lemma SpellsTarget.digits_eq (h : SpellsTarget cs spelling) :
    spelling.digits = if '*' ∈ cs then some (cs.takeWhile Char.isDigit) else none := by
  cases h with
  | single hname =>
    have hstar : '*' ∉ cs := fun hmem => absurd (hname.all _ hmem) (by decide)
    rw [if_neg hstar]
  | @multiple digits before after name hdigits hbefore _ _ =>
    have hends : Ends isNameChar (before ++ '*' :: (after ++ name)) := hbefore.ends_append (ends_cons (by decide))
    rw [if_pos (by simp), hends.isDigit.takeWhile_append hdigits.all]

lemma Spelling.name_target (spelling : Spelling) : spelling.target.name = String.ofList spelling.name := by
  rcases spelling with ⟨_ | _, _⟩ <;> rfl

/-- Where a target ends and how it is spelled is settled by the text. -/
lemma SpellsTarget.append_inj {cs' rest' : List Char} {spelling' : Spelling} (h : SpellsTarget cs spelling)
    (h' : SpellsTarget cs' spelling') (hrest : Closes rest) (hrest' : Closes rest')
    (heq : cs ++ rest = cs' ++ rest') : spelling = spelling' ∧ rest = rest' := by
  have hread := target?_append h hrest
  rw [heq, target?_append h' hrest'] at hread
  simp only [Option.some.injEq, Prod.mk.injEq] at hread
  obtain ⟨htarget, rfl⟩ := hread
  have hname := congrArg Target.name htarget
  rw [Spelling.name_target, Spelling.name_target, String.ofList_inj] at hname
  have hdigits := h.digits_eq
  rw [List.append_cancel_right heq, ← h'.digits_eq] at hdigits
  cases spelling
  cases spelling'
  exact ⟨by simp_all, rfl⟩

lemma SpellsTargets.unique {cs' : List Char} {spellings' : List Spelling} (h : SpellsTargets cs spellings)
    (h' : SpellsTargets cs' spellings') (heq : cs = cs') : spellings = spellings' := by
  have hnil : Closes [] := closes_blanks nofun
  -- A derivation that goes on where the other ends would leave blanks behind the last target.
  induction h generalizing cs' spellings' with
  | last h =>
    cases h' with
    | last h' =>
      obtain ⟨rfl, -⟩ := h.append_inj h' hnil hnil (congrArg (· ++ []) heq)
      rfl
    | @cons cs' blanks' more' _ _ h' hne' hblanks' hmore' =>
      have hcloses : Closes (blanks' ++ more') := hmore'.closes_blanks_append hne' hblanks'
      obtain ⟨-, hbehind⟩ := h.append_inj h' hnil hcloses ((List.append_nil _).trans heq)
      exact absurd (List.append_eq_nil_iff.mp hbehind.symm).1 hne'
  | @cons cs blanks more _ _ h hne hblanks hmore ih =>
    have hcloses : Closes (blanks ++ more) := hmore.closes_blanks_append hne hblanks
    cases h' with
    | last h' =>
      obtain ⟨-, hbehind⟩ := h.append_inj h' hcloses hnil (heq.trans (List.append_nil _).symm)
      exact absurd (List.append_eq_nil_iff.mp hbehind).1 hne
    | @cons cs' blanks' more' _ _ h' hne' hblanks' hmore' =>
      have hcloses' : Closes (blanks' ++ more') := hmore'.closes_blanks_append hne' hblanks'
      obtain ⟨rfl, hbehind⟩ := h.append_inj h' hcloses hcloses' heq
      have hends : Ends isBlank more := by simpa using hmore.ends_isBlank []
      have hends' : Ends isBlank more' := by simpa using hmore'.ends_isBlank []
      obtain ⟨-, hmores⟩ := hends.append_inj hends' hblanks hblanks' hbehind
      rw [ih hmore' hmores]

/-- A line has only one derivation, apart from which of the blanks behind the arrow count as trailing. -/
theorem SpellsRule.unique {source source' : List Char} {spellings' : List Spelling}
    (h : SpellsRule cs source spellings) (h' : SpellsRule cs source' spellings') :
    source = source' ∧ spellings = spellings' := by
  -- What is read does not show how the multiplicities are spelled, so the two texts are compared as well.
  have hread := body?_of_spellsRule h
  rw [body?_of_spellsRule h'] at hread
  simp only [Option.some.injEq, Prod.mk.injEq, String.ofList_inj, and_true] at hread
  obtain ⟨rfl, hread⟩ := hread
  refine ⟨rfl, ?_⟩
  obtain ⟨hsource, leading, before, after, text, trailing, hleading, hbefore, hafter, htrailing, htargets, rfl⟩ := h
  obtain ⟨-, leading', before', after', text', trailing', hleading', hbefore', hafter', htrailing', htargets', hcs⟩ :=
    h'
  have harrow : ∀ rest, Ends isBlank ('-' :: rest) := fun rest => ends_cons (by decide)
  obtain ⟨-, hcs⟩ := (hsource.ends_isBlank _).append_inj (hsource.ends_isBlank _) hleading hleading' hcs
  obtain ⟨-, hcs⟩ := (harrow _).append_inj (harrow _) hbefore hbefore' (List.append_cancel_left hcs)
  have hcs : after ++ (text ++ trailing) = after' ++ (text' ++ trailing') := by simpa using hcs
  rcases htargets with ⟨-, rfl⟩ | htargets
  · exact (List.map_eq_nil_iff.mp hread).symm
  · rcases htargets' with ⟨-, rfl⟩ | htargets'
    · exact List.map_eq_nil_iff.mp hread.symm
    · obtain ⟨-, hcs⟩ := (htargets.ends_isBlank _).append_inj (htargets'.ends_isBlank _) hafter hafter' hcs
      have hrest := readTargets_append htargets htrailing
      rw [hcs, readTargets_append htargets' htrailing', Prod.mk.injEq] at hrest
      obtain ⟨-, rfl⟩ := hrest
      exact htargets.unique htargets' (List.append_cancel_right hcs)

/-! ### Lines -/

lemma parse_of_body? {line source : String} {targets : List Target}
    (h : body? line.toList = some ((source, targets), [])) : parse line = .ok ⟨line, source, targets⟩ := by
  rw [parse, h]

lemma body?_of_parse {line : String} {rule : Rule} (h : parse line = .ok rule) :
    body? line.toList = some ((rule.source, rule.targets), []) := by
  unfold parse at h
  split at h
  · contradiction
  · next source targets hsome =>
    cases h
    exact hsome
  · contradiction

lemma exists_fault_of_parse {line : String} {e : NetError} (h : parse line = .error e) :
    ∃ fault, e = .malformedRule line fault := by
  unfold parse at h
  split at h
  · cases h
    exact ⟨_, rfl⟩
  · contradiction
  · cases h
    exact ⟨_, rfl⟩

/-- The lines that are read are those of the grammar, and what is read is the source and the targets of the only
derivation that there is. Every other line is malformed. -/
theorem parse_grammar (line : String) :
    (∀ rule, parse line = .ok rule ↔ ∃ source spellings, SpellsRule line.toList source spellings ∧
      rule = ⟨line, String.ofList source, spellings.map Spelling.target⟩) ∧
    (∀ source spellings source' spellings', SpellsRule line.toList source spellings →
      SpellsRule line.toList source' spellings' → source = source' ∧ spellings = spellings') ∧
    ((¬∃ source spellings, SpellsRule line.toList source spellings) →
      ∃ fault, parse line = .error (.malformedRule line fault)) := by
  have hiff : ∀ rule, parse line = .ok rule ↔ ∃ source spellings, SpellsRule line.toList source spellings ∧
      rule = ⟨line, String.ofList source, spellings.map Spelling.target⟩ := by
    intro rule
    constructor
    · intro h
      obtain ⟨source, spellings, hderived, hsource, htargets⟩ := exists_spellsRule_of_body? (body?_of_parse h)
      refine ⟨source, spellings, hderived, ?_⟩
      rw [← hsource, ← htargets, ← line_of_parse h]
    · rintro ⟨source, spellings, hderived, rfl⟩
      exact parse_of_body? (body?_of_spellsRule hderived)
  refine ⟨hiff, fun _ _ _ _ h h' => h.unique h', fun hnone => ?_⟩
  cases hparse : parse line with
  | ok rule =>
    obtain ⟨source, spellings, hderived, -⟩ := (hiff rule).mp hparse
    exact absurd ⟨source, spellings, hderived⟩ hnone
  | error e =>
    obtain ⟨fault, rfl⟩ := exists_fault_of_parse hparse
    exact ⟨fault, rfl⟩

/-- A line with numerals that are names: one is too large, no star follows the next, and one is behind a star. -/
def numerals : String :=
  "open->4294967296 12 * fill 12 007*0\t"

theorem parse_numerals :
    parse numerals = .ok ⟨numerals, "open", [⟨1, "4294967296"⟩, ⟨12, "fill"⟩, ⟨1, "12"⟩, ⟨7, "0"⟩]⟩ ∧
    ∃ source spellings, SpellsRule numerals.toList source spellings ∧ String.ofList source = "open" ∧
      spellings.map Spelling.target = [⟨1, "4294967296"⟩, ⟨12, "fill"⟩, ⟨1, "12"⟩, ⟨7, "0"⟩] := by
  have hparse : parse numerals =
      .ok ⟨numerals, "open", [⟨1, "4294967296"⟩, ⟨12, "fill"⟩, ⟨1, "12"⟩, ⟨7, "0"⟩]⟩ := by
    decide +kernel
  obtain ⟨source, spellings, hderived, heq⟩ := ((parse_grammar _).1 _).mp hparse
  obtain ⟨-, hsource, htargets⟩ := Rule.mk.inj heq
  exact ⟨hparse, source, spellings, hderived, hsource.symm, htargets.symm⟩

end Coverability.Rule
