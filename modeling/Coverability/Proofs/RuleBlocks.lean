import Coverability.Proofs.WellFormedNets
import Mathlib.Data.List.DropRight

/-!
# Rule blocks

What is parsed out of a block are its trimmed lines. Such a line has no line feed and nothing more to trim,
so as a text of its own it is again just this rule.
-/

namespace Coverability

namespace Text

variable {cs line : List Char} {c : Char}

lemma trim_eq_rdropWhile (cs : List Char) : trim cs = (cs.dropWhile isSpace).rdropWhile isSpace := rfl

lemma trim_sublist (cs : List Char) : (trim cs).Sublist cs :=
  (List.rdropWhile_prefix isSpace _).sublist.trans (List.dropWhile_sublist isSpace)

/-- What is left starts with the same character as before the end was cut off, so nothing goes at the start. -/
lemma dropWhile_trim (cs : List Char) : (trim cs).dropWhile isSpace = trim cs := by
  have hpre : trim cs <+: cs.dropWhile isSpace := List.rdropWhile_prefix isSpace _
  rw [List.dropWhile_eq_self_iff]
  intro hpos
  rw [hpre.getElem hpos]
  exact List.dropWhile_get_zero_not isSpace cs (hpos.trans_le hpre.length_le)

lemma trim_trim (cs : List Char) : trim (trim cs) = trim cs := by
  rw [trim_eq_rdropWhile (trim cs), dropWhile_trim, trim_eq_rdropWhile, List.rdropWhile_idempotent]

lemma not_mem_trim (h : c ∉ cs) : c ∉ trim cs :=
  fun hmem => h ((trim_sublist cs).mem hmem)

lemma not_mem_of_mem_lines (h : line ∈ lines cs) : '\n' ∉ line := by
  induction cs generalizing line with
  | nil =>
    rw [List.mem_singleton.mp h]
    exact List.not_mem_nil
  | cons c cs ih =>
    rw [lines] at h
    split at h
    · rcases List.mem_cons.mp h with rfl | h
      · exact List.not_mem_nil
      · exact ih h
    · next hc =>
      split at h
      · rw [List.mem_singleton.mp h, List.mem_singleton]
        exact Ne.symm hc
      · next first rest hlines =>
        rw [hlines] at ih
        rcases List.mem_cons.mp h with rfl | h
        · rw [List.mem_cons, not_or]
          exact ⟨Ne.symm hc, ih List.mem_cons_self⟩
        · exact ih (List.mem_cons_of_mem first h)

end Text

lemma exists_of_mem_mapM {ε α β : Type} {f : α → Except ε β} {l : List α} {results : List β} {b : β}
    (h : l.mapM f = .ok results) (hb : b ∈ results) : ∃ a ∈ l, f a = .ok b := by
  induction l generalizing results with
  | nil =>
    cases h
    contradiction
  | cons a l ih =>
    rw [List.mapM_cons, bind_eq_ok] at h
    obtain ⟨first, hfirst, h⟩ := h
    obtain ⟨rest, hrest, h⟩ := bind_eq_ok.mp h
    cases h
    rcases List.mem_cons.mp hb with rfl | hb
    · exact ⟨a, List.mem_cons_self, hfirst⟩
    · obtain ⟨a', ha, hab⟩ := ih hrest hb
      exact ⟨a', List.mem_cons_of_mem a ha, hab⟩

namespace Rule

variable {text line : String} {cs : List Char} {rule : Rule} {rules : List Rule}

lemma line_of_parse (h : parse line = .ok rule) : rule.line = line := by
  unfold parse at h
  split at h
  · contradiction
  · cases h
    rfl
  · contradiction

/-- A trimmed line is read as it is. -/
lemma parseBlock_trim (h : '\n' ∉ cs) : parseBlock (String.ofList (Text.trim cs)) =
    (parse (String.ofList (Text.trim cs))).map fun rule => [rule] := by
  rw [parseBlock, String.toList_ofList, if_neg (Text.not_mem_trim h), Text.trim_trim]
  rfl

lemma exists_trim_of_mem_ruleLines (h : line ∈ ruleLines text) :
    ∃ cs, '\n' ∉ cs ∧ line = String.ofList (Text.trim cs) := by
  obtain ⟨trimmed, htrimmed, rfl⟩ := List.mem_map.mp h
  obtain ⟨cs, hcs, rfl⟩ := List.mem_map.mp (List.mem_filter.mp htrimmed).1
  exact ⟨cs, Text.not_mem_of_mem_lines hcs, rfl⟩

lemma not_mem_of_mem_ruleLines (h : line ∈ ruleLines text) : '\n' ∉ line.toList := by
  obtain ⟨cs, hcs, rfl⟩ := exists_trim_of_mem_ruleLines h
  rw [String.toList_ofList]
  exact Text.not_mem_trim hcs

lemma exists_trim_of_parseBlock (h : parseBlock text = .ok rules) (hrule : rule ∈ rules) :
    ∃ cs, '\n' ∉ cs ∧ parse (String.ofList (Text.trim cs)) = .ok rule := by
  unfold parseBlock at h
  split at h
  · obtain ⟨line, hline, hparse⟩ := exists_of_mem_mapM h hrule
    obtain ⟨cs, hcs, rfl⟩ := exists_trim_of_mem_ruleLines hline
    exact ⟨cs, hcs, hparse⟩
  · next hnone =>
    obtain ⟨only, honly, h⟩ := bind_eq_ok.mp h
    cases h
    rw [List.mem_singleton.mp hrule]
    exact ⟨text.toList, hnone, honly⟩

/-- A rule that was read from a block is read again from its own line. -/
theorem parseBlock_line (h : parseBlock text = .ok rules) (hrule : rule ∈ rules) :
    parseBlock rule.line = .ok [rule] := by
  obtain ⟨cs, hcs, hparse⟩ := exists_trim_of_parseBlock h hrule
  rw [line_of_parse hparse, parseBlock_trim hcs, hparse]
  rfl

end Rule

end Coverability
