import Coverability.Proofs.Deadlocks
import Coverability.Proofs.RuleBlocks

/-!
# Blocks and their lines

A block of rules stands for the rules that are written on its lines. When a net is built, the block can be
replaced by these lines, each as a text of its own: the net is the same, or the error is.
-/

namespace Coverability

lemma mapM_eq_map_mapM {ε α β γ : Type} {f : α → Except ε γ} {g : α → Except ε β} {k : β → γ}
    {l : List α} (h : ∀ a ∈ l, f a = (g a).map k) : l.mapM f = (l.mapM g).map (List.map k) := by
  induction l with
  | nil => rfl
  | cons a l ih =>
    obtain ⟨ha, h⟩ := List.forall_mem_cons.mp h
    rw [List.mapM_cons, List.mapM_cons, ha, ih h]
    cases g a with
    | error e => rfl
    | ok b => cases l.mapM g <;> rfl

lemma Text.lines_eq_splitOn (cs : List Char) : lines cs = cs.splitOn '\n' := by
  rw [List.splitOn_eq_splitOnP]
  induction cs with
  | nil => rfl
  | cons c cs ih =>
    rw [lines, ih, List.splitOnP_cons_eq_if_modifyHead]
    by_cases hc : c = '\n'
    · simp [hc]
    · rw [if_neg hc, if_neg (by simpa using hc)]
      -- there is always a first piece that the character can be put in front of
      cases hpieces : cs.splitOnP (· == '\n') with
      | nil => exact absurd hpieces (List.splitOnP_ne_nil _ cs)
      | cons piece pieces => rfl

namespace Rule

variable {text : String}

/-- The rules that are written in a text: the pieces between its line feeds without the white space around them,
less those that are then empty or start with a hash. -/
def written (text : String) : List String :=
  (text.toList.splitOn '\n').filterMap fun piece =>
    match Text.trim piece with
    | [] => none
    | '#' :: _ => none
    | line => some (String.ofList line)

lemma ruleLines_eq_written (text : String) : ruleLines text = written text := by
  rw [ruleLines, written, Text.lines_eq_splitOn, ← List.filterMap_eq_filter, List.map_filterMap,
    List.filterMap_map]
  congr 1
  funext piece
  rw [Function.comp_apply]
  cases Text.trim piece with
  | nil => rfl
  | cons c cs =>
    by_cases hc : c = '#'
    · simp [hc]
    · simp [hc]

/-- All rules of these texts, each of which is one rule or a block of them. -/
def parseAll (texts : List String) : Except NetError (List Rule) :=
  (texts.mapM parseBlock).map List.flatten

lemma parseAll_append (texts others : List String) : parseAll (texts ++ others) =
    (do return (← parseAll texts) ++ (← parseAll others)) := by
  rw [parseAll, List.mapM_append, parseAll, parseAll]
  cases texts.mapM parseBlock with
  | error e => rfl
  | ok blocks =>
    cases others.mapM parseBlock with
    | error e => rfl
    | ok more => exact congrArg Except.ok List.flatten_append

/-- A block is read as its lines are read, each of which is again trimmed and has no line feed. -/
lemma parseAll_written (h : '\n' ∈ text.toList) : parseAll (written text) = parseAll [text] := by
  have hlines : (written text).mapM parseBlock =
      ((written text).mapM parse).map (List.map fun rule => [rule]) := by
    apply mapM_eq_map_mapM
    intro line hline
    rw [← ruleLines_eq_written] at hline
    -- as a text of its own the line is trimmed again, which finds nothing
    obtain ⟨cs, hcs, rfl⟩ := exists_trim_of_mem_ruleLines hline
    exact parseBlock_trim hcs
  have hblock : parseBlock text = (written text).mapM parse := by
    rw [parseBlock, if_pos h, ruleLines_eq_written]
  rw [parseAll, parseAll, hlines, List.mapM_cons, List.mapM_nil, hblock]
  cases (written text).mapM parse with
  | error e => rfl
  | ok rules =>
    have hflatten : (rules.map fun rule => [rule]).flatten = [rules].flatten := by
      rw [← List.flatMap_def, List.flatMap_singleton', List.flatten_singleton]
    exact congrArg Except.ok hflatten

end Rule

namespace Net

variable {name : String} {entities : List Entity} {texts others : List String}

/-- A net depends on the texts of its rules only through the rules that are read from all of them. -/
lemma ofEntities_congr (h : Rule.parseAll texts = Rule.parseAll others) :
    ofEntities name entities texts = ofEntities name entities others := by
  unfold Rule.parseAll at h
  unfold ofEntities
  generalize texts.mapM Rule.parseBlock = blocks at h
  generalize others.mapM Rule.parseBlock = blocks' at h
  cases blocks with
  | error e =>
    cases blocks' with
    | error e' =>
      cases h
      rfl
    | ok blocks' => contradiction
  | ok blocks =>
    cases blocks' with
    | error e' => contradiction
    | ok blocks' =>
      have hrules : blocks.flatten = blocks'.flatten := Except.ok.inj h
      simp only [bind, Except.bind, hrules]

/-- A block of rules can be replaced by the rules that are written on its lines, each of which is a text without a
line feed: what is built is the same net, with the same rules and arcs, or what is reported the same error. -/
theorem ofEntities_block (name : String) (entities : List Entity) (before after : List String) {text : String}
    (h : '\n' ∈ text.toList) :
    (∀ line ∈ Rule.written text, '\n' ∉ line.toList) ∧
    ofEntities name entities (before ++ [text] ++ after) =
      ofEntities name entities (before ++ Rule.written text ++ after) := by
  refine ⟨fun line hline => ?_, ofEntities_congr ?_⟩
  · rw [← Rule.ruleLines_eq_written] at hline
    exact Rule.not_mem_of_mem_ruleLines hline
  · rw [Rule.parseAll_append, Rule.parseAll_append, Rule.parseAll_append, Rule.parseAll_append,
      Rule.parseAll_written h]

end Net

/-- Two rules of the shop in a block that ends its lines with carriage returns before the line feeds. -/
def shopBlock : String :=
  "\r\n  # the shop\r\n  fill -> open stock\r\n\topen -> fill close  "

theorem ofEntities_shopBlock : '\n' ∈ shopBlock.toList ∧
    Rule.written shopBlock = ["fill -> open stock", "open -> fill close"] ∧
    Net.ofEntities "shop"
      [.place "open" (.finite 1), .transition "fill", .place "stock" (.finite 0), .transition "close"]
      ([] ++ [shopBlock] ++ ["stock -> close"]) = .ok shop := by
  have h : '\n' ∈ shopBlock.toList := by decide +kernel
  have hwritten : Rule.written shopBlock = ["fill -> open stock", "open -> fill close"] := by decide +kernel
  refine ⟨h, hwritten, ?_⟩
  rw [(Net.ofEntities_block _ _ _ _ h).2, hwritten]
  decide +kernel

end Coverability
