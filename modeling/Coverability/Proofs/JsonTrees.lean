import Coverability.Json.Trees
import Coverability.Proofs.JsonNets

/-!
# Reading back trees

A tree is written with its links and statistics, and read back as it stands. Indices of places,
transitions and nodes have 32 bits in the JSON form, and all other counts have 64 bits.
-/

namespace Coverability

lemma Pruning.readsBack (pruning : Pruning) :
    Json.ReadsBack (fun pruning => .text pruning.name) (Json.named? ofName?) pruning := by
  cases pruning <;> exact ⟨.string _, rfl⟩

lemma Duration.readsBack (d : Duration) : Json.ReadsBack toJson ofJson? d := by
  have hsecs := Json.readsBack_nat d.secs_lt
  have hnanos := Json.readsBack_nat (Nat.lt_trans d.nanos_lt (by decide : nanosPerSecond < UInt32.size))
  refine ⟨by simp [toJson], ?_⟩
  have hparts : hasPartsOnly (toJson d) = true := rfl
  rw [ofJson?, hparts, toJson, Json.fields?_record]
  · simp [Json.required?, Json.count?, Json.index?, hsecs.decode_encode, hnanos.decode_encode]
  · rfl
  · decide

/-- The index of the other node fits its field. -/
def NodeKind.Fits (kind : NodeKind) : Prop :=
  ∀ other, kind = .duplicate other → other < UInt32.size

lemma NodeKind.readsBack {kind : NodeKind} (h : kind.Fits) :
    Json.ReadsBack toJson ofJson? kind := by
  cases kind with
  | interior => exact ⟨.string _, rfl⟩
  | dead => exact ⟨.string _, rfl⟩
  | duplicate other =>
    have hother := Json.readsBack_nat (h other rfl)
    refine ⟨by simp [toJson], ?_⟩
    simp only [toJson, ofJson?, Json.variant?_record, Option.bind_eq_bind, Option.bind_some]
    rw [Json.fields?_record]
    · simp [Json.required?, Json.index?, hother.decode_encode]
    · rfl
    · decide

/-- The numbers of the node fit their fields. -/
structure Node.Fits (node : Node) : Prop where
  transition : ∀ t ∈ node.transition, t < UInt32.size
  parent : ∀ index ∈ node.parent, index < UInt32.size
  children : ∀ index ∈ node.children, index < UInt32.size
  kind : node.kind.Fits
  depth : node.depth < UInt64.size

lemma Node.readsBack {node : Node} (h : node.Fits) : Json.ReadsBack toJson ofJson? node := by
  have htransition := Json.readsBack_natOrNull h.transition
  have hparent := Json.readsBack_natOrNull h.parent
  have hchildren := Json.readsBack_list fun index hi => Json.readsBack_nat (h.children index hi)
  have hmarking := node.marking.readsBack
  have hkind := NodeKind.readsBack h.kind
  have hdepth := Json.readsBack_nat h.depth
  refine ⟨by simp [toJson, htransition.writable, hparent.writable, hchildren.writable,
    hmarking.writable, hkind.writable], ?_⟩
  rw [toJson, ofJson?, Json.fields?_record]
  · simp [Json.required?, Json.index?, Json.count?, htransition.decode_encode,
      hparent.decode_encode, hchildren.decode_encode, hmarking.decode_encode,
      hkind.decode_encode, hdepth.decode_encode]
  · rfl
  · decide

/-- The counts fit their fields. -/
structure Statistics.Fits (s : Statistics) : Prop where
  nodeCount : s.nodeCount < UInt64.size
  duplicateCount : s.duplicateCount < UInt64.size
  deadCount : s.deadCount < UInt64.size
  maxDepth : s.maxDepth < UInt64.size

lemma Statistics.readsBack {s : Statistics} (h : s.Fits) :
    Json.ReadsBack toJson ofJson? s := by
  refine ⟨by simp [toJson, s.time.readsBack.writable], ?_⟩
  rw [toJson, ofJson?, Json.fields?_record]
  · simp [Json.required?, Json.count?, (Json.readsBack_nat h.nodeCount).decode_encode,
      (Json.readsBack_nat h.duplicateCount).decode_encode,
      (Json.readsBack_nat h.deadCount).decode_encode,
      (Json.readsBack_nat h.maxDepth).decode_encode, s.time.readsBack.decode_encode]
  · rfl
  · decide

/-- The numbers of all nodes and the counts over them fit their fields. -/
structure Tree.Fits (tree : Tree) : Prop where
  nodes : ∀ node ∈ tree.nodes, node.Fits
  statistics : tree.statistics.Fits

theorem Tree.readsBack {tree : Tree} (h : tree.Fits) : Json.ReadsBack toJson ofJson? tree := by
  have hplaces := Json.readsBack_texts tree.placeNames
  have htransitions := Json.readsBack_texts tree.transitionNames
  have hpruning := tree.pruning.readsBack
  have hnodes := Json.readsBack_list fun node (hn : node ∈ tree.nodes.toList) =>
    Node.readsBack (h.nodes node (by simpa using hn))
  have hstatistics := Statistics.readsBack h.statistics
  refine ⟨by simp [toJson, hplaces.writable, htransitions.writable, hnodes.writable,
    hstatistics.writable], ?_⟩
  rw [toJson, ofJson?, Json.fields?_record]
  · simp [Json.required?, hplaces.decode_encode, htransitions.decode_encode,
      hpruning.decode_encode, hnodes.decode_encode, hstatistics.decode_encode]
  · rfl
  · decide

/-- Net definitions, trees, outcomes, arcs, markings and entities are read back from their texts as they
were, whatever their names. A tree and arcs need numbers that fit their fields. -/
theorem texts_readBack :
    (∀ d : NetDefinition, NetDefinition.ofText? d.toText = some d) ∧
      (∀ tree : Tree, tree.Fits → Tree.ofText? tree.toText = some tree) ∧
      (∀ outcome, Json.TextsReadBack Outcome.toJson Outcome.ofJson? outcome) ∧
      (∀ arcs : Arcs, arcs.Fits → Json.TextsReadBack Arcs.toJson Arcs.ofJson? arcs) ∧
      (∀ m, Json.TextsReadBack Marking.toJson Marking.ofJson? m) ∧
      ∀ entity, Json.TextsReadBack Entity.toJson Entity.ofJson? entity := by
  refine ⟨fun d => ?_, fun tree h => ?_, fun outcome => ?_, fun arcs h => ?_, fun m => ?_,
    fun entity => ?_⟩
  · exact d.readsBack.texts.1
  · exact (Tree.readsBack h).texts.1
  · exact outcome.readsBack.texts
  · exact (Arcs.readsBack h).texts
  · exact m.readsBack.texts
  · exact entity.readsBack.texts

/-- A tree with omega, a duplicate, and names that are written with escapes. -/
def growingTree : Tree where
  placeNames := ["\"hall\" \\ ground floor", "tab\tand\x01bell", "Ω 😀"]
  transitionNames := ["en\nter"]
  pruning := .ancestorOnly
  nodes := #[
    ⟨none, ⟨[.finite 4294967295, .finite 0, .infinite]⟩, none, [1], .interior, 0⟩,
    ⟨some 0, ⟨[.finite 4294967295, .infinite, .infinite]⟩, some 0, [2], .interior, 1⟩,
    ⟨some 0, ⟨[.finite 4294967295, .infinite, .infinite]⟩, some 1, [], .duplicate 1, 2⟩]
  statistics := ⟨3, 1, 0, 2, .zero⟩

theorem texts_readBack_growingTree :
    Tree.ofText? growingTree.toText = some growingTree ∧
      Json.TextsReadBack Arcs.toJson Arcs.ofJson? ⟨[⟨1, 0⟩], [⟨4294967295, 4294967295⟩]⟩ := by
  refine ⟨texts_readBack.2.1 growingTree ⟨?_, ?_⟩, texts_readBack.2.2.2.1 _ ⟨?_, ?_⟩⟩
  · intro node hn
    simp only [growingTree, List.mem_toArray, List.mem_cons, List.not_mem_nil, or_false] at hn
    rcases hn with rfl | rfl | rfl <;> constructor <;> simp [NodeKind.Fits] <;> decide
  · constructor <;> decide
  · simp [Arc.Fits]
  · simp [Arc.Fits]

end Coverability
