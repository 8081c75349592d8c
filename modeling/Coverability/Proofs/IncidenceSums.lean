import Coverability.Proofs.ArcSums

/-!
# Incidence as sums

Every target of a rule mentions one arc. The arcs that are read from the rules are the sums of those that are
mentioned, transition by transition and in each direction. They are read just if all names stand for something, each
target is joined with its source, and the sums fit into 32 bits.
-/

namespace Coverability

/-- One of the two is a place, and the other is a transition. -/
def EntityRef.Joins : EntityRef → EntityRef → Prop
  | .place _, .transition _ => True
  | .transition _, .place _ => True
  | _, _ => False

/-- The source and the targets of the rule stand for something, and each target has a positive weight and can be
joined with the source. -/
def Rule.Fits (resolve : String → Option EntityRef) (rule : Rule) : Prop :=
  ∃ source, resolve rule.source = some source ∧ ∀ target ∈ rule.targets,
    1 ≤ target.weight ∧ ∃ other, resolve target.name = some other ∧ source.Joins other

/-- An arc as a rule mentions it. -/
structure Mention where
  transition : ℕ
  direction : Direction
  arc : Arc

/-- The arc between a source and a target, if it is one. -/
def mention? (resolve : String → Option EntityRef) (source : String) (target : Target) : Option Mention :=
  match resolve source, resolve target.name with
  | some (.place p), some (.transition t) => some ⟨t, .consumes, ⟨target.weight, p⟩⟩
  | some (.transition t), some (.place p) => some ⟨t, .produces, ⟨target.weight, p⟩⟩
  | _, _ => none

def Rule.mentions (resolve : String → Option EntityRef) (rule : Rule) : List Mention :=
  rule.targets.filterMap (mention? resolve rule.source)

/-- The arcs that are mentioned for transition `t` in one direction. -/
def arcsOf (mentions : List Mention) (t : ℕ) (d : Direction) : List Arc :=
  (mentions.filter fun x => x.transition = t ∧ x.direction = d).map Mention.arc

/-- There are `n` entries, and each of them sums up in both directions what is mentioned for its transition. -/
structure Summed (n : ℕ) (mentions : List Mention) (arcs : List Arcs) : Prop where
  length_eq : arcs.length = n
  sums : ∀ t entry, arcs[t]? = some entry → ∀ d, Arc.Sums (arcsOf mentions t d) (entry.side d)

/-- No sum of weights that are mentioned leaves 32 bits. -/
def SumsFit (n : ℕ) (mentions : List Mention) : Prop :=
  ∀ t < n, ∀ d p, Arc.total (arcsOf mentions t d) p ≤ 4294967295

variable {n t : ℕ} {resolve : String → Option EntityRef} {rule : Rule} {source : EntityRef} {target : Target}
  {mentions more : List Mention} {x : Mention} {d : Direction} {arcs sum : List Arcs} {old new : Arcs}

lemma arcsOf_append : arcsOf (mentions ++ more) t d = arcsOf mentions t d ++ arcsOf more t d := by
  simp [arcsOf]

lemma arcsOf_singleton : arcsOf [x] t d = if x.transition = t ∧ x.direction = d then [x.arc] else [] := by
  by_cases h : x.transition = t ∧ x.direction = d <;> simp [arcsOf, h]

lemma SumsFit.of_append (h : SumsFit n (mentions ++ more)) : SumsFit n mentions := by
  intro t ht d p
  have hsum := h t ht d p
  rw [arcsOf_append, Arc.total_append] at hsum
  omega

lemma Summed.sumsFit (h : Summed n mentions arcs) : SumsFit n mentions := by
  intro t ht d p
  rw [← h.length_eq] at ht
  have hlt := (h.sums t arcs[t] (List.getElem?_eq_getElem ht) d).total_lt p
  exact Nat.le_of_lt_succ hlt

/-! ### One mention -/

namespace Mention

/-- Inserts the arc into those of its transition. -/
def addTo? (x : Mention) (arcs : Arcs) : Option Arcs :=
  match x.direction with
  | .consumes => arcs.addConsumed? x.arc.place x.arc.weight
  | .produces => arcs.addProduced? x.arc.place x.arc.weight

lemma exists_addTo?_iff : (∃ new, x.addTo? old = some new) ↔
    ∃ side, Arc.insert? (old.side x.direction) x.arc.place x.arc.weight = some side := by
  unfold addTo?
  cases hd : x.direction <;> simp [Arcs.side, Arcs.addConsumed?, Arcs.addProduced?]

lemma side_of_addTo? (h : x.addTo? old = some new) :
    Arc.insert? (old.side x.direction) x.arc.place x.arc.weight = some (new.side x.direction) ∧
      ∀ d, d ≠ x.direction → new.side d = old.side d := by
  unfold addTo? at h
  cases hd : x.direction with
  | consumes =>
    rw [hd] at h
    obtain ⟨side, hside, rfl⟩ := Option.map_eq_some_iff.mp h
    exact ⟨hside, fun d hne => by cases d <;> simp_all [Arcs.side]⟩
  | produces =>
    rw [hd] at h
    obtain ⟨side, hside, rfl⟩ := Option.map_eq_some_iff.mp h
    exact ⟨hside, fun d hne => by cases d <;> simp_all [Arcs.side]⟩

end Mention

lemma updateArcs_eq_ok_iff {add? : Arcs → Option Arcs} : updateArcs rule target arcs t add? = .ok sum ↔
    ∃ old new, arcs[t]? = some old ∧ add? old = some new ∧ sum = arcs.set t new := by
  unfold updateArcs
  split
  · next hnone => simp [hnone]
  · next old hold =>
    split
    · next hnone => simp [hold, hnone]
    · next new hnew => simp [hold, hnew, eq_comm]

lemma one_le_weight_iff : 1 ≤ target.weight ↔ target.weight ≠ 0 := by
  rw [UInt32.le_iff_toNat_le, Ne, ← UInt32.toNat_inj]
  exact Nat.one_le_iff_ne_zero

lemma exists_mention?_iff (hs : resolve rule.source = some source) :
    (∃ x, mention? resolve rule.source target = some x) ↔
      ∃ other, resolve target.name = some other ∧ source.Joins other := by
  rw [mention?, hs]
  cases resolve target.name with
  | none => simp
  | some other => cases source <;> cases other <;> simp [EntityRef.Joins]

/-- A target is read just if it has a positive weight and mentions an arc, which is then inserted. -/
lemma addTarget_eq_ok_iff (hs : resolve rule.source = some source) :
    addTarget resolve rule source arcs target = .ok sum ↔ 1 ≤ target.weight ∧
      ∃ x, mention? resolve rule.source target = some x ∧
        ∃ old new, arcs[x.transition]? = some old ∧ x.addTo? old = some new ∧ sum = arcs.set x.transition new := by
  rw [addTarget, mention?, hs, one_le_weight_iff]
  by_cases hw : target.weight = 0
  · simp [hw]
  · rw [if_neg hw]
    cases hother : resolve target.name with
    | none => simp [resolved, hother, bind, Except.bind]
    | some other =>
      simp only [resolved, hother, bind, Except.bind]
      cases source <;> cases other <;>
        simp [hw, updateArcs_eq_ok_iff, Mention.addTo?]

lemma transition_lt_of_mention? (hr : ∀ name t, resolve name = some (.transition t) → t < n)
    (h : mention? resolve rule.source target = some x) : x.transition < n := by
  unfold mention? at h
  split at h
  · next ht =>
    cases h
    exact hr _ _ ht
  · next ht _ =>
    cases h
    exact hr _ _ ht
  · contradiction

/-! ### Steps that add mentions -/

/-- On the sums of what was mentioned before, the step succeeds just if `accepted` holds and all sums still fit,
and then it adds what is mentioned to the sums. -/
def Adds (n : ℕ) (step : List Arcs → Except NetError (List Arcs)) (accepted : Prop) (added : List Mention) : Prop :=
  ∀ mentions arcs, Summed n mentions arcs →
    ((∃ sum, step arcs = .ok sum) ↔ accepted ∧ SumsFit n (mentions ++ added)) ∧
    ∀ sum, step arcs = .ok sum → Summed n (mentions ++ added) sum

/-- The arcs of the other transitions, and those in the other direction, are summed up as before. -/
lemma Summed.set (h : Summed n mentions arcs) (hold : arcs[x.transition]? = some old)
    (hnew : x.addTo? old = some new) : Summed n (mentions ++ [x]) (arcs.set x.transition new) := by
  obtain ⟨hside, hother⟩ := Mention.side_of_addTo? hnew
  refine ⟨by rw [List.length_set, h.length_eq], fun t entry hentry d => ?_⟩
  rw [arcsOf_append, arcsOf_singleton]
  rw [List.getElem?_set] at hentry
  by_cases ht : x.transition = t
  · subst ht
    have hentry : new = entry := by
      rw [if_pos rfl] at hentry
      split at hentry
      · exact Option.some.inj hentry
      · contradiction
    subst hentry
    have hsums := h.sums x.transition old hold d
    by_cases hd : x.direction = d
    · subst hd
      simpa using hsums.insert? hside
    · rw [if_neg (fun he => hd he.2), List.append_nil, hother d (Ne.symm hd)]
      exact hsums
  · rw [if_neg (fun he => ht he.1), List.append_nil]
    rw [if_neg ht] at hentry
    exact h.sums t entry hentry d

/-- An arc can be inserted just if all sums still fit, since no other sum grows. -/
lemma Summed.exists_addTo?_iff (h : Summed n mentions arcs) (hold : arcs[x.transition]? = some old) :
    (∃ new, x.addTo? old = some new) ↔ SumsFit n (mentions ++ [x]) := by
  constructor
  · rintro ⟨new, hnew⟩
    exact (h.set hold hnew).sumsFit
  · intro hfit
    have ht : x.transition < n := h.length_eq ▸ (List.getElem?_eq_some_iff.mp hold).1
    have hle := hfit x.transition ht x.direction x.arc.place
    rw [arcsOf_append, arcsOf_singleton, if_pos ⟨rfl, rfl⟩] at hle
    rw [Mention.exists_addTo?_iff, (h.sums x.transition old hold x.direction).exists_insert?_iff]
    exact Nat.lt_succ_of_le hle

lemma adds_addTarget (hr : ∀ name t, resolve name = some (.transition t) → t < n)
    (hs : resolve rule.source = some source) (target : Target) :
    Adds n (addTarget resolve rule source · target)
      (1 ≤ target.weight ∧ ∃ other, resolve target.name = some other ∧ source.Joins other)
      (mention? resolve rule.source target).toList := by
  intro mentions arcs h
  simp only [addTarget_eq_ok_iff hs, ← exists_mention?_iff hs]
  cases hmention : mention? resolve rule.source target with
  | none => simp
  | some x =>
    have hlt : x.transition < arcs.length := h.length_eq ▸ transition_lt_of_mention? hr hmention
    obtain ⟨old, hold⟩ : ∃ old, arcs[x.transition]? = some old := ⟨_, List.getElem?_eq_getElem hlt⟩
    rw [Option.toList_some, ← h.exists_addTo?_iff hold]
    refine ⟨⟨?_, ?_⟩, ?_⟩
    · rintro ⟨sum, hw, _, ⟨⟩, old', new, hold', hnew, -⟩
      cases hold.symm.trans hold'
      exact ⟨⟨hw, x, rfl⟩, new, hnew⟩
    · rintro ⟨⟨hw, -⟩, new, hnew⟩
      exact ⟨_, hw, x, rfl, old, new, hold, hnew, rfl⟩
    · rintro sum ⟨-, _, ⟨⟩, old', new, hold', hnew, rfl⟩
      exact h.set hold' hnew

/-- Steps one after the other add what they mention one after the other. -/
lemma Adds.foldlM {α : Type} {l : List α} {f : List Arcs → α → Except NetError (List Arcs)} {accepted : α → Prop}
    {added : α → List Mention} (hf : ∀ a ∈ l, Adds n (f · a) (accepted a) (added a)) :
    Adds n (fun arcs => l.foldlM f arcs) (∀ a ∈ l, accepted a) (l.flatMap added) := by
  induction l with
  | nil =>
    intro mentions arcs h
    rw [List.flatMap_nil, List.append_nil]
    refine ⟨⟨fun _ => ⟨nofun, h.sumsFit⟩, fun _ => ⟨arcs, rfl⟩⟩, ?_⟩
    rintro sum ⟨⟩
    exact h
  | cons a l ih =>
    intro mentions arcs h
    obtain ⟨hfirst, hrest⟩ := List.forall_mem_cons.mp hf
    have ih := ih hrest
    obtain ⟨hok, hsums⟩ := hfirst mentions arcs h
    simp only [List.foldlM_cons, bind_eq_ok, List.flatMap_cons, ← List.append_assoc]
    refine ⟨⟨?_, ?_⟩, ?_⟩
    · rintro ⟨sum, next, hnext, hsum⟩
      obtain ⟨haccepted, -⟩ := hok.mp ⟨next, hnext⟩
      obtain ⟨hall, hfit⟩ := (ih _ next (hsums next hnext)).1.mp ⟨sum, hsum⟩
      exact ⟨List.forall_mem_cons.mpr ⟨haccepted, hall⟩, hfit⟩
    · rintro ⟨hall, hfit⟩
      obtain ⟨haccepted, hall⟩ := List.forall_mem_cons.mp hall
      -- Weights only add up, so sums that fit in the end fit on the way.
      obtain ⟨next, hnext⟩ := hok.mpr ⟨haccepted, hfit.of_append⟩
      obtain ⟨sum, hsum⟩ := (ih _ next (hsums next hnext)).1.mpr ⟨hall, hfit⟩
      exact ⟨sum, next, hnext, hsum⟩
    · rintro sum ⟨next, hnext, hsum⟩
      exact (ih _ next (hsums next hnext)).2 sum hsum

lemma adds_addRule (hr : ∀ name t, resolve name = some (.transition t) → t < n) (rule : Rule) :
    Adds n (addRule resolve · rule) (rule.Fits resolve) (rule.mentions resolve) := by
  intro mentions arcs h
  unfold addRule Rule.Fits Rule.mentions
  cases hs : resolve rule.source with
  | none => simp [resolved, hs, bind, Except.bind]
  | some source =>
    have htargets := Adds.foldlM (l := rule.targets) fun target _ => adds_addTarget hr hs target
    rw [List.filterMap_eq_flatMap_toList]
    simpa [resolved, hs, bind, Except.bind] using htargets mentions arcs h

lemma summed_replicate (n : ℕ) : Summed n [] (List.replicate n {}) := by
  refine ⟨List.length_replicate, fun t entry hentry d => ?_⟩
  rw [List.eq_of_mem_replicate (List.mem_of_getElem? hentry)]
  cases d <;> exact Arc.sums_nil

/-- The arcs of `n` transitions are read from the rules just if every name stands for something, every target has a
positive weight and joins a place with a transition, and for no transition, direction and place the weights that are
mentioned add up to more than 32 bits. They hold one arc for each place that is mentioned, in the order of the first
mention, with the sum of the weights. -/
theorem incidence_sums {rules : List Rule} (hr : ∀ name t, resolve name = some (.transition t) → t < n) :
    ((∃ arcs, incidence rules n resolve = .ok arcs) ↔
      (∀ rule ∈ rules, rule.Fits resolve) ∧ SumsFit n (rules.flatMap (Rule.mentions resolve))) ∧
    ∀ arcs, incidence rules n resolve = .ok arcs → Summed n (rules.flatMap (Rule.mentions resolve)) arcs := by
  have hrules := Adds.foldlM (l := rules) fun rule _ => adds_addRule hr rule
  exact hrules [] _ (summed_replicate n)

/-- What names stand for in a market. -/
def resolveMarket : String → Option EntityRef :=
  resolveName ["open", "stock"] ["fill", "sell"]

/-- The stock is mentioned twice in one rule, and as a source in two. -/
def marketRules : List Rule := [
  ⟨"fill -> 2*stock open stock", "fill", [⟨2, "stock"⟩, ⟨1, "open"⟩, ⟨1, "stock"⟩]⟩,
  ⟨"stock -> sell", "stock", [⟨1, "sell"⟩]⟩,
  ⟨"stock -> 4294967294*sell", "stock", [⟨4294967294, "sell"⟩]⟩]

lemma transition_lt_of_resolveName {placeNames transitionNames : List String} {name : String}
    (h : resolveName placeNames transitionNames name = some (.transition t)) : t < transitionNames.length := by
  unfold resolveName at h
  split at h
  · simp at h
  · obtain ⟨i, hi, he⟩ := Option.map_eq_some_iff.mp h
    cases he
    exact (List.idxOf?_eq_some_iff.mp hi).1

/-- The rules of the market go to the limit of a weight, so they leave no room for one more sale. -/
theorem incidence_market : (∀ name t, resolveMarket name = some (.transition t) → t < 2) ∧
    Summed 2 (marketRules.flatMap (Rule.mentions resolveMarket))
      [⟨[], [⟨3, 1⟩, ⟨1, 0⟩]⟩, ⟨[⟨4294967295, 1⟩], []⟩] ∧
    ¬∃ arcs, incidence (marketRules ++ [⟨"stock -> sell", "stock", [⟨1, "sell"⟩]⟩]) 2 resolveMarket = .ok arcs := by
  have hr : ∀ name t, resolveMarket name = some (.transition t) → t < 2 :=
    fun _ _ h => transition_lt_of_resolveName h
  have hok : incidence marketRules 2 resolveMarket =
      .ok [⟨[], [⟨3, 1⟩, ⟨1, 0⟩]⟩, ⟨[⟨4294967295, 1⟩], []⟩] := by
    decide +kernel
  refine ⟨hr, (incidence_sums hr).2 _ hok, fun h => ?_⟩
  have hsum := ((incidence_sums hr).1.mp h).2 1 (by decide) .consumes 1
  exact absurd hsum (by decide +kernel)

end Coverability
