import Coverability.Json.Nets
import Coverability.Proofs.JsonTexts

/-!
# Reading back nets and markings

A value is read back if its JSON form is writable and its reader takes this form to the value. Records,
lists and values that may be missing are read back if their parts are, so each type needs one short
proof. The numbers of a value have to fit the fields that they are written to.
-/

namespace Coverability

namespace Json

/-- The value is written in a form that is read back as the value. -/
structure ReadsBack {α : Type} (encode : α → Json) (decode : Json → Option α) (a : α) : Prop where
  writable : (encode a).Writable
  decode_encode : decode (encode a) = some a

/-- Both texts of the value are read back as the value. -/
def TextsReadBack {α : Type} (encode : α → Json) (decode : Json → Option α) (a : α) : Prop :=
  (parse? (encode a).pretty).bind decode = some a ∧
    (parse? (encode a).compact).bind decode = some a

lemma ReadsBack.texts {α : Type} {encode : α → Json} {decode : Json → Option α} {a : α}
    (h : ReadsBack encode decode a) : TextsReadBack encode decode a := by
  simp [TextsReadBack, parse?_pretty h.writable, parse?_compact h.writable, h.decode_encode]

/-! ### Parts -/

lemma readsBack_text (s : String) : ReadsBack text text? s :=
  ⟨.string _, rfl⟩

lemma readsBack_bool (b : Bool) : ReadsBack .bool bool? b :=
  ⟨.bool b, rfl⟩

lemma readsBack_nat {bound n : ℕ} (h : n < bound) : ReadsBack .number (nat? bound) n :=
  ⟨.number n, if_pos h⟩

lemma readsBack_word (n : UInt32) : ReadsBack (fun n : UInt32 => .number n.toNat) word? n := by
  refine ⟨.number _, ?_⟩
  have hread := (readsBack_nat n.toNat_lt).decode_encode
  simp [word?, index?, hread]

lemma mapM_eq_some_of_forall {α β γ : Type} {f : β → Option γ} {g : α → β} {k : α → γ}
    {items : List α} (h : ∀ a ∈ items, f (g a) = some (k a)) :
    (items.map g).mapM f = some (items.map k) := by
  induction items with
  | nil => rfl
  | cons a items ih =>
    simp [List.mapM_cons, h a (by simp), ih fun b hb => h b (by simp [hb])]

lemma readsBack_list {α : Type} {encode : α → Json} {decode : Json → Option α} {items : List α}
    (h : ∀ a ∈ items, ReadsBack encode decode a) :
    ReadsBack (ofList encode) (list? decode) items where
  writable := .array (by simpa [ofList] using fun a ha => (h a ha).writable)
  decode_encode := by
    have hread := mapM_eq_some_of_forall (k := id) fun a ha => (h a ha).decode_encode
    simpa [ofList, list?] using hread

lemma readsBack_texts (texts : List String) : ReadsBack (ofList text) (list? text?) texts :=
  readsBack_list fun s _ => readsBack_text s

lemma readsBack_orNull {α : Type} {encode : α → Json} {decode : Json → Option α} {a : Option α}
    (hne : ∀ b, encode b ≠ .null) (h : ∀ b ∈ a, ReadsBack encode decode b) :
    ReadsBack (orNull encode) (fun value => optional? decode (some value)) a := by
  cases a with
  | none => exact ⟨.null, rfl⟩
  | some b =>
    refine ⟨(h b rfl).writable, ?_⟩
    unfold optional?
    split
    · contradiction
    · next heq => exact absurd (Option.some.inj heq) (hne b)
    · next heq => simp [← Option.some.inj heq, orNull, (h b rfl).decode_encode]

lemma readsBack_natOrNull {bound : ℕ} {a : Option ℕ} (h : ∀ n ∈ a, n < bound) :
    ReadsBack (orNull .number) (fun value => optional? (nat? bound) (some value)) a :=
  readsBack_orNull (fun _ => nofun) fun n hn => readsBack_nat (h n hn)

/-! ### Records -/

@[simp] lemma writable_text (s : String) : (text s).Writable :=
  .string s

@[simp] lemma writable_number (n : ℕ) : (number n).Writable :=
  .number n

@[simp] lemma writable_bool (b : Bool) : (bool b).Writable :=
  .bool b

@[simp] lemma writable_record {members : List (String × Json)} :
    (record members).Writable ↔ ∀ member ∈ members, member.2.Writable := by
  constructor
  · rintro (_ | _ | _ | _ | _ | _ | h) member hm
    exact h _ (List.mem_map_of_mem hm)
  · refine fun h => .object fun member hm => ?_
    obtain ⟨field, hf, rfl⟩ := List.mem_map.1 hm
    exact h field hf

lemma valuesOf_record_eq_nil {name : String} {members : List (String × Json)}
    (h : name ∉ members.map Prod.fst) :
    valuesOf name (members.map fun (key, value) => (some key, value)) = [] := by
  refine List.filterMap_eq_nil_iff.2 fun member hm => ?_
  obtain ⟨field, hf, rfl⟩ := List.mem_map.1 hm
  have hne : field.1 ≠ name := fun heq => h (List.mem_map.2 ⟨field, hf, heq⟩)
  simp [hne]

lemma valuesOf_record {members : List (String × Json)} (h : (members.map Prod.fst).Nodup)
    {member : String × Json} (hm : member ∈ members) :
    valuesOf member.1 (members.map fun (key, value) => (some key, value)) = [member.2] := by
  induction members with
  | nil => contradiction
  | cons first members ih =>
    obtain ⟨hfirst, hrest⟩ := List.nodup_cons.1 h
    rcases List.mem_cons.1 hm with rfl | hm
    · simpa [valuesOf] using valuesOf_record_eq_nil hfirst
    · have hne : first.1 ≠ member.1 := fun heq => hfirst (heq ▸ List.mem_map_of_mem hm)
      simpa [valuesOf, hne] using ih hrest hm

/-- A record is read as the values of its fields, in their order. -/
theorem fields?_record {names : List String} {members : List (String × Json)}
    (hnames : members.map Prod.fst = names) (h : names.Nodup) (defaulted : ℕ) :
    (record members).fields? names defaulted = some (members.map fun member => some member.2) := by
  subst hnames
  rw [record, fields?, if_pos (by simp)]
  refine mapM_eq_some_of_forall fun member hm => ?_
  rw [member?, valuesOf_record h hm]

lemma variant?_record (name : String) (content : Json) :
    (record [(name, content)]).variant? = some (name, some content) :=
  rfl

end Json

lemma TokenCount.readsBack (count : TokenCount) : Json.ReadsBack toJson ofJson? count := by
  cases count with
  | infinite => exact ⟨.string _, rfl⟩
  | finite n =>
    refine ⟨by simp [toJson], ?_⟩
    have hread := (Json.readsBack_word n).decode_encode
    simp [toJson, ofJson?, Json.variant?_record, hread]

lemma Marking.readsBack (m : Marking) : Json.ReadsBack toJson ofJson? m := by
  have h := Json.readsBack_list fun count (_ : count ∈ m.counts) => count.readsBack
  exact ⟨h.writable, by simp [ofJson?, toJson, h.decode_encode]⟩

lemma Entity.readsBack (entity : Entity) : Json.ReadsBack toJson ofJson? entity := by
  cases entity with
  | place name tokens =>
    refine ⟨by simp [toJson, tokens.readsBack.writable], ?_⟩
    simp only [toJson, ofJson?, Json.variant?_record, Option.bind_eq_bind, Option.bind_some]
    rw [Json.fields?_record]
    · simp [Json.required?, (Json.readsBack_text name).decode_encode,
        tokens.readsBack.decode_encode]
    · rfl
    · decide
  | transition name =>
    refine ⟨by simp [toJson], ?_⟩
    simp only [toJson, ofJson?, Json.variant?_record, Option.bind_eq_bind, Option.bind_some]
    rw [Json.fields?_record]
    · rfl
    · rfl
    · decide

/-- The index of the place fits its field. -/
def Arc.Fits (arc : Arc) : Prop :=
  arc.place < UInt32.size

lemma Arc.readsBack {arc : Arc} (h : arc.Fits) : Json.ReadsBack toJson ofJson? arc where
  writable := .array (by simp)
  decode_encode := by
    have hweight := (Json.readsBack_word arc.weight).decode_encode
    have hplace := (Json.readsBack_nat h).decode_encode
    simp [toJson, ofJson?, hweight, Json.index?, hplace]

/-- The indices of all places fit their fields. -/
structure Arcs.Fits (arcs : Arcs) : Prop where
  consumes : ∀ arc ∈ arcs.consumes, arc.Fits
  produces : ∀ arc ∈ arcs.produces, arc.Fits

lemma Arcs.readsBack {arcs : Arcs} (h : arcs.Fits) : Json.ReadsBack toJson ofJson? arcs := by
  have hconsumes := Json.readsBack_list fun arc ha => Arc.readsBack (h.consumes arc ha)
  have hproduces := Json.readsBack_list fun arc ha => Arc.readsBack (h.produces arc ha)
  refine ⟨by simp [toJson, hconsumes.writable, hproduces.writable], ?_⟩
  rw [toJson, ofJson?, Json.fields?_record]
  · simp [Json.required?, hconsumes.decode_encode, hproduces.decode_encode]
  · rfl
  · decide

lemma Outcome.readsBack (outcome : Outcome) : Json.ReadsBack toJson ofJson? outcome := by
  have happlied := Json.readsBack_texts outcome.applied
  have hmarking := outcome.marking.readsBack
  refine ⟨by simp [toJson, hmarking.writable, happlied.writable], ?_⟩
  rw [toJson, ofJson?, Json.fields?_record]
  · simp [Json.required?, (Json.readsBack_bool outcome.success).decode_encode,
      hmarking.decode_encode, happlied.decode_encode]
  · rfl
  · decide

lemma PlaceDefinition.readsBack (place : PlaceDefinition) :
    Json.ReadsBack toJson ofJson? place := by
  refine ⟨by simp [toJson], ?_⟩
  rw [toJson, ofJson?, Json.fields?_record]
  · simp [Json.required?, (Json.readsBack_text place.name).decode_encode,
      (Json.readsBack_word place.tokens).decode_encode]
  · rfl
  · decide

theorem NetDefinition.readsBack (d : NetDefinition) : Json.ReadsBack toJson ofJson? d := by
  have hplaces := Json.readsBack_list fun place (_ : place ∈ d.places) => place.readsBack
  have htransitions := Json.readsBack_texts d.transitions
  have hrules := Json.readsBack_texts d.rules
  refine ⟨by simp [toJson, hplaces.writable, htransitions.writable, hrules.writable], ?_⟩
  rw [toJson, ofJson?, Json.fields?_record]
  · simp [Json.required?, (Json.readsBack_text d.name).decode_encode, hplaces.decode_encode,
      htransitions.decode_encode, hrules.decode_encode]
  · rfl
  · decide

end Coverability
