import UnalignedPer.Proofs.Schema.Spelling

/-!
# Which nodes spell a type

A node spells a type if and only if it is sound, what it refers to has a type, and the nodes in it spell types
(`Spelling.isSome_type?_iff`). The parts that hold no types come first, each against its clause of the grammar.
-/

namespace UnalignedPer

namespace Spelling

variable {node : Json}

/-- One reading after another comes to something if the first one does and the second one does with its result. -/
theorem isSome_bind_iff {α β : Type} {x : Option α} {f : α → Option β} :
    (x.bind f).isSome = true ↔ ∃ a, x = some a ∧ (f a).isSome = true := by
  cases x with
  | none => simp
  | some a => simp

/-! ## The parts without types -/

/-- The extension flag is spelled where it is a truth value or missing. -/
theorem isSome_extensible?_iff : (extensible? node).isSome = true ↔ node.FlagSound "extensible" := by
  unfold extensible? Json.FlagSound
  cases node.under? "extensible" with
  | none => simp
  | some flag => cases flag <;> simp [Json.bool?]

/-- A bound is spelled where it is a number of 64 bits or missing, and not negative where it bounds a size. -/
theorem isSome_bound?_iff {isSize : Bool} {key : String} :
    (bound? isSize node key).isSome = true ↔
      ∀ bound, node.under? key = some bound → ∃ number, bound.int64? = some number ∧ (isSize = true → 0 ≤ number) := by
  unfold bound?
  cases node.under? key with
  | none => simp
  | some bound =>
    rw [isSome_bind_iff]
    constructor
    · rintro ⟨number, hn, h⟩ _ ⟨⟩
      refine ⟨number, hn, fun hs => Int64.not_lt.mp fun hlt => ?_⟩
      rw [if_pos ⟨hs, hlt⟩] at h
      cases h
    · intro h
      obtain ⟨number, hn, hs⟩ := h bound rfl
      refine ⟨number, hn, ?_⟩
      rw [if_neg fun hc => absurd hc.2 (Int64.not_lt.mpr (hs hc.1))]
      rfl

/-- A bound is the number under its key. -/
theorem bound?_eq {isSize : Bool} {key : String} {found : Option Int64} (h : bound? isSize node key = some found) :
    found = (node.under? key).bind Json.int64? := by
  unfold bound? at h
  cases hu : node.under? key with
  | none =>
    rw [hu] at h
    exact (Option.some.inj h).symm
  | some bound =>
    rw [hu] at h
    obtain ⟨number, hn, h⟩ := Option.bind_eq_some_iff.mp h
    split at h
    · cases h
    · rw [Option.bind_some, hn]
      exact (Option.some.inj h).symm

/-- A bound of a size is not negative. -/
theorem bound?_nonneg {key : String} {number : Int64} (h : bound? true node key = some (some number)) : 0 ≤ number := by
  have hb := bound?_eq h
  have hsome := isSome_bound?_iff.mp (Option.isSome_iff_exists.mpr ⟨_, h⟩)
  obtain ⟨bound, hu, hn⟩ := Option.bind_eq_some_iff.mp hb.symm
  obtain ⟨number', hn', hle⟩ := hsome bound hu
  rw [hn] at hn'
  cases hn'
  exact hle rfl

/-- Bounds that are not crossed are ordered. -/
theorem uncrossed_iff {lower upper : Option Int64} : uncrossed lower upper = true ↔ (Bounds.mk lower upper).Ordered := by
  unfold uncrossed
  rw [Option.all_eq_true]
  simp only [Option.all_eq_true, decide_eq_true_eq]
  exact ⟨fun h l u hl hu => h l hl u hu, fun h l hl u hu => h l u hl hu⟩

/-- What the bounds and the flag are put together from. -/
theorem bounds?_eq_some_iff {isSize : Bool} {bounds : Bounds Int64} {extensible : Bool} :
    bounds? isSize node = some (bounds, extensible) ↔
      bound? isSize node "min" = some bounds.lower ∧ bound? isSize node "max" = some bounds.upper ∧
        extensible? node = some extensible ∧ bounds.Ordered := by
  constructor
  · intro h
    obtain ⟨lower, hl, h⟩ := Option.bind_eq_some_iff.mp h
    obtain ⟨upper, hu, h⟩ := Option.bind_eq_some_iff.mp h
    obtain ⟨flag, he, h⟩ := Option.bind_eq_some_iff.mp h
    split at h
    · rename_i hc
      cases h
      exact ⟨hl, hu, he, uncrossed_iff.mp hc⟩
    · cases h
  · rintro ⟨hl, hu, he, ho⟩
    refine Option.bind_eq_some_iff.mpr ⟨_, hl, Option.bind_eq_some_iff.mpr ⟨_, hu, ?_⟩⟩
    refine Option.bind_eq_some_iff.mpr ⟨_, he, ?_⟩
    rw [if_pos (uncrossed_iff.mpr ho)]

/-- The bounds are spelled where each of them and the extension flag is, and they do not cross. -/
theorem isSome_bounds?_iff {isSize : Bool} :
    (bounds? isSize node).isSome = true ↔ node.BoundsSound isSize ∧ node.FlagSound "extensible" := by
  constructor
  · intro h
    obtain ⟨⟨⟨lower, upper⟩, extensible⟩, h⟩ := Option.isSome_iff_exists.mp h
    obtain ⟨hl, hu, he, ho⟩ := bounds?_eq_some_iff.mp h
    refine ⟨⟨?_, ?_⟩, isSome_extensible?_iff.mp (Option.isSome_iff_exists.mpr ⟨_, he⟩)⟩
    · intro key hk
      rw [List.mem_cons, List.mem_singleton] at hk
      rcases hk with rfl | rfl
      · exact isSome_bound?_iff.mp (Option.isSome_iff_exists.mpr ⟨_, hl⟩)
      · exact isSome_bound?_iff.mp (Option.isSome_iff_exists.mpr ⟨_, hu⟩)
    · intro l u hlow hup
      exact ho l u ((bound?_eq hl).trans hlow) ((bound?_eq hu).trans hup)
  · rintro ⟨hb, hf⟩
    obtain ⟨lower, hl⟩ := Option.isSome_iff_exists.mp (isSome_bound?_iff.mpr (hb.numbers "min" (List.mem_cons_self ..)))
    obtain ⟨upper, hu⟩ := Option.isSome_iff_exists.mp
      (isSome_bound?_iff.mpr (hb.numbers "max" (List.mem_cons_of_mem _ (List.mem_cons_self ..))))
    obtain ⟨extensible, he⟩ := Option.isSome_iff_exists.mp (isSome_extensible?_iff.mpr hf)
    refine Option.isSome_iff_exists.mpr ⟨⟨⟨lower, upper⟩, extensible⟩, bounds?_eq_some_iff.mpr ⟨hl, hu, he, ?_⟩⟩
    exact fun l u hlow hup => hb.ordered l u ((bound?_eq hl).symm.trans hlow) ((bound?_eq hu).symm.trans hup)

/-- The alphabet is spelled where it is a known one or missing. -/
theorem isSome_alphabet?_iff : (alphabet? node).isSome = true ↔ node.CharsetSound := by
  unfold alphabet? Json.CharsetSound
  cases node.under? "charset" with
  | none => simp
  | some charset => cases charset <;> simp [Json.str?]

/-- A type of a bounded kind. -/
theorem isSome_bounded?_iff {name : String} {kind : Kind}
    (h : kind = .integer ∨ kind = .octetString ∨ kind = .bitString ∨ kind = .text) :
    (bounded? name kind node).isSome = true ↔ node.KindSound kind := by
  unfold bounded?
  rw [Option.bind_eq_bind, isSome_bind_iff]
  have hplain : ∀ isSize, (∃ a, bounds? isSize node = some a) ↔ node.BoundsSound isSize ∧ node.FlagSound "extensible" :=
    fun isSize => Option.isSome_iff_exists.symm.trans isSome_bounds?_iff
  rcases h with rfl | rfl | rfl | rfl
  · simpa [Json.KindSound] using hplain false
  · simpa [Json.KindSound] using hplain true
  · simpa [Json.KindSound] using hplain true
  · have halphabet : ∀ a : Bounds Int64 × Bool,
        ((alphabet? node).bind fun alphabet => some (Descriptor.simple name (.text alphabet a.1) a.2)).isSome = true ↔
          node.CharsetSound := by
      intro a
      rw [← isSome_alphabet?_iff]
      cases alphabet? node <;> rfl
    show (∃ a, bounds? true node = some a ∧ _) ↔ _
    simp only [Option.bind_eq_bind, halphabet, exists_and_right, hplain true]
    exact and_assoc

/-- The marker is spelled where it names one of the members or is missing. -/
theorem isSome_standard?_iff {names : List String} :
    (standard? names node).isSome = true ↔ node.MarkerSound names := by
  unfold standard?
  rw [Option.bind_eq_bind, isSome_bind_iff]
  constructor
  · rintro ⟨extensible, he, h⟩
    refine ⟨isSome_extensible?_iff.mp (Option.isSome_iff_exists.mpr ⟨_, he⟩), fun after ha => ?_⟩
    simp only [ha] at h
    split at h
    · cases h
    · rename_i hc
      refine ⟨fun hf => hc ?_, ?_⟩
      · rw [extensible?, hf] at he
        cases he
        exact ⟨by rw [hf]; rfl, rfl⟩
      · rw [Option.isSome_map, isSome_bind_iff] at h
        obtain ⟨name, hn, hi⟩ := h
        refine ⟨name, List.isSome_idxOf?.mp hi, ?_⟩
        cases after
        case str text => exact congrArg Json.str (Option.some.inj hn)
        all_goals cases hn
  · intro h
    obtain ⟨extensible, he⟩ := Option.isSome_iff_exists.mp (isSome_extensible?_iff.mpr h.flag)
    refine ⟨extensible, he, ?_⟩
    cases ha : node.under? "extensionAfter" with
    | none => rfl
    | some after =>
      obtain ⟨hmark, name, hm, rfl⟩ := h.place after ha
      have hc : ¬((node.under? "extensible").isSome = true ∧ (!extensible) = true) := by
        rintro ⟨hsome, hnot⟩
        obtain ⟨flag, hf⟩ := Option.isSome_iff_exists.mp hsome
        rw [extensible?, hf] at he
        cases flag
        case bool value =>
          cases he
          rw [Bool.not_eq_true'] at hnot
          exact hmark (hnot ▸ hf)
        all_goals cases he
      simp only [if_neg hc, Json.str?, Option.bind_some, Option.isSome_map]
      exact List.isSome_idxOf?.mpr hm

/-- An enumeration is spelled where its items are. -/
theorem isSome_enumerated?_iff {name : String} : (enumerated? name node).isSome = true ↔ node.ItemsSound := by
  unfold enumerated?
  rw [Option.bind_eq_bind, isSome_bind_iff]
  constructor
  · rintro ⟨raw, hraw, h⟩
    split at h
    · cases h
    · rename_i hne
      obtain ⟨names, hn, h⟩ := isSome_bind_iff.mp h
      obtain ⟨standard, hs, -⟩ := isSome_bind_iff.mp h
      obtain ⟨rfl, hempty, hnodup, -⟩ := items?_eq_some_iff.mp hn
      refine ⟨names, hraw, ?_, hempty, hnodup, isSome_standard?_iff.mp (Option.isSome_iff_exists.mpr ⟨_, hs⟩)⟩
      rintro rfl
      exact hne rfl
  · rintro ⟨names, hraw, hne, hempty, hnodup, hmarker⟩
    refine ⟨names.map .str, hraw, ?_⟩
    have hitems := items?_eq_some_iff.mpr ⟨rfl, hempty, hnodup, fun _ _ => List.not_mem_nil⟩
    obtain ⟨standard, hs⟩ := Option.isSome_iff_exists.mp (isSome_standard?_iff.mpr hmarker)
    rw [if_neg fun h => hne (List.map_eq_nil_iff.mp (List.isEmpty_iff.mp h)), hitems]
    simp only [Option.bind_eq_bind, Option.bind_some, hs, Option.isSome_some]

/-! ## Fields and alternatives -/

/-- The flag of a field is spelled where it is a truth value or missing; of an alternative it cannot be true. -/
theorem isSome_optional?_iff {isChoice : Bool} {item : Json} :
    (optional? isChoice item).isSome = true ↔
      ∀ flag, item.under? "optional" = some flag → flag = .bool false ∨ isChoice = false ∧ flag = .bool true := by
  unfold optional?
  cases item.under? "optional" with
  | none => simp
  | some flag =>
    cases flag
    case bool value => cases value <;> cases isChoice <;> simp [Json.bool?]
    all_goals simp [Json.bool?]

/-- A field or an alternative spells something if it is sound and its type is spelled. -/
theorem exists_spellsField_iff {refs : Refs} {isChoice : Bool} {item : Json} {name : String} :
    (∃ field, field.name = name ∧ SpellsField refs isChoice item field) ↔
      item.MemberSound isChoice name ∧ ∀ inner, item.under? "type" = some inner → (type? refs "" inner).isSome = true := by
  constructor
  · rintro ⟨field, rfl, hs⟩
    obtain ⟨inner, hi, ht⟩ := hs.type
    refine ⟨⟨hs.name_eq, hs.name_ne, ?_, Option.isSome_iff_exists.mpr ⟨inner, hi⟩⟩, fun inner' hi' => ?_⟩
    · exact isSome_optional?_iff.mp (Option.isSome_iff_exists.mpr ⟨_, hs.optional⟩)
    · rw [hi] at hi'
      cases hi'
      exact Option.isSome_iff_exists.mpr ⟨_, ht⟩
  · rintro ⟨hm, ht⟩
    obtain ⟨inner, hi⟩ := Option.isSome_iff_exists.mp hm.type
    obtain ⟨type, ht⟩ := Option.isSome_iff_exists.mp (ht inner hi)
    obtain ⟨optional, ho⟩ := Option.isSome_iff_exists.mp (isSome_optional?_iff.mpr hm.optional)
    exact ⟨⟨name, optional, type⟩, rfl, hm.name_eq, hm.name_ne, ho, inner, hi, ht⟩

/-- The fields or alternatives under a key, and the marker among them. -/
theorem isSome_finish?_iff {refs : Refs} {name key : String} {isChoice : Bool} {items : List Json}
    (hitems : node.itemsUnder? key = some items) (hne : isChoice = true → items ≠ []) :
    ((fields? refs isChoice [] items).bind (finish? name isChoice node)).isSome = true ↔
      node.MembersSound key isChoice ∧
        ∀ item ∈ items, ∀ inner, item.under? "type" = some inner → (type? refs "" inner).isSome = true := by
  rw [isSome_bind_iff]
  constructor
  · rintro ⟨fields, hf, h⟩
    obtain ⟨hall, hnodup, -⟩ := fields?_eq_some_iff.mp hf
    rw [finish?, Option.isSome_map] at h
    have hboth : List.Forall₂ (fun item field => item.MemberSound isChoice field.name ∧
        ∀ inner, item.under? "type" = some inner → (type? refs "" inner).isSome = true) items fields :=
      hall.imp fun item field hs => exists_spellsField_iff.mp ⟨field, rfl, hs⟩
    refine ⟨⟨items, fields.map (·.name), hitems, hne, ?_, hnodup, isSome_standard?_iff.mp h⟩, fun item hm => ?_⟩
    · exact List.forall₂_map_right_iff.mpr (hboth.imp fun _ _ hs => hs.1)
    · obtain ⟨i, hi, rfl⟩ := List.getElem_of_mem hm
      exact (List.forall₂_iff_get.mp hboth).2 i hi (hall.length_eq ▸ hi) |>.2
  · rintro ⟨⟨items', names, hitems', -, hall, hnodup, hmarker⟩, htypes⟩
    rw [hitems] at hitems'
    cases hitems'
    have hfields : ∃ fields : List (Field Descriptor), fields.map (·.name) = names ∧
        List.Forall₂ (SpellsField refs isChoice) items fields := by
      clear hitems hne hnodup hmarker
      induction hall with
      | nil => exact ⟨[], rfl, .nil⟩
      | cons hm _ ih =>
        obtain ⟨fields, rfl, hrest⟩ := ih fun item hi => htypes item (List.mem_cons_of_mem _ hi)
        obtain ⟨field, rfl, hs⟩ := exists_spellsField_iff.mpr ⟨hm, htypes _ (List.mem_cons_self ..)⟩
        exact ⟨field :: fields, rfl, .cons hs hrest⟩
    obtain ⟨fields, rfl, hspells⟩ := hfields
    refine ⟨fields, fields?_eq_some_iff.mpr ⟨hspells, hnodup, fun _ _ => List.not_mem_nil⟩, ?_⟩
    rw [finish?, Option.isSome_map]
    exact isSome_standard?_iff.mpr hmarker

/-! ## Type nodes -/

/-- The fields of a sequence. -/
theorem isSome_ofKind?_sequence_iff {refs : Refs} {name : String} (hr : node.reference? = none)
    (hk : node.kind? = some .sequence) : (ofKind? refs name node .sequence).isSome = true ↔
      node.KindSound .sequence ∧ ∀ inner, node.Part inner → (type? refs "" inner).isSome = true := by
  rw [ofKind?, Option.bind_assoc, isSome_bind_iff]
  constructor
  · rintro ⟨items, hi, h⟩
    obtain ⟨hm, ht⟩ := (isSome_finish?_iff hi (fun h => by cases h)).mp h
    refine ⟨hm, fun inner hp => ?_⟩
    cases hp with
    | field _ _ hi' hitem hinner =>
      cases hi.symm.trans hi'
      exact ht _ hitem _ hinner
    | alternative _ hk' => cases hk.symm.trans hk'
    | element _ hk' => cases hk.symm.trans hk'
  · rintro ⟨hm, hp⟩
    obtain ⟨items, hi⟩ : ∃ items, node.itemsUnder? "fields" = some items := ⟨_, hm.choose_spec.choose_spec.1⟩
    refine ⟨items, hi, (isSome_finish?_iff hi (fun h => by cases h)).mpr ⟨hm, fun item hitem inner hinner => ?_⟩⟩
    exact hp inner (.field hr hk hi hitem hinner)

/-- The alternatives of a choice. -/
theorem isSome_ofKind?_choice_iff {refs : Refs} {name : String} (hr : node.reference? = none)
    (hk : node.kind? = some .choice) : (ofKind? refs name node .choice).isSome = true ↔
      node.KindSound .choice ∧ ∀ inner, node.Part inner → (type? refs "" inner).isSome = true := by
  rw [ofKind?, Option.bind_assoc, isSome_bind_iff]
  constructor
  · rintro ⟨items, hi, h⟩
    split at h
    · cases h
    · rename_i hne
      rw [List.isEmpty_iff] at hne
      obtain ⟨hm, ht⟩ := (isSome_finish?_iff hi fun _ => hne).mp h
      refine ⟨hm, fun inner hp => ?_⟩
      cases hp with
      | alternative _ _ hi' hitem hinner =>
        cases hi.symm.trans hi'
        exact ht _ hitem _ hinner
      | field _ hk' => cases hk.symm.trans hk'
      | element _ hk' => cases hk.symm.trans hk'
  · rintro ⟨hm, hp⟩
    obtain ⟨items, -, hi, hne, -⟩ := id hm
    refine ⟨items, hi, ?_⟩
    rw [if_neg fun h => hne rfl (List.isEmpty_iff.mp h)]
    refine (isSome_finish?_iff hi hne).mpr ⟨hm, fun item hitem inner hinner => ?_⟩
    exact hp inner (.alternative hr hk hi hitem hinner)

/-- The elements of a list type. -/
theorem isSome_ofKind?_sequenceOf_iff {refs : Refs} {name : String} (hr : node.reference? = none)
    (hk : node.kind? = some .sequenceOf) : (ofKind? refs name node .sequenceOf).isSome = true ↔
      node.KindSound .sequenceOf ∧ ∀ inner, node.Part inner → (type? refs "" inner).isSome = true := by
  rw [ofKind?, Option.bind_eq_bind, isSome_bind_iff]
  constructor
  · rintro ⟨bounds, hb, h⟩
    obtain ⟨element, he, -⟩ := isSome_bind_iff.mp h
    obtain ⟨inner, hi, ht⟩ := Option.bind_eq_some_iff.mp he
    obtain ⟨hbounds, hflag⟩ := isSome_bounds?_iff.mp (Option.isSome_iff_exists.mpr ⟨_, hb⟩)
    refine ⟨⟨hbounds, hflag, Option.isSome_iff_exists.mpr ⟨_, hi⟩⟩, fun inner' hp => ?_⟩
    cases hp with
    | element _ _ hi' =>
      cases hi.symm.trans hi'
      exact Option.isSome_iff_exists.mpr ⟨_, ht⟩
    | field _ hk' => cases hk.symm.trans hk'
    | alternative _ hk' => cases hk.symm.trans hk'
  · rintro ⟨⟨hbounds, hflag, helement⟩, hp⟩
    obtain ⟨bounds, hb⟩ := Option.isSome_iff_exists.mp (isSome_bounds?_iff.mpr ⟨hbounds, hflag⟩)
    obtain ⟨inner, hi⟩ := Option.isSome_iff_exists.mp helement
    obtain ⟨element, ht⟩ := Option.isSome_iff_exists.mp (hp inner (.element hr hk hi))
    refine ⟨bounds, hb, isSome_bind_iff.mpr ⟨element, ?_, rfl⟩⟩
    rw [hi]
    exact ht

/-- A node spells a type if and only if it is sound, what it refers to has a type, and what lies in it spells types. -/
theorem isSome_type?_iff {refs : Refs} {name : String} :
    (type? refs name node).isSome = true ↔
      node.Sound ∧ (∀ target, node.reference? = some target → (refs target).isSome = true) ∧
        ∀ inner, node.Part inner → (type? refs "" inner).isSome = true := by
  cases hr : node.reference? with
  | some target =>
    rw [type?_of_reference hr]
    constructor
    · intro h
      refine ⟨.inl (by rw [hr]; rfl), ?_, fun inner hp => ?_⟩
      · rintro _ ⟨⟩
        exact h
      · cases hp with
        | field hn | alternative hn | element hn => exact absurd (hr.symm.trans hn) (Option.some_ne_none _)
    · exact fun h => h.2.1 target rfl
  | none =>
    have hsound : node.Sound ↔ ∃ kind, node.kind? = some kind ∧ node.KindSound kind := by
      unfold Json.Sound
      rw [hr]
      simp
    have hkinds : ∀ kind, node.kind? = some kind → ((ofKind? refs name node kind).isSome = true ↔
        node.KindSound kind ∧ ∀ inner, node.Part inner → (type? refs "" inner).isSome = true) := by
      intro kind hk
      -- A node of any other kind has no parts.
      have hplain : kind ≠ .sequence → kind ≠ .choice → kind ≠ .sequenceOf →
          ∀ inner, node.Part inner → (type? refs "" inner).isSome = true := by
        intro hs hc he inner hp
        cases hp with
        | field _ hk' => exact absurd (Option.some.inj (hk.symm.trans hk')) hs
        | alternative _ hk' => exact absurd (Option.some.inj (hk.symm.trans hk')) hc
        | element _ hk' => exact absurd (Option.some.inj (hk.symm.trans hk')) he
      cases kind
      case sequence => exact isSome_ofKind?_sequence_iff hr hk
      case choice => exact isSome_ofKind?_choice_iff hr hk
      case sequenceOf => exact isSome_ofKind?_sequenceOf_iff hr hk
      case null | boolean => simpa [ofKind?, Json.KindSound] using hplain
      case enumerated => simpa [ofKind?, Json.KindSound, isSome_enumerated?_iff] using fun _ => hplain
      all_goals
        show (bounded? name _ node).isSome = true ↔ _
        rw [isSome_bounded?_iff (by decide)]
        exact ⟨fun h => ⟨h, hplain (by decide) (by decide) (by decide)⟩, fun h => h.1⟩
    rw [type?_of_kind hr, isSome_bind_iff, hsound]
    constructor
    · rintro ⟨kind, hk, h⟩
      obtain ⟨hs, hp⟩ := (hkinds kind hk).mp h
      exact ⟨⟨kind, hk, hs⟩, fun _ ht => absurd ht.symm (Option.some_ne_none _), hp⟩
    · rintro ⟨⟨kind, hk, hs⟩, -, hp⟩
      exact ⟨kind, hk, (hkinds kind hk).mpr ⟨hs, hp⟩⟩

/-- A node spells a type if and only if all nodes in it are sound and have types for what they refer to. -/
theorem isSome_type?_iff_within {refs : Refs} {name : String} :
    (type? refs name node).isSome = true ↔ ∀ inner, node.Within inner →
      inner.Sound ∧ ∀ target, inner.reference? = some target → (refs target).isSome = true := by
  constructor
  · intro h inner hw
    induction hw using Relation.ReflTransGen.head_induction_on generalizing name with
    | refl =>
      obtain ⟨hs, hr, -⟩ := isSome_type?_iff.mp h
      exact ⟨hs, hr⟩
    | head hp _ ih => exact ih ((isSome_type?_iff.mp h).2.2 _ hp)
  · intro h
    induction node using (measure (sizeOf : Json → Nat)).wf.induction generalizing name with
    | _ node ih =>
      obtain ⟨hs, hr⟩ := h node .refl
      exact isSome_type?_iff.mpr ⟨hs, hr, fun inner hp => ih inner hp.sizeOf_lt fun deep hw => h deep (.head hp hw)⟩

/-! ## Definitions -/

variable {types : List (String × Json)}

/-- A name is read with one reference more than the type of its definition. -/
theorem isSome_named?_succ_iff {bound : Nat} {name : String} :
    (named? types (bound + 1) name).isSome = true ↔ ∃ node, Json.member? name types = some node ∧
      (type? (named? types bound) name node).isSome = true :=
  isSome_bind_iff

/-- A name that is read has a definition. -/
theorem isSome_member?_of_named? {bound : Nat} {name : String} (h : (named? types bound name).isSome = true) :
    (Json.member? name types).isSome = true := by
  cases bound with
  | zero => cases h
  | succ bound =>
    obtain ⟨node, hnode, -⟩ := isSome_named?_succ_iff.mp h
    exact Option.isSome_iff_exists.mpr ⟨node, hnode⟩

/-- What is read with some references is read with more. -/
theorem isSome_named?_mono {bound bound' : Nat} (hle : bound ≤ bound') {name : String}
    (h : (named? types bound name).isSome = true) : (named? types bound' name).isSome = true := by
  obtain ⟨type, ht⟩ := Option.isSome_iff_exists.mp h
  exact Option.isSome_iff_exists.mpr ⟨type, named?_mono hle name type ht⟩

end Spelling

end UnalignedPer
