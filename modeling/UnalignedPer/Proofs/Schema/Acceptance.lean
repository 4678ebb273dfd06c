import Mathlib
import UnalignedPer.Proofs.Schema.Resolution

/-!
# Which documents are accepted

All definitions have types if and only if they are grammatical: a definition that comes back to itself has no type however far
references are followed, and among finitely many definitions that do not, references come to an end. So a document is accepted
if and only if it is a schema (`Schema.parse_ok_iff`).
-/

namespace UnalignedPer

namespace Spelling

variable {types : List (String × Json)}

/-! ## Definitions that have types are grammatical -/

/-- What a definition refers to has a type with shorter chains of references. -/
theorem isSome_named?_of_mentions {bound : Nat} {name target : String} (h : Json.Mentions types name target)
    (hname : (named? types (bound + 1) name).isSome = true) : (named? types bound target).isSome = true := by
  obtain ⟨node, inner, hnode, hw, hr⟩ := h
  obtain ⟨_, hnode', htype⟩ := isSome_named?_succ_iff.mp hname
  cases hnode.symm.trans hnode'
  exact (isSome_type?_iff_within.mp htype inner hw).2 target hr

/-- The same over any number of references. -/
theorem isSome_named?_of_transGen {bound : Nat} {name target : String}
    (h : Relation.TransGen (Json.Mentions types) name target) (hname : (named? types (bound + 1) name).isSome = true) :
    (named? types bound target).isSome = true := by
  induction h with
  | single hm => exact isSome_named?_of_mentions hm hname
  | tail _ hm ih => exact isSome_named?_of_mentions hm (isSome_named?_mono (Nat.le_succ _) ih)

/-- A definition that has a type does not come back to itself. -/
theorem acyclic_of_isSome_named? {bound : Nat} {name : String} (h : (named? types bound name).isSome = true) :
    ¬Relation.TransGen (Json.Mentions types) name name := by
  induction bound with
  | zero => cases h
  | succ bound ih => exact fun hcycle => ih (isSome_named?_of_transGen hcycle h) hcycle

theorem grammatical_of_named? {bound : Nat}
    (h : ∀ name ∈ types.map (·.1), (named? types bound name).isSome = true) : Json.Grammatical types := by
  have hdefined : ∀ {name node}, Json.member? name types = some node → (named? types bound name).isSome = true :=
    fun hnode => h _ (Json.isSome_member?_iff.mp (Option.isSome_iff_exists.mpr ⟨_, hnode⟩))
  refine ⟨fun name node inner hnode hw => ?_, fun name target hm => ?_, fun name hcycle => ?_⟩
  · have hname := isSome_named?_mono (Nat.le_succ _) (hdefined hnode)
    obtain ⟨_, hnode', htype⟩ := isSome_named?_succ_iff.mp hname
    cases hnode.symm.trans hnode'
    exact (isSome_type?_iff_within.mp htype inner hw).1
  · obtain ⟨node, _, hnode, -⟩ := id hm
    exact isSome_member?_of_named? (isSome_named?_of_mentions hm (isSome_named?_mono (Nat.le_succ _) (hdefined hnode)))
  · obtain ⟨_, ⟨node, _, hnode, -⟩, -⟩ := Relation.TransGen.head'_iff.mp hcycle
    exact acyclic_of_isSome_named? (hdefined hnode) hcycle

/-! ## Grammatical definitions have types -/

/-- Some chains are long enough for all of finitely many names. -/
theorem exists_bound {names : List String} {P : String → Prop}
    (h : ∀ name ∈ names, P name → ∃ bound, (named? types bound name).isSome = true) :
    ∃ bound, ∀ name ∈ names, P name → (named? types bound name).isSome = true := by
  induction names with
  | nil => exact ⟨0, fun _ hm => absurd hm List.not_mem_nil⟩
  | cons name rest ih =>
    obtain ⟨bound, hrest⟩ := ih fun other hm => h other (List.mem_cons_of_mem _ hm)
    by_cases hp : P name
    · obtain ⟨bound', hname⟩ := h name (List.mem_cons_self ..) hp
      refine ⟨max bound bound', fun other hm hp => ?_⟩
      rcases List.mem_cons.mp hm with rfl | hm
      · exact isSome_named?_mono (Nat.le_max_right ..) hname
      · exact isSome_named?_mono (Nat.le_max_left ..) (hrest other hm hp)
    · refine ⟨bound, fun other hm hp' => ?_⟩
      rcases List.mem_cons.mp hm with rfl | hm
      · exact absurd hp' hp
      · exact hrest other hm hp'

/-- References among finitely many definitions come to an end if none comes back. -/
theorem wellFounded_mentions (h : Json.Grammatical types) :
    WellFounded fun target name : { name // name ∈ types.map (·.1) } => Json.Mentions types name target := by
  let reaches := fun target name : { name // name ∈ types.map (·.1) } => Relation.TransGen (Json.Mentions types) name target
  have : IsTrans _ reaches := ⟨fun _ _ _ hab hbc => Relation.TransGen.trans hbc hab⟩
  have : Std.Irrefl reaches := ⟨fun name => h.acyclic name⟩
  have : Fintype { name // name ∈ types.map (·.1) } :=
    Fintype.subtype (types.map (·.1)).toFinset fun _ => List.mem_toFinset
  have : Finite { name // name ∈ types.map (·.1) } := Finite.of_fintype _
  have hwf : WellFounded reaches := Finite.wellFounded_of_trans_of_irrefl reaches
  exact Subrelation.wf (fun hm => Relation.TransGen.single hm) hwf

theorem named?_of_grammatical (h : Json.Grammatical types) {name : String} (hname : name ∈ types.map (·.1)) :
    ∃ bound, (named? types bound name).isSome = true := by
  have hall : ∀ name : { name // name ∈ types.map (·.1) }, ∃ bound, (named? types bound name).isSome = true := by
    intro name
    induction name using (wellFounded_mentions h).induction with
    | _ name ih =>
      obtain ⟨bound, hbound⟩ : ∃ bound, ∀ target ∈ types.map (·.1), Json.Mentions types name target →
          (named? types bound target).isSome = true :=
        exists_bound fun target hm hmentions => ih ⟨target, hm⟩ hmentions
      obtain ⟨node, hnode⟩ := Option.isSome_iff_exists.mp (Json.isSome_member?_iff.mpr name.2)
      refine ⟨bound + 1, isSome_named?_succ_iff.mpr ⟨node, hnode, isSome_type?_iff_within.mpr fun inner hw => ?_⟩⟩
      refine ⟨h.sound name node inner hnode hw, fun target hr => ?_⟩
      have hmentions : Json.Mentions types name target := ⟨node, inner, hnode, hw, hr⟩
      exact hbound target (Json.isSome_member?_iff.mp (h.known name target hmentions)) hmentions
  exact hall ⟨name, hname⟩

end Spelling

namespace Loading

variable {types : List (String × Json)} {root : Location}

/-- Whatever names are looked for in whatever order, there is no error if and only if all of them have types. -/
theorem errors_resolveAll_iff {names : List String} {found : List Descriptor} {l : Loading}
    (hrun : resolveAll types root [] names .start = (found, l)) :
    l.errors = 0 ↔ ∀ name ∈ names, (Spelling.named? types types.length name).isSome = true := by
  rw [((agrees_resolveAll [] names).from_start hrun).1, Option.isSome_map, Spelling.isSome_all?_iff]

/-- Chains of references are no longer than there are definitions. -/
theorem isSome_named?_length {name : String} {bound : Nat} (h : (Spelling.named? types bound name).isSome = true) :
    (Spelling.named? types types.length name).isSome = true := by
  have hagrees : Agrees types [] (resolve types ⟨"", ""⟩ types.length name ⟨"", ""⟩) fun refs => (refs name).map some :=
    agrees_resolve types.length name ⟨"", ""⟩ (Nat.le_add_right ..)
  have hspelled : ((Spelling.named? types bound name).map some).isSome = true := by rwa [Option.isSome_map]
  have herr := hagrees.errors_eq_zero rfl hspelled
  have hsome := (hagrees.from_start rfl).1.mp herr
  rwa [Option.isSome_map] at hsome

/-- Definitions are grammatical if and only if all of them have types. -/
theorem grammatical_iff :
    Json.Grammatical types ↔ ∀ name ∈ types.map (·.1), (Spelling.named? types types.length name).isSome = true := by
  refine ⟨fun h name hm => ?_, Spelling.grammatical_of_named?⟩
  obtain ⟨bound, hbound⟩ := Spelling.named?_of_grammatical h hm
  exact isSome_named?_length hbound

/-- A type fails only where an error is reported, if not for the type itself then before: while one is looked for among
others, and so when one is looked for first. -/
theorem errors_ne_zero_of_resolve {active : List String} {l : Loading} (h : l.errors = 0 → Ready types active l) {fuel : Nat}
    (hfuel : types.length ≤ fuel + active.length) {name : String} {referrer : Location} {l' : Loading}
    (hrun : resolve types root fuel name referrer l = (none, l')) : l'.errors ≠ 0 := by
  have hagrees : Agrees types active (resolve types root fuel name referrer) fun refs => (refs name).map some :=
    agrees_resolve fuel name referrer hfuel
  intro herr
  have hl := h (Nat.le_zero.mp (herr ▸ hagrees.errors_le hrun))
  obtain ⟨type, -, hsome⟩ := Option.map_eq_some_iff.mp (hagrees.silent hl hrun herr).2.2
  cases hsome

end Loading

/-- The documents that are accepted, in four parts.
1. A schema is read if and only if the document is one: all its nodes are sound, all references have a definition, and no
   definition comes back to itself.
2. There is no error in the same case.
3. The order in which names are looked for, and how often, does not matter: if all definitions are looked for, there is no
   error if and only if they are grammatical.
4. No type fails in silence: where a name failed, or fails next, an error was reported. -/
theorem Schema.parse_ok_iff (file : String) (document : Json) :
    ((∃ schema, (Schema.parse file document).1 = .ok schema) ↔ document.IsSchema) ∧
    (Diagnostic.errorCount (Schema.parse file document).2 = 0 ↔ document.IsSchema) ∧
    (∀ (types : List (String × Json)) (root : Location) (names : List String),
      (∀ name, name ∈ names ↔ (Json.member? name types).isSome = true) →
        ((Loading.resolveAll types root [] names .start).2.errors = 0 ↔ Json.Grammatical types)) ∧
    ∀ (types : List (String × Json)) (root : Location) (names : List String),
      let l := (Loading.resolveAll types root [] names .start).2
      (l.failed = [] ∨ l.errors ≠ 0) ∧ ∀ name referrer, (Loading.resolve types root types.length name referrer l).1.isSome = true ∨
        (Loading.resolve types root types.length name referrer l).2.errors ≠ 0 := by
  have hschema : (∃ schema, (Schema.parse file document).1 = .ok schema) ↔ document.IsSchema := by
    simp only [Schema.parse_eq_ok_iff]
    constructor
    · rintro ⟨schema, types, hdef, hall⟩
      refine ⟨types, hdef, Loading.grammatical_iff.mpr ?_⟩
      exact Spelling.isSome_all?_iff.mp (Option.isSome_iff_exists.mpr ⟨_, hall⟩)
    · rintro ⟨types, hdef, hgrammatical⟩
      have hsome := Spelling.isSome_all?_iff.mpr (Loading.grammatical_iff.mp hgrammatical)
      obtain ⟨found, hall⟩ := Option.isSome_iff_exists.mp hsome
      exact ⟨⟨found⟩, types, hdef, hall⟩
  refine ⟨hschema, Schema.errorCount_parse_iff.trans hschema, fun types root names hnames => ?_, fun types root names => ?_⟩
  · rw [Loading.errors_resolveAll_iff rfl, Loading.grammatical_iff]
    simp only [hnames, Json.isSome_member?_iff]
  · have hready : (Loading.resolveAll types root [] names .start).2.errors = 0 →
        Loading.Ready types [] (Loading.resolveAll types root [] names .start).2 :=
      fun herr => (((Loading.agrees_resolveAll [] names).from_start rfl).2 herr).1
    refine ⟨?_, fun name referrer => ?_⟩
    · by_cases herr : (Loading.resolveAll types root [] names .start).2.errors = 0
      · exact .inl (hready herr).failed_eq
      · exact .inr herr
    · cases hrun : (Loading.resolve types root types.length name referrer
          (Loading.resolveAll types root [] names .start).2).1 with
      | some type => exact .inl rfl
      | none =>
        exact .inr (Loading.errors_ne_zero_of_resolve hready (Nat.le_add_right ..) (Prod.ext hrun rfl))

/-- A sequence of two fields of one named type. -/
def Json.pair : List (String × Json) :=
  [("Pair", .obj [("fields", .arr [
      .obj [("name", .str "left"), ("type", .obj [("ref", .str "Side")])],
      .obj [("name", .str "right"), ("type", .obj [("ref", .str "Side")])]]), ("kind", .str "sequence")]),
    ("Side", .obj [("kind", .str "boolean")])]

/-- Two references to one type are no cycle, also where the type was looked for before. -/
theorem Schema.parse_ok_iff_pair : (∀ name, name ∈ ["Side", "Pair", "Side"] ↔ (Json.member? name Json.pair).isSome = true) ∧
    Json.Grammatical Json.pair :=
  have hnames : ∀ name, name ∈ ["Side", "Pair", "Side"] ↔ (Json.member? name Json.pair).isSome = true := fun name => by
    rw [Json.isSome_member?_iff]
    simp only [Json.pair, List.map_cons, List.map_nil, List.mem_cons, List.not_mem_nil, or_false]
    tauto
  have herrors : (Loading.resolveAll Json.pair ⟨"", ""⟩ [] ["Side", "Pair", "Side"] .start).2.errors = 0 := by cbv
  ⟨hnames, ((Schema.parse_ok_iff "" .null).2.2.1 Json.pair ⟨"", ""⟩ ["Side", "Pair", "Side"] hnames).mp herrors⟩

end UnalignedPer
