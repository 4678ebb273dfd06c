import Mathlib.Data.List.Nodup
import Mathlib.Data.List.Perm.Subperm
import UnalignedPer.Proofs.Schema.AgreementNodes
import UnalignedPer.Proofs.Schema.SpellingSound

/-!
# Looking for named types

The types of names are found on the way: a definition is read when its name is first met. `Loading.Look` says everything that
can happen when a name is looked for. From it follows that looking for names agrees with `Spelling.named?`, whatever names are
under way, and so does reading all definitions.

What is read without the names under way needs no care for cycles. A name that has a type at all has one from a shortest chain
of references, and that one does not come back to the name.
-/

namespace UnalignedPer

namespace Loading

open Spelling (Refs named?)

variable {α : Type} {types : List (String × Json)} {active : List String} {root : Location}

/-! ## What can happen -/

/-- What can happen when the type of a name is looked for. -/
inductive Look (types : List (String × Json)) (root : Location) :
    Nat → String → Loading → Option Descriptor → Loading → Prop
  /-- It was read before. -/
  | kept {fuel : Nat} {name : String} {l : Loading} {type : Descriptor} :
    (name, type) ∈ l.resolved → Look types root fuel name l (some type) l
  /-- It failed before. -/
  | failed {fuel : Nat} {name : String} {l : Loading} : name ∈ l.failed → Look types root fuel name l none l
  /-- It is under way. -/
  | cycle {fuel : Nat} {name : String} {l l' : Loading} :
    name ∈ l.active → l'.errors = l.errors + 1 → Look types root fuel name l none l'
  /-- There is no definition. -/
  | unknown {fuel : Nat} {name : String} {l l' : Loading} :
    Json.member? name types = none → l'.errors = l.errors + 1 → Look types root fuel name l none l'
  /-- There is no fuel to read the definition. -/
  | spent {name : String} {l : Loading} {node : Json} : name ∉ l.names → name ∉ l.active →
    Json.member? name types = some node → Look types root 0 name l none l
  /-- The definition is read. -/
  | read {fuel : Nat} {name : String} {l l' : Loading} {node : Json} {type : Descriptor} : name ∉ l.names →
    name ∉ l.active → Json.member? name types = some node →
    readType (resolve types root fuel) name (root.child name) node { l with active := name :: l.active } = (some type, l') →
    Look types root (fuel + 1) name l (some type)
      { l' with active := l'.active.erase name, resolved := (name, type) :: l'.resolved }
  /-- The definition cannot be read, or the name failed on the way. -/
  | dropped {fuel : Nat} {name : String} {l l' : Loading} {node : Json} {found : Option Descriptor} : name ∉ l.names →
    name ∉ l.active → Json.member? name types = some node →
    readType (resolve types root fuel) name (root.child name) node { l with active := name :: l.active } = (found, l') →
    found = none ∨ name ∈ l'.failed →
    Look types root (fuel + 1) name l none
      { l' with active := l'.active.erase name, failed := name :: l'.failed }

theorem resolve_look {fuel : Nat} {name : String} {referrer : Location} {l l' : Loading} {x : Option Descriptor}
    (h : resolve types root fuel name referrer l = (x, l')) : Look types root fuel name l x l' := by
  unfold resolve at h
  obtain ⟨l₀, _, hget, h⟩ := run_bind_eq h
  cases hget
  cases hlook : l.resolved.lookup name with
  | some type =>
    rw [hlook] at h
    cases h
    obtain ⟨before, after, hsplit, -⟩ := List.lookup_eq_some_iff.mp hlook
    exact .kept (hsplit ▸ List.mem_append_right _ (List.mem_cons_self ..))
  | none =>
    have hnew : name ∉ l.names := by
      intro hm
      obtain ⟨entry, hentry, rfl⟩ := List.mem_map.mp hm
      exact absurd rfl (bne_iff_ne.mp (List.lookup_eq_none_iff.mp hlook entry hentry))
    simp only [hlook] at h
    split at h
    · rename_i hfailed
      cases h
      exact .failed (List.contains_iff_mem.mp hfailed)
    split at h
    · rename_i hactive
      obtain ⟨_, _, herror, h⟩ := run_bind_eq h
      cases h
      exact .cycle (List.contains_iff_mem.mp hactive) (errors_report herror)
    rename_i hactive
    replace hactive : name ∉ l.active := fun hm => hactive (List.contains_iff_mem.mpr hm)
    cases hnode : Json.member? name types with
    | none =>
      simp only [hnode] at h
      obtain ⟨_, _, herror, h⟩ := run_bind_eq h
      cases h
      exact .unknown hnode (errors_report herror)
    | some node =>
      simp only [hnode] at h
      cases fuel with
      | zero =>
        cases h
        exact .spent hnew hactive hnode
      | succ fuel =>
        obtain ⟨_, _, hmodify, h⟩ := run_bind_eq h
        cases hmodify
        obtain ⟨found, l₂, hread, h⟩ := run_bind_eq h
        obtain ⟨_, _, hmodify, h⟩ := run_bind_eq h
        cases hmodify
        obtain ⟨l₃, _, hget, h⟩ := run_bind_eq h
        cases hget
        cases found with
        | none =>
          cases h
          exact .dropped hnew hactive hnode hread (.inl rfl)
        | some type =>
          simp only at h
          split at h
          · rename_i hfailed
            cases h
            exact .dropped hnew hactive hnode hread (.inr (List.contains_iff_mem.mp hfailed))
          · cases h
            exact .read hnew hactive hnode hread

/-! ## What stays true -/

/-- A name may be read whose type is not known and not under way. -/
theorem Ready.enter {l : Loading} (h : Ready types active l) {name : String} {node : Json} (hnew : name ∉ l.names)
    (hactive : name ∉ l.active) (hnode : Json.member? name types = some node) :
    Ready types (name :: active) { l with active := name :: l.active } where
  errors_eq := h.errors_eq
  failed_eq := h.failed_eq
  active_eq := congrArg (name :: ·) h.active_eq
  nodup := by
    refine List.nodup_middle.mpr (List.nodup_cons.mpr ⟨fun hm => ?_, h.nodup⟩)
    rcases List.mem_append.mp hm with hm | hm
    · exact hnew hm
    · exact hactive (h.active_eq ▸ hm)
  defined other hm := by
    rcases List.mem_append.mp hm with hm | hm
    · exact h.defined (List.mem_append_left _ hm)
    · rcases List.mem_cons.mp hm with rfl | hm
      · exact Json.isSome_member?_iff.mp (Option.isSome_iff_exists.mpr ⟨_, hnode⟩)
      · exact h.defined (List.mem_append_right _ hm)
  named := h.named

/-- A type that was read is kept. -/
theorem Ready.keep {l : Loading} {name : String} (h : Ready types (name :: active) l) {node : Json} {type : Descriptor}
    (hnode : Json.member? name types = some node) (htype : Spelling.type? (known types l) name node = some type) :
    Ready types active { l with active := l.active.erase name, resolved := (name, type) :: l.resolved } where
  errors_eq := h.errors_eq
  failed_eq := h.failed_eq
  active_eq := by
    show l.active.erase name = active
    rw [h.active_eq, List.erase_cons_head]
  nodup := List.nodup_middle.mp h.nodup
  defined other hm := by
    rcases List.mem_cons.mp hm with rfl | hm
    · exact h.defined (List.mem_append_right _ (List.mem_cons_self ..))
    · rcases List.mem_append.mp hm with hm | hm
      · exact h.defined (List.mem_append_left _ hm)
      · exact h.defined (List.mem_append_right _ (List.mem_cons_of_mem _ hm))
  named other type' hm := by
    rcases List.mem_cons.mp hm with hm | hm
    · cases hm
      exact Option.bind_eq_some_iff.mpr ⟨node, hnode, htype⟩
    · exact Spelling.named?_extends types _ _ _ (h.named other type' hm)

/-- Different names that have definitions are fewer than the definitions, if another name has one. -/
theorem length_lt_of_new {names : List String} (hnodup : names.Nodup) (hdefined : names ⊆ types.map (·.1)) {name : String}
    {node : Json} (hnew : name ∉ names) (hnode : Json.member? name types = some node) : names.length < types.length := by
  have hsub : name :: names ⊆ types.map (·.1) :=
    List.cons_subset.mpr ⟨List.mem_map_of_mem (Json.mem_of_member? hnode), hdefined⟩
  have hle := (List.subperm_of_subset (List.nodup_cons.mpr ⟨hnew, hnodup⟩) hsub).length_le
  rwa [List.length_map] at hle

/-- There are no more names under way than definitions, and fewer while another name is looked for. -/
theorem Ready.active_lt {l : Loading} (h : Ready types active l) {name : String} {node : Json} (hactive : name ∉ l.active)
    (hnode : Json.member? name types = some node) : active.length < types.length := by
  refine length_lt_of_new (List.nodup_append.mp h.nodup).2.1 (fun _ hm => h.defined (List.mem_append_right _ hm)) ?_ hnode
  exact h.active_eq ▸ hactive

/-- The types that were read are no more than the definitions. -/
theorem Ready.resolved_le {l : Loading} (h : Ready types active l) : l.resolved.length ≤ types.length := by
  have hsub : l.names ⊆ types.map (·.1) := fun name hm => h.defined (List.mem_append_left _ hm)
  have hle := (List.subperm_of_subset (List.nodup_append.mp h.nodup).1 hsub).length_le
  rwa [names, List.length_map, List.length_map] at hle

/-- A name that has a type has one from references that have types without it. -/
theorem exists_shortest {name : String} {bound : Nat} (h : (named? types bound name).isSome = true)
    (hactive : ∀ other ∈ active, named? types bound other = none) :
    ∃ bound' node, Json.member? name types = some node ∧ (Spelling.type? (named? types bound') name node).isSome = true ∧
      ∀ other ∈ name :: active, named? types bound' other = none := by
  induction bound with
  | zero => cases h
  | succ bound ih =>
    have hless : ∀ other ∈ active, named? types bound other = none := by
      intro other hm
      refine Option.eq_none_iff_forall_ne_some.mpr fun type ht => ?_
      exact absurd ((hactive other hm).symm.trans (Spelling.named?_extends types bound other type ht)) (by simp)
    cases hname : named? types bound name with
    | some type => exact ih (by rw [hname]; rfl) hless
    | none =>
      obtain ⟨type, ht⟩ := Option.isSome_iff_exists.mp h
      obtain ⟨node, hnode, ht⟩ := Option.bind_eq_some_iff.mp ht
      refine ⟨bound, node, hnode, Option.isSome_iff_exists.mpr ⟨type, ht⟩, fun other hm => ?_⟩
      rcases List.mem_cons.mp hm with rfl | hm
      · exact hname
      · exact hless other hm

/-! ## Names are read as they are spelled -/

/-- Looking for a name agrees with the type of its definition, if there is fuel for all names that are not under way. -/
theorem agrees_resolve {active : List String} (fuel : Nat) (name : String) (referrer : Location)
    (hfuel : types.length ≤ fuel + active.length) : Agrees types active (resolve types root fuel name referrer) fun refs => (refs name).map some := by
  have hinner : ∀ fuel', fuel = fuel' + 1 → ∀ node,
      Agrees types (name :: active) (readType (resolve types root fuel') name (root.child name) node)
        fun refs => (Spelling.type? refs name node).map some := by
    rintro fuel' rfl node
    have hfuel' : types.length ≤ fuel' + (name :: active).length := by
      rw [List.length_cons]
      omega
    exact agrees_readType (fun target location => agrees_resolve fuel' target location hfuel') name _ node
  exact {
    errors_le := fun h => by
      cases resolve_look h with
      | kept | failed | spent => exact Nat.le_refl _
      | cycle _ herr | unknown _ herr => exact herr ▸ Nat.le_add_right ..
      | read _ _ _ hread | dropped _ _ _ hread =>
        have hle := (hinner _ rfl _).errors_le hread
        exact hle
    silent := fun hl h herr => by
      cases resolve_look h with
      | kept hm => exact ⟨hl, Nat.le_refl _, congrArg (Option.map some) (hl.named _ _ hm)⟩
      | failed hm => exact absurd (hl.failed_eq ▸ hm) List.not_mem_nil
      | cycle _ herr' | unknown _ herr' => exact absurd (herr' ▸ herr) (Nat.succ_ne_zero _)
      | spent _ hactive hnode =>
        have hlt := hl.active_lt hactive hnode
        omega
      | read hnew hactive hnode hread =>
        obtain ⟨hl', hle, htype⟩ := (hinner _ rfl _).silent (hl.enter hnew hactive hnode) hread herr
        obtain ⟨type, htype, hsome⟩ := Option.map_eq_some_iff.mp htype
        cases hsome
        refine ⟨hl'.keep hnode htype, Nat.le_succ_of_le hle, ?_⟩
        exact congrArg (Option.map some) (Option.bind_eq_some_iff.mpr ⟨_, hnode, htype⟩)
      | dropped hnew hactive hnode hread hfound =>
        obtain ⟨hl', -, htype⟩ := (hinner _ rfl _).silent (hl.enter hnew hactive hnode) hread herr
        rcases hfound with rfl | hm
        · obtain ⟨type, -, hsome⟩ := Option.map_eq_some_iff.mp htype
          cases hsome
        · exact absurd (hl'.failed_eq ▸ hm) List.not_mem_nil
    sound := fun {l x l'} hl h bound hactive hsome => by
      rw [Option.isSome_map] at hsome
      obtain ⟨bound', node', hnode', hsome', hactive'⟩ := exists_shortest hsome hactive
      cases resolve_look h with
      | kept | failed | spent => exact hl.errors_eq
      | cycle hm =>
        rw [hactive _ (hl.active_eq ▸ hm)] at hsome
        cases hsome
      | unknown hnode => exact absurd (hnode.symm.trans hnode') (by simp)
      | read hnew hact hnode hread | dropped hnew hact hnode hread =>
        cases hnode.symm.trans hnode'
        have herr := (hinner _ rfl _).sound (hl.enter hnew hact hnode) hread bound' hactive' (by rwa [Option.isSome_map])
        exact herr
    mono := fun hrefs x hx => by
      obtain ⟨type, ht, rfl⟩ := Option.map_eq_some_iff.mp hx
      exact congrArg (Option.map some) (hrefs name type ht) }
termination_by fuel

/-- Reading the types of some names agrees with the types of their definitions, each under its name. -/
theorem agrees_resolveAll (sofar : List Descriptor) (names : List String) :
    Agrees types [] (resolveAll types root sofar names) fun refs =>
      (Spelling.all? refs names).map (sofar.reverse ++ ·) := by
  induction names generalizing sofar with
  | nil => exact (agrees_pure sofar.reverse).congr fun refs => congrArg some (List.append_nil _)
  | cons name rest ih =>
    refine Agrees.congr ((agrees_resolve types.length name (root.child name) (Nat.le_add_right ..)).bind_some
      (fun type => ih (type.rename name :: sofar)) (ih sofar)) fun refs => ?_
    rw [Spelling.all?_cons]
    cases refs name with
    | none => rfl
    | some type =>
      simp only [Option.map_some, Option.bind_some, List.reverse_cons, List.append_assoc, List.singleton_append,
        Option.map_map, Function.comp_def]

/-- Reading a document agrees with the types of its definitions. -/
theorem agrees_readDocument {document : Json} (h : document.definitions? = some types) :
    Agrees types [] (readDocument root document) fun refs => (Spelling.all? refs (types.map (·.1))).map some := by
  obtain ⟨value, hv, hobj⟩ := Option.bind_eq_some_iff.mp h
  obtain ⟨members, hmembers, hvalue⟩ := Option.bind_eq_some_iff.mp hv
  have htypes : (Json.member? "types" members).bind Json.obj? = some types := by
    rw [hvalue, Option.bind_some, hobj]
  unfold readDocument
  simp only [hmembers, htypes]
  refine ((Agrees.congr (agrees_resolveAll [] (types.map (·.1))) fun refs => ?_).map some).after (agrees_warnUnknownKeys _ _ _)
  exact Option.map_id'.symm

/-- A document without definitions has an error. -/
theorem readDocument_of_none {document : Json} (h : document.definitions? = none) {l l' : Loading}
    {found : Option (List Descriptor)} (hrun : readDocument root document l = (found, l')) :
    found = none ∧ l'.errors = l.errors + 1 := by
  have hrefuse : readDocument root document = refuse root "schema must be an object with a 'types' object" := by
    unfold readDocument
    cases hobj : document.obj? with
    | none => rfl
    | some members =>
      have hnone : (Json.member? "types" members).bind Json.obj? = none := by
        rw [Json.definitions?, Json.under?, hobj] at h
        exact h
      simp only [hnone]
  rw [hrefuse] at hrun
  obtain ⟨_, _, herror, hrun⟩ := run_bind_eq hrun
  cases hrun
  exact ⟨rfl, errors_report herror⟩

/-! ## From the start -/

theorem ready_start : Ready types [] .start :=
  ⟨rfl, rfl, rfl, List.nodup_nil, fun _ hm => absurd hm List.not_mem_nil, fun _ _ hm => absurd hm List.not_mem_nil⟩

/-- From the start an action reports no error if and only if something is read, and then that is its result. -/
theorem Agrees.from_start {m : LoadM α} {r : Refs → Option α} (h : Agrees types [] m r) {x : α} {l : Loading}
    (hm : m .start = (x, l)) : (l.errors = 0 ↔ (r (named? types types.length)).isSome = true) ∧
      (l.errors = 0 → Ready types [] l ∧ r (named? types types.length) = some x) := by
  have hsilent : l.errors = 0 → Ready types [] l ∧ r (named? types types.length) = some x := by
    intro herr
    obtain ⟨hl, -, hx⟩ := h.silent ready_start hm herr
    exact ⟨hl, h.mono (Spelling.named?_mono hl.resolved_le) x hx⟩
  refine ⟨⟨fun herr => ?_, fun hsome => ?_⟩, hsilent⟩
  · rw [(hsilent herr).2]
    rfl
  · exact h.sound ready_start hm types.length (fun _ hm => absurd hm List.not_mem_nil) hsome

/-- No error is reported where something is read with chains of references of any length. -/
theorem Agrees.errors_eq_zero {m : LoadM α} {r : Refs → Option α} (h : Agrees types [] m r) {x : α} {l : Loading}
    (hm : m .start = (x, l)) {bound : Nat} (hsome : (r (named? types bound)).isSome = true) : l.errors = 0 :=
  h.sound ready_start hm bound (fun _ hm => absurd hm List.not_mem_nil) hsome

end Loading

/-! ## The schema of a document -/

/-- A document gives a schema where it has definitions and no error. -/
theorem Schema.parse_run (file : String) (document : Json) :
    ∃ found l, Loading.readDocument ⟨file, ""⟩ document .start = (found, l) ∧ (Schema.parse file document).2 = l.diagnostics ∧
      ∀ schema, (Schema.parse file document).1 = .ok schema ↔ found = some schema.types ∧ l.errors = 0 := by
  obtain ⟨found, l, hrun⟩ : ∃ found l, (Loading.readDocument ⟨file, ""⟩ document).run .start = (found, l) := ⟨_, _, rfl⟩
  refine ⟨found, l, hrun, ?_⟩
  unfold Schema.parse
  rw [hrun]
  cases found with
  | none => exact ⟨rfl, fun schema => ⟨(fun h => by cases h), fun h => by cases h.1⟩⟩
  | some types =>
    by_cases herr : Diagnostic.errorCount l.diagnostics = 0
    · simp only [herr, if_true, true_and]
      refine fun schema => ⟨fun h => ?_, fun h => ?_⟩
      · cases h
        exact ⟨rfl, herr⟩
      · cases h.1
        rfl
    · simp only [if_neg herr, true_and]
      exact fun schema => ⟨(fun h => by cases h), fun h => absurd h.2 herr⟩

/-- A schema is read if and only if all its definitions have types, and these are its types. -/
theorem Schema.parse_eq_ok_iff {file : String} {document : Json} {schema : Schema} :
    (Schema.parse file document).1 = .ok schema ↔ ∃ types, document.definitions? = some types ∧
      Spelling.all? (Spelling.named? types types.length) (types.map (·.1)) = some schema.types := by
  obtain ⟨found, l, hrun, -, hok⟩ := Schema.parse_run file document
  rw [hok]
  cases hdef : document.definitions? with
  | none =>
    obtain ⟨rfl, -⟩ := Loading.readDocument_of_none hdef hrun
    exact ⟨(fun h => by cases h.1), fun ⟨_, h, _⟩ => by cases h⟩
  | some types =>
    obtain ⟨hiff, hfound⟩ := (Loading.agrees_readDocument hdef).from_start hrun
    rw [Option.isSome_map] at hiff
    constructor
    · rintro ⟨rfl, herr⟩
      obtain ⟨_, hall⟩ := hfound herr
      obtain ⟨_, hall, heq⟩ := Option.map_eq_some_iff.mp hall
      cases heq
      exact ⟨types, rfl, hall⟩
    · rintro ⟨_, ⟨⟩, hall⟩
      have herr := hiff.mpr (Option.isSome_iff_exists.mpr ⟨_, hall⟩)
      have hmap := (hfound herr).2
      rw [hall] at hmap
      exact ⟨(Option.some.inj hmap).symm, herr⟩

/-- The types of a schema have the names of their definitions, in the same order. -/
theorem Spelling.names_of_all? {refs : Spelling.Refs} {names : List String} {found : List Descriptor}
    (h : all? refs names = some found) : found.map (·.name) = names := by
  have hall := all?_eq_some_iff.mp h
  clear h
  induction hall with
  | nil => rfl
  | cons ht _ ih =>
    obtain ⟨known, -, rfl⟩ := ht
    rw [List.map_cons, ih, Descriptor.name_rename]

/-- The type of a name is found among the types of some names. -/
theorem Spelling.find?_of_all? {refs : Spelling.Refs} {names : List String} {found : List Descriptor} (h : all? refs names = some found)
    (name : String) :
    found.find? (·.name == name) = if name ∈ names then (refs name).map (·.rename name) else none := by
  have hall := all?_eq_some_iff.mp h
  clear h
  induction hall with
  | nil => rfl
  | @cons first _ rest _ ht _ ih =>
    obtain ⟨known, hk, rfl⟩ := ht
    rw [List.find?_cons, Descriptor.name_rename, ih]
    by_cases hname : first = name
    · subst hname
      simp only [beq_self_eq_true, List.mem_cons, true_or, if_true, hk, Option.map_some]
    · rw [beq_eq_false_iff_ne.mpr hname]
      simp only [List.mem_cons, Ne.symm hname, false_or]

/-- A schema knows the types of its definitions, each under its name. -/
theorem Schema.lookup?_eq {types : List (String × Json)} {schema : Schema}
    (h : Spelling.all? (Spelling.named? types types.length) (types.map (·.1)) = some schema.types) (name : String) :
    schema.lookup? name = (Spelling.named? types types.length name).map (·.rename name) := by
  rw [Schema.lookup?, Spelling.find?_of_all? h]
  by_cases hm : name ∈ types.map (·.1)
  · rw [if_pos hm]
  · rw [if_neg hm]
    cases hname : Spelling.named? types types.length name with
    | none => rfl
    | some type =>
      have hnode := Spelling.isSome_member?_of_named? (Option.isSome_iff_exists.mpr ⟨type, hname⟩)
      exact absurd (Json.isSome_member?_iff.mp hnode) hm

/-- A schema knows each of its types by its name. -/
theorem Schema.lookup?_of_mem {types : List (String × Json)} {schema : Schema}
    (h : Spelling.all? (Spelling.named? types types.length) (types.map (·.1)) = some schema.types) {type : Descriptor}
    (ht : type ∈ schema.types) : schema.lookup? type.name = some type := by
  obtain ⟨index, hi, rfl⟩ := List.getElem_of_mem ht
  have hall := Spelling.all?_eq_some_iff.mp h
  obtain ⟨known, hknown, htype⟩ := (List.forall₂_iff_get.mp hall).2 index (hall.length_eq ▸ hi) hi
  rw [List.get_eq_getElem, List.get_eq_getElem] at *
  rw [Schema.lookup?_eq h, htype, Descriptor.name_rename, hknown]
  rfl

/-- A document has no error if and only if it gives a schema. -/
theorem Schema.errorCount_parse_iff {file : String} {document : Json} :
    Diagnostic.errorCount (Schema.parse file document).2 = 0 ↔ ∃ schema, (Schema.parse file document).1 = .ok schema := by
  obtain ⟨found, l, hrun, hdiagnostics, hok⟩ := Schema.parse_run file document
  rw [hdiagnostics]
  simp only [hok]
  constructor
  · intro herr
    cases hdef : document.definitions? with
    | none => exact absurd ((Loading.readDocument_of_none hdef hrun).2.symm.trans herr) (Nat.succ_ne_zero _)
    | some types =>
      have hmap := (((Loading.agrees_readDocument hdef).from_start hrun).2 herr).2
      obtain ⟨all, -, rfl⟩ := Option.map_eq_some_iff.mp hmap
      exact ⟨⟨all⟩, rfl, herr⟩
  · rintro ⟨schema, -, herr⟩
    exact herr

end UnalignedPer
