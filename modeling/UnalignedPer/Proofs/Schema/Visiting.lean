import Mathlib
import UnalignedPer.Proofs.Schema.Agreement
import UnalignedPer.Proofs.Schema.Reporting
import UnalignedPer.Proofs.Schema.Watching

/-!
# Each type node is visited once

A definition that was begun is under way, failed or was read (`Loading.Begun`), and it stays so. Hence an action that reads
nodes of a definition under way meets the nodes of other definitions only if those were not begun before.

`Loading.Visits` says this of an action and its counterpart under watch, for a region of the places of the document: both come
to an end with the same result, no node is entered again, and what is entered lies in the region or in a definition that was
not begun. Actions in disjoint regions may follow each other. The parts of a type node lie in disjoint regions, and so a type
node is read with each node in it entered once, if that holds of the references in it.
-/

namespace UnalignedPer

namespace Json.Place

/-! ## Regions of a document -/

/-- The places at a place and further in. -/
def region (place : Place) : Set Place :=
  {other | other.definition = place.definition ∧ place.steps <:+ other.steps}

/-- The places that some steps from a place lead to, and those further in. -/
def through (place : Place) (steps : Set Step) : Set Place :=
  {other | ∃ next ∈ steps, other ∈ (place.step next).region}

/-- A place is one of its region. -/
theorem mem_region (place : Place) : place ∈ place.region :=
  ⟨rfl, List.suffix_refl _⟩

/-- What some steps lead to lies in the region. -/
theorem through_subset_region (place : Place) (steps : Set Step) : place.through steps ⊆ place.region := by
  rintro other ⟨next, -, hdefinition, hsteps⟩
  exact ⟨hdefinition, (List.suffix_cons next place.steps).trans hsteps⟩

/-- The region of a place that a step leads to is part of what the steps lead to. -/
theorem region_step_subset {place : Place} {next : Step} {steps : Set Step} (h : next ∈ steps) :
    (place.step next).region ⊆ place.through steps :=
  fun _ hother => ⟨next, h, hother⟩

/-- More steps lead to more places. -/
theorem through_mono {place : Place} {steps steps' : Set Step} (h : steps ⊆ steps') :
    place.through steps ⊆ place.through steps' :=
  fun _ ⟨next, hnext, hother⟩ => ⟨next, h hnext, hother⟩

/-- No step leads back. -/
theorem notMem_through (place : Place) (steps : Set Step) : place ∉ place.through steps := by
  rintro ⟨next, -, -, hsteps⟩
  have hlength : place.steps.length + 1 ≤ place.steps.length := hsteps.length_le
  omega

/-- Different steps lead to different places. -/
theorem step_eq_of_mem_region {place other : Place} {next next' : Step} (h : other ∈ (place.step next).region)
    (h' : other ∈ (place.step next').region) : next = next' := by
  have hsteps : next :: place.steps <:+ next' :: place.steps :=
    List.suffix_of_suffix_length_le h.2 h'.2 (Nat.le_refl _)
  exact (List.cons.inj (hsteps.eq_of_length rfl)).1

/-- What lies in the region one step in does not lie where other steps lead to. -/
theorem disjoint_region_through {place : Place} {next : Step} {steps : Set Step} (h : next ∉ steps) :
    Disjoint (place.step next).region (place.through steps) := by
  refine Set.disjoint_left.mpr fun other hother => ?_
  rintro ⟨next', hnext', hother'⟩
  exact h (step_eq_of_mem_region hother hother' ▸ hnext')

end Json.Place

namespace Loading

open Json (Place)

variable {α β : Type} {types : List (String × Json)} {active : List String} {R R' : Set Place} {w w' w'' : Watch}

/-- A definition is under way, failed or was read. -/
def Begun (l : Loading) (name : String) : Prop :=
  name ∈ l.active ∨ name ∈ l.failed ∨ name ∈ l.names

namespace Watch

/-! ## What holds all the time -/

/-- A place was entered. -/
def Entered (w : Watch) (place : Place) : Prop :=
  place ∈ w.entered.map (·.1)

/-- No node was entered twice, and the definitions that were begun are those whose nodes were entered. -/
structure Orderly (types : List (String × Json)) (w : Watch) : Prop where
  /-- No node was entered twice. -/
  nodup : (w.entered.map (·.1)).Nodup
  /-- What was entered are the nodes of the document. -/
  node : ∀ place node, (place, node) ∈ w.entered → place.node? types = some node
  /-- They lie in definitions that were begun. -/
  begun : ∀ place, w.Entered place → w.loading.Begun place.definition
  /-- A definition that was begun was entered. -/
  entered : ∀ name, w.loading.Begun name → w.Entered (.top name)
  /-- No definition is under way twice. -/
  nodup_active : w.loading.active.Nodup
  /-- What is under way has a definition. -/
  defined : w.loading.active ⊆ types.map (·.1)
  /-- As many definitions are being read as there are under way. -/
  reading_eq : w.reading = w.loading.active.length
  /-- There were never more than there are definitions. -/
  deepest_le : w.deepest ≤ types.length

/-- What was entered from one moment to another lies in a region or in a definition that was not begun. -/
structure Grows (R : Set Place) (w w' : Watch) : Prop where
  /-- The same definitions are under way. -/
  active_eq : w'.loading.active = w.loading.active
  /-- What was begun stays begun. -/
  begun : ∀ name, w.loading.Begun name → w'.loading.Begun name
  /-- What is new. -/
  fresh : ∀ place, w'.Entered place → w.Entered place ∨ place ∈ R ∨ ¬w.loading.Begun place.definition

/-- At the start nothing was entered, and the watch is in order. -/
theorem orderly_start (types : List (String × Json)) : Orderly types .start where
  nodup := List.nodup_nil
  node _ _ h := absurd h List.not_mem_nil
  begun _ h := absurd h List.not_mem_nil
  entered _ h := absurd h (by simp [Begun, start, Loading.start, names])
  nodup_active := List.nodup_nil
  defined _ h := absurd h List.not_mem_nil
  reading_eq := rfl
  deepest_le := Nat.zero_le _

/-- From a moment to itself nothing was entered. -/
theorem Grows.refl (R : Set Place) (w : Watch) : Grows R w w :=
  ⟨rfl, fun _ => id, fun _ => .inl⟩

/-- A greater region holds what was entered. -/
theorem Grows.mono (h : Grows R w w') (hsub : R ⊆ R') : Grows R' w w' :=
  ⟨h.active_eq, h.begun, fun place hplace => (h.fresh place hplace).imp_right (.imp_left (@hsub place))⟩

/-- What was entered from a first to a second and from there to a third moment lies in both regions together. -/
theorem Grows.trans (h : Grows R w w') (h' : Grows R' w' w'') : Grows (R ∪ R') w w'' where
  active_eq := h'.active_eq.trans h.active_eq
  begun name hname := h'.begun name (h.begun name hname)
  fresh place hplace := by
    rcases h'.fresh place hplace with hplace | hplace | hplace
    · exact (h.fresh place hplace).imp_right (.imp_left .inl)
    · exact .inr (.inl (.inr hplace))
    · exact .inr (.inr fun hbegun => hplace (h.begun _ hbegun))

/-- A node of a definition under way is entered that was not entered before. -/
theorem Orderly.enter (h : Orderly types w) {place : Place} {node : Json} (hnode : place.node? types = some node)
    (hactive : place.definition ∈ w.loading.active) (hnew : ¬w.Entered place) :
    Orderly types (w.entering place node) where
  nodup := List.nodup_cons.mpr ⟨hnew, h.nodup⟩
  node other inner hm := by
    rcases List.mem_cons.mp hm with heq | hm
    · cases heq
      exact hnode
    · exact h.node other inner hm
  begun other hm := by
    rcases List.mem_cons.mp hm with rfl | hm
    · exact .inl hactive
    · exact h.begun other hm
  entered name hname := List.mem_cons_of_mem _ (h.entered name hname)
  nodup_active := h.nodup_active
  defined := h.defined
  reading_eq := h.reading_eq
  deepest_le := h.deepest_le

/-! ## How visits chain -/

/-- A watched action that comes to an end is followed by the next one. -/
theorem bind_eq {m : WatchM α} {f : α → WatchM β} {x : α} (h : m w = some (x, w')) : (m >>= f) w = f x w' := by
  show (m w).bind (fun found => f found.1 found.2) = f x w'
  rw [h]
  rfl

/-- From a moment on, an action comes to an end with the same result as its counterpart, and enters no node again. -/
def Leads (types : List (String × Json)) (R : Set Place) (w : Watch) (watched : WatchM α) (action : LoadM α) : Prop :=
  ∃ x w', watched w = some (x, w') ∧ action w.loading = (x, w'.loading) ∧ Orderly types w' ∧ Grows R w w'

/-- Nothing is entered where the same definitions are under way and the same ones were begun afterwards. -/
theorem leads_plain (h : Orderly types w) {m : LoadM α} (hactive : (m w.loading).2.active = w.loading.active)
    (hbegun : ∀ name, (m w.loading).2.Begun name ↔ w.loading.Begun name) : Leads types R w (plain m) m := by
  refine ⟨_, _, rfl, rfl, ⟨h.nodup, h.node, ?_, ?_, hactive.symm ▸ h.nodup_active, hactive.symm ▸ h.defined,
    hactive.symm ▸ h.reading_eq, h.deepest_le⟩, hactive, fun name => (hbegun name).mpr, fun _ => .inl⟩
  · exact fun place hplace => (hbegun _).mpr (h.begun place hplace)
  · exact fun name hname => h.entered name ((hbegun name).mp hname)

end Watch

open Watch (Leads Orderly Grows)

/-- An action is followed by the next one. -/
theorem bind_eq {m : LoadM α} {f : α → LoadM β} {l l' : Loading} {x : α} (h : m l = (x, l')) : (m >>= f) l = f x l' := by
  show (fun found => f found.1 found.2) (m l) = f x l'
  rw [h]

/-- While some definitions are under way, an action that is watched comes to an end with the same result as its counterpart.
It enters no node again, and none but those of a region and of definitions that were not begun. -/
def Visits (types : List (String × Json)) (active : List String) (R : Set Place) (watched : WatchM α) (action : LoadM α) :
    Prop :=
  ∀ w, Orderly types w → w.loading.active = active → (∀ place ∈ R, place.definition ∈ active → ¬w.Entered place) →
    Leads types R w watched action

/-- The region may be a greater one. -/
theorem Visits.mono {m : WatchM α} {m' : LoadM α} (h : Visits types active R m m') (hsub : R ⊆ R') :
    Visits types active R' m m' := by
  intro w hw hactive hnew
  obtain ⟨x, w', hm, hm', hw', hgrows⟩ := h w hw hactive fun place hplace => hnew place (hsub hplace)
  exact ⟨x, w', hm, hm', hw', hgrows.mono hsub⟩

/-- A result alone enters no node. -/
theorem visits_pure (x : α) : Visits types active R (pure x) (pure x) :=
  fun w hw _ _ => ⟨x, w, rfl, rfl, hw, .refl _ w⟩

/-- An action that only reports enters nothing. -/
theorem visits_plain {m : LoadM α} (h : Reporting m) : Visits types active R (Watch.plain m) m := by
  intro w hw _ _
  obtain ⟨diagnostics, hl⟩ := h w.loading
  exact Watch.leads_plain hw (by rw [hl]) fun name => by rw [hl]; rfl

/-- A node of a definition under way is entered. -/
theorem visits_enter {place : Place} {node : Json} (hactive : place.definition ∈ active)
    (hnode : place.node? types = some node) : Visits types active {place} (Watch.enter place node) (pure ()) := by
  rintro w hw rfl hnew
  refine ⟨(), _, rfl, rfl, hw.enter hnode hactive (hnew place rfl hactive), rfl, fun _ => id, fun other hother => ?_⟩
  rcases List.mem_cons.mp hother with rfl | hother
  · exact .inr (.inl rfl)
  · exact .inl hother

/-- A choice between actions that come to an end comes to an end. -/
theorem visits_ite {c : Prop} [Decidable c] {m n : WatchM α} {m' n' : LoadM α} (h : Visits types active R m m')
    (h' : Visits types active R n n') : Visits types active R (if c then m else n) (if c then m' else n') := by
  split
  · exact h
  · exact h'

/-- One action after the other, in disjoint regions. -/
theorem Visits.bind {m : WatchM α} {m' : LoadM α} {f : α → WatchM β} {f' : α → LoadM β} (h : Visits types active R m m')
    (h' : ∀ x, Visits types active R' (f x) (f' x)) (hdisjoint : Disjoint R R') :
    Visits types active (R ∪ R') (m >>= f) (m' >>= f') := by
  rintro w hw rfl hnew
  obtain ⟨x, w₁, hm, hm', hw₁, hgrows⟩ := h w hw rfl fun place hplace => hnew place (.inl hplace)
  obtain ⟨y, w₂, hf, hf', hw₂, hgrows'⟩ := h' x w₁ hw₁ hgrows.active_eq fun place hplace hactive hentered => by
    rcases hgrows.fresh place hentered with hentered | hplace' | hbegun
    · exact hnew place (.inr hplace) hactive hentered
    · exact Set.disjoint_left.mp hdisjoint hplace' hplace
    -- The second region lies in definitions under way, and these were begun.
    · exact hbegun (.inl hactive)
  exact ⟨y, w₂, (Watch.bind_eq hm).trans hf, (bind_eq hm').trans hf', hw₂, hgrows.trans hgrows'⟩

/-- An action that enters nothing comes first. -/
theorem Visits.after {m : WatchM α} {m' : LoadM α} {f : α → WatchM β} {f' : α → LoadM β} (h : Visits types active ∅ m m')
    (h' : ∀ x, Visits types active R (f x) (f' x)) : Visits types active R (m >>= f) (m' >>= f') :=
  (h.bind h' (Set.empty_disjoint R)).mono (Set.empty_union R).subset

/-- An action that enters nothing comes last. -/
theorem Visits.before {m : WatchM α} {m' : LoadM α} {f : α → WatchM β} {f' : α → LoadM β} (h : Visits types active R m m')
    (h' : ∀ x, Visits types active ∅ (f x) (f' x)) : Visits types active R (m >>= f) (m' >>= f') :=
  (h.bind h' (Set.disjoint_empty R)).mono (Set.union_empty R).subset

/-! ## Fields and alternatives -/

/-- A field or alternative is read as its type is. -/
theorem visits_readMember (location : Location) (isChoice : Bool) (member : List (String × Json))
    {watched? : Option (WatchM (Option Descriptor))} {type? : Option (LoadM (Option Descriptor))}
    (h : Option.Rel (Visits types active R) watched? type?) (scan : MemberScan) :
    Visits types active R (Watch.readMember location isChoice member watched? scan)
      (readMember location isChoice member type? scan) := by
  have hfailed : ∀ (location : Location) (text : String) (scan : MemberScan), Visits types active R
      (Watch.plain do error location text; pure scan.failed) (do error location text; pure scan.failed) := fun _ _ _ =>
    visits_plain ((reporting_report _ _ _).bind fun _ => reporting_pure _)
  refine (visits_plain (reporting_warnUnknownKeys _ _ _)).after fun _ => ?_
  refine visits_ite (hfailed _ _ _) (visits_ite (hfailed _ _ _) ?_)
  refine (visits_plain (reporting_readOptional _ _ _)).after fun optional => ?_
  cases h with
  | none => exact hfailed _ _ _
  | some hread =>
    refine hread.before fun type => ?_
    cases type with
    | none => exact visits_pure _
    | some type => exact visits_pure _

/-- Fields or alternatives make a type where they were read. -/
theorem visits_finishMembers {watched : WatchM (Option MemberScan)} {action : LoadM (Option MemberScan)}
    (h : Visits types active R watched action) (location : Location) (name : String) (isChoice : Bool)
    (members : List (String × Json)) :
    Visits types active R (do
      match ← watched with
      | none => pure none
      | some scan => Watch.plain (finishMembers location name isChoice members scan)) (do
      match ← action with
      | none => pure none
      | some scan => finishMembers location name isChoice members scan) := by
  refine h.before fun found => ?_
  cases found with
  | none => exact visits_pure none
  | some scan => exact visits_plain (reporting_finishMembers _ _ _ _ _)

/-- The type of elements makes a type where it was read. -/
theorem visits_element {watched? : Option (WatchM (Option Descriptor))} {type? : Option (LoadM (Option Descriptor))}
    (location : Location) (name : String) (bounds : Option (Bounds Int64 × Bool)) :
    Option.Rel (Visits types active R) watched? type? → Visits types active R (match watched? with
      | none => Watch.plain (refuse location "sequence-of type needs an 'element'")
      | some read => do
        match ← read, bounds with
        | some element, some (size, extensible) => pure (some (Descriptor.sequenceOf name element size extensible))
        | _, _ => pure none) (match type? with
      | none => refuse location "sequence-of type needs an 'element'"
      | some read => do
        match ← read, bounds with
        | some element, some (size, extensible) => pure (some (Descriptor.sequenceOf name element size extensible))
        | _, _ => pure none) := by
  intro h
  cases h with
  | none => exact visits_plain (reporting_refuse _ _)
  | some hread =>
    refine hread.before fun element => ?_
    cases element with
    | none => exact visits_pure none
    | some element => cases bounds <;> exact visits_pure _

/-! ## Type nodes -/

variable {watched : Watch.Resolver} {resolve : Resolver}

mutual

/-- A type node of a definition under way is read with each node further in entered once, if references are looked for so. -/
theorem visits_readType (h : ∀ target location, Visits types active ∅ (watched target location) (resolve target location))
    {place : Place} (hactive : place.definition ∈ active) (name : String) (location : Location) :
    ∀ node, place.node? types = some node → Visits types active (place.through Set.univ)
      (Watch.readType watched place name location node) (readType resolve name location node)
  | .obj members => by
    intro hnode
    unfold Watch.readType readType
    have href : (Json.obj members).reference? = (Json.member? "ref" members).bind Json.str? := rfl
    have hkind : (Json.obj members).kind? = ((Json.member? "kind" members).bind Json.str?).bind kindOfName? := rfl
    cases htarget : (Json.member? "ref" members).bind Json.str? with
    | some target =>
      -- A reference enters nothing in this definition, which is under way.
      refine Visits.mono ?_ (Set.empty_subset _)
      exact visits_ite ((visits_plain (reporting_report _ _ _)).after fun _ => h target _) (h target _)
    | none =>
      cases hkindName : (Json.member? "kind" members).bind Json.str? with
      | none => exact visits_plain (reporting_refuse _ _)
      | some kindName =>
        rw [htarget] at href
        rw [hkindName, Option.bind_some] at hkind
        simp only
        cases hknown : kindOfName? kindName with
        | none => exact visits_plain (reporting_refuse _ _)
        | some kind =>
          rw [hknown] at hkind
          refine (visits_plain (reporting_warnUnknownKeys _ _ _)).after fun _ => ?_
          have hinner : ∀ next, (place.step next).node? types = (Json.obj members).inner? next := by
            intro next
            rw [Json.Place.node?_step, hnode, Option.bind_some]
          have hmembers : ∀ key isChoice, (Json.obj members).members? = (Json.obj members).itemsUnder? key →
              Visits types active (place.through Set.univ)
                (Watch.readMembersUnder watched place key isChoice (location.child key) members)
                (readMembersUnder resolve key isChoice (location.child key) members) := by
            intro key isChoice hkey
            refine visits_readMembersUnder h hactive key isChoice _ members fun items hitems index item hitem => ?_
            have hitems' : (Json.obj members).itemsUnder? key = some items := hitems
            rw [hinner]
            simp only [Json.inner?, href, if_true, hkey, hitems', Option.bind_some, hitem]
          cases kind
          case null | boolean => exact visits_pure _
          case enumerated => exact visits_plain (reporting_readEnumerated _ _ _)
          case sequence => exact visits_finishMembers (hmembers _ _ (by rw [Json.members?, hkind])) _ _ _ _
          case choice => exact visits_finishMembers (hmembers _ _ (by rw [Json.members?, hkind])) _ _ _ _
          case sequenceOf =>
            have helement := visits_readTypeUnder h (show (place.step .element).definition ∈ active from hactive) "element"
              (location.child "element") members (by rw [hinner, Json.inner?, if_pos ⟨href, hkind⟩, Json.under?_obj])
            refine Visits.mono ?_ (Json.Place.region_step_subset (Set.mem_univ .element))
            exact (visits_plain (reporting_readBounds _ _ _)).after fun bounds =>
              visits_element location name bounds helement
          all_goals exact visits_plain (reporting_readBounded _ _ _ _)
  | .null => fun _ => visits_plain (reporting_refuse _ _)
  | .bool _ => fun _ => visits_plain (reporting_refuse _ _)
  | .number _ => fun _ => visits_plain (reporting_refuse _ _)
  | .str _ => fun _ => visits_plain (reporting_refuse _ _)
  | .arr _ => fun _ => visits_plain (reporting_refuse _ _)

/-- The type node under a key is entered and read, if there is one. -/
theorem visits_readTypeUnder
    (h : ∀ target location, Visits types active ∅ (watched target location) (resolve target location)) {place : Place}
    (hactive : place.definition ∈ active) (key : String) (location : Location) :
    ∀ members, place.node? types = Json.member? key members → Option.Rel (Visits types active place.region)
      (Watch.readTypeUnder watched place key location members) (readTypeUnder resolve key location members)
  | [] => fun _ => .none
  | (k, node) :: rest => by
    intro hnode
    unfold Watch.readTypeUnder readTypeUnder
    rw [Json.member?_cons] at hnode
    by_cases hk : k = key
    · rw [if_pos hk.symm] at hnode
      rw [if_pos hk, if_pos hk]
      refine .some (((visits_enter hactive hnode).bind (fun _ => visits_readType h hactive "" location node hnode)
        (Set.disjoint_singleton_left.mpr (Json.Place.notMem_through _ _))).mono (Set.union_subset ?_ ?_))
      · exact Set.singleton_subset_iff.mpr (Json.Place.mem_region _)
      · exact Json.Place.through_subset_region _ _
    · rw [if_neg (Ne.symm hk)] at hnode
      rw [if_neg hk, if_neg hk]
      exact visits_readTypeUnder h hactive key location rest hnode

/-- The fields or alternatives under a key. -/
theorem visits_readMembersUnder
    (h : ∀ target location, Visits types active ∅ (watched target location) (resolve target location)) {place : Place}
    (hactive : place.definition ∈ active) (key : String) (isChoice : Bool) (location : Location) :
    ∀ members, (∀ items, (Json.member? key members).bind Json.arr? = some items → ∀ index item, items[index]? = some item →
        (place.step (.member index)).node? types = item.under? "type") →
      Visits types active (place.through Set.univ) (Watch.readMembersUnder watched place key isChoice location members)
        (readMembersUnder resolve key isChoice location members)
  | [] => fun _ => visits_plain (reporting_refuse _ _)
  | (k, node) :: rest => by
    intro hitems
    unfold Watch.readMembersUnder readMembersUnder
    rw [Json.member?_cons] at hitems
    by_cases hk : k = key
    · rw [if_pos hk.symm] at hitems
      rw [if_pos hk, if_pos hk]
      match node with
      | .arr items =>
        refine visits_ite (visits_plain (reporting_refuse _ _)) ?_
        refine Visits.mono (Visits.before (visits_readMembers h hactive isChoice location 0 .start items ?_)
          fun scan => visits_pure (some scan)) (Json.Place.through_mono (Set.subset_univ _))
        intro index item hitem
        rw [Nat.zero_add]
        exact hitems items rfl index item hitem
      | .null => exact visits_plain (reporting_refuse _ _)
      | .bool _ => exact visits_plain (reporting_refuse _ _)
      | .number _ => exact visits_plain (reporting_refuse _ _)
      | .str _ => exact visits_plain (reporting_refuse _ _)
      | .obj _ => exact visits_plain (reporting_refuse _ _)
    · rw [if_neg (Ne.symm hk)] at hitems
      rw [if_neg hk, if_neg hk]
      exact visits_readMembersUnder h hactive key isChoice location rest hitems

/-- Fields or alternatives from an index on lie in regions of their own. -/
theorem visits_readMembers
    (h : ∀ target location, Visits types active ∅ (watched target location) (resolve target location)) {place : Place}
    (hactive : place.definition ∈ active) (isChoice : Bool) (location : Location) (index : Nat) (scan : MemberScan) :
    ∀ items : List Json, (∀ offset item, items[offset]? = some item →
        (place.step (.member (index + offset))).node? types = item.under? "type") →
      Visits types active (place.through {next | ∃ later ≥ index, next = .member later})
        (Watch.readMembers watched place isChoice location index scan items)
        (readMembers resolve isChoice location index scan items)
  | [] => fun _ => visits_pure scan
  | item :: rest => by
    intro hitems
    have hlater : ∀ scan, Visits types active (place.through {next | ∃ later ≥ index + 1, next = .member later})
        (Watch.readMembers watched place isChoice location (index + 1) scan rest)
        (readMembers resolve isChoice location (index + 1) scan rest) := by
      refine fun scan => visits_readMembers h hactive isChoice location (index + 1) scan rest fun offset item hitem => ?_
      rw [Nat.add_assoc, Nat.add_comm 1]
      exact hitems (offset + 1) item hitem
    have hsub : place.through {next | ∃ later ≥ index + 1, next = .member later} ⊆
        place.through {next | ∃ later ≥ index, next = .member later} := by
      refine Json.Place.through_mono ?_
      rintro next ⟨later, hle, rfl⟩
      exact ⟨later, Nat.le_of_succ_le hle, rfl⟩
    have hother : Visits types active (place.through {next | ∃ later ≥ index, next = .member later})
        (do
          let scan ← Watch.plain do
            error (location.item index) "member must be an object"
            pure scan.failed
          Watch.readMembers watched place isChoice location (index + 1) scan rest)
        (do
          let scan ← do
            error (location.item index) "member must be an object"
            pure scan.failed
          readMembers resolve isChoice location (index + 1) scan rest) :=
      ((visits_plain ((reporting_report _ _ _).bind fun _ => reporting_pure _)).after hlater).mono hsub
    unfold Watch.readMembers readMembers
    match item with
    | .obj member =>
      have htype := visits_readTypeUnder h (show (place.step (.member index)).definition ∈ active from hactive) "type"
        ((location.item index).child "type") member (hitems 0 _ rfl)
      refine ((visits_readMember (location.item index) isChoice member htype scan).bind hlater
        (Json.Place.disjoint_region_through ?_)).mono (Set.union_subset ?_ hsub)
      · rintro ⟨later, hle, heq⟩
        cases heq
        omega
      · exact Json.Place.region_step_subset ⟨index, Nat.le_refl _, rfl⟩
    | .null => exact hother
    | .bool _ => exact hother
    | .number _ => exact hother
    | .str _ => exact hother
    | .arr _ => exact hother

end

end Loading

end UnalignedPer
