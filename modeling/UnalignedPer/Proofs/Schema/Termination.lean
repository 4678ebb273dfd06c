import UnalignedPer.Proofs.Schema.Resolution
import UnalignedPer.Proofs.Schema.Visiting

/-!
# Loading comes to an end

A reference leads from a node to any definition, so that no size of nodes gets smaller along references. What gets smaller is
the number of definitions that are not under way: a definition is begun only if it is not under way, and then it is. Within a
definition the nodes get smaller (`Loading.visits_readType`).

A definition that was begun is never begun again, whether it failed or was read, and therefore each type node is entered once
at most (`Loading.resolution_terminates`).
-/

namespace UnalignedPer

namespace Loading

open Json (Place)
open Watch (Leads Orderly Grows)

variable {α : Type} {types : List (String × Json)} {root : Location} {R : Set Place} {w w' : Watch}

namespace Watch

/-! ## A definition is begun and ended -/

/-- The same with a definition begun. -/
def opening (w : Watch) (name : String) : Watch :=
  ⟨{ w.loading with active := name :: w.loading.active }, w.entered, w.reading + 1, max w.deepest (w.reading + 1)⟩

/-- Nothing of a definition was entered that was not begun. -/
theorem Orderly.not_entered (h : Orderly types w) {place : Place} (hnew : ¬w.loading.Begun place.definition) :
    ¬w.Entered place :=
  fun hplace => hnew (h.begun place hplace)

theorem Orderly.opening (h : Orderly types w) {name : String} {node : Json} (hnew : ¬w.loading.Begun name)
    (hnode : Json.member? name types = some node) : Orderly types ((w.opening name).entering (.top name) node) where
  nodup := List.nodup_cons.mpr ⟨h.not_entered hnew, h.nodup⟩
  node place inner hm := by
    rcases List.mem_cons.mp hm with heq | hm
    · cases heq
      exact hnode
    · exact h.node place inner hm
  begun place hm := by
    rcases List.mem_cons.mp hm with rfl | hm
    · exact .inl (List.mem_cons_self ..)
    · exact (h.begun place hm).imp_left (List.mem_cons_of_mem _)
  entered other hother := by
    rcases hother with hother | hother
    · rcases List.mem_cons.mp hother with rfl | hother
      · exact List.mem_cons_self ..
      · exact List.mem_cons_of_mem _ (h.entered other (.inl hother))
    · exact List.mem_cons_of_mem _ (h.entered other (.inr hother))
  nodup_active := List.nodup_cons.mpr ⟨fun hm => hnew (.inl hm), h.nodup_active⟩
  defined := List.cons_subset.mpr ⟨List.mem_map_of_mem (Json.mem_of_member? hnode), h.defined⟩
  reading_eq := congrArg (· + 1) h.reading_eq
  deepest_le := by
    have hlt := length_lt_of_new h.nodup_active h.defined (fun hm => hnew (.inl hm)) hnode
    rw [← h.reading_eq] at hlt
    exact Nat.max_le.mpr ⟨h.deepest_le, hlt⟩

/-- The same with a definition no longer being read. -/
def closing (w : Watch) (l : Loading) : Watch :=
  { w with loading := l, reading := w.reading - 1 }

theorem Orderly.closing (h : Orderly types w) {name : String} {l : Loading} (hactive : w.loading.active = name :: l.active)
    (hbegun : ∀ other, l.Begun other ↔ w.loading.Begun other) : Orderly types (w.closing l) where
  nodup := h.nodup
  node := h.node
  begun place hplace := (hbegun _).mpr (h.begun place hplace)
  entered other hother := h.entered other ((hbegun other).mp hother)
  nodup_active := (List.nodup_cons.mp (hactive ▸ h.nodup_active)).2
  defined := fun _ hm => h.defined (hactive ▸ List.mem_cons_of_mem _ hm)
  reading_eq := by
    show w.reading - 1 = l.active.length
    rw [h.reading_eq, hactive]
    rfl
  deepest_le := h.deepest_le

/-- While a definition is read, nothing is entered but its nodes and those of definitions that were not begun. -/
theorem Grows.closing {name : String} {node : Json} (hnew : ¬w.loading.Begun name)
    (hgrows : Grows (Place.through (.top name) Set.univ) ((w.opening name).entering (.top name) node) w') {l : Loading}
    (hactive : w'.loading.active = name :: l.active) (hbegun : ∀ other, l.Begun other ↔ w'.loading.Begun other) :
    Grows R w (w'.closing l) where
  active_eq := (List.cons.inj (hactive.symm.trans hgrows.active_eq)).2
  begun other hother := (hbegun other).mpr (hgrows.begun other (hother.imp_left (List.mem_cons_of_mem _)))
  fresh place hplace := by
    rcases hgrows.fresh place hplace with hplace | ⟨_, _, hdefinition, -⟩ | hplace
    · rcases List.mem_cons.mp hplace with rfl | hplace
      · exact .inr (.inr hnew)
      · exact .inl hplace
    · replace hdefinition : place.definition = name := hdefinition
      exact .inr (.inr (hdefinition ▸ hnew))
    · exact .inr (.inr fun hbegun => hplace (hbegun.imp_left (List.mem_cons_of_mem _)))

end Watch

/-! ## Names are looked for -/

theorem leads_get {f : Watch → WatchM α} {f' : Loading → LoadM α} (h : Leads types R w (f w) (f' w.loading)) :
    Leads types R w (get >>= f) (get >>= f') :=
  h

/-- A name that was begun is still begun where it fails. -/
theorem begun_fail {l : Loading} {name : String} (h : l.Begun name) (other : String) :
    Begun { l with failed := name :: l.failed } other ↔ l.Begun other := by
  simp only [Begun, List.mem_cons, names] at h ⊢
  grind

/-- A definition under way no longer is, and no other one is begun. -/
theorem settle_eq {l : Loading} {name : String} {active : List String} (h : l.active = name :: active)
    (type : Option Descriptor) :
    ∃ x l', settle name type l = (x, l') ∧ l.active = name :: l'.active ∧ ∀ other, l'.Begun other ↔ l.Begun other := by
  have herase : l.active = name :: l.active.erase name := by rw [h, List.erase_cons_head]
  have hfailed : settle name none l = (none, { l with active := l.active.erase name, failed := name :: l.failed }) ∧
      ∀ other, Begun { l with active := l.active.erase name, failed := name :: l.failed } other ↔ l.Begun other := by
    refine ⟨rfl, fun other => ?_⟩
    simp only [Begun, names, h, List.erase_cons_head, List.mem_cons]
    tauto
  cases type with
  | none => exact ⟨_, _, hfailed.1, herase, hfailed.2⟩
  | some type =>
    by_cases hname : l.failed.contains name = true
    · refine ⟨none, _, ?_, herase, hfailed.2⟩
      show (if l.failed.contains name then markFailed name else _) _ = _
      rw [if_pos hname]
      rfl
    · refine ⟨some type, { l with active := l.active.erase name, resolved := (name, type) :: l.resolved }, ?_, herase,
        fun other => ?_⟩
      · show (if l.failed.contains name then markFailed name else _) _ = _
        rw [if_neg hname]
        rfl
      · simp only [Begun, names, h, List.erase_cons_head, List.map_cons, List.mem_cons]
        tauto

/-- A name is not begun whose type is not known and that neither failed nor is under way. -/
theorem not_begun {l : Loading} {name : String} (hlook : l.resolved.lookup name = none) (hfailed : ¬l.failed.contains name = true)
    (hactive : ¬l.active.contains name = true) : ¬l.Begun name := by
  rintro (hm | hm | hm)
  · exact hactive (List.contains_iff_mem.mpr hm)
  · exact hfailed (List.contains_iff_mem.mpr hm)
  · obtain ⟨entry, hentry, rfl⟩ := List.mem_map.mp hm
    exact absurd rfl (bne_iff_ne.mp (List.lookup_eq_none_iff.mp hlook entry hentry))

/-- A definition that was not begun is read with each node entered once, if references are looked for so. -/
theorem leads_definition {watched : Watch.Resolver} {resolve : Resolver} {name : String} {node : Json}
    (h : ∀ target location,
      Visits types (name :: w.loading.active) ∅ (watched target location) (resolve target location))
    (hw : Orderly types w) (hnew : ¬w.loading.Begun name) (hnode : Json.member? name types = some node) (location : Location) :
    Leads types (Place.through (.top name) Set.univ) ((w.opening name).entering (.top name) node)
      (Watch.readType watched (.top name) name location node) (readType resolve name location node) := by
  have hactive : (Place.top name).definition ∈ name :: w.loading.active := List.mem_cons_self ..
  refine visits_readType h hactive name location node hnode _ (hw.opening hnew hnode) rfl fun place hplace _ hentered => ?_
  rcases List.mem_cons.mp hentered with rfl | hentered
  · exact Json.Place.notMem_through _ _ hplace
  · obtain ⟨_, -, hdefinition, -⟩ := hplace
    exact hw.not_entered (hdefinition ▸ hnew) hentered

/-- A name is looked for with each node entered once, if there is fuel for all names that are not under way. -/
theorem visits_resolve (root : Location) {active : List String} (fuel fuel' : Nat)
    (hfuel : types.length ≤ fuel + active.length) (hfuel' : types.length ≤ fuel' + active.length) (name : String)
    (referrer : Location) :
    Visits types active ∅ (Watch.resolve types root fuel name referrer) (resolve types root fuel' name referrer) := by
  rintro w hw rfl hnothing
  unfold Watch.resolve resolve
  refine leads_get ?_
  dsimp only
  cases hlook : w.loading.resolved.lookup name with
  | some type => exact visits_pure (some type) w hw rfl hnothing
  | none =>
    dsimp only
    by_cases hfailed : w.loading.failed.contains name = true
    · rw [if_pos hfailed, if_pos hfailed]
      exact visits_pure none w hw rfl hnothing
    rw [if_neg hfailed, if_neg hfailed]
    by_cases hactive : w.loading.active.contains name = true
    · rw [if_pos hactive, if_pos hactive]
      exact Watch.leads_plain hw rfl (begun_fail (.inl (List.contains_iff_mem.mp hactive)))
    rw [if_neg hactive, if_neg hactive]
    cases hnode : Json.member? name types with
    | none => exact visits_plain (reporting_refuse _ _) w hw rfl hnothing
    | some node =>
      have hnew := not_begun hlook hfailed hactive
      -- A definition is left that is not under way, and so there is fuel for it.
      have hlt := length_lt_of_new hw.nodup_active hw.defined (fun hm => hnew (.inl hm)) hnode
      obtain ⟨fuel, rfl⟩ := Nat.exists_eq_succ_of_ne_zero (show fuel ≠ 0 by omega)
      obtain ⟨fuel', rfl⟩ := Nat.exists_eq_succ_of_ne_zero (show fuel' ≠ 0 by omega)
      have hrefs : ∀ target location, Visits types (name :: w.loading.active) ∅
          (Watch.resolve types root fuel target location) (resolve types root fuel' target location) := by
        intro target location
        refine visits_resolve root fuel fuel' ?_ ?_ target location
        · rw [List.length_cons]
          omega
        · rw [List.length_cons]
          omega
      obtain ⟨found, w', hwatched, hread, hw', hgrows⟩ := leads_definition hrefs hw hnew hnode (root.child name)
      obtain ⟨x, l, hsettle, hleft, hbegun⟩ := settle_eq hgrows.active_eq found
      refine ⟨x, w'.closing l, ?_, (bind_eq hread).trans hsettle, hw'.closing hleft hbegun, hgrows.closing hnew hleft hbegun⟩
      show (Watch.readType (Watch.resolve types root fuel) (.top name) name (root.child name) node >>= fun type =>
        Watch.closed >>= fun _ => Watch.plain (settle name type)) ((w.opening name).entering (.top name) node) = _
      rw [Watch.bind_eq hwatched]
      exact congrArg (fun last => some (last.1, w'.closing last.2)) hsettle

/-- A name that is looked for was begun afterwards, if it has a definition. -/
theorem begun_of_look {fuel : Nat} {name : String} {l l' : Loading} {x : Option Descriptor} (h : Look types root fuel name l x l')
    (hdefined : name ∈ types.map (·.1)) (hfuel : 0 < fuel) (hmono : ∀ other, l.Begun other → l'.Begun other) :
    l'.Begun name := by
  cases h with
  | kept hm => exact .inr (.inr (List.mem_map_of_mem hm))
  | failed hm => exact .inr (.inl hm)
  | cycle hm => exact hmono name (.inl hm)
  | unknown hnode =>
    have hsome := Json.isSome_member?_iff.mpr hdefined
    rw [hnode] at hsome
    cases hsome
  | spent => exact absurd hfuel (Nat.lt_irrefl 0)
  | read => exact .inr (.inr (List.mem_cons_self ..))
  | dropped => exact .inr (.inl (List.mem_cons_self ..))

/-! ## All definitions -/

/-- The types of some names are read with each node entered once, and all of them are begun. -/
theorem leads_resolveAll (root : Location) {fuel : Nat} (hfuel : types.length ≤ fuel) (sofar : List Descriptor)
    {names : List String} (hnames : names ⊆ types.map (·.1)) (hw : Orderly types w) (hactive : w.loading.active = []) :
    ∃ found w', Watch.resolveAll types root fuel sofar names w = some (found, w') ∧
      resolveAll types root sofar names w.loading = (found, w'.loading) ∧ Orderly types w' ∧ Grows ∅ w w' ∧
      ∀ name ∈ names, w'.loading.Begun name := by
  induction names generalizing sofar w with
  | nil => exact ⟨_, w, rfl, rfl, hw, .refl _ w, fun _ hm => absurd hm List.not_mem_nil⟩
  | cons name rest ih =>
    obtain ⟨hname, hrest⟩ := List.cons_subset.mp hnames
    obtain ⟨x, w₁, hwatched, hread, hw₁, hgrows⟩ := visits_resolve root fuel types.length (Nat.le_add_right_of_le hfuel)
      (Nat.le_add_right ..) name (root.child name) w hw rfl (fun _ hm => absurd hm (Set.notMem_empty _))
    have hsome : 0 < types.length := by
      have hlength := List.length_pos_of_mem hname
      rwa [List.length_map] at hlength
    have hbegun : w₁.loading.Begun name := begun_of_look (resolve_look hread) hname hsome hgrows.begun
    obtain ⟨found, w₂, hwatched', hread', hw₂, hgrows', hall⟩ := ih
      (match x with | some type => type.rename name :: sofar | none => sofar) hrest hw₁ (hgrows.active_eq.trans hactive)
    refine ⟨found, w₂, ?_, ?_, hw₂, (hgrows.trans hgrows').mono (Set.union_empty _).subset, fun other hm => ?_⟩
    · rw [Watch.resolveAll, Watch.bind_eq hwatched]
      cases x <;> exact hwatched'
    · rw [resolveAll, bind_eq hread]
      cases x <;> exact hread'
    · rcases List.mem_cons.mp hm with rfl | hm
      · exact hgrows'.begun _ hbegun
      · exact hall other hm

/-- Loading the definitions of a schema comes to an end, with fuel for as many names as there are definitions or with any more
(`spare`): it is not spent, and the result is the one of `resolveAll`. No type node is entered twice, and each definition is
entered. No more definitions are being read at once than there are, and at the end none is under way. -/
theorem resolution_terminates (types : List (String × Json)) (root : Location) (spare : Nat) :
    ∃ found w, Watch.resolveAll types root (types.length + spare) [] (types.map (·.1)) .start = some (found, w) ∧
      resolveAll types root [] (types.map (·.1)) .start = (found, w.loading) ∧
      (w.entered.map (·.1)).Nodup ∧
      (∀ place node, (place, node) ∈ w.entered → place.node? types = some node) ∧
      (∀ name ∈ types.map (·.1), ∃ node, (Place.top name, node) ∈ w.entered) ∧
      w.deepest ≤ types.length ∧
      w.loading.active = [] := by
  obtain ⟨found, w, hwatched, hread, hw, hgrows, hbegun⟩ := leads_resolveAll root (Nat.le_add_right types.length spare) []
    (List.Subset.refl (types.map (·.1))) (Watch.orderly_start types) rfl
  refine ⟨found, w, hwatched, hread, hw.nodup, hw.node, fun name hname => ?_, hw.deepest_le, hgrows.active_eq⟩
  obtain ⟨⟨place, node⟩, hm, rfl⟩ := List.mem_map.mp (hw.entered name (hbegun name hname))
  exact ⟨node, hm⟩

/-- A list of what refers back to the list: three nodes are entered, and two definitions are being read at once. -/
example :
    let list := Json.obj [("kind", .str "sequence-of"), ("element", .obj [("ref", .str "Item")])]
    let item := Json.obj [("ref", .str "List")]
    (Watch.resolveAll [("Item", item), ("List", list)] ⟨"", ""⟩ 2 [] ["Item", "List"] .start).map
        (fun run => (run.2.entered.map (·.1), run.2.deepest)) =
      some ([⟨"List", [.element]⟩, .top "List", .top "Item"], 2) := by
  decide +kernel

end Loading

end UnalignedPer
