import Mathlib.Data.List.Forall2
import Mathlib.Logic.Relation
import UnalignedPer.Schema.Loading

/-!
# The grammar of schema documents

Which documents are schemas, said of the document alone. A type node is looked at together with the parts that hold no other
types (`Json.Sound`). What lies in it is the types of its fields, of its alternatives or of its elements (`Json.Part`). A node
that refers to a definition has no parts, whatever stands beside the reference.

A document is a schema (`Json.IsSchema`) if all nodes of its definitions are sound, all references have a definition, and no
definition comes back to itself through references.
-/

namespace UnalignedPer

namespace Json

/-- The value under a key of an object. -/
def under? (key : String) (node : Json) : Option Json :=
  node.obj?.bind (member? key)

/-- What is under a key of an object is its member. -/
@[simp] theorem under?_obj (key : String) (members : List (String × Json)) :
    (Json.obj members).under? key = member? key members :=
  rfl

/-- The items of the array under a key of an object. -/
def itemsUnder? (key : String) (node : Json) : Option (List Json) :=
  (node.under? key).bind arr?

/-- The name that a type node refers to. -/
def reference? (node : Json) : Option String :=
  (node.under? "ref").bind str?

/-- The kind that a type node names. -/
def kind? (node : Json) : Option Kind :=
  ((node.under? "kind").bind str?).bind Loading.kindOfName?

/-- The fields or the alternatives that a node lists. -/
def members? (node : Json) : Option (List Json) :=
  match node.kind? with
  | some .sequence => node.itemsUnder? "fields"
  | some .choice => node.itemsUnder? "variants"
  | _ => none

/-! ## The parts of a type node that hold no types -/

/-- The bounds are numbers, not negative where they bound a size, and do not cross. -/
structure BoundsSound (isSize : Bool) (node : Json) : Prop where
  /-- Each bound that is there is a number. -/
  numbers : ∀ key ∈ ["min", "max"], ∀ bound, node.under? key = some bound →
    ∃ number, bound.int64? = some number ∧ (isSize = true → 0 ≤ number)
  /-- The lower one does not exceed the upper one. -/
  ordered : ∀ lower upper, (node.under? "min").bind int64? = some lower → (node.under? "max").bind int64? = some upper →
    lower ≤ upper

/-- The value under a key, if there is one, is a truth value. -/
def FlagSound (key : String) (node : Json) : Prop :=
  ∀ flag, node.under? key = some flag → ∃ value, flag = .bool value

/-- The alphabet, if there is one, is known. -/
def CharsetSound (node : Json) : Prop :=
  ∀ charset, node.under? "charset" = some charset →
    ∃ name, charset = .str name ∧ (Loading.alphabetOfName? name).isSome = true

/-- The extension marker of a type with members of some names stands behind one of them, if its place is given, and the type
is not said to have none. -/
structure MarkerSound (names : List String) (node : Json) : Prop where
  /-- The flag is a truth value. -/
  flag : node.FlagSound "extensible"
  /-- The place is a member, and there is a marker. -/
  place : ∀ after, node.under? "extensionAfter" = some after →
    node.under? "extensible" ≠ some (.bool false) ∧ ∃ name ∈ names, after = .str name

/-- The items of an enumerated type are names, at least one, each once and none empty. -/
def ItemsSound (node : Json) : Prop :=
  ∃ names : List String, node.itemsUnder? "items" = some (names.map .str) ∧ names ≠ [] ∧ "" ∉ names ∧ names.Nodup ∧
    node.MarkerSound names

/-- A field or alternative has a name and a type. A field may be optional, an alternative may not. -/
structure MemberSound (isChoice : Bool) (item : Json) (name : String) : Prop where
  /-- The name is the text under its key. -/
  name_eq : item.under? "name" = some (.str name)
  /-- The name is not empty. -/
  name_ne : name ≠ ""
  /-- The flag is a truth value, and false for an alternative. -/
  optional : ∀ flag, item.under? "optional" = some flag → flag = .bool false ∨ isChoice = false ∧ flag = .bool true
  /-- There is a type. -/
  type : (item.under? "type").isSome = true

/-- The fields or alternatives have names of their own. There is at least one alternative. -/
def MembersSound (key : String) (isChoice : Bool) (node : Json) : Prop :=
  ∃ items names, node.itemsUnder? key = some items ∧ (isChoice = true → items ≠ []) ∧
    List.Forall₂ (MemberSound isChoice) items names ∧ names.Nodup ∧ node.MarkerSound names

/-- The parts of a node of a kind are sound, apart from the types in them. -/
def KindSound (node : Json) : Kind → Prop
  | .null => True
  | .boolean => True
  | .integer => node.BoundsSound false ∧ node.FlagSound "extensible"
  | .octetString => node.BoundsSound true ∧ node.FlagSound "extensible"
  | .bitString => node.BoundsSound true ∧ node.FlagSound "extensible"
  | .text => node.BoundsSound true ∧ node.FlagSound "extensible" ∧ node.CharsetSound
  | .enumerated => node.ItemsSound
  | .sequence => node.MembersSound "fields" false
  | .choice => node.MembersSound "variants" true
  | .sequenceOf => node.BoundsSound true ∧ node.FlagSound "extensible" ∧ (node.under? "element").isSome = true

/-- A type node is well formed, apart from the types in it. -/
def Sound (node : Json) : Prop :=
  node.reference?.isSome = true ∨ node.reference? = none ∧ ∃ kind, node.kind? = some kind ∧ node.KindSound kind

/-! ## Types in types -/

/-- A type node lies in another one. -/
inductive Part (node : Json) : Json → Prop
  /-- The type of a field. -/
  | field {items : List Json} {item inner : Json} : node.reference? = none → node.kind? = some .sequence →
    node.itemsUnder? "fields" = some items → item ∈ items → item.under? "type" = some inner → Part node inner
  /-- The type of an alternative. -/
  | alternative {items : List Json} {item inner : Json} : node.reference? = none → node.kind? = some .choice →
    node.itemsUnder? "variants" = some items → item ∈ items → item.under? "type" = some inner → Part node inner
  /-- The type of the elements. -/
  | element {inner : Json} : node.reference? = none → node.kind? = some .sequenceOf →
    node.under? "element" = some inner → Part node inner

/-- A type node is another one or lies in it at any depth. -/
abbrev Within (node inner : Json) : Prop :=
  Relation.ReflTransGen Part node inner

/-- A definition refers to a name, in one of its nodes. -/
def Mentions (types : List (String × Json)) (name target : String) : Prop :=
  ∃ node inner, member? name types = some node ∧ node.Within inner ∧ inner.reference? = some target

/-! ## Schema documents -/

/-- Definitions that the grammar admits. -/
structure Grammatical (types : List (String × Json)) : Prop where
  /-- All their nodes are sound. -/
  sound : ∀ name node inner, member? name types = some node → node.Within inner → inner.Sound
  /-- All references have a definition. -/
  known : ∀ name target, Mentions types name target → (member? target types).isSome = true
  /-- No definition comes back to itself. -/
  acyclic : ∀ name, ¬Relation.TransGen (Mentions types) name name

/-- The definitions of a schema document. -/
def definitions? (document : Json) : Option (List (String × Json)) :=
  (document.under? "types").bind obj?

/-- A document is a schema. -/
def IsSchema (document : Json) : Prop :=
  ∃ types, document.definitions? = some types ∧ Grammatical types

/-! ## Nodes are smaller than what they lie in -/

/-- What is under a key is one of the members. -/
theorem mem_of_member? {key : String} {members : List (String × Json)} {value : Json}
    (h : member? key members = some value) : (key, value) ∈ members := by
  obtain ⟨before, after, rfl, -⟩ := List.lookup_eq_some_iff.mp h
  exact List.mem_append_right _ (List.mem_cons_self ..)

/-- The names of the definitions are those under which one is found. -/
theorem isSome_member?_iff {key : String} {members : List (String × Json)} :
    (member? key members).isSome = true ↔ key ∈ members.map (·.1) := by
  induction members with
  | nil => simp [member?]
  | cons first rest ih =>
    obtain ⟨k, v⟩ := first
    rw [List.map_cons, List.mem_cons, ← ih, member?, member?, List.lookup_cons]
    by_cases h : key = k
    · simp [h]
    · rw [beq_eq_false_iff_ne.mpr h]
      simp [h]

/-- What is under a key is smaller than the node. -/
theorem sizeOf_under {node inner : Json} {key : String} (h : node.under? key = some inner) : sizeOf inner < sizeOf node := by
  cases node
  case obj members =>
    have hm := List.sizeOf_lt_of_mem (mem_of_member? h)
    simp only [Prod.mk.sizeOf_spec] at hm
    simp only [Json.obj.sizeOf_spec]
    omega
  all_goals cases h

/-- An item under a key is smaller than the node. -/
theorem sizeOf_itemsUnder {node item : Json} {key : String} {items : List Json} (h : node.itemsUnder? key = some items)
    (hm : item ∈ items) : sizeOf item < sizeOf node := by
  obtain ⟨value, hv, ha⟩ := Option.bind_eq_some_iff.mp h
  have hvalue := sizeOf_under hv
  have hitem := List.sizeOf_lt_of_mem hm
  cases value
  case arr items' =>
    cases ha
    simp only [Json.arr.sizeOf_spec] at hvalue
    omega
  all_goals cases ha

/-- A statement of every type node, from the same statement of what may be a type in it. -/
theorem nodeInduction {P : Json → Prop}
    (step : ∀ node, (∀ key inner, node.under? key = some inner → P inner) →
      (∀ key items, node.itemsUnder? key = some items → ∀ item ∈ items, ∀ inner, item.under? "type" = some inner → P inner) →
      P node)
    (node : Json) : P node :=
  step node
    (fun _ inner h =>
      have := sizeOf_under h
      nodeInduction step inner)
    fun _ _ hitems _ hm inner h =>
      have := Nat.lt_trans (sizeOf_under h) (sizeOf_itemsUnder hitems hm)
      nodeInduction step inner
termination_by sizeOf node

/-- What lies in a node is smaller than the node. -/
theorem Part.sizeOf_lt {node inner : Json} (h : Part node inner) : sizeOf inner < sizeOf node := by
  cases h with
  | field _ _ hitems hm ht => exact Nat.lt_trans (sizeOf_under ht) (sizeOf_itemsUnder hitems hm)
  | alternative _ _ hitems hm ht => exact Nat.lt_trans (sizeOf_under ht) (sizeOf_itemsUnder hitems hm)
  | element _ _ he => exact sizeOf_under he

end Json

end UnalignedPer
